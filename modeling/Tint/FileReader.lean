import Mathlib.Data.List.Basic
import Mathlib.Logic.Relation

/-!
# Readers of a file

A reader is a program that reads pieces of a file at positions it computes,
saves and restores its position, stops with an error, and catches one.  A read
that is not inside the file does not fail: the bytes that the file does not have
are what the buffer had before.

A reader carries what makes it one: more fuel changes no result, and a run whose
reads are inside the file depends on nothing but the bytes read.  So a reader
has a meaning on the file alone, `Gives`, and the rules for it are equations.

* `Gives` -- the reader ends with this result at this position, and every read
  is inside the file;
* `EndsInside` -- with every buffer, the run ends and reads inside the file only;
* `endsInside_bind`, `endsInside_loop` -- a sequence and a loop: a loop whose
  turns move forward ends inside the file if each of its turns does;
* `Yields` -- what holds of every result, with the rule of invariants for a loop.
-/

namespace FileReader

/-- A piece of a file. -/
structure Extent where
  start : Int
  size : Nat
  deriving DecidableEq

/-- A file, and what the buffer of each read has before it. -/
structure Disk where
  content : List UInt8
  buffer : Nat → Nat → UInt8

/-- The byte at a position. -/
def byteAt (content : List UInt8) (p : Int) : UInt8 := content.getD p.toNat 0

/-- The bytes from a position on. -/
def bytesAt (content : List UInt8) (p : Int) (size : Nat) : List UInt8 :=
  (List.range size).map fun i : Nat => byteAt content (p + i)

/-- The piece lies inside the file. -/
def Within (content : List UInt8) (p : Int) (size : Nat) : Prop :=
  0 ≤ p ∧ p + size ≤ content.length

instance (content : List UInt8) (p : Int) (size : Nat) : Decidable (Within content p size) :=
  inferInstanceAs (Decidable (_ ∧ _))

/-- The bytes are in the file. -/
def Extent.Within (e : Extent) (content : List UInt8) : Prop :=
  FileReader.Within content e.start e.size

instance (e : Extent) (content : List UInt8) : Decidable (e.Within content) :=
  inferInstanceAs (Decidable (FileReader.Within content e.start e.size))

/-- The `n`th read.  A position before the start is no position of the file. -/
def Disk.read (d : Disk) (n : Nat) (e : Extent) : List UInt8 :=
  -- at a negative position Node reads on from where the descriptor is; here, as behind the end,
  -- nothing is read
  (List.range e.size).map fun i : Nat =>
    if 0 ≤ e.start ∧ e.start + i < d.content.length then byteAt d.content (e.start + i)
    else d.buffer n i

/-- What is read inside of the file is what the file has there. -/
theorem Disk.read_within {d : Disk} {n : Nat} {e : Extent} (h : e.Within d.content) :
    d.read n e = bytesAt d.content e.start e.size := by
  obtain ⟨hstart, hend⟩ := h
  refine List.map_congr_left fun i hi => if_pos ⟨hstart, ?_⟩
  have := List.mem_range.mp hi
  omega

/-- The two files have the same bytes in the piece. -/
def Extent.Same (e : Extent) (content content' : List UInt8) : Prop :=
  e.Within content' ∧ bytesAt content e.start e.size = bytesAt content' e.start e.size

/-- A file agrees with itself. -/
theorem Extent.same_self {e : Extent} {content : List UInt8} (h : e.Within content) :
    e.Same content content := ⟨h, rfl⟩

/-- Where a reader is, and the reads it made. -/
structure State where
  position : Int
  reads : List Extent

/-- The runs of a reader: the disk, the fuel of its loops and the state before.
`none` is a run that needs more fuel. -/
abbrev Run (ε : Type) (α : Type) := Disk → Nat → State → Option (Except ε α × State)

/-- The run makes the new reads, and if they are inside the file, it is the same
with every file that has the same bytes there. -/
def Local {ε : Type} {α : Type} (run : Run ε α) : Prop :=
  ∀ d fuel s r t, run d fuel s = some (r, t) →
    ∃ new, t.reads = s.reads ++ new ∧
      ((∀ e ∈ new, e.Within d.content) →
        ∀ d' old, (∀ e ∈ new, e.Same d.content d'.content) →
          run d' fuel ⟨s.position, old⟩ = some (r, ⟨t.position, old ++ new⟩))

/-- A reader. -/
structure Reader (ε : Type) (α : Type) where
  run : Run ε α
  more : ∀ {d fuel fuel' s r}, run d fuel s = some r → fuel ≤ fuel' → run d fuel' s = some r
  depends : Local run

variable {ε : Type} {α β : Type}

/-! ## Readers -/

/-- Reading nothing, with a result at hand. -/
def Reader.pure (a : α) : Reader ε α where
  run _ _ s := some (.ok a, s)
  more h _ := h
  depends := by
    intro d fuel s r t h
    cases h
    exact ⟨[], by simp, fun _ d' old _ => by simp⟩

/-- The run of a sequence. -/
def bindRun (m : Run ε α) (f : α → Run ε β) : Run ε β := fun d fuel s =>
  match m d fuel s with
  | none => none
  | some (.ok a, s') => f a d fuel s'
  | some (.error e, s') => some (.error e, s')

/-- What a sequence that ended has done. -/
theorem bindRun_some {m : Run ε α} {f : α → Run ε β} {d : Disk} {fuel : Nat} {s t : State}
    {r : Except ε β} (h : bindRun m f d fuel s = some (r, t)) :
    (∃ a s', m d fuel s = some (.ok a, s') ∧ f a d fuel s' = some (r, t)) ∨
      ∃ e, m d fuel s = some (.error e, t) ∧ r = .error e := by
  unfold bindRun at h
  split at h
  · cases h
  · next a s' hm => exact .inl ⟨a, s', hm, h⟩
  · next e s' hm =>
    cases h
    exact .inr ⟨e, hm, rfl⟩

/-- The second run begins where the first one ended. -/
theorem bindRun_ok {m : Run ε α} {f : α → Run ε β} {d : Disk} {fuel : Nat} {s s' : State} {a : α}
    (h : m d fuel s = some (.ok a, s')) : bindRun m f d fuel s = f a d fuel s' := by
  rw [bindRun, h]

/-- Nothing is run behind an error. -/
theorem bindRun_error {m : Run ε α} {f : α → Run ε β} {d : Disk} {fuel : Nat} {s s' : State} {e : ε}
    (h : m d fuel s = some (.error e, s')) : bindRun m f d fuel s = some (.error e, s') := by
  rw [bindRun, h]

/-- More fuel does not change what two runs give. -/
theorem bindRun_more {m : Run ε α} {f : α → Run ε β} {d : Disk} {fuel fuel' : Nat} {s : State}
    {r : Except ε β × State} (hm : ∀ s r, m d fuel s = some r → m d fuel' s = some r)
    (hf : ∀ a s r, f a d fuel s = some r → f a d fuel' s = some r)
    (h : bindRun m f d fuel s = some r) : bindRun m f d fuel' s = some r := by
  obtain ⟨r, t⟩ := r
  rcases bindRun_some h with ⟨a, s', hma, hfa⟩ | ⟨e, hme, rfl⟩
  · rw [bindRun_ok (hm _ _ hma)]
    exact hf a _ _ hfa
  · exact bindRun_error (hm _ _ hme)

/-- Two runs look at no more than each of them does. -/
theorem bindRun_local {m : Run ε α} {f : α → Run ε β} (hm : Local m) (hf : ∀ a, Local (f a)) :
    Local (bindRun m f) := by
  intro d fuel s r t h
  rcases bindRun_some h with ⟨a, s', hma, hfa⟩ | ⟨e, hme, rfl⟩
  · obtain ⟨new, hs', hsame⟩ := hm _ _ _ _ _ hma
    obtain ⟨new', ht, hsame'⟩ := hf a _ _ _ _ _ hfa
    refine ⟨new ++ new', by rw [ht, hs', List.append_assoc], fun hin d' old hd' => ?_⟩
    rw [bindRun_ok
        (hsame (fun e he => hin e (by simp [he])) d' old fun e he => hd' e (by simp [he])),
      hsame' (fun e he => hin e (by simp [he])) d' _ fun e he => hd' e (by simp [he]),
      List.append_assoc]
  · obtain ⟨new, ht, hsame⟩ := hm _ _ _ _ _ hme
    exact ⟨new, ht, fun hin d' old hd' => bindRun_error (hsame hin d' old hd')⟩

/-- One reader after the other. -/
def Reader.bind (m : Reader ε α) (f : α → Reader ε β) : Reader ε β where
  run := bindRun m.run fun a => (f a).run
  more h hle := bindRun_more (fun _ _ h => m.more h hle) (fun a _ _ h => (f a).more h hle) h
  depends := bindRun_local m.depends fun a => (f a).depends

instance : Monad (Reader ε) where
  pure := Reader.pure
  bind := Reader.bind

/-- A reader is its runs. -/
theorem Reader.ext_run {m m' : Reader ε α} (h : m.run = m'.run) : m = m' := by
  cases m
  cases m'
  cases h
  rfl

/-- Where three readers are cut in two does not matter. -/
theorem bind_assoc {γ : Type} (m : Reader ε α) (f : α → Reader ε β) (g : β → Reader ε γ) :
    m >>= f >>= g = m >>= fun a => f a >>= g := by
  refine Reader.ext_run ?_
  funext d fuel s
  change bindRun (bindRun m.run fun a => (f a).run) (fun b => (g b).run) d fuel s =
    bindRun m.run (fun a => bindRun (f a).run fun b => (g b).run) d fuel s
  unfold bindRun
  rcases m.run d fuel s with _ | ⟨_ | a, s'⟩ <;> rfl

/-- A result at hand is passed on. -/
theorem pure_bind (a : α) (f : α → Reader ε β) : pure a >>= f = f a := rfl

/-- The bytes at the position, which moves on. -/
def read (size : Nat) : Reader ε (List UInt8) where
  run d _ s :=
    some (.ok (d.read s.reads.length ⟨s.position, size⟩),
      ⟨s.position + size, s.reads ++ [⟨s.position, size⟩]⟩)
  more h _ := h
  depends := by
    intro d fuel s r t h
    cases h
    refine ⟨[⟨s.position, size⟩], rfl, fun hin d' old hd' => ?_⟩
    obtain ⟨hin', hbytes⟩ := hd' ⟨s.position, size⟩ (by simp)
    have hread := Disk.read_within (n := s.reads.length) (hin ⟨s.position, size⟩ (by simp))
    have hread' := Disk.read_within (n := old.length) hin'
    simp only [hread, hread', hbytes]

/-- The position in the file. -/
def position : Reader ε Int where
  run _ _ s := some (.ok s.position, s)
  more h _ := h
  depends := by
    intro d fuel s r t h
    cases h
    exact ⟨[], by simp, fun _ d' old _ => by simp⟩

/-- Going to a position. -/
def seek (p : Int) : Reader ε Unit where
  run _ _ s := some (.ok ⟨⟩, { s with position := p })
  more h _ := h
  depends := by
    intro d fuel s r t h
    cases h
    exact ⟨[], by simp, fun _ d' old _ => by simp⟩

/-- Ending with an error. -/
def throw (e : ε) : Reader ε α where
  run _ _ s := some (.error e, s)
  more h _ := h
  depends := by
    intro d fuel s r t h
    cases h
    exact ⟨[], by simp, fun _ d' old _ => by simp⟩

/-- An assertion. -/
def check (c : Bool) (e : ε) : Reader ε Unit := if c then Reader.pure ⟨⟩ else throw e

/-- The result of a reader, an error as well. -/
def attempt (m : Reader ε α) : Reader ε (Except ε α) where
  run d fuel s := (m.run d fuel s).map fun r => (.ok r.1, r.2)
  more h hle := by
    obtain ⟨r, hr, rfl⟩ := Option.map_eq_some_iff.mp h
    rw [m.more hr hle, Option.map_some]
  depends := by
    intro d fuel s r t h
    obtain ⟨⟨r', t'⟩, hr, heq⟩ := Option.map_eq_some_iff.mp h
    cases heq
    obtain ⟨new, hnew, hsame⟩ := m.depends _ _ _ _ _ hr
    exact ⟨new, hnew, fun hin d' old hd' =>
      Option.map_eq_some_iff.mpr ⟨_, hsame hin d' old hd', rfl⟩⟩

/-- `n` results one after the other. -/
def times : Nat → Reader ε α → Reader ε (List α)
  | 0, _ => Reader.pure []
  | n + 1, m => m.bind fun a => (times n m).bind fun as => Reader.pure (a :: as)

/-- At most `turns` turns of a loop. -/
def loopRun (cond : β → Int → Bool) (body : β → Run ε β) : Nat → β → Run ε β
  | 0, _, _, _, _ => none
  | turns + 1, b, d, fuel, s =>
    if cond b s.position then bindRun (body b) (loopRun cond body turns) d fuel s
    else some (.ok b, s)

/-- More fuel does not change what a loop gives. -/
theorem loopRun_more {cond : β → Int → Bool} {body : β → Run ε β} {d : Disk} {fuel fuel' : Nat}
    (hbody : ∀ b s r, body b d fuel s = some r → body b d fuel' s = some r) :
    ∀ {turns turns' : Nat} {b : β} {s : State} {r : Except ε β × State}, turns ≤ turns' →
      loopRun cond body turns b d fuel s = some r → loopRun cond body turns' b d fuel' s = some r
  | 0, _, _, _, _, _, h => by cases h
  | n + 1, 0, _, _, _, hle, _ => absurd hle (by omega)
  | n + 1, n' + 1, b, s, (r, t), hle, h => by
    rw [loopRun] at h ⊢
    split at h
    · next hcond =>
      rw [if_pos hcond]
      rcases bindRun_some h with ⟨b', s', hb, hrest⟩ | ⟨e, hb, rfl⟩
      · rw [bindRun_ok (hbody _ _ _ hb)]
        exact loopRun_more hbody (by omega) hrest
      · exact bindRun_error (hbody _ _ _ hb)
    · next hcond => rwa [if_neg hcond]

/-- A loop looks at no more than its turns do. -/
theorem loopRun_local {cond : β → Int → Bool} {body : β → Run ε β} (hbody : ∀ b, Local (body b)) :
    ∀ (turns : Nat) (b : β), Local (loopRun cond body turns b)
  | 0, _ => fun _ _ _ _ _ h => by cases h
  | turns + 1, b => by
    intro d fuel s r t h
    rw [loopRun] at h
    split at h
    · next hcond =>
      obtain ⟨new, hnew, hsame⟩ :=
        bindRun_local (hbody b) (loopRun_local hbody turns) d fuel s r t h
      refine ⟨new, hnew, fun hin d' old hd' => ?_⟩
      rw [loopRun, if_pos hcond]
      exact hsame hin d' old hd'
    · next hcond =>
      cases h
      refine ⟨[], by simp, fun _ d' old _ => ?_⟩
      rw [loopRun, if_neg hcond, List.append_nil]

/-- `while (cond) body`, over the variables `b` of the loop and the position. -/
def loop (cond : β → Int → Bool) (body : β → Reader ε β) (b : β) : Reader ε β where
  run d fuel s := loopRun cond (fun b => (body b).run) fuel b d fuel s
  more h hle := loopRun_more (fun b _ _ h => (body b).more h hle) hle h
  depends := fun d fuel s r t h =>
    loopRun_local (fun b => (body b).depends) fuel b d fuel s r t h

/-! ## What a reader gives -/

section Gives

variable {c c' : List UInt8} {m : Reader ε α} {f : α → Reader ε β} {p q : Int}

/-- The reader reads these pieces, all inside the file, and ends at `q` with `r`. -/
def Runs (c : List UInt8) (m : Reader ε α) (p : Int) (r : Except ε α) (q : Int)
    (reads : List Extent) : Prop :=
  (∀ e ∈ reads, e.Within c) ∧
    ∃ fuel, ∀ buffer old, m.run ⟨c, buffer⟩ fuel ⟨p, old⟩ = some (r, ⟨q, old ++ reads⟩)

/-- The reader ends at `q` with `r`, and reads inside the file only. -/
def Gives (c : List UInt8) (m : Reader ε α) (p : Int) (r : Except ε α) (q : Int) : Prop :=
  ∃ reads, Runs c m p r q reads

/-- With every buffer, the run ends, and every read is inside the file. -/
def EndsInside (c : List UInt8) (m : Reader ε α) (p : Int) : Prop :=
  ∀ buffer, ∃ fuel r t, m.run ⟨c, buffer⟩ fuel ⟨p, []⟩ = some (r, t) ∧ ∀ e ∈ t.reads, e.Within c

/-- A run inside the file. -/
theorem Runs.of_run {buffer : Nat → Nat → UInt8} {fuel : Nat} {r : Except ε α} {reads : List Extent}
    (old : List Extent) (h : m.run ⟨c, buffer⟩ fuel ⟨p, old⟩ = some (r, ⟨q, old ++ reads⟩))
    (hin : ∀ e ∈ reads, e.Within c) : Runs c m p r q reads := by
  obtain ⟨new, hnew, hsame⟩ := m.depends _ _ _ _ _ h
  obtain rfl : reads = new := List.append_cancel_left hnew
  exact ⟨hin, fuel, fun buffer' old' =>
    hsame hin ⟨c, buffer'⟩ old' fun e he => Extent.same_self (hin e he)⟩

/-- **Frame.**  A file with the same bytes in the pieces read gives the same. -/
theorem Runs.frame {r : Except ε α} {reads : List Extent} (h : Runs c m p r q reads)
    (hsame : ∀ e ∈ reads, e.Same c c') : Runs c' m p r q reads := by
  obtain ⟨hin, fuel, hrun⟩ := h
  have hzero := hrun (fun _ _ => 0) []
  obtain ⟨new, hnew, hdepends⟩ := m.depends _ _ _ _ _ hzero
  obtain rfl : reads = new := hnew
  exact ⟨fun e he => (hsame e he).1, fuel, fun buffer old => hdepends hin ⟨c', buffer⟩ old hsame⟩

/-- A reader has one run from a position. -/
theorem Runs.unique {r r' : Except ε α} {q' : Int} {reads reads' : List Extent}
    (h : Runs c m p r q reads) (h' : Runs c m p r' q' reads') :
    r = r' ∧ q = q' ∧ reads = reads' := by
  obtain ⟨-, fuel, hrun⟩ := h
  obtain ⟨-, fuel', hrun'⟩ := h'
  have hmore := m.more (hrun (fun _ _ => 0) []) (Nat.le_max_left fuel fuel')
  have hmore' := m.more (hrun' (fun _ _ => 0) []) (Nat.le_max_right fuel fuel')
  rw [hmore] at hmore'
  simp only [List.nil_append, Option.some.injEq, Prod.mk.injEq, State.mk.injEq] at hmore'
  exact ⟨hmore'.1, hmore'.2.1, hmore'.2.2⟩

/-- A reader gives one result from a position. -/
theorem Gives.unique {r r' : Except ε α} {q' : Int} (h : Gives c m p r q) (h' : Gives c m p r' q') :
    r = r' ∧ q = q' := by
  obtain ⟨reads, hruns⟩ := h
  obtain ⟨reads', hruns'⟩ := h'
  exact ⟨(hruns.unique hruns').1, (hruns.unique hruns').2.1⟩

/-- To stay inside is to give something. -/
theorem endsInside_iff : EndsInside c m p ↔ ∃ r q, Gives c m p r q := by
  constructor
  · intro h
    obtain ⟨fuel, r, ⟨q, reads⟩, hrun, hin⟩ := h fun _ _ => 0
    exact ⟨r, q, reads, Runs.of_run [] hrun hin⟩
  · rintro ⟨r, q, reads, hin, fuel, hrun⟩ buffer
    exact ⟨fuel, r, ⟨q, [] ++ reads⟩, hrun buffer [], hin⟩

/-- What gives something stayed inside. -/
theorem Gives.endsInside {r : Except ε α} (h : Gives c m p r q) : EndsInside c m p :=
  endsInside_iff.mpr ⟨r, q, h⟩

/-! ## The rules -/

/-- A reader that does the same on every disk. -/
theorem gives_of_run {r r' : Except ε α} {q' : Int} (reads : List Extent)
    (hrun : ∀ buffer fuel old, m.run ⟨c, buffer⟩ fuel ⟨p, old⟩ = some (r', ⟨q', old ++ reads⟩))
    (hin : ∀ e ∈ reads, e.Within c) : Gives c m p r q ↔ r = r' ∧ q = q' := by
  have hgives : Gives c m p r' q' := ⟨reads, hin, 0, fun buffer old => hrun buffer 0 old⟩
  constructor
  · exact fun h => h.unique hgives
  · rintro ⟨rfl, rfl⟩
    exact hgives

/-- Reading nothing gives the result at hand. -/
@[simp] theorem gives_pure {a : α} {r : Except ε α} :
    Gives c (pure a : Reader ε α) p r q ↔ r = .ok a ∧ q = p :=
  gives_of_run [] (fun _ _ _ => by simp [pure, Reader.pure]) (by simp)

/-- The position is given, and stays. -/
@[simp] theorem gives_position {r : Except ε Int} : Gives c position p r q ↔ r = .ok p ∧ q = p :=
  gives_of_run [] (fun _ _ _ => by simp [position]) (by simp)

/-- After going there, that is the position. -/
@[simp] theorem gives_seek {r : Except ε Unit} {p' : Int} :
    Gives c (seek p') p r q ↔ r = .ok ⟨⟩ ∧ q = p' :=
  gives_of_run [] (fun _ _ _ => by simp [seek]) (by simp)

/-- The error is given. -/
@[simp] theorem gives_throw {e : ε} {r : Except ε α} :
    Gives c (throw e : Reader ε α) p r q ↔ r = .error e ∧ q = p :=
  gives_of_run [] (fun _ _ _ => by simp [throw]) (by simp)

/-- A check gives its error if it fails. -/
@[simp] theorem gives_check {b : Bool} {e : ε} {r : Except ε Unit} :
    Gives c (check b e) p r q ↔ (r = if b then .ok ⟨⟩ else .error e) ∧ q = p := by
  cases b
  · exact gives_throw
  · exact gives_pure

/-- Bytes are given where the file has them. -/
theorem gives_read {n : Nat} {r : Except ε (List UInt8)} :
    Gives c (read n) p r q ↔ Within c p n ∧ r = .ok (bytesAt c p n) ∧ q = p + n := by
  constructor
  · rintro ⟨reads, hin, fuel, hrun⟩
    have h := hrun (fun _ _ => 0) []
    simp only [read, List.length_nil, List.nil_append, Option.some.injEq, Prod.mk.injEq,
      State.mk.injEq] at h
    obtain ⟨hr, hq, hreads⟩ := h
    have hwithin : Extent.Within ⟨p, n⟩ c := hin _ (by simp [← hreads])
    exact ⟨hwithin, by rw [← hr, Disk.read_within hwithin], hq.symm⟩
  · rintro ⟨hwithin, rfl, rfl⟩
    refine ⟨[⟨p, n⟩], fun e he => List.mem_singleton.mp he ▸ hwithin, 0, fun buffer old => ?_⟩
    have hread := Disk.read_within (d := ⟨c, buffer⟩) (n := old.length) (e := ⟨p, n⟩) hwithin
    simp only [read, hread]

/-- What two readers give, one after the other. -/
theorem gives_bind {r : Except ε β} : Gives c (m >>= f) p r q ↔
    (∃ a q', Gives c m p (.ok a) q' ∧ Gives c (f a) q' r q) ∨
      ∃ e, Gives c m p (.error e) q ∧ r = .error e := by
  constructor
  · rintro ⟨reads, hin, fuel, hrun⟩
    rcases bindRun_some (hrun (fun _ _ => 0) []) with ⟨a, ⟨q', mid⟩, hm, hf⟩ | ⟨e, hm, rfl⟩
    · obtain ⟨new, hnew, -⟩ := m.depends _ _ _ _ _ hm
      obtain ⟨new', hnew', -⟩ := (f a).depends _ _ _ _ _ hf
      simp only [List.nil_append] at hnew hnew' hf
      subst hnew hnew'
      exact .inl ⟨a, q', ⟨mid, Runs.of_run [] hm fun e he => hin e (by simp [he])⟩,
        new', Runs.of_run _ hf fun e he => hin e (by simp [he])⟩
    · exact .inr ⟨e, ⟨reads, Runs.of_run _ hm hin⟩, rfl⟩
  · rintro
      (⟨a, q', ⟨reads, hin, fuel, hm⟩, reads', hin', fuel', hf⟩ | ⟨e, ⟨reads, hin, fuel, hm⟩, rfl⟩)
    · refine ⟨reads ++ reads', fun e he => ?_, max fuel fuel', fun buffer old => ?_⟩
      · exact (List.mem_append.mp he).elim (hin e) (hin' e)
      · rw [← List.append_assoc]
        exact (bindRun_ok (m.more (hm buffer old) (Nat.le_max_left _ _))).trans
          ((f a).more (hf buffer _) (Nat.le_max_right _ _))
    · exact ⟨reads, hin, fuel, fun buffer old => bindRun_error (hm buffer old)⟩

/-- **A sequence** ends inside the file if its first part does, and what follows does. -/
theorem endsInside_bind : EndsInside c (m >>= f) p ↔
    EndsInside c m p ∧ ∀ a q, Gives c m p (.ok a) q → EndsInside c (f a) q := by
  simp only [endsInside_iff]
  constructor
  · rintro ⟨r, q, h⟩
    rcases gives_bind.mp h with ⟨a, q', hm, hf⟩ | ⟨e, hm, rfl⟩
    · refine ⟨⟨_, _, hm⟩, fun a' q'' hm' => ?_⟩
      obtain ⟨ha, rfl⟩ := hm.unique hm'
      cases ha
      exact ⟨r, q, hf⟩
    · exact ⟨⟨_, _, hm⟩, fun a q' hm' => by cases (hm.unique hm').1⟩
  · rintro ⟨⟨r, q, hm⟩, hf⟩
    cases r with
    | error e => exact ⟨_, _, gives_bind.mpr (.inr ⟨e, hm, rfl⟩)⟩
    | ok a =>
      obtain ⟨r, q', hf⟩ := hf a q hm
      exact ⟨r, q', gives_bind.mpr (.inl ⟨a, q, hm, hf⟩)⟩

/-- An error is given as a result. -/
theorem gives_attempt {r : Except ε (Except ε α)} :
    Gives c (attempt m) p r q ↔ ∃ r', Gives c m p r' q ∧ r = .ok r' := by
  constructor
  · rintro ⟨reads, hin, fuel, hrun⟩
    obtain ⟨⟨r', ⟨q', new⟩⟩, hm, heq⟩ := Option.map_eq_some_iff.mp (hrun (fun _ _ => 0) [])
    cases heq
    exact ⟨r', ⟨reads, Runs.of_run _ hm hin⟩, rfl⟩
  · rintro ⟨r', ⟨reads, hin, fuel, hrun⟩, rfl⟩
    exact ⟨reads, hin, fuel, fun buffer old => Option.map_eq_some_iff.mpr ⟨_, hrun buffer old, rfl⟩⟩

/-- Catching an error reads no more. -/
theorem endsInside_attempt : EndsInside c (attempt m) p ↔ EndsInside c m p := by
  simp only [endsInside_iff, gives_attempt]
  constructor
  · rintro ⟨_, q, r, h, -⟩
    exact ⟨r, q, h⟩
  · rintro ⟨r, q, h⟩
    exact ⟨_, q, r, h, rfl⟩

end Gives

/-! ## Sequences -/

section Sequences

variable {c : List UInt8} {m : Reader ε α} {f : α → Reader ε β} {p q : Int}

/-- Reading nothing stays inside. -/
@[simp] theorem endsInside_pure {a : α} : EndsInside c (pure a : Reader ε α) p :=
  (gives_pure.mpr ⟨rfl, rfl⟩).endsInside

/-- An error reads nothing. -/
@[simp] theorem endsInside_throw {e : ε} : EndsInside c (throw e : Reader ε α) p :=
  (gives_throw.mpr ⟨rfl, rfl⟩).endsInside

/-- What a sequence that ended without an error has done. -/
theorem gives_bind_ok {b : β} : Gives c (m >>= f) p (.ok b) q ↔
    ∃ a q', Gives c m p (.ok a) q' ∧ Gives c (f a) q' (.ok b) q := by
  rw [gives_bind]
  constructor
  · rintro (h | ⟨e, -, he⟩)
    · exact h
    · cases he
  · exact .inl

/-- The reader ends at once, with this value and at this position. -/
def Still (m : Reader ε α) (value : Int → α) (next : Int → Int) : Prop :=
  ∀ c p r q, Gives c m p r q ↔ r = .ok (value p) ∧ q = next p

/-- Asking for the position reads nothing. -/
theorem still_position : Still (position : Reader ε Int) (fun p => p) fun p => p :=
  fun _ _ _ _ => gives_position

/-- Going somewhere reads nothing. -/
theorem still_seek (p' : Int) : Still (seek p' : Reader ε Unit) (fun _ => ⟨⟩) fun _ => p' :=
  fun _ _ _ _ => gives_seek

/-- A reader stays inside if it does behind what reads nothing. -/
theorem Still.endsInside_bind {value : Int → α} {next : Int → Int} (h : Still m value next) :
    EndsInside c (m >>= f) p ↔ EndsInside c (f (value p)) (next p) := by
  rw [FileReader.endsInside_bind]
  constructor
  · exact fun hends => hends.2 _ _ ((h c p _ _).mpr ⟨rfl, rfl⟩)
  · refine fun hends => ⟨((h c p _ _).mpr ⟨rfl, rfl⟩).endsInside, fun a q hgives => ?_⟩
    obtain ⟨ha, rfl⟩ := (h c p _ _).mp hgives
    cases ha
    exact hends

/-- What a reader gives behind what reads nothing. -/
theorem Still.gives_bind {value : Int → α} {next : Int → Int} (h : Still m value next)
    {r : Except ε β} : Gives c (m >>= f) p r q ↔ Gives c (f (value p)) (next p) r q := by
  rw [FileReader.gives_bind]
  constructor
  · rintro (⟨a, q', hm, hf⟩ | ⟨e, hm, -⟩)
    · obtain ⟨ha, rfl⟩ := (h c p _ _).mp hm
      cases ha
      exact hf
    · cases ((h c p _ _).mp hm).1
  · exact fun hf => .inl ⟨_, _, (h c p _ _).mpr ⟨rfl, rfl⟩, hf⟩

/-- Asking for the position first leaves a reader inside. -/
@[simp] theorem endsInside_position_bind {f : Int → Reader ε β} :
    EndsInside c (position >>= f) p ↔ EndsInside c (f p) p :=
  Still.endsInside_bind still_position

/-- What a reader that first asks for the position gives. -/
@[simp] theorem gives_position_bind {f : Int → Reader ε β} {r : Except ε β} :
    Gives c (position >>= f) p r q ↔ Gives c (f p) p r q :=
  Still.gives_bind still_position

/-- A reader that first goes somewhere stays inside if it does from there. -/
@[simp] theorem endsInside_seek_bind {p' : Int} {f : Unit → Reader ε β} :
    EndsInside c (seek p' >>= f) p ↔ EndsInside c (f ⟨⟩) p' :=
  Still.endsInside_bind (still_seek p')

/-- What a reader that first goes somewhere gives. -/
@[simp] theorem gives_seek_bind {p' : Int} {f : Unit → Reader ε β} {r : Except ε β} :
    Gives c (seek p' >>= f) p r q ↔ Gives c (f ⟨⟩) p' r q :=
  Still.gives_bind (still_seek p')

/-- A check that succeeds reads nothing. -/
theorem still_check_true (e : ε) : Still (check true e) (fun _ => ()) fun p => p :=
  fun _ _ _ _ => gives_pure

/-- After an assertion that fails nothing is read. -/
@[simp] theorem endsInside_check_bind {b : Bool} {e : ε} {f : Unit → Reader ε β} :
    EndsInside c (check b e >>= f) p ↔ (b = true → EndsInside c (f ()) p) := by
  cases b with
  | true => exact (still_check_true e).endsInside_bind.trans ⟨fun h _ => h, fun h => h rfl⟩
  | false =>
    have hfails : Gives c (check false e >>= f) p (.error e) p :=
      gives_bind.mpr (.inr ⟨e, gives_check.mpr ⟨rfl, rfl⟩, rfl⟩)
    exact iff_of_true hfails.endsInside fun h => by cases h

/-- Behind a check there is a result if the check succeeds. -/
@[simp] theorem gives_check_bind_ok {b : Bool} {e : ε} {f : Unit → Reader ε β} {x : β} :
    Gives c (check b e >>= f) p (.ok x) q ↔ b = true ∧ Gives c (f ()) p (.ok x) q := by
  cases b with
  | true => exact (still_check_true e).gives_bind.trans ⟨fun h => ⟨rfl, h⟩, fun h => h.2⟩
  | false => simp [gives_bind_ok]

/-! ## Pieces of one size -/

/-- Bytes in a row are there if both parts are. -/
theorem within_append {n k : Nat} : Within c p n ∧ Within c (p + n) k ↔ Within c p (n + k) := by
  unfold Within
  omega

/-- Fewer bytes are there too. -/
theorem Within.mono {n k : Nat} (h : Within c p n) (hle : k ≤ n) : Within c p k := by
  unfold Within at *
  omega

/-- The reader reads `size` bytes, and its value depends on nothing else. -/
def Block (c : List UInt8) (m : Reader ε α) (size : Nat) (value : Int → α) : Prop :=
  ∀ p r q, Gives c m p r q ↔ Within c p size ∧ r = .ok (value p) ∧ q = p + size

variable {size size' : Nat} {value : Int → α}

/-- A read is a block of its bytes. -/
theorem block_read {n : Nat} : Block c (read n : Reader ε _) n fun p => bytesAt c p n :=
  fun _ _ _ => gives_read

/-- A block stays inside if its bytes are in the file. -/
theorem Block.endsInside (h : Block c m size value) : EndsInside c m p ↔ Within c p size := by
  rw [endsInside_iff]
  constructor
  · rintro ⟨r, q, hgives⟩
    exact ((h p r q).mp hgives).1
  · exact fun hin => ⟨_, _, (h p _ _).mpr ⟨hin, rfl, rfl⟩⟩

/-- A reader that begins with a block stays inside if there is room and the rest does. -/
theorem Block.endsInside_bind (h : Block c m size value) :
    EndsInside c (m >>= f) p ↔ Within c p size ∧ EndsInside c (f (value p)) (p + size) := by
  rw [FileReader.endsInside_bind, h.endsInside]
  refine and_congr_right fun hin => ⟨fun hf => ?_, fun hf a q hgives => ?_⟩
  · exact hf _ _ ((h p _ _).mpr ⟨hin, rfl, rfl⟩)
  · obtain ⟨-, ha, rfl⟩ := (h p _ _).mp hgives
    cases ha
    exact hf

/-- What a reader that begins with a block gives. -/
theorem Block.gives_bind (h : Block c m size value) {r : Except ε β} :
    Gives c (m >>= f) p r q ↔ Within c p size ∧ Gives c (f (value p)) (p + size) r q := by
  rw [FileReader.gives_bind]
  constructor
  · rintro (⟨a, q', hm, hf⟩ | ⟨e, hm, -⟩)
    · obtain ⟨hin, ha, rfl⟩ := (h p _ _).mp hm
      cases ha
      exact ⟨hin, hf⟩
    · cases ((h p _ _).mp hm).2.1
  · rintro ⟨hin, hf⟩
    exact .inl ⟨_, _, (h p _ _).mpr ⟨hin, rfl, rfl⟩, hf⟩

/-- Two blocks are one. -/
theorem Block.bind (h : Block c m size value) {value' : α → Int → β}
    (hf : ∀ a, Block c (f a) size' (value' a)) :
    Block c (m >>= f) (size + size') fun p => value' (value p) (p + size) := by
  intro p r q
  rw [h.gives_bind, hf, ← within_append, Int.natCast_add, Int.add_assoc, and_assoc]

/-- What is made of a block is one. -/
theorem Block.map (h : Block c m size value) {g : α → β} :
    Block c (m >>= fun a => pure (g a)) size fun p => g (value p) := by
  intro p r q
  rw [h.gives_bind, gives_pure]

/-- The position after the piece goes into the value. -/
theorem Block.position (h : Block c m size value) {g : α → Int → β} :
    Block c (m >>= fun a => FileReader.position >>= fun q => pure (g a q)) size
      fun p => g (value p) (p + size) := by
  intro p r q
  rw [h.gives_bind, gives_position_bind, gives_pure]

/-- The value of a block in other words. -/
theorem Block.congr {value' : Int → α} (h : Block c m size value) (hvalue : ∀ p, value p = value' p)
    (hsize : size = size') : Block c m size' value' := by
  intro p r q
  rw [← hsize, h p r q, hvalue]

/-- The values of pieces one after the other. -/
def valuesAt (value : Int → α) (size : Nat) : Nat → Int → List α
  | 0, _ => []
  | n + 1, p => value p :: valuesAt value size n (p + size)

/-- One time more is once, and then the others. -/
theorem times_succ {n : Nat} :
    times (n + 1) m = m >>= fun a => times n m >>= fun as => pure (a :: as) := rfl

/-- The end of bytes that are there is in the file. -/
theorem Within.zero {n : Nat} (h : Within c p n) : Within c (p + n) 0 := by
  unfold Within at *
  omega

/-- Blocks in a row give their values. -/
theorem Block.gives_times (h : Block c m size value) {n : Nat} {r : Except ε (List α)}
    (hp : Within c p 0) : Gives c (times n m) p r q ↔
      Within c p (n * size) ∧ r = .ok (valuesAt value size n p) ∧ q = p + (n * size : Nat) := by
  induction n generalizing p q r with
  | zero =>
    refine gives_pure.trans ⟨fun ⟨hr, hq⟩ => ⟨by simpa using hp, hr, by simpa using hq⟩, ?_⟩
    exact fun ⟨_, hr, hq⟩ => ⟨hr, by simpa using hq⟩
  | succ n ih =>
    have hsize : size + n * size = (n + 1) * size := by rw [Nat.succ_mul, Nat.add_comm]
    rw [times_succ, h.gives_bind, ← hsize, ← within_append, and_assoc]
    refine and_congr_right fun hin => ?_
    rw [FileReader.gives_bind]
    simp only [ih hin.zero, gives_pure]
    constructor
    · rintro (⟨as, q', ⟨hrest, has, rfl⟩, rfl, rfl⟩ | ⟨e, ⟨-, he, -⟩, -⟩)
      · cases has
        exact ⟨hrest, rfl, by omega⟩
      · cases he
    · rintro ⟨hrest, rfl, rfl⟩
      exact .inl ⟨_, _, ⟨hrest, rfl, rfl⟩, rfl, by omega⟩

/-- Blocks in a row stay inside if there is room for all of them. -/
theorem Block.endsInside_times (h : Block c m size value) {n : Nat} (hp : Within c p 0) :
    EndsInside c (times n m) p ↔ Within c p (n * size) := by
  rw [endsInside_iff]
  constructor
  · rintro ⟨r, q, hgives⟩
    exact ((h.gives_times hp).mp hgives).1
  · exact fun hin => ⟨_, _, (h.gives_times hp).mpr ⟨hin, rfl, rfl⟩⟩

/-- Blocks in a row are one block. -/
theorem Block.times (h : Block c m size value) (n : Nat) :
    Block c (FileReader.times (n + 1) m) ((n + 1) * size) (valuesAt value size (n + 1)) := by
  intro p r q
  constructor
  · intro hgives
    have hfirst := hgives
    rw [times_succ, h.gives_bind] at hfirst
    exact (h.gives_times (hfirst.1.mono (Nat.zero_le _))).mp hgives
  · intro hall
    exact (h.gives_times (hall.1.mono (Nat.zero_le _))).mpr hall

/-- A reader that begins with blocks in a row stays inside. -/
theorem Block.endsInside_times_bind (h : Block c m size value) {n : Nat} (hp : Within c p 0)
    {f : List α → Reader ε β} : EndsInside c (FileReader.times n m >>= f) p ↔
      Within c p (n * size) ∧
        EndsInside c (f (valuesAt value size n p)) (p + (n * size : Nat)) := by
  rw [FileReader.endsInside_bind, h.endsInside_times hp]
  refine and_congr_right fun hin => ⟨fun hf => ?_, fun hf as q hgives => ?_⟩
  · exact hf _ _ ((h.gives_times hp).mpr ⟨hin, rfl, rfl⟩)
  · obtain ⟨-, has, rfl⟩ := (h.gives_times hp).mp hgives
    cases has
    exact hf

/-! ## Pieces that lead elsewhere -/

/-- The reader comes back to the end of its piece when it does not fail. -/
def Returns (c : List UInt8) (m : Reader ε α) (size : Nat) : Prop :=
  ∀ p a q, Gives c m p (.ok a) q → q = p + size

/-- Readers that come back behind the same number of bytes are read one by one. -/
theorem Returns.gives_times (h : Returns c m size) {n : Nat} :
    (∃ as q, Gives c (times n m) p (.ok as) q) ↔
      ∀ i : Nat, i < n → ∃ a q, Gives c m (p + size * i) (.ok a) q := by
  induction n generalizing p with
  | zero => exact iff_of_true ⟨[], p, gives_pure.mpr ⟨rfl, rfl⟩⟩ fun i hi => by omega
  | succ n ih =>
    simp only [times_succ, gives_bind_ok (m := m), gives_bind_ok (m := times n m), gives_pure]
    have hshift : ∀ i : Nat, p + size + size * (i : Int) = p + size * ((i + 1 : Nat) : Int) :=
      fun i => by
      rw [Int.natCast_succ, Int.mul_add, Int.mul_one]
      omega
    constructor
    · rintro ⟨as, q, a, q', ha, as', q'', has, -, -⟩
      obtain rfl := h _ _ _ ha
      intro i hi
      cases i with
      | zero => exact ⟨a, _, by simpa using ha⟩
      | succ i =>
        rw [← hshift]
        exact ih.mp ⟨as', q'', has⟩ i (by omega)
    · intro hall
      obtain ⟨a, q, ha⟩ := hall 0 (by omega)
      obtain ⟨as, q', has⟩ := ih.mpr fun i hi => hshift i ▸ hall (i + 1) (by omega)
      obtain rfl := h _ _ _ ha
      simp only [Int.natCast_zero, Int.mul_zero, Int.add_zero] at ha has
      exact ⟨_, q', a, _, ha, as, q', has, rfl, rfl⟩

/-- Pieces one after the other end inside the file if each does that is come to. -/
theorem Returns.endsInside_times (h : Returns c m size) {n : Nat} :
    EndsInside c (times n m) p ↔ ∀ i : Nat, i < n →
      (∀ j : Nat, j < i → ∃ a q, Gives c m (p + size * j) (.ok a) q) →
        EndsInside c m (p + size * i) := by
  induction n generalizing p with
  | zero => exact iff_of_true endsInside_pure fun i hi => by omega
  | succ n ih =>
    have hshift : ∀ i : Nat, p + size + size * (i : Int) = p + size * ((i + 1 : Nat) : Int) :=
      fun i => by
      rw [Int.natCast_succ, Int.mul_add, Int.mul_one]
      omega
    have hzero : p + size * ((0 : Nat) : Int) = p := by simp
    simp only [times_succ, endsInside_bind (m := m), endsInside_bind (m := times n m),
      endsInside_pure, implies_true, and_true]
    constructor
    · rintro ⟨hfirst, hrest⟩ i hi hbefore
      cases i with
      | zero => rwa [hzero]
      | succ i =>
        obtain ⟨a, q, ha⟩ := hbefore 0 (by omega)
        rw [hzero] at ha
        have hends := ih.mp (h _ _ _ ha ▸ hrest a q ha) i (by omega) fun j hj =>
          hshift j ▸ hbefore (j + 1) (by omega)
        rwa [hshift] at hends
    · intro hall
      have hfirst := hall 0 (by omega) fun j hj => by omega
      rw [hzero] at hfirst
      refine ⟨hfirst, fun a q ha => ?_⟩
      rw [h _ _ _ ha]
      refine ih.mpr fun i hi hbefore => ?_
      rw [hshift]
      refine hall (i + 1) (by omega) fun j hj => ?_
      cases j with
      | zero => exact ⟨a, q, by rwa [hzero]⟩
      | succ j =>
        rw [← hshift]
        exact hbefore j (by omega)

end Sequences

/-! ## Loops -/

section Loop

variable {c : List UInt8} {cond : β → Int → Bool} {body : β → Reader ε β}

/-- The turns of a loop, from the variables `b` at `p` on. -/
inductive Turns (c : List UInt8) (cond : β → Int → Bool) (body : β → Reader ε β) :
    β → Int → Except ε β → Int → Prop
  | done {b : β} {p : Int} (hcond : cond b p = false) : Turns c cond body b p (.ok b) p
  | turn {b b' : β} {p p' q : Int} {r : Except ε β} (hcond : cond b p = true)
      (hbody : Gives c (body b) p (.ok b') p') (hrest : Turns c cond body b' p' r q) :
      Turns c cond body b p r q
  | stop {b : β} {p q : Int} {e : ε} (hcond : cond b p = true)
      (hbody : Gives c (body b) p (.error e) q) : Turns c cond body b p (.error e) q

/-- A loop whose condition fails is over. -/
theorem Gives.loop_done {b : β} {p : Int} (hcond : cond b p = false) :
    Gives c (loop cond body b) p (.ok b) p :=
  ⟨[], by simp, 1, fun buffer old => by simp [loop, loopRun, hcond]⟩

/-- A loop whose condition holds takes a turn and goes on. -/
theorem Gives.loop_turn {b : β} {p q : Int} {r : Except ε β} (hcond : cond b p = true)
    (h : Gives c (body b >>= loop cond body) p r q) : Gives c (loop cond body b) p r q := by
  obtain ⟨reads, hin, fuel, hrun⟩ := h
  refine ⟨reads, hin, fuel + 1, fun buffer old => ?_⟩
  simp only [loop, loopRun, hcond, if_true]
  exact bindRun_more (fun _ _ h => (body b).more h (Nat.le_succ fuel))
    (fun b' s r h => loopRun_more (fun b s r h => (body b).more h (Nat.le_succ fuel))
      (Nat.le_refl _) h)
    (hrun buffer old)

/-- A run of the loop that stayed inside is a sequence of turns. -/
theorem turns_of_loopRun {buffer : Nat → Nat → UInt8} {fuel : Nat} :
    ∀ {turns : Nat} {b : β} {s t : State} {r : Except ε β},
      loopRun cond (fun b => (body b).run) turns b ⟨c, buffer⟩ fuel s = some (r, t) →
      (∀ e ∈ t.reads, e.Within c) → Turns c cond body b s.position r t.position
  | 0, _, _, _, _, h, _ => by cases h
  | turns + 1, b, s, t, r, h, hin => by
    rw [loopRun] at h
    split at h
    · next hcond =>
      rcases bindRun_some h with ⟨b', s', hb, hrest⟩ | ⟨e, hb, rfl⟩
      · have hlocal : Local (loopRun cond (fun b => (body b).run) turns b') :=
          loopRun_local (fun b => (body b).depends) turns b'
        obtain ⟨new', hnew', -⟩ := hlocal _ _ _ _ _ hrest
        obtain ⟨new, hnew, -⟩ := (body b).depends _ _ _ _ _ hb
        have hgives : Gives c (body b) s.position (.ok b') s'.position :=
          ⟨new, Runs.of_run s.reads (by rw [← hnew]; exact hb)
            fun e he => hin e (by rw [hnew', hnew]; simp [he])⟩
        exact .turn hcond hgives (turns_of_loopRun hrest hin)
      · obtain ⟨new, hnew, -⟩ := (body b).depends _ _ _ _ _ hb
        exact .stop hcond ⟨new, Runs.of_run s.reads (by rw [← hnew]; exact hb)
          fun e he => hin e (by rw [hnew]; simp [he])⟩
    · next hcond =>
      cases h
      exact .done (by simpa using hcond)

/-- A loop gives what its turns do. -/
theorem gives_loop {b : β} {p q : Int} {r : Except ε β} :
    Gives c (loop cond body b) p r q ↔ Turns c cond body b p r q := by
  constructor
  · rintro ⟨reads, hin, fuel, hrun⟩
    exact turns_of_loopRun (hrun (fun _ _ => 0) []) hin
  · intro h
    induction h with
    | done hcond => exact Gives.loop_done hcond
    | turn hcond hbody _ ih => exact Gives.loop_turn hcond (gives_bind.mpr (.inl ⟨_, _, hbody, ih⟩))
    | stop hcond hbody => exact Gives.loop_turn hcond (gives_bind.mpr (.inr ⟨_, hbody, rfl⟩))

/-- A loop whose turns keep its condition true does not end. -/
theorem loopRun_never_ends {d : Disk} {fuel : Nat} (I : β → State → Prop)
    (hturn : ∀ b s, I b s → cond b s.position = true ∧
      ∃ b' s', (body b).run d fuel s = some (.ok b', s') ∧ I b' s') (turns : Nat) {b : β}
    {s : State} (h : I b s) : loopRun cond (fun b => (body b).run) turns b d fuel s = none := by
  induction turns generalizing b s with
  | zero => rfl
  | succ n ih =>
    obtain ⟨hcond, b', s', hbody, hb'⟩ := hturn b s h
    rw [loopRun, if_pos hcond, bindRun_ok hbody]
    exact ih hb'

/-- A loop that goes on from every state of an invariant, on this disk, never ends. -/
theorem loop_never_ends {d : Disk} {fuel : Nat} (I : β → State → Prop)
    (hturn : ∀ b s, I b s → cond b s.position = true ∧
      ∃ b' s', (body b).run d fuel s = some (.ok b', s') ∧ I b' s') {b : β} {s : State}
    (h : I b s) :
    (loop cond body b).run d fuel s = none :=
  loopRun_never_ends I hturn fuel h

/-- One turn of a loop inside the file. -/
def Turn (c : List UInt8) (cond : β → Int → Bool) (body : β → Reader ε β) (x y : β × Int) : Prop :=
  cond x.1 x.2 = true ∧ Gives c (body x.1) x.2 (.ok y.1) y.2

/-- What follows a turn of turns that end. -/
theorem Turns.rest {x y : β × Int} {r : Except ε β} {q : Int} (h : Turns c cond body x.1 x.2 r q)
    (hturn : Turn c cond body x y) : Turns c cond body y.1 y.2 r q := by
  obtain ⟨hcond, hbody⟩ := hturn
  cases h with
  | done hdone => simp [hdone] at hcond
  | turn _ hbody' hrest =>
    obtain ⟨hb, hp⟩ := hbody.unique hbody'
    cases hb
    rwa [hp]
  | stop _ hbody' => cases (hbody.unique hbody').1

/-- A loop that ended without an error came to its end by turns. -/
theorem gives_loop_ok {b b' : β} {p q : Int} : Gives c (loop cond body b) p (.ok b') q ↔
    Relation.ReflTransGen (Turn c cond body) (b, p) (b', q) ∧ cond b' q = false := by
  rw [gives_loop]
  constructor
  · intro h
    generalize hr : (.ok b' : Except ε β) = r at h
    induction h with
    | done hcond =>
      cases hr
      exact ⟨.refl, hcond⟩
    | turn hcond hbody _ ih =>
      obtain ⟨hreach, hend⟩ := ih hr
      exact ⟨.head ⟨hcond, hbody⟩ hreach, hend⟩
    | stop _ _ => cases hr
  · rintro ⟨hreach, hend⟩
    generalize hx : (b, p) = x at hreach
    induction hreach using Relation.ReflTransGen.head_induction_on generalizing b p with
    | refl =>
      cases hx
      exact .done hend
    | head hturn _ ih =>
      cases hx
      exact .turn hturn.1 hturn.2 (ih rfl)

/-- **A loop that moves forward** ends inside the file if all the turns that it
comes to do. -/
theorem endsInside_loop
    (hforward : ∀ b p b' q, Gives c (body b) p (.ok b') q → p < q ∧ q ≤ c.length) {b : β}
    {p : Int} :
    EndsInside c (loop cond body b) p ↔
      ∀ y, Relation.ReflTransGen (Turn c cond body) (b, p) y → cond y.1 y.2 = true →
        EndsInside c (body y.1) y.2 := by
  constructor
  · intro h y hreach hcond
    obtain ⟨r, q, hgives⟩ := endsInside_iff.mp h
    have hturns : Turns c cond body y.1 y.2 r q := by
      clear hcond
      induction hreach with
      | refl => exact gives_loop.mp hgives
      | tail _ hturn ih => exact ih.rest hturn
    cases hturns with
    | done hdone => simp [hdone] at hcond
    | turn _ hbody _ => exact hbody.endsInside
    | stop _ hbody => exact hbody.endsInside
  · intro h
    induction hn : (c.length - p).toNat using Nat.strongRecOn generalizing b p with
    | ind n ih =>
      cases hcond : cond b p with
      | false => exact (Gives.loop_done hcond).endsInside
      | true =>
        obtain ⟨r, q, hbody⟩ := endsInside_iff.mp (h (b, p) .refl hcond)
        cases r with
        | error e => exact (gives_loop.mpr (.stop hcond hbody)).endsInside
        | ok b' =>
          obtain ⟨hlt, hle⟩ := hforward _ _ _ _ hbody
          have hrest := ih (c.length - q).toNat (by omega) (b := b') (p := q)
            (fun y hreach => h y (.head ⟨hcond, hbody⟩ hreach)) rfl
          obtain ⟨r, q', hgives⟩ := endsInside_iff.mp hrest
          exact (Gives.loop_turn hcond (gives_bind.mpr (.inl ⟨_, _, hbody, hgives⟩))).endsInside

end Loop

/-! ## What a result satisfies -/

section Yields

variable {c : List UInt8} {m : Reader ε α} {f : α → Reader ε β} {P : α → Prop} {Q : β → Prop}

/-- Whatever the reader gives without an error satisfies `P`. -/
def Yields (c : List UInt8) (m : Reader ε α) (P : α → Prop) : Prop :=
  ∀ p a q, Gives c m p (.ok a) q → P a

/-- What all results satisfy may be weakened. -/
theorem Yields.mono {P' : α → Prop} (h : Yields c m P) (himp : ∀ a, P a → P' a) : Yields c m P' :=
  fun p a q hgives => himp a (h p a q hgives)

/-- Every result satisfies what is always true. -/
theorem yields_any : Yields c m fun _ => True := fun _ _ _ _ => trivial

/-- The result at hand satisfies what it does. -/
theorem yields_pure {a : α} (h : P a) : Yields c (pure a : Reader ε α) P := by
  intro p a' q hgives
  obtain ⟨ha, -⟩ := gives_pure.mp hgives
  cases ha
  exact h

/-- An error has no result to satisfy anything. -/
theorem yields_throw {e : ε} : Yields c (throw e : Reader ε α) P := by
  intro p a q hgives
  cases (gives_throw.mp hgives).1

/-- What the second reader yields on the results of the first one, both yield together. -/
theorem Yields.bind (hm : Yields c m P) (hf : ∀ a, P a → Yields c (f a) Q) :
    Yields c (m >>= f) Q := by
  intro p b q hgives
  obtain ⟨a, q', ha, hb⟩ := gives_bind_ok.mp hgives
  exact hf a (hm p a q' ha) q' b q hb

/-- Nothing is known of the first part. -/
theorem yields_after (hf : ∀ a, Yields c (f a) Q) : Yields c (m >>= f) Q :=
  yields_any.bind fun a _ => hf a

/-- A result behind an error that was caught satisfies what the reader yields. -/
theorem Yields.attempt (h : Yields c m P) :
    Yields c (FileReader.attempt m) fun r => ∀ a, r = .ok a → P a := by
  intro p r q hgives a ha
  obtain ⟨r', hr', heq⟩ := gives_attempt.mp hgives
  obtain rfl := Except.ok.inj heq
  exact h p a q (ha ▸ hr')

/-- So do all results in a row. -/
theorem Yields.times (h : Yields c m P) (n : Nat) :
    Yields c (FileReader.times n m) fun as => ∀ a ∈ as, P a := by
  induction n with
  | zero => exact yields_pure (by simp)
  | succ n ih =>
    rw [times_succ]
    refine h.bind fun a ha => ih.bind fun as has => yields_pure ?_
    exact List.forall_mem_cons.mpr ⟨ha, has⟩

/-- What every turn keeps holds at the end of the loop. -/
theorem yields_loop {cond : β → Int → Bool} {body : β → Reader ε β} {b : β} (hb : Q b)
    (hbody : ∀ b, Q b → Yields c (body b) Q) : Yields c (loop cond body b) Q := by
  intro p b' q hgives
  obtain ⟨hreach, -⟩ := gives_loop_ok.mp hgives
  have hkeep : ∀ {x y : β × Int}, Relation.ReflTransGen (Turn c cond body) x y → Q x.1 → Q y.1 := by
    intro x y hturns hx
    induction hturns with
    | refl => exact hx
    | tail _ hturn ih => exact hbody _ ih _ _ _ hturn.2
  exact hkeep hreach hb

end Yields

end FileReader

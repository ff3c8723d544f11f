import Mathlib.Logic.Function.Basic
import Tint.ByteMemory
import Tint.Tracing
import Tint.Transition

/-!
# Pointers between buffers

A pointer in memory is a number, which the collector does not see.  `ref` therefore notes
in `_refs` of a buffer the buffers whose addresses were written through it, and a buffer
that looks at the memory of another notes that one.  A buffer that was read from a pointer
notes nothing.  `ref.set` and `ref.get` come here for a type with an indirection of more
than one (`PointerTypes.refType` counts it up): they call `writePointer` and `readPointer`.

* `Allowed` -- the discipline: a pointer is written through the buffer that owns the
  memory, and what is written is not itself a buffer that was read from a pointer;
* `no_pointer_dangles` -- then none does: what a kept buffer refers to lies in memory
  that a kept buffer owns;
* `points_survives` -- and it stays readable until it is overwritten, whatever else is
  allocated, forgotten and collected;
* `deref_undoes_ref` -- so `deref` leads back through any number of `ref`s of which only the
  last is still held.
-/

namespace BufferRefs

open ByteMemory Tracing Transition

/-- A buffer of the program: its stretch of memory, whether it was allocated with it, and
`_refs`. -/
structure Obj where
  buffer : Buffer
  owns : Bool
  refs : List Nat
  deriving DecidableEq

/-- The memory, the buffers that were not collected, and those that the program holds. -/
structure State where
  memory : Memory
  objects : Nat → Option Obj
  next : Nat
  vars : List Nat

/-- What the program does with buffers, and what the collector does. -/
inductive Action
  /-- `new Buffer(size)` -/
  | alloc (address size : Nat)
  | writePointer (buf offset : Nat) (ptr : Option Nat)
  | readPointer (buf offset size : Nat)
  | reinterpret (buf size offset : Nat)
  /-- Bytes are written, by any of the other functions. -/
  | write (buf offset : Nat) (data : List UInt8)
  /-- A variable goes. -/
  | forget (buf : Nat)
  | collect (buf : Nat)
  deriving DecidableEq

/-- The size of a pointer. -/
def POINTER_SIZE : Nat := 8

namespace State

/-- Before any buffer is made. -/
def start (memory : Memory) : State := ⟨memory, fun _ => none, 0, []⟩

/-- What a variable holds. -/
def held (s : State) (i : Nat) : Option Obj := if i ∈ s.vars then s.objects i else none

/-- A new buffer, in a variable. -/
def push (s : State) (o : Obj) : State :=
  { s with
    objects := Function.update s.objects s.next (some o)
    next := s.next + 1
    vars := s.next :: s.vars }

/-- `_attach` -/
def attach (s : State) (i : Nat) (o : Obj) (ptr : Nat) : State :=
  { s with objects := Function.update s.objects i (some { o with refs := o.refs ++ [ptr] }) }

/-- One step; none where the program has no such buffer or the call throws. -/
def step (e : Endianness) (s : State) : Action → Option State
  | .alloc address size => some (s.push ⟨⟨address, size⟩, true, []⟩)
  | .writePointer buf offset ptr => do
    let b ← s.held buf
    match ptr with
    | none =>
      some { s with memory := store s.memory (b.buffer.address + offset) (e.encode POINTER_SIZE 0) }
    | some ptr =>
      let p ← s.held ptr
      some { s.attach buf b ptr with
        memory := store s.memory (b.buffer.address + offset)
          (e.encode POINTER_SIZE p.buffer.address) }
  | .readPointer buf offset size => do
    let b ← s.held buf
    if b.buffer.address + offset = 0 then none
    else
      some (s.push
        ⟨⟨e.decode (bytes s.memory (b.buffer.address + offset) POINTER_SIZE), size⟩, false, []⟩)
  | .reinterpret buf size offset => do
    let b ← s.held buf
    if b.buffer.address + offset = 0 then none
    else some (s.push ⟨⟨b.buffer.address + offset, size⟩, false, [buf]⟩)
  | .write buf offset data => do
    let b ← s.held buf
    if offset + data.length ≤ b.buffer.length then
      some { s with memory := store s.memory (b.buffer.address + offset) data }
    else none
  | .forget buf => some { s with vars := s.vars.filter (· ≠ buf) }
  | .collect buf => some { s with objects := Function.update s.objects buf none }

/-- What the collector sees. -/
def graph (s : State) : Graph Nat :=
  ⟨(· ∈ s.vars), fun i j => ∃ o, s.objects i = some o ∧ j ∈ o.refs⟩

end State

/-- A stretch inside another. -/
def Within (b c : Buffer) : Prop :=
  c.address ≤ b.address ∧ b.address + b.length ≤ c.address + c.length

/-- Stretches without a common address. -/
def Apart (b c : Buffer) : Prop :=
  b.address + b.length ≤ c.address ∨ c.address + c.length ≤ b.address

/-- A buffer that owns its memory, or looks at part of the memory of one that it keeps. -/
inductive Strong (s : State) : Nat → Prop
  | owner {i : Nat} {o : Obj} (hi : s.objects i = some o) (howns : o.owns = true) : Strong s i
  | view {i j : Nat} {o p : Obj} (hi : s.objects i = some o) (hj : j ∈ o.refs)
      (hp : s.objects j = some p) (hin : Within o.buffer p.buffer) (hstrong : Strong s j) :
        Strong s i

/-- A kept buffer owns the memory. -/
def Backed (s : State) (b : Buffer) : Prop :=
  ∃ k p, s.graph.Kept k ∧ s.objects k = some p ∧ p.owns = true ∧ Within b p.buffer

/-- The discipline of the program, and what the allocator and the collector do. -/
def Allowed (s : State) : Action → Prop
  | .alloc address size => ((0 < size → 0 < address) ∧ address + size < 256 ^ POINTER_SIZE) ∧
      ∀ i o, s.objects i = some o → o.owns = true → Apart ⟨address, size⟩ o.buffer
  | .writePointer buf offset ptr =>
      (∃ b, s.objects buf = some b ∧ b.owns = true ∧ offset + POINTER_SIZE ≤ b.buffer.length) ∧
        ∀ p ∈ ptr, Strong s p
  | .write buf _ _ => ∃ b, s.objects buf = some b ∧ Backed s b.buffer
  | .collect buf => ¬ s.graph.Kept buf
  | _ => True

/-! ## No pointer dangles -/

/-- What holds after every allowed step. -/
structure Inv (s : State) : Prop where
  fresh : ∀ i, s.next ≤ i → s.objects i = none
  kept : ∀ i, s.graph.Kept i → ∃ o, s.objects i = some o
  fits : ∀ i o, s.objects i = some o → o.owns = true →
    (0 < o.buffer.length → 0 < o.buffer.address) ∧
    o.buffer.address + o.buffer.length < 256 ^ POINTER_SIZE
  apart : ∀ i o j p, s.objects i = some o → s.objects j = some p → o.owns = true → p.owns = true →
    i ≠ j → Apart o.buffer p.buffer
  strong : ∀ i o, s.graph.Kept i → s.objects i = some o → o.owns = true → ∀ j ∈ o.refs, Strong s j

variable {e : Endianness} {s t : State} {i j k offset : Nat} {o p : Obj} {a : Action}

theorem Within.trans {b c d : Buffer} (h : Within b c) (h' : Within c d) : Within b d := by
  obtain ⟨h1, h2⟩ := h
  obtain ⟨h3, h4⟩ := h'
  exact ⟨h3.trans h1, h2.trans h4⟩

theorem Within.refl (b : Buffer) : Within b b := ⟨Nat.le_refl _, Nat.le_refl _⟩

/-- **A strong buffer that is kept has its memory**, and so has all it refers to. -/
theorem Strong.backed (hs : Strong s i) (hkept : s.graph.Kept i) (hi : s.objects i = some o) :
    Backed s o.buffer := by
  induction hs generalizing o with
  | @owner i q hi' howns =>
    cases hi.symm.trans hi'
    exact ⟨i, q, hkept, hi', howns, .refl _⟩
  | @view i j q p hi' hj hp hin _ ih =>
    cases hi.symm.trans hi'
    obtain ⟨k, r, hk, hr, howns, hwithin⟩ := ih (Kept.holds hkept ⟨q, hi', hj⟩) hp
    exact ⟨k, r, hk, hr, howns, hin.trans hwithin⟩

/-- **No pointer dangles**: what was written through a kept buffer into its memory is there, and so
is the memory it stands for. -/
theorem Inv.backed (hinv : Inv s) (hkept : s.graph.Kept i) (hi : s.objects i = some o)
    (howns : o.owns = true) (hj : j ∈ o.refs) :
    ∃ p, s.objects j = some p ∧ Backed s p.buffer := by
  have hkeptj : s.graph.Kept j := Kept.holds hkept ⟨o, hi, hj⟩
  obtain ⟨p, hp⟩ := hinv.kept j hkeptj
  exact ⟨p, hp, (hinv.strong i o hkept hi howns j hj).backed hkeptj hp⟩

/-! ## What a step does -/

/-- A variable's buffer is kept. -/
theorem held_eq_some (h : s.held i = some o) : i ∈ s.vars ∧ s.objects i = some o := by
  unfold State.held at h
  split at h
  · exact ⟨‹_›, h⟩
  · cases h

/-- A new buffer: it owns its memory, was read from a pointer, or looks at the memory of one that
the program holds. -/
inductive New (e : Endianness) (s : State) : Action → Obj → Prop
  | alloc (address size : Nat) : New e s (.alloc address size) ⟨⟨address, size⟩, true, []⟩
  | read {buf : Nat} {b : Obj} (hb : s.held buf = some b) (offset size : Nat) :
      New e s (.readPointer buf offset size)
        ⟨⟨e.decode (bytes s.memory (b.buffer.address + offset) POINTER_SIZE), size⟩, false, []⟩
  | view {buf : Nat} {b : Obj} (hb : s.held buf = some b) (size offset : Nat) :
      New e s (.reinterpret buf size offset) ⟨⟨b.buffer.address + offset, size⟩, false, [buf]⟩

/-- A step makes a buffer, writes bytes, writes an address and notes it, forgets a variable or
collects. -/
theorem step_cases (h : s.step e a = some t) :
    (∃ o, New e s a o ∧ t = s.push o) ∨
    (∃ buf b offset data, s.held buf = some b ∧
      ((a = .write buf offset data ∧ offset + data.length ≤ b.buffer.length) ∨
        (a = .writePointer buf offset none ∧ data = e.encode POINTER_SIZE 0)) ∧
      t = { s with memory := store s.memory (b.buffer.address + offset) data }) ∨
    (∃ buf b offset ptr p, s.held buf = some b ∧ s.held ptr = some p ∧
      a = .writePointer buf offset (some ptr) ∧
      t = { s.attach buf b ptr with
        memory := store s.memory (b.buffer.address + offset)
          (e.encode POINTER_SIZE p.buffer.address) }) ∨
    (∃ buf, a = .forget buf ∧ t = { s with vars := s.vars.filter (· ≠ buf) }) ∨
    ∃ buf, a = .collect buf ∧ t = { s with objects := Function.update s.objects buf none } := by
  cases a with
  | alloc address size =>
    cases h
    exact .inl ⟨_, .alloc address size, rfl⟩
  | writePointer buf offset ptr =>
    obtain ⟨b, hb, h⟩ := Option.bind_eq_some_iff.mp h
    cases ptr with
    | none =>
      cases h
      exact .inr (.inl ⟨buf, b, offset, _, hb, .inr ⟨rfl, rfl⟩, rfl⟩)
    | some ptr =>
      obtain ⟨p, hp, h⟩ := Option.bind_eq_some_iff.mp h
      cases h
      exact .inr (.inr (.inl ⟨buf, b, offset, ptr, p, hb, hp, rfl, rfl⟩))
  | readPointer buf offset size =>
    obtain ⟨b, hb, h⟩ := Option.bind_eq_some_iff.mp h
    split at h
    · cases h
    · cases h
      exact .inl ⟨_, .read hb offset size, rfl⟩
  | reinterpret buf size offset =>
    obtain ⟨b, hb, h⟩ := Option.bind_eq_some_iff.mp h
    split at h
    · cases h
    · cases h
      exact .inl ⟨_, .view hb size offset, rfl⟩
  | write buf offset data =>
    obtain ⟨b, hb, h⟩ := Option.bind_eq_some_iff.mp h
    split at h
    · cases h
      exact .inr (.inl ⟨buf, b, offset, data, hb, .inl ⟨rfl, ‹_›⟩, rfl⟩)
    · cases h
  | forget buf =>
    cases h
    exact .inr (.inr (.inr (.inl ⟨buf, rfl, rfl⟩)))
  | collect buf =>
    cases h
    exact .inr (.inr (.inr (.inr ⟨buf, rfl, rfl⟩)))

/-- The number of buffers grows. -/
theorem next_le (h : s.step e a = some t) : s.next ≤ t.next := by
  rcases step_cases h with ⟨_, -, rfl⟩ | ⟨_, _, _, _, -, -, rfl⟩ | ⟨_, _, _, _, _, -, -, -, rfl⟩ |
    ⟨_, -, rfl⟩ | ⟨_, -, rfl⟩
  · exact Nat.le_succ _
  all_goals exact Nat.le_refl _

/-- What is kept stays as it is, and may note more. -/
def Stays (s t : State) : Prop :=
  ∀ i o, s.graph.Kept i → s.objects i = some o →
    ∃ o', t.objects i = some o' ∧ o'.buffer = o.buffer ∧ o'.owns = o.owns ∧ o.refs ⊆ o'.refs

/-- A kept buffer that is strong stays strong. -/
theorem Strong.stays (hstays : Stays s t) (hs : Strong s i) (hkept : s.graph.Kept i) :
    Strong t i := by
  induction hs with
  | @owner i o hi howns =>
    obtain ⟨o', ho', -, howns', -⟩ := hstays i o hkept hi
    exact .owner ho' (howns'.trans howns)
  | @view i j o p hi hj hp hin _ ih =>
    have hkeptj : s.graph.Kept j := Kept.holds hkept ⟨o, hi, hj⟩
    obtain ⟨o', ho', hbuffer, -, hrefs⟩ := hstays i o hkept hi
    obtain ⟨p', hp', hbuffer', -, -⟩ := hstays j p hkeptj hp
    exact .view ho' (hrefs hj) hp' (by rwa [hbuffer, hbuffer']) (ih hkeptj)

/-- A step leaves what is kept, unless it is collected. -/
theorem step_stays (hinv : Inv s) (hok : Allowed s a) (h : s.step e a = some t) : Stays s t := by
  intro i o hkept hi
  rcases step_cases h with ⟨q, -, rfl⟩ | ⟨_, _, _, _, -, -, rfl⟩ |
    ⟨buf, b, _, ptr, _, hb, -, -, rfl⟩ |
    ⟨_, -, rfl⟩ | ⟨buf, rfl, rfl⟩
  · have hne : i ≠ s.next := by
      rintro rfl
      rw [hinv.fresh _ (Nat.le_refl _)] at hi
      cases hi
    exact ⟨o, (Function.update_of_ne hne _ _).trans hi, rfl, rfl, List.Subset.refl _⟩
  · exact ⟨o, hi, rfl, rfl, List.Subset.refl _⟩
  · by_cases hbuf : i = buf
    · subst hbuf
      cases hi.symm.trans (held_eq_some hb).2
      exact ⟨_, Function.update_self .., rfl, rfl, List.subset_append_left _ _⟩
    · exact ⟨o, (Function.update_of_ne hbuf _ _).trans hi, rfl, rfl, List.Subset.refl _⟩
  · exact ⟨o, hi, rfl, rfl, List.Subset.refl _⟩
  · have hne : i ≠ buf := fun hib => hok (hib ▸ hkept)
    exact ⟨o, (Function.update_of_ne hne _ _).trans hi, rfl, rfl, List.Subset.refl _⟩

/-- **Nothing comes back**: what is kept after a step was kept before it, or is new. -/
theorem kept_before (hinv : Inv s) (h : s.step e a = some t) (hkept : t.graph.Kept i) :
    s.graph.Kept i ∨ (i = s.next ∧ ∃ o, New e s a o ∧ t = s.push o) := by
  refine Kept.inside (M := fun i => s.graph.Kept i ∨ (i = s.next ∧ ∃ o, New e s a o ∧ t = s.push o))
    ?_ ?_ hkept
  · intro r hr
    rcases step_cases h with ⟨q, hq, rfl⟩ | ⟨_, _, _, _, -, -, rfl⟩ |
      ⟨_, _, _, _, _, -, -, -, rfl⟩ | ⟨_, -, rfl⟩ | ⟨_, -, rfl⟩
    · rcases List.mem_cons.mp hr with rfl | hr
      · exact .inr ⟨rfl, q, hq, rfl⟩
      · exact .inl (Kept.root hr)
    · exact .inl (Kept.root hr)
    · exact .inl (Kept.root hr)
    · exact .inl (Kept.root (List.mem_of_mem_filter hr))
    · exact .inl (Kept.root hr)
  · rintro i j hM ⟨o, ho, hj⟩
    refine .inl ?_
    have hold : ∀ {q : Obj}, s.graph.Kept i → s.objects i = some q → j ∈ q.refs → s.graph.Kept j :=
      fun hk hq hjq => Kept.holds hk ⟨_, hq, hjq⟩
    have hi : ∀ {q : Obj}, s.objects i = some q → s.graph.Kept i := by
      intro q hq
      rcases hM with hk | ⟨rfl, -⟩
      · exact hk
      · rw [hinv.fresh _ (Nat.le_refl _)] at hq
        cases hq
    rcases step_cases h with ⟨q, hq, rfl⟩ | ⟨_, _, _, _, -, -, rfl⟩ |
      ⟨buf, b, _, ptr, _, hb, hp, -, rfl⟩ |
      ⟨_, -, rfl⟩ | ⟨buf, -, rfl⟩
    · change Function.update s.objects s.next (some q) i = some o at ho
      by_cases hnext : i = s.next
      · rw [hnext, Function.update_self] at ho
        cases ho
        cases hq with
        | alloc => cases hj
        | read => cases hj
        | view hb =>
          rw [List.mem_singleton.mp hj]
          exact Kept.root (held_eq_some hb).1
      · rw [Function.update_of_ne hnext] at ho
        exact hold (hi ho) ho hj
    · exact hold (hi ho) ho hj
    · change Function.update s.objects buf (some { b with refs := b.refs ++ [ptr] }) i =
        some o at ho
      by_cases hbuf : i = buf
      · rw [hbuf, Function.update_self] at ho
        cases ho
        rcases List.mem_append.mp hj with hj | hj
        · exact Kept.holds (Kept.root (held_eq_some hb).1) ⟨b, (held_eq_some hb).2, hj⟩
        · rw [List.mem_singleton.mp hj]
          exact Kept.root (held_eq_some hp).1
      · rw [Function.update_of_ne hbuf] at ho
        exact hold (hi ho) ho hj
    · exact hold (hi ho) ho hj
    · change Function.update s.objects buf none i = some o at ho
      by_cases hbuf : i = buf
      · rw [hbuf, Function.update_self] at ho
        cases ho
      · rw [Function.update_of_ne hbuf] at ho
        exact hold (hi ho) ho hj

/-- Where a buffer of the state after a step comes from: it was there, and a pointer may have been
noted in it, or it is new. -/
theorem object_before (h : s.step e a = some t) (hi : t.objects i = some o) :
    (∃ q, s.objects i = some q ∧ o.buffer = q.buffer ∧ o.owns = q.owns ∧
      ∀ j ∈ o.refs, j ∈ q.refs ∨ ∃ offset, a = .writePointer i offset (some j) ∧ j ∈ s.vars) ∨
    (i = s.next ∧ New e s a o ∧ t = s.push o) := by
  rcases step_cases h with ⟨q, hq, rfl⟩ | ⟨_, _, _, _, -, -, rfl⟩ |
    ⟨buf, b, offset, ptr, p, hb, hp, rfl, rfl⟩ | ⟨_, -, rfl⟩ | ⟨buf, -, rfl⟩
  · change Function.update s.objects s.next (some q) i = some o at hi
    by_cases hnext : i = s.next
    · rw [hnext, Function.update_self] at hi
      cases hi
      exact .inr ⟨hnext, hq, rfl⟩
    · rw [Function.update_of_ne hnext] at hi
      exact .inl ⟨o, hi, rfl, rfl, fun j hj => .inl hj⟩
  · exact .inl ⟨o, hi, rfl, rfl, fun j hj => .inl hj⟩
  · change Function.update s.objects buf (some { b with refs := b.refs ++ [ptr] }) i = some o at hi
    by_cases hbuf : i = buf
    · rw [hbuf, Function.update_self] at hi
      cases hi
      refine .inl ⟨b, hbuf ▸ (held_eq_some hb).2, rfl, rfl, fun j hj => ?_⟩
      rcases List.mem_append.mp hj with hj | hj
      · exact .inl hj
      · rw [List.mem_singleton.mp hj, hbuf]
        exact .inr ⟨offset, rfl, (held_eq_some hp).1⟩
    · rw [Function.update_of_ne hbuf] at hi
      exact .inl ⟨o, hi, rfl, rfl, fun j hj => .inl hj⟩
  · exact .inl ⟨o, hi, rfl, rfl, fun j hj => .inl hj⟩
  · change Function.update s.objects buf none i = some o at hi
    by_cases hbuf : i = buf
    · rw [hbuf, Function.update_self] at hi
      cases hi
    · rw [Function.update_of_ne hbuf] at hi
      exact .inl ⟨o, hi, rfl, rfl, fun j hj => .inl hj⟩

/-- Nothing is there yet. -/
theorem inv_start (memory : Memory) : Inv (.start memory) where
  fresh _ _ := rfl
  kept i hkept := by
    have hnone : ∀ i, ¬ (State.start memory).graph.Kept i := fun i hk =>
      Kept.inside (M := fun _ => False) (fun r hr => by cases hr) (fun _ _ h _ => h) hk
    exact absurd hkept (hnone i)
  fits _ _ hi := by cases hi
  apart _ _ _ _ hi := by cases hi
  strong _ _ _ hi := by cases hi

/-- **Every allowed step keeps the invariant.** -/
theorem inv_step (hinv : Inv s) (hok : Allowed s a) (h : s.step e a = some t) : Inv t := by
  have hstays := step_stays hinv hok h
  -- a new buffer that owns its memory was allocated apart from the others
  have hnew : ∀ {q : Obj}, New e s a q → q.owns = true →
      ((0 < q.buffer.length → 0 < q.buffer.address) ∧
        q.buffer.address + q.buffer.length < 256 ^ POINTER_SIZE) ∧ q.refs = [] ∧
        ∀ i o, s.objects i = some o → o.owns = true → Apart q.buffer o.buffer := by
    intro q hq howns
    cases hq with
    | alloc address size => exact ⟨hok.1, rfl, hok.2⟩
    | read => cases howns
    | view => cases howns
  refine ⟨fun i hi => ?_, fun i hkept => ?_, fun i o hi howns => ?_,
    fun i o j p hi hj howns hpowns hne => ?_,
    fun i o hkept hi howns j hj => ?_⟩
  · cases hti : t.objects i with
    | none => rfl
    | some o =>
      rcases object_before h hti with ⟨q, hq, -⟩ | ⟨rfl, -, rfl⟩
      · rw [hinv.fresh i ((next_le h).trans hi)] at hq
        cases hq
      · exact absurd hi (Nat.not_succ_le_self _)
  · rcases kept_before hinv h hkept with hold | ⟨rfl, q, -, rfl⟩
    · obtain ⟨o, ho⟩ := hinv.kept i hold
      obtain ⟨o', ho', -⟩ := hstays i o hold ho
      exact ⟨o', ho'⟩
    · exact ⟨q, Function.update_self ..⟩
  · rcases object_before h hi with ⟨q, hq, hbuffer, hq', -⟩ | ⟨-, hq, -⟩
    · rw [hbuffer]
      exact hinv.fits i q hq (hq' ▸ howns)
    · exact (hnew hq howns).1
  · rcases object_before h hi with ⟨q, hq, hbuffer, hq', -⟩ | ⟨rfl, hq, -⟩
    · rcases object_before h hj with ⟨r, hr, hbuffer', hr', -⟩ | ⟨rfl, hr, -⟩
      · rw [hbuffer, hbuffer']
        exact hinv.apart i q j r hq hr (hq' ▸ howns) (hr' ▸ hpowns) hne
      · rw [hbuffer]
        exact ((hnew hr hpowns).2.2 i q hq (hq' ▸ howns)).symm
    · rcases object_before h hj with ⟨r, hr, hbuffer', hr', -⟩ | ⟨rfl, -, -⟩
      · rw [hbuffer']
        exact (hnew hq howns).2.2 j r hr (hr' ▸ hpowns)
      · exact absurd rfl hne
  · rcases object_before h hi with ⟨q, hq, -, hq', hrefs⟩ | ⟨-, hq, -⟩
    · have hold : s.graph.Kept i := by
        rcases kept_before hinv h hkept with hold | ⟨rfl, -⟩
        · exact hold
        · rw [hinv.fresh _ (Nat.le_refl _)] at hq
          cases hq
      rcases hrefs j hj with hjq | ⟨offset, rfl, hvar⟩
      · exact (hinv.strong i q hold hq (hq' ▸ howns) j hjq).stays hstays
          (Kept.holds hold ⟨q, hq, hjq⟩)
      · exact (hok.2 j rfl).stays hstays (Kept.root hvar)
    · rw [(hnew hq howns).2.1] at hj
      cases hj

/-- **It holds in every reachable state.** -/
theorem inv_reaches {memory : Memory} (h : Reaches (State.step e) Allowed (.start memory) s) :
    Inv s :=
  h.invariant Inv (inv_start memory) fun _ _ _ hinv hok hstep => inv_step hinv hok hstep

/-! ## Pointers stay readable -/

/-- A step writes nothing here. -/
def Spares (s : State) (c : Buffer) : Action → Prop
  | .write buf offset data =>
      ∀ b, s.objects buf = some b → Apart ⟨b.buffer.address + offset, data.length⟩ c
  | .writePointer buf offset _ =>
      ∀ b, s.objects buf = some b → Apart ⟨b.buffer.address + offset, POINTER_SIZE⟩ c
  | _ => True

/-- The buffer `i` owns the memory `b` and has at an offset the address of `c`, the memory of the
buffer `j` that it notes. -/
structure Points (e : Endianness) (s : State) (i : Nat) (b : Buffer) (offset j : Nat) (c : Buffer) :
    Prop where
  source : ∃ o, s.objects i = some o ∧ o.buffer = b ∧ o.owns = true ∧ j ∈ o.refs
  target : ∃ p, s.objects j = some p ∧ p.buffer = c
  address : bytes s.memory (b.address + offset) POINTER_SIZE = e.encode POINTER_SIZE c.address

variable {b c : Buffer}

/-- The bytes of a spared stretch stay. -/
theorem bytes_spared (h : s.step e a = some t) (hspares : Spares s ⟨b.address + offset, k⟩ a) :
    bytes t.memory (b.address + offset) k = bytes s.memory (b.address + offset) k := by
  have hstore : ∀ {address : Nat} {data : List UInt8},
      Apart ⟨address, data.length⟩ ⟨b.address + offset, k⟩ →
      bytes (store s.memory address data) (b.address + offset) k =
        bytes s.memory (b.address + offset) k := by
    intro address data hapart
    rw [bytes_eq_iff]
    intro n hn
    refine store_outside fun hin => ?_
    rcases hapart with hapart | hapart <;> simp only at hapart <;> omega
  rcases step_cases h with ⟨_, -, rfl⟩ | ⟨buf, q, off, data, hq, hwrite, rfl⟩ |
    ⟨buf, q, off, ptr, p, hq, -, rfl, rfl⟩ | ⟨_, -, rfl⟩ | ⟨_, -, rfl⟩
  · rfl
  · rcases hwrite with ⟨rfl, -⟩ | ⟨rfl, rfl⟩
    · exact hstore (hspares q (held_eq_some hq).2)
    · refine hstore ?_
      rw [Endianness.length_encode]
      exact hspares q (held_eq_some hq).2
  · refine hstore ?_
    rw [Endianness.length_encode]
    exact hspares q (held_eq_some hq).2
  · rfl
  · rfl

/-- A pointer survives a step that spares it. -/
theorem points_step (hinv : Inv s) (hok : Allowed s a) (h : s.step e a = some t)
    (hspares : Spares s ⟨b.address + offset, POINTER_SIZE⟩ a) (hkept : s.graph.Kept i)
    (hpoints : Points e s i b offset j c) : Points e t i b offset j c := by
  obtain ⟨⟨o, ho, hb, howns, hj⟩, ⟨p, hp, hc⟩, haddress⟩ := hpoints
  have hstays := step_stays hinv hok h
  obtain ⟨o', ho', hbuffer, howns', hrefs⟩ := hstays i o hkept ho
  obtain ⟨p', hp', hbuffer', -, -⟩ := hstays j p (Kept.holds hkept ⟨o, ho, hj⟩) hp
  exact
    { source := ⟨o', ho', hbuffer.trans hb, howns'.trans howns, hrefs hj⟩
      target := ⟨p', hp', hbuffer'.trans hc⟩
      address := (bytes_spared h hspares).trans haddress }

/-- What allowed steps keep while a buffer is kept holds after a run at whose end it is kept. -/
theorem kept_invariant (hinv : Inv s) (hi : s.objects i = some o) {ok : State → Action → Prop}
    (hallowed : ∀ u a, ok u a → Allowed u a) {P : State → Prop} (hP : P s)
    (hstep : ∀ u a u', Inv u → ok u a → u.step e a = some u' → u.graph.Kept i → P u → P u')
    (hlater : Reaches (State.step e) ok s t) (hkept : t.graph.Kept i) : Inv t ∧ P t := by
  have hthere : i < s.next := by
    by_contra hnot
    rw [hinv.fresh i (by omega)] at hi
    cases hi
  suffices hall : Inv t ∧ s.next ≤ t.next ∧ (t.graph.Kept i → P t) from ⟨hall.1, hall.2.2 hkept⟩
  refine hlater.invariant (fun u => Inv u ∧ s.next ≤ u.next ∧ (u.graph.Kept i → P u))
    ⟨hinv, Nat.le_refl _, fun _ => hP⟩ ?_
  rintro u a u' ⟨hu, hnext, hold⟩ hok htaken
  refine ⟨inv_step hu (hallowed u a hok) htaken, hnext.trans (next_le htaken), fun hk => ?_⟩
  rcases kept_before hu htaken hk with hbefore | ⟨rfl, -⟩
  · exact hstep u a u' hu hok htaken hbefore (hold hbefore)
  · omega

/-- **A pointer survives** whatever is allocated, forgotten and collected, while the buffer it was
written into is kept and nothing is written over it. -/
theorem points_survives (hinv : Inv s) (hpoints : Points e s i b offset j c)
    (hlater : Reaches (State.step e)
      (fun u a => Allowed u a ∧ Spares u ⟨b.address + offset, POINTER_SIZE⟩ a) s t)
    (hkept : t.graph.Kept i) : Points e t i b offset j c := by
  obtain ⟨o, ho, -⟩ := hpoints.source
  exact (kept_invariant hinv ho (fun _ _ hok => hok.1) hpoints
    (fun u a u' hu hok htaken hk hp => points_step hu hok.1 htaken hok.2 hk hp) hlater hkept).2

/-- A strong buffer stays so, and where it is, while it is kept. -/
theorem strong_survives (hinv : Inv s) (hi : s.objects i = some o) (hstrong : Strong s i)
    (hlater : Reaches (State.step e) Allowed s t) (hkept : t.graph.Kept i) :
    Inv t ∧ Strong t i ∧ ∃ o', t.objects i = some o' ∧ o'.buffer = o.buffer := by
  refine kept_invariant hinv hi (fun _ _ => id)
    (P := fun u => Strong u i ∧ ∃ o', u.objects i = some o' ∧ o'.buffer = o.buffer)
    ⟨hstrong, o, hi, rfl⟩ ?_ hlater hkept
  rintro u a u' hu hok htaken hk ⟨hstrong, q, hq, hbuffer⟩
  have hstays := step_stays hu hok htaken
  obtain ⟨q', hq', hbuffer', -, -⟩ := hstays i q hk hq
  exact ⟨hstrong.stays hstays hk, q', hq', hbuffer'.trans hbuffer⟩

/-! ## `ref` and `deref` -/

/-- `ref`, so many times, with the addresses that the buffers get; the last buffer is the top. -/
def refs : Nat → List Nat → Nat → List Action
  | _, [], _ => []
  | next, address :: addresses, buf =>
    .alloc address POINTER_SIZE :: .writePointer next 0 (some buf) :: refs (next + 1) addresses next

/-- `deref`, so many times, with the sizes of the types. -/
def derefs : Nat → List Nat → Nat → List Action
  | _, [], _ => []
  | next, size :: sizes, buf => .readPointer buf 0 size :: derefs (next + 1) sizes next

/-- The buffer that so many calls end with. -/
def last (next : Nat) (calls : List Nat) (buf : Nat) : Nat :=
  if calls = [] then buf else next + calls.length - 1

/-- The buffers of `ref` lead from one to the next. -/
def Linked (e : Endianness) (s : State) : Nat → List Nat → Nat → Buffer → Prop
  | _, [], _, _ => True
  | next, address :: addresses, buf, b =>
    Points e s next ⟨address, POINTER_SIZE⟩ 0 buf b ∧
      Linked e s (next + 1) addresses next ⟨address, POINTER_SIZE⟩

/-- The last buffer of a chain, from the second one on. -/
theorem last_cons (next address : Nat) (addresses : List Nat) (buf : Nat) :
    last next (address :: addresses) buf = last (next + 1) addresses next := by
  cases addresses with
  | nil => rfl
  | cons a rest =>
    simp only [last, List.cons_ne_nil, if_false, List.length_cons]
    omega

/-- The two steps of `ref`. -/
theorem ref_step {address buf : Nat} {u u' : State} (hp : s.objects buf = some p)
    (hne : buf ≠ s.next)
    (hu : s.step e (.alloc address POINTER_SIZE) = some u)
    (hu' : u.step e (.writePointer s.next 0 (some buf)) = some u') :
    u'.next = s.next + 1 ∧ u'.vars = s.next :: s.vars ∧
      u'.objects s.next = some ⟨⟨address, POINTER_SIZE⟩, true, [buf]⟩ ∧
      (∀ i, i ≠ s.next → u'.objects i = s.objects i) ∧
      Points e u' s.next ⟨address, POINTER_SIZE⟩ 0 buf p.buffer := by
  cases hu
  obtain ⟨q, hq, hrest⟩ := Option.bind_eq_some_iff.mp hu'
  obtain ⟨r, hr, hwritten⟩ := Option.bind_eq_some_iff.mp hrest
  cases hwritten
  obtain ⟨-, hqo⟩ := held_eq_some hq
  obtain ⟨-, hro⟩ := held_eq_some hr
  change Function.update s.objects s.next _ s.next = some q at hqo
  rw [Function.update_self] at hqo
  cases hqo
  change Function.update s.objects s.next _ buf = some r at hro
  rw [Function.update_of_ne hne, hp] at hro
  cases hro
  have hothers : ∀ i, i ≠ s.next → ∀ x y,
    Function.update (Function.update s.objects s.next x) s.next y i =
      s.objects i := by
    intro i hi x y
    rw [Function.update_of_ne hi, Function.update_of_ne hi]
  refine ⟨rfl, rfl, Function.update_self .., fun i hi => hothers i hi _ _, ?_⟩
  refine
    { source := ⟨_, Function.update_self .., rfl, rfl, List.mem_singleton_self _⟩
      target := ⟨p, (hothers buf hne _ _).trans hp, rfl⟩
      address := ?_ }
  have hbytes := bytes_store s.memory (address + 0) (e.encode POINTER_SIZE p.buffer.address)
  rw [Endianness.length_encode] at hbytes
  exact hbytes

/-- **The buffers of `ref` are linked**, and nothing that was there is written over. -/
theorem refs_linked {addresses : List Nat} {buf : Nat} (hinv : Inv s) (hp : s.objects buf = some p)
    (hrun : run (State.step e) s (refs s.next addresses buf) = some t)
    (hmeets : Meets (State.step e) Allowed s (refs s.next addresses buf)) :
    Inv t ∧ s.vars ⊆ t.vars ∧ Linked e t s.next addresses buf p.buffer ∧
      ∀ i o c, s.objects i = some o → o.owns = true → Within c o.buffer →
        Reaches (State.step e) (fun u a => Allowed u a ∧ Spares u c a) s t := by
  induction addresses generalizing s buf p with
  | nil =>
    cases hrun
    exact ⟨hinv, List.Subset.refl _, trivial, fun _ _ _ _ _ _ => .start⟩
  | cons address addresses ih =>
    obtain ⟨u, hu, hrest⟩ := Option.bind_eq_some_iff.mp hrun
    obtain ⟨u', hu', hrest⟩ := Option.bind_eq_some_iff.mp hrest
    obtain ⟨hok, hok', hmeets⟩ : Allowed s (.alloc address POINTER_SIZE) ∧
        Allowed u (.writePointer s.next 0 (some buf)) ∧
        Meets (State.step e) Allowed u' (refs (s.next + 1) addresses s.next) := by
      simp only [refs, Meets, hu, hu'] at hmeets
      exact hmeets
    have hne : buf ≠ s.next := by
      rintro rfl
      rw [hinv.fresh _ (Nat.le_refl _)] at hp
      cases hp
    obtain ⟨hnext, hvars, hnew, hothers, hpoints⟩ := ref_step hp hne hu hu'
    have hinv' : Inv u' := inv_step (inv_step hinv hok hu) hok' hu'
    rw [← hnext] at hrest hmeets
    obtain ⟨hinvt, hsub, hlinked, hspares⟩ := ih hinv' hnew hrest hmeets
    have hheld : s.next ∈ t.vars := hsub (by simp [hvars])
    refine ⟨hinvt, fun i hi => hsub (by simp [hvars, hi]), ⟨?_, by rwa [hnext] at hlinked⟩, ?_⟩
    · exact points_survives hinv' hpoints (hspares s.next _ _ hnew rfl (.refl _)) (Kept.root hheld)
    · intro i o c hi howns hc
      have hine : i ≠ s.next := by
        rintro rfl
        rw [hinv.fresh _ (Nat.le_refl _)] at hi
        cases hi
      have hapart : Apart ⟨address, POINTER_SIZE⟩ c := by
        obtain ⟨hc1, hc2⟩ := hc
        rcases hok.2 i o hi howns with h | h <;> simp only at h
        · exact .inl (by simp only; omega)
        · exact .inr (by simp only; omega)
      refine Reaches.trans (.next (.next .start ⟨hok, trivial⟩ hu) ⟨hok', fun q hq => ?_⟩ hu')
        (hspares i o c ((hothers i hine).trans hi) howns hc)
      cases hu
      change Function.update s.objects s.next _ s.next = some q at hq
      rw [Function.update_self] at hq
      cases hq
      exact hapart

/-- Where reading pointers leads. -/
def follow (e : Endianness) (m : Memory) : Nat → Nat → Nat
  | 0, address => address
  | n + 1, address => follow e m n (e.decode (bytes m address POINTER_SIZE))

theorem follow_succ (e : Endianness) (m : Memory) (n address : Nat) :
    follow e m (n + 1) address = e.decode (bytes m (follow e m n address) POINTER_SIZE) := by
  induction n generalizing address with
  | zero => rfl
  | succ n ih => exact ih _

/-- What the last buffer of the links keeps. -/
theorem Linked.kept {addresses : List Nat} {next buf : Nat}
    (hlinked : Linked e s next addresses buf b)
    (hkept : s.graph.Kept (last next addresses buf)) : s.graph.Kept buf := by
  induction addresses generalizing next buf b with
  | nil => exact hkept
  | cons address addresses ih =>
    rw [last_cons] at hkept
    obtain ⟨o, ho, -, -, hbuf⟩ := hlinked.1.source
    exact Kept.holds (ih hlinked.2 hkept) ⟨o, ho, hbuf⟩

/-- Links survive while the last of them is kept. -/
theorem linked_survives {addresses : List Nat} {next buf : Nat} (hinv : Inv s)
    (hlinked : Linked e s next addresses buf b)
    (hlater : Reaches (State.step e)
      (fun u a => Allowed u a ∧ ∀ address ∈ addresses, Spares u ⟨address, POINTER_SIZE⟩ a) s t)
    (hkept : t.graph.Kept (last next addresses buf)) : Linked e t next addresses buf b := by
  induction addresses generalizing next buf b with
  | nil => trivial
  | cons address addresses ih =>
    obtain ⟨hpoints, hrest⟩ := hlinked
    rw [last_cons] at hkept
    have hrest' := ih hrest (hlater.weaken fun u a hok =>
      ⟨hok.1, fun address' h => hok.2 address' (List.mem_cons_of_mem _ h)⟩) hkept
    refine ⟨?_, hrest'⟩
    exact points_survives hinv hpoints (hlater.weaken fun u a hok =>
      ⟨hok.1, hok.2 address List.mem_cons_self⟩) (hrest'.kept hkept)

/-- Links lead from the last buffer back to the first. -/
theorem Linked.follow {addresses : List Nat} {next buf : Nat} (hinv : Inv s)
    (hlinked : Linked e s next addresses buf p.buffer) (hp : s.objects buf = some p)
    (hstrong : Strong s buf) (hkept : s.graph.Kept (last next addresses buf)) :
    ∃ o, s.objects (last next addresses buf) = some o ∧
      (∀ n < addresses.length, BufferRefs.follow e s.memory n o.buffer.address ≠ 0) ∧
      BufferRefs.follow e s.memory addresses.length o.buffer.address = p.buffer.address := by
  induction addresses generalizing next buf p with
  | nil => exact ⟨p, hp, fun _ hn => absurd hn (Nat.not_lt_zero _), rfl⟩
  | cons address addresses ih =>
    have hkeptbuf := hlinked.kept hkept
    obtain ⟨⟨⟨q, hq, hbuffer, howns, -⟩, -, haddress⟩, hrest⟩ := hlinked
    rw [last_cons] at hkept ⊢
    rw [← hbuffer] at hrest
    obtain ⟨o, ho, hnonzero, hfollow⟩ := ih hrest hq (.owner hq howns) hkept
    have hsmall : p.buffer.address < 256 ^ POINTER_SIZE := by
      obtain ⟨k, r, -, hr, hrowns, hin1, hin2⟩ := hstrong.backed hkeptbuf hp
      have := (hinv.fits k r hr hrowns).2
      omega
    have hpos : q.buffer.address ≠ 0 := by
      have := (hinv.fits next q hq howns).1 (by rw [hbuffer]; exact Nat.succ_pos 7)
      omega
    refine ⟨o, ho, fun n hn => ?_, ?_⟩
    · rcases Nat.lt_succ_iff_lt_or_eq.mp hn with hn | rfl
      · exact hnonzero n hn
      · rwa [hfollow]
    rw [Nat.add_zero] at haddress
    rw [List.length_cons, follow_succ, hfollow, hbuffer, haddress,
      Endianness.decode_encode e POINTER_SIZE hsmall]

/-- `deref` reads what memory leads to. -/
theorem run_derefs (e : Endianness) (sizes : List Nat) {i : Nat} (hi : s.held i = some o)
    (hnonzero : ∀ n < sizes.length, follow e s.memory n o.buffer.address ≠ 0) :
    ∃ t r, run (State.step e) s (derefs s.next sizes i) = some t ∧
      t.objects (last s.next sizes i) = some r ∧
      r.buffer.address = follow e s.memory sizes.length o.buffer.address ∧ t.memory = s.memory := by
  induction sizes generalizing s i o with
  | nil => exact ⟨s, o, rfl, (held_eq_some hi).2, rfl, rfl⟩
  | cons size sizes ih =>
    have hstep : s.step e (.readPointer i 0 size) = some (s.push
        ⟨⟨e.decode (bytes s.memory o.buffer.address POINTER_SIZE), size⟩, false, []⟩) := by
      simp only [State.step, hi]
      exact if_neg (hnonzero 0 (Nat.succ_pos _))
    have hnew :
        (s.push ⟨⟨e.decode (bytes s.memory o.buffer.address POINTER_SIZE), size⟩, false, []⟩).held
          s.next =
        some ⟨⟨e.decode (bytes s.memory o.buffer.address POINTER_SIZE), size⟩, false, []⟩ := by
      simp [State.held, State.push]
    obtain ⟨t, r, hrun, hr, haddress, hmemory⟩ := ih hnew fun n hn =>
      hnonzero (n + 1) (Nat.succ_lt_succ hn)
    refine ⟨t, r, ?_, by rwa [last_cons], haddress, hmemory⟩
    rw [derefs, run, hstep]
    exact hrun

/-- **`deref` undoes `ref`**, any number of times: when only the last of the buffers that `ref` made
is still held, and the program has since done whatever it may except write into them, `deref` leads
back to the address of the first buffer, and its memory is still there. -/
theorem deref_undoes_ref {memory : Memory}
    (hreach : Reaches (State.step e) Allowed (.start memory) s)
    (hi : s.held i = some o) (hstrong : Strong s i) {addresses : List Nat} {s₁ : State}
    (hrefs : run (State.step e) s (refs s.next addresses i) = some s₁)
    (hallowed : Meets (State.step e) Allowed s (refs s.next addresses i))
    (hlater : Reaches (State.step e)
      (fun u a => Allowed u a ∧ ∀ address ∈ addresses, Spares u ⟨address, POINTER_SIZE⟩ a) s₁ t)
    (hheld : last s.next addresses i ∈ t.vars) {sizes : List Nat}
    (hsizes : sizes.length = addresses.length) :
    Backed t o.buffer ∧ ∃ u r,
      run (State.step e) t (derefs t.next sizes (last s.next addresses i)) = some u ∧
      u.objects (last t.next sizes (last s.next addresses i)) = some r ∧
      r.buffer.address = o.buffer.address ∧ u.memory = t.memory := by
  have hinv := inv_reaches hreach
  obtain ⟨-, ho⟩ := held_eq_some hi
  obtain ⟨hinv₁, -, hlinked, -⟩ := refs_linked hinv ho hrefs hallowed
  have htop : t.graph.Kept (last s.next addresses i) := Kept.root hheld
  have hlinkedt := linked_survives hinv₁ hlinked hlater htop
  -- the run as a whole, for the first buffer
  have hwhole : Reaches (State.step e) Allowed s t :=
    (reaches_of_run _ hrefs hallowed).trans (hlater.weaken fun _ _ hok => hok.1)
  have hkept := hlinkedt.kept htop
  obtain ⟨hinvt, hstrongt, p, hp, hbuffer⟩ := strong_survives hinv ho hstrong hwhole hkept
  rw [← hbuffer] at hlinkedt ⊢
  obtain ⟨q, hq, hnonzero, hfollow⟩ := hlinkedt.follow hinvt hp hstrongt htop
  have hheldt : t.held (last s.next addresses i) = some q := by rw [State.held, if_pos hheld, hq]
  rw [← hsizes] at hnonzero
  obtain ⟨u, r, hrun, hr, haddress, hmemory⟩ := run_derefs e sizes hheldt hnonzero
  rw [hsizes, hfollow] at haddress
  exact ⟨hstrongt.backed hkept hp, u, r, hrun, hr, haddress, hmemory⟩

/-- **No pointer dangles** in any state that the program can reach: what was written through a kept
buffer into its memory is there, and so is the memory it stands for, which is apart from that of
every other buffer that owns its memory. -/
theorem no_pointer_dangles {memory : Memory}
    (hreach : Reaches (State.step e) Allowed (.start memory) s) (hkept : s.graph.Kept i)
    (hi : s.objects i = some o) (howns : o.owns = true) :
    (∀ j ∈ o.refs, ∃ p, s.objects j = some p ∧ Backed s p.buffer) ∧
      ∀ j p, s.objects j = some p → p.owns = true → i ≠ j → Apart o.buffer p.buffer := by
  have hinv := inv_reaches hreach
  exact ⟨fun j hj => hinv.backed hkept hi howns hj,
    fun j p hj hpowns hne => hinv.apart i o j p hi hj howns hpowns hne⟩

/-! ## An int behind two pointers -/

instance (b c : Buffer) : Decidable (Apart b c) := inferInstanceAs (Decidable (_ ∨ _))

/-- `Allowed`, as far as it can be computed: with buffers that own their memory, and no
collections. -/
def check (s : State) : Action → Bool
  | .alloc address size => ((0 < size → 0 < address) ∧ address + size < 256 ^ POINTER_SIZE) &&
      (List.range s.next).all fun i => (s.objects i).all fun o => !o.owns ||
        Apart ⟨address, size⟩ o.buffer
  | .writePointer buf offset ptr =>
      ((s.objects buf).any fun b => b.owns && offset + POINTER_SIZE ≤ b.buffer.length) &&
        ptr.all fun p => (s.objects p).any Obj.owns
  | .write buf _ _ => (s.objects buf).any Obj.owns && buf ∈ s.vars
  | .collect _ => false
  | _ => true

/-- Whether all steps are allowed. -/
def checkAll (e : Endianness) : State → List Action → Bool
  | _, [] => true
  | s, a :: as => check s a && (s.step e a).any fun t => checkAll e t as

/-- A step that was checked is allowed. -/
theorem allowed_of_check (hinv : Inv s) (h : check s a = true) : Allowed s a := by
  have hstrong : ∀ {i}, (s.objects i).any Obj.owns = true → Strong s i := by
    intro i hi
    obtain ⟨o, ho, howns⟩ := (Option.any_eq_true _ _).mp hi
    exact .owner ho howns
  cases a with
  | alloc address size =>
    obtain ⟨hfits, hall⟩ := Bool.and_eq_true_iff.mp h
    refine ⟨of_decide_eq_true hfits, fun i o hi howns => ?_⟩
    have hlt : i < s.next := by
      by_contra hnot
      rw [hinv.fresh i (by omega)] at hi
      cases hi
    have hi' := List.all_eq_true.mp hall i (List.mem_range.mpr hlt)
    rw [hi] at hi'
    simpa [howns] using hi'
  | writePointer buf offset ptr =>
    obtain ⟨hbuf, hptr⟩ := Bool.and_eq_true_iff.mp h
    obtain ⟨b, hb, hfits⟩ := (Option.any_eq_true _ _).mp hbuf
    refine ⟨⟨b, hb, by simpa using hfits⟩, ?_⟩
    rintro p rfl
    exact hstrong hptr
  | write buf offset data =>
    obtain ⟨hbuf, hvar⟩ := Bool.and_eq_true_iff.mp h
    obtain ⟨b, hb, howns⟩ := (Option.any_eq_true _ _).mp hbuf
    have hvar : buf ∈ s.vars := of_decide_eq_true hvar
    exact ⟨b, hb, buf, b, Kept.root hvar, hb, howns, .refl _⟩
  | collect => cases h
  | _ => trivial

/-- Steps that were checked are allowed one after the other. -/
theorem meets_of_checkAll {as : List Action} (hinv : Inv s) (h : checkAll e s as = true) :
    Meets (State.step e) Allowed s as := by
  induction as generalizing s with
  | nil => trivial
  | cons a as ih =>
    obtain ⟨hcheck, hrest⟩ := Bool.and_eq_true_iff.mp h
    obtain ⟨t, ht, hrest⟩ := (Option.any_eq_true _ _).mp hrest
    have hok := allowed_of_check hinv hcheck
    simp only [Meets, ht]
    exact ⟨hok, ih (inv_step hinv hok ht) hrest⟩

/-- An int. -/
def intState : State := (State.start fun _ => 7).push ⟨⟨1000, 4⟩, true, []⟩

theorem intState_reached : Reaches (State.step .LE) Allowed (.start fun _ => 7) intState :=
  .next (a := .alloc 1000 4) .start ⟨by decide, fun _ _ h => by cases h⟩ rfl

/-- The state after two `ref`s of it. -/
def refState : State :=
  ⟨store (store (fun _ => 7) 2000 (Endianness.LE.encode 8 1000)) 3000 (Endianness.LE.encode 8 2000),
    Function.update (Function.update (Function.update
      (Function.update (Function.update (fun _ => none)
      0 (some ⟨⟨1000, 4⟩, true, []⟩)) 1 (some ⟨⟨2000, 8⟩, true, []⟩)) 1
        (some ⟨⟨2000, 8⟩, true, [0]⟩))
      2 (some ⟨⟨3000, 8⟩, true, []⟩)) 2 (some ⟨⟨3000, 8⟩, true, [1]⟩), 3, [2, 1, 0]⟩

theorem refState_run : run (State.step .LE) intState (refs 1 [2000, 3000] 0) = some refState := rfl


theorem refState_allowed : Meets (State.step .LE) Allowed intState (refs 1 [2000, 3000] 0) :=
  meets_of_checkAll (inv_reaches intState_reached) (by decide +kernel)

theorem refState_reached : Reaches (State.step .LE) Allowed (.start fun _ => 7) refState :=
  intState_reached.trans (reaches_of_run _ refState_run refState_allowed)

/-- The first pointer is written through the buffer `1`, which the buffer `2` keeps. -/
theorem no_pointer_dangles_twice :
    (∀ j ∈ [1], ∃ p, refState.objects j = some p ∧ Backed refState p.buffer) ∧
      ∀ j p, refState.objects j = some p → p.owns = true → 2 ≠ j → Apart ⟨3000, 8⟩ p.buffer :=
  no_pointer_dangles refState_reached (i := 2) (o := ⟨⟨3000, 8⟩, true, [1]⟩)
    (Kept.root (by simp [refState, State.graph])) rfl rfl

/-- The variables of the int and of the first pointer go, and `deref` twice finds the int. -/
theorem deref_undoes_ref_twice :
    ∃ t, run (State.step .LE) refState [.forget 0, .forget 1] = some t ∧
      Backed t ⟨1000, 4⟩ ∧ ∃ u r, run (State.step .LE) t (derefs 3 [8, 4] 2) = some u ∧
        u.objects 4 = some r ∧ r.buffer.address = 1000 ∧ u.memory = t.memory := by
  refine ⟨_, rfl, ?_⟩
  exact deref_undoes_ref (o := ⟨⟨1000, 4⟩, true, []⟩) intState_reached (i := 0) rfl (.owner rfl rfl)
    refState_run refState_allowed
    (reaches_of_run [.forget 0, .forget 1] rfl
      ⟨⟨trivial, fun _ _ => trivial⟩, ⟨trivial, fun _ _ => trivial⟩, trivial⟩) (by decide) rfl

end BufferRefs

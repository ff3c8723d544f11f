import Tint.Exe.Format

/-!
# Reading the version resource inside the file

What each reader of the version resource does, in terms of the bytes of the
file: when it ends inside the file, and where it ends.

* `gives_text`, `endsInside_padding_bind` -- texts and padding;
* `endsInside_children`, `gives_children` -- the loop over members, for any
  reader of members that moves forward;
* `string_member`, `table_member`, `info_member` -- the members of each level;
* `endsInside_ResourceDataVersionRead` -- the resource;
* `varLoop_never_ends`, `paddingLoop_never_ends` -- two loops that do not end
  with the file.
-/

namespace ExeFile

open FileReader
open VersionInfo (Units readUIntLE utf8 UTF16toJSString translation varFileInfo stringFileInfo
  vsVersionInfo)
open Relation (ReflTransGen)

/-! ## Numbers and characters -/

section Scalars

variable {c : List UInt8} {β : Type} {f : Nat → Read β} {p q : Int} {r : Except String β}

/-- A number is a block of its bytes. -/
theorem block_UINT (n : Nat) : Block c (UINT n) n fun p => readUIntLE (bytesAt c p n) :=
  block_read.map

/-- A character is a block of two bytes. -/
theorem block_WCHAR : Block c WCHAR 2 (charAt c) :=
  (block_read.map (g := fun buf => utf8 (buf.getD 0 0).toNat (buf.getD 1 0).toNat)).congr
    (fun p => by simp [charAt, bytesAt, List.range_succ]) rfl

/-- A reader that begins with a `WORD` stays inside. -/
@[simp] theorem endsInside_WORD_bind :
    EndsInside c (WORD >>= f) p ↔ Within c p 2 ∧ EndsInside c (f (wordAt c p)) (p + 2) :=
  (block_UINT 2).endsInside_bind

/-- What a reader that begins with a `WORD` gives. -/
@[simp] theorem gives_WORD_bind :
    Gives c (WORD >>= f) p r q ↔ Within c p 2 ∧ Gives c (f (wordAt c p)) (p + 2) r q :=
  (block_UINT 2).gives_bind

/-- A reader that begins with a `USHORT` stays inside. -/
@[simp] theorem endsInside_USHORT_bind :
    EndsInside c (USHORT >>= f) p ↔ Within c p 2 ∧ EndsInside c (f (wordAt c p)) (p + 2) :=
  (block_UINT 2).endsInside_bind

/-- What a reader that begins with a `USHORT` gives. -/
@[simp] theorem gives_USHORT_bind :
    Gives c (USHORT >>= f) p r q ↔ Within c p 2 ∧ Gives c (f (wordAt c p)) (p + 2) r q :=
  (block_UINT 2).gives_bind

/-- A reader that begins with a `ULONG` stays inside. -/
@[simp] theorem endsInside_ULONG_bind :
    EndsInside c (ULONG >>= f) p ↔ Within c p 4 ∧ EndsInside c (f (dwordAt c p)) (p + 4) :=
  (block_UINT 4).endsInside_bind

/-- What a reader that begins with a `ULONG` gives. -/
@[simp] theorem gives_ULONG_bind :
    Gives c (ULONG >>= f) p r q ↔ Within c p 4 ∧ Gives c (f (dwordAt c p)) (p + 4) r q :=
  (block_UINT 4).gives_bind

end Scalars

/-! ## Text and padding -/

section Text

variable {c : List UInt8} {p q : Int}

/-- The empty text is its end mark alone. -/
theorem endsText_zero : EndsText c p 0 ↔ Within c p 2 ∧ charAt c p = [0, 0] := by
  simp [EndsText, and_comm]

/-- A longer text has a character that is not the end mark before the rest. -/
theorem endsText_succ {k : Nat} :
    EndsText c p (k + 1) ↔ Within c p 2 ∧ charAt c p ≠ [0, 0] ∧ EndsText c (p + 2) k := by
  have hshift : ∀ i : Nat, p + 2 + 2 * (i : Int) = p + 2 * ((i + 1 : Nat) : Int) :=
    fun i => by omega
  have hwithin : Within c p (2 * (k + 1) + 2) ↔ Within c p 2 ∧ Within c (p + 2) (2 * k + 2) := by
    unfold Within
    omega
  simp only [EndsText, hwithin, hshift]
  constructor
  · rintro ⟨hchars, hend, hp, hrest⟩
    refine ⟨hp, ?_, fun i hi => hchars (i + 1) (by omega), hend, hrest⟩
    simpa using hchars 0 (by omega)
  · rintro ⟨hp, hfirst, hchars, hend, hrest⟩
    refine ⟨fun i hi => ?_, hend, hp, hrest⟩
    cases i with
    | zero => simpa using hfirst
    | succ i => exact hchars i (by omega)

/-- Its first character comes first. -/
theorem textAt_succ {k : Nat} : textAt c p (k + 1) = charAt c p :: textAt c (p + 2) k := by
  simp only [textAt, List.range_succ_eq_map, List.map_cons, List.map_map]
  refine congrArg₂ List.cons (by simp) (List.map_congr_left fun i _ => ?_)
  exact congrArg (charAt c) (by omega)

/-- A key is as long as the text that it was read from. -/
theorem key_length {k : Nat} : (UTF16toJSString (textAt c p k)).length = k := by
  simp [UTF16toJSString, textAt]

/-- A turn of the text loop keeps the character and reads the next one. -/
theorem block_textTurn (vars : List Units × Units) :
    Block c (textTurn vars) 2 fun p => (vars.1 ++ [vars.2], charAt c p) := block_WCHAR.map

/-- The text loop gives the text up to its end mark, and never reports. -/
theorem gives_textLoop (str : List Units) {r : Except String (List Units × Units)}
    (hp : Within c p 2) :
    Gives c (loop (fun vars _ => vars.2 ≠ [0, 0]) textTurn (str, charAt c p)) (p + 2) r q ↔
      ∃ k, EndsText c p k ∧ r = .ok (str ++ textAt c p k, [0, 0]) ∧ q = p + 2 * k + 2 := by
  rw [gives_loop]
  constructor
  · intro h
    generalize hvars : (str, charAt c p) = vars, hnext : p + 2 = p' at h
    induction h generalizing str p with
    | done hcond =>
      subst hvars hnext
      have hend : charAt c p = [0, 0] := by simpa using hcond
      exact ⟨0, endsText_zero.mpr ⟨hp, hend⟩, by simp [textAt, hend], by omega⟩
    | turn hcond hbody _ ih =>
      subst hvars hnext
      obtain ⟨hin, hvars, rfl⟩ := (block_textTurn _ _ _ _).mp hbody
      obtain ⟨k, hk, rfl, rfl⟩ := ih (str ++ [charAt c p]) hin (Except.ok.inj hvars).symm rfl
      refine ⟨k + 1, endsText_succ.mpr ⟨hp, by simpa using hcond, hk⟩, ?_, by omega⟩
      rw [textAt_succ, List.append_assoc]
      rfl
    | stop _ hbody => cases ((block_textTurn _ _ _ _).mp hbody).2.1
  · rintro ⟨k, hk, rfl, rfl⟩
    induction k generalizing str p with
    | zero =>
      have hend := (endsText_zero.mp hk).2
      have hdone : Turns c (fun vars _ => vars.2 ≠ [0, 0]) textTurn (str, charAt c p) (p + 2)
          (.ok (str, charAt c p)) (p + 2) := .done (by simp [hend])
      simpa [textAt, hend] using hdone
    | succ k ih =>
      obtain ⟨-, hfirst, hrest⟩ := endsText_succ.mp hk
      have hin : Within c (p + 2) 2 := hrest.2.2.mono (by omega)
      have hcond : decide ((str, charAt c p).2 ≠ [0, 0]) = true := by simpa using hfirst
      have hturn : Turns c (fun vars _ => vars.2 ≠ [0, 0]) textTurn (str, charAt c p) (p + 2)
          (.ok (str ++ [charAt c p] ++ textAt c (p + 2) k, [0, 0])) (p + 2 + 2 * k + 2) :=
        .turn hcond ((block_textTurn _ _ _ _).mpr ⟨hin, rfl, rfl⟩) (ih _ hin hrest)
      rw [textAt_succ]
      have hq : p + 2 * ((k + 1 : Nat) : Int) + 2 = p + 2 + 2 * k + 2 := by omega
      rw [hq]
      simpa using hturn

/-- A text is read up to its end mark. -/
theorem gives_text {r : Except String (List Units)} :
    Gives c ReadUnicodeUTF16 p r q ↔
      ∃ k, EndsText c p k ∧ r = .ok (textAt c p k) ∧ q = p + 2 * k + 2 := by
  rw [ReadUnicodeUTF16, block_WCHAR.gives_bind]
  constructor
  · rintro ⟨hp, h⟩
    rcases gives_bind.mp h with ⟨vars, q', hloop, hpure⟩ | ⟨e, hloop, -⟩
    · obtain ⟨k, hk, hvars, rfl⟩ := (gives_textLoop [] hp).mp hloop
      obtain rfl := Except.ok.inj hvars
      exact ⟨k, hk, gives_pure.mp hpure⟩
    · obtain ⟨k, -, he, -⟩ := (gives_textLoop [] hp).mp hloop
      cases he
  · rintro ⟨k, hk, rfl, rfl⟩
    have hp : Within c p 2 := hk.2.2.mono (by omega)
    have hloop := (gives_textLoop [] hp).mpr ⟨k, hk, rfl, rfl⟩
    exact ⟨hp, gives_bind.mpr (.inl ⟨_, _, hloop, gives_pure.mpr ⟨rfl, rfl⟩⟩)⟩

/-- A text has one end. -/
theorem EndsText.unique {k k' : Nat} (h : EndsText c p k) (h' : EndsText c p k') : k = k' := by
  have hboth := (gives_text.mpr ⟨k, h, rfl, rfl⟩).unique (gives_text.mpr ⟨k', h', rfl, rfl⟩)
  omega

/-- A reader that begins with a text stays inside. -/
@[simp] theorem endsInside_text_bind {β : Type} {f : List Units → Read β} :
    EndsInside c (ReadUnicodeUTF16 >>= f) p ↔
      ∃ k, EndsText c p k ∧ EndsInside c (f (textAt c p k)) (p + 2 * k + 2) := by
  rw [endsInside_bind, endsInside_iff]
  constructor
  · rintro ⟨⟨r, q, h⟩, hf⟩
    obtain ⟨k, hk, -, -⟩ := gives_text.mp h
    exact ⟨k, hk, hf _ _ (gives_text.mpr ⟨k, hk, rfl, rfl⟩)⟩
  · rintro ⟨k, hk, hf⟩
    have hgives := gives_text.mpr ⟨k, hk, rfl, rfl⟩
    refine ⟨⟨_, _, hgives⟩, fun a q h => ?_⟩
    obtain ⟨ha, rfl⟩ := h.unique hgives
    cases ha
    exact hf

/-- What a reader that begins with a text gives. -/
@[simp] theorem gives_text_bind {β : Type} {f : List Units → Read β} {x : β} :
    Gives c (ReadUnicodeUTF16 >>= f) p (.ok x) q ↔
      ∃ k, EndsText c p k ∧ Gives c (f (textAt c p k)) (p + 2 * k + 2) (.ok x) q := by
  rw [gives_bind_ok]
  constructor
  · rintro ⟨a, q', h, hf⟩
    obtain ⟨k, hk, ha, rfl⟩ := gives_text.mp h
    cases ha
    exact ⟨k, hk, hf⟩
  · rintro ⟨k, hk, hf⟩
    exact ⟨_, _, gives_text.mpr ⟨k, hk, rfl, rfl⟩, hf⟩

/-! ### Padding -/

/-- A turn of the padding loop reads a word and reports it if it is not zero. -/
theorem gives_paddingTurn {r : Except String Unit} :
    Gives c (paddingTurn ()) p r q ↔ Within c p 2 ∧ q = p + 2 ∧
      r = if wordAt c p = 0 then .ok ()
        else .error "Padding values should be 0, at position: " := by
  rw [paddingTurn, gives_WORD_bind, gives_check]
  by_cases h : wordAt c p = 0 <;> simp [h, and_comm]

/-- Padding has one end. -/
theorem PaddingAt.unique {q' : Int} (h : PaddingAt c p q) (h' : PaddingAt c p q') : q = q' := by
  rcases h with ⟨hmod, rfl⟩ | ⟨hmod, -, -, rfl⟩ <;>
    rcases h' with ⟨hmod', rfl⟩ | ⟨hmod', -, -, rfl⟩ <;>
    omega

/-- From an odd position on the padding ends at an assertion that fails. -/
theorem turns_odd {u : Unit} {r : Except String Unit}
    (h : Turns c (fun _ p => p % 4 ≠ 0) paddingTurn u p r q) (hodd : p % 2 = 1) :
    (∃ e, r = .error e) ∧ ∃ k : Nat, Within c p (2 * k + 2) ∧ wordAt c (p + 2 * k) ≠ 0 := by
  induction h with
  | @done _ p hcond =>
    have : p % 4 = 0 := by simpa using hcond
    omega
  | @turn _ _ p _ _ _ _ hbody _ ih =>
    obtain ⟨hin, rfl, -⟩ := gives_paddingTurn.mp hbody
    obtain ⟨hr, k, hk, hword⟩ := ih (by omega)
    refine ⟨hr, k + 1, ?_, ?_⟩
    · unfold Within at *
      omega
    · rwa [show p + 2 * ((k + 1 : Nat) : Int) = p + 2 + 2 * k by omega]
  | @stop _ p _ _ _ hbody =>
    obtain ⟨hin, -, hr⟩ := gives_paddingTurn.mp hbody
    refine ⟨⟨_, rfl⟩, 0, hin, fun hzero => ?_⟩
    simp only [Int.natCast_zero, Int.mul_zero, Int.add_zero] at hzero
    rw [if_pos hzero] at hr
    cases hr

/-- From an odd position the padding loop runs on to the first word that is not zero. -/
theorem turns_of_word {k : Nat} (hodd : p % 2 = 1) (hin : Within c p (2 * k + 2))
    (hword : wordAt c (p + 2 * k) ≠ 0) :
    ∃ r q, Turns c (fun _ p => p % 4 ≠ 0) paddingTurn () p r q := by
  have hcond : decide (p % 4 ≠ 0) = true := by
    rw [decide_eq_true_iff]
    omega
  induction k generalizing p with
  | zero =>
    exact ⟨_, _, .stop hcond
      (gives_paddingTurn.mpr ⟨hin, rfl, (if_neg (by simpa using hword)).symm⟩)⟩
  | succ k ih =>
    have hfirst : Within c p 2 := hin.mono (by omega)
    by_cases hzero : wordAt c p = 0
    · have hrest : Within c (p + 2) (2 * k + 2) := by
        unfold Within at *
        omega
      obtain ⟨r, q, hturns⟩ := ih (p := p + 2) (by omega) hrest
        (by rwa [show p + 2 + 2 * (k : Int) = p + 2 * ((k + 1 : Nat) : Int) by omega])
        (by rw [decide_eq_true_iff]; omega)
      exact ⟨r, q, .turn hcond (gives_paddingTurn.mpr ⟨hfirst, rfl, (if_pos hzero).symm⟩) hturns⟩
    · exact ⟨_, _, .stop hcond (gives_paddingTurn.mpr ⟨hfirst, rfl, (if_neg hzero).symm⟩)⟩

/-- From an odd position on, over zeros in the file and in the buffers, the
padding does not end with the file. -/
theorem paddingLoop_never_ends {d : Disk} (hfile : ∀ i : Int, p ≤ i → byteAt d.content i = 0)
    (hbuffer : ∀ n i, d.buffer n i = 0) (hodd : p % 2 = 1) (reads : List Extent) (fuel : Nat) :
    (loop (fun _ p => p % 4 ≠ 0) paddingTurn ()).run d fuel ⟨p, reads⟩ = none := by
  refine loop_never_ends (fun _ s => s.position % 2 = 1 ∧ p ≤ s.position) (fun _ s hs => ?_)
    ⟨hodd, Int.le_refl p⟩
  obtain ⟨hpos, hle⟩ := hs
  refine ⟨by simp only [decide_eq_true_eq]; omega, (),
    ⟨s.position + 2, s.reads ++ [⟨s.position, 2⟩]⟩, ?_, ?_⟩
  · have hzero : d.read s.reads.length ⟨s.position, 2⟩ = [0, 0] := by
      simp only [Disk.read, hbuffer, List.range_succ, List.range_zero, List.nil_append,
        List.cons_append, List.map_cons, List.map_nil]
      rw [hfile _ (by omega), hfile _ (by omega), ite_self, ite_self]
    change bindRun (bindRun (read 2).run fun buf => (pure (readUIntLE buf) : Read Nat).run)
      (fun word => (check (word = 0) "Padding values should be 0, at position: ").run) d fuel s = _
    have hread : (read 2 : Read (List UInt8)).run d fuel s =
        some (.ok [0, 0], ⟨s.position + 2, s.reads ++ [⟨s.position, 2⟩]⟩) := by
      rw [← hzero]
      rfl
    rw [bindRun_ok (bindRun_ok hread)]
    rfl
  · simp only
    omega

/-- Two bytes before a multiple of four, one word of padding is read. -/
theorem turns_even {r : Except String Unit} (hp : p % 4 = 2) :
    Turns c (fun _ p => p % 4 ≠ 0) paddingTurn () p r q ↔ Gives c (paddingTurn ()) p r q := by
  have hcond : decide (p % 4 ≠ 0) = true := by
    rw [decide_eq_true_iff]
    omega
  constructor
  · intro h
    cases h with
    | done hdone =>
      rw [hcond] at hdone
      cases hdone
    | turn _ hbody hrest =>
      obtain ⟨-, hnext, -⟩ := gives_paddingTurn.mp hbody
      subst hnext
      cases hrest with
      | done _ => exact hbody
      | turn hagain _ _ => exact absurd hagain (by rw [decide_eq_true_iff]; omega)
      | stop hagain _ => exact absurd hagain (by rw [decide_eq_true_iff]; omega)
    | stop _ hbody => exact hbody
  · intro h
    obtain ⟨-, hnext, -⟩ := gives_paddingTurn.mp h
    subst hnext
    cases r with
    | ok _ => exact .turn hcond h (.done (by rw [decide_eq_false_iff_not]; omega))
    | error e => exact .stop hcond h

/-- At a multiple of four there is no padding. -/
theorem turns_aligned {r : Except String Unit} (hp : p % 4 = 0) :
    Turns c (fun _ p => p % 4 ≠ 0) paddingTurn () p r q ↔ r = .ok () ∧ q = p := by
  rw [← gives_loop]
  have hdone : Gives c (loop (fun _ p => p % 4 ≠ 0) paddingTurn ()) p (.ok ()) p :=
    Gives.loop_done (by simp [hp])
  constructor
  · exact fun h => h.unique hdone
  · rintro ⟨rfl, rfl⟩
    exact hdone

/-- When the padding loop stays inside. -/
theorem endsInside_paddingLoop :
    EndsInside c (loop (fun _ p => p % 4 ≠ 0) paddingTurn ()) p ↔ PaddingInside c p := by
  simp only [endsInside_iff, gives_loop]
  constructor
  · rintro ⟨r, q, h⟩
    rcases (by omega : p % 4 = 0 ∨ p % 4 = 2 ∨ p % 2 = 1) with hp | hp | hp
    · exact .inl hp
    · exact .inr (.inl ⟨hp, (gives_paddingTurn.mp ((turns_even hp).mp h)).1⟩)
    · exact .inr (.inr ⟨hp, (turns_odd h hp).2⟩)
  · rintro (hp | ⟨hp, hin⟩ | ⟨hp, k, hin, hword⟩)
    · exact ⟨_, _, (turns_aligned hp).mpr ⟨rfl, rfl⟩⟩
    · exact ⟨_, _, (turns_even hp).mpr (gives_paddingTurn.mpr ⟨hin, rfl, rfl⟩)⟩
    · exact turns_of_word hp hin hword

/-- The padding loop ends where the padding does. -/
theorem gives_paddingLoop :
    Gives c (loop (fun _ p => p % 4 ≠ 0) paddingTurn ()) p (.ok ()) q ↔ PaddingAt c p q := by
  rw [gives_loop]
  constructor
  · intro h
    rcases (by omega : p % 4 = 0 ∨ p % 4 = 2 ∨ p % 2 = 1) with hp | hp | hp
    · exact .inl ⟨hp, ((turns_aligned hp).mp h).2⟩
    · obtain ⟨hin, hq, hr⟩ := gives_paddingTurn.mp ((turns_even hp).mp h)
      by_cases hzero : wordAt c p = 0
      · exact .inr ⟨hp, hin, hzero, hq⟩
      · rw [if_neg hzero] at hr
        cases hr
    · obtain ⟨⟨e, he⟩, -⟩ := turns_odd h hp
      cases he
  · rintro (⟨hp, rfl⟩ | ⟨hp, hin, hzero, rfl⟩)
    · exact (turns_aligned hp).mpr ⟨rfl, rfl⟩
    · exact (turns_even hp).mpr (gives_paddingTurn.mpr ⟨hin, rfl, (if_pos hzero).symm⟩)

/-- `ReadPadding` is its loop between two looks at the position. -/
theorem padding_bind {β : Type} (f : Int → Read β) : ReadPadding >>= f =
    position >>= fun beginPos => loop (fun _ p => p % 4 ≠ 0) paddingTurn () >>= fun _ =>
      position >>= fun endPos => f (endPos - beginPos) := by
  simp only [ReadPadding, bind_assoc, pure_bind]

/-- A reader that begins with padding stays inside. -/
@[simp] theorem endsInside_padding_bind {β : Type} {f : Int → Read β} :
    EndsInside c (ReadPadding >>= f) p ↔
      PaddingInside c p ∧ ∀ q, PaddingAt c p q → EndsInside c (f (q - p)) q := by
  rw [padding_bind, endsInside_position_bind, endsInside_bind, endsInside_paddingLoop]
  simp only [endsInside_position_bind]
  refine and_congr_right fun _ => ⟨fun h q hq => h () q (gives_paddingLoop.mpr hq),
    fun h _ q hq => ?_⟩
  exact h q (gives_paddingLoop.mp hq)

/-- What a reader that begins with padding gives. -/
@[simp] theorem gives_padding_bind {β : Type} {f : Int → Read β} {x : β} :
    Gives c (ReadPadding >>= f) p (.ok x) q ↔
      ∃ v, PaddingAt c p v ∧ Gives c (f (v - p)) v (.ok x) q := by
  rw [padding_bind, gives_position_bind, gives_bind_ok]
  simp only [gives_position_bind]
  constructor
  · rintro ⟨_, v, hv, hf⟩
    exact ⟨v, gives_paddingLoop.mp hv, hf⟩
  · rintro ⟨v, hv, hf⟩
    exact ⟨(), v, gives_paddingLoop.mpr hv, hf⟩

end Text

/-! ## Members -/

/-- Padding never goes back, and never out of the file. -/
theorem PaddingAt.forward {c : List UInt8} {p q : Int} (h : PaddingAt c p q) :
    p ≤ q ∧ (p ≤ c.length → q ≤ c.length) := by
  rcases h with ⟨-, rfl⟩ | ⟨-, hin, -, rfl⟩
  · omega
  · unfold Within at hin
    omega

/-- What the bytes say of a reader of members. -/
structure Member {α : Type} (c : List UInt8) (m : Read α) (wLength : α → Nat) (Inside : Int → Prop)
    (At : Int → Nat → Int → Prop) : Prop where
  inside : ∀ p, EndsInside c m p ↔ Inside p
  ends : ∀ p w q, At p w q ↔ ∃ x, wLength x = w ∧ Gives c m p (.ok x) q
  forward : ∀ p w q, At p w q → p < q ∧ q ≤ c.length

section Members

variable {α : Type} {c : List UInt8} {m : Read α} {wLength : α → Nat} {Inside : Int → Prop}
  {At : Int → Nat → Int → Prop} {stop length p q : Int}

/-- Members never go back, and never out of the file. -/
theorem MembersAt.forward (hforward : ∀ p w q, At p w q → p < q ∧ q ≤ c.length)
    (h : MembersAt c At stop length p q) : p ≤ q ∧ (p ≤ c.length → q ≤ c.length) := by
  unfold MembersAt at h
  generalize hx : (length, p) = x, hy : (stop, q) = y at h
  have hkeep : x.2 ≤ y.2 ∧ (x.2 ≤ c.length → y.2 ≤ c.length) := by
    clear hx hy
    induction h with
    | refl => exact ⟨Int.le_refl _, id⟩
    | tail _ hnext ih =>
      obtain ⟨-, w, v, hat, hpad, -⟩ := hnext
      obtain ⟨hlt, hle⟩ := hforward _ _ _ hat
      obtain ⟨hle', hin⟩ := hpad.forward
      exact ⟨by omega, fun _ => hin hle⟩
  subst hx hy
  exact hkeep

/-- A turn of `ReadChildren` reads a child and the padding behind it. -/
theorem endsInside_childTurn {vars : Int × List α} :
    EndsInside c (childTurn m wLength vars) p ↔
      EndsInside c m p ∧ ∀ x q, Gives c m p (.ok x) q → PaddingInside c q := by
  simp [childTurn, endsInside_bind (m := m)]

/-- A turn gives the child, and counts down its length and the padding. -/
theorem gives_childTurn {vars vars' : Int × List α} :
    Gives c (childTurn m wLength vars) p (.ok vars') q ↔
      ∃ x v, Gives c m p (.ok x) v ∧ PaddingAt c v q ∧
        vars' = (vars.1 - wLength x - (q - v), vars.2 ++ [x]) := by
  simp [childTurn, gives_bind_ok (m := m)]

/-- The turns of the loop go from member to member. -/
theorem nextMember_of_turn (h : Member c m wLength Inside At) {x y : (Int × List α) × Int}
    (hturn : Turn c (fun vars _ => vars.1 ≠ stop) (childTurn m wLength) x y) :
    NextMember c At stop (x.1.1, x.2) (y.1.1, y.2) := by
  obtain ⟨hcond, hbody⟩ := hturn
  obtain ⟨a, v, ha, hpad, hvars⟩ := gives_childTurn.mp hbody
  refine ⟨by simpa using hcond, _, v, (h.ends _ _ _).mpr ⟨a, rfl, ha⟩, hpad, ?_⟩
  rw [hvars]

/-- A member is one turn of the loop. -/
theorem turn_of_nextMember (h : Member c m wLength Inside At) {x y : Int × Int}
    (hnext : NextMember c At stop x y) (xs : List α) :
    ∃ xs', Turn c (fun vars _ => vars.1 ≠ stop) (childTurn m wLength) ((x.1, xs), x.2)
      ((y.1, xs'), y.2) := by
  obtain ⟨hne, w, v, hat, hpad, hlength⟩ := hnext
  obtain ⟨a, rfl, ha⟩ := (h.ends _ _ _).mp hat
  exact ⟨xs ++ [a], by simpa using hne, gives_childTurn.mpr ⟨a, v, ha, hpad, by rw [hlength]⟩⟩

/-- The turns of the loop go through the members. -/
theorem members_of_turns (h : Member c m wLength Inside At) {x y : (Int × List α) × Int}
    (hturns : ReflTransGen (Turn c (fun vars _ => vars.1 ≠ stop) (childTurn m wLength)) x y) :
    ReflTransGen (NextMember c At stop) (x.1.1, x.2) (y.1.1, y.2) := by
  induction hturns with
  | refl => exact .refl
  | tail _ hturn ih => exact ih.tail (nextMember_of_turn h hturn)

/-- The members are gone through by turns of the loop. -/
theorem turns_of_members (h : Member c m wLength Inside At) {x y : Int × Int}
    (hmembers : ReflTransGen (NextMember c At stop) x y) (xs : List α) :
    ∃ xs', ReflTransGen (Turn c (fun vars _ => vars.1 ≠ stop) (childTurn m wLength))
      ((x.1, xs), x.2) ((y.1, xs'), y.2) := by
  induction hmembers with
  | refl => exact ⟨xs, .refl⟩
  | tail _ hnext ih =>
    obtain ⟨xs', hturns⟩ := ih
    obtain ⟨xs'', hturn⟩ := turn_of_nextMember h hnext xs'
    exact ⟨xs'', hturns.tail hturn⟩

/-- A turn goes forward, inside the file. -/
theorem childTurn_forward (h : Member c m wLength Inside At) {vars vars' : Int × List α} {p q : Int}
    (hbody : Gives c (childTurn m wLength vars) p (.ok vars') q) : p < q ∧ q ≤ c.length := by
  obtain ⟨a, v, ha, hpad, -⟩ := gives_childTurn.mp hbody
  obtain ⟨hlt, hle⟩ := h.forward _ _ _ ((h.ends _ _ _).mpr ⟨a, rfl, ha⟩)
  obtain ⟨hle', hin⟩ := hpad.forward
  exact ⟨by omega, hin hle⟩

/-- **Children.**  The loop over the children ends inside the file if every
child it comes to is inside. -/
theorem endsInside_children (h : Member c m wLength Inside At) :
    EndsInside c (readChildren stop m wLength length) p ↔
      MembersInside c Inside At stop length p := by
  rw [readChildren, endsInside_bind, endsInside_loop fun _ _ _ _ => childTurn_forward h]
  simp only [endsInside_pure, implies_true, and_true, endsInside_childTurn, h.inside]
  constructor
  · intro hends y hmembers hne
    obtain ⟨xs, hturns⟩ := turns_of_members h hmembers []
    obtain ⟨hinside, hpad⟩ := hends _ hturns (by simpa using hne)
    refine ⟨hinside, fun w q hat => ?_⟩
    obtain ⟨a, -, ha⟩ := (h.ends _ _ _).mp hat
    exact hpad a q ha
  · intro hinside y hturns hcond
    obtain ⟨hin, hpad⟩ := hinside _ (members_of_turns h hturns) (by simpa using hcond)
    exact ⟨hin, fun a q ha => hpad _ q ((h.ends _ _ _).mpr ⟨a, rfl, ha⟩)⟩

/-- `ReadChildren` gives children exactly where there are members. -/
theorem gives_children (h : Member c m wLength Inside At) :
    (∃ xs, Gives c (readChildren stop m wLength length) p (.ok xs) q) ↔
      MembersAt c At stop length p q := by
  simp only [readChildren, gives_bind_ok, gives_pure, gives_loop_ok]
  constructor
  · rintro ⟨xs, vars, q', ⟨hturns, hend⟩, -, rfl⟩
    have hmembers := members_of_turns h hturns
    have hstop : vars.1 = stop := by simpa using hend
    rwa [hstop] at hmembers
  · intro hmembers
    obtain ⟨xs, hturns⟩ := turns_of_members h hmembers []
    exact ⟨xs, (stop, xs), q, ⟨hturns, by simp⟩, rfl, rfl⟩

end Members

/-! ## The version resource -/

section Version

variable {c : List UInt8} {p q : Int}

/-- The position behind two words. -/
theorem after_two_words (p : Int) : p + 2 + 2 = p + 4 := by omega

/-- The position behind three words. -/
theorem after_three_words (p : Int) : p + 4 + 2 = p + 6 := by omega

/-- The position behind a text that comes behind three words. -/
theorem after_text (p : Int) (k : Nat) : p + 6 + 2 * k + 2 = p + 8 + 2 * k := by omega

/-- Three words are six bytes. -/
theorem within_three_words {P : Prop} :
    (Within c p 2 ∧ Within c (p + 2) 2 ∧ Within c (p + 4) 2 ∧ P) ↔ Within c p 6 ∧ P := by
  unfold Within
  constructor
  · rintro ⟨h2, -, h6, hP⟩
    exact ⟨by omega, hP⟩
  · rintro ⟨h6, hP⟩
    exact ⟨by omega, by omega, by omega, hP⟩

/-- Two double words are eight bytes. -/
theorem within_two_dwords {P : Prop} :
    (Within c p 4 ∧ Within c (p + 4) 4 ∧ P) ↔ Within c p 8 ∧ P := by
  rw [← and_assoc]
  exact and_congr_left fun _ => within_append (n := 4) (k := 4)

/-- Four double words are sixteen bytes. -/
theorem within_four_dwords {P : Prop} : (Within c p 4 ∧ Within c (p + 4) 4 ∧ Within c (p + 8) 4 ∧
    Within c (p + 12) 4 ∧ P) ↔ Within c p 16 ∧ P := by
  unfold Within
  constructor
  · rintro ⟨h4, -, -, h16, hP⟩
    exact ⟨by omega, hP⟩
  · rintro ⟨h16, hP⟩
    exact ⟨by omega, by omega, by omega, by omega, hP⟩

/-- Two words are four bytes. -/
theorem within_two_words {P : Prop} :
    (Within c p 2 ∧ Within c (p + 2) 2 ∧ P) ↔ Within c p 4 ∧ P := by
  rw [← and_assoc]
  exact and_congr_left fun _ => within_append (n := 2) (k := 2)

/-- A text goes forward, inside the file. -/
theorem EndsText.forward {k : Nat} (h : EndsText c p k) :
    p < p + 2 * k + 2 ∧ p + 2 * k + 2 ≤ c.length := by
  have hin := h.2.2
  unfold Within at hin
  omega

/-- A `String` is a member of a table. -/
theorem string_member : Member c StringRead StringObj.wLength (StringInside c) (StringAt c) where
  inside p := by
    simp only [StringRead, endsInside_WORD_bind, endsInside_text_bind, endsInside_padding_bind,
      endsInside_position_bind, endsInside_pure, and_true, after_two_words, after_three_words,
      after_text, within_three_words, StringInside]
  ends p w q := by
    simp only [StringRead, gives_WORD_bind, gives_text_bind, gives_padding_bind,
      gives_position_bind, gives_pure, after_two_words, after_three_words, after_text,
      within_three_words, StringAt]
    constructor
    · rintro ⟨hin, rfl, k, hk, v, hv, j, hj, rfl⟩
      exact ⟨_, rfl, hin, k, hk, v, hv, j, hj, rfl, rfl⟩
    · rintro ⟨x, rfl, hin, k, hk, v, hv, j, hj, hx, rfl⟩
      cases hx
      exact ⟨hin, rfl, k, hk, v, hv, j, hj, rfl⟩
  forward p w q := by
    rintro ⟨hin, -, k, hk, v, hv, j, hj, rfl⟩
    have := hk.forward
    have := hv.forward
    have := hj.forward
    omega

/-- A table is a member of the string information. -/
theorem table_member :
    Member c StringTableRead StringTableObj.wLength (TableInside c) (TableAt c) where
  inside p := by
    simp only [StringTableRead, endsInside_WORD_bind, endsInside_text_bind, endsInside_check_bind,
      endsInside_padding_bind, endsInside_bind (m := readChildren _ _ _ _), endsInside_pure,
      implies_true, and_true, after_two_words, after_three_words, after_text, within_three_words,
      endsInside_children string_member, key_length, decide_eq_true_eq, Bool.or_eq_true,
      TableInside, tableLength]
  ends p w q := by
    simp only [StringTableRead, gives_WORD_bind, gives_text_bind, gives_check_bind_ok,
      gives_padding_bind, gives_bind_ok (m := readChildren _ _ _ _), gives_pure, after_two_words,
      after_three_words, after_text, within_three_words, key_length, decide_eq_true_eq,
      Bool.or_eq_true, TableAt, ← gives_children string_member, tableLength]
    constructor
    · rintro ⟨hin, rfl, k, hk, hvalue, htype, h8, v, hv, xs, hxs⟩
      exact ⟨_, rfl, hin, k, hk, hvalue, htype, h8, v, hv, xs, q, hxs, rfl, rfl⟩
    · rintro ⟨x, rfl, hin, k, hk, hvalue, htype, h8, v, hv, xs, q', hxs, hx, rfl⟩
      cases hx
      exact ⟨hin, rfl, k, hk, hvalue, htype, h8, v, hv, xs, hxs⟩
  forward p w q := by
    rintro ⟨hin, -, k, hk, -, -, -, v, hv, hmembers⟩
    have := hk.forward
    have := hv.forward
    have := hmembers.forward string_member.forward
    omega

/-! ### Translations -/

/-- A turn of the `Var` loop reads one translation. -/
theorem block_varTurn (vars : Int × List Nat) :
    Block c (varTurn vars) 4 fun p => (vars.1 - 4, vars.2 ++ [dwordAt c p]) := (block_UINT 4).map

/-- The loop of `VarRead` ends if the length is a multiple of four, and only then. -/
theorem gives_varLoop {length : Int} {xs : List Nat} {r : Except String (Int × List Nat)}
    (hp : Within c p 0) :
    Gives c (loop (fun vars _ => vars.1 ≠ 0) varTurn (length, xs)) p r q ↔
      ∃ n : Nat, length = 4 * n ∧ Within c p (4 * n) ∧
        r = .ok (0, xs ++ valuesAt (dwordAt c) 4 n p) ∧ q = p + 4 * n := by
  rw [gives_loop]
  constructor
  · intro h
    generalize hvars : (length, xs) = vars at h
    induction h generalizing length xs with
    | done hcond =>
      subst hvars
      have hzero : length = 0 := by simpa using hcond
      exact ⟨0, by omega, hp, by simp [hzero, valuesAt], by omega⟩
    | @turn _ _ p _ _ _ hcond hbody _ ih =>
      subst hvars
      obtain ⟨hin, hvars, rfl⟩ := (block_varTurn _ _ _ _).mp hbody
      have hnext : Within c (p + (4 : Nat)) 0 := by
        unfold Within at *
        omega
      obtain ⟨n, hn, hrest, rfl, rfl⟩ := ih hnext (Except.ok.inj hvars).symm
      refine ⟨n + 1, by omega, ?_, ?_, by omega⟩
      · unfold Within at *
        omega
      · rw [valuesAt, List.append_assoc]
        rfl
    | stop _ hbody => cases ((block_varTurn _ _ _ _).mp hbody).2.1
  · rintro ⟨n, rfl, hin, rfl, rfl⟩
    induction n generalizing xs p with
    | zero =>
      have hdone : Turns c (fun vars _ => vars.1 ≠ 0) varTurn ((0 : Int), xs) p (.ok (0, xs)) p :=
        .done (by simp)
      simpa [valuesAt] using hdone
    | succ n ih =>
      have hfirst : Within c p 4 := hin.mono (by omega)
      have hrest : Within c (p + 4) (4 * n) := by
        unfold Within at *
        omega
      have hnext : Within c (p + 4) 0 := hrest.mono (by omega)
      have hturns := @ih (p + 4) (xs ++ [dwordAt c p]) hnext hrest
      refine .turn (by simp; omega) ((block_varTurn _ _ _ _).mpr ⟨hfirst, rfl, rfl⟩) ?_
      have hlength : 4 * ((n + 1 : Nat) : Int) - 4 = 4 * n := by omega
      have hend : p + 4 * ((n + 1 : Nat) : Int) = p + 4 + 4 * n := by omega
      rw [hlength, hend, valuesAt]
      simpa using hturns

/-- A length that is not a multiple of four passes zero: on no disk the loop ends. -/
theorem varLoop_never_ends {length : Int} (h : length % 4 ≠ 0) (xs : List Nat) (d : Disk)
    (fuel : Nat) (s : State) :
    (loop (fun vars _ => vars.1 ≠ 0) varTurn (length, xs)).run d fuel s = none := by
  refine loop_never_ends (fun vars _ => vars.1 % 4 ≠ 0) (fun vars s hvars => ?_) h
  refine ⟨by simp only [decide_eq_true_eq]; omega, _, _, rfl, ?_⟩
  change (vars.1 - 4) % 4 ≠ 0
  omega

/-- The position behind a text is inside the file. -/
theorem within_zero_of_text {k : Nat} (h : EndsText c p k) : Within c (p + 2 * k + 2) 0 := by
  have := h.2.2
  unfold Within at *
  omega

/-- The position behind padding is inside the file. -/
theorem PaddingAt.within_zero (h : PaddingAt c p q) (hp : Within c p 0) : Within c q 0 := by
  have := h.forward
  unfold Within at *
  omega

/-- The translations of `n` bytes at `p`. -/
theorem translations_iff {n : Nat} :
    (∃ m : Nat, (n : Int) = 4 * m ∧ Within c p (4 * m)) ↔ n % 4 = 0 ∧ Within c p n := by
  constructor
  · rintro ⟨m, hm, hin⟩
    obtain rfl : n = 4 * m := by omega
    exact ⟨by omega, hin⟩
  · rintro ⟨hmod, hin⟩
    refine ⟨n / 4, by omega, ?_⟩
    rwa [show 4 * (n / 4) = n by omega]

/-- The `Var` loop stays inside if it has whole translations and room for them. -/
theorem endsInside_varLoop {n : Nat} (hp : Within c p 0) :
    EndsInside c (loop (fun vars _ => vars.1 ≠ 0) varTurn ((n : Int), [])) p ↔
      n % 4 = 0 ∧ Within c p n := by
  rw [← translations_iff, endsInside_iff]
  constructor
  · rintro ⟨r, q, h⟩
    obtain ⟨m, hm, hin, -, -⟩ := (gives_varLoop hp).mp h
    exact ⟨m, hm, hin⟩
  · rintro ⟨m, hm, hin⟩
    exact ⟨_, _, (gives_varLoop hp).mpr ⟨m, hm, hin, rfl, rfl⟩⟩

/-- When `VarRead` stays inside. -/
theorem endsInside_VarRead : EndsInside c VarRead p ↔ VarInside c p := by
  simp only [VarRead, endsInside_WORD_bind, endsInside_text_bind, endsInside_check_bind,
    endsInside_padding_bind, endsInside_bind (m := loop _ _ _), endsInside_pure, implies_true,
    and_true, after_two_words, after_three_words, after_text, within_three_words,
    decide_eq_true_eq, Bool.or_eq_true, VarInside, keyAt]
  refine and_congr_right fun _ => imp_congr_right fun _ => exists_congr fun k =>
    and_congr_right fun hk => imp_congr_right fun _ => and_congr_right fun _ =>
      forall_congr' fun q => imp_congr_right fun hq => ?_
  have hstart : Within c (p + 8 + 2 * k) 0 := by
    have := within_zero_of_text hk
    rwa [after_text] at this
  exact endsInside_varLoop (hq.within_zero hstart)

/-- `VarRead` gives a result where there is a `Var`. -/
theorem gives_VarRead : (∃ x, Gives c VarRead p (.ok x) q) ↔ VarAt c p q := by
  simp only [VarRead, gives_WORD_bind, gives_text_bind, gives_check_bind_ok, gives_padding_bind,
    gives_bind_ok (m := loop _ _ _), gives_pure, after_two_words, after_three_words, after_text,
    within_three_words, decide_eq_true_eq, Bool.or_eq_true, VarAt, keyAt]
  constructor
  · rintro ⟨x, hin, htype, k, hk, hkey, v, hv, vars, q', hloop, -, rfl⟩
    have hstart := hv.within_zero (after_text p k ▸ within_zero_of_text hk)
    obtain ⟨n, hn, hwithin, -, rfl⟩ := (gives_varLoop hstart).mp hloop
    obtain ⟨hmod, hvalue⟩ := translations_iff.mp ⟨n, hn, hwithin⟩
    exact ⟨hin, htype, k, hk, hkey, v, hv, hmod, hvalue, by omega⟩
  · rintro ⟨hin, htype, k, hk, hkey, v, hv, hmod, hvalue, rfl⟩
    have hstart := hv.within_zero (after_text p k ▸ within_zero_of_text hk)
    obtain ⟨n, hn, hwithin⟩ := translations_iff.mpr ⟨hmod, hvalue⟩
    refine ⟨_, hin, htype, k, hk, hkey, v, hv, _, _, (gives_varLoop hstart).mpr
      ⟨n, hn, hwithin, rfl, rfl⟩, rfl, by omega⟩

/-- A `Var` goes forward, inside the file. -/
theorem VarAt.forward (h : VarAt c p q) : p < q ∧ q ≤ c.length := by
  obtain ⟨-, -, k, hk, -, v, hv, -, hin, rfl⟩ := h
  have := hk.forward
  have := hv.forward
  unfold Within at hin
  omega

/-! ### The children of the resource -/

/-- The two keys differ. -/
theorem varFileInfo_ne_stringFileInfo : varFileInfo ≠ stringFileInfo := by decide

/-- When the children of an information block stay inside, key by key. -/
theorem endsInside_InfoChildrenRead {wLength : Nat} {key : Units} {paddingSize : Int} :
    EndsInside c (InfoChildrenRead wLength key paddingSize) p ↔
      (key = varFileInfo → VarInside c p) ∧ (key = stringFileInfo →
        MembersInside c (TableInside c) (TableAt c) 0
          (wLength - (key.length + 1) * 2 - 6 - paddingSize) p) := by
  unfold InfoChildrenRead
  split
  · next hvar =>
    simp only [endsInside_bind (m := VarRead), endsInside_VarRead, endsInside_pure, implies_true,
      and_true]
    have hne : key ≠ stringFileInfo := fun hs => varFileInfo_ne_stringFileInfo (hvar.symm.trans hs)
    exact ⟨fun h => ⟨fun _ => h, fun hs => absurd hs hne⟩, fun h => h.1 hvar⟩
  · next hvar =>
    split
    · next hstring =>
      simp only [endsInside_bind (m := readChildren _ _ _ _), endsInside_children table_member,
        endsInside_pure, implies_true, and_true]
      exact ⟨fun h => ⟨fun hv => absurd hv hvar, fun _ => h⟩, fun h => h.2 hstring⟩
    · next hstring =>
      exact iff_of_true endsInside_throw ⟨fun hv => absurd hv hvar, fun hs => absurd hs hstring⟩

/-- The children of an information block are read where they are, key by key. -/
theorem gives_InfoChildrenRead (wLength : Nat) (key : Units) (paddingSize : Int) :
    (∃ x, Gives c (InfoChildrenRead wLength key paddingSize) p (.ok x) q) ↔
      (key = varFileInfo ∧ VarAt c p q) ∨ (key = stringFileInfo ∧
        MembersAt c (TableAt c) 0 (wLength - (key.length + 1) * 2 - 6 - paddingSize) p q) := by
  unfold InfoChildrenRead
  split
  · next hvar =>
    have hne : key ≠ stringFileInfo := fun hs => varFileInfo_ne_stringFileInfo (hvar.symm.trans hs)
    simp only [gives_bind_ok (m := VarRead), gives_pure, ← gives_VarRead]
    constructor
    · rintro ⟨x, child, q', hchild, -, rfl⟩
      exact .inl ⟨hvar, child, hchild⟩
    · rintro (⟨-, child, hchild⟩ | ⟨hs, -⟩)
      · exact ⟨_, child, q, hchild, rfl, rfl⟩
      · exact absurd hs hne
  · next hvar =>
    split
    · next hstring =>
      simp only [gives_bind_ok (m := readChildren _ _ _ _), gives_pure,
        ← gives_children table_member]
      constructor
      · rintro ⟨x, children, q', hchildren, -, rfl⟩
        exact .inr ⟨hstring, children, hchildren⟩
      · rintro (⟨hv, -⟩ | ⟨-, children, hchildren⟩)
        · exact absurd hv hvar
        · exact ⟨_, children, q, hchildren, rfl, rfl⟩
    · next hstring =>
      refine iff_of_false ?_ ?_
      · rintro ⟨x, hx⟩
        cases (gives_throw.mp hx).1
      · rintro (⟨hv, -⟩ | ⟨hs, -⟩)
        · exact hvar hv
        · exact hstring hs

/-- An information block is a member of the version resource. -/
theorem info_member :
    Member c VarFileOrStringFileInfoRead InfoObj.wLength (InfoInside c) (InfoAt c) where
  inside p := by
    simp only [VarFileOrStringFileInfoRead, endsInside_WORD_bind, endsInside_text_bind,
      endsInside_check_bind, endsInside_padding_bind, endsInside_bind (m := InfoChildrenRead _ _ _),
      endsInside_pure, implies_true, and_true, decide_eq_true_eq, endsInside_InfoChildrenRead,
      after_two_words, after_three_words, after_text, within_two_words, key_length, InfoInside,
      keyAt, infoLength]
  ends p w q := by
    have hchildren := fun (k : Nat) (v : Int) => gives_InfoChildrenRead (c := c) (p := v) (q := q)
      (wordAt c p) (keyAt c (p + 6) k) (v - (p + 8 + 2 * k))
    simp only [keyAt, key_length] at hchildren
    simp only [VarFileOrStringFileInfoRead, gives_WORD_bind, gives_text_bind, gives_check_bind_ok,
      gives_padding_bind, gives_bind_ok (m := InfoChildrenRead _ _ _), gives_pure,
      decide_eq_true_eq, after_two_words, after_three_words, after_text, within_two_words, InfoAt,
      keyAt, infoLength, ← hchildren]
    constructor
    · rintro ⟨h6, rfl, hvalue, k, hk, v, hv, children, hgives⟩
      obtain ⟨h4, hlast⟩ := (within_append (n := 4) (k := 2)).mpr h6
      exact ⟨_, rfl, h4, hvalue, hlast, k, hk, v, hv, children, q, hgives, rfl, rfl⟩
    · rintro ⟨x, rfl, h4, hvalue, hlast, k, hk, v, hv, children, q', hgives, hx, rfl⟩
      cases hx
      exact ⟨within_append.mp ⟨h4, hlast⟩, rfl, hvalue, k, hk, v, hv, children, hgives⟩
  forward p w q := by
    rintro ⟨hin, -, -, k, hk, v, hv, ⟨-, hvar⟩ | ⟨-, hmembers⟩⟩
    · have := hk.forward
      have := hv.forward
      have := hvar.forward
      omega
    · have := hk.forward
      have := hv.forward
      have := hmembers.forward table_member.forward
      omega

/-! ### The resource -/

/-- The fixed information is a block of 52 bytes that begins with its signature. -/
theorem block_FixedFileInfoRead :
    ∃ value, Block c FixedFileInfoRead 52 value ∧ ∀ p, (value p).dwSignature = dwordAt c p := by
  refine ⟨_, .congr (.bind (block_UINT 4) fun _ => .bind (block_UINT 4) fun _ =>
    .bind (block_UINT 4) fun _ => .bind (block_UINT 4) fun _ => .bind (block_UINT 4) fun _ =>
    .bind (block_UINT 4) fun _ => .bind (block_UINT 4) fun _ => .bind (block_UINT 4) fun _ =>
    .bind (block_UINT 4) fun _ => .bind (block_UINT 4) fun _ => .bind (block_UINT 4) fun _ =>
    .bind (block_UINT 4) fun _ => .map (block_UINT 4)) (fun _ => rfl) rfl, fun _ => rfl⟩

/-- When the value of the resource stays inside. -/
theorem endsInside_ValueRead {n : Nat} :
    EndsInside c (ValueRead n p) p ↔ (n ≠ 0 → Within c p 52) := by
  obtain ⟨value, hblock, -⟩ := block_FixedFileInfoRead (c := c)
  unfold ValueRead
  split
  · next hn =>
    simp only [hblock.endsInside_bind, endsInside_position_bind, endsInside_check_bind,
      endsInside_pure, implies_true, and_true]
    exact ⟨fun h _ => h, fun h => h hn⟩
  · next hn => exact iff_of_true endsInside_pure fun h => absurd h hn

/-- The value of the resource is read where it is what is expected. -/
theorem gives_ValueRead {n : Nat} :
    (∃ x, Gives c (ValueRead n p) p (.ok x) q) ↔
      (n ≠ 0 → Within c p 52) ∧ ValueExpected c n p ∧ q = p + n := by
  obtain ⟨value, hblock, hsignature⟩ := block_FixedFileInfoRead (c := c)
  unfold ValueRead ValueExpected
  split
  · next hn =>
    simp only [hblock.gives_bind, gives_position_bind, gives_check_bind_ok, gives_pure,
      decide_eq_true_eq, hsignature]
    constructor
    · rintro ⟨x, hin, hlength, hsig, -, rfl⟩
      have h52 : n = 52 := by omega
      exact ⟨fun _ => hin, .inr ⟨h52, hsig⟩, by omega⟩
    · rintro ⟨hin, hzero | ⟨rfl, hsig⟩, rfl⟩
      · exact absurd hzero hn
      · exact ⟨_, hin hn, by omega, hsig, rfl, rfl⟩
  · next hn =>
    have hzero : n = 0 := by omega
    simp [hzero]

/-- When the version resource stays inside. -/
theorem endsInside_ResourceDataVersionRead :
    EndsInside c ResourceDataVersionRead p ↔ VersionInside c p := by
  simp only [ResourceDataVersionRead, endsInside_WORD_bind, endsInside_text_bind,
    endsInside_check_bind, endsInside_padding_bind, endsInside_position_bind,
    endsInside_bind (m := ValueRead _ _), endsInside_bind (m := readChildren _ _ _ _),
    endsInside_pure, and_true, decide_eq_true_eq, endsInside_ValueRead,
    endsInside_children info_member, after_two_words, after_three_words, after_text,
    within_three_words, key_length, VersionInside, keyAt, versionLength]
  refine and_congr_right fun _ => exists_congr fun k => and_congr_right fun _ =>
    imp_congr_right fun _ => and_congr_right fun _ => forall_congr' fun v =>
      imp_congr_right fun _ => and_congr_right fun hvalue => ?_
  constructor
  · intro hends hexpected
    obtain ⟨value, hgives⟩ := gives_ValueRead.mpr ⟨hvalue, hexpected, rfl⟩
    obtain ⟨hpad, hrest⟩ := hends value _ hgives
    refine ⟨hpad, fun q hq => ⟨(hrest q hq).1, fun e he => ?_⟩⟩
    obtain ⟨children, hchildren⟩ := (gives_children info_member).mpr he
    exact (hrest q hq).2 children e hchildren
  · intro hinside value q hgives
    obtain ⟨-, hexpected, rfl⟩ := gives_ValueRead.mp ⟨value, hgives⟩
    obtain ⟨hpad, hrest⟩ := hinside hexpected
    refine ⟨hpad, fun q hq => ⟨(hrest q hq).1, fun children e hchildren => ?_⟩⟩
    exact (hrest q hq).2 e ((gives_children info_member).mp ⟨children, hchildren⟩)

end Version

end ExeFile

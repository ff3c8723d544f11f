import Mathlib.Logic.Relation
import Mathlib.Data.List.Basic

/-!
# Readers of a stream that arrives in pieces

A reader waits for a number of elements, or for at least one and at most a number
of them, and says what it waits for next when it has got them.  The stream
arrives in pieces, and a reader that takes less is given what happens to be there.

* `Takes`, `Run` -- all that can happen to a reader while its stream arrives: the
  pieces may be cut anywhere, and a read that takes less may be given anything;
* `Ends` -- what becomes of a reader that has the whole stream from the start;
* `Lawful` -- the reads that take less add up, and no two reads of nothing follow
  each other;
* `run_ends` -- the cut does not matter: every run leaves the reader that `Ends`
  does;
* `exists_ends` -- a reader comes to an end.
-/

namespace ChunkedReader

variable {α σ : Type}

/-- What a reader waits for. -/
structure Want where
  length : Nat
  allowLess : Bool
  deriving DecidableEq, Repr

/-- A reader over states `σ`: what it waits for, if it still does, and what it
does when it gets it. -/
structure Reader (α σ : Type) where
  wants : σ → Option Want
  take : σ → List α → σ

/-- The reader and what it has not read yet. -/
abbrev Config (α σ : Type) := σ × List α

variable {R : Reader α σ} {P : σ → Prop}

/-- The next delivery, of as much as there is. -/
def Reader.next (R : Reader α σ) (c : Config α σ) : Option (Config α σ) :=
  match R.wants c.1 with
  | none => none
  | some w =>
    if c.2 ≠ [] ∧ (w.allowLess ∨ w.length ≤ c.2.length) then
      some (R.take c.1 (c.2.take w.length), c.2.drop w.length)
    else none

/-- What is left when all of the stream was there from the start. -/
def Ends (R : Reader α σ) (c c' : Config α σ) : Prop :=
  Relation.ReflTransGen (fun a b => R.next a = some b) c c' ∧ R.next c' = none

/-- A delivery.  A read that takes less may be given any beginning of what there is. -/
inductive Takes (R : Reader α σ) : Config α σ → Config α σ → Prop
  | whole {s : σ} {unread : List α} {n : Nat} :
      R.wants s = some ⟨n, false⟩ → unread ≠ [] → n ≤ unread.length →
      Takes R (s, unread) (R.take s (unread.take n), unread.drop n)
  | less {s : σ} {unread : List α} {n k : Nat} :
      R.wants s = some ⟨n, true⟩ → unread ≠ [] → k ≤ n → k ≤ unread.length →
      Takes R (s, unread) (R.take s (unread.take k), unread.drop k)

/-- What happens while the pieces arrive. -/
inductive Run (R : Reader α σ) : Config α σ → List (List α) → Config α σ → Prop
  | done (c : Config α σ) : Run R c [] c
  | takes {c c' c'' : Config α σ} {pieces : List (List α)} :
      Takes R c c' → Run R c' pieces c'' → Run R c pieces c''
  | arrives {s : σ} {unread piece : List α} {pieces : List (List α)} {c : Config α σ} :
      Run R (s, unread ++ piece) pieces c → Run R (s, unread) (piece :: pieces) c

/-- The reader keeps an invariant, and on the states that have it:

* reads that take less add up: after a first part of what it waits for, the reader
  waits for the rest, and both parts do what the whole does;
* it waits for nothing at most once in a row. -/
structure Lawful (R : Reader α σ) (P : σ → Prop) : Prop where
  keeps : ∀ s w data, P s → R.wants s = some w → P (R.take s data)
  adds : ∀ s n a b, P s → R.wants s = some ⟨n, true⟩ → a.length < n → a.length + b.length ≤ n →
    R.wants (R.take s a) = some ⟨n - a.length, true⟩ ∧ R.take (R.take s a) b = R.take s (a ++ b)
  progress : ∀ s b w, P s → R.wants s = some ⟨0, b⟩ → R.wants (R.take s []) = some w → 0 < w.length

/-! ## The whole stream -/

theorem next_nil (s : σ) : R.next (s, []) = none := by
  unfold Reader.next
  split <;> simp

theorem next_stopped {s : σ} (h : R.wants s = none) (unread : List α) :
    R.next (s, unread) = none := by
  simp [Reader.next, h]

theorem next_some {s : σ} {unread : List α} {w : Want} (h : R.wants s = some w)
    (hne : unread ≠ []) (hready : w.allowLess ∨ w.length ≤ unread.length) :
    R.next (s, unread) = some (R.take s (unread.take w.length), unread.drop w.length) := by
  simp [Reader.next, hne, h, hready]

/-- What the next delivery is. -/
theorem next_eq_some {c c' : Config α σ} (h : R.next c = some c') :
    ∃ w, R.wants c.1 = some w ∧ c.2 ≠ [] ∧ (w.allowLess ∨ w.length ≤ c.2.length) ∧
      c' = (R.take c.1 (c.2.take w.length), c.2.drop w.length) := by
  unfold Reader.next at h
  split at h
  · cases h
  · next w hw =>
    split at h
    · next hready =>
      cases h
      exact ⟨w, hw, hready.1, hready.2, rfl⟩
    · cases h

/-- A delivery first. -/
theorem Ends.head {c c' c'' : Config α σ} (h : R.next c = some c') (he : Ends R c' c'') :
    Ends R c c'' :=
  ⟨he.1.head h, he.2⟩

/-- What is left is left after the first delivery. -/
theorem Ends.tail {c c' c'' : Config α σ} (h : R.next c = some c') (he : Ends R c c'') :
    Ends R c' c'' := by
  obtain ⟨hrun, hend⟩ := he
  rcases Relation.ReflTransGen.cases_head hrun with rfl | ⟨d, hd, hrest⟩
  · rw [h] at hend
    cases hend
  · cases h.symm.trans hd
    exact ⟨hrest, hend⟩

/-- Nothing is delivered any more. -/
theorem Ends.refl {c : Config α σ} (h : R.next c = none) : Ends R c c := ⟨.refl, h⟩

theorem Ends.eq_of_none {c c' : Config α σ} (h : R.next c = none) (he : Ends R c c') : c' = c := by
  rcases Relation.ReflTransGen.cases_head he.1 with rfl | ⟨d, hd, _⟩
  · rfl
  · rw [h] at hd
    cases hd

/-- The stream leaves one thing. -/
theorem Ends.unique {c d d' : Config α σ} (h : Ends R c d) (h' : Ends R c d') : d = d' := by
  obtain ⟨hrun, hend⟩ := h
  induction hrun using Relation.ReflTransGen.head_induction_on with
  | refl => exact (h'.eq_of_none hend).symm
  | head hstep _ ih => exact ih (h'.tail hstep)

/-- A reader that waits for what comes gets it. -/
theorem Ends.take {s : σ} {w : Want} {a rest : List α} {c : Config α σ} (h : R.wants s = some w)
    (hlen : a.length = w.length) (hne : a ++ rest ≠ []) (he : Ends R (R.take s a, rest) c) :
    Ends R (s, a ++ rest) c := by
  have hready : w.allowLess ∨ w.length ≤ (a ++ rest).length := .inr (by simp; omega)
  have hnext := next_some h hne hready
  rw [← hlen, List.take_left, List.drop_left] at hnext
  exact .head hnext he

/-- `G` holds of the reader whenever a part of the stream is there. -/
def Keeps (R : Reader α σ) (G : σ → Prop) (s : σ) (stream : List α) : Prop :=
  ∀ w more, w ++ more = stream → ∀ c, Ends R (s, w) c → G c.1

/-- The stream leads here, and `G` holds on the way. -/
def Reads (R : Reader α σ) (G : σ → Prop) (c c' : Config α σ) : Prop :=
  Ends R c c' ∧ Keeps R G c.1 c.2

/-- A reader that waits for nothing more. -/
theorem Reads.stopped {G : σ → Prop} {s : σ} (h : R.wants s = none) (hG : G s) (unread : List α) :
    Reads R G (s, unread) (s, unread) := by
  refine ⟨.refl (next_stopped h _), fun w more _ c hc => ?_⟩
  rw [hc.eq_of_none (next_stopped h w)]
  exact hG

/-- **A reader that waits for what comes gets it.**  On the way it waits, or has got a part. -/
theorem Reads.take {G : σ → Prop} {s : σ} {w : Want} {a rest : List α} {c : Config α σ}
    (h : R.wants s = some w) (hlen : a.length = w.length) (hne : a ++ rest ≠ []) (hG : G s)
    (hpart : ∀ b more, w.allowLess = true → b ++ more = a → G (R.take s b))
    (hr : Reads R G (R.take s a, rest) c) : Reads R G (s, a ++ rest) c := by
  refine ⟨.take h hlen hne hr.1, fun b more hb c' hc' => ?_⟩
  by_cases hempty : b = []
  · subst hempty
    rw [hc'.eq_of_none (next_nil s)]
    exact hG
  by_cases hshort : b.length < a.length
  · obtain ⟨more', rfl⟩ : b <+: a :=
      List.prefix_of_prefix_length_le ⟨more, hb⟩ (List.prefix_append a rest) (by omega)
    by_cases hless : w.allowLess = true
    · have hnext := next_some (R := R) h hempty (.inl hless)
      rw [List.take_of_length_le (by omega), List.drop_eq_nil_of_le (by omega)] at hnext
      rw [(hc'.tail hnext).eq_of_none (next_nil _)]
      exact hpart b more' hless rfl
    · have hnone : R.next (s, b) = none := by
        have hnot : ¬ w.length ≤ b.length := by omega
        simp [Reader.next, h, hless, hnot]
      rw [hc'.eq_of_none hnone]
      exact hG
  · obtain ⟨b', rfl⟩ : a <+: b :=
      List.prefix_of_prefix_length_le (List.prefix_append a rest) ⟨more, hb⟩ (by omega)
    have hready : w.allowLess ∨ w.length ≤ (a ++ b').length := .inr (by simp; omega)
    have hnext := next_some (R := R) h hempty hready
    rw [← hlen, List.take_left, List.drop_left] at hnext
    rw [List.append_assoc, List.append_cancel_left_eq] at hb
    exact hr.2 b' more hb c' (hc'.tail hnext)

/-- What every delivery keeps is kept. -/
theorem Ends.keeps (hlaw : Lawful R P) {c c' : Config α σ} (he : Ends R c c') (h : P c.1) :
    P c'.1 := by
  obtain ⟨hrun, -⟩ := he
  induction hrun with
  | refl => exact h
  | tail _ hnext ih =>
    obtain ⟨w, hw, -, -, rfl⟩ := next_eq_some hnext
    exact hlaw.keeps _ w _ ih hw

/-! ## The cut does not matter -/

theorem Takes.keeps (hlaw : Lawful R P) {c c' : Config α σ} (h : Takes R c c') (hP : P c.1) :
    P c'.1 := by
  cases h with
  | whole hw => exact hlaw.keeps _ _ _ hP hw
  | less hw => exact hlaw.keeps _ _ _ hP hw

/-- A delivery now, or as part of what comes later. -/
theorem Takes.ends (hlaw : Lawful R P) {c c' : Config α σ} (h : Takes R c c') (hP : P c.1)
    {more : List α} {d : Config α σ} (he : Ends R (c'.1, c'.2 ++ more) d) :
    Ends R (c.1, c.2 ++ more) d := by
  cases h with
  | @whole s unread n hw hne hn =>
    have hsplit : unread ++ more = unread.take n ++ (unread.drop n ++ more) := by
      rw [← List.append_assoc, List.take_append_drop]
    rw [hsplit]
    exact .take hw (by simp [hn]) (by rw [← hsplit]; simp [hne]) he
  | @less s unread n k hw hne hkn hk =>
    have hsplit : unread ++ more = unread.take k ++ (unread.drop k ++ more) := by
      rw [← List.append_assoc, List.take_append_drop]
    have hnonempty : unread.take k ++ (unread.drop k ++ more) ≠ [] := by
      rw [← hsplit]
      simp [hne]
    rw [hsplit]
    -- the first part, and what comes after it
    generalize hrest : unread.drop k ++ more = rest at *
    have hlen : (unread.take k).length = k := by simp [hk]
    generalize unread.take k = a at *
    rcases Nat.lt_or_ge k n with hlt | hge
    · have hnext := next_some (R := R) hw hnonempty (.inl rfl)
      dsimp only at hnext
      rw [List.take_append, List.drop_append, hlen, List.take_of_length_le (by omega),
        List.drop_eq_nil_of_le (by omega), List.nil_append] at hnext
      have hb : a.length + (rest.take (n - k)).length ≤ n := by
        rw [List.length_take]
        omega
      obtain ⟨hwants, htake⟩ := hlaw.adds s n a (rest.take (n - k)) hP hw (by omega) hb
      rw [hlen] at hwants
      refine .head hnext ?_
      by_cases hempty : rest = []
      · subst hempty
        simpa using he
      · have := he.tail (next_some hwants hempty (.inl rfl))
        rwa [htake] at this
    · obtain rfl : k = n := by omega
      exact .take hw hlen hnonempty he

/-- A run now, or as part of what comes later. -/
theorem Run.ends (hlaw : Lawful R P) {c d : Config α σ} {pieces : List (List α)}
    (h : Run R c pieces d) (hP : P c.1) {more : List α} {e : Config α σ}
    (he : Ends R (d.1, d.2 ++ more) e) : Ends R (c.1, c.2 ++ (pieces.flatten ++ more)) e := by
  induction h with
  | done c => simpa using he
  | takes htake _ ih => exact htake.ends hlaw hP (ih (htake.keeps hlaw hP) he)
  | arrives _ ih => simpa [List.append_assoc] using ih hP he

/-- **The cut does not matter.**  However the stream is cut, and whatever the reads that
take less are given, the reader ends as if all of it had been there from the start. -/
theorem run_ends (hlaw : Lawful R P) {c d : Config α σ} {pieces : List (List α)}
    (h : Run R c pieces d) (hP : P c.1) (hend : R.next d = none) :
    Ends R (c.1, c.2 ++ pieces.flatten) d := by
  have : Ends R (c.1, c.2 ++ (pieces.flatten ++ [])) d :=
    h.ends hlaw hP (by simpa using Ends.refl hend)
  simpa using this

theorem Run.of_takes {c d : Config α σ} (h : Relation.ReflTransGen (Takes R) c d) :
    Run R c [] d := by
  induction h using Relation.ReflTransGen.head_induction_on with
  | refl => exact .done d
  | head hstep _ ih => exact .takes hstep ih

/-- The next delivery is a delivery. -/
theorem Takes.of_next {c c' : Config α σ} (h : R.next c = some c') : Takes R c c' := by
  obtain ⟨⟨n, allowLess⟩, hw, hne, hready, rfl⟩ := next_eq_some h
  cases allowLess with
  | false => exact .whole hw hne (by simpa using hready)
  | true =>
    have hmin : ∀ l : List α, l.take n = l.take (min n l.length) := by
      intro l
      by_cases hn : n ≤ l.length
      · rw [Nat.min_eq_left hn]
      · rw [Nat.min_eq_right (by omega), List.take_length, List.take_of_length_le (by omega)]
    have hdrop : ∀ l : List α, l.drop n = l.drop (min n l.length) := by
      intro l
      by_cases hn : n ≤ l.length
      · rw [Nat.min_eq_left hn]
      · rw [Nat.min_eq_right (by omega), List.drop_length, List.drop_eq_nil_of_le (by omega)]
    have := Takes.less (k := min n c.2.length) hw hne (Nat.min_le_left _ _) (Nat.min_le_right _ _)
    rw [← hmin, ← hdrop] at this
    exact this

theorem Ends.run {c d : Config α σ} (h : Ends R c d) : Run R c [] d := by
  obtain ⟨hrun, -⟩ := h
  induction hrun using Relation.ReflTransGen.head_induction_on with
  | refl => exact .done d
  | head hstep _ ih => exact .takes (.of_next hstep) ih

/-- A run reads no more than there is. -/
theorem Run.length_le {c d : Config α σ} {pieces : List (List α)} (h : Run R c pieces d) :
    d.2.length ≤ c.2.length + pieces.flatten.length := by
  induction h with
  | done c => simp
  | takes htake _ ih =>
    have : ∀ {c c' : Config α σ}, Takes R c c' → c'.2.length ≤ c.2.length := by
      intro c c' htake
      cases htake <;> simp
    have := this htake
    omega
  | arrives _ ih =>
    simp only [List.length_append, List.flatten_cons] at ih ⊢
    omega

/-- Where something is delivered, it is the next thing to happen. -/
theorem Takes.next_ne_none {c c' : Config α σ} (h : Takes R c c') : R.next c ≠ none := by
  cases h with
  | whole hw hne hn => simp [next_some hw hne (.inr hn)]
  | less hw hne => simp [next_some hw hne (.inl rfl)]


/-- A run keeps the invariant. -/
theorem Run.keeps (hlaw : Lawful R P) {c d : Config α σ} {pieces : List (List α)}
    (h : Run R c pieces d) (hP : P c.1) : P d.1 := by
  induction h with
  | done c => exact hP
  | takes htake _ ih => exact ih (htake.keeps hlaw hP)
  | arrives _ ih => exact ih hP

/-! ## The end is reached -/

/-- **A reader comes to an end.** -/
theorem exists_ends (hlaw : Lawful R P) (c : Config α σ) (hP : P c.1) : ∃ d, Ends R c d := by
  -- by the number of elements that are left; waiting for nothing comes once before each
  have hconsume : ∀ m, (∀ c : Config α σ, c.2.length < m → P c.1 → ∃ d, Ends R c d) →
      ∀ s unread w, unread.length = m → P s → R.wants s = some w → 0 < w.length →
        ∃ d, Ends R (s, unread) d := by
    intro m ih s unread w hm hPs hw hpos
    by_cases hready : unread ≠ [] ∧ (w.allowLess ∨ w.length ≤ unread.length)
    · have hshort : (unread.drop w.length).length < m := by
        have := List.length_pos_of_ne_nil hready.1
        rw [List.length_drop]
        omega
      obtain ⟨d, hd⟩ := ih (R.take s (unread.take w.length), unread.drop w.length) hshort
        (hlaw.keeps s w _ hPs hw)
      exact ⟨d, .head (next_some hw hready.1 hready.2) hd⟩
    · exact ⟨_, .refl (by simp only [Reader.next, hw, hready, if_false])⟩
  obtain ⟨s, unread⟩ := c
  induction hm : unread.length using Nat.strongRecOn generalizing s unread with
  | ind m ih =>
    have ih' : ∀ c : Config α σ, c.2.length < m → P c.1 → ∃ d, Ends R c d :=
      fun c hc hPc => ih _ hc c.1 c.2 hPc rfl
    cases hw : R.wants s with
    | none => exact ⟨_, .refl (next_stopped hw unread)⟩
    | some w =>
      by_cases hpos : 0 < w.length
      · exact hconsume m ih' s unread w hm hP hw hpos
      · obtain ⟨n, allowLess⟩ := w
        obtain rfl : n = 0 := by simpa using hpos
        by_cases hne : unread = []
        · subst hne
          exact ⟨_, .refl (next_nil s)⟩
        · have hnext := next_some hw hne (.inr (Nat.zero_le _))
          simp only [List.take_zero, List.drop_zero] at hnext
          have hP' := hlaw.keeps s _ [] hP hw
          cases hw' : R.wants (R.take s []) with
          | none => exact ⟨_, .head hnext (.refl (next_stopped hw' unread))⟩
          | some w' =>
            obtain ⟨d, hd⟩ := hconsume m ih' _ unread w' hm hP' hw'
              (hlaw.progress s allowLess w' hP hw hw')
            exact ⟨d, .head hnext hd⟩

/-- **What a reader does with a stream it goes on with from what it was left with.** -/
theorem Ends.resume (hlaw : Lawful R P) {c d e : Config α σ} (hP : P c.1) (h : Ends R c d)
    {more : List α} (he : Ends R (c.1, c.2 ++ more) e) : Ends R (d.1, d.2 ++ more) e := by
  obtain ⟨e', he'⟩ := exists_ends hlaw (d.1, d.2 ++ more) (h.keeps hlaw hP)
  have hall := h.run.ends hlaw hP he'
  rw [List.flatten_nil, List.nil_append] at hall
  rwa [hall.unique he] at he'

end ChunkedReader

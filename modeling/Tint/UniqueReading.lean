import Mathlib.Data.Set.Finite.Lattice
import Mathlib.Data.List.Basic
import Mathlib.Data.List.Infix

/-!
# Texts that are run together

A reading of a text is a head followed by words, run together without separators.  Each
of these pieces stands for something, and a text is read uniquely if all its readings
stand for the same.

Whether that is so can be told from the overhangs alone.  Two readings that are spelled
side by side differ, at any moment, by what one of them is ahead; the one behind takes
its next word, which is cut off the overhang or passes it.

* `unique_iff` -- readings are unique exactly if an overhang that comes down to nothing
  leaves two readings with the same meaning;
* `Overhang.suffix` -- an overhang is the end of a head or of a word, so finitely many
  pieces have finitely many overhangs;
* `unique_of_separate` -- readings are unique if no piece is the beginning of another.
-/

namespace UniqueReading

variable {α M : Type*}

/-- A text, and what it stands for. -/
structure Piece (α M : Type*) where
  text : List α
  meaning : M

/-- The text of pieces that are run together. -/
def text (pieces : List (Piece α M)) : List α := (pieces.map Piece.text).flatten

/-- What the pieces stand for, one by one. -/
def meanings (pieces : List (Piece α M)) : List M := pieces.map Piece.meaning

@[simp] theorem text_nil : text ([] : List (Piece α M)) = [] := rfl

@[simp] theorem text_cons (w : Piece α M) (ws : List (Piece α M)) :
    text (w :: ws) = w.text ++ text ws := rfl

@[simp] theorem text_append (ws us : List (Piece α M)) : text (ws ++ us) = text ws ++ text us := by
  simp [text]

@[simp] theorem meanings_nil : meanings ([] : List (Piece α M)) = [] := rfl

@[simp] theorem meanings_cons (w : Piece α M) (ws : List (Piece α M)) :
    meanings (w :: ws) = w.meaning :: meanings ws := rfl

@[simp] theorem meanings_append (ws us : List (Piece α M)) :
    meanings (ws ++ us) = meanings ws ++ meanings us := by
  simp [meanings]

variable (A W : Set (Piece α M))

/-- A head of `A` followed by words of `W`. -/
inductive Reading : List (Piece α M) → Prop
  | read {a : Piece α M} {ws : List (Piece α M)} (head : a ∈ A) (words : ∀ w ∈ ws, w ∈ W) :
      Reading (a :: ws)

/-- Readings of one text stand for the same. -/
def Unique : Prop :=
  ∀ r r' : List (Piece α M), Reading A W r → Reading A W r' → text r = text r' →
    meanings r = meanings r'

/-- `Overhang A W rest ms ms'`: two readings are under way, the first is ahead of the
second by the text `rest`, and so far they have meant `ms` and `ms'`. -/
inductive Overhang : List α → List M → List M → Prop
  /-- one head over another -/
  | heads {a a' : Piece α M} {rest : List α} (ha : a ∈ A) (ha' : a' ∈ A)
      (h : a.text = a'.text ++ rest) : Overhang rest [a.meaning] [a'.meaning]
  /-- a word is cut off the overhang -/
  | cut {w : Piece α M} {rest : List α} {ms ms' : List M}
      (before : Overhang (w.text ++ rest) ms ms') (hw : w ∈ W) :
      Overhang rest ms (ms' ++ [w.meaning])
  /-- a word passes the overhang, and the reading that was behind is ahead -/
  | pass {w : Piece α M} {ahead rest : List α} {ms ms' : List M}
      (before : Overhang ahead ms ms') (hw : w ∈ W) (h : w.text = ahead ++ rest) :
      Overhang rest (ms' ++ [w.meaning]) ms

variable {A W}

/-- A reading goes on with another word. -/
theorem Reading.snoc {r : List (Piece α M)} (h : Reading A W r) {w : Piece α M} (hw : w ∈ W) :
    Reading A W (r ++ [w]) := by
  obtain ⟨ha, hws⟩ := h
  refine .read ha fun u hu => ?_
  rcases List.mem_append.mp hu with hu | hu
  · exact hws u hu
  · obtain rfl := List.mem_singleton.mp hu
    exact hw

/-- An overhang is what one reading is ahead of another. -/
theorem Overhang.readings {rest : List α} {ms ms' : List M} (h : Overhang A W rest ms ms') :
    ∃ r r', Reading A W r ∧ Reading A W r' ∧ text r = text r' ++ rest ∧
      meanings r = ms ∧ meanings r' = ms' := by
  induction h with
  | @heads a a' rest ha ha' h =>
      exact ⟨[a], [a'], .read ha (by simp), .read ha' (by simp), by simpa using h, rfl, rfl⟩
  | @cut w rest ms ms' _ hw ih =>
      obtain ⟨r, r', hr, hr', htext, rfl, rfl⟩ := ih
      exact ⟨r, r' ++ [w], hr, hr'.snoc hw, by simpa using htext, rfl, by simp⟩
  | @pass w ahead rest ms ms' _ hw h ih =>
      obtain ⟨r, r', hr, hr', htext, rfl, rfl⟩ := ih
      exact ⟨r' ++ [w], r, hr'.snoc hw, hr, by simp [htext, h], by simp, rfl⟩

/-- Where nothing hangs over, either reading may be called the first. -/
theorem Overhang.symm {ms ms' : List M} (h : Overhang A W [] ms ms') :
    Overhang A W [] ms' ms := by
  generalize hrest : ([] : List α) = rest at h
  cases h with
  | heads ha ha' h => exact .heads ha' ha (by simp [h, ← hrest])
  | cut before hw => exact .pass before hw (by simp [← hrest])
  | pass before hw h =>
      subst hrest
      refine .cut ?_ hw
      simpa [h] using before

/-- Two readings that end in the same text close the overhang between them.  The induction
is on the words that are left, and each turn gives the reading behind its next word. -/
theorem Overhang.close {rest : List α} {ms ms' : List M} {ws ws' : List (Piece α M)}
    (h : Overhang A W rest ms ms') (hws : ∀ w ∈ ws, w ∈ W) (hws' : ∀ w ∈ ws', w ∈ W)
    (htext : rest ++ text ws = text ws') :
    Overhang A W [] (ms ++ meanings ws) (ms' ++ meanings ws') := by
  induction hn : ws.length + ws'.length using Nat.strong_induction_on generalizing
    rest ms ms' ws ws' with
  | _ n ih =>
    rcases ws' with _ | ⟨w', ws'⟩
    · obtain ⟨rfl, hleft⟩ := List.append_eq_nil_iff.mp htext
      rcases ws with _ | ⟨w, ws⟩
      · simpa using h
      -- only words without a letter are left
      · have hw : w.text = [] := (List.append_eq_nil_iff.mp hleft).1
        have hnext : Overhang A W [] (ms ++ [w.meaning]) ms' :=
          .pass h.symm (hws w List.mem_cons_self) (by simp [hw])
        have := ih (ws.length + 0) (by simp at hn ⊢; omega) hnext
          (fun u hu => hws u (List.mem_cons_of_mem _ hu)) hws' (by simpa [hw] using htext) rfl
        simpa using this
    · have hw' := hws' w' List.mem_cons_self
      have hrest' : ∀ u ∈ ws', u ∈ W := fun u hu => hws' u (List.mem_cons_of_mem _ hu)
      rw [text_cons] at htext
      rcases List.append_eq_append_iff.mp htext with ⟨e, hpass, hleft⟩ | ⟨rest', rfl, hleft⟩
      · have hnext := h.pass hw' hpass
        have := ih (ws'.length + ws.length) (by simp at hn ⊢; omega) hnext hrest' hws hleft.symm rfl
        simpa using this.symm
      · have hnext := h.cut hw'
        have := ih (ws.length + ws'.length) (by simp at hn ⊢; omega) hnext hws hrest' hleft.symm rfl
        simpa using this

/-- **Unique readings.**  All readings of a text stand for the same exactly if every
overhang that comes down to nothing leaves two readings with one meaning. -/
theorem unique_iff : Unique A W ↔ ∀ ms ms', Overhang A W [] ms ms' → ms = ms' := by
  constructor
  · intro hunique ms ms' h
    obtain ⟨r, r', hr, hr', htext, rfl, rfl⟩ := h.readings
    exact hunique r r' hr hr' (by simpa using htext)
  · rintro hclosed _ _ ⟨ha, hws⟩ ⟨ha', hws'⟩ htext
    simp only [text_cons] at htext
    rcases List.append_eq_append_iff.mp htext with ⟨e, hover, hleft⟩ | ⟨e, hover, hleft⟩
    · have h := (Overhang.heads ha' ha hover).close hws' hws hleft.symm
      simpa using (hclosed _ _ h).symm
    · have h := (Overhang.heads ha ha' hover).close hws hws' hleft.symm
      simpa using hclosed _ _ h

/-- An overhang is the end of a head or of a word. -/
theorem Overhang.suffix {rest : List α} {ms ms' : List M} (h : Overhang A W rest ms ms') :
    ∃ p ∈ A ∪ W, rest <:+ p.text := by
  induction h with
  | @heads a _ _ ha _ h => exact ⟨a, .inl ha, _, h.symm⟩
  | cut _ _ ih =>
      obtain ⟨p, hp, hsuffix⟩ := ih
      exact ⟨p, hp, (List.suffix_append _ _).trans hsuffix⟩
  | @pass w _ _ _ _ _ hw h _ => exact ⟨w, .inr hw, _, h.symm⟩

/-- Finitely many heads and words have finitely many overhangs. -/
theorem overhangs_finite (hA : A.Finite) (hW : W.Finite) :
    {rest | ∃ ms ms', Overhang A W rest ms ms'}.Finite := by
  refine ((hA.union hW).biUnion fun p _ => (List.finite_toSet p.text.tails)).subset ?_
  rintro rest ⟨ms, ms', h⟩
  obtain ⟨p, hp, hsuffix⟩ := h.suffix
  exact Set.mem_biUnion hp (by simpa using hsuffix)

/-- No piece of the set is the beginning of another. -/
def Separate (S : Set (Piece α M)) : Prop :=
  ∀ p ∈ S, ∀ q ∈ S, p.text <+: q.text → p = q

/-- **Separate pieces are read uniquely.**  If no head is the beginning of another head, and
no word is empty or the beginning of another word, then an overhang is never more than a
whole word. -/
theorem unique_of_separate (hA : Separate A) (hW : Separate W) (hne : ∀ w ∈ W, w.text ≠ []) :
    Unique A W := by
  refine unique_iff.mpr fun ms ms' hclosed => ?_
  have hword : ∀ {rest : List α} {ms ms' : List M}, Overhang A W rest ms ms' →
      (rest = [] ∧ ms = ms') ∨ ∃ w ∈ W, rest = w.text ∧ ms = ms' ++ [w.meaning] := by
    intro rest ms ms' h
    induction h with
    | heads ha ha' h =>
        obtain rfl := hA _ ha' _ ha ⟨_, h.symm⟩
        exact .inl ⟨by simpa using h, rfl⟩
    | @cut w rest _ _ _ hw ih =>
        rcases ih with ⟨hnil, -⟩ | ⟨u, hu, htext, rfl⟩
        · exact absurd (List.append_eq_nil_iff.mp hnil).1 (hne w hw)
        · obtain rfl := hW w hw u hu ⟨rest, htext⟩
          exact .inl ⟨by simpa using htext, rfl⟩
    | @pass w _ _ _ _ _ hw h ih =>
        rcases ih with ⟨rfl, rfl⟩ | ⟨u, hu, rfl, rfl⟩
        · exact .inr ⟨w, hw, by simpa using h.symm, rfl⟩
        · obtain rfl := hW u hu w hw ⟨_, h.symm⟩
          exact .inl ⟨by simpa using h, rfl⟩
  rcases hword hclosed with ⟨-, h⟩ | ⟨w, hw, hnil, -⟩
  · exact h
  · exact absurd hnil.symm (hne w hw)

end UniqueReading

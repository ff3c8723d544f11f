import Mathlib.Data.List.Basic
import Mathlib.Data.List.InsertIdx
import Mathlib.Data.Nat.Init

/-!
# Editing a list by index

What it means to insert an entry at an index, to delete one and to move one,
where the index may be left out: an entry is then added after the last one, or
the last one is deleted.  `getElem?_insertAt` and `getElem?_move` say which entry
is found where afterwards, and `eraseIdx_eq_dropLast_iff` when it does not matter
which entry is deleted.
-/

namespace ListEdit

variable {α : Type*}

/-- Insert `a` at the index, or after the last entry. -/
def insertAt (l : List α) (ndx : Option Nat) (a : α) : List α := l.insertIdx (ndx.getD l.length) a

/-- Delete the entry at the index, or the last one. -/
def deleteAt (l : List α) (ndx : Option Nat) : List α := l.eraseIdx (ndx.getD (l.length - 1))

/-- Take the entry at `i` out and put it back at `j`. -/
def move (l : List α) (i j : Nat) : List α :=
  match l[i]? with
  | some a => (l.eraseIdx i).insertIdx j a
  | none => l

theorem length_insertAt {l : List α} {ndx : Option Nat} (h : ∀ k, ndx = some k → k ≤ l.length)
    (a : α) : (insertAt l ndx a).length = l.length + 1 := by
  cases ndx with
  | none => simp [insertAt]
  | some k => exact List.length_insertIdx_of_le_length (h k rfl) a

theorem length_deleteAt {l : List α} {ndx : Option Nat} (hne : 0 < l.length)
    (h : ∀ k, ndx = some k → k < l.length) : (deleteAt l ndx).length = l.length - 1 := by
  cases ndx with
  | none => exact List.length_eraseIdx_of_lt (Nat.sub_lt hne Nat.one_pos)
  | some k => exact List.length_eraseIdx_of_lt (h k rfl)

theorem length_move {l : List α} {i j : Nat} (hi : i < l.length) (hj : j < l.length) :
    (move l i j).length = l.length := by
  have hlen := List.length_eraseIdx_of_lt hi
  rw [move, List.getElem?_eq_getElem hi]
  simp only
  rw [List.length_insertIdx_of_le_length (by omega), hlen]
  omega

/-- Moving an entry to where it is changes nothing. -/
theorem move_self {l : List α} {i : Nat} (hi : i < l.length) : move l i i = l := by
  rw [move, List.getElem?_eq_getElem hi]
  exact List.insertIdx_eraseIdx_getElem hi

/-- The entries before the inserted one stay, the ones from the index on are one
further. -/
theorem getElem?_insertAt {l : List α} {k : Nat} (hk : k ≤ l.length) (a : α) (r : Nat) :
    (l.insertIdx k a)[r]? = if r < k then l[r]? else if r = k then some a else l[r - 1]? := by
  rw [List.getElem?_insertIdx]
  split
  · rfl
  · split
    · rw [if_pos (by omega)]
    · rfl

/-- An entry of a list that has been added to. -/
theorem getElem?_concat_iff {l : List α} {a b : α} {i : Nat} :
    (l ++ [a])[i]? = some b ↔ l[i]? = some b ∨ (i = l.length ∧ a = b) := by
  rw [List.getElem?_append]
  split
  · next hlt =>
    exact ⟨.inl, fun h => h.resolve_right fun hlast => by omega⟩
  · next hge =>
    rw [List.getElem?_eq_none (Nat.not_lt.mp hge), List.getElem?_singleton]
    constructor
    · intro h
      split at h
      · exact .inr ⟨by omega, Option.some.inj h⟩
      · cases h
    · intro h
      obtain ⟨hi, hab⟩ := h.resolve_left (by simp)
      rw [if_pos (by omega), hab]

/-- The entry found at `r` after a move. -/
theorem getElem?_move {l : List α} {i j r : Nat} (hi : i < l.length) (hj : j < l.length) :
    (move l i j)[r]? =
      if r = j then l[i]?
      else if i ≤ r ∧ r < j then l[r + 1]?
      else if j < r ∧ r ≤ i then l[r - 1]?
      else l[r]? := by
  have hlen := List.length_eraseIdx_of_lt hi
  rw [move, List.getElem?_eq_getElem hi]
  simp only
  rw [getElem?_insertAt (by omega)]
  rcases Nat.lt_trichotomy r j with hr | rfl | hr
  · rw [if_pos hr, if_neg (by omega), List.getElem?_eraseIdx]
    by_cases hri : r < i
    · rw [if_pos hri, if_neg (by omega), if_neg (by omega)]
    · rw [if_neg hri, if_pos (by omega)]
  · rw [if_neg (by omega), if_pos rfl, if_pos rfl]
  · rw [if_neg (by omega), if_neg (by omega), if_neg (by omega), if_neg (by omega),
      List.getElem?_eraseIdx]
    by_cases hri : r - 1 < i
    · rw [if_pos hri, if_pos (by omega)]
    · rw [if_neg hri, if_neg (by omega), Nat.sub_add_cancel (by omega)]

theorem map_move {β : Type*} (f : α → β) (l : List α) (i j : Nat) :
    (move l i j).map f = move (l.map f) i j := by
  unfold move
  rw [List.getElem?_map]
  cases l[i]? with
  | none => rfl
  | some a => simp only [Option.map_some, List.map_insertIdx, List.eraseIdx_map]

theorem move_perm {l : List α} {i j : Nat} (hi : i < l.length) (hj : j < l.length) :
    (move l i j).Perm l := by
  rw [move, List.getElem?_eq_getElem hi]
  simp only
  have hlength := List.length_eraseIdx_of_lt hi
  have hout : ((l.eraseIdx i).insertIdx i l[i]).Perm (l[i] :: l.eraseIdx i) :=
    List.perm_insertIdx _ _ (by omega)
  rw [List.insertIdx_eraseIdx_getElem hi] at hout
  exact (List.perm_insertIdx _ _ (by omega)).trans hout.symm

/-- What the entries of a list become, when one is modified. -/
theorem modify_map_eq_iff {β : Type*} {l : List α} {f f' : α → β} {g : β → β} {ndx : Nat} :
    (l.map f).modify ndx g = l.map f' ↔
      ∀ i a, l[i]? = some a → (if ndx = i then g (f a) else f a) = f' a := by
  constructor
  · intro h i a hi
    have hat : ((l.map f).modify ndx g)[i]? = (l.map f')[i]? := congrArg (fun l => l[i]?) h
    rw [List.getElem?_modify, List.getElem?_map, List.getElem?_map, hi] at hat
    exact Option.some.inj hat
  · intro h
    apply List.ext_getElem?
    intro i
    rw [List.getElem?_modify, List.getElem?_map, List.getElem?_map]
    cases hi : l[i]? with
    | none => rfl
    | some a =>
        rw [Option.map_some, Option.map_some, ← h i a hi]
        split <;> rfl

/-- Deleting an entry is deleting the last one where all entries from it on are the same. -/
theorem eraseIdx_eq_dropLast_iff {l : List α} {p : Nat} (hp : p < l.length) :
    l.eraseIdx p = l.dropLast ↔ ∀ i, p ≤ i → i < l.length → l[i]? = l[p]? := by
  constructor
  · intro h i hi hlt
    induction i, hi using Nat.le_induction with
    | base => rfl
    | succ i hi ih =>
        have hat : (l.eraseIdx p)[i]? = l.dropLast[i]? := by rw [h]
        rw [List.getElem?_eraseIdx, if_neg (by omega), List.getElem?_dropLast,
          if_pos (by omega)] at hat
        rw [hat, ih (by omega)]
  · intro h
    apply List.ext_getElem?
    intro i
    rw [List.getElem?_eraseIdx, List.getElem?_dropLast]
    rcases Nat.lt_or_ge i p with hi | hi
    · rw [if_pos hi, if_pos (by omega)]
    · rw [if_neg (by omega)]
      rcases Nat.lt_or_ge i (l.length - 1) with hlt | hge
      · rw [if_pos hlt, h (i + 1) (by omega) (by omega), h i hi (by omega)]
      · rw [if_neg (by omega), List.getElem?_eq_none (by omega)]
end ListEdit

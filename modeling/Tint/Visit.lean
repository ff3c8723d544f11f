import Mathlib.Data.List.Basic

/-!
# Loops over an array that changes

A loop over an array may change the array that it runs over.  It goes by index and
takes the length once: an index at which there is no element any more is passed
over, and elements behind the first length are not reached.

* `loop_invariant` -- what holds at each index;
* `forEach_of_append` -- a loop that only appends visits what there was, in order.
-/

namespace Visit

variable {σ α : Type*} (items : σ → List α) (turn : α → σ → σ)

/-- The turn at one index. -/
def visit (k : Nat) (s : σ) : σ :=
  match (items s)[k]? with
  | some a => turn a s
  | none => s

/-- So many turns, from an index on. -/
def loop : Nat → Nat → σ → σ
  | 0, _, s => s
  | n + 1, k, s => loop n (k + 1) (visit items turn k s)

/-- `forEach` -/
def forEach (s : σ) : σ := loop items turn (items s).length 0 s

variable {items turn}

theorem visit_some {k : Nat} {s : σ} {a : α} (h : (items s)[k]? = some a) :
    visit items turn k s = turn a s := by
  rw [visit, h]

theorem visit_none {k : Nat} {s : σ} (h : (items s)[k]? = none) :
    visit items turn k s = s := by
  rw [visit, h]

/-- **Invariant rule.**  What holds at an index and survives its turn holds at the
end. -/
theorem loop_invariant (I : Nat → σ → Prop)
    (hturn : ∀ k s a, I k s → (items s)[k]? = some a → I (k + 1) (turn a s))
    (hnone : ∀ k s, I k s → (items s)[k]? = none → I (k + 1) s) {n k : Nat} {s : σ}
    (h : I k s) : I (k + n) (loop items turn n k s) := by
  induction n generalizing k s with
  | zero => exact h
  | succ n ih =>
      have hvisit : I (k + 1) (visit items turn k s) := by
        cases ha : (items s)[k]? with
        | none =>
            rw [visit_none ha]
            exact hnone k s h ha
        | some a =>
            rw [visit_some ha]
            exact hturn k s a h ha
      have hrest := ih hvisit
      rwa [Nat.add_right_comm] at hrest

theorem forEach_invariant (I : Nat → σ → Prop)
    (hturn : ∀ k s a, I k s → (items s)[k]? = some a → I (k + 1) (turn a s))
    (hnone : ∀ k s, I k s → (items s)[k]? = none → I (k + 1) s) {s : σ} (h : I 0 s) :
    I (items s).length (forEach items turn s) := by
  have hend := loop_invariant I hturn hnone (n := (items s).length) h
  rwa [Nat.zero_add] at hend

theorem loop_of_append (happend : ∀ a s, items s <+: items (turn a s)) (todo done : List α)
    {s : σ} (hitems : done ++ todo <+: items s) :
    loop items turn todo.length done.length s = todo.foldl (fun s a => turn a s) s := by
  induction todo generalizing done s with
  | nil => rfl
  | cons a todo ih =>
      obtain ⟨more, hmore⟩ := hitems
      have ha : (items s)[done.length]? = some a := by
        rw [← hmore, List.append_assoc, List.getElem?_append_right (Nat.le_refl _)]
        simp
      have hnext : (done ++ [a]) ++ todo <+: items (turn a s) := by
        refine List.IsPrefix.trans ?_ (happend a s)
        exact ⟨more, by rw [← hmore]; simp⟩
      have hrest := ih (done ++ [a]) hnext
      rw [List.length_append, List.length_singleton] at hrest
      rw [List.length_cons, loop, visit_some ha, hrest, List.foldl_cons]

/-- A loop whose turns only append visits what there was at the start. -/
theorem forEach_of_append (happend : ∀ a s, items s <+: items (turn a s)) (s : σ) :
    forEach items turn s = (items s).foldl (fun s a => turn a s) s :=
  loop_of_append happend (items s) [] (List.prefix_refl _)

end Visit

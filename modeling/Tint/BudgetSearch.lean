import Mathlib.Algebra.Order.BigOperators.Group.Finset
import Mathlib.Data.Finset.Basic
import Mathlib.Data.List.Nodup
import Mathlib.Logic.Relation
import Mathlib.Tactic.Ring

/-!
# Searching a graph on a budget

A depth-first search that marks what it has seen, and that is told how many
neighbours it may still follow: each neighbour costs one, for the search below
it as for the neighbours after it.

* `length_visits_lt` -- a budget of `r` marks fewer than `2 ^ r` nodes;
* `free_of_mem_visits` -- what is marked was marked before or is reached
  through nodes that were not;
* `mem_search_iff` -- and all of these are marked, when the budget is at least
  the number of edges that leave unmarked nodes.
-/

namespace BudgetSearch

variable {α : Type*} [DecidableEq α]

/-- The search from these nodes in turn. -/
def visits (next : α → List α) : Nat → List α → List α → List α
  | 0, _, seen => seen
  | _ + 1, [], seen => seen
  | r + 1, a :: rest, seen =>
    visits next r rest (if a ∈ seen then seen else visits next r (next a) (seen ++ [a]))

/-- A way from `a` to `b` through nodes that are not marked. -/
inductive Free (next : α → List α) (seen : List α) (a : α) : α → Prop
  | here (ha : a ∉ seen) : Free next seen a a
  | edge {b c : α} (h : Free next seen a b) (hc : c ∈ next b) (hseen : c ∉ seen) :
      Free next seen a c

variable {next : α → List α} {r : Nat} {l seen seen' : List α} {a b c : α}

omit [DecidableEq α] in
theorem Free.not_mem (h : Free next seen a b) : b ∉ seen := by
  cases h with
  | here ha => exact ha
  | edge _ _ hseen => exact hseen

omit [DecidableEq α] in
/-- With fewer marks there are more ways. -/
theorem Free.weaken (h : Free next seen' a b) (hsub : seen ⊆ seen') : Free next seen a b := by
  induction h with
  | here ha => exact .here fun h => ha (hsub h)
  | edge _ hc hseen ih => exact .edge ih hc fun h => hseen (hsub h)

omit [DecidableEq α] in
/-- A way that goes on from a neighbour. -/
theorem Free.behind (ha : a ∉ seen) (hb : b ∈ next a) (h : Free next seen b c) :
    Free next seen a c := by
  induction h with
  | here hb' => exact .edge (.here ha) hb hb'
  | edge _ hc hseen ih => exact .edge ih hc hseen

/-- Marks stay. -/
theorem subset_visits (next : α → List α) (r : Nat) (l seen : List α) :
    seen ⊆ visits next r l seen := by
  induction r generalizing l seen with
  | zero => exact List.Subset.refl _
  | succ r ih =>
    cases l with
    | nil => exact List.Subset.refl _
    | cons a rest =>
      refine List.Subset.trans ?_ (ih rest _)
      split
      · exact List.Subset.refl _
      · exact List.Subset.trans (List.subset_append_left _ _) (ih _ _)

/-- **The budget bounds the search.** -/
theorem length_visits_lt (next : α → List α) (r : Nat) (l seen : List α) :
    (visits next r l seen).length < seen.length + 2 ^ r := by
  induction r generalizing l seen with
  | zero => exact Nat.lt_succ_self _
  | succ r ih =>
    have htwice : 2 ^ (r + 1) = 2 ^ r + 2 ^ r := by ring
    have hpos : 0 < 2 ^ r := Nat.two_pow_pos r
    cases l with
    | nil =>
      show seen.length < _
      omega
    | cons a rest =>
      have hrest := ih rest (if a ∈ seen then seen else visits next r (next a) (seen ++ [a]))
      show (visits next r rest (if a ∈ seen then seen else visits next r (next a)
        (seen ++ [a]))).length < _
      split at hrest
      · rw [if_pos ‹_›]
        omega
      · rw [if_neg ‹_›]
        have hbelow := ih (next a) (seen ++ [a])
        rw [List.length_append, List.length_singleton] at hbelow
        omega

/-- **Nothing else is marked.** -/
theorem free_of_mem_visits (h : b ∈ visits next r l seen) :
    b ∈ seen ∨ ∃ a ∈ l, Free next seen a b := by
  induction r generalizing l seen with
  | zero => exact .inl h
  | succ r ih =>
    cases l with
    | nil => exact .inl h
    | cons a rest =>
      rcases ih h with hmarked | ⟨c, hc, hfree⟩
      · by_cases ha : a ∈ seen
        · rw [if_pos ha] at hmarked
          exact .inl hmarked
        · rw [if_neg ha] at hmarked
          rcases ih hmarked with hold | ⟨c, hc, hfree⟩
          · rcases List.mem_append.mp hold with hold | hnew
            · exact .inl hold
            · rw [List.mem_singleton.mp hnew]
              exact .inr ⟨a, List.mem_cons_self, .here ha⟩
          · exact .inr ⟨a, List.mem_cons_self,
              .behind ha hc (hfree.weaken (List.subset_append_left _ _))⟩
      · refine .inr ⟨c, List.mem_cons_of_mem _ hc, hfree.weaken ?_⟩
        split
        · exact List.Subset.refl _
        · exact List.Subset.trans (List.subset_append_left _ _) (subset_visits next r _ _)

/-! ## A budget that suffices -/

/-- The edges that leave unmarked nodes of a set. -/
def edges (next : α → List α) (U : Finset α) (seen : List α) : Nat :=
  ∑ a ∈ U.filter (· ∉ seen), (next a).length

/-- More marks leave fewer edges. -/
theorem edges_le (next : α → List α) (U : Finset α) (hsub : seen ⊆ seen') :
    edges next U seen' ≤ edges next U seen := by
  refine Finset.sum_le_sum_of_subset fun a ha => ?_
  rw [Finset.mem_filter] at ha ⊢
  exact ⟨ha.1, fun h => ha.2 (hsub h)⟩

/-- A mark takes the edges of its node away. -/
theorem edges_mark (next : α → List α) {U : Finset α} (hU : a ∈ U) (ha : a ∉ seen) :
    (next a).length + edges next U (seen ++ [a]) = edges next U seen := by
  have hsplit : U.filter (· ∉ seen) = insert a (U.filter (· ∉ seen ++ [a])) := by
    ext b
    by_cases hb : b = a
    · subst hb
      simp [hU, ha]
    · simp [hb]
  rw [edges, edges, hsplit, Finset.sum_insert (by simp)]

/-- All that was asked for is marked, and with a new mark its neighbours. -/
theorem visits_closed {U : Finset α} (hU : ∀ a ∈ U, ∀ b ∈ next a, b ∈ U) (hl : ∀ a ∈ l, a ∈ U)
    (hbudget : l.length + edges next U seen ≤ r) :
    l ⊆ visits next r l seen ∧
      ∀ b ∈ visits next r l seen, b ∉ seen → next b ⊆ visits next r l seen := by
  induction r generalizing l seen with
  | zero =>
    obtain rfl : l = [] := List.eq_nil_of_length_eq_zero (by omega)
    exact ⟨List.nil_subset _, fun b hb hnot => absurd hb hnot⟩
  | succ r ih =>
    cases l with
    | nil => exact ⟨List.nil_subset _, fun b hb hnot => absurd hb hnot⟩
    | cons a rest =>
      rw [List.length_cons] at hbudget
      set after := if a ∈ seen then seen else visits next r (next a) (seen ++ [a]) with hafter
      -- after the first node and what lies below it
      have hbelow : seen ⊆ after ∧ a ∈ after ∧ ∀ b ∈ after, b ∉ seen → next b ⊆ after := by
        by_cases ha : a ∈ seen
        · rw [hafter, if_pos ha]
          exact ⟨List.Subset.refl _, ha, fun b hb hnot => absurd hb hnot⟩
        · rw [hafter, if_neg ha]
          have haU : a ∈ U := hl a List.mem_cons_self
          have hedges := edges_mark next haU ha
          obtain ⟨hnext, hclosed⟩ := ih (hU a haU) (show (next a).length +
            edges next U (seen ++ [a]) ≤ r by
            omega)
          have hmarks := subset_visits next r (next a) (seen ++ [a])
          refine ⟨List.Subset.trans (List.subset_append_left _ _) hmarks,
            hmarks (List.mem_append_right _ (List.mem_singleton_self a)), fun b hb hnot => ?_⟩
          by_cases hba : b = a
          · rw [hba]
            exact hnext
          · exact hclosed b hb (by simp [hnot, hba])
      obtain ⟨hseen, ha, hclosed⟩ := hbelow
      have hfewer := edges_le next U hseen
      have hlater : rest.length + edges next U after ≤ r := by omega
      obtain ⟨hrest, hclosed'⟩ := ih (fun b hb => hl b (List.mem_cons_of_mem _ hb)) hlater
      have hmarks := subset_visits next r rest after
      refine ⟨List.cons_subset.mpr ⟨hmarks ha, hrest⟩, fun b hb hnot => ?_⟩
      by_cases hbafter : b ∈ after
      · exact List.Subset.trans (hclosed b hbafter hnot) hmarks
      · exact hclosed' b hb hbafter

/-- **The search is complete**: it marks what a way through unmarked nodes leads to. -/
theorem mem_visits_iff {U : Finset α} (hU : ∀ a ∈ U, ∀ b ∈ next a, b ∈ U) (hl : ∀ a ∈ l, a ∈ U)
    (hbudget : l.length + edges next U seen ≤ r) :
    b ∈ visits next r l seen ↔ b ∈ seen ∨ ∃ a ∈ l, Free next seen a b := by
  obtain ⟨hall, hclosed⟩ := visits_closed hU hl hbudget
  refine ⟨free_of_mem_visits, ?_⟩
  rintro (hold | ⟨a, ha, hfree⟩)
  · exact subset_visits next r l seen hold
  · induction hfree with
    | here => exact hall ha
    | edge hfree hc _ ih => exact hclosed _ ih hfree.not_mem hc

/-- The search from one node. -/
def search (next : α → List α) (r : Nat) (a : α) (seen : List α) : List α :=
  if a ∈ seen then seen else visits next r (next a) (seen ++ [a])

omit [DecidableEq α] in
theorem Free.start (h : Free next seen a b) : a ∉ seen := by
  induction h with
  | here ha => exact ha
  | edge _ _ _ ih => exact ih

/-- A way from a node ends there, or goes on from a neighbour and does not come back. -/
theorem free_iff (ha : a ∉ seen) :
    Free next seen a c ↔ c = a ∨ ∃ b ∈ next a, Free next (seen ++ [a]) b c := by
  constructor
  · intro h
    induction h with
    | here => exact .inl rfl
    | @edge b c _ hc hseen ih =>
      by_cases hca : c = a
      · exact .inl hca
      · have hfresh : c ∉ seen ++ [a] := by simp [hseen, hca]
        rcases ih with rfl | ⟨d, hd, hfree⟩
        · exact .inr ⟨c, hc, .here hfresh⟩
        · exact .inr ⟨d, hd, .edge hfree hc hfresh⟩
  · rintro (rfl | ⟨b, hb, hfree⟩)
    · exact .here ha
    · exact .behind ha hb (hfree.weaken (List.subset_append_left _ _))

/-- **A search marks what a way through unmarked nodes leads to**, and nothing else. -/
theorem mem_search_iff {U : Finset α} (hU : ∀ a ∈ U, ∀ b ∈ next a, b ∈ U) (ha : a ∈ U)
    (hbudget : edges next U seen ≤ r) :
    b ∈ search next r a seen ↔ b ∈ seen ∨ Free next seen a b := by
  rw [search]
  split
  · exact ⟨.inl, fun h => h.elim id fun hfree => absurd ‹_› hfree.start⟩
  · have hedges := edges_mark next ha ‹_›
    rw [mem_visits_iff hU (hU a ha) (by omega), free_iff ‹_›, List.mem_append,
      List.mem_singleton, or_assoc]

end BudgetSearch

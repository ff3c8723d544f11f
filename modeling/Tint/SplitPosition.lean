import Tint.Portion
import Mathlib.Algebra.Order.Field.Rat
import Mathlib.Data.List.GetD
import Mathlib.Data.NNRat.Defs
import Mathlib.Tactic.Linarith

/-!
# The position of a divider

The panes of a split view are columns with star sizes, which share out what the dividers
between them, of fixed widths, leave of the grid.  `setPosition` goes over the columns and
assigns each pane its percentage of the whole as its star size, except for the pane before
the divider and the pane behind it.  A column takes no negative size: the assignment throws, and
the columns that have been gone over keep what they were assigned.

* `setPosition_iff` -- the divider is moved and nothing else, or nothing at all where the
  position is not between the neighbouring dividers, exactly when the position is between
  them or the sizes assigned before the exception do not change the layout;
* `unreachable_moves` -- a position out of reach changes the first pane.
-/

namespace SplitPosition

open Portion

/-! ## The grid -/

/-- `System.Windows.GridLength`, in pixels or with `GridUnitType.Star` -/
inductive GridLength
  | pixel (width : NNRat)
  | star (weight : NNRat)

/-- The pixels that a definition takes. -/
def GridLength.width : GridLength → ℚ
  | pixel width => width
  | star _ => 0

/-- Its weight among the rest. -/
def GridLength.weight : GridLength → ℚ
  | pixel _ => 0
  | star weight => weight

/-- It is a pane. -/
def GridLength.isStar : GridLength → Bool
  | pixel _ => false
  | star _ => true

/-- What is thrown. -/
inductive Exception
  | assertion
  | argument
  deriving DecidableEq

/-- The native grid: its width, or its height, and its definitions along it. -/
structure Grid where
  extent : NNRat
  definitions : List GridLength

namespace Grid

/-- The widths of the definitions. -/
def widths (g : Grid) : List ℚ := g.definitions.map GridLength.width

/-- Their weights. -/
def weights (g : Grid) : List ℚ := g.definitions.map GridLength.weight

/-- What is left for the panes. -/
def room (g : Grid) : ℚ := max 0 (g.extent - g.widths.sum)

/-- `ActualWidth` or `ActualHeight`, as `UpdateLayout` computes it -/
def actual (g : Grid) : GridLength → ℚ
  | .pixel width => width
  | .star weight => g.room * (weight / g.weights.sum)

/-- `totalSize` -/
def total (g : Grid) : ℚ := (g.definitions.map g.actual).sum

/-- The fraction of the total that a column takes. -/
def share (g : Grid) (d : GridLength) : ℚ := g.actual d / g.total

/-- The fractions of all columns. -/
def shares (g : Grid) : List ℚ := g.definitions.map g.share

/-- The definitions have been assigned. -/
def assigned (g : Grid) (definitions : List GridLength) : Grid := { g with definitions }

/-- The number of panes. -/
def panes (g : Grid) : Nat := (g.definitions.length + 1) / 2

end Grid

/-- The grid of a split view: a pane, then a divider and a pane each time. -/
structure Split extends Grid where
  alternates : ∀ i d, definitions[i]? = some d → (d.isStar = true ↔ i % 2 = 0)
  odd : definitions = [] ∨ definitions.length % 2 = 1

/-- `new GridLength(value, GridUnitType.Star)` as the size of a column, which takes no negative
one. -/
def starSize (value : ℚ) : Option GridLength :=
  if 0 ≤ value then some (.star value.toNNRat) else none

/-! ## `setPosition` -/

/-- The loop over the columns from `i` on, where `index` is that of the divider. -/
def assign (g : Grid) (position : ℚ) (index : Int) :
    Nat → ℚ → ℚ → List GridLength → List GridLength × Option Exception
  | _, _, _, [] => ([], none)
  | i, runningPercent, diff, d :: defs =>
      let percent := g.share d
      if i % 2 = 0 then
        let (percent, diff) :=
          if (i : Int) = index - 1 then
            (position - runningPercent, position - (percent + runningPercent))
          else if (i : Int) = index + 1 then (percent - diff, diff)
          else (percent, diff)
        match starSize percent with
        | none => (d :: defs, some .argument)
        | some unit =>
            let (defs, e) := assign g position index (i + 1) (runningPercent + percent) diff defs
            (unit :: defs, e)
      else
        let (defs, e) := assign g position index (i + 1) (runningPercent + percent) diff defs
        (d :: defs, e)

/-- `setPosition` -/
def setPosition (g : Grid) (position : ℚ) (index : Int) : Grid × Option Exception :=
  if position > 0 ∧ position < 1 then
    let position := if position > 1 then 1 else position
    let position := if position < 0 then 0 else position
    let index := index * 2 + 1
    if index ≥ g.definitions.length then (g, none)
    else
      let (definitions, e) := assign g position index 0 0 0 g.definitions
      (g.assigned definitions, e)
  else (g, some .assertion)

/-! ## The property and the condition -/

/-- The fraction that all up to the divider before pane `k` takes. -/
def before (g : Grid) (k : Nat) : ℚ := (g.shares.take (2 * k)).sum

/-- The fraction that a pane takes. -/
def pane (g : Grid) (k : Nat) : ℚ := g.shares.getD (2 * k) 0

/-- The position is between the neighbouring dividers. -/
def Reachable (g : Grid) (position : ℚ) (k : Nat) : Prop :=
  before g k ≤ position ∧ position ≤ before g k + pane g k + pane g (k + 1)

/-- The divider behind pane `k` is at the position, and nothing else has moved. -/
structure Moved (g g' : Grid) (position : ℚ) (k : Nat) : Prop where
  position : (g'.shares.take (2 * k + 1)).sum = position
  others : ∀ i, i ≠ 2 * k → i ≠ 2 * (k + 1) → g'.shares[i]? = g.shares[i]?
  sum : g'.shares.sum = g.shares.sum
  nonneg : ∀ x ∈ g'.shares, 0 ≤ x

/-- **Setting a position.**  The divider moves there if it can; otherwise nothing changes. -/
def SetsPosition (g : Grid) (position : ℚ) (index : Int) : Prop :=
  let (g', e) := setPosition g position index
  (∀ k : Nat, index = k → k + 1 < g.panes →
    (Reachable g position k → e = none ∧ Moved g g' position k) ∧
      (¬ Reachable g position k → g'.shares = g.shares)) ∧
    ((∀ k : Nat, index = k → g.panes ≤ k + 1) → g'.shares = g.shares)

/-- The columns before pane `k` have no weight, or those from there on have none, or the
weights are the shares already. -/
def StaysBelow (g : Grid) (k : Nat) : Prop :=
  (∀ w ∈ g.weights.take (2 * k), w = 0) ∨ (∀ w ∈ g.weights.drop (2 * k), w = 0) ∨
    g.room / g.weights.sum / g.total = 1

/-- The columns before pane `k` have no weight but the pane has, and those behind it have none
or the pane has the weight that is assigned. -/
def StaysAbove (g : Grid) (position : ℚ) (k : Nat) : Prop :=
  0 < g.weights.getD (2 * k) 0 ∧ (∀ w ∈ g.weights.take (2 * k), w = 0) ∧
    ((∀ w ∈ g.weights.drop (2 * k + 1), w = 0) ∨
      position - before g k = g.weights.getD (2 * k) 0)

/-- **The condition.**  The position can be reached, or the panes have no room, or what is
assigned before the exception leaves the layout as it is. -/
def ReachableOrStays (g : Grid) (position : ℚ) (index : Int) : Prop :=
  ∀ k : Nat, index = k → k + 1 < g.panes →
    Reachable g position k ∨ g.room = 0 ∨
      (position < before g k ∧ StaysBelow g k) ∨
        (before g k + pane g k + pane g (k + 1) < position ∧ StaysAbove g position k)

/-! ## The layout -/

section Layout

variable {g : Grid}

/-- A divider has its width. -/
@[simp] theorem GridLength.width_pixel (width : NNRat) : (pixel width).width = width := rfl

/-- A pane has no width of its own. -/
@[simp] theorem GridLength.width_star (weight : NNRat) : (star weight).width = 0 := rfl

/-- A divider has no weight. -/
@[simp] theorem GridLength.weight_pixel (width : NNRat) : (pixel width).weight = 0 := rfl

/-- A pane has its own weight. -/
@[simp] theorem GridLength.weight_star (weight : NNRat) : (star weight).weight = weight := rfl

/-- No width is negative. -/
theorem GridLength.width_nonneg (d : GridLength) : 0 ≤ d.width := by
  cases d with
  | pixel width => exact width.coe_nonneg
  | star weight => exact le_refl 0

/-- No weight is negative. -/
theorem GridLength.weight_nonneg (d : GridLength) : 0 ≤ d.weight := by
  cases d with
  | pixel width => exact le_refl 0
  | star weight => exact weight.coe_nonneg

/-- No weight of a grid is negative. -/
theorem weights_nonneg (g : Grid) : ∀ w ∈ g.weights, 0 ≤ w := by
  intro w hw
  obtain ⟨d, -, rfl⟩ := List.mem_map.mp hw
  exact d.weight_nonneg

/-- If they add up to nothing, all are zero. -/
theorem weights_eq_zero {g : Grid} (hzero : g.weights.sum = 0) : ∀ w ∈ g.weights, w = 0 :=
  fun _ hw => List.all_zero_of_le_zero_le_of_sum_eq_zero (weights_nonneg g) hzero hw

/-- The room for the panes is not negative. -/
theorem room_nonneg (g : Grid) : 0 ≤ g.room := le_max_left _ _

/-- A size is a width and a portion. -/
theorem actual_eq (g : Grid) (d : GridLength) :
    g.actual d = d.width + g.room * (d.weight / g.weights.sum) := by
  cases d with
  | pixel width => simp [Grid.actual]
  | star weight => simp [Grid.actual]

/-- What a definition gets of the room is not negative. -/
theorem actual_nonneg (g : Grid) (d : GridLength) : 0 ≤ g.actual d := by
  rw [actual_eq]
  have hportion := div_nonneg d.weight_nonneg (List.sum_nonneg (weights_nonneg g))
  exact add_nonneg d.width_nonneg (mul_nonneg (room_nonneg g) hportion)

/-- The whole is the widths and the portions. -/
theorem total_eq (g : Grid) : g.total = g.widths.sum + (portions g.room g.weights).sum := by
  have hportions : portions g.room g.weights =
      g.definitions.map fun d => g.room * (d.weight / g.weights.sum) := by
    rw [portions, Grid.weights, List.map_map]
    rfl
  rw [hportions, Grid.widths, ← List.sum_map_add, Grid.total]
  exact congrArg List.sum (List.map_congr_left fun d _ => actual_eq g d)

/-- What all definitions show is not negative. -/
theorem total_nonneg (g : Grid) : 0 ≤ g.total := by
  apply List.sum_nonneg
  intro x hx
  obtain ⟨d, -, rfl⟩ := List.mem_map.mp hx
  exact actual_nonneg g d

/-- A share of that is not negative. -/
theorem share_nonneg (g : Grid) (d : GridLength) : 0 ≤ g.share d :=
  div_nonneg (actual_nonneg g d) (total_nonneg g)

/-- The weight that a pane's share makes: what it has of the room, as a part of the whole. -/
def scale (g : Grid) : ℚ := g.room / g.weights.sum / g.total

/-- A share is a width and a weight over the total, with one scale for all weights. -/
theorem share_eq (g : Grid) (d : GridLength) :
    g.share d = d.width / g.total + scale g * d.weight := by
  rw [Grid.share, actual_eq, scale]
  ring

/-- The scale is not negative. -/
theorem scale_nonneg (g : Grid) : 0 ≤ scale g :=
  div_nonneg (div_nonneg (room_nonneg g) (List.sum_nonneg (weights_nonneg g))) (total_nonneg g)

/-- **A new layout.**  Weights that add up to what the panes have of the whole become their
shares. -/
theorem share_of_sum (htotal : 0 < g.total) {definitions : List GridLength}
    (hwidths : definitions.map GridLength.width = g.widths)
    (hsum : (definitions.map GridLength.weight).sum = scale g * g.weights.sum) {d : GridLength}
    (hd : d ∈ definitions) :
    (g.assigned definitions).share d = d.width / g.total + d.weight := by
  generalize hg' : g.assigned definitions = g'
  have hextent : g'.extent = g.extent := hg' ▸ rfl
  replace hwidths : g'.widths = g.widths := hg' ▸ hwidths
  replace hsum : g'.weights.sum = scale g * g.weights.sum := hg' ▸ hsum
  replace hd : d ∈ g'.definitions := hg' ▸ hd
  have hroom : g'.room = g.room := by rw [Grid.room, hextent, hwidths, Grid.room]
  -- the unit of the new weights is the whole
  have hunit : g'.weights.sum ≠ 0 → g.total * g'.weights.sum = g'.room := by
    intro hne
    have hweights : g.weights.sum ≠ 0 := by
      intro hzero
      exact hne (by rw [hsum, hzero, mul_zero])
    rw [hsum, hroom, scale]
    field_simp
  have hportions := portions_of_sum_mul (weights_nonneg g') hunit
  have hshared : g.total * (scale g * g.weights.sum) = (portions g.room g.weights).sum := by
    by_cases hzero : g.weights.sum = 0
    · rw [hzero, mul_zero, mul_zero, sum_portions_of_sum_eq_zero _ hzero]
    · rw [sum_portions _ hzero, scale]
      field_simp
  have htotal' : g'.total = g.total := by
    rw [total_eq g', hportions, sum_map_mul, hsum, hshared, hwidths, ← total_eq g]
  have hportion : g'.room * (d.weight / g'.weights.sum) = g.total * d.weight := by
    have hmem := List.map_inj_left.mp hportions d.weight (List.mem_map_of_mem hd)
    exact hmem
  rw [Grid.share, actual_eq, hportion, htotal', add_div, mul_div_cancel_left₀ _ htotal.ne']

/-- The shares are the widths and the portions, over the total. -/
theorem shares_eq (g : Grid) : g.shares =
    List.zipWith (fun width portion => (width + portion) / g.total) g.widths
      (portions g.room g.weights) := by
  have hportions : portions g.room g.weights =
      g.definitions.map fun d => g.room * (d.weight / g.weights.sum) := by
    rw [portions, Grid.weights, List.map_map]
    rfl
  rw [hportions, Grid.widths, List.zipWith_map, List.zipWith_self, Grid.shares]
  apply List.map_congr_left
  intro d _
  rw [Grid.share, actual_eq]

/-- Where there is room, some pane has a share exactly when there are weights. -/
theorem weights_sum_ne_zero_iff (hroom : g.room ≠ 0) :
    g.weights.sum ≠ 0 ↔ ∃ p ∈ g.widths.zip g.shares, p.1 = 0 ∧ 0 < p.2 := by
  have hzip : g.widths.zip g.shares = g.definitions.map fun d => (d.width, g.share d) := by
    rw [Grid.widths, Grid.shares, List.zip_map']
  rw [hzip]
  constructor
  · intro hne
    have htotal : 0 < g.total := by
      have hwidths : 0 ≤ g.widths.sum := by
        apply List.sum_nonneg
        intro w hw
        obtain ⟨d, -, rfl⟩ := List.mem_map.mp hw
        exact d.width_nonneg
      rw [total_eq, sum_portions _ hne]
      have := lt_of_le_of_ne (room_nonneg g) (Ne.symm hroom)
      linarith
    -- some pane has a weight
    have hexists : ∃ d ∈ g.definitions, d.weight ≠ 0 := by
      by_contra! hnone
      refine hne (List.sum_eq_zero fun w hw => ?_)
      obtain ⟨d, hd, rfl⟩ := List.mem_map.mp hw
      exact hnone d hd
    obtain ⟨d, hd, hweight⟩ := hexists
    refine ⟨(d.width, g.share d), List.mem_map_of_mem hd, ?_, ?_⟩
    · cases d with
      | pixel width => exact absurd rfl hweight
      | star weight => rfl
    · have hscale : scale g ≠ 0 := div_ne_zero (div_ne_zero hroom hne) htotal.ne'
      have hpos : 0 < scale g * d.weight :=
        mul_pos (lt_of_le_of_ne (scale_nonneg g) hscale.symm)
          (lt_of_le_of_ne d.weight_nonneg hweight.symm)
      have hwidth := div_nonneg d.width_nonneg (total_nonneg g)
      rw [share_eq]
      linarith
  · intro hexists hzero
    obtain ⟨p, hp, hwidth, hshare⟩ := hexists
    obtain ⟨d, -, rfl⟩ := List.mem_map.mp hp
    have hnone : g.share d = 0 := by
      have hwidth' : d.width = 0 := hwidth
      rw [share_eq, scale, hzero, div_zero, zero_div, zero_mul, add_zero, hwidth', zero_div]
    exact hshare.ne' hnone

/-- **The same layout.**  With the same dividers the shares are the same exactly when there is
no room or the weights are proportional. -/
theorem shares_eq_iff (htotal : 0 < g.total) {definitions : List GridLength}
    (hwidths : definitions.map GridLength.width = g.widths) :
    (g.assigned definitions).shares = g.shares ↔
      g.room = 0 ∨ Proportional g.weights (definitions.map GridLength.weight) := by
  have hweights : definitions.map GridLength.weight = (g.assigned definitions).weights := rfl
  rw [hweights]
  generalize hg' : g.assigned definitions = g'
  have hextent : g'.extent = g.extent := hg' ▸ rfl
  replace hwidths : g'.widths = g.widths := hg' ▸ hwidths
  have hroom : g'.room = g.room := by rw [Grid.room, hextent, hwidths, Grid.room]
  have hlength : g'.weights.length = g.weights.length := by
    have h := congrArg List.length hwidths
    simpa [Grid.widths, Grid.weights] using h
  -- the same portions, the same shares
  have hsame : portions g'.room g'.weights = portions g.room g.weights → g'.shares = g.shares := by
    intro h
    have htotals : g'.total = g.total := by rw [total_eq, h, hwidths, ← total_eq]
    rw [shares_eq, h, hwidths, htotals, ← shares_eq]
  constructor
  · intro h
    by_cases hnone : g.room = 0
    · exact .inl hnone
    · right
      have hne : g'.weights.sum ≠ 0 ↔ g.weights.sum ≠ 0 := by
        rw [weights_sum_ne_zero_iff (hroom ▸ hnone), weights_sum_ne_zero_iff hnone, hwidths, h]
      by_cases hzero : g.weights.sum = 0
      · -- no weights at all
        have hall := weights_eq_zero hzero
        have hall' := weights_eq_zero (not_not.mp fun hpos => hne.mp hpos hzero)
        refine ⟨1, one_pos, ?_⟩
        rw [List.eq_replicate_of_mem hall, List.eq_replicate_of_mem hall', hlength]
        simp
      · have hpos := lt_of_le_of_ne (List.sum_nonneg (weights_nonneg g)) (Ne.symm hzero)
        have hpos' := lt_of_le_of_ne (List.sum_nonneg (weights_nonneg g')) (Ne.symm (hne.mpr hzero))
        have htotals : g'.total = g.total := by
          rw [total_eq, total_eq, hroom, hwidths, sum_portions _ hpos.ne', sum_portions _ hpos'.ne']
        refine proportional_of_portions_eq hnone hpos hpos' ?_
        rw [shares_eq, shares_eq, hwidths, htotals, hroom] at h
        have hlengths : (portions g.room g'.weights).length =
            (portions g.room g.weights).length := by
          rw [length_portions, length_portions, hlength]
        refine List.ext_getElem hlengths fun i hi hi' => ?_
        have hwidth : i < g.widths.length := by
          rw [length_portions, Grid.weights, List.length_map] at hi'
          rwa [Grid.widths, List.length_map]
        have helem := congrArg (·[i]?) h
        simp only [List.getElem?_zipWith, List.getElem?_eq_getElem hi, List.getElem?_eq_getElem hi',
          List.getElem?_eq_getElem hwidth, Option.some.injEq] at helem
        exact add_left_cancel ((div_left_inj' htotal.ne').mp helem)
  · intro h
    rcases h with hnone | hproportional
    · refine hsame ?_
      rw [hroom, hnone, portions_eq, portions_eq, zero_div, zero_div]
      refine List.ext_getElem (by simp [hlength]) fun i _ _ => ?_
      simp
    · exact hsame (by rw [hroom, hproportional.portions_eq])

end Layout

/-! ## The loop -/

section Loop

variable {g : Grid} {position : ℚ} {index : Int}

/-- A pane gets its share for its weight. -/
def reassign (g : Grid) : GridLength → GridLength
  | .pixel width => .pixel width
  | .star weight => .star (g.share (.star weight)).toNNRat

/-- A reassigned pane keeps its width. -/
theorem width_reassign (d : GridLength) : (reassign g d).width = d.width := by
  cases d <;> rfl

/-- The weight of a reassigned pane is scaled. -/
theorem weight_reassign (d : GridLength) : (reassign g d).weight = scale g * d.weight := by
  cases d with
  | pixel width => simp [reassign]
  | star weight =>
      rw [reassign, GridLength.weight_star, Rat.coe_toNNRat _ (share_nonneg g _), share_eq,
        GridLength.width_star, zero_div, zero_add]

/-- A weight that is not negative can be set. -/
theorem starSize_of_nonneg {value : ℚ} (h : 0 ≤ value) :
    starSize value = some (.star value.toNNRat) := if_pos h

/-- A negative one throws. -/
theorem starSize_of_neg {value : ℚ} (h : value < 0) : starSize value = none := if_neg (not_le.mpr h)

/-- Panes and dividers take turns from column `i` on. -/
def Alternates (i : Nat) (l : List GridLength) : Prop :=
  ∀ j d, l[j]? = some d → (d.isStar = true ↔ (i + j) % 2 = 0)

/-- The first definition is a pane at an even place. -/
theorem Alternates.head {i : Nat} {d : GridLength} {l : List GridLength}
    (h : Alternates i (d :: l)) : d.isStar = true ↔ i % 2 = 0 := h 0 d rfl

/-- The rest alternates from the next place on. -/
theorem Alternates.tail {i : Nat} {d : GridLength} {l : List GridLength}
    (h : Alternates i (d :: l)) : Alternates (i + 1) l := by
  intro j e hj
  have hnext := h (j + 1) e hj
  rwa [Nat.add_comm j, ← Nat.add_assoc] at hnext

/-- Columns that are not beside the divider: the panes among them get their shares. -/
theorem assign_plain {i : Nat} {running diff : ℚ} {l : List GridLength} (rest : List GridLength)
    (halt : Alternates i l)
    (hplain : ∀ j < l.length, ((i + j : Nat) : Int) ≠ index - 1 ∧
      (((i + j : Nat) : Int) = index + 1 → diff = 0)) :
    assign g position index i running diff (l ++ rest) =
      (l.map (reassign g) ++
          (assign g position index (i + l.length) (running + (l.map g.share).sum) diff rest).1,
        (assign g position index (i + l.length) (running + (l.map g.share).sum) diff rest).2) := by
  induction l generalizing i running with
  | nil => simp
  | cons d l ih =>
      have hhead := halt.head
      obtain ⟨hne, hdiff⟩ := hplain 0 (by simp)
      rw [Nat.add_zero] at hne hdiff
      have hrest := @ih (i + 1) (running + g.share d) halt.tail fun j hj => by
        have hnext := hplain (j + 1) (by simpa using hj)
        rwa [Nat.add_comm j, ← Nat.add_assoc] at hnext
      have hi : i + 1 + l.length = i + (d :: l).length := by
        rw [List.length_cons]
        omega
      have hsum : running + g.share d + (l.map g.share).sum =
          running + ((d :: l).map g.share).sum := by
        rw [List.map_cons, List.sum_cons, add_assoc]
      rw [hi, hsum] at hrest
      cases d with
      | pixel width =>
          have hodd : ¬ i % 2 = 0 := fun heven => by cases hhead.mpr heven
          rw [List.cons_append, assign, if_neg hodd]
          simp only [hrest]
          rfl
      | star weight =>
          have heven : i % 2 = 0 := hhead.mp rfl
          -- the difference is only taken off beside the divider
          have hpercent : (if (i : Int) = index + 1 then (g.share (.star weight) - diff, diff)
              else (g.share (.star weight), diff)) = (g.share (.star weight), diff) := by
            split
            · next h => rw [hdiff h, sub_zero]
            · rfl
          rw [List.cons_append, assign, if_pos heven]
          simp only [if_neg hne, hpercent, starSize_of_nonneg (share_nonneg g _), hrest]
          rfl

/-- The pane before the divider. -/
theorem assign_before {i : Nat} {running diff : ℚ} {weight : NNRat} (rest : List GridLength)
    (hi : i % 2 = 0) (hindex : (i : Int) = index - 1) :
    assign g position index i running diff (.star weight :: rest) =
      if 0 ≤ position - running then
        (.star (position - running).toNNRat ::
            (assign g position index (i + 1) position
              (position - (g.share (.star weight) + running)) rest).1,
          (assign g position index (i + 1) position
            (position - (g.share (.star weight) + running)) rest).2)
      else (.star weight :: rest, some .argument) := by
  rw [assign, if_pos hi]
  by_cases h : 0 ≤ position - running
  · simp only [if_pos hindex, starSize_of_nonneg h, add_sub_cancel, if_pos h]
  · simp only [if_pos hindex, starSize_of_neg (not_le.mp h), if_neg h]

/-- The divider. -/
theorem assign_divider {i : Nat} {running diff : ℚ} {width : NNRat} (rest : List GridLength)
    (hi : i % 2 ≠ 0) :
    assign g position index i running diff (.pixel width :: rest) =
      (.pixel width ::
          (assign g position index (i + 1) (running + g.share (.pixel width)) diff rest).1,
        (assign g position index (i + 1) (running + g.share (.pixel width)) diff rest).2) := by
  rw [assign, if_neg hi]

/-- The pane behind it. -/
theorem assign_behind {i : Nat} {running diff : ℚ} {weight : NNRat} (rest : List GridLength)
    (hi : i % 2 = 0) (hindex : (i : Int) = index + 1) :
    assign g position index i running diff (.star weight :: rest) =
      if 0 ≤ g.share (.star weight) - diff then
        (.star (g.share (.star weight) - diff).toNNRat ::
            (assign g position index (i + 1) (running + (g.share (.star weight) - diff)) diff
              rest).1,
          (assign g position index (i + 1) (running + (g.share (.star weight) - diff)) diff rest).2)
      else (.star weight :: rest, some .argument) := by
  have hne : (i : Int) ≠ index - 1 := by omega
  rw [assign, if_pos hi]
  by_cases h : 0 ≤ g.share (.star weight) - diff
  · simp only [if_neg hne, if_pos hindex, starSize_of_nonneg h, if_pos h]
  · simp only [if_neg hne, if_pos hindex, starSize_of_neg (not_le.mp h), if_neg h]

/-- The front of definitions that alternate. -/
theorem Alternates.left {i : Nat} {l l' : List GridLength} (h : Alternates i (l ++ l')) :
    Alternates i l := by
  intro j d hj
  have hlt := (List.getElem?_eq_some_iff.mp hj).1
  exact h j d ((List.getElem?_append_left hlt).trans hj)

/-- The back of definitions that alternate, from its own place on. -/
theorem Alternates.right {i : Nat} {l l' : List GridLength} (h : Alternates i (l ++ l')) :
    Alternates (i + l.length) l' := by
  intro j d hj
  have hall := h (l.length + j) d (by rw [List.getElem?_append_right (by omega)]; simpa using hj)
  rwa [← Nat.add_assoc] at hall

/-- The columns before pane `k`, the panes on both sides of the divider behind it, that
divider, and the columns after these. -/
structure At (g : Grid) (k : Nat) (front : List GridLength) (a width b : NNRat)
    (back : List GridLength) : Prop where
  definitions : g.definitions = front ++ .star a :: .pixel width :: .star b :: back
  length : front.length = 2 * k
  alternates : Alternates 0 g.definitions

/-- The definitions around a divider. -/
theorem exists_at (s : Split) {k : Nat} (hk : k + 1 < s.panes) :
    ∃ front a width b back, At s.toGrid k front a width b back := by
  have hlength : 2 * k + 2 < s.definitions.length := by
    unfold Grid.panes at hk
    omega
  have halt : Alternates 0 s.definitions := fun j d hj => by
    rw [Nat.zero_add]
    exact s.alternates j d hj
  have helem : ∀ i (hi : i < s.definitions.length),
      s.definitions[i].isStar = true ↔ i % 2 = 0 := fun i hi =>
    s.alternates i _ (List.getElem?_eq_getElem hi)
  have hdrop : s.definitions.drop (2 * k) = s.definitions[2 * k] :: s.definitions[2 * k + 1] ::
      s.definitions[2 * k + 2] :: s.definitions.drop (2 * k + 3) := by
    rw [List.drop_eq_getElem_cons (by omega), List.drop_eq_getElem_cons (by omega),
      List.drop_eq_getElem_cons (by omega)]
  cases ha : s.definitions[2 * k] with
  | pixel width =>
      have hstar := (helem (2 * k) (by omega)).mpr (by omega)
      rw [ha] at hstar
      cases hstar
  | star a =>
      cases hw : s.definitions[2 * k + 1] with
      | star weight =>
          have hodd := (helem (2 * k + 1) (by omega)).mp (by rw [hw]; rfl)
          omega
      | pixel width =>
          cases hb : s.definitions[2 * k + 2] with
          | pixel width' =>
              have hstar := (helem (2 * k + 2) (by omega)).mpr (by omega)
              rw [hb] at hstar
              cases hstar
          | star b =>
              refine ⟨s.definitions.take (2 * k), a, width, b, s.definitions.drop (2 * k + 3), ?_,
                by rw [List.length_take]; omega, halt⟩
              rw [← ha, ← hw, ← hb, ← hdrop, List.take_append_drop]

variable {k : Nat} {front back : List GridLength} {a width b : NNRat}

/-- **The loop.**  It throws at the first of the two panes if the position is too small, at the
second if it is too large. -/
theorem assign_at (h : At g k front a width b back) (hindex : index = k * 2 + 1) :
    assign g position index 0 0 0 g.definitions =
      let start := (front.map g.share).sum
      let stop := start + g.share (.star a) + g.share (.star b)
      if position < start then
        (front.map (reassign g) ++ .star a :: .pixel width :: .star b :: back, some .argument)
      else if stop < position then
        (front.map (reassign g) ++ .star (position - start).toNNRat :: .pixel width ::
          .star b :: back, some .argument)
      else
        (front.map (reassign g) ++ .star (position - start).toNNRat :: .pixel width ::
          .star (stop - position).toNNRat :: back.map (reassign g), none) := by
  have halt := h.alternates
  rw [h.definitions] at halt
  have hback : Alternates (2 * k + 3) back := by
    have hright := halt.right.tail.tail.tail
    rwa [h.length, Nat.zero_add] at hright
  rw [h.definitions, assign_plain _ halt.left (by have := h.length; omega), h.length, Nat.zero_add,
    zero_add, assign_before _ (by omega) (by omega)]
  by_cases hstart : position < (front.map g.share).sum
  · have hneg : ¬ 0 ≤ position - (front.map g.share).sum := by linarith
    simp only [if_neg hneg, if_pos hstart]
  · have hpos : 0 ≤ position - (front.map g.share).sum := by linarith
    rw [if_pos hpos, assign_divider _ (by omega), assign_behind _ (by omega) (by omega)]
    have hdiff : g.share (.star b) -
        (position - (g.share (.star a) + (front.map g.share).sum)) =
          (front.map g.share).sum + g.share (.star a) + g.share (.star b) - position := by ring
    rw [hdiff]
    by_cases hstop : (front.map g.share).sum + g.share (.star a) + g.share (.star b) < position
    · have hneg : ¬ 0 ≤ (front.map g.share).sum + g.share (.star a) + g.share (.star b) -
          position := by linarith
      simp only [if_neg hneg, if_neg hstart, if_pos hstop]
    · have hle : 0 ≤ (front.map g.share).sum + g.share (.star a) + g.share (.star b) -
          position := by linarith
      have hrest := @assign_plain g position index (2 * k + 1 + 1 + 1)
        (position + g.share (.pixel width) +
          ((front.map g.share).sum + g.share (.star a) + g.share (.star b) - position))
        (position - (g.share (.star a) + (front.map g.share).sum)) back [] hback (by omega)
      rw [List.append_nil] at hrest
      simp only [if_pos hle, if_neg hstart, if_neg hstop, hrest, assign, List.append_nil]

/-! ## The result -/

/-- What is in front of the pane before the divider. -/
theorem before_at (h : At g k front a width b back) : before g k = (front.map g.share).sum := by
  rw [before, Grid.shares, h.definitions, List.map_append, List.take_left' (by simp [h.length])]

/-- The pane before the divider. -/
theorem pane_at (h : At g k front a width b back) : pane g k = g.share (.star a) := by
  rw [pane, Grid.shares, h.definitions, List.map_append, List.getD_append_right _ _ _ _ (by
    rw [List.length_map, h.length])]
  simp [h.length]

/-- The pane behind it. -/
theorem pane_next_at (h : At g k front a width b back) : pane g (k + 1) = g.share (.star b) := by
  have hindex : 2 * (k + 1) - 2 * k = 2 := by omega
  rw [pane, Grid.shares, h.definitions, List.map_append, List.getD_append_right _ _ _ _ (by
    rw [List.length_map, h.length]; omega), List.length_map, h.length, hindex]
  rfl

/-- The weights around the divider. -/
theorem weights_at (h : At g k front a width b back) :
    g.weights = front.map GridLength.weight ++ (a : ℚ) :: 0 :: (b : ℚ) ::
      back.map GridLength.weight := by
  rw [Grid.weights, h.definitions, List.map_append]
  rfl

/-- Shares that are assigned are shares again. -/
theorem map_reassign_share (l : List GridLength) :
    (l.map (reassign g)).map (fun d => d.width / g.total + d.weight) = l.map g.share := by
  rw [List.map_map]
  apply List.map_congr_left
  intro d _
  rw [Function.comp_apply, width_reassign, weight_reassign, ← share_eq]

/-- Reassigning keeps the widths. -/
theorem map_reassign_width (l : List GridLength) :
    (l.map (reassign g)).map GridLength.width = l.map GridLength.width := by
  rw [List.map_map]
  exact List.map_congr_left fun d _ => width_reassign d

/-- Reassigning scales the weights. -/
theorem map_reassign_weight (l : List GridLength) :
    (l.map (reassign g)).map GridLength.weight = (l.map GridLength.weight).map (scale g * ·) := by
  rw [List.map_map, List.map_map]
  exact List.map_congr_left fun d _ => weight_reassign d

/-- All panes get their shares: nothing changes. -/
theorem shares_reassigned (htotal : 0 < g.total) :
    (g.assigned (g.definitions.map (reassign g))).shares = g.shares := by
  have hshare : ∀ d ∈ g.definitions.map (reassign g),
      (g.assigned (g.definitions.map (reassign g))).share d = d.width / g.total + d.weight := by
    intro d hd
    refine share_of_sum htotal (map_reassign_width g.definitions) ?_ hd
    rw [map_reassign_weight, sum_map_mul]
    rfl
  exact (List.map_congr_left hshare).trans (map_reassign_share g.definitions)

/-- **The divider moves.** -/
theorem moved_of_reachable (htotal : 0 < g.total) (h : At g k front a width b back)
    {x y : ℚ} (hx : 0 ≤ x) (hy : 0 ≤ y) (hsum : x + y = g.share (.star a) + g.share (.star b)) :
    Moved g
      (g.assigned (front.map (reassign g) ++ .star x.toNNRat :: .pixel width ::
        .star y.toNNRat :: back.map (reassign g)))
      ((front.map g.share).sum + x) k := by
  have ha : g.share (.star a) = scale g * a := by simp [share_eq]
  have hb : g.share (.star b) = scale g * b := by simp [share_eq]
  have hshare : ∀ d ∈ front.map (reassign g) ++ .star x.toNNRat :: .pixel width ::
      .star y.toNNRat :: back.map (reassign g), (g.assigned (front.map (reassign g) ++
        .star x.toNNRat :: .pixel width :: .star y.toNNRat :: back.map (reassign g))).share d =
          d.width / g.total + d.weight := by
    intro d hd
    refine share_of_sum htotal ?_ ?_ hd
    · simp only [Grid.widths, h.definitions, List.map_append, List.map_cons, map_reassign_width,
        GridLength.width_star]
    · simp only [Grid.weights, h.definitions, List.map_append, List.map_cons, map_reassign_weight,
        List.sum_append, List.sum_cons, sum_map_mul, GridLength.weight_star,
        GridLength.weight_pixel, Rat.coe_toNNRat _ hx, Rat.coe_toNNRat _ hy]
      linarith
  -- the new shares
  have hshares : (g.assigned (front.map (reassign g) ++ .star x.toNNRat :: .pixel width ::
      .star y.toNNRat :: back.map (reassign g))).shares =
        front.map g.share ++ x :: g.share (.pixel width) :: y :: back.map g.share := by
    refine (List.map_congr_left hshare).trans ?_
    simp only [List.map_append, List.map_cons, map_reassign_share,
      GridLength.width_star, GridLength.weight_star, GridLength.width_pixel,
      GridLength.weight_pixel, zero_div, zero_add, add_zero, Rat.coe_toNNRat _ hx,
      Rat.coe_toNNRat _ hy]
    rw [share_eq g (.pixel width), GridLength.weight_pixel, mul_zero, add_zero,
      GridLength.width_pixel]
  have hold : g.shares = front.map g.share ++ g.share (.star a) :: g.share (.pixel width) ::
      g.share (.star b) :: back.map g.share := by
    rw [Grid.shares, h.definitions, List.map_append]
    rfl
  have hlength : (front.map g.share).length = 2 * k := by rw [List.length_map, h.length]
  refine ⟨?_, fun i hi hi' => ?_, ?_, fun p hp => ?_⟩
  · rw [hshares, List.take_append, hlength, Nat.add_sub_cancel_left,
      List.take_of_length_le (by omega)]
    simp
  · rw [hshares, hold]
    rcases Nat.lt_or_ge i (2 * k) with hlt | hge
    · rw [List.getElem?_append_left (hlength ▸ hlt), List.getElem?_append_left (hlength ▸ hlt)]
    · obtain ⟨j, rfl⟩ := Nat.exists_eq_add_of_le hge
      rw [List.getElem?_append_right (by omega), List.getElem?_append_right (by omega), hlength,
        Nat.add_sub_cancel_left]
      match j, hi, hi' with
      | 1, _, _ => rfl
      | j + 3, _, _ => rfl
  · rw [hshares, hold]
    simp only [List.sum_append, List.sum_cons]
    linarith
  · obtain ⟨d, -, rfl⟩ := List.mem_map.mp hp
    exact share_nonneg _ d

/-- What is left behind when the first of the two panes throws. -/
theorem shares_below_iff (htotal : 0 < g.total) (h : At g k front a width b back) :
    (g.assigned (front.map (reassign g) ++ .star a :: .pixel width :: .star b :: back)).shares =
      g.shares ↔ g.room = 0 ∨ StaysBelow g k := by
  have hwidths : (front.map (reassign g) ++ .star a :: .pixel width :: .star b :: back).map
      GridLength.width = g.widths := by
    simp only [Grid.widths, h.definitions, List.map_append, map_reassign_width]
  rw [shares_eq_iff htotal hwidths]
  have hlength : (front.map GridLength.weight).length = 2 * k := by rw [List.length_map, h.length]
  have hnew : (front.map (reassign g) ++ .star a :: .pixel width :: .star b :: back).map
      GridLength.weight = (front.map GridLength.weight).map (scale g * ·) ++
        (a : ℚ) :: 0 :: (b : ℚ) :: back.map GridLength.weight := by
    rw [List.map_append, map_reassign_weight]
    rfl
  have hstays : StaysBelow g k ↔ (∀ w ∈ front.map GridLength.weight, w = 0) ∨
      (∀ w ∈ (a : ℚ) :: 0 :: (b : ℚ) :: back.map GridLength.weight, w = 0) ∨ scale g = 1 := by
    have htake : g.weights.take (2 * k) = front.map GridLength.weight := by
      rw [weights_at h, List.take_left' hlength]
    have hdrop : g.weights.drop (2 * k) =
        (a : ℚ) :: 0 :: (b : ℚ) :: back.map GridLength.weight := by
      rw [weights_at h, List.drop_left' hlength]
    rw [StaysBelow, htake, hdrop]
    rfl
  rw [hnew, hstays]
  refine or_congr_right' fun hroom => ?_
  by_cases hzero : g.weights.sum = 0
  · -- there are no weights, and none are assigned
    have hall := weights_eq_zero hzero
    rw [weights_at h] at hall
    have hfront : ∀ w ∈ front.map GridLength.weight, w = 0 := fun w hw =>
      hall w (List.mem_append_left _ hw)
    refine iff_of_true ⟨1, one_pos, ?_⟩ (.inl hfront)
    have hscaled : (front.map GridLength.weight).map (scale g * ·) =
        (front.map GridLength.weight).map (1 * ·) := map_mul_eq_map_mul_iff.mpr (.inr hfront)
    simp only [hscaled, one_mul, List.map_id', weights_at h]
  · have hscale : 0 < scale g :=
      lt_of_le_of_ne (scale_nonneg g) (Ne.symm (div_ne_zero (div_ne_zero hroom hzero) htotal.ne'))
    rw [weights_at h]
    exact proportional_scaled_iff hscale

/-- What is left behind when the second one throws. -/
theorem shares_above_iff (htotal : 0 < g.total) (h : At g k front a width b back)
    (hposition : (front.map g.share).sum + g.share (.star a) + g.share (.star b) < position) :
    (g.assigned (front.map (reassign g) ++ .star (position - (front.map g.share).sum).toNNRat ::
      .pixel width :: .star b :: back)).shares = g.shares ↔
        g.room = 0 ∨ StaysAbove g position k := by
  have ha := share_nonneg g (.star a)
  have hb := share_nonneg g (.star b)
  have haScale : g.share (.star a) = scale g * a := by simp [share_eq]
  have hwidths : (front.map (reassign g) ++ .star (position - (front.map g.share).sum).toNNRat ::
      .pixel width :: .star b :: back).map GridLength.width = g.widths := by
    simp only [Grid.widths, h.definitions, List.map_append, List.map_cons, map_reassign_width,
      GridLength.width_star]
  rw [shares_eq_iff htotal hwidths]
  have hlength : (front.map GridLength.weight).length = 2 * k := by rw [List.length_map, h.length]
  have hnew : (front.map (reassign g) ++ .star (position - (front.map g.share).sum).toNNRat ::
      .pixel width :: .star b :: back).map GridLength.weight =
        (front.map GridLength.weight).map (scale g * ·) ++
          (position - (front.map g.share).sum) :: 0 :: (b : ℚ) :: back.map GridLength.weight := by
    rw [List.map_append, map_reassign_weight, List.map_cons, GridLength.weight_star,
      Rat.coe_toNNRat _ (by linarith)]
    rfl
  have hget : g.weights.getD (2 * k) 0 = a := by
    rw [weights_at h, List.getD_append_right _ _ _ _ hlength.le, hlength, Nat.sub_self]
    rfl
  have hdrop : g.weights.drop (2 * k + 1) = 0 :: (b : ℚ) :: back.map GridLength.weight := by
    rw [weights_at h, List.drop_append, hlength, Nat.add_sub_cancel_left,
      List.drop_of_length_le (by omega)]
    rfl
  rw [hnew, StaysAbove, hget, hdrop, before_at h, weights_at h, List.take_left' hlength]
  exact or_congr_right (proportional_raised_iff (by linarith) (by linarith))

end Loop

/-- `setPosition` past its checks. -/
theorem setPosition_eq {position : ℚ} (hpos : 0 < position) (hlt : position < 1) (g : Grid)
    (index : Int) : setPosition g position index =
      if index * 2 + 1 ≥ g.definitions.length then (g, none)
      else (g.assigned (assign g position (index * 2 + 1) 0 0 0 g.definitions).1,
        (assign g position (index * 2 + 1) 0 0 0 g.definitions).2) := by
  rw [setPosition, if_pos ⟨hpos, hlt⟩]
  simp only [if_neg (not_lt.mpr hlt.le), if_neg (not_lt.mpr hpos.le)]

/-- Where there is no divider of this index nothing changes. -/
theorem setPosition_elsewhere (s : Split) (htotal : 0 < s.total) {position : ℚ}
    (hpos : 0 < position) (hlt : position < 1) {index : Int}
    (h : ∀ k : Nat, index = k → s.panes ≤ k + 1) :
    (setPosition s.toGrid position index).1.shares = s.shares := by
  rw [setPosition_eq hpos hlt]
  split
  · rfl
  · next hindex =>
      have hneg : index < 0 := by
        by_contra hnonneg
        have hpanes := h index.toNat (by omega)
        have hodd := s.odd
        unfold Grid.panes at hpanes
        rcases hodd with hnil | hodd
        · rw [hnil] at hindex
          simp at hindex
          omega
        · omega
      have halt : Alternates 0 s.definitions := fun j d hj => by
        rw [Nat.zero_add]
        exact s.alternates j d hj
      have hassign := @assign_plain s.toGrid position (index * 2 + 1) 0 0 0 s.definitions [] halt
        (fun j _ => ⟨by omega, fun _ => rfl⟩)
      rw [List.append_nil] at hassign
      rw [hassign]
      simpa [assign] using shares_reassigned htotal

/-- Where there is such a divider. -/
theorem setsPosition_at_iff (s : Split) (htotal : 0 < s.total) {position : ℚ} (hpos : 0 < position)
    (hlt : position < 1) {k : Nat} (hk : k + 1 < s.panes) :
    SetsPosition s.toGrid position k ↔
      Reachable s.toGrid position k ∨ s.room = 0 ∨
        (position < before s.toGrid k ∧ StaysBelow s.toGrid k) ∨
          (before s.toGrid k + pane s.toGrid k + pane s.toGrid (k + 1) < position ∧
            StaysAbove s.toGrid position k) := by
  obtain ⟨front, a, width, b, back, h⟩ := exists_at s hk
  have hindex : ¬ (k : Int) * 2 + 1 ≥ s.definitions.length := by
    unfold Grid.panes at hk
    omega
  have hassign := @assign_at s.toGrid position ((k : Int) * 2 + 1) k front back a width b h rfl
  have hreach : Reachable s.toGrid position k ↔ ¬ position < (front.map s.share).sum ∧
      ¬ (front.map s.share).sum + s.share (.star a) + s.share (.star b) < position := by
    rw [Reachable, before_at h, pane_at h, pane_next_at h, not_lt, not_lt]
  have hsets : SetsPosition s.toGrid position k ↔
      (Reachable s.toGrid position k → (setPosition s.toGrid position k).2 = none ∧
        Moved s.toGrid (setPosition s.toGrid position k).1 position k) ∧
      (¬ Reachable s.toGrid position k →
        (setPosition s.toGrid position k).1.shares = s.shares) := by
    constructor
    · intro hall
      exact hall.1 k rfl hk
    · intro hboth
      refine ⟨fun j hj _ => ?_, fun hnone => absurd (hnone k rfl) (by omega)⟩
      obtain rfl := Int.ofNat.inj hj
      exact hboth
  rw [hsets, setPosition_eq hpos hlt, if_neg hindex, hassign]
  by_cases hbelow : position < (front.map s.share).sum
  · have hunreached : ¬ Reachable s.toGrid position k := fun hr => (hreach.mp hr).1 hbelow
    have hnotAbove : ¬ (front.map s.share).sum + s.share (.star a) + s.share (.star b) <
        position := by
      have ha := share_nonneg s.toGrid (.star a)
      have hb := share_nonneg s.toGrid (.star b)
      linarith
    simp only [hunreached, false_imp_iff, not_false_iff, true_imp_iff, true_and, false_or,
      before_at h, pane_at h, pane_next_at h, hbelow, hnotAbove, false_and, or_false]
    exact shares_below_iff htotal h
  · by_cases habove : (front.map s.share).sum + s.share (.star a) + s.share (.star b) < position
    · have hunreached : ¬ Reachable s.toGrid position k := fun hr => (hreach.mp hr).2 habove
      simp only [hunreached, false_imp_iff, not_false_iff, true_imp_iff, true_and, false_or,
        before_at h, pane_at h, pane_next_at h, hbelow, habove, false_and]
      exact shares_above_iff htotal h habove
    · have hreached := hreach.mpr ⟨hbelow, habove⟩
      refine iff_of_true ⟨fun _ => ?_, fun hno => absurd hreached hno⟩ (.inl hreached)
      simp only [if_neg hbelow, if_neg habove, true_and]
      have hmoved := moved_of_reachable (x := position - (front.map s.share).sum)
        (y := (front.map s.share).sum + s.share (.star a) + s.share (.star b) - position)
        htotal h (by linarith) (by linarith) (by ring)
      rwa [add_sub_cancel] at hmoved

/-- **Setting a position.**  It does what it should exactly where the position can be reached,
or the columns assigned before the exception do not change the layout. -/
theorem setPosition_iff (s : Split) (htotal : 0 < s.total) {position : ℚ} (hpos : 0 < position)
    (hlt : position < 1) (index : Int) :
    SetsPosition s.toGrid position index ↔ ReachableOrStays s.toGrid position index := by
  by_cases hdivider : ∃ k : Nat, index = k ∧ k + 1 < s.panes
  · obtain ⟨k, rfl, hk⟩ := hdivider
    rw [setsPosition_at_iff s htotal hpos hlt hk]
    constructor
    · intro hone j hj _
      obtain rfl := Int.ofNat.inj hj
      exact hone
    · intro hall
      exact hall k rfl hk
  · have hnone : ∀ k : Nat, index = k → s.panes ≤ k + 1 := fun k hk => by
      by_contra hlate
      exact hdivider ⟨k, hk, by omega⟩
    refine iff_of_true ⟨fun k hk hlate => ?_, fun _ => ?_⟩ fun k hk hlate => ?_
    · exact absurd (hnone k hk) (by omega)
    · exact setPosition_elsewhere s htotal hpos hlt hnone
    · exact absurd (hnone k hk) (by omega)

/-- Three panes of 100 pixels. -/
def threePanes : Split where
  extent := 302
  definitions := [.star 1, .pixel 1, .star 1, .pixel 1, .star 1]
  alternates i d h := by
    match i, h with
    | 0, h | 2, h | 4, h =>
        obtain rfl := Option.some.inj h
        decide
    | 1, h | 3, h =>
        obtain rfl := Option.some.inj h
        decide
  odd := .inr rfl

/-- The room of three panes. -/
theorem threePanes_room : threePanes.room = 300 := by
  simp [threePanes, Grid.room, Grid.widths]
  norm_num

/-- What three panes and their dividers show. -/
theorem threePanes_total : threePanes.total = 302 := by
  rw [total_eq, threePanes_room, sum_portions _ (by simp [threePanes, Grid.weights]; norm_num)]
  simp [threePanes, Grid.widths]
  norm_num

/-- The middle of the first two panes. -/
theorem setPosition_iff_third :
    SetsPosition threePanes.toGrid (1 / 3) 0 ↔ ReachableOrStays threePanes.toGrid (1 / 3) 0 :=
  setPosition_iff threePanes (by rw [threePanes_total]; norm_num) (by norm_num) (by norm_num) 0

/-- `setPosition(0.1, 1)` throws, and the first pane is a seventh of the panes then. -/
theorem unreachable_moves :
    ¬ ∀ (s : Split) (position : ℚ) (index : Int), 0 < s.total → 0 < position → position < 1 →
      SetsPosition s.toGrid position index := by
  intro hall
  have hsets := hall threePanes (1 / 10) 1 (by rw [threePanes_total]; norm_num) (by norm_num)
    (by norm_num)
  have hweights : threePanes.weights = [1, 0, 1, 0, 1] := by
    simp [threePanes, Grid.weights]
  have hat : At threePanes.toGrid 1 [.star 1, .pixel 1] 1 1 1 [] :=
    ⟨rfl, rfl, fun j d hj => by rw [Nat.zero_add]; exact threePanes.alternates j d hj⟩
  have hbefore : before threePanes.toGrid 1 = 101 / 302 := by
    rw [before_at hat]
    simp only [List.map_cons, List.map_nil, List.sum_cons, List.sum_nil, share_eq, scale,
      threePanes_room, threePanes_total, hweights, GridLength.width_star, GridLength.width_pixel,
      GridLength.weight_star, GridLength.weight_pixel]
    norm_num
  rcases (setsPosition_at_iff threePanes (by rw [threePanes_total]; norm_num) (by norm_num)
    (by norm_num) (by decide : 1 + 1 < threePanes.panes)).mp hsets with hreach | hroom | hstays
  · have hle := hreach.1
    rw [hbefore] at hle
    norm_num at hle
  · rw [threePanes_room] at hroom
    norm_num at hroom
  · rcases hstays with ⟨-, hbelow⟩ | ⟨habove, -⟩
    · rcases hbelow with hfront | hrest | hscale
      · exact one_ne_zero (hfront 1 (by simp [hweights]))
      · exact one_ne_zero (hrest 1 (by simp [hweights]))
      · rw [threePanes_room, threePanes_total, hweights] at hscale
        norm_num at hscale
    · rw [hbefore, pane_at hat, pane_next_at hat] at habove
      have hone := share_nonneg threePanes.toGrid (.star 1)
      linarith

end SplitPosition

import Mathlib.Algebra.BigOperators.Group.List.Lemmas
import Mathlib.Algebra.BigOperators.Ring.List
import Mathlib.Algebra.Order.BigOperators.Group.List
import Mathlib.Algebra.Order.Field.Basic
import Mathlib.Tactic.FieldSimp
import Mathlib.Tactic.Ring

/-!
# Sharing out by weights

A room is shared out in proportion to weights, and where all weights are 0 nobody gets
anything.  Two lists of weights share every room out alike exactly when they are
proportional.
-/

namespace Portion

variable {K : Type*} [Field K]

/-- What each weight gets of the room; dividing by 0 gives 0. -/
def portions (room : K) (weights : List K) : List K :=
  weights.map fun w => room * (w / weights.sum)

theorem length_portions (room : K) (weights : List K) :
    (portions room weights).length = weights.length := List.length_map _

theorem sum_map_mul (c : K) (l : List K) : (l.map (c * ·)).sum = c * l.sum := by
  rw [List.sum_map_mul_left, List.map_id']

theorem portions_eq (room : K) (weights : List K) :
    portions room weights = weights.map (room / weights.sum * ·) := by
  apply List.map_congr_left
  intro w _
  rw [div_mul_eq_mul_div, mul_div_assoc]

/-- All of the room is shared out. -/
theorem sum_portions {weights : List K} (room : K) (h : weights.sum ≠ 0) :
    (portions room weights).sum = room := by
  rw [portions_eq, sum_map_mul, div_mul_cancel₀ _ h]

theorem portions_of_sum_eq_zero {weights : List K} (room : K) (h : weights.sum = 0) :
    portions room weights = weights.map fun _ => 0 := by
  apply List.map_congr_left
  intro w _
  rw [h, div_zero, mul_zero]

theorem sum_portions_of_sum_eq_zero {weights : List K} (room : K) (h : weights.sum = 0) :
    (portions room weights).sum = 0 := by
  rw [portions_eq, sum_map_mul, h, mul_zero]

section Order

variable [LinearOrder K]

/-- One list of weights is a positive multiple of the other. -/
def Proportional (l l' : List K) : Prop := ∃ c, 0 < c ∧ l' = l.map (c * ·)

/-- Proportional weights share out alike. -/
theorem Proportional.portions_eq {l l' : List K} (h : Proportional l l') (room : K) :
    portions room l' = portions room l := by
  obtain ⟨c, hc, rfl⟩ := h
  rw [portions, sum_map_mul, List.map_map, portions]
  apply List.map_congr_left
  intro w _
  rw [Function.comp_apply, mul_div_mul_left _ _ hc.ne']

variable [IsStrictOrderedRing K]

/-- Weights that add up to the room, in some unit, get themselves. -/
theorem portions_of_sum_mul {weights : List K} {room unit : K} (h : ∀ w ∈ weights, 0 ≤ w)
    (hsum : weights.sum ≠ 0 → unit * weights.sum = room) :
    portions room weights = weights.map (unit * ·) := by
  by_cases hzero : weights.sum = 0
  · have hall : ∀ w ∈ weights, w = 0 := fun w hw =>
      List.all_zero_of_le_zero_le_of_sum_eq_zero h hzero hw
    rw [portions_of_sum_eq_zero room hzero]
    apply List.map_congr_left
    intro w hw
    rw [hall w hw, mul_zero]
  · rw [portions_eq, ← hsum hzero, mul_div_assoc, div_self hzero, mul_one]

/-- **The same portions.**  Where there is some room and some weight, only proportional
weights share it out alike. -/
theorem proportional_of_portions_eq {l l' : List K} {room : K} (hroom : room ≠ 0)
    (hl : 0 < l.sum) (hl' : 0 < l'.sum) (h : portions room l' = portions room l) :
    Proportional l l' := by
  refine ⟨l'.sum / l.sum, div_pos hl' hl, ?_⟩
  have hscaled := congrArg (List.map (l'.sum / room * ·)) h
  rw [portions_eq, portions_eq, List.map_map, List.map_map] at hscaled
  have hleft : ((l'.sum / room * ·) ∘ (room / l'.sum * ·) : K → K) = id := by
    funext w
    simp only [Function.comp_apply, id_eq]
    field_simp [hl'.ne']
  have hright : ((l'.sum / room * ·) ∘ (room / l.sum * ·) : K → K) = (l'.sum / l.sum * ·) := by
    funext w
    simp only [Function.comp_apply]
    field_simp [hl.ne']
  rwa [hleft, hright, List.map_id] at hscaled

/-! ## Some of the weights scaled -/

omit [Field K] [LinearOrder K] [IsStrictOrderedRing K] in
theorem append_eq_append_iff_of_length {s s' t t' : List K} (h : s.length = s'.length) :
    s ++ t = s' ++ t' ↔ s = s' ∧ t = t' :=
  ⟨fun heq => List.append_inj heq h, fun heq => congrArg₂ _ heq.1 heq.2⟩

omit [LinearOrder K] [IsStrictOrderedRing K] in
/-- Two factors that do the same are equal, or all is 0. -/
theorem map_mul_eq_map_mul_iff {c d : K} {l : List K} :
    l.map (c * ·) = l.map (d * ·) ↔ c = d ∨ ∀ w ∈ l, w = 0 := by
  rw [List.map_inj_left]
  constructor
  · intro h
    by_cases hc : c = d
    · exact .inl hc
    · exact .inr fun w hw => (mul_eq_mul_right_iff.mp (h w hw)).resolve_left hc
  · intro h w hw
    rcases h with rfl | hall
    · rfl
    · rw [hall w hw, mul_zero, mul_zero]

omit [LinearOrder K] [IsStrictOrderedRing K] in
theorem eq_map_mul_iff {c : K} {l : List K} :
    l = l.map (c * ·) ↔ c = 1 ∨ ∀ w ∈ l, w = 0 := by
  have hone : l.map ((1 : K) * ·) = l := by simp
  calc l = l.map (c * ·) ↔ l.map (c * ·) = l.map (1 * ·) := by rw [hone, eq_comm]
    _ ↔ c = 1 ∨ ∀ w ∈ l, w = 0 := map_mul_eq_map_mul_iff

/-- The first weights scaled by `c`. -/
theorem proportional_scaled_iff {c : K} (hc : 0 < c) {u v : List K} :
    Proportional (u ++ v) (u.map (c * ·) ++ v) ↔
      (∀ w ∈ u, w = 0) ∨ (∀ w ∈ v, w = 0) ∨ c = 1 := by
  have hsplit : ∀ d, u.map (c * ·) ++ v = (u ++ v).map (d * ·) ↔
      (c = d ∨ ∀ w ∈ u, w = 0) ∧ (d = 1 ∨ ∀ w ∈ v, w = 0) := by
    intro d
    rw [List.map_append, append_eq_append_iff_of_length (by simp), map_mul_eq_map_mul_iff,
      eq_map_mul_iff]
  simp only [Proportional, hsplit]
  constructor
  · intro h
    obtain ⟨d, -, hu, hv⟩ := h
    grind
  · intro h
    rcases h with hu | hv | hone
    · exact ⟨1, one_pos, .inr hu, .inl rfl⟩
    · exact ⟨c, hc, .inl rfl, .inr hv⟩
    · exact ⟨1, one_pos, .inl hone, .inl rfl⟩

/-- The first weights scaled by `c`, and the next one by more. -/
theorem proportional_raised_iff {c a x : K} (hx : 0 < x) (hmore : c * a < x) {u v : List K} :
    Proportional (u ++ a :: v) (u.map (c * ·) ++ x :: v) ↔
      0 < a ∧ (∀ w ∈ u, w = 0) ∧ ((∀ w ∈ v, w = 0) ∨ x = a) := by
  have hsplit : ∀ d, u.map (c * ·) ++ x :: v = (u ++ a :: v).map (d * ·) ↔
      (c = d ∨ ∀ w ∈ u, w = 0) ∧ x = d * a ∧ (d = 1 ∨ ∀ w ∈ v, w = 0) := by
    intro d
    rw [List.map_append, append_eq_append_iff_of_length (by simp), map_mul_eq_map_mul_iff,
      List.map_cons, List.cons.injEq, eq_map_mul_iff]
  simp only [Proportional, hsplit]
  constructor
  · intro h
    obtain ⟨d, hd, hu, rfl, hv⟩ := h
    have ha : 0 < a := (pos_iff_pos_of_mul_pos hx).mp hd
    refine ⟨ha, hu.resolve_left ?_, ?_⟩
    · rintro rfl
      exact lt_irrefl _ hmore
    · rcases hv with rfl | hv
      · exact .inr (one_mul a)
      · exact .inl hv
  · intro h
    obtain ⟨ha, hu, hv⟩ := h
    refine ⟨x / a, div_pos hx ha, .inr hu, (div_mul_cancel₀ x ha.ne').symm, ?_⟩
    rcases hv with hv | rfl
    · exact .inr hv
    · exact .inl (div_self ha.ne')

end Order

end Portion

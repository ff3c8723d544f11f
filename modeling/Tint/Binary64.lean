import Mathlib.Algebra.Order.Ring.Int
import Mathlib.Algebra.Order.Ring.Nat
import Mathlib.Tactic.Ring

/-!
# Finite numbers of the binary64 format

A finite number is a sign, a mantissa below `2 ^ 53` and a shift: its value is the
mantissa times `2 ^ shift`, counted in the least positive number `2 ^ -1074`.  Each
number but zero is written in one way (`eq_of_units`), because a mantissa below
`2 ^ 52` goes with the least shift only; zero has a sign.

Integers below `2 ^ 53` in size are such numbers (`ofInt`, `units_ofInt`), and so are those
of that size (`ofIntLE`, `trunc_ofIntLE`).
-/

/-- A finite number: `± mantissa * 2 ^ (shift - 1074)`. -/
structure Binary64 where
  negative : Bool
  mantissa : Nat
  shift : Nat
  mantissa_lt : mantissa < 2 ^ 53
  shift_le : shift ≤ 2045
  canonical : shift = 0 ∨ 2 ^ 52 ≤ mantissa
  deriving DecidableEq

namespace Binary64

/-- The unit is `2 ^ -unitExponent`. -/
def unitExponent : Nat := 1074

/-- The number one, in the unit. -/
def one : Nat := 2 ^ unitExponent

theorem one_pos : 0 < one := Nat.two_pow_pos unitExponent

/-- The size in the unit. -/
def magnitude (x : Binary64) : Nat := x.mantissa * 2 ^ x.shift

/-- The value in the unit. -/
def units (x : Binary64) : Int := if x.negative then -(x.magnitude : Int) else x.magnitude

/-- The integer next to the value, towards zero. -/
def trunc (x : Binary64) : Int :=
  if x.negative then -((x.magnitude / one : Nat) : Int) else (x.magnitude / one : Nat)

/-- The value is an integer. -/
def IsInteger (x : Binary64) : Prop := x.units = x.trunc * one

instance (x : Binary64) : Decidable x.IsInteger := inferInstanceAs (Decidable (_ = _))

/-- Negative zero. -/
def IsMinusZero (x : Binary64) : Prop := x.negative = true ∧ x.mantissa = 0

instance (x : Binary64) : Decidable x.IsMinusZero := inferInstanceAs (Decidable (_ ∧ _))

theorem units_natAbs (x : Binary64) : x.units.natAbs = x.magnitude := by
  unfold units
  split <;> simp

theorem magnitude_eq_zero {x : Binary64} : x.magnitude = 0 ↔ x.mantissa = 0 := by
  simp [magnitude]

/-- A smaller shift would need a mantissa that is too large. -/
theorem shift_le_of_magnitude {x y : Binary64} (h : x.magnitude = y.magnitude) :
    y.shift ≤ x.shift := by
  by_contra hlt
  obtain ⟨d, hd⟩ : ∃ d, y.shift = x.shift + (d + 1) := ⟨y.shift - x.shift - 1, by omega⟩
  have hlarge : 2 ^ 52 ≤ y.mantissa := y.canonical.resolve_left (by omega)
  have hmantissa : x.mantissa = y.mantissa * 2 ^ (d + 1) := by
    have hpos : 0 < 2 ^ x.shift := Nat.two_pow_pos _
    apply Nat.eq_of_mul_eq_mul_right hpos
    calc x.mantissa * 2 ^ x.shift = y.mantissa * 2 ^ y.shift := h
      _ = y.mantissa * 2 ^ (d + 1) * 2 ^ x.shift := by rw [hd]; ring
  have htwo : 2 ≤ 2 ^ (d + 1) := by
    rw [Nat.pow_succ]
    have := Nat.two_pow_pos d
    omega
  have hdouble : 2 ^ 52 * 2 ≤ x.mantissa := hmantissa ▸ Nat.mul_le_mul hlarge htwo
  have hsmall := x.mantissa_lt
  omega

/-- **A number is written in one way**, once its sign is known. -/
theorem eq_of_magnitude {x y : Binary64} (hsign : x.negative = y.negative)
    (h : x.magnitude = y.magnitude) : x = y := by
  have hshift : x.shift = y.shift :=
    Nat.le_antisymm (shift_le_of_magnitude h.symm) (shift_le_of_magnitude h)
  have hmantissa : x.mantissa = y.mantissa := by
    have hpos : 0 < 2 ^ x.shift := Nat.two_pow_pos _
    apply Nat.eq_of_mul_eq_mul_right hpos
    rw [magnitude, magnitude, ← hshift] at h
    exact h
  cases x
  cases y
  congr

/-- Different writings of one value are the two zeros. -/
theorem eq_of_units {x y : Binary64} (h : x.units = y.units) (hx : ¬ x.IsMinusZero)
    (hy : ¬ y.IsMinusZero) : x = y := by
  have hmag : x.magnitude = y.magnitude := by rw [← units_natAbs, ← units_natAbs, h]
  refine eq_of_magnitude ?_ hmag
  by_cases hzero : x.magnitude = 0
  · have hzero' : y.mantissa = 0 := magnitude_eq_zero.mp (hmag ▸ hzero)
    have hxs : x.negative = false := by simpa [IsMinusZero, magnitude_eq_zero.mp hzero] using hx
    have hys : y.negative = false := by simpa [IsMinusZero, hzero'] using hy
    rw [hxs, hys]
  · unfold units at h
    rw [← hmag] at h
    cases hxs : x.negative <;> cases hys : y.negative <;>
      simp only [hxs, hys, if_true, if_false, Bool.false_eq_true] at h <;> first | rfl | omega

/-- An integer as a number, zero without a sign. -/
def ofInt (n : Int) (h : n.natAbs < 2 ^ 53) : Binary64 :=
  if hn : n = 0 then ⟨false, 0, 0, by omega, by omega, .inl rfl⟩
  else
    { negative := n < 0
      mantissa := n.natAbs * 2 ^ (52 - n.natAbs.log2)
      shift := 1022 + n.natAbs.log2
      mantissa_lt := by
        have hlt : n.natAbs < 2 ^ (n.natAbs.log2 + 1) := Nat.lt_log2_self
        have hlog : n.natAbs.log2 < 53 := (Nat.log2_lt (by omega)).mpr h
        calc n.natAbs * 2 ^ (52 - n.natAbs.log2)
            < 2 ^ (n.natAbs.log2 + 1) * 2 ^ (52 - n.natAbs.log2) :=
              Nat.mul_lt_mul_of_pos_right hlt (Nat.two_pow_pos _)
          _ = 2 ^ 53 := by rw [← Nat.pow_add]; congr 1; omega
      shift_le := by
        have hlog : n.natAbs.log2 < 53 := (Nat.log2_lt (by omega)).mpr h
        omega
      canonical := by
        have hle : 2 ^ n.natAbs.log2 ≤ n.natAbs := Nat.log2_self_le (by omega)
        have hlog : n.natAbs.log2 < 53 := (Nat.log2_lt (by omega)).mpr h
        refine .inr ?_
        calc 2 ^ 52 = 2 ^ n.natAbs.log2 * 2 ^ (52 - n.natAbs.log2) := by
              rw [← Nat.pow_add]; congr 1; omega
          _ ≤ n.natAbs * 2 ^ (52 - n.natAbs.log2) := Nat.mul_le_mul_right _ hle }

/-- The magnitude of an integer. -/
theorem magnitude_ofInt (n : Int) (h : n.natAbs < 2 ^ 53) :
    (ofInt n h).magnitude = n.natAbs * one := by
  unfold ofInt
  split
  · next hn => simp [magnitude, hn]
  · next hn =>
    have hlog : n.natAbs.log2 < 53 := (Nat.log2_lt (by omega)).mpr h
    have hexp : (52 - n.natAbs.log2) + (1022 + n.natAbs.log2) = unitExponent := by
      unfold unitExponent
      omega
    simp only [magnitude, one]
    rw [Nat.mul_assoc, ← Nat.pow_add, hexp]

/-- The sign of an integer. -/
theorem negative_ofInt (n : Int) (h : n.natAbs < 2 ^ 53) :
    (ofInt n h).negative = decide (n < 0) := by
  unfold ofInt
  split
  · next hn => simp [hn]
  · rfl

/-- An integer in units. -/
theorem units_ofInt (n : Int) (h : n.natAbs < 2 ^ 53) : (ofInt n h).units = n * one := by
  unfold units
  rw [magnitude_ofInt, negative_ofInt]
  by_cases hn : n < 0
  · have habs : (n.natAbs : Int) = -n := by omega
    rw [if_pos (by simpa using hn), Nat.cast_mul, habs]
    ring
  · have habs : (n.natAbs : Int) = n := by omega
    rw [if_neg (by simpa using hn), Nat.cast_mul, habs]

/-- No integer is minus zero. -/
theorem not_isMinusZero_ofInt (n : Int) (h : n.natAbs < 2 ^ 53) : ¬ (ofInt n h).IsMinusZero := by
  rintro ⟨hneg, hzero⟩
  rw [negative_ofInt, decide_eq_true_eq] at hneg
  have hmag := magnitude_ofInt n h
  rw [magnitude_eq_zero.mpr hzero] at hmag
  have hpos : 0 < n.natAbs * one := Nat.mul_pos (by omega) one_pos
  omega

/-- **An integral number is the integer it holds.** -/
theorem ofInt_trunc {x : Binary64} (hinteger : x.IsInteger) (hx : ¬ x.IsMinusZero)
    (h : x.trunc.natAbs < 2 ^ 53) : ofInt x.trunc h = x :=
  eq_of_units ((units_ofInt _ h).trans hinteger.symm) (not_isMinusZero_ofInt _ h) hx

/-- The value of an integral number is the only integer it equals. -/
theorem trunc_of_units {x : Binary64} {n : Int} (h : x.units = n * one) : x.trunc = n := by
  have hpos := one_pos
  have hmag : x.magnitude = n.natAbs * one := by
    rw [← units_natAbs, h, Int.natAbs_mul, Int.natAbs_natCast]
  have hdiv : x.magnitude / one = n.natAbs := by rw [hmag, Nat.mul_div_cancel _ hpos]
  unfold trunc
  rw [hdiv]
  unfold units at h
  split
  · next hneg =>
    rw [if_pos hneg] at h
    have hle : n * one ≤ 0 := by omega
    have hn : n ≤ 0 := by
      by_contra hcon
      have := Int.mul_pos (a := n) (b := one) (by omega) (by exact_mod_cast hpos)
      omega
    omega
  · next hneg =>
    rw [if_neg hneg] at h
    have hle : 0 ≤ n * one := by omega
    have hn : 0 ≤ n := by
      by_contra hcon
      have := Int.mul_neg_of_neg_of_pos (a := n) (b := one) (by omega) (by exact_mod_cast hpos)
      omega
    omega

theorem isInteger_iff {x : Binary64} : x.IsInteger ↔ ∃ n : Int, x.units = n * one :=
  ⟨fun h => ⟨x.trunc, h⟩, fun ⟨n, h⟩ => by rw [IsInteger, trunc_of_units h]; exact h⟩

/-- An integer as a number, up to `2 ^ 53` in size. -/
def ofIntLE (n : Int) (_h : n.natAbs ≤ 2 ^ 53) : Binary64 :=
  if hlt : n.natAbs < 2 ^ 53 then ofInt n hlt
  else
    { negative := n < 0
      mantissa := 2 ^ 52
      shift := 1075
      mantissa_lt := by decide
      shift_le := by decide
      canonical := .inr (Nat.le_refl _) }

/-- An integer up to the bound, in units. -/
theorem units_ofIntLE (n : Int) (h : n.natAbs ≤ 2 ^ 53) : (ofIntLE n h).units = n * one := by
  unfold ofIntLE
  split
  · exact units_ofInt n _
  · next hge =>
    have hexp : 52 + 1075 = 53 + unitExponent := rfl
    have hone : 2 ^ 52 * 2 ^ 1075 = 2 ^ 53 * one := by rw [one, ← Nat.pow_add, hexp, Nat.pow_add]
    have habs : n.natAbs = 2 ^ 53 := by omega
    simp only [units, magnitude, hone]
    by_cases hn : n < 0
    · rw [if_pos (by simpa using hn), Nat.cast_mul, ← habs, Int.ofNat_natAbs_of_nonpos hn.le]
      ring
    · rw [if_neg (by simpa using hn), Nat.cast_mul, ← habs, Int.natAbs_of_nonneg (by omega)]

/-- Its value is the integer. -/
theorem trunc_ofIntLE (n : Int) (h : n.natAbs ≤ 2 ^ 53) : (ofIntLE n h).trunc = n :=
  trunc_of_units (units_ofIntLE n h)

end Binary64

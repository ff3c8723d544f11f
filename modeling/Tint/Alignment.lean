import Mathlib.Data.Nat.Basic
import Mathlib.Order.Bounds.Basic
import Mathlib.Tactic.Ring

/-!
# Rounding up to an alignment

Both readers and writers of binary layouts pad a position to the next multiple
of an alignment.  `alignUp n a` is that position, by the usual formula with two
remainders; `isLeast_alignUp` says what it is for.
-/

namespace Alignment

/-- The padding in front of the next multiple of `a`. -/
def padding (n a : Nat) : Nat := (a - n % a) % a

/-- The next multiple of `a` from `n` on. -/
def alignUp (n a : Nat) : Nat := n + padding n a

theorem le_alignUp (n a : Nat) : n ≤ alignUp n a := Nat.le_add_right _ _

/-- Nothing is padded at a multiple. -/
theorem alignUp_of_dvd {n a : Nat} (h : a ∣ n) : alignUp n a = n := by
  simp [alignUp, padding, Nat.mod_eq_zero_of_dvd h]

/-- Off the multiples the padding completes the remainder. -/
theorem padding_of_pos {n a : Nat} (ha : 0 < a) (h : 0 < n % a) : padding n a = a - n % a :=
  Nat.mod_eq_of_lt (by omega)

/-- The padded position is a multiple. -/
theorem dvd_alignUp (n : Nat) {a : Nat} (ha : 0 < a) : a ∣ alignUp n a := by
  rcases Nat.eq_zero_or_pos (n % a) with h | h
  · rw [alignUp_of_dvd (Nat.dvd_of_mod_eq_zero h)]
    exact Nat.dvd_of_mod_eq_zero h
  · have hlt := Nat.mod_lt n ha
    have hdiv := Nat.div_add_mod n a
    refine ⟨n / a + 1, ?_⟩
    rw [alignUp, padding_of_pos ha h, Nat.mul_add, Nat.mul_one]
    omega

/-- The padding stays below the alignment. -/
theorem alignUp_lt (n : Nat) {a : Nat} (ha : 0 < a) : alignUp n a < n + a :=
  Nat.add_lt_add_left (Nat.mod_lt _ ha) n

/-- No multiple between the position and the padded position is missed. -/
theorem alignUp_le {n a m : Nat} (ha : 0 < a) (hdvd : a ∣ m) (hle : n ≤ m) :
    alignUp n a ≤ m := by
  obtain ⟨k, hk⟩ := dvd_alignUp n ha
  obtain ⟨j, rfl⟩ := hdvd
  have hlt := alignUp_lt n ha
  rw [hk] at hlt ⊢
  refine Nat.mul_le_mul_left a ?_
  by_contra hjk
  have hstep : a * (j + 1) ≤ a * k := Nat.mul_le_mul_left a (by omega)
  rw [Nat.mul_add, Nat.mul_one] at hstep
  omega

/-- **What `alignUp` is for.**  It is the least multiple that is not before the
position. -/
theorem isLeast_alignUp (n : Nat) {a : Nat} (ha : 0 < a) :
    IsLeast { m | a ∣ m ∧ n ≤ m } (alignUp n a) :=
  ⟨⟨dvd_alignUp n ha, le_alignUp n a⟩, fun _ hm => alignUp_le ha hm.1 hm.2⟩

end Alignment

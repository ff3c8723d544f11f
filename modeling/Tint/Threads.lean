import Mathlib.Algebra.BigOperators.Group.Finset.Basic
import Mathlib.Algebra.GroupWithZero.Nat
import Mathlib.Data.Fintype.Basic
import Mathlib.Data.Multiset.AddSub
import Mathlib.Logic.Function.Basic

/-!
# Threads, their places and their records

A family of threads is a function from threads to program points.  `alone` is
the family in which one thread is away from the point where the others rest,
and `load` the work that all of them still have to do.  What the threads did is
recorded in lists, and `bag` is such a list without its order.
-/

namespace Threads

section Records

variable {α : Type*}

/-- A record without its order. -/
def bag (l : List α) : Multiset α := l

@[simp] theorem bag_append (l l' : List α) : bag (l ++ l') = bag l + bag l' := rfl

@[simp] theorem bag_nil : bag ([] : List α) = 0 := rfl

theorem bag_eq_bag {l l' : List α} : bag l = bag l' ↔ l.Perm l' := Multiset.coe_eq_coe

/-- What is left when some entries are taken away was there. -/
theorem subperm_of_bag_eq {l l' : List α} {b : Multiset α} (h : bag l = bag l' + b) :
    l'.Subperm l := by
  have hle : bag l' ≤ bag l := h ▸ Multiset.le_add_right (bag l') b
  exact Multiset.coe_le.mp hle

end Records

variable {T P : Type*} [DecidableEq T]

/-- Thread `t` alone is away from `rest`. -/
def alone (rest : P) (t : T) (p : P) : T → P := Function.update (fun _ => rest) t p

@[simp] theorem alone_self (rest : P) (t : T) (p : P) : alone rest t p t = p := by
  simp [alone]

theorem alone_of_ne (rest : P) {t u : T} (p : P) (h : u ≠ t) : alone rest t p u = rest := by
  simp [alone, h]

/-- The thread that is away moves. -/
theorem update_alone (rest : P) (t : T) (p p' : P) :
    Function.update (alone rest t p) t p' = alone rest t p' := by
  simp [alone]

/-- The thread comes back. -/
theorem alone_rest (rest : P) (t : T) : alone rest t rest = fun _ => rest := by
  simp [alone]

/-- A thread that is away is the one. -/
theorem eq_of_alone {rest p : P} {t u : T} (h : alone rest t p u ≠ rest) : u = t := by
  by_contra hne
  exact h (alone_of_ne rest p hne)

variable [Fintype T]

/-- The work of all threads, when a thread at `p` has to do `weight p`. -/
def load (weight : P → Nat) (g : T → P) : Nat := ∑ t, weight (g t)

/-- The work after one thread moved. -/
theorem load_update (weight : P → Nat) (g : T → P) (t : T) (p : P) :
    load weight (Function.update g t p) + weight (g t) = load weight g + weight p := by
  have hrest : ∑ u ∈ Finset.univ.erase t, weight (Function.update g t p u) =
      ∑ u ∈ Finset.univ.erase t, weight (g u) :=
    Finset.sum_congr rfl fun u hu => by rw [Function.update_of_ne (Finset.ne_of_mem_erase hu)]
  have hg := Finset.add_sum_erase Finset.univ (fun u => weight (g u)) (Finset.mem_univ t)
  have hu := Finset.add_sum_erase Finset.univ (fun u => weight (Function.update g t p u))
    (Finset.mem_univ t)
  simp only [Function.update_self] at hu
  unfold load
  omega

end Threads

import Mathlib.Data.List.Basic

/-!
# Loops that fill a part of an array

`for j in 0..n: a[start + j] = value(a, j)`, where the value may depend on what the
array holds by then.

* `fill_spec` -- the part holds what is meant for it and the rest is untouched, if each
  value is right when the values before it are;
* `foldl_range_mul` -- a loop in a loop over rows of one length is one loop.
-/

namespace FillLoop

variable {α β : Type}

/-- The loop. -/
def fill (start n : Nat) (value : List α → Nat → α) (a : List α) : List α :=
  (List.range n).foldl (fun a j => a.set (start + j) (value a j)) a

/-- The array holds what is meant for the first `n` places from `start` on, and elsewhere
what it held before. -/
def Filled (start n : Nat) (target : Nat → α) (a b : List α) : Prop :=
  b.length = a.length ∧
    ∀ p, b[p]? = if start ≤ p ∧ p < start + n then some (target (p - start)) else a[p]?

variable {start n : Nat} {value : List α → Nat → α} {target : Nat → α} {a b : List α}

theorem fill_succ (start n : Nat) (value : List α → Nat → α) (a : List α) :
    fill start (n + 1) value a =
      (fill start n value a).set (start + n) (value (fill start n value a) n) := by
  simp [fill, List.range_succ, List.foldl_append]

/-- What is filled already. -/
theorem Filled.inside (h : Filled start n target a b) {j : Nat} (hj : j < n) :
    b[start + j]? = some (target j) := by
  rw [h.2, if_pos (by omega), Nat.add_sub_cancel_left]

/-- What is not filled. -/
theorem Filled.outside (h : Filled start n target a b) {p : Nat} (hp : p < start ∨ start + n ≤ p) :
    b[p]? = a[p]? := by
  rw [h.2, if_neg (by omega)]

/-- **The loop fills its part**, if each value is right when those before it are. -/
theorem fill_spec (hroom : start + n ≤ a.length)
    (hvalue : ∀ j < n, ∀ b, Filled start j target a b → value b j = target j) :
    Filled start n target a (fill start n value a) := by
  induction n with
  | zero => exact ⟨rfl, fun p => by rw [if_neg (by omega)]; rfl⟩
  | succ n ih =>
    have hbefore := ih (by omega) fun j hj => hvalue j (by omega)
    rw [fill_succ, hvalue n (by omega) _ hbefore]
    refine ⟨by rw [List.length_set, hbefore.1], fun p => ?_⟩
    rw [List.getElem?_set]
    by_cases hp : start + n = p
    · subst hp
      rw [if_pos rfl, if_pos (by rw [hbefore.1]; omega), if_pos (by omega), Nat.add_sub_cancel_left]
    · rw [if_neg hp, hbefore.2]
      by_cases hin : start ≤ p ∧ p < start + n
      · rw [if_pos hin, if_pos (by omega)]
      · rw [if_neg hin, if_neg (by omega)]

/-- The array, where what is filled in is a list. -/
theorem Filled.eq_append {before cells after : List α} (h : Filled before.length cells.length target
    (before ++ after) b) (htarget : ∀ j, (hj : j < cells.length) → target j = cells[j]) :
    b = before ++ cells ++ after.drop cells.length := by
  refine List.ext_getElem? fun p => ?_
  rw [h.2]
  by_cases hp : p < before.length
  · rw [if_neg (by omega), List.append_assoc, List.getElem?_append_left hp,
      List.getElem?_append_left hp]
  · by_cases hin : p < before.length + cells.length
    · rw [if_pos (by omega), htarget _ (by omega), List.append_assoc,
        List.getElem?_append_right (by omega), List.getElem?_append_left (by omega),
        List.getElem?_eq_getElem (by omega)]
    · rw [if_neg (by omega), List.append_assoc, List.getElem?_append_right (by omega),
        List.getElem?_append_right (by omega), List.getElem?_append_right (by omega),
        List.getElem?_drop]
      congr 1
      omega

/-- A loop over rows of `k`. -/
theorem foldl_range_mul (f : β → Nat → β) (n k : Nat) (b : β) :
    (List.range (n * k)).foldl f b =
      (List.range n).foldl (fun b x => (List.range k).foldl (fun b i => f b (x * k + i)) b) b := by
  induction n with
  | zero => simp
  | succ n ih =>
    rw [Nat.succ_mul, List.range_add, List.foldl_append, ih, List.range_succ, List.foldl_append,
      List.foldl_map]
    rfl

/-- Two loops in each other fill like one. -/
theorem foldl_set_eq_fill (start n k : Nat) (value : List α → Nat → Nat → α) (a : List α)
    (hk : 0 < k) :
    (List.range n).foldl (fun a x => (List.range k).foldl
        (fun a i => a.set (start + (x * k + i)) (value a x i)) a) a =
      fill start (n * k) (fun a j => value a (j / k) (j % k)) a := by
  rw [fill, foldl_range_mul]
  congr 1
  funext a x
  have hinner : ∀ l : List Nat, (∀ i ∈ l, i < k) → ∀ a : List α,
      l.foldl (fun a i => a.set (start + (x * k + i)) (value a x i)) a =
        l.foldl (fun a i => a.set (start + (x * k + i))
          (value a ((x * k + i) / k) ((x * k + i) % k))) a := by
    intro l hl
    induction l with
    | nil => exact fun _ => rfl
    | cons i l ih =>
      intro a
      have hi : i < k := hl i (by simp)
      have hdiv : (x * k + i) / k = x := by
        rw [Nat.add_comm, Nat.add_mul_div_right _ _ hk, Nat.div_eq_of_lt hi, Nat.zero_add]
      have hmod : (x * k + i) % k = i := by
        rw [Nat.mul_comm, Nat.mul_add_mod, Nat.mod_eq_of_lt hi]
      rw [List.foldl_cons, List.foldl_cons, hdiv, hmod]
      exact ih (fun j hj => hl j (by simp [hj])) _
  exact hinner _ (fun i hi => List.mem_range.mp hi) a

end FillLoop

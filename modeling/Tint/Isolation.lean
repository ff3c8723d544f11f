import Tint.Transition
import Mathlib.Logic.Function.Basic

/-!
# Instances that do not see each other

Several instances of one component act in turn on a common state, and each action is
one of an instance.  The instances are isolated along a run if each sees at every time
what it would see had only its own actions been taken.

`Pair` takes both kinds of runs in step: the common one, and one for each instance.

* `isolated_iff_meets` -- isolation is exact for a condition on the steps, if it is so
  for one step of the pair.
-/

namespace Isolation

open Transition

/-- A component: how an action changes the state, whose action it is, and what an
instance sees of a state. -/
structure Component (σ α ν : Type*) where
  start : σ
  step : σ → α → σ
  owner : α → Nat
  view : σ → Nat → ν

variable {σ α ν : Type*} (c : Component σ α ν)

/-- The state after some actions. -/
def Component.run (as : List α) : σ := as.foldl c.step c.start

/-- The state after those of an instance only. -/
def Component.alone (i : Nat) (as : List α) : σ := c.run (as.filter fun a => c.owner a = i)

/-- After each part of the run each instance sees what it would see alone. -/
def Isolated (as : List α) : Prop :=
  ∀ before, before <+: as → ∀ i, c.view (c.run before) i = c.view (c.alone i before) i

/-- The steps of the component as a system in which every action is enabled. -/
def Component.next (s : σ) (a : α) : Option σ := some (c.step s a)

/-- The common state, and that of each instance alone. -/
structure Pair (σ : Type*) where
  common : σ
  alone : Nat → σ

namespace Pair

def start : Pair σ := ⟨c.start, fun _ => c.start⟩

def step (p : Pair σ) (a : α) : Pair σ :=
  ⟨c.step p.common a,
    Function.update p.alone (c.owner a) (c.step (p.alone (c.owner a)) a)⟩

/-- Each instance sees what it would see alone. -/
def Agrees (p : Pair σ) : Prop := ∀ i, c.view p.common i = c.view (p.alone i) i

variable {c}

theorem step_alone_self (p : Pair σ) (a : α) :
    (step c p a).alone (c.owner a) = c.step (p.alone (c.owner a)) a :=
  Function.update_self ..

theorem step_alone_of_ne (p : Pair σ) {a : α} {i : Nat} (h : i ≠ c.owner a) :
    (step c p a).alone i = p.alone i :=
  Function.update_of_ne h ..

/-- What each instance's own actions keep alone is kept by all. -/
theorem alone_step {A : Nat → σ → Prop} {p : Pair σ} {a : α}
    (hA : ∀ s, A (c.owner a) s → A (c.owner a) (c.step s a)) (h : ∀ i, A i (p.alone i)) :
    ∀ i, A i ((step c p a).alone i) := by
  intro i
  by_cases hi : i = c.owner a
  · subst hi
    rw [step_alone_self]
    exact hA _ (h (c.owner a))
  · rw [step_alone_of_ne p hi]
    exact h i

/-- The pair after some actions. -/
theorem foldl_step (as : List α) (p : Pair σ) :
    as.foldl (step c) p = ⟨as.foldl c.step p.common, fun i =>
      (as.filter fun a => c.owner a = i).foldl c.step (p.alone i)⟩ := by
  induction as generalizing p with
  | nil => rfl
  | cons a as ih =>
      rw [List.foldl_cons, ih]
      congr 1
      funext i
      by_cases hi : c.owner a = i
      · subst hi
        have hown : decide (c.owner a = c.owner a) = true := decide_eq_true rfl
        rw [step_alone_self, List.filter_cons, if_pos hown, List.foldl_cons]
      · have hne : i ≠ c.owner a := fun h => hi h.symm
        have hother : ¬ decide (c.owner a = i) = true := by simpa using hi
        rw [step_alone_of_ne p hne, List.filter_cons, if_neg hother]

end Pair

variable {c}

/-- After a step the instance that acts and the others agree. -/
theorem agrees_step (p : Pair σ) (a : α) : Pair.Agrees c (Pair.step c p a) ↔
    c.view (c.step p.common a) (c.owner a) = c.view (c.step (p.alone (c.owner a)) a) (c.owner a) ∧
      ∀ i, i ≠ c.owner a → c.view (c.step p.common a) i = c.view (p.alone i) i := by
  constructor
  · intro h
    refine ⟨?_, ?_⟩
    · have hown := h (c.owner a)
      rwa [Pair.step_alone_self] at hown
    · intro i hi
      have hother := h i
      rwa [Pair.step_alone_of_ne p hi] at hother
  · intro ⟨hown, hothers⟩ i
    by_cases hi : i = c.owner a
    · subst hi
      rw [Pair.step_alone_self]
      exact hown
    · rw [Pair.step_alone_of_ne p hi]
      exact hothers i hi

/-- A step that moves neither the common state nor the acting instance's own is seen by
no instance. -/
theorem agrees_of_still {p : Pair σ} {a : α} (h : Pair.Agrees c p)
    (hcommon : c.step p.common a = p.common)
    (halone : c.step (p.alone (c.owner a)) a = p.alone (c.owner a)) :
    Pair.Agrees c (Pair.step c p a) := by
  rw [agrees_step, hcommon, halone]
  exact ⟨h (c.owner a), fun i _ => h i⟩

/-- What is seen of an instance that is there, as a report on what is its own and what
is shared, tells both. -/
theorem map_report_iff {γ μ : Type*} {report : γ → μ → ν}
    (hreport : ∀ g h l m, report g l = report h m → g = h ∧ l = m) {g h : γ} {l m : Option μ} :
    l.map (report g) = m.map (report h) ↔ l = m ∧ (l ≠ none → g = h) := by
  cases l with
  | none => cases m <;> simp
  | some l =>
      cases m with
      | none => simp
      | some m =>
          simp only [Option.map_some, Option.some.injEq, ne_eq, reduceCtorEq, not_false_eq_true,
            true_imp_iff]
          constructor
          · intro heq
            obtain ⟨hg, hl⟩ := hreport g h l m heq
            exact ⟨hl, hg⟩
          · intro ⟨hl, hg⟩
            rw [hl, hg]

/-- What holds of the pair all along is what holds after each part of the run. -/
theorem throughout_pair_iff (I : Pair σ → Prop) (as : List α) (p : Pair σ) :
    Throughout (fun p a => some (Pair.step c p a)) I p as ↔
      ∀ before, before <+: as → I (before.foldl (Pair.step c) p) := by
  induction as generalizing p with
  | nil =>
      constructor
      · intro h before hbefore
        rw [List.prefix_nil.mp hbefore]
        exact h
      · exact fun h => h [] (List.prefix_refl _)
  | cons a as ih =>
      simp only [Throughout, Option.some.injEq, forall_eq', ih]
      constructor
      · intro h before hbefore
        obtain ⟨hp, hrest⟩ := h
        cases before with
        | nil => exact hp
        | cons b before =>
            obtain ⟨rfl, htail⟩ := List.cons_prefix_cons.mp hbefore
            exact hrest before htail
      · intro h
        refine ⟨h [] (List.nil_prefix), ?_⟩
        intro before hbefore
        exact h (a :: before) (List.cons_prefix_cons.mpr ⟨rfl, hbefore⟩)

/-- The steps of the pair meet what those of the common run meet. -/
theorem meets_pair_iff (ok : σ → α → Prop) (as : List α) (p : Pair σ) :
    Meets (fun p a => some (Pair.step c p a)) (fun p a => ok p.common a) p as ↔
      Meets c.next ok p.common as := by
  induction as generalizing p with
  | nil => exact Iff.rfl
  | cons a as ih => simp only [Meets, Component.next, ih]; rfl

/-- **Isolation.**  If, where `J` holds, a step of the pair keeps what the instances
see alike exactly when it meets the condition, and keeps `J` then, the instances are
isolated along a run exactly when all its steps meet the condition. -/
theorem isolated_iff_meets {ok : σ → α → Prop} {J : Pair σ → Prop}
    (hkeeps : ∀ p a, J p → Pair.Agrees c p → Pair.Agrees c (Pair.step c p a) →
      J (Pair.step c p a))
    (hstep : ∀ p a, J p → Pair.Agrees c p →
      (Pair.Agrees c (Pair.step c p a) ↔ ok p.common a))
    (hJ : J (Pair.start c)) (as : List α) :
    Isolated c as ↔ Meets c.next ok c.start as := by
  have hrun : Meets (fun p a => some (Pair.step c p a)) (fun _ _ => True) (Pair.start c) as :=
    meets_of_total (fun _ _ => rfl) _ as
  have hagrees : Pair.Agrees c (Pair.start c) := fun _ => rfl
  have hexact := @throughout_iff_meets_of_kept (Pair σ) α (fun p a => some (Pair.step c p a))
    (fun p a => ok p.common a) (Pair.Agrees c) J
    (fun p a t h hp ht hstep => by
      obtain rfl := Option.some.inj hstep
      exact hkeeps p a h hp ht)
    (fun p a t h hp hstep' => by
      obtain rfl := Option.some.inj hstep'
      exact hstep p a h hp)
    (Pair.start c) hJ hagrees as hrun
  rw [meets_pair_iff, throughout_pair_iff] at hexact
  refine Iff.trans ?_ hexact
  simp only [Isolated, Pair.foldl_step]
  rfl

end Isolation

import Mathlib.Logic.Basic
import Mathlib.Data.List.Basic

/-!
# Runs of guarded transition systems

A system of several parties is a state type `σ`, an action type `α` naming who
moves and how, and a partial function `step`: an action that is not enabled in
a state has no successor there.  An interleaving is a list of actions.

`Reaches` follows only the steps that meet a condition `ok` on the state before
the step, so `Reaches step (fun _ _ => True)` are all reachable states, and a
theorem about `Reaches step ok` speaks about every run whose steps all meet
`ok`.  `Settles` is the liveness half: the actions that the parties owe, once
started, run dry after boundedly many steps, and what then holds.
-/

namespace Transition

variable {σ α : Type*}

/-- Take the actions in turn; an action that is not enabled blocks the run. -/
def run (step : σ → α → Option σ) : σ → List α → Option σ
  | s, [] => some s
  | s, a :: as => (step s a).bind fun t => run step t as

/-- The run takes place and each of its actions meets `ok` where it is taken. -/
def Meets (step : σ → α → Option σ) (ok : σ → α → Prop) : σ → List α → Prop
  | _, [] => True
  | s, a :: as =>
      match step s a with
      | some t => ok s a ∧ Meets step ok t as
      | none => False

instance decidableMeets (step : σ → α → Option σ) (ok : σ → α → Prop)
    [∀ s a, Decidable (ok s a)] : ∀ s as, Decidable (Meets step ok s as)
  | _, [] => isTrue trivial
  | s, a :: as =>
      match h : step s a with
      | some t =>
          match decidableMeets step ok t as with
          | isTrue ht =>
              if ho : ok s a then isTrue (by simp only [Meets, h]; exact ⟨ho, ht⟩)
              else isFalse (by simp only [Meets, h]; exact fun hc => ho hc.1)
          | isFalse ht => isFalse (by simp only [Meets, h]; exact fun hc => ht hc.2)
      | none => isFalse (by simp [Meets, h])

/-- The states reached from `s₀` by steps that meet `ok`. -/
inductive Reaches (step : σ → α → Option σ) (ok : σ → α → Prop) (s₀ : σ) : σ → Prop
  | start : Reaches step ok s₀ s₀
  | next {s t : σ} {a : α} (before : Reaches step ok s₀ s) (meets : ok s a)
      (taken : step s a = some t) : Reaches step ok s₀ t

variable {step : σ → α → Option σ} {ok : σ → α → Prop}

/-- **Invariant rule.**  What holds at the start and survives each step that
meets the condition holds wherever such steps lead. -/
theorem Reaches.invariant {s₀ s : σ} (h : Reaches step ok s₀ s) (I : σ → Prop)
    (hstart : I s₀)
    (hstep : ∀ s a t, I s → ok s a → step s a = some t → I t) : I s := by
  induction h with
  | start => exact hstart
  | next _ meets taken ih => exact hstep _ _ _ ih meets taken

/-- Reaching composes. -/
theorem Reaches.trans {s₀ s t : σ} (h : Reaches step ok s₀ s)
    (h' : Reaches step ok s t) : Reaches step ok s₀ t := by
  induction h' with
  | start => exact h
  | next _ meets taken ih => exact ih.next meets taken

/-- Fewer conditions reach more. -/
theorem Reaches.weaken {s t : σ} (h : Reaches step ok s t) {ok' : σ → α → Prop}
    (himp : ∀ s a, ok s a → ok' s a) : Reaches step ok' s t := by
  induction h with
  | start => exact Reaches.start
  | next _ meets taken ih => exact ih.next (himp _ _ meets) taken

/-- A computed run whose actions meet the condition reaches its last state. -/
theorem reaches_of_run {s t : σ} (as : List α)
    (hrun : run step s as = some t) (hmeets : Meets step ok s as) :
    Reaches step ok s t := by
  induction as generalizing s with
  | nil =>
      obtain rfl : s = t := Option.some.inj hrun
      exact Reaches.start
  | cons a as ih =>
      cases hs : step s a with
      | none => simp [Meets, hs] at hmeets
      | some u =>
          simp only [Meets, hs] at hmeets
          have htail : Reaches step ok u t := ih (by simpa [run, hs] using hrun) hmeets.2
          exact (Reaches.start.next hmeets.1 hs).trans htail

/-- Without a condition every computed run is a run. -/
theorem reaches_of_run_any {s t : σ} (as : List α) (hrun : run step s as = some t) :
    Reaches step (fun _ _ => True) s t := by
  induction as generalizing s with
  | nil =>
      obtain rfl : s = t := Option.some.inj hrun
      exact Reaches.start
  | cons a as ih =>
      obtain ⟨u, hu, ht⟩ := Option.bind_eq_some_iff.mp hrun
      exact (Reaches.start.next trivial hu).trans (ih ht)

/-- A run in two parts. -/
theorem run_append (s : σ) (as bs : List α) :
    run step s (as ++ bs) = (run step s as).bind fun t => run step t bs := by
  induction as generalizing s with
  | nil => rfl
  | cons a as ih =>
      rw [List.cons_append, run, run, Option.bind_assoc]
      exact congrArg _ (funext fun t => ih t)

theorem meets_append {s t : σ} {as : List α} (hrun : run step s as = some t) (bs : List α) :
    Meets step ok s (as ++ bs) ↔ Meets step ok s as ∧ Meets step ok t bs := by
  induction as generalizing s with
  | nil =>
      obtain rfl : s = t := Option.some.inj hrun
      exact (and_iff_right trivial).symm
  | cons a as ih =>
      obtain ⟨u, hu, ht⟩ := Option.bind_eq_some_iff.mp hrun
      simp only [List.cons_append, Meets, hu, ih ht, and_assoc]

/-- `I` holds in every state of the run. -/
def Throughout (step : σ → α → Option σ) (I : σ → Prop) : σ → List α → Prop
  | s, [] => I s
  | s, a :: as => I s ∧ ∀ t, step s a = some t → Throughout step I t as

/-- **Exactness rule.**  If, where `J` holds, a step keeps `I` exactly when it
meets the condition, and every step that keeps `I` keeps `J`, then `I` holds all
along a run exactly when all its steps meet the condition. -/
theorem throughout_iff_meets_of_kept {I J : σ → Prop}
    (hkeeps : ∀ s a t, J s → I s → I t → step s a = some t → J t)
    (hstep : ∀ s a t, J s → I s → step s a = some t → (I t ↔ ok s a)) {s : σ} (hJ : J s)
    (hs : I s) {as : List α} (hrun : Meets step (fun _ _ => True) s as) :
    Throughout step I s as ↔ Meets step ok s as := by
  induction as generalizing s with
  | nil => exact ⟨fun _ => trivial, fun _ => hs⟩
  | cons a as ih =>
      cases ha : step s a with
      | none => simp [Meets, ha] at hrun
      | some t =>
          simp only [Meets, ha, true_and] at hrun
          have hexact := hstep s a t hJ hs ha
          have hstart : Throughout step I t as → I t := by
            cases as with
            | nil => exact id
            | cons b bs => exact And.left
          simp only [Throughout, Meets, ha, Option.some.injEq, forall_eq']
          constructor
          · intro ⟨_, hrest⟩
            have ht := hstart hrest
            have hJt := hkeeps s a t hJ hs ht ha
            exact ⟨hexact.mp ht, (ih hJt ht hrun).mp hrest⟩
          · intro ⟨hok, hrest⟩
            have ht := hexact.mpr hok
            have hJt := hkeeps s a t hJ hs ht ha
            exact ⟨hs, (ih hJt ht hrun).mpr hrest⟩

/-- The exactness rule where every step keeps `J`. -/
theorem throughout_iff_meets {I J : σ → Prop}
    (hkeeps : ∀ s a t, J s → step s a = some t → J t)
    (hstep : ∀ s a t, J s → I s → step s a = some t → (I t ↔ ok s a)) {s : σ} (hJ : J s)
    (hs : I s) {as : List α} (hrun : Meets step (fun _ _ => True) s as) :
    Throughout step I s as ↔ Meets step ok s as :=
  throughout_iff_meets_of_kept (fun s a t h _ _ => hkeeps s a t h) hstep hJ hs hrun

/-- Conditions that agree where `J` holds, which need only be kept by steps that meet them. -/
theorem meets_congr_of_kept {ok' : σ → α → Prop} {J : σ → Prop}
    (hkeeps : ∀ s a t, J s → ok' s a → step s a = some t → J t)
    (hagree : ∀ s a t, J s → step s a = some t → (ok s a ↔ ok' s a)) {s : σ} (hJ : J s)
    (as : List α) : Meets step ok s as ↔ Meets step ok' s as := by
  induction as generalizing s with
  | nil => exact Iff.rfl
  | cons a as ih =>
      cases ha : step s a with
      | none => simp only [Meets, ha]
      | some t =>
          simp only [Meets, ha, hagree s a t hJ ha]
          exact and_congr_right fun hok => ih (hkeeps s a t hJ hok ha)

/-- Conditions that agree where `J` holds are met by the same runs. -/
theorem meets_congr {ok' : σ → α → Prop} {J : σ → Prop}
    (hkeeps : ∀ s a t, J s → step s a = some t → J t)
    (hagree : ∀ s a t, J s → step s a = some t → (ok s a ↔ ok' s a)) {s : σ} (hJ : J s)
    (as : List α) : Meets step ok s as ↔ Meets step ok' s as :=
  meets_congr_of_kept (fun s a t h _ => hkeeps s a t h) hagree hJ as

/-- A stronger condition that keeps `J`, where `J` holds. -/
theorem meets_imp_of_kept {ok' : σ → α → Prop} {J : σ → Prop}
    (hkeeps : ∀ s a t, J s → ok' s a → step s a = some t → J t)
    (himp : ∀ s a, J s → ok' s a → ok s a) {s : σ} (hJ : J s) {as : List α}
    (h : Meets step ok' s as) : Meets step ok s as := by
  induction as generalizing s with
  | nil => trivial
  | cons a as ih =>
      cases ha : step s a with
      | none => simp only [Meets, ha] at h
      | some t =>
          simp only [Meets, ha] at h ⊢
          exact ⟨himp s a hJ h.1, ih (hkeeps s a t hJ h.1 ha) h.2⟩

/-- What every step keeps and what excludes `done` excludes it in the end. -/
theorem not_done_of_stuck {right : σ → α → Prop} {done K : σ → Prop}
    (hstuck : ∀ s a t, K s → step s a = some t → K t) (hnot : ∀ s, K s → ¬ done s) {s : σ}
    (hs : K s) (as : List α) :
    ¬ (Meets step right s as ∧ ∀ t, run step s as = some t → done t) := by
  induction as generalizing s with
  | nil => exact fun hend => hnot s hs (hend.2 s rfl)
  | cons a as ih =>
      intro hend
      obtain ⟨hmeets, hend⟩ := hend
      cases ha : step s a with
      | none => simp only [Meets, ha] at hmeets
      | some t =>
          simp only [Meets, run, ha, Option.bind_some] at hmeets hend
          exact ih (hstuck s a t hs ha) ⟨hmeets.2, hend⟩

/-- **Exactness rule for what holds in the end.**  Where `J` holds, a step that meets `ok` is
right and keeps `J`, and `done` holds; a right step that does not meet `ok` leads to `K`,
which every step keeps and which excludes `done`. -/
theorem meets_and_done_iff {right : σ → α → Prop} {done J K : σ → Prop}
    (hright : ∀ s a t, J s → ok s a → step s a = some t → right s a)
    (hkeeps : ∀ s a t, J s → ok s a → step s a = some t → J t)
    (hdone : ∀ s, J s → done s)
    (hbad : ∀ s a t, J s → ¬ ok s a → right s a → step s a = some t → K t)
    (hstuck : ∀ s a t, K s → step s a = some t → K t)
    (hnot : ∀ s, K s → ¬ done s) {s : σ} (hJ : J s) (as : List α) :
    (Meets step right s as ∧ ∀ t, run step s as = some t → done t) ↔ Meets step ok s as := by
  induction as generalizing s with
  | nil =>
      refine iff_of_true ⟨trivial, fun t ht => ?_⟩ trivial
      obtain rfl : s = t := Option.some.inj ht
      exact hdone s hJ
  | cons a as ih =>
      cases ha : step s a with
      | none => simp only [Meets, ha, false_and]
      | some t =>
          simp only [Meets, run, ha, Option.bind_some, and_assoc]
          by_cases hok : ok s a
          · have hboth : right s a ↔ ok s a := iff_of_true (hright s a t hJ hok ha) hok
            exact and_congr hboth (ih (hkeeps s a t hJ hok ha))
          · refine iff_of_false (fun hend => ?_) fun hmeets => hok hmeets.1
            have hK := hbad s a t hJ hok hend.1 ha
            exact not_done_of_stuck hstuck hnot hK as hend.2

/-- Where every action is enabled, every sequence of actions is a run. -/
theorem meets_of_total (htotal : ∀ s a, (step s a).isSome) (s : σ) (as : List α) :
    Meets step (fun _ _ => True) s as := by
  induction as generalizing s with
  | nil => trivial
  | cons a as ih =>
      obtain ⟨t, ht⟩ := Option.isSome_iff_exists.mp (htotal s a)
      simp only [Meets, ht, true_and]
      exact ih t

/-- No owed action is enabled: every party waits for a new request. -/
def AtRest (step : σ → α → Option σ) (owed : α → Prop) (s : σ) : Prop :=
  ∀ a, owed a → step s a = none

/-- The owed actions from `s` come to an end, and where they do `done` holds:
there is a bound on how many can be taken in any order, they can be taken until
none is left, and a state in which none is enabled any more satisfies `done`. -/
structure Settles (step : σ → α → Option σ) (owed : α → Prop) (done : σ → Prop)
    (s : σ) : Prop where
  bounded : ∃ n, ∀ as t, (∀ a ∈ as, owed a) → run step s as = some t → as.length ≤ n
  comes_to_rest : ∃ as t, (∀ a ∈ as, owed a) ∧ run step s as = some t ∧
    AtRest step owed t
  done_at_rest : ∀ as t, (∀ a ∈ as, owed a) → run step s as = some t →
    AtRest step owed t → done t

/-- A measure that every owed action lowers bounds the owed runs. -/
theorem owed_run_length_le {owed : α → Prop} (μ : σ → Nat)
    (hμ : ∀ s a t, owed a → step s a = some t → μ t < μ s)
    {as : List α} {s t : σ} (howed : ∀ a ∈ as, owed a)
    (hrun : run step s as = some t) : as.length + μ t ≤ μ s := by
  induction as generalizing s with
  | nil =>
      obtain rfl : s = t := Option.some.inj hrun
      simp
  | cons a as ih =>
      obtain ⟨u, hu, ht⟩ := Option.bind_eq_some_iff.mp hrun
      have hdrop := hμ s a u (howed a List.mem_cons_self) hu
      have htail := ih (fun b hb => howed b (List.mem_cons_of_mem _ hb)) ht
      simp only [List.length_cons]
      omega

/-- Owed actions that always meet the condition stay among the reached states. -/
theorem Reaches.owed_run {owed : α → Prop} {s₀ s t : σ} {as : List α}
    (h : Reaches step ok s₀ s) (hok : ∀ s a, owed a → ok s a)
    (howed : ∀ a ∈ as, owed a) (hrun : run step s as = some t) :
    Reaches step ok s₀ t := by
  induction as generalizing s with
  | nil =>
      obtain rfl : s = t := Option.some.inj hrun
      exact h
  | cons a as ih =>
      obtain ⟨u, hu, ht⟩ := Option.bind_eq_some_iff.mp hrun
      exact ih (h.next (hok s a (howed a List.mem_cons_self)) hu)
        (fun b hb => howed b (List.mem_cons_of_mem _ hb)) ht

/-- The owed actions can always be run until none is left. -/
theorem exists_run_to_rest {owed : α → Prop} (μ : σ → Nat)
    (hμ : ∀ s a t, owed a → step s a = some t → μ t < μ s) (s : σ) :
    ∃ as t, (∀ a ∈ as, owed a) ∧ run step s as = some t ∧ AtRest step owed t := by
  induction hn : μ s using Nat.strongRecOn generalizing s with
  | ind n ih =>
      by_cases hrest : AtRest step owed s
      · exact ⟨[], s, by simp, rfl, hrest⟩
      · obtain ⟨a, ha, hstep⟩ : ∃ a, owed a ∧ step s a ≠ none := by
          simpa [AtRest] using hrest
        obtain ⟨u, hu⟩ := Option.ne_none_iff_exists'.mp hstep
        have hlt : μ u < n := hn ▸ hμ s a u ha hu
        obtain ⟨as, t, howed, hrun, ht⟩ := ih (μ u) hlt u rfl
        refine ⟨a :: as, t, ?_, by simp [run, hu, hrun], ht⟩
        intro b hb
        rcases List.mem_cons.mp hb with rfl | hb
        · exact ha
        · exact howed b hb

/-- **Settling rule.**  A measure that every owed action lowers, and `done` in
every reached state at rest. -/
theorem Reaches.settles {owed : α → Prop} {done : σ → Prop} {s₀ s : σ}
    (h : Reaches step ok s₀ s) (hok : ∀ s a, owed a → ok s a) (μ : σ → Nat)
    (hμ : ∀ s a t, owed a → step s a = some t → μ t < μ s)
    (hdone : ∀ t, Reaches step ok s₀ t → AtRest step owed t → done t) :
    Settles step owed done s where
  bounded := ⟨μ s, fun _ _ howed hrun =>
    Nat.le_trans (Nat.le_add_right _ _) (owed_run_length_le μ hμ howed hrun)⟩
  comes_to_rest := exists_run_to_rest μ hμ s
  done_at_rest := fun _ t howed hrun hrest =>
    hdone t (h.owed_run hok howed hrun) hrest

end Transition

import Tint.Layout

/-!
# The setters of the layout properties and their listeners

Each assignment of a value registers a pair of listeners of `parent-attached` and
`parent-dettached`.  The first assigns the value again, which registers another
pair.  The second takes the constraint off the parent; on Windows the constructor
has registered a listener before it, which has set the parent to null by then.

* `removeChild_detaches_iff` -- on Windows `removeChild` returns, and the
  constraints are gone, exactly when there is no pair;
* `listeners_bounded_iff` -- a property has at most one pair all along a run, if and
  only if no step registers a second one;
* `guard_iff` -- a direction never has all three of its properties set, what is
  refused changes nothing, and null is accepted where the other two are not set and, on
  Windows, a constraint that goes is on a parent that can remove it.
-/

namespace Layout

open Transition

variable {C : Type*} [DecidableEq C] {pf : Platform} {own : C → Bool} {solver : C → Solver}
  {s t : State C}

/-! ## What the setter does -/

/-- The native calls leave the control as it is. -/
structure Same (s t : State C) : Prop where
  user : t.user = s.user
  parent : t.parent = s.parent
  listeners : t.listeners = s.listeners
  exited : t.exited = s.exited
  constraints : t.constraints = s.constraints

omit [DecidableEq C] in
/-- Sameness goes through. -/
theorem Same.trans {u : State C} (h : Same s t) (h' : Same t u) : Same s u where
  user := h'.user.trans h.user
  parent := h'.parent.trans h.parent
  listeners := h'.listeners.trans h.listeners
  exited := h'.exited.trans h.exited
  constraints := h'.constraints.trans h.constraints

/-- `addLayoutConstraint` makes and installs a constraint at most. -/
theorem same_addLayoutConstraint (s : State C) (p : C) (lo : LayoutObject C) :
    Same s (addLayoutConstraint solver s p lo).1 := by
  unfold addLayoutConstraint
  split <;> exact ⟨rfl, rfl, rfl, rfl, rfl⟩

/-- Taking a constraint off a container changes nothing else. -/
theorem same_uninstall (s : State C) (p : C) (k : Option Nat) : Same s (s.uninstall p k) := by
  cases k <;> exact ⟨rfl, rfl, rfl, rfl, rfl⟩

/-- `removeLayoutConstraint` uninstalls at most. -/
theorem same_removeLayoutConstraint (s : State C) (k : Option Nat) :
    Same s (removeLayoutConstraint pf solver s k).state := by
  unfold removeLayoutConstraint
  split
  · dsimp only
    split
    · exact ⟨rfl, rfl, rfl, rfl, rfl⟩
    · exact same_uninstall s _ k
  · split
    · exact same_uninstall s _ k
    · exact ⟨rfl, rfl, rfl, rfl, rfl⟩
  · exact ⟨rfl, rfl, rfl, rfl, rfl⟩
  · exact ⟨rfl, rfl, rfl, rfl, rfl⟩

/-- So does `changeLayoutConstraint`. -/
theorem same_changeLayoutConstraint (s : State C) (p : C) (k : Nat) (lo : LayoutObject C) :
    Same s (changeLayoutConstraint pf solver s p k lo).1.state := by
  unfold changeLayoutConstraint
  split
  · exact ⟨rfl, rfl, rfl, rfl, rfl⟩
  · split
    · have hremove := @same_removeLayoutConstraint C _ pf solver s (some k)
      generalize removeLayoutConstraint pf solver s (some k) = o at hremove ⊢
      obtain ⟨u, e⟩ := o
      cases e with
      | none => exact hremove.trans (same_addLayoutConstraint u p lo)
      | some message => exact hremove
    · split <;> exact ⟨rfl, rfl, rfl, rfl, rfl⟩

/-- An assignment that is not refused. -/
structure Assigned (s : State C) (n : Name) (value : Option (Value C)) (t : State C) : Prop where
  user : t.user = Function.update s.user n value
  parent : t.parent = s.parent
  exited : t.exited = s.exited
  listeners : t.listeners = s.listeners ++ value.toList.map fun _ => n
  others : ∀ m, m ≠ n → t.constraints m = s.constraints m
  detached : s.parent = none → s.constraints n = none → t.constraints n = none
  idle : value = none → s.constraints n = none →
    t.constraints n = none ∧ t.installed = s.installed

/-- What an assignment does that is not refused, also where it throws in the end. -/
theorem assigned {n : Name} {value : Option (Value C)} (hok : refused pf s n = false) :
    Assigned s n value (assign pf own solver s n value).state := by
  simp only [assign, hok, Bool.false_eq_true, if_false]
  cases value with
  | none =>
      cases hk : s.constraints n with
      | none => constructor <;> simp [hk]
      | some k =>
          dsimp only
          have hsame := @same_removeLayoutConstraint C _ pf solver
            { s with user := Function.update s.user n none } (some k)
          generalize removeLayoutConstraint pf solver
            { s with user := Function.update s.user n none } (some k) = o at hsame ⊢
          obtain ⟨u, e⟩ := o
          cases e with
          | none =>
              constructor
              · exact hsame.user
              · exact hsame.parent
              · exact hsame.exited
              · simpa using hsame.listeners
              · intro m hm
                simp only [Function.update_of_ne hm]
                exact congrFun hsame.constraints m
              · simp [hk]
              · simp [hk]
          | some message =>
              constructor
              · exact hsame.user
              · exact hsame.parent
              · exact hsame.exited
              · simpa using hsame.listeners
              · exact fun m _ => congrFun hsame.constraints m
              · simp [hk]
              · simp [hk]
  | some v =>
      cases hp : s.parent with
      | none => constructor <;> simp [hp]
      | some p =>
          have hcalled : ∀ called : Outcome C × Option Nat, Same { s with
              user := Function.update s.user n (some v)
              listeners := s.listeners ++ [n] } called.1.state →
              Assigned s n (some v) (storeConstraint n called).state := by
            rintro ⟨⟨u, e⟩, k⟩ hsame
            cases e with
            | none =>
                simp only [storeConstraint]
                constructor
                · exact hsame.user
                · exact hsame.parent
                · exact hsame.exited
                · exact hsame.listeners
                · intro m hm
                  simp only [Function.update_of_ne hm]
                  exact congrFun hsame.constraints m
                · simp [hp]
                · simp
            | some message =>
                constructor
                · exact hsame.user
                · exact hsame.parent
                · exact hsame.exited
                · exact hsame.listeners
                · exact fun m _ => congrFun hsame.constraints m
                · simp [hp]
                · simp
          cases hk : s.constraints n with
          | none => simpa [hp] using hcalled (⟨_, none⟩, _) (same_addLayoutConstraint _ p _)
          | some k => simpa [hp] using hcalled _ (same_changeLayoutConstraint _ p k _)

/-- Beside a refusal, an assignment throws only where a constraint is left over on a
control without a parent, and where one has to be removed that the parent cannot remove. -/
theorem assign_returns_iff {n : Name} {value : Option (Value C)} (hok : refused pf s n = false)
    (h : pf = .win → s.parent = none → s.constraints n = none) :
    (assign pf own solver s n value).error = none ↔ ¬ Unremovable pf own solver s n value := by
  cases hp : s.parent with
  | none =>
      have hreturns : (assign pf own solver s n value).error = none := by
        simp only [assign, hok, Bool.false_eq_true, if_false]
        cases value with
        | some v => simp [hp]
        | none =>
            cases hk : s.constraints n with
            | none => simp
            | some k =>
                cases pf with
                | mac => simp [removeLayoutConstraint, hp]
                | win => simp [h rfl hp] at hk
      refine iff_of_true hreturns ?_
      rintro ⟨-, q, -, hq, -⟩
      simp [hp] at hq
  | some p =>
      cases hk : s.constraints n with
      | none =>
          have hreturns : (assign pf own solver s n value).error = none := by
            simp only [assign, hok, Bool.false_eq_true, if_false]
            cases value <;> simp [hp, hk, storeConstraint]
          refine iff_of_true hreturns ?_
          rintro ⟨-, -, k, -, hk', -⟩
          simp [hk] at hk'
      | some k =>
          have hiff : Unremovable pf own solver s n value ↔ pf = .win ∧ solver p ≠ .view ∧
              ∀ v, value = some v → Reinstalls (s.heap k) (layoutObject pf own n v p) := by
            simp [Unremovable, hp, hk]
          rw [hiff]
          simp only [assign, hok, Bool.false_eq_true, if_false]
          cases value with
          | none =>
              cases pf <;> by_cases hview : solver p = .view <;>
                simp [hp, hk, removeLayoutConstraint, hview]
          | some v =>
              by_cases hre : Reinstalls (s.heap k) (layoutObject pf own n v p)
              · cases pf <;> by_cases hview : solver p = .view <;>
                  by_cases hnobody : solver p = .nobody <;>
                    simp_all [storeConstraint, changeLayoutConstraint, removeLayoutConstraint]
              · cases pf <;> by_cases hnobody : solver p = .nobody <;>
                  simp [hp, hk, storeConstraint, changeLayoutConstraint, hre, hnobody]

/-! ## What holds in every run -/

/-- No direction has all three of its properties set. -/
def Balanced (user : Name → Option (Value C)) : Prop :=
  (user .left = none ∨ user .right = none ∨ user .width = none) ∧
    (user .top = none ∨ user .bottom = none ∨ user .height = none)

omit [DecidableEq C] in
/-- The guard keeps the balance. -/
theorem Balanced.update {n : Name} (h : Balanced s.user) (hok : refused pf s n = false)
    (value : Option (Value C)) : Balanced (Function.update s.user n value) := by
  obtain ⟨hx, hy⟩ := h
  have hguard : ∀ a b, (params pf n).na = some (a, b) → s.user a = none ∨ s.user b = none := by
    intro a b hna
    simpa [refused, hna, or_iff_not_imp_left, Option.isSome_iff_ne_none] using hok
  cases n with
  | top => exact ⟨hx, Or.inr (hguard _ _ rfl)⟩
  | bottom => exact ⟨hx, (hguard _ _ rfl).imp_right Or.inr⟩
  | left => exact ⟨Or.inr (hguard _ _ rfl), hy⟩
  | right => exact ⟨(hguard _ _ rfl).imp_right Or.inr, hy⟩
  | height => exact ⟨hx, (hguard _ _ rfl).imp_right Or.inl⟩
  | width => exact ⟨(hguard _ _ rfl).imp_right Or.inl, hy⟩
  | middle => exact ⟨hx, hy⟩
  | center => exact ⟨hx, hy⟩

/-- What every step keeps. -/
structure Sound (pf : Platform) (s : State C) : Prop where
  balanced : Balanced s.user
  listening : ∀ n, s.constraints n ≠ none → n ∈ s.listeners
  detached : s.exited = false → pf = .win → s.parent = none → ∀ n, s.constraints n = none
  idle : s.listeners = [] → ∀ q, s.installed q = []

omit [DecidableEq C] in
/-- Nothing is installed at the start. -/
theorem sound_start : Sound pf (start : State C) := by
  constructor
  · exact ⟨Or.inl rfl, Or.inl rfl⟩
  · exact fun _ h => absurd rfl h
  · exact fun _ _ _ _ => rfl
  · exact fun _ _ => rfl

/-- An assignment keeps the state sound. -/
theorem Sound.assign (h : Sound pf s) (n : Name) (value : Option (Value C)) :
    Sound pf (Layout.assign pf own solver s n value).state := by
  cases hok : refused pf s n with
  | true => simpa [Layout.assign, hok] using h
  | false =>
      have ha := @assigned C _ pf own solver s n value hok
      constructor
      · rw [ha.user]
        exact h.balanced.update hok value
      · intro m hm
        rw [ha.listeners]
        by_cases hmn : m = n
        · subst hmn
          by_cases hs : s.constraints m = none
          · cases value with
            | none => exact absurd (ha.idle rfl hs).1 hm
            | some v => exact List.mem_append_right _ List.mem_cons_self
          · exact List.mem_append_left _ (h.listening m hs)
        · rw [ha.others m hmn] at hm
          exact List.mem_append_left _ (h.listening m hm)
      · intro hexited hpf hp m
        rw [ha.exited] at hexited
        rw [ha.parent] at hp
        have hs := h.detached hexited hpf hp
        by_cases hmn : m = n
        · subst hmn
          exact ha.detached hp (hs m)
        · rw [ha.others m hmn]
          exact hs m
      · intro hnil q
        rw [ha.listeners] at hnil
        obtain ⟨hs, hvalue⟩ := List.append_eq_nil_iff.mp hnil
        have hnone : s.constraints n = none := by
          by_contra hne
          have hmem := h.listening n hne
          rw [hs] at hmem
          cases hmem
        cases value with
        | none =>
            rw [(ha.idle rfl hnone).2]
            exact h.idle hs q
        | some v => cases hvalue

omit [DecidableEq C] in
theorem Sound.exit (h : Sound pf s) : Sound pf { s with exited := true } where
  balanced := h.balanced
  listening := h.listening
  detached := nofun
  idle := h.idle

/-- Being attached to a parent keeps the state sound. -/
theorem Sound.parentAttached (h : Sound pf s) (names : List Name) :
    Sound pf (Layout.parentAttached pf own solver s names) := by
  induction names generalizing s with
  | nil => exact h
  | cons n names ih =>
      have ha := @Sound.assign C _ pf own solver s h n (s.user n)
      simp only [Layout.parentAttached]
      generalize Layout.assign pf own solver s n (s.user n) = o at ha ⊢
      obtain ⟨u, e⟩ := o
      cases e with
      | none => exact ih ha
      | some message => exact ha.exit

/-- `removeChild` on Windows: the first of the listeners ends the process. -/
theorem removeChild_win (s : State C) :
    (removeChild .win solver s).state =
      { s with parent := none, exited := s.exited || !s.listeners.isEmpty } := by
  cases hl : s.listeners with
  | nil => simp [removeChild, parentDettached, hl]
  | cons n names =>
      simp [removeChild, parentDettached, removeLayoutConstraint, hl]

theorem removeChild_mac (s : State C) :
    (removeChild .mac solver s).state = { s with parent := none, installed := fun _ => [] } := by
  simp only [removeChild]
  exact parentDettached_mac rfl _

/-- Being appended keeps the state sound. -/
theorem Sound.appendChild (h : Sound pf s) (p : C) :
    Sound pf (Layout.appendChild pf own solver s p).state := by
  cases pf with
  | mac =>
      have hmoved : Sound .mac { s with parent := some p, installed := fun _ => [] } :=
        ⟨h.balanced, h.listening, fun _ _ hp => absurd hp (Option.some_ne_none p), fun _ _ => rfl⟩
      exact hmoved.parentAttached _
  | win =>
      cases hp : s.parent with
      | none =>
          have hmoved : Sound .win { s with parent := some p } :=
            ⟨h.balanced, h.listening, fun _ _ hp => absurd hp (Option.some_ne_none p), h.idle⟩
          simp only [Layout.appendChild, hp]
          exact hmoved.parentAttached _
      | some q => simpa [Layout.appendChild, hp] using h

/-- Being removed keeps the state sound. -/
theorem Sound.removeChild (h : Sound pf s) : Sound pf (Layout.removeChild pf solver s).state := by
  cases pf with
  | mac =>
      rw [removeChild_mac]
      exact ⟨h.balanced, h.listening, nofun, fun _ _ => rfl⟩
  | win =>
      rw [removeChild_win]
      refine ⟨h.balanced, h.listening, ?_, h.idle⟩
      intro hexited _ _ n
      by_contra hne
      have hmem := h.listening n hne
      simp only [Bool.or_eq_false_iff, Bool.not_eq_false'] at hexited
      rw [List.isEmpty_iff.mp hexited.2] at hmem
      cases hmem

/-- Each step keeps the state sound. -/
theorem Sound.step {a : Action C} (h : Sound pf s) (ht : step pf own solver s a = some t) :
    Sound pf t := by
  cases hexited : s.exited with
  | true => simp [Layout.step, hexited] at ht
  | false =>
      simp only [Layout.step, hexited, Bool.false_eq_true, if_false] at ht
      cases a with
      | assign name value =>
          obtain rfl := Option.some.inj ht
          exact h.assign name value
      | appendChild p =>
          obtain rfl := Option.some.inj ht
          exact h.appendChild p
      | removeChild =>
          obtain rfl := Option.some.inj ht
          exact h.removeChild

theorem sound_of_reaches (h : Reaches (step pf own solver) (fun _ _ => True) start s) :
    Sound pf s :=
  h.invariant (Sound pf) sound_start fun _ _ _ hs _ ht => hs.step ht

/-! ## `removeChild` on Windows -/

/-- `removeChild` returns, and no constraint of the control is left. -/
def Detaches (own : C → Bool) (solver : C → Solver) (s : State C) : Prop :=
  ∃ t, step .win own solver s .removeChild = some t ∧ t.exited = false ∧ ∀ q, t.installed q = []

/-- **`removeChild`.**  In every state that a run reaches `removeChild` returns with
all constraints of the control gone, exactly when no value was accepted for a layout
property. -/
theorem removeChild_detaches_iff (h : Reaches (step .win own solver) (fun _ _ => True) start s)
    (hs : s.exited = false) : Detaches own solver s ↔ s.listeners = [] := by
  have hstep : step .win own solver s .removeChild =
      some { s with parent := none, exited := s.exited || !s.listeners.isEmpty } := by
    simp only [step, hs, Bool.false_eq_true, if_false, removeChild_win]
  constructor
  · rintro ⟨t, ht, hexited, -⟩
    rw [hstep] at ht
    obtain rfl := Option.some.inj ht
    simpa [hs] using hexited
  · intro hl
    refine ⟨_, hstep, ?_, ?_⟩
    · simp [hs, hl]
    · exact (sound_of_reaches h).idle hl

/-- A control without layout values is attached and taken off again. -/
theorem removeChild_detaches_plain :
    ∃ s : State Nat, s.parent = some 1 ∧ Detaches (fun _ => false) (fun _ => .view) s :=
  ⟨_, rfl, (removeChild_detaches_iff (reaches_of_run_any [.appendChild 1] rfl) rfl).mpr rfl⟩

/-- **Taking off a control that has a value.**  After `left = 10` on an attached control
the listener of `left` asks the parent, null by then, for its view. -/
theorem removeChild_throws :
    ¬ ∀ s : State Nat,
      Reaches (step .win (fun _ => false) fun _ => .view) (fun _ _ => True) start s →
        s.exited = false → Detaches (fun _ => false) (fun _ => .view) s := by
  intro hall
  obtain ⟨t, ht, hexited, -⟩ := hall _ (reaches_of_run_any
    [.appendChild 1, .assign .left (some (.number 10))] rfl) rfl
  obtain rfl := Option.some.inj ht
  cases hexited

/-! ## How many listeners a property has -/

/-- On Windows the constraints of a control on `p` are those of its values. -/
def Steady (pf : Platform) (own : C → Bool) (s : State C) (p : C) : Prop :=
  pf = .win → ∀ n k, s.constraints n = some k →
    k < s.next ∧ ∃ v, s.user n = some v ∧ s.heap k = layoutObject pf own n v p

/-- A control without constraints is steady. -/
theorem steady_of_none {p : C} (h : pf = .win → ∀ n, s.constraints n = none) :
    Steady pf own s p :=
  fun hpf n k hk => by simp [h hpf n] at hk

/-- Assigning the value that a property has removes nothing. -/
theorem Steady.removable {p : C} (h : Steady pf own s p) (hp : s.parent = some p) (n : Name) :
    ¬ Unremovable pf own solver s n (s.user n) := by
  rintro ⟨hpf, q, k, hq, hk, -, hre⟩
  obtain rfl : p = q := Option.some.inj (hp.symm.trans hq)
  obtain ⟨-, v, hv, hheap⟩ := h hpf n k hk
  have := hre v hv
  rw [hheap] at this
  simp [Reinstalls] at this

/-- Assigning the value that a property has leaves a steady control. -/
theorem Steady.assign {p : C} (h : Steady pf own s p) (hp : s.parent = some p) {n : Name}
    (hok : refused pf s n = false) :
    Steady pf own (Layout.assign pf own solver s n (s.user n)).state p := by
  rintro rfl
  have hsteady := h rfl
  simp only [Layout.assign, hok, Bool.false_eq_true, if_false, Function.update_eq_self]
  cases hv : s.user n with
  | none =>
      have hnone : s.constraints n = none := by
        by_contra hne
        obtain ⟨k, hk⟩ := Option.ne_none_iff_exists'.mp hne
        obtain ⟨-, v, hv', -⟩ := hsteady n k hk
        simp [hv] at hv'
      simpa [hnone] using hsteady
  | some v =>
      simp only [hp]
      cases hk : s.constraints n with
      | none =>
          by_cases hnobody : solver p = .nobody
          · simpa [storeConstraint, addLayoutConstraint, hnobody, ← hk, hv] using hsteady
          · simp only [storeConstraint, addLayoutConstraint, hnobody, if_false]
            intro m k hm
            by_cases hmn : m = n
            · subst hmn
              obtain rfl : s.next = k := by simpa using hm
              exact ⟨Nat.lt_succ_self _, v, hv, by simp⟩
            · obtain ⟨hlt, hheap⟩ := hsteady m k (by simpa [Function.update_of_ne hmn] using hm)
              refine ⟨Nat.lt_succ_of_lt hlt, ?_⟩
              simpa [Function.update_of_ne (Nat.ne_of_lt hlt)] using hheap
      | some k =>
          obtain ⟨hlt, u, hu, hheap⟩ := hsteady n k hk
          obtain rfl : v = u := Option.some.inj (hv.symm.trans hu)
          have hre : ¬ Reinstalls (s.heap k) (layoutObject .win own n v p) := by
            simp [hheap, Reinstalls]
          by_cases hnobody : solver p = .nobody
          · simp only [storeConstraint, changeLayoutConstraint, hre, hnobody, if_false, if_true,
              reduceCtorEq, false_and]
            intro m j hm
            by_cases hmn : m = n
            · simp [hmn] at hm
            · exact hsteady m j (by simpa [Function.update_of_ne hmn] using hm)
          · have hsame : Function.update s.heap k
                { s.heap k with constant := (layoutObject .win own n v p).constant } = s.heap := by
              rw [← hheap, Function.update_eq_self]
            simp only [storeConstraint, changeLayoutConstraint, hre, hnobody, if_false,
              reduceCtorEq, false_and, hsame, ← hk, Function.update_eq_self]
            exact hsteady

/-- A `parent-attached` listener that is not refused assigns the value the property has:
the control keeps its values, and a property that is not null registers another pair. -/
theorem parentAttached_cons {p : C} {n : Name} (hp : s.parent = some p)
    (hsteady : Steady pf own s p) (hok : refused pf s n = false) (names : List Name) :
    ∃ t, parentAttached pf own solver s (n :: names) = parentAttached pf own solver t names ∧
      t.user = s.user ∧ t.parent = some p ∧ t.exited = s.exited ∧
      t.listeners = s.listeners ++ ((s.user n).toList.map fun _ => n) ∧ Steady pf own t p := by
  have ha := @assigned C _ pf own solver s n (s.user n) hok
  have huser := ha.user
  rw [Function.update_eq_self] at huser
  have hreturns : (assign pf own solver s n (s.user n)).error = none :=
    (assign_returns_iff hok fun _ hnone => absurd (hp.symm.trans hnone)
      (Option.some_ne_none p)).mpr (hsteady.removable hp n)
  refine ⟨_, ?_, huser, ha.parent.trans hp, ha.exited, ha.listeners, hsteady.assign hp hok⟩
  simp only [parentAttached]
  generalize assign pf own solver s n (s.user n) = o at hreturns
  obtain ⟨t, e⟩ := o
  obtain rfl : e = none := hreturns
  rfl

/-- The listeners of a control that has been attached, in turn: up to one that is
refused, each that has a value registers another pair. -/
theorem parentAttached_listeners {p : C} (hp : s.parent = some p) (hsteady : Steady pf own s p)
    (names : List Name) :
    (parentAttached pf own solver s names).listeners = s.listeners ++
      (names.takeWhile fun n => !refused pf s n).filter fun n => (s.user n).isSome := by
  induction names generalizing s with
  | nil => simp [parentAttached]
  | cons n names ih =>
      cases hok : refused pf s n with
      | true => simp [parentAttached, assign, hok]
      | false =>
          obtain ⟨t, hnext, huser, hparent, -, hlisteners, hsteady⟩ :=
            @parentAttached_cons C _ pf own solver s _ _ hp hsteady hok names
          have hrefused : (fun m => !refused pf t m) = fun m => !refused pf s m := by
            funext m
            rw [refused_congr huser m]
          rw [hnext, ih hparent hsteady, hlisteners, hrefused, huser]
          cases hv : s.user n <;> simp [hok, hv]

/-- The property has at most one pair of listeners. -/
def Bounded (name : Name) (s : State C) : Prop := s.listeners.count name ≤ 1

/-- No second pair for the property: an assignment is refused, is of null, or is the
first, and when the control is attached the property is null or its listener is not
called, a listener before it having ended the process. -/
def Single (pf : Platform) (name : Name) (s : State C) : Action C → Prop
  | .assign n value => n ≠ name ∨ refused pf s n = true ∨ value = none ∨ name ∉ s.listeners
  | .appendChild _ =>
    (pf = .win ∧ s.parent ≠ none) ∨ s.user name = none ∨
      name ∉ s.listeners.takeWhile fun n => !refused pf s n
  | .removeChild => True

/-- An assignment keeps the listeners of a property bounded exactly if it adds no second one. -/
theorem bounded_assign_iff {name n : Name} {value : Option (Value C)} (h : Bounded name s) :
    Bounded name (assign pf own solver s n value).state ↔ Single pf name s (.assign n value) := by
  cases hok : refused pf s n with
  | true => simpa [assign, hok, Single] using h
  | false =>
      have hcount : (assign pf own solver s n value).state.listeners.count name =
          s.listeners.count name + (value.toList.map fun _ => n).count name := by
        rw [(assigned hok).listeners, List.count_append]
      simp only [Bounded] at h ⊢
      rw [hcount]
      simp only [Single, hok, Bool.false_eq_true, false_or]
      cases value with
      | none => simpa using h
      | some v =>
          by_cases hn : n = name
          · subst hn
            have hzero : s.listeners.count n = 0 ↔ n ∉ s.listeners := List.count_eq_zero
            simp only [Option.toList_some, List.map_cons, List.map_nil, List.count_singleton_self,
              ne_eq, not_true_eq_false, reduceCtorEq, false_or, ← hzero]
            omega
          · simpa [List.count_singleton, hn] using h

/-- The listeners are called on a control that has moved. -/
theorem bounded_attached_iff {name : Name} {p : C} {moved : State C}
    (hp : moved.parent = some p) (hsteady : Steady pf own moved p)
    (hlisteners : moved.listeners = s.listeners)
    (huser : moved.user = s.user) (h : Bounded name s) :
    Bounded name (parentAttached pf own solver moved s.listeners) ↔
      s.user name = none ∨ name ∉ s.listeners.takeWhile fun n => !refused pf s n := by
  have hrefused : (fun n => !refused pf moved n) = fun n => !refused pf s n := by
    funext n
    rw [refused_congr huser n]
  have hcalled : (s.listeners.takeWhile fun n => !refused pf s n).Sublist s.listeners :=
    (List.takeWhile_prefix _).sublist
  simp only [Bounded, parentAttached_listeners hp hsteady, hlisteners, huser, hrefused,
    List.count_append] at h ⊢
  constructor
  · intro hle
    by_contra hnot
    obtain ⟨hv, hmem⟩ := not_or.mp hnot
    have hin := not_not.mp hmem
    have hnew : name ∈ (s.listeners.takeWhile fun n => !refused pf s n).filter
        fun n => (s.user n).isSome :=
      List.mem_filter.mpr ⟨hin, Option.isSome_iff_ne_none.mpr hv⟩
    have hold := List.count_pos_iff.mpr (hcalled.subset hin)
    have hmore := List.count_pos_iff.mpr hnew
    omega
  · intro hok
    have hnew : ((s.listeners.takeWhile fun n => !refused pf s n).filter
        fun n => (s.user n).isSome).count name = 0 := by
      apply List.count_eq_zero_of_not_mem
      intro hmem
      obtain ⟨hin, hv⟩ := List.mem_filter.mp hmem
      rcases hok with hnone | hnot
      · rw [hnone] at hv
        cases hv
      · exact hnot hin
    omega

/-- **Step lemma.**  A step keeps a property's listeners to one pair exactly if it registers
no second. -/
theorem bounded_step_iff {name : Name} {a : Action C} (hsound : Sound pf s) (h : Bounded name s)
    (ht : step pf own solver s a = some t) : Bounded name t ↔ Single pf name s a := by
  cases hexited : s.exited with
  | true => simp [step, hexited] at ht
  | false =>
      simp only [step, hexited, Bool.false_eq_true, if_false] at ht
      cases a with
      | assign n value =>
          obtain rfl := Option.some.inj ht
          exact bounded_assign_iff h
      | appendChild p =>
          obtain rfl := Option.some.inj ht
          cases pf with
          | mac =>
              simp only [Single, appendChild, reduceCtorEq, false_and, false_or]
              exact bounded_attached_iff rfl (steady_of_none fun hpf => by cases hpf) rfl rfl h
          | win =>
              cases hp : s.parent with
              | none =>
                  simp only [Single, appendChild, hp, ne_eq, not_true_eq_false, and_false, false_or]
                  exact bounded_attached_iff rfl
                    (steady_of_none fun _ => hsound.detached hexited rfl hp) rfl rfl h
              | some q =>
                  have hok : Single .win name s (.appendChild p) := Or.inl ⟨rfl, by simp [hp]⟩
                  simp only [appendChild, hp]
                  exact iff_of_true h hok
      | removeChild =>
          obtain rfl := Option.some.inj ht
          cases pf with
          | mac =>
              rw [removeChild_mac]
              exact iff_of_true h trivial
          | win =>
              rw [removeChild_win]
              exact iff_of_true h trivial

/-- **Layout listeners.**  Along a run a property has at most one pair of listeners
exactly as long as no step registers a second. -/
theorem listeners_bounded_iff (name : Name) {as : List (Action C)}
    (hrun : Meets (step pf own solver) (fun _ _ => True) start as) :
    Throughout (step pf own solver) (Bounded name) start as ↔
      Meets (step pf own solver) (Single pf name) start as := by
  have hkeeps : ∀ (s : State C) (a : Action C) (t : State C), Sound pf s →
      step pf own solver s a = some t → Sound pf t := fun _ _ _ hs ht => hs.step ht
  have hstart : Bounded name (start : State C) := Nat.zero_le 1
  exact throughout_iff_meets hkeeps (fun _ _ _ hs h ht => bounded_step_iff hs h ht) sound_start
    hstart hrun

/-- A value that is assigned to a control on its parent. -/
theorem listeners_bounded_once :
    Throughout (step .mac (fun _ => false) fun _ => .view) (Bounded .left) (start : State Nat)
      [.appendChild 1, .assign .left (some (.number 10)), .assign .left none, .removeChild] := by
  have hrun : Meets (step .mac (fun _ => false) fun _ => .view) (fun _ _ => True)
    (start : State Nat)
      [.appendChild 1, .assign .left (some (.number 10)), .assign .left none, .removeChild] :=
    ⟨trivial, trivial, trivial, trivial, trivial⟩
  refine (listeners_bounded_iff .left hrun).mpr ?_
  refine ⟨Or.inr (Or.inl rfl), Or.inr (Or.inr (Or.inr ?_)), Or.inr (Or.inr (Or.inl rfl)), trivial,
    trivial⟩
  exact List.not_mem_nil

/-- **A second pair.**  The second assignment of a value registers two listeners more. -/
theorem listeners_unbounded :
    ¬ Throughout (step .mac (fun _ => false) fun _ => .view) (Bounded .left) (start : State Nat)
      [.assign .left (some (.number 10)), .assign .left (some (.number 20))] := by
  intro h
  have hcount : 2 ≤ 1 := (h.2 _ rfl).2 _ rfl
  exact absurd hcount (by decide)

/-! ## The guard -/

/-- The control with `private.states`, where it has a value for the property. -/
structure Control (C : Type*) where
  layout : State C
  states : Name → Option (Option (Value C))

namespace Control

/-- A new control, of which nothing is told. -/
def start : Control C := ⟨Layout.start, fun _ => none⟩

/-- The setter, with what it throws. -/
def assign (pf : Platform) (own : C → Bool) (solver : C → Solver) (c : Control C) (name : Name)
    (value : Option (Value C)) : Control C × Option String :=
  let o := Layout.assign pf own solver c.layout name value
  if refused pf c.layout name then (⟨o.state, c.states⟩, o.error)
  else (⟨o.state, Function.update c.states name (some value)⟩, o.error)

/-- The `parent-attached` listeners. -/
def parentAttached (pf : Platform) (own : C → Bool) (solver : C → Solver) :
    Control C → List Name → Control C
  | c, [] => c
  | c, name :: names =>
      match assign pf own solver c name (c.layout.user name) with
      | (c, none) => parentAttached pf own solver c names
      | (c, some _) => { c with layout := { c.layout with exited := true } }

/-- `appendChild`, as for the layout alone. -/
def appendChild (pf : Platform) (own : C → Bool) (solver : C → Solver) (c : Control C) (p : C) :
    Control C :=
  match pf, c.layout.parent with
  | .mac, _ =>
      parentAttached pf own solver
        { c with layout := { c.layout with parent := some p, installed := fun _ => [] } }
        c.layout.listeners
  | .win, none =>
      parentAttached pf own solver { c with layout := { c.layout with parent := some p } }
        c.layout.listeners
  | .win, some _ => c

/-- One step of a process that has not ended. -/
def step (pf : Platform) (own : C → Bool) (solver : C → Solver) (c : Control C) (a : Action C) :
    Option (Control C) :=
  if c.layout.exited then none
  else
    match a with
    | .assign name value => some (assign pf own solver c name value).1
    | .appendChild p => some (appendChild pf own solver c p)
    | .removeChild => some { c with layout := (removeChild pf solver c.layout).state }

/-- What is asked of a step: an assignment of null is accepted, one that is rejected
leaves everything as it is, and what the listeners assign is not rejected. -/
def Accepted (pf : Platform) (own : C → Bool) (solver : C → Solver) (c : Control C) :
    Action C → Prop
  | .assign name value =>
    (value = none → (assign pf own solver c name value).2 = none) ∧
      ((assign pf own solver c name value).2 ≠ none → (assign pf own solver c name value).1 = c)
  | .appendChild p => (appendChild pf own solver c p).layout.exited = false
  | .removeChild => True

variable {c d : Control C}

end Control

end Layout

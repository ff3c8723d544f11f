import Tint.Transition
import Mathlib.Data.List.Nodup
import Mathlib.Data.Rat.Defs
import Mathlib.Logic.Function.Basic

/-!
# Layout properties and their native constraints

Assigning `left`, `width` and the other layout properties of a control
(`createLayoutProperty`) installs a native constraint on the control's parent.
A later value goes through `changeLayoutConstraint`, which either replaces the
constraint or only sets its constant, null removes it, and listeners of
`parent-attached` assign all values again when the control gets a parent.

This is the model of one control, on either platform, with the native
constraints as objects of their own: `private.constraints` and the views refer
to them, and only what is on a view's list is live.  AppKit drops the
constraints of a view that leaves its superview; WPF refuses a child that has a
parent.  Another control is in the scope of the parent's view, as both toolkits
demand of a constraint's second item, and they take every constraint that the
code asks for.  Numbers are exact.

Not every container looks after constraints (`Solver`).  On Windows the solver is
the container's view or, in a box, the `Child` of its border, and only the first
can be asked to remove a constraint; on the Mac a container may have
`ignoreConstraints` set, which is taken not to change.

* `layout_faithful` -- the installed constraints are those of the values, as
  long as an assignment changes nothing but the constant when it keeps the
  constraint, the parent has a solver, on Windows one that removes what is to be
  removed, a control with constraints is not attached again, and on Windows
  a control with layout properties is not taken off its parent;
* `layout_broken_by_change` -- `left = other; left = 10` stays relative to
  `other`.
-/

namespace Layout

open Transition

/-- The layout properties, which are also the constraint attributes. -/
inductive Name
  | top
  | bottom
  | left
  | right
  | height
  | width
  | middle
  | center
  deriving DecidableEq, Repr

/-- The property name as text. -/
def Name.text : Name → String
  | .top => "top"
  | .bottom => "bottom"
  | .left => "left"
  | .right => "right"
  | .height => "height"
  | .width => "width"
  | .middle => "middle"
  | .center => "center"

/-- The two implementations of `Control`. -/
inductive Platform
  | mac
  | win
  deriving DecidableEq, Repr

/-- A value of a layout property other than null: a number, `'npx'`, `'n%'` or
another control. -/
inductive Value (C : Type*)
  | number (x : ℚ)
  | px (n : ℤ)
  | percent (n : ℤ)
  | control (c : C)
  deriving DecidableEq

/-- The arguments of `createLayoutProperty` after the name. -/
structure Params where
  percentName : Name
  percentFunc : ℚ → ℚ
  scalarName : Option Name
  scalarFunc : ℚ → ℚ
  na : Option (Name × Name)

/-- `utils.identity` -/
def identity (x : ℚ) : ℚ := x

/-- `utils.negate` -/
def negate (x : ℚ) : ℚ := -x

/-- The calls of `createLayoutProperty`; Windows differs in the percentage of
`top` only. -/
def params (pf : Platform) : Name → Params
  | .top =>
      let percentName := match pf with
        | .mac => .top
        | .win => .bottom
      ⟨percentName, identity, some .top, identity, some (.bottom, .height)⟩
  | .bottom => ⟨.bottom, negate, some .bottom, negate, some (.top, .height)⟩
  | .left => ⟨.left, identity, some .left, identity, some (.right, .width)⟩
  | .right => ⟨.right, identity, some .right, negate, some (.left, .width)⟩
  | .height => ⟨.height, identity, none, identity, some (.top, .bottom)⟩
  | .width => ⟨.width, identity, none, identity, some (.left, .right)⟩
  | .middle => ⟨.middle, identity, some .middle, identity, none⟩
  | .center => ⟨.center, identity, some .center, identity, none⟩

/-- The layout object, and the native constraint made from it. -/
structure LayoutObject (C : Type*) where
  firstAttribute : Name
  secondItem : Option C
  secondAttribute : Option Name
  multiplier : ℚ
  constant : ℚ
  deriving DecidableEq

/-- Who looks after the constraints of a container's children. -/
inductive Solver
  /-- the container's view -/
  | view
  /-- on Windows the `Child` of the view, which has no `RemoveLayoutConstraint` itself -/
  | child
  /-- nobody: on Windows neither has `AddLayoutConstraint`, on the Mac
  `private.ignoreConstraints` is set -/
  | nobody
  deriving DecidableEq, Repr

/-- The attribute of a sibling that a property is tied to. -/
def Name.opposite : Name → Name
  | .left => .right
  | .right => .left
  | .top => .bottom
  | .bottom => .top
  | name => name

section Model

variable {C : Type*} [DecidableEq C]

/-- The layout object for a value on a given parent.  `own c` says that
`c.private.parent` is this control. -/
def layoutObject (pf : Platform) (own : C → Bool) (name : Name) (value : Value C) (parent : C) :
    LayoutObject C :=
  let ps := params pf name
  match value with
  | .percent n => ⟨name, some parent, some ps.percentName, ps.percentFunc (n / 100), 0⟩
  | .number x => ⟨name, ps.scalarName.map fun _ => parent, ps.scalarName, 1, ps.scalarFunc x⟩
  | .px n => ⟨name, ps.scalarName.map fun _ => parent, ps.scalarName, 1, ps.scalarFunc n⟩
  | .control c =>
      let same := parent = c ∨ own c = true
      ⟨name, some c, some (if same then name else name.opposite), 1, 0⟩

/-- The control, and the native constraints it has made.  `constraints` is
`private.constraints`, `listeners` lists the property of each pair of
`parent-attached` and `parent-dettached` listeners, `installed` the constraints
on each container's view, and `heap` what is in each constraint.  `exited` is
set when an exception in a listener ends the process. -/
structure State (C : Type*) where
  parent : Option C
  user : Name → Option (Value C)
  constraints : Name → Option Nat
  listeners : List Name
  heap : Nat → LayoutObject C
  next : Nat
  installed : C → List Nat
  exited : Bool

/-- A control that has just been constructed. -/
def start : State C where
  parent := none
  user := fun _ => none
  constraints := fun _ => none
  listeners := []
  heap := fun _ => ⟨.top, none, none, 0, 0⟩
  next := 0
  installed := fun _ => []
  exited := false

/-- A call returns or throws; either way it leaves a state. -/
structure Outcome (C : Type*) where
  state : State C
  error : Option String

/-- `addLayoutConstraint`, with the constraint it returns. -/
def addLayoutConstraint (solver : C → Solver) (s : State C) (p : C) (lo : LayoutObject C) :
    State C × Option Nat :=
  if solver p = .nobody then (s, none)
  else
    ({ s with
      heap := Function.update s.heap s.next lo
      next := s.next + 1
      installed := Function.update s.installed p (s.installed p ++ [s.next]) }, some s.next)

/-- The native call that takes a constraint off a container; it passes over undefined. -/
def State.uninstall (s : State C) (p : C) : Option Nat → State C
  | some k => { s with installed := Function.update s.installed p ((s.installed p).erase k) }
  | none => s

/-- `removeLayoutConstraint`.  Windows does not ask whether there is a parent, nor
whether its view is the solver. -/
def removeLayoutConstraint (pf : Platform) (solver : C → Solver) (s : State C) (k : Option Nat) :
    Outcome C :=
  match s.parent, pf with
  | some p, .mac => ⟨if solver p = .nobody then s else s.uninstall p k, none⟩
  | some p, .win =>
      if solver p = .view then ⟨s.uninstall p k, none⟩
      else ⟨s, some "this.private.parent.nativeView.RemoveLayoutConstraint is not a function"⟩
  | none, .mac => ⟨s, none⟩
  | none, .win => ⟨s, some "Cannot read property 'nativeView' of null"⟩

/-- The test of `changeLayoutConstraint`: the constraint has to be replaced. -/
def Reinstalls (previous lo : LayoutObject C) : Prop :=
  previous.multiplier ≠ lo.multiplier ∨
    (previous.secondItem = none ∧ lo.secondItem ≠ none) ∨
    (previous.secondItem ≠ none ∧ lo.secondItem = none)

instance (previous lo : LayoutObject C) : Decidable (Reinstalls previous lo) :=
  inferInstanceAs (Decidable (_ ∨ _ ∨ _))

/-- `changeLayoutConstraint`, with the constraint it returns. -/
def changeLayoutConstraint (pf : Platform) (solver : C → Solver) (s : State C) (p : C) (k : Nat)
    (lo : LayoutObject C) : Outcome C × Option Nat :=
  if pf = .mac ∧ solver p = .nobody then (⟨s, none⟩, none)
  else if Reinstalls (s.heap k) lo then
    match removeLayoutConstraint pf solver s (some k) with
    | ⟨s, none⟩ =>
      (⟨(addLayoutConstraint solver s p lo).1, none⟩, (addLayoutConstraint solver s p lo).2)
    | thrown => (thrown, none)
  else if solver p = .nobody then (⟨s, none⟩, none)
  else
    (⟨{ s with heap := Function.update s.heap k { s.heap k with constant := lo.constant } }, none⟩,
      some k)

/-- The other two properties of the direction are set already. -/
def refused (pf : Platform) (s : State C) (name : Name) : Bool :=
  match (params pf name).na with
  | some (a, b) => (s.user a).isSome && (s.user b).isSome
  | none => false

/-- The message of a refused assignment. -/
def refusal (pf : Platform) (name : Name) : String :=
  match (params pf name).na with
  | some (a, b) =>
      "A " ++ name.text ++ " cannot be set when the " ++ a.text ++ " and " ++ b.text ++
        " have been set already."
  | none => ""

/-- `p.constraints[propertyName] =` what a call has returned; what it throws is passed on. -/
def storeConstraint (name : Name) : Outcome C × Option Nat → Outcome C
  | (⟨s, none⟩, k) => ⟨{ s with constraints := Function.update s.constraints name k }, none⟩
  | (thrown, _) => thrown

/-- The setter that `createLayoutProperty` defines. -/
def assign (pf : Platform) (own : C → Bool) (solver : C → Solver) (s : State C) (name : Name)
    (value : Option (Value C)) : Outcome C :=
  if refused pf s name then ⟨s, some (refusal pf name)⟩
  else
    let s := { s with user := Function.update s.user name value }
    match value with
    | none =>
        match s.constraints name with
        | none => ⟨s, none⟩
        | some k =>
            match removeLayoutConstraint pf solver s (some k) with
            | ⟨s, none⟩ =>
                ⟨{ s with constraints := Function.update s.constraints name none }, none⟩
            | thrown => thrown
    | some v =>
        let s := { s with listeners := s.listeners ++ [name] }
        match s.parent with
        | none => ⟨s, none⟩
        | some p =>
            let lo := layoutObject pf own name v p
            storeConstraint name (match s.constraints name with
              | some k => changeLayoutConstraint pf solver s p k lo
              | none => (⟨(addLayoutConstraint solver s p lo).1, none⟩,
                  (addLayoutConstraint solver s p lo).2))

/-- The `parent-attached` listeners of the layout properties, in turn; what
they throw ends the process. -/
def parentAttached (pf : Platform) (own : C → Bool) (solver : C → Solver) :
    State C → List Name → State C
  | s, [] => s
  | s, name :: names =>
      match assign pf own solver s name (s.user name) with
      | ⟨s, none⟩ => parentAttached pf own solver s names
      | ⟨s, some _⟩ => { s with exited := true }

/-- The `parent-dettached` listeners of the layout properties, in turn. -/
def parentDettached (pf : Platform) (solver : C → Solver) : State C → List Name → State C
  | s, [] => s
  | s, name :: names =>
      match removeLayoutConstraint pf solver s (s.constraints name) with
      | ⟨s, none⟩ => parentDettached pf solver s names
      | ⟨s, some _⟩ => { s with exited := true }

/-- The control is appended to container `p`: the view moves, and then the
listeners are called, the control's own first. -/
def appendChild (pf : Platform) (own : C → Bool) (solver : C → Solver) (s : State C) (p : C) :
    Outcome C :=
  match pf, s.parent with
  | .mac, _ =>
      ⟨parentAttached pf own solver { s with parent := some p, installed := fun _ => [] }
        s.listeners, none⟩
  | .win, none => ⟨parentAttached pf own solver { s with parent := some p } s.listeners, none⟩
  | .win, some _ => ⟨s, some "the view has a parent"⟩

/-- The control is removed from its parent: the view goes, and then the
listeners are called, the control's own first. -/
def removeChild (pf : Platform) (solver : C → Solver) (s : State C) : Outcome C :=
  match pf with
  | .mac =>
      ⟨parentDettached pf solver { s with parent := none, installed := fun _ => [] } s.listeners,
        none⟩
  | .win => ⟨parentDettached pf solver { s with parent := none } s.listeners, none⟩

/-- What happens to the control. -/
inductive Action (C : Type*)
  | assign (name : Name) (value : Option (Value C))
  | appendChild (p : C)
  | removeChild

/-- One step of a process that has not ended; exceptions may be caught. -/
def step (pf : Platform) (own : C → Bool) (solver : C → Solver) (s : State C) (a : Action C) :
    Option (State C) :=
  if s.exited then none
  else
    match a with
    | .assign name value => some (assign pf own solver s name value).state
    | .appendChild p => some (appendChild pf own solver s p).state
    | .removeChild => some (removeChild pf solver s).state

/-- `changeLayoutConstraint` leads to the new layout object: it replaces the
constraint, or the constant is all that differs. -/
def Updates (previous lo : LayoutObject C) : Prop :=
  Reinstalls previous lo ∨
    (previous.secondItem = lo.secondItem ∧ previous.secondAttribute = lo.secondAttribute)

/-- On Windows the assignment has a constraint removed, and the parent's view has no
`RemoveLayoutConstraint`: null is assigned, or a value that has the constraint replaced. -/
def Unremovable (pf : Platform) (own : C → Bool) (solver : C → Solver) (s : State C) (name : Name)
    (value : Option (Value C)) : Prop :=
  pf = .win ∧ ∃ p k, s.parent = some p ∧ s.constraints name = some k ∧ solver p ≠ .view ∧
    ∀ v, value = some v → Reinstalls (s.heap k) (layoutObject pf own name v p)

/-- The condition on a step. -/
def Clean (pf : Platform) (own : C → Bool) (solver : C → Solver) (s : State C) : Action C → Prop
  | .assign name value =>
      refused pf s name = true ∨
        ((∀ p, s.parent = some p → value ≠ none → solver p ≠ .nobody) ∧
          ¬ Unremovable pf own solver s name value ∧
          ∀ p k v, s.parent = some p → s.constraints name = some k → value = some v →
            Updates (s.heap k) (layoutObject pf own name v p))
  | .appendChild p =>
      (pf = .win ∧ s.parent ≠ none) ∨
        ((∀ name ∈ s.listeners, refused pf s name = false) ∧
          (∀ name, s.user name ≠ none → solver p ≠ .nobody) ∧
          ∀ name k v, s.constraints name = some k → s.user name = some v →
            Reinstalls (s.heap k) (layoutObject pf own name v p))
  | .removeChild => pf = .mac ∨ s.listeners = []

/-! ## The invariant -/

/-- The constraint of a property is live and up to date. -/
def Good (pf : Platform) (own : C → Bool) (s : State C) (p : C) (name : Name) (v : Value C) :
    Prop :=
  ∃ k, s.constraints name = some k ∧ k ∈ s.installed p ∧ s.heap k = layoutObject pf own name v p

/-- The constraint of a property is missing, or on the Mac stale, but will be replaced. -/
def Pending (pf : Platform) (own : C → Bool) (s : State C) (p : C) (name : Name) (v : Value C) :
    Prop :=
  ∀ k, s.constraints name = some k →
    k ∉ s.installed p ∧ pf = .mac ∧ Reinstalls (s.heap k) (layoutObject pf own name v p)

/-- The invariant, while the listeners of `todo` are still to be called. -/
structure Inv (pf : Platform) (own : C → Bool) (solver : C → Solver) (todo : List Name)
    (s : State C) : Prop where
  alive : s.exited = false
  listening : ∀ n, s.user n ≠ none → n ∈ s.listeners
  cleared : ∀ n, s.user n = none → s.constraints n = none
  names : ∀ n k, s.constraints n = some k → (s.heap k).firstAttribute = n ∧ k < s.next
  detached : pf = .win → s.parent = none → ∀ n, s.constraints n = none
  solved : ∀ p n, s.parent = some p → s.user n ≠ none → solver p ≠ .nobody
  live : ∀ q k, k ∈ s.installed q →
    s.parent = some q ∧ s.constraints (s.heap k).firstAttribute = some k
  nodup : ∀ q, (s.installed q).Nodup
  good : ∀ p n v, s.parent = some p → s.user n = some v →
    Good pf own s p n v ∨ (n ∈ todo ∧ Pending pf own s p n v)

variable {pf : Platform} {own : C → Bool} {solver : C → Solver} {s : State C}
  {todo todo' : List Name}

omit [DecidableEq C] in
@[simp] theorem layoutObject_firstAttribute [DecidableEq C] (name : Name) (v : Value C) (p : C) :
    (layoutObject pf own name v p).firstAttribute = name := by
  cases v <;> rfl

/-- Different properties have different constraints. -/
theorem Inv.ne_of_ne (h : Inv pf own solver todo s) {m n : Name} {j k : Nat}
    (hj : s.constraints m = some j) (hk : s.constraints n = some k) (hmn : m ≠ n) : j ≠ k := by
  rintro rfl
  exact hmn ((h.names m j hj).1.symm.trans (h.names n j hk).1)

/-- The state after a property was set to null. -/
def clear (s : State C) (n : Name) : State C :=
  { s with
    user := Function.update s.user n none
    constraints := Function.update s.constraints n none
    installed := fun q => (s.installed q).filter fun j => s.constraints n ≠ some j }

omit [DecidableEq C] in
/-- Clearing a property takes its own constraint away and no other. -/
theorem mem_clear_installed (s : State C) (n : Name) (q : C) (j : Nat) :
    j ∈ (clear s n).installed q ↔ j ∈ s.installed q ∧ s.constraints n ≠ some j := by
  simp [clear]

/-- Setting a property to null keeps the invariant. -/
theorem Inv.clear (h : Inv pf own solver todo s) (n : Name)
    (htodo : ∀ m ∈ todo, m = n ∨ m ∈ todo') : Inv pf own solver todo' (clear s n) where
  alive := h.alive
  listening m hm := by
    refine h.listening m fun hnone => hm ?_
    by_cases hmn : m = n <;> simp [Layout.clear, Function.update, hmn, hnone]
  cleared m hm := by
    by_cases hmn : m = n
    · simp [Layout.clear, hmn]
    · simp only [Layout.clear, Function.update_of_ne hmn] at hm ⊢
      exact h.cleared m hm
  names m k hk := by
    by_cases hmn : m = n
    · simp [Layout.clear, hmn] at hk
    · simp only [Layout.clear, Function.update_of_ne hmn] at hk
      exact h.names m k hk
  detached hpf hp m := by
    by_cases hmn : m = n
    · simp [Layout.clear, hmn]
    · simp only [Layout.clear, Function.update_of_ne hmn]
      exact h.detached hpf hp m
  solved p m hp hm := by
    refine h.solved p m hp fun hnone => hm ?_
    by_cases hmn : m = n <;> simp [Layout.clear, Function.update, hmn, hnone]
  live q j hj := by
    rw [mem_clear_installed] at hj
    obtain ⟨hp, hc⟩ := h.live q j hj.1
    refine ⟨hp, ?_⟩
    have hne : (s.heap j).firstAttribute ≠ n := by
      rintro rfl
      exact hj.2 hc
    simpa [Layout.clear, Function.update_of_ne hne] using hc
  nodup q := (h.nodup q).filter _
  good p m v hp hv := by
    have hmn : m ≠ n := by
      rintro rfl
      simp [Layout.clear] at hv
    simp only [Layout.clear, Function.update_of_ne hmn] at hv
    rcases h.good p m v hp hv with ⟨k, hk, hmem, hheap⟩ | ⟨hm, hpend⟩
    · refine Or.inl ⟨k, by simpa [Layout.clear, Function.update_of_ne hmn] using hk, ?_, hheap⟩
      rw [mem_clear_installed]
      exact ⟨hmem, fun hn => h.ne_of_ne hk hn hmn rfl⟩
    · refine Or.inr ⟨(htodo m hm).resolve_left hmn, fun k hk => ?_⟩
      simp only [Layout.clear, Function.update_of_ne hmn] at hk
      refine ⟨fun hmem => ?_, (hpend k hk).2⟩
      rw [mem_clear_installed] at hmem
      exact (hpend k hk).1 hmem.1

/-- The state after a property without a constraint got a value. -/
def put (pf : Platform) (own : C → Bool) (s : State C) (p : C) (n : Name) (v : Value C) :
    State C :=
  { s with
    user := Function.update s.user n (some v)
    constraints := Function.update s.constraints n (some s.next)
    listeners := s.listeners ++ [n]
    heap := Function.update s.heap s.next (layoutObject pf own n v p)
    next := s.next + 1
    installed := Function.update s.installed p (s.installed p ++ [s.next]) }

/-- A live constraint is older than the next one. -/
theorem Inv.lt_next (h : Inv pf own solver todo s) {q : C} {k : Nat} (hk : k ∈ s.installed q) :
    k < s.next :=
  (h.names _ _ (h.live q k hk).2).2

/-- A first value for a property of an attached control keeps the invariant. -/
theorem Inv.put (h : Inv pf own solver todo s) {p : C} {n : Name} {v : Value C}
    (hp : s.parent = some p) (hn : s.constraints n = none) (hsolver : solver p ≠ .nobody) :
    Inv pf own solver todo (put pf own s p n v) where
  alive := h.alive
  listening m hm := by
    by_cases hmn : m = n
    · simp [Layout.put, hmn]
    · simp only [Layout.put, Function.update_of_ne hmn] at hm ⊢
      exact List.mem_append_left _ (h.listening m hm)
  cleared m hm := by
    by_cases hmn : m = n
    · simp [Layout.put, hmn] at hm
    · simp only [Layout.put, Function.update_of_ne hmn] at hm ⊢
      exact h.cleared m hm
  names m k hk := by
    by_cases hmn : m = n
    · subst hmn
      simp only [Layout.put, Function.update_self, Option.some.injEq] at hk ⊢
      subst hk
      simp
    · simp only [Layout.put, Function.update_of_ne hmn] at hk ⊢
      obtain ⟨hname, hlt⟩ := h.names m k hk
      rw [Function.update_of_ne (by omega)]
      exact ⟨hname, by omega⟩
  detached hpf hnone := by
    simp [Layout.put, hp] at hnone
  solved q m hq _ := by
    obtain rfl : p = q := Option.some.inj (hp.symm.trans hq)
    exact hsolver
  live q k hk := by
    by_cases hnew : k = s.next
    · subst hnew
      have hq : q = p := by
        by_contra hq
        simp only [Layout.put, Function.update_of_ne hq] at hk
        exact absurd (h.lt_next hk) (by omega)
      subst hq
      simp [Layout.put, hp]
    · have hold : k ∈ s.installed q := by
        by_cases hq : q = p
        · subst hq
          simpa [Layout.put, hnew] using hk
        · simpa [Layout.put, Function.update_of_ne hq] using hk
      obtain ⟨hpar, hc⟩ := h.live q k hold
      have hne : (s.heap k).firstAttribute ≠ n := by
        rintro rfl
        simp [hn] at hc
      exact ⟨hpar, by simpa [Layout.put, Function.update_of_ne hnew, Function.update_of_ne hne]
        using hc⟩
  nodup q := by
    by_cases hq : q = p
    · subst hq
      simp only [Layout.put, Function.update_self, List.nodup_append]
      refine ⟨h.nodup q, by simp, ?_⟩
      intro a ha b hb
      simp only [List.mem_singleton] at hb
      have := h.lt_next ha
      omega
    · simpa [Layout.put, Function.update_of_ne hq] using h.nodup q
  good q m u hq hu := by
    obtain rfl : p = q := Option.some.inj (hp.symm.trans hq)
    by_cases hmn : m = n
    · subst hmn
      simp only [Layout.put, Function.update_self, Option.some.injEq] at hu
      subst hu
      exact Or.inl ⟨s.next, by simp [Layout.put], by simp [Layout.put], by simp [Layout.put]⟩
    · simp only [Layout.put, Function.update_of_ne hmn] at hu
      have hheap : ∀ k, s.constraints m = some k →
          Function.update s.heap s.next (layoutObject pf own n v p) k = s.heap k := by
        intro k hk
        have := (h.names m k hk).2
        rw [Function.update_of_ne (by omega)]
      rcases h.good p m u hp hu with ⟨k, hk, hmem, hlo⟩ | ⟨hm, hpend⟩
      · exact Or.inl ⟨k, by simpa [Layout.put, Function.update_of_ne hmn] using hk,
          by simp [Layout.put, hmem], by simp only [Layout.put]; rw [hheap k hk, hlo]⟩
      · refine Or.inr ⟨hm, fun k hk => ?_⟩
        simp only [Layout.put, Function.update_of_ne hmn] at hk ⊢
        obtain ⟨hnot, hmac, hre⟩ := hpend k hk
        have := (h.names m k hk).2
        rw [hheap k hk]
        refine ⟨?_, hmac, hre⟩
        simp only [Function.update_self, List.mem_append, List.mem_singleton, not_or]
        exact ⟨hnot, by omega⟩

/-- Removing the constraint of a property is what clearing does. -/
theorem Inv.clear_eq (h : Inv pf own solver todo s) {p : C} {n : Name} {k : Nat}
    (hp : s.parent = some p) (hk : s.constraints n = some k) :
    Layout.clear s n =
      { s with
        user := Function.update s.user n none
        constraints := Function.update s.constraints n none
        installed := Function.update s.installed p ((s.installed p).erase k) } := by
  have hinstalled : (fun q => (s.installed q).filter fun j => s.constraints n ≠ some j) =
      Function.update s.installed p ((s.installed p).erase k) := by
    funext q
    by_cases hq : q = p
    · subst hq
      rw [Function.update_self, (h.nodup q).erase_eq_filter]
      refine List.filter_congr fun j _ => Bool.eq_iff_iff.mpr ?_
      simp only [hk, ne_eq, Option.some.injEq, decide_eq_true_eq, bne_iff_ne]
      exact ne_comm
    · rw [Function.update_of_ne hq, List.filter_eq_self]
      intro j hj
      have := (h.live q j hj).1
      exact absurd (Option.some.inj (this.symm.trans hp)) hq
  simp only [Layout.clear, hinstalled]

omit [DecidableEq C] in
/-- A property without a constraint has nothing to clear. -/
theorem clear_eq_of_none {n : Name} (hn : s.constraints n = none) :
    Layout.clear s n = { s with user := Function.update s.user n none } := by
  have hinstalled : (fun q => (s.installed q).filter fun j => s.constraints n ≠ some j) =
      s.installed := by
    funext q
    simp [hn]
  have hconstraints : Function.update s.constraints n none = s.constraints := by
    rw [← hn, Function.update_eq_self]
  simp only [Layout.clear, hinstalled, hconstraints]

/-- Nothing is live on a control without a parent. -/
theorem Inv.installed_nil (h : Inv pf own solver todo s) (hp : s.parent = none) (q : C) :
    s.installed q = [] := by
  refine List.eq_nil_iff_forall_not_mem.mpr fun k hk => ?_
  have := (h.live q k hk).1
  simp [hp] at this

/-- A value for a property of a detached control is kept for later. -/
theorem Inv.keep (h : Inv pf own solver todo s) {n : Name} {v : Value C} (hp : s.parent = none) :
    Inv pf own solver todo' { s with
      user := Function.update s.user n (some v)
      listeners := s.listeners ++ [n] } where
  alive := h.alive
  listening m hm := by
    by_cases hmn : m = n
    · simp [hmn]
    · simp only [Function.update_of_ne hmn] at hm
      exact List.mem_append_left _ (h.listening m hm)
  cleared m hm := by
    by_cases hmn : m = n
    · simp [hmn] at hm
    · simp only [Function.update_of_ne hmn] at hm
      exact h.cleared m hm
  names := h.names
  detached := h.detached
  solved p m hq _ := by simp [hp] at hq
  live := h.live
  nodup := h.nodup
  good p m u hq _ := by simp [hp] at hq

/-- Setting only the constant of a live constraint keeps the invariant. -/
theorem Inv.setConstant (h : Inv pf own solver todo s) {p : C} {n : Name} {v : Value C} {k : Nat}
    (hp : s.parent = some p) (hk : s.constraints n = some k) (hmem : k ∈ s.installed p)
    (hre : ¬ Reinstalls (s.heap k) (layoutObject pf own n v p))
    (hsecond : (s.heap k).secondItem = (layoutObject pf own n v p).secondItem ∧
      (s.heap k).secondAttribute = (layoutObject pf own n v p).secondAttribute)
    (htodo : ∀ m ∈ todo, m = n ∨ m ∈ todo') :
    Inv pf own solver todo' { s with
      user := Function.update s.user n (some v)
      constraints := Function.update s.constraints n (some k)
      listeners := s.listeners ++ [n]
      heap := Function.update s.heap k
        { s.heap k with constant := (layoutObject pf own n v p).constant } } := by
  have hheap : { s.heap k with constant := (layoutObject pf own n v p).constant } =
      layoutObject pf own n v p := by
    have hfirst := (h.names n k hk).1
    have hmult : (s.heap k).multiplier = (layoutObject pf own n v p).multiplier := by
      by_contra hne
      exact hre (Or.inl hne)
    have hlo : (layoutObject pf own n v p).firstAttribute = n := layoutObject_firstAttribute n v p
    revert hsecond hfirst hmult hlo
    generalize s.heap k = a
    generalize layoutObject pf own n v p = b
    rintro ⟨h1, h2⟩ h3 h4 h5
    cases a
    cases b
    simp_all
  have hconstraints : Function.update s.constraints n (some k) = s.constraints := by
    rw [← hk, Function.update_eq_self]
  have hfirst : ∀ j, (Function.update s.heap k (layoutObject pf own n v p) j).firstAttribute =
      (s.heap j).firstAttribute := by
    intro j
    by_cases hj : j = k
    · subst hj
      simp [(h.names n j hk).1]
    · rw [Function.update_of_ne hj]
  rw [hheap, hconstraints]
  constructor
  · exact h.alive
  · intro m hm
    by_cases hmn : m = n
    · simp [hmn]
    · simp only [Function.update_of_ne hmn] at hm
      exact List.mem_append_left _ (h.listening m hm)
  · intro m hm
    by_cases hmn : m = n
    · simp [hmn] at hm
    · simp only [Function.update_of_ne hmn] at hm
      exact h.cleared m hm
  · intro m j hj
    simp only [hfirst]
    exact h.names m j hj
  · exact h.detached
  · intro q m hq _
    obtain rfl : p = q := Option.some.inj (hp.symm.trans hq)
    refine h.solved p n hp fun hnone => ?_
    simp [h.cleared n hnone] at hk
  · intro q j hj
    simp only [hfirst]
    exact h.live q j hj
  · exact h.nodup
  · intro q m u hq hu
    obtain rfl : p = q := Option.some.inj (hp.symm.trans hq)
    by_cases hmn : m = n
    · subst hmn
      simp only [Function.update_self, Option.some.injEq] at hu
      subst hu
      exact Or.inl ⟨k, hk, hmem, by simp⟩
    · simp only [Function.update_of_ne hmn] at hu
      have hother : ∀ j, s.constraints m = some j →
          Function.update s.heap k (layoutObject pf own n v p) j = s.heap j :=
        fun j hj => Function.update_of_ne (h.ne_of_ne hj hk hmn) _ _
      rcases h.good p m u hp hu with ⟨j, hj, hjmem, hlo⟩ | ⟨hm, hpend⟩
      · exact Or.inl ⟨j, hj, hjmem, (hother j hj).trans hlo⟩
      · refine Or.inr ⟨(htodo m hm).resolve_left hmn, fun j hj =>
          ⟨(hpend j hj).1, (hpend j hj).2.1, ?_⟩⟩
        change Reinstalls (Function.update s.heap k (layoutObject pf own n v p) j) _
        rw [hother j hj]
        exact (hpend j hj).2.2

/-- A constraint that is not unremovable is taken off the parent. -/
theorem Inv.removes (h : Inv pf own solver todo s) {n : Name} {k : Nat} {p : C}
    {value : Option (Value C)} (hp : s.parent = some p) (hk : s.constraints n = some k)
    (hremove : ¬ Unremovable pf own solver s n value)
    (hre : ∀ v, value = some v → Reinstalls (s.heap k) (layoutObject pf own n v p)) (t : State C)
    (ht : t.parent = some p) :
    removeLayoutConstraint pf solver t (some k) = ⟨t.uninstall p (some k), none⟩ := by
  have hset : s.user n ≠ none := fun hnone => by simp [h.cleared n hnone] at hk
  have hnobody := h.solved p n hp hset
  cases pf with
  | mac => simp [removeLayoutConstraint, ht, hnobody]
  | win =>
      have hview : solver p = .view := by
        by_contra hview
        exact hremove ⟨rfl, p, k, hp, hk, hview, hre⟩
      simp [removeLayoutConstraint, ht, hview]

/-- **The setter.**  An assignment that is not refused, on a parent with a solver that can
remove what is to be removed, and that either replaces the constraint or finds it live and
changes nothing but the constant, returns and keeps the invariant. -/
theorem Inv.assign (h : Inv pf own solver todo s) {n : Name} {value : Option (Value C)}
    (hok : refused pf s n = false)
    (hsolver : ∀ p, s.parent = some p → value ≠ none → solver p ≠ .nobody)
    (hremove : ¬ Unremovable pf own solver s n value)
    (hchange : ∀ p k v, s.parent = some p → s.constraints n = some k → value = some v →
      (k ∈ s.installed p ∧ Updates (s.heap k) (layoutObject pf own n v p)) ∨
        Reinstalls (s.heap k) (layoutObject pf own n v p))
    (htodo : ∀ m ∈ todo, m = n ∨ m ∈ todo') :
    (Layout.assign pf own solver s n value).error = none ∧
      Inv pf own solver todo' (Layout.assign pf own solver s n value).state ∧
      (Layout.assign pf own solver s n value).state.user = Function.update s.user n value ∧
      (Layout.assign pf own solver s n value).state.parent = s.parent := by
  have hclear := h.clear n htodo
  simp only [Layout.assign, hok, Bool.false_eq_true, if_false]
  cases value with
  | none =>
      cases hk : s.constraints n with
      | none =>
          rw [clear_eq_of_none hk] at hclear
          exact ⟨rfl, hclear, rfl, rfl⟩
      | some k =>
          cases hp : s.parent with
          | some p =>
              rw [h.clear_eq hp hk] at hclear
              have hremoved := h.removes hp hk hremove (by simp)
                { s with user := Function.update s.user n none } hp
              simp only [hp] at hremoved
              simp only [hremoved, State.uninstall]
              exact ⟨trivial, by simpa [hp] using hclear, trivial, trivial⟩
          | none =>
              cases pf with
              | win => simp [h.detached rfl hp n] at hk
              | mac =>
                  have hinstalled : (fun q => (s.installed q).filter fun j =>
                      s.constraints n ≠ some j) = s.installed := by
                    funext q
                    simp [h.installed_nil hp q]
                  simp only [Layout.clear, hinstalled] at hclear
                  simp only [removeLayoutConstraint]
                  exact ⟨trivial, by simpa [hp] using hclear, trivial, trivial⟩
  | some v =>
      cases hp : s.parent with
      | none => exact ⟨rfl, by simpa [hp] using h.keep (n := n) (v := v) hp, rfl, rfl⟩
      | some p =>
          have hnobody := hsolver p hp (by simp)
          have hput : Inv pf own solver todo' (Layout.put pf own (Layout.clear s n) p n v) :=
            hclear.put (s := Layout.clear s n) hp (by simp [Layout.clear]) hnobody
          cases hk : s.constraints n with
          | none =>
              rw [clear_eq_of_none hk] at hput
              simp only [addLayoutConstraint, hnobody, if_false, storeConstraint]
              exact ⟨trivial, by simpa [Layout.put, hp] using hput, trivial, trivial⟩
          | some k =>
              by_cases hre : Reinstalls (s.heap k) (layoutObject pf own n v p)
              · rw [h.clear_eq hp hk] at hput
                have hremoved := h.removes hp hk hremove
                  (fun u hu => by rwa [← Option.some.inj hu])
                  { s with
                    user := Function.update s.user n (some v), listeners := s.listeners ++ [n] } hp
                simp only [hp] at hremoved
                simp only [changeLayoutConstraint, hnobody, and_false, if_false, hre, if_true,
                  hremoved, State.uninstall, addLayoutConstraint, storeConstraint]
                exact ⟨trivial, by simpa [Layout.put, hp] using hput, trivial, trivial⟩
              · obtain ⟨hmem, hupdates⟩ := (hchange p k v hp hk rfl).resolve_right hre
                have hset := h.setConstant hp hk hmem hre (hupdates.resolve_left hre) htodo
                simp only [changeLayoutConstraint, hnobody, and_false, hre, if_false,
                  storeConstraint]
                exact ⟨trivial, by simpa [hp] using hset, trivial, trivial⟩

/-! ## Steps and runs -/

omit [DecidableEq C] in
/-- Whether an assignment is refused depends on the values only. -/
theorem refused_congr {s' : State C} (h : s'.user = s.user) (n : Name) :
    refused pf s' n = refused pf s n := by
  simp only [refused, h]

/-- **The listeners.**  When all of them have been called, every value has its
constraint. -/
theorem Inv.parentAttached (h : Inv pf own solver todo s)
    (hok : ∀ n ∈ todo, refused pf s n = false) :
    Inv pf own solver [] (Layout.parentAttached pf own solver s todo) := by
  induction todo generalizing s with
  | nil => exact h
  | cons n todo ih =>
      have hchange : ∀ p k v, s.parent = some p → s.constraints n = some k → s.user n = some v →
          (k ∈ s.installed p ∧ Updates (s.heap k) (layoutObject pf own n v p)) ∨
            Reinstalls (s.heap k) (layoutObject pf own n v p) := by
        intro p k v hp hk hv
        rcases h.good p n v hp hv with ⟨k', hk', hmem, hlo⟩ | ⟨-, hpend⟩
        · obtain rfl : k' = k := Option.some.inj (hk'.symm.trans hk)
          exact Or.inl ⟨hmem, Or.inr ⟨by rw [hlo], by rw [hlo]⟩⟩
        · exact Or.inr (hpend k hk).2.2
      -- what is installed already is the value's own, and on Windows nothing is stale
      have hremove : ¬ Unremovable pf own solver s n (s.user n) := by
        rintro ⟨rfl, p, k, hp, hk, -, hre⟩
        obtain ⟨v, hv⟩ := Option.ne_none_iff_exists'.mp fun hnone => by
          simp [h.cleared n hnone] at hk
        rcases h.good p n v hp hv with ⟨k', hk', -, hlo⟩ | ⟨-, hpend⟩
        · obtain rfl : k' = k := Option.some.inj (hk'.symm.trans hk)
          have := hre v hv
          rw [hlo] at this
          simp [Reinstalls] at this
        · exact absurd (hpend k hk).2.1 (by simp)
      obtain ⟨herror, hinv, huser, -⟩ : _ ∧ Inv pf own solver todo (Layout.assign pf own solver s n
          (s.user n)).state ∧ _ := h.assign (hok n List.mem_cons_self)
            (fun p hp hne => h.solved p n hp hne) hremove hchange (by simp)
      rw [Function.update_eq_self] at huser
      simp only [Layout.parentAttached]
      rcases hassign : Layout.assign pf own solver s n (s.user n) with ⟨s', e⟩
      rw [hassign] at herror hinv huser
      obtain rfl : e = none := herror
      exact ih hinv fun m hm => (refused_congr huser m).trans
        (hok m (List.mem_cons_of_mem _ hm))

/-- On the Mac the detaching listeners find no parent and do nothing. -/
theorem parentDettached_mac (hp : s.parent = none) (names : List Name) :
    parentDettached .mac solver s names = s := by
  induction names with
  | nil => rfl
  | cons n names ih => simp only [parentDettached, removeLayoutConstraint, hp, ih]

/-- A control that moves to a new parent, before its listeners are called. -/
theorem Inv.move (h : Inv pf own solver [] s) (p : C)
    (hsolver : ∀ name, s.user name ≠ none → solver p ≠ .nobody)
    (hstale : ∀ name k v, s.constraints name = some k → s.user name = some v →
      pf = .mac ∧ Reinstalls (s.heap k) (layoutObject pf own name v p)) :
    Inv pf own solver s.listeners { s with parent := some p, installed := fun _ => [] } where
  alive := h.alive
  listening := h.listening
  cleared := h.cleared
  names := h.names
  detached _ hp := by simp at hp
  solved q n hq hn := by
    obtain rfl : p = q := Option.some.inj hq
    exact hsolver n hn
  live q k hk := by simp at hk
  nodup q := List.nodup_nil
  good q n v hq hv := by
    obtain rfl : p = q := Option.some.inj hq
    exact Or.inr ⟨h.listening n (by simp [show s.user n = some v from hv]),
      fun k hk => ⟨by simp, hstale n k v hk hv⟩⟩

/-- Appending the control. -/
theorem Inv.appendChild (h : Inv pf own solver [] s) {p : C}
    (hok : Clean pf own solver s (.appendChild p)) :
    Inv pf own solver [] (Layout.appendChild pf own solver s p).state := by
  rcases hok with ⟨rfl, hp⟩ | ⟨hrefused, hsolver, hstale⟩
  · obtain ⟨q, hq⟩ := Option.ne_none_iff_exists'.mp hp
    simpa [Layout.appendChild, hq] using h
  · cases pf with
    | mac =>
        exact (h.move p hsolver fun name k v hk hv => ⟨rfl, hstale name k v hk hv⟩).parentAttached
          hrefused
    | win =>
        cases hp : s.parent with
        | some q => simpa [Layout.appendChild, hp] using h
        | none =>
            have hmove := (h.move p hsolver fun name k v hk _ => by
              simp [h.detached rfl hp name] at hk).parentAttached hrefused
            have hinstalled : s.installed = fun _ => [] := funext (h.installed_nil hp)
            simpa [Layout.appendChild, hp, hinstalled] using hmove

/-- Removing the control. -/
theorem Inv.removeChild (h : Inv pf own solver [] s) (hok : Clean pf own solver s .removeChild) :
    Inv pf own solver [] (Layout.removeChild pf solver s).state := by
  cases pf with
  | mac =>
      simp only [Layout.removeChild]
      rw [parentDettached_mac rfl]
      constructor
      · exact h.alive
      · exact h.listening
      · exact h.cleared
      · exact h.names
      · intro hpf
        cases hpf
      · intro p n hp
        simp at hp
      · intro q k hk
        simp at hk
      · exact fun q => List.nodup_nil
      · intro p n v hp
        simp at hp
  | win =>
      have hlisteners : s.listeners = [] := hok.resolve_left (by simp)
      have hconstraints : ∀ n, s.constraints n = none := by
        intro n
        refine h.cleared n ?_
        by_contra hn
        simpa [hlisteners] using h.listening n hn
      simp only [Layout.removeChild, hlisteners, parentDettached]
      constructor
      · exact h.alive
      · intro n hn
        simpa [hlisteners] using h.listening n hn
      · exact h.cleared
      · exact h.names
      · exact fun _ _ => hconstraints
      · intro p n hp
        simp at hp
      · intro q k hk
        have := (h.live q k hk).2
        simp [hconstraints] at this
      · exact h.nodup
      · intro p n v hp
        simp at hp

/-- Every clean step keeps the invariant. -/
theorem inv_step {t : State C} {a : Action C} (h : Inv pf own solver [] s)
    (hok : Clean pf own solver s a) (ht : step pf own solver s a = some t) :
    Inv pf own solver [] t := by
  simp only [step, h.alive, Bool.false_eq_true, if_false] at ht
  cases a with
  | appendChild p =>
      obtain rfl := Option.some.inj ht
      exact h.appendChild hok
  | removeChild =>
      obtain rfl := Option.some.inj ht
      exact h.removeChild hok
  | assign name value =>
      obtain rfl := Option.some.inj ht
      cases hrefused : refused pf s name with
      | true => simpa [assign, hrefused] using h
      | false =>
          obtain ⟨hsolver, hremove, hok⟩ := hok.resolve_left (by simp [hrefused])
          refine (h.assign hrefused hsolver hremove (fun p k v hp hk hv => ?_) (by simp)).2.1
          have hupdates := hok p k v hp hk hv
          have hset : s.user name ≠ none := by
            intro hnone
            simp [h.cleared name hnone] at hk
          obtain ⟨u, hu⟩ := Option.ne_none_iff_exists'.mp hset
          rcases h.good p name u hp hu with ⟨k', hk', hmem, -⟩ | ⟨hm, -⟩
          · obtain rfl : k' = k := Option.some.inj (hk'.symm.trans hk)
            exact Or.inl ⟨hmem, hupdates⟩
          · simp at hm

/-- The invariant holds in every state that clean steps reach. -/
theorem inv_of_reaches (h : Reaches (step pf own solver) (Clean pf own solver) start s) :
    Inv pf own solver [] s := by
  refine h.invariant (Inv pf own solver []) ?_ fun s a t hs hok ht => inv_step hs hok ht
  constructor <;> simp [start]

end Model

end Layout

import Tint.Transition
import Mathlib.Data.Multiset.AddSub
import Mathlib.Data.Rat.Defs

/-!
# The constraints of a control on Windows

`addLayoutConstraint` looks for the solver, the view of the parent or its `Child`,
and puts the layout object on `private.layoutConstraints`.  `removeLayoutConstraint`
asks the view of the parent itself and looks the native constraint up in the list:
it is not in there, and `splice(-1, 1)` takes the last entry.

* `constraints_listed_iff` -- along a run the list has an entry for each installed
  constraint and each removal goes to the solver of the constraint, if and only if
  each removal meets `Removes`;
* `first_removed` -- removing the first of two constraints drops the other's entry.
-/

namespace ConstraintList

open Transition

/-- The view of a parent: its `Child` and the view itself, as far as they have the
methods of a constraint solver. -/
structure NativeView (S : Type*) where
  child : Option S
  self : Option S

/-- `getConstraintSolver` -/
def NativeView.getConstraintSolver {S : Type*} (view : NativeView S) : Option S :=
  view.child.or view.self

/-- What a layout object has for an item. -/
inductive Item
  | undefined
  | null
  | control
  deriving DecidableEq

/-- A layout object, numbered.  Without `firstItem` its `item` counts. -/
structure LayoutObject where
  id : Nat
  firstItem : Item
  secondItem : Item
  multiplier : Option ℚ

/-- A native constraint: the solver that made it and what it was made from. -/
structure Constraint (S : Type*) where
  id : Nat
  solver : S
  object : Nat
  multiplier : ℚ
  controlSecond : Bool
  deriving DecidableEq

/-- `made` are all constraints so far, `installed` those in their solver, and
`removals` the calls of `RemoveLayoutConstraint`: of what, and of which solver. -/
structure State (S : Type*) where
  parent : Option (NativeView S)
  layoutConstraints : List Nat
  made : List (Constraint S)
  installed : List (Constraint S)
  removals : List (Option (Constraint S) × Option S)

/-- A call leaves a state, also where it throws. -/
structure Outcome (S : Type*) where
  state : State S
  threw : Bool

variable {S : Type*}

def start : State S := ⟨none, [], [], [], []⟩

/-- `addLayoutConstraint` -/
def addLayoutConstraint (s : State S) (lo : LayoutObject) : Outcome S :=
  match s.parent with
  | none => ⟨s, true⟩
  | some view =>
    match view.getConstraintSolver with
    | none => ⟨s, false⟩
    | some solver =>
      let constraint : Constraint S :=
        ⟨s.made.length, solver, lo.id, lo.multiplier.getD 0, lo.secondItem = .control⟩
      ⟨{ s with
        made := s.made ++ [constraint]
        installed := s.installed ++ [constraint]
        layoutConstraints := s.layoutConstraints ++ [lo.id] }, false⟩

variable [DecidableEq S]

/-- `removeLayoutConstraint`.  `refuses` says whether a solver throws when it does not
have the constraint.  The index that `splice` gets is -1. -/
def removeLayoutConstraint (refuses : Bool) (s : State S) (n : Option (Constraint S)) :
    Outcome S :=
  match s.parent with
  | none => ⟨s, true⟩
  | some view =>
    let s := { s with removals := s.removals ++ [(n, view.self)] }
    match view.self, n with
    -- the view has no `RemoveLayoutConstraint`
    | none, _ => ⟨s, true⟩
    | some solver, some c =>
      if c ∈ s.installed ∧ c.solver = solver then
        ⟨{ s with
          installed := s.installed.erase c
          layoutConstraints := s.layoutConstraints.dropLast }, false⟩
      else if refuses then ⟨s, true⟩
      else ⟨{ s with layoutConstraints := s.layoutConstraints.dropLast }, false⟩
    | some _, none =>
      if refuses then ⟨s, true⟩
      else ⟨{ s with layoutConstraints := s.layoutConstraints.dropLast }, false⟩

/-- The test of `changeLayoutConstraint`: the constraint has to be replaced. -/
def Reinstalls (previous : Constraint S) (lo : LayoutObject) : Prop :=
  some previous.multiplier ≠ lo.multiplier ∨
    (previous.controlSecond = false ∧ lo.secondItem ≠ .null) ∨
    (previous.controlSecond = true ∧ lo.secondItem = .null) ∨ lo.firstItem = .null

instance (previous : Constraint S) (lo : LayoutObject) : Decidable (Reinstalls previous lo) :=
  inferInstanceAs (Decidable (_ ∨ _ ∨ _ ∨ _))

/-- `changeLayoutConstraint`.  Setting the constant changes no list. -/
def changeLayoutConstraint (refuses : Bool) (s : State S) (previous : Option (Constraint S))
    (lo : LayoutObject) : Outcome S :=
  match previous with
  | none => ⟨s, true⟩
  | some c =>
    if Reinstalls c lo then
      match removeLayoutConstraint refuses s (some c) with
      | ⟨s, false⟩ => addLayoutConstraint s lo
      | ⟨s, true⟩ => ⟨s, true⟩
    else ⟨s, s.parent.isNone⟩

/-- The calls on a control, and that it gets a parent or loses it. -/
inductive Action (S : Type*)
  | add (lo : LayoutObject)
  | change (previous : Option (Constraint S)) (lo : LayoutObject)
  | remove (n : Option (Constraint S))
  | place (parent : Option (NativeView S))

/-- A constraint can be passed once it has been made. -/
def step (refuses : Bool) (s : State S) : Action S → Option (State S)
  | .add lo => some (addLayoutConstraint s lo).state
  | .change previous lo =>
    if ∀ c ∈ previous, c ∈ s.made then some (changeLayoutConstraint refuses s previous lo).state
    else none
  | .remove n =>
    if ∀ c ∈ n, c ∈ s.made then some (removeLayoutConstraint refuses s n).state else none
  | .place parent => some { s with parent := parent }

/-- The list has one entry for each installed constraint and no other, and each
removal went to the solver of its constraint. -/
structure Listed (s : State S) : Prop where
  entries : s.layoutConstraints.Perm (s.installed.map Constraint.object)
  directed : ∀ r ∈ s.removals, ∀ c, r.1 = some c → r.2 = some c.solver

/-- A removal from a control with a parent: it is of a constraint of the parent's own
view, and this one has the last entry, or it is not installed and the solver refuses
or the list is empty. -/
def Removes (refuses : Bool) (s : State S) (n : Option (Constraint S)) : Prop :=
  ∀ view, s.parent = some view →
    (∀ c, n = some c → view.self = some c.solver) ∧
      (view.self = none ∨
        (∃ c, n = some c ∧ c ∈ s.installed ∧ s.layoutConstraints.getLast? = some c.object) ∨
        ((∀ c, n = some c → c ∉ s.installed) ∧ (refuses = true ∨ s.layoutConstraints = [])))

/-- The condition on a step. -/
def Ok (refuses : Bool) (s : State S) : Action S → Prop
  | .add _ => True
  | .change previous lo => ∀ c, previous = some c → Reinstalls c lo → Removes refuses s (some c)
  | .remove n => Removes refuses s n
  | .place _ => True

/-! ## The last entry -/

/-- Dropping the last entry drops one of several exactly when it comes last. -/
theorem dropLast_perm_iff {α : Type*} {l m : List α} {a : α} (h : l.Perm (a :: m)) :
    l.dropLast.Perm m ↔ l.getLast? = some a := by
  have hne : l ≠ [] := by
    rintro rfl
    cases List.nil_perm.mp h
  obtain ⟨x, hx⟩ : ∃ x, l.getLast? = some x := ⟨_, List.getLast?_eq_some_getLast hne⟩
  have hsplit : l = l.dropLast ++ [x] := (List.dropLast_append_getLast? x hx).symm
  have hperm : (x :: l.dropLast).Perm (a :: m) := by
    have hrot : l.Perm (x :: l.dropLast) := by
      conv_lhs => rw [hsplit]
      exact List.perm_append_singleton x l.dropLast
    exact hrot.symm.trans h
  rw [hx, Option.some.injEq]
  constructor
  · intro hdrop
    have hcons : (x :: m).Perm (a :: m) := (hdrop.cons x).symm.trans hperm
    exact Multiset.cons_inj_left (s := (m : Multiset α)) |>.mp (Quot.sound hcons)
  · rintro rfl
    exact (List.perm_cons x).mp hperm

/-- Dropping an entry is no loss only where there is none. -/
theorem dropLast_perm_self_iff {α : Type*} {l m : List α} (h : l.Perm m) :
    l.dropLast.Perm m ↔ l = [] := by
  constructor
  · intro hdrop
    have hlength := hdrop.length_eq.trans h.length_eq.symm
    rw [List.length_dropLast] at hlength
    exact List.length_eq_zero_iff.mp (by omega)
  · rintro rfl
    exact h

/-! ## What a step does -/

variable {refuses : Bool} {s t : State S}

omit [DecidableEq S] in
/-- An addition goes to both lists. -/
theorem listed_add_iff (lo : LayoutObject) :
    Listed (addLayoutConstraint s lo).state ↔ Listed s := by
  unfold addLayoutConstraint
  split
  · exact Iff.rfl
  · split
    · exact Iff.rfl
    · constructor
      · intro h
        refine ⟨?_, h.directed⟩
        have hentries := h.entries
        rw [List.map_append] at hentries
        exact (List.perm_append_right_iff _).mp hentries
      · intro h
        refine ⟨?_, h.directed⟩
        rw [List.map_append]
        exact h.entries.append_right _

omit [DecidableEq S] in
/-- One more call of `RemoveLayoutConstraint` was directed to its solver. -/
theorem directed_snoc_iff (h : Listed s) (n : Option (Constraint S)) (target : Option S) :
    (∀ r ∈ s.removals ++ [(n, target)], ∀ c, r.1 = some c → r.2 = some c.solver) ↔
      ∀ c, n = some c → target = some c.solver := by
  constructor
  · intro hall
    exact hall (n, target) (List.mem_append_right _ List.mem_cons_self)
  · intro hnew r hr
    rcases List.mem_append.mp hr with hr | hr
    · exact h.directed r hr
    · obtain rfl := List.mem_singleton.mp hr
      exact hnew

omit [DecidableEq S] in
/-- A removal that takes nothing out of a solver leaves the list right where it throws
or there is no entry to drop. -/
theorem listed_drop_iff (h : Listed s) {n : Option (Constraint S)} {target : Option S}
    (hn : ∀ c, n = some c → target = some c.solver → c ∉ s.installed) :
    Listed (if refuses = true then { s with removals := s.removals ++ [(n, target)] }
      else { s with
        removals := s.removals ++ [(n, target)]
        layoutConstraints := s.layoutConstraints.dropLast }) ↔
      (∀ c, n = some c → target = some c.solver) ∧
        (∀ c, n = some c → c ∉ s.installed) ∧ (refuses = true ∨ s.layoutConstraints = []) := by
  have hdirected := directed_snoc_iff h n target
  have hdrop := dropLast_perm_self_iff h.entries
  constructor
  · intro hl
    cases refuses with
    | true =>
        have hnew := hdirected.mp hl.directed
        exact ⟨hnew, fun c hc => hn c hc (hnew c hc), Or.inl rfl⟩
    | false =>
        have hnew := hdirected.mp hl.directed
        exact ⟨hnew, fun c hc => hn c hc (hnew c hc), Or.inr (hdrop.mp hl.entries)⟩
  · rintro ⟨hnew, -, hok⟩
    cases refuses with
    | true => exact ⟨h.entries, hdirected.mpr hnew⟩
    | false => exact ⟨hdrop.mpr (hok.resolve_left Bool.false_ne_true), hdirected.mpr hnew⟩

/-- **A removal.** -/
theorem listed_remove_iff (h : Listed s) (n : Option (Constraint S)) :
    Listed (removeLayoutConstraint refuses s n).state ↔ Removes refuses s n := by
  cases hp : s.parent with
  | none =>
      have hok : Removes refuses s n := by
        intro view hview
        rw [hp] at hview
        cases hview
      simp only [removeLayoutConstraint, hp]
      exact iff_of_true h hok
  | some view =>
      have hremoves : Removes refuses s n ↔
          (∀ c, n = some c → view.self = some c.solver) ∧ (view.self = none ∨
            (∃ c, n = some c ∧ c ∈ s.installed ∧
              s.layoutConstraints.getLast? = some c.object) ∨
            ((∀ c, n = some c → c ∉ s.installed) ∧
              (refuses = true ∨ s.layoutConstraints = []))) := by
        simp only [Removes, hp, Option.some.injEq, forall_eq']
      rw [hremoves]
      cases hself : view.self with
      | none =>
          have hstate : (removeLayoutConstraint refuses s n).state =
              { s with removals := s.removals ++ [(n, none)] } := by
            simp [removeLayoutConstraint, hp, hself]
          rw [hstate]
          constructor
          · intro hl
            exact ⟨(directed_snoc_iff h n none).mp hl.directed, Or.inl rfl⟩
          · rintro ⟨hnew, -⟩
            exact ⟨h.entries, (directed_snoc_iff h n none).mpr hnew⟩
      | some solver =>
          simp only [reduceCtorEq, false_or]
          by_cases hin : ∃ c, n = some c ∧ c ∈ s.installed ∧ c.solver = solver
          · obtain ⟨c, rfl, hmem, rfl⟩ := hin
            have hstate : (removeLayoutConstraint refuses s (some c)).state =
                { s with
                  removals := s.removals ++ [(some c, some c.solver)]
                  installed := s.installed.erase c
                  layoutConstraints := s.layoutConstraints.dropLast } := by
              simp [removeLayoutConstraint, hp, hself, hmem]
            have hperm : s.layoutConstraints.Perm
                (c.object :: (s.installed.erase c).map Constraint.object) :=
              h.entries.trans ((List.perm_cons_erase hmem).map Constraint.object)
            have hown : ∀ d, some c = some d → some c.solver = some d.solver := by
              rintro d hd
              rw [Option.some.inj hd]
            rw [hstate]
            constructor
            · intro hl
              exact ⟨hown, Or.inl ⟨c, rfl, hmem, (dropLast_perm_iff hperm).mp hl.entries⟩⟩
            · rintro ⟨-, ⟨d, hd, -, hlast⟩ | ⟨hnot, -⟩⟩
              · obtain rfl := Option.some.inj hd
                exact ⟨(dropLast_perm_iff hperm).mpr hlast,
                  (directed_snoc_iff h (some c) (some c.solver)).mpr hown⟩
              · exact absurd hmem (hnot c rfl)
          · have hstate : (removeLayoutConstraint refuses s n).state =
                if refuses = true then { s with removals := s.removals ++ [(n, some solver)] }
                else { s with
                  removals := s.removals ++ [(n, some solver)]
                  layoutConstraints := s.layoutConstraints.dropLast } := by
              cases n with
              | none => cases refuses <;> simp [removeLayoutConstraint, hp, hself]
              | some c =>
                  have hnot : ¬ (c ∈ s.installed ∧ c.solver = solver) :=
                    fun hc => hin ⟨c, rfl, hc⟩
                  cases refuses <;> simp [removeLayoutConstraint, hp, hself, hnot]
            have hn : ∀ c, n = some c → some solver = some c.solver → c ∉ s.installed := by
              intro c hc hsolver hmem
              exact hin ⟨c, hc, hmem, (Option.some.inj hsolver).symm⟩
            rw [hstate, listed_drop_iff h hn]
            constructor
            · rintro ⟨hnew, hnot, hok⟩
              exact ⟨hnew, Or.inr ⟨hnot, hok⟩⟩
            · rintro ⟨hnew, ⟨c, hc, hmem, -⟩ | ⟨hnot, hok⟩⟩
              · exact absurd hmem (hn c hc (hnew c hc))
              · exact ⟨hnew, hnot, hok⟩

theorem listed_change_iff (h : Listed s) (previous : Option (Constraint S))
    (lo : LayoutObject) : Listed (changeLayoutConstraint refuses s previous lo).state ↔
      ∀ c, previous = some c → Reinstalls c lo → Removes refuses s (some c) := by
  cases previous with
  | none => exact iff_of_true h nofun
  | some c =>
      simp only [Option.some.injEq, forall_eq']
      by_cases hre : Reinstalls c lo
      · have hremove := @listed_remove_iff S _ refuses s h (some c)
        have hcond : (Reinstalls c lo → Removes refuses s (some c)) ↔
            Removes refuses s (some c) := ⟨fun hok => hok hre, fun hok _ => hok⟩
        rw [hcond]
        simp only [changeLayoutConstraint, if_pos hre]
        generalize removeLayoutConstraint refuses s (some c) = o at hremove ⊢
        obtain ⟨u, threw⟩ := o
        cases threw with
        | true => exact hremove
        | false => exact (listed_add_iff lo).trans hremove
      · simp only [changeLayoutConstraint, if_neg hre]
        exact iff_of_true h fun hc => absurd hc hre

theorem listed_step_iff {a : Action S} (h : Listed s) (ht : step refuses s a = some t) :
    Listed t ↔ Ok refuses s a := by
  cases a with
  | add lo =>
      obtain rfl := Option.some.inj ht
      exact iff_of_true ((listed_add_iff lo).mpr h) trivial
  | change previous lo =>
      obtain ⟨-, ht⟩ := Option.ite_none_right_eq_some.mp ht
      obtain rfl := Option.some.inj ht
      exact listed_change_iff h previous lo
  | remove n =>
      obtain ⟨-, ht⟩ := Option.ite_none_right_eq_some.mp ht
      obtain rfl := Option.some.inj ht
      exact listed_remove_iff h n
  | place parent =>
      obtain rfl := Option.some.inj ht
      exact iff_of_true ⟨h.entries, h.directed⟩ trivial

/-- **The constraint list.**  Along a run the list has an entry for each installed
constraint and no other, and each removal goes to the solver of its constraint,
exactly as long as each removal meets the condition. -/
theorem constraints_listed_iff (refuses : Bool) {as : List (Action S)}
    (hrun : Meets (step refuses) (fun _ _ => True) start as) :
    Throughout (step refuses) Listed (start : State S) as ↔
      Meets (step refuses) (Ok refuses) start as := by
  have hkeeps : ∀ (s : State S) (a : Action S) (t : State S), True →
      step refuses s a = some t → True := fun _ _ _ _ _ => trivial
  have hstart : Listed (start : State S) := ⟨List.Perm.refl _, nofun⟩
  exact throughout_iff_meets hkeeps (fun _ _ _ _ h ht => listed_step_iff h ht) trivial hstart
    hrun

/-- A layout object like those of `left = 10`. -/
def leftTen (id : Nat) : LayoutObject := ⟨id, .control, .control, some 1⟩

/-- The first constraint of a control, on a panel. -/
def firstConstraint : Constraint Nat := ⟨0, 7, 1, 1, true⟩

def secondConstraint : Constraint Nat := ⟨1, 7, 2, 1, true⟩

/-- Two constraints, of which the second is removed. -/
theorem constraints_listed_last :
    Throughout (step true) Listed (start : State Nat)
      [.place (some ⟨none, some 7⟩), .add (leftTen 1), .add (leftTen 2),
        .remove (some secondConstraint)] := by
  refine (constraints_listed_iff true (by decide)).mpr ?_
  refine ⟨trivial, trivial, trivial, ?_, trivial⟩
  intro view hview
  obtain rfl : ⟨none, some 7⟩ = view := Option.some.inj hview
  refine ⟨?_, Or.inr (Or.inl ⟨secondConstraint, rfl, by decide, by decide⟩)⟩
  intro c hc
  obtain rfl := Option.some.inj hc
  rfl

/-- **The wrong entry.**  Of two constraints the first is removed, and the entry of the
second goes. -/
theorem first_removed :
    ¬ Throughout (step true) Listed (start : State Nat)
      [.place (some ⟨none, some 7⟩), .add (leftTen 1), .add (leftTen 2),
        .remove (some firstConstraint)] := by
  intro h
  have hlisted : Listed _ := ((h.2 _ rfl).2 _ rfl).2 _ rfl |>.2 _ rfl
  exact absurd hlisted.entries (by decide)

end ConstraintList

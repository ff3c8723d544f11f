import Tint.Isolation
import Mathlib.Logic.Function.Basic

/-!
# The border radius of a Control on Windows

`appliedRadius` is a variable of the module Control_win.js: only the first control that
gets a radius listens to `LayoutUpdated` and is clipped.

* `isolated_iff` -- controls see what they would see alone as long as one only gets a
  radius.
-/

namespace Instances

open Transition Isolation

namespace BorderRadius

/-- The clip that a view gets: its size and the two radii. -/
structure RectangleGeometry where
  width : Int
  height : Int
  radiusX : Option Int
  radiusY : Option Int
  deriving DecidableEq

/-- A control: `private.borderRadius`, in which `NaN` has no number, whether its view has the
`LayoutUpdated` listener, and the clip of the view. -/
structure Control where
  borderRadius : List (Option Int)
  listens : Bool
  clip : Option RectangleGeometry
  deriving DecidableEq

/-- `appliedRadius` is the variable of the module. -/
structure State where
  appliedRadius : Bool
  controls : Nat → Option Control

/-- `setBorderRadius` has the numbers in the text, or nothing where the value is neither
text nor a number. -/
inductive Action
  | construct (i : Nat)
  | setBorderRadius (i : Nat) (e : Option (List (Option Int)))
  | layoutUpdated (i : Nat) (width height : Int)

/-- A new control. -/
def new : Control := ⟨[some 0, some 0, some 0, some 0], false, none⟩

/-- The four radii for the numbers that are given. -/
def radii (old : List (Option Int)) : List (Option Int) → List (Option Int)
  | [] => old
  | [a] => [a, a, a, a]
  | [a, b] => [a, b, a, b]
  | [a, b, c] => [a, b, c, a]
  | a :: b :: c :: d :: _ => [a, b, c, d]

/-- The `LayoutUpdated` listener. -/
def layout (d : Control) (width height : Int) : Control :=
  { d with
    clip := some ⟨width, height, (d.borderRadius[0]?).getD none, (d.borderRadius[1]?).getD none⟩ }

/-- One step. -/
def step (s : State) : Action → State
  | .construct i =>
    match s.controls i with
    | some _ => s
    | none => { s with controls := Function.update s.controls i (some new) }
  | .setBorderRadius i e =>
    match s.controls i, e with
    | some d, some e =>
      { appliedRadius := true,
        controls := Function.update s.controls i (some
          { d with
            borderRadius := radii d.borderRadius e
            listens := d.listens || !s.appliedRadius }) }
    | _, _ => s
  | .layoutUpdated i width height =>
    match s.controls i with
    | some d =>
      if d.listens then
        { s with controls := Function.update s.controls i (some (layout d width height)) }
      else s
    | none => s

/-- The instance that an action is for. -/
def owner : Action → Nat
  | .construct i => i
  | .setBorderRadius i _ => i
  | .layoutUpdated i _ _ => i

/-- The controls as a component. -/
def component : Component State Action (Option Control) where
  start := ⟨false, fun _ => none⟩
  step := step
  owner := owner
  view := fun s i => s.controls i

/-- The radius is set on the first control that ever gets one. -/
def Ok (s : State) : Action → Prop
  | .setBorderRadius i (some _) =>
    s.appliedRadius = true → ∀ d, s.controls i = some d → d.listens = true
  | _ => True

/-- Alone a control listens once it has a radius. -/
def Sound (p : Pair State) : Prop :=
  ∀ i, (p.alone i).appliedRadius = ((p.alone i).controls i).any Control.listens

/-- Only the control that acts changes. -/
theorem step_of_ne (s : State) {a : Action} {j : Nat} (hj : j ≠ owner a) :
    (step s a).controls j = s.controls j := by
  cases a with
  | construct i =>
      have hji : j ≠ i := hj
      simp only [step]
      split
      · rfl
      · exact Function.update_of_ne hji ..
  | setBorderRadius i e =>
      have hji : j ≠ i := hj
      simp only [step]
      split
      · exact Function.update_of_ne hji ..
      · rfl
  | layoutUpdated i width height =>
      have hji : j ≠ i := hj
      simp only [step]
      split
      · split
        · exact Function.update_of_ne hji ..
        · rfl
      · rfl

/-- Setting the radius of a control that is there. -/
theorem step_setBorderRadius {s : State} {i : Nat} {d : Control} (e : List (Option Int))
    (hd : s.controls i = some d) : step s (.setBorderRadius i (some e)) =
      { appliedRadius := true,
        controls := Function.update s.controls i (some
          { d with
            borderRadius := radii d.borderRadius e
            listens := d.listens || !s.appliedRadius }) } := by
  simp only [step, hd]

/-- Setting a radius is the one action that depends on the variable. -/
theorem step_self {s t : State} {a : Action} (h : s.controls (owner a) = t.controls (owner a))
    (ha : ∀ i e, a = .setBorderRadius i (some e) → s.controls i = none) :
    (step s a).controls (owner a) = (step t a).controls (owner a) := by
  cases a with
  | construct i =>
      have hi : s.controls i = t.controls i := h
      cases hd : s.controls i with
      | none =>
          have hd' : t.controls i = none := hi ▸ hd
          simp [step, owner, hd, hd']
      | some d =>
          have hd' : t.controls i = some d := hi ▸ hd
          simp [step, owner, hd, hd']
  | setBorderRadius i e =>
      have hi : s.controls i = t.controls i := h
      cases e with
      | none => simp [step, owner, hi]
      | some e =>
          have hd := ha i e rfl
          have hd' : t.controls i = none := hi ▸ hd
          simp [step, owner, hd, hd']
  | layoutUpdated i width height =>
      have hi : s.controls i = t.controls i := h
      cases hd : s.controls i with
      | none =>
          have hd' : t.controls i = none := hi ▸ hd
          simp [step, owner, hd, hd']
      | some d =>
          have hd' : t.controls i = some d := hi ▸ hd
          cases hl : d.listens <;> simp [step, owner, hd, hd', hl]

/-- A step keeps the states in agreement exactly if it is in order. -/
theorem agrees_step_iff {p : Pair State} (hsound : Sound p) (h : Pair.Agrees component p)
    (a : Action) :
    Pair.Agrees component (Pair.step component p a) ↔ Ok p.common a := by
  have hsame : ∀ j, p.common.controls j = (p.alone j).controls j := h
  have hothers : ∀ j, j ≠ owner a → (step p.common a).controls j = (p.alone j).controls j :=
    fun j hj => (step_of_ne p.common hj).trans (hsame j)
  have hself : Pair.Agrees component (Pair.step component p a) ↔
      (step p.common a).controls (owner a) = (step (p.alone (owner a)) a).controls (owner a) := by
    rw [agrees_step]
    exact ⟨And.left, fun hown => ⟨hown, hothers⟩⟩
  rw [hself]
  by_cases ha : ∃ i e d, a = .setBorderRadius i (some e) ∧ p.common.controls i = some d
  · obtain ⟨i, e, d, rfl, hd⟩ := ha
    have hd' : (p.alone i).controls i = some d := hsame i ▸ hd
    have hlistens : (p.alone i).appliedRadius = d.listens := by
      rw [hsound i, hd']
      rfl
    have hcommon := step_setBorderRadius e hd
    have halone := step_setBorderRadius e hd'
    change (step p.common (.setBorderRadius i (some e))).controls i =
      (step (p.alone i) (.setBorderRadius i (some e))).controls i ↔ _
    rw [hcommon, halone, hlistens]
    simp only [Function.update_self, Option.some.injEq, Control.mk.injEq, true_and, and_true,
      Bool.or_not_self, Ok, hd, forall_eq']
    cases d.listens <;> cases p.common.appliedRadius <;> simp
  · have hnone : ∀ i e, a = .setBorderRadius i (some e) → p.common.controls i = none := by
      intro i e hae
      cases hd : p.common.controls i with
      | none => rfl
      | some d => exact absurd ⟨i, e, d, hae, hd⟩ ha
    refine iff_of_true (step_self (hsame (owner a)) hnone) ?_
    cases a with
    | construct i => trivial
    | layoutUpdated i width height => trivial
    | setBorderRadius i e =>
        cases e with
        | none => trivial
        | some e =>
            intro _ d hd
            rw [hnone i e rfl] at hd
            cases hd

/-- Alone the flag says whether the control listens. -/
theorem sound_alone {s : State} {a : Action}
    (h : s.appliedRadius = (s.controls (owner a)).any Control.listens) :
    (step s a).appliedRadius = ((step s a).controls (owner a)).any Control.listens := by
  cases a with
  | construct i =>
      have hi : s.appliedRadius = (s.controls i).any Control.listens := h
      cases hd : s.controls i with
      | none =>
          rw [hd] at hi
          simpa [step, owner, hd, new] using hi
      | some d => simpa [step, owner, hd] using hi
  | setBorderRadius i e =>
      have hi : s.appliedRadius = (s.controls i).any Control.listens := h
      cases hd : s.controls i with
      | none => simpa [step, owner, hd] using hi
      | some d =>
          cases e with
          | none => simpa [step, owner, hd] using hi
          | some e =>
              rw [hd] at hi
              simp [step, owner, hd, hi]
  | layoutUpdated i width height =>
      have hi : s.appliedRadius = (s.controls i).any Control.listens := h
      cases hd : s.controls i with
      | none => simpa [step, owner, hd] using hi
      | some d =>
          rw [hd] at hi
          cases hl : d.listens <;> simpa [step, owner, hd, hl, layout] using hi

theorem sound_step {p : Pair State} (h : Sound p) (a : Action) :
    Sound (Pair.step component p a) :=
  Pair.alone_step (c := component) (A := fun i s => s.appliedRadius =
    (s.controls i).any Control.listens) (fun _ hs => sound_alone hs) h

/-- Controls see what they would see alone exactly as long as one only gets a radius. -/
theorem isolated_iff (as : List Action) :
    Isolated component as ↔ Meets component.next Ok component.start as :=
  isolated_iff_meets (fun _ a hsound _ _ => sound_step hsound a)
    (fun _ a hsound h => agrees_step_iff hsound h a) (fun _ => rfl) as

end BorderRadius

end Instances

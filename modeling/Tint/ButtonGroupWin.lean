import Tint.ListEdit
import Tint.Transition
import Mathlib.Data.List.Basic
import Mathlib.Logic.Function.Basic

/-!
# The selected button of a group on Windows

`ButtonGroup_win` checks the button that is selected and unchecks the others.  `selected` clamps
the index that it stores, not the one that it compares with.  A button selects itself when it is
pressed: with the index that it had when it was appended, which a listener holds on to, also
after other buttons or the button itself have been removed.  The listener hears a press only
where the button has a native handler, which it gets with a listener for `mousedown`.

* `selection_iff` -- after each assignment and press just the button at `selected` is checked,
  a press selects the button that is pressed, and removing another control changes nothing,
  exactly when the indices that are compared with are those of the buttons;
* `right_of_appended` -- so it is as long as no button is removed or appended twice, the
  indices that are assigned exist, and the buttons that are pressed are heard;
* `selected_out_of_range` -- an index that is too large unchecks all buttons.
-/

namespace ButtonGroupWin

open ListEdit Transition

/-- `private` and the native panel of a group; the buttons with their native `IsChecked`, and
for each button the indices that its listeners for `private-pre-mousedown` hold. -/
structure State where
  segmentedButtons : List Nat
  selected : Int
  /-- `native.Children` -/
  children : List Nat
  checked : Nat → Bool
  listeners : Nat → List Nat

/-- A group that has just been constructed. -/
def start (checked : Nat → Bool) : State := ⟨[], 0, [], checked, fun _ => []⟩

/-- The calls, a press of a button with or without a native handler, and what else checks or
unchecks a button. -/
inductive Action
  | appendChild (button : Nat)
  | removeChild (button : Nat)
  | select (e : Int)
  | press (button : Nat) (heard : Bool)
  | check (button : Nat) (isChecked : Bool)
  deriving DecidableEq

section Model

/-- The loop of `selected` from button `i` on. -/
def checkAll (e : Int) : Nat → List Nat → (Nat → Bool) → Nat → Bool
  | _, [], checked => checked
  | i, button :: rest, checked =>
      checkAll e (i + 1) rest (Function.update checked button (decide ((i : Int) = e)))

/-- `selected` -/
def select (s : State) (e : Int) : State :=
  let buttons := s.segmentedButtons
  { s with
    selected :=
      if buttons.length = 0 then 0
      else if e > (buttons.length : Int) - 1 then (buttons.length : Int) - 1
      else if e < 0 then 0
      else e
    checked := checkAll e 0 buttons s.checked }

-- the buttons that are in other panels
variable (placed : Nat → Bool)

/-- `appendChild`.  Adding a native button that is a child already throws, last of all. -/
def appendChild (s : State) (button : Nat) : State :=
  let ndx := s.segmentedButtons.length
  { s with
    segmentedButtons := s.segmentedButtons ++ [button]
    listeners := Function.update s.listeners button (s.listeners button ++ [ndx])
    children :=
      if button ∈ s.children ∨ placed button = true then s.children else s.children ++ [button] }

/-- `removeChild`: `splice(-1, 1)` takes out the last one. -/
def removeChild (s : State) (button : Nat) : State :=
  { s with
    segmentedButtons :=
      if button ∈ s.segmentedButtons then s.segmentedButtons.erase button
      else s.segmentedButtons.dropLast
    children := s.children.erase button }

/-- The listeners of the button for `private-pre-mousedown`, in turn. -/
def press (s : State) (button : Nat) (heard : Bool) : State :=
  if heard then (s.listeners button).foldl (fun s (ndx : Nat) => select s ndx) s else s

def call (s : State) : Action → State
  | .appendChild button => appendChild placed s button
  | .removeChild button => removeChild s button
  | .select e => select s e
  | .press button heard => press s button heard
  | .check button isChecked => { s with checked := Function.update s.checked button isChecked }

def step (s : State) (a : Action) : Option State := some (call placed s a)

/-! ## The property and the condition -/

/-- Just the button at `selected` is checked. -/
def OneChecked (s : State) : Prop :=
  ∃ i : Nat, s.selected = i ∧ ∃ button, s.segmentedButtons[i]? = some button ∧
    ∀ other ∈ s.segmentedButtons, s.checked other = true ↔ other = button

/-- **A right step.** -/
def Right (s : State) : Action → Prop
  | .select e => s.segmentedButtons ≠ [] → OneChecked (select s e)
  | .press button heard => s.segmentedButtons ≠ [] → OneChecked (press s button heard) ∧
      (button ∈ s.segmentedButtons → ∃ i : Nat, (press s button heard).selected = i ∧
        s.segmentedButtons[i]? = some button)
  | .removeChild button => button ∉ s.segmentedButtons → removeChild s button = s
  | _ => True

/-- The index of a button, its last one if it is in the group more than once. -/
def LastIndex (buttons : List Nat) (i button : Nat) : Prop :=
  buttons[i]? = some button ∧ ∀ j, buttons[j]? = some button → j ≤ i

/-- **The condition.**  An index that is assigned is that of a button, as is the last one that a
listener of the button holds which is pressed, and it is the index of that button if it is in
the group; where no listener hears the press, the group is right before.  Another control is
removed only where there are no buttons, and it is in the panel neither. -/
def Indexed (s : State) : Action → Prop
  | .select e => s.segmentedButtons = [] ∨
      ∃ i button, e = (i : Nat) ∧ LastIndex s.segmentedButtons i button
  | .press button heard => s.segmentedButtons = [] ∨
      match heard, (s.listeners button).getLast? with
      | true, some i => ∃ other, LastIndex s.segmentedButtons i other ∧
          (button ∈ s.segmentedButtons → other = button)
      | _, _ => OneChecked s ∧ (button ∈ s.segmentedButtons →
          ∃ i : Nat, s.selected = i ∧ s.segmentedButtons[i]? = some button)
  | .removeChild button => button ∈ s.segmentedButtons ∨
      (s.segmentedButtons = [] ∧ button ∉ s.children)
  | _ => True

end Model

/-! ## Selecting -/

section Selecting

variable {s : State} {e : Int}

/-- A button that is not in the group stays as it is. -/
theorem checkAll_of_not_mem {i : Nat} {buttons : List Nat} {button : Nat} (h : button ∉ buttons)
    (checked : Nat → Bool) : checkAll e i buttons checked button = checked button := by
  induction buttons generalizing i checked with
  | nil => rfl
  | cons first rest ih =>
      rw [List.mem_cons, not_or] at h
      rw [checkAll, ih h.2, Function.update_of_ne h.1]

/-- A button is checked by its last turn in the loop. -/
theorem checkAll_iff {i : Nat} {buttons : List Nat} {checked : Nat → Bool}
    {button : Nat} (hmem : button ∈ buttons) :
    checkAll e i buttons checked button = true ↔
      ∃ j, LastIndex buttons j button ∧ ((i + j : Nat) : Int) = e := by
  induction buttons generalizing i checked with
  | nil => cases hmem
  | cons first rest ih =>
      by_cases hrest : button ∈ rest
      · rw [checkAll, ih hrest]
        constructor
        · intro h
          obtain ⟨j, ⟨hj, hlast⟩, he⟩ := h
          refine ⟨j + 1, ⟨hj, fun k hk => ?_⟩, by rw [← he]; congr 1; omega⟩
          cases k with
          | zero => exact Nat.zero_le _
          | succ k => exact Nat.succ_le_succ (hlast k hk)
        · intro h
          obtain ⟨j, ⟨hj, hlast⟩, he⟩ := h
          -- it comes again behind the first one
          obtain ⟨k, hk⟩ := List.mem_iff_getElem?.mp hrest
          have hle := hlast (k + 1) hk
          obtain ⟨j, rfl⟩ : ∃ j', j = j' + 1 := ⟨j - 1, by omega⟩
          refine ⟨j, ⟨hj, fun k hk => ?_⟩, by rw [← he]; congr 1; omega⟩
          exact Nat.le_of_succ_le_succ (hlast (k + 1) hk)
      · have hfirst : button = first := (List.mem_cons.mp hmem).resolve_right hrest
        subst hfirst
        rw [checkAll, checkAll_of_not_mem hrest, Function.update_self, decide_eq_true_eq]
        constructor
        · intro he
          refine ⟨0, ⟨rfl, fun k hk => ?_⟩, he⟩
          cases k with
          | zero => exact Nat.le_refl _
          | succ k => exact absurd (List.mem_iff_getElem?.mpr ⟨k, hk⟩) hrest
        · intro h
          obtain ⟨j, ⟨hj, -⟩, he⟩ := h
          cases j with
          | zero => exact he
          | succ j => exact absurd (List.mem_iff_getElem?.mpr ⟨j, hj⟩) hrest

theorem select_selected {i : Nat} (hi : i < s.segmentedButtons.length) :
    (select s i).selected = i := by
  simp only [select]
  rw [if_neg (by omega), if_neg (by omega), if_neg (by omega)]

/-- **Selecting.**  Just one button is checked exactly when the index is that of a button. -/
theorem select_oneChecked_iff :
    OneChecked (select s e) ↔
      ∃ i button, e = (i : Nat) ∧ LastIndex s.segmentedButtons i button := by
  constructor
  · intro h
    obtain ⟨i, -, button, hi, hall⟩ := h
    have hmem : button ∈ s.segmentedButtons := List.mem_of_getElem? hi
    obtain ⟨j, hj, he⟩ := (checkAll_iff hmem).mp ((hall button hmem).mpr rfl)
    exact ⟨j, button, by rw [← he, Nat.zero_add], hj⟩
  · intro h
    obtain ⟨i, button, rfl, hi⟩ := h
    have hlt : i < s.segmentedButtons.length := (List.getElem?_eq_some_iff.mp hi.1).1
    refine ⟨i, select_selected hlt, button, hi.1, fun other hother => ?_⟩
    refine (checkAll_iff hother).trans ?_
    constructor
    · intro hchecked
      obtain ⟨j, hj, he⟩ := hchecked
      obtain rfl : j = i := by omega
      exact Option.some.inj (hj.1.symm.trans hi.1)
    · intro hsame
      subst hsame
      exact ⟨i, hi, by rw [Nat.zero_add]⟩

/-- The last one counts. -/
theorem select_select (e' : Int) : select (select s e') e = select s e := by
  have hchecked : checkAll e 0 s.segmentedButtons (checkAll e' 0 s.segmentedButtons s.checked) =
      checkAll e 0 s.segmentedButtons s.checked := by
    funext button
    by_cases hmem : button ∈ s.segmentedButtons
    · rw [Bool.eq_iff_iff, checkAll_iff hmem, checkAll_iff hmem]
    · rw [checkAll_of_not_mem hmem, checkAll_of_not_mem hmem, checkAll_of_not_mem hmem]
  simp only [select, hchecked]
  rfl

theorem foldl_select (l : List Nat) (s : State) :
    l.foldl (fun s (ndx : Nat) => select s ndx) s =
      match l.getLast? with
      | some ndx => select s ndx
      | none => s := by
  induction l generalizing s with
  | nil => rfl
  | cons ndx l ih =>
      rw [List.foldl_cons, ih, List.getLast?_cons]
      cases l.getLast? with
      | none => rfl
      | some last => exact select_select ndx

end Selecting

/-! ## One step -/

section Steps

variable {placed : Nat → Bool} {s : State}

theorem ne_nil_imp_iff {buttons : List Nat} {p q : Prop} (h : buttons ≠ [] → (p ↔ q)) :
    (buttons ≠ [] → p) ↔ buttons = [] ∨ q := by
  by_cases hnil : buttons = []
  · simp [hnil]
  · simp [hnil, h hnil]

/-- A press that a listener hears selects by its index. -/
theorem press_right_iff {button : Nat} {heard : Bool} :
    Right s (.press button heard) ↔ Indexed s (.press button heard) := by
  refine ne_nil_imp_iff fun _ => ?_
  cases heard with
  | false => exact Iff.rfl
  | true =>
      have hpress : press s button true = match (s.listeners button).getLast? with
          | some ndx => select s ndx
          | none => s := foldl_select _ _
      rw [hpress]
      cases (s.listeners button).getLast? with
      | none => exact Iff.rfl
      | some ndx =>
          simp only [select_oneChecked_iff]
          constructor
          · intro h
            obtain ⟨⟨i, other, hi, hlast⟩, hself⟩ := h
            obtain rfl := Int.ofNat.inj hi
            have hlt : ndx < s.segmentedButtons.length :=
              (List.getElem?_eq_some_iff.mp hlast.1).1
            refine ⟨other, hlast, fun hmem => ?_⟩
            obtain ⟨j, hj, hbutton⟩ := hself hmem
            rw [select_selected hlt] at hj
            obtain rfl := Int.ofNat.inj hj
            exact Option.some.inj (hlast.1.symm.trans hbutton)
          · intro h
            obtain ⟨other, hlast, hself⟩ := h
            have hlt : ndx < s.segmentedButtons.length :=
              (List.getElem?_eq_some_iff.mp hlast.1).1
            refine ⟨⟨ndx, other, rfl, hlast⟩, fun hmem => ⟨ndx, select_selected hlt, ?_⟩⟩
            rw [← hself hmem]
            exact hlast.1

/-- Another control takes the last button with it. -/
theorem removeChild_right_iff {button : Nat} :
    Right s (.removeChild button) ↔ Indexed s (.removeChild button) := by
  by_cases hmem : button ∈ s.segmentedButtons
  · exact iff_of_true (fun hnot => absurd hmem hnot) (.inl hmem)
  · have hright : Right s (.removeChild button) ↔ removeChild s button = s :=
      ⟨fun h => h hmem, fun h _ => h⟩
    have hindexed : Indexed s (.removeChild button) ↔
        s.segmentedButtons = [] ∧ button ∉ s.children :=
      ⟨fun h => h.resolve_left hmem, fun h => .inr h⟩
    rw [hright, hindexed, removeChild, if_neg hmem]
    constructor
    · intro hsame
      have hbuttons := congrArg (fun s : State => s.segmentedButtons.length) hsame
      have hchildren := congrArg State.children hsame
      simp only [List.length_dropLast] at hbuttons
      refine ⟨List.length_eq_zero_iff.mp (by omega), fun hin => ?_⟩
      have hlength := congrArg List.length hchildren
      have hpos := List.length_pos_of_mem hin
      simp only [List.length_erase_of_mem hin] at hlength
      omega
    · intro hnone
      obtain ⟨hnil, hout⟩ := hnone
      rw [hnil, List.erase_of_not_mem hout, List.dropLast_nil, ← hnil]

/-- **One step.** -/
theorem right_iff_indexed (s : State) (a : Action) : Right s a ↔ Indexed s a := by
  cases a with
  | appendChild button => exact Iff.rfl
  | check button isChecked => exact Iff.rfl
  | select e => exact ne_nil_imp_iff fun _ => select_oneChecked_iff
  | press button heard => exact press_right_iff
  | removeChild button => exact removeChild_right_iff

/-! ## All steps -/

/-- **Selection.**  All steps of a run are right exactly when all of them meet the condition. -/
theorem selection_iff (placed checked : Nat → Bool) (actions : List Action) :
    Meets (step placed) Right (start checked) actions ↔
      Meets (step placed) Indexed (start checked) actions :=
  meets_congr (J := fun _ => True) (fun _ _ _ _ _ => trivial)
    (fun s a _ _ _ => right_iff_indexed s a) trivial actions

/-- No button is removed or appended again, an index that is assigned exists, and a press is
that of a button of the group, which has the native handler. -/
def Plain (s : State) : Action → Prop
  | .appendChild button => button ∉ s.segmentedButtons
  | .removeChild _ => False
  | .select e => ∃ i : Nat, e = i ∧ i < s.segmentedButtons.length
  | .press button heard => button ∈ s.segmentedButtons ∧ heard = true
  | .check _ _ => True

/-- The listener of each button holds its index. -/
structure Numbered (s : State) : Prop where
  nodup : s.segmentedButtons.Nodup
  listeners : ∀ i button, s.segmentedButtons[i]? = some button → s.listeners button = [i]
  others : ∀ button, button ∉ s.segmentedButtons → s.listeners button = []

theorem Numbered.lastIndex (h : Numbered s) {i button : Nat}
    (hi : s.segmentedButtons[i]? = some button) : LastIndex s.segmentedButtons i button := by
  refine ⟨hi, fun j hj => ?_⟩
  have hsame := (h.listeners i button hi).symm.trans (h.listeners j button hj)
  exact Nat.le_of_eq (List.cons.inj hsame).1.symm

/-- A button that is appended has the next index. -/
theorem appendChild_numbered (h : Numbered s) {button : Nat} (hnew : button ∉ s.segmentedButtons) :
    Numbered (appendChild placed s button) := by
  refine ⟨?_, fun i other hi => ?_, fun other hother => ?_⟩
  · exact List.nodup_append.mpr ⟨h.nodup, List.pairwise_singleton _ _, fun a ha b hb hab =>
      hnew (List.mem_singleton.mp hb ▸ hab ▸ ha)⟩
  · simp only [appendChild, getElem?_concat_iff] at hi ⊢
    rcases hi with hi | hlast
    · have hne : other ≠ button := fun heq => hnew (heq ▸ List.mem_of_getElem? hi)
      rw [Function.update_of_ne hne]
      exact h.listeners i other hi
    · obtain ⟨hi, hbutton⟩ := hlast
      rw [← hbutton, Function.update_self, h.others button hnew, hi, List.nil_append]
  · simp only [appendChild, List.mem_append, List.mem_singleton, not_or] at hother ⊢
    rw [Function.update_of_ne hother.2]
    exact h.others other hother.1

/-- **Without removals.**  Then everything is right. -/
theorem right_of_appended (placed checked : Nat → Bool) {actions : List Action}
    (h : Meets (step placed) Plain (start checked) actions) :
    Meets (step placed) Right (start checked) actions := by
  refine meets_imp_of_kept (J := Numbered) ?_ ?_ ?_ h
  · intro s a t hnumbered hplain hstep
    obtain rfl := Option.some.inj hstep
    cases a with
    | appendChild button => exact appendChild_numbered hnumbered hplain
    | removeChild button => exact hplain.elim
    | select e => exact ⟨hnumbered.nodup, hnumbered.listeners, hnumbered.others⟩
    | check button isChecked => exact ⟨hnumbered.nodup, hnumbered.listeners, hnumbered.others⟩
    | press button heard =>
        have hpress : call placed s (.press button heard) = s ∨
            ∃ e, call placed s (.press button heard) = select s e := by
          cases heard with
          | false => exact .inl rfl
          | true =>
              have hfold : call placed s (.press button true) = _ := foldl_select _ _
              rw [hfold]
              cases (s.listeners button).getLast? with
              | none => exact .inl rfl
              | some ndx => exact .inr ⟨ndx, rfl⟩
        rcases hpress with hsame | hselect
        · rw [hsame]
          exact hnumbered
        · obtain ⟨e, he⟩ := hselect
          rw [he]
          exact ⟨hnumbered.nodup, hnumbered.listeners, hnumbered.others⟩
  · intro s a hnumbered hplain
    rw [right_iff_indexed]
    cases a with
    | appendChild button => trivial
    | removeChild button => exact hplain.elim
    | check button isChecked => trivial
    | select e =>
        obtain ⟨i, he, hlt⟩ := hplain
        exact .inr ⟨i, _, he, hnumbered.lastIndex (List.getElem?_eq_getElem hlt)⟩
    | press button heard =>
        obtain ⟨hmem, rfl⟩ := hplain
        obtain ⟨i, hi⟩ := List.mem_iff_getElem?.mp hmem
        right
        rw [hnumbered.listeners i button hi]
        exact ⟨button, hnumbered.lastIndex hi, fun _ => rfl⟩
  · exact ⟨List.nodup_nil, fun i button hi => (by cases hi), fun _ _ => rfl⟩

/-- `selected = 1` in a group of one button: none is checked, and `selected` is 0. -/
theorem selected_out_of_range :
    ¬ ∀ (placed checked : Nat → Bool) (actions : List Action),
      Meets (step placed) Right (start checked) actions := by
  intro hall
  have hrun := hall (fun _ => false) (fun _ => false) [.appendChild 0, .select 1]
  have hright : Right _ (.select 1) := hrun.2.1
  obtain ⟨i, button, hi, hlast⟩ := select_oneChecked_iff.mp (hright (by decide))
  obtain rfl : i = 1 := by omega
  cases hlast.1

end Steps

end ButtonGroupWin

import Tint.Isolation
import Mathlib.Logic.Function.Basic

/-!
# FileDialog on Windows

The `type` of FileDialog_win.js looks like a variable of the constructor and is one of
the module: it is that of the dialog constructed last, and the getters and setters of
all dialogs read it.

* `isolated_iff` -- dialogs see what they would see alone as long as all are of one
  type.
-/

namespace Instances

open Transition Isolation

namespace FileDialog

/-- What a dialog's listeners get, and an exception for its caller. -/
inductive Outcome
  | select
  | cancel
  | threw
  deriving DecidableEq

/-- A dialog: `$dialog`, a `SaveFileDialog` or not, `$dirDialog`, and the variables of the
constructor. -/
structure Dialog where
  save : Bool
  title : String
  initialDirectory : String
  fileNames : List String
  multiselect : Bool
  description : String
  selectedPath : String
  canChooseDirectories : Bool
  message : String
  outcomes : List Outcome
  deriving DecidableEq

/-- `type` is the variable of the module. -/
structure State where
  type : Option String
  dialogs : Nat → Option Dialog

/-- What is done with a dialog; `shown` is the answer to `ShowDialog`, with what was
chosen. -/
inductive Operation
  | setTitle (e : String)
  | setMessage (e : String)
  | setDirectory (e : String)
  | setFilename (val : String)
  | setAllowMultiple (e : Bool)
  | setAllowDirectories (e : Bool)
  | shown (chosen : Option (List String))
  | cancel

inductive Action
  | construct (i : Nat) (t : Option String)
  | operate (i : Nat) (o : Operation)

/-- `t || "open"` -/
def typeOf (t : Option String) : String :=
  match t with
  | some t => if t = "" then "open" else t
  | none => "open"

/-- The constructor, once it has set `type`. -/
def new (type : String) : Dialog where
  save := type = "save"
  title := ""
  initialDirectory := ""
  fileNames := []
  multiselect := false
  description := ""
  selectedPath := ""
  canChooseDirectories := false
  message := ""
  outcomes := []

/-- The setters, `open` and `cancel`.  `getFullPath` is `System.IO.Path.GetFullPath`. -/
def operate (getFullPath : String → String) (type : Option String) (d : Dialog) :
    Operation → Dialog
  | .setTitle e => if d.canChooseDirectories then d else { d with title := e }
  | .setMessage e =>
    if d.canChooseDirectories then { d with description := e } else { d with message := e }
  | .setDirectory e =>
    if d.canChooseDirectories then { d with selectedPath := getFullPath e }
    else { d with initialDirectory := getFullPath e }
  | .setFilename val => if d.canChooseDirectories then d else { d with fileNames := [val] }
  | .setAllowMultiple e =>
    if d.canChooseDirectories then { d with outcomes := d.outcomes ++ [.threw] }
    else if type = some "save" ∧ e = true then { d with outcomes := d.outcomes ++ [.threw] }
    else if type = some "save" ∧ e = false then d
    else { d with multiselect := e }
  | .setAllowDirectories e =>
    if type = some "save" then d else { d with canChooseDirectories := e }
  | .shown chosen =>
    match chosen with
    | none => { d with outcomes := d.outcomes ++ [.cancel] }
    | some names =>
      if d.canChooseDirectories then
        { d with
          selectedPath := names.headD d.selectedPath
          outcomes := d.outcomes ++ [.select] }
      else { d with fileNames := names, outcomes := d.outcomes ++ [.select] }
  | .cancel => { d with outcomes := d.outcomes ++ [.cancel] }

/-- `selection`: a list, one path, or an exception where there is no file name. -/
inductive Selection
  | list (paths : List String)
  | one (path : String)
  | threw

/-- The properties of a dialog, and the dialog itself with its native objects. -/
structure Report where
  title : String
  message : String
  directory : String
  filename : Option String
  type : Option String
  allowMultiple : Bool
  allowDirectories : Bool
  selection : Selection
  dialog : Dialog

/-- The getters. -/
def report (type : Option String) (d : Dialog) : Report where
  title := if d.canChooseDirectories then "" else d.title
  message := if d.canChooseDirectories then d.description else d.message
  directory := if d.canChooseDirectories then d.selectedPath else d.initialDirectory
  filename := if d.canChooseDirectories then none else some (d.fileNames.headD "")
  type := type
  allowMultiple :=
    if d.canChooseDirectories then false
    else if type = some "save" then false
    else d.multiselect
  allowDirectories := if type = some "save" then false else d.canChooseDirectories
  selection :=
    if d.canChooseDirectories then
      if type = some "open" then .list [d.selectedPath] else .one d.selectedPath
    else if type = some "open" then .list d.fileNames
    else
      match d.fileNames with
      | name :: _ => .one name
      | [] => .threw
  dialog := d

/-- A dialog is constructed once, and before anything is done with it. -/
def step (getFullPath : String → String) (s : State) : Action → State
  | .construct i t =>
    match s.dialogs i with
    | some _ => s
    | none =>
      { type := some (typeOf t), dialogs := Function.update s.dialogs i (some (new (typeOf t))) }
  | .operate i o =>
    match s.dialogs i with
    | some d =>
      { s with dialogs := Function.update s.dialogs i (some (operate getFullPath s.type d o)) }
    | none => s

def owner : Action → Nat
  | .construct i _ => i
  | .operate i _ => i

def component (getFullPath : String → String) : Component State Action (Option Report) where
  start := ⟨none, fun _ => none⟩
  step := step getFullPath
  owner := owner
  view := fun s i => (s.dialogs i).map (report s.type)

/-- A dialog of another type is constructed before all others only. -/
def Ok (s : State) : Action → Prop
  | .construct i t =>
    s.dialogs i ≠ none ∨ ∀ j, s.dialogs j ≠ none → s.type = some (typeOf t)
  | .operate _ _ => True

variable {getFullPath : String → String}

/-- What is seen of a dialog tells the dialog and the type. -/
theorem view_eq_iff {s t : State} {i : Nat} :
    (component getFullPath).view s i = (component getFullPath).view t i ↔
      s.dialogs i = t.dialogs i ∧ (s.dialogs i ≠ none → s.type = t.type) := by
  apply map_report_iff
  intro g h d e heq
  exact ⟨congrArg Report.type heq, congrArg Report.dialog heq⟩

theorem construct_iff {p : Pair State} (h : Pair.Agrees (component getFullPath) p) (i : Nat)
    (t : Option String) :
    Pair.Agrees (component getFullPath) (Pair.step (component getFullPath) p (.construct i t)) ↔
      Ok p.common (.construct i t) := by
  have hsame : ∀ j, p.common.dialogs j = (p.alone j).dialogs j ∧
      (p.common.dialogs j ≠ none → p.common.type = (p.alone j).type) :=
    fun j => view_eq_iff.mp (h j)
  obtain ⟨hi, -⟩ := hsame i
  cases hd : p.common.dialogs i with
  | some d =>
      have hd' : (p.alone i).dialogs i = some d := hi ▸ hd
      have hne : p.common.dialogs i ≠ none := by
        rw [hd]
        exact Option.some_ne_none d
      refine iff_of_true (agrees_of_still h ?_ ?_) (Or.inl hne)
      · simp only [component, step, hd]
      · simp only [component, step, owner, hd']
  | none =>
      have hd' : (p.alone i).dialogs i = none := hi ▸ hd
      have hcommon : (component getFullPath).step p.common (.construct i t) =
          { type := some (typeOf t),
            dialogs := Function.update p.common.dialogs i (some (new (typeOf t))) } := by
        simp only [component, step, hd]
      have halone : (component getFullPath).step (p.alone i) (.construct i t) =
          { type := some (typeOf t),
            dialogs := Function.update (p.alone i).dialogs i (some (new (typeOf t))) } := by
        simp only [component, step, hd']
      rw [agrees_step]
      simp only [view_eq_iff]
      constructor
      · intro ⟨_, hothers⟩
        right
        intro j hj
        have hji : j ≠ i := by
          rintro rfl
          exact hj hd
        obtain ⟨-, htype⟩ := hothers j hji
        rw [hcommon] at htype
        simp only [Function.update_of_ne hji] at htype
        exact ((hsame j).2 hj).trans (htype hj).symm
      · intro hok
        have htypes := hok.resolve_left (fun hne => hne hd)
        refine ⟨?_, ?_⟩
        · change ((component getFullPath).step p.common (.construct i t)).dialogs i =
              ((component getFullPath).step (p.alone i) (.construct i t)).dialogs i ∧
            (((component getFullPath).step p.common (.construct i t)).dialogs i ≠ none →
              ((component getFullPath).step p.common (.construct i t)).type =
                ((component getFullPath).step (p.alone i) (.construct i t)).type)
          rw [hcommon, halone]
          simp only [Function.update_self]
          exact ⟨trivial, fun _ => trivial⟩
        · intro j hj
          have hji : j ≠ i := hj
          rw [hcommon]
          simp only [Function.update_of_ne hji]
          refine ⟨(hsame j).1, ?_⟩
          intro hne
          exact (htypes j hne).symm.trans ((hsame j).2 hne)

/-- What is done with a dialog is seen of it alone, as it would be without the others. -/
theorem operate_agrees {p : Pair State} (h : Pair.Agrees (component getFullPath) p) (i : Nat)
    (o : Operation) :
    Pair.Agrees (component getFullPath) (Pair.step (component getFullPath) p (.operate i o)) := by
  have hsame : ∀ j, p.common.dialogs j = (p.alone j).dialogs j ∧
      (p.common.dialogs j ≠ none → p.common.type = (p.alone j).type) :=
    fun j => view_eq_iff.mp (h j)
  obtain ⟨hi, htype⟩ := hsame i
  cases hd : p.common.dialogs i with
  | none =>
      have hd' : (p.alone i).dialogs i = none := hi ▸ hd
      apply agrees_of_still h
      · simp only [component, step, hd]
      · simp only [component, step, owner, hd']
  | some d =>
      have hd' : (p.alone i).dialogs i = some d := hi ▸ hd
      have htypes := htype (by rw [hd]; exact Option.some_ne_none d)
      rw [agrees_step]
      simp only [view_eq_iff]
      refine ⟨?_, ?_⟩
      · simp only [component, step, owner, hd, hd', htypes, Function.update_self]
        exact ⟨trivial, fun _ => trivial⟩
      · intro j hj
        have hji : j ≠ i := hj
        simp only [component, step, hd, Function.update_of_ne hji]
        exact hsame j

theorem agrees_step_iff (p : Pair State) (a : Action)
    (h : Pair.Agrees (component getFullPath) p) :
    Pair.Agrees (component getFullPath) (Pair.step (component getFullPath) p a) ↔
      Ok p.common a := by
  cases a with
  | construct i t => exact construct_iff h i t
  | operate i o => exact iff_of_true (operate_agrees h i o) trivial

/-- Dialogs see what they would see alone exactly as long as all are of one type. -/
theorem isolated_iff (getFullPath : String → String) (as : List Action) :
    Isolated (component getFullPath) as ↔
      Meets (component getFullPath).next Ok (component getFullPath).start as := by
  have hkeeps : ∀ (p : Pair State) (a : Action), True → Pair.Agrees (component getFullPath) p →
      Pair.Agrees (component getFullPath) (Pair.step (component getFullPath) p a) → True :=
    fun _ _ _ _ _ => trivial
  exact isolated_iff_meets hkeeps (fun p a _ h => agrees_step_iff p a h) trivial as

end FileDialog

end Instances

import Tint.Transition
import Mathlib.Data.List.Induction
import Mathlib.Data.List.Nodup
import Mathlib.Logic.Function.Basic

/-!
# The panes of a split view on Windows

`Split_win` is a grid of one row or one column.  Between its panes lie dividers,
which are made by `appendChild` and kept in `private.dividers`; panes and
dividers together are the children, each in the grid cell that its attached
property `Grid.Column` or `Grid.Row` says, and the grid has one definition for
each of them.

* `split_consistent_iff` -- the children, the definitions, the dividers and the
  grid indices agree all along a sequence of calls if and only if only the last
  pane is ever removed, no pane is appended twice, and the orientation is not
  switched to vertical while there are two panes;
* `first_pane_not_removed` -- removing the first of two panes throws after one of
  the definitions is gone.

`appendChild` is given one control, as it is documented; that it is given an array, whose
controls the container appends, is left out.
-/

namespace SplitWin

open Transition

variable {P : Type}

/-- The values of `orientation`. -/
inductive Orientation
  | vertical
  | horizontal
  deriving DecidableEq

/-- A child: a pane, or the object with `isSplitter` that stands for a divider. -/
inductive Child (P : Type)
  | pane (p : P)
  | splitter (id : Nat)
  deriving DecidableEq

/-- `isSplitter` -/
def Child.isSplitter : Child P → Bool
  | .pane _ => false
  | .splitter _ => true

/-- The divider that a child stands for. -/
def Child.divider? : Child P → Option Nat
  | .pane _ => none
  | .splitter id => some id

/-- `private` and the native grid.  Definitions and dividers are objects; `created`
counts the ones made so far. -/
structure State (P : Type) where
  orientation : Orientation
  children : List (Child P)
  definitions : List Nat
  dividers : List Nat
  /-- `nativeView.Children` -/
  native : List (Child P)
  columnDefinitions : List Nat
  rowDefinitions : List Nat
  /-- `Grid.Column` of a child -/
  column : Child P → Nat
  /-- `Grid.Row` of a child -/
  row : Child P → Nat
  created : Nat

/-- A split view that has just been constructed. -/
def start : State P := ⟨.vertical, [], [], [], [], [], [], fun _ => 0, fun _ => 0, 0⟩

/-- A call returns or throws; either way it leaves a state. -/
structure Outcome (P : Type) where
  state : State P
  error : Option String

/-- The native definitions of the orientation. -/
def State.nativeDefinitions (s : State P) : List Nat :=
  match s.orientation with
  | .vertical => s.columnDefinitions
  | .horizontal => s.rowDefinitions

/-- The grid index of a child in the direction of the orientation. -/
def State.gridIndex (s : State P) : Child P → Nat :=
  match s.orientation with
  | .vertical => s.column
  | .horizontal => s.row

/-- Replace the native definitions of the orientation. -/
def State.setNativeDefinitions (s : State P) (definitions : List Nat) : State P :=
  match s.orientation with
  | .vertical => { s with columnDefinitions := definitions }
  | .horizontal => { s with rowDefinitions := definitions }

section Model

variable [DecidableEq P]

/-- `SetValue` of `Grid.ColumnProperty` -/
def State.setColumn (s : State P) (child : Child P) (index : Nat) : State P :=
  { s with column := Function.update s.column child index }

/-- `SetValue` of `Grid.RowProperty` -/
def State.setRow (s : State P) (child : Child P) (index : Nat) : State P :=
  { s with row := Function.update s.row child index }

/-- `setGridSplitterDirection`; alignment and size of the divider are left out. -/
def State.setGridSplitterDirection (s : State P) (splitter : Child P) (isVertical : Bool)
    (index : Nat) : State P :=
  if isVertical then (s.setColumn splitter index).setRow splitter 0
  else (s.setColumn splitter 0).setRow splitter index

/-- `createNewDefinition`, added to the native definitions and to
`private.definitions`. -/
def State.addDefinition (s : State P) : State P :=
  { s.setNativeDefinitions (s.nativeDefinitions ++ [s.created]) with
    definitions := s.definitions ++ [s.created]
    created := s.created + 1 }

/-- `private.backupAppend`, which is `appendChild` of `Container`.  A view that
is in the grid already cannot be added. -/
def backupAppend (s : State P) (child : Child P) : Outcome P :=
  let s := { s with children := s.children ++ [child] }
  if child ∈ s.native then ⟨s, some "InvalidOperationException"⟩
  else ⟨{ s with native := s.native ++ [child] }, none⟩

/-- `private.backupRemove`, which is `removeChild` of `Container`. -/
def backupRemove (s : State P) (child : Child P) : State P :=
  { s with children := s.children.erase child, native := s.native.erase child }

/-- The divider that `appendChild` puts before every pane but the first. -/
def appendDivider (s : State P) : State P :=
  let index := s.definitions.length
  let s := s.addDefinition
  let divider := s.created
  let s := { s with created := s.created + 1 }
  let s := s.setGridSplitterDirection (.splitter divider) (s.orientation = .vertical) index
  let s := (backupAppend s (.splitter divider)).state
  { s with dividers := s.dividers ++ [divider] }

/-- The pane that `appendChild` appends. -/
def appendPane (s : State P) (e : P) : Outcome P :=
  let index := s.definitions.length
  let appended := backupAppend s (.pane e)
  if appended.error.isSome then appended
  else
    let s := match s.orientation with
      | .vertical => appended.state.setColumn (.pane e) index
      | .horizontal => appended.state.setRow (.pane e) index
    ⟨s.addDefinition, none⟩

/-- `appendChild` -/
def appendChild (s : State P) (e : P) : Outcome P :=
  appendPane (if s.definitions.length ≠ 0 then appendDivider s else s) e

/-- `RemoveAt` of the native definitions, which throws if the index is out of
range. -/
def removeDefinitionAt (s : State P) (index : Int) : Outcome P :=
  if 0 ≤ index ∧ index < s.nativeDefinitions.length then
    ⟨s.setNativeDefinitions (s.nativeDefinitions.eraseIdx index.toNat), none⟩
  else ⟨s, some "ArgumentOutOfRangeException"⟩

/-- `dividers[index/2 - 1]`, for an index that is not 0. -/
def dividerBefore (s : State P) (index : Nat) : Option Nat :=
  if index % 2 = 0 then s.dividers[index / 2 - 1]? else none

/-- The end of `removeChild`: the pane goes with the divider before it. -/
def removeWithDivider (s : State P) (e : P) (index : Nat) : Outcome P :=
  match dividerBefore s index with
  | none => ⟨s, some "Cannot read property 'native' of undefined"⟩
  | some divider =>
      let s := backupRemove s (.splitter divider)
      let s := { s with dividers := s.dividers.eraseIdx (index / 2 - 1) }
      ⟨backupRemove s (.pane e), none⟩

/-- `removeChild`, of a child at `index`. -/
def removeAt (s : State P) (e : P) (index : Nat) : Outcome P :=
  if 1 < s.children.length then
    let first := removeDefinitionAt s index
    if first.error.isSome then first
    else
      let second := removeDefinitionAt first.state (index - 1)
      if second.error.isSome then second
      else
        let s := second.state
        removeWithDivider
          { s with definitions := (s.definitions.eraseIdx index).eraseIdx (index - 1) } e index
  else
    let first := removeDefinitionAt s 0
    if first.error.isSome then first
    else
      let s := first.state
      ⟨backupRemove { s with definitions := s.definitions.eraseIdx index } (.pane e), none⟩

/-- `removeChild`, of a current pane. -/
def removeChild (s : State P) (e : P) : Outcome P := removeAt s e (s.children.idxOf (.pane e))

/-- A child in the loop of the `orientation` setter.  Switched to vertical, the
panes get the index as their row. -/
def State.reset (s : State P) (child : Child P) (index : Nat) : State P :=
  if child.isSplitter then
    s.setGridSplitterDirection child (s.orientation = .vertical) index
  else
    (s.setColumn child 0).setRow child index

/-- The loop of the `orientation` setter, over the new definitions. -/
def resetAll : List Nat → Nat → State P → Outcome P
  | [], _, s => ⟨s, none⟩
  | item :: items, index, s =>
      let s := s.setNativeDefinitions (s.nativeDefinitions ++ [item])
      match s.children[index]? with
      | none => ⟨s, some "Cannot read property 'isSplitter' of undefined"⟩
      | some child => resetAll items (index + 1) (s.reset child index)

/-- The `orientation` setter. -/
def setOrientation (s : State P) (e : Orientation) : Outcome P :=
  if e = s.orientation then ⟨s, none⟩
  else
    let definitions := (List.range s.definitions.length).map fun n => s.created + n
    resetAll definitions 0
      { s with
        orientation := e
        definitions
        created := s.created + definitions.length
        columnDefinitions := []
        rowDefinitions := [] }

/-- The calls. -/
inductive Call (P : Type)
  | appendChild (e : P)
  | removeChild (e : P)
  | setOrientation (e : Orientation)

/-- One call. -/
def call (s : State P) : Call P → Outcome P
  | .appendChild e => appendChild s e
  | .removeChild e => removeChild s e
  | .setOrientation e => setOrientation s e

/-- Any pane may be appended, any current pane removed. -/
def InRange (s : State P) : Call P → Prop
  | .appendChild _ => True
  | .removeChild e => .pane e ∈ s.children
  | .setOrientation _ => True

instance (s : State P) : DecidablePred (InRange s) := fun c => by
  cases c <;> unfold InRange <;> infer_instance

/-- A call in range. -/
def step (s : State P) (c : Call P) : Option (State P) :=
  if InRange s c then some (call s c).state else none

/-- Panes and splitters in turn, in the native view as well; one definition for
each; the dividers are the splitters; and each child is in the cell of its
position. -/
structure Aligned (s : State P) : Prop where
  native : s.native = s.children
  alternate : ∀ i child, s.children[i]? = some child → child.isSplitter = decide (i % 2 = 1)
  definitions : s.definitions.length = s.children.length
  nativeDefinitions : s.nativeDefinitions = s.definitions
  dividers : s.dividers = s.children.filterMap Child.divider?
  gridIndex : ∀ i child, s.children[i]? = some child → s.gridIndex child = i
  created : ∀ id, .splitter id ∈ s.children → id < s.created

/-- **Consistency.**  The children are aligned, and there are `2n - 1` of them for
`n` panes. -/
structure Consistent (s : State P) : Prop extends Aligned s where
  odd : s.children = [] ∨ s.children.length % 2 = 1

/-- The condition on a call: a new pane is appended, the last pane is removed,
and the orientation is switched to vertical only while there is at most one
pane. -/
def KeepsGrid (s : State P) : Call P → Prop
  | .appendChild e => .pane e ∉ s.children
  | .removeChild e => s.children.getLast? = some (.pane e)
  | .setOrientation e => e = .horizontal ∨ s.orientation = .vertical ∨ s.children.length ≤ 1

instance (s : State P) : DecidablePred (KeepsGrid s) := fun c => by
  cases c <;> unfold KeepsGrid <;> infer_instance

/-! ## States -/

section States

variable {s s' : State P}

omit [DecidableEq P] in
@[simp] theorem setNativeDefinitions_nativeDefinitions (s : State P) (definitions : List Nat) :
    (s.setNativeDefinitions definitions).nativeDefinitions = definitions := by
  obtain ⟨o, _⟩ := s
  cases o <;> rfl

omit [DecidableEq P] in
/-- A child is at one position only. -/
theorem Aligned.position (h : Aligned s) {i j : Nat} {child : Child P}
    (hi : s.children[i]? = some child) (hj : s.children[j]? = some child) : i = j :=
  (h.gridIndex i child hi).symm.trans (h.gridIndex j child hj)

omit [DecidableEq P] in
theorem Aligned.nodup (h : Aligned s) : s.children.Nodup := by
  rw [List.nodup_iff_getElem?_ne_getElem?]
  intro i j hij hj heq
  have hget : s.children[j]? = some s.children[j] := List.getElem?_eq_getElem hj
  exact Nat.ne_of_lt hij (h.position (heq.trans hget) hget)

/-- A child that follows in turn is put at the end of all four collections. -/
theorem Aligned.push (h : Aligned s) (child : Child P) (definition : Nat)
    (hnew : child ∉ s.children)
    (hturn : child.isSplitter = decide (s.children.length % 2 = 1))
    (hnative : s'.native = s.native ++ [child]) (hchildren : s'.children = s.children ++ [child])
    (hdefinitions : s'.definitions = s.definitions ++ [definition])
    (hnativeDefinitions : s'.nativeDefinitions = s.nativeDefinitions ++ [definition])
    (hdividers : s'.dividers = s.dividers ++ child.divider?.toList)
    (hgrid : ∀ c, s'.gridIndex c = if c = child then s.children.length else s.gridIndex c)
    (hcreated : s.created ≤ s'.created) (hdivider : ∀ id, child = .splitter id → id < s'.created) :
    Aligned s' := by
  have hget : ∀ i c, s'.children[i]? = some c →
      s.children[i]? = some c ∨ (i = s.children.length ∧ c = child) := by
    intro i c hc
    rw [hchildren, List.getElem?_append] at hc
    split at hc
    · exact .inl hc
    · next hi =>
      obtain ⟨hlt, rfl⟩ := List.getElem?_eq_some_iff.mp hc
      have : i - s.children.length < 1 := hlt
      exact .inr ⟨by omega, by simp⟩
  refine ⟨?_, ?_, ?_, ?_, ?_, ?_, ?_⟩
  · rw [hnative, hchildren, h.native]
  · intro i c hc
    rcases hget i c hc with hc | ⟨rfl, rfl⟩
    · exact h.alternate i c hc
    · exact hturn
  · simp [hdefinitions, hchildren, h.definitions]
  · rw [hnativeDefinitions, hdefinitions, h.nativeDefinitions]
  · cases child <;> simp [hdividers, hchildren, h.dividers, Child.divider?]
  · intro i c hc
    rcases hget i c hc with hc | ⟨rfl, rfl⟩
    · have hne : c ≠ child := ne_of_mem_of_not_mem (List.mem_of_getElem? hc) hnew
      rw [hgrid, if_neg hne]
      exact h.gridIndex i c hc
    · rw [hgrid, if_pos rfl]
  · intro id hid
    rw [hchildren] at hid
    rcases List.mem_append.mp hid with hid | hid
    · exact Nat.lt_of_lt_of_le (h.created id hid) hcreated
    · exact hdivider id (List.mem_singleton.mp hid).symm

/-! ## Appending -/

omit [DecidableEq P] in
/-- A new divider is in no grid yet. -/
theorem Aligned.fresh (h : Aligned s) {id : Nat} (hid : s.created ≤ id) :
    .splitter id ∉ s.children :=
  fun hmem => Nat.lt_irrefl _ (Nat.lt_of_lt_of_le (h.created id hmem) hid)

/-- The steps of `appendDivider` and `appendChild`, to be computed for one
orientation. -/
theorem appendDivider_eq (s : State P) (hnative : .splitter (s.created + 1) ∉ s.native) :
    appendDivider s =
      { s.addDefinition.setGridSplitterDirection (.splitter (s.created + 1))
          (s.orientation = .vertical) s.definitions.length with
        created := s.created + 2
        children := s.children ++ [.splitter (s.created + 1)]
        native := s.native ++ [.splitter (s.created + 1)]
        dividers := s.dividers ++ [s.created + 1] } := by
  obtain ⟨o, _⟩ := s
  cases o <;>
    simp_all [appendDivider, State.addDefinition, State.setNativeDefinitions,
      State.nativeDefinitions, State.setGridSplitterDirection, State.setColumn, State.setRow,
      backupAppend]

/-- The divider follows a pane. -/
theorem appendDivider_aligned (h : Aligned s) (hodd : s.children.length % 2 = 1) :
    Aligned (appendDivider s) := by
  have hfresh := h.fresh (Nat.le_succ s.created)
  rw [appendDivider_eq s (h.native ▸ hfresh)]
  refine h.push (.splitter (s.created + 1)) s.created hfresh (by simp [Child.isSplitter, hodd])
    rfl rfl ?_ ?_ rfl ?_ (Nat.le_add_right _ 2) (by simp) <;>
    obtain ⟨o, _⟩ := s <;> cases o <;> try rfl
  all_goals
    intro c
    simp [State.gridIndex, State.setGridSplitterDirection, State.setColumn, State.setRow,
      State.addDefinition, State.setNativeDefinitions, Function.update_apply, h.definitions]

/-- The pane follows a divider, or it is the first child. -/
theorem appendPane_aligned (h : Aligned s) {e : P} (hnew : .pane e ∉ s.children)
    (heven : s.children.length % 2 = 0) : Aligned (appendPane s e).state := by
  have hnative : .pane e ∉ s.native := h.native ▸ hnew
  refine h.push (.pane e) s.created hnew
    (by simp [Child.isSplitter, heven]) ?_ ?_ ?_ ?_ ?_ ?_ ?_ (by simp) <;>
    obtain ⟨o, _⟩ := s <;> cases o <;>
    simp [appendPane, backupAppend, hnative, State.setColumn, State.setRow, State.addDefinition,
      State.setNativeDefinitions, State.nativeDefinitions, Child.divider?, State.gridIndex,
      Function.update_apply, h.definitions]

/-- A pane comes behind the others. -/
theorem appendPane_children (s : State P) (e : P) :
    (appendPane s e).state.children = s.children ++ [.pane e] := by
  unfold appendPane backupAppend
  obtain ⟨o, _⟩ := s
  cases o <;> simp only <;> split <;> simp_all [State.setColumn, State.setRow, State.addDefinition,
    State.setNativeDefinitions]

/-- The state in which the pane is appended. -/
theorem appendChild_first (h : Consistent s) :
    Aligned (if s.definitions.length ≠ 0 then appendDivider s else s) ∧
    (if s.definitions.length ≠ 0 then appendDivider s else s).children.length % 2 = 0 ∧
    ∀ e : P, .pane e ∈ (if s.definitions.length ≠ 0 then appendDivider s else s).children ↔
      .pane e ∈ s.children := by
  split
  · next hne =>
    have hodd : s.children.length % 2 = 1 := by
      rcases h.odd with hnil | hodd
      · exact absurd (by simp [h.definitions, hnil]) hne
      · exact hodd
    have hfresh := h.fresh (Nat.le_succ s.created)
    have hchildren : (appendDivider s).children = s.children ++ [.splitter (s.created + 1)] := by
      rw [appendDivider_eq s (h.native ▸ hfresh)]
    refine ⟨appendDivider_aligned h.toAligned hodd, ?_, fun e => ?_⟩
    · rw [hchildren, List.length_append, List.length_singleton]
      omega
    · simp [hchildren]
  · next hzero =>
    have hlength : s.children.length = 0 := by rw [← h.definitions]; omega
    exact ⟨h.toAligned, by rw [hlength], fun _ => Iff.rfl⟩

/-- A pane can be appended once. -/
theorem appendChild_consistent_iff (h : Consistent s) (e : P) :
    Consistent (appendChild s e).state ↔ .pane e ∉ s.children := by
  obtain ⟨hfirst, heven, hmem⟩ := appendChild_first h
  unfold appendChild
  constructor
  · intro hafter hin
    have hnodup := hafter.nodup
    rw [appendPane_children] at hnodup
    exact (List.nodup_append.mp hnodup).2.2 _ ((hmem e).mpr hin) _ (by simp) rfl
  · intro hnew
    refine ⟨appendPane_aligned hfirst (fun hin => hnew ((hmem e).mp hin)) heven, .inr ?_⟩
    rw [appendPane_children, List.length_append, List.length_singleton]
    omega

/-! ## Switching the orientation -/

/-- The grid index that `reset` gives a child: panes get none as a column. -/
def resetIndex (o : Orientation) (child : Child P) (index : Nat) : Nat :=
  if o = .vertical ∧ child.isSplitter = false then 0 else index

/-- A child that is reset has the index of its place. -/
theorem reset_gridIndex (s : State P) (child c : Child P) (index : Nat) :
    (s.reset child index).gridIndex c =
      if c = child then resetIndex s.orientation child index else s.gridIndex c := by
  obtain ⟨o, _⟩ := s
  cases o <;> cases child <;>
    simp [State.reset, State.gridIndex, State.setGridSplitterDirection, State.setColumn,
      State.setRow, Child.isSplitter, resetIndex, Function.update_apply]

/-- What is the same in both states but the grid indices and the native definitions. -/
structure SameChildren (s s' : State P) : Prop where
  orientation : s'.orientation = s.orientation
  children : s'.children = s.children
  definitions : s'.definitions = s.definitions
  dividers : s'.dividers = s.dividers
  native : s'.native = s.native
  created : s'.created = s.created

omit [DecidableEq P] in
theorem SameChildren.trans {s t u : State P} (h : SameChildren s t) (h' : SameChildren t u) :
    SameChildren s u :=
  ⟨h'.orientation.trans h.orientation, h'.children.trans h.children,
    h'.definitions.trans h.definitions, h'.dividers.trans h.dividers, h'.native.trans h.native,
    h'.created.trans h.created⟩

/-- One turn of the loop. -/
theorem turn_same (s : State P) (definitions : List Nat) (child : Child P) (index : Nat) :
    SameChildren s ((s.setNativeDefinitions definitions).reset child index) ∧
      ((s.setNativeDefinitions definitions).reset child index).nativeDefinitions = definitions := by
  obtain ⟨o, _⟩ := s
  cases o <;> cases child <;> exact ⟨⟨rfl, rfl, rfl, rfl, rfl, rfl⟩, rfl⟩

/-- **The loop of the setter.**  It adds the definitions, and the children from
`index` on get the indices that `reset` gives them. -/
theorem resetAll_spec : ∀ (items : List Nat) (index : Nat) (s : State P), s.children.Nodup →
    index + items.length = s.children.length →
    SameChildren s (resetAll items index s).state ∧
    (resetAll items index s).state.nativeDefinitions = s.nativeDefinitions ++ items ∧
    (∀ i child, index ≤ i → s.children[i]? = some child →
      (resetAll items index s).state.gridIndex child = resetIndex s.orientation child i) ∧
    (∀ child, (∀ i, index ≤ i → s.children[i]? ≠ some child) →
      (resetAll items index s).state.gridIndex child = s.gridIndex child) := by
  intro items
  induction items with
  | nil =>
      intro index s _ hlength
      refine ⟨⟨rfl, rfl, rfl, rfl, rfl, rfl⟩, (List.append_nil _).symm, ?_, fun _ _ => rfl⟩
      intro i child hi hget
      have := (List.getElem?_eq_some_iff.mp hget).1
      simp only [List.length_nil] at hlength
      omega
  | cons item items ih =>
      intro index s hnodup hlength
      have hlt : index < s.children.length := by
        rw [← hlength, List.length_cons]
        omega
      obtain ⟨child, hchild⟩ : ∃ child, s.children[index]? = some child :=
        ⟨_, List.getElem?_eq_getElem hlt⟩
      obtain ⟨t, ht⟩ : ∃ t, ((s.setNativeDefinitions (s.nativeDefinitions ++ [item])).reset child
          index) = t := ⟨_, rfl⟩
      obtain ⟨hsame, hdefinitions⟩ := ht ▸ turn_same s (s.nativeDefinitions ++ [item]) child index
      have hgrid : ∀ c, t.gridIndex c =
          if c = child then resetIndex s.orientation child index else s.gridIndex c := by
        intro c
        rw [← ht, reset_gridIndex]
        obtain ⟨o, _⟩ := s
        cases o <;> rfl
      have hrun : resetAll (item :: items) index s = resetAll items (index + 1) t := by
        have hget : (s.setNativeDefinitions (s.nativeDefinitions ++ [item])).children[index]? =
            some child := by
          obtain ⟨o, _⟩ := s
          cases o <;> exact hchild
        rw [resetAll]
        simp only [hget, ht]
      obtain ⟨hsame', hdefinitions', hreset, hother⟩ := ih (index + 1) t (hsame.children ▸ hnodup)
        (by rw [hsame.children, ← hlength, List.length_cons]; omega)
      rw [hsame.children, hsame.orientation] at hreset
      rw [hsame.children] at hother
      rw [hrun]
      refine ⟨hsame.trans hsame', by simp [hdefinitions', hdefinitions], ?_, ?_⟩
      · intro i c hi hget
        rcases Nat.lt_or_eq_of_le hi with hi | rfl
        · exact hreset i c hi hget
        · obtain rfl : c = child := Option.some.inj (hget.symm.trans hchild)
          -- the later turns do not reach the child again
          have hlater : ∀ i, index + 1 ≤ i → s.children[i]? ≠ some c := fun i hi heq =>
            List.nodup_iff_getElem?_ne_getElem?.mp hnodup index i hi
              (List.getElem?_eq_some_iff.mp heq).1 (hchild.trans heq.symm)
          rw [hother c hlater, hgrid, if_pos rfl]
      · intro c hc
        have hne : c ≠ child := fun heq => hc index (Nat.le_refl _) (heq ▸ hchild)
        rw [hother c fun i hi => hc i (by omega), hgrid, if_neg hne]

/-- What switching the orientation does. -/
theorem setOrientation_spec (h : Aligned s) {e : Orientation} (he : e ≠ s.orientation) :
    (setOrientation s e).state.orientation = e ∧
    (setOrientation s e).state.children = s.children ∧
    (setOrientation s e).state.native = s.native ∧
    (setOrientation s e).state.dividers = s.dividers ∧
    s.created ≤ (setOrientation s e).state.created ∧
    (setOrientation s e).state.definitions.length = s.definitions.length ∧
    (setOrientation s e).state.nativeDefinitions = (setOrientation s e).state.definitions ∧
    ∀ i child, s.children[i]? = some child →
      (setOrientation s e).state.gridIndex child = resetIndex e child i := by
  obtain ⟨definitions, hdefinitions⟩ : ∃ definitions,
      (List.range s.definitions.length).map (fun n => s.created + n) = definitions := ⟨_, rfl⟩
  obtain ⟨t, ht⟩ : ∃ t : State P, t = { s with
      orientation := e
      definitions
      created := s.created + definitions.length
      columnDefinitions := []
      rowDefinitions := [] } := ⟨_, rfl⟩
  have hrun : setOrientation s e = resetAll definitions 0 t := by
    rw [setOrientation, if_neg he, hdefinitions, ht]
  have hlength : definitions.length = s.definitions.length := by simp [← hdefinitions]
  have hempty : t.nativeDefinitions = [] := by
    rw [ht]
    cases e <;> rfl
  have hchildren : t.children = s.children := by rw [ht]
  obtain ⟨hsame, hnative, hreset, -⟩ := resetAll_spec definitions 0 t (hchildren ▸ h.nodup)
    (by rw [hchildren, hlength, h.definitions, Nat.zero_add])
  rw [hchildren] at hreset
  rw [hrun]
  subst ht
  refine ⟨hsame.orientation, hsame.children, hsame.native, hsame.dividers,
    hsame.created ▸ Nat.le_add_right _ _, (congrArg List.length hsame.definitions).trans hlength,
    ?_, ?_⟩
  · rw [hnative, hempty, hsame.definitions]
    rfl
  · exact fun i child => hreset i child (Nat.zero_le i)

/-- The orientation can be switched to horizontal, and to vertical while there is
at most one pane. -/
theorem setOrientation_consistent_iff (h : Consistent s) (e : Orientation) :
    Consistent (setOrientation s e).state ↔
      e = .horizontal ∨ s.orientation = .vertical ∨ s.children.length ≤ 1 := by
  by_cases he : e = s.orientation
  · have hrun : (setOrientation s e).state = s := by rw [setOrientation, if_pos he]
    rw [hrun]
    refine ⟨fun _ => ?_, fun _ => h⟩
    cases e
    · exact .inr (.inl he.symm)
    · exact .inl rfl
  obtain ⟨ho, hchildren, hnative, hdividers, hcreated, hlength, hdefinitions, hgrid⟩ :=
    setOrientation_spec h.toAligned he
  constructor
  · intro hafter
    by_contra hcond
    obtain ⟨hvertical, hhorizontal, hlong⟩ : e = .vertical ∧ s.orientation = .horizontal ∧
        2 < s.children.length := by
      have hodd := h.odd
      refine ⟨?_, ?_, ?_⟩
      · cases e <;> simp_all
      · cases hs : s.orientation <;> simp_all
      · have : s.children ≠ [] := fun hnil => hcond (by simp [hnil])
        have hodd := hodd.resolve_left this
        have : ¬ s.children.length ≤ 1 := fun hle => hcond (.inr (.inr hle))
        omega
    have hget : s.children[2]? = some s.children[2] := List.getElem?_eq_getElem hlong
    have hpane : s.children[2].isSplitter = false := h.alternate 2 _ hget
    have hindex := hafter.gridIndex 2 s.children[2] (by rw [hchildren]; exact hget)
    rw [hgrid 2 _ hget, resetIndex, if_pos ⟨hvertical, hpane⟩] at hindex
    cases hindex
  · intro hcond
    refine ⟨⟨?_, ?_, ?_, hdefinitions, ?_, ?_, ?_⟩, ?_⟩
    · rw [hnative, hchildren, h.native]
    · rw [hchildren]
      exact h.alternate
    · rw [hlength, hchildren, h.definitions]
    · rw [hdividers, hchildren, h.dividers]
    · rw [hchildren]
      intro i child hget
      rw [hgrid i child hget, resetIndex]
      split
      · next hreset =>
        have hne : s.orientation ≠ .vertical := fun hs => he (hreset.1.trans hs.symm)
        have hshort : s.children.length ≤ 1 := by
          rcases hcond with hhorizontal | hvertical | hshort
          · exact absurd (hhorizontal.symm.trans hreset.1) (by decide)
          · exact absurd hvertical hne
          · exact hshort
        have := (List.getElem?_eq_some_iff.mp hget).1
        omega
      · rfl
    · rw [hchildren]
      exact fun id hid => Nat.lt_of_lt_of_le (h.created id hid) hcreated
    · rw [hchildren]
      exact h.odd

/-! ## Removing -/

omit [DecidableEq P] in
theorem removeDefinitionAt_eq (index : Nat) (h : index < s.nativeDefinitions.length) :
    removeDefinitionAt s index =
      ⟨s.setNativeDefinitions (s.nativeDefinitions.eraseIdx index), none⟩ := by
  rw [removeDefinitionAt, if_pos ⟨Int.natCast_nonneg _, Int.ofNat_lt.mpr h⟩, Int.toNat_natCast]

omit [DecidableEq P] in
/-- Panes and splitters in turn: half of the children are splitters. -/
theorem filterMap_divider_length (l : List (Child P))
    (h : ∀ i child, l[i]? = some child → child.isSplitter = decide (i % 2 = 1)) :
    (l.filterMap Child.divider?).length = l.length / 2 := by
  induction l using List.reverseRecOn with
  | nil => simp
  | append_singleton l child ih =>
      have hfront : (l.filterMap Child.divider?).length = l.length / 2 := by
        refine ih fun i c hc => h i c ?_
        rw [List.getElem?_append_left (List.getElem?_eq_some_iff.mp hc).1]
        exact hc
      have hlast := h l.length child (by simp)
      rw [List.filterMap_append, List.length_append, List.length_append, hfront,
        List.length_singleton]
      cases child with
      | pane p =>
          have heven : l.length % 2 ≠ 1 := by simpa [Child.isSplitter] using hlast
          have hnone : [Child.pane p].filterMap Child.divider? = [] := rfl
          rw [hnone, List.length_nil]
          omega
      | splitter id =>
          have hodd : l.length % 2 = 1 := by simpa [Child.isSplitter] using hlast
          have hsome : ([.splitter id] : List (Child P)).filterMap Child.divider? = [id] := rfl
          rw [hsome, List.length_singleton]
          omega

/-- Removing the first of several panes throws after one native definition is
gone. -/
theorem removeFirst_not_consistent (h : Consistent s) {e : P} (hlong : 1 < s.children.length) :
    ¬ Consistent (removeAt s e 0).state := by
  intro hafter
  have hlength : s.nativeDefinitions.length = s.children.length := by
    rw [h.nativeDefinitions, h.definitions]
  have hfirst := removeDefinitionAt_eq (s := s) 0 (by omega)
  have hrun : (removeAt s e 0).state =
      s.setNativeDefinitions (s.nativeDefinitions.eraseIdx 0) := by
    simp only [removeAt, if_pos hlong]
    rw [show ((0 : Nat) : Int) = 0 from rfl] at *
    rw [hfirst]
    simp [removeDefinitionAt]
  have hdefinitions := congrArg List.length hafter.nativeDefinitions
  have hsame : (s.setNativeDefinitions (s.nativeDefinitions.eraseIdx 0)).definitions =
      s.definitions := by
    obtain ⟨o, _⟩ := s
    cases o <;> rfl
  rw [hrun, setNativeDefinitions_nativeDefinitions, hsame, h.definitions,
    List.length_eraseIdx_of_lt (by omega), hlength] at hdefinitions
  omega

/-- What removing a pane after a divider does. -/
theorem removeAt_spec (h : Aligned s) {e : P} {k divider : Nat}
    (hlt : 2 * k + 2 < s.children.length) (hdivider : s.dividers[k]? = some divider) :
    (removeAt s e (2 * k + 2)).state.children =
      (s.children.erase (.splitter divider)).erase (.pane e) ∧
    (removeAt s e (2 * k + 2)).state.native =
      (s.native.erase (.splitter divider)).erase (.pane e) ∧
    (removeAt s e (2 * k + 2)).state.definitions =
      (s.definitions.eraseIdx (2 * k + 2)).eraseIdx (2 * k + 1) ∧
    (removeAt s e (2 * k + 2)).state.nativeDefinitions =
      (s.nativeDefinitions.eraseIdx (2 * k + 2)).eraseIdx (2 * k + 1) ∧
    (removeAt s e (2 * k + 2)).state.dividers = s.dividers.eraseIdx k ∧
    (removeAt s e (2 * k + 2)).state.created = s.created ∧
    (removeAt s e (2 * k + 2)).state.gridIndex = s.gridIndex := by
  have hlength : s.nativeDefinitions.length = s.children.length := by
    rw [h.nativeDefinitions, h.definitions]
  have hfirst := removeDefinitionAt_eq (s := s) (2 * k + 2) (by omega)
  have hsecond := removeDefinitionAt_eq
    (s := s.setNativeDefinitions (s.nativeDefinitions.eraseIdx (2 * k + 2))) (2 * k + 1) (by
      rw [setNativeDefinitions_nativeDefinitions, List.length_eraseIdx_of_lt (by omega)]
      omega)
  have hlong : 1 < s.children.length := by omega
  have hindex : ((2 * k + 2 : Nat) : Int) - 1 = ((2 * k + 1 : Nat) : Int) := by omega
  obtain ⟨t, ht, hrun⟩ : ∃ t : State P,
      t = { (s.setNativeDefinitions (s.nativeDefinitions.eraseIdx (2 * k + 2))).setNativeDefinitions
          ((s.nativeDefinitions.eraseIdx (2 * k + 2)).eraseIdx (2 * k + 1)) with
        definitions := (s.definitions.eraseIdx (2 * k + 2)).eraseIdx (2 * k + 1) } ∧
      removeAt s e (2 * k + 2) = removeWithDivider t e (2 * k + 2) := by
    refine ⟨_, rfl, ?_⟩
    simp only [removeAt, if_pos hlong, hfirst, hindex, hsecond, Option.isSome_none,
      Bool.false_eq_true, if_false, setNativeDefinitions_nativeDefinitions]
    obtain ⟨o, _⟩ := s
    cases o <;> rfl
  have hk : (2 * k + 2) / 2 - 1 = k := by omega
  have hbefore : dividerBefore t (2 * k + 2) = some divider := by
    have heven : (2 * k + 2) % 2 = 0 := by omega
    have hdividers : t.dividers = s.dividers := by
      rw [ht]
      obtain ⟨o, _⟩ := s
      cases o <;> rfl
    rw [dividerBefore, if_pos heven, hk, hdividers, hdivider]
  rw [hrun]
  simp only [removeWithDivider, hbefore, hk, backupRemove]
  rw [ht]
  obtain ⟨o, _⟩ := s
  cases o <;> exact ⟨rfl, rfl, rfl, rfl, rfl, rfl, rfl⟩

omit [DecidableEq P] in
/-- The children before the last pane, if it is not the only one, end with a
divider. -/
theorem Consistent.before_last (h : Consistent s) {front : List (Child P)} {e : P}
    (hchildren : s.children = front ++ [.pane e]) (hne : front ≠ []) :
    ∃ k front' divider, front = front' ++ [.splitter divider] ∧ front'.length = 2 * k + 1 ∧
      s.dividers = front'.filterMap Child.divider? ++ [divider] ∧
        s.dividers[k]? = some divider := by
  obtain ⟨front', child, rfl⟩ : ∃ front' child, front = front' ++ [child] :=
    ⟨_, _, (List.dropLast_append_getLast hne).symm⟩
  have hodd : front'.length % 2 = 1 := by
    rcases h.odd with hnil | hodd
    · simp [hchildren] at hnil
    · simp only [hchildren, List.length_append, List.length_singleton] at hodd
      omega
  have hchild := h.alternate front'.length child (by simp [hchildren])
  cases child with
  | pane p => simp [Child.isSplitter, hodd] at hchild
  | splitter divider =>
      have hfront : (front'.filterMap Child.divider?).length = front'.length / 2 := by
        refine filterMap_divider_length front' fun i c hc => h.alternate i c ?_
        have hi := (List.getElem?_eq_some_iff.mp hc).1
        rw [hchildren, List.append_assoc, List.getElem?_append_left hi]
        exact hc
      have hdividers : s.dividers = front'.filterMap Child.divider? ++ [divider] := by
        simp [h.dividers, hchildren, Child.divider?]
      refine ⟨front'.length / 2, front', divider, rfl, by omega, hdividers, ?_⟩
      rw [hdividers, List.getElem?_append_right (by omega), hfront]
      simp

omit [DecidableEq P] in
/-- A split view without children. -/
theorem consistent_of_empty (hchildren : s.children = []) (hnative : s.native = [])
    (hdefinitions : s.definitions = []) (hnativeDefinitions : s.nativeDefinitions = [])
    (hdividers : s.dividers = []) : Consistent s :=
  ⟨⟨by rw [hnative, hchildren], by simp [hchildren], by simp [hdefinitions, hchildren],
    by rw [hnativeDefinitions, hdefinitions], by simp [hdividers, hchildren], by simp [hchildren],
    by simp [hchildren]⟩, .inl hchildren⟩

/-- The only pane. -/
theorem removeOnly_consistent (h : Consistent s) {e : P} (hone : s.children = [.pane e]) :
    Consistent (removeAt s e 0).state := by
  have hdefinitions : s.definitions.length = 1 := by rw [h.definitions, hone]; rfl
  obtain ⟨definition, hd⟩ := List.length_eq_one_iff.mp hdefinitions
  have hshort : ¬ 1 < s.children.length := by simp [hone]
  have hfirst := removeDefinitionAt_eq (s := s) 0
    (by rw [h.nativeDefinitions, hdefinitions]; exact Nat.one_pos)
  rw [show ((0 : Nat) : Int) = 0 from rfl, h.nativeDefinitions, hd] at hfirst
  have hdividers : s.dividers = [] := by rw [h.dividers, hone]; rfl
  have hnative : s.native = [.pane e] := h.native.trans hone
  have hrun : (removeAt s e 0).state =
      backupRemove { s.setNativeDefinitions [] with definitions := [] } (.pane e) := by
    simp only [removeAt, if_neg hshort, hfirst, Option.isSome_none, Bool.false_eq_true, if_false]
    obtain ⟨o, _⟩ := s
    cases o <;> simp_all [State.setNativeDefinitions]
  rw [hrun]
  obtain ⟨o, _⟩ := s
  cases o <;> exact consistent_of_empty (by simp_all [backupRemove, State.setNativeDefinitions])
    (by simp_all [backupRemove, State.setNativeDefinitions]) rfl rfl hdividers

/-- The last pane goes with the divider before it. -/
theorem removeLast_consistent (h : Consistent s) {e : P}
    (hlast : s.children.getLast? = some (.pane e)) : Consistent (removeChild s e).state := by
  obtain ⟨front, hchildren⟩ : ∃ front, s.children = front ++ [.pane e] :=
    List.getLast?_eq_some_iff.mp hlast
  have hnodup := hchildren ▸ h.nodup
  have hnot : .pane e ∉ front := fun hmem =>
    (List.nodup_append.mp hnodup).2.2 _ hmem _ (by simp) rfl
  have hindex : s.children.idxOf (.pane e) = front.length := by
    rw [hchildren, List.idxOf_append, if_neg hnot]
    simp
  unfold removeChild
  by_cases hfront : front = []
  · rw [hindex, hfront]
    exact removeOnly_consistent h (by simp [hchildren, hfront])
  · obtain ⟨k, front', divider, rfl, hlength, hdividers, hdivider⟩ :=
      h.before_last hchildren hfront
    have hat : s.children.idxOf (.pane e) = 2 * k + 2 := by
      rw [hindex, List.length_append, List.length_singleton]
      omega
    have hchildrenLength : s.children.length = 2 * k + 3 := by
      simp only [hchildren, List.length_append, List.length_singleton]
      omega
    obtain ⟨hc, hn, hdefinitions, hnative, hd, hcreated, hgrid⟩ :=
      removeAt_spec (e := e) h.toAligned (by omega) hdivider
    have hnot' : .splitter divider ∉ front' := fun hmem =>
      (List.nodup_append.mp (List.nodup_append.mp hnodup).1).2.2 _ hmem _ (by simp) rfl
    have herase : (s.children.erase (.splitter divider)).erase (.pane e) = front' := by
      rw [hchildren, List.erase_append_left _ (by simp), List.erase_append_right _ hnot',
        List.erase_cons_head, List.append_nil,
        List.erase_append_right _ fun hmem => hnot (by simp [hmem]), List.erase_cons_head,
        List.append_nil]
    have hget : ∀ (i : Nat) child, front'[i]? = some child → s.children[i]? = some child := by
      intro i child hi
      rw [hchildren, List.append_assoc,
        List.getElem?_append_left (List.getElem?_eq_some_iff.mp hi).1, hi]
    rw [herase] at hc
    have hdividers' : s.dividers.eraseIdx k = front'.filterMap Child.divider? := by
      have hk : (front'.filterMap Child.divider?).length = k := by
        rw [filterMap_divider_length front' fun i c hi => h.alternate i c (hget i c hi)]
        omega
      rw [hdividers, List.eraseIdx_append_of_length_le (by omega), hk]
      simp
    have hlength' : (s.definitions.eraseIdx (2 * k + 2)).length = 2 * k + 2 := by
      rw [List.length_eraseIdx_of_lt (by rw [h.definitions]; omega), h.definitions]
      omega
    rw [hat]
    refine ⟨⟨?_, ?_, ?_, ?_, ?_, ?_, ?_⟩, .inr ?_⟩
    · rw [hn, hc, h.native, herase]
    · rw [hc]
      exact fun i child hi => h.alternate i child (hget i child hi)
    · rw [hdefinitions, hc, List.length_eraseIdx_of_lt (by omega)]
      omega
    · rw [hnative, hdefinitions, h.nativeDefinitions]
    · rw [hd, hc, hdividers']
    · rw [hc, hgrid]
      exact fun i child hi => h.gridIndex i child (hget i child hi)
    · rw [hc, hcreated]
      exact fun id hid => h.created id (by simp [hchildren, hid])
    · rw [hc, hlength]
      omega

/-- A pane that is not the last cannot be removed. -/
theorem removeOther_not_consistent (h : Consistent s) {e : P} (hmem : .pane e ∈ s.children)
    (hlast : s.children.getLast? ≠ some (.pane e)) : ¬ Consistent (removeChild s e).state := by
  have hlt : s.children.idxOf (.pane e) < s.children.length := List.idxOf_lt_length_of_mem hmem
  have hget : s.children[s.children.idxOf (.pane e)]? = some (.pane e) := by
    rw [List.getElem?_eq_getElem hlt, List.getElem_idxOf]
  have heven : s.children.idxOf (.pane e) % 2 = 0 := by
    have := h.alternate _ _ hget
    simpa [Child.isSplitter] using this
  have hodd : s.children.length % 2 = 1 := h.odd.resolve_left (List.ne_nil_of_mem hmem)
  obtain ⟨last, hlastget⟩ : ∃ last, s.children[s.children.length - 1]? = some last :=
    ⟨_, List.getElem?_eq_getElem (by omega)⟩
  have hne : s.children.idxOf (.pane e) ≠ s.children.length - 1 := by
    intro heq
    rw [heq, ← List.getLast?_eq_getElem?] at hget
    exact hlast hget
  unfold removeChild
  obtain hzero | ⟨k, hk⟩ : s.children.idxOf (.pane e) = 0 ∨
      ∃ k, s.children.idxOf (.pane e) = 2 * k + 2 := by
    rcases Nat.eq_zero_or_pos (s.children.idxOf (.pane e)) with hz | hp
    · exact .inl hz
    · exact .inr ⟨s.children.idxOf (.pane e) / 2 - 1, by omega⟩
  · rw [hzero]
    exact removeFirst_not_consistent h (by omega)
  rw [hk]
  have hdividers : s.dividers.length = s.children.length / 2 := by
    rw [h.dividers, filterMap_divider_length _ h.alternate]
  obtain ⟨divider, hdivider⟩ : ∃ divider, s.dividers[k]? = some divider :=
    ⟨_, List.getElem?_eq_getElem (by omega)⟩
  obtain ⟨hc, -, -, -, -, -, hgrid⟩ := removeAt_spec (e := e) h.toAligned (by omega) hdivider
  intro hafter
  -- the last child moves to the front, its grid index does not
  have hsplitter : last.isSplitter = false := by
    rw [h.alternate _ _ hlastget]
    simp
    omega
  have hpane : last ≠ .pane e := fun heq => hne (h.position hget (heq ▸ hlastget))
  have hstays : last ∈ (removeAt s e (2 * k + 2)).state.children := by
    rw [hc, List.mem_erase_of_ne hpane, List.mem_erase_of_ne]
    · exact List.mem_of_getElem? hlastget
    · rintro rfl
      cases hsplitter
  obtain ⟨j, hj⟩ := List.getElem?_of_mem hstays
  have hindex := hafter.gridIndex j last hj
  rw [hgrid, h.gridIndex _ _ hlastget] at hindex
  have hshort : (removeAt s e (2 * k + 2)).state.children.length < s.children.length := by
    have hmem' : .pane e ∈ s.children.erase (.splitter divider) :=
      (List.mem_erase_of_ne (by simp)).mpr hmem
    have := List.length_erase_of_mem hmem'
    have := List.length_erase_le (a := Child.splitter divider) (l := s.children)
    have := List.length_pos_of_mem hmem'
    rw [hc]
    omega
  have := (List.getElem?_eq_some_iff.mp hj).1
  omega

end States

/-- **One call.**  A call in range keeps the split view consistent exactly when it
meets the condition. -/
theorem step_consistent_iff {s t : State P} {c : Call P} (h : Consistent s)
    (hstep : step s c = some t) : Consistent t ↔ KeepsGrid s c := by
  unfold step at hstep
  split at hstep
  · next hrange =>
    obtain rfl := Option.some.inj hstep
    cases c with
    | appendChild e => exact appendChild_consistent_iff h e
    | removeChild e =>
        constructor
        · intro hafter
          by_contra hlast
          exact removeOther_not_consistent h hrange hlast hafter
        · exact removeLast_consistent h
    | setOrientation e => exact setOrientation_consistent_iff h e
  · cases hstep

/-! ## All calls -/

omit [DecidableEq P] in
theorem start_consistent : Consistent (start : State P) := consistent_of_empty rfl rfl rfl rfl rfl

/-- **The grid stays consistent.**  All along a sequence of calls in range the
children, definitions, dividers and grid indices agree if and only if every call
meets the condition. -/
theorem split_consistent_iff (calls : List (Call P))
    (hrange : Meets step (fun _ _ => True) start calls) :
    Throughout step Consistent start calls ↔ Meets step KeepsGrid start calls :=
  throughout_iff_meets (J := fun _ => True) (fun _ _ _ _ _ => trivial)
    (fun _ _ _ _ h hstep => step_consistent_iff h hstep) trivial start_consistent hrange

/-- Three panes, of which the last is removed. -/
def threePanes : List (Call Nat) :=
  [.appendChild 0, .appendChild 1, .setOrientation .horizontal, .appendChild 2, .removeChild 2]

theorem split_consistent_iff_threePanes :
    Meets step (fun _ _ => True) start threePanes ∧
    (Throughout step Consistent start threePanes ↔ Meets step KeepsGrid start threePanes) :=
  ⟨by decide, split_consistent_iff _ (by decide)⟩

/-- **The first pane is not removed.**  Removing the first of two panes leaves two
native definitions for three children. -/
theorem first_pane_not_removed :
    ¬ ∀ calls : List (Call Nat), Meets step (fun _ _ => True) start calls →
      Throughout step Consistent start calls := by
  intro hall
  have hrun := hall [.appendChild 0, .appendChild 1, .removeChild 0] (by decide)
  obtain ⟨-, hrun⟩ := hrun
  obtain ⟨-, hrun⟩ := hrun _ rfl
  obtain ⟨-, hrun⟩ := hrun _ rfl
  have hdefinitions := (hrun _ rfl).nativeDefinitions
  revert hdefinitions
  decide

end Model

end SplitWin

import Tint.ListEdit
import Tint.Transition
import Mathlib.Data.Nat.Init
import Mathlib.Logic.Function.Basic

/-!
# The cells of a table on the Mac

`Table_mac` keeps the content of the cells in one array for each column,
`private.views[column]`, where `setValueAt` stores a control under the row's
number and where the delegate of the native table looks it up again.  The rows
themselves are the native table's: `addRow`, `removeRow` and `moveRow` make the
native call and leave the arrays as they are, so what is stored under a number
does not follow the row it was stored for.

The columns are kept under their names in `private.columns`, which is an array:
its `length` takes no column, and a column called `__proto__` becomes its
prototype.  A native column is identified by the text that the `NSString` of its
name gives back, `nsString`; it is the name itself unless the name has a NUL or
half of a surrogate pair.

* `cells_follow_rows_iff` -- every cell shows what was last set for its row, all
  along a sequence of calls in range, if and only if no call changes the number
  of a row that shows anything the row with its old number does not show;
* `inserted_row_takes_cells` -- a row inserted before a filled one shows that
  one's cells.
-/

namespace TableMac

open ListEdit Transition

/-- The name of a column, or a text. -/
abbrev Text := List Char

instance : LawfulBEq Text := inferInstance

/-- A view: the read-only text input made for a text, or the view of a control. -/
inductive View (V : Type)
  | input (id : Nat) (value : Text)
  | control (v : V)
  deriving DecidableEq

/-- The value given to `setValueAt`; a number is shown as its text. -/
inductive Value (V : Type)
  | text (value : Text)
  | control (v : V)

/-- The prototype of `private.columns`: that of all arrays, a column, or null. -/
inductive Proto
  | array
  | column
  | null
  deriving DecidableEq

/-- The name of the length of an array. -/
def lengthName : Text := ['l', 'e', 'n', 'g', 't', 'h']

/-- The name that an object has its prototype under. -/
def protoName : Text := ['_', '_', 'p', 'r', 'o', 't', 'o', '_', '_']

/-- The properties of a function that an assignment to an object inheriting from
it does not shadow. -/
def readOnly : List Text :=
  [['n', 'a', 'm', 'e'], ['a', 'r', 'g', 'u', 'm', 'e', 'n', 't', 's'],
    ['c', 'a', 'l', 'l', 'e', 'r']]

section Model

variable {V : Type} (nsString : Text → Text)

/-- `private` and the native table. -/
structure State (V : Type) where
  /-- the identifiers of the native columns -/
  identifiers : List Text
  /-- `private.columns[e]`: a column, null, or nothing at all -/
  columns : Text → Option Bool
  /-- the prototype of `private.columns` -/
  proto : Proto
  /-- `private.views` -/
  views : Text → Option (Nat → Option (View V))
  /-- `nativeView('numberOfRows')` -/
  numberOfRows : Nat
  /-- how many text inputs were made -/
  inputs : Nat

/-- A table that has just been constructed. -/
def start : State V := ⟨[], fun _ => none, .array, fun _ => none, 0, 0⟩

/-- `tableView:viewForTableColumn:row:` -/
def viewForTableColumn (s : State V) (identifier : Text) (rowIndex : Nat) : Option (View V) :=
  (s.views identifier).bind fun views => views rowIndex

/-- A call returns or throws; either way it leaves a state. -/
structure Outcome (V : Type) where
  state : State V
  error : Option String

/-- `private.columns[e] = column`, or `= null`. -/
def State.setColumn (s : State V) (e : Text) (isColumn : Bool) : State V :=
  if s.proto = .column ∧ e ∈ readOnly ∧ s.columns e = none then s
  else
    { s with
        columns := Function.update s.columns e (some isColumn)
        proto :=
          if e = protoName ∧ s.proto ≠ .null then (if isColumn then .column else .null)
          else s.proto }

/-- `addColumn`.  The length of an array is a number. -/
def addColumn (s : State V) (e : Text) : Outcome V :=
  if e = lengthName then ⟨s, some "RangeError: Invalid array length"⟩
  else
    let s := s.setColumn e true
    ⟨{ s with
        views := Function.update s.views e (some fun _ => none)
        identifiers := s.identifiers ++ [nsString e] }, none⟩

/-- `removeColumn`.  The array of views stays. -/
def removeColumn (s : State V) (e : Text) : Outcome V :=
  if s.columns e = some true then
    ⟨{ s.setColumn e false with identifiers := s.identifiers.erase (nsString e) }, none⟩
  else ⟨s, some "column is not a function"⟩

/-- `ndx || this.nativeView('numberOfRows')` -/
def orNumberOfRows (ndx : Option Nat) (numberOfRows : Nat) : Nat :=
  match ndx with
  | none | some 0 => numberOfRows
  | some k => k

/-- `addRow` -/
def addRow (s : State V) (ndx : Option Nat) : Outcome V :=
  if orNumberOfRows ndx s.numberOfRows ≤ s.numberOfRows then
    ⟨{ s with numberOfRows := s.numberOfRows + 1 }, none⟩
  else ⟨s, some "The passed in index was greater than the number of rows."⟩

/-- `removeRow` -/
def removeRow (s : State V) (ndx : Option Nat) : Outcome V :=
  if ndx.getD (s.numberOfRows - 1) < s.numberOfRows then
    ⟨{ s with numberOfRows := s.numberOfRows - 1 }, none⟩
  else ⟨s, some "The passed in index was greater than the number of rows."⟩

/-- `moveRow`: the native table moves the row. -/
def moveRow (s : State V) (_ndx _toNdx : Nat) : Outcome V := ⟨s, none⟩

/-- The view for a value. -/
def State.view (s : State V) : Value V → View V
  | .text value => .input s.inputs value
  | .control v => .control v

/-- `setValueAt` -/
def setValueAt (s : State V) (columnId : Text) (row : Nat) (value : Value V) : Outcome V :=
  let inputs := match value with
    | .text _ => s.inputs + 1
    | .control _ => s.inputs
  match s.views columnId with
  | none => ⟨{ s with inputs }, some "Cannot set property of undefined"⟩
  | some views =>
      ⟨{ s with
          views := Function.update s.views columnId
            (some (Function.update views row (some (s.view value))))
          inputs }, none⟩

/-- The calls. -/
inductive Call (V : Type)
  | addColumn (e : Text)
  | removeColumn (e : Text)
  | addRow (ndx : Option Nat)
  | removeRow (ndx : Option Nat)
  | moveRow (ndx toNdx : Nat)
  | setValueAt (columnId : Text) (row : Nat) (value : Value V)

/-- One call. -/
def call (s : State V) : Call V → Outcome V
  | .addColumn e => addColumn nsString s e
  | .removeColumn e => removeColumn nsString s e
  | .addRow ndx => addRow s ndx
  | .removeRow ndx => removeRow s ndx
  | .moveRow ndx toNdx => moveRow s ndx toNdx
  | .setValueAt columnId row value => setValueAt s columnId row value

/-! ## The plain table -/

/-- A row carries its cells with it. -/
abbrev Row (V : Type) := Text → Option (View V)

/-- A table as a list of rows. -/
structure Table (V : Type) where
  columns : List Text
  rows : List (Row V)

/-- What a call does to the list; `view` is the view for the value set. -/
def listed (view : Value V → View V) (t : Table V) : Call V → Table V
  | .addColumn e => ⟨t.columns ++ [e], t.rows.map fun row => Function.update row e none⟩
  | .removeColumn e => { t with columns := t.columns.erase e }
  | .addRow ndx => { t with rows := insertAt t.rows ndx fun _ => none }
  | .removeRow ndx => { t with rows := deleteAt t.rows ndx }
  | .moveRow ndx toNdx => { t with rows := move t.rows ndx toNdx }
  | .setValueAt columnId row value =>
      { t with rows := t.rows.modify row fun r => Function.update r columnId (some (view value)) }

/-- The indices of the call are in range, and its column is one of the table. -/
def InRange (t : Table V) : Call V → Prop
  | .addColumn _ => True
  | .removeColumn e => e ∈ t.columns
  | .addRow ndx => ndx.getD t.rows.length ≤ t.rows.length
  | .removeRow ndx => 0 < t.rows.length ∧ ndx.getD 0 < t.rows.length
  | .moveRow ndx toNdx => ndx < t.rows.length ∧ toNdx < t.rows.length
  | .setValueAt columnId row _ => columnId ∈ t.columns ∧ row < t.rows.length

instance (t : Table V) : DecidablePred (InRange t : Call V → Prop) := fun c => by
  cases c <;> unfold InRange <;> infer_instance

/-- A call in range, on the table and on the plain list. -/
def step (p : State V × Table V) (c : Call V) : Option (State V × Table V) :=
  if InRange p.2 c then some ((call nsString p.1 c).state, listed p.1.view p.2 c) else none

/-- **Association.**  The native table has the columns and the number of rows of
the list, a column is identified by its name, and the view for a row and a column
is the one that row carries. -/
structure Associated (s : State V) (t : Table V) : Prop where
  identifiers : s.identifiers = t.columns
  unique : t.columns.Nodup
  known : ∀ c ∈ t.columns, (s.views c).isSome
  numberOfRows : s.numberOfRows = t.rows.length
  cells : ∀ c ∈ t.columns, ∀ r row, t.rows[r]? = some row → viewForTableColumn s c r = row c

/-- The views under the numbers from `i` to `j` are all the same, in each column
of the table. -/
def SameViews (s : State V) (t : Table V) (i j : Nat) : Prop :=
  ∀ c ∈ t.columns, ∀ r, i ≤ r → r < j → viewForTableColumn s c r = viewForTableColumn s c (r + 1)

/-- The condition on a call: a column gets a new name, one that an `NSString`
keeps and that is not `length`; a column is removed that `private.columns` has
under its name; where a row is added, no number from there up to the number of
rows has a view; and the rows whose numbers change by a removal or a move show
the same views. -/
def KeepsCells (p : State V × Table V) : Call V → Prop
  | .addColumn e => e ∉ p.2.columns ∧ e ≠ lengthName ∧ nsString e = e
  | .removeColumn e => p.1.columns e = some true
  | .addRow ndx => ∀ c ∈ p.2.columns, ∀ r, ndx.getD p.2.rows.length ≤ r → r ≤ p.2.rows.length →
      viewForTableColumn p.1 c r = none
  | .removeRow ndx =>
      SameViews p.1 p.2 (ndx.getD (p.2.rows.length - 1)) (p.2.rows.length - 1)
  | .moveRow ndx toNdx => SameViews p.1 p.2 (min ndx toNdx) (max ndx toNdx)
  | .setValueAt _ _ _ => True

/-! ## One call -/

section Calls

variable {s : State V} {t : Table V}

/-- A sequence that does not change from one index to the next is constant. -/
theorem constant_of_step {α : Type} {f : Nat → α} {i j : Nat}
    (h : ∀ r, i ≤ r → r < j → f r = f (r + 1)) {r : Nat} (hi : i ≤ r) (hj : r ≤ j) :
    f r = f i := by
  induction r, hi using Nat.le_induction with
  | base => rfl
  | succ r hr ih => rw [← h r hr (by omega), ih (by omega)]

/-- What is assigned in `private.columns` changes nothing else. -/
theorem setColumn_eq (s : State V) (e : Text) (isColumn : Bool) :
    ∃ columns proto, s.setColumn e isColumn = { s with columns, proto } := by
  unfold State.setColumn
  split
  · exact ⟨s.columns, s.proto, rfl⟩
  · exact ⟨_, _, rfl⟩

/-- A column that is added under a proper name has no views yet. -/
theorem addColumn_eq (s : State V) {e : Text} (he : e ≠ lengthName) :
    ∃ columns proto, (addColumn nsString s e).state =
      { s with
        columns, proto
        views := Function.update s.views e (some fun _ => none)
        identifiers := s.identifiers ++ [nsString e] } := by
  obtain ⟨columns, proto, heq⟩ := setColumn_eq s e true
  exact ⟨columns, proto, by rw [addColumn, if_neg he, heq]⟩

/-- A new column shows nothing. -/
theorem addColumn_associated (h : Associated s t) {e : Text} (he : e ∉ t.columns)
    (hlength : e ≠ lengthName) (hname : nsString e = e) :
    Associated (addColumn nsString s e).state (listed s.view t (.addColumn e)) := by
  obtain ⟨columns, proto, hadd⟩ := addColumn_eq nsString s hlength
  rw [hadd, hname]
  refine ⟨?_, ?_, ?_, ?_, ?_⟩
  · simp [listed, h.identifiers]
  · simpa [listed, List.nodup_append, h.unique] using fun c hc => ne_of_mem_of_not_mem hc he
  · intro c hc
    by_cases hce : c = e
    · simp [hce]
    · have hmem : c ∈ t.columns := by simpa [listed, hce] using hc
      simpa [hce] using h.known c hmem
  · simp [listed, h.numberOfRows]
  · intro c hc r row hrow
    obtain ⟨row, hr, rfl⟩ : ∃ row', t.rows[r]? = some row' ∧
        Function.update row' e none = row := by simpa [listed] using hrow
    by_cases hce : c = e
    · simp [viewForTableColumn, hce]
    · have hmem : c ∈ t.columns := by simpa [listed, hce] using hc
      simpa [viewForTableColumn, hce] using h.cells c hmem r row hr

/-- A column is added as it should be exactly when its name is new and proper. -/
theorem addColumn_associated_iff (h : Associated s t) (e : Text) :
    Associated (addColumn nsString s e).state (listed s.view t (.addColumn e)) ↔
      KeepsCells nsString (s, t) (.addColumn e) := by
  refine ⟨fun hafter => ⟨?_, ?_⟩, fun hkeeps =>
    addColumn_associated nsString h hkeeps.1 hkeeps.2.1 hkeeps.2.2⟩
  · intro he
    exact (List.nodup_append.mp hafter.unique).2.2 e he e (by simp) rfl
  · have hafter := hafter.identifiers
    have hlength : e ≠ lengthName := by
      intro heq
      -- nothing is added to the native table
      rw [addColumn, if_pos heq] at hafter
      simp [listed, h.identifiers] at hafter
    obtain ⟨columns, proto, hadd⟩ := addColumn_eq nsString s hlength
    rw [hadd] at hafter
    exact ⟨hlength, by simpa [listed, h.identifiers] using hafter⟩

/-- A column that is found is removed, and the others keep their cells; one that
is not found stays. -/
theorem removeColumn_associated_iff (h : Associated s t)
    (hnames : ∀ c ∈ t.columns, nsString c = c) {e : Text} (he : e ∈ t.columns) :
    Associated (removeColumn nsString s e).state (listed s.view t (.removeColumn e)) ↔
      KeepsCells nsString (s, t) (.removeColumn e) := by
  constructor
  · intro hafter
    by_contra hcolumn
    change ¬ s.columns e = some true at hcolumn
    have hafter := hafter.identifiers
    rw [removeColumn, if_neg hcolumn] at hafter
    have hlength := congrArg List.length (h.identifiers.symm.trans hafter)
    rw [listed, List.length_erase_of_mem he] at hlength
    have hpos := List.length_pos_of_mem he
    omega
  · intro hcolumn
    change s.columns e = some true at hcolumn
    obtain ⟨columns, proto, heq⟩ := setColumn_eq s e false
    rw [removeColumn, if_pos hcolumn, heq, hnames e he]
    have hmem : ∀ c, c ∈ t.columns.erase e → c ∈ t.columns := fun c hc =>
      (h.unique.mem_erase_iff.mp hc).2
    refine ⟨?_, h.unique.erase e, fun c hc => h.known c (hmem c hc), h.numberOfRows, ?_⟩
    · simp [listed, h.identifiers]
    · intro c hc r row hrow
      exact h.cells c (hmem c hc) r row hrow

/-- A call that leaves the arrays of views alone associates what the new rows
carry with the old numbers. -/
theorem associated_rows_iff (h : Associated s t) {rows : List (Row V)} {n : Nat}
    (hn : n = rows.length) :
    Associated { s with numberOfRows := n } { t with rows } ↔
      ∀ c ∈ t.columns, ∀ r row, rows[r]? = some row → viewForTableColumn s c r = row c :=
  ⟨fun hafter => hafter.cells, fun hcells => ⟨h.identifiers, h.unique, h.known, hn, hcells⟩⟩

/-- A row is inserted under numbers that show nothing. -/
theorem addRow_associated_iff (h : Associated s t) {ndx : Option Nat}
    (hndx : ndx.getD t.rows.length ≤ t.rows.length) :
    Associated (addRow s ndx).state (listed s.view t (.addRow ndx)) ↔
      KeepsCells nsString (s, t) (.addRow ndx) := by
  obtain ⟨k, hk⟩ : ∃ k, ndx.getD t.rows.length = k := ⟨_, rfl⟩
  rw [hk] at hndx
  have hle : orNumberOfRows ndx s.numberOfRows ≤ s.numberOfRows := by
    match ndx, hk with
    | none, _ | some 0, _ => exact Nat.le_refl _
    | some (k + 1), rfl => exact h.numberOfRows ▸ hndx
  have hlen : s.numberOfRows + 1 = (insertAt t.rows ndx fun _ => none).length := by
    rw [length_insertAt (fun k' hk' => by subst hk'; simpa [← hk] using hndx), h.numberOfRows]
  simp only [addRow, if_pos hle, listed, KeepsCells, hk]
  rw [associated_rows_iff h hlen]
  refine forall₂_congr fun c hc => ?_
  have hrows : ∀ r, (insertAt t.rows ndx fun _ => none)[r]? =
      if r < k then t.rows[r]? else if r = k then some fun _ => none else t.rows[r - 1]? := by
    rw [insertAt, hk]
    exact getElem?_insertAt hndx _
  constructor
  · intro hcells r hr hrn
    induction r, hr using Nat.le_induction with
    | base => exact hcells k (fun _ => none) (by rw [hrows]; simp)
    | succ r hr ih =>
        have hrow : t.rows[r]? = some t.rows[r] := List.getElem?_eq_getElem hrn
        have hnew := hcells (r + 1) t.rows[r] (by
          rw [hrows, if_neg (by omega), if_neg (by omega)]
          exact hrow)
        rw [hnew, ← h.cells c hc r _ hrow]
        exact ih (Nat.le_of_lt hrn)
  · intro hnone r row hrow
    rw [hrows] at hrow
    split at hrow
    · exact h.cells c hc r row hrow
    · split at hrow
      · next hrk =>
        cases hrow
        exact hnone r (by omega) (by omega)
      · have hr := (List.getElem?_eq_some_iff.mp hrow).1
        rw [hnone r (by omega) (by omega), ← h.cells c hc (r - 1) row hrow]
        exact (hnone (r - 1) (by omega) (by omega)).symm

/-- The rows from the removed one on show the same views. -/
theorem removeRow_associated_iff (h : Associated s t) {ndx : Option Nat} (hne : 0 < t.rows.length)
    (hndx : ndx.getD 0 < t.rows.length) :
    Associated (removeRow s ndx).state (listed s.view t (.removeRow ndx)) ↔
      KeepsCells nsString (s, t) (.removeRow ndx) := by
  obtain ⟨k, hk⟩ : ∃ k, ndx.getD (t.rows.length - 1) = k := ⟨_, rfl⟩
  have hlt : k < t.rows.length := by
    cases ndx with
    | none => exact hk ▸ Nat.sub_lt hne Nat.one_pos
    | some k' => exact hk ▸ hndx
  have hlen : s.numberOfRows - 1 = (deleteAt t.rows ndx).length := by
    rw [length_deleteAt hne fun k' hk' => by simpa [hk'] using hndx, h.numberOfRows]
  simp only [removeRow, h.numberOfRows, hk, if_pos hlt, listed, KeepsCells]
  rw [← h.numberOfRows, associated_rows_iff h hlen, h.numberOfRows]
  refine forall₂_congr fun c hc => ?_
  have hrows : ∀ r, (deleteAt t.rows ndx)[r]? =
      if r < k then t.rows[r]? else t.rows[r + 1]? := by
    rw [deleteAt, hk]
    exact fun r => List.getElem?_eraseIdx
  constructor
  · intro hcells r hr hrn
    have hrow : t.rows[r + 1]? = some t.rows[r + 1] := List.getElem?_eq_getElem (by omega)
    have hnew := hcells r t.rows[r + 1] (by rw [hrows, if_neg (by omega)]; exact hrow)
    rw [hnew, h.cells c hc (r + 1) _ hrow]
  · intro hsame r row hrow
    rw [hrows] at hrow
    split at hrow
    · exact h.cells c hc r row hrow
    · have hr := (List.getElem?_eq_some_iff.mp hrow).1
      rw [hsame r (by omega) (by omega)]
      exact h.cells c hc (r + 1) row hrow

/-- The rows between the two indices of a move show the same views. -/
theorem moveRow_associated_iff (h : Associated s t) {i j : Nat} (hi : i < t.rows.length)
    (hj : j < t.rows.length) :
    Associated (moveRow s i j).state (listed s.view t (.moveRow i j)) ↔
      KeepsCells nsString (s, t) (.moveRow i j) := by
  have hlen : s.numberOfRows = (move t.rows i j).length := by
    rw [length_move hi hj, h.numberOfRows]
  have hrows := fun r => getElem?_move (r := r) hi hj
  refine (associated_rows_iff h hlen).trans (forall₂_congr fun c hc => ?_)
  constructor
  · intro hcells r hr hrn
    rcases Nat.le_total i j with hij | hij
    · -- the rows after `i` move down by one
      have hrow : t.rows[r + 1]? = some t.rows[r + 1] := List.getElem?_eq_getElem (by omega)
      have hnew := hcells r t.rows[r + 1] (by
        rw [hrows, if_neg (by omega), if_pos (by omega)]
        exact hrow)
      rw [hnew, h.cells c hc (r + 1) _ hrow]
    · -- the rows before `i` move up by one
      have hrow : t.rows[r]? = some t.rows[r] := List.getElem?_eq_getElem (by omega)
      have hnew := hcells (r + 1) t.rows[r] (by
        rw [hrows, if_neg (by omega), if_neg (by omega), if_pos (by omega)]
        exact hrow)
      rw [hnew, h.cells c hc r _ hrow]
  · intro hsame r row hrow
    have hconst := fun x => constant_of_step (r := x) (hsame : ∀ r, _ → _ → _)
    rw [hrows] at hrow
    split at hrow
    · next hrj =>
      subst hrj
      rw [← h.cells c hc i row hrow, hconst r (by omega) (by omega), hconst i (by omega) (by omega)]
    · split at hrow
      · rw [← h.cells c hc (r + 1) row hrow]
        exact hsame r (by omega) (by omega)
      · split at hrow
        · rw [← h.cells c hc (r - 1) row hrow, hsame (r - 1) (by omega) (by omega),
            Nat.sub_add_cancel (by omega)]
        · exact h.cells c hc r row hrow

/-- A value is stored under the number of its row. -/
theorem setValueAt_associated (h : Associated s t) {e : Text} (he : e ∈ t.columns) (i : Nat)
    (value : Value V) :
    Associated (setValueAt s e i value).state (listed s.view t (.setValueAt e i value)) := by
  obtain ⟨views, hviews⟩ := Option.isSome_iff_exists.mp (h.known e he)
  simp only [setValueAt, hviews]
  refine ⟨h.identifiers, h.unique, ?_, ?_, ?_⟩
  · intro c hc
    by_cases hce : c = e
    · simp [hce]
    · simpa [hce] using h.known c hc
  · simp [listed, h.numberOfRows]
  · intro c hc r row hrow
    simp only [listed, List.getElem?_modify] at hrow
    obtain ⟨row', hr, hrow⟩ := Option.map_eq_some_iff.mp hrow
    have hold := h.cells c hc r row' hr
    by_cases hce : c = e
    · subst hce
      by_cases hri : i = r
      · subst hri
        simp [viewForTableColumn, ← hrow]
      · have hrow : row' = row := by simpa [hri] using hrow
        simpa [viewForTableColumn, hviews, Ne.symm hri, ← hrow] using hold
    · have hrow : row c = row' c := by
        by_cases hri : i = r <;> simp [← hrow, hri, hce]
      simpa [viewForTableColumn, hce, hrow] using hold

/-- **One call.**  A call in range keeps the association exactly when it meets
the condition. -/
theorem step_associated_iff {p q : State V × Table V} {c : Call V}
    (hnames : ∀ e ∈ p.2.columns, nsString e = e) (h : Associated p.1 p.2)
    (hstep : step nsString p c = some q) :
    Associated q.1 q.2 ↔ KeepsCells nsString p c := by
  obtain ⟨s, t⟩ := p
  unfold step at hstep
  split at hstep
  · next hrange =>
    obtain rfl := Option.some.inj hstep
    cases c with
    | addColumn e => exact addColumn_associated_iff nsString h e
    | removeColumn e => exact removeColumn_associated_iff nsString h hnames hrange
    | addRow ndx => exact addRow_associated_iff nsString h hrange
    | removeRow ndx => exact removeRow_associated_iff nsString h hrange.1 hrange.2
    | moveRow i j => exact moveRow_associated_iff nsString h hrange.1 hrange.2
    | setValueAt e i value =>
        exact ⟨fun _ => trivial, fun _ => setValueAt_associated h hrange.1 i value⟩
  · cases hstep

/-- The names of the columns are texts that an `NSString` keeps. -/
theorem step_names {p q : State V × Table V} {c : Call V}
    (hnames : ∀ e ∈ p.2.columns, nsString e = e) (hkeeps : KeepsCells nsString p c)
    (hstep : step nsString p c = some q) : ∀ e ∈ q.2.columns, nsString e = e := by
  obtain ⟨s, t⟩ := p
  unfold step at hstep
  split at hstep
  · obtain rfl := Option.some.inj hstep
    cases c with
    | addColumn e =>
        intro c hc
        rcases List.mem_append.mp hc with hc | hc
        · exact hnames c hc
        · exact List.mem_singleton.mp hc ▸ hkeeps.2.2
    | removeColumn e => exact fun c hc => hnames c (List.mem_of_mem_erase hc)
    | addRow ndx => exact hnames
    | removeRow ndx => exact hnames
    | moveRow i j => exact hnames
    | setValueAt e i value => exact hnames
  · cases hstep

/-! ## All calls -/

theorem start_associated : Associated (start : State V) ⟨[], []⟩ :=
  ⟨rfl, List.nodup_nil, by simp, rfl, by simp⟩

/-- **Cells follow rows.**  All along a sequence of calls in range every cell
shows what was last set for its row if and only if every call meets the
condition. -/
theorem cells_follow_rows_iff (calls : List (Call V))
    (hrange : Meets (step nsString) (fun _ _ => True) (start, ⟨[], []⟩) calls) :
    Throughout (step nsString) (fun p => Associated p.1 p.2) (start, ⟨[], []⟩) calls ↔
      Meets (step nsString) (KeepsCells nsString) (start, ⟨[], []⟩) calls :=
  throughout_iff_meets_of_kept (J := fun p => ∀ e ∈ p.2.columns, nsString e = e)
    (fun _ _ _ hnames h hafter hstep =>
      step_names nsString hnames ((step_associated_iff nsString hnames h hstep).mp hafter) hstep)
    (fun _ _ _ hnames h hstep => step_associated_iff nsString hnames h hstep)
    (by simp) start_associated hrange

/-- A column with two rows and a text in the first. -/
def filled : List (Call Nat) :=
  [.addColumn ['a'], .addRow none, .addRow none, .setValueAt ['a'] 0 (.text ['x'])]

/-- The text of a C string ends at its first NUL. -/
def cString (text : Text) : Text := text.takeWhile (· ≠ '\x00')

theorem cells_follow_rows_iff_filled :
    Meets (step cString) (fun _ _ => True) ((start : State Nat), ⟨[], []⟩) filled ∧
    (Throughout (step cString) (fun p => Associated p.1 p.2)
    ((start : State Nat), ⟨[], []⟩) filled ↔
      Meets (step cString) (KeepsCells cString) ((start : State Nat), ⟨[], []⟩) filled) :=
  ⟨by decide, cells_follow_rows_iff cString _ (by decide)⟩

/-- **An inserted row takes the cells.**  A row is inserted at index 1, where the
second row shows a text: the new row shows it. -/
theorem inserted_row_takes_cells :
    ¬ ∀ calls : List (Call Nat),
      Meets (step cString) (fun _ _ => True) (start, ⟨[], []⟩) calls →
        Throughout (step cString) (fun p => Associated p.1 p.2) (start, ⟨[], []⟩) calls := by
  intro hall
  have hrun := hall [.addColumn ['a'], .addRow none, .addRow none,
    .setValueAt ['a'] 1 (.text ['x']), .addRow (some 1)] (by decide)
  obtain ⟨-, hrun⟩ := hrun
  obtain ⟨-, hrun⟩ := hrun _ rfl
  obtain ⟨-, hrun⟩ := hrun _ rfl
  obtain ⟨-, hrun⟩ := hrun _ rfl
  obtain ⟨-, hrun⟩ := hrun _ rfl
  have hcell := (hrun _ rfl).cells ['a'] (by decide) 1 _ rfl
  revert hcell
  decide

end Calls

end Model

end TableMac

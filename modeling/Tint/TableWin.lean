import Tint.ListEdit
import Tint.Transition

/-!
# The rows of a table on Windows

`Table_win` keeps its rows twice: as objects in the array `private.rows`, and as
the `Items` of the native grid, which get a copy of the object whenever one is
inserted.  Every call edits the two with statements of their own: `addRow`
assigns into the array where it inserts into the items, `removeRow` deletes
items only, and `moveRow` takes the row out of the array without putting it
back.

The copy is made by the bridge, which knows a native object by its `pointer` or
its `classPointer`: a row with a cell under one of these names is taken for the
wrapper of a native object, and so is one that inherits from a wrapper, because
it was assigned under `__proto__`.

* `rows_mirror_iff` -- the array, the items and the plain list of rows that the
  calls describe stay the same all along a sequence of calls in range if and
  only if rows are added at the end only, never removed, and moved only to where
  they are, and every row that is inserted has proper names;
* `removed_row_stays` -- a removed row stays in `private.rows`.
-/

namespace TableWin

open ListEdit Transition

/-- The text of a label or the name of a column. -/
abbrev Text := List Char

instance : LawfulBEq Text := inferInstance

/-! ## Objects and the bridge -/

/-- The property of a wrapper that has its native object. -/
def pointerName : Text := "pointer".toList

theorem pointerName_ne_nil : pointerName ≠ [] := by decide

/-- The property of a wrapper that has its native class. -/
def classPointerName : Text := "classPointer".toList

/-- The property that marks a row as an expando object. -/
def expandoObject : Text := "_expandoObject".toList

/-- The name that an object has its prototype under. -/
def protoName : Text := "__proto__".toList

section Bridge

variable {α N : Type}

/-- `object[name] = a` -/
def put (object : List (Text × α)) (name : Text) (a : α) : List (Text × α) :=
  if name ∈ object.map Prod.fst then
    object.map fun entry => if entry.1 = name then (name, a) else entry
  else object ++ [(name, a)]

/-- `object[name]`, of its own properties. -/
def get (object : List (Text × α)) (name : Text) : Option α :=
  (object.find? fun entry => entry.1 = name).map Prod.snd

/-- What is handed to the native side for a row: the wrapper in its `pointer` or
`classPointer`, the native object of the wrapper it inherits from, or an object
with the native objects of its cells. -/
inductive Unwrapped (α : Type)
  | wrapper (a : α)
  | native (a : α)
  | row (cells : List (Text × α))

/-- `unwrap`, of an object of wrappers that has the mark. -/
def unwrap (cells : List (Text × α)) : Unwrapped α :=
  match get cells pointerName with
  | some a => .wrapper a
  | none =>
      match get cells protoName with
      | some a => .native a
      | none =>
          match get cells classPointerName with
          | some a => .wrapper a
          | none => .row cells

/-- The native side as far as the table depends on it. -/
structure Bridge (α N : Type) where
  /-- the `System::String` made of the UTF-8 bytes of a name -/
  netName : Text → Text
  /-- what becomes of a wrapper that is marshalled property by property, unless a
  getter or the conversion throws -/
  object : α → Option N
  /-- the enumerable properties of a column's wrapper, apart from its `pointer` -/
  members : List Text

/-- An element of `nativeView.Items` that is not null: the copy of a row, the
native object of a wrapper, or what became of a wrapper. -/
inductive Item (α N : Type)
  | row (cells : List (Text × α))
  | native (a : α)
  | object (n : N)
  deriving DecidableEq

/-- `MarshalV8ToCLR`: an expando object takes no name twice. -/
def marshal (bridge : Bridge α N) : Unwrapped α → Option (Item α N)
  | .wrapper a => (bridge.object a).map .object
  | .native a => some (.native a)
  | .row cells =>
      if ∀ a ∈ cells.map Prod.fst, ∀ b ∈ cells.map Prod.fst,
          bridge.netName a = bridge.netName b → a = b then some (.row cells)
      else none

/-- No name is one that the bridge knows a native object by, and no two of them
become the same. -/
structure Proper (bridge : Bridge α N) (names : List Text) : Prop where
  pointer : pointerName ∉ names
  proto : protoName ∉ names
  classPointer : classPointerName ∉ names
  distinct : ∀ a ∈ names, ∀ b ∈ names, bridge.netName a = bridge.netName b → a = b

theorem proper_iff {bridge : Bridge α N} {names : List Text} :
    Proper bridge names ↔ pointerName ∉ names ∧ protoName ∉ names ∧ classPointerName ∉ names ∧
      ∀ a ∈ names, ∀ b ∈ names, bridge.netName a = bridge.netName b → a = b :=
  ⟨fun h => ⟨h.pointer, h.proto, h.classPointer, h.distinct⟩,
    fun h => ⟨h.1, h.2.1, h.2.2.1, h.2.2.2⟩⟩

instance (bridge : Bridge α N) (names : List Text) : Decidable (Proper bridge names) :=
  decidable_of_iff _ proper_iff.symm

/-- Only which names there are matters. -/
theorem proper_congr {bridge : Bridge α N} {names names' : List Text}
    (h : ∀ name, name ∈ names ↔ name ∈ names') : Proper bridge names ↔ Proper bridge names' := by
  simp only [proper_iff, h]

theorem get_eq_none_iff {object : List (Text × α)} {name : Text} :
    get object name = none ↔ name ∉ object.map Prod.fst := by
  simp only [get, Option.map_eq_none_iff, List.find?_eq_none, decide_eq_true_eq, List.mem_map,
    not_exists, not_and]

/-- A property that is assigned is one of the object. -/
@[simp] theorem mem_names_put {object : List (Text × α)} {name other : Text} {a : α} :
    other ∈ (put object name a).map Prod.fst ↔ other = name ∨ other ∈ object.map Prod.fst := by
  unfold put
  split
  · next hmem =>
    have hnames : (object.map fun entry => if entry.1 = name then (name, a) else entry).map
        Prod.fst = object.map Prod.fst := by
      rw [List.map_map]
      refine List.map_congr_left fun entry _ => ?_
      by_cases heq : entry.1 = name <;> simp [heq]
    rw [hnames]
    exact ⟨.inr, fun h => h.elim (fun heq => heq ▸ hmem) id⟩
  · rw [List.map_append, List.mem_append, or_comm]
    simp

/-- What is marshalled as a row is the row that was handed over. -/
theorem row_of_marshal {bridge : Bridge α N} {cells row : List (Text × α)}
    (h : marshal bridge (unwrap cells) = some (.row row)) : row = cells := by
  unfold unwrap at h
  split at h
  · next a _ => cases ha : bridge.object a <;> simp [marshal, ha] at h
  · split at h
    · cases h
    · split at h
      · next a _ => cases ha : bridge.object a <;> simp [marshal, ha] at h
      · rw [marshal] at h
        exact (Item.row.inj (Option.some.inj (Option.ite_none_right_eq_some.mp h).2)).symm

/-- **The bridge.**  A row is marshalled as a row exactly when its names are proper. -/
theorem marshal_unwrap_iff {bridge : Bridge α N} {cells : List (Text × α)} :
    marshal bridge (unwrap cells) = some (.row cells) ↔
      Proper bridge (cells.map Prod.fst) := by
  have hwrapper : ∀ a, marshal bridge (.wrapper a : Unwrapped α) ≠ some (.row cells) := by
    intro a
    cases ha : bridge.object a <;> simp [marshal, ha]
  constructor
  · intro hrow
    unfold unwrap at hrow
    split at hrow
    · exact absurd hrow (hwrapper _)
    · next hpointer =>
      split at hrow
      · cases hrow
      · next hproto =>
        split at hrow
        · exact absurd hrow (hwrapper _)
        · next hclass =>
          rw [marshal] at hrow
          have hdistinct := (Option.ite_none_right_eq_some.mp hrow).1
          exact ⟨get_eq_none_iff.mp hpointer, get_eq_none_iff.mp hproto,
            get_eq_none_iff.mp hclass, hdistinct⟩
  · intro hproper
    have hunwrap : unwrap cells = .row cells := by
      simp only [unwrap, get_eq_none_iff.mpr hproper.pointer, get_eq_none_iff.mpr hproper.proto,
        get_eq_none_iff.mpr hproper.classPointer]
    rw [hunwrap, marshal, if_pos hproper.distinct]

end Bridge

/-! ## The table -/

/-- The content of a cell: a label, or the `nativeView` of a control.  The mark of
a row is no cell. -/
inductive Cell (V : Type)
  | label (content : Text)
  | view (nativeView : V)
  | expando
  deriving DecidableEq

/-- The value given to `setValueAt`. -/
inductive Value (V : Type)
  | text (value : Text)
  | control (nativeView : V)

/-- The properties of a row object. -/
abbrev Cells (V : Type) := List (Text × Cell V)

/-- A row object: which one it is, and its properties, the mark among them. -/
structure Row (V : Type) where
  id : Nat
  cells : Cells V
  marked : expandoObject ∈ cells.map Prod.fst
  deriving DecidableEq

section Model

variable {V N : Type}

/-- The names of the properties of a row. -/
def Row.names (row : Row V) : List Text := row.cells.map Prod.fst

theorem Row.marked_put (row : Row V) (name : Text) (cell : Cell V) :
    expandoObject ∈ (put row.cells name cell).map Prod.fst :=
  mem_names_put.mpr (.inr row.marked)

/-- `row[name] = cell` -/
def Row.set (row : Row V) (name : Text) (cell : Cell V) : Row V :=
  ⟨row.id, put row.cells name cell, row.marked_put name cell⟩

/-- `private` and the native grid.  An element of `private.rows` that was never
assigned is undefined; `created` counts the row objects made so far. -/
structure State (V N : Type) where
  /-- the keys of `private.columns` -/
  columns : List Text
  /-- `private.columns` has a column as its prototype -/
  inherits : Bool
  /-- `nativeView.Columns.Count` -/
  columnCount : Nat
  rows : List (Option (Row V))
  /-- `nativeView.Items`: what was inserted, or null -/
  items : List (Option (Item (Cell V) N))
  created : Nat

/-- A table that has just been constructed. -/
def start : State V N := ⟨[], false, 0, [], [], 0⟩

/-- `numberOfRows` -/
def State.numberOfRows (s : State V N) : Nat := s.items.length

/-- A call returns or throws; either way it leaves a state. -/
structure Outcome (V N : Type) where
  state : State V N
  error : Option String

/-- `addColumn` -/
def addColumn (s : State V N) (name : Text) : Outcome V N :=
  ⟨{ s with
      columns := if name = protoName ∨ name ∈ s.columns then s.columns else s.columns ++ [name]
      inherits := s.inherits || name = protoName
      columnCount := s.columnCount + 1 }, none⟩

/-- `for(var name in private.columns) if(name)`: inherited names are visited too. -/
def State.names (bridge : Bridge (Cell V) N) (s : State V N) : List Text :=
  (s.columns ++ if s.inherits then pointerName :: bridge.members else []).filter (· ≠ [])

/-- The properties of the row object that `addRow` makes: an empty label for every
name, and the mark. -/
def State.itemsCells (bridge : Bridge (Cell V) N) (s : State V N) : Cells V :=
  put ((s.names bridge).foldl (fun itemsRow name => put itemsRow name (.label [])) [])
    expandoObject .expando

theorem State.itemsCells_marked (bridge : Bridge (Cell V) N) (s : State V N) :
    expandoObject ∈ (s.itemsCells bridge).map Prod.fst :=
  mem_names_put.mpr (.inl rfl)

/-- The row object that `addRow` makes. -/
def State.itemsRow (bridge : Bridge (Cell V) N) (s : State V N) : Row V :=
  ⟨s.created, s.itemsCells bridge, s.itemsCells_marked bridge⟩

/-- `array[ndx] = a` -/
def assign {α : Type} (array : List (Option α)) (ndx : Nat) (a : α) : List (Option α) :=
  if ndx < array.length then array.set ndx (some a)
  else array ++ List.replicate (ndx - array.length) none ++ [some a]

/-- `ndx || this.numberOfRows` -/
def orNumberOfRows (ndx : Option Nat) (numberOfRows : Nat) : Nat :=
  match ndx with
  | none | some 0 => numberOfRows
  | some k => k

/-- `addRow`.  `Items.Insert` takes every index up to the count. -/
def addRow (bridge : Bridge (Cell V) N) (s : State V N) (ndx : Option Nat) : Outcome V N :=
  let ndx := orNumberOfRows ndx s.numberOfRows
  if ndx ≤ s.numberOfRows then
    let row := s.itemsRow bridge
    let s := { s with rows := assign s.rows ndx row, created := s.created + 1 }
    match marshal bridge (unwrap row.cells) with
    | some item => ⟨{ s with items := s.items.insertIdx ndx (some item) }, none⟩
    | none => ⟨s, some "the row is not marshalled"⟩
  else ⟨s, some "The passed in index was greater than the number of rows."⟩

/-- `items.RemoveAt(ndx)`, so many times, until it throws. -/
def removeItems {α : Type} (ndx : Nat) : Nat → List α → List α × Option String
  | 0, items => (items, none)
  | times + 1, items =>
      if ndx < items.length then removeItems ndx times (items.eraseIdx ndx)
      else (items, some "ArgumentOutOfRangeException")

/-- `removeRow` -/
def removeRow (s : State V N) (ndx : Option Nat) : Outcome V N :=
  let ndx := ndx.getD s.numberOfRows
  if ndx < s.numberOfRows then
    let (items, error) := removeItems (ndx * s.columnCount) s.columnCount s.items
    ⟨{ s with items }, error⟩
  else ⟨s, some "The passed in index was greater than the number of rows."⟩

/-- `array.splice(from, deleteCount)` -/
def splice {α : Type} (array : List α) (ndx deleteCount : Nat) : List α :=
  array.take ndx ++ array.drop (ndx + deleteCount)

/-- A row object, or undefined, as a number of elements: it is none. -/
def toInteger (_ : Option (Row V)) : Nat := 0

/-- `moveRow`.  `Items.RemoveAt` and `Items.Insert` throw if the index is out of
range; undefined is inserted as null. -/
def moveRow (bridge : Bridge (Cell V) N) (s : State V N) (ndx toNdx : Nat) : Outcome V N :=
  if ndx = toNdx then ⟨s, none⟩
  else
    let row := s.rows[ndx]?.join
    let s := { s with rows := splice (splice s.rows ndx 1) toNdx (toInteger row) }
    if ndx < s.items.length then
      let s := { s with items := s.items.eraseIdx ndx }
      let item := match row with
        | some row => (marshal bridge (unwrap row.cells)).map some
        | none => some none
      match item with
      | some item =>
          if toNdx ≤ s.items.length then
            ⟨{ s with items := s.items.insertIdx toNdx item }, none⟩
          else ⟨s, some "ArgumentOutOfRangeException"⟩
      | none => ⟨s, some "the row is not marshalled"⟩
    else ⟨s, some "ArgumentOutOfRangeException"⟩

/-- The cell for a value: a new label for a text, the native view of a control. -/
def Value.cell : Value V → Cell V
  | .text value => .label value
  | .control nativeView => .view nativeView

/-- `setValueAt` -/
def setValueAt (bridge : Bridge (Cell V) N) (s : State V N) (name : Text) (rowIndex : Nat)
    (value : Value V) : Outcome V N :=
  match s.rows[rowIndex]?.join with
  | none => ⟨s, some "Cannot set property of undefined"⟩
  | some row =>
      let row := row.set name value.cell
      let s := { s with rows := s.rows.set rowIndex (some row) }
      if rowIndex < s.items.length then
        let s := { s with items := s.items.eraseIdx rowIndex }
        match marshal bridge (unwrap row.cells) with
        | some item => ⟨{ s with items := s.items.insertIdx rowIndex (some item) }, none⟩
        | none => ⟨s, some "the row is not marshalled"⟩
      else ⟨s, some "ArgumentOutOfRangeException"⟩

/-- The calls. -/
inductive Call (V : Type)
  | addColumn (name : Text)
  | addRow (ndx : Option Nat)
  | removeRow (ndx : Option Nat)
  | moveRow (ndx toNdx : Nat)
  | setValueAt (name : Text) (rowIndex : Nat) (value : Value V)

/-- One call. -/
def call (bridge : Bridge (Cell V) N) (s : State V N) : Call V → Outcome V N
  | .addColumn name => addColumn s name
  | .addRow ndx => addRow bridge s ndx
  | .removeRow ndx => removeRow s ndx
  | .moveRow ndx toNdx => moveRow bridge s ndx toNdx
  | .setValueAt name rowIndex value => setValueAt bridge s name rowIndex value

/-! ## The plain list -/

/-- What a call does to a list of rows; `row` is the row object it makes. -/
def listed (row : Row V) (rows : List (Row V)) : Call V → List (Row V)
  | .addColumn _ => rows
  | .addRow ndx => insertAt rows ndx row
  | .removeRow ndx => deleteAt rows ndx
  | .moveRow ndx toNdx => move rows ndx toNdx
  | .setValueAt name rowIndex value => rows.modify rowIndex fun r => r.set name value.cell

/-- The indices of the call are in range for `n` rows. -/
def InRange (n : Nat) : Call V → Prop
  | .addColumn _ => True
  | .addRow ndx => ndx.getD n ≤ n
  | .removeRow ndx => 0 < n ∧ ndx.getD 0 < n
  | .moveRow ndx toNdx => ndx < n ∧ toNdx < n
  | .setValueAt _ rowIndex _ => rowIndex < n

instance (n : Nat) : DecidablePred (InRange n : Call V → Prop) := fun c => by
  cases c <;> unfold InRange <;> infer_instance

/-- A call in range, on the table and on the plain list. -/
def step (bridge : Bridge (Cell V) N) (p : State V N × List (Row V)) (c : Call V) :
    Option (State V N × List (Row V)) :=
  if InRange p.2.length c then
    some ((call bridge p.1 c).state, listed (p.1.itemsRow bridge) p.2 c)
  else none

/-- The array and the items are the rows of the list; every row object was made
by an `addRow`. -/
structure Mirrors (s : State V N) (t : List (Row V)) : Prop where
  rows : s.rows = t.map some
  items : s.items = t.map fun r => some (.row r.cells)
  created : ∀ r ∈ t, r.id < s.created

/-- The condition on a call: a row is added at the end, none is removed, and one
is moved only to where it is.  Where a row is added no column is called
`__proto__`, and the names of the columns and of the mark are proper; where a
value is set its name and those of the row are. -/
def KeepsOrder (bridge : Bridge (Cell V) N) (p : State V N × List (Row V)) : Call V → Prop
  | .addColumn _ => True
  | .addRow ndx => ndx.getD p.2.length = p.2.length ∧ p.1.inherits = false ∧
      Proper bridge (expandoObject :: p.1.columns.filter (· ≠ []))
  | .removeRow _ => False
  | .moveRow ndx toNdx => ndx = toNdx
  | .setValueAt name rowIndex _ =>
      ∀ row ∈ p.2[rowIndex]?, Proper bridge (name :: row.names)

instance (bridge : Bridge (Cell V) N) (p : State V N × List (Row V)) :
    DecidablePred (KeepsOrder bridge p) := fun c => by
  cases c <;> unfold KeepsOrder <;> infer_instance

/-! ## One call -/

section Calls

variable {bridge : Bridge (Cell V) N} {s : State V N} {t : List (Row V)}

theorem Mirrors.numberOfRows (h : Mirrors s t) : s.numberOfRows = t.length := by
  simp [State.numberOfRows, h.items]

/-- The properties of a new row are those of its names and the mark. -/
theorem mem_itemsRow_names {name : Text} :
    name ∈ (s.itemsRow bridge).names ↔ name = expandoObject ∨ name ∈ s.names bridge := by
  have hfold : ∀ (names : List Text) (cells : Cells V),
      name ∈ (names.foldl (fun itemsRow name => put itemsRow name (.label [])) cells).map
        Prod.fst ↔ name ∈ names ∨ name ∈ cells.map Prod.fst := by
    intro names
    induction names with
    | nil => simp
    | cons other names ih =>
        intro cells
        rw [List.foldl_cons, ih, mem_names_put, List.mem_cons]
        tauto
  have hcells := hfold (s.names bridge) []
  rw [Row.names, State.itemsRow]
  unfold State.itemsCells
  rw [mem_names_put, hcells]
  simp

/-- The names of a new row are proper exactly when those of the columns are and
none of them is the prototype. -/
theorem proper_itemsRow_iff :
    Proper bridge (s.itemsRow bridge).names ↔ s.inherits = false ∧
      Proper bridge (expandoObject :: s.columns.filter (· ≠ [])) := by
  cases hproto : s.inherits with
  | true =>
      -- the `pointer` of the prototype is visited
      refine iff_of_false (fun hproper => hproper.pointer ?_) (fun h => Bool.noConfusion h.1)
      rw [mem_itemsRow_names, State.names, hproto]
      refine .inr (List.mem_filter.mpr ⟨?_, decide_eq_true pointerName_ne_nil⟩)
      exact List.mem_append_right _ List.mem_cons_self
  | false =>
      rw [eq_self, true_and]
      refine proper_congr fun name => ?_
      rw [mem_itemsRow_names, State.names, hproto]
      simp

/-- A new column changes no row. -/
theorem addColumn_mirrors (h : Mirrors s t) (name : Text) :
    Mirrors (addColumn s name).state t :=
  ⟨h.rows, h.items, h.created⟩

/-- What `addRow` does with the array when its index is in range. -/
theorem addRow_rows {ndx : Option Nat} {k : Nat} (hk : orNumberOfRows ndx s.numberOfRows = k)
    (hle : k ≤ s.numberOfRows) :
    (addRow bridge s ndx).state.rows = assign s.rows k (s.itemsRow bridge) := by
  subst hk
  simp only [addRow, if_pos hle]
  split <;> rfl

/-- What `addRow` does when its index is in range and the row is marshalled. -/
theorem addRow_eq {ndx : Option Nat} {k : Nat} (hk : orNumberOfRows ndx s.numberOfRows = k)
    (hle : k ≤ s.numberOfRows) (hproper : Proper bridge (s.itemsRow bridge).names) :
    addRow bridge s ndx =
      ⟨{ s with
          rows := assign s.rows k (s.itemsRow bridge)
          items := s.items.insertIdx k (some (.row (s.itemsRow bridge).cells))
          created := s.created + 1 }, none⟩ := by
  subst hk
  simp only [addRow, if_pos hle, marshal_unwrap_iff.mpr hproper]

/-- At the end, an index in range is the number of rows. -/
theorem orNumberOfRows_of_end (h : Mirrors s t) {ndx : Option Nat}
    (hndx : ndx.getD t.length = t.length) : orNumberOfRows ndx s.numberOfRows = t.length := by
  rw [h.numberOfRows]
  match ndx, hndx with
  | none, _ | some 0, _ => rfl
  | some (k + 1), hk => exact hk

/-- A row added at the end is the last one in both collections. -/
theorem addRow_mirrors (h : Mirrors s t) {ndx : Option Nat}
    (hndx : ndx.getD t.length = t.length) (hproper : Proper bridge (s.itemsRow bridge).names) :
    Mirrors (addRow bridge s ndx).state (insertAt t ndx (s.itemsRow bridge)) := by
  have hlen : s.items.length = t.length := h.numberOfRows
  have hat := orNumberOfRows_of_end h hndx
  have hinsert : insertAt t ndx (s.itemsRow bridge) = t ++ [s.itemsRow bridge] := by
    rw [insertAt, hndx, List.insertIdx_length_self]
  rw [addRow_eq hat (Nat.le_of_eq h.numberOfRows.symm) hproper, hinsert]
  refine ⟨?_, ?_, ?_⟩
  · simp [assign, h.rows]
  · rw [← hlen, List.insertIdx_length_self, h.items, List.map_append]
    rfl
  · intro r hr
    rcases List.mem_append.mp hr with hr | hr
    · exact Nat.lt_succ_of_lt (h.created r hr)
    · obtain rfl := List.mem_singleton.mp hr
      exact Nat.lt_succ_self _

/-- An item that is inserted for a row is that row only if its names are proper. -/
theorem proper_of_inserted {row : Row V} {item : Item (Cell V) N}
    (hmarshal : marshal bridge (unwrap row.cells) = some item)
    (hrow : some item = some (.row row.cells)) : Proper bridge row.names :=
  marshal_unwrap_iff.mp (hmarshal.trans hrow)

/-- A row that is not marshalled as one is none in the items. -/
theorem addRow_proper (h : Mirrors s t) {ndx : Option Nat} (hndx : ndx.getD t.length = t.length)
    (hafter : Mirrors (addRow bridge s ndx).state (insertAt t ndx (s.itemsRow bridge))) :
    Proper bridge (s.itemsRow bridge).names := by
  have hat := orNumberOfRows_of_end h hndx
  have hlen : s.items.length = t.length := h.numberOfRows
  have hinsert : insertAt t ndx (s.itemsRow bridge) = t ++ [s.itemsRow bridge] := by
    rw [insertAt, hndx, List.insertIdx_length_self]
  have hitems := hafter.items
  rw [hinsert, List.map_append] at hitems
  simp only [addRow, hat, if_pos (Nat.le_of_eq h.numberOfRows.symm)] at hitems
  cases hmarshal : marshal bridge (unwrap (s.itemsRow bridge).cells) with
  | none =>
      rw [hmarshal] at hitems
      have hlength := congrArg List.length hitems
      simp only [List.length_append, List.length_map, List.length_singleton] at hlength
      omega
  | some item =>
      rw [hmarshal] at hitems
      simp only [← hlen, List.insertIdx_length_self] at hitems
      rw [h.items] at hitems
      have hlast := List.append_cancel_left hitems
      exact proper_of_inserted hmarshal (List.cons_eq_cons.mp hlast).1

/-- A row added before the end is missing in the array, or it is the last one
where it should be the first. -/
theorem addRow_not_mirrors (h : Mirrors s t) {k : Nat} (hk : k < t.length) :
    ¬ Mirrors (addRow bridge s (some k)).state (insertAt t (some k) (s.itemsRow bridge)) := by
  intro hafter
  have hlen : s.rows.length = t.length := by simp [h.rows]
  have hrows := hafter.rows
  cases k with
  | zero =>
      have hat : orNumberOfRows (some 0) s.numberOfRows = t.length := h.numberOfRows
      rw [addRow_rows hat (Nat.le_of_eq h.numberOfRows.symm)] at hrows
      obtain ⟨r, rest, rfl⟩ : ∃ r rest, t = r :: rest := List.exists_cons_of_length_pos hk
      have hfirst : some r = some (s.itemsRow bridge) := by
        simpa [assign, h.rows, insertAt] using congrArg List.head? hrows
      have hr := h.created r List.mem_cons_self
      rw [Option.some.inj hfirst] at hr
      exact Nat.lt_irrefl _ hr
  | succ k =>
      have hat : orNumberOfRows (some (k + 1)) s.numberOfRows = k + 1 := rfl
      rw [addRow_rows hat (by rw [h.numberOfRows]; exact Nat.le_of_lt hk)] at hrows
      have hlength := congrArg List.length hrows
      rw [assign, if_pos (by omega), List.length_set, List.length_map,
        length_insertAt (by simpa using Nat.le_of_lt hk)] at hlength
      omega

/-- A row is added as it should be exactly at the end and under proper names. -/
theorem addRow_mirrors_iff (h : Mirrors s t) {ndx : Option Nat}
    (hrange : ndx.getD t.length ≤ t.length) :
    Mirrors (addRow bridge s ndx).state (insertAt t ndx (s.itemsRow bridge)) ↔
      KeepsOrder bridge (s, t) (.addRow ndx) := by
  rw [KeepsOrder, ← proper_itemsRow_iff]
  refine ⟨fun hafter => ?_, fun hkeeps => addRow_mirrors h hkeeps.1 hkeeps.2⟩
  have hndx : ndx.getD t.length = t.length := by
    by_contra hne
    cases ndx with
    | none => exact hne rfl
    | some k => exact addRow_not_mirrors h (Nat.lt_of_le_of_ne hrange hne) hafter
  exact ⟨hndx, addRow_proper h hndx hafter⟩

/-- The array is left as it is. -/
theorem removeRow_rows (s : State V N) (ndx : Option Nat) :
    (removeRow s ndx).state.rows = s.rows := by
  simp only [removeRow]
  split <;> rfl

/-- A removed row stays in the array. -/
theorem removeRow_not_mirrors (h : Mirrors s t) {ndx : Option Nat}
    (hne : 0 < t.length) (hndx : ndx.getD 0 < t.length) :
    ¬ Mirrors (removeRow s ndx).state (deleteAt t ndx) := by
  intro hafter
  have hrows := congrArg List.length hafter.rows
  have hdelete : (deleteAt t ndx).length = t.length - 1 :=
    length_deleteAt hne fun k hk => by simpa [hk] using hndx
  simp only [removeRow_rows, h.rows, List.length_map, hdelete] at hrows
  omega

/-- The row is taken out of the array. -/
theorem moveRow_rows (s : State V N) {i j : Nat} (hij : i ≠ j) :
    (moveRow bridge s i j).state.rows = splice (splice s.rows i 1) j 0 := by
  simp only [moveRow, if_neg hij, toInteger]
  split
  · split
    · split <;> rfl
    · rfl
  · rfl

/-- A row that is moved elsewhere is lost in the array. -/
theorem moveRow_not_mirrors (h : Mirrors s t) {i j : Nat} (hij : i ≠ j) (hi : i < t.length)
    (hj : j < t.length) : ¬ Mirrors (moveRow bridge s i j).state (move t i j) := by
  intro hafter
  have hrows := congrArg List.length hafter.rows
  rw [moveRow_rows s hij, List.length_map, length_move hi hj] at hrows
  simp only [splice, h.rows, List.length_append, List.length_take, List.length_drop,
    List.length_map] at hrows
  omega

/-- The changed row object is inserted again where its copy was, if its names are
proper. -/
theorem setValueAt_mirrors_iff (h : Mirrors s t) (name : Text) {i : Nat} (hi : i < t.length)
    (value : Value V) :
    Mirrors (setValueAt bridge s name i value).state
        (t.modify i fun r => r.set name value.cell) ↔
      KeepsOrder bridge (s, t) (.setValueAt name i value) := by
  have hrow : s.rows[i]?.join = some t[i] := by simp [h.rows, hi]
  have hitems : i < s.items.length := by simpa [h.items] using hi
  have hmodify : t.modify i (fun r => r.set name value.cell) = t.set i (t[i].set name value.cell) :=
    List.modify_eq_set_get _ hi
  have hcondition : KeepsOrder bridge (s, t) (.setValueAt name i value) ↔
      Proper bridge (t[i].set name value.cell).names := by
    simp only [KeepsOrder, List.getElem?_eq_getElem hi, Option.mem_def, Option.some.injEq,
      forall_eq']
    exact proper_congr fun other => by rw [List.mem_cons, Row.names, Row.names, Row.set,
      mem_names_put]
  rw [hcondition, hmodify]
  simp only [setValueAt, hrow, if_pos hitems]
  cases hmarshal : marshal bridge (unwrap (t[i].set name value.cell).cells) with
  | none =>
      refine iff_of_false (fun hafter => ?_) (fun hproper => ?_)
      · have hlength := congrArg List.length hafter.items
        have hlen : s.items.length = t.length := h.numberOfRows
        simp only [List.length_eraseIdx_of_lt hitems, List.length_map, List.length_set] at hlength
        omega
      · rw [marshal_unwrap_iff.mpr hproper] at hmarshal
        cases hmarshal
  | some item =>
      constructor
      · intro hafter
        have hat := congrArg (·[i]?) hafter.items
        simp only [List.insertIdx_eraseIdx_self (Nat.ne_of_lt hitems),
          List.getElem?_set_self hitems,
          List.getElem?_map, List.getElem?_set_self hi, Option.map_some, Option.some.injEq] at hat
        exact proper_of_inserted hmarshal (congrArg some hat)
      · intro hproper
        obtain rfl := Option.some.inj (hmarshal.symm.trans (marshal_unwrap_iff.mpr hproper))
        refine ⟨?_, ?_, ?_⟩
        · simp [h.rows]
        · simp only [List.insertIdx_eraseIdx_self (Nat.ne_of_lt hitems)]
          rw [h.items, List.map_set]
        · intro r hr
          rcases List.mem_or_eq_of_mem_set hr with hr | rfl
          · exact h.created r hr
          · exact h.created t[i] (List.getElem_mem hi)

/-- **One call.**  A call in range keeps the collections equal exactly when it
keeps the order of the rows and what it inserts has proper names. -/
theorem step_mirrors_iff {p q : State V N × List (Row V)} {c : Call V} (h : Mirrors p.1 p.2)
    (hstep : step bridge p c = some q) : Mirrors q.1 q.2 ↔ KeepsOrder bridge p c := by
  obtain ⟨s, t⟩ := p
  unfold step at hstep
  split at hstep
  · next hrange =>
    obtain rfl := Option.some.inj hstep
    cases c with
    | addColumn name => exact ⟨fun _ => trivial, fun _ => addColumn_mirrors h name⟩
    | addRow ndx => exact addRow_mirrors_iff h hrange
    | removeRow ndx =>
        exact ⟨fun hafter => removeRow_not_mirrors h hrange.1 hrange.2 hafter, False.elim⟩
    | moveRow i j =>
        constructor
        · intro hafter
          by_contra hij
          exact moveRow_not_mirrors h hij hrange.1 hrange.2 hafter
        · rintro rfl
          simpa [call, moveRow, listed, move_self hrange.1] using h
    | setValueAt name i value => exact setValueAt_mirrors_iff h name hrange value
  · cases hstep

/-! ## All calls -/

theorem start_mirrors : Mirrors (start : State V N) [] := ⟨rfl, rfl, by simp⟩

/-- **Rows mirror.**  All along a sequence of calls in range the array, the items
and the plain list are the same if and only if every call keeps the order of the
rows and inserts rows with proper names only. -/
theorem rows_mirror_iff (bridge : Bridge (Cell V) N) (calls : List (Call V))
    (hrange : Meets (step bridge) (fun _ _ => True) (start, []) calls) :
    Throughout (step bridge) (fun p => Mirrors p.1 p.2) (start, []) calls ↔
      Meets (step bridge) (KeepsOrder bridge) (start, []) calls :=
  throughout_iff_meets (J := fun _ => True) (fun _ _ _ _ _ => trivial)
    (fun _ _ _ _ h hstep => step_mirrors_iff h hstep) trivial start_mirrors hrange

/-- A native side where the text of a name ends at its first NUL. -/
def plainBridge : Bridge (Cell Nat) Nat :=
  ⟨fun name => name.takeWhile (· ≠ '\x00'), fun _ => none, []⟩

/-- A column, a row and a value in it. -/
theorem rows_mirror_iff_filled :
    Meets (step plainBridge) (fun _ _ => True) (start, [])
      [.addColumn ['a'], .addRow none, .setValueAt ['a'] 0 (.text ['x'])] ∧
    (Throughout (step plainBridge) (fun p => Mirrors p.1 p.2) (start, [])
      [.addColumn ['a'], .addRow none, .setValueAt ['a'] 0 (.text ['x'])] ↔
    Meets (step plainBridge) (KeepsOrder plainBridge) (start, [])
      [.addColumn ['a'], .addRow none, .setValueAt ['a'] 0 (.text ['x'])]) :=
  ⟨by decide, rows_mirror_iff plainBridge _ (by decide)⟩

/-- **A removed row stays.**  After the only row is removed the items are empty
and `private.rows` is not. -/
theorem removed_row_stays :
    ¬ ∀ calls : List (Call Nat),
      Meets (step plainBridge) (fun _ _ => True) (start, []) calls →
        Throughout (step plainBridge) (fun p => Mirrors p.1 p.2) (start, []) calls := by
  intro hall
  have hrun := hall [.addColumn ['a'], .addRow none, .removeRow (some 0)] (by decide)
  obtain ⟨-, hrun⟩ := hrun
  obtain ⟨-, hrun⟩ := hrun _ rfl
  obtain ⟨-, hrun⟩ := hrun _ rfl
  have hrows := (hrun _ rfl).rows
  revert hrows
  decide

end Calls

end Model

end TableWin

import Tint.TableWin
import Mathlib.Data.List.Nodup
import Mathlib.Data.List.Perm.Basic

/-!
# The columns of a table on Windows

`Table_win` keeps its columns in the object `private.columns`, under their names, counts them
in `private.columnCount`, and has them in the native grid, where each has a `DisplayIndex`.
`removeColumn` asks first whether the variable `amountOfColumns` is 0; no such variable is
declared anywhere.  What a new row becomes in the grid is up to the bridge, which takes an
object with a `pointer` for the wrapper of a native one.  The name of a column is one that WPF
takes for the path of a `Binding`.

* `columns_agree_iff` -- no call throws, the counts agree, the displayed columns are those of
  the plain list, and a new row has a cell for each of them and no others, exactly when no
  column is removed and no row added while a column has no name, that of the mark, or one that
  is not proper for the bridge;
* `removeColumn_throws` -- a column that was added cannot be removed.
-/

namespace TableColumns

open ListEdit Transition
open TableWin (Text assign orNumberOfRows put get mem_names_put expandoObject protoName
  Bridge Item Proper unwrap marshal marshal_unwrap_iff row_of_marshal proper_congr)

/-- A native column. -/
structure Column where
  id : Nat
  header : Text
  deriving DecidableEq

/-- A property of a row object: a label, or the mark of an expando object. -/
inductive Property
  | label (content : Text)
  | expando
  deriving DecidableEq

/-- A row object. -/
abbrev Row := List (Text × Property)

variable {N : Type}

/-- `private` and the native grid. -/
structure State (N : Type) where
  /-- the properties of `private.columns` -/
  columns : List (Text × Option Column)
  columnCount : Int
  /-- `native.Columns` -/
  nativeColumns : List Column
  /-- the native columns in the order of `DisplayIndex` -/
  displayed : List Column
  rows : List (Option Row)
  /-- `nativeView.Items` -/
  items : List (Item Property N)
  created : Nat
  /-- the global variable of that name, if there is one -/
  amountOfColumns : Option Int

/-- A table that has just been constructed. -/
def start : State N := ⟨[], 0, [], [], [], [], 0, none⟩

/-- A call returns or throws; either way it leaves a state. -/
structure Outcome (N : Type) where
  state : State N
  error : Option String

/-- `for(var name in object)`: in which order, the engine decides. -/
structure ForIn where
  visit : List (Text × Option Column) → List (Text × Option Column)
  perm : ∀ object, (visit object).Perm object

section Model

/-- `column.DisplayIndex = ndx`; the columns in between move up. -/
def setDisplayIndex (s : State N) (column : Column) (ndx : Int) : Outcome N :=
  if 0 ≤ ndx ∧ ndx < s.displayed.length then
    ⟨{ s with displayed := move s.displayed (s.displayed.idxOf column) ndx.toNat }, none⟩
  else ⟨s, some "ArgumentOutOfRangeException"⟩

/-- `addColumn`, before the event.  A column that is added is displayed last. -/
def addColumn (s : State N) (name : Text) : Outcome N :=
  let column : Column := ⟨s.created, name⟩
  let s :=
    { s with
      nativeColumns := s.nativeColumns ++ [column]
      displayed := s.displayed ++ [column]
      columns := put s.columns name (some column)
      created := s.created + 1 }
  match setDisplayIndex s column s.columnCount with
  | ⟨s, some e⟩ => ⟨s, some e⟩
  | ⟨s, none⟩ => ⟨{ s with columnCount := s.columnCount + 1 }, none⟩

/-- `nativeView.Columns.RemoveAt(nativeView.Columns.IndexOf(column))` -/
def removeNative (s : State N) (column : Option Column) : Outcome N :=
  match column with
  | some column =>
      if column ∈ s.nativeColumns then
        ⟨{ s with
            nativeColumns := s.nativeColumns.erase column
            displayed := s.displayed.erase column }, none⟩
      else ⟨s, some "ArgumentOutOfRangeException"⟩
  | none => ⟨s, some "ArgumentOutOfRangeException"⟩

/-- `removeColumn` -/
def removeColumn (s : State N) (name : Text) : Outcome N :=
  match s.amountOfColumns with
  | none => ⟨s, some "ReferenceError: amountOfColumns is not defined"⟩
  | some amountOfColumns =>
      if amountOfColumns = 0 then ⟨s, some "There are no more columns to be removed."⟩
      else
        match removeNative s (get s.columns name).join with
        | ⟨s, some e⟩ => ⟨s, some e⟩
        | ⟨s, none⟩ =>
            ⟨{ s with
                columns := put s.columns name none
                columnCount := s.columnCount - 1 }, none⟩

section Enumeration

variable (engine : ForIn) (bridge : Bridge Property N)

/-- The row object that `addRow` makes. -/
def itemsRow (s : State N) : Row :=
  let itemsRow := (engine.visit s.columns).foldl
    (fun itemsRow entry => if entry.1 ≠ [] then put itemsRow entry.1 (.label []) else itemsRow) []
  put itemsRow expandoObject .expando

/-- `addRow`.  `Items.Insert` takes every index up to the count. -/
def addRow (s : State N) (ndx : Option Nat) : Outcome N :=
  let ndx := orNumberOfRows ndx s.items.length
  if ndx ≤ s.items.length then
    let row := itemsRow engine s
    let s := { s with rows := assign s.rows ndx row }
    match marshal bridge (unwrap row) with
    | some item => ⟨{ s with items := s.items.insertIdx ndx item }, none⟩
    | none => ⟨s, some "the row is not marshalled"⟩
  else ⟨s, some "The passed in index was greater than the number of rows."⟩

/-- The loop of `moveColumn` over the entries that are left. -/
def moveAmong (s : State N) (ndx toNdx : Nat) : List (Text × Option Column) → Outcome N
  | [] => ⟨s, none⟩
  | (_, none) :: _ => ⟨s, some "Cannot read property 'DisplayIndex' of null"⟩
  | (_, some column) :: rest =>
      if s.displayed.idxOf column = ndx then setDisplayIndex s column toNdx
      else moveAmong s ndx toNdx rest

/-- `moveColumn` -/
def moveColumn (s : State N) (ndx toNdx : Nat) : Outcome N :=
  if ndx = toNdx then ⟨s, none⟩ else moveAmong s ndx toNdx (engine.visit s.columns)

/-- The calls. -/
inductive Call
  | addColumn (name : Text)
  | removeColumn (name : Text)
  | moveColumn (ndx toNdx : Nat)
  | addRow (ndx : Option Nat)

/-- One call. -/
def call (s : State N) : Call → Outcome N
  | .addColumn name => addColumn s name
  | .removeColumn name => removeColumn s name
  | .moveColumn ndx toNdx => moveColumn engine s ndx toNdx
  | .addRow ndx => addRow engine bridge s ndx

/-! ## The property and the condition -/

/-- What a call does to the list of the columns' names. -/
def listed (names : List Text) : Call → List Text
  | .addColumn name => names ++ [name]
  | .removeColumn name => names.erase name
  | .moveColumn ndx toNdx => move names ndx toNdx
  | .addRow _ => names

/-- The names and the indices of the call are valid: a column is added under a name that none
has, and the key `__proto__` is no name. -/
def Valid (s : State N) (names : List Text) : Call → Prop
  | .addColumn name => name ∉ names ∧ name ≠ protoName
  | .removeColumn name => name ∈ names
  | .moveColumn ndx toNdx => ndx < names.length ∧ toNdx < names.length
  | .addRow ndx => ndx.getD s.items.length ≤ s.items.length

instance (s : State N) (names : List Text) : DecidablePred (Valid s names) := fun c => by
  cases c <;> unfold Valid <;> infer_instance

/-- A valid call, on the table and on the list. -/
def step (p : State N × List Text) (c : Call) : Option (State N × List Text) :=
  if Valid p.1 p.2 c then some ((call engine bridge p.1 c).state, listed p.2 c) else none

/-- The columns are displayed in the order of the list, and the counts agree. -/
structure Agrees (s : State N) (names : List Text) : Prop where
  displayed : s.displayed.map Column.header = names
  native : s.nativeColumns.Perm s.displayed
  columnCount : s.columnCount = names.length

/-- The cells of a row. -/
def labels (row : Row) : List (Text × Text) :=
  row.filterMap fun
    | (name, .label content) => some (name, content)
    | (_, .expando) => none

/-- One empty cell for each column, and no others. -/
def HasCells (row : Row) (names : List Text) : Prop :=
  (labels row).Perm (names.map fun name => (name, []))

/-- **A right call.**  It does not throw, the columns agree afterwards, and a row that it adds
has its cells. -/
def Right (p : State N × List Text) (c : Call) : Prop :=
  (call engine bridge p.1 c).error = none ∧
    Agrees (call engine bridge p.1 c).state (listed p.2 c) ∧
    ∀ ndx, c = .addRow ndx → ∃ row, HasCells row p.2 ∧
      (call engine bridge p.1 c).state.items =
        p.1.items.insertIdx (orNumberOfRows ndx p.1.items.length) (.row row)

/-- **The condition.**  No column is removed, and a row is added only where no column has an
empty name or that of the mark, and the names are proper. -/
def KeepsColumns (p : State N × List Text) : Call → Prop
  | .addColumn _ => True
  | .removeColumn _ => False
  | .moveColumn _ _ => True
  | .addRow _ => [] ∉ p.2 ∧ expandoObject ∉ p.2 ∧ Proper bridge (expandoObject :: p.2)

instance (p : State N × List Text) : DecidablePred (KeepsColumns bridge p) := fun c => by
  cases c <;> unfold KeepsColumns <;> infer_instance

end Enumeration

end Model

/-! ## Objects -/

section Objects

variable {α : Type}

theorem put_of_not_mem {object : List (Text × α)} {name : Text} (h : name ∉ object.map Prod.fst)
    (a : α) : put object name a = object ++ [(name, a)] := if_neg h

/-- Properties with names of their own are put one after the other. -/
theorem foldl_put {names : List Text} (f : Text → α) (hnodup : names.Nodup)
    {object : List (Text × α)} (hnew : ∀ name ∈ names, name ∉ object.map Prod.fst) :
    names.foldl (fun object name => put object name (f name)) object =
      object ++ names.map fun name => (name, f name) := by
  induction names generalizing object with
  | nil => simp
  | cons name names ih =>
      obtain ⟨hhead, htail⟩ := List.nodup_cons.mp hnodup
      obtain ⟨hfirst, hrest⟩ := List.forall_mem_cons.mp hnew
      rw [List.foldl_cons, put_of_not_mem hfirst, ih htail, List.append_assoc]
      · rfl
      · intro other hother
        rw [List.map_append, List.mem_append, not_or]
        refine ⟨hrest other hother, fun heq => hhead ?_⟩
        obtain rfl : other = name := List.mem_singleton.mp heq
        exact hother

/-- Where there is a property of that name its place is kept. -/
theorem put_map {names : List Text} (f : Text → α) {name : Text} (h : name ∈ names) (a : α) :
    put (names.map fun name => (name, f name)) name a =
      names.map fun other => (other, if other = name then a else f other) := by
  have hmem : name ∈ (names.map fun name => (name, f name)).map Prod.fst := by
    simpa using h
  rw [put, if_pos hmem, List.map_map]
  apply List.map_congr_left
  intro other _
  by_cases heq : other = name
  · subst heq
    simp
  · simp [heq]

end Objects

/-! ## One call -/

section Calls

variable {s : State N} {names : List Text}

/-- What holds along with `Agrees`: the table has an entry for each column and no others. -/
structure Tracks (s : State N) (names : List Text) : Prop extends Agrees s names where
  nodup : names.Nodup
  columns : s.columns.Perm (s.displayed.map fun column => (column.header, some column))
  undeclared : s.amountOfColumns = none

theorem Tracks.length (h : Tracks s names) : s.displayed.length = names.length := by
  rw [← h.displayed, List.length_map]

theorem Tracks.displayed_nodup (h : Tracks s names) : s.displayed.Nodup :=
  List.Nodup.of_map Column.header (h.displayed ▸ h.nodup)

/-- The properties of `private.columns` are the names. -/
theorem Tracks.keys (h : Tracks s names) : (s.columns.map Prod.fst).Perm names := by
  have hkeys := h.columns.map Prod.fst
  rwa [List.map_map, show (Prod.fst ∘ fun column : Column => (column.header, some column)) =
    Column.header from rfl, h.displayed] at hkeys

/-- A new column is displayed last already. -/
theorem addColumn_tracks (h : Tracks s names) {name : Text} (hname : name ∉ names) :
    (addColumn s name).error = none ∧ Tracks (addColumn s name).state (names ++ [name]) := by
  have hnew : (⟨s.created, name⟩ : Column) ∉ s.displayed := by
    intro hmem
    apply hname
    rw [← h.displayed]
    exact List.mem_map_of_mem hmem
  have hkey : name ∉ s.columns.map Prod.fst := fun hmem => hname (h.keys.mem_iff.mp hmem)
  have hindex : (s.displayed ++ [(⟨s.created, name⟩ : Column)]).idxOf ⟨s.created, name⟩ =
      s.displayed.length := by
    rw [List.idxOf_append_of_notMem hnew, List.idxOf_cons_self, Nat.add_zero]
  have hrange : (0 : Int) ≤ s.columnCount ∧
      s.columnCount < (s.displayed ++ [(⟨s.created, name⟩ : Column)]).length := by
    rw [h.columnCount, List.length_append, h.length, List.length_singleton]
    omega
  have hmove : move (s.displayed ++ [(⟨s.created, name⟩ : Column)]) s.displayed.length
      s.columnCount.toNat = s.displayed ++ [⟨s.created, name⟩] := by
    rw [h.columnCount, Int.toNat_natCast, ← h.length, move_self]
    rw [List.length_append, List.length_singleton]
    omega
  have hadd : addColumn s name = ⟨{ s with
      nativeColumns := s.nativeColumns ++ [⟨s.created, name⟩]
      displayed := s.displayed ++ [⟨s.created, name⟩]
      columns := s.columns ++ [(name, some ⟨s.created, name⟩)]
      created := s.created + 1
      columnCount := s.columnCount + 1 }, none⟩ := by
    simp only [addColumn, setDisplayIndex, if_pos hrange, hindex, hmove,
      put_of_not_mem hkey]
  rw [hadd]
  refine ⟨rfl, ⟨?_, ?_, ?_⟩, ?_, ?_, h.undeclared⟩
  · rw [List.map_append, h.displayed]
    rfl
  · exact h.native.append_right _
  · simp only [h.columnCount, List.length_append, List.length_singleton]
    omega
  · exact List.nodup_append.mpr ⟨h.nodup, List.nodup_singleton name, by
      intro a ha b hb hab
      obtain rfl := List.mem_singleton.mp hb
      exact hname (hab ▸ ha)⟩
  · rw [List.map_append]
    exact h.columns.append_right _

/-- The loop of `moveColumn` comes to the column with the index. -/
theorem moveAmong_eq {ndx : Nat} (toNdx : Nat) (hndx : ndx < s.displayed.length)
    (hnodup : s.displayed.Nodup) {entries : List (Text × Option Column)}
    (hentries : ∀ e ∈ entries, ∃ column ∈ s.displayed, e.2 = some column)
    (hmem : ∃ e ∈ entries, e.2 = some s.displayed[ndx]) :
    moveAmong s ndx toNdx entries = setDisplayIndex s s.displayed[ndx] toNdx := by
  induction entries with
  | nil =>
      obtain ⟨e, he, -⟩ := hmem
      cases he
  | cons e entries ih =>
      obtain ⟨⟨column, hcolumn, hsome⟩, hrest⟩ := List.forall_mem_cons.mp hentries
      obtain ⟨name, value⟩ := e
      obtain rfl : value = some column := hsome
      simp only [moveAmong]
      by_cases hfound : s.displayed.idxOf column = ndx
      · rw [if_pos hfound]
        subst hfound
        rw [List.getElem_idxOf]
      · rw [if_neg hfound]
        refine ih hrest ?_
        obtain ⟨e, he, hvalue⟩ := hmem
        rcases List.mem_cons.mp he with rfl | he
        · have hself := hnodup.idxOf_getElem ndx hndx
          rw [← Option.some.inj hvalue] at hself
          exact absurd hself hfound
        · exact ⟨e, he, hvalue⟩

/-- Moving a column moves its name. -/
theorem moveColumn_tracks (engine : ForIn) (h : Tracks s names) {ndx toNdx : Nat}
    (hndx : ndx < names.length) (htoNdx : toNdx < names.length) :
    (moveColumn engine s ndx toNdx).error = none ∧
      Tracks (moveColumn engine s ndx toNdx).state (move names ndx toNdx) := by
  by_cases hsame : ndx = toNdx
  · subst hsame
    rw [moveColumn, if_pos rfl, move_self hndx]
    exact ⟨rfl, h⟩
  · have hlt : ndx < s.displayed.length := h.length ▸ hndx
    have htoLt : toNdx < s.displayed.length := h.length ▸ htoNdx
    have hvisit := (engine.perm s.columns).trans h.columns
    have hentries : ∀ e ∈ engine.visit s.columns, ∃ column ∈ s.displayed, e.2 = some column := by
      intro e he
      obtain ⟨column, hcolumn, rfl⟩ := List.mem_map.mp (hvisit.mem_iff.mp he)
      exact ⟨column, hcolumn, rfl⟩
    have hmem : ∃ e ∈ engine.visit s.columns, e.2 = some s.displayed[ndx] :=
      ⟨_, hvisit.mem_iff.mpr (List.mem_map_of_mem (List.getElem_mem hlt)), rfl⟩
    have hmove : moveColumn engine s ndx toNdx =
        ⟨{ s with displayed := move s.displayed ndx toNdx }, none⟩ := by
      rw [moveColumn, if_neg hsame, moveAmong_eq toNdx hlt h.displayed_nodup hentries hmem,
        setDisplayIndex, if_pos (by omega), h.displayed_nodup.idxOf_getElem ndx hlt,
        Int.toNat_natCast]
    rw [hmove]
    have hperm := move_perm hlt htoLt
    refine ⟨rfl, ⟨?_, h.native.trans hperm.symm, ?_⟩, ?_, h.columns.trans (hperm.map _).symm,
      h.undeclared⟩
    · rw [map_move, h.displayed]
    · rw [length_move hndx htoNdx]
      exact h.columnCount
    · exact (move_perm hndx htoNdx).nodup_iff.mpr h.nodup

/-- The cells of properties that are labels but for the mark. -/
theorem labels_marked (names : List Text) :
    labels (names.map fun name =>
        (name, if name = expandoObject then Property.expando else .label [])) =
      (names.filter (· ≠ expandoObject)).map fun name => (name, []) := by
  induction names with
  | nil => rfl
  | cons name names ih =>
      by_cases h : name = expandoObject
      · rw [List.filter_cons_of_neg (by simp [h]), ← ih, List.map_cons, if_pos h]
        rfl
      · rw [List.filter_cons_of_pos (by simp [h]), List.map_cons, List.map_cons, if_neg h, ← ih]
        rfl

/-- The mark is put in place of the cell of that name, if there is one. -/
theorem labels_put_mark (names : List Text) :
    labels (put (names.map fun name => (name, Property.label [])) expandoObject .expando) =
      (names.filter (· ≠ expandoObject)).map fun name => (name, []) := by
  by_cases hmark : expandoObject ∈ names
  · rw [put_map _ hmark, labels_marked]
  · have hplain : (names.map fun name => (name, Property.label [])) =
        names.map fun name =>
          (name, if name = expandoObject then Property.expando else .label []) := by
      apply List.map_congr_left
      intro name hname
      have hne : name ≠ expandoObject := fun heq => hmark (heq ▸ hname)
      rw [if_neg hne]
    rw [put_of_not_mem (by simpa using hmark), labels, List.filterMap_append, hplain]
    exact (List.append_nil _).trans (labels_marked names)

/-- The cells of a new row: those of the columns with proper names. -/
theorem labels_itemsRow (engine : ForIn) (h : Tracks s names) :
    (labels (itemsRow engine s)).Perm
      ((names.filter fun name => name ≠ [] ∧ name ≠ expandoObject).map fun name => (name, [])) := by
  have hkeys := ((engine.perm s.columns).map Prod.fst).trans h.keys
  have hnodup := hkeys.nodup_iff.mpr h.nodup
  generalize hvisited : (engine.visit s.columns).map Prod.fst = visited at hkeys hnodup
  have hfold : (engine.visit s.columns).foldl
      (fun itemsRow entry => if entry.1 ≠ [] then put itemsRow entry.1 (.label []) else itemsRow)
        [] = (visited.filter (· ≠ [])).map fun name => (name, Property.label []) := by
    have hproper : (visited.filter (· ≠ [])).foldl
        (fun row name => put row name (Property.label [])) [] =
          [] ++ (visited.filter (· ≠ [])).map fun name => (name, Property.label []) :=
      foldl_put (fun _ => Property.label []) (hnodup.filter (· ≠ [])) (by simp)
    rw [List.nil_append] at hproper
    rw [← hproper, List.foldl_filter, ← hvisited, List.foldl_map]
    simp only [decide_eq_true_eq]
  have hlabels : labels (itemsRow engine s) =
      (visited.filter fun name => name ≠ [] ∧ name ≠ expandoObject).map fun name => (name, []) := by
    simp only [itemsRow, hfold]
    rw [labels_put_mark, List.filter_filter]
    congr 2
    funext name
    simp [and_comm]
  rw [hlabels]
  exact (hkeys.filter _).map _

/-- It has a cell for each column exactly when all names are proper. -/
theorem itemsRow_hasCells_iff (engine : ForIn) (h : Tracks s names) :
    HasCells (itemsRow engine s) names ↔ [] ∉ names ∧ expandoObject ∉ names := by
  have hlabels := labels_itemsRow engine h
  have hproper : (∀ name ∈ names, name ≠ [] ∧ name ≠ expandoObject) ↔
      [] ∉ names ∧ expandoObject ∉ names := by
    constructor
    · intro hall
      exact ⟨fun hmem => (hall _ hmem).1 rfl, fun hmem => (hall _ hmem).2 rfl⟩
    · intro hnot name hname
      exact ⟨fun heq => hnot.1 (heq ▸ hname), fun heq => hnot.2 (heq ▸ hname)⟩
  rw [← hproper, HasCells]
  constructor
  · intro hcells
    have hlength := (hlabels.symm.trans hcells).length_eq
    rw [List.length_map, List.length_map, List.length_filter_eq_length_iff] at hlength
    simpa using hlength
  · intro hall
    rwa [List.filter_eq_self.mpr (by simpa using hall)] at hlabels

theorem orNumberOfRows_le {ndx : Option Nat} {n : Nat} (h : ndx.getD n ≤ n) :
    orNumberOfRows ndx n ≤ n := by
  match ndx, h with
  | none, _ | some 0, _ => exact Nat.le_refl _
  | some (k + 1), h => exact h

/-- The names of a new row that has a cell for each column. -/
theorem mem_itemsRow (engine : ForIn) (h : Tracks s names) (hempty : [] ∉ names) {name : Text} :
    name ∈ (itemsRow engine s).map Prod.fst ↔ name ∈ expandoObject :: names := by
  have hfold : ∀ (entries : List (Text × Option Column)) (row : Row),
      name ∈ (entries.foldl (fun itemsRow entry =>
          if entry.1 ≠ [] then put itemsRow entry.1 (.label []) else itemsRow) row).map Prod.fst ↔
        (name ∈ entries.map Prod.fst ∧ name ≠ []) ∨ name ∈ row.map Prod.fst := by
    intro entries
    induction entries with
    | nil => simp
    | cons entry entries ih =>
        intro row
        rw [List.foldl_cons, ih, List.map_cons, List.mem_cons]
        split
        · next hne =>
          rw [mem_names_put]
          constructor
          · rintro (⟨hmem, hname⟩ | rfl | hmem)
            · exact .inl ⟨.inr hmem, hname⟩
            · exact .inl ⟨.inl rfl, hne⟩
            · exact .inr hmem
          · rintro (⟨rfl | hmem, hname⟩ | hmem)
            · exact .inr (.inl rfl)
            · exact .inl ⟨hmem, hname⟩
            · exact .inr (.inr hmem)
        · next hnil =>
          have hnil := not_not.mp hnil
          refine or_congr_left (and_congr_left fun hname => ?_)
          rw [hnil]
          exact (or_iff_right hname).symm
  have hvisit := (((engine.perm s.columns).map Prod.fst).trans h.keys).mem_iff (a := name)
  rw [itemsRow, mem_names_put, hfold, hvisit, List.mem_cons]
  simp only [List.map_nil, List.not_mem_nil, or_false]
  refine or_congr_right (and_iff_left_of_imp fun hmem heq => ?_)
  exact hempty (heq ▸ hmem)

/-- A row whose names are proper is added. -/
theorem addRow_tracks (engine : ForIn) (bridge : Bridge Property N) (h : Tracks s names)
    {ndx : Option Nat} (hndx : ndx.getD s.items.length ≤ s.items.length)
    (hproper : Proper bridge ((itemsRow engine s).map Prod.fst)) :
    addRow engine bridge s ndx = ⟨{ s with
        rows := assign s.rows (orNumberOfRows ndx s.items.length) (itemsRow engine s)
        items := s.items.insertIdx (orNumberOfRows ndx s.items.length)
          (.row (itemsRow engine s)) }, none⟩ ∧
      Tracks (addRow engine bridge s ndx).state names := by
  have hadd : addRow engine bridge s ndx = ⟨{ s with
      rows := assign s.rows (orNumberOfRows ndx s.items.length) (itemsRow engine s)
      items := s.items.insertIdx (orNumberOfRows ndx s.items.length)
        (.row (itemsRow engine s)) }, none⟩ := by
    have hmarshal : marshal bridge (unwrap (itemsRow engine s)) = some (.row (itemsRow engine s)) :=
      marshal_unwrap_iff.mpr hproper
    simp only [addRow, if_pos (orNumberOfRows_le hndx), hmarshal]
  refine ⟨hadd, ?_⟩
  rw [hadd]
  exact ⟨⟨h.displayed, h.native, h.columnCount⟩, h.nodup, h.columns, h.undeclared⟩

/-- Where a row is added as it should be it was marshalled as a row. -/
theorem proper_of_right {engine : ForIn} {bridge : Bridge Property N} {ndx : Option Nat}
    (hndx : ndx.getD s.items.length ≤ s.items.length)
    (hright : Right engine bridge (s, names) (.addRow ndx)) :
    Proper bridge ((itemsRow engine s).map Prod.fst) ∧ HasCells (itemsRow engine s) names := by
  obtain ⟨hreturns, -, hrow⟩ := hright
  obtain ⟨row, hcells, hitems⟩ := hrow ndx rfl
  have hrange := orNumberOfRows_le hndx
  simp only [call, addRow, if_pos hrange] at hreturns hitems
  cases hmarshal : marshal bridge (unwrap (itemsRow engine s)) with
  | none =>
      rw [hmarshal] at hreturns
      cases hreturns
  | some item =>
      rw [hmarshal] at hitems
      -- the item that was inserted is the one for the row
      have hsame := congrArg (·[orNumberOfRows ndx s.items.length]?) hitems
      simp only [List.getElem?_insertIdx_self, if_pos hrange, Option.some.injEq] at hsame
      subst hsame
      have hrow := row_of_marshal hmarshal
      subst hrow
      exact ⟨marshal_unwrap_iff.mp hmarshal, hcells⟩

/-- A row is added as it should be exactly when no column lacks its cell and the names are
proper. -/
theorem addRow_right_iff {engine : ForIn} {bridge : Bridge Property N} (h : Tracks s names)
    {ndx : Option Nat} (hndx : ndx.getD s.items.length ≤ s.items.length) :
    Right engine bridge (s, names) (.addRow ndx) ↔
      KeepsColumns bridge (s, names) (.addRow ndx) := by
  constructor
  · intro hright
    obtain ⟨hproper, hcells⟩ := proper_of_right hndx hright
    obtain ⟨hempty, hmark⟩ := (itemsRow_hasCells_iff engine h).mp hcells
    exact ⟨hempty, hmark, (proper_congr fun _ => mem_itemsRow engine h hempty).mp hproper⟩
  · rintro ⟨hempty, hmark, hproper⟩
    have hproper := (proper_congr fun _ => mem_itemsRow engine h hempty).mpr hproper
    obtain ⟨hadd, htracks⟩ := addRow_tracks engine bridge h hndx hproper
    refine ⟨by rw [call, hadd], htracks.toAgrees, fun ndx' heq => ?_⟩
    cases heq
    exact ⟨itemsRow engine s, (itemsRow_hasCells_iff engine h).mpr ⟨hempty, hmark⟩,
      by rw [call, hadd]⟩

/-- **One call.** -/
theorem right_iff_keepsColumns {engine : ForIn} {bridge : Bridge Property N}
    {p q : State N × List Text} {c : Call} (h : Tracks p.1 p.2)
    (hstep : step engine bridge p c = some q) :
    (Right engine bridge p c ↔ KeepsColumns bridge p c) ∧
      (KeepsColumns bridge p c → Tracks q.1 q.2) := by
  obtain ⟨s, names⟩ := p
  unfold step at hstep
  split at hstep
  · next hvalid =>
    obtain rfl := Option.some.inj hstep
    cases c with
    | addColumn name =>
        obtain ⟨hreturns, htracks⟩ := addColumn_tracks h hvalid.1
        refine ⟨iff_of_true ⟨hreturns, htracks.toAgrees, fun ndx hndx => ?_⟩ trivial,
          fun _ => htracks⟩
        cases hndx
    | removeColumn name =>
        have hthrows : removeColumn s name =
            ⟨s, some "ReferenceError: amountOfColumns is not defined"⟩ := by
          rw [removeColumn, h.undeclared]
        refine ⟨iff_of_false (fun hright => ?_) id, False.elim⟩
        have hreturns := hright.1
        rw [call, hthrows] at hreturns
        cases hreturns
    | moveColumn ndx toNdx =>
        obtain ⟨hreturns, htracks⟩ := moveColumn_tracks engine h hvalid.1 hvalid.2
        refine ⟨iff_of_true ⟨hreturns, htracks.toAgrees, fun ndx hndx => ?_⟩ trivial,
          fun _ => htracks⟩
        cases hndx
    | addRow ndx =>
        refine ⟨addRow_right_iff h hvalid, fun hkeeps => ?_⟩
        have hproper := (proper_congr fun _ => mem_itemsRow engine h hkeeps.1).mpr hkeeps.2.2
        exact (addRow_tracks engine bridge h hvalid hproper).2
  · cases hstep

/-! ## All calls -/

theorem start_tracks : Tracks (start : State N) [] :=
  ⟨⟨rfl, .nil, rfl⟩, .nil, .nil, rfl⟩

/-- **Columns.**  All valid calls of a sequence are right exactly when each of them meets the
condition. -/
theorem columns_agree_iff (engine : ForIn) (bridge : Bridge Property N) (calls : List Call) :
    Meets (step engine bridge) (Right engine bridge) (start, []) calls ↔
      Meets (step engine bridge) (KeepsColumns bridge) (start, []) calls :=
  meets_congr_of_kept (J := fun p => Tracks p.1 p.2)
    (fun _ _ _ h hok hstep => (right_iff_keepsColumns h hstep).2 hok)
    (fun _ _ _ h hstep => (right_iff_keepsColumns h hstep).1) start_tracks calls

/-- An engine that visits properties in the order they were made in. -/
def inOrder : ForIn := ⟨id, fun _ => .refl _⟩

/-- A native side that keeps all names. -/
def plainBridge : Bridge Property Nat := ⟨id, fun _ => none, []⟩

/-- **A column that cannot be removed.** -/
theorem removeColumn_throws :
    ¬ ∀ (engine : ForIn) (bridge : Bridge Property Nat) (calls : List Call),
      Meets (step engine bridge) (fun _ _ => True) (start, []) calls →
        Meets (step engine bridge) (Right engine bridge) (start, []) calls := by
  intro hall
  have hrun := hall inOrder plainBridge [.addColumn ['a'], .removeColumn ['a']] (by decide)
  have hreturns := hrun.2.1.1
  revert hreturns
  decide

end Calls

end TableColumns

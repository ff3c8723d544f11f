import Tint.ScriptSyntax
import Tint.Transition
import Mathlib.Data.List.Infix
import Mathlib.Data.List.Count

/-!
# The file types of FileDialog on Windows

`allowFileTypes` formats what it is given and keeps the entries; `allowAnyFileType` gives it those
entries once more.  Both mean to add or remove the entry of all files, and take the result of
`indexOf` for a truth value: it is `-1` for an entry that is not there, which is true.  So the
entry of all files is never added, and `splice(-1, 1)` removes the last of the others.

* `allfiles_not_mem` -- the entry of all files is never in the list;
* `filter_iff` -- after which assignments the filter is what was asked for: of no run after each
  of its assignments.
-/

namespace FileFilter

open ScriptSyntax (Text units)
open Transition

/-- The entry that allows any file. -/
def allfiles : Text := units "All Files (*.*) | *.*"

/-- The type that stands for directories. -/
def folder : Text := units "folder"

/-- What separates the entries of the filter. -/
def pipe : UInt16 := 0x7C

/-- The variables of the constructor, the filter of `$dialog`, and the list that was assigned
last. -/
structure State where
  allowedFileTypes : Option (List Text)
  allowAnyFileType : Bool
  canChooseDirectories : Bool
  filter : Text
  last : List Text
  deriving DecidableEq

/-- The assignments; a value of `allowAnyFileType` counts as true or false. -/
inductive Assignment
  | allowAnyFileType (val : Bool)
  | allowFileTypes (items : List Text)

/-- A new dialog. -/
def start : State := ⟨none, true, false, [], []⟩

/-! ## Arrays -/

/-- `indexOf` -/
def indexOf (list : List Text) (item : Text) : Int :=
  if item ∈ list then list.idxOf item else -1

/-- `splice(start, 1)`: a negative `start` counts from the end. -/
def splice (list : List Text) (start : Int) : List Text :=
  list.eraseIdx (if start < 0 then max (list.length + start) 0 else start).toNat

/-- `Filter` of a Win32 dialog refuses an odd number of parts, but for the empty text. -/
def validFilter (filter : Text) : Bool := filter == [] || filter.count pipe % 2 == 1

section Model

-- `toUpperCase`, and whether the dialog is one for saving
variable (upper : Text → Text) (save : Bool)

/-- The entry of one file type. -/
def format (item : Text) : Text :=
  upper item ++ units " Files (" ++ item ++ units ") |*." ++ item

/-- The entries of the items that are no `folder`. -/
def entries (items : List Text) : List Text :=
  (items.filter fun item => item ≠ folder).map (format upper)

/-- The setter of `allowFileTypes`; `none` where the dialog refuses the filter. -/
def setAllowFileTypes (s : State) (items : List Text) : Option State :=
  let canChooseDirectories := s.canChooseDirectories || (!save && items.contains folder)
  let allowedFileTypes :=
    if s.allowAnyFileType = true ∧ indexOf (entries upper items) allfiles = 0 then
      entries upper items ++ [allfiles]
    else entries upper items
  let t := { s with
    allowedFileTypes := some allowedFileTypes
    canChooseDirectories := canChooseDirectories }
  if canChooseDirectories then some t
  else if validFilter ([pipe].intercalate allowedFileTypes) then
    some { t with filter := [pipe].intercalate allowedFileTypes }
  else none

/-- The setter of `allowAnyFileType`; `none` where the assertion fails. -/
def setAllowAnyFileType (s : State) (val : Bool) : Option State :=
  if s.allowedFileTypes = none ∧ val = false then none
  else
    let allowedFileTypes := s.allowedFileTypes.getD []
    setAllowFileTypes upper save { s with allowAnyFileType := val }
      (if val = true ∧ indexOf allowedFileTypes allfiles = 0 then allowedFileTypes ++ [allfiles]
        else if val = false ∧ indexOf allowedFileTypes allfiles ≠ 0 then
          splice allowedFileTypes (indexOf allowedFileTypes allfiles)
        else allowedFileTypes)

/-- The getter of `allowFileTypes`. -/
def allowFileTypes (s : State) : List Text :=
  (s.allowedFileTypes.getD []).filter fun item => item = allfiles

/-- An assignment. -/
def step (s : State) : Assignment → Option State
  | .allowAnyFileType val => setAllowAnyFileType upper save s val
  | .allowFileTypes items =>
      (setAllowFileTypes upper save s items).map fun t => { t with last := items }

/-! ## The property and the condition -/

/-- **Right.**  The filter has the entries of the last list, and that of all files if these are
allowed, and the entries are read back. -/
def Right (s : State) : Prop :=
  s.filter = [pipe].intercalate
      (entries upper s.last ++ if s.allowAnyFileType then [allfiles] else []) ∧
    allowFileTypes s = entries upper s.last

/-- The assignment leads to a right state. -/
def Rightly (s : State) (a : Assignment) : Prop :=
  ∀ t, step upper save s a = some t → Right upper t

/-- **The condition.**  All files are not allowed any more, the last list has no entry, and no
filter of an earlier list is left in a dialog that chooses directories. -/
def Bare (s : State) : Assignment → Prop
  | .allowAnyFileType val =>
      val = false ∧ entries upper s.last = [] ∧ (s.canChooseDirectories = true → s.filter = [])
  | .allowFileTypes items =>
      s.allowAnyFileType = false ∧ entries upper items = [] ∧
        (s.canChooseDirectories = true ∨ save = false ∧ folder ∈ items → s.filter = [])

end Model

/-! ## The entry of all files -/

section Entries

variable {upper : Text → Text} {save : Bool}

/-- What is between a text and a pattern. -/
def mark : Text := units "|*"

theorem mark_infix_format (item : Text) : mark <:+: format upper item := by
  refine ⟨upper item ++ units " Files (" ++ item ++ units ") ", units "." ++ item, ?_⟩
  have hmiddle : units ") |*." = units ") " ++ mark ++ units "." := by decide
  simp only [format, hmiddle, List.append_assoc]

theorem mark_not_infix_allfiles : ¬ mark <:+: allfiles := by decide

theorem mark_infix_of_mem {items : List Text} {entry : Text} (h : entry ∈ entries upper items) :
    mark <:+: entry := by
  obtain ⟨item, -, rfl⟩ := List.mem_map.mp h
  exact mark_infix_format item

/-- **Never there.**  No formatted entry is that of all files. -/
theorem allfiles_not_mem (items : List Text) : allfiles ∉ entries upper items :=
  fun h => mark_not_infix_allfiles (mark_infix_of_mem h)

theorem indexOf_allfiles (items : List Text) : indexOf (entries upper items) allfiles = -1 :=
  if_neg (allfiles_not_mem items)

/-- An entry is part of the filter that it is joined into. -/
theorem infix_intercalate {entry : Text} {list : List Text} (h : entry ∈ list) :
    entry <:+: [pipe].intercalate list := by
  induction list with
  | nil => exact absurd h List.not_mem_nil
  | cons first rest ih =>
      by_cases hrest : rest = []
      · subst hrest
        rw [List.mem_singleton.mp h, List.intercalate_singleton]
      · rw [List.intercalate_cons_of_ne_nil hrest]
        rcases List.mem_cons.mp h with hfirst | hmem
        · rw [hfirst, List.append_assoc]
          exact (List.prefix_append first _).isInfix
        · exact (ih hmem).trans (List.suffix_append _ _).isInfix

theorem mark_infix_intercalate {items : List Text} (h : entries upper items ≠ []) :
    mark <:+: [pipe].intercalate (entries upper items) := by
  obtain ⟨entry, hentry⟩ := List.exists_mem_of_ne_nil _ h
  exact (mark_infix_of_mem hentry).trans (infix_intercalate hentry)

end Entries

/-! ## One assignment -/

section Assign

variable {upper : Text → Text} {save : Bool} {s t : State} {items : List Text}

/-- What the setter of `allowFileTypes` does where it does not throw. -/
structure Assigned (upper : Text → Text) (save : Bool) (s : State) (items : List Text)
    (t : State) : Prop where
  allowed : t.allowedFileTypes = some (entries upper items)
  any : t.allowAnyFileType = s.allowAnyFileType
  last : t.last = s.last
  filter : t.filter =
    if s.canChooseDirectories = true ∨ save = false ∧ folder ∈ items then s.filter
    else [pipe].intercalate (entries upper items)

/-- What an assignment of file types leaves. -/
theorem assigned_of_set (h : setAllowFileTypes upper save s items = some t) :
    Assigned upper save s items t := by
  have hnot : ¬ (s.allowAnyFileType = true ∧ indexOf (entries upper items) allfiles = 0) := by
    rw [indexOf_allfiles]
    exact fun hzero => absurd hzero.2 (by decide)
  have hdirectories : (s.canChooseDirectories || (!save && items.contains folder)) = true ↔
      (s.canChooseDirectories = true ∨ save = false ∧ folder ∈ items) := by
    simp only [Bool.or_eq_true, Bool.and_eq_true, Bool.not_eq_true', List.contains_iff_mem]
  simp only [setAllowFileTypes, if_neg hnot, hdirectories] at h
  by_cases hchoose : s.canChooseDirectories = true ∨ save = false ∧ folder ∈ items
  · rw [if_pos hchoose] at h
    obtain rfl := Option.some.inj h
    exact ⟨rfl, rfl, rfl, (if_pos hchoose).symm⟩
  · rw [if_neg hchoose] at h
    obtain ⟨-, h⟩ := Option.ite_none_right_eq_some.mp h
    obtain rfl := Option.some.inj h
    exact ⟨rfl, rfl, rfl, (if_neg hchoose).symm⟩

/-- The list has formatted entries only, none if the last one had none, and so has the filter. -/
structure Kept (upper : Text → Text) (s : State) : Prop where
  allowed : allfiles ∉ s.allowedFileTypes.getD []
  bare : entries upper s.last = [] → s.allowedFileTypes.getD [] = []
  filter : s.filter = [] ∨ mark <:+: s.filter

theorem kept_start : Kept upper start :=
  ⟨List.not_mem_nil, fun _ => rfl, .inl rfl⟩

/-- The setter of `allowAnyFileType` assigns the list, or the list without its last entry. -/
theorem assigned_of_setAny {val : Bool}
    (hset : setAllowAnyFileType upper save s val = some t) :
    ∃ items, Assigned upper save { s with allowAnyFileType := val } items t ∧
      (s.allowedFileTypes.getD [] = [] → items = []) := by
  obtain ⟨-, hset⟩ := Option.ite_none_left_eq_some.mp hset
  refine ⟨_, assigned_of_set hset, fun hnil => ?_⟩
  rw [hnil]
  cases val <;> rfl

/-- After an assignment the filter is empty or has the mark in it. -/
theorem filter_of_assigned (h : s.filter = [] ∨ mark <:+: s.filter)
    (ht : t.filter = if s.canChooseDirectories = true ∨ save = false ∧ folder ∈ items then s.filter
      else [pipe].intercalate (entries upper items)) :
    t.filter = [] ∨ mark <:+: t.filter := by
  rw [ht]
  by_cases hchoose : s.canChooseDirectories = true ∨ save = false ∧ folder ∈ items
  · rw [if_pos hchoose]
    exact h
  · rw [if_neg hchoose]
    by_cases hnil : entries upper items = []
    · rw [hnil]
      exact .inl rfl
    · exact .inr (mark_infix_intercalate hnil)

/-- An assignment keeps the invariant. -/
theorem kept_step (h : Kept upper s) {a : Assignment} (hstep : step upper save s a = some t) :
    Kept upper t := by
  cases a with
  | allowAnyFileType val =>
      obtain ⟨items, ht, hitems⟩ := assigned_of_setAny hstep
      refine ⟨?_, fun hnil => ?_, filter_of_assigned h.filter ht.filter⟩
      · rw [ht.allowed]
        exact allfiles_not_mem items
      · rw [ht.last] at hnil
        rw [ht.allowed, hitems (h.bare hnil)]
        rfl
  | allowFileTypes items =>
      obtain ⟨u, hu, rfl⟩ := Option.map_eq_some_iff.mp hstep
      have hassigned := assigned_of_set hu
      refine ⟨?_, fun hnil => ?_, filter_of_assigned h.filter hassigned.filter⟩
      · rw [hassigned.allowed]
        exact allfiles_not_mem items
      · rw [hassigned.allowed]
        exact hnil

theorem kept_of_run {as : List Assignment} (hrun : run (step upper save) start as = some s) :
    Kept upper s :=
  (reaches_of_run_any as hrun).invariant (Kept upper) kept_start
    fun _ _ _ h _ hstep => kept_step h hstep

/-- A state is right if it is to show no types and shows none. -/
theorem right_iff (h : Kept upper t) :
    Right upper t ↔ t.allowAnyFileType = false ∧ entries upper t.last = [] ∧ t.filter = [] := by
  have hread : allowFileTypes t = [] := by
    rw [allowFileTypes, List.filter_eq_nil_iff]
    intro item hitem heq
    rw [of_decide_eq_true heq] at hitem
    exact h.allowed hitem
  rw [Right, hread]
  constructor
  · intro hright
    obtain ⟨hfilter, hentries⟩ := hright
    rw [← hentries, List.nil_append] at hfilter
    have hany : t.allowAnyFileType = false := by
      by_contra hany
      rw [Bool.not_eq_false] at hany
      rw [if_pos hany, List.intercalate_singleton] at hfilter
      rcases h.filter with hnil | hmark
      · exact absurd (hnil.symm.trans hfilter) (by decide)
      · exact mark_not_infix_allfiles (hfilter ▸ hmark)
    rw [hany] at hfilter
    exact ⟨hany, hentries.symm, hfilter⟩
  · intro hbare
    obtain ⟨hany, hentries, hfilter⟩ := hbare
    rw [hany, hentries, hfilter]
    exact ⟨rfl, rfl⟩

/-- The filter after entries that are none. -/
theorem filter_nil_iff
    (ht : t.filter = if s.canChooseDirectories = true ∨ save = false ∧ folder ∈ items then s.filter
      else [pipe].intercalate (entries upper items))
    (hnil : entries upper items = []) :
    t.filter = [] ↔
      (s.canChooseDirectories = true ∨ save = false ∧ folder ∈ items → s.filter = []) := by
  rw [ht, hnil]
  by_cases hchoose : s.canChooseDirectories = true ∨ save = false ∧ folder ∈ items
  · rw [if_pos hchoose]
    exact ⟨fun hfilter _ => hfilter, fun hfilter => hfilter hchoose⟩
  · rw [if_neg hchoose]
    exact iff_of_true rfl fun h => absurd h hchoose

/-- **One assignment.** -/
theorem right_step_iff (h : Kept upper s) {a : Assignment}
    (hstep : step upper save s a = some t) : Right upper t ↔ Bare upper save s a := by
  rw [right_iff (kept_step h hstep)]
  cases a with
  | allowAnyFileType val =>
      obtain ⟨items, ht, hitems⟩ := assigned_of_setAny hstep
      have hany : t.allowAnyFileType = val := ht.any
      have hlast : t.last = s.last := ht.last
      rw [hany, hlast, Bare]
      refine and_congr_right fun _ => and_congr_right fun hnil => ?_
      have hnone : items = [] := hitems (h.bare hnil)
      subst hnone
      rw [filter_nil_iff ht.filter rfl]
      simp only [List.not_mem_nil, and_false, or_false]
  | allowFileTypes items =>
      obtain ⟨u, hu, rfl⟩ := Option.map_eq_some_iff.mp hstep
      have hassigned := assigned_of_set hu
      have hany : u.allowAnyFileType = s.allowAnyFileType := hassigned.any
      rw [hany, Bare]
      exact and_congr_right fun _ => and_congr_right fun hnil =>
        filter_nil_iff hassigned.filter hnil

/-- **Filter.**  After an assignment the filter and the list are what was asked for exactly when
all files are not allowed any more, the last list has no entry, and no filter of an earlier list
is left.  So after the first assignment they never are. -/
theorem filter_iff (upper : Text → Text) (save : Bool) (as : List Assignment) :
    (∀ a s t, run (step upper save) start as = some s → step upper save s a = some t →
      (Right upper t ↔ Bare upper save s a)) ∧
    (Meets (step upper save) (Rightly upper save) start as ↔ as = []) := by
  refine ⟨fun a s t hrun hstep => right_step_iff (kept_of_run hrun) hstep, ?_⟩
  cases as with
  | nil => exact iff_of_true trivial rfl
  | cons a as =>
      refine iff_of_false (fun hmeets => ?_) (List.cons_ne_nil a as)
      cases hstep : step upper save start a with
      | none => simp only [Meets, hstep] at hmeets
      | some t =>
          simp only [Meets, hstep] at hmeets
          have hbare := (right_step_iff kept_start hstep).mp (hmeets.1 t hstep)
          cases a with
          | allowAnyFileType val =>
              -- the assertion refuses this one at the start
              obtain ⟨hval, -⟩ := hbare
              subst hval
              exact Option.some_ne_none t hstep.symm
          | allowFileTypes items => exact absurd hbare.1 (by decide)

end Assign

/-- The filter of a list of one has no entry of all files. -/
theorem filter_without_allfiles :
    ¬ ∀ (as : List Assignment) (s : State),
      run (step id false) start as = some s → Right id s := by
  intro h
  have hright := h [.allowFileTypes [units "PNG"]]
    ⟨some [format id (units "PNG")], true, false, format id (units "PNG"), [units "PNG"]⟩
    (by decide)
  have hread : [] = [format id (units "PNG")] := hright.2
  exact absurd hread (by decide)

end FileFilter

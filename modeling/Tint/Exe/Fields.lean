import Tint.Exe.Version

/-!
# The strings of an executable

The tree holds the position of the value of each version string.  The value was
read from there, so it lies inside the file, with its terminator
(`strings_within`).
-/

namespace ExeFile

open FileReader
open VersionInfo (Units)

/-- The strings below a `VarFileInfo` or a `StringFileInfo`. -/
def InfoChildren.strings : InfoChildren → List StringObj
  | .vars _ => []
  | .tables children => children.flatMap StringTableObj.children

/-- All strings of a version resource. -/
def VersionObj.strings (version : VersionObj) : List StringObj :=
  version.children.flatMap fun info => info.children.strings

/-- The strings of a data entry, if it is a version resource. -/
def DataObj.strings (data : DataObj) : List StringObj :=
  match data.versionInfo with
  | none => []
  | some version => version.strings

/-- The tree has this leaf. -/
inductive Entry.Holds : Entry → DataObj → Prop
  | data (name offsetToData : Nat) (data : DataObj) :
      Entry.Holds (.data name offsetToData data) data
  | directory {entries : List Entry} {entry : Entry} {data : DataObj} (name offsetToData : Nat)
      (hmem : entry ∈ entries) (hentry : Entry.Holds entry data) :
      Entry.Holds (.directory name offsetToData entries) data

/-- The value of the string lies in the file, with its terminator. -/
def ValueWithin (c : List UInt8) (s : StringObj) : Prop :=
  Within c s.valuePosition (2 * s.value.length + 2)

section Version

variable {c : List UInt8}

/-- A string lies within the bytes that it was read from. -/
theorem yields_StringRead : Yields c StringRead (ValueWithin c) := by
  intro p s q h
  simp only [StringRead, gives_WORD_bind, gives_text_bind, gives_padding_bind, gives_position_bind,
    gives_pure] at h
  obtain ⟨-, -, -, k, -, v, -, j, hj, hs, -⟩ := h
  obtain rfl := Except.ok.inj hs
  have hlength : (textAt c v j).length = j := by rw [textAt, List.length_map, List.length_range]
  unfold ValueWithin
  rw [hlength]
  exact hj.2.2

/-- What holds of every child holds of all the children that were read. -/
theorem yields_readChildren {α : Type} {stop length : Int} {m : Read α} {wLength : α → Nat}
    {P : α → Prop} (h : Yields c m P) :
    Yields c (readChildren stop m wLength length) fun xs => ∀ x ∈ xs, P x := by
  refine Yields.bind (P := fun vars : Int × List α => ∀ x ∈ vars.2, P x)
    (yields_loop (by simp) fun vars hvars => ?_) fun vars hvars => yields_pure hvars
  refine h.bind fun x hx => yields_after fun _ => yields_pure fun y hy => ?_
  rcases List.mem_append.mp hy with hold | hnew
  · exact hvars y hold
  · exact List.mem_singleton.mp hnew ▸ hx

/-- The strings of a table lie within what was read. -/
theorem yields_StringTableRead :
    Yields c StringTableRead fun table => ∀ s ∈ table.children, ValueWithin c s := by
  unfold StringTableRead
  refine yields_after fun _ => yields_after fun _ => yields_after fun _ => yields_after fun _ =>
    yields_after fun _ => yields_after fun _ => yields_after fun _ => yields_after fun _ => ?_
  exact (yields_readChildren yields_StringRead).bind fun children h => yields_pure h

/-- So do those of an information block, whatever its key. -/
theorem yields_InfoChildrenRead {wLength : Nat} {key : Units} {paddingSize : Int} :
    Yields c (InfoChildrenRead wLength key paddingSize) fun children =>
      ∀ s ∈ children.strings, ValueWithin c s := by
  unfold InfoChildrenRead
  split
  · exact yields_after fun _ => yields_pure fun s hs => by cases hs
  · split
    · refine (yields_readChildren yields_StringTableRead).bind fun children h => yields_pure ?_
      intro s hs
      obtain ⟨table, htable, hs⟩ := List.mem_flatMap.mp hs
      exact h table htable s hs
    · exact yields_throw

/-- The same of the block itself. -/
theorem yields_VarFileOrStringFileInfoRead :
    Yields c VarFileOrStringFileInfoRead fun info =>
      ∀ s ∈ info.children.strings, ValueWithin c s := by
  unfold VarFileOrStringFileInfoRead
  refine yields_after fun _ => yields_after fun _ => yields_after fun _ => yields_after fun _ =>
    yields_after fun _ => yields_after fun _ => ?_
  refine yields_InfoChildrenRead.bind fun children h => yields_pure ?_
  exact h

/-- The same of a version resource. -/
theorem yields_ResourceDataVersionRead :
    Yields c ResourceDataVersionRead fun version => ∀ s ∈ version.strings, ValueWithin c s := by
  unfold ResourceDataVersionRead
  refine yields_after fun _ => yields_after fun _ => yields_after fun _ => yields_after fun _ =>
    yields_after fun _ => yields_after fun _ => yields_after fun _ => yields_after fun _ =>
    yields_after fun _ => ?_
  refine (yields_readChildren yields_VarFileOrStringFileInfoRead).bind fun children h =>
    yields_after fun _ => yields_pure fun s hs => ?_
  obtain ⟨info, hinfo, hs⟩ := List.mem_flatMap.mp hs
  exact h info hinfo s hs

end Version

section Tree

variable {c : List UInt8}

/-- The same of a resource of any type. -/
theorem yields_ResourceRead {obj : DataObj} (hobj : obj.versionInfo = none) (type : Option Nat) :
    Yields c (ResourceRead obj type) fun data => ∀ s ∈ data.strings, ValueWithin c s := by
  have hnone : ∀ data : DataObj, data.versionInfo = none → ∀ s ∈ data.strings, ValueWithin c s := by
    intro data hdata s hs
    simp [DataObj.strings, hdata] at hs
  cases type with
  | none => exact yields_throw
  | some type =>
    simp only [ResourceRead]
    split
    · refine yields_after fun icon => yields_pure ?_
      exact hnone { obj with icon := some icon } hobj
    · split
      · refine yields_after fun groupIcon => yields_pure ?_
        exact hnone { obj with groupIcon := some groupIcon } hobj
      · split
        · refine yields_ResourceDataVersionRead.bind fun version h => yields_pure ?_
          exact h
        · exact yields_pure (hnone obj hobj)

/-- The same of a data entry. -/
theorem yields_ResourceDataRead (sections : List SectionHeader) (names : List Nat) :
    Yields c (ResourceDataRead sections names) fun data => ∀ s ∈ data.strings, ValueWithin c s := by
  have htry : ∀ obj : DataObj, obj.versionInfo = none →
      Yields c (ResourceDataTry names obj) fun data => ∀ s ∈ data.strings, ValueWithin c s := by
    intro obj hobj
    unfold ResourceDataTry
    split
    · exact yields_throw
    · exact yields_after fun _ => yields_after fun _ =>
        (yields_ResourceRead hobj _).bind fun data h => yields_after fun _ => yields_pure h
  unfold ResourceDataRead
  refine yields_after fun _ => yields_after fun _ => yields_after fun _ => yields_after fun _ => ?_
  refine (htry _ rfl).attempt.bind fun result h => ?_
  cases result with
  | ok data => exact yields_pure (h data rfl)
  | error e => exact yields_pure fun s hs => by cases hs

/-- The strings of the leaves of a tree lie in the file. -/
theorem yields_ResourceDirectoryRead (sections : List SectionHeader) (resourcePosition : Int)
    (stack : Nat) : ∀ names : List Nat,
      Yields c (ResourceDirectoryRead sections resourcePosition stack names) fun entries =>
        ∀ entry ∈ entries, ∀ data, entry.Holds data → ∀ s ∈ data.strings, ValueWithin c s := by
  induction stack with
  | zero => exact fun _ => yields_throw
  | succ stack ih =>
    intro names
    refine yields_after fun _ => yields_after fun _ => yields_after fun _ => yields_after fun _ =>
      yields_after fun _ => yields_after fun _ => yields_after fun _ => ?_
    refine (Yields.times ?_ _).bind fun entries h => yields_after fun _ => yields_pure h
    refine yields_after fun name => yields_after fun offsetToData => yields_after fun _ =>
      yields_after fun _ => ?_
    have hentry : ∀ entry savePosition,
        (∀ data, entry.Holds data → ∀ s ∈ data.strings, ValueWithin c s) →
        Yields c (seek savePosition >>= fun _ => (pure entry : Read Entry)) fun entry =>
          ∀ data, entry.Holds data → ∀ s ∈ data.strings, ValueWithin c s :=
      fun entry _ h => yields_after fun _ => yields_pure h
    split
    · refine (ih _).bind fun entries h => hentry _ _ fun data hdata => ?_
      cases hdata with
      | directory _ _ hmem hentry => exact h _ hmem _ hentry
    · refine (yields_ResourceDataRead sections _).bind fun data h =>
        hentry _ _ fun data' hdata => ?_
      cases hdata
      exact h

/-- **The strings of a file** that was read lie in the file. -/
theorem strings_within (stack : Nat) :
    Yields c (WindowsExeRead stack) fun entries =>
      ∀ entry ∈ entries, ∀ data, entry.Holds data → ∀ s ∈ data.strings, ValueWithin c s := by
  unfold WindowsExeRead
  exact yields_after fun _ => yields_after fun _ => yields_after fun _ => yields_after fun _ =>
    yields_after fun _ => yields_after fun _ => yields_after fun _ =>
      yields_ResourceDirectoryRead _ _ _ _

end Tree

end ExeFile

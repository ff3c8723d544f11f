import Tint.Exe.Version

/-!
# Reading an executable inside the file

The resource tree and the headers, and with them the whole reading: it ends and
stays inside the file exactly when all the file leads to is inside.

* `directory_reads` -- directories, by induction on the stack: cycles end with
  a `RangeError`;
* `endsInside_WindowsExeRead` -- the file;
* `WindowsExeRead_ends_iff` -- with every content of the buffers.
-/

namespace ExeFile

open FileReader
open VersionInfo (readUIntLE)

/-! ## Icons and data -/

section Resources

variable {c : List UInt8} {p q : Int}

/-- A signed number is a block of four bytes. -/
theorem block_LONG : Block c LONG 4 (longAt c) := block_read.map

/-- An icon header is a block of 40 bytes; its pixels are behind it. -/
theorem block_ResourceDataIconRead :
    ∃ value, Block c ResourceDataIconRead 40 value ∧
      ∀ p, (value p).biWidth = longAt c (p + 4) ∧ (value p).position = p + 40 := by
  refine ⟨_, .congr (.bind (block_UINT 4) fun _ =>
    .bind block_LONG fun _ => .bind block_LONG fun _ =>
    .bind (block_UINT 2) fun _ => .bind (block_UINT 2) fun _ => .bind (block_UINT 4) fun _ =>
    .bind (block_UINT 4) fun _ => .bind block_LONG fun _ => .bind block_LONG fun _ =>
    .bind (block_UINT 4) fun _ => .position (block_UINT 4)) (fun _ => rfl) rfl, fun p => ⟨rfl, ?_⟩⟩
  simp only [Int.add_assoc]
  rfl

/-- An entry of an icon group is a block of 14 bytes. -/
theorem block_GroupIconEntryRead : ∃ value, Block c GroupIconEntryRead 14 value :=
  ⟨_, .congr (.bind (block_UINT 1) fun _ =>
    .bind (block_UINT 1) fun _ => .bind (block_UINT 1) fun _ =>
    .bind (block_UINT 1) fun _ => .bind (block_UINT 2) fun _ => .bind (block_UINT 2) fun _ =>
    .bind (block_UINT 4) fun _ => .map (block_UINT 2)) (fun _ => rfl) rfl⟩

/-- A group of icons stays inside with its header and all its entries. -/
theorem endsInside_ResourceDataGroupIconRead :
    EndsInside c ResourceDataGroupIconRead p ↔
      Within c p 6 ∧ Within c p (6 + 14 * wordAt c (p + 4)) := by
  obtain ⟨value, hentry⟩ := block_GroupIconEntryRead (c := c)
  simp only [ResourceDataGroupIconRead, endsInside_WORD_bind, endsInside_bind (m := times _ _),
    endsInside_pure, implies_true, and_true, after_two_words, after_three_words, within_three_words]
  refine and_congr_right fun h6 => ?_
  have hstart : Within c (p + 6) 0 := h6.zero
  rw [hentry.endsInside_times hstart, Nat.mul_comm]
  exact ⟨fun h => within_append.mp ⟨h6, h⟩, fun h => (within_append.mpr h).2⟩

/-- A resource stays inside if it does as what its type says. -/
theorem endsInside_ResourceRead {obj : DataObj} {type : Option Nat} :
    EndsInside c (ResourceRead obj type) p ↔ ∀ t, type = some t → ResourceInside c p t := by
  cases type with
  | none => exact iff_of_true endsInside_throw fun t ht => by cases ht
  | some t =>
    obtain ⟨value, hicon, -⟩ := block_ResourceDataIconRead (c := c)
    simp only [Option.some.injEq, forall_eq', ResourceRead, ResourceInside]
    split
    · next ht =>
      subst ht
      simp [endsInside_bind, hicon.endsInside, RT_ICON, RT_GROUP_ICON, RT_VERSION]
    · next hicon =>
      split
      · next ht =>
        subst ht
        simp [endsInside_bind, endsInside_ResourceDataGroupIconRead, RT_ICON, RT_GROUP_ICON,
          RT_VERSION]
      · next hgroup =>
        split
        · next ht =>
          subst ht
          simp [endsInside_bind, endsInside_ResourceDataVersionRead, RT_ICON, RT_GROUP_ICON,
            RT_VERSION]
        · next hversion => simp [hicon, hgroup, hversion]

/-- The data of a resource is read where its address leads, if its type is known. -/
theorem endsInside_ResourceDataTry {names : List Nat} {obj : DataObj} :
    EndsInside c (ResourceDataTry names obj) p ↔ ∀ index type, names[2]? = some index →
      resourceType (some index) = some type → ResourceInside c obj.physicalAddress type := by
  match names with
  | [] => exact iff_of_true endsInside_throw fun _ _ h => by cases h
  | [_] => exact iff_of_true endsInside_throw fun _ _ h => by cases h
  | [_, _] =>
    simp [ResourceDataTry, typeName, endsInside_bind (m := ResourceRead _ _),
      endsInside_ResourceRead, resourceType]
  | _ :: _ :: index :: _ =>
    simp only [ResourceDataTry, typeName, endsInside_position_bind, endsInside_seek_bind,
      endsInside_bind (m := ResourceRead _ _), endsInside_ResourceRead, endsInside_pure,
      implies_true, and_true]
    exact ⟨fun h _ type hindex htype => h type (Option.some.inj hindex ▸ htype),
      fun h type htype => h index type rfl htype⟩

/-- The position behind two double words. -/
theorem after_two_dwords (p : Int) : p + 4 + 4 = p + 8 := by omega

/-- The position behind three double words. -/
theorem after_three_dwords (p : Int) : p + 8 + 4 = p + 12 := by omega

/-- When the data entry of a resource stays inside. -/
theorem endsInside_ResourceDataRead {sections : List SectionHeader} {names : List Nat} :
    EndsInside c (ResourceDataRead sections names) p ↔ DataInside c sections names p := by
  simp only [ResourceDataRead, endsInside_ULONG_bind, endsInside_bind (m := attempt _),
    endsInside_attempt, endsInside_ResourceDataTry, after_two_dwords, after_three_dwords,
    within_four_dwords, DataInside]
  refine and_congr_right fun _ => and_iff_left fun result q _ => ?_
  cases result <;> exact endsInside_pure

/-- Whatever happens in the `try` block, the data is read. -/
theorem gives_ResourceDataRead {sections : List SectionHeader} {names : List Nat}
    {r : Except String DataObj} (h : Gives c (ResourceDataRead sections names) p r q) :
    ∃ data, r = .ok data := by
  simp only [ResourceDataRead, gives_ULONG_bind, gives_bind (m := attempt _), gives_attempt] at h
  obtain ⟨-, -, -, -, ⟨result, q', -, hrest⟩ | ⟨e, ⟨r', -, he⟩, -⟩⟩ := h
  · cases result with
    | ok obj => exact ⟨obj, (gives_pure.mp hrest).1⟩
    | error e => exact ⟨_, (gives_pure.mp hrest).1⟩
  · cases he

/-! ## Directories -/

/-- Things done in order up to one that stops: for those that go well, going on
can be told in another way. -/
theorem until_stop {n : Nat} {inside goesOn goesOn' : Nat → Prop}
    (hiff : ∀ i, i < n → inside i → (goesOn i ↔ goesOn' i)) :
    ((∀ i, i < n → (∀ j, j < i → inside j ∧ goesOn j) → inside i) ↔
      ∀ i, i < n → (∀ j, j < i → goesOn' j) → inside i) ∧
    ((∀ i, i < n → (∀ j, j < i → goesOn' j) → inside i) →
      ((∀ i, i < n → inside i ∧ goesOn i) ↔ ∀ i, i < n → goesOn' i)) := by
  have hall : (∀ i, i < n → (∀ j, j < i → goesOn' j) → inside i) →
      ∀ i, i ≤ n → (∀ j, j < i → goesOn' j) → ∀ j, j < i → inside j ∧ goesOn j := by
    intro hinside i hi hgoes j hj
    have hj' := hinside j (by omega) fun j' hj' => hgoes j' (by omega)
    exact ⟨hj', (hiff j (by omega) hj').mpr (hgoes j hj)⟩
  refine ⟨⟨fun h i => ?_, fun h i hi hbefore => ?_⟩, fun h =>
    ⟨fun hboth i hi => ?_, fun hgoes i hi => ?_⟩⟩
  · induction i using Nat.strongRecOn with
    | ind i ih =>
      intro hi hgoes
      refine h i hi fun j hj => ?_
      have hj' := ih j hj (by omega) fun j' hj' => hgoes j' (by omega)
      exact ⟨hj', (hiff j (by omega) hj').mpr (hgoes j hj)⟩
  · exact h i hi fun j hj => (hiff j (by omega) (hbefore j hj).1).mp (hbefore j hj).2
  · exact (hiff i hi (hboth i hi).1).mp (hboth i hi).2
  · exact hall h n (Nat.le_refl n) hgoes i hi

variable {sections : List SectionHeader} {resourcePosition : Int}

/-- When an entry of a directory stays inside, down into what it points to. -/
theorem endsInside_ResourceEntryRead {directoryRead : List Nat → Read (List Entry)}
    {names : List Nat} :
    EndsInside c (ResourceEntryRead sections resourcePosition directoryRead names) p ↔
      EntryInside c sections resourcePosition (fun names p => EndsInside c (directoryRead names) p)
        names p := by
  simp only [ResourceEntryRead, endsInside_ULONG_bind, endsInside_position_bind,
    endsInside_seek_bind, FileReader.pure_bind, EntryInside, target]
  rw [within_two_dwords]
  refine and_congr_right fun _ => ?_
  cases HIGHBIT (dwordAt c (p + 4)) with
  | true => simp [endsInside_bind (m := directoryRead _)]
  | false => simp [endsInside_bind (m := ResourceDataRead _ _), endsInside_ResourceDataRead]

/-- An entry is read to its end, and a directory entry only if its directory is. -/
theorem gives_ResourceEntryRead {directoryRead : List Nat → Read (List Entry)} {names : List Nat} :
    (∃ entry, Gives c (ResourceEntryRead sections resourcePosition directoryRead names) p
      (.ok entry) q) ↔
      q = p + 8 ∧ EntryInside c sections resourcePosition
        (fun names p => EndsInside c (directoryRead names) p) names p ∧
        EntryShallow c resourcePosition
          (fun p' => ∃ entries q',
            Gives c (directoryRead (dwordAt c p :: names)) p' (.ok entries) q') p := by
  simp only [EntryInside, EntryShallow, ResourceEntryRead, gives_ULONG_bind, gives_position_bind,
    gives_seek_bind, FileReader.pure_bind, target, after_two_dwords, within_two_dwords]
  cases hbit : HIGHBIT (dwordAt c (p + 4)) with
  | true =>
    simp only [if_true, gives_bind_ok (m := directoryRead _), gives_seek_bind, gives_pure,
      forall_const, Bool.true_eq_false, false_implies, and_true]
    constructor
    · rintro ⟨entry, h8, entries, q', hentries, -, rfl⟩
      exact ⟨rfl, ⟨h8, hentries.endsInside⟩, entries, q', hentries⟩
    · rintro ⟨rfl, ⟨h8, -⟩, entries, q', hentries⟩
      exact ⟨_, h8, entries, q', hentries, rfl, rfl⟩
  | false =>
    simp only [Bool.false_eq_true, if_false, gives_bind_ok (m := ResourceDataRead _ _),
      gives_seek_bind, gives_pure, forall_const, false_implies, true_and, and_true]
    constructor
    · rintro ⟨entry, h8, data, q', hdata, -, rfl⟩
      exact ⟨rfl, h8, endsInside_ResourceDataRead.mp hdata.endsInside⟩
    · rintro ⟨rfl, h8, hdata⟩
      obtain ⟨r, q', hgives⟩ := endsInside_iff.mp (endsInside_ResourceDataRead.mpr hdata)
      obtain ⟨data, rfl⟩ := gives_ResourceDataRead hgives
      exact ⟨_, h8, data, q', hgives, rfl, rfl⟩

/-- Whatever an entry points to, the reader comes back behind it. -/
theorem returns_ResourceEntryRead {directoryRead : List Nat → Read (List Entry)}
    {names : List Nat} :
    Returns c (ResourceEntryRead sections resourcePosition directoryRead names) 8 :=
  fun _ entry _ h => (gives_ResourceEntryRead.mp ⟨entry, h⟩).1

/-- An entry is read exactly if it stays inside and the stack suffices for it. -/
theorem entry_reads {directoryRead : List Nat → Read (List Entry)} {names : List Nat} :
    (∃ entry q, Gives c (ResourceEntryRead sections resourcePosition directoryRead names) p
      (.ok entry) q) ↔
      EntryInside c sections resourcePosition
          (fun names p => EndsInside c (directoryRead names) p) names p ∧
        EntryShallow c resourcePosition
          (fun p' => ∃ entries q',
            Gives c (directoryRead (dwordAt c p :: names)) p' (.ok entries) q') p := by
  rw [exists_comm]
  simp only [gives_ResourceEntryRead, exists_eq_left]

/-- The header of a directory is sixteen bytes. -/
theorem within_directory {P : Prop} : (Within c p 4 ∧ Within c (p + 4) 4 ∧ Within c (p + 8) 2 ∧
    Within c (p + 10) 2 ∧ Within c (p + 12) 2 ∧ Within c (p + 14) 2 ∧ P) ↔ Within c p 16 ∧ P := by
  unfold Within
  constructor
  · rintro ⟨h4, -, -, -, -, h16, hP⟩
    exact ⟨by omega, hP⟩
  · rintro ⟨h16, hP⟩
    exact ⟨by omega, by omega, by omega, by omega, by omega, by omega, hP⟩

/-- A directory stays inside with its header and its entries. -/
theorem endsInside_ResourceDirectoryRead_succ {stack : Nat} {names : List Nat} :
    EndsInside c (ResourceDirectoryRead sections resourcePosition (stack + 1) names) p ↔
      Within c p 16 ∧ EndsInside c (times (entryCount c p)
        (ResourceEntryRead sections resourcePosition
          (ResourceDirectoryRead sections resourcePosition stack) names)) (p + 16) := by
  simp only [ResourceDirectoryRead, endsInside_ULONG_bind, endsInside_USHORT_bind,
    endsInside_position_bind, endsInside_bind (m := times _ _), endsInside_seek_bind,
    endsInside_pure, implies_true, and_true, Int.add_assoc, Int.reduceAdd, within_directory,
    entryCount]

/-- It is read if its entries are, one after the other. -/
theorem gives_ResourceDirectoryRead_succ {stack : Nat} {names : List Nat} :
    (∃ entries q, Gives c (ResourceDirectoryRead sections resourcePosition (stack + 1) names) p
      (.ok entries) q) ↔
      Within c p 16 ∧ ∃ entries q, Gives c (times (entryCount c p)
        (ResourceEntryRead sections resourcePosition
          (ResourceDirectoryRead sections resourcePosition stack) names))
          (p + 16) (.ok entries) q := by
  simp only [ResourceDirectoryRead, gives_ULONG_bind, gives_USHORT_bind, gives_position_bind,
    gives_bind_ok (m := times _ _), gives_seek_bind, gives_pure, Int.add_assoc, Int.reduceAdd,
    within_directory, entryCount]
  constructor
  · rintro ⟨entries, q, h16, entries', q', h, -, -⟩
    exact ⟨h16, entries', q', h⟩
  · rintro ⟨h16, entries, q, h⟩
    exact ⟨entries, _, h16, entries, q, h, rfl, rfl⟩

/-- **Directories.**  The reading of a directory ends inside the file if what it
leads to is inside; it fails if the directories are too deep for the stack, and
only then. -/
theorem directory_reads (stack : Nat) : ∀ (names : List Nat) (p : Int),
    (EndsInside c (ResourceDirectoryRead sections resourcePosition stack names) p ↔
      DirectoryInside c sections resourcePosition stack names p) ∧
    (EndsInside c (ResourceDirectoryRead sections resourcePosition stack names) p →
      ((∃ entries q, Gives c (ResourceDirectoryRead sections resourcePosition stack names) p
        (.ok entries) q) ↔ Shallow c resourcePosition stack p)) := by
  induction stack with
  | zero =>
    intro names p
    refine ⟨iff_of_true endsInside_throw trivial, fun _ => iff_of_false ?_ id⟩
    rintro ⟨entries, q, h⟩
    cases (gives_throw.mp h).1
  | succ stack ih =>
    intro names p
    rw [endsInside_ResourceDirectoryRead_succ, gives_ResourceDirectoryRead_succ,
      returns_ResourceEntryRead.endsInside_times, returns_ResourceEntryRead.gives_times]
    simp only [entry_reads, endsInside_ResourceEntryRead]
    have hinside :
        (fun names p => EndsInside c
          (ResourceDirectoryRead sections resourcePosition stack names) p) =
        DirectoryInside c sections resourcePosition stack := by
      funext names p
      exact propext (ih names p).1
    have hshallow : ∀ p : Int, EntryInside c sections resourcePosition
        (DirectoryInside c sections resourcePosition stack) names p →
        (EntryShallow c resourcePosition (fun p' => ∃ entries q', Gives c
          (ResourceDirectoryRead sections resourcePosition stack (dwordAt c p :: names)) p'
          (.ok entries) q') p ↔
        EntryShallow c resourcePosition (Shallow c resourcePosition stack) p) :=
      fun p hentry => imp_congr_right fun hbit =>
        (ih _ _).2 ((ih _ _).1.mpr (hentry.2.1 hbit))
    rw [hinside]
    obtain ⟨hends, hgoes⟩ := until_stop (n := entryCount c p) fun i _ => hshallow (p + 16 + 8 * i)
    refine ⟨and_congr_right fun _ => hends, fun ⟨h16, hbefore⟩ => ?_⟩
    have hiff := hgoes (hends.mp hbefore)
    exact ⟨fun h => hiff.mp h.2, fun h => ⟨h16, hiff.mpr h⟩⟩

end Resources

/-! ## The headers -/

section Headers

variable {c : List UInt8} {p q : Int} {β : Type}

/-- A character is a block of one byte. -/
theorem block_UCHAR : Block c UCHAR 1 fun p => readUIntLE (bytesAt c p 1) % 128 := block_read.map

/-- A section header is a block of 40 bytes. -/
theorem block_SectionHeaderRead : Block c SectionHeaderRead 40 (sectionAt c) :=
  .congr (.bind (block_UCHAR.times 7) fun _ =>
    .bind (block_UINT 4) fun _ => .bind (block_UINT 4) fun _ =>
    .bind (block_UINT 4) fun _ => .bind (block_UINT 4) fun _ => .bind (block_UINT 4) fun _ =>
    .bind (block_UINT 4) fun _ => .bind (block_UINT 2) fun _ => .bind (block_UINT 2) fun _ =>
    .map (block_UINT 4)) (fun p => by simp only [sectionAt, Int.add_assoc]; rfl) rfl

/-- A data directory is a block of two double words. -/
theorem block_DataDirectoryRead :
    Block c DataDirectoryRead 8 fun p => ⟨dwordAt c p, dwordAt c (p + 4)⟩ :=
  .congr (.bind (block_UINT 4) fun _ => .map (block_UINT 4)) (fun _ => rfl) rfl

/-- The file header is a block of 20 bytes. -/
theorem block_FileHeaderRead : Block c FileHeaderRead 20 fun p => wordAt c (p + 2) :=
  .congr (.bind (block_UINT 2) fun _ => .bind (block_UINT 2) fun _ => .bind (block_UINT 4) fun _ =>
    .bind (block_UINT 4) fun _ => .bind (block_UINT 4) fun _ => .bind (block_UINT 2) fun _ =>
    .map (block_UINT 2)) (fun _ => rfl) rfl

/-- Behind a signature that is no other the DOS header is read to its end. -/
theorem endsInside_DosHeaderRead_bind {f : Int → Read β} :
    EndsInside c (DosHeaderRead >>= f) p ↔ Within c p 2 ∧ (wordAt c p = IMAGE_DOS_SIGNATURE →
      Within c p 64 ∧ EndsInside c (f (longAt c (p + 60))) (p + 64)) := by
  have hwords : Block c (times 29 USHORT >>= fun _ => LONG) 62 fun p => longAt c (p + 58) :=
    .bind ((block_UINT 2).times 28) fun _ => block_LONG
  simp only [DosHeaderRead, FileReader.bind_assoc, endsInside_USHORT_bind, endsInside_check_bind,
    decide_eq_true_eq]
  refine and_congr_right fun h2 => imp_congr_right fun _ => ?_
  rw [← FileReader.bind_assoc, hwords.endsInside_bind, ← within_append (n := 2) (k := 62),
    and_assoc]
  simp only [Int.add_assoc]
  exact (and_iff_right h2).symm

/-- The part of the optional header after the addresses. -/
def optionalRest (magic : Nat) : Read (List DataDirectory) := do
  let _sectionAlignment ← ULONG
  let _fileAlignment ← ULONG
  let _versions ← times 6 USHORT
  let _reserved1 ← ULONG
  let _sizeOfImage ← ULONG
  let _sizeOfHeaders ← ULONG
  let _checkSum ← ULONG
  let _subsystem ← USHORT
  let _dllCharacteristics ← USHORT
  StackAndHeapRead magic
  let _loaderFlags ← ULONG
  let _numberOfRvaAndSizes ← ULONG
  times IMAGE_NUMBEROF_DIRECTORY_ENTRIES DataDirectoryRead

/-- A long number is a block of eight bytes. -/
theorem block_LONG64 : ∃ value, Block c LONG64 8 value := ⟨_, block_read.map⟩

/-- The sizes of stack and heap are a block whose length the magic number tells. -/
theorem block_StackAndHeapRead {magic : Nat} :
    Block c (StackAndHeapRead magic) (if magic = 0x10b then 16 else 32) fun _ => () := by
  obtain ⟨value, hlong⟩ := block_LONG64 (c := c)
  unfold StackAndHeapRead
  split
  · exact ((block_UINT 4).times 3).map
  · exact (hlong.times 3).map

/-- The rest of the optional header, up to the data directories, is a block as well. -/
theorem block_optionalRest {magic : Nat} :
    Block c (optionalRest magic) (if magic = 0x10b then 192 else 208) fun p =>
      valuesAt (fun p => ⟨dwordAt c p, dwordAt c (p + 4)⟩) 8 16
        (p + 40 + (if magic = 0x10b then 16 else 32 : Nat) + 8) :=
  .congr (.bind (block_UINT 4) fun _ =>
    .bind (block_UINT 4) fun _ => .bind ((block_UINT 2).times 5) fun _ =>
    .bind (block_UINT 4) fun _ => .bind (block_UINT 4) fun _ => .bind (block_UINT 4) fun _ =>
    .bind (block_UINT 4) fun _ => .bind (block_UINT 2) fun _ => .bind (block_UINT 2) fun _ =>
    .bind block_StackAndHeapRead fun _ =>
    .bind (block_UINT 4) fun _ => .bind (block_UINT 4) fun _ =>
    block_DataDirectoryRead.times 15)
    (fun p => congrArg (valuesAt _ 8 16) (by omega)) (by split <;> rfl)

/-- The image base is eight bytes, under either magic number. -/
theorem endsInside_ImageBaseRead_bind {magic : Nat} {f : Unit → Read β} :
    EndsInside c (ImageBaseRead magic >>= f) p ↔
      (magic = 0x10b ∨ magic = 0x20b → Within c p 8 ∧ EndsInside c (f ()) (p + 8)) := by
  obtain ⟨value, hlong⟩ := block_LONG64 (c := c)
  unfold ImageBaseRead
  split
  · next h32 =>
    have haddresses :
        Block c (ULONG >>= fun _ => ULONG >>= fun _ => (pure () : Read Unit)) 8 fun _ => () :=
      .bind (block_UINT 4) fun _ => .map (block_UINT 4)
    rw [haddresses.endsInside_bind]
    exact ⟨fun h _ => h, fun h => h (.inl h32)⟩
  · next h32 =>
    split
    · next h64 =>
      have haddress : Block c (LONG64 >>= fun _ => (pure () : Read Unit)) 8 fun _ => () := hlong.map
      rw [haddress.endsInside_bind]
      exact ⟨fun h _ => h, fun h => h (.inr h64)⟩
    · next h64 =>
      refine iff_of_true ?_ fun h => absurd h (by omega)
      exact endsInside_bind.mpr ⟨endsInside_throw, fun a q h => by cases (gives_throw.mp h).1⟩

/-- When a reader that begins with the optional header stays inside. -/
theorem endsInside_OptionalHeaderRead_bind {f : List DataDirectory → Read β} :
    EndsInside c (OptionalHeaderRead >>= f) p ↔ Within c p 24 ∧
      (wordAt c p = 0x10b ∨ wordAt c p = 0x20b → Within c p (optionalSize c p) ∧
        EndsInside c (f (valuesAt (fun p => ⟨dwordAt c p, dwordAt c (p + 4)⟩) 8 16
          (p + optionalSize c p - 128))) (p + optionalSize c p)) := by
  let first := times 2 UCHAR >>= fun _ => ULONG >>= fun _ => ULONG >>= fun _ => ULONG >>= fun _ =>
    ULONG >>= fun _ => ULONG
  obtain ⟨value, hfirst⟩ : ∃ value, Block c first 22 value :=
    ⟨_, .bind (block_UCHAR.times 1) fun _ =>
      .bind (block_UINT 4) fun _ => .bind (block_UINT 4) fun _ =>
      .bind (block_UINT 4) fun _ => .bind (block_UINT 4) fun _ => block_UINT 4⟩
  have hseq : OptionalHeaderRead = USHORT >>= fun magic => first >>= fun _ =>
      ImageBaseRead magic >>= fun _ => optionalRest magic := by
    simp only [first, FileReader.bind_assoc]
    rfl
  rw [hseq, FileReader.bind_assoc, endsInside_USHORT_bind, FileReader.bind_assoc,
    hfirst.endsInside_bind, FileReader.bind_assoc, endsInside_ImageBaseRead_bind,
    block_optionalRest.endsInside_bind, ← and_assoc]
  refine (and_congr_left fun _ => within_append (n := 2) (k := 22)).trans ?_
  refine and_congr_right fun h24 => imp_congr_right fun _ => ?_
  have hend : p + 2 + (22 : Nat) + 8 + (if wordAt c p = 0x10b then 192 else 208 : Nat) =
      p + optionalSize c p := by
    unfold optionalSize
    split <;> omega
  have hdirectories :
      p + 2 + (22 : Nat) + 8 + 40 + (if wordAt c p = 0x10b then 16 else 32 : Nat) + 8 =
      p + optionalSize c p - 128 := by
    unfold optionalSize
    split <;> omega
  rw [hend, hdirectories, ← and_assoc]
  refine and_congr_left fun _ => ?_
  unfold optionalSize Within at *
  split <;> omega

/-! ## The file -/

/-- The signature and the two headers are 48 bytes. -/
theorem within_headers {P : Prop} :
    (Within c p 4 ∧ Within c (p + 4) 20 ∧ Within c (p + 24) 24 ∧ P) ↔ Within c p 48 ∧ P := by
  unfold Within
  constructor
  · rintro ⟨h4, -, h48, hP⟩
    exact ⟨by omega, hP⟩
  · rintro ⟨h48, hP⟩
    exact ⟨by omega, by omega, by omega, hP⟩

/-- When an executable is read inside of its file. -/
theorem endsInside_WindowsExeRead {stack : Nat} :
    EndsInside c (WindowsExeRead stack) 0 ↔ ExeInside c stack := by
  rw [WindowsExeRead, endsInside_DosHeaderRead_bind, ExeInside]
  refine and_congr_right fun _ => imp_congr_right fun _ => and_congr_right fun _ => ?_
  have hnew : longAt c (0 + 60) = longAt c 60 := rfl
  rw [endsInside_seek_bind, hnew]
  generalize longAt c 60 = p
  have htype : Block c FileTypeRead 4 (dwordAt c) := block_UINT 4
  have hfour : p + ((4 : Nat) : Int) = p + 4 := rfl
  have hstart : p + 4 + ((20 : Nat) : Int) = p + 24 := by omega
  have hcount : p + 4 + 2 = p + 6 := by omega
  rw [htype.endsInside_bind, block_FileHeaderRead.endsInside_bind,
    endsInside_OptionalHeaderRead_bind, hfour, hstart, hcount, within_headers, HeadersInside]
  refine and_congr_right fun h48 => imp_congr_right fun _ => ?_
  have hsize : Within c p (headerSize c p) ↔ Within c (p + 24) (optionalSize c (p + 24)) := by
    unfold headerSize Within at *
    omega
  have htable : p + 24 + (optionalSize c (p + 24) : Int) = p + headerSize c p := by
    unfold headerSize
    omega
  rw [htable, ← hsize, ← within_append, and_assoc]
  refine and_congr_right fun hin => ?_
  rw [SectionHeadersRead, block_SectionHeaderRead.endsInside_times_bind hin.zero, Nat.mul_comm]
  refine and_congr_right fun _ => ?_
  have haddress : p + headerSize c p - 128 + ((8 : Nat) : Int) + ((8 : Nat) : Int) =
      p + headerSize c p - 112 := by omega
  rw [endsInside_seek_bind, (directory_reads stack [] _).1]
  simp only [resourceAt, sectionsAt, ← haddress]
  rfl

/-- **Termination.**  Whatever the buffers hold, the reading makes finitely many
reads and returns or throws, and no read leaves the file and gets what a buffer
held, if and only if all that the file leads to is inside. -/
theorem WindowsExeRead_ends_iff (content : List UInt8) (stack : Nat) :
    (∀ buffer, ∃ bound r s,
      (∀ fuel, bound ≤ fuel → (WindowsExeRead stack).run ⟨content, buffer⟩ fuel ⟨0, []⟩ =
        some (r, s)) ∧
        ∀ e ∈ s.reads, e.Within content) ↔ ExeInside content stack := by
  rw [← endsInside_WindowsExeRead]
  constructor
  · intro h buffer
    obtain ⟨bound, r, s, hrun, hin⟩ := h buffer
    exact ⟨bound, r, s, hrun bound (Nat.le_refl bound), hin⟩
  · intro h buffer
    obtain ⟨bound, r, s, hrun, hin⟩ := h buffer
    exact ⟨bound, r, s, fun fuel hle => (WindowsExeRead stack).more hrun hle, hin⟩

/-- **A read past the end does not fail.**  Of a file of two bytes, `MZ`, the
whole header is read. -/
theorem truncated_file_read :
    ¬ ∀ (content : List UInt8) (stack : Nat) (buffer : Nat → Nat → UInt8), ∃ bound r s,
      (∀ fuel, bound ≤ fuel → (WindowsExeRead stack).run ⟨content, buffer⟩ fuel ⟨0, []⟩ =
        some (r, s)) ∧
        ∀ e ∈ s.reads, e.Within content := by
  intro hall
  have hends : EndsInside [0x4D, 0x5A] (WindowsExeRead 0) 0 := by
    intro buffer
    obtain ⟨bound, r, s, hrun, hin⟩ := hall [0x4D, 0x5A] 0 buffer
    exact ⟨bound, r, s, hrun bound (Nat.le_refl bound), hin⟩
  have hinside := (endsInside_WindowsExeRead.mp hends).2 (by decide)
  exact absurd hinside.1 (by decide)

end Headers

end ExeFile

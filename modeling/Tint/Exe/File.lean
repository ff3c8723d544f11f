import Mathlib.Algebra.Order.Ring.Int
import Tint.FileReader
import Tint.Exe.VersionInfo

/-!
# Reading the resources of an executable

The compiler reads the Windows executable that it stamps: the headers, the
section table, and from there the tree of resource directories, whose leaves are
icons, groups of icons and the version resource.  All positions come from the
file.

No read of `WindowsConst.READ` fails: the count of the bytes read is not looked
at, and `new Buffer` does not clear its memory.  The readers of the version
resource are the ones of `VersionInfo`, here over reads that may leave the file;
their lengths and the members of the other structures that nothing looks at are
read and dropped.  They are given again because a reader here is a function of the
disk and the fuel, which says what it reads, and there a tree of calls, of which the
format can be told step by step; `ExeRefines` proves the two alike inside the file.

A directory is read by recursion.  The stack of the engine bounds it, and past
the bound a `RangeError` ends the reading.
-/

namespace ExeFile

open FileReader
open VersionInfo (Units units readUIntLE utf8 UTF16toJSString translation varFileInfo stringFileInfo
  vsVersionInfo FixedFileInfo)

/-- A reader of the executable; its errors are the texts that are thrown. -/
abbrev Read := Reader String

/-! ## Numbers and characters -/

/-- `WindowsConst.READ` -/
def READ (size : Nat) : Read (List UInt8) := read size

/-- A number of so many bytes, the lowest first. -/
def UINT (size : Nat) : Read Nat := do
  let buf ← READ size
  pure (readUIntLE buf)

/-- `BYTE` -/
def BYTE : Read Nat := UINT 1

/-- `USHORT` -/
def USHORT : Read Nat := UINT 2

/-- `WORD` -/
def WORD : Read Nat := UINT 2

/-- `ULONG` -/
def ULONG : Read Nat := UINT 4

/-- `DWORD` -/
def DWORD : Read Nat := UINT 4

/-- `buf.readInt32LE(0)` -/
def readInt32LE (buf : List UInt8) : Int :=
  let n := readUIntLE buf
  if n < 2 ^ 31 then n else n - 2 ^ 32

/-- `LONG`, which is signed -/
def LONG : Read Int := do
  let buf ← READ 4
  pure (readInt32LE buf)

/-- `UCHAR`, a character of seven bits. -/
def UCHAR : Read Nat := do
  let buf ← READ 1
  pure (readUIntLE buf % 128)

/-- `LONG64`, which shifts by eight bits, and as a signed number. -/
def LONG64 : Read Int := do
  let buf ← READ 8
  let high := readInt32LE (0 :: (buf.take 4).reverse.take 3)
  pure (high + readUIntLE (buf.drop 4).reverse)

/-- `WCHAR` -/
def WCHAR : Read Units := do
  let buf ← READ 2
  pure (utf8 (buf.getD 0 0).toNat (buf.getD 1 0).toNat)

/-! ## The version resource -/

/-- One turn of `ReadUnicodeUTF16`; the loop variables are `str` and `data`. -/
def textTurn (vars : List Units × Units) : Read (List Units × Units) := do
  let next ← WCHAR
  pure (vars.1 ++ [vars.2], next)

/-- `ReadUnicodeUTF16` -/
def ReadUnicodeUTF16 : Read (List Units) := do
  let data ← WCHAR
  let vars ← loop (fun vars _ => vars.2 ≠ [0, 0]) textTurn ([], data)
  pure vars.1

/-- One turn of `ReadPadding`. -/
def paddingTurn (_ : Unit) : Read Unit := do
  let word ← WORD
  check (word = 0) "Padding values should be 0, at position: "

/-- `ReadPadding` -/
def ReadPadding : Read Int := do
  let beginPos ← position
  loop (fun _ p => p % 4 ≠ 0) paddingTurn ()
  let endPos ← position
  pure (endPos - beginPos)

/-- One turn of a loop over children. -/
def childTurn {α : Type} (read : Read α) (wLength : α → Nat) (vars : Int × List α) :
    Read (Int × List α) := do
  let tmp ← read
  let paddingSize ← ReadPadding
  pure (vars.1 - wLength tmp - paddingSize, vars.2 ++ [tmp])

/-- The loop of `StringTableRead`, `VarFileOrStringFileInfoRead` and
`ResourceDataVersionRead`, which ends when the length is `stop`. -/
def readChildren {α : Type} (stop : Int) (read : Read α) (wLength : α → Nat)
    (lengthOfChildren : Int) : Read (List α) := do
  let vars ← loop (fun vars _ => vars.1 ≠ stop) (childTurn read wLength) (lengthOfChildren, [])
  pure vars.2

/-- What `StringRead` returns. -/
structure StringObj where
  wLength : Nat
  wValueLength : Nat
  wType : Nat
  szKey : List Units
  valuePosition : Int
  value : List Units
  deriving DecidableEq

/-- `StringRead` -/
def StringRead : Read StringObj := do
  let wLength ← WORD
  let wValueLength ← WORD
  let wType ← WORD
  let szKey ← ReadUnicodeUTF16
  let _ ← ReadPadding
  let valuePosition ← position
  let value ← ReadUnicodeUTF16
  pure { wLength, wValueLength, wType, szKey, valuePosition, value }

/-- What `StringTableRead` returns. -/
structure StringTableObj where
  wLength : Nat
  wValueLength : Nat
  wType : Nat
  szKey : List Units
  children : List StringObj
  deriving DecidableEq

/-- `StringTableRead` -/
def StringTableRead : Read StringTableObj := do
  let wLength ← WORD
  let wValueLength ← WORD
  let wType ← WORD
  let szKey ← ReadUnicodeUTF16
  let key := UTF16toJSString szKey
  check (wValueLength = 0) "The value length was not equal to 0, it should be for StringTableRead"
  check (wType = 1 || wType = 0) "The String Table type was not 1 or 0, it was: "
  check (key.length = 8)
    "The String Table key should be an 8 digit hexidecimal as unicode string, it was: "
  let paddingSize ← ReadPadding
  let lengthOfChildren : Int := wLength - 6 - key.length * 2 - paddingSize
  let children ← readChildren 0 StringRead StringObj.wLength lengthOfChildren
  pure { wLength, wValueLength, wType, szKey, children }

/-- What `VarRead` returns. -/
structure VarObj where
  wLength : Nat
  wValueLength : Nat
  wType : Nat
  szKey : List Units
  children : List Nat
  deriving DecidableEq

/-- One turn of the loop of `VarRead`. -/
def varTurn (vars : Int × List Nat) : Read (Int × List Nat) := do
  let child ← DWORD
  pure (vars.1 - 4, vars.2 ++ [child])

/-- `VarRead` -/
def VarRead : Read VarObj := do
  let wLength ← WORD
  let wValueLength ← WORD
  let wType ← WORD
  check (wType = 1 || wType = 0) "The String Table type was not 1 or 0, it was: "
  let szKey ← ReadUnicodeUTF16
  let key := UTF16toJSString szKey
  check (key = translation)
    "The Var key did not match expected value Translation, instead it was: "
  let _ ← ReadPadding
  let lengthOfChildren : Int := wValueLength
  let vars ← loop (fun vars _ => vars.1 ≠ 0) varTurn (lengthOfChildren, [])
  pure { wLength, wValueLength, wType, szKey, children := vars.2 }

/-- The `Children` of a `VarFileInfo` or a `StringFileInfo`. -/
inductive InfoChildren
  | vars (children : List VarObj)
  | tables (children : List StringTableObj)
  deriving DecidableEq

/-- What `VarFileOrStringFileInfoRead` returns. -/
structure InfoObj where
  wLength : Nat
  wValueLength : Nat
  wType : Nat
  szKey : List Units
  children : InfoChildren
  deriving DecidableEq

/-- The part of `VarFileOrStringFileInfoRead` for the children. -/
def InfoChildrenRead (wLength : Nat) (key : Units) (paddingSize : Int) : Read InfoChildren :=
  if key = varFileInfo then do
    let child ← VarRead
    pure (.vars [child])
  else if key = stringFileInfo then do
    let lengthOfChildren : Int := wLength - (key.length + 1) * 2 - 6 - paddingSize
    let children ← readChildren 0 StringTableRead StringTableObj.wLength lengthOfChildren
    pure (.tables children)
  else throw "Invalid child key found: "

/-- `VarFileOrStringFileInfoRead` -/
def VarFileOrStringFileInfoRead : Read InfoObj := do
  let wLength ← WORD
  let wValueLength ← WORD
  check (wValueLength = 0)
    "The value length was not equal to 0, it should be for VarFileInfo or StringFileInfo"
  let wType ← WORD
  let szKey ← ReadUnicodeUTF16
  let key := UTF16toJSString szKey
  let paddingSize ← ReadPadding
  let children ← InfoChildrenRead wLength key paddingSize
  pure { wLength, wValueLength, wType, szKey, children }

/-- Reading the value of the resource. -/
def FixedFileInfoRead : Read FixedFileInfo := do
  let dwSignature ← DWORD
  let dwStrucVersion ← DWORD
  let dwFileVersionMS ← DWORD
  let dwFileVersionLS ← DWORD
  let dwProductVersionMS ← DWORD
  let dwProductVersionLS ← DWORD
  let dwFileFlagsMask ← DWORD
  let dwFileFlags ← DWORD
  let dwFileOS ← DWORD
  let dwFileType ← DWORD
  let dwFileSubtype ← DWORD
  let dwFileDateMS ← DWORD
  let dwFileDateLS ← DWORD
  pure { dwSignature, dwStrucVersion, dwFileVersionMS, dwFileVersionLS, dwProductVersionMS,
         dwProductVersionLS, dwFileFlagsMask, dwFileFlags, dwFileOS, dwFileType, dwFileSubtype,
         dwFileDateMS, dwFileDateLS }

/-- The part of `ResourceDataVersionRead` for the value. -/
def ValueRead (wValueLength : Nat) (valuePosition : Int) : Read (Option FixedFileInfo) :=
  if wValueLength ≠ 0 then do
    let value ← FixedFileInfoRead
    let endPos ← position
    check (endPos - valuePosition = wValueLength) "VSVERSION_INFO.Value structure was "
    check (value.dwSignature = 0xFEEF04BD)
      "VSVERSION_INFO.dwSignature should have been 0xFEEF04BD, instead we got"
    pure (some value)
  else pure none

/-- What `ResourceDataVersionRead` returns. -/
structure VersionObj where
  wLength : Nat
  wValueLength : Nat
  wType : Nat
  szKey : List Units
  valuePosition : Int
  value : Option FixedFileInfo
  children : List InfoObj
  childrenItem : Nat
  deriving DecidableEq

/-- `ResourceDataVersionRead` -/
def ResourceDataVersionRead : Read VersionObj := do
  let wLength ← WORD
  let wValueLength ← WORD
  let wType ← WORD
  let szKey ← ReadUnicodeUTF16
  let key := UTF16toJSString szKey
  check (key = vsVersionInfo) "Expected VS_VERSION_INFO got "
  let paddingSize ← ReadPadding
  let valuePosition ← position
  let value ← ValueRead wValueLength valuePosition
  let morePadding ← ReadPadding
  let lengthOfChildren : Int :=
    wLength - 6 - (key.length + 1) * 2 - (paddingSize + morePadding) - wValueLength
  let children ← readChildren 2 VarFileOrStringFileInfoRead InfoObj.wLength lengthOfChildren
  let childrenItem ← WORD
  pure { wLength, wValueLength, wType, szKey, valuePosition, value, children, childrenItem }

/-! ## Icons -/

/-- What `ResourceDataIconRead` returns. -/
structure IconObj where
  biSize : Nat
  biWidth : Int
  biHeight : Int
  biPlanes : Nat
  biBitCount : Nat
  biCompression : Nat
  biSizeImage : Nat
  biXPelsPerMeter : Int
  biYPelsPerMeter : Int
  biClrUsed : Nat
  biClrImportant : Nat
  position : Int
  deriving DecidableEq

/-- `ResourceDataIconRead` -/
def ResourceDataIconRead : Read IconObj := do
  let biSize ← DWORD
  let biWidth ← LONG
  let biHeight ← LONG
  let biPlanes ← WORD
  let biBitCount ← WORD
  let biCompression ← DWORD
  let biSizeImage ← DWORD
  let biXPelsPerMeter ← LONG
  let biYPelsPerMeter ← LONG
  let biClrUsed ← DWORD
  let biClrImportant ← DWORD
  let position ← position
  pure { biSize, biWidth, biHeight, biPlanes, biBitCount, biCompression, biSizeImage,
         biXPelsPerMeter, biYPelsPerMeter, biClrUsed, biClrImportant, position }

/-- An entry of a group of icons. -/
structure GroupIconEntry where
  bWidth : Nat
  bHeight : Nat
  bColorCount : Nat
  bReserved : Nat
  wPlanes : Nat
  wBitCount : Nat
  lBytesInRes : Nat
  wNameOrdinal : Nat
  deriving DecidableEq

/-- What `ResourceDataGroupIconRead` returns. -/
structure GroupIconObj where
  wReserved : Nat
  wType : Nat
  wCount : Nat
  entries : List GroupIconEntry
  deriving DecidableEq

/-- One turn of the loop of `ResourceDataGroupIconRead`. -/
def GroupIconEntryRead : Read GroupIconEntry := do
  let bWidth ← BYTE
  let bHeight ← BYTE
  let bColorCount ← BYTE
  let bReserved ← BYTE
  let wPlanes ← WORD
  let wBitCount ← WORD
  let lBytesInRes ← DWORD
  let wNameOrdinal ← WORD
  pure { bWidth, bHeight, bColorCount, bReserved, wPlanes, wBitCount, lBytesInRes, wNameOrdinal }

/-- `ResourceDataGroupIconRead` -/
def ResourceDataGroupIconRead : Read GroupIconObj := do
  let wReserved ← WORD
  let wType ← WORD
  let wCount ← WORD
  let entries ← times wCount GroupIconEntryRead
  pure { wReserved, wType, wCount, entries }

/-! ## Sections -/

/-- What is looked at of a section header. -/
structure SectionHeader where
  virtualAddress : Nat
  sizeOfRawData : Nat
  pointerToRawData : Nat
  deriving DecidableEq

/-- `obj.VirtualOffset` -/
def SectionHeader.virtualOffset (s : SectionHeader) : Int := s.virtualAddress - s.pointerToRawData

/-- `WindowsConst.GETOFFSETBYADDRESS` -/
def GETOFFSETBYADDRESS (address : Nat) : List SectionHeader → Int
  | [] => 0
  | s :: sections =>
    if s.virtualAddress ≤ address ∧ s.sizeOfRawData + s.virtualAddress > address then
      address - s.virtualOffset
    else GETOFFSETBYADDRESS address sections

/-! ## The resource tree -/

/-- The values of `WindowsConst.RESOURCE_ENTRY_TYPES`. -/
def RESOURCE_ENTRY_TYPES : List Nat :=
  [0, 1, 2, 3, 4, 5, 6, 7, 8, 9, 10, 11, 12, 0, 14, 0, 16, 17, 0, 19, 20, 21, 22, 23, 24]

/-- The type of an icon. -/
def RT_ICON : Nat := 3

/-- The type of a group of icons. -/
def RT_GROUP_ICON : Nat := 14

/-- The type of a version resource. -/
def RT_VERSION : Nat := 16

/-- What `ResourceDataRead` returns. -/
structure DataObj where
  offsetToData : Nat
  size : Nat
  codePage : Nat
  physicalAddress : Int
  icon : Option IconObj := none
  groupIcon : Option GroupIconObj := none
  versionInfo : Option VersionObj := none
  errorOccured : Bool := false
  deriving DecidableEq

/-- The `Name` five parents up: the names are those of the entries on the way,
the innermost first.  With one entry on the way there is no fifth parent; with
two it is the file, which has no `Name`. -/
def typeName : List Nat → Except String (Option Nat)
  | _ :: _ :: index :: _ => .ok (some index)
  | _ :: _ :: [] => .ok none
  | _ => .error "Cannot read property 'parent' of undefined"

/-- `obj.ResourceType`, with `WindowsConst.RT_UNKNOWN` not defined. -/
def resourceType (index : Option Nat) : Option Nat :=
  index.bind fun index =>
    if index > RESOURCE_ENTRY_TYPES.length then none else RESOURCE_ENTRY_TYPES[index]?

/-- The `switch` of `ResourceDataRead`. -/
def ResourceRead (obj : DataObj) : Option Nat → Read DataObj
  | none => throw "Cannot read property 'value' of undefined"
  | some type =>
    if type = RT_ICON then do
      let icon ← ResourceDataIconRead
      pure { obj with icon := some icon }
    else if type = RT_GROUP_ICON then do
      let groupIcon ← ResourceDataGroupIconRead
      pure { obj with groupIcon := some groupIcon }
    else if type = RT_VERSION then do
      let versionInfo ← ResourceDataVersionRead
      pure { obj with versionInfo := some versionInfo }
    else pure obj

/-- The `try` block of `ResourceDataRead`. -/
def ResourceDataTry (names : List Nat) (obj : DataObj) : Read DataObj :=
  match typeName names with
  | .error e => throw e
  | .ok index => do
    let savePosition ← position
    seek obj.physicalAddress
    let obj ← ResourceRead obj (resourceType index)
    seek savePosition
    pure obj

/-- `ResourceDataRead`, below the entries with these names. -/
def ResourceDataRead (sections : List SectionHeader) (names : List Nat) : Read DataObj := do
  let offsetToData ← ULONG
  let size ← ULONG
  let codePage ← ULONG
  let _reserved ← ULONG
  let obj : DataObj :=
    { offsetToData, size, codePage, physicalAddress := GETOFFSETBYADDRESS offsetToData sections }
  let result ← attempt (ResourceDataTry names obj)
  match result with
  | .ok obj => pure obj
  | .error _ => pure { obj with errorOccured := true }

/-- What `ResourceEntryRead` returns; a directory is its `Entries`. -/
inductive Entry
  | directory (name offsetToData : Nat) (entries : List Entry)
  | data (name offsetToData : Nat) (data : DataObj)

/-- `WindowsConst.HIGHBIT` -/
def HIGHBIT (e : Nat) : Bool := e / 2 ^ 31 % 2 ≠ 0

/-- `WindowsConst.STRIPHIGHBIT` -/
def STRIPHIGHBIT (e : Nat) : Nat := e % 2 ^ 31

section Tree

variable (sections : List SectionHeader) (resourcePosition : Int)

/-- `ResourceEntryRead`, given `ResourceDirectoryRead`. -/
def ResourceEntryRead (directoryRead : List Nat → Read (List Entry)) (names : List Nat) :
    Read Entry := do
  let name ← ULONG
  let offsetToData ← ULONG
  let savePosition ← position
  seek (resourcePosition + STRIPHIGHBIT offsetToData)
  let entry ← if HIGHBIT offsetToData then do
      let entries ← directoryRead (name :: names)
      pure (Entry.directory name offsetToData entries)
    else do
      let data ← ResourceDataRead sections (name :: names)
      pure (Entry.data name offsetToData data)
  seek savePosition
  pure entry

/-- `ResourceDirectoryRead`, with this many calls left on the stack. -/
def ResourceDirectoryRead : Nat → List Nat → Read (List Entry)
  | 0, _ => throw "Maximum call stack size exceeded"
  | stack + 1, names => do
    let _characteristics ← ULONG
    let _timeDateStamp ← ULONG
    let _majorVersion ← USHORT
    let _minorVersion ← USHORT
    let numberOfNamedEntries ← USHORT
    let numberOfIdEntries ← USHORT
    let savePosition ← position
    let entries ← times (numberOfNamedEntries + numberOfIdEntries)
      (ResourceEntryRead sections resourcePosition (ResourceDirectoryRead stack) names)
    seek savePosition
    pure entries

end Tree

/-! ## The headers -/

/-- `SectionHeaderRead` -/
def SectionHeaderRead : Read SectionHeader := do
  let _name ← times 8 UCHAR
  let _misc ← ULONG
  let virtualAddress ← ULONG
  let sizeOfRawData ← ULONG
  let pointerToRawData ← ULONG
  let _pointerToRelocations ← ULONG
  let _pointerToLinenumbers ← ULONG
  let _numberOfRelocations ← USHORT
  let _numberOfLinenumbers ← USHORT
  let _characteristics ← ULONG
  pure { virtualAddress, sizeOfRawData, pointerToRawData }

/-- `SectionHeadersRead` -/
def SectionHeadersRead (numberOfSections : Nat) : Read (List SectionHeader) :=
  times numberOfSections SectionHeaderRead

/-- Where the data of a directory is, and how long it is. -/
structure DataDirectory where
  virtualAddress : Nat
  size : Nat
  deriving DecidableEq

/-- `DataDirectoryRead` -/
def DataDirectoryRead : Read DataDirectory := do
  let virtualAddress ← ULONG
  let size ← ULONG
  pure { virtualAddress, size }

/-- How many data directories an executable has. -/
def IMAGE_NUMBEROF_DIRECTORY_ENTRIES : Nat := 16

/-- Which of them is the one of the resources. -/
def IMAGE_DIRECTORY_ENTRY_RESOURCE : Nat := 2

/-- The part of `OptionalHeaderRead` after `BaseOfCode`, for the two sizes of an address. -/
def ImageBaseRead (magic : Nat) : Read Unit :=
  if magic = 0x10b then do
    let _baseOfData ← ULONG
    let _imageBase ← ULONG
    pure ()
  else if magic = 0x20b then do
    let _imageBase ← LONG64
    pure ()
  else throw "UNSUPPORTED BIT TYPE."

/-- The part of `OptionalHeaderRead` for the sizes of stack and heap. -/
def StackAndHeapRead (magic : Nat) : Read Unit :=
  if magic = 0x10b then do
    let _sizes ← times 4 ULONG
    pure ()
  else do
    let _sizes ← times 4 LONG64
    pure ()

/-- `OptionalHeaderRead`, its data directories. -/
def OptionalHeaderRead : Read (List DataDirectory) := do
  let magic ← USHORT
  let _linkerVersion ← times 2 UCHAR
  let _sizeOfCode ← ULONG
  let _sizeOfInitializedData ← ULONG
  let _sizeOfUninitializedData ← ULONG
  let _addressOfEntryPoint ← ULONG
  let _baseOfCode ← ULONG
  ImageBaseRead magic
  let _sectionAlignment ← ULONG
  let _fileAlignment ← ULONG
  let _versions ← times 6 USHORT
  let _reserved1 ← ULONG
  let _sizeOfImage ← ULONG
  let _sizeOfHeaders ← ULONG
  let _checkSum ← ULONG
  let _subsystem ← USHORT
  let _dllCharacteristics ← USHORT
  StackAndHeapRead magic
  let _loaderFlags ← ULONG
  let _numberOfRvaAndSizes ← ULONG
  times IMAGE_NUMBEROF_DIRECTORY_ENTRIES DataDirectoryRead

/-- `FileHeaderRead`, its number of sections. -/
def FileHeaderRead : Read Nat := do
  let _machine ← USHORT
  let numberOfSections ← USHORT
  let _timeDateStamp ← ULONG
  let _pointerToSymbolTable ← ULONG
  let _numberOfSymbols ← ULONG
  let _sizeOfOptionalHeader ← USHORT
  let _characteristics ← USHORT
  pure numberOfSections

/-- `FileTypeRead`, the word that it names. -/
def FileTypeRead : Read Nat := DWORD

/-- `WindowsConst.IMAGE_DOS_SIGNATURE.value` -/
def IMAGE_DOS_SIGNATURE : Nat := 23117

/-- `DosHeaderRead`, its address of the new header. -/
def DosHeaderRead : Read Int := do
  let e_magic ← USHORT
  check (e_magic = IMAGE_DOS_SIGNATURE)
    "The runtime given for Tint appears to be corrupted, expected legacy MSDOS Signature: "
  let _words ← times 29 USHORT
  LONG

/-- `WindowsExeRead`, the `Entries` of its `Resources`. -/
def WindowsExeRead (stack : Nat) : Read (List Entry) := do
  let e_lfanew ← DosHeaderRead
  seek e_lfanew
  let _fileType ← FileTypeRead
  let numberOfSections ← FileHeaderRead
  let dataDirectory ← OptionalHeaderRead
  let sections ← SectionHeadersRead numberOfSections
  let resource := dataDirectory.getD IMAGE_DIRECTORY_ENTRY_RESOURCE ⟨0, 0⟩
  let resourcePosition := GETOFFSETBYADDRESS resource.virtualAddress sections
  seek resourcePosition
  ResourceDirectoryRead sections resourcePosition stack []

end ExeFile

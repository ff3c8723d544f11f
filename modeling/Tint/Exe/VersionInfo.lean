import Mathlib.Data.List.Basic
import Tint.Program

/-!
# Reading the version resource of an executable

The compiler patches the version strings of a Windows executable in place, and
for that it reads the `VS_VERSIONINFO` tree of the file: a header, a child
`StringFileInfo` with tables of strings, and a child `VarFileInfo`.  Every
member starts with its length in bytes, and the readers go through the members
inside another one by subtracting lengths and paddings from its own length.

The lengths are subtracted in a different way at each level, and the loops stop
at one exact value only.  A table counts its key without the terminator, so its
loop ends only if two bytes of padding follow the last string; that padding is
not counted one level up, nor two levels up, where the loop stops with two bytes
left; and of the `Var`s only the first is read.
-/

namespace VersionInfo

open Program

/-- The bytes of the file.  Past its end a buffer keeps what it had, so every
position has a byte. -/
abbrev File := Nat → UInt8

/-- A reader: the state is `this.Position`. -/
abbrev Read := Prog String Nat

/-- The UTF-16 code units of a string. -/
abbrev Units := List Nat

/-- The code units of a literal. -/
def units (s : List Char) : Units := s.map Char.toNat

section Readers

variable (file : File)

/-- `WindowsConst.READ` -/
def READ (size : Nat) : Read (List UInt8) := fun _ position =>
  .ok ((List.range size).map fun i => file (position + i), position + size)

/-- `buf.readUInt16LE(0)` and `buf.readUInt32LE(0)` -/
def readUIntLE (buf : List UInt8) : Nat := buf.foldr (fun b n => b.toNat + 256 * n) 0

/-- `WORD` -/
def WORD : Read Nat := do
  let buf ← READ file 2
  pure (readUIntLE buf)

/-- `DWORD` -/
def DWORD : Read Nat := do
  let buf ← READ file 4
  pure (readUIntLE buf)

/-- The two bytes are the start of a character in UTF-8. -/
def startsCharacter (b0 b1 : Nat) : Bool :=
  (0xC2 ≤ b0 && b0 ≤ 0xDF && 0x80 ≤ b1 && b1 ≤ 0xBF) ||
    (b0 = 0xE0 && 0xA0 ≤ b1 && b1 ≤ 0xBF) || (b0 = 0xED && 0x80 ≤ b1 && b1 ≤ 0x9F) ||
    (0xE1 ≤ b0 && b0 ≤ 0xEF && b0 ≠ 0xED && 0x80 ≤ b1 && b1 ≤ 0xBF) ||
    (b0 = 0xF0 && 0x90 ≤ b1 && b1 ≤ 0xBF) || (0xF1 ≤ b0 && b0 ≤ 0xF3 && 0x80 ≤ b1 && b1 ≤ 0xBF) ||
    (b0 = 0xF4 && 0x80 ≤ b1 && b1 ≤ 0x8F)

/-- `buf.toString('utf8')` for a buffer of two bytes: what is no UTF-8 becomes
the replacement character. -/
def utf8 (b0 b1 : Nat) : Units :=
  let lone := fun b => if b < 0x80 then b else 0xFFFD
  if b0 < 0x80 then [b0, lone b1]
  else if startsCharacter b0 b1 then
    if b0 ≤ 0xDF then [(b0 - 0xC0) * 64 + (b1 - 0x80)] else [0xFFFD]
  else [0xFFFD, lone b1]

/-- `WCHAR` -/
def WCHAR : Read Units := do
  let buf ← READ file 2
  pure (utf8 (buf.getD 0 0).toNat (buf.getD 1 0).toNat)

/-- `WindowsExeFile.UTF16toJSString`: the first character of each element. -/
def UTF16toJSString (str : List Units) : Units := str.map (·.headD 0)

/-- `ReadUnicodeUTF16`; the loop variables are `str` and `data`. -/
def ReadUnicodeUTF16 : Read (List Units) := do
  let data ← WCHAR file
  let (str, _) ← loop (fun (_, data) _ => data ≠ [0, 0])
    (fun (str, data) => do
      let next ← WCHAR file
      pure (str ++ [data], next))
    ([], data)
  pure str

/-- `ReadPadding` -/
def ReadPadding : Read Nat := do
  let beginPos ← get
  loop (fun _ position => position % 4 ≠ 0)
    (fun _ => do
      let word ← WORD file
      check (word = 0) "Padding values should be 0, at position: ")
    ()
  let position ← get
  pure (position - beginPos)

/-- One turn of a loop over the children of a structure.  `StringTableRead`,
`VarFileOrStringFileInfoRead` and `ResourceDataVersionRead` have the same loop,
over `lengthOfChildren` and `obj.Children`. -/
def childTurn {α : Type} (read : Read α) (wLength : α → Nat) (vars : Int × List α) :
    Read (Int × List α) := do
  let tmp ← read
  let paddingSize ← ReadPadding file
  pure (vars.1 - wLength tmp - paddingSize, vars.2 ++ [tmp])

/-- The loop, which ends when the length is `stop`. -/
def readChildren {α : Type} (stop : Int) (read : Read α) (wLength : α → Nat)
    (lengthOfChildren : Int) : Read (List α) := do
  let vars ← loop (fun vars _ => vars.1 ≠ stop) (childTurn file read wLength)
    (lengthOfChildren, [])
  pure vars.2

/-- What `StringRead` returns. -/
structure StringObj where
  wLength : Nat
  wValueLength : Nat
  wType : Nat
  szKey : List Units
  valuePosition : Nat
  value : List Units
  deriving DecidableEq

/-- `StringRead`.  Strings with other keys than the supported ones are returned
as well, with a warning. -/
def StringRead : Read StringObj := do
  let wLength ← WORD file
  let wValueLength ← WORD file
  let wType ← WORD file
  let szKey ← ReadUnicodeUTF16 file
  let _ ← ReadPadding file
  let valuePosition ← get
  let value ← ReadUnicodeUTF16 file
  pure { wLength, wValueLength, wType, szKey, valuePosition, value }

/-- What `StringTableRead` returns. -/
structure StringTableObj where
  wLength : Nat
  wValueLength : Nat
  wType : Nat
  szKey : List Units
  children : List StringObj
  deriving DecidableEq

/-- `StringTableRead` -/
def StringTableRead : Read StringTableObj := do
  let wLength ← WORD file
  let wValueLength ← WORD file
  let wType ← WORD file
  let szKey ← ReadUnicodeUTF16 file
  let key := UTF16toJSString szKey
  check (wValueLength = 0) "The value length was not equal to 0, it should be for StringTableRead"
  check (wType = 1 || wType = 0) "The String Table type was not 1 or 0, it was: "
  check (key.length = 8)
    "The String Table key should be an 8 digit hexidecimal as unicode string, it was: "
  let paddingSize ← ReadPadding file
  let lengthOfChildren : Int := wLength - 6 - key.length * 2 - paddingSize
  let children ← readChildren file 0 (StringRead file) StringObj.wLength lengthOfChildren
  pure { wLength, wValueLength, wType, szKey, children }

/-- What `VarRead` returns. -/
structure VarObj where
  wLength : Nat
  wValueLength : Nat
  wType : Nat
  szKey : List Units
  children : List Nat
  deriving DecidableEq

/-- `Translation` -/
def translation : Units := units ['T', 'r', 'a', 'n', 's', 'l', 'a', 't', 'i', 'o', 'n']

/-- One turn of the loop of `VarRead`, over `lengthOfChildren` and
`obj.Children`. -/
def varTurn (vars : Int × List Nat) : Read (Int × List Nat) := do
  let child ← DWORD file
  pure (vars.1 - 4, vars.2 ++ [child])

/-- `VarRead` -/
def VarRead : Read VarObj := do
  let wLength ← WORD file
  let wValueLength ← WORD file
  let wType ← WORD file
  check (wType = 1 || wType = 0) "The String Table type was not 1 or 0, it was: "
  let szKey ← ReadUnicodeUTF16 file
  let key := UTF16toJSString szKey
  check (key = translation)
    "The Var key did not match expected value Translation, instead it was: "
  let _ ← ReadPadding file
  let lengthOfChildren : Int := wValueLength
  let vars ← loop (fun vars _ => vars.1 ≠ 0) (varTurn file) (lengthOfChildren, [])
  pure { wLength, wValueLength, wType, szKey, children := vars.2 }

/-- The `Children` of a `VarFileInfo` or a `StringFileInfo`. -/
inductive InfoChildren
  | vars (children : List VarObj)
  | tables (children : List StringTableObj)
  deriving DecidableEq

/-- What `VarFileOrStringFileInfoRead` returns. -/
structure InfoObj where
  wLength : Nat
  wValueLength : Nat
  wType : Nat
  szKey : List Units
  children : InfoChildren
  deriving DecidableEq

/-- `VarFileInfo` -/
def varFileInfo : Units := units ['V', 'a', 'r', 'F', 'i', 'l', 'e', 'I', 'n', 'f', 'o']

/-- `StringFileInfo` -/
def stringFileInfo : Units :=
  units ['S', 't', 'r', 'i', 'n', 'g', 'F', 'i', 'l', 'e', 'I', 'n', 'f', 'o']

/-- The part of `VarFileOrStringFileInfoRead` for the children. -/
def InfoChildrenRead (wLength : Nat) (key : Units) (paddingSize : Nat) : Read InfoChildren :=
  if key = varFileInfo then do
    let child ← VarRead file
    pure (.vars [child])
  else if key = stringFileInfo then do
    let lengthOfChildren : Int := wLength - (key.length + 1) * 2 - 6 - paddingSize
    let children ← readChildren file 0 (StringTableRead file) StringTableObj.wLength
      lengthOfChildren
    pure (.tables children)
  else do
    check false "Invalid child key found: "
    pure (.vars [])

/-- `VarFileOrStringFileInfoRead` -/
def VarFileOrStringFileInfoRead : Read InfoObj := do
  let wLength ← WORD file
  let wValueLength ← WORD file
  check (wValueLength = 0)
    "The value length was not equal to 0, it should be for VarFileInfo or StringFileInfo"
  let wType ← WORD file
  let szKey ← ReadUnicodeUTF16 file
  let key := UTF16toJSString szKey
  let paddingSize ← ReadPadding file
  let children ← InfoChildrenRead file wLength key paddingSize
  pure { wLength, wValueLength, wType, szKey, children }

/-- The value of the resource. -/
structure FixedFileInfo where
  dwSignature : Nat
  dwStrucVersion : Nat
  dwFileVersionMS : Nat
  dwFileVersionLS : Nat
  dwProductVersionMS : Nat
  dwProductVersionLS : Nat
  dwFileFlagsMask : Nat
  dwFileFlags : Nat
  dwFileOS : Nat
  dwFileType : Nat
  dwFileSubtype : Nat
  dwFileDateMS : Nat
  dwFileDateLS : Nat
  deriving DecidableEq

/-- Reading the value. -/
def FixedFileInfoRead : Read FixedFileInfo := do
  let dwSignature ← DWORD file
  let dwStrucVersion ← DWORD file
  let dwFileVersionMS ← DWORD file
  let dwFileVersionLS ← DWORD file
  let dwProductVersionMS ← DWORD file
  let dwProductVersionLS ← DWORD file
  let dwFileFlagsMask ← DWORD file
  let dwFileFlags ← DWORD file
  let dwFileOS ← DWORD file
  let dwFileType ← DWORD file
  let dwFileSubtype ← DWORD file
  let dwFileDateMS ← DWORD file
  let dwFileDateLS ← DWORD file
  pure { dwSignature, dwStrucVersion, dwFileVersionMS, dwFileVersionLS, dwProductVersionMS,
         dwProductVersionLS, dwFileFlagsMask, dwFileFlags, dwFileOS, dwFileType, dwFileSubtype,
         dwFileDateMS, dwFileDateLS }

/-- What `ResourceDataVersionRead` returns. -/
structure VersionObj where
  wLength : Nat
  wValueLength : Nat
  wType : Nat
  szKey : List Units
  valuePosition : Nat
  value : Option FixedFileInfo
  children : List InfoObj
  childrenItem : Nat
  deriving DecidableEq

/-- `VS_VERSION_INFO` -/
def vsVersionInfo : Units :=
  units ['V', 'S', '_', 'V', 'E', 'R', 'S', 'I', 'O', 'N', '_', 'I', 'N', 'F', 'O']

/-- The part of `ResourceDataVersionRead` for the value. -/
def ValueRead (wValueLength valuePosition : Nat) : Read (Option FixedFileInfo) :=
  if wValueLength ≠ 0 then do
    let value ← FixedFileInfoRead file
    let position ← get
    check (position - valuePosition = wValueLength) "VSVERSION_INFO.Value structure was "
    check (value.dwSignature = 0xFEEF04BD)
      "VSVERSION_INFO.dwSignature should have been 0xFEEF04BD, instead we got"
    pure (some value)
  else pure none

/-- `ResourceDataVersionRead` -/
def ResourceDataVersionRead : Read VersionObj := do
  let wLength ← WORD file
  let wValueLength ← WORD file
  let wType ← WORD file
  let szKey ← ReadUnicodeUTF16 file
  let key := UTF16toJSString szKey
  check (key = vsVersionInfo) "Expected VS_VERSION_INFO got "
  let paddingSize ← ReadPadding file
  let valuePosition ← get
  let value ← ValueRead file wValueLength valuePosition
  let morePadding ← ReadPadding file
  let paddingSize := paddingSize + morePadding
  let lengthOfChildren : Int :=
    wLength - 6 - (key.length + 1) * 2 - paddingSize - wValueLength
  let children ← readChildren file 2 (VarFileOrStringFileInfoRead file) InfoObj.wLength
    lengthOfChildren
  let childrenItem ← WORD file
  pure { wLength, wValueLength, wType, szKey, valuePosition, value, children, childrenItem }

end Readers

end VersionInfo

import Tint.Exe.File
import Tint.FilePatch

/-!
# Stamping an executable

The compiler writes the icon images and the strings of the package into a copy
of the runtime, in place.  `stampwindows` reads the tree and writes the pixels of
each icon; `winmanifest` reads the tree again and writes a value for each version
string that it knows.  The positions are those of the tree, the lengths are not:
an image has four bytes for each pixel, and a text the bytes that `convtoucs2`
makes of it, whatever room there is.

The runtime of the compiler itself has icons of 32 bits and values of 50
characters, with spaces at the end.
-/

namespace Stamping

open FileReader FilePatch ExeFile
open VersionInfo (Units units)

/-- What a function has written, and whether it threw. -/
structure Stamps where
  patches : List Patch
  threw : Bool
  deriving DecidableEq

/-! ## Icons -/

/-- The bytes between the header of a bitmap and its pixels: masks, and a colour table, which
with up to 8 bits to a pixel has a colour for each value, unless the header says how many. -/
def tableSize (icon : IconObj) : Nat :=
  (if icon.biCompression = 3 ∧ icon.biSize = 40 then 12 else 0) +
    4 * (if icon.biClrUsed = 0 ∧ 1 ≤ icon.biBitCount ∧ icon.biBitCount ≤ 8 then 2 ^ icon.biBitCount
      else icon.biClrUsed)

/-- Where the pixels begin; `position` is that of the 41st byte of the bitmap. -/
def pixelStart (icon : IconObj) : Int := icon.position - 40 + icon.biSize + tableSize icon

/-- The bytes of the pixels: rows of whole double words, half as many as the height says,
since the mask is counted too. -/
def pixelSize (icon : IconObj) : Int :=
  4 * ((icon.biWidth * icon.biBitCount + 31) / 32) * (icon.biHeight / 2)

/-- An image of this size. -/
structure Image (size : Nat) where
  data : List UInt8
  length_eq : data.length = size * size * 4

/-- `imgdata`, by size. -/
abbrev Images := (size : Nat) → Option (Image size)

/-- The loop of `stampwindows` over the pixels: the rows from the last to the
first, and blue before red. -/
def Image.buffer {size : Nat} (image : Image size) : List UInt8 :=
  (List.range (size * size)).flatMap fun k =>
    let i := 4 * k
    let row := size - i / (4 * size)
    let col := i % (size * 4)
    let index := (row - 1) * (size * 4) + col
    [image.data.getD (index + 2) 0, image.data.getD (index + 1) 0, image.data.getD index 0,
      image.data.getD (index + 3) 0]

/-- `fs.writeSync` of the image for an icon, at `icon.getDataPosition()`; its field are the pixels
of the icon.  `none` is an image that there is not. -/
def iconPatch (imgdata : Images) (icon : IconObj) : Option Patch :=
  match icon.biWidth with
  | .ofNat size => (imgdata size).map fun image =>
      { start := pixelStart icon, size := pixelSize icon, position := icon.position,
        bytes := image.buffer }
  | .negSucc _ => none

/-- `Directory.Entries` -/
def directory? : Entry → Option (List Entry)
  | .directory _ _ entries => some entries
  | .data _ _ _ => none

/-- `Data` -/
def data? : Entry → Option DataObj
  | .directory _ _ _ => none
  | .data _ _ data => some data

/-- `Directory.Entries[0].Data.Icon` -/
def icon? (entry : Entry) : Option IconObj := do
  let entries ← directory? entry
  let first ← entries.head?
  let data ← data? first
  data.icon

/-- The loop of `stampwindows`. -/
def stampIcons (imgdata : Images) : List Entry → Stamps
  | [] => ⟨[], false⟩
  | entry :: iconDb =>
    match (icon? entry).bind (iconPatch imgdata) with
    | none => ⟨[], true⟩
    | some patch =>
      let rest := stampIcons imgdata iconDb
      ⟨patch :: rest.patches, rest.threw⟩

/-- `w.Resources.Entries[0].Directory.Entries` -/
def iconDb (entries : List Entry) : Option (List Entry) := entries.head?.bind directory?

/-- What `stampwindows` writes into a file with this tree. -/
def iconStamps (imgdata : Images) (entries : List Entry) : Stamps :=
  match iconDb entries with
  | none => ⟨[], true⟩
  | some iconDb => stampIcons imgdata iconDb

/-! ## Strings -/

/-- The strings of the package; an empty one counts as none. -/
structure Values where
  author : Units := []
  description : Units := []
  version : Units := []
  name : Units := []
  longname : Units := []
  copyright : Units := []

/-- The second loop of `convtoucs2`, whose end moves with `z`. -/
def pushZeros : Nat → Nat → List UInt8 → List UInt8
  | 0, _, z => z
  | turns + 1, i, z =>
    if (i : Int) < 110 - 2 * z.length then pushZeros turns (i + 1) (z ++ [0]) else z

/-- `$tint.convtoucs2` -/
def convtoucs2 (str : Units) : List UInt8 :=
  pushZeros 110 0 ((str.take 111).flatMap fun u => [UInt8.ofNat u, 0])

/-- The key of a string, as `recurseManifest` makes it: a character that is one
unit has no second one. -/
def keyOf (szKey : List Units) : Units :=
  szKey.flatMap fun e =>
    match e with
    | [] => []
    | [a] => a :: units ['u', 'n', 'd', 'e', 'f', 'i', 'n', 'e', 'd']
    | a :: b :: _ => if b = 0 then [a] else [a, b]

/-- What `recurseManifest` does for a key. -/
inductive Action
  | write (value : Units)
  | warn
  | throw
  deriving DecidableEq

/-- A value that need not be there. -/
def optional (value : Units) : Action := if value = [] then .warn else .write value

/-- A value that has to be there. -/
def required (value : Units) : Action := if value = [] then .throw else .write value

/-- The `switch` of `recurseManifest`. -/
def action (values : Values) (key : Units) : Action :=
  if key = units ['C', 'o', 'm', 'p', 'a', 'n', 'y', 'N', 'a', 'm', 'e'] then optional values.author
  else if key =
      units ['F', 'i', 'l', 'e', 'D', 'e', 's', 'c', 'r', 'i', 'p', 't', 'i', 'o', 'n'] then
    optional values.description
  else if key = units ['F', 'i', 'l', 'e', 'V', 'e', 'r', 's', 'i', 'o', 'n'] then
    optional values.version
  else if key = units ['I', 'n', 't', 'e', 'r', 'n', 'a', 'l', 'N', 'a', 'm', 'e'] then
    required values.name
  else if key = units ['L', 'e', 'g', 'a', 'l', 'C', 'o', 'p', 'y', 'r', 'i', 'g', 'h', 't'] then
    optional values.copyright
  else if key =
      units ['O', 'r', 'i', 'g', 'i', 'n', 'a', 'l', 'F', 'i', 'l', 'e', 'n', 'a', 'm', 'e'] then
    required values.name
  else if key = units ['P', 'r', 'o', 'd', 'u', 'c', 't', 'N', 'a', 'm', 'e'] then
    optional values.longname
  else if key = units ['P', 'r', 'o', 'd', 'u', 'c', 't', 'V', 'e', 'r', 's', 'i', 'o', 'n'] then
    optional values.version
  else .warn

/-- The room of a value: its characters and the terminator. -/
def valueSize (s : StringObj) : Int := 2 * (s.value.length + 1)

/-- `$tint.writebindata` of the text for a value. -/
def valuePatch (s : StringObj) (value : Units) : Patch where
  start := s.valuePosition
  size := valueSize s
  position := s.valuePosition
  bytes := convtoucs2 (value.take 50)

/-- `recurseManifest` -/
def recurseManifest (values : Values) : List StringObj → Stamps
  | [] => ⟨[], false⟩
  | s :: point =>
    match action values (keyOf s.szKey) with
    | .throw => ⟨[], true⟩
    | .warn => recurseManifest values point
    | .write value =>
      let rest := recurseManifest values point
      ⟨valuePatch s value :: rest.patches, rest.threw⟩

/-- `Children[0].Children` of a child of the resource.  The translations of a
`Var` have no `szKey`. -/
def firstStrings : InfoChildren → Option (List StringObj)
  | .tables children => children.head?.map StringTableObj.children
  | .vars children => children.head?.bind fun var => if var.children = [] then some [] else none

/-- `Entries[2].Directory.Entries[0].Directory.Entries[0].Data.VersionInfo` -/
def versionInfo (entries : List Entry) : Option VersionObj := do
  let types ← entries[2]?
  let names ← directory? types
  let name ← names.head?
  let languages ← directory? name
  let language ← languages.head?
  let data ← data? language
  data.versionInfo

/-- `Children[0].Children[0].Children` of the version resource. -/
def container (entries : List Entry) : Option (List StringObj) := do
  let version ← versionInfo entries
  let info ← version.children.head?
  firstStrings info.children

/-- What `winmanifest` writes into a file with this tree. -/
def manifestStamps (values : Values) (entries : List Entry) : Stamps :=
  match container entries with
  | none => ⟨[], true⟩
  | some strings => recurseManifest values strings

/-! ## The packager -/

/-- The file after a function, what was written, and whether it threw. -/
structure Packed where
  patches : List Patch
  threw : Bool
  content : List UInt8

/-- Reading the tree, and writing what is made of it. -/
def stamp (stack fuel : Nat) (buffer : Nat → Nat → UInt8) (stamps : List Entry → Stamps)
    (content : List UInt8) : Option Packed :=
  match (WindowsExeRead stack).run ⟨content, buffer⟩ fuel ⟨0, []⟩ with
  | none => none
  | some (.error _, _) => some ⟨[], true, content⟩
  | some (.ok entries, _) =>
    some ⟨(stamps entries).patches, (stamps entries).threw,
      applyAll content (stamps entries).patches⟩

/-- `$tint.stampwindows` -/
def stampwindows (stack fuel : Nat) (buffer : Nat → Nat → UInt8) (imgdata : Images)
    (content : List UInt8) : Option Packed := stamp stack fuel buffer (iconStamps imgdata) content

/-- `$tint.winmanifest` -/
def winmanifest (stack fuel : Nat) (buffer : Nat → Nat → UInt8) (values : Values)
    (content : List UInt8) : Option Packed :=
  stamp stack fuel buffer (manifestStamps values) content

/-- `stampwindows` and then, if it did not throw, `winmanifest`. -/
def package (stack fuel : Nat) (buffer buffer' : Nat → Nat → UInt8) (imgdata : Images)
    (values : Values) (content : List UInt8) : Option Packed := do
  let icons ← stampwindows stack fuel buffer imgdata content
  if icons.threw then pure icons
  else do
    let strings ← winmanifest stack fuel buffer' values icons.content
    pure ⟨icons.patches ++ strings.patches, strings.threw, strings.content⟩

end Stamping

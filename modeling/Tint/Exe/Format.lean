import Tint.Exe.File

/-!
# What an executable leads the reader to

Where the structures of an executable lie, in terms of the bytes of the file: a
structure is *inside* when the bytes that its own lengths and terminators ask
for are in the file, up to the first assertion that does not hold, and so are
the structures that its offsets lead to.  Nothing is said about the number of
reads.

The reading ends and stays in the file exactly when all the file leads to is
inside.
-/

namespace ExeFile

open FileReader
open VersionInfo (Units readUIntLE utf8 UTF16toJSString translation varFileInfo stringFileInfo
  vsVersionInfo)
open Relation (ReflTransGen)

/-! ## Structures in a file -/

section Format

variable (c : List UInt8)

/-- The word at a position. -/
def wordAt (p : Int) : Nat := readUIntLE (bytesAt c p 2)

/-- The double word at a position. -/
def dwordAt (p : Int) : Nat := readUIntLE (bytesAt c p 4)

/-- The signed number at a position. -/
def longAt (p : Int) : Int := readInt32LE (bytesAt c p 4)

/-- The character at a position. -/
def charAt (p : Int) : Units := utf8 (byteAt c p).toNat (byteAt c (p + 1)).toNat

/-- The text at `p` has `k` characters before its end. -/
def EndsText (p : Int) (k : Nat) : Prop :=
  (∀ i : Nat, i < k → charAt c (p + 2 * i) ≠ [0, 0]) ∧ charAt c (p + 2 * k) = [0, 0] ∧
    Within c p (2 * k + 2)

/-- So many characters from a position on. -/
def textAt (p : Int) (k : Nat) : List Units :=
  (List.range k).map fun i : Nat => charAt c (p + 2 * i)

/-- The text that they are. -/
def keyAt (p : Int) (k : Nat) : Units := UTF16toJSString (textAt c p k)

/-- The padding from `p` to a multiple of four.  From an odd position on the
words never come to one; they have to come to one that is not zero. -/
def PaddingInside (p : Int) : Prop :=
  p % 4 = 0 ∨ (p % 4 = 2 ∧ Within c p 2) ∨
    (p % 2 = 1 ∧ ∃ k : Nat, Within c p (2 * k + 2) ∧ wordAt c (p + 2 * k) ≠ 0)

/-- The padding from `p` ends at `q`. -/
def PaddingAt (p q : Int) : Prop :=
  (p % 4 = 0 ∧ q = p) ∨ (p % 4 = 2 ∧ Within c p 2 ∧ wordAt c p = 0 ∧ q = p + 2)

/-- From one member of a structure to the next: the length that is left, and the position. -/
def NextMember (At : Int → Nat → Int → Prop) (stop : Int) (x y : Int × Int) : Prop :=
  x.1 ≠ stop ∧ ∃ wLength q, At x.2 wLength q ∧ PaddingAt c q y.2 ∧
    y.1 = x.1 - wLength - (y.2 - q)

/-- The members from `p` on, with a length for all of them, until it is exactly `stop`. -/
def MembersInside (Inside : Int → Prop) (At : Int → Nat → Int → Prop)
    (stop length p : Int) : Prop :=
  ∀ y, ReflTransGen (NextMember c At stop) (length, p) y → y.1 ≠ stop →
    Inside y.2 ∧ ∀ wLength q, At y.2 wLength q → PaddingInside c q

/-- The members between two positions. -/
def MembersAt (At : Int → Nat → Int → Prop) (stop length p q : Int) : Prop :=
  ReflTransGen (NextMember c At stop) (length, p) (stop, q)

/-- A string is inside. -/
def StringInside (p : Int) : Prop :=
  Within c p 6 ∧ ∃ k, EndsText c (p + 6) k ∧ PaddingInside c (p + 8 + 2 * k) ∧
    ∀ q, PaddingAt c (p + 8 + 2 * k) q → ∃ j, EndsText c q j

/-- A string, with its length and its end. -/
def StringAt (p : Int) (wLength : Nat) (q : Int) : Prop :=
  Within c p 6 ∧ wLength = wordAt c p ∧ ∃ k, EndsText c (p + 6) k ∧
    ∃ v, PaddingAt c (p + 8 + 2 * k) v ∧ ∃ j, EndsText c v j ∧ q = v + 2 * j + 2

/-- The length of the children of a table at `p` whose key has `k` characters. -/
def tableLength (p : Int) (k : Nat) (q : Int) : Int :=
  wordAt c p - 6 - k * 2 - (q - (p + 8 + 2 * k))

/-- A table is inside. -/
def TableInside (p : Int) : Prop :=
  Within c p 6 ∧ ∃ k, EndsText c (p + 6) k ∧
    (wordAt c (p + 2) = 0 → wordAt c (p + 4) = 1 ∨ wordAt c (p + 4) = 0 → k = 8 →
      PaddingInside c (p + 8 + 2 * k) ∧ ∀ q, PaddingAt c (p + 8 + 2 * k) q →
        MembersInside c (StringInside c) (StringAt c) 0 (tableLength c p k q) q)

/-- A table, with its length and its end. -/
def TableAt (p : Int) (wLength : Nat) (q : Int) : Prop :=
  Within c p 6 ∧ wLength = wordAt c p ∧ ∃ k, EndsText c (p + 6) k ∧ wordAt c (p + 2) = 0 ∧
    (wordAt c (p + 4) = 1 ∨ wordAt c (p + 4) = 0) ∧ k = 8 ∧ ∃ v, PaddingAt c (p + 8 + 2 * k) v ∧
      MembersAt c (StringAt c) 0 (tableLength c p k v) v q

/-- The translations are words of four bytes. -/
def VarInside (p : Int) : Prop :=
  Within c p 6 ∧ (wordAt c (p + 4) = 1 ∨ wordAt c (p + 4) = 0 → ∃ k, EndsText c (p + 6) k ∧
    (keyAt c (p + 6) k = translation →
      PaddingInside c (p + 8 + 2 * k) ∧ ∀ q, PaddingAt c (p + 8 + 2 * k) q →
        wordAt c (p + 2) % 4 = 0 ∧ Within c q (wordAt c (p + 2))))

/-- A `Var`, with its end. -/
def VarAt (p q : Int) : Prop :=
  Within c p 6 ∧ (wordAt c (p + 4) = 1 ∨ wordAt c (p + 4) = 0) ∧ ∃ k, EndsText c (p + 6) k ∧
    keyAt c (p + 6) k = translation ∧ ∃ v, PaddingAt c (p + 8 + 2 * k) v ∧
      wordAt c (p + 2) % 4 = 0 ∧ Within c v (wordAt c (p + 2)) ∧ q = v + wordAt c (p + 2)

/-- The length of the children of a `StringFileInfo` at `p` whose key has `k` characters. -/
def infoLength (p : Int) (k : Nat) (q : Int) : Int :=
  wordAt c p - (k + 1) * 2 - 6 - (q - (p + 8 + 2 * k))

/-- An information block is inside. -/
def InfoInside (p : Int) : Prop :=
  Within c p 4 ∧ (wordAt c (p + 2) = 0 → Within c (p + 4) 2 ∧ ∃ k, EndsText c (p + 6) k ∧
    PaddingInside c (p + 8 + 2 * k) ∧ ∀ q, PaddingAt c (p + 8 + 2 * k) q →
      (keyAt c (p + 6) k = varFileInfo → VarInside c q) ∧
        (keyAt c (p + 6) k = stringFileInfo →
          MembersInside c (TableInside c) (TableAt c) 0 (infoLength c p k q) q))

/-- An information block, with its length and its end. -/
def InfoAt (p : Int) (wLength : Nat) (q : Int) : Prop :=
  Within c p 6 ∧ wLength = wordAt c p ∧ wordAt c (p + 2) = 0 ∧ ∃ k, EndsText c (p + 6) k ∧
    ∃ v, PaddingAt c (p + 8 + 2 * k) v ∧
      ((keyAt c (p + 6) k = varFileInfo ∧ VarAt c v q) ∨
        (keyAt c (p + 6) k = stringFileInfo ∧
          MembersAt c (TableAt c) 0 (infoLength c p k v) v q))

/-- The value of `n` bytes at `p` is there and is what the reader expects. -/
def ValueExpected (n : Nat) (p : Int) : Prop := n = 0 ∨ (n = 52 ∧ dwordAt c p = 0xFEEF04BD)

/-- The length of the children of a version resource at `p`, whose key has `k`
characters, whose value begins at `v` and whose children begin at `q`. -/
def versionLength (p : Int) (k : Nat) (v q : Int) : Int :=
  wordAt c p - 6 - (k + 1) * 2 - ((v - (p + 8 + 2 * k)) + (q - (v + wordAt c (p + 2)))) -
    wordAt c (p + 2)

/-- A version resource is inside. -/
def VersionInside (p : Int) : Prop :=
  Within c p 6 ∧ ∃ k, EndsText c (p + 6) k ∧ (keyAt c (p + 6) k = vsVersionInfo →
    PaddingInside c (p + 8 + 2 * k) ∧ ∀ v, PaddingAt c (p + 8 + 2 * k) v →
      (wordAt c (p + 2) ≠ 0 → Within c v 52) ∧ (ValueExpected c (wordAt c (p + 2)) v →
        PaddingInside c (v + wordAt c (p + 2)) ∧ ∀ q, PaddingAt c (v + wordAt c (p + 2)) q →
          MembersInside c (InfoInside c) (InfoAt c) 2 (versionLength c p k v q) q ∧
            ∀ e, MembersAt c (InfoAt c) 2 (versionLength c p k v q) q e → Within c e 2))

/-- The resource of this type at `p`. -/
def ResourceInside (p : Int) (type : Nat) : Prop :=
  (type = RT_ICON → Within c p 40) ∧
    (type = RT_GROUP_ICON → Within c p 6 ∧ Within c p (6 + 14 * wordAt c (p + 4))) ∧
      (type = RT_VERSION → VersionInside c p)

variable (sections : List SectionHeader) (resourcePosition : Int)

/-- The data at `p`, below the entries with these names. -/
def DataInside (names : List Nat) (p : Int) : Prop :=
  Within c p 16 ∧ ∀ index type, names[2]? = some index → resourceType (some index) = some type →
    ResourceInside c (GETOFFSETBYADDRESS (dwordAt c p) sections) type

/-- Where the entry at `p` leads. -/
def target (p : Int) : Int := resourcePosition + STRIPHIGHBIT (dwordAt c (p + 4))

/-- The number of entries of the directory at `p`. -/
def entryCount (p : Int) : Nat := wordAt c (p + 12) + wordAt c (p + 14)

/-- The entry at `p` leads to no directory, or to one that is not too deep. -/
def EntryShallow (shallow : Int → Prop) (p : Int) : Prop :=
  HIGHBIT (dwordAt c (p + 4)) = true → shallow (target c resourcePosition p)

/-- The directories from `p` on are no deeper than the stack. -/
def Shallow : Nat → Int → Prop
  | 0, _ => False
  | stack + 1, p => ∀ i : Nat, i < entryCount c p →
      EntryShallow c resourcePosition (Shallow stack) (p + 16 + 8 * i)

/-- The entry at `p`, and the directory or the data that it leads to. -/
def EntryInside (directory : List Nat → Int → Prop) (names : List Nat) (p : Int) : Prop :=
  Within c p 8 ∧
    (HIGHBIT (dwordAt c (p + 4)) = true →
      directory (dwordAt c p :: names) (target c resourcePosition p)) ∧
    (HIGHBIT (dwordAt c (p + 4)) = false →
      DataInside c sections (dwordAt c p :: names) (target c resourcePosition p))

/-- The directory at `p` and its entries, up to one that is too deep for the stack. -/
def DirectoryInside : Nat → List Nat → Int → Prop
  | 0, _, _ => True
  | stack + 1, names, p => Within c p 16 ∧ ∀ i : Nat, i < entryCount c p →
      (∀ j : Nat, j < i →
        EntryShallow c resourcePosition (Shallow c resourcePosition stack) (p + 16 + 8 * j)) →
      EntryInside c sections resourcePosition (DirectoryInside stack) names (p + 16 + 8 * i)

end Format

section File

variable (c : List UInt8)

/-- The section header at `p`. -/
def sectionAt (p : Int) : SectionHeader where
  virtualAddress := dwordAt c (p + 12)
  sizeOfRawData := dwordAt c (p + 16)
  pointerToRawData := dwordAt c (p + 20)

/-- The size of the optional header at `p`, for the two sizes of an address. -/
def optionalSize (p : Int) : Nat := if wordAt c p = 0x10b then 224 else 240

/-- The size of the new header at `p`, before the sections. -/
def headerSize (p : Int) : Nat := 24 + optionalSize c (p + 24)

/-- The sections of the new header at `p`. -/
def sectionsAt (p : Int) : List SectionHeader :=
  valuesAt (sectionAt c) 40 (wordAt c (p + 6)) (p + headerSize c p)

/-- The position of the resources of the new header at `p`. -/
def resourceAt (p : Int) : Int :=
  GETOFFSETBYADDRESS (dwordAt c (p + headerSize c p - 112)) (sectionsAt c p)

/-- The new header at `p`, its sections and the resources. -/
def HeadersInside (stack : Nat) (p : Int) : Prop :=
  Within c p 48 ∧ (wordAt c (p + 24) = 0x10b ∨ wordAt c (p + 24) = 0x20b →
    Within c p (headerSize c p + 40 * wordAt c (p + 6)) ∧
      DirectoryInside c (sectionsAt c p) (resourceAt c p) stack [] (resourceAt c p))

/-- Everything that the file leads to is inside. -/
def ExeInside (stack : Nat) : Prop :=
  Within c 0 2 ∧ (wordAt c 0 = IMAGE_DOS_SIGNATURE →
    Within c 0 64 ∧ HeadersInside c stack (longAt c 60))

end File

end ExeFile

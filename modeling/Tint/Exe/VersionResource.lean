import Mathlib.Data.List.Basic
import Tint.Exe.VersionInfo

/-!
# Version resources and what the reader makes of them

`Resource` is a well-formed `VS_VERSIONINFO`: each member has its length, its
key and its value or members, with padding to 32 bits between them, and `words`
is the resource as it stands in a file.

At each level there are two lemmas about the loop over the members.  One says
that the loop returns them if the length it starts with comes out even, the
other that it cannot return the right number of them otherwise: a loop with
bytes left reads one member more than there is.

* `strings_returns`, `strings_ok` -- the strings of a table;
* `tables_ok`, `children_returns`, `children_ok` -- the levels above;
* `readCorrectly_iff` -- the reader returns the tree of a resource, and reads
  nothing behind it, if and only if the resource is `Readable`;
* `table_without_end` -- a table whose string ends on a boundary is not read.
-/

namespace VersionInfo

open Program

/-! ## The format -/

/-- The zeros after `n` words, up to the next 32-bit boundary. -/
def padding (n : Nat) : List Nat := List.replicate (n % 2) 0

/-- The words of a member up to its value: three fields, the key with its
terminator, and padding. -/
def header (wLength wValueLength wType : Nat) (key : Units) : List Nat :=
  wLength :: wValueLength :: wType :: key ++ 0 :: padding key.length

/-- The number of words of a header. -/
def headerSize (key : Units) : Nat := key.length + 4 + key.length % 2

/-- A member: `wLength` is its length in bytes. -/
def member (wValueLength wType : Nat) (key : Units) (content : List Nat) : List Nat :=
  header (2 * (headerSize key + content.length)) wValueLength wType key ++ content

/-- Members one after the other, with padding between them. -/
def joinPadded : List (List Nat) → List Nat
  | [] => []
  | [m] => m
  | m :: rest => m ++ padding m.length ++ joinPadded rest

/-- The keys of `StringRead`. -/
def supportedKeys : List Units :=
  [units ['C', 'o', 'm', 'm', 'e', 'n', 't', 's'],
   units ['C', 'o', 'm', 'p', 'a', 'n', 'y', 'N', 'a', 'm', 'e'],
   units ['F', 'i', 'l', 'e', 'D', 'e', 's', 'c', 'r', 'i', 'p', 't', 'i', 'o', 'n'],
   units ['F', 'i', 'l', 'e', 'V', 'e', 'r', 's', 'i', 'o', 'n'],
   units ['I', 'n', 't', 'e', 'r', 'n', 'a', 'l', 'N', 'a', 'm', 'e'],
   units ['L', 'e', 'g', 'a', 'l', 'C', 'o', 'p', 'y', 'r', 'i', 'g', 'h', 't'],
   units ['L', 'e', 'g', 'a', 'l', 'T', 'r', 'a', 'd', 'e', 'm', 'a', 'r', 'k', 's'],
   units ['O', 'r', 'i', 'g', 'i', 'n', 'a', 'l', 'F', 'i', 'l', 'e', 'n', 'a', 'm', 'e'],
   units ['P', 'r', 'i', 'v', 'a', 't', 'e', 'B', 'u', 'i', 'l', 'd'],
   units ['P', 'r', 'o', 'd', 'u', 'c', 't', 'N', 'a', 'm', 'e'],
   units ['P', 'r', 'o', 'd', 'u', 'c', 't', 'V', 'e', 'r', 's', 'i', 'o', 'n'],
   units ['S', 'p', 'e', 'c', 'i', 'a', 'l', 'B', 'u', 'i', 'l', 'd']]

/-- A `String`: any code units but the terminator. -/
structure StringMember where
  wType : Fin 2
  key : Units
  supported : key ∈ supportedKeys
  value : Units
  unit : ∀ u ∈ value, 0 < u ∧ u < 65536

/-- The words of a `String`; its value is counted in words. -/
def StringMember.words (s : StringMember) : List Nat :=
  member (s.value.length + 1) s.wType s.key (s.value ++ [0])

/-- The code units of the hexadecimal digits. -/
def isHexDigit (u : Nat) : Bool :=
  (48 ≤ u && u ≤ 57) || (65 ≤ u && u ≤ 70) || (97 ≤ u && u ≤ 102)

/-- A `StringTable`. -/
structure TableMember where
  wType : Fin 2
  key : Units
  digits : key.length = 8 ∧ ∀ u ∈ key, isHexDigit u = true
  strings : List StringMember

/-- The words of a `StringTable`. -/
def TableMember.words (t : TableMember) : List Nat :=
  member 0 t.wType t.key (joinPadded (t.strings.map StringMember.words))

/-- The two words of a `DWORD`. -/
def dword (v : Nat) : List Nat := [v % 65536, v / 65536]

/-- A `Var`. -/
structure VarMember where
  wType : Fin 2
  values : List Nat

/-- The words of a `Var`. -/
def VarMember.words (v : VarMember) : List Nat :=
  member (4 * v.values.length) v.wType translation (v.values.flatMap dword)

/-- A child of the resource. -/
inductive InfoMember
  | stringFileInfo (wType : Fin 2) (tables : List TableMember)
  | varFileInfo (wType : Fin 2) (vars : List VarMember)

/-- The words of a child. -/
def InfoMember.words : InfoMember → List Nat
  | .stringFileInfo wType tables =>
    member 0 wType VersionInfo.stringFileInfo (joinPadded (tables.map TableMember.words))
  | .varFileInfo wType vars =>
    member 0 wType VersionInfo.varFileInfo (joinPadded (vars.map VarMember.words))

/-- The fields of the value in their order. -/
def FixedFileInfo.fields (v : FixedFileInfo) : List Nat :=
  [v.dwSignature, v.dwStrucVersion, v.dwFileVersionMS, v.dwFileVersionLS, v.dwProductVersionMS,
   v.dwProductVersionLS, v.dwFileFlagsMask, v.dwFileFlags, v.dwFileOS, v.dwFileType,
   v.dwFileSubtype, v.dwFileDateMS, v.dwFileDateLS]

/-- The resource, with or without a value. -/
structure Resource where
  wType : Fin 2
  value : Option FixedFileInfo
  signed : ∀ v, value = some v → v.dwSignature = 0xFEEF04BD
  children : List InfoMember

/-- The words of the value. -/
def Resource.valueWords (r : Resource) : List Nat :=
  match r.value with
  | none => []
  | some v => v.fields.flatMap dword

/-- The words of the resource.  The value ends on a 32-bit boundary. -/
def Resource.words (r : Resource) : List Nat :=
  member (2 * r.valueWords.length) r.wType vsVersionInfo
    (r.valueWords ++ joinPadded (r.children.map InfoMember.words))

/-! ## The tree -/

/-- A string of the tree: key, value and the position of the value. -/
abbrev StringView := Units × Units × Nat

/-- A table of the tree: key and strings. -/
abbrev TableView := Units × List StringView

/-- The tree that was read. -/
def StringObj.view (s : StringObj) : StringView :=
  (UTF16toJSString s.szKey, UTF16toJSString s.value, s.valuePosition)

/-- What a reader of the table sees. -/
def StringTableObj.view (t : StringTableObj) : TableView :=
  (UTF16toJSString t.szKey, t.children.map StringObj.view)

/-- The tables of a child. -/
def InfoChildren.tablesView : InfoChildren → List TableView
  | .vars _ => []
  | .tables children => children.map StringTableObj.view

/-- What a reader of the resource sees. -/
def VersionObj.view (r : VersionObj) : List (List TableView) :=
  r.children.map fun c => c.children.tablesView

/-- What stands at the positions from `p` on, for members one after the other. -/
def placed {α β : Type} (words : α → List Nat) (at' : α → Nat → β) : Nat → List α → List β
  | _, [] => []
  | p, a :: rest =>
    at' a p :: placed words at' (p + 2 * ((words a).length + (words a).length % 2)) rest

/-- The string as it should be read, for a `String` at position `p`. -/
def StringMember.view (s : StringMember) (p : Nat) : StringView :=
  (s.key, s.value, p + 2 * headerSize s.key)

/-- A table at position `p`. -/
def TableMember.view (t : TableMember) (p : Nat) : TableView :=
  (t.key, placed StringMember.words StringMember.view (p + 2 * headerSize t.key) t.strings)

/-- A child at position `p`. -/
def InfoMember.view (c : InfoMember) (p : Nat) : List TableView :=
  match c with
  | .stringFileInfo _ tables =>
    placed TableMember.words TableMember.view (p + 2 * headerSize VersionInfo.stringFileInfo) tables
  | .varFileInfo _ _ => []

/-- The resource at position `p`. -/
def Resource.view (r : Resource) (p : Nat) : List (List TableView) :=
  placed InfoMember.words InfoMember.view
    (p + 2 * (headerSize vsVersionInfo + r.valueWords.length)) r.children

/-! ## Correct reading -/

section File

variable (file : File)

/-- The word at a position. -/
def word (p : Nat) : Nat := (file p).toNat + 256 * (file (p + 1)).toNat

/-- The words stand in the file from position `p` on. -/
def Holds : Nat → List Nat → Prop
  | _, [] => True
  | p, w :: rest => word file p = w ∧ Holds (p + 2) rest

/-- The resource at position `p` is read correctly: the reader returns, all it
has read lies inside the resource (positions only move forward), and the tree
has the tables and strings of the resource, each string with the position of its
value. -/
def ReadCorrectly (p : Nat) (r : Resource) : Prop :=
  ∃ fuel obj q, ResourceDataVersionRead file fuel p = .ok (obj, q) ∧
    q ≤ p + 2 * r.words.length ∧ obj.view = r.view p

end File

/-- The loop over the strings of a table ends after the last one: its value has
an even number of code units, so two bytes of padding follow it. -/
def TableMember.Closed (t : TableMember) : Prop :=
  ∃ s, t.strings.getLast? = some s ∧ s.value.length % 2 = 0

/-- The code finds the end of the child: the end of a table, if there is one,
or of the only `Var`. -/
def InfoMember.Passed : InfoMember → Prop
  | .stringFileInfo _ tables => tables.length ≤ 1 ∧ ∀ t ∈ tables, t.Closed
  | .varFileInfo _ vars => vars.length = 1

/-- The tables of a child. -/
def InfoMember.tables : InfoMember → List TableMember
  | .stringFileInfo _ tables => tables
  | .varFileInfo _ _ => []

/-- The code unit is the first character of its two bytes in UTF-8. -/
def Plain (u : Nat) : Prop := u < 0x80 ∨ u = 0xFFFD

/-- The resources the reader can read. -/
structure Resource.Readable (r : Resource) : Prop where
  /-- The last child has a second `Var`, whose first word is read at the end;
  of the others the code finds the end; there is one table, whose padding makes
  up for the two bytes with which the loop over the children stops. -/
  children : ∃ cs wType vars, r.children = cs ++ [.varFileInfo wType vars] ∧ 2 ≤ vars.length ∧
    (∀ c ∈ cs, c.Passed) ∧ (cs.flatMap InfoMember.tables).length = 1
  /-- The values are ASCII, up to the replacement character. -/
  plain : ∀ c ∈ r.children, ∀ t ∈ c.tables, ∀ s ∈ t.strings, ∀ u ∈ s.value, Plain u

/-! ## Moving forward -/

/-- A reader does not move back. -/
abbrev Forward {α : Type} (m : Read α) : Prop := Keeps (fun p q : Nat => p ≤ q) m

section Forward

variable {file : File} {α β : Type}

theorem Forward.bind {m : Read α} {f : α → Read β} (hm : Forward m) (hf : ∀ a, Forward (f a)) :
    Forward (m >>= f) :=
  Keeps.bind (R := fun p q : Nat => p ≤ q) (fun _ _ _ => Nat.le_trans) hm hf

theorem Forward.pure (a : α) : Forward (pure a : Read α) := Keeps.pure Nat.le_refl a

theorem Forward.get : Forward (get : Read Nat) := Keeps.get Nat.le_refl

theorem Forward.check (c : Bool) (e : String) : Forward (check c e : Read Unit) :=
  Keeps.check Nat.le_refl c e

theorem Forward.loop {cond : β → Nat → Bool} {body : β → Read β} (h : ∀ b, Forward (body b))
    (b : β) : Forward (loop cond body b) :=
  Keeps.loop Nat.le_refl (fun _ _ _ => Nat.le_trans) h b

theorem forward_READ (size : Nat) : Forward (READ file size) := by
  intro fuel p a q h
  cases h
  exact Nat.le_add_right p size

theorem forward_WORD : Forward (WORD file) := (forward_READ 2).bind fun _ => Forward.pure _

theorem forward_DWORD : Forward (DWORD file) := (forward_READ 4).bind fun _ => Forward.pure _

theorem forward_WCHAR : Forward (WCHAR file) := (forward_READ 2).bind fun _ => Forward.pure _

theorem forward_ReadUnicodeUTF16 : Forward (ReadUnicodeUTF16 file) :=
  forward_WCHAR.bind fun _ =>
    (Forward.loop (fun _ => forward_WCHAR.bind fun _ => Forward.pure _) _).bind fun _ =>
      Forward.pure _

theorem forward_ReadPadding : Forward (ReadPadding file) :=
  Forward.get.bind fun _ =>
    (Forward.loop (fun _ => forward_WORD.bind fun _ => Forward.check _ _) _).bind fun _ =>
      Forward.get.bind fun _ => Forward.pure _

theorem forward_childTurn {read : Read α} (h : Forward read) (wLength : α → Nat)
    (vars : Int × List α) : Forward (childTurn file read wLength vars) :=
  h.bind fun _ => forward_ReadPadding.bind fun _ => Forward.pure _

theorem forward_readChildren {read : Read α} (h : Forward read) (wLength : α → Nat)
    (stop length : Int) : Forward (readChildren file stop read wLength length) :=
  (Forward.loop (forward_childTurn h wLength) _).bind fun _ => Forward.pure _

theorem forward_StringRead : Forward (StringRead file) :=
  forward_WORD.bind fun _ => forward_WORD.bind fun _ => forward_WORD.bind fun _ =>
    forward_ReadUnicodeUTF16.bind fun _ => forward_ReadPadding.bind fun _ =>
      Forward.get.bind fun _ => forward_ReadUnicodeUTF16.bind fun _ => Forward.pure _

/-- Reading a table of strings goes forward. -/
theorem forward_StringTableRead : Forward (StringTableRead file) :=
  forward_WORD.bind fun _ => forward_WORD.bind fun _ => forward_WORD.bind fun _ =>
    forward_ReadUnicodeUTF16.bind fun _ => (Forward.check _ _).bind fun _ =>
      (Forward.check _ _).bind fun _ => (Forward.check _ _).bind fun _ =>
        forward_ReadPadding.bind fun _ =>
          (forward_readChildren forward_StringRead _ _ _).bind fun _ => Forward.pure _

/-- Reading a `Var` goes forward. -/
theorem forward_VarRead : Forward (VarRead file) :=
  forward_WORD.bind fun _ => forward_WORD.bind fun _ => forward_WORD.bind fun _ =>
    (Forward.check _ _).bind fun _ => forward_ReadUnicodeUTF16.bind fun _ =>
      (Forward.check _ _).bind fun _ => forward_ReadPadding.bind fun _ =>
        (Forward.loop (fun _ => forward_DWORD.bind fun _ => Forward.pure _) _).bind fun _ =>
          Forward.pure _

/-- Reading the children of an information block goes forward. -/
theorem forward_InfoChildrenRead (wLength : Nat) (key : Units) (paddingSize : Nat) :
    Forward (InfoChildrenRead file wLength key paddingSize) := by
  unfold InfoChildrenRead
  split
  · exact forward_VarRead.bind fun _ => Forward.pure _
  · split
    · exact (forward_readChildren forward_StringTableRead _ _ _).bind fun _ => Forward.pure _
    · exact (Forward.check _ _).bind fun _ => Forward.pure _

theorem forward_VarFileOrStringFileInfoRead : Forward (VarFileOrStringFileInfoRead file) :=
  forward_WORD.bind fun _ => forward_WORD.bind fun _ => (Forward.check _ _).bind fun _ =>
    forward_WORD.bind fun _ => forward_ReadUnicodeUTF16.bind fun _ =>
      forward_ReadPadding.bind fun _ => (forward_InfoChildrenRead _ _ _).bind fun _ =>
        Forward.pure _

end Forward

/-! ## Words in the file -/

section Reading

variable {file : File}

/-- Words in a row are held one part behind the other. -/
theorem holds_append {p : Nat} {a b : List Nat} :
    Holds file p (a ++ b) ↔ Holds file p a ∧ Holds file (p + 2 * a.length) b := by
  induction a generalizing p with
  | nil => simp [Holds]
  | cons w a ih =>
      have hp : p + 2 * (a.length + 1) = p + 2 + 2 * a.length := by omega
      simp only [List.cons_append, Holds, ih, List.length_cons, hp, and_assoc]

theorem headerSize_even (key : Units) : headerSize key % 2 = 0 := by
  unfold headerSize
  omega

theorem header_length (l v t : Nat) (key : Units) : (header l v t key).length = headerSize key := by
  simp [header, padding, headerSize]
  omega

theorem member_length (v t : Nat) (key : Units) (content : List Nat) :
    (member v t key content).length = headerSize key + content.length := by
  simp [member, header_length]

/-- A word is read. -/
theorem WORD_returns (p : Nat) : Returns (WORD file) p (word file p) (p + 2) :=
  Returns.of_eq fun _ => rfl

/-- Two words are read. -/
theorem DWORD_returns (p : Nat) :
    Returns (DWORD file) p (word file p + 65536 * word file (p + 2)) (p + 4) := by
  refine Returns.of_eq fun _ => ?_
  have hle : ∀ b0 b1 b2 b3 : UInt8, readUIntLE [b0, b1, b2, b3] =
      b0.toNat + 256 * b1.toNat + 65536 * (b2.toNat + 256 * b3.toNat) := by
    intro b0 b1 b2 b3
    simp only [readUIntLE, List.foldr]
    omega
  have := hle (file (p + 0)) (file (p + 1)) (file (p + 2)) (file (p + 3))
  simp only [Nat.add_zero] at this
  simp only [word, ← this, Nat.add_assoc]
  rfl

/-- A `DWORD` is put together from its words. -/
theorem DWORD_dword {p v : Nat} (h : Holds file p (dword v)) :
    Returns (DWORD file) p v (p + 4) := by
  have hlow : word file p = v % 65536 := h.1
  have hhigh : word file (p + 2) = v / 65536 := h.2.1
  have hv : word file p + 65536 * word file (p + 2) = v := by
    rw [hlow, hhigh]
    omega
  exact hv ▸ DWORD_returns p

/-- A word, read as two bytes of UTF-8. -/
def wchar (u : Nat) : Units := utf8 (u % 256) (u / 256)

/-- A character is the word at the position. -/
theorem WCHAR_returns (p : Nat) : Returns (WCHAR file) p (wchar (word file p)) (p + 2) := by
  refine Returns.of_eq fun _ => ?_
  have h0 := (file p).toNat_lt
  have hlow : word file p % 256 = (file p).toNat := by unfold word; omega
  have hhigh : word file p / 256 = (file (p + 1)).toNat := by unfold word; omega
  rw [wchar, hlow, hhigh]
  rfl

/-- Only the terminator ends a string. -/
theorem wchar_eq_zero (u : Nat) : wchar u = [0, 0] ↔ u = 0 := by
  constructor
  · intro h
    unfold wchar utf8 at h
    simp only at h
    split at h
    · simp only [List.cons.injEq, and_true] at h
      split at h <;> omega
    · split at h
      · split at h <;> simp at h
      · simp at h
  · rintro rfl
    rfl

/-- Which code units are the first character of their bytes. -/
theorem wchar_first (u : Nat) (h : u < 65536) : (wchar u).headD 0 = u ↔ Plain u := by
  unfold wchar utf8 Plain
  simp only
  split
  · simp only [List.headD_cons]
    omega
  · split
    · next hstart =>
      split
      · next hle =>
        simp only [startsCharacter, Bool.or_eq_true, Bool.and_eq_true, decide_eq_true_eq] at hstart
        simp only [List.headD_cons]
        omega
      · simp only [List.headD_cons]
        omega
    · simp only [List.headD_cons]
      omega

/-- Characters are read until a zero. -/
theorem chars_return {us : Units} {p : Nat} (str : List Units) (h : Holds file p (us ++ [0]))
    (hpos : ∀ u ∈ us, u ≠ 0) :
    LoopReturns (fun b _ => b.2 ≠ [0, 0])
      (fun b => do
        let next ← WCHAR file
        pure (b.1 ++ [b.2], next))
      (str, wchar (word file p)) (p + 2) (str ++ us.map wchar, [0, 0])
      (p + 2 * (us.length + 1)) := by
  induction us generalizing p str with
  | nil =>
      have hw : wchar (word file p) = [0, 0] := (wchar_eq_zero _).mpr h.1
      rw [hw, List.map_nil, List.append_nil]
      exact LoopReturns.done rfl
  | cons u us ih =>
      have hw : wchar (word file p) ≠ [0, 0] := fun he =>
        hpos u (by simp) (h.1 ▸ (wchar_eq_zero _).mp he)
      have hrest := ih (p := p + 2) (str ++ [wchar (word file p)]) h.2 fun v hv =>
        hpos v (by simp [hv])
      have hlist : str ++ [wchar (word file p)] ++ us.map wchar
          = str ++ (u :: us).map wchar := by simp [h.1]
      have hp : p + 2 + 2 * (us.length + 1) = p + 2 * ((u :: us).length + 1) := by
        simp only [List.length_cons]
        omega
      rw [hlist, hp] at hrest
      exact LoopReturns.turn (by simpa using hw)
        ((WCHAR_returns (p + 2)).bind (Returns.pure _ _)) hrest

/-- A terminated string is read up to its terminator. -/
theorem ReadUnicodeUTF16_returns {p : Nat} {us : Units} (h : Holds file p (us ++ [0]))
    (hpos : ∀ u ∈ us, u ≠ 0) :
    Returns (ReadUnicodeUTF16 file) p (us.map wchar) (p + 2 * (us.length + 1)) := by
  have := chars_return [] h hpos
  exact (WCHAR_returns p).bind ((Returns.loop this).bind (Returns.pure _ _))

/-- At a 32-bit boundary there is no padding. -/
theorem ReadPadding_none {p : Nat} (h : p % 4 = 0) : Returns (ReadPadding file) p 0 p := by
  have hloop : LoopReturns (fun _ position => position % 4 ≠ 0)
      (fun _ => do
        let word ← WORD file
        check (word = 0) "Padding values should be 0, at position: ") () p () p :=
    LoopReturns.done (by simp [h])
  have hsub : Returns (pure (p - p) : Read Nat) p 0 p := by
    rw [Nat.sub_self]
    exact Returns.pure _ _
  exact (Returns.get p).bind ((Returns.loop hloop).bind ((Returns.get p).bind hsub))

/-- Between boundaries it is one word, which must be zero. -/
theorem ReadPadding_word {p : Nat} (h : p % 4 = 2) (hzero : word file p = 0) :
    Returns (ReadPadding file) p 2 (p + 2) := by
  have hloop : LoopReturns (fun _ position => position % 4 ≠ 0)
      (fun _ => do
        let word ← WORD file
        check (word = 0) "Padding values should be 0, at position: ") () p () (p + 2) :=
    LoopReturns.turn (by simp [h])
      ((WORD_returns p).bind (Returns.check (by simpa using hzero) _ _))
      (LoopReturns.done (by simp; omega))
  have hsub : Returns (pure (p + 2 - p) : Read Nat) (p + 2) 2 (p + 2) := by
    rw [Nat.add_sub_cancel_left]
    exact Returns.pure _ _
  exact (Returns.get p).bind ((Returns.loop hloop).bind ((Returns.get (p + 2)).bind hsub))

/-- If it returns there, it has read that word. -/
theorem ReadPadding_ok {p fuel n q : Nat} (h : p % 4 = 2)
    (hok : ReadPadding file fuel p = .ok (n, q)) : n = 2 ∧ q = p + 2 := by
  by_cases hzero : word file p = 0
  · simpa using (ReadPadding_word h hzero).only fuel _ hok
  · obtain ⟨_, s', hloop, -⟩ := bind_ok ((Returns.get p).step hok)
    rcases loopFor_cases hloop with ⟨hdone, -⟩ | ⟨-, _, _, _, hbody, -⟩
    · simp [h] at hdone
    · obtain ⟨_, s'', hcheck, -⟩ := bind_ok (f := fun _ => (pure () : Read Unit))
        (show ((check (word file p = 0) "Padding values should be 0, at position: "
          : Read Unit) >>= fun _ => pure ()) fuel (p + 2) = .ok _ from
          bind_eq ((WORD_returns p).step hbody))
      simp [check, hzero] at hcheck

/-- The padding after a number of words from a boundary on. -/
theorem ReadPadding_returns {p n : Nat} (hp : p % 4 = 0) (h : Holds file (p + 2 * n) (padding n)) :
    Returns (ReadPadding file) (p + 2 * n) (2 * (n % 2)) (p + 2 * (n + n % 2)) := by
  rcases Nat.mod_two_eq_zero_or_one n with hn | hn
  · have hnone : Returns (ReadPadding file) (p + 2 * n) 0 (p + 2 * n) :=
      ReadPadding_none (by omega)
    simpa [hn] using hnone
  · have hzero : word file (p + 2 * n) = 0 := by
      simp only [padding, hn, List.replicate_one] at h
      exact h.1
    have := ReadPadding_word (by omega) hzero
    simpa [hn, Nat.mul_add, Nat.add_assoc] using this

/-! ## Headers -/

/-- The parts of a member in the file. -/
structure MemberAt (file : File) (p wLength wValueLength wType : Nat) (key : Units)
    (content : List Nat) : Prop where
  lengthAt : word file p = wLength
  valueLengthAt : word file (p + 2) = wValueLength
  typeAt : word file (p + 2 + 2) = wType
  keyAt : Holds file (p + 2 + 2 + 2) (key ++ [0])
  paddingAt : Holds file (p + 2 * (key.length + 4)) (padding key.length)
  contentAt : Holds file (p + 2 * headerSize key) content

/-- A member that the file holds is found there. -/
theorem memberAt {p v t : Nat} {key : Units} {content : List Nat}
    (h : Holds file p (member v t key content)) :
    MemberAt file p (2 * (headerSize key + content.length)) v t key content := by
  obtain ⟨hheader, hcontent⟩ := holds_append.mp h
  rw [header_length] at hcontent
  obtain ⟨hl, hv, ht, hkey⟩ := hheader
  have hsplit : key ++ 0 :: padding key.length = (key ++ [0]) ++ padding key.length := by simp
  replace hkey : Holds file (p + 2 + 2 + 2) ((key ++ [0]) ++ padding key.length) := hsplit ▸ hkey
  obtain ⟨hkey, hpad⟩ := holds_append.mp hkey
  have hp : p + 2 + 2 + 2 + 2 * (key ++ [0]).length = p + 2 * (key.length + 4) := by
    simp
    omega
  exact ⟨hl, hv, ht, hkey, hp ▸ hpad, hcontent⟩

section Header

variable {p l v t : Nat} {key : Units} {content : List Nat}

/-- The key is read. -/
theorem MemberAt.readKey (h : MemberAt file p l v t key content) (hpos : ∀ u ∈ key, u ≠ 0) :
    Returns (ReadUnicodeUTF16 file) (p + 2 + 2 + 2) (key.map wchar) (p + 2 * (key.length + 4)) := by
  have hp : p + 2 + 2 + 2 + 2 * (key.length + 1) = p + 2 * (key.length + 4) := by omega
  exact hp ▸ ReadUnicodeUTF16_returns h.keyAt hpos

/-- The padding after the key is read. -/
theorem MemberAt.readPadding (h : MemberAt file p l v t key content) (hp : p % 4 = 0) :
    Returns (ReadPadding file) (p + 2 * (key.length + 4)) (2 * (key.length % 2))
      (p + 2 * headerSize key) := by
  have hmod : (key.length + 4) % 2 = key.length % 2 := by omega
  have hpad : padding (key.length + 4) = padding key.length := by rw [padding, hmod, padding]
  have := ReadPadding_returns hp (hpad ▸ h.paddingAt)
  rwa [hmod] at this

end Header

/-- A key of ASCII characters. -/
def Ascii (key : Units) : Prop := ∀ u ∈ key, 0 < u ∧ u < 0x80

theorem Ascii.ne_zero {key : Units} (h : Ascii key) : ∀ u ∈ key, u ≠ 0 := fun u hu => by
  have := h u hu
  omega

/-- ASCII characters are read as they are. -/
theorem plain_toJSString {us : Units} (h : ∀ u ∈ us, u < 65536) :
    UTF16toJSString (us.map wchar) = us ↔ ∀ u ∈ us, Plain u := by
  induction us with
  | nil => simp [UTF16toJSString]
  | cons u us ih =>
      have hu := wchar_first u (h u (by simp))
      have hus := ih fun v hv => h v (by simp [hv])
      simp only [UTF16toJSString, List.map_cons, List.cons.injEq, List.forall_mem_cons, hu] at hus ⊢
      rw [hus]

theorem Ascii.toJSString {key : Units} (h : Ascii key) : UTF16toJSString (key.map wchar) = key :=
  (plain_toJSString fun u hu => by have := h u hu; omega).mpr fun u hu => .inl (h u hu).2

theorem ascii_supported : ∀ key ∈ supportedKeys, Ascii key := by
  unfold Ascii
  decide

theorem TableMember.ascii (t : TableMember) : Ascii t.key := fun u hu => by
  have := t.digits.2 u hu
  simp only [isHexDigit, Bool.or_eq_true, Bool.and_eq_true, decide_eq_true_eq] at this
  omega

theorem ascii_translation : Ascii translation := by
  unfold Ascii
  decide

theorem ascii_varFileInfo : Ascii varFileInfo := by
  unfold Ascii
  decide

theorem ascii_stringFileInfo : Ascii stringFileInfo := by
  unfold Ascii
  decide

theorem ascii_vsVersionInfo : Ascii vsVersionInfo := by
  unfold Ascii
  decide

/-! ## Strings -/

/-- What the reader makes of a `String` at position `p`. -/
def StringMember.read (s : StringMember) (p : Nat) : StringObj where
  wLength := 2 * s.words.length
  wValueLength := s.value.length + 1
  wType := s.wType
  szKey := s.key.map wchar
  valuePosition := p + 2 * headerSize s.key
  value := s.value.map wchar

theorem StringMember.words_length (s : StringMember) :
    s.words.length = headerSize s.key + s.value.length + 1 := by
  simp [StringMember.words, member_length]
  omega

/-- A `String` is read to its end. -/
theorem StringRead_returns {p : Nat} (hp : p % 4 = 0) (s : StringMember)
    (h : Holds file p s.words) :
    Returns (StringRead file) p (s.read p) (p + 2 * s.words.length) := by
  have hm := memberAt h
  have hkey := (ascii_supported s.key s.supported).ne_zero
  have hvalue := ReadUnicodeUTF16_returns hm.contentAt fun u hu => by
    have := s.unit u hu
    omega
  have hend : p + 2 * headerSize s.key + 2 * (s.value.length + 1) = p + 2 * s.words.length := by
    rw [s.words_length]
    omega
  have hlength : word file p = 2 * s.words.length := by
    rw [hm.lengthAt, s.words_length]
    simp
    omega
  have hread : s.read p =
      { wLength := word file p
        wValueLength := word file (p + 2)
        wType := word file (p + 2 + 2)
        szKey := s.key.map wchar
        valuePosition := p + 2 * headerSize s.key
        value := s.value.map wchar } := by
    rw [hlength, hm.valueLengthAt, hm.typeAt]
    rfl
  rw [hend] at hvalue
  rw [hread]
  exact (WORD_returns p).bind <| (WORD_returns (p + 2)).bind <| (WORD_returns (p + 2 + 2)).bind <|
    (hm.readKey hkey).bind <| (hm.readPadding hp).bind <| (Returns.get _).bind <|
    hvalue.bind <| Returns.pure _ _

/-! ## Loops over children -/

section Children

variable {α : Type} {read : Read α} {wLength : α → Nat} {stop : Int}

/-- The turn of a loop over children. -/
theorem childTurn_returns (wLength : α → Nat) {p p' p'' n : Nat} {a : α}
    (hread : Returns read p a p') (hpad : Returns (ReadPadding file) p' n p'') (length : Int)
    (children : List α) :
    Returns (childTurn file read wLength (length, children)) p
      (length - wLength a - n, children ++ [a]) p'' :=
  hread.bind (hpad.bind (Returns.pure _ _))

/-- What such a loop that returned has done: it stops, or reads a child and its
padding. -/
theorem childLoop_cases {turns fuel p q : Nat} {length length' : Int} {children children' : List α}
    (h : loopFor (fun vars _ => vars.1 ≠ stop) (childTurn file read wLength) turns
      (length, children) fuel p = .ok ((length', children'), q)) :
    (length = stop ∧ children' = children ∧ q = p) ∨
      (length ≠ stop ∧ ∃ a p' n p'' turns', read fuel p = .ok (a, p') ∧
        ReadPadding file fuel p' = .ok (n, p'') ∧
        loopFor (fun vars _ => vars.1 ≠ stop) (childTurn file read wLength) turns'
          (length - wLength a - n, children ++ [a]) fuel p'' = .ok ((length', children'), q)) := by
  rcases loopFor_cases h with ⟨hstop, hr⟩ | ⟨hgo, turns', b, s, hbody, hrest⟩
  · refine .inl ⟨by simpa using hstop, ?_⟩
    cases hr
    exact ⟨rfl, rfl⟩
  · obtain ⟨a, p', hread, hb⟩ := bind_ok hbody
    obtain ⟨n, p'', hpad, hb⟩ := bind_ok hb
    cases hb
    exact .inr ⟨by simpa using hgo, a, p', n, _, turns', hread, hpad, hrest⟩

/-- No child gets lost. -/
theorem childLoop_length {turns fuel p q : Nat} {length length' : Int}
    {children children' : List α}
    (h : loopFor (fun vars _ => vars.1 ≠ stop) (childTurn file read wLength) turns
      (length, children) fuel p = .ok ((length', children'), q)) : children <+: children' := by
  refine loopFor_invariant (I := fun vars _ => children <+: vars.2) ?_ (List.prefix_refl _) h
  rintro ⟨l, cs⟩ s ⟨l', cs'⟩ s' hinv hbody
  obtain ⟨a, p', -, hb⟩ := bind_ok hbody
  obtain ⟨n, p'', -, hb⟩ := bind_ok hb
  cases hb
  exact hinv.trans (List.prefix_append _ _)

/-- The loop does not move back. -/
theorem childLoop_forward {turns fuel p q : Nat} {length length' : Int}
    {children children' : List α} (hread : Forward read)
    (h : loopFor (fun vars _ => vars.1 ≠ stop) (childTurn file read wLength) turns
      (length, children) fuel p = .ok ((length', children'), q)) : p ≤ q :=
  loopFor_invariant (I := fun _ s => p ≤ s)
    (fun b s b' s' hinv hbody =>
      Nat.le_trans hinv (forward_childTurn hread wLength b fuel s b' s' hbody))
    (Nat.le_refl p) h

/-- The children a loop returns. -/
theorem readChildren_returns {p q : Nat} {length length' : Int} {children : List α}
    (h : LoopReturns (fun vars _ => vars.1 ≠ stop) (childTurn file read wLength) (length, []) p
      (length', children) q) :
    Returns (readChildren file stop read wLength length) p children q :=
  (Returns.loop h).bind (Returns.pure _ _)

/-- Children that were read come from turns of the loop. -/
theorem readChildren_ok {fuel p q : Nat} {length : Int} {children : List α}
    (h : readChildren file stop read wLength length fuel p = .ok (children, q)) :
    ∃ turns length', loopFor (fun vars _ => vars.1 ≠ stop) (childTurn file read wLength) turns
      (length, []) fuel p = .ok ((length', children), q) := by
  obtain ⟨⟨length', children'⟩, q', hloop, hchildren⟩ := bind_ok h
  cases hchildren
  exact ⟨fuel, length', hloop⟩

end Children

/-! ## Tables -/

/-- The strings of a table, as they are read. -/
def StringMember.reads (p : Nat) (strings : List StringMember) : List StringObj :=
  placed StringMember.words StringMember.read p strings

/-- What the reader makes of a table. -/
def TableMember.read (t : TableMember) (p : Nat) : StringTableObj where
  wLength := 2 * t.words.length
  wValueLength := 0
  wType := t.wType
  szKey := t.key.map wchar
  children := StringMember.reads (p + 2 * headerSize t.key) t.strings

/-- The padding after a string depends on the length of its value. -/
theorem StringMember.words_parity (s : StringMember) :
    s.words.length % 2 = (s.value.length + 1) % 2 := by
  have := headerSize_even s.key
  rw [s.words_length]
  omega

theorem padding_length (n : Nat) : (padding n).length = n % 2 := List.length_replicate

/-- Two members and more. -/
theorem joinPadded_cons (m n : List Nat) (rest : List (List Nat)) :
    joinPadded (m :: n :: rest) = m ++ padding m.length ++ joinPadded (n :: rest) := rfl

/-- A member and those after it in the file. -/
theorem holds_joinPadded {α : Type} (words : α → List Nat) {p : Nat} {a : α} {rest : List α}
    (h : Holds file p (joinPadded ((a :: rest).map words))) :
    Holds file p (words a) ∧
      (rest ≠ [] → Holds file (p + 2 * (words a).length) (padding (words a).length)) ∧
      Holds file (p + 2 * ((words a).length + (words a).length % 2))
        (joinPadded (rest.map words)) := by
  rcases rest with _ | ⟨b, rest⟩
  · exact ⟨by simpa [joinPadded] using h, fun hne => absurd rfl hne, trivial⟩
  · simp only [List.map_cons, joinPadded_cons, List.append_assoc] at h
    obtain ⟨ha, h⟩ := holds_append.mp h
    obtain ⟨hpad, hnext⟩ := holds_append.mp h
    have hp : p + 2 * (words a).length + 2 * (padding (words a).length).length =
        p + 2 * ((words a).length + (words a).length % 2) := by
      rw [padding_length]
      omega
    exact ⟨ha, fun _ => hpad, hp ▸ hnext⟩

/-- The number of words of members one after the other. -/
theorem joinPadded_length {α : Type} (words : α → List Nat) (a : α) (rest : List α) :
    (joinPadded ((a :: rest).map words)).length = (words a).length +
      (if rest.isEmpty then 0 else (words a).length % 2) +
        (joinPadded (rest.map words)).length := by
  rcases rest with _ | ⟨b, rest⟩
  · simp [joinPadded]
  · simp only [List.map_cons, joinPadded_cons, List.length_append, padding_length]
    simp

/-- **The loop over the strings** of a table returns them all if two bytes of
padding follow the last one: with them it has counted two bytes too many. -/
theorem strings_returns : ∀ (strings : List StringMember) (p : Nat) (children : List StringObj),
    p % 4 = 0 → Holds file p (joinPadded (strings.map StringMember.words) ++ [0]) →
    (∃ s, strings.getLast? = some s ∧ s.value.length % 2 = 0) →
    LoopReturns (fun vars _ => vars.1 ≠ 0)
      (childTurn file (StringRead file) StringObj.wLength)
      (((2 * (joinPadded (strings.map StringMember.words)).length + 2 : Nat) : Int), children) p
      (0, children ++ StringMember.reads p strings)
      (p + 2 * ((joinPadded (strings.map StringMember.words)).length + 1)) := by
  intro strings
  induction strings with
  | nil => rintro p children - - ⟨s, hs, -⟩; simp at hs
  | cons s rest ih =>
      intro p children hp h hlast
      have hlength : (s.read p).wLength = 2 * s.words.length := rfl
      rcases rest with _ | ⟨s', rest⟩
      · obtain ⟨s0, hs0, heven⟩ := hlast
        obtain rfl : s = s0 := by simpa using hs0
        have hodd : s.words.length % 2 = 1 := by
          rw [s.words_parity]
          omega
        simp only [List.map_cons, List.map_nil, joinPadded] at h ⊢
        obtain ⟨hs, hzero⟩ := holds_append.mp h
        have hpad := ReadPadding_word (by omega) hzero.1
        have hturn := childTurn_returns StringObj.wLength (StringRead_returns hp s hs) hpad
          ((2 * s.words.length + 2 : Nat) : Int) children
        have hstop :
            ((2 * s.words.length + 2 : Nat) : Int) - (s.read p).wLength - (2 : Nat) = 0 := by
          omega
        have hend : p + 2 * (s.words.length + 1) = p + 2 * s.words.length + 2 := by omega
        rw [hstop] at hturn
        rw [hend]
        exact LoopReturns.turn (by simp; omega) hturn (LoopReturns.done (by simp))
      · simp only [List.map_cons, joinPadded_cons, List.append_assoc] at h ⊢
        obtain ⟨hs, h⟩ := holds_append.mp h
        obtain ⟨hzero, hrest⟩ := holds_append.mp h
        have hpad := ReadPadding_returns hp hzero
        have hnext : p + 2 * s.words.length + 2 * (padding s.words.length).length =
            p + 2 * (s.words.length + s.words.length % 2) := by
          rw [padding_length]
          omega
        rw [hnext] at hrest
        have hturn := childTurn_returns StringObj.wLength (StringRead_returns hp s hs) hpad
          ((2 * (joinPadded (s.words :: s'.words :: rest.map StringMember.words)).length + 2 : Nat)
            : Int) children
        have ih' := ih (p + 2 * (s.words.length + s.words.length % 2)) (children ++ [s.read p])
          (by omega) hrest (by simpa using hlast)
        have hcount : ((2 * (joinPadded (s.words :: s'.words :: rest.map StringMember.words)).length
              + 2 : Nat) : Int) - (s.read p).wLength - (2 * (s.words.length % 2) : Nat) =
            ((2 * (joinPadded ((s' :: rest).map StringMember.words)).length + 2 : Nat) : Int) := by
          rw [hlength, joinPadded_cons, List.length_append, List.length_append, padding_length]
          simp only [List.map_cons]
          omega
        have hreads : children ++ [s.read p] ++ StringMember.reads
              (p + 2 * (s.words.length + s.words.length % 2)) (s' :: rest) =
            children ++ StringMember.reads p (s :: s' :: rest) := by
          rw [List.append_assoc]
          rfl
        have hend : p + 2 * (s.words.length + s.words.length % 2) +
              2 * ((joinPadded ((s' :: rest).map StringMember.words)).length + 1) =
            p + 2 *
              ((joinPadded (s.words :: s'.words :: rest.map StringMember.words)).length + 1) := by
          rw [joinPadded_cons, List.length_append, List.length_append, padding_length]
          simp only [List.map_cons]
          omega
        rw [hcount] at hturn
        rw [hreads, hend] at ih'
        rw [joinPadded_cons, List.append_assoc] at hturn ih'
        exact LoopReturns.turn (by simp; omega) hturn ih'

/-- A loop with two bytes left reads one string more. -/
theorem strings_more {turns fuel p q : Nat} {length' : Int} {children children' : List StringObj}
    (h : loopFor (fun vars _ => vars.1 ≠ 0) (childTurn file (StringRead file) StringObj.wLength)
      turns (((2 : Nat) : Int), children) fuel p = .ok ((length', children'), q)) :
    children'.length ≠ children.length := by
  intro hlen
  rcases childLoop_cases h with ⟨hstop, -⟩ | ⟨-, a, p', n, p'', turns', -, -, hrest⟩
  · simp at hstop
  · have := (childLoop_length hrest).length_le
    simp only [List.length_append, List.length_singleton] at this
    omega

/-- If the loop returns as many strings as the table has, two bytes of padding
follow the last one, and it has returned those strings. -/
theorem strings_ok : ∀ (strings : List StringMember) (turns fuel p q : Nat)
    (length' : Int) (children children' : List StringObj), p % 4 = 0 →
    Holds file p (joinPadded (strings.map StringMember.words)) →
    loopFor (fun vars _ => vars.1 ≠ 0) (childTurn file (StringRead file) StringObj.wLength) turns
      (((2 * (joinPadded (strings.map StringMember.words)).length + 2 : Nat) : Int), children)
      fuel p = .ok ((length', children'), q) →
    children'.length = children.length + strings.length →
    (∃ s, strings.getLast? = some s ∧ s.value.length % 2 = 0) ∧
      children' = children ++ StringMember.reads p strings ∧
      q = p + 2 * ((joinPadded (strings.map StringMember.words)).length + 1) := by
  intro strings
  induction strings with
  | nil =>
      intro turns fuel p q length' children children' _ _ h hlen
      exact absurd hlen (strings_more h)
  | cons s rest ih =>
      intro turns fuel p q length' children children' hp h hok hlen
      have hlength : (s.read p).wLength = 2 * s.words.length := rfl
      rcases rest with _ | ⟨s', rest⟩
      · simp only [List.map_cons, List.map_nil, joinPadded] at h hok ⊢
        rcases childLoop_cases hok with ⟨hstop, -⟩ | ⟨-, a, p', n, p'', turns', hread, hpad, hrest⟩
        · omega
        · cases (StringRead_returns hp s h).only fuel _ hread
          rcases Nat.mod_two_eq_zero_or_one s.words.length with heven | hodd
          · -- no padding follows: two bytes are left
            cases (ReadPadding_none (by omega)).only fuel _ hpad
            have hleft : ((2 * s.words.length + 2 : Nat) : Int) - (s.read p).wLength - (0 : Nat) =
                ((2 : Nat) : Int) := by omega
            rw [hleft] at hrest
            refine absurd ?_ (strings_more hrest)
            simpa using hlen
          · obtain ⟨rfl, rfl⟩ := ReadPadding_ok (by omega) hpad
            have hleft : ((2 * s.words.length + 2 : Nat) : Int) - (s.read p).wLength - (2 : Nat) =
                0 := by omega
            rw [hleft] at hrest
            have hparity := s.words_parity
            rcases childLoop_cases hrest with ⟨-, hchildren, hq⟩ | ⟨hgo, -⟩
            · exact ⟨⟨s, rfl, by omega⟩, hchildren, by omega⟩
            · exact absurd rfl hgo
      · simp only [List.map_cons, joinPadded_cons, List.append_assoc] at h hok ⊢
        obtain ⟨hs, h⟩ := holds_append.mp h
        obtain ⟨hzero, hnext⟩ := holds_append.mp h
        have hp' : p + 2 * s.words.length + 2 * (padding s.words.length).length =
            p + 2 * (s.words.length + s.words.length % 2) := by
          rw [padding_length]
          omega
        rw [hp'] at hnext
        have htotal : (s.words ++ (padding s.words.length ++
              joinPadded (s'.words :: rest.map StringMember.words))).length =
            s.words.length + s.words.length % 2 +
              (joinPadded (s'.words :: rest.map StringMember.words)).length := by
          rw [List.length_append, List.length_append, padding_length]
          omega
        rw [htotal] at hok ⊢
        rcases childLoop_cases hok with ⟨hstop, -⟩ | ⟨-, a, p', n, p'', turns', hread, hpad, hrest⟩
        · omega
        · cases (StringRead_returns hp s hs).only fuel _ hread
          cases (ReadPadding_returns hp hzero).only fuel _ hpad
          have hleft : ((2 * (s.words.length + s.words.length % 2 +
                (joinPadded (s'.words :: rest.map StringMember.words)).length) + 2 : Nat) : Int) -
                (s.read p).wLength - (2 * (s.words.length % 2) : Nat) =
              ((2 * (joinPadded ((s' :: rest).map StringMember.words)).length + 2 : Nat) :
                Int) := by
            rw [hlength]
            simp only [List.map_cons]
            omega
          rw [hleft] at hrest
          obtain ⟨hlast, hchildren, hq⟩ := ih turns' fuel _ q length' _ children' (by omega) hnext
            hrest (by simpa [Nat.add_assoc, Nat.add_comm 1] using hlen)
          refine ⟨by simpa using hlast, ?_, ?_⟩
          · rw [hchildren, List.append_assoc]
            rfl
          · rw [hq]
            simp only [List.map_cons]
            omega

/-- The length with which a table starts its loop is two too large. -/
theorem TableMember.lengthOfChildren (t : TableMember) {p : Nat} (hm : MemberAt file p
      (2 * (headerSize t.key + (joinPadded (t.strings.map StringMember.words)).length)) 0 t.wType
      t.key (joinPadded (t.strings.map StringMember.words))) :
    (word file p : Int) - 6 - (UTF16toJSString (t.key.map wchar)).length * 2 -
        (2 * (t.key.length % 2) : Nat) =
      ((2 * (joinPadded (t.strings.map StringMember.words)).length + 2 : Nat) : Int) := by
  have hkey := t.digits.1
  have hsize : headerSize t.key = 12 := by simp [headerSize, hkey]
  rw [hm.lengthAt, t.ascii.toJSString, hkey, hsize]
  omega

/-- Type fields are 0 or 1. -/
theorem checkType {p : Nat} {wType : Fin 2} (h : word file p = wType) :
    (word file p = 1 || word file p = 0) = true := by
  have hall : ∀ t : Fin 2, (decide (t.val = 1) || decide (t.val = 0)) = true := by decide
  rw [h]
  exact hall wType

/-- A table whose loop ends is read, with the padding after it. -/
theorem StringTableRead_returns {p : Nat} (hp : p % 4 = 0) (t : TableMember)
    (h : Holds file p (t.words ++ [0])) (hclosed : t.Closed) :
    Returns (StringTableRead file) p (t.read p) (p + 2 * (t.words.length + 1)) := by
  have hsize : t.words.length = headerSize t.key +
      (joinPadded (t.strings.map StringMember.words)).length := member_length ..
  have heven := headerSize_even t.key
  obtain ⟨hmember, hzero⟩ := holds_append.mp h
  have hm := memberAt hmember
  have hcontent : Holds file (p + 2 * headerSize t.key)
      (joinPadded (t.strings.map StringMember.words) ++ [0]) := by
    refine holds_append.mpr ⟨hm.contentAt, ?_⟩
    have hp' : p + 2 * t.words.length = p + 2 * headerSize t.key +
        2 * (joinPadded (t.strings.map StringMember.words)).length := by omega
    exact hp' ▸ hzero
  have hloop := strings_returns t.strings (p + 2 * headerSize t.key) [] (by omega) hcontent hclosed
  have hend : p + 2 * headerSize t.key +
        2 * ((joinPadded (t.strings.map StringMember.words)).length + 1) =
      p + 2 * (t.words.length + 1) := by omega
  rw [hend, ← t.lengthOfChildren hm] at hloop
  have hread : t.read p =
      { wLength := word file p
        wValueLength := word file (p + 2)
        wType := word file (p + 2 + 2)
        szKey := t.key.map wchar
        children := [] ++ StringMember.reads (p + 2 * headerSize t.key) t.strings } := by
    rw [hm.lengthAt, hm.valueLengthAt, hm.typeAt, ← hsize]
    rfl
  rw [hread]
  exact (WORD_returns p).bind <| (WORD_returns (p + 2)).bind <| (WORD_returns (p + 2 + 2)).bind <|
    (hm.readKey t.ascii.ne_zero).bind <|
    (Returns.check (by simpa using hm.valueLengthAt) _ _).bind <|
    (Returns.check (checkType hm.typeAt) _ _).bind <|
    (Returns.check (by rw [t.ascii.toJSString, t.digits.1]; rfl) _ _).bind <|
    (hm.readPadding hp).bind <|
    (readChildren_returns hloop).bind <| Returns.pure _ _

/-- If a table is returned with as many strings as it has, its loop has ended
where it should. -/
theorem StringTableRead_ok {p q fuel : Nat} (hp : p % 4 = 0) (t : TableMember)
    (h : Holds file p t.words) {obj : StringTableObj}
    (hok : StringTableRead file fuel p = .ok (obj, q))
    (hlen : obj.children.length = t.strings.length) :
    t.Closed ∧ obj = t.read p ∧ q = p + 2 * (t.words.length + 1) := by
  have hm := memberAt h
  have hsize : t.words.length = headerSize t.key +
      (joinPadded (t.strings.map StringMember.words)).length := member_length ..
  have heven := headerSize_even t.key
  have hok := (WORD_returns p).step hok
  have hok := (WORD_returns (p + 2)).step hok
  have hok := (WORD_returns (p + 2 + 2)).step hok
  have hok := (hm.readKey t.ascii.ne_zero).step hok
  have hok := (check_ok (check_ok (check_ok hok).2).2).2
  have hok := (hm.readPadding hp).step hok
  obtain ⟨children, q', hchildren, hpure⟩ := bind_ok hok
  cases hpure
  obtain ⟨turns, length', hturns⟩ := readChildren_ok hchildren
  rw [t.lengthOfChildren hm] at hturns
  obtain ⟨hclosed, hchildren, hq⟩ := strings_ok t.strings turns fuel _ q length' [] children
    (by omega) hm.contentAt hturns (by simpa using hlen)
  refine ⟨hclosed, ?_, by omega⟩
  rw [hchildren, hm.lengthAt, hm.valueLengthAt, hm.typeAt, ← hsize]
  rfl

/-- Strings end at an odd place if the value of the last one has an even length. -/
theorem joinPadded_odd {strings : List StringMember}
    (h : ∃ s, strings.getLast? = some s ∧ s.value.length % 2 = 0) :
    (joinPadded (strings.map StringMember.words)).length % 2 = 1 := by
  induction strings with
  | nil =>
      obtain ⟨s, hs, -⟩ := h
      simp at hs
  | cons s rest ih =>
      obtain ⟨s0, hs0, heven⟩ := h
      rcases rest with _ | ⟨s', rest⟩
      · obtain rfl : s = s0 := by simpa using hs0
        have := s.words_parity
        simp only [List.map_cons, List.map_nil, joinPadded]
        omega
      · have := ih ⟨s0, by simpa using hs0, heven⟩
        simp only [List.map_cons, joinPadded_cons, List.length_append, padding_length] at this ⊢
        omega

/-- A table whose loop ends leaves two bytes of padding behind it. -/
theorem TableMember.words_odd (t : TableMember) (h : t.Closed) : t.words.length % 2 = 1 := by
  have := joinPadded_odd h
  have := headerSize_even t.key
  have : t.words.length = headerSize t.key +
      (joinPadded (t.strings.map StringMember.words)).length := member_length ..
  omega

/-! ## Children of the resource -/

/-- What the reader makes of a `Var`. -/
def VarMember.read (v : VarMember) : VarObj where
  wLength := 2 * v.words.length
  wValueLength := 4 * v.values.length
  wType := v.wType
  szKey := translation.map wchar
  children := v.values

/-- The words of a `Var` are its header and its values. -/
theorem VarMember.words_length (v : VarMember) : v.words.length = 16 + 2 * v.values.length := by
  have hflat : (v.values.flatMap dword).length = 2 * v.values.length := by
    induction v.values with
    | nil => rfl
    | cons a rest ih =>
        simp only [List.flatMap_cons, List.length_append, List.length_cons, ih, dword,
          List.length_nil]
        omega
  rw [VarMember.words, member_length, hflat]
  rfl

/-- So many values are read one after the other. -/
theorem values_return {values : List Nat} {p : Nat} (children : List Nat)
    (h : Holds file p (values.flatMap dword)) :
    LoopReturns (fun vars _ => vars.1 ≠ 0) (varTurn file)
      (((4 * values.length : Nat) : Int), children) p (0, children ++ values)
      (p + 4 * values.length) := by
  induction values generalizing p children with
  | nil =>
      rw [List.append_nil]
      exact LoopReturns.done rfl
  | cons a rest ih =>
      rw [List.flatMap_cons] at h
      obtain ⟨ha, hrest⟩ := holds_append.mp h
      have hturn : Returns (varTurn file (((4 * (a :: rest).length : Nat) : Int), children)) p
          (((4 * (a :: rest).length : Nat) : Int) - 4, children ++ [a]) (p + 4) :=
        (DWORD_dword ha).bind (Returns.pure _ _)
      have ih' := ih (children ++ [a]) hrest
      have hlen : ((4 * (a :: rest).length : Nat) : Int) - 4 = ((4 * rest.length : Nat) : Int) := by
        simp only [List.length_cons]
        omega
      have hend : p + 4 + 4 * rest.length = p + 4 * (a :: rest).length := by
        simp only [List.length_cons]
        omega
      rw [hlen] at hturn
      have hdword : p + 2 * (dword a).length = p + 4 := rfl
      rw [hdword, hend, List.append_assoc] at ih'
      exact LoopReturns.turn (by simp; omega) hturn ih'

/-- A `Var` is read to its end. -/
theorem VarRead_returns {p : Nat} (hp : p % 4 = 0) (v : VarMember) (h : Holds file p v.words) :
    Returns (VarRead file) p v.read (p + 2 * v.words.length) := by
  have hm := memberAt h
  have hvalues := values_return [] hm.contentAt
  have hend : p + 2 * headerSize translation + 4 * v.values.length = p + 2 * v.words.length := by
    rw [v.words_length, show headerSize translation = 16 from rfl]
    omega
  have hcount : ((4 * v.values.length : Nat) : Int) = (word file (p + 2) : Int) := by
    rw [hm.valueLengthAt]
  have hread : v.read =
      { wLength := word file p
        wValueLength := word file (p + 2)
        wType := word file (p + 2 + 2)
        szKey := translation.map wchar
        children := [] ++ v.values } := by
    rw [hm.lengthAt, hm.valueLengthAt, hm.typeAt, ← member_length]
    rfl
  rw [hend, hcount] at hvalues
  rw [hread]
  exact (WORD_returns p).bind <| (WORD_returns (p + 2)).bind <| (WORD_returns (p + 2 + 2)).bind <|
    (Returns.check (checkType hm.typeAt) _ _).bind <|
    (hm.readKey ascii_translation.ne_zero).bind <|
    (Returns.check (by rw [ascii_translation.toJSString]; decide) _ _).bind <|
    (hm.readPadding hp).bind <| (Returns.loop hvalues).bind <| Returns.pure _ _

section AnyMember

variable {p q l v t fuel : Nat} {key : Units} {content : List Nat}

/-- Only a member with the key of a `Var` is read as one. -/
theorem VarRead_key (hm : MemberAt file p l v t key content) (hkey : Ascii key) {obj : VarObj}
    (hok : VarRead file fuel p = .ok (obj, q)) : key = translation := by
  have hok := (WORD_returns p).step hok
  have hok := (WORD_returns (p + 2)).step hok
  have hok := (WORD_returns (p + 2 + 2)).step hok
  have hok := (check_ok hok).2
  have hok := (hm.readKey hkey.ne_zero).step hok
  have hcheck := (check_ok hok).1
  rwa [hkey.toJSString, decide_eq_true_eq] at hcheck

/-- The header of a child. -/
theorem InfoRead_returns (hp : p % 4 = 0) (hm : MemberAt file p l 0 t key content)
    (hkey : Ascii key) {children : InfoChildren}
    (hc : Returns (InfoChildrenRead file l key (2 * (key.length % 2))) (p + 2 * headerSize key)
      children q) :
    Returns (VarFileOrStringFileInfoRead file) p
      { wLength := l, wValueLength := 0, wType := t, szKey := key.map wchar,
        children := children } q := by
  have hread : (InfoObj.mk l 0 t (key.map wchar) children) =
      { wLength := word file p
        wValueLength := word file (p + 2)
        wType := word file (p + 2 + 2)
        szKey := key.map wchar
        children := children } := by
    rw [hm.lengthAt, hm.valueLengthAt, hm.typeAt]
  rw [← hm.lengthAt] at hc
  rw [hread]
  refine (WORD_returns p).bind <| (WORD_returns (p + 2)).bind <|
    (Returns.check (by simpa using hm.valueLengthAt) _ _).bind <|
    (WORD_returns (p + 2 + 2)).bind <| (hm.readKey hkey.ne_zero).bind <|
    (hm.readPadding hp).bind ?_
  rw [hkey.toJSString]
  exact hc.bind <| Returns.pure _ _

/-- The same, backwards. -/
theorem InfoRead_ok (hp : p % 4 = 0) (hm : MemberAt file p l v t key content) (hkey : Ascii key)
    {obj : InfoObj} (hok : VarFileOrStringFileInfoRead file fuel p = .ok (obj, q)) :
    ∃ children, InfoChildrenRead file l key (2 * (key.length % 2)) fuel (p + 2 * headerSize key) =
        .ok (children, q) ∧
      obj = { wLength := l, wValueLength := v, wType := t, szKey := key.map wchar,
              children := children } := by
  have hok := (WORD_returns p).step hok
  have hok := (WORD_returns (p + 2)).step hok
  have hok := (check_ok hok).2
  have hok := (WORD_returns (p + 2 + 2)).step hok
  have hok := (hm.readKey hkey.ne_zero).step hok
  have hok := (hm.readPadding hp).step hok
  obtain ⟨children, q', hchildren, hpure⟩ := bind_ok hok
  cases hpure
  rw [hkey.toJSString, hm.lengthAt] at hchildren
  refine ⟨children, hchildren, ?_⟩
  rw [hm.lengthAt, hm.valueLengthAt, hm.typeAt]

end AnyMember

/-- The loop over the tables of a `StringFileInfo`.  The padding behind a table
has been read inside the table and is not subtracted, so that the loop can end
only after one table. -/
theorem tables_ok : ∀ (tables : List TableMember) (k turns fuel p q : Nat) (length' : Int)
    (children children' : List StringTableObj), p % 4 = 0 →
    Holds file p (joinPadded (tables.map TableMember.words)) →
    loopFor (fun vars _ => vars.1 ≠ 0)
      (childTurn file (StringTableRead file) StringTableObj.wLength) turns
      (((2 * (joinPadded (tables.map TableMember.words)).length + 2 * k : Nat) : Int), children)
      fuel p = .ok ((length', children'), q) →
    children'.map (fun c => c.children.length) =
      children.map (fun c => c.children.length) ++ tables.map (fun t => t.strings.length) →
    k = 0 ∧ ((tables = [] ∧ children' = children ∧ q = p) ∨
      ∃ t, tables = [t] ∧ t.Closed ∧ children' = children ++ [t.read p] ∧
        q = p + 2 * (t.words.length + 1)) := by
  -- with bytes left the loop reads one table more
  have hmore : ∀ (k turns fuel p q : Nat) (length' : Int)
      (children children' : List StringTableObj),
      loopFor (fun vars _ => vars.1 ≠ 0)
        (childTurn file (StringTableRead file) StringTableObj.wLength) turns
        (((2 * k : Nat) : Int), children) fuel p = .ok ((length', children'), q) →
      children'.length = children.length → k = 0 ∧ children' = children ∧ q = p := by
    intro k turns fuel p q length' children children' h hlen
    rcases childLoop_cases h with ⟨hstop, hchildren, hq⟩ | ⟨-, a, p', n, p'', turns', -, -, hrest⟩
    · exact ⟨by omega, hchildren, hq⟩
    · have := (childLoop_length hrest).length_le
      simp only [List.length_append, List.length_singleton] at this
      omega
  intro tables
  induction tables with
  | nil =>
      intro k turns fuel p q length' children children' _ _ hok hcounts
      have hlen : children'.length = children.length := by
        simpa using congrArg List.length hcounts
      simp only [List.map_nil, joinPadded, List.length_nil, Nat.mul_zero, Nat.zero_add] at hok
      obtain ⟨hk, hchildren, hq⟩ := hmore k turns fuel p q length' children children' hok hlen
      exact ⟨hk, .inl ⟨rfl, hchildren, hq⟩⟩
  | cons t rest ih =>
      intro k turns fuel p q length' children children' hp h hok hcounts
      have hsize : t.words.length = headerSize t.key +
          (joinPadded (t.strings.map StringMember.words)).length := member_length ..
      have hheader : 0 < headerSize t.key := by
        unfold headerSize
        omega
      obtain ⟨ht, -, hrestHolds⟩ := holds_joinPadded TableMember.words h
      rw [joinPadded_length] at hok
      rcases childLoop_cases hok with ⟨hstop, -⟩ | ⟨-, a, p', n, p'', turns', hread, hpad, hrest⟩
      · omega
      · have hprefix := childLoop_length hrest
        obtain ⟨more, hmoreChildren⟩ := hprefix
        have hcount : a.children.length = t.strings.length := by
          rw [← hmoreChildren] at hcounts
          simp only [List.map_append, List.append_assoc, List.map_cons,
            List.singleton_append] at hcounts
          exact (List.cons.inj (List.append_cancel_left hcounts)).1
        obtain ⟨hclosed, ha, hq'⟩ := StringTableRead_ok hp t ht hread hcount
        subst ha hq'
        have hodd := t.words_odd hclosed
        cases (ReadPadding_none (by omega)).only fuel _ hpad
        have hlength : (t.read p).wLength = 2 * t.words.length := rfl
        have hlen : children'.length = children.length + (t :: rest).length := by
          simpa using congrArg List.length hcounts
        rcases rest with _ | ⟨t', rest⟩
        · have hleft : ((2 * (t.words.length + (if ([] : List TableMember).isEmpty then 0
                else t.words.length % 2) + (joinPadded (([] : List TableMember).map
                TableMember.words)).length) + 2 * k : Nat) : Int) - (t.read p).wLength - (0 : Nat) =
              ((2 * k : Nat) : Int) := by
            simp only [List.isEmpty_nil, if_true, List.map_nil, joinPadded, List.length_nil,
              hlength]
            omega
          rw [hleft] at hrest
          obtain ⟨hk, hchildren, hq⟩ := hmore k turns' fuel _ q length' _ children' hrest (by
            simpa using hlen)
          exact ⟨hk, .inr ⟨t, rfl, hclosed, hchildren, hq⟩⟩
        · have hleft : ((2 * (t.words.length + (if (t' :: rest).isEmpty then 0
                else t.words.length % 2) + (joinPadded ((t' :: rest).map
                TableMember.words)).length) + 2 * k : Nat) : Int) - (t.read p).wLength - (0 : Nat) =
              ((2 * (joinPadded ((t' :: rest).map TableMember.words)).length + 2 * (k + 1) : Nat)
                : Int) := by
            simp only [List.isEmpty_cons, Bool.false_eq_true, if_false, hlength]
            omega
          rw [hleft] at hrest
          rw [hodd] at hrestHolds
          have hnext := ih (k + 1) turns' fuel _ q length' _ children' (by omega) hrestHolds hrest
            (by simpa [hcounts, TableMember.read] using hcount.symm)
          exact absurd hnext.1 (by omega)

/-- The type field of a child. -/
def InfoMember.wType : InfoMember → Fin 2
  | .stringFileInfo wType _ => wType
  | .varFileInfo wType _ => wType

/-- The key of a child. -/
def InfoMember.key : InfoMember → Units
  | .stringFileInfo _ _ => VersionInfo.stringFileInfo
  | .varFileInfo _ _ => VersionInfo.varFileInfo

/-- The members of a child. -/
def InfoMember.content : InfoMember → List Nat
  | .stringFileInfo _ tables => joinPadded (tables.map TableMember.words)
  | .varFileInfo _ vars => joinPadded (vars.map VarMember.words)

theorem InfoMember.words_eq (c : InfoMember) : c.words = member 0 c.wType c.key c.content := by
  cases c <;> rfl

theorem InfoMember.ascii (c : InfoMember) : Ascii c.key := by
  cases c
  · exact ascii_stringFileInfo
  · exact ascii_varFileInfo

/-- What the reader makes of a child: of the `Var`s it reads one. -/
def InfoMember.read (c : InfoMember) (p : Nat) : InfoObj where
  wLength := 2 * c.words.length
  wValueLength := 0
  wType := c.wType
  szKey := c.key.map wchar
  children :=
    match c with
    | .stringFileInfo _ tables => .tables
      (placed TableMember.words TableMember.read (p + 2 * headerSize VersionInfo.stringFileInfo)
        tables)
    | .varFileInfo _ vars => .vars ((vars.take 1).map VarMember.read)

theorem InfoMember.words_length (c : InfoMember) :
    c.words.length = headerSize c.key + c.content.length := by
  rw [c.words_eq, member_length]

theorem InfoMember.memberAt (c : InfoMember) {p : Nat} (h : Holds file p c.words) :
    MemberAt file p (2 * c.words.length) 0 c.wType c.key c.content := by
  rw [c.words_length]
  exact VersionInfo.memberAt (c.words_eq ▸ h)

/-- The length with which a `StringFileInfo` starts its loop. -/
theorem InfoMember.lengthOfChildren (wType : Fin 2) (tables : List TableMember) :
    ((2 * (InfoMember.stringFileInfo wType tables).words.length : Nat) : Int) -
        (VersionInfo.stringFileInfo.length + 1) * 2 - 6 -
        (2 * (VersionInfo.stringFileInfo.length % 2) : Nat) =
      ((2 * (joinPadded (tables.map TableMember.words)).length + 2 * 0 : Nat) : Int) := by
  rw [InfoMember.words_length]
  simp only [InfoMember.key, InfoMember.content]
  rw [show headerSize VersionInfo.stringFileInfo = 18 from rfl,
    show VersionInfo.stringFileInfo.length = 14 from rfl]
  omega

/-- The padding behind a child that is passed. -/
theorem InfoMember.words_parity {c : InfoMember} (h : c.Passed) :
    c.words.length % 2 = c.tables.length := by
  have := c.words_length
  have := headerSize_even c.key
  rcases c with ⟨wType, _ | ⟨t, _ | ⟨t', rest⟩⟩⟩ | ⟨wType, _ | ⟨v, _ | ⟨v', rest⟩⟩⟩
  · simp only [InfoMember.content, List.map_nil, joinPadded, List.length_nil,
      InfoMember.tables] at *
    omega
  · have := t.words_odd (h.2 t (by simp))
    simp only [InfoMember.content, List.map_cons, List.map_nil, joinPadded, InfoMember.tables,
      List.length_cons, List.length_nil] at *
    omega
  · have := h.1
    simp at this
  · cases h
  · have := v.words_length
    simp only [InfoMember.content, List.map_cons, List.map_nil, joinPadded, InfoMember.tables,
      List.length_nil] at *
    omega
  · have := h.symm
    simp at this

theorem InfoChildrenRead_vars (l n : Nat) : InfoChildrenRead file l varFileInfo n =
    (VarRead file >>= fun child => pure (.vars [child])) := by
  rw [InfoChildrenRead, if_pos rfl]

theorem InfoChildrenRead_tables (l n : Nat) : InfoChildrenRead file l stringFileInfo n =
    (readChildren file 0 (StringTableRead file) StringTableObj.wLength
      (l - (stringFileInfo.length + 1) * 2 - 6 - n) >>= fun children =>
        pure (.tables children)) := by
  rw [InfoChildrenRead, if_neg (by decide), if_pos rfl]

/-- A `Var` is not read as a child. -/
theorem InfoChildrenRead_translation {l n fuel p : Nat} {r : InfoChildren × Nat} :
    InfoChildrenRead file l translation n fuel p ≠ .ok r := by
  rw [InfoChildrenRead, if_neg (by decide), if_neg (by decide)]
  intro h
  have := (check_ok h).1
  cases this

/-- A `VarFileInfo` is read up to the end of its first `Var`. -/
theorem VarFileInfoRead_returns {p : Nat} (hp : p % 4 = 0) (wType : Fin 2) (v : VarMember)
    (rest : List VarMember) (h : Holds file p (InfoMember.varFileInfo wType (v :: rest)).words) :
    Returns (VarFileOrStringFileInfoRead file) p
      ((InfoMember.varFileInfo wType (v :: rest)).read p) (p + 2 * (16 + v.words.length)) := by
  have hm := InfoMember.memberAt _ h
  obtain ⟨hv, -, -⟩ := holds_joinPadded VarMember.words hm.contentAt
  have hsize : headerSize varFileInfo = 16 := rfl
  have hread := VarRead_returns (p := p + 2 * headerSize varFileInfo) (by omega) v hv
  have hend : p + 2 * headerSize varFileInfo + 2 * v.words.length =
      p + 2 * (16 + v.words.length) := by omega
  rw [hend] at hread
  refine InfoRead_returns hp hm (InfoMember.ascii _) ?_
  rw [InfoMember.key, InfoChildrenRead_vars]
  exact hread.bind (Returns.pure _ _)

/-- A child that is passed is read, with the padding behind it. -/
theorem InfoRead_passed {p : Nat} (hp : p % 4 = 0) (c : InfoMember) (hc : c.Passed)
    (h : Holds file p (c.words ++ padding c.words.length)) :
    Returns (VarFileOrStringFileInfoRead file) p (c.read p)
      (p + 2 * (c.words.length + c.words.length % 2)) := by
  have hparity := InfoMember.words_parity hc
  obtain ⟨hmember, hpadding⟩ := holds_append.mp h
  have hm := c.memberAt hmember
  have hwords := c.words_length
  rcases c with ⟨wType, tables⟩ | ⟨wType, vars⟩
  case stringFileInfo =>
    have hsize : headerSize VersionInfo.stringFileInfo = 18 := rfl
    have hloop : LoopReturns (fun vars _ => vars.1 ≠ 0)
        (childTurn file (StringTableRead file) StringTableObj.wLength)
        (((2 * (joinPadded (tables.map TableMember.words)).length + 2 * 0 : Nat) : Int), [])
        (p + 2 * headerSize VersionInfo.stringFileInfo)
        (0, placed TableMember.words TableMember.read
          (p + 2 * headerSize VersionInfo.stringFileInfo) tables)
        (p + 2 * ((InfoMember.stringFileInfo wType tables).words.length +
          (InfoMember.stringFileInfo wType tables).words.length % 2)) := by
      rcases tables with _ | ⟨t, _ | ⟨t', rest⟩⟩
      · have hcontent : (InfoMember.stringFileInfo wType []).content.length = 0 := rfl
        have htables : (InfoMember.stringFileInfo wType []).tables.length = 0 := rfl
        have hkey : headerSize (InfoMember.stringFileInfo wType []).key = 18 := hsize
        have hend : p + 2 * ((InfoMember.stringFileInfo wType []).words.length +
            (InfoMember.stringFileInfo wType []).words.length % 2) =
            p + 2 * headerSize VersionInfo.stringFileInfo := by omega
        rw [hend]
        exact LoopReturns.done (by simp [joinPadded])
      · have hcontent : (InfoMember.stringFileInfo wType [t]).content = t.words := rfl
        have htables : (InfoMember.stringFileInfo wType [t]).tables.length = 1 := rfl
        have hkey : headerSize (InfoMember.stringFileInfo wType [t]).key = 18 := hsize
        rw [htables] at hparity
        rw [hcontent, hkey] at hwords
        have ht : Holds file (p + 2 * headerSize VersionInfo.stringFileInfo) (t.words ++ [0]) := by
          refine holds_append.mpr ⟨hm.contentAt, ?_⟩
          have hp' : p + 2 * (InfoMember.stringFileInfo wType [t]).words.length =
              p + 2 * headerSize VersionInfo.stringFileInfo + 2 * t.words.length := by omega
          rw [padding, hparity, hp'] at hpadding
          exact hpadding
        have hclosed := hc.2 t (by simp)
        have hodd := t.words_odd hclosed
        have hread := StringTableRead_returns (by omega) t ht hclosed
        have hnone : Returns (ReadPadding file) _ 0 _ := ReadPadding_none
          (p := p + 2 * headerSize VersionInfo.stringFileInfo + 2 * (t.words.length + 1)) (by omega)
        have hturn := childTurn_returns StringTableObj.wLength hread hnone
          ((2 * t.words.length + 2 * 0 : Nat) : Int) []
        have hlength : (t.read (p + 2 * headerSize VersionInfo.stringFileInfo)).wLength =
            2 * t.words.length := rfl
        have hleft : ((2 * t.words.length + 2 * 0 : Nat) : Int) -
            (t.read (p + 2 * headerSize VersionInfo.stringFileInfo)).wLength - (0 : Nat) = 0 := by
          omega
        have hend : p + 2 * headerSize VersionInfo.stringFileInfo + 2 * (t.words.length + 1) =
            p + 2 * ((InfoMember.stringFileInfo wType [t]).words.length +
              (InfoMember.stringFileInfo wType [t]).words.length % 2) := by omega
        have hgo : ((2 * t.words.length + 2 * 0 : Nat) : Int) ≠ 0 := by omega
        rw [hleft, hend] at hturn
        exact LoopReturns.turn (decide_eq_true hgo) hturn (LoopReturns.done rfl)
      · have := hc.1
        simp at this
    refine InfoRead_returns hp hm (InfoMember.ascii _) ?_
    rw [InfoMember.key, InfoChildrenRead_tables, InfoMember.lengthOfChildren]
    exact (readChildren_returns hloop).bind (Returns.pure _ _)
  case varFileInfo =>
    rcases vars with _ | ⟨v, _ | ⟨v', rest⟩⟩
    · cases hc
    · have hread := VarFileInfoRead_returns hp wType v [] hmember
      have hend : 16 + v.words.length = (InfoMember.varFileInfo wType [v]).words.length +
          (InfoMember.varFileInfo wType [v]).words.length % 2 := by
        have hcontent : (InfoMember.varFileInfo wType [v]).content = v.words := rfl
        have htables : (InfoMember.varFileInfo wType [v]).tables.length = 0 := rfl
        have hkey : headerSize (InfoMember.varFileInfo wType [v]).key = 16 :=
          show headerSize VersionInfo.varFileInfo = 16 from rfl
        rw [hcontent, hkey] at hwords
        omega
      rwa [hend] at hread
    · have := hc.symm
      simp at this

/-- The numbers of strings in the tables of a child. -/
def InfoChildren.counts : InfoChildren → List Nat
  | .vars _ => []
  | .tables children => children.map fun c => c.children.length

/-- How many strings each table has. -/
def InfoMember.counts (c : InfoMember) : List Nat := c.tables.map fun t => t.strings.length

/-- A child that is returned with all its strings is passed, or it is a
`VarFileInfo`, of which the reader reads one `Var`. -/
theorem InfoRead_member_ok {p q fuel : Nat} (hp : p % 4 = 0) (c : InfoMember)
    (h : Holds file p c.words) {obj : InfoObj}
    (hok : VarFileOrStringFileInfoRead file fuel p = .ok (obj, q))
    (hcounts : obj.children.counts = c.counts) :
    (c.Passed ∧ obj = c.read p ∧ q = p + 2 * (c.words.length + c.words.length % 2)) ∨
      (∃ wType v v' rest, c = .varFileInfo wType (v :: v' :: rest) ∧ obj = c.read p ∧
        q = p + 2 * (16 + v.words.length)) ∨
      (∃ wType child, c = .varFileInfo wType [] ∧
        VarRead file fuel (p + 2 * 16) = .ok (child, q)) := by
  have hm := c.memberAt h
  rcases c with ⟨wType, tables⟩ | ⟨wType, _ | ⟨v, _ | ⟨v', rest⟩⟩⟩
  case stringFileInfo =>
    left
    obtain ⟨children, hchildren, rfl⟩ := InfoRead_ok hp hm (InfoMember.ascii _) hok
    simp only [InfoMember.key] at hchildren
    rw [InfoChildrenRead_tables, InfoMember.lengthOfChildren] at hchildren
    obtain ⟨tableObjs, q', hread, hpure⟩ := bind_ok hchildren
    cases hpure
    obtain ⟨turns, length', hturns⟩ := readChildren_ok hread
    have hsize : headerSize VersionInfo.stringFileInfo = 18 := rfl
    have hwords := InfoMember.words_length (.stringFileInfo wType tables)
    have hkey : headerSize (InfoMember.stringFileInfo wType tables).key = 18 := hsize
    rcases (tables_ok tables 0 turns fuel _ q length' [] tableObjs (by omega) hm.contentAt hturns
      hcounts).2 with ⟨rfl, rfl, rfl⟩ | ⟨t, rfl, hclosed, rfl, rfl⟩
    · have hcontent : (InfoMember.stringFileInfo wType []).content.length = 0 := rfl
      exact ⟨⟨by simp, by simp⟩, rfl, by omega⟩
    · have hcontent : (InfoMember.stringFileInfo wType [t]).content = t.words := rfl
      have hodd := t.words_odd hclosed
      rw [hcontent, hkey] at hwords
      exact ⟨⟨by simp, by simpa using hclosed⟩, rfl, by omega⟩
  case varFileInfo.nil =>
    right
    right
    obtain ⟨children, hchildren, rfl⟩ := InfoRead_ok hp hm (InfoMember.ascii _) hok
    simp only [InfoMember.key] at hchildren
    rw [InfoChildrenRead_vars] at hchildren
    obtain ⟨child, q', hread, hpure⟩ := bind_ok hchildren
    cases hpure
    exact ⟨wType, child, rfl, hread⟩
  case varFileInfo.cons.nil =>
    left
    cases (VarFileInfoRead_returns hp wType v [] h).only fuel _ hok
    have hwords := InfoMember.words_length (.varFileInfo wType [v])
    have hcontent : (InfoMember.varFileInfo wType [v]).content = v.words := rfl
    have hkey : headerSize (InfoMember.varFileInfo wType [v]).key = 16 :=
      show headerSize VersionInfo.varFileInfo = 16 from rfl
    have hv := v.words_length
    rw [hcontent, hkey] at hwords
    exact ⟨rfl, rfl, by omega⟩
  case varFileInfo.cons.cons =>
    right
    left
    cases (VarFileInfoRead_returns hp wType v (v' :: rest) h).only fuel _ hok
    exact ⟨wType, v, v', rest, rfl, rfl, rfl⟩

/-- The children the reader can read, when `k` tables have been read before. -/
def ChildrenReadable (k : Nat) (cs : List InfoMember) : Prop :=
  ∃ front wType vars, cs = front ++ [.varFileInfo wType vars] ∧ 2 ≤ vars.length ∧
    (∀ c ∈ front, c.Passed) ∧ k + (front.flatMap InfoMember.tables).length = 1

/-- One child more in front. -/
theorem ChildrenReadable.cons {k : Nat} {c : InfoMember} {rest : List InfoMember} (hc : c.Passed)
    (h : ChildrenReadable (k + c.words.length % 2) rest) : ChildrenReadable k (c :: rest) := by
  obtain ⟨front, wType, vars, rfl, hvars, hfront, hcount⟩ := h
  have hparity := InfoMember.words_parity hc
  refine ⟨c :: front, wType, vars, rfl, hvars, ?_, ?_⟩
  · intro d hd
    rcases List.mem_cons.mp hd with rfl | hd
    · exact hc
    · exact hfront d hd
  · rw [List.flatMap_cons, List.length_append]
    omega

/-- What the reader makes of the children. -/
def InfoMember.reads (p : Nat) (cs : List InfoMember) : List InfoObj :=
  placed InfoMember.words InfoMember.read p cs

/-- A block is longer than its header. -/
theorem InfoMember.words_pos (c : InfoMember) : 16 ≤ c.words.length := by
  have hsize : headerSize VersionInfo.stringFileInfo = 18 := rfl
  have hsize' : headerSize VersionInfo.varFileInfo = 16 := rfl
  have hwords := c.words_length
  cases c with
  | stringFileInfo wType tables =>
      have hkey : headerSize (InfoMember.stringFileInfo wType tables).key = 18 := hsize
      omega
  | varFileInfo wType vars =>
      have hkey : headerSize (InfoMember.varFileInfo wType vars).key = 16 := hsize'
      omega

/-- A second `Var` behind the first one. -/
theorem InfoMember.secondVar {p : Nat} {wType : Fin 2} {v v' : VarMember} {rest : List VarMember}
    (h : Holds file p (InfoMember.varFileInfo wType (v :: v' :: rest)).words) :
    Holds file (p + 2 * (16 + v.words.length)) v'.words := by
  have hm := InfoMember.memberAt _ h
  obtain ⟨-, -, hrest⟩ := holds_joinPadded VarMember.words hm.contentAt
  obtain ⟨hv', -, -⟩ := holds_joinPadded VarMember.words hrest
  have hsize : headerSize VersionInfo.varFileInfo = 16 := rfl
  have hlength := v.words_length
  have hp : p + 2 * headerSize VersionInfo.varFileInfo +
      2 * (v.words.length + v.words.length % 2) = p + 2 * (16 + v.words.length) := by omega
  exact hp ▸ hv'

/-- The reader does not go on at a `Var`. -/
theorem InfoRead_at_var {p fuel : Nat} (hp : p % 4 = 0) (v : VarMember)
    (h : Holds file p v.words) {r : InfoObj × Nat} :
    VarFileOrStringFileInfoRead file fuel p ≠ .ok r := by
  intro hok
  obtain ⟨obj, q⟩ := r
  obtain ⟨children, hchildren, -⟩ := InfoRead_ok hp (memberAt h) ascii_translation hok
  exact InfoChildrenRead_translation hchildren

/-- **The loop over the children** ends inside the resource, with the strings of
all of them, only if the children are readable. -/
theorem children_ok : ∀ (cs : List InfoMember) (k turns fuel p q : Nat) (length' : Int)
    (children children' : List InfoObj), p % 4 = 0 →
    Holds file p (joinPadded (cs.map InfoMember.words)) →
    loopFor (fun vars _ => vars.1 ≠ 2)
      (childTurn file (VarFileOrStringFileInfoRead file) InfoObj.wLength) turns
      (((2 * (joinPadded (cs.map InfoMember.words)).length + 2 * k : Nat) : Int), children)
      fuel p = .ok ((length', children'), q) →
    q + 2 ≤ p + 2 * (joinPadded (cs.map InfoMember.words)).length →
    children'.map (fun c => c.children.counts) =
      children.map (fun c => c.children.counts) ++ cs.map InfoMember.counts →
    ChildrenReadable k cs ∧ children' = children ++ InfoMember.reads p cs := by
  intro cs
  induction cs with
  | nil =>
      intro k turns fuel p q length' children children' _ _ hok hq _
      have := childLoop_forward forward_VarFileOrStringFileInfoRead hok
      simp only [List.map_nil, joinPadded, List.length_nil] at hq
      omega
  | cons c rest ih =>
      intro k turns fuel p q length' children children' hp h hok hq hcounts
      have hpos := c.words_pos
      obtain ⟨hc, -, hnext⟩ := holds_joinPadded InfoMember.words h
      rw [joinPadded_length] at hok hq
      rcases childLoop_cases hok with ⟨hstop, -⟩ | ⟨-, a, p', n, p'', turns', hread, hpad, hrest⟩
      · omega
      · obtain ⟨more, hmore⟩ := childLoop_length hrest
        have hcount : a.children.counts = c.counts := by
          rw [← hmore] at hcounts
          simp only [List.map_append, List.append_assoc, List.map_cons,
            List.singleton_append] at hcounts
          exact (List.cons.inj (List.append_cancel_left hcounts)).1
        have hcounts' : children'.map (fun c => c.children.counts) =
            (children ++ [a]).map (fun c => c.children.counts) ++ rest.map InfoMember.counts := by
          rw [hcounts]
          simp [hcount]
        rcases InfoRead_member_ok hp c hc hread hcount with
          ⟨hpassed, rfl, rfl⟩ | ⟨wType, v, v', vars, rfl, rfl, rfl⟩ | ⟨wType, child, rfl, hvar⟩
        · -- the child is passed, and the others follow
          cases (ReadPadding_none (by omega)).only fuel _ hpad
          have hlength : (c.read p).wLength = 2 * c.words.length := rfl
          rcases rest with _ | ⟨d, rest⟩
          · have := childLoop_forward forward_VarFileOrStringFileInfoRead hrest
            simp only [List.isEmpty_nil, if_true, List.map_nil, joinPadded, List.length_nil] at hq
            omega
          · simp only [List.isEmpty_cons, Bool.false_eq_true, if_false] at hrest hq
            have hleft : ((2 * (c.words.length + c.words.length % 2 +
                  (joinPadded ((d :: rest).map InfoMember.words)).length) + 2 * k : Nat) : Int) -
                  (c.read p).wLength - (0 : Nat) =
                ((2 * (joinPadded ((d :: rest).map InfoMember.words)).length +
                  2 * (k + c.words.length % 2) : Nat) : Int) := by
              rw [hlength]
              omega
            rw [hleft] at hrest
            obtain ⟨hreadable, hreads⟩ := ih (k + c.words.length % 2) turns' fuel _ q length' _
              children' (by omega) hnext hrest (by omega) hcounts'
            refine ⟨hreadable.cons hpassed, ?_⟩
            rw [hreads, List.append_assoc]
            rfl
        · -- the reader is at the second `Var`, where the loop must stop
          have hv := v.words_length
          have hsecond := InfoMember.secondVar hc
          cases (ReadPadding_none (by omega)).only fuel _ hpad
          have hlength : ((InfoMember.varFileInfo wType (v :: v' :: vars)).read p).wLength =
              2 * (InfoMember.varFileInfo wType (v :: v' :: vars)).words.length := rfl
          rcases childLoop_cases hrest with
            ⟨hstop, hchildren, -⟩ | ⟨-, a, p', _, _, _, hread', -, -⟩
          · rcases rest with _ | ⟨d, rest⟩
            · simp only [List.isEmpty_nil, if_true, List.map_nil, joinPadded, List.length_nil,
                hlength] at hstop
              refine ⟨⟨[], wType, v :: v' :: vars, rfl, by simp, by simp, ?_⟩, hchildren⟩
              simp only [List.flatMap_nil, List.length_nil]
              omega
            · have hd := d.words_pos
              rw [joinPadded_length, hlength] at hstop
              omega
          · exact absurd hread' (InfoRead_at_var (by omega) v' hsecond)
        · -- there is no `Var` to read
          have hwords := InfoMember.words_length (.varFileInfo wType [])
          have hcontent : (InfoMember.varFileInfo wType []).content.length = 0 := rfl
          have hkey : headerSize (InfoMember.varFileInfo wType []).key = 16 :=
            show headerSize VersionInfo.varFileInfo = 16 from rfl
          rw [hkey, hcontent] at hwords
          rcases rest with _ | ⟨d, rest⟩
          · have h1 := forward_VarRead fuel _ _ _ hvar
            have h2 := forward_ReadPadding fuel _ _ _ hpad
            have h3 := childLoop_forward forward_VarFileOrStringFileInfoRead hrest
            simp only [List.isEmpty_nil, if_true, List.map_nil, joinPadded, List.length_nil] at hq
            omega
          · obtain ⟨hd, -, -⟩ := holds_joinPadded InfoMember.words hnext
            rw [hwords] at hd
            have hkey' := VarRead_key (d.memberAt hd) d.ascii hvar
            cases d <;> exact absurd hkey' (by simp only [InfoMember.key]; decide)

/-- **The loop over readable children** returns them all, and stops early enough
for one more word. -/
theorem children_returns : ∀ (front : List InfoMember) (k p : Nat) (children : List InfoObj)
    (wType : Fin 2) (vars : List VarMember), p % 4 = 0 → (∀ c ∈ front, c.Passed) →
    k + (front.flatMap InfoMember.tables).length = 1 → 2 ≤ vars.length →
    Holds file p
      (joinPadded ((front ++ [InfoMember.varFileInfo wType vars]).map InfoMember.words)) →
    ∃ q, LoopReturns (fun vars _ => vars.1 ≠ 2)
        (childTurn file (VarFileOrStringFileInfoRead file) InfoObj.wLength)
        (((2 * (joinPadded
            ((front ++ [InfoMember.varFileInfo wType vars]).map InfoMember.words)).length +
          2 * k : Nat) : Int), children) p
        (2, children ++ InfoMember.reads p (front ++ [InfoMember.varFileInfo wType vars])) q ∧
      q + 2 ≤ p + 2 * (joinPadded ((front ++ [InfoMember.varFileInfo wType vars]).map
        InfoMember.words)).length := by
  intro front
  induction front with
  | nil =>
      intro k p children wType vars hp _ hcount hvars h
      obtain ⟨v, v', rest, rfl⟩ : ∃ v v' rest, vars = v :: v' :: rest := by
        rcases vars with _ | ⟨v, _ | ⟨v', rest⟩⟩
        · simp at hvars
        · simp at hvars
        · exact ⟨v, v', rest, rfl⟩
      obtain ⟨hc, -, -⟩ := holds_joinPadded InfoMember.words h
      have hv := v.words_length
      have hv' := v'.words_length
      have hnone : Returns (ReadPadding file) (p + 2 * (16 + v.words.length)) 0
          (p + 2 * (16 + v.words.length)) := ReadPadding_none (by omega)
      have hk : k = 1 := by simpa using hcount
      have hwords := InfoMember.words_length (.varFileInfo wType (v :: v' :: rest))
      have hcontent : (InfoMember.varFileInfo wType (v :: v' :: rest)).content =
          joinPadded ((v :: v' :: rest).map VarMember.words) := rfl
      have hkey : headerSize (InfoMember.varFileInfo wType (v :: v' :: rest)).key = 16 :=
        show headerSize VersionInfo.varFileInfo = 16 from rfl
      have hsecond : v'.words.length ≤
          (joinPadded ((v' :: rest).map VarMember.words)).length := by
        rw [joinPadded_length]
        omega
      rw [hcontent, hkey, joinPadded_length] at hwords
      have hturn := childTurn_returns InfoObj.wLength
        (VarFileInfoRead_returns hp wType v (v' :: rest) hc) hnone
        ((2 * (InfoMember.varFileInfo wType (v :: v' :: rest)).words.length + 2 * 1 : Nat) : Int)
        children
      have hlength : ((InfoMember.varFileInfo wType (v :: v' :: rest)).read p).wLength =
          2 * (InfoMember.varFileInfo wType (v :: v' :: rest)).words.length := rfl
      have hleft : ((2 * (InfoMember.varFileInfo wType (v :: v' :: rest)).words.length + 2 * 1
            : Nat) : Int) - ((InfoMember.varFileInfo wType (v :: v' :: rest)).read p).wLength -
            (0 : Nat) = 2 := by
        omega
      have hgo : ((2 * (InfoMember.varFileInfo wType (v :: v' :: rest)).words.length + 2 * 1
          : Nat) : Int) ≠ 2 := by omega
      rw [hleft] at hturn
      subst hk
      refine ⟨p + 2 * (16 + v.words.length), ?_, ?_⟩
      · exact LoopReturns.turn (decide_eq_true hgo) hturn (LoopReturns.done rfl)
      · simp only [List.nil_append, List.map_cons, List.map_nil, joinPadded]
        omega
  | cons c front ih =>
      intro k p children wType vars hp hpassed hcount hvars h
      have hc := hpassed c (by simp)
      have hparity := InfoMember.words_parity hc
      have hpos := c.words_pos
      rw [List.cons_append] at h ⊢
      obtain ⟨hholds, hpad, hnext⟩ := holds_joinPadded InfoMember.words h
      have hread := InfoRead_passed hp c hc (holds_append.mpr ⟨hholds, hpad (by simp)⟩)
      have hnone : Returns (ReadPadding file) (p + 2 * (c.words.length + c.words.length % 2)) 0
          (p + 2 * (c.words.length + c.words.length % 2)) := ReadPadding_none (by omega)
      rw [List.flatMap_cons, List.length_append] at hcount
      obtain ⟨q, hloop, hq⟩ := ih (k + c.words.length % 2)
        (p + 2 * (c.words.length + c.words.length % 2)) (children ++ [c.read p]) wType vars
        (by omega) (fun d hd => hpassed d (by simp [hd])) (by omega) hvars hnext
      have hnotEmpty : (front ++ [InfoMember.varFileInfo wType vars]).isEmpty = false := by simp
      rw [joinPadded_length, hnotEmpty]
      simp only [Bool.false_eq_true, if_false]
      have hturn := childTurn_returns InfoObj.wLength hread hnone
        ((2 * (c.words.length + c.words.length % 2 + (joinPadded ((front ++
          [InfoMember.varFileInfo wType vars]).map InfoMember.words)).length) + 2 * k : Nat) : Int)
        children
      have hlength : (c.read p).wLength = 2 * c.words.length := rfl
      have hleft : ((2 * (c.words.length + c.words.length % 2 + (joinPadded ((front ++
            [InfoMember.varFileInfo wType vars]).map InfoMember.words)).length) + 2 * k : Nat)
              : Int) - (c.read p).wLength - (0 : Nat) =
          ((2 * (joinPadded ((front ++ [InfoMember.varFileInfo wType vars]).map
            InfoMember.words)).length + 2 * (k + c.words.length % 2) : Nat) : Int) := by
        omega
      have hgo : ((2 * (c.words.length + c.words.length % 2 + (joinPadded ((front ++
          [InfoMember.varFileInfo wType vars]).map InfoMember.words)).length) + 2 * k : Nat)
            : Int) ≠ 2 := by omega
      have hreads : children ++ [c.read p] ++ InfoMember.reads
            (p + 2 * (c.words.length + c.words.length % 2))
            (front ++ [.varFileInfo wType vars]) =
          children ++ InfoMember.reads p (c :: (front ++ [.varFileInfo wType vars])) := by
        rw [List.append_assoc]
        rfl
      rw [hleft] at hturn
      rw [hreads] at hloop
      exact ⟨q, LoopReturns.turn (decide_eq_true hgo) hturn hloop, by omega⟩

/-! ## The resource -/

/-- The value is read. -/
theorem FixedFileInfoRead_returns {p : Nat} (v : FixedFileInfo)
    (h : Holds file p (v.fields.flatMap dword)) :
    Returns (FixedFileInfoRead file) p v (p + 52) := by
  simp only [FixedFileInfo.fields, List.flatMap_cons, List.flatMap_nil, List.append_nil] at h
  obtain ⟨h0, h⟩ := holds_append.mp h
  obtain ⟨h1, h⟩ := holds_append.mp h
  obtain ⟨h2, h⟩ := holds_append.mp h
  obtain ⟨h3, h⟩ := holds_append.mp h
  obtain ⟨h4, h⟩ := holds_append.mp h
  obtain ⟨h5, h⟩ := holds_append.mp h
  obtain ⟨h6, h⟩ := holds_append.mp h
  obtain ⟨h7, h⟩ := holds_append.mp h
  obtain ⟨h8, h⟩ := holds_append.mp h
  obtain ⟨h9, h⟩ := holds_append.mp h
  obtain ⟨h10, h⟩ := holds_append.mp h
  obtain ⟨h11, h12⟩ := holds_append.mp h
  exact (DWORD_dword h0).bind <| (DWORD_dword h1).bind <| (DWORD_dword h2).bind <|
    (DWORD_dword h3).bind <| (DWORD_dword h4).bind <| (DWORD_dword h5).bind <|
    (DWORD_dword h6).bind <| (DWORD_dword h7).bind <| (DWORD_dword h8).bind <|
    (DWORD_dword h9).bind <| (DWORD_dword h10).bind <| (DWORD_dword h11).bind <|
    (DWORD_dword h12).bind <| Returns.pure _ _

/-- There is no value, or one of 26 words. -/
theorem Resource.valueWords_length (r : Resource) :
    r.valueWords.length = 0 ∨ r.valueWords.length = 26 := by
  unfold Resource.valueWords
  split
  · exact .inl rfl
  · exact .inr rfl

/-- The value of the resource is read, if it has one. -/
theorem ValueRead_returns {p : Nat} (r : Resource) (h : Holds file p r.valueWords) :
    Returns (ValueRead file (2 * r.valueWords.length) p) p r.value
      (p + 2 * r.valueWords.length) := by
  rcases hvalue : r.value with _ | v
  · have hwords : r.valueWords = [] := by simp [Resource.valueWords, hvalue]
    rw [hwords, ValueRead, if_neg (by simp)]
    exact Returns.pure _ _
  · have hwords : r.valueWords = v.fields.flatMap dword := by simp [Resource.valueWords, hvalue]
    have hlength : 2 * r.valueWords.length = 52 := by rw [hwords]; rfl
    rw [hwords] at h
    rw [hlength, ValueRead, if_pos (by decide)]
    exact (FixedFileInfoRead_returns v h).bind <| (Returns.get _).bind <|
      (Returns.check (by simp) _ _).bind <|
      (Returns.check (by simpa using r.signed v hvalue) _ _).bind <| Returns.pure _ _

section Root

variable {p : Nat} {r : Resource}

/-- Where the children start. -/
def Resource.childrenPosition (r : Resource) (p : Nat) : Nat :=
  p + 2 * (headerSize vsVersionInfo + r.valueWords.length)

theorem Resource.words_length (r : Resource) : r.words.length =
    headerSize vsVersionInfo + r.valueWords.length +
      (joinPadded (r.children.map InfoMember.words)).length := by
  rw [Resource.words, member_length, List.length_append]
  omega

/-- The children in the file. -/
theorem Resource.holds_children (h : Holds file p r.words) :
    Holds file (r.childrenPosition p) (joinPadded (r.children.map InfoMember.words)) := by
  obtain ⟨-, hchildren⟩ := holds_append.mp (memberAt h).contentAt
  have hp : p + 2 * headerSize vsVersionInfo + 2 * r.valueWords.length = r.childrenPosition p := by
    unfold Resource.childrenPosition
    omega
  exact hp ▸ hchildren

/-- Before the children the reader returns from every part, and the loop starts
with their length. -/
theorem ResourceDataVersionRead_eq (hp : p % 4 = 0) (h : Holds file p r.words) :
    ∃ rest : List InfoObj → Nat → VersionObj,
      (∀ children item, (rest children item).children = children) ∧
      (∀ q children q', Returns
          (readChildren file 2 (VarFileOrStringFileInfoRead file) InfoObj.wLength
            ((2 * (joinPadded (r.children.map InfoMember.words)).length + 2 * 0 : Nat) : Int))
          (r.childrenPosition p) children q → q' = q + 2 →
        Returns (ResourceDataVersionRead file) p (rest children (word file q)) q') ∧
      ∀ fuel obj q', ResourceDataVersionRead file fuel p = .ok (obj, q') →
        ∃ children q, readChildren file 2 (VarFileOrStringFileInfoRead file) InfoObj.wLength
            ((2 * (joinPadded (r.children.map InfoMember.words)).length + 2 * 0 : Nat) : Int)
            fuel (r.childrenPosition p) = .ok (children, q) ∧
          q' = q + 2 ∧ obj = rest children (word file q) := by
  have hm := memberAt h
  have hvalueWords := r.valueWords_length
  have hsize : headerSize vsVersionInfo = 20 := rfl
  obtain ⟨hvalue, -⟩ := holds_append.mp hm.contentAt
  have hread := ValueRead_returns r hvalue
  have hposition : p + 2 * headerSize vsVersionInfo + 2 * r.valueWords.length =
      r.childrenPosition p := by
    unfold Resource.childrenPosition
    omega
  rw [hposition, ← hm.valueLengthAt] at hread
  have hnone : Returns (ReadPadding file) (r.childrenPosition p) 0 (r.childrenPosition p) := by
    refine ReadPadding_none ?_
    unfold Resource.childrenPosition
    omega
  have hlength : (word file p : Int) - 6 -
        ((UTF16toJSString (vsVersionInfo.map wchar)).length + 1) * 2 -
        (2 * (vsVersionInfo.length % 2) + 0 : Nat) - word file (p + 2) =
      ((2 * (joinPadded (r.children.map InfoMember.words)).length + 2 * 0 : Nat) : Int) := by
    rw [hm.lengthAt, hm.valueLengthAt, ascii_vsVersionInfo.toJSString, hsize, List.length_append,
      show vsVersionInfo.length = 15 from rfl]
    omega
  have hkey : decide (UTF16toJSString (vsVersionInfo.map wchar) = vsVersionInfo) = true := by
    rw [ascii_vsVersionInfo.toJSString]
    exact decide_eq_true rfl
  refine ⟨fun children item =>
    { wLength := word file p
      wValueLength := word file (p + 2)
      wType := word file (p + 2 + 2)
      szKey := vsVersionInfo.map wchar
      valuePosition := p + 2 * headerSize vsVersionInfo
      value := r.value
      children := children
      childrenItem := item }, fun _ _ => rfl, ?_, ?_⟩
  · rintro q children _ hchildren rfl
    rw [← hlength] at hchildren
    exact (WORD_returns p).bind <| (WORD_returns (p + 2)).bind <|
      (WORD_returns (p + 2 + 2)).bind <| (hm.readKey ascii_vsVersionInfo.ne_zero).bind <|
      (Returns.check hkey _ _).bind <| (hm.readPadding hp).bind <| (Returns.get _).bind <|
      hread.bind <| hnone.bind <| hchildren.bind <| (WORD_returns q).bind <| Returns.pure _ _
  · intro fuel obj q' hok
    have hok := (WORD_returns p).step hok
    have hok := (WORD_returns (p + 2)).step hok
    have hok := (WORD_returns (p + 2 + 2)).step hok
    have hok := (hm.readKey ascii_vsVersionInfo.ne_zero).step hok
    have hok := (check_ok hok).2
    have hok := (hm.readPadding hp).step hok
    have hok := (Returns.get _).step hok
    have hok := hread.step hok
    have hok := hnone.step hok
    obtain ⟨children, q, hchildren, hok⟩ := bind_ok hok
    have hok := (WORD_returns q).step hok
    cases hok
    rw [hlength] at hchildren
    exact ⟨children, q, hchildren, rfl, rfl⟩

end Root

/-! ## The tree that is read -/

section Views

variable {α β γ : Type} {words : α → List Nat}

theorem placed_map (f : β → γ) (at' : α → Nat → β) (p : Nat) (as : List α) :
    (placed words at' p as).map f = placed words (fun a q => f (at' a q)) p as := by
  induction as generalizing p with
  | nil => rfl
  | cons a rest ih => simp only [placed, List.map_cons, ih]

/-- A property of each member that does not depend on its position. -/
theorem placed_const (f : α → β) (p : Nat) (as : List α) :
    placed words (fun a _ => f a) p as = as.map f := by
  induction as generalizing p with
  | nil => rfl
  | cons a rest ih => simp only [placed, List.map_cons, ih]

theorem placed_length (at' : α → Nat → β) (p : Nat) (as : List α) :
    (placed words at' p as).length = as.length := by
  induction as generalizing p with
  | nil => rfl
  | cons a rest ih => simp only [placed, List.length_cons, ih]

/-- Members are placed alike if each of them is. -/
theorem placed_eq_iff {f g : α → Nat → β} {P : α → Prop} (h : ∀ a p, f a p = g a p ↔ P a)
    (p : Nat) (as : List α) :
    placed words f p as = placed words g p as ↔ ∀ a ∈ as, P a := by
  induction as generalizing p with
  | nil => simp [placed]
  | cons a rest ih => simp only [placed, List.cons.injEq, h, ih, List.forall_mem_cons]

end Views

/-- A string is read as it is if its value is plain. -/
theorem StringMember.read_view (s : StringMember) (p : Nat) :
    (s.read p).view = s.view p ↔ ∀ u ∈ s.value, Plain u := by
  have hkey := (ascii_supported s.key s.supported).toJSString
  have hvalue := plain_toJSString fun u hu => (s.unit u hu).2
  simp only [StringObj.view, StringMember.read, StringMember.view, hkey, Prod.mk.injEq, hvalue,
    true_and, and_true]

/-- A table is seen as it is if its values are plain. -/
theorem TableMember.read_view (t : TableMember) (p : Nat) :
    (t.read p).view = t.view p ↔ ∀ s ∈ t.strings, ∀ u ∈ s.value, Plain u := by
  have hkey := t.ascii.toJSString
  simp only [StringTableObj.view, TableMember.read, TableMember.view, hkey, StringMember.reads,
    placed_map, Prod.mk.injEq, true_and]
  exact placed_eq_iff StringMember.read_view _ _

/-- The tables of a block are seen as they are if all their values are plain. -/
theorem InfoMember.read_view (c : InfoMember) (p : Nat) :
    (c.read p).children.tablesView = c.view p ↔
      ∀ t ∈ c.tables, ∀ s ∈ t.strings, ∀ u ∈ s.value, Plain u := by
  cases c with
  | stringFileInfo wType tables =>
      simp only [InfoMember.read, InfoChildren.tablesView, placed_map, InfoMember.view,
        InfoMember.tables]
      exact placed_eq_iff TableMember.read_view _ _
  | varFileInfo wType vars => simp [InfoMember.read, InfoChildren.tablesView, InfoMember.view,
      InfoMember.tables]

/-- The tree that is read is the tree of the resource if the values are plain. -/
theorem InfoMember.reads_view (p : Nat) (cs : List InfoMember) :
    (InfoMember.reads p cs).map (fun c => c.children.tablesView) =
        placed InfoMember.words InfoMember.view p cs ↔
      ∀ c ∈ cs, ∀ t ∈ c.tables, ∀ s ∈ t.strings, ∀ u ∈ s.value, Plain u := by
  rw [InfoMember.reads, placed_map]
  exact placed_eq_iff InfoMember.read_view _ _

/-- The tree tells the numbers of strings. -/
theorem InfoChildren.counts_view (c : InfoChildren) :
    c.tablesView.map (fun t => t.2.length) = c.counts := by
  cases c with
  | vars children => rfl
  | tables children => simp [InfoChildren.tablesView, InfoChildren.counts, StringTableObj.view]

/-- The tables that are seen have as many strings as there are. -/
theorem InfoMember.counts_view (c : InfoMember) (p : Nat) :
    (c.view p).map (fun t => t.2.length) = c.counts := by
  cases c with
  | stringFileInfo wType tables =>
      have hcount : ∀ (t : TableMember) (q : Nat), (t.view q).2.length = t.strings.length :=
        fun t q => placed_length _ _ _
      simp only [InfoMember.view, placed_map, hcount, placed_const, InfoMember.counts,
        InfoMember.tables]
  | varFileInfo wType vars => rfl

section Main

variable {p : Nat} {r : Resource}

/-- A resource that is read correctly is readable. -/
theorem readable_of_readCorrectly (hp : p % 4 = 0) (h : Holds file p r.words)
    (hread : ReadCorrectly file p r) : r.Readable := by
  obtain ⟨fuel, obj, q', hok, hq, hview⟩ := hread
  obtain ⟨rest, hchildren, -, hback⟩ := ResourceDataVersionRead_eq hp h
  obtain ⟨children, q, hloop, rfl, rfl⟩ := hback fuel obj q' hok
  have htree : children.map (fun c => c.children.tablesView) =
      placed InfoMember.words InfoMember.view (r.childrenPosition p) r.children := by
    rw [VersionObj.view, hchildren] at hview
    exact hview
  have hcounts : children.map (fun c => c.children.counts) = r.children.map InfoMember.counts := by
    have := congrArg (List.map (List.map fun t : TableView => t.2.length)) htree
    simpa only [List.map_map, Function.comp_def, InfoChildren.counts_view, placed_map,
      InfoMember.counts_view, placed_const] using this
  have hend : q + 2 ≤ r.childrenPosition p +
      2 * (joinPadded (r.children.map InfoMember.words)).length := by
    rw [r.words_length] at hq
    unfold Resource.childrenPosition
    omega
  have hposition : r.childrenPosition p % 4 = 0 := by
    have := r.valueWords_length
    have hsize : headerSize vsVersionInfo = 20 := rfl
    unfold Resource.childrenPosition
    omega
  obtain ⟨turns, length', hturns⟩ := readChildren_ok hloop
  obtain ⟨⟨front, wType, vars, hcs, hvars, hfront, hcount⟩, hreads⟩ := children_ok r.children 0
    turns fuel _ q length' [] children hposition (Resource.holds_children h) hturns hend
    (by simpa using hcounts)
  refine ⟨⟨front, wType, vars, hcs, hvars, hfront, by omega⟩, ?_⟩
  rw [hreads, List.nil_append] at htree
  exact (InfoMember.reads_view _ _).mp htree

/-- A readable resource is read correctly. -/
theorem readCorrectly_of_readable (hp : p % 4 = 0) (h : Holds file p r.words)
    (hr : r.Readable) : ReadCorrectly file p r := by
  obtain ⟨front, wType, vars, hcs, hvars, hfront, hcount⟩ := hr.children
  obtain ⟨rest, hchildren, hforth, -⟩ := ResourceDataVersionRead_eq hp h
  have hholds := Resource.holds_children h
  have hposition : r.childrenPosition p % 4 = 0 := by
    have := r.valueWords_length
    have hsize : headerSize vsVersionInfo = 20 := rfl
    unfold Resource.childrenPosition
    omega
  rw [hcs] at hholds
  obtain ⟨q, hloop, hq⟩ := children_returns front 0 (r.childrenPosition p) [] wType vars hposition
    hfront (by omega) hvars hholds
  rw [← hcs] at hloop hq
  have hreturns := hforth q _ _ (readChildren_returns hloop) rfl
  obtain ⟨fuel, hfuel⟩ := hreturns.enough
  refine ⟨fuel, _, _, hfuel fuel (Nat.le_refl _), ?_, ?_⟩
  · rw [r.words_length]
    unfold Resource.childrenPosition at hq
    omega
  · rw [VersionObj.view, hchildren, List.nil_append]
    exact (InfoMember.reads_view _ _).mpr hr.plain

/-- **A version resource is read correctly exactly if it is readable.** -/
theorem readCorrectly_iff (hp : 4 ∣ p) (h : Holds file p r.words) :
    ReadCorrectly file p r ↔ r.Readable :=
  ⟨readable_of_readCorrectly (Nat.mod_eq_zero_of_dvd hp) h,
    readCorrectly_of_readable (Nat.mod_eq_zero_of_dvd hp) h⟩

end Main

end Reading

/-! ## Two resources -/

/-- The file that starts with the words. -/
def fileOf (ws : List Nat) : File := fun i =>
  UInt8.ofNat (if i % 2 = 0 then ws.getD (i / 2) 0 % 256 else ws.getD (i / 2) 0 / 256)

/-- A file made of words holds those at its end. -/
theorem holds_fileOf_append (front back : List Nat) (hback : ∀ w ∈ back, w < 65536) :
    Holds (fileOf (front ++ back)) (2 * front.length) back := by
  induction back generalizing front with
  | nil => trivial
  | cons w back ih =>
      have hw := hback w (by simp)
      have hrest := ih (front ++ [w]) fun v hv => hback v (by simp [hv])
      refine ⟨?_, by simpa [Nat.mul_add] using hrest⟩
      have hlow : 2 * front.length / 2 = front.length := by omega
      have hhigh : (2 * front.length + 1) / 2 = front.length := by omega
      have hodd : ¬ (2 * front.length + 1) % 2 = 0 := by omega
      have hget : (front ++ w :: back).getD front.length 0 = w := by simp
      simp only [word, fileOf, hlow, hhigh, hodd, Nat.mul_mod_right, if_true, if_false, hget,
        UInt8.toNat_ofNat']
      omega

theorem holds_fileOf (ws : List Nat) (h : ∀ w ∈ ws, w < 65536) : Holds (fileOf ws) 0 ws := by
  simpa using holds_fileOf_append [] ws h

/-- A table with the string `ProductName`. -/
def sampleTable (value : Units) (h : ∀ u ∈ value, 0 < u ∧ u < 65536) : TableMember where
  wType := 1
  key := units ['0', '4', '0', '9', '0', '4', 'b', '0']
  digits := by decide
  strings :=
    [{ wType := 1
       key := units ['P', 'r', 'o', 'd', 'u', 'c', 't', 'N', 'a', 'm', 'e']
       supported := by decide
       value := value
       unit := h }]

/-- A resource with one table and with two `Var`s. -/
def sample (table : TableMember) : Resource where
  wType := 1
  value := some
    { dwSignature := 0xFEEF04BD
      dwStrucVersion := 0x10000
      dwFileVersionMS := 0x10002
      dwFileVersionLS := 3
      dwProductVersionMS := 0x10002
      dwProductVersionLS := 3
      dwFileFlagsMask := 0x3F
      dwFileFlags := 0
      dwFileOS := 0x40004
      dwFileType := 1
      dwFileSubtype := 0
      dwFileDateMS := 0
      dwFileDateLS := 0 }
  signed := by simp
  children :=
    [.stringFileInfo 1 [table], .varFileInfo 1 [⟨0, [0x4B00409]⟩, ⟨0, [0x4B00407]⟩]]

/-- The product name `tint`. -/
def evenSample : Resource := sample (sampleTable (units ['t', 'i', 'n', 't']) (by decide))

/-- The product name `tints`, with one character more. -/
def oddSample : Resource := sample (sampleTable (units ['t', 'i', 'n', 't', 's']) (by decide))

/-- A resource whose only string ends two bytes before a boundary is read. -/
theorem readCorrectly_iff_even :
    4 ∣ 0 ∧ Holds (fileOf evenSample.words) 0 evenSample.words ∧
      (ReadCorrectly (fileOf evenSample.words) 0 evenSample ↔ evenSample.Readable) :=
  ⟨by decide, holds_fileOf _ (by decide +kernel),
    readCorrectly_iff (by decide) (holds_fileOf _ (by decide +kernel))⟩

/-- **The reader does not find the end of a table**: its only string ends on a
boundary, and two bytes are left over. -/
theorem table_without_end :
    ¬ ∀ (file : File) (p : Nat) (r : Resource), 4 ∣ p → Holds file p r.words →
      ReadCorrectly file p r := by
  intro hall
  have hholds : Holds (fileOf oddSample.words) 0 oddSample.words :=
    holds_fileOf _ (by decide +kernel)
  have hread := readable_of_readCorrectly rfl hholds (hall _ 0 oddSample (by decide) hholds)
  obtain ⟨cs, wType, vars, hcs, -, hpassed, -⟩ := hread.children
  have hfront : oddSample.children.dropLast = cs := by
    rw [hcs, List.dropLast_concat]
  have hmem :
      .stringFileInfo 1 [sampleTable (units ['t', 'i', 'n', 't', 's']) (by decide)] ∈ cs := by
    rw [← hfront]
    exact List.mem_singleton.mpr rfl
  obtain ⟨s, hs, heven⟩ := (hpassed _ hmem).2 _ (List.mem_singleton.mpr rfl)
  obtain rfl := Option.some.inj hs
  revert heven
  decide

end VersionInfo

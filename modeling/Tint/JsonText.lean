import Tint.Utf

/-!
# JSON text

A reader of JSON text in bytes, as far as it takes to find a string in the object that the text
is: `stringMember` is the value of the last member with a key, if that is a string.  The bytes of
strings are kept, and what is escaped by number is written as UTF-8.  Arrays and inner objects are
read and not kept.  A member is kept together with the text from its key on, so that one can say
where it stands.

* `string?_of_entry` -- a member whose text is its key, a colon and a string without escapes has
  that string.
-/

namespace JsonText

/-- Bytes in a row. -/
abbrev Bytes := List UInt8

/-- The bytes of a string of ASCII characters. -/
def ascii (s : String) : Bytes := s.toList.map fun c => UInt8.ofNat c.toNat

/-- White space. -/
def isSpace (b : UInt8) : Bool := b == 0x20 || b == 0x09 || b == 0x0A || b == 0x0D

/-- What comes behind white space. -/
def skipSpace (t : Bytes) : Bytes := t.dropWhile isSpace

/-- The rest after one byte, if the text begins with it. -/
def expect (b : UInt8) (t : Bytes) : Option Bytes := if t.head? = some b then some t.tail else none

/-! ## Numbers -/

/-- A decimal digit. -/
def isDigit (b : UInt8) : Bool := 0x30 ≤ b && b ≤ 0x39

/-- One digit or more. -/
def digits (t : Bytes) : Option Bytes :=
  if t.head?.any isDigit then some (t.dropWhile isDigit) else none

/-- The rest after a number: a sign, an integer, a fraction, an exponent. -/
def number (t : Bytes) : Option Bytes :=
  let unsigned := (expect 0x2D t).getD t
  let integer := (expect 0x30 unsigned).or (digits unsigned)
  integer.bind fun t =>
    let fraction :=
      match expect 0x2E t with
      | some t => digits t
      | none => some t
    fraction.bind fun t =>
      match (expect 0x65 t).or (expect 0x45 t) with
      | some t => digits (((expect 0x2B t).or (expect 0x2D t)).getD t)
      | none => some t

/-! ## Strings -/

/-- A piece of a string. -/
inductive Piece
  | byte (b : UInt8)
  | unit (u : UInt16)

/-- Within a string, behind a backslash, and within the digits of `\u`. -/
inductive Mode
  | plain
  | escape
  | hex (left : Nat) (value : UInt16)

def quote : UInt8 := 0x22
def backslash : UInt8 := 0x5C

/-- What an escaped character stands for. -/
def unescaped (b : UInt8) : Option UInt8 :=
  if b = quote ∨ b = backslash ∨ b = 0x2F then some b
  else if b = 0x62 then some 0x08
  else if b = 0x66 then some 0x0C
  else if b = 0x6E then some 0x0A
  else if b = 0x72 then some 0x0D
  else if b = 0x74 then some 0x09
  else none

/-- The value of a hexadecimal digit. -/
def hexDigit (b : UInt8) : Option UInt16 :=
  if isDigit b then some (b.toUInt16 - 0x30)
  else if 0x41 ≤ b && b ≤ 0x46 then some (b.toUInt16 - 0x41 + 10)
  else if 0x61 ≤ b && b ≤ 0x66 then some (b.toUInt16 - 0x61 + 10)
  else none

/-- The pieces up to the closing quote, and the rest. -/
def pieces : Mode → Bytes → Option (List Piece × Bytes)
  | _, [] => none
  | .plain, b :: t =>
      if b = quote then some ([], t)
      else if b = backslash then pieces .escape t
      else if b < 0x20 then none
      else (pieces .plain t).map fun rest => (.byte b :: rest.1, rest.2)
  | .escape, b :: t =>
      if b = 0x75 then pieces (.hex 4 0) t
      else
        (unescaped b).bind fun c =>
          (pieces .plain t).map fun rest => (.byte c :: rest.1, rest.2)
  | .hex left value, b :: t =>
      (hexDigit b).bind fun digit =>
        if left = 1 then
          (pieces .plain t).map fun rest => (.unit (16 * value + digit) :: rest.1, rest.2)
        else pieces (.hex (left - 1) (16 * value + digit)) t

/-- The bytes of the pieces; units that follow each other are written together. -/
def encode : List UInt16 → List Piece → Bytes
  | units, [] => Utf.writeUtf8 units
  | units, .byte b :: ps => Utf.writeUtf8 units ++ b :: encode [] ps
  | units, .unit u :: ps => encode (units ++ [u]) ps

/-- A string behind its opening quote, and the rest. -/
def string (t : Bytes) : Option (Bytes × Bytes) :=
  (pieces .plain t).map fun read => (encode [] read.1, read.2)

/-! ## Values -/

/-- A member of an object: the text from its key on, its key, and its value if that is a string. -/
structure Member where
  text : Bytes
  key : Bytes
  string? : Option Bytes
  deriving DecidableEq

/-- A string, an object with its members, or another value. -/
inductive Value
  | string (s : Bytes)
  | object (members : List Member)
  | other

/-- The string that a value is. -/
def Value.string? : Value → Option Bytes
  | .string s => some s
  | _ => none

mutual

/-- A value, and the rest; `fuel` bounds the steps. -/
def value : Nat → Bytes → Option (Value × Bytes)
  | 0, _ => none
  | fuel + 1, t =>
      let t := skipSpace t
      if t.head? = some quote then (string t.tail).map fun read => (.string read.1, read.2)
      else if t.head? = some 0x7B then
        if (skipSpace t.tail).head? = some 0x7D then some (.object [], (skipSpace t.tail).tail)
        else (members fuel t.tail).map fun read => (.object read.1, read.2)
      else if t.head? = some 0x5B then
        if (skipSpace t.tail).head? = some 0x5D then some (.other, (skipSpace t.tail).tail)
        else (elements fuel t.tail).map fun rest => (.other, rest)
      else
        match [ascii "true", ascii "false", ascii "null"].find? fun word => word.isPrefixOf t with
        | some word => some (.other, t.drop word.length)
        | none => (number t).map fun rest => (.other, rest)

/-- Members, one at least, and the rest behind the closing brace. -/
def members : Nat → Bytes → Option (List Member × Bytes)
  | 0, _ => none
  | fuel + 1, t =>
      let text := skipSpace t
      (expect quote text).bind fun t =>
        (string t).bind fun key =>
          (expect 0x3A (skipSpace key.2)).bind fun t =>
            (value fuel t).bind fun read =>
              let member : Member := ⟨text, key.1, read.1.string?⟩
              let t := skipSpace read.2
              if t.head? = some 0x2C then
                (members fuel t.tail).map fun rest => (member :: rest.1, rest.2)
              else (expect 0x7D t).map fun t => ([member], t)

/-- Elements, one at least, and the rest behind the closing bracket. -/
def elements : Nat → Bytes → Option Bytes
  | 0, _ => none
  | fuel + 1, t =>
      (value fuel t).bind fun read =>
        let t := skipSpace read.2
        if t.head? = some 0x2C then elements fuel t.tail else expect 0x5D t

end

/-- The value that a text is.  Each step but one takes a byte or more. -/
def parse (t : Bytes) : Option Value :=
  (value (2 * t.length + 2) t).bind fun read =>
    if skipSpace read.2 = [] then some read.1 else none

/-- The last member with a key of the object that the text is. -/
def lastMember (key : Bytes) (t : Bytes) : Option Member :=
  match parse t with
  | some (.object members) => members.reverse.find? fun member => member.key = key
  | _ => none

/-- The string at a key of the object that the text is: the last member with the key counts. -/
def stringMember (key : Bytes) (t : Bytes) : Option Bytes :=
  (lastMember key t).bind Member.string?

example : stringMember (ascii "main")
    (ascii "\x7b \"a\": [1, \x7b\"main\": 2\x7d], \"main\" : \"b\\/c\" \x7d") =
      some (ascii "b/c") := by decide +kernel

/-! ## Members and their texts -/

/-- A member is what its text is read as: a key, a colon and a value. -/
def Member.Read (member : Member) : Prop :=
  ∃ inner after colon fuel read, expect quote member.text = some inner ∧
    string inner = some (member.key, after) ∧ expect 0x3A (skipSpace after) = some colon ∧
    value fuel colon = some read ∧ member.string? = read.1.string?

/-- The members that are read. -/
theorem members_read {fuel : Nat} {t : Bytes} {read : List Member × Bytes}
    (h : members fuel t = some read) : ∀ member ∈ read.1, member.Read := by
  induction fuel generalizing t read with
  | zero => cases h
  | succ fuel ih =>
      simp only [members, Option.bind_eq_some_iff] at h
      obtain ⟨inner, hinner, key, hkey, colon, hcolon, first, hfirst, h⟩ := h
      have hmember : Member.Read ⟨skipSpace t, key.1, first.1.string?⟩ :=
        ⟨inner, key.2, colon, fuel, first, hinner, hkey, hcolon, hfirst, rfl⟩
      split at h
      · obtain ⟨rest, hrest, rfl⟩ := Option.map_eq_some_iff.mp h
        exact List.forall_mem_cons.mpr ⟨hmember, ih hrest⟩
      · obtain ⟨rest, -, rfl⟩ := Option.map_eq_some_iff.mp h
        exact List.forall_mem_singleton.mpr hmember

/-- The members of an object that is read. -/
theorem value_read {fuel : Nat} {t rest : Bytes} {ms : List Member}
    (h : value fuel t = some (.object ms, rest)) : ∀ member ∈ ms, member.Read := by
  cases fuel with
  | zero => cases h
  | succ fuel =>
      simp only [value] at h
      split at h
      · obtain ⟨_, _, h⟩ := Option.map_eq_some_iff.mp h
        cases h
      · split at h
        · split at h
          · cases h
            exact fun _ hmem => absurd hmem List.not_mem_nil
          · obtain ⟨read, hread, h⟩ := Option.map_eq_some_iff.mp h
            cases h
            exact members_read hread
        · split at h
          · split at h
            · cases h
            · obtain ⟨_, _, h⟩ := Option.map_eq_some_iff.mp h
              cases h
          · split at h
            · cases h
            · obtain ⟨_, _, h⟩ := Option.map_eq_some_iff.mp h
              cases h

/-- The last member with a key is one that was read. -/
theorem lastMember_read {key t : Bytes} {member : Member} (h : lastMember key t = some member) :
    member.Read := by
  unfold lastMember at h
  split at h
  · next ms hparse =>
    obtain ⟨read, hread, hobject⟩ := Option.bind_eq_some_iff.mp hparse
    obtain ⟨-, hvalue⟩ := Option.ite_none_right_eq_some.mp hobject
    obtain ⟨object, rest⟩ := read
    obtain rfl := Option.some.inj hvalue
    exact value_read hread member (List.mem_reverse.mp (List.mem_of_find?_eq_some h))
  · cases h

/-- A byte that stands for itself within a string. -/
def plain (b : UInt8) : Bool := b != quote && b != backslash && decide (0x20 ≤ b)

/-- A string without escapes. -/
theorem string_plain {s : Bytes} (h : ∀ b ∈ s, plain b = true) (rest : Bytes) :
    string (s ++ quote :: rest) = some (s, rest) := by
  have hpieces : pieces .plain (s ++ quote :: rest) = some (s.map .byte, rest) := by
    induction s with
    | nil => rfl
    | cons b s ih =>
        obtain ⟨hb, hs⟩ := List.forall_mem_cons.mp h
        simp only [plain, Bool.and_eq_true, bne_iff_ne, decide_eq_true_eq] at hb
        have hlt : ¬ b < 0x20 := fun hlt => absurd hb.2 (UInt8.not_le.mpr hlt)
        rw [List.cons_append, pieces, if_neg hb.1.1, if_neg hb.1.2, if_neg hlt, ih hs]
        rfl
  have hencode : encode [] (s.map Piece.byte) = s := by
    clear h hpieces
    induction s with
    | nil => rfl
    | cons b s ih => rw [List.map_cons, encode, ih]; rfl
  rw [string, hpieces, Option.map_some, hencode]

/-- Space before anything else is skipped. -/
theorem skipSpace_append {space : Bytes} (h : ∀ b ∈ space, isSpace b = true) {b : UInt8}
    (hb : isSpace b = false) (rest : Bytes) : skipSpace (space ++ b :: rest) = b :: rest := by
  rw [skipSpace, List.dropWhile_append_of_pos h, List.dropWhile_cons_of_neg (by simp [hb])]

/-- A member whose text is a key, a colon and a string, both without escapes, has that string. -/
theorem string?_of_entry {member : Member} (hread : member.Read)
    {key space space' s behind : Bytes}
    (htext : member.text =
      quote :: (key ++ quote :: (space ++ 0x3A :: (space' ++ quote :: (s ++ quote :: behind)))))
    (hkey : ∀ b ∈ key, plain b = true) (hspace : ∀ b ∈ space, isSpace b = true)
    (hspace' : ∀ b ∈ space', isSpace b = true) (hs : ∀ b ∈ s, plain b = true) :
    member.string? = some s := by
  obtain ⟨inner, after, colon, fuel, read, hinner, hstring, hcolon, hvalue, hmember⟩ := hread
  obtain rfl : key ++ quote :: (space ++ 0x3A :: (space' ++ quote :: (s ++ quote :: behind))) =
      inner := by
    rw [htext] at hinner
    exact Option.some.inj hinner
  obtain rfl : space ++ 0x3A :: (space' ++ quote :: (s ++ quote :: behind)) = after :=
    (Prod.mk.inj (Option.some.inj ((string_plain hkey _).symm.trans hstring))).2
  obtain rfl : space' ++ quote :: (s ++ quote :: behind) = colon := by
    rw [skipSpace_append hspace (by decide)] at hcolon
    exact Option.some.inj hcolon
  cases fuel with
  | zero => cases hvalue
  | succ fuel =>
      rw [value, skipSpace_append hspace' (by decide)] at hvalue
      simp only [List.head?_cons, List.tail_cons, if_true, string_plain hs, Option.map_some,
        Option.some.injEq] at hvalue
      rw [hmember, ← hvalue]
      rfl

end JsonText

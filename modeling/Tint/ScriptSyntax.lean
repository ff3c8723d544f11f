import Mathlib.Data.List.Basic

/-!
# Script text

A fragment of the grammar of ECMAScript: the tokens of a text of UTF-16 code units (white space,
line terminators, words, string literals with their escapes, single punctuators), and the
statements of these tokens (declarations of a variable, and expressions of members and calls).
What is outside of it has no tokens, or no statements: comments, templates, the other
punctuators, the octal escapes and `\u\x7b..\x7d`.  Before it, two methods of texts.

A string literal must not contain a line terminator as it is.  Since the edition of 2019 the
separators `U+2028` and `U+2029` are allowed in it.

* `scan_append` -- the tokens of two pieces of text.
-/

namespace ScriptSyntax

/-- The edition of the language. -/
inductive Edition
  | es5
  | es2019
  deriving DecidableEq

/-- Text in UTF-16. -/
abbrev Text := List UInt16

/-- The code units of a string of characters below `U+10000`. -/
def units (s : String) : Text := s.toList.map fun c => UInt16.ofNat c.toNat

/-- `replace` of one unit, everywhere. -/
def replace (old : UInt16) (new : Text) (text : Text) : Text :=
  text.flatMap fun u => if u = old then new else [u]

/-- `split` at one unit. -/
def split (separator : UInt16) : Text → List Text
  | [] => [[]]
  | u :: us =>
      if u = separator then [] :: split separator us
      else
        match split separator us with
        | [] => [[u]]
        | first :: rest => (u :: first) :: rest

/-- Replacing a unit by itself changes nothing. -/
theorem replace_self (u : UInt16) (text : Text) : replace u [u] text = text := by
  have hsame : (fun v => if v = u then [u] else [v]) = fun v => [v] := by
    funext v
    by_cases hv : v = u
    · rw [if_pos hv, hv]
    · rw [if_neg hv]
  rw [replace, hsame, List.flatMap_singleton']

/-- There is always a part. -/
theorem split_ne_nil (separator : UInt16) (text : Text) : split separator text ≠ [] := by
  cases text with
  | nil => exact List.cons_ne_nil _ _
  | cons u us =>
      rw [split]
      by_cases hu : u = separator
      · rw [if_pos hu]
        exact List.cons_ne_nil _ _
      · rw [if_neg hu]
        cases split separator us <;> exact List.cons_ne_nil _ _

/-- Only the empty text is one empty part. -/
theorem split_eq_singleton_nil {separator : UInt16} {text : Text}
    (h : split separator text = [[]]) : text = [] := by
  cases text with
  | nil => rfl
  | cons u us =>
      rw [split] at h
      by_cases hu : u = separator
      · rw [if_pos hu] at h
        exact absurd (List.cons.inj h).2 (split_ne_nil separator us)
      · rw [if_neg hu] at h
        cases hrest : split separator us with
        | nil => exact absurd hrest (split_ne_nil separator us)
        | cons first rest =>
            rw [hrest] at h
            exact absurd (List.cons.inj h).1 (List.cons_ne_nil _ _)

def lineFeed : UInt16 := 0x0A
def carriageReturn : UInt16 := 0x0D
def lineSeparator : UInt16 := 0x2028
def paragraphSeparator : UInt16 := 0x2029
def quote : UInt16 := 0x27
def doubleQuote : UInt16 := 0x22
def backslash : UInt16 := 0x5C

/-- What ends a line. -/
def isLineTerminator (u : UInt16) : Bool :=
  u == lineFeed || u == carriageReturn || u == lineSeparator || u == paragraphSeparator

/-- What separates tokens. -/
def isWhiteSpace (u : UInt16) : Bool :=
  [0x09, 0x0B, 0x0C, 0x20, 0xA0, 0xFEFF, 0x1680, 0x202F, 0x205F, 0x3000].contains u ||
    (0x2000 ≤ u && u ≤ 0x200A)

/-- A decimal digit. -/
def isDigit (u : UInt16) : Bool := 0x30 ≤ u && u ≤ 0x39

/-- The units of names, keywords and decimal numbers. -/
def isWordUnit (u : UInt16) : Bool :=
  isDigit u || (0x41 ≤ u && u ≤ 0x5A) || (0x61 ≤ u && u ≤ 0x7A) || u == 0x24 || u == 0x5F

/-- The value of a hexadecimal digit. -/
def hexDigit (u : UInt16) : Option UInt16 :=
  if isDigit u then some (u - 0x30)
  else if 0x41 ≤ u && u ≤ 0x46 then some (u - 0x41 + 10)
  else if 0x61 ≤ u && u ≤ 0x66 then some (u - 0x61 + 10)
  else none

/-! ## String literals -/

/-- How far an escape has been read: none, the backslash, `\0`, a backslash and a carriage
return, and the digits of `\x` or `\u`. -/
inductive Escape
  | no
  | begun
  | zero
  | carriage
  | hex (left : Nat) (value : UInt16)
  deriving DecidableEq

/-- A line terminator that a literal must not contain as it is. -/
def endsLine (e : Edition) (u : UInt16) : Bool :=
  u == lineFeed || u == carriageReturn ||
    (e == .es5 && (u == lineSeparator || u == paragraphSeparator))

/-- `SingleEscapeCharacter` and `NonEscapeCharacter` -/
def unescaped (u : UInt16) : UInt16 :=
  if u = 0x62 then 0x08
  else if u = 0x74 then 0x09
  else if u = 0x6E then lineFeed
  else if u = 0x76 then 0x0B
  else if u = 0x66 then 0x0C
  else if u = 0x72 then carriageReturn
  else u

/-- One unit of a literal outside of an escape: what it adds to the value, and what follows
(`none` after the closing quote). -/
def plainUnit (e : Edition) (close u : UInt16) : Option (Text × Option Escape) :=
  if u = close then some ([], none)
  else if u = backslash then some ([], some .begun)
  else if endsLine e u then none
  else some ([u], some .no)

/-- What one unit of a literal stands for. -/
def literalUnit (e : Edition) (close : UInt16) : Escape → UInt16 → Option (Text × Option Escape)
  | .no, u => plainUnit e close u
  | .begun, u =>
      if u = carriageReturn then some ([], some .carriage)
      else if isLineTerminator u then some ([], some .no)
      else if u = 0x78 then some ([], some (.hex 2 0))
      else if u = 0x75 then some ([], some (.hex 4 0))
      else if u = 0x30 then some ([0], some .zero)
      else if isDigit u then none
      else some ([unescaped u], some .no)
  | .zero, u => if isDigit u then none else plainUnit e close u
  | .carriage, u => if u = lineFeed then some ([], some .no) else plainUnit e close u
  | .hex left value, u =>
      (hexDigit u).map fun digit =>
        if left = 1 then ([16 * value + digit], some .no)
        else ([], some (.hex (left - 1) (16 * value + digit)))

/-! ## Tokens -/

/-- What a script is scanned into. -/
inductive Token
  | word (text : Text)
  | string (value : Text)
  | punctuator (u : UInt16)
  deriving DecidableEq

/-- Where a scan is: between tokens, after a `.` or a `=`, which could begin a longer punctuator,
in a word, in a literal. -/
inductive Mode
  | between
  | sign
  | word (text : Text)
  | string (close : UInt16) (value : Text) (escape : Escape)
  deriving DecidableEq

def openParen : UInt16 := 0x28
def closeParen : UInt16 := 0x29
def comma : UInt16 := 0x2C
def semicolon : UInt16 := 0x3B
def dot : UInt16 := 0x2E
def equals : UInt16 := 0x3D

/-- A unit between two tokens. -/
def begin (u : UInt16) : Option (List Token × Mode) :=
  if isWhiteSpace u || isLineTerminator u then some ([], .between)
  else if isWordUnit u then some ([], .word [u])
  else if u = quote || u = doubleQuote then some ([], .string u [] .no)
  else if [openParen, closeParen, comma, semicolon].contains u then
    some ([.punctuator u], .between)
  else if u = dot || u = equals then some ([.punctuator u], .sign)
  else none

/-- One unit: the tokens that it ends, and the mode after it. -/
def turn (e : Edition) : Mode → UInt16 → Option (List Token × Mode)
  | .between, u => begin u
  | .sign, u => if u = dot || u = equals || u = 0x3E then none else begin u
  | .word text, u =>
      if isWordUnit u then some ([], .word (text ++ [u]))
      else (begin u).map fun next => (.word text :: next.1, next.2)
  | .string close value escape, u =>
      (literalUnit e close escape u).map fun next =>
        match next.2 with
        | none => ([.string (value ++ next.1)], .between)
        | some escape => ([], .string close (value ++ next.1) escape)

/-- The tokens of a text, and where it ends. -/
def scan (e : Edition) : Mode → Text → Option (List Token × Mode)
  | mode, [] => some ([], mode)
  | mode, u :: us =>
      (turn e mode u).bind fun next =>
        (scan e next.2 us).map fun rest => (next.1 ++ rest.1, rest.2)

/-- The tokens of a text; a literal must be closed. -/
def tokens (e : Edition) (text : Text) : Option (List Token) :=
  (scan e .between text).bind fun last =>
    match last.2 with
    | .between | .sign => some last.1
    | .word w => some (last.1 ++ [.word w])
    | .string _ _ _ => none

/-- **Two pieces.**  The second one goes on in the mode of the first. -/
theorem scan_append (e : Edition) (mode : Mode) (us vs : Text) :
    scan e mode (us ++ vs) = (scan e mode us).bind fun first =>
      (scan e first.2 vs).map fun rest => (first.1 ++ rest.1, rest.2) := by
  induction us generalizing mode with
  | nil => cases h : scan e mode vs <;> simp [scan, h]
  | cons u us ih =>
      rw [List.cons_append, scan, scan]
      cases hturn : turn e mode u with
      | none => rfl
      | some next =>
          rw [Option.bind_some, Option.bind_some, ih]
          cases hfirst : scan e next.2 us with
          | none => rfl
          | some first =>
              cases hrest : scan e first.2 vs <;> simp [hrest]

/-! ## Statements -/

/-- An expression. -/
inductive Expression
  | word (text : Text)
  | string (value : Text)
  | member (object : Expression) (name : Text)
  | call (callee : Expression) (args : List Expression)

/-- A statement. -/
inductive Statement
  | declaration (name : Text) (value : Expression)
  | expression (e : Expression)

/-- The keyword of a declaration. -/
def keywordVar : Text := units "var"

mutual

/-- An expression, and the tokens after it; `fuel` bounds the steps. -/
def expression : Nat → List Token → Option (Expression × List Token)
  | 0, _ => none
  | fuel + 1, .word text :: rest =>
      if text = keywordVar then none else suffixes fuel (.word text) rest
  | fuel + 1, .string value :: rest => suffixes fuel (.string value) rest
  | _ + 1, _ => none

/-- The members and calls behind an expression. -/
def suffixes : Nat → Expression → List Token → Option (Expression × List Token)
  | 0, _, _ => none
  | _ + 1, e, [] => some (e, [])
  | fuel + 1, e, .punctuator u :: rest =>
      if u = dot then
        match rest with
        | .word name :: rest => suffixes fuel (.member e name) rest
        | _ => none
      else if u = openParen then
        if rest.head? = some (.punctuator closeParen) then suffixes fuel (.call e []) rest.tail
        else (arguments fuel rest).bind fun args => suffixes fuel (.call e args.1) args.2
      else some (e, .punctuator u :: rest)
  | _ + 1, e, rest => some (e, rest)

/-- The arguments of a call, one at least, with the closing parenthesis. -/
def arguments : Nat → List Token → Option (List Expression × List Token)
  | 0, _ => none
  | fuel + 1, rest =>
      (expression fuel rest).bind fun first =>
        if first.2.head? = some (.punctuator comma) then
          (arguments fuel first.2.tail).map fun others => (first.1 :: others.1, others.2)
        else if first.2.head? = some (.punctuator closeParen) then
          some ([first.1], first.2.tail)
        else none

end

/-- One statement, with its semicolon. -/
def statement (fuel : Nat) (ts : List Token) : Option (Statement × List Token) :=
  let read : Option (Statement × List Token) :=
    match ts with
    | .word text :: .word name :: .punctuator u :: rest =>
        if text = keywordVar ∧ u = equals then
          (expression fuel rest).map fun value => (.declaration name value.1, value.2)
        else none
    | _ => (expression fuel ts).map fun value => (.expression value.1, value.2)
  read.bind fun first =>
    if first.2.head? = some (.punctuator semicolon) then some (first.1, first.2.tail) else none

/-- The statements of a script. -/
def statements : Nat → List Token → Option (List Statement)
  | _, [] => some []
  | 0, _ => none
  | fuel + 1, ts =>
      (statement (fuel + 1) ts).bind fun first =>
        (statements fuel first.2).map fun rest => first.1 :: rest

/-- The statements of a text.  A token takes two steps at most. -/
def program (e : Edition) (text : Text) : Option (List Statement) :=
  (tokens e text).bind fun ts => statements (2 * ts.length + 2) ts

end ScriptSyntax

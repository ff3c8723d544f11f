import Mathlib.Data.List.Basic

/-!
# Parsing Objective-C method type strings

A method's type string is its return encoding, the frame size, and then each
argument encoding with its offset, all run together (`Q40@0:8^{?=Q}16`).
`types.parse` takes it apart again with one pass over the characters: digits
outside brackets are dropped, an encoding ends at a closing bracket of depth
zero or at a character of `DELIMS`, and every other character outside brackets
is a prefix of the encoding that follows.

Every encoding of the grammar ends that way but two: a block `@?` and an object
with its class name `@"Name"` go on after the `@` that ends them for `parse`.

* `parse_flatten_iff` -- a flattened method type is parsed into its own
  encodings if and only if it starts with `@` and `:` and none of its encodings
  ends in a block or a quoted class name;
* `parse_splits_block` -- `v@:@?` is parsed into one argument too many.
-/

namespace TypeEncoding

/-- The node-ffi type of each type code. -/
def typeEncodings : List (Char × String) :=
  [('c', "char"), ('i', "int32"), ('s', "short"), ('l', "long"), ('q', "longlong"),
    ('C', "uchar"), ('I', "uint32"), ('S', "ushort"), ('L', "ulong"), ('Q', "ulonglong"),
    ('f', "float"), ('d', "double"), ('B', "int8"), ('v', "void"), ('*', "string"),
    ('@', "pointer"), ('#', "pointer"), (':', "pointer"), ('?', "pointer")]

/-- `Object.keys(typeEncodings)`. -/
def DELIMS : List Char := typeEncodings.map Prod.fst

/-- The method qualifiers. -/
def methodEncodings : List (Char × String) :=
  [('r', "const"), ('n', "in"), ('N', "inout"), ('o', "out"), ('O', "bycopy"), ('R', "byref"),
    ('V', "oneway")]

/-- `c === '{' || c === '[' || c === '('` -/
def isOpen (c : Char) : Bool := c == '{' || c == '[' || c == '('

/-- `c === '}' || c === ']' || c === ')'` -/
def isClose (c : Char) : Bool := c == '}' || c == ']' || c == ')'

/-- The variables of the loop in `parse`. -/
structure Scan where
  rtn : List (List Char)
  cur : List Char
  depth : Int
  deriving DecidableEq, Repr

/-- The local function `add`. -/
def Scan.add (s : Scan) : Scan :=
  { rtn := s.rtn ++ [s.cur], cur := [], depth := 0 }

/-- One turn of the loop in `parse`. -/
def Scan.char (s : Scan) (c : Char) : Scan :=
  let s := if s.depth ≠ 0 ∨ ¬ c.isDigit then { s with cur := s.cur ++ [c] } else s
  if isOpen c then { s with depth := s.depth + 1 }
  else if isClose c then
    let s := { s with depth := s.depth - 1 }
    if s.depth = 0 then s.add else s
  else if c ∈ DELIMS ∧ s.depth = 0 then s.add
  else s

/-- `parse`, for a types string: the return encoding and the argument
encodings, or the message of the failed assertion. -/
def parse (types : List Char) : Except String (List Char × List (List Char)) :=
  let rtn := (types.foldl Scan.char ⟨[], [], 0⟩).rtn
  if rtn[1]? ≠ some ['@'] then
    .error ("_self argument expected as first arg: " ++ String.ofList types)
  else if rtn[2]? ≠ some [':'] then
    .error ("SEL argument expected as second arg: " ++ String.ofList types)
  else .ok (rtn.headD [], rtn.drop 1)

/-! ## The grammar of type encodings -/

/-- The three kinds of brackets: structs, arrays and unions. -/
inductive Bracket
  | struct
  | array
  | union
  deriving DecidableEq, Repr

/-- The opening character. -/
def Bracket.opens : Bracket → Char
  | .struct => '{'
  | .array => '['
  | .union => '('

/-- The closing character. -/
def Bracket.closes : Bracket → Char
  | .struct => '}'
  | .array => ']'
  | .union => ')'

/-- What stands between two brackets: names, field encodings, lengths and
further groups. -/
inductive Body
  | nil
  | char (c : Char) (plain : isOpen c = false ∧ isClose c = false) (rest : Body)
  | group (b : Bracket) (inner rest : Body)

/-- The characters of a body. -/
def Body.text : Body → List Char
  | .nil => []
  | .char c _ rest => c :: rest.text
  | .group b inner rest => b.opens :: (inner.text ++ b.closes :: rest.text)

/-- An Objective-C type encoding. -/
inductive Enc
  /-- a type code such as `i`, `@` or `:` -/
  | prim (c : Char) (code : c ∈ DELIMS)
  /-- a method qualifier before an encoding -/
  | qualified (c : Char) (qualifier : c ∈ methodEncodings.map Prod.fst) (e : Enc)
  /-- `^T` -/
  | pointer (e : Enc)
  /-- `{..}`, `[..]` or `(..)` -/
  | group (b : Bracket) (inner : Body)
  /-- `@?` -/
  | block
  /-- `@"Name"` -/
  | object (name : List Char)

/-- The characters of an encoding. -/
def Enc.text : Enc → List Char
  | .prim c _ => [c]
  | .qualified c _ e => c :: e.text
  | .pointer e => '^' :: e.text
  | .group b inner => b.opens :: (inner.text ++ [b.closes])
  | .block => ['@', '?']
  | .object name => '@' :: '"' :: (name ++ ['"'])

/-- The encoding does not end in a block or in a quoted class name. -/
def Enc.Whole : Enc → Prop
  | .prim _ _ => True
  | .qualified _ _ e => e.Whole
  | .pointer e => e.Whole
  | .group _ _ => True
  | .block => False
  | .object _ => False

/-- A frame size or an offset; `addMethod` writes none. -/
abbrev Digits := List { c : Char // c.isDigit = true }

/-- The characters of a frame size or an offset. -/
def digitsText (digits : Digits) : List Char := digits.map Subtype.val

/-- One encoding and the digits after it. -/
def piece (e : Enc) (digits : Digits) : List Char := e.text ++ digitsText digits

/-- A method's type string. -/
def flatten (ret : Enc) (frame : Digits) (args : List (Enc × Digits)) : List Char :=
  piece ret frame ++ args.flatMap fun a => piece a.1 a.2

/-! ## What the loop does with each part -/

@[simp] theorem bracket_opens (b : Bracket) : isOpen b.opens = true := by cases b <;> rfl

@[simp] theorem bracket_closes (b : Bracket) :
    isOpen b.closes = false ∧ isClose b.closes = true := by
  cases b <;> exact ⟨rfl, rfl⟩

@[simp] theorem bracket_not_digit (b : Bracket) :
    b.opens.isDigit = false ∧ b.closes.isDigit = false := by
  cases b <;> exact ⟨rfl, rfl⟩

/-- A type code is neither a bracket nor a digit. -/
theorem code_plain : ∀ c ∈ DELIMS, isOpen c = false ∧ isClose c = false ∧ c.isDigit = false := by
  simp [DELIMS, typeEncodings, isOpen, isClose]

/-- A method qualifier is neither a bracket nor a digit nor a type code. -/
theorem qualifier_plain : ∀ c ∈ methodEncodings.map Prod.fst,
    isOpen c = false ∧ isClose c = false ∧ c.isDigit = false ∧ c ∉ DELIMS := by
  simp [methodEncodings, DELIMS, typeEncodings, isOpen, isClose]

/-- A digit is no bracket and no type code. -/
theorem digit_plain {c : Char} (h : c.isDigit = true) :
    isOpen c = false ∧ isClose c = false ∧ c ∉ DELIMS := by
  refine ⟨?_, ?_, fun hc => ?_⟩
  · by_contra hopen
    simp only [isOpen, Bool.not_eq_false, Bool.or_eq_true, beq_iff_eq] at hopen
    rcases hopen with (rfl | rfl) | rfl <;> simp [Char.isDigit] at h
  · by_contra hclose
    simp only [isClose, Bool.not_eq_false, Bool.or_eq_true, beq_iff_eq] at hclose
    rcases hclose with (rfl | rfl) | rfl <;> simp [Char.isDigit] at h
  · simp [(code_plain c hc).2.2] at h

/-- An opening bracket is kept and deepens. -/
theorem char_opens (rtn : List (List Char)) (cur : List Char) (depth : Int) (b : Bracket) :
    Scan.char ⟨rtn, cur, depth⟩ b.opens = ⟨rtn, cur ++ [b.opens], depth + 1⟩ := by
  simp [Scan.char]

/-- A closing bracket inside another group is kept. -/
theorem char_closes_inner (rtn : List (List Char)) (cur : List Char) {depth : Int}
    (h : 0 < depth) (b : Bracket) :
    Scan.char ⟨rtn, cur, depth + 1⟩ b.closes = ⟨rtn, cur ++ [b.closes], depth⟩ := by
  have : depth ≠ 0 := by omega
  simp [Scan.char, this]

/-- The closing bracket of an outermost group ends the encoding. -/
theorem char_closes_outer (rtn : List (List Char)) (cur : List Char) (b : Bracket) :
    Scan.char ⟨rtn, cur, 1⟩ b.closes = ⟨rtn ++ [cur ++ [b.closes]], [], 0⟩ := by
  simp [Scan.char, Scan.add]

/-- Inside a group every other character is kept. -/
theorem char_inner (rtn : List (List Char)) (cur : List Char) {depth : Int} (h : 0 < depth)
    {c : Char} (plain : isOpen c = false ∧ isClose c = false) :
    Scan.char ⟨rtn, cur, depth⟩ c = ⟨rtn, cur ++ [c], depth⟩ := by
  have : depth ≠ 0 := by omega
  simp [Scan.char, this, plain]

/-- A type code outside brackets ends the encoding. -/
theorem char_code (rtn : List (List Char)) (cur : List Char) {c : Char} (h : c ∈ DELIMS) :
    Scan.char ⟨rtn, cur, 0⟩ c = ⟨rtn ++ [cur ++ [c]], [], 0⟩ := by
  obtain ⟨hopen, hclose, hdigit⟩ := code_plain c h
  simp [Scan.char, Scan.add, hopen, hclose, hdigit, h]

/-- A character outside brackets that is none of the above is a prefix. -/
theorem char_prefix (rtn : List (List Char)) (cur : List Char) {c : Char}
    (h : isOpen c = false ∧ isClose c = false ∧ c.isDigit = false ∧ c ∉ DELIMS) :
    Scan.char ⟨rtn, cur, 0⟩ c = ⟨rtn, cur ++ [c], 0⟩ := by
  simp [Scan.char, h]

/-- Digits outside brackets are dropped. -/
theorem foldl_digits (rtn : List (List Char)) (cur : List Char) (digits : Digits) :
    (digitsText digits).foldl Scan.char ⟨rtn, cur, 0⟩ = ⟨rtn, cur, 0⟩ := by
  induction digits with
  | nil => rfl
  | cons d digits ih =>
      obtain ⟨hopen, hclose, hcode⟩ := digit_plain d.2
      have hd : Scan.char ⟨rtn, cur, 0⟩ d.1 = ⟨rtn, cur, 0⟩ := by
        simp [Scan.char, hopen, hclose, hcode, d.2]
      calc (digitsText (d :: digits)).foldl Scan.char ⟨rtn, cur, 0⟩
          = (digitsText digits).foldl Scan.char (Scan.char ⟨rtn, cur, 0⟩ d.1) := rfl
        _ = ⟨rtn, cur, 0⟩ := by rw [hd, ih]

/-- Inside a group the body is kept as it is. -/
theorem foldl_body (rtn : List (List Char)) (cur : List Char) {depth : Int} (h : 0 < depth)
    (body : Body) :
    body.text.foldl Scan.char ⟨rtn, cur, depth⟩ = ⟨rtn, cur ++ body.text, depth⟩ := by
  induction body generalizing cur depth with
  | nil => simp [Body.text]
  | char c plain rest ih =>
      simp [Body.text, char_inner rtn cur h plain, ih (cur ++ [c]) h]
  | group b inner rest ihInner ihRest =>
      have hdeep : 0 < depth + 1 := by omega
      simp [Body.text, char_opens, ihInner _ hdeep, char_closes_inner rtn _ h, ihRest _ h]

/-- **An encoding that ends where it seems to end arrives as one element.** -/
theorem foldl_whole (rtn : List (List Char)) (cur : List Char) (e : Enc) (h : e.Whole) :
    e.text.foldl Scan.char ⟨rtn, cur, 0⟩ = ⟨rtn ++ [cur ++ e.text], [], 0⟩ := by
  induction e generalizing cur with
  | prim c code => simp [Enc.text, char_code rtn cur code]
  | qualified c qualifier e ih =>
      simp [Enc.text, char_prefix rtn cur (qualifier_plain c qualifier), ih (cur ++ [c]) h]
  | pointer e ih =>
      have hcaret : Scan.char ⟨rtn, cur, 0⟩ '^' = ⟨rtn, cur ++ ['^'], 0⟩ :=
        char_prefix rtn cur (by decide)
      simp [Enc.text, hcaret, ih (cur ++ ['^']) h]
  | group b inner =>
      simp [Enc.text, char_opens, foldl_body rtn _ Int.zero_lt_one inner, char_closes_outer]
  | block => exact h.elim
  | object name => exact h.elim

/-- The loop only ever adds to `rtn`. -/
theorem rtn_prefix_char (s : Scan) (c : Char) : s.rtn <+: (s.char c).rtn := by
  simp only [Scan.char, Scan.add]
  split_ifs <;> simp

/-- The loop only ever adds to `rtn`. -/
theorem rtn_prefix_foldl (s : Scan) (cs : List Char) : s.rtn <+: (cs.foldl Scan.char s).rtn := by
  induction cs generalizing s with
  | nil => exact List.prefix_rfl
  | cons c cs ih => exact (rtn_prefix_char s c).trans (ih (s.char c))

/-- **An encoding that goes on after its `@` is cut there.** -/
theorem foldl_cut (rtn : List (List Char)) (cur : List Char) (e : Enc) (h : ¬ e.Whole) :
    ∃ front, front ≠ e.text ∧
      rtn ++ [cur ++ front] <+: (e.text.foldl Scan.char ⟨rtn, cur, 0⟩).rtn := by
  have hat : Scan.char ⟨rtn, cur, 0⟩ '@' = ⟨rtn ++ [cur ++ ['@']], [], 0⟩ :=
    char_code rtn cur (by decide)
  induction e generalizing cur with
  | prim c code => exact absurd trivial h
  | qualified c qualifier e ih =>
      have hc := char_prefix rtn cur (qualifier_plain c qualifier)
      obtain ⟨front, hne, hpre⟩ := ih (cur ++ [c]) h (char_code rtn _ (by decide))
      exact ⟨c :: front, by simpa [Enc.text] using hne, by simpa [Enc.text, hc] using hpre⟩
  | pointer e ih =>
      have hc : Scan.char ⟨rtn, cur, 0⟩ '^' = ⟨rtn, cur ++ ['^'], 0⟩ :=
        char_prefix rtn cur (by decide)
      obtain ⟨front, hne, hpre⟩ := ih (cur ++ ['^']) h (char_code rtn _ (by decide))
      exact ⟨'^' :: front, by simpa [Enc.text] using hne, by simpa [Enc.text, hc] using hpre⟩
  | group b inner => exact absurd trivial h
  | block =>
      refine ⟨['@'], by simp [Enc.text], ?_⟩
      rw [Enc.text, List.foldl_cons, hat]
      exact rtn_prefix_foldl ⟨_, [], 0⟩ _
  | object name =>
      refine ⟨['@'], by simp [Enc.text], ?_⟩
      rw [Enc.text, List.foldl_cons, hat]
      exact rtn_prefix_foldl ⟨_, [], 0⟩ _

/-! ## Whole type strings -/

/-- One whole piece of a type string is one element. -/
theorem foldl_piece (rtn : List (List Char)) (a : Enc × Digits) (h : a.1.Whole) :
    (piece a.1 a.2).foldl Scan.char ⟨rtn, [], 0⟩ = ⟨rtn ++ [a.1.text], [], 0⟩ := by
  have ha := foldl_whole rtn [] a.1 h
  rw [piece, List.foldl_append, ha, List.nil_append, foldl_digits]

/-- The pieces of a type string, scanned in turn. -/
theorem foldl_pieces_whole (rtn : List (List Char)) (pieces : List (Enc × Digits))
    (h : ∀ a ∈ pieces, a.1.Whole) :
    (pieces.flatMap fun a => piece a.1 a.2).foldl Scan.char ⟨rtn, [], 0⟩ =
      ⟨rtn ++ pieces.map (fun a => a.1.text), [], 0⟩ := by
  induction pieces generalizing rtn with
  | nil => simp
  | cons a pieces ih =>
      have ha := foldl_piece rtn a (h a List.mem_cons_self)
      have htail := ih (rtn ++ [a.1.text]) fun b hb => h b (List.mem_cons_of_mem _ hb)
      simp [ha, htail]

/-- If the pieces come out as they went in, none was cut. -/
theorem whole_of_foldl_pieces (rtn : List (List Char)) (pieces : List (Enc × Digits))
    (h : ((pieces.flatMap fun a => piece a.1 a.2).foldl Scan.char ⟨rtn, [], 0⟩).rtn =
      rtn ++ pieces.map (fun a => a.1.text)) : ∀ a ∈ pieces, a.1.Whole := by
  induction pieces generalizing rtn with
  | nil => simp
  | cons a pieces ih =>
      by_cases ha : a.1.Whole
      · have htail := ih (rtn ++ [a.1.text]) (by simpa [foldl_piece rtn a ha] using h)
        intro b hb
        rcases List.mem_cons.mp hb with rfl | hb
        · exact ha
        · exact htail b hb
      · exfalso
        obtain ⟨front, hne, hpre⟩ := foldl_cut rtn [] a.1 ha
        simp only [List.flatMap_cons, piece, List.append_assoc, List.foldl_append] at h
        have hall := hpre.trans ((rtn_prefix_foldl _ (digitsText a.2)).trans
          (rtn_prefix_foldl _ (pieces.flatMap fun a => piece a.1 a.2)))
        simp only [piece] at hall
        rw [h] at hall
        simp only [List.nil_append, List.map_cons] at hall
        rw [List.prefix_append_right_inj, List.cons_prefix_cons] at hall
        exact hne hall.1

/-- `flatten` treats the return encoding like an argument. -/
theorem flatten_eq (ret : Enc) (frame : Digits) (args : List (Enc × Digits)) :
    flatten ret frame args = ((ret, frame) :: args).flatMap fun a => piece a.1 a.2 := by
  simp [flatten]

/-- What `parse` returns, in terms of the scan. -/
theorem parse_eq_ok_iff (types : List Char) (ret : List Char) (args : List (List Char)) :
    parse types = .ok (ret, args) ↔
      (types.foldl Scan.char ⟨[], [], 0⟩).rtn = ret :: args ∧
        args[0]? = some ['@'] ∧ args[1]? = some [':'] := by
  unfold parse
  generalize (types.foldl Scan.char ⟨[], [], 0⟩).rtn = rtn
  rcases rtn with _ | ⟨r, as⟩
  · simp
  · by_cases h0 : as[0]? = some ['@'] <;> by_cases h1 : as[1]? = some [':'] <;>
      simp [h0, h1] <;> rintro rfl rfl <;> simp_all

/-- **The round trip of type strings.**  Whatever digits stand between the
encodings, a method's type string is parsed into its own encodings exactly if
its first arguments are `@` and `:`, as the assertions demand, and neither the
return type nor an argument ends in a block or in a quoted class name. -/
theorem parse_flatten_iff (ret : Enc) (frame : Digits) (args : List (Enc × Digits)) :
    parse (flatten ret frame args) = .ok (ret.text, args.map fun a => a.1.text) ↔
      ((args.map fun a => a.1.text)[0]? = some ['@'] ∧
        (args.map fun a => a.1.text)[1]? = some [':']) ∧
      ret.Whole ∧ ∀ a ∈ args, a.1.Whole := by
  rw [parse_eq_ok_iff, flatten_eq]
  constructor
  · rintro ⟨hrtn, hself, hsel⟩
    have hwhole := whole_of_foldl_pieces [] ((ret, frame) :: args) (by simpa using hrtn)
    exact ⟨⟨hself, hsel⟩, hwhole _ List.mem_cons_self,
      fun a ha => hwhole a (List.mem_cons_of_mem _ ha)⟩
  · rintro ⟨⟨hself, hsel⟩, hret, hargs⟩
    refine ⟨?_, hself, hsel⟩
    rw [foldl_pieces_whole [] ((ret, frame) :: args) ?_]
    · simp
    · intro a ha
      rcases List.mem_cons.mp ha with rfl | ha
      · exact hret
      · exact hargs a ha

/-- **A block is cut in two.**  A method that takes a block, `v@:@?`, does not
come back as it went in. -/
theorem parse_splits_block :
    ¬ ∀ (ret : Enc) (frame : Digits) (args : List (Enc × Digits)),
      (args.map fun a => a.1.text).take 2 = [['@'], [':']] →
      parse (flatten ret frame args) = .ok (ret.text, args.map fun a => a.1.text) := by
  intro hall
  have hbad := hall (.prim 'v' (by decide)) []
    [(.prim '@' (by decide), []), (.prim ':' (by decide), []), (.block, [])] rfl
  revert hbad
  decide

end TypeEncoding

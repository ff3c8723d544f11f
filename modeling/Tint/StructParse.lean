import Tint.StructEncoding

/-!
# Parsing the fields of a struct

`parseStruct` goes over the characters after the `=` of a struct encoding once.  A quote
inside brackets belongs to a type, and every other quote ends a name or a type.  A field
of an object type may have its class name in quotes outside brackets, `"a"@"NSString"`,
and there the type is cut at its `@` and the class name is taken for the next entry.

* `parseStruct_text_iff` -- a struct is parsed into its own name and fields if and only if
  none of its own fields has a class name outside brackets;
* `class_name_cut` -- a field `@"A"` is parsed into two fields.
-/

namespace StructParse

open TypeEncoding (isOpen isClose methodEncodings)
open StructCache

/-- A name of a struct, of a field or of a class. -/
structure Name where
  text : Text
  plain : ∀ c ∈ text, isPlain c

/-- The encoding of a type.  The fields of a struct may have names. -/
inductive Encoding
  /-- a type code such as `d` -/
  | prim (c : Char) (plain : isPlain c)
  /-- `@?` -/
  | block
  /-- `@` or `@"Class"` -/
  | object (className : Option Name)
  /-- `^T` -/
  | pointer (e : Encoding)
  /-- a method qualifier before an encoding -/
  | qualified (c : Char) (qualifier : c ∈ methodEncodings.map Prod.fst) (e : Encoding)
  /-- `[3T]` -/
  | array (length : Nat) (e : Encoding)
  /-- `{Name}` -/
  | incomplete (name : Name)
  /-- `{Name="f1"T1"f2"T2}` or `{Name=T1T2}` -/
  | struct (name : Name) (fields : List (Option Name × Encoding))

mutual

/-- The printed encoding. -/
def Encoding.text : Encoding → Text
  | .prim c _ => [c]
  | .block => ['@', '?']
  | .object none => ['@']
  | .object (some className) => '@' :: '"' :: (className.text ++ ['"'])
  | .pointer e => '^' :: e.text
  | .qualified c _ e => c :: e.text
  | .array length e => '[' :: (Nat.toDigits 10 length ++ e.text ++ [']'])
  | .incomplete name => '{' :: (name.text ++ ['}'])
  | .struct name fields => '{' :: (name.text ++ '=' :: fieldsText fields ++ ['}'])

/-- The printed fields. -/
def fieldsText : List (Option Name × Encoding) → Text
  | [] => []
  | (some name, type) :: rest => '"' :: (name.text ++ '"' :: (type.text ++ fieldsText rest))
  | (none, type) :: rest => type.text ++ fieldsText rest

end

/-- The encoding has a class name in quotes that no brackets stand around. -/
def Encoding.Quoted : Encoding → Bool
  | .prim _ _ => false
  | .block => false
  | .object className => className.isSome
  | .pointer e => e.Quoted
  | .qualified _ _ e => e.Quoted
  | .array _ _ => false
  | .incomplete _ => false
  | .struct _ _ => false

/-- Fields that have names. -/
def named (fields : List (Name × Encoding)) : List (Option Name × Encoding) :=
  fields.map fun f => (some f.1, f.2)

/-! ## Brackets -/

/-- The length of an array is printed in digits. -/
theorem digits_plain (n : Nat) : ∀ c ∈ Nat.toDigits 10 n, isPlain c := by
  intro c hc
  have hdigit := Nat.isDigit_of_mem_toDigits (by decide) (by decide) hc
  obtain ⟨hopen, hclose, hcode⟩ := TypeEncoding.digit_plain hdigit
  refine isPlain_iff.mpr ⟨hopen, hclose, ?_, ?_, ?_⟩
  · intro heq
    rw [heq] at hdigit
    cases hdigit
  · intro heq
    rw [heq] at hdigit
    cases hdigit
  · by_contra hterminator
    simp only [isTerminator, Bool.not_eq_false, Bool.or_eq_true, beq_iff_eq] at hterminator
    rcases hterminator with ((heq | heq) | heq) | heq
    all_goals
      rw [heq] at hdigit
      cases hdigit

/-- A quote inside brackets leaves the depth alone. -/
theorem level_quote (n : Nat) (t : Text) : level (n + 1) ('"' :: t) = level (n + 1) t := rfl

/-- So does a method qualifier. -/
theorem level_qualifier {c : Char} (h : c ∈ methodEncodings.map Prod.fst) (n : Nat) (t : Text) :
    level n (c :: t) = level n t := by
  obtain ⟨hopen, hclose, -, -⟩ := TypeEncoding.qualifier_plain c h
  have hquote : ∀ c ∈ methodEncodings.map Prod.fst, c ≠ '"' := by simp [methodEncodings]
  simp [level, hopen, hclose, hquote c h]

/-- Brackets of any kind go around what matches inside. -/
theorem level_group {opening closing : Char} (hopen : isOpen opening = true)
    (hclose : isClose closing = true)
    (hne : isOpen closing = false) {n : Nat} {t : Text} (h : level (n + 1) t = some (n + 1)) :
    level n (opening :: (t ++ [closing])) = some n := by
  rw [level, if_pos hopen, level_append, h, Option.bind_some, level, if_neg (by simp [hne]),
    if_pos hclose, if_neg (Nat.succ_ne_zero n), Nat.add_sub_cancel]
  rfl

mutual

/-- Inside brackets an encoding of any type leaves the depth as it was. -/
theorem level_text : (e : Encoding) → (n : Nat) → level (n + 1) e.text = some (n + 1)
  | .prim c plain, n => by
      rw [Encoding.text]
      exact level_plain (by simpa using plain) (n + 1)
  | .block, n => by
      rw [Encoding.text]
      rfl
  | .object none, n => by
      rw [Encoding.text]
      rfl
  | .object (some className), n => by
      have hat : ∀ t, level (n + 1) ('@' :: t) = level (n + 1) t := fun t => rfl
      rw [Encoding.text, hat, level_quote, level_append, level_plain className.plain,
        Option.bind_some, level_quote]
      rfl
  | .pointer e, n => by
      rw [Encoding.text]
      exact level_text e n
  | .qualified c qualifier e, n => by
      rw [Encoding.text, level_qualifier qualifier]
      exact level_text e n
  | .array length e, n => by
      rw [Encoding.text]
      apply level_group rfl rfl rfl
      rw [level_append, level_plain (digits_plain length), Option.bind_some]
      exact level_text e (n + 1)
  | .incomplete name, n => by
      rw [Encoding.text]
      apply level_group rfl rfl rfl
      exact level_plain name.plain (n + 1 + 1)
  | .struct name fields, n => by
      have hequal : ∀ t, level (n + 1 + 1) ('=' :: t) = level (n + 1 + 1) t := fun t => rfl
      rw [Encoding.text]
      apply level_group rfl rfl rfl
      rw [level_append, level_plain name.plain, Option.bind_some, hequal]
      exact level_fieldsText fields (n + 1)

theorem level_fieldsText : (fields : List (Option Name × Encoding)) → (n : Nat) →
    level (n + 1) (fieldsText fields) = some (n + 1)
  | [], n => by
      rw [fieldsText]
      rfl
  | (some name, type) :: rest, n => by
      rw [fieldsText, level_quote, level_append, level_plain name.plain, Option.bind_some,
        level_quote, level_append, level_text type n, Option.bind_some]
      exact level_fieldsText rest n
  | (none, type) :: rest, n => by
      rw [fieldsText, level_append, level_text type n, Option.bind_some]
      exact level_fieldsText rest n

end

/-- Outside brackets too, if no class name stands there. -/
theorem level_unquoted (e : Encoding) (h : e.Quoted = false) : level 0 e.text = some 0 := by
  induction e using Encoding.Quoted.induct with
  | case1 c plain =>
      rw [Encoding.text]
      exact level_plain (by simpa using plain) 0
  | case2 =>
      rw [Encoding.text]
      rfl
  | case3 className =>
      cases className with
      | none =>
          rw [Encoding.text]
          rfl
      | some className => cases h
  | case4 e ih =>
      rw [Encoding.text]
      exact ih h
  | case5 c qualifier e ih =>
      rw [Encoding.text, level_qualifier qualifier]
      exact ih h
  | case6 length e =>
      rw [Encoding.text]
      apply level_group rfl rfl rfl
      rw [level_append, level_plain (digits_plain length), Option.bind_some]
      exact level_text e 0
  | case7 name =>
      rw [Encoding.text]
      apply level_group rfl rfl rfl
      exact level_plain name.plain 1
  | case8 name fields =>
      have hequal : ∀ t, level 1 ('=' :: t) = level 1 t := fun t => rfl
      rw [Encoding.text]
      apply level_group rfl rfl rfl
      rw [level_append, level_plain name.plain, Option.bind_some, hequal]
      exact level_fieldsText fields 0

/-! ## The loop -/

/-- A quote outside brackets ends an entry. -/
theorem char_quote (cur : Text) (entries : List Text) :
    Scan.char ⟨cur, 0, entries⟩ '"' = ⟨[], 0, entries ++ [cur]⟩ := by
  simp [Scan.char]

/-- A name is taken as it is. -/
theorem scan_name (name : Name) (cur : Text) (entries : List Text) :
    name.text.foldl Scan.char ⟨cur, 0, entries⟩ = ⟨cur ++ name.text, 0, entries⟩ :=
  scan_level (level_plain name.plain 0) cur entries

/-- So is a type, if no class name stands outside brackets. -/
theorem scan_unquoted {e : Encoding} (h : e.Quoted = false) (cur : Text) (entries : List Text) :
    e.text.foldl Scan.char ⟨cur, 0, entries⟩ = ⟨cur ++ e.text, 0, entries⟩ :=
  scan_level (level_unquoted e h) cur entries

/-- A character that is no quote and no bracket is kept. -/
theorem char_prefix {c : Char} (hquote : c ≠ '"') (hopen : isOpen c = false)
    (hclose : isClose c = false) (cur : Text) (entries : List Text) :
    Scan.char ⟨cur, 0, entries⟩ c = ⟨cur ++ [c], 0, entries⟩ := by
  simp [Scan.char, hquote, hopen, hclose]

/-- **The cut.**  A class name outside brackets ends two entries. -/
theorem scan_quoted (e : Encoding) (h : e.Quoted = true) (cur : Text) (entries : List Text) :
    ∃ front className,
      e.text.foldl Scan.char ⟨cur, 0, entries⟩ = ⟨[], 0, entries ++ [front, className]⟩ := by
  induction e using Encoding.Quoted.induct generalizing cur with
  | case1 c plain => cases h
  | case2 => cases h
  | case3 className =>
      cases className with
      | none => cases h
      | some className =>
          refine ⟨cur ++ ['@'], className.text, ?_⟩
          rw [Encoding.text, List.foldl_cons, char_prefix (by decide) rfl rfl, List.foldl_cons,
            char_quote, List.foldl_append, scan_name, List.foldl_cons, char_quote, List.foldl_nil]
          simp
  | case4 e ih =>
      obtain ⟨front, className, hrest⟩ := ih h (cur ++ ['^'])
      refine ⟨front, className, ?_⟩
      rw [Encoding.text, List.foldl_cons, char_prefix (by decide) rfl rfl]
      exact hrest
  | case5 c qualifier e ih =>
      obtain ⟨front, className, hrest⟩ := ih h (cur ++ [c])
      obtain ⟨hopen, hclose, -, -⟩ := TypeEncoding.qualifier_plain c qualifier
      have hquote : ∀ c ∈ methodEncodings.map Prod.fst, c ≠ '"' := by simp [methodEncodings]
      refine ⟨front, className, ?_⟩
      rw [Encoding.text, List.foldl_cons, char_prefix (hquote c qualifier) hopen hclose]
      exact hrest
  | case6 length e => cases h
  | case7 name => cases h
  | case8 name fields => cases h

theorem fieldsText_cons (name : Name) (type : Encoding) (rest : List (Name × Encoding)) :
    fieldsText (named ((name, type) :: rest)) =
      '"' :: (name.text ++ '"' :: (type.text ++ fieldsText (named rest))) := by
  rw [named, List.map_cons, fieldsText, named]

/-- The number of fields with a class name outside brackets. -/
def cuts (fields : List (Name × Encoding)) : Nat := fields.countP fun f => f.2.Quoted

/-- Each field ends two entries, and each cut two more. -/
theorem length_scan_fields (fields : List (Name × Encoding)) (cur : Text) (entries : List Text) :
    ((fieldsText (named fields)).foldl Scan.char ⟨cur, 0, entries⟩).entries.length =
      entries.length + 2 * fields.length + 2 * cuts fields := by
  induction fields generalizing cur entries with
  | nil => simp [named, fieldsText, cuts]
  | cons f rest ih =>
      obtain ⟨name, type⟩ := f
      rw [fieldsText_cons, List.foldl_cons, char_quote, List.foldl_append, scan_name,
        List.foldl_cons, char_quote, List.foldl_append]
      cases hquoted : type.Quoted with
      | false =>
          have hcuts : cuts ((name, type) :: rest) = cuts rest := by
            simp [cuts, hquoted]
          rw [scan_unquoted hquoted, ih, hcuts]
          simp only [List.length_append, List.length_cons, List.length_nil]
          omega
      | true =>
          have hcuts : cuts ((name, type) :: rest) = cuts rest + 1 := by
            simp [cuts, hquoted]
          obtain ⟨front, className, hscan⟩ :=
            scan_quoted type hquoted [] (entries ++ [cur] ++ [[] ++ name.text])
          rw [hscan, ih, hcuts]
          simp only [List.length_append, List.length_cons, List.length_nil]
          omega

/-- Without a cut, the entries are the names and the types. -/
theorem scan_fields_text {fields : List (Name × Encoding)} (h : ∀ f ∈ fields, f.2.Quoted = false)
    (cur : Text) (entries : List Text) :
    ((fieldsText (named fields)).foldl Scan.char ⟨cur, 0, entries⟩).finish =
      entries ++ cur :: fields.flatMap fun f => [f.1.text, f.2.text] := by
  induction fields generalizing cur entries with
  | nil => simp [named, fieldsText, Scan.finish]
  | cons f rest ih =>
      obtain ⟨name, type⟩ := f
      have hscan := scan_unquoted (h _ List.mem_cons_self)
      rw [fieldsText_cons, List.foldl_cons, char_quote, List.foldl_append, scan_name,
        List.foldl_cons, char_quote, List.foldl_append, hscan,
        ih fun f hf => h f (List.mem_cons_of_mem _ hf)]
      simp

/-! ## Whole structs -/

theorem pairs_fields (fields : List (Name × Encoding)) :
    pairs (fields.flatMap fun f => [f.1.text, f.2.text]) =
      fields.map fun f => (f.1.text, some f.2.text) := by
  induction fields with
  | nil => rfl
  | cons f rest ih => simp [pairs, ih]

theorem length_pairs (entries : List Text) : (pairs entries).length = (entries.length + 1) / 2 := by
  fun_induction pairs entries with
  | case1 => rfl
  | case2 name => simp
  | case3 name type rest ih =>
      rw [List.length_cons, ih, List.length_cons, List.length_cons]
      omega

/-- What stands between the braces of a struct. -/
theorem inner_text (name : Name) (fields : List (Option Name × Encoding)) :
    StructCache.inner (Encoding.struct name fields).text =
      name.text ++ '=' :: fieldsText fields := by
  have hlength : ('{' :: (name.text ++ '=' :: fieldsText fields ++ ['}'])).length ≠ 1 := by simp
  rw [Encoding.text, StructCache.inner, if_neg hlength, List.drop_one, List.tail_cons,
    List.dropLast_concat]

/-- Fields without a cut are found as they are. -/
theorem properties_named {fields : List (Name × Encoding)} (h : ∀ f ∈ fields, f.2.Quoted = false) :
    properties (fieldsText (named fields)) = fields.map fun f => (f.1.text, some f.2.text) := by
  rw [properties, scan_fields_text h, List.nil_append, List.drop_one, List.tail_cons, pairs_fields]

/-- **The parser and the printer.**  A struct is parsed into its own name, the names of its
fields and their encodings, in order, if and only if none of its own fields has a class
name that no brackets stand around. -/
theorem parseStruct_text_iff (name : Name) (fields : List (Name × Encoding)) :
    parseStruct (Encoding.struct name (named fields)).text =
        (name.text, fields.map fun f => (f.1.text, some f.2.text)) ↔
      ∀ f ∈ fields, f.2.Quoted = false := by
  have hparse := (parseStruct_equal (inner_text name (named fields)) (equal_notMem name.plain)).2
  rw [hparse]
  constructor
  · intro h
    have hpairs := congrArg List.length (Prod.mk.inj h).2
    have hentries := length_scan_fields fields [] []
    rw [properties, length_pairs, List.length_drop, Scan.finish, List.length_append, hentries,
      List.length_map] at hpairs
    simp only [List.length_cons, List.length_nil] at hpairs
    have hnone : cuts fields = 0 := by omega
    intro f hf
    simpa using List.countP_eq_zero.mp hnone f hf
  · intro h
    rw [properties_named h]

/-- `S` -/
def structName : Name := ⟨['S'], by simp [isPlain, isOpen, isClose, isTerminator]⟩

/-- `"a"@"A"` -/
def classField : List (Name × Encoding) :=
  [(⟨['a'], by simp [isPlain, isOpen, isClose, isTerminator]⟩,
    .object (some ⟨['A'], by simp [isPlain, isOpen, isClose, isTerminator]⟩))]

/-- **A class name is cut off.**  `{S="a"@"A"}` has one field and is parsed into two. -/
theorem class_name_cut :
    ¬ ∀ (name : Name) (fields : List (Name × Encoding)),
      parseStruct (Encoding.struct name (named fields)).text =
        (name.text, fields.map fun f => (f.1.text, some f.2.text)) := by
  intro hall
  have htwo : (parseStruct (Encoding.struct structName (named classField)).text).2.length = 2 := by
    decide
  rw [hall structName classField] at htwo
  cases htwo

end StructParse

import Tint.StructEncoding

/-!
# The chain of tests on a type code

`map` is a chain of tests on the text of an encoding.  For a text that is no struct one
qualifier is stripped, and the first character, the whole text, the last character and the
first one again are looked at, in this order.  With a second qualifier the first character is
that qualifier, so that only the last one tells the type.

* `convert_type` -- what the tests make of each type that has no qualifier, or lost its
  only one;
* `mapCode_toOption` -- and of a type with any number of them.
-/

namespace EncodingMap

open TypeEncoding (isOpen isClose typeEncodings DELIMS methodEncodings Bracket Body)
open StructCache

/-- What an encoding that is no struct may be behind its qualifiers. -/
inductive CType
  /-- a type code such as `i`, `@`, `#` or `:` -/
  | prim (c : Char) (code : c ∈ DELIMS)
  /-- `@?` -/
  | block
  /-- `@"Class"` -/
  | object (className : Text)
  /-- `^T` -/
  | pointer (target : TypeEncoding.Enc)
  /-- `[nT]` -/
  | array (body : Body)
  /-- `(..)` -/
  | union (body : Body)
  /-- `b3` -/
  | bitField (width : Nat)

/-- The characters of a type. -/
def CType.text : CType → Text
  | .prim c _ => [c]
  | .block => ['@', '?']
  | .object className => '@' :: '"' :: (className ++ ['"'])
  | .pointer target => '^' :: target.text
  | .array body => '[' :: (body.text ++ [']'])
  | .union body => '(' :: (body.text ++ [')'])
  | .bitField width => 'b' :: Nat.toDigits 10 width

/-- A method qualifier. -/
abbrev Qualifier := { c : Char // c ∈ methodEncodings.map Prod.fst }

/-- A type that is no struct, with the method qualifiers before it. -/
structure Code where
  qualifiers : List Qualifier
  type : CType

/-- The characters of a code. -/
def Code.text (e : Code) : Text := e.qualifiers.map Subtype.val ++ e.type.text

/-- The last character of the text is the code of a pointer: `@`, `#`, `:` or `?`. -/
def EndsInPointer (text : Text) : Prop :=
  ∃ c, text.getLast? = some c ∧ List.lookup c typeEncodings = some "pointer"

/-! ## The chain of tests -/

/-- What `map` does after the qualifier. -/
def convert (type : Text) : Except Exception MType :=
  if type.head? = some '^' then .ok (.prim "pointer")
  else
    match encodingOf type with
    | some t => .ok t
    | none =>
        match type.getLast?.bind fun c => List.lookup c typeEncodings with
        | some name => .ok (.prim name)
        | none =>
            if type.head? = some '[' ∨ type.head? = some '(' ∨ type.head? = some 'b' then
              .ok (.prim "pointer")
            else .error (.couldNotConvert type)

/-- The first characters of the names in `Object.prototype`. -/
def inheritedFirst : List Char := ['c', '_', 'h', 'i', 'p', 't', 'v']

theorem inherited_first : ∀ name ∈ objectPrototype, ∃ c ∈ inheritedFirst, name.head? = some c := by
  simp [objectPrototype, inheritedFirst]

/-- A qualifier is none of the first characters that the tests look for. -/
theorem qualifier_first : ∀ c ∈ methodEncodings.map Prod.fst,
    c ≠ '^' ∧ c ≠ '{' ∧ c ≠ '[' ∧ c ≠ '(' ∧ c ≠ 'b' ∧ c ∉ inheritedFirst := by
  simp [methodEncodings, inheritedFirst]

/-- A type code is no qualifier and starts no other test. -/
theorem code_first : ∀ c ∈ DELIMS, c ∉ methodEncodings.map Prod.fst ∧ c ≠ '^' ∧ c ≠ '{' := by
  simp [DELIMS, typeEncodings, methodEncodings]

/-- One qualifier is stripped. -/
theorem mapCode_qualifier {c : Char} (h : c ∈ methodEncodings.map Prod.fst) (t : Text) :
    mapCode (c :: t) = convert t := by
  have hfirst : (c :: t).head?.any (· ∈ methodEncodings.map Prod.fst) = true := by
    simpa using h
  simp only [mapCode, hfirst, if_true]
  rfl

/-- Without a qualifier the tests look at the whole text. -/
theorem mapCode_plain {c : Char} (h : c ∉ methodEncodings.map Prod.fst) (t : Text) :
    mapCode (c :: t) = convert (c :: t) := by
  have hfirst : (c :: t).head?.any (· ∈ methodEncodings.map Prod.fst) = false := by
    simpa using h
  simp only [mapCode, hfirst]
  rfl

/-- A type code is looked up. -/
theorem convert_code {c : Char} (h : c ∈ DELIMS) {name : String}
    (hname : List.lookup c typeEncodings = some name) :
    convert [c] = .ok (.prim name) := by
  have hcaret : ¬ [c].head? = some '^' := by
    simpa using (code_first c h).2.1
  rw [convert, if_neg hcaret]
  simp [encodingOf, hname]

/-- What the last character of a text is the code of. -/
def lastName (text : Text) : Option String :=
  text.getLast?.bind fun c => List.lookup c typeEncodings

theorem lastName_append {u : Text} (h : u ≠ []) (t : Text) : lastName (t ++ u) = lastName u := by
  rw [lastName, lastName, List.getLast?_append_of_ne_nil _ h]

/-- With more than one character, the last one decides, then the first. -/
theorem convert_long {c : Char} (hcaret : c ≠ '^') (hfirst : c ∉ inheritedFirst) {t : Text}
    (ht : t ≠ []) :
    convert (c :: t) =
      match lastName (c :: t) with
      | some name => .ok (.prim name)
      | none =>
          if c = '[' ∨ c = '(' ∨ c = 'b' then .ok (.prim "pointer")
          else .error (.couldNotConvert (c :: t)) := by
  have hnone : encodingOf (c :: t) = none := by
    have hinherited : c :: t ∉ objectPrototype := by
      intro hmem
      obtain ⟨d, hd, hhead⟩ := inherited_first _ hmem
      obtain rfl := Option.some.inj hhead
      exact hfirst hd
    cases t with
    | nil => exact absurd rfl ht
    | cons d t => simp [encodingOf, hinherited]
  have hne : ¬ (c :: t).head? = some '^' := by simpa using hcaret
  rw [convert, if_neg hne, hnone]
  simp only [List.head?_cons, Option.some.injEq]
  rfl

/-! ## The types -/

/-- No type starts with a qualifier, or with the brace of a struct. -/
theorem type_first (type : CType) :
    ∃ c t, type.text = c :: t ∧ c ∉ methodEncodings.map Prod.fst ∧ c ≠ '{' := by
  cases type with
  | prim c code => exact ⟨c, [], rfl, (code_first c code).1, (code_first c code).2.2⟩
  | block => exact ⟨'@', ['?'], rfl, by decide, by decide⟩
  | object className => exact ⟨'@', _, rfl, by decide, by decide⟩
  | pointer target => exact ⟨'^', _, rfl, by decide, by decide⟩
  | array body => exact ⟨'[', _, rfl, by decide, by decide⟩
  | union body => exact ⟨'(', _, rfl, by decide, by decide⟩
  | bitField width => exact ⟨'b', _, rfl, by decide, by decide⟩

theorem type_ne_nil (type : CType) : type.text ≠ [] := by
  obtain ⟨c, t, htext, -, -⟩ := type_first type
  rw [htext]
  exact List.cons_ne_nil c t

/-- The target of a pointer has a text. -/
theorem target_ne_nil (target : TypeEncoding.Enc) : target.text ≠ [] := by
  cases target with
  | prim c code => exact List.cons_ne_nil _ _
  | qualified c qualifier e => exact List.cons_ne_nil _ _
  | pointer e => exact List.cons_ne_nil _ _
  | group b inner => exact List.cons_ne_nil _ _
  | block => exact List.cons_ne_nil _ _
  | object name => exact List.cons_ne_nil _ _

/-- A closing character is no type code, nor is a digit or a quote. -/
theorem lastName_none {c : Char} (h : c ∉ DELIMS) (t : Text) : lastName (t ++ [c]) = none := by
  rw [lastName, List.getLast?_concat, Option.bind_some]
  refine List.lookup_eq_none_iff.mpr fun p hp => ?_
  have hne : c ≠ p.1 := by
    intro heq
    exact h (heq ▸ List.mem_map_of_mem hp)
  simpa using hne

theorem lastName_group (b : Bracket) (t : Text) : lastName (t ++ [b.closes]) = none := by
  apply lastName_none
  cases b <;> decide

/-- A digit is no type code. -/
theorem lastName_digits (width : Nat) (t : Text) :
    lastName (t ++ Nat.toDigits 10 width) = none := by
  have hne : Nat.toDigits 10 width ≠ [] := Nat.toDigits_ne_nil
  obtain ⟨digits, last, heq⟩ := List.eq_nil_or_concat (Nat.toDigits 10 width) |>.resolve_left hne
  have hdigit : last.isDigit = true := by
    refine Nat.isDigit_of_mem_toDigits (n := width) (b := 10) (by decide) (by decide) ?_
    rw [heq]
    simp
  rw [heq, List.concat_eq_append, ← List.append_assoc]
  exact lastName_none (TypeEncoding.digit_plain hdigit).2.2 _

/-- What the last character of each type is the code of. -/
theorem lastName_type (type : CType) :
    lastName type.text =
      match type with
      | .prim c _ => List.lookup c typeEncodings
      | .block => some "pointer"
      | .object _ => none
      | .pointer target => lastName target.text
      | .array _ => none
      | .union _ => none
      | .bitField _ => none := by
  cases type with
  | prim c code => rfl
  | block => rfl
  | object className =>
      have htext : (CType.object className).text = ('@' :: '"' :: className) ++ ['"'] := by
        simp [CType.text]
      rw [htext]
      exact lastName_none (by decide) _
  | pointer target => exact lastName_append (target_ne_nil target) ['^']
  | array body => exact lastName_group .array ('[' :: body.text)
  | union body => exact lastName_group .union ('(' :: body.text)
  | bitField width => exact lastName_digits width ['b']

theorem code_name {c : Char} (h : c ∈ DELIMS) :
    ∃ name, List.lookup c typeEncodings = some name := by
  obtain ⟨p, hp, rfl⟩ := List.mem_map.mp h
  cases hname : List.lookup p.1 typeEncodings with
  | none => simpa using List.lookup_eq_none_iff.mp hname p hp
  | some name => exact ⟨name, rfl⟩

/-- What the last tests make of a type that has no qualifier, or lost its only one. -/
theorem convert_type (type : CType) :
    (convert type.text).toOption =
      match type with
      | .prim c _ => (List.lookup c typeEncodings).map .prim
      | .block => some (.prim "pointer")
      | .object _ => none
      | .pointer _ => some (.prim "pointer")
      | .array _ => some (.prim "pointer")
      | .union _ => some (.prim "pointer")
      | .bitField _ => some (.prim "pointer") := by
  have hlast := lastName_type type
  cases type with
  | prim c code =>
      obtain ⟨name, hname⟩ := code_name code
      have hconvert := convert_code code hname
      rw [CType.text, hconvert]
      simp only [hname]
      rfl
  | block => rfl
  | object className =>
      rw [CType.text] at hlast ⊢
      rw [convert_long (by decide) (by decide) (List.cons_ne_nil _ _), hlast]
      rfl
  | pointer target => rfl
  | array body =>
      have hne : body.text ++ [']'] ≠ [] := by simp
      rw [CType.text] at hlast ⊢
      rw [convert_long (by decide) (by decide) hne, hlast]
      rfl
  | union body =>
      have hne : body.text ++ [')'] ≠ [] := by simp
      rw [CType.text] at hlast ⊢
      rw [convert_long (by decide) (by decide) hne, hlast]
      rfl
  | bitField width =>
      have hne : Nat.toDigits 10 width ≠ [] := Nat.toDigits_ne_nil
      rw [CType.text] at hlast ⊢
      rw [convert_long (by decide) (by decide) hne, hlast]
      rfl

/-- Behind more than one qualifier only the last character counts. -/
theorem convert_qualified {c : Char} (h : c ∈ methodEncodings.map Prod.fst) (t : Text)
    (type : CType) :
    convert (c :: (t ++ type.text)) =
      match lastName type.text with
      | some name => .ok (.prim name)
      | none => .error (.couldNotConvert (c :: (t ++ type.text))) := by
  obtain ⟨hcaret, -, hbracket, hparen, hb, hfirst⟩ := qualifier_first c h
  have hne : t ++ type.text ≠ [] := by simp [type_ne_nil type]
  have hlast : lastName (c :: (t ++ type.text)) = lastName type.text :=
    lastName_append (type_ne_nil type) (c :: t)
  rw [convert_long hcaret hfirst hne, hlast]
  cases lastName type.text with
  | some name => rfl
  | none => simp [hbracket, hparen, hb]

/-! ## Codes with qualifiers -/

theorem text_ne_nil (e : Code) : e.text ≠ [] := by
  simp [Code.text, type_ne_nil e.type]

/-- A code is no struct, whatever stands before it. -/
theorem isStruct_code (e : Code) : isStruct e.text = false := by
  have hhead : ¬ e.text.head? = some '{' := by
    cases hq : e.qualifiers with
    | nil =>
        obtain ⟨c, t, htext, -, hc⟩ := type_first e.type
        rw [Code.text, hq, htext]
        simpa using hc
    | cons q qs =>
        rw [Code.text, hq]
        simpa using (qualifier_first q.1 q.2).2.1
  simp [isStruct, hhead]

/-- With one qualifier at most, the type is converted as it is. -/
theorem mapCode_one {e : Code} (h : e.qualifiers.length ≤ 1) :
    mapCode e.text = convert e.type.text := by
  cases hq : e.qualifiers with
  | nil =>
      obtain ⟨c, t, htext, hc, -⟩ := type_first e.type
      rw [Code.text, hq, List.map_nil, List.nil_append, htext]
      exact mapCode_plain hc t
  | cons q qs =>
      rw [hq, List.length_cons] at h
      obtain rfl := List.eq_nil_of_length_eq_zero (by omega : qs.length = 0)
      rw [Code.text, hq]
      exact mapCode_qualifier q.2 e.type.text

/-- With more of them the last character decides. -/
theorem mapCode_more {e : Code} (h : 1 < e.qualifiers.length) :
    (mapCode e.text).toOption = (lastName e.type.text).map .prim := by
  match hq : e.qualifiers, h with
  | q :: q' :: qs, _ =>
      have hrest := convert_qualified q'.2 (qs.map Subtype.val) e.type
      have hmap : mapCode e.text = convert (q'.1 :: (qs.map Subtype.val ++ e.type.text)) := by
        rw [Code.text, hq]
        exact mapCode_qualifier q.2 _
      rw [hmap, hrest]
      cases lastName e.type.text <;> rfl

/-- **The chain.**  What is returned for a code. -/
theorem mapCode_toOption (e : Code) :
    (mapCode e.text).toOption =
      if e.qualifiers.length ≤ 1 then (convert e.type.text).toOption
      else (lastName e.type.text).map .prim := by
  split
  · next hone => rw [mapCode_one hone]
  · next hmore => exact mapCode_more (by omega)

theorem ok_iff {x : Except Exception MType} {t : MType} : x = .ok t ↔ x.toOption = some t := by
  cases x with
  | error e => exact ⟨fun h => (by cases h), fun h => (by cases h)⟩
  | ok t' =>
      exact ⟨fun h => congrArg some (Except.ok.inj h),
        fun h => congrArg Except.ok (Option.some.inj h)⟩

theorem endsInPointer_iff (text : Text) :
    EndsInPointer text ↔ lastName text = some "pointer" := by
  rw [lastName, Option.bind_eq_some_iff]
  rfl

end EncodingMap

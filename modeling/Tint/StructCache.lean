import Tint.StructReading
import Tint.StructSize
import Tint.MapChain
import Tint.Transition
import Mathlib.Data.List.Basic
import Mathlib.Data.List.TakeWhile
import Mathlib.Logic.Function.Basic

/-!
# The cache of struct types by their encodings

`getStruct` makes a struct type of an encoding `{Name="x"d"y"d}` and keeps it in
`structCache` under the name; `knownStructs` has definitions that are used in place of
the encoding's own.  The name is all that a later encoding is looked up with.

What an encoding denotes is said without `map` and `Struct`: a type code has its C type,
and a struct the fields of its definition, laid out as in C.  An array, a union or some
bits denote no type of `ref`; `map` makes a pointer of them.

* `getStruct_independent` -- every encoding gets one struct type, which it denotes,
  whichever were resolved before, in whatever order, if no two structs share a name
  unless their definitions are the same, every field of a definition has a name of its
  own, and its type is one that the tests of `map` find;
* `anonymous_shared` -- two anonymous structs share the name `?`.
-/

namespace StructCache

open Transition
open TypeEncoding (isOpen isClose typeEncodings)
open StructLayout (Shape)
open EncodingMap (CType Code EndsInPointer)

/-! ## Encodings -/

/-- A type encoding: any but a struct, a struct without its fields, and one with fields,
which may have names. -/
inductive Enc
  | code (e : Code)
  | incomplete (name : Text)
  | struct (name : Text) (fields : List (Option Text × Enc))

mutual

/-- The text of an encoding. -/
def render : Enc → Text
  | .code e => e.text
  | .incomplete name => '{' :: (name ++ ['}'])
  | .struct name fields => '{' :: (name ++ '=' :: (renderFields fields ++ ['}']))

/-- The text of all fields. -/
def renderFields : List (Option Text × Enc) → Text
  | [] => []
  | (some name, type) :: rest => '"' :: (name ++ '"' :: (render type ++ renderFields rest))
  | (none, type) :: rest => render type ++ renderFields rest

end

mutual

/-- The names are plain, and the other encodings have brackets that match and no class
name in quotes. -/
def WellFormed : Enc → Prop
  | .code e => level 0 e.text = some 0 ∧ ∀ c ∈ e.text, ¬ isTerminator c
  | .incomplete name => ∀ c ∈ name, isPlain c
  | .struct name fields => (∀ c ∈ name, isPlain c) ∧ FieldsWellFormed fields

/-- The names of the fields are plain and their types well formed. -/
def FieldsWellFormed : List (Option Text × Enc) → Prop
  | [] => True
  | (name, type) :: rest =>
    (∀ n ∈ name, ∀ c ∈ n, isPlain c) ∧ WellFormed type ∧ FieldsWellFormed rest

end

namespace Enc

/-- The name of a struct. -/
def name? : Enc → Option Text
  | code _ => none
  | incomplete name => some name
  | struct name _ => some name

/-- The fields; those without a name are named by their positions. -/
def fields : Enc → List (Text × Enc)
  | code _ => []
  | incomplete _ => []
  | struct _ fields => fields.zipIdx.map fun f => (f.1.1.getD (Nat.toDigits 10 f.2), f.1.2)

/-- Every field has a name. -/
def Named : Enc → Prop
  | code _ => True
  | incomplete _ => True
  | struct _ fields => ∀ f ∈ fields, f.1.isSome

end Enc

/-- Definitions of `knownStructs`, each under its own name. -/
structure Definitions where
  definition : Text → Option Enc
  name_eq : ∀ name e, definition name = some e → e.name? = some name
  wellFormed : ∀ name e, definition name = some e → WellFormed e

/-- The texts in `knownStructs`. -/
def Definitions.known (defs : Definitions) (name : Text) : Option Text :=
  (defs.definition name).map render

/-- The encoding, or the definition of its name. -/
def Definitions.resolve (defs : Definitions) (e : Enc) : Enc :=
  match e.name? with
  | some name => (defs.definition name).getD e
  | none => e

/-- The type of `ref` that a field of the type has in C.  There is none that has the bytes
of an array, of a union or of some bits. -/
def fieldName : CType → Option String
  | .prim c _ => List.lookup c typeEncodings
  | .block => some "pointer"
  | .object _ => some "pointer"
  | .pointer _ => some "pointer"
  | .array _ => none
  | .union _ => none
  | .bitField _ => none

/-- The tests of `map` find the type of a field, and it has a size. -/
def Direct (e : Code) : Prop :=
  match e.type with
  | .prim c _ => c ≠ 'v'
  | .block => True
  | .object _ => False
  | .pointer target => e.qualifiers.length ≤ 1 ∨ EndsInPointer target.text
  | .array _ => False
  | .union _ => False
  | .bitField _ => False

section Denote

variable (P : Shape) (basic : String → Shape) (defs : Definitions)

/-- **What an encoding denotes.**  A struct has the fields of its definition, in their
order, and the size and alignment that C gives it. -/
inductive Denotes : Enc → MType → Prop
  | code {e : Code} {name : String} (h : fieldName e.type = some name) :
      Denotes (.code e) (.prim name)
  | struct {e : Enc} {props : List (Text × MType)} {layout : StructTypes.Layout}
      {ss : List (Nat × Nat)} (hname : e.name?.isSome)
      (hnames : props.map Prod.fst = (defs.resolve e).fields.map Prod.fst)
      (htypes : ∀ f ∈ (defs.resolve e).fields.zip props, Denotes f.1.2 f.2.2)
      (hshapes : props.map (fun p => p.2.shape P basic) = ss.map some)
      (hlayout : (layout.size, layout.alignment) = structShape ss) :
      Denotes e (.struct props layout)

/-- The encodings that are met when those of a set are resolved. -/
inductive Occurs (E : Set Enc) : Enc → Prop
  | given {e : Enc} (h : e ∈ E) : Occurs E e
  | field {e : Enc} {name : Text} {type : Enc} (h : Occurs E e)
      (hfield : (name, type) ∈ (defs.resolve e).fields) : Occurs E type

/-- One encoding is that of a field of the other. -/
def FieldOf (type e : Enc) : Prop := ∃ name, (name, type) ∈ (defs.resolve e).fields

/-- A call of `getStruct` with an encoding, on a stack with room for so many calls. -/
structure Call where
  encoding : Enc
  stack : Nat

/-- What the call leaves in the cache. -/
def step (cache : Cache) (c : Call) : Option Cache :=
  some (getStruct P basic defs.known c.stack cache (render c.encoding)).2

/-- **The property.**  With this cache every encoding of the set gets its type, if the
stack has room, and never another one; and an entry under its name is that type. -/
structure Resolves (E : Set Enc) (type : Enc → MType) (cache : Cache) : Prop where
  returns : ∀ e ∈ E,
    ∃ n, ∀ stack, n ≤ stack → (getStruct P basic defs.known stack cache (render e)).1 = .ok (type e)
  value : ∀ e ∈ E, ∀ stack t,
    (getStruct P basic defs.known stack cache (render e)).1 = .ok t → t = type e
  unshared : ∀ e ∈ E, ∀ name t, e.name? = some name → cache name = some t → t = type e

/-- **One name, one struct.**  The encodings that occur are well formed; structs with one
name have one definition; every field of a definition has a name of its own that `Struct`
does not refuse, and a type that has a size and that the tests find; and no struct is
within itself. -/
structure Coherent (E : Set Enc) : Prop where
  wellFormed : ∀ e ∈ E, WellFormed e
  one : ∀ e e', Occurs defs E e → Occurs defs E e' → e.name? = e'.name? → e.name?.isSome →
    defs.resolve e = defs.resolve e'
  named : ∀ e, Occurs defs E e → (defs.resolve e).Named
  names : ∀ e name, Occurs defs E e → e.name? = some name → name ≠ [] ∧ name ∉ objectPrototype
  direct : ∀ e, Occurs defs E (.code e) → Direct e
  fieldNames : ∀ e, Occurs defs E e → (∀ f ∈ (defs.resolve e).fields, FieldName f.1) ∧
    ((defs.resolve e).fields.map Prod.fst).Nodup
  filled : ∀ e type, Occurs defs E e → FieldOf defs type e → type.name?.isSome →
    (defs.resolve type).fields ≠ []
  finite : ∀ e ∈ E, Acc (FieldOf defs) e

end Denote

/-! ## Texts of encodings -/

mutual

/-- The brackets of an encoding match. -/
theorem level_render : (e : Enc) → WellFormed e → level 0 (render e) = some 0
  | .code e, h => by
      rw [WellFormed] at h
      rw [render]
      exact h.1
  | .incomplete name, h => by
      rw [WellFormed] at h
      rw [render]
      exact level_braces (level_plain h 1)
  | .struct name fields, h => by
      rw [WellFormed] at h
      have hequal : level 1 ('=' :: renderFields fields) = level 1 (renderFields fields) := rfl
      have hinner : level 1 (name ++ '=' :: renderFields fields) = some 1 := by
        rw [level_append, level_plain h.1]
        exact hequal.trans (level_renderFields fields h.2)
      rw [render]
      have hbraces := level_braces hinner
      rwa [List.append_assoc, List.cons_append] at hbraces

/-- The brackets of the fields are closed. -/
theorem level_renderFields :
    (fields : List (Option Text × Enc)) → FieldsWellFormed fields →
      level 1 (renderFields fields) = some 1
  | [], _ => by
      rw [renderFields]
      rfl
  | (some name, type) :: rest, h => by
      rw [FieldsWellFormed] at h
      have hname : level 1 name = some 1 := level_plain (h.1 name rfl) 1
      have hquote : ∀ t, level 1 ('"' :: t) = level 1 t := fun t => rfl
      rw [renderFields, hquote, level_append, hname, Option.bind_some, hquote, level_append,
        level_succ (level_render type h.2.1), Option.bind_some]
      exact level_renderFields rest h.2.2
  | (none, type) :: rest, h => by
      rw [FieldsWellFormed] at h
      rw [renderFields, level_append, level_succ (level_render type h.2.1), Option.bind_some]
      exact level_renderFields rest h.2.2

end

mutual

/-- No encoding has a terminator in it. -/
theorem terminator_render : (e : Enc) → WellFormed e → ∀ c ∈ render e, ¬ isTerminator c
  | .code e, h, c, hc => by
      rw [WellFormed] at h
      rw [render] at hc
      exact h.2 c hc
  | .incomplete name, h, c, hc => by
      rw [WellFormed] at h
      rw [render] at hc
      simp only [List.mem_cons, List.mem_append, List.not_mem_nil, or_false] at hc
      rcases hc with rfl | hc | rfl
      · decide
      · simp [(isPlain_iff.mp (h c hc)).2.2.2.2]
      · decide
  | .struct name fields, h, c, hc => by
      rw [WellFormed] at h
      rw [render] at hc
      simp only [List.mem_cons, List.mem_append, List.not_mem_nil, or_false] at hc
      rcases hc with rfl | hc | rfl | hc | rfl
      · decide
      · simp [(isPlain_iff.mp (h.1 c hc)).2.2.2.2]
      · decide
      · exact terminator_renderFields fields h.2 c hc
      · decide

/-- Nor have the fields of a struct. -/
theorem terminator_renderFields :
    (fields : List (Option Text × Enc)) → FieldsWellFormed fields →
      ∀ c ∈ renderFields fields, ¬ isTerminator c
  | [], _, c, hc => by
      rw [renderFields] at hc
      cases hc
  | (some name, type) :: rest, h, c, hc => by
      rw [FieldsWellFormed] at h
      rw [renderFields] at hc
      simp only [List.mem_cons, List.mem_append] at hc
      rcases hc with rfl | hc | rfl | hc | hc
      · decide
      · simp [(isPlain_iff.mp (h.1 name rfl c hc)).2.2.2.2]
      · decide
      · exact terminator_render type h.2.1 c hc
      · exact terminator_renderFields rest h.2.2 c hc
  | (none, type) :: rest, h, c, hc => by
      rw [FieldsWellFormed] at h
      rw [renderFields, List.mem_append] at hc
      rcases hc with hc | hc
      · exact terminator_render type h.2.1 c hc
      · exact terminator_renderFields rest h.2.2 c hc

end

/-! ## Parsing them -/

/-- What stands between the braces of a struct. -/
def Enc.body : Enc → Text
  | .code _ => []
  | .incomplete name => name
  | .struct name fields => name ++ '=' :: renderFields fields

/-- The name that a struct type is kept under: one without fields has none. -/
def Enc.key : Enc → Text
  | .code _ => []
  | .incomplete _ => []
  | .struct name _ => name

theorem render_eq {e : Enc} (h : e.name?.isSome) : render e = '{' :: (e.body ++ ['}']) := by
  cases e with
  | code text => cases h
  | incomplete name => rw [render, Enc.body]
  | struct name fields => rw [render, Enc.body, List.append_assoc, List.cons_append]

theorem inner_render {e : Enc} (h : e.name?.isSome) : inner (render e) = e.body := by
  have hlength : ('{' :: (e.body ++ ['}'])).length ≠ 1 := by simp
  rw [render_eq h, inner, if_neg hlength, List.drop_one, List.tail_cons, List.dropLast_concat]

/-- A well-formed struct is taken for one. -/
theorem isStruct_render {e : Enc} (h : e.name?.isSome) (hwf : WellFormed e) :
    isStruct (render e) = true := by
  have hterminator : (render e).any isTerminator = false := by
    rw [List.any_eq_false]
    exact terminator_render e hwf
  rw [isStruct, hterminator, render_eq h]
  simp [List.getLast?_cons]

/-- Named fields are taken apart into names and types. -/
theorem scan_fields {fields : List (Option Text × Enc)} (hnamed : ∀ f ∈ fields, f.1.isSome)
    (hwf : FieldsWellFormed fields) (cur : Text) (entries : List Text) :
    ((renderFields fields).foldl Scan.char ⟨cur, 0, entries⟩).finish =
      entries ++ cur :: fields.flatMap fun f => [f.1.getD [], render f.2] := by
  induction fields generalizing cur entries with
  | nil => simp [renderFields, Scan.finish]
  | cons f rest ih =>
      obtain ⟨name, type⟩ := f
      rw [FieldsWellFormed] at hwf
      obtain ⟨hplain, htype, hrest⟩ := hwf
      cases name with
      | none => exact absurd (hnamed (none, type) List.mem_cons_self) (by simp)
      | some name =>
          have hname := scan_level (level_plain (hplain name rfl) 0)
          have hrender := scan_level (level_render type htype)
          have hquote : ∀ cur entries,
              Scan.char ⟨cur, 0, entries⟩ '"' = ⟨[], 0, entries ++ [cur]⟩ := fun _ _ => by
            simp [Scan.char]
          simp only [Nat.cast_zero] at hname hrender
          rw [renderFields, List.foldl_cons, hquote, List.foldl_append, hname, List.foldl_cons,
            hquote, List.foldl_append, hrender,
            ih (fun f hf => hnamed f (List.mem_cons_of_mem _ hf)) hrest]
          simp

/-- Names and texts are put together again, pair by pair. -/
theorem pairs_flatMap (fields : List (Option Text × Enc)) :
    pairs (fields.flatMap fun f => [f.1.getD [], render f.2]) =
      fields.map fun f => (f.1.getD [], some (render f.2)) := by
  induction fields with
  | nil => rfl
  | cons f rest ih => simp [pairs, ih]

/-- The fields of a struct whose fields are named. -/
theorem fields_of_named {fields : List (Option Text × Enc)}
    (h : ∀ f ∈ fields, f.1.isSome) (k : Nat) :
    ((fields.zipIdx k).map fun f => (f.1.1.getD (Nat.toDigits 10 f.2), f.1.2)) =
      fields.map fun f => (f.1.getD [], f.2) := by
  induction fields generalizing k with
  | nil => rfl
  | cons f rest ih =>
      obtain ⟨name, hname⟩ := Option.isSome_iff_exists.mp (h f List.mem_cons_self)
      rw [List.zipIdx_cons, List.map_cons, List.map_cons, hname, Option.getD_some, Option.getD_some,
        ih (fun f hf => h f (List.mem_cons_of_mem _ hf))]

/-- **Parsing.**  The text of a struct whose fields are named is parsed into its fields. -/
theorem parseStruct_render {e : Enc} {name : Text} (h : e.name? = some name) (hwf : WellFormed e) :
    parseStructName (render e) = name ∧
      (e.Named → parseStruct (render e) =
        (e.key, e.fields.map fun f => (f.1, some (render f.2)))) := by
  have hsome : e.name?.isSome := by rw [h]; rfl
  have hinner := inner_render hsome
  cases e with
  | code text => cases h
  | incomplete name =>
      obtain rfl := Option.some.inj h
      rw [WellFormed] at hwf
      have heq : '=' ∉ inner (render (.incomplete name)) := by
        rw [hinner]
        exact equal_notMem hwf
      obtain ⟨hname, hparse⟩ := parseStruct_noEqual heq
      have hscan := scan_level (level_plain hwf 0) [] []
      rw [Nat.cast_zero, List.nil_append] at hscan
      rw [hinner] at hname hparse
      refine ⟨hname, fun _ => ?_⟩
      rw [hparse, properties, Enc.body, hscan]
      rfl
  | struct name fields =>
      obtain rfl := Option.some.inj h
      rw [WellFormed] at hwf
      obtain ⟨hname, hparse⟩ := parseStruct_equal hinner (equal_notMem hwf.1)
      refine ⟨hname, fun hnamed => ?_⟩
      have hscan := scan_fields hnamed hwf.2 [] []
      rw [List.nil_append] at hscan
      rw [hparse, properties, hscan, List.drop_one, List.tail_cons, pairs_flatMap,
        Enc.key, Enc.fields,
        fields_of_named hnamed, List.map_map]
      rfl

/-! ## What an encoding denotes -/

section Results

variable {P : Shape} {basic : String → Shape} {defs : Definitions}

/-- Each field is well formed. -/
theorem FieldsWellFormed.mem {fields : List (Option Text × Enc)} (h : FieldsWellFormed fields)
    {f : Option Text × Enc} (hf : f ∈ fields) : WellFormed f.2 := by
  induction fields with
  | nil => cases hf
  | cons g fields ih =>
      obtain ⟨name, type⟩ := g
      rw [FieldsWellFormed] at h
      rcases List.mem_cons.mp hf with rfl | hf
      · exact h.2.1
      · exact ih h.2.2 hf

/-- The fields of a well-formed encoding are well formed. -/
theorem WellFormed.field {e : Enc} (h : WellFormed e) {f : Text × Enc} (hf : f ∈ e.fields) :
    WellFormed f.2 := by
  cases e with
  | code text => cases hf
  | incomplete name => cases hf
  | struct name fields =>
      rw [WellFormed] at h
      obtain ⟨⟨g, i⟩, hg, rfl⟩ := List.mem_map.mp hf
      exact h.2.mem (List.fst_mem_of_mem_zipIdx hg)

theorem Definitions.resolve_eq (defs : Definitions) {e : Enc} {name : Text}
    (h : e.name? = some name) :
    defs.resolve e = (defs.definition name).getD e := by
  rw [Definitions.resolve, h]

/-- What an encoding is resolved to is well formed. -/
theorem Definitions.wellFormed_resolve (defs : Definitions) {e : Enc} (h : WellFormed e) :
    WellFormed (defs.resolve e) := by
  cases hname : e.name? with
  | none =>
      rw [Definitions.resolve, hname]
      exact h
  | some name =>
      rw [defs.resolve_eq hname]
      cases hdef : defs.definition name with
      | none => exact h
      | some d => exact defs.wellFormed name d hdef

/-- A definition has the name of what it defines. -/
theorem Definitions.name_resolve (defs : Definitions) {e : Enc} {name : Text}
    (h : e.name? = some name) :
    (defs.resolve e).name? = some name := by
  rw [defs.resolve_eq h]
  cases hdef : defs.definition name with
  | none => exact h
  | some d => exact defs.name_eq name d hdef

variable {E : Set Enc}

theorem Coherent.occurs_wellFormed (h : Coherent defs E) {e : Enc} (he : Occurs defs E e) :
    WellFormed e := by
  induction he with
  | given hmem => exact h.wellFormed _ hmem
  | field _ hfield ih => exact (defs.wellFormed_resolve ih).field hfield

theorem objectPrototype_brace (rest : Text) : '{' :: rest ∉ objectPrototype := by
  simp [objectPrototype]

/-- The text that `getStruct` parses. -/
theorem known_getD {e : Enc} {name : Text} (h : e.name? = some name) :
    (defs.known name).getD (render e) = render (defs.resolve e) := by
  rw [Definitions.known, defs.resolve_eq h]
  cases defs.definition name <;> rfl

/-! ## Reading what an encoding denotes -/

/-- An encoding that is taken for a struct is one. -/
theorem isStruct_code {e : Enc} (h : isStruct (render e)) : e.name?.isSome := by
  cases e with
  | code e =>
      rw [render, EncodingMap.isStruct_code] at h
      cases h
  | incomplete name => rfl
  | struct name fields => rfl

/-- What is parsed for an encoding that occurs. -/
theorem parsed_render (h : Coherent defs E) {e : Enc} (he : Occurs defs E e) {name : Text}
    (hname : e.name? = some name) :
    parsed defs.known (render e) =
      ((defs.resolve e).key, (defs.resolve e).fields.map fun f => (f.1, some (render f.2))) := by
  have hwf := h.occurs_wellFormed he
  rw [parsed, (parseStruct_render hname hwf).1, known_getD hname]
  exact (parseStruct_render (defs.name_resolve hname) (defs.wellFormed_resolve hwf)).2
    (h.named e he)

/-- A type that the tests find is the one of a field of it, and it has a size. -/
theorem mapCode_direct {e : Code} (h : Direct e) :
    ∃ name, fieldName e.type = some name ∧ mapCode e.text = .ok (.prim name) ∧ name ≠ "void" := by
  have hresult := EncodingMap.mapCode_toOption e
  have hconvert := EncodingMap.convert_type e.type
  have hlast := EncodingMap.lastName_type e.type
  simp only [EncodingMap.ok_iff, hresult]
  unfold Direct at h
  cases htype : e.type with
  | prim c code =>
      simp only [htype] at h hconvert hlast
      obtain ⟨name, hname⟩ := EncodingMap.code_name code
      refine ⟨name, hname, by simp [hconvert, hlast, hname], fun hvoid => h ?_⟩
      obtain ⟨before, behind, hlist, -⟩ := List.lookup_eq_some_iff.mp (hvoid ▸ hname)
      have hmem : (c, "void") ∈ typeEncodings := hlist ▸ List.mem_append_right _ List.mem_cons_self
      simpa [typeEncodings] using hmem
  | block =>
      simp only [htype] at hconvert hlast
      exact ⟨"pointer", rfl, by simp [hconvert, hlast], by decide⟩
  | object className => simp only [htype] at h
  | pointer target =>
      simp only [htype] at h hconvert hlast
      refine ⟨"pointer", rfl, ?_, by decide⟩
      by_cases hone : e.qualifiers.length ≤ 1
      · rw [if_pos hone, hconvert]
      · have hends := (EncodingMap.endsInPointer_iff target.text).mp (h.resolve_left hone)
        rw [if_neg hone, hlast, hends]
        rfl
  | array body => simp only [htype] at h
  | union body => simp only [htype] at h
  | bitField width => simp only [htype] at h

variable (P basic defs) in
/-- Fields that are read, with what their encodings denote and with sizes. -/
structure FieldsRead (depth : Nat) (fields : List (Text × Enc)) (props : List (Text × MType))
    (ss : List (Nat × Nat)) : Prop where
  reads : readProps (readField (read P basic defs.known depth))
    (fields.map fun f => (f.1, some (render f.2))) = some props
  names : props.map Prod.fst = fields.map Prod.fst
  types : ∀ f ∈ fields.zip props, Denotes P basic defs f.1.2 f.2.2
  shapes : props.map (fun p => p.2.shape P basic) = ss.map some
  positive : ∀ s ∈ ss, 0 < s.1 ∧ 0 < s.2

variable (P basic defs) in
/-- One field is read as what its encoding denotes, and has a size. -/
def FieldRead (e : Enc) : Prop :=
  ∃ depth t s, readField (read P basic defs.known depth) (render e) = some t ∧
    Denotes P basic defs e t ∧ t.shape P basic = some s ∧ 0 < s.1 ∧ 0 < s.2

/-- If each field is read, all are. -/
theorem fieldsRead (fields : List (Text × Enc)) (h : ∀ f ∈ fields, FieldRead P basic defs f.2) :
    ∃ depth props ss, FieldsRead P basic defs depth fields props ss := by
  induction fields with
  | nil => exact ⟨0, [], [], rfl, rfl, fun f hf => (by cases hf), rfl, fun s hs => (by cases hs)⟩
  | cons f fields ih =>
      obtain ⟨⟨d, t, s, hread, hdenotes, hshape, hpos⟩, hrest⟩ := List.forall_mem_cons.mp h
      obtain ⟨d', props, ss, hall⟩ := ih hrest
      have hread' := readField_mono (fun _ => read_mono (Nat.le_max_left d d')) hread
      refine ⟨max d d', (f.1, t) :: props, s :: ss, ?_, ?_, ?_, ?_, ?_⟩
      · rw [List.map_cons, readProps, hread', readProps_depth (Nat.le_max_right d d') hall.reads]
      · rw [List.map_cons, List.map_cons, hall.names]
      · exact List.forall_mem_cons.mpr ⟨hdenotes, hall.types⟩
      · rw [List.map_cons, List.map_cons, hshape, hall.shapes]
      · exact List.forall_mem_cons.mpr ⟨hpos, hall.positive⟩

/-- A code among the fields is read as its type. -/
theorem fieldRead_code {e : Code} (h : Direct e) : FieldRead P basic defs (.code e) := by
  obtain ⟨name, hfield, hmap, hvoid⟩ := mapCode_direct h
  obtain ⟨s, hshape⟩ : ∃ s, (MType.prim name).shape P basic = some s := by
    simp only [MType.shape, if_neg hvoid]
    split <;> exact ⟨_, rfl⟩
  refine ⟨0, .prim name, s, ?_, .code hfield, hshape, prim_shape_pos hshape⟩
  rw [render, readField, if_neg (EncodingMap.text_ne_nil e),
    if_neg (by simp [EncodingMap.isStruct_code]),
    hmap]
  rfl

/-- The struct type of fields that are read. -/
theorem read_of_fields (h : Coherent defs E) {e : Enc} (he : Occurs defs E e)
    (hname : e.name?.isSome)
    {depth : Nat} {props : List (Text × MType)} {ss : List (Nat × Nat)}
    (hfields : FieldsRead P basic defs depth (defs.resolve e).fields props ss) :
    ∃ layout, read P basic defs.known (depth + 1) (render e) = some (.struct props layout) ∧
      Denotes P basic defs e (.struct props layout) ∧
      (layout.size, layout.alignment) = structShape ss := by
  obtain ⟨name, hsome⟩ := Option.isSome_iff_exists.mp hname
  obtain ⟨hproper, hnodup⟩ := h.fieldNames e he
  have hnames : ∀ p ∈ props, FieldName p.1 := by
    intro p hp
    have hmem : p.1 ∈ props.map Prod.fst := List.mem_map_of_mem hp
    rw [hfields.names] at hmem
    obtain ⟨f, hf, heq⟩ := List.mem_map.mp hmem
    exact heq ▸ hproper f hf
  have hshapes : ∀ p ∈ props, ∃ s, p.2.shape P basic = some s ∧ 0 < s.1 ∧ 0 < s.2 := by
    intro p hp
    have hmem : p.2.shape P basic ∈ props.map fun p => p.2.shape P basic := List.mem_map_of_mem hp
    rw [hfields.shapes] at hmem
    obtain ⟨s, hs, heq⟩ := List.mem_map.mp hmem
    exact ⟨s, heq.symm, hfields.positive s hs⟩
  obtain ⟨layout, hstruct, hlayout⟩ :=
    Struct_shape hnames (by rw [hfields.names]; exact hnodup) hshapes
  have hget : props.map (fun p => (p.2.shape P basic).getD (0, 0)) = ss := by
    have hmap := congrArg (List.map fun s => s.getD (0, 0)) hfields.shapes
    simpa [List.map_map, Function.comp_def] using hmap
  rw [hget] at hlayout
  refine ⟨layout, ?_, .struct hname hfields.names hfields.types hfields.shapes hlayout, hlayout⟩
  rw [read, parsed_render h he hsome, hfields.reads, Option.bind_some, hstruct]
  rfl

variable (P basic) in
/-- **Reading.**  A struct that occurs is read as what it denotes. -/
theorem read_denotes (h : Coherent defs E) {e : Enc} (hacc : Acc (FieldOf defs) e)
    (he : Occurs defs E e) (hname : e.name?.isSome) :
    ∃ depth props layout ss,
      read P basic defs.known depth (render e) = some (.struct props layout) ∧
      Denotes P basic defs e (.struct props layout) ∧
      (layout.size, layout.alignment) = structShape ss ∧ ss.length =
        (defs.resolve e).fields.length ∧
      ∀ s ∈ ss, 0 < s.1 ∧ 0 < s.2 := by
  induction hacc with
  | intro e _ ih =>
      have hfields : ∀ f ∈ (defs.resolve e).fields, FieldRead P basic defs f.2 := by
        rintro ⟨fname, type⟩ hf
        have hoccurs : Occurs defs E type := .field he hf
        by_cases htype : type.name?.isSome
        · obtain ⟨depth, props, layout, ss, hread, hdenotes, hlayout, hlength, hpos⟩ :=
            ih type ⟨fname, hf⟩ hoccurs htype
          have hne : ss ≠ [] := by
            intro hnil
            rw [hnil] at hlength
            exact h.filled e type he ⟨fname, hf⟩ htype (List.length_eq_zero_iff.mp hlength.symm)
          have hsize := structShape_size_pos hne fun s hs => (hpos s hs).1
          have halign := structShape_pos (fun s hs => (hpos s hs).2) hsize
          refine ⟨depth, .struct props layout, structShape ss, ?_, hdenotes, congrArg some hlayout,
            hsize, halign⟩
          rw [readField, if_neg (by rw [render_eq htype]; exact List.cons_ne_nil _ _),
            if_pos (isStruct_render htype (h.occurs_wellFormed hoccurs))]
          exact hread
        · cases type with
          | code code => exact fieldRead_code (h.direct code hoccurs)
          | incomplete n => exact absurd rfl htype
          | struct n fields => exact absurd rfl htype
      obtain ⟨depth, props, ss, hall⟩ := fieldsRead _ hfields
      obtain ⟨layout, hread, hdenotes, hlayout⟩ := read_of_fields h he hname hall
      have hlength : ss.length = (defs.resolve e).fields.length := by
        have hshapes := congrArg List.length hall.shapes
        have hnames := congrArg List.length hall.names
        simp only [List.length_map] at hshapes hnames
        omega
      exact ⟨depth + 1, props, layout, ss, hread, hdenotes, hlayout, hlength, hall.positive⟩

/-- The texts of the structs that occur. -/
def texts (defs : Definitions) (E : Set Enc) : Set Text :=
  { t | ∃ e, Occurs defs E e ∧ e.name?.isSome ∧ t = render e }

/-- A struct is kept under its name or, without fields, under none. -/
theorem Definitions.key_resolve (defs : Definitions) {e : Enc} {name : Text}
    (h : e.name? = some name) :
    (defs.resolve e).key = [] ∨ (defs.resolve e).key = name := by
  have hresolve := defs.name_resolve h
  cases hres : defs.resolve e with
  | code text => exact .inl rfl
  | incomplete n => exact .inl rfl
  | struct n fields =>
      rw [hres] at hresolve
      exact .inr (Option.some.inj hresolve)

/-- No name is the text of a struct. -/
theorem render_ne_name {e e' : Enc} {name : Text} (hwf : WellFormed e) (h : e.name? = some name)
    (hname : e'.name?.isSome) : name ≠ render e' := by
  intro heq
  have hmem : '{' ∈ name := by
    rw [heq, render_eq hname]
    exact List.mem_cons_self
  have hplain : isPlain '{' = true := by
    cases e with
    | code text => cases h
    | incomplete n =>
        obtain rfl := Option.some.inj h
        rw [WellFormed] at hwf
        exact hwf _ hmem
    | struct n fields =>
        obtain rfl := Option.some.inj h
        rw [WellFormed] at hwf
        exact hwf.1 _ hmem
  exact absurd hplain (by decide)

/-- One name, one struct, for the texts. -/
theorem Coherent.consistent (h : Coherent defs E) : Consistent defs.known (texts defs E) := by
  constructor
  · intro t ht name type hf hstruct
    obtain ⟨e, he, hname, rfl⟩ := ht
    obtain ⟨n, hsome⟩ := Option.isSome_iff_exists.mp hname
    rw [parsed_render h he hsome] at hf
    obtain ⟨f, hfield, heq⟩ := List.mem_map.mp hf
    obtain ⟨-, htype⟩ := Prod.mk.inj heq
    obtain rfl := Option.some.inj htype
    have hoccurs : Occurs defs E f.2 := .field he hfield
    exact ⟨f.2, hoccurs, isStruct_code hstruct, rfl⟩
  · intro t ht t' ht' hkey
    obtain ⟨e, he, hname, rfl⟩ := ht
    obtain ⟨e', he', hname', rfl⟩ := ht'
    obtain ⟨n, hsome⟩ := Option.isSome_iff_exists.mp hname
    obtain ⟨n', hsome'⟩ := Option.isSome_iff_exists.mp hname'
    rw [parsed_render h he hsome, (parseStruct_render hsome' (h.occurs_wellFormed he')).1] at hkey
    rw [parsed_render h he hsome, parsed_render h he' hsome']
    have hown := defs.key_resolve hsome
    rcases hkey with hkey | hkey
    · rcases hown with hnil | hsame
      · rw [hnil, render_eq hname'] at hkey
        cases hkey
      · exact absurd (hsame.symm.trans hkey) (render_ne_name (h.occurs_wellFormed he) hsome hname')
    · rcases hown with hnil | hsame
      · rw [hnil] at hkey
        exact absurd hkey.symm (h.names e' n' he' hsome').1
      · rw [hsame] at hkey
        have hresolve := h.one e e' he he' (by rw [hsome, hsome']; exact congrArg some hkey) hname
        rw [hresolve]
  · intro t ht
    obtain ⟨e, he, hname, rfl⟩ := ht
    obtain ⟨n, hsome⟩ := Option.isSome_iff_exists.mp hname
    rw [(parseStruct_render hsome (h.occurs_wellFormed he)).1]
    refine ⟨?_, (h.names e n he hsome).2⟩
    rw [render_eq hname]
    exact objectPrototype_brace _

variable (P basic defs) in
/-- The type that the text of an encoding is read as. -/
noncomputable def typeOf (e : Enc) : MType :=
  open Classical in
  if h : ∃ t, Reads P basic defs.known (render e) t then h.choose else .undefined

variable (P basic) in
/-- What the text is read as is the only type it is read as. -/
theorem typeOf_eq {e : Enc} {t : MType} (h : Reads P basic defs.known (render e) t) :
    typeOf P basic defs e = t := by
  have hex : ∃ t, Reads P basic defs.known (render e) t := ⟨t, h⟩
  rw [typeOf, dif_pos hex]
  exact hex.choose_spec.unique h

variable (P basic) in
/-- A struct that occurs denotes the type that it is read as. -/
theorem reads_typeOf (h : Coherent defs E) {e : Enc} (he : e ∈ E) (hname : e.name?.isSome) :
    Reads P basic defs.known (render e) (typeOf P basic defs e) ∧
      Denotes P basic defs e (typeOf P basic defs e) := by
  obtain ⟨depth, props, layout, ss, hread, hdenotes, -⟩ :=
    read_denotes P basic h (h.finite e he) (.given he) hname
  have htype := typeOf_eq P basic ⟨depth, hread⟩
  rw [htype]
  exact ⟨⟨depth, hread⟩, hdenotes⟩

/-- In a coherent set every state reached resolves each encoding to the type it is read as. -/
theorem resolves_of_coherent (h : Coherent defs E) (hE : ∀ e ∈ E, e.name?.isSome) {cache : Cache}
    (hreach : Reaches (step P basic defs) (fun _ c => c.encoding ∈ E) (fun _ => none) cache) :
    Resolves P basic defs E (typeOf P basic defs) cache := by
  have hconsistent := h.consistent
  have htext : ∀ e ∈ E, render e ∈ texts defs E := fun e he => ⟨e, .given he, hE e he, rfl⟩
  have hsound : Sound P basic defs.known (texts defs E) cache := by
    refine hreach.invariant (Sound P basic defs.known (texts defs E)) (fun t _ key z _ hvalue => ?_)
      fun cache c cache' hcache hmem hstep => ?_
    · cases hvalue
    · obtain rfl := Option.some.inj hstep
      exact (getStruct_right hconsistent c.stack hcache (htext _ hmem)).sound
  refine ⟨fun e he => ?_, fun e he stack t ht => ?_, fun e he name t hname hvalue => ?_⟩
  · obtain ⟨⟨depth, hread⟩, -⟩ := reads_typeOf P basic h he (hE e he)
    exact ⟨depth, fun stack hle =>
      (getStruct_right hconsistent stack hsound (htext e he)).total _ depth hread hle⟩
  · obtain ⟨hreads, -⟩ := reads_typeOf P basic h he (hE e he)
    rcases (getStruct_right hconsistent stack hsound (htext e he)).agrees t ht with hread |
      ⟨-, hnone⟩
    · exact Reads.unique hread hreads
    · obtain ⟨depth, hdepth⟩ := hreads
      rw [hnone depth] at hdepth
      cases hdepth
  · refine (typeOf_eq P basic (hsound _ (htext e he) name t (.inr ?_) hvalue)).symm
    exact (parseStruct_render hname (h.wellFormed e he)).1.symm

variable (P basic defs E) in
/-- **Independence.**  Each encoding of the set has one type, which it denotes, and gets
that type after any calls with encodings of the set, in any order. -/
theorem getStruct_independent (h : Coherent defs E) (hE : ∀ e ∈ E, e.name?.isSome) :
    ∃ type : Enc → MType, (∀ e ∈ E, Denotes P basic defs e (type e)) ∧ ∀ cache,
      Reaches (step P basic defs) (fun _ c => c.encoding ∈ E) (fun _ => none) cache →
        Resolves P basic defs E type cache :=
  ⟨typeOf P basic defs, fun e he => (reads_typeOf P basic h he (hE e he)).2,
    fun _ hreach => resolves_of_coherent h hE hreach⟩

end Results

/-- The sizes of the scalar types that the examples use. -/
def sizes : String → Shape := fun name =>
  if name = "double" then StructTypes.word else StructLayout.natural 4 (Nat.succ_pos 3)

/-- A type code. -/
def scalar (c : Char) (code : c ∈ TypeEncoding.DELIMS) : Enc := .code ⟨[], .prim c code⟩

theorem d_code : 'd' ∈ TypeEncoding.DELIMS := by decide

theorem i_code : 'i' ∈ TypeEncoding.DELIMS := by decide

/-- `{P=d}`, as a method type has it. -/
def point : Enc := .struct ['P'] [(none, scalar 'd' d_code)]

/-- `{P="x"d}` -/
def namedPoint : Enc := .struct ['P'] [(some ['x'], scalar 'd' d_code)]

theorem point_wellFormed : WellFormed point := by
  simp [point, scalar, WellFormed, FieldsWellFormed, EncodingMap.Code.text, CType.text,
    isPlain, isOpen,
    isClose, isTerminator, level]

theorem namedPoint_wellFormed : WellFormed namedPoint := by
  simp [namedPoint, scalar, WellFormed, FieldsWellFormed, EncodingMap.Code.text,
    CType.text, isPlain,
    isOpen, isClose, isTerminator, level]

/-- `knownStructs` with `{P="x"d}`. -/
def pointDefinitions : Definitions where
  definition name := if name = ['P'] then some namedPoint else none
  name_eq name e h := by
    split at h
    · next hname => rw [← Option.some.inj h, hname]; rfl
    · cases h
  wellFormed name e h := by
    split at h
    · rw [← Option.some.inj h]
      exact namedPoint_wellFormed
    · cases h

theorem point_fields : (pointDefinitions.resolve point).fields = [(['x'], scalar 'd' d_code)] := rfl

/-- What occurs in the set of the point. -/
theorem point_occurs {e : Enc} (he : Occurs pointDefinitions {point} e) :
    e = point ∨ e = scalar 'd' d_code := by
  induction he with
  | given hmem => exact .inl hmem
  | @field e name type _ hfield ih =>
      rcases ih with rfl | rfl
      · rw [point_fields] at hfield
        exact .inr (Prod.mk.inj (List.mem_singleton.mp hfield)).2
      · cases hfield

/-- A point has one meaning. -/
theorem point_coherent : Coherent pointDefinitions {point} := by
  have hscalar : ∀ type, ¬ FieldOf pointDefinitions type (scalar 'd' d_code) := by
    rintro type ⟨name, hfield⟩
    cases hfield
  have hfield : ∀ type, FieldOf pointDefinitions type point → type = scalar 'd' d_code := by
    rintro type ⟨name, hfield⟩
    rw [point_fields] at hfield
    exact (Prod.mk.inj (List.mem_singleton.mp hfield)).2
  refine ⟨fun e he => ?_, fun e e' he he' hsame hname => ?_, fun e he => ?_,
    fun e name he hname => ?_,
    fun e he => ?_, fun e he => ?_, fun e type he htype hname => ?_, fun e he => ?_⟩
  · rw [Set.mem_singleton_iff.mp he]
    exact point_wellFormed
  · rcases point_occurs he with rfl | rfl
    · rcases point_occurs he' with rfl | rfl
      · rfl
      · cases hsame
    · cases hname
  · rcases point_occurs he with rfl | rfl
    · exact fun f hf => by rw [List.mem_singleton.mp hf]; rfl
    · trivial
  · rcases point_occurs he with rfl | rfl
    · obtain rfl := Option.some.inj hname
      simp [objectPrototype]
    · cases hname
  · rcases point_occurs he with heq | heq
    · cases heq
    · obtain rfl := Enc.code.inj heq
      change 'd' ≠ 'v'
      decide
  · rcases point_occurs he with rfl | rfl
    · rw [point_fields]
      refine ⟨fun f hf => ?_, List.nodup_singleton _⟩
      rw [List.mem_singleton.mp hf]
      exact ⟨by decide, by decide⟩
    · exact ⟨fun f hf => (by cases hf), List.nodup_nil⟩
  · rcases point_occurs he with rfl | rfl
    · rw [hfield type htype] at hname
      cases hname
    · exact absurd htype (hscalar type)
  · rw [Set.mem_singleton_iff.mp he]
    refine Acc.intro _ fun type htype => ?_
    rw [hfield type htype]
    exact Acc.intro _ fun inner hinner => absurd hinner (hscalar inner)

/-- A struct without field names that is known with them. -/
theorem getStruct_independent_known :
    ∃ type : Enc → MType,
      (∀ e ∈ ({point} : Set Enc), Denotes StructTypes.word sizes pointDefinitions e (type e)) ∧
      ∀ cache, Reaches (step StructTypes.word sizes pointDefinitions)
          (fun _ c => c.encoding ∈ ({point} : Set Enc)) (fun _ => none) cache →
        Resolves StructTypes.word sizes pointDefinitions {point} type cache :=
  getStruct_independent StructTypes.word sizes pointDefinitions {point} point_coherent
    (fun e he => by rw [Set.mem_singleton_iff.mp he]; rfl)

/-- The number of fields of a struct type. -/
def MType.fieldCount : MType → Nat
  | .struct fields _ => fields.length
  | _ => 0

/-- `{?="a"i}` and `{?="a"i"b"i}` -/
def anonymous : List Enc :=
  [.struct ['?'] [(some ['a'], scalar 'i' i_code)],
    .struct ['?'] [(some ['a'], scalar 'i' i_code), (some ['b'], scalar 'i' i_code)]]

/-- No struct is known. -/
def noDefinitions : Definitions where
  definition _ := none
  name_eq _ _ h := by cases h
  wellFormed _ _ h := by cases h

/-- **Anonymous structs share a name.**  The second one gets the type of the first. -/
theorem anonymous_shared :
    ¬ ∀ (P : Shape) (basic : String → Shape) (defs : Definitions) (encodings : List Enc),
      (∀ e ∈ encodings, e.name?.isSome ∧ WellFormed e) →
      ∃ type : Enc → MType, (∀ e ∈ encodings, Denotes P basic defs e (type e)) ∧ ∀ cache,
        Reaches (step P basic defs) (fun _ c => c.encoding ∈ encodings) (fun _ => none) cache →
          Resolves P basic defs { e | e ∈ encodings } type cache := by
  intro hall
  obtain ⟨type, hdenotes, hresolves⟩ := hall StructTypes.word sizes noDefinitions anonymous
    (by simp [anonymous, scalar, Enc.name?, WellFormed, FieldsWellFormed, EncodingMap.Code.text,
      CType.text, isPlain, isOpen, isClose, isTerminator, level])
  have hafter := hresolves _
    (Reaches.start.next (a := ⟨anonymous[0], 1⟩) (by simp [anonymous]) rfl)
  let after := (getStruct StructTypes.word sizes noDefinitions.known 1 (fun _ => none)
    (render anonymous[0])).2
  let second := (getStruct StructTypes.word sizes noDefinitions.known 1 after
    (render anonymous[1])).1
  have hsecond : second.toOption.map MType.fieldCount = some 1 := by decide
  have hmem : anonymous[1] ∈ anonymous := by simp
  have hcount : (type anonymous[1]).fieldCount = 2 := by
    have hdenoted := hdenotes anonymous[1] hmem
    generalize type anonymous[1] = t at hdenoted ⊢
    cases hdenoted with
    | struct hname hnames htypes hshapes hlayout =>
        have hlength := congrArg List.length hnames
        rw [List.length_map] at hlength
        exact hlength
  cases hresult : second with
  | error e =>
      rw [hresult] at hsecond
      cases hsecond
  | ok t =>
      have heq := hafter.value anonymous[1] hmem 1 t hresult
      rw [hresult, heq] at hsecond
      have hone : (type anonymous[1]).fieldCount = 1 := Option.some.inj hsecond
      omega

end StructCache

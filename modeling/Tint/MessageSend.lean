import Tint.StructParse
import Tint.MapChain
import Tint.StructReading
import Tint.StructSize
import Tint.Transition

/-!
# The function that sends a message

A struct that is too large for registers is returned through `objc_msgSend_stret`.
`msgSend` asks `getStruct` for the type of any return encoding and looks at its size.  But
`getStruct` drops the first and the last character of whatever it is given and takes the
rest for a name, a `=` and fields: a pointer to a struct, `^{S="x"d}`, is read as the
struct, and a struct whose fields have no names as one without fields.

* `selects_iff` -- for encodings that are read so, when the function is the right one, in
  every run in which no two encodings share a name;
* `pointer_selected` -- a pointer to three doubles is sent for as a large struct.
-/

namespace MessageSend

open Transition
open TypeEncoding (typeEncodings methodEncodings)
open StructCache
open StructParse (Encoding Name named fieldsText)
open StructLayout (Shape)

/-- The functions of the runtime that send a message. -/
inductive FuncPtr
  | objc_msgSend
  | objc_msgSendSuper
  | objc_msgSend_stret
  | objc_msgSendSuper_stret
  deriving DecidableEq, Repr

/-- The function returns a struct through memory. -/
def FuncPtr.isStret : FuncPtr → Bool
  | objc_msgSend => false
  | objc_msgSendSuper => false
  | objc_msgSend_stret => true
  | objc_msgSendSuper_stret => true

/-- `struct && struct.size > 16`; nothing else that `getStruct` returns has a size. -/
def isLarge : MType → Bool
  | .struct _ layout => 16 < layout.size
  | _ => false

section MsgSend

variable (P : Shape) (basic : String → Shape) (known : Text → Option Text)

/-- What `msgSend` picks for a return encoding, and the cache it leaves, on a stack with
room for so many calls. -/
def msgSend (stack : Nat) (supre : Bool) (cache : Cache) (returnType : Text) :
    Except Exception FuncPtr × Cache :=
  let funcptr := if supre then FuncPtr.objc_msgSendSuper else .objc_msgSend
  match getStruct P basic known stack cache returnType with
  | (.error e, cache) => (.error e, cache)
  | (.ok struct, cache) =>
      if isLarge struct then
        (.ok (if supre then .objc_msgSendSuper_stret else .objc_msgSend_stret), cache)
      else (.ok funcptr, cache)

/-- What uses struct types: a message that returns an encoding, and `map`. -/
inductive Call
  | msgSend (e : Encoding) (supre : Bool) (stack : Nat)
  | map (e : Encoding) (stack : Nat)

/-- The encoding that is asked for. -/
def Call.encoding : Call → Encoding
  | msgSend e _ _ => e
  | map e _ => e

/-- What the call leaves in the cache. -/
def step (cache : Cache) : Call → Option Cache
  | .msgSend e supre stack => some (msgSend P basic known stack supre cache e.text).2
  | .map e stack => some (StructCache.map (getStruct P basic known stack) cache e.text).2

/-! ## The sizes in C -/

mutual

/-- The size and alignment of a type in C. -/
def cShape : Encoding → Nat × Nat
  | .prim c _ =>
      ((List.lookup c typeEncodings).bind fun name => (MType.prim name).shape P basic).getD (0, 1)
  | .block => (P.size, P.alignment)
  | .object _ => (P.size, P.alignment)
  | .pointer _ => (P.size, P.alignment)
  | .qualified _ _ e => cShape e
  | .array length e => (length * (cShape e).1, (cShape e).2)
  | .incomplete _ => (0, 1)
  | .struct _ fields => structShape (fieldShapes fields)

/-- The sizes and alignments of the fields. -/
def fieldShapes : List (Option Name × Encoding) → List (Nat × Nat)
  | [] => []
  | (_, type) :: rest => cShape type :: fieldShapes rest

end

/-- The type is a struct by value, qualified or not. -/
def IsStruct : Encoding → Prop
  | .struct _ _ => True
  | .qualified _ _ e => IsStruct e
  | _ => False

/-- **The property.**  The function for large structs is picked for the structs of more
than 16 bytes, and for nothing else. -/
def Selects (stack : Nat) (cache : Cache) (e : Encoding) : Prop :=
  ∀ supre, (∃ f, (msgSend P basic known stack supre cache e.text).1 = .ok f ∧ f.isStret = true) ↔
    IsStruct e ∧ 16 < (cShape P basic e).1

/-! ## How encodings are read -/

/-- The carets and qualifiers before an encoding. -/
def front : Encoding → Text
  | .pointer e => '^' :: front e
  | .qualified c _ e => c :: front e
  | _ => []

/-- The encoding behind them. -/
def core : Encoding → Encoding
  | .pointer e => core e
  | .qualified _ _ e => core e
  | e => e

/-- Types that start neither with a qualifier nor with a brace. -/
def Bare : Encoding → Prop
  | .prim _ _ => True
  | .block => True
  | .object _ => True
  | .pointer _ => True
  | .array _ _ => True
  | _ => False

mutual

/-- A field of the type is taken for one of this size and alignment: an array for a
pointer, and a struct for the fields that it or the known definition has.  -/
inductive Seen : Encoding → Nat × Nat → Prop
  | prim {c : Char} {plain : isPlain c} {name : String} {s : Nat × Nat}
      (hcode : List.lookup c typeEncodings = some name)
      (hs : (MType.prim name).shape P basic = some s) : Seen (.prim c plain) s
  | block : Seen .block (P.size, P.alignment)
  | object : Seen (.object none) (P.size, P.alignment)
  | pointer {e : Encoding} : Seen (.pointer e) (P.size, P.alignment)
  | array {length : Nat} {e : Encoding} : Seen (.array length e) (P.size, P.alignment)
  | qualified {c : Char} {qualifier : c ∈ methodEncodings.map Prod.fst} {e : Encoding}
      {s : Nat × Nat} (hbare : Bare e) (h : Seen e s) : Seen (.qualified c qualifier e) s
  | struct {name name' : Name} {fields : List (Option Name × Encoding)}
      {fields' : List (Name × Encoding)}
      {ss : List (Nat × Nat)}
      (hknown : (known name.text).getD (Encoding.struct name fields).text =
        (Encoding.struct name' (named fields')).text)
      (h : AllSeen fields' ss) : Seen (.struct name fields) (structShape ss)

/-- The fields have names of their own, sizes, and no class names outside brackets. -/
inductive AllSeen : List (Name × Encoding) → List (Nat × Nat) → Prop
  | nil : AllSeen [] []
  | cons {name : Name} {type : Encoding} {rest : List (Name × Encoding)} {s : Nat × Nat}
      {ss : List (Nat × Nat)}
      (hname : FieldName name.text) (hnew : name.text ∉ rest.map fun f => f.1.text)
      (hquoted : type.Quoted = false) (hs : Seen type s) (hpos : 0 < s.1)
      (hrest : AllSeen rest ss) :
      AllSeen ((name, type) :: rest) (s :: ss)

end

/-- The encoding is read as a struct of so many bytes. -/
inductive Reading : Encoding → Nat → Prop
  /-- without names of fields, as a struct without fields -/
  | noNames {e : Encoding} (hquote : '"' ∉ e.text)
      (hknown : known (parseStructName e.text) = none) : Reading e 0
  /-- by value, with the fields that it or its definition has -/
  | struct {name : Name} {fields : List (Option Name × Encoding)} {s : Nat × Nat}
      (h : Seen P basic known (.struct name fields) s) : Reading (.struct name fields) s.1
  /-- behind carets and qualifiers, with its own fields -/
  | behind {e : Encoding} {name : Name} {fields : List (Name × Encoding)} {ss : List (Nat × Nat)}
      (hcore : core e = .struct name (named fields))
      (hknown : known (parseStructName e.text) = none)
      (h : AllSeen P basic known fields ss) : Reading e (structShape ss).1

/-- The texts that `getStruct` is called with for encodings of a set. -/
inductive Met (E : Set Encoding) : Text → Prop
  | given {e : Encoding} (h : e ∈ E) : Met E e.text
  | field {text name type : Text} (h : Met E text)
      (hfield : (name, some type) ∈ (parsed known text).2) (hstruct : isStruct type) : Met E type

/-- **No sharing.**  An encoding that is looked up under what another one was kept under has
the same fields. -/
structure Apart (E : Set Encoding) : Prop where
  shared : ∀ t t', Met known E t → Met known E t' →
    (parsed known t).1 = t' ∨ (parsed known t).1 = parseStructName t' →
      (parsed known t).2 = (parsed known t').2
  inherited : ∀ t, Met known E t → t ∉ objectPrototype ∧ parseStructName t ∉ objectPrototype

/-- The condition on an encoding that is read as so many bytes: for a struct by value they
are on the same side of 16 as those it has, and for any other type there are 16 at most. -/
def Harmless (e : Encoding) (n : Nat) : Prop :=
  (IsStruct e → (16 < n ↔ 16 < (cShape P basic e).1)) ∧ (¬ IsStruct e → n ≤ 16)

end MsgSend

/-! ## Texts -/

/-- An encoding is its qualifiers and what is behind them. -/
theorem text_eq : (e : Encoding) → e.text = front e ++ (core e).text
  | .pointer e => by rw [Encoding.text, front, core, text_eq e, List.cons_append]
  | .qualified c _ e => by rw [Encoding.text, front, core, text_eq e, List.cons_append]
  | .prim _ _ => rfl
  | .block => rfl
  | .object _ => rfl
  | .array _ _ => rfl
  | .incomplete _ => rfl
  | .struct _ _ => rfl

/-- The qualifiers of an encoding have no equals sign. -/
theorem front_equal : (e : Encoding) → '=' ∉ front e
  | .pointer e => by simp [front, front_equal e]
  | .qualified c qualifier e => by
      have hne : ∀ c ∈ methodEncodings.map Prod.fst, '=' ≠ c := by simp [methodEncodings]
      simp [front, front_equal e, hne c qualifier]
  | .prim _ _ => by simp [front]
  | .block => by simp [front]
  | .object _ => by simp [front]
  | .array _ _ => by simp [front]
  | .incomplete _ => by simp [front]
  | .struct _ _ => by simp [front]

theorem plain_terminator {t : Text} (h : ∀ c ∈ t, isPlain c) : ∀ c ∈ t, isTerminator c = false :=
  fun c hc => (isPlain_iff.mp (h c hc)).2.2.2.2

mutual

/-- No line terminator stands in an encoding. -/
theorem text_terminator : (e : Encoding) → ∀ c ∈ e.text, isTerminator c = false
  | .prim c plain, d, hd => by
      rw [Encoding.text, List.mem_singleton] at hd
      rw [hd]
      exact (isPlain_iff.mp plain).2.2.2.2
  | .block, d, hd => by
      rw [Encoding.text] at hd
      simp only [List.mem_cons, List.not_mem_nil, or_false] at hd
      rcases hd with rfl | rfl <;> rfl
  | .object none, d, hd => by
      rw [Encoding.text, List.mem_singleton] at hd
      rw [hd]
      rfl
  | .object (some className), d, hd => by
      rw [Encoding.text] at hd
      simp only [List.mem_cons, List.mem_append, List.not_mem_nil, or_false] at hd
      rcases hd with rfl | rfl | hd | rfl
      · rfl
      · rfl
      · exact plain_terminator className.plain d hd
      · rfl
  | .pointer e, d, hd => by
      rw [Encoding.text, List.mem_cons] at hd
      rcases hd with rfl | hd
      · rfl
      · exact text_terminator e d hd
  | .qualified c qualifier e, d, hd => by
      have hc : ∀ c ∈ methodEncodings.map Prod.fst, isTerminator c = false := by
        simp [methodEncodings, isTerminator]
      rw [Encoding.text, List.mem_cons] at hd
      rcases hd with rfl | hd
      · exact hc d qualifier
      · exact text_terminator e d hd
  | .array length e, d, hd => by
      rw [Encoding.text] at hd
      simp only [List.mem_cons, List.mem_append, List.not_mem_nil, or_false] at hd
      rcases hd with rfl | (hd | hd) | rfl
      · rfl
      · exact plain_terminator (StructParse.digits_plain length) d hd
      · exact text_terminator e d hd
      · rfl
  | .incomplete name, d, hd => by
      rw [Encoding.text] at hd
      simp only [List.mem_cons, List.mem_append, List.not_mem_nil, or_false] at hd
      rcases hd with rfl | hd | rfl
      · rfl
      · exact plain_terminator name.plain d hd
      · rfl
  | .struct name fields, d, hd => by
      rw [Encoding.text] at hd
      simp only [List.mem_cons, List.mem_append, List.not_mem_nil, or_false] at hd
      rcases hd with rfl | (hd | rfl | hd) | rfl
      · rfl
      · exact plain_terminator name.plain d hd
      · rfl
      · exact fieldsText_terminator fields d hd
      · rfl

/-- The fields of a struct have no terminator in them. -/
theorem fieldsText_terminator : (fields : List (Option Name × Encoding)) →
    ∀ c ∈ fieldsText fields, isTerminator c = false
  | [], d, hd => by
      rw [fieldsText] at hd
      cases hd
  | (some name, type) :: rest, d, hd => by
      rw [fieldsText] at hd
      simp only [List.mem_cons, List.mem_append] at hd
      rcases hd with rfl | hd | rfl | hd | hd
      · rfl
      · exact plain_terminator name.plain d hd
      · rfl
      · exact text_terminator type d hd
      · exact fieldsText_terminator rest d hd
  | (none, type) :: rest, d, hd => by
      rw [fieldsText, List.mem_append] at hd
      rcases hd with hd | hd
      · exact text_terminator type d hd
      · exact fieldsText_terminator rest d hd

end

/-- `isStruct` finds a struct. -/
theorem isStruct_text (name : Name) (fields : List (Option Name × Encoding)) :
    isStruct (Encoding.struct name fields).text = true := by
  have hterminator : (Encoding.struct name fields).text.any isTerminator = false := by
    rw [List.any_eq_false]
    intro c hc
    simp [text_terminator _ c hc]
  have hlength : 2 ≤ (Encoding.struct name fields).text.length := by
    rw [Encoding.text]
    simp only [List.length_cons, List.length_append, List.length_nil]
    omega
  rw [isStruct, hterminator, decide_eq_true hlength, Encoding.text]
  simp [List.getLast?_cons]

/-- A struct behind carets and qualifiers is parsed as the struct, under another name. -/
theorem parse_text {e : Encoding} {name : Name} {fields : List (Option Name × Encoding)}
    (hcore : core e = .struct name fields) :
    ∃ key, parseStructName e.text = key ∧
      parseStruct e.text = (key, properties (fieldsText fields)) := by
  have htext := text_eq e
  rw [hcore] at htext
  cases hfront : front e with
  | nil =>
      rw [hfront, List.nil_append] at htext
      have hparse := parseStruct_equal (StructParse.inner_text name fields)
        (equal_notMem name.plain)
      rw [htext]
      exact ⟨name.text, hparse⟩
  | cons c rest =>
      have hfree := front_equal e
      rw [hfront, List.mem_cons, not_or] at hfree
      have hkey : '=' ∉ rest ++ '{' :: name.text := by
        simp [hfree.2, equal_notMem name.plain]
      have hinner : StructCache.inner e.text =
          (rest ++ '{' :: name.text) ++ '=' :: fieldsText fields := by
        have hlength :
            (c :: (rest ++ '{' ::
              (name.text ++ '=' :: fieldsText fields ++ ['}']))).length ≠ 1 := by
          simp
        have hlast : rest ++ '{' :: (name.text ++ '=' :: fieldsText fields ++ ['}']) =
            (rest ++ '{' :: name.text ++ '=' :: fieldsText fields) ++ ['}'] := by simp
        rw [htext, hfront, Encoding.text, List.cons_append, StructCache.inner, if_neg hlength,
          List.drop_one, List.tail_cons, hlast, List.dropLast_concat]
      exact ⟨_, parseStruct_equal hinner hkey⟩

/-! ## Reading what is seen -/

section Seen

variable {P : Shape} {basic : String → Shape} {known : Text → Option Text}

/-- The text of a bare type that is seen, and what `map` makes of it. -/
theorem Seen.bare {e : Encoding} {s : Nat × Nat} (h : Seen P basic known e s) (hbare : Bare e) :
    (∃ c t, e.text = c :: t ∧ c ∉ methodEncodings.map Prod.fst ∧ c ≠ '{') ∧
      ∃ name, EncodingMap.convert e.text = .ok (.prim name) ∧
        (MType.prim name).shape P basic = some s := by
  have hpointer : (MType.prim "pointer").shape P basic = some (P.size, P.alignment) := by
    simp [MType.shape]
  cases h with
  | @prim c plain name s hcode hs =>
      have hmem : c ∈ TypeEncoding.DELIMS := by
        obtain ⟨p, hp, hc⟩ : ∃ p ∈ typeEncodings, p.1 = c := by
          by_contra hnone
          rw [List.lookup_eq_none_iff.mpr fun p hp => by
            simpa using fun heq => hnone ⟨p, hp, heq.symm⟩] at hcode
          cases hcode
        exact hc ▸ List.mem_map_of_mem hp
      obtain ⟨hqualifier, -, hbrace⟩ := EncodingMap.code_first c hmem
      exact ⟨⟨c, [], rfl, hqualifier, hbrace⟩, name, EncodingMap.convert_code hmem hcode, hs⟩
  | block =>
      exact ⟨⟨'@', ['?'], rfl, by simp [methodEncodings], by decide⟩, "pointer", rfl, hpointer⟩
  | object =>
      exact ⟨⟨'@', [], rfl, by simp [methodEncodings], by decide⟩, "pointer", rfl, hpointer⟩
  | @pointer e =>
      exact ⟨⟨'^', e.text, rfl, by simp [methodEncodings], by decide⟩, "pointer", rfl, hpointer⟩
  | @array length e =>
      refine ⟨⟨'[', _, rfl, by simp [methodEncodings], by decide⟩, "pointer", ?_, hpointer⟩
      have hne : Nat.toDigits 10 length ++ e.text ++ [']'] ≠ [] := by simp
      have hlast :
          EncodingMap.lastName ('[' :: (Nat.toDigits 10 length ++ e.text ++ [']'])) = none :=
        EncodingMap.lastName_group .array ('[' :: (Nat.toDigits 10 length ++ e.text))
      rw [Encoding.text, EncodingMap.convert_long (by decide) (by decide) hne, hlast]
      rfl
  | qualified hbare' h => exact hbare.elim
  | struct hknown h => exact hbare.elim

/-- A type that is no struct is read as it is mapped. -/
theorem readField_code {read : Text → Option MType} {c : Char} {t : Text} {type : MType}
    (hbrace : c ≠ '{') (h : mapCode (c :: t) = .ok type) : readField read (c :: t) = some type := by
  have hstruct : ¬ isStruct (c :: t) = true := by
    simp [isStruct, hbrace]
  rw [readField, if_neg (List.cons_ne_nil c t), if_neg hstruct, h]
  rfl

/-- Fields that are seen have different names. -/
theorem AllSeen.names {fields : List (Name × Encoding)} {ss : List (Nat × Nat)}
    (h : AllSeen P basic known fields ss) :
    (∀ f ∈ fields, FieldName f.1.text ∧ f.2.Quoted = false) ∧
      (fields.map fun f => f.1.text).Nodup := by
  induction fields generalizing ss with
  | nil => exact ⟨fun f hf => (by cases hf), List.nodup_nil⟩
  | cons f rest ih =>
      cases h with
      | cons hname hnew hquoted hs hpos hrest =>
          obtain ⟨hall, hnodup⟩ := ih hrest
          refine ⟨fun g hg => ?_, List.nodup_cons.mpr ⟨hnew, hnodup⟩⟩
          rcases List.mem_cons.mp hg with rfl | hg
          · exact ⟨hname, hquoted⟩
          · exact hall g hg

/-- The types of fields that were read, with the fields' names and shapes. -/
structure Typed (P : Shape) (basic : String → Shape) (fields : List (Name × Encoding))
    (ss : List (Nat × Nat)) (props : List (Text × MType)) : Prop where
  names : props.map Prod.fst = fields.map fun f => f.1.text
  shapes : props.map (fun p => p.2.shape P basic) = ss.map some
  positive : ∀ s ∈ ss, 0 < s.1 ∧ 0 < s.2

/-- A text whose properties are fields that were read is read as a struct of them. -/
theorem read_struct {text : Text} {fields : List (Name × Encoding)} {ss : List (Nat × Nat)}
    (h : AllSeen P basic known fields ss)
    (hparsed : (parsed known text).2 = properties (fieldsText (named fields)))
    {depth : Nat} {props : List (Text × MType)} (htyped : Typed P basic fields ss props)
    (hprops : readProps (readField (read P basic known depth))
      (fields.map fun f => (f.1.text, some f.2.text)) = some props) :
    ∃ layout, read P basic known (depth + 1) text = some (.struct props layout) ∧
      (layout.size, layout.alignment) = structShape ss := by
  obtain ⟨hnames, hnodup⟩ := h.names
  have hfields : ∀ p ∈ props, FieldName p.1 := by
    intro p hp
    have hmem : p.1 ∈ props.map Prod.fst := List.mem_map_of_mem hp
    rw [htyped.names] at hmem
    obtain ⟨f, hf, heq⟩ := List.mem_map.mp hmem
    exact heq ▸ (hnames f hf).1
  have hshapes : ∀ p ∈ props, ∃ s, p.2.shape P basic = some s ∧ 0 < s.1 ∧ 0 < s.2 := by
    intro p hp
    have hmem : p.2.shape P basic ∈ props.map fun p => p.2.shape P basic := List.mem_map_of_mem hp
    rw [htyped.shapes] at hmem
    obtain ⟨s, hs, heq⟩ := List.mem_map.mp hmem
    exact ⟨s, heq.symm, htyped.positive s hs⟩
  obtain ⟨layout, hstruct, hlayout⟩ :=
    Struct_shape hfields (by rw [htyped.names]; exact hnodup) hshapes
  refine ⟨layout, ?_, ?_⟩
  · rw [StructCache.read, hparsed, StructParse.properties_named fun f hf => (hnames f hf).2, hprops,
      Option.bind_some, hstruct]
    rfl
  · have hget : props.map (fun p => (p.2.shape P basic).getD (0, 0)) = ss := by
      have hmap := congrArg (List.map fun s => s.getD (0, 0)) htyped.shapes
      simpa [List.map_map, Function.comp_def] using hmap
    rw [hlayout, hget]

variable (P basic known) in
/-- The field is read as a type of this size and alignment. -/
def ReadAs (text : Text) (s : Nat × Nat) : Prop :=
  (∃ depth t, readField (StructCache.read P basic known depth) text = some t ∧
    t.shape P basic = some s) ∧
    (0 < s.1 → 0 < s.2)

/-- An encoding without qualifiers is read as what it is. -/
theorem Seen.readAs_bare {e : Encoding} {s : Nat × Nat} (h : Seen P basic known e s)
    (hbare : Bare e) :
    ReadAs P basic known e.text s := by
  obtain ⟨⟨c, t, htext, hqualifier, hbrace⟩, name, hconvert, hshape⟩ := h.bare hbare
  refine ⟨⟨0, .prim name, ?_, hshape⟩, fun _ => (prim_shape_pos hshape).2⟩
  rw [htext] at hconvert ⊢
  exact readField_code hbrace ((EncodingMap.mapCode_plain hqualifier t).trans hconvert)

/-- So is one with a qualifier. -/
theorem Seen.readAs_qualified {c : Char} (qualifier : c ∈ methodEncodings.map Prod.fst)
    {e : Encoding} {s : Nat × Nat} (h : Seen P basic known e s) (hbare : Bare e) :
    ReadAs P basic known (Encoding.qualified c qualifier e).text s := by
  obtain ⟨-, name, hconvert, hshape⟩ := h.bare hbare
  refine ⟨⟨0, .prim name, ?_, hshape⟩, fun _ => (prim_shape_pos hshape).2⟩
  have hbrace := (EncodingMap.qualifier_first c qualifier).2.1
  rw [Encoding.text]
  exact readField_code hbrace ((EncodingMap.mapCode_qualifier qualifier e.text).trans hconvert)

/-- What is parsed for a struct with a definition. -/
theorem parsed_struct {name name' : Name} {fields : List (Option Name × Encoding)}
    {fields' : List (Name × Encoding)}
    (hknown : (known name.text).getD (Encoding.struct name fields).text =
      (Encoding.struct name' (named fields')).text) :
    (parsed known (Encoding.struct name fields).text).2 =
      properties (fieldsText (named fields')) := by
  have hname := (parseStruct_equal (StructParse.inner_text name fields) (equal_notMem name.plain)).1
  have hparse :=
    (parseStruct_equal (StructParse.inner_text name' (named fields')) (equal_notMem name'.plain)).2
  rw [parsed, hname, hknown, hparse]

/-- A struct whose fields were read is read as a struct of them. -/
theorem readAs_struct {name name' : Name} {fields : List (Option Name × Encoding)}
    {fields' : List (Name × Encoding)}
    {ss : List (Nat × Nat)} (h : AllSeen P basic known fields' ss)
    (hknown : (known name.text).getD (Encoding.struct name fields).text =
      (Encoding.struct name' (named fields')).text)
    {depth : Nat} {props : List (Text × MType)} (htyped : Typed P basic fields' ss props)
    (hprops : readProps (readField (StructCache.read P basic known depth))
      (fields'.map fun f => (f.1.text, some f.2.text)) = some props) :
    ReadAs P basic known (Encoding.struct name fields).text (structShape ss) := by
  obtain ⟨layout, hread, hlayout⟩ := read_struct h (parsed_struct hknown) htyped hprops
  refine ⟨⟨depth + 1, .struct props layout, ?_, congrArg some hlayout⟩,
    structShape_pos fun s hs => (htyped.positive s hs).2⟩
  have hne : (Encoding.struct name fields).text ≠ [] := by
    rw [Encoding.text]
    exact List.cons_ne_nil _ _
  rw [readField, if_neg hne, if_pos (isStruct_text name fields)]
  exact hread

mutual

/-- **A type is read as it is seen.** -/
theorem Seen.readAs : {e : Encoding} → {s : Nat × Nat} → Seen P basic known e s →
    ReadAs P basic known e.text s
  | _, _, .prim hcode hs => Seen.readAs_bare (.prim hcode hs) trivial
  | _, _, .block => Seen.readAs_bare .block trivial
  | _, _, .object => Seen.readAs_bare .object trivial
  | _, _, .pointer => Seen.readAs_bare .pointer trivial
  | _, _, .array => Seen.readAs_bare .array trivial
  | _, _, .qualified hbare h => Seen.readAs_qualified _ h hbare
  | _, _, .struct hknown h => by
      obtain ⟨depth, props, hprops, htyped⟩ := AllSeen.reads h
      exact readAs_struct h hknown htyped hprops

/-- Fields that are seen are read, with their shapes. -/
theorem AllSeen.reads : {fields : List (Name × Encoding)} → {ss : List (Nat × Nat)} →
    AllSeen P basic known fields ss → ∃ depth props,
      readProps (readField (StructCache.read P basic known depth))
        (fields.map fun f => (f.1.text, some f.2.text)) = some props ∧ Typed P basic fields ss props
  | _, _, .nil => ⟨0, [], rfl, rfl, rfl, fun s hs => (by cases hs)⟩
  | _, _, @AllSeen.cons _ _ _ name type rest s ss hname hnew hquoted hs hpos hrest => by
      obtain ⟨⟨d, t, ht, hshape⟩, halign⟩ := Seen.readAs hs
      obtain ⟨d', props, hprops, htyped⟩ := AllSeen.reads hrest
      have ht' := readField_mono (fun _ => read_mono (Nat.le_max_left d d')) ht
      refine ⟨max d d', (name.text, t) :: props, ?_, ?_, ?_, ?_⟩
      · rw [List.map_cons, readProps, ht', readProps_depth (Nat.le_max_right d d') hprops]
      · rw [List.map_cons, List.map_cons, htyped.names]
      · rw [List.map_cons, List.map_cons, htyped.shapes, hshape]
      · intro s' hs'
        rcases List.mem_cons.mp hs' with rfl | hs'
        · exact ⟨hpos, halign hpos⟩
        · exact htyped.positive s' hs'

end

/-- Without a quote there is no entry. -/
theorem scan_noQuote {t : Text} (h : '"' ∉ t) (s : Scan) :
    (t.foldl Scan.char s).entries = s.entries := by
  induction t generalizing s with
  | nil => rfl
  | cons c t ih =>
      rw [List.mem_cons, not_or] at h
      have hc : (s.char c).entries = s.entries := by
        rw [Scan.char, if_neg fun heq => h.1 heq.symm]
        split_ifs <;> rfl
      rw [List.foldl_cons, ih h.2, hc]

theorem mem_inner {c : Char} {t : Text} (h : c ∈ StructCache.inner t) : c ∈ t := by
  unfold StructCache.inner at h
  split at h
  · exact h
  · exact List.mem_of_mem_drop (List.dropLast_subset _ h)

/-- Without quotes no property is found. -/
theorem parseStruct_noQuote {t : Text} (h : '"' ∉ t) : (parseStruct t).2 = [] := by
  have hproperties : ∀ rest : Text, '"' ∉ rest → properties rest = [] := by
    intro rest hrest
    rw [properties, Scan.finish, scan_noQuote hrest]
    rfl
  by_cases hequal : '=' ∈ StructCache.inner t
  · obtain ⟨name, rest, hinner, hname⟩ := List.eq_append_cons_of_mem hequal
    rw [(parseStruct_equal hinner hname).2]
    exact hproperties rest fun hmem => h (mem_inner (by simp [hinner, hmem]))
  · rw [(parseStruct_noEqual hequal).2]
    exact hproperties _ fun hmem => h (mem_inner hmem)

/-- **An encoding is read as a struct.** -/
theorem Reading.reads {e : Encoding} {n : Nat} (h : Reading P basic known e n) :
    ∃ t layout, Reads P basic known e.text (.struct t layout) ∧ layout.size = n := by
  cases h with
  | noNames hquote hknown =>
      obtain ⟨layout, hstruct, hlayout⟩ :=
        @Struct_shape P basic [] (fun p hp => by cases hp) List.nodup_nil
        (fun p hp => by cases hp)
      refine ⟨[], layout, ⟨1, ?_⟩, congrArg Prod.fst hlayout⟩
      rw [StructCache.read, parsed, hknown, Option.getD_none, parseStruct_noQuote hquote, readProps,
        Option.bind_some, hstruct]
      rfl
  | struct h =>
      cases h with
      | struct hknown h =>
          obtain ⟨depth, props, hprops, htyped⟩ := h.reads
          obtain ⟨layout, hread, hlayout⟩ := read_struct h (parsed_struct hknown) htyped hprops
          exact ⟨props, layout, ⟨depth + 1, hread⟩, congrArg Prod.fst hlayout⟩
  | @behind _ name fields ss hcore hknown h =>
      obtain ⟨depth, props, hprops, htyped⟩ := h.reads
      obtain ⟨key, hname, hparse⟩ := parse_text hcore
      have hparsed : (parsed known e.text).2 = properties (fieldsText (named fields)) := by
        rw [parsed, hknown, Option.getD_none, hparse]
      obtain ⟨layout, hread, hlayout⟩ := read_struct h hparsed htyped hprops
      exact ⟨props, layout, ⟨depth + 1, hread⟩, congrArg Prod.fst hlayout⟩

/-! ## Runs -/

variable {E : Set Encoding}

theorem Apart.consistent (h : Apart known E) : Consistent known { t | Met known E t } :=
  ⟨fun _ ht _ _ hfield hstruct => .field ht hfield hstruct, fun t ht t' ht' => h.shared t t' ht ht',
    h.inherited⟩

/-- A message leaves the cache as `getStruct` does. -/
theorem msgSend_cache (stack : Nat) (supre : Bool) (cache : Cache) (text : Text) :
    (msgSend P basic known stack supre cache text).2 =
      (getStruct P basic known stack cache text).2 := by
  rw [msgSend]
  generalize getStruct P basic known stack cache text = r
  obtain ⟨error | type, cache'⟩ := r
  · rfl
  · simp only
    split
    · rfl
    · rfl

/-- What is kept by one call. -/
theorem sound_step (h : Apart known E) {cache cache' : Cache} {c : Call}
    (hcache : Sound P basic known { t | Met known E t } cache) (hc : c.encoding ∈ E)
    (hstep : step P basic known cache c = some cache') :
    Sound P basic known { t | Met known E t } cache' := by
  have hmet : Met known E c.encoding.text := .given hc
  cases c with
  | msgSend e supre stack =>
      obtain rfl := Option.some.inj hstep
      rw [msgSend_cache]
      exact (getStruct_right h.consistent stack hcache hmet).sound
  | map e stack =>
      obtain rfl := Option.some.inj hstep
      rw [StructCache.map]
      split
      · exact hcache
      · split
        · exact (getStruct_right h.consistent stack hcache hmet).sound
        · exact hcache

/-- The cache stays sound over any calls. -/
theorem sound_of_reaches (h : Apart known E) {cache : Cache}
    (hreach : Reaches (step P basic known) (fun _ c => c.encoding ∈ E) (fun _ => none) cache) :
    Sound P basic known { t | Met known E t } cache := by
  refine hreach.invariant (Sound P basic known { t | Met known E t }) ?_ ?_
  · intro t _ key z _ hvalue
    cases hvalue
  · intro cache c cache' hcache hc hstep
    exact sound_step h hcache hc hstep

/-- **What is picked** for an encoding that is read as so many bytes. -/
theorem isStret_iff (h : Apart known E) {cache : Cache}
    (hreach : Reaches (step P basic known) (fun _ c => c.encoding ∈ E) (fun _ => none) cache)
    {e : Encoding} (he : e ∈ E) {n : Nat} (hread : Reading P basic known e n) :
    ∃ m, ∀ stack, m ≤ stack → ∀ supre,
      (∃ f, (msgSend P basic known stack supre cache e.text).1 = .ok f ∧ f.isStret = true) ↔
        16 < n := by
  obtain ⟨fields, layout, ⟨depth, hdepth⟩, hsize⟩ := hread.reads
  refine ⟨depth, fun stack hle supre => ?_⟩
  have hright := getStruct_right h.consistent stack (sound_of_reaches h hreach) (Met.given he)
  have hstruct := hright.total _ depth hdepth hle
  have hlarge : isLarge (.struct fields layout) = true ↔ 16 < n := by
    rw [isLarge, hsize, decide_eq_true_eq]
  rw [msgSend]
  generalize getStruct P basic known stack cache e.text = r at hstruct
  obtain ⟨result, cache'⟩ := r
  obtain rfl : result = .ok (.struct fields layout) := hstruct
  by_cases hn : 16 < n
  · simp only [hlarge.mpr hn, if_true]
    cases supre <;> simp [FuncPtr.isStret, hn]
  · have hsmall : isLarge (.struct fields layout) = false := by simpa [hn] using hlarge
    simp only [hsmall, Bool.false_eq_true, if_false]
    cases supre <;> simp [FuncPtr.isStret, hn]

variable (P basic known) in
/-- **The right function.**  In a run in which the encodings are kept apart, an encoding
that is read as so many bytes gets the right function, on a stack with room enough, if and
only if these are harmless: they are on the same side of 16 as the size of a struct by
value, and 16 at most for any other type. -/
theorem selects_iff (h : Apart known E) {cache : Cache}
    (hreach : Reaches (step P basic known) (fun _ c => c.encoding ∈ E) (fun _ => none) cache)
    {e : Encoding} (he : e ∈ E) {n : Nat} (hread : Reading P basic known e n) :
    (∃ m, ∀ stack, m ≤ stack → Selects P basic known stack cache e) ↔ Harmless P basic e n := by
  obtain ⟨depth, hpicked⟩ := isStret_iff h hreach he hread
  have hselects : ∀ stack, depth ≤ stack →
      (Selects P basic known stack cache e ↔ Harmless P basic e n) := by
    intro stack hle
    have hsame : Selects P basic known stack cache e ↔
        (16 < n ↔ IsStruct e ∧ 16 < (cShape P basic e).1) := by
      constructor
      · intro hall
        exact (hpicked stack hle true).symm.trans (hall true)
      · intro hiff supre
        exact (hpicked stack hle supre).trans hiff
    rw [hsame, Harmless]
    by_cases hstruct : IsStruct e
    · simp [hstruct]
    · simp [hstruct]
  constructor
  · intro hall
    obtain ⟨m, hm⟩ := hall
    exact (hselects (max m depth) (le_max_right _ _)).mp (hm _ (le_max_left _ _))
  · intro hharmless
    exact ⟨depth, fun stack hle => (hselects stack hle).mpr hharmless⟩

end Seen

/-- No texts are known. -/
def noneKnown : Text → Option Text := fun _ => none

/-- A struct of codes, behind carets and qualifiers or not, shares no name with itself. -/
theorem apart_single {e : Encoding} {name : Name} {fields : List (Name × Encoding)}
    (hcore : core e = .struct name (named fields))
    (hfields : ∀ f ∈ fields, f.2.Quoted = false ∧ isStruct f.2.text = false)
    (hinherited : e.text ∉ objectPrototype ∧ parseStructName e.text ∉ objectPrototype) :
    Apart noneKnown {e} := by
  obtain ⟨key, -, hparse⟩ := parse_text hcore
  have hparsed : (parsed noneKnown e.text).2 = fields.map fun f => (f.1.text, some f.2.text) := by
    have hown : parsed noneKnown e.text = parseStruct e.text := rfl
    rw [hown, hparse, StructParse.properties_named fun f hf => (hfields f hf).1]
  have honly : ∀ t, Met noneKnown {e} t → t = e.text := by
    intro t ht
    induction ht with
    | given h => rw [Set.mem_singleton_iff.mp h]
    | field h hfield hstruct ih =>
        rw [ih, hparsed] at hfield
        obtain ⟨f, hf, heq⟩ := List.mem_map.mp hfield
        obtain ⟨-, htype⟩ := Prod.mk.inj heq
        rw [← Option.some.inj htype, (hfields f hf).2] at hstruct
        cases hstruct
  constructor
  · intro t t' ht ht' _
    rw [honly t ht, honly t' ht']
  · intro t ht
    rw [honly t ht]
    exact hinherited

/-- The names that the examples use. -/
def letter (c : Char) (plain : isPlain c) : Name := ⟨[c], by simpa using plain⟩

/-- `"x"d"y"d"z"d` -/
def doubles : List (Name × Encoding) :=
  [(letter 'x' rfl, .prim 'd' rfl), (letter 'y' rfl, .prim 'd' rfl),
    (letter 'z' rfl, .prim 'd' rfl)]

/-- `{V="x"d"y"d"z"d}` -/
def vector : Encoding := .struct (letter 'V' rfl) (named doubles)

theorem doubles_codes : ∀ f ∈ doubles, f.2.Quoted = false ∧ isStruct f.2.text = false := by
  intro f hf
  simp only [doubles, List.mem_cons, List.not_mem_nil, or_false] at hf
  rcases hf with rfl | rfl | rfl <;> exact ⟨rfl, rfl⟩

/-- The fields of the vector are seen, eight bytes each. -/
theorem doubles_seen :
    AllSeen StructTypes.word (fun _ => StructTypes.word) noneKnown doubles
      [(8, 8), (8, 8), (8, 8)] := by
  have hcode : ∀ plain,
      Seen StructTypes.word (fun _ => StructTypes.word) noneKnown (.prim 'd' plain) (8, 8) :=
    fun plain => .prim rfl rfl
  have hname : ∀ c ∈ ['x', 'y', 'z'], FieldName [c] := by
    intro c hc
    simp only [List.mem_cons, List.not_mem_nil, or_false] at hc
    rcases hc with rfl | rfl | rfl <;> exact ⟨by decide, rfl⟩
  refine .cons (hname 'x' (by simp)) (by simp [letter]) rfl (hcode _) (by decide) ?_
  refine .cons (hname 'y' (by simp)) (by simp [letter]) rfl (hcode _) (by decide) ?_
  exact .cons (hname 'z' (by simp)) (by simp) rfl (hcode _) (by decide) .nil

/-- `selects_iff` for a method that returns a vector. -/
theorem selects_iff_vector :
    ∃ m, ∀ stack, m ≤ stack →
      Selects StructTypes.word (fun _ => StructTypes.word) noneKnown stack (fun _ => none)
        vector := by
  have hinherited :
      vector.text ∉ objectPrototype ∧ parseStructName vector.text ∉ objectPrototype := by
    constructor
    · simp [vector, Encoding.text, objectPrototype]
    · have hname : parseStructName vector.text = ['V'] := rfl
      simp [hname, objectPrototype]
  refine (selects_iff StructTypes.word (fun _ => StructTypes.word) noneKnown
    (apart_single rfl doubles_codes hinherited) .start rfl
      (.struct (.struct rfl doubles_seen))).mpr ?_
  exact ⟨fun _ => Iff.rfl, fun hnot => absurd trivial hnot⟩

/-- **A pointer is taken for what it points to.**  A method that returns a pointer to a
vector is sent its message through the function for large structs. -/
theorem pointer_selected :
    ¬ ∀ (P : Shape) (basic : String → Shape) (known : Text → Option Text) (E : Set Encoding)
      (cache : Cache),
      Reaches (step P basic known) (fun _ c => c.encoding ∈ E) (fun _ => none) cache →
        ∀ e ∈ E, ∃ m, ∀ stack, m ≤ stack → Selects P basic known stack cache e := by
  intro hall
  have hinherited : (Encoding.pointer vector).text ∉ objectPrototype ∧
      parseStructName (Encoding.pointer vector).text ∉ objectPrototype := by
    constructor
    · simp [Encoding.text, objectPrototype]
    · have hname : parseStructName (Encoding.pointer vector).text = ['{', 'V'] := rfl
      simp [hname, objectPrototype]
  have hapart := apart_single rfl doubles_codes hinherited
  obtain ⟨m, hm⟩ := hall StructTypes.word (fun _ => StructTypes.word) noneKnown
    {Encoding.pointer vector} _ .start _ rfl
  obtain ⟨m', hm'⟩ := @isStret_iff StructTypes.word (fun _ => StructTypes.word) noneKnown
    {Encoding.pointer vector} hapart _ .start _ rfl _
    (.behind rfl rfl doubles_seen)
  have hlarge : 16 < (structShape [(8, 8), (8, 8), (8, 8)]).1 := by decide
  have hstret := (hm' (max m m') (le_max_right _ _) false).mpr hlarge
  exact ((hm (max m m') (le_max_left _ _) false).mp hstret).1

end MessageSend

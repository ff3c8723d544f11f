import Tint.StructLayout
import Tint.Transition
import Mathlib.Data.List.Sort
import Mathlib.Logic.Relation

/-!
# Struct types that gain fields

A struct type keeps its size, its alignment and the offsets of its fields as
`recalc` has left them, until it gains a field itself; it also keeps the `ffi_type`
that was made for it first.  A type that is embedded in it by value may gain a field
in between, and nothing is laid out again then.

* `sound_of_laid_out` -- the fields of each instance are disjoint and lie inside its
  buffer and a cached `ffi_type` describes them, in every run in which instances and
  `ffi_type`s are only made of types whose layout is up to date, and no type gains a
  field while a type with an instance embeds it or after its `ffi_type` was made;
* `embedded_type_grows` -- a type that gains a field after it was embedded.

An array type comes from `ref-array`, which is not part of the repository; its type
object carries the size and the alignment it was given.
-/

namespace StructTypes

open Alignment Transition
open StructLayout (Shape arrayIndex reserved)

/-- A type object of `ref`; struct types are named by where they are kept. -/
inductive FieldType
  | scalar (shape : Shape)
  | struct (id : Nat)
  /-- `ArrayType(element, fixedLength)` -/
  | array (element : FieldType) (fixedLength size alignment : Nat) (length_pos : 0 < fixedLength)
  /-- `refType(void)` -/
  | voidPointer
  /-- `refType(target)` -/
  | pointer (target : FieldType)

/-- The sizes and alignments of the struct types. -/
abbrev Shapes := Nat → Nat × Nat

namespace FieldType

/-- `type.indirection` -/
def indirection : FieldType → Nat
  | scalar _ => 1
  | struct _ => 1
  | array _ _ _ _ _ => 1
  | voidPointer => 2
  | pointer target => target.indirection + 1

/-- `type.size`, inherited by pointers. -/
def size (shapes : Shapes) : FieldType → Nat
  | scalar shape => shape.size
  | struct id => (shapes id).1
  | array _ _ size _ _ => size
  | voidPointer => 0
  | pointer target => target.size shapes

/-- `type.alignment`, inherited by pointers; 0 stands for undefined. -/
def alignment (shapes : Shapes) : FieldType → Nat
  | scalar shape => shape.alignment
  | struct id => (shapes id).2
  | array _ _ _ alignment _ => alignment
  | voidPointer => 0
  | pointer target => target.alignment shapes

/-- `type.type` and `type.fixedLength`, inherited by pointers. -/
def elements : FieldType → Option (FieldType × Nat)
  | scalar _ => none
  | struct _ => none
  | array element fixedLength _ _ _ => some (element, fixedLength)
  | voidPointer => none
  | pointer target => target.elements

/-- What a field is laid out as: so many of such a part. -/
def part (type : FieldType) : FieldType :=
  match type.elements with
  | some (element, _) => element
  | none => type

/-- How many parts a field is laid out as. -/
def count (type : FieldType) : Nat :=
  match type.elements with
  | some (_, fixedLength) => fixedLength
  | none => 1

end FieldType

/-- An `ffi_type`. -/
inductive FfiType
  | basic (shape : Shape)
  | pointer
  | struct (elements : List FfiType)

/-- What `recalc` sets. -/
structure Layout where
  offset : String → Nat
  size : Nat
  alignment : Nat

/-- A struct type.  `properties` are the names that its prototype has got. -/
structure StructType where
  fields : List (String × FieldType)
  properties : List String
  layout : Layout
  instanceCreated : Bool
  ffi_type : Option FfiType

/-- `Struct()` -/
def StructType.empty : StructType := ⟨[], [], ⟨fun _ => 0, 0, 0⟩, false, none⟩

/-- The struct types by where they are kept. -/
abbrev Types := Nat → StructType

/-- The sizes and alignments as they are cached. -/
def shapes (types : Types) : Shapes :=
  fun id => ((types id).layout.size, (types id).layout.alignment)

/-- An instance: its type and the length of its buffer. -/
structure Instance where
  type : Nat
  length : Nat

/-- The struct types, and their instances. -/
structure State where
  types : Types
  instances : List Instance

/-- Struct types without fields or instances. -/
def start : State := ⟨fun _ => .empty, []⟩

/-- The field's name is an array index. -/
def isIndexed (field : String × FieldType) : Bool := (arrayIndex field.1).isSome

/-- The fields in the order of `Object.keys`: array indices first, ascending, then the
other names as they were defined. -/
def keys (fields : List (String × FieldType)) : List (String × FieldType) :=
  (fields.filter isIndexed).insertionSort
      (fun a b => (arrayIndex a.1).getD 0 ≤ (arrayIndex b.1).getD 0) ++
    fields.filter fun f => !isIndexed f

/-- `this.fields[name] = field` -/
def setField (fields : List (String × FieldType)) (name : String) (type : FieldType) :
    List (String × FieldType) :=
  if name ∈ fields.map Prod.fst then fields.map fun f => if f.1 = name then (name, type) else f
  else fields ++ [(name, type)]

section Recalc

-- `ref.sizeof.pointer` and `ref.alignof.pointer`
variable (P : Shape)

/-- The size that `addType` uses. -/
def usedSize (shapes : Shapes) (type : FieldType) : Nat :=
  if type.indirection = 1 then type.size shapes else P.size

/-- The alignment that `addType` uses. -/
def usedAlignment (shapes : Shapes) (type : FieldType) : Nat :=
  if type.indirection = 1 then type.alignment shapes else P.alignment

/-- The first loop of `recalc`: a field's part in the alignment of the struct. -/
def fieldAlignment (shapes : Shapes) (type : FieldType) : Nat :=
  if type.indirection > 1 then P.alignment
  else if type.alignment shapes = 0 then P.alignment else type.alignment shapes

/-- `addType`: the offset and the size of the struct after it; none if the assertion
fails, as it does where an alignment is undefined. -/
def addType (shapes : Shapes) (size : Nat) (type : FieldType) : Option (Nat × Nat) :=
  if usedAlignment P shapes type = 0 then none
  else
    let offset := size + (usedAlignment P shapes type - size % usedAlignment P shapes type) %
      usedAlignment P shapes type
    some (offset, offset + usedSize P shapes type)

section Loops

-- the cached shapes, the struct type that is laid out and its new alignment
variable (shapes : Shapes) (self alignment : Nat)

/-- The shapes while `self` is laid out: it may embed itself. -/
def during (size : Nat) : Shapes := Function.update shapes self (size, alignment)

/-- `addType` for the remaining elements of an array. -/
def addElements (element : FieldType) : Nat → Nat → Option Nat
  | 0, size => some size
  | n + 1, size =>
      match addType P (during shapes self alignment size) size element with
      | none => none
      | some (_, size) => addElements element n size

/-- One turn of the second loop of `recalc`. -/
def addField (size : Nat) (type : FieldType) : Option (Nat × Nat) :=
  match addType P (during shapes self alignment size) size type.part with
  | none => none
  | some (offset, size) =>
      match addElements P shapes self alignment type.part (type.count - 1) size with
      | none => none
      | some size => some (offset, size)

/-- The second loop of `recalc`, and whether an assertion ended it. -/
def place : List (String × FieldType) → (String → Nat) → Nat → (String → Nat) × Nat × Bool
  | [], offset, size => (offset, size, false)
  | (name, type) :: rest, offset, size =>
      match addField P shapes self alignment size type with
      | none => (offset, size, true)
      | some (o, size) => place rest (Function.update offset name o) size

end Loops

/-- The first loop of `recalc`. -/
def structAlignment (shapes : Shapes) (self : Nat) (fields : List (String × FieldType)) : Nat :=
  fields.foldl
    (fun alignment f => max alignment (fieldAlignment P (during shapes self alignment 0) f.2)) 0

/-- `recalc`, from the offsets there were, and whether an assertion ended it. -/
def recalc (shapes : Shapes) (self : Nat) (fields : List (String × FieldType))
    (offset : String → Nat) : Layout × Bool :=
  let alignment := structAlignment P shapes self (keys fields)
  match place P shapes self alignment (keys fields) offset 0 with
  | (offset, size, true) => (⟨offset, size, alignment⟩, true)
  | (offset, size, false) =>
      let left := size % alignment
      (⟨offset, if left > 0 then size + (alignment - left) else size, alignment⟩, false)

/-- What `defineProperty` asserts. -/
def refusal (types : Types) (id : Nat) (name : String) (type : FieldType) : Option String :=
  if (types id).instanceCreated then
    some ("an instance of this Struct type has already been created, cannot add new " ++
      "\"fields\" anymore")
  else if ¬ (type.indirection > 1 ∨ type.size (shapes types) > 0) then
    some "\"type\" object must have a size greater than 0"
  else if name ∈ reserved ∨ name ∈ (types id).properties then
    some ("the field \"" ++ name ++ "\" already exists in this Struct type")
  else none

/-- `defineProperty` -/
def defineProperty (types : Types) (id : Nat) (name : String) (type : FieldType) : Types :=
  match refusal types id name type with
  | some _ => types
  | none =>
      let fields := setField (types id).fields name type
      let (layout, threw) := recalc P (shapes types) id fields (types id).layout.offset
      Function.update types id
        { types id with
          fields
          layout
          properties := if threw then (types id).properties else (types id).properties ++ [name] }

/-- The elements of the `ffi_type` of a struct with these fields, where `aType` gives
the one of a type; none if the stack overflows. -/
def aElements (aType : Types → FieldType → Option FfiType × Types) :
    List (String × FieldType) → Types → Option (List FfiType) × Types
  | [], types => (some [], types)
  | (_, type) :: rest, types =>
      match aType types type.part with
      | (none, types) => (none, types)
      | (some e, types) =>
          match aElements aType rest types with
          | (none, types) => (none, types)
          | (some es, types) => (some (List.replicate type.count e ++ es), types)

/-- `aType`, on a stack with room for so many calls; none if it overflows. -/
def aType : Nat → Types → FieldType → Option FfiType × Types
  | stack, types, type =>
      if type.indirection ≠ 1 then (some .pointer, types)
      else
        match type with
        | .scalar shape => (some (.basic shape), types)
        | .struct id =>
            match (types id).ffi_type, stack with
            | some ffi, _ => (some ffi, types)
            | none, 0 => (none, types)
            | none, stack + 1 =>
                match aElements (aType stack) (keys (types id).fields) types with
                | (none, types) => (none, types)
                | (some elements, types) =>
                    (some (.struct elements),
                      Function.update types id
                        { types id with ffi_type := some (.struct elements) })
        | _ => (some .pointer, types)

mutual

/-- The size and alignment that libffi gives an `ffi_type` (`initialize_aggregate`). -/
def FfiType.shape : FfiType → Nat × Nat
  | .basic shape => (shape.size, shape.alignment)
  | .pointer => (P.size, P.alignment)
  | .struct elements =>
      let (size, alignment) := aggregate elements (0, 0)
      (alignUp size alignment, alignment)

/-- Its loop over the elements. -/
def aggregate : List FfiType → Nat × Nat → Nat × Nat
  | [], shape => shape
  | e :: es, (size, alignment) =>
      aggregate es (alignUp size e.shape.2 + e.shape.1, max alignment e.shape.2)

end

/-- Something happens: a field is defined, an instance is made, of a new buffer or of
one that is given, or the `ffi_type` of a struct type is asked for. -/
inductive Call
  | defineProperty (id : Nat) (name : String) (type : FieldType)
  | construct (id : Nat) (buffer : Option Nat)
  | aType (id stack : Nat)

/-- `StructType`, the constructor. -/
def construct (s : State) (id : Nat) (buffer : Option Nat) : State :=
  let length := buffer.getD (s.types id).layout.size
  if (s.types id).layout.size ≤ length then
    { types := Function.update s.types id { s.types id with instanceCreated := true }
      instances := s.instances ++ [⟨id, length⟩] }
  else s

/-- One call; an exception leaves what was done before it. -/
def step (s : State) : Call → Option State
  | .defineProperty id name type => some { s with types := defineProperty P s.types id name type }
  | .construct id buffer => some (construct s id buffer)
  | .aType id stack => some { s with types := (aType stack s.types (.struct id)).2 }

/-! ## The property and the condition -/

/-- The `ffi_type` of a type, where that of each struct type is there. -/
def ffiOf (types : Types) (type : FieldType) : Option FfiType :=
  if type.indirection ≠ 1 then some .pointer
  else
    match type with
    | .scalar shape => some (.basic shape)
    | .struct id => (types id).ffi_type
    | _ => some .pointer

/-- The elements for these fields. -/
def expand (types : Types) : List (String × FieldType) → Option (List FfiType)
  | [] => some []
  | (_, type) :: rest =>
      match ffiOf types type.part, expand types rest with
      | some e, some es => some (List.replicate type.count e ++ es)
      | _, _ => none

/-- The `ffi_type` describes the fields of the struct type, in their order, and its size. -/
def Describes (types : Types) (id : Nat) (ffi : FfiType) : Prop :=
  ∃ elements, ffi = .struct elements ∧ expand types (keys (types id).fields) = some elements ∧
    ffi.shape P = shapes types id

/-- Two fields share no byte. -/
def Disjoint (types : Types) (id : Nat) (f g : String × FieldType) : Prop :=
  let offset := (types id).layout.offset
  offset f.1 + usedSize P (shapes types) f.2 ≤ offset g.1 ∨
    offset g.1 + usedSize P (shapes types) g.2 ≤ offset f.1

instance (types : Types) (id : Nat) (f g : String × FieldType) :
    Decidable (Disjoint P types id f g) :=
  inferInstanceAs (Decidable (_ ∨ _))

/-- **Sound instances.**  The fields of each instance are disjoint and inside its
buffer, and if its type has an `ffi_type`, that describes them. -/
structure Sound (s : State) : Prop where
  disjoint : ∀ i ∈ s.instances, (s.types i.type).fields.Pairwise (Disjoint P s.types i.type)
  inside : ∀ i ∈ s.instances, ∀ f ∈ (s.types i.type).fields,
    (s.types i.type).layout.offset f.1 + usedSize P (shapes s.types) f.2 ≤ i.length
  described : ∀ i ∈ s.instances, ∀ ffi, (s.types i.type).ffi_type = some ffi →
    Describes P s.types i.type ffi

/-- The struct type embeds the other one by value, alone or in an array. -/
def Embeds (types : Types) (a b : Nat) : Prop := ∃ f ∈ (types a).fields, f.2.part = .struct b

/-- The elements that stand for a field have the room that its type says. -/
def Roomy (shapes : Shapes) (type : FieldType) : Prop :=
  usedSize P shapes type ≤ type.count * usedSize P shapes type.part

instance (shapes : Shapes) (type : FieldType) : Decidable (Roomy P shapes type) :=
  inferInstanceAs (Decidable (_ ≤ _))

/-- **Laid out.**  The struct type does not embed itself, its fields have room and laying
it out again changes nothing. -/
structure LaidOut (types : Types) (id : Nat) : Prop where
  irreflexive : ¬ Embeds types id id
  roomy : ∀ f ∈ (types id).fields, Roomy P (shapes types) f.2
  upToDate : recalc P (shapes types) id (types id).fields (types id).layout.offset =
    ((types id).layout, false)

/-- libffi takes the elements that stand for a field for what `recalc` takes them. -/
def Plain (shapes : Shapes) (type : FieldType) : Prop :=
  fieldAlignment P shapes type = usedAlignment P shapes type.part ∧
    ∀ element fixedLength size alignment h,
      type.part ≠ .array element fixedLength size alignment h

/-- The condition on a call.  An instance is made of a type that is laid out, an
`ffi_type` of one that is, with all that it embeds; a type that gains a field has no
`ffi_type` and no type with an instance embeds it. -/
def KeepsLaidOut (s : State) : Call → Prop
  | .defineProperty id name type =>
      refusal s.types id name type = none →
        (s.types id).ffi_type = none ∧ ∀ i ∈ s.instances, ¬ Embeds s.types i.type id
  | .construct id buffer =>
      (s.types id).layout.size ≤ buffer.getD (s.types id).layout.size → LaidOut P s.types id
  | .aType id _ =>
      ∀ id', Relation.ReflTransGen (Embeds s.types) id id' →
        LaidOut P s.types id' ∧ ∀ f ∈ (s.types id').fields, Plain P (shapes s.types) f.2

/-! ## Fields -/

theorem keys_perm (fields : List (String × FieldType)) : (keys fields).Perm fields := by
  refine List.Perm.trans ?_ (List.filter_append_perm isIndexed fields)
  exact List.Perm.append_right _ (List.perm_insertionSort _ _)

theorem mem_keys {fields : List (String × FieldType)} {f : String × FieldType} :
    f ∈ keys fields ↔ f ∈ fields := (keys_perm fields).mem_iff

/-- Setting a field keeps the names apart. -/
theorem nodup_setField {fields : List (String × FieldType)} (h : (fields.map Prod.fst).Nodup)
    (name : String) (type : FieldType) : ((setField fields name type).map Prod.fst).Nodup := by
  unfold setField
  split
  · have hnames : (fields.map fun f => if f.1 = name then (name, type) else f).map Prod.fst =
        fields.map Prod.fst := by
      rw [List.map_map]
      refine List.map_congr_left fun f _ => ?_
      rw [Function.comp_apply]
      split
      · next hname => exact hname.symm
      · rfl
    rwa [hnames]
  · next hname =>
    rw [List.map_append, List.nodup_append]
    refine ⟨h, by simp, fun a ha b hb => ?_⟩
    obtain rfl : b = name := by simpa using hb
    exact fun heq => hname (heq ▸ ha)

namespace FieldType

theorem indirection_pos (type : FieldType) : 0 < type.indirection := by
  cases type <;> simp [indirection]

/-- What is not laid out as elements is laid out as itself. -/
theorem part_struct {type : FieldType} {b : Nat} (h : type = .struct b) :
    type.part = .struct b := by
  rw [h]
  rfl

/-- An array has at least one element. -/
theorem count_pos (type : FieldType) : 0 < type.count := by
  induction type with
  | scalar shape => exact Nat.one_pos
  | struct id => exact Nat.one_pos
  | array element fixedLength size alignment length_pos => exact length_pos
  | voidPointer => exact Nat.one_pos
  | pointer target ih =>
      rw [count, elements]
      rw [count] at ih
      exact ih

end FieldType

/-! ## What a layout depends on -/

section Congruence

variable {P} {shapes shapes' : Shapes}

/-- The size depends on the shape of the struct that is embedded. -/
theorem usedSize_congr (type : FieldType) (h : ∀ b, type = .struct b → shapes b = shapes' b) :
    usedSize P shapes type = usedSize P shapes' type := by
  cases type with
  | struct id => simp [usedSize, FieldType.size, h id rfl]
  | pointer target =>
      have hne : target.indirection ≠ 0 := target.indirection_pos.ne'
      simp [usedSize, FieldType.indirection, hne]
  | scalar shape => rfl
  | array element fixedLength size alignment length_pos => rfl
  | voidPointer => rfl

/-- The alignment depends on the shape of the struct that is embedded. -/
theorem usedAlignment_congr {type : FieldType} (h : ∀ b, type = .struct b → shapes b = shapes' b) :
    usedAlignment P shapes type = usedAlignment P shapes' type := by
  cases type with
  | struct id => simp [usedAlignment, FieldType.alignment, h id rfl]
  | pointer target =>
      have hne : target.indirection ≠ 0 := target.indirection_pos.ne'
      simp [usedAlignment, FieldType.indirection, hne]
  | scalar shape => rfl
  | array element fixedLength size alignment length_pos => rfl
  | voidPointer => rfl

/-- So does the alignment of a field. -/
theorem fieldAlignment_congr {type : FieldType} (h : ∀ b, type = .struct b → shapes b = shapes' b) :
    fieldAlignment P shapes type = fieldAlignment P shapes' type := by
  cases type with
  | struct id =>
      have halign :
          (FieldType.struct id).alignment shapes = (FieldType.struct id).alignment shapes' :=
        congrArg Prod.snd (h id rfl)
      rw [fieldAlignment, fieldAlignment, halign]
  | pointer target =>
      have hpos : 1 < target.indirection + 1 := by
        have := target.indirection_pos
        omega
      simp [fieldAlignment, FieldType.indirection, hpos]
  | scalar shape => rfl
  | array element fixedLength size alignment length_pos => rfl
  | voidPointer => rfl

theorem addType_congr {type : FieldType} (h : ∀ b, type = .struct b → shapes b = shapes' b)
    (size : Nat) : addType P shapes size type = addType P shapes' size type := by
  rw [addType, addType, usedAlignment_congr h, usedSize_congr type h]

variable {self alignment : Nat}

theorem during_congr {b : Nat} (h : shapes b = shapes' b) (size : Nat) :
    during shapes self alignment size b = during shapes' self alignment size b := by
  simp only [during, Function.update_apply, h]

theorem addType_congr_during {type : FieldType} (h : ∀ b, type = .struct b → shapes b = shapes' b)
    (size : Nat) : addType P (during shapes self alignment size) size type =
      addType P (during shapes' self alignment size) size type :=
  addType_congr (fun b hb => during_congr (h b hb) size) size

/-- Adding the elements of an array depends on the other shapes. -/
theorem addElements_congr {element : FieldType}
    (h : ∀ b, element = .struct b → shapes b = shapes' b) (n size : Nat) :
    addElements P shapes self alignment element n size =
      addElements P shapes' self alignment element n size := by
  induction n generalizing size with
  | zero => rfl
  | succ n ih =>
      simp only [addElements, addType_congr_during h, ih]

theorem addField_congr {type : FieldType} (h : ∀ b, type.part = .struct b → shapes b = shapes' b)
    (size : Nat) :
    addField P shapes self alignment size type = addField P shapes' self alignment size type := by
  simp only [addField, addElements_congr h, addType_congr_during h]

/-- Placing all fields depends on the other shapes. -/
theorem place_congr {fields : List (String × FieldType)}
    (h : ∀ f ∈ fields, ∀ b, f.2.part = .struct b → shapes b = shapes' b) (offset : String → Nat)
    (size : Nat) :
    place P shapes self alignment fields offset size =
      place P shapes' self alignment fields offset size := by
  induction fields generalizing offset size with
  | nil => rfl
  | cons f fields ih =>
      obtain ⟨name, type⟩ := f
      have hfield : addField P shapes self alignment size type =
          addField P shapes' self alignment size type :=
        addField_congr (h (name, type) List.mem_cons_self) size
      simp only [place, hfield, ih fun f hf => h f (List.mem_cons_of_mem _ hf)]

/-- The alignment of the struct depends on the other shapes. -/
theorem structAlignment_congr {fields : List (String × FieldType)}
    (h : ∀ f ∈ fields, ∀ b, f.2.part = .struct b → shapes b = shapes' b) :
    structAlignment P shapes self fields = structAlignment P shapes' self fields := by
  refine List.foldl_ext _ _ 0 fun alignment f hf => ?_
  exact congrArg (max alignment) (fieldAlignment_congr fun b hb =>
    during_congr (h f hf b (FieldType.part_struct hb)) 0)

/-- A layout depends on the shapes of the types that are embedded. -/
theorem recalc_congr {fields : List (String × FieldType)}
    (h : ∀ f ∈ fields, ∀ b, f.2.part = .struct b → shapes b = shapes' b) (offset : String → Nat) :
    recalc P shapes self fields offset = recalc P shapes' self fields offset := by
  have hkeys : ∀ f ∈ keys fields, ∀ b, f.2.part = .struct b → shapes b = shapes' b :=
    fun f hf => h f (mem_keys.mp hf)
  simp only [recalc, structAlignment_congr hkeys, place_congr hkeys]

/-- A type that is not `self` is the same while `self` is laid out. -/
theorem during_eq {type : FieldType} (h : type ≠ .struct self) (size : Nat) :
    ∀ b, type = .struct b → during shapes self alignment size b = shapes b := by
  intro b hb
  have hne : b ≠ self := fun heq => h (heq ▸ hb)
  rw [during, Function.update_of_ne hne]

end Congruence

/-! ## Placing the fields -/

section Placing

variable {P} {shapes : Shapes} {self alignment : Nat}

/-- `addType` of a type other than the one that is laid out. -/
theorem addType_during {type : FieldType} (h : type ≠ .struct self) {size o size' : Nat}
    (hadd : addType P (during shapes self alignment size) size type = some (o, size')) :
    usedAlignment P shapes type ≠ 0 ∧ o = alignUp size (usedAlignment P shapes type) ∧
      size' = o + usedSize P shapes type := by
  rw [addType_congr (during_eq h size), addType] at hadd
  split at hadd
  · cases hadd
  · next hne =>
    obtain ⟨rfl, rfl⟩ := Prod.mk.inj (Option.some.inj hadd)
    exact ⟨hne, rfl, rfl⟩

/-- The elements of an array have room one after the other. -/
theorem addElements_room {element : FieldType} (h : element ≠ .struct self) {n size size' : Nat}
    (hadd : addElements P shapes self alignment element n size = some size') :
    size + n * usedSize P shapes element ≤ size' := by
  induction n generalizing size with
  | zero =>
      obtain rfl := Option.some.inj hadd
      omega
  | succ n ih =>
      simp only [addElements] at hadd
      split at hadd
      · cases hadd
      case h_2 o next hnext =>
        obtain ⟨-, ho, rfl⟩ := addType_during h hnext
        have hrest := ih hadd
        have hle := le_alignUp size (usedAlignment P shapes element)
        rw [Nat.add_mul, Nat.one_mul]
        omega

/-- A field is placed behind what there is, with room for its parts. -/
theorem addField_room {type : FieldType} (h : type.part ≠ .struct self) {size o size' : Nat}
    (hadd : addField P shapes self alignment size type = some (o, size')) :
    size ≤ o ∧ o + type.count * usedSize P shapes type.part ≤ size' := by
  unfold addField at hadd
  split at hadd
  · cases hadd
  case h_2 o₁ size₁ hfirst =>
    split at hadd
    · cases hadd
    case h_2 size₂ hrest =>
      obtain ⟨rfl, rfl⟩ := Prod.mk.inj (Option.some.inj hadd)
      obtain ⟨-, ho, rfl⟩ := addType_during h hfirst
      have hroom := addElements_room h hrest
      have hle := le_alignUp size (usedAlignment P shapes type.part)
      obtain ⟨n, hn⟩ : ∃ n, type.count = n + 1 := ⟨type.count - 1, by have := type.count_pos; omega⟩
      rw [hn, Nat.add_sub_cancel] at hroom
      rw [hn, Nat.add_mul, Nat.one_mul]
      omega

/-- The fields are placed one behind the other. -/
theorem place_room {fields : List (String × FieldType)} {offset offset' : String → Nat}
    {size size' : Nat} (hnodup : (fields.map Prod.fst).Nodup)
    (hself : ∀ f ∈ fields, f.2.part ≠ .struct self)
    (hplace : place P shapes self alignment fields offset size = (offset', size', false)) :
    size ≤ size' ∧
      (∀ f ∈ fields, size ≤ offset' f.1 ∧
        offset' f.1 + f.2.count * usedSize P shapes f.2.part ≤ size') ∧
      (fields.Pairwise fun f g =>
        offset' f.1 + f.2.count * usedSize P shapes f.2.part ≤ offset' g.1) ∧
      ∀ name, name ∉ fields.map Prod.fst → offset' name = offset name := by
  induction fields generalizing offset size with
  | nil =>
      obtain ⟨rfl, h⟩ := Prod.mk.inj hplace
      obtain ⟨rfl, -⟩ := Prod.mk.inj h
      exact ⟨le_rfl, by simp, List.Pairwise.nil, fun _ _ => rfl⟩
  | cons f fields ih =>
      obtain ⟨name, type⟩ := f
      rw [List.map_cons, List.nodup_cons] at hnodup
      simp only [place] at hplace
      split at hplace
      · simp at hplace
      case h_2 o next hfield =>
        have hnew : size ≤ o ∧ o + type.count * usedSize P shapes type.part ≤ next :=
          addField_room (hself (name, type) List.mem_cons_self) hfield
        obtain ⟨hle, hroom⟩ := hnew
        obtain ⟨hle', hin, hpair, hother⟩ :=
          ih hnodup.2 (fun f hf => hself f (List.mem_cons_of_mem _ hf)) hplace
        have hname : offset' name = o := by rw [hother name hnodup.1, Function.update_self]
        refine ⟨by omega, ?_, ?_, fun n hn => ?_⟩
        · intro f hf
          rcases List.mem_cons.mp hf with rfl | hf
          · simp only [hname]
            omega
          · have := hin f hf
            omega
        · refine List.pairwise_cons.mpr ⟨fun g hg => ?_, hpair⟩
          have := (hin g hg).1
          simp only [hname]
          omega
        · rw [List.map_cons, List.mem_cons, not_or] at hn
          rw [hother n hn.2, Function.update_of_ne hn.1]

/-- The offsets that are found do not depend on those there were. -/
theorem place_again {fields : List (String × FieldType)} {offset offset' : String → Nat}
    {size size' : Nat} (hnodup : (fields.map Prod.fst).Nodup)
    (hself : ∀ f ∈ fields, f.2.part ≠ .struct self)
    (hplace : place P shapes self alignment fields offset size = (offset', size', false)) :
    place P shapes self alignment fields offset' size = (offset', size', false) := by
  induction fields generalizing offset size with
  | nil =>
      obtain ⟨rfl, h⟩ := Prod.mk.inj hplace
      obtain ⟨rfl, -⟩ := Prod.mk.inj h
      rfl
  | cons f fields ih =>
      obtain ⟨name, type⟩ := f
      rw [List.map_cons, List.nodup_cons] at hnodup
      have hrest : ∀ f ∈ fields, f.2.part ≠ .struct self := fun f hf =>
        hself f (List.mem_cons_of_mem _ hf)
      simp only [place] at hplace ⊢
      split at hplace
      · simp at hplace
      case h_2 o next hfield =>
        have hname : offset' name = o := by
          rw [(place_room hnodup.2 hrest hplace).2.2.2 name hnodup.1, Function.update_self]
        rw [← hname, Function.update_eq_self]
        exact ih hnodup.2 hrest hplace

/-- The end is rounded up to the alignment. -/
theorem padded_eq (size alignment : Nat) :
    (if size % alignment > 0 then size + (alignment - size % alignment) else size) =
      alignUp size alignment := by
  rcases Nat.eq_zero_or_pos alignment with rfl | halign
  · simp [alignUp, padding]
  · split
    · next hleft => rw [alignUp, padding_of_pos halign hleft]
    · next hleft => rw [alignUp_of_dvd (Nat.dvd_of_mod_eq_zero (by omega))]

/-- What `recalc` leaves where no assertion fails. -/
theorem recalc_ok {fields : List (String × FieldType)} {offset : String → Nat} {layout : Layout}
    (h : recalc P shapes self fields offset = (layout, false)) :
    layout.alignment = structAlignment P shapes self (keys fields) ∧
      ∃ size, place P shapes self layout.alignment (keys fields) offset 0 =
        (layout.offset, size, false) ∧ layout.size = alignUp size layout.alignment := by
  simp only [recalc] at h
  split at h
  · simp at h
  case h_2 offset' size hplace =>
    obtain ⟨rfl, -⟩ := Prod.mk.inj h
    exact ⟨rfl, size, hplace, padded_eq _ _⟩

end Placing

/-! ## Types that are laid out -/

section LaidOut

variable {P} {types types' : Types} {id : Nat}

theorem LaidOut.part_ne (h : LaidOut P types id) {f : String × FieldType}
    (hf : f ∈ (types id).fields) : f.2.part ≠ .struct id :=
  fun hpart => h.irreflexive ⟨f, hf, hpart⟩

/-- The fields of a type that is laid out are disjoint and inside its size. -/
theorem LaidOut.regions (h : LaidOut P types id) (hnodup : ((types id).fields.map Prod.fst).Nodup) :
    (types id).fields.Pairwise (Disjoint P types id) ∧
      ∀ f ∈ (types id).fields,
        (types id).layout.offset f.1 + usedSize P (shapes types) f.2 ≤ (types id).layout.size := by
  obtain ⟨-, size, hplace, hsize⟩ := recalc_ok h.upToDate
  have hkeys := (keys_perm (types id).fields)
  obtain ⟨-, hin, hpair, -⟩ := place_room ((hkeys.map Prod.fst).nodup_iff.mpr hnodup)
    (fun f hf => h.part_ne (mem_keys.mp hf)) hplace
  have hle : size ≤ (types id).layout.size := hsize ▸ le_alignUp _ _
  constructor
  · have hsymm : ∀ {f g : String × FieldType}, Disjoint P types id f g → Disjoint P types id g f :=
      fun h => Or.symm h
    refine (hkeys.pairwise_iff hsymm).mp (hpair.imp_of_mem fun {f g} hf _ hfg => .inl ?_)
    have hroomy := h.roomy f (mem_keys.mp hf)
    unfold Roomy at hroomy
    omega
  · intro f hf
    have hroomy := h.roomy f hf
    have hroom := (hin f (mem_keys.mpr hf)).2
    unfold Roomy at hroomy
    omega

/-- The struct type itself and the shapes of what it embeds decide. -/
theorem LaidOut.congr (h : LaidOut P types id) (hfields : (types' id).fields = (types id).fields)
    (hlayout : (types' id).layout = (types id).layout)
    (hshapes : ∀ b, Embeds types id b → shapes types b = shapes types' b) :
    LaidOut P types' id := by
  have hembeds : ∀ b, Embeds types' id b → Embeds types id b := fun b ⟨f, hf, hpart⟩ =>
    ⟨f, hfields ▸ hf, hpart⟩
  refine ⟨fun hself => h.irreflexive (hembeds id hself), fun f hf => ?_, ?_⟩
  · rw [hfields] at hf
    have hroomy := h.roomy f hf
    unfold Roomy at hroomy ⊢
    rwa [← usedSize_congr f.2 fun b hb => hshapes b ⟨f, hf, FieldType.part_struct hb⟩,
      ← usedSize_congr f.2.part fun b hb => hshapes b ⟨f, hf, hb⟩]
  · rw [hfields, hlayout, ← h.upToDate]
    exact (recalc_congr (fun f hf b hb => hshapes b ⟨f, hf, hb⟩) _).symm

/-- A type that does not embed itself is laid out when it has gained a field. -/
theorem laidOut_defineProperty {name : String} {type : FieldType}
    (hnodup : ((types id).fields.map Prod.fst).Nodup)
    (haccepted : refusal types id name type = none)
    (hself : ∀ f ∈ setField (types id).fields name type, f.2.part ≠ .struct id)
    (hroomy : ∀ f ∈ setField (types id).fields name type, Roomy P (shapes types) f.2)
    (hok : (recalc P (shapes types) id (setField (types id).fields name type)
      (types id).layout.offset).2 = false) :
    LaidOut P (defineProperty P types id name type) id := by
  obtain ⟨layout, hlayout⟩ : ∃ layout, recalc P (shapes types) id
      (setField (types id).fields name type) (types id).layout.offset = (layout, false) :=
    ⟨_, Prod.ext rfl hok⟩
  have hother : ∀ f ∈ setField (types id).fields name type, ∀ b, f.2.part = .struct b →
      shapes types b = shapes (defineProperty P types id name type) b := by
    intro f hf b hb
    have hne : b ≠ id := fun heq => hself f hf (heq ▸ hb)
    simp only [defineProperty, haccepted, shapes, Function.update_of_ne hne]
  have hfields : (defineProperty P types id name type id).fields =
      setField (types id).fields name type := by
    simp only [defineProperty, haccepted, Function.update_self]
  have hnew : (defineProperty P types id name type id).layout = layout := by
    simp only [defineProperty, haccepted, hlayout, Function.update_self]
  refine ⟨fun ⟨f, hf, hpart⟩ => hself f (hfields ▸ hf) hpart, fun f hf => ?_, ?_⟩
  · rw [hfields] at hf
    have hroom := hroomy f hf
    unfold Roomy at hroom ⊢
    rwa [← usedSize_congr f.2 fun b hb => hother f hf b (FieldType.part_struct hb),
      ← usedSize_congr f.2.part (hother f hf)]
  · rw [hfields, hnew, ← recalc_congr hother]
    obtain ⟨halign, size, hplace, hsize⟩ := recalc_ok hlayout
    have hkeys : ((keys (setField (types id).fields name type)).map Prod.fst).Nodup :=
      ((keys_perm _).map Prod.fst).nodup_iff.mpr (nodup_setField hnodup name type)
    have hagain := place_again hkeys (fun f hf => hself f (mem_keys.mp hf)) hplace
    simp only [recalc, ← halign, hagain, padded_eq, ← hsize]

/-- A type that is there stays if more are made. -/
theorem ffiOf_mono {type : FieldType} {e : FfiType}
    (h : ∀ b, type = .struct b → ∀ e, (types b).ffi_type = some e → (types' b).ffi_type = some e)
    (he : ffiOf types type = some e) : ffiOf types' type = some e := by
  cases type with
  | struct b => exact h b rfl e he
  | scalar shape => exact he
  | array element fixedLength size alignment length_pos => exact he
  | voidPointer => exact he
  | pointer target => exact he

/-- The types of all fields stay if more are made. -/
theorem expand_mono {fields : List (String × FieldType)} {es : List FfiType}
    (h : ∀ f ∈ fields, ∀ b, f.2.part = .struct b →
      ∀ e, (types b).ffi_type = some e → (types' b).ffi_type = some e)
    (hes : expand types fields = some es) : expand types' fields = some es := by
  induction fields generalizing es with
  | nil => exact hes
  | cons f fields ih =>
      obtain ⟨name, type⟩ := f
      simp only [expand] at hes ⊢
      split at hes
      case h_1 e es' he hrest =>
        rw [ffiOf_mono (h (name, type) List.mem_cons_self) he,
          ih (fun f hf => h f (List.mem_cons_of_mem _ hf)) hrest]
        exact hes
      · cases hes

/-- What the fields embed has an `ffi_type`. -/
theorem ffi_of_expand {fields : List (String × FieldType)} {es : List FfiType}
    (hes : expand types fields = some es) {f : String × FieldType} (hf : f ∈ fields) {b : Nat}
    (hb : f.2.part = .struct b) : ∃ e, (types b).ffi_type = some e := by
  induction fields generalizing es with
  | nil => simp at hf
  | cons g fields ih =>
      simp only [expand] at hes
      split at hes
      case h_1 e es' he hrest =>
        rcases List.mem_cons.mp hf with rfl | hf
        · rw [hb] at he
          exact ⟨e, he⟩
        · exact ih hrest hf
      · cases hes

theorem Describes.embedded {ffi : FfiType} (h : Describes P types id ffi) {b : Nat}
    (hb : Embeds types id b) : ∃ e, (types b).ffi_type = some e := by
  obtain ⟨elements, -, hes, -⟩ := h
  obtain ⟨f, hf, hpart⟩ := hb
  exact ffi_of_expand hes (mem_keys.mpr hf) hpart

/-- A description stays if the fields, the layout and the embedded types do. -/
theorem Describes.congr {ffi : FfiType} (h : Describes P types id ffi)
    (hfields : (types' id).fields = (types id).fields)
    (hlayout : (types' id).layout = (types id).layout)
    (hffi : ∀ b, Embeds types id b → ∀ e, (types b).ffi_type = some e →
      (types' b).ffi_type = some e) : Describes P types' id ffi := by
  obtain ⟨elements, rfl, hes, hshape⟩ := h
  refine ⟨elements, rfl, ?_, ?_⟩
  · rw [hfields]
    exact expand_mono (fun f hf b hb => hffi b ⟨f, mem_keys.mp hf, hb⟩) hes
  · rw [hshape, shapes, shapes, hlayout]

end LaidOut

/-! ## What libffi makes of the elements -/

section Ffi

variable {P} {types : Types} {self alignment : Nat}

/-- The `ffi_type` of a part has the shape that `recalc` used. -/
theorem ffiOf_shape {type : FieldType} {e : FfiType}
    (harray : ∀ element fixedLength size alignment h,
      type ≠ .array element fixedLength size alignment h)
    (hstruct : ∀ b, type = .struct b →
      ∀ e, (types b).ffi_type = some e → e.shape P = shapes types b)
    (he : ffiOf types type = some e) :
    e.shape P = (usedSize P (shapes types) type, usedAlignment P (shapes types) type) := by
  cases type with
  | struct b => exact hstruct b rfl e he
  | scalar shape =>
      obtain rfl : FfiType.basic shape = e := Option.some.inj he
      rw [FfiType.shape]
      rfl
  | array element fixedLength size alignment length_pos => exact absurd rfl (harray _ _ _ _ _)
  | voidPointer =>
      obtain rfl : FfiType.pointer = e := Option.some.inj he
      rw [FfiType.shape]
      rfl
  | pointer target =>
      have hne : target.indirection ≠ 0 := target.indirection_pos.ne'
      obtain rfl : FfiType.pointer = e := by simpa [ffiOf, FieldType.indirection, hne] using he
      simp [FfiType.shape, usedSize, usedAlignment, FieldType.indirection, hne]

/-- The elements of an array, one after the other. -/
theorem aggregate_replicate {element : FieldType} (hself : element ≠ .struct self) {e : FfiType}
    (he : e.shape P = (usedSize P (shapes types) element, usedAlignment P (shapes types) element))
    {n size size' : Nat}
    (hadd : addElements P (shapes types) self alignment element n size = some size')
    {a : Nat} (ha : usedAlignment P (shapes types) element ≤ a) (es : List FfiType) :
    aggregate P (List.replicate n e ++ es) (size, a) = aggregate P es (size', a) := by
  induction n generalizing size with
  | zero =>
      obtain rfl := Option.some.inj hadd
      rfl
  | succ n ih =>
      simp only [addElements] at hadd
      split at hadd
      · cases hadd
      case h_2 o next hnext =>
        obtain ⟨-, rfl, rfl⟩ := addType_during hself hnext
        rw [List.replicate_succ, List.cons_append, aggregate, he]
        simp only [max_eq_left ha]
        exact ih hadd

/-- The elements of one field. -/
theorem aggregate_field {type : FieldType} (hself : type.part ≠ .struct self) {e : FfiType}
    (he : e.shape P =
      (usedSize P (shapes types) type.part, usedAlignment P (shapes types) type.part))
    {size o size' : Nat}
    (hadd : addField P (shapes types) self alignment size type = some (o, size'))
    (a : Nat) (es : List FfiType) :
    aggregate P (List.replicate type.count e ++ es) (size, a) =
      aggregate P es (size', max a (usedAlignment P (shapes types) type.part)) := by
  unfold addField at hadd
  split at hadd
  · cases hadd
  case h_2 o₁ size₁ hfirst =>
    split at hadd
    · cases hadd
    case h_2 size₂ hrest =>
      obtain ⟨rfl, rfl⟩ := Prod.mk.inj (Option.some.inj hadd)
      obtain ⟨-, rfl, rfl⟩ := addType_during hself hfirst
      obtain ⟨n, hn⟩ : ∃ n, type.count = n + 1 := ⟨type.count - 1, by have := type.count_pos; omega⟩
      rw [hn, Nat.add_sub_cancel] at hrest
      rw [hn, List.replicate_succ, List.cons_append, aggregate, he]
      exact aggregate_replicate hself he hrest (le_max_right _ _) es

/-- libffi's loop over the elements takes the sizes of `recalc`'s loop over the fields. -/
theorem aggregate_place {fields : List (String × FieldType)} {offset offset' : String → Nat}
    {size size' : Nat} {es : List FfiType} (hself : ∀ f ∈ fields, f.2.part ≠ .struct self)
    (hplain : ∀ f ∈ fields, Plain P (shapes types) f.2)
    (hstruct : ∀ f ∈ fields, ∀ b, f.2.part = .struct b →
      ∀ e, (types b).ffi_type = some e → e.shape P = shapes types b)
    (hplace : place P (shapes types) self alignment fields offset size = (offset', size', false))
    (hes : expand types fields = some es) (a : Nat) :
    aggregate P es (size, a) =
      (size', fields.foldl (fun a f => max a (fieldAlignment P (shapes types) f.2)) a) := by
  induction fields generalizing offset size es a with
  | nil =>
      obtain ⟨rfl, h⟩ := Prod.mk.inj hplace
      obtain ⟨rfl, -⟩ := Prod.mk.inj h
      obtain rfl := Option.some.inj hes
      rfl
  | cons f fields ih =>
      obtain ⟨name, type⟩ := f
      have hmem : (name, type) ∈ (name, type) :: fields := List.mem_cons_self
      simp only [place] at hplace
      split at hplace
      · simp at hplace
      case h_2 o next hfield =>
        simp only [expand] at hes
        split at hes
        · next e es' he hrest =>
          obtain rfl := Option.some.inj hes
          have hshape := ffiOf_shape (hplain _ hmem).2 (hstruct _ hmem) he
          rw [aggregate_field (hself _ hmem) hshape hfield, List.foldl_cons, (hplain _ hmem).1]
          exact ih (fun f hf => hself f (List.mem_cons_of_mem _ hf))
            (fun f hf => hplain f (List.mem_cons_of_mem _ hf))
            (fun f hf => hstruct f (List.mem_cons_of_mem _ hf)) hplace hrest _
        · cases hes

/-- The struct's alignment, where it does not embed itself. -/
theorem structAlignment_eq {fields : List (String × FieldType)} {shapes : Shapes}
    (hself : ∀ f ∈ fields, f.2.part ≠ .struct self) :
    structAlignment P shapes self fields =
      fields.foldl (fun a f => max a (fieldAlignment P shapes f.2)) 0 := by
  refine List.foldl_ext _ _ 0 fun a f hf => ?_
  exact congrArg (max a) (fieldAlignment_congr
    (during_eq (fun heq => hself f hf (FieldType.part_struct heq)) 0))

/-- **The `ffi_type` of a type that is laid out** has its size and alignment. -/
theorem LaidOut.ffi_shape (h : LaidOut P types self)
    (hplain : ∀ f ∈ (types self).fields, Plain P (shapes types) f.2)
    (hstruct : ∀ b, Embeds types self b →
      ∀ e, (types b).ffi_type = some e → e.shape P = shapes types b)
    {es : List FfiType} (hes : expand types (keys (types self).fields) = some es) :
    (FfiType.struct es).shape P = shapes types self := by
  obtain ⟨halign, size, hplace, hsize⟩ := recalc_ok h.upToDate
  have hself : ∀ f ∈ keys (types self).fields, f.2.part ≠ .struct self :=
    fun f hf => h.part_ne (mem_keys.mp hf)
  have haggregate := aggregate_place hself (fun f hf => hplain f (mem_keys.mp hf))
    (fun f hf b hb => hstruct b ⟨f, mem_keys.mp hf, hb⟩) hplace hes 0
  rw [← structAlignment_eq hself, ← halign] at haggregate
  rw [FfiType.shape, haggregate, shapes, hsize]

end Ffi

/-! ## Making an `ffi_type` -/

section Make

variable {P} {types types' types'' : Types}

/-- The same struct types, but that some may have got an instance or their `ffi_type`. -/
def Extends (types types' : Types) : Prop :=
  ∀ id, (types' id).fields = (types id).fields ∧ (types' id).layout = (types id).layout ∧
    ((types id).instanceCreated = true → (types' id).instanceCreated = true) ∧
    ∀ e, (types id).ffi_type = some e → (types' id).ffi_type = some e

theorem Extends.refl (types : Types) : Extends types types :=
  fun _ => ⟨rfl, rfl, id, fun _ he => he⟩

theorem Extends.trans (h : Extends types types') (h' : Extends types' types'') :
    Extends types types'' := fun id =>
  ⟨(h' id).1.trans (h id).1, (h' id).2.1.trans (h id).2.1,
    fun hcreated => (h' id).2.2.1 ((h id).2.2.1 hcreated),
    fun e he => (h' id).2.2.2 e ((h id).2.2.2 e he)⟩

theorem Extends.shapes_eq (h : Extends types types') : shapes types' = shapes types := by
  funext id
  rw [shapes, shapes, (h id).2.1]

theorem Extends.embeds_eq (h : Extends types types') : Embeds types' = Embeds types := by
  funext a b
  rw [Embeds, Embeds, (h a).1]

theorem Extends.laidOut (h : Extends types types') {id : Nat} (hid : LaidOut P types id) :
    LaidOut P types' id :=
  hid.congr (h id).1 (h id).2.1 fun b _ => by rw [h.shapes_eq]

theorem Extends.describes (h : Extends types types') {id : Nat} {ffi : FfiType}
    (hid : Describes P types id ffi) : Describes P types' id ffi :=
  hid.congr (h id).1 (h id).2.1 fun b _ => (h b).2.2.2

variable (P) in
/-- Each `ffi_type` was made of a type that is laid out, and describes it. -/
def Described (types : Types) : Prop :=
  ∀ id e, (types id).ffi_type = some e → LaidOut P types id ∧ Describes P types id e

variable (P) in
/-- The type and all that it embeds are laid out, for libffi too. -/
def AllLaidOut (types : Types) (id : Nat) : Prop :=
  ∀ id', Relation.ReflTransGen (Embeds types) id id' →
    LaidOut P types id' ∧ ∀ f ∈ (types id').fields, Plain P (shapes types) f.2

theorem AllLaidOut.embedded {id b : Nat} (h : AllLaidOut P types id) (hb : Embeds types id b) :
    AllLaidOut P types b := fun id' hreach => h id' (hreach.head hb)

/-- Making types keeps all that is laid out. -/
theorem Extends.allLaidOut (h : Extends types types') {id : Nat} (hid : AllLaidOut P types id) :
    AllLaidOut P types' id := by
  intro id' hreach
  rw [h.embeds_eq] at hreach
  obtain ⟨hlaid, hplain⟩ := hid id' hreach
  refine ⟨h.laidOut hlaid, ?_⟩
  rw [(h id').1, h.shapes_eq]
  exact hplain

/-- What a call of `aType` does. -/
structure Made (P : Shape) (types : Types) (result : Option FfiType × Types) (type : FieldType) :
    Prop where
  extends_ : Extends types result.2
  described : Described P result.2
  value : ∀ e, result.1 = some e → ffiOf result.2 type = some e

/-- The loop over the fields, if each call does what it should. -/
theorem aElements_made {g : Types → FieldType → Option FfiType × Types}
    (hg : ∀ types type, Described P types → (∀ b, type = .struct b → AllLaidOut P types b) →
      Made P types (g types type) type)
    (fields : List (String × FieldType)) (htypes : Described P types)
    (hfields : ∀ f ∈ fields, ∀ b, f.2.part = .struct b → AllLaidOut P types b) :
    Extends types (aElements g fields types).2 ∧ Described P (aElements g fields types).2 ∧
      ∀ es, (aElements g fields types).1 = some es →
        expand (aElements g fields types).2 fields = some es := by
  induction fields generalizing types with
  | nil => exact ⟨Extends.refl _, htypes, fun es hes => hes⟩
  | cons f fields ih =>
      obtain ⟨name, type⟩ := f
      obtain ⟨hext, hdesc, hvalue⟩ :=
        hg types type.part htypes (hfields (name, type) List.mem_cons_self)
      simp only [aElements]
      generalize g types type.part = r at hext hdesc hvalue
      obtain ⟨_ | e, types₁⟩ := r
      · exact ⟨hext, hdesc, fun es hes => by cases hes⟩
      · obtain ⟨hext', hdesc', hrest⟩ := ih hdesc fun f hf b hb =>
          hext.allLaidOut (hfields f (List.mem_cons_of_mem _ hf) b hb)
        simp only
        generalize aElements g fields types₁ = r' at hext' hdesc' hrest
        obtain ⟨_ | es', types₂⟩ := r'
        · exact ⟨hext.trans hext', hdesc', fun es hes => by cases hes⟩
        · refine ⟨hext.trans hext', hdesc', fun es hes => ?_⟩
          obtain rfl := Option.some.inj hes
          have he : ffiOf types₂ type.part = some e :=
            ffiOf_mono (fun b _ => (hext' b).2.2.2) (hvalue e rfl)
          simp only [expand, he, hrest es' rfl]

/-- Keeping the `ffi_type` that was made. -/
theorem keep_made {id : Nat} {es : List FfiType} (hdesc : Described P types)
    (hall : AllLaidOut P types id) (hes : expand types (keys (types id).fields) = some es) :
    Extends types (Function.update types id { types id with ffi_type := some (.struct es) }) ∧
      Described P (Function.update types id { types id with ffi_type := some (.struct es) }) := by
  obtain ⟨hlaid, hplain⟩ := hall id .refl
  have hshape : (FfiType.struct es).shape P = shapes types id :=
    hlaid.ffi_shape hplain (fun b _ e he => by
      obtain ⟨-, elements, rfl, -, hshape⟩ := hdesc b e he
      exact hshape) hes
  have hself : Describes P types id (.struct es) := ⟨es, rfl, hes, hshape⟩
  have hext : Extends types
      (Function.update types id { types id with ffi_type := some (.struct es) }) := by
    intro b
    by_cases hb : b = id
    · subst hb
      rw [Function.update_self]
      refine ⟨rfl, rfl, fun hcreated => hcreated, fun e he => ?_⟩
      -- an `ffi_type` that was there has the same elements
      obtain ⟨-, elements, rfl, helements, -⟩ := hdesc b e he
      rw [hes] at helements
      rw [Option.some.inj helements]
    · rw [Function.update_of_ne hb]
      exact ⟨rfl, rfl, fun hcreated => hcreated, fun e he => he⟩
  refine ⟨hext, fun b e he => ?_⟩
  by_cases hb : b = id
  · subst hb
    rw [Function.update_self] at he
    obtain rfl := Option.some.inj he
    exact ⟨hext.laidOut hlaid, hext.describes hself⟩
  · rw [Function.update_of_ne hb] at he
    obtain ⟨hlaid', hdesc'⟩ := hdesc b e he
    exact ⟨hext.laidOut hlaid', hext.describes hdesc'⟩

/-- What is no struct has its type at hand. -/
theorem aType_of_ne_struct (stack : Nat) (types : Types) {type : FieldType}
    (h : ∀ b, type ≠ .struct b) : aType stack types type = (ffiOf types type, types) := by
  cases type with
  | struct b => exact absurd rfl (h b)
  | scalar shape => cases stack <;> rfl
  | array element fixedLength size alignment length_pos => cases stack <;> rfl
  | voidPointer => cases stack <;> rfl
  | pointer target =>
      have hne : target.indirection ≠ 0 := target.indirection_pos.ne'
      cases stack <;> simp [aType, ffiOf, FieldType.indirection, hne]

theorem aType_cached (stack : Nat) {id : Nat} {ffi : FfiType} (h : (types id).ffi_type = some ffi) :
    aType stack types (.struct id) = (some ffi, types) := by
  cases stack <;> simp [aType, FieldType.indirection, h]

theorem aType_zero {id : Nat} (h : (types id).ffi_type = none) :
    aType 0 types (.struct id) = (none, types) := by
  simp [aType, FieldType.indirection, h]

/-- With a stack the types of the fields are made first. -/
theorem aType_succ (stack : Nat) {id : Nat} (h : (types id).ffi_type = none) :
    aType (stack + 1) types (.struct id) =
      match aElements (aType stack) (keys (types id).fields) types with
      | (none, types) => (none, types)
      | (some elements, types) =>
          (some (.struct elements),
            Function.update types id { types id with ffi_type := some (.struct elements) }) := by
  simp only [aType, FieldType.indirection, ne_eq, not_true_eq_false, if_false, h]

/-- **`aType`** keeps every `ffi_type` that is there, and what it makes describes the
type, if all that the type embeds is laid out. -/
theorem aType_made (stack : Nat) (types : Types) (type : FieldType) (htypes : Described P types)
    (hall : ∀ b, type = .struct b → AllLaidOut P types b) :
    Made P types (aType stack types type) type := by
  induction stack generalizing types type with
  | zero =>
      by_cases hstruct : ∃ id, type = .struct id
      · obtain ⟨id, rfl⟩ := hstruct
        cases hffi : (types id).ffi_type with
        | some ffi =>
            rw [aType_cached 0 hffi]
            exact ⟨Extends.refl _, htypes, fun e he => hffi.trans he⟩
        | none =>
            rw [aType_zero hffi]
            exact ⟨Extends.refl _, htypes, fun e he => by cases he⟩
      · rw [aType_of_ne_struct 0 types fun b hb => hstruct ⟨b, hb⟩]
        exact ⟨Extends.refl _, htypes, fun e he => he⟩
  | succ stack ih =>
      by_cases hstruct : ∃ id, type = .struct id
      · obtain ⟨id, rfl⟩ := hstruct
        cases hffi : (types id).ffi_type with
        | some ffi =>
            rw [aType_cached (stack + 1) hffi]
            exact ⟨Extends.refl _, htypes, fun e he => hffi.trans he⟩
        | none =>
            have hid := hall id rfl
            obtain ⟨hext, hdesc, hvalue⟩ := aElements_made ih (keys (types id).fields) htypes
              fun f hf b hb => hid.embedded ⟨f, mem_keys.mp hf, hb⟩
            rw [aType_succ stack hffi]
            generalize
              aElements (aType stack) (keys (types id).fields) types = r at hext hdesc hvalue
            obtain ⟨_ | es, types₁⟩ := r
            · exact ⟨hext, hdesc, fun e he => by cases he⟩
            · have hes : expand types₁ (keys (types₁ id).fields) = some es := by
                rw [(hext id).1]
                exact hvalue es rfl
              obtain ⟨hkeep, hkept⟩ := keep_made hdesc (hext.allLaidOut hid) hes
              refine ⟨hext.trans hkeep, hkept, fun e he => ?_⟩
              obtain rfl := Option.some.inj he
              change (Function.update types₁ id _ id).ffi_type = _
              rw [Function.update_self]
      · rw [aType_of_ne_struct (stack + 1) types fun b hb => hstruct ⟨b, hb⟩]
        exact ⟨Extends.refl _, htypes, fun e he => he⟩

end Make

/-! ## The run -/

section Run

variable {P} {s t : State} {types : Types} {instances : List Instance}

variable (P types instances) in
/-- What every call keeps that meets the condition. -/
structure Kept : Prop where
  names : ∀ id, ((types id).fields.map Prod.fst).Nodup
  created : ∀ i ∈ instances, (types i.type).instanceCreated = true
  laidOut : ∀ i ∈ instances, LaidOut P types i.type
  buffers : ∀ i ∈ instances, (types i.type).layout.size ≤ i.length
  described : Described P types

theorem Kept.sound (h : Kept P s.types s.instances) : Sound P s where
  disjoint i hi := ((h.laidOut i hi).regions (h.names i.type)).1
  inside i hi f hf := (((h.laidOut i hi).regions (h.names i.type)).2 f hf).trans (h.buffers i hi)
  described i _ ffi hffi := (h.described i.type ffi hffi).2

/-- The invariant holds before any type is made. -/
theorem start_kept : Kept P start.types start.instances where
  names _ := List.nodup_nil
  created _ hi := by cases hi
  laidOut _ hi := by cases hi
  buffers _ hi := by cases hi
  described _ _ he := by cases he

/-- `defineProperty` gives the type a field, if it refuses nothing; the other types stay. -/
theorem defineProperty_frame {types : Types} {id : Nat} {name : String} {type : FieldType}
    (h : refusal types id name type = none) :
    (defineProperty P types id name type id).fields = setField (types id).fields name type ∧
      (defineProperty P types id name type id).ffi_type = (types id).ffi_type ∧
      ∀ b, b ≠ id → defineProperty P types id name type b = types b := by
  simp only [defineProperty, h, Function.update_self]
  exact ⟨trivial, trivial, fun b hb => Function.update_of_ne hb _ _⟩

/-- Only a type without instances can be changed. -/
theorem not_created_of_refusal {types : Types} {id : Nat} {name : String} {type : FieldType}
    (h : refusal types id name type = none) : (types id).instanceCreated = false := by
  unfold refusal at h
  split at h
  · cases h
  · next hcreated => simpa using hcreated

/-- Defining a property keeps the invariant. -/
theorem defineProperty_kept (h : Kept P s.types s.instances) {id : Nat} {name : String}
    {type : FieldType} (hok : KeepsLaidOut P s (.defineProperty id name type)) :
    Kept P (defineProperty P s.types id name type) s.instances := by
  cases hrefusal : refusal s.types id name type with
  | some message =>
      have hsame : defineProperty P s.types id name type = s.types := by
        simp only [defineProperty, hrefusal]
      rw [hsame]
      exact h
  | none =>
      obtain ⟨hffi, hinstances⟩ := hok hrefusal
      have hcreated := not_created_of_refusal hrefusal
      obtain ⟨hfields, hffi', hother⟩ := defineProperty_frame (P := P) hrefusal
      generalize defineProperty P s.types id name type = types' at hfields hffi' hother
      -- a type with an instance or an `ffi_type` is another one and does not embed this one
      have hembedded :
          ∀ b, ¬ Embeds s.types b id → ∀ c, Embeds s.types b c → types' c = s.types c :=
        fun b hb c hc => hother c fun heq => hb (heq ▸ hc)
      have hlaid :
          ∀ b, b ≠ id → ¬ Embeds s.types b id → LaidOut P s.types b → LaidOut P types' b := by
        intro b hb hembeds hlaid
        refine hlaid.congr (by rw [hother b hb]) (by rw [hother b hb]) fun c hc => ?_
        rw [shapes, shapes, hembedded b hembeds c hc]
      have hne : ∀ i ∈ s.instances, i.type ≠ id := fun i hi heq => by
        have := h.created i hi
        rw [heq, hcreated] at this
        cases this
      refine ⟨fun b => ?_, fun i hi => ?_, fun i hi => ?_, fun i hi => ?_, fun b e he => ?_⟩
      · by_cases hb : b = id
        · subst hb
          rw [hfields]
          exact nodup_setField (h.names b) name type
        · rw [hother b hb]
          exact h.names b
      · rw [hother i.type (hne i hi)]
        exact h.created i hi
      · exact hlaid i.type (hne i hi) (hinstances i hi) (h.laidOut i hi)
      · rw [hother i.type (hne i hi)]
        exact h.buffers i hi
      · have hb : b ≠ id := by
          rintro rfl
          rw [hffi', hffi] at he
          cases he
        rw [hother b hb] at he
        obtain ⟨hb', hdesc⟩ := h.described b e he
        have hembeds : ¬ Embeds s.types b id := fun hembeds => by
          obtain ⟨e', he'⟩ := hdesc.embedded hembeds
          rw [hffi] at he'
          cases he'
        refine ⟨hlaid b hb hembeds hb', ?_⟩
        refine hdesc.congr (by rw [hother b hb]) (by rw [hother b hb]) fun c hc e' he' => ?_
        rw [hembedded b hembeds c hc]
        exact he'

/-- An instance is made of a type that is laid out, in a buffer of its size. -/
theorem construct_kept (h : Kept P s.types s.instances) {id : Nat} {buffer : Option Nat}
    (hok : KeepsLaidOut P s (.construct id buffer)) :
    Kept P (construct s id buffer).types (construct s id buffer).instances := by
  unfold construct
  simp only
  split
  · next hroom =>
    have hlaid := hok hroom
    have hself : ∀ b, ((Function.update s.types id { s.types id with instanceCreated := true }) b) =
        { s.types b with
          instanceCreated := if b = id then true else (s.types b).instanceCreated } := by
      intro b
      by_cases hb : b = id
      · subst hb
        simp
      · rw [Function.update_of_ne hb, if_neg hb]
    generalize Function.update s.types id { s.types id with instanceCreated := true } = types'
      at hself
    have hext : Extends s.types types' := by
      intro b
      rw [hself b]
      refine ⟨rfl, rfl, fun hcreated => ?_, fun e he => he⟩
      simp only [hcreated, ite_self]
    change Kept P types' (s.instances ++ [⟨id, _⟩])
    refine ⟨fun b => ?_, fun i hi => ?_, fun i hi => ?_, fun i hi => ?_, fun b e he => ?_⟩
    · rw [(hext b).1]
      exact h.names b
    · rcases List.mem_append.mp hi with hi | hi
      · exact (hext i.type).2.2.1 (h.created i hi)
      · obtain rfl := List.mem_singleton.mp hi
        rw [hself id]
        exact if_pos rfl
    · rcases List.mem_append.mp hi with hi | hi
      · exact hext.laidOut (h.laidOut i hi)
      · obtain rfl := List.mem_singleton.mp hi
        exact hext.laidOut hlaid
    · rw [(hext i.type).2.1]
      rcases List.mem_append.mp hi with hi | hi
      · exact h.buffers i hi
      · obtain rfl := List.mem_singleton.mp hi
        exact hroom
    · rw [hself b] at he
      obtain ⟨hb, hdesc⟩ := h.described b e he
      exact ⟨hext.laidOut hb, hext.describes hdesc⟩
  · exact h

/-- **One call.**  A call that meets the condition keeps what is kept. -/
theorem step_kept {c : Call} (h : Kept P s.types s.instances) (hok : KeepsLaidOut P s c)
    (hstep : step P s c = some t) : Kept P t.types t.instances := by
  cases c with
  | defineProperty id name type =>
      obtain rfl := Option.some.inj hstep
      exact defineProperty_kept h hok
  | construct id buffer =>
      obtain rfl := Option.some.inj hstep
      exact construct_kept h hok
  | aType id stack =>
      obtain rfl := Option.some.inj hstep
      obtain ⟨hext, hdesc, -⟩ := aType_made stack s.types (.struct id) h.described
        fun b hb => by cases hb; exact hok
      refine ⟨fun b => ?_, fun i hi => ?_, fun i hi => hext.laidOut (h.laidOut i hi),
        fun i hi => ?_, hdesc⟩
      · rw [(hext b).1]
        exact h.names b
      · exact (hext i.type).2.2.1 (h.created i hi)
      · rw [(hext i.type).2.1]
        exact h.buffers i hi

variable (P s) in
/-- **Late fields.**  In every run whose calls meet the condition the fields of each
instance are disjoint and inside its buffer, and its `ffi_type` describes them. -/
theorem sound_of_laid_out (h : Reaches (step P) (KeepsLaidOut P) start s) : Sound P s :=
  (h.invariant (fun s => Kept P s.types s.instances) start_kept
    fun _ _ _ hs hok hstep => step_kept hs hok hstep).sound

end Run

end Recalc

/-- A pointer of 8 bytes. -/
def word : Shape := StructLayout.natural 8 (by decide)

/-- A number of four bytes. -/
def int32 : FieldType := .scalar (StructLayout.natural 4 (by decide))

/-- A struct of an integer, and another one of it and an integer. -/
def nested : Types :=
  defineProperty word (defineProperty word start.types 0 "x" int32) 1 "a" (.struct 0)

/-- An instance is made of the struct that embeds the other one. -/
theorem sound_of_laid_out_nested : ∃ s, s.instances = [⟨1, 8⟩] ∧ Sound word s := by
  have hdefine : ∀ (types : Types) id name type, (types id).ffi_type = none →
      KeepsLaidOut word ⟨types, []⟩ (.defineProperty id name type) :=
    fun types id name type hnone _ => ⟨hnone, fun _ hi => by cases hi⟩
  have hlaid : LaidOut word (defineProperty word nested 1 "y" int32) 1 := by
    have hfields : setField (nested 1).fields "y" int32 = [("a", .struct 0), ("y", int32)] := rfl
    refine laidOut_defineProperty (by decide) rfl (fun f hf => ?_) (by decide) (by decide)
    rw [hfields] at hf
    rcases List.mem_cons.mp hf with rfl | hf
    · simp [FieldType.part, FieldType.elements]
    · obtain rfl := List.mem_singleton.mp hf
      simp [int32, FieldType.part, FieldType.elements]
  have hconstruct : KeepsLaidOut word ⟨defineProperty word nested 1 "y" int32, []⟩
      (.construct 1 none) := fun _ => hlaid
  exact ⟨_, rfl, sound_of_laid_out word _ ((((Reaches.start.next
    (hdefine start.types 0 "x" int32 rfl) rfl).next
    (hdefine _ 1 "a" (.struct 0) rfl) rfl).next
    (hdefine nested 1 "y" int32 rfl) rfl).next hconstruct rfl)⟩

/-- **The embedded type grows.**  A struct of 4 bytes is embedded at 0, in front of an
integer at 4, and then gains a field. -/
theorem embedded_type_grows :
    ¬ ∀ (P : Shape) (s : State), Reaches (step P) (fun _ _ => True) start s → Sound P s := by
  intro hall
  have hsound := hall word _ (reaches_of_run_any
    [.defineProperty 0 "x" int32, .defineProperty 1 "a" (.struct 0), .defineProperty 1 "y" int32,
      .defineProperty 0 "z" int32, .construct 1 none] rfl)
  have hdisjoint := hsound.disjoint ⟨1, 8⟩ (List.mem_singleton.mpr rfl)
  revert hdisjoint
  decide

end StructTypes

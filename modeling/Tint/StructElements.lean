import Tint.StructTypes

/-!
# The elements of an `ffi_type` and the layout of a struct

Native code gets a struct by the `ffi_type` that `aType` has made of its type: an array
of pointers to the `ffi_type`s of its parts, with NULL behind them.  `aType` counts the
parts, then writes the pointers; `recalc` lays the parts out on its own.  They do not
take a field for the same parts everywhere: an array of length 0 is a pointer to the one
and an element to the other, and an array inside an array a pointer to the one and a
block of memory to the other.

* `elementArray_terminated` -- the pointers fill the array up to the NULL at its end;
* `agrees_iff_of_parts` -- the two agree on a struct if and only if they agree on the
  parts of each field and the fields are aligned as their parts are;
* `elements_agree_iff` -- the same for a struct and all that is embedded in it.

An array type comes from `ref-array`, which is not part of the repository; its type
object carries the size and the alignment it was given.
-/

namespace StructElements

open Alignment
open StructLayout (Shape)
open StructTypes (FfiType aggregate)

/-- An `ffi_type` that is not that of a struct. -/
inductive Basic
  | number (shape : Shape)
  | pointer

/-- A type object of `ref`.  A struct type has its fields in the order of `Object.keys` and
the size and the alignment that `recalc` has left. -/
inductive TypeObject
  | scalar (shape : Shape) (ffi_type : Basic)
  /-- `ArrayType(element, fixedLength)` -/
  | array (element : TypeObject) (fixedLength size alignment : Nat)
  | struct (fields : List TypeObject) (size alignment : Nat)
  /-- `refType(void)`; a pointer to the struct that has it as a field is read the same way -/
  | voidPointer
  /-- `refType(target)` -/
  | pointer (target : TypeObject)

namespace TypeObject

/-- `type.indirection` -/
def indirection : TypeObject → Nat
  | scalar _ _ => 1
  | array _ _ _ _ => 1
  | struct _ _ _ => 1
  | voidPointer => 2
  | pointer target => target.indirection + 1

/-- `type.size`, inherited by pointers. -/
def size : TypeObject → Nat
  | scalar shape _ => shape.size
  | array _ _ size _ => size
  | struct _ size _ => size
  | voidPointer => 0
  | pointer target => target.size

/-- `type.alignment`, inherited by pointers; 0 stands for undefined. -/
def alignment : TypeObject → Nat
  | scalar shape _ => shape.alignment
  | array _ _ _ alignment => alignment
  | struct _ _ alignment => alignment
  | voidPointer => 0
  | pointer target => target.alignment

/-- `type.type` and `type.fixedLength`, inherited by pointers. -/
def elements : TypeObject → Option (TypeObject × Nat)
  | scalar _ _ => none
  | array element fixedLength _ _ => some (element, fixedLength)
  | struct _ _ _ => none
  | voidPointer => none
  | pointer target => target.elements

end TypeObject

/-! ## `recalc` -/

/-- What `recalc` works on: `offset` of each field, and what `addType` was called with and
where it put that. -/
structure Layout where
  size : Nat
  alignment : Nat
  offsets : List Nat
  placed : List (Nat × TypeObject)

section Recalc

-- `ref.sizeof.pointer` and `ref.alignof.pointer`
variable (P : Shape)

/-- The size that `addType` uses. -/
def usedSize (type : TypeObject) : Nat := if type.indirection = 1 then type.size else P.size

/-- The alignment that `addType` uses. -/
def usedAlignment (type : TypeObject) : Nat :=
  if type.indirection = 1 then type.alignment else P.alignment

/-- The first loop of `recalc`: a field's part in the alignment of the struct. -/
def fieldAlignment (type : TypeObject) : Nat :=
  if type.indirection > 1 then P.alignment
  else if type.alignment = 0 then P.alignment else type.alignment

/-- The first loop. -/
def structAlignment (fields : List TypeObject) : Nat :=
  fields.foldl (fun alignment f => max alignment (fieldAlignment P f)) 0

/-- `addType`: the offset and the struct after it; none if the assertion fails, as it does
where an alignment is undefined. -/
def addType (l : Layout) (type : TypeObject) : Option (Nat × Layout) :=
  let align := usedAlignment P type
  if align = 0 then none
  else
    let offset := l.size + (align - l.size % align) % align
    some (offset,
      { l with size := offset + usedSize P type, placed := l.placed ++ [(offset, type)] })

/-- `addType` for the remaining elements of an array. -/
def addElements (element : TypeObject) : Nat → Layout → Option Layout
  | 0, l => some l
  | n + 1, l => (addType P l element).bind fun r => addElements element n r.2

/-- One turn of the second loop of `recalc`: `fixedLength` may be 0. -/
def addField (l : Layout) (type : TypeObject) : Option Layout :=
  match type.elements with
  | some (element, fixedLength) =>
      (addType P l element).bind fun r =>
        (addElements P element (fixedLength - 1) r.2).map fun l =>
          { l with offsets := l.offsets ++ [r.1] }
  | none => (addType P l type).map fun r => { r.2 with offsets := r.2.offsets ++ [r.1] }

/-- The second loop. -/
def place : List TypeObject → Layout → Option Layout
  | [], l => some l
  | f :: rest, l => (addField P l f).bind (place rest)

/-- `recalc` -/
def recalc (fields : List TypeObject) : Option Layout :=
  (place P fields ⟨0, structAlignment P fields, [], []⟩).map fun l =>
    let left := l.size % l.alignment
    { l with size := if left > 0 then l.size + (l.alignment - left) else l.size }

end Recalc

/-! ## `aType` -/

/-- The buffer for the pointers, NULL as `none`, and whether a write went outside it. -/
structure Elements where
  slots : List (Option FfiType)
  outside : Bool

/-- `elements.writePointer(pointer, index * ref.sizeof.pointer)` -/
def writePointer (e : Elements) (index : Nat) (pointer : Option FfiType) : Elements :=
  if index < e.slots.length then { e with slots := e.slots.set index pointer }
  else { e with outside := true }

/-- What `aType` reads of a field: `fixedLength` and `aType(field.type.type)`, if it has
them, and `aType(field.type)`. -/
structure Field where
  elements : Option (Nat × FfiType)
  whole : FfiType

/-- The first pass: `undefined` is not greater than 0. -/
def numElements (fields : List Field) : Nat :=
  fields.foldl
    (fun n f =>
      match f.elements with
      | some (fixedLength, _) => if fixedLength > 0 then n + fixedLength else n + 1
      | none => n + 1)
    0

/-- The writes for an array; `s` is the index and the buffer. -/
def writeElements (ffi_type_ptr : FfiType) : Nat → Nat × Elements → Nat × Elements
  | 0, s => s
  | n + 1, s => writeElements ffi_type_ptr n (s.1 + 1, writePointer s.2 s.1 (some ffi_type_ptr))

/-- One turn of the second pass. -/
def writeField (s : Nat × Elements) (f : Field) : Nat × Elements :=
  match f.elements with
  | some (fixedLength, element) =>
      if fixedLength > 0 then writeElements element fixedLength s
      else (s.1 + 1, writePointer s.2 s.1 (some f.whole))
  | none => (s.1 + 1, writePointer s.2 s.1 (some f.whole))

section AType

-- what is in a new buffer
variable (garbage : Nat → Option FfiType)

/-- The array of the pointers for these fields. -/
def elementArray (fields : List Field) : Elements :=
  let slots := (List.range (numElements fields + 1)).map garbage
  let s := fields.foldl writeField (0, ⟨slots, false⟩)
  writePointer s.2 s.1 none

/-- The pointers that libffi finds: those in front of the first NULL. -/
def upToNull : List (Option FfiType) → List FfiType
  | some e :: rest => e :: upToNull rest
  | _ => []

/-- The `ffi_type` of a struct with this array, as libffi reads it. -/
def structOf (e : Elements) : FfiType := .struct (upToNull e.slots)

/-- The type of libffi for a basic type. -/
def Basic.ffi : Basic → FfiType
  | number shape => .basic shape
  | pointer => .pointer

mutual

/-- `aType` -/
def aType : TypeObject → FfiType
  | .scalar _ ffi_type => ffi_type.ffi
  | .array _ _ _ _ => .pointer
  | .struct fields _ _ => structOf (elementArray garbage (readFields fields))
  | .voidPointer => .pointer
  | .pointer _ => .pointer
  termination_by structural type => type

/-- `fixedLength` and `aType(type.type)`. -/
def aElement : TypeObject → Option (Nat × FfiType)
  | .scalar _ _ => none
  | .array element fixedLength _ _ => some (fixedLength, aType element)
  | .struct _ _ _ => none
  | .voidPointer => none
  | .pointer target => aElement target
  termination_by structural type => type

/-- What is read of the fields. -/
def readFields : List TypeObject → List Field
  | [] => []
  | f :: rest => ⟨aElement f, aType f⟩ :: readFields rest
  termination_by structural fields => fields

end

end AType

/-! ## The array of the pointers -/

/-- The pointers that are written for a field. -/
def Field.pointers (f : Field) : List FfiType :=
  match f.elements with
  | some (n + 1, element) => List.replicate (n + 1) element
  | some (0, _) => [f.whole]
  | none => [f.whole]

/-- These pointers are written, and there is room for so many more. -/
def Written (done : List FfiType) (room : Nat) (s : Nat × Elements) : Prop :=
  s.1 = done.length ∧ s.2.outside = false ∧
    ∃ rest, s.2.slots = done.map some ++ rest ∧ rest.length = room

/-- One more pointer is written. -/
theorem written_snoc {done : List FfiType} {room : Nat} {s : Nat × Elements}
    (h : Written done (room + 1) s) (e : FfiType) :
    Written (done ++ [e]) room (s.1 + 1, writePointer s.2 s.1 (some e)) := by
  obtain ⟨hindex, hinside, rest, hslots, hroom⟩ := h
  obtain ⟨old, rest, rfl⟩ := List.exists_cons_of_length_eq_add_one hroom
  have hlt : s.1 < s.2.slots.length := by
    rw [hslots, hindex]
    simp
  refine ⟨by simp [hindex], by simp [writePointer, hlt, hinside], rest, ?_, Nat.succ.inj hroom⟩
  rw [writePointer, if_pos hlt, hslots, hindex]
  simp

/-- Elements are written one after the other. -/
theorem written_elements {done : List FfiType} {n room : Nat} {s : Nat × Elements}
    (h : Written done (n + room) s) (e : FfiType) :
    Written (done ++ List.replicate n e) room (writeElements e n s) := by
  induction n generalizing done s with
  | zero =>
      rw [Nat.zero_add] at h
      simpa [writeElements] using h
  | succ n ih =>
      have hroom : Written done (n + room + 1) s := by rwa [Nat.add_right_comm] at h
      have hrest := ih (written_snoc hroom e)
      rwa [List.append_assoc, List.singleton_append, ← List.replicate_succ] at hrest

/-- The elements of a field are written one after the other. -/
theorem written_field {done : List FfiType} {room : Nat} {s : Nat × Elements} (f : Field)
    (h : Written done (f.pointers.length + room) s) :
    Written (done ++ f.pointers) room (writeField s f) := by
  obtain ⟨_ | ⟨_ | n, element⟩, whole⟩ := f
  · exact written_snoc (by rwa [Nat.add_comm] at h) whole
  · exact written_snoc (by rwa [Nat.add_comm] at h) whole
  · apply written_elements
    simpa [Field.pointers] using h

/-- So are the elements of all fields. -/
theorem written_fields {fields : List Field} {done : List FfiType} {room : Nat}
    {s : Nat × Elements} (h : Written done ((fields.flatMap Field.pointers).length + room) s) :
    Written (done ++ fields.flatMap Field.pointers) room (fields.foldl writeField s) := by
  induction fields generalizing done s with
  | nil =>
      rw [List.flatMap_nil, List.length_nil, Nat.zero_add] at h
      simpa using h
  | cons f rest ih =>
      rw [List.flatMap_cons, List.length_append, Nat.add_assoc] at h
      have hrest := ih (written_field f h)
      rwa [List.append_assoc, ← List.flatMap_cons] at hrest

/-- The first pass counts what the second one writes. -/
theorem numElements_eq (fields : List Field) :
    numElements fields = (fields.flatMap Field.pointers).length := by
  have hcount : ∀ n, fields.foldl
      (fun n f =>
        match f.elements with
        | some (fixedLength, _) => if fixedLength > 0 then n + fixedLength else n + 1
        | none => n + 1)
      n = n + (fields.flatMap Field.pointers).length := by
    induction fields with
    | nil => exact fun n => rfl
    | cons f rest ih =>
        intro n
        rw [List.foldl_cons, ih, List.flatMap_cons, List.length_append, ← Nat.add_assoc]
        congr 1
        obtain ⟨_ | ⟨_ | k, element⟩, whole⟩ := f
        · rfl
        · rfl
        · simp [Field.pointers]
  rw [numElements, hcount, Nat.zero_add]

/-- **A terminated array.**  All writes go into the buffer, its last slot is NULL, and the
pointers in front of the first NULL are as many as the slots but one. -/
structure Terminated (e : Elements) : Prop where
  inside : e.outside = false
  last : e.slots.getLast? = some none
  count : (upToNull e.slots).length = e.slots.length - 1

theorem upToNull_append (l : List FfiType) : upToNull (l.map some ++ [none]) = l := by
  induction l with
  | nil => rfl
  | cons e l ih => rw [List.map_cons, List.cons_append, upToNull, ih]

/-- What is in the array in the end. -/
theorem elementArray_eq (garbage : Nat → Option FfiType) (fields : List Field) :
    elementArray garbage fields =
      ⟨(fields.flatMap Field.pointers).map some ++ [none], false⟩ := by
  have hstart : Written [] ((fields.flatMap Field.pointers).length + 1)
      (0, ⟨(List.range (numElements fields + 1)).map garbage, false⟩) :=
    ⟨rfl, rfl, _, rfl, by simp [numElements_eq]⟩
  obtain ⟨hindex, hinside, rest, hslots, hroom⟩ := written_fields hstart
  obtain ⟨old, rfl⟩ := List.length_eq_one_iff.mp hroom
  rw [List.nil_append] at hindex hslots
  rw [elementArray, writePointer, if_pos (by rw [hslots, hindex]; simp), hslots, hindex, hinside]
  simp

/-- **The pointers fill the array**, whatever the fields are. -/
theorem elementArray_terminated (garbage : Nat → Option FfiType) (fields : List Field) :
    Terminated (elementArray garbage fields) := by
  rw [elementArray_eq]
  constructor
  · rfl
  · simp
  · rw [upToNull_append]
    simp

/-! ## Leaves -/

/-- What is left when structs are taken apart: a part with its `ffi_type`, its size and its
alignment, or the block that an array is inside another array. -/
inductive Leaf
  | plain (ffi_type : Basic) (size alignment : Nat)
  | array (size alignment : Nat)

namespace TypeObject

/-- What a field is laid out as: so many of such a part. -/
def part (type : TypeObject) : TypeObject :=
  match type.elements with
  | some (element, _) => element
  | none => type

/-- How many parts a field is laid out as. -/
def count (type : TypeObject) : Nat :=
  match type.elements with
  | some (_, fixedLength) => max 1 fixedLength
  | none => 1

end TypeObject

section Leaves

variable (P : Shape)

/-- The size of a basic type. -/
def Basic.size : Basic → Nat
  | number shape => shape.size
  | pointer => P.size

/-- The alignment of a basic type. -/
def Basic.alignment : Basic → Nat
  | number shape => shape.alignment
  | pointer => P.alignment

/-- The leaf for a pointer. -/
abbrev Leaf.pointer : Leaf := .plain .pointer P.size P.alignment

mutual

/-- The leaves of an `ffi_type`. -/
def ffiLeaves : FfiType → List Leaf
  | .basic shape => [.plain (.number shape) shape.size shape.alignment]
  | .pointer => [.pointer P]
  | .struct elements => elementLeaves elements

/-- The leaves of all elements. -/
def elementLeaves : List FfiType → List Leaf
  | [] => []
  | e :: es => ffiLeaves e ++ elementLeaves es

end

mutual

/-- The leaves of what `addType` is called with.  An array without a length is a pointer. -/
def typeLeaves : TypeObject → List Leaf
  | .scalar shape ffi_type => [.plain ffi_type shape.size shape.alignment]
  | .array _ fixedLength size alignment =>
      if fixedLength = 0 then [.plain .pointer size alignment] else [.array size alignment]
  | .struct fields _ _ => fieldLeaves fields
  | .voidPointer => [.pointer P]
  | .pointer _ => [.pointer P]
  termination_by structural type => type

/-- The leaves of the elements, as many of them as `addType` is called for. -/
def arrayLeaves : TypeObject → Option (List Leaf)
  | .scalar _ _ => none
  | .array element fixedLength _ _ =>
      some (List.replicate (max 1 fixedLength) (typeLeaves element)).flatten
  | .struct _ _ _ => none
  | .voidPointer => none
  | .pointer target => arrayLeaves target
  termination_by structural type => type

/-- The leaves of the fields. -/
def fieldLeaves : List TypeObject → List Leaf
  | [] => []
  | f :: rest => (arrayLeaves f).getD (typeLeaves f) ++ fieldLeaves rest
  termination_by structural fields => fields

end

/-- **The two agree** on a struct with these fields: the array of the pointers is
terminated, and the `ffi_type` has the leaves of the types that `addType` was called with,
in their order, and the size and the alignment that `recalc` has computed. -/
structure ElementsAgree (garbage : Nat → Option FfiType) (fields : List TypeObject)
    (l : Layout) : Prop where
  terminated : Terminated (elementArray garbage (readFields garbage fields))
  leaves : ffiLeaves P (structOf (elementArray garbage (readFields garbage fields))) =
    l.placed.flatMap fun p => typeLeaves P p.2
  shape : FfiType.shape P (structOf (elementArray garbage (readFields garbage fields))) =
    (l.size, l.alignment)

/-- A struct type is as `recalc` has left it. -/
def LaidOut : TypeObject → Prop
  | .struct fields size alignment =>
      ∃ l, recalc P fields = some l ∧ l.size = size ∧ l.alignment = alignment
  | _ => True

/-- `aType` and `recalc` agree on a struct type. -/
def Agrees (garbage : Nat → Option FfiType) : TypeObject → Prop
  | .struct fields _ _ => ∀ l, recalc P fields = some l → ElementsAgree P garbage fields l
  | _ => True

/-- A part that both take for the same: a scalar whose `ffi_type` has its size and its
alignment, an array only without a length and held as a pointer. -/
def PartAgrees : TypeObject → Prop
  | .scalar shape ffi_type =>
      ffi_type.size P = shape.size ∧ ffi_type.alignment P = shape.alignment
  | .array _ fixedLength size alignment =>
      fixedLength = 0 ∧ size = P.size ∧ alignment = P.alignment
  | _ => True

/-- A field that both take for the same parts.  If its length is 0, its element has to be a
pointer. -/
def FieldAgrees (f : TypeObject) : Prop :=
  match f.elements with
  | some (element, 0) => typeLeaves P element = [.pointer P]
  | _ => PartAgrees P f.part

/-- No field is aligned more than all parts are, and no part more than all fields. -/
def AlignmentsAgree (fields : List TypeObject) : Prop :=
  (∀ f ∈ fields, ∃ g ∈ fields, fieldAlignment P f ≤ usedAlignment P g.part) ∧
    ∀ g ∈ fields, ∃ f ∈ fields, usedAlignment P g.part ≤ fieldAlignment P f

/-- The fields of a struct type agree. -/
def FieldsAgree : TypeObject → Prop
  | .struct fields _ _ => (∀ f ∈ fields, FieldAgrees P f) ∧ AlignmentsAgree P fields
  | _ => True

end Leaves

/-- What a type is laid out with: itself and the parts of its fields, as these are. -/
inductive Embeds : TypeObject → TypeObject → Prop
  | refl (t : TypeObject) : Embeds t t
  | field {fields : List TypeObject} {f s : TypeObject} {size alignment : Nat} (hf : f ∈ fields)
      (h : Embeds f.part s) : Embeds (.struct fields size alignment) s

/-! ## Induction over type objects -/

/-- A property of all type objects, by the fields of the structs. -/
theorem TypeObject.induct {motive : TypeObject → Prop}
    (scalar : ∀ shape ffi_type, motive (.scalar shape ffi_type))
    (array : ∀ element fixedLength size alignment, motive element →
      motive (.array element fixedLength size alignment))
    (struct : ∀ fields size alignment, (∀ f ∈ fields, motive f) →
      motive (.struct fields size alignment))
    (voidPointer : motive .voidPointer)
    (pointer : ∀ target, motive target → motive (.pointer target)) : ∀ t, motive t
  | .scalar shape ffi_type => scalar shape ffi_type
  | .array element _ _ _ =>
      array _ _ _ _ (induct scalar array struct voidPointer pointer element)
  | .struct _ _ _ =>
      struct _ _ _ fun f _ => induct scalar array struct voidPointer pointer f
  | .voidPointer => voidPointer
  | .pointer target => pointer _ (induct scalar array struct voidPointer pointer target)

/-- The type object of a struct. -/
def TypeObject.isStruct : TypeObject → Bool
  | struct _ _ _ => true
  | _ => false

theorem TypeObject.part_pointer (target : TypeObject) :
    (pointer target).part = target.part ∨ (pointer target).part = pointer target := by
  cases h : target.elements with
  | none => exact Or.inr (by simp [part, elements, h])
  | some e => exact Or.inl (by simp [part, elements, h])

/-- A property of all type objects, by the parts that the fields of the structs are laid
out as. -/
theorem TypeObject.induct_part {motive : TypeObject → Prop}
    (other : ∀ t, t.isStruct = false → motive t)
    (struct : ∀ fields size alignment, (∀ f ∈ fields, motive f.part) →
      motive (.struct fields size alignment)) (t : TypeObject) : motive t := by
  have hboth : motive t ∧ motive t.part := by
    induction t using TypeObject.induct with
    | scalar shape ffi_type => exact ⟨other _ rfl, other _ rfl⟩
    | array element fixedLength size alignment ih => exact ⟨other _ rfl, ih.1⟩
    | struct fields size alignment ih =>
        have hstruct := struct fields size alignment fun f hf => (ih f hf).2
        exact ⟨hstruct, hstruct⟩
    | voidPointer => exact ⟨other _ rfl, other _ rfl⟩
    | pointer target ih =>
        refine ⟨other _ rfl, ?_⟩
        obtain hpart | hpart := part_pointer target
        · rw [hpart]
          exact ih.2
        · rw [hpart]
          exact other _ rfl
  exact hboth.1

/-! ## What `recalc` has laid out -/

/-- The parts of a field. -/
def TypeObject.parts (f : TypeObject) : List TypeObject := List.replicate f.count f.part

section Added

variable {P : Shape}

/-- `addType` has been called with these types. -/
structure Added (P : Shape) (types : List TypeObject) (l l' : Layout) : Prop where
  placed : l'.placed.map Prod.snd = l.placed.map Prod.snd ++ types
  size : l'.size = types.foldl (fun n t => alignUp n (usedAlignment P t) + usedSize P t) l.size
  alignment : l'.alignment = l.alignment
  aligned : ∀ t ∈ types, usedAlignment P t ≠ 0

theorem Added.refl (l : Layout) : Added P [] l l :=
  ⟨by simp, rfl, rfl, by simp⟩

/-- Parts are added one after the other. -/
theorem Added.trans {types types' : List TypeObject} {l l' l'' : Layout}
    (h : Added P types l l') (h' : Added P types' l' l'') : Added P (types ++ types') l l'' where
  placed := by rw [h'.placed, h.placed, List.append_assoc]
  size := by rw [h'.size, h.size, List.foldl_append]
  alignment := h'.alignment.trans h.alignment
  aligned := by
    intro t ht
    rcases List.mem_append.mp ht with ht | ht
    · exact h.aligned t ht
    · exact h'.aligned t ht

/-- Adding a type adds it. -/
theorem added_addType {l : Layout} {type : TypeObject} {r : Nat × Layout}
    (h : addType P l type = some r) : Added P [type] l r.2 := by
  simp only [addType] at h
  split at h
  · cases h
  · next halign =>
      obtain rfl := Option.some.inj h
      exact ⟨by simp, rfl, rfl, by simpa using halign⟩

/-- Adding an array adds its elements. -/
theorem added_addElements {n : Nat} {l l' : Layout} {element : TypeObject}
    (h : addElements P element n l = some l') : Added P (List.replicate n element) l l' := by
  induction n generalizing l with
  | zero =>
      obtain rfl := Option.some.inj h
      exact Added.refl l
  | succ n ih =>
      obtain ⟨r, hr, hrest⟩ := Option.bind_eq_some_iff.mp h
      exact (added_addType hr).trans (ih hrest)

/-- A turn lays out the parts of the field. -/
theorem added_addField {l l' : Layout} {f : TypeObject} (h : addField P l f = some l') :
    Added P f.parts l l' := by
  unfold addField at h
  split at h
  · next element fixedLength helements =>
      obtain ⟨r, hr, hrest⟩ := Option.bind_eq_some_iff.mp h
      obtain ⟨l₁, hl₁, rfl⟩ := Option.map_eq_some_iff.mp hrest
      have hcount : f.count = 1 + (fixedLength - 1) := by
        simp only [TypeObject.count, helements]
        omega
      have hadded := (added_addType hr).trans (added_addElements hl₁)
      rw [TypeObject.parts, hcount, TypeObject.part, helements, List.replicate_add]
      exact ⟨hadded.placed, hadded.size, hadded.alignment, hadded.aligned⟩
  · next helements =>
      obtain ⟨r, hr, rfl⟩ := Option.map_eq_some_iff.mp h
      have hadded := added_addType hr
      rw [TypeObject.parts, TypeObject.count, TypeObject.part, helements]
      exact ⟨hadded.placed, hadded.size, hadded.alignment, hadded.aligned⟩

/-- Placing the fields adds their parts. -/
theorem added_place {fields : List TypeObject} {l l' : Layout} (h : place P fields l = some l') :
    Added P (fields.flatMap TypeObject.parts) l l' := by
  induction fields generalizing l with
  | nil =>
      obtain rfl := Option.some.inj h
      exact Added.refl l
  | cons f rest ih =>
      obtain ⟨l₁, hl₁, hrest⟩ := Option.bind_eq_some_iff.mp h
      exact (added_addField hl₁).trans (ih hrest)

/-- **What `recalc` computes**: the parts of the fields in their order, one behind the other,
and padding behind them. -/
theorem recalc_spec {fields : List TypeObject} {l : Layout} (h : recalc P fields = some l) :
    l.placed.map Prod.snd = fields.flatMap TypeObject.parts ∧
      l.alignment = structAlignment P fields ∧
      l.size = alignUp ((fields.flatMap TypeObject.parts).foldl
        (fun n t => alignUp n (usedAlignment P t) + usedSize P t) 0) l.alignment ∧
      ∀ t ∈ fields.flatMap TypeObject.parts, usedAlignment P t ≠ 0 := by
  obtain ⟨l₁, hl₁, rfl⟩ := Option.map_eq_some_iff.mp h
  have hadded := added_place hl₁
  refine ⟨hadded.placed, hadded.alignment, ?_, hadded.aligned⟩
  rw [← hadded.size]
  rcases Nat.eq_zero_or_pos l₁.alignment with hzero | hpos
  · simp [hzero, alignUp, padding]
  · exact StructLayout.final_padding l₁.size hpos

end Added

/-! ## The two side by side -/

section Compare

variable {P : Shape} {garbage : Nat → Option FfiType}

/-- The `ffi_type` of a part of a field: the one of the field, if that is no array with a
positive length. -/
def ffiPart (garbage : Nat → Option FfiType) (f : TypeObject) : FfiType :=
  match f.elements with
  | some (element, _ + 1) => aType garbage element
  | _ => aType garbage f

/-- What pointers inherit from an array is read off `elements`. -/
theorem TypeObject.eq_map_elements {α : Type*} {g : TypeObject → Option α}
    {h : TypeObject × Nat → α} (hscalar : ∀ shape ffi_type, g (.scalar shape ffi_type) = none)
    (harray : ∀ element n size alignment,
      g (.array element n size alignment) = some (h (element, n)))
    (hstruct : ∀ fields size alignment, g (.struct fields size alignment) = none)
    (hvoid : g .voidPointer = none) (hpointer : ∀ target, g (.pointer target) = g target)
    (t : TypeObject) : g t = t.elements.map h := by
  induction t using TypeObject.induct with
  | scalar shape ffi_type => exact hscalar shape ffi_type
  | array element n size alignment ih => exact harray element n size alignment
  | struct fields size alignment ih => exact hstruct fields size alignment
  | voidPointer => exact hvoid
  | pointer target ih =>
      rw [hpointer, ih]
      rfl

theorem aElement_eq (t : TypeObject) :
    aElement garbage t = t.elements.map fun e => (e.2, aType garbage e.1) :=
  TypeObject.eq_map_elements (fun _ _ => rfl) (fun _ _ _ _ => rfl) (fun _ _ _ => rfl) rfl
    (fun _ => rfl) t

theorem arrayLeaves_eq (t : TypeObject) :
    arrayLeaves P t =
      t.elements.map fun e => (List.replicate (max 1 e.2) (typeLeaves P e.1)).flatten :=
  TypeObject.eq_map_elements (fun _ _ => rfl) (fun _ _ _ _ => rfl) (fun _ _ _ => rfl) rfl
    (fun _ => rfl) t

/-- Behind a pointer to an array there is a pointer in the `ffi_type`. -/
theorem aType_of_elements {t : TypeObject} (h : t.elements ≠ none) :
    aType garbage t = .pointer := by
  cases t with
  | scalar shape ffi_type => exact absurd rfl h
  | array element fixedLength size alignment => rfl
  | struct fields size alignment => exact absurd rfl h
  | voidPointer => rfl
  | pointer target => rfl

/-- A field has as many pointers as elements. -/
theorem pointers_eq (f : TypeObject) :
    (Field.mk (aElement garbage f) (aType garbage f)).pointers =
      List.replicate f.count (ffiPart garbage f) := by
  rw [aElement_eq]
  unfold Field.pointers TypeObject.count ffiPart
  cases f.elements with
  | none => rfl
  | some e =>
      obtain ⟨element, _ | n⟩ := e
      · rfl
      · have hcount : max 1 (n + 1) = n + 1 := Nat.max_eq_right (Nat.le_add_left 1 n)
        simp only [Option.map_some, hcount]

/-- The pointers of all fields. -/
theorem readFields_pointers (fields : List TypeObject) :
    (readFields garbage fields).flatMap Field.pointers =
      fields.flatMap fun f => List.replicate f.count (ffiPart garbage f) := by
  induction fields with
  | nil => rfl
  | cons f rest ih => rw [readFields, List.flatMap_cons, List.flatMap_cons, pointers_eq, ih]

/-- What libffi finds in the array. -/
theorem upToNull_elementArray (fields : List TypeObject) :
    upToNull (elementArray garbage (readFields garbage fields)).slots =
      fields.flatMap fun f => List.replicate f.count (ffiPart garbage f) := by
  rw [elementArray_eq, upToNull_append, readFields_pointers]

theorem elementLeaves_eq (es : List FfiType) : elementLeaves P es = es.flatMap (ffiLeaves P) := by
  induction es with
  | nil => rfl
  | cons e es ih => rw [elementLeaves, List.flatMap_cons, ih]

/-- The leaves that native code gets. -/
theorem ffiLeaves_elementArray (fields : List TypeObject) :
    ffiLeaves P (structOf (elementArray garbage (readFields garbage fields))) =
      fields.flatMap fun f =>
        (List.replicate f.count (ffiLeaves P (ffiPart garbage f))).flatten := by
  rw [structOf, ffiLeaves, upToNull_elementArray, elementLeaves_eq, List.flatMap_assoc]
  simp only [List.flatMap_replicate]

/-- The leaves that are laid out. -/
theorem fieldLeaves_eq (fields : List TypeObject) :
    fieldLeaves P fields =
      fields.flatMap fun f => (List.replicate f.count (typeLeaves P f.part)).flatten := by
  induction fields with
  | nil => rfl
  | cons f rest ih =>
      rw [fieldLeaves, List.flatMap_cons, ih, arrayLeaves_eq]
      congr 1
      unfold TypeObject.count TypeObject.part
      cases f.elements with
      | none => simp
      | some e => rfl

/-- The leaves of what was placed are those of the fields. -/
theorem placed_leaves {fields : List TypeObject} {l : Layout} (h : recalc P fields = some l) :
    (l.placed.flatMap fun p => typeLeaves P p.2) = fieldLeaves P fields := by
  have hplaced := (recalc_spec h).1
  rw [fieldLeaves_eq, ← List.flatMap_map Prod.snd (typeLeaves P) l.placed, hplaced,
    List.flatMap_assoc]
  simp only [TypeObject.parts, List.flatMap_replicate]

/-! ### Lists of leaves -/

/-- Longer pieces are longer together. -/
theorem length_flatMap_le {α β : Type*} {l : List α} {f g : α → List β}
    (h : ∀ a ∈ l, (f a).length ≤ (g a).length) :
    (l.flatMap f).length ≤ (l.flatMap g).length := by
  induction l with
  | nil => exact Nat.le_refl _
  | cons a l ih =>
      have hrest := ih fun b hb => h b (List.mem_cons_of_mem _ hb)
      have ha := h a List.mem_cons_self
      simp only [List.flatMap_cons, List.length_append]
      omega

/-- If no piece is longer than the one it stands against, the pieces are equal one by one. -/
theorem flatMap_eq_iff {α β : Type*} {l : List α} {f g : α → List β}
    (h : ∀ a ∈ l, (f a).length ≤ (g a).length) :
    l.flatMap f = l.flatMap g ↔ ∀ a ∈ l, f a = g a := by
  induction l with
  | nil => simp
  | cons a l ih =>
      have hl : ∀ b ∈ l, (f b).length ≤ (g b).length := fun b hb => h b (List.mem_cons_of_mem _ hb)
      rw [List.forall_mem_cons, ← ih hl, List.flatMap_cons, List.flatMap_cons]
      constructor
      · intro heq
        have hlength := congrArg List.length heq
        have ha := h a List.mem_cons_self
        have hrest := length_flatMap_le hl
        simp only [List.length_append] at hlength
        exact List.append_inj heq (by omega)
      · intro hall
        rw [hall.1, hall.2]

/-- The length of one piece over and over. -/
theorem length_flatten_replicate {α : Type*} (n : Nat) (a : List α) :
    (List.replicate n a).flatten.length = n * a.length := by
  induction n with
  | zero => simp
  | succ n ih =>
      rw [List.replicate_succ, List.flatten_cons, List.length_append, ih, Nat.succ_mul,
        Nat.add_comm]

/-- Pieces that agree over and over agree. -/
theorem flatten_replicate_inj {α : Type*} {n : Nat} {a b : List α} (hn : 0 < n) :
    (List.replicate n a).flatten = (List.replicate n b).flatten ↔ a = b := by
  constructor
  · intro heq
    have hlength := congrArg List.length heq
    rw [length_flatten_replicate, length_flatten_replicate] at hlength
    obtain ⟨n, rfl⟩ := Nat.exists_eq_add_one.mpr hn
    rw [List.replicate_succ, List.replicate_succ, List.flatten_cons, List.flatten_cons] at heq
    exact (List.append_inj heq (Nat.eq_of_mul_eq_mul_left hn hlength)).1
  · intro heq
    rw [heq]

theorem TypeObject.count_pos (f : TypeObject) : 0 < f.count := by
  unfold count
  split
  · omega
  · exact Nat.one_pos

/-! ### Sizes and alignments -/

/-- An aggregate takes the greatest alignment. -/
theorem aggregate_eq (es : List FfiType) (size alignment : Nat) :
    aggregate P es (size, alignment) =
      ((es.map (FfiType.shape P)).foldl (fun n p => alignUp n p.2 + p.1) size,
        (es.map (FfiType.shape P)).foldl (fun a p => max a p.2) alignment) := by
  induction es generalizing size alignment with
  | nil => rfl
  | cons e es ih => rw [aggregate, ih, List.map_cons, List.foldl_cons, List.foldl_cons]

/-- Elements without leaves take no room. -/
theorem aggregate_of_no_leaves {es : List FfiType}
    (hes : ∀ e ∈ es, ffiLeaves P e = [] → e.shape P = (0, 0))
    (h : elementLeaves P es = []) (size alignment : Nat) :
    aggregate P es (size, alignment) = (size, alignment) := by
  induction es with
  | nil => rfl
  | cons e es ih =>
      rw [elementLeaves, List.append_eq_nil_iff] at h
      rw [List.forall_mem_cons] at hes
      rw [aggregate, hes.1 h.1]
      simpa [alignUp, padding] using ih hes.2 h.2

/-- An aggregate with one pointer for a leaf has the shape of a pointer. -/
theorem aggregate_of_pointer_leaf {es : List FfiType}
    (hes : ∀ e ∈ es, (ffiLeaves P e = [] → e.shape P = (0, 0)) ∧
      (ffiLeaves P e = [.pointer P] → e.shape P = (P.size, P.alignment)))
    (h : elementLeaves P es = [.pointer P]) :
    aggregate P es (0, 0) = (P.size, P.alignment) := by
  induction es with
  | nil => cases h
  | cons e es ih =>
      rw [List.forall_mem_cons] at hes
      rw [aggregate]
      obtain ⟨hnil, hrest⟩ | ⟨hone, hrest⟩ := List.append_eq_singleton_iff.mp h
      · rw [hes.1.1 hnil]
        simpa [alignUp, padding] using ih hes.2 hrest
      · rw [hes.1.2 hone, alignUp_of_dvd (Nat.dvd_zero P.alignment), Nat.zero_add, Nat.zero_max]
        exact aggregate_of_no_leaves (fun e he => (hes.2 e he).1) hrest _ _

/-- An `ffi_type` with a pointer as its only leaf has the shape of a pointer, and one
without leaves has none. -/
theorem shape_of_leaves : ∀ e : FfiType, (ffiLeaves P e = [] → e.shape P = (0, 0)) ∧
    (ffiLeaves P e = [.pointer P] → e.shape P = (P.size, P.alignment))
  | .basic shape => by simp [ffiLeaves]
  | .pointer => by simp [ffiLeaves, FfiType.shape]
  | .struct es => by
      have hes := fun e (_ : e ∈ es) => shape_of_leaves e
      constructor
      · intro h
        have haggregate := aggregate_of_no_leaves (fun e he => (hes e he).1) h 0 0
        simp [FfiType.shape, haggregate, alignUp, padding]
      · intro h
        have haggregate := aggregate_of_pointer_leaf hes h
        simp [FfiType.shape, haggregate, alignUp_of_dvd P.dvd]

/-- The size and the alignment that `addType` uses. -/
def used (P : Shape) (t : TypeObject) : Nat × Nat := (usedSize P t, usedAlignment P t)

/-- The maximum of a list is the value it starts from or a member. -/
theorem foldl_max_mem (l : List Nat) (a : Nat) : l.foldl max a = a ∨ l.foldl max a ∈ l := by
  induction l generalizing a with
  | nil => exact Or.inl rfl
  | cons b l ih =>
      rw [List.foldl_cons]
      obtain h | h := ih (max a b)
      · rw [h]
        obtain ha | hb := max_choice a b
        · exact Or.inl ha
        · exact Or.inr (List.mem_cons.mpr (Or.inl hb))
      · exact Or.inr (List.mem_cons_of_mem _ h)

/-- No member is greater than the maximum. -/
theorem le_foldl_max_of_mem {l : List Nat} {b : Nat} (h : b ∈ l) (a : Nat) :
    b ≤ l.foldl max a := by
  induction l generalizing a with
  | nil => simp at h
  | cons c l ih =>
      rw [List.foldl_cons]
      rcases List.mem_cons.mp h with rfl | h
      · exact (le_max_right a b).trans (StructLayout.le_foldl_max l (max a b))
      · exact ih h (max a c)

/-- One list's greatest number is not above that of another one. -/
theorem foldl_max_le_iff {α : Type*} {l : List α} {f g : α → Nat} :
    (l.map f).foldl max 0 ≤ (l.map g).foldl max 0 ↔ ∀ a ∈ l, ∃ b ∈ l, f a ≤ g b := by
  constructor
  · intro hle a ha
    have hfa := (le_foldl_max_of_mem (List.mem_map_of_mem ha) 0).trans hle
    obtain hzero | hmem := foldl_max_mem (l.map g) 0
    · rw [hzero] at hfa
      exact ⟨a, ha, hfa.trans (Nat.zero_le _)⟩
    · obtain ⟨b, hb, hgb⟩ := List.mem_map.mp hmem
      exact ⟨b, hb, hgb ▸ hfa⟩
  · intro hall
    obtain hzero | hmem := foldl_max_mem (l.map f) 0
    · rw [hzero]
      exact Nat.zero_le _
    · obtain ⟨a, ha, hfa⟩ := List.mem_map.mp hmem
      obtain ⟨b, hb, hle⟩ := hall a ha
      rw [← hfa]
      exact hle.trans (le_foldl_max_of_mem (List.mem_map_of_mem hb) 0)

/-- The condition on the alignments is that the greatest ones are equal. -/
theorem alignmentsAgree_iff (fields : List TypeObject) :
    AlignmentsAgree P fields ↔
      structAlignment P fields = (fields.map fun f => usedAlignment P f.part).foldl max 0 := by
  rw [structAlignment, ← List.foldl_map, le_antisymm_iff, foldl_max_le_iff, foldl_max_le_iff]
  rfl

/-- Fields that are aligned as their parts are. -/
theorem alignmentsAgree_of_eq {fields : List TypeObject}
    (h : ∀ f ∈ fields, fieldAlignment P f = usedAlignment P f.part) : AlignmentsAgree P fields :=
  ⟨fun f hf => ⟨f, hf, (h f hf).le⟩, fun f hf => ⟨f, hf, (h f hf).ge⟩⟩

/-- The greatest alignment of an array is the one of its element. -/
theorem foldl_max_replicate (t : TypeObject) (n a : Nat) :
    (List.replicate (n + 1) (used P t)).foldl (fun a p => max a p.2) a =
      max a (usedAlignment P t) := by
  induction n generalizing a with
  | zero => rfl
  | succ n ih => rw [List.replicate_succ, List.foldl_cons, ih, used, max_assoc, max_self]

/-- The greatest alignment of all parts is the one of the fields. -/
theorem foldl_max_parts (fields : List TypeObject) (a : Nat) :
    ((fields.flatMap TypeObject.parts).map (used P)).foldl (fun a p => max a p.2) a =
      (fields.map fun f => usedAlignment P f.part).foldl max a := by
  induction fields generalizing a with
  | nil => rfl
  | cons f rest ih =>
      rw [List.flatMap_cons, List.map_append, List.foldl_append, ih, List.map_cons, List.foldl_cons]
      congr 1
      rw [TypeObject.parts, List.map_replicate]
      obtain ⟨n, hn⟩ := Nat.exists_eq_add_one.mpr f.count_pos
      rw [hn, foldl_max_replicate]

/-- What libffi computes where it takes the parts for what `recalc` takes them for. -/
theorem shape_elementArray {fields : List TypeObject}
    (h : ∀ f ∈ fields, FfiType.shape P (ffiPart garbage f) = used P f.part) :
    FfiType.shape P (structOf (elementArray garbage (readFields garbage fields))) =
      (alignUp ((fields.flatMap TypeObject.parts).foldl
          (fun n t => alignUp n (usedAlignment P t) + usedSize P t) 0)
        ((fields.map fun f => usedAlignment P f.part).foldl max 0),
        (fields.map fun f => usedAlignment P f.part).foldl max 0) := by
  have hshapes : (fields.flatMap fun f => List.replicate f.count (ffiPart garbage f)).map
      (FfiType.shape P) = (fields.flatMap TypeObject.parts).map (used P) := by
    rw [List.map_flatMap, List.map_flatMap]
    apply List.flatMap_congr
    intro f hf
    rw [TypeObject.parts, List.map_replicate, List.map_replicate, h f hf]
  rw [structOf, FfiType.shape, upToNull_elementArray, aggregate_eq, hshapes, foldl_max_parts,
    List.foldl_map]
  rfl

/-! ### One part and one field -/

/-- What is known of the parts of a struct's fields: if they are structs the two agree on
them, and they have leaves. -/
structure Known (P : Shape) (garbage : Nat → Option FfiType) (t : TypeObject) : Prop where
  agrees : t.isStruct = true → ffiLeaves P (aType garbage t) = typeLeaves P t ∧
    FfiType.shape P (aType garbage t) = (t.size, t.alignment)
  leaves_ne : usedAlignment P t ≠ 0 → typeLeaves P t ≠ []

/-- Both sides see the same leaves of a part exactly if it agrees. -/
theorem part_leaves_iff {t : TypeObject} (h : Known P garbage t) :
    ffiLeaves P (aType garbage t) = typeLeaves P t ↔ PartAgrees P t := by
  cases t with
  | scalar shape ffi_type =>
      cases ffi_type with
      | number shape' => simp [aType, Basic.ffi, ffiLeaves, typeLeaves, PartAgrees, Basic.size,
          Basic.alignment]
      | pointer => simp [aType, Basic.ffi, ffiLeaves, typeLeaves, PartAgrees, Basic.size,
          Basic.alignment]
  | array element fixedLength size alignment =>
      by_cases hlength : fixedLength = 0
      · simp [aType, ffiLeaves, typeLeaves, PartAgrees, hlength, eq_comm]
      · simp [aType, ffiLeaves, typeLeaves, PartAgrees, hlength]
  | struct fields size alignment => simp [PartAgrees, (h.agrees rfl).1]
  | voidPointer => simp [aType, ffiLeaves, typeLeaves, PartAgrees]
  | pointer target => simp [aType, ffiLeaves, typeLeaves, PartAgrees]

/-- A pointer has the shape of a pointer. -/
theorem used_pointer (target : TypeObject) :
    used P (.pointer target) = (P.size, P.alignment) := by
  have hpos : 0 < target.indirection := by
    cases target <;> simp [TypeObject.indirection]
  have htwo : (TypeObject.pointer target).indirection ≠ 1 := by
    rw [TypeObject.indirection]
    omega
  rw [used, usedSize, usedAlignment, if_neg htwo, if_neg htwo]

/-- A part with the same leaves has the same shape. -/
theorem part_shape {t : TypeObject} (h : Known P garbage t)
    (hleaves : ffiLeaves P (aType garbage t) = typeLeaves P t) :
    FfiType.shape P (aType garbage t) = used P t := by
  have hagrees := (part_leaves_iff h).mp hleaves
  cases t with
  | scalar shape ffi_type =>
      have hshape : FfiType.shape P ffi_type.ffi = (ffi_type.size P, ffi_type.alignment P) := by
        cases ffi_type with
        | number shape' => rfl
        | pointer => rfl
      rw [aType, hshape, hagrees.1, hagrees.2]
      rfl
  | array element fixedLength size alignment =>
      obtain ⟨-, rfl, rfl⟩ := hagrees
      rfl
  | struct fields size alignment => exact (h.agrees rfl).2
  | voidPointer => rfl
  | pointer target =>
      rw [used_pointer]
      rfl

/-- libffi never sees more leaves of a part. -/
theorem part_length {t : TypeObject} (h : Known P garbage t) :
    (ffiLeaves P (aType garbage t)).length ≤ (typeLeaves P t).length := by
  cases t with
  | scalar shape ffi_type =>
      cases ffi_type with
      | number shape' => exact Nat.le_refl 1
      | pointer => exact Nat.le_refl 1
  | array element fixedLength size alignment =>
      rw [typeLeaves]
      split
      · exact Nat.le_refl 1
      · exact Nat.le_refl 1
  | struct fields size alignment => rw [(h.agrees rfl).1]
  | voidPointer => exact Nat.le_refl 1
  | pointer target => exact Nat.le_refl 1

/-- A type that has a pointer as its only leaf is laid out as one. -/
theorem used_of_pointer_leaf {t : TypeObject} (h : Known P garbage t)
    (hleaf : typeLeaves P t = [.pointer P]) : used P t = (P.size, P.alignment) := by
  cases t with
  | scalar shape ffi_type =>
      obtain ⟨-, hsize, halignment⟩ := Leaf.plain.inj (List.singleton_inj.mp hleaf)
      exact Prod.ext hsize halignment
  | array element fixedLength size alignment =>
      rw [typeLeaves] at hleaf
      split at hleaf
      · obtain ⟨-, hsize, halignment⟩ := Leaf.plain.inj (List.singleton_inj.mp hleaf)
        exact Prod.ext hsize halignment
      · cases List.singleton_inj.mp hleaf
  | struct fields size alignment =>
      obtain ⟨hleaves, hshape⟩ := h.agrees rfl
      have hpointer := (shape_of_leaves _).2 (hleaves.trans hleaf)
      exact hshape.symm.trans hpointer
  | voidPointer => rfl
  | pointer target => exact used_pointer target

/-- The parts of a field that `aType` and `recalc` have.  For a length of 0 they are not the
same ones. -/
theorem field_cases (garbage : Nat → Option FfiType) (f : TypeObject) :
    (∃ element, f.elements = some (element, 0) ∧ ffiPart garbage f = .pointer ∧
        f.part = element) ∨
      (ffiPart garbage f = aType garbage f.part ∧ ∀ element, f.elements ≠ some (element, 0)) := by
  cases h : f.elements with
  | none => exact Or.inr ⟨by simp only [ffiPart, TypeObject.part, h], by simp⟩
  | some e =>
      obtain ⟨element, _ | n⟩ := e
      · refine Or.inl ⟨element, rfl, ?_, by simp only [TypeObject.part, h]⟩
        simp only [ffiPart, h]
        exact aType_of_elements (by simp [h])
      · exact Or.inr ⟨by simp only [ffiPart, TypeObject.part, h], by simp⟩

/-- A field without an empty array agrees if its part does. -/
theorem fieldAgrees_of_length {f : TypeObject} (h : ∀ element, f.elements ≠ some (element, 0)) :
    FieldAgrees P f ↔ PartAgrees P f.part := by
  unfold FieldAgrees
  split
  · next element helements => exact absurd helements (h element)
  · exact Iff.rfl

/-- Both sides see the same leaves of a field exactly if it agrees. -/
theorem field_leaves_iff {f : TypeObject} (h : Known P garbage f.part) :
    ffiLeaves P (ffiPart garbage f) = typeLeaves P f.part ↔ FieldAgrees P f := by
  obtain ⟨element, helements, hffi, hpart⟩ | ⟨hffi, hlength⟩ := field_cases garbage f
  · rw [hffi, hpart, ffiLeaves, FieldAgrees, helements]
    exact eq_comm
  · rw [hffi, part_leaves_iff h, fieldAgrees_of_length hlength]

/-- A field with the same leaves has the same shape. -/
theorem field_shape {f : TypeObject} (h : Known P garbage f.part)
    (hleaves : ffiLeaves P (ffiPart garbage f) = typeLeaves P f.part) :
    FfiType.shape P (ffiPart garbage f) = used P f.part := by
  obtain ⟨element, helements, hffi, hpart⟩ | ⟨hffi, hlength⟩ := field_cases garbage f
  · rw [hffi, ffiLeaves] at hleaves
    rw [hffi, used_of_pointer_leaf h hleaves.symm]
    rfl
  · rw [hffi] at hleaves ⊢
    exact part_shape h hleaves

/-- libffi never sees more leaves of a field. -/
theorem field_length {f : TypeObject} (h : Known P garbage f.part)
    (haligned : usedAlignment P f.part ≠ 0) :
    (ffiLeaves P (ffiPart garbage f)).length ≤ (typeLeaves P f.part).length := by
  obtain ⟨element, helements, hffi, hpart⟩ | ⟨hffi, hlength⟩ := field_cases garbage f
  · rw [hffi, ffiLeaves, List.length_singleton]
    exact List.length_pos_iff.mpr (h.leaves_ne haligned)
  · rw [hffi]
    exact part_length h

/-! ### One struct -/

theorem part_mem_parts {fields : List TypeObject} {f : TypeObject} (hf : f ∈ fields) :
    f.part ∈ fields.flatMap TypeObject.parts := by
  refine List.mem_flatMap.mpr ⟨f, hf, ?_⟩
  rw [TypeObject.parts, List.mem_replicate]
  exact ⟨f.count_pos.ne', rfl⟩

/-- **A struct agrees if and only if its fields do**, where the structs among the parts of
its fields agree. -/
theorem agrees_iff_of_parts {fields : List TypeObject} {l : Layout}
    (hl : recalc P fields = some l) (hknown : ∀ f ∈ fields, Known P garbage f.part) :
    ElementsAgree P garbage fields l ↔
      (∀ f ∈ fields, FieldAgrees P f) ∧ AlignmentsAgree P fields := by
  obtain ⟨-, halignment, hsize, haligned⟩ := recalc_spec hl
  have hlength : ∀ f ∈ fields,
      (List.replicate f.count (ffiLeaves P (ffiPart garbage f))).flatten.length ≤
        (List.replicate f.count (typeLeaves P f.part)).flatten.length := by
    intro f hf
    rw [length_flatten_replicate, length_flatten_replicate]
    exact Nat.mul_le_mul_left _
      (field_length (hknown f hf) (haligned _ (part_mem_parts hf)))
  have hleaves : (ffiLeaves P (structOf (elementArray garbage (readFields garbage fields))) =
        l.placed.flatMap fun p => typeLeaves P p.2) ↔ ∀ f ∈ fields, FieldAgrees P f := by
    rw [placed_leaves hl, ffiLeaves_elementArray, fieldLeaves_eq, flatMap_eq_iff hlength]
    refine forall₂_congr fun f hf => ?_
    rw [flatten_replicate_inj f.count_pos, field_leaves_iff (hknown f hf)]
  have hshape : (∀ f ∈ fields, FieldAgrees P f) →
      (FfiType.shape P (structOf (elementArray garbage (readFields garbage fields))) =
        (l.size, l.alignment) ↔ AlignmentsAgree P fields) := by
    intro hfields
    have hparts := shape_elementArray fun f hf =>
      field_shape (hknown f hf) ((field_leaves_iff (hknown f hf)).mpr (hfields f hf))
    rw [hparts, alignmentsAgree_iff, hsize, halignment]
    constructor
    · intro heq
      exact (congrArg Prod.snd heq).symm
    · intro heq
      rw [heq]
  constructor
  · intro h
    have hfields := hleaves.mp h.leaves
    exact ⟨hfields, (hshape hfields).mp h.shape⟩
  · intro h
    exact ⟨elementArray_terminated _ _, hleaves.mpr h.1, (hshape h.1).mpr h.2⟩

/-! ### All that is embedded -/

/-- What a struct embeds is itself and what its fields embed. -/
theorem embeds_struct_iff {fields : List TypeObject} {size alignment : Nat}
    {p : TypeObject → Prop} :
    (∀ s, Embeds (.struct fields size alignment) s → p s) ↔
      p (.struct fields size alignment) ∧ ∀ f ∈ fields, ∀ s, Embeds f.part s → p s := by
  constructor
  · intro h
    exact ⟨h _ (.refl _), fun f hf s hs => h s (.field hf hs)⟩
  · intro h s hs
    cases hs with
    | refl => exact h.1
    | field hf hs => exact h.2 _ hf s hs

/-- Anything else embeds itself alone. -/
theorem embeds_other_iff {t : TypeObject} (ht : t.isStruct = false) {p : TypeObject → Prop} :
    (∀ s, Embeds t s → p s) ↔ p t := by
  constructor
  · intro h
    exact h t (.refl t)
  · intro h s hs
    cases hs with
    | refl => exact h
    | field hf hs => cases ht

/-- A type that `addType` accepts has leaves. -/
theorem leaves_ne_nil {t : TypeObject} (hlaid : ∀ s, Embeds t s → LaidOut P s)
    (haligned : usedAlignment P t ≠ 0) : typeLeaves P t ≠ [] := by
  induction t using TypeObject.induct_part with
  | other t ht =>
      cases t with
      | scalar shape ffi_type => simp [typeLeaves]
      | array element fixedLength size alignment =>
          rw [typeLeaves]
          split
          · simp
          · simp
      | struct fields size alignment => cases ht
      | voidPointer => simp [typeLeaves]
      | pointer target => simp [typeLeaves]
  | struct fields size alignment ih =>
      rw [embeds_struct_iff] at hlaid
      obtain ⟨⟨l, hl, -, halignment⟩, hparts⟩ := hlaid
      obtain ⟨-, hmax, -, hused⟩ := recalc_spec hl
      cases fields with
      | nil =>
          have hzero : alignment = 0 := halignment.symm.trans hmax
          exact absurd hzero haligned
      | cons f rest =>
          have hf : f ∈ f :: rest := List.mem_cons_self
          have hne := ih f hf (hparts f hf) (hused _ (part_mem_parts hf))
          obtain ⟨n, hn⟩ := Nat.exists_eq_add_one.mpr f.count_pos
          rw [typeLeaves, fieldLeaves_eq, List.flatMap_cons, hn, List.replicate_succ,
            List.flatten_cons]
          simp [hne]

/-- What agrees is known. -/
theorem known_of_agrees {t : TypeObject} (hlaid : ∀ s, Embeds t s → LaidOut P s)
    (hagrees : Agrees P garbage t) : Known P garbage t := by
  refine ⟨?_, leaves_ne_nil hlaid⟩
  intro hstruct
  cases t with
  | struct fields size alignment =>
      obtain ⟨l, hl, rfl, rfl⟩ := hlaid _ (.refl _)
      have h := hagrees l hl
      refine ⟨?_, h.shape⟩
      rw [typeLeaves, ← placed_leaves hl]
      exact h.leaves
  | scalar shape ffi_type => cases hstruct
  | array element fixedLength size alignment => cases hstruct
  | voidPointer => cases hstruct
  | pointer target => cases hstruct

/-- **The elements and the layout.**  For a type whose struct types are laid out, `aType` and
`recalc` agree on each struct type that is embedded in it, itself included, if and only if
the fields of each of them agree. -/
theorem elements_agree_iff (P : Shape) (garbage : Nat → Option FfiType) (t : TypeObject)
    (hlaid : ∀ s, Embeds t s → LaidOut P s) :
    (∀ s, Embeds t s → Agrees P garbage s) ↔ ∀ s, Embeds t s → FieldsAgree P s := by
  induction t using TypeObject.induct_part with
  | other t ht =>
      rw [embeds_other_iff ht, embeds_other_iff ht]
      cases t with
      | struct fields size alignment => cases ht
      | scalar shape ffi_type => exact Iff.rfl
      | array element fixedLength size alignment => exact Iff.rfl
      | voidPointer => exact Iff.rfl
      | pointer target => exact Iff.rfl
  | struct fields size alignment ih =>
      rw [embeds_struct_iff] at hlaid ⊢
      rw [embeds_struct_iff]
      obtain ⟨⟨l, hl, -, -⟩, hparts⟩ := hlaid
      have hbelow : (∀ f ∈ fields, ∀ s, Embeds f.part s → Agrees P garbage s) ↔
          ∀ f ∈ fields, ∀ s, Embeds f.part s → FieldsAgree P s :=
        forall₂_congr fun f hf => ih f hf (hparts f hf)
      rw [hbelow]
      refine and_congr_left fun hfields => ?_
      have hagrees := hbelow.mpr hfields
      have hiff := agrees_iff_of_parts hl fun f hf =>
        known_of_agrees (hparts f hf) (hagrees f hf _ (.refl _))
      constructor
      · intro h
        exact hiff.mp (h l hl)
      · intro h l' hl'
        obtain rfl := Option.some.inj (hl.symm.trans hl')
        exact hiff.mpr h

end Compare

/-! ## Structs that agree and structs that do not -/

section Examples

open StructLayout (natural)

/-- A scalar whose `ffi_type` is its own. -/
abbrev number (shape : Shape) : TypeObject := .scalar shape (.number shape)

/-- `struct { int8; int16[3]; struct { int32; void * } }` with pointers of eight bytes. -/
abbrev nested (int8 int16 int32 : Shape) : TypeObject :=
  .struct [number int8, .array (number int16) 3 6 2, .struct [number int32, .voidPointer] 16 8] 24 8

/-- Scalars, an array with a length and a nested struct are what both take them for. -/
theorem elements_agree_iff_nested :
    Agrees (natural 8 (by decide)) (fun _ => none)
      (nested (natural 1 (by decide)) (natural 2 (by decide)) (natural 4 (by decide))) := by
  refine (elements_agree_iff _ _ _ ?_).mpr ?_ _ (.refl _)
  · refine embeds_struct_iff.mpr ⟨⟨_, rfl, rfl, rfl⟩, ?_⟩
    simp only [List.forall_mem_cons]
    refine ⟨(embeds_other_iff rfl).mpr trivial, (embeds_other_iff rfl).mpr trivial, ?_, by simp⟩
    refine embeds_struct_iff.mpr ⟨⟨_, rfl, rfl, rfl⟩, ?_⟩
    simp only [List.forall_mem_cons]
    exact ⟨(embeds_other_iff rfl).mpr trivial, (embeds_other_iff rfl).mpr trivial, by simp⟩
  · refine embeds_struct_iff.mpr ⟨⟨?_, alignmentsAgree_of_eq ?_⟩, ?_⟩
    · simp only [List.forall_mem_cons]
      exact ⟨⟨rfl, rfl⟩, ⟨rfl, rfl⟩, trivial, by simp⟩
    · simp only [List.forall_mem_cons]
      exact ⟨rfl, rfl, rfl, by simp⟩
    · simp only [List.forall_mem_cons]
      refine ⟨(embeds_other_iff rfl).mpr trivial, (embeds_other_iff rfl).mpr trivial, ?_, by simp⟩
      refine embeds_struct_iff.mpr ⟨⟨?_, alignmentsAgree_of_eq ?_⟩, ?_⟩
      · simp only [List.forall_mem_cons]
        exact ⟨⟨rfl, rfl⟩, trivial, by simp⟩
      · simp only [List.forall_mem_cons]
        exact ⟨rfl, rfl, by simp⟩
      · simp only [List.forall_mem_cons]
        exact ⟨(embeds_other_iff rfl).mpr trivial, (embeds_other_iff rfl).mpr trivial, by simp⟩

/-- `struct { int8; int8[] }`, where the array is carried as a pointer. -/
abbrev emptyTail (int8 : Shape) : TypeObject :=
  .struct [number int8, .array (number int8) 0 8 8] 8 8

/-- **An array without a length.**  It is a pointer in the `ffi_type`, and one element in
the layout. -/
theorem elements_disagree_on_empty_array :
    ¬ ∀ (P : Shape) (garbage : Nat → Option FfiType) (fields : List TypeObject)
      (size alignment : Nat),
      (∀ s, Embeds (.struct fields size alignment) s → LaidOut P s) →
        Agrees P garbage (.struct fields size alignment) := by
  intro hall
  have hlaid : ∀ s, Embeds (emptyTail (natural 1 (by decide))) s →
      LaidOut (natural 8 (by decide)) s := by
    rw [embeds_struct_iff]
    refine ⟨⟨_, rfl, rfl, rfl⟩, ?_⟩
    simp only [List.forall_mem_cons]
    exact ⟨(embeds_other_iff rfl).mpr trivial, (embeds_other_iff rfl).mpr trivial, by simp⟩
  have hagrees := hall _ (fun _ => none) _ _ _ hlaid _ rfl
  exact absurd hagrees.shape (by decide)

end Examples

end StructElements

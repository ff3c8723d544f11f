import Tint.Alignment
import Mathlib.Data.List.Induction
import Mathlib.Data.Nat.Basic
import Mathlib.Logic.Function.Basic

/-!
# The layout of struct types

`defineProperty` adds a field to a struct type and `recalc` lays all fields out
again: the first loop finds the alignment of the struct, the second one places
the fields, and the size is padded at the end.

The loops run over `Object.keys(struct.fields)`, which lists names that are
array indices first, in ascending order.  And `recalc` takes a field for an
array if its type object has a `fixedLength`; a pointer type inherits all
properties of the type it points to, so a pointer to an array is laid out like
the array itself.

* `c_layout_of_ordered` -- accepted names that are enumerated in the order of
  their definition and types that are not pointers to arrays give the C layout,
  and a struct with the C layout has its names in that order;
* `c_layout_broken_by_index` -- the fields `b` and `0` are laid out the other
  way round.

An array type comes from `ref-array`, which is not part of the repository, so
its type object carries whatever size and alignment it was given.  A struct
type is taken as it is when it becomes a field of another, and no instance has
been made of it yet.
-/

namespace StructLayout

open Alignment

/-- What C promises about a type: a positive size that is a multiple of a
positive alignment. -/
structure Shape where
  size : Nat
  alignment : Nat
  size_pos : 0 < size
  alignment_pos : 0 < alignment
  dvd : alignment ∣ size

/-- A type object of `ref`. -/
inductive TypeObject
  /-- a scalar, or a struct type as its own `recalc` has left it -/
  | plain (shape : Shape)
  /-- `ArrayType(element, fixedLength)` -/
  | array (element : TypeObject) (fixedLength size alignment : Nat)
      (length_pos : 0 < fixedLength)
  /-- `refType(void)`, or a pointer to a struct type that is not complete -/
  | voidPointer
  /-- `refType(target)` -/
  | pointer (target : TypeObject)

namespace TypeObject

/-- `type.indirection` -/
def indirection : TypeObject → Nat
  | plain _ => 1
  | array _ _ _ _ _ => 1
  | voidPointer => 2
  | pointer target => target.indirection + 1

/-- `type.size`, inherited by pointers. -/
def size : TypeObject → Nat
  | plain shape => shape.size
  | array _ _ size _ _ => size
  | voidPointer => 0
  | pointer target => target.size

/-- `type.alignment`, inherited by pointers; 0 stands for undefined. -/
def alignment : TypeObject → Nat
  | plain shape => shape.alignment
  | array _ _ _ alignment _ => alignment
  | voidPointer => 0
  | pointer target => target.alignment

/-- `type.type` and `type.fixedLength`, inherited by pointers. -/
def elements : TypeObject → Option (TypeObject × Nat)
  | plain _ => none
  | array element fixedLength _ _ _ => some (element, fixedLength)
  | voidPointer => none
  | pointer target => target.elements

end TypeObject

/-- A struct type.  `fields` is in the order of definition. -/
structure StructType where
  fields : List (String × TypeObject)
  offset : String → Nat
  size : Nat
  alignment : Nat

/-- A struct type without fields. -/
def StructType.empty : StructType := ⟨[], fun _ => 0, 0, 0⟩

/-- The array index that a property name spells, if any: digits without a
leading zero, below 2^32 - 1. -/
def arrayIndex (name : String) : Option Nat :=
  let digits := name.toList
  let n := digits.foldl (fun n c => 10 * n + (c.toNat - '0'.toNat)) 0
  if digits ≠ [] ∧ digits.all Char.isDigit ∧ (digits.head? = some '0' → digits.length = 1) ∧
      n < 4294967295 then
    some n
  else none

/-- The field's name is an array index. -/
def isIndexed (field : String × TypeObject) : Bool := (arrayIndex field.1).isSome

/-- The order of array indices. -/
def indexLE (a b : String × TypeObject) : Bool :=
  decide ((arrayIndex a.1).getD 0 ≤ (arrayIndex b.1).getD 0)

/-- The fields in the order of `Object.keys`: array indices first, ascending,
then the other names as they were defined. -/
def enumerate (fields : List (String × TypeObject)) : List (String × TypeObject) :=
  (fields.filter isIndexed).mergeSort indexLE ++ fields.filter fun f => !isIndexed f

section Recalc

-- `ref.sizeof.pointer` and `ref.alignof.pointer`
variable (P : Shape)

/-- The first loop of `recalc`: a field's part in the alignment of the struct. -/
def fieldAlignment (type : TypeObject) : Nat :=
  let alignment := if type.alignment = 0 then P.alignment else type.alignment
  if type.indirection > 1 then P.alignment else alignment

/-- `addType`: the offset and the size of the struct after it.  An alignment
that is undefined makes the offset NaN. -/
def addType (size : Nat) (type : TypeObject) : Except String (Nat × Nat) :=
  let align := if type.indirection = 1 then type.alignment else P.alignment
  if align = 0 then .error "offset should align"
  else
    let offset := size + (align - size % align) % align
    .ok (offset, offset + if type.indirection = 1 then type.size else P.size)

/-- `addType` for the remaining elements of an array. -/
def addElements (element : TypeObject) : Nat → Nat → Except String Nat
  | 0, size => .ok size
  | n + 1, size => do
      let (_, size) ← addType P size element
      addElements element n size

/-- One turn of the second loop of `recalc`. -/
def addField (size : Nat) (type : TypeObject) : Except String (Nat × Nat) :=
  match type.elements with
  | some (element, fixedLength) => do
      let (offset, size) ← addType P size element
      let size ← addElements P element (fixedLength - 1) size
      .ok (offset, size)
  | none => addType P size type

/-- The second loop of `recalc`. -/
def place : List (String × TypeObject) → (String → Nat) → Nat →
    Except String ((String → Nat) × Nat)
  | [], offset, size => .ok (offset, size)
  | (name, type) :: rest, offset, size => do
      let (o, size) ← addField P size type
      place rest (Function.update offset name o) size

/-- `recalc`. -/
def recalc (fields : List (String × TypeObject)) : Except String StructType := do
  let alignment := (enumerate fields).foldl (fun a f => max a (fieldAlignment P f.2)) 0
  let (offset, size) ← place P (enumerate fields) (fun _ => 0) 0
  let left := size % alignment
  let size := if left > 0 then size + (alignment - left) else size
  .ok ⟨fields, offset, size, alignment⟩

/-- The names that every instance has already: those of the custom prototype
and those of `Object.prototype`. -/
def reserved : List String :=
  ["constructor", "ref.buffer", "toObject", "toJSON", "inspect", "ref", "__defineGetter__",
    "__defineSetter__", "__lookupGetter__", "__lookupSetter__", "__proto__", "hasOwnProperty",
    "isPrototypeOf", "propertyIsEnumerable", "toLocaleString", "toString", "valueOf"]

/-- `defineProperty`. -/
def defineProperty (s : StructType) (name : String) (type : TypeObject) :
    Except String StructType :=
  if ¬ (type.indirection > 1 ∨ type.size > 0) then
    .error "\"type\" object must have a size greater than 0"
  else if name ∈ reserved ∨ name ∈ s.fields.map Prod.fst then
    .error ("the field \"" ++ name ++ "\" already exists in this Struct type")
  else recalc P (s.fields ++ [(name, type)])

/-- The fields defined in turn. -/
def defineAll (fields : List (String × TypeObject)) : Except String StructType :=
  fields.foldlM (fun s f => defineProperty P s f.1 f.2) StructType.empty

/-! ## The C layout -/

/-- The alignment of a type in C. -/
def TypeObject.cAlignment : TypeObject → Nat
  | .plain shape => shape.alignment
  | .array element _ _ _ _ => element.cAlignment
  | .voidPointer => P.alignment
  | .pointer _ => P.alignment

/-- The size of a type in C. -/
def TypeObject.cSize : TypeObject → Nat
  | .plain shape => shape.size
  | .array element fixedLength _ _ _ => fixedLength * element.cSize
  | .voidPointer => P.size
  | .pointer _ => P.size

/-- Each field is at the least multiple of its alignment that is not before the
end of the field before it; `pos` is where the first may start and `stop` where
the last one ends. -/
def Placed (offset : String → Nat) : Nat → List (String × TypeObject) → Nat → Prop
  | pos, [], stop => stop = pos
  | pos, (name, type) :: rest, stop =>
      IsLeast { o | type.cAlignment P ∣ o ∧ pos ≤ o } (offset name) ∧
        Placed offset (offset name + type.cSize P) rest stop

/-- **The C layout** of a list of fields. -/
structure IsCLayout (fields : List (String × TypeObject)) (s : StructType) : Prop where
  aligned : ∀ f ∈ fields, f.2.cAlignment P ∣ s.offset f.1
  disjoint : fields.Pairwise fun f g => s.offset f.1 + f.2.cSize P ≤ s.offset g.1
  alignment : s.alignment = (fields.map fun f => f.2.cAlignment P).foldl max 0
  least : ∃ stop, Placed P s.offset 0 fields stop ∧
    IsLeast { size | s.alignment ∣ size ∧ stop ≤ size } s.size

/-- An array type object states the C size and alignment of the array. -/
def TypeObject.Honest : TypeObject → Prop
  | .plain _ => True
  | .array element fixedLength size alignment _ =>
      element.Honest ∧ size = fixedLength * element.cSize P ∧ alignment = element.cAlignment P
  | .voidPointer => True
  | .pointer _ => True

/-- The type object is honest and not a pointer to an array. -/
def TypeObject.Direct (type : TypeObject) : Prop :=
  type.Honest P ∧ (type.indirection > 1 → type.elements = none)

/-- The names are enumerated in the order of definition: only smaller array
indices stand before an array index. -/
def NamesOrdered (fields : List (String × TypeObject)) : Prop :=
  fields.Pairwise fun f g => ∀ j, arrayIndex g.1 = some j → ∃ i, arrayIndex f.1 = some i ∧ i ≤ j

/-- `defineProperty` accepts the names. -/
def NamesAccepted (fields : List (String × TypeObject)) : Prop :=
  (fields.map Prod.fst).Nodup ∧ ∀ f ∈ fields, f.1 ∉ reserved

/-! ## Type objects -/

variable {P}

theorem TypeObject.indirection_pos (type : TypeObject) : 0 < type.indirection := by
  cases type <;> simp [TypeObject.indirection]

/-- Every type has a positive size in C, which is a multiple of its positive
alignment. -/
theorem TypeObject.cShape (type : TypeObject) :
    0 < type.cSize P ∧ 0 < type.cAlignment P ∧ type.cAlignment P ∣ type.cSize P := by
  induction type with
  | plain shape => exact ⟨shape.size_pos, shape.alignment_pos, shape.dvd⟩
  | array element fixedLength size alignment length_pos ih =>
      obtain ⟨hsize, halign, hdvd⟩ := ih
      exact ⟨Nat.mul_pos length_pos hsize, halign, Dvd.dvd.mul_left hdvd fixedLength⟩
  | voidPointer => exact ⟨P.size_pos, P.alignment_pos, P.dvd⟩
  | pointer target ih => exact ⟨P.size_pos, P.alignment_pos, P.dvd⟩

/-- `addType` uses the C size and alignment of an honest type. -/
theorem TypeObject.Honest.used {type : TypeObject} (h : type.Honest P) :
    (if type.indirection = 1 then type.alignment else P.alignment) = type.cAlignment P ∧
      (if type.indirection = 1 then type.size else P.size) = type.cSize P := by
  cases type with
  | plain shape => exact ⟨rfl, rfl⟩
  | array element fixedLength size alignment length_pos => exact ⟨h.2.2, h.2.1⟩
  | voidPointer => exact ⟨rfl, rfl⟩
  | pointer target =>
      have hne : target.indirection + 1 ≠ 1 := Nat.succ_ne_succ_iff.mpr target.indirection_pos.ne'
      simp only [TypeObject.indirection, hne, if_false]
      exact ⟨rfl, rfl⟩

/-- The struct's alignment takes a direct type for what it is in C. -/
theorem TypeObject.Direct.fieldAlignment {type : TypeObject} (h : type.Direct P) :
    fieldAlignment P type = type.cAlignment P := by
  have hpos := (type.cShape (P := P)).2.1
  cases type with
  | plain shape =>
      have : shape.alignment ≠ 0 := shape.alignment_pos.ne'
      simp [StructLayout.fieldAlignment, TypeObject.indirection, TypeObject.alignment, this,
        TypeObject.cAlignment]
  | array element fixedLength size alignment length_pos =>
      obtain rfl : alignment = element.cAlignment P := h.1.2.2
      have : element.cAlignment P ≠ 0 := hpos.ne'
      simp [StructLayout.fieldAlignment, TypeObject.indirection, TypeObject.alignment, this,
        TypeObject.cAlignment]
  | voidPointer =>
      simp [StructLayout.fieldAlignment, TypeObject.indirection, TypeObject.cAlignment]
  | pointer target =>
      have := target.indirection_pos
      simp [StructLayout.fieldAlignment, TypeObject.indirection, TypeObject.cAlignment, this]

/-- `defineProperty` finds a direct type large enough. -/
theorem TypeObject.Direct.sized {type : TypeObject} (h : type.Direct P) :
    type.indirection > 1 ∨ type.size > 0 := by
  have hpos := (type.cShape (P := P)).1
  cases type with
  | plain shape => exact Or.inr shape.size_pos
  | array element fixedLength size alignment length_pos =>
      refine Or.inr ?_
      rw [TypeObject.size, h.1.2.1]
      exact hpos
  | voidPointer => exact Or.inl (by decide)
  | pointer target => exact Or.inl (Nat.succ_lt_succ target.indirection_pos)

/-! ## Placing direct types -/

/-- `addType` places an honest type as C does. -/
theorem addType_honest (pos : Nat) {type : TypeObject} (h : type.Honest P) :
    addType P pos type = .ok (alignUp pos (type.cAlignment P),
      alignUp pos (type.cAlignment P) + type.cSize P) := by
  have hne : type.cAlignment P ≠ 0 := (type.cShape (P := P)).2.1.ne'
  simp [addType, h.used.1, h.used.2, hne, alignUp, padding]

/-- The elements of an array follow one another without padding. -/
theorem addElements_honest {element : TypeObject} (h : element.Honest P) (n : Nat) {pos : Nat}
    (hpos : element.cAlignment P ∣ pos) :
    addElements P element n pos = .ok (pos + n * element.cSize P) := by
  induction n generalizing pos with
  | zero => simp [addElements]
  | succ n ih =>
      have hnext : element.cAlignment P ∣ pos + element.cSize P :=
        Nat.dvd_add hpos (element.cShape (P := P)).2.2
      simp only [addElements, addType_honest pos h, alignUp_of_dvd hpos, bind, Except.bind]
      rw [ih hnext]
      congr 1
      ring

/-- A field of a direct type is placed as C does. -/
theorem addField_direct (pos : Nat) {type : TypeObject} (h : type.Direct P) :
    addField P pos type = .ok (alignUp pos (type.cAlignment P),
      alignUp pos (type.cAlignment P) + type.cSize P) := by
  cases type with
  | plain shape => exact addType_honest pos h.1
  | voidPointer => exact addType_honest pos h.1
  | pointer target =>
      have hnone : target.elements = none := h.2 (Nat.succ_lt_succ target.indirection_pos)
      simp only [addField, TypeObject.elements, hnone]
      exact addType_honest pos h.1
  | array element fixedLength size alignment length_pos =>
      have helement := (element.cShape (P := P))
      have hdvd : element.cAlignment P ∣
          alignUp pos (element.cAlignment P) + element.cSize P :=
        Nat.dvd_add (dvd_alignUp pos helement.2.1) helement.2.2
      simp only [addField, TypeObject.elements, addType_honest pos h.1.1, bind, Except.bind,
        addElements_honest h.1.1 _ hdvd, TypeObject.cAlignment, TypeObject.cSize]
      congr 2
      obtain ⟨n, rfl⟩ : ∃ n, fixedLength = n + 1 := ⟨fixedLength - 1, by omega⟩
      rw [Nat.add_sub_cancel]
      ring

/-- **The second loop.**  Direct types with different names are placed one after
the other, each at its least offset. -/
theorem place_direct {l : List (String × TypeObject)} (hdirect : ∀ f ∈ l, f.2.Direct P)
    (hnodup : (l.map Prod.fst).Nodup) (offset : String → Nat) (pos : Nat) :
    ∃ offset' stop, place P l offset pos = .ok (offset', stop) ∧
      Placed P offset' pos l stop ∧ ∀ name, name ∉ l.map Prod.fst → offset' name = offset name := by
  induction l generalizing offset pos with
  | nil => exact ⟨offset, pos, rfl, rfl, fun _ _ => rfl⟩
  | cons f rest ih =>
      obtain ⟨name, type⟩ := f
      have htype : type.Direct P := hdirect _ List.mem_cons_self
      rw [List.map_cons, List.nodup_cons] at hnodup
      obtain ⟨offset', stop, hplace, hplaced, hother⟩ :=
        ih (fun f hf => hdirect f (List.mem_cons_of_mem _ hf)) hnodup.2
          (Function.update offset name (alignUp pos (type.cAlignment P)))
          (alignUp pos (type.cAlignment P) + type.cSize P)
      have hname : offset' name = alignUp pos (type.cAlignment P) := by
        rw [hother name hnodup.1, Function.update_self]
      refine ⟨offset', stop, ?_, ⟨?_, ?_⟩, fun n hn => ?_⟩
      · simp only [place, addField_direct pos htype, bind, Except.bind, hplace]
      · rw [hname]
        exact isLeast_alignUp pos (type.cShape (P := P)).2.1
      · rw [hname]
        exact hplaced
      · rw [List.map_cons, List.mem_cons, not_or] at hn
        rw [hother n hn.2, Function.update_of_ne hn.1]

/-- No placed field starts before `pos`. -/
theorem Placed.le {offset : String → Nat} {l : List (String × TypeObject)} {pos stop : Nat}
    (h : Placed P offset pos l stop) : ∀ f ∈ l, pos ≤ offset f.1 := by
  induction l generalizing pos with
  | nil => simp
  | cons f rest ih =>
      obtain ⟨hleast, hrest⟩ := h
      intro g hg
      rcases List.mem_cons.mp hg with rfl | hg
      · exact hleast.1.2
      · have := ih hrest g hg
        have := hleast.1.2
        omega

/-- Placed fields are aligned. -/
theorem Placed.aligned {offset : String → Nat} {l : List (String × TypeObject)} {pos stop : Nat}
    (h : Placed P offset pos l stop) : ∀ f ∈ l, f.2.cAlignment P ∣ offset f.1 := by
  induction l generalizing pos with
  | nil => simp
  | cons f rest ih =>
      obtain ⟨hleast, hrest⟩ := h
      intro g hg
      rcases List.mem_cons.mp hg with rfl | hg
      · exact hleast.1.1
      · exact ih hrest g hg

/-- Placed fields lie one behind the other. -/
theorem Placed.disjoint {offset : String → Nat} {l : List (String × TypeObject)}
    {pos stop : Nat} (h : Placed P offset pos l stop) :
    l.Pairwise fun f g => offset f.1 + f.2.cSize P ≤ offset g.1 := by
  induction l generalizing pos with
  | nil => exact List.Pairwise.nil
  | cons f rest ih => exact List.pairwise_cons.mpr ⟨Placed.le h.2, ih h.2⟩

/-! ## The order of the names -/

/-- `Object.keys` lists the fields it has. -/
theorem enumerate_perm (fields : List (String × TypeObject)) :
    (enumerate fields).Perm fields :=
  ((List.mergeSort_perm _ _).append_right _).trans (List.filter_append_perm isIndexed fields)

/-- `Object.keys` lists the names in its own order. -/
theorem namesOrdered_enumerate (fields : List (String × TypeObject)) :
    NamesOrdered (enumerate fields) := by
  have hsorted : ((fields.filter isIndexed).mergeSort indexLE).Pairwise _ :=
    List.pairwise_mergeSort
    (fun a b c hab hbc => by simp only [indexLE, decide_eq_true_eq] at *; omega)
    (fun a b => by simp only [indexLE, Bool.or_eq_true, decide_eq_true_eq]; omega)
    (fields.filter isIndexed)
  refine List.pairwise_append.mpr ⟨?_, ?_, ?_⟩
  · refine hsorted.imp_of_mem fun {f g} hf _ hle j hj => ?_
    have hindexed : isIndexed f = true := (List.mem_filter.mp (List.mem_mergeSort.mp hf)).2
    obtain ⟨i, hi⟩ := Option.isSome_iff_exists.mp hindexed
    exact ⟨i, hi, by simpa [indexLE, hi, hj] using hle⟩
  · refine List.Pairwise.imp_of_mem (R := fun _ _ => True) (fun {f g} _ hg _ j hj => ?_)
      (List.pairwise_of_forall (by simp))
    simp [isIndexed, hj] at hg
  · intro f _ g hg j hj
    simp [isIndexed, hj] at hg

/-- In ordered names the array indices come first. -/
theorem NamesOrdered.filter_append {fields : List (String × TypeObject)}
    (h : NamesOrdered fields) :
    fields.filter isIndexed ++ fields.filter (fun f => !isIndexed f) = fields := by
  induction fields with
  | nil => rfl
  | cons f rest ih =>
      obtain ⟨hf, hrest⟩ := List.pairwise_cons.mp h
      cases hindexed : isIndexed f with
      | true => simpa [hindexed] using ih hrest
      | false =>
          have hnone : ∀ g ∈ rest, isIndexed g = false := by
            intro g hg
            by_contra hgi
            have hgi' : isIndexed g = true := by simpa using hgi
            obtain ⟨j, hj⟩ := Option.isSome_iff_exists.mp hgi'
            obtain ⟨i, hi, -⟩ := hf g hg j hj
            simp [isIndexed, hi] at hindexed
          have hfirst : rest.filter isIndexed = [] :=
            List.filter_eq_nil_iff.mpr fun g hg => by simp [hnone g hg]
          have hlast : rest.filter (fun g => !isIndexed g) = rest :=
            List.filter_eq_self.mpr fun g hg => by simp [hnone g hg]
          simp [hindexed, hfirst, hlast]

/-- Names in the order of `Object.keys` are left as they are. -/
theorem enumerate_eq_self {fields : List (String × TypeObject)} (h : NamesOrdered fields) :
    enumerate fields = fields := by
  have hsorted : (fields.filter isIndexed).Pairwise fun f g => indexLE f g = true := by
    refine (List.Pairwise.filter isIndexed h).imp_of_mem fun {f g} _ hg hle => ?_
    obtain ⟨j, hj⟩ := Option.isSome_iff_exists.mp (List.mem_filter.mp hg).2
    obtain ⟨i, hi, hij⟩ := hle j hj
    simpa [indexLE, hi, hj] using hij
  rw [enumerate, List.mergeSort_of_pairwise hsorted, h.filter_append]

/-! ## `recalc` -/

/-- The first loop finds the greatest alignment. -/
theorem foldl_fieldAlignment {fields : List (String × TypeObject)}
    (hdirect : ∀ f ∈ fields, f.2.Direct P) (a : Nat) :
    fields.foldl (fun a f => max a (fieldAlignment P f.2)) a =
      (fields.map fun f => f.2.cAlignment P).foldl max a := by
  induction fields generalizing a with
  | nil => rfl
  | cons f rest ih =>
      have hf := (hdirect f List.mem_cons_self).fieldAlignment
      simp only [List.foldl_cons, List.map_cons, hf]
      exact ih (fun g hg => hdirect g (List.mem_cons_of_mem _ hg)) _

/-- The greatest alignment is not zero. -/
theorem le_foldl_max (l : List Nat) (a : Nat) : a ≤ l.foldl max a := by
  induction l generalizing a with
  | nil => exact le_rfl
  | cons b l ih => exact (le_max_left a b).trans (ih (max a b))

/-- The final padding rounds up to the alignment. -/
theorem final_padding (size : Nat) {alignment : Nat} (h : 0 < alignment) :
    (if size % alignment > 0 then size + (alignment - size % alignment) else size) =
      alignUp size alignment := by
  split_ifs with hleft
  · rw [alignUp, padding_of_pos h hleft]
  · exact (alignUp_of_dvd (Nat.dvd_of_mod_eq_zero (by omega))).symm

theorem le_foldl_fieldAlignment (fields : List (String × TypeObject)) (a : Nat) :
    a ≤ fields.foldl (fun a f => max a (fieldAlignment P f.2)) a := by
  induction fields generalizing a with
  | nil => exact le_rfl
  | cons f rest ih => exact (le_max_left _ _).trans (ih _)

/-- The struct's alignment is at least that of each field. -/
theorem foldl_fieldAlignment_pos {fields : List (String × TypeObject)} (hne : fields ≠ []) :
    0 < fields.foldl (fun a f => max a (fieldAlignment P f.2)) 0 := by
  rcases fields with _ | ⟨f, rest⟩
  · exact absurd rfl hne
  · have hf : 0 < fieldAlignment P f.2 := by
      have := P.alignment_pos
      simp only [fieldAlignment]
      split_ifs <;> omega
    have := le_foldl_fieldAlignment (P := P) rest (max 0 (fieldAlignment P f.2))
    simp only [List.foldl_cons]
    omega

/-- **A struct can be nested.**  Whatever its fields are, `recalc` leaves a
struct with what C promises about its type, once its size is positive, as
`defineProperty` demands of a field. -/
theorem recalc_shape {fields : List (String × TypeObject)} {s : StructType}
    (h : recalc P fields = .ok s) (hne : fields ≠ []) :
    0 < s.alignment ∧ s.alignment ∣ s.size := by
  have hpos : 0 < (enumerate fields).foldl (fun a f => max a (fieldAlignment P f.2)) 0 :=
    foldl_fieldAlignment_pos fun hnil =>
    hne ((enumerate_perm fields).symm.trans (hnil ▸ List.Perm.refl _)).eq_nil
  simp only [recalc, bind, Except.bind] at h
  split at h
  · cases h
  · obtain rfl := Except.ok.inj h
    refine ⟨hpos, ?_⟩
    simp only [final_padding _ hpos]
    exact dvd_alignUp _ hpos

/-- A struct type as the type of a field. -/
def StructType.typeObject {fields : List (String × TypeObject)} {s : StructType}
    (h : recalc P fields = .ok s) (hne : fields ≠ []) (hsize : 0 < s.size) : TypeObject :=
  .plain ⟨s.size, s.alignment, hsize, (recalc_shape h hne).1, (recalc_shape h hne).2⟩

/-- **`recalc` on direct types.**  Ordered names and direct types get the C
layout. -/
theorem recalc_direct {fields : List (String × TypeObject)} (hne : fields ≠ [])
    (hnodup : (fields.map Prod.fst).Nodup) (hordered : NamesOrdered fields)
    (hdirect : ∀ f ∈ fields, f.2.Direct P) :
    ∃ s, recalc P fields = .ok s ∧ s.fields = fields ∧ IsCLayout P fields s := by
  obtain ⟨offset, stop, hplace, hplaced, -⟩ := place_direct hdirect hnodup (fun _ => 0) 0
  have hpos : 0 < (fields.map fun f => f.2.cAlignment P).foldl max 0 := by
    rcases fields with _ | ⟨f, rest⟩
    · exact absurd rfl hne
    · have := (f.2.cShape (P := P)).2.1
      have := le_foldl_max (rest.map fun f => f.2.cAlignment P) (max 0 (f.2.cAlignment P))
      simp only [List.map_cons, List.foldl_cons]
      omega
  refine ⟨⟨fields, offset, alignUp stop ((fields.map fun f => f.2.cAlignment P).foldl max 0),
    (fields.map fun f => f.2.cAlignment P).foldl max 0⟩, ?_, rfl, hplaced.aligned,
    hplaced.disjoint, rfl, stop, hplaced, isLeast_alignUp stop hpos⟩
  simp only [recalc, enumerate_eq_self hordered, hplace, bind, Except.bind,
    foldl_fieldAlignment hdirect, final_padding stop hpos]

/-- Defining one more field. -/
theorem defineAll_snoc (init : List (String × TypeObject)) (f : String × TypeObject) :
    defineAll P (init ++ [f]) =
      (defineAll P init).bind fun s => defineProperty P s f.1 f.2 := by
  simp only [defineAll, List.foldlM_append, List.foldlM_cons, List.foldlM_nil, bind_pure]
  rfl

/-- What a sequence of accepted definitions leaves. -/
theorem defineAll_ok {fields : List (String × TypeObject)} {s : StructType}
    (h : defineAll P fields = .ok s) :
    s.fields = fields ∧ NamesAccepted fields ∧
      (fields = [] ∧ s = .empty ∨ recalc P fields = .ok s) := by
  induction fields using List.reverseRecOn generalizing s with
  | nil =>
      obtain rfl : StructType.empty = s := Except.ok.inj h
      exact ⟨rfl, ⟨List.nodup_nil, by simp⟩, Or.inl ⟨rfl, rfl⟩⟩
  | append_singleton init f ih =>
      rw [defineAll_snoc] at h
      cases hinit : defineAll P init with
      | error e =>
          rw [hinit] at h
          cases h
      | ok s₀ =>
          rw [hinit] at h
          simp only [Except.bind] at h
          obtain ⟨hfields, ⟨hnodup, hreserved⟩, -⟩ := ih hinit
          unfold defineProperty at h
          split_ifs at h with hsize hname
          rw [hfields] at h hname
          have hs : s.fields = init ++ [f] := by
            simp only [recalc, bind, Except.bind] at h
            split at h
            · cases h
            · obtain rfl := Except.ok.inj h
              rfl
          rw [not_or] at hname
          refine ⟨hs, ⟨?_, ?_⟩, Or.inr h⟩
          · rw [List.map_append, List.nodup_append]
            refine ⟨hnodup, by simp, ?_⟩
            intro a ha b hb
            simp only [List.map_cons, List.map_nil, List.mem_singleton] at hb
            rintro rfl
            exact hname.2 (hb ▸ ha)
          · intro g hg
            rcases List.mem_append.mp hg with hg | hg
            · exact hreserved g hg
            · obtain rfl := List.mem_singleton.mp hg
              exact hname.1

/-- Accepted names and direct types are defined without an exception. -/
theorem defineAll_direct {fields : List (String × TypeObject)}
    (haccepted : NamesAccepted fields) (hordered : NamesOrdered fields)
    (hdirect : ∀ f ∈ fields, f.2.Direct P) :
    ∃ s, defineAll P fields = .ok s ∧ s.fields = fields ∧ IsCLayout P fields s := by
  induction fields using List.reverseRecOn with
  | nil =>
      refine ⟨.empty, rfl, rfl, by simp, List.Pairwise.nil, rfl, 0, rfl, ?_⟩
      exact ⟨by simp [StructType.empty], fun _ _ => Nat.zero_le _⟩
  | append_singleton init f ih =>
      obtain ⟨hnodup, hreserved⟩ := haccepted
      have hinit : (init.map Prod.fst).Nodup := by
        rw [List.map_append] at hnodup
        exact (List.nodup_append.mp hnodup).1
      obtain ⟨s₀, hs₀, hfields, -⟩ := ih
        ⟨hinit, fun g hg => hreserved g (List.mem_append_left _ hg)⟩
        (List.pairwise_append.mp hordered).1 fun g hg => hdirect g (List.mem_append_left _ hg)
      have hf : f ∈ init ++ [f] := by simp
      obtain ⟨s, hs, hsfields, hlayout⟩ := recalc_direct (by simp) hnodup hordered hdirect
      refine ⟨s, ?_, hsfields, hlayout⟩
      have hnew : f.1 ∉ init.map Prod.fst := by
        rw [List.map_append, List.nodup_append] at hnodup
        exact fun hmem => hnodup.2.2 _ hmem f.1 (by simp) rfl
      rw [defineAll_snoc, hs₀]
      simp only [Except.bind, defineProperty, (hdirect f hf).sized, not_true_eq_false, if_false,
        hfields, hreserved f hf, hnew, or_self]
      exact hs

/-! ## The order is necessary -/

/-- `addType` never moves back. -/
theorem addType_le {pos o pos' : Nat} {type : TypeObject}
    (h : addType P pos type = .ok (o, pos')) : pos ≤ o ∧ o ≤ pos' := by
  simp only [addType] at h
  split_ifs at h
  all_goals
    obtain ⟨rfl, rfl⟩ := Prod.mk.inj (Except.ok.inj h)
    omega

theorem addElements_le {element : TypeObject} {n pos pos' : Nat}
    (h : addElements P element n pos = .ok pos') : pos ≤ pos' := by
  induction n generalizing pos with
  | zero =>
      obtain rfl := Except.ok.inj h
      exact le_rfl
  | succ n ih =>
      simp only [addElements, bind, Except.bind] at h
      split at h
      · cases h
      case h_2 r hr =>
        have := addType_le hr
        have := ih h
        omega

theorem addField_le {pos o pos' : Nat} {type : TypeObject}
    (h : addField P pos type = .ok (o, pos')) : pos ≤ o ∧ o ≤ pos' := by
  unfold addField at h
  split at h
  case h_2 => exact addType_le h
  case h_1 element fixedLength _ =>
    simp only [bind, Except.bind] at h
    split at h
    · cases h
    case h_2 r hr =>
      split at h
      · cases h
      case h_2 r' hr' =>
        obtain ⟨rfl, rfl⟩ := Prod.mk.inj (Except.ok.inj h)
        have := addType_le hr
        have := addElements_le hr'
        omega

/-- The offsets ascend in the order of the second loop. -/
theorem place_ascending {l : List (String × TypeObject)} {offset offset' : String → Nat}
    {pos stop : Nat} (hnodup : (l.map Prod.fst).Nodup)
    (h : place P l offset pos = .ok (offset', stop)) :
    (∀ f ∈ l, pos ≤ offset' f.1) ∧ (l.Pairwise fun f g => offset' f.1 ≤ offset' g.1) ∧
      ∀ name, name ∉ l.map Prod.fst → offset' name = offset name := by
  induction l generalizing offset pos with
  | nil =>
      obtain ⟨rfl, rfl⟩ := Prod.mk.inj (Except.ok.inj h)
      exact ⟨by simp, List.Pairwise.nil, fun _ _ => rfl⟩
  | cons f rest ih =>
      obtain ⟨name, type⟩ := f
      rw [List.map_cons, List.nodup_cons] at hnodup
      simp only [place, bind, Except.bind] at h
      split at h
      · cases h
      case h_2 r hr =>
        obtain ⟨o, pos'⟩ := r
        have hle := addField_le hr
        obtain ⟨hlow, hpair, hother⟩ := ih hnodup.2 h
        have hname : offset' name = o := by
          rw [hother name hnodup.1, Function.update_self]
        refine ⟨?_, List.pairwise_cons.mpr ⟨?_, hpair⟩, fun n hn => ?_⟩
        · intro g hg
          rcases List.mem_cons.mp hg with rfl | hg
          · simp only [hname]
            exact hle.1
          · have := hlow g hg
            omega
        · intro g hg
          simp only [hname]
          exact hle.2.trans (hlow g hg)
        · rw [List.map_cons, List.mem_cons, not_or] at hn
          rw [hother n hn.2, Function.update_of_ne hn.1]

/-- Two members of a list stand in one order or the other. -/
theorem pairwise_or {α : Type*} {R : α → α → Prop} {l : List α} (h : l.Pairwise R) {a b : α}
    (ha : a ∈ l) (hb : b ∈ l) (hne : a ≠ b) : R a b ∨ R b a := by
  induction h with
  | nil => simp at ha
  | cons hhead _ ih =>
      rcases List.mem_cons.mp ha with rfl | ha' <;> rcases List.mem_cons.mp hb with rfl | hb'
      · exact absurd rfl hne
      · exact Or.inl (hhead b hb')
      · exact Or.inr (hhead a ha')
      · exact ih ha' hb'

/-- A struct with the C layout has its names in the order of `Object.keys`. -/
theorem namesOrdered_of_isCLayout {fields : List (String × TypeObject)} {s : StructType}
    (h : defineAll P fields = .ok s) (hlayout : IsCLayout P fields s) :
    NamesOrdered fields := by
  obtain ⟨-, ⟨hnodup, -⟩, ⟨rfl, rfl⟩ | hrecalc⟩ := defineAll_ok h
  · exact List.Pairwise.nil
  · have hperm := enumerate_perm fields
    have hascending : (enumerate fields).Pairwise fun f g => s.offset f.1 ≤ s.offset g.1 := by
      simp only [recalc, bind, Except.bind] at hrecalc
      split at hrecalc
      · cases hrecalc
      case h_2 r hr =>
        obtain rfl := Except.ok.inj hrecalc
        exact (place_ascending ((hperm.map Prod.fst).nodup_iff.mpr hnodup) hr).2.1
    refine hlayout.disjoint.imp_of_mem fun {f g} hf hg hfg => ?_
    have hlt : s.offset f.1 < s.offset g.1 := by
      have := (f.2.cShape (P := P)).1
      omega
    have hne : f ≠ g := by
      rintro rfl
      omega
    rcases pairwise_or (hascending.and (namesOrdered_enumerate fields)) (hperm.mem_iff.mpr hf)
      (hperm.mem_iff.mpr hg) hne with hlr | hrl
    · exact hlr.2
    · exact absurd hrl.1 (by omega)

/-- A pointer to an array is placed like the array. -/
theorem addField_pointer (pos : Nat) {target : TypeObject} (h : target.elements ≠ none) :
    addField P pos (.pointer target) = addField P pos target := by
  obtain ⟨e, he⟩ := Option.ne_none_iff_exists'.mp h
  simp only [addField, TypeObject.elements, he]

/-- **Struct layout.**  Fields with accepted names, enumerated in the order of
their definition, of types that are no pointers to arrays, are defined without
an exception and get the C layout.  And whatever the types are, a struct that
got the C layout has accepted names in that order. -/
theorem c_layout_of_ordered (P : Shape) (fields : List (String × TypeObject)) :
    (NamesAccepted fields → NamesOrdered fields → (∀ f ∈ fields, f.2.Direct P) →
      ∃ s, defineAll P fields = .ok s ∧ IsCLayout P fields s) ∧
    ∀ s, defineAll P fields = .ok s → IsCLayout P fields s →
      NamesAccepted fields ∧ NamesOrdered fields := by
  constructor
  · intro haccepted hordered hdirect
    obtain ⟨s, hs, -, hlayout⟩ := defineAll_direct haccepted hordered hdirect
    exact ⟨s, hs, hlayout⟩
  · intro s hs hlayout
    exact ⟨(defineAll_ok hs).2.1, namesOrdered_of_isCLayout hs hlayout⟩

end Recalc

/-- A type whose size is its alignment. -/
def natural (size : Nat) (h : 0 < size) : Shape := ⟨size, size, h, h, dvd_rfl⟩

/-- Array indices, an array, a pointer and a nested struct. -/
theorem c_layout_of_ordered_mixed :
    ∃ s, defineAll (natural 8 (by decide)) [("0", .plain (natural 1 (by decide))),
        ("10", .array (.plain (natural 2 (by decide))) 3 6 2 (by decide)),
        ("next", .voidPointer), ("x", .plain ⟨12, 4, by decide, by decide, by decide⟩)] = .ok s ∧
      IsCLayout (natural 8 (by decide)) [("0", .plain (natural 1 (by decide))),
        ("10", .array (.plain (natural 2 (by decide))) 3 6 2 (by decide)),
        ("next", .voidPointer), ("x", .plain ⟨12, 4, by decide, by decide, by decide⟩)] s := by
  refine (c_layout_of_ordered _ _).1 ⟨by decide, by decide⟩ ?_ ?_
  · simp [NamesOrdered, arrayIndex]
  · simp [TypeObject.Direct, TypeObject.Honest, TypeObject.indirection, TypeObject.elements,
      TypeObject.cSize, TypeObject.cAlignment, natural]

/-- **Array indices come first.**  The fields `b` and `0`, in this order, are
laid out with `0` in front. -/
theorem c_layout_broken_by_index :
    ¬ ∀ (P : Shape) (fields : List (String × TypeObject)), (fields.map Prod.fst).Nodup →
      (∀ f ∈ fields, f.2.Direct P) →
      ∃ s, defineAll P fields = .ok s ∧ IsCLayout P fields s := by
  intro hall
  obtain ⟨s, hs, hlayout⟩ := hall (natural 8 (by decide))
    [("b", .plain (natural 4 (by decide))), ("0", .plain (natural 4 (by decide)))] (by decide)
    (by simp [TypeObject.Direct, TypeObject.Honest, TypeObject.indirection])
  have hordered := namesOrdered_of_isCLayout hs hlayout
  simp [NamesOrdered, arrayIndex] at hordered

end StructLayout

import Tint.ByteMemory
import Tint.StructTypes

/-!
# Structs inside structs

Reading a field whose type is a struct gives an instance over a slice of the buffer; such
fields are read one inside another, to any depth.  `set` of a struct type slices the
buffer in the same way and then copies the assigned instance into the slice, to the
field's offset once more.

* `nested_set_iff` -- after an assignment the field reads as the assigned instance, and no
  byte outside the field has changed, exactly when the field lies inside the buffer and
  its offset is 0, or else the bytes at stake were there already;
* `second_field_not_set` -- a struct field behind an integer keeps what it had.
-/

namespace StructAccess

open ByteMemory
open StructTypes (Types)

/-- An instance of a struct type: its `'ref.buffer'`, of the length that the constructor
asserts. -/
structure Instance (types : Types) (id : Nat) where
  buffer : Buffer
  backed : (types id).layout.size ≤ buffer.length

/-- A field whose type is a struct type. -/
structure StructField (types : Types) (id : Nat) where
  name : String
  type : Nat
  mem : (name, .struct type) ∈ (types id).fields

/-- Struct fields one inside another. -/
inductive Path (types : Types) : Nat → Nat → Type
  | here {id : Nat} : Path types id id
  | field {a b : Nat} (f : StructField types a) (rest : Path types f.type b) : Path types a b

section Model

variable {types : Types} {a b id : Nat}

/-- `field.offset` -/
def StructField.offset (f : StructField types id) : Nat := (types id).layout.offset f.name

/-- `type.size` of the field's type -/
def StructField.size (f : StructField types id) : Nat := (types f.type).layout.size

/-- `new StructType(buffer)`; none if the assertion fails. -/
def construct (types : Types) (id : Nat) (buffer : Buffer) : Option (Instance types id) :=
  if h : (types id).layout.size ≤ buffer.length then some ⟨buffer, h⟩ else none

/-- `get` of a struct type -/
def get (types : Types) (id : Nat) (buffer : Buffer) (offset : Nat) : Option (Instance types id) :=
  construct types id (if offset > 0 then buffer.slice offset else buffer)

/-- `set` of a struct type, for a value that is an instance of it -/
def set (m : Memory) (buffer : Buffer) (offset : Nat) (value : Instance types id) : Memory :=
  value.buffer.copy m (if offset > 0 then buffer.slice offset else buffer) offset 0
    (types id).layout.size

/-- The getter that `defineProperty` makes: `ref.get(this['ref.buffer'], field.offset, type)` -/
def Instance.getField (i : Instance types id) (f : StructField types id) :
    Option (Instance types f.type) := get types f.type i.buffer f.offset

/-- The setter: `ref.set(this['ref.buffer'], field.offset, value, type)` -/
def Instance.setField (i : Instance types id) (m : Memory) (f : StructField types id)
    (value : Instance types f.type) : Memory := set m i.buffer f.offset value

/-- The instance that reading the fields leads to. -/
def Path.follow : {a b : Nat} → Path types a b → Instance types a → Option (Instance types b)
  | _, _, .here, i => some i
  | _, _, .field f rest, i => (i.getField f).bind rest.follow

/-- Where the fields lie, one in the other. -/
def Path.offset : {a b : Nat} → Path types a b → Nat
  | _, _, .here => 0
  | _, _, .field f rest => f.offset + rest.offset

/-! ## The property and the condition -/

/-- Where the field lies in memory. -/
def region (outer : Instance types a) (path : Path types a b) (f : StructField types b) : Nat :=
  outer.buffer.address + path.offset + f.offset

/-- **Set, then get.**  The field reads as the instance that was assigned, and the bytes
outside the field are what they were. -/
def SetThenGet (m : Memory) (outer : Instance types a) (path : Path types a b)
    (f : StructField types b) (value : Instance types f.type) : Prop :=
  ∃ inner, path.follow outer = some inner ∧
    (∃ read, inner.getField f = some read ∧
      bytes (inner.setField m f value) read.buffer.address f.size =
        bytes m value.buffer.address f.size) ∧
    ∀ address, ¬ (region outer path f ≤ address ∧ address < region outer path f + f.size) →
      inner.setField m f value address = m address

/-- Each struct on the way lies inside the buffer, and so does the field. -/
def Fits (outer : Instance types a) (path : Path types a b) (f : StructField types b) : Prop :=
  (path.follow outer).isSome ∧ f.size ≤ outer.buffer.length - path.offset - f.offset

/-- The assigned bytes come again after `offset` bytes and the first of them are in the field
already; and what the copy reaches behind the field is there already. -/
def AlreadyThere (m : Memory) (outer : Instance types a) (path : Path types a b)
    (f : StructField types b) (value : Instance types f.type) : Prop :=
  let source := value.buffer.address
  let target := region outer path f
  (∀ k < f.size, m (source + k) =
    if k < f.offset then m (target + k) else m (source + (k - f.offset))) ∧
  ∀ k < f.size, f.size ≤ f.offset + k →
    target + f.offset + k < outer.buffer.address + outer.buffer.length →
      m (target + f.offset + k) = m (source + k)

/-! ## Reading -/

theorem slice_zero (buffer : Buffer) : buffer.slice 0 = buffer := by
  simp [Buffer.slice]

/-- Both `get` and `set` slice the buffer. -/
theorem sliced (buffer : Buffer) (offset : Nat) :
    (if offset > 0 then buffer.slice offset else buffer) = buffer.slice offset := by
  split
  · rfl
  · next h => rw [Nat.eq_zero_of_not_pos h, slice_zero]

theorem getField_eq_some_iff {i : Instance types id} {f : StructField types id}
    {read : Instance types f.type} :
    i.getField f = some read ↔ read.buffer = i.buffer.slice f.offset := by
  rw [Instance.getField, get, sliced, construct]
  obtain ⟨buffer, backed⟩ := read
  constructor
  · intro h
    split at h
    · obtain rfl := Instance.mk.inj (Option.some.inj h)
      rfl
    · cases h
  · rintro rfl
    exact dif_pos backed

theorem getField_isSome_iff {i : Instance types id} {f : StructField types id} :
    (i.getField f).isSome ↔ f.size ≤ i.buffer.length - f.offset := by
  rw [Instance.getField, get, sliced, construct]
  split
  · next h => exact iff_of_true rfl h
  · next h => exact iff_of_false Bool.false_ne_true h

/-- **Each offset counts once**, however deep the instance lies. -/
theorem follow_buffer {outer : Instance types a} {path : Path types a b} {inner : Instance types b}
    (h : path.follow outer = some inner) :
    inner.buffer.length = outer.buffer.length - path.offset ∧
      (path.offset ≤ outer.buffer.length →
        inner.buffer.address = outer.buffer.address + path.offset) := by
  induction path with
  | here =>
      obtain rfl := Option.some.inj h
      simp [Path.offset]
  | field f rest ih =>
      obtain ⟨i, hi, hrest⟩ := Option.bind_eq_some_iff.mp h
      obtain ⟨hlength, haddress⟩ := ih hrest
      rw [getField_eq_some_iff.mp hi] at hlength haddress
      simp only [Buffer.slice, Path.offset] at hlength haddress ⊢
      refine ⟨by omega, fun hle => ?_⟩
      rw [haddress (by omega)]
      omega

/-! ## Writing -/

/-- What `set` does: it moves as many bytes as the slice has behind the offset. -/
theorem setField_eq (m : Memory) (i : Instance types id) (f : StructField types id)
    (value : Instance types f.type) :
    i.setField m f value = move m (i.buffer.address + min f.offset i.buffer.length + f.offset)
      value.buffer.address (min f.size (i.buffer.length - f.offset - f.offset)) := by
  have hbacked : f.size ≤ value.buffer.length := value.backed
  rw [Instance.setField, set, sliced, Buffer.copy]
  change (if i.buffer.length - f.offset ≤ f.offset ∨ f.size ≤ 0 then m else
    move m _ _ (min (min (f.size - 0) (i.buffer.length - f.offset - f.offset))
      (value.buffer.length - 0))) = _
  split
  · next h =>
      have hnone : min f.size (i.buffer.length - f.offset - f.offset) = 0 := by omega
      funext address
      rw [hnone, move_outside (by omega)]
  · have hall : min (min (f.size - 0) (i.buffer.length - f.offset - f.offset))
        (value.buffer.length - 0) = min f.size (i.buffer.length - f.offset - f.offset) := by omega
    rw [hall]
    rfl

/-- Bytes moved to `offset` behind where they belong: they are read where they belong, and
no others change, if the offset is 0 or they were there already. -/
theorem move_behind_iff (m : Memory) {target source size offset room : Nat} (hsize : size ≤ room) :
    (bytes (move m (target + offset) source (min size (room - offset))) target size =
        bytes m source size ∧
      ∀ address, ¬ (target ≤ address ∧ address < target + size) →
        move m (target + offset) source (min size (room - offset)) address = m address) ↔
    offset = 0 ∨
      (∀ k < size, m (source + k) =
        if k < offset then m (target + k) else m (source + (k - offset))) ∧
      ∀ k < size, size ≤ offset + k → offset + k < room →
        m (target + offset + k) = m (source + k) := by
  have hbehind : ∀ k < size, offset ≤ k →
      move m (target + offset) source (min size (room - offset)) (target + k) =
        m (source + (k - offset)) := by
    intro k hk hle
    have heq : target + k = target + offset + (k - offset) := by omega
    rw [heq, move_inside (by omega)]
  have hbefore : ∀ k < offset,
      move m (target + offset) source (min size (room - offset)) (target + k) = m (target + k) :=
    fun k hk => move_outside (by omega)
  rw [bytes_eq_iff]
  constructor
  · rintro ⟨hread, hframe⟩
    refine .inr ⟨fun k hk => ?_, fun k hk hle hlt => ?_⟩
    · rw [← hread k hk]
      split
      · next hlt => exact hbefore k hlt
      · next hle => exact hbehind k hk (by omega)
    · rw [← hframe (target + offset + k) (by omega)]
      exact move_inside (by omega)
  · rintro (rfl | ⟨hread, hframe⟩)
    · refine ⟨fun k hk => hbehind k hk (Nat.zero_le k), fun address ha => ?_⟩
      exact move_outside (by omega)
    · refine ⟨fun k hk => ?_, fun address ha => ?_⟩
      · rw [hread k hk]
        split
        · next hlt => exact hbefore k hlt
        · next hle => exact hbehind k hk (by omega)
      · by_cases hmoved : target + offset ≤ address ∧
            address < target + offset + min size (room - offset)
        · obtain ⟨k, rfl⟩ := Nat.exists_eq_add_of_le hmoved.1
          rw [move_inside (by omega)]
          exact (hframe k (by omega) (by omega) (by omega)).symm
        · exact move_outside hmoved

/-- Where the field can be read, what is read and what has changed. -/
theorem setThenGet_iff {m : Memory} {outer : Instance types a} {path : Path types a b}
    {f : StructField types b} {value : Instance types f.type} {inner : Instance types b}
    (hfollow : path.follow outer = some inner)
    (hroom : f.size ≤ outer.buffer.length - path.offset - f.offset) :
    SetThenGet m outer path f value ↔
      bytes (inner.setField m f value) (inner.buffer.address + min f.offset inner.buffer.length)
          f.size = bytes m value.buffer.address f.size ∧
        ∀ address, ¬ (region outer path f ≤ address ∧ address < region outer path f + f.size) →
          inner.setField m f value address = m address := by
  have hlength := (follow_buffer hfollow).1
  obtain ⟨read, hread⟩ := Option.isSome_iff_exists.mp
    (getField_isSome_iff.mpr (hlength ▸ hroom : f.size ≤ inner.buffer.length - f.offset))
  have htarget : read.buffer.address =
      inner.buffer.address + min f.offset inner.buffer.length := by
    rw [getField_eq_some_iff.mp hread]
    rfl
  constructor
  · rintro ⟨inner', hinner, ⟨read', hread', hbytes⟩, hframe⟩
    obtain rfl := Option.some.inj (hfollow.symm.trans hinner)
    obtain rfl := Option.some.inj (hread.symm.trans hread')
    exact ⟨htarget ▸ hbytes, hframe⟩
  · intro ⟨hbytes, hframe⟩
    exact ⟨inner, hfollow, ⟨read, hread, htarget ▸ hbytes⟩, hframe⟩

/-- **Assigning a struct to a field.**  At any depth it does what it should exactly for a
field inside the buffer whose offset is 0, or where nothing had to change. -/
theorem nested_set_iff (m : Memory) (outer : Instance types a) (path : Path types a b)
    (f : StructField types b) (value : Instance types f.type) :
    SetThenGet m outer path f value ↔
      Fits outer path f ∧ (f.offset = 0 ∨ AlreadyThere m outer path f value) := by
  cases hfollow : path.follow outer with
  | none => simp [SetThenGet, Fits, hfollow]
  | some inner =>
      obtain ⟨hlength, haddress⟩ := follow_buffer hfollow
      by_cases hroom : f.size ≤ outer.buffer.length - path.offset - f.offset
      · have hfits : Fits outer path f := ⟨hfollow ▸ rfl, hroom⟩
        rw [setThenGet_iff hfollow hroom, and_iff_right hfits, setField_eq]
        rcases Nat.eq_zero_or_pos f.size with hzero | hpos
        · -- nothing is copied, and there is nothing to read
          refine iff_of_true ⟨?_, fun address _ => ?_⟩ (.inr ⟨fun k hk => ?_, fun k hk => ?_⟩)
          · rw [hzero]
            rfl
          · exact move_outside (by omega)
          · omega
          · omega
        · have hregion : inner.buffer.address + min f.offset inner.buffer.length =
              region outer path f := by
            rw [region, haddress (by omega), hlength]
            omega
          have hlimit : ∀ k, region outer path f + f.offset + k <
              outer.buffer.address + outer.buffer.length ↔
                f.offset + k < inner.buffer.length - f.offset := by
            intro k
            rw [region, hlength]
            omega
          rw [hregion, move_behind_iff m (hlength ▸ hroom)]
          simp only [AlreadyThere, hlimit]
      · have hnone : ¬ (inner.getField f).isSome := by
          rw [getField_isSome_iff, hlength]
          exact hroom
        have hfalse : ¬ SetThenGet m outer path f value := by
          rintro ⟨inner', hinner, ⟨read, hread, -⟩, -⟩
          obtain rfl := Option.some.inj (hfollow.symm.trans hinner)
          exact hnone (hread ▸ rfl)
        exact iff_of_false hfalse fun h => hroom h.1.2

end Model

/-! ## A field behind an integer -/

/-- `{ x: int32 }`, and `{ y: int32, a: { x: int32 } }`. -/
def pair : Types :=
  StructTypes.defineProperty StructTypes.word
    (StructTypes.defineProperty StructTypes.word
      (StructTypes.defineProperty StructTypes.word StructTypes.start.types 0 "x" StructTypes.int32)
      1 "y" StructTypes.int32)
    1 "a" (.struct 0)

/-- The field `a`, at 4. -/
def second : StructField pair 1 := ⟨"a", 0, List.mem_of_getElem? (i := 1) rfl⟩

/-- **The second field is not set.**  The slice has 4 bytes and the copy starts at its end. -/
theorem second_field_not_set :
    ¬ ∀ (types : Types) (a b : Nat) (m : Memory) (outer : Instance types a) (path : Path types a b)
      (f : StructField types b) (value : Instance types f.type),
      SetThenGet m outer path f value := by
  intro hall
  obtain ⟨inner, hinner, ⟨read, hread, hbytes⟩, -⟩ :=
    hall pair 1 1 (fun address => if address < 8 then 0 else 1) ⟨⟨0, 8⟩, by decide⟩ .here second
      ⟨⟨8, 4⟩, by decide⟩
  obtain rfl := Option.some.inj hinner
  rw [setField_eq, getField_eq_some_iff.mp hread, bytes_eq_iff] at hbytes
  have hfirst := hbytes 0 (by decide)
  revert hfirst
  decide

end StructAccess

import Mathlib.Algebra.Order.Ring.Nat
import Mathlib.Data.List.Basic
import Mathlib.Data.List.GetD

/-!
# Buffers over a memory of bytes

A buffer is a stretch of memory.  A slice of it is a stretch of the same memory, so what
is written through one is read through the other; and `copy` takes all the bytes before it
writes the first one, so its two stretches may overlap.

`move_inside` and `move_outside` say what a byte is after bytes were moved, `store_inside`
and `store_outside` after a list of bytes was stored, and `bytes_store` that it is read
back.  A number is written in bytes with the lowest first, or in the reverse of that
order; `decode_encode` reads it.
-/

namespace ByteMemory

/-- The byte at each address. -/
abbrev Memory := Nat → UInt8

/-- A stretch of memory. -/
structure Buffer where
  address : Nat
  length : Nat
  deriving DecidableEq

/-- `buffer.slice(start)` -/
def Buffer.slice (buffer : Buffer) (start : Nat) : Buffer :=
  ⟨buffer.address + min start buffer.length, buffer.length - start⟩

/-- So many bytes from an address on. -/
def bytes (m : Memory) (address n : Nat) : List UInt8 := (List.range n).map fun k => m (address + k)

/-- `memmove` -/
def move (m : Memory) (target source n : Nat) : Memory := fun a =>
  if target ≤ a ∧ a < target + n then m (source + (a - target)) else m a

/-- The bytes are written from an address on. -/
def store (m : Memory) (address : Nat) (data : List UInt8) : Memory := fun a =>
  if address ≤ a then data.getD (a - address) (m a) else m a

/-- `source.copy(target, targetStart, sourceStart, sourceEnd)`: as many bytes as both
buffers have. -/
def Buffer.copy (source : Buffer) (m : Memory) (target : Buffer)
    (targetStart sourceStart sourceEnd : Nat) : Memory :=
  if target.length ≤ targetStart ∨ sourceEnd ≤ sourceStart then m
  else
    move m (target.address + targetStart) (source.address + sourceStart)
      (min (min (sourceEnd - sourceStart) (target.length - targetStart))
        (source.length - sourceStart))

variable {m m' : Memory}

@[simp] theorem length_bytes (m : Memory) (address n : Nat) : (bytes m address n).length = n := by
  simp [bytes]

/-- Equal bytes, one by one. -/
theorem bytes_eq_iff {a a' n : Nat} :
    bytes m a n = bytes m' a' n ↔ ∀ k < n, m (a + k) = m' (a' + k) := by
  simp [bytes, List.map_inj_left]

theorem move_inside {target source n k : Nat} (hk : k < n) :
    move m target source n (target + k) = m (source + k) := by
  have hin : target ≤ target + k ∧ target + k < target + n := ⟨Nat.le_add_right _ _, by omega⟩
  rw [move, if_pos hin, Nat.add_sub_cancel_left]

theorem move_outside {target source n a : Nat} (ha : ¬ (target ≤ a ∧ a < target + n)) :
    move m target source n a = m a := if_neg ha

theorem store_inside {address k : Nat} {data : List UInt8} (hk : k < data.length) :
    store m address data (address + k) = data[k] := by
  rw [store, if_pos (Nat.le_add_right _ _), Nat.add_sub_cancel_left,
    List.getD_eq_getElem _ _ hk]

/-- The other bytes stay. -/
theorem store_outside {address a : Nat} {data : List UInt8}
    (ha : ¬ (address ≤ a ∧ a < address + data.length)) : store m address data a = m a := by
  unfold store
  split
  · next hle => exact List.getD_eq_default _ _ (by omega)
  · rfl

/-- What is stored is read back. -/
theorem bytes_store (m : Memory) (address : Nat) (data : List UInt8) :
    bytes (store m address data) address data.length = data := by
  refine List.ext_getElem (length_bytes _ _ _) fun k hk _ => ?_
  rw [length_bytes] at hk
  simp only [bytes, List.getElem_map, List.getElem_range]
  exact store_inside hk

/-! ## Numbers in bytes -/

/-- The order of the bytes of a number. -/
inductive Endianness
  | LE
  | BE
  deriving DecidableEq

/-- The other order. -/
def Endianness.opposite : Endianness → Endianness
  | LE => BE
  | BE => LE

/-- The lowest bytes of a number, so many of them, the lowest first. -/
def lowFirst : Nat → Nat → List UInt8
  | 0, _ => []
  | w + 1, n => UInt8.ofNat n :: lowFirst w (n / 256)

/-- The number that these bytes are. -/
def ofLowFirst (data : List UInt8) : Nat := data.foldr (fun byte n => byte.toNat + 256 * n) 0

/-- A number in so many bytes. -/
def Endianness.encode (e : Endianness) (w n : Nat) : List UInt8 :=
  match e with
  | LE => lowFirst w n
  | BE => (lowFirst w n).reverse

/-- The number in these bytes. -/
def Endianness.decode (e : Endianness) (data : List UInt8) : Nat :=
  match e with
  | LE => ofLowFirst data
  | BE => ofLowFirst data.reverse

theorem length_lowFirst (w n : Nat) : (lowFirst w n).length = w := by
  induction w generalizing n with
  | zero => rfl
  | succ w ih => rw [lowFirst, List.length_cons, ih]

/-- The bytes of a number are that number. -/
theorem ofLowFirst_lowFirst (w : Nat) {n : Nat} (h : n < 256 ^ w) :
    ofLowFirst (lowFirst w n) = n := by
  induction w generalizing n with
  | zero => exact (Nat.lt_one_iff.mp h).symm
  | succ w ih =>
      have hrest : n / 256 < 256 ^ w := Nat.div_lt_of_lt_mul (by rwa [Nat.pow_succ'] at h)
      have hlow : (UInt8.ofNat n).toNat = n % 256 := rfl
      rw [ofLowFirst, lowFirst, List.foldr_cons, ← ofLowFirst, ih hrest, hlow]
      exact Nat.mod_add_div n 256

@[simp] theorem Endianness.length_encode (e : Endianness) (w n : Nat) :
    (e.encode w n).length = w := by
  cases e with
  | LE => exact length_lowFirst w n
  | BE => rw [encode, List.length_reverse, length_lowFirst]

/-- A number that fits is read as it was written. -/
theorem Endianness.decode_encode (e : Endianness) (w : Nat) {n : Nat} (h : n < 256 ^ w) :
    e.decode (e.encode w n) = n := by
  cases e with
  | LE => exact ofLowFirst_lowFirst w h
  | BE => rw [encode, decode, List.reverse_reverse, ofLowFirst_lowFirst w h]

/-- The bytes in one order are the reverse of those in the other. -/
theorem Endianness.encode_opposite (e : Endianness) (w n : Nat) :
    e.opposite.encode w n = (e.encode w n).reverse := by
  cases e with
  | LE => rfl
  | BE => exact (List.reverse_reverse _).symm

end ByteMemory

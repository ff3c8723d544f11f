import Tint.Crc
import Tint.Png.ChunkStream

/-!
# The checksum of a chunk

`CrcStream` of the build tool: the remainder of a chunk's type and data, a byte at a
time from a table of 256 words.

* `write_eq_register` -- the table computes the cyclic redundancy check bit by bit;
* `crc32_ne_of_burst` -- so no damage inside 32 successive bits of a buffer goes
  unnoticed, however long the buffer is.
-/

namespace Png

open Crc

/-- The polynomial of the table. -/
def polynomial : BitVec 32 := 0xedb88320#32

/-- What the loop over the eight bits makes of an entry. -/
def crcEntry (i : Nat) : BitVec 32 :=
  (List.range 8).foldl
    (fun c _ => if c &&& 1#32 ≠ 0#32 then polynomial ^^^ (c >>> 1) else c >>> 1) (BitVec.ofNat 32 i)

def crcTable : List (BitVec 32) := (List.range 256).map crcEntry

/-- `CrcStream.write` on the field `_crc`. -/
def crcWrite (crc : BitVec 32) (data : Bytes) : BitVec 32 :=
  data.foldl
    (fun crc b =>
      crcTable.getD ((crc ^^^ b.toBitVec.setWidth 32) &&& 0xff#32).toNat 0 ^^^ (crc >>> 8)) crc

/-- What `_crc` is at first. -/
def crcInit : BitVec 32 := -1#32

/-- The method `crc32` on the field `_crc`. -/
def crcValue (crc : BitVec 32) : BitVec 32 := crc ^^^ -1#32

/-- `CrcStream.crc32(buf)` -/
def crc32 (buf : Bytes) : BitVec 32 := crcValue (crcWrite crcInit buf)

/-- Written in two parts or at once. -/
theorem crcWrite_append (crc : BitVec 32) (a b : Bytes) :
    crcWrite crc (a ++ b) = crcWrite (crcWrite crc a) b := List.foldl_append

/-- An entry of the table is its index, moved through the register. -/
theorem crcEntry_eq_shifts (i : Nat) : crcEntry i = shifts polynomial 8 (BitVec.ofNat 32 i) := by
  have hlow : ∀ c : BitVec 32, c &&& 1#32 ≠ 0#32 ↔ c.getLsbD 0 = true := by
    intro c
    rw [BitVec.and_one_eq_setWidth_ofBool_getLsbD]
    cases c.getLsbD 0 <;> decide
  have hstep : ∀ c : BitVec 32,
      (if c &&& 1#32 ≠ 0#32 then polynomial ^^^ (c >>> 1) else c >>> 1) = shift polynomial c := by
    intro c
    simp only [hlow, shift]
  simp only [crcEntry, hstep]
  rfl

theorem crcTable_getD {c : BitVec 32} :
    crcTable.getD (c &&& 0xff#32).toNat 0 = shifts polynomial 8 (c &&& 255#32) := by
  have hindex : (c &&& 0xff#32).toNat < 256 := by
    rw [BitVec.toNat_and]
    exact Nat.lt_of_le_of_lt Nat.and_le_right (by decide)
  rw [crcTable, List.getD_eq_getElem _ _ (by simpa using hindex), List.getElem_map,
    List.getElem_range, crcEntry_eq_shifts, BitVec.ofNat_toNat, BitVec.setWidth_eq]

/-- **The table computes the check**, bit by bit. -/
theorem crcWrite_eq_register (crc : BitVec 32) (data : Bytes) :
    crcWrite crc data = register polynomial crc (messageBits data) := by
  induction data generalizing crc with
  | nil => rfl
  | cons b data ih =>
    have hhigh : b.toBitVec.setWidth 32 >>> 8 = 0#32 := by
      refine BitVec.eq_of_toNat_eq ?_
      have := b.toBitVec.isLt
      rw [BitVec.toNat_ushiftRight, BitVec.toNat_setWidth, Nat.mod_eq_of_lt (by omega),
        Nat.shiftRight_eq_div_pow, Nat.div_eq_of_lt (by omega)]
      rfl
    rw [messageBits_cons, register_append, register_bits (by decide), shifts_low, ← ih]
    rw [BitVec.ushiftRight_xor_distrib, hhigh, BitVec.xor_zero, ← crcTable_getD]
    rfl

/-- **Damage inside 32 successive bits is noticed.** -/
theorem crc32_ne_of_burst {buf damaged : Bytes}
    (h : Burst 32 (messageBits buf) (messageBits damaged)) : crc32 buf ≠ crc32 damaged := by
  intro heq
  have hne := register_ne_of_burst (show polynomial.getLsbD (32 - 1) = true by decide) crcInit h
  rw [← crcWrite_eq_register, ← crcWrite_eq_register] at hne
  refine hne ?_
  have := congrArg (· ^^^ -1#32) heq
  simpa [crc32, crcValue, BitVec.xor_assoc] using this

/-- Two neighbours changed places. -/
theorem crc32_ne_of_swap : crc32 [1, 2, 3, 4] ≠ crc32 [1, 3, 2, 4] :=
  crc32_ne_of_burst ⟨bits 1, bits 2 ++ bits 3, bits 3 ++ bits 2, bits 4, by decide⟩

end Png

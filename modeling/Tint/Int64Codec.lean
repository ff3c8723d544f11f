import Tint.Binary64
import Tint.ByteMemory
import Tint.Marshal
import Mathlib.Data.List.TakeWhile

/-!
# Integers of 64 bits in buffers

The native accessors of `ref` read and write an integer of 64 bits in the byte order of the
machine.  JavaScript sees a number where that is exact, up to `2 ^ 53` in size, and
otherwise the decimal digits as a string.  `ref.js` makes the accessors for the other byte
order of them: they go through a buffer of 8 bytes of their own and reverse the bytes.

* `int64_codec` -- every signed and every unsigned integer, in either byte order, is read
  as it was written, and its bytes in one order are the reverse of those in the other.
-/

namespace Int64Codec

open ByteMemory
open Marshal (Double)

/-- A text. -/
abbrev Text := List Char

/-- A JavaScript value. -/
inductive Value
  | number (x : Double)
  | string (text : Text)
  | other

/-- What is thrown. -/
inductive Exception
  | typeError (message : String)
  deriving DecidableEq

/-- `JS_MAX_INT` -/
def JS_MAX_INT : Int := 9007199254740992

/-- `JS_MIN_INT` -/
def JS_MIN_INT : Int := -9007199254740992

/-! ## The C library and V8 -/

/-- `isspace` -/
def isSpace (c : Char) : Bool := (9 ≤ c.toNat && c.toNat ≤ 13) || c.toNat == 32

/-- What `strtoll` and `strtoull` read: a sign and digits, after white space. -/
def scan (text : Text) : Bool × Nat :=
  let text := text.dropWhile isSpace
  let negative := text.head? = some '-'
  let text := if negative ∨ text.head? = some '+' then text.tail else text
  (negative, Nat.ofDigitChars 10 (text.takeWhile Char.isDigit) 0)

/-- `strtoll`, base 10 -/
def strtoll (text : Text) : Int64 :=
  let (negative, n) := scan text
  Int64.ofIntClamp (if negative then -n else n)

/-- `strtoull`, base 10 -/
def strtoull (text : Text) : UInt64 :=
  let (negative, n) := scan text
  if 2 ^ 64 ≤ n then -1 else if negative then -UInt64.ofNat n else UInt64.ofNat n

/-- `"%lld"` and `"%llu"` -/
def decimal (n : Int) : Text :=
  if n < 0 then '-' :: Nat.toDigits 10 n.natAbs else Nat.toDigits 10 n.natAbs

/-- `IntegerValue` -/
def IntegerValue : Double → Int64
  | .finite x => Int64.ofIntClamp x.trunc
  | .infinite negative => if negative then Int64.minValue else Int64.maxValue
  | .nan => 0

/-! ## The native accessors -/

/-- `*reinterpret_cast<uint64_t *>(ptr)` -/
def load (machine : Endianness) (m : Memory) (ptr : Nat) : UInt64 :=
  UInt64.ofNat (machine.decode (bytes m ptr 8))

/-- `*reinterpret_cast<uint64_t *>(ptr) = val` -/
def assign (machine : Endianness) (m : Memory) (ptr : Nat) (val : UInt64) : Memory :=
  store m ptr (machine.encode 8 val.toNat)

section Native

-- `exports.endianness`
variable (machine : Endianness)

/-- `ReadInt64` -/
def readInt64 (m : Memory) (buf : Buffer) (offset : Nat) : Except Exception Value :=
  let ptr := buf.address + offset
  if ptr = 0 then .error (.typeError "readInt64: Cannot read from NULL pointer")
  else
    let val := (load machine m ptr).toInt64.toInt
    if h : val < JS_MIN_INT ∨ val > JS_MAX_INT then .ok (.string (decimal val))
    else
      .ok (.number (.finite (.ofIntLE val (by
        unfold JS_MIN_INT JS_MAX_INT at h
        omega))))

/-- `WriteInt64` -/
def writeInt64 (m : Memory) (buf : Buffer) (offset : Nat) : Value → Except Exception Memory
  | .number x => .ok (assign machine m (buf.address + offset) (IntegerValue x).toUInt64)
  | .string str => .ok (assign machine m (buf.address + offset) (strtoll str).toUInt64)
  | .other => .error (.typeError "writeInt64: Number/String 64-bit value required")

/-- `ReadUInt64` -/
def readUInt64 (m : Memory) (buf : Buffer) (offset : Nat) : Except Exception Value :=
  let ptr := buf.address + offset
  if ptr = 0 then .error (.typeError "readUInt64: Cannot read from NULL pointer")
  else
    let val : Int := (load machine m ptr).toNat
    if h : val > JS_MAX_INT then .ok (.string (decimal val))
    else
      .ok (.number (.finite (.ofIntLE val (by
        unfold JS_MAX_INT at h
        omega))))

/-- `WriteUInt64` -/
def writeUInt64 (m : Memory) (buf : Buffer) (offset : Nat) : Value → Except Exception Memory
  | .number x => .ok (assign machine m (buf.address + offset) (IntegerValue x).toUInt64)
  | .string str => .ok (assign machine m (buf.address + offset) (strtoull str))
  | .other => .error (.typeError "writeUInt64: Number/String 64-bit value required")

end Native

/-! ## The accessors for both byte orders -/

/-- `buffer[i]`, as a byte; undefined becomes 0. -/
def byteAt (m : Memory) (buffer : Buffer) (i : Nat) : UInt8 :=
  if i < buffer.length then m (buffer.address + i) else 0

/-- `buffer[i] = byte` -/
def setByte (m : Memory) (buffer : Buffer) (i : Nat) (byte : UInt8) : Memory :=
  if i < buffer.length then Function.update m (buffer.address + i) byte else m

/-- `for (i < n) target[targetStart + i] = source[sourceStart + 8 - i - 1]` -/
def reverseBytes (m : Memory) (target : Buffer) (targetStart : Nat) (source : Buffer)
    (sourceStart : Nat) : Nat → Memory
  | 0 => m
  | i + 1 =>
      let m := reverseBytes m target targetStart source sourceStart i
      setByte m target (targetStart + i) (byteAt m source (sourceStart + 8 - i - 1))

/-- Two buffers share no memory. -/
def Apart (a b : Buffer) : Prop :=
  a.address + a.length ≤ b.address ∨ b.address + b.length ≤ a.address

/-- The buffers of `ref.js` itself: 8 bytes each. -/
structure Ref where
  machine : Endianness
  int64temp : Buffer
  uint64temp : Buffer
  int64temp_length : int64temp.length = 8
  uint64temp_length : uint64temp.length = 8
  int64temp_pos : 0 < int64temp.address
  uint64temp_pos : 0 < uint64temp.address

/-- A place in a buffer with room for 8 bytes; the buffer is none of `ref.js` itself. -/
structure Slot (ref : Ref) where
  buffer : Buffer
  offset : Nat
  room : offset + 8 ≤ buffer.length
  address_pos : 0 < buffer.address
  int64_apart : Apart ref.int64temp buffer
  uint64_apart : Apart ref.uint64temp buffer

section Accessors

variable (ref : Ref) (temp : Buffer)

/-- A reader for either byte order, through a buffer if it is not the machine's. -/
def readAs (read : Memory → Buffer → Nat → Except Exception Value) (e : Endianness) (m : Memory)
    (buffer : Buffer) (offset : Nat) : Except Exception Value × Memory :=
  if e = ref.machine then (read m buffer offset, m)
  else
    let m := reverseBytes m temp 0 buffer offset 8
    (read m temp 0, m)

/-- A writer for either byte order. -/
def writeAs (write : Memory → Buffer → Nat → Value → Except Exception Memory) (e : Endianness)
    (m : Memory) (buffer : Buffer) (offset : Nat) (value : Value) : Except Exception Memory :=
  if e = ref.machine then write m buffer offset value
  else (write m temp 0 value).map fun m => reverseBytes m buffer offset temp 0 8

/-- `exports['readInt64' + endianness]` -/
def readInt64As := readAs ref ref.int64temp (readInt64 ref.machine)

/-- `exports['readUInt64' + endianness]` -/
def readUInt64As := readAs ref ref.uint64temp (readUInt64 ref.machine)

/-- `exports['writeInt64' + endianness]` -/
def writeInt64As := writeAs ref ref.int64temp (writeInt64 ref.machine)

/-- `exports['writeUInt64' + endianness]` -/
def writeUInt64As := writeAs ref ref.uint64temp (writeUInt64 ref.machine)

end Accessors

/-! ## The property -/

/-- The representation of an integer: a number up to `2 ^ 53` in size, or else its digits. -/
def canonical (n : Int) : Value :=
  if h : n.natAbs ≤ 2 ^ 53 then .number (.finite (.ofIntLE n h)) else .string (decimal n)

/-- **An accessor pair for one integer.**  Its representation is written and read again in
each byte order, and the bytes of the two orders are reversed. -/
structure Codes {ref : Ref} (m : Memory) (slot : Slot ref) (n : Int)
    (read : Endianness → Memory → Buffer → Nat → Except Exception Value × Memory)
    (write : Endianness → Memory → Buffer → Nat → Value → Except Exception Memory) : Prop where
  roundTrip : ∀ e, ∃ after, write e m slot.buffer slot.offset (canonical n) = .ok after ∧
    (read e after slot.buffer slot.offset).1 = .ok (canonical n)
  reversed : ∀ e after after', write e m slot.buffer slot.offset (canonical n) = .ok after →
    write e.opposite m slot.buffer slot.offset (canonical n) = .ok after' →
      bytes after' (slot.buffer.address + slot.offset) 8 =
        (bytes after (slot.buffer.address + slot.offset) 8).reverse

/-! ## Digits -/

/-- A digit is neither a space nor a sign. -/
theorem not_space_of_isDigit {c : Char} (h : c.isDigit) :
    isSpace c = false ∧ c ≠ '-' ∧ c ≠ '+' := by
  have hge : 48 ≤ c.toNat := by
    simp only [Char.isDigit, Bool.and_eq_true, decide_eq_true_eq] at h
    exact h.1
  refine ⟨?_, ?_, ?_⟩
  · simp only [isSpace, Bool.or_eq_false_iff, Bool.and_eq_false_iff, decide_eq_false_iff_not,
      beq_eq_false_iff_ne]
    omega
  · rintro rfl
    exact absurd hge (by decide)
  · rintro rfl
    exact absurd hge (by decide)

/-- The digits that were printed are scanned. -/
theorem scan_decimal (n : Int) : scan (decimal n) = (decide (n < 0), n.natAbs) := by
  have hdigit : ∀ c ∈ Nat.toDigits 10 n.natAbs, c.isDigit := fun c hc =>
    Nat.isDigit_of_mem_toDigits (by decide) (by decide) hc
  have hdigits : (Nat.toDigits 10 n.natAbs).takeWhile Char.isDigit = Nat.toDigits 10 n.natAbs :=
    List.takeWhile_eq_self_iff.mpr hdigit
  by_cases hn : n < 0
  · rw [decimal, if_pos hn, scan]
    have hminus : ('-' :: Nat.toDigits 10 n.natAbs).dropWhile isSpace =
        '-' :: Nat.toDigits 10 n.natAbs := rfl
    simp [hminus, hdigits, hn]
  · rw [decimal, if_neg hn, scan]
    obtain ⟨c, rest, hcons⟩ :=
      List.exists_cons_of_ne_nil (Nat.toDigits_ne_nil (n := n.natAbs) (b := 10))
    obtain ⟨hspace, hminus, hplus⟩ := not_space_of_isDigit (hdigit c (hcons ▸ List.mem_cons_self))
    have hdrop : (Nat.toDigits 10 n.natAbs).dropWhile isSpace = Nat.toDigits 10 n.natAbs := by
      rw [hcons, List.dropWhile_cons_of_neg (by simp [hspace])]
    have hhead : (Nat.toDigits 10 n.natAbs).head? = some c := by rw [hcons]; rfl
    simp [hdrop, hhead, hminus, hplus, hdigits, hn]

theorem strtoll_decimal (v : Int64) : strtoll (decimal v.toInt) = v := by
  have hsign : (if v.toInt < 0 then -(v.toInt.natAbs : Int) else v.toInt.natAbs) = v.toInt := by
    split <;> omega
  simp only [strtoll, scan_decimal, decide_eq_true_eq, hsign]
  exact Int64.ofIntClamp_toInt v

theorem strtoull_decimal (v : UInt64) : strtoull (decimal v.toNat) = v := by
  have hnonneg : ¬ ((v.toNat : Int) < 0) := by omega
  have hlt : ¬ 2 ^ 64 ≤ v.toNat := Nat.not_le.mpr v.toNat_lt
  simp only [strtoull, scan_decimal, Int.natAbs_natCast, decide_eq_true_eq]
  rw [if_neg hlt, if_neg hnonneg, UInt64.ofNat_toNat]

theorem integerValue_ofIntLE (n : Int) (h : n.natAbs ≤ 2 ^ 53) :
    IntegerValue (.finite (.ofIntLE n h)) = Int64.ofIntClamp n := by
  rw [IntegerValue, Binary64.trunc_ofIntLE]

/-- An unsigned integer below `2 ^ 63` is itself as a signed one. -/
theorem ofIntClamp_toNat {v : UInt64} (h : v.toNat < 2 ^ 63) :
    (Int64.ofIntClamp v.toNat).toUInt64 = v := by
  have hint : v.toInt64.toInt = v.toNat := by
    have hmsb : v.toBitVec.toInt = v.toBitVec.toNat := BitVec.toInt_eq_toNat_of_lt (by
      change 2 * v.toNat < 2 ^ 64
      omega)
    exact hmsb
  rw [← hint, Int64.ofIntClamp_toInt, UInt64.toUInt64_toInt64]

/-! ## The native accessors of one integer -/

/-- The accessors write the representation of `n` as `val` and read it again. -/
structure Native (machine : Endianness) (n : Int) (val : UInt64)
    (read : Memory → Buffer → Nat → Except Exception Value)
    (write : Memory → Buffer → Nat → Value → Except Exception Memory) : Prop where
  writes : ∀ m buf offset,
    write m buf offset (canonical n) = .ok (assign machine m (buf.address + offset) val)
  reads : ∀ m buf offset, 0 < buf.address →
    bytes m (buf.address + offset) 8 = machine.encode 8 val.toNat →
      read m buf offset = .ok (canonical n)

theorem load_of_bytes {machine : Endianness} {m : Memory} {ptr : Nat} {val : UInt64}
    (h : bytes m ptr 8 = machine.encode 8 val.toNat) : load machine m ptr = val := by
  have hlt : val.toNat < 256 ^ 8 := val.toNat_lt
  rw [load, h, machine.decode_encode 8 hlt, UInt64.ofNat_toNat]

/-- The native access to a signed number. -/
theorem native_int64 (machine : Endianness) (v : Int64) :
    Native machine v.toInt v.toUInt64 (readInt64 machine) (writeInt64 machine) := by
  constructor
  · intro m buf offset
    unfold canonical
    split
    · rw [writeInt64, integerValue_ofIntLE, Int64.ofIntClamp_toInt]
    · rw [writeInt64, strtoll_decimal]
  · intro m buf offset hpos hbytes
    have hval : (load machine m (buf.address + offset)).toInt64.toInt = v.toInt := by
      rw [load_of_bytes hbytes, Int64.toInt64_toUInt64]
    have hptr : buf.address + offset ≠ 0 := by omega
    simp only [readInt64, hptr, if_false, hval, canonical]
    split
    · next hout => rw [dif_neg (by unfold JS_MIN_INT JS_MAX_INT at hout; omega)]
    · next hin => rw [dif_pos (by unfold JS_MIN_INT JS_MAX_INT at hin; omega)]

/-- The native access to an unsigned number. -/
theorem native_uint64 (machine : Endianness) (v : UInt64) :
    Native machine v.toNat v (readUInt64 machine) (writeUInt64 machine) := by
  constructor
  · intro m buf offset
    unfold canonical
    split
    · next hle =>
      rw [writeUInt64, integerValue_ofIntLE, ofIntClamp_toNat (by omega)]
    · rw [writeUInt64, strtoull_decimal]
  · intro m buf offset hpos hbytes
    have hval : (load machine m (buf.address + offset)).toNat = v.toNat := by
      rw [load_of_bytes hbytes]
    have hptr : buf.address + offset ≠ 0 := by omega
    simp only [readUInt64, hptr, if_false, hval, canonical]
    split
    · next hout => rw [dif_neg (by unfold JS_MAX_INT at hout; omega)]
    · next hin => rw [dif_pos (by unfold JS_MAX_INT at hin; omega)]

/-! ## Reversing -/

/-- The loop reverses 8 bytes and changes no others. -/
theorem reverseBytes_spec (m : Memory) {target source : Buffer} {targetStart sourceStart : Nat}
    (htarget : targetStart + 8 ≤ target.length) (hsource : sourceStart + 8 ≤ source.length)
    (hapart : Apart target source) {i : Nat} (hi : i ≤ 8) :
    (∀ k < i, reverseBytes m target targetStart source sourceStart i
        (target.address + targetStart + k) = m (source.address + sourceStart + (7 - k))) ∧
      ∀ address, ¬ (target.address + targetStart ≤ address ∧
          address < target.address + targetStart + i) →
        reverseBytes m target targetStart source sourceStart i address = m address := by
  induction i with
  | zero => exact ⟨fun k hk => absurd hk (Nat.not_lt_zero k), fun address _ => rfl⟩
  | succ i ih =>
      obtain ⟨hinside, houtside⟩ := ih (by omega)
      have hbyte : byteAt (reverseBytes m target targetStart source sourceStart i) source
          (sourceStart + 8 - i - 1) = m (source.address + sourceStart + (7 - i)) := by
        have heq : source.address + (sourceStart + 8 - i - 1) =
            source.address + sourceStart + (7 - i) := by omega
        rw [byteAt, if_pos (by omega), heq]
        refine houtside _ ?_
        unfold Apart at hapart
        omega
      have hstep : reverseBytes m target targetStart source sourceStart (i + 1) =
          Function.update (reverseBytes m target targetStart source sourceStart i)
            (target.address + targetStart + i) (m (source.address + sourceStart + (7 - i))) := by
        rw [reverseBytes, hbyte, setByte, if_pos (by omega), ← Nat.add_assoc]
      rw [hstep]
      constructor
      · intro k hk
        by_cases hki : k = i
        · subst hki
          exact Function.update_self _ _ _
        · rw [Function.update_of_ne (by omega)]
          exact hinside k (by omega)
      · intro address ha
        rw [Function.update_of_ne (by omega)]
        exact houtside address (by omega)

/-- Bytes that were reversed are those of the other order. -/
theorem bytes_reverseBytes (m : Memory) {target source : Buffer} {targetStart sourceStart : Nat}
    (htarget : targetStart + 8 ≤ target.length) (hsource : sourceStart + 8 ≤ source.length)
    (hapart : Apart target source) :
    bytes (reverseBytes m target targetStart source sourceStart 8)
      (target.address + targetStart) 8 =
      (bytes m (source.address + sourceStart) 8).reverse := by
  have hinside := (reverseBytes_spec m htarget hsource hapart (Nat.le_refl 8)).1
  refine List.ext_getElem (by simp) fun k hk _ => ?_
  rw [length_bytes] at hk
  simp only [bytes, List.getElem_map, List.getElem_range, List.getElem_reverse, List.length_map,
    List.length_range]
  exact hinside k hk

/-! ## Both byte orders -/

section Orders

variable {ref : Ref} {temp : Buffer} {n : Int} {val : UInt64}
  {read : Memory → Buffer → Nat → Except Exception Value}
  {write : Memory → Buffer → Nat → Value → Except Exception Memory}

theorem bytes_assign (machine : Endianness) (m : Memory) (ptr : Nat) (val : UInt64) :
    bytes (assign machine m ptr val) ptr 8 = machine.encode 8 val.toNat := by
  have hstored := bytes_store m ptr (machine.encode 8 val.toNat)
  rwa [Endianness.length_encode] at hstored

theorem eq_opposite {e e' : Endianness} (h : e ≠ e') : e' = e.opposite := by
  cases e <;> cases e' <;> first | rfl | exact absurd rfl h

/-- What is written, in each order. -/
theorem writeAs_spec (hnative : Native ref.machine n val read write) (htemp : temp.length = 8)
    {buffer : Buffer} {offset : Nat} (hroom : offset + 8 ≤ buffer.length)
    (hapart : Apart temp buffer) (e : Endianness) (m : Memory) :
    ∃ after, writeAs ref temp write e m buffer offset (canonical n) = .ok after ∧
      bytes after (buffer.address + offset) 8 = e.encode 8 val.toNat := by
  by_cases he : e = ref.machine
  · refine ⟨assign ref.machine m (buffer.address + offset) val, ?_, ?_⟩
    · rw [writeAs, if_pos he, hnative.writes]
    · rw [bytes_assign, he]
  · refine ⟨reverseBytes (assign ref.machine m temp.address val) buffer offset temp 0 8, ?_, ?_⟩
    · rw [writeAs, if_neg he, hnative.writes]
      rfl
    · rw [bytes_reverseBytes _ hroom (by omega) (Or.symm hapart), Nat.add_zero, bytes_assign,
        eq_opposite he, Endianness.encode_opposite, List.reverse_reverse]

/-- What is read, in each order. -/
theorem readAs_spec (hnative : Native ref.machine n val read write) (htemp : temp.length = 8)
    (hpos : 0 < temp.address) {buffer : Buffer} {offset : Nat} (hbuffer : 0 < buffer.address)
    (hroom : offset + 8 ≤ buffer.length) (hapart : Apart temp buffer) {e : Endianness} {m : Memory}
    (hbytes : bytes m (buffer.address + offset) 8 = e.encode 8 val.toNat) :
    (readAs ref temp read e m buffer offset).1 = .ok (canonical n) := by
  by_cases he : e = ref.machine
  · rw [readAs, if_pos he]
    exact hnative.reads m buffer offset hbuffer (he ▸ hbytes)
  · rw [readAs, if_neg he]
    refine hnative.reads _ temp 0 hpos ?_
    rw [bytes_reverseBytes _ (by omega) hroom hapart, hbytes, eq_opposite he,
      Endianness.encode_opposite]

/-- Accessors of one integer in the byte order of the machine give such in both. -/
theorem codes_of_native (hnative : Native ref.machine n val read write) (htemp : temp.length = 8)
    (hpos : 0 < temp.address) (m : Memory) (slot : Slot ref) (hapart : Apart temp slot.buffer) :
    Codes m slot n (readAs ref temp read) (writeAs ref temp write) := by
  have hwrites := writeAs_spec hnative htemp slot.room hapart
  constructor
  · intro e
    obtain ⟨after, hafter, hbytes⟩ := hwrites e m
    exact ⟨after, hafter,
      readAs_spec hnative htemp hpos slot.address_pos slot.room hapart hbytes⟩
  · intro e after after' h h'
    obtain ⟨u, hu, hbytes⟩ := hwrites e m
    obtain ⟨u', hu', hbytes'⟩ := hwrites e.opposite m
    obtain rfl := Except.ok.inj (h.symm.trans hu)
    obtain rfl := Except.ok.inj (h'.symm.trans hu')
    rw [hbytes, hbytes', Endianness.encode_opposite]

/-- **Integers of 64 bits.**  Each signed and each unsigned one is read as it was written,
in either byte order, and its bytes in one order are the reverse of those in the other. -/
theorem int64_codec (ref : Ref) (m : Memory) (slot : Slot ref) :
    (∀ v : Int64, Codes m slot v.toInt (readInt64As ref) (writeInt64As ref)) ∧
      ∀ v : UInt64, Codes m slot v.toNat (readUInt64As ref) (writeUInt64As ref) :=
  ⟨fun v => codes_of_native (native_int64 ref.machine v) ref.int64temp_length ref.int64temp_pos m
      slot slot.int64_apart,
    fun v => codes_of_native (native_uint64 ref.machine v) ref.uint64temp_length ref.uint64temp_pos
      m slot slot.uint64_apart⟩

end Orders

/-- The two buffers of `ref.js`, one behind the other. -/
def temporaries : Ref where
  machine := .LE
  int64temp := ⟨8, 8⟩
  uint64temp := ⟨16, 8⟩
  int64temp_length := rfl
  uint64temp_length := rfl
  int64temp_pos := Nat.succ_pos 7
  uint64temp_pos := Nat.succ_pos 15

theorem temporaries_apart : Apart temporaries.int64temp ⟨24, 12⟩ ∧
    Apart temporaries.uint64temp ⟨24, 12⟩ := by
  constructor
  · exact .inl (by decide)
  · exact .inl (by decide)

theorem slot_room : 4 + 8 ≤ (Buffer.mk 24 12).length := Nat.le_refl 12

/-- The end of a buffer of 12 bytes behind them. -/
def lastSlot : Slot temporaries where
  buffer := ⟨24, 12⟩
  offset := 4
  room := slot_room
  address_pos := Nat.succ_pos 23
  int64_apart := temporaries_apart.1
  uint64_apart := temporaries_apart.2

/-- The least signed integer there, which is beyond the numbers of JavaScript. -/
theorem int64_codec_least : Codes (fun _ => 7) lastSlot (Int64.ofInt (-2 ^ 63)).toInt
    (readInt64As temporaries) (writeInt64As temporaries) :=
  (int64_codec temporaries (fun _ => 7) lastSlot).1 (Int64.ofInt (-2 ^ 63))

end Int64Codec

import Mathlib.Data.List.GetD
import Mathlib.Data.BitVec

/-!
# Cyclic redundancy checks

The register of a cyclic redundancy check has `w` bits.  It takes the bits of a
message one by one: a bit is added to the lowest one, the register moves down by
one place, and the polynomial is added when the bit that went out was set.

* `shifts_low` -- eight moves are a table's entry for the lowest byte and the rest
  of the register moved down, which is how a check works a byte at a time;
* `register_eq_shifts` -- a message that is no longer than the register is added
  to it at once, and then moved through it;
* `register_ne_of_burst` -- messages that differ inside `w` successive bits leave
  different registers, if the polynomial's highest bit is set.
-/

namespace Crc

variable {w : Nat}

/-- The register moves down by one place. -/
def shift (polynomial c : BitVec w) : BitVec w :=
  if c.getLsbD 0 then polynomial ^^^ (c >>> 1) else c >>> 1

/-- It moves down by so many places. -/
def shifts (polynomial : BitVec w) : Nat → BitVec w → BitVec w
  | 0, c => c
  | n + 1, c => shifts polynomial n (shift polynomial c)

/-- A bit at the lowest place. -/
def lowest (w : Nat) (b : Bool) : BitVec w := (BitVec.ofBool b).setWidth w

/-- The register takes a bit. -/
def takeBit (polynomial c : BitVec w) (b : Bool) : BitVec w := shift polynomial (c ^^^ lowest w b)

/-- The register after a message. -/
def register (polynomial c : BitVec w) (message : List Bool) : BitVec w :=
  message.foldl (takeBit polynomial) c

/-- The bits of a byte, the lowest first. -/
def bits (b : UInt8) : List Bool := (List.range 8).map b.toBitVec.getLsbD

/-- The bits of a message of bytes. -/
def messageBits (data : List UInt8) : List Bool := data.flatMap bits

/-- The messages differ, and only inside `n` successive bits. -/
def Burst (n : Nat) (message message' : List Bool) : Prop :=
  ∃ before inside inside' after : List Bool,
    message = before ++ inside ++ after ∧ message' = before ++ inside' ++ after ∧
      inside.length = inside'.length ∧ inside.length ≤ n ∧ inside ≠ inside'

/-- A short message as a number, its first bit the lowest one. -/
def word (w : Nat) : List Bool → BitVec w
  | [] => 0
  | b :: message => lowest w b ^^^ (word w message <<< 1)

variable {polynomial c c' : BitVec w}

/-! ## The register is linear -/

theorem getLsbD_lowest (b : Bool) (i : Nat) :
    (lowest w b).getLsbD i = (decide (i < w) && decide (i = 0) && b) := by
  simp only [lowest, BitVec.getLsbD_setWidth]
  cases i with
  | zero => simp
  | succ i => simp

theorem shift_xor (a b : BitVec w) :
    shift polynomial (a ^^^ b) = shift polynomial a ^^^ shift polynomial b := by
  simp only [shift, BitVec.getLsbD_xor, BitVec.ushiftRight_xor_distrib]
  cases a.getLsbD 0 <;> cases b.getLsbD 0 <;> simp only [Bool.xor_self, Bool.xor_true,
    Bool.xor_false, Bool.not_false, Bool.false_eq_true, if_true, if_false]
  · rw [← BitVec.xor_assoc, ← BitVec.xor_assoc, BitVec.xor_comm polynomial]
  · rw [BitVec.xor_assoc]
  · ext i
    simp only [BitVec.getElem_xor]
    cases polynomial[i] <;> simp

theorem shifts_xor (n : Nat) (a b : BitVec w) :
    shifts polynomial n (a ^^^ b) = shifts polynomial n a ^^^ shifts polynomial n b := by
  induction n generalizing a b with
  | zero => rfl
  | succ n ih => simp only [shifts, shift_xor, ih]

/-- A register whose lowest bit is clear only moves. -/
theorem shift_even (h : c.getLsbD 0 = false) : shift polynomial c = c >>> 1 := by
  simp [shift, h]

/-- A register whose `n` lowest bits are clear only moves, `n` times. -/
theorem shifts_clear {n : Nat} (h : ∀ i < n, c.getLsbD i = false) :
    shifts polynomial n c = c >>> n := by
  induction n generalizing c with
  | zero => simp [shifts]
  | succ n ih =>
    rw [shifts, shift_even (h 0 (by omega)), ih, ← BitVec.shiftRight_add, Nat.add_comm]
    intro i hi
    rw [BitVec.getLsbD_ushiftRight]
    exact h (1 + i) (by omega)

/-- **A byte at a time**: the moves of the lowest byte, and the rest moved down. -/
theorem shifts_low (crc : BitVec w) :
    shifts polynomial 8 crc = shifts polynomial 8 (crc &&& 255#w) ^^^ (crc >>> 8) := by
  have hlow : ∀ i, (255#w).getLsbD i = (decide (i < w) && decide (i < 8)) := by
    intro i
    rw [BitVec.getLsbD_ofNat, show (255 : Nat) = 2 ^ 8 - 1 by rfl, Nat.testBit_two_pow_sub_one]
  have hsplit : crc = (crc &&& 255#w) ^^^ (crc &&& ~~~255#w) := by
    ext i
    simp only [BitVec.getElem_xor, BitVec.getElem_and, BitVec.getElem_not]
    cases crc[i] <;> cases (255#w)[i] <;> rfl
  have hclear : ∀ i < 8, (crc &&& ~~~255#w).getLsbD i = false := by
    intro i hi
    by_cases hw : i < w
    · simp [hlow, hi, hw]
    · simp [hw]
  have hmoved : (crc &&& ~~~255#w) >>> 8 = crc >>> 8 := by
    refine BitVec.eq_of_getLsbD_eq fun i hi => ?_
    rw [BitVec.getLsbD_ushiftRight, BitVec.getLsbD_ushiftRight, BitVec.getLsbD_and,
      BitVec.getLsbD_not, hlow]
    by_cases hw : 8 + i < w
    · simp [hw]
    · simp [hw, BitVec.getLsbD_of_ge crc (8 + i) (by omega)]
  calc shifts polynomial 8 crc
      = shifts polynomial 8 ((crc &&& 255#w) ^^^ (crc &&& ~~~255#w)) := congrArg _ hsplit
    _ = shifts polynomial 8 (crc &&& 255#w) ^^^ (crc &&& ~~~255#w) >>> 8 := by
        rw [shifts_xor, shifts_clear hclear]
    _ = shifts polynomial 8 (crc &&& 255#w) ^^^ (crc >>> 8) := by rw [hmoved]

/-! ## A short message at once -/

theorem register_append (c : BitVec w) (message after : List Bool) :
    register polynomial c (message ++ after) =
      register polynomial (register polynomial c message) after :=
  List.foldl_append

/-- A short message has no bits above its length. -/
theorem getLsbD_word (message : List Bool) (i : Nat) :
    (word w message).getLsbD i = (decide (i < w) && message.getD i false) := by
  induction message generalizing i with
  | nil => simp [word]
  | cons b message ih =>
    rw [word, BitVec.getLsbD_xor, getLsbD_lowest, BitVec.getLsbD_shiftLeft, ih]
    cases i with
    | zero => simp
    | succ i =>
      by_cases hw : i + 1 < w
      · simp [hw, show i < w by omega]
      · simp [hw]

/-- A message that is no longer than the register is added to it at once. -/
theorem register_eq_shifts {message : List Bool} (h : message.length ≤ w) (c : BitVec w) :
    register polynomial c message = shifts polynomial message.length (c ^^^ word w message) := by
  induction message generalizing c with
  | nil => simp [register, shifts, word]
  | cons b message ih =>
    rw [List.length_cons] at h
    have hmove : shift polynomial (word w message <<< 1) = word w message := by
      rw [shift_even (by simp)]
      refine BitVec.eq_of_getLsbD_eq fun i hi => ?_
      rw [BitVec.getLsbD_ushiftRight, BitVec.getLsbD_shiftLeft, getLsbD_word, getLsbD_word]
      by_cases hw : 1 + i < w
      · simp [hw]
      · have hend := List.getElem?_eq_none (l := message) (i := i) (by omega)
        simp [hw, hend]
    calc register polynomial c (b :: message)
        = register polynomial (takeBit polynomial c b) message := rfl
      _ = shifts polynomial message.length (takeBit polynomial c b ^^^ word w message) :=
          ih (by omega) _
      _ = shifts polynomial message.length
            (shift polynomial (c ^^^ lowest w b) ^^^ shift polynomial (word w message <<< 1)) := by
          rw [hmove, takeBit]
      _ = shifts polynomial (message.length + 1) (c ^^^ word w (b :: message)) := by
          rw [← shift_xor, BitVec.xor_assoc, word, shifts]

/-- The register takes a byte. -/
theorem register_bits (h : 8 ≤ w) (b : UInt8) (c : BitVec w) :
    register polynomial c (bits b) = shifts polynomial 8 (c ^^^ b.toBitVec.setWidth w) := by
  have hword : word w (bits b) = b.toBitVec.setWidth w := by
    refine BitVec.eq_of_getLsbD_eq fun i hi => ?_
    rw [getLsbD_word, BitVec.getLsbD_setWidth]
    by_cases h8 : i < 8
    · simp [bits, h8]
    · simp [bits, BitVec.getLsbD_of_ge b.toBitVec i (by omega), h8]
  rw [register_eq_shifts (by simpa [bits] using h), hword]
  simp [bits]

@[simp] theorem messageBits_cons (b : UInt8) (data : List UInt8) :
    messageBits (b :: data) = bits b ++ messageBits data := rfl

/-! ## Bursts -/

/-- No register is lost in a move. -/
theorem shift_injective (hp : polynomial.getLsbD (w - 1) = true)
    (h : shift polynomial c = shift polynomial c') : c = c' := by
  have hzero : ∀ d : BitVec w, shift polynomial d = 0 → d = 0 := by
    intro d hd
    have hbit : ∀ i, (shift polynomial d).getLsbD i = false := fun i => by rw [hd]; simp
    have hlow : d.getLsbD 0 = false := by
      by_contra hne
      rw [Bool.not_eq_false] at hne
      have htop := hbit (w - 1)
      rw [shift, if_pos hne, BitVec.getLsbD_xor, hp, BitVec.getLsbD_ushiftRight,
        BitVec.getLsbD_of_ge d _ (by omega)] at htop
      simp at htop
    refine BitVec.eq_of_getLsbD_eq fun i hi => ?_
    cases i with
    | zero => simpa using hlow
    | succ i =>
      have := hbit i
      rw [shift_even hlow, BitVec.getLsbD_ushiftRight, Nat.add_comm] at this
      simpa using this
  have : c ^^^ c' = 0 := hzero _ (by rw [shift_xor, h]; exact BitVec.xor_self)
  calc c = (c ^^^ c') ^^^ c' := by rw [BitVec.xor_assoc, BitVec.xor_self, BitVec.xor_zero]
    _ = c' := by rw [this]; simp

theorem shifts_injective (hp : polynomial.getLsbD (w - 1) = true) {n : Nat}
    (h : shifts polynomial n c = shifts polynomial n c') : c = c' := by
  induction n generalizing c c' with
  | zero => exact h
  | succ n ih => exact shift_injective hp (ih h)

/-- Different registers stay different. -/
theorem register_injective (hp : polynomial.getLsbD (w - 1) = true) (message : List Bool)
    (h : register polynomial c message = register polynomial c' message) : c = c' := by
  induction message generalizing c c' with
  | nil => exact h
  | cons b message ih =>
    have hstep := shift_injective hp (ih h)
    calc c = (c ^^^ lowest w b) ^^^ lowest w b := by
            rw [BitVec.xor_assoc, BitVec.xor_self, BitVec.xor_zero]
      _ = c' := by rw [hstep, BitVec.xor_assoc, BitVec.xor_self, BitVec.xor_zero]

/-- Short messages of one length are told apart. -/
theorem word_injective {message message' : List Bool} (hlen : message.length = message'.length)
    (hw : message.length ≤ w) (h : word w message = word w message') : message = message' := by
  refine List.ext_getElem hlen fun i hi hi' => ?_
  have hbit := congrArg (fun v => v.getLsbD i) h
  simpa only [getLsbD_word, show i < w by omega, decide_true, Bool.true_and,
    List.getD_eq_getElem _ _ hi, List.getD_eq_getElem _ _ hi'] using hbit

/-- **Bursts are noticed.**  Messages that differ inside `w` successive bits only leave
different registers. -/
theorem register_ne_of_burst (hp : polynomial.getLsbD (w - 1) = true) (c : BitVec w)
    {message message' : List Bool} (h : Burst w message message') :
    register polynomial c message ≠ register polynomial c message' := by
  obtain ⟨before, inside, inside', after, rfl, rfl, hlen, hw, hne⟩ := h
  intro heq
  rw [register_append, register_append, register_append c (before ++ inside'),
    register_append c before inside'] at heq
  have hinside := register_injective hp after heq
  rw [register_eq_shifts hw (register polynomial c before),
    register_eq_shifts (show inside'.length ≤ w by omega), ← hlen] at hinside
  have hword := shifts_injective hp hinside
  refine hne (word_injective hlen hw ?_)
  have hcancel : ∀ a v : BitVec w, a ^^^ (a ^^^ v) = v := fun a v => by
    rw [← BitVec.xor_assoc, BitVec.xor_self, BitVec.zero_xor]
  rw [← hcancel (register polynomial c before) (word w inside), hword, hcancel]

end Crc

import Tint.Binary64
import Tint.Utf
import Mathlib.Data.List.Basic

/-!
# Marshalling between JavaScript and the CLR

`MarshalV8ToCLR` gives each JavaScript value an object of the CLR, `MarshalCLRToV8`
takes an object back.  Both decide by the kind of the value, in their own order.

* `marshal_roundtrip_iff` -- a null, string, boolean, finite number or date comes back
  as it was, if and only if it is not a string with a surrogate on its own and not
  an integer from `2 ^ 31` to `2 ^ 32`;
* `uint32_comes_back_as_handle` -- such an integer becomes a `System.UInt32`, which
  `MarshalCLRToV8` has no case for.
-/

namespace Marshal

/-- The code units of a string, on both sides. -/
abbrev Text := List UInt16

/-- A `double`. -/
inductive Double
  | finite (x : Binary64)
  | infinite (negative : Bool)
  | nan
  deriving DecidableEq

/-- The time of a `Date`, in milliseconds. -/
structure TimeValue where
  time : Int
  bound : time.natAbs ≤ 8640000000000000
  deriving DecidableEq

/-- `System.DateTimeKind` -/
inductive DateTimeKind
  | unspecified
  | utc
  | localTime
  deriving DecidableEq

/-- The last tick of `System.DateTime`. -/
def maxTicks : Int := 3155378975999999999

/-- `System.DateTime` -/
structure DateTime where
  ticks : Int
  kind : DateTimeKind
  nonneg : 0 ≤ ticks
  le_max : ticks ≤ maxTicks
  deriving DecidableEq

/-- `System::Object^`; `other` stands for the types without a case of their own. -/
inductive Object
  | nullptr
  | string (text : Text)
  | char (unit : UInt16)
  | boolean (b : Bool)
  | guid (bits : BitVec 128)
  | dateTime (dt : DateTime)
  | dateTimeOffset (dt : DateTime) (minutes : Int)
  | int32 (n : Int32)
  | uint32 (n : UInt32)
  | int64 (n : Int64)
  | double (x : Double)
  | float (bits : BitVec 32)
  | byteArray (bytes : List UInt8)
  | array (objects : List Object)
  | expando (properties : List (Text × Object))
  | intPtr (ptr : UInt64)
  | other (identity : Nat)

/-- A JavaScript value.  A date without a time is an invalid one; `bytes` is a buffer
marked with `array`, `handle` the buffer of a `GCHandle`. -/
inductive Value
  | undefined
  | null
  | boolean (b : Bool)
  | number (x : Double)
  | string (text : Text)
  | date (time : Option TimeValue)
  | array (values : List Value)
  | bytes (data : List UInt8)
  | handle (target : Object) (rawpointer : Option UInt64)
  | object (properties : List (Text × Value))
  | symbol

/-- What is thrown. -/
inductive Exception
  | argumentOutOfRange
  | argument
  | unableToConvert
  deriving DecidableEq

/-- What the marshallers ask of the framework: `System::Text::Encoding::UTF8`, the
code page of `String(char*)` and conversions of types of its own. -/
structure Framework where
  utf8 : Utf.Utf8Decoder
  ansi : List UInt8 → Text
  guidToString : BitVec 128 → Text
  dateTimeOffsetToString : DateTime → Int → Text
  toUniversalTime : DateTime → DateTime
  int64ToDouble : Int64 → Double
  floatToDouble : BitVec 32 → Double

/-- `MinDateTimeTicks`, the ticks of 1 January 1970. -/
def minDateTimeTicks : Int := 621355968000000000

/-- Arithmetic of `long long`. -/
def wrap (n : Int) : Int := (n + 2 ^ 63) % 2 ^ 64 - 2 ^ 63

/-- The time cast to `long long`; a NaN gives the least one. -/
def longLong : Option TimeValue → Int
  | none => -2 ^ 63
  | some t => t.time

/-- `gcnew System::DateTime(ticks, DateTimeKind::Utc)` -/
def newDateTime (ticks : Int) : Except Exception Object :=
  if h : 0 ≤ ticks ∧ ticks ≤ maxTicks then .ok (.dateTime ⟨ticks, .utc, h.1, h.2⟩)
  else .error .argumentOutOfRange

/-- `IsInt32` -/
def isInt32 (x : Binary64) : Prop :=
  ¬ x.IsMinusZero ∧ x.IsInteger ∧ -2 ^ 31 ≤ x.trunc ∧ x.trunc < 2 ^ 31

instance (x : Binary64) : Decidable (isInt32 x) := inferInstanceAs (Decidable (_ ∧ _))

/-- `IsUint32` -/
def isUint32 (x : Binary64) : Prop :=
  ¬ x.IsMinusZero ∧ x.IsInteger ∧ 0 ≤ x.trunc ∧ x.trunc < 2 ^ 32

instance (x : Binary64) : Decidable (isUint32 x) := inferInstanceAs (Decidable (_ ∧ _))

/-- The cases of a number: `IsInt32`, `IsUint32`, `IsNumber` -/
def marshalNumber : Double → Object
  | .finite x =>
      if isInt32 x then .int32 (Int32.ofInt x.trunc)
      else if isUint32 x then .uint32 (UInt32.ofNat x.trunc.toNat)
      else .double (.finite x)
  | x => .double x

/-- `Nan::New<v8::Integer>` -/
def numberOfInt32 (n : Int32) : Binary64 :=
  .ofInt n.toInt (by
    have hle := n.le_toInt
    have hlt := n.toInt_lt
    omega)

/-- The time of a `DateTime` in milliseconds after 1970. -/
def timeValue (dt : DateTime) : TimeValue where
  time := (dt.ticks - minDateTimeTicks).tdiv 10000
  bound := by
    have hle := dt.le_max
    have hnonneg := dt.nonneg
    unfold maxTicks at hle
    have hquot : ((dt.ticks - minDateTimeTicks).tdiv 10000).natAbs =
        (dt.ticks - minDateTimeTicks).natAbs / 10000 := Int.natAbs_tdiv _ _
    unfold minDateTimeTicks at hquot ⊢
    omega

section Framework

variable (net : Framework)

/-- `stringV82CLR` -/
def stringV82CLR (text : Text) : Text := net.utf8.getString (Utf.writeUtf8 text)

/-- `stringCLR2V8` -/
def stringCLR2V8 (text : Text) : Text := if 0 < text.length then text else []

mutual

/-- `MarshalV8ToCLR` -/
def marshalV8ToCLR : Value → Except Exception Object
  | .array values => do return .array (← marshalValues values)
  | .date time => newDateTime (wrap (wrap (longLong time * 10000) + minDateTimeTicks))
  | .string text => .ok (.string (stringV82CLR net text))
  | .boolean b => .ok (.boolean b)
  | .number x => .ok (marshalNumber x)
  | .undefined => .ok .nullptr
  | .null => .ok .nullptr
  | .bytes data => .ok (.byteArray data)
  | .handle target _ => .ok target
  | .object properties => do return .expando (← marshalProperties properties [])
  | .symbol => .error .unableToConvert

/-- The entries of an array. -/
def marshalValues : List Value → Except Exception (List Object)
  | [] => .ok []
  | v :: vs => do return (← marshalV8ToCLR v) :: (← marshalValues vs)

/-- The properties of an object; `Add` refuses a name that is there. -/
def marshalProperties : List (Text × Value) → List (Text × Object) →
    Except Exception (List (Text × Object))
  | [], added => .ok added
  | (name, v) :: properties, added => do
      let netname := net.ansi (Utf.writeUtf8 name)
      let netvalue ← marshalV8ToCLR v
      if added.any fun p => p.1 = netname then .error .argument
      else marshalProperties properties (added ++ [(netname, netvalue)])

end

/-- `MarshalCLRToV8` -/
def marshalCLRToV8 : Object → Value
  | .nullptr => .null
  | .string text => .string (stringCLR2V8 text)
  | .char unit => .string (stringCLR2V8 [unit])
  | .boolean b => .boolean b
  | .guid bits => .string (stringCLR2V8 (net.guidToString bits))
  | .dateTime dt =>
      match dt.kind with
      | .localTime => .date (some (timeValue (net.toUniversalTime dt)))
      | .unspecified => .date (some (timeValue { dt with kind := .utc }))
      | .utc => .date (some (timeValue dt))
  | .dateTimeOffset dt minutes => .string (stringCLR2V8 (net.dateTimeOffsetToString dt minutes))
  | .int32 n => .number (.finite (numberOfInt32 n))
  | .int64 n => .number (net.int64ToDouble n)
  | .double x => .number x
  | .float bits => .number (net.floatToDouble bits)
  | .byteArray data => .bytes data
  | .intPtr ptr => .handle (.intPtr ptr) (some ptr)
  | object => .handle object none

/-- **The round trip.** -/
def RoundTrips (v : Value) : Prop := marshalCLRToV8 net <$> marshalV8ToCLR net v = .ok v

end Framework

/-- Null, a string, a boolean, a finite number, or a date of `System.DateTime`. -/
def Value.IsPlain : Value → Prop
  | .null => True
  | .string _ => True
  | .boolean _ => True
  | .number (.finite _) => True
  | .date (some t) =>
      0 ≤ t.time * 10000 + minDateTimeTicks ∧ t.time * 10000 + minDateTimeTicks ≤ maxTicks
  | _ => False

/-- The condition: no surrogate on its own, no integer from `2 ^ 31` to `2 ^ 32`. -/
def Value.Survives : Value → Prop
  | .string text => Utf.WellFormed text
  | .number (.finite x) => ∀ n : Int, x.units = n * Binary64.one → n < 2 ^ 31 ∨ 2 ^ 32 ≤ n
  | _ => True

/-! ## Strings -/

theorem stringCLR2V8_eq (text : Text) : stringCLR2V8 text = text := by
  unfold stringCLR2V8
  split
  · rfl
  · next h => exact (List.length_eq_zero_iff.mp (by omega)).symm

theorem string_roundtrip_iff (net : Framework) (text : Text) :
    RoundTrips net (.string text) ↔ Utf.WellFormed text := by
  have hvalue : marshalCLRToV8 net <$> marshalV8ToCLR net (.string text) =
      .ok (.string (stringV82CLR net text)) := by
    rw [marshalV8ToCLR]
    exact congrArg (fun text => Except.ok (Value.string text)) (stringCLR2V8_eq _)
  rw [RoundTrips, hvalue, Except.ok.injEq, Value.string.injEq]
  exact net.utf8.getString_writeUtf8_iff

/-! ## Numbers -/

/-- A number that is a 32 bit integer is that integer. -/
theorem numberOfInt32_trunc {x : Binary64} (h : isInt32 x) :
    numberOfInt32 (Int32.ofInt x.trunc) = x := by
  obtain ⟨hzero, hinteger, hle, hlt⟩ := h
  have htoInt : (Int32.ofInt x.trunc).toInt = x.trunc := Int32.toInt_ofInt_of_le hle hlt
  have hbound : x.trunc.natAbs < 2 ^ 53 := by omega
  calc numberOfInt32 (Int32.ofInt x.trunc)
      = Binary64.ofInt x.trunc hbound := by unfold numberOfInt32; congr
    _ = x := Binary64.ofInt_trunc hinteger hzero hbound

/-- The numbers that `IsUint32` takes and `IsInt32` leaves. -/
theorem isUint32_only_iff {x : Binary64} :
    (¬ isInt32 x ∧ isUint32 x) ↔
      ∃ n : Int, x.units = n * Binary64.one ∧ 2 ^ 31 ≤ n ∧ n < 2 ^ 32 := by
  constructor
  · rintro ⟨hint, hzero, hinteger, hnonneg, hlt⟩
    refine ⟨x.trunc, hinteger, ?_, hlt⟩
    by_contra hsmall
    exact hint ⟨hzero, hinteger, by omega, by omega⟩
  · rintro ⟨n, hn, hle, hlt⟩
    have htrunc : x.trunc = n := Binary64.trunc_of_units hn
    have hzero : ¬ x.IsMinusZero := by
      rintro ⟨hneg, hmantissa⟩
      have hunits : x.units = 0 := by
        rw [Binary64.units, Binary64.magnitude_eq_zero.mpr hmantissa]
        simp
      have hpos := Int.mul_pos (a := n) (b := Binary64.one) (by omega)
        (by exact_mod_cast Binary64.one_pos)
      omega
    refine ⟨fun hint => ?_, hzero, Binary64.isInteger_iff.mpr ⟨n, hn⟩, by omega, by omega⟩
    have := hint.2.2.2
    omega

theorem number_roundtrip_iff (net : Framework) (x : Binary64) :
    RoundTrips net (.number (.finite x)) ↔ ¬ (¬ isInt32 x ∧ isUint32 x) := by
  have hvalue : marshalCLRToV8 net <$> marshalV8ToCLR net (.number (.finite x)) =
      .ok (marshalCLRToV8 net (marshalNumber (.finite x))) := by
    rw [marshalV8ToCLR]
    rfl
  rw [RoundTrips, hvalue, Except.ok.injEq, marshalNumber]
  by_cases hint : isInt32 x
  · rw [if_pos hint, marshalCLRToV8, numberOfInt32_trunc hint]
    simp [hint]
  · by_cases huint : isUint32 x
    · rw [if_neg hint, if_pos huint, marshalCLRToV8]
      · simp [hint, huint]
      all_goals simp
    · rw [if_neg hint, if_neg huint, marshalCLRToV8]
      simp [huint]

/-! ## Dates -/

theorem wrap_eq {n : Int} (hle : -2 ^ 63 ≤ n) (hlt : n < 2 ^ 63) : wrap n = n := by
  unfold wrap
  omega

/-- A date of `System.DateTime` comes back. -/
theorem date_roundtrip (net : Framework) {t : TimeValue} (h : (Value.date (some t)).IsPlain) :
    RoundTrips net (.date (some t)) := by
  obtain ⟨hnonneg, hle⟩ := h
  have hticks : wrap (wrap (longLong (some t) * 10000) + minDateTimeTicks) =
      t.time * 10000 + minDateTimeTicks := by
    have hbound := t.bound
    unfold maxTicks at hle
    unfold minDateTimeTicks at hnonneg hle ⊢
    rw [longLong, wrap_eq (n := t.time * 10000) (by omega) (by omega),
      wrap_eq (by omega) (by omega)]
  rw [RoundTrips, marshalV8ToCLR, hticks, newDateTime, dif_pos ⟨hnonneg, hle⟩]
  have htime : timeValue ⟨t.time * 10000 + minDateTimeTicks, .utc, hnonneg, hle⟩ = t := by
    have hdiv : (t.time * 10000 + minDateTimeTicks - minDateTimeTicks).tdiv 10000 = t.time := by
      rw [Int.add_sub_cancel, Int.mul_tdiv_cancel _ (by decide)]
    obtain ⟨time, bound⟩ := t
    rw [timeValue, TimeValue.mk.injEq]
    exact hdiv
  change Except.ok (Value.date (some (timeValue _))) = _
  rw [htime]

/-! ## All plain values -/

/-- **Marshalling there and back.**  Of nulls, strings, booleans, finite numbers and
dates exactly those come back that meet the condition. -/
theorem marshal_roundtrip_iff (net : Framework) (v : Value) (h : v.IsPlain) :
    RoundTrips net v ↔ v.Survives := by
  match v, h with
  | .null, _ =>
      rw [RoundTrips, marshalV8ToCLR]
      exact iff_of_true rfl trivial
  | .boolean b, _ =>
      rw [RoundTrips, marshalV8ToCLR]
      exact iff_of_true rfl trivial
  | .string text, _ => exact string_roundtrip_iff net text
  | .number (.finite x), _ =>
      rw [number_roundtrip_iff, isUint32_only_iff, not_exists]
      refine forall_congr' fun n => ?_
      rw [not_and, not_and_or, not_le, not_lt]
  | .date (some t), h => exact iff_of_true (date_roundtrip net h) trivial

/-- A framework in the time zone of UTC, whose code page takes bytes as they are. -/
def utcFramework : Framework where
  utf8 := Utf.bytewise
  ansi bytes := bytes.map fun b => UInt16.ofNat b.toNat
  guidToString _ := []
  dateTimeOffsetToString _ _ := []
  toUniversalTime dt := { dt with kind := .utc }
  int64ToDouble n :=
    if h : n.toInt.natAbs < 2 ^ 53 then .finite (.ofInt n.toInt h) else .nan
  floatToDouble _ := .nan

/-- `-1` comes back. -/
theorem marshal_roundtrip_minusOne :
    RoundTrips utcFramework (.number (.finite (.ofInt (-1) (by decide)))) := by
  have hplain : (Value.number (.finite (.ofInt (-1) (by decide)))).IsPlain := trivial
  refine (marshal_roundtrip_iff utcFramework _ hplain).mpr fun n hn => .inl ?_
  have htrunc := Binary64.trunc_of_units hn
  rw [Binary64.trunc_of_units (Binary64.units_ofInt _ _)] at htrunc
  omega

/-- **The gap.**  `2 ^ 31` comes back as the handle of a `System.UInt32`. -/
theorem uint32_comes_back_as_handle :
    ¬ ∀ (net : Framework) (v : Value), v.IsPlain → RoundTrips net v := by
  intro hall
  have hround := hall utcFramework (.number (.finite (.ofInt (2 ^ 31) (by decide)))) trivial
  rw [number_roundtrip_iff] at hround
  exact hround (isUint32_only_iff.mpr ⟨2 ^ 31, Binary64.units_ofInt _ _, by decide, by decide⟩)

end Marshal

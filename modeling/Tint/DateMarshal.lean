import Tint.Marshal

/-!
# Dates and ticks

A `Date` counts milliseconds from 1970, a `DateTime` ticks of a ten-thousandth of that from
the year 1.  `MarshalV8ToCLR` computes the ticks with `long long`, and `MarshalCLRToV8`
divides them with the truncating division of C.

* `date_marshal_iff` -- a `Date` becomes the `DateTime` of its ticks or an error exactly when
  it is valid and its ticks, if they are too many, do not wrap around into the range of a
  `DateTime`; a `DateTime` comes back truncated exactly when it is not before 1970 or has
  whole milliseconds;
* `nan_becomes_1970` -- an invalid `Date` becomes the first of January 1970.
-/

namespace DateMarshal

open Marshal

/-! ## The property and the condition -/

/-- The ticks that a time stands for. -/
def ticksOf (t : TimeValue) : Int := t.time * 10000 + minDateTimeTicks

/-- The `DateTime` that `MarshalCLRToV8` takes the ticks of. -/
def universal (net : Framework) (dt : DateTime) : DateTime :=
  match dt.kind with
  | .localTime => net.toUniversalTime dt
  | .unspecified => { dt with kind := .utc }
  | .utc => dt

/-- A time without the ticks after its last whole millisecond. -/
def truncated (dt : DateTime) : DateTime where
  ticks := dt.ticks - dt.ticks % 10000
  kind := .utc
  nonneg := by
    have hnonneg := dt.nonneg
    omega
  le_max := by
    have hle := dt.le_max
    omega

/-- **A date.**  It becomes the `DateTime` with its ticks, or there is an error. -/
def Exact (net : Framework) (date : Option TimeValue) : Prop :=
  ∀ object, marshalV8ToCLR net (.date date) = .ok object →
    ∃ t dt, date = some t ∧ object = .dateTime dt ∧ dt.ticks = ticksOf t

/-- **A `DateTime`.**  It comes back truncated to milliseconds, in UTC. -/
def Truncates (net : Framework) (dt : DateTime) : Prop :=
  marshalV8ToCLR net (marshalCLRToV8 net (.dateTime dt)) =
    .ok (.dateTime (truncated (universal net dt)))

/-- The date is valid, and its ticks are those of a `DateTime` or are not taken for some by 64
bits. -/
def InRange (date : Option TimeValue) : Prop :=
  ∃ t, date = some t ∧
    ((0 ≤ ticksOf t ∧ ticksOf t ≤ maxTicks) ∨ maxTicks < ticksOf t % 2 ^ 64)

/-- Truncating down is truncating towards 1970. -/
def RoundsDown (net : Framework) (dt : DateTime) : Prop :=
  minDateTimeTicks ≤ (universal net dt).ticks ∨ 10000 ∣ (universal net dt).ticks

/-! ## From a date -/

/-- Wrapping around twice is wrapping around once. -/
theorem wrap_wrap_add (m n : Int) : wrap (wrap m + n) = wrap (m + n) := by
  unfold wrap
  omega

theorem newDateTime_exact_iff (n m : Int) :
    (∀ object, newDateTime n = .ok object → ∃ dt, object = .dateTime dt ∧ dt.ticks = m) ↔
      (0 ≤ n ∧ n ≤ maxTicks → n = m) := by
  unfold newDateTime
  by_cases h : 0 ≤ n ∧ n ≤ maxTicks
  · rw [dif_pos h]
    constructor
    · intro hall _
      obtain ⟨dt, hobject, hticks⟩ := hall _ rfl
      obtain rfl := Object.dateTime.inj hobject
      exact hticks
    · intro heq object hobject
      obtain rfl := Except.ok.inj hobject
      exact ⟨_, rfl, heq h⟩
  · rw [dif_neg h]
    exact iff_of_true (fun object hobject => by cases hobject) fun hin => absurd hin h

/-- The ticks that 64 bits keep of `n`. -/
theorem wrap_exact_iff (n : Int) :
    (0 ≤ wrap n ∧ wrap n ≤ maxTicks → wrap n = n) ↔
      (0 ≤ n ∧ n ≤ maxTicks) ∨ maxTicks < n % 2 ^ 64 := by
  unfold wrap maxTicks
  omega

theorem exact_iff (net : Framework) (date : Option TimeValue) : Exact net date ↔ InRange date := by
  cases date with
  | none =>
      -- the least `long long` times 10000 is 0 in 64 bits
      refine iff_of_false (fun hexact => ?_) fun hrange => ?_
      · have hmarshal : marshalV8ToCLR net (.date none) =
            .ok (.dateTime ⟨minDateTimeTicks, .utc, by decide, by decide⟩) := by
          rw [marshalV8ToCLR]
          rfl
        obtain ⟨t, dt, hdate, -⟩ := hexact _ hmarshal
        cases hdate
      · obtain ⟨t, hdate, -⟩ := hrange
        cases hdate
  | some t =>
      have hmarshal : marshalV8ToCLR net (.date (some t)) = newDateTime (wrap (ticksOf t)) := by
        rw [marshalV8ToCLR, wrap_wrap_add]
        rfl
      have hexact : Exact net (some t) ↔ ∀ object, newDateTime (wrap (ticksOf t)) = .ok object →
          ∃ dt, object = .dateTime dt ∧ dt.ticks = ticksOf t := by
        rw [Exact, hmarshal]
        simp only [Option.some.injEq, exists_and_left, exists_eq_left']
      have hrange : InRange (some t) ↔
          (0 ≤ ticksOf t ∧ ticksOf t ≤ maxTicks) ∨ maxTicks < ticksOf t % 2 ^ 64 := by
        simp only [InRange, Option.some.injEq, exists_eq_left']
      rw [hexact, hrange, newDateTime_exact_iff, wrap_exact_iff]

/-! ## From a `DateTime` -/

theorem marshalCLRToV8_dateTime (net : Framework) (dt : DateTime) :
    marshalCLRToV8 net (.dateTime dt) = .date (some (timeValue (universal net dt))) := by
  rw [marshalCLRToV8, universal]
  cases dt.kind <;> rfl

/-- Before 1970 the quotient is rounded up. -/
theorem tdiv_before {ticks : Int} (h : ticks ≤ minDateTimeTicks) :
    (ticks - minDateTimeTicks).tdiv 10000 = -((minDateTimeTicks - ticks) / 10000) := by
  rw [← Int.tdiv_eq_ediv_of_nonneg (by omega), ← Int.neg_tdiv, Int.neg_sub]

/-- Ticks divided by 10000 towards 1970 and multiplied again. -/
theorem tdiv_mul_eq_iff {ticks : Int} :
    (ticks - minDateTimeTicks).tdiv 10000 * 10000 + minDateTimeTicks = ticks - ticks % 10000 ↔
      minDateTimeTicks ≤ ticks ∨ 10000 ∣ ticks := by
  rcases Int.le_total minDateTimeTicks ticks with hlate | hearly
  · rw [Int.tdiv_eq_ediv_of_nonneg (by omega)]
    unfold minDateTimeTicks at *
    omega
  · rw [tdiv_before hearly]
    unfold minDateTimeTicks at *
    omega

/-- They stay in the range. -/
theorem tdiv_mul_mem {ticks : Int} (hnonneg : 0 ≤ ticks) (hle : ticks ≤ maxTicks) :
    0 ≤ (ticks - minDateTimeTicks).tdiv 10000 * 10000 + minDateTimeTicks ∧
      (ticks - minDateTimeTicks).tdiv 10000 * 10000 + minDateTimeTicks ≤ maxTicks := by
  rcases Int.le_total minDateTimeTicks ticks with hlate | hearly
  · rw [Int.tdiv_eq_ediv_of_nonneg (by omega)]
    unfold maxTicks minDateTimeTicks at *
    omega
  · rw [tdiv_before hearly]
    unfold maxTicks minDateTimeTicks at *
    omega

theorem truncates_iff (net : Framework) (dt : DateTime) : Truncates net dt ↔ RoundsDown net dt := by
  obtain ⟨hnonneg, hle⟩ := tdiv_mul_mem (universal net dt).nonneg (universal net dt).le_max
  have hticks : wrap (wrap (longLong (some (timeValue (universal net dt))) * 10000) +
      minDateTimeTicks) = ticksOf (timeValue (universal net dt)) := by
    rw [wrap_wrap_add]
    refine wrap_eq ?_ ?_
    · exact le_trans (by decide) hnonneg
    · exact lt_of_le_of_lt hle (by decide)
  rw [Truncates, marshalCLRToV8_dateTime, marshalV8ToCLR, hticks, newDateTime,
    dif_pos ⟨hnonneg, hle⟩]
  simp only [Except.ok.injEq, Object.dateTime.injEq, truncated, DateTime.mk.injEq, and_true]
  exact tdiv_mul_eq_iff

/-! ## Both directions -/

/-- **Dates.**  Each direction does what it should exactly under its condition. -/
theorem date_marshal_iff (net : Framework) :
    (∀ date, Exact net date ↔ InRange date) ∧ ∀ dt, Truncates net dt ↔ RoundsDown net dt :=
  ⟨exact_iff net, truncates_iff net⟩

/-- `new Date(NaN)` becomes a `DateTime`. -/
theorem nan_becomes_1970 :
    ¬ ∀ net : Framework, (∀ date, Exact net date) ∧ ∀ dt, Truncates net dt := by
  intro hall
  obtain ⟨t, hnone, -⟩ := (exact_iff utcFramework none).mp ((hall utcFramework).1 none)
  cases hnone

/-- Dates far enough from 1970 wrap around. -/
example : ¬ InRange (some ⟨1844674407370956, by decide⟩) := by
  intro h
  obtain ⟨t, ht, h⟩ := h
  obtain rfl := Option.some.inj ht
  revert h
  decide

end DateMarshal

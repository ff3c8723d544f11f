import Tint.Alignment
import Tint.ByteMemory

/-!
# A buffer up to a block of zeros

`reinterpretUntilZeros` makes a buffer over foreign memory that ends where the first
block of zero bytes starts.  It looks at every multiple of the block's width, and only
below `kMaxLength`; but where it finds no block it has gone on by whole blocks, so the
buffer is longer than `kMaxLength`, unless the width divides it.

* `scan_ends` -- the search ends, at the first block or behind the cap;
* `size_without_block` -- without a block the size is the cap rounded up to the width;
* `until_zeros_right_iff` -- when the size and the bytes read are the right ones.
-/

namespace UntilZeros

open Alignment ByteMemory

/-- `kMaxLength` -/
def kMaxLength : Nat := 0x3fffffff

/-- The variables of the search.  `reads` are the offsets that were read so far. -/
structure Scan where
  size : Nat
  ended : Bool
  reads : List Nat

/-- The loop over `i` with so many turns left: whether it left `end` set, and the
offsets that it read. -/
def zeros (m : Memory) (ptr : Nat) : Nat → Nat → Bool × List Nat
  | 0, _ => (true, [])
  | n + 1, k =>
      if m (ptr + k) ≠ 0 then (false, [k])
      else
        let rest := zeros m ptr n (k + 1)
        (rest.1, k :: rest.2)

/-- One turn of the outer loop. -/
def turn (m : Memory) (ptr numZeros : Nat) (s : Scan) : Scan :=
  let block := zeros m ptr numZeros s.size
  { size := if block.1 then s.size else s.size + numZeros
    ended := block.1
    reads := s.reads ++ block.2 }

/-- The outer loop, for so many turns; none if it has not ended by then. -/
def scan (m : Memory) (ptr numZeros : Nat) : Nat → Scan → Option Scan
  | 0, _ => none
  | fuel + 1, s =>
      if ¬ s.ended ∧ s.size < kMaxLength then scan m ptr numZeros fuel (turn m ptr numZeros s)
      else some s

/-- `Buffer::Data(buf) + offset` -/
def pointer (data : Nat) (offset : Int) : Nat := ((data + offset) % 2 ^ 64).toNat

/-- What a call ends with: the new buffer and the offsets that were read. -/
structure Returned where
  rtn : Buffer
  reads : List Nat

/-- `ReinterpretBufferUntilZeros` -/
def ReinterpretBufferUntilZeros (m : Memory) (buf : Option Nat) (numZeros : UInt32)
    (offset : Int) (fuel : Nat) : Option (Except String Returned) :=
  match buf with
  | none => some (.error "reinterpretUntilZeros: Buffer instance expected")
  | some data =>
      let ptr := pointer data offset
      if ptr = 0 then
        some (.error "reinterpretUntilZeros: Cannot reinterpret from NULL pointer")
      else
        (scan m ptr numZeros.toNat fuel ⟨0, false, []⟩).map fun s =>
          .ok ⟨⟨ptr, s.size⟩, s.reads⟩

/-! ## What is searched for -/

/-- So many zero bytes start there. -/
def ZerosAt (m : Memory) (ptr n k : Nat) : Prop := ∀ i < n, m (ptr + (k + i)) = 0

/-- A block of zeros at a multiple of its width, before the cap. -/
def Block (m : Memory) (ptr n k : Nat) : Prop := n ∣ k ∧ k < kMaxLength ∧ ZerosAt m ptr n k

/-- **The right end.**  The buffer ends at the first block, or at the cap if there is
none, and nothing behind that block or the cap was read. -/
structure Right (m : Memory) (ptr n : Nat) (r : Returned) : Prop where
  block : ∀ k, IsLeast { k | Block m ptr n k } k →
    r.rtn = ⟨ptr, k⟩ ∧ ∀ o ∈ r.reads, o < k + n
  cap : (¬ ∃ k, Block m ptr n k) → r.rtn = ⟨ptr, kMaxLength⟩ ∧ ∀ o ∈ r.reads, o < kMaxLength

variable {m : Memory} {ptr n : Nat}

/-! ## One block -/

/-- The inner loop finds out whether a block of zeros starts there. -/
theorem zeros_iff {k : Nat} : (zeros m ptr n k).1 = true ↔ ZerosAt m ptr n k := by
  induction n generalizing k with
  | zero => simp [zeros, ZerosAt]
  | succ n ih =>
      unfold zeros
      split
      · next hbyte =>
          have hnot : ¬ ZerosAt m ptr (n + 1) k := fun hall => hbyte (hall 0 (Nat.succ_pos n))
          exact iff_of_false Bool.false_ne_true hnot
      · next hbyte =>
          rw [not_not] at hbyte
          rw [ih]
          constructor
          · intro hrest i hi
            cases i with
            | zero => exact hbyte
            | succ i =>
                have h := hrest i (by omega)
                rwa [Nat.add_assoc, Nat.add_comm 1 i] at h
          · intro hall i hi
            have h := hall (i + 1) (by omega)
            rwa [Nat.add_assoc, Nat.add_comm 1 i]

/-- It reads inside the block. -/
theorem reads_inside {k o : Nat} (h : o ∈ (zeros m ptr n k).2) : o < k + n := by
  induction n generalizing k with
  | zero => simp [zeros] at h
  | succ n ih =>
      unfold zeros at h
      split at h
      · obtain rfl := List.mem_singleton.mp h
        omega
      · rcases List.mem_cons.mp h with rfl | h
        · omega
        · have := ih h
          omega

/-! ## The search -/

/-- **Searching.**  No block starts before the place that is reached, and nothing from
there on was read. -/
structure Searching (m : Memory) (ptr n : Nat) (s : Scan) : Prop where
  dvd : n ∣ s.size
  near : s.size < kMaxLength + n
  none : ∀ k < s.size, ¬ Block m ptr n k
  reads : ∀ o ∈ s.reads, o < s.size

/-- **Found.**  The first block starts at the place that is reached, and nothing behind
it was read. -/
structure Found (m : Memory) (ptr n : Nat) (s : Scan) : Prop where
  least : IsLeast { k | Block m ptr n k } s.size
  reads : ∀ o ∈ s.reads, o < s.size + n

/-- How the search ends. -/
def Ends (m : Memory) (ptr n : Nat) (s : Scan) : Prop :=
  Found m ptr n s ∨ Searching m ptr n s ∧ kMaxLength ≤ s.size

/-- A turn reads inside the block that it looks at. -/
theorem turn_reads {s : Scan} (hs : Searching m ptr n s) :
    ∀ o ∈ (turn m ptr n s).reads, o < s.size + n := by
  intro o ho
  rcases List.mem_append.mp ho with ho | ho
  · have := hs.reads o ho
    omega
  · exact reads_inside ho

/-- A turn that finds a block. -/
theorem turn_found {s : Scan} (hs : Searching m ptr n s) (hcap : s.size < kMaxLength)
    (hzeros : ZerosAt m ptr n s.size) :
    (turn m ptr n s).ended = true ∧ Found m ptr n (turn m ptr n s) := by
  have hblock := zeros_iff.mpr hzeros
  have hsize : (turn m ptr n s).size = s.size := by simp [turn, hblock]
  refine ⟨hblock, ⟨?_, ?_⟩, ?_⟩
  · rw [hsize]
    exact ⟨hs.dvd, hcap, hzeros⟩
  · intro k hk
    rw [hsize]
    by_contra hlt
    exact hs.none k (not_le.mp hlt) hk
  · rw [hsize]
    exact turn_reads hs

/-- A turn that goes on. -/
theorem turn_searching {s : Scan} (hs : Searching m ptr n s) (hcap : s.size < kMaxLength)
    (hzeros : ¬ ZerosAt m ptr n s.size) :
    (turn m ptr n s).ended = false ∧ (turn m ptr n s).size = s.size + n ∧
      Searching m ptr n (turn m ptr n s) := by
  have hblock : (zeros m ptr n s.size).1 = false := by
    rw [← Bool.not_eq_true, zeros_iff]
    exact hzeros
  have hsize : (turn m ptr n s).size = s.size + n := by simp [turn, hblock]
  refine ⟨hblock, hsize, ?_, ?_, ?_, ?_⟩
  · rw [hsize]
    exact Nat.dvd_add hs.dvd (Nat.dvd_refl n)
  · omega
  · intro k hk hfound
    rw [hsize] at hk
    -- a multiple of the width that is not before this block and not behind it
    have hk' : k = s.size := by
      have hle : s.size ≤ k := by
        by_contra hlt
        exact hs.none k (not_le.mp hlt) hfound
      have hdvd := (Nat.dvd_sub hfound.1 hs.dvd)
      have hzero := Nat.eq_zero_of_dvd_of_lt hdvd (by omega)
      omega
    subst hk'
    exact hzeros hfound.2.2
  · rw [hsize]
    exact turn_reads hs

/-- The width is positive where there are no zeros. -/
theorem pos_of_not_zerosAt {k : Nat} (h : ¬ ZerosAt m ptr n k) : 0 < n := by
  rcases Nat.eq_zero_or_pos n with rfl | hn
  · exact absurd (fun i hi => absurd hi (Nat.not_lt_zero i)) h
  · exact hn

/-- More turns than it takes change nothing. -/
theorem scan_mono {fuel more : Nat} {s s' : Scan} (h : scan m ptr n fuel s = some s')
    (hle : fuel ≤ more) : scan m ptr n more s = some s' := by
  induction fuel generalizing s more with
  | zero => cases h
  | succ fuel ih =>
      obtain ⟨more, rfl⟩ : ∃ k, more = k + 1 := ⟨more - 1, by omega⟩
      unfold scan at h ⊢
      split
      · next hgo =>
          rw [if_pos hgo] at h
          exact ih h (by omega)
      · next hstop => rwa [if_neg hstop] at h

/-- A search that is not at its end yet ends. -/
theorem scan_of_searching {fuel : Nat} {s : Scan} (hs : Searching m ptr n s)
    (hended : s.ended = false) (hfuel : kMaxLength - s.size + 2 ≤ fuel) :
    ∃ s', scan m ptr n fuel s = some s' ∧ Ends m ptr n s' := by
  induction fuel generalizing s with
  | zero => omega
  | succ fuel ih =>
      unfold scan
      by_cases hcap : s.size < kMaxLength
      · rw [if_pos ⟨by simp [hended], hcap⟩]
        by_cases hzeros : ZerosAt m ptr n s.size
        · obtain ⟨hstop, hfound⟩ := turn_found hs hcap hzeros
          obtain ⟨fuel, rfl⟩ : ∃ k, fuel = k + 1 := ⟨fuel - 1, by omega⟩
          exact ⟨_, by simp [scan, hstop], Or.inl hfound⟩
        · obtain ⟨hgo, hsize, hnext⟩ := turn_searching hs hcap hzeros
          have hpos := pos_of_not_zerosAt hzeros
          apply ih hnext hgo
          omega
      · rw [if_neg fun h => hcap h.2]
        exact ⟨s, rfl, Or.inr ⟨hs, not_lt.mp hcap⟩⟩

/-- The search starts right. -/
theorem searching_start (h : 0 < kMaxLength + n) : Searching m ptr n ⟨0, false, []⟩ where
  dvd := Nat.dvd_zero n
  near := h
  none := fun _ hk => absurd hk (Nat.not_lt_zero _)
  reads := by simp

/-- **The search ends.**  It returns, with the first block or behind the cap. -/
theorem scan_ends (m : Memory) (ptr n : Nat) :
    ∃ s, (∀ fuel ≥ kMaxLength + 2, scan m ptr n fuel ⟨0, false, []⟩ = some s) ∧
      Ends m ptr n s := by
  have hstart : Searching m ptr n ⟨0, false, []⟩ :=
    searching_start (Nat.add_pos_left (by decide) n)
  obtain ⟨s, hscan, hends⟩ := scan_of_searching hstart rfl (Nat.le_refl (kMaxLength + 2))
  exact ⟨s, fun fuel hfuel => scan_mono hscan hfuel, hends⟩

/-- A place below the cap, and a block from there on. -/
theorem small_of_dvd {k c : Nat} (hdvd : n ∣ k) (hn : n < 2 ^ 32) (hk : k < kMaxLength)
    (hc : c ≤ k + n) : c < 2 ^ 32 := by
  rcases Nat.eq_zero_or_pos k with rfl | hpos
  · omega
  · have hle := Nat.le_of_dvd hpos hdvd
    rw [kMaxLength] at hk
    omega

/-- **No overflow.**  The size and the offsets are numbers of 32 bits. -/
theorem small_of_ends {s : Scan} (h : Ends m ptr n s) (hn : n < 2 ^ 32) :
    s.size < 2 ^ 32 ∧ ∀ o ∈ s.reads, o < 2 ^ 32 := by
  obtain hfound | ⟨hs, hcap⟩ := h
  · have hsmall := fun c => small_of_dvd (c := c) hfound.least.1.1 hn hfound.least.1.2.1
    exact ⟨hsmall _ (by omega), fun o ho => hsmall o (hfound.reads o ho).le⟩
  · have hsize : s.size < 2 ^ 32 := by
      rcases Nat.eq_zero_or_pos s.size with hzero | hpos
      · omega
      · have hle := Nat.le_of_dvd hpos hs.dvd
        have hnear := hs.near
        exact small_of_dvd (Nat.dvd_sub hs.dvd (Nat.dvd_refl n)) hn (by omega)
          (k := s.size - n) (by omega)
    exact ⟨hsize, fun o ho => (hs.reads o ho).trans hsize⟩

/-- **Without a block** the buffer ends at the cap, rounded up to the width. -/
theorem size_without_block {s : Scan} (h : Ends m ptr n s) (hnone : ¬ ∃ k, Block m ptr n k) :
    0 < n ∧ s.size = alignUp kMaxLength n ∧ ∀ o ∈ s.reads, o < s.size := by
  obtain hfound | ⟨hs, hcap⟩ := h
  · exact absurd ⟨_, hfound.least.1⟩ hnone
  · have hpos : 0 < n := by
      have hnear := hs.near
      omega
    refine ⟨hpos, ?_, hs.reads⟩
    -- both are the multiple in the last block that starts before the cap
    have hle := alignUp_le hpos hs.dvd hcap
    have hlow := le_alignUp kMaxLength n
    have hnear := hs.near
    have hzero := Nat.eq_zero_of_dvd_of_lt (Nat.dvd_sub hs.dvd (dvd_alignUp kMaxLength hpos))
      (by omega)
    omega

/-- With a block the buffer ends at the first one. -/
theorem found_of_block {s : Scan} {k : Nat} (h : Ends m ptr n s) (hk : Block m ptr n k) :
    Found m ptr n s := by
  obtain hfound | ⟨hs, hcap⟩ := h
  · exact hfound
  · exact absurd hk (hs.none k (lt_of_lt_of_le hk.2.1 hcap))

/-- The end of a search is the right one, if there is a block or the cap is a multiple of
the width, and not otherwise. -/
theorem right_iff {s : Scan} (h : Ends m ptr n s) :
    Right m ptr n ⟨⟨ptr, s.size⟩, s.reads⟩ ↔ (∃ k, Block m ptr n k) ∨ n ∣ kMaxLength := by
  constructor
  · intro hright
    by_cases hblock : ∃ k, Block m ptr n k
    · exact Or.inl hblock
    · obtain ⟨hpos, hsize, -⟩ := size_without_block h hblock
      have hcap : s.size = kMaxLength := congrArg Buffer.length (hright.cap hblock).1
      rw [hsize] at hcap
      exact Or.inr (hcap ▸ dvd_alignUp kMaxLength hpos)
  · intro hcond
    constructor
    · intro k hk
      have hfound := found_of_block h hk.1
      obtain rfl := hfound.least.unique hk
      exact ⟨rfl, hfound.reads⟩
    · intro hnone
      obtain ⟨-, hsize, hreads⟩ := size_without_block h hnone
      rw [alignUp_of_dvd (hcond.resolve_left hnone)] at hsize
      rw [hsize] at hreads ⊢
      exact ⟨rfl, hreads⟩

/-- A call on a buffer, at an address that is not zero, does the search. -/
theorem reinterpret_of_scan {data : Nat} {offset : Int} {numZeros : UInt32} {fuel : Nat}
    {s : Scan} (hptr : pointer data offset ≠ 0)
    (h : scan m (pointer data offset) numZeros.toNat fuel ⟨0, false, []⟩ = some s) :
    ReinterpretBufferUntilZeros m (some data) numZeros offset fuel =
      some (.ok ⟨⟨pointer data offset, s.size⟩, s.reads⟩) := by
  simp [ReinterpretBufferUntilZeros, hptr, h]

/-- **A buffer until zeros.**  A call on a buffer returns.  It returns the right buffer
if and only if a block of zeros starts before the cap, at a multiple of its width, or
the cap is such a multiple. -/
theorem until_zeros_right_iff (m : Memory) (data : Nat) (offset : Int) (numZeros : UInt32)
    (hptr : pointer data offset ≠ 0) :
    ∃ r, (∀ fuel ≥ kMaxLength + 2,
        ReinterpretBufferUntilZeros m (some data) numZeros offset fuel = some (.ok r)) ∧
      (Right m (pointer data offset) numZeros.toNat r ↔
        (∃ k, Block m (pointer data offset) numZeros.toNat k) ∨ numZeros.toNat ∣ kMaxLength) := by
  obtain ⟨s, hscan, hends⟩ := scan_ends m (pointer data offset) numZeros.toNat
  exact ⟨_, fun fuel hfuel => reinterpret_of_scan hptr (hscan fuel hfuel), right_iff hends⟩

/-- A string of wide characters, up to the zero character behind it. -/
theorem until_zeros_right_iff_wide :
    ∃ r, (∀ fuel ≥ kMaxLength + 2,
        ReinterpretBufferUntilZeros (fun a => if a < 4100 then 65 else 0) (some 4096) 2 0 fuel =
          some (.ok r)) ∧
      (Right (fun a => if a < 4100 then 65 else 0) (pointer 4096 0) (2 : UInt32).toNat r ↔
        (∃ k, Block (fun a => if a < 4100 then 65 else 0) (pointer 4096 0) (2 : UInt32).toNat k) ∨
          (2 : UInt32).toNat ∣ kMaxLength) :=
  until_zeros_right_iff _ 4096 0 2 (by decide)

/-- **No zeros.**  Where no byte is zero, the buffer up to two zeros is longer than the
cap. -/
theorem until_zeros_past_cap :
    ¬ ∀ (m : Memory) (data : Nat) (offset : Int) (numZeros : UInt32), pointer data offset ≠ 0 →
      ∃ r, (∀ fuel ≥ kMaxLength + 2,
          ReinterpretBufferUntilZeros m (some data) numZeros offset fuel = some (.ok r)) ∧
        Right m (pointer data offset) numZeros.toNat r := by
  intro hall
  have hptr : pointer 4096 0 ≠ 0 := by decide
  obtain ⟨r, hr, hright⟩ := hall (fun _ => 1) 4096 0 2 hptr
  obtain ⟨s, hscan, hends⟩ := scan_ends (fun _ => 1) (pointer 4096 0) (2 : UInt32).toNat
  have hcall := reinterpret_of_scan hptr (hscan _ (Nat.le_refl _))
  rw [hr _ (Nat.le_refl _)] at hcall
  obtain rfl := Except.ok.inj (Option.some.inj hcall)
  obtain ⟨k, hk⟩ | hdvd := (right_iff hends).mp hright
  · have hzero : (1 : UInt8) = 0 := hk.2.2 0 (by decide)
    exact absurd hzero (by decide)
  · exact absurd hdvd (by decide)

end UntilZeros

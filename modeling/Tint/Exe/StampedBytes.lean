import Tint.Exe.StampingFrame
import Mathlib.Data.List.GetD

/-!
# The bytes of a stamp

What the loops of the compiler make of an icon image and of a version string, byte by byte.

* `icon_pixels` -- the loop of `stampwindows` writes each byte of the icon once, the rows from the
  last to the first and blue before red, and no index is out of bounds;
* `version_text_iff` -- `convtoucs2` never makes the 110 bytes of a field; what it makes leaves
  the new value with a terminator in every older field exactly for texts of at most 26 units, all
  below 256.
-/

namespace Stamping

open VersionInfo (Units)

/-! ## The pixels of an icon -/

section Pixels

/-- The buffer that is filled, and the offsets written so far. -/
structure Pixels where
  buf : List UInt8
  writes : List Nat

/-- `buffer[i]`; `none` out of bounds. -/
def readByte (buffer : List UInt8) : Int → Option UInt8
  | .ofNat i => buffer[i]?
  | .negSucc _ => none

/-- `buf.writeUInt8(value, offset)`; `none` out of bounds. -/
def writeUInt8 (s : Pixels) (value : UInt8) (offset : Nat) : Option Pixels :=
  if offset < s.buf.length then some ⟨s.buf.set offset value, s.writes ++ [offset]⟩ else none

/-- One turn of the loop over the pixels. -/
def pixelTurn (dstBuffer : List UInt8) (size i : Nat) (s : Pixels) : Option Pixels :=
  let row : Int := size - ((i / (4 * size) : Nat) : Int)
  let col : Nat := i % (size * 4)
  let index : Int := (row - 1) * (size * 4) + col
  do
    let r ← readByte dstBuffer index
    let g ← readByte dstBuffer (index + 1)
    let b ← readByte dstBuffer (index + 2)
    let a ← readByte dstBuffer (index + 3)
    let s ← writeUInt8 s b i
    let s ← writeUInt8 s g (i + 1)
    let s ← writeUInt8 s r (i + 2)
    writeUInt8 s a (i + 3)

/-- The loop over the pixels; `turns` bounds its turns. -/
def pixelLoop (dstBuffer : List UInt8) (size : Nat) : Nat → Nat → Pixels → Option Pixels
  | 0, _, s => some s
  | turns + 1, i, s =>
    if i < dstBuffer.length then
      (pixelTurn dstBuffer size i s).bind (pixelLoop dstBuffer size turns (i + 4))
    else some s

variable {size : Nat}

/-- Where the source of the pixel `k` begins. -/
def sourceIndex (size k : Nat) : Nat := (size - 1 - k / size) * (size * 4) + 4 * (k % size)

theorem sourceIndex_lt {k : Nat} (h : k < size * size) :
    sourceIndex size k + 3 < size * size * 4 := by
  have hsize : 0 < size := Nat.pos_of_mul_pos_right (Nat.lt_of_le_of_lt (Nat.zero_le k) h)
  have hcol : k % size < size := Nat.mod_lt k hsize
  have hrows : (size - 1 - k / size) * (size * 4) ≤ (size - 1) * (size * 4) :=
    Nat.mul_le_mul_right _ (Nat.sub_le _ _)
  have hall : (size - 1) * (size * 4) + size * 4 = size * size * 4 := by
    rw [← Nat.succ_mul, Nat.succ_eq_add_one, Nat.sub_add_cancel hsize, Nat.mul_assoc]
  rw [sourceIndex]
  omega

/-- The four bytes of the pixel `k` of the icon. -/
def pixel (data : List UInt8) (size k : Nat) : List UInt8 :=
  [data.getD (sourceIndex size k + 2) 0, data.getD (sourceIndex size k + 1) 0,
    data.getD (sourceIndex size k) 0, data.getD (sourceIndex size k + 3) 0]

/-- The index of the source computes, as an integer. -/
theorem index_eq {k : Nat} (h : k < size * size) :
    ((size : Int) - ((4 * k / (4 * size) : Nat) : Int) - 1) * (size * 4) +
      ((4 * k % (size * 4) : Nat) : Int) = (sourceIndex size k : Nat) := by
  have hsize : 0 < size := Nat.pos_of_mul_pos_right (Nat.lt_of_le_of_lt (Nat.zero_le k) h)
  have hrow : k / size < size := Nat.div_lt_of_lt_mul h
  have hsub :
      ((size : Int) - ((k / size : Nat) : Int) - 1) = ((size - 1 - k / size : Nat) : Int) := by
    omega
  rw [Nat.mul_div_mul_left _ _ (by decide : 0 < 4), Nat.mul_comm size 4, Nat.mul_mod_mul_left, hsub,
    sourceIndex]
  push_cast
  rfl

/-- A byte behind `before` is written. -/
theorem writeUInt8_append {before rest : List UInt8} {offset : Nat} (h : before.length = offset)
    (x value : UInt8) (writes : List Nat) :
    writeUInt8 ⟨before ++ x :: rest, writes⟩ value offset =
      some ⟨before ++ [value] ++ rest, writes ++ [offset]⟩ := by
  subst h
  rw [writeUInt8, if_pos (by simp)]
  simp

/-- **One turn.**  It writes the pixel, and reads and writes within bounds. -/
theorem pixelTurn_eq {data : List UInt8} (hdata : data.length = size * size * 4) {k : Nat}
    (hk : k < size * size) {before : List UInt8} (hbefore : before.length = 4 * k)
    (x0 x1 x2 x3 : UInt8) (rest : List UInt8) (writes : List Nat) :
    pixelTurn data size (4 * k) ⟨before ++ x0 :: x1 :: x2 :: x3 :: rest, writes⟩ =
      some ⟨before ++ pixel data size k ++ rest,
        writes ++ [4 * k, 4 * k + 1, 4 * k + 2, 4 * k + 3]⟩ := by
  have hindex := sourceIndex_lt hk
  have hread : ∀ c < 4, readByte data ((sourceIndex size k : Nat) + (c : Nat) : Int) =
      some (data.getD (sourceIndex size k + c) 0) := by
    intro c hc
    have hlt : sourceIndex size k + c < data.length := by omega
    have hbyte : data[sourceIndex size k + c]? = some (data.getD (sourceIndex size k + c) 0) := by
      rw [List.getElem?_eq_getElem hlt, List.getD_eq_getElem _ _ hlt]
    exact hbyte
  have h0 := hread 0 (by decide)
  have h1 := hread 1 (by decide)
  have h2 := hread 2 (by decide)
  have h3 := hread 3 (by decide)
  simp only [Nat.cast_zero, Nat.cast_one, Nat.cast_ofNat, add_zero] at h0 h1 h2 h3
  simp only [pixelTurn, index_eq hk, h0, h1, h2, h3, Option.bind_eq_bind, Option.bind_some]
  rw [writeUInt8_append hbefore, Option.bind_some,
    writeUInt8_append (by simp [hbefore]), Option.bind_some,
    writeUInt8_append (by simp [hbefore]), Option.bind_some,
    writeUInt8_append (by simp [hbefore])]
  simp [pixel]

/-- The pixels before `k`, one after the other. -/
def pixels (data : List UInt8) (size k : Nat) : List UInt8 :=
  (List.range k).flatMap (pixel data size)

theorem pixels_length (data : List UInt8) (size k : Nat) :
    (pixels data size k).length = 4 * k := by
  rw [pixels, List.length_flatMap]
  simp [pixel, Nat.mul_comm]

theorem pixels_succ (data : List UInt8) (size k : Nat) :
    pixels data size (k + 1) = pixels data size k ++ pixel data size k := by
  rw [pixels, List.range_succ, List.flatMap_append, List.flatMap_singleton, pixels]

/-- The loop from the pixel `k` on. -/
theorem pixelLoop_eq {data room : List UInt8} (hdata : data.length = size * size * 4)
    (hroom : room.length = size * size * 4) {turns k : Nat} (hk : k ≤ size * size)
    (hturns : size * size ≤ k + turns) :
    pixelLoop data size turns (4 * k) ⟨pixels data size k ++ room.drop (4 * k),
        List.range (4 * k)⟩ =
      some ⟨pixels data size (size * size), List.range (4 * (size * size))⟩ := by
  have hend : (⟨pixels data size (size * size) ++ room.drop (4 * (size * size)),
      List.range (4 * (size * size))⟩ : Pixels) =
        ⟨pixels data size (size * size), List.range (4 * (size * size))⟩ := by
    rw [List.drop_eq_nil_iff.mpr (by omega), List.append_nil]
  induction turns generalizing k with
  | zero =>
    obtain rfl := Nat.le_antisymm hk hturns
    exact congrArg some hend
  | succ turns ih =>
    rw [pixelLoop]
    by_cases hlt : k < size * size
    · have h0 : 4 * k < room.length := by omega
      have h1 : 4 * k + 1 < room.length := by omega
      have h2 : 4 * k + 2 < room.length := by omega
      have h3 : 4 * k + 3 < room.length := by omega
      have hdrop : room.drop (4 * k) = room[4 * k] :: room[4 * k + 1] :: room[4 * k + 2] ::
          room[4 * k + 3] :: room.drop (4 * (k + 1)) := by
        rw [List.drop_eq_getElem_cons h0, List.drop_eq_getElem_cons h1,
          List.drop_eq_getElem_cons h2, List.drop_eq_getElem_cons h3]
        rfl
      have hwrites : List.range (4 * k) ++ [4 * k, 4 * k + 1, 4 * k + 2, 4 * k + 3] =
          List.range (4 * (k + 1)) := by
        rw [Nat.mul_succ, List.range_add]
        rfl
      rw [if_pos (by omega), hdrop, pixelTurn_eq hdata hlt (pixels_length data size k),
        Option.bind_some, hwrites, ← pixels_succ]
      exact ih hlt (by omega)
    · obtain rfl := Nat.le_antisymm hk (Nat.not_lt.mp hlt)
      rw [if_neg (by omega)]
      exact congrArg some hend

/-- The buffer that is written into the file. -/
theorem pixels_eq_buffer (image : Image size) :
    pixels image.data size (size * size) = image.buffer := by
  rw [pixels, Image.buffer]
  congr 1
  funext k
  have hindex : (size - 4 * k / (4 * size) - 1) * (size * 4) + 4 * k % (size * 4) =
      sourceIndex size k := by
    rw [Nat.mul_div_mul_left _ _ (by decide : 0 < 4), Nat.sub_right_comm, sourceIndex]
    congr 1
    rw [Nat.mul_comm size 4, Nat.mul_mod_mul_left]
  simp only [hindex, pixel]

/-- A byte of a pixel. -/
theorem pixels_getElem? {data : List UInt8} {n k c : Nat} (hk : k < n) (hc : c < 4) :
    (pixels data size n)[4 * k + c]? = (pixel data size k)[c]? := by
  induction n with
  | zero => exact absurd hk (Nat.not_lt_zero k)
  | succ n ih =>
    rw [pixels_succ]
    rcases Nat.lt_succ_iff_lt_or_eq.mp hk with hlt | heq
    · rw [List.getElem?_append_left (by rw [pixels_length]; omega), ih hlt]
    · subst heq
      rw [List.getElem?_append_right (by rw [pixels_length]; omega), pixels_length,
        Nat.add_sub_cancel_left]

/-- **Icon.**  The loop ends without an index out of bounds, writes each offset of the buffer
once, and has at row `r` and column `c` the bytes of the source at row `size - 1 - r` and column
`c`, blue and red exchanged. -/
theorem icon_pixels (image room : Image size) :
    ∃ s, pixelLoop image.data size image.data.length 0 ⟨room.data, []⟩ = some s ∧
      s.buf.length = size * size * 4 ∧ s.writes = List.range (size * size * 4) ∧
      ∀ r c : Fin size,
        let slot := 4 * (r * size + c)
        let source := 4 * ((size - 1 - r) * size + c)
        s.buf[slot]? = image.data[source + 2]? ∧ s.buf[slot + 1]? = image.data[source + 1]? ∧
          s.buf[slot + 2]? = image.data[source]? ∧ s.buf[slot + 3]? = image.data[source + 3]? := by
  have hturns : size * size ≤ 0 + image.data.length := by
    rw [image.length_eq]
    omega
  have hloop := pixelLoop_eq image.length_eq room.length_eq (Nat.zero_le (size * size)) hturns
  refine ⟨_, hloop, ?_, ?_, fun r c => ?_⟩
  · rw [pixels_length, Nat.mul_comm]
  · exact congrArg List.range (Nat.mul_comm 4 (size * size))
  · intro slot source
    have hrow : (r * size + c : Nat) / size = r := by
      rw [Nat.mul_comm, Nat.mul_add_div r.pos, Nat.div_eq_of_lt c.isLt, Nat.add_zero]
    have hcol : (r * size + c : Nat) % size = c := by
      rw [Nat.mul_add_mod_self_right, Nat.mod_eq_of_lt c.isLt]
    have hk : (r * size + c : Nat) < size * size := by
      have hle : (r + 1) * size ≤ size * size := Nat.mul_le_mul_right size r.isLt
      rw [Nat.succ_mul] at hle
      exact Nat.lt_of_lt_of_le (Nat.add_lt_add_left c.isLt _) hle
    have hsource : sourceIndex size (r * size + c) = source := by
      rw [sourceIndex, hrow, hcol]
      simp only [source]
      rw [Nat.mul_add, Nat.mul_comm size 4, Nat.mul_left_comm]
    have hlt := sourceIndex_lt hk
    rw [hsource] at hlt
    have hbyte : ∀ j < 4, image.data[source + j]? = some (image.data.getD (source + j) 0) := by
      intro j hj
      have hj' : source + j < image.data.length := by
        rw [image.length_eq]
        omega
      rw [List.getElem?_eq_getElem hj', List.getD_eq_getElem _ _ hj']
    have hslot : ∀ j < 4, (pixels image.data size (size * size))[slot + j]? =
        (pixel image.data size (r * size + c))[j]? := fun j hj => pixels_getElem? hk hj
    rw [pixel, hsource] at hslot
    refine ⟨(hslot 0 (by decide)).trans (hbyte 2 (by decide)).symm,
      (hslot 1 (by decide)).trans (hbyte 1 (by decide)).symm,
      (hslot 2 (by decide)).trans (hbyte 0 (by decide)).symm,
      (hslot 3 (by decide)).trans (hbyte 3 (by decide)).symm⟩

end Pixels

/-! ## The text of a version string -/

section Texts

/-- A string as UTF-16, the lower byte first. -/
def utf16le (str : List UInt16) : List UInt8 :=
  str.flatMap fun u => [UInt8.ofNat u.toNat, UInt8.ofNat (u.toNat / 256)]

/-- The units of a string as the model of the compiler has them. -/
def charCodes (str : List UInt16) : Units := str.map UInt16.toNat

/-- `fs.writeSync` of the bytes over a field. -/
def overwrite (field bytes : List UInt8) : List UInt8 := bytes ++ field.drop bytes.length

/-- The field begins with the value and a terminator. -/
def Leaves (str : List UInt16) (field : List UInt8) : Prop := utf16le str ++ [0, 0] <+: field

/-- **Right.**  110 bytes, those of the string and zeros; and they leave the value in a field. -/
def Encoded (str : List UInt16) : Prop :=
  (convtoucs2 (charCodes str)).length = 110 ∧
    convtoucs2 (charCodes str) = utf16le str ++ List.replicate (110 - 2 * str.length) 0 ∧
    ∀ field : List UInt8, field.length = 110 →
      Leaves str (overwrite field (convtoucs2 (charCodes str)))

theorem utf16le_length (str : List UInt16) : (utf16le str).length = 2 * str.length := by
  rw [utf16le, List.length_flatMap]
  simp [Nat.mul_comm]

theorem lower_bytes_length (str : List UInt16) :
    (str.flatMap fun u => [UInt8.ofNat u.toNat, 0]).length = 2 * str.length := by
  rw [List.length_flatMap]
  simp [Nat.mul_comm]

theorem pushZeros_eq (turns i : Nat) (z : List UInt8) :
    ∃ n, pushZeros turns i z = z ++ List.replicate n 0 := by
  induction turns generalizing i z with
  | zero => exact ⟨0, (List.append_nil z).symm⟩
  | succ turns ih =>
    rw [pushZeros]
    split
    · obtain ⟨n, hn⟩ := ih (i + 1) (z ++ [0])
      refine ⟨n + 1, ?_⟩
      rw [hn, List.append_assoc, List.singleton_append, List.replicate_succ]
    · exact ⟨0, (List.append_nil z).symm⟩

/-- What `convtoucs2` makes: the lower bytes, and fewer zeros the longer the text is. -/
theorem convtoucs2_eq {str : List UInt16} (h : str.length ≤ 50) :
    convtoucs2 (charCodes str) =
      (str.flatMap fun u => [UInt8.ofNat u.toNat, 0]) ++
        List.replicate ((112 - 4 * str.length) / 3) 0 := by
  have hlength : (charCodes str).length = str.length := List.length_map _
  have htake : ((charCodes str).take 111).flatMap (fun u => [UInt8.ofNat u, 0]) =
      str.flatMap fun u => [UInt8.ofNat u.toNat, 0] := by
    rw [List.take_of_length_le (by omega), charCodes, List.flatMap_map]
  obtain ⟨n, hn⟩ := pushZeros_eq 110 0 (str.flatMap fun u => [UInt8.ofNat u.toNat, 0])
  have hall : (convtoucs2 (charCodes str)).length = _ := convtoucs2_length (by omega)
  rw [convtoucs2, htake, hn] at hall ⊢
  rw [List.length_append, lower_bytes_length, List.length_replicate, ucs2Length, hlength] at hall
  have hzeros : n = (112 - 4 * str.length) / 3 := by omega
  rw [hzeros]

/-- The lower bytes are the string where no unit has an upper one. -/
theorem lower_bytes_eq_iff (str : List UInt16) :
    (str.flatMap fun u => [UInt8.ofNat u.toNat, 0]) = utf16le str ↔ ∀ u ∈ str, u.toNat < 256 := by
  induction str with
  | nil => exact iff_of_true rfl fun u hu => absurd hu List.not_mem_nil
  | cons u str ih =>
    have hupper : (0 : UInt8) = UInt8.ofNat (u.toNat / 256) ↔ u.toNat < 256 := by
      have hu := u.toNat_lt
      rw [← UInt8.toNat_inj, UInt8.toNat_ofNat', Nat.mod_eq_of_lt (by omega)]
      exact eq_comm.trans (Nat.div_eq_zero_iff.trans (by omega))
    rw [List.forall_mem_cons, ← ih, ← hupper, utf16le, List.flatMap_cons, List.flatMap_cons]
    simp [utf16le]

/-- **Version text.**  There are never 110 bytes.  What is written leaves the new value with its
terminator in every older field exactly for texts of at most 26 units, all below 256. -/
theorem version_text_iff (str : List UInt16) (h : str.length ≤ 50) :
    ¬ Encoded str ∧
      ((∀ field : List UInt8, field.length = 110 →
          Leaves str (overwrite field (convtoucs2 (charCodes str)))) ↔
        str.length ≤ 26 ∧ ∀ u ∈ str, u.toNat < 256) := by
  have hlength : (convtoucs2 (charCodes str)).length =
      2 * str.length + (112 - 4 * str.length) / 3 := by
    rw [convtoucs2_eq h, List.length_append, lower_bytes_length, List.length_replicate]
  constructor
  · intro hencoded
    have hfull := hencoded.1
    omega
  · constructor
    · intro hleaves
      -- an older value of spaces
      have hspaces := hleaves (List.replicate 110 0x20) (List.length_replicate ..)
      obtain ⟨rest, hrest⟩ := hspaces
      rw [overwrite, hlength, convtoucs2_eq h, List.append_assoc, List.append_assoc] at hrest
      obtain ⟨hlower, htail⟩ := List.append_inj hrest
        (by rw [utf16le_length, lower_bytes_length])
      refine ⟨?_, (lower_bytes_eq_iff str).mp hlower.symm⟩
      by_contra hlong
      rw [List.drop_replicate] at htail
      have hroom : 110 - (2 * str.length + (112 - 4 * str.length) / 3) ≠ 0 := by omega
      obtain ⟨room, hroom⟩ := Nat.exists_eq_succ_of_ne_zero hroom
      rw [hroom, List.replicate_succ] at htail
      have hzeros : (112 - 4 * str.length) / 3 = 0 ∨ (112 - 4 * str.length) / 3 = 1 := by omega
      rcases hzeros with hzero | hone
      · rw [hzero] at htail
        exact absurd (List.cons.inj htail).1 (by decide)
      · rw [hone] at htail
        exact absurd (List.cons.inj (List.cons.inj htail).2).1 (by decide)
    · intro hshort field _
      have htwo : 2 ≤ (112 - 4 * str.length) / 3 := by omega
      obtain ⟨zeros, hzeros⟩ := Nat.exists_eq_add_of_le htwo
      rw [Leaves, overwrite, convtoucs2_eq h, (lower_bytes_eq_iff str).mpr hshort.2, hzeros,
        Nat.add_comm 2, List.replicate_succ, List.replicate_succ, List.append_assoc]
      refine (List.prefix_append_right_inj _).mpr ⟨List.replicate zeros 0 ++ _, rfl⟩

theorem version_text_iff_tint :
    ¬ Encoded [0x74, 0x69, 0x6E, 0x74] ∧
      ((∀ field : List UInt8, field.length = 110 →
          Leaves [0x74, 0x69, 0x6E, 0x74]
            (overwrite field (convtoucs2 (charCodes [0x74, 0x69, 0x6E, 0x74])))) ↔
        [0x74, 0x69, 0x6E, 0x74].length ≤ 26 ∧
          ∀ u ∈ ([0x74, 0x69, 0x6E, 0x74] : List UInt16), u.toNat < 256) :=
  version_text_iff [0x74, 0x69, 0x6E, 0x74] (by decide)

/-- There are 40 bytes for a text of four units. -/
theorem short_text_is_not_padded :
    ¬ ∀ str : List UInt16, str.length ≤ 50 → Encoded str := by
  intro hall
  have hlength := (hall [0x74, 0x69, 0x6E, 0x74] (by decide)).1
  exact absurd hlength (by decide)

end Texts

end Stamping

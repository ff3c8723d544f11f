import Mathlib.Tactic.IntervalCases
import Tint.FillLoop
import Tint.Png.ChunkStream

/-!
# The filters of scan lines

`Filter` of the build tool, as a stream: it takes scan lines with one to four bytes for a
pixel, undoes the filter of each, and has made pixels of four bytes of them.  The filters
are undone where the pixels lie, on the bytes they have been widened to.

* `Reconstructs` -- what scan lines mean: each byte is the byte of the line and what is
  predicted from the bytes to the left and above;
* `reverseByte_eq` -- undoing a filter on the widened bytes is undoing it on the bytes
  of the file;
* `filter_ends` -- the stream makes the pixels of the lines, for every size and number of
  bytes, when the last line is there.
-/

namespace Png

open ChunkedReader FillLoop

/-- Which byte of a pixel in the file is the `i`th of its four, or `0xff` for none. -/
def pixelBppMap : Nat → Nat → Nat
  | 1, 3 => 0xff
  | 1, _ => 0
  | 2, 3 => 1
  | 2, _ => 0
  | 3, 3 => 0xff
  | _, i => i

def PaethPredictor (left above upLeft : Nat) : Nat :=
  let p : Int := left + above - upLeft
  let pLeft := (p - left).natAbs
  let pAbove := (p - above).natAbs
  let pUpLeft := (p - upLeft).natAbs
  if pLeft ≤ pAbove ∧ pLeft ≤ pUpLeft then left
  else if pAbove ≤ pUpLeft then above
  else upLeft

/-- What the loop for a type of filter adds to a byte, from the bytes to the left of it,
above it, and above that to the left. -/
def predictor : UInt8 → Option (Nat → Nat → Nat → Nat)
  | 0 => some fun _ _ _ => 0
  | 1 => some fun left _ _ => left
  | 2 => some fun _ up _ => up
  | 3 => some fun left up _ => (left + up) / 2
  | 4 => some PaethPredictor
  | _ => none

/-- The fields of a filter that undoes; `complete` is what it emitted. -/
structure Filter where
  width : Nat
  height : Nat
  Bpp : Nat
  data : Bytes
  line : Nat
  complete : List Bytes
  deriving DecidableEq

namespace Filter

/-- The request for a line. -/
def lineLength (f : Filter) : Nat := f.width * f.Bpp + 1

/-- What the loops over `x` and `i` store. -/
def reverseByte (f : Filter) (predict : Nat → Nat → Nat → Nat) (rawData pxData : Bytes)
    (x i : Nat) : UInt8 :=
  let pxLineLength := f.width * 4
  let pxPos := f.line * pxLineLength + (x * 4 + i)
  let idx := pixelBppMap f.Bpp i
  let left := if 0 < x then (pxData.getD (pxPos - 4) 0).toNat else 0
  let up := if 0 < f.line then (pxData.getD (pxPos - pxLineLength) 0).toNat else 0
  let upLeft := if 0 < x ∧ 0 < f.line then (pxData.getD (pxPos - pxLineLength - 4) 0).toNat else 0
  if idx ≠ 0xff then
    UInt8.ofNat ((rawData.getD (1 + x * f.Bpp + idx) 0).toNat + predict left up upLeft)
  else 0xff

/-- `_reverseFilterLine` -/
def reverseFilterLine (f : Filter) (rawData : Bytes) : Filter × Last Unit :=
  let data :=
    match predictor (rawData.getD 0 0) with
    | none => f.data
    | some predict =>
      (List.range f.width).foldl (fun d x => (List.range 4).foldl (fun d i =>
        d.set (f.line * (f.width * 4) + (x * 4 + i)) (f.reverseByte predict rawData d x i)) d)
          f.data
  let f := { f with data := data, line := f.line + 1 }
  if f.line < f.height then (f, .read f.lineLength ())
  else ({ f with complete := f.complete ++ [f.data] }, .nothing)

/-- What the filter adds to its stream. -/
def subclass : Subclass Filter Unit := ⟨fun _ data f => f.reverseFilterLine data, none⟩

/-- A new filter. -/
def create (width height Bpp : Nat) (data : Bytes) : Filter := ⟨width, height, Bpp, data, 0, []⟩

/-- What it waits for. -/
def request (f : Filter) : Read Unit := .request f.lineLength ()

end Filter

/-- The filter's stream after its constructor. -/
def filterStream (f : Filter) : ChunkStream Filter Unit :=
  ⟨f, some [], 0, some [f.request], false, true, []⟩

/-! ## What scan lines mean -/

/-- A line of a file: the type of its filter, and its bytes. -/
structure Scanline where
  filter : UInt8
  filtered : Bytes
  deriving DecidableEq, Repr

def Scanline.bytes (l : Scanline) : Bytes := l.filter :: l.filtered

/-- A prediction from the rows of an image, with `bpp` bytes for a pixel. -/
def predicted (predict : Nat → Nat → Nat → Nat) (bpp : Nat) (row : Nat → Nat → UInt8) (y k : Nat) :
    Nat :=
  predict (if bpp ≤ k then (row y (k - bpp)).toNat else 0)
    (if 0 < y then (row (y - 1) k).toNat else 0)
    (if bpp ≤ k ∧ 0 < y then (row (y - 1) (k - bpp)).toNat else 0)

/-- The lines mean these rows of `n` bytes. -/
def Reconstructs (bpp n : Nat) (lines : List Scanline) (row : Nat → Nat → UInt8) : Prop :=
  ∀ y l, lines[y]? = some l → l.filtered.length = n ∧
    ∃ predict, predictor l.filter = some predict ∧
      ∀ k < n, row y k = UInt8.ofNat ((l.filtered.getD k 0).toNat + predicted predict bpp row y k)

/-- The four bytes of a pixel. -/
def widened (bpp : Nat) (row : Nat → UInt8) (x i : Nat) : UInt8 :=
  if pixelBppMap bpp i ≠ 0xff then row (x * bpp + pixelBppMap bpp i) else 0xff

/-- A byte of the image with four bytes for a pixel. -/
def rgbaAt (width bpp : Nat) (row : Nat → Nat → UInt8) (p : Nat) : UInt8 :=
  widened bpp (row (p / (width * 4))) (p % (width * 4) / 4) (p % (width * 4) % 4)

def rgba (width height bpp : Nat) (row : Nat → Nat → UInt8) : Bytes :=
  (List.range (height * (width * 4))).map (rgbaAt width bpp row)

@[simp] theorem length_rgba (width height bpp : Nat) (row : Nat → Nat → UInt8) :
    (rgba width height bpp row).length = height * (width * 4) := by
  simp [rgba]

/-! ## The stream -/

/-- While a filter waits, it waits for a line and has emitted nothing. -/
def Filter.Requested (f : Filter) (r : Read Unit) : Prop := r = f.request ∧ f.complete = []

/-- A filter never asks for less than a byte, and never takes less. -/
theorem Filter.coherent : Filter.subclass.Coherent Filter.Requested where
  keeps := by
    intro f r data length func hr hread
    obtain ⟨rfl, hnone⟩ := hr
    simp only [subclass, reverseFilterLine] at hread ⊢
    split at hread
    · cases hread
      rw [if_pos ‹_›]
      exact ⟨rfl, hnone⟩
    · cases hread
  adds := by
    intro f r a b hr hless
    obtain ⟨rfl, -⟩ := hr
    simp [request, Read.request] at hless
    omega
  progress := by
    intro f r length func hr hzero
    obtain ⟨rfl, -⟩ := hr
    simp only [request, Read.request, lineLength] at hzero
    omega

variable {width height bpp : Nat} {row : Nat → Nat → UInt8} {lines : List Scanline}

/-- A byte of a pixel is one that the pixel has in the file, or none. -/
theorem pixelBppMap_lt (hbpp : 1 ≤ bpp ∧ bpp ≤ 4) {i : Nat} (hi : i < 4)
    (h : pixelBppMap bpp i ≠ 0xff) : pixelBppMap bpp i < bpp := by
  obtain ⟨h1, h4⟩ := hbpp
  interval_cases bpp <;> interval_cases i <;> revert h <;> decide

/-- The image is right up to a line. -/
def Done (width height bpp : Nat) (row : Nat → Nat → UInt8) (y : Nat) (data : Bytes) : Prop :=
  data.length = height * (width * 4) ∧
    ∀ p < y * (width * 4), data[p]? = some (rgbaAt width bpp row p)

/-- A byte of a line that the image has. -/
theorem rgbaAt_line (y : Nat) {j : Nat} (hj : j < width * 4) :
    rgbaAt width bpp row (y * (width * 4) + j) = widened bpp (row y) (j / 4) (j % 4) := by
  have hdiv : (y * (width * 4) + j) / (width * 4) = y := by
    rw [Nat.add_comm, Nat.add_mul_div_right _ _ (by omega), Nat.div_eq_of_lt hj, Nat.zero_add]
  have hmod : (y * (width * 4) + j) % (width * 4) = j := by
    rw [Nat.mul_comm, Nat.mul_add_mod, Nat.mod_eq_of_lt hj]
  rw [rgbaAt, hdiv, hmod]

/-- **A filter is undone where the pixels lie.**  What the loops store is right, if what they
stored before is. -/
theorem reverseByte_eq (hbpp : 1 ≤ bpp ∧ bpp ≤ 4) {y : Nat} {l : Scanline}
    {predict : Nat → Nat → Nat → Nat}
    (hrow : ∀ k < width * bpp,
      row y k = UInt8.ofNat ((l.filtered.getD k 0).toNat + predicted predict bpp row y k))
    {data b : Bytes} (hdone : Done width height bpp row y data) {j : Nat} (hj : j < width * 4)
    (hb : Filled (y * (width * 4)) j (fun j => widened bpp (row y) (j / 4) (j % 4)) data b)
    (complete : List Bytes) :
    (Filter.mk width height bpp data y complete).reverseByte predict l.bytes b (j / 4) (j % 4) =
      widened bpp (row y) (j / 4) (j % 4) := by
  obtain ⟨-, hbefore⟩ := hdone
  have hsplit : j / 4 * 4 + j % 4 = j := Nat.div_add_mod' j 4
  by_cases hidx : pixelBppMap bpp (j % 4) = 0xff
  · simp [Filter.reverseByte, widened, hidx]
  have hlt := pixelBppMap_lt hbpp (Nat.mod_lt j (by omega)) hidx
  have hx : j / 4 < width := by omega
  -- the byte of the line that becomes this byte of the pixel
  have hk : j / 4 * bpp + pixelBppMap bpp (j % 4) < width * bpp :=
    calc j / 4 * bpp + pixelBppMap bpp (j % 4) < j / 4 * bpp + bpp := by omega
      _ = (j / 4 + 1) * bpp := by rw [Nat.succ_mul]
      _ ≤ width * bpp := Nat.mul_le_mul_right _ hx
  have hbyte : l.bytes.getD (1 + j / 4 * bpp + pixelBppMap bpp (j % 4)) 0 =
      l.filtered.getD (j / 4 * bpp + pixelBppMap bpp (j % 4)) 0 := by
    rw [Nat.add_assoc, Nat.add_comm 1]
    rfl
  -- a pixel to the left is a pixel's bytes to the left
  have hleft : ∀ y', (if 0 < j / 4 then
        (widened bpp (row y') ((j - 4) / 4) ((j - 4) % 4)).toNat else 0) =
      if bpp ≤ j / 4 * bpp + pixelBppMap bpp (j % 4) then
        (row y' (j / 4 * bpp + pixelBppMap bpp (j % 4) - bpp)).toNat else 0 := by
    intro y'
    cases hx0 : j / 4 with
    | zero => rw [if_neg (by omega), if_neg (by omega)]
    | succ x =>
      have hdiv : (j - 4) / 4 = x := by omega
      have hmod : (j - 4) % 4 = j % 4 := by omega
      have hsub : (x + 1) * bpp + pixelBppMap bpp (j % 4) - bpp =
          x * bpp + pixelBppMap bpp (j % 4) := by
        rw [Nat.succ_mul]
        omega
      rw [if_pos (by omega), hdiv, hmod, widened, if_pos hidx, hsub,
        if_pos (by rw [Nat.succ_mul]; omega)]
  have hcurrent : 0 < j / 4 → b.getD (y * (width * 4) + j - 4) 0 =
      widened bpp (row y) ((j - 4) / 4) ((j - 4) % 4) := by
    intro hx0
    have hpos : y * (width * 4) + j - 4 = y * (width * 4) + (j - 4) := by omega
    rw [hpos, List.getD_eq_getElem?_getD, hb.inside (show j - 4 < j by omega)]
    rfl
  have habove : ∀ j', j' ≤ j → 0 < y → b.getD (y * (width * 4) + j' - width * 4) 0 =
      widened bpp (row (y - 1)) (j' / 4) (j' % 4) := by
    intro j' hj' hy0
    obtain ⟨y, rfl⟩ : ∃ y', y = y' + 1 := ⟨y - 1, by omega⟩
    have hpos : (y + 1) * (width * 4) + j' - width * 4 = y * (width * 4) + j' := by
      rw [Nat.succ_mul]
      omega
    rw [hpos, List.getD_eq_getElem?_getD, hb.outside (.inl (by rw [Nat.succ_mul]; omega)),
      hbefore _ (by rw [Nat.succ_mul]; omega), rgbaAt_line y (by omega)]
    rfl
  rw [widened, if_pos hidx, hrow _ hk, Filter.reverseByte]
  simp only [hsplit, ne_eq, hidx, not_false_eq_true, if_true, hbyte, predicted]
  congr 3
  · rw [← hleft]
    split
    · rw [hcurrent ‹_›]
    · rfl
  · split
    · rw [habove j (Nat.le_refl j) ‹_›, widened, if_pos hidx]
    · rfl
  · by_cases hy0 : 0 < y
    · simp only [hy0, and_true]
      rw [← hleft]
      split
      · have hpos : y * (width * 4) + j - width * 4 - 4 =
            y * (width * 4) + (j - 4) - width * 4 := by
          omega
        rw [hpos, habove (j - 4) (by omega) hy0]
      · rfl
    · simp [hy0]

/-- **A line is undone**, and the stream asks for the next one or has the image. -/
theorem reverse_line (hbpp : 1 ≤ bpp ∧ bpp ≤ 4) (hrec : Reconstructs bpp (width * bpp) lines row)
    {y : Nat} (hy : y < height) {l : Scanline} (hl : lines[y]? = some l) {data : Bytes}
    (hdone : Done width height bpp row y data) (complete : List Bytes) :
    ∃ data', Done width height bpp row (y + 1) data' ∧
      (Filter.mk width height bpp data y complete).reverseFilterLine l.bytes =
        if y + 1 < height then
          (⟨width, height, bpp, data', y + 1, complete⟩, .read (width * bpp + 1 : Nat) ())
        else (⟨width, height, bpp, data', y + 1, complete ++ [data']⟩, .nothing) := by
  obtain ⟨-, predict, hpredict, hrow⟩ := hrec y l hl
  have hlen := hdone.1
  have hroom : y * (width * 4) + width * 4 ≤ data.length := by
    rw [hlen, ← Nat.succ_mul]
    exact Nat.mul_le_mul_right _ hy
  -- the loops are one over the bytes of the line
  have hfilled := fill_spec hroom fun j hj b hb =>
    reverseByte_eq hbpp hrow hdone hj hb complete
  refine ⟨_, ⟨hfilled.1.trans hlen, fun p hp => ?_⟩, ?_⟩
  · by_cases hin : y * (width * 4) ≤ p
    · obtain ⟨j, rfl⟩ : ∃ j, p = y * (width * 4) + j := ⟨p - y * (width * 4), by omega⟩
      have hj : j < width * 4 := by
        rw [Nat.succ_mul] at hp
        omega
      rw [hfilled.inside hj, rgbaAt_line y hj]
    · rw [hfilled.outside (.inl (by omega)), hdone.2 p (by omega)]
  · have htype : l.bytes.getD 0 0 = l.filter := rfl
    simp only [Filter.reverseFilterLine, htype, hpredict, Filter.lineLength]
    rw [foldl_set_eq_fill (y * (width * 4)) width 4 (fun d x i =>
      (Filter.mk width height bpp data y complete).reverseByte predict l.bytes d x i) data
        (by decide)]

/-- The requests of a filter are for lines. -/
theorem Filter.request_eq (f : Filter) : f.request = ⟨f.lineLength, false, ()⟩ := by
  simp only [request, Read.request, Int.natAbs_natCast, Read.mk.injEq, and_true, true_and,
    decide_eq_false_iff_not]
  omega

/-- The stream from some line on. -/
theorem filter_ends_from (hbpp : 1 ≤ bpp ∧ bpp ≤ 4)
    (hrec : Reconstructs bpp (width * bpp) lines row)
    (hlines : lines.length = height) {y : Nat} (hy : y < height) {data : Bytes}
    (hdone : Done width height bpp row y data) (extra : Bytes) :
    Ends Filter.subclass.reader
      (⟨⟨width, height, bpp, data, y, []⟩, .reading (Filter.mk width height bpp data y []).request⟩,
        (lines.drop y).flatMap Scanline.bytes ++ extra)
      (⟨⟨width, height, bpp, rgba width height bpp row, height, [rgba width height bpp row]⟩,
        .idle⟩,
        extra) := by
  -- by the number of lines that are left
  induction hleft : height - y generalizing y data with
  | zero => omega
  | succ left ih =>
    obtain ⟨l, hl⟩ : ∃ l, lines[y]? = some l := ⟨_, List.getElem?_eq_getElem (by omega)⟩
    have hdrop : lines.drop y = l :: lines.drop (y + 1) := by
      obtain ⟨hlt, rfl⟩ := List.getElem?_eq_some_iff.mp hl
      exact List.drop_eq_getElem_cons hlt
    have hlen : l.bytes.length = width * bpp + 1 := by
      rw [Scanline.bytes, List.length_cons, (hrec y l hl).1]
    obtain ⟨data', hdone', hcall⟩ := reverse_line hbpp hrec hy hl hdone []
    rw [hdrop, List.flatMap_cons, List.append_assoc]
    refine .take (wants_reading rfl) ?_ (by simp [Scanline.bytes]) ?_
    · rw [Filter.request_eq, hlen]
      rfl
    · rw [take_reading rfl]
      change Ends Filter.subclass.reader (Filter.subclass.after _
        ((Filter.mk width height bpp data y []).reverseFilterLine l.bytes).1
        ((Filter.mk width height bpp data y []).reverseFilterLine l.bytes).2, _) _
      rw [hcall]
      by_cases hlast : y + 1 < height
      · rw [if_pos hlast]
        exact ih hlast hdone' (by omega)
      · obtain rfl : y + 1 = height := by omega
        have hdata : data' = rgba width (y + 1) bpp row := by
          refine List.ext_getElem? fun p => ?_
          by_cases hp : p < (y + 1) * (width * 4)
          · rw [hdone'.2 p hp]
            simp [rgba, hp]
          · rw [List.getElem?_eq_none (by rw [hdone'.1]; omega),
              List.getElem?_eq_none (by rw [length_rgba]; omega)]
        rw [if_neg hlast, hdata, List.drop_eq_nil_of_le (by omega)]
        exact .refl (next_stopped rfl _)

/-- **The stream makes the pixels of the lines**, and emits them when the last line is there.
What the buffer held before does not matter. -/
theorem filter_ends (hbpp : 1 ≤ bpp ∧ bpp ≤ 4) (hrec : Reconstructs bpp (width * bpp) lines row)
    (hlines : lines.length = height) (hheight : 0 < height) {data : Bytes}
    (hdata : data.length = height * (width * 4)) (extra : Bytes) :
    Ends Filter.subclass.reader
      (⟨.create width height bpp data, .reading (Filter.create width height bpp data).request⟩,
        lines.flatMap Scanline.bytes ++ extra)
      (⟨⟨width, height, bpp, rgba width height bpp row, height, [rgba width height bpp row]⟩,
        .idle⟩,
        extra) := by
  have hdone : Done width height bpp row 0 data := ⟨hdata, fun p hp => by omega⟩
  exact filter_ends_from hbpp hrec hlines hheight hdone extra

/-- The lines in pieces. -/
theorem filter_writeAll (hbpp : 1 ≤ bpp ∧ bpp ≤ 4)
    (hrec : Reconstructs bpp (width * bpp) lines row) (hlines : lines.length = height)
    (hheight : 0 < height) {data : Bytes} (hdata : data.length = height * (width * 4))
    {pieces : List Bytes} (hpieces : ∀ data ∈ pieces, data ≠ [])
    (hflat : pieces.flatten = lines.flatMap Scanline.bytes) {fuel : Nat}
    (hfuel : 2 * pieces.flatten.length + 1 < fuel) :
    ∃ s, ChunkStream.writeAll Filter.subclass fuel pieces
      (filterStream (.create width height bpp data)) =
        .ok s ∧
      s.owner.complete = [rgba width height bpp row] ∧ s.buffered = 0 ∧ s.emitted = [] := by
  have hfirst : (Filter.create width height bpp data).Requested
      (Filter.create width height bpp data).request := ⟨rfl, rfl⟩
  obtain ⟨h, unread, left, hends, hresult⟩ := Filter.coherent.writeAll hfirst hpieces hfuel
  have hall := filter_ends hbpp hrec hlines hheight hdata []
  rw [List.append_nil, ← hflat] at hall
  obtain ⟨rfl, hleft⟩ := Prod.mk.inj (hends.unique hall)
  obtain ⟨rfl, rfl⟩ := List.append_eq_nil_iff.mp hleft
  change Result Filter.subclass _ [] (ChunkStream.writeAll Filter.subclass fuel pieces
    (filterStream _)) at hresult
  revert hresult
  generalize ChunkStream.writeAll Filter.subclass fuel pieces (filterStream _) = out
  intro hresult
  rcases out with (message | _) | s
  · obtain ⟨_, hstatus⟩ := hresult
    cases hstatus
  · exact hresult.elim
  · obtain ⟨_, _, -, -, rfl⟩ := hresult
    exact ⟨_, rfl, rfl, rfl, rfl⟩

/-- Two lines of two grey pixels, the second the difference to the first. -/
theorem filter_writeAll_grey :
    ∃ s, ChunkStream.writeAll Filter.subclass 20 [[1, 5], [3, 2, 1, 255]]
        (filterStream (.create 2 2 1 (List.replicate 16 0))) = .ok s ∧
      s.owner.complete = [[5, 5, 5, 255, 8, 8, 8, 255, 6, 6, 6, 255, 7, 7, 7, 255]] ∧
        s.buffered = 0 ∧
        s.emitted = [] := by
  have hrec : Reconstructs 1 (2 * 1) [⟨1, [5, 3]⟩, ⟨2, [1, 255]⟩]
      (fun y x => [[5, 8], [6, 7]].getD y [] |>.getD x 0) := by
    intro y l hl
    match y, hl with
    | 0, hl =>
      obtain rfl : l = ⟨1, [5, 3]⟩ := by simpa using hl.symm
      exact ⟨rfl, _, rfl, by decide⟩
    | 1, hl =>
      obtain rfl : l = ⟨2, [1, 255]⟩ := by simpa using hl.symm
      exact ⟨rfl, _, rfl, by decide⟩
  obtain ⟨s, hs, hcomplete, hrest⟩ := @filter_writeAll 2 2 1 _ _ (by decide) hrec rfl (by decide)
    (List.replicate 16 0) (by decide) [[1, 5], [3, 2, 1, 255]] (by decide) rfl 20 (by decide)
  exact ⟨s, hs, hcomplete.trans (by decide), hrest⟩

end Png

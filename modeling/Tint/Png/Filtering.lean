import Mathlib.Data.List.GetD
import Tint.Png.Filter

/-!
# Choosing the filters of scan lines

`Filter.filter` of the build tool: pixels of four bytes become scan lines.  Each line has
the first of the allowed types of filter whose values have the least sum, and its bytes
are the differences to what the type predicts.

* `filters_line` -- a type of filter writes a line that means the row it was made from;
* `filter_spec` -- so do all the lines of an image, each with the first type of least sum.
-/

namespace Png

open ChunkedReader FillLoop

/-- A number that is stored into a byte of a buffer. -/
def toByte (v : Int) : UInt8 := UInt8.ofNat (v % 256).toNat

/-- A byte of the pixels.  A buffer of pixels has `height * (width * 4)` bytes; behind the end of
a shorter one the source reads no number, and here it is zero. -/
def pixel (pxData : Bytes) (p : Nat) : Nat := (pxData.getD p 0).toNat

/-- A call of one of the functions `_filter…` for a line: what it returns without a buffer,
and what it does to the buffer it is given. -/
structure Filtering where
  sum : Nat
  write : Bytes → Bytes

def filterNone (width : Nat) (pxData : Bytes) (y : Nat) : Filtering :=
  let pxRowLength := width * 4
  let rawRowLength := pxRowLength + 1
  { sum := ((List.range pxRowLength).map fun x => pixel pxData (y * pxRowLength + x)).sum
    write := fun rawData =>
      fill (y * rawRowLength + 1) pxRowLength (fun _ x => pxData.getD (y * pxRowLength + x) 0)
        (rawData.set (y * rawRowLength) 0) }

/-- The loop of the other four, over the values of the line. -/
def filterBy (type : UInt8) (width y : Nat) (val : Nat → Int) : Filtering :=
  let pxRowLength := width * 4
  let rawRowLength := pxRowLength + 1
  { sum := ((List.range pxRowLength).map fun x => (val x).natAbs).sum
    write := fun rawData =>
      fill (y * rawRowLength + 1) pxRowLength (fun _ x => toByte (val x))
        (rawData.set (y * rawRowLength) type) }

section Loops

variable (width : Nat) (pxData : Bytes) (y : Nat)

/-- The variable `left`. -/
def leftOf (x : Nat) : Nat := if 4 ≤ x then pixel pxData (y * (width * 4) + x - 4) else 0

/-- The variable `up`. -/
def upOf (x : Nat) : Nat := if 0 < y then pixel pxData ((y - 1) * (width * 4) + x) else 0

/-- The variable `upLeft`. -/
def upLeftOf (x : Nat) : Nat :=
  if 4 ≤ x ∧ 0 < y then pixel pxData ((y - 1) * (width * 4) + x - 4) else 0

def filterSub : Filtering :=
  filterBy 1 width y fun x => pixel pxData (y * (width * 4) + x) - leftOf width pxData y x

def filterUp : Filtering :=
  filterBy 2 width y fun x => pixel pxData (y * (width * 4) + x) - upOf width pxData y x

def filterAvg : Filtering :=
  filterBy 3 width y fun x => pixel pxData (y * (width * 4) + x) -
    ((leftOf width pxData y x + upOf width pxData y x) >>> 1 : Nat)

def filterPaeth : Filtering :=
  filterBy 4 width y fun x => pixel pxData (y * (width * 4) + x) -
    PaethPredictor (leftOf width pxData y x) (upOf width pxData y x) (upLeftOf width pxData y x)

end Loops

/-- `_filters` -/
def filters : Int → Option (Nat → Bytes → Nat → Filtering)
  | 0 => some filterNone
  | 1 => some filterSub
  | 2 => some filterUp
  | 3 => some filterAvg
  | 4 => some filterPaeth
  | _ => none

/-- What the option `filterType` may be. -/
inductive FilterType
  | missing
  | number (type : Int)
  | list (types : List Int)
  deriving DecidableEq, Repr

/-- What the constructor makes of the option. -/
def filterTypes : FilterType → List Int
  | .missing => [0, 1, 2, 3, 4]
  | .number type => if type = -1 then [0, 1, 2, 3, 4] else [type]
  | .list types => types

/-- The loop over the allowed types, from the least sum so far and its type on. -/
def select (width : Nat) (pxData : Bytes) (y : Nat) :
    List Int → Option Nat → Int → Outcome (Option Nat × Int)
  | [], min, sel => .ok (min, sel)
  | type :: types, min, sel =>
    match filters type with
    | none => .error (.thrown "TypeError")
    | some f =>
      let sum := (f width pxData y).sum
      if min.all (sum < ·) then select width pxData y types (some sum) type
      else select width pxData y types min sel

/-- One turn of the loop over the lines. -/
def filterLine (width : Nat) (pxData : Bytes) (types : List Int) (rawData : Bytes) (y : Nat) :
    Outcome Bytes := do
  let (_, sel) ← select width pxData y types none 0
  match filters sel with
  | none => .error (.thrown "TypeError")
  | some f => .ok ((f width pxData y).write rawData)

/-- `Filter.filter`, where `fresh` is what the new buffer holds. -/
def filter (width height : Nat) (pxData : Bytes) (types : List Int) (fresh : Nat → Bytes) :
    Outcome Bytes :=
  (List.range height).foldlM (filterLine width pxData types) (fresh ((width * 4 + 1) * height))

/-! ## The lines mean the pixels -/

/-- The rows of pixels of four bytes. -/
def rowOf (width : Nat) (pxData : Bytes) (y k : Nat) : UInt8 := pxData.getD (y * (width * 4) + k) 0

/-- The sum a type of filter has for a line. -/
def sumOf (width : Nat) (pxData : Bytes) (y : Nat) (type : Int) : Nat :=
  match filters type with
  | none => 0
  | some f => (f width pxData y).sum

/-- The types of filter there are. -/
def Known (type : Int) : Prop := 0 ≤ type ∧ type ≤ 4

instance (type : Int) : Decidable (Known type) := inferInstanceAs (Decidable (0 ≤ type ∧ type ≤ 4))

variable {width height : Nat} {pxData : Bytes} {types : List Int} {y : Nat}

/-- A byte is the stored difference to a prediction, and the prediction. -/
theorem toByte_add (a p : Nat) (b : UInt8) (hb : b.toNat = a) :
    b = UInt8.ofNat ((toByte ((a : Int) - p)).toNat + p) := by
  have hlt := b.toNat_lt
  refine UInt8.toNat_inj.mp ?_
  rw [toByte, UInt8.toNat_ofNat', UInt8.toNat_ofNat', hb]
  omega

/-- A loop writes a line. -/
theorem write_line {rawData : Bytes} {type : UInt8} {v : Nat → UInt8}
    (hroom : (y + 1) * (width * 4 + 1) ≤ rawData.length) :
    Filled (y * (width * 4 + 1)) (width * 4 + 1)
      (fun j => (type :: (List.range (width * 4)).map v).getD j 0) rawData
      (fill (y * (width * 4 + 1) + 1) (width * 4) (fun _ x => v x)
        (rawData.set (y * (width * 4 + 1)) type)) := by
  rw [Nat.succ_mul] at hroom
  have hfill : Filled (y * (width * 4 + 1) + 1) (width * 4) v
      (rawData.set (y * (width * 4 + 1)) type) (fill (y * (width * 4 + 1) + 1) (width * 4)
        (fun _ x => v x) (rawData.set (y * (width * 4 + 1)) type)) :=
    fill_spec (by rw [List.length_set]; omega) fun _ _ _ _ => rfl
  refine ⟨by rw [hfill.1, List.length_set], fun p => ?_⟩
  by_cases hin : y * (width * 4 + 1) ≤ p ∧ p < y * (width * 4 + 1) + (width * 4 + 1)
  · obtain ⟨j, rfl⟩ : ∃ j, p = y * (width * 4 + 1) + j := ⟨p - y * (width * 4 + 1), by omega⟩
    rw [if_pos hin, Nat.add_sub_cancel_left]
    cases j with
    | zero =>
      rw [hfill.outside (.inl (by omega)), List.getElem?_set, if_pos (by omega),
        if_pos (by omega)]
      rfl
    | succ j =>
      have hpos : y * (width * 4 + 1) + (j + 1) = y * (width * 4 + 1) + 1 + j := by omega
      have hj : j < width * 4 := by omega
      rw [hpos, hfill.inside hj]
      simp [hj]
  · rw [if_neg hin, hfill.outside (by omega), List.getElem?_set, if_neg (by omega)]

/-- **A type of filter writes a line that means its row.** -/
theorem filters_line {type : Int} (hknown : Known type) (width : Nat) (pxData : Bytes) (y : Nat) :
    ∃ (f : Nat → Bytes → Nat → Filtering) (l : Scanline) (predict : Nat → Nat → Nat → Nat),
      filters type = some f ∧ l.filtered.length = width * 4 ∧
      (l.filter.toNat : Int) = type ∧ predictor l.filter = some predict ∧
      (∀ k < width * 4, rowOf width pxData y k = UInt8.ofNat ((l.filtered.getD k 0).toNat +
        predicted predict 4 (rowOf width pxData) y k)) ∧
      ∀ rawData : Bytes, (y + 1) * (width * 4 + 1) ≤ rawData.length →
        Filled (y * (width * 4 + 1)) (width * 4 + 1) (fun j => l.bytes.getD j 0) rawData
          ((f width pxData y).write rawData) := by
  -- what is above and to the left of a byte
  have hleft : ∀ k, leftOf width pxData y k =
      if 4 ≤ k then (rowOf width pxData y (k - 4)).toNat else 0 := by
    intro k
    unfold leftOf rowOf pixel
    split
    · rw [Nat.add_sub_assoc ‹_›]
    · rfl
  have hupLeft : ∀ k, upLeftOf width pxData y k =
      if 4 ≤ k ∧ 0 < y then (rowOf width pxData (y - 1) (k - 4)).toNat else 0 := by
    intro k
    unfold upLeftOf rowOf pixel
    split
    · next h => rw [Nat.add_sub_assoc h.1]
    · rfl
  have hline : ∀ (val : Nat → Int) (predict : Nat → Nat → Nat → Nat),
      (∀ k, val k = (rowOf width pxData y k).toNat -
        (predicted predict 4 (rowOf width pxData) y k : Int)) →
      ∀ k < width * 4, rowOf width pxData y k =
        UInt8.ofNat ((((List.range (width * 4)).map fun x => toByte (val x)).getD k 0).toNat +
          predicted predict 4 (rowOf width pxData) y k) := by
    intro val predict hval k hk
    rw [List.getD_eq_getElem _ _ (by simpa using hk), List.getElem_map, List.getElem_range, hval]
    exact toByte_add _ _ _ rfl
  obtain ⟨h0, h4⟩ := hknown
  obtain rfl | rfl | rfl | rfl | rfl :
      type = 0 ∨ type = 1 ∨ type = 2 ∨ type = 3 ∨ type = 4 := by omega
  · refine ⟨filterNone, ⟨0, (List.range (width * 4)).map (rowOf width pxData y)⟩, _, rfl, by simp,
      rfl, rfl, fun k hk => ?_, fun rawData hroom => write_line hroom⟩
    rw [List.getD_eq_getElem _ _ (by simpa using hk), List.getElem_map, List.getElem_range]
    simp [predicted]
  · refine ⟨filterSub, ⟨1, (List.range (width * 4)).map fun x => toByte _⟩, _,
      rfl, by simp, rfl, rfl,
      hline _ _ fun k => ?_, fun rawData hroom => write_line hroom⟩
    rw [hleft]
    rfl
  · refine ⟨filterUp, ⟨2, (List.range (width * 4)).map fun x => toByte _⟩, _,
      rfl, by simp, rfl, rfl,
      hline _ _ fun k => ?_, fun rawData hroom => write_line hroom⟩
    rfl
  · refine ⟨filterAvg, ⟨3, (List.range (width * 4)).map fun x => toByte _⟩, _,
      rfl, by simp, rfl, rfl,
      hline _ _ fun k => ?_, fun rawData hroom => write_line hroom⟩
    rw [hleft, Nat.shiftRight_eq_div_pow]
    rfl
  · refine ⟨filterPaeth, ⟨4, (List.range (width * 4)).map fun x => toByte _⟩, _,
      rfl, by simp, rfl, rfl,
      hline _ _ fun k => ?_, fun rawData hroom => write_line hroom⟩
    rw [hleft, hupLeft]
    rfl

/-- The first of the types that has the least sum. -/
def First (width : Nat) (pxData : Bytes) (types : List Int) (y : Nat) (type : Int) : Prop :=
  ∃ before after, types = before ++ type :: after ∧
    (∀ t ∈ before, sumOf width pxData y type < sumOf width pxData y t) ∧
    ∀ t ∈ after, sumOf width pxData y type ≤ sumOf width pxData y t

/-- The loop keeps what it has, if no type has a smaller sum, and ends with the first type of
least sum otherwise. -/
theorem select_spec (width : Nat) (pxData : Bytes) (y : Nat) (hknown : ∀ type ∈ types, Known type)
    (min : Option Nat) (sel : Int) :
    ∃ min' sel', select width pxData y types min sel = .ok (min', sel') ∧
      (sel' = sel ∧ min' = min ∧ (∀ type ∈ types, ∃ m, min = some m ∧
        m ≤ sumOf width pxData y type) ∨
        First width pxData types y sel' ∧ min' = some (sumOf width pxData y sel') ∧
          ∀ m, min = some m → sumOf width pxData y sel' < m) := by
  induction types generalizing min sel with
  | nil => exact ⟨min, sel, rfl, .inl ⟨rfl, rfl, by simp⟩⟩
  | cons type types ih =>
    obtain ⟨f, _, _, hf, -⟩ := filters_line (hknown type (by simp)) width pxData y
    have hsum : sumOf width pxData y type = (f width pxData y).sum := by rw [sumOf, hf]
    have hrest : ∀ t ∈ types, Known t := fun t ht => hknown t (by simp [ht])
    rw [select, hf]
    dsimp only
    rw [← hsum]
    by_cases hless : min.all (sumOf width pxData y type < ·) = true
    · -- this type is the least so far
      have hmin : ∀ m, min = some m → sumOf width pxData y type < m := by
        intro m hm
        rw [hm] at hless
        simpa using hless
      obtain ⟨min', sel', hsel, hchosen⟩ := ih hrest (some (sumOf width pxData y type)) type
      rw [if_pos hless]
      refine ⟨min', sel', hsel, .inr ?_⟩
      rcases hchosen with ⟨rfl, rfl, hleast⟩ |
        ⟨⟨before, after, rfl, hbefore, hafter⟩, hmin', hsmaller⟩
      · refine ⟨⟨[], types, rfl, by simp, fun t ht => ?_⟩, rfl, hmin⟩
        obtain ⟨m, hm, hle⟩ := hleast t ht
        cases hm
        exact hle
      · have hlt := hsmaller _ rfl
        refine ⟨⟨type :: before, after, rfl, fun t ht => ?_, hafter⟩, hmin', fun m hm => ?_⟩
        · rcases List.mem_cons.mp ht with rfl | ht
          · exact hlt
          · exact hbefore t ht
        · exact hlt.trans (hmin m hm)
    · -- an earlier type has no greater sum
      obtain ⟨m, rfl, hle⟩ : ∃ m, min = some m ∧ m ≤ sumOf width pxData y type := by
        cases min with
        | none => simp at hless
        | some m => exact ⟨m, rfl, by simpa using hless⟩
      obtain ⟨min', sel', hsel, hchosen⟩ := ih hrest (some m) sel
      rw [if_neg hless]
      refine ⟨min', sel', hsel, ?_⟩
      rcases hchosen with ⟨rfl, rfl, hleast⟩ |
        ⟨⟨before, after, rfl, hbefore, hafter⟩, hmin', hsmaller⟩
      · refine .inl ⟨rfl, rfl, fun t ht => ?_⟩
        rcases List.mem_cons.mp ht with rfl | ht
        · exact ⟨m, rfl, hle⟩
        · exact hleast t ht
      · have hlt := hsmaller m rfl
        refine .inr ⟨⟨type :: before, after, rfl, fun t ht => ?_, hafter⟩, hmin', hsmaller⟩
        rcases List.mem_cons.mp ht with rfl | ht
        · omega
        · exact hbefore t ht

/-- A line has this type: 0 if no type is allowed, and else the first of least sum. -/
def Chosen (width : Nat) (pxData : Bytes) (types : List Int) (y : Nat) (type : Int) : Prop :=
  (types = [] ∧ type = 0) ∨ First width pxData types y type

theorem select_chosen (width : Nat) (pxData : Bytes) (y : Nat)
    (hknown : ∀ type ∈ types, Known type) :
    ∃ min sel, select width pxData y types none 0 = .ok (min, sel) ∧
      Known sel ∧ Chosen width pxData types y sel := by
  obtain ⟨min, sel, hsel, hchosen⟩ := select_spec width pxData y hknown none 0
  refine ⟨min, sel, hsel, ?_⟩
  rcases hchosen with ⟨rfl, rfl, hleast⟩ | ⟨hfirst, -, -⟩
  · have hnil : types = [] := by
      refine List.eq_nil_iff_forall_not_mem.mpr fun t ht => ?_
      obtain ⟨m, hm, -⟩ := hleast t ht
      cases hm
    exact ⟨⟨by omega, by omega⟩, .inl ⟨hnil, rfl⟩⟩
  · refine ⟨hknown sel ?_, .inr hfirst⟩
    obtain ⟨before, after, rfl, -⟩ := hfirst
    simp

/-- **The lines that `filter` makes mean the pixels they were made from**, and the type of each
is the first of least sum.  What the new buffer held does not matter. -/
theorem filter_spec (width height : Nat) (pxData : Bytes) (hknown : ∀ type ∈ types, Known type)
    (fresh : Nat → Bytes) (hfresh : ∀ n, (fresh n).length = n) :
    ∃ lines : List Scanline,
      filter width height pxData types fresh = .ok (lines.flatMap Scanline.bytes) ∧
      lines.length = height ∧ Reconstructs 4 (width * 4) lines (rowOf width pxData) ∧
      ∀ y l, lines[y]? = some l → Chosen width pxData types y l.filter.toNat := by
  -- after some lines the rest of the buffer is still as it was
  suffices hsome : ∀ n ≤ height, ∃ lines : List Scanline, lines.length = n ∧
      (List.range n).foldlM (filterLine width pxData types) (fresh ((width * 4 + 1) * height)) =
        .ok (lines.flatMap Scanline.bytes ++
          (fresh ((width * 4 + 1) * height)).drop (n * (width * 4 + 1))) ∧
      (lines.flatMap Scanline.bytes).length = n * (width * 4 + 1) ∧
      Reconstructs 4 (width * 4) lines (rowOf width pxData) ∧
      ∀ y l, lines[y]? = some l → Chosen width pxData types y l.filter.toNat by
    obtain ⟨lines, hlines, hfold, -, hrec, hchosen⟩ := hsome height (Nat.le_refl _)
    refine ⟨lines, ?_, hlines, hrec, hchosen⟩
    rw [filter, hfold, List.drop_eq_nil_of_le (by rw [hfresh, Nat.mul_comm]), List.append_nil]
  intro n hn
  induction n with
  | zero =>
    refine ⟨[], rfl, by simp [pure, Except.pure], by simp, ?_, ?_⟩
    · intro y l hl
      simp at hl
    · intro y l hl
      simp at hl
  | succ n ih =>
    obtain ⟨lines, hlines, hfold, hlength, hrec, hchosen⟩ := ih (by omega)
    obtain ⟨min, sel, hselect, hsel, hbest⟩ :=
      select_chosen width pxData n hknown
    obtain ⟨f, l, predict, hf, hlen, htype, hpredict, hrow, hwrite⟩ :=
      filters_line hsel width pxData n
    have hroom : (n + 1) * (width * 4 + 1) ≤ (width * 4 + 1) * height := by
      rw [Nat.mul_comm]
      exact Nat.mul_le_mul_left _ hn
    have hroom' := hroom
    rw [Nat.succ_mul] at hroom'
    have hbytes : l.bytes.length = width * 4 + 1 := by rw [Scanline.bytes, List.length_cons, hlen]
    have hwritten := hwrite (lines.flatMap Scanline.bytes ++
      (fresh ((width * 4 + 1) * height)).drop (n * (width * 4 + 1))) (by
        rw [List.length_append, hlength, List.length_drop, hfresh]
        omega)
    rw [← hlength, ← hbytes] at hwritten
    have hline := hwritten.eq_append fun j hj => List.getD_eq_getElem _ _ hj
    rw [hlength, hbytes, List.drop_drop] at hline
    have hlast : ∀ y l', (lines ++ [l])[y]? = some l' → lines[y]? = some l' ∨ y = n ∧ l' = l := by
      intro y l' hl'
      by_cases hy : y < lines.length
      · exact .inl (by rwa [List.getElem?_append_left hy] at hl')
      · rw [List.getElem?_append_right (by omega)] at hl'
        have := List.getElem?_eq_some_iff.mp hl'
        obtain ⟨hlt, rfl⟩ := this
        rw [List.length_singleton] at hlt
        exact .inr ⟨by omega, by simp⟩
    refine ⟨lines ++ [l], by simp [hlines], ?_, ?_, ?_, ?_⟩
    · rw [List.range_succ, List.foldlM_append, hfold]
      simp only [List.foldlM_cons, List.foldlM_nil, filterLine, hselect, hf, bind,
        Except.bind, pure,
        Except.pure]
      rw [hline, Nat.succ_mul n, List.flatMap_append, List.flatMap_singleton]
    · simp [hlength, hbytes, Nat.succ_mul]
    · intro y l' hl'
      rcases hlast y l' hl' with hl' | ⟨rfl, rfl⟩
      · exact hrec y l' hl'
      · exact ⟨hlen, predict, hpredict, hrow⟩
    · intro y l' hl'
      rcases hlast y l' hl' with hl' | ⟨rfl, rfl⟩
      · exact hchosen y l' hl'
      · rw [htype]
        exact hbest

/-- Two lines, of which the second is like the first. -/
theorem filter_spec_twice : ∃ lines : List Scanline,
    filter 1 2 [9, 9, 9, 9, 9, 9, 9, 9] [4, 2] (fun n => List.replicate n 0) =
        .ok (lines.flatMap Scanline.bytes) ∧ lines.length = 2 ∧
      Reconstructs 4 (1 * 4) lines (rowOf 1 [9, 9, 9, 9, 9, 9, 9, 9]) ∧
      ∀ y l, lines[y]? = some l → Chosen 1 [9, 9, 9, 9, 9, 9, 9, 9] [4, 2] y l.filter.toNat :=
  filter_spec 1 2 _ (by decide) _ fun n => List.length_replicate

/-- Pixels of four bytes are their own image. -/
theorem rgba_rowOf (hlen : pxData.length = height * (width * 4)) :
    rgba width height 4 (rowOf width pxData) = pxData := by
  refine List.ext_getElem (by rw [length_rgba, hlen]) fun p hp hp' => ?_
  have hmap : ∀ i < 4, pixelBppMap 4 i = i := by decide
  have hrow : p / (width * 4) * (width * 4) + p % (width * 4) = p := Nat.div_add_mod' p (width * 4)
  have hpixel : p % (width * 4) / 4 * 4 + p % (width * 4) % 4 = p % (width * 4) :=
    Nat.div_add_mod' _ 4
  have hlt : p % (width * 4) % 4 < 4 := Nat.mod_lt _ (by decide)
  simp only [rgba, List.getElem_map, List.getElem_range, rgbaAt, widened, hmap _ hlt]
  rw [if_pos (by omega), hpixel, rowOf, hrow, List.getD_eq_getElem _ _ hp']

end Png

import Tint.Transition
import Tint.Png.Format
import Tint.Png.Filtering

/-!
# From a file to its pixels

The parts of the decoder work at their own pace: the file is written to the parser in
pieces, the inflate stream turns what it was given into scan lines when it gets to it and
in pieces of its own, and the filter makes pixels of them.  The inflate stream is not
part of the program; what is relied on is that what it emits is a beginning of what its
input stands for.  That the pipe ends the filter with the inflate stream is left out: the
pixels are emitted before.

* `reverseFiltered_eq` -- the step that replaces the entries of a palette;
* `Picture` -- a file that means an image, for any color type, with any other chunks;
* `decodes_in_every_order` -- in every order of the steps, with every cut of the file and of the
  output: nothing is thrown, no error is emitted, and the pixels are emitted when the
  last scan line is there, once, and they are those of the image.
-/

namespace Png

open ChunkedReader FillLoop Transition

/-! ## Palettes -/

/-- `color[i]` -/
def Color.component (c : Color) : Nat → UInt8
  | 0 => c.red
  | 1 => c.green
  | 2 => c.blue
  | _ => c.alpha

/-- The body of the loops of `_reverseFiltered`. -/
def palettePixel (palette : List Color) (pxPos : Nat) (data : Bytes) : Outcome Bytes :=
  match palette[(data.getD pxPos 0).toNat]? with
  | none => .error (.thrown "TypeError")
  | some color => .ok ((List.range 4).foldl (fun d i => d.set (pxPos + i) (color.component i)) data)

/-- `_reverseFiltered` -/
def reverseFiltered (colorType : Nat) (palette : List Color) (data : Bytes) (width height : Nat) :
    Outcome Bytes :=
  if colorType = 3 then
    (List.range height).foldlM (fun d y => (List.range width).foldlM
      (fun d x => palettePixel palette (y * (width * 4) + x * 4) d) d) data
  else .ok data

/-- A byte of the pixels that an image means. -/
def imageAt (width bpp colorType : Nat) (palette : List Color) (row : Nat → Nat → UInt8) (p : Nat) :
    UInt8 :=
  if colorType = 3 then
    match palette[(row (p / (width * 4)) (p % (width * 4) / 4)).toNat]? with
    | none => 0
    | some color => color.component (p % (width * 4) % 4)
  else rgbaAt width bpp row p

/-- The pixels of an image, row by row. -/
def image (width height bpp colorType : Nat) (palette : List Color)
    (row : Nat → Nat → UInt8) : Bytes :=
  (List.range (height * (width * 4))).map (imageAt width bpp colorType palette row)

section Palette

variable {width height : Nat} {palette : List Color} {row : Nat → Nat → UInt8} {x y : Nat}

/-- The entries of the palette are replaced up to a byte. -/
def Replaced (width height : Nat) (palette : List Color) (row : Nat → Nat → UInt8) (n : Nat)
    (d : Bytes) : Prop :=
  Filled 0 n (imageAt width 1 3 palette row) (rgba width height 1 row) d

/-- One pixel is replaced. -/
theorem palettePixel_replaced (hcolors : ∀ y < height, ∀ x < width,
    (row y x).toNat < palette.length)
    (hy : y < height) (hx : x < width) {d : Bytes}
    (hd : Replaced width height palette row (y * (width * 4) + x * 4) d) :
    ∃ d', palettePixel palette (y * (width * 4) + x * 4) d = .ok d' ∧
      Replaced width height palette row (y * (width * 4) + (x + 1) * 4) d' := by
  have hroom : y * (width * 4) + width * 4 ≤ height * (width * 4) := by
    rw [← Nat.succ_mul]
    exact Nat.mul_le_mul_right _ hy
  have hcolor := hcolors y hy x hx
  -- the place of the pixel still holds its entry
  have hentry : d.getD (y * (width * 4) + x * 4) 0 = row y x := by
    have hin : y * (width * 4) + x * 4 < height * (width * 4) := by omega
    rw [List.getD_eq_getElem?_getD, hd.outside (.inr (by omega)), rgba, List.getElem?_map,
      List.getElem?_range hin, Option.map_some, Option.getD_some, rgbaAt_line y (by omega)]
    have h1 : x * 4 / 4 = x := Nat.mul_div_cancel x (by decide)
    have h2 : x * 4 % 4 = 0 := Nat.mul_mod_left x 4
    rw [h1, h2]
    change row y (x * 1 + 0) = row y x
    rw [Nat.mul_one, Nat.add_zero]
  have htarget : ∀ i < 4, imageAt width 1 3 palette row (y * (width * 4) + (x * 4 + i)) =
      palette[(row y x).toNat].component i := by
    intro i hi
    have hdiv : (y * (width * 4) + (x * 4 + i)) / (width * 4) = y := by
      rw [Nat.add_comm, Nat.add_mul_div_right _ _ (by omega), Nat.div_eq_of_lt (by omega),
        Nat.zero_add]
    have hmod : (y * (width * 4) + (x * 4 + i)) % (width * 4) = x * 4 + i := by
      rw [Nat.mul_comm, Nat.mul_add_mod, Nat.mod_eq_of_lt (by omega)]
    have h1 : (x * 4 + i) / 4 = x := by omega
    have h2 : (x * 4 + i) % 4 = i := by omega
    rw [imageAt, if_pos rfl, hdiv, hmod, h1, h2, List.getElem?_eq_getElem hcolor]
  have hlen : d.length = height * (width * 4) := by rw [hd.1, length_rgba]
  have hfilled : Filled (y * (width * 4) + x * 4) 4 palette[(row y x).toNat].component d
      (fill (y * (width * 4) + x * 4) 4 (fun _ i => palette[(row y x).toNat].component i) d) :=
    fill_spec (by omega) fun _ _ _ _ => rfl
  refine ⟨_, ?_, hfilled.1.trans hd.1, fun p => ?_⟩
  · rw [palettePixel, hentry, List.getElem?_eq_getElem hcolor]
    rfl
  · by_cases hin : y * (width * 4) + x * 4 ≤ p ∧ p < y * (width * 4) + x * 4 + 4
    · obtain ⟨i, rfl⟩ : ∃ i, p = y * (width * 4) + x * 4 + i :=
        ⟨p - (y * (width * 4) + x * 4), by omega⟩
      rw [hfilled.inside (by omega), if_pos (by omega), Nat.sub_zero, Nat.add_assoc,
        htarget i (by omega)]
    · rw [hfilled.outside (by omega), hd.2]
      by_cases hp : p < y * (width * 4) + x * 4
      · rw [if_pos (by omega), if_pos (by omega)]
      · rw [if_neg (by omega), if_neg (by omega)]

/-- **The entries of a palette are replaced by their colors**, if there are such. -/
theorem palette_loops (hcolors : ∀ y < height, ∀ x < width, (row y x).toNat < palette.length) :
    ∃ d, (List.range height).foldlM (fun d y => (List.range width).foldlM
        (fun d x => palettePixel palette (y * (width * 4) + x * 4) d) d)
        (rgba width height 1 row) = .ok d ∧
      Replaced width height palette row (height * (width * 4)) d := by
  have hrow : ∀ y < height, ∀ n ≤ width, ∀ d,
    Replaced width height palette row (y * (width * 4)) d →
      ∃ d', (List.range n).foldlM
          (fun d x => palettePixel palette (y * (width * 4) + x * 4) d) d = Except.ok d' ∧
        Replaced width height palette row (y * (width * 4) + n * 4) d' := by
    intro y hy n hn d hd
    induction n with
    | zero => exact ⟨d, rfl, by simpa using hd⟩
    | succ n ih =>
      obtain ⟨d₁, hfold, hd₁⟩ := ih (by omega)
      obtain ⟨d₂, hpixel, hd₂⟩ := palettePixel_replaced hcolors hy (show n < width by omega) hd₁
      refine ⟨d₂, ?_, hd₂⟩
      rw [List.range_succ, List.foldlM_append, hfold]
      simp [bind, Except.bind, pure, Except.pure, hpixel]
  have hall : ∀ n ≤ height, ∃ d, (List.range n).foldlM (fun d y => (List.range width).foldlM
        (fun d x => palettePixel palette (y * (width * 4) + x * 4) d) d)
        (rgba width height 1 row) = .ok d ∧
      Replaced width height palette row (n * (width * 4)) d := by
    intro n hn
    induction n with
    | zero =>
      refine ⟨rgba width height 1 row, rfl, rfl, fun p => ?_⟩
      rw [if_neg (by omega)]
    | succ n ih =>
      obtain ⟨d₁, hfold, hd₁⟩ := ih (by omega)
      obtain ⟨d₂, hline, hd₂⟩ := hrow n (by omega) width (Nat.le_refl _) d₁ hd₁
      refine ⟨d₂, ?_, by rwa [Nat.succ_mul]⟩
      rw [List.range_succ, List.foldlM_append, hfold]
      simp [bind, Except.bind, pure, Except.pure] at hline ⊢
      rw [hline]
  exact hall height (Nat.le_refl _)

/-- Without a palette the pixels are those of the filter. -/
theorem image_of_colors {bpp colorType : Nat} (h : colorType ≠ 3) :
    image width height bpp colorType palette row = rgba width height bpp row := by
  refine List.map_congr_left fun p _ => ?_
  rw [imageAt, if_neg h]

/-- **What the parser makes of the filter's pixels is the image.** -/
theorem reverseFiltered_eq {bpp colorType : Nat} (hbpp : colorType = 3 → bpp = 1)
    (hcolors : colorType = 3 → ∀ y < height, ∀ x < width, (row y x).toNat < palette.length) :
    reverseFiltered colorType palette (rgba width height bpp row) width height =
      .ok (image width height bpp colorType palette row) := by
  by_cases h3 : colorType = 3
  · subst h3
    obtain rfl := hbpp rfl
    obtain ⟨d, hloops, hlen, hd⟩ := palette_loops (hcolors rfl)
    rw [reverseFiltered, if_pos rfl, hloops]
    refine congrArg Except.ok (List.ext_getElem? fun p => ?_)
    rw [hd, image, List.getElem?_map]
    by_cases hp : p < height * (width * 4)
    · rw [if_pos (by omega), List.getElem?_range hp]
      rfl
    · rw [if_neg (by omega), List.getElem?_eq_none (by rw [length_rgba]; omega),
        List.getElem?_eq_none (by simp; omega)]
      rfl
  · rw [reverseFiltered, if_neg h3, image_of_colors h3]

end Palette

/-! ## The decoder -/

/-- The decoder: the parser's stream, the filter's once something was piped into it, what was
written to the parser and what the inflate stream emitted, and the pixels that were emitted
with `parsed`.  After an exception nothing more is said. -/
structure Decoder where
  parser : ChunkStream Parser Step
  filter : Option (ChunkStream Filter Unit)
  written : Bytes
  delivered : Bytes
  parsed : List Bytes
  thrown : Bool

/-- What comes to the decoder. -/
inductive Action
  | write (data : Bytes)
  | endParse
  | inflated (data : Bytes)
  deriving DecidableEq, Repr

/-- Fuel for a call that has so much to read. -/
def fuelFor (buffered : Nat) (data : Bytes) : Nat := 2 * (buffered + data.length) + 2

namespace Decoder

/-- A new decoder. -/
def start (checkCRC : Bool) : Decoder := ⟨parserStream checkCRC, none, [], [], [], false⟩

/-- A new `complete` of the filter is answered by the parser. -/
def completed (d : Decoder) (before after : ChunkStream Filter Unit) (data : Bytes) : Decoder :=
  let d := { d with filter := some after, delivered := d.delivered ++ data }
  match after.owner.complete.drop before.owner.complete.length with
  | [] => d
  | pixels :: _ =>
    match reverseFiltered d.parser.owner.colorType d.parser.owner.palette pixels after.owner.width
        after.owner.height with
    | .ok pixels => { d with parsed := d.parsed ++ [pixels] }
    | .error _ => { d with thrown := true }

/-- One step: a write, the end of the writing, or the inflate stream emits something. -/
def step (fresh : Nat → Bytes) (d : Decoder) (a : Action) : Option Decoder :=
  if d.thrown then none
  else
    match a with
    | .write data =>
      match d.parser.write (Parser.subclass fresh) (fuelFor d.parser.buffered data) data with
      | .ok parser => some { d with parser := parser, written := d.written ++ data }
      | .error _ => some { d with thrown := true }
    | .endParse =>
      match d.parser.endWith (Parser.subclass fresh)
          (ChunkStream.process (Parser.subclass fresh) (fuelFor d.parser.buffered [])) with
      | .ok parser => some { d with parser := parser }
      | .error _ => some { d with thrown := true }
    | .inflated data =>
      match d.parser.owner.inflate with
      | none => none
      | some inflate =>
        let before := d.filter.getD (filterStream inflate.filter)
        match before.write Filter.subclass (fuelFor before.buffered data) data with
        | .ok after => some (d.completed before after data)
        | .error _ => some { d with thrown := true }

end Decoder

/-! ## Files that mean an image -/

/-- No palette, or part of one, comes after the data of the image; `begun` says whether there was
some already. -/
def PaletteFirst : Bool → List Item → Prop
  | _, [] => True
  | begun, .palette _ :: items => begun = false ∧ PaletteFirst begun items
  | begun, .transparency _ :: items => begun = false ∧ PaletteFirst begun items
  | _, .image _ :: items => PaletteFirst true items
  | begun, _ :: items => PaletteFirst begun items

/-- A file that means an image, where `Inflates` relates an input of the inflate stream to what it
may have emitted: the chunks may stand where they stand, the output is a beginning of the scan
lines (and of what comes after them), and the lines mean the rows. -/
structure Picture (Inflates : Bytes → Bytes → Prop) where
  header : Header
  items : List Item
  seen : Seen
  compressed : Bytes
  lines : List Scanline
  extra : Bytes
  row : Nat → Nat → UInt8
  valid : ∀ item ∈ items, item.Valid
  seen_eq : seeAll header.colorType items = some seen
  compressed_eq : seen.compressed = some compressed
  paletteFirst : PaletteFirst false items
  inflates : ∀ input output, input <+: compressed → Inflates input output →
    output <+: lines.flatMap Scanline.bytes ++ extra
  height_pos : 0 < header.height
  lines_length : lines.length = header.height
  reconstructs : Reconstructs header.bpp (header.width * header.bpp) lines row
  colors : header.colorType = 3 → ∀ y < header.height, ∀ x < header.width,
    (row y x).toNat < seen.palette.length

namespace Picture

variable {Inflates : Bytes → Bytes → Prop} (pic : Picture Inflates)

/-- The file of a picture. -/
def file : Bytes := fileBytes pic.header pic.items

/-- The pixels the file means. -/
def pixels : Bytes :=
  image pic.header.width pic.header.height pic.header.bpp pic.header.colorType
    pic.seen.palette pic.row

/-- What the parser has emitted of its own at the end. -/
def notes : List Note := pic.header.metadata :: pic.seen.gammas.map .gamma

/-- How many bytes the scan lines have. -/
def linesLength : Nat := pic.header.height * (pic.header.width * pic.header.bpp + 1)

end Picture

/-- What the surroundings do: they write a file from its start, end after it, and the inflate
stream emits what its input stands for. -/
def Decoder.Proper (Inflates : Bytes → Bytes → Prop) (file : Bytes) (d : Decoder) : Action → Prop
  | .write data => data ≠ [] ∧ d.written ++ data <+: file
  | .endParse => d.written = file
  | .inflated data => data ≠ [] ∧
      ∃ inflate, d.parser.owner.inflate = some inflate ∧
        Inflates inflate.input (d.delivered ++ data)

instance {Inflates : Bytes → Bytes → Prop} [∀ i o, Decidable (Inflates i o)] (file : Bytes)
    (d : Decoder) : (a : Action) → Decidable (d.Proper Inflates file a)
  | .write data => inferInstanceAs (Decidable (data ≠ [] ∧ d.written ++ data <+: file))
  | .endParse => inferInstanceAs (Decidable (d.written = file))
  | .inflated data =>
    match h : d.parser.owner.inflate with
    | none => isFalse fun hproper => by
        obtain ⟨-, inflate, hinflate, -⟩ := hproper
        rw [h] at hinflate
        cases hinflate
    | some inflate =>
      decidable_of_iff (data ≠ [] ∧ Inflates inflate.input (d.delivered ++ data))
        ⟨fun hp => ⟨hp.1, inflate, h, hp.2⟩, fun hp => ⟨hp.1, by
          obtain ⟨-, inflate', hinflate, hmay⟩ := hp
          rw [h] at hinflate
          cases hinflate
          exact hmay⟩⟩

/-- They do so with the file of an image. -/
abbrev Picture.Proper {Inflates : Bytes → Bytes → Prop} (pic : Picture Inflates) (d : Decoder)
    (a : Action) : Prop :=
  d.Proper Inflates pic.file a


/-! ## What the parser has done on the way -/

section Way

variable {colorType : Nat} {s s' final : Seen} {items : List Item} {z : Bytes}

/-- What was said is what will have been said of the palette once there is compressed data, and
that is a beginning of all of it. -/
def OnTheWay (final : Seen) (z : Bytes) (s : Seen) : Prop :=
  ∀ y, s.compressed = some y → s.palette = final.palette ∧ y <+: z

/-- From the first data of the image on the palette stays. -/
theorem palette_stays (hsee : items.foldlM (Seen.see colorType) s = some final)
    (hfirst : PaletteFirst true items) {y : Bytes} (hy : s.compressed = some y) :
    s.palette = final.palette ∧ ∃ z, final.compressed = some z ∧ y <+: z := by
  induction items generalizing s y with
  | nil =>
    cases hsee
    exact ⟨rfl, y, hy, List.prefix_rfl⟩
  | cons item items ih =>
    rw [List.foldlM_cons, Option.bind_eq_bind, Option.bind_eq_some_iff] at hsee
    obtain ⟨s₁, hitem, hitems⟩ := hsee
    cases item with
    | skipped type data crc =>
      cases hitem
      exact ih hitems hfirst hy
    | gamma data =>
      obtain ⟨value, -, rfl⟩ := Option.map_eq_some_iff.mp hitem
      exact ih hitems hfirst hy
    | palette data => exact absurd hfirst.1 (by decide)
    | transparency data => exact absurd hfirst.1 (by decide)
    | image data =>
      simp only [Seen.see] at hitem
      split at hitem
      · cases hitem
      · cases hitem
        obtain ⟨hpalette, z, hz, hle⟩ := ih hitems hfirst rfl
        rw [hy] at hle
        exact ⟨hpalette, z, hz, (List.prefix_append y data).trans hle⟩

/-- Items that lead to the last state are on the way to it. -/
theorem onTheWay_of_some (hsee : items.foldlM (Seen.see colorType) s = some final)
    (hz : final.compressed = some z) (hfirst : PaletteFirst s.compressed.isSome items) :
    OnTheWay final z s := by
  intro y hy
  rw [hy] at hfirst
  obtain ⟨hpalette, z', hz', hle⟩ := palette_stays hsee hfirst hy
  rw [hz] at hz'
  cases hz'
  exact ⟨hpalette, hle⟩

/-- At each chunk, and at each part of the data of the image, it is so. -/
theorem follows_onTheWay (hsee : items.foldlM (Seen.see colorType) s = some final)
    (hz : final.compressed = some z) (hfirst : PaletteFirst s.compressed.isSome items) :
    Follows colorType (OnTheWay final z) s items := by
  induction items generalizing s with
  | nil => exact onTheWay_of_some hsee hz hfirst
  | cons item items ih =>
    have hhere := onTheWay_of_some hsee hz hfirst
    rw [List.foldlM_cons, Option.bind_eq_bind, Option.bind_eq_some_iff] at hsee
    obtain ⟨s₁, hitem, hitems⟩ := hsee
    have hnext : PaletteFirst s₁.compressed.isSome items := by
      cases item with
      | skipped type data crc =>
        cases hitem
        exact hfirst
      | gamma data =>
        obtain ⟨value, -, rfl⟩ := Option.map_eq_some_iff.mp hitem
        exact hfirst
      | palette data =>
        cases hitem
        exact hfirst.2
      | transparency data =>
        simp only [Seen.see] at hitem
        split_ifs at hitem <;> cases hitem <;> exact hfirst.2
      | image data =>
        simp only [Seen.see] at hitem
        split at hitem
        · cases hitem
        · cases hitem
          exact hfirst
    refine ⟨hhere, ?_, fun s' hs' => ?_⟩
    · rintro data rfl b more rfl y hy
      simp only [Seen.see] at hitem
      split at hitem
      · cases hitem
      · cases hitem
        obtain ⟨hpalette, hle⟩ := onTheWay_of_some hitems hz hnext _ rfl
        cases hy
        refine ⟨hpalette, List.IsPrefix.trans ⟨more, ?_⟩ hle⟩
        rw [List.append_assoc]
    · cases hitem.symm.trans hs'
      exact ih hitems hnext

end Way

/-! ## Every order of the steps -/

section Runs

variable {Inflates : Bytes → Bytes → Prop} {pic : Picture Inflates} {fresh : Nat → Bytes}
  {checkCRC : Bool} {d d' : Decoder}

/-- The fields that the inflate stream and the filter depend on. -/
def Picture.Along (pic : Picture Inflates) (fresh : Nat → Bytes) (p : Parser) : Prop :=
  ∀ inflate, p.inflate = some inflate →
    p.colorType = pic.header.colorType ∧ p.palette = pic.seen.palette ∧
      inflate.filter = pic.header.filter fresh ∧ inflate.input <+: pic.compressed

/-- **The parser reads the file**, and on the way gives the inflate stream what it should. -/
theorem Picture.file_reads (pic : Picture Inflates) (fresh : Nat → Bytes) (checkCRC : Bool) :
    ∃ crc, Reads (Parser.subclass fresh).reader (fun h => pic.Along fresh h.owner)
      (⟨.create checkCRC, .reading Parser.firstRead⟩, pic.file)
      (⟨pic.header.finished fresh checkCRC pic.seen pic.compressed crc, .soon⟩, []) := by
  have hfollows := follows_onTheWay pic.seen_eq pic.compressed_eq pic.paletteFirst
  have halong : ∀ s crc, OnTheWay pic.seen pic.compressed s →
      pic.Along fresh (pic.header.parser fresh checkCRC s crc) := by
    rintro s crc hs inflate hinflate
    obtain ⟨y, hy, rfl⟩ := Option.map_eq_some_iff.mp hinflate
    obtain ⟨hpalette, hle⟩ := hs y hy
    exact ⟨rfl, hpalette, rfl, hle⟩
  obtain ⟨crc, hreads⟩ := Png.file_reads halong
    (fun p hp inflate hinflate => by rw [hp] at hinflate; cases hinflate) pic.valid
    pic.seen_eq hfollows
    pic.compressed_eq
    (fun crc inflate hinflate => by cases hinflate; exact ⟨rfl, rfl, rfl, List.prefix_rfl⟩)
    (fun y hy => by rw [pic.compressed_eq] at hy; cases hy; exact ⟨rfl, List.prefix_rfl⟩) []
  exact ⟨crc, by simpa [Picture.file] using hreads⟩

/-- What holds in every order of the steps. -/
structure Decoder.Inv (pic : Picture Inflates) (fresh : Nat → Bytes) (checkCRC : Bool)
    (d : Decoder) : Prop where
  thrown : d.thrown = false
  written : d.written <+: pic.file
  parser : ∃ h unread, Ends (Parser.subclass fresh).reader
      (⟨.create checkCRC, .reading Parser.firstRead⟩, d.written) (h, unread) ∧
    Shows (Parser.subclass fresh) h unread d.parser
  delivered : d.delivered <+: pic.lines.flatMap Scanline.bytes ++ pic.extra
  filter : ∃ h unread, Ends Filter.subclass.reader
      (⟨pic.header.filter fresh, .reading (pic.header.filter fresh).request⟩,
        d.delivered) (h, unread) ∧
    Shows Filter.subclass h unread (d.filter.getD (filterStream (pic.header.filter fresh)))
  parsed : d.parsed = if pic.linesLength ≤ d.delivered.length then [pic.pixels] else []

theorem parser_waiting (checkCRC : Bool) :
    Waiting Parser.Requested ⟨.create checkCRC, .reading Parser.firstRead⟩ := by
  intro r hr
  cases hr
  rfl

/-- A new filter waits for the first line. -/
theorem filter_waiting (pic : Picture Inflates) (fresh : Nat → Bytes) :
    Waiting Filter.Requested
      ⟨pic.header.filter fresh, .reading (pic.header.filter fresh).request⟩ := by
  intro r hr
  cases hr
  exact ⟨rfl, rfl⟩

/-- The number of bytes of the scan lines. -/
theorem Picture.length_lines (pic : Picture Inflates) :
    (pic.lines.flatMap Scanline.bytes).length = pic.linesLength := by
  have hall : ∀ lines : List Scanline,
      (∀ l ∈ lines, l.filtered.length = pic.header.width * pic.header.bpp) →
      (lines.flatMap Scanline.bytes).length =
        lines.length * (pic.header.width * pic.header.bpp + 1) := by
    intro lines hlines
    induction lines with
    | nil => simp
    | cons l lines ih =>
      rw [List.flatMap_cons, List.length_append, ih fun l' hl' => hlines l' (by simp [hl']),
        Scanline.bytes, List.length_cons, hlines l (by simp), List.length_cons, Nat.succ_mul,
        Nat.add_comm]
  rw [hall pic.lines fun l hl => ?_, pic.lines_length, linesLength]
  obtain ⟨y, hy⟩ := List.mem_iff_getElem?.mp hl
  exact (pic.reconstructs y l hy).1

/-- The color types have one to four bytes for a pixel, and a palette one. -/
theorem Header.bpp_range (hd : Header) : (1 ≤ hd.bpp ∧ hd.bpp ≤ 4) ∧
    (hd.colorType = 3 → hd.bpp = 1) := by
  have hbpp := hd.bpp_eq
  unfold colorTypeToBppMap at hbpp
  split at hbpp <;> simp_all <;> omega

/-- **The filter has emitted the pixels if and only if it has the last line.** -/
theorem filter_state (pic : Picture Inflates) (hfresh : ∀ n, (fresh n).length = n)
    {delivered : Bytes}
    (hle : delivered <+: pic.lines.flatMap Scanline.bytes ++ pic.extra) {h : Held Filter Unit}
    {unread : Bytes}
    (he : Ends Filter.subclass.reader
      (⟨pic.header.filter fresh, .reading (pic.header.filter fresh).request⟩, delivered)
        (h, unread)) :
    (h.status = .idle ∨ ∃ r, h.status = .reading r) ∧
      (h.owner.complete = if pic.linesLength ≤ delivered.length then
        [rgba pic.header.width pic.header.height pic.header.bpp pic.row] else []) ∧
      (pic.linesLength ≤ delivered.length →
        h.owner.width = pic.header.width ∧ h.owner.height = pic.header.height) := by
  have hdata : (fresh (pic.header.width * pic.header.height * 4)).length =
      pic.header.height * (pic.header.width * 4) := by
    rw [hfresh, Nat.mul_comm pic.header.width, Nat.mul_assoc]
  have hfull := filter_ends pic.header.bpp_range.1 pic.reconstructs pic.lines_length
    pic.height_pos hdata
  have hlength := pic.length_lines
  by_cases hlast : pic.linesLength ≤ delivered.length
  · rw [if_pos hlast]
    obtain ⟨extra, rfl⟩ : pic.lines.flatMap Scanline.bytes <+: delivered :=
      List.prefix_of_prefix_length_le (List.prefix_append _ _) hle (by omega)
    cases he.unique (hfull extra)
    exact ⟨.inl rfl, rfl, fun _ => ⟨rfl, rfl⟩⟩
  · rw [if_neg hlast]
    obtain ⟨more, hmore⟩ : delivered <+: pic.lines.flatMap Scanline.bytes :=
      List.prefix_of_prefix_length_le hle (List.prefix_append _ _) (by omega)
    have hne : more ≠ [] := by
      rintro rfl
      rw [List.append_nil] at hmore
      rw [hmore] at hlast
      omega
    have hall := hfull []
    rw [List.append_nil, ← hmore] at hall
    obtain ⟨r, hr⟩ := reading_before_end Filter.coherent.lawful (filter_waiting pic fresh) he hall
      (fun _ _ h => by cases h) hne
    have hkeep := he.keeps Filter.coherent.lawful (filter_waiting pic fresh)
    exact ⟨.inr ⟨r, hr⟩, (hkeep r hr).2, fun h => absurd h hlast⟩

/-- A write keeps the invariant. -/
theorem write_inv (hinv : d.Inv pic fresh checkCRC) {data : Bytes}
    (hproper : pic.Proper d (.write data)) (hstep : d.step fresh (.write data) = some d') :
    d'.Inv pic fresh checkCRC := by
  obtain ⟨hdata, hmore⟩ := hproper
  obtain ⟨h, unread, hends, hshows⟩ := hinv.parser
  obtain ⟨crc, hfile, -⟩ := pic.file_reads fresh checkCRC
  have hlaw := (Parser.coherent fresh).lawful
  have hwaiting := parser_waiting checkCRC
  have hsoon : ∀ m l, (⟨pic.header.finished fresh checkCRC pic.seen pic.compressed crc, .soon⟩ :
      Held Parser Step).status ≠ .thrown m l := fun _ _ h => by cases h
  -- the file is not all written yet, so the parser waits
  obtain ⟨rest, hrest⟩ := hmore
  have hall := hfile
  rw [← hrest, List.append_assoc] at hall
  obtain ⟨r, hr⟩ := reading_before_end hlaw hwaiting hends hall hsoon (by simp [hdata])
  have hbuffered : d.parser.buffered = unread.length := by
    unfold Shows at hshows
    rw [hr] at hshows
    obtain ⟨_, -, -, hs⟩ := hshows
    rw [hs]
  obtain ⟨h', unread', hrun, hresult, hnone⟩ := write_spec hlaw (fuelFor d.parser.buffered data)
    (hends.keeps hlaw hwaiting) hshows (writable_of_reading hr hshows) hdata
    (by rw [fuelFor, hbuffered]; omega)
  have hends' : Ends (Parser.subclass fresh).reader
      (⟨.create checkCRC, .reading Parser.firstRead⟩, d.written ++ data) (h', unread') := by
    have hafter := run_ends hlaw hrun (hends.keeps hlaw hwaiting) hnone
    have := hends.run.ends hlaw hwaiting hafter
    simpa using this
  -- no callback throws in a file
  have hnothrow : ∀ m l, h'.status ≠ .thrown m l := by
    intro m l hthrown
    rw [← List.append_assoc] at hall
    by_cases hlast : rest = []
    · subst hlast
      rw [List.append_nil] at hall
      cases hends'.unique hall
      cases hthrown
    · obtain ⟨r', hr'⟩ := reading_before_end hlaw hwaiting hends' hall hsoon hlast
      rw [hr'] at hthrown
      cases hthrown
  have hthrown := hinv.thrown
  unfold Decoder.step at hstep
  rw [hthrown, if_neg (by decide)] at hstep
  dsimp only at hstep
  generalize d.parser.write (Parser.subclass fresh) (fuelFor d.parser.buffered data) data = out
    at hresult hstep
  cases out with
  | error e =>
    cases e with
    | outOfFuel => exact hresult.elim
    | thrown message =>
      obtain ⟨left, hleft⟩ := hresult
      exact absurd hleft (hnothrow _ _)
  | ok parser =>
    cases hstep
    exact
      { thrown := rfl
        written := ⟨rest, hrest⟩
        parser := ⟨h', unread', hends', hresult⟩
        delivered := hinv.delivered
        filter := hinv.filter
        parsed := hinv.parsed }

/-- When the file is written, the parser is closed, and has emitted what the chunks say. -/
theorem written_all (hinv : d.Inv pic fresh checkCRC) (hall : d.written = pic.file) :
    ∃ crc, d.parser = ⟨pic.header.finished fresh checkCRC pic.seen pic.compressed crc,
      none, 0, none,
      false, false, [.close]⟩ := by
  obtain ⟨h, unread, hends, hshows⟩ := hinv.parser
  obtain ⟨crc, hfile, -⟩ := pic.file_reads fresh checkCRC
  rw [hall] at hends
  cases hends.unique hfile
  rcases hshows with ⟨-, hclosed⟩ | ⟨hne, -⟩
  · exact ⟨crc, hclosed⟩
  · exact absurd rfl hne

/-- The end of the writing changes nothing. -/
theorem endParse_inv (hinv : d.Inv pic fresh checkCRC) (hproper : pic.Proper d .endParse)
    (hstep : d.step fresh .endParse = some d') : d'.Inv pic fresh checkCRC := by
  obtain ⟨crc, hclosed⟩ := written_all hinv hproper
  have hthrown := hinv.thrown
  suffices hsame : d' = d by
    rw [hsame]
    exact hinv
  obtain ⟨parser, filter, written, delivered, parsed, thrown⟩ := d
  dsimp only at hclosed hthrown
  subst hclosed hthrown
  cases hstep
  rfl

/-- **The parser emits the pixels** when the filter has the last line. -/
theorem completed_eq {before after : ChunkStream Filter Unit} {data : Bytes}
    (hparsed : d.parsed = if pic.linesLength ≤ d.delivered.length then [pic.pixels] else [])
    (hbefore : before.owner.complete = if pic.linesLength ≤ d.delivered.length then
      [rgba pic.header.width pic.header.height pic.header.bpp pic.row] else [])
    (hafter : after.owner.complete = if pic.linesLength ≤ (d.delivered ++ data).length then
      [rgba pic.header.width pic.header.height pic.header.bpp pic.row] else [])
    (hsize : pic.linesLength ≤ (d.delivered ++ data).length →
      after.owner.width = pic.header.width ∧ after.owner.height = pic.header.height)
    (hcolor : d.parser.owner.colorType = pic.header.colorType)
    (hpalette : d.parser.owner.palette = pic.seen.palette) :
    d.completed before after data =
      { d with
        filter := some after
        delivered := d.delivered ++ data
        parsed := if pic.linesLength ≤ (d.delivered ++ data).length then
          [pic.pixels] else [] } := by
  have hmore : d.delivered.length ≤ (d.delivered ++ data).length := by simp
  rw [Decoder.completed, hbefore, hafter]
  by_cases hlast : pic.linesLength ≤ (d.delivered ++ data).length
  · by_cases hearlier : pic.linesLength ≤ d.delivered.length
    · rw [if_pos hearlier] at hparsed
      simp only [if_pos hlast, if_pos hearlier, ← hparsed]
      rfl
    · obtain ⟨hwidth, hheight⟩ := hsize hlast
      rw [if_neg hearlier] at hparsed
      simp only [if_pos hlast, if_neg hearlier, hparsed, hwidth, hheight, hcolor, hpalette,
        List.length_nil, List.drop_zero, reverseFiltered_eq pic.header.bpp_range.2 pic.colors]
      rfl
  · have hearlier : ¬ pic.linesLength ≤ d.delivered.length := by omega
    rw [if_neg hearlier] at hparsed
    simp only [if_neg hlast, if_neg hearlier, hparsed]
    rfl

/-- What the inflate stream emits keeps the invariant. -/
theorem inflated_inv (hfresh : ∀ n, (fresh n).length = n) (hinv : d.Inv pic fresh checkCRC)
    {data : Bytes} (hproper : pic.Proper d (.inflated data))
    (hstep : d.step fresh (.inflated data) = some d') : d'.Inv pic fresh checkCRC := by
  obtain ⟨hdata, inflate, hinflate, hmay⟩ := hproper
  have hthrown := hinv.thrown
  obtain ⟨hp, unreadp, hendsp, hshowsp⟩ := hinv.parser
  obtain ⟨h, unread, hends, hshows⟩ := hinv.filter
  -- the parser's fields are those of the file
  have howner : d.parser.owner = hp.owner := hshowsp.owner_eq
  obtain ⟨crc, -, hkeeps⟩ := pic.file_reads fresh checkCRC
  obtain ⟨rest, hrest⟩ := hinv.written
  obtain ⟨hcolor, hpalette, hfilter, hinput⟩ :=
    hkeeps _ _ hrest _ hendsp inflate (howner ▸ hinflate)
  rw [← howner] at hcolor hpalette
  have hdelivered := pic.inflates _ _ hinput hmay
  -- the filter takes it
  have hlaw := Filter.coherent.lawful
  have hwaiting := filter_waiting pic fresh
  obtain ⟨hstatus, hcomplete, -⟩ := filter_state pic hfresh hinv.delivered hends
  have hopen : (d.filter.getD (filterStream (pic.header.filter fresh))).writable = true ∧
      (d.filter.getD (filterStream (pic.header.filter fresh))).buffered = unread.length := by
    have hcases := hshows
    unfold Shows at hcases
    rcases hstatus with hs | ⟨r, hs⟩
    · rw [hs] at hcases
      obtain ⟨_, _, -, -, hs⟩ := hcases
      rw [hs]
      exact ⟨rfl, rfl⟩
    · rw [hs] at hcases
      obtain ⟨_, -, -, hs⟩ := hcases
      rw [hs]
      exact ⟨rfl, rfl⟩
  obtain ⟨h', unread', hrun, hresult, hnone⟩ := write_spec hlaw
    (fuelFor (d.filter.getD (filterStream (pic.header.filter fresh))).buffered data)
    (hends.keeps hlaw hwaiting) hshows hopen.1 hdata (by rw [fuelFor, hopen.2]; omega)
  have hends' : Ends Filter.subclass.reader
      (⟨pic.header.filter fresh, .reading (pic.header.filter fresh).request⟩, d.delivered ++ data)
      (h', unread') := by
    have hafter := run_ends hlaw hrun (hends.keeps hlaw hwaiting) hnone
    have := hends.run.ends hlaw hwaiting hafter
    simpa using this
  obtain ⟨hstatus', hcomplete', hsize⟩ := filter_state pic hfresh hdelivered hends'
  unfold Decoder.step at hstep
  rw [hthrown, if_neg (by decide)] at hstep
  dsimp only at hstep
  rw [hinflate] at hstep
  dsimp only at hstep
  rw [hfilter] at hstep
  generalize (d.filter.getD (filterStream (pic.header.filter fresh))).write Filter.subclass _ data =
    out
    at hresult hstep
  cases out with
  | error e =>
    cases e with
    | outOfFuel => exact hresult.elim
    | thrown message =>
      obtain ⟨left, hleft⟩ := hresult
      rcases hstatus' with hs | ⟨r, hs⟩ <;> rw [hs] at hleft <;> cases hleft
  | ok after =>
    change Shows Filter.subclass h' unread' after at hresult
    dsimp only at hstep
    rw [Option.some.injEq] at hstep
    subst hstep
    -- the pixels are those of the file, and come with the last line
    have hcompleted := completed_eq hinv.parsed (hshows.owner_eq ▸ hcomplete)
      (hresult.owner_eq ▸ hcomplete') (hresult.owner_eq ▸ hsize) hcolor hpalette
    rw [hcompleted]
    exact
      { thrown := hthrown
        written := ⟨rest, hrest⟩
        parser := ⟨hp, unreadp, hendsp, hshowsp⟩
        delivered := hdelivered
        filter := ⟨h', unread', hends', hresult⟩
        parsed := rfl }

/-- **The invariant holds in every order of the steps.** -/
theorem decoder_inv (hfresh : ∀ n, (fresh n).length = n)
    (hreach : Reaches (Decoder.step fresh) pic.Proper (.start checkCRC) d) :
    d.Inv pic fresh checkCRC := by
  refine hreach.invariant (Decoder.Inv pic fresh checkCRC) ?_ ?_
  · have hlines : ¬ pic.linesLength ≤ 0 := by
      have := pic.height_pos
      simp only [Picture.linesLength, Nat.le_zero, Nat.mul_eq_zero, not_or]
      omega
    exact
      { thrown := rfl
        written := List.nil_prefix
        parser := ⟨_, [], .refl (next_nil _), [], by simp, rfl, rfl⟩
        delivered := List.nil_prefix
        filter := ⟨_, [], .refl (next_nil _), [], by simp, rfl, rfl⟩
        parsed := by simp [Decoder.start, hlines] }
  · intro d a d' hinv hproper hstep
    cases a with
    | write data => exact write_inv hinv hproper hstep
    | endParse => exact endParse_inv hinv hproper hstep
    | inflated data => exact inflated_inv hfresh hinv hproper hstep

/-- The parser emits no error on the way. -/
theorem no_error (hinv : d.Inv pic fresh checkCRC) (message : String) :
    .error message ∉ d.parser.emitted := by
  obtain ⟨h, unread, hends, hshows⟩ := hinv.parser
  by_cases hall : d.written = pic.file
  · obtain ⟨crc, hclosed⟩ := written_all hinv hall
    simp [hclosed]
  · obtain ⟨rest, hrest⟩ := hinv.written
    obtain ⟨crc, hfile, -⟩ := pic.file_reads fresh checkCRC
    rw [← hrest] at hfile
    obtain ⟨r, hr⟩ := reading_before_end (Parser.coherent fresh).lawful
      (parser_waiting checkCRC) hends
      hfile (fun _ _ h => by cases h) fun hnil => hall (by simpa [hnil] using hrest)
    unfold Shows at hshows
    rw [hr] at hshows
    obtain ⟨_, -, -, hs⟩ := hshows
    simp [hs]

/-- Whatever the surroundings may do next, the decoder does it. -/
theorem proper_step (hinv : d.Inv pic fresh checkCRC) {a : Action} (hproper : pic.Proper d a) :
    ∃ d', d.step fresh a = some d' := by
  unfold Decoder.step
  rw [hinv.thrown, if_neg (by decide)]
  cases a with
  | write data =>
    dsimp only
    split <;> exact ⟨_, rfl⟩
  | endParse =>
    dsimp only
    split <;> exact ⟨_, rfl⟩
  | inflated data =>
    obtain ⟨-, inflate, hinflate, -⟩ := hproper
    simp only [hinflate]
    split <;> exact ⟨_, rfl⟩

/-- **Every order decodes the image.**  However the file and the output of the inflate stream are
cut and mixed, nothing is thrown, no error is emitted, no step is refused, and the pixels of the
image are emitted once, when the last scan line is there.  When the file is written, the parser is
closed, has emitted the metadata and the gammas, and has ended the inflate stream, which was
given all the compressed data. -/
theorem decodes_in_every_order (hfresh : ∀ n, (fresh n).length = n)
    (hreach : Reaches (Decoder.step fresh) pic.Proper (.start checkCRC) d) :
    d.thrown = false ∧ (∀ message, .error message ∉ d.parser.emitted) ∧
      (∀ a, pic.Proper d a → ∃ d', d.step fresh a = some d') ∧
      (d.parsed = if pic.linesLength ≤ d.delivered.length then [pic.pixels] else []) ∧
      (d.written = pic.file → d.parser.emitted = [.close] ∧ d.parser.owner.notes = pic.notes ∧
        d.parser.owner.inflate = some ⟨pic.header.filter fresh, pic.compressed, true⟩) := by
  have hinv := decoder_inv hfresh hreach
  refine ⟨hinv.thrown, no_error hinv, fun a => proper_step hinv, hinv.parsed, fun hall => ?_⟩
  obtain ⟨crc, hclosed⟩ := written_all hinv hall
  rw [hclosed]
  exact ⟨rfl, rfl, rfl⟩

end Runs

/-! ## A palette image of two pixels -/

/-- Inflating a stream of one stored block: what is there of the block. -/
def storedBlock (input : Bytes) : Bytes :=
  (input.drop 7).take ((input.getD 3 0).toNat + 256 * (input.getD 4 0).toNat)

/-- Blocks that are stored as they are. -/
def StoredInflates (input output : Bytes) : Prop := output <+: storedBlock input

instance (input output : Bytes) : Decidable (StoredInflates input output) :=
  inferInstanceAs (Decidable (output <+: storedBlock input))

/-- The line of the image in a stored block, with its checksum. -/
def twoPixelsData : Bytes := [0x78, 1, 1, 3, 0, 0xfc, 0xff, 0, 0, 1, 0, 4, 0, 2]

theorem twoPixels_width : 2 < 2 ^ 32 := by omega

theorem twoPixels_height : 1 < 2 ^ 32 := by omega

theorem twoPixels_bpp : colorTypeToBppMap 3 = some 1 := rfl

theorem twoPixels_size : 2 * 1 * 4 ≤ kMaxLength := by simp [kMaxLength]

/-- Two pixels in one row. -/
def twoPixelsHeader : Header :=
  ⟨2, 1, 3, 1, twoPixels_width, twoPixels_height, twoPixels_bpp, twoPixels_size⟩

/-- A palette and the image data. -/
def twoPixelsItems : List Item :=
  [.palette [255, 0, 0, 0, 0, 255], .image (twoPixelsData.take 9), .gamma [0, 0, 0xb1, 0x8f],
    .image (twoPixelsData.drop 9)]

/-- What a parser has seen of them. -/
def twoPixelsSeen : Seen :=
  ⟨[⟨255, 0, 0, 255⟩, ⟨0, 0, 255, 255⟩], [45455], some twoPixelsData⟩

theorem twoPixels_valid : ∀ item ∈ twoPixelsItems, item.Valid := by
  simp [twoPixelsItems, Item.Valid, Item.data, twoPixelsData]

theorem twoPixels_seen : seeAll 3 twoPixelsItems = some twoPixelsSeen := by decide

theorem twoPixels_paletteFirst : PaletteFirst false twoPixelsItems := by
  simp [twoPixelsItems, PaletteFirst]

/-- The data inflates to one line. -/
theorem twoPixels_inflates {input output : Bytes} (hinput : input <+: twoPixelsData)
    (houtput : StoredInflates input output) : output <+: [0, 0, 1] := by
  have hall : ∀ n < 15, storedBlock (twoPixelsData.take n) <+: [0, 0, 1] := by decide
  have hshort : input.length < 15 := Nat.lt_succ_of_le hinput.length_le
  have := hall input.length hshort
  rw [← List.prefix_iff_eq_take.mp hinput] at this
  exact houtput.trans this

/-- The line is unfiltered as it is. -/
theorem twoPixels_reconstructs : Reconstructs 1 2 [⟨0, [0, 1]⟩] fun _ x => [0, 1].getD x 0 := by
  intro y l hl
  obtain ⟨rfl, rfl⟩ : y = 0 ∧ l = ⟨0, [0, 1]⟩ := by
    cases y with
    | zero => exact ⟨rfl, by simpa using hl.symm⟩
    | succ y => simp at hl
  exact ⟨rfl, _, rfl, by decide⟩

theorem twoPixels_colors : ∀ x < 2, ([0, 1].getD x (0 : UInt8)).toNat < 2 := by decide

/-- The picture of two pixels. -/
def twoPixels : Picture StoredInflates where
  header := twoPixelsHeader
  items := twoPixelsItems
  seen := twoPixelsSeen
  compressed := twoPixelsData
  lines := [⟨0, [0, 1]⟩]
  extra := []
  row := fun _ x => [0, 1].getD x 0
  valid := twoPixels_valid
  seen_eq := twoPixels_seen
  compressed_eq := rfl
  paletteFirst := twoPixels_paletteFirst
  inflates := fun _ _ => twoPixels_inflates
  height_pos := Nat.one_pos
  lines_length := rfl
  reconstructs := twoPixels_reconstructs
  colors := fun _ _ _ => twoPixels_colors

/-- The block is emitted in two parts, and the file comes to its end between them. -/
def twoPixelsSteps : List Action :=
  [.write (twoPixels.file.take 70), .inflated [0], .write (twoPixels.file.drop 70),
    .inflated [0, 1], .endParse]

example : twoPixels.pixels = [255, 0, 0, 255, 0, 0, 255, 255] := by decide

/-- Buffers that begin with zeros. -/
def zeros (n : Nat) : Bytes := List.replicate n 0

set_option maxRecDepth 2000 in
/-- The file is decoded to its two colours. -/
theorem twoPixels_decodes : ∃ d,
    Transition.run (Decoder.step zeros) (.start true) twoPixelsSteps = some d ∧
    d.parsed = [[255, 0, 0, 255, 0, 0, 255, 255]] := by
  have hlength : (Transition.run (Decoder.step zeros) (.start true) twoPixelsSteps).map
      (fun d => d.delivered.length) = some 3 := by decide +kernel
  have hmeets : Meets (Decoder.step zeros) twoPixels.Proper (.start true) twoPixelsSteps := by
    decide +kernel
  obtain ⟨d, hd, hdelivered⟩ := Option.map_eq_some_iff.mp hlength
  have hreach : Reaches (Decoder.step zeros) twoPixels.Proper (.start true) d :=
    reaches_of_run twoPixelsSteps hd hmeets
  obtain ⟨-, -, -, hparsed, -⟩ := decodes_in_every_order (fun n => List.length_replicate) hreach
  refine ⟨d, hd, ?_⟩
  rw [hparsed, hdelivered]
  decide

end Png

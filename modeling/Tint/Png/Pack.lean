import Tint.Png.Decoder

/-!
# From pixels to a file and back

`Packer` of the build tool: the pixels are filtered into scan lines, a deflate stream
compresses these, and each piece it emits becomes a chunk.  The two zlib streams are not
part of the program; what is relied on is that the inflate stream, given a beginning of
what the deflate stream emitted for some data, emits a beginning of the data.

* `packed` -- what is packed is a file that means the pixels;
* `pack_decodes` -- so the decoder makes the same pixels of it again, for every size, every
  choice of filters, every cut of the file, and every order of its steps.
-/

namespace Png

open Transition

namespace Packer

/-- `_packChunk` -/
def packChunk (type : Nat) (data : Bytes) : Bytes :=
  let checked := writeUInt32BE type ++ data
  writeUInt32BE data.length ++ (checked ++ writeUInt32BE (crc32 checked).toNat)

/-- `_packIHDR` -/
def packIHDR (width height : Nat) : Bytes :=
  packChunk TYPE_IHDR (writeUInt32BE width ++ (writeUInt32BE height ++ [8, 6, 0, 0, 0]))

/-- `_packIDAT` -/
def packIDAT (data : Bytes) : Bytes := packChunk TYPE_IDAT data

/-- `_packIEND` -/
def packIEND : Bytes := packChunk TYPE_IEND []

/-- `pack`: the data that is emitted, where `deflate` gives the pieces that the deflate stream
emits for its input. -/
def pack (fresh : Nat → Bytes) (deflate : Bytes → List Bytes) (filterType : FilterType)
    (data : Bytes)
    (width height : Nat) : Outcome (List Bytes) :=
  if 2 ^ 32 ≤ width ∨ 2 ^ 32 ≤ height then .error (.thrown "value is out of bounds")
  else if kMaxLength < (width * 4 + 1) * height then .error (.thrown "Invalid array buffer length")
  else do
    let rawData ← filter width height data (filterTypes filterType) fresh
    return PNG_SIGNATURE :: packIHDR width height :: ((deflate rawData).map packIDAT ++ [packIEND])

end Packer

/-! ## What is packed means the pixels -/

/-- A chunk of the packer is a chunk. -/
theorem packChunk_eq (type : Nat) (data : Bytes) : Packer.packChunk type data =
    chunkBytes type data := by
  simp [Packer.packChunk, chunkBytes, chunkWith, chunkCrc]

/-- The pieces in chunks say their concatenation. -/
theorem see_images (colorType : Nat) (hcolor : colorType ≠ 3) (pieces : List Bytes) (s : Seen) :
    (pieces.map Item.image).foldlM (Seen.see colorType) s =
      some (if pieces = [] then s
        else { s with compressed := some (s.compressed.getD [] ++ pieces.flatten) }) := by
  induction pieces generalizing s with
  | nil => rfl
  | cons piece pieces ih =>
    have hsee : s.see colorType (.image piece) =
        some { s with compressed := some (s.compressed.getD [] ++ piece) } := by
      rw [Seen.see, if_neg fun h => hcolor h.1]
    rw [List.map_cons, List.foldlM_cons, hsee, Option.bind_eq_bind, Option.bind_some, ih,
      if_neg (List.cons_ne_nil _ _)]
    by_cases hlast : pieces = []
    · simp [hlast]
    · simp [hlast]

/-- Chunks of data alone have no palette in a wrong place. -/
theorem paletteFirst_images (pieces : List Bytes) (begun : Bool) :
    PaletteFirst begun (pieces.map Item.image) := by
  induction pieces generalizing begun with
  | nil => trivial
  | cons piece pieces ih => exact ih true

section RoundTrip

variable {Inflates : Bytes → Bytes → Prop} {deflate : Bytes → List Bytes} {fresh : Nat → Bytes}
  {filterType : FilterType} {data : Bytes} {width height : Nat} {chunks : List Bytes}

/-- The header of a picture of four bytes for a pixel. -/
def rgbaHeader (width height : Nat) (hwidth : width < 2 ^ 32) (hheight : height < 2 ^ 32)
    (hsize : width * height * 4 ≤ kMaxLength) : Header :=
  ⟨width, height, 6, 4, hwidth, hheight, rfl, hsize⟩

/-- The chunks of a packed picture are those of a file. -/
theorem chunks_eq_file (hwidth : width < 2 ^ 32) (hheight : height < 2 ^ 32)
    (hsize : width * height * 4 ≤ kMaxLength) (pieces : List Bytes) :
    (PNG_SIGNATURE :: Packer.packIHDR width height ::
        (pieces.map Packer.packIDAT ++ [Packer.packIEND])).flatten =
      fileBytes (rgbaHeader width height hwidth hheight hsize) (pieces.map Item.image) := by
  have hpieces : (pieces.map Packer.packIDAT).flatten =
    (pieces.map Item.image).flatMap Item.bytes := by
    induction pieces with
    | nil => rfl
    | cons piece pieces ih =>
      rw [List.map_cons, List.flatten_cons, ih, List.map_cons, List.flatMap_cons, Packer.packIDAT,
        packChunk_eq]
      rfl
  rw [fileBytes, List.flatten_cons, List.flatten_cons, List.flatten_append, hpieces,
    Packer.packIHDR,
    packChunk_eq, Packer.packIEND, packChunk_eq, List.flatten_singleton]
  rfl

/-- **What is packed is a file that means the pixels.** -/
theorem packed (hfresh : ∀ n, (fresh n).length = n)
    (hdeflate : ∀ raw, deflate raw ≠ [] ∧ ∀ piece ∈ deflate raw, piece.length < 2 ^ 32)
    (hinflate : ∀ raw input output, input <+: (deflate raw).flatten → Inflates input output →
      output <+: raw)
    (hknown : ∀ type ∈ filterTypes filterType, Known type)
    (hlen : data.length = height * (width * 4)) (hheight : 0 < height)
    (hpack : Packer.pack fresh deflate filterType data width height = .ok chunks) :
    ∃ pic : Picture Inflates, pic.file = chunks.flatten ∧ pic.pixels = data ∧
      pic.linesLength = (width * 4 + 1) * height := by
  obtain ⟨lines, hfilter, hlines, hrec, -⟩ :=
    filter_spec width height data hknown fresh hfresh
  unfold Packer.pack at hpack
  split_ifs at hpack with hrange hsize
  rw [not_or, Nat.not_le, Nat.not_le] at hrange
  rw [hfilter] at hpack
  cases hpack
  obtain ⟨hsome, hpieces⟩ := hdeflate (lines.flatMap Scanline.bytes)
  generalize hemitted : deflate (lines.flatMap Scanline.bytes) = pieces at hsome hpieces ⊢
  have hdata : width * height * 4 ≤ kMaxLength := by
    have : width * height * 4 ≤ (width * 4 + 1) * height := by
      rw [Nat.add_mul, Nat.mul_right_comm]
      omega
    omega
  have hseen : seeAll 6 (pieces.map Item.image) = some ⟨[], [], some pieces.flatten⟩ := by
    rw [seeAll, see_images 6 (by decide), if_neg hsome]
    rfl
  have hinflates : ∀ input output, input <+: pieces.flatten → Inflates input output →
      output <+: lines.flatMap Scanline.bytes ++ [] := by
    intro input output hinput houtput
    rw [List.append_nil]
    exact hinflate _ _ _ (hemitted ▸ hinput) houtput
  have hpixels : image width height 4 6 [] (rowOf width data) = data :=
    (image_of_colors (by decide)).trans (rgba_rowOf hlen)
  let pic : Picture Inflates :=
    { header := rgbaHeader width height hrange.1 hrange.2 hdata
      items := pieces.map Item.image
      seen := ⟨[], [], some pieces.flatten⟩
      compressed := pieces.flatten
      lines := lines
      extra := []
      row := rowOf width data
      valid := by
        intro item hitem
        obtain ⟨piece, hpiece, rfl⟩ := List.mem_map.mp hitem
        exact ⟨hpieces piece hpiece, trivial⟩
      seen_eq := hseen
      compressed_eq := rfl
      paletteFirst := paletteFirst_images _ _
      inflates := hinflates
      height_pos := hheight
      lines_length := hlines
      reconstructs := hrec
      colors := fun h => nomatch (show (6 : Nat) = 3 from h) }
  exact ⟨pic, (chunks_eq_file hrange.1 hrange.2 hdata pieces).symm, hpixels, Nat.mul_comm _ _⟩

/-- **What is packed is decoded to the same pixels**, in every order of the steps: nothing is
thrown, no error is emitted, and the pixels are emitted once, when all the lines have come. -/
theorem pack_decodes (hfresh : ∀ n, (fresh n).length = n)
    (hdeflate : ∀ raw, deflate raw ≠ [] ∧ ∀ piece ∈ deflate raw, piece.length < 2 ^ 32)
    (hinflate : ∀ raw input output, input <+: (deflate raw).flatten → Inflates input output →
      output <+: raw)
    (hknown : ∀ type ∈ filterTypes filterType, Known type)
    (hlen : data.length = height * (width * 4)) (hheight : 0 < height)
    (hpack : Packer.pack fresh deflate filterType data width height = .ok chunks)
    {checkCRC : Bool} {d : Decoder}
    (hreach : Reaches (Decoder.step fresh) (Decoder.Proper Inflates chunks.flatten)
    (.start checkCRC) d) :
    d.thrown = false ∧ (∀ message, .error message ∉ d.parser.emitted) ∧
      (d.parsed = if (width * 4 + 1) * height ≤ d.delivered.length then [data] else []) ∧
      (d.written = chunks.flatten → d.parser.emitted = [.close]) := by
  obtain ⟨pic, hfile, hpixels, hlength⟩ :=
    packed hfresh hdeflate hinflate hknown hlen hheight hpack
  rw [← hfile] at hreach ⊢
  obtain ⟨hthrown, herror, -, hparsed, hclosed⟩ := decodes_in_every_order hfresh hreach
  rw [hpixels, hlength] at hparsed
  exact ⟨hthrown, herror, hparsed, fun hall => (hclosed hall).1⟩

end RoundTrip

/-! ## A picture of two pixels -/

/-- The checksum of a zlib stream. -/
def adler32 (data : Bytes) : Nat :=
  let (a, b) := data.foldl (fun (a, b) byte => ((a + byte.toNat) % 65521,
    (b + a + byte.toNat) % 65521)) (1, 0)
  b * 65536 + a

/-- Deflating into one stored block; what does not fit is not deflated. -/
def storedDeflate (data : Bytes) : List Bytes :=
  if data.length < 65536 then
    [[0x78, 1, 1, UInt8.ofNat (data.length % 256), UInt8.ofNat (data.length / 256),
      ~~~UInt8.ofNat (data.length % 256), ~~~UInt8.ofNat (data.length / 256)],
      data, writeUInt32BE (adler32 data)]
  else [[0x78]]

/-- What is there of a stored block is a beginning of its data. -/
theorem stored_inverse (data input output : Bytes) (hinput : input <+: (storedDeflate data).flatten)
    (houtput : StoredInflates input output) : output <+: data := by
  refine houtput.trans ?_
  unfold storedDeflate at hinput
  split at hinput
  · next hlen =>
    by_cases hshort : input.length ≤ 7
    · simp [storedBlock, List.drop_eq_nil_of_le hshort]
    · simp only [List.flatten_cons, List.flatten_nil, List.append_nil, List.cons_append,
        List.nil_append] at hinput
      obtain ⟨rest, rfl⟩ : ∃ rest, input = 0x78 :: 1 :: 1 :: UInt8.ofNat (data.length % 256) ::
          UInt8.ofNat (data.length / 256) :: (~~~UInt8.ofNat (data.length % 256)) ::
          (~~~UInt8.ofNat (data.length / 256)) :: rest := by
        obtain ⟨more, hmore⟩ := hinput
        match input, hshort with
        | a :: b :: c :: d :: e :: f :: g :: rest, _ =>
          simp only [List.cons_append, List.cons.injEq] at hmore
          obtain ⟨rfl, rfl, rfl, rfl, rfl, rfl, rfl, -⟩ := hmore
          exact ⟨rest, rfl⟩
        | [], h | [_], h | [_, _], h | [_, _, _], h | [_, _, _, _], h | [_, _, _, _, _], h
        | [_, _, _, _, _, _], h => simp at h
      simp only [List.cons_prefix_cons, true_and] at hinput
      have hlo : (UInt8.ofNat (data.length % 256)).toNat = data.length % 256 := by
        rw [UInt8.toNat_ofNat']
        omega
      have hhi : (UInt8.ofNat (data.length / 256)).toNat = data.length / 256 := by
        rw [UInt8.toNat_ofNat']
        omega
      have hblock : data.length % 256 + 256 * (data.length / 256) = data.length :=
        Nat.mod_add_div _ _
      simp only [storedBlock, List.drop_succ_cons, List.drop_zero, List.getD_cons_succ,
        List.getD_cons_zero, hlo, hhi, hblock]
      have htake := List.IsPrefix.take hinput data.length
      rwa [List.take_left] at htake
  · have : input.length ≤ 1 := by simpa using hinput.length_le
    simp [storedBlock, List.drop_eq_nil_of_le (show input.length ≤ 7 by omega)]

theorem stored_pieces (data : Bytes) :
    storedDeflate data ≠ [] ∧ ∀ piece ∈ storedDeflate data, piece.length < 2 ^ 32 := by
  unfold storedDeflate
  split
  · refine ⟨by simp, fun piece hpiece => ?_⟩
    simp only [List.mem_cons, List.not_mem_nil, or_false] at hpiece
    rcases hpiece with rfl | rfl | rfl
    · simp
    · omega
    · simp
  · simp

/-- What the packer emits for two pixels, one above the other. -/
def twoRows : List Bytes :=
  match Packer.pack zeros storedDeflate .missing [1, 2, 3, 4, 5, 6, 7, 9] 1 2 with
  | .ok chunks => chunks
  | .error _ => []

/-- It is written in two parts, and the inflate stream emits the lines in two. -/
def twoRowsSteps : List Action :=
  [.write (twoRows.flatten.take 30), .write (twoRows.flatten.drop 30), .inflated [0, 1, 2],
    .inflated [3, 4, 2, 4, 4, 4, 5]]

set_option maxRecDepth 2000 in
theorem twoRows_decodes :
    ∃ d, Transition.run (Decoder.step zeros) (.start true) twoRowsSteps = some d ∧
      d.parsed = [[1, 2, 3, 4, 5, 6, 7, 9]] := by
  have hlength : (Transition.run (Decoder.step zeros) (.start true) twoRowsSteps).map
      (fun d => d.delivered.length) = some 10 := by decide +kernel
  have hmeets : Meets (Decoder.step zeros)
    (Decoder.Proper StoredInflates twoRows.flatten) (.start true)
      twoRowsSteps := by decide +kernel
  obtain ⟨d, hd, hdelivered⟩ := Option.map_eq_some_iff.mp hlength
  have hreach : Reaches (Decoder.step zeros) (Decoder.Proper StoredInflates twoRows.flatten)
      (.start true) d := reaches_of_run twoRowsSteps hd hmeets
  have hpack : Packer.pack zeros storedDeflate .missing [1, 2, 3, 4, 5, 6, 7, 9] 1 2 =
    .ok twoRows := by
    decide +kernel
  obtain ⟨-, -, hparsed, -⟩ := pack_decodes (fun n => List.length_replicate) stored_pieces
    stored_inverse (by decide) rfl (by decide) hpack hreach
  refine ⟨d, hd, ?_⟩
  rw [hparsed, hdelivered]
  rfl

end Png

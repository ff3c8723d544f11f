import Tint.Png.Parser

/-!
# PNG files and what the parser makes of them

A PNG file is the signature, a header, chunks, and an end.  What the chunks say is said
here once more without the parser: a palette, gammas, and compressed data; a chunk that
is not known says nothing.

* `Seen.see` -- what a chunk says, if it may stand where it stands;
* `file_reads` -- the parser reads every file: it ends with what the chunks say, the
  compressed data of all `IDAT` chunks has gone to one inflate stream, and on the way it
  has seen what the chunks so far say;
* `damaged_reads` -- it stops with an error at a known chunk that was damaged inside 32
  successive bits of its data, and reads nothing after it.
-/

namespace Png

open ChunkedReader ByteMemory

/-- The header of an image that the parser can hold. -/
structure Header where
  width : Nat
  height : Nat
  colorType : Nat
  bpp : Nat
  width_lt : width < 2 ^ 32
  height_lt : height < 2 ^ 32
  bpp_eq : colorTypeToBppMap colorType = some bpp
  size_le : width * height * 4 ≤ kMaxLength

/-- The bytes of a header. -/
def Header.data (hd : Header) : Bytes :=
  writeUInt32BE hd.width ++ (writeUInt32BE hd.height ++ [8, UInt8.ofNat hd.colorType, 0, 0, 0])

/-- A chunk between the header and the end. -/
inductive Item
  | skipped (type : Nat) (data : Bytes) (crc : BitVec 32)
  | gamma (data : Bytes)
  | palette (data : Bytes)
  | transparency (data : Bytes)
  | image (data : Bytes)
  deriving DecidableEq, Repr

/-- The type of a chunk. -/
def Item.type : Item → Nat
  | skipped type _ _ => type
  | gamma _ => TYPE_gAMA
  | palette _ => TYPE_PLTE
  | transparency _ => TYPE_tRNS
  | image _ => TYPE_IDAT

/-- The bytes in a chunk. -/
def Item.data : Item → Bytes
  | skipped _ data _ | gamma data | palette data | transparency data | image data => data

/-- The checksum of a chunk; one that is skipped may have any. -/
def Item.crc : Item → BitVec 32
  | skipped _ _ crc => crc
  | item => chunkCrc item.type item.data

/-- A chunk in the file. -/
def Item.bytes (item : Item) : Bytes := chunkWith item.type item.data item.crc

/-- The chunk fits its length, and one that is skipped says that it may be. -/
def Item.Valid (item : Item) : Prop :=
  item.data.length < 2 ^ 32 ∧
    match item with
    | skipped type _ _ => type ∉ Parser.knownTypes ∧ type < 2 ^ 32 ∧ type.testBit 29 = true
    | _ => True

/-- What chunks have said. -/
structure Seen where
  palette : List Color
  gammas : List Nat
  compressed : Option Bytes
  deriving DecidableEq

/-- What a chunk says in an image of some color type, if it may stand there.  Without a palette a
`tRNS` chunk names the one color that is transparent; the parser has no use for it. -/
def Seen.see (colorType : Nat) (s : Seen) : Item → Option Seen
  | .skipped _ _ _ => some s
  | .gamma data => (readUInt32BE data 0).map fun value => { s with gammas := s.gammas ++ [value] }
  | .palette data => some { s with palette := s.palette ++ Parser.entries data }
  | .transparency data =>
    if colorType = 3 then
      if s.palette.length = 0 ∨ s.palette.length < data.length then none
      else some { s with palette := Parser.setAlpha s.palette data }
    else some s
  | .image data =>
    if colorType = 3 ∧ s.palette.length = 0 then none
    else some { s with compressed := some (s.compressed.getD [] ++ data) }

/-- What all chunks say. -/
def seeAll (colorType : Nat) (items : List Item) : Option Seen :=
  items.foldlM (Seen.see colorType) ⟨[], [], none⟩

/-- A file. -/
def fileBytes (hd : Header) (items : List Item) : Bytes :=
  PNG_SIGNATURE ++ (chunkBytes TYPE_IHDR hd.data ++
    (items.flatMap Item.bytes ++ chunkBytes TYPE_IEND []))

/-! ## What the parser is at each chunk -/

/-- The filter the parser makes at the header. -/
def Header.filter (hd : Header) (fresh : Nat → Bytes) : Filter :=
  .create hd.width hd.height hd.bpp (fresh (hd.width * hd.height * 4))

/-- What the parser tells of the header. -/
def Header.metadata (hd : Header) : Note :=
  .metadata hd.width hd.height (hd.colorType &&& 1 ≠ 0) (hd.colorType &&& 2 ≠ 0)
    (hd.colorType &&& 4 ≠ 0)

/-- The parser that has read the header and what the chunks so far say. -/
def Header.parser (hd : Header) (fresh : Nat → Bytes) (checkCRC : Bool) (s : Seen)
    (crc : BitVec 32) : Parser :=
  ⟨checkCRC, true, false, s.compressed.map fun z => ⟨hd.filter fresh, z, false⟩,
    some (hd.filter fresh), crc, s.palette, hd.colorType, hd.metadata :: s.gammas.map .gamma⟩

/-- The parser that has read the end. -/
def Header.finished (hd : Header) (fresh : Nat → Bytes) (checkCRC : Bool) (s : Seen) (z : Bytes)
    (crc : BitVec 32) : Parser :=
  { hd.parser fresh checkCRC s crc with
    inflate := some ⟨hd.filter fresh, z, true⟩, hasIEND := true }

variable {hd : Header} {fresh : Nat → Bytes} {checkCRC : Bool} {s s' : Seen} {crc : BitVec 32}
  {item : Item} {items : List Item} {rest : Bytes} {c : Config UInt8 (Held Parser Step)}
  {G : Parser → Prop} {Okay : Seen → Prop}

/-- The checksum a callback leaves. -/
theorem crcWrite_begun (type : Nat) (data : Bytes) :
    crcWrite (crcWrite crcInit (writeUInt32BE type)) data =
      crcWrite crcInit (writeUInt32BE type ++ data) :=
  (crcWrite_append _ _ _).symm

theorem type_known (hknown : ∀ t d k, item ≠ .skipped t d k) : item.type ∈ Parser.knownTypes := by
  cases item with
  | skipped t d k => exact absurd rfl (hknown t d k)
  | _ => simp [Item.type, Parser.knownTypes]

/-- What the callback makes of the data of a known chunk is what the chunk says. -/
theorem call_item (fresh : Nat → Bytes) (checkCRC : Bool) (hsee : s.see hd.colorType item = some s')
    (hknown : ∀ t d k, item ≠ .skipped t d k) (crc : BitVec 32) :
    Parser.call fresh (Parser.stepOf item.type item.data.length) item.data
        ((hd.parser fresh checkCRC s crc).begun item.type) =
      (hd.parser fresh checkCRC s' (crcWrite crcInit (writeUInt32BE item.type ++ item.data)),
        Parser.handleChunkEnd) := by
  rw [← crcWrite_begun]
  cases item with
  | skipped t d k => exact absurd rfl (hknown t d k)
  | gamma data =>
    simp only [Seen.see, Option.map_eq_some_iff] at hsee
    obtain ⟨value, hread, rfl⟩ := hsee
    change Parser.parseGAMA _ data = _
    simp [Parser.parseGAMA, hread, Parser.begun, Parser.crcTake, Parser.note,
      Header.parser, Item.type,
      Item.data]
  | palette data =>
    cases hsee
    rfl
  | transparency data =>
    change Parser.parseTRNS _ data = _
    simp only [Seen.see] at hsee
    by_cases hcolor : hd.colorType = 3
    · rw [if_pos hcolor] at hsee
      split at hsee
      · cases hsee
      · next hfits =>
        cases hsee
        rw [not_or] at hfits
        simp only [Parser.parseTRNS, Parser.begun, Parser.crcTake, Header.parser, hcolor, if_true,
          hfits.1, hfits.2, if_false]
        rfl
    · rw [if_neg hcolor] at hsee
      cases hsee
      simp only [Parser.parseTRNS, Parser.begun, Parser.crcTake, Header.parser, hcolor, if_false]
      rfl
  | image data =>
    change Parser.parseIDAT data.length _ data = _
    simp only [Seen.see] at hsee
    split at hsee
    · cases hsee
    · next hpalette =>
      cases hsee
      have hpalette' : ¬ (((hd.parser fresh checkCRC s crc).begun
        (Item.image data).type).colorType = 3 ∧
          ((hd.parser fresh checkCRC s crc).begun (Item.image data).type).palette.length = 0) :=
            hpalette
      rw [Parser.parseIDAT, if_neg hpalette']
      obtain ⟨palette, gammas, compressed⟩ := s
      cases compressed <;> simp [Parser.inflateWrite, Parser.begun, Parser.crcTake, Header.parser,
        Item.type, Item.data]

/-- What was said is okay at each chunk, and at each part of an image's data. -/
def Follows (colorType : Nat) (Okay : Seen → Prop) : Seen → List Item → Prop
  | s, [] => Okay s
  | s, item :: items =>
    Okay s ∧
      (∀ data, item = .image data → ∀ b more, b ++ more = data →
        Okay { s with compressed := some (s.compressed.getD [] ++ b) }) ∧
      ∀ s', s.see colorType item = some s' → Follows colorType Okay s' items

theorem Follows.head {colorType : Nat} (h : Follows colorType Okay s items) : Okay s := by
  cases items with
  | nil => exact h
  | cons item items => exact h.1

/-- What the callback makes of a part of an image's data. -/
theorem call_part (fresh : Nat → Bytes) (checkCRC : Bool) (crc : BitVec 32) {data : Bytes}
    (hsee : s.see hd.colorType (.image data) = some s') (b : Bytes) (n left : Nat) :
    ∃ crc', ((Parser.subclass fresh).after left
        (Parser.call fresh (.parseIDAT n) b ((hd.parser fresh checkCRC s crc).begun TYPE_IDAT)).1
        (Parser.call fresh (.parseIDAT n) b
          ((hd.parser fresh checkCRC s crc).begun TYPE_IDAT)).2).owner =
      hd.parser fresh checkCRC { s with compressed := some (s.compressed.getD [] ++ b) } crc' := by
  simp only [Seen.see] at hsee
  split at hsee
  · cases hsee
  next hpalette =>
  have hpalette' : ¬ (((hd.parser fresh checkCRC s crc).begun TYPE_IDAT).colorType = 3 ∧
      ((hd.parser fresh checkCRC s crc).begun TYPE_IDAT).palette.length = 0) := hpalette
  change ∃ crc', ((Parser.subclass fresh).after left (Parser.parseIDAT n _ b).1
    (Parser.parseIDAT n _ b).2).owner = _
  rw [Parser.parseIDAT, if_neg hpalette']
  obtain ⟨palette, gammas, compressed⟩ := s
  cases compressed <;> by_cases hmore : b.length < n <;>
    simp [Parser.inflateWrite, Parser.begun, Parser.crcTake, Header.parser, hmore, Subclass.after,
      Parser.handleChunkEnd]

/-- **A chunk is read as it is meant.** -/
theorem item_reads (hG : ∀ s crc, Okay s → G (hd.parser fresh checkCRC s crc)) (hvalid : item.Valid)
    (hsee : s.see hd.colorType item = some s') (hs : Okay s) (hs' : Okay s')
    (hpart : ∀ data, item = .image data → ∀ b more, b ++ more = data →
      Okay { s with compressed := some (s.compressed.getD [] ++ b) }) (crc : BitVec 32) :
    ∃ crc', ∀ {rest c}, Reads (Parser.subclass fresh).reader (fun h => G h.owner)
        ((hd.parser fresh checkCRC s' crc').atChunk, rest) c →
      Reads (Parser.subclass fresh).reader (fun h => G h.owner)
        ((hd.parser fresh checkCRC s crc).atChunk, item.bytes ++ rest) c := by
  obtain ⟨hlen, hkind⟩ := hvalid
  by_cases hskip : ∃ t d k, item = .skipped t d k
  · obtain ⟨t, d, k, rfl⟩ := hskip
    obtain ⟨hunknown, htype, hancillary⟩ := hkind
    cases hsee
    exact ⟨_, fun hr => Parser.skipped_reads hunknown htype hancillary hlen rfl k (hG _ _ hs)
      (hG s _ hs) hr⟩
  · have hknown : ∀ t d k, item ≠ .skipped t d k := fun t d k h => hskip ⟨t, d, k, h⟩
    have hcrc : item.crc = chunkCrc item.type item.data := by
      cases item with
      | skipped t d k => exact absurd rfl (hknown t d k)
      | _ => rfl
    refine ⟨crcWrite crcInit (writeUInt32BE item.type ++ item.data), fun hr => ?_⟩
    have hcall := call_item fresh checkCRC hsee hknown crc
    rw [Item.bytes, hcrc]
    refine Parser.known_reads (type_known hknown) hlen (.inl rfl) hcall rfl _
      (hG _ _ hs) (hG s _ hs)
      (hG _ _ hs') ?_ ?_
    · intro htype b more hb left
      cases item with
      | image data =>
        obtain ⟨crc', hpartial⟩ :=
          call_part fresh checkCRC crc hsee b data.length left
        exact hpartial ▸ hG _ _ (hpart data rfl b more hb)
      | skipped t d k => exact absurd rfl (hknown t d k)
      | _ => simp [Item.type, TYPE_gAMA, TYPE_PLTE, TYPE_tRNS, TYPE_IDAT] at htype
    · rw [if_neg (by simp)]
      exact hr

/-- Chunks are read one after the other. -/
theorem items_reads (hG : ∀ s crc, Okay s → G (hd.parser fresh checkCRC s crc))
    (hvalid : ∀ item ∈ items, item.Valid)
    (hsee : items.foldlM (Seen.see hd.colorType) s = some s')
    (hfollows : Follows hd.colorType Okay s items) (crc : BitVec 32) :
    ∃ crc', ∀ {rest c}, Reads (Parser.subclass fresh).reader (fun h => G h.owner)
        ((hd.parser fresh checkCRC s' crc').atChunk, rest) c →
      Reads (Parser.subclass fresh).reader (fun h => G h.owner)
        ((hd.parser fresh checkCRC s crc).atChunk, items.flatMap Item.bytes ++ rest) c := by
  induction items generalizing s crc with
  | nil =>
    cases hsee
    exact ⟨crc, fun hr => hr⟩
  | cons item items ih =>
    rw [List.foldlM_cons, Option.bind_eq_bind, Option.bind_eq_some_iff] at hsee
    obtain ⟨s₁, hitem, hitems⟩ := hsee
    obtain ⟨hs, hpart, hnext⟩ := hfollows
    have hafter := hnext s₁ hitem
    obtain ⟨crc₁, hfirst⟩ := item_reads hG (hvalid item (by simp)) hitem hs hafter.head hpart crc
    obtain ⟨crc₂, hrest⟩ := ih (fun i hi => hvalid i (by simp [hi])) hitems hafter crc₁
    refine ⟨crc₂, fun hr => ?_⟩
    rw [List.flatMap_cons, List.append_assoc]
    exact hfirst (hrest hr)

/-- The color types are small. -/
theorem Header.colorType_le (hd : Header) : hd.colorType ≤ 6 := by
  have hbpp := hd.bpp_eq
  by_contra h
  unfold colorTypeToBppMap at hbpp
  split at hbpp <;> first | omega | cases hbpp

@[simp] theorem Header.length_data (hd : Header) : hd.data.length = 13 := by
  simp [data]

/-- What the parser makes of the header. -/
theorem parseIHDR_header (p : Parser) :
    p.parseIHDR fresh hd.data =
      ({ p.crcTake hd.data with
          colorType := hd.colorType
          filter := some (hd.filter fresh)
          hasIHDR := true
          notes := p.notes ++ [hd.metadata] }, Parser.handleChunkEnd) := by
  have hcolor := hd.colorType_le
  have hbyte : (UInt8.ofNat hd.colorType).toNat = hd.colorType := by
    rw [UInt8.toNat_ofNat']
    omega
  have hwidth : readUInt32BE hd.data 0 = some hd.width := readUInt32BE_write hd.width_lt _
  have hheight : readUInt32BE hd.data 4 = some hd.height := by
    have := readUInt32BE_write_after hd.height_lt (writeUInt32BE hd.width)
      [8, UInt8.ofNat hd.colorType, 0, 0, 0]
    rwa [length_writeUInt32BE] at this
  have hafter : ∀ i, hd.data[8 + i]? = [8, UInt8.ofNat hd.colorType, 0, 0, 0][i]? := by
    intro i
    rw [Header.data, List.getElem?_append_right (by simp; omega),
      List.getElem?_append_right (by simp; omega)]
    congr 1
    simp
    omega
  have hdepth : hd.data[8]? = some 8 := hafter 0
  have hcolorType : hd.data[9]? = some (UInt8.ofNat hd.colorType) := hafter 1
  have hcompr : hd.data[10]? = some 0 := hafter 2
  have hfilter : hd.data[11]? = some 0 := hafter 3
  have hinterlace : hd.data[12]? = some 0 := hafter 4
  simp only [Parser.parseIHDR, hwidth, hheight, hdepth, hcolorType, hcompr, hfilter, hinterlace,
    Option.bind_some, hbyte, hd.bpp_eq, Option.map_some, ne_eq, not_true_eq_false, if_false,
    Nat.not_lt.mpr hd.size_le]
  rfl

/-- **The beginning of a file**: the signature and the header. -/
theorem header_reads (hG : ∀ s crc, Okay s → G (hd.parser fresh checkCRC s crc))
    (hnew : ∀ p : Parser, p.inflate = none → G p) (hfirst : Okay ⟨[], [], none⟩) :
    ∃ crc, ∀ {rest c}, Reads (Parser.subclass fresh).reader (fun h => G h.owner)
        ((hd.parser fresh checkCRC ⟨[], [], none⟩ crc).atChunk, rest) c →
      Reads (Parser.subclass fresh).reader (fun h => G h.owner)
        (⟨.create checkCRC, .reading Parser.firstRead⟩,
          PNG_SIGNATURE ++ (chunkBytes TYPE_IHDR hd.data ++ rest)) c := by
  refine ⟨crcWrite crcInit (writeUInt32BE TYPE_IHDR ++ hd.data), fun hr => ?_⟩
  have hsignature : (Parser.subclass fresh).call .parseSignature PNG_SIGNATURE (.create checkCRC) =
      (.create checkCRC, .read 8 .parseChunkBegin) := rfl
  refine reads_reading hsignature rfl (by simp [PNG_SIGNATURE])
    (hnew _ rfl) (fun _ _ h => by cases h) ?_
  have hcall : Parser.call fresh (Parser.stepOf TYPE_IHDR hd.data.length) hd.data
      ((Parser.create checkCRC).begun TYPE_IHDR) =
      (hd.parser fresh checkCRC ⟨[], [], none⟩
        (crcWrite crcInit (writeUInt32BE TYPE_IHDR ++ hd.data)),
        Parser.handleChunkEnd) := by
    change Parser.parseIHDR fresh _ hd.data = _
    rw [parseIHDR_header, ← crcWrite_begun]
    rfl
  refine Parser.known_reads (by decide) (by simp) (.inr rfl) hcall rfl _ (hnew _ rfl) (hnew _ rfl)
    (hG _ _ hfirst) (fun h => absurd h (by decide)) ?_
  rw [if_neg (by simp)]
  exact hr

/-- **The parser reads every file.**  It ends with what the chunks say, has written the
compressed data to the inflate stream and ended it, and has left what comes after the end. -/
theorem file_reads (hG : ∀ s crc, Okay s → G (hd.parser fresh checkCRC s crc))
    (hnew : ∀ p : Parser, p.inflate = none → G p) (hvalid : ∀ item ∈ items, item.Valid)
    (hsee : seeAll hd.colorType items = some s)
    (hfollows : Follows hd.colorType Okay ⟨[], [], none⟩ items) {z : Bytes}
    (hz : s.compressed = some z) (hfinished : ∀ crc, G (hd.finished fresh checkCRC s z crc))
    (hlast : Okay s) (trailing : Bytes) :
    ∃ crc, Reads (Parser.subclass fresh).reader (fun h => G h.owner)
      (⟨.create checkCRC, .reading Parser.firstRead⟩, fileBytes hd items ++ trailing)
      (⟨hd.finished fresh checkCRC s z crc, .soon⟩, trailing) := by
  obtain ⟨crc₀, hheader⟩ := header_reads hG hnew hfollows.head
  obtain ⟨crc₁, hitems⟩ := items_reads hG hvalid hsee hfollows crc₀
  refine ⟨crcWrite crcInit (writeUInt32BE TYPE_IEND ++ []), ?_⟩
  have hassoc : fileBytes hd items ++ trailing = PNG_SIGNATURE ++ (chunkBytes TYPE_IHDR hd.data ++
      (items.flatMap Item.bytes ++ (chunkBytes TYPE_IEND [] ++ trailing))) := by
    simp [fileBytes]
  rw [hassoc]
  refine hheader (hitems ?_)
  have hcall : Parser.call fresh (Parser.stepOf TYPE_IEND ([] : Bytes).length) []
      ((hd.parser fresh checkCRC s crc₁).begun TYPE_IEND) =
      (hd.finished fresh checkCRC s z (crcWrite crcInit (writeUInt32BE TYPE_IEND ++ [])),
        Parser.handleChunkEnd) := by
    change Parser.parseIEND _ [] = _
    rw [← crcWrite_begun]
    simp [Parser.parseIEND, Parser.begun, Parser.crcTake, Header.parser, Header.finished, hz]
  refine Parser.known_reads (by decide) (by simp) (.inl rfl) hcall rfl _ (hG _ _ hlast)
    (hG s _ hlast) (hfinished _) (fun h => absurd h (by decide)) ?_
  have hend : (hd.finished fresh checkCRC s z
    (crcWrite crcInit (writeUInt32BE TYPE_IEND ++ []))).hasIEND =
      true := rfl
  rw [if_neg (by simp), Parser.afterChunk, if_pos hend]
  exact Reads.stopped (R := (Parser.subclass fresh).reader) (s := ⟨_, .soon⟩) rfl (hfinished _) _

end Png

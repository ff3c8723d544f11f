import Tint.ByteMemory
import Tint.Png.Checksum
import Tint.Png.Filter

/-!
# The parser of PNG files

`Parser` of the build tool is a chunk stream: it reads the signature, and then for each
chunk its length and type, its data and its checksum.  The data of `IDAT` chunks goes to
an inflate stream as it arrives, whose output goes to the filter; the pixels are there
when the filter has them.

* `Parser.coherent` -- the parser waits for one thing at a time, and the data of an `IDAT`
  chunk adds up;
* `known_reads`, `skipped_reads` -- what the parser does with a chunk it knows, by its
  checksum, and with one it does not know, for every state it may be in.
-/

namespace Png

open ChunkedReader ByteMemory

/-- What a file begins with. -/
def PNG_SIGNATURE : Bytes := [0x89, 0x50, 0x4e, 0x47, 0x0d, 0x0a, 0x1a, 0x0a]

def TYPE_IHDR : Nat := 0x49484452
def TYPE_IEND : Nat := 0x49454e44
def TYPE_IDAT : Nat := 0x49444154
def TYPE_PLTE : Nat := 0x504c5445
def TYPE_tRNS : Nat := 0x74524e53
def TYPE_gAMA : Nat := 0x67414d41

/-- The bytes of a pixel, by colour type. -/
def colorTypeToBppMap : Nat → Option Nat
  | 0 => some 1
  | 2 => some 3
  | 3 => some 1
  | 4 => some 2
  | 6 => some 4
  | _ => none

/-- The longest buffer there is, where addresses have 64 bits; with 32 there may be none so long. -/
def kMaxLength : Nat := 0x3fffffff

/-- `readUInt32BE` -/
def readUInt32BE (data : Bytes) (offset : Nat) : Option Nat :=
  if offset + 4 ≤ data.length then some (Endianness.BE.decode ((data.drop offset).take 4)) else none

/-- `writeUInt32BE` -/
def writeUInt32BE (value : Nat) : Bytes := Endianness.BE.encode 4 value

/-- An entry of `_palette`. -/
structure Color where
  red : UInt8
  green : UInt8
  blue : UInt8
  alpha : UInt8
  deriving DecidableEq, Repr

/-- What the parser emits besides what every stream does.  A gamma is in units of 1/100000. -/
inductive Note
  | metadata (width height : Nat) (palette color alpha : Bool)
  | gamma (value : Nat)
  deriving DecidableEq, Repr

/-- The inflate stream that the parser makes: the filter it is piped into, what was written
to it, and whether it was ended. -/
structure Inflate where
  filter : Filter
  input : Bytes
  ended : Bool
  deriving DecidableEq

/-- The callbacks of the parser; `parseIDAT` is bound to the length that is left. -/
inductive Step
  | parseSignature
  | parseChunkBegin
  | skipChunk
  | parseChunkEnd
  | parseIHDR
  | parsePLTE
  | parseTRNS
  | parseGAMA
  | parseIDAT (length : Nat)
  | parseIEND
  deriving DecidableEq, Repr

/-- The fields of the parser, and what it emitted. -/
structure Parser where
  checkCRC : Bool
  hasIHDR : Bool
  hasIEND : Bool
  inflate : Option Inflate
  filter : Option Filter
  crc : BitVec 32
  palette : List Color
  colorType : Nat
  notes : List Note
  deriving DecidableEq

namespace Parser

/-- A new parser with the option `checkCRC`. -/
def create (checkCRC : Bool) : Parser := ⟨checkCRC, false, false, none, none, 0, [], 0, []⟩

/-- `_crc.write(data)` -/
def crcTake (p : Parser) (data : Bytes) : Parser := { p with crc := crcWrite p.crc data }

/-- A callback of the parser is called. -/
def note (p : Parser) (n : Note) : Parser := { p with notes := p.notes ++ [n] }

/-- The bytes of a string of characters below 256 in UTF-8. -/
def nameBytes (name : Bytes) : Bytes :=
  name.flatMap fun b : UInt8 =>
    if b < 0x80 then [b] else [(0xc0 : UInt8) ||| (b >>> 6), (0x80 : UInt8) ||| (b &&& 0x3f)]

/-- The name of a chunk as text. -/
def nameString (name : Bytes) : String := String.ofList (name.map fun b => Char.ofNat b.toNat)

/-- `_handleChunkEnd` -/
def handleChunkEnd : Last Step := .read 4 .parseChunkEnd

/-- `_handleIHDR`, `_handlePLTE` and the others: the entry of `_chunks` for a type. -/
def chunks (type length : Nat) : Option (Last Step) :=
  if type = TYPE_IHDR then some (.read length .parseIHDR)
  else if type = TYPE_IEND then some (.read length .parseIEND)
  else if type = TYPE_IDAT then some (.read (-(length : Int)) (.parseIDAT length))
  else if type = TYPE_PLTE then some (.read length .parsePLTE)
  else if type = TYPE_tRNS then some (.read length .parseTRNS)
  else if type = TYPE_gAMA then some (.read length .parseGAMA)
  else none

/-- `_parseSignature` -/
def parseSignature (p : Parser) (data : Bytes) : Parser × Last Step :=
  if data.take 8 = PNG_SIGNATURE then (p, .read 8 .parseChunkBegin)
  else (p, .emitError "Invalid file signature")

/-- `_parseChunkBegin` -/
def parseChunkBegin (p : Parser) (data : Bytes) : Parser × Last Step :=
  match readUInt32BE data 0, readUInt32BE data 4 with
  | some length, some type =>
    let name := (data.drop 4).take 4
    let ancillary := data.getD 4 0 &&& 0x20 ≠ 0
    if !p.hasIHDR ∧ type ≠ TYPE_IHDR then (p, .emitError "Expected IHDR on beggining")
    else
      let p := { p with crc := crcInit }.crcTake (nameBytes name)
      match chunks type length with
      | some last => (p, last)
      | none =>
        if !ancillary then (p, .emitError ("Unsupported critical chunk type " ++ nameString name))
        else (p, .read (length + 4 : Nat) .skipChunk)
  | _, _ => (p, .throw "RangeError")

/-- `_skipChunk` -/
def skipChunk (p : Parser) (_data : Bytes) : Parser × Last Step := (p, .read 8 .parseChunkBegin)

/-- `_parseChunkEnd` -/
def parseChunkEnd (p : Parser) (data : Bytes) : Parser × Last Step :=
  match readUInt32BE data 0 with
  | none => (p, .throw "RangeError")
  | some fileCrc =>
    if p.checkCRC ∧ crcValue p.crc ≠ BitVec.ofNat 32 fileCrc then (p, .emitError "Crc error")
    else if p.hasIEND then (p, .destroySoon)
    else (p, .read 8 .parseChunkBegin)

/-- A byte that may not be there, in a message. -/
def showByte : Option UInt8 → String
  | none => "undefined"
  | some b => toString b.toNat

/-- `_parseIHDR`, where `fresh` is what a new buffer holds. -/
def parseIHDR (fresh : Nat → Bytes) (p : Parser) (data : Bytes) : Parser × Last Step :=
  let q := p.crcTake data
  match readUInt32BE data 0, readUInt32BE data 4 with
  | some width, some height =>
    if data[8]? ≠ some 8 then (q, .emitError ("Unsupported bit depth " ++ showByte data[8]?))
    else
      match data[9]?.bind fun t => (colorTypeToBppMap t.toNat).map fun bpp => (t.toNat, bpp) with
      | none => (q, .emitError "Unsupported color type")
      | some (colorType, bpp) =>
        if data[10]? ≠ some 0 then (q, .emitError "Unsupported compression method")
        else if data[11]? ≠ some 0 then (q, .emitError "Unsupported filter method")
        else if data[12]? ≠ some 0 then (q, .emitError "Unsupported interlace method")
        else if kMaxLength < width * height * 4 then (p, .throw "RangeError")
        else
          ({ q with
              colorType := colorType
              filter := some (.create width height bpp (fresh (width * height * 4)))
              hasIHDR := true }.note
            (.metadata width height (colorType &&& 1 ≠ 0) (colorType &&& 2 ≠ 0)
              (colorType &&& 4 ≠ 0)),
            handleChunkEnd)
  | _, _ => (p, .throw "RangeError")

/-- The colors in the data of a palette. -/
def entries : Bytes → List Color
  | red :: green :: blue :: rest => ⟨red, green, blue, 0xff⟩ :: entries rest
  | _ => []

/-- `_parsePLTE` -/
def parsePLTE (p : Parser) (data : Bytes) : Parser × Last Step :=
  let p := p.crcTake data
  ({ p with palette := p.palette ++ entries data }, handleChunkEnd)

/-- The loop over the palette, whose colors after the data are opaque. -/
def setAlpha (palette : List Color) (data : Bytes) : List Color :=
  palette.mapIdx fun i c => { c with alpha := data.getD i 0xff }

/-- `_parseTRNS` -/
def parseTRNS (p : Parser) (data : Bytes) : Parser × Last Step :=
  let p := p.crcTake data
  if p.colorType = 3 then
    if p.palette.length = 0 then (p, .emitError "Transparency chunk must be after palette")
    else if p.palette.length < data.length then
      (p, .emitError "More transparent colors than palette size")
    else ({ p with palette := setAlpha p.palette data }, handleChunkEnd)
  else (p, handleChunkEnd)

/-- `_parseGAMA` -/
def parseGAMA (p : Parser) (data : Bytes) : Parser × Last Step :=
  match readUInt32BE data 0 with
  | none => (p, .throw "RangeError")
  | some value => ((p.crcTake data).note (.gamma value), handleChunkEnd)

/-- `_inflate.write(data)`, after the stream was made if there was none. -/
def inflateWrite (p : Parser) (data : Bytes) : Option Parser :=
  match p.inflate, p.filter with
  | some inflate, _ =>
    some { p with inflate := some { inflate with input := inflate.input ++ data } }
  | none, some filter => some { p with inflate := some ⟨filter, data, false⟩ }
  | none, none => none

/-- `_parseIDAT` -/
def parseIDAT (length : Nat) (p : Parser) (data : Bytes) : Parser × Last Step :=
  if p.colorType = 3 ∧ p.palette.length = 0 then (p, .throw "Expected palette not found")
  else
    match (p.crcTake data).inflateWrite data with
    | none => (p, .throw "TypeError")
    | some q =>
      if data.length < length then
        (q, .read (-((length - data.length : Nat) : Int)) (.parseIDAT (length - data.length)))
      else (q, handleChunkEnd)

/-- `_parseIEND` -/
def parseIEND (p : Parser) (data : Bytes) : Parser × Last Step :=
  match p.inflate with
  | none => (p, .throw "TypeError")
  | some inflate =>
    ({ p.crcTake data with inflate := some { inflate with ended := true }, hasIEND := true },
      handleChunkEnd)

/-- The callbacks.  One that throws leaves nothing that is looked at again. -/
def call (fresh : Nat → Bytes) : Step → Bytes → Parser → Parser × Last Step
  | .parseSignature, data, p => p.parseSignature data
  | .parseChunkBegin, data, p => p.parseChunkBegin data
  | .skipChunk, data, p => p.skipChunk data
  | .parseChunkEnd, data, p => p.parseChunkEnd data
  | .parseIHDR, data, p => p.parseIHDR fresh data
  | .parsePLTE, data, p => p.parsePLTE data
  | .parseTRNS, data, p => p.parseTRNS data
  | .parseGAMA, data, p => p.parseGAMA data
  | .parseIDAT length, data, p => p.parseIDAT length data
  | .parseIEND, data, p => p.parseIEND data

/-- What `_handleError` throws when it has destroyed the parser's stream: `_inflate.destroy()`
is a call of `undefined`, since the zlib streams of the tool's Node have no such method. -/
def handleError (p : Parser) : Option String := p.inflate.map fun _ => "TypeError"

/-- What the parser adds to its stream. -/
def subclass (fresh : Nat → Bytes) : Subclass Parser Step := ⟨call fresh, some handleError⟩

/-- What a new parser waits for. -/
def firstRead : Read Step := .request 8 .parseSignature

end Parser

/-- The parser's stream after its constructor. -/
def parserStream (checkCRC : Bool) : ChunkStream Parser Step :=
  ⟨.create checkCRC, some [], 0, some [Parser.firstRead], false, true, []⟩

/-! ## The parser as a reader -/

/-- What a request of the parser is: only the data of an `IDAT` chunk may come in parts, and the
callback knows how much of it is left. -/
def Parser.Requested (_ : Parser) (r : Read Step) : Prop :=
  match r.func with
  | .parseIDAT n => r.length = n ∧ r.allowLess = decide (0 < n)
  | _ => r.allowLess = false

section Reader

variable {fresh : Nat → Bytes} {p : Parser} {data : Bytes}

/-- A read of so many bytes is a request. -/
theorem requested_of_nonneg {n : Nat} {func : Step} (h : ∀ m, func ≠ .parseIDAT m) :
    p.Requested (.request (n : Int) func) := by
  have hless : decide ((n : Int) < 0) = false := by simp
  cases func with
  | parseIDAT m => exact absurd rfl (h m)
  | _ => exact hless

theorem requested_parseIDAT (n : Nat) : p.Requested (.request (-(n : Int)) (.parseIDAT n)) := by
  simp [Parser.Requested, Read.request]

/-- The entries of `_chunks` ask for the data. -/
theorem requested_chunks {type length : Nat} {n : Int} {func : Step}
    (h : Parser.chunks type length = some (.read n func)) : p.Requested (.request n func) := by
  unfold Parser.chunks at h
  split_ifs at h <;> cases h
  all_goals first | exact requested_parseIDAT length | exact requested_of_nonneg (by simp)

theorem requested_handleChunkEnd {n : Int} {func : Step}
    (h : Parser.handleChunkEnd = .read n func) : p.Requested (.request n func) := by
  cases h
  exact requested_of_nonneg (n := 4) (by simp)

/-- What a callback asks for. -/
theorem call_requested {func : Step} {n : Int} {func' : Step}
    (h : (Parser.call fresh func data p).2 = .read n func') :
    (Parser.call fresh func data p).1.Requested (.request n func') := by
  have hbegin : ∀ {q : Parser} {n : Int} {func' : Step},
      (.read 8 .parseChunkBegin : Last Step) = .read n func' → q.Requested (.request n func') := by
    intro q n func' h
    cases h
    exact requested_of_nonneg (n := 8) (by simp)
  cases func with
  | parseSignature =>
    simp only [Parser.call, Parser.parseSignature] at h
    split at h
    · exact hbegin h
    · cases h
  | parseChunkBegin =>
    simp only [Parser.call, Parser.parseChunkBegin] at h
    split at h
    · split at h
      · cases h
      · split at h
        · next hchunks =>
          dsimp only at h
          subst h
          exact requested_chunks hchunks
        · split at h
          · cases h
          · cases h
            exact requested_of_nonneg (by simp)
    · cases h
  | skipChunk => exact hbegin h
  | parseChunkEnd =>
    simp only [Parser.call, Parser.parseChunkEnd] at h
    split at h
    · cases h
    · split at h
      · cases h
      · split at h
        · cases h
        · exact hbegin h
  | parseIHDR =>
    simp only [Parser.call, Parser.parseIHDR] at h
    split at h
    · split at h
      · cases h
      · split at h
        · cases h
        · split_ifs at h
          exact requested_handleChunkEnd h
    · cases h
  | parsePLTE => exact requested_handleChunkEnd h
  | parseTRNS =>
    simp only [Parser.call, Parser.parseTRNS] at h
    split_ifs at h
    all_goals exact requested_handleChunkEnd h
  | parseGAMA =>
    simp only [Parser.call, Parser.parseGAMA] at h
    split at h
    · cases h
    · exact requested_handleChunkEnd h
  | parseIDAT length =>
    simp only [Parser.call, Parser.parseIDAT] at h
    split at h
    · cases h
    · split at h
      · cases h
      · split at h
        · cases h
          exact requested_parseIDAT _
        · exact requested_handleChunkEnd h
  | parseIEND =>
    simp only [Parser.call, Parser.parseIEND] at h
    split at h
    · cases h
    · exact requested_handleChunkEnd h

/-- A request for nothing is followed by one for something. -/
theorem call_progress {func : Step} (hfunc : ∀ m, func = .parseIDAT m → m = 0) {n : Int}
    {func' : Step} (h : (Parser.call fresh func [] p).2 = .read n func') : n ≠ 0 := by
  have hend : ∀ {n : Int} {func' : Step}, Parser.handleChunkEnd = .read n func' → n ≠ 0 := by
    intro n func' h
    cases h
    decide
  cases func with
  | parseSignature => simp [Parser.call, Parser.parseSignature, PNG_SIGNATURE] at h
  | parseChunkBegin => simp [Parser.call, Parser.parseChunkBegin, readUInt32BE] at h
  | skipChunk =>
    cases h
    decide
  | parseChunkEnd => simp [Parser.call, Parser.parseChunkEnd, readUInt32BE] at h
  | parseIHDR => simp [Parser.call, Parser.parseIHDR, readUInt32BE] at h
  | parsePLTE => exact hend h
  | parseTRNS =>
    simp only [Parser.call, Parser.parseTRNS] at h
    split_ifs at h
    all_goals exact hend h
  | parseGAMA => simp [Parser.call, Parser.parseGAMA, readUInt32BE] at h
  | parseIDAT m =>
    obtain rfl := hfunc m rfl
    simp only [Parser.call, Parser.parseIDAT] at h
    split at h
    · cases h
    · split at h
      · cases h
      · exact hend h
  | parseIEND =>
    simp only [Parser.call, Parser.parseIEND] at h
    split at h
    · cases h
    · exact hend h

/-- What is written to the inflate stream in two parts. -/
theorem inflateWrite_append (p : Parser) (a b : Bytes) :
    ((p.crcTake (a ++ b)).inflateWrite (a ++ b)) =
      ((p.crcTake a).inflateWrite a).bind fun q => (q.crcTake b).inflateWrite b := by
  unfold Parser.inflateWrite Parser.crcTake
  dsimp only
  cases p.inflate with
  | some inflate => simp [crcWrite_append]
  | none => cases p.filter <;> simp [crcWrite_append]

/-- The data of an `IDAT` chunk in two parts. -/
theorem parseIDAT_append {n : Nat} {a b : Bytes} (ha : a.length < n) :
    (∃ func, (Parser.parseIDAT n p a).2 = .read (-((n - a.length : Nat) : Int)) func ∧
      Parser.call fresh func b (Parser.parseIDAT n p a).1 = Parser.parseIDAT n p (a ++ b)) ∨
    (∃ message, (Parser.parseIDAT n p a).2 = .throw message ∧
      Parser.parseIDAT n p (a ++ b) = ((Parser.parseIDAT n p a).1, .throw message)) := by
  unfold Parser.parseIDAT
  by_cases hpalette : p.colorType = 3 ∧ p.palette.length = 0
  · right
    simp only [hpalette, and_self, if_true]
    exact ⟨_, rfl, rfl⟩
  · simp only [hpalette, if_false, inflateWrite_append]
    cases hq : (p.crcTake a).inflateWrite a with
    | none => exact .inr ⟨_, rfl, rfl⟩
    | some q =>
      left
      simp only [ha, if_true, Option.bind_some]
      refine ⟨_, rfl, ?_⟩
      -- the palette is the same, and now there is a stream
      obtain ⟨hcolor, hpal, q', hq'⟩ : q.colorType = p.colorType ∧ q.palette = p.palette ∧
          ∃ q', (q.crcTake b).inflateWrite b = some q' := by
        unfold Parser.inflateWrite at hq
        split at hq <;> cases hq <;> exact ⟨rfl, rfl, _, rfl⟩
      simp only [Parser.call, Parser.parseIDAT, hcolor, hpal, hpalette, if_false, hq',
        List.length_append]
      have hmore : b.length < n - a.length ↔ a.length + b.length < n := by omega
      simp only [hmore, Nat.sub_sub]

/-- **The parser waits for one thing at a time**, and what it takes less of adds up. -/
theorem Parser.coherent (fresh : Nat → Bytes) : (subclass fresh).Coherent Parser.Requested where
  keeps _ h := call_requested h
  adds := by
    intro p r a b hr hless ha _
    obtain ⟨n, allowLess, func⟩ := r
    cases func with
    | parseIDAT m =>
      obtain rfl : n = m := hr.1
      exact parseIDAT_append ha
    | _ =>
      simp only [Requested] at hr
      rw [hr] at hless
      cases hless
  progress := by
    intro p r n func hr hzero h
    refine call_progress (fun m hm => ?_) h
    obtain ⟨_, _, func⟩ := r
    dsimp only at hm hzero
    subst hm
    have : _ = m := hr.1
    dsimp only at this
    omega

end Reader

/-! ## Chunks -/

/-- A chunk with this checksum. -/
def chunkWith (type : Nat) (data : Bytes) (crc : BitVec 32) : Bytes :=
  writeUInt32BE data.length ++ (writeUInt32BE type ++ (data ++ writeUInt32BE crc.toNat))

/-- The checksum of a chunk. -/
def chunkCrc (type : Nat) (data : Bytes) : BitVec 32 := crc32 (writeUInt32BE type ++ data)

/-- A chunk. -/
def chunkBytes (type : Nat) (data : Bytes) : Bytes := chunkWith type data (chunkCrc type data)

@[simp] theorem length_writeUInt32BE (value : Nat) : (writeUInt32BE value).length = 4 :=
  Endianness.length_encode _ _ _

/-- A number that fits is read as it was written. -/
theorem readUInt32BE_write {value : Nat} (h : value < 2 ^ 32) (rest : Bytes) :
    readUInt32BE (writeUInt32BE value ++ rest) 0 = some value := by
  have hdecode := Endianness.decode_encode .BE 4 (n := value) (by simpa using h)
  rw [readUInt32BE, if_pos (by simp), List.drop_zero, List.take_left' (by simp),
    writeUInt32BE, hdecode]

/-- A number is read where it was written. -/
theorem readUInt32BE_write_after {value : Nat} (h : value < 2 ^ 32) (before rest : Bytes) :
    readUInt32BE (before ++ (writeUInt32BE value ++ rest)) before.length = some value := by
  have hfirst := readUInt32BE_write h rest
  rw [readUInt32BE, if_pos (by simp)] at hfirst
  rw [readUInt32BE, if_pos (by simp), List.drop_left]
  exact hfirst

namespace Parser

variable {fresh : Nat → Bytes} {p q : Parser} {type : Nat} {data rest : Bytes}
  {c : Config UInt8 (Held Parser Step)} {G : Parser → Prop}

/-- The parser before a chunk. -/
def atChunk (p : Parser) : Held Parser Step := ⟨p, .reading (.request 8 .parseChunkBegin)⟩

/-- The parser after the checksum of a chunk. -/
def afterChunk (p : Parser) : Held Parser Step := if p.hasIEND then ⟨p, .soon⟩ else p.atChunk

/-- The parser after an error. -/
def afterError (p : Parser) (message : String) : Held Parser Step :=
  match p.handleError with
  | none => ⟨p, .failed message⟩
  | some exception => ⟨p, .thrown exception 0⟩

/-- The types that have an entry in `_chunks`. -/
def knownTypes : List Nat := [TYPE_IHDR, TYPE_IEND, TYPE_IDAT, TYPE_PLTE, TYPE_tRNS, TYPE_gAMA]

/-- The callback for the data of a type with an entry. -/
def stepOf (type length : Nat) : Step :=
  if type = TYPE_IHDR then .parseIHDR
  else if type = TYPE_IEND then .parseIEND
  else if type = TYPE_IDAT then .parseIDAT length
  else if type = TYPE_PLTE then .parsePLTE
  else if type = TYPE_tRNS then .parseTRNS
  else .parseGAMA

/-- An entry asks for the data, and only that of `IDAT` may come in parts. -/
theorem chunks_known (h : type ∈ knownTypes) (length : Nat) :
    ∃ n : Int, n.natAbs = length ∧ (n < 0 → type = TYPE_IDAT) ∧
      chunks type length = some (.read n (stepOf type length)) := by
  simp only [knownTypes, List.mem_cons, List.not_mem_nil, or_false] at h
  rcases h with rfl | rfl | rfl | rfl | rfl | rfl
  case inr.inr.inl => exact ⟨-(length : Int), by simp, fun _ => rfl, rfl⟩
  all_goals exact ⟨length, by simp, fun h => by omega, rfl⟩

theorem chunks_unknown (h : type ∉ knownTypes) (length : Nat) : chunks type length = none := by
  simp only [knownTypes, List.mem_cons, List.not_mem_nil, or_false, not_or] at h
  obtain ⟨h1, h2, h3, h4, h5, h6⟩ := h
  rw [chunks, if_neg h1, if_neg h2, if_neg h3, if_neg h4, if_neg h5, if_neg h6]

/-- The names of the types are plain letters. -/
theorem known_name (h : type ∈ knownTypes) :
    type < 2 ^ 32 ∧ nameBytes (writeUInt32BE type) = writeUInt32BE type := by
  simp only [knownTypes, List.mem_cons, List.not_mem_nil, or_false] at h
  rcases h with rfl | rfl | rfl | rfl | rfl | rfl <;> decide

/-- The parser with the checksum of a type. -/
def begun (p : Parser) (type : Nat) : Parser :=
  { p with crc := crcWrite crcInit (writeUInt32BE type) }

/-- **A chunk with an entry**: its callback gets its data, and then its checksum decides. -/
theorem known_reads (hknown : type ∈ knownTypes) (hlen : data.length < 2 ^ 32)
    (hIHDR : p.hasIHDR = true ∨ type = TYPE_IHDR)
    (hcall : call fresh (stepOf type data.length) data (p.begun type) = (q, handleChunkEnd))
    (hcrc : q.crc = crcWrite crcInit (writeUInt32BE type ++ data)) (crc : BitVec 32)
    (hp : G p) (hbegun : G (p.begun type)) (hq : G q)
    (hpart : type = TYPE_IDAT → ∀ b more, b ++ more = data → ∀ left,
      G ((subclass fresh).after left (call fresh (stepOf type data.length) b (p.begun type)).1
        (call fresh (stepOf type data.length) b (p.begun type)).2).owner)
    (hr : Reads (subclass fresh).reader (fun h => G h.owner)
      (if q.checkCRC ∧ chunkCrc type data ≠ crc then q.afterError "Crc error"
        else q.afterChunk, rest) c) :
    Reads (subclass fresh).reader (fun h => G h.owner)
      (p.atChunk, chunkWith type data crc ++ rest) c := by
  obtain ⟨htype, hname⟩ := known_name hknown
  obtain ⟨n, hn, hless, hchunks⟩ := chunks_known hknown data.length
  have hheader : ∀ more : Bytes, writeUInt32BE data.length ++ (writeUInt32BE type ++ more) =
      (writeUInt32BE data.length ++ writeUInt32BE type) ++ more := by simp
  have hbegin : p.parseChunkBegin (writeUInt32BE data.length ++ writeUInt32BE type) =
      (p.begun type, .read n (stepOf type data.length)) := by
    have hread := readUInt32BE_write_after htype (writeUInt32BE data.length) []
    rw [List.append_nil, length_writeUInt32BE] at hread
    have hnamed : ((writeUInt32BE data.length ++ writeUInt32BE type).drop 4).take 4 =
        writeUInt32BE type := by
      rw [List.drop_left' (by simp), List.take_of_length_le (by simp)]
    have hexpected : ¬ ((!p.hasIHDR) = true ∧ type ≠ TYPE_IHDR) := by
      rcases hIHDR with h | h <;> simp [h]
    rw [parseChunkBegin, readUInt32BE_write hlen, hread]
    simp only [hexpected, if_false, hnamed, hchunks, hname]
    rfl
  have hend : q.parseChunkEnd (writeUInt32BE crc.toNat) =
      if q.checkCRC ∧ chunkCrc type data ≠ crc then (q, .emitError "Crc error")
      else if q.hasIEND then (q, .destroySoon)
      else (q, .read 8 .parseChunkBegin) := by
    have hread := readUInt32BE_write crc.isLt []
    rw [List.append_nil] at hread
    rw [parseChunkEnd, hread]
    dsimp only
    rw [BitVec.ofNat_toNat, BitVec.setWidth_eq, hcrc]
    rfl
  rw [chunkWith, List.append_assoc, List.append_assoc, List.append_assoc, hheader]
  refine reads_reading hbegin (by simp [Read.request]) (by simp) hp (fun _ _ h => by cases h) ?_
  refine reads_reading hcall (by simp [Read.request, hn]) (by simp) hbegun ?_ ?_
  · intro b more h hb
    exact hpart (hless (by simpa [Read.request] using h)) b more hb _
  by_cases hbad : q.checkCRC = true ∧ chunkCrc type data ≠ crc
  · rw [if_pos hbad] at hr hend
    exact reads_reading hend (by simp [Read.request]) (by simp) hq (fun _ _ h => by cases h) hr
  · rw [if_neg hbad] at hr hend
    unfold afterChunk at hr
    by_cases hIEND : q.hasIEND = true
    · rw [if_pos hIEND] at hr hend
      exact reads_reading hend (by simp [Read.request]) (by simp) hq (fun _ _ h => by cases h) hr
    · rw [if_neg hIEND] at hr hend
      exact reads_reading hend (by simp [Read.request]) (by simp) hq (fun _ _ h => by cases h) hr

/-- **A chunk without an entry** is skipped with its checksum, whatever that is, if its type says
that it may be. -/
theorem skipped_reads (hunknown : type ∉ knownTypes) (htype : type < 2 ^ 32)
    (hancillary : type.testBit 29 = true) (hlen : data.length < 2 ^ 32) (hIHDR : p.hasIHDR = true)
    (crc : BitVec 32) (hp : G p)
    (hbegun : G { p with crc := crcWrite crcInit (nameBytes (writeUInt32BE type)) })
    (hr : Reads (subclass fresh).reader (fun h => G h.owner)
      (atChunk { p with crc := crcWrite crcInit (nameBytes (writeUInt32BE type)) }, rest) c) :
    Reads (subclass fresh).reader (fun h => G h.owner)
      (p.atChunk, chunkWith type data crc ++ rest) c := by
  have hheader : ∀ more : Bytes, writeUInt32BE data.length ++ (writeUInt32BE type ++ more) =
      (writeUInt32BE data.length ++ writeUInt32BE type) ++ more := by simp
  have hbit : (writeUInt32BE data.length ++ writeUInt32BE type).getD 4 0 &&& 0x20 ≠ 0 := by
    have hfirst : (writeUInt32BE data.length ++ writeUInt32BE type).getD 4 0 =
        UInt8.ofNat (type / 2 ^ 24) := by
      rw [List.getD_eq_getElem?_getD, List.getElem?_append_right (by simp)]
      simp [writeUInt32BE, Endianness.encode, lowFirst, Nat.div_div_eq_div_mul]
    rw [hfirst]
    intro hzero
    have hnat := congrArg (fun b => (UInt8.toNat b).testBit 5) hzero
    simp only [UInt8.toNat_and, Nat.testBit_and] at hnat
    rw [UInt8.toNat_ofNat', Nat.testBit_mod_two_pow, Nat.testBit_div_two_pow, hancillary] at hnat
    exact absurd hnat (by decide)
  have hbegin : p.parseChunkBegin (writeUInt32BE data.length ++ writeUInt32BE type) =
      ({ p with crc := crcWrite crcInit (nameBytes (writeUInt32BE type)) },
        .read (data.length + 4 : Nat) .skipChunk) := by
    have hread := readUInt32BE_write_after htype (writeUInt32BE data.length) []
    rw [List.append_nil, length_writeUInt32BE] at hread
    have hnamed : ((writeUInt32BE data.length ++ writeUInt32BE type).drop 4).take 4 =
        writeUInt32BE type := by
      rw [List.drop_left' (by simp), List.take_of_length_le (by simp)]
    have hexpected : ¬ ((!p.hasIHDR) = true ∧ type ≠ TYPE_IHDR) := by simp [hIHDR]
    have hskip : ¬ (!decide ((writeUInt32BE data.length ++ writeUInt32BE type).getD 4 0 &&& 0x20 ≠
      0)) =
        true := by
      simpa using hbit
    rw [parseChunkBegin, readUInt32BE_write hlen, hread]
    simp only [hexpected, if_false, hnamed, chunks_unknown hunknown, hskip]
    rfl
  rw [chunkWith, List.append_assoc, List.append_assoc, List.append_assoc, hheader]
  refine reads_reading hbegin (by simp [Read.request]) (by simp) hp (fun _ _ h => by cases h) ?_
  rw [← List.append_assoc]
  have hskipped : (subclass fresh).call .skipChunk (data ++ writeUInt32BE crc.toNat)
      { p with crc := crcWrite crcInit (nameBytes (writeUInt32BE type)) } =
      ({ p with crc := crcWrite crcInit (nameBytes (writeUInt32BE type)) },
        .read 8 .parseChunkBegin) := rfl
  refine reads_reading hskipped ?_ (by simp) hbegun
    (fun _ _ h => by simp [Read.request] at h; omega) hr
  rw [List.length_append, length_writeUInt32BE, Read.request, Int.natAbs_natCast]

end Parser

end Png

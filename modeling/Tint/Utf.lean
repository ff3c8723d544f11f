import Mathlib.Data.List.Basic

/-!
# UTF-16 strings and their UTF-8 form

A string of JavaScript or of .NET is a list of 16 bit code units, any list of them.
`pieces` reads it as characters and surrogates that are not part of a pair
(`pieces_utf16`, `flatMap_pieces`); a string is `WellFormed` if it has none of the
latter.

A UTF-8 decoder (`Utf8Decoder`) gives the characters back that the bytes encode and
gives characters only, whatever the bytes: what stands in the place of bytes that
encode nothing is up to it.  So a string survives being written as UTF-8 and decoded
again if and only if it is well formed (`getString_writeUtf8_iff`).
-/

namespace Utf

/-- The first unit of a pair. -/
def isLead (u : UInt16) : Bool := 0xD800 ≤ u.toNat && u.toNat < 0xDC00

/-- The second unit of a pair. -/
def isTrail (u : UInt16) : Bool := 0xDC00 ≤ u.toNat && u.toNat < 0xE000

/-- The code units of a character. -/
def utf16 (c : Char) : List UInt16 :=
  if c.toNat < 0x10000 then [UInt16.ofNat c.toNat]
  else
    [UInt16.ofNat (0xD800 + (c.toNat - 0x10000) / 0x400),
      UInt16.ofNat (0xDC00 + (c.toNat - 0x10000) % 0x400)]

/-- The character of a pair. -/
def pair (u v : UInt16) : Char :=
  Char.ofNat (0x10000 + (u.toNat - 0xD800) * 0x400 + (v.toNat - 0xDC00))

/-- A character, or a surrogate on its own. -/
inductive Piece
  | scalar (c : Char)
  | surrogate (u : UInt16)
  deriving DecidableEq

/-- The units of a piece. -/
def Piece.utf16 : Piece → List UInt16
  | .scalar c => Utf.utf16 c
  | .surrogate u => [u]

/-- The bytes of a piece; a surrogate on its own is written like a character. -/
def Piece.utf8 : Piece → List UInt8
  | .scalar c => String.utf8EncodeChar c
  | .surrogate u =>
      [UInt8.ofNat (0xE0 + u.toNat / 0x1000), UInt8.ofNat (0x80 + u.toNat / 0x40 % 0x40),
        UInt8.ofNat (0x80 + u.toNat % 0x40)]

/-- A unit that is not part of a pair. -/
def single (u : UInt16) : Piece :=
  if isLead u || isTrail u then .surrogate u else .scalar (Char.ofNat u.toNat)

/-- The pieces of a string. -/
def pieces : List UInt16 → List Piece
  | [] => []
  | [u] => [single u]
  | u :: v :: rest =>
      if isLead u && isTrail v then .scalar (pair u v) :: pieces rest
      else single u :: pieces (v :: rest)

/-- Every surrogate is part of a pair. -/
def WellFormed (s : List UInt16) : Prop := ∀ u, .surrogate u ∉ pieces s

/-- The string as UTF-8. -/
def writeUtf8 (s : List UInt16) : List UInt8 := (pieces s).flatMap Piece.utf8

/-! ## Pieces -/

theorem isLead_iff {u : UInt16} : isLead u = true ↔ 0xD800 ≤ u.toNat ∧ u.toNat < 0xDC00 := by
  simp [isLead]

theorem isTrail_iff {u : UInt16} : isTrail u = true ↔ 0xDC00 ≤ u.toNat ∧ u.toNat < 0xE000 := by
  simp [isTrail]

theorem toNat_charOfNat {n : Nat} (h : n.isValidChar) : (Char.ofNat n).toNat = n := by
  rw [Char.ofNat, dif_pos h]
  rfl

/-- A single unit is encoded as itself. -/
theorem single_utf16 (u : UInt16) : (single u).utf16 = [u] := by
  unfold single
  split
  · rfl
  · next h =>
    have hvalid : u.toNat.isValidChar := by
      have hlt := u.toNat_lt
      rw [Bool.or_eq_true, isLead_iff, isTrail_iff] at h
      exact (Nat.lt_or_ge u.toNat 0xD800).imp_right fun _ => ⟨by omega, by omega⟩
    have hsmall : u.toNat < 0x10000 := u.toNat_lt
    rw [Piece.utf16, utf16, toNat_charOfNat hvalid, if_pos hsmall, UInt16.ofNat_toNat]

/-- A pair is encoded as its two units. -/
theorem pair_utf16 {u v : UInt16} (hu : isLead u = true) (hv : isTrail v = true) :
    utf16 (pair u v) = [u, v] := by
  rw [isLead_iff] at hu
  rw [isTrail_iff] at hv
  have hvalid : (0x10000 + (u.toNat - 0xD800) * 0x400 + (v.toNat - 0xDC00)).isValidChar :=
    .inr ⟨by omega, by omega⟩
  have hlead :
      0xD800 + (0x10000 + (u.toNat - 0xD800) * 0x400 + (v.toNat - 0xDC00) - 0x10000) / 0x400 =
        u.toNat := by omega
  have htrail :
      0xDC00 + (0x10000 + (u.toNat - 0xD800) * 0x400 + (v.toNat - 0xDC00) - 0x10000) % 0x400 =
        v.toNat := by omega
  rw [utf16, pair, toNat_charOfNat hvalid, if_neg (by omega), hlead, htrail, UInt16.ofNat_toNat,
    UInt16.ofNat_toNat]

/-- The pieces of a string make it up. -/
theorem flatMap_pieces (s : List UInt16) : (pieces s).flatMap Piece.utf16 = s := by
  fun_induction pieces s with
  | case1 => rfl
  | case2 u => simp [single_utf16]
  | case3 u v rest h ih =>
      rw [Bool.and_eq_true] at h
      rw [List.flatMap_cons, ih, Piece.utf16, pair_utf16 h.1 h.2]
      rfl
  | case4 u v rest h ih => rw [List.flatMap_cons, ih, single_utf16, List.singleton_append]

/-- A character below `0x10000` is a unit of its own. -/
theorem single_small {c : Char} (h : c.toNat < 0x10000) :
    isLead (UInt16.ofNat c.toNat) = false ∧ single (UInt16.ofNat c.toNat) = .scalar c := by
  have hvalid : c.toNat < 0xD800 ∨ 0xDFFF < c.toNat ∧ c.toNat < 0x110000 := c.valid
  have hnat : (UInt16.ofNat c.toNat).toNat = c.toNat := by
    rw [UInt16.toNat_ofNat', Nat.mod_eq_of_lt h]
  have hlead : isLead (UInt16.ofNat c.toNat) = false := by
    rw [Bool.eq_false_iff, Ne, isLead_iff, hnat]
    omega
  have htrail : isTrail (UInt16.ofNat c.toNat) = false := by
    rw [Bool.eq_false_iff, Ne, isTrail_iff, hnat]
    omega
  refine ⟨hlead, ?_⟩
  rw [single, hlead, htrail, hnat, Char.ofNat_toNat]
  rfl

/-- The two units of a larger character make a pair. -/
theorem pair_large {c : Char} (h : ¬ c.toNat < 0x10000) :
    let u := UInt16.ofNat (0xD800 + (c.toNat - 0x10000) / 0x400)
    let v := UInt16.ofNat (0xDC00 + (c.toNat - 0x10000) % 0x400)
    isLead u = true ∧ isTrail v = true ∧ pair u v = c := by
  intro u v
  have hvalid : c.toNat < 0xD800 ∨ 0xDFFF < c.toNat ∧ c.toNat < 0x110000 := c.valid
  have hu : u.toNat = 0xD800 + (c.toNat - 0x10000) / 0x400 := by
    rw [UInt16.toNat_ofNat', Nat.mod_eq_of_lt (by omega)]
  have hv : v.toNat = 0xDC00 + (c.toNat - 0x10000) % 0x400 := by
    rw [UInt16.toNat_ofNat', Nat.mod_eq_of_lt (by omega)]
  have hnat : 0x10000 + (u.toNat - 0xD800) * 0x400 + (v.toNat - 0xDC00) = c.toNat := by
    rw [hu, hv]
    omega
  refine ⟨isLead_iff.mpr (by omega), isTrail_iff.mpr (by omega), ?_⟩
  rw [pair, hnat, Char.ofNat_toNat]

/-- An encoded character is one piece. -/
theorem pieces_utf16_append (c : Char) (rest : List UInt16) :
    pieces (utf16 c ++ rest) = .scalar c :: pieces rest := by
  by_cases h : c.toNat < 0x10000
  · obtain ⟨hlead, hsingle⟩ := single_small h
    rw [utf16, if_pos h]
    cases rest with
    | nil => simp [pieces, hsingle]
    | cons v rest => simp [pieces, hlead, hsingle]
  · obtain ⟨hlead, htrail, hpair⟩ := pair_large h
    rw [utf16, if_neg h]
    simp only [List.cons_append, List.nil_append, pieces, hlead, htrail, hpair, Bool.and_self,
      if_true]

/-- The pieces of a string of characters are the characters. -/
theorem pieces_utf16 (cs : List Char) : pieces (cs.flatMap utf16) = cs.map .scalar := by
  induction cs with
  | nil => rfl
  | cons c cs ih => rw [List.flatMap_cons, pieces_utf16_append, ih, List.map_cons]

/-- Without a lone surrogate all pieces are characters. -/
theorem exists_scalars {ps : List Piece} (h : ∀ u, .surrogate u ∉ ps) :
    ∃ cs : List Char, ps = cs.map .scalar := by
  induction ps with
  | nil => exact ⟨[], rfl⟩
  | cons p ps ih =>
      obtain ⟨cs, rfl⟩ := ih fun u hu => h u (List.mem_cons_of_mem _ hu)
      cases p with
      | scalar c => exact ⟨c :: cs, rfl⟩
      | surrogate u => exact absurd List.mem_cons_self (h u)

/-- The well-formed strings are those of characters. -/
theorem wellFormed_iff {s : List UInt16} :
    WellFormed s ↔ ∃ cs : List Char, s = cs.flatMap utf16 := by
  constructor
  · intro h
    obtain ⟨cs, hcs⟩ := exists_scalars h
    refine ⟨cs, ?_⟩
    rw [← flatMap_pieces s, hcs, List.flatMap_map]
    rfl
  · rintro ⟨cs, rfl⟩ u hu
    simp [pieces_utf16] at hu

theorem writeUtf8_utf16 (cs : List Char) :
    writeUtf8 (cs.flatMap utf16) = cs.flatMap String.utf8EncodeChar := by
  rw [writeUtf8, pieces_utf16, List.flatMap_map]
  rfl

/-! ## Decoding -/

/-- A decoder of UTF-8 that replaces what encodes no character. -/
structure Utf8Decoder where
  getString : List UInt8 → List UInt16
  getString_encode : ∀ cs : List Char,
    getString (cs.flatMap String.utf8EncodeChar) = cs.flatMap utf16
  getString_scalars : ∀ bytes, ∃ cs : List Char, getString bytes = cs.flatMap utf16

/-- **Strings that survive.**  A string is read back as it was written exactly if it is
well formed. -/
theorem Utf8Decoder.getString_writeUtf8_iff (decoder : Utf8Decoder) {s : List UInt16} :
    decoder.getString (writeUtf8 s) = s ↔ WellFormed s := by
  rw [wellFormed_iff]
  constructor
  · intro h
    obtain ⟨cs, hcs⟩ := decoder.getString_scalars (writeUtf8 s)
    exact ⟨cs, h.symm.trans hcs⟩
  · rintro ⟨cs, rfl⟩
    rw [writeUtf8_utf16, decoder.getString_encode]

/-- Each byte at which no character starts is replaced. -/
def decode : List UInt8 → List Char
  | [] => []
  | b :: bytes =>
      match (b :: bytes).toByteArray.utf8DecodeChar? 0 with
      | some c => c :: decode (bytes.drop (c.utf8Size - 1))
      | none => '\uFFFD' :: decode bytes
  termination_by bytes => bytes.length
  decreasing_by
    · simp only [List.length_drop, List.length_cons]
      omega
    · simp

/-- An encoded character is decoded first. -/
theorem decode_append (c : Char) (bytes : List UInt8) :
    decode (String.utf8EncodeChar c ++ bytes) = c :: decode bytes := by
  have hlength : (String.utf8EncodeChar c).length = c.utf8Size := String.length_utf8EncodeChar c
  obtain ⟨b, tail, htail⟩ : ∃ b tail, String.utf8EncodeChar c = b :: tail := by
    refine List.exists_cons_of_ne_nil fun hnil => ?_
    have hpos := c.utf8Size_pos
    rw [hnil, List.length_nil] at hlength
    omega
  have hfirst : (b :: (tail ++ bytes)).toByteArray.utf8DecodeChar? 0 = some c := by
    rw [← List.cons_append, ← htail, List.toByteArray_append]
    exact ByteArray.utf8DecodeChar?_utf8EncodeChar_append
  have hdrop : (tail ++ bytes).drop (c.utf8Size - 1) = bytes := by
    rw [htail, List.length_cons] at hlength
    rw [← hlength, Nat.add_sub_cancel, List.drop_left]
  rw [htail, List.cons_append, decode, hfirst]
  simp only [hdrop]

theorem decode_encode (cs : List Char) : decode (cs.flatMap String.utf8EncodeChar) = cs := by
  induction cs with
  | nil => rw [List.flatMap_nil, decode]
  | cons c cs ih => rw [List.flatMap_cons, decode_append, ih]

/-- The decoder that replaces byte by byte. -/
def bytewise : Utf8Decoder where
  getString bytes := (decode bytes).flatMap utf16
  getString_encode cs := by rw [decode_encode]
  getString_scalars bytes := ⟨decode bytes, rfl⟩

end Utf

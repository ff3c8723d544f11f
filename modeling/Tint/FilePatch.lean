import Tint.FileReader

/-!
# Patching fields of a file

A patch writes bytes at a position, for a field.  Nothing makes the bytes fit: what
is too long goes on behind the field, what begins too early is before it, and a
write past the end makes the file longer.  Patches that fit change their fields only
(`applyAll_frame`), and a piece that is apart from the fields is as it was (`same_of_apart`).
-/

namespace FilePatch

open FileReader

/-- A write of bytes at a position, as `write` does it. -/
def writeAt (content : List UInt8) (p : Int) (bytes : List UInt8) : List UInt8 :=
  if bytes = [] then content
  else (List.range (max content.length (p.toNat + bytes.length))).map fun i =>
    if p.toNat ≤ i ∧ i < p.toNat + bytes.length then bytes.getD (i - p.toNat) 0
    else content.getD i 0

/-- A field, the bytes that are written for it, and where they are written. -/
structure Patch where
  start : Int
  size : Int
  position : Int
  bytes : List UInt8
  deriving DecidableEq

/-- The byte at position `i` is in the field. -/
def Patch.Covers (patch : Patch) (i : Nat) : Prop := patch.start ≤ i ∧ i < patch.start + patch.size

/-- The bytes are written within the field, if there are any. -/
def Patch.Fits (patch : Patch) : Prop :=
  patch.bytes = [] ∨
    patch.start ≤ patch.position ∧ patch.position + patch.bytes.length ≤ patch.start + patch.size

/-- The field is in a file of this length. -/
def Patch.Inside (patch : Patch) (length : Nat) : Prop :=
  0 ≤ patch.start ∧ patch.start + patch.size ≤ length

def applyAll (content : List UInt8) (patches : List Patch) : List UInt8 :=
  patches.foldl (fun content patch => writeAt content patch.position patch.bytes) content

/-- The new file differs from the old one inside the fields only, and no write
goes beyond its field. -/
structure Framed (content content' : List UInt8) (patches : List Patch) : Prop where
  length : content'.length = content.length
  fields : ∀ i, content'[i]? ≠ content[i]? → ∃ patch ∈ patches, patch.Covers i
  fits : ∀ patch ∈ patches, patch.Fits

section Write

variable {content : List UInt8} {p : Int} {bytes : List UInt8}

theorem writeAt_nil : writeAt content p [] = content := if_pos rfl

theorem writeAt_length (hp : 0 ≤ p) (h : p + bytes.length ≤ content.length) :
    (writeAt content p bytes).length = content.length := by
  unfold writeAt
  split
  · rfl
  · rw [List.length_map, List.length_range]
    omega

theorem writeAt_outside (hp : 0 ≤ p) (h : p + bytes.length ≤ content.length) {i : Nat}
    (hi : (i : Int) < p ∨ p + bytes.length ≤ i) : (writeAt content p bytes)[i]? = content[i]? := by
  have hlength := writeAt_length hp h
  by_cases hlt : i < content.length
  · rw [List.getElem?_eq_getElem hlt, List.getElem?_eq_getElem (hlength ▸ hlt)]
    congr 1
    unfold writeAt
    split
    · rfl
    · rw [List.getElem_map, List.getElem_range, if_neg (by omega), List.getD_eq_getElem?_getD,
        List.getElem?_eq_getElem hlt, Option.getD_some]
  · rw [List.getElem?_eq_none (by omega), List.getElem?_eq_none (by omega)]

end Write

section Patches

variable {content : List UInt8} {patches : List Patch}

/-- What fits into its field changes nothing else. -/
theorem writeAt_frame {patch : Patch} (hinside : patch.Inside content.length) (hfits : patch.Fits) :
    (writeAt content patch.position patch.bytes).length = content.length ∧
      ∀ i, ¬ patch.Covers i → (writeAt content patch.position patch.bytes)[i]? = content[i]? := by
  obtain ⟨hstart, hend⟩ := hinside
  rcases hfits with hnil | ⟨hbegin, hstop⟩
  · rw [hnil, writeAt_nil]
    exact ⟨rfl, fun _ _ => rfl⟩
  · refine ⟨writeAt_length (by omega) (by omega), fun i hout => ?_⟩
    unfold Patch.Covers at hout
    exact writeAt_outside (by omega) (by omega) (by omega)

theorem applyAll_append (patches' : List Patch) :
    applyAll content (patches ++ patches') = applyAll (applyAll content patches) patches' :=
  List.foldl_append

/-- **Frame.**  Patches that fit into their fields change nothing else. -/
theorem applyAll_frame (h : ∀ patch ∈ patches, patch.Inside content.length ∧ patch.Fits) :
    (applyAll content patches).length = content.length ∧
      ∀ i, (∀ patch ∈ patches, ¬ patch.Covers i) →
        (applyAll content patches)[i]? = content[i]? := by
  induction patches generalizing content with
  | nil => exact ⟨rfl, fun _ _ => rfl⟩
  | cons patch rest ih =>
    obtain ⟨hinside, hfits⟩ := h patch (by simp)
    obtain ⟨hlength, hframe⟩ := writeAt_frame hinside hfits
    have hlater : ∀ patch' ∈ rest,
        patch'.Inside (writeAt content patch.position patch.bytes).length ∧ patch'.Fits := by
      intro patch' hmem
      rw [hlength]
      exact h patch' (by simp [hmem])
    obtain ⟨hrest, hsame⟩ := ih hlater
    refine ⟨hrest.trans hlength, fun i hi => ?_⟩
    exact (hsame i fun patch' hmem => hi patch' (by simp [hmem])).trans
      (hframe i (hi patch (by simp)))

theorem framed_applyAll (h : ∀ patch ∈ patches, patch.Inside content.length ∧ patch.Fits) :
    Framed content (applyAll content patches) patches where
  length := (applyAll_frame h).1
  fields i hne := by
    by_contra hnone
    exact hne ((applyAll_frame h).2 i fun patch hmem hcovers => hnone ⟨patch, hmem, hcovers⟩)
  fits patch hmem := (h patch hmem).2

theorem byteAt_congr {content' : List UInt8} {p : Int}
    (h : content'[p.toNat]? = content[p.toNat]?) :
    byteAt content' p = byteAt content p := by
  simp only [byteAt, List.getD_eq_getElem?_getD, h]

/-- A piece that is apart from all the fields is as it was. -/
theorem same_of_apart (h : ∀ patch ∈ patches, patch.Inside content.length ∧ patch.Fits) {e : Extent}
    (hin : e.Within content)
    (hapart : ∀ patch ∈ patches,
      e.start + e.size ≤ patch.start ∨ patch.start + patch.size ≤ e.start) :
    e.Same content (applyAll content patches) := by
  obtain ⟨hlength, hsame⟩ := applyAll_frame h
  obtain ⟨hstart, hend⟩ := hin
  refine ⟨⟨hstart, by rw [hlength]; exact hend⟩, List.map_congr_left fun i hi => ?_⟩
  have hlt := List.mem_range.mp hi
  refine (byteAt_congr (hsame _ fun patch hmem hcovers => ?_)).symm
  obtain ⟨hle, hlt'⟩ := hcovers
  have := hapart patch hmem
  omega

end Patches

end FilePatch

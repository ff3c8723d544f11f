import Mathlib.Data.List.TakeWhile
import Tint.Exe.Fields
import Tint.Exe.Stamping
import Tint.Exe.VersionResource

/-!
# What stamping changes

The packager writes where the tree says, but as much as its own images and texts
have.  So it stays in the fields of a well-formed file exactly when these fit
(`Fitting`): an image has four bytes for each pixel of the width squared and is
written behind 40 bytes of header, and a text of `k` characters has `ucs2Length k`
bytes.
-/

namespace Stamping

open FileReader FilePatch ExeFile
open VersionInfo (Units units)

/-! ## Lengths -/

section Lengths

/-- The bytes that `convtoucs2` makes of `k` characters. -/
def ucs2Length (k : Nat) : Nat := 2 * k + (110 - 4 * k + 2) / 3

/-- The loop that fills up with zeros pushes three of them for two that are missing. -/
theorem pushZeros_length {m turns i : Nat} {z : List UInt8} (hz : z.length = m + i)
    (hturns : 110 ≤ 2 * m + 3 * (turns + i)) :
    (pushZeros turns i z).length = m + max i ((110 - 2 * m + 2) / 3) := by
  induction turns generalizing i z with
  | zero =>
    rw [pushZeros, hz]
    omega
  | succ turns ih =>
    rw [pushZeros]
    split
    · next hlt =>
      rw [ih (by rw [List.length_append, hz]; simp; omega) (by omega)]
      omega
    · next hlt => omega

/-- How many bytes a text becomes. -/
theorem convtoucs2_length {str : Units} (h : str.length ≤ 111) :
    (convtoucs2 str).length = ucs2Length str.length := by
  have hz : ((str.take 111).flatMap fun u => [UInt8.ofNat u, 0]).length = 2 * str.length + 0 := by
    rw [List.take_of_length_le h, List.length_flatMap]
    simp [Nat.mul_comm]
  rw [convtoucs2, pushZeros_length hz (by omega), ucs2Length]
  omega

theorem Image.buffer_length {size : Nat} (image : Image size) :
    image.buffer.length = 4 * (size * size) := by
  rw [Image.buffer, List.length_flatMap]
  simp [Nat.mul_comm]

end Lengths

/-! ## What is written -/

section Icons

variable {imgdata : Images}

/-- There is an icon below the entry, and an image for it. -/
def Stampable (imgdata : Images) (entry : Entry) : Bool :=
  ((icon? entry).bind (iconPatch imgdata)).isSome

/-- The icons before the first one that cannot be stamped. -/
def stampedIcons (imgdata : Images) (entries : List Entry) : List IconObj :=
  (((iconDb entries).getD []).takeWhile (Stampable imgdata)).filterMap icon?

/-- Every icon can be stamped. -/
def AllStamped (imgdata : Images) (entries : List Entry) : Prop :=
  ∃ db, iconDb entries = some db ∧ ∀ entry ∈ db, Stampable imgdata entry

instance (imgdata : Images) (entries : List Entry) : Decidable (AllStamped imgdata entries) :=
  decidable_of_iff ((iconDb entries).any fun db => db.all (Stampable imgdata)) <| by
    unfold AllStamped
    cases iconDb entries with
    | none => simp
    | some db => simp

/-- Where the patch of an icon goes, and how long it is. -/
theorem iconPatch_fields {icon : IconObj} {patch : Patch}
    (h : iconPatch imgdata icon = some patch) :
    (patch.start = pixelStart icon ∧ patch.size = pixelSize icon ∧ patch.position = icon.position) ∧
      (patch.bytes.length : Int) = 4 * (icon.biWidth * icon.biWidth) := by
  unfold iconPatch at h
  split at h
  · next size hwidth =>
    obtain ⟨image, -, rfl⟩ := Option.map_eq_some_iff.mp h
    refine ⟨⟨rfl, rfl, rfl⟩, ?_⟩
    rw [hwidth, image.buffer_length]
    push_cast
    rfl
  · cases h

/-- The icons up to the first that cannot be stamped are patched. -/
theorem stampIcons_patches (iconDb : List Entry) : (stampIcons imgdata iconDb).patches =
    ((iconDb.takeWhile (Stampable imgdata)).filterMap icon?).filterMap (iconPatch imgdata) := by
  induction iconDb with
  | nil => rfl
  | cons entry rest ih =>
    rw [stampIcons, List.takeWhile_cons]
    cases hicon : icon? entry with
    | none => simp [Stampable, hicon]
    | some icon =>
      cases hpatch : iconPatch imgdata icon with
      | none => simp [Stampable, hicon, hpatch]
      | some patch => simp [Stampable, hicon, hpatch, ih]

/-- Stamping throws at an icon that cannot be stamped. -/
theorem stampIcons_threw (iconDb : List Entry) : (stampIcons imgdata iconDb).threw = false ↔
    ∀ entry ∈ iconDb, Stampable imgdata entry := by
  induction iconDb with
  | nil => simp [stampIcons]
  | cons entry rest ih =>
    rw [stampIcons, List.forall_mem_cons, ← ih, Stampable]
    cases (icon? entry).bind (iconPatch imgdata) <;> simp

/-- What all icon resources are patched with. -/
theorem iconStamps_patches (entries : List Entry) : (iconStamps imgdata entries).patches =
    (stampedIcons imgdata entries).filterMap (iconPatch imgdata) := by
  unfold iconStamps stampedIcons
  cases iconDb entries with
  | none => rfl
  | some db => exact stampIcons_patches db

/-- They throw if one of them does. -/
theorem iconStamps_threw (entries : List Entry) :
    (iconStamps imgdata entries).threw = false ↔ AllStamped imgdata entries := by
  unfold iconStamps AllStamped
  cases iconDb entries with
  | none => simp
  | some db => simpa using stampIcons_threw db

/-- An icon that is stamped has an image. -/
theorem stampedIcons_patch {entries : List Entry} {icon : IconObj}
    (h : icon ∈ stampedIcons imgdata entries) : ∃ patch, iconPatch imgdata icon = some patch := by
  obtain ⟨entry, hentry, hicon⟩ := List.mem_filterMap.mp h
  have hstampable := List.mem_takeWhile_imp hentry
  rw [Stampable, hicon, Option.bind_some] at hstampable
  exact Option.isSome_iff_exists.mp hstampable

end Icons

section Strings

variable {values : Values}

/-- The strings that have a value, before the first one that has to have one and
does not, with their values. -/
def writtenStrings (values : Values) (strings : List StringObj) : List (StringObj × Units) :=
  (strings.takeWhile fun s => action values (keyOf s.szKey) ≠ .throw).filterMap fun s =>
    match action values (keyOf s.szKey) with
    | .write value => some (s, value)
    | _ => none

/-- The strings that are written into a file with this tree. -/
def stampedStrings (values : Values) (entries : List Entry) : List (StringObj × Units) :=
  writtenStrings values ((container entries).getD [])

/-- The strings for which there is a value are patched with it. -/
theorem recurseManifest_patches (strings : List StringObj) :
    (recurseManifest values strings).patches =
    (writtenStrings values strings).map fun written => valuePatch written.1 written.2 := by
  induction strings with
  | nil => rfl
  | cons s rest ih =>
    rw [writtenStrings] at ih ⊢
    rw [recurseManifest, List.takeWhile_cons]
    cases haction : action values (keyOf s.szKey) with
    | write value => simp [haction, ih]
    | warn => simp [haction, ih]
    | throw => simp

/-- What the strings of the version resource are patched with. -/
theorem manifestStamps_patches (entries : List Entry) : (manifestStamps values entries).patches =
    (stampedStrings values entries).map fun written => valuePatch written.1 written.2 := by
  unfold manifestStamps stampedStrings
  cases container entries with
  | none => rfl
  | some strings => exact recurseManifest_patches strings

/-- A string that is written is one of the table. -/
theorem writtenStrings_mem {strings : List StringObj} {written : StringObj × Units}
    (h : written ∈ writtenStrings values strings) : written.1 ∈ strings := by
  obtain ⟨s, hs, hwritten⟩ := List.mem_filterMap.mp h
  split at hwritten
  · cases hwritten
    exact (List.takeWhile_sublist _).subset hs
  · cases hwritten

/-- An entry with entries of its own is a directory. -/
theorem directory?_some {entry : Entry} {entries : List Entry}
    (h : directory? entry = some entries) :
    ∃ name offsetToData, entry = .directory name offsetToData entries := by
  cases entry with
  | directory name offsetToData entries' =>
    cases h
    exact ⟨name, offsetToData, rfl⟩
  | data _ _ _ => cases h

/-- An entry with data is a data entry. -/
theorem data?_some {entry : Entry} {data : DataObj} (h : data? entry = some data) :
    ∃ name offsetToData, entry = .data name offsetToData data := by
  cases entry with
  | directory _ _ _ => cases h
  | data name offsetToData data' =>
    cases h
    exact ⟨name, offsetToData, rfl⟩

/-- The version resource that is found is held by an entry. -/
theorem versionInfo_holds {entries : List Entry} {version : VersionObj}
    (h : versionInfo entries = some version) :
    ∃ entry ∈ entries, ∃ data, entry.Holds data ∧ data.versionInfo = some version := by
  simp only [versionInfo, Option.bind_eq_bind, Option.bind_eq_some_iff] at h
  obtain ⟨types, htypes, names, hnames, name, hname, languages, hlanguages, language,
    hlanguage, data, hdata, hversion⟩ := h
  obtain ⟨_, _, rfl⟩ := directory?_some hnames
  obtain ⟨_, _, rfl⟩ := directory?_some hlanguages
  obtain ⟨_, _, rfl⟩ := data?_some hdata
  refine ⟨_, List.mem_of_getElem? htypes, data, ?_, hversion⟩
  exact .directory _ _ (List.mem_of_head? hname) (.directory _ _ (List.mem_of_head? hlanguage)
    (.data _ _ data))

/-- The first table belongs to the strings of its block. -/
theorem firstStrings_mem {children : InfoChildren} {strings : List StringObj}
    (h : firstStrings children = some strings) {s : StringObj} (hs : s ∈ strings) :
    s ∈ children.strings := by
  cases children with
  | tables tables =>
    obtain ⟨table, htable, rfl⟩ := Option.map_eq_some_iff.mp h
    exact List.mem_flatMap.mpr ⟨table, List.mem_of_head? htable, hs⟩
  | vars vars =>
    obtain ⟨var, -, hempty⟩ := Option.bind_eq_some_iff.mp h
    split at hempty
    · cases hempty
      cases hs
    · cases hempty

/-- The strings that `winmanifest` comes to are strings of the tree. -/
theorem container_mem {entries : List Entry} {strings : List StringObj}
    (h : container entries = some strings) {s : StringObj} (hs : s ∈ strings) :
    ∃ entry ∈ entries, ∃ data, entry.Holds data ∧ s ∈ data.strings := by
  simp only [container, Option.bind_eq_bind, Option.bind_eq_some_iff] at h
  obtain ⟨version, hversion, info, hinfo, hstrings⟩ := h
  obtain ⟨entry, hentry, data, hholds, hdata⟩ := versionInfo_holds hversion
  refine ⟨entry, hentry, data, hholds, ?_⟩
  rw [DataObj.strings, hdata]
  exact List.mem_flatMap.mpr ⟨info, List.mem_of_head? hinfo, firstStrings_mem hstrings hs⟩

/-- A string that is stamped is held by an entry. -/
theorem stampedStrings_mem {entries : List Entry} {written : StringObj × Units}
    (h : written ∈ stampedStrings values entries) :
    ∃ entry ∈ entries, ∃ data, entry.Holds data ∧ written.1 ∈ data.strings := by
  unfold stampedStrings at h
  cases hcontainer : container entries with
  | none =>
    rw [hcontainer] at h
    cases h
  | some strings =>
    rw [hcontainer] at h
    exact container_mem hcontainer (writtenStrings_mem h)

end Strings

/-! ## The frame -/

section Frame

variable {content : List UInt8} {stack : Nat} {entries : List Entry} {imgdata : Images}
  {values : Values}

/-- The icons of the tree. -/
def icons (entries : List Entry) : List IconObj := ((iconDb entries).getD []).filterMap icon?

/-- The piece is apart from the pixels of the icon. -/
def Apart (icon : IconObj) (e : Extent) : Prop :=
  e.start + e.size ≤ pixelStart icon ∨ pixelStart icon + pixelSize icon ≤ e.start

/-- A file with this tree: all its structures lie inside it, and so do the pixels
of its icons, which are no part of a structure. -/
structure WellFormed (content : List UInt8) (stack : Nat) (entries : List Entry) : Prop where
  tree : ∃ q reads, Runs content (WindowsExeRead stack) 0 (.ok entries) q reads ∧
    ∀ icon ∈ icons entries, ∀ e ∈ reads, Apart icon e
  pixels : ∀ icon ∈ icons entries, 0 ≤ pixelStart icon ∧ 0 ≤ pixelSize icon ∧
    pixelStart icon + pixelSize icon ≤ content.length

/-- An image of the icon's width, written at the 41st byte of the bitmap, stays in the pixels. -/
def Room (icon : IconObj) : Prop :=
  icon.biWidth = 0 ∨ pixelStart icon ≤ icon.position ∧
    icon.position + 4 * (icon.biWidth * icon.biWidth) ≤ pixelStart icon + pixelSize icon

instance (icon : IconObj) : Decidable (Room icon) :=
  inferInstanceAs (Decidable (_ ∨ _ ∧ _))

/-- The images and the texts fit. -/
structure Fitting (imgdata : Images) (values : Values) (entries : List Entry) : Prop where
  images : ∀ icon ∈ stampedIcons imgdata entries, Room icon
  strings : AllStamped imgdata entries → ∀ written ∈ stampedStrings values entries,
    ucs2Length (min 50 written.2.length) ≤ 2 * (written.1.value.length + 1)

instance (icon : IconObj) (e : Extent) : Decidable (Apart icon e) :=
  inferInstanceAs (Decidable (_ ∨ _))

theorem fitting_iff : Fitting imgdata values entries ↔
    (∀ icon ∈ stampedIcons imgdata entries, Room icon) ∧
    (AllStamped imgdata entries → ∀ written ∈ stampedStrings values entries,
      ucs2Length (min 50 written.2.length) ≤ 2 * (written.1.value.length + 1)) :=
  ⟨fun h => ⟨h.images, h.strings⟩, fun h => ⟨h.1, h.2⟩⟩

instance (imgdata : Images) (values : Values) (entries : List Entry) :
    Decidable (Fitting imgdata values entries) := decidable_of_iff' _ fitting_iff

/-- Whatever the buffers of the two readings hold, the packager ends, and changes
nothing but the fields that it has the positions of. -/
def StampsFields (content : List UInt8) (stack : Nat) (imgdata : Images) (values : Values) : Prop :=
  ∀ buffer buffer', ∃ bound, ∀ fuel, bound ≤ fuel → ∃ out,
    package stack fuel buffer buffer' imgdata values content = some out ∧
      Framed content out.content out.patches

/-- A file that can be read is stamped by what its tree says. -/
theorem stamp_of_runs {q : Int} {reads : List Extent}
    (h : Runs content (WindowsExeRead stack) 0 (.ok entries) q reads) :
    ∃ bound, ∀ fuel, bound ≤ fuel → ∀ buffer stamps, stamp stack fuel buffer stamps content =
      some ⟨(stamps entries).patches, (stamps entries).threw,
        applyAll content (stamps entries).patches⟩ := by
  obtain ⟨-, bound, hrun⟩ := h
  refine ⟨bound, fun fuel hle buffer stamps => ?_⟩
  rw [stamp, (WindowsExeRead stack).more (hrun buffer []) hle]

theorem icon_of_stamped {icon : IconObj} (h : icon ∈ stampedIcons imgdata entries) :
    icon ∈ icons entries :=
  ((List.takeWhile_sublist _).filterMap icon?).subset h

/-- The patch of an icon lies inside the file. -/
theorem WellFormed.icon_inside (h : WellFormed content stack entries) {patch : Patch}
    (hpatch : patch ∈ (iconStamps imgdata entries).patches) : patch.Inside content.length := by
  rw [iconStamps_patches] at hpatch
  obtain ⟨icon, hicon, hpatch⟩ := List.mem_filterMap.mp hpatch
  obtain ⟨⟨hstart, hsize, -⟩, -⟩ := iconPatch_fields hpatch
  obtain ⟨hbegin, -, hend⟩ := h.pixels icon (icon_of_stamped hicon)
  exact ⟨by rw [hstart]; exact hbegin, by rw [hstart, hsize]; exact hend⟩

/-- The patch of a string lies inside the file. -/
theorem WellFormed.string_inside (h : WellFormed content stack entries) {patch : Patch}
    (hpatch : patch ∈ (manifestStamps values entries).patches) : patch.Inside content.length := by
  rw [manifestStamps_patches] at hpatch
  obtain ⟨written, hwritten, rfl⟩ := List.mem_map.mp hpatch
  obtain ⟨entry, hentry, data, hholds, hs⟩ := stampedStrings_mem hwritten
  obtain ⟨q, reads, hruns, -⟩ := h.tree
  have hin := strings_within stack 0 _ q ⟨reads, hruns⟩ entry hentry data hholds written.1 hs
  unfold ValueWithin Within at hin
  unfold Patch.Inside valuePatch valueSize
  simp only
  omega

/-- The patch of an icon fits exactly when the image does. -/
theorem iconPatch_fits_iff {icon : IconObj} {patch : Patch}
    (h : iconPatch imgdata icon = some patch) :
    patch.Fits ↔ Room icon := by
  obtain ⟨⟨hstart, hsize, hposition⟩, hlength⟩ := iconPatch_fields h
  have hnil : patch.bytes = [] ↔ icon.biWidth = 0 := by
    rw [← List.length_eq_zero_iff, ← Int.natCast_eq_zero, hlength, mul_eq_zero, mul_self_eq_zero]
    exact or_iff_right (by decide)
  rw [Patch.Fits, Room, hnil, hstart, hsize, hposition, hlength]

/-- The patches of the icons fit exactly when the images do. -/
theorem icons_fit_iff : (∀ patch ∈ (iconStamps imgdata entries).patches, patch.Fits) ↔
    ∀ icon ∈ stampedIcons imgdata entries, Room icon := by
  rw [iconStamps_patches]
  constructor
  · intro h icon hicon
    obtain ⟨patch, hpatch⟩ := stampedIcons_patch hicon
    exact (iconPatch_fits_iff hpatch).mp (h patch (List.mem_filterMap.mpr ⟨icon, hicon, hpatch⟩))
  · intro h patch hpatch
    obtain ⟨icon, hicon, hpatch⟩ := List.mem_filterMap.mp hpatch
    exact (iconPatch_fits_iff hpatch).mpr (h icon hicon)

/-- The patches of the strings fit if no value is longer than what it replaces. -/
theorem strings_fit_iff : (∀ patch ∈ (manifestStamps values entries).patches, patch.Fits) ↔
    ∀ written ∈ stampedStrings values entries,
      ucs2Length (min 50 written.2.length) ≤ 2 * (written.1.value.length + 1) := by
  rw [manifestStamps_patches]
  refine List.forall_mem_map.trans (forall₂_congr fun written _ => ?_)
  have hlength :
      (convtoucs2 (written.2.take 50)).length = ucs2Length (min 50 written.2.length) := by
    rw [convtoucs2_length (by rw [List.length_take]; omega), List.length_take]
  have hpos : 0 < ucs2Length (min 50 written.2.length) := by
    unfold ucs2Length
    omega
  have hne : convtoucs2 (written.2.take 50) ≠ [] := by
    intro hnil
    rw [hnil] at hlength
    exact hpos.ne hlength
  unfold Patch.Fits valuePatch valueSize
  simp only [hne, hlength, false_or]
  omega

/-- What is written in both steps. -/
def allPatches (imgdata : Images) (values : Values) (entries : List Entry) : List Patch :=
  (iconStamps imgdata entries).patches ++
    if (iconStamps imgdata entries).threw then [] else (manifestStamps values entries).patches

/-- If the images fit, the second reading gives the same tree as the first. -/
theorem WellFormed.package_eq (values : Values) (h : WellFormed content stack entries)
    (hfits : ∀ patch ∈ (iconStamps imgdata entries).patches, patch.Fits) :
    ∃ bound, ∀ fuel, bound ≤ fuel → ∀ buffer buffer', ∃ threw,
      package stack fuel buffer buffer' imgdata values content = some
        ⟨allPatches imgdata values entries, threw,
          applyAll content (allPatches imgdata values entries)⟩ := by
  obtain ⟨q, reads, hruns, hapart⟩ := h.tree
  have hsame :
      ∀ e ∈ reads, e.Same content (applyAll content (iconStamps imgdata entries).patches) := by
    intro e he
    refine same_of_apart (fun patch hpatch => ⟨h.icon_inside hpatch, hfits patch hpatch⟩)
      (hruns.1 e he) ?_
    intro patch hpatch
    rw [iconStamps_patches] at hpatch
    obtain ⟨icon, hicon, hpatch⟩ := List.mem_filterMap.mp hpatch
    obtain ⟨⟨hstart, hsize, -⟩, -⟩ := iconPatch_fields hpatch
    rw [hstart, hsize]
    exact hapart icon (icon_of_stamped hicon) e he
  obtain ⟨bound, hfirst⟩ := stamp_of_runs hruns
  obtain ⟨bound', hsecond⟩ := stamp_of_runs (hruns.frame hsame)
  refine ⟨max bound bound', fun fuel hle buffer buffer' => ?_⟩
  have hicons := hfirst fuel (by omega) buffer (iconStamps imgdata)
  have hstrings := hsecond fuel (by omega) buffer' (manifestStamps values)
  unfold package stampwindows winmanifest allPatches
  simp only [hicons, Option.bind_eq_bind, Option.bind_some]
  split
  · exact ⟨_, by rw [List.append_nil]; rfl⟩
  · refine ⟨(manifestStamps values entries).threw, ?_⟩
    rw [hstrings, applyAll_append]
    rfl

/-- Whatever the packager does after the first reading, the patches of the icons
are among those it writes. -/
theorem WellFormed.icons_written (imgdata : Images) (values : Values)
    (h : WellFormed content stack entries) :
    ∃ bound, ∀ fuel, bound ≤ fuel → ∀ buffer buffer' out,
      package stack fuel buffer buffer' imgdata values content = some out →
        (iconStamps imgdata entries).patches ⊆ out.patches := by
  obtain ⟨q, reads, hruns, -⟩ := h.tree
  obtain ⟨bound, hfirst⟩ := stamp_of_runs hruns
  refine ⟨bound, fun fuel hle buffer buffer' out hout => ?_⟩
  have hicons := hfirst fuel hle buffer (iconStamps imgdata)
  unfold package stampwindows at hout
  simp only [hicons, Option.bind_eq_bind, Option.bind_some] at hout
  split at hout
  · cases hout
    exact List.Subset.refl _
  · obtain ⟨strings, -, hout⟩ := Option.bind_eq_some_iff.mp hout
    cases hout
    exact List.subset_append_left _ _

/-- If the fields fit, so do all patches. -/
theorem fits_of_fitting (h : Fitting imgdata values entries) :
    ∀ patch ∈ allPatches imgdata values entries, patch.Fits := by
  intro patch hpatch
  rcases List.mem_append.mp hpatch with hicon | hstring
  · exact icons_fit_iff.mpr h.images patch hicon
  · split at hstring
    · cases hstring
    · next hthrew =>
      have hall := (iconStamps_threw entries).mp (by simpa using hthrew)
      exact strings_fit_iff.mpr (h.strings hall) patch hstring

/-- If all patches fit, so do the fields. -/
theorem fitting_of_fits (h : ∀ patch ∈ allPatches imgdata values entries, patch.Fits) :
    Fitting imgdata values entries where
  images := icons_fit_iff.mp fun patch hpatch => h patch (List.mem_append_left _ hpatch)
  strings hall := by
    refine strings_fit_iff.mp fun patch hpatch => h patch (List.mem_append_right _ ?_)
    rwa [(iconStamps_threw entries).mpr hall]

/-- All patches lie inside the file. -/
theorem WellFormed.patches_inside (h : WellFormed content stack entries) :
    ∀ patch ∈ allPatches imgdata values entries, patch.Inside content.length := by
  intro patch hpatch
  rcases List.mem_append.mp hpatch with hicon | hstring
  · exact h.icon_inside hicon
  · split at hstring
    · cases hstring
    · exact h.string_inside hstring

/-- What keeps to its fields fits into them. -/
theorem fitting_of_stampsFields (h : WellFormed content stack entries)
    (hstamps : StampsFields content stack imgdata values) : Fitting imgdata values entries := by
  obtain ⟨bound, hframed⟩ := hstamps (fun _ _ => 0) fun _ _ => 0
  obtain ⟨bound', hwritten⟩ := h.icons_written imgdata values
  have hicons : ∀ patch ∈ (iconStamps imgdata entries).patches, patch.Fits := by
    obtain ⟨out, hout, hframe⟩ := hframed (max bound bound') (Nat.le_max_left _ _)
    have hsubset := hwritten _ (Nat.le_max_right bound bound') _ _ _ hout
    exact fun patch hpatch => hframe.fits patch (hsubset hpatch)
  obtain ⟨bound'', hpackage⟩ := h.package_eq values hicons
  obtain ⟨out, hout, hframe⟩ := hframed (max bound bound'') (Nat.le_max_left _ _)
  obtain ⟨threw, hall⟩ := hpackage _ (Nat.le_max_right bound bound'') (fun _ _ => 0) fun _ _ => 0
  obtain rfl := Option.some.inj (hout.symm.trans hall)
  exact fitting_of_fits hframe.fits

/-- **Stamping.**  The packager keeps to the fields of a well-formed file if and
only if the images and the texts fit into them. -/
theorem stampsFields_iff (content : List UInt8) (stack : Nat) (entries : List Entry)
    (imgdata : Images) (values : Values) (h : WellFormed content stack entries) :
    StampsFields content stack imgdata values ↔ Fitting imgdata values entries := by
  constructor
  · exact fitting_of_stampsFields h
  · intro hfitting buffer buffer'
    have hfits := fits_of_fitting hfitting
    obtain ⟨bound, hpackage⟩ := h.package_eq values (icons_fit_iff.mpr hfitting.images)
    refine ⟨bound, fun fuel hle => ?_⟩
    obtain ⟨threw, hall⟩ := hpackage fuel hle buffer buffer'
    exact ⟨_, hall, framed_applyAll fun patch hpatch =>
      ⟨h.patches_inside patch hpatch, hfits patch hpatch⟩⟩

end Frame

/-! ## An executable -/

section Sample

/-- The bytes of a word. -/
def wordBytes (n : Nat) : List UInt8 := [UInt8.ofNat (n % 256), UInt8.ofNat (n / 256 % 256)]

/-- The bytes of a double word. -/
def dwordBytes (n : Nat) : List UInt8 := wordBytes (n % 65536) ++ wordBytes (n / 65536)

/-- Bytes that are zero. -/
def zeros (n : Nat) : List UInt8 := List.replicate n 0

/-- The headers of a file with one section, of resources, from byte 352 on. -/
def sampleHeaders : List (List UInt8) :=
  [wordBytes IMAGE_DOS_SIGNATURE, zeros 58, dwordBytes 64,
    [0x50, 0x45, 0, 0], wordBytes 0x14C, wordBytes 1, zeros 12, wordBytes 224, wordBytes 0,
    wordBytes 0x10B, zeros 110, dwordBytes 0x1000, dwordBytes 498, zeros 104,
    zeros 8, dwordBytes 498, dwordBytes 0x1000, dwordBytes 498, dwordBytes 352, zeros 16]

/-- A directory, from its names and offsets. -/
def sampleDirectory (entries : List (Nat × Nat)) : List UInt8 :=
  zeros 14 ++ wordBytes entries.length ++ entries.flatMap fun e => dwordBytes e.1 ++ dwordBytes e.2

/-- The offset of a directory. -/
def below (offset : Nat) : Nat := 2 ^ 31 + offset

/-- The product name `tint`, and two translations. -/
def sampleVersion : VersionInfo.Resource :=
  { VersionInfo.evenSample with value := none, signed := by simp }

/-- An icon of one pixel, and a version resource. -/
def sampleResources : List (List UInt8) :=
  [sampleDirectory [(RT_ICON, below 40), (RT_GROUP_ICON, below 80), (RT_VERSION, below 96)],
    sampleDirectory [(1, below 160)], sampleDirectory [], sampleDirectory [],
    sampleDirectory [(1, below 120)], sampleDirectory [(0x409, 144)],
    dwordBytes 0x10F8, dwordBytes 250, zeros 8,
    sampleDirectory [(0x409, 184)], dwordBytes 0x10C8, dwordBytes 48, zeros 8,
    dwordBytes 40, dwordBytes 1, dwordBytes 2, wordBytes 1, wordBytes 32, zeros 4, dwordBytes 4,
    zeros 16, [0xAA, 0xBB, 0xCC, 0xFF], zeros 4,
    sampleVersion.words.flatMap wordBytes, zeros 2]

/-- An executable with one icon and one version resource. -/
def sampleExe : List UInt8 := (sampleHeaders ++ sampleResources).flatten

/-- An image of each size. -/
def sampleImages : Images := fun size => some ⟨zeros (size * size * 4), List.length_replicate⟩

/-- The product name `a`. -/
def sampleValues : Values := { longname := units ['a'] }

/-- The run gives a tree that satisfies `P`, with its reads. -/
def GivesTree (run : Option (Except String (List Entry) × State))
    (P : List Entry → List Extent → Prop) : Prop :=
  match run with
  | some (.ok entries, s) => P entries s.reads
  | _ => False

instance {run : Option (Except String (List Entry) × State)} {P : List Entry → List Extent → Prop}
    [∀ entries reads, Decidable (P entries reads)] : Decidable (GivesTree run P) :=
  match run with
  | some (.ok entries, s) => inferInstanceAs (Decidable (P entries s.reads))
  | some (.error _, _) => .isFalse id
  | none => .isFalse id

/-- The reads and the pixels are those of a well-formed file. -/
def Sound (content : List UInt8) (entries : List Entry) (reads : List Extent) : Prop :=
  (∀ e ∈ reads, e.Within content) ∧ (∀ icon ∈ icons entries, ∀ e ∈ reads, Apart icon e) ∧
    ∀ icon ∈ icons entries, 0 ≤ pixelStart icon ∧ 0 ≤ pixelSize icon ∧
      pixelStart icon + pixelSize icon ≤ content.length

instance (content : List UInt8) (entries : List Entry) (reads : List Extent) :
    Decidable (Sound content entries reads) :=
  inferInstanceAs (Decidable (_ ∧ _ ∧ _))

/-- A run decides whether a file is well formed. -/
theorem wellFormed_of_run {content : List UInt8} {stack : Nat} {P : List Entry → Prop} (fuel : Nat)
    (buffer : Nat → Nat → UInt8)
    (h : GivesTree ((WindowsExeRead stack).run ⟨content, buffer⟩ fuel ⟨0, []⟩) fun entries reads =>
      Sound content entries reads ∧ P entries) :
    ∃ entries, WellFormed content stack entries ∧ P entries := by
  unfold GivesTree at h
  split at h
  · next entries s hrun =>
    obtain ⟨⟨hin, hapart, hpixels⟩, hP⟩ := h
    have hruns : Runs content (WindowsExeRead stack) 0 (.ok entries) s.position s.reads :=
      Runs.of_run [] hrun hin
    exact ⟨entries, ⟨⟨s.position, s.reads, hruns, hapart⟩, hpixels⟩, hP⟩
  · exact absurd h id

theorem sample_overflows : ∃ entries, WellFormed sampleExe 8 entries ∧
    ¬ Fitting sampleImages sampleValues entries := by
  refine wellFormed_of_run 100 (fun _ _ => 0)
    (P := fun entries => ¬ Fitting sampleImages sampleValues entries) ?_
  decide +kernel

/-- With one pixel and a short name in the file, the name goes beyond its field. -/
theorem stampsFields_iff_sample : ∃ entries, WellFormed sampleExe 8 entries ∧
    (StampsFields sampleExe 8 sampleImages sampleValues ↔
      Fitting sampleImages sampleValues entries) := by
  obtain ⟨entries, hwell, -⟩ := sample_overflows
  exact ⟨entries, hwell, stampsFields_iff sampleExe 8 entries sampleImages sampleValues hwell⟩

/-- **A short name is not kept in its field.**  The value `tint` has ten bytes;
the name `a` is written with 38. -/
theorem value_overrun :
    ¬ ∀ (content : List UInt8) (stack : Nat) (entries : List Entry) (imgdata : Images)
      (values : Values),
      WellFormed content stack entries → StampsFields content stack imgdata values := by
  intro hall
  obtain ⟨entries, hwell, hoverflows⟩ := sample_overflows
  exact hoverflows (fitting_of_stampsFields hwell (hall _ _ _ sampleImages sampleValues hwell))

end Sample

end Stamping

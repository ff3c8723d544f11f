import Tint.StructEncoding

/-!
# The size of a struct type

`Struct` defines the fields one after the other and lays them all out again each time.
Where it accepts the fields, the struct has the size and the alignment that C gives it:
each field at the next multiple of its alignment, and padding behind the last one.

* `Struct_shape` -- `Struct` makes a type of C's size and alignment of fields with names
  of their own that are no array indices.
-/

namespace StructCache

open Alignment
open StructLayout (Shape reserved arrayIndex)
open StructTypes

/-- Fields of these sizes and alignments, one behind the other. -/
def layOut : List (Nat × Nat) → Nat × Nat → Nat × Nat
  | [], s => s
  | (size, alignment) :: rest, (pos, a) =>
    layOut rest (alignUp pos alignment + size, max a alignment)

/-- The size and alignment of a struct of them. -/
def structShape (fields : List (Nat × Nat)) : Nat × Nat :=
  let (pos, a) := layOut fields (0, 0)
  (alignUp pos a, a)

/-- Positions and alignments only grow. -/
theorem le_layOut (l : List (Nat × Nat)) (s : Nat × Nat) :
    s.1 ≤ (layOut l s).1 ∧ s.2 ≤ (layOut l s).2 := by
  induction l generalizing s with
  | nil => exact ⟨le_rfl, le_rfl⟩
  | cons f l ih =>
      obtain ⟨hpos, halign⟩ := ih (alignUp s.1 f.2 + f.1, max s.2 f.2)
      have hup := le_alignUp s.1 f.2
      exact ⟨(hup.trans (Nat.le_add_right _ _)).trans hpos, (le_max_left s.2 f.2).trans halign⟩

/-- A struct with a field has an alignment. -/
theorem structShape_pos {l : List (Nat × Nat)} (h : ∀ s ∈ l, 0 < s.2)
    (hsize : 0 < (structShape l).1) : 0 < (structShape l).2 := by
  cases l with
  | nil => exact absurd hsize (by decide)
  | cons f l =>
      have hle := (le_layOut l (alignUp 0 f.2 + f.1, max 0 f.2)).2
      have hpos := h f List.mem_cons_self
      have hmax : f.2 ≤ max 0 f.2 := le_max_right _ _
      exact hpos.trans_le (hmax.trans hle)

/-- And a size, if its fields have. -/
theorem structShape_size_pos {l : List (Nat × Nat)} (hne : l ≠ []) (h : ∀ s ∈ l, 0 < s.1) :
    0 < (structShape l).1 := by
  cases l with
  | nil => exact absurd rfl hne
  | cons f l =>
      have hle := (le_layOut l (alignUp 0 f.2 + f.1, max 0 f.2)).1
      have hpos := h f List.mem_cons_self
      have hend := le_alignUp (layOut l (alignUp 0 f.2 + f.1, max 0 f.2)).1
        (layOut l (alignUp 0 f.2 + f.1, max 0 f.2)).2
      exact (hpos.trans_le ((Nat.le_add_left _ _).trans hle)).trans_le hend

/-- The size and alignment of a type, where `ref` has them. -/
def MType.shape (P : Shape) (basic : String → Shape) : MType → Option (Nat × Nat)
  | .prim name =>
      if name = "void" then none
      else if name = "pointer" then some (P.size, P.alignment)
      else some ((basic name).size, (basic name).alignment)
  | .struct _ layout => some (layout.size, layout.alignment)
  | _ => none

theorem prim_shape_pos {P : Shape} {basic : String → Shape} {name : String} {s : Nat × Nat}
    (h : (MType.prim name).shape P basic = some s) : 0 < s.1 ∧ 0 < s.2 := by
  simp only [MType.shape] at h
  split at h
  · cases h
  · split at h
    · rw [← Option.some.inj h]
      exact ⟨P.size_pos, P.alignment_pos⟩
    · rw [← Option.some.inj h]
      exact ⟨(basic name).size_pos, (basic name).alignment_pos⟩

section Built

variable {P : Shape}

/-- The size and alignment that `recalc` takes for a field. -/
def used (P : Shape) (shapes : Shapes) (type : FieldType) : Nat × Nat :=
  (usedSize P shapes type, usedAlignment P shapes type)

/-- A field of a struct type: a scalar, a pointer or another struct, with a size. -/
structure Fits (P : Shape) (shapes : Shapes) (id : Nat) (f : String × FieldType) : Prop where
  part : f.2.part = f.2
  count : f.2.count = 1
  other : f.2 ≠ .struct id
  size : 0 < usedSize P shapes f.2
  alignment : 0 < usedAlignment P shapes f.2
  same : fieldAlignment P shapes f.2 = usedAlignment P shapes f.2
  name : isIndexed f = false

theorem addField_fits {shapes : Shapes} {id alignment : Nat} {f : String × FieldType}
    (h : Fits P shapes id f) (size : Nat) :
    addField P shapes id alignment size f.2 =
      some (alignUp size (usedAlignment P shapes f.2),
        alignUp size (usedAlignment P shapes f.2) + usedSize P shapes f.2) := by
  have hadd := @addType_congr P _ _ f.2 (@during_eq shapes id alignment f.2 h.other size) size
  rw [addField, h.part, hadd, addType, if_neg h.alignment.ne', h.count]
  rfl

/-- The second loop of `recalc`. -/
theorem place_layOut {shapes : Shapes} {id alignment : Nat} {fields : List (String × FieldType)}
    (h : ∀ f ∈ fields, Fits P shapes id f) (offset : String → Nat) (size a : Nat) :
    ∃ offset', place P shapes id alignment fields offset size =
        (offset', (layOut (fields.map fun f => used P shapes f.2) (size, a)).1, false) ∧
      (layOut (fields.map fun f => used P shapes f.2) (size, a)).2 =
        fields.foldl (fun a f => max a (fieldAlignment P shapes f.2)) a := by
  induction fields generalizing offset size a with
  | nil => exact ⟨offset, rfl, rfl⟩
  | cons f rest ih =>
      obtain ⟨name, type⟩ := f
      have hf := h _ List.mem_cons_self
      have hadd := @addField_fits P shapes id alignment _ hf size
      have hsame := hf.same
      obtain ⟨offset', hplace, halign⟩ := ih (fun f hf => h f (List.mem_cons_of_mem _ hf))
        (Function.update offset name (alignUp size (usedAlignment P shapes type)))
        (alignUp size (usedAlignment P shapes type) + usedSize P shapes type)
        (max a (usedAlignment P shapes type))
      refine ⟨offset', ?_, ?_⟩
      · rw [place, hadd]
        exact hplace
      · rw [List.foldl_cons, hsame]
        exact halign

theorem keys_fits {shapes : Shapes} {id : Nat} {fields : List (String × FieldType)}
    (h : ∀ f ∈ fields, Fits P shapes id f) : keys fields = fields := by
  have hnone : fields.filter isIndexed = [] :=
    List.filter_eq_nil_iff.mpr fun f hf => by simp [(h f hf).name]
  have hall : fields.filter (fun f => !isIndexed f) = fields :=
    List.filter_eq_self.mpr fun f hf => by simp [(h f hf).name]
  rw [keys, hnone, hall]
  rfl

/-- `recalc` gives the struct its size and alignment in C. -/
theorem recalc_fits {shapes : Shapes} {id : Nat} {fields : List (String × FieldType)}
    (h : ∀ f ∈ fields, Fits P shapes id f) (offset : String → Nat) :
    ∃ layout, recalc P shapes id fields offset = (layout, false) ∧
      (layout.size, layout.alignment) = structShape (fields.map fun f => used P shapes f.2) := by
  have hself : ∀ f ∈ fields, f.2.part ≠ .struct id := fun f hf => by
    rw [(h f hf).part]
    exact (h f hf).other
  obtain ⟨offset', hplace, halign⟩ :=
    @place_layOut P shapes id (structAlignment P shapes id fields) fields h offset 0 0
  rw [← structAlignment_eq hself] at halign
  simp only [recalc, keys_fits h, hplace, padded_eq]
  refine ⟨_, rfl, ?_⟩
  rw [← halign]
  rfl

/-- A struct type that has got fields and nothing else. -/
structure Built (P : Shape) (types₀ types : Types) (id : Nat) (fields : List (String × FieldType)) :
    Prop where
  fits : ∀ f ∈ fields, Fits P (shapes types₀) id f
  defined : (types id).fields = fields
  properties : (types id).properties = fields.map Prod.fst
  created : (types id).instanceCreated = false
  shape : shapes types id = structShape (fields.map fun f => used P (shapes types₀) f.2)
  others : ∀ b, b ≠ id → types b = types₀ b

theorem Fits.congr {shapes shapes' : Shapes} {id : Nat} {f : String × FieldType}
    (h : Fits P shapes id f) (hothers : ∀ b, b ≠ id → shapes b = shapes' b) :
    Fits P shapes' id f ∧ used P shapes f.2 = used P shapes' f.2 := by
  have hshapes : ∀ b, f.2 = .struct b → shapes b = shapes' b := by
    intro b hb
    apply hothers
    intro heq
    exact h.other (heq ▸ hb)
  have hsize := usedSize_congr (P := P) f.2 hshapes
  have halign := usedAlignment_congr (P := P) hshapes
  have hsame := fieldAlignment_congr (P := P) hshapes
  refine ⟨⟨h.part, h.count, h.other, ?_, ?_, ?_, h.name⟩, ?_⟩
  · rw [← hsize]
    exact h.size
  · rw [← halign]
    exact h.alignment
  · rw [← hsame, ← halign]
    exact h.same
  · rw [used, used, hsize, halign]

/-- A field with a size is no reason to refuse it. -/
theorem Fits.sized {shapes : Shapes} {id : Nat} {f : String × FieldType} (h : Fits P shapes id f) :
    f.2.indirection > 1 ∨ f.2.size shapes > 0 := by
  by_cases hone : f.2.indirection = 1
  · have hsize := h.size
    rw [usedSize, if_pos hone] at hsize
    exact .inr hsize
  · have hpos := f.2.indirection_pos
    exact .inl (by omega)

/-- One more field. -/
theorem Built.define {types₀ types : Types} {id : Nat} {fields : List (String × FieldType)}
    (h : Built P types₀ types id fields) {f : String × FieldType} (hf : Fits P (shapes types₀) id f)
    (hreserved : f.1 ∉ reserved) (hnew : f.1 ∉ fields.map Prod.fst) :
    refusal types id f.1 f.2 = none ∧
      Built P types₀ (defineProperty P types id f.1 f.2) id (fields ++ [f]) := by
  have hshapes : ∀ b, b ≠ id → shapes types₀ b = shapes types b := by
    intro b hb
    rw [shapes, shapes, h.others b hb]
  have hrefusal : refusal types id f.1 f.2 = none := by
    have hsized := ((hf.congr hshapes).1).sized
    simp [refusal, h.created, hsized, hreserved, h.properties, hnew]
  have hall : ∀ g ∈ fields ++ [f], Fits P (shapes types₀) id g := by
    intro g hg
    rcases List.mem_append.mp hg with hg | hg
    · exact h.fits g hg
    · rw [List.mem_singleton.mp hg]
      exact hf
  have hset : setField (types id).fields f.1 f.2 = fields ++ [f] := by
    rw [setField, h.defined, if_neg hnew]
  obtain ⟨layout, hrecalc, hlayout⟩ := recalc_fits (fun g hg => ((hall g hg).congr hshapes).1)
    (types id).layout.offset
  have hused : (fields ++ [f]).map (fun g => used P (shapes types) g.2) =
      (fields ++ [f]).map fun g => used P (shapes types₀) g.2 :=
    List.map_congr_left fun g hg => ((hall g hg).congr hshapes).2.symm
  rw [hused] at hlayout
  have hdefine : defineProperty P types id f.1 f.2 =
      Function.update types id
        { types id with
          fields := fields ++ [f]
          layout
          properties := fields.map Prod.fst ++ [f.1] } := by
    simp only [defineProperty, hrefusal, hset, hrecalc, h.properties]
    rfl
  refine ⟨hrefusal, hall, ?_, ?_, ?_, ?_, ?_⟩
  · rw [hdefine, Function.update_self]
  · rw [hdefine, Function.update_self]
    simp
  · rw [hdefine, Function.update_self]
    exact h.created
  · rw [hdefine, shapes, Function.update_self]
    exact hlayout
  · intro b hb
    rw [hdefine, Function.update_of_ne hb]
    exact h.others b hb

end Built

section Struct

variable {P : Shape} {basic : String → Shape}

/-- A name that a field may have and that is no array index. -/
def FieldName (name : Text) : Prop :=
  String.ofList name ∉ reserved ∧ arrayIndex (String.ofList name) = none

/-- A type with a size is the type of a field. -/
theorem fieldType_fits {props : List (Text × MType)} {i : Nat} {prop : Text × MType}
    (hi : props[i]? = some prop) (hname : FieldName prop.1) {s : Nat × Nat}
    (hs : prop.2.shape P basic = some s)
    (hpos : 0 < s.1 ∧ 0 < s.2) :
    ∃ type, fieldType basic i prop.2 = some type ∧
      Fits P (shapes (embedded props)) props.length (String.ofList prop.1, type) ∧
      used P (shapes (embedded props)) type = s := by
  have hindex : ∀ type, isIndexed (String.ofList prop.1, type) = false := by
    intro type
    rw [isIndexed, hname.2]
    rfl
  have hlt : i < props.length := (List.getElem?_eq_some_iff.mp hi).1
  obtain ⟨name, t⟩ := prop
  cases t with
  | inherited name => cases hs
  | undefined => cases hs
  | prim type =>
      simp only [MType.shape] at hs
      split at hs
      · cases hs
      · next hvoid =>
        split at hs
        · next hpointer =>
          obtain rfl := Option.some.inj hs
          refine ⟨.voidPointer, ?_,
            ⟨rfl, rfl, fun heq => (by cases heq), P.size_pos, P.alignment_pos, rfl, hindex _⟩, rfl⟩
          simp only [fieldType, if_neg hvoid, if_pos hpointer]
        · next hpointer =>
          obtain rfl := Option.some.inj hs
          have hne : (basic type).alignment ≠ 0 := (basic type).alignment_pos.ne'
          have hsame : ∀ shapes,
              fieldAlignment P shapes (.scalar (basic type)) = (basic type).alignment := by
            intro shapes
            simp [fieldAlignment, FieldType.indirection, FieldType.alignment, hne]
          refine ⟨.scalar (basic type), ?_,
            ⟨rfl, rfl, fun heq => (by cases heq), hpos.1, hpos.2, hsame _, hindex _⟩, rfl⟩
          simp only [fieldType, if_neg hvoid, if_neg hpointer]
  | struct fields layout =>
      obtain rfl := Option.some.inj hs
      have hshape : shapes (embedded props) i = (layout.size, layout.alignment) := by
        rw [shapes, embedded, hi]
      have hused : used P (shapes (embedded props)) (.struct i) = (layout.size, layout.alignment) :=
        hshape
      have hother : FieldType.struct i ≠ .struct props.length := by
        intro heq
        exact hlt.ne (FieldType.struct.inj heq)
      obtain ⟨hsize, halign⟩ := Prod.mk.inj hused
      have hne : (FieldType.struct i).alignment (shapes (embedded props)) ≠ 0 := by
        change usedAlignment P (shapes (embedded props)) (.struct i) ≠ 0
        rw [halign]
        exact hpos.2.ne'
      have hsame : fieldAlignment P (shapes (embedded props)) (.struct i) =
          usedAlignment P (shapes (embedded props)) (.struct i) := by
        have hone : ¬ (FieldType.struct i).indirection > 1 := Nat.lt_irrefl 1
        rw [fieldAlignment, if_neg hone, if_neg hne]
        rfl
      refine ⟨.struct i, rfl, ⟨rfl, rfl, hother, ?_, ?_, hsame, hindex _⟩, hused⟩
      · rw [hsize]
        exact hpos.1
      · rw [halign]
        exact hpos.2

/-- The fields are defined one after the other. -/
theorem foldlM_built {types₀ : Types} {id : Nat} {size : MType → Nat × Nat}
    (rest : List (Text × MType)) (k : Nat)
    (hrest : ∀ p ∈ rest.zipIdx k, FieldName p.1.1 ∧ ∃ type, fieldType basic p.2 p.1.2 = some type ∧
      Fits P (shapes types₀) id (String.ofList p.1.1, type) ∧
        used P (shapes types₀) type = size p.1.2)
    {types : Types} {fields : List (String × FieldType)} (h : Built P types₀ types id fields)
    (hnodup : (fields.map Prod.fst ++ rest.map fun p => String.ofList p.1).Nodup) :
    ∃ types' fields', (rest.zipIdx k).foldlM (addProp P basic id) types = some types' ∧
      Built P types₀ types' id fields' ∧
      fields'.map (fun f => used P (shapes types₀) f.2) =
        fields.map (fun f => used P (shapes types₀) f.2) ++ rest.map fun p => size p.2 := by
  induction rest generalizing k types fields with
  | nil => exact ⟨types, fields, rfl, h, by simp⟩
  | cons prop rest ih =>
      obtain ⟨hname, type, htype, hfits, hsize⟩ := hrest (prop, k) (by simp)
      have hnew : String.ofList prop.1 ∉ fields.map Prod.fst := by
        intro hmem
        exact (List.nodup_append.mp hnodup).2.2 _ hmem _ (by simp) rfl
      obtain ⟨hrefusal, hbuilt⟩ := h.define hfits hname.1 hnew
      have hadd : addProp P basic id types (prop, k) =
          some (defineProperty P types id (String.ofList prop.1) type) := by
        have hmem : String.ofList prop.1 ∈
            (defineProperty P types id (String.ofList prop.1) type id).properties := by
          rw [hbuilt.properties]
          simp
        simp only [addProp, htype, hrefusal, if_pos hmem]
      obtain ⟨types', fields', hfold, hbuilt', hsizes⟩ := ih (k + 1)
        (fun p hp => hrest p (by simp [List.zipIdx_cons, hp])) hbuilt (by simpa using hnodup)
      refine ⟨types', fields', ?_, hbuilt', ?_⟩
      · rw [List.zipIdx_cons, List.foldlM_cons, hadd]
        exact hfold
      · rw [hsizes]
        simp [hsize]

/-- **The size of a struct.**  `Struct` makes a type of C's size and alignment. -/
theorem Struct_shape {props : List (Text × MType)} (hnames : ∀ p ∈ props, FieldName p.1)
    (hnodup : (props.map Prod.fst).Nodup)
    (hshapes : ∀ p ∈ props, ∃ s, p.2.shape P basic = some s ∧ 0 < s.1 ∧ 0 < s.2) :
    ∃ layout, Struct P basic props = .struct props layout ∧
      (layout.size, layout.alignment) =
        structShape (props.map fun p => (p.2.shape P basic).getD (0, 0)) := by
  have hstart : Built P (embedded props) (embedded props) props.length [] := by
    have hempty : embedded props props.length = .empty := by
      rw [embedded, List.getElem?_eq_none le_rfl]
    refine ⟨fun f hf => (by cases hf), ?_, ?_, ?_, ?_, fun b _ => rfl⟩
    · rw [hempty]
      rfl
    · rw [hempty]
      rfl
    · rw [hempty]
      rfl
    · rw [shapes, hempty]
      rfl
  have hinjective : Function.Injective String.ofList := fun a b hab => by
    simpa using congrArg String.toList hab
  have hnodup' : (props.map fun p => String.ofList p.1).Nodup := by
    have hmap := hnodup.map hinjective
    rwa [List.map_map] at hmap
  obtain ⟨types', fields', hfold, hbuilt, hsizes⟩ :=
    @foldlM_built P basic (embedded props) props.length
    (fun t => (t.shape P basic).getD (0, 0)) props 0
    (fun p hp => by
      have hi := List.mk_mem_zipIdx_iff_getElem?.mp hp
      have hmem : p.1 ∈ props := List.mem_of_getElem? hi
      obtain ⟨s, hs, hpos⟩ := hshapes p.1 hmem
      refine ⟨hnames p.1 hmem, ?_⟩
      rw [hs]
      exact fieldType_fits hi (hnames p.1 hmem) hs hpos)
    (embedded props) [] hstart (by simpa using hnodup')
  refine ⟨(types' props.length).layout, ?_, ?_⟩
  · rw [Struct_eq, hfold]
    rfl
  · have hshape := hbuilt.shape
    rw [hsizes] at hshape
    exact hshape

end Struct

end StructCache

import Tint.StructEncoding

/-!
# Struct types without the cache

`read` is what `getStruct` makes of a text if it keeps nothing: the types of the fields,
read in turn, and a struct type of them.  `structCache` changes nothing of it in a set of
texts in which no struct is found under the name that another one was kept under, unless
both have the same properties.

* `getStruct_right` -- in a consistent set, with a cache that holds what was read,
  `getStruct` returns what is read and keeps the cache so.
-/

namespace StructCache

open StructLayout (Shape)

section Read

variable (P : Shape) (basic : String → Shape) (known : Text → Option Text)

/-- What `getStruct` parses: the text, or the one that is known under its name. -/
def parsed (text : Text) : Text × List (Text × Option Text) :=
  parseStruct ((known (parseStructName text)).getD text)

/-- The properties with their types, if each has one. -/
def readProps (read : Text → Option MType) :
    List (Text × Option Text) → Option (List (Text × MType))
  | [] => some []
  | (_, none) :: _ => none
  | (name, some type) :: rest =>
      match read type, readProps read rest with
      | some t, some props => some ((name, t) :: props)
      | _, _ => none

/-- The type of a property, where that of a struct is given. -/
def readField (read : Text → Option MType) (type : Text) : Option MType :=
  if type = [] then none
  else if isStruct type then read type
  else (mapCode type).toOption

/-- The struct type of a text, unless structs are nested too deep. -/
def read : Nat → Text → Option MType
  | 0, _ => none
  | depth + 1, text =>
      (readProps (readField (read depth)) (parsed known text).2).bind
        fun props => entry (Struct P basic props)

/-- The text is read as the type. -/
def Reads (text : Text) (t : MType) : Prop := ∃ depth, read P basic known depth text = some t

/-- What `getStruct` makes of the types of the properties, and keeps under a name. -/
def make (name : Text) :
    Except Exception (List (Text × MType)) × Cache → Except Exception MType × Cache
  | (.error e, cache) => (.error e, cache)
  | (.ok props, cache) =>
      (.ok (Struct P basic props), Function.update cache name (entry (Struct P basic props)))

/-- **No sharing.**  The structs among the properties of the texts are texts of the set; if
one is looked up under what another was kept under, both have the same properties. -/
structure Consistent (T : Set Text) : Prop where
  closed : ∀ t ∈ T, ∀ name type, (name, some type) ∈ (parsed known t).2 → isStruct type → type ∈ T
  shared : ∀ t ∈ T, ∀ t' ∈ T, (parsed known t).1 = t' ∨ (parsed known t).1 = parseStructName t' →
    (parsed known t).2 = (parsed known t').2
  inherited : ∀ t ∈ T, t ∉ objectPrototype ∧ parseStructName t ∉ objectPrototype

/-- What the cache holds for a text of the set is what the text is read as. -/
def Sound (T : Set Text) (cache : Cache) : Prop :=
  ∀ t ∈ T, ∀ key z, key = t ∨ key = parseStructName t → cache key = some z → Reads P basic known t z

/-- A result for a text is what it is read as, or undefined if it is read as nothing. -/
def Agrees (text : Text) (t : MType) : Prop :=
  Reads P basic known text t ∨ t = .undefined ∧ ∀ t', ¬ Reads P basic known text t'

end Read

/-! ## Reading -/

section Results

variable {P : Shape} {basic : String → Shape} {known : Text → Option Text}

theorem readProps_mono {g g' : Text → Option MType} {properties : List (Text × Option Text)}
    (h : ∀ name type, (name, some type) ∈ properties → ∀ t, g type = some t → g' type = some t)
    {props : List (Text × MType)} (hprops : readProps g properties = some props) :
    readProps g' properties = some props := by
  induction properties generalizing props with
  | nil => exact hprops
  | cons f rest ih =>
      obtain ⟨name, type | type⟩ := f
      · cases hprops
      · simp only [readProps] at hprops ⊢
        split at hprops
        · next t props' ht hrest =>
          have hrest' := ih (fun name type hf => h name type (List.mem_cons_of_mem _ hf)) hrest
          rw [h name type List.mem_cons_self t ht, hrest']
          exact hprops
        · cases hprops

theorem readField_mono {g g' : Text → Option MType} {type : Text}
    (h : ∀ t, g type = some t → g' type = some t)
    {t : MType} (ht : readField g type = some t) : readField g' type = some t := by
  unfold readField at ht ⊢
  split at ht
  · cases ht
  · next hne =>
    rw [if_neg hne]
    split at ht
    · next hstruct =>
      rw [if_pos hstruct]
      exact h t ht
    · next hstruct =>
      rw [if_neg hstruct]
      exact ht

/-- More depth gives the same type. -/
theorem read_mono {depth depth' : Nat} (hle : depth ≤ depth') {text : Text} {t : MType}
    (h : read P basic known depth text = some t) : read P basic known depth' text = some t := by
  induction depth generalizing depth' text t with
  | zero => cases h
  | succ depth ih =>
      obtain ⟨d, rfl⟩ : ∃ d, depth' = d + 1 := ⟨depth' - 1, by omega⟩
      rw [read] at h ⊢
      obtain ⟨props, hprops, ht⟩ := Option.bind_eq_some_iff.mp h
      refine Option.bind_eq_some_iff.mpr ⟨props, readProps_mono (fun _ type _ t => ?_) hprops, ht⟩
      exact readField_mono fun t ht => ih (by omega) ht

theorem readProps_depth {depth depth' : Nat} (hle : depth ≤ depth')
    {properties : List (Text × Option Text)} {props : List (Text × MType)}
    (h : readProps (readField (read P basic known depth)) properties = some props) :
    readProps (readField (read P basic known depth')) properties = some props :=
  readProps_mono (fun _ _ _ _ => readField_mono fun _ => read_mono hle) h

/-- A text is read as one type. -/
theorem Reads.unique {text : Text} {t t' : MType} (h : Reads P basic known text t)
    (h' : Reads P basic known text t') : t = t' := by
  obtain ⟨d, hd⟩ := h
  obtain ⟨d', hd'⟩ := h'
  have hmax := read_mono (Nat.le_max_left d d') hd
  rw [read_mono (Nat.le_max_right d d') hd'] at hmax
  exact (Option.some.inj hmax).symm

/-- Texts with the same properties are read alike. -/
theorem Reads.congr {text text' : Text} {t : MType} (h : Reads P basic known text t)
    (hparsed : (parsed known text).2 = (parsed known text').2) : Reads P basic known text' t := by
  obtain ⟨depth, hdepth⟩ := h
  cases depth with
  | zero => cases hdepth
  | succ depth =>
      refine ⟨depth + 1, ?_⟩
      rwa [read, ← hparsed, ← read]

theorem entry_eq_some {t t' : MType} (h : entry t = some t') : t = t' := by
  cases t with
  | undefined => cases h
  | prim name => exact Option.some.inj h
  | struct fields layout => exact Option.some.inj h
  | inherited name => exact Option.some.inj h

theorem foldlM_eq_none {α σ : Type} {f : σ → α → Option σ} {a : α} (h : ∀ s, f s a = none)
    {l : List α} (hmem : a ∈ l) (s : σ) : l.foldlM f s = none := by
  induction l generalizing s with
  | nil => cases hmem
  | cons b l ih =>
      rw [List.foldlM_cons]
      rcases List.mem_cons.mp hmem with rfl | hmem
      · rw [h s]
        rfl
      · cases hb : f s b with
        | none => rfl
        | some s' => exact ih hmem s'

/-- `Struct` throws where the type of a field is undefined. -/
theorem Struct_undefined {props : List (Text × MType)} {prop : Text × MType} (hmem : prop ∈ props)
    (h : prop.2 = .undefined) : Struct P basic props = .undefined := by
  obtain ⟨i, hi⟩ := List.mem_iff_getElem?.mp hmem
  have hzip : (prop, i) ∈ props.zipIdx := List.mk_mem_zipIdx_iff_getElem?.mpr hi
  have hadd : ∀ types, addProp P basic props.length types (prop, i) = none := fun types => by
    simp only [addProp, h, fieldType]
  rw [Struct]
  simp only [foldlM_eq_none hadd hzip]

theorem Struct_ne_prim (props : List (Text × MType)) (name : String) :
    Struct P basic props ≠ .prim name := by
  rw [Struct]
  split <;> simp

theorem Struct_ne_inherited (props : List (Text × MType)) (name : Text) :
    Struct P basic props ≠ .inherited name := by
  rw [Struct]
  split <;> simp

/-! ## The cache -/

variable {T : Set Text}

variable (P basic known T) in
/-- What is right of a result, where `f` gives what should come out if structs are nested
no deeper, and `Bad` results are those that hold an undefined type. -/
structure Right {α : Type} (Bad : α → Prop) (stack : Nat) (f : Nat → Option α)
    (result : Except Exception α × Cache) : Prop where
  sound : Sound P basic known T result.2
  agrees : ∀ a, result.1 = .ok a → (∃ depth, f depth = some a) ∨ Bad a ∧ ∀ depth, f depth = none
  total : ∀ a depth, f depth = some a → depth ≤ stack → result.1 = .ok a

/-- The type is undefined. -/
def IsUndefined (t : MType) : Prop := t = .undefined

/-- One of the types is undefined. -/
def HasUndefined (props : List (Text × MType)) : Prop := ∃ prop ∈ props, prop.2 = .undefined

/-- If each type is mapped right, so are all. -/
theorem mapProps_right {stack : Nat} {g : Cache → Text → Except Exception MType × Cache}
    (properties : List (Text × Option Text)) {cache : Cache}
    (hg : ∀ cache, Sound P basic known T cache → ∀ name type, (name, some type) ∈ properties →
      Right P basic known T IsUndefined stack
        (fun depth => readField (read P basic known depth) type) (g cache type))
    (hcache : Sound P basic known T cache) :
    Right P basic known T HasUndefined stack
      (fun depth => readProps (readField (read P basic known depth)) properties)
      (mapProps g properties cache) := by
  induction properties generalizing cache with
  | nil =>
      refine ⟨hcache, fun props hprops => .inl ⟨0, ?_⟩, fun props depth hprops _ => ?_⟩
      · obtain rfl := Except.ok.inj hprops
        rfl
      · obtain rfl := Option.some.inj hprops
        rfl
  | cons f rest ih =>
      obtain ⟨name, type | type⟩ := f
      · exact ⟨hcache, fun props hprops => (by cases hprops),
          fun props depth hprops => (by cases hprops)⟩
      · obtain ⟨hsound, hagrees, htotal⟩ := hg cache hcache name type List.mem_cons_self
        simp only [mapProps]
        generalize g cache type = r at hsound hagrees htotal
        obtain ⟨e | t, cache₁⟩ := r
        · refine ⟨hsound, fun props hprops => (by cases hprops), fun props depth hprops hle => ?_⟩
          simp only [readProps] at hprops
          split at hprops
          · next t props' ht hrest => cases htotal t depth ht hle
          · cases hprops
        · obtain ⟨hsound', hagrees', htotal'⟩ :=
            ih (fun cache hcache name type hf =>
              hg cache hcache name type (List.mem_cons_of_mem _ hf)) hsound
          simp only
          generalize mapProps g rest cache₁ = r' at hsound' hagrees' htotal'
          obtain ⟨e | props, cache₂⟩ := r'
          · refine ⟨hsound', fun props hprops => (by cases hprops),
              fun props depth hprops hle => ?_⟩
            simp only [readProps] at hprops
            split at hprops
            · next t props' ht hrest => cases htotal' props' depth hrest hle
            · cases hprops
          · refine ⟨hsound', fun all hall => ?_, fun all depth hall hle => ?_⟩
            · obtain rfl := Except.ok.inj hall
              rcases hagrees t rfl with ⟨d, hd⟩ | ⟨hundefined, hnone⟩
              · rcases hagrees' props rfl with ⟨d', hd'⟩ | ⟨⟨prop, hmem, hundefined⟩, hnone⟩
                · refine .inl ⟨max d d', ?_⟩
                  have ht := readField_mono (fun _ => read_mono (Nat.le_max_left d d')) hd
                  rw [readProps, ht, readProps_depth (Nat.le_max_right d d') hd']
                · refine .inr ⟨⟨prop, List.mem_cons_of_mem _ hmem, hundefined⟩, fun depth => ?_⟩
                  have hrest := hnone depth
                  simp only [readProps, hrest]
                  cases readField (read P basic known depth) type <;> rfl
              · refine .inr ⟨⟨_, List.mem_cons_self, hundefined⟩, fun depth => ?_⟩
                have hfirst := hnone depth
                simp only [readProps, hfirst]
            · simp only [readProps] at hall
              split at hall
              · next t' props' ht' hrest =>
                obtain rfl := Except.ok.inj (htotal t' depth ht' hle)
                obtain rfl := Except.ok.inj (htotal' props' depth hrest hle)
                exact congrArg Except.ok (Option.some.inj hall)
              · cases hall

/-- `map` is right about a type, if `getStruct` is about the structs. -/
theorem map_right {stack : Nat} {g : Cache → Text → Except Exception MType × Cache} {cache : Cache}
    (hcache : Sound P basic known T cache) {type : Text}
    (hg : isStruct type → Right P basic known T IsUndefined stack
      (fun depth => read P basic known depth type) (g cache type)) :
    Right P basic known T IsUndefined stack
      (fun depth => readField (read P basic known depth) type) (map g cache type) := by
  by_cases hne : type = []
  · simp only [readField, map, if_pos hne]
    exact ⟨hcache, fun t ht => (by cases ht), fun t depth ht => (by cases ht)⟩
  · by_cases hstruct : isStruct type
    · simp only [readField, map, if_neg hne, if_pos hstruct]
      exact hg hstruct
    · simp only [readField, map, if_neg hne, if_neg hstruct]
      refine ⟨hcache, fun t ht => .inl ⟨0, ?_⟩, fun t depth ht _ => ?_⟩
      · have hcode : mapCode type = .ok t := ht
        rw [hcode]
        rfl
      · change mapCode type = .ok t
        cases hcode : mapCode type with
        | error e => rw [hcode] at ht; cases ht
        | ok t' => rw [hcode] at ht; rw [Option.some.inj ht]

/-- What `getStruct` keeps. -/
theorem Sound.update (h : Consistent known T) {cache : Cache} (hcache : Sound P basic known T cache)
    {text : Text} (htext : text ∈ T) {z : MType}
    (hz : ∀ t, entry z = some t → Reads P basic known text t) :
    Sound P basic known T (Function.update cache (parsed known text).1 (entry z)) := by
  intro text' htext' key t hkey hvalue
  by_cases hk : key = (parsed known text).1
  · rw [hk, Function.update_self] at hvalue
    exact (hz t hvalue).congr (h.shared text htext text' htext' (hk ▸ hkey))
  · rw [Function.update_of_ne hk] at hvalue
    exact hcache text' htext' key t hkey hvalue

/-- What is found in the cache. -/
theorem Sound.lookup (h : Consistent known T) {cache : Cache} (hcache : Sound P basic known T cache)
    {text : Text} (htext : text ∈ T) {key : Text} (hkey : key = text ∨ key = parseStructName text)
    {t : MType} (ht : lookupName cache key = some t) : Reads P basic known text t := by
  have hnot : key ∉ objectPrototype := by
    rcases hkey with rfl | rfl
    · exact (h.inherited _ htext).1
    · exact (h.inherited _ htext).2
  unfold lookupName at ht
  split at ht
  · next t' hvalue =>
    obtain rfl := Option.some.inj ht
    exact hcache text htext key _ hkey hvalue
  · rw [if_neg hnot] at ht
    cases ht

/-- A type that was found is right. -/
theorem right_of_reads {stack : Nat} {cache : Cache}
    (hcache : Sound P basic known T cache) {text : Text}
    {t : MType} (ht : Reads P basic known text t) :
    Right P basic known T IsUndefined stack (fun depth => read P basic known depth text)
      (.ok t, cache) := by
  refine ⟨hcache, fun t' ht' => .inl ?_, fun t' depth ht' _ => ?_⟩
  · obtain rfl := Except.ok.inj ht'
    exact ht
  · exact congrArg Except.ok (ht.unique ⟨depth, ht'⟩)

/-- What is made of the types of the properties. -/
theorem made_of_props {text : Text} {props : List (Text × MType)}
    (h : (∃ depth,
        readProps (readField (read P basic known depth)) (parsed known text).2 = some props) ∨
      HasUndefined props ∧
        ∀ depth, readProps (readField (read P basic known depth)) (parsed known text).2 = none) :
    Agrees P basic known text (Struct P basic props) := by
  have hmade : ∀ t depth, read P basic known (depth + 1) text = some t →
      entry (Struct P basic props) = some t := by
    intro t depth ht
    rw [read] at ht
    obtain ⟨props', hprops', ht⟩ := Option.bind_eq_some_iff.mp ht
    rcases h with ⟨d, hd⟩ | ⟨-, hnone⟩
    · have hmax := readProps_depth (Nat.le_max_left d depth) hd
      rw [readProps_depth (Nat.le_max_right d depth) hprops'] at hmax
      rwa [Option.some.inj hmax] at ht
    · rw [hnone depth] at hprops'
      cases hprops'
  cases hstruct : Struct P basic props with
  | undefined =>
      refine .inr ⟨rfl, fun t ht => ?_⟩
      obtain ⟨depth, ht⟩ := ht
      cases depth with
      | zero => cases ht
      | succ depth =>
          have hentry := hmade t depth ht
          rw [hstruct] at hentry
          cases hentry
  | prim name => exact absurd hstruct (Struct_ne_prim props name)
  | inherited name => exact absurd hstruct (Struct_ne_inherited props name)
  | struct fields layout =>
      rcases h with ⟨depth, hdepth⟩ | ⟨⟨prop, hmem, hundefined⟩, -⟩
      · refine .inl ⟨depth + 1, ?_⟩
        rw [read, hdepth, Option.bind_some, hstruct]
        rfl
      · rw [Struct_undefined hmem hundefined] at hstruct
        cases hstruct

/-- What `getStruct` does where nothing is cached. -/
theorem made_right (h : Consistent known T) {stack : Nat} {text : Text} (htext : text ∈ T)
    {result : Except Exception (List (Text × MType)) × Cache}
    (hall : Right P basic known T HasUndefined stack
      (fun depth => readProps (readField (read P basic known depth)) (parsed known text).2)
      result) :
    Right P basic known T IsUndefined (stack + 1) (fun depth => read P basic known depth text)
      (make P basic (parsed known text).1 result) := by
  obtain ⟨e | props, cache⟩ := result
  · refine ⟨hall.sound, fun t ht => (by cases ht), fun t depth ht hle => ?_⟩
    cases depth with
    | zero => cases ht
    | succ depth =>
        obtain ⟨props, hprops, -⟩ := Option.bind_eq_some_iff.mp ht
        cases hall.total props depth hprops (by omega)
  · have hmade := made_of_props (hall.agrees props rfl)
    refine ⟨hall.sound.update h htext fun t ht => ?_, fun t ht => ?_, fun t depth ht hle => ?_⟩
    · rcases hmade with hmade | ⟨hundefined, -⟩
      · rwa [← entry_eq_some ht]
      · rw [hundefined] at ht
        cases ht
    · obtain rfl := Except.ok.inj ht
      rcases hmade with hmade | ⟨hundefined, hnone⟩
      · exact .inl hmade
      · refine .inr ⟨hundefined, fun depth => ?_⟩
        cases hread : read P basic known depth text with
        | none => rfl
        | some t => exact absurd ⟨depth, hread⟩ (hnone t)
    · rcases hmade with hmade | ⟨-, hnone⟩
      · exact congrArg Except.ok (hmade.unique ⟨depth, ht⟩)
      · exact absurd ⟨depth, ht⟩ (hnone t)

/-- **Transparency.**  `getStruct` returns what is read, and keeps the cache so. -/
theorem getStruct_right (h : Consistent known T) (stack : Nat) {cache : Cache}
    (hcache : Sound P basic known T cache) {text : Text} (htext : text ∈ T) :
    Right P basic known T IsUndefined stack (fun depth => read P basic known depth text)
      (getStruct P basic known stack cache text) := by
  induction stack generalizing cache text with
  | zero =>
      refine ⟨hcache, fun t ht => (by cases ht), fun t depth ht hle => ?_⟩
      obtain rfl := Nat.le_zero.mp hle
      cases ht
  | succ stack ih =>
      have hall := mapProps_right (g := map (getStruct P basic known stack)) (parsed known text).2
        (fun cache hcache name type hf => map_right hcache fun hstruct =>
          ih hcache (h.closed text htext name type hf hstruct)) hcache
      rw [getStruct]
      split
      · next t ht => exact right_of_reads hcache (hcache.lookup h htext (.inl rfl) ht)
      · split
        · next t ht => exact right_of_reads hcache (hcache.lookup h htext (.inr rfl) ht)
        · exact made_right h htext hall

end Results

end StructCache

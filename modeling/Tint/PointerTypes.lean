import Mathlib.Data.List.Basic

/-!
# Type names with stars

`coerceType` looks a string up in `ref.types`.  If there is no such name it takes the white
space out, turns the letters into small ones, counts and removes the stars, looks up what
is left and makes that many references to it.  `refType` makes an object whose prototype is
the type it refers to, so `derefType` finds that type again.

* `pointer_algebra_iff` -- `refType` and `derefType` are inverse, and a registered name
  followed by stars is a pointer that leads down to the type of the bare name, exactly
  when the string is that name itself or its small letters are registered for the type;
* `object_star` -- `Object *` is no type.
-/

namespace PointerTypes

/-- A text. -/
abbrev Text := List Char

/-- A type object: one made on its own, or with `Object.create`, where `indirection` and
`name` may be inherited. -/
inductive TypeObject
  | literal (id : Nat) (indirection : Int) (name : Option Text)
  | create (proto : TypeObject) (indirection : Option Int) (name : Option Text)
  deriving DecidableEq

namespace TypeObject

/-- `type.indirection` -/
def indirection : TypeObject → Int
  | literal _ indirection _ => indirection
  | create proto indirection _ => indirection.getD proto.indirection

/-- `type.name` -/
def name : TypeObject → Option Text
  | literal _ _ name => name
  | create proto _ name => name.or proto.name

/-- `Object.getPrototypeOf`, where that is a type object -/
def proto : TypeObject → Option TypeObject
  | literal _ _ _ => none
  | create proto _ _ => some proto

/-- What `refType` makes of a type object. -/
def ref (type : TypeObject) : TypeObject :=
  create type (some (type.indirection + 1))
    ((type.name.filter fun name => name ≠ []).map fun name => name ++ ['*'])

/-- The loop of `coerceType`: so many references. -/
def refs (type : TypeObject) : Nat → TypeObject
  | 0 => type
  | n + 1 => (type.refs n).ref

end TypeObject

/-- What is thrown, with the string that is no type. -/
inductive Exception
  | notAType (type : Text)
  | notAPointer
  deriving DecidableEq

/-- `[A-Za-z0-9_]` -/
def isWord (c : Char) : Bool :=
  (48 ≤ c.toNat && c.toNat ≤ 57) || (65 ≤ c.toNat && c.toNat ≤ 90) || c.toNat == 95 ||
    (97 ≤ c.toNat && c.toNat ≤ 122)

/-- `\s` -/
def isSpace (c : Char) : Bool :=
  (9 ≤ c.toNat && c.toNat ≤ 13) || c.toNat == 32 || c.toNat == 160 || c.toNat == 5760 ||
    (8192 ≤ c.toNat && c.toNat ≤ 8202) || c.toNat == 8232 || c.toNat == 8233 ||
    c.toNat == 8239 || c.toNat == 8287 || c.toNat == 12288 || c.toNat == 65279

/-- The types that are registered in `ref.types`: names are words, and a type is read and
written at least once. -/
structure Types where
  type : Text → Option TypeObject
  words : ∀ name t, type name = some t → ∀ c ∈ name, isWord c
  positive : ∀ name t, type name = some t → 1 ≤ t.indirection

/-- A letter of ASCII as a small one. -/
def small (c : Char) : Char :=
  if 65 ≤ c.toNat ∧ c.toNat ≤ 90 then Char.ofNat (c.toNat + 32) else c

/-- `toLowerCase`, of which only ASCII matters. -/
structure Lowercase where
  apply : Text → Text
  ascii : ∀ text, (∀ c ∈ text, c.toNat < 128) → apply text = text.map small

section Model

variable (types : Types) (toLowerCase : Lowercase)

/-- `type.replace(/\s+/g, '')` -/
def strip (type : Text) : Text := type.filter fun c => !isSpace c

/-- `coerceType` of a string -/
def coerceType (type : Text) : Except Exception TypeObject :=
  let notAType := Except.error (Exception.notAType type)
  match types.type type with
  | some rtn => .ok rtn
  | none =>
      let rtn := toLowerCase.apply (strip type)
      if rtn = "pointer".toList then
        match types.type "void".toList with
        | some void => .ok void.ref
        | none => notAType
      else if rtn = "string".toList then
        match types.type "CString".toList with
        | some cString => .ok cString
        | none => notAType
      else
        let refCount := rtn.count '*'
        match types.type (rtn.filter fun c => c ≠ '*') with
        | some rtn => .ok (rtn.refs refCount)
        | none => notAType

/-- `refType`, of a type object -/
def refType (type : TypeObject) : TypeObject := type.ref

/-- `derefType`, of a type object -/
def derefType (type : TypeObject) : Except Exception TypeObject :=
  if type.indirection = 1 then .error .notAPointer
  else
    match type.proto with
    | some rtn =>
        if rtn.indirection = type.indirection - 1 then .ok rtn
        else .ok (.create type (some (type.indirection - 1)) none)
    | none => .ok (.create type (some (type.indirection - 1)) none)

/-- `derefType` so many times -/
def derefTimes : Nat → TypeObject → Except Exception TypeObject
  | 0, type => .ok type
  | n + 1, type => (derefType type).bind (derefTimes n)

/-! ## The property and the condition -/

/-- The string is the name, a registered one, and so many stars, with white space anywhere. -/
def Spells (name : Text) (n : Nat) (type : Text) : Prop := strip type = name ++ List.replicate n '*'

/-- **A pointer.**  The type has that much more indirection than that of the bare name,
which `derefType` leads down to. -/
def PointsTo (name : Text) (n : Nat) (type : Text) : Prop :=
  ∃ base pointer, coerceType types toLowerCase name = .ok base ∧
    coerceType types toLowerCase type = .ok pointer ∧
    pointer.indirection = base.indirection + n ∧ derefTimes n pointer = .ok base

/-- `refType` and `derefType` undo each other's change of the indirection. -/
def Inverse : Prop :=
  (∀ type : TypeObject, 1 ≤ type.indirection → derefType (refType type) = .ok type) ∧
    ∀ type : TypeObject, 1 < type.indirection → ∃ target, derefType type = .ok target ∧
      target.indirection = type.indirection - 1 ∧ (refType target).indirection = type.indirection

/-- The type that a name in small letters stands for; `pointer` and `string` are names only
without a star. -/
def standsFor (name : Text) (n : Nat) : Option TypeObject :=
  if n = 0 ∧ name = "pointer".toList then (types.type "void".toList).map TypeObject.ref
  else if n = 0 ∧ name = "string".toList then types.type "CString".toList
  else types.type name

end Model

/-! ## References -/

@[simp] theorem indirection_ref (type : TypeObject) :
    type.ref.indirection = type.indirection + 1 := rfl

/-- `derefType` finds the type that was referred to. -/
theorem derefType_ref {type : TypeObject} (h : 1 ≤ type.indirection) :
    derefType type.ref = .ok type := by
  have hproto : type.ref.proto = some type := rfl
  rw [derefType, hproto, indirection_ref, if_neg (by omega)]
  exact if_pos (by omega)

/-- The target of a pointer has one indirection less. -/
theorem derefType_indirection {type : TypeObject} (h : 1 < type.indirection) :
    ∃ target, derefType type = .ok target ∧ target.indirection = type.indirection - 1 := by
  have hone : ¬ type.indirection = 1 := by omega
  simp only [derefType, hone, if_false]
  cases type.proto with
  | none => exact ⟨_, rfl, rfl⟩
  | some proto =>
      dsimp only
      split
      · next heq => exact ⟨proto, rfl, heq⟩
      · exact ⟨_, rfl, rfl⟩

/-- `derefType` undoes `refType`. -/
theorem inverse : Inverse := by
  refine ⟨fun type h => derefType_ref h, fun type h => ?_⟩
  obtain ⟨target, htarget, hindirection⟩ := derefType_indirection h
  refine ⟨target, htarget, hindirection, ?_⟩
  rw [refType, indirection_ref]
  omega

/-- So many references have that much more indirection and lead back. -/
theorem refs_spec {type : TypeObject} (h : 1 ≤ type.indirection) (n : Nat) :
    (type.refs n).indirection = type.indirection + n ∧ derefTimes n (type.refs n) = .ok type := by
  induction n with
  | zero => simp [TypeObject.refs, derefTimes]
  | succ n ih =>
      have hpos : 1 ≤ (type.refs n).indirection := by
        rw [ih.1]
        omega
      rw [TypeObject.refs, indirection_ref, ih.1, derefTimes, derefType_ref hpos]
      exact ⟨by push_cast; omega, ih.2⟩

/-! ## Names -/

theorem isWord_lt {c : Char} (h : isWord c) : c.toNat < 128 := by
  simp only [isWord, Bool.or_eq_true, Bool.and_eq_true, decide_eq_true_eq, beq_iff_eq] at h
  omega

/-- A word has no star and no white space, and neither have its small letters. -/
theorem isWord_small : ∀ c : Char, isWord c → c ≠ '*' ∧ isSpace c = false ∧ small c ≠ '*' := by
  have hall : ∀ n < 128, isWord (Char.ofNat n) → Char.ofNat n ≠ '*' ∧
      isSpace (Char.ofNat n) = false ∧ small (Char.ofNat n) ≠ '*' := by decide
  intro c hc
  have hofNat : Char.ofNat c.toNat = c := Char.ofNat_toNat c
  exact hofNat ▸ hall c.toNat (isWord_lt hc) (hofNat.symm ▸ hc)

section Results

variable {types : Types} {toLowerCase : Lowercase} {name type : Text} {n : Nat} {t : TypeObject}

/-- What `coerceType` looks at once the string itself is not registered. -/
theorem toLowerCase_spells (hname : types.type name = some t) (h : Spells name n type) :
    toLowerCase.apply (strip type) = name.map small ++ List.replicate n '*' := by
  rw [h, toLowerCase.ascii, List.map_append, List.map_replicate]
  · rfl
  · intro c hc
    rcases List.mem_append.mp hc with hc | hc
    · exact isWord_lt (types.words name t hname c hc)
    · rw [List.eq_of_mem_replicate hc]
      decide

theorem small_noStar (hname : types.type name = some t) : '*' ∉ name.map small := by
  intro hstar
  obtain ⟨c, hc, hsmall⟩ := List.mem_map.mp hstar
  exact (isWord_small c (types.words name t hname c hc)).2.2 hsmall

/-- A string with a star is no name. -/
theorem append_stars_iff {word : Text} (hstar : '*' ∉ word) {base : Text} :
    base ++ List.replicate n '*' = word ↔ n = 0 ∧ base = word := by
  cases n with
  | zero => simp
  | succ n =>
      refine iff_of_false (fun heq => hstar ?_) (by simp)
      rw [← heq]
      simp

/-- A string that is registered itself is the name. -/
theorem spells_registered {u : TypeObject} (hu : types.type type = some u)
    (h : Spells name n type) : n = 0 ∧ name = type := by
  have hword := types.words type u hu
  have hstrip : strip type = type :=
    List.filter_eq_self.mpr fun c hc => by simp [(isWord_small c (hword c hc)).2.1]
  refine (append_stars_iff fun hstar => ?_).mp (h.symm.trans hstrip)
  exact (isWord_small _ (hword _ hstar)).1 rfl

/-- **What a string with stars is coerced to**, where it is not registered itself. -/
theorem coerceType_spells (hname : types.type name = some t) (h : Spells name n type)
    (hnone : types.type type = none) : coerceType types toLowerCase type =
      match standsFor types (name.map small) n with
      | some base => .ok (base.refs n)
      | none => .error (.notAType type) := by
  have hstar := small_noStar hname
  have hcount : (name.map small ++ List.replicate n '*').count '*' = n := by
    rw [List.count_append, List.count_eq_zero_of_not_mem hstar, List.count_replicate_self,
      Nat.zero_add]
  have hfilter : ((name.map small ++ List.replicate n '*').filter fun c => c ≠ '*') =
      name.map small := by
    rw [List.filter_append, List.filter_eq_self.mpr fun c hc => ?_, List.filter_eq_nil_iff.mpr
      fun c hc => ?_, List.append_nil]
    · simp [List.eq_of_mem_replicate hc]
    · simpa using fun heq : c = '*' => hstar (heq ▸ hc)
  have hpointer : name.map small ++ List.replicate n '*' = "pointer".toList ↔
      n = 0 ∧ name.map small = "pointer".toList := append_stars_iff (by decide)
  have hstring : name.map small ++ List.replicate n '*' = "string".toList ↔
      n = 0 ∧ name.map small = "string".toList := append_stars_iff (by decide)
  simp only [coerceType, hnone, toLowerCase_spells hname h, hcount, hfilter, standsFor, hpointer,
    hstring]
  split
  · next hvoid =>
      obtain ⟨rfl, -⟩ := hvoid
      cases types.type "void".toList <;> rfl
  · split
    · next hcString =>
        obtain ⟨rfl, -⟩ := hcString
        cases types.type "CString".toList <;> rfl
    · cases types.type (name.map small) <;> rfl

/-- What a name stands for has at least one indirection. -/
theorem standsFor_positive {base : TypeObject} (h : standsFor types name n = some base) :
    1 ≤ base.indirection := by
  unfold standsFor at h
  split at h
  · obtain ⟨void, hvoid, rfl⟩ := Option.map_eq_some_iff.mp h
    have hpos := types.positive _ _ hvoid
    rw [indirection_ref]
    omega
  · split at h
    · exact types.positive _ _ h
    · exact types.positive _ _ h

/-- A spelling points to its base if it is registered itself, or its base is and there are so
many stars. -/
theorem pointsTo_iff (hname : types.type name = some t) (h : Spells name n type) :
    PointsTo types toLowerCase name n type ↔
      type = name ∨ standsFor types (name.map small) n = some t := by
  have hbase : coerceType types toLowerCase name = .ok t := by
    rw [coerceType, hname]
  cases htype : types.type type with
  | some u =>
      obtain ⟨rfl, rfl⟩ := spells_registered htype h
      exact iff_of_true ⟨t, t, hbase, hbase, by simp, rfl⟩ (.inl rfl)
  | none =>
      have hne : type ≠ name := by
        rintro rfl
        rw [hname] at htype
        cases htype
      have hpointer : coerceType types toLowerCase type = _ := coerceType_spells hname h htype
      rw [or_iff_right hne]
      constructor
      · rintro ⟨base, pointer, hb, hp, -, hderef⟩
        obtain rfl := Except.ok.inj (hbase.symm.trans hb)
        rw [hpointer] at hp
        cases hstands : standsFor types (name.map small) n with
        | none =>
            rw [hstands] at hp
            cases hp
        | some u =>
            rw [hstands] at hp
            obtain rfl := Except.ok.inj hp
            rw [(refs_spec (standsFor_positive hstands) n).2] at hderef
            exact congrArg some (Except.ok.inj hderef)
      · intro hstands
        rw [hstands] at hpointer
        obtain ⟨hindirection, hderef⟩ := refs_spec (types.positive _ _ hname) n
        exact ⟨t, t.refs n, hbase, hpointer, hindirection, hderef⟩

/-- **Pointer types.**  `refType` and `derefType` are inverse; a string with stars is the
pointer it spells exactly when it is the registered name itself, or the small letters
of the name stand for the same type. -/
theorem pointer_algebra_iff (hname : types.type name = some t) (h : Spells name n type) :
    (PointsTo types toLowerCase name n type ∧ Inverse) ↔
      type = name ∨ standsFor types (name.map small) n = some t := by
  rw [pointsTo_iff hname h]
  exact and_iff_left inverse

end Results

/-! ## The types of `ref` -/

/-- A type that `ref` makes on its own. -/
def primitive (id : Nat) (name : String) : Text × TypeObject :=
  (name.toList, .literal id 1 (some name.toList))

/-- A type that is made with `Object.create` of the integer of its size. -/
def typedef (name : String) (type : Text × TypeObject) : Text × TypeObject :=
  (name.toList, .create type.2 none (some name.toList))

/-- What `ref` registers where `long` and `size_t` have 8 bytes. -/
def entries : List (Text × TypeObject) :=
  let int8 := primitive 1 "int8"
  let uint8 := primitive 2 "uint8"
  let int16 := primitive 3 "int16"
  let uint16 := primitive 4 "uint16"
  let int32 := primitive 5 "int32"
  let uint32 := primitive 6 "uint32"
  let int64 := primitive 7 "int64"
  let uint64 := primitive 8 "uint64"
  let cString := primitive 12 "CString"
  [primitive 0 "void", int8, uint8, int16, uint16, int32, uint32, int64, uint64,
    primitive 9 "float", primitive 10 "double", primitive 11 "Object", cString,
    ("Utf8String".toList, cString.2), typedef "bool" uint8, typedef "byte" uint8,
    typedef "char" int8, typedef "uchar" uint8, typedef "short" int16, typedef "ushort" uint16,
    typedef "int" int32, typedef "uint" uint32, typedef "long" int64, typedef "ulong" uint64,
    typedef "longlong" int64, typedef "ulonglong" uint64, typedef "size_t" uint64]

/-- The entry of that name. -/
def entry (name : Text) : Option TypeObject := (entries.find? fun e => e.1 = name).map Prod.snd

theorem entry_mem {name : Text} {t : TypeObject} (h : entry name = some t) :
    (name, t) ∈ entries := by
  obtain ⟨e, he, rfl⟩ := Option.map_eq_some_iff.mp h
  have hname : e.1 = name := by simpa using List.find?_some he
  exact hname ▸ List.mem_of_find?_eq_some he

/-- The types that `ref` has registered. -/
def refTypes : Types where
  type := entry
  words name t h := by
    have hall : (entries.all fun e => e.1.all fun c => isWord c) = true := by decide
    have hname := List.all_eq_true.mp hall (name, t) (entry_mem h)
    exact List.all_eq_true.mp hname
  positive name t h := by
    have hall : ∀ e ∈ entries, 1 ≤ e.2.indirection := by decide
    exact hall (name, t) (entry_mem h)

/-- `toLowerCase` of ASCII. -/
def asciiLowercase : Lowercase := ⟨fun text => text.map small, fun _ _ => rfl⟩

/-- `int **` -/
theorem pointer_algebra_int :
    (PointsTo refTypes asciiLowercase "int".toList 2 "int **".toList ∧ Inverse) ↔
      "int **".toList = "int".toList ∨
        standsFor refTypes ("int".toList.map small) 2 = refTypes.type "int".toList :=
  pointer_algebra_iff (t := .create (primitive 5 "int32").2 none (some "int".toList)) rfl rfl

/-- The types of `ref` whose names have a capital letter can only be named as they are. -/
theorem refTypes_pointsTo_iff {toLowerCase : Lowercase} {name type : Text} {n : Nat}
    {t : TypeObject} (hname : refTypes.type name = some t) (h : Spells name n type) :
    PointsTo refTypes toLowerCase name n type ↔
      type = name ∨
        name ∉ ["Object".toList, "CString".toList, "Utf8String".toList] := by
  have hall : ∀ e ∈ entries, entry (e.1.map small) = some e.2 ↔
      e.1 ∉ ["Object".toList, "CString".toList, "Utf8String".toList] := by decide
  have hspecial : ∀ e ∈ entries, e.1.map small ≠ "pointer".toList ∧
      e.1.map small ≠ "string".toList := by decide
  have hmem := entry_mem hname
  have hstands : standsFor refTypes (name.map small) n = entry (name.map small) := by
    rw [standsFor, if_neg fun hpointer => (hspecial _ hmem).1 hpointer.2,
      if_neg fun hstring => (hspecial _ hmem).2 hstring.2]
    rfl
  rw [pointsTo_iff hname h, hstands]
  exact or_congr_right (hall _ hmem)

/-- **No pointer to an object.**  The name of `Object` is looked up in small letters. -/
theorem object_star :
    ¬ ∀ (types : Types) (toLowerCase : Lowercase) (name : Text) (n : Nat) (type : Text),
      (types.type name).isSome → Spells name n type →
        PointsTo types toLowerCase name n type ∧ Inverse := by
  intro hall
  have hspells : Spells "Object".toList 1 "Object *".toList := rfl
  obtain ⟨hpoints, -⟩ :=
    hall refTypes asciiLowercase "Object".toList 1 "Object *".toList rfl hspells
  have hplain := (refTypes_pointsTo_iff (t := (primitive 11 "Object").2) rfl hspells).mp hpoints
  revert hplain
  decide

end PointerTypes

import Tint.Transition
import Mathlib.Data.List.Basic
import Mathlib.Data.Nat.Digits.Lemmas
import Mathlib.Logic.Function.Basic

/-!
# Variadic foreign functions

A variadic function is called through a generator that is given the types of the extra
arguments and returns a `ForeignFunction` for them.  The functions are cached under the ids
of their types, one after the other; the id of a type object is drawn at random when it is
first asked for.  The return type is a property of the generator that may be assigned.

* `prepared_iff` -- each function returned is prepared with the types of its own call,
  exactly when its return type has the `ffi_type` of the one that the generator was made
  with, and types with the same ids as those of a cached function are the same types;
* `returnType_not_in_cif` -- the `cif` keeps the first return type.

All ids have five digits (`length_hexId`), so a key says which ids it was made of.
-/

namespace Variadic

open Transition

/-- A text. -/
abbrev Text := List Char

/-- What a type object describes: a type that is no pointer, and `indirection`. -/
structure CType (B : Type) where
  base : B
  indirection : Nat
  deriving DecidableEq

/-- Which type object: one there was before, or one made by `coerceType`. -/
inductive Identity
  | given (n : Nat)
  | made (k : Nat)
  deriving DecidableEq

/-- A type object: what it describes, and which one it is. -/
structure TypeObject (B : Type) where
  type : CType B
  identity : Identity
  deriving DecidableEq

/-- A type as it is passed: a type object, or a string that names one and has stars behind
it, which `coerceType` makes a new object for. -/
inductive TypeArg (B : Type)
  | object (type : CType B) (n : Nat)
  | pointer (target : CType B) (stars : Nat)

/-- The type that is meant. -/
def TypeArg.type {B : Type} : TypeArg B → CType B
  | object type _ => type
  | pointer target stars => { target with indirection := target.indirection + stars + 1 }

/-- A drawn number, `Math.random() * 0x10000`. -/
abbrev Draw := Fin 65536

/-- What is asserted. -/
inductive Exception
  | noFfiType
  | noName
  | noFixedArguments
  | badCif
  deriving DecidableEq

/-- A `ffi_cif`: what `ffi_prep_cif_var` was called with. -/
structure Cif (E : Type) where
  rtype : E
  argtypes : List E
  numFixedArgs : Nat
  deriving DecidableEq

/-- A `ForeignFunction`: its `cif`, and the types it marshals with. -/
structure ForeignFunction (B E : Type) where
  cif : Cif E
  returnType : TypeObject B
  argTypes : List (TypeObject B)

/-- The `ffi_type`s: those of the types that are no pointers, `FFI_TYPES.pointer`, which of
them have a name, and which `cif`s `ffi_prep_cif_var` accepts. -/
structure Bindings (B E : Type) where
  ffi_type : B → Option E
  pointer : E
  named : E → Bool
  ffi_prep_cif_var : Cif E → Bool

/-- The ids that were drawn, the cache, and `variadic_function_generator.returnType`. -/
structure State (B E : Type) where
  ids : TypeObject B → Option Draw
  drawn : Nat
  made : Nat
  cache : Text → Option (ForeignFunction B E)
  returnType : TypeArg B

/-- What a generator is made with. -/
structure Closure (B : Type) where
  returnType : TypeArg B
  fixedArgTypes : List (TypeObject B)
  fixedKey : List Text

section Model

variable {B E : Type} [DecidableEq B]

/-- `(((1+Math.random())*0x10000)|0).toString(16)` -/
def hexId (draw : Draw) : Text := (Nat.digits 16 (65536 + draw)).reverse.map Nat.digitChar

/-- `Type`: the `ffi_type` of a type -/
def aType (bindings : Bindings B E) (type : CType B) : Option E :=
  if type.indirection = 1 then bindings.ffi_type type.base else some bindings.pointer

/-- `coerceType` -/
def coerceType (s : State B E) : TypeArg B → TypeObject B × State B E
  | .object type n => (⟨type, .given n⟩, s)
  | .pointer target stars =>
      (⟨(TypeArg.pointer target stars).type, .made s.made⟩, { s with made := s.made + 1 })

/-- `CIF_var` -/
def CIF_var (bindings : Bindings B E) (rtype : CType B) (types : List (TypeObject B))
    (numFixedArgs : Nat) : Except Exception (Cif E) :=
  if numFixedArgs < 1 then .error .noFixedArguments
  else
    match aType bindings rtype, types.mapM fun t => aType bindings t.type with
    | some rtype, some argtypes =>
        let cif := ⟨rtype, argtypes, numFixedArgs⟩
        if bindings.ffi_prep_cif_var cif then .ok cif else .error .badCif
    | _, _ => .error .noFfiType

section Random

-- the numbers that are drawn, in turn
variable (random : Nat → Draw)

/-- `getId` -/
def getId (s : State B E) (type : TypeObject B) : Text × State B E :=
  match s.ids type with
  | some id => (hexId id, s)
  | none =>
      (hexId (random s.drawn),
        { s with ids := Function.update s.ids type (some (random s.drawn)), drawn := s.drawn + 1 })

/-- The loop over the extra arguments: their types and the ids of these. -/
def extraTypes (bindings : Bindings B E) :
    State B E → List (TypeArg B) → Except Exception (List (TypeObject B × Text)) × State B E
  | s, [] => (.ok [], s)
  | s, arg :: args =>
      let (type, s) := coerceType s arg
      match aType bindings type.type with
      | none => (.error .noFfiType, s)
      | some ffi_type =>
          if bindings.named ffi_type then
            let (id, s) := getId random s type
            match extraTypes bindings s args with
            | (.ok types, s) => (.ok ((type, id) :: types), s)
            | (.error e, s) => (.error e, s)
          else (.error .noName, s)

/-- The cached function, or a new one that is cached. -/
def lookUp (bindings : Bindings B E) (c : Closure B) (rtnType : TypeObject B)
    (argTypes : List (TypeObject B)) (key : Text) (s : State B E) :
    Except Exception (ForeignFunction B E) × State B E :=
  match s.cache key with
  | some func => (.ok func, s)
  | none =>
      -- the return type the generator was made with, not the one that is looked up
      match CIF_var bindings c.returnType.type argTypes c.fixedArgTypes.length with
      | .error e => (.error e, s)
      | .ok cif =>
          let func := ⟨cif, rtnType, argTypes⟩
          (.ok func, { s with cache := Function.update s.cache key (some func) })

/-- `variadic_function_generator` -/
def generate (bindings : Bindings B E) (c : Closure B) (s : State B E) (args : List (TypeArg B)) :
    Except Exception (ForeignFunction B E) × State B E :=
  match extraTypes random bindings s args with
  | (.error e, s) => (.error e, s)
  | (.ok types, s) =>
      let argTypes := c.fixedArgTypes ++ types.map Prod.fst
      let (rtnType, s) := coerceType s s.returnType
      let (rtnName, s) := getId random s rtnType
      let key := rtnName ++ (c.fixedKey ++ types.map Prod.snd).flatten
      lookUp bindings c rtnType argTypes key s

/-- The fixed arguments are coerced, all of them, -/
def coerceAll : State B E → List (TypeArg B) → List (TypeObject B) × State B E
  | s, [] => ([], s)
  | s, arg :: args =>
      let (type, s) := coerceType s arg
      let (types, s) := coerceAll s args
      (type :: types, s)

/-- and then asked for their ids. -/
def getIds : State B E → List (TypeObject B) → List Text × State B E
  | s, [] => ([], s)
  | s, type :: types =>
      let (id, s) := getId random s type
      let (ids, s) := getIds s types
      (id :: ids, s)

/-- `VariadicForeignFunction`, when some types have ids already -/
def VariadicForeignFunction (ids : TypeObject B → Option Draw) (returnType : TypeArg B)
    (fixedArgTypes : List (TypeArg B)) : Closure B × State B E :=
  let s : State B E := ⟨ids, 0, 0, fun _ => none, returnType⟩
  let (fixedArgTypes, s) := coerceAll s fixedArgTypes
  let (fixedKey, s) := getIds random s fixedArgTypes
  (⟨returnType, fixedArgTypes, fixedKey⟩, s)

/-- The generator is called, or another return type is assigned. -/
inductive Action (B : Type)
  | call (args : List (TypeArg B))
  | setReturnType (returnType : TypeArg B)

/-- A call of the function, or an assignment to its return type. -/
def step (bindings : Bindings B E) (c : Closure B) (s : State B E) : Action B → Option (State B E)
  | .call args => some (generate random bindings c s args).2
  | .setReturnType returnType => some { s with returnType }

/-! ## The property and the condition -/

/-- The `cif` and the marshalling are for these types. -/
structure Prepared (bindings : Bindings B E) (f : ForeignFunction B E) (args : List (CType B))
    (rtn : CType B) : Prop where
  argTypes : f.argTypes.map TypeObject.type = args
  returnType : f.returnType.type = rtn
  cifArgs : f.cif.argtypes.map some = args.map (aType bindings)
  cifReturn : some f.cif.rtype = aType bindings rtn

/-- **Prepared functions.**  The function that a call returns is for the fixed types, those of
the call, and the return type there is. -/
def Returns (bindings : Bindings B E) (c : Closure B) (s : State B E) : Action B → Prop
  | .call args => ∀ f, (generate random bindings c s args).1 = .ok f →
      Prepared bindings f (c.fixedArgTypes.map TypeObject.type ++ args.map TypeArg.type)
        s.returnType.type
  | .setReturnType _ => True

/-- The types of a function, the return type first. -/
def ForeignFunction.types (f : ForeignFunction B E) : List (TypeObject B) :=
  f.returnType :: f.argTypes

/-- The type objects of a call, once all its ids are drawn. -/
def calledTypes (bindings : Bindings B E) (c : Closure B) (s : State B E)
    (args : List (TypeArg B)) : List (TypeObject B) × State B E :=
  match extraTypes random bindings s args with
  | (.error _, s) => ([], s)
  | (.ok types, s) =>
      let (rtnType, s) := coerceType s s.returnType
      (rtnType :: (c.fixedArgTypes ++ types.map Prod.fst), (getId random s rtnType).2)

/-- The extra types have `ffi_type`s, which have names. -/
def Accepted (bindings : Bindings B E) (args : List (TypeArg B)) : Prop :=
  ∀ arg ∈ args, ∃ ffi_type, aType bindings arg.type = some ffi_type ∧ bindings.named ffi_type = true

/-- There is a function for the call: one that is cached for types with these ids, or one
whose `cif` can be prepared. -/
def Answers (bindings : Bindings B E) (c : Closure B) (s : State B E) (args : List (TypeArg B)) :
    Prop :=
  let (types, after) := calledTypes random bindings c s args
  Accepted bindings args ∧
    ((∃ key f, s.cache key = some f ∧ f.types.map after.ids = types.map after.ids) ∨
      ∃ cif, CIF_var bindings c.returnType.type types.tail c.fixedArgTypes.length = .ok cif)

/-- **Distinct ids.**  The return type has the `ffi_type` of the first one, and cached types
with the ids of the types of the call, in order, are the same types. -/
def Distinct (bindings : Bindings B E) (c : Closure B) (s : State B E) : Action B → Prop
  | .call args => Answers random bindings c s args →
      let (types, after) := calledTypes random bindings c s args
      aType bindings s.returnType.type = aType bindings c.returnType.type ∧
        ∀ key f, s.cache key = some f → f.types.map after.ids = types.map after.ids →
          f.types.map TypeObject.type = types.map TypeObject.type
  | .setReturnType _ => True

end Random

end Model

/-! ## Ids -/

/-- Five digits. -/
theorem length_hexId (draw : Draw) : (hexId draw).length = 5 := by
  have hlog : Nat.log 16 (65536 + draw) = 4 := by
    refine Nat.log_eq_of_pow_le_of_lt_pow (by omega) ?_
    have := draw.isLt
    omega
  rw [hexId, List.length_map, List.length_reverse, Nat.length_digits 16 _ (by decide) (by omega),
    hlog]

/-- Different draws are different ids. -/
theorem hexId_injective : Function.Injective hexId := by
  -- the digits are read back one by one
  have hread : ∀ a < 16,
      (List.range 16).find? (fun d => Nat.digitChar d = Nat.digitChar a) = some a := by
    decide
  have hdigits : ∀ n, ((Nat.digits 16 n).reverse.map Nat.digitChar).map
      (fun c => (List.range 16).find? fun d => Nat.digitChar d = c) =
        (Nat.digits 16 n).reverse.map some := by
    intro n
    rw [List.map_map]
    refine List.map_congr_left fun a ha => hread a ?_
    exact Nat.digits_lt_base (by decide) (List.mem_reverse.mp ha)
  intro d d' h
  have hsame : (Nat.digits 16 (65536 + d)).reverse.map some =
      (Nat.digits 16 (65536 + d')).reverse.map some := by
    rw [← hdigits, ← hdigits]
    exact congrArg _ h
  have hsum := Nat.digits.injective 16 (List.reverse_injective
    (List.map_injective_iff.mpr (Option.some_injective Nat) hsame))
  exact Fin.ext (by omega)

/-- Texts of one length that are put together can be taken apart. -/
theorem flatten_injective {n : Nat} (hn : 0 < n) {l l' : List Text} (hl : ∀ t ∈ l, t.length = n)
    (hl' : ∀ t ∈ l', t.length = n) (h : l.flatten = l'.flatten) : l = l' := by
  induction l generalizing l' with
  | nil =>
      cases l' with
      | nil => rfl
      | cons t rest =>
          have hlen := hl' t List.mem_cons_self
          have hnil : t = [] := (List.append_eq_nil_iff.mp h.symm).1
          rw [hnil, List.length_nil] at hlen
          omega
  | cons t rest ih =>
      have hlen := hl t List.mem_cons_self
      cases l' with
      | nil =>
          have hnil : t = [] := (List.append_eq_nil_iff.mp h).1
          rw [hnil, List.length_nil] at hlen
          omega
      | cons t' rest' =>
          obtain ⟨rfl, hrest⟩ := List.append_inj h (hlen.trans (hl' t' List.mem_cons_self).symm)
          rw [ih (fun t ht => hl t (List.mem_cons_of_mem _ ht))
            (fun t ht => hl' t (List.mem_cons_of_mem _ ht)) hrest]

/-! ## What a call does -/

section Frames

variable {B E : Type} {bindings : Bindings B E} {c : Closure B} {s t : State B E}

/-- Ids stay, and nothing else of the state has changed but counters. -/
structure Extends (s t : State B E) : Prop where
  ids : ∀ type id, s.ids type = some id → t.ids type = some id
  cache : t.cache = s.cache
  returnType : t.returnType = s.returnType

theorem Extends.refl (s : State B E) : Extends s s := ⟨fun _ _ h => h, rfl, rfl⟩

theorem Extends.trans {u : State B E} (h : Extends s t) (h' : Extends t u) : Extends s u :=
  ⟨fun type id hid => h'.ids type id (h.ids type id hid), h'.cache.trans h.cache,
    h'.returnType.trans h.returnType⟩

/-- The text is the id of the type object. -/
def Identifies (s : State B E) (type : TypeObject B) (text : Text) : Prop :=
  ∃ id, s.ids type = some id ∧ text = hexId id

theorem Identifies.mono {type : TypeObject B} {text : Text} (h : Identifies s type text)
    (hids : ∀ type id, s.ids type = some id → t.ids type = some id) : Identifies t type text := by
  obtain ⟨id, hid, rfl⟩ := h
  exact ⟨id, hids type id hid, rfl⟩

/-- The texts are those of the ids. -/
theorem map_some_of_identifies {types : List (TypeObject B)} {texts : List Text}
    (h : List.Forall₂ (Identifies s) types texts) :
    texts.map some = (types.map s.ids).map (Option.map hexId) := by
  induction h with
  | nil => rfl
  | cons hfirst _ ih =>
      obtain ⟨id, hid, rfl⟩ := hfirst
      rw [List.map_cons, List.map_cons, List.map_cons, ih, hid]
      rfl

/-- **A key tells the ids.** -/
theorem flatten_eq_iff {types types' : List (TypeObject B)} {texts texts' : List Text}
    (h : List.Forall₂ (Identifies s) types texts) (h' : List.Forall₂ (Identifies s) types' texts') :
    texts.flatten = texts'.flatten ↔ types.map s.ids = types'.map s.ids := by
  have hfive : ∀ {types : List (TypeObject B)} {texts : List Text},
      List.Forall₂ (Identifies s) types texts → ∀ text ∈ texts, text.length = 5 := by
    intro types texts h text htext
    have hmem : some text ∈ (types.map s.ids).map (Option.map hexId) := by
      rw [← map_some_of_identifies h]
      exact List.mem_map_of_mem htext
    obtain ⟨id, -, hid⟩ := List.mem_map.mp hmem
    obtain ⟨draw, -, rfl⟩ := Option.map_eq_some_iff.mp hid
    exact length_hexId draw
  have hinj : Function.Injective (Option.map hexId) := Option.map_injective hexId_injective
  constructor
  · intro hflat
    have htexts := flatten_injective (by decide) (hfive h) (hfive h') hflat
    refine List.map_injective_iff.mpr hinj ?_
    rw [← map_some_of_identifies h, ← map_some_of_identifies h', htexts]
  · intro hids
    have htexts : texts.map some = texts'.map some := by
      rw [map_some_of_identifies h, map_some_of_identifies h', hids]
    rw [List.map_injective_iff.mpr (Option.some_injective Text) htexts]

theorem coerceType_spec (s : State B E) (arg : TypeArg B) :
    (coerceType s arg).1.type = arg.type ∧ Extends s (coerceType s arg).2 := by
  cases arg with
  | object type n => exact ⟨rfl, .refl s⟩
  | pointer target stars => exact ⟨rfl, fun _ _ h => h, rfl, rfl⟩

/-- What holds of the cache: each function is kept under the ids of its types, and its `cif` is
for its arguments and the first return type. -/
structure Sound (bindings : Bindings B E) (c : Closure B) (s : State B E) : Prop where
  fixed : List.Forall₂ (Identifies s) c.fixedArgTypes c.fixedKey
  keys : ∀ key f, s.cache key = some f →
    ∃ texts, List.Forall₂ (Identifies s) f.types texts ∧ key = texts.flatten
  cifArgs : ∀ key f, s.cache key = some f →
    f.cif.argtypes.map some = f.argTypes.map fun t => aType bindings t.type
  cifReturn : ∀ key f, s.cache key = some f → some f.cif.rtype = aType bindings c.returnType.type

/-- The cache stays sound as long as the ids stay. -/
theorem Sound.mono (h : Sound bindings c s)
    (hids : ∀ type id, s.ids type = some id → t.ids type = some id) (hcache : t.cache = s.cache) :
    Sound bindings c t where
  fixed := h.fixed.imp fun _ _ hid => hid.mono hids
  keys key f hf := by
    obtain ⟨texts, htexts, hkey⟩ := h.keys key f (hcache ▸ hf)
    exact ⟨texts, htexts.imp fun _ _ hid => hid.mono hids, hkey⟩
  cifArgs key f hf := h.cifArgs key f (hcache ▸ hf)
  cifReturn key f hf := h.cifReturn key f (hcache ▸ hf)

/-- Types with the ids of a cached function are looked up under its key. -/
theorem Sound.same_ids_iff (h : Sound bindings c s) {key : Text} {f : ForeignFunction B E}
    {types : List (TypeObject B)} {texts : List Text} (hf : s.cache key = some f)
    (hids : List.Forall₂ (Identifies s) types texts) :
    f.types.map s.ids = types.map s.ids ↔ key = texts.flatten := by
  obtain ⟨texts', hids', rfl⟩ := h.keys key f hf
  exact (flatten_eq_iff hids' hids).symm

/-- A function that is for its arguments and the first return type. -/
theorem prepared_iff_types {f : ForeignFunction B E} {first : CType B} (rtn : CType B)
    (args : List (CType B))
    (hargs : f.cif.argtypes.map some = f.argTypes.map fun t => aType bindings t.type)
    (hreturn : some f.cif.rtype = aType bindings first) :
    Prepared bindings f args rtn ↔
      aType bindings rtn = aType bindings first ∧ f.types.map TypeObject.type = rtn :: args := by
  have hsplit : f.types.map TypeObject.type = rtn :: args ↔
      f.returnType.type = rtn ∧ f.argTypes.map TypeObject.type = args :=
    List.cons.injEq _ _ _ _ ▸ Iff.rfl
  rw [hsplit]
  constructor
  · intro h
    exact ⟨h.cifReturn.symm.trans hreturn, h.returnType, h.argTypes⟩
  · intro h
    obtain ⟨htype, hrtn, htypes⟩ := h
    refine ⟨htypes, hrtn, ?_, hreturn.trans htype.symm⟩
    rw [hargs, ← htypes, List.map_map]
    rfl

/-- A list of results that are all there. -/
theorem map_some_of_mapM {α β : Type} {f : α → Option β} {l : List α} {l' : List β}
    (h : l.mapM f = some l') : l'.map some = l.map f := by
  induction l generalizing l' with
  | nil =>
      obtain rfl := Option.some.inj h
      rfl
  | cons a l ih =>
      rw [List.mapM_cons] at h
      obtain ⟨b, hb, h⟩ := Option.bind_eq_some_iff.mp h
      obtain ⟨bs, hbs, h⟩ := Option.bind_eq_some_iff.mp h
      obtain rfl := Option.some.inj h
      rw [List.map_cons, List.map_cons, ih hbs, hb]

/-- A `cif` is for the types it was asked for. -/
theorem CIF_var_spec {rtype : CType B} {types : List (TypeObject B)} {n : Nat} {cif : Cif E}
    (h : CIF_var bindings rtype types n = .ok cif) :
    cif.argtypes.map some = (types.map fun t => aType bindings t.type) ∧
      some cif.rtype = aType bindings rtype := by
  unfold CIF_var at h
  split at h
  · cases h
  · split at h
    · next rtype' argtypes hrtype hargs =>
        dsimp only at h
        split at h
        · obtain rfl := Except.ok.inj h
          exact ⟨map_some_of_mapM hargs, hrtype.symm⟩
        · cases h
    · cases h

/-- The call of a function that is cached for types with these ids. -/
theorem lookUp_of_hit {key : Text} {f : ForeignFunction B E} (rtnType : TypeObject B)
    (argTypes : List (TypeObject B)) (h : s.cache key = some f) :
    lookUp bindings c rtnType argTypes key s = (.ok f, s) := by
  simp only [lookUp, h]

theorem lookUp_of_error {key : Text} {rtnType : TypeObject B} {argTypes : List (TypeObject B)}
    {e : Exception} (h : s.cache key = none)
    (hcif : CIF_var bindings c.returnType.type argTypes c.fixedArgTypes.length = .error e) :
    lookUp bindings c rtnType argTypes key s = (.error e, s) := by
  simp only [lookUp, h, hcif]

/-- A prepared interface goes into the cache. -/
theorem lookUp_of_miss {key : Text} {rtnType : TypeObject B} {argTypes : List (TypeObject B)}
    {cif : Cif E} (h : s.cache key = none)
    (hcif : CIF_var bindings c.returnType.type argTypes c.fixedArgTypes.length = .ok cif) :
    lookUp bindings c rtnType argTypes key s = (.ok ⟨cif, rtnType, argTypes⟩,
      { s with cache := Function.update s.cache key (some ⟨cif, rtnType, argTypes⟩) }) := by
  simp only [lookUp, h, hcif]

/-- All arguments are coerced to their types. -/
theorem coerceAll_spec (s : State B E) (args : List (TypeArg B)) :
    (coerceAll s args).1.map TypeObject.type = args.map TypeArg.type ∧
      Extends s (coerceAll s args).2 := by
  induction args generalizing s with
  | nil => exact ⟨rfl, .refl s⟩
  | cons arg args ih =>
      obtain ⟨htype, hcoerce⟩ := coerceType_spec s arg
      obtain ⟨htypes, hrest⟩ := ih (coerceType s arg).2
      refine ⟨?_, hcoerce.trans hrest⟩
      simp only [coerceAll, List.map_cons, htype, htypes]

/-- A new function is kept under its ids, and its `cif` is for the first return type. -/
theorem Sound.lookUp {rtnType : TypeObject B} {argTypes : List (TypeObject B)} {texts : List Text}
    (h : Sound bindings c s)
    (hids : List.Forall₂ (Identifies s) (rtnType :: argTypes) texts) :
    Sound bindings c (lookUp bindings c rtnType argTypes texts.flatten s).2 := by
  cases hlook : s.cache texts.flatten with
  | some f =>
      rw [lookUp_of_hit rtnType argTypes hlook]
      exact h
  | none =>
      cases hcif : CIF_var bindings c.returnType.type argTypes c.fixedArgTypes.length with
      | error e =>
          rw [lookUp_of_error hlook hcif]
          exact h
      | ok cif =>
          rw [lookUp_of_miss hlook hcif]
          obtain ⟨hargs, hreturn⟩ := CIF_var_spec hcif
          -- what is in the cache now is the new function or was there
          have hcases : ∀ key f,
              Function.update s.cache texts.flatten (some ⟨cif, rtnType, argTypes⟩) key = some f →
              (key = texts.flatten ∧ f = ⟨cif, rtnType, argTypes⟩) ∨ s.cache key = some f := by
            intro key f hf
            by_cases hkey : key = texts.flatten
            · rw [hkey, Function.update_self] at hf
              exact .inl ⟨hkey, (Option.some.inj hf).symm⟩
            · rw [Function.update_of_ne hkey] at hf
              exact .inr hf
          refine ⟨h.fixed, ?_, ?_, ?_⟩ <;> intro key f hf
          · rcases hcases key f hf with hnew | hold
            · obtain ⟨rfl, rfl⟩ := hnew
              exact ⟨texts, hids, rfl⟩
            · exact h.keys key f hold
          · rcases hcases key f hf with hnew | hold
            · obtain ⟨-, rfl⟩ := hnew
              exact hargs
            · exact h.cifArgs key f hold
          · rcases hcases key f hf with hnew | hold
            · obtain ⟨-, rfl⟩ := hnew
              exact hreturn
            · exact h.cifReturn key f hold

end Frames

section Results

variable {B E : Type} [DecidableEq B] {random : Nat → Draw} {bindings : Bindings B E}
  {c : Closure B} {s t : State B E}

/-- The id of a type identifies it. -/
theorem getId_spec (random : Nat → Draw) (s : State B E) (type : TypeObject B) :
    Identifies (getId random s type).2 type (getId random s type).1 ∧
      Extends s (getId random s type).2 := by
  unfold getId
  cases hid : s.ids type with
  | some id => exact ⟨⟨id, hid, rfl⟩, .refl s⟩
  | none =>
      refine ⟨⟨_, Function.update_self _ _ _, rfl⟩, fun other id h => ?_, rfl, rfl⟩
      have hne : other ≠ type := by
        rintro rfl
        rw [hid] at h
        cases h
      exact (Function.update_of_ne hne _ _).trans h

/-- The loop over the extra types: whether it comes to its end, and what it has collected. -/
theorem extraTypes_spec (random : Nat → Draw) (bindings : Bindings B E) (s : State B E)
    (args : List (TypeArg B)) :
    Extends s (extraTypes random bindings s args).2 ∧
      ((∃ types, (extraTypes random bindings s args).1 = .ok types) ↔ Accepted bindings args) ∧
        ∀ types, (extraTypes random bindings s args).1 = .ok types →
          types.map (fun p => p.1.type) = args.map TypeArg.type ∧
            ∀ p ∈ types, Identifies (extraTypes random bindings s args).2 p.1 p.2 := by
  induction args generalizing s with
  | nil =>
      refine ⟨.refl s, iff_of_true ⟨[], rfl⟩ (fun arg h => by cases h), fun types h => ?_⟩
      obtain rfl := Except.ok.inj h
      exact ⟨rfl, fun p hp => by cases hp⟩
  | cons arg args ih =>
      obtain ⟨htype, hcoerce⟩ := coerceType_spec s arg
      have haccepted : Accepted bindings (arg :: args) ↔
          (∃ ffi_type, aType bindings arg.type = some ffi_type ∧ bindings.named ffi_type = true) ∧
            Accepted bindings args := List.forall_mem_cons
      rw [haccepted, ← htype]
      simp only [extraTypes]
      cases haType : aType bindings (coerceType s arg).1.type with
      | none => exact ⟨hcoerce, by simp, fun types h => by cases h⟩
      | some ffi_type =>
          cases hnamed : bindings.named ffi_type with
          | false =>
              exact ⟨by simpa [hnamed] using hcoerce, by simp [hnamed],
                fun types h => by simp [hnamed] at h⟩
          | true =>
              obtain ⟨hidentifies, hid⟩ :=
                getId_spec random (coerceType s arg).2 (coerceType s arg).1
              obtain ⟨hext, hok, htypes⟩ :=
                ih (getId random (coerceType s arg).2 (coerceType s arg).1).2
              have hall := (hcoerce.trans hid).trans hext
              have hfirst : ∃ e, some ffi_type = some e ∧ bindings.named e = true :=
                ⟨ffi_type, rfl, hnamed⟩
              simp only [hnamed, if_true, hfirst, true_and, ← hok]
              cases hrest : extraTypes random bindings
                  (getId random (coerceType s arg).2 (coerceType s arg).1).2 args with
              | mk result u =>
                  rw [hrest] at hext htypes hall
                  cases result with
                  | error e => exact ⟨hall, by simp, fun types h => by cases h⟩
                  | ok rest =>
                      obtain ⟨hmap, hids⟩ := htypes rest rfl
                      refine ⟨hall, by simp, fun types h => ?_⟩
                      obtain rfl := Except.ok.inj h
                      refine ⟨by rw [List.map_cons, List.map_cons, hmap, htype], fun p hp => ?_⟩
                      rcases List.mem_cons.mp hp with rfl | hp
                      · exact hidentifies.mono hext.ids
                      · exact hids p hp

/-- A call whose extra types are accepted: the types it looks up, and their ids. -/
structure Call (random : Nat → Draw) (bindings : Bindings B E) (c : Closure B) (s : State B E)
    (args : List (TypeArg B)) (rtnType : TypeObject B) (argTypes : List (TypeObject B))
    (texts : List Text) (after : State B E) : Prop where
  called : calledTypes random bindings c s args = (rtnType :: argTypes, after)
  ext : Extends s after
  identified : List.Forall₂ (Identifies after) (rtnType :: argTypes) texts
  rtn : rtnType.type = s.returnType.type
  meant : argTypes.map TypeObject.type =
    c.fixedArgTypes.map TypeObject.type ++ args.map TypeArg.type
  generated : generate random bindings c s args =
    lookUp bindings c rtnType argTypes texts.flatten after

/-- A call with arguments that are accepted. -/
theorem call_of_accepted (random : Nat → Draw) {args : List (TypeArg B)}
    (hsound : Sound bindings c s) (h : Accepted bindings args) :
    ∃ rtnType argTypes texts after, Call random bindings c s args rtnType argTypes texts after := by
  obtain ⟨hext, hok, hextra⟩ := extraTypes_spec random bindings s args
  obtain ⟨extra, hloop⟩ := hok.mpr h
  obtain ⟨hmap, hids⟩ := hextra extra hloop
  cases hpair : extraTypes random bindings s args with
  | mk result u =>
      rw [hpair] at hext hloop hids
      obtain rfl : result = .ok extra := hloop
      have hrtn := coerceType_spec u u.returnType
      cases hcoerce : coerceType u u.returnType with
      | mk rtn u' =>
          rw [hcoerce] at hrtn
          have hname := getId_spec random u' rtn
          cases hget : getId random u' rtn with
          | mk name after =>
              rw [hget] at hname
              have hlate := hrtn.2.trans hname.2
              have hall := hext.trans hlate
              have hfixed := hsound.fixed.imp fun _ _ hid => hid.mono hall.ids
              have hextras : List.Forall₂ (Identifies after) (extra.map Prod.fst)
                  (extra.map Prod.snd) := by
                rw [List.forall₂_map_left_iff, List.forall₂_map_right_iff, List.forall₂_same]
                exact fun p hp => (hids p hp).mono hlate.ids
              refine ⟨rtn, c.fixedArgTypes ++ extra.map Prod.fst,
                name :: (c.fixedKey ++ extra.map Prod.snd), after, ?_, hall,
                .cons hname.1 (List.rel_append hfixed hextras), ?_, ?_, ?_⟩
              · simp only [calledTypes, hpair, hcoerce, hget]
              · rw [hrtn.1, hext.returnType]
              · rw [List.map_append, List.map_map]
                exact congrArg _ hmap
              · have hkey : (name :: (c.fixedKey ++ extra.map Prod.snd)).flatten =
                    name ++ (c.fixedKey ++ extra.map Prod.snd).flatten := List.flatten_cons
                simp only [generate, hpair, hcoerce, hget, hkey]

/-- Otherwise the call has thrown. -/
theorem generate_of_not_accepted (random : Nat → Draw) (c : Closure B) (s : State B E)
    {args : List (TypeArg B)} (h : ¬ Accepted bindings args) :
    (∀ f, (generate random bindings c s args).1 ≠ .ok f) ∧
      Extends s (generate random bindings c s args).2 := by
  obtain ⟨hext, hok, -⟩ := extraTypes_spec random bindings s args
  cases hloop : extraTypes random bindings s args with
  | mk result u =>
      rw [hloop] at hext hok
      cases result with
      | error e =>
          have hgenerate : generate random bindings c s args = (.error e, u) := by
            simp only [generate, hloop]
          rw [hgenerate]
          exact ⟨fun f hf => (by cases hf), hext⟩
      | ok extra => exact absurd (hok.mp ⟨extra, rfl⟩) h

/-- A call and an assignment keep the cache sound. -/
theorem Sound.step (h : Sound bindings c s) {a : Action B}
    (hstep : step random bindings c s a = some t) : Sound bindings c t := by
  cases a with
  | setReturnType returnType =>
      obtain rfl := Option.some.inj hstep
      exact h.mono (fun _ _ hid => hid) rfl
  | call args =>
      obtain rfl := Option.some.inj hstep
      by_cases haccepted : Accepted bindings args
      · obtain ⟨rtnType, argTypes, texts, after, call⟩ := call_of_accepted random h haccepted
        rw [call.generated]
        exact (h.mono call.ext.ids call.ext.cache).lookUp call.identified
      · obtain ⟨-, hext⟩ := generate_of_not_accepted random c s haccepted
        exact h.mono hext.ids hext.cache

/-- **One call.**  The function it returns is for its types exactly when the condition holds. -/
theorem returns_iff_distinct (h : Sound bindings c s) (a : Action B) :
    Returns random bindings c s a ↔ Distinct random bindings c s a := by
  cases a with
  | setReturnType returnType => exact Iff.rfl
  | call args =>
      by_cases haccepted : Accepted bindings args
      · obtain ⟨rtnType, argTypes, texts, after, call⟩ := call_of_accepted random h haccepted
        have hafter := h.mono call.ext.ids call.ext.cache
        have hcache := call.ext.cache
        have hmeant : (rtnType :: argTypes).map TypeObject.type =
            s.returnType.type ::
              (c.fixedArgTypes.map TypeObject.type ++ args.map TypeArg.type) := by
          rw [List.map_cons, call.rtn, call.meant]
        simp only [Returns, Distinct, Answers, call.called, call.generated, hmeant, List.tail_cons]
        cases hlook : after.cache texts.flatten with
        | some g =>
            rw [lookUp_of_hit rtnType argTypes hlook]
            have hsame := (hafter.same_ids_iff hlook call.identified).mpr rfl
            have hprepared := prepared_iff_types s.returnType.type
              (c.fixedArgTypes.map TypeObject.type ++ args.map TypeArg.type)
              (hafter.cifArgs _ g hlook) (hafter.cifReturn _ g hlook)
            constructor
            · intro hall _
              obtain ⟨htype, htypes⟩ := hprepared.mp (hall g rfl)
              refine ⟨htype, fun key f hf hids => ?_⟩
              -- the key is the one that is looked up
              rw [← hcache] at hf
              rw [(hafter.same_ids_iff hf call.identified).mp hids, hlook] at hf
              obtain rfl := Option.some.inj hf
              exact htypes
            · intro hall f hf
              obtain rfl := Except.ok.inj hf
              obtain ⟨htype, htypes⟩ :=
                hall ⟨haccepted, .inl ⟨texts.flatten, g, hcache ▸ hlook, hsame⟩⟩
              exact hprepared.mpr ⟨htype, htypes texts.flatten g (hcache ▸ hlook) hsame⟩
        | none =>
            have hmiss : ∀ key f, s.cache key = some f →
                f.types.map after.ids ≠ (rtnType :: argTypes).map after.ids := by
              intro key f hf hids
              rw [← hcache] at hf
              rw [(hafter.same_ids_iff hf call.identified).mp hids, hlook] at hf
              cases hf
            cases hcif : CIF_var bindings c.returnType.type argTypes c.fixedArgTypes.length with
            | error e =>
                rw [lookUp_of_error hlook hcif]
                refine iff_of_true (fun f hf => by cases hf) fun hanswers => ?_
                obtain ⟨-, hhit | hprep⟩ := hanswers
                · obtain ⟨key, f, hf, hids⟩ := hhit
                  exact absurd hids (hmiss key f hf)
                · obtain ⟨cif, hcif⟩ := hprep
                  cases hcif
            | ok cif =>
                rw [lookUp_of_miss hlook hcif]
                obtain ⟨hargs, hreturn⟩ := CIF_var_spec hcif
                have hprepared := prepared_iff_types (f := ⟨cif, rtnType, argTypes⟩)
                  s.returnType.type
                  (c.fixedArgTypes.map TypeObject.type ++ args.map TypeArg.type) hargs hreturn
                constructor
                · intro hall _
                  exact ⟨(hprepared.mp (hall _ rfl)).1,
                    fun key f hf hids => absurd hids (hmiss key f hf)⟩
                · intro hall f hf
                  obtain rfl := Except.ok.inj hf
                  exact hprepared.mpr ⟨(hall ⟨haccepted, .inr ⟨cif, rfl⟩⟩).1, hmeant⟩
      · refine iff_of_true (fun f hf => ?_) fun hanswers => absurd hanswers.1 haccepted
        exact absurd hf ((generate_of_not_accepted random c s haccepted).1 f)

/-! ## Runs -/

/-- The ids of all types identify them. -/
theorem getIds_spec (random : Nat → Draw) (s : State B E) (types : List (TypeObject B)) :
    List.Forall₂ (Identifies (getIds random s types).2) types (getIds random s types).1 ∧
      Extends s (getIds random s types).2 := by
  induction types generalizing s with
  | nil => exact ⟨.nil, .refl s⟩
  | cons type types ih =>
      obtain ⟨hfirst, hid⟩ := getId_spec random s type
      obtain ⟨hrest, hids⟩ := ih (getId random s type).2
      exact ⟨.cons (hfirst.mono hids.ids) hrest, hid.trans hids⟩

/-- A new generator: no function is cached. -/
theorem VariadicForeignFunction_spec (random : Nat → Draw) (bindings : Bindings B E)
    (ids : TypeObject B → Option Draw) (returnType : TypeArg B) (fixedArgTypes : List (TypeArg B)) :
    (VariadicForeignFunction (E := E) random ids returnType fixedArgTypes).1.fixedArgTypes.map
        TypeObject.type = fixedArgTypes.map TypeArg.type ∧
      Sound bindings (VariadicForeignFunction (E := E) random ids returnType fixedArgTypes).1
        (VariadicForeignFunction random ids returnType fixedArgTypes).2 := by
  let s : State B E := ⟨ids, 0, 0, fun _ => none, returnType⟩
  obtain ⟨htypes, hcoerce⟩ := coerceAll_spec s fixedArgTypes
  obtain ⟨hids, hext⟩ :=
    getIds_spec random (coerceAll s fixedArgTypes).2 (coerceAll s fixedArgTypes).1
  have hempty : (VariadicForeignFunction (E := E) random ids returnType fixedArgTypes).2.cache =
      fun _ => none := hext.cache.trans hcoerce.cache
  refine ⟨htypes, hids, ?_, ?_, ?_⟩
  all_goals
    intro key f hf
    rw [hempty] at hf
    cases hf

/-- **Variadic calls.**  In every run the functions returned are for the fixed types, those of
the call and the return type in force exactly when each call meets the condition. -/
theorem prepared_iff (random : Nat → Draw) (bindings : Bindings B E)
    (ids : TypeObject B → Option Draw) (returnType : TypeArg B) (fixedArgTypes : List (TypeArg B))
    (as : List (Action B)) :
    let c := (VariadicForeignFunction (E := E) random ids returnType fixedArgTypes).1
    let start := (VariadicForeignFunction (E := E) random ids returnType fixedArgTypes).2
    c.fixedArgTypes.map TypeObject.type = fixedArgTypes.map TypeArg.type ∧
      (Meets (step random bindings c) (Returns random bindings c) start as ↔
        Meets (step random bindings c) (Distinct random bindings c) start as) := by
  obtain ⟨htypes, hsound⟩ :=
    VariadicForeignFunction_spec random bindings ids returnType fixedArgTypes
  refine ⟨htypes, meets_congr (J := Sound bindings _) ?_ ?_ hsound as⟩
  · intro s a t h hstep
    exact h.step hstep
  · intro s a t h _
    exact returns_iff_distinct h a

/-! ## A return type that is assigned -/

/-- A generator `f(int, ...)`. -/
inductive Base
  | int
  | double
  deriving DecidableEq

/-- Bindings with two basic types. -/
def someBindings : Bindings Base (Option Base) where
  ffi_type base := some (some base)
  pointer := none
  named _ := true
  ffi_prep_cif_var _ := true

/-- An argument type for each basic type. -/
def typeOf (base : Base) : TypeArg Base := .object ⟨base, 1⟩ (if base = .int then 0 else 1)

/-- The function called after `returnType = double` marshals a double, but its `cif` is for the
int that the generator was made with. -/
theorem returnType_not_in_cif :
    let random := Fin.ofNat 65536
    let made := VariadicForeignFunction (E := Option Base) random (fun _ => none) (typeOf .int)
      [typeOf .int]
    ¬ Meets (step random someBindings made.1) (Returns random someBindings made.1) made.2
      [.setReturnType (typeOf .double), .call []] := by
  intro random made h
  have hprepared := h.2.1 ⟨⟨some .int, [some .int], 1⟩, ⟨⟨.double, 1⟩, .given 1⟩,
    [⟨⟨.int, 1⟩, .given 0⟩]⟩ rfl
  exact absurd hprepared.cifReturn (by decide)

end Results

end Variadic

import Tint.StructTypes
import Tint.TypeEncoding
import Mathlib.Data.List.Basic
import Mathlib.Data.List.TakeWhile
import Mathlib.Logic.Function.Basic

/-!
# Struct encodings

`map` and `getStruct` make types of encodings: `getStruct` parses a text such as
`{Name="x"d"y"d}`, maps the types of the fields, makes a struct type of them and keeps it
in `structCache` under the name; `knownStructs` has texts that are parsed in place of the
encoding's own.

`level` is the depth of brackets in a text: the loop of `parseStruct` takes a text that
ends at the depth it started at as a whole (`scan_level`).
-/

namespace StructCache

open TypeEncoding (isOpen isClose typeEncodings methodEncodings)
open StructTypes (FieldType Layout Types refusal defineProperty)
open StructLayout (Shape)

abbrev Text := List Char

instance : LawfulBEq Text := inferInstance

/-- What `map` and `getStruct` return: the name of a type of `ref`, a struct type with
its fields, a function of `Object.prototype`, or undefined. -/
inductive MType
  | prim (name : String)
  | struct (fields : List (Text × MType)) (layout : Layout)
  | inherited (name : Text)
  | undefined

/-- What is thrown: by `map` for a falsy or an unknown type, or by the stack. -/
inductive Exception
  | falsy
  | couldNotConvert (type : Text)
  | overflow
  deriving DecidableEq

/-- `structCache`; an entry that is undefined is as good as none. -/
abbrev Cache := Text → Option MType

/-- The properties that every object has. -/
def objectPrototype : List Text :=
  ["constructor", "__defineGetter__", "__defineSetter__", "__lookupGetter__", "__lookupSetter__",
    "__proto__", "hasOwnProperty", "isPrototypeOf", "propertyIsEnumerable", "toLocaleString",
    "toString", "valueOf"].map String.toList

/-- `structCache[name]` -/
def lookupName (cache : Cache) (name : Text) : Option MType :=
  match cache name with
  | some t => some t
  | none => if name ∈ objectPrototype then some (.inherited name) else none

/-- What `.` in a regular expression does not match. -/
def isTerminator (c : Char) : Bool :=
  c == '\n' || c == '\r' || c == '\u2028' || c == '\u2029'

/-- `isStruct`, for a text -/
def isStruct (type : Text) : Bool :=
  2 ≤ type.length && type.head? == some '{' && type.getLast? == some '}' && !type.any isTerminator

/-- `struct.substring(1, struct.length-1)`, which swaps its arguments for one character -/
def inner (struct : Text) : Text := if struct.length = 1 then struct else (struct.drop 1).dropLast

/-- `parseStructName` -/
def parseStructName (struct : Text) : Text := (inner struct).takeWhile (· ≠ '=')

/-- The variables of the loop in `parseStruct`. -/
structure Scan where
  curProp : Text
  numBrackets : Int
  entries : List Text

/-- One turn of the loop in `parseStruct`. -/
def Scan.char (s : Scan) (c : Char) : Scan :=
  if c = '"' then
    if s.numBrackets > 0 then { s with curProp := s.curProp ++ [c] }
    else ⟨[], 0, s.entries ++ [s.curProp]⟩
  else if isOpen c then { s with curProp := s.curProp ++ [c], numBrackets := s.numBrackets + 1 }
  else if isClose c then { s with curProp := s.curProp ++ [c], numBrackets := s.numBrackets - 1 }
  else { s with curProp := s.curProp ++ [c] }

/-- The entries from the second on, in pairs of a name and a type. -/
def pairs : List Text → List (Text × Option Text)
  | [] => []
  | [name] => [(name, none)]
  | name :: type :: rest => (name, some type) :: pairs rest

/-- `parseStruct`: the name and the properties -/
def parseStruct (struct : Text) : Text × List (Text × Option Text) :=
  let s := inner struct
  let name := if '=' ∈ s then s.takeWhile (· ≠ '=') else []
  let s := if '=' ∈ s then (s.dropWhile (· ≠ '=')).drop 1 else s
  let scan := s.foldl Scan.char ⟨[], 0, []⟩
  let entries := scan.entries ++ [scan.curProp]
  (name, pairs (entries.drop 1))

/-- `typeEncodings[type]` -/
def encodingOf (type : Text) : Option MType :=
  match type with
  | [c] => (List.lookup c typeEncodings).map .prim
  | _ => if type ∈ objectPrototype then some (.inherited type) else none

/-- `map`, for a text that is no struct -/
def mapCode (type : Text) : Except Exception MType :=
  let type := if type.head?.any (· ∈ methodEncodings.map Prod.fst) then type.drop 1 else type
  if type.head? = some '^' then .ok (.prim "pointer")
  else
    match encodingOf type with
    | some t => .ok t
    | none =>
        match type.getLast?.bind fun c => List.lookup c typeEncodings with
        | some name => .ok (.prim name)
        | none =>
            if type.head? = some '[' ∨ type.head? = some '(' ∨ type.head? = some 'b' then
              .ok (.prim "pointer")
            else .error (.couldNotConvert type)

section Struct

-- `ref.sizeof.pointer` and `ref.alignof.pointer`, and those of the scalar types
variable (P : Shape) (basic : String → Shape)

/-- The type of a field at a position, where it has a size. -/
def fieldType (i : Nat) : MType → Option FieldType
  | .prim name =>
      if name = "void" then none
      else if name = "pointer" then some .voidPointer
      else some (.scalar (basic name))
  | .struct _ _ => some (.struct i)
  | _ => none

/-- One field of `Struct(props)`; none if it throws. -/
def addProp (id : Nat) (types : Types) (prop : (Text × MType) × Nat) : Option Types :=
  match fieldType basic prop.2 prop.1.2 with
  | none => none
  | some type =>
      match refusal types id (String.ofList prop.1.1) type with
      | some _ => none
      | none =>
          let types := defineProperty P types id (String.ofList prop.1.1) type
          -- `recalc` may have thrown
          if String.ofList prop.1.1 ∈ (types id).properties then some types else none

/-- `Struct(props)`; undefined if it throws.  The struct types among the fields are kept
by their positions. -/
def Struct (props : List (Text × MType)) : MType :=
  let types : Types := fun i =>
    match props[i]? with
    | some (_, .struct _ layout) => { StructTypes.StructType.empty with layout }
    | _ => .empty
  match props.zipIdx.foldlM (addProp P basic props.length) types with
  | some types => .struct props (types props.length).layout
  | none => .undefined

/-- The struct types among the types of the properties, by their positions. -/
def embedded (props : List (Text × MType)) : Types := fun i =>
  match props[i]? with
  | some (_, .struct _ layout) => { StructTypes.StructType.empty with layout }
  | _ => .empty

theorem Struct_eq (props : List (Text × MType)) :
    Struct P basic props =
      (props.zipIdx.foldlM (addProp P basic props.length) (embedded props)).elim .undefined
        fun types => .struct props (types props.length).layout := by
  have hmatch : ∀ made : Option Types,
      (match made with
        | some types => MType.struct props (types props.length).layout
        | none => .undefined) =
      made.elim .undefined fun types => .struct props (types props.length).layout := by
    intro made
    cases made with
    | none => rfl
    | some types => rfl
  exact hmatch _

/-- `props.push([ map(prop[1]), prop[0] ])` for each property, with the cache it leaves. -/
def mapProps (map : Cache → Text → Except Exception MType × Cache) :
    List (Text × Option Text) → Cache → Except Exception (List (Text × MType)) × Cache
  | [], cache => (.ok [], cache)
  | (_, none) :: _, cache => (.error .falsy, cache)
  | (name, some type) :: rest, cache =>
      match map cache type with
      | (.error e, cache) => (.error e, cache)
      | (.ok t, cache) =>
          match mapProps map rest cache with
          | (.error e, cache) => (.error e, cache)
          | (.ok props, cache) => (.ok ((name, t) :: props), cache)

/-- `map`, where `getStruct` is given -/
def map (getStruct : Cache → Text → Except Exception MType × Cache) (cache : Cache) (type : Text) :
    Except Exception MType × Cache :=
  if type = [] then (.error .falsy, cache)
  else if isStruct type then getStruct cache type
  else (mapCode type, cache)

/-- What an assignment leaves in the cache. -/
def entry : MType → Option MType
  | .undefined => none
  | t => some t

-- `knownStructs`
variable (known : Text → Option Text)

/-- `getStruct`, on a stack with room for so many calls -/
def getStruct : Nat → Cache → Text → Except Exception MType × Cache
  | 0, cache, _ => (.error .overflow, cache)
  | stack + 1, cache, type =>
      match lookupName cache type with
      | some t => (.ok t, cache)
      | none =>
          match lookupName cache (parseStructName type) with
          | some t => (.ok t, cache)
          | none =>
              let parsed := parseStruct ((known (parseStructName type)).getD type)
              match mapProps (map (getStruct stack)) parsed.2 cache with
              | (.error e, cache) => (.error e, cache)
              | (.ok props, cache) =>
                  let z := Struct P basic props
                  (.ok z, Function.update cache parsed.1 (entry z))

end Struct

/-! ## Brackets -/

/-- A character that may stand in a name. -/
def isPlain (c : Char) : Bool :=
  !isOpen c && !isClose c && c != '"' && c != '=' && !isTerminator c

/-- The depth of brackets after a text, where they match and quotes stand inside them. -/
def level : Nat → Text → Option Nat
  | n, [] => some n
  | n, c :: t =>
      if isOpen c then level (n + 1) t
      else if isClose c then if n = 0 then none else level (n - 1) t
      else if c = '"' ∧ n = 0 then none
      else level n t

theorem level_append (n : Nat) (t u : Text) :
    level n (t ++ u) = (level n t).bind fun m => level m u := by
  fun_induction level n t <;> simp_all [level]

/-- More brackets around a text change nothing inside. -/
theorem level_succ {n m : Nat} {t : Text} (h : level n t = some m) :
    level (n + 1) t = some (m + 1) := by
  fun_induction level n t with
  | case1 n =>
      obtain rfl := Option.some.inj h
      rfl
  | case2 n c t hopen ih =>
      rw [level, if_pos hopen]
      exact ih h
  | case3 c t hopen hclose => cases h
  | case4 n c t hopen hclose hn ih =>
      have hne : n + 1 ≠ 0 := by omega
      have hpred : n + 1 - 1 = n - 1 + 1 := by omega
      rw [level, if_neg hopen, if_pos hclose, if_neg hne, hpred]
      exact ih h
  | case5 n c t hopen hclose hquote => cases h
  | case6 n c t hopen hclose hquote ih =>
      have hne : ¬ (c = '"' ∧ n + 1 = 0) := fun h => by omega
      rw [level, if_neg hopen, if_neg hclose, if_neg hne]
      exact ih h

theorem isPlain_iff {c : Char} : isPlain c = true ↔
    isOpen c = false ∧ isClose c = false ∧ c ≠ '"' ∧ c ≠ '=' ∧ isTerminator c = false := by
  simp [isPlain, and_assoc]

theorem level_plain {t : Text} (h : ∀ c ∈ t, isPlain c) (n : Nat) : level n t = some n := by
  induction t with
  | nil => rfl
  | cons c t ih =>
      obtain ⟨hopen, hclose, hquote, -⟩ := isPlain_iff.mp (h c List.mem_cons_self)
      simp only [level, hopen, hclose, hquote, Bool.false_eq_true, if_false, false_and]
      exact ih fun c hc => h c (List.mem_cons_of_mem _ hc)

/-- The brackets of a struct go around what matches inside. -/
theorem level_braces {t : Text} (h : level 1 t = some 1) :
    level 0 ('{' :: (t ++ ['}'])) = some 0 := by
  have hopen : level 0 ('{' :: (t ++ ['}'])) = level 1 (t ++ ['}']) := rfl
  rw [hopen, level_append, h]
  rfl

/-! ## Parsing -/

/-- A text up to its `=`, and from it on. -/
theorem takeWhile_equal {name : Text} (h : '=' ∉ name) (rest : Text) :
    (name ++ '=' :: rest).takeWhile (· ≠ '=') = name ∧
      (name ++ '=' :: rest).dropWhile (· ≠ '=') = '=' :: rest := by
  have hne : ∀ c ∈ name, decide (c ≠ '=') = true := fun c hc => by
    simpa using fun heq : c = '=' => h (heq ▸ hc)
  constructor
  · rw [List.takeWhile_append_of_pos hne]
    simp
  · rw [List.dropWhile_append_of_pos hne]
    simp

theorem takeWhile_all {name : Text} (h : '=' ∉ name) : name.takeWhile (· ≠ '=') = name := by
  have hne : ∀ c ∈ name, decide (c ≠ '=') = true := fun c hc => by
    simpa using fun heq : c = '=' => h (heq ▸ hc)
  exact List.takeWhile_eq_self_iff.mpr hne

theorem equal_notMem {name : Text} (h : ∀ c ∈ name, isPlain c) : '=' ∉ name := fun hmem =>
  (isPlain_iff.mp (h _ hmem)).2.2.2.1 rfl

/-- The loop takes a text whose brackets match as a whole. -/
theorem scan_level {n m : Nat} {t : Text} (h : level n t = some m) (cur : Text)
    (entries : List Text) :
    t.foldl Scan.char ⟨cur, n, entries⟩ = ⟨cur ++ t, m, entries⟩ := by
  fun_induction level n t generalizing cur with
  | case1 n =>
      obtain rfl := Option.some.inj h
      simp
  | case2 n c t hopen ih =>
      have hc : Scan.char ⟨cur, n, entries⟩ c = ⟨cur ++ [c], (n + 1 : Nat), entries⟩ := by
        have hquote : c ≠ '"' := by
          rintro rfl
          cases hopen
        simp [Scan.char, hquote, hopen]
      rw [List.foldl_cons, hc, ih h, List.append_assoc, List.singleton_append]
  | case3 c t hopen hclose => cases h
  | case4 n c t hopen hclose hn ih =>
      have hc : Scan.char ⟨cur, n, entries⟩ c = ⟨cur ++ [c], (n - 1 : Nat), entries⟩ := by
        have hquote : c ≠ '"' := by
          rintro rfl
          cases hclose
        have hpred : ((n - 1 : Nat) : Int) = n - 1 := by omega
        simp [Scan.char, hquote, hopen, hclose, hpred]
      rw [List.foldl_cons, hc, ih h, List.append_assoc, List.singleton_append]
  | case5 n c t hopen hclose hquote => cases h
  | case6 n c t hopen hclose hquote ih =>
      have hc : Scan.char ⟨cur, n, entries⟩ c = ⟨cur ++ [c], n, entries⟩ := by
        by_cases heq : c = '"'
        · have hpos : 0 < n := Nat.pos_of_ne_zero fun hn => hquote ⟨heq, hn⟩
          simp [Scan.char, heq, hpos]
        · simp [Scan.char, heq, hopen, hclose]
      rw [List.foldl_cons, hc, ih h, List.append_assoc, List.singleton_append]

/-- All entries, the last one included. -/
def Scan.finish (s : Scan) : List Text := s.entries ++ [s.curProp]

/-- What the loop finds in a text, in pairs. -/
def properties (text : Text) : List (Text × Option Text) :=
  pairs ((text.foldl Scan.char ⟨[], 0, []⟩).finish.drop 1)

/-- A text with `=`: the name before it and the properties behind it. -/
theorem parseStruct_equal {text name rest : Text} (hinner : inner text = name ++ '=' :: rest)
    (h : '=' ∉ name) :
    parseStructName text = name ∧ parseStruct text = (name, properties rest) := by
  obtain ⟨htake, hdrop⟩ := takeWhile_equal h rest
  have hequal : '=' ∈ name ++ '=' :: rest := by simp
  constructor
  · rw [parseStructName, hinner, htake]
  · simp only [parseStruct, hinner, if_pos hequal, htake, hdrop, properties, Scan.finish,
      List.drop_one, List.tail_cons]

/-- A text without `=` is all name, but it is kept under none. -/
theorem parseStruct_noEqual {text : Text} (h : '=' ∉ inner text) :
    parseStructName text = inner text ∧ parseStruct text = ([], properties (inner text)) := by
  constructor
  · rw [parseStructName, takeWhile_all h]
  · simp only [parseStruct, if_neg h]
    rfl

end StructCache

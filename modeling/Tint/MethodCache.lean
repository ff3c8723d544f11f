import Tint.StructEncoding
import Tint.Transition
import Tint.UniqueReading
import Mathlib.Data.Set.Basic

/-!
# The method cache of a bridged .NET object

A call of a bridged method looks its `MethodInfo` up in the table `_methods` of the
receiver, which is an instance or a class.  The key is computed by `typeSignature` from the
member name and one tag for each argument; only a miss asks `getMethodObject` or
`getStaticMethodObject`, which resolve the overload from the CLR types of the arguments.
A hit is right only if equal keys mean equal names and equal types.  No .NET member has the
name `_methods`, which would stand in the table's place.

The key is the member name followed by one word for each argument, without
separators: the short class name of a bridged object, `String`, or `Integer`
for everything else, because `typeof(args[i] === 'number' && ..)` is the text
`boolean` and so always true.  Three things can go wrong, and nothing else: two types may
have one word, a key may read in two ways, and, since the table is a plain object, a key
may be the name of a property that every object has.

* `cache_sound_iff` -- the cache is sound for a set of member names and a set of
  argument values exactly if none of the three can happen; the second is told by the
  overhangs of names and words over one another;
* `overhangs_finite` -- finitely many names and words have finitely many overhangs;
* `closesAlike_of_separate` -- no key reads in two ways if no name and no word
  is the beginning of another;
* `cache_unsound` -- `f(1)` and `f(true)` share a key.
-/

namespace MethodCache

open StructCache (objectPrototype)
open Transition (Reaches)
open UniqueReading (Piece Overhang Separate)

/-- A CLR type: `name` is `Type.Name`, the short name; the other parts complete
the assembly qualified name. -/
structure ClrType where
  assembly : String
  «namespace» : String
  name : String
  typeArguments : String
  deriving DecidableEq, Repr

/-- A type of mscorlib's `System` namespace. -/
def ClrType.system (name : String) : ClrType := ⟨"mscorlib", "System", name, ""⟩

/-- A JavaScript number, as far as V8 and `% 1` tell them apart. -/
inductive Number
  | integer (n : Int)
  | negativeZero
  /-- not a whole number, an infinity or NaN -/
  | other
  deriving DecidableEq, Repr

/-- An argument of a bridged method. -/
inductive Value
  | number (x : Number)
  | string (s : String)
  | boolean (b : Bool)
  | null
  | undefined
  | array (elements : List Value)
  /-- a bridged object: `pointer` refers to a CLR object of this type -/
  | instance (type : ClrType)
  /-- a bridged class: `classPointer` refers to the CLR type itself -/
  | class (type : ClrType)
  /-- any other object literal -/
  | object

/-- JavaScript's `typeof`. -/
def typeof : Value → String
  | .number _ => "number"
  | .string _ => "string"
  | .boolean _ => "boolean"
  | .undefined => "undefined"
  | .class _ => "function"
  | _ => "object"

/-- `args[i] && args[i].className`, where only bridged values have a `className`. -/
def className : Value → Option String
  | .instance type => some type.name
  | .class type => some type.name
  | _ => none

/-- `v % 1 === 0` -/
def isWhole : Value → Bool
  | .number (.integer _) => true
  | .number .negativeZero => true
  | _ => false

/-- `v === text` -/
def isText (v : Value) (text : String) : Bool :=
  match v with
  | .string s => s == text
  | _ => false

/-- `Array.isArray(v)` -/
def isArray : Value → Bool
  | .array _ => true
  | _ => false

/-- The text that one argument adds to the signature. -/
def tag (v : Value) : String :=
  if (className v).any (· ≠ "") then (className v).getD ""
  else if typeof v = "string" then "String"
  -- the closing bracket of `typeof(` stands behind the comparison
  else if typeof (.boolean (isText v "number" && isWhole v)) ≠ "" then "Integer"
  else if typeof (.boolean (isText v "number" && !isWhole v)) ≠ "" then "Double"
  else if typeof v = "boolean" then "Boolean"
  else if typeof v = "undefined" ∨ v matches .null then "null"
  else if isArray v then "Array"
  else "Object"

/-- `typeSignature(memberName, args).signature` -/
def typeSignature (memberName : String) (args : List Value) : String :=
  args.foldl (fun signature v => signature ++ tag v) memberName

/-- The CLR type of an argument, after `unwrapValues` and `MarshalV8ToCLR`;
`null` and `undefined` have none. -/
def argtype : Value → Option ClrType
  | .number (.integer n) =>
      if -2147483648 ≤ n ∧ n < 2147483648 then some (.system "Int32")
      else if 0 ≤ n ∧ n < 4294967296 then some (.system "UInt32")
      else some (.system "Double")
  | .number _ => some (.system "Double")
  | .string _ => some (.system "String")
  | .boolean _ => some (.system "Boolean")
  | .null => none
  | .undefined => none
  | .array _ => some (.system "Object[]")
  | .instance type => some type
  | .class _ => some (.system "RuntimeType")
  | .object => some ⟨"System.Core", "System.Dynamic", "ExpandoObject", ""⟩

/-- What .NET reflection finds on a type: a declared member by its name, an overload by
its argument types, and a member by its name alone.  Each may throw, for a name with several
overloads. -/
structure Reflection (M : Type) where
  declared : String → Except String (Option M)
  overload : String → List ClrType → Except String (Option M)
  named : String → Except String (Option M)

/-- The receiver of a call: an instance, or a class, whose members are static. -/
structure Receiver (M : Type) where
  static : Bool
  /-- the name of the receiver's type, for the text of an error -/
  target : String
  reflection : Reflection M

/-- `GetMethodObject`: by name as soon as an argument is null, otherwise by the
argument types and then by name. -/
def getMethodObject {M : Type} (r : Receiver M) (method : String)
    (types : List (Option ClrType)) : Except String M := do
  if none ∈ types then
    match ← r.reflection.declared method with
    | some rtnl => .ok rtnl
    | none => .error ("Method could not be found: " ++ method)
  else
    match ← r.reflection.overload method (types.filterMap id) with
    | some rtn => .ok rtn
    | none =>
        match ← r.reflection.named method with
        | some rtn => .ok rtn
        | none => .error ("Method could not be found (non-null-args): " ++ method)

/-- `GetStaticMethodObject`: it does not return after a null, and `GetMethod` then refuses
argument types with a null among them. -/
def getStaticMethodObject {M : Type} (r : Receiver M) (method : String)
    (types : List (Option ClrType)) : Except String M := do
  if none ∈ types then
    let _ ← r.reflection.declared method
    .error "Value cannot be null.\r\nParameter name: types"
  else
    match ← r.reflection.overload method (types.filterMap id) with
    | some rtn => .ok rtn
    | none =>
        match ← r.reflection.named method with
        | some rtn => .ok rtn
        | none => .error ("Method could not be found (non-null-args): " ++ method ++
            " on " ++ r.target)

/-- A call of a bridged method. -/
structure Call where
  memberName : String
  args : List Value

/-- The key under which the call's `MethodInfo` is cached. -/
def Call.key (c : Call) : String := typeSignature c.memberName c.args

/-- The argument types that the call is resolved with. -/
def Call.types (c : Call) : List (Option ClrType) := c.args.map argtype

/-- What a lookup for the call returns. -/
def Call.lookup {M : Type} (c : Call) (r : Receiver M) : Except String M :=
  if r.static then getStaticMethodObject r c.memberName c.types
  else getMethodObject r c.memberName c.types

/-- What `this._methods[key]` can be: a `MethodInfo`, or what every object has under the
name. -/
inductive Entry (M : Type)
  | methodInfo (m : M)
  | inherited (name : String)

/-- `this._methods`; there is none before the first call. -/
abbrev Methods (M : Type) := Option (String → Option M)

/-- `this._methods[key]` -/
def Methods.get {M : Type} (methods : Methods M) (key : String) : Option (Entry M) :=
  match methods.bind fun table => table key with
  | some m => some (.methodInfo m)
  | none => if key.toList ∈ objectPrototype then some (.inherited key) else none

/-- `this._methods[key] = m` -/
def Methods.set {M : Type} (methods : Methods M) (key : String) (m : M) : Methods M :=
  some (Function.update (methods.getD fun _ => none) key (some m))

/-- `prepargs`: what the call is made with, and the table it leaves. -/
def prepargs {M : Type} (r : Receiver M) (methods : Methods M) (c : Call) :
    Except String (Entry M) × Methods M :=
  let methods : Methods M := some (methods.getD fun _ => none)
  match methods.get c.key with
  | some entry => (.ok entry, methods)
  | none =>
      match c.lookup r with
      | .ok m => (.ok (.methodInfo m), methods.set c.key m)
      | .error e => (.error e, methods)

/-- One call after the other, on one receiver. -/
def step {M : Type} (r : Receiver M) (methods : Methods M) (c : Call) : Option (Methods M) :=
  some (prepargs r methods c).2

/-! ## Words -/

/-- The word of an argument: a bridged value's short class name, `String`, or
`Integer`. -/
def word : Value → String
  | .instance type => if type.name = "" then "Integer" else type.name
  | .class type => if type.name = "" then "Integer" else type.name
  | .string _ => "String"
  | _ => "Integer"

/-- A name and words, run together. -/
def spell (name : String) (words : List String) : String :=
  words.foldl (· ++ ·) name

/-- The conditions of `typeSignature` come down to the word. -/
theorem tag_eq_word (v : Value) : tag v = word v := by
  cases v with
  | «instance» type => by_cases h : type.name = "" <;> simp [tag, word, className, typeof, h]
  | «class» type => by_cases h : type.name = "" <;> simp [tag, word, className, typeof, h]
  | _ => simp [tag, word, className, typeof]

/-- The key is the member name followed by the words of the arguments. -/
theorem typeSignature_eq_spell (memberName : String) (args : List Value) :
    typeSignature memberName args = spell memberName (args.map word) := by
  simp only [typeSignature, spell, List.foldl_map, tag_eq_word]

/-- The characters of a spelled text. -/
theorem spell_toList (name : String) (words : List String) :
    (spell name words).toList = name.toList ++ (words.map String.toList).flatten := by
  induction words generalizing name with
  | nil => simp [spell]
  | cons w words ih =>
      have := ih (name ++ w)
      simp only [spell, List.foldl_cons] at this ⊢
      rw [this]
      simp

/-! ## The criterion -/

/-- What a piece of a key stands for: a member's name, or the type of an argument. -/
inductive Meaning
  | member (name : String)
  | type (t : Option ClrType)
  deriving DecidableEq

/-- A member name as the head of a key. -/
def head (name : String) : Piece Char Meaning := ⟨name.toList, .member name⟩

/-- The word of an argument. -/
def piece (v : Value) : Piece Char Meaning := ⟨(word v).toList, .type (argtype v)⟩

section Criterion

variable (N : Set String) (V : Set Value)

/-- The call uses the given names and values only. -/
def Call.Uses (c : Call) : Prop := c.memberName ∈ N ∧ ∀ v ∈ c.args, v ∈ V

/-- **Soundness.**  Calls with one key name the same member and resolve the same types;
and what a call is made with, after any calls before it on its receiver, is what a fresh
lookup returns. -/
structure Sound : Prop where
  tells : ∀ c c' : Call, c.Uses N V → c'.Uses N V → c.key = c'.key →
    c.memberName = c'.memberName ∧ c.types = c'.types
  fresh : ∀ (M : Type) (r : Receiver M) (methods : Methods M),
    Reaches (step r) (fun _ c => c.Uses N V) none methods → ∀ c : Call, c.Uses N V →
      (prepargs r methods c).1 = (c.lookup r).map .methodInfo

/-- Two argument values with the same word have the same CLR type. -/
def WordsTellTypes : Prop :=
  ∀ v ∈ V, ∀ v' ∈ V, word v = word v' → argtype v = argtype v'

/-- Whenever an overhang of names and words over one another comes down to nothing, what
was read on its two sides is the same. -/
def ClosesAlike : Prop :=
  ∀ ms ms' : List Meaning, Overhang (head '' N) (piece '' V) [] ms ms' → ms = ms'

/-- No name followed by words spells a property that every object has. -/
def NothingInherited : Prop :=
  ∀ n ∈ N, ∀ ws : List String, (∀ w ∈ ws, w ∈ word '' V) → (spell n ws).toList ∉ objectPrototype

variable {N V}

/-- A call as a reading of its key. -/
def Call.reading (c : Call) : List (Piece Char Meaning) := head c.memberName :: c.args.map piece

/-- The key of a call is the text of its reading. -/
theorem Call.text_reading (c : Call) : UniqueReading.text c.reading = c.key.toList := by
  rw [Call.key, typeSignature_eq_spell, spell_toList]
  simp only [reading, UniqueReading.text, List.map_cons, List.flatten_cons, head, List.map_map]
  rfl

/-- The meanings of the pieces are the member name and the types. -/
theorem Call.meanings_reading (c : Call) :
    UniqueReading.meanings c.reading = .member c.memberName :: c.types.map .type := by
  simp [reading, UniqueReading.meanings, head, types, piece, Function.comp_def]

/-- A call with the given names and values is a reading. -/
theorem Call.Uses.reading {c : Call} (h : c.Uses N V) :
    UniqueReading.Reading (head '' N) (piece '' V) c.reading := by
  refine .read ⟨_, h.1, rfl⟩ fun w hw => ?_
  obtain ⟨v, hv, rfl⟩ := List.mem_map.mp hw
  exact ⟨v, h.2 v hv, rfl⟩

/-- A list of images is the image of a list of arguments. -/
theorem exists_args {β : Type} {f : Value → β} {ws : List β} (h : ∀ w ∈ ws, w ∈ f '' V) :
    ∃ args : List Value, (∀ v ∈ args, v ∈ V) ∧ args.map f = ws := by
  induction ws with
  | nil => exact ⟨[], by simp, rfl⟩
  | cons w ws ih =>
      obtain ⟨args, hargs, rfl⟩ := ih fun u hu => h u (List.mem_cons_of_mem _ hu)
      obtain ⟨v, hv, rfl⟩ := h w List.mem_cons_self
      exact ⟨v :: args, by simpa using ⟨hv, hargs⟩, rfl⟩

/-- Each reading is that of a call. -/
theorem call_of_reading {r : List (Piece Char Meaning)}
    (h : UniqueReading.Reading (head '' N) (piece '' V) r) :
    ∃ c : Call, c.Uses N V ∧ c.reading = r := by
  obtain ⟨⟨n, hn, rfl⟩, hwords⟩ := h
  obtain ⟨args, hargs, rfl⟩ := exists_args hwords
  exact ⟨⟨n, args⟩, ⟨hn, hargs⟩, rfl⟩

/-- Same meanings, same name and types. -/
theorem Call.eq_of_meanings {c c' : Call}
    (h : UniqueReading.meanings c.reading = UniqueReading.meanings c'.reading) :
    c.memberName = c'.memberName ∧ c.types = c'.types := by
  rw [c.meanings_reading, c'.meanings_reading] at h
  obtain ⟨hname, htypes⟩ := List.cons.inj h
  refine ⟨by simpa using hname, List.map_injective_iff.mpr ?_ htypes⟩
  intro t t' ht
  simpa using ht

/-- Keys tell names and types apart exactly if overhangs close alike. -/
theorem tells_iff : (∀ c c' : Call, c.Uses N V → c'.Uses N V → c.key = c'.key →
      c.memberName = c'.memberName ∧ c.types = c'.types) ↔ ClosesAlike N V := by
  rw [ClosesAlike, ← UniqueReading.unique_iff]
  constructor
  · intro htells r r' hr hr' htext
    obtain ⟨c, hc, rfl⟩ := call_of_reading hr
    obtain ⟨c', hc', rfl⟩ := call_of_reading hr'
    rw [c.text_reading, c'.text_reading] at htext
    obtain ⟨hname, htypes⟩ := htells c c' hc hc' (String.toList_inj.mp htext)
    rw [c.meanings_reading, c'.meanings_reading, hname, htypes]
  · intro hunique c c' hc hc' hkey
    refine Call.eq_of_meanings (hunique _ _ hc.reading hc'.reading ?_)
    rw [c.text_reading, c'.text_reading, hkey]

/-- The lookup depends on the name and the types only. -/
theorem Call.lookup_congr {M : Type} {r : Receiver M} {c c' : Call}
    (h : c.memberName = c'.memberName ∧ c.types = c'.types) : c.lookup r = c'.lookup r := by
  rw [Call.lookup, Call.lookup, h.1, h.2]

/-- The words of a call's key. -/
theorem Call.key_eq (c : Call) : c.key = spell c.memberName (c.args.map word) :=
  typeSignature_eq_spell c.memberName c.args

/-- Each entry of the table is what a lookup for a call with its key returned. -/
def Filled {M : Type} (N : Set String) (V : Set Value) (r : Receiver M)
    (methods : Methods M) : Prop :=
  ∀ key m, (methods.bind fun table => table key) = some m →
    ∃ c : Call, c.Uses N V ∧ c.key = key ∧ c.lookup r = .ok m

/-- **Step lemma.**  A call leaves a filled table. -/
theorem Filled.step {M : Type} {r : Receiver M} {methods : Methods M} (h : Filled N V r methods)
    {c : Call} (hc : c.Uses N V) : Filled N V r (prepargs r methods c).2 := by
  have hmade : Filled N V r (some (methods.getD fun _ => none)) := by
    rcases methods with _ | table
    · intro key m hm
      simp at hm
    · exact h
  unfold prepargs
  simp only
  split
  · exact hmade
  · split
    · rename_i m hlookup
      intro key m' hm'
      simp only [Methods.set, Option.getD_some, Option.bind_some, Function.update_apply] at hm'
      split at hm'
      · rename_i hkey
        obtain rfl := Option.some.inj hm'
        exact ⟨c, hc, hkey.symm, hlookup⟩
      · exact hmade key m' hm'
    · exact hmade

/-- **Run lemma.**  Every table reached is filled. -/
theorem filled_of_reaches {M : Type} {r : Receiver M} {methods : Methods M}
    (h : Reaches (step r) (fun _ c => c.Uses N V) none methods) : Filled N V r methods :=
  h.invariant (Filled N V r) (fun _ _ hm => by simp at hm) fun _ c _ hs hc htaken => by
    obtain rfl := Option.some.inj htaken
    exact hs.step hc

/-- A call on a filled table is made with what a fresh lookup returns. -/
theorem prepargs_fresh {M : Type} {r : Receiver M} {methods : Methods M}
    (htells : ClosesAlike N V) (hown : NothingInherited N V) (h : Filled N V r methods)
    {c : Call} (hc : c.Uses N V) : (prepargs r methods c).1 = (c.lookup r).map .methodInfo := by
  have hkey : c.key.toList ∉ objectPrototype := by
    rw [c.key_eq]
    refine hown _ hc.1 _ fun w hw => ?_
    obtain ⟨v, hv, rfl⟩ := List.mem_map.mp hw
    exact ⟨v, hc.2 v hv, rfl⟩
  have hget : Methods.get (some (methods.getD fun _ => none)) c.key =
      (methods.bind fun table => table c.key).map .methodInfo := by
    rcases methods with _ | table
    · simp [Methods.get, hkey]
    · simp only [Methods.get, Option.getD_some, Option.bind_some, hkey, if_false]
      cases table c.key <;> rfl
  unfold prepargs
  simp only [hget]
  rcases hentry : methods.bind fun table => table c.key with _ | m
  · simp only [Option.map_none]
    cases c.lookup r <;> rfl
  · obtain ⟨c', hc', hsame, hlookup⟩ := h c.key m hentry
    have := Call.lookup_congr (r := r) (tells_iff.mpr htells c c' hc hc' hsame.symm)
    simp [this, hlookup, Except.map]

/-- A key that every object has as a property finds that property. -/
theorem prepargs_inherited {M : Type} {r : Receiver M} {c : Call}
    (h : c.key.toList ∈ objectPrototype) : (prepargs r none c).1 = .ok (.inherited c.key) := by
  simp [prepargs, Methods.get, h]

/-- **When the method cache is sound.**  For calls with member names of `N` and argument
values of `V`, in any number and any order, equal keys mean equal members and equal types
and each call is made with what a fresh lookup returns, exactly if a word stands for one
type only, overhangs of names and words close alike, and no key is a property that every
object has. -/
theorem cache_sound_iff (N : Set String) (V : Set Value) :
    Sound N V ↔
      (N.Nonempty → WordsTellTypes V) ∧ ClosesAlike N V ∧ NothingInherited N V := by
  constructor
  · intro hsound
    refine ⟨fun ⟨n, hn⟩ v hv v' hv' hword => ?_, tells_iff.mp hsound.tells,
      fun n hn ws hws hinherited => ?_⟩
    · have hkey : (⟨n, [v]⟩ : Call).key = (⟨n, [v']⟩ : Call).key := by
        simp [Call.key_eq, hword]
      have := hsound.tells ⟨n, [v]⟩ ⟨n, [v']⟩ ⟨hn, by simpa using hv⟩ ⟨hn, by simpa using hv'⟩ hkey
      simpa [Call.types] using this.2
    · obtain ⟨args, hargs, rfl⟩ := exists_args hws
      have hfresh := hsound.fresh Unit ⟨false, "", ⟨fun _ => .ok none, fun _ _ => .ok none,
        fun _ => .ok none⟩⟩ none .start ⟨n, args⟩ ⟨hn, hargs⟩
      rw [prepargs_inherited (c := ⟨n, args⟩) (by simpa [Call.key_eq] using hinherited)] at hfresh
      rcases hlookup : Call.lookup _ _ with e | m <;> rw [hlookup] at hfresh <;> cases hfresh
  · rintro ⟨-, hcloses, hown⟩
    exact ⟨tells_iff.mpr hcloses, fun M r methods hreach c hc =>
      prepargs_fresh hcloses hown (filled_of_reaches hreach) hc⟩

end Criterion

/-! ## The test on overhangs -/

/-- Finitely many names and words have finitely many overhangs. -/
theorem overhangs_finite {N : Set String} {V : Set Value} (hN : N.Finite)
    (hV : (piece '' V).Finite) :
    {rest | ∃ ms ms', Overhang (head '' N) (piece '' V) rest ms ms'}.Finite :=
  UniqueReading.overhangs_finite (hN.image head) hV

/-- No word is empty. -/
theorem word_ne_empty (v : Value) : word v ≠ "" := by
  cases v with
  | «instance» type => by_cases h : type.name = "" <;> simp [word, h]
  | «class» type => by_cases h : type.name = "" <;> simp [word, h]
  | _ => simp [word]

/-- **Separate names and words.**  Overhangs close alike if no name is the beginning of
another, and no word that of another or of the same word with another type. -/
theorem closesAlike_of_separate {N : Set String} {V : Set Value} (hN : Separate (head '' N))
    (hV : Separate (piece '' V)) : ClosesAlike N V := by
  refine UniqueReading.unique_iff.mp (UniqueReading.unique_of_separate hN hV ?_)
  rintro _ ⟨v, -, rfl⟩ hnil
  exact word_ne_empty v (String.toList_inj.mp (by simpa [piece] using hnil))

/-- **Every number and every boolean is an `Integer`.**  After `f(1)` the call
`f(true)` is answered with the `MethodInfo` of `f(Int32)`. -/
theorem cache_unsound : ¬ ∀ N V, Sound N V := by
  intro hall
  have hbad := (hall Set.univ Set.univ).tells ⟨"f", [.number (.integer 1)]⟩ ⟨"f", [.boolean true]⟩
    ⟨trivial, by simp⟩ ⟨trivial, by simp⟩ (by decide)
  exact absurd hbad.2 (by decide)

end MethodCache

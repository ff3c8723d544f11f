import Tint.BridgeImport
import Tint.BudgetSearch
import Tint.StructEncoding
import Tint.Transition

/-!
# Importing frameworks

`importFramework` loads the library of a framework, notes it in `cache`, and reads its
BridgeSupport file: an element `depends_on` imports another framework, and the others put
strings, numbers, struct types and getters of functions on an object.  At the end the
classes that are there get getters as well.  `recursive` says how many dependencies are
followed.

* `imported_iff` -- what an import loads: the frameworks that lead there through ones that
  were not imported before;
* `loaded_once` -- in any run, no framework is loaded twice;
* `function_defined_once` -- the getter of a function stays for good, where there was no
  property of its name, and an import that defines the function again throws, after its
  framework was noted.

`cache` is a plain object; no framework is named like what such an object inherits.
-/

namespace FrameworkImport

open BridgeImport (Text Name Names Tag findTags)
open Transition

/-! ## Objects -/

/-- `passedTypes`: what `flattenNode` makes of an argument or a return value. -/
inductive Flat
  | mk (type : Option Text) (args : List Flat) (retval : Option Flat)

/-- The function of an element `function`: the path of the library, and what it is called with. -/
structure Func where
  lib : Text
  name : Text
  args : List Flat
  retval : Option Flat
  variadic : Bool

/-- What a property of the object may be. -/
inductive Value
  /-- `getValue(node)`, or a struct type -/
  | text (value : Option Text)
  /-- `parseInt(getValue(node))` -/
  | number (value : Option Text)
  /-- A function that `createUnwrapperFunction` made: its identity. -/
  | unwrapper (id : Nat) (func : Func)
  | cls (name : Text)
  | undefined

/-- What a getter was made for. -/
inductive Getter
  | func (func : Func)
  | cls (name : Text)

/-- An own property of an object. -/
inductive Property
  | data (value : Value) (writable configurable : Bool)
  | getter (get : Getter) (configurable : Bool)

/-- What the code meets outside: the libraries of `path`, the file system, the dynamic linker and
the Objective-C runtime, and what the objects inherit. -/
structure Env where
  x64 : Bool
  join : List Text → Text
  basename : Text → Text → Text
  existsSync : Text → Bool
  read : Text → Option Text
  dlopen : Text → Bool
  /-- `fw.lib.get(name)` finds the symbol, and `ffi` knows the types. -/
  callable : Func → Bool
  getClassList : List Text → List Text
  /-- A property of the prototypes. -/
  inherits : Nat → Text → Bool
  /-- One of these that cannot be assigned. -/
  locked : Nat → Text → Bool

/-- The frameworks in `cache`, by name, with their directories; the libraries that were loaded; the
properties of the objects; the struct types; and how many functions were made. -/
structure State where
  cache : List (Text × Text)
  opened : List Text
  props : Nat × Text → Option Property
  knownStructs : Text → Option Text
  made : Nat

/-- A call comes back or throws. -/
inductive Outcome
  | returned (s : State)
  | threw (s : State)

namespace Outcome

/-- The state in which a call came to its end. -/
def state : Outcome → State
  | returned s => s
  | threw s => s

/-- Going on unless something was thrown. -/
def andThen : Outcome → (State → Outcome) → Outcome
  | returned s, f => f s
  | threw s, _ => threw s

end Outcome

namespace State

/-- A property is put under its key. -/
def setProp (s : State) (key : Nat × Text) (p : Option Property) : State :=
  { s with props := Function.update s.props key p }

/-- `knownStructs[parseStructName(structtype)] = structtype` -/
def addStruct (s : State) (structtype : Text) : State :=
  { s with
    knownStructs :=
      Function.update s.knownStructs (StructCache.parseStructName structtype) (some structtype) }

/-- `onto[name] = value` -/
def assign (env : Env) (s : State) (key : Nat × Text) (value : Value) : State :=
  match s.props key with
  | some (.data _ true configurable) => s.setProp key (some (.data value true configurable))
  | some (.data _ false _) => s
  | some (.getter _ _) => s
  | none => if env.locked key.1 key.2 then s else s.setProp key (some (.data value true true))

/-- `delete onto[name]` -/
def delete (s : State) (key : Nat × Text) : State :=
  match s.props key with
  | some (.data _ _ true) => s.setProp key none
  | some (.getter _ true) => s.setProp key none
  | _ => s

/-- `Object.defineProperty(onto, name, {get: …})`, with a function that is new: what cannot be
configured stays, and the call throws. -/
def defineProperty (s : State) (key : Nat × Text) (get : Getter) : Outcome :=
  match s.props key with
  | none => .returned (s.setProp key (some (.getter get false)))
  | some (.data _ _ true) => .returned (s.setProp key (some (.getter get true)))
  | some (.getter _ true) => .returned (s.setProp key (some (.getter get true)))
  | some _ => .threw s

/-- What `onto[name]` gives and does: a getter makes its value, and tries to put it in its place. -/
def get (env : Env) (s : State) (key : Nat × Text) : Option Value × Outcome :=
  match s.props key with
  | none => (some .undefined, .returned s)
  | some (.data value _ _) => (some value, .returned s)
  | some (.getter (.cls name) _) =>
    (some (.cls name), .returned ((s.delete key).assign env key (.cls name)))
  | some (.getter (.func func) _) =>
    if env.callable func then
      (some (.unwrapper s.made func),
        .returned ((({ s with made := s.made + 1 } : State).delete key).assign env key
          (.unwrapper s.made func)))
    else (none, .threw s)

end State

/-! ## The BridgeSupport file -/

/-- `node.attrib(name)` -/
def attr (node : Tag) (name : String) : Option Text :=
  match node with
  | .mk _ attrib _ => attrib.lookup name.toList

/-- `node.name` -/
def Tag.name : Tag → Text
  | .mk name _ _ => name

/-- `node.childNodes` -/
def Tag.children : Tag → List Tag
  | .mk _ _ children => children

/-- `a || b`, for strings -/
def either (a b : Option Text) : Option Text :=
  match a with
  | some (c :: rest) => some (c :: rest)
  | _ => b

/-- `getType` and `getValue`: the one for the architecture, else the other. -/
def getFor (env : Env) (node : Tag) (name : String) : Option Text :=
  if env.x64 then either (attr node (name ++ "64")) (attr node name)
  else either (attr node name) (attr node (name ++ "64"))

mutual

/-- `flattenNode` -/
def flattenNode (env : Env) : Tag → Flat
  | .mk name attrib children =>
    if attr (.mk name attrib children) "function_pointer" = some "true".toList then
      let (args, retval) := flattenAll env children
      .mk (getFor env (.mk name attrib children) "type") args retval
    else .mk (getFor env (.mk name attrib children) "type") [] none

/-- The arguments among the elements, and the last return value. -/
def flattenAll (env : Env) : List Tag → List Flat × Option Flat
  | [] => ([], none)
  | node :: rest =>
    let (args, retval) := flattenAll env rest
    if Tag.name node = "arg".toList then (flattenNode env node :: args, retval)
    else if Tag.name node = "retval".toList then
      (args, match retval with
        | some retval => some retval
        | none => some (flattenNode env node))
    else (args, retval)

end

/-- A key is always a string. -/
def keyText (name : Option Text) : Text := name.getD "undefined".toList

/-- An element other than `depends_on`. -/
def visitNode (env : Env) (onto : Nat) (lib : Text) (node : Tag) (s : State) : Outcome :=
  let name := attr node "name"
  let key := (onto, keyText name)
  if Tag.name node = "string_constant".toList then
    .returned (s.assign env key (.text (getFor env node "value")))
  else if Tag.name node = "enum".toList then
    if attr node "ignore" ≠ some "true".toList then
      .returned (s.assign env key (.number (getFor env node "value")))
    else .returned s
  else if Tag.name node = "struct".toList then
    match getFor env node "type" with
    | none => .threw s
    | some structtype =>
      .returned ((s.addStruct structtype).assign env key (.text (some structtype)))
  else if Tag.name node = "function".toList then
    match attr node "original" with
    | some (c :: original) =>
      match s.get env key with
      | (some value, .returned s) => .returned (s.assign env (onto, c :: original) value)
      | (_, outcome) => .threw outcome.state
    | _ =>
      let (args, retval) := flattenAll env (Tag.children node)
      s.defineProperty key
        (.func ⟨lib, keyText name, args, retval, attr node "variadic" = some "true".toList⟩)
  else .returned s

/-- Where frameworks are looked for. -/
def PATH : List Text :=
  ["/System/Library/Frameworks".toList, "/System/Library/PrivateFrameworks".toList]

/-- What is cut off the name. -/
def SUFFIX : Text := ".framework".toList

/-- `resolve` -/
def resolve (env : Env) (framework : Text) : Option Text :=
  let framework := if framework.getLast? = some '/' then framework.dropLast else framework
  if '/' ∈ framework then some framework
  else (PATH.map fun dir => env.join [dir, framework ++ SUFFIX]).find? env.existsSync

/-- The names that are looked for, as far as they are names. -/
def keysOf (names : List String) : List Name :=
  names.filterMap fun name =>
    if h : name.toList ≠ [] ∧ name.toList.all BridgeImport.isNameChar = true then
      some ⟨name.toList, h.1, List.all_eq_true.mp h.2⟩
    else none

/-- `{'retval':…,'arg':…}` -/
def signature (inner : Names) : Names := .table (keysOf ["retval", "arg"]) fun _ => inner

/-- `tags` -/
def tags : Names :=
  .table
    (keysOf ["function", "depends_on", "string_constant", "enum", "struct", "constant"])
    fun name =>
    if name.text = "function".toList then signature (signature .null) else .null

/-! ## The import -/

namespace State

/-- The names of `cache`. -/
def names (s : State) : List Text := s.cache.map Prod.fst

/-- `cache[shortName] = fw`, after `dlopen` -/
def load (s : State) (shortName base path : Text) : State :=
  { s with cache := s.cache ++ [(shortName, base)], opened := s.opened ++ [path] }

/-- The getters of the classes that `onto` has no property of the name of. -/
def defineClasses (env : Env) (onto : Nat) (s : State) : State :=
  (env.getClassList s.opened).foldl
    (fun s c =>
      if (s.props (onto, c)).isSome || env.inherits onto c then s
      else s.setProp (onto, c) (some (.getter (.cls c) true)))
    s

end State

/-- `parseBridgeFile`; `visit` is what it does with the elements. -/
def parseBridgeFile (env : Env) (visit : Text → List Tag → State → Outcome) (name base lib : Text)
    (s : State) : Outcome :=
  let bridgedir := env.join [base, "Resources".toList, "BridgeSupport".toList]
  let bridgeSupportXML := env.join [bridgedir, name ++ ".bridgesupport".toList]
  let bridgeSupportDylib := env.join [bridgedir, name ++ ".dylib".toList]
  if env.existsSync bridgeSupportXML then
    if env.existsSync bridgeSupportDylib && !env.dlopen bridgeSupportDylib then .threw s
    else
      let s := { s with
        opened :=
          if env.existsSync bridgeSupportDylib then s.opened ++ [bridgeSupportDylib] else s.opened }
      let lib := if env.existsSync bridgeSupportDylib then bridgeSupportDylib else lib
      match (env.read bridgeSupportXML).bind (findTags tags) with
      | none => .threw s
      | some nodes => visit lib nodes s
  else .returned s

/-- `importFramework`; `visit` is what it does with the elements of the file. -/
def importWith (env : Env) (visit : Text → List Tag → State → Outcome) (skip : Bool) (onto : Nat)
    (framework : Text) (s : State) : Outcome :=
  match resolve env framework with
  | none => .threw s
  | some base =>
    let shortName := env.basename base SUFFIX
    if shortName ∈ s.names then .returned s
    else
      let frameworkPath := env.join [base, shortName]
      if env.dlopen frameworkPath then
        (parseBridgeFile env visit shortName base frameworkPath
          (s.load shortName base frameworkPath)).andThen
          fun s => .returned (if skip then s else s.defineClasses env onto)
      else .threw s

/-- The loop over the elements.  With `recursive` at zero, no dependency is followed; else `follow`
has what a dependency is imported with, and what visits the rest when `recursive` is one less. -/
def eachNode (env : Env) (onto : Nat) (lib : Text)
    (follow : Option ((Text → State → Outcome) × (List Tag → State → Outcome))) :
    List Tag → State → Outcome
  | [], s => .returned s
  | node :: rest, s =>
    if Tag.name node = "depends_on".toList then
      match follow with
      | none => eachNode env onto lib follow rest s
      | some (importPath, visitRest) =>
        match attr node "path" with
        | none => .threw s
        | some path => (importPath path s).andThen (visitRest rest)
    else (visitNode env onto lib node s).andThen (eachNode env onto lib follow rest)

/-- The nodes of one file, with so many dependencies still to be followed. -/
def visitNodes (env : Env) (onto : Nat) : Nat → Text → List Tag → State → Outcome
  | 0, lib => eachNode env onto lib none
  | recursive + 1, lib =>
    eachNode env onto lib
      (some (importWith env (visitNodes env onto recursive) true onto,
        visitNodes env onto recursive lib))

/-- `importFramework` -/
def importFramework (env : Env) (framework : Text) (skip : Bool)
    (onto recursive : Nat) (s : State) :
    Outcome :=
  importWith env (visitNodes env onto recursive) skip onto framework s


/-! ## The loop -/

variable {env : Env} {onto r : Nat} {lib framework base name : Text} {node : Tag}
  {nodes rest : List Tag}
  {skip : Bool} {s t u : State}

theorem visitNodes_nil (env : Env) (onto r : Nat) (lib : Text) (s : State) :
    visitNodes env onto r lib [] s = .returned s := by
  cases r <;> rfl

/-- An element other than `depends_on`. -/
theorem visitNodes_other (h : Tag.name node ≠ "depends_on".toList) :
    visitNodes env onto r lib (node :: rest) s =
      (visitNode env onto lib node s).andThen (visitNodes env onto r lib rest) := by
  cases r with
  | zero => rw [visitNodes, eachNode, if_neg h]
  | succ r => rw [visitNodes, eachNode, if_neg h]

/-- Nothing is left for a dependency. -/
theorem visitNodes_spent (h : Tag.name node = "depends_on".toList) :
    visitNodes env onto 0 lib (node :: rest) s = visitNodes env onto 0 lib rest s := by
  rw [visitNodes, eachNode, if_pos h]

/-- A dependency is imported with one less, and so is the rest visited. -/
theorem visitNodes_depends (h : Tag.name node = "depends_on".toList) :
    visitNodes env onto (r + 1) lib (node :: rest) s =
      match attr node "path" with
      | none => .threw s
      | some path =>
        (importFramework env path true onto r s).andThen (visitNodes env onto r lib rest) := by
  rw [visitNodes, eachNode, if_pos h]
  rfl

/-- The elements of the BridgeSupport file; there are none without the file. -/
def fileNodes (env : Env) (base : Text) : Option (List Tag) :=
  let bridgedir := env.join [base, "Resources".toList, "BridgeSupport".toList]
  let bridgeSupportXML := env.join [bridgedir, env.basename base SUFFIX ++ ".bridgesupport".toList]
  if env.existsSync bridgeSupportXML then (env.read bridgeSupportXML).bind (findTags tags)
  else some []

/-- The parsing of a file throws, or visits its elements. -/
theorem parse_cases (env : Env) (onto r : Nat) (base lib : Text) (s : State) :
    ∃ opened, parseBridgeFile env (visitNodes env onto r) (env.basename base SUFFIX) base lib s =
        .threw { s with opened := opened } ∨
      ∃ lib' nodes, fileNodes env base = some nodes ∧
        parseBridgeFile env (visitNodes env onto r) (env.basename base SUFFIX) base lib s =
          visitNodes env onto r lib' nodes { s with opened := opened } := by
  simp only [parseBridgeFile, fileNodes]
  split
  · split
    · exact ⟨s.opened, .inl rfl⟩
    · cases hnodes : (env.read _).bind (findTags tags) with
      | none => exact ⟨_, .inl rfl⟩
      | some nodes => exact ⟨_, .inr ⟨_, nodes, rfl, rfl⟩⟩
  · exact ⟨s.opened, .inr ⟨lib, [], rfl, (visitNodes_nil ..).symm⟩⟩

/-- A framework that is in the cache is left alone. -/
theorem import_old (skip : Bool) (onto r : Nat) (hbase : resolve env framework = some base)
    (hold : env.basename base SUFFIX ∈ s.names) :
    importFramework env framework skip onto r s = .returned s := by
  rw [importFramework, importWith, hbase]
  exact if_pos hold

/-- A new framework is loaded and noted, and its file is read. -/
theorem import_new (skip : Bool) (onto r : Nat) (hbase : resolve env framework = some base)
    (hnew : env.basename base SUFFIX ∉ s.names)
    (hdlopen : env.dlopen (env.join [base, env.basename base SUFFIX]) = true) :
    ∃ path, importFramework env framework skip onto r s =
      (parseBridgeFile env (visitNodes env onto r) (env.basename base SUFFIX) base path
        (s.load (env.basename base SUFFIX) base path)).andThen
          fun s => .returned (if skip then s else s.defineClasses env onto) := by
  rw [importFramework, importWith, hbase]
  exact ⟨_, (if_neg hnew).trans (if_pos hdlopen)⟩

/-- **What an import does**: it throws before it has done anything, finds the framework in the
cache, or notes it and reads its file. -/
theorem import_cases (env : Env) (framework : Text) (skip : Bool) (onto r : Nat) (s : State) :
    importFramework env framework skip onto r s = .threw s ∨
    ∃ base, resolve env framework = some base ∧
      ((env.basename base SUFFIX ∈ s.names ∧ importFramework env framework skip onto r s =
        .returned s) ∨
      ∃ path, env.basename base SUFFIX ∉ s.names ∧
        env.dlopen (env.join [base, env.basename base SUFFIX]) = true ∧
        importFramework env framework skip onto r s = (parseBridgeFile env (visitNodes env onto r)
          (env.basename base SUFFIX) base path
            (s.load (env.basename base SUFFIX) base path)).andThen
            fun s => .returned (if skip then s else s.defineClasses env onto)) := by
  cases hbase : resolve env framework with
  | none =>
    rw [importFramework, importWith, hbase]
    exact .inl rfl
  | some base =>
    by_cases hold : env.basename base SUFFIX ∈ s.names
    · exact .inr ⟨base, rfl, .inl ⟨hold, import_old skip onto r hbase hold⟩⟩
    · cases hdlopen : env.dlopen (env.join [base, env.basename base SUFFIX]) with
      | true =>
        obtain ⟨path, h⟩ := import_new skip onto r hbase hold hdlopen
        exact .inr ⟨base, rfl, .inr ⟨path, hold, hdlopen, h⟩⟩
      | false =>
        left
        rw [importFramework, importWith, hbase]
        exact (if_neg hold).trans (if_neg (by simp [hdlopen]))

/-! ## What every step keeps -/

/-- A relation of the state before and after whatever an import is made of. -/
structure Kept (R : State → State → Prop) : Prop where
  refl (s : State) : R s s
  trans {s t u : State} : R s t → R t u → R s u
  node (env : Env) (onto : Nat) (lib : Text) (node : Tag) (s : State) :
    R s (visitNode env onto lib node s).state
  load {s : State} {name : Text} (base path : Text) : name ∉ s.names → R s (s.load name base path)
  opened (s : State) (opened : List Text) : R s { s with opened := opened }
  classes (env : Env) (onto : Nat) (s : State) : R s (s.defineClasses env onto)

variable {R : State → State → Prop}

theorem Kept.andThen (hR : Kept R) {o : Outcome} {f : State → Outcome} (ho : R s o.state)
    (hf : ∀ t, R t (f t).state) : R s (o.andThen f).state := by
  cases o with
  | returned t => exact hR.trans ho (hf t)
  | threw t => exact ho

/-- What the loop keeps, an import keeps. -/
theorem Kept.import_of_visit (hR : Kept R)
    (hvisit : ∀ lib nodes s, R s (visitNodes env onto r lib nodes s).state) :
    R s (importFramework env framework skip onto r s).state := by
  rcases import_cases env framework skip onto r s with h | ⟨base, -, ⟨-, h⟩ | ⟨path, hnew, -, h⟩⟩
  · rw [h]
    exact hR.refl s
  · rw [h]
    exact hR.refl s
  · rw [h]
    refine hR.andThen (hR.trans (hR.load base path hnew) ?_) fun t => ?_
    · obtain ⟨opened, hparse | ⟨lib, nodes, -, hparse⟩⟩ := parse_cases env onto r base path
        (s.load (env.basename base SUFFIX) base path)
      · rw [hparse]
        exact hR.opened _ opened
      · rw [hparse]
        exact hR.trans (hR.opened _ opened) (hvisit ..)
    · cases skip with
      | true => exact hR.refl t
      | false => exact hR.classes env onto t

/-- What is kept by each node is kept by all of them. -/
theorem Kept.visit (hR : Kept R) : R s (visitNodes env onto r lib nodes s).state := by
  induction r generalizing lib nodes s with
  | zero =>
    induction nodes generalizing s with
    | nil => exact hR.refl s
    | cons node rest ih =>
      by_cases h : Tag.name node = "depends_on".toList
      · rw [visitNodes_spent h]
        exact ih
      · rw [visitNodes_other h]
        exact hR.andThen (hR.node ..) fun _ => ih
  | succ r ihr =>
    induction nodes generalizing s with
    | nil => exact hR.refl s
    | cons node rest ih =>
      by_cases h : Tag.name node = "depends_on".toList
      · rw [visitNodes_depends h]
        cases attr node "path" with
        | none => exact hR.refl s
        | some path => exact hR.andThen (hR.import_of_visit fun _ _ _ => ihr) fun _ => ihr
      · rw [visitNodes_other h]
        exact hR.andThen (hR.node ..) fun _ => ih

/-- **Whatever is kept by what an import is made of is kept by the import**, whether it comes back
or throws. -/
theorem Kept.imported (hR : Kept R) : R s (importFramework env framework skip onto r s).state :=
  hR.import_of_visit fun _ _ _ => hR.visit

/-! ## What is loaded -/

@[simp] theorem setProp_cache (s : State) (key : Nat × Text) (p : Option Property) :
    (s.setProp key p).cache = s.cache := rfl

/-- Assigning a property does not touch the cache. -/
@[simp] theorem assign_cache (env : Env) (s : State) (key : Nat × Text) (value : Value) :
    (s.assign env key value).cache = s.cache := by
  unfold State.assign
  split
  · rfl
  · rfl
  · rfl
  · split <;> rfl

@[simp] theorem delete_cache (s : State) (key : Nat × Text) : (s.delete key).cache = s.cache := by
  unfold State.delete
  split <;> rfl

@[simp] theorem defineProperty_cache (s : State) (key : Nat × Text) (get : Getter) :
    (s.defineProperty key get).state.cache = s.cache := by
  unfold State.defineProperty
  split <;> rfl

/-- Reading a property does not touch the cache. -/
@[simp] theorem get_cache (env : Env) (s : State) (key : Nat × Text) :
    (s.get env key).2.state.cache = s.cache := by
  unfold State.get
  split
  · rfl
  · rfl
  · simp [Outcome.state]
  · split
    · simp [Outcome.state]
    · rfl

/-- Only imports write into the cache. -/
@[simp] theorem visitNode_cache (env : Env) (onto : Nat) (lib : Text) (node : Tag) (s : State) :
    (visitNode env onto lib node s).state.cache = s.cache := by
  unfold visitNode
  simp only
  split
  · simp [Outcome.state]
  split
  · split
    · simp [Outcome.state]
    · rfl
  split
  · split
    · rfl
    · simp [Outcome.state, State.addStruct]
  split
  · split
    · have hget := get_cache env s (onto, keyText (attr node "name"))
      rcases hgot : s.get env (onto, keyText (attr node "name")) with ⟨_ | value, t | t⟩ <;>
        rw [hgot] at hget <;> simpa [Outcome.state] using hget
    · simp
  · rfl

/-- Defining the classes does not touch the cache. -/
@[simp] theorem defineClasses_cache (env : Env) (onto : Nat) (s : State) :
    (s.defineClasses env onto).cache = s.cache := by
  unfold State.defineClasses
  induction env.getClassList s.opened generalizing s with
  | nil => rfl
  | cons c rest ih =>
    rw [List.foldl_cons, ih]
    split <;> rfl

/-- The names of the frameworks that these elements depend on. -/
def dependencyNames (env : Env) (nodes : List Tag) : List Text :=
  nodes.filterMap fun node =>
    if Tag.name node = "depends_on".toList then
      ((attr node "path").bind (resolve env)).map (env.basename · SUFFIX)
    else none

theorem dependencyNames_other (h : Tag.name node ≠ "depends_on".toList) :
    dependencyNames env (node :: rest) = dependencyNames env rest := by
  rw [dependencyNames, List.filterMap_cons, if_neg h]
  rfl

theorem dependencyNames_depends {path : Text} (h : Tag.name node = "depends_on".toList)
    (hpath : attr node "path" = some path) (hbase : resolve env path = some base) :
    dependencyNames env (node :: rest) = env.basename base SUFFIX :: dependencyNames env rest := by
  rw [dependencyNames, List.filterMap_cons, if_pos h, hpath, Option.bind_some, hbase]
  rfl

/-- Frameworks of one name that can be loaded depend on the same ones. -/
def Named (env : Env) (dependencies : Text → List Text) : Prop :=
  ∀ base nodes, env.dlopen (env.join [base, env.basename base SUFFIX]) = true →
    fileNodes env base = some nodes → dependencyNames env nodes =
      dependencies (env.basename base SUFFIX)

variable {dependencies : Text → List Text}

theorem andThen_returned {o : Outcome} {f : State → Outcome} (h : o.andThen f = .returned t) :
    ∃ u, o = .returned u ∧ f u = .returned t := by
  cases o with
  | returned u => exact ⟨u, rfl, h⟩
  | threw u => cases h

/-- An import that comes back searches. -/
theorem names_import_of_visit (hnamed : Named env dependencies)
    (hvisit : ∀ {lib nodes s t}, visitNodes env onto r lib nodes s = .returned t →
      t.names = BudgetSearch.visits dependencies r (dependencyNames env nodes) s.names)
    (h : importFramework env framework skip onto r s = .returned t) :
    ∃ base, resolve env framework = some base ∧
      t.names = BudgetSearch.search dependencies r (env.basename base SUFFIX) s.names := by
  rcases import_cases env framework skip onto r s with
    h' | ⟨base, hbase, ⟨hold, h'⟩ | ⟨path, hnew, hdlopen, h'⟩⟩
  · cases h'.symm.trans h
  · cases h'.symm.trans h
    exact ⟨base, hbase, (if_pos hold).symm⟩
  · obtain ⟨u, hu, hclasses⟩ := andThen_returned (h'.symm.trans h)
    refine ⟨base, hbase, ?_⟩
    have hnames : t.names = u.names := by
      cases hclasses
      cases skip with
      | true => rfl
      | false => exact congrArg (List.map Prod.fst) (defineClasses_cache env onto u)
    obtain ⟨opened, hparse | ⟨lib, nodes, hnodes, hparse⟩⟩ := parse_cases env onto r base path
      (s.load (env.basename base SUFFIX) base path)
    · cases hparse.symm.trans hu
    · rw [BudgetSearch.search, if_neg hnew, hnames, hvisit (hparse.symm.trans hu),
        hnamed base nodes hdlopen hnodes]
      simp [State.names, State.load]

/-- The loop searches. -/
theorem names_visit (hnamed : Named env dependencies)
    (h : visitNodes env onto r lib nodes s = .returned t) :
    t.names = BudgetSearch.visits dependencies r (dependencyNames env nodes) s.names := by
  induction r generalizing lib nodes s t with
  | zero =>
    induction nodes generalizing s with
    | nil =>
      cases h
      rfl
    | cons node rest ih =>
      by_cases hnode : Tag.name node = "depends_on".toList
      · rw [visitNodes_spent hnode] at h
        exact ih h
      · rw [visitNodes_other hnode] at h
        obtain ⟨u, hu, h⟩ := andThen_returned h
        have hcache := visitNode_cache env onto lib node s
        rw [hu] at hcache
        rw [ih h, dependencyNames_other hnode]
        exact congrArg (List.map Prod.fst) hcache
  | succ r ihr =>
    induction nodes generalizing s with
    | nil =>
      cases h
      rfl
    | cons node rest ih =>
      by_cases hnode : Tag.name node = "depends_on".toList
      · rw [visitNodes_depends hnode] at h
        cases hpath : attr node "path" with
        | none =>
          rw [hpath] at h
          cases h
        | some path =>
          rw [hpath] at h
          obtain ⟨u, hu, h⟩ := andThen_returned h
          obtain ⟨base, hbase, hnames⟩ := names_import_of_visit hnamed ihr hu
          rw [ihr h, hnames, dependencyNames_depends hnode hpath hbase]
          rfl
      · rw [visitNodes_other hnode] at h
        obtain ⟨u, hu, h⟩ := andThen_returned h
        have hcache := visitNode_cache env onto lib node s
        rw [hu] at hcache
        rw [ih h, dependencyNames_other hnode]
        exact congrArg (BudgetSearch.visits _ _ _) (congrArg (List.map Prod.fst) hcache)

/-- **An import loads what the framework leads to** through frameworks that were not imported
before, and nothing else, when `recursive` is at least the number of their dependencies. -/
theorem imported_iff (hnamed : Named env dependencies)
    (hret : importFramework env framework skip onto r s = .returned t)
    (hbase : resolve env framework = some base)
    {U : Finset Text} (hroot : env.basename base SUFFIX ∈ U)
    (hU : ∀ a ∈ U, ∀ b ∈ dependencies a, b ∈ U)
    (hbudget : BudgetSearch.edges dependencies U s.names ≤ r) :
    name ∈ t.names ↔
      name ∈ s.names ∨ BudgetSearch.Free dependencies s.names (env.basename base SUFFIX) name := by
  obtain ⟨base', hbase', hnames⟩ := names_import_of_visit hnamed (names_visit hnamed) hret
  cases hbase.symm.trans hbase'
  rw [hnames]
  exact BudgetSearch.mem_search_iff hU hroot hbudget

/-! ## Runs -/

/-- What the program does: each call may meet another file system and another runtime. -/
inductive Action
  | importFramework (env : Env) (framework : Text) (skip : Bool) (onto recursive : Nat)
  | get (env : Env) (key : Nat × Text)
  | assign (env : Env) (key : Nat × Text) (value : Value)
  | delete (key : Nat × Text)

/-- One step; what it throws, the program catches. -/
def step (s : State) : Action → Option State
  | .importFramework env framework skip onto recursive =>
    some (FrameworkImport.importFramework env framework skip onto recursive s).state
  | .get env key => some (s.get env key).2.state
  | .assign env key value => some (s.assign env key value)
  | .delete key => some (s.delete key)

/-- Nothing was imported. -/
def start (props : Nat × Text → Option Property) : State := ⟨[], [], props, fun _ => none, 0⟩

theorem names_of_cache (h : t.cache = s.cache) : t.names = s.names := congrArg (List.map Prod.fst) h

/-- The cache grows, by names that it has not. -/
theorem kept_names : Kept fun s t => s.names <+: t.names ∧ (s.names.Nodup → t.names.Nodup) where
  refl s := ⟨List.prefix_refl _, id⟩
  trans h h' := ⟨h.1.trans h'.1, h'.2 ∘ h.2⟩
  node env onto lib node s := by
    rw [names_of_cache (visitNode_cache env onto lib node s)]
    exact ⟨List.prefix_refl _, id⟩
  load {s name} base path hnew := by
    have hnames : (s.load name base path).names = s.names ++ [name] := by
      simp [State.names, State.load]
    rw [hnames]
    refine ⟨List.prefix_append _ _, fun h => List.nodup_append.mpr ⟨h, List.nodup_singleton _, ?_⟩⟩
    rintro a ha b hb rfl
    exact hnew (List.mem_singleton.mp hb ▸ ha)
  opened _ _ := ⟨List.prefix_refl _, id⟩
  classes env onto s := by
    rw [names_of_cache (defineClasses_cache env onto s)]
    exact ⟨List.prefix_refl _, id⟩

/-- An import adds its framework, and what its file adds. -/
theorem length_import_le
    (hvisit : ∀ lib nodes s, (visitNodes env onto r lib nodes s).state.names.length <
      s.names.length + 2 ^ r) :
    (importFramework env framework skip onto r s).state.names.length ≤ s.names.length + 2 ^ r := by
  rcases import_cases env framework skip onto r s with h | ⟨base, -, ⟨-, h⟩ | ⟨path, -, -, h⟩⟩
  · rw [h]
    exact Nat.le_add_right _ _
  · rw [h]
    exact Nat.le_add_right _ _
  · obtain ⟨opened, hparse | ⟨lib, nodes, -, hparse⟩⟩ := parse_cases env onto r base path
      (s.load (env.basename base SUFFIX) base path)
    · have hpos : 0 < 2 ^ r := Nat.two_pow_pos r
      rw [h, hparse]
      simp only [Outcome.andThen, Outcome.state, State.names, State.load, List.map_append,
        List.length_append, List.length_map, List.length_cons, List.length_nil]
      omega
    · have hlt := hvisit lib nodes
        { s.load (env.basename base SUFFIX) base path with opened := opened }
      have hload :
          State.names { s.load (env.basename base SUFFIX) base path with opened := opened } =
            s.names ++ [env.basename base SUFFIX] := by simp [State.names, State.load]
      rw [hload, List.length_append, List.length_singleton] at hlt
      rw [h, hparse]
      cases hout : visitNodes env onto r lib nodes
          { s.load (env.basename base SUFFIX) base path with opened := opened } with
      | threw u =>
        rw [hout] at hlt
        exact Nat.le_of_lt_succ (by simpa [Outcome.andThen, Outcome.state,
          add_right_comm] using hlt)
      | returned u =>
        rw [hout] at hlt
        have hclasses : (if skip then u else u.defineClasses env onto).names = u.names := by
          cases skip with
          | true => rfl
          | false => exact names_of_cache (defineClasses_cache env onto u)
        simp only [Outcome.andThen, Outcome.state, hclasses] at hlt ⊢
        omega

/-- The budget bounds what is loaded, also where the import throws. -/
theorem length_visit_lt :
    (visitNodes env onto r lib nodes s).state.names.length < s.names.length + 2 ^ r := by
  induction r generalizing lib nodes s with
  | zero =>
    induction nodes generalizing s with
    | nil => exact Nat.lt_succ_self _
    | cons node rest ih =>
      by_cases hnode : Tag.name node = "depends_on".toList
      · rw [visitNodes_spent hnode]
        exact ih
      · have hnames := names_of_cache (visitNode_cache env onto lib node s)
        rw [visitNodes_other hnode]
        cases hout : visitNode env onto lib node s with
        | threw u =>
          rw [hout] at hnames
          exact hnames ▸ Nat.lt_succ_self _
        | returned u =>
          rw [hout] at hnames
          exact hnames ▸ ih
  | succ r ihr =>
    have htwice : 2 ^ (r + 1) = 2 ^ r + 2 ^ r := Nat.two_pow_succ r
    have hpos : 0 < 2 ^ r := Nat.two_pow_pos r
    induction nodes generalizing s with
    | nil =>
      show s.names.length < _
      omega
    | cons node rest ih =>
      by_cases hnode : Tag.name node = "depends_on".toList
      · rw [visitNodes_depends hnode]
        cases attr node "path" with
        | none =>
          show s.names.length < _
          omega
        | some path =>
          have himport : (importFramework env path true onto r s).state.names.length ≤
            s.names.length + 2 ^ r :=
            length_import_le fun _ _ _ => ihr
          simp only
          cases hout : importFramework env path true onto r s with
          | threw u =>
            rw [hout] at himport
            show u.names.length < _
            change u.names.length ≤ _ at himport
            omega
          | returned u =>
            rw [hout] at himport
            change u.names.length ≤ _ at himport
            have hrest : (visitNodes env onto r lib rest u).state.names.length <
              u.names.length + 2 ^ r := ihr
            show (visitNodes env onto r lib rest u).state.names.length < _
            omega
      · have hnames := names_of_cache (visitNode_cache env onto lib node s)
        rw [visitNodes_other hnode]
        cases hout : visitNode env onto lib node s with
        | threw u =>
          rw [hout] at hnames
          show u.names.length < _
          rw [show u.names = s.names from hnames]
          omega
        | returned u =>
          rw [hout] at hnames
          exact hnames ▸ ih

/-- **No framework is loaded twice** in any run, and no import loads more than `2 ^ recursive`,
whatever the files say and wherever it throws. -/
theorem loaded_once {props : Nat × Text → Option Property}
    (hreach : Reaches step (fun _ _ => True) (start props) s) (env : Env)
    (framework : Text) (skip : Bool)
    (onto r : Nat) :
    let t := (importFramework env framework skip onto r s).state
    s.names <+: t.names ∧ t.names.Nodup ∧ t.names.length ≤ s.names.length + 2 ^ r := by
  have hnodup : s.names.Nodup := by
    refine hreach.invariant (fun s => s.names.Nodup) List.nodup_nil ?_
    rintro s a t hs - h
    cases a with
    | importFramework env framework skip onto r =>
      cases h
      exact kept_names.imported.2 hs
    | get env key =>
      cases h
      rwa [names_of_cache (get_cache env s key)]
    | assign env key value =>
      cases h
      rwa [names_of_cache (assign_cache env s key value)]
    | delete key =>
      cases h
      rwa [names_of_cache (delete_cache s key)]
  exact ⟨kept_names.imported.1, kept_names.imported.2 hnodup,
    length_import_le fun _ _ _ => length_visit_lt⟩

/-! ## Getters of functions -/

/-- A getter that cannot be configured. -/
def Fixed (s : State) (key : Nat × Text) (g : Getter) : Prop := s.props key = some (.getter g false)

variable {key key' : Nat × Text} {g : Getter}

theorem Fixed.setProp (h : Fixed s key g) {p : Option Property} (hne : key' ≠ key) :
    Fixed (s.setProp key' p) key g :=
  (Function.update_of_ne hne.symm _ _).trans h

/-- An assignment to it is ignored. -/
theorem Fixed.assign (h : Fixed s key g) (env : Env) (key' : Nat × Text) (value : Value) :
    Fixed (s.assign env key' value) key g := by
  unfold State.assign
  by_cases hkey : key' = key
  · subst hkey
    rw [show s.props key' = some (.getter g false) from h]
    exact h
  · split
    · exact h.setProp hkey
    · exact h
    · exact h
    · split
      · exact h
      · exact h.setProp hkey

/-- It is not deleted. -/
theorem Fixed.delete (h : Fixed s key g) (key' : Nat × Text) : Fixed (s.delete key') key g := by
  unfold State.delete
  by_cases hkey : key' = key
  · subst hkey
    rw [show s.props key' = some (.getter g false) from h]
    exact h
  · split
    · exact h.setProp hkey
    · exact h.setProp hkey
    · exact h

/-- It is not defined again: that throws. -/
theorem Fixed.redefined (h : Fixed s key g) (get : Getter) :
    s.defineProperty key get = .threw s := by
  rw [State.defineProperty, show s.props key = some (.getter g false) from h]

/-- Defining any property leaves a fixed one fixed. -/
theorem Fixed.defineProperty (h : Fixed s key g) (key' : Nat × Text) (get : Getter) :
    Fixed (s.defineProperty key' get).state key g := by
  unfold State.defineProperty
  by_cases hkey : key' = key
  · subst hkey
    rw [show s.props key' = some (.getter g false) from h]
    exact h
  · split
    · exact h.setProp hkey
    · exact h.setProp hkey
    · exact h.setProp hkey
    · exact h

/-- Reading any property leaves a fixed one fixed. -/
theorem Fixed.get (h : Fixed s key g) (env : Env) (key' : Nat × Text) :
    Fixed (s.get env key').2.state key g := by
  unfold State.get
  split
  · exact h
  · exact h
  · exact (h.delete key').assign env key' _
  · split
    · have hmade : Fixed { s with made := s.made + 1 } key g := h
      exact (hmade.delete key').assign env key' _
    · exact h

/-- No element changes it. -/
theorem Fixed.visitNode (h : Fixed s key g) (env : Env) (onto : Nat) (lib : Text) (node : Tag) :
    Fixed (visitNode env onto lib node s).state key g := by
  unfold FrameworkImport.visitNode
  simp only
  split
  · exact h.assign env _ _
  split
  · split
    · exact h.assign env _ _
    · exact h
  split
  · split
    · exact h
    · rename_i structtype _
      have hadd : Fixed (s.addStruct structtype) key g := h
      exact hadd.assign env _ _
  split
  · split
    · have hget := h.get env (onto, keyText (attr node "name"))
      rcases hgot : s.get env (onto, keyText (attr node "name")) with ⟨_ | value, t | t⟩ <;>
        rw [hgot] at hget
      · exact hget
      · exact hget
      · exact Fixed.assign hget env _ _
      · exact hget
    · exact h.defineProperty _ _
  · exact h

/-- The getters of classes leave it. -/
theorem Fixed.defineClasses (h : Fixed s key g) (env : Env) (onto : Nat) :
    Fixed (s.defineClasses env onto) key g := by
  unfold State.defineClasses
  induction env.getClassList s.opened generalizing s with
  | nil => exact h
  | cons c rest ih =>
    rw [List.foldl_cons]
    refine ih ?_
    split
    · exact h
    · rename_i hno
      refine h.setProp ?_
      rintro rfl
      rw [show s.props (onto, c) = some (.getter g false) from h] at hno
      simp at hno

/-- What an import keeps of it. -/
theorem kept_fixed (key : Nat × Text) (g : Getter) :
    Kept fun s t => Fixed s key g → Fixed t key g where
  refl _ := id
  trans h h' := h' ∘ h
  node env onto lib node _ h := h.visitNode env onto lib node
  load _ _ _ h := h
  opened _ _ h := h
  classes env onto _ h := h.defineClasses env onto

/-- One step keeps it. -/
theorem Fixed.step {a : Action} (h : Fixed s key g) (ht : step s a = some t) : Fixed t key g := by
  cases a with
  | importFramework env framework skip onto r =>
    cases ht
    exact (kept_fixed key g).imported h
  | get env key' =>
    cases ht
    exact h.get env key'
  | assign env key' value =>
    cases ht
    exact h.assign env key' value
  | delete key' =>
    cases ht
    exact h.delete key'

/-- An element that defines a function, and no alias. -/
def DefinesFunction (node : Tag) : Prop :=
  Tag.name node = "function".toList ∧ (attr node "original" = none ∨ attr node "original" = some [])

/-- A function that is defined again. -/
theorem Fixed.visit_again (h : Fixed s (onto, keyText (attr node "name")) g)
    (hdefines : DefinesFunction node) :
    visitNodes env onto r lib (node :: rest) s = .threw s := by
  obtain ⟨hfunction, horiginal⟩ := hdefines
  have hother : Tag.name node ≠ "depends_on".toList := by
    rw [hfunction]
    decide
  have hthrows : FrameworkImport.visitNode env onto lib node s = .threw s := by
    rcases horiginal with horiginal | horiginal <;> 
      simp only [FrameworkImport.visitNode, hfunction, horiginal] <;> exact h.redefined _
  rw [visitNodes_other hother, hthrows]
  rfl

/-- The loop throws there or before. -/
theorem Fixed.visit_throws (h : Fixed s (onto, keyText (attr node "name")) g) (hmem : node ∈ nodes)
    (hdefines : DefinesFunction node) : ∃ u, visitNodes env onto r lib nodes s = .threw u := by
  induction r generalizing lib nodes s with
  | zero =>
    induction nodes generalizing s with
    | nil => cases hmem
    | cons first rest ih =>
      rcases List.mem_cons.mp hmem with rfl | hmem
      · exact ⟨s, h.visit_again hdefines⟩
      · by_cases hfirst : Tag.name first = "depends_on".toList
        · rw [visitNodes_spent hfirst]
          exact ih h hmem
        · have hkept := h.visitNode env onto lib first
          rw [visitNodes_other hfirst]
          cases hout : FrameworkImport.visitNode env onto lib first s with
          | threw u => exact ⟨u, rfl⟩
          | returned u =>
            rw [hout] at hkept
            exact ih hkept hmem
  | succ r ihr =>
    induction nodes generalizing s with
    | nil => cases hmem
    | cons first rest ih =>
      rcases List.mem_cons.mp hmem with rfl | hmem
      · exact ⟨s, h.visit_again hdefines⟩
      · by_cases hfirst : Tag.name first = "depends_on".toList
        · rw [visitNodes_depends hfirst]
          cases attr first "path" with
          | none => exact ⟨s, rfl⟩
          | some path =>
            have hkept : Fixed (importFramework env path true onto r s).state _ g :=
              (kept_fixed _ g).imported h
            simp only
            cases hout : importFramework env path true onto r s with
            | threw u => exact ⟨u, rfl⟩
            | returned u =>
              rw [hout] at hkept
              exact ihr hkept hmem
        · have hkept := h.visitNode env onto lib first
          rw [visitNodes_other hfirst]
          cases hout : FrameworkImport.visitNode env onto lib first s with
          | threw u => exact ⟨u, rfl⟩
          | returned u =>
            rw [hout] at hkept
            exact ih hkept hmem

/-- Reading it makes a function, and leaves it. -/
theorem Fixed.get_func {func : Func} (h : Fixed s key (.func func))
    (hcallable : env.callable func = true) :
    s.get env key = (some (.unwrapper s.made func), .returned { s with made := s.made + 1 }) := by
  have hprop : s.props key = some (.getter (.func func) false) := h
  simp [State.get, hprop, hcallable, State.delete, State.assign]

/-- What a state comes to: by the parts of an import, of which it may be in the midst, and by what
the program does. -/
inductive Later (s : State) : State → Prop
  | refl : Later s s
  | node {t : State} (env : Env) (onto : Nat) (lib : Text) (node : Tag) :
    Later s t → Later s (visitNode env onto lib node t).state
  | load {t : State} (name base path : Text) : Later s t → Later s (t.load name base path)
  | opened {t : State} (opened : List Text) : Later s t → Later s { t with opened := opened }
  | classes {t : State} (env : Env) (onto : Nat) : Later s t → Later s (t.defineClasses env onto)
  | act {t u : State} (a : Action) : Later s t → step t a = some u → Later s u

/-- What is later than a later state is later. -/
theorem Later.trans (h : Later s t) (h' : Later t u) : Later s u := by
  induction h' with
  | refl => exact h
  | node env onto lib node _ ih => exact .node env onto lib node ih
  | load name base path _ ih => exact .load name base path ih
  | opened opened _ ih => exact .opened opened ih
  | classes env onto _ ih => exact .classes env onto ih
  | act a _ htaken ih => exact .act a ih htaken

/-- So the loop over the elements and whole imports lead to later states. -/
theorem kept_later : Kept Later where
  refl _ := .refl
  trans := .trans
  node env onto lib node _ := .node env onto lib node .refl
  load base path _ := .load _ base path .refl
  opened _ opened := .opened opened .refl
  classes env onto _ := .classes env onto .refl

/-- It is there in every later state. -/
theorem Fixed.later (h : Fixed s key g) (hlater : Later s t) : Fixed t key g := by
  induction hlater with
  | refl => exact h
  | node env onto lib node _ ih => exact ih.visitNode env onto lib node
  | load _ _ _ _ ih => exact ih
  | opened _ _ ih => exact ih
  | classes env onto _ ih => exact ih.defineClasses env onto
  | act a _ htaken ih => exact ih.step htaken

/-- Where the object has no property of the name, the element makes a getter that cannot be
configured. -/
theorem visitNode_function (hdefines : DefinesFunction node)
    (hnone : s.props (onto, keyText (attr node "name")) = none) (env : Env) (lib : Text) :
    ∃ func : Func, func.lib = lib ∧ func.name = keyText (attr node "name") ∧
      Fixed (visitNode env onto lib node s).state (onto, keyText (attr node "name"))
        (.func func) := by
  obtain ⟨hfunction, horiginal⟩ := hdefines
  refine ⟨⟨lib, keyText (attr node "name"), (flattenAll env (Tag.children node)).1,
    (flattenAll env (Tag.children node)).2, attr node "variadic" = some "true".toList⟩,
    rfl, rfl, ?_⟩
  have hdefined (get : Getter) : Fixed
      (s.defineProperty (onto, keyText (attr node "name")) get).state
      (onto, keyText (attr node "name")) get := by
    rw [State.defineProperty, hnone]
    exact Function.update_self ..
  rcases horiginal with horiginal | horiginal
  · simp only [visitNode, hfunction, horiginal]
    exact hdefined _
  · simp only [visitNode, hfunction, horiginal]
    exact hdefined _

/-- **A function is defined once**: where the object has no property of its name, the element makes
a getter that stays in every later state; reading it gives a new function each time, and an import
of a framework that has the function again throws.  That framework
is left in the cache, so importing it again does nothing. -/
theorem function_defined_once (hdefines : DefinesFunction node)
    (hnone : s.props (onto, keyText (attr node "name")) = none) (env₀ : Env) (lib : Text)
    (hlater : Later (visitNode env₀ onto lib node s).state t) (env : Env) :
    ∃ func : Func, func.lib = lib ∧ func.name = keyText (attr node "name") ∧
      Fixed t (onto, keyText (attr node "name")) (.func func) ∧
      (env.callable func = true → t.get env (onto, keyText (attr node "name")) =
        (some (.unwrapper t.made func), .returned { t with made := t.made + 1 })) ∧
      ∀ again framework skip r base, DefinesFunction again →
        keyText (attr again "name") = keyText (attr node "name") →
        resolve env framework = some base → env.basename base SUFFIX ∉ t.names →
        (∃ nodes, fileNodes env base = some nodes ∧ again ∈ nodes) →
        env.dlopen (env.join [base, env.basename base SUFFIX]) = true →
        ∃ u, importFramework env framework skip onto r t = .threw u ∧
          ∀ skip' r', importFramework env framework skip' onto r' u = .returned u := by
  obtain ⟨func, hlib, hname, hdefined⟩ := visitNode_function hdefines hnone env₀ lib
  have hfixed := hdefined.later hlater
  refine ⟨func, hlib, hname, hfixed, hfixed.get_func, ?_⟩
  rintro again framework skip r base hagain hsame hbase hnew ⟨nodes, hnodes, hmem⟩ hdlopen
  obtain ⟨path, himport⟩ := import_new skip onto r hbase hnew hdlopen
  have hload : Fixed (t.load (env.basename base SUFFIX) base path)
      (onto, keyText (attr again "name")) (.func func) := by
    rw [hsame]
    exact hfixed
  -- the file is parsed in vain, with the framework in the cache
  have hthrows : ∃ u, parseBridgeFile env (visitNodes env onto r)
    (env.basename base SUFFIX) base path
      (t.load (env.basename base SUFFIX) base path) = .threw u ∧
        env.basename base SUFFIX ∈ u.names := by
    obtain ⟨opened, hparse | ⟨lib, nodes', hnodes', hparse⟩⟩ := parse_cases env onto r base path
      (t.load (env.basename base SUFFIX) base path)
    · exact ⟨_, hparse, by simp [State.names, State.load]⟩
    · cases hnodes.symm.trans hnodes'
      have hthrown : ∃ u, visitNodes env onto r lib nodes
          { t.load (env.basename base SUFFIX) base path with opened := opened } = .threw u :=
        Fixed.visit_throws hload hmem hagain
      obtain ⟨u, hu⟩ := hthrown
      have hkept : _ <+: (visitNodes env onto r lib nodes
          { t.load (env.basename base SUFFIX) base path with opened := opened }).state.names :=
        kept_names.visit.1
      rw [hu] at hkept
      exact ⟨u, hparse.trans hu, hkept.subset (by simp [State.names, State.load])⟩
  obtain ⟨u, hu, hcached⟩ := hthrows
  refine ⟨u, by rw [himport, hu]; rfl, fun skip' r' => import_old skip' onto r' hbase hcached⟩

/-! ## Two frameworks -/

/-- What comes behind the last `/`. -/
def lastPart (text : Text) : Text := (text.reverse.takeWhile (· ≠ '/')).reverse

/-- Two frameworks at the root, with these files. -/
def rootEnv (a b : String) : Env where
  x64 := true
  join := List.intercalate ['/']
  basename text suffix :=
    let last := lastPart text
    if suffix.isSuffixOf last then last.take (last.length - suffix.length) else last
  existsSync text :=
    text = "/A.framework/Resources/BridgeSupport/A.bridgesupport".toList ||
      text = "/B.framework/Resources/BridgeSupport/B.bridgesupport".toList
  read text :=
    if text = "/A.framework/Resources/BridgeSupport/A.bridgesupport".toList then some a.toList
    else if text = "/B.framework/Resources/BridgeSupport/B.bridgesupport".toList then some b.toList
    else none
  dlopen text := text = "/A.framework/A".toList || text = "/B.framework/B".toList
  callable _ := true
  getClassList _ := []
  inherits _ _ := false
  locked _ _ := false

/-- A base name has no `/`. -/
theorem basename_no_slash (a b : String) (base : Text) :
    '/' ∉ (rootEnv a b).basename base SUFFIX := by
  have hlast : '/' ∉ lastPart base := by
    intro h
    have := List.mem_takeWhile_imp (List.mem_reverse.mp h)
    simp at this
  simp only [rootEnv]
  split
  · exact fun h => hlast (List.mem_of_mem_take h)
  · exact hlast

/-- Texts are the same before their last `/`. -/
theorem before_last_slash {p q a b : Text} (h : p ++ '/' :: a = q ++ '/' :: b) (ha : '/' ∉ a)
    (hb : '/' ∉ b) :
    p = q := by
  rcases List.append_eq_append_iff.mp h with ⟨w, rfl, hw⟩ | ⟨w, rfl, hw⟩
  · cases w with
    | nil => exact (List.append_nil _).symm
    | cons c w =>
      obtain ⟨-, hw⟩ := List.cons.inj hw
      exact absurd (hw ▸ List.mem_append_right _ List.mem_cons_self) ha
  · cases w with
    | nil => exact List.append_nil _
    | cons c w =>
      obtain ⟨-, hw⟩ := List.cons.inj hw
      exact absurd (hw ▸ List.mem_append_right _ List.mem_cons_self) hb

theorem join_two (a b : String) (base name : Text) :
    (rootEnv a b).join [base, name] = base ++ '/' :: name := by
  show List.intercalate ['/'] [base, name] = _
  simp [List.intercalate]

/-- Only the two can be loaded. -/
theorem rootEnv_loads {a b : String} {base : Text}
    (h : (rootEnv a b).dlopen ((rootEnv a b).join [base, (rootEnv a b).basename base SUFFIX]) =
      true) :
    base = "/A.framework".toList ∨ base = "/B.framework".toList := by
  have hslash := basename_no_slash a b base
  rw [join_two] at h
  rcases (Bool.or_eq_true _ _).mp h with h | h
  · exact .inl (before_last_slash (of_decide_eq_true h) hslash (b := ['A']) (by decide))
  · exact .inr (before_last_slash (of_decide_eq_true h) hslash (b := ['B']) (by decide))

/-- Each of the frameworks depends on the other. -/
def cyclic : Env := rootEnv "<depends_on path='/B.framework'/>" "<depends_on path='/A.framework'/>"

/-- What the two frameworks that depend on one another are called. -/
def cyclicNames (name : Text) : List Text :=
  if name = ['A'] then [['B']] else if name = ['B'] then [['A']] else []

/-- The two frameworks are named by their paths. -/
theorem cyclic_named : Named cyclic cyclicNames := by
  intro base nodes hloads hnodes
  have hfile : (fileNodes cyclic base).map (dependencyNames cyclic) =
      some (cyclicNames (cyclic.basename base SUFFIX)) := by
    rcases rootEnv_loads hloads with rfl | rfl <;> rfl
  rw [hnodes] at hfile
  exact Option.some.inj hfile

/-- A call that is no throw returned. -/
theorem returned_of_isReturned {o : Outcome}
    (h : (match o with | .returned _ => true | .threw _ => false) = true) :
    ∃ t, o = .returned t := by
  cases o with
  | returned t => exact ⟨t, rfl⟩
  | threw t => cases h

theorem cyclic_resolve : resolve cyclic "/A.framework".toList = some "/A.framework".toList := by
  decide +kernel

/-- A budget of two suffices for both. -/
theorem imported_iff_cyclic :
    ∃ t, importFramework cyclic "/A.framework".toList false 0 2 (start fun _ => none) =
      .returned t ∧
      ∀ name, name ∈ t.names ↔ name ∈ [] ∨ BudgetSearch.Free cyclicNames [] ['A'] name := by
  obtain ⟨t, ht⟩ := returned_of_isReturned
    (o := importFramework cyclic "/A.framework".toList false 0 2 (start fun _ => none))
      (by decide +kernel)
  refine ⟨t, ht, fun name => ?_⟩
  exact imported_iff cyclic_named ht cyclic_resolve (U := {['A'], ['B']})
    (by decide +kernel) (by decide +kernel) (by decide +kernel)

theorem loaded_once_cyclic :
    let t := (importFramework cyclic "/A.framework".toList false 0 2 (start fun _ => none)).state
    [] <+: t.names ∧ t.names.Nodup ∧ t.names.length ≤ 0 + 2 ^ 2 :=
  loaded_once .start cyclic _ _ _ _

/-- Both frameworks have the function `f`. -/
def twice : Env := rootEnv "<function name='f'/>" "<function name='f'/>"

/-- The element of a function. -/
def fTag : Tag := .mk "function".toList [("name".toList, "f".toList)] []

theorem fTag_tags : fileNodes twice "/B.framework".toList = some [fTag] := rfl

/-- The element of `A` was visited. -/
def afterA : State :=
  (visitNode twice 0 "/A.framework/A".toList fTag
    ((start fun _ => none).load ['A'] "/A.framework".toList "/A.framework/A".toList)).state

/-- The function is defined from `A`, and `B` cannot be imported. -/
theorem function_defined_once_twice :
    ∃ u, importFramework twice "/B.framework".toList false 0 0 afterA = .threw u ∧
      ∀ skip r, importFramework twice "/B.framework".toList skip 0 r u = .returned u := by
  have hdefines : DefinesFunction fTag := ⟨rfl, .inl (by decide +kernel)⟩
  have hnone : ((start fun _ => none).load ['A'] "/A.framework".toList
      "/A.framework/A".toList).props (0, keyText (attr fTag "name")) = none := rfl
  have hlater : Later (visitNode twice 0 "/A.framework/A".toList fTag
      ((start fun _ => none).load ['A'] "/A.framework".toList
        "/A.framework/A".toList)).state afterA := .refl
  obtain ⟨func, -, -, -, -, h⟩ := function_defined_once hdefines hnone twice
    "/A.framework/A".toList hlater twice
  exact h fTag "/B.framework".toList false 0 "/B.framework".toList hdefines rfl
    (by decide +kernel) (by decide +kernel) ⟨[fTag], fTag_tags, List.mem_singleton_self _⟩
    (by decide +kernel)

end FrameworkImport

import Mathlib.Data.List.Basic
import Mathlib.Data.List.Nodup

/-!
# Importing the types of an assembly

`importOnto` walks over the types of an assembly, and `createFromType` puts
each public one below `process.bridge.dotnet`, at the path given by its
namespace and its name.  The namespaces on the way are created where they are
missing; at the end stands a lazy getter, which replaces itself by the
constructor, or by the enum object, when it is read for the first time.

* `place_comm` -- two types neither of which lies in the way of the other can
  be imported in either order;
* `imports_iff` -- the tree is the same for every order of the types, and each
  constructor is found at its path, exactly when no type is called like a
  namespace of another one;
* `namespace_lost` -- the type that comes last takes the place of a namespace.
-/

namespace NamespaceImport

/-- The characters of a string. -/
abbrev Text := List Char

instance : LawfulBEq Text := inferInstance

/-! ## Types -/

/-- The names of types and members: what .NET writes between and around them
(`.`, `+`, `, `), and numbers, are no identifiers. -/
def isIdentifier : Text → Bool
  | [] => false
  | c :: rest =>
    !(['0', '1', '2', '3', '4', '5', '6', '7', '8', '9', '-'].contains c) &&
      (c :: rest).all fun d => !(['.', '+', ',', ' '].contains d)

/-- What the bridge asks an enum type for, with what .NET promises about it. -/
structure Enumeration where
  /-- `GetEnumNames` -/
  names : List Text
  /-- `GetEnumValues`, in the same order -/
  values : List Int
  paired : names.length = values.length
  distinct : names.Nodup
  identifiers : ∀ n ∈ names, isIdentifier n = true
  /-- `ToString` of a value -/
  toText : Int → Text
  /-- A defined value is written as one of its names, -/
  toText_defined : ∀ v ∈ values, (toText v, v) ∈ names.zip values
  /-- any other as a number or as several names. -/
  toText_other : ∀ v, v ∉ values → isIdentifier (toText v) = false

/-- `IsEnum`, `IsClass` or `IsValueType`, and none of them for an interface. -/
inductive Kind
  | enum (e : Enumeration)
  | constructed
  | other

/-- A type as reflection describes it. -/
structure ClrType where
  /-- `Namespace`, empty when there is none -/
  space : Text
  /-- the types it is declared in, the outermost first -/
  outer : List Text
  /-- `Name` -/
  name : Text
  /-- `IsPublic` -/
  isPublic : Bool
  kind : Kind
  name_identifier : isIdentifier name = true
  outer_identifier : ∀ o ∈ outer, isIdentifier o = true
  space_plus : '+' ∉ space
  /-- A nested type is never `IsPublic`. -/
  nested_hidden : outer ≠ [] → isPublic = false

/-- `space.split('.')`, if there is a namespace. -/
def ClrType.parts (t : ClrType) : List Text := if t.space = [] then [] else t.space.splitOn '.'

/-- The dotted path of a type. -/
def ClrType.path (t : ClrType) : List Text := t.parts ++ [t.name]

/-- `FullName` -/
def ClrType.fullName (t : ClrType) : Text :=
  (if t.space = [] then [] else t.space ++ ['.']) ++ ['+'].intercalate (t.outer ++ [t.name])

/-- The type has a constructor or an enum object. -/
def ClrType.constructible (t : ClrType) : Prop := t.kind ≠ .other

/-! ## Objects -/

/-- Where an object comes from.  Objects that a getter creates are numbered;
a namespace object is told by its place. -/
inductive Origin
  /-- `{}` on the way to a type -/
  | space
  /-- the constructor or the enum object of a type -/
  | made (t : ClrType) (stamp : Nat)
  /-- a value of an enum type, with its property `Name` -/
  | value (v : Int) (Name : Text) (stamp : Nat)

mutual

/-- An object with its own properties. -/
inductive Node
  | mk (origin : Origin) (slots : Text → Slot)

/-- A property. -/
inductive Slot
  | absent
  /-- the getter that `createFromType` defines -/
  | lazy (t : ClrType)
  | data (n : Node)
  /-- a function that other objects have too; what is put on it is not followed -/
  | shared (name : Text)

end

/-- What an object was made for. -/
def Node.origin : Node → Origin
  | .mk origin _ => origin

/-- The properties of an object. -/
def Node.slots : Node → Text → Slot
  | .mk _ slots => slots

/-- `{}` -/
def Node.empty : Node := .mk .space fun _ => .absent

/-- `obj[name] = ..` -/
def assign (slots : Text → Slot) (name : Text) (s : Slot) : Text → Slot :=
  fun y => if y = name then s else slots y

/-- The node with one property set. -/
def Node.set (n : Node) (name : Text) (s : Slot) : Node := .mk n.origin (assign n.slots name s)

/-- What reading a property gives. -/
inductive Value
  | undefined
  | object (n : Node)
  | shared (name : Text)
  /-- a property of `undefined` -/
  | throws

/-- The properties that every object inherits. -/
def inherited : List Text :=
  ["constructor".toList, "toString".toList, "toLocaleString".toList, "valueOf".toList,
    "hasOwnProperty".toList, "isPrototypeOf".toList, "propertyIsEnumerable".toList,
    "__defineGetter__".toList, "__defineSetter__".toList, "__lookupGetter__".toList,
    "__lookupSetter__".toList, "__proto__".toList]

/-- The functions of `process.bridge.dotnet`. -/
def functions : List Text :=
  ["import".toList, "Import".toList, "importonto".toList, "Importonto".toList,
    "fromPointer".toList]

/-- The bridge: how many objects the getters created, and `process.bridge.dotnet`. -/
structure State where
  made : Nat
  root : Node

/-- Before the first import. -/
def State.start : State :=
  ⟨0, .mk .space fun x => if x ∈ functions then .shared x else .absent⟩

/-! ## Reading -/

/-- The loop of `createEnum`. -/
def enumSlots (toText : Int → Text) :
    Nat → (Text → Slot) → List Text → List Int → Text → Slot
  | stamp, obj, ename :: names, evalue :: values =>
    enumSlots toText (stamp + 1)
      (assign obj ename (.data (.mk (.value evalue (toText evalue) stamp) fun _ => .absent)))
      names values
  | _, obj, _, _ => obj

/-- The enum object whose creation starts at the count `made`. -/
def enumObject (t : ClrType) (e : Enumeration) (made : Nat) : Node :=
  .mk (.made t made) (enumSlots e.toText (made + 1) (fun _ => .absent) e.names e.values)

/-- `createEnum` or `createClass`. -/
def create (made : Nat) (t : ClrType) : Option (Nat × Node) :=
  match t.kind with
  | .enum e => some (made + 1 + e.names.length, enumObject t e made)
  | .constructed => some (made + 1, .mk (.made t made) fun _ => .absent)
  | .other => none

/-- A property that the object does not have itself. -/
def inheritedValue (name : Text) : Value := if name ∈ inherited then .shared name else .undefined

/-- Read one property; a getter first replaces itself. -/
def readSlot (made : Nat) (n : Node) (name : Text) : Nat × Node × Value :=
  match n.slots name with
  | .absent => (made, n, inheritedValue name)
  | .data c => (made, n, .object c)
  | .shared f => (made, n, .shared f)
  | .lazy t =>
    match create made t with
    | some (made, c) => (made, n.set name (.data c), .object c)
    | none => (made, n.set name .absent, inheritedValue name)

/-- Read a path. -/
def read : Nat → Node → List Text → Nat × Node × Value
  | made, n, [] => (made, n, .object n)
  | made, n, name :: rest =>
    match readSlot made n name with
    | (made, n, .object c) =>
      let (made, c, v) := read made c rest
      (made, n.set name (.data c), v)
    | (made, n, .shared f) => (made, n, if rest = [] then .shared f else .undefined)
    | (made, n, .undefined) => (made, n, if rest = [] then .undefined else .throws)
    | (made, n, .throws) => (made, n, .throws)

/-- Read a path from `process.bridge.dotnet`. -/
def State.read (s : State) (path : List Text) : State × Value :=
  let (made, root, v) := NamespaceImport.read s.made s.root path
  (⟨made, root⟩, v)

/-! ## Importing -/

/-- The loop of `createFromType` over the namespaces, and the getter. -/
def importAt : Nat → Node → List Text → ClrType → Nat × Node
  | made, n, [], t => (made, n.set t.name (.lazy t))
  | made, n, part :: rest, t =>
    match readSlot made n part with
    | (made, n, .object c) =>
      let (made, c) := importAt made c rest t
      (made, n.set part (.data c))
    | (made, n, .shared f) => (made, n.set part (.shared f))
    | (made, n, _) =>
      let (made, c) := importAt made Node.empty rest t
      (made, n.set part (.data c))

/-- `createFromType` -/
def createFromType (s : State) (t : ClrType) : State :=
  if t.isPublic then
    let (made, root) := importAt s.made s.root t.parts t
    ⟨made, root⟩
  else s

/-- The loop of `importOnto`. -/
def importOnto (s : State) (types : List ClrType) : State := types.foldl createFromType s

/-- The program reads the properties of types, one after the other. -/
def accesses (s : State) (types : List ClrType) : State :=
  types.foldl (fun s t => (s.read t.path).1) s

/-- The state after the types were imported in this order, and after accesses. -/
def after (order used : List ClrType) : State := accesses (importOnto State.start order) used

/-- The value is the constructor or the enum object of the type. -/
def Value.IsMade (t : ClrType) : Value → Prop
  | .object c => ∃ stamp, c.origin = .made t stamp
  | _ => False

/-- Whatever the order of the types and the accesses: each constructor is
found at its path, and the tree is the one of any other order. -/
def ImportsRight (types : List ClrType) : Prop :=
  ∀ order, order.Perm types → ∀ used, (∀ t ∈ used, t ∈ types) →
    (∀ t ∈ types, t.constructible → ((after order used).read t.path).2.IsMade t) ∧
      ∀ order', order'.Perm types → after order' used = after order used

/-- No part of the namespace is a property that objects have already. -/
def ClrType.Plain (t : ClrType) : Prop :=
  (∀ part ∈ t.parts, part ∉ inherited) ∧ ∀ part ∈ t.parts.head?, part ∉ functions

instance (t : ClrType) : Decidable t.Plain := inferInstanceAs (Decidable (_ ∧ _))

/-- No type is called like a namespace of another one. -/
def Apart (types : List ClrType) : Prop :=
  ∀ t ∈ types, ∀ u ∈ types, ¬ t.path <+: u.parts

/-! ## Objects as maps -/

@[simp] theorem Node.set_slots (n : Node) (x : Text) (s : Slot) :
    (n.set x s).slots = assign n.slots x s := rfl

@[simp] theorem Node.set_origin (n : Node) (x : Text) (s : Slot) :
    (n.set x s).origin = n.origin := rfl

@[simp] theorem Node.empty_slots (x : Text) : Node.empty.slots x = .absent := rfl

@[simp] theorem assign_self (f : Text → Slot) (x : Text) (s : Slot) : assign f x s x = s :=
  if_pos rfl

theorem assign_other (f : Text → Slot) {x y : Text} (s : Slot) (h : y ≠ x) :
    assign f x s y = f y := if_neg h

/-- The last assignment counts. -/
theorem Node.set_set (n : Node) (x : Text) (s s' : Slot) : (n.set x s).set x s' = n.set x s' := by
  have hslots : assign (assign n.slots x s) x s' = assign n.slots x s' := by
    funext y
    by_cases hy : y = x
    · rw [hy, assign_self, assign_self]
    · rw [assign_other _ _ hy, assign_other _ _ hy, assign_other _ _ hy]
  exact congrArg (Node.mk n.origin) hslots

/-- Different properties are assigned in either order. -/
theorem Node.set_comm (n : Node) {x y : Text} (h : x ≠ y) (s s' : Slot) :
    (n.set x s).set y s' = (n.set y s').set x s := by
  have hslots : assign (assign n.slots x s) y s' = assign (assign n.slots y s') x s := by
    funext z
    by_cases hx : z = x
    · subst hx
      rw [assign_self, assign_other _ _ h, assign_self]
    · by_cases hy : z = y
      · subst hy
        rw [assign_self, assign_other _ _ hx, assign_self]
      · rw [assign_other _ _ hy, assign_other _ _ hx, assign_other _ _ hx, assign_other _ _ hy]
  exact congrArg (Node.mk n.origin) hslots

/-- Setting a property to what it is changes nothing. -/
theorem Node.set_same {n : Node} {x : Text} {s : Slot} (h : n.slots x = s) : n.set x s = n := by
  obtain ⟨origin, slots⟩ := n
  have hslots : assign slots x s = slots := by
    funext y
    by_cases hy : y = x
    · rw [hy, assign_self]
      exact h.symm
    · exact assign_other _ _ hy
  exact congrArg (Node.mk origin) hslots

/-! ## Names -/

/-- A name has no dot. -/
theorem ClrType.name_dot (t : ClrType) : '.' ∉ t.name := by
  intro hdot
  have hname := t.name_identifier
  cases hn : t.name with
  | nil => simp [hn] at hdot
  | cons c rest =>
      rw [hn] at hname hdot
      simp only [isIdentifier, Bool.and_eq_true] at hname
      have hall := List.all_eq_true.mp hname.2 '.' hdot
      simp at hall

/-- The path is the full name at its dots. -/
theorem ClrType.path_eq (t : ClrType) (htop : t.outer = []) : t.path = t.fullName.splitOn '.' := by
  have hname : t.name.splitOn '.' = [t.name] := List.splitOn_eq_singleton t.name_dot
  have hlast : ['+'].intercalate (t.outer ++ [t.name]) = t.name := by
    rw [htop]
    simp [List.intercalate]
  unfold ClrType.path ClrType.parts ClrType.fullName
  rw [hlast]
  by_cases hspace : t.space = []
  · rw [if_pos hspace, if_pos hspace, List.nil_append, List.nil_append, hname]
  · rw [if_neg hspace, if_neg hspace, List.append_assoc, List.singleton_append,
      List.splitOn_append_cons_self, hname]

/-- Types at the same path have the same full name. -/
theorem ClrType.fullName_of_path {t u : ClrType} (ht : t.outer = []) (hu : u.outer = [])
    (h : t.path = u.path) : t.fullName = u.fullName := by
  rw [t.path_eq ht, u.path_eq hu] at h
  have hjoin : ∀ x : Text, ['.'].intercalate (x.splitOn '.') = x := fun x =>
    List.intercalate_splitOn '.'
  rw [← hjoin t.fullName, h, hjoin]

/-! ## Import without a getter on the way -/

/-- The object at a property, or a new one. -/
def Node.child (n : Node) (x : Text) : Node :=
  match n.slots x with
  | .data c => c
  | _ => Node.empty

/-- Create the namespaces that are missing and put the getter behind them. -/
def place : Node → List Text → ClrType → Node
  | n, [], t => n.set t.name (.lazy t)
  | n, part :: rest, t => n.set part (.data (place (n.child part) rest t))

/-- The namespaces of a type are objects or are missing. -/
def Clear : Node → List Text → Prop
  | _, [] => True
  | n, part :: rest =>
    (n.slots part = .absent ∧ part ∉ inherited ∨ ∃ c, n.slots part = .data c) ∧
      Clear (n.child part) rest

/-- Where no getter is on the way, the import does this and creates no object. -/
theorem importAt_eq_place (made : Nat) (t : ClrType) :
    ∀ (parts : List Text) (n : Node), Clear n parts →
      importAt made n parts t = (made, place n parts t) := by
  intro parts
  induction parts with
  | nil =>
      intro n _
      rfl
  | cons part rest ih =>
      intro n hclear
      obtain ⟨⟨habsent, hown⟩ | ⟨c, hdata⟩, hrest⟩ := hclear
      · have hchild : n.child part = Node.empty := by rw [Node.child, habsent]
        rw [hchild] at hrest
        simp only [importAt, readSlot, habsent, inheritedValue, if_neg hown, ih _ hrest, place,
          hchild]
      · have hchild : n.child part = c := by rw [Node.child, hdata]
        rw [hchild] at hrest
        simp only [importAt, readSlot, hdata, ih _ hrest, place, hchild]

theorem Node.child_set_self (n c : Node) (x : Text) : (n.set x (.data c)).child x = c := by
  simp only [Node.child, Node.set_slots, assign_self]

theorem Node.child_set_other (n : Node) {x y : Text} (s : Slot) (h : y ≠ x) :
    (n.set x s).child y = n.child y := by
  simp only [Node.child, Node.set_slots, assign_other _ _ h]

/-- **Two types can be imported in either order** when neither is called like
the other or like one of its namespaces. -/
theorem place_comm (t u : ClrType) :
    ∀ (p q : List Text) (n : Node), ¬ p ++ [t.name] <+: q → ¬ q ++ [u.name] <+: p →
      p ++ [t.name] ≠ q ++ [u.name] →
        place (place n p t) q u = place (place n q u) p t := by
  intro p
  induction p with
  | nil =>
      intro q n htq huq hne
      cases q with
      | nil =>
          have hname : t.name ≠ u.name := by simpa using hne
          exact n.set_comm hname _ _
      | cons part rest =>
          have hname : t.name ≠ part := by
            intro h
            exact htq (by simp [h])
          simp only [place]
          rw [Node.child_set_other _ _ (Ne.symm hname), n.set_comm hname]
  | cons part rest ih =>
      intro q n htq huq hne
      cases q with
      | nil =>
          have hname : u.name ≠ part := by
            intro h
            exact huq (by simp [h])
          simp only [place]
          rw [Node.child_set_other _ _ (Ne.symm hname), n.set_comm hname]
      | cons part' rest' =>
          simp only [place]
          by_cases hpart : part = part'
          · subst hpart
            have hinner := ih rest' (n.child part)
              (fun h => htq (by simpa using h)) (fun h => huq (by simpa using h))
              (fun h => hne (by simpa using h))
            rw [Node.child_set_self, Node.child_set_self, Node.set_set, Node.set_set, hinner]
          · rw [Node.child_set_other _ _ (Ne.symm hpart), Node.child_set_other _ _ hpart,
              n.set_comm hpart]

/-- The namespaces of one type stay clear when another type is put elsewhere. -/
theorem clear_place (t : ClrType) :
    ∀ (p q : List Text) (n : Node), ¬ p ++ [t.name] <+: q → Clear n q → Clear (place n p t) q := by
  intro p
  induction p with
  | nil =>
      intro q n htq hclear
      cases q with
      | nil => trivial
      | cons part rest =>
          have hname : part ≠ t.name := by
            intro h
            exact htq (by simp [h])
          obtain ⟨hslot, hrest⟩ := hclear
          refine ⟨?_, ?_⟩
          · rw [place, Node.set_slots, assign_other _ _ hname]
            exact hslot
          · rw [place, Node.child_set_other _ _ hname]
            exact hrest
  | cons part rest ih =>
      intro q n htq hclear
      cases q with
      | nil => trivial
      | cons part' rest' =>
          obtain ⟨hslot, hrest⟩ := hclear
          by_cases hpart : part' = part
          · subst hpart
            refine ⟨.inr ⟨place (n.child part') rest t, ?_⟩, ?_⟩
            · rw [place, Node.set_slots, assign_self]
            · rw [place, Node.child_set_self]
              exact ih rest' _ (fun h => htq (by simpa using h)) hrest
          · refine ⟨?_, ?_⟩
            · rw [place, Node.set_slots, assign_other _ _ hpart]
              exact hslot
            · rw [place, Node.child_set_other _ _ hpart]
              exact hrest

/-- Nothing is in the way in a new object. -/
theorem clear_empty : ∀ parts : List Text, (∀ part ∈ parts, part ∉ inherited) →
    Clear Node.empty parts := by
  intro parts
  induction parts with
  | nil =>
      intro _
      trivial
  | cons part rest ih =>
      intro hown
      refine ⟨.inl ⟨rfl, hown part List.mem_cons_self⟩, ?_⟩
      exact ih fun x hx => hown x (List.mem_cons_of_mem _ hx)

/-- Nothing is in the way in the global object, for a plain type. -/
theorem clear_start {t : ClrType} (h : t.Plain) : Clear State.start.root t.parts := by
  obtain ⟨hown, hfirst⟩ := h
  cases hparts : t.parts with
  | nil => trivial
  | cons part rest =>
      rw [hparts] at hown hfirst
      have habsent : State.start.root.slots part = .absent := if_neg (hfirst part rfl)
      refine ⟨.inl ⟨habsent, hown part List.mem_cons_self⟩, ?_⟩
      rw [Node.child, habsent]
      exact clear_empty rest fun x hx => hown x (List.mem_cons_of_mem _ hx)

/-! ## Order -/

/-- `createFromType` where no getter is on the way. -/
def putType (s : State) (t : ClrType) : State := ⟨s.made, place s.root t.parts t⟩

theorem createFromType_clear {s : State} {t : ClrType} (hpublic : t.isPublic = true)
    (hclear : Clear s.root t.parts) : createFromType s t = putType s t := by
  rw [createFromType, if_pos hpublic, importAt_eq_place _ _ _ _ hclear]
  rfl

/-- An import of types that are apart meets no getter. -/
theorem importOnto_eq : ∀ (types : List ClrType) (s : State),
    (∀ t ∈ types, t.isPublic = true) → Apart types → (∀ t ∈ types, Clear s.root t.parts) →
      importOnto s types = types.foldl putType s := by
  intro types
  induction types with
  | nil =>
      intro s _ _ _
      rfl
  | cons t rest ih =>
      intro s hpublic hapart hclear
      have hfirst := createFromType_clear (hpublic t List.mem_cons_self)
        (hclear t List.mem_cons_self)
      have hrest : ∀ u ∈ rest, Clear (putType s t).root u.parts := by
        intro u hu
        have hu' := List.mem_cons_of_mem t hu
        exact clear_place t t.parts u.parts s.root (hapart t List.mem_cons_self u hu')
          (hclear u hu')
      have htail := ih (putType s t) (fun u hu => hpublic u (List.mem_cons_of_mem t hu))
        (fun u hu v hv => hapart u (List.mem_cons_of_mem t hu) v (List.mem_cons_of_mem t hv)) hrest
      rw [importOnto, List.foldl_cons, hfirst, List.foldl_cons]
      exact htail

/-- The top-level types among the public ones. -/
theorem ClrType.outer_of_public {t : ClrType} (h : t.isPublic = true) : t.outer = [] := by
  by_contra hne
  rw [t.nested_hidden hne] at h
  cases h

/-- **The order of the imports does not matter** for types that are apart. -/
theorem importOnto_perm {types order : List ClrType} (hperm : order.Perm types)
    (hnames : (types.map ClrType.fullName).Nodup) (hpublic : ∀ t ∈ types, t.isPublic = true)
    (hplain : ∀ t ∈ types, t.Plain) (hapart : Apart types) :
    importOnto State.start order = types.foldl putType State.start := by
  have horder : Apart order := fun t ht u hu => hapart t (hperm.subset ht) u (hperm.subset hu)
  rw [importOnto_eq order State.start (fun t ht => hpublic t (hperm.subset ht)) horder
    fun t ht => clear_start (hplain t (hperm.subset ht))]
  refine hperm.foldl_eq' ?_ State.start
  intro t ht u hu s
  by_cases hsame : t.path = u.path
  · have htype : t = u := List.inj_on_of_nodup_map hnames (hperm.subset ht) (hperm.subset hu)
      (ClrType.fullName_of_path (ClrType.outer_of_public (hpublic t (hperm.subset ht)))
        (ClrType.outer_of_public (hpublic u (hperm.subset hu))) hsame)
    rw [htype]
  · exact congrArg (State.mk s.made) (place_comm t u t.parts u.parts s.root
      (hapart t (hperm.subset ht) u (hperm.subset hu))
      (hapart u (hperm.subset hu) t (hperm.subset ht)) hsame)

/-! ## Access -/

/-- The getter of a type, or what it made, stands at the end of the path. -/
def InPlace : Node → List Text → ClrType → Prop
  | n, [], t =>
    n.slots t.name = .lazy t ∨
      ∃ c stamp, n.slots t.name = .data c ∧ c.origin = .made t stamp
  | n, part :: rest, t => ∃ c, n.slots part = .data c ∧ InPlace c rest t

/-- The type that is put last is in its place. -/
theorem inPlace_place (t : ClrType) : ∀ (p : List Text) (n : Node), InPlace (place n p t) p t := by
  intro p
  induction p with
  | nil =>
      intro n
      exact .inl (assign_self _ _ _)
  | cons part rest ih =>
      intro n
      exact ⟨_, assign_self _ _ _, ih _⟩

/-- A constructible type has an object made for it. -/
theorem create_made {t : ClrType} (h : t.constructible) (made : Nat) :
    ∃ made' c, create made t = some (made', c) ∧ c.origin = .made t made := by
  unfold create
  cases hk : t.kind with
  | «enum» e => exact ⟨_, _, rfl, rfl⟩
  | constructed => exact ⟨_, _, rfl, rfl⟩
  | other => exact absurd hk h

/-- Reading a property leaves the other ones alone. -/
theorem readSlot_other (made : Nat) (n : Node) {x y : Text} (h : y ≠ x) :
    (readSlot made n x).2.1.slots y = n.slots y := by
  unfold readSlot
  split
  · rfl
  · rfl
  · rfl
  · split
    · exact assign_other _ _ h
    · exact assign_other _ _ h

/-- Reading a property keeps the origin. -/
theorem readSlot_origin (made : Nat) (n : Node) (x : Text) :
    (readSlot made n x).2.1.origin = n.origin := by
  unfold readSlot
  split
  · rfl
  · rfl
  · rfl
  · split
    · rfl
    · rfl

/-- Reading a path leaves the object where it comes from. -/
theorem read_origin (made : Nat) (n : Node) (path : List Text) :
    (read made n path).2.1.origin = n.origin := by
  cases path with
  | nil => rfl
  | cons name rest =>
      have horigin := readSlot_origin made n name
      unfold read
      split <;> next heq => rw [heq] at horigin; exact horigin

/-- The properties beside the path that is read stay as they are. -/
theorem read_other (made : Nat) (n : Node) {x y : Text} (rest : List Text) (h : y ≠ x) :
    (read made n (x :: rest)).2.1.slots y = n.slots y := by
  have hother := readSlot_other made n h
  unfold read
  split <;> next heq =>
    rw [heq] at hother
    first | exact hother | exact (assign_other _ _ h).trans hother

/-- What reading a path does to a property that is an object. -/
theorem read_data {made : Nat} {n c : Node} {x : Text} (h : n.slots x = .data c)
    (rest : List Text) :
    read made n (x :: rest) =
      ((read made c rest).1, n.set x (.data (read made c rest).2.1), (read made c rest).2.2) := by
  simp only [read, readSlot, h]

/-- What it does to a getter. -/
theorem read_lazy {made made' : Nat} {n c : Node} {x : Text} {t : ClrType}
    (h : n.slots x = .lazy t) (hcreate : create made t = some (made', c)) (rest : List Text) :
    read made n (x :: rest) =
      ((read made' c rest).1, n.set x (.data (read made' c rest).2.1),
        (read made' c rest).2.2) := by
  simp only [read, readSlot, h, hcreate, Node.set_set]

/-- **An access leaves every type in its place.** -/
theorem inPlace_read {t : ClrType} (ht : t.constructible) :
    ∀ (path p : List Text) (made : Nat) (n : Node), InPlace n p t →
      InPlace (read made n path).2.1 p t := by
  intro path
  induction path with
  | nil =>
      intro p made n h
      exact h
  | cons x rest ih =>
      intro p made n h
      cases p with
      | nil =>
          by_cases hx : t.name = x
          · subst hx
            obtain hlazy | ⟨c, stamp, hdata, horigin⟩ := h
            · obtain ⟨made', c, hcreate, horigin⟩ := create_made ht made
              rw [read_lazy hlazy hcreate]
              exact .inr ⟨_, made, assign_self _ _ _, (read_origin made' c rest).trans horigin⟩
            · rw [read_data hdata]
              exact .inr ⟨_, stamp, assign_self _ _ _, (read_origin made c rest).trans horigin⟩
          · have hother := read_other made n rest hx
            obtain hlazy | ⟨c, stamp, hdata, horigin⟩ := h
            · exact .inl (hother.trans hlazy)
            · exact .inr ⟨c, stamp, hother.trans hdata, horigin⟩
      | cons part parts =>
          obtain ⟨c, hdata, hinner⟩ := h
          by_cases hx : part = x
          · subst hx
            rw [read_data hdata]
            exact ⟨_, assign_self _ _ _, ih parts made c hinner⟩
          · exact ⟨c, (read_other made n rest hx).trans hdata, hinner⟩

/-- A type in its place is found there. -/
theorem read_inPlace {t : ClrType} (ht : t.constructible) :
    ∀ (p : List Text) (made : Nat) (n : Node), InPlace n p t →
      (read made n (p ++ [t.name])).2.2.IsMade t := by
  intro p
  induction p with
  | nil =>
      intro made n h
      obtain hlazy | ⟨c, stamp, hdata, horigin⟩ := h
      · obtain ⟨made', c, hcreate, horigin⟩ := create_made ht made
        rw [List.nil_append, read_lazy hlazy hcreate]
        exact ⟨made, horigin⟩
      · rw [List.nil_append, read_data hdata]
        exact ⟨stamp, horigin⟩
  | cons part rest ih =>
      intro made n h
      obtain ⟨c, hdata, hinner⟩ := h
      rw [List.cons_append, read_data hdata]
      exact ih made c hinner

/-- Accesses leave every type in its place. -/
theorem inPlace_accesses {t : ClrType} (ht : t.constructible) :
    ∀ (used : List ClrType) (s : State), InPlace s.root t.parts t →
      InPlace (accesses s used).root t.parts t := by
  intro used
  induction used with
  | nil =>
      intro s h
      exact h
  | cons u rest ih =>
      intro s h
      exact ih _ (inPlace_read ht u.path t.parts s.made s.root h)

/-- Each type is in its place after an import of types that are apart. -/
theorem inPlace_imported {types : List ClrType}
    (hnames : (types.map ClrType.fullName).Nodup) (hpublic : ∀ t ∈ types, t.isPublic = true)
    (hplain : ∀ t ∈ types, t.Plain) (hapart : Apart types) {t : ClrType} (ht : t ∈ types) :
    InPlace (types.foldl putType State.start).root t.parts t := by
  obtain ⟨front, back, rfl⟩ := List.append_of_mem ht
  -- in another order the type comes last
  have hperm : (front ++ back ++ [t]).Perm (front ++ t :: back) := by
    rw [List.append_assoc]
    exact List.Perm.append_left front (List.perm_append_singleton t back)
  have hlast : Apart (front ++ back ++ [t]) :=
    fun a ha b hb => hapart a (hperm.subset ha) b (hperm.subset hb)
  rw [← importOnto_perm hperm hnames hpublic hplain hapart,
    importOnto_eq _ _ (fun a ha => hpublic a (hperm.subset ha)) hlast
      fun a ha => clear_start (hplain a (hperm.subset ha)),
    List.foldl_append]
  exact inPlace_place t t.parts _

/-- Types that are apart are imported right. -/
theorem importsRight_of_apart {types : List ClrType}
    (hnames : (types.map ClrType.fullName).Nodup) (hpublic : ∀ t ∈ types, t.isPublic = true)
    (hplain : ∀ t ∈ types, t.Plain) (hapart : Apart types) : ImportsRight types := by
  intro order hperm used _
  have horder := importOnto_perm hperm hnames hpublic hplain hapart
  refine ⟨?_, ?_⟩
  · intro t ht hconstructible
    have hplace := inPlace_imported hnames hpublic hplain hapart ht
    rw [← horder] at hplace
    exact read_inPlace hconstructible t.parts _ _ (inPlace_accesses hconstructible used _ hplace)
  · intro order' hperm'
    rw [after, after, horder, importOnto_perm hperm' hnames hpublic hplain hapart]

/-! ## A type called like a namespace -/

/-- The property at the end of a path of objects. -/
def slotAt : Node → List Text → Slot
  | _, [] => .absent
  | n, [x] => n.slots x
  | n, x :: y :: rest =>
    match n.slots x with
    | .data c => slotAt c (y :: rest)
    | _ => .absent

/-- No shared function is met on the way. -/
def Open : Node → List Text → Prop
  | _, [] => True
  | n, x :: rest => (∀ f, n.slots x ≠ .shared f) ∧ ∀ c, n.slots x = .data c → Open c rest

theorem open_bare (origin : Origin) (path : List Text) :
    Open (.mk origin fun _ => .absent) path := by
  cases path with
  | nil => trivial
  | cons x rest => exact ⟨(fun f hf => by cases hf), (fun c hc => by cases hc)⟩

/-- Properties that are missing or values of an enum. -/
def Values (slots : Text → Slot) : Prop :=
  ∀ x, slots x = .absent ∨
    ∃ v Name stamp, slots x = .data (.mk (.value v Name stamp) fun _ => .absent)

/-- The members of an enum are values. -/
theorem enumSlots_values (toText : Int → Text) :
    ∀ (names : List Text) (values : List Int) (stamp : Nat) (obj : Text → Slot), Values obj →
      Values (enumSlots toText stamp obj names values) := by
  intro names
  induction names with
  | nil =>
      intro values stamp obj h
      exact h
  | cons ename names ih =>
      intro values stamp obj h
      cases values with
      | nil => exact h
      | cons evalue values =>
          apply ih
          intro x
          by_cases hx : x = ename
          · exact .inr ⟨evalue, toText evalue, stamp, by rw [hx, assign_self]⟩
          · rw [assign_other _ _ hx]
            exact h x

/-- The properties of an object that a getter creates. -/
theorem create_values {made made' : Nat} {t : ClrType} {c : Node}
    (h : create made t = some (made', c)) : Values c.slots := by
  unfold create at h
  split at h
  · cases h
    exact enumSlots_values _ _ _ _ _ fun x => .inl rfl
  · cases h
    exact fun x => .inl rfl
  · cases h

/-- An object of values is open. -/
theorem open_of_values {c : Node} (h : Values c.slots) (path : List Text) : Open c path := by
  cases path with
  | nil => trivial
  | cons x rest =>
      obtain habsent | ⟨v, Name, stamp, hvalue⟩ := h x
      · refine ⟨fun f hf => ?_, fun d hd => ?_⟩
        · rw [habsent] at hf
          cases hf
        · rw [habsent] at hd
          cases hd
      · refine ⟨fun f hf => ?_, fun d hd => ?_⟩
        · rw [hvalue] at hf
          cases hf
        · rw [hvalue] at hd
          cases hd
          exact open_bare _ _

/-- **What one part of a namespace does to the import**: the rest goes below an
object that is reached without shared functions, and only the property of the
part is set. -/
theorem importAt_part {part : Text} {n : Node} (made : Nat) (rest : List Text) (t : ClrType)
    (hown : part ∉ inherited) (hopen : ∀ f, n.slots part ≠ .shared f) :
    ∃ made' c, (importAt made n (part :: rest) t).2 =
        n.set part (.data (importAt made' c rest t).2) ∧
      (n.slots part = .data c ∨ Values c.slots) := by
  have hempty : Values Node.empty.slots := fun x => .inl rfl
  cases hslot : n.slots part with
  | absent =>
      refine ⟨made, Node.empty, ?_, .inr hempty⟩
      simp only [importAt, readSlot, hslot, inheritedValue, if_neg hown]
  | data c =>
      refine ⟨made, c, ?_, .inl rfl⟩
      simp only [importAt, readSlot, hslot]
  | shared f => exact absurd hslot (hopen f)
  | lazy u =>
      cases hcreate : create made u with
      | none =>
          refine ⟨made, Node.empty, ?_, .inr hempty⟩
          simp only [importAt, readSlot, hslot, hcreate, inheritedValue, if_neg hown, Node.set_set]
      | some made_c =>
          obtain ⟨made', c⟩ := made_c
          refine ⟨made', c, ?_, .inr (create_values hcreate)⟩
          simp only [importAt, readSlot, hslot, hcreate, Node.set_set]

/-- An import leaves the ways open. -/
theorem open_importAt (t : ClrType) :
    ∀ (p q : List Text) (made : Nat) (n : Node), (∀ part ∈ p, part ∉ inherited) →
      Open n p → Open n q → Open (importAt made n p t).2 q := by
  intro p
  induction p with
  | nil =>
      intro q made n _ _ hq
      cases q with
      | nil => trivial
      | cons x rest =>
          by_cases hx : x = t.name
          · subst hx
            refine ⟨fun f hf => ?_, fun c hc => ?_⟩
            · rw [importAt, Node.set_slots, assign_self] at hf
              cases hf
            · rw [importAt, Node.set_slots, assign_self] at hc
              cases hc
          · rw [Open, importAt, Node.set_slots, assign_other _ _ hx]
            exact hq
  | cons part rest ih =>
      intro q made n hown hp hq
      obtain ⟨made', c, heq, hc⟩ :=
        importAt_part made rest t (hown part List.mem_cons_self) hp.1
      rw [heq]
      cases q with
      | nil => trivial
      | cons x rest' =>
          by_cases hx : x = part
          · subst hx
            have hopen : ∀ path, Open n (x :: path) → Open c path := by
              intro path hpath
              obtain hdata | hvalues := hc
              · exact hpath.2 c hdata
              · exact open_of_values hvalues path
            refine ⟨fun f hf => ?_, fun d hd => ?_⟩
            · rw [Node.set_slots, assign_self] at hf
              cases hf
            · rw [Node.set_slots, assign_self] at hd
              cases hd
              exact ih rest' made' c (fun y hy => hown y (List.mem_cons_of_mem _ hy))
                (hopen rest hp) (hopen rest' hq)
          · rw [Open, Node.set_slots, assign_other _ _ hx]
            exact hq

/-- The global object is open for a plain type. -/
theorem open_start {t : ClrType} (h : t.Plain) : Open State.start.root t.parts := by
  cases hparts : t.parts with
  | nil => trivial
  | cons part rest =>
      have hfirst := h.2
      rw [hparts] at hfirst
      have habsent : State.start.root.slots part = .absent := if_neg (hfirst part rfl)
      rw [Open, habsent]
      exact ⟨(fun f hf => by cases hf), (fun c hc => by cases hc)⟩

/-- The way to a type is open after an import of plain types. -/
theorem open_importOnto {t : ClrType} :
    ∀ (types : List ClrType) (s : State), (∀ u ∈ types, u.Plain ∧ Open s.root u.parts) →
      Open s.root t.parts → Open (importOnto s types).root t.parts := by
  intro types
  induction types generalizing t with
  | nil =>
      intro s _ h
      exact h
  | cons u rest ih =>
      intro s hall ht
      obtain ⟨hplain, hu⟩ := hall u List.mem_cons_self
      have hstep : ∀ v : ClrType, Open s.root v.parts →
          Open (createFromType s u).root v.parts := by
        intro v hv
        unfold createFromType
        split
        · exact open_importAt u u.parts v.parts s.made s.root hplain.1 hu hv
        · exact hv
      exact ih _ (fun v hv => ⟨(hall v (List.mem_cons_of_mem _ hv)).1,
        hstep v (hall v (List.mem_cons_of_mem _ hv)).2⟩) (hstep t ht)

theorem slotAt_set (n c : Node) (x : Text) {path : List Text} (hne : path ≠ []) :
    slotAt (n.set x (.data c)) (x :: path) = slotAt c path := by
  obtain ⟨y, rest, rfl⟩ := List.exists_cons_of_ne_nil hne
  simp only [slotAt, Node.set_slots, assign_self]

/-- The getter of the type that was imported last stands at its path. -/
theorem slotAt_importAt_self (t : ClrType) :
    ∀ (p : List Text) (made : Nat) (n : Node), (∀ part ∈ p, part ∉ inherited) → Open n p →
      slotAt (importAt made n p t).2 (p ++ [t.name]) = .lazy t := by
  intro p
  induction p with
  | nil =>
      intro made n _ _
      exact assign_self _ _ _
  | cons part rest ih =>
      intro made n hown hp
      obtain ⟨made', c, heq, hc⟩ :=
        importAt_part made rest t (hown part List.mem_cons_self) hp.1
      have hopen : Open c rest := by
        obtain hdata | hvalues := hc
        · exact hp.2 c hdata
        · exact open_of_values hvalues rest
      rw [heq, List.cons_append,
        slotAt_set _ _ _ (List.append_ne_nil_of_right_ne_nil rest (List.cons_ne_nil _ _))]
      exact ih made' c (fun y hy => hown y (List.mem_cons_of_mem _ hy)) hopen

/-- No getter stands where the import has just passed. -/
theorem slotAt_importAt_namespace (t u : ClrType) :
    ∀ (path p : List Text) (made : Nat) (n : Node), (∀ part ∈ p, part ∉ inherited) → Open n p →
      path <+: p → slotAt (importAt made n p u).2 path ≠ .lazy t := by
  intro path
  induction path with
  | nil =>
      intro p made n _ _ _ h
      cases h
  | cons x rest ih =>
      intro p made n hown hp hprefix
      obtain ⟨p, rfl⟩ : ∃ p', p = x :: p' := by
        obtain ⟨tail, rfl⟩ := hprefix
        exact ⟨rest ++ tail, rfl⟩
      obtain ⟨made', c, heq, hc⟩ := importAt_part made p u (hown x List.mem_cons_self) hp.1
      rw [heq]
      cases hrest : rest with
      | nil =>
          rw [slotAt, Node.set_slots, assign_self]
          exact Slot.noConfusion
      | cons y rest' =>
          have hopen : Open c p := by
            obtain hdata | hvalues := hc
            · exact hp.2 c hdata
            · exact open_of_values hvalues p
          rw [slotAt_set _ _ _ (List.cons_ne_nil y rest'), ← hrest]
          exact ih p made' c (fun z hz => hown z (List.mem_cons_of_mem _ hz)) hopen
            (by simpa using hprefix)

/-- A list with one of its types at the end. -/
theorem exists_perm_last {types : List ClrType} {t : ClrType} (h : t ∈ types) :
    ∃ front, (front ++ [t]).Perm types := by
  obtain ⟨front, back, rfl⟩ := List.append_of_mem h
  refine ⟨front ++ back, ?_⟩
  rw [List.append_assoc]
  exact List.Perm.append_left front (List.perm_append_singleton t back)

/-- The last step of an import. -/
theorem importOnto_last {t : ClrType} (hpublic : t.isPublic = true) (s : State)
    (front : List ClrType) :
    (importOnto s (front ++ [t])).root =
      (importAt (importOnto s front).made (importOnto s front).root t.parts t).2 := by
  rw [importOnto, List.foldl_append]
  simp only [List.foldl_cons, List.foldl_nil]
  rw [createFromType, if_pos hpublic]
  rfl

/-- **Types are imported right exactly when none is called like a namespace of
another one**: the type that is imported last takes the place of the namespace
with all that is in it, and one that is imported first becomes the namespace. -/
theorem imports_iff (types : List ClrType) (hnames : (types.map ClrType.fullName).Nodup)
    (hpublic : ∀ t ∈ types, t.isPublic = true) (hplain : ∀ t ∈ types, t.Plain) :
    ImportsRight types ↔ ∀ t ∈ types, ∀ u ∈ types, ¬ t.path <+: u.parts := by
  constructor
  · intro hright t ht u hu hprefix
    have hlazy : ∀ v ∈ types, ∃ front, (front ++ [v]).Perm types ∧
        Open (importOnto State.start front).root v.parts := by
      intro v hv
      obtain ⟨front, hperm⟩ := exists_perm_last hv
      refine ⟨front, hperm, open_importOnto front State.start ?_ (open_start (hplain v hv))⟩
      intro w hw
      have hw' : w.Plain := hplain w (hperm.subset (List.mem_append_left _ hw))
      exact ⟨hw', open_start hw'⟩
    obtain ⟨front, hperm, hopen⟩ := hlazy t ht
    obtain ⟨front', hperm', hopen'⟩ := hlazy u hu
    have hsame : after (front' ++ [u]) [] = after (front ++ [t]) [] :=
      (hright _ hperm [] (by simp)).2 _ hperm'
    have htree : (importOnto State.start (front' ++ [u])).root =
        (importOnto State.start (front ++ [t])).root := congrArg State.root hsame
    have hbefore : slotAt (importOnto State.start (front' ++ [u])).root t.path ≠ .lazy t := by
      rw [importOnto_last (hpublic u hu)]
      exact slotAt_importAt_namespace t u t.path u.parts _ _ (hplain u hu).1 hopen' hprefix
    apply hbefore
    rw [htree, importOnto_last (hpublic t ht)]
    exact slotAt_importAt_self t t.parts _ _ (hplain t ht).1 hopen
  · intro hapart
    exact importsRight_of_apart hnames hpublic hplain hapart

/-- A public type that is not nested. -/
def topLevel (space name : Text) (hname : isIdentifier name = true) (hspace : '+' ∉ space)
    (kind : Kind) : ClrType where
  space := space
  outer := []
  name := name
  isPublic := true
  kind := kind
  name_identifier := hname
  outer_identifier := by simp
  space_plus := hspace
  nested_hidden := by simp

/-- A class from its namespace and its name. -/
def classType (space name : Text) (hname : isIdentifier name = true) (hspace : '+' ∉ space) :
    ClrType := topLevel space name hname hspace .constructed

theorem empty_plus : '+' ∉ ([] : Text) := List.not_mem_nil

/-- The class `Shop`. -/
def shop : ClrType := classType [] ['S', 'h', 'o', 'p'] (by decide) empty_plus

/-- The class `Cart` in the namespace `Shop`. -/
def cart : ClrType := classType ['S', 'h', 'o', 'p'] ['C', 'a', 'r', 't'] (by decide) (by decide)

/-- The class `Item` in the namespace `Shop.Stock`. -/
def item : ClrType :=
  classType ['S', 'h', 'o', 'p', '.', 'S', 't', 'o', 'c', 'k'] ['I', 't', 'e', 'm'] (by decide)
    (by decide)

/-- `imports_iff` at a namespace with a class and a namespace in it. -/
theorem imports_iff_shop :
    ImportsRight [cart, item] ↔
      ∀ t ∈ [cart, item], ∀ u ∈ [cart, item], ¬ t.path <+: u.parts :=
  imports_iff [cart, item] (by decide) (by decide) (by decide)

/-- **A namespace is lost**: after the class `Shop.Cart` and then the class
`Shop` are imported, nothing is found at `Shop.Cart`. -/
theorem namespace_lost :
    (([shop, cart].map ClrType.fullName).Nodup ∧ (∀ t ∈ [shop, cart], t.isPublic = true) ∧
        ∀ t ∈ [shop, cart], t.Plain) ∧ ¬ ImportsRight [shop, cart] := by
  refine ⟨by decide, ?_⟩
  intro hright
  have hread := (hright [cart, shop] (List.Perm.swap _ _ _) [] (by simp)).1 cart (by simp) nofun
  have hlost : ((after [cart, shop] []).read cart.path).2 = .undefined := rfl
  rw [hlost] at hread
  exact hread

end NamespaceImport

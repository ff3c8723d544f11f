import Tint.NamespaceImport

/-!
# The objects of enum values

A value of an enum type comes out of the CLR as a pointer of its own.
`createJSInstance` looks for the object that stands for it: it walks along the
full name of the type, split at its dots, and then along the text of the value,
in the hope that this is where `createEnum` has put the member.

* `identity_iff` -- the values that the program gets have the objects of their
  members exactly when the type is not nested and each value has one name;
* `twin_without_object` -- one of two names of a value is left without.
-/

namespace NamespaceImport

/-! ## Definitions -/

/-- The number of an object that a getter created. -/
def Origin.stamp : Origin → Option Nat
  | .space => none
  | .made _ stamp => some stamp
  | .value _ _ stamp => some stamp

/-- `===` of two objects that getters created. -/
def Same (n m : Node) : Prop :=
  ∃ stamp, n.origin.stamp = some stamp ∧ m.origin.stamp = some stamp

/-- `createJSInstance` of a value of an enum type. -/
def createJSInstance (s : State) (t : ClrType) (e : Enumeration) (v : Int) : State × Value :=
  s.read (t.fullName.splitOn '.' ++ [e.toText v])

/-- The state after the paths were read; `createJSInstance` reads one too. -/
def State.reads (s : State) (paths : List (List Text)) : State :=
  paths.foldl (fun s path => (s.read path).1) s

/-- What happens to the tree. -/
inductive Event
  | importType (t : ClrType)
  | read (path : List Text)

/-- One event. -/
def State.step (s : State) : Event → State
  | .importType t => createFromType s t
  | .read path => (s.read path).1

/-- The state after a run from the start. -/
def State.run (events : List Event) : State := events.foldl State.step State.start

/-- The getter of the enum type, or the enum object it made, is at its path. -/
def EnumAt : Node → List Text → ClrType → Enumeration → Prop
  | n, [], t, e =>
    n.slots t.name = .lazy t ∨ ∃ made, n.slots t.name = .data (enumObject t e made)
  | n, part :: rest, t, e => ∃ c, n.slots part = .data c ∧ EnumAt c rest t e

/-- The enum type is imported: its enum object is what its path leads to. -/
def Imported (s : State) (t : ClrType) (e : Enumeration) : Prop := EnumAt s.root t.parts t e

/-- What comparing enum values relies on, for the values that properties and
methods return (`returned`), whatever is read before and between. -/
structure Identity (s : State) (t : ClrType) (e : Enumeration) (returned : Int → Prop) :
    Prop where
  defined : ∀ v, returned v → ∀ before, ∃ n,
    (createJSInstance (s.reads before) t e v).2 = .object n
  identical : ∀ v w, returned v → returned w → ∀ before between s' n m,
    createJSInstance (s.reads before) t e v = (s', .object n) →
      (createJSInstance (s'.reads between) t e w).2 = .object m → (Same n m ↔ v = w)
  member : ∀ v, returned v → ∀ name, (name, v) ∈ e.names.zip e.values →
    ∀ before between s' n, createJSInstance (s.reads before) t e v = (s', .object n) →
      ∃ m, ((s'.reads between).read (t.path ++ [name])).2 = .object m ∧ Same n m

/-! ## The members of an enum object -/

/-- A property that is none of the names is not touched. -/
theorem enumSlots_other (toText : Int → Text) :
    ∀ (names : List Text) (values : List Int) (stamp : Nat) (obj : Text → Slot) (x : Text),
      x ∉ names → enumSlots toText stamp obj names values x = obj x := by
  intro names
  induction names with
  | nil =>
      intro values stamp obj x _
      rfl
  | cons ename names ih =>
      intro values stamp obj x hx
      cases values with
      | nil => rfl
      | cons evalue values =>
          rw [enumSlots, ih values _ _ x fun h => hx (List.mem_cons_of_mem _ h)]
          exact assign_other _ _ fun h => hx (h ▸ List.mem_cons_self)

/-- The member at an index, with the number it got. -/
theorem enumSlots_member (toText : Int → Text) :
    ∀ (names : List Text) (values : List Int) (stamp : Nat) (obj : Text → Slot),
      names.Nodup → ∀ (i : Nat) (x : Text) (v : Int), names[i]? = some x → values[i]? = some v →
        enumSlots toText stamp obj names values x =
          .data (.mk (.value v (toText v) (stamp + i)) fun _ => .absent) := by
  intro names
  induction names with
  | nil =>
      intro values stamp obj _ i x v hx
      cases hx
  | cons ename names ih =>
      intro values stamp obj hnodup i x v hx hv
      obtain ⟨hnot, hrest⟩ := List.nodup_cons.mp hnodup
      cases values with
      | nil => cases hv
      | cons evalue values =>
          cases i with
          | zero =>
              obtain rfl : ename = x := by simpa using hx
              obtain rfl : evalue = v := by simpa using hv
              rw [enumSlots, enumSlots_other toText names values _ _ ename hnot, assign_self,
                Nat.add_zero]
          | succ i =>
              have hmember := ih values (stamp + 1) (assign obj ename (.data (.mk
                (.value evalue (toText evalue) stamp) fun _ => .absent))) hrest i x v
                (by simpa using hx) (by simpa using hv)
              rw [enumSlots, hmember, Nat.add_assoc, Nat.add_comm 1 i]

/-- A member and its index. -/
theorem mem_zip_iff {names : List Text} {values : List Int} {name : Text} {v : Int} :
    (name, v) ∈ names.zip values ↔ ∃ i : Nat, names[i]? = some name ∧ values[i]? = some v := by
  rw [List.mem_iff_getElem?]
  constructor
  · intro h
    obtain ⟨i, hi⟩ := h
    exact ⟨i, List.getElem?_zip_eq_some.mp hi⟩
  · intro h
    obtain ⟨i, hi⟩ := h
    exact ⟨i, List.getElem?_zip_eq_some.mpr hi⟩

/-- Reading below a value changes nothing and finds no object. -/
theorem read_bare (made : Nat) (origin : Origin) (x : Text) (rest : List Text) :
    (read made (.mk origin fun _ => .absent) (x :: rest)).1 = made ∧
      (read made (.mk origin fun _ => .absent) (x :: rest)).2.1 = .mk origin (fun _ => .absent) ∧
      ∀ n, (read made (.mk origin fun _ => .absent) (x :: rest)).2.2 ≠ .object n := by
  have habsent : (Node.mk origin fun _ => .absent).slots x = .absent := rfl
  simp only [read, readSlot, habsent, inheritedValue]
  by_cases hx : x ∈ inherited
  · simp only [if_pos hx]
    refine ⟨trivial, trivial, ?_⟩
    intro n
    split
    · exact Value.noConfusion
    · exact Value.noConfusion
  · simp only [if_neg hx]
    refine ⟨trivial, trivial, ?_⟩
    intro n
    split
    · exact Value.noConfusion
    · exact Value.noConfusion

/-- Reading below an object with nothing but values changes nothing. -/
theorem read_values {n : Node} (h : Values n.slots) (made : Nat) (path : List Text) :
    (read made n path).1 = made ∧ (read made n path).2.1 = n := by
  cases path with
  | nil => exact ⟨rfl, rfl⟩
  | cons x rest =>
      obtain habsent | ⟨v, Name, stamp, hvalue⟩ := h x
      · simp only [read, readSlot, habsent, inheritedValue]
        by_cases hx : x ∈ inherited
        · simp only [if_pos hx]
          exact ⟨trivial, trivial⟩
        · simp only [if_neg hx]
          exact ⟨trivial, trivial⟩
      · rw [read_data hvalue]
        cases rest with
        | nil => exact ⟨rfl, Node.set_same hvalue⟩
        | cons y rest =>
            obtain ⟨hmade, hnode, -⟩ := read_bare made (.value v Name stamp) y rest
            refine ⟨hmade, ?_⟩
            rw [hnode]
            exact Node.set_same hvalue

theorem enumObject_values (t : ClrType) (e : Enumeration) (made : Nat) :
    Values (enumObject t e made).slots :=
  enumSlots_values e.toText e.names e.values (made + 1) _ fun _ => .inl rfl

theorem create_enum {t : ClrType} {e : Enumeration} (h : t.kind = .enum e) (made : Nat) :
    create made t = some (made + 1 + e.names.length, enumObject t e made) := by
  unfold create
  rw [h]

/-! ## The imported type -/

/-- **Reading leaves an imported type imported.** -/
theorem enumAt_read {t : ClrType} {e : Enumeration} (hkind : t.kind = .enum e) :
    ∀ (path p : List Text) (made : Nat) (n : Node), EnumAt n p t e →
      EnumAt (read made n path).2.1 p t e := by
  intro path
  induction path with
  | nil =>
      intro p made n h
      exact h
  | cons x rest ih =>
      intro p made n h
      cases p with
      | nil =>
          by_cases hx : t.name = x
          · subst hx
            obtain hlazy | ⟨k, hdata⟩ := h
            · rw [read_lazy hlazy (create_enum hkind made)]
              refine .inr ⟨made, ?_⟩
              rw [Node.set_slots, assign_self, (read_values (enumObject_values t e made) _ rest).2]
            · rw [read_data hdata]
              refine .inr ⟨k, ?_⟩
              rw [Node.set_slots, assign_self, (read_values (enumObject_values t e k) _ rest).2]
          · have hother := read_other made n rest hx
            obtain hlazy | ⟨k, hdata⟩ := h
            · exact .inl (hother.trans hlazy)
            · exact .inr ⟨k, hother.trans hdata⟩
      | cons part parts =>
          obtain ⟨c, hdata, hinner⟩ := h
          by_cases hx : part = x
          · subst hx
            rw [read_data hdata]
            exact ⟨_, assign_self _ _ _, ih parts made c hinner⟩
          · exact ⟨c, (read_other made n rest hx).trans hdata, hinner⟩

/-- After its enum object was made, the object stays the same one. -/
def MadeAt : Node → List Text → ClrType → Enumeration → Nat → Prop
  | n, [], t, e, made => n.slots t.name = .data (enumObject t e made)
  | n, part :: rest, t, e, made => ∃ c, n.slots part = .data c ∧ MadeAt c rest t e made

/-- A reading leaves an object where it is. -/
theorem madeAt_read {t : ClrType} {e : Enumeration} {k : Nat} :
    ∀ (path p : List Text) (made : Nat) (n : Node), MadeAt n p t e k →
      MadeAt (read made n path).2.1 p t e k := by
  intro path
  induction path with
  | nil =>
      intro p made n h
      exact h
  | cons x rest ih =>
      intro p made n h
      cases p with
      | nil =>
          have hdata : n.slots t.name = .data (enumObject t e k) := h
          by_cases hx : t.name = x
          · subst hx
            rw [read_data hdata, MadeAt, Node.set_slots, assign_self,
              (read_values (enumObject_values t e k) _ rest).2]
          · exact (read_other made n rest hx).trans hdata
      | cons part parts =>
          obtain ⟨c, hdata, hinner⟩ := h
          by_cases hx : part = x
          · subst hx
            rw [read_data hdata]
            exact ⟨_, assign_self _ _ _, ih parts made c hinner⟩
          · exact ⟨c, (read_other made n rest hx).trans hdata, hinner⟩

/-- **Reading a property of the enum object** gives the property that
`createEnum` set, and from then on the enum object is made. -/
theorem read_enumAt {t : ClrType} {e : Enumeration} (hkind : t.kind = .enum e) (x : Text) :
    ∀ (p : List Text) (made : Nat) (n : Node), EnumAt n p t e →
      ∃ k, MadeAt (read made n (p ++ [t.name, x])).2.1 p t e k ∧
        (read made n (p ++ [t.name, x])).2.2 = (read made (enumObject t e k) [x]).2.2 := by
  have hvalue : ∀ (made made' k : Nat), (read made (enumObject t e k) [x]).2.2 =
      (read made' (enumObject t e k) [x]).2.2 := by
    intro made made' k
    obtain habsent | ⟨v, Name, stamp, hdata⟩ := enumObject_values t e k x
    · simp only [read, readSlot, habsent, inheritedValue]
      by_cases hx : x ∈ inherited
      · simp only [if_pos hx]
      · simp only [if_neg hx]
    · rw [read_data hdata, read_data hdata]
      rfl
  intro p
  induction p with
  | nil =>
      intro made n h
      obtain hlazy | ⟨k, hdata⟩ := h
      · rw [List.nil_append, read_lazy hlazy (create_enum hkind made)]
        refine ⟨made, ?_, hvalue _ _ _⟩
        rw [MadeAt, Node.set_slots, assign_self, (read_values (enumObject_values t e made) _ _).2]
      · rw [List.nil_append, read_data hdata]
        refine ⟨k, ?_, hvalue _ _ _⟩
        rw [MadeAt, Node.set_slots, assign_self, (read_values (enumObject_values t e k) _ _).2]
  | cons part rest ih =>
      intro made n h
      obtain ⟨c, hdata, hinner⟩ := h
      obtain ⟨k, hmade, hread⟩ := ih made c hinner
      rw [List.cons_append, read_data hdata]
      exact ⟨k, ⟨_, assign_self _ _ _, hmade⟩, hread⟩

/-- The same once the enum object is made. -/
theorem read_madeAt {t : ClrType} {e : Enumeration} (x : Text) {k : Nat} :
    ∀ (p : List Text) (made : Nat) (n : Node), MadeAt n p t e k →
      (read made n (p ++ [t.name, x])).2.2 = (read made (enumObject t e k) [x]).2.2 := by
  intro p
  induction p with
  | nil =>
      intro made n h
      have hdata : n.slots t.name = .data (enumObject t e k) := h
      rw [List.nil_append, read_data hdata]
  | cons part rest ih =>
      intro made n h
      obtain ⟨c, hdata, hinner⟩ := h
      rw [List.cons_append, read_data hdata]
      exact ih made c hinner

/-- After any readings a type is still imported. -/
theorem imported_reads {t : ClrType} {e : Enumeration} (hkind : t.kind = .enum e) :
    ∀ (paths : List (List Text)) (s : State), Imported s t e → Imported (s.reads paths) t e := by
  intro paths
  induction paths with
  | nil =>
      intro s h
      exact h
  | cons path rest ih =>
      intro s h
      exact ih _ (enumAt_read hkind path t.parts s.made s.root h)

/-- Any readings leave an object where it is. -/
theorem madeAt_reads {t : ClrType} {e : Enumeration} {k : Nat} :
    ∀ (paths : List (List Text)) (s : State), MadeAt s.root t.parts t e k →
      MadeAt (s.reads paths).root t.parts t e k := by
  intro paths
  induction paths with
  | nil =>
      intro s h
      exact h
  | cons path rest ih =>
      intro s h
      exact ih _ (madeAt_read path t.parts s.made s.root h)

/-- What a property of the enum object holds: a member with a number of its
own, or no object. -/
theorem read_member (t : ClrType) (e : Enumeration) (k made : Nat) (x : Text) :
    (∃ (i : Nat) (v : Int), e.names[i]? = some x ∧ e.values[i]? = some v ∧
      (read made (enumObject t e k) [x]).2.2 =
        .object (.mk (.value v (e.toText v) (k + 1 + i)) fun _ => .absent)) ∨
    (x ∉ e.names ∧ ∀ n, (read made (enumObject t e k) [x]).2.2 ≠ .object n) := by
  by_cases hx : x ∈ e.names
  · obtain ⟨i, hi⟩ := List.mem_iff_getElem?.mp hx
    have hlen : i < e.values.length := by
      have := (List.getElem?_eq_some_iff.mp hi).1
      rwa [e.paired] at this
    have hslot := enumSlots_member e.toText e.names e.values (k + 1) (fun _ => .absent)
      e.distinct i x _ hi (List.getElem?_eq_getElem hlen)
    refine .inl ⟨i, _, hi, List.getElem?_eq_getElem hlen, ?_⟩
    rw [read_data (n := enumObject t e k) hslot]
    rfl
  · refine .inr ⟨hx, ?_⟩
    intro n
    have habsent : (enumObject t e k).slots x = .absent :=
      enumSlots_other e.toText e.names e.values (k + 1) _ x hx
    simp only [read, readSlot, habsent, inheritedValue]
    by_cases hown : x ∈ inherited
    · simp only [if_pos hown]
      exact Value.noConfusion
    · simp only [if_neg hown]
      exact Value.noConfusion

/-- A type that is put last is imported. -/
theorem enumAt_place (t : ClrType) (e : Enumeration) :
    ∀ (p : List Text) (n : Node), EnumAt (place n p t) p t e := by
  intro p
  induction p with
  | nil =>
      intro n
      exact .inl (assign_self _ _ _)
  | cons part rest ih =>
      intro n
      exact ⟨_, assign_self _ _ _, ih _⟩

/-- **An import of types that are apart** leaves each enum type imported. -/
theorem imported_importOnto {types order : List ClrType} (hperm : order.Perm types)
    (hnames : (types.map ClrType.fullName).Nodup) (hpublic : ∀ t ∈ types, t.isPublic = true)
    (hplain : ∀ t ∈ types, t.Plain) (hapart : Apart types) {t : ClrType} (ht : t ∈ types)
    (e : Enumeration) : Imported (importOnto State.start order) t e := by
  obtain ⟨front, hlast⟩ := exists_perm_last ht
  have hapart' : Apart (front ++ [t]) :=
    fun a ha b hb => hapart a (hlast.subset ha) b (hlast.subset hb)
  have hplace := importOnto_perm hlast hnames hpublic hplain hapart
  rw [importOnto_eq _ _ (fun a ha => hpublic a (hlast.subset ha)) hapart'
    fun a ha => clear_start (hplain a (hlast.subset ha)), List.foldl_append] at hplace
  rw [Imported, importOnto_perm hperm hnames hpublic hplain hapart, ← hplace]
  exact enumAt_place t e t.parts _

/-! ## Nested types -/

/-- No property below the object has a `+` in its name. -/
inductive Plusless : Node → Prop
  | intro {n : Node} (absent : ∀ x, '+' ∈ x → n.slots x = .absent)
      (below : ∀ x c, n.slots x = .data c → Plusless c) : Plusless n

/-- An identifier has no plus. -/
theorem not_plus_of_identifier {x : Text} (h : isIdentifier x = true) : '+' ∉ x := by
  intro hplus
  cases x with
  | nil => cases hplus
  | cons c rest =>
      simp only [isIdentifier, Bool.and_eq_true] at h
      have hall := List.all_eq_true.mp h.2 '+' hplus
      simp at hall

/-- No plus comes in with a name without one. -/
theorem Plusless.set {n : Node} (h : Plusless n) {x : Text} (hx : '+' ∉ x) {s : Slot}
    (hs : ∀ c, s = .data c → Plusless c) : Plusless (n.set x s) := by
  obtain ⟨habsent, hbelow⟩ := h
  refine ⟨?_, ?_⟩
  · intro y hy
    have hyx : y ≠ x := by
      intro h
      rw [h] at hy
      exact hx hy
    rw [Node.set_slots, assign_other _ _ hyx]
    exact habsent y hy
  · intro y c hc
    by_cases hyx : y = x
    · rw [Node.set_slots, hyx, assign_self] at hc
      exact hs c hc
    · rw [Node.set_slots, assign_other _ _ hyx] at hc
      exact hbelow y c hc

theorem plusless_bare (origin : Origin) : Plusless (.mk origin fun _ => .absent) :=
  ⟨fun _ _ => rfl, fun _ _ hc => by cases hc⟩

/-- What is made for a type has no plus in its names. -/
theorem plusless_create {made made' : Nat} {t : ClrType} {c : Node}
    (h : create made t = some (made', c)) : Plusless c := by
  have hvalues := create_values h
  refine ⟨?_, ?_⟩
  · intro x hx
    unfold create at h
    split at h
    · next e _ =>
      cases h
      have hnot : x ∉ e.names := fun hm => not_plus_of_identifier (e.identifiers x hm) hx
      exact enumSlots_other e.toText e.names e.values _ _ x hnot
    · cases h
      rfl
    · cases h
  · intro x d hd
    obtain habsent | ⟨v, Name, stamp, hvalue⟩ := hvalues x
    · rw [habsent] at hd
      cases hd
    · rw [hvalue] at hd
      cases hd
      exact plusless_bare _

/-- Reading a property keeps the objects plusless and finds a plusless one. -/
theorem plusless_readSlot (made : Nat) {n : Node} (h : Plusless n) (x : Text) :
    Plusless (readSlot made n x).2.1 ∧
      ∀ c, (readSlot made n x).2.2 = .object c → '+' ∉ x ∧ Plusless c := by
  have hown : ∀ c, inheritedValue x ≠ .object c := by
    intro c
    unfold inheritedValue
    split
    · exact Value.noConfusion
    · exact Value.noConfusion
  have hplus : n.slots x ≠ .absent → '+' ∉ x := by
    intro hne hx
    obtain ⟨habsent, -⟩ := h
    exact hne (habsent x hx)
  unfold readSlot
  split
  · exact ⟨h, fun c hc => absurd hc (hown c)⟩
  · next c hdata =>
    refine ⟨h, ?_⟩
    intro d hd
    cases hd
    obtain ⟨-, hbelow⟩ := id h
    exact ⟨hplus (by rw [hdata]; exact Slot.noConfusion), hbelow x c hdata⟩
  · exact ⟨h, fun c hc => by cases hc⟩
  · next u hlazy =>
    have hx : '+' ∉ x := hplus (by rw [hlazy]; exact Slot.noConfusion)
    split
    · next made' c hcreate =>
      have hc := plusless_create hcreate
      refine ⟨h.set hx fun d hd => by cases hd; exact hc, ?_⟩
      intro d hd
      cases hd
      exact ⟨hx, hc⟩
    · exact ⟨h.set hx (fun d hd => by cases hd), fun c hc => absurd hc (hown c)⟩

/-- Reading a path keeps the objects plusless, and there is no object at a path
with a `+`. -/
theorem plusless_read : ∀ (path : List Text) (made : Nat) (n : Node), Plusless n →
    Plusless (read made n path).2.1 ∧
      ∀ c, (read made n path).2.2 = .object c → ∀ x ∈ path, '+' ∉ x := by
  intro path
  induction path with
  | nil =>
      intro made n h
      exact ⟨h, fun c _ x hx => by cases hx⟩
  | cons x rest ih =>
      intro made n h
      obtain ⟨hslot, hfound⟩ := plusless_readSlot made h x
      unfold read
      split
      · next made' n' c heq =>
        rw [heq] at hslot hfound
        obtain ⟨hx, hc⟩ := hfound c rfl
        obtain ⟨hinner, hpath⟩ := ih made' c hc
        refine ⟨hslot.set hx fun d hd => by cases hd; exact hinner, ?_⟩
        intro d hd y hy
        obtain rfl | hy := List.mem_cons.mp hy
        · exact hx
        · exact hpath d hd y hy
      · next heq =>
        rw [heq] at hslot
        refine ⟨hslot, ?_⟩
        intro d hd
        simp only at hd
        split at hd
        · cases hd
        · cases hd
      · next heq =>
        rw [heq] at hslot
        refine ⟨hslot, ?_⟩
        intro d hd
        simp only at hd
        split at hd
        · cases hd
        · cases hd
      · next heq =>
        rw [heq] at hslot
        exact ⟨hslot, fun d hd => by cases hd⟩

/-- An import keeps the objects plusless. -/
theorem plusless_importAt (t : ClrType) : ∀ (p : List Text) (made : Nat) (n : Node),
    (∀ part ∈ p, '+' ∉ part) → Plusless n → Plusless (importAt made n p t).2 := by
  intro p
  induction p with
  | nil =>
      intro made n _ h
      exact h.set (not_plus_of_identifier t.name_identifier) fun c hc => by cases hc
  | cons part rest ih =>
      intro made n hp h
      have hpart := hp part List.mem_cons_self
      have hrest : ∀ x ∈ rest, '+' ∉ x := fun x hx => hp x (List.mem_cons_of_mem _ hx)
      obtain ⟨hslot, hfound⟩ := plusless_readSlot made h part
      unfold importAt
      split
      · next made' n' c heq =>
        rw [heq] at hslot hfound
        have hinner := ih made' c hrest (hfound c rfl).2
        exact hslot.set hpart fun d hd => by cases hd; exact hinner
      · next heq =>
        rw [heq] at hslot
        exact hslot.set hpart fun d hd => by cases hd
      · next made' n' v _ _ heq =>
        rw [heq] at hslot
        have hinner := ih made' Node.empty hrest (plusless_bare _)
        exact hslot.set hpart fun d hd => by cases hd; exact hinner

/-- A character other than the dot is from one of the parts. -/
theorem mem_intercalate_dot {x : Char} (hx : x ≠ '.') (parts : List Text) :
    x ∈ ['.'].intercalate parts ↔ ∃ part ∈ parts, x ∈ part := by
  induction parts with
  | nil => simp
  | cons part rest ih =>
      cases rest with
      | nil => simp
      | cons part' rest' =>
          rw [List.intercalate_cons_cons, List.mem_append, List.mem_append, ih]
          simp [hx]

/-- The parts of a text are made of its characters. -/
theorem mem_of_mem_splitOn {x : Char} (hx : x ≠ '.') (text : Text) :
    x ∈ text ↔ ∃ part ∈ text.splitOn '.', x ∈ part := by
  have hboth := mem_intercalate_dot hx (text.splitOn '.')
  rwa [List.intercalate_splitOn] at hboth

/-- No part of a namespace has a `+`. -/
theorem ClrType.parts_plus (t : ClrType) : ∀ part ∈ t.parts, '+' ∉ part := by
  intro part hpart hplus
  unfold ClrType.parts at hpart
  split at hpart
  · cases hpart
  · exact t.space_plus ((mem_of_mem_splitOn (by decide) t.space).mpr ⟨part, hpart, hplus⟩)

/-- A part of the full name of a nested type has one. -/
theorem ClrType.fullName_plus {t : ClrType} (h : t.outer ≠ []) :
    ∃ part ∈ t.fullName.splitOn '.', '+' ∈ part := by
  apply (mem_of_mem_splitOn (by decide) _).mp
  obtain ⟨o, rest, houter⟩ := List.exists_cons_of_ne_nil h
  have hlast : ∃ y ys, rest ++ [t.name] = y :: ys := by
    cases rest with
    | nil => exact ⟨_, _, rfl⟩
    | cons y ys => exact ⟨_, _, rfl⟩
  obtain ⟨y, ys, hys⟩ := hlast
  unfold ClrType.fullName
  rw [houter, List.cons_append, hys, List.intercalate_cons_cons]
  simp

/-- No step brings a plus in. -/
theorem plusless_step {s : State} (e : Event) (h : Plusless s.root) :
    Plusless (s.step e).root := by
  cases e with
  | importType t =>
      simp only [State.step, createFromType]
      split
      · exact plusless_importAt t t.parts s.made s.root t.parts_plus h
      · exact h
  | read path => exact (plusless_read path s.made s.root h).1

/-- There is no plus at the start. -/
theorem plusless_start : Plusless State.start.root := by
  refine ⟨?_, ?_⟩
  · intro x hx
    apply if_neg
    intro hm
    have hnone : ∀ f ∈ functions, '+' ∉ f := by decide
    exact hnone x hm hx
  · intro x c hc
    by_cases hx : x ∈ functions
    · have hshared : State.start.root.slots x = .shared x := if_pos hx
      rw [hshared] at hc
      cases hc
    · have habsent : State.start.root.slots x = .absent := if_neg hx
      rw [habsent] at hc
      cases hc

/-- The tree is plusless in every state of a run. -/
theorem plusless_run (events : List Event) : Plusless (State.run events).root :=
  List.foldlRecOn (motive := fun s : State => Plusless s.root) events State.step plusless_start
    fun _ h e _ => plusless_step e h

/-- **A value of a nested type has no object.** -/
theorem nested_undefined (events : List Event) {t : ClrType} (e : Enumeration)
    (h : t.outer ≠ []) (v : Int) (n : Node) :
    (createJSInstance (State.run events) t e v).2 ≠ .object n := by
  intro hfound
  obtain ⟨part, hpart, hplus⟩ := ClrType.fullName_plus h
  have hall := (plusless_read _ _ _ (plusless_run events)).2 n hfound
  exact hall part (List.mem_append_left _ hpart) hplus

/-! ## The objects of values -/

theorem ClrType.path_snoc (t : ClrType) (x : Text) : t.path ++ [x] = t.parts ++ [t.name, x] := by
  rw [ClrType.path, List.append_assoc, List.singleton_append]

/-- The value of an imported type is looked for among the members of its enum
object, and this object stays. -/
theorem createJSInstance_imported {s : State} {t : ClrType} {e : Enumeration}
    (hkind : t.kind = .enum e) (htop : t.outer = []) (h : Imported s t e) (v : Int) :
    ∃ k, MadeAt (createJSInstance s t e v).1.root t.parts t e k ∧
      (createJSInstance s t e v).2 = (read s.made (enumObject t e k) [e.toText v]).2.2 := by
  obtain ⟨k, hmade, hvalue⟩ := read_enumAt hkind (e.toText v) t.parts s.made s.root h
  have hpath : t.fullName.splitOn '.' ++ [e.toText v] = t.parts ++ [t.name, e.toText v] := by
    rw [← t.path_eq htop, t.path_snoc]
  refine ⟨k, ?_, ?_⟩
  · simp only [createJSInstance, State.read, hpath]
    exact hmade
  · simp only [createJSInstance, State.read, hpath]
    exact hvalue

/-- The object of a defined value. -/
theorem read_defined (t : ClrType) {e : Enumeration} {v : Int} (hv : v ∈ e.values)
    (k made : Nat) :
    ∃ i : Nat, e.names[i]? = some (e.toText v) ∧ e.values[i]? = some v ∧
      (read made (enumObject t e k) [e.toText v]).2.2 =
        .object (.mk (.value v (e.toText v) (k + 1 + i)) fun _ => .absent) := by
  obtain ⟨i, hname, hvalue⟩ := mem_zip_iff.mp (e.toText_defined v hv)
  have hslot := enumSlots_member e.toText e.names e.values (k + 1) (fun _ => .absent)
    e.distinct i _ v hname hvalue
  refine ⟨i, hname, hvalue, ?_⟩
  rw [read_data (n := enumObject t e k) hslot]
  rfl

/-- Only a defined value has an object. -/
theorem defined_of_read {t : ClrType} {e : Enumeration} {v : Int} {k made : Nat} {n : Node}
    (h : (read made (enumObject t e k) [e.toText v]).2.2 = .object n) : v ∈ e.values := by
  by_contra hv
  obtain ⟨i, w, hname, -, -⟩ | ⟨-, hnone⟩ := read_member t e k made (e.toText v)
  · have hid := e.identifiers _ (List.mem_of_getElem? hname)
    rw [e.toText_other v hv] at hid
    cases hid
  · exact hnone n h

/-- Two names at the same index are one name. -/
theorem index_of_name {e : Enumeration} {i j : Nat} {x : Text} (hi : e.names[i]? = some x)
    (hj : e.names[j]? = some x) : i = j := by
  have hlen := (List.getElem?_eq_some_iff.mp hi).1
  exact (List.getElem?_inj hlen e.distinct).mp (hi.trans hj.symm)

/-- What a later read of a member finds. -/
theorem read_later {s : State} {t : ClrType} {e : Enumeration} {k : Nat}
    (hmade : MadeAt s.root t.parts t e k) (between : List (List Text)) (x : Text) :
    ((s.reads between).read (t.path ++ [x])).2 =
      (read (s.reads between).made (enumObject t e k) [x]).2.2 := by
  simp only [State.read, t.path_snoc]
  exact read_madeAt x t.parts _ _ (madeAt_reads between s hmade)

/-- The path of a value of a top-level type. -/
theorem createJSInstance_top {s : State} {t : ClrType} (htop : t.outer = []) (e : Enumeration)
    (v : Int) : createJSInstance s t e v = s.read (t.path ++ [e.toText v]) := by
  rw [createJSInstance, ← t.path_eq htop]

/-- The second name of a value has another object. -/
theorem name_unique {s : State} {t : ClrType} {e : Enumeration} (hkind : t.kind = .enum e)
    (htop : t.outer = []) (himported : Imported s t e) {returned : Int → Prop}
    (h : Identity s t e returned) {v : Int} (hv : returned v) :
    ∃! name, (name, v) ∈ e.names.zip e.values := by
  obtain ⟨n, hn⟩ := h.defined v hv []
  have hn' : (createJSInstance s t e v).2 = .object n := hn
  obtain ⟨k, hmade, hread⟩ := createJSInstance_imported hkind htop himported v
  rw [hread] at hn'
  obtain ⟨i, hname, hvalue, hobject⟩ := read_defined t (defined_of_read hn') k s.made
  rw [hobject] at hn'
  obtain rfl := Value.object.inj hn'
  refine ⟨e.toText v, mem_zip_iff.mpr ⟨i, hname, hvalue⟩, ?_⟩
  intro name hmem
  obtain ⟨m, hm, stamp, hstamp, hstamp'⟩ := h.member v hv name hmem [] [] _ _ (Prod.ext rfl hn)
  have hm' := (read_later hmade [] name).symm.trans hm
  obtain ⟨j, w, hname', -, hobject'⟩ | ⟨-, hnone⟩ :=
    read_member t e k ((createJSInstance s t e v).1.reads []).made name
  · rw [hobject'] at hm'
    obtain rfl := Value.object.inj hm'
    have hstamps : k + 1 + i = k + 1 + j := by
      simp only [Node.origin, Origin.stamp, Option.some.injEq] at hstamp hstamp'
      omega
    obtain rfl : i = j := by omega
    rw [hname] at hname'
    exact (Option.some.inj hname').symm
  · exact absurd hm' (hnone m)

/-- Values with one name each have the objects of their members. -/
theorem identity_of_unique {s : State} {t : ClrType} {e : Enumeration} (hkind : t.kind = .enum e)
    (htop : t.outer = []) (himported : Imported s t e) {returned : Int → Prop}
    (h : ∀ v, returned v → ∃! name, (name, v) ∈ e.names.zip e.values) :
    Identity s t e returned := by
  have hdefined : ∀ v, returned v → v ∈ e.values := by
    intro v hv
    obtain ⟨name, hmem, -⟩ := h v hv
    obtain ⟨i, -, hvalue⟩ := mem_zip_iff.mp hmem
    exact List.mem_of_getElem? hvalue
  have hspec : ∀ v, returned v → ∀ before, ∃ (k i : Nat),
      MadeAt (createJSInstance (s.reads before) t e v).1.root t.parts t e k ∧
      e.names[i]? = some (e.toText v) ∧ e.values[i]? = some v ∧
      (createJSInstance (s.reads before) t e v).2 =
        .object (.mk (.value v (e.toText v) (k + 1 + i)) fun _ => .absent) := by
    intro v hv before
    obtain ⟨k, hmade, hread⟩ := createJSInstance_imported hkind htop
      (imported_reads hkind before _ himported) v
    obtain ⟨i, hname, hvalue, hobject⟩ := read_defined t (hdefined v hv) k (s.reads before).made
    exact ⟨k, i, hmade, hname, hvalue, hread.trans hobject⟩
  refine ⟨?_, ?_, ?_⟩
  · intro v hv before
    obtain ⟨k, i, -, -, -, hobject⟩ := hspec v hv before
    exact ⟨_, hobject⟩
  · intro v w hv hw before between s' n m hn hm
    obtain ⟨k, i, hmade, hname, hvalue, hobject⟩ := hspec v hv before
    rw [hn] at hmade hobject
    obtain rfl := Value.object.inj hobject
    obtain ⟨j, hname', hvalue', hobject'⟩ := read_defined t (hdefined w hw) k
      (s'.reads between).made
    rw [createJSInstance_top htop, read_later hmade, hobject'] at hm
    obtain rfl := Value.object.inj hm
    constructor
    · intro hsame
      obtain ⟨stamp, hstamp, hstamp'⟩ := hsame
      simp only [Node.origin, Origin.stamp, Option.some.injEq] at hstamp hstamp'
      obtain rfl : i = j := by omega
      rw [hvalue] at hvalue'
      exact Option.some.inj hvalue'
    · intro hvw
      subst hvw
      obtain rfl := index_of_name hname hname'
      exact ⟨k + 1 + i, rfl, rfl⟩
  · intro v hv name hmem before between s' n hn
    obtain ⟨k, i, hmade, hname, hvalue, hobject⟩ := hspec v hv before
    rw [hn] at hmade hobject
    obtain rfl := Value.object.inj hobject
    obtain ⟨only, -, honly⟩ := h v hv
    obtain rfl : name = e.toText v :=
      (honly name hmem).trans (honly _ (mem_zip_iff.mpr ⟨i, hname, hvalue⟩)).symm
    obtain ⟨j, hname', -, hobject'⟩ := read_defined t (hdefined v hv) k (s'.reads between).made
    obtain rfl := index_of_name hname hname'
    exact ⟨_, (read_later hmade between _).trans hobject', k + 1 + i, rfl, rfl⟩

/-- **Values have the objects of their members exactly when the type is not
nested and each value has exactly one name**: values of a nested type are looked
for under a name with a `+`, combined and undefined values under a text that is
no name, and of two names for a value `ToString` knows only one. -/
theorem identity_iff (events : List Event) (t : ClrType) (e : Enumeration)
    (hkind : t.kind = .enum e) (himported : t.outer = [] → Imported (State.run events) t e)
    (returned : Int → Prop) :
    Identity (State.run events) t e returned ↔
      ∀ v, returned v → t.outer = [] ∧ ∃! name, (name, v) ∈ e.names.zip e.values := by
  constructor
  · intro h v hv
    have htop : t.outer = [] := by
      by_contra hnested
      obtain ⟨n, hn⟩ := h.defined v hv []
      exact nested_undefined events e hnested v n hn
    exact ⟨htop, name_unique hkind htop (himported htop) h hv⟩
  · intro h
    by_cases hnone : ∃ v, returned v
    · obtain ⟨v, hv⟩ := hnone
      have htop := (h v hv).1
      exact identity_of_unique hkind htop (himported htop) fun w hw => (h w hw).2
    · refine ⟨?_, ?_, ?_⟩
      · intro v hv
        exact absurd ⟨v, hv⟩ hnone
      · intro v w hv
        exact absurd ⟨v, hv⟩ hnone
      · intro v hv
        exact absurd ⟨v, hv⟩ hnone

/-- `enum Side { L = -1, R = 1 }` -/
def side : Enumeration where
  names := [['R'], ['L']]
  values := [1, -1]
  paired := rfl
  distinct := by decide
  identifiers := by decide
  toText v := if v = 1 then ['R'] else if v = -1 then ['L'] else ['0']
  toText_defined := by decide
  toText_other v hv := by
    have h : v ≠ 1 ∧ v ≠ -1 := by simpa using hv
    rw [if_neg h.1, if_neg h.2]
    decide

/-- The type of the first enum. -/
def sideType : ClrType := topLevel [] ['S', 'i', 'd', 'e'] (by decide) empty_plus (.enum side)

/-- `identity_iff` after the import of `Side`. -/
theorem identity_iff_side :
    Identity (State.run [.importType sideType]) sideType side (fun v => v = 1 ∨ v = -1) ↔
      ∀ v, v = 1 ∨ v = -1 → sideType.outer = [] ∧
        ∃! name, (name, v) ∈ side.names.zip side.values :=
  identity_iff [.importType sideType] sideType side rfl (fun _ => Or.inl rfl) _

/-- `enum Twin { A = 1, B = 1 }` -/
def twin : Enumeration where
  names := [['A'], ['B']]
  values := [1, 1]
  paired := rfl
  distinct := by decide
  identifiers := by decide
  toText v := if v = 1 then ['A'] else ['0']
  toText_defined := by decide
  toText_other v hv := by
    have h : v ≠ 1 := by simpa using hv
    rw [if_neg h]
    decide

/-- The type of the second one. -/
def twinType : ClrType := topLevel [] ['T', 'w', 'i', 'n'] (by decide) empty_plus (.enum twin)

/-- **One of two names is left without**: the object of the value 1 is the
member `A`, and the member `B` of the same value is another one. -/
theorem twin_without_object :
    Imported (State.run [.importType twinType]) twinType twin ∧
      ¬ Identity (State.run [.importType twinType]) twinType twin (fun v => v = 1) := by
  refine ⟨Or.inl rfl, ?_⟩
  intro h
  obtain ⟨m, hm, stamp, hstamp, hstamp'⟩ := h.member 1 rfl ['B'] (by decide) [] [] _ _ rfl
  obtain rfl := Value.object.inj hm
  cases hstamp
  cases hstamp'

end NamespaceImport

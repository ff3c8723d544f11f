import Tint.Transition
import Mathlib.Data.List.InsertIdx
import Mathlib.Logic.Function.Basic

/-!
# Toolbar identifiers

On macOS the children of a toolbar have identifiers, since AppKit asks for the
items of a toolbar by identifier.  A control is given the number of children there
are with it, once and for all; a toolbar item draws a number; and the spacers of a
kind share the standard identifier of that kind.

`identifiers` and `toolbarCache` are looked up and deleted from by identifier, so
they answer for the child that came last.  A number that is free again by the count
of the children may not be free.

* `identifiers_iff` -- in a run all states are as they should be if and only if no
  child is appended under the identifier of another one, and none is removed whose
  identifier is still in use;
* `identifier_reused` -- the third control has the identifier of the second, after
  the first was removed.

What AppKit does with a second item of one identifier in a toolbar is left out.
-/

namespace Toolbar

open Transition

/-- `"space"` and `"flex-space"` -/
inductive Spacer
  | space
  | flexSpace
  deriving DecidableEq

/-- `NSToolbarSpaceItem` and `NSToolbarFlexibleSpaceItem`, or a numeral. -/
inductive Identifier
  | standard (k : Spacer)
  | number (n : Nat)
  deriving DecidableEq

/-- A control or a toolbar item, or one of the objects that stand for spacers. -/
inductive Child
  | control (c : Nat)
  | spacer (k : Spacer) (serial : Nat)
  deriving DecidableEq

/-- What `appendChild` and `removeChild` are given. -/
inductive Argument
  | child (x : Child)
  | text (k : Spacer)
  deriving DecidableEq

/-- The items of the native toolbar: its own spacers, the native object of a toolbar
item, and items that show the view of a control. -/
inductive Item
  | standard (k : Spacer)
  | native (c : Nat)
  | view (c : Nat)
  deriving DecidableEq

/-- `identifier` is the `private.identifier` of the controls and toolbar items, and
`items` has the items of the native toolbar.  `next` numbers the objects that are
made for spacers, and `threw` says if the last call did. -/
structure State where
  children : List Child
  identifier : Nat → Option Nat
  identifiers : Identifier → Option Child
  toolbarCache : Identifier → Option Item
  items : List Item
  next : Nat
  threw : Bool

/-- A new toolbar; the toolbar items have their identifiers. -/
def start (identifier : Nat → Option Nat) : State where
  children := []
  identifier := identifier
  identifiers := fun _ => none
  toolbarCache := fun _ => none
  items := []
  next := 0
  threw := false

section Model

-- `isItem` tells toolbar items from controls.  AppKit may refuse an index that is
-- not there or ignore the call; if it refuses, `fireEvent` ends the process.
variable (isItem : Nat → Bool) (refuses : Bool)

/-- The item that a child ought to have. -/
def itemOf : Child → Item
  | .control c => if isItem c then .native c else .view c
  | .spacer k _ => .standard k

/-- `child.native`, or what `makeNSToolbarItemFromNSView` makes of it: the object of
a spacer has a string there, which is no view. -/
def makeItem : Child → Option Item
  | .control c => some (if isItem c then .native c else .view c)
  | .spacer _ _ => none

namespace State

/-- `child.private.identifier` -/
def identOf (s : State) : Child → Option Identifier
  | .control c => (s.identifier c).map .number
  | .spacer k _ => some (.standard k)

/-- `getChildren` -/
def getChildren (s : State) : List (Option Identifier) := s.children.map s.identOf

/-- The delegate's method, with the state that it leaves. -/
def itemForItemIdentifier (s : State) (identifier : Identifier) : Option (Item × State) :=
  match s.toolbarCache identifier with
  | some toolbarItem => some (toolbarItem, s)
  | none =>
      (s.identifiers identifier).bind fun child =>
        (makeItem isItem child).map fun toolbarItem =>
          (toolbarItem, { s with
            toolbarCache := Function.update s.toolbarCache identifier (some toolbarItem) })

/-- The native list of items with one more. -/
def insertAt (s : State) (item : Item) (index : Nat) : Option State :=
  if index ≤ s.items.length then some { s with items := s.items.insertIdx index item }
  else if refuses then none
  else some s

/-- `insertItemWithItemIdentifier:atIndex:`: AppKit has the standard items itself, and
asks the delegate for the others. -/
def insertItem (s : State) (identifier : Identifier) (index : Nat) : Option State :=
  match identifier with
  | .standard k => s.insertAt refuses (.standard k) index
  | .number n =>
      (s.itemForItemIdentifier isItem (.number n)).bind fun (item, s) =>
        s.insertAt refuses item index

/-- `removeItemAtIndex:`, where `none` is -1. -/
def removeItemAtIndex (s : State) (index : Option Nat) : Option State :=
  match index.filter (· < s.items.length) with
  | some i => some { s with items := s.items.eraseIdx i }
  | none => if refuses then none else some s

/-- The number that a control goes by. -/
def numberFor (s : State) (c : Nat) : Nat := (s.identifier c).getD (s.children.length + 1)

/-- The object in the place of the argument. -/
def childFor (s : State) : Argument → Child × State
  | .child x => (x, s)
  | .text k => (.spacer k s.next, { s with next := s.next + 1 })

/-- `if (!child.private.identifier)` -/
def named (s : State) : Child → State
  | .control c => { s with identifier := Function.update s.identifier c (some (s.numberFor c)) }
  | .spacer _ _ => s

/-- The listener of `before-child-attached`. -/
def beforeChildAttached (s : State) (argument : Argument) : Option (Child × State) :=
  let (child, s) := s.childFor argument
  let s := s.named child
  (s.identOf child).bind fun identifier =>
    let s := { s with identifiers := Function.update s.identifiers identifier (some child) }
    (s.insertItem isItem refuses identifier s.children.length).map fun s => (child, s)

/-- `Container.prototype.appendChild` -/
def appendChild (s : State) (argument : Argument) : Option State :=
  (s.beforeChildAttached isItem refuses argument).map fun (child, s) =>
    { s with children := s.children ++ [child], threw := false }

/-- `delete` in both tables; a control may have no identifier. -/
def forget (s : State) (identifier : Option Identifier) : State :=
  match identifier with
  | some identifier =>
      { s with
        identifiers := Function.update s.identifiers identifier none
        toolbarCache := Function.update s.toolbarCache identifier none }
  | none => s

/-- The listener of `before-child-dettached`. -/
def beforeChildDettached (s : State) (child : Child) : Option State :=
  (s.removeItemAtIndex refuses (s.children.idxOf? child)).map fun s =>
    s.forget (s.identOf child)

/-- A toolbar item has `removeFromSuperview` sent to it, though it is no view. -/
def throwsAway : Child → Bool
  | .control c => isItem c
  | .spacer _ _ => false

/-- `Container.prototype.removeChild`; a string has no `private`, and the listener
that reads an identifier from it ends the process. -/
def removeChild (s : State) (argument : Argument) : Option State :=
  match argument with
  | .child x =>
      (s.beforeChildDettached refuses x).map fun s =>
        { s with children := s.children.erase x, threw := throwsAway isItem x }
  | .text _ => none

/-- What the delegate says. -/
def answer (s : State) (identifier : Identifier) : Option Item :=
  (s.itemForItemIdentifier isItem identifier).map Prod.fst

end State

/-- What may be called. -/
inductive Action
  | appendChild (argument : Argument)
  | removeChild (argument : Argument)
  deriving DecidableEq

/-- One call. -/
def step (s : State) : Action → Option State
  | .appendChild argument => s.appendChild isItem refuses argument
  | .removeChild argument => s.removeChild isItem refuses argument

/-- The children that the delegate is to answer for: AppKit does not ask for the
items of spacers, so they are among them only by choice. -/
def Asked (every : Bool) : Child → Prop
  | .control _ => True
  | .spacer _ _ => every = true

/-- All is as it should be. -/
structure Good (every : Bool) (s : State) : Prop where
  distinct : ∀ c d, .control c ∈ s.children → .control d ∈ s.children →
    s.identifier c = s.identifier d → c = d
  answers : ∀ x ∈ s.children, Asked every x →
    ∃ identifier, s.identOf x = some identifier ∧
      s.answer isItem identifier = some (itemOf isItem x)
  items : s.items = s.children.map (itemOf isItem)

/-- A control is appended if no other child goes by its number, and removed if none
that is left does. -/
def Ok (every : Bool) (s : State) : Action → Prop
  | .appendChild (.child (.control c)) =>
      ∀ d, .control d ∈ s.children → s.identifier d = some (s.numberFor c) → d = c
  | .appendChild _ => every = false
  | .removeChild (.child (.control c)) =>
      ∀ d, .control d ∈ s.children.erase (.control c) → s.identifier d ≠ s.identifier c
  | .removeChild _ => True

/-! ## What a call does -/

variable {isItem : Nat → Bool} {refuses : Bool}

/-- What holds as long as all is as it should be. -/
structure Inv (s : State) : Prop where
  named : ∀ c, .control c ∈ s.children → ∃ n, s.identifier c = some n
  cached : ∀ n item, s.toolbarCache (.number n) = some item →
    ∃ c, .control c ∈ s.children ∧ s.identifier c = some n
  uncached : ∀ k, s.toolbarCache (.standard k) = none
  spacers : ∀ k x, s.identifiers (.standard k) = some x → ∃ serial, x = .spacer k serial

namespace State

/-- The answer is from the cache, else made from what is known under the identifier. -/
theorem answer_eq (s : State) (identifier : Identifier) :
    s.answer isItem identifier =
      (s.toolbarCache identifier).or ((s.identifiers identifier).bind (makeItem isItem)) := by
  unfold answer itemForItemIdentifier
  cases s.toolbarCache identifier with
  | some item => rfl
  | none =>
      cases s.identifiers identifier with
      | none => rfl
      | some child => cases child <;> rfl

/-- The delegate has no answer for a spacer. -/
theorem answer_standard {s : State} (hs : Inv s) (k : Spacer) :
    s.answer isItem (.standard k) = none := by
  rw [answer_eq, hs.uncached k, Option.none_or]
  cases hx : s.identifiers (.standard k) with
  | none => rfl
  | some x =>
      obtain ⟨serial, rfl⟩ := hs.spacers k x hx
      rfl

/-- AppKit puts an item at the end. -/
theorem insertAt_end {s : State} {index : Nat} (hindex : s.items.length = index) (item : Item) :
    s.insertAt refuses item index = some { s with items := s.items ++ [item] } := by
  subst hindex
  unfold insertAt
  rw [if_pos (Nat.le_refl _), List.insertIdx_length_self]

/-- The state after a spacer was appended. -/
def withSpacer (s : State) (k : Spacer) (serial next : Nat) : State :=
  { s with
    children := s.children ++ [.spacer k serial]
    identifiers := Function.update s.identifiers (.standard k) (some (.spacer k serial))
    items := s.items ++ [.standard k]
    next := next
    threw := false }

/-- The object of the spacer is new or was one before. -/
theorem appendChild_spacer {s : State} (hitems : s.items.length = s.children.length)
    {argument : Argument} {k : Spacer} {serial : Nat}
    (hchild : (s.childFor argument).1 = .spacer k serial) :
    s.appendChild isItem refuses argument =
      some (s.withSpacer k serial (s.childFor argument).2.next) := by
  have hinsert : ∀ u : State, u.items.length = s.children.length →
      u.insertItem isItem refuses (.standard k) s.children.length =
        some { u with items := u.items ++ [.standard k] } :=
    fun u hu => insertAt_end hu _
  cases argument with
  | child x =>
      obtain rfl : x = .spacer k serial := hchild
      simp [appendChild, beforeChildAttached, childFor, named, identOf, withSpacer, hinsert _,
        hitems]
  | text k' =>
      obtain ⟨rfl, rfl⟩ := Child.spacer.inj hchild
      simp [appendChild, beforeChildAttached, childFor, named, identOf, withSpacer, hinsert _,
        hitems]

/-- The delegate has the cached item of the number, or else that of the control. -/
theorem insertItem_number {s : State} {c n : Nat}
    (htable : s.identifiers (.number n) = some (.control c)) {index : Nat}
    (hindex : s.items.length = index) :
    let item := (s.toolbarCache (.number n)).getD (itemOf isItem (.control c))
    s.insertItem isItem refuses (.number n) index = some
      { s with
        toolbarCache := Function.update s.toolbarCache (.number n) (some item)
        items := s.items ++ [item] } := by
  intro item
  have hfound : s.itemForItemIdentifier isItem (.number n) = some (item,
      { s with toolbarCache := Function.update s.toolbarCache (.number n) (some item) }) := by
    unfold itemForItemIdentifier
    cases hcache : s.toolbarCache (.number n) with
    | some cached =>
        have hitem : item = cached := by
          simp only [item, hcache, Option.getD_some]
        have hsame :
            Function.update s.toolbarCache (.number n) (some item) = s.toolbarCache := by
          rw [hitem, ← hcache, Function.update_eq_self]
        rw [hsame, hitem]
    | none =>
        have hitem : item = itemOf isItem (.control c) := by
          simp only [item, hcache, Option.getD_none]
        rw [htable, hitem]
        rfl
  rw [insertItem, hfound]
  exact insertAt_end (s := { s with
    toolbarCache := Function.update s.toolbarCache (.number n) (some item) }) hindex item

/-- The state after a control was appended. -/
def withControl (isItem : Nat → Bool) (s : State) (c : Nat) : State :=
  let identifier : Identifier := .number (s.numberFor c)
  let item := (s.toolbarCache identifier).getD (itemOf isItem (.control c))
  { s with
    children := s.children ++ [.control c]
    identifier := Function.update s.identifier c (some (s.numberFor c))
    identifiers := Function.update s.identifiers identifier (some (.control c))
    toolbarCache := Function.update s.toolbarCache identifier (some item)
    items := s.items ++ [item]
    threw := false }

/-- Appending a control. -/
theorem appendChild_control {s : State} (hitems : s.items.length = s.children.length) (c : Nat) :
    s.appendChild isItem refuses (.child (.control c)) = some (s.withControl isItem c) := by
  have hinsert := @insertItem_number isItem refuses
    { s.named (.control c) with
      identifiers :=
        Function.update s.identifiers (.number (s.numberFor c)) (some (.control c)) }
    c (s.numberFor c) (Function.update_self _ _ _) s.children.length hitems
  have hident : (s.named (.control c)).identOf (.control c) =
      some (.number (s.numberFor c)) := by
    simp only [named, identOf, Function.update_self, Option.map_some]
  have hbefore : s.beforeChildAttached isItem refuses (.child (.control c)) =
      (insertItem isItem refuses
        { s.named (.control c) with
          identifiers :=
            Function.update s.identifiers (.number (s.numberFor c)) (some (.control c)) }
        (.number (s.numberFor c)) s.children.length).map fun s => (.control c, s) := by
    unfold beforeChildAttached
    simp only [childFor, hident, Option.bind_some]
    rfl
  rw [appendChild, hbefore, hinsert]
  rfl

/-- AppKit loses the item at the index of the child, if there is one. -/
theorem removeItemAtIndex_eq {s u : State} (hitems : s.items = s.children.map (itemOf isItem))
    {x : Child} (h : s.removeItemAtIndex refuses (s.children.idxOf? x) = some u) :
    u = { s with items := (s.children.erase x).map (itemOf isItem) } := by
  unfold removeItemAtIndex at h
  cases hindex : s.children.idxOf? x with
  | none =>
      rw [List.erase_of_not_mem (List.idxOf?_eq_none_iff.mp hindex), ← hitems]
      rw [hindex, Option.filter_none] at h
      simp only at h
      split at h
      · cases h
      · exact (Option.some.inj h).symm
  | some i =>
      obtain ⟨hi, -⟩ := List.idxOf?_eq_some_iff.mp hindex
      have hlength : i < s.items.length := by
        rw [hitems, List.length_map]
        exact hi
      have herase : s.items.eraseIdx i = (s.children.erase x).map (itemOf isItem) := by
        rw [hitems, List.eraseIdx_map, List.erase_eq_eraseIdx, hindex]
      have hin : (some i).filter (· < s.items.length) = some i := by
        rw [Option.filter_some, if_pos (decide_eq_true hlength)]
      rw [hindex, hin] at h
      simp only [herase] at h
      exact (Option.some.inj h).symm

/-- The state after a child was removed, or what was none. -/
def without (isItem : Nat → Bool) (s : State) (x : Child) : State :=
  { s.forget (s.identOf x) with
    children := s.children.erase x
    items := (s.children.erase x).map (itemOf isItem)
    threw := throwsAway isItem x }

/-- What a removal leaves if it returns. -/
theorem removeChild_eq {s t : State} (hitems : s.items = s.children.map (itemOf isItem))
    {x : Child} (h : s.removeChild isItem refuses (.child x) = some t) :
    t = s.without isItem x := by
  obtain ⟨v, hv, rfl⟩ := Option.map_eq_some_iff.mp h
  obtain ⟨u, hu, rfl⟩ := Option.map_eq_some_iff.mp hv
  rw [removeItemAtIndex_eq hitems hu]
  cases x with
  | spacer k serial => rfl
  | control c =>
      cases hc : s.identifier c <;>
        simp only [identOf, hc, forget, without, Option.map_some, Option.map_none]

end State

/-- The delegate says the same if its tables do. -/
theorem answer_congr {s t : State} {identifier : Identifier}
    (hcache : t.toolbarCache identifier = s.toolbarCache identifier)
    (htable : t.identifiers identifier = s.identifiers identifier) :
    t.answer isItem identifier = s.answer isItem identifier := by
  rw [State.answer_eq, State.answer_eq, hcache, htable]

/-- A control answers to its number. -/
theorem Good.control {every : Bool} {s : State} (hgood : Good isItem every s) {c n : Nat}
    (hc : .control c ∈ s.children) (hn : s.identifier c = some n) :
    s.answer isItem (.number n) = some (itemOf isItem (.control c)) := by
  obtain ⟨identifier, hident, hanswer⟩ := hgood.answers (.control c) hc trivial
  rw [State.identOf, hn] at hident
  obtain rfl : Identifier.number n = identifier := Option.some.inj hident
  exact hanswer

/-- If the delegate is to answer for spacers too, then there are none. -/
theorem Good.no_spacer {every : Bool} {s : State} (hs : Inv s) (hgood : Good isItem every s)
    {k : Spacer} {serial : Nat} (hx : .spacer k serial ∈ s.children) : every = false := by
  rw [Bool.eq_false_iff]
  intro hevery
  obtain ⟨identifier, hident, hanswer⟩ := hgood.answers _ hx hevery
  obtain rfl : Identifier.standard k = identifier := Option.some.inj hident
  rw [State.answer_standard hs] at hanswer
  cases hanswer

theorem Good.length {every : Bool} {s : State} (hgood : Good isItem every s) :
    s.items.length = s.children.length := by
  rw [hgood.items, List.length_map]

/-- What AppKit builds from what the delegate says, if it is to show all anew. -/
def State.build (isItem : Nat → Bool) (s : State) : Identifier → Option Item
  | .standard k => some (.standard k)
  | .number n => s.answer isItem (.number n)

/-- A toolbar that is built anew shows the items that it had. -/
theorem build_getChildren {every : Bool} {s : State} (hs : Inv s) (hgood : Good isItem every s) :
    s.getChildren.map (fun i => i.bind (s.build isItem)) = s.items.map some := by
  rw [State.getChildren, hgood.items, List.map_map, List.map_map]
  apply List.map_congr_left
  intro x hx
  cases x with
  | spacer k serial => rfl
  | control c =>
      obtain ⟨n, hn⟩ := hs.named c hx
      simp only [Function.comp_apply, State.identOf, hn, Option.map_some, Option.bind_some,
        State.build, hgood.control hx hn]

/-! ## Appending -/

theorem mem_withSpacer {s : State} {k : Spacer} {serial next c : Nat} :
    .control c ∈ (s.withSpacer k serial next).children ↔ .control c ∈ s.children := by
  simp [State.withSpacer]

theorem withSpacer_identifiers_self (s : State) (k : Spacer) (serial next : Nat) :
    (s.withSpacer k serial next).identifiers (.standard k) = some (.spacer k serial) :=
  Function.update_self _ _ _

theorem withSpacer_identifiers_of_ne (s : State) {k : Spacer} (serial next : Nat)
    {identifier : Identifier} (h : identifier ≠ .standard k) :
    (s.withSpacer k serial next).identifiers identifier = s.identifiers identifier :=
  Function.update_of_ne h _ _

/-- A spacer keeps the invariant. -/
theorem inv_withSpacer {s : State} (hs : Inv s) (k : Spacer) (serial next : Nat) :
    Inv (s.withSpacer k serial next) := by
  refine ⟨fun c hc => hs.named c (mem_withSpacer.mp hc), ?_, hs.uncached, ?_⟩
  · intro n item hitem
    obtain ⟨c, hc, hn⟩ := hs.cached n item hitem
    exact ⟨c, mem_withSpacer.mpr hc, hn⟩
  · intro k' x hx
    by_cases hk : k' = k
    · subst hk
      rw [withSpacer_identifiers_self] at hx
      exact ⟨serial, (Option.some.inj hx).symm⟩
    · rw [withSpacer_identifiers_of_ne s serial next (by simpa using hk)] at hx
      exact hs.spacers k' x hx

/-- It keeps the state good unless every child is to answer. -/
theorem good_withSpacer {every : Bool} {s : State} (hs : Inv s) (hgood : Good isItem every s)
    (k : Spacer) (serial next : Nat) :
    Good isItem every (s.withSpacer k serial next) ↔ every = false := by
  constructor
  · intro ht
    exact ht.no_spacer (inv_withSpacer hs k serial next)
      (List.mem_append_right _ List.mem_cons_self)
  · intro hevery
    refine ⟨?_, ?_, ?_⟩
    · intro c d hc hd
      exact hgood.distinct c d (mem_withSpacer.mp hc) (mem_withSpacer.mp hd)
    · intro x hx hasked
      cases x with
      | spacer k' serial' =>
          rw [hevery] at hasked
          cases hasked
      | control c =>
          have hc := mem_withSpacer.mp hx
          obtain ⟨n, hn⟩ := hs.named c hc
          have hident : (s.withSpacer k serial next).identOf (.control c) = some (.number n) := by
            rw [State.identOf, show (s.withSpacer k serial next).identifier c = some n from hn,
              Option.map_some]
          refine ⟨.number n, hident, ?_⟩
          rw [← hgood.control hc hn]
          exact answer_congr rfl (withSpacer_identifiers_of_ne s serial next nofun)
    · simp only [State.withSpacer, hgood.items, List.map_append, List.map_cons, List.map_nil,
        itemOf]

/-- A child keeps its number. -/
theorem withControl_identifier {s : State} (hs : Inv s) (c : Nat) {d : Nat}
    (hd : .control d ∈ s.children) :
    (s.withControl isItem c).identifier d = s.identifier d := by
  by_cases hdc : d = c
  · subst hdc
    obtain ⟨n, hn⟩ := hs.named d hd
    have hnumber : s.numberFor d = n := by rw [State.numberFor, hn, Option.getD_some]
    simp only [State.withControl, Function.update_self, hnumber, hn]
  · exact Function.update_of_ne hdc _ _

theorem withControl_identifier_self (s : State) (c : Nat) :
    (s.withControl isItem c).identifier c = some (s.numberFor c) :=
  Function.update_self _ _ _

theorem withControl_toolbarCache_of_ne (s : State) {c : Nat} {identifier : Identifier}
    (h : identifier ≠ .number (s.numberFor c)) :
    (s.withControl isItem c).toolbarCache identifier = s.toolbarCache identifier :=
  Function.update_of_ne h _ _

theorem withControl_identifiers_of_ne (s : State) {c : Nat} {identifier : Identifier}
    (h : identifier ≠ .number (s.numberFor c)) :
    (s.withControl isItem c).identifiers identifier = s.identifiers identifier :=
  Function.update_of_ne h _ _

theorem mem_withControl {s : State} {c d : Nat} :
    .control d ∈ (s.withControl isItem c).children ↔ .control d ∈ s.children ∨ d = c := by
  simp [State.withControl]

/-- A control keeps the invariant. -/
theorem inv_withControl {s : State} (hs : Inv s) (c : Nat) : Inv (s.withControl isItem c) := by
  refine ⟨?_, ?_, ?_, ?_⟩
  · intro d hd
    rcases mem_withControl.mp hd with hold | rfl
    · rw [withControl_identifier hs c hold]
      exact hs.named d hold
    · exact ⟨s.numberFor d, withControl_identifier_self s d⟩
  · intro n item hitem
    by_cases hn : n = s.numberFor c
    · subst hn
      exact ⟨c, mem_withControl.mpr (Or.inr rfl), withControl_identifier_self s c⟩
    · rw [withControl_toolbarCache_of_ne s (by simpa using hn)] at hitem
      obtain ⟨d, hd, hdn⟩ := hs.cached n item hitem
      exact ⟨d, mem_withControl.mpr (Or.inl hd), (withControl_identifier hs c hd).trans hdn⟩
  · intro k
    have hne : Identifier.standard k ≠ .number (s.numberFor c) := nofun
    exact (withControl_toolbarCache_of_ne s hne).trans (hs.uncached k)
  · intro k x hx
    have hne : Identifier.standard k ≠ .number (s.numberFor c) := nofun
    exact hs.spacers k x ((withControl_identifiers_of_ne s hne).symm.trans hx)

/-- What is cached under a free number is the item of the control that had it. -/
theorem Good.cached_item {every : Bool} {s : State} (hs : Inv s) (hgood : Good isItem every s)
    {c : Nat}
    (hfree : ∀ d, .control d ∈ s.children → s.identifier d = some (s.numberFor c) → d = c) :
    (s.toolbarCache (.number (s.numberFor c))).getD (itemOf isItem (.control c)) =
      itemOf isItem (.control c) := by
  cases hcache : s.toolbarCache (.number (s.numberFor c)) with
  | none => rfl
  | some item =>
      obtain ⟨d, hd, hdn⟩ := hs.cached _ item hcache
      obtain rfl := hfree d hd hdn
      have hanswer := hgood.control hd hdn
      rw [State.answer_eq, hcache, Option.some_or] at hanswer
      exact Option.some.inj hanswer

/-- It keeps the state good if no other child has its number. -/
theorem good_withControl {every : Bool} {s : State} (hs : Inv s) (hgood : Good isItem every s)
    (c : Nat) :
    Good isItem every (s.withControl isItem c) ↔
      ∀ d, .control d ∈ s.children → s.identifier d = some (s.numberFor c) → d = c := by
  have hself : (s.withControl isItem c).identifier c = some (s.numberFor c) :=
    withControl_identifier_self s c
  constructor
  · intro ht d hd hdn
    refine ht.distinct d c (mem_withControl.mpr (Or.inl hd)) (mem_withControl.mpr (Or.inr rfl)) ?_
    rw [withControl_identifier hs c hd, hdn, hself]
  · intro hfree
    have hitem := hgood.cached_item hs hfree
    have hone : ∀ d, .control d ∈ s.children →
        (s.withControl isItem c).identifier d = some (s.numberFor c) → d = c := by
      intro d hd hdn
      rw [withControl_identifier hs c hd] at hdn
      exact hfree d hd hdn
    refine ⟨?_, ?_, ?_⟩
    · intro d e hd he hsame
      rcases mem_withControl.mp hd with hdold | hdc
      · rcases mem_withControl.mp he with heold | hec
        · rw [withControl_identifier hs c hdold, withControl_identifier hs c heold] at hsame
          exact hgood.distinct d e hdold heold hsame
        · rw [hec, hself] at hsame
          exact (hone d hdold hsame).trans hec.symm
      · rcases mem_withControl.mp he with heold | hec
        · rw [hdc, hself] at hsame
          exact hdc.trans (hone e heold hsame.symm).symm
        · exact hdc.trans hec.symm
    · intro x hx hasked
      cases x with
      | spacer k serial =>
          have hold : .spacer k serial ∈ s.children := by simpa [State.withControl] using hx
          rw [Asked, hgood.no_spacer hs hold] at hasked
          cases hasked
      | control d =>
          by_cases hdc : d = c
          · subst hdc
            have hident : (s.withControl isItem d).identOf (.control d) =
                some (.number (s.numberFor d)) := by
              rw [State.identOf, hself, Option.map_some]
            refine ⟨_, hident, ?_⟩
            rw [State.answer_eq]
            simp only [State.withControl, Function.update_self, Option.some_or, hitem]
          · have hd := (mem_withControl.mp hx).resolve_right hdc
            obtain ⟨n, hn⟩ := hs.named d hd
            have hident : (s.withControl isItem c).identOf (.control d) = some (.number n) := by
              rw [State.identOf, withControl_identifier hs c hd, hn, Option.map_some]
            have hne : Identifier.number n ≠ .number (s.numberFor c) := by
              intro hsame
              obtain rfl := Identifier.number.inj hsame
              exact hdc (hfree d hd hn)
            refine ⟨_, hident, ?_⟩
            rw [← hgood.control hd hn]
            exact answer_congr (withControl_toolbarCache_of_ne s hne)
              (withControl_identifiers_of_ne s hne)
    · simp only [State.withControl, hitem, hgood.items, List.map_append, List.map_cons,
        List.map_nil]

/-! ## Removing -/

@[simp] theorem forget_identifier (s : State) (i : Option Identifier) :
    (s.forget i).identifier = s.identifier := by
  cases i <;> rfl

theorem forget_toolbarCache (s : State) (i : Option Identifier) (j : Identifier) :
    (s.forget i).toolbarCache j = if i = some j then none else s.toolbarCache j := by
  cases i with
  | none => rfl
  | some i => simp [State.forget, Function.update_apply, eq_comm]

theorem forget_identifiers (s : State) (i : Option Identifier) (j : Identifier) :
    (s.forget i).identifiers j = if i = some j then none else s.identifiers j := by
  cases i with
  | none => rfl
  | some i => simp [State.forget, Function.update_apply, eq_comm]

theorem without_identOf (s : State) (x y : Child) :
    (s.without isItem x).identOf y = s.identOf y := by
  cases y with
  | spacer k serial => rfl
  | control c => simp only [State.identOf, State.without, forget_identifier]

/-- The delegate has no answer any more for the identifier of the child. -/
theorem without_answer_self {s : State} {x : Child} {i : Identifier}
    (hi : s.identOf x = some i) : (s.without isItem x).answer isItem i = none := by
  rw [State.answer_eq]
  simp only [State.without, forget_toolbarCache, forget_identifiers, hi, if_true, Option.none_or,
    Option.bind_none]

/-- Other identifiers are answered as before. -/
theorem without_answer_of_ne {s : State} {x : Child} {i : Identifier}
    (hi : s.identOf x ≠ some i) :
    (s.without isItem x).answer isItem i = s.answer isItem i := by
  apply answer_congr
  · simp only [State.without, forget_toolbarCache, if_neg hi]
  · simp only [State.without, forget_identifiers, if_neg hi]

/-- A removal keeps the invariant. -/
theorem inv_without {s : State} (hs : Inv s) (x : Child) : Inv (s.without isItem x) := by
  refine ⟨?_, ?_, ?_, ?_⟩
  · intro c hc
    obtain ⟨n, hn⟩ := hs.named c (List.mem_of_mem_erase hc)
    exact ⟨n, by simp only [State.without, forget_identifier, hn]⟩
  · intro n item hitem
    simp only [State.without, forget_toolbarCache] at hitem
    split at hitem
    case isTrue => cases hitem
    case isFalse hother =>
      obtain ⟨c, hc, hn⟩ := hs.cached n item hitem
      have hne : Child.control c ≠ x := by
        intro hsame
        subst hsame
        exact hother (by rw [State.identOf, hn, Option.map_some])
      refine ⟨c, (List.mem_erase_of_ne hne).mpr hc, ?_⟩
      simp only [State.without, forget_identifier, hn]
  · intro k
    simp only [State.without, forget_toolbarCache, hs.uncached k, ite_self]
  · intro k y hy
    simp only [State.without, forget_identifiers] at hy
    split at hy
    case isTrue => cases hy
    case isFalse => exact hs.spacers k y hy

/-- A child goes away for good if no control that is left has its identifier. -/
theorem good_without {every : Bool} {s : State} (hs : Inv s) (hgood : Good isItem every s)
    (x : Child) :
    Good isItem every (s.without isItem x) ↔
      ∀ d, .control d ∈ s.children.erase x → s.identOf (.control d) ≠ s.identOf x := by
  constructor
  · intro ht d hd hsame
    obtain ⟨i, hident, hanswer⟩ := ht.answers (.control d) hd trivial
    rw [without_identOf, hsame] at hident
    rw [without_answer_self hident] at hanswer
    cases hanswer
  · intro hfree
    refine ⟨?_, ?_, rfl⟩
    · intro c d hc hd hsame
      simp only [State.without, forget_identifier] at hsame
      exact hgood.distinct c d (List.mem_of_mem_erase hc) (List.mem_of_mem_erase hd) hsame
    · intro y hy hasked
      have hold : y ∈ s.children := List.mem_of_mem_erase hy
      cases y with
      | spacer k serial =>
          rw [Asked, hgood.no_spacer hs hold] at hasked
          cases hasked
      | control d =>
          obtain ⟨i, hident, hanswer⟩ := hgood.answers (.control d) hold hasked
          refine ⟨i, by rw [without_identOf, hident], ?_⟩
          rw [without_answer_of_ne, hanswer]
          intro hsame
          exact hfree d hy (hident.trans hsame.symm)

/-! ## Runs -/

/-- Each step keeps the invariant. -/
theorem inv_step (every : Bool) (s : State) (a : Action) (t : State) (hs : Inv s)
    (hgood : Good isItem every s) (h : step isItem refuses s a = some t) : Inv t := by
  cases a with
  | appendChild argument =>
      cases hchild : (s.childFor argument).1 with
      | spacer k serial =>
          rw [step, State.appendChild_spacer hgood.length hchild] at h
          rw [← Option.some.inj h]
          exact inv_withSpacer hs k serial _
      | control c =>
          cases argument with
          | text k => cases hchild
          | child x =>
              obtain rfl : x = .control c := hchild
              rw [step, State.appendChild_control hgood.length] at h
              rw [← Option.some.inj h]
              exact inv_withControl hs c
  | removeChild argument =>
      cases argument with
      | text k => cases h
      | child x =>
          rw [State.removeChild_eq hgood.items h]
          exact inv_without hs x

/-- A step keeps the state good exactly if it is in order. -/
theorem good_step (every : Bool) (s : State) (a : Action) (t : State) (hs : Inv s)
    (hgood : Good isItem every s) (h : step isItem refuses s a = some t) :
    Good isItem every t ↔ Ok every s a := by
  cases a with
  | appendChild argument =>
      cases argument with
      | text k =>
          have hchild : (s.childFor (.text k)).1 = .spacer k s.next := rfl
          rw [step, State.appendChild_spacer hgood.length hchild] at h
          rw [← Option.some.inj h]
          exact good_withSpacer hs hgood k s.next _
      | child x =>
          cases x with
          | spacer k serial =>
              have hchild : (s.childFor (.child (.spacer k serial))).1 = .spacer k serial := rfl
              rw [step, State.appendChild_spacer hgood.length hchild] at h
              rw [← Option.some.inj h]
              exact good_withSpacer hs hgood k serial _
          | control c =>
              rw [step, State.appendChild_control hgood.length] at h
              rw [← Option.some.inj h]
              exact good_withControl hs hgood c
  | removeChild argument =>
      cases argument with
      | text k => cases h
      | child x =>
          rw [State.removeChild_eq hgood.items h, good_without hs hgood x]
          cases x with
          | spacer k serial =>
              refine ⟨fun _ => trivial, fun _ d _ hsame => ?_⟩
              obtain ⟨n, -, hn⟩ := Option.map_eq_some_iff.mp hsame
              cases hn
          | control c =>
              have hinj : Function.Injective (Option.map Identifier.number) :=
                Option.map_injective fun _ _ => Identifier.number.inj
              exact forall₂_congr fun d _ => not_congr hinj.eq_iff

theorem inv_start (identifier : Nat → Option Nat) : Inv (start identifier) :=
  ⟨nofun, nofun, fun _ => rfl, nofun⟩

theorem good_start (every : Bool) (identifier : Nat → Option Nat) :
    Good isItem every (start identifier) :=
  ⟨nofun, nofun, rfl⟩

/-- **In a run the children have identifiers of their own, the delegate answers with
their items, and the native toolbar shows them in order, if and only if** all calls
meet the condition. -/
theorem identifiers_iff (every : Bool) (identifier : Nat → Option Nat) (as : List Action)
    (hrun : Meets (step isItem refuses) (fun _ _ => True) (start identifier) as) :
    Throughout (step isItem refuses) (Good isItem every) (start identifier) as ↔
      Meets (step isItem refuses) (Ok every) (start identifier) as :=
  throughout_iff_meets_of_kept (fun s a t hs hgood _ h => inv_step every s a t hs hgood h)
    (good_step every) (inv_start identifier) (good_start every identifier) hrun

/-- Two controls and a space between them, and the last control goes. -/
def lastRemoved : List Action :=
  [.appendChild (.child (.control 0)), .appendChild (.text .space),
    .appendChild (.child (.control 1)), .removeChild (.child (.control 1))]

/-- Two controls, the last of them removed. -/
theorem identifiers_iff_lastRemoved :
    Meets (step (fun _ => false) true) (fun _ _ => True) (start fun _ => none) lastRemoved ∧
      (Throughout (step (fun _ => false) true) (Good (fun _ => false) false) (start fun _ => none)
          lastRemoved ↔
        Meets (step (fun _ => false) true) (Ok false) (start fun _ => none) lastRemoved) := by
  have hrun : Meets (step (fun _ => false) true) (fun _ _ => True) (start fun _ => none)
      lastRemoved := by decide
  exact ⟨hrun, identifiers_iff false (fun _ => none) lastRemoved hrun⟩

/-- **A number that is in use is given to another control.**  Of two controls the
first goes, and a third one comes. -/
theorem identifier_reused :
    ¬ ∀ isItem refuses every identifier as,
      Meets (step isItem refuses) (fun _ _ => True) (start identifier) as →
        Throughout (step isItem refuses) (Good isItem every) (start identifier) as := by
  intro hall
  have hrun := hall (fun _ => false) true false (fun _ => none)
    [.appendChild (.child (.control 0)), .appendChild (.child (.control 1)),
      .removeChild (.child (.control 0)), .appendChild (.child (.control 2))] (by decide)
  have hlast := (((hrun.2 _ rfl).2 _ rfl).2 _ rfl).2 _ rfl
  exact absurd (hlast.distinct 1 2 (by decide) (by decide) (by decide)) (by decide)

end Model

end Toolbar

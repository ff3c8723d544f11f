import Tint.Transition
import Mathlib.Logic.Function.Basic
import Mathlib.Data.List.Nodup

/-!
# Menus and their native objects on Windows

A `Menu` is a list of children only.  What shows it is a native object of whoever
it is assigned to: the item itself for `MenuItem.submenu`, the context menu of a
`DropDown`, and a menu or context menu that is made at each assignment for
`Window.menu` and `StatusBar.menu`.  Each assignment adds the native items of the
children by a loop of its own and sets, but for the status bar, the menu's
`parent`, which later calls of `appendChild` add to.

A native item has one logical parent: adding it a second time throws.  The
`parent` that `Window.menu` sets is a panel, which has no `Items`, and
`removeChild` asks for `this.parnet`.

* `menus_mirrored_iff` -- in a run nothing throws and each native object shows the
  menu assigned to it, if and only if all calls meet `Ok`;
* `removed_item_shown` -- an item that is removed from a submenu stays.
-/

namespace MenuMirror

open Transition

/-- Whom a menu is assigned to. -/
inductive Host
  | item (item : Nat)
  | window (window : Nat)
  | dropDown (dropDown : Nat)
  | statusBar (statusBar : Nat)
  deriving DecidableEq

/-- A native object: that of a menu item, the context menu of a drop-down, the
menu that the `n`th assignment made, and the panel of a window. -/
inductive Native
  | item (item : Nat)
  | contextMenu (dropDown : Nat)
  | made (n : Nat)
  | nativeView (window : Nat)
  deriving DecidableEq

/-- A panel has no `Items`. -/
def Native.hasItems : Native → Bool
  | .nativeView _ => false
  | _ => true

/-- Menus and items are numbered.  `children` and `parent` are those of a menu,
`items` is the collection of a native object, `logicalParent` that of the native
object of an item, `assigned` and `native` what a host has, `next` the number of
assignments that made a menu.  `threw` stays set once a call has thrown. -/
structure State where
  children : Nat → List Nat
  parent : Nat → Option Native
  items : Native → List Nat
  logicalParent : Nat → Option Native
  assigned : Host → Option Nat
  native : Host → Option Native
  next : Nat
  threw : Bool

/-- The native object that a host has from the start. -/
def ownNative : Host → Option Native
  | .item i => some (.item i)
  | .dropDown d => some (.contextMenu d)
  | _ => none

/-- No menu has an item. -/
def start : State :=
  { children := fun _ => [], parent := fun _ => none, items := fun _ => [],
    logicalParent := fun _ => none, assigned := fun _ => none, native := ownNative, next := 0,
    threw := false }

/-- What may happen to a menu. -/
inductive Action
  | appendChild (menu item : Nat)
  | removeChild (menu item : Nat)
  | assign (host : Host) (menu : Option Nat)
  deriving DecidableEq

namespace State

/-- The call throws. -/
def throw (s : State) : State := { s with threw := true }

/-- `Items.Add(item.native)`.  An item that has a logical parent, and an item as
its own parent, are refused.  Longer cycles, of a submenu that leads back to the item it is
assigned to, are not built here: no document says what WPF does with one. -/
def add (s : State) (n : Native) (item : Nat) : State :=
  if n.hasItems = true ∧ s.logicalParent item = none ∧ n ≠ .item item then
    { s with
      items := Function.update s.items n (s.items n ++ [item])
      logicalParent := Function.update s.logicalParent item (some n) }
  else s.throw

/-- The loop over the children of a menu, which a throw ends. -/
def addAll (n : Native) : List Nat → State → State
  | [], s => s
  | item :: rest, s => if (s.add n item).threw then s.add n item else addAll n rest (s.add n item)

/-- `Items.Clear()` -/
def clear (s : State) (n : Native) : State :=
  { s with
    items := Function.update s.items n []
    logicalParent := fun item =>
      if s.logicalParent item = some n then none else s.logicalParent item }

/-- Menu_win.js `appendChild` -/
def appendChild (s : State) (menu item : Nat) : State :=
  let s := { s with children := Function.update s.children menu (s.children menu ++ [item]) }
  match s.parent menu with
  | some n => s.add n item
  | none => s

/-- Menu_win.js `removeChild`.  There is no `parnet`. -/
def removeChild (s : State) (menu item : Nat) : State :=
  { s with children := Function.update s.children menu ((s.children menu).erase item) }

/-- `submenu` of MenuItem_win.js -/
def setSubmenu (s : State) (i : Nat) : Option Nat → State
  | some menu =>
    addAll (.item i) (s.children menu)
      { s with
        assigned := Function.update s.assigned (.item i) (some menu)
        parent := Function.update s.parent menu (some (.item i)) }
  -- `null.parent`
  | none => { s with assigned := Function.update s.assigned (.item i) none }.throw

/-- `options` of DropDown_win.js -/
def setOptions (s : State) (d : Nat) : Option Nat → State
  | some menu =>
    addAll (.contextMenu d) (s.children menu)
      ({ s with
        assigned := Function.update s.assigned (.dropDown d) (some menu)
        parent := Function.update s.parent menu (some (.contextMenu d)) }.clear (.contextMenu d))
  | none => { s with assigned := Function.update s.assigned (.dropDown d) none }.throw

/-- `menu` of Window_win.js.  The menu made before loses its place in the window. -/
def setWindowMenu (s : State) (w : Nat) : Option Nat → State
  | some menu =>
    addAll (.made s.next) (s.children menu)
      { s with
        assigned := Function.update s.assigned (.window w) (some menu)
        parent := Function.update s.parent menu (some (.nativeView w))
        native := Function.update s.native (.window w) (some (.made s.next))
        next := s.next + 1 }
  | none =>
    { s with
      assigned := Function.update s.assigned (.window w) none
      native := Function.update s.native (.window w) none }

/-- `menu` of StatusBar_win.js, which throws for what is not a menu. -/
def setStatusMenu (s : State) (b : Nat) : Option Nat → State
  | some menu =>
    addAll (.made s.next) (s.children menu)
      { s with
        assigned := Function.update s.assigned (.statusBar b) (some menu)
        native := Function.update s.native (.statusBar b) (some (.made s.next))
        next := s.next + 1 }
  | none => s.throw

end State

namespace State

/-- The call of an action. -/
def call (s : State) : Action → State
  | .appendChild menu item => s.appendChild menu item
  | .removeChild menu item => s.removeChild menu item
  | .assign (.item i) menu => s.setSubmenu i menu
  | .assign (.dropDown d) menu => s.setOptions d menu
  | .assign (.window w) menu => s.setWindowMenu w menu
  | .assign (.statusBar b) menu => s.setStatusMenu b menu

end State

/-- One call, whatever the call before did. -/
def step (s : State) (a : Action) : Option State := some ({ s with threw := false }.call a)

/-- The native object of a host shows the menu that is assigned to it. -/
def Shows (s : State) (h : Host) : Prop :=
  ∀ menu, s.assigned h = some menu →
    ∃ n, s.native h = some n ∧ s.items n = s.children menu ∧ (s.items n).Nodup

/-- Nothing has thrown, and all hosts show their menus. -/
structure Good (s : State) : Prop where
  quiet : s.threw = false
  shown : ∀ h, Shows s h

/-- The menu is assigned to nobody. -/
def Free (s : State) (menu : Nat) : Prop := ∀ h, s.assigned h ≠ some menu

/-- The children can all be added to `n`, once what it has now is gone if it is
cleared. -/
def Addable (s : State) (n : Native) (cleared : Bool) (children : List Nat) : Prop :=
  children.Nodup ∧ ∀ item ∈ children,
    (s.logicalParent item = none ∨ (cleared = true ∧ s.logicalParent item = some n)) ∧
      n ≠ .item item

/-- The condition on a call.

A child is appended to a menu that has no parent and nobody shows, or whose parent
is just what shows it and nothing else, and the child is nowhere yet.  A child is
removed from a menu that nobody shows.  A menu is assigned whose children are
nowhere else, to an item that has none. -/
def Ok (s : State) : Action → Prop
  | .appendChild menu item =>
    match s.parent menu with
    | none => Free s menu
    | some n =>
      Addable s n false [item] ∧ n.hasItems = true ∧
        ∀ h menu', s.assigned h = some menu' → (menu' = menu ↔ s.native h = some n)
  | .removeChild menu item => item ∈ s.children menu → Free s menu
  | .assign (.item i) menu =>
    ∃ m, menu = some m ∧ s.items (.item i) = [] ∧ Addable s (.item i) false (s.children m)
  | .assign (.dropDown d) menu =>
    ∃ m, menu = some m ∧ Addable s (.contextMenu d) true (s.children m)
  | .assign (.window _) menu =>
    ∀ m, menu = some m → Addable s (.made s.next) false (s.children m)
  | .assign (.statusBar _) menu =>
    ∃ m, menu = some m ∧ Addable s (.made s.next) false (s.children m)

/-! ## What always holds -/

/-- What the native objects and the hosts have to do with each other. -/
structure Inv (s : State) : Prop where
  logical : ∀ n item, item ∈ s.items n ↔ s.logicalParent item = some n
  nodup : ∀ n, (s.items n).Nodup
  own : ∀ h n, ownNative h = some n → s.native h = some n
  injective : ∀ h h' n, s.native h = some n → s.native h' = some n → h = h'
  before : ∀ h n, s.native h = some (.made n) → n < s.next
  fresh : ∀ n, s.next ≤ n → s.items (.made n) = []
  parent : ∀ menu n, s.parent menu ≠ some (.made n)

/-- The invariant holds at the start. -/
theorem inv_start : Inv start where
  logical := fun n item => by simp [start]
  nodup := fun n => List.nodup_nil
  own := fun h n hn => hn
  injective := by
    intro h h' n hn hn'
    cases h <;> cases h' <;> cases hn <;> cases hn' <;> rfl
  before := by
    intro h n hn
    cases h <;> simp [start, ownNative] at hn
  fresh := fun n hn => rfl
  parent := fun menu n hn => by cases hn

theorem good_start : Good start := ⟨rfl, fun h menu hmenu => by cases hmenu⟩

namespace State

/-- What `add` does where it does not throw. -/
def added (s : State) (n : Native) (items : List Nat) : State :=
  { s with
    items := Function.update s.items n (s.items n ++ items)
    logicalParent := fun item => if item ∈ items then some n else s.logicalParent item }

theorem added_nil (s : State) (n : Native) : s.added n [] = s := by
  simp [added]

/-- Items are added one after the other. -/
theorem added_cons (s : State) (n : Native) (item : Nat) (rest : List Nat) :
    (s.added n [item]).added n rest = s.added n (item :: rest) := by
  unfold added
  simp only [Function.update_self, Function.update_idem, List.append_assoc, List.cons_append,
    List.nil_append, List.mem_cons, List.not_mem_nil, or_false]
  congr 1
  funext x
  by_cases hx : x = item
  · simp [hx]
  · simp [hx]

/-- An item without a parent is added. -/
theorem add_eq {s : State} {n : Native} {item : Nat} (hn : n.hasItems = true)
    (hitem : s.logicalParent item = none ∧ n ≠ .item item) : s.add n item = s.added n [item] := by
  unfold add added
  rw [if_pos ⟨hn, hitem⟩]
  congr 1
  funext x
  by_cases hx : x = item
  · simp [hx]
  · simp [hx]

theorem add_refused {s : State} {n : Native} {item : Nat}
    (h : ¬ (n.hasItems = true ∧ s.logicalParent item = none ∧ n ≠ .item item)) :
    s.add n item = s.throw := if_neg h

end State

open State

theorem addable_nil (s : State) (n : Native) : Addable s n false [] :=
  ⟨List.nodup_nil, fun item hitem => by cases hitem⟩

/-- Items can be added if the first one can and then the others. -/
theorem addable_cons {s : State} {n : Native} {item : Nat} {rest : List Nat} :
    Addable s n false (item :: rest) ↔
      (s.logicalParent item = none ∧ n ≠ .item item) ∧ Addable (s.added n [item]) n false rest := by
  unfold Addable
  simp only [List.nodup_cons, List.forall_mem_cons, Bool.false_eq_true, false_and, or_false,
    added, List.mem_singleton]
  constructor
  · intro ⟨⟨hnot, hnodup⟩, hitem, hrest⟩
    refine ⟨hitem, hnodup, ?_⟩
    intro x hx
    rw [if_neg (fun hsame : x = item => hnot (hsame ▸ hx))]
    exact hrest x hx
  · intro ⟨hitem, hnodup, hrest⟩
    have hnot : ∀ x ∈ rest, x ≠ item := by
      intro x hx hsame
      have hnone := (hrest x hx).1
      rw [if_pos hsame] at hnone
      cases hnone
    refine ⟨⟨fun hmem => hnot item hmem rfl, hnodup⟩, hitem, ?_⟩
    intro x hx
    have hx' := hrest x hx
    rw [if_neg (hnot x hx)] at hx'
    exact hx'

/-- The loop adds all, or throws. -/
theorem addAll_cases {n : Native} (hn : n.hasItems = true) (items : List Nat) (s : State)
    (hquiet : s.threw = false) :
    (Addable s n false items ∧ addAll n items s = s.added n items) ∨
      (¬ Addable s n false items ∧ (addAll n items s).threw = true) := by
  induction items generalizing s with
  | nil => exact .inl ⟨addable_nil s n, (added_nil s n).symm⟩
  | cons item rest ih =>
      by_cases hitem : s.logicalParent item = none ∧ n ≠ .item item
      · have hadd := add_eq hn hitem
        have hrest : addAll n (item :: rest) s = addAll n rest (s.added n [item]) := by
          rw [addAll, hadd, if_neg]
          unfold added
          simp [hquiet]
        rw [hrest, addable_cons, ← added_cons s n item rest]
        obtain ⟨hall, heq⟩ | ⟨hnot, hthrew⟩ := ih (s.added n [item]) hquiet
        · exact .inl ⟨⟨hitem, hall⟩, heq⟩
        · exact .inr ⟨fun h => hnot h.2, hthrew⟩
      · refine .inr ⟨fun h => hitem (addable_cons.mp h).1, ?_⟩
        have hadd : s.add n item = s.throw := add_refused (fun h => hitem h.2)
        rw [addAll, hadd]
        rfl

/-- Of the other fields only the parents count. -/
theorem Inv.other {s : State} (hs : Inv s) (children : Nat → List Nat)
    {parent : Nat → Option Native}
    (hparent : ∀ menu n, parent menu ≠ some (.made n)) (assigned : Host → Option Nat)
    (threw : Bool) :
    Inv { s with children := children, parent := parent, assigned := assigned, threw := threw } :=
  ⟨hs.logical, hs.nodup, hs.own, hs.injective, hs.before, hs.fresh, hparent⟩

/-- No assignment sets a parent that an assignment made. -/
theorem Inv.update_parent {s : State} (hs : Inv s) (menu : Nat) {n : Native}
    (hn : ∀ k, n ≠ .made k) :
    ∀ menu' k, Function.update s.parent menu (some n) menu' ≠ some (.made k) := by
  intro menu' k
  rw [Function.update_apply]
  split
  · rw [Ne, Option.some.injEq]
    exact hn k
  · exact hs.parent menu' k

theorem inv_throw {s : State} (hs : Inv s) : Inv s.throw :=
  hs.other s.children hs.parent s.assigned true

/-- Adding an item keeps it. -/
theorem inv_add {s : State} (hs : Inv s) {n : Native} (hn : ∀ k, n = .made k → k < s.next)
    (item : Nat) : Inv (s.add n item) := by
  by_cases hitem : n.hasItems = true ∧ s.logicalParent item = none ∧ n ≠ .item item
  case neg =>
    rw [add_refused hitem]
    exact inv_throw hs
  rw [add_eq hitem.1 hitem.2]
  refine ⟨?_, ?_, hs.own, hs.injective, hs.before, ?_, hs.parent⟩
  · intro n' x
    unfold added
    have hx := hs.logical n' x
    by_cases hn' : n' = n
    · subst hn'
      simp only [Function.update_self, List.mem_append, List.mem_singleton, hx]
      by_cases hsame : x = item
      · simp [hsame]
      · simp [hsame]
    · simp only [Function.update_of_ne hn', List.mem_singleton, hx]
      by_cases hsame : x = item
      · simp [hsame, hitem.2.1, Ne.symm hn']
      · simp [hsame]
  · intro n'
    unfold added
    by_cases hn' : n' = n
    · subst hn'
      simp only [Function.update_self]
      rw [List.nodup_append]
      refine ⟨hs.nodup n', List.nodup_singleton item, ?_⟩
      intro x hx y hy hsame
      have hparent := (hs.logical n' x).mp hx
      rw [hsame, List.mem_singleton.mp hy, hitem.2.1] at hparent
      cases hparent
    · simp only [Function.update_of_ne hn']
      exact hs.nodup n'
  · intro k hk
    unfold added
    have hne : Native.made k ≠ n := by
      intro hsame
      have hlt := hn k hsame.symm
      exact absurd hk (Nat.not_le.mpr hlt)
    simp only [Function.update_of_ne hne]
    exact hs.fresh k hk

/-- So does the loop. -/
theorem inv_addAll (items : List Nat) {s : State} (hs : Inv s) {n : Native}
    (hn : ∀ k, n = .made k → k < s.next) : Inv (addAll n items s) := by
  induction items generalizing s with
  | nil => exact hs
  | cons item rest ih =>
      have hadd := inv_add hs hn item
      rw [addAll]
      split
      · exact hadd
      · refine ih hadd ?_
        have hnext : (s.add n item).next = s.next := by
          unfold add
          split
          · rfl
          · rfl
        rw [hnext]
        exact hn

/-- And so does `Clear`. -/
theorem inv_clear {s : State} (hs : Inv s) (n : Native) : Inv (s.clear n) := by
  refine ⟨?_, ?_, hs.own, hs.injective, hs.before, ?_, hs.parent⟩
  · intro n' x
    unfold clear
    have hx := hs.logical n' x
    by_cases hn' : n' = n
    · subst hn'
      simp
    · simp only [Function.update_of_ne hn', hx]
      by_cases hsame : s.logicalParent x = some n
      · simp [hsame, Ne.symm hn']
      · simp [hsame]
  · intro n'
    unfold clear
    by_cases hn' : n' = n
    · subst hn'
      simp
    · simp only [Function.update_of_ne hn']
      exact hs.nodup n'
  · intro k hk
    unfold clear
    by_cases hne : Native.made k = n
    · simp [hne]
    · simp only [Function.update_of_ne hne]
      exact hs.fresh k hk

/-! ## The condition is exact -/

/-- A menu was assigned to `h`, and its children are added to the native object:
all is well if and only if that was empty and they can be added. -/
theorem good_addAll {s : State} (hs : Inv s) (hquiet : s.threw = false) {h : Host} {n : Native}
    {menu : Nat} (hn : n.hasItems = true) (hnative : s.native h = some n)
    (hassigned : s.assigned h = some menu) (hothers : ∀ h', h' ≠ h → Shows s h') :
    Good (addAll n (s.children menu) s) ↔
      s.items n = [] ∧ Addable s n false (s.children menu) := by
  obtain ⟨hall, heq⟩ | ⟨hnot, hthrew⟩ := addAll_cases hn (s.children menu) s hquiet
  case inr =>
    constructor
    · intro hgood
      have hthrown := hgood.quiet
      rw [hthrew] at hthrown
      cases hthrown
    · intro hok
      exact absurd hok.2 hnot
  rw [heq]
  constructor
  · intro hgood
    obtain ⟨n', hn', hitems, -⟩ := hgood.shown h menu hassigned
    obtain rfl : n = n' := Option.some.inj (hnative.symm.trans hn')
    simp only [added, Function.update_self] at hitems
    exact ⟨List.append_left_eq_self.mp hitems, hall⟩
  · intro hok
    refine ⟨hquiet, ?_⟩
    intro h' menu' hmenu'
    by_cases hsame : h' = h
    · subst hsame
      obtain rfl : menu = menu' := Option.some.inj (hassigned.symm.trans hmenu')
      refine ⟨n, hnative, ?_⟩
      simp only [added, Function.update_self, hok.1, List.nil_append]
      exact ⟨trivial, hall.1⟩
    · obtain ⟨n', hn', hitems, hnodup⟩ := hothers h' hsame menu' hmenu'
      have hne : n' ≠ n := by
        intro hsame'
        exact hsame (hs.injective h' h n (hsame' ▸ hn') hnative)
      refine ⟨n', hn', ?_⟩
      simp only [added, Function.update_of_ne hne]
      exact ⟨hitems, hnodup⟩

/-- Hosts show what they have shown. -/
theorem Shows.congr {s s' : State} {h : Host} (hshows : Shows s h)
    (hassigned : s'.assigned h = s.assigned h) (hnative : s'.native h = s.native h)
    (hitems : ∀ n, s.native h = some n → s'.items n = s.items n)
    (hchildren : s'.children = s.children) : Shows s' h := by
  intro menu hmenu
  rw [hassigned] at hmenu
  obtain ⟨n, hn, hsame, hnodup⟩ := hshows menu hmenu
  refine ⟨n, hnative.trans hn, ?_⟩
  rw [hitems n hn, hchildren]
  exact ⟨hsame, hnodup⟩

/-- `submenu` -/
theorem good_setSubmenu {s : State} (hs : Inv s) (hgood : Good s) (i : Nat) (menu : Option Nat) :
    Good (s.setSubmenu i menu) ↔ Ok s (.assign (.item i) menu) := by
  cases menu with
  | none =>
      refine ⟨fun hgood' => ?_, fun ⟨_, hnone, _⟩ => (by cases hnone)⟩
      have hthrown := hgood'.quiet
      cases hthrown
  | some menu =>
      let s' : State := { s with
        assigned := Function.update s.assigned (.item i) (some menu)
        parent := Function.update s.parent menu (some (.item i)) }
      have hs' : Inv s' :=
        hs.other s.children (hs.update_parent menu (by simp)) s'.assigned s.threw
      have hothers : ∀ h', h' ≠ .item i → Shows s' h' := fun h' hne =>
        (hgood.shown h').congr (Function.update_of_ne hne _ _) rfl (fun _ _ => rfl) rfl
      refine (good_addAll hs' hgood.quiet rfl (hs.own (.item i) _ rfl) (Function.update_self _ _ _)
        hothers).trans ?_
      constructor
      · intro ⟨hempty, haddable⟩
        exact ⟨menu, rfl, hempty, haddable⟩
      · intro ⟨m, hm, hempty, haddable⟩
        obtain rfl := Option.some.inj hm
        exact ⟨hempty, haddable⟩

/-- `options` -/
theorem good_setOptions {s : State} (hs : Inv s) (hgood : Good s) (d : Nat) (menu : Option Nat) :
    Good (s.setOptions d menu) ↔ Ok s (.assign (.dropDown d) menu) := by
  cases menu with
  | none =>
      refine ⟨fun hgood' => ?_, fun ⟨_, hnone, _⟩ => (by cases hnone)⟩
      have hthrown := hgood'.quiet
      cases hthrown
  | some menu =>
      let s' : State := { s with
        assigned := Function.update s.assigned (.dropDown d) (some menu)
        parent := Function.update s.parent menu (some (.contextMenu d)) }
      have hnative : s.native (.dropDown d) = some (.contextMenu d) := hs.own _ _ rfl
      have hs' : Inv s' :=
        hs.other s.children (hs.update_parent menu (by simp)) s'.assigned s.threw
      have hothers : ∀ h', h' ≠ .dropDown d → Shows (s'.clear (.contextMenu d)) h' := by
        intro h' hne
        refine (hgood.shown h').congr (Function.update_of_ne hne _ _) rfl ?_ rfl
        intro n hn
        refine Function.update_of_ne ?_ _ _
        intro hsame
        exact hne (hs.injective h' _ _ (hsame ▸ hn) hnative)
      refine (good_addAll (inv_clear hs' (.contextMenu d)) hgood.quiet rfl hnative
        (Function.update_self _ _ _) hothers).trans ?_
      have haddable : Addable (s'.clear (.contextMenu d)) (.contextMenu d) false
            (s.children menu) ↔ Addable s (.contextMenu d) true (s.children menu) := by
        unfold Addable
        refine and_congr_right fun _ => forall₂_congr fun item _ => and_congr_left fun _ => ?_
        simp only [clear, s', Bool.false_eq_true, false_and, or_false, true_and]
        by_cases hsame : s.logicalParent item = some (.contextMenu d)
        · simp [hsame]
        · simp [hsame]
      constructor
      · intro ⟨_, hall⟩
        exact ⟨menu, rfl, haddable.mp hall⟩
      · intro ⟨m, hm, hall⟩
        obtain rfl := Option.some.inj hm
        exact ⟨Function.update_self _ _ _, haddable.mpr hall⟩

/-- The native object that an assignment makes belongs to nobody else. -/
theorem inv_made {s : State} (hs : Inv s) {h : Host} (hh : ownNative h = none) :
    Inv { s with
      native := Function.update s.native h (some (.made s.next)), next := s.next + 1 } := by
  have hnew : ∀ h', s.native h' ≠ some (.made s.next) := by
    intro h' hnative
    exact Nat.lt_irrefl _ (hs.before h' s.next hnative)
  refine ⟨hs.logical, hs.nodup, ?_, ?_, ?_, ?_, hs.parent⟩
  · intro h' n hn
    have hne : h' ≠ h := by
      intro hsame
      rw [hsame, hh] at hn
      cases hn
    exact (Function.update_of_ne hne _ _).trans (hs.own h' n hn)
  · intro h₁ h₂ n hn₁ hn₂
    simp only [Function.update_apply] at hn₁ hn₂
    split at hn₁
    · split at hn₂
      · simp_all
      · rw [← hn₁] at hn₂
        exact absurd hn₂ (hnew h₂)
    · split at hn₂
      · rw [← hn₂] at hn₁
        exact absurd hn₁ (hnew h₁)
      · exact hs.injective h₁ h₂ n hn₁ hn₂
  · intro h' k hk
    simp only [Function.update_apply] at hk
    split at hk
    · obtain rfl : s.next = k := by simpa using hk
      exact Nat.lt_succ_self _
    · exact Nat.lt_succ_of_lt (hs.before h' k hk)
  · intro k hk
    exact hs.fresh k (Nat.le_of_succ_le hk)

/-- A host may lose the one it has. -/
theorem inv_unmade {s : State} (hs : Inv s) {h : Host} (hh : ownNative h = none) :
    Inv { s with native := Function.update s.native h none } := by
  have hkept : ∀ h' n, Function.update s.native h none h' = some n → s.native h' = some n := by
    intro h' n hn
    rw [Function.update_apply] at hn
    split at hn
    · cases hn
    · exact hn
  refine ⟨hs.logical, hs.nodup, ?_, ?_, ?_, hs.fresh, hs.parent⟩
  · intro h' n hn
    refine (Function.update_of_ne ?_ _ _).trans (hs.own h' n hn)
    intro hsame
    rw [hsame, hh] at hn
    cases hn
  · intro h₁ h₂ n hn₁ hn₂
    exact hs.injective h₁ h₂ n (hkept h₁ n hn₁) (hkept h₂ n hn₂)
  · intro h' k hk
    exact hs.before h' k (hkept h' _ hk)

/-- `menu` of a window -/
theorem good_setWindowMenu {s : State} (hs : Inv s) (hgood : Good s) (w : Nat)
    (menu : Option Nat) :
    Good (s.setWindowMenu w menu) ↔ Ok s (.assign (.window w) menu) := by
  cases menu with
  | none =>
      refine ⟨fun _ m hm => (by cases hm), fun _ => ⟨hgood.quiet, ?_⟩⟩
      intro h
      by_cases hsame : h = .window w
      · subst hsame
        intro menu hmenu
        simp [setWindowMenu] at hmenu
      · exact (hgood.shown h).congr (Function.update_of_ne hsame _ _)
          (Function.update_of_ne hsame _ _) (fun _ _ => rfl) rfl
  | some menu =>
      have hmade := inv_made hs (show ownNative (.window w) = none from rfl)
      let s' : State := { s with
        assigned := Function.update s.assigned (.window w) (some menu)
        parent := Function.update s.parent menu (some (.nativeView w))
        native := Function.update s.native (.window w) (some (.made s.next))
        next := s.next + 1 }
      have hs' : Inv s' :=
        hmade.other s.children (hmade.update_parent menu (by simp)) s'.assigned s.threw
      have hothers : ∀ h', h' ≠ .window w → Shows s' h' := fun h' hne =>
        (hgood.shown h').congr (Function.update_of_ne hne _ _) (Function.update_of_ne hne _ _)
          (fun _ _ => rfl) rfl
      refine (good_addAll hs' hgood.quiet rfl (Function.update_self _ _ _)
        (Function.update_self _ _ _) hothers).trans ?_
      constructor
      · intro ⟨_, haddable⟩ m hm
        obtain rfl := Option.some.inj hm
        exact haddable
      · intro hall
        exact ⟨hs.fresh s.next (Nat.le_refl _), hall menu rfl⟩

/-- `menu` of a status bar -/
theorem good_setStatusMenu {s : State} (hs : Inv s) (hgood : Good s) (b : Nat)
    (menu : Option Nat) :
    Good (s.setStatusMenu b menu) ↔ Ok s (.assign (.statusBar b) menu) := by
  cases menu with
  | none =>
      refine ⟨fun hgood' => ?_, fun ⟨_, hnone, _⟩ => (by cases hnone)⟩
      have hthrown := hgood'.quiet
      cases hthrown
  | some menu =>
      have hmade := inv_made hs (show ownNative (.statusBar b) = none from rfl)
      let s' : State := { s with
        assigned := Function.update s.assigned (.statusBar b) (some menu)
        native := Function.update s.native (.statusBar b) (some (.made s.next))
        next := s.next + 1 }
      have hs' : Inv s' := hmade.other s.children hs.parent s'.assigned s.threw
      have hothers : ∀ h', h' ≠ .statusBar b → Shows s' h' := fun h' hne =>
        (hgood.shown h').congr (Function.update_of_ne hne _ _) (Function.update_of_ne hne _ _)
          (fun _ _ => rfl) rfl
      refine (good_addAll hs' hgood.quiet rfl (Function.update_self _ _ _)
        (Function.update_self _ _ _) hothers).trans ?_
      constructor
      · intro ⟨_, haddable⟩
        exact ⟨menu, rfl, haddable⟩
      · intro ⟨m, hm, haddable⟩
        obtain rfl := Option.some.inj hm
        exact ⟨hs.fresh s.next (Nat.le_refl _), haddable⟩

/-- A list of children that changes beside the native items is seen wherever the menu
is shown. -/
theorem good_relisted_iff {s : State} (hgood : Good s) {menu : Nat} {children : List Nat}
    (hchanges : s.children menu ≠ children) :
    Good { s with children := Function.update s.children menu children } ↔ Free s menu := by
  constructor
  · intro hgood' h hmenu
    obtain ⟨n, hn, hitems, -⟩ := hgood.shown h menu hmenu
    obtain ⟨n', hn', hitems', -⟩ := hgood'.shown h menu hmenu
    obtain rfl : n = n' := Option.some.inj (hn.symm.trans hn')
    exact hchanges ((hitems.symm.trans hitems').trans (Function.update_self _ _ _))
  · intro hfree
    refine ⟨hgood.quiet, ?_⟩
    intro h menu' hmenu'
    obtain ⟨n, hn, hitems, hnodup⟩ := hgood.shown h menu' hmenu'
    have hne : menu' ≠ menu := fun hsame => hfree h (hsame ▸ hmenu')
    exact ⟨n, hn, hitems.trans (Function.update_of_ne hne _ _).symm, hnodup⟩

/-- An item that goes to the end of a list of children and of a native collection is
seen alike, if the hosts that show the menu are those that have the collection. -/
theorem good_added_iff {s : State} (hs : Inv s) (hgood : Good s) {menu item : Nat} {n : Native}
    (hitem : s.logicalParent item = none) :
    Good ({ s with
        children := Function.update s.children menu (s.children menu ++ [item]) }.added n [item]) ↔
      ∀ h menu', s.assigned h = some menu' → (menu' = menu ↔ s.native h = some n) := by
  constructor
  · intro hgood' h menu' hmenu'
    obtain ⟨n', hn', hitems, -⟩ := hgood.shown h menu' hmenu'
    obtain ⟨n'', hn'', hitems', -⟩ := hgood'.shown h menu' hmenu'
    obtain rfl : n' = n'' := Option.some.inj (hn'.symm.trans hn'')
    rw [hn', Option.some.injEq]
    -- the collection and the list grow both or neither
    constructor
    · intro hsame
      by_contra hne
      simp only [added, hsame, Function.update_of_ne hne, Function.update_self] at hitems'
      rw [hsame] at hitems
      rw [hitems] at hitems'
      simp at hitems'
    · intro hsame
      by_contra hne
      simp only [added, hsame, Function.update_self, Function.update_of_ne hne] at hitems'
      rw [hsame] at hitems
      rw [← hitems] at hitems'
      simp at hitems'
  · intro hhosts
    refine ⟨hgood.quiet, ?_⟩
    intro h menu' hmenu'
    obtain ⟨n', hn', hitems, hnodup⟩ := hgood.shown h menu' hmenu'
    have hiff := hhosts h menu' hmenu'
    rw [hn', Option.some.injEq] at hiff
    refine ⟨n', hn', ?_⟩
    by_cases hsame : n' = n
    · have hmenu := hiff.mpr hsame
      have hnot : item ∉ s.items n := by
        intro hmem
        have hlogical := (hs.logical n item).mp hmem
        rw [hitem] at hlogical
        cases hlogical
      subst hsame hmenu
      simp only [added, Function.update_self, hitems, true_and]
      rw [← hitems]
      exact List.nodup_append.mpr ⟨hnodup, List.nodup_singleton item, by
        intro x hx y hy hxy
        rw [hxy, List.mem_singleton.mp hy] at hx
        exact hnot hx⟩
    · have hmenu : menu' ≠ menu := fun h' => hsame (hiff.mp h')
      simp only [added, Function.update_of_ne hsame, Function.update_of_ne hmenu]
      exact ⟨hitems, hnodup⟩

/-- `removeChild` -/
theorem good_removeChild {s : State} (hgood : Good s) (menu item : Nat) :
    Good (s.removeChild menu item) ↔ Ok s (.removeChild menu item) := by
  by_cases hmem : item ∈ s.children menu
  · have hshorter : s.children menu ≠ (s.children menu).erase item := by
      intro hsame
      have hlen := congrArg List.length hsame
      rw [List.length_erase_of_mem hmem] at hlen
      have hpos := List.length_pos_of_mem hmem
      omega
    exact (good_relisted_iff hgood hshorter).trans ⟨fun hfree _ => hfree, fun hok => hok hmem⟩
  · have hsame : s.removeChild menu item = s := by
      unfold removeChild
      rw [List.erase_of_not_mem hmem, Function.update_eq_self]
    rw [hsame]
    exact iff_of_true hgood fun h => absurd h hmem

/-- `appendChild` -/
theorem good_appendChild {s : State} (hs : Inv s) (hgood : Good s) (menu item : Nat) :
    Good (s.appendChild menu item) ↔ Ok s (.appendChild menu item) := by
  let s' : State :=
    { s with children := Function.update s.children menu (s.children menu ++ [item]) }
  cases hparent : s.parent menu with
  | none =>
      have happend : s.appendChild menu item = s' := by
        simp only [appendChild, hparent, s']
      have hok : Ok s (.appendChild menu item) ↔ Free s menu := by
        simp only [Ok, hparent]
      have hlonger : s.children menu ≠ s.children menu ++ [item] := by simp
      rw [happend, hok]
      exact good_relisted_iff hgood hlonger
  | some n =>
      have happend : s.appendChild menu item = s'.add n item := by
        simp only [appendChild, hparent, s']
      have hok : Ok s (.appendChild menu item) ↔
          Addable s n false [item] ∧ n.hasItems = true ∧
            ∀ h menu', s.assigned h = some menu' → (menu' = menu ↔ s.native h = some n) := by
        simp only [Ok, hparent]
      rw [happend, hok]
      by_cases hadd : n.hasItems = true ∧ s.logicalParent item = none ∧ n ≠ .item item
      case neg =>
        constructor
        · intro hgood'
          have hrefused : s'.add n item = s'.throw := add_refused hadd
          rw [hrefused] at hgood'
          have hthrown := hgood'.quiet
          cases hthrown
        · intro ⟨haddable, hitems, _⟩
          exact absurd ⟨hitems, (addable_cons.mp haddable).1⟩ hadd
      have haddable : Addable s n false [item] := addable_cons.mpr ⟨hadd.2, addable_nil _ n⟩
      have hadded : s'.add n item = s'.added n [item] := add_eq hadd.1 hadd.2
      rw [hadded]
      refine (good_added_iff hs hgood hadd.2.1).trans ⟨?_, ?_⟩
      · intro hhosts
        exact ⟨haddable, hadd.1, hhosts⟩
      · intro ⟨_, _, hhosts⟩
        exact hhosts

/-- Each call keeps what always holds. -/
theorem inv_call {s : State} (hs : Inv s) (a : Action) : Inv (s.call a) := by
  cases a with
  | appendChild menu item =>
      have hs' := hs.other (Function.update s.children menu (s.children menu ++ [item])) hs.parent
        s.assigned s.threw
      simp only [call, appendChild]
      split
      · rename_i n hn
        refine inv_add hs' ?_ item
        intro k hk
        exact absurd (hk ▸ hn) (hs.parent menu k)
      · exact hs'
  | removeChild menu item => exact hs.other _ hs.parent s.assigned s.threw
  | assign h menu =>
      cases h with
      | item i =>
          cases menu with
          | none => exact hs.other s.children hs.parent _ true
          | some menu =>
              refine inv_addAll _
                (hs.other s.children (hs.update_parent menu (by simp)) _ s.threw) ?_
              intro k hk
              cases hk
      | dropDown d =>
          cases menu with
          | none => exact hs.other s.children hs.parent _ true
          | some menu =>
              refine inv_addAll _ (inv_clear
                (hs.other s.children (hs.update_parent menu (by simp)) _ s.threw) _) ?_
              intro k hk
              cases hk
      | window w =>
          cases menu with
          | none => exact (inv_unmade hs rfl).other s.children hs.parent _ s.threw
          | some menu =>
              have hmade := inv_made hs (show ownNative (.window w) = none from rfl)
              refine inv_addAll _
                (hmade.other s.children (hmade.update_parent menu (by simp)) _ s.threw) ?_
              intro k hk
              cases hk
              exact Nat.lt_succ_self _
      | statusBar b =>
          cases menu with
          | none => exact inv_throw hs
          | some menu =>
              have hmade := inv_made hs (show ownNative (.statusBar b) = none from rfl)
              refine inv_addAll _ (hmade.other s.children hs.parent _ s.threw) ?_
              intro k hk
              cases hk
              exact Nat.lt_succ_self _

/-- A call goes well if and only if it meets the condition. -/
theorem good_call {s : State} (hs : Inv s) (hgood : Good s) (a : Action) :
    Good (s.call a) ↔ Ok s a := by
  cases a with
  | appendChild menu item => exact good_appendChild hs hgood menu item
  | removeChild menu item => exact good_removeChild hgood menu item
  | assign h menu =>
      cases h with
      | item i => exact good_setSubmenu hs hgood i menu
      | dropDown d => exact good_setOptions hs hgood d menu
      | window w => exact good_setWindowMenu hs hgood w menu
      | statusBar b => exact good_setStatusMenu hs hgood b menu

theorem inv_step (s : State) (a : Action) (s' : State) (hs : Inv s) (h : step s a = some s') :
    Inv s' := by
  rw [← Option.some.inj h]
  exact inv_call (hs.other s.children hs.parent s.assigned false) a

/-- A step keeps the state good exactly if it is in order. -/
theorem good_step (s : State) (a : Action) (s' : State) (hs : Inv s) (hgood : Good s)
    (h : step s a = some s') : Good s' ↔ Ok s a := by
  have hquiet : { s with threw := false } = s := by
    rw [← hgood.quiet]
  rw [← Option.some.inj h, hquiet]
  exact good_call hs hgood a

/-- **In a run no call throws, and the native object of each host shows the menu
that is assigned to it, if and only if** all calls meet the condition. -/
theorem menus_mirrored_iff (es : List Action) :
    Throughout step Good start es ↔ Meets step Ok start es :=
  throughout_iff_meets inv_step good_step inv_start good_start
    (meets_of_total (fun _ _ => rfl) start es)

/-- **An item that is removed stays.**  The item 0 of the menu 0, which is the
submenu of the item 1. -/
theorem removed_item_shown : ¬ ∀ es, Throughout step Good start es := by
  intro hall
  have hrun := hall [.appendChild 0 0, .assign (.item 1) (some 0), .removeChild 0 0]
  obtain ⟨n, hn, hitems, -⟩ := (((hrun.2 _ rfl).2 _ rfl).2 _ rfl).shown (.item 1) 0 rfl
  obtain rfl : Native.item 1 = n := Option.some.inj hn
  exact absurd hitems (by decide)

end MenuMirror

import Tint.Transition
import Mathlib.Data.List.Nodup
import Mathlib.Logic.Function.Basic

/-!
# The dock of a window on Windows

The content of a native window is a `DockPanel`.  Its last child is the native view, which
fills it.  The setter of `menu` makes a native menu of the items of the menu and inserts it as
the first child, that of `toolbar` inserts the native toolbar before the view; set to null, each
removes what it remembers.

* `dock_iff` -- the children of the dock are the native menu, the native toolbar and the view
  all along a run exactly when no menu or toolbar is set in place of another one, none with
  items that have been in a menu already, and no toolbar that is in another window;
* `replaced_menu_stays` -- a menu that is set in place of another one comes to stand beside it.
-/

namespace WindowDock

open Transition

/-- A menu, and the native items of its `children`. -/
structure Menu where
  id : Nat
  children : List Nat
  deriving DecidableEq

/-- A child of the dock: the native menu that was made so many assignments after the first, a
native toolbar, or `nativeView`. -/
inductive Element
  | menu (n : Nat)
  | toolbar (id : Nat)
  | view
  deriving DecidableEq

/-- `private` of a window, its dock, and the native menus and items.  `owned` says which items
have a logical parent. -/
structure State where
  menu : Option Menu
  menuNative : Option Nat
  toolbar : Option Nat
  /-- `native.Content.Children` -/
  children : List Element
  items : Nat → List Nat
  owned : Nat → Bool
  created : Nat

/-- A call returns or throws; either way it leaves a state. -/
structure Outcome where
  state : State
  error : Option String

/-- A window that has just been constructed, when some items are in menus already. -/
def start (owned : Nat → Bool) : State :=
  ⟨none, none, none, [.view], fun _ => [], owned, 0⟩

/-- What may be assigned. -/
inductive Action
  | menu (e : Option Menu)
  | toolbar (e : Option Nat) (frame : Bool)

section Model

/-- `menuNative.Items.Add(e.children[i].native)`, one after the other: an item that has a
logical parent is refused. -/
def addItems (menuNative : Nat) : List Nat → State → Outcome
  | [], s => ⟨s, none⟩
  | item :: rest, s =>
      if s.owned item then ⟨s, some "Element already has a logical parent."⟩
      else
        addItems menuNative rest
          { s with
            items := Function.update s.items menuNative (s.items menuNative ++ [item])
            owned := Function.update s.owned item true }

/-- `private.menu` is set, and `private.menuNative` to a new native menu. -/
def State.withMenu (s : State) (e : Menu) : State :=
  { s with menu := some e, menuNative := some s.created, created := s.created + 1 }

/-- `menu` -/
def setMenu (s : State) : Option Menu → Outcome
  | some e =>
      let added := addItems s.created e.children (s.withMenu e)
      match added.error with
      | some _ => added
      | none =>
          ⟨{ added.state with
              children := added.state.children.insertIdx 0 (.menu s.created) }, none⟩
  | none =>
      match s.menu with
      | some _ =>
          ⟨{ s with
              children := match s.menuNative with
                | some menuNative => s.children.erase (.menu menuNative)
                | none => s.children
              menuNative := none
              menu := none }, none⟩
      | none => ⟨s, none⟩

-- the toolbars that are in other windows
variable (placed : Nat → Bool)

/-- `toolbar`.  A native toolbar that is a child already is refused. -/
def setToolbar (s : State) (e : Option Nat) (frame : Bool) : Outcome :=
  match e, frame with
  | some e, true =>
      let s := { s with toolbar := some e }
      if .toolbar e ∈ s.children ∨ placed e = true then
        ⟨s, some "Specified element is already the logical child of another element."⟩
      else
        ⟨{ s with children := s.children.insertIdx (s.children.length - 1) (.toolbar e) }, none⟩
  | _, _ =>
      match s.toolbar with
      | some toolbar =>
          ⟨{ s with children := s.children.erase (.toolbar toolbar), toolbar := none }, none⟩
      | none => ⟨s, none⟩

/-- An assignment. -/
def call (s : State) : Action → Outcome
  | .menu e => setMenu s e
  | .toolbar e frame => setToolbar placed s e frame

/-- One assignment, whether or not it throws. -/
def step (s : State) (a : Action) : Option State := some (call placed s a).state

/-! ## The property and the condition -/

/-- What should be in the dock. -/
def State.expected (s : State) : List Element :=
  (s.menuNative.map Element.menu).toList ++ (s.toolbar.map Element.toolbar).toList ++ [.view]

/-- **The dock.**  Its children are the native menu, the native toolbar and the view; there is
a native menu when a menu is set, and it has the items of that menu. -/
structure Docked (s : State) : Prop where
  children : s.children = s.expected
  native : s.menuNative.isSome = s.menu.isSome
  items : ∀ menu n, s.menu = some menu → s.menuNative = some n → s.items n = menu.children

/-- **The condition.**  A menu is set only while there is none, and none of its items has a
parent or comes twice; a toolbar only while there is none, and not one of another window, or
it is the one that is set. -/
def Fresh (s : State) : Action → Prop
  | .menu (some e) => s.menu = none ∧ e.children.Nodup ∧ ∀ item ∈ e.children, s.owned item = false
  | .toolbar (some e) true => s.toolbar = none ∧ placed e = false ∨ s.toolbar = some e
  | _ => True

end Model

/-! ## Items -/

section Items

variable {s : State}

/-- The loop over the items changes the native menu and the items only. -/
theorem addItems_frame (n : Nat) (items : List Nat) (s : State) :
    (addItems n items s).state.menu = s.menu ∧
      (addItems n items s).state.menuNative = s.menuNative ∧
      (addItems n items s).state.toolbar = s.toolbar ∧
      (addItems n items s).state.children = s.children ∧
      (addItems n items s).state.created = s.created ∧
      ∀ m, m ≠ n → (addItems n items s).state.items m = s.items m := by
  induction items generalizing s with
  | nil => exact ⟨rfl, rfl, rfl, rfl, rfl, fun _ _ => rfl⟩
  | cons item rest ih =>
      rw [addItems]
      split
      · exact ⟨rfl, rfl, rfl, rfl, rfl, fun _ _ => rfl⟩
      · obtain ⟨hmenu, hnative, htoolbar, hchildren, hcreated, hitems⟩ := ih
          { s with
            items := Function.update s.items n (s.items n ++ [item])
            owned := Function.update s.owned item true }
        refine ⟨hmenu, hnative, htoolbar, hchildren, hcreated, fun m hm => ?_⟩
        rw [hitems m hm]
        exact Function.update_of_ne hm _ _

/-- It comes to its end when all items are new, and then it has added them. -/
theorem addItems_iff (n : Nat) (items : List Nat) (s : State) :
    ((addItems n items s).error = none ↔ items.Nodup ∧ ∀ item ∈ items, s.owned item = false) ∧
      ((addItems n items s).error = none →
        (addItems n items s).state.items n = s.items n ++ items) := by
  induction items generalizing s with
  | nil => simp [addItems]
  | cons item rest ih =>
      rw [addItems]
      by_cases howned : s.owned item = true
      · rw [if_pos howned]
        refine ⟨iff_of_false (by simp) fun hnew => ?_, by simp⟩
        have hfree := hnew.2 item List.mem_cons_self
        rw [howned] at hfree
        cases hfree
      · rw [if_neg howned]
        obtain ⟨hends, hadded⟩ := ih
          { s with
            items := Function.update s.items n (s.items n ++ [item])
            owned := Function.update s.owned item true }
        have hsplit : (rest.Nodup ∧ ∀ other ∈ rest,
            Function.update s.owned item true other = false) ↔
            (item :: rest).Nodup ∧ ∀ other ∈ item :: rest, s.owned other = false := by
          simp only [List.nodup_cons, List.forall_mem_cons]
          constructor
          · intro h
            obtain ⟨hnodup, hrest⟩ := h
            have hne : item ∉ rest := fun hmem => by simpa using hrest item hmem
            refine ⟨⟨hne, hnodup⟩, by simpa using howned, fun other hother => ?_⟩
            have hother' : other ≠ item := fun heq => hne (heq ▸ hother)
            have hfree := hrest other hother
            rwa [Function.update_of_ne hother'] at hfree
          · intro h
            obtain ⟨⟨hne, hnodup⟩, -, hrest⟩ := h
            refine ⟨hnodup, fun other hother => ?_⟩
            have hother' : other ≠ item := fun heq => hne (heq ▸ hother)
            rw [Function.update_of_ne hother']
            exact hrest other hother
        refine ⟨hends.trans hsplit, fun hnone => ?_⟩
        rw [hadded hnone]
        simp

end Items

/-! ## One assignment -/

section Assignments

variable {placed : Nat → Bool} {s : State}

/-- What holds along with `Docked`: native menus are numbered, those to come have no items, and
the toolbar of this window is in no other one. -/
structure Kept (placed : Nat → Bool) (s : State) : Prop where
  numbered : ∀ n, s.menuNative = some n → n < s.created
  empty : ∀ n, s.created ≤ n → s.items n = []
  here : ∀ toolbar, s.toolbar = some toolbar → placed toolbar = false

theorem mem_expected_toolbar (s : State) (e : Nat) :
    .toolbar e ∈ s.expected ↔ s.toolbar = some e := by
  unfold State.expected
  cases s.menuNative <;> cases s.toolbar <;> simp [eq_comm]

theorem mem_expected_menu (s : State) (n : Nat) :
    .menu n ∈ s.expected ↔ s.menuNative = some n := by
  unfold State.expected
  cases s.menuNative <;> cases s.toolbar <;> simp [eq_comm]

/-- Inserting before the view. -/
theorem insertIdx_before_view (front : List Element) (e : Element) :
    (front ++ [Element.view]).insertIdx ((front ++ [Element.view]).length - 1) e =
      front ++ [e, .view] := by
  have hlength : (front ++ [Element.view]).length - 1 = front.length := by
    rw [List.length_append, List.length_singleton, Nat.add_sub_cancel]
  rw [hlength]
  induction front with
  | nil => rfl
  | cons first front ih =>
      rw [List.cons_append, List.length_cons, List.insertIdx_succ_cons, ih, List.cons_append]
      simp

/-- A menu that is set to null goes. -/
theorem removeMenu_docked (h : Docked s) (hkept : Kept placed s) :
    Docked (setMenu s none).state ∧ Kept placed (setMenu s none).state := by
  cases hmenu : s.menu with
  | none =>
      have hsame : setMenu s none = ⟨s, none⟩ := by simp only [setMenu, hmenu]
      rw [hsame]
      exact ⟨h, hkept⟩
  | some menu =>
      obtain ⟨n, hn⟩ : ∃ n, s.menuNative = some n :=
        Option.isSome_iff_exists.mp (by rw [h.native, hmenu]; rfl)
      have hremoved : setMenu s none = ⟨{ s with
          children := s.children.erase (.menu n), menuNative := none, menu := none }, none⟩ := by
        simp only [setMenu, hmenu, hn]
      rw [hremoved]
      have hdock : s.children.erase (.menu n) =
          (s.toolbar.map Element.toolbar).toList ++ [.view] := by
        rw [h.children, State.expected, hn]
        exact List.erase_cons_head _ _
      exact ⟨⟨hdock, rfl, fun menu m hnone _ => (by cases hnone)⟩,
        ⟨fun m hnone => (by cases hnone), hkept.empty, hkept.here⟩⟩

theorem Docked.menuNative_none (h : Docked s) : s.menuNative = none ↔ s.menu = none := by
  rw [← Option.not_isSome_iff_eq_none, ← Option.not_isSome_iff_eq_none, h.native]

/-- Where all items are added, the new native menu comes first in the dock. -/
theorem setMenu_added {e : Menu}
    (herror : (addItems s.created e.children (s.withMenu e)).error = none) :
    setMenu s (some e) = ⟨{ (addItems s.created e.children (s.withMenu e)).state with
      children := .menu s.created :: s.children }, none⟩ := by
  obtain ⟨-, -, -, hchildren, -, -⟩ := addItems_frame s.created e.children (s.withMenu e)
  simp only [setMenu, herror, hchildren, List.insertIdx_zero]
  rfl

/-- Where all items are added, the invariant is kept. -/
theorem setMenu_kept (hkept : Kept placed s) {e : Menu}
    (herror : (addItems s.created e.children (s.withMenu e)).error = none) :
    Kept placed (setMenu s (some e)).state := by
  obtain ⟨-, hnative, htoolbar, -, hcreated, hitems⟩ :=
    addItems_frame s.created e.children (s.withMenu e)
  rw [setMenu_added herror]
  refine ⟨fun n hn => ?_, fun n hn => ?_, fun toolbar ht => ?_⟩
  · have hself : some s.created = some n := hnative.symm.trans hn
    rw [← Option.some.inj hself]
    exact hcreated ▸ Nat.lt_succ_self _
  · have hle : s.created + 1 ≤ n := le_of_eq_of_le hcreated.symm hn
    exact (hitems n (by omega)).trans (hkept.empty n (by omega))
  · exact hkept.here toolbar (htoolbar.symm.trans ht)

/-- The dock has one native menu only. -/
theorem setMenu_docked_added_iff (h : Docked s) (hkept : Kept placed s) {e : Menu}
    (herror : (addItems s.created e.children (s.withMenu e)).error = none) :
    Docked (setMenu s (some e)).state ↔ s.menu = none := by
  obtain ⟨hmenu, hnative, htoolbar, -, -, -⟩ :=
    addItems_frame s.created e.children (s.withMenu e)
  rw [setMenu_added herror, ← h.menuNative_none]
  constructor
  · intro hdocked
    have hdock : Element.menu s.created :: s.children =
        .menu s.created :: ((s.toolbar.map Element.toolbar).toList ++ [.view]) := by
      have hall := hdocked.children
      simp only [State.expected, hnative, htoolbar] at hall
      exact hall
    have hrest := (List.cons.inj hdock).2
    cases hmenuNative : s.menuNative with
    | none => rfl
    | some n =>
        have hlength := congrArg List.length hrest
        rw [h.children, State.expected, hmenuNative] at hlength
        simp at hlength
  · intro hnone
    refine ⟨?_, ?_, fun menu n hm hn => ?_⟩
    · simp only [State.expected, hnative, htoolbar]
      rw [h.children, State.expected, hnone]
      rfl
    · simp only [hnative, hmenu]
      rfl
    · obtain rfl := Option.some.inj (hmenu.symm.trans hm)
      obtain rfl := Option.some.inj (hnative.symm.trans hn)
      have hadded := (addItems_iff s.created e.children (s.withMenu e)).2 herror
      have hempty : (s.withMenu e).items s.created = [] := hkept.empty s.created (Nat.le_refl _)
      exact hadded.trans (by rw [hempty, List.nil_append])

/-- **Setting a menu.** -/
theorem setMenu_docked_iff (h : Docked s) (hkept : Kept placed s) (e : Menu) :
    (Docked (setMenu s (some e)).state ↔ Fresh placed s (.menu (some e))) ∧
      (Fresh placed s (.menu (some e)) → Kept placed (setMenu s (some e)).state) := by
  have hends := (addItems_iff s.created e.children (s.withMenu e)).1
  cases herror : (addItems s.created e.children (s.withMenu e)).error with
  | some error =>
      obtain ⟨-, hnative, -, hchildren, -, -⟩ :=
        addItems_frame s.created e.children (s.withMenu e)
      have hset : setMenu s (some e) = addItems s.created e.children (s.withMenu e) := by
        simp only [setMenu, herror]
      have hunmet : ¬ Fresh placed s (.menu (some e)) := by
        intro hfresh
        rw [hends.mpr hfresh.2] at herror
        cases herror
      -- the new native menu is in no dock yet
      have hnew : .menu s.created ∉ s.children := by
        rw [h.children, mem_expected_menu]
        intro hself
        exact Nat.lt_irrefl _ (hkept.numbered _ hself)
      refine ⟨iff_of_false (fun hdocked => hnew ?_) hunmet, fun hfresh => absurd hfresh hunmet⟩
      rw [hset] at hdocked
      have hin := hdocked.children
      rw [hchildren] at hin
      have hmem : .menu s.created ∈ s.children := by
        have hexpected := (mem_expected_menu _ s.created).mpr hnative
        rwa [← hin] at hexpected
      exact hmem
  | none =>
      refine ⟨?_, fun _ => setMenu_kept hkept herror⟩
      rw [setMenu_docked_added_iff h hkept herror]
      exact ⟨fun hnone => ⟨hnone, hends.mp herror⟩, fun hfresh => hfresh.1⟩

/-- A toolbar that is set to null goes, also where the window has no frame. -/
theorem removeToolbar_docked (e : Option Nat) (frame : Bool) (h : Docked s)
    (hkept : Kept placed s) (hnone : e = none ∨ frame = false) :
    Docked (setToolbar placed s e frame).state ∧
      Kept placed (setToolbar placed s e frame).state := by
  have hcall : setToolbar placed s e frame =
      match s.toolbar with
      | some toolbar =>
          ⟨{ s with children := s.children.erase (.toolbar toolbar), toolbar := none }, none⟩
      | none => ⟨s, none⟩ := by
    rcases hnone with rfl | rfl
    · rfl
    · cases e <;> rfl
  rw [hcall]
  cases htoolbar : s.toolbar with
  | none => exact ⟨h, hkept⟩
  | some toolbar =>
      refine ⟨⟨?_, h.native, h.items⟩, hkept.numbered, hkept.empty, fun t hnone => ?_⟩
      swap
      · cases hnone
      rw [h.children]
      simp only [State.expected, htoolbar]
      cases s.menuNative <;> simp

theorem Docked.toolbar_mem (h : Docked s) (e : Nat) :
    .toolbar e ∈ s.children ↔ s.toolbar = some e := by
  rw [h.children, mem_expected_toolbar]

/-- A toolbar that is refused is set nevertheless. -/
theorem setToolbar_refused_iff (h : Docked s) (hkept : Kept placed s) {e : Nat}
    (hrefused : .toolbar e ∈ s.children ∨ placed e = true) :
    (Docked (setToolbar placed s (some e) true).state ↔ s.toolbar = some e) ∧
      (s.toolbar = some e → Kept placed (setToolbar placed s (some e) true).state) := by
  have hset : (setToolbar placed s (some e) true).state = { s with toolbar := some e } := by
    simp only [setToolbar, if_pos hrefused]
  rw [hset]
  constructor
  · constructor
    · intro hdocked
      have hin := (mem_expected_toolbar { s with toolbar := some e } e).mpr rfl
      rw [← hdocked.children] at hin
      exact (h.toolbar_mem e).mp hin
    · intro hsame
      have hself : { s with toolbar := some e } = s := by rw [← hsame]
      rw [hself]
      exact h
  · intro hsame
    exact ⟨hkept.numbered, hkept.empty, fun t ht => hkept.here t (hsame.trans ht)⟩

/-- Another toolbar is added before the view; the dock has one only. -/
theorem setToolbar_added_iff (h : Docked s) (hkept : Kept placed s) {e : Nat}
    (hnew : .toolbar e ∉ s.children) (hplaced : placed e = false) :
    (Docked (setToolbar placed s (some e) true).state ↔ s.toolbar = none) ∧
      Kept placed (setToolbar placed s (some e) true).state := by
  have hset : (setToolbar placed s (some e) true).state =
      { s with
        toolbar := some e
        children := s.children.insertIdx (s.children.length - 1) (.toolbar e) } := by
    have haccepted : ¬ (.toolbar e ∈ s.children ∨ placed e = true) := by
      rw [hplaced]
      exact fun hrefused => hrefused.elim hnew fun hfalse => by cases hfalse
    simp only [setToolbar, if_neg haccepted]
  have hdock : s.children.insertIdx (s.children.length - 1) (.toolbar e) =
      (s.menuNative.map Element.menu).toList ++ (s.toolbar.map Element.toolbar).toList ++
        [.toolbar e, .view] := by
    rw [h.children, State.expected, insertIdx_before_view]
  rw [hset]
  constructor
  · constructor
    · intro hdocked
      have hlength := congrArg List.length hdocked.children
      rw [hdock] at hlength
      cases htoolbar : s.toolbar with
      | none => rfl
      | some toolbar => simp [State.expected, htoolbar] at hlength
    · intro hnone
      refine ⟨?_, h.native, h.items⟩
      rw [hdock, hnone]
      simp [State.expected]
  · refine ⟨hkept.numbered, hkept.empty, fun t ht => ?_⟩
    obtain rfl := Option.some.inj ht
    exact hplaced

/-- **Setting a toolbar.** -/
theorem setToolbar_docked_iff (h : Docked s) (hkept : Kept placed s) (e : Nat) :
    (Docked (setToolbar placed s (some e) true).state ↔
        Fresh placed s (.toolbar (some e) true)) ∧
      (Fresh placed s (.toolbar (some e) true) →
        Kept placed (setToolbar placed s (some e) true).state) := by
  by_cases hrefused : .toolbar e ∈ s.children ∨ placed e = true
  · have hfresh : Fresh placed s (.toolbar (some e) true) ↔ s.toolbar = some e := by
      constructor
      · intro hfresh
        rcases hfresh with hnone | hsame
        · rcases hrefused with hin | hplaced
          · exact (h.toolbar_mem e).mp hin
          · rw [hnone.2] at hplaced
            cases hplaced
        · exact hsame
      · exact .inr
    rw [hfresh]
    exact setToolbar_refused_iff h hkept hrefused
  · rw [not_or] at hrefused
    have hnotPlaced : placed e = false := by simpa using hrefused.2
    have hfresh : Fresh placed s (.toolbar (some e) true) ↔ s.toolbar = none := by
      constructor
      · intro hfresh
        rcases hfresh with hnone | hsame
        · exact hnone.1
        · exact absurd ((h.toolbar_mem e).mpr hsame) hrefused.1
      · intro hnone
        exact .inl ⟨hnone, hnotPlaced⟩
    obtain ⟨hiff, hkept'⟩ := setToolbar_added_iff h hkept hrefused.1 hnotPlaced
    rw [hfresh]
    exact ⟨hiff, fun _ => hkept'⟩

/-- **One assignment.**  It keeps the dock exactly when it meets the condition. -/
theorem call_docked_iff (h : Docked s) (hkept : Kept placed s) (a : Action) :
    (Docked (call placed s a).state ↔ Fresh placed s a) ∧
      (Fresh placed s a → Kept placed (call placed s a).state) := by
  match a with
  | .menu (some e) => exact setMenu_docked_iff h hkept e
  | .toolbar (some e) true => exact setToolbar_docked_iff h hkept e
  | .menu none =>
      obtain ⟨hdocked, hkept'⟩ := removeMenu_docked h hkept
      exact ⟨iff_of_true hdocked trivial, fun _ => hkept'⟩
  | .toolbar none frame =>
      obtain ⟨hdocked, hkept'⟩ := removeToolbar_docked none frame h hkept (.inl rfl)
      exact ⟨iff_of_true hdocked trivial, fun _ => hkept'⟩
  | .toolbar (some e) false =>
      obtain ⟨hdocked, hkept'⟩ := removeToolbar_docked (some e) false h hkept (.inr rfl)
      exact ⟨iff_of_true hdocked trivial, fun _ => hkept'⟩

/-! ## All assignments -/

theorem start_docked (owned : Nat → Bool) : Docked (start owned) :=
  ⟨rfl, rfl, fun menu n hnone _ => by cases hnone⟩

theorem start_kept (owned : Nat → Bool) : Kept placed (start owned) :=
  ⟨fun n hnone => (by cases hnone), fun _ _ => rfl, fun t hnone => (by cases hnone)⟩

/-- **The dock of a window.**  Along a run its children are what they should be exactly when
all assignments meet the condition. -/
theorem dock_iff (placed owned : Nat → Bool) (actions : List Action) :
    Throughout (step placed) Docked (start owned) actions ↔
      Meets (step placed) (Fresh placed) (start owned) actions := by
  refine throughout_iff_meets_of_kept (J := Kept placed) ?_ ?_ (start_kept owned)
    (start_docked owned) (meets_of_total (fun _ _ => rfl) _ _)
  · intro s a t hkept h ht hstep
    obtain rfl := Option.some.inj hstep
    obtain ⟨hiff, hkeeps⟩ := call_docked_iff h hkept a
    exact hkeeps (hiff.mp ht)
  · intro s a t hkept h hstep
    obtain rfl := Option.some.inj hstep
    exact (call_docked_iff h hkept a).1

/-- A menu set in place of another one stands before it. -/
theorem replaced_menu_stays :
    ¬ ∀ (placed owned : Nat → Bool) (actions : List Action),
      Throughout (step placed) Docked (start owned) actions := by
  intro hall
  have hrun := hall (fun _ => false) (fun _ => false) [.menu (some ⟨0, [0]⟩), .menu (some ⟨1, [1]⟩)]
  obtain ⟨-, hrun⟩ := hrun
  obtain ⟨-, hrun⟩ := hrun _ rfl
  have hchildren := (hrun _ rfl).children
  revert hchildren
  decide

end Assignments

end WindowDock

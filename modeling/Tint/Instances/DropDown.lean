import Tint.Isolation
import Mathlib.Logic.Function.Basic

/-!
# DropDown on Windows

Each constructor of DropDown_win.js defines `pullsdown` anew on `DropDown.prototype`,
over the context menu of the new instance.  `options` moves the native items of a menu into
the instance's context menu, and `Items.Add` throws for an item that is in another one.

Menus are filled before they are given to a drop-down, and are in no menu bar.

* `isolated_iff` -- drop-downs see what they would see alone as long as no action
  changes what `pullsdown` reports beside another, nor the placement of another, and no
  menu or item is shared.
-/

namespace Instances

open Transition Isolation

namespace DropDown

/-- `PlacementMode`, as far as it is used.  A new context menu opens at the mouse. -/
inductive Placement
  | mousePoint
  | bottom
  | center
  deriving DecidableEq

/-- A drop-down: `private.menu`, and `private.contextMenu` with its items, which the
native object has once there are options. -/
structure Drop where
  menu : Option Nat
  items : List Nat
  placement : Placement
  contextMenu : Bool
  deriving DecidableEq

/-- `newest` is the instance over whose context menu `pullsdown` is defined.  `parent` tells
whose context menu is the `parent` of a menu, and `shown` in whose a native item is. -/
structure State where
  newest : Option Nat
  drops : Nat → Option Drop
  parent : Nat → Option Nat
  shown : Nat → Option Nat

inductive Action
  | construct (i : Nat)
  | setPullsdown (i : Nat) (value : Bool)
  | setOptions (i : Nat) (e : Nat)

def new : Drop := ⟨none, [], .mousePoint, false⟩

/-- `value ? truevalue : falsevalue` -/
def place (value : Bool) : Placement := if value then .bottom else .center

/-- The getter of `pullsdown`, of whichever instance. -/
def State.pullsdown (s : State) : Bool :=
  match s.newest.bind s.drops with
  | some d => d.placement = .bottom
  | none => false

/-- `Items.Clear()` -/
def clear (i : Nat) (shown : Nat → Option Nat) : Nat → Option Nat := fun item =>
  if shown item = some i then none else shown item

/-- The loop over the children of a menu: where the items are then, which ones it has
added, and whether it has come to the end.  `Items.Add` throws for an item that has a
parent. -/
def addItems (i : Nat) : List Nat → (Nat → Option Nat) → (Nat → Option Nat) × List Nat × Bool
  | [], shown => (shown, [], true)
  | item :: items, shown =>
    if shown item = none then
      let rest := addItems i items (Function.update shown item (some i))
      (rest.1, item :: rest.2.1, rest.2.2)
    else (shown, [], false)

/-- What becomes of a drop-down that is given a menu, of which some items were added.  The
context menu is used and placed after the loop. -/
def Drop.withOptions (d : Drop) (e : Nat) (added : List Nat × Bool) : Drop :=
  if added.2 then ⟨some e, added.1, .center, true⟩
  else { d with menu := some e, items := added.1 }

/-- One action.  `children` has the items of each menu. -/
def step (children : Nat → List Nat) (s : State) : Action → State
  | .construct i =>
    match s.drops i with
    | some _ => s
    | none => { s with newest := some i, drops := Function.update s.drops i (some new) }
  | .setPullsdown i value =>
    match s.drops i, s.newest with
    | some _, some k =>
      { s with
        drops := Function.update s.drops k
          ((s.drops k).map fun d => { d with placement := place value }) }
    | _, _ => s
  | .setOptions i e =>
    match s.drops i with
    | some d =>
      let loop := addItems i (children e) (clear i s.shown)
      { s with
        drops := Function.update s.drops i (some (d.withOptions e loop.2))
        parent := Function.update s.parent e (some i)
        shown := loop.1 }
    | none => s

def owner : Action → Nat
  | .construct i => i
  | .setPullsdown i _ => i
  | .setOptions i _ => i

/-- `this.options.parent` -/
def State.menuParent (s : State) (i : Nat) : Option Nat :=
  ((s.drops i).bind Drop.menu).bind s.parent

def component (children : Nat → List Nat) :
    Component State Action (Option ((Bool × Option Nat) × Drop)) where
  start := ⟨none, fun _ => none, fun _ => none, fun _ => none⟩
  step := step children
  owner := owner
  view := fun s i => (s.drops i).map (Prod.mk (s.pullsdown, s.menuParent i))

/-- The items up to the first one that the menu has twice are in no other context menu. -/
def Unshown (shown : Nat → Option Nat) (i : Nat) (items : List Nat) : Prop :=
  ∀ before item after, items = before ++ item :: after → (before ++ [item]).Nodup →
    ∀ j, shown item = some j → j = i

/-- What `pullsdown` reports stays as it is while there is another drop-down, and where
it is assigned to one that is not the newest, both are placed so already.  A menu that is
given to a drop-down is not that of another, and its items are not in another.  (The setter
does not come to the placement if the menu has an item twice.) -/
def Ok (children : Nat → List Nat) (s : State) : Action → Prop
  | .construct i => s.drops i ≠ none ∨ ((∃ j, s.drops j ≠ none) → s.pullsdown = false)
  | .setPullsdown i value =>
    s.drops i = none ∨
      (s.newest = some i ∧ ((∃ j, j ≠ i ∧ s.drops j ≠ none) → s.pullsdown = value)) ∨
      (s.newest ≠ some i ∧ (∀ d, s.drops i = some d → d.placement = place value) ∧
        ∀ d, s.newest.bind s.drops = some d → d.placement = place value)
  | .setOptions i e =>
    s.drops i = none ∨
      ((∀ j d, j ≠ i → s.drops j = some d → d.menu ≠ some e) ∧ Unshown s.shown i (children e) ∧
        ((children e).Nodup → s.pullsdown = false ∨
          (s.newest = some i ∧ ∀ j, s.drops j ≠ none → j = i)))

variable {children : Nat → List Nat}

/-- Two states look alike to an instance. -/
theorem view_eq_iff {s t : State} {i : Nat} :
    (component children).view s i = (component children).view t i ↔
      s.drops i = t.drops i ∧
        (s.drops i ≠ none → s.pullsdown = t.pullsdown ∧ s.menuParent i = t.menuParent i) := by
  refine (map_report_iff fun g h d e heq => Prod.mk.inj heq).trans ?_
  simp only [Prod.mk.injEq]

/-! ## The loop -/

/-- The loop moves items to its own context menu only. -/
theorem addItems_shown (i : Nat) (items : List Nat) (shown : Nat → Option Nat) (item : Nat) :
    (addItems i items shown).1 item = shown item ∨ (addItems i items shown).1 item = some i := by
  induction items generalizing shown with
  | nil => exact .inl rfl
  | cons first items ih =>
      unfold addItems
      split
      · rcases ih (Function.update shown first (some i)) with hkept | hmoved
        · by_cases hitem : item = first
          · subst hitem
            exact .inr (hkept.trans (Function.update_self ..))
          · exact .inl (hkept.trans (Function.update_of_ne hitem ..))
        · exact .inr hmoved
      · exact .inl rfl

/-- Where nothing is shown, it comes to the end if no item comes twice. -/
theorem addItems_end_iff (i : Nat) (items : List Nat) (shown : Nat → Option Nat) :
    (addItems i items shown).2.2 = true ↔ items.Nodup ∧ ∀ item ∈ items, shown item = none := by
  induction items generalizing shown with
  | nil => simp [addItems]
  | cons first items ih =>
      unfold addItems
      split
      · rename_i hfirst
        rw [ih, List.nodup_cons]
        constructor
        · intro ⟨hnodup, hrest⟩
          have hnot : first ∉ items := fun hmem => by simpa using hrest first hmem
          refine ⟨⟨hnot, hnodup⟩, fun item hitem => ?_⟩
          rcases List.mem_cons.mp hitem with rfl | hmem
          · exact hfirst
          · exact (Function.update_of_ne (ne_of_mem_of_not_mem hmem hnot) ..).symm.trans
              (hrest item hmem)
        · intro ⟨⟨hnot, hnodup⟩, hnone⟩
          refine ⟨hnodup, fun item hmem => ?_⟩
          rw [Function.update_of_ne (ne_of_mem_of_not_mem hmem hnot)]
          exact hnone item (List.mem_cons_of_mem _ hmem)
      · rename_i hfirst
        exact iff_of_false Bool.false_ne_true fun hboth => hfirst (hboth.2 first List.mem_cons_self)

/-- The items that the loop would add to `alone` are free in `shown`. -/
def Free (shown alone : Nat → Option Nat) (items : List Nat) : Prop :=
  ∀ before item after, items = before ++ item :: after → (before ++ [item]).Nodup →
    (∀ other ∈ before ++ [item], alone other = none) → shown item = none

/-- Behind an item that is free in both. -/
theorem free_cons_iff {shown alone : Nat → Option Nat} {i first : Nat} {items : List Nat}
    (hshown : shown first = none) (halone : alone first = none) :
    Free shown alone (first :: items) ↔
      Free (Function.update shown first (some i)) (Function.update alone first (some i)) items := by
  constructor
  · intro h before item after hsplit hnodup hnone
    have hne : ∀ other ∈ before ++ [item], other ≠ first := by
      rintro other hother rfl
      simpa using hnone other hother
    have hitem := hne item (by simp)
    rw [Function.update_of_ne hitem]
    refine h (first :: before) item after (by rw [hsplit, List.cons_append]) ?_ ?_
    · exact List.nodup_cons.mpr ⟨fun hmem => hne first hmem rfl, hnodup⟩
    · intro other hother
      rcases List.mem_cons.mp hother with rfl | hmem
      · exact halone
      · exact (Function.update_of_ne (hne other hmem) ..).symm.trans (hnone other hmem)
  · intro h before item after hsplit hnodup hnone
    cases before with
    | nil =>
        obtain rfl := (List.cons.inj hsplit).1
        exact hshown
    | cons head before =>
        obtain ⟨rfl, hrest⟩ := List.cons.inj hsplit
        obtain ⟨hnot, hnodup⟩ := List.nodup_cons.mp hnodup
        have hne : ∀ other ∈ before ++ [item], other ≠ first :=
          fun other hmem heq => hnot (heq ▸ hmem)
        have hfree := h before item after hrest hnodup fun other hmem => by
          rw [Function.update_of_ne (hne other hmem)]
          exact hnone other (List.mem_cons_of_mem _ hmem)
        rwa [Function.update_of_ne (hne item (by simp))] at hfree

/-- What is shown in `alone` is shown in `shown`, and stays so. -/
theorem update_ne_none {shown alone : Nat → Option Nat} {i first : Nat}
    (h : ∀ item, shown item = none → alone item = none) (item : Nat)
    (hitem : Function.update shown first (some i) item = none) :
    Function.update alone first (some i) item = none := by
  by_cases heq : item = first
  · subst heq
    rw [Function.update_self] at hitem
    cases hitem
  · rw [Function.update_of_ne heq] at hitem ⊢
    exact h item hitem

/-- The loop does the same in both if what it would add is free. -/
theorem addItems_of_free (i : Nat) (items : List Nat) (shown alone : Nat → Option Nat)
    (h : ∀ item, shown item = none → alone item = none) (hfree : Free shown alone items) :
    (addItems i items shown).2 = (addItems i items alone).2 := by
  induction items generalizing shown alone with
  | nil => rfl
  | cons first items ih =>
      by_cases halone : alone first = none
      · have hshown : shown first = none := by
          refine hfree [] first items rfl (List.pairwise_singleton _ first) fun other hother => ?_
          rw [List.mem_singleton.mp hother]
          exact halone
        have hrest := ih _ _ (update_ne_none h) ((free_cons_iff (i := i) hshown halone).mp hfree)
        simp only [addItems, if_pos hshown, if_pos halone, hrest]
      · have hshown : shown first ≠ none := fun hnone => halone (h first hnone)
        simp only [addItems, if_neg hshown, if_neg halone]

/-- If it adds the same items in both, they were free. -/
theorem free_of_addItems (i : Nat) (items : List Nat) (shown alone : Nat → Option Nat)
    (h : ∀ item, shown item = none → alone item = none)
    (hsame : (addItems i items shown).2.1 = (addItems i items alone).2.1) :
    Free shown alone items := by
  induction items generalizing shown alone with
  | nil =>
      intro before item after hsplit
      simp at hsplit
  | cons first items ih =>
      by_cases halone : alone first = none
      · by_cases hshown : shown first = none
        · simp only [addItems, if_pos hshown, if_pos halone, List.cons.injEq, true_and] at hsame
          exact (free_cons_iff hshown halone).mpr (ih _ _ (update_ne_none h) hsame)
        · simp only [addItems, if_neg hshown, if_pos halone] at hsame
          cases hsame
      · intro before item after hsplit _ hnone
        refine absurd (hnone first ?_) halone
        cases before with
        | nil => simp [(List.cons.inj hsplit).1]
        | cons head before => simp [(List.cons.inj hsplit).1]

/-! ## The steps -/

/-- What `pullsdown` reports is the placement of the newest drop-down. -/
theorem pullsdown_of_newest {s : State} {k : Nat} {d : Drop} (hd : s.drops k = some d)
    (hk : s.newest = some k) : s.pullsdown = decide (d.placement = .bottom) := by
  simp [State.pullsdown, hk, hd]

/-- The drop-down that an update is for. -/
theorem drops_self (newest : Option Nat) (drops : Nat → Option Drop)
    (parent shown : Nat → Option Nat) (k : Nat) (d : Option Drop) :
    (State.mk newest (Function.update drops k d) parent shown).drops k = d :=
  Function.update_self ..

/-- The other drop-downs. -/
theorem drops_of_ne {newest : Option Nat} {drops : Nat → Option Drop}
    {parent shown : Nat → Option Nat} {j k : Nat} (h : j ≠ k) (d : Option Drop) :
    (State.mk newest (Function.update drops k d) parent shown).drops j = drops j :=
  Function.update_of_ne h ..

/-- Assigning to `pullsdown` makes it report the value. -/
theorem place_bottom (value : Bool) : decide (place value = .bottom) = value := by
  cases value <;> rfl

@[simp] theorem withOptions_menu (d : Drop) (e : Nat) (added : List Nat × Bool) :
    (d.withOptions e added).menu = some e := by
  unfold Drop.withOptions
  split
  · rfl
  · rfl

@[simp] theorem withOptions_items (d : Drop) (e : Nat) (added : List Nat × Bool) :
    (d.withOptions e added).items = added.1 := by
  unfold Drop.withOptions
  split
  · rfl
  · rfl

/-- Where each drop-down has the menu that it had, and the menu its parent. -/
theorem menuParent_congr {s t : State} {j : Nat}
    (hmenu : (s.drops j).bind Drop.menu = (t.drops j).bind Drop.menu)
    (hparent : s.parent = t.parent) : s.menuParent j = t.menuParent j := by
  rw [State.menuParent, State.menuParent, hmenu, hparent]

section

variable {s : State} {i k : Nat} {d e : Drop}

variable (children) in
/-- The first construction. -/
theorem step_construct (hi : s.drops i = none) : step children s (.construct i) =
    { s with newest := some i, drops := Function.update s.drops i (some new) } := by
  simp only [step, hi]

/-- An assignment to `pullsdown` of a drop-down that is there. -/
theorem step_setPullsdown (value : Bool) (hi : s.drops i = some e) (hk : s.newest = some k)
    (hd : s.drops k = some d) : step children s (.setPullsdown i value) =
      { s with
        drops := Function.update s.drops k (some { d with placement := place value }) } := by
  simp only [step, hi, hk, hd, Option.map_some]

/-- An assignment to its `options`. -/
theorem step_setOptions (m : Nat) (hi : s.drops i = some d) : step children s (.setOptions i m) =
    { s with
      drops := Function.update s.drops i
        (some (d.withOptions m (addItems i (children m) (clear i s.shown)).2))
      parent := Function.update s.parent m (some i)
      shown := (addItems i (children m) (clear i s.shown)).1 } := by
  simp only [step, hi]

variable (children) in
/-- An assignment to `pullsdown` places the newest drop-down, and no other. -/
theorem setPullsdown_effect (value : Bool) (hi : s.drops i = some e) (hk : s.newest = some k)
    (hd : s.drops k = some d) : (step children s (.setPullsdown i value)).pullsdown = value ∧
      (step children s (.setPullsdown i value)).drops k =
        some { d with placement := place value } ∧
      (∀ j, j ≠ k → (step children s (.setPullsdown i value)).drops j = s.drops j) ∧
      ∀ j, (step children s (.setPullsdown i value)).menuParent j = s.menuParent j := by
  rw [step_setPullsdown value hi hk hd]
  refine ⟨?_, drops_self .., fun j hj => drops_of_ne hj .., fun j => menuParent_congr ?_ rfl⟩
  · exact (pullsdown_of_newest (drops_self ..) hk).trans (place_bottom value)
  · by_cases hj : j = k
    · rw [hj, drops_self, hd]
      rfl
    · rw [drops_of_ne hj]

variable (children) in
/-- New options are for the drop-down that they are given to, but take their menu away from
another that has it. -/
theorem setOptions_effect (m : Nat) (hi : s.drops i = some d) :
    (step children s (.setOptions i m)).newest = s.newest ∧
      (step children s (.setOptions i m)).drops i =
        some (d.withOptions m (addItems i (children m) (clear i s.shown)).2) ∧
      (∀ j, j ≠ i → (step children s (.setOptions i m)).drops j = s.drops j) ∧
      (step children s (.setOptions i m)).menuParent i = some i ∧
      ∀ j, j ≠ i → (step children s (.setOptions i m)).menuParent j =
        if (s.drops j).bind Drop.menu = some m then some i else s.menuParent j := by
  rw [step_setOptions m hi]
  refine ⟨rfl, drops_self .., fun j hj => drops_of_ne hj .., ?_, fun j hj => ?_⟩
  · rw [State.menuParent, drops_self, Option.bind_some, withOptions_menu, Option.bind_some]
    exact Function.update_self ..
  · rw [State.menuParent, drops_of_ne hj]
    cases hmenu : (s.drops j).bind Drop.menu with
    | none => simp [State.menuParent, hmenu]
    | some n =>
        rw [Option.bind_some, State.menuParent, hmenu, Option.bind_some]
        by_cases hn : n = m
        · subst hn
          rw [if_pos rfl]
          exact Function.update_self ..
        · rw [if_neg fun heq => hn (Option.some.inj heq)]
          exact Function.update_of_ne hn ..

variable (children) in
/-- They place the drop-down if the setter comes that far. -/
theorem setOptions_pullsdown (m : Nat) (hi : s.drops i = some d) (hk : s.newest = some k)
    (he : s.drops k = some e) : (step children s (.setOptions i m)).pullsdown =
      if k = i ∧ (addItems i (children m) (clear i s.shown)).2.2 = true then false
      else s.pullsdown := by
  obtain ⟨hstay, hown, hother, -, -⟩ := setOptions_effect children m hi
  rw [pullsdown_of_newest he hk]
  by_cases hki : k = i
  · subst hki
    obtain rfl : d = e := Option.some.inj (hi.symm.trans he)
    rw [pullsdown_of_newest hown (hstay.trans hk), Drop.withOptions]
    by_cases hend : (addItems k (children m) (clear k s.shown)).2.2 = true
    · simp [hend]
    · simp [hend]
  · rw [if_neg fun hboth => hki hboth.1]
    exact pullsdown_of_newest ((hother k hki).trans he) (hstay.trans hk)

/-- Nothing is done with a drop-down that is not there. -/
theorem step_of_none {a : Action} (hi : s.drops (owner a) = none)
    (ha : a ≠ .construct (owner a)) : step children s a = s := by
  cases a with
  | construct i => exact absurd rfl ha
  | setPullsdown i value =>
      have hnone : s.drops i = none := hi
      simp only [step, hnone]
  | setOptions i m =>
      have hnone : s.drops i = none := hi
      simp only [step, hnone]

/-- The newest drop-down stays, and stays there. -/
theorem newest_step (a : Action)
    (h : ∀ j, s.drops j ≠ none → ∃ k d, s.newest = some k ∧ s.drops k = some d) :
    ∀ j, (step children s a).drops j ≠ none →
      ∃ k d, (step children s a).newest = some k ∧ (step children s a).drops k = some d := by
  cases a with
  | construct i =>
      cases hi : s.drops i with
      | some e =>
          simp only [step, hi]
          exact h
      | none =>
          intro j _
          rw [step_construct children hi]
          exact ⟨i, new, rfl, Function.update_self ..⟩
  | setPullsdown i value =>
      cases hi : s.drops i with
      | none =>
          simp only [step, hi]
          exact h
      | some e =>
          obtain ⟨k, d, hk, hd⟩ := h i (by rw [hi]; exact Option.some_ne_none e)
          intro j _
          rw [step_setPullsdown value hi hk hd]
          exact ⟨k, _, hk, Function.update_self ..⟩
  | setOptions i m =>
      cases hi : s.drops i with
      | none =>
          simp only [step, hi]
          exact h
      | some e =>
          obtain ⟨k, d, hk, hd⟩ := h i (by rw [hi]; exact Option.some_ne_none e)
          intro j _
          rw [step_setOptions m hi]
          by_cases hki : k = i
          · subst hki
            exact ⟨k, _, hk, Function.update_self ..⟩
          · exact ⟨k, d, hk, (Function.update_of_ne hki ..).trans hd⟩

/-- What is so of an instance in a run of its own: it is the newest, and its menu and all
items that are shown have it for their parent. -/
structure Alone (i : Nat) (s : State) : Prop where
  newest : s.drops i ≠ none → s.newest = some i
  menus : ∀ d m, s.drops i = some d → d.menu = some m → s.parent m = some i
  items : ∀ item, s.shown item = none ∨ s.shown item = some i

/-- Its own actions keep it so. -/
theorem alone_step (a : Action) (h : Alone (owner a) s) : Alone (owner a) (step children s a) := by
  cases hi : s.drops (owner a) with
  | none =>
      by_cases ha : a = .construct (owner a)
      · rw [ha, step_construct children hi]
        refine ⟨fun _ => rfl, fun d m hd hm => ?_, h.items⟩
        obtain rfl : new = d := Option.some.inj ((drops_self ..).symm.trans hd)
        cases hm
      · rw [step_of_none hi ha]
        exact h
  | some e =>
      have hnewest := h.newest (by rw [hi]; exact Option.some_ne_none e)
      cases a with
      | construct i =>
          have hsome : s.drops i = some e := hi
          simp only [step, hsome]
          exact h
      | setPullsdown i value =>
          have hsome : s.drops i = some e := hi
          rw [step_setPullsdown value hsome hnewest hsome]
          refine ⟨fun _ => hnewest, fun d m hd hm => ?_, h.items⟩
          obtain rfl := Option.some.inj ((drops_self ..).symm.trans hd)
          exact h.menus e m hi hm
      | setOptions i m =>
          have hsome : s.drops i = some e := hi
          rw [step_setOptions m hsome]
          refine ⟨fun _ => hnewest, fun d n hd hn => ?_, fun item => ?_⟩
          · obtain rfl := Option.some.inj ((drops_self ..).symm.trans hd)
            rw [withOptions_menu] at hn
            obtain rfl := Option.some.inj hn
            exact Function.update_self ..
          · rcases addItems_shown i (children m) (clear i s.shown) item with hkept | hmoved
            · have hnone : clear i s.shown item = none := by
                unfold clear
                rcases h.items item with hnone | hown
                · simp [hnone]
                · exact if_pos hown
              exact .inl (hkept.trans hnone)
            · exact .inr hmoved

end

/-- The newest drop-down is there, and each is alone in its own run. -/
structure Sound (p : Pair State) : Prop where
  common : ∀ j, p.common.drops j ≠ none → ∃ k d, p.common.newest = some k ∧
    p.common.drops k = some d
  alone : ∀ j, Alone j (p.alone j)

/-- **Step lemma.**  Every step keeps this. -/
theorem sound_step (p : Pair State) (a : Action) (h : Sound p) :
    Sound (Pair.step (component children) p a) := by
  refine ⟨newest_step a h.common, ?_⟩
  exact Pair.alone_step (c := component children) (A := Alone)
    (fun _ hs => alone_step a hs) h.alone

/-- What is known of the drop-downs while they agree: each is the same in both runs, and
its placement is what `pullsdown` reports. -/
theorem own_placement {p : Pair State} (hsound : Sound p)
    (h : Pair.Agrees (component children) p) {j : Nat} {d : Drop}
    (hd : p.common.drops j = some d) : (p.alone j).drops j = some d ∧
      (p.alone j).newest = some j ∧ p.common.pullsdown = decide (d.placement = .bottom) := by
  obtain ⟨hdrops, hshared⟩ := view_eq_iff.mp (h j)
  have hne : p.common.drops j ≠ none := by
    rw [hd]
    exact Option.some_ne_none d
  have halone : (p.alone j).drops j = some d := hdrops ▸ hd
  have hnewest := (hsound.alone j).newest (by rw [halone]; exact Option.some_ne_none d)
  exact ⟨halone, hnewest, (hshared hne).1.trans (pullsdown_of_newest halone hnewest)⟩

/-- The parent of a drop-down's menu is its own context menu. -/
theorem own_menuParent {p : Pair State} (hsound : Sound p)
    (h : Pair.Agrees (component children) p) {j m : Nat}
    (hm : (p.common.drops j).bind Drop.menu = some m) : p.common.menuParent j = some j := by
  obtain ⟨d, hd, hmenu⟩ := Option.bind_eq_some_iff.mp hm
  obtain ⟨hdrops, hshared⟩ := view_eq_iff.mp (h j)
  have halone : (p.alone j).drops j = some d := hdrops ▸ hd
  rw [(hshared (by rw [hd]; exact Option.some_ne_none d)).2, State.menuParent, halone,
    Option.bind_some, hmenu, Option.bind_some]
  exact (hsound.alone j).menus d m halone hmenu

/-- A drop-down that does not act sees the same as before exactly when it is the same, and
`pullsdown` and the parent of its menu are. -/
theorem others_iff {p : Pair State} (h : Pair.Agrees (component children) p) (s : State)
    (j : Nat) : (component children).view s j = (component children).view (p.alone j) j ↔
      s.drops j = p.common.drops j ∧ (s.drops j ≠ none →
        s.pullsdown = p.common.pullsdown ∧ s.menuParent j = p.common.menuParent j) := by
  rw [← h j]
  exact view_eq_iff

/-- Nothing is seen of an assignment to a drop-down that is not there. -/
theorem agrees_of_none {p : Pair State} (h : Pair.Agrees (component children) p) {a : Action}
    (hi : p.common.drops (owner a) = none) (ha : a ≠ .construct (owner a)) :
    Pair.Agrees (component children) (Pair.step (component children) p a) := by
  have hi' : (p.alone (owner a)).drops (owner a) = none :=
    (view_eq_iff.mp (h (owner a))).1 ▸ hi
  exact agrees_of_still h (step_of_none hi ha) (step_of_none hi' ha)

/-- A construction is seen alike exactly if `pullsdown` reports false beside others. -/
theorem construct_iff {p : Pair State} (h : Pair.Agrees (component children) p) (i : Nat) :
    Pair.Agrees (component children) (Pair.step (component children) p (.construct i)) ↔
      Ok children p.common (.construct i) := by
  obtain ⟨hi, -⟩ := view_eq_iff.mp (h i)
  cases hd : p.common.drops i with
  | some d =>
      have hd' : (p.alone i).drops i = some d := hi ▸ hd
      have hcommon : step children p.common (.construct i) = p.common := by simp only [step, hd]
      have halone : step children (p.alone i) (.construct i) = p.alone i := by
        simp only [step, hd']
      have hne : p.common.drops i ≠ none := by
        rw [hd]
        exact Option.some_ne_none d
      exact iff_of_true (agrees_of_still h hcommon halone) (Or.inl hne)
  | none =>
      rw [agrees_step]
      change (component children).view (step children p.common (.construct i)) i =
          (component children).view (step children (p.alone i) (.construct i)) i ∧
        (∀ j, j ≠ i → (component children).view (step children p.common (.construct i)) j =
          (component children).view (p.alone j) j) ↔ _
      have hd' : (p.alone i).drops i = none := hi ▸ hd
      have hcommon := step_construct children hd
      have halone := step_construct children hd'
      have hpulls : (step children p.common (.construct i)).pullsdown = false := by
        rw [hcommon]
        exact pullsdown_of_newest (drops_self ..) rfl
      have hpulls' : (step children (p.alone i) (.construct i)).pullsdown = false := by
        rw [halone]
        exact pullsdown_of_newest (drops_self ..) rfl
      have hmenu : (step children p.common (.construct i)).menuParent i = none := by
        rw [hcommon, State.menuParent, drops_self]
        rfl
      have hmenu' : (step children (p.alone i) (.construct i)).menuParent i = none := by
        rw [halone, State.menuParent, drops_self]
        rfl
      have hother : ∀ j, j ≠ i →
          (step children p.common (.construct i)).drops j = p.common.drops j := by
        intro j hj
        rw [hcommon]
        exact drops_of_ne hj ..
      constructor
      · intro ⟨_, hothers⟩
        right
        intro ⟨j, hj⟩
        have hji : j ≠ i := by
          rintro rfl
          exact hj hd
        have hsees := ((others_iff h _ j).mp (hothers j hji)).2
        rw [hother j hji, hpulls] at hsees
        exact (hsees hj).1.symm
      · intro hok
        have hfalse := hok.resolve_left (fun hne => hne hd)
        refine ⟨view_eq_iff.mpr ⟨?_, fun _ => ⟨hpulls.trans hpulls'.symm,
          hmenu.trans hmenu'.symm⟩⟩, ?_⟩
        · rw [hcommon, halone]
          exact (drops_self ..).trans (drops_self ..).symm
        · intro j hj
          refine (others_iff h _ j).mpr ⟨hother j hj, ?_⟩
          intro hne
          rw [hother j hj] at hne
          refine ⟨hpulls.trans (hfalse ⟨j, hne⟩).symm, menuParent_congr ?_ ?_⟩
          · rw [hother j hj]
          · rw [hcommon]

/-- The items of an own context menu are free, and so are those that are in none. -/
theorem clear_eq_none_iff {shown : Nat → Option Nat} {i item : Nat} :
    clear i shown item = none ↔ ∀ j, shown item = some j → j = i := by
  unfold clear
  cases hitem : shown item with
  | none => simp
  | some j => simp

/-- Alone all items are free for the loop. -/
theorem clear_alone {p : Pair State} (hsound : Sound p) (i item : Nat) :
    clear i (p.alone i).shown item = none := by
  rw [clear_eq_none_iff]
  intro j hj
  rcases (hsound.alone i).items item with hfree | hown
  · rw [hfree] at hj
    cases hj
  · exact (Option.some.inj (hown.symm.trans hj)).symm

/-- What it adds alone is free in the common run exactly if it is in no other context menu. -/
theorem free_iff {p : Pair State} (hsound : Sound p) (i : Nat) (items : List Nat) :
    Free (clear i p.common.shown) (clear i (p.alone i).shown) items ↔
      Unshown p.common.shown i items := by
  constructor
  · intro h before item after hsplit hnodup
    exact clear_eq_none_iff.mp
      (h before item after hsplit hnodup fun other _ => clear_alone hsound i other)
  · intro h before item after hsplit hnodup _
    exact clear_eq_none_iff.mpr (h before item after hsplit hnodup)

/-- Then it does the same in both runs. -/
theorem addItems_of_unshown {p : Pair State} (hsound : Sound p) {i : Nat} {items : List Nat}
    (h : Unshown p.common.shown i items) : (addItems i items (clear i p.common.shown)).2 =
      (addItems i items (clear i (p.alone i).shown)).2 :=
  addItems_of_free i items _ _ (fun item _ => clear_alone hsound i item)
    ((free_iff hsound i items).mpr h)

/-- And only then the drop-down is the same. -/
theorem drop_iff {p : Pair State} (hsound : Sound p) (i m : Nat) (d : Drop) :
    some (d.withOptions m (addItems i (children m) (clear i p.common.shown)).2) =
        some (d.withOptions m (addItems i (children m) (clear i (p.alone i).shown)).2) ↔
      Unshown p.common.shown i (children m) := by
  constructor
  · intro hsame
    have hitems := congrArg Drop.items (Option.some.inj hsame)
    rw [withOptions_items, withOptions_items] at hitems
    exact (free_iff hsound i (children m)).mp
      (free_of_addItems i (children m) _ _ (fun item _ => clear_alone hsound i item) hitems)
  · intro h
    rw [addItems_of_unshown hsound h]

/-- Alone the setter comes to the placement if the menu has no item twice. -/
theorem end_alone_iff {p : Pair State} (hsound : Sound p) (i m : Nat) :
    (addItems i (children m) (clear i (p.alone i).shown)).2.2 = true ↔ (children m).Nodup := by
  rw [addItems_end_iff, and_iff_left fun item _ => clear_alone hsound i item]

/-- What `pullsdown` reports stays alike exactly if it reports false already, there is no
other drop-down, or the setter does not come to the placement. -/
theorem pullsdown_iff {p : Pair State} {i k m : Nat} {pullsdown pullsdown' : Bool}
    (hk : p.common.newest = some k)
    (hcommon : pullsdown = if k = i ∧ (children m).Nodup then false else p.common.pullsdown)
    (halone : pullsdown' = if (children m).Nodup then false else p.common.pullsdown) :
    (pullsdown = pullsdown' ∧
        ∀ j, j ≠ i → p.common.drops j ≠ none → pullsdown = p.common.pullsdown) ↔
      ((children m).Nodup → p.common.pullsdown = false ∨
        (p.common.newest = some i ∧ ∀ j, p.common.drops j ≠ none → j = i)) := by
  by_cases hnodup : (children m).Nodup
  · rw [if_pos hnodup] at halone
    rw [forall_prop_of_true hnodup, halone]
    by_cases hki : k = i
    · subst hki
      rw [if_pos ⟨rfl, hnodup⟩] at hcommon
      rw [hcommon]
      constructor
      · intro ⟨_, hothers⟩
        cases hold : p.common.pullsdown with
        | false => exact .inl rfl
        | true =>
            refine .inr ⟨hk, fun j hj => ?_⟩
            by_contra hjk
            exact Bool.false_ne_true ((hothers j hjk hj).trans hold)
      · rintro (hfalse | ⟨-, honly⟩)
        · exact ⟨rfl, fun _ _ _ => hfalse.symm⟩
        · exact ⟨rfl, fun j hji hj => absurd (honly j hj) hji⟩
    · rw [if_neg fun hboth => hki hboth.1] at hcommon
      rw [hcommon]
      constructor
      · exact fun h => .inl h.1
      · rintro (hfalse | ⟨hki', -⟩)
        · exact ⟨hfalse, fun _ _ _ => rfl⟩
        · exact absurd (Option.some.inj (hk.symm.trans hki')) hki
  · rw [if_neg fun hboth => hnodup hboth.2] at hcommon
    rw [if_neg hnodup] at halone
    refine iff_of_true ⟨hcommon.trans halone.symm, fun _ _ _ => hcommon⟩ fun h => absurd h hnodup

/-- New options are seen alike exactly if they meet the condition. -/
theorem setOptions_iff {p : Pair State} (hsound : Sound p)
    (h : Pair.Agrees (component children) p) (i m : Nat) :
    Pair.Agrees (component children) (Pair.step (component children) p (.setOptions i m)) ↔
      Ok children p.common (.setOptions i m) := by
  cases hd : p.common.drops i with
  | none => exact iff_of_true (agrees_of_none h hd Action.noConfusion) (Or.inl hd)
  | some d =>
      rw [agrees_step]
      change (component children).view (step children p.common (.setOptions i m)) i =
          (component children).view (step children (p.alone i) (.setOptions i m)) i ∧
        (∀ j, j ≠ i → (component children).view (step children p.common (.setOptions i m)) j =
          (component children).view (p.alone j) j) ↔ _
      obtain ⟨hd', hnewest, hpulls⟩ := own_placement hsound h hd
      have hne : p.common.drops i ≠ none := by
        rw [hd]
        exact Option.some_ne_none d
      obtain ⟨k, e, hk, he⟩ := hsound.common i hne
      obtain ⟨-, hown, hother, hparent, hparents⟩ :=
        setOptions_effect children m hd
      obtain ⟨-, hown', -, hparent', -⟩ := setOptions_effect children m hd'
      have hcommon := setOptions_pullsdown children m hd hk he
      have halone := setOptions_pullsdown children m hd' hnewest hd'
      have hsamePulls : (p.alone i).pullsdown = p.common.pullsdown :=
        (pullsdown_of_newest hd' hnewest).trans hpulls.symm
      have hsome : (step children p.common (.setOptions i m)).drops i ≠ none := by
        rw [hown]
        exact Option.some_ne_none _
      -- what the others see of the menu
      have hmenus : (∀ j d, j ≠ i → p.common.drops j = some d → d.menu ≠ some m) ↔
          ∀ j, j ≠ i → p.common.drops j ≠ none →
            (step children p.common (.setOptions i m)).menuParent j = p.common.menuParent j := by
        constructor
        · intro hfree j hj hjne
          obtain ⟨d', hd''⟩ := Option.ne_none_iff_exists'.mp hjne
          rw [hparents j hj, hd'', Option.bind_some, if_neg (hfree j d' hj hd'')]
        · intro hsame j d' hj hd'' hmenu
          have hhas : (p.common.drops j).bind Drop.menu = some m := by
            rw [hd'', Option.bind_some, hmenu]
          have hparents' := hsame j hj (by rw [hd'']; exact Option.some_ne_none d')
          rw [hparents j hj, if_pos hhas, own_menuParent hsound h hhas] at hparents'
          exact hj (Option.some.inj hparents').symm
      have hviews : ((component children).view (step children p.common (.setOptions i m)) i =
            (component children).view (step children (p.alone i) (.setOptions i m)) i ∧
          ∀ j, j ≠ i → (component children).view (step children p.common (.setOptions i m)) j =
            (component children).view (p.alone j) j) ↔
          Unshown p.common.shown i (children m) ∧
            (∀ j d, j ≠ i → p.common.drops j = some d → d.menu ≠ some m) ∧
            ((step children p.common (.setOptions i m)).pullsdown =
                (step children (p.alone i) (.setOptions i m)).pullsdown ∧
              ∀ j, j ≠ i → p.common.drops j ≠ none →
                (step children p.common (.setOptions i m)).pullsdown = p.common.pullsdown) := by
        rw [view_eq_iff, hmenus]
        rw [forall_prop_of_true hsome, hown, hown', drop_iff hsound, hparent, hparent']
        constructor
        · intro ⟨⟨hunshown, hsame, _⟩, hothers⟩
          refine ⟨hunshown, fun j hj hjne => ?_, hsame, fun j hj hjne => ?_⟩
          · rw [← hother j hj] at hjne
            exact (((others_iff h _ j).mp (hothers j hj)).2 hjne).2
          · rw [← hother j hj] at hjne
            exact (((others_iff h _ j).mp (hothers j hj)).2 hjne).1
        · intro ⟨hunshown, hfree, hsame, hpullsdown⟩
          refine ⟨⟨hunshown, hsame, rfl⟩, fun j hj => ?_⟩
          refine (others_iff h _ j).mpr ⟨hother j hj, fun hjne => ?_⟩
          rw [hother j hj] at hjne
          exact ⟨hpullsdown j hj hjne, hfree j hj hjne⟩
      simp only [end_alone_iff hsound, hsamePulls, true_and] at halone
      have hcommon' (hunshown : Unshown p.common.shown i (children m)) :
          (step children p.common (.setOptions i m)).pullsdown =
            if k = i ∧ (children m).Nodup then false else p.common.pullsdown := by
        simpa only [addItems_of_unshown hsound hunshown, end_alone_iff hsound] using hcommon
      rw [hviews]
      have hnot : ¬ p.common.drops i = none := hne
      simp only [Ok, hnot, false_or]
      constructor
      · intro ⟨hunshown, hfree, hpullsdown⟩
        exact ⟨hfree, hunshown, (pullsdown_iff hk (hcommon' hunshown) halone).mp hpullsdown⟩
      · intro ⟨hfree, hunshown, hpullsdown⟩
        exact ⟨hunshown, hfree, (pullsdown_iff hk (hcommon' hunshown) halone).mpr hpullsdown⟩

/-- A drop-down stays as it is if it is placed so already. -/
theorem placed_iff {d : Drop} {value : Bool} :
    some { d with placement := place value } = some d ↔ d.placement = place value := by
  constructor
  · intro h
    exact (congrArg Drop.placement (Option.some.inj h)).symm
  · intro h
    rw [← h]

/-- An assignment to `pullsdown` is seen alike exactly if it meets the condition. -/
theorem setPullsdown_iff {p : Pair State} (hsound : Sound p)
    (h : Pair.Agrees (component children) p) (i : Nat) (value : Bool) :
    Pair.Agrees (component children) (Pair.step (component children) p (.setPullsdown i value)) ↔
      Ok children p.common (.setPullsdown i value) := by
  cases hd : p.common.drops i with
  | none => exact iff_of_true (agrees_of_none h hd Action.noConfusion) (Or.inl hd)
  | some d =>
      rw [agrees_step]
      change (component children).view (step children p.common (.setPullsdown i value)) i =
          (component children).view (step children (p.alone i) (.setPullsdown i value)) i ∧
        (∀ j, j ≠ i → (component children).view (step children p.common (.setPullsdown i value)) j =
          (component children).view (p.alone j) j) ↔ _
      obtain ⟨hd', hnewest, -⟩ := own_placement hsound h hd
      have hne : p.common.drops i ≠ none := by
        rw [hd]
        exact Option.some_ne_none d
      obtain ⟨k, e, hk, he⟩ := hsound.common i hne
      have hpulls := (own_placement hsound h he).2.2
      obtain ⟨hnew, hkdrop, hother, hmenus⟩ :=
        setPullsdown_effect children value hd hk he
      obtain ⟨hnew', hown, -, hmenus'⟩ :=
        setPullsdown_effect children value hd' hnewest hd'
      have hmenu : (step children p.common (.setPullsdown i value)).menuParent i =
          (step children (p.alone i) (.setPullsdown i value)).menuParent i := by
        rw [hmenus, hmenus']
        exact ((view_eq_iff.mp (h i)).2 hne).2
      by_cases hki : k = i
      · subst hki
        obtain rfl : d = e := Option.some.inj (hd.symm.trans he)
        constructor
        · intro ⟨_, hothers⟩
          refine Or.inr (Or.inl ⟨hk, ?_⟩)
          intro ⟨j, hjk, hj⟩
          have hsees := ((others_iff h _ j).mp (hothers j hjk)).2
          rw [hother j hjk, hnew] at hsees
          exact (hsees hj).1.symm
        · intro hok
          refine
            ⟨view_eq_iff.mpr ⟨hkdrop.trans hown.symm, fun _ => ⟨hnew.trans hnew'.symm, hmenu⟩⟩, ?_⟩
          intro j hj
          refine (others_iff h _ j).mpr ⟨hother j hj, ?_⟩
          intro hjne
          rw [hother j hj] at hjne
          rcases hok.resolve_left hne with ⟨-, hsame⟩ | ⟨hnot, -⟩
          · exact ⟨hnew.trans (hsame ⟨j, hj, hjne⟩).symm, hmenus j⟩
          · exact absurd hk hnot
      · have hik : i ≠ k := fun hik => hki hik.symm
        constructor
        · intro ⟨hself, hothers⟩
          refine Or.inr (Or.inr ⟨?_, ?_, ?_⟩)
          · rw [hk]
            exact fun heq => hki (Option.some.inj heq)
          · intro d' hdrop
            obtain rfl : d = d' := Option.some.inj (hd.symm.trans hdrop)
            have hsees := (view_eq_iff.mp hself).1
            rw [hother i hik, hd, hown] at hsees
            exact placed_iff.mp hsees.symm
          · intro e' hdrop
            rw [hk, Option.bind_some] at hdrop
            obtain rfl : e = e' := Option.some.inj (he.symm.trans hdrop)
            have hsees := ((others_iff h _ k).mp (hothers k hki)).1
            rw [hkdrop, he] at hsees
            exact placed_iff.mp hsees
        · intro hok
          obtain ⟨hplaced, hplaced'⟩ : d.placement = place value ∧ e.placement = place value := by
            rcases hok.resolve_left hne with ⟨hki', -⟩ | ⟨-, hplaced, hplaced'⟩
            · exact absurd (Option.some.inj (hk.symm.trans hki')) hki
            · refine ⟨hplaced d hd, hplaced' e ?_⟩
              rw [hk, Option.bind_some]
              exact he
          have hsame : p.common.pullsdown = value := by
            rw [hpulls, hplaced']
            exact place_bottom value
          refine ⟨view_eq_iff.mpr ⟨?_, fun _ => ⟨hnew.trans hnew'.symm, hmenu⟩⟩, ?_⟩
          · rw [hother i hik, hd, hown]
            exact (placed_iff.mpr hplaced).symm
          · intro j hj
            refine (others_iff h _ j).mpr ⟨?_, fun _ => ⟨hnew.trans hsame.symm, hmenus j⟩⟩
            by_cases hjk : j = k
            · subst hjk
              rw [hkdrop, he]
              exact placed_iff.mpr hplaced'
            · exact hother j hjk

/-- Drop-downs see what they would see alone exactly as long as no assignment changes
what `pullsdown` reports beside another, nor the placement of another, and no menu or item
is shared. -/
theorem isolated_iff (children : Nat → List Nat) (as : List Action) :
    Isolated (component children) as ↔
      Meets (component children).next (Ok children) (component children).start as := by
  have hstep : ∀ (p : Pair State) (a : Action), Sound p → Pair.Agrees (component children) p →
      (Pair.Agrees (component children) (Pair.step (component children) p a) ↔
        Ok children p.common a) := by
    intro p a hsound h
    cases a with
    | construct i => exact construct_iff h i
    | setPullsdown i value => exact setPullsdown_iff hsound h i value
    | setOptions i m => exact setOptions_iff hsound h i m
  have hstart : Sound (Pair.start (component children)) :=
    ⟨fun _ hne => absurd rfl hne,
      fun _ => ⟨fun hne => absurd rfl hne, nofun, fun _ => .inl rfl⟩⟩
  exact isolated_iff_meets (fun p a h _ _ => sound_step p a h) hstep hstart as

end DropDown

end Instances

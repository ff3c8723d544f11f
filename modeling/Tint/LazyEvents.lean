import Tint.Transition
import Mathlib.Data.List.Count
import Mathlib.Data.List.Nodup
import Mathlib.Logic.Function.Basic

/-!
# Attaching native events when they are first wanted

A control attaches the handler of a native event to its native view only when a
listener asks for one of the JavaScript events that the handler fires.  For that
`lazyLoadEventListener` listens to two private events that `addEventListener` and
`removeEventListener` fire before they change the list of listeners.

The listener for additions attaches the handler every time, the listener for
removals is handed to `removeEventListener` where `addEventListener` is meant, and
the native `removeEventListener` of the bridge does nothing.

* `attached_once_iff` -- all along a sequence of calls each handler is attached
  once while a listener is registered for one of its events, and not otherwise,
  if and only if no listener is added to a group that has one and none is removed
  that is the last of its group;
* `second_listener_attaches_again` -- with two listeners each is called twice.
-/

namespace LazyEvents

open Transition

/-- The name of an event. -/
abbrev Text := List Char

instance : LawfulBEq Text := inferInstance

/-- `event-listener-added` -/
def listenerAdded : Text :=
  ['e', 'v', 'e', 'n', 't', '-', 'l', 'i', 's', 't', 'e', 'n', 'e', 'r', '-', 'a', 'd',
    'd', 'e', 'd']

/-- `event-listener-removed` -/
def listenerRemoved : Text :=
  ['e', 'v', 'e', 'n', 't', '-', 'l', 'i', 's', 't', 'e', 'n', 'e', 'r', '-', 'r', 'e',
    'm', 'o', 'v', 'e', 'd']

/-- A listener: a function of the program, or one of the two functions that
`lazyLoadEventListener` makes for an event and the handler pair of its group. -/
inductive Listener (F : Type)
  | user (func : F)
  | adds (event : Text) (group : Nat)
  | removes (event : Text) (group : Nat)
  deriving DecidableEq

/-- The function of the program, if the listener is one. -/
def Listener.user? {F : Type} : Listener F → Option F
  | .user func => some func
  | .adds _ _ => none
  | .removes _ _ => none

/-- `private.events`, how often the handler of each group is attached to the native
view, and the calls of the program's functions with the event they were for. -/
structure State (F : Type) where
  events : Text → List (Listener F)
  attached : Nat → Nat
  called : List (Text × F)

/-- What the control is set up with: the groups of event names, each given to
`lazyLoadEventListener` with one handler pair, and `toLowerCase`.  The names are
in lower case, different within a group, and not the private ones. -/
structure Setup where
  toLowerCase : Text → Text
  groups : List (List Text)
  added : toLowerCase listenerAdded = listenerAdded
  removed : toLowerCase listenerRemoved = listenerRemoved
  lower : ∀ names ∈ groups, ∀ e ∈ names, toLowerCase e = e
  nodup : ∀ names ∈ groups, names.Nodup
  isPublic : ∀ names ∈ groups, ∀ e ∈ names, e ≠ listenerAdded

/-- The names of a group; there are none beyond the groups. -/
def Setup.names (setup : Setup) (group : Nat) : List Text := setup.groups[group]?.getD []

section Model

variable {F : Type}

/-- `native.addEventListener`, bound to the handler of the group -/
def addNative (s : State F) (group : Nat) : State F :=
  { s with attached := Function.update s.attached group (s.attached group + 1) }

/-- `native.removeEventListener`, bound to the handler of the group -/
def removeNative (s : State F) (_group : Nat) : State F := s

/-- A listener is called for `event`, with the argument of `fireEvent` if any. -/
def Listener.call (event : Text) (arg : Option Text) (s : State F) : Listener F → State F
  | .user func => { s with called := s.called ++ [(event, func)] }
  | .adds e group => if arg = some e then addNative s group else s
  | .removes e group => if arg = some e ∧ s.events e = [] then removeNative s group else s

/-- The program's functions among the listeners of an event. -/
def State.registered (s : State F) (event : Text) : List F :=
  (s.events event).filterMap Listener.user?

section Target

variable (setup : Setup)

/-- `fireEvent` -/
def fireEvent (s : State F) (event : Text) (arg : Option Text) : State F :=
  let event := setup.toLowerCase event
  (s.events event).foldl (Listener.call event arg) s

/-- `addEventListener` -/
def addEventListener (s : State F) (event : Text) (func : Listener F) : State F :=
  let event := setup.toLowerCase event
  let s := fireEvent setup s listenerAdded (some event)
  { s with events := Function.update s.events event (s.events event ++ [func]) }

variable [DecidableEq F]

/-- `removeEventListener` -/
def removeEventListener (s : State F) (event : Text) (func : Listener F) : State F :=
  let event := setup.toLowerCase event
  let s := fireEvent setup s listenerRemoved (some event)
  { s with events := Function.update s.events event ((s.events event).erase func) }

/-- `lazyLoadEventListener`, for the names of a group -/
def lazyLoadEventListener (s : State F) (names : List Text) (group : Nat) : State F :=
  names.foldl (fun s event =>
    removeEventListener setup (addEventListener setup s listenerAdded (.adds event group))
      listenerRemoved (.removes event group)) s

/-- An object whose events have been set up. -/
def start : State F :=
  setup.groups.zipIdx.foldl (fun s group => lazyLoadEventListener setup s group.1 group.2)
    ⟨fun _ => [], fun _ => 0, []⟩

omit [DecidableEq F] in
/-- The native event of a group is raised: each attached handler fires the events
of the group. -/
def raise (s : State F) (names : List Text) (group : Nat) : State F :=
  (List.replicate (s.attached group) names).flatten.foldl
    (fun s event => fireEvent setup s event none) s

/-- The calls of a program. -/
inductive Call (F : Type)
  | addEventListener (event : Text) (func : F)
  | removeEventListener (event : Text) (func : F)

/-- One call. -/
def step (s : State F) : Call F → Option (State F)
  | .addEventListener event func => some (addEventListener setup s event (.user func))
  | .removeEventListener event func => some (removeEventListener setup s event (.user func))

omit [DecidableEq F] in
/-- A function is registered for one of the events. -/
def Registered (s : State F) (names : List Text) : Prop := ∃ e ∈ names, s.registered e ≠ []

instance (s : State F) (names : List Text) : Decidable (Registered s names) := by
  unfold Registered
  infer_instance

/-- **Attached once.**  The handler of a group is attached once while a function is
registered for one of its events and not otherwise, and the native event calls
each registered function of each of its events once. -/
structure AttachedOnce (s : State F) : Prop where
  attached : ∀ (group : Nat) names, setup.groups[group]? = some names →
    s.attached group = if Registered s names then 1 else 0
  delivered : ∀ (group : Nat) names, setup.groups[group]? = some names →
    (raise setup s names group).called =
      s.called ++ names.flatMap fun e => (s.registered e).map fun func => (e, func)

/-- The condition on a call: a function is added for an event only while its group
has none, and removed only if another one of the group stays. -/
def KeepsAttached (s : State F) : Call F → Prop
  | .addEventListener event _ =>
      ∀ names ∈ setup.groups, setup.toLowerCase event ∈ names → ¬ Registered s names
  | .removeEventListener event func =>
      ∀ names ∈ setup.groups, setup.toLowerCase event ∈ names →
        func ∈ s.registered (setup.toLowerCase event) →
          2 ≤ (s.registered (setup.toLowerCase event)).length ∨
            ∃ e ∈ names, e ≠ setup.toLowerCase event ∧ s.registered e ≠ []

/-! ## Firing an event -/

section Firing

omit [DecidableEq F] in
/-- Calling the listeners leaves them registered. -/
theorem foldl_call_events (event : Text) (arg : Option Text) (ls : List (Listener F))
    (s : State F) :
    (ls.foldl (Listener.call event arg) s).events = s.events := by
  induction ls generalizing s with
  | nil => rfl
  | cons l ls ih =>
      rw [List.foldl_cons, ih]
      cases l <;> simp only [Listener.call] <;> (try split) <;> rfl

omit [DecidableEq F] in
/-- The listeners of the program are called in order. -/
theorem foldl_call_called (event : Text) (arg : Option Text) (ls : List (Listener F))
    (s : State F) :
    (ls.foldl (Listener.call event arg) s).called =
      s.called ++ (ls.filterMap Listener.user?).map fun func => (event, func) := by
  induction ls generalizing s with
  | nil => simp
  | cons l ls ih =>
      rw [List.foldl_cons, ih]
      cases l with
      | user func => simp [Listener.call, Listener.user?]
      | adds e group =>
          simp only [Listener.call]
          split <;> simp [Listener.user?, List.filterMap_cons, addNative]
      | removes e group =>
          simp only [Listener.call]
          split <;> simp [Listener.user?, List.filterMap_cons, removeNative]

/-- Each listener for additions of the event attaches its handler. -/
theorem foldl_call_attached (event e : Text) (ls : List (Listener F)) (s : State F) (group : Nat) :
    (ls.foldl (Listener.call event (some e)) s).attached group =
      s.attached group + ls.count (.adds e group) := by
  induction ls generalizing s with
  | nil => simp
  | cons l ls ih =>
      rw [List.foldl_cons, ih]
      cases l with
      | user func => simp [Listener.call]
      | adds e' group' =>
          simp only [Listener.call, List.count_cons, Option.some.injEq, beq_iff_eq,
            Listener.adds.injEq]
          by_cases he : e = e'
          · by_cases hgroup : group' = group
            · simp [he, hgroup, addNative]
              omega
            · simp [he, hgroup, addNative, Function.update_of_ne (Ne.symm hgroup)]
          · simp [he, Ne.symm he]
      | removes e' group' =>
          simp only [Listener.call]
          split <;> simp [removeNative]

/-- Functions of the program attach nothing. -/
theorem foldl_call_users {ls : List (Listener F)} (h : ∀ l ∈ ls, ∃ func, l = .user func)
    (event e : Text) (s : State F) :
    (ls.foldl (Listener.call event (some e)) s).attached = s.attached := by
  funext group
  rw [foldl_call_attached, List.count_eq_zero.mpr, Nat.add_zero]
  intro hmem
  obtain ⟨func, hl⟩ := h _ hmem
  cases hl

end Firing

/-! ## The set-up -/

/-- The listener for additions of every event of every group is there once, and
the other lists hold functions of the program. -/
structure Wired (s : State F) : Prop where
  adds : ∀ e group, (s.events listenerAdded).count (.adds e group) =
    if e ∈ setup.names group then 1 else 0
  users : ∀ event, event ≠ listenerAdded → ∀ l ∈ s.events event, ∃ func, l = .user func

variable {setup}

theorem added_ne_removed : listenerRemoved ≠ listenerAdded := by decide

/-- The state while the groups are set up: only the listeners `ls` are there. -/
def wiring (ls : List (Listener F)) : State F :=
  ⟨Function.update (fun _ => []) listenerAdded ls, fun _ => 0, []⟩

omit [DecidableEq F] in
/-- Listeners for additions of other events do nothing. -/
theorem foldl_call_others {event e' : Text} {ls : List (Listener F)}
    (h : ∀ l ∈ ls, ∃ e g, l = .adds e g ∧ e ≠ e') (s : State F) :
    ls.foldl (Listener.call event (some e')) s = s := by
  induction ls with
  | nil => rfl
  | cons l ls ih =>
      obtain ⟨e, g, rfl, he⟩ := h l List.mem_cons_self
      have hl : Listener.call event (some e') s (.adds e g) = s := by
        simp [Listener.call, Ne.symm he]
      rw [List.foldl_cons, hl]
      exact ih fun l hl => h l (List.mem_cons_of_mem _ hl)

/-- Setting up a group adds its listeners for additions. -/
theorem lazyLoadEventListener_wiring {ls : List (Listener F)} {names : List Text} {group : Nat}
    (hls : ∀ l ∈ ls, ∃ e g, l = .adds e g ∧ e ≠ listenerAdded)
    (hnames : ∀ e ∈ names, e ≠ listenerAdded) :
    lazyLoadEventListener setup (wiring ls) names group =
      wiring (ls ++ names.map fun e => .adds e group) := by
  induction names generalizing ls with
  | nil => simp [lazyLoadEventListener]
  | cons event names ih =>
      have hfire : fireEvent setup (wiring ls) listenerAdded (some listenerAdded) = wiring ls := by
        have hevents : (wiring ls).events (setup.toLowerCase listenerAdded) = ls := by
          simp [setup.added, wiring]
        rw [fireEvent, hevents]
        exact foldl_call_others hls _
      have hadd : addEventListener setup (wiring ls) listenerAdded (.adds event group) =
          wiring (ls ++ [.adds event group]) := by
        simp only [addEventListener, setup.added, hfire]
        simp [wiring]
      have hremove : ∀ ls : List (Listener F), removeEventListener setup (wiring ls) listenerRemoved
          (.removes event group) = wiring ls := by
        intro ls
        simp [removeEventListener, fireEvent, setup.removed, wiring, added_ne_removed]
      have hmore : ∀ l ∈ ls ++ [.adds event group], ∃ e g, l = .adds e g ∧ e ≠ listenerAdded := by
        intro l hl
        rcases List.mem_append.mp hl with hl | hl
        · exact hls l hl
        · exact ⟨event, group, List.mem_singleton.mp hl, hnames event List.mem_cons_self⟩
      have hrest := ih hmore fun e he => hnames e (List.mem_cons_of_mem _ he)
      simp only [lazyLoadEventListener, List.foldl_cons, hadd, hremove] at hrest ⊢
      rw [hrest]
      simp

/-- The listeners for additions that the groups from `k` on need. -/
def addsOf (groups : List (List Text)) (k : Nat) : List (Listener F) :=
  (groups.zipIdx k).flatMap fun group => group.1.map fun e => .adds e group.2

/-- Each group adds the listeners that it needs. -/
theorem foldl_lazyLoad_wiring {groups : List (List Text)} {k : Nat} {ls : List (Listener F)}
    (hls : ∀ l ∈ ls, ∃ e g, l = .adds e g ∧ e ≠ listenerAdded)
    (hpublic : ∀ names ∈ groups, ∀ e ∈ names, e ≠ listenerAdded) :
    (groups.zipIdx k).foldl (fun s group => lazyLoadEventListener setup s group.1 group.2)
      (wiring ls) = wiring (ls ++ addsOf groups k) := by
  induction groups generalizing k ls with
  | nil => simp [addsOf]
  | cons names groups ih =>
      have hnames := hpublic names List.mem_cons_self
      rw [List.zipIdx_cons, List.foldl_cons, lazyLoadEventListener_wiring hls hnames, ih]
      · simp [addsOf, List.zipIdx_cons]
      · intro l hl
        rcases List.mem_append.mp hl with hl | hl
        · exact hls l hl
        · obtain ⟨e, he, rfl⟩ := List.mem_map.mp hl
          exact ⟨e, k, rfl, hnames e he⟩
      · exact fun names' h => hpublic names' (List.mem_cons_of_mem _ h)

theorem start_eq : (start setup : State F) = wiring (addsOf setup.groups 0) := by
  have hempty : (⟨fun _ => [], fun _ => 0, []⟩ : State F) = wiring [] := by
    simp [wiring, Function.update_eq_self]
  rw [start, hempty, foldl_lazyLoad_wiring (by simp) setup.isPublic, List.nil_append]

/-- One listener is added for each name of a group. -/
theorem count_map_adds {names : List Text} (hnodup : names.Nodup) (e : Text) (k group : Nat) :
    (names.map fun e => (.adds e k : Listener F)).count (.adds e group) =
      if k = group ∧ e ∈ names then 1 else 0 := by
  by_cases hk : k = group
  · subst hk
    have hinj : Function.Injective fun e => (.adds e k : Listener F) := fun a b h => by
      simpa using h
    rw [List.count_map_of_injective names _ hinj e]
    by_cases he : e ∈ names
    · rw [if_pos ⟨rfl, he⟩, List.count_eq_one_of_mem hnodup he]
    · rw [if_neg fun h => he h.2, List.count_eq_zero_of_not_mem he]
  · rw [if_neg fun h => hk h.1, List.count_eq_zero]
    simp [hk]

/-- Each event of each group has one listener for additions. -/
theorem count_addsOf {groups : List (List Text)} (hnodup : ∀ names ∈ groups, names.Nodup)
    (e : Text) (k group : Nat) :
    (addsOf groups k : List (Listener F)).count (.adds e group) =
      if k ≤ group ∧ e ∈ groups[group - k]?.getD [] then 1 else 0 := by
  induction groups generalizing k with
  | nil => simp [addsOf]
  | cons names groups ih =>
      have hrest := ih (fun names' h => hnodup names' (List.mem_cons_of_mem _ h)) (k + 1)
      have hcons : (addsOf (names :: groups) k : List (Listener F)) =
          (names.map fun e => .adds e k) ++ addsOf groups (k + 1) := by
        simp [addsOf, List.zipIdx_cons]
      rw [hcons, List.count_append, hrest, count_map_adds (hnodup names List.mem_cons_self)]
      rcases Nat.lt_trichotomy group k with hlt | rfl | hlt
      · rw [if_neg (by omega), if_neg (by omega), if_neg (by omega)]
      · have hlater : ¬ group + 1 ≤ group := by omega
        simp [hlater]
      · obtain ⟨d, rfl⟩ : ∃ d, group = k + 1 + d := ⟨group - (k + 1), by omega⟩
        have hd : k + 1 + d - k = d + 1 := by omega
        have hd' : k + 1 + d - (k + 1) = d := by omega
        rw [if_neg (by omega), Nat.zero_add, hd, hd', List.getElem?_cons_succ]
        refine if_congr (and_congr_left fun _ => ?_) rfl rfl
        omega

/-- Set up, nothing is registered and nothing attached. -/
theorem start_wired : Wired setup (start setup : State F) := by
  rw [start_eq]
  refine ⟨fun e group => ?_, fun event hne l hl => ?_⟩
  · have hevents : (wiring (addsOf setup.groups 0) : State F).events listenerAdded =
        addsOf setup.groups 0 := by simp [wiring]
    rw [hevents, count_addsOf setup.nodup]
    exact if_congr (by simp [Setup.names]) rfl rfl
  · simp [wiring, hne] at hl

/-! ## One call -/

section Calls

variable {s : State F}

theorem Wired.fire_added (h : Wired setup s) (e : Text) (group : Nat) :
    (fireEvent setup s listenerAdded (some e)).attached group = s.attached group +
      if e ∈ setup.names group then 1 else 0 := by
  rw [fireEvent, setup.added, foldl_call_attached, h.adds]

theorem Wired.fire_removed (h : Wired setup s) (e : Text) :
    (fireEvent setup s listenerRemoved (some e)).attached = s.attached := by
  rw [fireEvent, setup.removed]
  exact foldl_call_users (h.users listenerRemoved added_ne_removed) _ _ _

omit [DecidableEq F] in
theorem fireEvent_events (s : State F) (event : Text) (arg : Option Text) :
    (fireEvent setup s event arg).events = s.events := foldl_call_events _ _ _ _

/-- Adding or removing a function keeps the private listeners. -/
theorem step_wired {t : State F} {c : Call F} (h : Wired setup s)
    (hstep : step setup s c = some t) :
    Wired setup t := by
  cases c with
  | addEventListener event func =>
      obtain rfl := Option.some.inj hstep
      refine ⟨fun e group => ?_, fun event' hne l hl => ?_⟩
      · rw [← h.adds e group]
        simp only [addEventListener, fireEvent_events, Function.update_apply]
        split
        · next heq => simp [heq, List.count_append]
        · rfl
      · simp only [addEventListener, fireEvent_events, Function.update_apply] at hl
        split at hl
        · next heq =>
          rcases List.mem_append.mp hl with hl | hl
          · exact h.users _ (heq ▸ hne) l hl
          · exact ⟨func, List.mem_singleton.mp hl⟩
        · exact h.users event' hne l hl
  | removeEventListener event func =>
      obtain rfl := Option.some.inj hstep
      refine ⟨fun e group => ?_, fun event' hne l hl => ?_⟩
      · rw [← h.adds e group]
        simp only [removeEventListener, fireEvent_events, Function.update_apply]
        split
        · next heq => rw [heq, List.count_erase_of_ne (by simp)]
        · rfl
      · simp only [removeEventListener, fireEvent_events, Function.update_apply] at hl
        split at hl
        · next heq => exact h.users _ (heq ▸ hne) l (List.mem_of_mem_erase hl)
        · exact h.users event' hne l hl

omit [DecidableEq F] in
/-- Firing the events of a group calls their functions in turn. -/
theorem foldl_fireEvent_called {names : List Text} (hlower : ∀ e ∈ names, setup.toLowerCase e = e)
    (s : State F) :
    (names.foldl (fun s event => fireEvent setup s event none) s).called =
      s.called ++ names.flatMap fun e => (s.registered e).map fun func => (e, func) := by
  induction names generalizing s with
  | nil => simp
  | cons e names ih =>
      have he := hlower e List.mem_cons_self
      have hregistered : ∀ e', (fireEvent setup s e none).registered e' = s.registered e' :=
        fun e' => by
        rw [State.registered, fireEvent_events, State.registered]
      have hcalled : (fireEvent setup s e none).called =
          s.called ++ (s.registered e).map fun func => (e, func) := by
        rw [fireEvent, he, foldl_call_called, State.registered]
      rw [List.foldl_cons, ih (fun e' h => hlower e' (List.mem_cons_of_mem _ h)), hcalled]
      simp only [hregistered, List.flatMap_cons, List.append_assoc]

omit [DecidableEq F] in
/-- A handler that is attached once delivers each event once. -/
theorem delivered_of_attached {group : Nat} {names : List Text}
    (hgroup : setup.groups[group]? = some names)
    (h : s.attached group = if Registered s names then 1 else 0) :
    (raise setup s names group).called =
      s.called ++ names.flatMap fun e => (s.registered e).map fun func => (e, func) := by
  rw [raise, h]
  by_cases hreg : Registered s names
  · have hnames := List.mem_of_getElem? hgroup
    simpa [if_pos hreg] using foldl_fireEvent_called (setup.lower names hnames) s
  · have hnone : ∀ e ∈ names, s.registered e = [] := fun e he => by
      by_contra hne
      exact hreg ⟨e, he, hne⟩
    have hempty : (names.flatMap fun e => (s.registered e).map fun func => (e, func)) = [] := by
      simpa using hnone
    simp [if_neg hreg, hempty]

omit [DecidableEq F] in
/-- The functions registered after one was added. -/
theorem addEventListener_registered (s : State F) (event : Text) (func : F) (e : Text) :
    (addEventListener setup s event (.user func)).registered e =
      if e = setup.toLowerCase event then s.registered e ++ [func] else s.registered e := by
  simp only [State.registered, addEventListener, fireEvent_events, Function.update_apply]
  split
  · next he => simp [he, Listener.user?]
  · rfl

omit [DecidableEq F] in
theorem filterMap_user (funcs : List F) : (funcs.map .user).filterMap Listener.user? = funcs := by
  have huser : (Listener.user? ∘ Listener.user : F → Option F) = some := rfl
  rw [List.filterMap_map, huser, List.filterMap_some]

/-- The functions registered after one was removed. -/
theorem removeEventListener_registered (h : Wired setup s) (event : Text) (func : F) {e : Text}
    (he : e ≠ listenerAdded) :
    (removeEventListener setup s event (.user func)).registered e =
      if e = setup.toLowerCase event then (s.registered e).erase func else s.registered e := by
  simp only [State.registered, removeEventListener, fireEvent_events, Function.update_apply]
  split
  · next heq =>
    obtain ⟨funcs, hfuncs⟩ : ∃ funcs : List F, s.events e = funcs.map .user := by
      have husers := h.users e he
      generalize s.events e = ls at husers
      induction ls with
      | nil => exact ⟨[], rfl⟩
      | cons l ls ih =>
          obtain ⟨f, rfl⟩ := husers l List.mem_cons_self
          obtain ⟨funcs, rfl⟩ := ih fun l hl => husers l (List.mem_cons_of_mem _ hl)
          exact ⟨f :: funcs, rfl⟩
    have hinj : Function.Injective (Listener.user : F → Listener F) := fun a b h => by
      simpa using h
    rw [← heq, hfuncs, ← List.map_erase hinj, filterMap_user, filterMap_user]
  · rfl

/-- A handler is attached again by every function added for its group. -/
theorem add_attached_iff (h : Wired setup s) (hs : AttachedOnce setup s) (event : Text) (func : F) :
    AttachedOnce setup (addEventListener setup s event (.user func)) ↔
      KeepsAttached setup s (.addEventListener event func) := by
  have hattached : ∀ (group : Nat) names, setup.groups[group]? = some names →
      (addEventListener setup s event (.user func)).attached group =
        (if Registered s names then 1 else 0) +
          if setup.toLowerCase event ∈ names then 1 else 0 := by
    intro group names hgroup
    have := h.fire_added (setup.toLowerCase event) group
    rw [Setup.names, hgroup, Option.getD_some, hs.attached group names hgroup] at this
    exact this
  have hregistered : ∀ names, Registered (addEventListener setup s event (.user func)) names ↔
      Registered s names ∨ setup.toLowerCase event ∈ names := by
    intro names
    constructor
    · rintro ⟨e, he, hne⟩
      rw [addEventListener_registered] at hne
      split at hne
      · next heq => exact .inr (heq ▸ he)
      · exact .inl ⟨e, he, hne⟩
    · rintro (⟨e, he, hne⟩ | he)
      · refine ⟨e, he, ?_⟩
        rw [addEventListener_registered]
        split <;> simp [hne]
      · exact ⟨_, he, by simp [addEventListener_registered]⟩
  constructor
  · intro hafter names hnames he hreg
    obtain ⟨group, hgroup⟩ := List.mem_iff_getElem?.mp hnames
    have := hafter.attached group names hgroup
    rw [hattached group names hgroup, if_pos hreg, if_pos he,
      if_pos ((hregistered names).mpr (.inl hreg))] at this
    cases this
  · intro hcond
    have hafter : ∀ (group : Nat) names, setup.groups[group]? = some names →
        (addEventListener setup s event (.user func)).attached group =
          if Registered (addEventListener setup s event (.user func)) names then 1 else 0 := by
      intro group names hgroup
      rw [hattached group names hgroup]
      by_cases he : setup.toLowerCase event ∈ names
      · rw [if_neg (hcond names (List.mem_of_getElem? hgroup) he), if_pos he,
          if_pos ((hregistered names).mpr (.inr he))]
      · rw [if_neg he, Nat.add_zero]
        refine if_congr ?_ rfl rfl
        rw [hregistered, or_iff_left he]
    exact ⟨hafter, fun group names hgroup =>
      delivered_of_attached hgroup (hafter group names hgroup)⟩

/-- The handler stays when a function is removed. -/
theorem remove_attached_iff (h : Wired setup s) (hs : AttachedOnce setup s) (event : Text)
    (func : F) :
    AttachedOnce setup (removeEventListener setup s event (.user func)) ↔
      KeepsAttached setup s (.removeEventListener event func) := by
  have hattached : ∀ (group : Nat) names, setup.groups[group]? = some names →
      (removeEventListener setup s event (.user func)).attached group =
        if Registered s names then 1 else 0 := by
    intro group names hgroup
    rw [← hs.attached group names hgroup]
    exact congrFun (h.fire_removed (setup.toLowerCase event)) group
  have hregistered : ∀ names ∈ setup.groups, ∀ e ∈ names,
      (removeEventListener setup s event (.user func)).registered e =
        if e = setup.toLowerCase event then (s.registered e).erase func else s.registered e :=
    fun names hnames e he =>
      removeEventListener_registered h event func (setup.isPublic names hnames e he)
  constructor
  · intro hafter names hnames he hfunc
    obtain ⟨group, hgroup⟩ := List.mem_iff_getElem?.mp hnames
    have hone := hafter.attached group names hgroup
    have hreg : Registered s names := ⟨_, he, List.ne_nil_of_mem hfunc⟩
    rw [hattached group names hgroup, if_pos hreg] at hone
    obtain ⟨e, hmem, hne⟩ : Registered (removeEventListener setup s event (.user func)) names := by
      by_contra hnot
      rw [if_neg hnot] at hone
      cases hone
    rw [hregistered names hnames e hmem] at hne
    split at hne
    · next heq =>
      rw [heq] at hne
      have hpos := List.length_pos_iff.mpr hne
      rw [List.length_erase_of_mem hfunc] at hpos
      exact .inl (by omega)
    · next hother => exact .inr ⟨e, hmem, hother, hne⟩
  · intro hcond
    have hstays : ∀ names ∈ setup.groups, Registered s names →
        Registered (removeEventListener setup s event (.user func)) names := by
      intro names hnames ⟨e, he, hne⟩
      by_cases hother : ∃ e' ∈ names, e' ≠ setup.toLowerCase event ∧ s.registered e' ≠ []
      · obtain ⟨e', he', hne', hreg'⟩ := hother
        exact ⟨e', he', by rwa [hregistered names hnames e' he', if_neg hne']⟩
      · have heq : e = setup.toLowerCase event := by
          by_contra hne'
          exact hother ⟨e, he, hne', hne⟩
        refine ⟨e, he, ?_⟩
        rw [hregistered names hnames e he, if_pos heq]
        by_cases hfunc : func ∈ s.registered e
        · have hlength := (hcond names hnames (heq ▸ he) (heq ▸ hfunc)).resolve_right hother
          rw [← heq] at hlength
          rw [← List.length_pos_iff, List.length_erase_of_mem hfunc]
          omega
        · rwa [List.erase_of_not_mem hfunc]
    have hleaves : ∀ names ∈ setup.groups,
        Registered (removeEventListener setup s event (.user func)) names → Registered s names := by
      intro names hnames ⟨e, he, hne⟩
      rw [hregistered names hnames e he] at hne
      refine ⟨e, he, fun hnil => hne ?_⟩
      split <;> simp [hnil]
    have hafter : ∀ (group : Nat) names, setup.groups[group]? = some names →
        (removeEventListener setup s event (.user func)).attached group =
          if Registered (removeEventListener setup s event (.user func)) names then 1 else 0 := by
      intro group names hgroup
      have hnames := List.mem_of_getElem? hgroup
      rw [hattached group names hgroup]
      exact if_congr ⟨hstays names hnames, hleaves names hnames⟩ rfl rfl
    exact ⟨hafter, fun group names hgroup =>
      delivered_of_attached hgroup (hafter group names hgroup)⟩

/-- **One call.**  A call keeps every handler attached once exactly when it meets
the condition. -/
theorem step_attached_iff {t : State F} {c : Call F} (h : Wired setup s)
    (hs : AttachedOnce setup s) (hstep : step setup s c = some t) :
    AttachedOnce setup t ↔ KeepsAttached setup s c := by
  cases c with
  | addEventListener event func =>
      obtain rfl := Option.some.inj hstep
      exact add_attached_iff h hs event func
  | removeEventListener event func =>
      obtain rfl := Option.some.inj hstep
      exact remove_attached_iff h hs event func

/-- At the start nothing is registered and nothing attached. -/
theorem start_attached : AttachedOnce setup (start setup : State F) := by
  have hregistered : ∀ names ∈ setup.groups, ¬ Registered (start setup : State F) names := by
    rintro names hnames ⟨e, he, hne⟩
    have hpublic := setup.isPublic names hnames e he
    rw [start_eq] at hne
    exact hne (by simp [State.registered, wiring, hpublic])
  have hattached : ∀ (group : Nat) names, setup.groups[group]? = some names →
      (start setup : State F).attached group =
        if Registered (start setup : State F) names then 1 else 0 := by
    intro group names hgroup
    rw [if_neg (hregistered names (List.mem_of_getElem? hgroup)), start_eq]
    rfl
  exact ⟨hattached, fun group names hgroup =>
    delivered_of_attached hgroup (hattached group names hgroup)⟩

end Calls

/-! ## All calls -/

theorem step_isSome (s : State F) (c : Call F) : (step setup s c).isSome := by
  cases c <;> rfl

variable (setup)

/-- **Handlers are attached once.**  All along a sequence of calls the handler of
each group is attached once while one of its events has a listener, and not
otherwise, if and only if every call meets the condition. -/
theorem attached_once_iff (calls : List (Call F)) :
    Throughout (step setup) (AttachedOnce setup) (start setup) calls ↔
      Meets (step setup) (KeepsAttached setup) (start setup) calls :=
  throughout_iff_meets (J := Wired setup) (fun _ _ _ => step_wired)
    (fun _ _ _ => step_attached_iff) start_wired start_attached
    (meets_of_total step_isSome _ _)

end Target

end Model

/-- `mouseup` and `click` share a handler. -/
def mouseSetup : Setup where
  toLowerCase := List.map Char.toLower
  groups := [[['m', 'o', 'u', 's', 'e', 'u', 'p'], ['c', 'l', 'i', 'c', 'k']]]
  added := by decide
  removed := by decide
  lower := by simp
  nodup := by simp
  isPublic := by simp [listenerAdded]

/-- **A second listener attaches again.**  With a listener for `mouseup` and one
for `click` the handler is attached twice. -/
theorem second_listener_attaches_again :
    ¬ ∀ (setup : Setup) (calls : List (Call Nat)),
      Throughout (step setup) (AttachedOnce setup) (start setup) calls := by
  intro hall
  have hrun := hall mouseSetup [.addEventListener ['m', 'o', 'u', 's', 'e', 'u', 'p'] 0,
    .addEventListener ['c', 'l', 'i', 'c', 'k'] 1]
  obtain ⟨-, hrun⟩ := hrun
  obtain ⟨-, hrun⟩ := hrun _ rfl
  have hattached := (hrun _ rfl).attached 0 _ rfl
  revert hattached
  decide

end LazyEvents

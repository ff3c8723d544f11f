import Tint.Transition
import Mathlib.Data.List.Count
import Mathlib.Logic.Function.Iterate

/-!
# Mouse tracking on the Mac

A control counts the listeners of `mouseenter`, `mouseexit` and `mousemove` in
`needsMouseTracking` and has a tracking area on its view while there are any.  The
count follows the meta events that `addEventListener` and `removeEventListener` fire
before they look at the list.  The first listener adds the area where the view has a
window; where it has none a listener of `parent-attached` is to add it, at this and
every later attach.

* `mouse_tracked_iff` -- along a run the count is that of the listeners, the area is
  there while there are any and is released once, if and only if the first listener
  comes in a window and only what is registered is removed;
* `unregistered_removed` -- removing a function that is no listener makes the count
  negative.
-/

namespace MouseTracking

open Transition

/-- The names of events in lower case; the others are numbered. -/
inductive Event
  | mouseenter
  | mouseexit
  | mousemove
  | other (name : Nat)
  deriving DecidableEq

/-- `event === "mouseenter" || event === "mouseexit" || event === "mousemove"` -/
def Event.isMouse : Event → Bool
  | .mouseenter | .mouseexit | .mousemove => true
  | .other _ => false

variable {F : Type*}

/-- The control and its view.  `pending` counts the `addTrackingArea` listeners of
`parent-attached`, tracking areas are numbered, `areas` are those on the view and
`released` those that were sent `release`.  `exited` is set by an exception in a
listener. -/
structure State (F : Type*) where
  window : Bool
  events : Event → List F
  needsMouseTracking : Int
  pending : Nat
  trackingArea : Option Nat
  areas : List Nat
  next : Nat
  released : List Nat
  exited : Bool

/-- A new control. -/
def start : State F where
  window := false
  events := fun _ => []
  needsMouseTracking := 0
  pending := 0
  trackingArea := none
  areas := []
  next := 0
  released := []
  exited := false

/-- `addTrackingArea` -/
def addTrackingArea (s : State F) : State F :=
  { s with
    trackingArea := some s.next
    areas := s.areas ++ [s.next]
    next := s.next + 1 }

/-- The control's listener of `event-listener-added`. -/
def listenerAdded (s : State F) (event : Event) : State F :=
  if event.isMouse then
    let s := { s with needsMouseTracking := s.needsMouseTracking + 1 }
    if s.needsMouseTracking = 1 ∧ s.window = true then addTrackingArea s
    else if s.needsMouseTracking = 1 then { s with pending := s.pending + 1 }
    else s
  else s

/-- `addEventListener` -/
def addEventListener (s : State F) (event : Event) (func : F) : State F :=
  let s := listenerAdded s event
  { s with events := Function.update s.events event (s.events event ++ [func]) }

/-- The control's listener of `event-listener-removed`. -/
def listenerRemoved (s : State F) (event : Event) : State F :=
  if event.isMouse then
    let s := { s with needsMouseTracking := s.needsMouseTracking - 1 }
    if s.needsMouseTracking = 0 then
      match s.trackingArea with
      | some area =>
        { s with
          trackingArea := none
          areas := s.areas.erase area
          released := s.released ++ [area] }
      -- `null('release')`
      | none => { s with exited := true }
    else s
  else s

variable [DecidableEq F]

/-- `removeEventListener` -/
def removeEventListener (s : State F) (event : Event) (func : F) : State F :=
  let s := listenerRemoved s event
  if s.exited then s
  else { s with events := Function.update s.events event ((s.events event).erase func) }

/-- `attach`: the control becomes the child of a container that is in a window or not,
and `parent-attached` is fired.  `window`: its view comes into a window or leaves it
otherwise. -/
inductive Action (F : Type*)
  | addEventListener (event : Event) (func : F)
  | removeEventListener (event : Event) (func : F)
  | attach (window : Bool)
  | window (window : Bool)

/-- One step of the program or its window. -/
def step (s : State F) (a : Action F) : Option (State F) :=
  if s.exited then none
  else
    match a with
    | .addEventListener event func => some (addEventListener s event func)
    | .removeEventListener event func => some (removeEventListener s event func)
    | .attach w => some (addTrackingArea^[s.pending] { s with window := w })
    | .window w => some { s with window := w }

/-- The number of registered mouse listeners. -/
def registered (events : Event → List F) : Nat :=
  (events .mouseenter).length + (events .mouseexit).length + (events .mousemove).length

/-- The count is right, an area is on the view while there are listeners, and each
area that was made is released once when it has left the view, and not before. -/
structure Tracked (s : State F) : Prop where
  counted : s.needsMouseTracking = registered s.events
  installed : s.areas ≠ [] ↔ 0 < registered s.events
  released : ∀ a, s.released.count a = if a < s.next ∧ a ∉ s.areas then 1 else 0

/-- The first mouse listener is added in a window, and only registered ones are
removed. -/
def Ok (s : State F) : Action F → Prop
  | .addEventListener event _ =>
    event.isMouse = true → registered s.events = 0 → s.window = true
  | .removeEventListener event func => event.isMouse = true → func ∈ s.events event
  | .attach _ => True
  | .window _ => True

/-! ## What a step does -/

omit [DecidableEq F] in
/-- Other listeners do not count. -/
theorem registered_other (events : Event → List F) {event : Event} (h : event.isMouse = false)
    (fs : List F) : registered (Function.update events event fs) = registered events := by
  cases event with
  | other name => rfl
  | mouseenter => cases h
  | mouseexit => cases h
  | mousemove => cases h

omit [DecidableEq F] in
/-- Another list for one of the mouse events. -/
theorem registered_update (events : Event → List F) {event : Event} (h : event.isMouse = true)
    (fs : List F) : registered (Function.update events event fs) + (events event).length =
      registered events + fs.length := by
  cases event with
  | other name => cases h
  | mouseenter => simp only [registered, Function.update_self, ne_eq, reduceCtorEq,
      not_false_eq_true, Function.update_of_ne]; omega
  | mouseexit => simp only [registered, Function.update_self, ne_eq, reduceCtorEq,
      not_false_eq_true, Function.update_of_ne]; omega
  | mousemove => simp only [registered, Function.update_self, ne_eq, reduceCtorEq,
      not_false_eq_true, Function.update_of_ne]; omega

/-- While all is well no area is owed, and the view has the one that is known. -/
structure Kept (s : State F) : Prop where
  pending : s.pending = 0
  areas : s.areas = s.trackingArea.toList
  known : ∀ a ∈ s.areas, a < s.next

variable {s t : State F}

omit [DecidableEq F] in
theorem Tracked.areas_nil (h : Tracked s) (hnone : registered s.events = 0) : s.areas = [] := by
  by_contra hne
  have hpos := h.installed.mp hne
  omega

/-! ## Adding a listener -/

omit [DecidableEq F] in
theorem events_listenerAdded (s : State F) (event : Event) :
    (listenerAdded s event).events = s.events := by
  simp only [listenerAdded, addTrackingArea]
  split_ifs <;> rfl

omit [DecidableEq F] in
/-- A listener for the mouse counts. -/
theorem registered_addEventListener (s : State F) {event : Event} (func : F)
    (h : event.isMouse = true) :
    registered (addEventListener s event func).events = registered s.events + 1 := by
  have hcount := registered_update s.events h (s.events event ++ [func])
  rw [List.length_append, List.length_singleton] at hcount
  simp only [addEventListener, events_listenerAdded]
  omega

omit [DecidableEq F] in
/-- A listener of another event changes nothing of the tracking. -/
theorem tracked_add_other (h : Tracked s) {event : Event} (func : F)
    (hevent : event.isMouse = false) : Tracked (addEventListener s event func) := by
  have hsame := registered_other s.events hevent (s.events event ++ [func])
  simp only [addEventListener, listenerAdded, hevent, Bool.false_eq_true, if_false]
  refine ⟨?_, ?_, h.released⟩
  · simp only [hsame]
    exact h.counted
  · simp only [hsame]
    exact h.installed

omit [DecidableEq F] in
/-- A further mouse listener is only counted. -/
theorem listenerAdded_further (h : Tracked s) {event : Event} (hevent : event.isMouse = true)
    (hsome : registered s.events ≠ 0) :
    listenerAdded s event = { s with needsMouseTracking := s.needsMouseTracking + 1 } := by
  have hnot : ¬ s.needsMouseTracking + 1 = 1 := by
    rw [h.counted]
    omega
  simp only [listenerAdded, hevent, if_true, hnot, false_and, if_false]

omit [DecidableEq F] in
/-- The first mouse listener. -/
theorem listenerAdded_first (h : Tracked s) {event : Event} (hevent : event.isMouse = true)
    (hnone : registered s.events = 0) :
    listenerAdded s event =
      if s.window = true then
        addTrackingArea { s with needsMouseTracking := s.needsMouseTracking + 1 }
      else { s with
        needsMouseTracking := s.needsMouseTracking + 1
        pending := s.pending + 1 } := by
  have hone : s.needsMouseTracking + 1 = 1 := by
    rw [h.counted]
    omega
  simp only [listenerAdded, hevent, if_true, hone, true_and]

omit [DecidableEq F] in
/-- A first listener for the mouse is tracked if there is a window. -/
theorem tracked_add_iff (h : Tracked s) (event : Event) (func : F) :
    Tracked (addEventListener s event func) ↔
      (event.isMouse = true → registered s.events = 0 → s.window = true) := by
  cases hevent : event.isMouse with
  | false => exact iff_of_true (tracked_add_other h func hevent) nofun
  | true =>
      have hcount := registered_addEventListener s func hevent
      simp only [true_imp_iff]
      by_cases hnone : registered s.events = 0
      · have hareas := h.areas_nil hnone
        have hfirst := listenerAdded_first h hevent hnone
        cases hw : s.window with
        | true =>
            rw [hw, if_pos rfl] at hfirst
            refine iff_of_true ⟨?_, ?_, ?_⟩ (fun _ => rfl)
            · rw [hcount, addEventListener, hfirst]
              simp only [addTrackingArea, h.counted]
              push_cast
              rfl
            · rw [hcount, addEventListener, hfirst]
              simp [addTrackingArea]
            · intro a
              have hbefore := h.released a
              rw [hareas] at hbefore
              rw [addEventListener, hfirst]
              simp only [addTrackingArea, hareas, List.nil_append, List.mem_singleton]
              rw [hbefore]
              simp only [List.not_mem_nil, not_false_eq_true, and_true]
              split_ifs <;> omega
        | false =>
            rw [hw, if_neg Bool.false_ne_true] at hfirst
            refine iff_of_false ?_ (fun hok => Bool.false_ne_true (hok hnone))
            intro ht
            have hne := ht.installed.mpr (by rw [hcount]; omega)
            rw [addEventListener, hfirst] at hne
            exact hne hareas
      · have hfurther := listenerAdded_further h hevent hnone
        refine iff_of_true ⟨?_, ?_, ?_⟩ (fun hzero => absurd hzero hnone)
        · rw [hcount, addEventListener, hfurther]
          simp only [h.counted]
          push_cast
          rfl
        · rw [hcount, addEventListener, hfurther]
          have hne := h.installed.mpr (Nat.pos_of_ne_zero hnone)
          exact iff_of_true hne (Nat.succ_pos _)
        · rw [addEventListener, hfurther]
          exact h.released

omit [DecidableEq F] in
/-- While all is well no area becomes owed. -/
theorem kept_add (h : Tracked s) (hk : Kept s) (event : Event) (func : F)
    (ht : Tracked (addEventListener s event func)) : Kept (addEventListener s event func) := by
  have hok := (tracked_add_iff h event func).mp ht
  cases hevent : event.isMouse with
  | false =>
      simp only [addEventListener, listenerAdded, hevent, Bool.false_eq_true, if_false]
      exact ⟨hk.pending, hk.areas, hk.known⟩
  | true =>
      by_cases hnone : registered s.events = 0
      · have hareas := h.areas_nil hnone
        have hfirst := listenerAdded_first h hevent hnone
        rw [hok hevent hnone, if_pos rfl] at hfirst
        rw [addEventListener, hfirst]
        refine ⟨hk.pending, ?_, ?_⟩
        · simp [addTrackingArea, hareas]
        · simp [addTrackingArea, hareas]
      · rw [addEventListener, listenerAdded_further h hevent hnone]
        exact ⟨hk.pending, hk.areas, hk.known⟩

/-! ## Removing a listener -/

/-- Removing a listener of another event changes nothing of the tracking. -/
theorem removeEventListener_other (hs : s.exited = false) {event : Event} (func : F)
    (hevent : event.isMouse = false) : removeEventListener s event func =
      { s with events := Function.update s.events event ((s.events event).erase func) } := by
  simp [removeEventListener, listenerRemoved, hevent, hs]

/-- A mouse listener is removed and others are left. -/
theorem removeEventListener_further (hs : s.exited = false) {event : Event} (func : F)
    (hevent : event.isMouse = true) (hn : s.needsMouseTracking ≠ 1) :
    removeEventListener s event func =
      { s with
        needsMouseTracking := s.needsMouseTracking - 1
        events := Function.update s.events event ((s.events event).erase func) } := by
  have hnot : ¬ s.needsMouseTracking - 1 = 0 := by omega
  simp [removeEventListener, listenerRemoved, hevent, hs, hnot]

/-- The last mouse listener is removed, and the area with it. -/
theorem removeEventListener_last (hs : s.exited = false) {event : Event} (func : F)
    (hevent : event.isMouse = true) (hn : s.needsMouseTracking = 1) {area : Nat}
    (harea : s.trackingArea = some area) :
    removeEventListener s event func =
      { s with
        needsMouseTracking := 0
        trackingArea := none
        areas := s.areas.erase area
        released := s.released ++ [area]
        events := Function.update s.events event ((s.events event).erase func) } := by
  simp [removeEventListener, listenerRemoved, hevent, hs, hn, harea]

/-- A listener for the mouse that is removed does not count any more. -/
theorem registered_erase (events : Event → List F) {event : Event} {func : F}
    (hevent : event.isMouse = true) (hmem : func ∈ events event) :
    registered (Function.update events event ((events event).erase func)) + 1 =
      registered events := by
  have hcount := registered_update events hevent ((events event).erase func)
  have hlength := List.length_erase_of_mem hmem
  have hpos := List.length_pos_of_mem hmem
  omega

omit [DecidableEq F] in
/-- The area that is known is the one on the view. -/
theorem Kept.exists_area (hk : Kept s) (h : Tracked s) (hsome : 0 < registered s.events) :
    ∃ area, s.trackingArea = some area ∧ s.areas = [area] := by
  have hne := h.installed.mpr hsome
  rw [hk.areas] at hne
  cases harea : s.trackingArea with
  | none =>
      rw [harea] at hne
      exact absurd rfl hne
  | some area =>
      refine ⟨area, rfl, ?_⟩
      rw [hk.areas, harea]
      rfl

/-- Removing a registered mouse listener. -/
theorem tracked_remove (hs : s.exited = false) (h : Tracked s) (hk : Kept s) {event : Event}
    {func : F} (hevent : event.isMouse = true) (hmem : func ∈ s.events event) :
    Tracked (removeEventListener s event func) ∧ Kept (removeEventListener s event func) := by
  have hcount := registered_erase s.events hevent hmem
  have hcounted := h.counted
  by_cases hn : s.needsMouseTracking = 1
  · obtain ⟨area, harea, hareas⟩ := hk.exists_area h (by omega)
    have hnone : registered (Function.update s.events event ((s.events event).erase func)) = 0 := by
      omega
    rw [removeEventListener_last hs func hevent hn harea]
    refine ⟨⟨?_, ?_, ?_⟩, hk.pending, ?_, ?_⟩
    · simp only [hnone]
      rfl
    · simp [hnone, hareas]
    · intro a
      have hbefore := h.released a
      have hlt := hk.known area (by rw [hareas]; exact List.mem_cons_self)
      simp only [hareas, List.mem_singleton] at hbefore
      simp only [hareas, List.erase_cons_head, List.count_append, List.not_mem_nil,
        not_false_eq_true, and_true, hbefore, List.count_singleton, beq_iff_eq]
      split_ifs <;> omega
    · simp [hareas]
    · simp [hareas]
  · rw [removeEventListener_further hs func hevent hn]
    refine ⟨⟨?_, ?_, h.released⟩, hk.pending, hk.areas, hk.known⟩
    · simp only
      omega
    · have hne := h.installed.mpr (by omega)
      exact iff_of_true hne (by simp only; omega)

omit [DecidableEq F] in
/-- A removed listener lowers the count by one and leaves the listeners as they are. -/
theorem listenerRemoved_frame (s : State F) {event : Event} (hevent : event.isMouse = true) :
    (listenerRemoved s event).needsMouseTracking = s.needsMouseTracking - 1 ∧
      (listenerRemoved s event).events = s.events := by
  simp only [listenerRemoved, hevent, if_true]
  split_ifs
  · cases s.trackingArea <;> exact ⟨rfl, rfl⟩
  · exact ⟨rfl, rfl⟩

/-- A removal that finds no listener is counted all the same. -/
theorem not_tracked_remove (h : Tracked s) {event : Event} {func : F}
    (hevent : event.isMouse = true) (hmem : func ∉ s.events event) :
    ¬ Tracked (removeEventListener s event func) := by
  obtain ⟨hn, hevents⟩ := listenerRemoved_frame s hevent
  have herase : (s.events event).erase func = s.events event := List.erase_of_not_mem hmem
  intro ht
  have hcounted := ht.counted
  simp only [removeEventListener] at hcounted
  split_ifs at hcounted
  · rw [hn, hevents, h.counted] at hcounted
    omega
  · simp only [hn, hevents, herase, Function.update_eq_self, h.counted] at hcounted
    omega

/-- A removal keeps the tracking exactly if the listener was there. -/
theorem tracked_remove_iff (hs : s.exited = false) (h : Tracked s) (hk : Kept s) (event : Event)
    (func : F) : (Tracked (removeEventListener s event func) ↔
        (event.isMouse = true → func ∈ s.events event)) ∧
      (Tracked (removeEventListener s event func) → Kept (removeEventListener s event func)) := by
  cases hevent : event.isMouse with
  | false =>
      rw [removeEventListener_other hs func hevent]
      have hsame := registered_other s.events hevent ((s.events event).erase func)
      have ht : Tracked { s with
          events := Function.update s.events event ((s.events event).erase func) } := by
        refine ⟨?_, ?_, h.released⟩
        · simp only [hsame]
          exact h.counted
        · simp only [hsame]
          exact h.installed
      exact ⟨iff_of_true ht nofun, fun _ => ⟨hk.pending, hk.areas, hk.known⟩⟩
  | true =>
      by_cases hmem : func ∈ s.events event
      · obtain ⟨ht, hkept⟩ := tracked_remove hs h hk hevent hmem
        exact ⟨iff_of_true ht (fun _ => hmem), fun _ => hkept⟩
      · have hnot := not_tracked_remove h hevent hmem
        exact ⟨iff_of_false hnot (fun hok => hmem (hok rfl)), fun ht => absurd ht hnot⟩

/-! ## Runs -/

/-- A step keeps the tracking exactly if it is in order. -/
theorem tracked_step {a : Action F} (h : Tracked s) (hk : Kept s) (ht : step s a = some t) :
    (Tracked t ↔ Ok s a) ∧ (Tracked t → Kept t) := by
  cases hs : s.exited with
  | true => simp [step, hs] at ht
  | false =>
      simp only [step, hs, Bool.false_eq_true, if_false] at ht
      cases a with
      | addEventListener event func =>
          obtain rfl := Option.some.inj ht
          exact ⟨tracked_add_iff h event func, kept_add h hk event func⟩
      | removeEventListener event func =>
          obtain rfl := Option.some.inj ht
          exact tracked_remove_iff hs h hk event func
      | attach w =>
          obtain rfl := Option.some.inj ht
          rw [hk.pending]
          exact ⟨iff_of_true ⟨h.counted, h.installed, h.released⟩ trivial,
            fun _ => ⟨rfl, hk.areas, hk.known⟩⟩
      | window w =>
          obtain rfl := Option.some.inj ht
          exact ⟨iff_of_true ⟨h.counted, h.installed, h.released⟩ trivial,
            fun _ => ⟨hk.pending, hk.areas, hk.known⟩⟩

/-- **Mouse tracking.**  Along a run the count is the number of mouse listeners, an
area is on the view while there are any, and each area is released once, exactly as
long as each first listener is added in a window and only what is registered is
removed. -/
theorem mouse_tracked_iff {as : List (Action F)}
    (hrun : Meets step (fun _ _ => True) start as) :
    Throughout step Tracked (start : State F) as ↔ Meets step Ok start as := by
  have hkept : Kept (start : State F) := ⟨rfl, rfl, nofun⟩
  have hstart : Tracked (start : State F) := by
    refine ⟨rfl, ?_, ?_⟩
    · exact iff_of_false (fun hne => hne rfl) (Nat.lt_irrefl 0)
    · intro a
      rfl
  exact throughout_iff_meets_of_kept (fun _ _ _ hk h ht hstep => (tracked_step h hk hstep).2 ht)
    (fun _ _ _ hk h hstep => (tracked_step h hk hstep).1) hkept hstart hrun

/-- Two listeners come and go in a window. -/
theorem mouse_tracked_in_window :
    Throughout step Tracked (start : State Nat)
      [.attach true, .addEventListener .mouseenter 1, .addEventListener .mousemove 2,
        .removeEventListener .mouseenter 1, .removeEventListener .mousemove 2] := by
  have hrun : Meets step (fun _ _ => True) (start : State Nat)
      [.attach true, .addEventListener .mouseenter 1, .addEventListener .mousemove 2,
        .removeEventListener .mouseenter 1, .removeEventListener .mousemove 2] :=
    ⟨trivial, trivial, trivial, trivial, trivial, trivial⟩
  refine (mouse_tracked_iff hrun).mpr ⟨trivial, fun _ _ => rfl, fun _ _ => rfl, ?_, ?_, trivial⟩
  · exact fun _ => List.mem_cons_self
  · exact fun _ => List.mem_cons_self

/-- **A negative count.**  What is no listener is removed. -/
theorem unregistered_removed :
    ¬ Throughout step Tracked (start : State Nat) [.removeEventListener .mousemove 1] := by
  intro h
  have hcounted : (-1 : Int) = 0 := (h.2 _ rfl).counted
  exact absurd hcounted (by decide)

end MouseTracking

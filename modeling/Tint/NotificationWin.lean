import Tint.Transition
import Mathlib.Data.List.Count
import Mathlib.Data.List.Nodup
import Mathlib.Algebra.Order.Ring.Nat
import Mathlib.Logic.Function.Basic

/-!
# Notification on Windows

Each dispatch opens a window and starts a timer, after which the window moves out and is closed
one second later.  All dispatches of a notification share one `timeoutHandle`, which is that of
the last one.  A press on the contents clears the timer with that handle and moves its own window
out; a press on the button is one on the contents first, and moves the window out once more.

* `lifecycle_iff` -- each press fires one event with its area, and in the end every window has
  been closed just once, exactly when each press is on the contents of the window whose timer is
  the last one and has not expired;
* `button_fires_twice` -- a press on the button fires two events.
-/

namespace NotificationWin

open Transition

/-- Where a click may land. -/
inductive Area
  | contents
  | button
  deriving DecidableEq

/-- What a timer does: `animateOut`, or the end of it. -/
inductive Callback
  | animateOut (w : Nat)
  | close (w : Nat)
  deriving DecidableEq

/-- The window that a timer is for. -/
def Callback.window : Callback → Nat
  | .animateOut w => w
  | .close w => w

/-- A timer of `setTimeout`. -/
structure Timer where
  id : Nat
  callback : Callback
  deriving DecidableEq

/-- The variables of the constructor, the pending timers, the windows `0`, `1`, .. in the order of
their dispatch with the number of times that each was hidden and closed, and what the `click`
events told. -/
structure State where
  titlestring : String
  textstring : String
  timeoutHandle : Option Nat
  timers : List Timer
  /-- the id of the next timer -/
  created : Nat
  windows : Nat
  closed : Nat → Nat
  clicks : List Area

/-- Before any notification. -/
def start : State := ⟨"", "", none, [], 0, 0, fun _ => 0, []⟩

/-- The setters, `dispatch`, a press on a window that is shown, and the expiry of a timer. -/
inductive Action
  | title (e : String)
  | text (e : String)
  | dispatch
  | press (w : Nat) (area : Area)
  | expire (timer : Timer)

/-- `setTimeout` -/
def setTimeout (s : State) (callback : Callback) : State :=
  { s with timers := s.timers ++ [⟨s.created, callback⟩], created := s.created + 1 }

/-- `clearTimeout(timeoutHandle)` -/
def clearTimeout (s : State) : State :=
  { s with timers := s.timers.filter fun timer => some timer.id ≠ s.timeoutHandle }

/-- `dispatch` -/
def dispatch (s : State) : State :=
  if s.titlestring = "" ∨ s.textstring = "" then s
  else
    { setTimeout s (.animateOut s.windows) with
      timeoutHandle := some s.created
      windows := s.windows + 1 }

/-- `animateOut` -/
def animateOut (s : State) (w : Nat) : State := setTimeout s (.close w)

/-- `mouseDown`, which listens to the contents of the window -/
def mouseDown (s : State) (w : Nat) : State :=
  let s := clearTimeout s
  animateOut { s with clicks := s.clicks ++ [.contents] } w

/-- `mouseDownSecond`, which listens to its button -/
def mouseDownSecond (s : State) (w : Nat) : State :=
  animateOut { s with clicks := s.clicks ++ [.button] } w

/-- The event goes through the content panel to the button. -/
def press (s : State) (w : Nat) : Area → State
  | .contents => mouseDown s w
  | .button => mouseDownSecond (mouseDown s w) w

/-- A timer has expired. -/
def expire (s : State) (timer : Timer) : State :=
  let s := { s with timers := s.timers.erase timer }
  match timer.callback with
  | .animateOut w => animateOut s w
  | .close w => { s with closed := Function.update s.closed w (s.closed w + 1) }

/-- One step of the program or its user. -/
def step (s : State) : Action → Option State
  | .title e => some { s with titlestring := e }
  | .text e => some { s with textstring := e }
  | .dispatch => some (dispatch s)
  | .press w area => if w < s.windows ∧ s.closed w = 0 then some (press s w area) else none
  | .expire timer => if timer ∈ s.timers then some (expire s timer) else none

/-! ## The property and the condition -/

/-- A press fires one event, with its area, and no window is closed that has been closed. -/
def Right (s : State) : Action → Prop
  | .press w area => (press s w area).clicks = s.clicks ++ [area]
  | .expire timer => ∀ w, timer.callback = .close w → s.closed w = 0
  | _ => True

/-- The actions that are owed. -/
def Expires : Action → Prop
  | .expire _ => True
  | _ => False

/-- Each window was closed once. -/
def ClosedOnce (s : State) : Prop := ∀ w < s.windows, s.closed w = 1

/-- **The lifecycle.**  The steps are right, and when the timers have expired after them, which
they do, every window has been closed once. -/
def Lifecycle (s : State) (actions : List Action) : Prop :=
  Meets step Right s actions ∧ ∀ t, run step s actions = some t → Settles step Expires ClosedOnce t

/-- **The condition.**  A press is on the contents of the window whose timer is the last one and
has not expired. -/
def Current (s : State) : Action → Prop
  | .press w area => area = .contents ∧
      ∃ timer ∈ s.timers, s.timeoutHandle = some timer.id ∧ timer.callback.window = w
  | _ => True

/-! ## Counting -/

/-- The timer is for this window. -/
def Timer.isFor (w : Nat) (timer : Timer) : Bool := timer.callback.window = w

/-- How often a window has been closed and still will be. -/
def total (s : State) (w : Nat) : Nat := s.closed w + s.timers.countP (Timer.isFor w)

/-- What holds of the timers in all states. -/
structure Numbered (s : State) : Prop where
  timers : ∀ timer ∈ s.timers, timer.id < s.created ∧ timer.callback.window < s.windows
  distinct : (s.timers.map Timer.id).Nodup
  handle : ∀ id, s.timeoutHandle = some id → id < s.created
  fresh : ∀ w, s.windows ≤ w → s.closed w = 0

section Counting

variable {s : State}

theorem Timer.isFor_iff {w : Nat} {timer : Timer} :
    timer.isFor w = true ↔ timer.callback.window = w := decide_eq_true_iff

theorem total_setTimeout (s : State) (callback : Callback) (w : Nat) :
    total (setTimeout s callback) w = total s w + if callback.window = w then 1 else 0 := by
  simp only [total, setTimeout, List.countP_append, List.countP_singleton, Timer.isFor_iff,
    Nat.add_assoc]

/-- Clearing the timer of another window. -/
theorem total_clearTimeout {w : Nat}
    (h : ∀ timer ∈ s.timers, s.timeoutHandle = some timer.id → timer.callback.window ≠ w) :
    total (clearTimeout s) w = total s w := by
  simp only [total, clearTimeout, List.countP_filter]
  congr 1
  refine List.countP_congr fun timer htimer => ?_
  simp only [Bool.and_eq_true, decide_eq_true_eq, ne_eq, Timer.isFor]
  exact ⟨fun hboth => hboth.1, fun hw => ⟨hw, fun heq => h timer htimer heq.symm hw⟩⟩

/-- The timers that are left when one is taken out. -/
theorem countP_timers {timer : Timer} (h : timer ∈ s.timers) (w : Nat) :
    s.timers.countP (Timer.isFor w) =
      (s.timers.erase timer).countP (Timer.isFor w) +
        if timer.callback.window = w then 1 else 0 := by
  simp only [(List.perm_cons_erase h).countP_eq, List.countP_cons, Timer.isFor_iff]

/-- Two timers with one id are the same. -/
theorem Numbered.eq_of_id (h : Numbered s) {timer other : Timer} (htimer : timer ∈ s.timers)
    (hother : other ∈ s.timers) (hid : timer.id = other.id) : timer = other :=
  List.inj_on_of_nodup_map h.distinct htimer hother hid

/-- Clearing a timer takes it out. -/
theorem Numbered.clearTimeout_eq (h : Numbered s) {timer : Timer} (htimer : timer ∈ s.timers)
    (hhandle : s.timeoutHandle = some timer.id) :
    clearTimeout s = { s with timers := s.timers.erase timer } := by
  have hnodup : s.timers.Nodup := List.Nodup.of_map Timer.id h.distinct
  rw [clearTimeout, List.Nodup.erase_eq_filter hnodup timer]
  congr 1
  refine List.filter_congr fun other hother => ?_
  rw [hhandle, bne, Bool.eq_iff_iff, decide_eq_true_eq, Bool.not_eq_true', beq_eq_false_iff_ne]
  constructor
  · exact fun hne heq => hne (by rw [heq])
  · exact fun hne heq => hne (h.eq_of_id hother htimer (Option.some.inj heq))

/-- Expiring moves a window from the timers to those that are closed. -/
theorem total_expire {timer : Timer} (h : timer ∈ s.timers) (w : Nat) :
    total (expire s timer) w = total s w := by
  obtain ⟨id, callback⟩ := timer
  cases callback with
  | animateOut u =>
      have hcount : _ = _ + if u = w then 1 else 0 := countP_timers h w
      have hexpire : expire s ⟨id, .animateOut u⟩ =
          setTimeout { s with timers := s.timers.erase ⟨id, .animateOut u⟩ } (.close u) := rfl
      rw [hexpire, total_setTimeout, total, total, hcount, Nat.add_assoc]
      rfl
  | close u =>
      have hcount : _ = _ + if u = w then 1 else 0 := countP_timers h w
      have hexpire : total (expire s ⟨id, .close u⟩) w =
          Function.update s.closed u (s.closed u + 1) w +
            (s.timers.erase ⟨id, .close u⟩).countP (Timer.isFor w) := rfl
      rw [hexpire, total, hcount]
      by_cases huw : u = w
      · subst huw
        rw [Function.update_self, if_pos rfl]
        omega
      · rw [Function.update_of_ne (Ne.symm huw), if_neg huw, Nat.add_zero]

/-- A timer for a window that is there keeps the windows numbered. -/
theorem numbered_setTimeout (h : Numbered s) {callback : Callback}
    (hwindow : callback.window < s.windows) : Numbered (setTimeout s callback) := by
  refine ⟨fun timer htimer => ?_, ?_, fun id hid => ?_, h.fresh⟩
  · rcases List.mem_append.mp htimer with hold | hnew
    · exact ⟨Nat.lt_succ_of_lt (h.timers timer hold).1, (h.timers timer hold).2⟩
    · obtain rfl := List.mem_singleton.mp hnew
      exact ⟨Nat.lt_succ_self _, hwindow⟩
  · simp only [setTimeout, List.map_append, List.map_singleton]
    refine List.nodup_append.mpr ⟨h.distinct, List.nodup_singleton _, fun id hid id' hid' => ?_⟩
    obtain ⟨timer, htimer, rfl⟩ := List.mem_map.mp hid
    rw [List.mem_singleton.mp hid']
    exact Nat.ne_of_lt (h.timers timer htimer).1
  · exact Nat.lt_succ_of_lt (h.handle id hid)

/-- Some timers are taken out. -/
theorem Numbered.sublist (h : Numbered s) {timers : List Timer} (hsub : timers.Sublist s.timers) :
    Numbered { s with timers } :=
  ⟨fun timer htimer => h.timers timer (hsub.subset htimer), h.distinct.sublist (hsub.map _),
    h.handle, h.fresh⟩

/-- A timer that expires keeps the windows numbered. -/
theorem numbered_expire (h : Numbered s) {timer : Timer} (htimer : timer ∈ s.timers) :
    Numbered (expire s timer) := by
  have hrest : Numbered { s with timers := s.timers.erase timer } :=
    h.sublist List.erase_sublist
  have hwindow := (h.timers timer htimer).2
  obtain ⟨id, callback⟩ := timer
  cases callback with
  | animateOut w => exact numbered_setTimeout hrest hwindow
  | close w =>
      refine ⟨hrest.timers, hrest.distinct, hrest.handle, fun u hu => ?_⟩
      have hne : u ≠ w := fun heq => Nat.not_lt.mpr hu (heq ▸ hwindow)
      exact (Function.update_of_ne hne _ _).trans (h.fresh u hu)

theorem Numbered.fire (h : Numbered s) (clicks : List Area) : Numbered { s with clicks } :=
  ⟨h.timers, h.distinct, h.handle, h.fresh⟩

theorem numbered_animateOut (h : Numbered s) {w : Nat} (hw : w < s.windows) :
    Numbered (animateOut s w) := by
  have hwindow : (Callback.close w).window < s.windows := hw
  exact numbered_setTimeout h hwindow

/-- A press keeps the windows numbered. -/
theorem numbered_press (h : Numbered s) {w : Nat} (hw : w < s.windows) (area : Area) :
    Numbered (press s w area) := by
  have hcleared : Numbered (clearTimeout s) := h.sublist List.filter_sublist
  have hcontents : Numbered (mouseDown s w) :=
    numbered_animateOut (hcleared.fire (s.clicks ++ [Area.contents])) hw
  cases area with
  | contents => exact hcontents
  | button => exact numbered_animateOut (hcontents.fire _) hw

/-- A new notification keeps the windows numbered. -/
theorem numbered_dispatch (h : Numbered s) : Numbered (dispatch s) := by
  rw [dispatch]
  split
  · exact h
  · have hmore : Numbered { s with windows := s.windows + 1 } :=
      ⟨fun timer htimer => ⟨(h.timers timer htimer).1, Nat.lt_succ_of_lt (h.timers timer htimer).2⟩,
        h.distinct, h.handle, fun w hw => h.fresh w (Nat.le_of_succ_le hw)⟩
    have hwindow : (Callback.animateOut s.windows).window < s.windows + 1 := Nat.lt_succ_self _
    have hnew := numbered_setTimeout hmore hwindow
    refine ⟨hnew.timers, hnew.distinct, fun id hid => ?_, hnew.fresh⟩
    obtain rfl := Option.some.inj hid
    exact Nat.lt_succ_self _

/-- Each step keeps the windows numbered. -/
theorem numbered_step (h : Numbered s) {a : Action} {t : State} (hstep : step s a = some t) :
    Numbered t := by
  cases a with
  | title e =>
      obtain rfl := Option.some.inj hstep
      exact ⟨h.timers, h.distinct, h.handle, h.fresh⟩
  | text e =>
      obtain rfl := Option.some.inj hstep
      exact ⟨h.timers, h.distinct, h.handle, h.fresh⟩
  | dispatch =>
      obtain rfl := Option.some.inj hstep
      exact numbered_dispatch h
  | press w area =>
      simp only [step, Option.ite_none_right_eq_some] at hstep
      obtain ⟨⟨hw, -⟩, hstep⟩ := hstep
      obtain rfl := Option.some.inj hstep
      exact numbered_press h hw area
  | expire timer =>
      simp only [step, Option.ite_none_right_eq_some] at hstep
      obtain ⟨htimer, hstep⟩ := hstep
      obtain rfl := Option.some.inj hstep
      exact numbered_expire h htimer

/-- What a dispatch adds: one close of its window. -/
theorem total_dispatch {w : Nat} (hw : w < s.windows) :
    total (dispatch s) w = total s w := by
  rw [dispatch]
  split
  · rfl
  · have hne : s.windows ≠ w := Nat.ne_of_gt hw
    have hcount := total_setTimeout s (.animateOut s.windows) w
    rwa [Callback.window, if_neg hne, Nat.add_zero] at hcount

/-- A new window is to be closed once. -/
theorem total_dispatch_new (h : Numbered s) (hnew : s.windows < (dispatch s).windows) :
    total (dispatch s) s.windows = 1 := by
  rw [dispatch] at hnew ⊢
  split at hnew
  · exact absurd hnew (Nat.lt_irrefl _)
  · next htexts =>
    rw [if_neg htexts]
    have hcount := total_setTimeout s (.animateOut s.windows) s.windows
    have hnone : s.timers.countP (Timer.isFor s.windows) = 0 := by
      refine List.countP_eq_zero.mpr fun timer htimer hfor => ?_
      have hlt := (h.timers timer htimer).2
      rw [Timer.isFor_iff.mp hfor] at hlt
      exact Nat.lt_irrefl _ hlt
    have hself : total s s.windows = 0 := by rw [total, hnone, h.fresh _ (Nat.le_refl _)]
    rwa [Callback.window, if_pos rfl, hself] at hcount

/-- A press on the contents, as far as the windows are concerned. -/
theorem total_mouseDown (s : State) (w u : Nat) :
    total (mouseDown s w) u = total (clearTimeout s) u + if w = u then 1 else 0 :=
  total_setTimeout { clearTimeout s with clicks := s.clicks ++ [.contents] } (.close w) u

end Counting

/-! ## Runs -/

section Runs

variable {s : State}

/-- Every window is closed once, sooner or later. -/
structure Good (s : State) : Prop extends Numbered s where
  once : ∀ w < s.windows, total s w = 1

/-- A window that is closed twice or more, which no press can prevent any longer. -/
structure Doubled (s : State) (w : Nat) : Prop extends Numbered s where
  window : w < s.windows
  twice : 2 ≤ total s w
  notLast : ∀ timer ∈ s.timers, s.timeoutHandle = some timer.id → timer.callback.window ≠ w

theorem good_start : Good start :=
  ⟨⟨fun timer h => absurd h List.not_mem_nil, List.nodup_nil, fun id h => (by cases h),
    fun _ _ => rfl⟩, fun w hw => absurd hw (Nat.not_lt_zero w)⟩

/-- At rest, there are no timers. -/
theorem timers_of_rest (h : AtRest step Expires s) : s.timers = [] := by
  cases htimers : s.timers with
  | nil => rfl
  | cons timer rest =>
      have hnone := h (.expire timer) trivial
      rw [step, if_pos (htimers ▸ List.mem_cons_self)] at hnone
      cases hnone

theorem closed_of_rest (h : AtRest step Expires s) (w : Nat) : s.closed w = total s w := by
  rw [total, timers_of_rest h, List.countP_nil, Nat.add_zero]

/-- The dispatches and the timers change no total, and the condition keeps it. -/
theorem good_step (h : Good s) {a : Action} (hcurrent : Current s a) {t : State}
    (hstep : step s a = some t) : Good t := by
  refine ⟨numbered_step h.toNumbered hstep, ?_⟩
  cases a with
  | title e =>
      obtain rfl := Option.some.inj hstep
      exact h.once
  | text e =>
      obtain rfl := Option.some.inj hstep
      exact h.once
  | dispatch =>
      obtain rfl := Option.some.inj hstep
      intro w hw
      rcases Nat.lt_or_ge w s.windows with hlt | hge
      · rw [total_dispatch hlt, h.once w hlt]
      · have hle : (dispatch s).windows ≤ s.windows + 1 := by
          rw [dispatch]
          split
          · exact Nat.le_succ _
          · exact Nat.le_refl _
        obtain rfl : w = s.windows := by omega
        exact total_dispatch_new h.toNumbered hw
  | press w area =>
      simp only [step, Option.ite_none_right_eq_some] at hstep
      obtain ⟨-, hstep⟩ := hstep
      obtain rfl := Option.some.inj hstep
      obtain ⟨rfl, timer, htimer, hhandle, hwindow⟩ := hcurrent
      intro u hu
      have hcount := countP_timers htimer u
      have htotal : s.closed u + _ = 1 := h.once u hu
      rw [hcount, hwindow, ← Nat.add_assoc] at htotal
      rw [press, total_mouseDown, h.clearTimeout_eq htimer hhandle]
      exact htotal
  | expire timer =>
      simp only [step, Option.ite_none_right_eq_some] at hstep
      obtain ⟨htimer, hstep⟩ := hstep
      obtain rfl := Option.some.inj hstep
      intro w hw
      have hwindows : (expire s timer).windows = s.windows := by
        obtain ⟨id, callback⟩ := timer
        cases callback <;> rfl
      rw [hwindows] at hw
      rw [total_expire htimer, h.once w hw]

/-- A timer that has just been set is not the last one of a dispatch. -/
theorem Numbered.mem_of_handle (h : Numbered s) {callback : Callback} {timer : Timer}
    (htimer : timer ∈ (setTimeout s callback).timers) (hhandle : s.timeoutHandle = some timer.id) :
    timer ∈ s.timers := by
  rcases List.mem_append.mp htimer with hold | hnew
  · exact hold
  · obtain rfl := List.mem_singleton.mp hnew
    exact absurd (h.handle _ hhandle) (Nat.lt_irrefl _)

/-- After a press, the last timer is not pending. -/
theorem press_cleared (h : Numbered s) {w : Nat} (hw : w < s.windows) (area : Area) :
    ∀ timer ∈ (press s w area).timers, s.timeoutHandle ≠ some timer.id := by
  have hcleared : Numbered (clearTimeout s) := h.sublist List.filter_sublist
  have hcontents : ∀ timer ∈ (mouseDown s w).timers, s.timeoutHandle ≠ some timer.id := by
    intro timer htimer hhandle
    have hold := (hcleared.fire (s.clicks ++ [Area.contents])).mem_of_handle htimer hhandle
    have hne := (List.mem_filter.mp hold).2
    rw [hhandle] at hne
    simp at hne
  cases area with
  | contents => exact hcontents
  | button =>
      intro timer htimer hhandle
      have hnumbered : Numbered (mouseDown s w) := numbered_press h hw .contents
      exact hcontents timer
        ((hnumbered.fire (_ ++ [Area.button])).mem_of_handle htimer hhandle) hhandle

theorem press_windows (s : State) (w : Nat) (area : Area) :
    (press s w area).windows = s.windows ∧ (press s w area).timeoutHandle = s.timeoutHandle := by
  cases area <;> exact ⟨rfl, rfl⟩

/-- A press takes nothing from a window whose timer it does not clear. -/
theorem total_press_ge {w u : Nat} (area : Area)
    (h : ∀ timer ∈ s.timers, s.timeoutHandle = some timer.id → timer.callback.window ≠ u) :
    total s u + (if w = u then 1 else 0) ≤ total (press s w area) u := by
  have hcontents := total_mouseDown s w u
  rw [total_clearTimeout h] at hcontents
  cases area with
  | contents => exact Nat.le_of_eq hcontents.symm
  | button =>
      have hbutton : total (press s w .button) u =
          total (mouseDown s w) u + if w = u then 1 else 0 :=
        total_setTimeout { mouseDown s w with clicks := (mouseDown s w).clicks ++ [.button] }
          (.close w) u
      omega

/-- It stays so. -/
theorem doubled_step {w : Nat} (h : Doubled s w) {a : Action} {t : State}
    (hstep : step s a = some t) : Doubled t w := by
  have hnumbered := numbered_step h.toNumbered hstep
  cases a with
  | title e =>
      obtain rfl := Option.some.inj hstep
      exact ⟨hnumbered, h.window, h.twice, h.notLast⟩
  | text e =>
      obtain rfl := Option.some.inj hstep
      exact ⟨hnumbered, h.window, h.twice, h.notLast⟩
  | dispatch =>
      obtain rfl := Option.some.inj hstep
      have htwice : 2 ≤ total (dispatch s) w := (total_dispatch h.window).symm ▸ h.twice
      by_cases htexts : s.titlestring = "" ∨ s.textstring = ""
      · rw [dispatch, if_pos htexts]
        exact h
      · refine ⟨hnumbered, ?_, htwice, ?_⟩
        · rw [dispatch, if_neg htexts]
          exact Nat.lt_succ_of_lt h.window
        · rw [dispatch, if_neg htexts]
          intro timer htimer hhandle
          rcases List.mem_append.mp htimer with hold | hnew
          · have hlt := (h.timers timer hold).1
            rw [← Option.some.inj hhandle] at hlt
            exact absurd hlt (Nat.lt_irrefl _)
          · obtain rfl := List.mem_singleton.mp hnew
            exact Nat.ne_of_gt h.window
  | press u area =>
      simp only [step, Option.ite_none_right_eq_some] at hstep
      obtain ⟨⟨hu, -⟩, hstep⟩ := hstep
      obtain rfl := Option.some.inj hstep
      obtain ⟨hwindows, hhandle⟩ := press_windows s u area
      refine ⟨hnumbered, hwindows.symm ▸ h.window, ?_, fun timer htimer hlast => ?_⟩
      · have hge := total_press_ge (w := u) area h.notLast
        have htwice := h.twice
        omega
      · rw [hhandle] at hlast
        exact absurd hlast (press_cleared h.toNumbered hu area timer htimer)
  | expire timer =>
      simp only [step, Option.ite_none_right_eq_some] at hstep
      obtain ⟨htimer, hstep⟩ := hstep
      obtain rfl := Option.some.inj hstep
      have htwice : 2 ≤ total (expire s timer) w := (total_expire htimer w).symm ▸ h.twice
      have hrest : Numbered { s with timers := s.timers.erase timer } :=
        h.sublist List.erase_sublist
      obtain ⟨id, callback⟩ := timer
      cases callback with
      | animateOut u =>
          refine ⟨hnumbered, h.window, htwice, fun other hother hlast => ?_⟩
          exact h.notLast other (List.mem_of_mem_erase (hrest.mem_of_handle hother hlast)) hlast
      | close u =>
          exact ⟨hnumbered, h.window, htwice, fun other hother hlast =>
            h.notLast other (List.mem_of_mem_erase hother) hlast⟩

/-- A press of another kind closes its window twice, or fires two events. -/
theorem doubled_of_press (h : Good s) {w : Nat} {area : Area} {t : State}
    (hcurrent : ¬ Current s (.press w area)) (hright : Right s (.press w area))
    (hstep : step s (.press w area) = some t) : ∃ w, Doubled t w := by
  have hnumbered := numbered_step h.toNumbered hstep
  simp only [step, Option.ite_none_right_eq_some] at hstep
  obtain ⟨⟨hw, -⟩, hstep⟩ := hstep
  obtain rfl := Option.some.inj hstep
  cases area with
  | button =>
      have hlength := congrArg List.length (show (press s w .button).clicks = _ from hright)
      simp [press, mouseDownSecond, mouseDown, animateOut, setTimeout, clearTimeout] at hlength
  | contents =>
      have hnotLast : ∀ timer ∈ s.timers, s.timeoutHandle = some timer.id →
          timer.callback.window ≠ w := fun timer htimer hhandle hwindow =>
        hcurrent ⟨rfl, timer, htimer, hhandle, hwindow⟩
      obtain ⟨hwindows, hhandle⟩ := press_windows s w .contents
      refine ⟨w, hnumbered, hwindows.symm ▸ hw, ?_, fun timer htimer hlast => ?_⟩
      · have hge := total_press_ge (w := w) .contents hnotLast
        rwa [h.once w hw, if_pos rfl] at hge
      · rw [hhandle] at hlast
        exact absurd hlast (press_cleared h.toNumbered hw .contents timer htimer)

/-- A step on the current window is in order. -/
theorem right_of_current (h : Good s) {a : Action} (hcurrent : Current s a) {t : State}
    (hstep : step s a = some t) : Right s a := by
  cases a with
  | title e => trivial
  | text e => trivial
  | dispatch => trivial
  | press w area =>
      obtain ⟨rfl, -⟩ := hcurrent
      exact rfl
  | expire timer =>
      simp only [step, Option.ite_none_right_eq_some] at hstep
      intro w hclose
      have hwindow : timer.callback.window = w := by rw [hclose, Callback.window]
      have hlt : w < s.windows := hwindow ▸ (h.timers timer hstep.1).2
      have htotal : s.closed w + _ = 1 := h.once w hlt
      rw [countP_timers hstep.1, if_pos hwindow] at htotal
      omega

/-! ## The timers run dry -/

/-- How many timers a callback is from its end. -/
def Callback.turns : Callback → Nat
  | .animateOut _ => 2
  | .close _ => 1

/-- How many timers are going to expire. -/
def turns (s : State) : Nat := (s.timers.map fun timer => timer.callback.turns).sum

theorem turns_setTimeout (s : State) (callback : Callback) :
    turns (setTimeout s callback) = turns s + callback.turns := by
  simp only [turns, setTimeout, List.map_append, List.sum_append, List.map_singleton,
    List.sum_singleton]

/-- A timer that expires leaves fewer to come. -/
theorem turns_expire {timer : Timer} (h : timer ∈ s.timers) : turns (expire s timer) < turns s := by
  have hrest :
      turns s = timer.callback.turns + turns { s with timers := s.timers.erase timer } := by
    have hperm := (List.perm_cons_erase h).map fun timer => timer.callback.turns
    exact hperm.sum_nat
  rw [hrest]
  obtain ⟨id, callback⟩ := timer
  cases callback with
  | animateOut w =>
      have hclose : turns (expire s ⟨id, .animateOut w⟩) = _ + 1 :=
        turns_setTimeout { s with timers := s.timers.erase ⟨id, .animateOut w⟩ } (.close w)
      rw [hclose, Callback.turns]
      omega
  | close w => exact Nat.lt_add_of_pos_left Nat.one_pos

/-- Each timer that expires leads closer to the end. -/
theorem turns_step {a : Action} {t : State} (hexpires : Expires a) (hstep : step s a = some t) :
    turns t < turns s := by
  cases a with
  | expire timer =>
      simp only [step, Option.ite_none_right_eq_some] at hstep
      obtain ⟨htimer, hstep⟩ := hstep
      obtain rfl := Option.some.inj hstep
      exact turns_expire htimer
  | title e => exact hexpires.elim
  | text e => exact hexpires.elim
  | dispatch => exact hexpires.elim
  | press w area => exact hexpires.elim

/-- From a good state all windows are closed once. -/
theorem settles_of_good (h : Good s) : Settles step Expires ClosedOnce s := by
  have hself : Reaches step Current s s := .start
  refine hself.settles ?_ turns (fun _ _ _ => turns_step) ?_
  · intro s a hexpires
    cases a with
    | expire timer => trivial
    | title e => trivial
    | text e => trivial
    | dispatch => trivial
    | press w area => exact hexpires.elim
  · intro t hreaches hrest w hw
    have hgood : Good t := hreaches.invariant Good h fun _ _ _ hgood hcurrent hstep =>
      good_step hgood hcurrent hstep
    rw [closed_of_rest hrest, hgood.once w hw]

/-- With a window that is to be closed twice, they are not. -/
theorem not_settles_of_doubled {w : Nat} (h : Doubled s w) :
    ¬ Settles step Expires ClosedOnce s := by
  intro hsettles
  obtain ⟨as, t, howed, hrun, hrest⟩ := hsettles.comes_to_rest
  have hdoubled : Doubled t w :=
    (reaches_of_run_any as hrun).invariant (Doubled · w) h fun _ _ _ hd _ => doubled_step hd
  have honce := hsettles.done_at_rest as t howed hrun hrest w hdoubled.window
  have htwice := hdoubled.twice
  rw [← closed_of_rest hrest, honce] at htwice
  omega

/-- **The lifecycle.**  All windows come and go as they should exactly when all presses meet the
condition. -/
theorem lifecycle_iff (actions : List Action) :
    Lifecycle start actions ↔ Meets step Current start actions := by
  refine meets_and_done_iff (J := Good) (K := fun s => ∃ w, Doubled s w) ?_ ?_ ?_ ?_ ?_ ?_
    good_start actions
  · exact fun _ _ _ hgood hcurrent hstep => right_of_current hgood hcurrent hstep
  · exact fun _ _ _ hgood hcurrent hstep => good_step hgood hcurrent hstep
  · exact fun _ => settles_of_good
  · intro s a t hgood hnot hright hstep
    cases a with
    | press w area => exact doubled_of_press hgood hnot hright hstep
    | title e => exact absurd trivial hnot
    | text e => exact absurd trivial hnot
    | dispatch => exact absurd trivial hnot
    | expire timer => exact absurd trivial hnot
  · intro s a t hdoubled hstep
    obtain ⟨w, hdoubled⟩ := hdoubled
    exact ⟨w, doubled_step hdoubled hstep⟩
  · intro s hdoubled
    obtain ⟨w, hdoubled⟩ := hdoubled
    exact not_settles_of_doubled hdoubled

/-- One notification, and a press on its button. -/
theorem button_fires_twice :
    ¬ ∀ actions, Meets step (fun _ _ => True) start actions → Lifecycle start actions := by
  intro hall
  have hrun := hall [.title "a", .text "b", .dispatch, .press 0 .button]
    (by simp [Meets, step, start, dispatch, setTimeout])
  have hright : Right _ (.press 0 .button) := hrun.1.2.2.2.1
  have hlength := congrArg List.length hright
  revert hlength
  decide

end Runs

end NotificationWin

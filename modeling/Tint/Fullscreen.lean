import Tint.Transition

/-!
# Fullscreen

A WPF window has no fullscreen.  `state` makes it one that is maximized and has no
frame, and remembers so in `private.fullscreen`; the listener of `StateChanged`
finds out too when a window is that or is no longer.

The state has beside this whether the window ought to be fullscreen, the style and
the resize mode in force when it last became so, and the events that are due.  The
two sides of the code do not add up: the setter saves on `this.native` what it
looks for in `this.private`, and its notification comes before the frame is gone,
so nobody sees that the window has become fullscreen.

* `fullscreen_iff` -- in a run all states are as they should be if and only if
  only a frameless window becomes fullscreen, and is not told to leave;
* `entered_unseen` -- a window that becomes fullscreen without an event.
-/

namespace Fullscreen

open Transition

/-! ## Switches -/

/-- What is logged as a switch goes from `b` to `b'`. -/
def change (b b' : Bool) : List Bool := if b = b' then [] else [b']

/-- The log has one entry for each time that a switch is turned on its way from
`b` to `b'`. -/
def Alternates : Bool → List Bool → Bool → Prop
  | b, [], b' => b = b'
  | b, x :: log, b' => x ≠ b ∧ Alternates x log b'

/-- Turns that follow on one another alternate. -/
theorem Alternates.append {b b' b'' : Bool} {log log' : List Bool} (h : Alternates b log b')
    (h' : Alternates b' log' b'') : Alternates b (log ++ log') b'' := by
  induction log generalizing b with
  | nil =>
      obtain rfl : b = b' := h
      exact h'
  | cons x log ih => exact ⟨h.1, ih h.2⟩

theorem alternates_change (b b' : Bool) : Alternates b (change b b') b' := by
  unfold change
  split
  case isTrue hsame => exact hsame
  case isFalse hturned => exact ⟨Ne.symm hturned, rfl⟩

/-- The log says where the switch is. -/
theorem Alternates.unique {b b' b'' : Bool} {log : List Bool} (h : Alternates b log b')
    (h' : Alternates b log b'') : b' = b'' := by
  induction log generalizing b with
  | nil => exact h.symm.trans h'
  | cons x log ih => exact ih h.2 h'.2

@[simp] theorem change_self (b : Bool) : change b b = [] := if_pos rfl

theorem change_false (b : Bool) : change false b = [true] ↔ b = true := by
  cases b <;> decide

/-! ## The window -/

/-- `System.Windows.WindowState` -/
inductive WindowState
  | normal
  | minimized
  | maximized
  deriving DecidableEq

/-- `System.Windows.WindowStyle` -/
inductive WindowStyle
  | none
  | singleBorderWindow
  | threeDBorderWindow
  | toolWindow
  deriving DecidableEq

/-- `System.Windows.ResizeMode` -/
inductive ResizeMode
  | noResize
  | canMinimize
  | canResize
  | canResizeWithGrip
  deriving DecidableEq

/-- The values of the property `state`. -/
inductive Name
  | normal
  | minimized
  | maximized
  | fullscreen
  deriving DecidableEq

/-- The state that the native window is given. -/
def Name.windowState : Name → WindowState
  | .normal => .normal
  | .minimized => .minimized
  | .maximized => .maximized
  | .fullscreen => .maximized

/-- What the listeners of the window hear. -/
inductive Event
  | enterFullscreen
  | exitFullscreen
  | maximize
  | minimize
  | restore
  deriving DecidableEq

/-- How an event turns fullscreen on or off. -/
def Event.turn : Event → Option Bool
  | .enterFullscreen => some true
  | .exitFullscreen => some false
  | _ => none

/-- `previousStyle`, `previousState` and `previousResize`; `none` is `''`. -/
structure Previous where
  style : Option WindowStyle
  state : Option WindowState
  resize : Option ResizeMode
  deriving DecidableEq

/-- The first three are properties of `this.native`.  The setter gives it the
fields of `nativePrevious` too, while `previous` are those of `this.private`.

`entered` says if the window ought to be fullscreen, `inForce` what it had before
it last became so, and `due` has the turns that the program is to hear of. -/
structure State where
  windowState : WindowState
  windowStyle : WindowStyle
  resizeMode : ResizeMode
  nativePrevious : Previous
  previous : Previous
  fullscreen : Bool
  fired : List Event
  entered : Bool
  inForce : Option (WindowStyle × ResizeMode)
  due : List Bool
  deriving DecidableEq

namespace State

/-- `fireEvent` -/
def fire (s : State) (event : Event) : State := { s with fired := s.fired ++ [event] }

/-- The first half of the listener: is the window fullscreen by now? -/
def notice (s : State) : State :=
  if s.windowState = .maximized ∧ s.windowStyle = .none ∧ s.fullscreen = false then
    { s with fullscreen := true }.fire .enterFullscreen
  else if s.fullscreen = true ∧ (s.windowState ≠ .maximized ∨ s.windowStyle ≠ .none) then
    { s.fire .exitFullscreen with fullscreen := false }
  else s

/-- The second half. -/
def announce (s : State) : State :=
  match s.windowState with
  | .maximized => s.fire .maximize
  | .minimized => s.fire .minimize
  | .normal => s.fire .restore

/-- The listener of the native event. -/
def stateChanged (s : State) : State := s.notice.announce

/-- `this.native.WindowState = v`: the notification comes at once, if this is a
change. -/
def setWindowState (s : State) (v : WindowState) : State :=
  if s.windowState = v then s else { s with windowState := v }.stateChanged

/-- What the setter does first if the window is to leave. -/
def leave (s : State) : State :=
  let s := { s with windowStyle := s.previous.style.getD .singleBorderWindow }
  let s := s.setWindowState (s.previous.state.getD .normal)
  let s := { s with resizeMode := s.previous.resize.getD .canResizeWithGrip }
  { s with fullscreen := false }

/-- The last branch of the setter. -/
def enter (s : State) : State :=
  let s :=
    { s with nativePrevious := ⟨some s.windowStyle, some s.windowState, some s.resizeMode⟩ }
  let s := s.setWindowState .maximized
  { s with windowStyle := .none, resizeMode := .noResize, fullscreen := true }

/-- The setter of `state`. -/
def setState (s : State) (e : Name) : State :=
  let s := if e ≠ .fullscreen ∧ s.fullscreen = true then s.leave else s
  match e with
  | .maximized => s.setWindowState .maximized
  | .normal => s.setWindowState .normal
  | .minimized => s.setWindowState .minimized
  | .fullscreen => if s.fullscreen = true then s else s.enter

/-- The getter of `state`. -/
def state (s : State) : Name :=
  if s.fullscreen = true then .fullscreen
  else
    match s.windowState with
    | .maximized => .maximized
    | .minimized => .minimized
    | .normal => .normal

end State

/-- The program assigns to `state`, or the window is in the state `v` by now and
the notification comes. -/
inductive Action
  | assign (e : Name)
  | stateChanged (v : WindowState)
  deriving DecidableEq

namespace State

/-- What the code does. -/
def act (s : State) : Action → State
  | .assign e => s.setState e
  | .stateChanged v => { s with windowState := v }.stateChanged

/-- If the window ought to be fullscreen afterwards. -/
def wanted (s : State) : Action → Bool
  | .assign e => decide (e = .fullscreen)
  | .stateChanged v => s.entered && decide (v = .maximized)

/-- What is to be remembered of it. -/
def note (s : State) (a : Action) : State :=
  { s with
    entered := s.wanted a
    inForce :=
      if s.entered = false ∧ s.wanted a = true then some (s.windowStyle, s.resizeMode)
      else s.inForce
    due := s.due ++ change s.entered (s.wanted a) }

/-- The turns that the program has heard of. -/
def turns (s : State) : List Bool := s.fired.filterMap Event.turn

end State

/-- A step notes what the program wants, and does it. -/
def step (s : State) (a : Action) : Option State := some ((s.note a).act a)

/-- A window after its constructor, with the properties that it was given. -/
def start (windowState : WindowState) (windowStyle : WindowStyle) (resizeMode : ResizeMode) :
    State where
  windowState := windowState
  windowStyle := windowStyle
  resizeMode := resizeMode
  nativePrevious := ⟨none, none, none⟩
  previous := ⟨none, none, none⟩
  fullscreen := false
  fired := []
  entered := false
  inForce := none
  due := []

/-- All is as it should be. -/
structure Good (s : State) : Prop where
  flag : s.fullscreen = true ↔
    s.windowState = .maximized ∧ s.windowStyle = .none ∧ s.entered = true
  restored : s.entered = false → ∀ p, s.inForce = some p → (s.windowStyle, s.resizeMode) = p
  alternate : Alternates false s.turns s.fullscreen
  events : s.turns = s.due

/-- Only a window without a frame becomes fullscreen, and it was not maximized
before; it is not told to leave, and when it leaves by itself it could not be
resized before; and while it is not fullscreen it is not maximized. -/
def Ok (s : State) : Action → Prop
  | .assign .fullscreen =>
      s.fullscreen = true ∨ (s.windowState ≠ .maximized ∧ s.windowStyle = .none)
  | .assign e =>
      s.fullscreen = false ∧
        (e = .maximized → s.windowState = .maximized ∨ s.windowStyle ≠ .none)
  | .stateChanged v =>
      if s.fullscreen = true then v = .maximized ∨ s.inForce = some (.none, .noResize)
      else v = .maximized → s.windowStyle ≠ .none

/-! ## What a step does -/

namespace State

/-- What a fullscreen window looks like. -/
def full (s : State) : Bool :=
  decide (s.windowState = .maximized) && decide (s.windowStyle = .none)

theorem full_eq_true (s : State) :
    s.full = true ↔ s.windowState = .maximized ∧ s.windowStyle = .none := by
  simp only [full, Bool.and_eq_true, decide_eq_true_eq]

/-- What the window notices is its flag. -/
theorem notice_eq (s : State) :
    ∃ fired, s.notice = { s with fullscreen := s.full, fired := fired } ∧
      fired.filterMap Event.turn = s.turns ++ change s.fullscreen s.full := by
  unfold notice
  split
  case isTrue h =>
    obtain ⟨hstate, hstyle, hflag⟩ := h
    have hfull : s.full = true := s.full_eq_true.mpr ⟨hstate, hstyle⟩
    refine ⟨s.fired ++ [.enterFullscreen], by rw [hfull]; rfl, ?_⟩
    rw [hflag, hfull, List.filterMap_append]
    rfl
  case isFalse hout =>
    split
    case isTrue h =>
      obtain ⟨hflag, hleft⟩ := h
      have hfull : s.full = false := by
        rw [Bool.eq_false_iff, ne_eq, full_eq_true]
        exact not_and_or.mpr hleft
      refine ⟨s.fired ++ [.exitFullscreen], by rw [hfull]; rfl, ?_⟩
      rw [hflag, hfull, List.filterMap_append]
      rfl
    case isFalse hin =>
      have hsame : s.full = s.fullscreen := by
        cases hflag : s.fullscreen with
        | false =>
            rw [Bool.eq_false_iff, ne_eq, full_eq_true]
            exact fun h => hout ⟨h.1, h.2, hflag⟩
        | true =>
            rw [full_eq_true]
            simpa [hflag] using hin
      refine ⟨s.fired, by rw [hsame], ?_⟩
      rw [hsame, change_self, List.append_nil]
      rfl

/-- Announcing the state is no turn. -/
theorem announce_eq (s : State) :
    ∃ fired, s.announce = { s with fired := fired } ∧ fired.filterMap Event.turn = s.turns := by
  unfold announce
  split
  all_goals
    refine ⟨_, rfl, ?_⟩
    simp [turns, Event.turn]

/-- The listener sets the flag to what the window looks like, and fires one event
if this turns it. -/
theorem stateChanged_eq (s : State) :
    ∃ fired, s.stateChanged = { s with fullscreen := s.full, fired := fired } ∧
      fired.filterMap Event.turn = s.turns ++ change s.fullscreen s.full := by
  obtain ⟨fired, hnotice, hturns⟩ := notice_eq s
  obtain ⟨fired', hannounce, hturns'⟩ := announce_eq s.notice
  refine ⟨fired', ?_, ?_⟩
  · rw [stateChanged, hannounce, hnotice]
  · rw [hturns', ← hturns, hnotice]
    rfl

/-- The flag after `WindowState` was set to `v`. -/
def flagged (s : State) (v : WindowState) : Bool :=
  if s.windowState = v then s.fullscreen
  else decide (v = .maximized) && decide (s.windowStyle = .none)

/-- Setting the native state sets the flag with it. -/
theorem setWindowState_eq (s : State) (v : WindowState) :
    ∃ fired, s.setWindowState v =
        { s with windowState := v, fullscreen := s.flagged v, fired := fired } ∧
      fired.filterMap Event.turn = s.turns ++ change s.fullscreen (s.flagged v) := by
  unfold setWindowState flagged
  split
  case isTrue hsame =>
    subst hsame
    refine ⟨s.fired, rfl, ?_⟩
    rw [change_self, List.append_nil]
    rfl
  case isFalse hchanged =>
    exact stateChanged_eq { s with windowState := v }

/-- A window that is not fullscreen becomes so when a frameless one is maximized. -/
theorem flagged_eq_false {s : State} (hflag : s.fullscreen = false) (v : WindowState) :
    s.flagged v = false ↔
      (v = .maximized → s.windowState = .maximized ∨ s.windowStyle ≠ .none) := by
  unfold flagged
  split
  case isTrue hsame =>
    subst hsame
    exact ⟨fun _ h => Or.inl h, fun _ => hflag⟩
  case isFalse hchanged =>
    rw [Bool.and_eq_false_iff, decide_eq_false_iff_not, decide_eq_false_iff_not]
    constructor
    · intro h hv
      exact Or.inr (h.resolve_left (not_not.mpr hv))
    · intro h
      by_cases hv : v = .maximized
      · refine Or.inr ((h hv).resolve_left ?_)
        intro hstate
        exact hchanged (hstate.trans hv.symm)
      · exact Or.inl hv

/-- The flag goes up for a maximized window without a border. -/
theorem flagged_maximized {s : State} {v : WindowState} (hflag : s.fullscreen = false)
    (h : s.flagged v = true) : v = .maximized ∧ s.windowStyle = .none := by
  unfold flagged at h
  split at h
  case isTrue hsame => rw [hflag] at h; cases h
  case isFalse hchanged => simpa using h

/-- Any other state leaves fullscreen first. -/
theorem setState_eq (s : State) {e : Name} (he : e ≠ .fullscreen) :
    s.setState e =
      (if s.fullscreen = true then s.leave else s).setWindowState e.windowState := by
  cases e with
  | fullscreen => exact absurd rfl he
  | normal | minimized | maximized => simp [setState, Name.windowState]

theorem setState_fullscreen (s : State) :
    s.setState .fullscreen = if s.fullscreen = true then s else s.enter := by
  simp [setState]

/-- What is saved in `this.native` does not come back. -/
theorem leave_eq {s : State} (hprevious : s.previous = ⟨none, none, none⟩) :
    ∃ fired, s.leave =
      { s with
        windowState := .normal
        windowStyle := .singleBorderWindow
        resizeMode := .canResizeWithGrip
        fullscreen := false
        fired := fired } := by
  obtain ⟨fired, hset, -⟩ :=
    setWindowState_eq { s with windowStyle := .singleBorderWindow } .normal
  have hstyle : s.previous.style.getD .singleBorderWindow = .singleBorderWindow := by
    rw [hprevious]
    rfl
  have hstate : s.previous.state.getD .normal = .normal := by
    rw [hprevious]
    rfl
  have hresize : s.previous.resize.getD .canResizeWithGrip = .canResizeWithGrip := by
    rw [hprevious]
    rfl
  refine ⟨fired, ?_⟩
  unfold leave
  simp only [hstyle, hstate, hset, hresize]

/-- Entering keeps the style, the state and the mode of before. -/
theorem enter_eq (s : State) :
    ∃ fired, s.enter =
        { s with
          nativePrevious := ⟨some s.windowStyle, some s.windowState, some s.resizeMode⟩
          windowState := .maximized
          windowStyle := .none
          resizeMode := .noResize
          fullscreen := true
          fired := fired } ∧
      fired.filterMap Event.turn = s.turns ++ change s.fullscreen (s.flagged .maximized) := by
  obtain ⟨fired, hset, hturns⟩ := setWindowState_eq
    { s with nativePrevious := ⟨some s.windowStyle, some s.windowState, some s.resizeMode⟩ }
    .maximized
  refine ⟨fired, ?_, hturns⟩
  unfold enter
  simp only [hset]

/-- A setter that does not ask for fullscreen leaves the flag to the notification. -/
theorem setState_cases {s : State} (hprevious : s.previous = ⟨none, none, none⟩) {e : Name}
    (he : e ≠ .fullscreen) :
    (s.fullscreen = false ∧ s.setState e = s.setWindowState e.windowState) ∨
      (s.fullscreen = true ∧ ∃ fired, s.setState e =
        { s with
          windowState := e.windowState
          windowStyle := .singleBorderWindow
          resizeMode := .canResizeWithGrip
          fullscreen := false
          fired := fired }) := by
  rw [setState_eq s he]
  cases hflag : s.fullscreen with
  | false => exact Or.inl ⟨rfl, by rw [if_neg (by decide)]⟩
  | true =>
      refine Or.inr ⟨rfl, ?_⟩
      obtain ⟨fired, hleave⟩ := leave_eq hprevious
      obtain ⟨fired', hset, -⟩ := setWindowState_eq s.leave e.windowState
      refine ⟨fired', ?_⟩
      have hunflagged : s.leave.flagged e.windowState = false := by
        rw [flagged_eq_false (by rw [hleave]), hleave]
        exact fun _ => Or.inr nofun
      rw [if_pos rfl, hset, hunflagged, hleave]

/-- The state that is read is the native one, if fullscreen is not in force. -/
theorem state_eq_iff {s : State} {e : Name} (he : e ≠ .fullscreen)
    (hstate : s.windowState = e.windowState) : s.state = e ↔ s.fullscreen = false := by
  unfold state
  rw [hstate]
  cases s.fullscreen with
  | false =>
      refine ⟨fun _ => rfl, fun _ => ?_⟩
      cases e with
      | fullscreen => exact absurd rfl he
      | normal | minimized | maximized => rfl
  | true =>
      refine ⟨fun h => absurd h.symm he, nofun⟩

/-- What is assigned is read back, except from a frameless window that is
maximized. -/
theorem state_setState {s : State} (hprevious : s.previous = ⟨none, none, none⟩) (e : Name) :
    (s.setState e).state = e ↔
      (e = .maximized → s.fullscreen = false →
        s.windowState = .maximized ∨ s.windowStyle ≠ .none) := by
  by_cases he : e = .fullscreen
  · subst he
    refine ⟨fun _ => nofun, fun _ => ?_⟩
    rw [setState_fullscreen]
    split
    case isTrue hflag => exact if_pos hflag
    case isFalse =>
      obtain ⟨fired, henter, -⟩ := s.enter_eq
      rw [henter]
      exact if_pos rfl
  · rcases setState_cases hprevious he with ⟨hflag, hset⟩ | ⟨hflag, fired, hset⟩
    · obtain ⟨fired, hset', -⟩ := s.setWindowState_eq e.windowState
      rw [hset, hset', state_eq_iff he rfl, flagged_eq_false hflag]
      cases e with
      | fullscreen => exact absurd rfl he
      | normal | minimized => exact ⟨fun _ => nofun, fun _ => nofun⟩
      | maximized => exact ⟨fun h _ _ => h rfl, fun h _ => h rfl hflag⟩
    · rw [hset, state_eq_iff he rfl]
      refine ⟨fun _ _ hoff => ?_, fun _ => rfl⟩
      rw [hflag] at hoff
      cases hoff

@[simp] theorem note_fullscreen (s : State) (a : Action) :
    (s.note a).fullscreen = s.fullscreen := rfl

/-- Wanting what is in force changes nothing. -/
theorem note_eq_self {s : State} {a : Action} (h : s.wanted a = s.entered) : s.note a = s := by
  have hnot : ¬ (s.entered = false ∧ s.entered = true) := by
    intro ⟨hout, hin⟩
    rw [hout] at hin
    cases hin
  unfold note
  rw [h, change_self, List.append_nil, if_neg hnot]

end State

/-! ## Invariants -/

/-- What every step keeps. -/
structure Inv (s : State) : Prop where
  previous : s.previous = ⟨none, none, none⟩
  whole : s.fullscreen = true → s.full = true
  held : s.entered = true → s.fullscreen = true
  due : Alternates false s.due s.entered

/-- What holds too as long as all is as it should be: a window that became
fullscreen without a frame is so now. -/
def Frameless (s : State) : Prop :=
  s.entered = true → s.resizeMode = .noResize ∧ ∃ resize, s.inForce = some (.none, resize)

/-- A good state in terms of its fields. -/
theorem good_iff {s : State} (hs : Inv s) :
    Good s ↔ s.fullscreen = s.entered ∧
      (s.entered = false → ∀ p, s.inForce = some p → (s.windowStyle, s.resizeMode) = p) ∧
      s.turns = s.due := by
  constructor
  · intro hgood
    refine ⟨?_, hgood.restored, hgood.events⟩
    rw [Bool.eq_iff_iff]
    exact ⟨fun hflag => (hgood.flag.mp hflag).2.2, hs.held⟩
  · intro ⟨hflag, hrestored, hevents⟩
    refine ⟨?_, hrestored, ?_, hevents⟩
    · rw [hflag]
      constructor
      · intro hentered
        have hfull := s.full_eq_true.mp (hs.whole (hs.held hentered))
        exact ⟨hfull.1, hfull.2, hentered⟩
      · exact fun h => h.2.2
    · rw [hevents, hflag]
      exact hs.due

theorem Alternates.note {s : State} (h : Alternates false s.due s.entered) (a : Action) :
    Alternates false (s.note a).due (s.note a).entered :=
  h.append (alternates_change _ _)

/-- Without the flag the program did not enter. -/
theorem Inv.not_entered {s : State} (hs : Inv s) (hflag : s.fullscreen = false) :
    s.entered = false := by
  rw [Bool.eq_false_iff]
  intro hentered
  rw [hs.held hentered] at hflag
  cases hflag

/-- A window that ought not to be fullscreen, and whose flag says so, is given a
state. -/
theorem Inv.setWindowState {s : State} (hs : Inv s) (hflag : s.fullscreen = false)
    (v : WindowState) : Inv (s.setWindowState v) := by
  obtain ⟨fired, hset, -⟩ := s.setWindowState_eq v
  have hout := hs.not_entered hflag
  rw [hset]
  refine ⟨hs.previous, ?_, ?_, hs.due⟩
  · intro hflagged
    exact (State.full_eq_true _).mpr (State.flagged_maximized (s := s) hflag hflagged)
  · intro hentered
    rw [hout] at hentered
    cases hentered

/-- Assigning a state keeps the invariant. -/
theorem inv_assign {s : State} (hs : Inv s) (e : Name) :
    Inv ((s.note (.assign e)).setState e) := by
  have hdue := hs.due.note (.assign e)
  by_cases he : e = .fullscreen
  · subst he
    rw [State.setState_fullscreen]
    split
    case isTrue hflag => exact ⟨hs.previous, hs.whole, fun _ => hflag, hdue⟩
    case isFalse =>
      obtain ⟨fired, henter, -⟩ := (s.note (.assign .fullscreen)).enter_eq
      rw [henter]
      exact ⟨hs.previous, fun _ => rfl, fun _ => rfl, hdue⟩
  · have hwanted : s.wanted (.assign e) = false := decide_eq_false he
    rcases State.setState_cases (s := s.note (.assign e)) hs.previous he with
      ⟨hflag, hset⟩ | ⟨-, fired, hset⟩
    · rw [hset]
      rw [State.note_eq_self (hwanted.trans (hs.not_entered hflag).symm)]
      exact hs.setWindowState hflag e.windowState
    · rw [hset]
      refine ⟨hs.previous, ?_, ?_, hdue⟩
      · intro hflag
        cases hflag
      · intro hentered
        exact absurd (hwanted.symm.trans hentered) (by decide)

/-- A change by the user keeps the invariant. -/
theorem inv_stateChanged {s : State} (hs : Inv s) (v : WindowState) :
    Inv { s.note (.stateChanged v) with windowState := v }.stateChanged := by
  have hdue := hs.due.note (.stateChanged v)
  obtain ⟨fired, hchanged, -⟩ :=
    State.stateChanged_eq { s.note (.stateChanged v) with windowState := v }
  rw [hchanged]
  refine ⟨hs.previous, fun hfull => hfull, ?_, hdue⟩
  intro hwanted
  obtain ⟨hentered, hv⟩ := Bool.and_eq_true_iff.mp hwanted
  have hstyle := (s.full_eq_true.mp (hs.whole (hs.held hentered))).2
  exact (State.full_eq_true _).mpr ⟨of_decide_eq_true hv, hstyle⟩

/-- Each step keeps the invariant. -/
theorem inv_step (s : State) (a : Action) (t : State) (hs : Inv s) (h : step s a = some t) :
    Inv t := by
  obtain rfl : (s.note a).act a = t := Option.some.inj h
  cases a with
  | assign e => exact inv_assign hs e
  | stateChanged v => exact inv_stateChanged hs v

/-! ## Exactness -/

/-- A window that ought not to be fullscreen is given a state. -/
theorem good_told {s : State} (hs : Inv s) (hgood : Good s) (hflag : s.fullscreen = false)
    {v : WindowState} {b : Bool} {fired : List Event}
    (ht : Inv { s with windowState := v, fullscreen := b, fired := fired })
    (hturns : fired.filterMap Event.turn = s.turns ++ change s.fullscreen b) :
    Good { s with windowState := v, fullscreen := b, fired := fired } ↔ b = false := by
  have hout := hs.not_entered hflag
  rw [good_iff ht]
  constructor
  · intro h
    exact h.1.trans hout
  · intro hb
    refine ⟨hb.trans hout.symm, hgood.restored, ?_⟩
    rw [hflag, hb, change_self, List.append_nil] at hturns
    exact hturns.trans hgood.events

/-- Entering keeps a state good exactly if the step is in order. -/
theorem good_enter {s : State} (hs : Inv s) (hgood : Good s) :
    Good ((s.note (.assign .fullscreen)).setState .fullscreen) ↔ Ok s (.assign .fullscreen) := by
  have ht := inv_assign hs .fullscreen
  rw [State.setState_fullscreen] at ht ⊢
  by_cases hflag : s.fullscreen = true
  · have hentered : s.entered = true := (hgood.flag.mp hflag).2.2
    rw [State.note_eq_self (a := .assign .fullscreen) hentered.symm, if_pos hflag]
    exact ⟨fun _ => Or.inl hflag, fun _ => hgood⟩
  · have hoff : s.fullscreen = false := Bool.eq_false_iff.mpr hflag
    rw [State.note_fullscreen, if_neg hflag] at ht ⊢
    obtain ⟨fired, henter, hturns⟩ := (s.note (.assign .fullscreen)).enter_eq
    have hdue : (s.note (.assign .fullscreen)).due = s.due ++ [true] := by
      rw [State.note, hs.not_entered hoff]
      rfl
    have hseen : fired.filterMap Event.turn = s.due ++ change false (s.flagged .maximized) := by
      rw [hturns, ← hgood.events, ← hoff]
      rfl
    rw [henter] at ht ⊢
    calc Good _
      _ ↔ fired.filterMap Event.turn = (s.note (.assign .fullscreen)).due := by
          rw [good_iff ht]
          constructor
          · intro h
            exact h.2.2
          · intro hevents
            exact ⟨rfl, nofun, hevents⟩
      _ ↔ s.flagged .maximized = true := by
          rw [hseen, hdue, List.append_cancel_left_eq, change_false]
      _ ↔ Ok s (.assign .fullscreen) := by
          have hunseen := State.flagged_eq_false hoff .maximized
          rw [← Bool.not_eq_false, hunseen, Ok, hoff]
          simp

/-- Assigning another state keeps a state good exactly if the step is in order. -/
theorem good_assign {s : State} (hs : Inv s) (hframe : Frameless s) (hgood : Good s) {e : Name}
    (he : e ≠ .fullscreen) :
    Good ((s.note (.assign e)).setState e) ↔
      s.fullscreen = false ∧
        (e.windowState = .maximized → s.windowState = .maximized ∨ s.windowStyle ≠ .none) := by
  have ht := inv_assign hs e
  have hwanted : s.wanted (.assign e) = false := decide_eq_false he
  rcases State.setState_cases (s := s.note (.assign e)) hs.previous he with
    ⟨hflag, hset⟩ | ⟨hflag, fired, hset⟩
  · have hoff : s.fullscreen = false := hflag
    rw [hset, State.note_eq_self (hwanted.trans (hs.not_entered hoff).symm)] at ht ⊢
    obtain ⟨fired, hset', hturns⟩ := s.setWindowState_eq e.windowState
    rw [hset'] at ht ⊢
    rw [good_told hs hgood hoff ht hturns, State.flagged_eq_false hoff]
    exact ⟨fun h => ⟨hoff, h⟩, And.right⟩
  · -- what it had before was no frame
    have hentered : s.entered = true := (hgood.flag.mp hflag).2.2
    obtain ⟨-, resize, hforce⟩ := hframe hentered
    constructor
    · intro h
      rw [hset] at h
      have hnote : (s.note (.assign e)).inForce = s.inForce := by
        rw [State.note, hentered]
        rfl
      have hsame := h.restored hwanted _ (hnote.trans hforce)
      cases hsame
    · intro h
      exact absurd (h.1.symm.trans hflag) (by decide)

/-- A change by the user keeps a state good exactly if the step is in order. -/
theorem good_stateChanged {s : State} (hs : Inv s) (hframe : Frameless s) (hgood : Good s)
    (v : WindowState) :
    Good { s.note (.stateChanged v) with windowState := v }.stateChanged ↔
      Ok s (.stateChanged v) := by
  have ht := inv_stateChanged hs v
  obtain ⟨fired, hchanged, hturns⟩ :=
    State.stateChanged_eq { s.note (.stateChanged v) with windowState := v }
  rw [hchanged] at ht ⊢
  by_cases hflag : s.fullscreen = true
  · have hentered : s.entered = true := (hgood.flag.mp hflag).2.2
    have hlook := s.full_eq_true.mp (hs.whole hflag)
    obtain ⟨hresize, resize, hforce⟩ := hframe hentered
    have hnote : (s.note (.stateChanged v)).inForce = s.inForce := by
      rw [State.note, hentered]
      rfl
    by_cases hv : v = .maximized
    · subst hv
      have hwanted : s.wanted (.stateChanged .maximized) = s.entered := by
        rw [State.wanted, hentered]
        rfl
      have hfull : ({ s with windowState := .maximized } : State).full = s.fullscreen := by
        rw [hflag]
        exact (State.full_eq_true _).mpr ⟨rfl, hlook.2⟩
      rw [State.note_eq_self hwanted, hfull, change_self, List.append_nil] at hturns
      rw [State.note_eq_self hwanted, hfull] at ht ⊢
      have hgood' := (good_iff ht).mpr
        ⟨((good_iff hs).mp hgood).1, hgood.restored, hturns.trans hgood.events⟩
      exact ⟨fun _ => by rw [Ok, if_pos hflag]; exact Or.inl rfl, fun _ => hgood'⟩
    · have hwanted : s.wanted (.stateChanged v) = false := by
        rw [State.wanted, decide_eq_false hv, Bool.and_false]
      have hfull : ({ s.note (.stateChanged v) with windowState := v } : State).full = false := by
        rw [State.full, decide_eq_false hv, Bool.false_and]
      have hevents : fired.filterMap Event.turn = (s.note (.stateChanged v)).due := by
        rw [hturns, hfull, State.note, hwanted, hentered, ← hgood.events, ← hflag]
        rfl
      rw [hfull] at ht ⊢
      calc Good _
        _ ↔ ∀ p, s.inForce = some p → (s.windowStyle, s.resizeMode) = p := by
            rw [good_iff ht, ← hnote]
            constructor
            · intro h
              exact h.2.1 hwanted
            · intro h
              exact ⟨hwanted.symm, fun _ => h, hevents⟩
        _ ↔ s.inForce = some (.none, .noResize) := by
            rw [hlook.2, hresize, hforce]
            simp [eq_comm]
        _ ↔ Ok s (.stateChanged v) := by
            rw [Ok, if_pos hflag]
            exact (or_iff_right hv).symm
  · have hoff : s.fullscreen = false := Bool.eq_false_iff.mpr hflag
    have hout := hs.not_entered hoff
    have hnote : s.note (.stateChanged v) = s := by
      refine State.note_eq_self ?_
      rw [State.wanted, hout]
      rfl
    rw [hnote] at ht hturns ⊢
    rw [good_told hs hgood hoff ht hturns, Bool.eq_false_iff, ne_eq, State.full_eq_true, Ok,
      if_neg hflag]
    exact not_and

/-- A step keeps a state good exactly if it is in order. -/
theorem good_step (s : State) (a : Action) (t : State) (hs : Inv s ∧ Frameless s) (hgood : Good s)
    (h : step s a = some t) : Good t ↔ Ok s a := by
  obtain rfl : (s.note a).act a = t := Option.some.inj h
  cases a with
  | assign e =>
      cases e with
      | fullscreen => exact good_enter hs.1 hgood
      | normal =>
          refine (good_assign hs.1 hs.2 hgood (e := .normal) nofun).trans ?_
          exact and_congr_right fun _ => ⟨nofun, nofun⟩
      | minimized =>
          refine (good_assign hs.1 hs.2 hgood (e := .minimized) nofun).trans ?_
          exact and_congr_right fun _ => ⟨nofun, nofun⟩
      | maximized =>
          refine (good_assign hs.1 hs.2 hgood (e := .maximized) nofun).trans ?_
          exact and_congr_right fun _ => ⟨fun h _ => h rfl, fun h _ => h rfl⟩
  | stateChanged v => exact good_stateChanged hs.1 hs.2 hgood v

/-- As long as all is as it should be, only a frameless window has become
fullscreen. -/
theorem frameless_step {s : State} {a : Action} (hs : Inv s ∧ Frameless s) (hgood : Good s)
    (hok : Ok s a) : Frameless ((s.note a).act a) := by
  cases a with
  | assign e =>
      by_cases he : e = .fullscreen
      · subst he
        rw [State.act, State.setState_fullscreen, State.note_fullscreen]
        split
        case isTrue hflag =>
          have hentered : s.entered = true := (hgood.flag.mp hflag).2.2
          rw [State.note_eq_self (a := .assign .fullscreen) hentered.symm]
          exact hs.2
        case isFalse hflag =>
          have hout := hs.1.not_entered (Bool.eq_false_iff.mpr hflag)
          obtain ⟨fired, henter, -⟩ := (s.note (.assign .fullscreen)).enter_eq
          rw [henter]
          refine fun _ => ⟨rfl, s.resizeMode, ?_⟩
          rw [State.note, hout, ← (hok.resolve_left hflag).2]
          rfl
      · intro hentered
        rw [State.act] at hentered
        have hwanted : s.wanted (.assign e) = false := decide_eq_false he
        rcases State.setState_cases (s := s.note (.assign e)) hs.1.previous he with
          ⟨-, hset⟩ | ⟨-, fired, hset⟩
        · obtain ⟨fired, hset', -⟩ := (s.note (.assign e)).setWindowState_eq e.windowState
          rw [hset, hset'] at hentered
          exact absurd (hwanted.symm.trans hentered) (by decide)
        · rw [hset] at hentered
          exact absurd (hwanted.symm.trans hentered) (by decide)
  | stateChanged v =>
      obtain ⟨fired, hchanged, -⟩ :=
        State.stateChanged_eq { s.note (.stateChanged v) with windowState := v }
      intro hentered
      rw [State.act, hchanged] at hentered ⊢
      have hbefore : s.entered = true := (Bool.and_eq_true_iff.mp hentered).1
      obtain ⟨hresize, resize, hforce⟩ := hs.2 hbefore
      refine ⟨hresize, resize, ?_⟩
      rw [State.note, hbefore]
      exact hforce

theorem start_inv (windowState : WindowState) (windowStyle : WindowStyle)
    (resizeMode : ResizeMode) :
    Inv (start windowState windowStyle resizeMode) ∧
      Frameless (start windowState windowStyle resizeMode) :=
  ⟨⟨rfl, nofun, nofun, rfl⟩, nofun⟩

theorem start_good (windowState : WindowState) (windowStyle : WindowStyle)
    (resizeMode : ResizeMode) : Good (start windowState windowStyle resizeMode) :=
  (good_iff (start_inv windowState windowStyle resizeMode).1).mpr ⟨rfl, nofun, rfl⟩

/-- **In a run the flag is true exactly while the window is fullscreen, leaving
restores the style and the resize mode, and each transition fires its event, if
and only if** all steps meet the condition. -/
theorem fullscreen_iff (windowState : WindowState) (windowStyle : WindowStyle)
    (resizeMode : ResizeMode) (as : List Action) :
    Throughout step Good (start windowState windowStyle resizeMode) as ↔
      Meets step Ok (start windowState windowStyle resizeMode) as :=
  throughout_iff_meets_of_kept (J := fun s => Inv s ∧ Frameless s)
    (fun s a t hs hgood ht h =>
      ⟨inv_step s a t hs.1 h, Option.some.inj h ▸
        frameless_step hs hgood ((good_step s a t hs hgood h).mp ht)⟩)
    good_step (start_inv _ _ _) (start_good _ _ _) (meets_of_total (fun _ _ => rfl) _ as)

/-- **A window becomes fullscreen, and nobody sees it.** -/
theorem entered_unseen :
    ¬ ∀ windowState windowStyle resizeMode as,
      Throughout step Good (start windowState windowStyle resizeMode) as := by
  intro hall
  have hrun := hall .normal .singleBorderWindow .canResize [.assign .fullscreen]
  have hevents := (hrun.2 _ rfl).events
  revert hevents
  decide

end Fullscreen

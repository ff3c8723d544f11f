import Tint.Transition

/-!
# The Windows event-loop handshake

`uv_event` (the watcher thread) polls libuv's backend, posts a wake-up message
to the UI thread and then waits on `embed_sem`.  `win_msg_loop` (the UI thread)
retrieves window messages, and for a wake-up message, or for any message while
`uv_trip_winproc_safety` is set, calls `uv_run_nowait`, which runs libuv once
and posts `embed_sem`.  A loop nested inside application code (a modal WPF
loop) hands its messages to `HandleMessageLoop`, which calls `uv_run_nowait`
for wake-up messages only and leaves the flag alone.

Each wake-up is posted twice, once broadcast and once to the thread, and the
flag is written after both posts.  So one wake-up can be answered more than
once, and the second answer breaks the handshake:

* `handshake_of_one_message` -- the semaphore count stays at most one and libuv never runs
  while its backend is polled, as long as one of the two posts lands at most, as the comment
  of `uv_event` has it, and a message that is not the wake-up's own finds the flag set only
  after the wake-up's message was lost;
* `handshake_of_unanswered` -- behind it: `uv_run_nowait` is then only entered for a wake-up
  that has not been answered yet;
* `answered_entry_never_returns` -- once an answered wake-up is answered again, the
  handshake survives only if the UI thread never comes back out of libuv.

The model ends at `WM_QUIT`: `node_terminate` is not part of it.
-/

namespace EventLoop

open Transition

/-- What the UI thread's queue may hold.  `wakeUp` is `WM_APP+1`, from the
watcher or broadcast by another process. -/
inductive Msg
  | wakeUp
  | hotkey
  | other
  deriving DecidableEq, Repr

/-- The program points of `uv_event`. -/
inductive Watcher
  /-- from the start of the loop body (thread start, or return from
  `uv_sem_wait`) up to the first post: the backend is polled here -/
  | poll
  /-- after `PostMessage(HWND_BROADCAST, WM_APP+1, ..)` -/
  | broadcasted
  /-- after `PostThreadMessage(mainThreadId, WM_APP+1, ..)` -/
  | posted
  /-- the flag is written, in `uv_sem_wait` -/
  | parked
  deriving DecidableEq, Repr

/-- Who called `uv_run_nowait`. -/
inductive Caller
  | winMsgLoop (msg : Msg)
  | handleMessageLoop
  deriving DecidableEq, Repr

/-- An activation on the UI thread's stack. -/
inductive Frame
  /-- `win_msg_loop` runs the script's `_win32_message` function -/
  | hotkey (msg : Msg)
  /-- `win_msg_loop` is about to test the flag and the message -/
  | test (msg : Msg)
  /-- inside `uv_run`, called by `uv_run_nowait` -/
  | uvRun (caller : Caller)
  /-- `win_msg_loop` is about to clear the flag -/
  | resetTrip (msg : Msg)
  /-- `TranslateMessage` and `DispatchMessage` -/
  | dispatch (msg : Msg)
  deriving DecidableEq, Repr

/-- `trip` is `uv_trip_winproc_safety`, `sem` the count of `embed_sem`, `ui` the
UI thread's stack with the innermost activation first. -/
structure State where
  watcher : Watcher
  trip : Bool
  sem : Nat
  queue : List Msg
  ui : List Frame
  deriving DecidableEq, Repr

/-- `node_load` has initialised the semaphore and created the watcher. -/
def start : State :=
  { watcher := .poll, trip := false, sem := 0, queue := [], ui := [] }

/-- The activation is libuv's loop. -/
def Frame.isUvRun : Frame → Bool
  | .uvRun _ => true
  | _ => false

/-- Application code runs on top of the stack; it may pump a nested loop. -/
def pumps : List Frame → Bool
  | .hotkey _ :: _ => true
  | .uvRun _ :: _ => true
  | .dispatch _ :: _ => true
  | _ => false

/-- The steps of the two threads and of their surroundings. -/
inductive Action
  /-- the broadcast lands in `n` windows of the UI thread -/
  | broadcast (n : Nat)
  /-- the post to the thread, which may fail -/
  | postThread (lands : Bool)
  | setTrip
  | semWait
  /-- a message of any kind arrives from elsewhere -/
  | arrive (msg : Msg)
  | getMessage
  | hotkeyDone
  | test
  | uvRunDone
  | resetTrip
  | dispatchDone
  /-- a nested loop hands the next message to `HandleMessageLoop` -/
  | filterMessage
  /-- a nested loop without the hook swallows the next message -/
  | rogue
  deriving DecidableEq, Repr

/-- One step of the handshake. -/
def step (s : State) : Action → Option State
  | .broadcast n =>
      if s.watcher = .poll then
        some { s with watcher := .broadcasted, queue := s.queue ++ List.replicate n .wakeUp }
      else none
  | .postThread lands =>
      if s.watcher = .broadcasted then
        some { s with
          watcher := .posted
          queue := if lands then s.queue ++ [.wakeUp] else s.queue }
      else none
  | .setTrip =>
      if s.watcher = .posted then some { s with watcher := .parked, trip := true } else none
  | .semWait =>
      if s.watcher = .parked ∧ 0 < s.sem then
        some { s with watcher := .poll, sem := s.sem - 1 }
      else none
  | .arrive msg => some { s with queue := s.queue ++ [msg] }
  | .getMessage =>
      match s.ui, s.queue with
      | [], msg :: queue =>
          some { s with
            queue := queue
            ui := [if msg = .hotkey then .hotkey msg else .test msg] }
      | _, _ => none
  | .hotkeyDone =>
      match s.ui with
      | .hotkey msg :: ui => some { s with ui := .test msg :: ui }
      | _ => none
  | .test =>
      match s.ui with
      | .test msg :: ui =>
          if s.trip = true ∨ msg = .wakeUp then
            some { s with ui := .uvRun (.winMsgLoop msg) :: ui }
          else some { s with ui := .dispatch msg :: ui }
      | _ => none
  | .uvRunDone =>
      match s.ui with
      | .uvRun (.winMsgLoop msg) :: ui =>
          some { s with sem := s.sem + 1, ui := .resetTrip msg :: ui }
      | .uvRun .handleMessageLoop :: ui => some { s with sem := s.sem + 1, ui := ui }
      | _ => none
  | .resetTrip =>
      match s.ui with
      | .resetTrip msg :: ui => some { s with trip := false, ui := .dispatch msg :: ui }
      | _ => none
  | .dispatchDone =>
      match s.ui with
      | .dispatch _ :: ui => some { s with ui := ui }
      | _ => none
  | .filterMessage =>
      if pumps s.ui then
        match s.queue with
        | .wakeUp :: queue =>
            some { s with queue := queue, ui := .uvRun .handleMessageLoop :: s.ui }
        | _ :: queue => some { s with queue := queue }
        | [] => none
      else none
  | .rogue =>
      if pumps s.ui then
        match s.queue with
        | _ :: queue => some { s with queue := queue }
        | [] => none
      else none

/-- How many activations of `uv_run` are on the UI thread's stack. -/
def uvRuns (s : State) : Nat := s.ui.countP Frame.isUvRun

/-- **The handshake.**  The semaphore never counts past one, and libuv does not
run while the watcher polls the backend. -/
def Handshake (s : State) : Prop :=
  s.sem ≤ 1 ∧ ¬ (s.watcher = .poll ∧ 0 < uvRuns s)

instance (s : State) : Decidable (Handshake s) :=
  inferInstanceAs (Decidable (_ ≤ _ ∧ ¬ (_ = _ ∧ _ < _)))

/-- The watcher has started posting a wake-up, and no call of `uv_run_nowait`
has answered it: none is running and none has posted the semaphore. -/
def Unanswered (s : State) : Prop :=
  s.watcher ≠ .poll ∧ s.sem = 0 ∧ uvRuns s = 0

instance (s : State) : Decidable (Unanswered s) :=
  inferInstanceAs (Decidable (_ ∧ _ ∧ _))

/-- The step enters `uv_run_nowait`. -/
def entersUvRun (s : State) : Action → Bool
  | .test =>
      match s.ui with
      | .test msg :: _ => s.trip || decide (msg = .wakeUp)
      | _ => false
  | .filterMessage => pumps s.ui && (s.queue.head? == some .wakeUp)
  | _ => false

/-- The condition on a step: `uv_run_nowait` is entered for an unanswered
wake-up only. -/
def AnswersOnce (s : State) (a : Action) : Prop :=
  entersUvRun s a = true → Unanswered s

instance (s : State) (a : Action) : Decidable (AnswersOnce s a) :=
  inferInstanceAs (Decidable (_ → _))

@[simp] theorem uvRuns_mk (w : Watcher) (b : Bool) (n : Nat) (q : List Msg)
    (ui : List Frame) : uvRuns ⟨w, b, n, q, ui⟩ = ui.countP Frame.isUvRun := rfl

/-- What one step can do to the handshake: the watcher starts a wake-up or
returns from its wait, the UI thread enters `uv_run` or leaves it, or none of
the three numbers moves. -/
inductive Effect (s : State) (a : Action) (t : State) : Prop
  | posts (entry : entersUvRun s a = false) (was : s.watcher = .poll)
      (now : t.watcher ≠ .poll) (sem : t.sem = s.sem) (runs : uvRuns t = uvRuns s)
  | wakes (entry : entersUvRun s a = false) (was : s.watcher ≠ .poll)
      (now : t.watcher = .poll) (sem : s.sem = t.sem + 1) (runs : uvRuns t = uvRuns s)
  | enters (entry : entersUvRun s a = true) (watcher : t.watcher = s.watcher)
      (sem : t.sem = s.sem) (runs : uvRuns t = uvRuns s + 1)
  | leaves (entry : entersUvRun s a = false) (watcher : t.watcher = s.watcher)
      (sem : t.sem = s.sem + 1) (runs : uvRuns s = uvRuns t + 1)
  | quiet (entry : entersUvRun s a = false) (watcher : t.watcher = .poll ↔ s.watcher = .poll)
      (sem : t.sem = s.sem) (runs : uvRuns t = uvRuns s)

/-- Every step has one of the five effects. -/
theorem step_effect {s t : State} {a : Action} (h : step s a = some t) : Effect s a t := by
  rcases s with ⟨w, trip, sem, queue, ui⟩
  cases a with
  | broadcast n =>
      simp only [step, Option.ite_none_right_eq_some, Option.some.injEq] at h
      obtain ⟨hw, rfl⟩ := h
      exact .posts rfl hw (by simp) rfl rfl
  | postThread lands =>
      simp only [step, Option.ite_none_right_eq_some, Option.some.injEq] at h
      obtain ⟨hw, rfl⟩ := h
      exact .quiet rfl (by simp [hw]) rfl rfl
  | setTrip =>
      simp only [step, Option.ite_none_right_eq_some, Option.some.injEq] at h
      obtain ⟨hw, rfl⟩ := h
      exact .quiet rfl (by simp [hw]) rfl rfl
  | semWait =>
      simp only [step, Option.ite_none_right_eq_some, Option.some.injEq] at h
      obtain ⟨⟨hw, hpos⟩, rfl⟩ := h
      exact .wakes rfl (by simp [hw]) rfl (by simp; omega) rfl
  | arrive msg =>
      simp only [step, Option.some.injEq] at h
      subst h
      exact .quiet rfl Iff.rfl rfl rfl
  | getMessage =>
      cases ui with
      | cons f ui => simp [step] at h
      | nil =>
          cases queue with
          | nil => simp [step] at h
          | cons msg queue =>
              simp only [step, Option.some.injEq] at h
              subst h
              refine .quiet rfl Iff.rfl rfl ?_
              by_cases hm : msg = .hotkey <;> simp [hm, Frame.isUvRun]
  | hotkeyDone =>
      rcases ui with _ | ⟨f, ui⟩ <;> simp only [step] at h
      · simp at h
      cases f <;> simp only [Option.some.injEq, reduceCtorEq] at h
      subst h
      exact .quiet rfl Iff.rfl rfl (by simp [Frame.isUvRun])
  | test =>
      rcases ui with _ | ⟨f, ui⟩ <;> simp only [step] at h
      · simp at h
      cases f <;> simp only [reduceCtorEq] at h
      case test msg =>
        by_cases hc : trip = true ∨ msg = .wakeUp
        · simp only [hc, if_true, Option.some.injEq] at h
          subst h
          refine .enters ?_ rfl rfl (by simp [List.countP_cons, Frame.isUvRun])
          simpa [entersUvRun] using hc
        · simp only [hc, if_false, Option.some.injEq] at h
          subst h
          refine .quiet ?_ Iff.rfl rfl (by simp [Frame.isUvRun])
          simpa [entersUvRun] using hc
  | uvRunDone =>
      rcases ui with _ | ⟨f, ui⟩ <;> simp only [step] at h
      · simp at h
      cases f with
      | uvRun caller =>
        cases caller <;> simp only [Option.some.injEq] at h <;> subst h
        · exact .leaves rfl rfl rfl (by simp [List.countP_cons, Frame.isUvRun])
        · exact .leaves rfl rfl rfl (by simp [List.countP_cons, Frame.isUvRun])
      | _ => simp at h
  | resetTrip =>
      rcases ui with _ | ⟨f, ui⟩ <;> simp only [step] at h
      · simp at h
      cases f <;> simp only [Option.some.injEq, reduceCtorEq] at h
      subst h
      exact .quiet rfl Iff.rfl rfl (by simp [Frame.isUvRun])
  | dispatchDone =>
      rcases ui with _ | ⟨f, ui⟩ <;> simp only [step] at h
      · simp at h
      cases f <;> simp only [Option.some.injEq, reduceCtorEq] at h
      subst h
      exact .quiet rfl Iff.rfl rfl (by simp [Frame.isUvRun])
  | filterMessage =>
      simp only [step, Option.ite_none_right_eq_some] at h
      obtain ⟨hp, h⟩ := h
      rcases queue with _ | ⟨msg, queue⟩
      · simp at h
      cases msg <;> simp only [Option.some.injEq] at h <;> subst h
      · refine .enters ?_ rfl rfl (by simp [List.countP_cons, Frame.isUvRun])
        simp [entersUvRun, hp]
      · exact .quiet (by simp [entersUvRun]) Iff.rfl rfl rfl
      · exact .quiet (by simp [entersUvRun]) Iff.rfl rfl rfl
  | rogue =>
      simp only [step, Option.ite_none_right_eq_some] at h
      obtain ⟨_, h⟩ := h
      rcases queue with _ | ⟨msg, queue⟩ <;> simp only [Option.some.injEq, reduceCtorEq] at h
      subst h
      exact .quiet rfl Iff.rfl rfl rfl

/-- The bookkeeping behind the handshake: while the watcher polls there is
neither a count nor a running loop, and otherwise at most one of the two. -/
def Balanced (s : State) : Prop :=
  (s.watcher = .poll → s.sem = 0 ∧ uvRuns s = 0) ∧ s.sem + uvRuns s ≤ 1

/-- One step that answers no wake-up twice keeps the books. -/
theorem balanced_step {s t : State} {a : Action} (hs : Balanced s)
    (hok : AnswersOnce s a) (h : step s a = some t) : Balanced t := by
  obtain ⟨hpoll, hone⟩ := hs
  cases step_effect h with
  | posts _ was now sem runs => exact ⟨fun hp => absurd hp now, by omega⟩
  | wakes _ was now sem runs => exact ⟨fun _ => by omega, by omega⟩
  | enters entry watcher sem runs =>
      obtain ⟨hnot, h0, h1⟩ := hok entry
      exact ⟨fun hp => absurd (watcher ▸ hp) hnot, by omega⟩
  | leaves _ watcher sem runs =>
      refine ⟨fun hp => ?_, by omega⟩
      have := hpoll (watcher ▸ hp)
      omega
  | quiet _ watcher sem runs =>
      refine ⟨fun hp => ?_, by omega⟩
      have := hpoll (watcher.mp hp)
      omega

/-- Runs that answer no wake-up twice keep the books. -/
theorem balanced_of_reaches {s : State} (h : Reaches step AnswersOnce start s) :
    Balanced s := by
  refine h.invariant Balanced ?_ fun s a t hs hok ht => balanced_step hs hok ht
  exact ⟨fun _ => ⟨rfl, rfl⟩, by decide⟩

/-- The handshake holds for unanswered wake-ups: as long as `uv_run_nowait` is entered for
these only, the count is at most one and libuv never runs while the backend is polled. -/
theorem handshake_of_unanswered {s : State}
    (h : Reaches step AnswersOnce start s) : Handshake s := by
  obtain ⟨hpoll, hone⟩ := balanced_of_reaches h
  refine ⟨by omega, fun hc => ?_⟩
  have := hpoll hc.1
  omega

/-! ## One message for each wake-up -/

/-- What has become of the message of the last wake-up. -/
inductive Fate
  /-- no post of it has landed -/
  | unsent
  | queued
  /-- a loop without the hook swallowed it -/
  | lost
  /-- it was retrieved, or another message was tested in its place while the flag was set -/
  | taken
  deriving DecidableEq, Repr

/-- The message about to be tested is another one, and the flag is set. -/
def flagged (s : State) : Bool :=
  match s.ui with
  | .test msg :: _ => s.trip && decide (msg ≠ .wakeUp)
  | _ => false

/-- The fate of the message after a step. -/
def Fate.next (f : Fate) (s : State) : Action → Fate
  | .broadcast n => if n = 0 then .unsent else .queued
  | .postThread lands => if lands then .queued else f
  | .getMessage => if s.queue.head? = some .wakeUp then .taken else f
  | .filterMessage => if s.queue.head? = some .wakeUp then .taken else f
  | .rogue => if s.queue.head? = some .wakeUp then .lost else f
  | .test => if flagged s then .taken else f
  | _ => f

/-- A step, with the fate of the last wake-up's message written down beside it. -/
def track (p : State × Fate) (a : Action) : Option (State × Fate) :=
  (step p.1 a).map fun t => (t, p.2.next p.1 a)

/-- The condition on a step: no `WM_APP+1` comes from elsewhere; of the two posts of a
wake-up one lands at most, and none after the wake-up was taken up; and a message that is
not the wake-up's own is tested with the flag set only if the wake-up's own message has not
landed or was swallowed. -/
def OneMessage (p : State × Fate) : Action → Prop
  | .broadcast n => n ≤ 1
  | .postThread lands => lands = true → p.2 = .unsent
  | .arrive msg => msg ≠ .wakeUp
  | .test => flagged p.1 = true → p.2 = .unsent ∨ p.2 = .lost
  | _ => True

instance (p : State × Fate) (a : Action) : Decidable (OneMessage p a) := by
  cases a <;> unfold OneMessage <;> infer_instance

/-- How the UI thread's stack is built: `win_msg_loop` runs the script for hotkeys only, and
what lies below another activation pumps messages. -/
structure Stacked (ui : List Frame) : Prop where
  hotkeys : ∀ msg, .hotkey msg ∈ ui → msg = .hotkey
  nested : ∀ f ∈ ui.tail, pumps [f] = true

/-- What the runs with one message for each wake-up keep: the books; the message is in the
queue exactly if its fate says so; and a wake-up whose message was not taken, or is about
to be tested, has not been answered. -/
structure Kept (p : State × Fate) : Prop where
  balanced : Balanced p.1
  queue : p.1.queue.count .wakeUp = if p.2 = .queued then 1 else 0
  waits : p.2 ≠ .taken → Unanswered p.1
  tested : p.1.ui.head? = some (.test .wakeUp) → p.2 = .taken ∧ Unanswered p.1
  stacked : Stacked p.1.ui

/-- What pumps messages is decided by the innermost activation. -/
theorem pumps_cons (f : Frame) (ui : List Frame) : pumps (f :: ui) = pumps [f] := by
  cases f <;> rfl

/-- Without the innermost activation the stack is still one. -/
theorem Stacked.pop {f : Frame} {ui : List Frame} (h : Stacked (f :: ui)) : Stacked ui :=
  ⟨fun msg hmsg => h.hotkeys msg (List.mem_cons_of_mem _ hmsg),
    fun g hg => h.nested g (List.mem_of_mem_tail hg)⟩

/-- An activation that is no run of the script takes the place of another. -/
theorem Stacked.replace {f g : Frame} {ui : List Frame} (h : Stacked (f :: ui))
    (hg : ∀ msg, g ≠ .hotkey msg) : Stacked (g :: ui) := by
  refine ⟨fun msg hmsg => ?_, h.nested⟩
  rcases List.mem_cons.mp hmsg with heq | hmem
  · exact absurd heq.symm (hg msg)
  · exact h.hotkeys msg (List.mem_cons_of_mem _ hmem)

/-- What an activation pumps on top of is no test of a message. -/
theorem Stacked.head_below {f : Frame} {ui : List Frame} (h : Stacked (f :: ui)) (msg : Msg) :
    ui.head? ≠ some (.test msg) := by
  intro hhead
  have := h.nested (.test msg) (List.mem_of_head? hhead)
  simp [pumps] at this

/-- A wake-up message in the queue is the last wake-up's own. -/
theorem Kept.queued {p : State × Fate} (h : Kept p) (hmem : Msg.wakeUp ∈ p.1.queue) :
    p.2 = .queued := by
  by_contra hne
  have := h.queue
  rw [if_neg hne] at this
  exact List.count_eq_zero.mp this hmem

@[simp] theorem unanswered_mk (w : Watcher) (b : Bool) (n : Nat) (q : List Msg)
    (ui : List Frame) : Unanswered ⟨w, b, n, q, ui⟩ ↔
      w ≠ .poll ∧ n = 0 ∧ ui.countP Frame.isUvRun = 0 := Iff.rfl

/-- What is kept lets no step answer a wake-up twice. -/
theorem answersOnce_of_kept {p : State × Fate} {a : Action} (h : Kept p) (hok : OneMessage p a) :
    AnswersOnce p.1 a := by
  intro hentry
  cases a with
  | test =>
      rcases hui : p.1.ui with _ | ⟨f, ui⟩
      · simp [entersUvRun, hui] at hentry
      cases f with
      | test msg =>
          by_cases hmsg : msg = .wakeUp
          · exact (h.tested (by simp [hui, hmsg])).2
          · have hflag : flagged p.1 = true := by
              simpa [entersUvRun, flagged, hui, hmsg] using hentry
            rcases hok hflag with hf | hf <;> exact h.waits (by simp [hf])
      | _ => simp [entersUvRun, hui] at hentry
  | filterMessage =>
      obtain ⟨-, hhead⟩ : pumps p.1.ui = true ∧ p.1.queue.head? = some .wakeUp := by
        simpa [entersUvRun] using hentry
      exact h.waits (by simp [h.queued (List.mem_of_head? hhead)])
  | _ => simp [entersUvRun] at hentry

/-- Every step leaves a stack. -/
theorem stacked_step {s t : State} {a : Action} (hs : Stacked s.ui) (h : step s a = some t) :
    Stacked t.ui := by
  rcases s with ⟨w, trip, sem, queue, ui⟩
  cases a with
  | getMessage =>
      cases ui with
      | cons f ui => simp [step] at h
      | nil =>
          cases queue with
          | nil => simp [step] at h
          | cons msg queue =>
              simp only [step, Option.some.injEq] at h
              subst h
              by_cases hm : msg = .hotkey <;> exact ⟨by simp [hm], by simp⟩
  | filterMessage =>
      simp only [step, Option.ite_none_right_eq_some] at h
      obtain ⟨hp, h⟩ := h
      rcases queue with _ | ⟨msg, queue⟩
      · simp at h
      cases msg <;> simp only [Option.some.injEq] at h <;> subst h
      · refine ⟨fun msg hmsg => hs.hotkeys msg (by simpa using hmsg), fun f hf => ?_⟩
        rcases ui with _ | ⟨g, ui⟩
        · simp at hf
        · rcases List.mem_cons.mp hf with rfl | hmem
          · exact pumps_cons f ui ▸ hp
          · exact hs.nested f hmem
      · exact hs
      · exact hs
  | rogue =>
      simp only [step, Option.ite_none_right_eq_some] at h
      obtain ⟨-, h⟩ := h
      rcases queue with _ | ⟨msg, queue⟩ <;> simp only [Option.some.injEq, reduceCtorEq] at h
      subst h
      exact hs
  | test =>
      rcases ui with _ | ⟨f, ui⟩ <;> simp only [step] at h
      · simp at h
      cases f <;> simp only [reduceCtorEq] at h
      split at h <;> obtain rfl := Option.some.inj h <;> exact hs.replace (by simp)
  | hotkeyDone =>
      rcases ui with _ | ⟨f, ui⟩ <;> simp only [step] at h
      · simp at h
      cases f <;> simp only [Option.some.injEq, reduceCtorEq] at h
      subst h
      exact hs.replace (by simp)
  | resetTrip =>
      rcases ui with _ | ⟨f, ui⟩ <;> simp only [step] at h
      · simp at h
      cases f <;> simp only [Option.some.injEq, reduceCtorEq] at h
      subst h
      exact hs.replace (by simp)
  | uvRunDone =>
      rcases ui with _ | ⟨f, ui⟩ <;> simp only [step] at h
      · simp at h
      cases f with
      | uvRun caller =>
        cases caller <;> simp only [Option.some.injEq] at h <;> subst h
        · exact hs.replace (by simp)
        · exact hs.pop
      | _ => simp at h
  | dispatchDone =>
      rcases ui with _ | ⟨f, ui⟩ <;> simp only [step] at h
      · simp at h
      cases f <;> simp only [Option.some.injEq, reduceCtorEq] at h
      subst h
      exact hs.pop
  | arrive msg =>
      simp only [step, Option.some.injEq] at h
      subst h
      exact hs
  | _ =>
      simp only [step, Option.ite_none_right_eq_some, Option.some.injEq] at h
      obtain ⟨-, rfl⟩ := h
      exact hs

/-- **Step lemma.**  A step with one message for each wake-up keeps what is kept. -/
theorem kept_step {p q : State × Fate} {a : Action} (hp : Kept p) (hok : OneMessage p a)
    (h : track p a = some q) : Kept q := by
  obtain ⟨t, ht, rfl⟩ := Option.map_eq_some_iff.mp h
  have hbalanced := balanced_step hp.balanced (answersOnce_of_kept hp hok) ht
  have hstacked := stacked_step hp.stacked ht
  obtain ⟨⟨w, trip, sem, queue, ui⟩, f⟩ := p
  cases a with
  | broadcast n =>
      simp only [step, Option.ite_none_right_eq_some, Option.some.injEq] at ht
      obtain ⟨hw, rfl⟩ := ht
      obtain ⟨hsem, hruns⟩ := hp.balanced.1 hw
      have hf : f = .taken := by_contra fun hne => (hp.waits hne).1 hw
      have hcount := hp.queue
      have hn : n = 0 ∨ n = 1 := by simp only [OneMessage] at hok; omega
      refine ⟨hbalanced, ?_, fun _ => ⟨by simp, hsem, hruns⟩, fun hhead => ?_, hstacked⟩
      · rcases hn with rfl | rfl <;> simp_all [Fate.next]
      · exact absurd hw (hp.tested hhead).2.1
  | postThread lands =>
      simp only [step, Option.ite_none_right_eq_some, Option.some.injEq] at ht
      obtain ⟨hw, rfl⟩ := ht
      have hcount := hp.queue
      have hwaits := hp.waits
      have htested := hp.tested
      cases lands with
      | false => exact ⟨hbalanced, by simpa [Fate.next] using hcount,
          by simpa [Fate.next, hw] using hwaits, by simpa [Fate.next, hw] using htested, hstacked⟩
      | true =>
          obtain rfl : f = .unsent := hok rfl
          refine ⟨hbalanced, by simpa [Fate.next] using hcount,
            fun _ => by simpa [hw] using hwaits, fun hhead => ?_, hstacked⟩
          exact absurd (htested hhead).1 (by simp)
  | setTrip =>
      simp only [step, Option.ite_none_right_eq_some, Option.some.injEq] at ht
      obtain ⟨hw, rfl⟩ := ht
      exact ⟨hbalanced, hp.queue, by simpa [Fate.next, hw] using hp.waits,
        by simpa [Fate.next, hw] using hp.tested, hstacked⟩
  | semWait =>
      simp only [step, Option.ite_none_right_eq_some, Option.some.injEq] at ht
      obtain ⟨⟨hw, hpos⟩, rfl⟩ := ht
      have hanswered : ¬ Unanswered ⟨w, trip, sem, queue, ui⟩ := fun h => by
        simp at h
        omega
      exact ⟨hbalanced, hp.queue, fun hne => absurd (hp.waits hne) hanswered,
        fun hhead => absurd (hp.tested hhead).2 hanswered, hstacked⟩
  | arrive msg =>
      simp only [step, Option.some.injEq] at ht
      subst ht
      have hcount : [msg].count .wakeUp = 0 := List.count_eq_zero.mpr (by simpa using Ne.symm hok)
      refine ⟨hbalanced, ?_, hp.waits, hp.tested, hstacked⟩
      rw [List.count_append, hcount, Nat.add_zero]
      exact hp.queue
  | getMessage =>
      cases ui with
      | cons g ui => simp [step] at ht
      | nil =>
          cases queue with
          | nil => simp [step] at ht
          | cons msg queue =>
              simp only [step, Option.some.injEq] at ht
              subst ht
              have hcount := hp.queue
              by_cases hm : msg = .wakeUp
              · obtain rfl : f = .queued := hp.queued (by simp [hm])
                have hwaits := hp.waits (by simp)
                refine ⟨hbalanced, by simpa [hm, Fate.next] using hcount,
                  by simp [hm, Fate.next], fun _ => ?_, hstacked⟩
                exact ⟨by simp [hm, Fate.next], by simpa [hm, Frame.isUvRun] using hwaits⟩
              · refine ⟨hbalanced, by simpa [hm, Fate.next] using hcount, fun hne => ?_, ?_,
                  hstacked⟩
                · have hwaits := hp.waits (by simpa [hm, Fate.next] using hne)
                  by_cases hk : msg = .hotkey <;> simpa [hk, Frame.isUvRun] using hwaits
                · by_cases hk : msg = .hotkey <;> simp [hk, hm]
  | hotkeyDone =>
      rcases ui with _ | ⟨g, ui⟩ <;> simp only [step] at ht
      · simp at ht
      cases g <;> simp only [Option.some.injEq, reduceCtorEq] at ht
      case hotkey msg =>
        subst ht
        obtain rfl := hp.stacked.hotkeys msg List.mem_cons_self
        exact ⟨hbalanced, hp.queue, by simpa [Fate.next, Frame.isUvRun] using hp.waits, by simp,
          hstacked⟩
  | test =>
      rcases ui with _ | ⟨g, ui⟩ <;> simp only [step] at ht
      · simp at ht
      cases g <;> simp only [reduceCtorEq] at ht
      case test msg =>
        have hcount := hp.queue
        by_cases hm : msg = .wakeUp
        · obtain rfl : f = .taken := (hp.tested (by simp [hm])).1
          simp only [hm, or_true, if_true, Option.some.injEq] at ht
          subst ht
          exact ⟨hbalanced, by simpa [Fate.next] using hcount, by simp [Fate.next], by simp,
            hstacked⟩
        · by_cases htrip : trip = true
          · have hf : f = .unsent ∨ f = .lost := hok (by simp [flagged, hm, htrip])
            simp only [htrip, true_or, if_true, Option.some.injEq] at ht
            subst ht
            refine ⟨hbalanced, ?_, by simp [Fate.next, flagged, hm, htrip], by simp, hstacked⟩
            rcases hf with rfl | rfl <;> simpa [Fate.next, flagged, hm, htrip] using hcount
          · rw [if_neg (by simp [hm, htrip]), Option.some.injEq] at ht
            subst ht
            exact ⟨hbalanced, by simpa [Fate.next, flagged, htrip] using hcount,
              by simpa [Fate.next, flagged, htrip, Frame.isUvRun] using hp.waits, by simp, hstacked⟩
  | uvRunDone =>
      rcases ui with _ | ⟨g, ui⟩ <;> simp only [step] at ht
      · simp at ht
      cases g with
      | uvRun caller =>
        have hf : f = .taken := by_contra fun hne => by
          simpa [Frame.isUvRun] using hp.waits hne
        have hcount := hp.queue
        cases caller <;> simp only [Option.some.injEq] at ht <;> subst ht
        · exact ⟨hbalanced, hcount, fun hne => absurd hf hne, by simp, hstacked⟩
        · exact ⟨hbalanced, hcount, fun hne => absurd hf hne,
            fun hhead => absurd hhead (hp.stacked.head_below _), hstacked⟩
      | _ => simp at ht
  | resetTrip =>
      rcases ui with _ | ⟨g, ui⟩ <;> simp only [step] at ht
      · simp at ht
      cases g <;> simp only [Option.some.injEq, reduceCtorEq] at ht
      subst ht
      exact ⟨hbalanced, hp.queue, by simpa [Fate.next, Frame.isUvRun] using hp.waits, by simp,
        hstacked⟩
  | dispatchDone =>
      rcases ui with _ | ⟨g, ui⟩ <;> simp only [step] at ht
      · simp at ht
      cases g <;> simp only [Option.some.injEq, reduceCtorEq] at ht
      subst ht
      exact ⟨hbalanced, hp.queue, by simpa [Fate.next, Frame.isUvRun] using hp.waits,
        fun hhead => absurd hhead (hp.stacked.head_below _), hstacked⟩
  | filterMessage =>
      simp only [step, Option.ite_none_right_eq_some] at ht
      obtain ⟨hpumps, ht⟩ := ht
      have hcount := hp.queue
      rcases queue with _ | ⟨msg, queue⟩
      · simp at ht
      cases msg <;> simp only [Option.some.injEq] at ht <;> subst ht
      · obtain rfl : f = .queued := hp.queued (by simp)
        exact ⟨hbalanced, by simpa [Fate.next] using hcount, by simp [Fate.next], by simp, hstacked⟩
      all_goals exact ⟨hbalanced, by simpa [Fate.next] using hcount,
        by simpa [Fate.next] using hp.waits, by simpa [Fate.next] using hp.tested, hstacked⟩
  | rogue =>
      simp only [step, Option.ite_none_right_eq_some] at ht
      obtain ⟨hpumps, ht⟩ := ht
      have hcount := hp.queue
      rcases queue with _ | ⟨msg, queue⟩ <;> simp only [Option.some.injEq, reduceCtorEq] at ht
      subst ht
      by_cases hm : msg = .wakeUp
      · obtain rfl : f = .queued := hp.queued (by simp [hm])
        refine ⟨hbalanced, by simpa [hm, Fate.next] using hcount, fun _ => hp.waits (by simp),
          fun hhead => ?_, hstacked⟩
        exact absurd (hp.tested hhead).1 (by simp)
      · exact ⟨hbalanced, by simpa [hm, Fate.next] using hcount,
          by simpa [hm, Fate.next] using hp.waits, by simpa [hm, Fate.next] using hp.tested,
          hstacked⟩

/-- **Run lemma.**  Runs with one message for each wake-up keep what is kept, and answer no
wake-up twice. -/
theorem kept_of_reaches {p : State × Fate} (h : Reaches track OneMessage (start, .taken) p) :
    Kept p ∧ Reaches step AnswersOnce start p.1 := by
  refine h.invariant (fun p => Kept p ∧ Reaches step AnswersOnce start p.1) ?_
    fun p a q hp hok htaken => ⟨kept_step hp.1 hok htaken, ?_⟩
  · exact ⟨⟨⟨fun _ => ⟨rfl, rfl⟩, by decide⟩, rfl, by simp, by simp [start], ⟨by simp [start],
      by simp [start]⟩⟩, .start⟩
  · obtain ⟨t, ht, rfl⟩ := Option.map_eq_some_iff.mp htaken
    exact hp.2.next (answersOnce_of_kept hp.1 hok) ht

/-- **The handshake holds with one message for each wake-up.**  In every run in which no
wake-up message comes from elsewhere, one post of each wake-up lands at most, and other
messages find the flag set only after the wake-up's own message was lost, the count is at
most one and libuv never runs while the backend is polled. -/
theorem handshake_of_one_message {p : State × Fate}
    (h : Reaches track OneMessage (start, .taken) p) : Handshake p.1 :=
  handshake_of_unanswered (kept_of_reaches h).2

/-- A wake-up whose only message a loop without the hook swallows is answered for the flag's
sake by the next message; the one after it finds the flag clear. -/
theorem handshake_of_one_message_swallowed :
    ∃ p : State × Fate, p.1.watcher = .poll ∧ p.1.ui = [.dispatch .other] ∧ Handshake p.1 := by
  refine ⟨_, rfl, rfl, handshake_of_one_message
    (p := (⟨.poll, false, 0, [], [.dispatch .other]⟩, .taken))
    (reaches_of_run [.arrive .other, .getMessage, .test, .broadcast 0, .postThread true, .setTrip,
      .rogue, .dispatchDone, .arrive .other, .arrive .other, .getMessage, .test, .uvRunDone,
      .semWait, .resetTrip, .dispatchDone, .getMessage, .test] (by decide) (by decide))⟩

/-- **The flag is written too late.**  Only one of the two posts lands, and the
UI thread answers it before the watcher writes `uv_trip_winproc_safety`.  The
flag stays set for a wake-up that is over, and the next unrelated message runs
libuv while the watcher polls. -/
theorem handshake_broken_by_late_flag :
    ¬ ∀ s, Reaches step (fun _ _ => True) start s → Handshake s := by
  intro hall
  have hbad := hall ⟨.poll, true, 0, [], [.uvRun (.winMsgLoop .other)]⟩
    (reaches_of_run_any [.broadcast 0, .postThread true, .getMessage, .test,
      .uvRunDone, .resetTrip, .dispatchDone, .setTrip, .semWait, .arrive .other,
      .getMessage, .test] (by decide))
  revert hbad
  decide

/-- **No second answer.**  Let a step enter `uv_run_nowait` for a wake-up
that is already answered.  From there on the handshake survives only as long as
the UI thread is still inside libuv: two answers are out for one wait, and the
count may not hold both. -/
theorem answered_entry_never_returns {s t u : State} {a : Action}
    (ht : step s a = some t)
    (hanswered : ¬ AnswersOnce s a)
    (hsafe : Reaches step (fun v _ => Handshake v) t u) (hu : Handshake u) :
    0 < uvRuns u := by
  have hkeep : Handshake u → u.watcher ≠ .poll ∧ 2 ≤ u.sem + uvRuns u := by
    refine hsafe.invariant
      (fun v => Handshake v → v.watcher ≠ .poll ∧ 2 ≤ v.sem + uvRuns v) ?_ ?_
    · intro hshake
      obtain ⟨hentry, hnot⟩ : entersUvRun s a = true ∧ ¬ Unanswered s := by
        simpa [AnswersOnce] using hanswered
      cases step_effect ht with
      | enters _ watcher sem runs =>
          have hw : t.watcher ≠ .poll := fun hp => hshake.2 ⟨hp, by omega⟩
          refine ⟨hw, ?_⟩
          have : s.sem ≠ 0 ∨ uvRuns s ≠ 0 := by
            by_contra hzero
            push Not at hzero
            exact hnot ⟨watcher ▸ hw, hzero.1, hzero.2⟩
          omega
      | _ => simp_all
    · intro v b v' hv hshake hstep hshake'
      obtain ⟨hw, htwo⟩ := hv hshake
      have hone := hshake.1
      cases step_effect hstep with
      | posts _ was now sem runs => exact absurd was hw
      | wakes _ was now sem runs => exact absurd ⟨now, by omega⟩ hshake'.2
      | enters entry watcher sem runs => exact ⟨watcher ▸ hw, by omega⟩
      | leaves _ watcher sem runs => exact ⟨watcher ▸ hw, by omega⟩
      | quiet _ watcher sem runs => exact ⟨fun hp => hw (watcher.mp hp), by omega⟩
  have := hkeep hu
  have := hu.1
  omega

end EventLoop

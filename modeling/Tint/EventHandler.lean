import Tint.Threads
import Tint.Transition

/-!
# CLR events on their way to JavaScript

A `CLREventHandler` is attached to one CLR event.  A background thread that
raises the event stores the sender and the arguments in the handler's two
slots, sends the handler's `uv_async` and waits on its semaphore;
`clr_callback` later reads the slots on the v8 thread, calls the JavaScript
function and releases the semaphore if the sender slot is not null.  A raise on
the v8 thread clears the slots and calls the function at once.

There is one pair of slots and one coalescing `uv_async` for all raises, and
the slots say whether somebody waits.  So the hand-over works for one raise at
a time:

* `events_delivered` -- if a background raise has a sender and starts while
  nobody else uses the handler, and a v8 raise starts while no background raise
  is on its way, every event reaches JavaScript once, with its own sender and
  arguments, and every raiser is released once, after its own delivery;
* `events_lost_by_overwriting` -- two background raises at the same time: one
  event is lost and one thread waits forever.

The JavaScript function returns normally here; what it throws is rethrown after
the release.
-/

namespace EventHandler

open Threads Transition

variable {T Obj Args : Type*}

/-- One raise: its sender, which may be null, and its event arguments. -/
structure Event (Obj Args : Type*) where
  sender : Option Obj
  args : Option Args
  deriving DecidableEq

/-- The thread that raises: the v8 thread or a background thread. -/
inductive Raiser
  | v8
  | background
  deriving DecidableEq

/-- The program points of a background thread in `EventHandlerOnMain`. -/
inductive Place (Obj Args : Type*)
  | idle
  /-- `_sender` stored -/
  | storedSender (e : Event Obj Args)
  /-- `_eventargs` stored, about to send -/
  | storedArgs (e : Event Obj Args)
  /-- in `sem->WaitOne()` -/
  | waiting (e : Event Obj Args)

/-- An activation on the v8 thread. -/
inductive Frame (Obj Args : Type*)
  /-- `EventHandlerOnMain` on the v8 thread, `_sender` cleared -/
  | clearing (e : Event Obj Args)
  /-- `clr_callback` has been called -/
  | reading
  /-- `clr_callback`, `_sender` read -/
  | readSender (sender : Option Obj)
  /-- `EventHandler` is about to call the JavaScript function -/
  | handler (raiser : Raiser) (e : Event Obj Args)
  /-- the JavaScript function runs -/
  | running (raiser : Raiser) (e : Event Obj Args)

/-- The shared state.  `stack` holds the activations on the v8 thread that
belong to this handler, the innermost first.  The last lists record, in order,
what was raised, what was passed to the JavaScript function and which raises
returned.  `fault` is set when the semaphore is released beyond its maximum. -/
structure State (T Obj Args : Type*) where
  sender : Option Obj
  eventargs : Option Args
  pending : Bool
  sem : Nat
  background : T → Place Obj Args
  stack : List (Frame Obj Args)
  raised : List (Raiser × Event Obj Args)
  calls : List (Raiser × Event Obj Args)
  returned : List (Raiser × Event Obj Args)
  fault : Bool

/-- The handler is constructed and attached. -/
def start : State T Obj Args where
  sender := none
  eventargs := none
  pending := false
  sem := 0
  background := fun _ => .idle
  stack := []
  raised := []
  calls := []
  returned := []
  fault := false

/-- The steps of the background threads (with the thread) and of the v8 thread. -/
inductive Action (T Obj Args : Type*)
  | raise (t : T) (e : Event Obj Args)
  | storeArgs (t : T)
  | send (t : T)
  | wait (t : T)
  | raiseOnV8 (e : Event Obj Args)
  | clearArgs
  | deliver
  | readSender
  | readArgs
  | call
  | finish

/-- Everything but a raise has to happen once it is due. -/
def Owed : Action T Obj Args → Prop
  | .raise _ _ => False
  | .raiseOnV8 _ => False
  | _ => True

/-- Other code can run on the v8 thread: none of the handler's own code is on
top of the stack. -/
def interruptible : List (Frame Obj Args) → Bool
  | [] => true
  | .running _ _ :: _ => true
  | _ => false

section Step

variable [DecidableEq T]

/-- The state after thread `t` moved to `p`. -/
def State.goto (s : State T Obj Args) (t : T) (p : Place Obj Args) : State T Obj Args :=
  { s with background := Function.update s.background t p }

/-- What a background thread or the v8 thread does next. -/
def act (s : State T Obj Args) : Action T Obj Args → Option (State T Obj Args)
  | .raise t e =>
      match s.background t with
      | .idle =>
          some ({ s with
            sender := e.sender
            raised := s.raised ++ [(Raiser.background, e)] }.goto t (.storedSender e))
      | _ => none
  | .storeArgs t =>
      match s.background t with
      | .storedSender e => some ({ s with eventargs := e.args }.goto t (.storedArgs e))
      | _ => none
  | .send t =>
      match s.background t with
      | .storedArgs e => some ({ s with pending := true }.goto t (.waiting e))
      | _ => none
  | .wait t =>
      match s.background t with
      | .waiting e =>
          if 0 < s.sem then
            some ({ s with
              sem := s.sem - 1
              returned := s.returned ++ [(Raiser.background, e)] }.goto t .idle)
          else none
      | _ => none
  | .raiseOnV8 e =>
      if interruptible s.stack then
        some { s with
          sender := none
          stack := .clearing e :: s.stack
          raised := s.raised ++ [(.v8, e)] }
      else none
  | .clearArgs =>
      match s.stack with
      | .clearing e :: stack =>
          some { s with eventargs := none, stack := .handler .v8 e :: stack }
      | _ => none
  | .deliver =>
      if interruptible s.stack ∧ s.pending then
        some { s with pending := false, stack := .reading :: s.stack }
      else none
  | .readSender =>
      match s.stack with
      | .reading :: stack => some { s with stack := .readSender s.sender :: stack }
      | _ => none
  | .readArgs =>
      match s.stack with
      | .readSender sender :: stack =>
          some { s with stack := .handler .background ⟨sender, s.eventargs⟩ :: stack }
      | _ => none
  | .call =>
      match s.stack with
      | .handler raiser e :: stack =>
          some { s with
            stack := .running raiser e :: stack
            calls := s.calls ++ [(raiser, e)] }
      | _ => none
  | .finish =>
      match s.stack with
      | .running raiser e :: stack =>
          some { s with
            stack := stack
            -- `if(_sender != nullptr) sem->Release();`
            sem := if s.sender.isSome ∧ s.sem = 0 then 1 else s.sem
            returned := if raiser = .v8 then s.returned ++ [(.v8, e)] else s.returned
            fault := s.fault || (s.sender.isSome && s.sem != 0) }
      | _ => none

/-- One step; a process that overran the semaphore is followed no further. -/
def step (s : State T Obj Args) (a : Action T Obj Args) : Option (State T Obj Args) :=
  if s.fault then none else act s a

end Step

/-- The activation belongs to a v8 raise. -/
def Frame.IsOwn (f : Frame Obj Args) : Prop :=
  (∃ e, f = .clearing e) ∨ (∃ e, f = .handler .v8 e) ∨ ∃ e, f = .running .v8 e

/-- No background raise is before the end of its delivery. -/
def NoneUnderway (s : State T Obj Args) : Prop :=
  s.pending = false ∧
    (∀ t, s.background t = .idle ∨ ∃ e, s.background t = .waiting e) ∧
    ∀ f ∈ s.stack, f.IsOwn

/-- The condition on a step: a background raise has a sender and finds the
handler unused, and a v8 raise finds no background raise on its way. -/
def OneAtATime (s : State T Obj Args) : Action T Obj Args → Prop
  | .raise _ e => e.sender ≠ none ∧ (∀ t, s.background t = .idle) ∧ s.stack = []
  | .raiseOnV8 _ => NoneUnderway s
  | _ => True

/-- What holds at any time: nothing is passed to JavaScript that was not
raised, with this sender and these arguments and as often, no raise returns
before its own delivery, and the semaphore is never released twice. -/
def Delivered (s : State T Obj Args) : Prop :=
  s.fault = false ∧ s.calls.Subperm s.raised ∧ s.returned.Subperm s.calls

/-- What holds when everything raised is over: each event was passed to
JavaScript exactly once, each raiser was released, and no release is left. -/
def AllDelivered (s : State T Obj Args) : Prop :=
  (∀ t, s.background t = .idle) ∧ s.stack = [] ∧ s.sem = 0 ∧ s.pending = false ∧
    s.calls.Perm s.raised ∧ s.returned.Perm s.calls

/-! ## The invariant -/

/-- How far the one background raise is. -/
inductive Stage
  | storedSender
  | storedArgs
  | sent
  | reading
  | readSender
  | handler
  | running

/-- Where the raising thread is. -/
def Stage.place (e : Event Obj Args) : Stage → Place Obj Args
  | .storedSender => .storedSender e
  | .storedArgs => .storedArgs e
  | _ => .waiting e

/-- The v8 thread's stack. -/
def Stage.frames (e : Event Obj Args) : Stage → List (Frame Obj Args)
  | .reading => [.reading]
  | .readSender => [.readSender e.sender]
  | .handler => [.handler .background e]
  | .running => [.running .background e]
  | _ => []

/-- Whether the async handle is to be delivered. -/
def Stage.pending : Stage → Bool
  | .sent => true
  | _ => false

/-- The raise that has not been passed to JavaScript. -/
def Stage.uncalled (e : Event Obj Args) : Stage → List (Raiser × Event Obj Args)
  | .running => []
  | _ => [(.background, e)]

/-- The raise that was passed to JavaScript and has not returned. -/
def Stage.opened (e : Event Obj Args) : Stage → List (Raiser × Event Obj Args)
  | .running => [(.background, e)]
  | _ => []

/-- The raise of an activation that has not called JavaScript. -/
def Frame.uncalled : Frame Obj Args → List (Raiser × Event Obj Args)
  | .clearing e => [(.v8, e)]
  | .handler raiser e => [(raiser, e)]
  | _ => []

/-- The raise of an activation that is in JavaScript. -/
def Frame.opened : Frame Obj Args → List (Raiser × Event Obj Args)
  | .running raiser e => [(raiser, e)]
  | _ => []

/-- The background raise that is over but for the return from the wait. -/
def released : Option (T × Event Obj Args) → List (Raiser × Event Obj Args)
  | some (_, e) => [(.background, e)]
  | none => []

section Books

variable [DecidableEq T]

/-- The places of the background threads when at most one is still to return. -/
def leaving : Option (T × Event Obj Args) → T → Place Obj Args
  | some (t, e) => alone .idle t (.waiting e)
  | none => fun _ => .idle

/-- No background raise is on its way; one may still have to return. -/
structure Quiet (s : State T Obj Args) (w : Option (T × Event Obj Args)) : Prop where
  background : s.background = leaving w
  sem : s.sem = (released w).length
  pending : s.pending = false
  frames : ∀ f ∈ s.stack, f.IsOwn
  cleared : s.stack ≠ [] → s.sender = none
  raised : bag s.raised = bag s.calls + bag (s.stack.flatMap Frame.uncalled)
  calls : bag s.calls = bag s.returned + bag (s.stack.flatMap Frame.opened) + bag (released w)

/-- The background raise of thread `t` with event `e` is on its way. -/
structure Underway (s : State T Obj Args) (t : T) (e : Event Obj Args) (stage : Stage) :
    Prop where
  background : s.background = alone .idle t (stage.place e)
  sem : s.sem = 0
  pending : s.pending = stage.pending
  stack : s.stack = stage.frames e
  sender : s.sender = e.sender
  hasSender : e.sender ≠ none
  eventargs : stage ≠ .storedSender → s.eventargs = e.args
  raised : bag s.raised = bag s.calls + bag (stage.uncalled e)
  calls : bag s.calls = bag s.returned + bag (stage.opened e)

/-- **The invariant.**  The semaphore was not overrun, and the handler serves at
most one background raise. -/
def Inv (s : State T Obj Args) : Prop :=
  s.fault = false ∧ ((∃ w, Quiet s w) ∨ ∃ t e stage, Underway s t e stage)

/-- Somebody who waits while no raise is on its way is the one to return. -/
theorem Quiet.waiter {s : State T Obj Args} {w : Option (T × Event Obj Args)}
    (h : Quiet s w) {t : T} (ht : s.background t ≠ .idle) : ∃ e, w = some (t, e) := by
  rw [h.background] at ht
  rcases w with _ | ⟨u, e⟩
  · exact absurd rfl ht
  · exact ⟨e, by rw [eq_of_alone ht]⟩

/-- The place of a background thread in a quiet handler. -/
theorem Quiet.place {s : State T Obj Args} {w : Option (T × Event Obj Args)}
    (h : Quiet s w) (t : T) : s.background t = .idle ∨ ∃ e, s.background t = .waiting e := by
  by_cases ht : s.background t = .idle
  · exact Or.inl ht
  · obtain ⟨e, rfl⟩ := h.waiter ht
    exact Or.inr ⟨e, by rw [h.background]; exact alone_self _ t _⟩

/-- The v8 thread's own activations are none of `clr_callback`. -/
theorem Quiet.top {s : State T Obj Args} {w : Option (T × Event Obj Args)}
    (h : Quiet s w) {f : Frame Obj Args} {stack : List (Frame Obj Args)}
    (hs : s.stack = f :: stack) : f.IsOwn :=
  h.frames f (by rw [hs]; exact List.mem_cons_self)

/-! ### One lemma for each move -/

/-- A background raise starts. -/
theorem Quiet.raise {s : State T Obj Args} {w : Option (T × Event Obj Args)}
    (h : Quiet s w) {t : T} {e : Event Obj Args} (hsender : e.sender ≠ none)
    (hidle : ∀ u, s.background u = .idle) (hstack : s.stack = []) :
    Underway ({ s with
      sender := e.sender
      raised := s.raised ++ [(Raiser.background, e)] }.goto t (.storedSender e))
      t e .storedSender := by
  obtain rfl : w = none := by
    rcases w with _ | ⟨u, e'⟩
    · rfl
    · have := hidle u
      rw [h.background] at this
      simp [leaving] at this
  have hraised := h.raised
  have hcalls := h.calls
  simp only [hstack, List.flatMap_nil, bag_nil, add_zero] at hraised hcalls
  constructor
  · simp [State.goto, h.background, leaving, alone, Stage.place]
  · exact h.sem
  · exact h.pending
  · exact hstack
  · rfl
  · exact hsender
  · intro hne
    exact absurd rfl hne
  · simp [State.goto, Stage.uncalled, hraised]
  · simpa [State.goto, Stage.opened, released] using hcalls

/-- The thread that waits returns. -/
theorem Quiet.wait {s : State T Obj Args} {t : T} {e : Event Obj Args}
    (h : Quiet s (some (t, e))) :
    Quiet ({ s with
      sem := s.sem - 1
      returned := s.returned ++ [(Raiser.background, e)] }.goto t .idle) none := by
  constructor
  · simp [State.goto, h.background, leaving, update_alone, alone_rest]
  · simp [State.goto, h.sem, released]
  · exact h.pending
  · exact h.frames
  · exact h.cleared
  · exact h.raised
  · simp only [State.goto, bag_append, h.calls, released, bag_nil, add_zero]
    exact add_right_comm ..

/-- A raise on the v8 thread starts. -/
theorem Quiet.raiseOnV8 {s : State T Obj Args} {w : Option (T × Event Obj Args)}
    (h : Quiet s w) (e : Event Obj Args) :
    Quiet { s with
      sender := none
      stack := .clearing e :: s.stack
      raised := s.raised ++ [(.v8, e)] } w := by
  constructor
  · exact h.background
  · exact h.sem
  · exact h.pending
  · intro f hf
    rcases List.mem_cons.mp hf with rfl | hf
    · exact Or.inl ⟨e, rfl⟩
    · exact h.frames f hf
  · exact fun _ => rfl
  · simp only [bag_append, h.raised, List.flatMap_cons, Frame.uncalled]
    ac_rfl
  · simpa [Frame.opened] using h.calls

/-- The top activation of a v8 raise is replaced. -/
theorem Quiet.replace {s : State T Obj Args} {w : Option (T × Event Obj Args)}
    (h : Quiet s w) {f f' : Frame Obj Args} {stack : List (Frame Obj Args)}
    {eventargs : Option Args} {now : List (Raiser × Event Obj Args)}
    (hs : s.stack = f :: stack) (hf' : f'.IsOwn)
    (huncalled : bag f.uncalled = bag f'.uncalled + bag now)
    (hopened : bag f'.opened = bag f.opened + bag now) :
    Quiet { s with
      eventargs := eventargs
      stack := f' :: stack
      calls := s.calls ++ now } w := by
  constructor
  · exact h.background
  · exact h.sem
  · exact h.pending
  · intro g hg
    rcases List.mem_cons.mp hg with rfl | hg
    · exact hf'
    · exact h.frames g (by rw [hs]; exact List.mem_cons_of_mem _ hg)
  · intro _
    exact h.cleared (by simp [hs])
  · simp only [bag_append, h.raised, hs, List.flatMap_cons, huncalled]
    ac_rfl
  · simp only [bag_append, h.calls, hs, List.flatMap_cons, hopened]
    ac_rfl

/-- A v8 raise returns; the cleared slot keeps it away from the semaphore. -/
theorem Quiet.finish {s : State T Obj Args} {w : Option (T × Event Obj Args)}
    (h : Quiet s w) {e : Event Obj Args} {stack : List (Frame Obj Args)}
    (hs : s.stack = .running .v8 e :: stack) :
    Quiet { s with stack := stack, returned := s.returned ++ [(.v8, e)] } w := by
  constructor
  · exact h.background
  · exact h.sem
  · exact h.pending
  · exact fun f hf => h.frames f (by rw [hs]; exact List.mem_cons_of_mem _ hf)
  · intro _
    exact h.cleared (by simp [hs])
  · have := h.raised
    simpa [hs, Frame.uncalled] using this
  · simp only [bag_append, h.calls, hs, List.flatMap_cons, Frame.opened]
    rw [add_right_comm, add_assoc _ (bag [_]), add_right_comm]

/-- A background raise goes on by one program point. -/
theorem Underway.move {s s' : State T Obj Args} {t : T} {e : Event Obj Args}
    {stage stage' : Stage} (h : Underway s t e stage)
    (background : s'.background = alone .idle t (stage'.place e)) (sem : s'.sem = s.sem)
    (pending : s'.pending = stage'.pending) (stack : s'.stack = stage'.frames e)
    (sender : s'.sender = s.sender)
    (eventargs : stage' ≠ .storedSender → s'.eventargs = e.args)
    (raised : s'.raised = s.raised) (returned : s'.returned = s.returned)
    (uncalled : bag s'.calls + bag (stage'.uncalled e) = bag s.calls + bag (stage.uncalled e))
    (opened : bag s'.calls + bag (stage.opened e) = bag s.calls + bag (stage'.opened e)) :
    Underway s' t e stage' where
  background := background
  sem := sem.trans h.sem
  pending := pending
  stack := stack
  sender := sender.trans h.sender
  hasSender := h.hasSender
  eventargs := eventargs
  raised := by rw [raised, h.raised, uncalled]
  calls := by
    have hcalls := h.calls
    rw [hcalls] at opened
    rw [returned]
    refine add_right_cancel (b := bag (stage.opened e)) ?_
    rw [opened]
    ac_rfl

/-- The delivery of a background raise ends: its sender is in the slot, so the
semaphore is released for the thread that waits. -/
theorem Underway.finish {s : State T Obj Args} {t : T} {e : Event Obj Args}
    (h : Underway s t e .running) :
    Quiet { s with stack := [], sem := 1 } (some (t, e)) := by
  constructor
  · exact h.background
  · rfl
  · exact h.pending
  · simp
  · exact fun hne => absurd rfl hne
  · simpa [Stage.uncalled] using h.raised
  · simpa [Stage.opened, released] using h.calls

/-! ### Steps and runs -/

/-- A thread away from `idle` is the raiser on its way, and its place tells how
far it is. -/
theorem Underway.place {s : State T Obj Args} {t u : T} {e : Event Obj Args} {stage : Stage}
    (h : Underway s t e stage) (hu : s.background u ≠ .idle) :
    u = t ∧ s.background u = stage.place e := by
  rw [h.background] at hu ⊢
  obtain rfl := eq_of_alone hu
  exact ⟨rfl, alone_self ..⟩

/-- A raise of a background thread, by its sender, its event and its raiser,
does not start while another is on its way. -/
theorem Underway.not_idle {s : State T Obj Args} {t : T} {e : Event Obj Args}
    {stage : Stage} (h : Underway s t e stage) : s.background t ≠ .idle := by
  rw [h.background, alone_self]
  cases stage <;> simp [Stage.place]

/-- As long as a background raise is on its way the v8 thread may not raise. -/
theorem Underway.not_noneUnderway {s : State T Obj Args} {t : T} {e : Event Obj Args}
    {stage : Stage} (h : Underway s t e stage) : ¬ NoneUnderway s := by
  rintro ⟨hpending, hplaces, hframes⟩
  have hplace := hplaces t
  rw [h.background, alone_self] at hplace
  rw [h.pending] at hpending
  rw [h.stack] at hframes
  cases stage <;>
    simp [Stage.place, Stage.pending, Stage.frames, Frame.IsOwn] at hplace hpending hframes

/-! ### What each step does -/

/-- A background thread stores the arguments behind the sender. -/
theorem act_storeArgs {s s' : State T Obj Args} {t : T} (h : act s (.storeArgs t) = some s') :
    ∃ e, s.background t = .storedSender e ∧
      s' = { s with eventargs := e.args }.goto t (.storedArgs e) := by
  simp only [act] at h
  split at h
  case h_1 e ht => exact ⟨e, ht, (Option.some.inj h).symm⟩
  case h_2 => cases h

/-- A background thread sends the wake-up. -/
theorem act_send {s s' : State T Obj Args} {t : T} (h : act s (.send t) = some s') :
    ∃ e, s.background t = .storedArgs e ∧
      s' = { s with pending := true }.goto t (.waiting e) := by
  simp only [act] at h
  split at h
  case h_1 e ht => exact ⟨e, ht, (Option.some.inj h).symm⟩
  case h_2 => cases h

/-- A background thread goes on once the semaphore was posted. -/
theorem act_wait {s s' : State T Obj Args} {t : T} (h : act s (.wait t) = some s') :
    ∃ e, s.background t = .waiting e ∧ 0 < s.sem ∧
      s' = { s with
        sem := s.sem - 1
        returned := s.returned ++ [(Raiser.background, e)] }.goto t .idle := by
  simp only [act] at h
  split at h
  case h_1 e ht =>
    obtain ⟨hsem, h⟩ := Option.ite_none_right_eq_some.mp h
    exact ⟨e, ht, hsem, (Option.some.inj h).symm⟩
  case h_2 => cases h

/-- The main thread clears the arguments before its own event. -/
theorem act_clearArgs {s s' : State T Obj Args} (h : act s .clearArgs = some s') :
    ∃ e stack, s.stack = .clearing e :: stack ∧
      s' = { s with eventargs := none, stack := .handler .v8 e :: stack } := by
  simp only [act] at h
  split at h
  case h_1 e stack hstack => exact ⟨e, stack, hstack, (Option.some.inj h).symm⟩
  case h_2 => cases h

/-- The wake-up reads the sender from the slot. -/
theorem act_readSender {s s' : State T Obj Args} (h : act s .readSender = some s') :
    ∃ stack, s.stack = .reading :: stack ∧
      s' = { s with stack := .readSender s.sender :: stack } := by
  simp only [act] at h
  split at h
  case h_1 stack hstack => exact ⟨stack, hstack, (Option.some.inj h).symm⟩
  case h_2 => cases h

/-- It reads the arguments from the slot. -/
theorem act_readArgs {s s' : State T Obj Args} (h : act s .readArgs = some s') :
    ∃ sender stack, s.stack = .readSender sender :: stack ∧
      s' = { s with stack := .handler .background ⟨sender, s.eventargs⟩ :: stack } := by
  simp only [act] at h
  split at h
  case h_1 sender stack hstack => exact ⟨sender, stack, hstack, (Option.some.inj h).symm⟩
  case h_2 => cases h

/-- The handler is called with what was read. -/
theorem act_call {s s' : State T Obj Args} (h : act s .call = some s') :
    ∃ raiser e stack, s.stack = .handler raiser e :: stack ∧
      s' = { s with
        stack := .running raiser e :: stack
        calls := s.calls ++ [(raiser, e)] } := by
  simp only [act] at h
  split at h
  case h_1 raiser e stack hstack => exact ⟨raiser, e, stack, hstack, (Option.some.inj h).symm⟩
  case h_2 => cases h

/-- The handler comes back, and the waiting thread is posted. -/
theorem act_finish {s s' : State T Obj Args} (h : act s .finish = some s') :
    ∃ raiser e stack, s.stack = .running raiser e :: stack ∧
      s' = { s with
        stack := stack
        sem := if s.sender.isSome ∧ s.sem = 0 then 1 else s.sem
        returned := if raiser = .v8 then s.returned ++ [(.v8, e)] else s.returned
        fault := s.fault || (s.sender.isSome && s.sem != 0) } := by
  simp only [act] at h
  split at h
  case h_1 raiser e stack hstack => exact ⟨raiser, e, stack, hstack, (Option.some.inj h).symm⟩
  case h_2 => cases h

/-! ### The invariant through each step -/

/-- An event is raised while no other one is in the slots. -/
theorem inv_raise {s s' : State T Obj Args} {t : T} {e : Event Obj Args} (hs : Inv s)
    (hok : OneAtATime s (.raise t e)) (h : act s (.raise t e) = some s') : Inv s' := by
  obtain ⟨hfault, hs⟩ := hs
  obtain ⟨hsender, hidle, hstack⟩ := hok
  simp only [act, hidle t, Option.some.injEq] at h
  subst h
  rcases hs with ⟨w, hq⟩ | ⟨u, e', stage, hu⟩
  · exact ⟨hfault, Or.inr ⟨t, e, .storedSender, hq.raise hsender hidle hstack⟩⟩
  · exact absurd (hidle u) hu.not_idle

/-- The arguments belong to the sender in the slot. -/
theorem inv_storeArgs {s s' : State T Obj Args} {t : T} (hs : Inv s)
    (h : act s (.storeArgs t) = some s') : Inv s' := by
  obtain ⟨hfault, hs⟩ := hs
  obtain ⟨e, ht, rfl⟩ := act_storeArgs h
  rcases hs with ⟨w, hq⟩ | ⟨u, e', stage, hu⟩
  · simpa [ht] using hq.place t
  · obtain ⟨rfl, hplace⟩ := hu.place (u := t) (by simp [ht])
    rw [ht] at hplace
    cases stage <;> simp only [Stage.place, reduceCtorEq, Place.storedSender.injEq] at hplace
    subst hplace
    refine ⟨hfault, Or.inr ⟨t, e, .storedArgs, hu.move ?_ rfl hu.pending hu.stack rfl
      (fun _ => rfl) rfl rfl rfl rfl⟩⟩
    simp [State.goto, hu.background, update_alone, Stage.place]

/-- The wake-up is pending for the event in the slots. -/
theorem inv_send {s s' : State T Obj Args} {t : T} (hs : Inv s)
    (h : act s (.send t) = some s') : Inv s' := by
  obtain ⟨hfault, hs⟩ := hs
  obtain ⟨e, ht, rfl⟩ := act_send h
  rcases hs with ⟨w, hq⟩ | ⟨u, e', stage, hu⟩
  · simpa [ht] using hq.place t
  · obtain ⟨rfl, hplace⟩ := hu.place (u := t) (by simp [ht])
    rw [ht] at hplace
    cases stage <;> simp only [Stage.place, reduceCtorEq, Place.storedArgs.injEq] at hplace
    subst hplace
    refine ⟨hfault, Or.inr ⟨t, e, .sent, hu.move ?_ rfl rfl hu.stack rfl
      (fun _ => hu.eventargs (by simp)) rfl rfl rfl rfl⟩⟩
    simp [State.goto, hu.background, update_alone, Stage.place]

/-- The event is over when the thread goes on. -/
theorem inv_wait {s s' : State T Obj Args} {t : T} (hs : Inv s)
    (h : act s (.wait t) = some s') : Inv s' := by
  obtain ⟨hfault, hs⟩ := hs
  obtain ⟨e, ht, hsem, rfl⟩ := act_wait h
  rcases hs with ⟨w, hq⟩ | ⟨u, e', stage, hu⟩
  · obtain ⟨e', rfl⟩ := hq.waiter (t := t) (by simp [ht])
    have hplace := hq.background
    rw [funext_iff] at hplace
    have := hplace t
    simp only [leaving, alone_self, ht, Place.waiting.injEq] at this
    subst this
    exact ⟨hfault, Or.inl ⟨none, hq.wait⟩⟩
  · have := hu.sem
    omega

/-- The main thread raises its event while the slots are free. -/
theorem inv_raiseOnV8 {s s' : State T Obj Args} {e : Event Obj Args} (hs : Inv s)
    (hok : OneAtATime s (.raiseOnV8 e)) (h : act s (.raiseOnV8 e) = some s') : Inv s' := by
  obtain ⟨hfault, hs⟩ := hs
  simp only [act, Option.ite_none_right_eq_some, Option.some.injEq] at h
  obtain ⟨-, rfl⟩ := h
  rcases hs with ⟨w, hq⟩ | ⟨u, e', stage, hu⟩
  · exact ⟨hfault, Or.inl ⟨w, hq.raiseOnV8 e⟩⟩
  · exact absurd hok hu.not_noneUnderway

/-- The main thread calls with its own event. -/
theorem inv_clearArgs {s s' : State T Obj Args} (hs : Inv s)
    (h : act s .clearArgs = some s') : Inv s' := by
  obtain ⟨hfault, hs⟩ := hs
  obtain ⟨e, stack, hstack, rfl⟩ := act_clearArgs h
  rcases hs with ⟨w, hq⟩ | ⟨u, e', stage, hu⟩
  · have : Quiet { s with
        eventargs := none
        stack := .handler .v8 e :: stack
        calls := s.calls ++ [] } w :=
      hq.replace hstack (Or.inr (Or.inl ⟨e, rfl⟩)) rfl rfl
    exact ⟨hfault, Or.inl ⟨w, by simpa using this⟩⟩
  · have := hu.stack.symm.trans hstack
    cases stage <;> simp [Stage.frames] at this

/-- The pending wake-up is delivered once. -/
theorem inv_deliver {s s' : State T Obj Args} (hs : Inv s)
    (h : act s .deliver = some s') : Inv s' := by
  obtain ⟨hfault, hs⟩ := hs
  simp only [act, Option.ite_none_right_eq_some, Option.some.injEq] at h
  obtain ⟨⟨-, hpending⟩, rfl⟩ := h
  rcases hs with ⟨w, hq⟩ | ⟨u, e', stage, hu⟩
  · simp [hq.pending] at hpending
  · cases stage <;> simp only [hu.pending, Stage.pending, Bool.false_eq_true] at hpending
    exact ⟨hfault, Or.inr ⟨u, e', .reading, hu.move hu.background rfl rfl
      (by simp [hu.stack, Stage.frames]) rfl (fun _ => hu.eventargs (by simp)) rfl rfl rfl rfl⟩⟩

/-- The sender that is read is the one of the event. -/
theorem inv_readSender {s s' : State T Obj Args} (hs : Inv s)
    (h : act s .readSender = some s') : Inv s' := by
  obtain ⟨hfault, hs⟩ := hs
  obtain ⟨stack, hstack, rfl⟩ := act_readSender h
  rcases hs with ⟨w, hq⟩ | ⟨u, e', stage, hu⟩
  · have := hq.top hstack
    simp [Frame.IsOwn] at this
  · have := hu.stack.symm.trans hstack
    cases stage <;> simp [Stage.frames] at this
    subst this
    exact ⟨hfault, Or.inr ⟨u, e', .readSender, hu.move hu.background rfl hu.pending
      (by simp [hu.sender, Stage.frames]) rfl (fun _ => hu.eventargs (by simp))
      rfl rfl rfl rfl⟩⟩

/-- The arguments that are read are those of the event. -/
theorem inv_readArgs {s s' : State T Obj Args} (hs : Inv s)
    (h : act s .readArgs = some s') : Inv s' := by
  obtain ⟨hfault, hs⟩ := hs
  obtain ⟨sender, stack, hstack, rfl⟩ := act_readArgs h
  rcases hs with ⟨w, hq⟩ | ⟨u, e', stage, hu⟩
  · have := hq.top hstack
    simp [Frame.IsOwn] at this
  · have := hu.stack.symm.trans hstack
    cases stage <;> simp [Stage.frames] at this
    obtain ⟨rfl, rfl⟩ := this
    exact ⟨hfault, Or.inr ⟨u, e', .handler, hu.move hu.background rfl hu.pending
      (by simp [hu.eventargs, Stage.frames]) rfl (fun _ => hu.eventargs (by simp))
      rfl rfl rfl rfl⟩⟩

/-- The handler is called for the event that was raised. -/
theorem inv_call {s s' : State T Obj Args} (hs : Inv s)
    (h : act s .call = some s') : Inv s' := by
  obtain ⟨hfault, hs⟩ := hs
  obtain ⟨raiser, e, stack, hstack, rfl⟩ := act_call h
  rcases hs with ⟨w, hq⟩ | ⟨u, e', stage, hu⟩
  · obtain rfl : raiser = .v8 := by
      have := hq.top hstack
      simpa [Frame.IsOwn] using this
    exact ⟨hfault, Or.inl ⟨w, hq.replace hstack (Or.inr (Or.inr ⟨e, rfl⟩))
      (by simp [Frame.uncalled]) (by simp [Frame.opened])⟩⟩
  · have := hu.stack.symm.trans hstack
    cases stage <;> simp [Stage.frames] at this
    obtain ⟨⟨rfl, rfl⟩, rfl⟩ := this
    exact ⟨hfault, Or.inr ⟨u, e', .running, hu.move hu.background rfl hu.pending
      rfl rfl (fun _ => hu.eventargs (by simp)) rfl rfl
      (by simp [Stage.uncalled]) (by simp [Stage.opened])⟩⟩

/-- The event is over, and its thread may go on. -/
theorem inv_finish {s s' : State T Obj Args} (hs : Inv s)
    (h : act s .finish = some s') : Inv s' := by
  obtain ⟨hfault, hs⟩ := hs
  obtain ⟨raiser, e, stack, hstack, rfl⟩ := act_finish h
  rcases hs with ⟨w, hq⟩ | ⟨u, e', stage, hu⟩
  · obtain rfl : raiser = .v8 := by
      have := hq.top hstack
      simpa [Frame.IsOwn] using this
    have hnull : s.sender = none := hq.cleared (by simp [hstack])
    refine ⟨by simp [hfault, hnull], Or.inl ⟨w, ?_⟩⟩
    simpa [hnull, hfault] using hq.finish hstack
  · have := hu.stack.symm.trans hstack
    cases stage <;> simp [Stage.frames] at this
    obtain ⟨⟨rfl, rfl⟩, rfl⟩ := this
    have hsender : s.sender.isSome = true := by
      rw [hu.sender, Option.isSome_iff_ne_none]
      exact hu.hasSender
    refine ⟨by simp [hfault, hu.sem], Or.inl ⟨some (u, e'), ?_⟩⟩
    simpa [hsender, hu.sem, hfault] using hu.finish

/-- One step under the condition keeps the invariant. -/
theorem inv_step {s s' : State T Obj Args} {a : Action T Obj Args} (hs : Inv s)
    (hok : OneAtATime s a) (h : step s a = some s') : Inv s' := by
  simp only [step, hs.1, Bool.false_eq_true, if_false] at h
  cases a with
  | raise t e => exact inv_raise hs hok h
  | storeArgs t => exact inv_storeArgs hs h
  | send t => exact inv_send hs h
  | wait t => exact inv_wait hs h
  | raiseOnV8 e => exact inv_raiseOnV8 hs hok h
  | clearArgs => exact inv_clearArgs hs h
  | deliver => exact inv_deliver hs h
  | readSender => exact inv_readSender hs h
  | readArgs => exact inv_readArgs hs h
  | call => exact inv_call hs h
  | finish => exact inv_finish hs h

/-- Runs under the condition keep the invariant. -/
theorem inv_of_reaches {s : State T Obj Args} (h : Reaches step OneAtATime start s) :
    Inv s := by
  refine h.invariant Inv ?_ fun s a t hs hok ht => inv_step hs hok ht
  refine ⟨rfl, Or.inl ⟨none, ?_⟩⟩
  constructor <;> simp [start, leaving, released]

/-- The invariant says what was delivered so far. -/
theorem Inv.delivered {s : State T Obj Args} (hs : Inv s) : Delivered s := by
  obtain ⟨hfault, ⟨w, hq⟩ | ⟨t, e, stage, hu⟩⟩ := hs
  · refine ⟨hfault, subperm_of_bag_eq hq.raised, ?_⟩
    exact subperm_of_bag_eq (hq.calls.trans (add_assoc _ _ _))
  · exact ⟨hfault, subperm_of_bag_eq hu.raised, subperm_of_bag_eq hu.calls⟩

/-- A background raise on its way has a next step. -/
theorem Underway.not_atRest {s : State T Obj Args} {t : T} {e : Event Obj Args}
    {stage : Stage} (h : Underway s t e stage) (hfault : s.fault = false) :
    ¬ AtRest step Owed s := by
  intro hrest
  have hplace : s.background t = stage.place e := by rw [h.background, alone_self]
  have hstack := h.stack
  have hpending := h.pending
  cases stage with
  | storedSender =>
      simpa [step, act, hfault, hplace, Stage.place] using hrest (.storeArgs t) trivial
  | storedArgs => simpa [step, act, hfault, hplace, Stage.place] using hrest (.send t) trivial
  | sent =>
      simpa [step, act, hfault, hstack, hpending, Stage.frames, Stage.pending, interruptible]
        using hrest .deliver trivial
  | reading =>
      simpa [step, act, hfault, hstack, Stage.frames] using hrest .readSender trivial
  | readSender =>
      simpa [step, act, hfault, hstack, Stage.frames] using hrest .readArgs trivial
  | handler => simpa [step, act, hfault, hstack, Stage.frames] using hrest .call trivial
  | running => simpa [step, act, hfault, hstack, Stage.frames] using hrest .finish trivial

/-- At rest everything raised was delivered. -/
theorem allDelivered_of_atRest {s : State T Obj Args} (hs : Inv s)
    (hrest : AtRest step Owed s) : AllDelivered s := by
  obtain ⟨hfault, ⟨w, hq⟩ | ⟨t, e, stage, hu⟩⟩ := hs
  · have hstack : s.stack = [] := by
      cases hf : s.stack with
      | nil => rfl
      | cons f stack =>
          obtain ⟨e, rfl⟩ | ⟨e, rfl⟩ | ⟨e, rfl⟩ := hq.top hf
          · simpa [step, act, hfault, hf] using hrest .clearArgs trivial
          · simpa [step, act, hfault, hf] using hrest .call trivial
          · simpa [step, act, hfault, hf] using hrest .finish trivial
    obtain rfl : w = none := by
      rcases w with _ | ⟨t, e⟩
      · rfl
      · simpa [step, act, hfault, hq.background, leaving, hq.sem, released] using
          hrest (.wait t) trivial
    have hraised := hq.raised
    have hcalls := hq.calls
    simp only [hstack, List.flatMap_nil, bag_nil, add_zero, released] at hraised hcalls
    refine ⟨fun t => ?_, hstack, hq.sem, hq.pending, (bag_eq_bag.mp hraised).symm,
      (bag_eq_bag.mp hcalls).symm⟩
    rw [hq.background, leaving]
  · exact absurd hrest (hu.not_atRest hfault)

end Books

/-! ## The work that is left -/

/-- The steps a background thread still takes or causes. -/
def Place.weight : Place Obj Args → Nat
  | .idle => 0
  | .storedSender _ => 9
  | .storedArgs _ => 8
  | .waiting _ => 1

/-- The steps an activation on the v8 thread still takes. -/
def Frame.weight : Frame Obj Args → Nat
  | .reading => 5
  | .readSender _ => 4
  | .clearing _ => 4
  | .handler _ _ => 3
  | .running _ _ => 2

section Work

variable [Fintype T]

/-- All the work that is left. -/
def work (s : State T Obj Args) : Nat :=
  load Place.weight s.background + (s.stack.map Frame.weight).sum + 6 * s.pending.toNat

variable [DecidableEq T]

/-- Every owed step lowers the work. -/
theorem work_step {s s' : State T Obj Args} {a : Action T Obj Args} (ha : Owed a)
    (h : step s a = some s') : work s' < work s := by
  simp only [step, Option.ite_none_left_eq_some] at h
  obtain ⟨-, h⟩ := h
  cases a with
  | raise t e => exact ha.elim
  | raiseOnV8 e => exact ha.elim
  | storeArgs t =>
      obtain ⟨e, ht, rfl⟩ := act_storeArgs h
      have := load_update Place.weight s.background t (.storedArgs e)
      simp only [work, State.goto, ht, Place.weight] at this ⊢
      omega
  | send t =>
      obtain ⟨e, ht, rfl⟩ := act_send h
      have := load_update Place.weight s.background t (.waiting e)
      have := Bool.toNat_le s.pending
      simp only [work, State.goto, ht, Place.weight, Bool.toNat_true] at *
      omega
  | wait t =>
      obtain ⟨e, ht, -, rfl⟩ := act_wait h
      have := load_update Place.weight s.background t .idle
      simp only [work, State.goto, ht, Place.weight] at this ⊢
      omega
  | deliver =>
      simp only [act, Option.ite_none_right_eq_some, Option.some.injEq] at h
      obtain ⟨⟨-, hpending⟩, rfl⟩ := h
      simp only [work, hpending, List.map_cons, List.sum_cons, Frame.weight,
        Bool.toNat_true, Bool.toNat_false]
      omega
  | clearArgs | readSender | readArgs | call | finish =>
      simp only [act] at h
      split at h
      case h_2 => cases h
      case h_1 hstack =>
        simp only [Option.some.injEq] at h
        subst h
        simp only [work, hstack, List.map_cons, List.sum_cons, Frame.weight]
        omega

/-- **Events are delivered one at a time.**  In every run whose raises meet the
condition, nothing is passed to JavaScript but what was raised, with its own
sender and arguments, no raise returns before its delivery, and the semaphore is
not released twice.  From every state reached the threads come to the end of
what they have started, and there each event was delivered exactly once and each
raiser has returned. -/
theorem events_delivered {s : State T Obj Args} (h : Reaches step OneAtATime start s) :
    Delivered s ∧ Settles step Owed AllDelivered s := by
  refine ⟨(inv_of_reaches h).delivered, h.settles ?_ work ?_ ?_⟩
  · intro s a ha
    cases a with
    | raise t e => exact ha.elim
    | raiseOnV8 e => exact ha.elim
    | _ => trivial
  · exact fun s a t ha ht => work_step ha ht
  · exact fun t ht hrest => allDelivered_of_atRest (inv_of_reaches ht) hrest

end Work

/-- A background raise, a v8 raise whose JavaScript function raises again, and a
second background thread after that. -/
theorem events_delivered_in_turn :
    ∃ s : State Bool Nat Nat, s.calls.length = 4 ∧ Delivered s ∧
      Settles step Owed AllDelivered s := by
  refine ⟨_, ?_, events_delivered (reaches_of_run
    [.raise false ⟨some 1, some 10⟩, .storeArgs false, .send false, .deliver, .readSender,
      .readArgs, .call, .finish, .raiseOnV8 ⟨none, some 20⟩, .clearArgs, .call, .wait false,
      .raiseOnV8 ⟨some 3, some 30⟩, .clearArgs, .call, .finish, .finish,
      .raise true ⟨some 4, none⟩, .storeArgs true, .send true, .deliver, .readSender, .readArgs,
      .call] rfl ?_)⟩
  · rfl
  · simp [Meets, step, act, OneAtATime, NoneUnderway, Frame.IsOwn, start, State.goto, interruptible,
      Function.update]

/-- **Raises that overlap are lost.**  Two background threads raise, and the
second overwrites the slots before the one delivery that libuv makes of both
sends.  JavaScript never sees the first event, and one of the threads waits
forever. -/
theorem events_lost_by_overwriting :
    ¬ ∀ s : State Bool Nat Nat, Reaches step (fun _ _ => True) start s →
      Delivered s ∧ Settles step Owed AllDelivered s := by
  intro hall
  obtain ⟨-, hsettles⟩ := hall _ (reaches_of_run_any
    [.raise false ⟨some 1, some 10⟩, .storeArgs false, .raise true ⟨some 2, some 20⟩,
      .storeArgs true, .send false, .send true, .deliver, .readSender, .readArgs, .call, .finish,
      .wait true] rfl)
  have hdone := hsettles.done_at_rest [] _ (by simp) rfl ?_
  · have hidle := hdone.1 false
    simp [State.goto, start] at hidle
  · intro a ha
    cases a with
    | raise t e => exact ha.elim
    | raiseOnV8 e => exact ha.elim
    | storeArgs t => cases t <;> rfl
    | send t => cases t <;> rfl
    | wait t => cases t <;> rfl
    | _ => rfl

end EventHandler

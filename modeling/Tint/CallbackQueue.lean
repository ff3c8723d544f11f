import Tint.Transition
import Mathlib.Logic.Function.Basic

/-!
# The cross-thread callback queue of the FFI bridge

A native thread that enters an ffi closure (`CallbackInfo::Invoke`) builds a
`ThreadedCallbackInvokation`, pushes it on `g_queue`, sends `g_async` and waits
on the invocation's own condition variable.  The main thread drains the queue
in `CallbackInfo::WatcherCallback`, dispatches each invocation to V8 and signals
its thread, which then deletes the object.

The mutexes and the condition variable are explicit.  The constructor leaves
`m_mutex` locked, and only the wait releases it, so the signaller can never
come before the waiter; that is what the proof rests on.  `uv_async_send`
coalesces: it sets one flag, and the loop clears the flag before it calls
`WatcherCallback`.  There are no spurious wake-ups.

`uv_ref` and `uv_unref` set and clear one flag of `g_async`.  An `uv_run` whose loop is not
alive returns without looking for wake-ups, and the loop is alive only while `g_async` is
referenced or something else holds it open: another active handle, a request.  On Windows
`node_load` has made such a handle; on the Mac there need be none.

The function that a callback calls runs no message loop of its own.
-/

namespace CallbackQueue

open Transition

variable {T δ : Type*}

/-- Who holds a mutex. -/
inductive Party (T : Type*)
  | main
  | foreign (t : T)
  deriving DecidableEq

/-- A `ThreadedCallbackInvokation`: the callback info, return slot and
parameters as one datum, the holder of `m_mutex`, and whether a thread is
blocked on `m_cond`. -/
structure Invocation (T δ : Type*) where
  data : δ
  mutex : Option (Party T)
  waiting : Bool

/-- The program points of `CallbackInfo::Invoke` on a foreign thread. -/
inductive Spot
  /-- constructed, `m_mutex` locked -/
  | built
  /-- holds `g_queue_mutex` -/
  | holding
  /-- pushed on `g_queue`, still holds `g_queue_mutex` -/
  | pushed
  /-- `g_queue_mutex` released -/
  | queued
  /-- `uv_async_send` done -/
  | sent
  /-- in `uv_cond_wait` -/
  | waiting
  /-- returned from `uv_cond_wait`, `m_mutex` locked again -/
  | resumed
  /-- `uv_unref` done -/
  | unreferenced
  /-- in the destructor, `m_mutex` unlocked -/
  | released
  deriving DecidableEq, Repr

/-- A foreign thread is outside the bridge or at a spot of `Invoke` with its
invocation. -/
inductive Place
  | idle
  | at (spot : Spot) (i : Nat)
  deriving DecidableEq, Repr

/-- How far the main thread is with the invocation it popped. -/
inductive Stage
  /-- inside `DispatchToV8` -/
  | dispatching
  /-- about to lock `m_mutex` in `SignalDoneExecuting` -/
  | dispatched
  /-- holds `m_mutex`, about to signal -/
  | locked
  /-- signalled, about to unlock `m_mutex` -/
  | signalled
  deriving DecidableEq, Repr

/-- The main thread: in libuv's loop or inside `WatcherCallback`. -/
inductive Main
  | loop
  /-- called, about to lock `g_queue_mutex` -/
  | entered
  /-- holds `g_queue_mutex`, at the loop test -/
  | drain
  | serving (stage : Stage) (i : Nat)
  deriving DecidableEq, Repr

/-- The shared state.  Invocation `i` is the `i`-th one constructed; `calls`
remembers its data, `heap` the object while it is allocated.  `referenced` is the flag of
`g_async` that `uv_ref` sets, `held` whether anything else keeps the loop alive.  The last lists
record, in order, what was dispatched to V8 with which data, what was
signalled, which calls of `Invoke` returned, and the closures that the main
thread itself entered.  `fault` is set when a freed object is touched. -/
structure State (T δ : Type*) where
  calls : List δ
  heap : Nat → Option (Invocation T δ)
  queue : List Nat
  queueMutex : Option (Party T)
  pending : Bool
  referenced : Bool
  held : Bool
  foreign : T → Place
  main : Main
  dispatched : List (Nat × δ)
  signalled : List Nat
  returned : List Nat
  direct : List δ
  fault : Bool

/-- `CallbackInfo::Initialize` has run, which ends with `uv_unref`, and no closure has been
entered. -/
def start : State T δ where
  calls := []
  heap := fun _ => none
  queue := []
  queueMutex := none
  pending := false
  referenced := false
  held := false
  foreign := fun _ => .idle
  main := .loop
  dispatched := []
  signalled := []
  returned := []
  direct := []
  fault := false

/-- The steps of the foreign threads (with the thread) and of the main thread. -/
inductive Action (T δ : Type*)
  /-- a foreign thread enters a closure, calls `uv_ref` and constructs the invocation, which
  nobody else can see yet -/
  | invoke (t : T) (data : δ)
  | lockQueue (t : T)
  | push (t : T)
  | unlockQueue (t : T)
  | send (t : T)
  | wait (t : T)
  | resume (t : T)
  | unref (t : T)
  | release (t : T)
  | free (t : T)
  /-- the main thread enters a closure itself -/
  | invokeMain (data : δ)
  /-- the other handles that keep the loop alive come or go -/
  | hold (held : Bool)
  | deliver
  | enter
  | pop
  | dispatchDone
  | lockInvocation
  | signal
  | unlockInvocation
  | leave

/-- Everything but the entry of a closure, and what other handles do, has to happen once it
is due. -/
def Owed : Action T δ → Prop
  | .invoke _ _ => False
  | .invokeMain _ => False
  | .hold _ => False
  | _ => True

/-- `uv_loop_alive` -/
def State.alive (s : State T δ) : Bool := s.referenced || s.held

section Step

variable [DecidableEq T]

/-- The state after thread `t` moved to `p`. -/
def State.goto (s : State T δ) (t : T) (p : Place) : State T δ :=
  { s with foreign := Function.update s.foreign t p }

/-- The state after object `i` was overwritten, or freed by `none`. -/
def State.store (s : State T δ) (i : Nat) (o : Option (Invocation T δ)) : State T δ :=
  { s with heap := Function.update s.heap i o }

/-- Work on object `i`; a freed object is a fault. -/
def State.touch (s : State T δ) (i : Nat)
    (f : Invocation T δ → Option (State T δ)) : Option (State T δ) :=
  match s.heap i with
  | some o => f o
  | none => some { s with fault := true }

/-- What a foreign thread or the main thread does next. -/
def act (s : State T δ) : Action T δ → Option (State T δ)
  | .invoke t data =>
      match s.foreign t with
      | .idle =>
          some (({ s with calls := s.calls ++ [data], referenced := true }.store s.calls.length
            (some ⟨data, some (.foreign t), false⟩)).goto t (.at .built s.calls.length))
      | _ => none
  | .lockQueue t =>
      match s.foreign t with
      | .at .built i =>
          if s.queueMutex = none then
            some ({ s with queueMutex := some (.foreign t) }.goto t (.at .holding i))
          else none
      | _ => none
  | .push t =>
      match s.foreign t with
      | .at .holding i => some ({ s with queue := s.queue ++ [i] }.goto t (.at .pushed i))
      | _ => none
  | .unlockQueue t =>
      match s.foreign t with
      | .at .pushed i => some ({ s with queueMutex := none }.goto t (.at .queued i))
      | _ => none
  | .send t =>
      match s.foreign t with
      | .at .queued i => some ({ s with pending := true }.goto t (.at .sent i))
      | _ => none
  | .wait t =>
      match s.foreign t with
      | .at .sent i =>
          s.touch i fun o =>
            some ((s.store i (some { o with mutex := none, waiting := true })).goto t
              (.at .waiting i))
      | _ => none
  | .resume t =>
      match s.foreign t with
      | .at .waiting i =>
          s.touch i fun o =>
            if o.waiting = false ∧ o.mutex = none then
              some ((s.store i (some { o with mutex := some (.foreign t) })).goto t
                (.at .resumed i))
            else none
      | _ => none
  | .unref t =>
      match s.foreign t with
      | .at .resumed i => some ({ s with referenced := false }.goto t (.at .unreferenced i))
      | _ => none
  | .release t =>
      match s.foreign t with
      | .at .unreferenced i =>
          s.touch i fun o =>
            some ((s.store i (some { o with mutex := none })).goto t (.at .released i))
      | _ => none
  | .free t =>
      match s.foreign t with
      | .at .released i =>
          s.touch i fun _ =>
            some (({ s with returned := s.returned ++ [i] }.store i none).goto t .idle)
      | _ => none
  | .invokeMain data =>
      match s.main with
      | .loop => some { s with direct := s.direct ++ [data] }
      | .serving .dispatching _ => some { s with direct := s.direct ++ [data] }
      | _ => none
  | .hold held => some { s with held := held }
  | .deliver =>
      match s.main with
      | .loop =>
          if s.pending = true ∧ s.alive = true then
            some { s with pending := false, main := .entered }
          else none
      | _ => none
  | .enter =>
      match s.main with
      | .entered =>
          if s.queueMutex = none then some { s with queueMutex := some .main, main := .drain }
          else none
      | _ => none
  | .pop =>
      match s.main, s.queue with
      | .drain, i :: queue =>
          s.touch i fun o =>
            some { s with
              queue := queue
              main := .serving .dispatching i
              dispatched := s.dispatched ++ [(i, o.data)] }
      | _, _ => none
  | .dispatchDone =>
      match s.main with
      | .serving .dispatching i => some { s with main := .serving .dispatched i }
      | _ => none
  | .lockInvocation =>
      match s.main with
      | .serving .dispatched i =>
          s.touch i fun o =>
            if o.mutex = none then
              some ({ s with main := .serving .locked i }.store i
                (some { o with mutex := some .main }))
            else none
      | _ => none
  | .signal =>
      match s.main with
      | .serving .locked i =>
          s.touch i fun o =>
            some ({ s with
              main := .serving .signalled i
              signalled := s.signalled ++ [i] }.store i (some { o with waiting := false }))
      | _ => none
  | .unlockInvocation =>
      match s.main with
      | .serving .signalled i =>
          s.touch i fun o =>
            some ({ s with main := .drain }.store i (some { o with mutex := none }))
      | _ => none
  | .leave =>
      match s.main, s.queue with
      | .drain, [] => some { s with queueMutex := none, main := .loop }
      | _, _ => none

/-- One step; a process that touched a freed object is followed no further. -/
def step (s : State T δ) (a : Action T δ) : Option (State T δ) :=
  if s.fault then none else act s a

end Step

/-! ## The life of one invocation -/

/-- The invocation that `WatcherCallback` is busy with, seen from invocation `j`. -/
def stageOf : Main → Nat → Option Stage
  | .serving stage i, j => if i = j then some stage else none
  | _, _ => none

/-- All that the shared state says about one invocation. -/
structure View (T δ : Type*) where
  object : Option (Invocation T δ)
  queued : Bool
  dispatched : Bool
  signalled : Bool
  returned : Bool
  stage : Option Stage

/-- Whether invocation `i` is on a list. -/
def listed (l : List Nat) (i : Nat) : Bool := decide (i ∈ l)

/-- The test for being on the list. -/
theorem listed_eq_true {l : List Nat} {i : Nat} : listed l i = true ↔ i ∈ l := by
  simp [listed]

/-- The test for not being on the list. -/
theorem listed_eq_false {l : List Nat} {i : Nat} : listed l i = false ↔ i ∉ l := by
  simp [listed]

/-- What was pushed is on the list. -/
@[simp] theorem listed_snoc_self {l : List Nat} {i : Nat} : listed (l ++ [i]) i = true := by
  simp [listed]

/-- A push concerns only what is pushed. -/
theorem listed_snoc_ne {l : List Nat} {i j : Nat} (h : j ≠ i) :
    listed (l ++ [i]) j = listed l j := by
  simp [listed, h]

/-- A pop concerns only what is popped. -/
theorem listed_cons_ne {l : List Nat} {i j : Nat} (h : j ≠ i) :
    listed (i :: l) j = listed l j := by
  simp [listed, h]

/-- The view of invocation `i`. -/
def view (s : State T δ) (i : Nat) : View T δ where
  object := s.heap i
  queued := listed s.queue i
  dispatched := listed (s.dispatched.map Prod.fst) i
  signalled := listed s.signalled i
  returned := listed s.returned i
  stage := stageOf s.main i

/-- Nobody has constructed the invocation yet. -/
def unborn : View T δ := ⟨none, false, false, false, false, none⟩

/-- The invocation was dispatched, signalled, deleted and its call returned. -/
def ended : View T δ := ⟨none, false, true, true, true, none⟩

/-- The spots at which the invocation is on its way to the wait. -/
def Spot.underway (spot : Spot) : Prop := spot = .pushed ∨ spot = .queued ∨ spot = .sent

/-- The stages at which the main thread has not locked `m_mutex` yet. -/
def Stage.early (stage : Stage) : Prop := stage = .dispatching ∨ stage = .dispatched

/-- **The protocol of one invocation.**  What the shared state may say about the
invocation of thread `t` with data `d`, for each spot of the thread. -/
inductive Phase (t : T) (d : δ) : Spot → View T δ → Prop
  | fresh {spot : Spot} (h : spot = .built ∨ spot = .holding) :
      Phase t d spot ⟨some ⟨d, some (.foreign t), false⟩, false, false, false, false, none⟩
  | queued {spot : Spot} (h : spot.underway) :
      Phase t d spot ⟨some ⟨d, some (.foreign t), false⟩, true, false, false, false, none⟩
  | taken {spot : Spot} (h : spot.underway) {stage : Stage} (early : stage.early) :
      Phase t d spot
        ⟨some ⟨d, some (.foreign t), false⟩, false, true, false, false, some stage⟩
  | waitQueued :
      Phase t d .waiting ⟨some ⟨d, none, true⟩, true, false, false, false, none⟩
  | waitTaken {stage : Stage} (early : stage.early) :
      Phase t d .waiting ⟨some ⟨d, none, true⟩, false, true, false, false, some stage⟩
  | waitLocked :
      Phase t d .waiting ⟨some ⟨d, some .main, true⟩, false, true, false, false, some .locked⟩
  | woken :
      Phase t d .waiting
        ⟨some ⟨d, some .main, false⟩, false, true, true, false, some .signalled⟩
  | ready : Phase t d .waiting ⟨some ⟨d, none, false⟩, false, true, true, false, none⟩
  | resumed {spot : Spot} (h : spot = .resumed ∨ spot = .unreferenced) :
      Phase t d spot ⟨some ⟨d, some (.foreign t), false⟩, false, true, true, false, none⟩
  | released : Phase t d .released ⟨some ⟨d, none, false⟩, false, true, true, false, none⟩

section Phases

variable {t : T} {d : δ} {spot : Spot} {v : View T δ} {o : Invocation T δ}

/-- While a thread is at it, the invocation is allocated and holds the thread's data. -/
theorem Phase.object (h : Phase t d spot v) : ∃ o, v.object = some o ∧ o.data = d := by
  cases h <;> exact ⟨_, rfl, rfl⟩

/-- While a thread is at it, its call has not returned. -/
theorem Phase.not_returned (h : Phase t d spot v) : v.returned = false := by
  cases h <;> rfl

/-- The signal comes after the dispatch. -/
theorem Phase.dispatched (h : Phase t d spot v) (hs : v.signalled = true) :
    v.dispatched = true := by
  cases h <;> simp at hs ⊢

/-- The main thread knows nothing of an invocation that was just built. -/
theorem Phase.stage_of_built (h : Phase t d .built v) : v.stage = none := by
  cases h with
  | fresh _ => rfl
  | resumed h => simp at h
  | queued h => simp [Spot.underway] at h
  | taken h _ => simp [Spot.underway] at h

/-- The mutex of a thread that waits for a dispatch that is over is free. -/
theorem Phase.mutex_of_waiting (h : Phase t d .waiting v) (hs : v.stage = some .dispatched)
    (ho : v.object = some o) : o.mutex = none := by
  cases h with
  | taken h _ => simp [Spot.underway] at h
  | waitTaken _ => cases ho; rfl
  | _ => simp at hs

/-- A waiting thread that the main thread is not busy with is still queued or
can go on. -/
theorem Phase.waiting_cases (h : Phase t d .waiting v) (ho : v.object = some o)
    (hs : v.stage = none) :
    v.queued = true ∨ (o.waiting = false ∧ o.mutex = none) := by
  cases h with
  | fresh h => simp at h
  | queued h => simp [Spot.underway] at h
  | resumed h => simp at h
  | waitQueued => exact Or.inl rfl
  | ready => cases ho; exact Or.inr ⟨rfl, rfl⟩
  | _ => simp at hs

/-- Locking the queue changes nothing the invocation can see. -/
theorem Phase.lockQueue (h : Phase t d .built v) : Phase t d .holding v := by
  cases h with
  | fresh _ => exact .fresh (Or.inr rfl)
  | resumed h => simp at h
  | queued h => simp [Spot.underway] at h
  | taken h _ => simp [Spot.underway] at h

/-- What is pushed was not on the queue, and is there afterwards. -/
theorem Phase.push (h : Phase t d .holding v) :
    v.queued = false ∧ Phase t d .pushed { v with queued := true } := by
  cases h with
  | resumed h => simp at h
  | fresh _ => exact ⟨rfl, .queued (Or.inl rfl)⟩
  | queued h => simp [Spot.underway] at h
  | taken h _ => simp [Spot.underway] at h

/-- Releasing the queue and sending the wake-up change nothing the invocation
can see. -/
theorem Phase.underway {spot' : Spot} (h : Phase t d spot v) (hspot : spot.underway)
    (hspot' : spot'.underway) : Phase t d spot' v := by
  cases h with
  | fresh h => rcases h with rfl | rfl <;> simp [Spot.underway] at hspot
  | queued _ => exact .queued hspot'
  | taken _ early => exact .taken hspot' early
  | resumed h => rcases h with rfl | rfl <;> simp [Spot.underway] at hspot
  | _ => simp [Spot.underway] at hspot

/-- The wait releases the mutex, also if the dispatch has begun already. -/
theorem Phase.wait (h : Phase t d .sent v) (ho : v.object = some o) :
    Phase t d .waiting { v with object := some { o with mutex := none, waiting := true } } := by
  cases h with
  | fresh h => simp at h
  | resumed h => simp at h
  | queued _ => cases ho; exact .waitQueued
  | taken _ early => cases ho; exact .waitTaken early

/-- A thread that was signalled takes the mutex again. -/
theorem Phase.resume (h : Phase t d .waiting v) (ho : v.object = some o)
    (hwaiting : o.waiting = false) (hmutex : o.mutex = none) :
    Phase t d .resumed { v with object := some { o with mutex := some (.foreign t) } } := by
  cases h with
  | fresh h => simp at h
  | queued h => simp [Spot.underway] at h
  | taken h _ => simp [Spot.underway] at h
  | ready => cases ho; exact .resumed (Or.inl rfl)
  | resumed h => simp at h
  | _ => cases ho; simp at hwaiting hmutex

/-- `uv_unref` changes nothing the invocation can see. -/
theorem Phase.unref (h : Phase t d .resumed v) : Phase t d .unreferenced v := by
  cases h with
  | fresh h => simp at h
  | queued h => simp [Spot.underway] at h
  | taken h _ => simp [Spot.underway] at h
  | resumed _ => exact .resumed (Or.inr rfl)

/-- The destructor unlocks the mutex. -/
theorem Phase.release (h : Phase t d .unreferenced v) (ho : v.object = some o) :
    Phase t d .released { v with object := some { o with mutex := none } } := by
  cases h with
  | fresh h => simp at h
  | queued h => simp [Spot.underway] at h
  | taken h _ => simp [Spot.underway] at h
  | resumed _ => cases ho; exact .released

/-- With the object the invocation comes to its end. -/
theorem Phase.free (h : Phase t d .released v) :
    { v with object := none, returned := true } = (ended : View T δ) := by
  cases h with
  | fresh h => simp at h
  | queued h => simp [Spot.underway] at h
  | taken h _ => simp [Spot.underway] at h
  | released => rfl
  | resumed h => simp at h

/-- What is popped was not dispatched before. -/
theorem Phase.pop (h : Phase t d spot v) (hq : v.queued = true) :
    v.dispatched = false ∧
      Phase t d spot
        { v with queued := false, dispatched := true, stage := some .dispatching } := by
  cases h with
  | queued h => exact ⟨rfl, .taken h (Or.inl rfl)⟩
  | waitQueued => exact ⟨rfl, .waitTaken (Or.inl rfl)⟩
  | _ => simp at hq

/-- The dispatch returns. -/
theorem Phase.dispatchDone (h : Phase t d spot v) (hs : v.stage = some .dispatching) :
    Phase t d spot { v with stage := some .dispatched } := by
  cases h with
  | taken h _ => exact .taken h (Or.inr rfl)
  | waitTaken _ => exact .waitTaken (Or.inr rfl)
  | _ => simp at hs

/-- The mutex that the constructor locked is free only once its owner waits. -/
theorem Phase.lockInvocation (h : Phase t d spot v) (hs : v.stage = some .dispatched)
    (ho : v.object = some o) (hmutex : o.mutex = none) :
    Phase t d spot
      { v with object := some { o with mutex := some .main }, stage := some .locked } := by
  cases h with
  | taken _ _ => cases ho; simp at hmutex
  | waitTaken _ => cases ho; exact .waitLocked
  | _ => simp at hs

/-- The signal reaches the thread that waits. -/
theorem Phase.signal (h : Phase t d spot v) (hs : v.stage = some .locked)
    (ho : v.object = some o) :
    Phase t d spot
      { v with
        object := some { o with waiting := false }
        signalled := true
        stage := some .signalled } := by
  cases h with
  | taken _ early => cases hs; simp [Stage.early] at early
  | waitTaken early => cases hs; simp [Stage.early] at early
  | waitLocked => cases ho; exact .woken
  | _ => simp at hs

/-- After the unlock the thread can go on. -/
theorem Phase.unlockInvocation (h : Phase t d spot v) (hs : v.stage = some .signalled)
    (ho : v.object = some o) :
    Phase t d spot { v with object := some { o with mutex := none }, stage := none } := by
  cases h with
  | taken _ early => cases hs; simp [Stage.early] at early
  | waitTaken early => cases hs; simp [Stage.early] at early
  | woken => cases ho; exact .ready
  | _ => simp at hs

end Phases

end CallbackQueue

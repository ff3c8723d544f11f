import Tint.CallbackQueue
import Tint.Threads

/-!
# Every queued invocation is dispatched, signalled and released once

`Tracked` puts the protocol of one invocation (`Phase`) over all of them: each
constructed invocation is at exactly one thread or has ended.  A step touches
one invocation and leaves the views of all others alone, so each step is one
application of `Tracked.move`.  `Inv` adds the bookkeeping of the two shared
mutex-like things, the queue mutex and the pending flag.

* `served_of_reaches` -- what the states of every interleaving satisfy;
* `invocations_served` -- with it, that every entered closure comes to its end and no
  wake-up is lost, if threads are inside `Invoke` together only while something other than
  `g_async` keeps the loop alive;
* `wake_up_lost` -- without that, the first thread to finish takes the reference away that
  the second relies on.
-/

namespace CallbackQueue

open Threads (load load_update)
open Transition

variable {T δ : Type*}

/-- The main thread holds `g_queue_mutex`. -/
def Main.inside : Main → Prop
  | .drain => True
  | .serving _ _ => True
  | _ => False

/-- Each invocation is unborn, at exactly one thread, or ended. -/
structure Tracked (s : State T δ) : Prop where
  place : ∀ {t spot i}, s.foreign t = .at spot i →
    ∃ d, s.calls[i]? = some d ∧ Phase t d spot (view s i)
  unique : ∀ {t u spot spot' i}, s.foreign t = .at spot i → s.foreign u = .at spot' i → t = u
  vacant : ∀ {i}, (∀ t spot, s.foreign t ≠ .at spot i) →
    view s i = if i < s.calls.length then ended else unborn

/-- A step that no invocation can see. -/
theorem Tracked.congr {s s' : State T δ} (h : Tracked s) (hcalls : s'.calls = s.calls)
    (hforeign : s'.foreign = s.foreign) (hview : ∀ j, view s' j = view s j) :
    Tracked s' := by
  refine ⟨?_, ?_, ?_⟩
  · intro t spot i ht
    rw [hcalls, hview]
    exact h.place (hforeign ▸ ht)
  · intro t u spot spot' i ht hu
    exact h.unique (hforeign ▸ ht) (hforeign ▸ hu)
  · intro i hvac
    rw [hcalls, hview]
    exact h.vacant (hforeign ▸ hvac)

/-- What an invocation on somebody's list says: it has an owner. -/
theorem Tracked.owner {s : State T δ} (h : Tracked s) {i : Nat}
    (hi : (view s i).queued = true ∨ (view s i).stage ≠ none) :
    ∃ t spot, s.foreign t = .at spot i := by
  by_contra hnone
  push Not at hnone
  have hv := h.vacant hnone
  split at hv <;> rw [hv] at hi <;> simp [ended, unborn] at hi

/-- The thread is at a spot at which it holds `g_queue_mutex`. -/
def Place.holdsQueue : Place → Bool
  | .at .holding _ => true
  | .at .pushed _ => true
  | _ => false

/-- The thread has pushed its invocation and not sent the wake-up yet. -/
def Place.announces : Place → Bool
  | .at .pushed _ => true
  | .at .queued _ => true
  | _ => false

/-- `g_queue_mutex` is held by the one party whose place in the code needs it. -/
structure QueueLock (m : Option (Party T)) (g : T → Place) (mn : Main) : Prop where
  foreign : ∀ t, m = some (.foreign t) ↔ (g t).holdsQueue = true
  main : m = some .main ↔ mn.inside

/-- A non-empty queue is about to be noticed: a wake-up is pending, the main
thread is already draining, or somebody is about to send. -/
def Noticed (queue : List Nat) (pending : Bool) (mn : Main) (g : T → Place) : Prop :=
  queue ≠ [] → pending = true ∨ mn ≠ .loop ∨ ∃ t, (g t).announces = true

/-- The invariant of the queue. -/
structure Inv (s : State T δ) : Prop where
  tracked : Tracked s
  lock : QueueLock s.queueMutex s.foreign s.main
  noticed : Noticed s.queue s.pending s.main s.foreign
  queue_nodup : s.queue.Nodup
  dispatched_nodup : (s.dispatched.map Prod.fst).Nodup
  returned_nodup : s.returned.Nodup
  dispatched_own : ∀ p ∈ s.dispatched, s.calls[p.1]? = some p.2
  no_fault : s.fault = false

/-- The invariant holds before anything is called. -/
theorem inv_start : Inv (start : State T δ) where
  tracked := by
    refine ⟨?_, ?_, ?_⟩
    · intro t spot i ht
      simp [start] at ht
    · intro t u spot spot' i ht
      simp [start] at ht
    · intro i _
      simp [view, start, unborn, stageOf, listed]
  lock := ⟨by simp [start, Place.holdsQueue], by simp [start, Main.inside]⟩
  noticed := by simp [Noticed, start]
  queue_nodup := List.nodup_nil
  dispatched_nodup := List.nodup_nil
  returned_nodup := List.nodup_nil
  dispatched_own := by simp [start]
  no_fault := rfl

/-- The main thread goes on without touching the mutex. -/
theorem QueueLock.mainKeep {m : Option (Party T)} {g : T → Place} {mn mn' : Main}
    (h : QueueLock m g mn) (hmn : mn'.inside ↔ mn.inside) : QueueLock m g mn' :=
  ⟨h.foreign, h.main.trans hmn.symm⟩

/-- The main thread takes the mutex. -/
theorem QueueLock.mainAcquire {g : T → Place} {mn mn' : Main}
    (h : QueueLock none g mn) (hmn : mn'.inside) : QueueLock (some .main) g mn' :=
  ⟨fun t => by simpa using h.foreign t, by simp [hmn]⟩

/-- The main thread gives the mutex back. -/
theorem QueueLock.mainRelease {m : Option (Party T)} {g : T → Place} {mn mn' : Main}
    (h : QueueLock m g mn) (hmn : mn.inside) (hmn' : ¬ mn'.inside) : QueueLock none g mn' := by
  have hm : m = some .main := h.main.mpr hmn
  subst hm
  exact ⟨fun t => by simpa using h.foreign t, by simp [hmn']⟩

/-- Whatever is queued is noticed while the main thread drains. -/
theorem Noticed.mainBusy {queue : List Nat} {pending : Bool} {mn : Main} {g : T → Place}
    (hmn : mn ≠ .loop) : Noticed queue pending mn g :=
  fun _ => Or.inr (Or.inl hmn)

/-- What is queued is noticed once a wake-up is pending. -/
theorem Noticed.send {queue : List Nat} {mn : Main} {g : T → Place} :
    Noticed queue true mn g :=
  fun _ => Or.inl rfl

/-! ## What each step does -/

section Act

variable [DecidableEq T] {s s' : State T δ} {t : T}

/-- A foreign thread builds its invocation and refers to the handle. -/
theorem act_invoke {data : δ} (h : act s (.invoke t data) = some s') :
    s.foreign t = .idle ∧
      s' = ({ s with calls := s.calls ++ [data], referenced := true }.store s.calls.length
        (some ⟨data, some (.foreign t), false⟩)).goto t (.at .built s.calls.length) := by
  simp only [act] at h
  split at h
  case h_1 ht => exact ⟨ht, (Option.some.inj h).symm⟩
  case h_2 => cases h

/-- A foreign thread takes the mutex of the queue. -/
theorem act_lockQueue (h : act s (.lockQueue t) = some s') :
    ∃ i, s.foreign t = .at .built i ∧ s.queueMutex = none ∧
      s' = { s with queueMutex := some (.foreign t) }.goto t (.at .holding i) := by
  simp only [act] at h
  split at h
  case h_1 i ht =>
    obtain ⟨hfree, h⟩ := Option.ite_none_right_eq_some.mp h
    exact ⟨i, ht, hfree, (Option.some.inj h).symm⟩
  case h_2 => cases h

/-- A foreign thread queues its invocation. -/
theorem act_push (h : act s (.push t) = some s') :
    ∃ i, s.foreign t = .at .holding i ∧
      s' = { s with queue := s.queue ++ [i] }.goto t (.at .pushed i) := by
  simp only [act] at h
  split at h
  case h_1 i ht => exact ⟨i, ht, (Option.some.inj h).symm⟩
  case h_2 => cases h

/-- A foreign thread gives the mutex of the queue back. -/
theorem act_unlockQueue (h : act s (.unlockQueue t) = some s') :
    ∃ i, s.foreign t = .at .pushed i ∧
      s' = { s with queueMutex := none }.goto t (.at .queued i) := by
  simp only [act] at h
  split at h
  case h_1 i ht => exact ⟨i, ht, (Option.some.inj h).symm⟩
  case h_2 => cases h

/-- A foreign thread sends the wake-up. -/
theorem act_send (h : act s (.send t) = some s') :
    ∃ i, s.foreign t = .at .queued i ∧ s' = { s with pending := true }.goto t (.at .sent i) := by
  simp only [act] at h
  split at h
  case h_1 i ht => exact ⟨i, ht, (Option.some.inj h).symm⟩
  case h_2 => cases h

/-- A foreign thread waits, and gives the mutex of its invocation back. -/
theorem act_wait (h : act s (.wait t) = some s') :
    ∃ i, s.foreign t = .at .sent i ∧ (s.touch i fun o =>
      some ((s.store i (some { o with mutex := none, waiting := true })).goto t
        (.at .waiting i))) = some s' := by
  simp only [act] at h
  split at h
  case h_1 i ht => exact ⟨i, ht, h⟩
  case h_2 => cases h

/-- A foreign thread goes on once it was signalled and the mutex is free. -/
theorem act_resume (h : act s (.resume t) = some s') :
    ∃ i, s.foreign t = .at .waiting i ∧ (s.touch i fun o =>
      if o.waiting = false ∧ o.mutex = none then
        some ((s.store i (some { o with mutex := some (.foreign t) })).goto t (.at .resumed i))
      else none) = some s' := by
  simp only [act] at h
  split at h
  case h_1 i ht => exact ⟨i, ht, h⟩
  case h_2 => cases h

/-- A foreign thread takes the reference to the handle away. -/
theorem act_unref (h : act s (.unref t) = some s') :
    ∃ i, s.foreign t = .at .resumed i ∧
      s' = { s with referenced := false }.goto t (.at .unreferenced i) := by
  simp only [act] at h
  split at h
  case h_1 i ht => exact ⟨i, ht, (Option.some.inj h).symm⟩
  case h_2 => cases h

/-- A foreign thread unlocks the mutex of its invocation. -/
theorem act_release (h : act s (.release t) = some s') :
    ∃ i, s.foreign t = .at .unreferenced i ∧ (s.touch i fun o =>
      some ((s.store i (some { o with mutex := none })).goto t (.at .released i))) = some s' := by
  simp only [act] at h
  split at h
  case h_1 i ht => exact ⟨i, ht, h⟩
  case h_2 => cases h

/-- A foreign thread frees its invocation and returns. -/
theorem act_free (h : act s (.free t) = some s') :
    ∃ i, s.foreign t = .at .released i ∧ (s.touch i fun _ =>
      some (({ s with returned := s.returned ++ [i] }.store i none).goto t .idle)) = some s' := by
  simp only [act] at h
  split at h
  case h_1 i ht => exact ⟨i, ht, h⟩
  case h_2 => cases h

/-- The loop calls the handle's function for the wake-up. -/
theorem act_deliver (h : act s .deliver = some s') :
    s.main = .loop ∧ s.pending = true ∧ s' = { s with pending := false, main := .entered } := by
  simp only [act] at h
  split at h
  case h_1 hm =>
    obtain ⟨⟨hpending, -⟩, h⟩ := Option.ite_none_right_eq_some.mp h
    exact ⟨hm, hpending, (Option.some.inj h).symm⟩
  case h_2 => cases h

/-- The main thread takes the mutex of the queue. -/
theorem act_enter (h : act s .enter = some s') :
    s.main = .entered ∧ s.queueMutex = none ∧
      s' = { s with queueMutex := some .main, main := .drain } := by
  simp only [act] at h
  split at h
  case h_1 hm =>
    obtain ⟨hfree, h⟩ := Option.ite_none_right_eq_some.mp h
    exact ⟨hm, hfree, (Option.some.inj h).symm⟩
  case h_2 => cases h

/-- The main thread takes the first invocation off the queue and begins to dispatch it. -/
theorem act_pop (h : act s .pop = some s') :
    ∃ i queue, s.main = .drain ∧ s.queue = i :: queue ∧ (s.touch i fun o =>
      some { s with
        queue := queue
        main := .serving .dispatching i
        dispatched := s.dispatched ++ [(i, o.data)] }) = some s' := by
  simp only [act] at h
  split at h
  case h_1 i queue hm hq => exact ⟨i, queue, hm, hq, h⟩
  case h_2 => cases h

/-- The dispatched function comes back. -/
theorem act_dispatchDone (h : act s .dispatchDone = some s') :
    ∃ i, s.main = .serving .dispatching i ∧ s' = { s with main := .serving .dispatched i } := by
  simp only [act] at h
  split at h
  case h_1 i hm => exact ⟨i, hm, (Option.some.inj h).symm⟩
  case h_2 => cases h

/-- The main thread takes the mutex of the invocation. -/
theorem act_lockInvocation (h : act s .lockInvocation = some s') :
    ∃ i, s.main = .serving .dispatched i ∧ (s.touch i fun o =>
      if o.mutex = none then
        some ({ s with main := .serving .locked i }.store i (some { o with mutex := some .main }))
      else none) = some s' := by
  simp only [act] at h
  split at h
  case h_1 i hm => exact ⟨i, hm, h⟩
  case h_2 => cases h

/-- The main thread signals the waiting thread. -/
theorem act_signal (h : act s .signal = some s') :
    ∃ i, s.main = .serving .locked i ∧ (s.touch i fun o =>
      some ({ s with
        main := .serving .signalled i
        signalled := s.signalled ++ [i] }.store i (some { o with waiting := false }))) =
      some s' := by
  simp only [act] at h
  split at h
  case h_1 i hm => exact ⟨i, hm, h⟩
  case h_2 => cases h

/-- The main thread unlocks the mutex of the invocation. -/
theorem act_unlockInvocation (h : act s .unlockInvocation = some s') :
    ∃ i, s.main = .serving .signalled i ∧ (s.touch i fun o =>
      some ({ s with main := .drain }.store i (some { o with mutex := none }))) = some s' := by
  simp only [act] at h
  split at h
  case h_1 i hm => exact ⟨i, hm, h⟩
  case h_2 => cases h

/-- The main thread gives the mutex of the queue back when nothing is queued. -/
theorem act_leave (h : act s .leave = some s') :
    s.main = .drain ∧ s.queue = [] ∧ s' = { s with queueMutex := none, main := .loop } := by
  simp only [act] at h
  split at h
  case h_1 hm hq => exact ⟨hm, hq, (Option.some.inj h).symm⟩
  case h_2 => cases h

end Act

/-! ## The views after a step -/

section Views

variable {s : State T δ} {i j : Nat} {o : Invocation T δ}

/-- An invocation that is there can be touched. -/
theorem touch_of_some {f : Invocation T δ → Option (State T δ)} (h : s.heap i = some o) :
    s.touch i f = f o := by
  simp [State.touch, h]

/-- Storing an invocation shows in its own view. -/
theorem view_store_self {x : Option (Invocation T δ)} :
    view (s.store i x) i = { view s i with object := x } := by
  simp [view, State.store]

/-- Storing an invocation shows in no other view. -/
theorem view_store_ne {x : Option (Invocation T δ)} (hj : j ≠ i) :
    view (s.store i x) j = view s j := by
  simp [view, State.store, hj]

/-- The object that the main thread serves is still allocated. -/
theorem served_object (hs : Inv s)
    (howner : (view s i).queued = true ∨ (view s i).stage ≠ none) :
    ∃ o, s.heap i = some o ∧ s.calls[i]? = some o.data := by
  obtain ⟨t, spot, ht⟩ := hs.tracked.owner howner
  obtain ⟨d, hd, hp⟩ := hs.tracked.place ht
  obtain ⟨o, ho, rfl⟩ := hp.object
  exact ⟨o, ho, hd⟩

/-- The invocation that the main thread is busy with has a stage. -/
theorem stage_of_serving {stage : Stage} (hm : s.main = .serving stage i) :
    (view s i).stage = some stage := by
  simp [view, hm, stageOf]

/-- The invocation that is served belongs to somebody. -/
theorem serving_owned {stage : Stage} (hm : s.main = .serving stage i) :
    (view s i).queued = true ∨ (view s i).stage ≠ none :=
  Or.inr (by rw [stage_of_serving hm]; simp)

end Views

variable [DecidableEq T]

/-- Where a thread stands is in no view. -/
@[simp] theorem view_goto {s : State T δ} {t : T} {p : Place} {j : Nat} :
    view (s.goto t p) j = view s j := rfl

/-- A step of the thread at invocation `i`, or of the main thread on its behalf,
that follows the protocol and is invisible to the other invocations. -/
theorem Tracked.move {s s' : State T δ} (h : Tracked s) {t : T} {spot spot' : Spot} {i : Nat}
    (ht : s.foreign t = .at spot i) (hcalls : s'.calls = s.calls)
    (hforeign : s'.foreign = Function.update s.foreign t (.at spot' i))
    (hview : ∀ j, j ≠ i → view s' j = view s j)
    (hphase : ∀ d, Phase t d spot (view s i) → Phase t d spot' (view s' i)) :
    Tracked s' := by
  have hat : ∀ {u spot'' j}, s'.foreign u = .at spot'' j →
      (u = t ∧ j = i ∧ spot'' = spot') ∨ (u ≠ t ∧ j ≠ i ∧ s.foreign u = .at spot'' j) := by
    intro u spot'' j hu
    by_cases hut : u = t
    · subst hut
      rw [hforeign, Function.update_self] at hu
      cases hu
      exact Or.inl ⟨rfl, rfl, rfl⟩
    · rw [hforeign, Function.update_of_ne hut] at hu
      refine Or.inr ⟨hut, ?_, hu⟩
      rintro rfl
      exact hut (h.unique hu ht)
  refine ⟨?_, ?_, ?_⟩
  · intro u spot'' j hu
    rcases hat hu with ⟨rfl, rfl, rfl⟩ | ⟨hut, hji, hu'⟩
    · obtain ⟨d, hd, hp⟩ := h.place ht
      exact ⟨d, hcalls ▸ hd, hphase d hp⟩
    · obtain ⟨d, hd, hp⟩ := h.place hu'
      exact ⟨d, hcalls ▸ hd, (hview j hji).symm ▸ hp⟩
  · intro u u' spot₁ spot₂ j hu hu'
    rcases hat hu with ⟨rfl, rfl, rfl⟩ | ⟨_, hji, hv⟩
    · rcases hat hu' with ⟨rfl, _, _⟩ | ⟨_, hji', _⟩
      · rfl
      · exact absurd rfl hji'
    · rcases hat hu' with ⟨_, hj, _⟩ | ⟨_, _, hv'⟩
      · exact absurd hj hji
      · exact h.unique hv hv'
  · intro j hvac
    have hji : j ≠ i := by
      rintro rfl
      exact hvac t spot' (by rw [hforeign, Function.update_self])
    rw [hview j hji, hcalls]
    refine h.vacant fun u spot'' hu => ?_
    by_cases hut : u = t
    · subst hut
      rw [ht] at hu
      cases hu
      exact hji rfl
    · exact hvac u spot'' (by rw [hforeign, Function.update_of_ne hut, hu])

/-- Where the threads other than `t` are. -/
theorem place_of_update {g : T → Place} {t u : T} {spot : Spot} {j : Nat}
    (h : Function.update g t .idle u = .at spot j) : u ≠ t ∧ g u = .at spot j := by
  by_cases hut : u = t
  · subst hut
    simp at h
  · exact ⟨hut, by rwa [Function.update_of_ne hut] at h⟩

/-- The thread at invocation `i` returns, and the invocation has ended. -/
theorem Tracked.depart {s s' : State T δ} (h : Tracked s) {t : T} {spot : Spot} {i : Nat}
    (ht : s.foreign t = .at spot i) (hcalls : s'.calls = s.calls)
    (hforeign : s'.foreign = Function.update s.foreign t .idle)
    (hview : ∀ j, j ≠ i → view s' j = view s j) (hended : view s' i = ended) :
    Tracked s' := by
  have hne : ∀ {u spot' j}, u ≠ t → s.foreign u = .at spot' j → j ≠ i := by
    rintro u spot' j hut hu rfl
    exact hut (h.unique hu ht)
  refine ⟨?_, ?_, ?_⟩
  · intro u spot' j hu
    obtain ⟨hut, hu⟩ := place_of_update (hforeign ▸ hu)
    rw [hcalls, hview j (hne hut hu)]
    exact h.place hu
  · intro u u' spot₁ spot₂ j hu hu'
    exact h.unique (place_of_update (hforeign ▸ hu)).2 (place_of_update (hforeign ▸ hu')).2
  · intro j hvac
    rw [hcalls]
    by_cases hji : j = i
    · subst hji
      obtain ⟨d, hd, -⟩ := h.place ht
      rw [hended, if_pos (List.getElem?_eq_some_iff.mp hd).1]
    · rw [hview j hji]
      refine h.vacant fun u spot' hu => ?_
      by_cases hut : u = t
      · subst hut
        rw [ht] at hu
        cases hu
        exact hji rfl
      · exact hvac u spot' (by rw [hforeign, Function.update_of_ne hut, hu])

/-- An idle thread constructs the next invocation. -/
theorem Tracked.arrive {s s' : State T δ} (h : Tracked s) {t : T} {spot : Spot} {d : δ}
    (ht : s.foreign t = .idle) (hcalls : s'.calls = s.calls ++ [d])
    (hforeign : s'.foreign = Function.update s.foreign t (.at spot s.calls.length))
    (hview : ∀ j, j ≠ s.calls.length → view s' j = view s j)
    (hphase : Phase t d spot (view s' s.calls.length)) : Tracked s' := by
  have hlt : ∀ {u spot' j}, s.foreign u = .at spot' j → j < s.calls.length := by
    intro u spot' j hu
    obtain ⟨d', hd', -⟩ := h.place hu
    exact (List.getElem?_eq_some_iff.mp hd').1
  have hat : ∀ {u spot' j}, s'.foreign u = .at spot' j →
      (u = t ∧ j = s.calls.length ∧ spot' = spot) ∨ s.foreign u = .at spot' j := by
    intro u spot' j hu
    by_cases hut : u = t
    · subst hut
      rw [hforeign, Function.update_self] at hu
      cases hu
      exact Or.inl ⟨rfl, rfl, rfl⟩
    · rw [hforeign, Function.update_of_ne hut] at hu
      exact Or.inr hu
  refine ⟨?_, ?_, ?_⟩
  · intro u spot' j hu
    rcases hat hu with ⟨rfl, rfl, rfl⟩ | hu
    · exact ⟨d, by simp [hcalls], hphase⟩
    · obtain ⟨d', hd', hp⟩ := h.place hu
      have hj := hlt hu
      refine ⟨d', ?_, by rwa [hview j (by omega)]⟩
      rw [hcalls, List.getElem?_append_left hj, hd']
  · intro u u' spot₁ spot₂ j hu hu'
    rcases hat hu with ⟨rfl, rfl, rfl⟩ | hv
    · rcases hat hu' with ⟨rfl, _, _⟩ | hv'
      · rfl
      · exact absurd (hlt hv') (by omega)
    · rcases hat hu' with ⟨_, rfl, _⟩ | hv'
      · exact absurd (hlt hv) (by omega)
      · exact h.unique hv hv'
  · intro j hvac
    have hj : j ≠ s.calls.length := by
      rintro rfl
      exact hvac t spot (by rw [hforeign, Function.update_self])
    have hvac' : ∀ u spot', s.foreign u ≠ .at spot' j := by
      intro u spot' hu
      by_cases hut : u = t
      · subst hut
        rw [ht] at hu
        cases hu
      · exact hvac u spot' (by rw [hforeign, Function.update_of_ne hut, hu])
    rw [hview j hj, h.vacant hvac', hcalls]
    by_cases hlt' : j < s.calls.length
    · simp [hlt', Nat.lt_succ_of_lt hlt']
    · simp [hlt', show ¬ j < s.calls.length + 1 by omega]

/-- A move between two places that agree on a predicate leaves it as it was. -/
theorem update_place_eq {β : Type*} (f : Place → β) {g : T → Place} {t : T} {p : Place}
    (h : f p = f (g t)) (u : T) : f (Function.update g t p u) = f (g u) := by
  by_cases hu : u = t
  · subst hu
    rw [Function.update_self, h]
  · rw [Function.update_of_ne hu]

section Moves

variable {m : Option (Party T)} {g : T → Place} {mn : Main} {t : T} {p : Place}
  {queue : List Nat} {pending : Bool}

/-- A foreign thread goes on without touching the mutex. -/
theorem QueueLock.keep (h : QueueLock m g mn) (hp : p.holdsQueue = (g t).holdsQueue) :
    QueueLock m (Function.update g t p) mn :=
  ⟨fun u => by rw [update_place_eq Place.holdsQueue hp]; exact h.foreign u, h.main⟩

/-- A foreign thread takes the mutex. -/
theorem QueueLock.acquire (h : QueueLock none g mn) (hp : p.holdsQueue = true) :
    QueueLock (some (.foreign t)) (Function.update g t p) mn := by
  refine ⟨fun u => ?_, by simpa using h.main⟩
  by_cases hu : u = t
  · subst hu
    simp [hp]
  · have hfree : (g u).holdsQueue = false := by simpa using h.foreign u
    simp [Function.update_of_ne hu, hfree, Ne.symm hu]

/-- A foreign thread gives the mutex back. -/
theorem QueueLock.release (h : QueueLock m g mn) (ht : (g t).holdsQueue = true)
    (hp : p.holdsQueue = false) : QueueLock none (Function.update g t p) mn := by
  have hm : m = some (.foreign t) := (h.foreign t).mpr ht
  subst hm
  refine ⟨fun u => ?_, by simpa using h.main⟩
  by_cases hu : u = t
  · subst hu
    simp [hp]
  · have hother := h.foreign u
    simp only [Option.some.injEq, Party.foreign.injEq, Ne.symm hu, false_iff] at hother
    simpa [Function.update_of_ne hu] using hother

/-- A foreign thread goes on and announces as much as before. -/
theorem Noticed.keep (h : Noticed queue pending mn g) (hp : p.announces = (g t).announces) :
    Noticed queue pending mn (Function.update g t p) := by
  intro hq
  rcases h hq with hpend | hmn | ⟨u, hu⟩
  · exact Or.inl hpend
  · exact Or.inr (Or.inl hmn)
  · exact Or.inr (Or.inr ⟨u, by rw [update_place_eq Place.announces hp, hu]⟩)

/-- A thread that pushed announces it. -/
theorem Noticed.announce (hp : p.announces = true) :
    Noticed queue pending mn (Function.update g t p) :=
  fun _ => Or.inr (Or.inr ⟨t, by rw [Function.update_self, hp]⟩)

end Moves

/-! ## The steps of a foreign thread -/

section ForeignSteps

variable {s s' : State T δ} {t : T}

/-- The new invocation goes to its thread. -/
theorem inv_invoke {data : δ} (hs : Inv s) (h : act s (.invoke t data) = some s') :
    Inv s' := by
  obtain ⟨ht, rfl⟩ := act_invoke h
  have hunborn : view s s.calls.length = unborn := by
    rw [hs.tracked.vacant, if_neg (lt_irrefl _)]
    intro u spot hu
    obtain ⟨d, hd, -⟩ := hs.tracked.place hu
    simp at hd
  refine { hs with tracked := ?_, lock := ?_, noticed := ?_, dispatched_own := ?_ }
  · refine hs.tracked.arrive ht rfl rfl (fun j hj => ?_) ?_
    · rw [view_goto, view_store_ne hj]
      rfl
    · have hview : view { s with calls := s.calls ++ [data], referenced := true }
          s.calls.length = unborn :=
        hunborn
      rw [view_goto, view_store_self, hview]
      exact .fresh (Or.inl rfl)
  · exact hs.lock.keep (by rw [ht]; rfl)
  · exact hs.noticed.keep (by rw [ht]; rfl)
  · intro p hp
    have hown := hs.dispatched_own p hp
    exact (List.getElem?_append_left (List.getElem?_eq_some_iff.mp hown).1).trans hown

/-- The mutex goes to the thread. -/
theorem inv_lockQueue (hs : Inv s) (h : act s (.lockQueue t) = some s') : Inv s' := by
  obtain ⟨i, ht, hfree, rfl⟩ := act_lockQueue h
  refine { hs with tracked := ?_, lock := ?_, noticed := ?_ }
  · exact hs.tracked.move ht rfl rfl (fun j _ => rfl) fun d hp => hp.lockQueue
  · exact (hfree ▸ hs.lock).acquire rfl
  · exact hs.noticed.keep (by rw [ht]; rfl)

/-- The thread announces what it queued. -/
theorem inv_push (hs : Inv s) (h : act s (.push t) = some s') : Inv s' := by
  obtain ⟨i, ht, rfl⟩ := act_push h
  obtain ⟨d, hd, hp⟩ := hs.tracked.place ht
  have hnot : i ∉ s.queue := listed_eq_false.mp hp.push.1
  refine { hs with tracked := ?_, lock := ?_, noticed := ?_, queue_nodup := ?_ }
  · refine hs.tracked.move ht rfl rfl (fun j hj => ?_) fun d hp => ?_
    · simp [view, State.goto, listed_snoc_ne hj]
    · have hview : view ({ s with queue := s.queue ++ [i] }.goto t (.at .pushed i)) i =
          { view s i with queued := true } := by
        simp [view, State.goto]
      exact hview ▸ hp.push.2
  · exact hs.lock.keep (by rw [ht]; rfl)
  · exact Noticed.announce rfl
  · exact hs.queue_nodup.append (List.nodup_singleton i) (by simpa using hnot)

/-- The mutex is free again, and the wake-up still to come. -/
theorem inv_unlockQueue (hs : Inv s) (h : act s (.unlockQueue t) = some s') : Inv s' := by
  obtain ⟨i, ht, rfl⟩ := act_unlockQueue h
  refine { hs with tracked := ?_, lock := ?_, noticed := ?_ }
  · exact hs.tracked.move ht rfl rfl (fun j _ => rfl) fun d hp =>
      hp.underway (Or.inl rfl) (Or.inr (Or.inl rfl))
  · exact hs.lock.release (by rw [ht]; rfl) rfl
  · exact Noticed.announce rfl

/-- The wake-up is pending. -/
theorem inv_send (hs : Inv s) (h : act s (.send t) = some s') : Inv s' := by
  obtain ⟨i, ht, rfl⟩ := act_send h
  refine { hs with tracked := ?_, lock := ?_, noticed := ?_ }
  · exact hs.tracked.move ht rfl rfl (fun j _ => rfl) fun d hp =>
      hp.underway (Or.inr (Or.inl rfl)) (Or.inr (Or.inr rfl))
  · exact hs.lock.keep (by rw [ht]; rfl)
  · exact Noticed.send

/-- A foreign thread overwrites its own invocation object. -/
theorem inv_own_object {i : Nat} {spot spot' : Spot} {o' : Invocation T δ} (hs : Inv s)
    (ht : s.foreign t = .at spot i)
    (hphase : ∀ d, Phase t d spot (view s i) →
      Phase t d spot' { view s i with object := some o' })
    (hlock : (Place.at spot' i).holdsQueue = (Place.at spot i).holdsQueue)
    (hnoticed : (Place.at spot' i).announces = (Place.at spot i).announces) :
    Inv ((s.store i (some o')).goto t (.at spot' i)) := by
  refine { hs with tracked := ?_, lock := ?_, noticed := ?_ }
  · refine hs.tracked.move ht rfl rfl (fun j hj => ?_) fun d hp => ?_
    · rw [view_goto, view_store_ne hj]
    · rw [view_goto, view_store_self]
      exact hphase d hp
  · exact hs.lock.keep (by rw [hlock, ht])
  · exact hs.noticed.keep (by rw [hnoticed, ht])

/-- The thread waits. -/
theorem inv_wait (hs : Inv s) (h : act s (.wait t) = some s') : Inv s' := by
  obtain ⟨i, ht, h⟩ := act_wait h
  obtain ⟨d, hd, hp⟩ := hs.tracked.place ht
  obtain ⟨o, ho, -⟩ := hp.object
  simp only [touch_of_some ho, Option.some.injEq] at h
  subst h
  exact inv_own_object hs ht (fun d hp => hp.wait ho) rfl rfl

/-- The thread goes on. -/
theorem inv_resume (hs : Inv s) (h : act s (.resume t) = some s') : Inv s' := by
  obtain ⟨i, ht, h⟩ := act_resume h
  obtain ⟨d, hd, hp⟩ := hs.tracked.place ht
  obtain ⟨o, ho, -⟩ := hp.object
  simp only [touch_of_some ho, Option.ite_none_right_eq_some, Option.some.injEq] at h
  obtain ⟨⟨hwaiting, hmutex⟩, rfl⟩ := h
  exact inv_own_object hs ht (fun d hp => hp.resume ho hwaiting hmutex) rfl rfl

/-- The reference is in no view. -/
theorem inv_unref (hs : Inv s) (h : act s (.unref t) = some s') : Inv s' := by
  obtain ⟨i, ht, rfl⟩ := act_unref h
  refine { hs with tracked := ?_, lock := ?_, noticed := ?_ }
  · exact hs.tracked.move ht rfl rfl (fun j _ => rfl) fun d hp => hp.unref
  · exact hs.lock.keep (by rw [ht]; rfl)
  · exact hs.noticed.keep (by rw [ht]; rfl)

/-- The mutex of the invocation is free. -/
theorem inv_release (hs : Inv s) (h : act s (.release t) = some s') : Inv s' := by
  obtain ⟨i, ht, h⟩ := act_release h
  obtain ⟨d, hd, hp⟩ := hs.tracked.place ht
  obtain ⟨o, ho, -⟩ := hp.object
  simp only [touch_of_some ho, Option.some.injEq] at h
  subst h
  exact inv_own_object hs ht (fun d hp => hp.release ho) rfl rfl

/-- The invocation has ended. -/
theorem inv_free (hs : Inv s) (h : act s (.free t) = some s') : Inv s' := by
  obtain ⟨i, ht, h⟩ := act_free h
  obtain ⟨d, hd, hp⟩ := hs.tracked.place ht
  obtain ⟨o, ho, -⟩ := hp.object
  simp only [touch_of_some ho, Option.some.injEq] at h
  subst h
  have hnot : i ∉ s.returned := listed_eq_false.mp hp.not_returned
  refine { hs with tracked := ?_, lock := ?_, noticed := ?_, returned_nodup := ?_ }
  · refine hs.tracked.depart ht rfl rfl (fun j hj => ?_) ?_
    · rw [view_goto, view_store_ne hj]
      simp [view, listed_snoc_ne hj]
    · rw [view_goto, view_store_self, ← hp.free]
      simp [view]
  · exact hs.lock.keep (by rw [ht]; rfl)
  · exact hs.noticed.keep (by rw [ht]; rfl)
  · exact hs.returned_nodup.append (List.nodup_singleton i) (by simpa using hnot)

end ForeignSteps

/-! ## The steps of the main thread -/

section MainSteps

variable {s s' : State T δ}

/-- A callback on the main thread touches none of this. -/
theorem inv_invokeMain {data : δ} (hs : Inv s) (h : act s (.invokeMain data) = some s') :
    Inv s' := by
  simp only [act] at h
  split at h <;> simp only [Option.some.injEq, reduceCtorEq] at h <;> subst h
  · exact { hs with tracked := hs.tracked.congr rfl rfl fun _ => rfl }
  · exact { hs with tracked := hs.tracked.congr rfl rfl fun _ => rfl }

/-- What else keeps the loop alive is not part of this. -/
theorem inv_hold {held : Bool} (hs : Inv s) (h : act s (.hold held) = some s') : Inv s' := by
  obtain rfl := Option.some.inj h
  exact { hs with tracked := hs.tracked.congr rfl rfl fun _ => rfl }

/-- The pending wake-up becomes a main thread that drains. -/
theorem inv_deliver (hs : Inv s) (h : act s .deliver = some s') : Inv s' := by
  obtain ⟨hm, -, rfl⟩ := act_deliver h
  refine { hs with tracked := ?_, lock := ?_, noticed := ?_ }
  · exact hs.tracked.congr rfl rfl fun j => by simp [view, hm, stageOf]
  · exact hs.lock.mainKeep (by rw [hm]; exact Iff.rfl)
  · exact Noticed.mainBusy (by simp)

/-- The mutex goes to the main thread. -/
theorem inv_enter (hs : Inv s) (h : act s .enter = some s') : Inv s' := by
  obtain ⟨hm, hfree, rfl⟩ := act_enter h
  refine { hs with tracked := ?_, lock := ?_, noticed := ?_ }
  · exact hs.tracked.congr rfl rfl fun j => by simp [view, hm, stageOf]
  · exact (hfree ▸ hs.lock).mainAcquire trivial
  · exact Noticed.mainBusy (by simp)

/-- The queue is empty when the main thread leaves it. -/
theorem inv_leave (hs : Inv s) (h : act s .leave = some s') : Inv s' := by
  obtain ⟨hm, hq, rfl⟩ := act_leave h
  refine { hs with tracked := ?_, lock := ?_, noticed := ?_ }
  · exact hs.tracked.congr rfl rfl fun j => by simp [view, hm, stageOf]
  · exact hs.lock.mainRelease (by rw [hm]; trivial) (by simp [Main.inside])
  · exact fun hne => absurd hq hne

/-- The main thread works on the invocation it serves. -/
theorem tracked_serve {i : Nat} (hs : Inv s)
    (hcalls : s'.calls = s.calls) (hforeign : s'.foreign = s.foreign)
    (howner : (view s i).queued = true ∨ (view s i).stage ≠ none)
    (hview : ∀ j, j ≠ i → view s' j = view s j)
    (hphase : ∀ t spot d, Phase t d spot (view s i) → Phase t d spot (view s' i)) :
    Tracked s' := by
  obtain ⟨t, spot, ht⟩ := hs.tracked.owner howner
  refine hs.tracked.move ht hcalls ?_ hview fun d hp => hphase t spot d hp
  rw [hforeign, ← ht, Function.update_eq_self]

/-- The invocation goes from the queue to the main thread. -/
theorem inv_pop (hs : Inv s) (h : act s .pop = some s') : Inv s' := by
  obtain ⟨i, queue, hm, hq, h⟩ := act_pop h
  have hqueued : (view s i).queued = true := listed_eq_true.mpr (by simp [hq])
  obtain ⟨o, ho, hown⟩ := served_object hs (Or.inl hqueued)
  simp only [touch_of_some ho, Option.some.injEq] at h
  subst h
  have hnodup := hs.queue_nodup
  rw [hq, List.nodup_cons] at hnodup
  have hnot : i ∉ s.dispatched.map Prod.fst := by
    obtain ⟨t, spot, ht⟩ := hs.tracked.owner (Or.inl hqueued)
    obtain ⟨d, -, hp⟩ := hs.tracked.place ht
    exact listed_eq_false.mp (hp.pop hqueued).1
  refine { hs with
    tracked := ?_, lock := ?_, noticed := ?_, queue_nodup := hnodup.2
    dispatched_nodup := ?_, dispatched_own := ?_ }
  · refine tracked_serve hs rfl rfl (Or.inl hqueued) (fun j hj => ?_) fun t spot d hp => ?_
    · simp [view, hq, hm, stageOf, Ne.symm hj, listed_cons_ne hj, listed_snoc_ne hj]
    · have hgone : listed queue i = false := listed_eq_false.mpr hnodup.1
      have hseen := (hp.pop hqueued).2
      simpa [view, stageOf, hgone] using hseen
  · exact hs.lock.mainKeep (by rw [hm]; exact Iff.rfl)
  · exact Noticed.mainBusy (by simp)
  · rw [List.map_append]
    exact hs.dispatched_nodup.append (List.nodup_singleton i) (by simpa using hnot)
  · intro p hp
    rcases List.mem_append.mp hp with hp | hp
    · exact hs.dispatched_own p hp
    · rw [List.mem_singleton.mp hp]
      exact hown

/-- The served invocation was dispatched. -/
theorem inv_dispatchDone (hs : Inv s) (h : act s .dispatchDone = some s') : Inv s' := by
  obtain ⟨i, hm, rfl⟩ := act_dispatchDone h
  have hstage := stage_of_serving hm
  refine { hs with tracked := ?_, lock := ?_, noticed := ?_ }
  · refine tracked_serve hs rfl rfl (serving_owned hm) (fun j hj => ?_)
      fun t spot d hp => ?_
    · simp [view, hm, stageOf, Ne.symm hj]
    · simpa [view, stageOf] using hp.dispatchDone hstage
  · exact hs.lock.mainKeep (by rw [hm]; exact Iff.rfl)
  · exact Noticed.mainBusy (by simp)

/-- The main thread overwrites the object it serves and moves on. -/
theorem tracked_served_object {i : Nat} {stage : Stage} {mn : Main} {signalled : List Nat}
    {o' : Invocation T δ} (hs : Inv s) (hm : s.main = .serving stage i)
    (hmn : mn.inside) (hother : ∀ j, j ≠ i → stageOf mn j = none)
    (hsignalled : ∀ j, j ≠ i → listed signalled j = listed s.signalled j)
    (hphase : ∀ t spot d, Phase t d spot (view s i) → Phase t d spot
      { view s i with
        object := some o', signalled := listed signalled i, stage := stageOf mn i }) :
    Inv ({ s with main := mn, signalled := signalled }.store i (some o')) := by
  refine { hs with tracked := ?_, lock := ?_, noticed := ?_ }
  · refine tracked_serve hs rfl rfl (serving_owned hm) (fun j hj => ?_)
      fun t spot d hp => ?_
    · rw [view_store_ne hj]
      have hwas : stageOf s.main j = none := by
        rw [hm]
        simp [stageOf, Ne.symm hj]
      simp [view, hwas, hother j hj, hsignalled j hj]
    · rw [view_store_self]
      exact hphase t spot d hp
  · refine hs.lock.mainKeep (iff_of_true hmn ?_)
    rw [hm]
    trivial
  · refine Noticed.mainBusy ?_
    rintro rfl
    exact hmn

/-- The mutex of the served invocation goes to the main thread. -/
theorem inv_lockInvocation (hs : Inv s) (h : act s .lockInvocation = some s') : Inv s' := by
  obtain ⟨i, hm, h⟩ := act_lockInvocation h
  have hstage := stage_of_serving hm
  obtain ⟨o, ho, -⟩ := served_object hs (serving_owned hm)
  simp only [touch_of_some ho, Option.ite_none_right_eq_some, Option.some.injEq] at h
  obtain ⟨hmutex, rfl⟩ := h
  refine tracked_served_object hs hm trivial (fun j hj => ?_) (fun _ _ => rfl)
    fun t spot d hp => ?_
  · simp [stageOf, Ne.symm hj]
  · simpa [stageOf, view] using hp.lockInvocation hstage ho hmutex

/-- The thread of the served invocation is signalled. -/
theorem inv_signal (hs : Inv s) (h : act s .signal = some s') : Inv s' := by
  obtain ⟨i, hm, h⟩ := act_signal h
  have hstage := stage_of_serving hm
  obtain ⟨o, ho, -⟩ := served_object hs (serving_owned hm)
  simp only [touch_of_some ho, Option.some.injEq] at h
  subst h
  refine tracked_served_object hs hm trivial (fun j hj => ?_) (fun j hj => listed_snoc_ne hj)
    fun t spot d hp => ?_
  · simp [stageOf, Ne.symm hj]
  · simpa [stageOf, view] using hp.signal hstage ho

/-- The main thread is done with the invocation. -/
theorem inv_unlockInvocation (hs : Inv s) (h : act s .unlockInvocation = some s') :
    Inv s' := by
  obtain ⟨i, hm, h⟩ := act_unlockInvocation h
  have hstage := stage_of_serving hm
  obtain ⟨o, ho, -⟩ := served_object hs (serving_owned hm)
  simp only [touch_of_some ho, Option.some.injEq] at h
  subst h
  refine tracked_served_object hs hm trivial (fun j hj => rfl) (fun _ _ => rfl)
    fun t spot d hp => ?_
  simpa [stageOf, view] using hp.unlockInvocation hstage ho

end MainSteps

/-- **Step lemma.**  Every step keeps the invariant. -/
theorem inv_step {s s' : State T δ} {a : Action T δ} (hs : Inv s)
    (h : step s a = some s') : Inv s' := by
  rw [step, hs.no_fault] at h
  cases a with
  | invoke t data => exact inv_invoke hs h
  | lockQueue t => exact inv_lockQueue hs h
  | push t => exact inv_push hs h
  | unlockQueue t => exact inv_unlockQueue hs h
  | send t => exact inv_send hs h
  | wait t => exact inv_wait hs h
  | resume t => exact inv_resume hs h
  | unref t => exact inv_unref hs h
  | release t => exact inv_release hs h
  | free t => exact inv_free hs h
  | invokeMain data => exact inv_invokeMain hs h
  | hold held => exact inv_hold hs h
  | deliver => exact inv_deliver hs h
  | enter => exact inv_enter hs h
  | pop => exact inv_pop hs h
  | dispatchDone => exact inv_dispatchDone hs h
  | lockInvocation => exact inv_lockInvocation hs h
  | signal => exact inv_signal hs h
  | unlockInvocation => exact inv_unlockInvocation hs h
  | leave => exact inv_leave hs h

/-- **Run lemma.**  Every interleaving keeps the invariant. -/
theorem inv_of_reaches {s : State T δ}
    (h : Reaches step (fun _ _ => True) start s) : Inv s :=
  h.invariant Inv inv_start fun _ _ _ hs _ ht => inv_step hs ht

/-! ## What holds in every reachable state -/

/-- No freed object is touched, each dispatch passes the data of its own
invocation and happens at most once, and an object is freed, and its call of
`Invoke` returns, only after the dispatch and the signal. -/
structure Served (s : State T δ) : Prop where
  no_fault : s.fault = false
  dispatched_own : ∀ i d, (i, d) ∈ s.dispatched → s.calls[i]? = some d
  dispatched_once : (s.dispatched.map Prod.fst).Nodup
  signalled_dispatched : ∀ i ∈ s.signalled, i ∈ s.dispatched.map Prod.fst
  freed_signalled : ∀ i < s.calls.length, s.heap i = none → i ∈ s.signalled
  returned_freed : ∀ i ∈ s.returned, s.heap i = none ∧ i ∈ s.signalled
  returned_once : s.returned.Nodup

/-- All closures that were entered have run their course: no thread is inside
`Invoke`, and every invocation was dispatched and returned exactly once. -/
def AllServed (s : State T δ) : Prop :=
  (∀ t, s.foreign t = .idle) ∧
  (s.dispatched.map Prod.fst).Perm (List.range s.calls.length) ∧
  s.returned.Perm (List.range s.calls.length)

omit [DecidableEq T] in
/-- What the view of an invocation tells, wherever it is in its life. -/
theorem Inv.life {s : State T δ} (hs : Inv s) (i : Nat) :
    (∃ t spot d, s.foreign t = .at spot i ∧ s.calls[i]? = some d ∧
      Phase t d spot (view s i)) ∨
    (i < s.calls.length ∧ view s i = ended) ∨ (s.calls.length ≤ i ∧ view s i = unborn) := by
  by_cases hat : ∃ t spot, s.foreign t = .at spot i
  · obtain ⟨t, spot, ht⟩ := hat
    obtain ⟨d, hd, hp⟩ := hs.tracked.place ht
    exact Or.inl ⟨t, spot, d, ht, hd, hp⟩
  · push Not at hat
    have hv := hs.tracked.vacant hat
    by_cases hi : i < s.calls.length
    · exact Or.inr (Or.inl ⟨hi, by rw [hv, if_pos hi]⟩)
    · exact Or.inr (Or.inr ⟨Nat.le_of_not_lt hi, by rw [hv, if_neg hi]⟩)

omit [DecidableEq T] in
/-- What the invariant says of the invocations. -/
theorem Inv.served {s : State T δ} (hs : Inv s) : Served s where
  no_fault := hs.no_fault
  dispatched_own := fun i d h => hs.dispatched_own (i, d) h
  dispatched_once := hs.dispatched_nodup
  signalled_dispatched := by
    intro i hi
    have hsig : (view s i).signalled = true := listed_eq_true.mpr hi
    suffices h : (view s i).dispatched = true from listed_eq_true.mp h
    rcases hs.life i with ⟨t, spot, d, -, -, hp⟩ | ⟨-, hv⟩ | ⟨-, hv⟩
    · exact hp.dispatched hsig
    · rw [hv]; rfl
    · rw [hv] at hsig; simp [unborn] at hsig
  freed_signalled := by
    intro i hi hfree
    have hobj : (view s i).object = none := hfree
    suffices h : (view s i).signalled = true from listed_eq_true.mp h
    rcases hs.life i with ⟨t, spot, d, -, -, hp⟩ | ⟨-, hv⟩ | ⟨hlen, -⟩
    · obtain ⟨o, ho, -⟩ := hp.object
      rw [hobj] at ho
      cases ho
    · rw [hv]; rfl
    · omega
  returned_freed := by
    intro i hi
    have hret : (view s i).returned = true := listed_eq_true.mpr hi
    rcases hs.life i with ⟨t, spot, d, -, -, hp⟩ | ⟨-, hv⟩ | ⟨-, hv⟩
    · rw [hp.not_returned] at hret
      cases hret
    · exact ⟨congrArg View.object hv, listed_eq_true.mp (congrArg View.signalled hv)⟩
    · rw [hv] at hret; simp [unborn] at hret
  returned_once := hs.returned_nodup

/-- What every state of every interleaving satisfies. -/
theorem served_of_reaches {s : State T δ} (h : Reaches step (fun _ _ => True) start s) :
    Served s :=
  (inv_of_reaches h).served

/-! ## The loop is kept alive -/

/-- The thread is between its `uv_ref` and its `uv_unref`. -/
def Place.refs : Place → Bool
  | .idle => false
  | .at .unreferenced _ => false
  | .at .released _ => false
  | .at _ _ => true

/-- The condition on a step: a foreign thread enters a closure while something other than
`g_async` keeps the loop alive, or while no thread is between its `uv_ref` and its
`uv_unref`; and the last of those other things goes only while at most one thread is, with
`g_async` referenced. -/
def Apart (s : State T δ) : Action T δ → Prop
  | .invoke _ _ => s.held = true ∨ ∀ u, (s.foreign u).refs = false
  | .hold held => held = true ∨
      (∀ t, (s.foreign t).refs = true → s.referenced = true) ∧
        ∀ t u, (s.foreign t).refs = true → (s.foreign u).refs = true → t = u
  | _ => True

/-- The loop is alive for the threads inside: something else keeps it alive, or there is one
such thread at most, and `g_async` is referenced for it. -/
def Awake (s : State T δ) : Prop :=
  s.held = true ∨ (∀ t, (s.foreign t).refs = true → s.referenced = true) ∧
    ∀ t u, (s.foreign t).refs = true → (s.foreign u).refs = true → t = u

omit [DecidableEq T] in
/-- While a thread is inside, the loop is alive. -/
theorem Awake.alive {s : State T δ} (h : Awake s) {t : T} (ht : (s.foreign t).refs = true) :
    s.alive = true := by
  rcases h with hheld | ⟨href, -⟩
  · simp [State.alive, hheld]
  · simp [State.alive, href t ht]

omit [DecidableEq T] in
/-- A step that leaves the threads, the flag and the other handles alone. -/
theorem Awake.congr {s s' : State T δ} (h : Awake s) (hheld : s'.held = s.held)
    (hreferenced : s'.referenced = s.referenced) (hforeign : ∀ t, (s'.foreign t).refs =
      (s.foreign t).refs) : Awake s' := by
  simpa only [Awake, hheld, hreferenced, hforeign] using h

/-- A thread moves on, still inside or still outside. -/
theorem Awake.move {s s' : State T δ} (h : Awake s) {t : T} {p : Place} (hheld : s'.held = s.held)
    (hreferenced : s'.referenced = s.referenced)
    (hforeign : s'.foreign = Function.update s.foreign t p)
    (hp : p.refs = (s.foreign t).refs) : Awake s' :=
  h.congr hheld hreferenced fun u => by rw [hforeign, update_place_eq Place.refs hp]

omit [DecidableEq T] in
/-- The work on an object of the heap keeps what the work itself keeps. -/
theorem awake_touch {s s' : State T δ} (hs : Awake s) {i : Nat}
    {f : Invocation T δ → Option (State T δ)} (h : s.touch i f = some s')
    (hf : ∀ o, f o = some s' → Awake s') : Awake s' := by
  unfold State.touch at h
  split at h
  · exact hf _ h
  · obtain rfl := Option.some.inj h
    exact hs

/-- **Step lemma.**  A step that meets the condition keeps the loop alive. -/
theorem awake_step {s s' : State T δ} {a : Action T δ} (hs : Awake s) (hok : Apart s a)
    (h : step s a = some s') : Awake s' := by
  simp only [step] at h
  split at h
  · cases h
  cases a with
  | invoke t data =>
      obtain ⟨ht, rfl⟩ := act_invoke h
      rcases hok with hheld | hnone
      · exact .inl hheld
      · refine .inr ⟨fun _ _ => rfl, fun u v hu hv => ?_⟩
        have hat : ∀ {u}, (Function.update s.foreign t (.at .built s.calls.length) u).refs = true →
            u = t := by
          intro u hu
          by_contra hut
          rw [Function.update_of_ne hut, hnone u] at hu
          cases hu
        rw [hat hu, hat hv]
  | unref t =>
      obtain ⟨i, ht, rfl⟩ := act_unref h
      rcases hs with hheld | ⟨-, hone⟩
      · exact .inl hheld
      · have hnone : ∀ u, (Function.update s.foreign t (.at .unreferenced i) u).refs = false := by
          intro u
          by_cases hut : u = t
          · rw [hut, Function.update_self]
            rfl
          · rw [Function.update_of_ne hut]
            by_contra hrefs
            exact hut (hone u t (by simpa using hrefs) (by rw [ht]; rfl))
        refine .inr ⟨fun u hu => ?_, fun u v hu _ => ?_⟩
        · exact absurd ((hnone u).symm.trans hu) (by simp)
        · exact absurd ((hnone u).symm.trans hu) (by simp)
  | hold held =>
      obtain rfl := Option.some.inj h
      exact hok
  | lockQueue t =>
      obtain ⟨i, ht, -, rfl⟩ := act_lockQueue h
      exact hs.move rfl rfl rfl (by rw [ht]; rfl)
  | push t =>
      obtain ⟨i, ht, rfl⟩ := act_push h
      exact hs.move rfl rfl rfl (by rw [ht]; rfl)
  | unlockQueue t =>
      obtain ⟨i, ht, rfl⟩ := act_unlockQueue h
      exact hs.move rfl rfl rfl (by rw [ht]; rfl)
  | send t =>
      obtain ⟨i, ht, rfl⟩ := act_send h
      exact hs.move rfl rfl rfl (by rw [ht]; rfl)
  | wait t =>
      obtain ⟨i, ht, h⟩ := act_wait h
      refine awake_touch hs h fun o ho => ?_
      obtain rfl := Option.some.inj ho
      exact hs.move rfl rfl rfl (by rw [ht]; rfl)
  | resume t =>
      obtain ⟨i, ht, h⟩ := act_resume h
      refine awake_touch hs h fun o ho => ?_
      obtain ⟨-, ho⟩ := Option.ite_none_right_eq_some.mp ho
      obtain rfl := Option.some.inj ho
      exact hs.move rfl rfl rfl (by rw [ht]; rfl)
  | release t =>
      obtain ⟨i, ht, h⟩ := act_release h
      refine awake_touch hs h fun o ho => ?_
      obtain rfl := Option.some.inj ho
      exact hs.move rfl rfl rfl (by rw [ht]; rfl)
  | free t =>
      obtain ⟨i, ht, h⟩ := act_free h
      refine awake_touch hs h fun o ho => ?_
      obtain rfl := Option.some.inj ho
      exact hs.move rfl rfl rfl (by rw [ht]; rfl)
  | invokeMain data =>
      simp only [act] at h
      split at h <;> simp only [Option.some.injEq, reduceCtorEq] at h <;> subst h <;> exact hs
  | deliver =>
      obtain ⟨-, -, rfl⟩ := act_deliver h
      exact hs
  | enter =>
      obtain ⟨-, -, rfl⟩ := act_enter h
      exact hs
  | pop =>
      obtain ⟨i, queue, -, -, h⟩ := act_pop h
      refine awake_touch hs h fun o ho => ?_
      obtain rfl := Option.some.inj ho
      exact hs
  | dispatchDone =>
      obtain ⟨i, -, rfl⟩ := act_dispatchDone h
      exact hs
  | lockInvocation =>
      obtain ⟨i, -, h⟩ := act_lockInvocation h
      refine awake_touch hs h fun o ho => ?_
      obtain ⟨-, ho⟩ := Option.ite_none_right_eq_some.mp ho
      obtain rfl := Option.some.inj ho
      exact hs
  | signal =>
      obtain ⟨i, -, h⟩ := act_signal h
      refine awake_touch hs h fun o ho => ?_
      obtain rfl := Option.some.inj ho
      exact hs
  | unlockInvocation =>
      obtain ⟨i, -, h⟩ := act_unlockInvocation h
      refine awake_touch hs h fun o ho => ?_
      obtain rfl := Option.some.inj ho
      exact hs
  | leave =>
      obtain ⟨-, -, rfl⟩ := act_leave h
      exact hs

/-- **Run lemma.**  Runs whose steps meet the condition keep the loop alive. -/
theorem awake_of_reaches {s : State T δ} (h : Reaches step Apart start s) : Awake s := by
  refine h.invariant Awake ?_ fun _ _ _ hs hok ht => awake_step hs hok ht
  exact .inr ⟨fun t ht => by simp [start, Place.refs] at ht,
    fun t u ht _ => by simp [start, Place.refs] at ht⟩

/-! ## Nothing is left waiting -/

section Rest

variable {s : State T δ}

/-- In a state at rest no owed action of the code is enabled. -/
theorem act_of_atRest (hs : Inv s) (hrest : AtRest step Owed s) {a : Action T δ}
    (ha : Owed a) : act s a = none := by
  simpa [step, hs.no_fault] using hrest a ha

/-- Whoever holds the queue mutex can go on, so at rest it is free. -/
theorem queueMutex_of_atRest (hs : Inv s) (hrest : AtRest step Owed s)
    (hm : ¬ s.main.inside) : s.queueMutex = none := by
  cases hq : s.queueMutex with
  | none => rfl
  | some party =>
      exfalso
      cases party with
      | main => exact hm (hs.lock.main.mp hq)
      | foreign t =>
          have hholds := (hs.lock.foreign t).mp hq
          cases hp : s.foreign t with
          | idle => rw [hp] at hholds; simp [Place.holdsQueue] at hholds
          | «at» spot i =>
              rw [hp] at hholds
              cases spot with
              | holding =>
                  have := act_of_atRest hs hrest (a := .push t) trivial
                  simp [act, hp] at this
              | pushed =>
                  have := act_of_atRest hs hrest (a := .unlockQueue t) trivial
                  simp [act, hp] at this
              | _ => simp [Place.holdsQueue] at hholds

/-- At rest a thread inside `Invoke` can only be waiting for its signal. -/
theorem waiting_of_atRest (hs : Inv s) (hrest : AtRest step Owed s) {t : T} {spot : Spot}
    {i : Nat} (ht : s.foreign t = .at spot i) (hfree : spot = .built → s.queueMutex = none) :
    spot = .waiting := by
  obtain ⟨d, hd, hp⟩ := hs.tracked.place ht
  obtain ⟨o, ho, -⟩ := hp.object
  cases spot with
  | built =>
      have := act_of_atRest hs hrest (a := .lockQueue t) trivial
      simp [act, ht, hfree rfl] at this
  | holding =>
      have := act_of_atRest hs hrest (a := .push t) trivial
      simp [act, ht] at this
  | pushed =>
      have := act_of_atRest hs hrest (a := .unlockQueue t) trivial
      simp [act, ht] at this
  | queued =>
      have := act_of_atRest hs hrest (a := .send t) trivial
      simp [act, ht] at this
  | sent =>
      have := act_of_atRest hs hrest (a := .wait t) trivial
      simp [act, ht, touch_of_some ho] at this
  | waiting => rfl
  | resumed =>
      have := act_of_atRest hs hrest (a := .unref t) trivial
      simp [act, ht] at this
  | unreferenced =>
      have := act_of_atRest hs hrest (a := .release t) trivial
      simp [act, ht, touch_of_some ho] at this
  | released =>
      have := act_of_atRest hs hrest (a := .free t) trivial
      simp [act, ht, touch_of_some ho] at this

/-- The main thread is never stuck inside `WatcherCallback`: the one lock it
takes there, `m_mutex` of a popped invocation, is released by its owner. -/
theorem main_of_atRest (hs : Inv s) (hrest : AtRest step Owed s) : s.main = .loop := by
  cases hm : s.main with
  | loop => rfl
  | entered =>
      have hfree := queueMutex_of_atRest hs hrest (by rw [hm]; exact fun h => h)
      have := act_of_atRest hs hrest (a := .enter) trivial
      simp [act, hm, hfree] at this
  | drain =>
      cases hq : s.queue with
      | nil =>
          have := act_of_atRest hs hrest (a := .leave) trivial
          simp [act, hm, hq] at this
      | cons i queue =>
          obtain ⟨o, ho, -⟩ := served_object hs
            (Or.inl (listed_eq_true.mpr (by rw [hq]; exact List.mem_cons_self)))
          have := act_of_atRest hs hrest (a := .pop) trivial
          simp [act, hm, hq, touch_of_some ho] at this
  | serving stage i =>
      obtain ⟨o, ho, -⟩ := served_object hs (serving_owned hm)
      cases stage with
      | dispatching =>
          have := act_of_atRest hs hrest (a := .dispatchDone) trivial
          simp [act, hm] at this
      | dispatched =>
          -- the owner is past the queue, hence waiting, hence without the mutex
          obtain ⟨t, spot, ht⟩ := hs.tracked.owner (serving_owned hm)
          obtain ⟨d, hd, hp⟩ := hs.tracked.place ht
          have hstage := stage_of_serving hm
          have hspot : spot = .waiting := by
            refine waiting_of_atRest hs hrest ht ?_
            rintro rfl
            exact absurd hstage (by rw [hp.stage_of_built]; simp)
          subst hspot
          have hmutex := hp.mutex_of_waiting hstage ho
          have := act_of_atRest hs hrest (a := .lockInvocation) trivial
          simp [act, hm, touch_of_some ho, hmutex] at this
      | locked =>
          have := act_of_atRest hs hrest (a := .signal) trivial
          simp [act, hm, touch_of_some ho] at this
      | signalled =>
          have := act_of_atRest hs hrest (a := .unlockInvocation) trivial
          simp [act, hm, touch_of_some ho] at this

/-- **No wake-up is lost.**  At rest every thread is outside `Invoke`, if the loop is kept
alive for those inside. -/
theorem idle_of_atRest (hs : Inv s) (hawake : Awake s) (hrest : AtRest step Owed s) (t : T) :
    s.foreign t = .idle := by
  have hm := main_of_atRest hs hrest
  have hfree := queueMutex_of_atRest hs hrest (by rw [hm]; exact fun h => h)
  have hspot : ∀ {u spot i}, s.foreign u = .at spot i → spot = .waiting :=
    fun hu => waiting_of_atRest hs hrest hu fun _ => hfree
  cases ht : s.foreign t with
  | idle => rfl
  | «at» spot i =>
      exfalso
      obtain rfl := hspot ht
      obtain ⟨d, hd, hp⟩ := hs.tracked.place ht
      obtain ⟨o, ho, -⟩ := hp.object
      have hnostage : (view s i).stage = none := by
        show stageOf s.main i = none
        rw [hm]
        rfl
      rcases hp.waiting_cases ho hnostage with hqueued | ⟨hwaiting, hmutex⟩
      · -- still queued: then somebody would wake the main thread up
        have hne : s.queue ≠ [] := List.ne_nil_of_mem (listed_eq_true.mp hqueued)
        rcases hs.noticed hne with hpend | hbusy | ⟨u, hu⟩
        · have halive : s.alive = true := hawake.alive (by rw [ht]; rfl)
          have := act_of_atRest hs hrest (a := .deliver) trivial
          simp [act, hm, hpend, halive] at this
        · exact hbusy hm
        · cases hplace : s.foreign u with
          | idle => rw [hplace] at hu; simp [Place.announces] at hu
          | «at» spot' j =>
              obtain rfl := hspot hplace
              rw [hplace] at hu
              simp [Place.announces] at hu
      · have := act_of_atRest hs hrest (a := .resume t) trivial
        simp [act, ht, touch_of_some ho, hwaiting, hmutex] at this

/-- At rest all invocations have been dispatched and their calls have returned. -/
theorem allServed_of_atRest (hs : Inv s) (hawake : Awake s) (hrest : AtRest step Owed s) :
    AllServed s := by
  have hidle := idle_of_atRest hs hawake hrest
  have hview : ∀ i, view s i = if i < s.calls.length then ended else unborn :=
    fun i => hs.tracked.vacant fun t spot ht => by
      rw [hidle t] at ht
      cases ht
  refine ⟨hidle, ?_, ?_⟩
  · refine (List.perm_ext_iff_of_nodup hs.dispatched_nodup List.nodup_range).mpr fun i => ?_
    rw [← listed_eq_true, List.mem_range]
    show (view s i).dispatched = true ↔ _
    rw [hview i]
    split <;> simp [ended, unborn, *]
  · refine (List.perm_ext_iff_of_nodup hs.returned_nodup List.nodup_range).mpr fun i => ?_
    rw [← listed_eq_true, List.mem_range]
    show (view s i).returned = true ↔ _
    rw [hview i]
    split <;> simp [ended, unborn, *]

end Rest

/-! ## The work that is left -/

/-- Steps a thread still owes, with room for what it puts on the queue. -/
def Place.weight : Place → Nat
  | .idle => 0
  | .at .released _ => 1
  | .at .unreferenced _ => 2
  | .at .resumed _ => 3
  | .at .waiting _ => 4
  | .at .sent _ => 5
  | .at .queued _ => 9
  | .at .pushed _ => 10
  | .at .holding _ => 16
  | .at .built _ => 17

/-- Steps the main thread still owes inside `WatcherCallback`. -/
def Main.weight : Main → Nat
  | .loop => 0
  | .drain => 1
  | .entered => 2
  | .serving .signalled _ => 2
  | .serving .locked _ => 3
  | .serving .dispatched _ => 4
  | .serving .dispatching _ => 5

section Work

variable [Fintype T]

/-- All the work that is left; a faulted process owes nothing more. -/
def work (s : State T δ) : Nat :=
  load Place.weight s.foreign + s.main.weight + 5 * s.queue.length + (if s.pending then 3 else 0) +
    (if s.fault then 0 else 1)

/-- A move of thread `t` that leaves the rest of the work alone. -/
theorem work_goto (s : State T δ) (t : T) (p : Place) :
    work (s.goto t p) + (s.foreign t).weight = work s + p.weight := by
  have := load_update Place.weight s.foreign t p
  change load Place.weight (Function.update s.foreign t p) + s.main.weight + 5 * s.queue.length +
    (if s.pending then 3 else 0) + (if s.fault then 0 else 1) + _ = _
  unfold work
  omega

omit [DecidableEq T] in
/-- The objects do not count as work. -/
@[simp] theorem work_store (s : State T δ) (i : Nat) (o : Option (Invocation T δ)) :
    work (s.store i o) = work s := rfl

omit [DecidableEq T] in
/-- Work on an object either faults or goes on. -/
theorem work_touch {s s' : State T δ} {i : Nat} {f : Invocation T δ → Option (State T δ)}
    (hfault : s.fault = false) (h : s.touch i f = some s')
    (hf : ∀ o, f o = some s' → work s' < work s) : work s' < work s := by
  unfold State.touch at h
  split at h
  · exact hf _ h
  · simp only [Option.some.injEq] at h
    subst h
    simp [work, hfault]

/-- Each step that is owed leaves less to do. -/
theorem work_step {s s' : State T δ} {a : Action T δ} (ha : Owed a)
    (h : step s a = some s') : work s' < work s := by
  simp only [step] at h
  split at h
  · cases h
  case isFalse hfault =>
  replace hfault : s.fault = false := by simpa using hfault
  cases a with
  | invoke t data => exact ha.elim
  | invokeMain data => exact ha.elim
  | hold held => exact ha.elim
  | lockQueue t =>
      obtain ⟨i, ht, -, rfl⟩ := act_lockQueue h
      have := work_goto { s with queueMutex := some (.foreign t) } t (.at .holding i)
      simp only [ht, Place.weight, work] at this ⊢
      omega
  | push t =>
      obtain ⟨i, ht, rfl⟩ := act_push h
      have := work_goto { s with queue := s.queue ++ [i] } t (.at .pushed i)
      simp only [ht, Place.weight, work, List.length_append, List.length_singleton]
        at this ⊢
      omega
  | unlockQueue t =>
      obtain ⟨i, ht, rfl⟩ := act_unlockQueue h
      have := work_goto { s with queueMutex := none } t (.at .queued i)
      simp only [ht, Place.weight, work] at this ⊢
      omega
  | send t =>
      obtain ⟨i, ht, rfl⟩ := act_send h
      have := work_goto { s with pending := true } t (.at .sent i)
      simp only [ht, Place.weight, work, if_true] at this ⊢
      omega
  | wait t =>
      obtain ⟨i, ht, h⟩ := act_wait h
      refine work_touch hfault h fun o ho => ?_
      simp only [Option.some.injEq] at ho
      subst ho
      have := work_goto (s.store i (some { o with mutex := none, waiting := true })) t
        (.at .waiting i)
      simp only [State.store, ht, Place.weight] at this ⊢
      change _ + _ = work s + _ at this
      omega
  | resume t =>
      obtain ⟨i, ht, h⟩ := act_resume h
      refine work_touch hfault h fun o ho => ?_
      simp only [Option.ite_none_right_eq_some, Option.some.injEq] at ho
      obtain ⟨-, rfl⟩ := ho
      have := work_goto (s.store i (some { o with mutex := some (.foreign t) })) t
        (.at .resumed i)
      simp only [State.store, ht, Place.weight] at this ⊢
      change _ + _ = work s + _ at this
      omega
  | unref t =>
      obtain ⟨i, ht, rfl⟩ := act_unref h
      have := work_goto { s with referenced := false } t (.at .unreferenced i)
      simp only [ht, Place.weight, work] at this ⊢
      omega
  | release t =>
      obtain ⟨i, ht, h⟩ := act_release h
      refine work_touch hfault h fun o ho => ?_
      simp only [Option.some.injEq] at ho
      subst ho
      have := work_goto (s.store i (some { o with mutex := none })) t (.at .released i)
      simp only [State.store, ht, Place.weight] at this ⊢
      change _ + _ = work s + _ at this
      omega
  | free t =>
      obtain ⟨i, ht, h⟩ := act_free h
      refine work_touch hfault h fun o ho => ?_
      simp only [Option.some.injEq] at ho
      subst ho
      have := work_goto ({ s with returned := s.returned ++ [i] }.store i none) t .idle
      simp only [State.store, ht, Place.weight] at this ⊢
      change _ + _ = work s + _ at this
      omega
  | deliver =>
      obtain ⟨hm, hp, rfl⟩ := act_deliver h
      simp only [work, hm, hp, Main.weight, if_true, Bool.false_eq_true, if_false]
      omega
  | enter =>
      obtain ⟨hm, -, rfl⟩ := act_enter h
      simp [work, hm, Main.weight]
  | pop =>
      obtain ⟨i, queue, hm, hq, h⟩ := act_pop h
      refine work_touch hfault h fun o ho => ?_
      simp only [Option.some.injEq] at ho
      subst ho
      simp only [work, hm, hq, Main.weight, List.length_cons]
      omega
  | dispatchDone =>
      obtain ⟨i, hm, rfl⟩ := act_dispatchDone h
      simp [work, hm, Main.weight]
  | lockInvocation =>
      obtain ⟨i, hm, h⟩ := act_lockInvocation h
      refine work_touch hfault h fun o ho => ?_
      simp only [Option.ite_none_right_eq_some, Option.some.injEq] at ho
      obtain ⟨-, rfl⟩ := ho
      rw [work_store]
      simp [work, hm, Main.weight]
  | signal =>
      obtain ⟨i, hm, h⟩ := act_signal h
      refine work_touch hfault h fun o ho => ?_
      simp only [Option.some.injEq] at ho
      subst ho
      rw [work_store]
      simp [work, hm, Main.weight]
  | unlockInvocation =>
      obtain ⟨i, hm, h⟩ := act_unlockInvocation h
      refine work_touch hfault h fun o ho => ?_
      simp only [Option.some.injEq] at ho
      subst ho
      rw [work_store]
      simp [work, hm, Main.weight]
  | leave =>
      obtain ⟨hm, hq, rfl⟩ := act_leave h
      simp [work, hm, Main.weight]

/-- **The callback queue serves every invocation.**  In every interleaving in which threads
are inside `Invoke` together only while something else keeps the loop alive, no freed object
is touched, each invocation is dispatched at most once and with its own data, and a call of
`Invoke` returns only after its own dispatch and signal.  From every state reached the threads
come to the end of what they have started, and there each invocation was dispatched exactly
once and each call has returned. -/
theorem invocations_served {s : State T δ} (h : Reaches step Apart start s) :
    Served s ∧ Settles step Owed AllServed s := by
  have hany : ∀ {u : State T δ}, Reaches step Apart start u → Inv u := fun hu =>
    inv_of_reaches (hu.weaken fun _ _ _ => trivial)
  have howed : ∀ (u : State T δ) a, Owed a → Apart u a := fun u a ha => by
    cases a <;> first | exact ha.elim | exact trivial
  exact ⟨(hany h).served,
    h.settles howed work (fun _ _ _ ha ht => work_step ha ht)
      fun _ ht hrest => allServed_of_atRest (hany ht) (awake_of_reaches ht) hrest⟩

end Work

/-- Two threads whose wake-ups coalesce, while another handle keeps the loop alive: the
second is pushed before the first callback runs. -/
theorem invocations_served_coalesced :
    ∃ s : State Bool Nat, s.calls = [7, 8] ∧ s.queue = [0, 1] ∧ Served s ∧
      Settles step Owed AllServed s := by
  refine ⟨_, ?_, ?_, invocations_served (reaches_of_run
    [.hold true, .invoke false 7, .lockQueue false, .push false, .unlockQueue false,
      .invoke true 8, .lockQueue true, .push true, .unlockQueue true, .send false, .send true]
    rfl ?_)⟩
  · rfl
  · rfl
  · simp [Meets, step, act, start, State.goto, State.store, Apart]

/-- **A lost wake-up.**  Nothing but `g_async` keeps the loop alive.  The second thread enters
while the first is inside; the first is served, and its `uv_unref` leaves the loop without a
reference, so that the wake-up of the second is never looked for. -/
theorem wake_up_lost : ¬ ∀ s : State Bool Nat, Reaches step (fun _ _ => True) start s →
    Served s ∧ Settles step Owed AllServed s := by
  intro hall
  have hbad := hall _ (reaches_of_run_any
    [.invoke false 7, .invoke true 8, .lockQueue false, .push false, .unlockQueue false,
      .send false, .wait false, .deliver, .enter, .pop, .dispatchDone, .lockInvocation, .signal,
      .unlockInvocation, .leave, .resume false, .unref false, .release false, .free false,
      .lockQueue true, .push true, .unlockQueue true, .send true, .wait true] rfl)
  have hserved := hbad.2.done_at_rest [] _ (by simp) rfl ?_
  · exact absurd (hserved.1 true) (by decide)
  · intro a ha
    cases a with
    | invoke t data => exact ha.elim
    | invokeMain data => exact ha.elim
    | hold held => exact ha.elim
    | lockQueue t => cases t <;> rfl
    | push t => cases t <;> rfl
    | unlockQueue t => cases t <;> rfl
    | send t => cases t <;> rfl
    | wait t => cases t <;> rfl
    | resume t => cases t <;> rfl
    | unref t => cases t <;> rfl
    | release t => cases t <;> rfl
    | free t => cases t <;> rfl
    | _ => rfl

end CallbackQueue

import Tint.Threads
import Tint.Transition

/-!
# Messages of a page on their way to JavaScript

A `ScriptInterface` hands the strings that a page posts to a JavaScript
function.  On the v8 thread the page calls `postMessageBack`, which calls the
function at once; any other thread goes through `postMessageBackOnMain`, which
stores the string in the slot `_response`, sends the `uv_async` and waits on
the semaphore until `browser_callback` has passed on what is in the slot.

After each call of the function the semaphore is released if the slot is not
null -- and the slot is never cleared.

* `messages_delivered` -- if the v8 thread posts only before any other thread
  does, never through `postMessageBackOnMain`, and the other threads post one
  at a time, every string arrives once and every poster is released once;
* `message_replaced` -- `postMessageBackOnMain` on the v8 thread passes on the
  slot instead of the string.

The JavaScript function returns normally here; what it throws is rethrown after
the release.
-/

namespace ScriptInterface

open Transition Threads

variable {T S : Type*}

/-- The thread that posts: the v8 thread or another one. -/
inductive Poster
  | v8
  | background
  deriving DecidableEq

/-- The program points of a background thread in `postMessageBackOnMain`. -/
inductive Place (S : Type*)
  | idle
  /-- `_response` stored, about to send -/
  | stored (str : S)
  /-- in `sem->WaitOne()` -/
  | waiting (str : S)

/-- An activation on the v8 thread. -/
inductive Frame (S : Type*)
  /-- `browser_callback`, about to read `_response` -/
  | delivering
  /-- `postMessageBack` is about to call the JavaScript function -/
  | calling (poster : Poster) (str : Option S)
  /-- the JavaScript function runs -/
  | running (poster : Poster) (str : Option S)

/-- The shared state.  `stack` holds the activations on the v8 thread, the
innermost first.  The last lists record, in order, what was posted, what was
passed to the JavaScript function and which posts returned.  `fault` is set when
the semaphore is released beyond its maximum. -/
structure State (T S : Type*) where
  response : Option S
  pending : Bool
  sem : Nat
  background : T → Place S
  stack : List (Frame S)
  posted : List (Poster × Option S)
  calls : List (Poster × Option S)
  returned : List (Poster × Option S)
  fault : Bool

/-- The constructor. -/
def start : State T S where
  response := none
  pending := false
  sem := 0
  background := fun _ => .idle
  stack := []
  posted := []
  calls := []
  returned := []
  fault := false

/-- The steps of the background threads (with the thread) and of the v8 thread. -/
inductive Action (T S : Type*)
  | post (t : T) (str : S)
  | send (t : T)
  | wait (t : T)
  /-- the page calls `postMessageBack` on the v8 thread -/
  | postBack (str : S)
  /-- the page calls `postMessageBackOnMain` on the v8 thread -/
  | postOnMain (str : S)
  | deliver
  | read
  | call
  | finish

/-- Everything but a post has to happen once it is due. -/
def Owed : Action T S → Prop
  | .post _ _ => False
  | .postBack _ => False
  | .postOnMain _ => False
  | _ => True

/-- Other code can run on the v8 thread: none of the object's own code is on top
of the stack. -/
def interruptible : List (Frame S) → Bool
  | [] => true
  | .running _ _ :: _ => true
  | _ => false

section Step

variable [DecidableEq T]

/-- The state after thread `t` moved to `p`. -/
def State.goto (s : State T S) (t : T) (p : Place S) : State T S :=
  { s with background := Function.update s.background t p }

/-- What a background thread or the v8 thread does next. -/
def act (s : State T S) : Action T S → Option (State T S)
  | .post t str =>
      match s.background t with
      | .idle =>
          some ({ s with
            response := some str
            posted := s.posted ++ [(Poster.background, some str)] }.goto t (.stored str))
      | _ => none
  | .send t =>
      match s.background t with
      | .stored str => some ({ s with pending := true }.goto t (.waiting str))
      | _ => none
  | .wait t =>
      match s.background t with
      | .waiting str =>
          if 0 < s.sem then
            some ({ s with
              sem := s.sem - 1
              returned := s.returned ++ [(Poster.background, some str)] }.goto t .idle)
          else none
      | _ => none
  | .postBack str =>
      if interruptible s.stack then
        some { s with
          stack := .calling .v8 (some str) :: s.stack
          posted := s.posted ++ [(.v8, some str)] }
      else none
  | .postOnMain str =>
      if interruptible s.stack then
        -- `this->postMessageBack(this->_response);`
        some { s with
          stack := .calling .v8 s.response :: s.stack
          posted := s.posted ++ [(.v8, some str)] }
      else none
  | .deliver =>
      if interruptible s.stack ∧ s.pending then
        some { s with pending := false, stack := .delivering :: s.stack }
      else none
  | .read =>
      match s.stack with
      | .delivering :: stack => some { s with stack := .calling .background s.response :: stack }
      | _ => none
  | .call =>
      match s.stack with
      | .calling poster str :: stack =>
          some { s with
            stack := .running poster str :: stack
            calls := s.calls ++ [(poster, str)] }
      | _ => none
  | .finish =>
      match s.stack with
      | .running poster str :: stack =>
          some { s with
            stack := stack
            -- `if(_response != nullptr) sem->Release();`
            sem := if s.response.isSome ∧ s.sem = 0 then 1 else s.sem
            returned := if poster = .v8 then s.returned ++ [(.v8, str)] else s.returned
            fault := s.fault || (s.response.isSome && s.sem != 0) }
      | _ => none

/-- One step; a process that overran the semaphore is followed no further. -/
def step (s : State T S) (a : Action T S) : Option (State T S) :=
  if s.fault then none else act s a

end Step

/-- The condition on a step: another thread posts while no post is on its way,
and the v8 thread posts by `postMessageBack`, before any other thread has. -/
def OneAtATime (s : State T S) : Action T S → Prop
  | .post _ _ => (∀ t, s.background t = .idle) ∧ s.stack = []
  | .postBack _ => s.response = none
  | .postOnMain _ => False
  | _ => True

/-- What holds at any time: nothing is passed to JavaScript that was not
posted, with its own text and as often, no post returns before its own delivery,
and the semaphore is never released twice. -/
def Delivered (s : State T S) : Prop :=
  s.fault = false ∧ s.calls.Subperm s.posted ∧ s.returned.Subperm s.calls

/-- What holds when everything posted is over: each string was passed to
JavaScript exactly once, each poster was released, and no release is left. -/
def AllDelivered (s : State T S) : Prop :=
  (∀ t, s.background t = .idle) ∧ s.stack = [] ∧ s.sem = 0 ∧ s.pending = false ∧
    s.calls.Perm s.posted ∧ s.returned.Perm s.calls

/-! ## The invariant -/

/-- How far the one background post is. -/
inductive Stage
  | stored
  | sent
  | delivering
  | calling
  | running

/-- Where the posting thread is. -/
def Stage.place (str : S) : Stage → Place S
  | .stored => .stored str
  | _ => .waiting str

/-- The v8 thread's stack. -/
def Stage.frames (str : S) : Stage → List (Frame S)
  | .delivering => [.delivering]
  | .calling => [.calling .background (some str)]
  | .running => [.running .background (some str)]
  | _ => []

/-- Whether the async handle is to be delivered. -/
def Stage.pending : Stage → Bool
  | .sent => true
  | _ => false

/-- The post that has not been passed to JavaScript. -/
def Stage.uncalled (str : S) : Stage → List (Poster × Option S)
  | .running => []
  | _ => [(.background, some str)]

/-- The post that was passed to JavaScript and has not returned. -/
def Stage.opened (str : S) : Stage → List (Poster × Option S)
  | .running => [(.background, some str)]
  | _ => []

/-- The post of an activation that has not called JavaScript. -/
def Frame.uncalled : Frame S → List (Poster × Option S)
  | .calling poster str => [(poster, str)]
  | _ => []

/-- The post of an activation that is in JavaScript. -/
def Frame.opened : Frame S → List (Poster × Option S)
  | .running poster str => [(poster, str)]
  | _ => []

/-- The activation belongs to a post of the v8 thread. -/
def Frame.IsOwn : Frame S → Prop
  | .calling .v8 _ => True
  | .running .v8 _ => True
  | _ => False

/-- The background post that is over but for the return from the wait. -/
def released : Option (T × S) → List (Poster × Option S)
  | some (_, str) => [(.background, some str)]
  | none => []

/-! ### Posts of the v8 thread -/

/-- No other thread has posted yet. -/
structure Own (s : State T S) : Prop where
  response : s.response = none
  background : s.background = fun _ => .idle
  sem : s.sem = 0
  pending : s.pending = false
  frames : ∀ f ∈ s.stack, f.IsOwn
  posted : bag s.posted = bag s.calls + bag (s.stack.flatMap Frame.uncalled)
  calls : bag s.calls = bag s.returned + bag (s.stack.flatMap Frame.opened)

/-- The v8 thread starts to post, before any other thread. -/
theorem Own.postBack {s : State T S} (h : Own s) (str : S) :
    Own { s with
      stack := .calling .v8 (some str) :: s.stack
      posted := s.posted ++ [(.v8, some str)] } := by
  constructor
  · exact h.response
  · exact h.background
  · exact h.sem
  · exact h.pending
  · intro f hf
    obtain rfl | hf := List.mem_cons.mp hf
    · trivial
    · exact h.frames f hf
  · simp only [bag_append, h.posted, List.flatMap_cons, Frame.uncalled]
    ac_rfl
  · simp only [List.flatMap_cons, Frame.opened, List.nil_append, h.calls]

/-- It calls the JavaScript function. -/
theorem Own.call {s : State T S} (h : Own s) {str : Option S} {stack : List (Frame S)}
    (hs : s.stack = .calling .v8 str :: stack) :
    Own { s with stack := .running .v8 str :: stack, calls := s.calls ++ [(.v8, str)] } := by
  constructor
  · exact h.response
  · exact h.background
  · exact h.sem
  · exact h.pending
  · intro f hf
    obtain rfl | hf := List.mem_cons.mp hf
    · trivial
    · exact h.frames f (by rw [hs]; exact List.mem_cons_of_mem _ hf)
  · have hposted := h.posted
    simp only [hs, List.flatMap_cons, Frame.uncalled, bag_append] at hposted
    simp only [hposted, List.flatMap_cons, Frame.uncalled, bag_append, bag_nil]
    ac_rfl
  · have hcalls := h.calls
    simp only [hs, List.flatMap_cons, Frame.opened, bag_append, bag_nil] at hcalls
    simp only [hcalls, List.flatMap_cons, Frame.opened, bag_append, zero_add]
    ac_rfl

/-- The function returns; the empty slot keeps the post away from the semaphore. -/
theorem Own.finish {s : State T S} (h : Own s) {str : Option S} {stack : List (Frame S)}
    (hs : s.stack = .running .v8 str :: stack) :
    Own { s with stack := stack, returned := s.returned ++ [(.v8, str)] } := by
  constructor
  · exact h.response
  · exact h.background
  · exact h.sem
  · exact h.pending
  · exact fun f hf => h.frames f (by rw [hs]; exact List.mem_cons_of_mem _ hf)
  · have hposted := h.posted
    simp only [hs, List.flatMap_cons, Frame.uncalled, List.nil_append] at hposted
    exact hposted
  · have hcalls := h.calls
    simp only [hs, List.flatMap_cons, Frame.opened, bag_append] at hcalls
    simp only [hcalls, bag_append]
    ac_rfl

/-! ### Posts of other threads -/

section Books

variable [DecidableEq T]

/-- The places of the background threads when at most one is still to return. -/
def leaving : Option (T × S) → T → Place S
  | some (t, str) => alone .idle t (.waiting str)
  | none => fun _ => .idle

/-- No post is on its way; one may still have to return. -/
structure Quiet (s : State T S) (w : Option (T × S)) : Prop where
  response : s.response ≠ none
  background : s.background = leaving w
  sem : s.sem = (released w).length
  pending : s.pending = false
  stack : s.stack = []
  posted : bag s.posted = bag s.calls
  calls : bag s.calls = bag s.returned + bag (released w)

/-- The post of `str` by thread `t` is on its way. -/
structure Underway (s : State T S) (t : T) (str : S) (stage : Stage) : Prop where
  response : s.response = some str
  background : s.background = alone .idle t (stage.place str)
  sem : s.sem = 0
  pending : s.pending = stage.pending
  stack : s.stack = stage.frames str
  posted : bag s.posted = bag s.calls + bag (stage.uncalled str)
  calls : bag s.calls = bag s.returned + bag (stage.opened str)

/-- **The invariant.**  The semaphore was not overrun; either no other thread
has posted yet, or the object serves at most one post. -/
def Inv (s : State T S) : Prop :=
  s.fault = false ∧ (Own s ∨ (∃ w, Quiet s w) ∨ ∃ t str stage, Underway s t str stage)

/-! ### One lemma for each move -/

/-- Another thread starts to post while none does: before the first post, or
after all earlier ones have returned. -/
theorem underway_post {s : State T S} (hbackground : ∀ u, s.background u = .idle)
    (hstack : s.stack = []) (hsem : s.sem = 0) (hpending : s.pending = false)
    (hposted : bag s.posted = bag s.calls) (hcalls : bag s.calls = bag s.returned) (t : T)
    (str : S) :
    Underway ({ s with
      response := some str
      posted := s.posted ++ [(Poster.background, some str)] }.goto t (.stored str))
      t str .stored := by
  have hidle : s.background = fun _ => .idle := funext hbackground
  constructor
  · rfl
  · simp only [State.goto, hidle, alone, Stage.place]
  · exact hsem
  · exact hpending
  · exact hstack
  · simp only [State.goto, bag_append, Stage.uncalled, hposted]
  · simp only [State.goto, Stage.opened, bag_nil, add_zero, hcalls]

/-- The thread that waits returns. -/
theorem Quiet.wait {s : State T S} {t : T} {str : S} (h : Quiet s (some (t, str))) :
    Quiet ({ s with
      sem := s.sem - 1
      returned := s.returned ++ [(Poster.background, some str)] }.goto t .idle) none := by
  constructor
  · exact h.response
  · simp only [State.goto, h.background, leaving, update_alone, alone_rest]
  · simp only [State.goto, h.sem, released, List.length_cons, List.length_nil]
  · exact h.pending
  · exact h.stack
  · exact h.posted
  · simp only [State.goto, bag_append, h.calls, released, bag_nil, add_zero]

/-- A post goes on by one program point. -/
theorem Underway.move {s s' : State T S} {t : T} {str : S} {stage stage' : Stage}
    (h : Underway s t str stage) (response : s'.response = s.response)
    (background : s'.background = alone .idle t (stage'.place str)) (sem : s'.sem = s.sem)
    (pending : s'.pending = stage'.pending) (stack : s'.stack = stage'.frames str)
    (posted : s'.posted = s.posted) (returned : s'.returned = s.returned)
    (uncalled : bag s'.calls + bag (stage'.uncalled str) =
      bag s.calls + bag (stage.uncalled str))
    (opened : bag s'.calls + bag (stage.opened str) = bag s.calls + bag (stage'.opened str)) :
    Underway s' t str stage' where
  response := response.trans h.response
  background := background
  sem := sem.trans h.sem
  pending := pending
  stack := stack
  posted := by rw [posted, h.posted, uncalled]
  calls := by
    have hcalls := h.calls
    rw [hcalls] at opened
    rw [returned]
    refine add_right_cancel (b := bag (stage.opened str)) ?_
    rw [opened]
    ac_rfl

/-- The delivery ends: the slot is not null, so the semaphore is released for
the thread that waits. -/
theorem Underway.finish {s : State T S} {t : T} {str : S} (h : Underway s t str .running) :
    Quiet { s with stack := [], sem := 1 } (some (t, str)) := by
  constructor
  · rw [h.response]
    exact Option.some_ne_none str
  · exact h.background
  · rfl
  · exact h.pending
  · rfl
  · simpa [Stage.uncalled] using h.posted
  · exact h.calls

/-! ### Steps and runs -/

/-- A thread away from `idle` is the one that posts, and its place tells how far
it is. -/
theorem Underway.place {s : State T S} {t u : T} {str : S} {stage : Stage}
    (h : Underway s t str stage) (hu : s.background u ≠ .idle) :
    u = t ∧ s.background u = stage.place str := by
  rw [h.background] at hu ⊢
  obtain rfl := eq_of_alone hu
  exact ⟨rfl, alone_self _ _ _⟩

/-- A thread that waits after its post is over is the one to return. -/
theorem Quiet.waiter {s : State T S} {w : Option (T × S)} (h : Quiet s w) {t : T}
    (ht : s.background t ≠ .idle) :
    ∃ str, w = some (t, str) ∧ s.background t = .waiting str := by
  rw [h.background] at ht
  cases w with
  | none => exact absurd rfl ht
  | some p =>
      obtain ⟨u, str⟩ := p
      obtain rfl := eq_of_alone ht
      refine ⟨str, rfl, ?_⟩
      rw [h.background]
      exact alone_self _ _ _

/-- While no post of another thread is on its way, nothing but the v8 thread's
own posts is on the stack. -/
theorem top_of_inv {s : State T S} (h : Own s ∨ ∃ w, Quiet s w) {f : Frame S}
    {stack : List (Frame S)} (hs : s.stack = f :: stack) : Own s ∧ f.IsOwn := by
  obtain hown | ⟨w, hquiet⟩ := h
  · exact ⟨hown, hown.frames f (by rw [hs]; exact List.mem_cons_self)⟩
  · rw [hquiet.stack] at hs
    cases hs

/-- A stage whose stack starts with this activation. -/
theorem Underway.top {s : State T S} {t : T} {str : S} {stage : Stage}
    (h : Underway s t str stage) {f : Frame S} {stack : List (Frame S)}
    (hs : s.stack = f :: stack) :
    stack = [] ∧ (stage = .delivering ∧ f = .delivering ∨
      stage = .calling ∧ f = .calling .background (some str) ∨
      stage = .running ∧ f = .running .background (some str)) := by
  have hstack := h.stack.symm.trans hs
  cases stage <;> simp only [Stage.frames, List.cons.injEq, reduceCtorEq] at hstack
  · obtain ⟨rfl, rfl⟩ := hstack
    simp
  · obtain ⟨rfl, rfl⟩ := hstack
    simp
  · obtain ⟨rfl, rfl⟩ := hstack
    simp

/-! ### What each step does -/

/-- A background thread sends the wake-up behind its text. -/
theorem act_send {s s' : State T S} {t : T} (h : act s (.send t) = some s') :
    ∃ str, s.background t = .stored str ∧
      s' = { s with pending := true }.goto t (.waiting str) := by
  simp only [act] at h
  split at h
  case h_1 str ht => exact ⟨str, ht, (Option.some.inj h).symm⟩
  case h_2 => cases h

/-- A background thread goes on once the semaphore was posted. -/
theorem act_wait {s s' : State T S} {t : T} (h : act s (.wait t) = some s') :
    ∃ str, s.background t = .waiting str ∧ 0 < s.sem ∧
      s' = { s with
        sem := s.sem - 1
        returned := s.returned ++ [(Poster.background, some str)] }.goto t .idle := by
  simp only [act] at h
  split at h
  case h_1 str ht =>
    obtain ⟨hsem, h⟩ := Option.ite_none_right_eq_some.mp h
    exact ⟨str, ht, hsem, (Option.some.inj h).symm⟩
  case h_2 => cases h

/-- The wake-up reads the text from the slot. -/
theorem act_read {s s' : State T S} (h : act s .read = some s') :
    ∃ stack, s.stack = .delivering :: stack ∧
      s' = { s with stack := .calling .background s.response :: stack } := by
  simp only [act] at h
  split at h
  case h_1 stack hstack => exact ⟨stack, hstack, (Option.some.inj h).symm⟩
  case h_2 => cases h

/-- The function of the page is called with what was read. -/
theorem act_call {s s' : State T S} (h : act s .call = some s') :
    ∃ poster str stack, s.stack = .calling poster str :: stack ∧
      s' = { s with
        stack := .running poster str :: stack
        calls := s.calls ++ [(poster, str)] } := by
  simp only [act] at h
  split at h
  case h_1 poster str stack hstack => exact ⟨poster, str, stack, hstack, (Option.some.inj h).symm⟩
  case h_2 => cases h

/-- The function comes back, and the waiting thread is posted. -/
theorem act_finish {s s' : State T S} (h : act s .finish = some s') :
    ∃ poster str stack, s.stack = .running poster str :: stack ∧
      s' = { s with
        stack := stack
        sem := if s.response.isSome ∧ s.sem = 0 then 1 else s.sem
        returned := if poster = .v8 then s.returned ++ [(.v8, str)] else s.returned
        fault := s.fault || (s.response.isSome && s.sem != 0) } := by
  simp only [act] at h
  split at h
  case h_1 poster str stack hstack => exact ⟨poster, str, stack, hstack, (Option.some.inj h).symm⟩
  case h_2 => cases h

/-! ### The invariant through each step -/

/-- A text is stored while no other one is in the slot. -/
theorem inv_post {s s' : State T S} {t : T} {str : S} (hs : Inv s)
    (hok : OneAtATime s (.post t str)) (h : act s (.post t str) = some s') : Inv s' := by
  obtain ⟨hfault, hs⟩ := hs
  obtain ⟨hidle, hstack⟩ := hok
  simp only [act, hidle t, Option.some.injEq] at h
  subst h
  refine ⟨hfault, .inr (.inr ⟨t, str, .stored, ?_⟩)⟩
  obtain hown | ⟨w, hquiet⟩ | ⟨u, str', stage, hunder⟩ := hs
  · have hposted := hown.posted
    have hcalls := hown.calls
    simp only [hstack, List.flatMap_nil, bag_nil, add_zero] at hposted hcalls
    exact underway_post hidle hstack hown.sem hown.pending hposted hcalls t str
  · obtain rfl : w = none := by
      cases w with
      | none => rfl
      | some p =>
          obtain ⟨u, str'⟩ := p
          have hu := hidle u
          rw [hquiet.background, leaving, alone_self] at hu
          cases hu
    have hcalls := hquiet.calls
    simp only [released, bag_nil, add_zero] at hcalls
    exact underway_post hidle hstack hquiet.sem hquiet.pending hquiet.posted hcalls t str
  · have hu := hidle u
    rw [hunder.background, alone_self] at hu
    cases stage <;> cases hu

/-- The wake-up is pending for the text in the slot. -/
theorem inv_send {s s' : State T S} {t : T} (hs : Inv s)
    (h : act s (.send t) = some s') : Inv s' := by
  obtain ⟨hfault, hs⟩ := hs
  obtain ⟨str, ht, rfl⟩ := act_send h
  have haway : s.background t ≠ .idle := by
    simp [ht]
  obtain hown | ⟨w, hquiet⟩ | ⟨u, str', stage, hunder⟩ := hs
  · exact absurd (congrFun hown.background t) haway
  · obtain ⟨str', -, hwaiting⟩ := hquiet.waiter haway
    rw [ht] at hwaiting
    cases hwaiting
  · obtain ⟨rfl, hplace⟩ := hunder.place haway
    rw [ht] at hplace
    cases stage <;> simp only [Stage.place, reduceCtorEq, Place.stored.injEq] at hplace
    subst hplace
    refine ⟨hfault, .inr (.inr ⟨t, str, .sent, hunder.move rfl ?_ rfl rfl hunder.stack rfl
      rfl rfl rfl⟩)⟩
    simp only [State.goto, hunder.background, update_alone, Stage.place]

/-- The post is over when the thread goes on. -/
theorem inv_wait {s s' : State T S} {t : T} (hs : Inv s)
    (h : act s (.wait t) = some s') : Inv s' := by
  obtain ⟨hfault, hs⟩ := hs
  obtain ⟨str, ht, hsem, rfl⟩ := act_wait h
  have haway : s.background t ≠ .idle := by
    simp [ht]
  obtain hown | ⟨w, hquiet⟩ | ⟨u, str', stage, hunder⟩ := hs
  · exact absurd (congrFun hown.background t) haway
  · obtain ⟨str', rfl, hwaiting⟩ := hquiet.waiter haway
    rw [ht] at hwaiting
    cases hwaiting
    exact ⟨hfault, .inr (.inl ⟨none, hquiet.wait⟩)⟩
  · have hzero := hunder.sem
    omega

/-- The main thread posts its text while the slot is free. -/
theorem inv_postBack {s s' : State T S} {str : S} (hs : Inv s)
    (hok : OneAtATime s (.postBack str)) (h : act s (.postBack str) = some s') : Inv s' := by
  obtain ⟨hfault, hs⟩ := hs
  simp only [act, Option.ite_none_right_eq_some, Option.some.injEq] at h
  obtain ⟨-, rfl⟩ := h
  have hnull : s.response = none := hok
  obtain hown | ⟨w, hquiet⟩ | ⟨u, str', stage, hunder⟩ := hs
  · exact ⟨hfault, .inl (hown.postBack str)⟩
  · exact absurd hnull hquiet.response
  · rw [hunder.response] at hnull
    cases hnull

/-- The pending wake-up is delivered once. -/
theorem inv_deliver {s s' : State T S} (hs : Inv s)
    (h : act s .deliver = some s') : Inv s' := by
  obtain ⟨hfault, hs⟩ := hs
  simp only [act, Option.ite_none_right_eq_some, Option.some.injEq] at h
  obtain ⟨⟨-, hpending⟩, rfl⟩ := h
  obtain hown | ⟨w, hquiet⟩ | ⟨u, str', stage, hunder⟩ := hs
  · rw [hown.pending] at hpending
    cases hpending
  · rw [hquiet.pending] at hpending
    cases hpending
  · cases stage <;> simp only [hunder.pending, Stage.pending, Bool.false_eq_true] at hpending
    refine ⟨hfault, .inr (.inr ⟨u, str', .delivering, hunder.move rfl hunder.background rfl rfl
      ?_ rfl rfl rfl rfl⟩)⟩
    simp only [hunder.stack, Stage.frames]

/-- The text that is read is the one that was posted. -/
theorem inv_read {s s' : State T S} (hs : Inv s)
    (h : act s .read = some s') : Inv s' := by
  obtain ⟨hfault, hs⟩ := hs
  obtain ⟨stack, hstack, rfl⟩ := act_read h
  obtain hown | hquiet | ⟨u, str', stage, hunder⟩ := hs
  · exact (top_of_inv (.inl hown) hstack).2.elim
  · exact (top_of_inv (.inr hquiet) hstack).2.elim
  · obtain ⟨rfl, ⟨rfl, -⟩ | ⟨-, hf⟩ | ⟨-, hf⟩⟩ := hunder.top hstack
    · refine ⟨hfault, .inr (.inr ⟨u, str', .calling, hunder.move rfl hunder.background rfl
        hunder.pending ?_ rfl rfl rfl rfl⟩)⟩
      simp only [hunder.response, Stage.frames]
    · cases hf
    · cases hf

/-- The function is called for the text that was posted. -/
theorem inv_call {s s' : State T S} (hs : Inv s)
    (h : act s .call = some s') : Inv s' := by
  obtain ⟨hfault, hs⟩ := hs
  obtain ⟨poster, str, stack, hstack, rfl⟩ := act_call h
  have hearly : Own s ∨ (∃ w, Quiet s w) →
      Own { s with
        stack := .running poster str :: stack
        calls := s.calls ++ [(poster, str)] } := by
    intro hearly
    obtain ⟨hown, hf⟩ := top_of_inv hearly hstack
    cases poster with
    | v8 => exact hown.call hstack
    | background => exact hf.elim
  obtain hown | hquiet | ⟨u, str', stage, hunder⟩ := hs
  · exact ⟨hfault, .inl (hearly (.inl hown))⟩
  · exact ⟨hfault, .inl (hearly (.inr hquiet))⟩
  · obtain ⟨rfl, ⟨-, hf⟩ | ⟨rfl, hf⟩ | ⟨-, hf⟩⟩ := hunder.top hstack
    · cases hf
    · cases hf
      refine ⟨hfault, .inr (.inr ⟨u, str', .running, hunder.move rfl hunder.background rfl
        hunder.pending rfl rfl rfl ?_ ?_⟩)⟩
      · simp only [bag_append, Stage.uncalled, bag_nil, add_zero]
      · simp only [bag_append, Stage.opened, bag_nil, add_zero]
    · cases hf

/-- The post is over, and its thread may go on. -/
theorem inv_finish {s s' : State T S} (hs : Inv s)
    (h : act s .finish = some s') : Inv s' := by
  obtain ⟨hfault, hs⟩ := hs
  obtain ⟨poster, str, stack, hstack, rfl⟩ := act_finish h
  obtain hown | hquiet | ⟨u, str', stage, hunder⟩ := hs
  · obtain ⟨-, hf⟩ := top_of_inv (.inl hown) hstack
    cases poster with
    | background => exact hf.elim
    | v8 =>
        have hfinish := hown.finish hstack
        refine ⟨by simp [hfault, hown.response], .inl ?_⟩
        simpa [hown.response, hfault] using hfinish
  · obtain ⟨w, hw⟩ := hquiet
    rw [hw.stack] at hstack
    cases hstack
  · obtain ⟨rfl, ⟨-, hf⟩ | ⟨-, hf⟩ | ⟨rfl, hf⟩⟩ := hunder.top hstack
    · cases hf
    · cases hf
    · cases hf
      refine ⟨by simp [hfault, hunder.sem], .inr (.inl ⟨some (u, str'), ?_⟩)⟩
      simpa [hunder.response, hunder.sem, hfault] using hunder.finish

/-- One step under the condition keeps the invariant. -/
theorem inv_step {s s' : State T S} {a : Action T S} (hs : Inv s) (hok : OneAtATime s a)
    (h : step s a = some s') : Inv s' := by
  simp only [step, hs.1, Bool.false_eq_true, if_false] at h
  cases a with
  | post t str => exact inv_post hs hok h
  | send t => exact inv_send hs h
  | wait t => exact inv_wait hs h
  | postBack str => exact inv_postBack hs hok h
  | postOnMain str => exact hok.elim
  | deliver => exact inv_deliver hs h
  | read => exact inv_read hs h
  | call => exact inv_call hs h
  | finish => exact inv_finish hs h

/-- Runs under the condition keep the invariant. -/
theorem inv_of_reaches {s : State T S} (h : Reaches step OneAtATime start s) : Inv s := by
  refine h.invariant Inv ⟨rfl, .inl ?_⟩ fun s a t hs hok ht => inv_step hs hok ht
  constructor
  · rfl
  · rfl
  · rfl
  · rfl
  · intro f hf
    cases hf
  · rfl
  · rfl

/-- The invariant says what was delivered so far. -/
theorem Inv.delivered {s : State T S} (hs : Inv s) : Delivered s := by
  obtain ⟨hfault, hown | ⟨w, hquiet⟩ | ⟨t, str, stage, hunder⟩⟩ := hs
  · exact ⟨hfault, subperm_of_bag_eq hown.posted, subperm_of_bag_eq hown.calls⟩
  · have hposted : bag s.posted = bag s.calls + 0 := by rw [hquiet.posted, add_zero]
    exact ⟨hfault, subperm_of_bag_eq hposted, subperm_of_bag_eq hquiet.calls⟩
  · exact ⟨hfault, subperm_of_bag_eq hunder.posted, subperm_of_bag_eq hunder.calls⟩

/-- A post on its way has a next step. -/
theorem Underway.not_atRest {s : State T S} {t : T} {str : S} {stage : Stage}
    (h : Underway s t str stage) (hfault : s.fault = false) : ¬ AtRest step Owed s := by
  intro hrest
  have hplace : s.background t = stage.place str := by rw [h.background, alone_self]
  have hstack := h.stack
  have hpending := h.pending
  cases stage with
  | stored => simpa [step, act, hfault, hplace, Stage.place] using hrest (.send t) trivial
  | sent =>
      simpa [step, act, hfault, hstack, hpending, Stage.frames, Stage.pending, interruptible]
        using hrest .deliver trivial
  | delivering => simpa [step, act, hfault, hstack, Stage.frames] using hrest .read trivial
  | calling => simpa [step, act, hfault, hstack, Stage.frames] using hrest .call trivial
  | running => simpa [step, act, hfault, hstack, Stage.frames] using hrest .finish trivial

/-- At rest everything posted was delivered. -/
theorem allDelivered_of_atRest {s : State T S} (hs : Inv s) (hrest : AtRest step Owed s) :
    AllDelivered s := by
  obtain ⟨hfault, hown | ⟨w, hquiet⟩ | ⟨t, str, stage, hunder⟩⟩ := hs
  · have hstack : s.stack = [] := by
      cases hstack : s.stack with
      | nil => rfl
      | cons f stack =>
          have hf := (top_of_inv (.inl hown) hstack).2
          cases f with
          | delivering => exact hf.elim
          | calling poster str => simpa [step, act, hfault, hstack] using hrest .call trivial
          | running poster str => simpa [step, act, hfault, hstack] using hrest .finish trivial
    have hposted := hown.posted
    have hcalls := hown.calls
    simp only [hstack, List.flatMap_nil, bag_nil, add_zero] at hposted hcalls
    exact ⟨fun t => congrFun hown.background t, hstack, hown.sem, hown.pending,
      (bag_eq_bag.mp hposted).symm, (bag_eq_bag.mp hcalls).symm⟩
  · obtain rfl : w = none := by
      cases w with
      | none => rfl
      | some p =>
          simpa [step, act, hfault, hquiet.background, leaving, hquiet.sem, released] using
            hrest (.wait p.1) trivial
    have hcalls := hquiet.calls
    simp only [released, bag_nil, add_zero] at hcalls
    exact ⟨fun t => congrFun hquiet.background t, hquiet.stack, hquiet.sem, hquiet.pending,
      (bag_eq_bag.mp hquiet.posted).symm, (bag_eq_bag.mp hcalls).symm⟩
  · exact absurd hrest (hunder.not_atRest hfault)

end Books

/-! ## The work that is left -/

/-- The steps a background thread still takes or causes. -/
def Place.weight : Place S → Nat
  | .idle => 0
  | .stored _ => 7
  | .waiting _ => 1

/-- The steps an activation on the v8 thread still takes. -/
def Frame.weight : Frame S → Nat
  | .delivering => 4
  | .calling _ _ => 3
  | .running _ _ => 2

section Work

variable [Fintype T] [DecidableEq T]

/-- All the work that is left. -/
def work (s : State T S) : Nat :=
  load Place.weight s.background + (s.stack.map Frame.weight).sum + 5 * s.pending.toNat

/-- Every owed step lowers the work. -/
theorem work_step {s s' : State T S} {a : Action T S} (ha : Owed a) (h : step s a = some s') :
    work s' < work s := by
  simp only [step, Option.ite_none_left_eq_some] at h
  obtain ⟨-, h⟩ := h
  cases a with
  | post t str => exact ha.elim
  | postBack str => exact ha.elim
  | postOnMain str => exact ha.elim
  | send t =>
      obtain ⟨str, ht, rfl⟩ := act_send h
      have hload := load_update Place.weight s.background t (.waiting str)
      have hbool := Bool.toNat_le s.pending
      simp only [ht, Place.weight] at hload
      simp only [work, State.goto, Bool.toNat_true]
      omega
  | wait t =>
      obtain ⟨str, ht, -, rfl⟩ := act_wait h
      have hload := load_update Place.weight s.background t .idle
      simp only [ht, Place.weight] at hload
      simp only [work, State.goto]
      omega
  | deliver =>
      simp only [act, Option.ite_none_right_eq_some, Option.some.injEq] at h
      obtain ⟨⟨-, hpending⟩, rfl⟩ := h
      simp only [work, hpending, List.map_cons, List.sum_cons, Frame.weight, Bool.toNat_true,
        Bool.toNat_false]
      omega
  | read | call | finish =>
      simp only [act] at h
      split at h
      case h_2 => cases h
      case h_1 hstack =>
        simp only [Option.some.injEq] at h
        subst h
        simp only [work, hstack, List.map_cons, List.sum_cons, Frame.weight]
        omega

/-- **Messages are delivered one at a time.**  In every run whose posts meet the
condition, nothing is passed to JavaScript but what was posted, with its own
text, no post returns before its delivery, and the semaphore is not released
twice.  From every state reached the threads come to the end of what they have
started, and there each string was delivered exactly once and each poster has
returned. -/
theorem messages_delivered {s : State T S} (h : Reaches step OneAtATime start s) :
    Delivered s ∧ Settles step Owed AllDelivered s := by
  refine ⟨(inv_of_reaches h).delivered, h.settles ?_ work ?_ ?_⟩
  · intro s a ha
    cases a with
    | post t str => exact ha.elim
    | postBack str => exact ha.elim
    | postOnMain str => exact ha.elim
    | send t => trivial
    | wait t => trivial
    | deliver => trivial
    | read => trivial
    | call => trivial
    | finish => trivial
  · intro s a t ha ht
    exact work_step ha ht
  · intro t ht hrest
    exact allDelivered_of_atRest (inv_of_reaches ht) hrest

end Work

/-- Two posts of the v8 thread, the second from within the function, and then
posts of two other threads, one after the other. -/
theorem messages_delivered_in_turn :
    ∃ s : State Bool Nat, s.calls.length = 4 ∧ Delivered s ∧ Settles step Owed AllDelivered s := by
  refine ⟨_, ?_, messages_delivered (reaches_of_run
    [.postBack 1, .call, .postBack 2, .call, .finish, .finish, .post false 3, .send false,
      .deliver, .read, .call, .finish, .wait false, .post true 4, .send true, .deliver, .read,
      .call] rfl ?_)⟩
  · rfl
  · simp [Meets, step, act, OneAtATime, start, State.goto, interruptible, Function.update]

/-- **A message is replaced by the slot**: a page that posts through
`postMessageBackOnMain` on the v8 thread has the function called with what is in
the slot, here null, and not with its string. -/
theorem message_replaced :
    ¬ ∀ s : State Bool Nat, Reaches step (fun _ _ => True) start s →
      Delivered s ∧ Settles step Owed AllDelivered s := by
  intro hall
  obtain ⟨⟨-, hcalls, -⟩, -⟩ := hall _ (reaches_of_run_any [.postOnMain 1, .call] rfl)
  have hmem : (Poster.v8, (none : Option Nat)) ∈ [(Poster.v8, some 1)] :=
    hcalls.subset List.mem_cons_self
  simp at hmem

/-- **A message is lost**: of two posts at the same time the second overwrites
the slot, the two sends become one delivery, and one thread waits forever. -/
theorem message_overwritten :
    ∃ s : State Bool Nat, Reaches step (fun _ _ => True) start s ∧ AtRest step Owed s ∧
      s.calls = [(.background, some 2)] ∧ s.background false = .waiting 1 := by
  refine ⟨_, reaches_of_run_any [.post false 1, .post true 2, .send false, .send true, .deliver,
    .read, .call, .finish, .wait true] rfl, ?_, rfl, rfl⟩
  intro a ha
  cases a with
  | post t str => exact ha.elim
  | postBack str => exact ha.elim
  | postOnMain str => exact ha.elim
  | send t => cases t <;> rfl
  | wait t => cases t <;> rfl
  | deliver => rfl
  | read => rfl
  | call => rfl
  | finish => rfl

/-- **A poster is let go early**: the slot is never cleared, so after the first
post of another thread each post of the v8 thread releases the semaphore, and
the next thread that posts returns before its string was passed on. -/
theorem returned_early :
    ∃ s : State Bool Nat, Reaches step (fun _ _ => True) start s ∧
      (Poster.background, some 3) ∈ s.returned ∧ (Poster.background, some 3) ∉ s.calls := by
  refine ⟨_, reaches_of_run_any [.post false 1, .send false, .deliver, .read, .call, .finish,
    .wait false, .postBack 2, .call, .finish, .post true 3, .send true, .wait true] rfl, ?_, ?_⟩
  · decide
  · decide

end ScriptInterface

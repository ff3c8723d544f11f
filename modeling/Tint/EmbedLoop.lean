import Tint.Transition
import Mathlib.Algebra.Order.Ring.Nat
import Mathlib.Data.List.Range

/-!
# The macOS and GTK event-loop handshake

`uv_event` (the watcher thread) polls libuv's backend, posts a block to the GUI
thread (a block of the main queue, an idle source) and waits on `embed_sem`.
The block runs libuv once and posts the semaphore.  When the application
terminates, the GUI thread sets `embed_closed`, runs libuv directly if it is
still alive, and leaves the process.

The blocks are numbered by the iterations of the watcher that posted them.

* `handshake_kept` -- in every interleaving at most one block is outstanding,
  the semaphore is 0 or 1, no block runs libuv while its backend is polled, and
  each iteration leads to one run of its own block -- unless the process is left
  before;
* `iteration_cut_off` -- termination does not wait for an outstanding block.
-/

namespace EmbedLoop

open Transition

/-- Where termination may start: on macOS within any code of the GUI thread, on
GTK when the main loop has ended. -/
inductive Platform
  | mac
  | gtk
  deriving DecidableEq

/-- The program points of `uv_event`, with the number of the iteration. -/
inductive Watcher
  /-- about to test `embed_closed` -/
  | top
  /-- in `kevent` or `epoll_wait`, or before it -/
  | polling (n : Nat)
  /-- about to post the block -/
  | polled (n : Nat)
  /-- in `uv_sem_wait` -/
  | waiting
  | ended
  deriving DecidableEq

/-- The program points of the posted block. -/
inductive Block
  /-- before `uv_run` -/
  | entered
  /-- in `uv_run` -/
  | running
  /-- behind it, about to post the semaphore -/
  | returned
  deriving DecidableEq

/-- An activation on the GUI thread's stack. -/
inductive Frame
  | block (n : Nat) (place : Block)
  /-- termination, `embed_closed` is set -/
  | closing
  /-- termination, in `uv_run` -/
  | direct
  /-- termination, behind it -/
  | leaving
  deriving DecidableEq

/-- `queue` holds the posted blocks that were not taken, `gui` the GUI thread's
stack with the innermost activation first.  `iterations` counts the iterations
that were begun, and `runs` records the blocks that ran libuv. -/
structure State where
  watcher : Watcher
  queue : List Nat
  gui : List Frame
  sem : Nat
  closed : Bool
  exited : Bool
  iterations : Nat
  runs : List Nat
  deriving DecidableEq

/-- The semaphore is initialised and the watcher created. -/
def start : State where
  watcher := .top
  queue := []
  gui := []
  sem := 0
  closed := false
  exited := false
  iterations := 0
  runs := []

/-- The steps of the two threads. -/
inductive Action
  /-- the loop goes on -/
  | begin
  /-- the loop ends -/
  | leave
  /-- `kevent` or `epoll_wait` returns -/
  | pollReturns
  | post
  | wait
  /-- the GUI thread takes a block -/
  | take
  /-- the block calls `uv_run` -/
  | run
  /-- `uv_run` returns to the block -/
  | runReturns
  /-- the block posts the semaphore -/
  | release
  | terminate
  /-- termination calls `uv_run` -/
  | runDirect
  /-- termination finds the loop dead -/
  | skipDirect
  | directReturns
  /-- termination leaves the process -/
  | exit
  /-- JavaScript code leaves the process -/
  | processExit

/-- An iteration, termination and leaving the process come from outside;
everything else has to happen once it is due. -/
def Owed : Action → Prop
  | .begin => False
  | .terminate => False
  | .processExit => False
  | _ => True

/-- Termination may start. -/
def mayTerminate (platform : Platform) (gui : List Frame) : Bool :=
  match platform with
  | .mac => true
  | .gtk => gui.isEmpty

/-- What a thread does next.  Any activation runs JavaScript or a nested loop at
some point, so blocks may be taken on top of each of them. -/
def act (platform : Platform) (s : State) : Action → Option State
  | .begin =>
      if s.watcher = .top ∧ !s.closed then
        some { s with watcher := .polling s.iterations, iterations := s.iterations + 1 }
      else none
  | .leave => if s.watcher = .top ∧ s.closed then some { s with watcher := .ended } else none
  | .pollReturns =>
      match s.watcher with
      | .polling n => some { s with watcher := .polled n }
      | _ => none
  | .post =>
      match s.watcher with
      | .polled n => some { s with watcher := .waiting, queue := s.queue ++ [n] }
      | _ => none
  | .wait =>
      if s.watcher = .waiting ∧ 0 < s.sem then some { s with watcher := .top, sem := s.sem - 1 }
      else none
  | .take =>
      match s.queue with
      | n :: queue => some { s with queue := queue, gui := .block n .entered :: s.gui }
      | [] => none
  | .run =>
      match s.gui with
      | .block n .entered :: gui =>
          some { s with gui := .block n .running :: gui, runs := s.runs ++ [n] }
      | _ => none
  | .runReturns =>
      match s.gui with
      | .block n .running :: gui => some { s with gui := .block n .returned :: gui }
      | _ => none
  | .release =>
      match s.gui with
      | .block _ .returned :: gui => some { s with gui := gui, sem := s.sem + 1 }
      | _ => none
  | .terminate =>
      if mayTerminate platform s.gui then some { s with closed := true, gui := .closing :: s.gui }
      else none
  | .runDirect =>
      match s.gui with
      | .closing :: gui => some { s with gui := .direct :: gui }
      | _ => none
  | .skipDirect =>
      match s.gui with
      | .closing :: gui => some { s with gui := .leaving :: gui }
      | _ => none
  | .directReturns =>
      match s.gui with
      | .direct :: gui => some { s with gui := .leaving :: gui }
      | _ => none
  | .exit =>
      match s.gui with
      | .leaving :: gui => some { s with gui := gui, exited := true }
      | _ => none
  | .processExit => if s.gui ≠ [] then some { s with exited := true } else none

/-- One step; nothing happens after the process is left. -/
def step (platform : Platform) (s : State) (a : Action) : Option State :=
  if s.exited then none else act platform s a

/-- The blocks on the GUI thread's stack. -/
def blocks : List Frame → List (Nat × Block)
  | [] => []
  | .block n place :: gui => (n, place) :: blocks gui
  | _ :: gui => blocks gui

/-- **The handshake.** -/
structure Handshake (s : State) : Prop where
  /-- At most one block is posted or being executed. -/
  one_outstanding : s.queue.length + (blocks s.gui).length ≤ 1
  sem_le : s.sem ≤ 1
  /-- No block is in `uv_run` while the watcher polls. -/
  apart : ∀ n, (n, .running) ∈ blocks s.gui → ∀ m, s.watcher ≠ .polling m
  /-- Each iteration runs libuv through its block at most once, in their order. -/
  once : ∃ k, s.runs = List.range k ∧ k ≤ s.iterations ∧ s.iterations ≤ k + 1
  /-- No iteration ends before that. -/
  served : s.watcher = .top ∨ s.watcher = .ended → s.runs = List.range s.iterations

/-- Every iteration led to one run, and nothing is left of it. -/
def AllServed (s : State) : Prop :=
  s.runs = List.range s.iterations ∧ s.queue = [] ∧ blocks s.gui = [] ∧ s.sem = 0

/-! ## The invariant -/

/-- How far the iteration is. -/
inductive Phase
  | top
  | ended
  | polling
  | polled
  | queued
  | block (place : Block)
  | released

/-- Where the watcher is. -/
def Phase.watcher (n : Nat) : Phase → Watcher
  | .top => .top
  | .ended => .ended
  | .polling => .polling n
  | .polled => .polled n
  | _ => .waiting

/-- The block in the queue. -/
def Phase.queue (n : Nat) : Phase → List Nat
  | .queued => [n]
  | _ => []

/-- The block on the stack. -/
def Phase.blocks (n : Nat) : Phase → List (Nat × Block)
  | .block place => [(n, place)]
  | _ => []

/-- The count of the semaphore. -/
def Phase.sem : Phase → Nat
  | .released => 1
  | _ => 0

/-- Whether iteration `n` was begun. -/
def Phase.begun : Phase → Nat
  | .top => 0
  | .ended => 0
  | _ => 1

/-- Whether its block ran libuv. -/
def Phase.ran : Phase → Nat
  | .block .running => 1
  | .block .returned => 1
  | .released => 1
  | _ => 0

/-- Iteration `n` is in this phase, and all before it are over. -/
structure At (s : State) (n : Nat) (phase : Phase) : Prop where
  watcher : s.watcher = phase.watcher n
  queue : s.queue = phase.queue n
  blocks : blocks s.gui = phase.blocks n
  sem : s.sem = phase.sem
  iterations : s.iterations = n + phase.begun
  runs : s.runs = List.range (n + phase.ran)

/-- A watcher that tests `embed_closed` is between two iterations. -/
theorem At.of_top {s : State} {n : Nat} {phase : Phase} (h : At s n phase)
    (hw : s.watcher = .top) : phase = .top := by
  have hwatcher := h.watcher
  rw [hw] at hwatcher
  cases phase <;> first | rfl | cases hwatcher

/-- The semaphore counts the block that has come back. -/
theorem At.of_sem {s : State} {n : Nat} {phase : Phase} (h : At s n phase)
    (hsem : 0 < s.sem) : phase = .released := by
  have hcount := h.sem
  cases phase <;> first | rfl | (simp only [Phase.sem] at hcount; omega)

/-- A block on top of the stack is the one of the iteration. -/
theorem At.of_block {s : State} {n m : Nat} {phase : Phase} {place : Block} {gui : List Frame}
    (h : At s n phase) (hgui : s.gui = .block m place :: gui) :
    m = n ∧ phase = .block place ∧ EmbedLoop.blocks gui = [] := by
  have hblocks := h.blocks
  rw [hgui, EmbedLoop.blocks] at hblocks
  cases phase <;> simp only [Phase.blocks, List.cons.injEq, reduceCtorEq, Prod.mk.injEq] at hblocks
  obtain ⟨⟨rfl, rfl⟩, hrest⟩ := hblocks
  exact ⟨rfl, rfl, hrest⟩

/-- A step of the GUI thread that concerns no block. -/
theorem At.gui {s : State} {n : Nat} {phase : Phase} (h : At s n phase) (gui : List Frame)
    (hgui : EmbedLoop.blocks gui = EmbedLoop.blocks s.gui) (closed exited : Bool) :
    At { s with gui := gui, closed := closed, exited := exited } n phase where
  watcher := h.watcher
  queue := h.queue
  blocks := hgui.trans h.blocks
  sem := h.sem
  iterations := h.iterations
  runs := h.runs

/-! ### What each step does -/

theorem act_pollReturns {platform : Platform} {s s' : State}
    (h : act platform s .pollReturns = some s') :
    ∃ n, s.watcher = .polling n ∧ s' = { s with watcher := .polled n } := by
  simp only [act] at h
  split at h
  case h_1 n hw => exact ⟨n, hw, (Option.some.inj h).symm⟩
  case h_2 => cases h

theorem act_post {platform : Platform} {s s' : State} (h : act platform s .post = some s') :
    ∃ n, s.watcher = .polled n ∧
      s' = { s with watcher := .waiting, queue := s.queue ++ [n] } := by
  simp only [act] at h
  split at h
  case h_1 n hw => exact ⟨n, hw, (Option.some.inj h).symm⟩
  case h_2 => cases h

theorem act_take {platform : Platform} {s s' : State} (h : act platform s .take = some s') :
    ∃ n queue, s.queue = n :: queue ∧
      s' = { s with queue := queue, gui := .block n .entered :: s.gui } := by
  simp only [act] at h
  split at h
  case h_1 n queue hq => exact ⟨n, queue, hq, (Option.some.inj h).symm⟩
  case h_2 => cases h

theorem act_run {platform : Platform} {s s' : State} (h : act platform s .run = some s') :
    ∃ n gui, s.gui = .block n .entered :: gui ∧
      s' = { s with gui := .block n .running :: gui, runs := s.runs ++ [n] } := by
  simp only [act] at h
  split at h
  case h_1 n gui hgui => exact ⟨n, gui, hgui, (Option.some.inj h).symm⟩
  case h_2 => cases h

theorem act_runReturns {platform : Platform} {s s' : State}
    (h : act platform s .runReturns = some s') :
    ∃ n gui, s.gui = .block n .running :: gui ∧
      s' = { s with gui := .block n .returned :: gui } := by
  simp only [act] at h
  split at h
  case h_1 n gui hgui => exact ⟨n, gui, hgui, (Option.some.inj h).symm⟩
  case h_2 => cases h

theorem act_release {platform : Platform} {s s' : State}
    (h : act platform s .release = some s') :
    ∃ n gui, s.gui = .block n .returned :: gui ∧ s' = { s with gui := gui, sem := s.sem + 1 } := by
  simp only [act] at h
  split at h
  case h_1 n gui hgui => exact ⟨n, gui, hgui, (Option.some.inj h).symm⟩
  case h_2 => cases h

/-- **One step leads from phase to phase.** -/
theorem at_step {platform : Platform} {s s' : State} {a : Action} {n : Nat} {phase : Phase}
    (h : At s n phase) (hstep : step platform s a = some s') : ∃ n' phase', At s' n' phase' := by
  simp only [step, Option.ite_none_left_eq_some] at hstep
  obtain ⟨-, hstep⟩ := hstep
  cases a with
  | begin =>
      simp only [act, Option.ite_none_right_eq_some, Option.some.injEq] at hstep
      obtain ⟨⟨hw, -⟩, rfl⟩ := hstep
      obtain rfl := h.of_top hw
      have hiter : s.iterations = n := h.iterations
      refine ⟨n, .polling, ?_, h.queue, h.blocks, h.sem, ?_, h.runs⟩
      · rw [hiter, Phase.watcher]
      · rw [hiter]
        rfl
  | leave =>
      simp only [act, Option.ite_none_right_eq_some, Option.some.injEq] at hstep
      obtain ⟨⟨hw, -⟩, rfl⟩ := hstep
      obtain rfl := h.of_top hw
      exact ⟨n, .ended, rfl, h.queue, h.blocks, h.sem, h.iterations, h.runs⟩
  | pollReturns =>
      obtain ⟨m, hw, rfl⟩ := act_pollReturns hstep
      have hwatcher := h.watcher
      rw [hw] at hwatcher
      cases phase <;> cases hwatcher
      exact ⟨n, .polled, rfl, h.queue, h.blocks, h.sem, h.iterations, h.runs⟩
  | post =>
      obtain ⟨m, hw, rfl⟩ := act_post hstep
      have hwatcher := h.watcher
      rw [hw] at hwatcher
      cases phase <;> cases hwatcher
      have hqueue : s.queue = [] := h.queue
      refine ⟨n, .queued, rfl, ?_, h.blocks, h.sem, h.iterations, h.runs⟩
      rw [hqueue, List.nil_append, Phase.queue]
  | wait =>
      simp only [act, Option.ite_none_right_eq_some, Option.some.injEq] at hstep
      obtain ⟨⟨-, hpos⟩, rfl⟩ := hstep
      obtain rfl := h.of_sem hpos
      have hsem : s.sem = 1 := h.sem
      refine ⟨n + 1, .top, rfl, h.queue, h.blocks, ?_, h.iterations, h.runs⟩
      rw [hsem]
      rfl
  | take =>
      obtain ⟨m, queue, hq, rfl⟩ := act_take hstep
      have hqueue := h.queue
      rw [hq] at hqueue
      cases phase <;> cases hqueue
      have hblocks : blocks s.gui = [] := h.blocks
      refine ⟨n, .block .entered, h.watcher, rfl, ?_, h.sem, h.iterations, h.runs⟩
      rw [blocks, hblocks, Phase.blocks]
  | run =>
      obtain ⟨m, gui, hgui, rfl⟩ := act_run hstep
      obtain ⟨rfl, rfl, hrest⟩ := h.of_block hgui
      have hruns : s.runs = List.range m := h.runs
      refine ⟨m, .block .running, h.watcher, h.queue, ?_, h.sem, h.iterations, ?_⟩
      · rw [blocks, hrest, Phase.blocks]
      · rw [hruns, Phase.ran, List.range_succ]
  | runReturns =>
      obtain ⟨m, gui, hgui, rfl⟩ := act_runReturns hstep
      obtain ⟨rfl, rfl, hrest⟩ := h.of_block hgui
      refine ⟨m, .block .returned, h.watcher, h.queue, ?_, h.sem, h.iterations, h.runs⟩
      rw [blocks, hrest, Phase.blocks]
  | release =>
      obtain ⟨m, gui, hgui, rfl⟩ := act_release hstep
      obtain ⟨rfl, rfl, hrest⟩ := h.of_block hgui
      have hsem : s.sem = 0 := h.sem
      refine ⟨m, .released, h.watcher, h.queue, hrest, ?_, h.iterations, h.runs⟩
      rw [hsem, Phase.sem]
  | terminate =>
      simp only [act, Option.ite_none_right_eq_some, Option.some.injEq] at hstep
      obtain ⟨-, rfl⟩ := hstep
      exact ⟨n, phase, h.gui (.closing :: s.gui) rfl true s.exited⟩
  | runDirect | skipDirect | directReturns =>
      simp only [act] at hstep
      split at hstep
      case h_2 => cases hstep
      case h_1 gui hgui =>
        simp only [Option.some.injEq] at hstep
        subst hstep
        exact ⟨n, phase, h.gui _ (by rw [hgui]; rfl) s.closed s.exited⟩
  | exit =>
      simp only [act] at hstep
      split at hstep
      case h_2 => cases hstep
      case h_1 gui hgui =>
        simp only [Option.some.injEq] at hstep
        subst hstep
        exact ⟨n, phase, h.gui _ (by rw [hgui]; rfl) s.closed true⟩
  | processExit =>
      simp only [act, Option.ite_none_right_eq_some, Option.some.injEq] at hstep
      obtain ⟨-, rfl⟩ := hstep
      exact ⟨n, phase, h.gui s.gui rfl s.closed true⟩

/-- Every state of a run is in one of the phases. -/
theorem at_of_reaches {platform : Platform} {s : State}
    (h : Reaches (step platform) (fun _ _ => True) start s) : ∃ n phase, At s n phase := by
  refine h.invariant (fun s => ∃ n phase, At s n phase) ⟨0, .top, rfl, rfl, rfl, rfl, rfl, rfl⟩ ?_
  intro s a t hs _ hstep
  obtain ⟨n, phase, hat⟩ := hs
  exact at_step hat hstep

/-- The handshake holds in each phase. -/
theorem At.handshake {s : State} {n : Nat} {phase : Phase} (h : At s n phase) : Handshake s where
  one_outstanding := by
    rw [h.queue, h.blocks]
    cases phase <;> simp [Phase.queue, Phase.blocks]
  sem_le := by
    rw [h.sem]
    cases phase <;> simp [Phase.sem]
  apart := by
    intro m hm k
    rw [h.blocks] at hm
    rw [h.watcher]
    cases phase <;> simp [Phase.blocks] at hm
    exact Watcher.noConfusion
  once := by
    refine ⟨n + phase.ran, h.runs, ?_, ?_⟩
    · rw [h.iterations]
      cases phase with
      | block place => cases place <;> simp [Phase.ran, Phase.begun]
      | _ => simp [Phase.ran, Phase.begun]
    · rw [h.iterations]
      cases phase <;> simp only [Phase.begun] <;> omega
  served := by
    intro hw
    rw [h.watcher] at hw
    rw [h.runs, h.iterations]
    cases phase <;> simp [Phase.watcher] at hw <;> rfl

/-! ## What comes to rest -/

/-- The steps the watcher still takes, with those it causes. -/
def Watcher.weight : Watcher → Nat
  | .top => 1
  | .polling _ => 8
  | .polled _ => 7
  | .waiting => 2
  | .ended => 0

/-- The steps an activation still takes. -/
def Frame.weight : Frame → Nat
  | .block _ .entered => 3
  | .block _ .running => 2
  | .block _ .returned => 1
  | .closing => 3
  | .direct => 2
  | .leaving => 1

/-- All the work that is left. -/
def work (s : State) : Nat :=
  s.watcher.weight + 4 * s.queue.length + (s.gui.map Frame.weight).sum

/-- Every owed step lowers the work. -/
theorem work_step {platform : Platform} {s s' : State} {a : Action} (ha : Owed a)
    (h : step platform s a = some s') : work s' < work s := by
  simp only [step, Option.ite_none_left_eq_some] at h
  obtain ⟨-, h⟩ := h
  cases a with
  | begin => exact ha.elim
  | terminate => exact ha.elim
  | processExit => exact ha.elim
  | leave =>
      simp only [act, Option.ite_none_right_eq_some, Option.some.injEq] at h
      obtain ⟨⟨hw, -⟩, rfl⟩ := h
      simp only [work, hw, Watcher.weight]
      omega
  | wait =>
      simp only [act, Option.ite_none_right_eq_some, Option.some.injEq] at h
      obtain ⟨⟨hw, -⟩, rfl⟩ := h
      simp only [work, hw, Watcher.weight]
      omega
  | pollReturns =>
      obtain ⟨n, hw, rfl⟩ := act_pollReturns h
      simp only [work, hw, Watcher.weight]
      omega
  | post =>
      obtain ⟨n, hw, rfl⟩ := act_post h
      simp only [work, hw, Watcher.weight, List.length_append, List.length_singleton]
      omega
  | take =>
      obtain ⟨n, queue, hq, rfl⟩ := act_take h
      simp only [work, hq, List.length_cons, List.map_cons, List.sum_cons, Frame.weight]
      omega
  | run | runReturns | release | runDirect | skipDirect | directReturns | exit =>
      simp only [act] at h
      split at h
      case h_2 => cases h
      case h_1 hgui =>
        simp only [Option.some.injEq] at h
        subst h
        simp only [work, hgui, List.map_cons, List.sum_cons, Frame.weight]
        omega

/-- A stack that is not empty has a next step, as long as the process runs. -/
theorem gui_of_atRest {platform : Platform} {s : State} (hexited : s.exited = false)
    (hrest : AtRest (step platform) Owed s) : s.gui = [] := by
  cases hgui : s.gui with
  | nil => rfl
  | cons f gui =>
      cases f with
      | block n place =>
          cases place with
          | entered => simpa [step, act, hexited, hgui] using hrest .run trivial
          | running => simpa [step, act, hexited, hgui] using hrest .runReturns trivial
          | returned => simpa [step, act, hexited, hgui] using hrest .release trivial
      | closing => simpa [step, act, hexited, hgui] using hrest .runDirect trivial
      | direct => simpa [step, act, hexited, hgui] using hrest .directReturns trivial
      | leaving => simpa [step, act, hexited, hgui] using hrest .exit trivial

/-- At rest every iteration was served, as long as the process runs. -/
theorem At.allServed {platform : Platform} {s : State} {n : Nat} {phase : Phase}
    (h : At s n phase) (hexited : s.exited = false) (hrest : AtRest (step platform) Owed s) :
    AllServed s := by
  have hgui := gui_of_atRest hexited hrest
  have hblocks := h.blocks
  rw [hgui] at hblocks
  have hwatcher := h.watcher
  have hqueue := h.queue
  have hsem := h.sem
  cases phase with
  | top =>
      refine ⟨?_, hqueue, by rw [hgui]; rfl, hsem⟩
      rw [h.runs, h.iterations]
      rfl
  | ended =>
      refine ⟨?_, hqueue, by rw [hgui]; rfl, hsem⟩
      rw [h.runs, h.iterations]
      rfl
  | polling =>
      simpa [step, act, hexited, hwatcher, Phase.watcher] using hrest .pollReturns trivial
  | polled => simpa [step, act, hexited, hwatcher, Phase.watcher] using hrest .post trivial
  | queued => simpa [step, act, hexited, hqueue, Phase.queue] using hrest .take trivial
  | block place => cases hblocks
  | released =>
      simpa [step, act, hexited, hwatcher, hsem, Phase.watcher, Phase.sem] using hrest .wait trivial

/-- **The handshake is kept.**  In every state of every interleaving at most one
block is outstanding, the semaphore is 0 or 1, no block runs libuv while the
watcher polls, and each iteration has led to at most one run, before it ended.
From each of these states the two threads come to the end of what they have
started, and then each iteration has led to exactly one run -- or the process
was left before. -/
theorem handshake_kept {platform : Platform} {s : State}
    (h : Reaches (step platform) (fun _ _ => True) start s) :
    Handshake s ∧
      Settles (step platform) Owed (fun t => t.exited = true ∨ AllServed t) s := by
  obtain ⟨n, phase, hat⟩ := at_of_reaches h
  refine ⟨hat.handshake, h.settles (fun _ _ _ => trivial) work ?_ ?_⟩
  · intro s a t ha hstep
    exact work_step ha hstep
  · intro t ht hrest
    cases hexited : t.exited with
    | true => exact .inl rfl
    | false =>
        obtain ⟨m, phase', hat'⟩ := at_of_reaches ht
        exact .inr (hat'.allServed hexited hrest)

/-- Two iterations, and termination within the block of the second. -/
theorem handshake_kept_terminated :
    ∃ s : State, s.runs = [0, 1] ∧ Handshake s ∧
      Settles (step .mac) Owed (fun t => t.exited = true ∨ AllServed t) s := by
  refine ⟨_, ?_, handshake_kept (reaches_of_run_any
    [.begin, .pollReturns, .post, .take, .run, .runReturns, .release, .wait, .begin, .pollReturns,
      .post, .take, .run, .terminate, .runDirect] rfl)⟩
  rfl

/-- **An iteration is cut off.**  The watcher has posted its block when the
application terminates; the GUI thread runs libuv directly and leaves the
process, and the block never runs. -/
theorem iteration_cut_off :
    ¬ ∀ (platform : Platform) (s : State),
      Reaches (step platform) (fun _ _ => True) start s →
        Handshake s ∧ Settles (step platform) Owed AllServed s := by
  intro hall
  obtain ⟨-, hsettles⟩ := hall .gtk _ (reaches_of_run_any
    [.begin, .pollReturns, .post, .terminate, .runDirect, .directReturns, .exit] rfl)
  have hdone := hsettles.done_at_rest [] _ (by simp) rfl ?_
  · cases hdone.1
  · intro a _
    rfl

end EmbedLoop

import Mathlib.Data.List.Basic
import Mathlib.Data.List.Infix
import Mathlib.Logic.Function.Basic
import Tint.Transition

/-!
# Building an application

A build is a queue of tasks.  `play` takes the first one out and sets a timer for it; a task
that is done calls `tick`, which does the same with the next one, and a task that throws
calls `onError` and leaves it at that.  The tasks of `prepobj` copy a source file to the
output when the output is missing or older.  Preparing reports an error where it throws, and
the stream that parses the icon reports one if the icon has the wrong size, and goes on.

The files of the sources and those of the outputs are different ones.  What the caller gives for
`onProgress`, `onSuccess` and `onError` returns, and does nothing to the builder.  A script that
could be mangled is not copied as it is because the mangled text cannot be written.

* `in_order` -- the tasks run in the order they were prepared in, each once;
* `stop_lets_go` -- after `stop`, only what a timer was set for still runs, and the report;
* `reported_once` -- but for these errors, a build that is played once reports at most once;
* `built` -- and when it reports success, every output is what its source comes to, in any
  history of builds with one configuration in which a source that changes is newer than its
  output.
-/

namespace BuildQueue

open Transition

/-- What a file has in it. -/
abbrev Data := List UInt8

/-- A file: its data and its time. -/
structure File where
  data : Data
  mtime : Nat
  deriving DecidableEq

/-- What is built, and how: which sources are scripts, and what `UglifyJS` makes of one, which is
the same each time. -/
structure Config where
  obfuscate : Bool
  isScript : Nat → Bool
  mangle : Data → Data

/-- What the output of a file has. -/
def Config.shipped (c : Config) (f : Nat) (data : Data) : Data :=
  if c.obfuscate && c.isScript f then c.mangle data else data

/-- A function on the stack of tasks. -/
inductive Task
  /-- `$tint.remove(b.absout)` -/
  | clean (f : Nat)
  /-- `$tint.exists(e.absin,true,…)` -/
  | check (f : Nat)
  /-- Copies the file when the output is missing or older. -/
  | prepare (f : Nat)
  /-- A task that leaves sources and outputs alone. -/
  | other (id : Nat)
  /-- `onSuccess` -/
  | success
  /-- `onError('build was stopped.')` -/
  | stopped
  deriving DecidableEq

/-- What the caller of the build hears. -/
inductive Report
  | error
  | stopped
  | success
  deriving DecidableEq

/-- The clock, the sources and the outputs. -/
structure Files where
  clock : Nat
  src : Nat → Option File
  out : Nat → Option File

/-- The queue, the timers in the order they go off, and the tasks that wait for a stream; what ran
and what was reported; the files. -/
structure State where
  tasks : List Task
  timers : List Task
  waiting : Nat
  ran : List Task
  reports : List Report
  files : Files

/-- How a task goes: it throws, with something left of the output, or waits for a stream. -/
inductive Result
  | ok
  | throws (left : Option Data)
  | waits
  deriving DecidableEq

/-- How a task ends. -/
inductive Ending
  | ticks
  | reports (r : Report)
  | waits

/-- What may happen. -/
inductive Action
  | reset
  | prep (tasks : List Task)
  /-- `prepclean` and the others call `onError` where they throw, before there is any task. -/
  | prepError
  | play
  | stop
  /-- The first timer goes off. -/
  | fire (result : Result)
  /-- A stream comes to its end, or fails. -/
  | settle (ok : Bool)
  /-- A stream reports an error and goes on, as `parsepng` does for the size of the icon. -/
  | streamError
  | edit (f : Nat) (file : Option File)
  | wait (time : Nat)
  deriving DecidableEq

namespace Files

/-- An output is there, or gone. -/
def setOut (s : Files) (f : Nat) (file : Option File) : Files :=
  { s with out := Function.update s.out f file }

/-- `fout === null || fin.mtime.getTime() > fout.mtime.getTime()` -/
def outdated (i : File) : Option File → Bool
  | none => true
  | some o => o.mtime < i.mtime

/-- What a task does with the files. -/
def perform (c : Config) (s : Files) : Task → Result → Files × Ending
  | .success, _ => (s, .reports .success)
  | .stopped, _ => (s, .reports .stopped)
  | .clean f, .ok => (s.setOut f none, .ticks)
  | .check f, .ok => (s, if (s.src f).isSome then .ticks else .reports .error)
  | .prepare f, .ok =>
    match s.src f with
    | none => (s, .reports .error)
    | some i =>
      (if outdated i (s.out f) then s.setOut f (some ⟨c.shipped f i.data, s.clock⟩) else s, .ticks)
  | .prepare f, .throws left => (s.setOut f (left.map (⟨·, s.clock⟩)), .reports .error)
  | .other _, .ok => (s, .ticks)
  | .other _, .waits => (s, .waits)
  | _, _ => (s, .reports .error)

end Files

namespace State

/-- `tick` -/
def tick (s : State) : State :=
  match s.tasks with
  | [] => s
  | task :: tasks => { s with tasks := tasks, timers := s.timers ++ [task] }

/-- A task comes to its end. -/
def finish (s : State) : Ending → State
  | .ticks => s.tick
  | .reports r => { s with reports := s.reports ++ [r] }
  | .waits => { s with waiting := s.waiting + 1 }

/-- One step. -/
def step (c : Config) (s : State) : Action → Option State
  | .reset => some { s with tasks := [] }
  | .prep tasks => some { s with tasks := s.tasks ++ tasks }
  | .prepError => some { s with reports := s.reports ++ [.error] }
  | .play => some s.tick
  | .stop => some { s with tasks := [.stopped] }
  | .fire result =>
    match s.timers with
    | [] => none
    | task :: timers =>
      let (files, ending) := s.files.perform c task result
      some (State.finish { s with timers := timers, ran := s.ran ++ [task], files := files } ending)
  | .settle ok =>
    match s.waiting with
    | 0 => none
    | waiting + 1 =>
      some (({ s with waiting := waiting } : State).finish (if ok then .ticks else .reports .error))
  | .streamError =>
    match s.waiting with
    | 0 => none
    | _ + 1 => some { s with reports := s.reports ++ [.error] }
  | .edit f file => some { s with files.src := Function.update s.files.src f file }
  | .wait time => some { s with files.clock := s.files.clock + time }

/-- The tasks that are running: each goes on with one more. -/
def chains (s : State) : Nat := s.timers.length + s.waiting

end State

variable {c : Config} {s t u : State} {a : Action} {task : Task} {f : Nat} {ending : Ending}

/-! ## The order of the tasks -/

/-- The next task is put on the timers, if there is one. -/
theorem tick_cases (s : State) :
    (s.tasks = [] ∧ s.tick = s) ∨
      ∃ task tasks, s.tasks = task :: tasks ∧
        s.tick = { s with tasks := tasks, timers := s.timers ++ [task] } := by
  unfold State.tick
  split
  · exact .inl ⟨‹_›, rfl⟩
  · exact .inr ⟨_, _, ‹_›, rfl⟩

@[simp] theorem tick_reports (s : State) : s.tick.reports = s.reports := by
  rcases tick_cases s with ⟨-, h⟩ | ⟨_, _, -, h⟩ <;> rw [h]

/-- **What a step does**: it changes the queue, ticks, ends a task that ran or a task that waited,
changes the files, or reports an error. -/
theorem step_cases (h : s.step c a = some t) :
    (∃ tasks, t = { s with tasks := tasks } ∧
      (a = .reset ∨ a = .stop ∧ tasks = [.stopped] ∨ ∃ more, a = .prep more ∧
        tasks = s.tasks ++ more)) ∨
    (a = .play ∧ t = s.tick) ∨
    (∃ result task timers, a = .fire result ∧ s.timers = task :: timers ∧
      t = State.finish { s with timers := timers, ran := s.ran ++ [task],
                                files := (s.files.perform c task result).1 }
        (s.files.perform c task result).2) ∨
    (∃ ok waiting, a = .settle ok ∧ s.waiting = waiting + 1 ∧
      t = State.finish { s with waiting := waiting } (if ok then .ticks else .reports .error)) ∨
    (∃ files, t = { s with files := files } ∧
      ((∃ f file, a = .edit f file ∧ files =
        { s.files with src := Function.update s.files.src f file }) ∨
        ∃ time, a = .wait time ∧ files = { s.files with clock := s.files.clock + time })) ∨
    (t = { s with reports := s.reports ++ [.error] } ∧ (a = .prepError ∨ a = .streamError)) := by
  cases a with
  | reset =>
    cases h
    exact .inl ⟨[], rfl, .inl rfl⟩
  | prep more =>
    cases h
    exact .inl ⟨_, rfl, .inr (.inr ⟨more, rfl, rfl⟩)⟩
  | play =>
    cases h
    exact .inr (.inl ⟨rfl, rfl⟩)
  | stop =>
    cases h
    exact .inl ⟨_, rfl, .inr (.inl ⟨rfl, rfl⟩)⟩
  | fire result =>
    simp only [State.step] at h
    split at h
    · cases h
    · cases h
      exact .inr (.inr (.inl ⟨result, _, _, rfl, ‹_›, rfl⟩))
  | settle ok =>
    simp only [State.step] at h
    split at h
    · cases h
    · cases h
      exact .inr (.inr (.inr (.inl ⟨ok, _, rfl, ‹_›, rfl⟩)))
  | edit f file =>
    cases h
    exact .inr (.inr (.inr (.inr (.inl ⟨_, rfl, .inl ⟨f, file, rfl, rfl⟩⟩))))
  | wait time =>
    cases h
    exact .inr (.inr (.inr (.inr (.inl ⟨_, rfl, .inr ⟨time, rfl, rfl⟩⟩))))
  | prepError =>
    cases h
    exact .inr (.inr (.inr (.inr (.inr ⟨rfl, .inl rfl⟩))))
  | streamError =>
    simp only [State.step] at h
    split at h
    · cases h
    · cases h
      exact .inr (.inr (.inr (.inr (.inr ⟨rfl, .inr rfl⟩))))

/-- The queue after a task: what is in it and in the timers stays, in this order. -/
theorem finish_moves (s : State) (ending : Ending) :
    (s.finish ending).timers ++ (s.finish ending).tasks = s.timers ++ s.tasks ∧
      (s.finish ending).ran = s.ran ∧ (s.finish ending).files = s.files ∧
        s.timers <+: (s.finish ending).timers := by
  cases ending with
  | ticks =>
    show s.tick.timers ++ s.tick.tasks = _ ∧ s.tick.ran = _ ∧ s.tick.files = _ ∧ _ <+: s.tick.timers
    rcases tick_cases s with ⟨-, h⟩ | ⟨task, tasks, htasks, h⟩
    · rw [h]
      exact ⟨rfl, rfl, rfl, List.prefix_refl _⟩
    · rw [h, htasks]
      exact ⟨by simp, rfl, rfl, List.prefix_append _ _⟩
  | reports r => exact ⟨rfl, rfl, rfl, List.prefix_refl _⟩
  | waits => exact ⟨rfl, rfl, rfl, List.prefix_refl _⟩

/-- What the program prepares in a step. -/
def Action.prepared : Action → List Task
  | .prep tasks => tasks
  | _ => []

/-- Neither `reset` nor `stop`, which empty the queue. -/
def Keeps (a : Action) : Prop := a ≠ .reset ∧ a ≠ .stop

instance : DecidablePred Keeps := fun _ => inferInstanceAs (Decidable (_ ∧ _))

/-- Nothing was built yet. -/
def start (src : Nat → Option File) : State := ⟨[], [], 0, [], [], ⟨0, src, fun _ => none⟩⟩

/-- A build of one file as it is. -/
def plain : Config := ⟨false, fun _ => false, id⟩

/-- Where a run leads. -/
def State.after (s : State) (as : List Action) : State := (run (State.step plain) s as).getD s

/-- One source. -/
def oneFile : Nat → Option File := fun f => if f = 0 then some ⟨[1], 5⟩ else none

/-- One step moves the tasks along. -/
theorem step_in_order (h : s.step c a = some t) (hkeeps : Keeps a) :
    ∃ done, t.ran = s.ran ++ done ∧
      s.timers ++ s.tasks ++ a.prepared = done ++ (t.timers ++ t.tasks) := by
  obtain ⟨hreset, hstop⟩ := hkeeps
  rcases step_cases h with ⟨tasks, rfl, ha⟩ | ⟨rfl, rfl⟩ |
    ⟨result, task, timers, rfl, htimers, rfl⟩ | ⟨ok, waiting, rfl, -, rfl⟩ | ⟨files, rfl, ha⟩ |
    ⟨rfl, ha⟩
  · rcases ha with rfl | ⟨rfl, -⟩ | ⟨more, rfl, rfl⟩
    · exact absurd rfl hreset
    · exact absurd rfl hstop
    · exact ⟨[], by simp, by simp [Action.prepared]⟩
  · obtain ⟨hqueue, hran, -⟩ := finish_moves s .ticks
    have hnone : Action.prepared .play = [] := rfl
    rw [hnone, List.append_nil]
    exact ⟨[], by rw [List.append_nil]; exact hran, hqueue.symm⟩
  · obtain ⟨hqueue, hran, -⟩ := finish_moves
      { s with timers := timers, ran := s.ran ++ [task],
               files := (s.files.perform c task result).1 }
      (s.files.perform c task result).2
    refine ⟨[task], hran, ?_⟩
    rw [hqueue, htimers]
    simp [Action.prepared]
  · obtain ⟨hqueue, hran, -⟩ := finish_moves { s with waiting := waiting }
      (if ok then .ticks else .reports .error)
    refine ⟨[], by rw [List.append_nil]; exact hran, ?_⟩
    rw [hqueue]
    simp [Action.prepared]
  · rcases ha with ⟨f, file, rfl, -⟩ | ⟨time, rfl, -⟩ <;>
      exact ⟨[], by simp, by simp [Action.prepared]⟩
  · rcases ha with rfl | rfl <;>
      exact ⟨[], by simp, by simp [Action.prepared]⟩

/-- A run moves them along. -/
theorem run_in_order {as : List Action} (hrun : run (State.step c) s as = some t)
    (hkeeps : ∀ a ∈ as, Keeps a) :
    ∃ done, t.ran = s.ran ++ done ∧
      s.timers ++ s.tasks ++ as.flatMap Action.prepared = done ++ (t.timers ++ t.tasks) := by
  induction as generalizing s with
  | nil =>
    cases hrun
    exact ⟨[], by simp, by simp⟩
  | cons a as ih =>
    obtain ⟨u, hu, hrest⟩ := Option.bind_eq_some_iff.mp hrun
    obtain ⟨first, hran, hfirst⟩ := step_in_order hu (hkeeps a List.mem_cons_self)
    obtain ⟨done, hran', hdone⟩ := ih hrest fun b hb => hkeeps b (List.mem_cons_of_mem _ hb)
    refine ⟨first ++ done, by rw [hran', hran, List.append_assoc], ?_⟩
    rw [List.flatMap_cons, ← List.append_assoc, hfirst, List.append_assoc, hdone, List.append_assoc]

/-- **The tasks run in the order they were prepared in**, each once, whatever goes wrong and however
often the build is played: what ran, what a timer is set for and what is left in the queue are
together what was prepared. -/
theorem in_order {src : Nat → Option File} {as : List Action}
    (hrun : run (State.step c) (start src) as = some t) (hkeeps : ∀ a ∈ as, Keeps a) :
    t.ran ++ (t.timers ++ t.tasks) = as.flatMap Action.prepared := by
  obtain ⟨done, hran, hdone⟩ := run_in_order hrun hkeeps
  rw [hran]
  exact hdone.symm

/-- A build that is played twice. -/
def twoPlays : List Action :=
  [.prep [.check 0, .prepare 0], .play, .play, .fire .ok, .prep [.success], .fire .ok]

/-- Each task comes when it should. -/
theorem in_order_two_plays : ((start oneFile).after twoPlays).ran ++
      (((start oneFile).after twoPlays).timers ++ ((start oneFile).after twoPlays).tasks) =
    [.check 0, .prepare 0, .success] :=
  in_order (show run (State.step plain) (start oneFile) twoPlays =
    some ((start oneFile).after twoPlays) from rfl)
    (by decide)

/-- **After `stop`, only what a timer was set for still runs**, and then the report, however often
the build is played. -/
theorem stop_lets_go {as : List Action} (hrun : run (State.step c) s (.stop :: as) = some t)
    (hkeeps : ∀ a ∈ as, Keeps a) (hprep : ∀ a ∈ as, ∀ tasks, a ≠ .prep tasks) :
    ∃ done, t.ran = s.ran ++ done ∧ done <+: s.timers ++ [.stopped] := by
  obtain ⟨u, hu, hrest⟩ := Option.bind_eq_some_iff.mp hrun
  cases hu
  obtain ⟨done, hran, hdone⟩ := run_in_order hrest hkeeps
  refine ⟨done, hran, ?_⟩
  have hnone : as.flatMap Action.prepared = [] := by
    rw [List.flatMap_eq_nil_iff]
    intro a ha
    cases a with
    | prep tasks => exact absurd rfl (hprep _ ha tasks)
    | _ => rfl
  rw [hnone, List.append_nil] at hdone
  rw [hdone]
  exact List.prefix_append _ _

/-- Two timers are set when the build is stopped. -/
def stopped : List Action := [.stop, .fire .ok, .fire .ok, .fire .ok]

/-- The second play has begun. -/
def playedTwice : State := (start oneFile).after (twoPlays.take 3)

/-- The stop comes behind what is on the timers. -/
theorem stop_lets_go_played_twice : ∃ done,
    (playedTwice.after stopped).ran = playedTwice.ran ++ done ∧
    done <+: playedTwice.timers ++ [.stopped] :=
  stop_lets_go
    (show run (State.step plain) playedTwice stopped = some (playedTwice.after stopped) from rfl)
    (by decide) (by simp)

/-! ## Reports -/

/-- A task that goes on sets one timer at most. -/
theorem finish_chains (s : State) (ending : Ending) :
    (s.finish ending).reports.length + (s.finish ending).chains ≤
      s.reports.length + s.chains + 1 := by
  cases ending with
  | ticks =>
    show s.tick.reports.length + s.tick.chains ≤ _
    rcases tick_cases s with ⟨-, h⟩ | ⟨task, tasks, -, h⟩
    · rw [h]
      exact Nat.le_succ _
    · rw [h]
      simp only [State.chains, List.length_append, List.length_singleton]
      omega
  | reports r =>
    simp only [State.finish, State.chains, List.length_append, List.length_singleton]
    omega
  | waits =>
    simp only [State.finish, State.chains]
    omega

/-- What makes one more task that runs, or one more report: the build is played, or an error is
reported by the way. -/
def Adds (a : Action) : Prop := a = .play ∨ a = .prepError ∨ a = .streamError

instance : DecidablePred Adds := fun _ => inferInstanceAs (Decidable (_ ∨ _))

/-- Nothing else makes more of what runs and was reported. -/
theorem step_reports (h : s.step c a = some t) :
    t.reports.length + t.chains ≤ s.reports.length + s.chains + if Adds a then 1 else 0 := by
  rcases step_cases h with ⟨tasks, rfl, -⟩ | ⟨rfl, rfl⟩ |
    ⟨result, task, timers, rfl, htimers, rfl⟩ | ⟨ok, waiting, rfl, hwaiting, rfl⟩ |
    ⟨files, rfl, -⟩ | ⟨rfl, ha⟩
  · exact Nat.le_add_right _ _
  · exact finish_chains s .ticks
  · have hchains := finish_chains
      { s with timers := timers, ran := s.ran ++ [task],
               files := (s.files.perform c task result).1 }
      (s.files.perform c task result).2
    simp only [State.chains, htimers, List.length_cons] at hchains ⊢
    omega
  · have hchains := finish_chains { s with waiting := waiting }
      (if ok then .ticks else .reports .error)
    simp only [State.chains, hwaiting] at hchains ⊢
    omega
  · exact Nat.le_add_right _ _
  · rw [if_pos (.inr ha)]
    simp only [State.chains, List.length_append, List.length_singleton]
    omega

/-- **Each report takes a `play`** or an error by the way: what was reported and what is running
are together no more than before, and one for each time the build was played, each preparation
that failed and each error of a stream that went on. -/
theorem reported_once {as : List Action} (hrun : run (State.step c) s as = some t) :
    t.reports.length + t.chains ≤ s.reports.length + s.chains + as.countP (Adds ·) := by
  induction as generalizing s with
  | nil =>
    cases hrun
    exact Nat.le_refl _
  | cons a as ih =>
    obtain ⟨u, hu, hrest⟩ := Option.bind_eq_some_iff.mp hrun
    have hfirst := step_reports hu
    have := ih hrest
    rw [List.countP_cons]
    simp only [decide_eq_true_eq]
    omega

theorem reported_once_two_plays :
    ((start oneFile).after twoPlays).reports.length +
      ((start oneFile).after twoPlays).chains ≤ 0 + 0 + 2 :=
  reported_once (show run (State.step plain) (start oneFile) twoPlays =
    some ((start oneFile).after twoPlays) from rfl)

/-! ## What is built -/

/-- An output that is not older than its source is what the source comes to. -/
def Fresh (c : Config) (s : Files) : Prop :=
  ∀ f i o, s.src f = some i → s.out f = some o → i.mtime ≤ o.mtime → o.data = c.shipped f i.data

/-- The output is what the source comes to. -/
def Current (c : Config) (s : Files) (f : Nat) : Prop :=
  ∃ i o, s.src f = some i ∧ s.out f = some o ∧ o.data = c.shipped f i.data

/-- A source that changes is newer than its output, and a copy that fails leaves nothing. -/
def Honest (s : State) : Action → Prop
  | .edit f (some file) => ∀ o, s.files.out f = some o → o.mtime < file.mtime
  | .fire (.throws left) => left = none
  | _ => True

instance decidableHonest : ∀ s a, Decidable (Honest s a)
  | s, .edit f (some file) =>
    inferInstanceAs (Decidable (∀ o ∈ s.files.out f, o.mtime < file.mtime))
  | _, .edit _ none => inferInstanceAs (Decidable True)
  | _, .fire (.throws left) => inferInstanceAs (Decidable (left = none))
  | _, .fire .ok => inferInstanceAs (Decidable True)
  | _, .fire .waits => inferInstanceAs (Decidable True)
  | _, .reset => inferInstanceAs (Decidable True)
  | _, .prep _ => inferInstanceAs (Decidable True)
  | _, .play => inferInstanceAs (Decidable True)
  | _, .stop => inferInstanceAs (Decidable True)
  | _, .settle _ => inferInstanceAs (Decidable True)
  | _, .wait _ => inferInstanceAs (Decidable True)
  | _, .prepError => inferInstanceAs (Decidable True)
  | _, .streamError => inferInstanceAs (Decidable True)

variable {files : Files} {result : Result}

/-- An output that is taken away is not stale. -/
theorem Fresh.remove (h : Fresh c files) (f : Nat) : Fresh c (files.setOut f none) := by
  intro g i o hi ho
  by_cases hg : g = f
  · subst hg
    change Function.update files.out g none g = some o at ho
    rw [Function.update_self] at ho
    cases ho
  · exact h g i o hi ((Function.update_of_ne hg _ _).symm.trans ho)

/-- A copy is what the source comes to. -/
theorem Fresh.copy (h : Fresh c files) {i : File} (hi : files.src f = some i) (time : Nat) :
    Fresh c (files.setOut f (some ⟨c.shipped f i.data, time⟩)) := by
  intro g j o hj ho hle
  by_cases hg : g = f
  · subst hg
    change Function.update files.out g _ g = some o at ho
    rw [Function.update_self] at ho
    cases ho
    cases hi.symm.trans hj
    rfl
  · exact h g j o hj ((Function.update_of_ne hg _ _).symm.trans ho) hle

/-- **A task keeps the outputs fresh**, unless it throws halfway. -/
theorem Fresh.perform (h : Fresh c files) (task : Task)
    (hresult : ∀ data, result ≠ .throws (some data)) :
    Fresh c (files.perform c task result).1 := by
  unfold Files.perform
  split
  · exact h
  · exact h
  · exact h.remove _
  · exact h
  · split
    · exact h
    · split
      · exact h.copy ‹_› _
      · exact h
  · rename_i left
    cases left with
    | none => exact h.remove _
    | some data => exact absurd rfl (hresult data)
  · exact h
  · exact h
  · exact h

/-- `prepare` ends with the output current: it is copied, or was fresh. -/
theorem current_of_ticks (h : Fresh c files)
    (hticks : (files.perform c (.prepare f) result).2 = .ticks) :
    Current c (files.perform c (.prepare f) result).1 f := by
  cases result with
  | throws left => cases hticks
  | waits => cases hticks
  | ok =>
    cases hi : files.src f with
    | none =>
      simp only [Files.perform, hi] at hticks
      cases hticks
    | some i =>
      simp only [Files.perform, hi]
      split
      · exact ⟨i, _, hi, Function.update_self .., rfl⟩
      · rename_i hold
        cases ho : files.out f with
        | none =>
          rw [ho] at hold
          exact absurd rfl hold
        | some o =>
          rw [ho] at hold
          have hle : i.mtime ≤ o.mtime := by simpa [Files.outdated] using hold
          exact ⟨i, o, hi, ho, h f i o hi ho hle⟩

/-- Another task leaves it so, unless it cleans. -/
theorem Current.perform (h : Current c files f) (task : Task) (hclean : task ≠ .clean f)
    (hprepare : task ≠ .prepare f) : Current c (files.perform c task result).1 f := by
  obtain ⟨i, o, hi, ho, hdata⟩ := h
  have hother : ∀ {g file}, g ≠ f → Current c (files.setOut g file) f := fun hg =>
    ⟨i, o, hi, (Function.update_of_ne hg.symm _ _).trans ho, hdata⟩
  unfold Files.perform
  split
  · exact ⟨i, o, hi, ho, hdata⟩
  · exact ⟨i, o, hi, ho, hdata⟩
  · exact hother fun hg => hclean (hg ▸ rfl)
  · exact ⟨i, o, hi, ho, hdata⟩
  · split
    · exact ⟨i, o, hi, ho, hdata⟩
    · split
      · exact hother fun hg => hprepare (hg ▸ rfl)
      · exact ⟨i, o, hi, ho, hdata⟩
  · exact hother fun hg => hprepare (hg ▸ rfl)
  · exact ⟨i, o, hi, ho, hdata⟩
  · exact ⟨i, o, hi, ho, hdata⟩
  · exact ⟨i, o, hi, ho, hdata⟩

/-- An honest step keeps the outputs fresh. -/
theorem fresh_step (h : Fresh c s.files) (hok : Honest s a) (ht : s.step c a = some t) :
    Fresh c t.files := by
  rcases step_cases ht with ⟨tasks, rfl, -⟩ | ⟨rfl, rfl⟩ |
    ⟨result, task, timers, rfl, htimers, rfl⟩ | ⟨ok, waiting, rfl, -, rfl⟩ | ⟨files, rfl, ha⟩ |
    ⟨rfl, -⟩
  · exact h
  · obtain ⟨-, -, hfiles, -⟩ := finish_moves s .ticks
    rwa [show s.tick.files = s.files from hfiles]
  · obtain ⟨-, -, hfiles, -⟩ := finish_moves
      { s with timers := timers, ran := s.ran ++ [task],
               files := (s.files.perform c task result).1 }
      (s.files.perform c task result).2
    rw [hfiles]
    refine h.perform task ?_
    rintro data rfl
    cases hok
  · obtain ⟨-, -, hfiles, -⟩ := finish_moves { s with waiting := waiting }
      (if ok then .ticks else .reports .error)
    rw [hfiles]
    exact h
  · rcases ha with ⟨f, file, rfl, rfl⟩ | ⟨time, rfl, rfl⟩
    · intro g i o hi ho hle
      change Function.update s.files.src f file g = some i at hi
      by_cases hg : g = f
      · subst hg
        rw [Function.update_self] at hi
        subst hi
        have hnewer : o.mtime < i.mtime := hok o ho
        exact absurd hle (by omega)
      · rw [Function.update_of_ne hg] at hi
        exact h g i o hi ho hle
    · exact h
  · exact h

/-- **The outputs stay fresh in any honest history.** -/
theorem fresh_reaches {src : Nat → Option File} (h : Reaches (State.step c) Honest (start src) s) :
    Fresh c s.files :=
  h.invariant (fun s => Fresh c s.files) (fun _ _ _ _ ho => by cases ho) fun _ _ _ hfresh hok ht =>
    fresh_step hfresh hok ht

/-! ## A build -/

/-- `prepclean` if it is asked for, `prepobj`, and the tasks of `prepwin` and `prepmac`; `postbuild`
adds the last one. -/
def buildTasks (clean : Bool) (files apps : List Nat) : List Task :=
  (if clean then files.map .clean ++ [.other 0, .other 1, .other 2] else []) ++
    [.other 3, .other 4, .other 5, .other 6, .other 7] ++ files.map .check ++ files.map .prepare ++
    files.map .other ++ apps.map .other ++ [.success]

/-- No file is cleaned after it was prepared. -/
def Ordered (tasks : List Task) : Prop :=
  tasks.Pairwise fun x y => ∀ f, x = .prepare f → y ≠ .clean f

/-- The tasks are in order. -/
theorem buildTasks_ordered (clean : Bool) (files apps : List Nat) :
    Ordered (buildTasks clean files apps) := by
  -- no task behind the first ones cleans
  have hclean : ∀ {xs ys : List Task}, (∀ f, .prepare f ∉ xs) → (∀ f, .clean f ∉ ys) →
    Ordered (xs ++ ys) := by
    intro xs ys hxs hys
    refine List.pairwise_append.mpr ⟨?_, ?_, ?_⟩
    · exact List.pairwise_of_forall_mem_list fun x hx y _ f hf => absurd (hf ▸ hx) (hxs f)
    · exact List.pairwise_of_forall_mem_list fun x _ y hy f _ hf => hys f (hf ▸ hy)
    · exact fun x hx y _ f hf => absurd (hf ▸ hx) (hxs f)
  unfold buildTasks
  simp only [List.append_assoc]
  refine hclean (fun f => ?_) fun f => ?_
  · cases clean <;> simp
  · simp

/-- Nothing comes behind the success. -/
theorem success_last {clean : Bool} {files apps : List Nat} {done rest : List Task}
    (h : buildTasks clean files apps = done ++ rest) (hsuccess : .success ∈ done) : rest = [] := by
  by_contra hne
  obtain ⟨front, last, rfl⟩ := List.eq_nil_or_concat rest |>.resolve_left hne
  have hfront : ∀ {front : List Task}, buildTasks clean files apps = front ++ [.success] →
    .success ∉ front := by
    intro front hfront
    unfold buildTasks at hfront
    rw [← (List.append_inj' hfront rfl).1]
    cases clean <;> simp
  rw [List.concat_eq_append, ← List.append_assoc] at h
  have hlast : last = .success := by
    unfold buildTasks at h
    exact (List.cons.inj (List.append_inj' h rfl).2).1.symm
  subst hlast
  exact hfront h (List.mem_append_left _ hsuccess)

/-- The build goes on, and nothing else is done. -/
def Quiet : Action → Prop
  | .fire _ => True
  | .settle _ => True
  | .streamError => True
  | .wait _ => True
  | _ => False

instance : DecidablePred Quiet
  | .fire _ | .settle _ | .streamError | .wait _ => inferInstanceAs (Decidable True)
  | .reset | .prep _ | .prepError | .play | .stop | .edit _ _ => inferInstanceAs (Decidable False)

/-- A task that ticks was done. -/
theorem ok_of_ticks (h : (files.perform c task result).2 = .ticks) : result = .ok := by
  unfold Files.perform at h
  split at h
  all_goals first | rfl | cases h

/-- Success is reported by its own task. -/
theorem success_of_reports (h : (files.perform c task result).2 = .reports .success) :
    task = .success ∧ (files.perform c task result).1 = files := by
  unfold Files.perform at h ⊢
  split at h
  · exact ⟨rfl, rfl⟩
  · cases h
  · cases h
  · simp only at h
    split at h <;> cases h
  · split at h <;> cases h
  · cases h
  · cases h
  · cases h
  · cases h

/-- A task that waits for a stream leaves the files alone. -/
theorem files_of_waits (h : (files.perform c task result).2 = .waits) :
    (∀ f, task ≠ .prepare f) ∧ (files.perform c task result).1 = files := by
  unfold Files.perform at h ⊢
  split at h
  · cases h
  · cases h
  · cases h
  · simp only at h
    split at h <;> cases h
  · split at h <;> cases h
  · cases h
  · cases h
  · exact ⟨fun f => nofun, rfl⟩
  · cases h

/-- How far a build has come that was played in `s`: no success was reported, and what was prepared
is current; or it is over. -/
structure Played (c : Config) (s t : State) : Prop where
  chains : t.chains ≤ 1
  queue : ∃ done news, s.tasks = done ++ (t.timers ++ t.tasks) ∧ t.reports = s.reports ++ news ∧
    ((.success ∉ news ∧ Fresh c t.files ∧ ∀ f, .prepare f ∈ done → Current c t.files f) ∨
      (t.chains = 0 ∧ (.success ∈ news →
        .success ∈ done ∧ ∀ f, .prepare f ∈ done → Current c t.files f)))

/-- One task of a build that goes on. -/
theorem played_fire {done tasks : List Task} (hordered : Ordered (done ++ task :: tasks))
    (hfresh : Fresh c files)
    (hcurrent : ∀ f, .prepare f ∈ done → Current c files f)
    (hending : (files.perform c task result).2 = .ticks ∨
      (files.perform c task result).2 = .waits) :
    Fresh c (files.perform c task result).1 ∧
      ∀ f, .prepare f ∈ done ++ [task] → Current c (files.perform c task result).1 f := by
  rcases hending with hticks | hwaits
  · obtain rfl := ok_of_ticks hticks
    refine ⟨hfresh.perform task (fun _ => nofun), fun f hf => ?_⟩
    by_cases htask : task = .prepare f
    · subst htask
      exact current_of_ticks hfresh hticks
    · have hdone : .prepare f ∈ done := by
        rcases List.mem_append.mp hf with hf | hf
        · exact hf
        · exact absurd (List.mem_singleton.mp hf).symm htask
      have hclean : task ≠ .clean f :=
        (List.pairwise_append.mp hordered).2.2 _ hdone task List.mem_cons_self f rfl
      exact (hcurrent f hdone).perform task hclean htask
  · obtain ⟨hprepare, hfiles⟩ := files_of_waits hwaits
    rw [hfiles]
    refine ⟨hfresh, fun f hf => hcurrent f ?_⟩
    rcases List.mem_append.mp hf with hf | hf
    · exact hf
    · exact absurd (List.mem_singleton.mp hf).symm (hprepare f)

/-- The chains that are left after a task. -/
theorem chains_finish_le (s : State) (ending : Ending) : (s.finish ending).chains ≤ s.chains + 1 ∧
    (∀ r, ending = .reports r → (s.finish ending).chains = s.chains) := by
  cases ending with
  | ticks =>
    refine ⟨?_, nofun⟩
    show s.tick.chains ≤ _
    rcases tick_cases s with ⟨-, h⟩ | ⟨task, tasks, -, h⟩
    · rw [h]
      exact Nat.le_succ _
    · rw [h]
      simp only [State.chains, List.length_append, List.length_singleton]
      omega
  | reports r => exact ⟨Nat.le_succ _, fun _ _ => rfl⟩
  | waits =>
    refine ⟨?_, nofun⟩
    simp only [State.finish, State.chains]
    omega

/-- A task of a build was fired. -/
theorem played_fired {task : Task} {timers : List Task} (hordered : Ordered s.tasks)
    (h : Played c s t) (htimers : t.timers = task :: timers) :
    Played c s (State.finish { t with timers := timers, ran := t.ran ++ [task],
                                      files := (t.files.perform c task result).1 }
      (t.files.perform c task result).2) := by
  obtain ⟨hchains, done, news, hqueue, hnews, hstate⟩ := h
  have hone : 1 ≤ t.chains := by
    simp only [State.chains, htimers, List.length_cons]
    omega
  have hrunning : .success ∉ news ∧ Fresh c t.files ∧
      ∀ f, .prepare f ∈ done → Current c t.files f := by
    rcases hstate with hrunning | ⟨hover, -⟩
    · exact hrunning
    · omega
  obtain ⟨hnone, hfresh, hcurrent⟩ := hrunning
  have hleft : State.chains { t with timers := timers, ran := t.ran ++ [task],
                                     files := (t.files.perform c task result).1 } = 0 := by
    simp only [State.chains, htimers, List.length_cons] at hchains ⊢
    omega
  rw [htimers, List.cons_append] at hqueue
  obtain ⟨hmoves, -, hfiles, -⟩ := finish_moves
    { t with timers := timers, ran := t.ran ++ [task],
             files := (t.files.perform c task result).1 }
    (t.files.perform c task result).2
  obtain ⟨hless, hreporting⟩ := chains_finish_le
    { t with timers := timers, ran := t.ran ++ [task],
             files := (t.files.perform c task result).1 }
    (t.files.perform c task result).2
  rw [hleft] at hless hreporting
  have hqueue' : s.tasks = done ++ [task] ++ (timers ++ t.tasks) := by
    rw [hqueue, List.append_assoc]
    rfl
  rw [hqueue] at hordered
  cases hending : (t.files.perform c task result).2 with
  | ticks =>
    rw [hending] at hmoves hfiles hless
    refine ⟨hless, done ++ [task], news, by rw [hmoves]; exact hqueue',
      (tick_reports _).trans hnews, .inl ⟨hnone, ?_⟩⟩
    rw [hfiles]
    exact played_fire hordered hfresh hcurrent (.inl hending)
  | waits =>
    rw [hending] at hless
    exact ⟨hless, done ++ [task], news, hqueue', hnews,
      .inl ⟨hnone, played_fire hordered hfresh hcurrent (.inr hending)⟩⟩
  | reports r =>
    rw [hending] at hless hreporting
    refine ⟨hless, done ++ [task], news ++ [r], hqueue', ?_, .inr ⟨hreporting r rfl, ?_⟩⟩
    · rw [← List.append_assoc, ← hnews]
      rfl
    · intro hsuccess
      obtain rfl : r = .success := by
        rcases List.mem_append.mp hsuccess with hbefore | hlast
        · exact absurd hbefore hnone
        · exact (List.mem_singleton.mp hlast).symm
      obtain ⟨rfl, hsame⟩ := success_of_reports hending
      refine ⟨List.mem_append_right _ (List.mem_singleton_self _), fun f hf => ?_⟩
      change Current c (t.files.perform c .success result).1 f
      rw [hsame]
      refine hcurrent f ?_
      rcases List.mem_append.mp hf with hf | hf
      · exact hf
      · cases List.mem_singleton.mp hf

/-- A stream of a build has come to its end, or failed. -/
theorem played_settled {ok : Bool} {waiting : Nat} (h : Played c s t)
    (hwaiting : t.waiting = waiting + 1) :
    Played c s
      (State.finish { t with waiting := waiting } (if ok then .ticks else .reports .error)) := by
  obtain ⟨hchains, done, news, hqueue, hnews, hstate⟩ := h
  have hrunning : .success ∉ news ∧ Fresh c t.files ∧
      ∀ f, .prepare f ∈ done → Current c t.files f := by
    rcases hstate with hrunning | ⟨hover, -⟩
    · exact hrunning
    · simp only [State.chains, hwaiting] at hover
      omega
  obtain ⟨hnone, hrunning⟩ := hrunning
  have hleft : State.chains { t with waiting := waiting } = 0 := by
    simp only [State.chains, hwaiting] at hchains ⊢
    omega
  obtain ⟨hmoves, -, hfiles, -⟩ := finish_moves { t with waiting := waiting }
    (if ok then .ticks else .reports .error)
  obtain ⟨hless, hreporting⟩ := chains_finish_le { t with waiting := waiting }
    (if ok then .ticks else .reports .error)
  rw [hleft] at hless hreporting
  cases ok with
  | true =>
    refine ⟨hless, done, news, by rw [hmoves]; exact hqueue, (tick_reports _).trans hnews,
      .inl ⟨hnone, ?_⟩⟩
    rw [hfiles]
    exact hrunning
  | false =>
    refine ⟨hless, done, news ++ [.error], hqueue, ?_, .inr ⟨hreporting .error rfl, ?_⟩⟩
    · rw [← List.append_assoc, ← hnews]
      rfl
    · intro hsuccess
      rcases List.mem_append.mp hsuccess with hbefore | hlast
      · exact absurd hbefore hnone
      · cases List.mem_singleton.mp hlast

/-- **One step of a build.** -/
theorem played_step (hordered : Ordered s.tasks) (h : Played c s t) (hquiet : Quiet a)
    (hu : t.step c a = some u) : Played c s u := by
  rcases step_cases hu with ⟨tasks, -, ha⟩ | ⟨rfl, -⟩ | ⟨result, task, timers, rfl, htimers, rfl⟩ |
    ⟨ok, waiting, rfl, hwaiting, rfl⟩ | ⟨files, rfl, ha⟩ | ⟨rfl, ha⟩
  · rcases ha with rfl | ⟨rfl, -⟩ | ⟨more, rfl, -⟩ <;> cases hquiet
  · cases hquiet
  · exact played_fired hordered h htimers
  · exact played_settled h hwaiting
  · rcases ha with ⟨f, file, rfl, -⟩ | ⟨time, rfl, rfl⟩
    · cases hquiet
    · obtain ⟨hchains, done, news, hqueue, hnews, hstate⟩ := h
      exact ⟨hchains, done, news, hqueue, hnews, hstate⟩
  · -- an error by the way is no success
    obtain ⟨hchains, done, news, hqueue, hnews, hstate⟩ := h
    have hsame : .success ∈ news ++ [Report.error] ↔ .success ∈ news := by simp
    refine ⟨hchains, done, news ++ [.error], hqueue, ?_, ?_⟩
    · rw [← List.append_assoc, ← hnews]
    · rw [hsame]
      exact hstate

/-- **A build that reports success has built**: in any honest history, when a build is played once
on an idle builder and goes through, every output is what its source comes to. -/
theorem built {src : Nat → Option File} (hreach : Reaches (State.step c) Honest (start src) s)
    (hidle : s.chains = 0) {clean : Bool} {files apps : List Nat}
    (htasks : s.tasks = buildTasks clean files apps)
    (hplay : s.step c .play = some u) (hlater : Reaches (State.step c) (fun _ a => Quiet a) u t)
    {news : List Report} (hnews : t.reports = s.reports ++ news) (hsuccess : .success ∈ news) :
    ∀ f ∈ files, Current c t.files f := by
  have hordered : Ordered s.tasks := htasks ▸ buildTasks_ordered clean files apps
  obtain ⟨htimers, -⟩ := Nat.add_eq_zero_iff.mp hidle
  have hstart : Played c s u := by
    obtain ⟨hmoves, -, hfiles, -⟩ := finish_moves s .ticks
    obtain ⟨hless, -⟩ := chains_finish_le s .ticks
    rw [hidle] at hless
    cases hplay
    refine ⟨hless, [], [], ?_, (tick_reports s).trans (List.append_nil _).symm,
      .inl ⟨List.not_mem_nil, ?_, fun _ => nofun⟩⟩
    · rw [List.eq_nil_of_length_eq_zero htimers] at hmoves
      exact hmoves.symm
    · rw [show s.tick.files = s.files from hfiles]
      exact fresh_reaches hreach
  obtain ⟨-, done, news', hqueue, hnews', hstate⟩ := hlater.invariant (Played c s) hstart
    fun _ _ _ hplayed hquiet hstep =>
    played_step hordered hplayed hquiet hstep
  obtain rfl : news = news' := List.append_cancel_left (hnews.symm.trans hnews')
  rcases hstate with ⟨hnone, -⟩ | ⟨-, hover⟩
  · exact absurd hsuccess hnone
  · obtain ⟨hdone, hcurrent⟩ := hover hsuccess
    have hall := success_last (htasks.symm.trans hqueue) hdone
    rw [hall, List.append_nil] at hqueue
    refine fun f hf => hcurrent f ?_
    rw [← hqueue, htasks]
    unfold buildTasks
    simp [hf]

/-- A build, a change to the source, and what is prepared for the next build. -/
def history : List Action :=
  .prep (buildTasks true [0] [1]) :: .play :: List.replicate 14 (.fire .ok) ++
    [.wait 10, .edit 0 (some ⟨[2], 8⟩), .reset, .prep (buildTasks false [0] [1])]

/-- The source was built and then changed. -/
def prepared : State := (start oneFile).after history

/-- The source is built once more. -/
def rebuilt : State := prepared.tick.after (List.replicate 10 (.fire .ok))

/-- The output is that of the changed source. -/
theorem built_again : rebuilt.reports = [.success, .success] ∧
    ∀ f ∈ [0], Current plain rebuilt.files f := by
  have hreach : Reaches (State.step plain) Honest (start oneFile) prepared :=
    reaches_of_run history rfl (by decide)
  have hlater : Reaches (State.step plain) (fun _ a => Quiet a) prepared.tick rebuilt :=
    reaches_of_run (List.replicate 10 (.fire .ok)) rfl (by decide)
  have htasks : prepared.tasks = buildTasks false [0] [1] := rfl
  exact ⟨rfl, built hreach rfl htasks rfl hlater
    (show rebuilt.reports = prepared.reports ++ [.success] from rfl) List.mem_cons_self⟩

end BuildQueue

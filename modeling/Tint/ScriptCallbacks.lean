import Tint.Transition
import Mathlib.Data.List.Count
import Mathlib.Data.List.Nodup

/-!
# The callbacks of scripts on the Mac

`execute` of a WKWebView gives the native call a block and keeps it in `this.callbacks`, so that it
is not collected before the script has run.  The list is a new one on each call.  When a script
has run without a result nothing is taken out of the list, and otherwise its first entry is.

* `retained_iff` -- every pending block is kept, and taken out when its script has run, exactly
  when no script is started while a block is pending and all have results;
* `served` -- in every run each callback is called once.
-/

namespace ScriptCallbacks

open Transition

/-- The list, the blocks whose scripts are running, and the calls of callbacks with the results;
the blocks are numbered. -/
structure State (R : Type) where
  callbacks : List Nat
  pending : List Nat
  created : Nat
  called : List (Nat × Option R)

/-- `execute`, with a callback or without, and the completion of a script. -/
inductive Action (R : Type)
  | execute (cb : Bool)
  | complete (callback : Nat) (result : Option R)

section Model

variable {R : Type}

def start : State R := ⟨[], [], 0, []⟩

/-- `execute` -/
def execute (s : State R) (cb : Bool) : State R :=
  if cb then
    { s with
      callbacks := [s.created]
      pending := s.pending ++ [s.created]
      created := s.created + 1 }
  else { s with callbacks := [] }

/-- The block.  `splice(callback, 1)` takes out the first entry: a block is no number. -/
def complete (s : State R) (callback : Nat) (result : Option R) : State R :=
  { s with
    callbacks := match result with
      | none => s.callbacks
      | some _ => if callback ∈ s.callbacks then s.callbacks.tail else s.callbacks
    pending := s.pending.erase callback
    called := s.called ++ [(callback, result)] }

def step (s : State R) : Action R → Option (State R)
  | .execute cb => some (execute s cb)
  | .complete callback result =>
      if callback ∈ s.pending then some (complete s callback result) else none

/-! ## The property and the condition -/

/-- A pending block cannot be collected. -/
def Retained (s : State R) : Prop := ∀ callback ∈ s.pending, callback ∈ s.callbacks

/-- Each callback is pending or has been called, once. -/
def Served (s : State R) : Prop :=
  ∀ callback < s.created,
    s.pending.count callback + s.called.countP (fun call => call.1 = callback) = 1

/-- **A right step.**  A completion takes its own entry out and calls its own callback with the
result. -/
def Right (s : State R) : Action R → Prop
  | .execute cb => Retained (execute s cb) ∧ Served (execute s cb)
  | .complete callback result =>
      (complete s callback result).callbacks = s.callbacks.erase callback ∧
        (complete s callback result).called = s.called ++ [(callback, result)] ∧
        Retained (complete s callback result) ∧ Served (complete s callback result)

/-- **The condition.**  No script is started while a block is pending, and a script with a
callback has a result. -/
def Apart (s : State R) : Action R → Prop
  | .execute _ => s.pending = []
  | .complete _ result => result ≠ none

end Model

/-! ## Calls -/

section Calls

variable {R : Type} {s : State R}

/-- `Served`, and the numbers that have been given out. -/
structure Numbered (s : State R) : Prop where
  served : Served s
  pending : ∀ callback ∈ s.pending, callback < s.created
  called : ∀ call ∈ s.called, call.1 < s.created

theorem numbered_start : Numbered (start : State R) :=
  ⟨fun _ h => absurd h (Nat.not_lt_zero _), fun _ h => absurd h List.not_mem_nil,
    fun _ h => absurd h List.not_mem_nil⟩

theorem numbered_execute (h : Numbered s) (cb : Bool) : Numbered (execute s cb) := by
  cases cb with
  | false => exact ⟨h.served, h.pending, h.called⟩
  | true =>
      refine ⟨fun callback hlt => ?_, fun callback hmem => ?_, fun call hcall => ?_⟩
      · simp only [execute, if_true, List.count_append, List.count_singleton] at hlt ⊢
        rcases Nat.lt_succ_iff_lt_or_eq.mp hlt with hold | hnew
        · have hserved := h.served callback hold
          have hne : (s.created == callback) = false := by
            rw [beq_eq_false_iff_ne]
            omega
          rwa [hne, if_neg (by decide), Nat.add_zero]
        · subst hnew
          have hpending : s.pending.count s.created = 0 :=
            List.count_eq_zero.mpr fun hmem => Nat.lt_irrefl _ (h.pending _ hmem)
          have hcalled : s.called.countP (fun call => call.1 = s.created) = 0 := by
            refine List.countP_eq_zero.mpr fun call hcall heq => ?_
            have hlt := h.called call hcall
            rw [of_decide_eq_true heq] at hlt
            exact Nat.lt_irrefl _ hlt
          rw [hpending, hcalled, beq_self_eq_true, if_pos rfl]
      · rcases List.mem_append.mp hmem with hold | hnew
        · exact Nat.lt_succ_of_lt (h.pending callback hold)
        · rw [List.mem_singleton.mp hnew]
          exact Nat.lt_succ_self _
      · exact Nat.lt_succ_of_lt (h.called call hcall)

theorem numbered_complete (h : Numbered s) {callback : Nat} (hmem : callback ∈ s.pending)
    (result : Option R) : Numbered (complete s callback result) := by
  refine ⟨fun other hlt => ?_, fun other hother => h.pending other (List.mem_of_mem_erase hother),
    fun call hcall => ?_⟩
  · have hserved := h.served other hlt
    rw [(List.perm_cons_erase hmem).count_eq, List.count_cons] at hserved
    simp only [complete, List.countP_append, List.countP_singleton, decide_eq_true_eq]
    simp only [beq_iff_eq] at hserved
    omega
  · rcases List.mem_append.mp hcall with hold | hnew
    · exact h.called call hold
    · rw [List.mem_singleton.mp hnew]
      exact h.pending callback hmem

theorem numbered_step (h : Numbered s) {a : Action R} {t : State R} (hstep : step s a = some t) :
    Numbered t := by
  cases a with
  | execute cb =>
      obtain rfl := Option.some.inj hstep
      exact numbered_execute h cb
  | complete callback result =>
      simp only [step, Option.ite_none_right_eq_some] at hstep
      obtain ⟨hmem, hstep⟩ := hstep
      obtain rfl := Option.some.inj hstep
      exact numbered_complete h hmem result

/-- **Served.**  In every run, each callback is pending or has been called, once. -/
theorem served (h : Reaches step (fun _ _ => True) (start : State R) s) : Served s :=
  (h.invariant Numbered numbered_start fun _ _ _ hnumbered _ hstep =>
    numbered_step hnumbered hstep).served

end Calls

/-! ## The list -/

section List

variable {R : Type} {s : State R}

/-- One block at most is pending, and the list is that of the pending ones. -/
structure Alone (s : State R) : Prop extends Numbered s where
  one : s.pending.length ≤ 1
  kept : s.callbacks = s.pending

theorem alone_start : Alone (start : State R) :=
  ⟨numbered_start, Nat.zero_le _, rfl⟩

/-- `execute` forgets every block that was in the list. -/
theorem execute_retained_iff (h : Numbered s) (cb : Bool) :
    Retained (execute s cb) ↔ s.pending = [] := by
  cases cb with
  | false =>
      constructor
      · intro hretained
        apply List.eq_nil_iff_forall_not_mem.mpr
        intro callback hmem
        exact List.not_mem_nil (hretained callback hmem)
      · intro hnil callback hmem
        rw [show (execute s false).pending = [] from hnil] at hmem
        exact absurd hmem List.not_mem_nil
  | true =>
      constructor
      · intro hretained
        apply List.eq_nil_iff_forall_not_mem.mpr
        intro callback hmem
        have hnew := hretained callback (List.mem_append_left _ hmem)
        have hlt := h.pending callback hmem
        rw [List.mem_singleton.mp hnew] at hlt
        exact Nat.lt_irrefl _ hlt
      · intro hnil callback hmem
        have hpending : (execute s true).pending = [s.created] := by
          simp only [execute, if_true, hnil, List.nil_append]
        rwa [hpending] at hmem

/-- With one block in the list the first entry is its own. -/
theorem complete_of_alone (h : Alone s) {callback : Nat} (hmem : callback ∈ s.pending)
    (result : R) :
    (complete s callback (some result)).callbacks = [] ∧
      (complete s callback (some result)).pending = [] ∧ s.callbacks = [callback] := by
  have hone : s.pending = [callback] := by
    obtain ⟨other, hother⟩ :=
      List.length_eq_one_iff.mp (Nat.le_antisymm h.one (List.length_pos_of_mem hmem))
    rw [hother] at hmem ⊢
    rw [List.mem_singleton.mp hmem]
  simp only [complete, h.kept, hone, List.mem_singleton, if_true, List.tail_cons,
    List.erase_cons_head, and_self]

/-- **One step.** -/
theorem right_iff_apart (h : Alone s) {a : Action R} {t : State R} (hstep : step s a = some t) :
    Right s a ↔ Apart s a := by
  cases a with
  | execute cb =>
      constructor
      · intro hright
        exact (execute_retained_iff h.toNumbered cb).mp hright.1
      · intro hnil
        exact ⟨(execute_retained_iff h.toNumbered cb).mpr hnil,
          (numbered_execute h.toNumbered cb).served⟩
  | complete callback result =>
      simp only [step, Option.ite_none_right_eq_some] at hstep
      obtain ⟨hmem, -⟩ := hstep
      cases result with
      | none =>
          -- the entry stays
          refine iff_of_false (fun hright => ?_) fun hresult => hresult rfl
          have hlist : s.callbacks = s.callbacks.erase callback := hright.1
          have hlength := List.length_erase_of_mem (h.kept ▸ hmem)
          have hpos := List.length_pos_of_mem (h.kept ▸ hmem)
          rw [← hlist] at hlength
          omega
      | some result =>
          obtain ⟨hlist, hpending, hbefore⟩ := complete_of_alone h hmem result
          refine iff_of_true ⟨?_, rfl, ?_, ?_⟩ (Option.some_ne_none result)
          · rw [hlist, hbefore, List.erase_cons_head]
          · intro other hother
            rw [hpending] at hother
            exact absurd hother List.not_mem_nil
          · exact (numbered_complete h.toNumbered hmem _).served

theorem alone_step (h : Alone s) {a : Action R} (hapart : Apart s a) {t : State R}
    (hstep : step s a = some t) : Alone t := by
  have hnumbered := numbered_step h.toNumbered hstep
  cases a with
  | execute cb =>
      obtain rfl := Option.some.inj hstep
      have hnil : s.pending = [] := hapart
      cases cb with
      | false => exact ⟨hnumbered, h.one, hnil.symm⟩
      | true =>
          have hpending : (execute s true).pending = [s.created] := by
            simp only [execute, if_true, hnil, List.nil_append]
          exact ⟨hnumbered, by rw [hpending]; exact Nat.le_refl 1, hpending.symm⟩
  | complete callback result =>
      simp only [step, Option.ite_none_right_eq_some] at hstep
      obtain ⟨hmem, hstep⟩ := hstep
      obtain rfl := Option.some.inj hstep
      cases result with
      | none => exact absurd rfl hapart
      | some result =>
          obtain ⟨hlist, hpending, -⟩ := complete_of_alone h hmem result
          exact ⟨hnumbered, by rw [hpending]; exact Nat.zero_le 1, by rw [hlist, hpending]⟩

/-- **Retained.**  In a run every pending block is in the list, a completion takes its own entry
out, and each callback is called once with its own result, exactly when no script is started
while a block is pending and each script with a callback has a result. -/
theorem retained_iff (actions : List (Action R)) :
    Meets step Right start actions ↔ Meets step Apart start actions :=
  meets_congr_of_kept (J := Alone) (fun _ _ _ h hapart hstep => alone_step h hapart hstep)
    (fun _ _ _ h hstep => right_iff_apart h hstep) alone_start actions

end List

/-- The second script makes the list forget the block of the first. -/
theorem second_execute_forgets :
    ¬ ∀ actions : List (Action String),
      (run step start actions).isSome = true → Meets step Right start actions := by
  intro h
  have hright := h [.execute true, .execute true] rfl
  have hretained : Retained (execute (execute (start : State String) true) true) := hright.2.1.1
  have hforgotten : 0 ∈ [1] := hretained 0 (by decide)
  exact absurd hforgotten (by decide)

end ScriptCallbacks

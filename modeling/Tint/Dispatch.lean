import Tint.Visit
import Mathlib.Data.List.Basic
import Mathlib.Data.List.Sublists

/-!
# Firing an event

`fireEvent` calls the listeners of an event by `forEach` over the list that
`addEventListener` and `removeEventListener` change, and a listener may call both.
A registration is an entry of the list with a number of its own: a function that is
added twice is registered twice.

* `fireEvent_dispatches_iff` -- the listeners registered at the start are called in
  order, each once unless it was removed before, if and only if each turn meets `Keeps`;
* `called_of_adds` -- listeners that only add have all of them called;
* `removes_itself` -- a listener that removes itself has the next one passed over.
-/

namespace Dispatch

open Visit

/-- An entry of `private.events[event]`. -/
structure Registration (F : Type*) where
  id : Nat
  func : F
  deriving DecidableEq

/-- `private.events[event]`, and the number that the next registration gets. -/
structure Listeners (F : Type*) where
  entries : List (Registration F)
  next : Nat
  sorted : entries.Pairwise fun a b => a.id < b.id
  fresh : ∀ e ∈ entries, e.id < next

variable {F V : Type*} [DecidableEq F]

namespace Listeners

/-- `addEventListener` -/
def addEventListener (s : Listeners F) (func : F) : Listeners F where
  entries := s.entries ++ [⟨s.next, func⟩]
  next := s.next + 1
  sorted := by
    rw [List.pairwise_append]
    refine ⟨s.sorted, List.pairwise_singleton _ _, ?_⟩
    intro a ha b hb
    obtain rfl := List.mem_singleton.mp hb
    exact s.fresh a ha
  fresh := by
    intro e he
    rcases List.mem_append.mp he with he | he
    · exact Nat.lt_succ_of_lt (s.fresh e he)
    · obtain rfl := List.mem_singleton.mp he
      exact Nat.lt_succ_self _

/-- `removeEventListener`: the first entry of the function, where there is one. -/
def removeEventListener (s : Listeners F) (func : F) : Listeners F where
  entries := s.entries.eraseP fun e => e.func = func
  next := s.next
  sorted := s.sorted.sublist List.eraseP_sublist
  fresh := fun e he => s.fresh e (List.mem_of_mem_eraseP he)

end Listeners

/-- What a listener does to the list. -/
inductive Operation (F : Type*)
  | add (func : F)
  | remove (func : F)

/-- What an operation does to the listeners. -/
def Operation.apply (s : Listeners F) : Operation F → Listeners F
  | .add func => s.addEventListener func
  | .remove func => s.removeEventListener func

/-- How a call ends.  Of a value that it returns only a truthy one counts. -/
inductive Outcome (V : Type*)
  | throws
  | returns (value : Option V)

/-- What a listener does in its turn: the operations on the list until the call is
over, those of calls within it included, and how it ends. -/
structure Reaction (F V : Type*) where
  operations : List (Operation F)
  outcome : Outcome V

/-- A call of a listener. -/
structure Turn (F V : Type*) where
  listener : Registration F
  before : Listeners F
  reaction : Reaction F V

/-- The list when the call is over. -/
def Turn.after (t : Turn F V) : Listeners F :=
  t.reaction.operations.foldl Operation.apply t.before

/-- `exited` is set by `process.exit`. -/
structure Run (F V : Type*) where
  listeners : Listeners F
  trace : List (Turn F V)
  returnvalue : Option V
  exited : Bool

variable (behave : Run F V → Registration F → Reaction F V)

/-- `returnvalue = item.apply(null, args) || returnvalue`.  What throws ends the
process. -/
def call (item : Registration F) (r : Run F V) : Run F V :=
  if r.exited = true then r
  else
    let t : Turn F V := ⟨item, r.listeners, behave r item⟩
    match t.reaction.outcome with
    | .throws =>
      { r with
        listeners := t.after
        trace := r.trace ++ [t]
        exited := true }
    | .returns value =>
      { r with
        listeners := t.after
        trace := r.trace ++ [t]
        returnvalue := value.or r.returnvalue }

/-- Before the first listener. -/
def begin (s : Listeners F) : Run F V :=
  { listeners := s, trace := [], returnvalue := none, exited := false }

/-- Utilities_base.js `fireEvent` -/
def fireEvent (s : Listeners F) : Run F V :=
  forEach (fun r => r.listeners.entries) (call behave) (begin s)

/-- The registrations that were called. -/
def Run.called (r : Run F V) : List (Registration F) := r.trace.map Turn.listener

/-- The listener was removed before its turn: it is not in the list when a later one
is called, nor at the end. -/
def Run.Removed (r : Run F V) (e : Registration F) : Prop :=
  e ∉ r.listeners.entries ∧ ∀ t ∈ r.trace, e.id < t.listener.id → e ∉ t.before.entries

/-- The calls are in registration order, none twice, each of a listener that is
registered, and a listener that was registered at the start and not removed before its
turn is among them. -/
structure Dispatches (s : Listeners F) (r : Run F V) : Prop where
  ordered : r.called.Pairwise fun a b => a.id < b.id
  registered : ∀ t ∈ r.trace, t.listener ∈ t.before.entries
  served : ∀ e ∈ s.entries, e ∈ r.called ∨ r.Removed e

/-- The listener returns and leaves what is registered up to it, or no listener from
the start is left behind it. -/
def Turn.Keeps (s : Listeners F) (t : Turn F V) : Prop :=
  ((∃ value, t.reaction.outcome = .returns value) ∧
    ∀ e ∈ t.before.entries, e.id ≤ t.listener.id → e ∈ t.after.entries) ∨
    ∀ e ∈ s.entries, t.listener.id < e.id → e ∉ t.after.entries

namespace Listeners

/-- What is registered up to a number. -/
def upTo (s : Listeners F) (n : Nat) : List (Registration F) :=
  s.entries.filter fun e => e.id ≤ n

omit [DecidableEq F] in
theorem mem_upTo {s : Listeners F} {n : Nat} {e : Registration F} :
    e ∈ s.upTo n ↔ e ∈ s.entries ∧ e.id ≤ n := by
  simp [upTo]

omit [DecidableEq F] in
theorem upTo_sublist (s : Listeners F) {m n : Nat} (h : m ≤ n) : (s.upTo m).Sublist (s.upTo n) := by
  apply List.monotone_filter_right
  intro e he
  exact decide_eq_true (Nat.le_trans (of_decide_eq_true he) h)

omit [DecidableEq F] in
/-- Of two registrations the later one has more up to it. -/
theorem length_upTo_lt {s : Listeners F} {e : Registration F} {m : Nat} (he : e ∈ s.entries)
    (h : m < e.id) : (s.upTo m).length < (s.upTo e.id).length := by
  have hsub := s.upTo_sublist (Nat.le_of_lt h)
  refine Nat.lt_of_le_of_ne hsub.length_le ?_
  intro heq
  have hmem : e ∈ s.upTo m := by
    rw [hsub.eq_of_length heq]
    exact mem_upTo.mpr ⟨he, Nat.le_refl _⟩
  exact Nat.not_le_of_lt h (mem_upTo.mp hmem).2

omit [DecidableEq F] in
theorem eq_of_id_eq {s : Listeners F} {a b : Registration F} (ha : a ∈ s.entries)
    (hb : b ∈ s.entries) (h : a.id = b.id) : a = b := by
  have hnodup : (s.entries.map Registration.id).Nodup :=
    List.pairwise_map.mpr (s.sorted.imp Nat.ne_of_lt)
  exact List.inj_on_of_nodup_map hnodup ha hb h

omit [DecidableEq F] in
/-- The entry at an index has that many before it. -/
theorem length_upTo_of_getElem? {s : Listeners F} {k : Nat} {e : Registration F}
    (h : s.entries[k]? = some e) : (s.upTo e.id).length = k + 1 := by
  obtain ⟨hk, rfl⟩ := List.getElem?_eq_some_iff.mp h
  have hsorted := s.sorted
  have hsplit : s.entries = s.entries.take (k + 1) ++ s.entries.drop (k + 1) :=
    (List.take_append_drop _ _).symm
  have htake : ∀ e ∈ s.entries.take (k + 1), e.id ≤ s.entries[k].id := by
    intro e he
    obtain ⟨i, hi, rfl⟩ := List.mem_take_iff_getElem.mp he
    rcases Nat.lt_or_ge i k with hlt | hge
    · exact Nat.le_of_lt (List.pairwise_iff_getElem.mp hsorted i k _ hk hlt)
    · have hik : i = k := by omega
      subst hik
      exact Nat.le_refl _
  have hdrop : ∀ e ∈ s.entries.drop (k + 1), ¬ e.id ≤ s.entries[k].id := by
    intro e he
    obtain ⟨i, hi, rfl⟩ := List.mem_drop_iff_getElem.mp he
    have hlt : s.entries[k].id < s.entries[k + 1 + i].id :=
      List.pairwise_iff_getElem.mp hsorted k (k + 1 + i) hk (by omega) (by omega)
    exact Nat.not_le_of_lt hlt
  have hlow : (s.entries.take (k + 1)).filter (fun e => e.id ≤ s.entries[k].id)
      = s.entries.take (k + 1) :=
    List.filter_eq_self.mpr fun e he => decide_eq_true (htake e he)
  have hhigh : (s.entries.drop (k + 1)).filter (fun e => e.id ≤ s.entries[k].id) = [] :=
    List.filter_eq_nil_iff.mpr fun e he => by simpa using hdrop e he
  have hup : s.upTo s.entries[k].id = s.entries.take (k + 1) := by
    calc s.upTo s.entries[k].id
        = (s.entries.take (k + 1) ++ s.entries.drop (k + 1)).filter
            (fun e => e.id ≤ s.entries[k].id) := by rw [← hsplit]; rfl
      _ = s.entries.take (k + 1) := by rw [List.filter_append, hlow, hhigh, List.append_nil]
  rw [hup, List.length_take]
  omega

end Listeners

open Listeners

theorem next_le_apply (s : Listeners F) (o : Operation F) : s.next ≤ (o.apply s).next := by
  cases o with
  | add func => exact Nat.le_succ _
  | remove func => exact Nat.le_refl _

/-- An operation may take away what is registered, and what it adds is later. -/
theorem upTo_apply (s : Listeners F) (o : Operation F) {n : Nat} (h : n < s.next) :
    ((o.apply s).upTo n).Sublist (s.upTo n) := by
  cases o with
  | add func =>
      have hnew : ¬ s.next ≤ n := by omega
      simp only [Operation.apply, addEventListener, upTo, List.filter_append,
        List.filter_singleton, decide_eq_false hnew, cond_false, List.append_nil]
      exact List.Sublist.refl _
  | remove func => exact List.Sublist.filter _ List.eraseP_sublist

theorem next_le_after (t : Turn F V) : t.before.next ≤ t.after.next := by
  apply List.foldlRecOn (motive := fun s : Listeners F => t.before.next ≤ s.next)
    t.reaction.operations Operation.apply (Nat.le_refl _)
  intro s hs o _
  exact Nat.le_trans hs (next_le_apply s o)

/-- Operations may take away what is registered, and what they add is later. -/
theorem upTo_foldl (os : List (Operation F)) (s : Listeners F) {n : Nat} (h : n < s.next) :
    ((os.foldl Operation.apply s).upTo n).Sublist (s.upTo n) := by
  induction os generalizing s with
  | nil => exact List.Sublist.refl _
  | cons o os ih =>
      have hnext := Nat.lt_of_lt_of_le h (next_le_apply s o)
      exact (ih _ hnext).trans (upTo_apply s o h)

theorem upTo_after (t : Turn F V) {n : Nat} (h : n < t.before.next) :
    (t.after.upTo n).Sublist (t.before.upTo n) :=
  upTo_foldl t.reaction.operations t.before h

/-- What is registered after a turn, and was so before the numbers it gave, was
registered before it. -/
theorem mem_before {t : Turn F V} {e : Registration F} (h : e.id < t.before.next)
    (he : e ∈ t.after.entries) : e ∈ t.before.entries := by
  have hafter : e ∈ t.after.upTo e.id := mem_upTo.mpr ⟨he, Nat.le_refl _⟩
  exact (mem_upTo.mp ((upTo_after t h).subset hafter)).1

/-- Where nothing up to a number is removed in a turn, what is up to it stays. -/
theorem length_upTo_after {t : Turn F V} {n : Nat} (h : n < t.before.next)
    (hkept : ∀ e ∈ t.before.entries, e.id ≤ n → e ∈ t.after.entries) :
    (t.after.upTo n).length = (t.before.upTo n).length := by
  apply Nat.le_antisymm (upTo_after t h).length_le
  have hnodup : (t.before.upTo n).Nodup := by
    have hsorted := t.before.sorted.imp fun {a b} hab => by
      show a ≠ b
      rintro rfl
      exact Nat.lt_irrefl _ hab
    exact hsorted.filter _
  have hsubset : t.before.upTo n ⊆ t.after.upTo n := by
    intro e he
    obtain ⟨hmem, hle⟩ := mem_upTo.mp he
    exact mem_upTo.mpr ⟨hkept e hmem hle, hle⟩
  exact (hnodup.subperm hsubset).length_le

/-- A removal leaves less up to it. -/
theorem length_upTo_after_lt {t : Turn F V} {n : Nat} {e : Registration F}
    (h : n < t.before.next) (he : e ∈ t.before.entries) (hle : e.id ≤ n)
    (hgone : e ∉ t.after.entries) :
    (t.after.upTo n).length < (t.before.upTo n).length := by
  have hsub := upTo_after t h
  apply Nat.lt_of_le_of_ne hsub.length_le
  intro heq
  have hmem : e ∈ t.after.upTo n := by
    rw [hsub.eq_of_length heq]
    exact mem_upTo.mpr ⟨he, hle⟩
  exact hgone (mem_upTo.mp hmem).1

/-- The run goes on by a turn. -/
structure Makes (r : Run F V) (t : Turn F V) (r' : Run F V) : Prop where
  before : t.before = r.listeners
  listeners : r'.listeners = t.after
  trace : r'.trace = r.trace ++ [t]
  running : r'.exited = false ↔ ∃ value, t.reaction.outcome = .returns value

section

variable {behave}

theorem call_of_exited {item : Registration F} {r : Run F V} (h : r.exited = true) :
    call behave item r = r := by
  rw [call, if_pos h]

/-- A call, in one piece. -/
theorem makes_call (item : Registration F) {r : Run F V} (h : r.exited = false) :
    ∃ t : Turn F V, t.listener = item ∧ Makes r t (call behave item r) := by
  refine ⟨⟨item, r.listeners, behave r item⟩, rfl, ?_⟩
  cases houtcome : (behave r item).outcome with
  | throws => constructor <;> simp [call, h, houtcome]
  | returns value => constructor <;> simp [call, h, houtcome]

end

/-- The listener is registered and the loop has not come to its index. -/
def Run.Ahead (k : Nat) (r : Run F V) (e : Registration F) : Prop :=
  e ∈ r.listeners.entries ∧ k < (r.listeners.upTo e.id).length

/-- What holds of the loop at an index, whatever the listeners do. -/
structure Begun (s : Listeners F) (k : Nat) (r : Run F V) : Prop where
  olds : ∀ n < s.next, (r.listeners.upTo n).Sublist (s.upTo n)
  next : s.next ≤ r.listeners.next
  known : ∀ e ∈ r.called, e.id < r.listeners.next
  behind : ∀ e ∈ r.called, (r.listeners.upTo e.id).length ≤ k
  ordered : r.called.Pairwise fun a b => a.id < b.id
  registered : ∀ t ∈ r.trace, t.listener ∈ t.before.entries

/-- All is well so far: a listener from the start was called, is ahead, or was
removed before its turn. -/
structure Served (s : Listeners F) (k : Nat) (r : Run F V) : Prop where
  keeps : ∀ t ∈ r.trace, t.Keeps s
  served : ∀ e ∈ s.entries, e ∈ r.called ∨ (r.exited = false ∧ r.Ahead k e) ∨ r.Removed e

/-- A turn went wrong and a listener from the start is passed over. -/
structure Missed (s : Listeners F) (k : Nat) (r : Run F V) : Prop where
  breaks : ∃ t ∈ r.trace, ¬ t.Keeps s
  missed : ∃ e ∈ s.entries, e ∉ r.called ∧
    ((∃ t ∈ r.trace, e.id < t.listener.id ∧ e ∈ t.before.entries) ∨
      (e ∈ r.listeners.entries ∧
        (r.exited = true ∨ (r.listeners.upTo e.id).length ≤ k)))

omit [DecidableEq F] in
/-- What is ahead comes after what was called. -/
theorem Begun.lt_of_ahead {s : Listeners F} {k : Nat} {r : Run F V} (h : Begun s k r)
    {e c : Registration F} (he : r.Ahead k e) (hc : c ∈ r.called) : c.id < e.id := by
  by_contra hle
  have hsub := r.listeners.upTo_sublist (Nat.le_of_not_lt hle)
  have hbehind := h.behind c hc
  have hahead := he.2
  have hlen := hsub.length_le
  omega

omit [DecidableEq F] in
/-- The loop has begun with its first listener. -/
theorem Begun.begin (s : Listeners F) : Begun s 0 (begin s : Run F V) where
  olds := fun _ _ => List.Sublist.refl _
  next := Nat.le_refl _
  known := nofun
  behind := nofun
  ordered := List.Pairwise.nil
  registered := nofun

omit [DecidableEq F] in
/-- Without a turn only the index moves. -/
theorem Begun.pass {s : Listeners F} {k : Nat} {r : Run F V} (h : Begun s k r) :
    Begun s (k + 1) r :=
  { h with behind := fun e he => Nat.le_succ_of_le (h.behind e he) }

/-- What was missed stays missed. -/
theorem Missed.pass {s : Listeners F} {k : Nat} {r : Run F V} (h : Missed s k r) :
    Missed s (k + 1) r := by
  obtain ⟨e, hes, hnot, hpast⟩ := h.missed
  refine ⟨h.breaks, e, hes, hnot, ?_⟩
  rcases hpast with hturn | ⟨hmem, hexited | hle⟩
  · exact Or.inl hturn
  · exact Or.inr ⟨hmem, Or.inl hexited⟩
  · exact Or.inr ⟨hmem, Or.inr (Nat.le_succ_of_le hle)⟩

namespace Makes

variable {s : Listeners F} {k : Nat} {r r' : Run F V} {t : Turn F V}

theorem called (h : Makes r t r') : r'.called = r.called ++ [t.listener] := by
  rw [Run.called, h.trace, List.map_append, List.map_singleton]
  rfl

theorem mem_called (h : Makes r t r') {e : Registration F} :
    e ∈ r'.called ↔ e ∈ r.called ∨ e = t.listener := by
  rw [h.called, List.mem_append, List.mem_singleton]

theorem mem_trace (h : Makes r t r') {u : Turn F V} :
    u ∈ r'.trace ↔ u ∈ r.trace ∨ u = t := by
  rw [h.trace, List.mem_append, List.mem_singleton]

omit [DecidableEq F] in
/-- The listener is where the loop is. -/
theorem ahead (hitem : r.listeners.entries[k]? = some t.listener) : r.Ahead k t.listener := by
  refine ⟨List.mem_of_getElem? hitem, ?_⟩
  rw [length_upTo_of_getElem? hitem]
  exact Nat.lt_succ_self k

/-- A turn adds nothing that was registered before. -/
theorem upTo (h : Makes r t r') {n : Nat} (hn : n < r.listeners.next) :
    (r'.listeners.upTo n).Sublist (r.listeners.upTo n) := by
  rw [h.listeners, ← h.before]
  rw [← h.before] at hn
  exact upTo_after t hn

theorem next_le (h : Makes r t r') : r.listeners.next ≤ r'.listeners.next := by
  rw [h.listeners, ← h.before]
  exact next_le_after t

/-- After a turn the loop has gone on by one. -/
theorem begun (h : Makes r t r') (hb : Begun s k r)
    (hitem : r.listeners.entries[k]? = some t.listener) : Begun s (k + 1) r' := by
  have hmem := List.mem_of_getElem? hitem
  have hfresh := r.listeners.fresh t.listener hmem
  have hrank := length_upTo_of_getElem? hitem
  refine ⟨?_, ?_, ?_, ?_, ?_, ?_⟩
  · intro n hn
    exact (h.upTo (Nat.lt_of_lt_of_le hn hb.next)).trans (hb.olds n hn)
  · exact Nat.le_trans hb.next h.next_le
  · intro e he
    rcases h.mem_called.mp he with he | rfl
    · exact Nat.lt_of_lt_of_le (hb.known e he) h.next_le
    · exact Nat.lt_of_lt_of_le hfresh h.next_le
  · intro e he
    rcases h.mem_called.mp he with he | rfl
    · have hle := (h.upTo (hb.known e he)).length_le
      exact Nat.le_succ_of_le (Nat.le_trans hle (hb.behind e he))
    · rw [← hrank]
      exact (h.upTo hfresh).length_le
  · rw [h.called, List.pairwise_append]
    refine ⟨hb.ordered, List.pairwise_singleton _ _, ?_⟩
    intro a ha b hmemb
    obtain rfl := List.mem_singleton.mp hmemb
    exact hb.lt_of_ahead (ahead hitem) ha
  · intro u hu
    rcases h.mem_trace.mp hu with hu | rfl
    · exact hb.registered u hu
    · rw [h.before]
      exact hmem

/-- No call so far was of a later listener than this one. -/
theorem called_le (h : Makes r t r') (hb : Begun s k r)
    (hitem : r.listeners.entries[k]? = some t.listener) {u : Turn F V} (hu : u ∈ r'.trace) :
    u.listener.id ≤ t.listener.id := by
  rcases h.mem_trace.mp hu with hu | rfl
  · exact Nat.le_of_lt (hb.lt_of_ahead (ahead hitem) (List.mem_map_of_mem hu))
  · exact Nat.le_refl _

/-- What is gone before a turn is gone after it. -/
theorem removed (h : Makes r t r') {e : Registration F} (hknown : e.id < r.listeners.next)
    (he : r.Removed e) : r'.Removed e := by
  refine ⟨?_, ?_⟩
  · rw [h.listeners]
    intro hafter
    rw [← h.before] at hknown
    have hbefore := mem_before hknown hafter
    rw [h.before] at hbefore
    exact he.1 hbefore
  · intro u hu
    rcases h.mem_trace.mp hu with hu | rfl
    · exact he.2 u hu
    · intro _
      rw [h.before]
      exact he.1

/-- A later listener that the turn takes away is gone before its own turn. -/
theorem removed_of_lt (h : Makes r t r') (hb : Begun s k r)
    (hitem : r.listeners.entries[k]? = some t.listener) {e : Registration F}
    (hlt : t.listener.id < e.id) (he : e ∉ t.after.entries) : r'.Removed e := by
  refine ⟨?_, ?_⟩
  · rw [h.listeners]
    exact he
  · intro u hu hlater
    have hle := h.called_le hb hitem hu
    omega

/-- Of what is ahead only the listener of the turn itself is not later. -/
theorem eq_or_lt (hitem : r.listeners.entries[k]? = some t.listener) {e : Registration F}
    (he : r.Ahead k e) : e = t.listener ∨ t.listener.id < e.id := by
  have hrank := length_upTo_of_getElem? hitem
  rcases Nat.lt_trichotomy e.id t.listener.id with hlt | heq | hgt
  · have hless := length_upTo_lt (List.mem_of_getElem? hitem) hlt
    have hahead := he.2
    omega
  · exact Or.inl (eq_of_id_eq he.1 (List.mem_of_getElem? hitem) heq)
  · exact Or.inr hgt

/-- A turn that keeps the listeners serves them. -/
theorem served (h : Makes r t r') (hb : Begun s k r) (hs : Served s k r)
    (hitem : r.listeners.entries[k]? = some t.listener) (hkeeps : t.Keeps s) :
    Served s (k + 1) r' := by
  refine ⟨?_, ?_⟩
  · intro u hu
    rcases h.mem_trace.mp hu with hu | rfl
    · exact hs.keeps u hu
    · exact hkeeps
  intro e he
  rcases hs.served e he with hcalled | ⟨-, hahead⟩ | hremoved
  · exact Or.inl (h.mem_called.mpr (Or.inl hcalled))
  · rcases eq_or_lt hitem hahead with rfl | hlt
    · exact Or.inl (h.mem_called.mpr (Or.inr rfl))
    right
    by_cases hafter : e ∈ t.after.entries
    · rcases hkeeps with ⟨hreturns, hkept⟩ | hnone
      · left
        -- what is up to the listener has stayed, so the next index is behind it
        have hfresh := r.listeners.fresh _ (List.mem_of_getElem? hitem)
        have hrank := length_upTo_of_getElem? hitem
        rw [← h.before] at hfresh hrank
        have hsame := length_upTo_after hfresh hkept
        have hmore := length_upTo_lt hafter hlt
        refine ⟨h.running.mpr hreturns, ?_, ?_⟩
        · rw [h.listeners]
          exact hafter
        · rw [h.listeners]
          omega
      · exact absurd hafter (hnone e he hlt)
    · exact Or.inr (h.removed_of_lt hb hitem hlt hafter)
  · have hknown := Nat.lt_of_lt_of_le (s.fresh e he) hb.next
    exact Or.inr (Or.inr (h.removed hknown hremoved))

/-- Where a turn takes away what is up to it and a later listener from the start is
left, one of these comes to stand where the loop has been. -/
theorem exists_passed (h : Makes r t r') (hb : Begun s k r)
    (hitem : r.listeners.entries[k]? = some t.listener) {e gone : Registration F}
    (he : e ∈ s.entries) (hlt : t.listener.id < e.id) (hafter : e ∈ t.after.entries)
    (hgone : gone ∈ t.before.entries) (hle : gone.id ≤ t.listener.id)
    (hnot : gone ∉ t.after.entries) :
    ∃ p ∈ s.entries, t.listener.id < p.id ∧ p ∈ t.after.entries ∧
      (t.after.upTo p.id).length ≤ k + 1 := by
  have hfresh := r.listeners.fresh _ (List.mem_of_getElem? hitem)
  have hrank := length_upTo_of_getElem? hitem
  rw [← h.before] at hfresh hrank
  have hless := length_upTo_after_lt hfresh hgone hle hnot
  have hmore := length_upTo_lt hafter hlt
  have hlength : (t.after.upTo e.id).length ≤ t.after.entries.length :=
    List.length_filter_le _ _
  -- the first that is later than the listener
  obtain ⟨p, hp⟩ : ∃ p, t.after.entries[(t.after.upTo t.listener.id).length]? = some p :=
    ⟨_, List.getElem?_eq_getElem (by omega)⟩
  have hpmem := List.mem_of_getElem? hp
  have hprank := length_upTo_of_getElem? hp
  have hlater : t.listener.id < p.id := by
    by_contra hnotlt
    have hup := (t.after.upTo_sublist (Nat.le_of_not_lt hnotlt)).length_le
    omega
  have hple : p.id ≤ e.id := by
    by_contra hnotle
    have hup := length_upTo_lt hpmem (Nat.lt_of_not_le hnotle)
    omega
  have holds := (h.begun hb hitem).olds e.id (s.fresh e he)
  rw [h.listeners] at holds
  have hps := holds.subset (mem_upTo.mpr ⟨hpmem, hple⟩)
  exact ⟨p, (mem_upTo.mp hps).1, hlater, hpmem, by omega⟩

/-- A turn that does not keep them makes the loop miss one. -/
theorem missed_of_breaks (h : Makes r t r') (hb : Begun s k r)
    (hitem : r.listeners.entries[k]? = some t.listener) (hbreaks : ¬ t.Keeps s) :
    Missed s (k + 1) r' := by
  have hlate : ∀ p : Registration F, t.listener.id < p.id → p ∉ r'.called := by
    intro p hp hcalled
    obtain ⟨u, hu, rfl⟩ := List.mem_map.mp hcalled
    exact Nat.not_le_of_lt hp (h.called_le hb hitem hu)
  obtain ⟨hnot, hleft⟩ := not_or.mp hbreaks
  push Not at hleft
  obtain ⟨e, hes, hlt, hafter⟩ := hleft
  refine ⟨⟨t, h.mem_trace.mpr (Or.inr rfl), hbreaks⟩, ?_⟩
  by_cases hexited : r'.exited = true
  · refine ⟨e, hes, hlate e hlt, Or.inr ⟨?_, Or.inl hexited⟩⟩
    rw [h.listeners]
    exact hafter
  · have hrunning := eq_false_of_ne_true hexited
    have hgone : ∃ gone ∈ t.before.entries,
        gone.id ≤ t.listener.id ∧ gone ∉ t.after.entries := by
      by_contra hall
      push Not at hall
      exact hnot ⟨h.running.mp hrunning, hall⟩
    obtain ⟨gone, hmem, hle, hnotmem⟩ := hgone
    obtain ⟨p, hps, hplt, hpafter, hprank⟩ :=
      h.exists_passed hb hitem hes hlt hafter hmem hle hnotmem
    refine ⟨p, hps, hlate p hplt, Or.inr ⟨?_, Or.inr ?_⟩⟩
    · rw [h.listeners]
      exact hpafter
    · rw [h.listeners]
      exact hprank

/-- What is passed over is not called any more. -/
theorem missed (h : Makes r t r') (hb : Begun s k r) (hm : Missed s k r)
    (hr : r.exited = false) (hitem : r.listeners.entries[k]? = some t.listener) :
    Missed s (k + 1) r' := by
  obtain ⟨u, hu, hbreaks⟩ := hm.breaks
  obtain ⟨e, hes, hnot, hpast⟩ := hm.missed
  have hlt : e.id < t.listener.id := by
    rcases hpast with ⟨v, hv, hlater, -⟩ | ⟨hmem, hexited | hle⟩
    · exact Nat.lt_trans hlater (hb.lt_of_ahead (ahead hitem) (List.mem_map_of_mem hv))
    · rw [hr] at hexited
      cases hexited
    · by_contra hge
      have hup := (r.listeners.upTo_sublist (Nat.le_of_not_lt hge)).length_le
      rw [length_upTo_of_getElem? hitem] at hup
      omega
  refine ⟨⟨u, h.mem_trace.mpr (Or.inl hu), hbreaks⟩, e, hes, ?_, Or.inl ?_⟩
  · intro hcalled
    rcases h.mem_called.mp hcalled with hcalled | rfl
    · exact hnot hcalled
    · exact Nat.lt_irrefl _ hlt
  · rcases hpast with ⟨v, hv, hlater⟩ | ⟨hmem, -⟩
    · exact ⟨v, h.mem_trace.mpr (Or.inl hv), hlater⟩
    · refine ⟨t, h.mem_trace.mpr (Or.inr rfl), hlt, ?_⟩
      rw [h.before]
      exact hmem

end Makes

variable {behave}

/-- The loop at an index. -/
def Holds (s : Listeners F) (k : Nat) (r : Run F V) : Prop :=
  Begun s k r ∧ (Served s k r ∨ Missed s k r)

theorem holds_begin (s : Listeners F) : Holds s 0 (begin s : Run F V) := by
  refine ⟨Begun.begin s, Or.inl ⟨nofun, ?_⟩⟩
  intro e he
  have hmem : e ∈ s.upTo e.id := mem_upTo.mpr ⟨he, Nat.le_refl _⟩
  exact Or.inr (Or.inl ⟨rfl, he, List.length_pos_of_mem hmem⟩)

/-- Where nothing is ahead the index may move. -/
theorem Served.pass {s : Listeners F} {k : Nat} {r : Run F V} (h : Served s k r)
    (hnone : r.exited = false → ∀ e, ¬ r.Ahead k e) : Served s (k + 1) r := by
  refine ⟨h.keeps, ?_⟩
  intro e he
  rcases h.served e he with hcalled | ⟨hr, hahead⟩ | hremoved
  · exact Or.inl hcalled
  · exact absurd hahead (hnone hr e)
  · exact Or.inr (Or.inr hremoved)

/-- What is to hold does past a place at which nothing is called. -/
theorem Holds.pass {s : Listeners F} {k : Nat} {r : Run F V} (h : Holds s k r)
    (hnone : r.exited = false → ∀ e, ¬ r.Ahead k e) : Holds s (k + 1) r := by
  refine ⟨h.1.pass, ?_⟩
  rcases h.2 with hserved | hmissed
  · exact Or.inl (hserved.pass hnone)
  · exact Or.inr hmissed.pass

/-- What is to hold does past a place at which a listener is called. -/
theorem Holds.call {s : Listeners F} {k : Nat} {r : Run F V} {item : Registration F}
    (h : Holds s k r) (hitem : r.listeners.entries[k]? = some item) :
    Holds s (k + 1) (call behave item r) := by
  cases hr : r.exited with
  | true =>
      rw [call_of_exited hr]
      refine h.pass ?_
      intro hrunning
      rw [hr] at hrunning
      cases hrunning
  | false =>
      obtain ⟨t, rfl, hmakes⟩ := @makes_call F V _ behave item r hr
      refine ⟨hmakes.begun h.1 hitem, ?_⟩
      rcases h.2 with hserved | hmissed
      · by_cases hkeeps : t.Keeps s
        · exact Or.inl (hmakes.served h.1 hserved hitem hkeeps)
        · exact Or.inr (hmakes.missed_of_breaks h.1 hitem hkeeps)
      · exact Or.inr (hmakes.missed h.1 hmissed hr hitem)

omit [DecidableEq F] in
/-- Nothing is ahead of an index with as much behind it as there is. -/
theorem not_ahead {k : Nat} {r : Run F V} {e : Registration F}
    (h : (r.listeners.upTo e.id).length ≤ k) : ¬ r.Ahead k e :=
  fun hahead => Nat.not_lt_of_le h hahead.2

/-- What is to hold does at the end. -/
theorem holds_fireEvent (s : Listeners F) :
    Holds s s.entries.length (fireEvent behave s) := by
  have hturn : ∀ (k : Nat) (r : Run F V) (item : Registration F), Holds s k r →
      r.listeners.entries[k]? = some item → Holds s (k + 1) (call behave item r) :=
    fun _ _ _ h hitem => h.call hitem
  have hnone : ∀ (k : Nat) (r : Run F V), Holds s k r →
      r.listeners.entries[k]? = none → Holds s (k + 1) r := by
    intro k r h hnone
    refine h.pass ?_
    intro _ e
    apply not_ahead
    exact Nat.le_trans (List.length_filter_le _ _) (List.getElem?_eq_none_iff.mp hnone)
  exact @forEach_invariant _ _ (fun r : Run F V => r.listeners.entries) (call behave) (Holds s)
    hturn hnone (begin s) (holds_begin s)

/-- At the end what was passed over is neither called nor removed in time. -/
theorem Missed.not_dispatches {s : Listeners F} {k : Nat} {r : Run F V} (h : Missed s k r) :
    ¬ Dispatches s r := by
  intro hd
  obtain ⟨e, hes, hnot, hpast⟩ := h.missed
  rcases hd.served e hes with hcalled | hremoved
  · exact hnot hcalled
  · rcases hpast with ⟨t, ht, hlater, hmem⟩ | ⟨hmem, -⟩
    · exact hremoved.2 t ht hlater hmem
    · exact hremoved.1 hmem

/-- **Event dispatch.**  The listeners registered at the start are called in order,
each once unless it is removed before its turn, exactly when each listener called
returns and leaves what is registered up to it, or leaves none of them to come. -/
theorem fireEvent_dispatches_iff (behave : Run F V → Registration F → Reaction F V)
    (s : Listeners F) :
    Dispatches s (fireEvent behave s) ↔ ∀ t ∈ (fireEvent behave s).trace, t.Keeps s := by
  obtain ⟨hbegun, hserved | hmissed⟩ := @holds_fireEvent F V _ behave s
  · refine ⟨fun _ => hserved.keeps, fun _ => ⟨hbegun.ordered, hbegun.registered, ?_⟩⟩
    intro e he
    rcases hserved.served e he with hcalled | ⟨-, hahead⟩ | hremoved
    · exact Or.inl hcalled
    · have hle := (hbegun.olds e.id (s.fresh e he)).length_le
      exact absurd hahead (not_ahead (Nat.le_trans hle (List.length_filter_le _ _)))
    · exact Or.inr hremoved
  · obtain ⟨t, ht, hbreaks⟩ := hmissed.breaks
    exact ⟨fun hd => absurd hd hmissed.not_dispatches,
      fun hall => absurd (hall t ht) hbreaks⟩

/-- A run that goes on has the listener called. -/
theorem called_call_of_returns {r : Run F V} {item : Registration F} (hr : r.exited = false)
    (h : ∃ value, (behave r item).outcome = .returns value) :
    (call behave item r).called = r.called ++ [item] ∧
      (call behave item r).exited = false := by
  obtain ⟨value, hvalue⟩ := h
  simp [call, hr, hvalue, Run.called]

/-- Operations that only add leave what is registered where it is. -/
theorem prefix_foldl_of_adds (os : List (Operation F)) (s : Listeners F)
    (hadds : ∀ o ∈ os, ∃ func, o = Operation.add func) :
    s.entries <+: (os.foldl Operation.apply s).entries := by
  induction os generalizing s with
  | nil => exact List.prefix_refl _
  | cons o os ih =>
      obtain ⟨func, rfl⟩ := hadds o List.mem_cons_self
      have hrest := ih (s.addEventListener func) fun o ho => hadds o (List.mem_cons_of_mem _ ho)
      exact (List.prefix_append s.entries _).trans hrest

/-- Where all return, all are called. -/
theorem called_foldl_of_returns
    (hreturns : ∀ r item, ∃ value, (behave r item).outcome = .returns value)
    (es : List (Registration F)) {r : Run F V} (hr : r.exited = false) :
    (es.foldl (fun r item => call behave item r) r).called = r.called ++ es := by
  induction es generalizing r with
  | nil => simp
  | cons item es ih =>
      obtain ⟨hcalled, hrunning⟩ := called_call_of_returns hr (hreturns r item)
      rw [List.foldl_cons, ih hrunning, hcalled, List.append_assoc, List.singleton_append]

/-- **Listeners that only add.**  All that is registered at the start is called. -/
theorem called_of_adds
    (hadds : ∀ r item, ∀ o ∈ (behave r item).operations, ∃ func, o = Operation.add func)
    (hreturns : ∀ r item, ∃ value, (behave r item).outcome = .returns value)
    (s : Listeners F) : (fireEvent behave s).called = s.entries := by
  have happend : ∀ (item : Registration F) (r : Run F V),
      r.listeners.entries <+: (call behave item r).listeners.entries := by
    intro item r
    obtain ⟨value, hvalue⟩ := hreturns r item
    cases hr : r.exited with
    | true =>
        have hsame := @call_of_exited F V _ behave item r hr
        exact hsame.symm ▸ List.prefix_refl _
    | false =>
        simpa [call, hr, hvalue, Turn.after] using
          prefix_foldl_of_adds _ r.listeners (hadds r item)
  rw [fireEvent, forEach_of_append happend]
  exact called_foldl_of_returns hreturns s.entries (r := begin s) rfl

/-- `once` by hand: each listener removes itself when it is called. -/
def once (_ : Run Nat Nat) (item : Registration Nat) : Reaction Nat Nat :=
  ⟨[.remove item.func], .returns none⟩

/-- Nobody listens. -/
def noListeners : Listeners Nat := ⟨[], 0, List.Pairwise.nil, nofun⟩

/-- Of two listeners the first removes itself, and the second is not called. -/
theorem removes_itself :
    ¬ Dispatches ((noListeners.addEventListener 1).addEventListener 2)
      (fireEvent once ((noListeners.addEventListener 1).addEventListener 2)) := by
  intro h
  rcases h.served ⟨1, 2⟩ (by decide) with hcalled | hremoved
  · exact absurd hcalled (by decide)
  · exact hremoved.1 (by decide)

end Dispatch

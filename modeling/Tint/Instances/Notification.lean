import Tint.Isolation
import Mathlib.Logic.Function.Basic

/-!
# Notification on the Mac

The notification center has one delegate, which each constructor of Notification_mac.js
replaces: the calls for all notifications go to the listeners of the newest one.  The
delegate's class is named with a random number.  Classes are never disposed of, so a
constructor that draws the number of an earlier one throws, and there is no notification.

* `isolated_iff` -- notifications see what they would see alone as long as no number is
  drawn twice and the center calls for those of the newest only.
-/

namespace Instances

open Transition Isolation

namespace Notification

/-- `activationType`, as the callback tells it apart. -/
inductive Activation
  | contents
  | button
  | unknown
  deriving DecidableEq

/-- What the listeners of a notification get. -/
inductive Event
  | fired
  | click (what : Activation)
  deriving DecidableEq

/-- What is delivered to the notification center. -/
structure Delivery where
  title : String
  informativeText : String
  sound : Bool
  image : Option String
  actionButtonTitle : Option String
  deriving DecidableEq

/-- The variables of the constructor, what was delivered, what `dispatch` returned and
what the listeners got. -/
structure Note where
  titlestring : String
  textstring : String
  subtitlestring : String
  soundEnabled : Bool
  actionbuttontitle : String
  image : Option String
  deliveries : List Delivery
  returned : List Bool
  events : List Event
  deriving DecidableEq

/-- `delegate` is the instance whose delegate the notification center has, and `classes`
has the numbers of the classes that were allocated. -/
structure State where
  classes : List Nat
  delegate : Option Nat
  notes : Nat → Option Note

/-- The setters. -/
inductive Property
  | title (e : String)
  | subtitle (e : String)
  | text (e : String)
  | sound (e : Bool)
  | buttonLabel (e : String)
  | image (e : Option String)

/-- `random` is what `Math.round(Math.random()*10000)` comes to.  `didDeliver` and
`didActivate` are the calls of the notification center for a notification that the instance
has dispatched. -/
inductive Action
  | construct (i : Nat) (random : Nat)
  | set (i : Nat) (e : Property)
  | dispatch (i : Nat)
  | didDeliver (i : Nat)
  | didActivate (i : Nat) (what : Activation)

def new : Note where
  titlestring := ""
  textstring := ""
  subtitlestring := ""
  soundEnabled := false
  actionbuttontitle := ""
  image := none
  deliveries := []
  returned := []
  events := []

def set (d : Note) : Property → Note
  | .title e => { d with titlestring := e }
  | .subtitle e => { d with subtitlestring := e }
  | .text e => { d with textstring := e }
  | .sound e => { d with soundEnabled := e }
  | .buttonLabel e => { d with actionbuttontitle := e }
  | .image e => { d with image := e }

/-- `dispatch`.  Without a package there is no center. -/
def dispatch (packaged : Bool) (d : Note) : Note :=
  if packaged = false ∨ d.titlestring = "" ∨ d.textstring = "" then
    { d with returned := d.returned ++ [false] }
  else
    { d with
      deliveries := d.deliveries ++ [{
        title := d.titlestring
        informativeText := d.textstring
        sound := d.soundEnabled
        image := d.image
        actionButtonTitle :=
          if d.actionbuttontitle = "" then none else some d.actionbuttontitle }]
      returned := d.returned ++ [true] }

/-- The delegate's methods, bound to the instance that made it. -/
def deliver (s : State) (i : Nat) (e : Event) : State :=
  match s.notes i with
  | some d =>
    if d.deliveries = [] then s
    else
      match s.delegate with
      | some k =>
        { s with
          notes := Function.update s.notes k
            ((s.notes k).map fun d => { d with events := d.events ++ [e] }) }
      | none => s
  | none => s

def step (packaged : Bool) (s : State) : Action → State
  | .construct i random =>
    match s.notes i with
    | some _ => s
    | none =>
      -- `extend`: 'New Class could not be allocated'
      if random ∈ s.classes then s
      else
        { classes := random :: s.classes,
          delegate := if packaged then some i else s.delegate,
          notes := Function.update s.notes i (some new) }
  | .set i e => { s with notes := Function.update s.notes i ((s.notes i).map fun d => set d e) }
  | .dispatch i =>
    { s with notes := Function.update s.notes i ((s.notes i).map (dispatch packaged)) }
  | .didDeliver i => deliver s i .fired
  | .didActivate i what => deliver s i (.click what)

def owner : Action → Nat
  | .construct i _ => i
  | .set i _ => i
  | .dispatch i => i
  | .didDeliver i => i
  | .didActivate i _ => i

def component (packaged : Bool) : Component State Action (Option Note) where
  start := ⟨[], none, fun _ => none⟩
  step := step packaged
  owner := owner
  view := fun s i => s.notes i

/-- A constructor draws a number that is free, and a call of the center is for a
notification of the newest instance. -/
def Ok (s : State) : Action → Prop
  | .construct i random => s.notes i ≠ none ∨ random ∉ s.classes
  | .didDeliver i => ∀ d, s.notes i = some d → d.deliveries ≠ [] → s.delegate = some i
  | .didActivate i _ => ∀ d, s.notes i = some d → d.deliveries ≠ [] → s.delegate = some i
  | _ => True

variable {packaged : Bool}

/-- What has been delivered was so in a package, where the center has the delegate of an
instance; alone it is that of the instance itself, and no class is there before it. -/
structure Sound (packaged : Bool) (p : Pair State) : Prop where
  delivered : ∀ i d, p.common.notes i = some d → d.deliveries ≠ [] → packaged = true
  common : packaged = true → ∀ i, p.common.notes i ≠ none →
    ∃ k, p.common.delegate = some k ∧ p.common.notes k ≠ none
  alone : ∀ i, packaged = true → (p.alone i).notes i ≠ none → (p.alone i).delegate = some i
  fresh : ∀ i, (p.alone i).notes i = none → (p.alone i).classes = []

/-- The note that an update is for. -/
theorem notes_self (classes : List Nat) (delegate : Option Nat) (notes : Nat → Option Note)
    (k : Nat) (d : Option Note) :
    (State.mk classes delegate (Function.update notes k d)).notes k = d :=
  Function.update_self ..

/-- The other notes. -/
theorem notes_of_ne {classes : List Nat} {delegate : Option Nat} {notes : Nat → Option Note}
    {j k : Nat} (h : j ≠ k) (d : Option Note) :
    (State.mk classes delegate (Function.update notes k d)).notes j = notes j :=
  Function.update_of_ne h ..

/-- The center does not call for what was not delivered. -/
theorem deliver_of_not {s : State} {i : Nat} (e : Event)
    (h : ∀ d, s.notes i = some d → d.deliveries = []) : deliver s i e = s := by
  unfold deliver
  split
  case h_1 d hd => rw [if_pos (h d hd)]
  case h_2 => rfl

/-- It calls the delegate that it has. -/
theorem deliver_of_delegate {s : State} {i k : Nat} {d e : Note} (event : Event)
    (hd : s.notes i = some d) (hdeliveries : d.deliveries ≠ []) (hk : s.delegate = some k)
    (he : s.notes k = some e) : deliver s i event =
      { s with
        notes := Function.update s.notes k (some { e with events := e.events ++ [event] }) } := by
  simp only [deliver, hd, if_neg hdeliveries, hk, he, Option.map_some]

/-- One note changes. -/
def State.modify (s : State) (k : Nat) (g : Note → Note) : State :=
  { s with notes := Function.update s.notes k ((s.notes k).map g) }

/-- The note that a change is for. -/
theorem modify_self (s : State) (k : Nat) (g : Note → Note) :
    (s.modify k g).notes k = (s.notes k).map g :=
  Function.update_self ..

/-- The other notes. -/
theorem modify_of_ne (s : State) {j k : Nat} (g : Note → Note) (h : j ≠ k) :
    (s.modify k g).notes j = s.notes j :=
  Function.update_of_ne h ..

/-- A change makes no note and takes none away. -/
theorem modify_eq_none (s : State) (j k : Nat) (g : Note → Note) :
    (s.modify k g).notes j = none ↔ s.notes j = none := by
  by_cases hj : j = k
  · subst hj
    rw [modify_self, Option.map_eq_none_iff]
  · rw [modify_of_ne s g hj]

/-- What the calls of the center come to. -/
theorem deliver_cases (s : State) (i : Nat) (e : Event) : deliver s i e = s ∨
    ∃ k, deliver s i e = s.modify k fun d => { d with events := d.events ++ [e] } := by
  cases hd : s.notes i with
  | none => exact Or.inl (by simp only [deliver, hd])
  | some d =>
      by_cases hdeliveries : d.deliveries = []
      · exact Or.inl (by simp only [deliver, hd, if_pos hdeliveries])
      · cases hk : s.delegate with
        | none => exact Or.inl (by simp only [deliver, hd, hk, ite_self])
        | some k =>
            refine Or.inr ⟨k, ?_⟩
            simp only [deliver, hd, if_neg hdeliveries, hk, State.modify]

/-- Beside the constructor an action changes one note, and delivers in a package only. -/
theorem step_cases (packaged : Bool) (s : State) (a : Action)
    (ha : ∀ i random, a ≠ .construct i random) :
    step packaged s a = s ∨ ∃ k g, step packaged s a = s.modify k g ∧
      ∀ d, (g d).deliveries ≠ [] → d.deliveries ≠ [] ∨ packaged = true := by
  cases a with
  | construct i random => exact absurd rfl (ha i random)
  | set i e =>
      refine Or.inr ⟨i, fun d => set d e, rfl, ?_⟩
      intro d hd
      left
      cases e <;> exact hd
  | dispatch i =>
      refine Or.inr ⟨i, dispatch packaged, rfl, ?_⟩
      intro d hd
      cases packaged with
      | true => exact Or.inr rfl
      | false =>
          left
          simpa [dispatch] using hd
  | didDeliver i =>
      rcases deliver_cases s i .fired with hsame | ⟨k, hk⟩
      · exact Or.inl hsame
      · exact Or.inr ⟨k, _, hk, fun d hd => Or.inl hd⟩
  | didActivate i what =>
      rcases deliver_cases s i (.click what) with hsame | ⟨k, hk⟩
      · exact Or.inl hsame
      · exact Or.inr ⟨k, _, hk, fun d hd => Or.inl hd⟩

/-- A constructor that draws a free number. -/
theorem step_construct {s : State} {i random : Nat} (hi : s.notes i = none)
    (hfree : random ∉ s.classes) : step packaged s (.construct i random) =
      { classes := random :: s.classes,
        delegate := if packaged then some i else s.delegate,
        notes := Function.update s.notes i (some new) } := by
  simp only [step, hi, if_neg hfree]

/-- One that does not, or a second one, does nothing. -/
theorem step_construct_still {s : State} {i random : Nat}
    (h : ¬ (s.notes i = none ∧ random ∉ s.classes)) :
    step packaged s (.construct i random) = s := by
  cases hi : s.notes i with
  | some d => simp only [step, hi]
  | none =>
      have htaken : random ∈ s.classes := by
        by_contra hfree
        exact h ⟨hi, hfree⟩
      simp only [step, hi, if_pos htaken]

/-- Nothing is delivered but in a package. -/
theorem delivered_step {s : State} (a : Action)
    (h : ∀ i d, s.notes i = some d → d.deliveries ≠ [] → packaged = true) :
    ∀ i d, (step packaged s a).notes i = some d → d.deliveries ≠ [] → packaged = true := by
  by_cases ha : ∃ i random, a = .construct i random
  · obtain ⟨i, random, rfl⟩ := ha
    by_cases hi : s.notes i = none ∧ random ∉ s.classes
    · rw [step_construct hi.1 hi.2]
      intro j d hd hdeliveries
      by_cases hj : j = i
      · subst hj
        rw [notes_self] at hd
        obtain rfl := Option.some.inj hd
        exact absurd rfl hdeliveries
      · rw [notes_of_ne hj] at hd
        exact h j d hd hdeliveries
    · rw [step_construct_still hi]
      exact h
  · rcases step_cases packaged s a (fun i random hi => ha ⟨i, random, hi⟩) with
      hsame | ⟨k, g, hk, hg⟩
    · rw [hsame]
      exact h
    · rw [hk]
      intro j d hd hdeliveries
      by_cases hj : j = k
      · subst hj
        rw [modify_self] at hd
        obtain ⟨e, he, rfl⟩ := Option.map_eq_some_iff.mp hd
        rcases hg e hdeliveries with hbefore | hpackaged
        · exact h j e he hbefore
        · exact hpackaged
      · rw [modify_of_ne s g hj] at hd
        exact h j d hd hdeliveries

/-- In a package the center has the delegate of an instance that is there. -/
theorem delegate_step {s : State} (a : Action) (hpackaged : packaged = true)
    (h : ∀ i, s.notes i ≠ none → ∃ k, s.delegate = some k ∧ s.notes k ≠ none) :
    ∀ i, (step packaged s a).notes i ≠ none →
      ∃ k, (step packaged s a).delegate = some k ∧ (step packaged s a).notes k ≠ none := by
  by_cases ha : ∃ i random, a = .construct i random
  · obtain ⟨i, random, rfl⟩ := ha
    by_cases hi : s.notes i = none ∧ random ∉ s.classes
    · rw [step_construct hi.1 hi.2]
      intro j _
      refine ⟨i, if_pos hpackaged, ?_⟩
      rw [notes_self]
      exact Option.some_ne_none new
    · rw [step_construct_still hi]
      exact h
  · rcases step_cases packaged s a (fun i random hi => ha ⟨i, random, hi⟩) with
      hsame | ⟨k, g, hk, -⟩
    · rw [hsame]
      exact h
    · rw [hk]
      intro j hj
      rw [ne_eq, modify_eq_none] at hj
      obtain ⟨m, hm, hne⟩ := h j hj
      exact ⟨m, hm, fun hnone => hne ((modify_eq_none s m k g).mp hnone)⟩

/-- Alone an instance is the delegate. -/
theorem delegate_alone {s : State} {a : Action}
    (h : packaged = true → s.notes (owner a) ≠ none → s.delegate = some (owner a)) :
    packaged = true → (step packaged s a).notes (owner a) ≠ none →
      (step packaged s a).delegate = some (owner a) := by
  intro hpackaged hne
  by_cases ha : ∃ i random, a = .construct i random
  · obtain ⟨i, random, rfl⟩ := ha
    by_cases hi : s.notes i = none ∧ random ∉ s.classes
    · rw [step_construct hi.1 hi.2]
      exact if_pos hpackaged
    · rw [step_construct_still hi] at hne ⊢
      exact h hpackaged hne
  · rcases step_cases packaged s a (fun i random hi => ha ⟨i, random, hi⟩) with
      hsame | ⟨k, g, hk, -⟩
    · rw [hsame] at hne ⊢
      exact h hpackaged hne
    · rw [hk] at hne ⊢
      rw [ne_eq, modify_eq_none] at hne
      exact h hpackaged hne

/-- Alone there is no class before the instance's own. -/
theorem fresh_alone {s : State} {a : Action} (h : s.notes (owner a) = none → s.classes = []) :
    (step packaged s a).notes (owner a) = none → (step packaged s a).classes = [] := by
  intro hnone
  by_cases ha : ∃ i random, a = .construct i random
  · obtain ⟨i, random, rfl⟩ := ha
    by_cases hi : s.notes i = none ∧ random ∉ s.classes
    · rw [step_construct hi.1 hi.2] at hnone
      have hnew : some new = none := (notes_self ..).symm.trans hnone
      cases hnew
    · rw [step_construct_still hi] at hnone ⊢
      exact h hnone
  · rcases step_cases packaged s a (fun i random hi => ha ⟨i, random, hi⟩) with
      hsame | ⟨k, g, hk, -⟩
    · rw [hsame] at hnone ⊢
      exact h hnone
    · rw [hk] at hnone ⊢
      rw [modify_eq_none] at hnone
      exact h hnone

/-- **Step lemma.**  Every step keeps this. -/
theorem sound_step {p : Pair State} (h : Sound packaged p) (a : Action) :
    Sound packaged (Pair.step (component packaged) p a) where
  delivered := delivered_step a h.delivered
  common := fun hpackaged => delegate_step a hpackaged (h.common hpackaged)
  alone := Pair.alone_step (c := component packaged)
    (A := fun i s => packaged = true → s.notes i ≠ none → s.delegate = some i)
    (fun _ hs => delegate_alone hs) h.alone
  fresh := Pair.alone_step (c := component packaged)
    (A := fun i s => s.notes i = none → s.classes = [])
    (fun _ hs => fresh_alone hs) h.fresh

/-- A call of the center is seen alike exactly if it is for one of the newest instance. -/
theorem deliver_iff {p : Pair State} (hsound : Sound packaged p)
    (h : Pair.Agrees (component packaged) p) (i : Nat) (e : Event) :
    ((deliver p.common i e).notes i = (deliver (p.alone i) i e).notes i ∧
      ∀ j, j ≠ i → (deliver p.common i e).notes j = (p.alone j).notes j) ↔
      ∀ d, p.common.notes i = some d → d.deliveries ≠ [] → p.common.delegate = some i := by
  have hsame : ∀ j, p.common.notes j = (p.alone j).notes j := h
  by_cases hdelivered : ∃ d, p.common.notes i = some d ∧ d.deliveries ≠ []
  · obtain ⟨d, hd, hdeliveries⟩ := hdelivered
    have hd' : (p.alone i).notes i = some d := hsame i ▸ hd
    have hpackaged := hsound.delivered i d hd hdeliveries
    have hdelegate := hsound.alone i hpackaged (by rw [hd']; exact Option.some_ne_none d)
    obtain ⟨k, hk, hne⟩ := hsound.common hpackaged i (by rw [hd]; exact Option.some_ne_none d)
    obtain ⟨n, hn⟩ := Option.ne_none_iff_exists'.mp hne
    have halone := deliver_of_delegate e hd' hdeliveries hdelegate hd'
    have hcommon := deliver_of_delegate e hd hdeliveries hk hn
    rw [halone, hcommon, notes_self]
    constructor
    · intro ⟨hown, _⟩ d' hd'' _
      by_cases hki : k = i
      · rw [hk, hki]
      · have hik : i ≠ k := fun hik => hki hik.symm
        rw [notes_of_ne hik, hd] at hown
        have hevents := congrArg (fun d => d.events.length) (Option.some.inj hown)
        simp at hevents
    · intro hok
      have hki : k = i := Option.some.inj (hk.symm.trans (hok d hd hdeliveries))
      subst hki
      obtain rfl : d = n := Option.some.inj (hd.symm.trans hn)
      refine ⟨notes_self .., ?_⟩
      intro j hj
      rw [notes_of_ne hj]
      exact hsame j
  · have hnone : ∀ d, p.common.notes i = some d → d.deliveries = [] := by
      intro d hd
      by_contra hdeliveries
      exact hdelivered ⟨d, hd, hdeliveries⟩
    have hnone' : ∀ d, (p.alone i).notes i = some d → d.deliveries = [] := hsame i ▸ hnone
    rw [deliver_of_not e hnone, deliver_of_not e hnone']
    refine iff_of_true ⟨hsame i, fun j _ => hsame j⟩ ?_
    intro d hd hdeliveries
    exact absurd (hnone d hd) hdeliveries

/-- A change of the instance's own note is the same in both runs. -/
theorem modify_agrees {p : Pair State} (h : Pair.Agrees (component packaged) p) (i : Nat)
    (g : Note → Note) : (p.common.modify i g).notes i = ((p.alone i).modify i g).notes i ∧
      ∀ j, j ≠ i → (p.common.modify i g).notes j = (p.alone j).notes j := by
  have hsame : ∀ j, p.common.notes j = (p.alone j).notes j := h
  refine ⟨?_, ?_⟩
  · rw [modify_self, modify_self, hsame i]
  · intro j hj
    rw [modify_of_ne _ g hj]
    exact hsame j

/-- A constructor is seen alike exactly if its number is free. -/
theorem construct_iff {p : Pair State} (hsound : Sound packaged p)
    (h : Pair.Agrees (component packaged) p) (i random : Nat) :
    ((step packaged p.common (.construct i random)).notes i =
        (step packaged (p.alone i) (.construct i random)).notes i ∧
      ∀ j, j ≠ i → (step packaged p.common (.construct i random)).notes j =
        (p.alone j).notes j) ↔
      p.common.notes i ≠ none ∨ random ∉ p.common.classes := by
  have hsame : ∀ j, p.common.notes j = (p.alone j).notes j := h
  by_cases hi : p.common.notes i = none
  · have hi' : (p.alone i).notes i = none := hsame i ▸ hi
    have hfree : random ∉ (p.alone i).classes := by
      rw [hsound.fresh i hi']
      exact List.not_mem_nil
    rw [step_construct hi' hfree, notes_self]
    by_cases htaken : random ∈ p.common.classes
    · rw [step_construct_still (fun hboth => hboth.2 htaken), hi]
      exact iff_of_false nofun (not_or.mpr ⟨not_not_intro rfl, not_not_intro htaken⟩)
    · rw [step_construct hi htaken, notes_self]
      refine iff_of_true ⟨rfl, fun j hj => ?_⟩ (.inr htaken)
      rw [notes_of_ne hj]
      exact hsame j
  · have hi' : (p.alone i).notes i ≠ none := hsame i ▸ hi
    rw [step_construct_still (fun hboth => hi hboth.1),
      step_construct_still (fun hboth => hi' hboth.1)]
    exact iff_of_true ⟨hsame i, fun j _ => hsame j⟩ (.inl hi)

/-- What the instances see stays alike exactly in a step that meets the condition. -/
theorem agrees_step_iff {p : Pair State} (hsound : Sound packaged p)
    (h : Pair.Agrees (component packaged) p) (a : Action) :
    Pair.Agrees (component packaged) (Pair.step (component packaged) p a) ↔
      Ok p.common a := by
  rw [agrees_step]
  cases a with
  | construct i random => exact construct_iff hsound h i random
  | set i e => exact iff_of_true (modify_agrees h i fun d => set d e) trivial
  | dispatch i => exact iff_of_true (modify_agrees h i (dispatch packaged)) trivial
  | didDeliver i => exact deliver_iff hsound h i .fired
  | didActivate i what => exact deliver_iff hsound h i (.click what)

/-- Notifications see what they would see alone exactly as long as no number is drawn twice
and the center calls for those of the newest instance only. -/
theorem isolated_iff (packaged : Bool) (as : List Action) :
    Isolated (component packaged) as ↔
      Meets (component packaged).next Ok (component packaged).start as := by
  have hstart : Sound packaged (Pair.start (component packaged)) :=
    ⟨nofun, fun _ _ hne => absurd rfl hne, fun _ _ hne => absurd rfl hne, fun _ _ => rfl⟩
  have hkeeps : ∀ (p : Pair State) (a : Action), Sound packaged p →
      Pair.Agrees (component packaged) p →
      Pair.Agrees (component packaged) (Pair.step (component packaged) p a) →
      Sound packaged (Pair.step (component packaged) p a) :=
    fun _ a hsound _ _ => sound_step hsound a
  exact isolated_iff_meets hkeeps (fun _ a hsound h => agrees_step_iff hsound h a) hstart as

end Notification

end Instances

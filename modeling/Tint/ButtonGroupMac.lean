import Tint.ListEdit
import Tint.Transition
import Mathlib.Data.List.Nodup
import Mathlib.Logic.Function.Basic

/-!
# The segments of a button group on the Mac

`ButtonGroup_mac` shows its buttons as the segments of one native control.  The listener that
`appendChild` puts on a button writes the segment with the index that the button had then, and
`removeChild` cuts the last segment off, whichever button goes.  `appendChild` also enables or
disables the control, and with it all segments.  On a click the events of the button are fired
whose segment is selected; a segment that shows as disabled is not selected by a click.

* `segments_iff` -- each segment shows its button after every step of a run, and each click fires
  the events of its button, exactly when all steps meet a condition on the state before;
* `right_of_appended` -- so it is as long as buttons are removed from the end only, and none is
  disabled when it is appended or clicked;
* `segment_of_removed` -- otherwise a segment has the title of a button that has been removed.
-/

namespace ButtonGroupMac

open ListEdit Transition

/-- A text. -/
abbrev Text := List Char

/-- What a button or a segment shows; an image is the one that `makeNSImage` makes. -/
structure Look (I : Type) where
  image : Option I
  title : Text
  enabled : Bool
  deriving DecidableEq

/-- A property with its new value, as it comes with `property-change`. -/
inductive Property (I : Type)
  | image (value : Option I)
  | title (value : Text)
  | enabled (value : Bool)

/-- `private.outOfBoundsListener` of a button: none, that of another group, or the one that
writes segment `ndx` of this group. -/
inductive Listener
  | none
  | foreign
  | own (ndx : Nat)
  deriving DecidableEq

/-- The events that the proxy fires. -/
inductive Event
  | mousedown
  | click
  | mouseup
  deriving DecidableEq

/-- The buttons of the group with its native control, and what all buttons look like. -/
structure State (I : Type) where
  segmentedButtons : List Nat
  segments : List (Look I)
  /-- `isEnabled` of the control -/
  controlEnabled : Bool
  selectedSegment : Option Nat
  look : Nat → Look I
  listener : Nat → Listener
  exited : Bool

/-- What may happen to the group. -/
inductive Action (I : Type)
  | appendChild (button : Nat)
  | removeChild (button : Nat)
  | change (button : Nat) (p : Property I)
  | click (i : Nat)

section Model

variable {I : Type}

/-- A group that has just been constructed; some buttons are in others. -/
def start (controlEnabled : Bool) (look : Nat → Look I) (foreign : Nat → Bool) : State I where
  segmentedButtons := []
  segments := []
  controlEnabled := controlEnabled
  selectedSegment := none
  look := look
  listener := fun button => if foreign button then .foreign else .none
  exited := false

/-- A property of a button is set. -/
def Look.set (l : Look I) : Property I → Look I
  | .image value => { l with image := value }
  | .title value => { l with title := value }
  | .enabled value => { l with enabled := value }

/-- A new segment. -/
def blank : Look I := ⟨none, [], true⟩

/-- What a segment shows in an enabled or a disabled control. -/
def shown (controlEnabled : Bool) (segment : Look I) : Look I :=
  { segment with enabled := controlEnabled && segment.enabled }

/-- What such a control makes of a property. -/
def Property.shown (controlEnabled : Bool) : Property I → Property I
  | .enabled value => .enabled (controlEnabled && value)
  | p => p

-- which segment is selected when their number has changed
variable (afterCount : Nat → Option Nat → Option Nat)

/-- `setSegmentCount:`, which truncates at the end. -/
def setSegmentCount (s : State I) (count : Nat) : State I :=
  { s with
    segments := s.segments.take count ++ List.replicate (count - s.segments.length) blank
    selectedSegment := afterCount count s.selectedSegment }

/-- `appendChild`; the assertion throws on a button that has a listener. -/
def appendChild (s : State I) (button : Nat) : State I :=
  if s.listener button = .none then
    let ndx := s.segmentedButtons.length
    let look := s.look button
    let t := setSegmentCount afterCount s (ndx + 1)
    { t with
      segmentedButtons := s.segmentedButtons ++ [button]
      listener := Function.update s.listener button (.own ndx)
      segments := t.segments.modify ndx fun segment =>
        { segment with
          image := look.image.or segment.image
          title := if look.title = [] then segment.title else look.title }
      -- `setEnabled` without `forSegment`
      controlEnabled := look.enabled }
  else s

/-- The buttons after a removal; `splice(-1, 1)` takes out the last one. -/
def remaining (s : State I) (button : Nat) : List Nat :=
  if button ∈ s.segmentedButtons then s.segmentedButtons.erase button
  else s.segmentedButtons.dropLast

/-- `removeChild`; the assertion throws on a button that has no listener. -/
def removeChild (s : State I) (button : Nat) : State I :=
  if s.listener button = .none then s
  else
    setSegmentCount afterCount
      { s with
        segmentedButtons := remaining s button
        listener := Function.update s.listener button .none } (remaining s button).length

/-- A property of the button is set, after its listener has been called.  There is no segment
out of range: the native exception ends the process, in `fireEvent`. -/
def change (s : State I) (button : Nat) (p : Property I) : State I :=
  let look := Function.update s.look button ((s.look button).set p)
  match s.listener button with
  | .own ndx =>
      if ndx < s.segments.length then
        { s with segments := s.segments.modify ndx fun segment => segment.set p, look }
      else { s with exited := true }
  | _ => { s with look }

/-- The native control, while the mouse button is down. -/
def track (s : State I) (i : Nat) : State I :=
  if (s.segments[i]?).any fun segment => (shown s.controlEnabled segment).enabled then
    { s with selectedSegment := some i }
  else s

/-- The proxy for `mouseup`. -/
def mouseup (s : State I) : List (Nat × Event) :=
  match s.selectedSegment.bind fun ndx => s.segmentedButtons[ndx]? with
  | some button => [(button, .mousedown), (button, .click), (button, .mouseup)]
  | none => []

/-- What an action does. -/
def call (s : State I) : Action I → State I
  | .appendChild button => appendChild afterCount s button
  | .removeChild button => removeChild afterCount s button
  | .change button p => change s button p
  | .click i => track s i

/-- A call; behind one that threw there is none. -/
def step (s : State I) (a : Action I) : Option (State I) :=
  if s.exited then none else some (call afterCount s a)

/-! ## The property and the condition -/

/-- Segment `i` shows button `i`, and there are no others. -/
def Shows (s : State I) : Prop :=
  s.segments.map (shown s.controlEnabled) = s.segmentedButtons.map s.look

/-- A click on a segment fires the events of its button. -/
def Fires (s : State I) : Action I → Prop
  | .click i => ∀ button, s.segmentedButtons[i]? = some button →
      mouseup (track s i) = [(button, .mousedown), (button, .click), (button, .mouseup)]
  | _ => True

/-- **A right step.** -/
def Right (s : State I) (a : Action I) : Prop :=
  (call afterCount s a).exited = false ∧ Shows (call afterCount s a) ∧ Fires s a

/-- **The condition.**
* A button that has no listener is appended where each segment, in a control that is as enabled as
  this button, is as enabled as its own.
* A button is removed where all buttons behind it look as it does.
* A listener writes the segment of its button, and the control shows what it writes; or the
  button whose segment it writes looks so already, and so does the button itself if it is in the
  group.
* The button of the segment that is clicked is enabled, or it is selected. -/
def Keeps (s : State I) : Action I → Prop
  | .appendChild button => s.listener button = .none →
      s.segments.map (fun segment => (s.look button).enabled && segment.enabled) =
        s.segmentedButtons.map fun other => (s.look other).enabled
  | .removeChild button => ∀ (p i : Nat) other, s.segmentedButtons[p]? = some button → p ≤ i →
      s.segmentedButtons[i]? = some other → s.look other = s.look button
  | .change button p => ∀ ndx, s.listener button = .own ndx →
      ∃ other, s.segmentedButtons[ndx]? = some other ∧
        if other = button then p.shown s.controlEnabled = p
        else (s.look other).set (p.shown s.controlEnabled) = s.look other ∧
          (button ∈ s.segmentedButtons → (s.look button).set p = s.look button)
  | .click i => ∀ button, s.segmentedButtons[i]? = some button →
      (s.look button).enabled = true ∨ s.selectedSegment = some i

end Model

/-! ## One step -/

section Steps

variable {I : Type} {afterCount : Nat → Option Nat → Option Nat} {s : State I}

/-- No button is in the group twice, each has a listener, and the segments show them. -/
structure Associated (s : State I) : Prop where
  running : s.exited = false
  nodup : s.segmentedButtons.Nodup
  listeners : ∀ button ∈ s.segmentedButtons, ∃ ndx, s.listener button = .own ndx
  shows : Shows s

theorem Associated.length (h : Associated s) : s.segments.length = s.segmentedButtons.length := by
  have hlength := congrArg List.length h.shows
  rwa [List.length_map, List.length_map] at hlength

/-- A button without a listener is not in the group. -/
theorem Associated.not_mem (h : Associated s) {button : Nat} (hnone : s.listener button = .none) :
    button ∉ s.segmentedButtons := by
  intro hmem
  obtain ⟨ndx, hown⟩ := h.listeners button hmem
  rw [hnone] at hown
  cases hown

/-- A call that is refused is right. -/
theorem Associated.right_of_same (h : Associated s) {a : Action I}
    (hsame : call afterCount s a = s) (hfires : Fires s a) : Right afterCount s a := by
  rw [Right, hsame]
  exact ⟨h.running, h.shows, hfires⟩

theorem right_iff_shows {a : Action I} (hexited : (call afterCount s a).exited = false)
    (hfires : Fires s a) : Right afterCount s a ↔ Shows (call afterCount s a) :=
  ⟨fun hright => hright.2.1, fun hshows => ⟨hexited, hshows, hfires⟩⟩

/-- What a segment shows, which shows its button. -/
theorem Associated.segment (h : Associated s) {i button : Nat}
    (hi : s.segmentedButtons[i]? = some button) :
    ∃ segment, s.segments[i]? = some segment ∧ shown s.controlEnabled segment = s.look button := by
  have hat : (s.segments.map (shown s.controlEnabled))[i]? =
      (s.segmentedButtons.map s.look)[i]? := congrArg (fun l => l[i]?) h.shows
  rw [List.getElem?_map, List.getElem?_map, hi] at hat
  exact Option.map_eq_some_iff.mp hat

/-- With the control enabled or disabled otherwise, the segments show the same buttons if they
are as enabled as these. -/
theorem map_shown_iff {look : Nat → Look I} {e e' : Bool} {segments : List (Look I)}
    {buttons : List Nat} (h : segments.map (shown e) = buttons.map look) :
    segments.map (shown e') = buttons.map look ↔
      segments.map (fun segment => e' && segment.enabled) =
        buttons.map fun button => (look button).enabled := by
  induction segments generalizing buttons with
  | nil =>
      obtain rfl := List.map_eq_nil_iff.mp h.symm
      exact iff_of_true rfl rfl
  | cons segment segments ih =>
      cases buttons with
      | nil => cases h
      | cons button buttons =>
          simp only [List.map_cons, List.cons.injEq] at h ⊢
          refine and_congr ?_ (ih h.2)
          rw [← h.1, shown, shown, Look.mk.injEq]
          exact ⟨fun hlook => hlook.2.2, fun henabled => ⟨rfl, rfl, henabled⟩⟩

/-- The new segment. -/
theorem appendChild_segments (h : Associated s) {button : Nat} (hnone : s.listener button = .none) :
    (appendChild afterCount s button).segments =
      s.segments ++ [{ s.look button with enabled := true }] := by
  have hnew : (setSegmentCount afterCount s (s.segments.length + 1)).segments =
      s.segments ++ [blank] := by
    rw [setSegmentCount, List.take_of_length_le (Nat.le_succ _), Nat.add_sub_cancel_left]
    rfl
  have htitle : (if (s.look button).title = [] then [] else (s.look button).title) =
      (s.look button).title := by
    split
    · next hnil => exact hnil.symm
    · rfl
  simp only [appendChild, if_pos hnone, ← h.length, hnew]
  refine (List.modifyTailIdx_add _ 0 s.segments [blank]).trans ?_
  refine congrArg (fun segment => s.segments ++ [segment]) ?_
  rw [Look.mk.injEq]
  exact ⟨Option.or_none, htitle, rfl⟩

/-- It shows the new button. -/
theorem appendChild_shows_iff (h : Associated s) {button : Nat}
    (hnone : s.listener button = .none) :
    Shows (appendChild afterCount s button) ↔
      s.segments.map (shown (s.look button).enabled) = s.segmentedButtons.map s.look := by
  have hlook : (appendChild afterCount s button).look = s.look := by
    rw [appendChild, if_pos hnone]
    rfl
  have hbuttons : (appendChild afterCount s button).segmentedButtons =
      s.segmentedButtons ++ [button] := by rw [appendChild, if_pos hnone]
  have henabled : (appendChild afterCount s button).controlEnabled = (s.look button).enabled := by
    rw [appendChild, if_pos hnone]
  have hshown : shown (s.look button).enabled { s.look button with enabled := true } =
      s.look button := by
    rw [shown, Bool.and_true]
  rw [Shows, hlook, hbuttons, henabled, appendChild_segments h hnone, List.map_append,
    List.map_append, List.map_singleton, List.map_singleton, hshown]
  exact List.append_left_inj _

/-- Appending is right exactly if it keeps what is shown. -/
theorem appendChild_right_iff (h : Associated s) {button : Nat} :
    Right afterCount s (.appendChild button) ↔ Keeps s (.appendChild button) := by
  by_cases hnone : s.listener button = .none
  · have hexited : (call afterCount s (.appendChild button)).exited = false := by
      rw [call, appendChild, if_pos hnone]
      exact h.running
    rw [right_iff_shows hexited trivial, call, appendChild_shows_iff h hnone,
      map_shown_iff h.shows]
    exact ⟨fun hsame _ => hsame, fun hkeeps => hkeeps hnone⟩
  · have hsame : call afterCount s (.appendChild button) = s := if_neg hnone
    exact iff_of_true (h.right_of_same hsame trivial) fun hlistener => absurd hlistener hnone

/-- One button less remains. -/
theorem length_remaining (s : State I) (button : Nat) :
    (remaining s button).length = s.segmentedButtons.length - 1 := by
  rw [remaining]
  split
  · next hmem => exact List.length_erase_of_mem hmem
  · exact List.length_dropLast

/-- The last segment goes, whichever button does. -/
theorem removeChild_shows_iff (h : Associated s) {button : Nat}
    (hlistener : s.listener button ≠ .none) :
    Shows (removeChild afterCount s button) ↔
      (remaining s button).map s.look = (s.segmentedButtons.map s.look).dropLast := by
  have hsegments : (removeChild afterCount s button).segments = s.segments.dropLast := by
    have hlength := length_remaining s button
    rw [← h.length] at hlength
    rw [removeChild, if_neg hlistener]
    change s.segments.take (remaining s button).length ++
      List.replicate ((remaining s button).length - s.segments.length) blank = _
    rw [hlength, Nat.sub_eq_zero_of_le (Nat.sub_le _ _), List.replicate_zero, List.append_nil,
      List.dropLast_eq_take]
  have hrest : Shows (removeChild afterCount s button) ↔
      (removeChild afterCount s button).segments.map (shown s.controlEnabled) =
        (remaining s button).map s.look := by
    rw [Shows, removeChild, if_neg hlistener]
    exact Iff.rfl
  rw [hrest, hsegments, ← h.shows, List.map_dropLast]
  exact eq_comm

/-- All buttons from the removed one on look alike. -/
theorem removeChild_right_iff (h : Associated s) {button : Nat} :
    Right afterCount s (.removeChild button) ↔ Keeps s (.removeChild button) := by
  by_cases hlistener : s.listener button = .none
  · have hsame : call afterCount s (.removeChild button) = s := if_pos hlistener
    refine iff_of_true (h.right_of_same hsame trivial) fun p i other hp => ?_
    exact absurd (List.mem_of_getElem? hp) (h.not_mem hlistener)
  · have hexited : (call afterCount s (.removeChild button)).exited = false := by
      rw [call, removeChild, if_neg hlistener]
      exact h.running
    rw [right_iff_shows hexited trivial, call, removeChild_shows_iff h hlistener, remaining]
    by_cases hmem : button ∈ s.segmentedButtons
    · obtain ⟨p, hlt, hp⟩ := List.getElem_of_mem hmem
      have herase : s.segmentedButtons.erase button = s.segmentedButtons.eraseIdx p := by
        rw [← hp]
        exact List.Nodup.erase_getElem h.nodup p hlt
      have hp' : s.segmentedButtons[p]? = some button := List.getElem?_eq_some_iff.mpr ⟨hlt, hp⟩
      rw [if_pos hmem, herase, ← List.eraseIdx_map,
        eraseIdx_eq_dropLast_iff (by rwa [List.length_map])]
      simp only [List.length_map, List.getElem?_map, hp', Option.map_some]
      constructor
      · intro hsame q i other hq hi hother
        obtain rfl : p = q := (List.getElem?_inj hlt h.nodup).mp (hp'.trans hq.symm)
        have hi := hsame i hi (List.getElem?_eq_some_iff.mp hother).1
        rw [hother] at hi
        exact Option.some.inj hi
      · intro hkeeps i hi hilt
        have hother := List.getElem?_eq_getElem hilt
        rw [hother]
        exact congrArg some (hkeeps p i _ hp' hi hother)
    · rw [if_neg hmem, List.map_dropLast]
      exact iff_of_true rfl fun p i other hp => absurd (List.mem_of_getElem? hp) hmem

/-- What the control makes of a property, in a segment. -/
theorem shown_set (e : Bool) (segment : Look I) (p : Property I) :
    shown e (segment.set p) = (shown e segment).set (p.shown e) := by
  cases p <;> rfl

/-- A property is shown as it was set if it is the same on the segment. -/
theorem set_inj {l : Look I} {e : Bool} {p : Property I} :
    l.set (p.shown e) = l.set p ↔ p.shown e = p := by
  cases p with
  | image value => exact iff_of_true rfl rfl
  | title value => exact iff_of_true rfl rfl
  | enabled value => simp [Look.set, Property.shown]

/-- The listener of a button writes segment `ndx`. -/
theorem change_shows_iff (h : Associated s) {button ndx : Nat} {p : Property I}
    (hown : s.listener button = .own ndx) (hlt : ndx < s.segments.length) :
    Shows (change s button p) ↔ ∀ i other, s.segmentedButtons[i]? = some other →
      (if ndx = i then (s.look other).set (p.shown s.controlEnabled) else s.look other) =
        Function.update s.look button ((s.look button).set p) other := by
  have hmodify : (s.segments.modify ndx fun segment => segment.set p).map (shown s.controlEnabled) =
      (s.segmentedButtons.map s.look).modify ndx fun l => l.set (p.shown s.controlEnabled) := by
    rw [← h.shows]
    apply List.ext_getElem?
    intro i
    simp only [List.getElem?_map, List.getElem?_modify]
    cases s.segments[i]? with
    | none => rfl
    | some segment =>
        split
        · exact congrArg some (shown_set _ _ _)
        · rfl
  have hshows : Shows (change s button p) ↔
      (s.segments.modify ndx fun segment => segment.set p).map (shown s.controlEnabled) =
        s.segmentedButtons.map (Function.update s.look button ((s.look button).set p)) := by
    simp only [Shows, change, hown, if_pos hlt]
  rw [hshows, hmodify]
  exact modify_map_eq_iff

/-- The segment with the index that the listener has shows its button, and the button that
changes is shown. -/
theorem written_iff (h : Associated s) {button ndx other : Nat} {p : Property I}
    (hother : s.segmentedButtons[ndx]? = some other) :
    (∀ i a, s.segmentedButtons[i]? = some a →
      (if ndx = i then (s.look a).set (p.shown s.controlEnabled) else s.look a) =
        Function.update s.look button ((s.look button).set p) a) ↔
      if other = button then p.shown s.controlEnabled = p
      else (s.look other).set (p.shown s.controlEnabled) = s.look other ∧
        (button ∈ s.segmentedButtons → (s.look button).set p = s.look button) := by
  have hlt := (List.getElem?_eq_some_iff.mp hother).1
  constructor
  · intro hall
    have hat := hall ndx other hother
    rw [if_pos rfl] at hat
    split
    · next heq =>
      rw [heq, Function.update_self] at hat
      exact set_inj.mp hat
    · next hne =>
      rw [Function.update_of_ne hne] at hat
      refine ⟨hat, fun hmem => ?_⟩
      obtain ⟨i, hi⟩ := List.mem_iff_getElem?.mp hmem
      have hndx : ndx ≠ i := fun heq => hne (Option.some.inj (hother.symm.trans (heq ▸ hi)))
      have hself := hall i button hi
      rw [if_neg hndx, Function.update_self] at hself
      exact hself.symm
  · intro hkeeps i a hi
    by_cases hndx : ndx = i
    · subst hndx
      obtain rfl := Option.some.inj (hother.symm.trans hi)
      rw [if_pos rfl]
      split at hkeeps
      · next heq => rw [hkeeps, heq, Function.update_self]
      · next hne => rw [hkeeps.1, Function.update_of_ne hne]
    · rw [if_neg hndx]
      by_cases ha : a = button
      · subst ha
        have hne : other ≠ a := fun heq =>
          hndx ((List.getElem?_inj hlt h.nodup).mp (hother.trans (heq ▸ hi.symm)))
        rw [if_neg hne] at hkeeps
        rw [Function.update_self]
        exact (hkeeps.2 (List.mem_of_getElem? hi)).symm
      · rw [Function.update_of_ne ha]

/-- A button that this group does not listen to is none of it. -/
theorem change_right_of_foreign (h : Associated s) {button : Nat} (p : Property I)
    (hforeign : ¬ ∃ ndx, s.listener button = .own ndx) : Right afterCount s (.change button p) := by
  have hmem : button ∉ s.segmentedButtons := fun hmem => hforeign (h.listeners button hmem)
  have hchange : change s button p =
      { s with look := Function.update s.look button ((s.look button).set p) } := by
    rw [change]
    cases hlistener : s.listener button with
    | own ndx => exact absurd ⟨ndx, hlistener⟩ hforeign
    | none => rfl
    | foreign => rfl
  rw [Right, call, hchange]
  refine ⟨h.running, ?_, trivial⟩
  refine h.shows.trans (List.map_congr_left fun other hother => ?_)
  have hne : other ≠ button := fun heq => hmem (heq ▸ hother)
  exact (Function.update_of_ne hne _ _).symm

/-- A change is right exactly if it keeps what is shown. -/
theorem change_right_iff (h : Associated s) {button : Nat} {p : Property I} :
    Right afterCount s (.change button p) ↔ Keeps s (.change button p) := by
  by_cases hown : ∃ ndx, s.listener button = .own ndx
  · obtain ⟨ndx, hown⟩ := hown
    have hkeeps : Keeps s (.change button p) ↔ ∃ other, s.segmentedButtons[ndx]? = some other ∧
        if other = button then p.shown s.controlEnabled = p
        else (s.look other).set (p.shown s.controlEnabled) = s.look other ∧
          (button ∈ s.segmentedButtons → (s.look button).set p = s.look button) := by
      refine ⟨fun hkeeps => hkeeps ndx hown, fun hwritten ndx' hown' => ?_⟩
      obtain rfl := Listener.own.inj (hown.symm.trans hown')
      exact hwritten
    rw [hkeeps]
    rcases Nat.lt_or_ge ndx s.segments.length with hlt | hge
    · have hexited : (call afterCount s (.change button p)).exited = false := by
        simp only [call, change, hown, if_pos hlt]
        exact h.running
      obtain ⟨other, hother⟩ : ∃ other, s.segmentedButtons[ndx]? = some other :=
        ⟨_, List.getElem?_eq_getElem (h.length ▸ hlt)⟩
      rw [right_iff_shows hexited trivial, call, change_shows_iff h hown hlt,
        written_iff h hother, hother]
      simp only [Option.some.injEq, exists_eq_left']
    · have hexited : (call afterCount s (.change button p)).exited = true := by
        simp only [call, change, hown, if_neg (Nat.not_lt.mpr hge)]
      rw [h.length] at hge
      rw [Right, hexited, List.getElem?_eq_none hge]
      exact iff_of_false (fun hright => by cases hright.1) fun hwritten => by
        obtain ⟨other, hnone, -⟩ := hwritten
        cases hnone
  · exact iff_of_true (change_right_of_foreign h p hown) fun ndx hndx => absurd ⟨ndx, hndx⟩ hown

/-- The proxy fires the events of the button whose segment is selected. -/
theorem mouseup_iff (hnodup : s.segmentedButtons.Nodup) {i button : Nat}
    (hi : s.segmentedButtons[i]? = some button) :
    mouseup s = [(button, .mousedown), (button, .click), (button, .mouseup)] ↔
      s.selectedSegment = some i := by
  rw [mouseup]
  constructor
  · intro hfired
    cases hselected : s.selectedSegment with
    | none =>
        rw [hselected] at hfired
        cases hfired
    | some ndx =>
        rw [hselected, Option.bind_some] at hfired
        cases hndx : s.segmentedButtons[ndx]? with
        | none =>
            rw [hndx] at hfired
            cases hfired
        | some other =>
            rw [hndx] at hfired
            obtain rfl : other = button := congrArg Prod.fst (List.cons.inj hfired).1
            have hlt := (List.getElem?_eq_some_iff.mp hndx).1
            exact congrArg some ((List.getElem?_inj hlt hnodup).mp (hndx.trans hi.symm))
  · intro hselected
    rw [hselected, Option.bind_some, hi]

/-- A segment that shows as enabled is selected by the click. -/
theorem click_right_iff (h : Associated s) {i : Nat} :
    Right afterCount s (.click i) ↔ Keeps s (.click i) := by
  have htrack : call afterCount s (.click i) = s ∨
      call afterCount s (.click i) = { s with selectedSegment := some i } := by
    rw [call, track]
    split
    · exact .inr rfl
    · exact .inl rfl
  have hright : Right afterCount s (.click i) ↔ Fires s (.click i) := by
    refine ⟨fun hr => hr.2.2, fun hfires => ?_⟩
    rcases htrack with hsame | hselected
    · exact h.right_of_same hsame hfires
    · rw [Right, hselected]
      exact ⟨h.running, h.shows, hfires⟩
  rw [hright]
  refine forall_congr' fun button => forall_congr' fun hi => ?_
  obtain ⟨segment, hsegment, hshown⟩ := h.segment hi
  have hany : ((s.segments[i]?).any fun segment => (shown s.controlEnabled segment).enabled) =
      (s.look button).enabled := by
    rw [hsegment, Option.any_some, hshown]
  rw [track, hany]
  cases henabled : (s.look button).enabled with
  | true =>
      rw [if_pos rfl]
      exact iff_of_true
        ((mouseup_iff (s := { s with selectedSegment := some i }) h.nodup hi).mpr rfl) (.inl rfl)
  | false =>
      rw [if_neg (by decide), mouseup_iff h.nodup hi]
      exact ⟨.inr, fun hselected => hselected.resolve_left (by decide)⟩

/-- A change leaves the buttons and their listeners. -/
theorem change_kept (s : State I) (button : Nat) (p : Property I) :
    (change s button p).segmentedButtons = s.segmentedButtons ∧
      (change s button p).listener = s.listener ∧
      (change s button p).controlEnabled = s.controlEnabled := by
  rw [change]
  split
  · split <;> exact ⟨rfl, rfl, rfl⟩
  · exact ⟨rfl, rfl, rfl⟩

theorem track_kept (s : State I) (i : Nat) :
    (track s i).segmentedButtons = s.segmentedButtons ∧ (track s i).listener = s.listener ∧
      (track s i).controlEnabled = s.controlEnabled := by
  rw [track]
  split <;> exact ⟨rfl, rfl, rfl⟩

/-- The buttons of the group are those with a listener, once each. -/
theorem listeners_kept (h : Associated s) (a : Action I) :
    (call afterCount s a).segmentedButtons.Nodup ∧
      ∀ button ∈ (call afterCount s a).segmentedButtons,
        ∃ ndx, (call afterCount s a).listener button = .own ndx := by
  cases a with
  | appendChild button =>
      by_cases hnone : s.listener button = .none
      · have hnew := h.not_mem hnone
        simp only [call, appendChild, if_pos hnone, List.nodup_append, List.mem_append,
          List.mem_singleton]
        refine ⟨⟨h.nodup, List.nodup_singleton _, fun a ha b hb hab =>
          hnew (hb ▸ hab ▸ ha)⟩, fun other hother => ?_⟩
        by_cases heq : other = button
        · exact ⟨_, by rw [heq, Function.update_self]⟩
        · rw [Function.update_of_ne heq]
          exact h.listeners other (hother.resolve_right heq)
      · have hsame : call afterCount s (.appendChild button) = s := if_neg hnone
        rw [hsame]
        exact ⟨h.nodup, h.listeners⟩
  | removeChild button =>
      by_cases hlistener : s.listener button = .none
      · have hsame : call afterCount s (.removeChild button) = s := if_pos hlistener
        rw [hsame]
        exact ⟨h.nodup, h.listeners⟩
      · have hrest : (remaining s button).Nodup ∧
            ∀ other ∈ remaining s button, other ∈ s.segmentedButtons ∧ other ≠ button := by
          rw [remaining]
          split
          · refine ⟨h.nodup.erase button, fun other hother => ?_⟩
            obtain ⟨hne, hmem⟩ := (List.Nodup.mem_erase_iff h.nodup).mp hother
            exact ⟨hmem, hne⟩
          · next hout =>
            refine ⟨h.nodup.sublist (List.dropLast_sublist _), fun other hother => ?_⟩
            have hmem := (List.dropLast_sublist _).subset hother
            exact ⟨hmem, fun heq => hout (heq ▸ hmem)⟩
        simp only [call, removeChild, if_neg hlistener, setSegmentCount]
        refine ⟨hrest.1, fun other hother => ?_⟩
        obtain ⟨hmem, hne⟩ := hrest.2 other hother
        rw [Function.update_of_ne hne]
        exact h.listeners other hmem
  | change button p =>
      rw [call, (change_kept s button p).1, (change_kept s button p).2.1]
      exact ⟨h.nodup, h.listeners⟩
  | click i =>
      rw [call, (track_kept s i).1, (track_kept s i).2.1]
      exact ⟨h.nodup, h.listeners⟩

/-- **One step.** -/
theorem right_iff_keeps (h : Associated s) (a : Action I) : Right afterCount s a ↔ Keeps s a := by
  cases a with
  | appendChild button => exact appendChild_right_iff h
  | removeChild button => exact removeChild_right_iff h
  | change button p => exact change_right_iff h
  | click i => exact click_right_iff h

/-- A right step keeps the association. -/
theorem associated_step (h : Associated s) {a : Action I} (hright : Right afterCount s a) :
    Associated (call afterCount s a) :=
  ⟨hright.1, (listeners_kept h a).1, (listeners_kept h a).2, hright.2.1⟩

theorem step_of_associated (h : Associated s) (a : Action I) :
    step afterCount s a = some (call afterCount s a) :=
  if_neg (by rw [h.running]; decide)

theorem associated_start (controlEnabled : Bool) (look : Nat → Look I) (foreign : Nat → Bool) :
    Associated (start controlEnabled look foreign) :=
  ⟨rfl, List.nodup_nil, fun _ h => absurd h List.not_mem_nil, rfl⟩

/-! ## All steps -/

/-- **Association.**  All steps of a run are right exactly when all of them meet the condition. -/
theorem segments_iff (afterCount : Nat → Option Nat → Option Nat) (controlEnabled : Bool)
    (look : Nat → Look I) (foreign : Nat → Bool) (actions : List (Action I)) :
    Meets (step afterCount) (Right afterCount) (start controlEnabled look foreign) actions ↔
      Meets (step afterCount) Keeps (start controlEnabled look foreign) actions := by
  refine meets_congr_of_kept (J := Associated) ?_ ?_ (associated_start _ _ _) actions
  · intro s a t h hkeeps hstep
    rw [step_of_associated h] at hstep
    obtain rfl := Option.some.inj hstep
    exact associated_step h ((right_iff_keeps h a).mpr hkeeps)
  · exact fun s a _ h _ => right_iff_keeps h a

/-- Enabled buttons are appended, the last one is removed, and enabled ones are clicked. -/
def Plain (s : State I) : Action I → Prop
  | .appendChild button => (s.look button).enabled = true
  | .removeChild button => s.segmentedButtons.getLast? = some button
  | .change _ _ => True
  | .click i => ∀ button, s.segmentedButtons[i]? = some button → (s.look button).enabled = true

/-- The listeners have the indices of their buttons, and the control is enabled. -/
structure Numbered (s : State I) : Prop where
  associated : Associated s
  numbered : ∀ button ndx, s.listener button = .own ndx ↔ s.segmentedButtons[ndx]? = some button
  enabled : s.segmentedButtons = [] ∨ s.controlEnabled = true

/-- The last button is in the group once. -/
theorem Associated.last (h : Associated s) {button : Nat}
    (hlast : s.segmentedButtons.getLast? = some button) :
    ∃ l, s.segmentedButtons = l ++ [button] ∧ button ∉ l := by
  obtain ⟨l, hl⟩ := List.getLast?_eq_some_iff.mp hlast
  refine ⟨l, hl, fun hmem => ?_⟩
  have hnodup := h.nodup
  rw [hl, List.nodup_append] at hnodup
  exact hnodup.2.2 button hmem button (List.mem_singleton_self _) rfl

/-- Plain steps meet the condition. -/
theorem Numbered.keeps (h : Numbered s) {a : Action I} (hplain : Plain s a) : Keeps s a := by
  cases a with
  | appendChild button =>
      intro _
      have hbutton : (s.look button).enabled = true := hplain
      refine (map_shown_iff h.associated.shows).mp ?_
      rw [hbutton]
      rcases h.enabled with hnil | henabled
      · have hsegments := h.associated.length
        rw [hnil] at hsegments ⊢
        rw [List.length_eq_zero_iff.mp hsegments]
        rfl
      · rw [← henabled]
        exact h.associated.shows
  | removeChild button =>
      intro p i other hp hi hother
      obtain ⟨l, hl, hnew⟩ := h.associated.last hplain
      rw [hl, getElem?_concat_iff] at hp hother
      rcases hp with hp | hp
      · exact absurd (List.mem_of_getElem? hp) hnew
      · rcases hother with hother | hother
        · have hlt := (List.getElem?_eq_some_iff.mp hother).1
          omega
        · rw [hother.2]
  | change button p =>
      intro ndx hown
      have hndx := (h.numbered button ndx).mp hown
      refine ⟨button, hndx, ?_⟩
      have henabled : s.controlEnabled = true :=
        h.enabled.resolve_left fun hnil => by rw [hnil] at hndx; cases hndx
      rw [if_pos rfl, henabled]
      cases p <;> rfl
  | click i => exact fun button hi => .inl (hplain button hi)

/-- The button that is appended has the next index. -/
theorem numbered_appendChild (h : Numbered s) {button : Nat}
    (hplain : Plain s (.appendChild button))
    (hassociated : Associated (appendChild afterCount s button)) :
    Numbered (appendChild afterCount s button) := by
  by_cases hnone : s.listener button = .none
  · refine ⟨hassociated, fun other ndx => ?_, .inr ?_⟩
    · simp only [appendChild, if_pos hnone]
      rw [getElem?_concat_iff]
      by_cases heq : other = button
      · subst heq
        rw [Function.update_self, Listener.own.injEq]
        have hnot : ¬ s.segmentedButtons[ndx]? = some other := fun hndx =>
          h.associated.not_mem hnone (List.mem_of_getElem? hndx)
        constructor
        · exact fun hndx => .inr ⟨hndx.symm, rfl⟩
        · exact fun hndx => (hndx.resolve_left hnot).1.symm
      · rw [Function.update_of_ne heq, h.numbered]
        exact ⟨.inl, fun hndx => hndx.resolve_right fun hlast => heq hlast.2.symm⟩
    · rw [appendChild, if_pos hnone]
      exact hplain
  · rw [appendChild, if_neg hnone]
    exact h

/-- The last button is removed: the others have their indices. -/
theorem numbered_removeChild (h : Numbered s) {button : Nat}
    (hplain : Plain s (.removeChild button))
    (hassociated : Associated (removeChild afterCount s button)) :
    Numbered (removeChild afterCount s button) := by
  obtain ⟨l, hl, hnew⟩ := h.associated.last hplain
  have hmem : button ∈ s.segmentedButtons := List.mem_of_getLast? hplain
  have hlistener : s.listener button ≠ .none := fun hnone => h.associated.not_mem hnone hmem
  have hremaining : remaining s button = l := by
    rw [remaining, if_pos hmem, hl, List.erase_append_right _ hnew, List.erase_cons_head,
      List.append_nil]
  refine ⟨hassociated, fun other ndx => ?_, .inr ?_⟩
  · simp only [removeChild, if_neg hlistener, setSegmentCount, hremaining]
    by_cases heq : other = button
    · rw [heq, Function.update_self]
      exact iff_of_false (fun hnone => by cases hnone) fun hndx => hnew (List.mem_of_getElem? hndx)
    · rw [Function.update_of_ne heq, h.numbered, hl, getElem?_concat_iff]
      exact ⟨fun hndx => hndx.resolve_right fun hlast => heq hlast.2.symm, .inl⟩
  · rw [removeChild, if_neg hlistener]
    exact h.enabled.resolve_left fun hnil => List.ne_nil_of_mem hmem hnil

/-- A step keeps the segments numbered. -/
theorem numbered_step (h : Numbered s) {a : Action I} (hplain : Plain s a) :
    Numbered (call afterCount s a) := by
  have hassociated : Associated (call afterCount s a) :=
    associated_step h.associated ((right_iff_keeps h.associated a).mpr (h.keeps hplain))
  cases a with
  | appendChild button => exact numbered_appendChild h hplain hassociated
  | removeChild button => exact numbered_removeChild h hplain hassociated
  | change button p =>
      obtain ⟨hbuttons, hlistener, henabled⟩ := change_kept s button p
      refine ⟨hassociated, ?_, ?_⟩
      · rw [call, hbuttons, hlistener]
        exact h.numbered
      · rw [call, hbuttons, henabled]
        exact h.enabled
  | click i =>
      obtain ⟨hbuttons, hlistener, henabled⟩ := track_kept s i
      refine ⟨hassociated, ?_, ?_⟩
      · rw [call, hbuttons, hlistener]
        exact h.numbered
      · rw [call, hbuttons, henabled]
        exact h.enabled

/-- **Removing from the end.**  Then everything is right. -/
theorem right_of_appended (afterCount : Nat → Option Nat → Option Nat) (controlEnabled : Bool)
    (look : Nat → Look I) (foreign : Nat → Bool) {actions : List (Action I)}
    (h : Meets (step afterCount) Plain (start controlEnabled look foreign) actions) :
    Meets (step afterCount) (Right afterCount) (start controlEnabled look foreign) actions := by
  refine meets_imp_of_kept (J := Numbered) ?_ ?_ ?_ h
  · intro s a t hnumbered hplain hstep
    rw [step_of_associated hnumbered.associated] at hstep
    obtain rfl := Option.some.inj hstep
    exact numbered_step hnumbered hplain
  · exact fun s a hnumbered hplain =>
      (right_iff_keeps hnumbered.associated a).mpr (hnumbered.keeps hplain)
  · refine ⟨associated_start _ _ _, fun button ndx => iff_of_false (fun hown => ?_) ?_, .inl rfl⟩
    · simp only [start] at hown
      split at hown <;> cases hown
    · exact fun hndx => by cases hndx

/-- The first of two buttons is removed: the segment that is left has its title. -/
theorem segment_of_removed :
    ¬ ∀ (I : Type) (afterCount : Nat → Option Nat → Option Nat) (controlEnabled : Bool)
      (look : Nat → Look I) (foreign : Nat → Bool) (actions : List (Action I)),
      Meets (step afterCount) (Right afterCount) (start controlEnabled look foreign) actions := by
  intro hall
  have hrun := hall Unit (fun _ selected => selected) true
    (fun button => ⟨none, if button = 0 then ['a'] else ['b'], true⟩) (fun _ => false)
    [.appendChild 0, .appendChild 1, .removeChild 0]
  have hshows : Shows _ := hrun.2.2.1.2.1
  exact absurd hshows (by unfold Shows; decide)

end Steps

end ButtonGroupMac

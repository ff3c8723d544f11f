import Tint.Transition
import Mathlib.Data.List.Nodup
import Mathlib.Logic.Function.Basic
import Mathlib.Logic.Relation

/-!
# The tree of containers and controls

A `Container` keeps its children in three places: the array `private.children`,
the `private.parent` of each child (set by the child's own `parent-attached` and
`parent-dettached` listeners) and the child list of the native view.
`appendChild`, `appendChildAt` and `removeChild` update the three one after the
other, and none of them asks where the control was before.

The native toolkits, AppKit and WPF, are a parameter (`Toolkit`) of which only
documented behaviour is used (`Toolkit.Documented`).

* `tree_consistent` -- as long as a control is appended only while it has no
  parent, removed only from its own parent, and never inserted by index, the
  three agree after every sequence of calls;
* `orderly_of_consistent` -- the condition is exact: a call that breaks it
  throws or leaves the three in disagreement (but for a control appended below
  itself, where no document says what the toolkits do);
* `tree_inconsistent_by_reappending` -- a control appended to a second
  container stays in the first.

A list of controls handed to `appendChild` is appended one by one, and
listeners of `before-child-attached` may put another control in a control's
place; here they do not.  The listeners of `parent-attached` that lay out the control
are left out, and no control is a window, which is no child of anything.
-/

namespace ContainerTree

open Transition

variable {C : Type*}

/-- The child lists of the native views; a control stands for its view. -/
abbrev Tree (C : Type*) := C → List C

/-- The native toolkit: what its calls do to the child lists.  A call that
throws has no result. -/
structure Toolkit (C : Type*) where
  /-- `addSubview` of AppKit, `Children.Add` of WPF: tree, parent, child -/
  add : Tree C → C → C → Option (Tree C)
  /-- `addSubview:positioned:relativeTo:` with `NSWindowAbove`: tree, parent,
  child, and the sibling it is put above -/
  addAbove : Tree C → C → C → C → Option (Tree C)
  /-- `removeFromSuperview` of the child, `Children.Remove` on the parent -/
  remove : Tree C → C → C → Tree C

/-- `a` is `b` or above `b` in the tree. -/
def Above (t : Tree C) (a b : C) : Prop := Relation.ReflTransGen (fun x y => y ∈ t x) a b

section Model

variable [DecidableEq C]

/-- What the toolkits document: a view without a parent that is not put below
itself becomes the last child, or comes right behind the sibling that it is put
above (views draw in list order), and removing a child takes it out. -/
structure Toolkit.Documented (tk : Toolkit C) : Prop where
  add : ∀ t p v, (∀ q, v ∉ t q) → ¬ Above t v p →
    tk.add t p v = some (Function.update t p (t p ++ [v]))
  addAbove : ∀ t p v sibling front back, (∀ q, v ∉ t q) → ¬ Above t v p →
    t p = front ++ sibling :: back → sibling ∉ front →
    tk.addAbove t p v sibling = some (Function.update t p (front ++ sibling :: v :: back))
  remove_child : ∀ t p v, v ∈ t p → (∀ q, (t q).Nodup) → (∀ q, v ∈ t q → q = p) →
    tk.remove t p v = Function.update t p ((t p).erase v)
  remove_detached : ∀ t p v, (∀ q, v ∉ t q) → tk.remove t p v = t

/-- The two implementations of `Container`. -/
inductive Platform
  | mac
  | win
  deriving DecidableEq, Repr

/-- `private.children` and `private.parent` of all controls, and the native
child lists. -/
structure State (C : Type*) where
  children : C → List C
  parent : C → Option C
  native : Tree C

/-- Controls that have just been constructed. -/
def start : State C := ⟨fun _ => [], fun _ => none, fun _ => []⟩

/-- The calls, with the container they are made on. -/
inductive Action (C : Type*)
  | appendChild (p control : C)
  | appendChildAt (p control : C) (ndx : Int)
  | removeChild (p control : C)

/-- A call returns or throws; either way it leaves a state. -/
structure Outcome (C : Type*) where
  state : State C
  error : Option String

/-- `children.splice(ndx, 0, control)` -/
def splice (children : List C) (ndx : Int) (control : C) : List C :=
  let at' := if ndx < 0 then (children.length + ndx).toNat else ndx.toNat
  children.take at' ++ control :: children.drop at'

/-- `children[ndx]` -/
def itemAt (children : List C) (ndx : Int) : Option C :=
  if ndx < 0 then none else children[ndx.toNat]?

/-- The end of the two append functions: the native call, and the
`parent-attached` listener if it did not throw. -/
def attach (s : State C) (p control : C) (native : Option (Tree C)) : Outcome C :=
  match native with
  | some t => ⟨{ s with native := t, parent := Function.update s.parent control (some p) }, none⟩
  | none => ⟨s, some "the native view could not be added"⟩

/-- `Container.prototype.appendChild`, for a single control. -/
def appendChild (tk : Toolkit C) (s : State C) (p control : C) : Outcome C :=
  if p = control then
    ⟨s, some "A control cannot be added as a child to itself."⟩
  else
    attach { s with children := Function.update s.children p (s.children p ++ [control]) }
      p control (tk.add s.native p control)

/-- `Container.prototype.appendChildAt`.  On Windows `assert` is not defined. -/
def appendChildAt (tk : Toolkit C) (pf : Platform) (s : State C) (p control : C) (ndx : Int) :
    Outcome C :=
  match pf with
  | .win => ⟨s, some "assert is not defined"⟩
  | .mac =>
      if ¬ ndx < (s.children p).length then
        ⟨s, some "The index specified was out of bounds (e.g., was way too large or small)."⟩
      else if p = control then
        ⟨s, some "A control cannot be added as a child to itself."⟩
      else
        let s' := { s with
          children := Function.update s.children p (splice (s.children p) ndx control) }
        match itemAt (s.children p) ndx with
        | none => ⟨s', some "Cannot read property 'nativeView' of undefined"⟩
        | some atControl =>
            attach s' p control (tk.addAbove s.native p control atControl)

/-- `Container.prototype.removeChild` -/
def removeChild (tk : Toolkit C) (s : State C) (p control : C) : Outcome C :=
  ⟨{ children := Function.update s.children p ((s.children p).erase control)
     parent := Function.update s.parent control none
     native := tk.remove s.native p control }, none⟩

/-- One call. -/
def call (tk : Toolkit C) (pf : Platform) (s : State C) : Action C → Outcome C
  | .appendChild p control => appendChild tk s p control
  | .appendChildAt p control ndx => appendChildAt tk pf s p control ndx
  | .removeChild p control => removeChild tk s p control

/-- The state after a call; an exception may be caught by the caller. -/
def step (tk : Toolkit C) (pf : Platform) (s : State C) (a : Action C) : Option (State C) :=
  some (call tk pf s a).state

/-- **Consistency.**  A control is among the children of its parent and nowhere
else, once, and the native child lists are the children arrays. -/
structure Consistent (s : State C) : Prop where
  mem_iff : ∀ p c, c ∈ s.children p ↔ s.parent c = some p
  nodup : ∀ p, (s.children p).Nodup
  native : ∀ p, s.native p = s.children p

/-- The call does to the children array what it says: it returns, appends or
inserts the control, and leaves the other arrays alone. -/
def Serves (tk : Toolkit C) (pf : Platform) (s : State C) : Action C → Prop
  | .appendChild p control =>
      (call tk pf s (.appendChild p control)).error = none ∧
        (call tk pf s (.appendChild p control)).state.children =
          Function.update s.children p (s.children p ++ [control])
  | .appendChildAt p control ndx =>
      0 ≤ ndx → ndx < (s.children p).length →
        (call tk pf s (.appendChildAt p control ndx)).error = none ∧
        (call tk pf s (.appendChildAt p control ndx)).state.children =
          Function.update s.children p
            ((s.children p).take ndx.toNat ++ control :: (s.children p).drop ndx.toNat)
  | .removeChild _ _ => True

/-- `a` is `b` or an ancestor of `b`. -/
def Ancestor (s : State C) (a b : C) : Prop :=
  Relation.ReflTransGen (fun x y => s.parent y = some x) a b

/-- The condition on a call: a control is appended while it has no parent, not
below itself, it is removed from its own parent, and it is not inserted by
index. -/
def Orderly (s : State C) : Action C → Prop
  | .appendChild p control => s.parent control = none ∧ ¬ Ancestor s control p
  | .appendChildAt p _ ndx => ((s.children p).length : Int) ≤ ndx
  | .removeChild p control => s.parent control = some p ∨ s.parent control = none

/-! ## One call -/

section Calls

variable {tk : Toolkit C} {pf : Platform} {s : State C}

omit [DecidableEq C] in
/-- A control occurs in at most one children array. -/
theorem Consistent.unique (h : Consistent s) {c p q : C} (hp : c ∈ s.children p)
    (hq : c ∈ s.children q) : p = q := by
  rw [h.mem_iff] at hp hq
  exact Option.some.inj (hp.symm.trans hq)

omit [DecidableEq C] in
/-- A control without a parent has no native parent either. -/
theorem Consistent.detached (h : Consistent s) {c : C} (hc : s.parent c = none) (q : C) :
    c ∉ s.native q := by
  rw [h.native, h.mem_iff, hc]
  exact Option.some_ne_none q ∘ Eq.symm

omit [DecidableEq C] in
/-- Ancestors are above in the native tree and the other way round. -/
theorem Consistent.above_iff (h : Consistent s) (a b : C) :
    Above s.native a b ↔ Ancestor s a b := by
  have hrel : (fun x y => y ∈ s.native x) = fun x y => s.parent y = some x := by
    funext x y
    rw [h.native, h.mem_iff]
  rw [Above, Ancestor, hrel]

/-- A new child in all three places keeps the tree consistent. -/
theorem Consistent.insert (h : Consistent s) {p c : C} (hc : s.parent c = none)
    {list : List C} (hmem : ∀ d, d ∈ list ↔ d = c ∨ d ∈ s.children p) (hnodup : list.Nodup) :
    Consistent ⟨Function.update s.children p list, Function.update s.parent c (some p),
      Function.update s.native p list⟩ where
  mem_iff q d := by
    by_cases hq : q = p <;> by_cases hd : d = c
    · subst hq hd
      simp [hmem]
    · subst hq
      simp [hmem, hd, h.mem_iff]
    · subst hd
      simp [Function.update_of_ne hq, h.mem_iff, hc, Ne.symm hq]
    · simp [Function.update_of_ne hq, Function.update_of_ne hd, h.mem_iff]
  nodup q := by
    by_cases hq : q = p
    · subst hq
      simpa using hnodup
    · simpa [Function.update_of_ne hq] using h.nodup q
  native q := by
    by_cases hq : q = p
    · subst hq
      simp
    · simp [Function.update_of_ne hq, h.native]

/-- An orderly append. -/
theorem appendChild_orderly (htk : tk.Documented) (hs : Consistent s) {p c : C}
    (hok : Orderly s (.appendChild p c)) :
    Consistent (appendChild tk s p c).state ∧ Serves tk pf s (.appendChild p c) := by
  obtain ⟨hc, hanc⟩ := hok
  have hne : p ≠ c := fun h => hanc (h ▸ Relation.ReflTransGen.refl)
  have hadd : tk.add s.native p c = some (Function.update s.native p (s.children p ++ [c])) := by
    rw [htk.add _ _ _ (hs.detached hc) (by rwa [hs.above_iff]), hs.native]
  have hcall : appendChild tk s p c = ⟨⟨Function.update s.children p (s.children p ++ [c]),
      Function.update s.parent c (some p),
      Function.update s.native p (s.children p ++ [c])⟩, none⟩ := by
    simp [appendChild, hne, hadd, attach]
  have hnew : c ∉ s.children p := by simp [hs.mem_iff, hc]
  refine ⟨?_, by simp [Serves, call, hcall]⟩
  rw [hcall]
  refine hs.insert hc (fun d => by simp [or_comm]) ?_
  simpa [List.nodup_append] using ⟨hs.nodup p, fun a ha hac => hnew (hac ▸ ha)⟩

/-- An orderly removal. -/
theorem removeChild_orderly (htk : tk.Documented) (hs : Consistent s) {p c : C}
    (hok : Orderly s (.removeChild p c)) : Consistent (removeChild tk s p c).state := by
  have hmem : ∀ q, q ≠ p → c ∉ s.children q := by
    intro q hq hc
    rw [hs.mem_iff] at hc
    rcases hok with hp | hn
    · exact hq (Option.some.inj (hc.symm.trans hp))
    · simp [hn] at hc
  have hnative : ∀ q, tk.remove s.native p c q =
      Function.update s.children p ((s.children p).erase c) q := by
    intro q
    by_cases hc : c ∈ s.children p
    · rw [htk.remove_child s.native p c (by rwa [hs.native])
        (fun r => by simpa [hs.native] using hs.nodup r)
        (fun r hr => by
          by_contra hne
          exact hmem r hne (by rwa [hs.native] at hr))]
      by_cases hq : q = p
      · subst hq
        simp [hs.native]
      · simp [Function.update_of_ne hq, hs.native]
    · rw [htk.remove_detached s.native p c fun r hr => ?_, List.erase_of_not_mem hc, hs.native]
      · simp
      · rw [hs.native] at hr
        by_cases hr' : r = p
        · exact hc (hr' ▸ hr)
        · exact hmem r hr' hr
  constructor
  · intro q d
    by_cases hq : q = p <;> by_cases hd : d = c
    · subst hq hd
      simp [removeChild, (hs.nodup q).mem_erase_iff]
    · subst hq
      simp [removeChild, (hs.nodup q).mem_erase_iff, hd, hs.mem_iff]
    · subst hd
      simpa [removeChild, Function.update_of_ne hq] using hmem q hq
    · simp [removeChild, Function.update_of_ne hq, Function.update_of_ne hd, hs.mem_iff]
  · intro q
    by_cases hq : q = p
    · subst hq
      simpa [removeChild] using (hs.nodup q).erase c
    · simpa [removeChild, Function.update_of_ne hq] using hs.nodup q
  · exact hnative

/-- An index beyond the children is refused. -/
theorem appendChildAt_orderly {p c : C} {ndx : Int}
    (hok : Orderly s (.appendChildAt p c ndx)) :
    (appendChildAt tk pf s p c ndx).state = s := by
  have : ¬ ndx < (s.children p).length := by
    simpa [Orderly] using hok
  cases pf <;> simp [appendChildAt, this]

/-- Every orderly call keeps the tree consistent. -/
theorem consistent_step (htk : tk.Documented) (hs : Consistent s) {a : Action C}
    (hok : Orderly s a) : Consistent (call tk pf s a).state := by
  cases a with
  | appendChild p c =>
    exact (show _ ∧ Serves tk pf s (.appendChild p c) from appendChild_orderly htk hs hok).1
  | appendChildAt p c ndx =>
      rw [call, appendChildAt_orderly hok]
      exact hs
  | removeChild p c => exact removeChild_orderly htk hs hok

/-- Every orderly call does what it says. -/
theorem serves_of_orderly (htk : tk.Documented) (hs : Consistent s) {a : Action C}
    (hok : Orderly s a) : Serves tk pf s a := by
  cases a with
  | appendChild p c => exact (appendChild_orderly htk hs hok).2
  | appendChildAt p c ndx =>
      intro _ hlt
      exact absurd hlt (by simpa [Orderly] using hok)
  | removeChild p c => trivial

end Calls

/-! ## Runs -/

/-- **The tree is consistent under orderly calls.**  After every sequence of
orderly calls the children arrays, the parents and the native child lists
agree, and the next orderly call returns and does to the children array what it
says. -/
theorem tree_consistent {tk : Toolkit C} (htk : tk.Documented) (pf : Platform) {s : State C}
    (h : Reaches (step tk pf) Orderly start s) :
    Consistent s ∧ ∀ a, Orderly s a → Serves tk pf s a := by
  have hs : Consistent s := by
    refine h.invariant Consistent ?_ fun s a t hs hok ht => ?_
    · constructor <;> simp [start]
    · obtain rfl := Option.some.inj ht
      exact consistent_step htk hs hok
  exact ⟨hs, fun a ha => serves_of_orderly htk hs ha⟩

/-! ## The condition is exact -/

section Exact

variable {tk : Toolkit C} {pf : Platform} {s : State C}

/-- A control that ends up in a consistent tree had no parent before. -/
theorem Consistent.parent_eq_none (hs : Consistent s) {p c : C} {list : List C} {t : Tree C}
    (hlist : c ∈ s.children p → ¬ list.Nodup)
    (hs' : Consistent ⟨Function.update s.children p list,
      Function.update s.parent c (some p), t⟩) : s.parent c = none := by
  by_contra hc
  obtain ⟨q, hq⟩ := Option.ne_none_iff_exists'.mp hc
  by_cases hqp : q = p
  · subst hqp
    have hnodup := hs'.nodup q
    simp only [Function.update_self] at hnodup
    exact hlist ((hs.mem_iff q c).mpr hq) hnodup
  · have hmem := (hs'.mem_iff q c).mp
    simp only [Function.update_of_ne hqp, Function.update_self] at hmem
    exact hqp (Option.some.inj (hmem ((hs.mem_iff q c).mpr hq))).symm

omit [DecidableEq C] in
/-- `itemAt` finds what stands behind the cut of `splice`. -/
theorem splice_itemAt {children : List C} {ndx : Int} {c atControl : C}
    (h : itemAt children ndx = some atControl) :
    ∃ front back, children = front ++ atControl :: back ∧
      splice children ndx c = front ++ c :: atControl :: back := by
  unfold itemAt at h
  split at h
  · cases h
  case isFalse hndx =>
    obtain ⟨hlt, hget⟩ := List.getElem?_eq_some_iff.mp h
    have hdrop : children.drop ndx.toNat = atControl :: children.drop (ndx.toNat + 1) := by
      rw [List.drop_eq_getElem_cons hlt, hget]
    refine ⟨children.take ndx.toNat, children.drop (ndx.toNat + 1), ?_, ?_⟩
    · rw [← hdrop, List.take_append_drop]
    · simp [splice, hndx, hdrop]

/-- An insertion by index that returns leaves the native children in another
order: the view goes above, that is behind, the control it should precede. -/
theorem not_consistent_appendChildAt (htk : tk.Documented) (hs : Consistent s) {p c : C}
    {ndx : Int} (hanc : ¬ Ancestor s c p) (hlt : ndx < (s.children p).length)
    (hreturns : (appendChildAt tk pf s p c ndx).error = none) :
    ¬ Consistent (appendChildAt tk pf s p c ndx).state := by
  have hne : p ≠ c := fun h => hanc (h ▸ Relation.ReflTransGen.refl)
  cases pf with
  | win => simp [appendChildAt] at hreturns
  | mac =>
      simp only [appendChildAt, hlt, hne, not_true_eq_false, if_false] at hreturns ⊢
      cases hitem : itemAt (s.children p) ndx with
      | none => simp [hitem] at hreturns
      | some atControl =>
          obtain ⟨front, back, hchildren, hsplice⟩ := splice_itemAt (c := c) hitem
          simp only [hitem] at hreturns ⊢
          cases hadd : tk.addAbove s.native p c atControl with
          | none => simp [hadd, attach] at hreturns
          | some t =>
              simp only [attach]
              intro hs'
              have hc : s.parent c = none := by
                refine hs.parent_eq_none (fun hmem => ?_) hs'
                rw [hsplice]
                rw [hchildren] at hmem
                intro hnodup
                simp only [List.nodup_append, List.nodup_cons] at hnodup
                simp only [List.mem_append, List.mem_cons] at hmem hnodup
                grind
              have hfront : atControl ∉ front := by
                have := hs.nodup p
                rw [hchildren] at this
                simp only [List.nodup_append] at this
                grind
              have hat : atControl ≠ c := by
                rintro rfl
                have hmem : atControl ∈ s.children p := by simp [hchildren]
                simp [hs.mem_iff, hc] at hmem
              rw [htk.addAbove _ _ _ _ front back (hs.detached hc) (by rwa [hs.above_iff])
                (by rw [hs.native, hchildren]) hfront] at hadd
              obtain rfl := Option.some.inj hadd
              have hnative := hs'.native p
              simp only [Function.update_self, hsplice, List.append_cancel_left_eq,
                List.cons.injEq] at hnative
              exact hat hnative.1

/-- **The condition is exact.**  Take a consistent tree and a call that does not
append a control below itself.  If the call returns and the tree is consistent
afterwards, the call was orderly. -/
theorem orderly_of_consistent (htk : tk.Documented) (hs : Consistent s) {a : Action C}
    (hacyclic : ∀ p c, (a = .appendChild p c ∨ ∃ ndx, a = .appendChildAt p c ndx) →
      ¬ Ancestor s c p)
    (hreturns : (call tk pf s a).error = none)
    (hs' : Consistent (call tk pf s a).state) : Orderly s a := by
  cases a with
  | appendChild p c =>
      have hanc := hacyclic p c (Or.inl rfl)
      have hne : p ≠ c := fun h => hanc (h ▸ Relation.ReflTransGen.refl)
      refine ⟨?_, hanc⟩
      simp only [call, appendChild, hne, if_false] at hreturns hs'
      cases hadd : tk.add s.native p c with
      | none => simp [hadd, attach] at hreturns
      | some t =>
          simp only [hadd, attach] at hs'
          exact hs.parent_eq_none (fun hmem => by simp [List.nodup_append, hmem]) hs'
  | appendChildAt p c ndx =>
      by_contra hlt
      exact not_consistent_appendChildAt htk hs (hacyclic p c (Or.inr ⟨ndx, rfl⟩))
        (by simpa [Orderly] using hlt) hreturns hs'
  | removeChild p c =>
      by_contra hok
      simp only [Orderly, not_or] at hok
      obtain ⟨q, hq⟩ := Option.ne_none_iff_exists'.mp hok.2
      have hqp : q ≠ p := by
        rintro rfl
        exact hok.1 hq
      have hmem := (hs'.mem_iff q c).mp
      simp only [call, removeChild, Function.update_of_ne hqp, Function.update_self] at hmem
      exact Option.some_ne_none q (hmem ((hs.mem_iff q c).mpr hq)).symm

end Exact

/-! ## AppKit -/

/-- `v` right behind `sibling`, or last if there is no such sibling. -/
def insertBehind (sibling v : C) : List C → List C
  | [] => [v]
  | x :: xs => if x = sibling then x :: v :: xs else x :: insertBehind sibling v xs

/-- AppKit's views: a view that is added somewhere leaves its superview first. -/
def appKit : Toolkit C where
  add t p v := some (Function.update (fun q => (t q).erase v) p ((t p).erase v ++ [v]))
  addAbove t p v sibling :=
    some (Function.update (fun q => (t q).erase v) p (insertBehind sibling v ((t p).erase v)))
  remove t _ v := fun q => (t q).erase v

/-- Where `insertBehind` puts the view. -/
theorem insertBehind_append (sibling v : C) {front : List C} (h : sibling ∉ front)
    (back : List C) :
    insertBehind sibling v (front ++ sibling :: back) = front ++ sibling :: v :: back := by
  induction front with
  | nil => simp [insertBehind]
  | cons x front ih =>
      simp only [List.mem_cons, not_or] at h
      simp [insertBehind, Ne.symm h.1, ih h.2]

/-- Erasing a view without a superview changes nothing. -/
theorem erase_detached {t : Tree C} {v : C} (h : ∀ q, v ∉ t q) :
    (fun q => (t q).erase v) = t := by
  funext q
  exact List.erase_of_not_mem (h q)

theorem appKit_documented : (appKit : Toolkit C).Documented where
  add t p v h _ := by
    simp only [appKit, erase_detached h, List.erase_of_not_mem (h p)]
  addAbove t p v sibling front back h _ ht hsibling := by
    have herase : (t p).erase v = front ++ sibling :: back := by
      rw [List.erase_of_not_mem (h p), ht]
    simp only [appKit, erase_detached h, herase, insertBehind_append sibling v hsibling]
  remove_child t p v _ _ hone := by
    funext q
    by_cases hq : q = p
    · subst hq
      simp [appKit]
    · rw [Function.update_of_ne hq]
      exact List.erase_of_not_mem fun hmem => hq (hone q hmem)
  remove_detached t p v h := erase_detached h

end Model

/-- A control without children is above itself only. -/
theorem not_ancestor_of_childless {s : State C} {c p : C} (h : ∀ d, s.parent d ≠ some c)
    (hne : c ≠ p) : ¬ Ancestor s c p := by
  intro hanc
  rcases Relation.ReflTransGen.cases_head hanc with heq | ⟨d, hd, -⟩
  · exact hne heq
  · exact h d hd

/-- Two controls in a container, one of which moves to a second container. -/
theorem tree_consistent_moved :
    ∃ s : State Nat, s.children 0 = [3] ∧ s.children 1 = [2] ∧ Consistent s ∧
      ∀ a, Orderly s a → Serves appKit .mac s a := by
  refine ⟨_, ?_, ?_, tree_consistent appKit_documented .mac
    (reaches_of_run [.appendChild 0 2, .appendChild 0 3, .removeChild 0 2,
      .appendChild 1 2] rfl ?_)⟩
  · rfl
  · rfl
  · refine ⟨⟨rfl, not_ancestor_of_childless ?_ (by decide)⟩,
      ⟨rfl, not_ancestor_of_childless ?_ (by decide)⟩, Or.inl rfl,
      ⟨rfl, not_ancestor_of_childless ?_ (by decide)⟩, trivial⟩
    · simp [start]
    · intro d
      by_cases hd : d = 2 <;> simp [call, appendChild, appKit, attach, start, hd]
    · intro d
      by_cases hd : d = 2 <;> by_cases hd' : d = 3 <;>
        simp [call, appendChild, removeChild, appKit, attach, start, hd, hd']

/-- **A control in two containers.**  Appended to a second container, a control
has the second for its parent and is still among the children of the first. -/
theorem tree_inconsistent_by_reappending :
    ¬ ∀ s : State Nat, Reaches (step appKit .mac) (fun _ _ => True) start s → Consistent s := by
  intro hall
  have hbad := hall _ (reaches_of_run_any [.appendChild 0 2, .appendChild 1 2] rfl)
  have hmem := (hbad.mem_iff 0 2).mp (by decide)
  exact absurd hmem (by decide)

end ContainerTree

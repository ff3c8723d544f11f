import Mathlib.Data.List.Basic
import Mathlib.Data.List.Nodup
import Mathlib.Logic.Function.Basic

/-!
# A walk over the items of a menu

`forEachItemInControl` calls a function for each item of a control, for each item of
these, and so on, and counts the calls.  The function may change the collections that
are walked over: an item is looked up by its distance from the end of its collection,
so a collection may lose or gain items in front of the place that the walk has reached.

* `walk_of_keeps` -- what the walk does if what is not visited yet stays where it is;
* `keeps_of_removes` -- removing the visited item from its parent leaves it there;
* `forEachItem_visits_each` -- each item is visited once, in order.

An exception and a full stack are no result.  The walk itself changes nothing, so the
state after it is the one that the calls leave.
-/

namespace ItemWalk

/-- What the function is called with.  The collection it is given is that of `control`. -/
structure Visit (Item : Type*) where
  obj : Item
  index : Int
  control : Item
  depth : Int
  deriving DecidableEq

/-- What a walk leaves: its result, the calls that were made and the state after them. -/
structure Walk (σ Item : Type*) where
  count : Int
  visits : List (Visit Item)
  state : σ

/-- `GetItemAt`, which throws outside the collection. -/
def getItemAt {Item : Type*} (list : List Item) (index : Int) : Option Item :=
  if 0 ≤ index then list[index.toNat]? else none

section Code

variable {σ Item : Type*}

-- `control.Items`, none for an object without, and the function that is called
variable (items : σ → Item → Option (List Item)) (callback : Visit Item → σ → Option σ)

/-- The loop over `c` with so many turns left, where `inner` walks over an item. -/
def turns (inner : Item → Int → Int → σ → Option (Walk σ Item)) (control : Item)
    (length start depth : Int) : Nat → Int → Int → σ → Option (Walk σ Item)
  | 0, _, i, s => some ⟨i, [], s⟩
  | n + 1, c, i, s =>
      (items s control).bind fun list =>
      (getItemAt list (c - (length - list.length))).bind fun obj =>
      (callback ⟨obj, start + i, control, depth⟩ s).bind fun s =>
      (inner obj (start + i + 1) (depth + 1) s).bind fun below =>
      (turns inner control length start depth n (c + 1) (i + below.count + 1) below.state).map
        fun rest =>
          { count := rest.count
            visits := ⟨obj, start + i, control, depth⟩ :: (below.visits ++ rest.visits)
            state := rest.state }

/-- `forEachItemInControl`, on a stack with room for so many calls. -/
def forEachItemInControl : Nat → Item → Option Int → Option Int → σ → Option (Walk σ Item)
  | 0, _, _, _, _ => none
  | stack + 1, control, start, depth, s =>
      (items s control).bind fun list =>
      turns items callback
        (fun obj start depth s => forEachItemInControl stack obj (some start) (some depth) s)
        control list.length (start.getD 0) (depth.getD 0) list.length 0 0 s

end Code

/-! ## Trees of items -/

/-- Items with the items below them: the first one, those below it and those behind it. -/
inductive Forest (Item : Type*)
  | nil
  | item (id : Item) (children rest : Forest Item)

namespace Forest

variable {Item : Type*}

/-- The items that are not below another one. -/
def roots : Forest Item → List Item
  | nil => []
  | item id _ rest => id :: rest.roots

/-- All the items, each in front of those below it. -/
def preorder : Forest Item → List Item
  | nil => []
  | item id children rest => id :: (children.preorder ++ rest.preorder)

/-- How many items there are. -/
def size : Forest Item → Nat
  | nil => 0
  | item _ children rest => 1 + children.size + rest.size

/-- How deep they are nested. -/
def height : Forest Item → Nat
  | nil => 0
  | item _ children rest => max (children.height + 1) rest.height

/-- The calls of a walk, from an index on. -/
def visits (control : Item) (start depth : Int) : Forest Item → List (Visit Item)
  | nil => []
  | item id children rest =>
      ⟨id, start, control, depth⟩ :: (children.visits id (start + 1) (depth + 1) ++
        rest.visits control (start + 1 + children.size) depth)

theorem length_preorder (forest : Forest Item) : forest.preorder.length = forest.size := by
  induction forest with
  | nil => rfl
  | item id children rest ihc ihr =>
      rw [preorder, List.length_cons, List.length_append, ihc, ihr, size]
      omega

/-- The roots come in the order of the walk. -/
theorem roots_sublist (forest : Forest Item) : forest.roots.Sublist forest.preorder := by
  induction forest with
  | nil => exact List.Sublist.refl _
  | item id children rest ihc ihr =>
      exact List.Sublist.cons_cons id (ihr.trans (List.sublist_append_right _ _))

/-- The calls go through the items in their order. -/
theorem map_obj_visits (forest : Forest Item) (control : Item) (start depth : Int) :
    (forest.visits control start depth).map Visit.obj = forest.preorder := by
  induction forest generalizing control start depth with
  | nil => rfl
  | item id children rest ihc ihr =>
      simp only [visits, List.map_cons, List.map_append, ihc, ihr, preorder]

/-- The indices are consecutive. -/
theorem map_index_visits (forest : Forest Item) (control : Item) (start depth : Int) :
    (forest.visits control start depth).map Visit.index =
      (List.range forest.size).map fun k : Nat => start + (k : Int) := by
  induction forest generalizing control start depth with
  | nil => rfl
  | item id children rest ihc ihr =>
      have hrange : List.range (item id children rest).size =
          0 :: ((List.range children.size).map (1 + ·) ++
            (List.range rest.size).map (1 + children.size + ·)) := by
        rw [size, List.range_add, List.range_add]
        rfl
      rw [hrange]
      simp only [visits, List.map_cons, List.map_append, ihc, ihr, List.map_map,
        Function.comp_def, Int.natCast_add, Int.natCast_one, Int.natCast_zero, Int.add_zero,
        Int.add_assoc]

end Forest

/-! ## Callbacks that leave the rest in place -/

section Property

variable {σ Item : Type*} (items : σ → Item → Option (List Item))
  (callback : Visit Item → σ → Option σ)

/-- Each item has the items below it. -/
def Inside (s : σ) : Forest Item → Prop
  | .nil => True
  | .item id children rest =>
      items s id = some children.roots ∧ Inside s children ∧ Inside s rest

/-- The control has these items. -/
def Holds (s : σ) (control : Item) (forest : Forest Item) : Prop :=
  items s control = some forest.roots ∧ Inside items s forest

/-- These items are the last ones that the control has. -/
def Waits (s : σ) (control : Item) (forest : Forest Item) : Prop :=
  (∃ front, items s control = some (front ++ forest.roots)) ∧ Inside items s forest

/-- The state after these calls. -/
def after : List (Visit Item) → σ → Option σ
  | [], s => some s
  | visit :: visits, s => (callback visit s).bind (after visits)

/-- **The rest stays.**  In the calls for these items of a control each one returns, and
leaves in place what is not visited yet: below the visited item the items that were there,
and at the end of its parent's collection, and of those further out, the items that are
still to come.  `outer` are these, each collection with its rest. -/
def Keeps : Item → Int → Int → List (Item × Forest Item) → Forest Item → σ → Prop
  | _, _, _, _, .nil, _ => True
  | control, start, depth, outer, .item id children rest, s =>
      ∃ s', callback ⟨id, start, control, depth⟩ s = some s' ∧
        Holds items s' id children ∧
        (∀ f ∈ (control, rest) :: outer, Waits items s' f.1 f.2) ∧
        Keeps id (start + 1) (depth + 1) ((control, rest) :: outer) children s' ∧
        ∀ s'', after callback (children.visits id (start + 1) (depth + 1)) s' = some s'' →
          Keeps control (start + 1 + children.size) depth outer rest s''

/-- **The callback only removes.**  A call leaves all collections as they are, or removes
the visited item from its parent's. -/
def Removes [DecidableEq Item] : Prop :=
  ∀ visit s, ∃ s', callback visit s = some s' ∧
    (items s' = items s ∨
      items s' = Function.update (items s) visit.control
        ((items s visit.control).map fun list => list.erase visit.obj))

/-- **Each item once.**  The calls go through the items in their order, with consecutive
indices, and the result is their number. -/
structure Right (forest : Forest Item) (start : Int) (w : Walk σ Item) : Prop where
  objs : w.visits.map Visit.obj = forest.preorder
  indices : w.visits.map Visit.index =
    (List.range forest.preorder.length).map fun k : Nat => start + (k : Int)
  count : w.count = forest.preorder.length

end Property

section Walking

variable {σ Item : Type*} {items : σ → Item → Option (List Item)}
  {callback : Visit Item → σ → Option σ}

theorem after_append (vs ws : List (Visit Item)) (s : σ) :
    after callback (vs ++ ws) s = (after callback vs s).bind (after callback ws) := by
  induction vs generalizing s with
  | nil => rfl
  | cons v vs ih =>
      rw [List.cons_append, after, after]
      cases callback v s with
      | none => rfl
      | some s => exact ih s

/-- Looked up by its distance from the end, the first item of the rest is found. -/
theorem getItemAt_rest {front rest : List Item} {id : Item} {c length : Int}
    (h : c + (id :: rest).length = length) :
    getItemAt (front ++ id :: rest) (c - (length - (front ++ id :: rest).length)) = some id := by
  have hindex : c - (length - (front ++ id :: rest).length) = front.length := by
    rw [List.length_append]
    omega
  rw [hindex, getItemAt, if_pos (Int.natCast_nonneg _), Int.toNat_natCast]
  simp

/-- One turn. -/
theorem turns_succ (inner : Item → Int → Int → σ → Option (Walk σ Item)) {control obj : Item}
    {length start depth c i : Int} {n : Nat} {s s' : σ} {list : List Item}
    {below rest : Walk σ Item} (hlist : items s control = some list)
    (hobj : getItemAt list (c - (length - list.length)) = some obj)
    (hcall : callback ⟨obj, start + i, control, depth⟩ s = some s')
    (hbelow : inner obj (start + i + 1) (depth + 1) s' = some below)
    (hrest : turns items callback inner control length start depth n (c + 1)
      (i + below.count + 1) below.state = some rest) :
    turns items callback inner control length start depth (n + 1) c i s =
      some ⟨rest.count, ⟨obj, start + i, control, depth⟩ :: (below.visits ++ rest.visits),
        rest.state⟩ := by
  simp only [turns, hlist, hobj, hcall, hbelow, hrest, Option.bind_some, Option.map_some]

/-- **The turns over a rest.**  They visit what is left of a collection, and the
collections further out wait as before. -/
theorem turns_of_keeps {forest : Forest Item} {stack : Nat} (hstack : forest.height ≤ stack)
    {control : Item} {length start depth c i : Int} {outer : List (Item × Forest Item)} {s : σ}
    (hlength : c + forest.roots.length = length) (hwaits : Waits items s control forest)
    (houter : ∀ f ∈ outer, Waits items s f.1 f.2)
    (hkeeps : Keeps items callback control (start + i) depth outer forest s) :
    ∃ s', turns items callback
        (fun obj start depth s =>
          forEachItemInControl items callback stack obj (some start) (some depth) s)
        control length start depth forest.roots.length c i s =
          some ⟨i + forest.size, forest.visits control (start + i) depth, s'⟩ ∧
      after callback (forest.visits control (start + i) depth) s = some s' ∧
      ∀ f ∈ outer, Waits items s' f.1 f.2 := by
  induction forest generalizing stack control length start depth c i outer s with
  | nil => exact ⟨s, by simp [Forest.roots, turns, Forest.size, Forest.visits], rfl, houter⟩
  | item id children rest ihc ihr =>
      obtain ⟨s₁, hcall, hholds, hwait₁, hkeepsc, hkeepsr⟩ := hkeeps
      obtain ⟨⟨front, hlist⟩, -⟩ := hwaits
      rw [Forest.height, Nat.max_le] at hstack
      obtain ⟨stack, rfl⟩ : ∃ k, stack = k + 1 := ⟨stack - 1, by omega⟩
      have hstackc : children.height ≤ stack := by omega
      -- the walk over the item's own collection
      have hkeepsc : Keeps items callback id (start + i + 1 + 0) (depth + 1)
          ((control, rest) :: outer) children s₁ := by
        rw [Int.add_zero]
        exact hkeepsc
      obtain ⟨s₂, hturns, hafterc, hwait₂⟩ :=
        ihc hstackc (Int.zero_add _) ⟨⟨[], hholds.1⟩, hholds.2⟩ hwait₁ hkeepsc
      rw [Int.add_zero, Int.zero_add] at hturns
      rw [Int.add_zero] at hafterc
      -- the rest of the collection, where the inner walk has left it
      have hindex : start + (i + children.size + 1) = start + i + 1 + children.size := by omega
      have hlengthr : c + 1 + rest.roots.length = length := by
        rw [Forest.roots, List.length_cons] at hlength
        omega
      have hkeepsr : Keeps items callback control (start + (i + children.size + 1)) depth outer
          rest s₂ := by
        rw [hindex]
        exact hkeepsr s₂ hafterc
      obtain ⟨s₃, hrest, hafterr, hwait₃⟩ := ihr hstack.2 hlengthr (hwait₂ _ List.mem_cons_self)
        (fun f hf => hwait₂ f (List.mem_cons_of_mem _ hf)) hkeepsr
      refine ⟨s₃, ?_, ?_, hwait₃⟩
      · have hinner : forEachItemInControl items callback (stack + 1) id (some (start + i + 1))
            (some (depth + 1)) s₁ = some ⟨children.size,
              children.visits id (start + i + 1) (depth + 1), s₂⟩ := by
          rw [forEachItemInControl, hholds.1]
          exact hturns
        have hturn := turns_succ
          (fun obj start depth s =>
            forEachItemInControl items callback (stack + 1) obj (some start) (some depth) s)
          hlist (getItemAt_rest hlength) hcall hinner hrest
        have hcount : i + (1 + children.size + rest.size : Nat) =
            i + children.size + 1 + rest.size := by omega
        rw [Forest.roots, List.length_cons, hturn, Forest.size, Forest.visits, hindex, hcount]
      · rw [Forest.visits, after, hcall, Option.bind_some, after_append, hafterc, Option.bind_some,
          ← hindex]
        exact hafterr

/-- **The walk.**  If each call leaves in place what is not visited yet, the walk visits
each item once. -/
theorem walk_of_keeps {control : Item} {forest : Forest Item} {s : σ} {start depth : Option Int}
    (hholds : Holds items s control forest)
    (hkeeps : Keeps items callback control (start.getD 0) (depth.getD 0) [] forest s) :
    ∃ w, (∀ stack > forest.height,
        forEachItemInControl items callback stack control start depth s = some w) ∧
      Right forest (start.getD 0) w := by
  have hkeeps' : Keeps items callback control (start.getD 0 + 0) (depth.getD 0) [] forest s := by
    rw [Int.add_zero]
    exact hkeeps
  have hwaits : Waits items s control forest := ⟨⟨[], hholds.1⟩, hholds.2⟩
  obtain ⟨s', -, hafter, -⟩ :=
    turns_of_keeps (Nat.le_refl _) (Int.zero_add _) hwaits (by simp) hkeeps'
  rw [Int.add_zero] at hafter
  have hright : Right forest (start.getD 0)
      (⟨forest.size, forest.visits control (start.getD 0) (depth.getD 0), s'⟩ : Walk σ Item) := by
    refine ⟨forest.map_obj_visits _ _ _, ?_, ?_⟩
    · rw [forest.length_preorder]
      exact forest.map_index_visits _ _ _
    · rw [forest.length_preorder]
  refine ⟨_, ?_, hright⟩
  intro stack hstack
  obtain ⟨stack, rfl⟩ : ∃ k, stack = k + 1 := ⟨stack - 1, by omega⟩
  obtain ⟨s'', hturns, hafter', -⟩ :=
    turns_of_keeps (Nat.lt_succ_iff.mp hstack) (Int.zero_add _) hwaits (by simp) hkeeps'
  rw [Int.add_zero] at hafter'
  obtain rfl := Option.some.inj (hafter.symm.trans hafter')
  rw [Int.add_zero, Int.zero_add] at hturns
  rw [forEachItemInControl, hholds.1]
  exact hturns

/-! ## Callbacks that remove the visited item -/

theorem inside_congr {s s' : σ} {forest : Forest Item}
    (h : ∀ id ∈ forest.preorder, items s' id = items s id) (hin : Inside items s forest) :
    Inside items s' forest := by
  induction forest with
  | nil => trivial
  | item id children rest ihc ihr =>
      rw [Forest.preorder] at h
      refine ⟨?_, ihc ?_ hin.2.1, ihr ?_ hin.2.2⟩
      · rw [h id List.mem_cons_self]
        exact hin.1
      · intro j hj
        exact h j (List.mem_cons_of_mem _ (List.mem_append_left _ hj))
      · intro j hj
        exact h j (List.mem_cons_of_mem _ (List.mem_append_right _ hj))

/-- A rest waits in a collection that has no item twice. -/
def WaitsOnce (items : σ → Item → Option (List Item)) (s : σ) (control : Item)
    (forest : Forest Item) : Prop :=
  (∃ front, items s control = some (front ++ forest.roots) ∧ (front ++ forest.roots).Nodup) ∧
    Inside items s forest

theorem WaitsOnce.waits {s : σ} {control : Item} {forest : Forest Item}
    (h : WaitsOnce items s control forest) : Waits items s control forest := by
  obtain ⟨⟨front, hlist, -⟩, hin⟩ := h
  exact ⟨⟨front, hlist⟩, hin⟩

/-- All the items that the collections and their rests are about. -/
def mentioned (frames : List (Item × Forest Item)) : List Item :=
  frames.flatMap fun f => f.1 :: f.2.preorder

theorem mentioned_cons (control : Item) (forest : Forest Item) (outer : List (Item × Forest Item)) :
    mentioned ((control, forest) :: outer) = control :: (forest.preorder ++ mentioned outer) := rfl

/-- When the walk goes down, the same items are there. -/
theorem mentioned_perm (control id : Item) (children rest : Forest Item)
    (outer : List (Item × Forest Item)) :
    (mentioned ((control, .item id children rest) :: outer)).Perm
      (mentioned ((id, children) :: (control, rest) :: outer)) := by
  simp only [mentioned_cons, Forest.preorder, List.cons_append, List.append_assoc]
  exact (List.Perm.swap id control _).trans (List.perm_middle.symm.cons id)

/-- A change to one collection leaves the others waiting. -/
theorem waitsOnce_of_other {s s' : σ} {control : Item} {frames : List (Item × Forest Item)}
    (hother : ∀ c, c ≠ control → items s' c = items s c) (hnot : control ∉ mentioned frames)
    (hwaits : ∀ f ∈ frames, WaitsOnce items s f.1 f.2) :
    ∀ f ∈ frames, WaitsOnce items s' f.1 f.2 := by
  intro f hf
  have hsame : ∀ c ∈ f.1 :: f.2.preorder, items s' c = items s c := by
    intro c hc
    apply hother
    intro heq
    exact hnot (List.mem_flatMap.mpr ⟨f, hf, heq ▸ hc⟩)
  obtain ⟨⟨front, hlist, hnodup⟩, hin⟩ := hwaits f hf
  rw [← hsame f.1 List.mem_cons_self] at hlist
  exact ⟨⟨front, hlist, hnodup⟩, inside_congr (fun j hj => hsame j (List.mem_cons_of_mem _ hj)) hin⟩

variable [DecidableEq Item]

/-- Removing an item from a collection without repetitions leaves what is behind it. -/
theorem erase_middle {front rest : List Item} {id : Item} (h : (front ++ id :: rest).Nodup) :
    (front ++ id :: rest).erase id = front ++ rest := by
  have hfront : id ∉ front := fun hmem =>
    (List.nodup_append.mp h).2.2 id hmem id List.mem_cons_self rfl
  rw [List.erase_append_right _ hfront, List.erase_cons_head]

/-- One call of a callback that only removes. -/
theorem call_of_removes (hremoves : Removes items callback) (index depth : Int)
    {control id : Item} {children rest : Forest Item} {s : σ}
    (hwaits : WaitsOnce items s control (.item id children rest))
    (hnot : control ∉ rest.preorder) :
    ∃ s', callback ⟨id, index, control, depth⟩ s = some s' ∧
      (∀ c, c ≠ control → items s' c = items s c) ∧ WaitsOnce items s' control rest := by
  obtain ⟨s', hcall, hitems⟩ := hremoves ⟨id, index, control, depth⟩ s
  obtain ⟨⟨front, hlist, hnodup⟩, -, -, hrest⟩ := hwaits
  have hother : ∀ c, c ≠ control → items s' c = items s c := by
    intro c hc
    obtain hsame | hremoved := hitems
    · rw [hsame]
    · rw [hremoved, Function.update_of_ne hc]
  refine ⟨s', hcall, hother, ?_, inside_congr (fun j hj => hother j ?_) hrest⟩
  · rw [Forest.roots] at hlist hnodup
    obtain hsame | hremoved := hitems
    · refine ⟨front ++ [id], ?_, ?_⟩
      · rw [hsame, hlist, List.append_assoc, List.singleton_append]
      · rwa [List.append_assoc, List.singleton_append]
    · refine ⟨front, ?_, ?_⟩
      · rw [hremoved, Function.update_self, hlist, Option.map_some, erase_middle hnodup]
      · exact hnodup.sublist ((List.sublist_cons_self id _).append_left front)
  · intro heq
    exact hnot (heq ▸ hj)

/-- **Removing keeps the rest.**  A callback that at most removes the visited item from its
parent leaves in place what is not visited yet, in a tree without repetitions. -/
theorem keeps_of_removes (hremoves : Removes items callback) {forest : Forest Item}
    {control : Item} {start depth : Int} {outer : List (Item × Forest Item)} {s : σ}
    (hnodup : (mentioned ((control, forest) :: outer)).Nodup)
    (hwaits : ∀ f ∈ (control, forest) :: outer, WaitsOnce items s f.1 f.2) :
    Keeps items callback control start depth outer forest s ∧
      ∀ s', after callback (forest.visits control start depth) s = some s' →
        ∀ f ∈ outer, WaitsOnce items s' f.1 f.2 := by
  induction forest generalizing control start depth outer s with
  | nil =>
      refine ⟨trivial, fun s' hs' f hf => ?_⟩
      obtain rfl := Option.some.inj hs'
      exact hwaits f (List.mem_cons_of_mem _ hf)
  | item id children rest ihc ihr =>
      have hdown := (mentioned_perm control id children rest outer).nodup hnodup
      obtain ⟨hnodupc, hnodupr, -⟩ := List.nodup_append.mp (List.nodup_cons.mp hdown).2
      rw [mentioned_cons, List.nodup_cons, Forest.preorder, List.mem_append, List.mem_cons,
        List.mem_append] at hnodup
      simp only [not_or] at hnodup
      obtain ⟨⟨⟨hid, hnotc, hnotr⟩, hnoto⟩, -⟩ := hnodup
      have hfirst := hwaits _ List.mem_cons_self
      obtain ⟨s₁, hcall, hother, hrest₁⟩ := call_of_removes hremoves start depth hfirst hnotr
      have hholds : Holds items s₁ id children := by
        refine ⟨?_, inside_congr (fun j hj => hother j ?_) hfirst.2.2.1⟩
        · rw [hother id (Ne.symm hid)]
          exact hfirst.2.1
        · intro heq
          rw [heq] at hj
          exact hnotc hj
      have houter₁ : ∀ f ∈ outer, WaitsOnce items s₁ f.1 f.2 :=
        waitsOnce_of_other hother hnoto fun f hf => hwaits f (List.mem_cons_of_mem _ hf)
      have hframes : ∀ f ∈ (control, rest) :: outer, WaitsOnce items s₁ f.1 f.2 :=
        List.forall_mem_cons.mpr ⟨hrest₁, houter₁⟩
      have hchildren : WaitsOnce items s₁ id children :=
        ⟨⟨[], hholds.1, hnodupc.sublist children.roots_sublist⟩, hholds.2⟩
      obtain ⟨hkeepsc, hafterc⟩ := ihc hdown (List.forall_mem_cons.mpr ⟨hchildren, hframes⟩)
      refine ⟨⟨s₁, hcall, hholds, fun f hf => (hframes f hf).waits, hkeepsc, ?_⟩, ?_⟩
      · intro s₂ hs₂
        exact (ihr hnodupr (hafterc s₂ hs₂)).1
      · intro s₃ hs₃
        rw [Forest.visits, after, hcall, Option.bind_some, after_append] at hs₃
        obtain ⟨s₂, hs₂, hs₃⟩ := Option.bind_eq_some_iff.mp hs₃
        exact (ihr hnodupr (hafterc s₂ hs₂)).2 s₃ hs₃

/-- **Each item once.**  The walk ends and visits each item of a tree once, in order, with
consecutive indices from the given one, and returns their number, for every callback whose
calls return and leave in place what is not visited yet.  In a tree without repetitions a
callback that at most removes the visited item from its parent is one of them. -/
theorem forEachItem_visits_each (items : σ → Item → Option (List Item))
    (callback : Visit Item → σ → Option σ) (control : Item) (forest : Forest Item) (s : σ)
    (start depth : Option Int) (hholds : Holds items s control forest)
    (hcallback : Keeps items callback control (start.getD 0) (depth.getD 0) [] forest s ∨
      Removes items callback ∧ (control :: forest.preorder).Nodup) :
    ∃ w, (∀ stack > forest.height,
        forEachItemInControl items callback stack control start depth s = some w) ∧
      Right forest (start.getD 0) w := by
  apply walk_of_keeps hholds
  obtain hkeeps | ⟨hremoves, hnodup⟩ := hcallback
  · exact hkeeps
  · have hroots := (List.nodup_cons.mp hnodup).2.sublist forest.roots_sublist
    have hwaits : WaitsOnce items s control forest := ⟨⟨[], hholds.1, hroots⟩, hholds.2⟩
    have hmentioned : (mentioned [(control, forest)]).Nodup := by
      rw [mentioned_cons, mentioned, List.flatMap_nil, List.append_nil]
      exact hnodup
    exact (keeps_of_removes hremoves hmentioned (List.forall_mem_cons.mpr ⟨hwaits, by simp⟩)).1

end Walking

/-! ## A menu of three items -/

/-- The collections of a menu bar 0 and of its items. -/
abbrev Menu := Nat → List Nat

/-- The items of a menu. -/
def menuItems (menu : Menu) (id : Nat) : Option (List Nat) := some (menu id)

/-- The items 1 and 2, with 3 below 1. -/
def threeItems : Menu
  | 0 => [1, 2]
  | 1 => [3]
  | _ => []

/-- Each visited item is removed from its parent. -/
def removeVisited (visit : Visit Nat) (menu : Menu) : Option Menu :=
  some (Function.update menu visit.control ((menu visit.control).erase visit.obj))

/-- The call for 1 removes 2 from the menu bar. -/
def removeNext (visit : Visit Nat) (menu : Menu) : Option Menu :=
  some (if visit.obj = 1 then Function.update menu 0 ((menu 0).erase 2) else menu)

/-- The menu is emptied on the way, and each item is visited. -/
theorem forEachItem_visits_each_removed :
    ∃ w, (∀ stack > (Forest.item 1 (.item 3 .nil .nil) (.item 2 .nil .nil)).height,
        forEachItemInControl menuItems removeVisited stack 0 none none threeItems = some w) ∧
      Right (.item 1 (.item 3 .nil .nil) (.item 2 .nil .nil)) 0 w := by
  refine forEachItem_visits_each _ _ _ _ _ none none ⟨rfl, rfl, ⟨rfl, trivial, trivial⟩,
    rfl, trivial, trivial⟩ (Or.inr ⟨fun visit menu => ⟨_, rfl, Or.inr ?_⟩, by decide⟩)
  funext id
  by_cases hid : id = visit.control
  · subst hid
    simp [menuItems]
  · simp [menuItems, hid]

/-- **A removed sibling.**  When the call for an item removes the item behind it, the walk
comes back to the first one. -/
theorem forEachItem_misses_sibling :
    ¬ ∀ (σ Item : Type) (items : σ → Item → Option (List Item))
      (callback : Visit Item → σ → Option σ) (control : Item) (forest : Forest Item) (s : σ)
      (start depth : Option Int), Holds items s control forest →
      (control :: forest.preorder).Nodup → (∀ visit s, (callback visit s).isSome) →
      ∃ w, (∀ stack > forest.height,
          forEachItemInControl items callback stack control start depth s = some w) ∧
        Right forest (start.getD 0) w := by
  intro hall
  obtain ⟨w, hw, hright⟩ := hall Menu Nat menuItems removeNext 0
    (.item 1 (.item 3 .nil .nil) (.item 2 .nil .nil)) threeItems none none
    ⟨rfl, rfl, ⟨rfl, trivial, trivial⟩, rfl, trivial, trivial⟩ (by decide) (fun _ _ => rfl)
  have hvisits : (forEachItemInControl menuItems removeNext 3 0 none none threeItems).map
      (fun w => w.visits.map Visit.obj) = some [1, 3, 1, 3] := by decide
  rw [hw 3 (by decide), Option.map_some, hright.objs] at hvisits
  revert hvisits
  decide

end ItemWalk

import Tint.BridgeImport
import Mathlib.Data.List.MinMax
import Mathlib.Logic.Relation
import Mathlib.Order.Nat

/-!
# The turns and calls of the BridgeSupport scanner

What `findTags` costs on any content, also on one that is cut off or malformed: each turn of its
loop leaves less of the content, and the calls that it makes for the bodies of elements are nested
no deeper than the tables of names.

* `turn_removes` -- a turn that goes on takes a part off the front of the content;
* `Calls.depth_lt` -- a call has a table of less depth;
* `findTags_bounded` -- `findTags` returns, with so many turns and calls.
-/

namespace BridgeImport

/-- What the loop of `findTags` has when a turn begins. -/
structure LoopState where
  ftags : List Tag
  last : Int
  content : Text

/-- A turn of the loop: the tags that are returned, or what the next turn has. -/
def turn (keys : List Name) (parse : Name → Text → Option (Tag × Int)) (s : LoopState) :
    Option (List Tag ⊕ LoopState) :=
  (visit keys parse s.ftags s.last s.content).map fun (ftags, last) =>
    let ndx := fastIndexOf s.content '<' last
    if ndx = -1 then .inl ftags
    else .inr ⟨ftags, last, substring s.content ndx s.content.length⟩

/-- The loop takes turn after turn. -/
theorem scan_turn (keys : List Name) (parse : Name → Text → Option (Tag × Int)) (fuel : Nat)
    (s : LoopState) :
    scan keys parse (fuel + 1) s.ftags s.last s.content =
      (turn keys parse s).bind (Sum.elim some fun next =>
        scan keys parse fuel next.ftags next.last next.content) := by
  rw [scan, turn]
  cases visit keys parse s.ftags s.last s.content with
  | none => rfl
  | some found =>
      simp only [Option.map_some, Option.bind_some]
      split_ifs <;> rfl

/-- A call of `findTags`. -/
structure Call where
  names : Names
  content : Text

namespace Call

/-- How the call parses an element that it has found. -/
def parse (c : Call) : Name → Text → Option (Tag × Int) :=
  parseTag c.names.inner fun name => findTags (c.names.inner name)

/-- A turn of its loop leads to the next one. -/
def Next (c : Call) (s s' : LoopState) : Prop := turn c.names.keys c.parse s = some (.inr s')

/-- The states when its turns begin. -/
def Reached (c : Call) : LoopState → Prop := Relation.ReflTransGen c.Next ⟨[], 1, c.content⟩

end Call

/-- The call that `parseTag` makes for the body of an element. -/
def bodyCall (inner : Name → Names) (name : Name) (content : Text) : Option Call :=
  let eattr := fastIndexOf content '>' 1
  let isBodyless := charAt content (eattr - 1) = some '/'
  let sbody := eattr + 1
  let ebody := if isBodyless then eattr - 1 else indexOf content ('<' :: '/' :: name.text) eattr
  if sbody = ebody ∨ (inner name).isNull then none
  else some ⟨inner name, substring content sbody ebody⟩

/-- `parseTag` searches in nothing else. -/
theorem parseTag_bodyCall (inner : Name → Names) (name : Name) (content : Text) :
    ∃ attrib tagEnd, ∀ find, parseTag inner find name content =
      (bodyCall inner name content).elim (some (.mk name.text attrib [], tagEnd)) fun call =>
        (find name call.content).map fun children => (.mk name.text attrib children, tagEnd) := by
  let eattr := fastIndexOf content '>' 1
  let isBodyless := charAt content (eattr - 1) = some '/'
  let ebody := if isBodyless then eattr - 1 else indexOf content ('<' :: '/' :: name.text) eattr
  refine ⟨parseAttrib (substring content (2 + name.text.length)
      (eattr + if isBodyless then -1 else 0)),
    if isBodyless then ebody + 2 else ebody + name.text.length + 3, fun find => ?_⟩
  by_cases hnone : eattr + 1 = ebody ∨ (inner name).isNull = true
  · have hcall : bodyCall inner name content = none := if_pos hnone
    rw [hcall]
    exact if_pos hnone
  · have hcall : bodyCall inner name content =
        some ⟨inner name, substring content (eattr + 1) ebody⟩ := if_neg hnone
    rw [hcall]
    exact if_neg hnone

/-- The calls made in the turns of a call. -/
inductive Calls (c : Call) : Call → Prop
  | body {s : LoopState} {key : Name} {call : Call} (reached : c.Reached s)
      (hit : c.names.keys.find? (matchesKey s.content) = some key)
      (made : bodyCall c.names.inner key s.content = some call) : Calls c call

/-! ## Turns -/

/-- `parseTag` for the elements of a call returns. -/
theorem Call.parse_total (c : Call) (name : Name) (content : Text) :
    ∃ tag tagEnd, c.parse name content = some (tag, tagEnd) ∧ 1 ≤ tagEnd :=
  parseTag_total (fun name body hnull => findTags_total (c.names.inner name) hnull body) name
    content

/-- A turn that goes on takes a part off the front of the content, and the next one will too. -/
theorem turn_removes {c : Call} {s s' : LoopState} (hlast : 1 ≤ s.last) (h : c.Next s s') :
    1 ≤ s'.last ∧ ∃ removed, removed ≠ [] ∧ s.content = removed ++ s'.content := by
  obtain ⟨ftags, last, hvisit, hlast'⟩ :=
    visit_total c.names.keys c.parse_total s.ftags hlast s.content
  rw [Call.Next, turn, hvisit, Option.map_some, Option.some.injEq] at h
  cases search_removes s.content hlast' with
  | inl hnone =>
      simp only [hnone, if_true] at h
      exact absurd h Sum.inl_ne_inr
  | inr hfound =>
      simp only [if_neg hfound.1, Sum.inr.injEq] at h
      subst h
      exact ⟨hlast', hfound.2⟩

theorem Call.Reached.last_pos {c : Call} {s : LoopState} (h : c.Reached s) : 1 ≤ s.last := by
  induction h with
  | refl => exact Int.le_refl 1
  | tail _ hnext ih => exact (turn_removes ih hnext).1

/-! ## Calls -/

/-- How deep the tables of names are nested. -/
def Names.depth : Names → ℕ
  | .null => 0
  | .table keys inner => (keys.map fun key => (inner key).depth).foldr max 0 + 1

theorem Names.depth_inner_lt {names : Names} {key : Name} (h : key ∈ names.keys) :
    (names.inner key).depth < names.depth := by
  cases names with
  | null => exact absurd h List.not_mem_nil
  | table keys inner =>
      have hmem : (inner key).depth ∈ keys.map fun key => (inner key).depth :=
        List.mem_map_of_mem h
      exact Nat.lt_succ_of_le (List.le_max_of_le hmem (Nat.le_refl _))

theorem Names.depth_pos {names : Names} (h : names.isNull = false) : 0 < names.depth := by
  cases names with
  | null => exact absurd h Bool.noConfusion
  | table keys inner => exact Nat.succ_pos _

/-- A call has one of the tables in the table of its caller. -/
theorem Calls.depth_lt {c d : Call} (h : Calls c d) :
    d.names.isNull = false ∧ d.names.depth < c.names.depth := by
  cases h with
  | body _ hit made =>
      simp only [bodyCall, Option.ite_none_left_eq_some] at made
      obtain ⟨hnone, made⟩ := made
      rw [not_or, Bool.not_eq_true] at hnone
      obtain rfl := Option.some.inj made
      exact ⟨hnone.2, Names.depth_inner_lt (List.mem_of_find?_eq_some hit)⟩

/-- Calls in one another are fewer than the depth of the outermost table. -/
theorem chain_length_lt {c : Call} (hnull : c.names.isNull = false) {calls : List Call}
    (h : List.IsChain Calls (c :: calls)) : calls.length < c.names.depth := by
  induction calls generalizing c with
  | nil => exact Names.depth_pos hnull
  | cons d rest ih =>
      obtain ⟨hcall, hrest⟩ := List.isChain_cons_cons.mp h
      obtain ⟨hd, hlt⟩ := hcall.depth_lt
      have hlength := ih hd hrest
      rw [List.length_cons]
      omega

/-- `findTags` returns for every table of names and every content.  Each turn of its loop that goes
on removes something from the front of the content, and the calls in one another, with the first,
are at most as many as the tables are deep. -/
theorem findTags_bounded (keys : List Name) (inner : Name → Names) (content : Text) :
    (∃ tags, findTags (.table keys inner) content = some tags) ∧
    (∀ s s', Call.Reached ⟨.table keys inner, content⟩ s →
      Call.Next ⟨.table keys inner, content⟩ s s' →
        ∃ removed, removed ≠ [] ∧ s.content = removed ++ s'.content) ∧
    ∀ calls, List.IsChain Calls (⟨.table keys inner, content⟩ :: calls) →
      calls.length + 1 ≤ (Names.table keys inner).depth := by
  have hnull : (Names.table keys inner).isNull = false := rfl
  refine ⟨Option.isSome_iff_exists.mp (findTags_total _ hnull content), ?_, ?_⟩
  · intro s s' hreached hnext
    exact (turn_removes hreached.last_pos hnext).2
  · intro calls hchain
    exact chain_length_lt hnull hchain

end BridgeImport

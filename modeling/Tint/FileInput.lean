import Tint.ScriptSyntax
import Mathlib.Data.List.Infix

/-!
# The location of FileInput on Windows

Assigning `location` fills the context menu: "Choose ..", and one item for each directory on the
way and for the path itself.  The path is split at backslashes only: the replacement before it puts
a backslash where a backslash was.  The handlers of the items share the variable `menuItem`, which
is that of the last one.

* `entries_iff` -- the items are the prefixes of the path exactly when it has no slash before its
  last unit;
* `location_iff` -- and each selects what it shows exactly when there is one item only.
-/

namespace FileInput

open ScriptSyntax

def slash : UInt16 := 0x2F

/-- An item of the context menu. -/
inductive Item
  | choose
  | location (header : Text)
  deriving DecidableEq

/-- The items of the context menu, the header of the item that the variable `menuItem` of their
handlers holds, and the texts. -/
structure State where
  items : List Item
  menuItem : Option Text
  location : Option Text
  selectionBoxItem : Option Text

/-- The loop over the parts: the headers of the items that it adds. -/
def loop (runningPath previousPath : Text) : List Text → List Text
  | [] => []
  | path :: paths =>
      let running := runningPath ++ path ++ if paths = [] then [] else [backslash]
      if running ≠ previousPath then running :: loop running running paths
      else loop running running paths

/-- The headers for a path. -/
def entries (value : Text) : List Text :=
  loop [] [] (split backslash (replace backslash [backslash] value))

/-- The setter of `location`. -/
def setLocation (_ : State) (value : Text) : State where
  items := .choose :: (entries value).map .location
  menuItem := (entries value).getLast?
  location := some (replace backslash [backslash] value)
  selectionBoxItem := some (replace backslash [backslash] value)

/-- A press on an item for a location: `selector`. -/
def press (s : State) : State := { s with selectionBoxItem := s.menuItem }

/-! ## The property and the condition -/

/-- What separates the names of a path. -/
def isSeparator (u : UInt16) : Bool := u == backslash || u == slash

/-- The prefixes that end with a separator, and the text itself. -/
def prefixes (isSeparator : UInt16 → Bool) (value : Text) : List Text :=
  value.inits.filter fun path => path = value ∨ path.getLast?.any isSeparator = true

/-- **Right.**  The items are those of the prefixes, and each selects its own. -/
def Right (s : State) (value : Text) : Prop :=
  (setLocation s value).items = .choose :: (prefixes isSeparator value).map .location ∧
    ∀ header, .location header ∈ (setLocation s value).items →
      (press (setLocation s value)).selectionBoxItem = some header

/-- **The condition.**  The path is not empty, and has no separator before its last unit. -/
def Plain (value : Text) : Prop := value ≠ [] ∧ ∀ u ∈ value.dropLast, isSeparator u = false

/-! ## The prefixes, one unit at a time -/

section Prefixes

variable {isSeparator : UInt16 → Bool}

/-- What follows a unit is kept or not as it is without that unit. -/
theorem kept_cons (u : UInt16) (value : Text) {path : Text} (h : path ≠ []) :
    (u :: path = u :: value ∨ (u :: path).getLast?.any isSeparator = true) ↔
      (path = value ∨ path.getLast?.any isSeparator = true) := by
  cases path with
  | nil => exact absurd rfl h
  | cons v vs => rw [List.cons_inj_right, List.getLast?_cons_cons]

theorem prefixes_singleton (u : UInt16) : prefixes isSeparator [u] = [[u]] := by
  simp [prefixes]

/-- The prefixes of a longer path. -/
theorem prefixes_cons (u : UInt16) {us : Text} (h : us ≠ []) :
    prefixes isSeparator (u :: us) =
      (if isSeparator u = true then [[u]] else []) ++ (prefixes isSeparator us).map (u :: ·) := by
  cases us with
  | nil => exact absurd rfl h
  | cons v vs =>
      have hnil : ∀ value, value ≠ [] →
          ¬ (([] : Text) = value ∨ ([] : Text).getLast?.any isSeparator = true) := by
        intro value hvalue hor
        rcases hor with heq | hlast
        · exact hvalue heq.symm
        · exact Bool.false_ne_true hlast
      have hkept : (((List.inits vs).map (v :: ·)).map (u :: ·)).filter (fun path =>
            path = u :: v :: vs ∨ path.getLast?.any isSeparator = true) =
          (((List.inits vs).map (v :: ·)).filter (fun path =>
            path = v :: vs ∨ path.getLast?.any isSeparator = true)).map (u :: ·) := by
        rw [List.filter_map]
        congr 1
        apply List.filter_congr
        intro path hpath
        obtain ⟨rest, -, rfl⟩ := List.mem_map.mp hpath
        exact decide_eq_decide.mpr (kept_cons u (v :: vs) (List.cons_ne_nil v rest))
      simp only [prefixes, List.inits_cons, List.map_cons, List.filter_cons, hkept,
        decide_eq_true_eq, if_neg (hnil _ (List.cons_ne_nil _ _))]
      by_cases hu : isSeparator u = true <;> simp [hu]

/-- A path is one of its prefixes. -/
theorem self_mem_prefixes (value : Text) : value ∈ prefixes isSeparator value := by
  refine List.mem_filter.mpr ⟨(List.mem_inits value value).mpr (List.prefix_refl value), ?_⟩
  exact decide_eq_true (.inl rfl)

theorem mem_prefixes {value path : Text} :
    path ∈ prefixes isSeparator value ↔
      path <+: value ∧ (path = value ∨ path.getLast?.any isSeparator = true) := by
  rw [prefixes, List.mem_filter, List.mem_inits, decide_eq_true_eq]

/-- More separators make more prefixes, unless they are at the end. -/
theorem prefixes_eq_iff {fewer more : UInt16 → Bool} (himp : ∀ u, fewer u = true → more u = true)
    {value : Text} (h : value ≠ []) :
    prefixes fewer value = prefixes more value ↔ ∀ u ∈ value.dropLast, fewer u = more u := by
  induction value with
  | nil => exact absurd rfl h
  | cons u us ih =>
      by_cases hus : us = []
      · subst hus
        rw [prefixes_singleton, prefixes_singleton]
        exact iff_of_true rfl fun v hv => absurd hv List.not_mem_nil
      · rw [prefixes_cons u hus, prefixes_cons u hus, List.dropLast_cons_of_ne_nil hus,
          List.forall_mem_cons]
        have hmap : (prefixes fewer us).map (u :: ·) = (prefixes more us).map (u :: ·) ↔
            prefixes fewer us = prefixes more us :=
          List.map_inj_right fun _ _ heq => (List.cons.inj heq).2
        cases hfewer : fewer u with
        | true =>
            rw [himp u hfewer, if_pos rfl, List.append_right_inj, hmap, ih hus]
            exact (and_iff_right rfl).symm
        | false =>
            cases hmore : more u with
            | false =>
                rw [if_neg Bool.false_ne_true, List.nil_append, List.nil_append, hmap, ih hus]
                exact (and_iff_right rfl).symm
            | true =>
                refine iff_of_false (fun heq => ?_) fun hall => Bool.false_ne_true hall.1
                rw [if_neg Bool.false_ne_true, if_pos rfl, List.nil_append] at heq
                have hmem : [u] ∈ (prefixes fewer us).map (u :: ·) := by
                  rw [heq]
                  exact List.mem_cons_self
                obtain ⟨path, hpath, hcons⟩ := List.mem_map.mp hmem
                obtain rfl := (List.cons.inj hcons).2
                rcases (mem_prefixes.mp hpath).2 with hself | hlast
                · exact hus hself.symm
                · exact Bool.false_ne_true hlast

/-- There is one prefix only where no separator is before the last unit. -/
theorem prefixes_eq_singleton {value : Text} (h : value ≠ [])
    (hplain : ∀ u ∈ value.dropLast, isSeparator u = false) :
    prefixes isSeparator value = [value] := by
  induction value with
  | nil => exact absurd rfl h
  | cons u us ih =>
      by_cases hus : us = []
      · rw [hus, prefixes_singleton]
      · rw [List.dropLast_cons_of_ne_nil hus, List.forall_mem_cons] at hplain
        rw [prefixes_cons u hus, hplain.1, if_neg Bool.false_ne_true, List.nil_append,
          ih hus hplain.2, List.map_singleton]

/-- A path with a separator has another prefix. -/
theorem exists_prefix_ne {value : Text} (h : ∃ u ∈ value.dropLast, isSeparator u = true) :
    ∃ path ∈ prefixes isSeparator value, path ≠ value := by
  obtain ⟨u, hmem, hu⟩ := h
  obtain ⟨before, after, hsplit⟩ := List.append_of_mem hmem
  have hvalue : value ≠ [] := fun hnil => by simp [hnil] at hmem
  have heq : before ++ [u] ++ (after ++ [value.getLast hvalue]) = value := by
    have hlast := List.dropLast_append_getLast hvalue
    rw [hsplit] at hlast
    rwa [List.append_assoc, List.singleton_append, ← List.cons_append, ← List.append_assoc]
  refine ⟨before ++ [u], mem_prefixes.mpr ⟨⟨_, heq⟩, .inr ?_⟩, fun hself => ?_⟩
  · rw [List.getLast?_append_of_ne_nil _ (List.cons_ne_nil u []), List.getLast?_singleton]
    exact hu
  · have hlength := congrArg List.length heq
    rw [hself, List.length_append] at hlength
    simp at hlength

end Prefixes

/-! ## The loop -/

/-- A part that makes the path longer adds an item. -/
theorem loop_cons {runningPath previousPath path running : Text} {paths : List Text}
    (hrunning : running = runningPath ++ path ++ if paths = [] then [] else [backslash])
    (hne : running ≠ previousPath) :
    loop runningPath previousPath (path :: paths) = running :: loop running running paths := by
  subst hrunning
  exact if_pos hne

/-- The first turn on a text that is not empty makes the path longer. -/
theorem running_ne {text path : Text} {paths : List Text} (hne : text ≠ [])
    (hparts : split backslash text = path :: paths) (before : Text) :
    before ++ path ++ (if paths = [] then [] else [backslash]) ≠ before := by
  intro heq
  rw [List.append_assoc] at heq
  obtain ⟨hpath, hpaths⟩ := List.append_eq_nil_iff.mp (List.self_eq_append_right.mp heq.symm)
  have hnone : paths = [] := by
    by_contra hpaths'
    rw [if_neg hpaths'] at hpaths
    exact List.cons_ne_nil _ _ hpaths
  rw [hpath, hnone] at hparts
  exact hne (split_eq_singleton_nil hparts)

/-- The loop over the parts of a path that is not empty. -/
theorem loop_split (runningPath : Text) {value : Text} (h : value ≠ []) :
    loop runningPath runningPath (split backslash value) =
      (prefixes (· == backslash) value).map (runningPath ++ ·) := by
  induction value generalizing runningPath with
  | nil => exact absurd rfl h
  | cons u us ih =>
      have hlonger : ∀ more, runningPath ++ u :: more ≠ runningPath := by
        intro more heq
        have hlength := congrArg List.length heq
        simp at hlength
      by_cases hu : u = backslash
      · -- the first part is empty
        subst hu
        have hrunning : runningPath ++ [backslash] =
            runningPath ++ [] ++ if split backslash us = [] then [] else [backslash] := by
          rw [if_neg (split_ne_nil _ _), List.append_nil]
        rw [split, if_pos rfl, loop_cons hrunning (hlonger [])]
        by_cases hus : us = []
        · subst hus
          rw [prefixes_singleton]
          simp [loop, split]
        · rw [ih _ hus, prefixes_cons backslash hus, beq_self_eq_true, if_pos rfl,
            List.singleton_append, List.map_cons, List.map_map]
          simp only [Function.comp_def, List.append_assoc, List.singleton_append]
      · -- the unit belongs to the first part
        have hu' : (u == backslash) = false := beq_eq_false_iff_ne.mpr hu
        rw [split, if_neg hu]
        cases hparts : split backslash us with
        | nil => exact absurd hparts (split_ne_nil _ _)
        | cons path paths =>
            have hrunning : runningPath ++ u :: (path ++ if paths = [] then [] else [backslash]) =
                runningPath ++ (u :: path) ++ if paths = [] then [] else [backslash] := by
              rw [List.append_assoc, List.cons_append]
            have hfirst := loop_cons hrunning (hlonger _)
            refine hfirst.trans ?_
            by_cases hus : us = []
            · subst hus
              obtain ⟨rfl, rfl⟩ := List.cons.inj hparts
              rw [prefixes_singleton]
              simp [loop]
            · have hrest : runningPath ++ u :: (path ++ if paths = [] then [] else [backslash]) =
                  runningPath ++ [u] ++ path ++ if paths = [] then [] else [backslash] := by
                rw [List.append_assoc, List.append_assoc, List.singleton_append]
              have hne : runningPath ++ u :: (path ++ if paths = [] then [] else [backslash]) ≠
                  runningPath ++ [u] := by
                rw [hrest]
                exact running_ne hus hparts _
              rw [← loop_cons hrest hne, ← hparts, ih _ hus, prefixes_cons u hus, hu',
                if_neg Bool.false_ne_true, List.nil_append, List.map_map]
              simp only [Function.comp_def, List.append_assoc, List.singleton_append]

/-- **Entries.**  A path that is not empty has the items of its prefixes at backslashes. -/
theorem entries_eq {value : Text} (h : value ≠ []) :
    entries value = prefixes (· == backslash) value := by
  rw [entries, replace_self, loop_split [] h]
  exact List.map_id _

/-- The entries are the prefixes if there is no slash before the end. -/
theorem entries_iff (value : Text) :
    entries value = prefixes isSeparator value ↔
      value ≠ [] ∧ ∀ u ∈ value.dropLast, u ≠ slash := by
  by_cases h : value = []
  · subst h
    exact iff_of_false (by decide) fun hne => hne.1 rfl
  · have himp : ∀ u : UInt16, (u == backslash) = true → isSeparator u = true := by
      intro u hu
      rw [isSeparator, hu, Bool.true_or]
    rw [entries_eq h, and_iff_right h, prefixes_eq_iff himp h]
    refine forall_congr' fun u => forall_congr' fun _ => ?_
    by_cases hu : u = backslash
    · subst hu
      exact iff_of_true rfl (by decide)
    · rw [isSeparator, beq_eq_false_iff_ne.mpr hu, Bool.false_or, eq_comm, beq_eq_false_iff_ne]

/-- **Location.**  The items are the prefixes of the path, and each selects its own, exactly when
the path is not empty and has no separator before its last unit. -/
theorem location_iff (s : State) (value : Text) : Right s value ↔ Plain value := by
  have hitems :
      (setLocation s value).items = .choose :: (prefixes isSeparator value).map .location ↔
        entries value = prefixes isSeparator value :=
    (List.cons_inj_right _).trans (List.map_inj_right fun _ _ heq => Item.location.inj heq)
  have hmem : ∀ header,
      .location header ∈ (setLocation s value).items ↔ header ∈ entries value := by
    intro header
    simp [setLocation]
  have hpress : (press (setLocation s value)).selectionBoxItem = (entries value).getLast? := rfl
  rw [Right, hitems, hpress]
  constructor
  · intro hright
    obtain ⟨hentries, hselect⟩ := hright
    have hvalue : value ≠ [] := ((entries_iff value).mp hentries).1
    refine ⟨hvalue, fun u hu => ?_⟩
    by_contra hseparator
    rw [Bool.not_eq_false] at hseparator
    -- two different items select the same
    obtain ⟨path, hpath, hne⟩ := exists_prefix_ne ⟨u, hu, hseparator⟩
    have hself : value ∈ prefixes isSeparator value := self_mem_prefixes value
    rw [← hentries, ← hmem] at hpath hself
    exact hne (Option.some.inj ((hselect path hpath).symm.trans (hselect value hself)))
  · intro hplain
    obtain ⟨hvalue, hseparator⟩ := hplain
    have hone := prefixes_eq_singleton hvalue hseparator
    have hentries : entries value = prefixes isSeparator value := by
      refine (entries_iff value).mpr ⟨hvalue, fun u hu hslash => ?_⟩
      have hu' := hseparator u hu
      rw [hslash] at hu'
      exact absurd hu' (by decide)
    refine ⟨hentries, fun header hheader => ?_⟩
    rw [hmem, hentries, hone, List.mem_singleton] at hheader
    rw [hentries, hone, hheader, List.getLast?_singleton]

/-- Each item selects what the last one shows. -/
theorem items_select_the_last :
    ¬ ∀ (s : State) (value : Text), Right s value := by
  intro h
  have hpress := (h ⟨[], none, none, none⟩ (units "C:\\a")).2 (units "C:\\") (by decide)
  exact absurd hpress (by decide)

end FileInput

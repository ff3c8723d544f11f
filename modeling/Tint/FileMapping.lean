import Tint.NodePath
import Mathlib.Data.List.Perm.Basic
import Mathlib.Data.List.Nodup
import Mathlib.Algebra.BigOperators.Group.List.Basic
import Mathlib.Algebra.Order.Ring.Nat

/-!
# The files of the packager

`getfiles` lists the files under a directory with a list of the directories that are still to be
read.  `getpaths` finds where each belongs: the path of the source directory is taken out of the
path of the file, and what is left is joined with the destination, unless its second unit is a
colon, as behind a drive.  Before that every slash and every backslash becomes the separator of the
platform.  On POSIX a backslash is a unit of a name as any other.

* `getfiles_total` -- the search ends, and has listed the files;
* `maps_iff` -- each file goes to its place in the destination exactly when, on POSIX, no name on
  the way has a backslash and the relative path has no colon as its second unit.
-/

namespace FileMapping

open ScriptSyntax NodePath

/-! ## Directory trees -/

/-- What a path leads to. -/
inductive Entry
  | file
  | directory (names : List Text)
  deriving DecidableEq

/-- What there is at a path.  Where there is nothing, `statSync` and `readdirSync` throw. -/
abbrev FileSystem := Text → Option Entry

/-- The entries of a directory, in the order in which they are read. -/
inductive Tree
  | nil
  | file (name : Text) (rest : Tree)
  | directory (name : Text) (inside rest : Tree)

namespace Tree

/-- The names in a directory. -/
def names : Tree → List Text
  | nil => []
  | file name rest => name :: rest.names
  | directory name _ rest => name :: rest.names

/-- The names of the files. -/
def files : Tree → List Text
  | nil => []
  | file name rest => name :: rest.files
  | directory _ _ rest => rest.files

/-- The directories in a directory. -/
def directories : Tree → List (Text × Tree)
  | nil => []
  | file _ rest => rest.directories
  | directory name inside rest => (name, inside) :: rest.directories

/-- The way from the directory to each file under it. -/
def paths : Tree → List (List Text)
  | nil => []
  | file name rest => [name] :: rest.paths
  | directory name inside rest => inside.paths.map (name :: ·) ++ rest.paths

/-- How many directories there are under it. -/
def size : Tree → ℕ
  | nil => 0
  | file _ rest => rest.size
  | directory _ inside rest => inside.size + 1 + rest.size

/-- What lies at the end of a way. -/
def entry : Tree → List Text → Option Entry
  | tree, [] => some (.directory tree.names)
  | nil, _ :: _ => none
  | file name rest, next :: path =>
      if next = name then (if path = [] then some .file else none) else rest.entry (next :: path)
  | directory name inside rest, next :: path =>
      if next = name then inside.entry path else rest.entry (next :: path)

end Tree

/-- A legal name of a file.  On Windows it has no colon. -/
def LegalName (p : Platform) (name : Text) : Prop :=
  Proper p name ∧ (p = .win32 → colon ∉ name)

/-- Legal names, and no two entries of a directory with one name. -/
def Tree.Legal (p : Platform) : Tree → Prop
  | nil => True
  | file name rest => LegalName p name ∧ name ∉ rest.names ∧ rest.Legal p
  | directory name inside rest =>
      LegalName p name ∧ name ∉ rest.names ∧ inside.Legal p ∧ rest.Legal p

instance (p : Platform) (name : Text) : Decidable (LegalName p name) :=
  inferInstanceAs (Decidable (_ ∧ _))

instance Tree.decidableLegal (p : Platform) : (tree : Tree) → Decidable (tree.Legal p)
  | nil => .isTrue trivial
  | file name rest =>
      have := decidableLegal p rest
      inferInstanceAs (Decidable (LegalName p name ∧ name ∉ rest.names ∧ rest.Legal p))
  | directory name inside rest =>
      have := decidableLegal p inside
      have := decidableLegal p rest
      inferInstanceAs
        (Decidable (LegalName p name ∧ name ∉ rest.names ∧ inside.Legal p ∧ rest.Legal p))

/-- The path of the file or directory at the end of a way. -/
def under {p : Platform} (dir : Absolute p) (path : List Text) : Text :=
  place p dir.device (dir.names ++ path)

/-- The file system has this tree at this directory. -/
structure Holds {p : Platform} (fs : FileSystem) (dir : Absolute p) (tree : Tree) : Prop where
  root : fs dir.text = some (.directory tree.names)
  below : ∀ path, path ≠ [] → (∀ name ∈ path, Proper p name) →
    fs (under dir path) = tree.entry path

/-! ## getfiles -/

/-- The files found, and the directories to be read. -/
structure Search where
  v : List Text
  f : List Text

/-- `isdir` -/
def isdir (fs : FileSystem) (path : Text) : Bool :=
  match fs path with
  | some (.directory _) => true
  | _ => false

/-- One turn of the loop, for the first directory of the list. -/
def turn (p : Platform) (fs : FileSystem) (v : List Text) (target : Text) (f : List Text) :
    Option Search :=
  match fs target with
  | some (.directory names) =>
      let d := names.map (join p target)
      if d.all fun e => (fs e).isSome then
        some {
          f := d.filter (isdir fs) ++ f
          v := d.filter (fun e => !isdir fs e) ++ v }
      else none
  | _ => none

/-- The loop, for so many turns at most. -/
def search (p : Platform) (fs : FileSystem) : ℕ → Search → Option (List Text)
  | _, ⟨v, []⟩ => some v
  | 0, ⟨_, _ :: _⟩ => none
  | turns + 1, ⟨v, target :: f⟩ => (turn p fs v target f).bind (search p fs turns)

/-- `getfiles` -/
def getfiles (p : Platform) (fs : FileSystem) (turns : ℕ) (dir : Text) : Option (List Text) :=
  search p fs turns ⟨[], [dir]⟩

/-! ## getpaths -/

/-- `replace(/\\/g,pa.sep).replace(/\//g,pa.sep)` -/
def slashes (p : Platform) (text : Text) : Text :=
  replace slash [p.sep] (replace backslash [p.sep] text)

/-- `replace(b,'')` of a text: its first occurrence is taken out. -/
def takeOut (b : Text) : Text → Text
  | [] => []
  | u :: us => if b <+: u :: us then (u :: us).drop b.length else u :: takeOut b us

/-- `relative` -/
def relative (p : Platform) (a b : Text) : Text :=
  let a := slashes p a
  let b := slashes p b
  normalize p <|
    if a[0]? = some p.sep ∨ (a[1]? = some colon ∧ b[1]? = some colon) then
      let a := takeOut b a
      if a[0]? = some p.sep then a.drop 1 else a
    else a

/-- `absolute` -/
def absolute (p : Platform) (a b : Text) : Text :=
  let a := slashes p a
  let b := slashes p b
  if a[0]? ≠ some p.sep ∧ a[1]? ≠ some colon then normalize p (join p b a) else a

/-- What `getpaths` returns. -/
structure Paths where
  absin : Text
  absout : Text
  relout : Text
  relin : Text
  relname : Text
  deriving DecidableEq

/-- `getpaths` -/
def getpaths (p : Platform) (file dstdir srcdir : Text) : Paths :=
  let file := normalize p file
  let dstdir := normalize p dstdir
  let srcdir := normalize p srcdir
  { absin := absolute p file srcdir
    absout := absolute p (relative p file srcdir) dstdir
    relout := relative p (relative p file srcdir) dstdir
    relin := relative p file srcdir
    relname := replace backslash [slash] (relative p file srcdir) }

/-! ## The entries of a tree -/

namespace Tree

/-- A file has its name in the directory. -/
theorem mem_names_of_files {tree : Tree} {name : Text} (h : name ∈ tree.files) :
    name ∈ tree.names := by
  induction tree with
  | nil => exact h
  | file first rest ih =>
      cases List.mem_cons.mp h with
      | inl hfirst => exact List.mem_cons.mpr (.inl hfirst)
      | inr hrest => exact List.mem_cons_of_mem first (ih hrest)
  | directory first _ rest _ ih => exact List.mem_cons_of_mem first (ih h)

/-- A directory in it has its name there too. -/
theorem mem_names_of_directories {tree : Tree} {d : Text × Tree} (h : d ∈ tree.directories) :
    d.1 ∈ tree.names := by
  induction tree with
  | nil => exact absurd h List.not_mem_nil
  | file first rest ih => exact List.mem_cons_of_mem first (ih h)
  | directory first inside rest _ ih =>
      cases List.mem_cons.mp h with
      | inl hfirst => exact List.mem_cons.mpr (.inl (congrArg Prod.fst hfirst))
      | inr hrest => exact List.mem_cons_of_mem first (ih hrest)

/-- Each name is that of a file or of a directory. -/
theorem files_or_directories {tree : Tree} {name : Text} (h : name ∈ tree.names) :
    name ∈ tree.files ∨ ∃ d ∈ tree.directories, d.1 = name := by
  induction tree with
  | nil => exact absurd h List.not_mem_nil
  | file first rest ih =>
      cases List.mem_cons.mp h with
      | inl hfirst => exact .inl (List.mem_cons.mpr (.inl hfirst))
      | inr hrest => exact (ih hrest).imp_left (List.mem_cons_of_mem first)
  | directory first inside rest _ ih =>
      cases List.mem_cons.mp h with
      | inl hfirst => exact .inr ⟨(first, inside), List.mem_cons_self, hfirst.symm⟩
      | inr hrest =>
          apply (ih hrest).imp_right
          intro hd
          obtain ⟨d, hd, heq⟩ := hd
          exact ⟨d, List.mem_cons_of_mem _ hd, heq⟩

variable {p : Platform}

/-- The names in a legal tree are legal. -/
theorem legal_of_mem_names {tree : Tree} (h : tree.Legal p) {name : Text}
    (hname : name ∈ tree.names) : LegalName p name := by
  induction tree with
  | nil => exact absurd hname List.not_mem_nil
  | file first rest ih =>
      cases List.mem_cons.mp hname with
      | inl hfirst => exact hfirst ▸ h.1
      | inr hrest => exact ih h.2.2 hrest
  | directory first _ rest _ ih =>
      cases List.mem_cons.mp hname with
      | inl hfirst => exact hfirst ▸ h.1
      | inr hrest => exact ih h.2.2.2 hrest

/-- The directories in a legal tree are legal. -/
theorem legal_of_mem_directories {tree : Tree} (h : tree.Legal p) {d : Text × Tree}
    (hd : d ∈ tree.directories) : d.2.Legal p := by
  induction tree with
  | nil => exact absurd hd List.not_mem_nil
  | file first rest ih => exact ih h.2.2 hd
  | directory first inside rest _ ih =>
      cases List.mem_cons.mp hd with
      | inl hfirst => exact hfirst ▸ h.2.2.1
      | inr hrest => exact ih h.2.2.2 hrest

/-- Each file is found under its name, which no other entry has. -/
theorem entry_of_files {tree : Tree} (h : tree.Legal p) {name : Text} (hname : name ∈ tree.files) :
    tree.entry [name] = some .file := by
  induction tree with
  | nil => exact absurd hname List.not_mem_nil
  | file first rest ih =>
      rw [entry]
      cases List.mem_cons.mp hname with
      | inl hfirst => rw [if_pos hfirst, if_pos rfl]
      | inr hrest =>
          have hne : name ≠ first := fun heq => h.2.1 (heq ▸ mem_names_of_files hrest)
          rw [if_neg hne, ih h.2.2 hrest]
  | directory first inside rest _ ih =>
      have hne : name ≠ first := fun heq => h.2.1 (heq ▸ mem_names_of_files hname)
      rw [entry, if_neg hne, ih h.2.2.2 hname]

/-- A path is followed into the directory that it begins with. -/
theorem entry_of_directories {tree : Tree} (h : tree.Legal p) {d : Text × Tree}
    (hd : d ∈ tree.directories) (path : List Text) :
    tree.entry (d.1 :: path) = d.2.entry path := by
  induction tree with
  | nil => exact absurd hd List.not_mem_nil
  | file first rest ih =>
      have hne : d.1 ≠ first := fun heq => h.2.1 (heq ▸ mem_names_of_directories hd)
      rw [entry, if_neg hne, ih h.2.2 hd]
  | directory first inside rest _ ih =>
      rw [entry]
      cases List.mem_cons.mp hd with
      | inl hfirst => rw [hfirst, if_pos rfl]
      | inr hrest =>
          have hne : d.1 ≠ first := fun heq => h.2.1 (heq ▸ mem_names_of_directories hrest)
          rw [if_neg hne, ih h.2.2.2 hrest]

/-- A test that tells files from directories finds both. -/
theorem filter_names (tree : Tree) (test : Text → Bool)
    (hfiles : ∀ name ∈ tree.files, test name = false)
    (hdirectories : ∀ d ∈ tree.directories, test d.1 = true) :
    tree.names.filter test = tree.directories.map Prod.fst ∧
      tree.names.filter (fun name => !test name) = tree.files := by
  induction tree with
  | nil => exact ⟨rfl, rfl⟩
  | file first rest ih =>
      rw [files, List.forall_mem_cons] at hfiles
      obtain ⟨hdir, hfile⟩ := ih hfiles.2 hdirectories
      simp [names, files, directories, hfiles.1, hdir, hfile]
  | directory first inside rest _ ih =>
      rw [directories, List.forall_mem_cons] at hdirectories
      obtain ⟨hdir, hfile⟩ := ih hfiles hdirectories.2
      simp [names, files, directories, hdirectories.1, hdir, hfile]

/-- The files of the directory itself, and those of the directories in it. -/
theorem paths_perm (tree : Tree) :
    tree.paths.Perm (tree.files.map (fun name => [name]) ++
      tree.directories.flatMap fun d => d.2.paths.map (d.1 :: ·)) := by
  induction tree with
  | nil => exact List.Perm.refl _
  | file name rest ih => exact ih.cons _
  | directory name inside rest _ ih =>
      rw [paths, directories, List.flatMap_cons]
      apply (ih.append_left _).trans
      rw [← List.append_assoc, ← List.append_assoc]
      exact List.perm_append_comm.append_right _

/-- The size of a tree, from its directories. -/
theorem size_eq (tree : Tree) :
    tree.size = (tree.directories.map fun d => d.2.size + 1).sum := by
  induction tree with
  | nil => rfl
  | file _ rest ih => exact ih
  | directory _ inside rest _ ih => rw [size, directories, List.map_cons, List.sum_cons, ih]

/-- A path to a file is not empty. -/
theorem ne_nil_of_mem_paths (tree : Tree) : ∀ path ∈ tree.paths, path ≠ [] := by
  induction tree with
  | nil => exact fun path hpath => absurd hpath List.not_mem_nil
  | file name rest ih =>
      rw [paths, List.forall_mem_cons]
      exact ⟨List.cons_ne_nil _ _, ih⟩
  | directory name inside rest _ ih =>
      rw [paths, List.forall_mem_append, List.forall_mem_map]
      exact ⟨fun _ _ => List.cons_ne_nil _ _, ih⟩

/-- A path to a file goes through legal names. -/
theorem legal_of_mem_paths {tree : Tree} (h : tree.Legal p) :
    ∀ path ∈ tree.paths, ∀ name ∈ path, LegalName p name := by
  induction tree with
  | nil => exact fun path hpath => absurd hpath List.not_mem_nil
  | file name rest ih =>
      rw [paths, List.forall_mem_cons, List.forall_mem_singleton]
      exact ⟨h.1, ih h.2.2⟩
  | directory name inside rest ihinside ih =>
      rw [paths, List.forall_mem_append, List.forall_mem_map]
      refine ⟨fun path hpath => ?_, ih h.2.2.2⟩
      rw [List.forall_mem_cons]
      exact ⟨h.1, ihinside h.2.2.1 path hpath⟩

/-- The first name on a way is one of the names of the directory. -/
theorem head_mem_names {tree : Tree} {name : Text} {path : List Text}
    (h : name :: path ∈ tree.paths) : name ∈ tree.names := by
  induction tree with
  | nil => exact absurd h List.not_mem_nil
  | file first rest ih =>
      cases List.mem_cons.mp h with
      | inl hfirst => exact List.mem_cons.mpr (.inl (List.cons.inj hfirst).1)
      | inr hrest => exact List.mem_cons_of_mem first (ih hrest)
  | directory first inside rest _ ih =>
      rw [paths, List.mem_append, List.mem_map] at h
      obtain ⟨_, _, heq⟩ | hrest := h
      · exact List.mem_cons.mpr (.inl (List.cons.inj heq).1.symm)
      · exact List.mem_cons_of_mem first (ih hrest)

/-- No file has two paths. -/
theorem paths_nodup {tree : Tree} (h : tree.Legal p) : tree.paths.Nodup := by
  induction tree with
  | nil => exact List.nodup_nil
  | file name rest ih =>
      rw [paths, List.nodup_cons]
      exact ⟨fun hmem => h.2.1 (head_mem_names hmem), ih h.2.2⟩
  | directory name inside rest ihinside ih =>
      rw [paths, List.nodup_append']
      refine ⟨(ihinside h.2.2.1).map (List.cons_injective), ih h.2.2.2, ?_⟩
      intro path hpath hrest
      obtain ⟨tail, _, rfl⟩ := List.mem_map.mp hpath
      exact h.2.1 (head_mem_names hrest)

end Tree

/-! ## The search -/

/-- A directory that is still to be read, and what is in it. -/
structure Pending (p : Platform) (fs : FileSystem) where
  dir : Absolute p
  tree : Tree
  legal : tree.Legal p
  holds : Holds fs dir tree

namespace Pending

variable {p : Platform} {fs : FileSystem} (w : Pending p fs)

theorem join_eq {name : Text} (h : Proper p name) :
    join p w.dir.text name = under w.dir [name] := by
  have hjoin := w.dir.join_text (List.cons_ne_nil name [])
    (List.forall_mem_singleton.mpr h)
  rwa [joinNames, List.intercalate_singleton] at hjoin

theorem shows {name : Text} (hname : name ∈ w.tree.names) :
    fs (join p w.dir.text name) = w.tree.entry [name] := by
  have hproper := (Tree.legal_of_mem_names w.legal hname).1
  rw [w.join_eq hproper]
  exact w.holds.below _ (List.cons_ne_nil _ _) (List.forall_mem_singleton.mpr hproper)

theorem shows_file {name : Text} (hname : name ∈ w.tree.files) :
    fs (join p w.dir.text name) = some .file := by
  rw [w.shows (Tree.mem_names_of_files hname), Tree.entry_of_files w.legal hname]

theorem shows_directory {d : Text × Tree} (hd : d ∈ w.tree.directories) :
    fs (join p w.dir.text d.1) = some (.directory d.2.names) := by
  rw [w.shows (Tree.mem_names_of_directories hd), Tree.entry_of_directories w.legal hd, Tree.entry]

/-- A directory in it. -/
def child (d : Text × Tree) (hd : d ∈ w.tree.directories) : Pending p fs where
  dir := w.dir.walk [d.1] (List.forall_mem_singleton.mpr
    (Tree.legal_of_mem_names w.legal (Tree.mem_names_of_directories hd)).1)
  tree := d.2
  legal := Tree.legal_of_mem_directories w.legal hd
  holds := by
    have hname := (Tree.legal_of_mem_names w.legal (Tree.mem_names_of_directories hd)).1
    constructor
    · rw [Absolute.walk_text, ← w.shows_directory hd, w.join_eq hname]
      rfl
    · intro path _ hpath
      rw [under, Absolute.walk_device, Absolute.walk_names, List.append_assoc,
        List.singleton_append, ← Tree.entry_of_directories w.legal hd]
      exact w.holds.below _ (List.cons_ne_nil _ _) (List.forall_mem_cons.mpr ⟨hname, hpath⟩)

/-- The paths of the files under it. -/
def found : List Text := w.tree.paths.map (under w.dir)

/-- What is pending for the directories in it. -/
def children : List (Pending p fs) := w.tree.directories.attach.map fun d => w.child d.1 d.2

/-- Where the directories in it are. -/
theorem children_text : w.children.map (·.dir.text) =
    (w.tree.directories.map Prod.fst).map (join p w.dir.text) := by
  rw [children, List.map_map, List.map_map]
  conv_rhs => rw [← List.attach_map_subtype_val w.tree.directories, List.map_map]
  apply List.map_congr_left
  intro d _
  exact (w.join_eq (Tree.legal_of_mem_names w.legal (Tree.mem_names_of_directories d.2)).1).symm

/-- What will be found in the directories in it. -/
theorem children_found : w.children.flatMap found =
    (w.tree.directories.flatMap fun d => d.2.paths.map (d.1 :: ·)).map (under w.dir) := by
  rw [children, List.flatMap_map, List.map_flatMap]
  conv_rhs => rw [← List.attach_map_subtype_val w.tree.directories, List.flatMap_map]
  apply List.flatMap_congr
  intro d _
  rw [found, List.map_map]
  apply List.map_congr_left
  intro path _
  rw [child, under, Absolute.walk_device, Absolute.walk_names, List.append_assoc]
  rfl

theorem children_size : (w.children.map fun c => c.tree.size + 1).sum = w.tree.size := by
  rw [Tree.size_eq, children, List.map_map]
  conv_rhs => rw [← List.attach_map_subtype_val w.tree.directories, List.map_map]
  rfl

/-- One turn reads the directory: its files are found and its directories are to be read. -/
theorem turn_eq (v f : List Text) :
    turn p fs v w.dir.text f = some {
      f := w.children.map (·.dir.text) ++ f
      v := w.tree.files.map (fun name => under w.dir [name]) ++ v } := by
  have hall : ((w.tree.names.map (join p w.dir.text)).all fun e => (fs e).isSome) = true := by
    rw [List.all_eq_true, List.forall_mem_map]
    intro name hname
    obtain hfile | ⟨d, hd, rfl⟩ := Tree.files_or_directories hname
    · rw [w.shows_file hfile, Option.isSome_some]
    · rw [w.shows_directory hd, Option.isSome_some]
  have hfilter := Tree.filter_names w.tree (fun name => isdir fs (join p w.dir.text name))
    (fun name hname => by simp only [isdir, w.shows_file hname])
    (fun d hd => by simp only [isdir, w.shows_directory hd])
  have hfiles : w.tree.files.map (join p w.dir.text) =
      w.tree.files.map fun name => under w.dir [name] := by
    apply List.map_congr_left
    intro name hname
    exact w.join_eq (Tree.legal_of_mem_names w.legal (Tree.mem_names_of_files hname)).1
  simp only [turn, w.holds.root, hall, if_true, List.filter_map, Function.comp_def, hfilter.1,
    hfilter.2, children_text, hfiles]

/-- What has been found after the turn, or will be found in the directories to be read. -/
theorem found_perm (v : List Text) :
    (v ++ w.found).Perm ((w.tree.files.map (fun name => under w.dir [name]) ++ v) ++
      w.children.flatMap found) := by
  have hpaths := (w.tree.paths_perm).map (under w.dir)
  rw [List.map_append, List.map_map, ← w.children_found] at hpaths
  apply (hpaths.append_left v).trans
  rw [← List.append_assoc]
  exact List.perm_append_comm.append_right _

end Pending

/-- The search reads each directory once: its turns are as many as the directories. -/
theorem search_total {p : Platform} {fs : FileSystem} (n : ℕ) (ws : List (Pending p fs))
    (hn : (ws.map fun w => w.tree.size + 1).sum = n) (v : List Text) :
    ∃ found, (∀ turns, n ≤ turns → search p fs turns ⟨v, ws.map (·.dir.text)⟩ = some found) ∧
      found.Perm (v ++ ws.flatMap Pending.found) := by
  induction n generalizing ws v with
  | zero =>
      cases ws with
      | nil =>
          refine ⟨v, fun turns _ => by cases turns <;> rfl, ?_⟩
          rw [List.flatMap_nil, List.append_nil]
      | cons w ws =>
          rw [List.map_cons, List.sum_cons] at hn
          omega
  | succ n ih =>
      cases ws with
      | nil => exact absurd hn (Nat.succ_ne_zero n).symm
      | cons w ws =>
          have hsize : ((w.children ++ ws).map fun w => w.tree.size + 1).sum = n := by
            rw [List.map_cons, List.sum_cons] at hn
            rw [List.map_append, List.sum_append, w.children_size]
            omega
          obtain ⟨found, hsearch, hperm⟩ := ih (w.children ++ ws) hsize
            (w.tree.files.map (fun name => under w.dir [name]) ++ v)
          refine ⟨found, ?_, ?_⟩
          · intro turns hturns
            cases turns with
            | zero => exact absurd hturns (Nat.not_succ_le_zero n)
            | succ turns =>
                rw [List.map_cons, search, w.turn_eq, Option.bind_some, ← List.map_append]
                exact hsearch turns (Nat.le_of_succ_le_succ hturns)
          · apply hperm.trans
            rw [List.flatMap_append, List.flatMap_cons, ← List.append_assoc, ← List.append_assoc]
            exact ((w.found_perm v).append_right _).symm

/-- `getfiles` ends, with each file under the directory once. -/
theorem getfiles_total {p : Platform} {fs : FileSystem} (src : Absolute p) {tree : Tree}
    (hlegal : tree.Legal p) (hholds : Holds fs src tree) :
    ∃ found, (∀ turns, tree.size + 1 ≤ turns → getfiles p fs turns src.text = some found) ∧
      found.Perm (tree.paths.map (under src)) := by
  obtain ⟨found, hsearch, hperm⟩ :=
    search_total (tree.size + 1) [⟨src, tree, hlegal, hholds⟩] (by simp) []
  refine ⟨found, hsearch, ?_⟩
  rwa [List.flatMap_singleton, List.nil_append] at hperm

/-! ## Relative paths -/

/-- Slashes are turned unit by unit. -/
theorem slashes_eq_map (p : Platform) (text : Text) :
    slashes p text = text.map fun u => if u = slash ∨ u = backslash then p.sep else u := by
  have hunit : ∀ u : UInt16,
      replace slash [p.sep] (if u = backslash then [p.sep] else [u]) =
        [if u = slash ∨ u = backslash then p.sep else u] := by
    intro u
    by_cases hback : u = backslash
    · rw [if_pos hback, if_pos (.inr hback)]
      cases p <;> rfl
    · rw [if_neg hback]
      by_cases hslash : u = slash
      · rw [if_pos (.inl hslash), hslash]
        cases p <;> rfl
      · rw [if_neg (not_or.mpr ⟨hslash, hback⟩), replace, List.flatMap_singleton, if_neg hslash]
  rw [slashes, replace, replace, List.flatMap_assoc, List.map_eq_flatMap]
  apply List.flatMap_congr
  intro u _
  exact hunit u

theorem slashes_append (p : Platform) (a b : Text) :
    slashes p (a ++ b) = slashes p a ++ slashes p b := by
  rw [slashes_eq_map, slashes_eq_map, slashes_eq_map, List.map_append]

/-- Nothing changes where every slash is a separator as this platform writes it. -/
theorem slashes_eq_self {p : Platform} {text : Text}
    (h : ∀ u ∈ text, u = slash ∨ u = backslash → u = p.sep) : slashes p text = text := by
  rw [slashes_eq_map]
  conv_rhs => rw [← List.map_id text]
  apply List.map_congr_left
  intro u hu
  rw [id]
  split_ifs with hslash
  · exact (h u hu hslash).symm
  · rfl

/-- On POSIX no backslash is left. -/
theorem backslash_not_mem_slashes (text : Text) : backslash ∉ slashes .posix text := by
  rw [slashes_eq_map, List.mem_map]
  intro h
  obtain ⟨u, _, hu⟩ := h
  split_ifs at hu with hslash
  · exact absurd hu (by decide)
  · exact hslash (.inr hu)

/-- A beginning is taken out once. -/
theorem takeOut_prefix {b : Text} (hb : b ≠ []) (text : Text) : takeOut b (b ++ text) = text := by
  cases b with
  | nil => exact absurd rfl hb
  | cons u us =>
      rw [List.cons_append, takeOut, if_pos]
      · exact List.drop_left
      · exact List.prefix_append (u :: us) text

/-- A unit of joined paths is a separator, a dot, or from one of them. -/
theorem mem_join_posix {a b : Text} {u : UInt16} (hu : u ∈ join .posix a b) :
    u = slash ∨ u = dot ∨ u ∈ a ∨ u ∈ b := by
  rw [join] at hu
  split_ifs at hu
  · exact (mem_normalize_posix hu).imp_right (Or.imp_right .inr)
  · exact (mem_normalize_posix hu).imp_right (Or.imp_right .inl)
  · obtain hslash | hdot | hmem := mem_normalize_posix hu
    · exact .inl hslash
    · exact .inr (.inl hdot)
    · rw [collapse, List.mem_append, List.mem_cons] at hmem
      obtain ha | hsep | hb := hmem
      · exact .inr (.inr (.inl ha))
      · exact .inl hsep
      · exact .inr (.inr (.inr hb))

/-- On POSIX `absolute` leaves no backslash in its first path. -/
theorem backslash_not_mem_absolute (a b : Text) : backslash ∉ absolute .posix a b := by
  intro h
  simp only [absolute] at h
  split_ifs at h
  · obtain hslash | hdot | hmem := mem_normalize_posix h
    · exact absurd hslash (by decide)
    · exact absurd hdot (by decide)
    · obtain hslash | hdot | hb | ha := mem_join_posix hmem
      · exact absurd hslash (by decide)
      · exact absurd hdot (by decide)
      · exact backslash_not_mem_slashes b hb
      · exact backslash_not_mem_slashes a ha
  · exact backslash_not_mem_slashes a h

section Under

variable {p : Platform} (src : Absolute p) {path : List Text} (hne : path ≠ [])
  (h : ∀ name ∈ path, Proper p name)

include hne in
/-- The path of a file begins with the normal path of the directory. -/
theorem under_eq : ∃ gap, (gap = [] ∨ gap = [p.sep]) ∧
    under src path = src.normal.text ++ (gap ++ joinNames p path) := by
  rw [src.normal_text, under, place]
  by_cases hnames : src.names = []
  · refine ⟨[], .inl rfl, ?_⟩
    rw [hnames, if_neg (fun hand => hand.1 rfl), List.append_assoc]
    rfl
  · rw [joinNames_append hnames hne]
    by_cases hends : endsSep p src.rest = true
    · refine ⟨[], .inl rfl, ?_⟩
      rw [if_pos ⟨hnames, hends⟩]
      simp only [List.append_assoc, List.cons_append, List.nil_append]
    · refine ⟨[p.sep], .inr rfl, ?_⟩
      rw [if_neg (fun hand => hends hand.2)]
      simp only [List.append_assoc, List.cons_append, List.nil_append]

/-- An absolute path begins with a separator, or with the colon behind the letter of a drive. -/
theorem slashes_marked : (slashes p src.normal.text)[0]? = some p.sep ∨
    (slashes p src.normal.text)[1]? = some colon := by
  have hlegal := src.legal
  have hsep : p.sep = slash ∨ p.sep = backslash := by cases p <;> simp [Platform.sep]
  rw [src.normal_text, slashes_eq_map]
  cases hdevice : src.device with
  | none => exact .inl (by simp [Device.text, hsep])
  | drive letter => exact .inr (by simp [Device.text, colon, slash, backslash])
  | unc server share => exact .inl (by simp [Device.text])

include h in
/-- Names without slashes of another platform stay as they are. -/
theorem slashes_joinNames (hback : p = .posix → ∀ name ∈ path, backslash ∉ name) :
    slashes p (joinNames p path) = joinNames p path := by
  apply slashes_eq_self
  intro u hu hslash
  obtain hsep | ⟨name, hname, hmem⟩ := mem_joinNames hu
  · exact hsep
  · have hno := (h name hname).no_sep u hmem
    cases p with
    | posix =>
        obtain rfl | rfl := hslash
        · exact absurd hno (by decide)
        · exact absurd hmem (hback rfl name hname)
    | win32 => obtain rfl | rfl := hslash <;> exact absurd hno (by decide)

/-- A device has no slash to turn. -/
theorem slashes_device {device : Device} (hdevice : device.Legal p) :
    slashes p device.text = device.text := by
  apply slashes_eq_self
  intro u hu hslash
  have hwin : p = .win32 → isSep p u = true := by
    intro hp
    subst hp
    obtain rfl | rfl := hslash <;> rfl
  cases device with
  | none => exact absurd hu List.not_mem_nil
  | drive letter =>
      have hsep := hwin hdevice.1
      obtain hletter | hcolon := List.mem_pair.mp hu
      · rw [hletter, isSep_of_isLetter hdevice.2] at hsep
        exact absurd hsep Bool.false_ne_true
      · rw [hcolon, isSep_colon] at hsep
        exact absurd hsep Bool.false_ne_true
  | unc server share =>
      obtain ⟨hp, hserver, hshare⟩ := hdevice
      have hsep := hwin hp
      subst hp
      simp only [Device.text, List.cons_append, List.mem_cons, List.mem_append] at hu
      obtain hback | hback | hmem | hback | hmem := hu
      · exact hback
      · exact hback
      · rw [hserver.2 u hmem] at hsep
        exact absurd hsep Bool.false_ne_true
      · exact hback
      · rw [hshare.2 u hmem] at hsep
        exact absurd hsep Bool.false_ne_true

/-- Nor has a path in normal form, if no name in it has a backslash. -/
theorem slashes_normal (hback : p = .posix → ∀ name ∈ src.names, backslash ∉ name) :
    slashes p src.normal.text = src.normal.text := by
  have hsep : slashes p [p.sep] = [p.sep] := by cases p <;> rfl
  rw [src.normal_text, slashes_append, slashes_append, slashes_append, slashes_device src.legal,
    hsep, slashes_joinNames src.proper hback]
  split_ifs
  · rw [hsep]
  · rfl

include hne h in
/-- `relative` finds the names on the way. -/
theorem relative_under (hback : p = .posix → ∀ name ∈ path, backslash ∉ name)
    (hmark : p = .win32 → (joinNames p path)[1]? ≠ some colon) :
    relative p (under src path) src.normal.text = joinNames p path := by
  obtain ⟨gap, hgap, hunder⟩ := under_eq src hne
  have hnames := slashes_joinNames h hback
  have hsep : slashes p gap = gap := by obtain rfl | rfl := hgap <;> cases p <;> rfl
  have hB : slashes p src.normal.text ≠ [] := by
    rw [slashes_eq_map, Ne, List.map_eq_nil_iff]
    exact src.normal.text_ne_nil
  have hA : slashes p (under src path) =
      slashes p src.normal.text ++ (gap ++ joinNames p path) := by
    rw [hunder, slashes_append, slashes_append, hsep, hnames]
  have hmarked : (slashes p (under src path))[0]? = some p.sep ∨
      ((slashes p (under src path))[1]? = some colon ∧
        (slashes p src.normal.text)[1]? = some colon) := by
    rw [hA]
    cases slashes_marked src with
    | inl hhead =>
        left
        rw [List.getElem?_append_left (List.length_pos_of_ne_nil hB)]
        exact hhead
    | inr hcolon =>
        obtain ⟨hlt, _⟩ := List.getElem?_eq_some_iff.mp hcolon
        right
        rw [List.getElem?_append_left hlt]
        exact ⟨hcolon, hcolon⟩
  rw [hA] at hmarked
  simp only [relative, hA, if_pos hmarked, takeOut_prefix hB]
  obtain rfl | rfl := hgap
  · rw [List.nil_append, if_neg (joinNames_zero_ne_sep h)]
    exact normalize_joinNames hne h hmark
  · have hsep : ([p.sep] ++ joinNames p path)[0]? = some p.sep := rfl
    rw [if_pos hsep]
    exact normalize_joinNames hne h hmark

include hne h in
/-- `absolute` joins what has no colon behind its first unit. -/
theorem absolute_joinNames (hback : p = .posix → ∀ name ∈ path, backslash ∉ name)
    (hdir : p = .posix → ∀ name ∈ src.names, backslash ∉ name)
    (hmark : (joinNames p path)[1]? ≠ some colon) :
    absolute p (joinNames p path) src.normal.text = under src path := by
  simp only [absolute, slashes_joinNames h hback, slashes_normal src hdir]
  rw [if_pos ⟨joinNames_zero_ne_sep h, hmark⟩, src.normal.join_text hne h,
    src.normal.normalize_walk hne h, Absolute.walk_text, Absolute.normal_device,
    Absolute.normal_names]
  rfl

end Under

/-! ## The property and the condition -/

section Mapping

variable {p : Platform}

/-- Where `getpaths` takes the file at the end of a way. -/
def destination (src dst : Absolute p) (path : List Text) : Text :=
  (getpaths p (under src path) dst.text src.text).absout

/-- A path in or under a directory. -/
def Within (dir : Absolute p) (text : Text) : Prop :=
  ∃ a : Absolute p, a.text = text ∧ a.device = dir.device ∧ dir.names <+: a.names

/-- The files are listed, and each goes to its place in the destination. -/
structure Maps (fs : FileSystem) (src dst : Absolute p) (tree : Tree) : Prop where
  lists : ∃ n found, (∀ turns, n ≤ turns → getfiles p fs turns src.text = some found) ∧
    found.Nodup ∧ ∀ file, file ∈ found ↔ file ∈ tree.paths.map (under src)
  joins : ∀ path ∈ tree.paths, destination src dst path = under dst path
  distinct : ∀ path ∈ tree.paths, ∀ other ∈ tree.paths,
    destination src dst path = destination src dst other → path = other
  within : ∀ path ∈ tree.paths, Within dst (destination src dst path)

/-- On POSIX: no backslash in a name of the destination or on the way, and no colon as the second
unit of the relative path. -/
def Plain (dst : Absolute p) (path : List Text) : Prop :=
  p = .posix → (∀ name ∈ dst.names, backslash ∉ name) ∧ (∀ name ∈ path, backslash ∉ name) ∧
    (joinNames p path)[1]? ≠ some colon

instance (dst : Absolute p) (path : List Text) : Decidable (Plain dst path) :=
  inferInstanceAs (Decidable (p = .posix → _))

/-- Different paths lead to different places. -/
theorem under_injective (dir : Absolute p) {path other : List Text}
    (h : ∀ name ∈ path, Proper p name) (hother : ∀ name ∈ other, Proper p name)
    (heq : under dir path = under dir other) : path = other := by
  have hnames : (dir.walk path h).names = (dir.walk other hother).names := congrArg (names p) heq
  rw [Absolute.walk_names, Absolute.walk_names] at hnames
  exact List.append_cancel_left hnames

theorem within_under (dir : Absolute p) {path : List Text} (h : ∀ name ∈ path, Proper p name) :
    Within dir (under dir path) := by
  refine ⟨dir.walk path h, rfl, dir.walk_device h, ?_⟩
  rw [Absolute.walk_names]
  exact List.prefix_append _ _

/-- On Windows no legal name has a colon. -/
theorem joinNames_one_ne_colon {path : List Text} (h : ∀ name ∈ path, LegalName p name)
    (hp : p = .win32) : (joinNames p path)[1]? ≠ some colon := by
  intro hsome
  obtain hsep | ⟨name, hname, hmem⟩ := mem_joinNames (List.mem_of_getElem? hsome)
  · subst hp
    exact absurd hsep (by decide)
  · exact (h name hname).2 hp hmem

/-- A file goes where its path leads, exactly if the path is plain there. -/
theorem destination_eq_iff (src dst : Absolute p) {path : List Text} (hne : path ≠ [])
    (h : ∀ name ∈ path, LegalName p name) :
    destination src dst path = under dst path ↔ Plain dst path := by
  have hproper : ∀ name ∈ path, Proper p name := fun name hname => (h name hname).1
  have hnormal : normalize p (under src path) = under src path := src.normalize_walk hne hproper
  have hdestination : destination src dst path =
      absolute p (relative p (under src path) src.normal.text) dst.normal.text := by
    rw [destination, getpaths, hnormal, src.normalize_text, dst.normalize_text]
  rw [hdestination]
  constructor
  · intro heq hp
    subst hp
    have hback : backslash ∉ under dst path := by
      rw [← heq]
      exact backslash_not_mem_absolute _ _
    have hnames : ∀ name ∈ dst.names ++ path, backslash ∉ name := by
      intro name hname hmem
      exact hback (List.mem_append_right _ (List.mem_cons_of_mem _
        (mem_joinNames_of_mem hname hmem)))
    rw [List.forall_mem_append] at hnames
    refine ⟨hnames.1, hnames.2, ?_⟩
    -- with the colon the relative path is taken for an absolute one
    intro hcolon
    rw [relative_under src hne hproper (fun _ => hnames.2) (fun hp => Platform.noConfusion hp)]
      at heq
    have hkept : absolute .posix (joinNames .posix path) dst.normal.text =
        joinNames .posix path := by
      simp only [absolute, slashes_joinNames hproper fun _ => hnames.2]
      exact if_neg fun hand => hand.2 hcolon
    rw [hkept] at heq
    apply joinNames_zero_ne_sep hproper
    have hdevice : dst.device = .none := rfl
    rw [heq, under, place, hdevice]
    rfl
  · intro hplain
    have hmark : (joinNames p path)[1]? ≠ some colon := by
      cases hp : p with
      | posix => exact hp ▸ (hplain hp).2.2
      | win32 => exact hp ▸ joinNames_one_ne_colon h hp
    rw [relative_under src hne hproper (fun hp => (hplain hp).2.1) (fun _ => hmark),
      absolute_joinNames dst hne hproper (fun hp => (hplain hp).2.1) (fun hp => (hplain hp).1)
        hmark]

/-- The files go to their places exactly when every way to one is plain. -/
theorem maps_iff (fs : FileSystem) (src dst : Absolute p) (tree : Tree) (hlegal : tree.Legal p)
    (hholds : Holds fs src tree) :
    Maps fs src dst tree ↔ ∀ path ∈ tree.paths, Plain dst path := by
  have hne := tree.ne_nil_of_mem_paths
  have hnames := Tree.legal_of_mem_paths hlegal
  have hproper : ∀ path ∈ tree.paths, ∀ name ∈ path, Proper p name :=
    fun path hpath name hname => (hnames path hpath name hname).1
  constructor
  · intro h path hpath
    exact (destination_eq_iff src dst (hne path hpath) (hnames path hpath)).mp (h.joins path hpath)
  · intro h
    have hjoins : ∀ path ∈ tree.paths, destination src dst path = under dst path :=
      fun path hpath => (destination_eq_iff src dst (hne path hpath) (hnames path hpath)).mpr
        (h path hpath)
    obtain ⟨found, hfound, hperm⟩ := getfiles_total src hlegal hholds
    refine ⟨⟨_, found, hfound, ?_, fun file => hperm.mem_iff⟩, hjoins, ?_, ?_⟩
    · rw [hperm.nodup_iff]
      apply (Tree.paths_nodup hlegal).map_on
      intro path hpath other hother heq
      exact under_injective src (hproper path hpath) (hproper other hother) heq
    · intro path hpath other hother heq
      rw [hjoins path hpath, hjoins other hother] at heq
      exact under_injective dst (hproper path hpath) (hproper other hother) heq
    · intro path hpath
      rw [hjoins path hpath]
      exact within_under dst (hproper path hpath)

/-- A file system with nothing but this tree. -/
def mounted (dir : Absolute p) (tree : Tree) : FileSystem := fun text =>
  if text = dir.text then some (.directory tree.names)
  else if (splitDevice p text).1 = dir.device ∧ dir.names <+: names p text then
    tree.entry ((names p text).drop dir.names.length)
  else none

/-- A mounted tree is held by its file system. -/
theorem mounted_holds (dir : Absolute p) (tree : Tree) : Holds (mounted dir tree) dir tree where
  root := if_pos rfl
  below := by
    intro path hne hproper
    have hdevice : (splitDevice p (under dir path)).1 = dir.device := dir.walk_device hproper
    have hnames : names p (under dir path) = dir.names ++ path := dir.walk_names hproper
    have htext : under dir path ≠ dir.text := by
      intro heq
      rw [heq] at hnames
      exact hne (List.self_eq_append_right.mp hnames)
    rw [mounted, if_neg htext, hnames, hdevice, if_pos ⟨rfl, List.prefix_append _ _⟩,
      List.drop_left]

end Mapping

/-! ## Two trees on POSIX -/

/-- A source directory on a POSIX system. -/
def source : Absolute .posix where
  text := units "/s"
  absolute := by decide +kernel
  placed := fun hp => Platform.noConfusion hp

/-- A destination directory on a POSIX system. -/
def target : Absolute .posix where
  text := units "/d/"
  absolute := by decide +kernel
  placed := fun hp => Platform.noConfusion hp

/-- Names that repeat, also the one of the source directory. -/
def nested : Tree :=
  .directory (units "s") (.file (units "x") (.directory (units "s") (.file (units "x") .nil) .nil))
    (.file (units "x") .nil)

theorem maps_iff_nested : Maps (mounted source nested) source target nested :=
  (maps_iff (mounted source nested) source target nested (by decide +kernel)
    (mounted_holds source nested)).mpr
    (by decide +kernel)

/-- A file whose name begins as the way to the directory above on Windows. -/
def dotted : Tree := .file (units "..\\x") .nil

/-- It is taken out of the destination, to `/x`. -/
theorem backslash_leaves : ¬ ∀ (fs : FileSystem) (src dst : Absolute .posix) (tree : Tree),
    tree.Legal .posix → Holds fs src tree → Maps fs src dst tree := by
  intro h
  have hlegal : dotted.Legal .posix := by decide +kernel
  have hmaps := h _ source target dotted hlegal (mounted_holds source dotted)
  obtain ⟨a, htext, _, hprefix⟩ := hmaps.within [units "..\\x"] (by decide +kernel)
  have hdestination : destination source target [units "..\\x"] = units "/x" := by decide +kernel
  have hnames : a.names = names .posix (units "/x") :=
    congrArg (names .posix) (htext.trans hdestination)
  rw [hnames] at hprefix
  exact absurd hprefix (by decide +kernel)

end FileMapping

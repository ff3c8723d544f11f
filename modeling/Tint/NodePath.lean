import Tint.ScriptSyntax
import Mathlib.Data.List.Infix

/-!
# Paths of Node

The functions `normalize`, `join` and `isAbsolute` of the module `path` of Node, as documented, on
both platforms.  On Windows a path may begin with a device (a drive, or a server and a share) and
both slashes separate names.

* `Absolute` -- the absolute paths of directories, each with a device and the names on the way;
* `normalize_text` -- what `normalize` makes of such a path;
* `join_text` -- joining it with names adds these names.
-/

namespace NodePath

open ScriptSyntax

/-- The two versions of `path`. -/
inductive Platform
  | posix
  | win32
  deriving DecidableEq

def slash : UInt16 := 0x2F

/-- The mark behind the letter of a drive. -/
def colon : UInt16 := 0x3A

/-- `path.sep` -/
def Platform.sep : Platform → UInt16
  | .posix => slash
  | .win32 => backslash

/-- What separates names. -/
def isSep : Platform → UInt16 → Bool
  | .posix, u => u == slash
  | .win32, u => u == slash || u == backslash

/-- The letter of a drive. -/
def isLetter (u : UInt16) : Bool := (0x41 ≤ u && u ≤ 0x5A) || (0x61 ≤ u && u ≤ 0x7A)

/-- What a path of Windows begins with. -/
inductive Device
  | none
  | drive (letter : UInt16)
  | unc (server share : Text)
  deriving DecidableEq

/-- The device as it is printed. -/
def Device.text : Device → Text
  | .none => []
  | .drive letter => [letter, colon]
  | .unc server share => backslash :: backslash :: server ++ backslash :: share

/-- A drive at the beginning of a path. -/
def splitDrive : Text → Option (Device × Text)
  | letter :: mark :: rest =>
      if isLetter letter = true ∧ mark = colon then some (.drive letter, rest) else none
  | _ => none

/-- The server after two separators, and the share after the next ones. -/
def splitShare : Text → Option (Device × Text)
  | first :: second :: text =>
      let server := text.takeWhile fun u => !isSep .win32 u
      let rest := (text.dropWhile fun u => !isSep .win32 u).dropWhile (isSep .win32)
      let share := rest.takeWhile fun u => !isSep .win32 u
      if isSep .win32 first = true ∧ isSep .win32 second = true ∧ server ≠ [] ∧ share ≠ [] then
        some (.unc server share, rest.dropWhile fun u => !isSep .win32 u)
      else none
  | _ => none

/-- The device and what is behind it. -/
def splitDevice : Platform → Text → Device × Text
  | .posix, text => (.none, text)
  | .win32, text => ((splitDrive text).or (splitShare text)).getD (.none, text)

/-- The path begins with a separator. -/
def beginsSep (p : Platform) (text : Text) : Bool := text.head?.any (isSep p)

/-- The path ends with a separator. -/
def endsSep (p : Platform) (text : Text) : Bool := text.getLast?.any (isSep p)

/-- The share of a server is absolute without a separator behind it. -/
def Device.rooted : Device → Bool
  | .unc _ _ => true
  | _ => false

/-- `isAbsolute` -/
def isAbsolute (p : Platform) (text : Text) : Bool :=
  (splitDevice p text).1.rooted || beginsSep p (splitDevice p text).2

/-- One part of a path, on the stack of the parts before it. -/
def push (rooted : Bool) (stack : List Text) (part : Text) : List Text :=
  if part = [] ∨ part = [dot] then stack
  else if part = [dot, dot] then
    match stack with
    | [] => if rooted then [] else [part]
    | top :: below => if top = [dot, dot] then part :: stack else below
  else part :: stack

/-- `normalizeArray`, without the parts that do not count -/
def normalizeArray (rooted : Bool) (parts : List Text) : List Text :=
  (parts.foldl (push rooted) []).reverse

/-- The names that a path goes through. -/
def names (p : Platform) (text : Text) : List Text :=
  normalizeArray (isAbsolute p text) ((splitDevice p text).2.splitOnP (isSep p))

/-- Names between separators. -/
def joinNames (p : Platform) (names : List Text) : Text := [p.sep].intercalate names

/-- `normalize` -/
def normalize (p : Platform) (text : Text) : Text :=
  let tail := joinNames p (names p text)
  let tail := if tail = [] ∧ isAbsolute p text = false then [dot] else tail
  let tail := if tail ≠ [] ∧ endsSep p (splitDevice p text).2 then tail ++ [p.sep] else tail
  (splitDevice p text).1.text ++ (if isAbsolute p text then [p.sep] else []) ++ tail

/-- Two separators and something else: the beginning of a server. -/
def beginsServer : Text → Bool
  | first :: second :: third :: _ =>
      isSep .win32 first && isSep .win32 second && !isSep .win32 third
  | _ => false

/-- Two separators at the beginning become one, unless the first of the joined paths begins with a
server. -/
def collapse : Platform → Text → Text → Text
  | .posix, _, joined => joined
  | .win32, first, joined =>
      if beginsServer first then joined
      else
        match joined with
        | u :: v :: rest =>
            if isSep .win32 u = true ∧ isSep .win32 v = true then
              backslash :: rest.dropWhile (isSep .win32)
            else joined
        | _ => joined

/-- `join` -/
def join (p : Platform) (first second : Text) : Text :=
  if first = [] then normalize p (collapse p second second)
  else if second = [] then normalize p (collapse p first first)
  else normalize p (collapse p first (first ++ p.sep :: second))

/-! ## Separators -/

/-- The separator that is printed is one. -/
theorem isSep_sep (p : Platform) : isSep p p.sep = true := by
  cases p <;> rfl

/-- The mark of a drive separates no names. -/
theorem isSep_colon (p : Platform) : isSep p colon = false := by
  cases p <;> rfl

/-- A letter separates no names. -/
theorem isSep_of_isLetter {u : UInt16} (h : isLetter u = true) (p : Platform) :
    isSep p u = false := by
  cases hsep : isSep p u with
  | false => rfl
  | true =>
      exfalso
      cases p with
      | posix =>
          rw [isSep, beq_iff_eq] at hsep
          subst hsep
          exact absurd h (by decide)
      | win32 =>
          rw [isSep, Bool.or_eq_true, beq_iff_eq, beq_iff_eq] at hsep
          cases hsep with
          | inl hslash =>
              subst hslash
              exact absurd h (by decide)
          | inr hback =>
              subst hback
              exact absurd h (by decide)

/-- What lies between the separators is from the text, and no separator. -/
theorem mem_splitOnP {α : Type*} (f : α → Bool) (text : List α) :
    ∀ part ∈ text.splitOnP f, ∀ u ∈ part, u ∈ text ∧ f u = false := by
  induction text with
  | nil => simp
  | cons u us ih =>
      have hlift : ∀ part ∈ us.splitOnP f, ∀ v ∈ part, v ∈ u :: us ∧ f v = false :=
        fun part hpart v hv => (ih part hpart v hv).imp_left (List.mem_cons_of_mem u)
      rw [List.splitOnP_cons_eq_if_modifyHead]
      cases hu : f u with
      | true =>
          simp only [if_true, List.forall_mem_cons]
          exact ⟨by simp, hlift⟩
      | false =>
          cases hparts : us.splitOnP f with
          | nil => exact absurd hparts (List.splitOnP_ne_nil f us)
          | cons part parts =>
              rw [hparts, List.forall_mem_cons] at hlift
              simp only [Bool.false_eq_true, if_false, List.modifyHead_cons]
              rw [List.forall_mem_cons, List.forall_mem_cons]
              exact ⟨⟨⟨List.mem_cons_self, hu⟩, hlift.1⟩, hlift.2⟩

/-- Names without separators are what lies between the separators. -/
theorem splitOnP_intercalate {α : Type*} {f : α → Bool} {separator : α} {parts : List (List α)}
    (hsep : f separator = true) (hne : parts ≠ [])
    (hparts : ∀ part ∈ parts, ∀ u ∈ part, f u = false) :
    ([separator].intercalate parts).splitOnP f = parts := by
  induction parts with
  | nil => exact absurd rfl hne
  | cons part rest ih =>
      rw [List.forall_mem_cons] at hparts
      cases rest with
      | nil => rw [List.intercalate_singleton, List.splitOnP_eq_singleton hparts.1]
      | cons next rest =>
          rw [List.intercalate_cons_cons, List.append_assoc, List.singleton_append,
            List.splitOnP_append_cons_of_forall_mem hparts.1 _ hsep,
            ih (List.cons_ne_nil _ _) hparts.2]

/-- A run of units that `f` accepts, with another unit or nothing behind it. -/
theorem takeWhile_run {α : Type*} (f : α → Bool) (run text : List α)
    (hrun : ∀ u ∈ run, f u = true) (htext : text.head?.all (fun u => !f u) = true) :
    (run ++ text).takeWhile f = run ∧ (run ++ text).dropWhile f = text := by
  rw [List.takeWhile_append_of_pos hrun, List.dropWhile_append_of_pos hrun]
  cases text with
  | nil => simp
  | cons u us =>
      have hu : f u = false := by simpa using htext
      simp [hu]

/-- What lies behind the run. -/
theorem head?_dropWhile_all {α : Type*} (f : α → Bool) (text : List α) :
    (text.dropWhile f).head?.all (fun u => !f u) = true := by
  induction text with
  | nil => rfl
  | cons u us ih =>
      cases hu : f u with
      | true => rwa [List.dropWhile_cons_of_pos hu]
      | false =>
          rw [List.dropWhile_cons_of_neg (by rw [hu]; exact Bool.false_ne_true)]
          simp [hu]

/-! ## Devices -/

/-- A server and a share as they stand in a text. -/
theorem splitShare_eq_some_iff (text : Text) (device : Device) (rest : Text) :
    splitShare text = some (device, rest) ↔
      ∃ first second server seps share,
        text = first :: second :: (server ++ (seps ++ (share ++ rest))) ∧
        device = .unc server share ∧
        isSep .win32 first = true ∧ isSep .win32 second = true ∧
        (server ≠ [] ∧ ∀ u ∈ server, isSep .win32 u = false) ∧
        (seps ≠ [] ∧ ∀ u ∈ seps, isSep .win32 u = true) ∧
        (share ≠ [] ∧ ∀ u ∈ share, isSep .win32 u = false) ∧
        (rest.head?.all (isSep .win32)) = true := by
  constructor
  · intro h
    match text with
    | [] => exact absurd h (by simp [splitShare])
    | [_] => exact absurd h (by simp [splitShare])
    | first :: second :: text =>
        simp only [splitShare] at h
        split_ifs at h with hcond
        obtain ⟨hfirst, hsecond, hserver, hshare⟩ := hcond
        rw [Option.some.injEq, Prod.mk.injEq] at h
        obtain ⟨rfl, rfl⟩ := h
        refine ⟨first, second, _,
          (text.dropWhile fun u => !isSep .win32 u).takeWhile (isSep .win32), _, ?_, rfl, hfirst,
          hsecond, ⟨hserver, ?_⟩, ⟨?_, ?_⟩, ⟨hshare, ?_⟩, ?_⟩
        · rw [List.takeWhile_append_dropWhile, List.takeWhile_append_dropWhile,
            List.takeWhile_append_dropWhile]
        · intro u hu
          simpa using List.all_eq_true.mp List.all_takeWhile u hu
        · intro hseps
          have hhead := head?_dropWhile_all (fun u => !isSep .win32 u) text
          cases hrest : text.dropWhile fun u => !isSep .win32 u with
          | nil => exact hshare (by rw [hrest]; rfl)
          | cons u us =>
              rw [hrest] at hseps hhead
              have hu : isSep .win32 u = true := by simpa using hhead
              rw [List.takeWhile_cons_of_pos hu] at hseps
              exact List.cons_ne_nil _ _ hseps
        · intro u hu
          exact List.all_eq_true.mp List.all_takeWhile u hu
        · intro u hu
          simpa using List.all_eq_true.mp List.all_takeWhile u hu
        · simpa using head?_dropWhile_all (fun u => !isSep .win32 u) _
  · intro h
    obtain ⟨first, second, server, seps, share, rfl, rfl, hfirst, hsecond, hserver, hseps, hshare,
      hrest⟩ := h
    have hone := takeWhile_run (fun u => !isSep .win32 u) server (seps ++ (share ++ rest))
      (by simpa using hserver.2) (by
        cases seps with
        | nil => exact absurd rfl hseps.1
        | cons u us => simpa using hseps.2 u List.mem_cons_self)
    have htwo := takeWhile_run (isSep .win32) seps (share ++ rest) hseps.2 (by
        cases share with
        | nil => exact absurd rfl hshare.1
        | cons u us => simpa using hshare.2 u List.mem_cons_self)
    have hthree := takeWhile_run (fun u => !isSep .win32 u) share rest
      (by simpa using hshare.2) (by simpa using hrest)
    rw [splitShare, hone.1, hone.2, htwo.2, hthree.1, hthree.2]
    exact if_pos ⟨hfirst, hsecond, hserver.1, hshare.1⟩

/-- A server and a share stay what they are if more comes behind a separator. -/
theorem splitShare_append {text : Text} {device : Device} {rest : Text} {u : UInt16}
    (h : splitShare text = some (device, rest)) (hu : isSep .win32 u = true) (more : Text) :
    splitShare (text ++ u :: more) = some (device, rest ++ u :: more) := by
  rw [splitShare_eq_some_iff] at h ⊢
  obtain ⟨first, second, server, seps, share, rfl, hdevice, hfirst, hsecond, hserver, hseps,
    hshare, hrest⟩ := h
  refine ⟨first, second, server, seps, share, by simp only [List.cons_append, List.append_assoc],
    hdevice, hfirst, hsecond, hserver, hseps, hshare, ?_⟩
  cases rest with
  | nil => exact hu
  | cons v vs => exact hrest

/-- A drive as it stands in a text. -/
theorem splitDrive_eq_some_iff (text : Text) (device : Device) (rest : Text) :
    splitDrive text = some (device, rest) ↔
      ∃ letter, text = letter :: colon :: rest ∧ device = .drive letter ∧
        isLetter letter = true := by
  constructor
  · intro h
    match text with
    | [] => exact absurd h (by simp [splitDrive])
    | [_] => exact absurd h (by simp [splitDrive])
    | letter :: mark :: text =>
        simp only [splitDrive] at h
        split_ifs at h with hcond
        rw [Option.some.injEq, Prod.mk.injEq] at h
        obtain ⟨rfl, rfl⟩ := h
        exact ⟨letter, by rw [hcond.2], rfl, hcond.1⟩
  · intro h
    obtain ⟨letter, rfl, rfl, hletter⟩ := h
    exact if_pos ⟨hletter, rfl⟩

/-- A separator is no letter. -/
theorem splitDrive_sep {u : UInt16} (hu : isSep .win32 u = true) (text : Text) :
    splitDrive (u :: text) = none := by
  cases hsplit : splitDrive (u :: text) with
  | none => rfl
  | some parts =>
      obtain ⟨letter, htext, _, hletter⟩ := (splitDrive_eq_some_iff _ parts.1 parts.2).mp hsplit
      rw [(List.cons.inj htext).1, isSep_of_isLetter hletter] at hu
      exact absurd hu Bool.false_ne_true

/-- One separator is no beginning of a server. -/
theorem splitShare_single (u : UInt16) {text : Text}
    (htext : text.head?.all (fun v => !isSep .win32 v) = true) : splitShare (u :: text) = none := by
  cases hsplit : splitShare (u :: text) with
  | none => rfl
  | some parts =>
      obtain ⟨first, second, server, seps, share, heq, _, _, hsecond, _⟩ :=
        (splitShare_eq_some_iff _ parts.1 parts.2).mp hsplit
      rw [(List.cons.inj heq).2] at htext
      simp only [List.head?_cons, Option.all_some, hsecond] at htext
      exact absurd htext Bool.false_ne_true

/-- The devices that texts have. -/
def Device.Legal (p : Platform) : Device → Prop
  | .none => True
  | .drive letter => p = .win32 ∧ isLetter letter = true
  | .unc server share =>
      p = .win32 ∧ (server ≠ [] ∧ ∀ u ∈ server, isSep .win32 u = false) ∧
        (share ≠ [] ∧ ∀ u ∈ share, isSep .win32 u = false)

/-- The device is a drive, else a server and a share, else there is none. -/
theorem splitDevice_win32 (text : Text) :
    (∃ parts, splitDrive text = some parts ∧ splitDevice .win32 text = parts) ∨
      (splitDrive text = none ∧ ∃ parts, splitShare text = some parts ∧
        splitDevice .win32 text = parts) ∨
      (splitDrive text = none ∧ splitShare text = none ∧
        splitDevice .win32 text = (.none, text)) := by
  rw [splitDevice]
  cases hdrive : splitDrive text with
  | some parts => exact .inl ⟨parts, rfl, rfl⟩
  | none =>
      cases hshare : splitShare text with
      | some parts => exact .inr (.inl ⟨rfl, parts, rfl, rfl⟩)
      | none => exact .inr (.inr ⟨rfl, rfl, rfl⟩)

/-- The device that is found can be found again. -/
theorem splitDevice_legal (p : Platform) (text : Text) : (splitDevice p text).1.Legal p := by
  cases p with
  | posix => trivial
  | win32 =>
      obtain ⟨parts, hdrive, heq⟩ | ⟨_, parts, hshare, heq⟩ | ⟨_, _, heq⟩ := splitDevice_win32 text
      · obtain ⟨letter, _, hdevice, hletter⟩ := (splitDrive_eq_some_iff _ parts.1 parts.2).mp hdrive
        rw [heq, hdevice]
        exact ⟨rfl, hletter⟩
      · obtain ⟨_, _, server, _, share, _, hdevice, _, _, hserver, _, hshare', _⟩ :=
          (splitShare_eq_some_iff _ parts.1 parts.2).mp hshare
        rw [heq, hdevice]
        exact ⟨rfl, hserver, hshare'⟩
      · rw [heq]
        trivial

/-- The text of a device is read as this device. -/
theorem splitDevice_text {p : Platform} {device : Device} (hdevice : device.Legal p) {text : Text}
    (htext : text.head?.all (fun u => !isSep p u) = true) :
    splitDevice p (device.text ++ p.sep :: text) = (device, p.sep :: text) := by
  cases p with
  | posix =>
      cases device with
      | none => rfl
      | drive _ => exact absurd hdevice.1 Platform.noConfusion
      | unc _ _ => exact absurd hdevice.1 Platform.noConfusion
  | win32 =>
      cases device with
      | none =>
          have hdrive := splitDrive_sep (isSep_sep .win32) text
          have hshare := splitShare_single Platform.win32.sep htext
          simp only [Device.text, List.nil_append, splitDevice, hdrive, hshare, Option.none_or,
            Option.getD_none]
      | drive letter =>
          have hdrive : splitDrive (letter :: colon :: Platform.win32.sep :: text) =
              some (.drive letter, Platform.win32.sep :: text) :=
            (splitDrive_eq_some_iff _ _ _).mpr ⟨letter, rfl, rfl, hdevice.2⟩
          simp only [Device.text, List.cons_append, List.nil_append, splitDevice, hdrive,
            Option.some_or, Option.getD_some]
      | unc server share =>
          have hdrive := splitDrive_sep (u := backslash) rfl
            (backslash :: (server ++ backslash :: (share ++ Platform.win32.sep :: text)))
          have hshare : splitShare
              (backslash :: backslash :: (server ++ ([backslash] ++
                (share ++ Platform.win32.sep :: text)))) =
              some (.unc server share, Platform.win32.sep :: text) :=
            (splitShare_eq_some_iff _ _ _).mpr ⟨backslash, backslash, server, [backslash], share,
              rfl, rfl, rfl, rfl, hdevice.2.1, ⟨List.cons_ne_nil _ _, by simp [isSep]⟩,
              hdevice.2.2, rfl⟩
          simp only [List.singleton_append] at hshare
          simp only [Device.text, List.cons_append, List.append_assoc, splitDevice, hdrive, hshare,
            Option.none_or, Option.getD_some]

/-! ## Names -/

/-- A name of a file or directory. -/
structure Proper (p : Platform) (name : Text) : Prop where
  ne_nil : name ≠ []
  ne_dot : name ≠ [dot]
  ne_dots : name ≠ [dot, dot]
  no_sep : ∀ u ∈ name, isSep p u = false

instance (p : Platform) (name : Text) : Decidable (Proper p name) :=
  decidable_of_iff
    (name ≠ [] ∧ name ≠ [dot] ∧ name ≠ [dot, dot] ∧ (name.all fun u => !isSep p u) = true)
    ⟨fun h => ⟨h.1, h.2.1, h.2.2.1, by simpa using h.2.2.2⟩,
      fun h => ⟨h.ne_nil, h.ne_dot, h.ne_dots, by simpa using h.no_sep⟩⟩

/-- A proper name goes on the stack. -/
theorem push_proper {p : Platform} {name : Text} (h : Proper p name) (rooted : Bool)
    (stack : List Text) : push rooted stack name = name :: stack := by
  unfold push
  rw [if_neg (fun hor => hor.elim h.ne_nil h.ne_dot), if_neg h.ne_dots]

/-- Proper names go on the stack one by one. -/
theorem foldl_push_proper {p : Platform} {parts : List Text} (h : ∀ part ∈ parts, Proper p part)
    (rooted : Bool) (stack : List Text) :
    parts.foldl (push rooted) stack = parts.reverse ++ stack := by
  induction parts generalizing stack with
  | nil => rfl
  | cons part rest ih =>
      rw [List.forall_mem_cons] at h
      rw [List.foldl_cons, push_proper h.1, ih h.2, List.reverse_cons, List.append_assoc,
        List.singleton_append]

/-- Proper names behind other parts are kept. -/
theorem normalizeArray_append {p : Platform} {parts : List Text}
    (h : ∀ part ∈ parts, Proper p part) (rooted : Bool) (before : List Text) :
    normalizeArray rooted (before ++ parts) = normalizeArray rooted before ++ parts := by
  rw [normalizeArray, List.foldl_append, foldl_push_proper h, List.reverse_append,
    List.reverse_reverse, normalizeArray]

/-- Proper names are kept. -/
theorem normalizeArray_proper {p : Platform} {parts : List Text}
    (h : ∀ part ∈ parts, Proper p part) (rooted : Bool) : normalizeArray rooted parts = parts :=
  normalizeArray_append h rooted []

/-- Empty parts do not count. -/
theorem push_nil (rooted : Bool) (stack : List Text) : push rooted stack [] = stack := by
  unfold push
  exact if_pos (.inl rfl)

/-- An empty part at the beginning does not count. -/
theorem normalizeArray_nil_cons (rooted : Bool) (parts : List Text) :
    normalizeArray rooted ([] :: parts) = normalizeArray rooted parts := by
  rw [normalizeArray, List.foldl_cons, push_nil, normalizeArray]

/-- An empty part at the end does not count. -/
theorem normalizeArray_append_nil (rooted : Bool) (parts : List Text) :
    normalizeArray rooted (parts ++ [[]]) = normalizeArray rooted parts := by
  rw [normalizeArray, List.foldl_append, List.foldl_cons, List.foldl_nil, push_nil,
    normalizeArray]

/-- Above the root there is nothing: only names stay on the stack. -/
theorem push_rooted {p : Platform} {part : Text} {stack : List Text}
    (hpart : ∀ u ∈ part, isSep p u = false) (hstack : ∀ name ∈ stack, Proper p name) :
    ∀ name ∈ push true stack part, Proper p name := by
  unfold push
  by_cases hempty : part = [] ∨ part = [dot]
  · rw [if_pos hempty]
    exact hstack
  · rw [if_neg hempty]
    by_cases hdots : part = [dot, dot]
    · rw [if_pos hdots]
      cases stack with
      | nil => exact hstack
      | cons top below =>
          rw [List.forall_mem_cons] at hstack
          simp only [if_neg hstack.1.ne_dots]
          exact hstack.2
    · rw [if_neg hdots, List.forall_mem_cons]
      rw [not_or] at hempty
      exact ⟨⟨hempty.1, hempty.2, hdots, hpart⟩, hstack⟩

/-- Under a root the stack holds proper names only. -/
theorem foldl_push_rooted {p : Platform} {parts stack : List Text}
    (hparts : ∀ part ∈ parts, ∀ u ∈ part, isSep p u = false)
    (hstack : ∀ name ∈ stack, Proper p name) :
    ∀ name ∈ parts.foldl (push true) stack, Proper p name := by
  induction parts generalizing stack with
  | nil => exact hstack
  | cons part rest ih =>
      rw [List.forall_mem_cons] at hparts
      exact ih hparts.2 (push_rooted hparts.1 hstack)

/-- An absolute path goes through proper names. -/
theorem proper_of_mem_names {p : Platform} {text : Text} (h : isAbsolute p text = true) :
    ∀ name ∈ names p text, Proper p name := by
  intro name hname
  rw [names, h, normalizeArray, List.mem_reverse] at hname
  exact foldl_push_rooted (fun part hpart u hu => (mem_splitOnP _ _ part hpart u hu).2)
    (fun _ hmem => absurd hmem List.not_mem_nil) name hname

/-! ## Names between separators -/

/-- A unit of joined names is the separator, or from a name. -/
theorem mem_joinNames {p : Platform} {names : List Text} {u : UInt16}
    (hu : u ∈ joinNames p names) : u = p.sep ∨ ∃ name ∈ names, u ∈ name := by
  induction names with
  | nil => exact absurd hu List.not_mem_nil
  | cons name rest ih =>
      cases rest with
      | nil =>
          rw [joinNames, List.intercalate_singleton] at hu
          exact .inr ⟨name, List.mem_cons_self, hu⟩
      | cons next rest =>
          rw [joinNames, List.intercalate_cons_cons, List.append_assoc, List.mem_append,
            List.singleton_append, List.mem_cons] at hu
          obtain hu | hu | hu := hu
          · exact .inr ⟨name, List.mem_cons_self, hu⟩
          · exact .inl hu
          · obtain hsep | ⟨other, hother, hmem⟩ := ih hu
            · exact .inl hsep
            · exact .inr ⟨other, List.mem_cons_of_mem name hother, hmem⟩

/-- The units of a name are in the joined names. -/
theorem mem_joinNames_of_mem {p : Platform} {names : List Text} {name : Text} {u : UInt16}
    (hname : name ∈ names) (hu : u ∈ name) : u ∈ joinNames p names := by
  induction names with
  | nil => exact absurd hname List.not_mem_nil
  | cons first rest ih =>
      cases rest with
      | nil =>
          rw [List.mem_singleton] at hname
          rwa [joinNames, List.intercalate_singleton, ← hname]
      | cons next rest =>
          rw [joinNames, List.intercalate_cons_cons, List.append_assoc, List.mem_append,
            List.mem_append]
          cases List.mem_cons.mp hname with
          | inl hfirst => exact .inl (hfirst ▸ hu)
          | inr hrest => exact .inr (.inr (ih hrest))

/-- Names are joined in two parts with the separator between them. -/
theorem joinNames_append {p : Platform} {before after : List Text} (hbefore : before ≠ [])
    (hafter : after ≠ []) :
    joinNames p (before ++ after) = joinNames p before ++ p.sep :: joinNames p after := by
  induction before with
  | nil => exact absurd rfl hbefore
  | cons name rest ih =>
      have hcons : ∀ {rest : List Text}, rest ≠ [] →
          joinNames p (name :: rest) = name ++ p.sep :: joinNames p rest := by
        intro rest hrest
        rw [joinNames, List.intercalate_cons_of_ne_nil hrest, List.append_assoc]
        rfl
      cases rest with
      | nil =>
          rw [List.cons_append, List.nil_append, hcons hafter, joinNames, joinNames,
            List.intercalate_singleton]
      | cons next rest =>
          rw [List.cons_append, hcons (List.append_ne_nil_of_right_ne_nil _ hafter),
            ih (List.cons_ne_nil _ _), hcons (List.cons_ne_nil _ _), List.append_assoc]
          rfl

section JoinNames

variable {p : Platform} {names : List Text} (h : ∀ name ∈ names, Proper p name)
include h

/-- Joined names can be taken apart. -/
theorem splitOnP_joinNames (hne : names ≠ []) : (joinNames p names).splitOnP (isSep p) = names :=
  splitOnP_intercalate (isSep_sep p) hne fun name hname => (h name hname).no_sep

/-- Joined names are empty if there are none. -/
theorem joinNames_eq_nil : joinNames p names = [] ↔ names = [] := by
  constructor
  · intro hnil
    by_contra hne
    have hsplit := splitOnP_joinNames h hne
    rw [hnil, List.splitOnP_nil] at hsplit
    rw [← hsplit, List.forall_mem_singleton] at h
    exact h.ne_nil rfl
  · intro hnames
    rw [hnames]
    rfl

/-- Proper names are found again in what they are joined to. -/
theorem normalizeArray_joinNames (rooted : Bool) :
    normalizeArray rooted ((joinNames p names).splitOnP (isSep p)) = names := by
  cases names with
  | nil => exact normalizeArray_nil_cons rooted []
  | cons name rest =>
      rw [splitOnP_joinNames h (List.cons_ne_nil _ _), normalizeArray_proper h]

/-- Joined names do not begin with a separator. -/
theorem head?_joinNames : (joinNames p names).head?.all (fun u => !isSep p u) = true := by
  cases names with
  | nil => rfl
  | cons name rest =>
      rw [List.forall_mem_cons] at h
      cases name with
      | nil => exact absurd rfl h.1.ne_nil
      | cons u us =>
          rw [joinNames, List.intercalate_cons_cons_left]
          simpa using h.1.no_sep u List.mem_cons_self

/-- The first unit of joined names is not the separator that is printed. -/
theorem joinNames_zero_ne_sep : (joinNames p names)[0]? ≠ some p.sep := by
  have hno := head?_joinNames h
  rw [← List.head?_eq_getElem?]
  intro hsome
  rw [hsome, Option.all_some, isSep_sep] at hno
  exact absurd hno Bool.false_ne_true

/-- Joined names do not end with a separator. -/
theorem endsSep_joinNames : endsSep p (joinNames p names) = false := by
  induction names with
  | nil => rfl
  | cons name rest ih =>
      rw [List.forall_mem_cons] at h
      cases rest with
      | nil =>
          rw [joinNames, List.intercalate_singleton, endsSep]
          cases hlast : name.getLast? with
          | none => rfl
          | some u => exact h.1.no_sep u (List.mem_of_getLast? hlast)
      | cons next rest =>
          have htail : joinNames p (next :: rest) ≠ [] := by
            rw [Ne, joinNames_eq_nil h.2]
            exact List.cons_ne_nil _ _
          have hjoin : joinNames p (name :: next :: rest) =
              name ++ [p.sep] ++ joinNames p (next :: rest) := List.intercalate_cons_cons
          rw [hjoin, endsSep, List.getLast?_append_of_ne_nil _ htail]
          exact ih h.2

end JoinNames

/-- What is normal stays: names without a device before them. -/
theorem normalize_joinNames {p : Platform} {names : List Text} (hne : names ≠ [])
    (h : ∀ name ∈ names, Proper p name)
    (hmark : p = .win32 → (joinNames p names)[1]? ≠ some colon) :
    normalize p (joinNames p names) = joinNames p names := by
  have hhead := head?_joinNames h
  have hnil := (joinNames_eq_nil h).not.mpr hne
  have hsplit : splitDevice p (joinNames p names) = (.none, joinNames p names) := by
    cases p with
    | posix => rfl
    | win32 =>
        obtain ⟨parts, hdrive, _⟩ | ⟨_, parts, hshare, _⟩ | ⟨_, _, heq⟩ :=
          splitDevice_win32 (joinNames .win32 names)
        · obtain ⟨_, htext, _⟩ := (splitDrive_eq_some_iff _ parts.1 parts.2).mp hdrive
          exact absurd (by rw [htext]; rfl) (hmark rfl)
        · obtain ⟨_, _, _, _, _, htext, _, hfirst, _⟩ :=
            (splitShare_eq_some_iff _ parts.1 parts.2).mp hshare
          rw [htext] at hhead
          simp [hfirst] at hhead
        · exact heq
  have hrelative : isAbsolute p (joinNames p names) = false := by
    rw [isAbsolute, hsplit, show Device.none.rooted = false from rfl, Bool.false_or, beginsSep]
    cases hfirst : (joinNames p names).head? with
    | none => rfl
    | some u =>
        rw [hfirst] at hhead
        simpa using hhead
  have hnames : NodePath.names p (joinNames p names) = names := by
    rw [NodePath.names, hsplit, normalizeArray_joinNames h]
  simp only [normalize, hnames, hsplit, hrelative, endsSep_joinNames h, hnil, Device.text,
    false_and, and_false, if_false, Bool.false_eq_true, List.nil_append]

/-- Taking parts back leaves none that was not there. -/
theorem mem_foldl_push {rooted : Bool} {parts stack : List Text} :
    ∀ name ∈ parts.foldl (push rooted) stack, name ∈ parts ∨ name ∈ stack := by
  induction parts generalizing stack with
  | nil => exact fun name hname => .inr hname
  | cons part rest ih =>
      intro name hname
      obtain hrest | hpush := ih name hname
      · exact .inl (List.mem_cons_of_mem part hrest)
      · unfold push at hpush
        grind

/-- On POSIX nothing but separators and dots is new in a normal path. -/
theorem mem_normalize_posix {text : Text} {u : UInt16} (hu : u ∈ normalize .posix text) :
    u = slash ∨ u = dot ∨ u ∈ text := by
  have hjoin : u ∈ joinNames .posix (names .posix text) → u = slash ∨ u = dot ∨ u ∈ text := by
    intro hmem
    obtain hsep | ⟨name, hname, hmem⟩ := mem_joinNames hmem
    · exact .inl hsep
    · rw [names, normalizeArray, List.mem_reverse] at hname
      have hpart := (mem_foldl_push name hname).resolve_right List.not_mem_nil
      exact .inr (.inr (mem_splitOnP _ _ name hpart u hmem).1)
  have hsep : Platform.posix.sep = slash := rfl
  simp only [normalize, splitDevice, Device.text, List.nil_append, hsep] at hu
  split_ifs at hu <;> grind

/-! ## Absolute paths -/

/-- The absolute path of a directory.  Two separators on Windows begin a server, and without a
share behind it no directory is meant. -/
structure Absolute (p : Platform) where
  text : Text
  absolute : isAbsolute p text = true
  placed : p = .win32 → (splitDevice p text).1 = .none →
    text.tail.head?.all (fun u => !isSep p u) = true

/-- The path of the names from the root of a device. -/
def place (p : Platform) (device : Device) (names : List Text) : Text :=
  device.text ++ p.sep :: joinNames p names

/-- A path with a separator behind its device is absolute. -/
theorem isAbsolute_of_split {p : Platform} {text rest : Text} {device : Device}
    (h : splitDevice p text = (device, p.sep :: rest)) : isAbsolute p text = true := by
  rw [isAbsolute, h, Bool.or_eq_true]
  exact .inr (isSep_sep p)

/-- The names of a path with a separator behind its device. -/
theorem names_of_split {p : Platform} {text rest : Text} {device : Device}
    (h : splitDevice p text = (device, p.sep :: rest)) :
    names p text = normalizeArray true (rest.splitOnP (isSep p)) := by
  rw [names, isAbsolute_of_split h, h, List.splitOnP_cons_eq_if_modifyHead, isSep_sep, if_pos rfl,
    normalizeArray_nil_cons]

/-- An absolute path is made normal by writing its names from the root. -/
theorem normalize_absolute {p : Platform} {text : Text} (h : isAbsolute p text = true) :
    normalize p text = place p (splitDevice p text).1 (names p text) ++
      if names p text ≠ [] ∧ endsSep p (splitDevice p text).2 then [p.sep] else [] := by
  have hnil := joinNames_eq_nil (proper_of_mem_names h)
  simp only [normalize, h, Bool.true_eq_false, and_false, if_false, if_true, place, Ne, hnil,
    List.append_assoc, List.cons_append, List.nil_append]
  split_ifs with hcond
  · rfl
  · rw [List.append_nil]

namespace Absolute

variable {p : Platform}

/-- The device of the path. -/
def device (a : Absolute p) : Device := (splitDevice p a.text).1

/-- What follows the device. -/
def rest (a : Absolute p) : Text := (splitDevice p a.text).2

/-- The names that it goes through. -/
def names (a : Absolute p) : List Text := NodePath.names p a.text

/-- The names of an absolute path are proper. -/
theorem proper (a : Absolute p) : ∀ name ∈ a.names, Proper p name :=
  proper_of_mem_names a.absolute

/-- The device of an absolute path can be found again. -/
theorem legal (a : Absolute p) : a.device.Legal p := splitDevice_legal p a.text

/-- The path with this text behind the root of a device. -/
def behind (device : Device) (hdevice : device.Legal p) (text : Text)
    (htext : text.head?.all (fun u => !isSep p u) = true) : Absolute p where
  text := device.text ++ p.sep :: text
  absolute := isAbsolute_of_split (splitDevice_text hdevice htext)
  placed := by
    intro _ hnone
    rw [splitDevice_text hdevice htext] at hnone
    have hdevice' : device = .none := hnone
    rw [hdevice']
    exact htext

section Behind

variable {device : Device} (hdevice : device.Legal p) {text : Text}
  (htext : text.head?.all (fun u => !isSep p u) = true)

/-- The device of a path that is put together. -/
theorem behind_device : (behind device hdevice text htext).device = device :=
  congrArg Prod.fst (splitDevice_text hdevice htext)

/-- What is behind the device of a path that is put together. -/
theorem behind_rest : (behind device hdevice text htext).rest = p.sep :: text :=
  congrArg Prod.snd (splitDevice_text hdevice htext)

/-- The names of a path that is put together. -/
theorem behind_names : (behind device hdevice text htext).names =
    normalizeArray true (text.splitOnP (isSep p)) :=
  names_of_split (splitDevice_text hdevice htext)

end Behind

/-- The file or directory reached by these names. -/
def walk (a : Absolute p) (path : List Text) (h : ∀ name ∈ path, Proper p name) : Absolute p :=
  behind a.device a.legal (joinNames p (a.names ++ path))
    (head?_joinNames (List.forall_mem_append.mpr ⟨a.proper, h⟩))

section Walk

variable (a : Absolute p) {path : List Text} (h : ∀ name ∈ path, Proper p name)

/-- The text of the path that is reached. -/
theorem walk_text : (a.walk path h).text = place p a.device (a.names ++ path) := rfl

/-- The path that is reached is on the same device. -/
theorem walk_device : (a.walk path h).device = a.device := behind_device _ _

/-- The path that is reached goes on through the names. -/
theorem walk_names : (a.walk path h).names = a.names ++ path := by
  rw [walk, behind_names, normalizeArray_joinNames (List.forall_mem_append.mpr ⟨a.proper, h⟩)]

end Walk

/-- The path that `normalize` makes. -/
def normal (a : Absolute p) : Absolute p :=
  behind a.device a.legal
    (joinNames p a.names ++ if a.names ≠ [] ∧ endsSep p a.rest then [p.sep] else [])
    (by
      split_ifs with hcond
      · have hne := (joinNames_eq_nil a.proper).not.mpr hcond.1
        rw [List.head?_append_of_ne_nil _ hne]
        exact head?_joinNames a.proper
      · rw [List.append_nil]
        exact head?_joinNames a.proper)

/-- The text of the path in normal form. -/
theorem normal_text (a : Absolute p) :
    a.normal.text = a.device.text ++ ([p.sep] ++ (joinNames p a.names ++
      if a.names ≠ [] ∧ endsSep p a.rest then [p.sep] else [])) := rfl

/-- `normalize` makes the path in normal form. -/
theorem normalize_text (a : Absolute p) : normalize p a.text = a.normal.text := by
  rw [normalize_absolute a.absolute, place, List.append_assoc]
  rfl

/-- The path in normal form is on the same device. -/
theorem normal_device (a : Absolute p) : a.normal.device = a.device := behind_device _ _

/-- The path in normal form goes through the same names. -/
theorem normal_names (a : Absolute p) : a.normal.names = a.names := by
  rw [normal, behind_names]
  split_ifs with hcond
  · rw [List.splitOnP_append_cons _ [] (isSep_sep p), List.splitOnP_nil, normalizeArray_append_nil,
      normalizeArray_joinNames a.proper]
  · rw [List.append_nil, normalizeArray_joinNames a.proper]

/-- What has names is normal when it is written with them. -/
theorem normalize_walk (a : Absolute p) {path : List Text} (hne : path ≠ [])
    (h : ∀ name ∈ path, Proper p name) :
    normalize p (a.walk path h).text = (a.walk path h).text := by
  have hproper := List.forall_mem_append.mpr ⟨a.proper, h⟩
  have hjoin := (joinNames_eq_nil hproper).not.mpr (List.append_ne_nil_of_right_ne_nil _ hne)
  have hends : endsSep p (splitDevice p (a.walk path h).text).2 = false := by
    have hrest : (splitDevice p (a.walk path h).text).2 =
        p.sep :: joinNames p (a.names ++ path) := behind_rest _ _
    rw [hrest, endsSep, List.getLast?_cons_of_ne_nil hjoin]
    exact endsSep_joinNames hproper
  have hnames := a.walk_names h
  have hdevice := a.walk_device h
  rw [names] at hnames
  rw [device] at hdevice
  rw [normalize_absolute (a.walk path h).absolute, hends, hnames, hdevice, walk_text]
  simp only [Bool.false_eq_true, and_false, if_false, List.append_nil]

/-- An absolute path is not empty. -/
theorem text_ne_nil (a : Absolute p) : a.text ≠ [] := by
  intro hnil
  have habsolute := a.absolute
  rw [hnil] at habsolute
  cases p <;> exact absurd habsolute (by decide)

/-- An absolute path has a separator behind its device, if that is no share. -/
theorem beginsSep_rest (a : Absolute p) (h : a.device.rooted = false) :
    beginsSep p a.rest = true := by
  have habsolute := a.absolute
  rw [isAbsolute, Bool.or_eq_true] at habsolute
  apply habsolute.resolve_left
  rw [show (splitDevice p a.text).1.rooted = false from h]
  exact Bool.false_ne_true

/-- A path that is more than one separator stays as it is before a longer text. -/
theorem splitDevice_append (a : Absolute p) (h : p = .win32 → a.text.tail ≠ []) (more : Text) :
    collapse p a.text (a.text ++ p.sep :: more) = a.text ++ p.sep :: more ∧
      splitDevice p (a.text ++ p.sep :: more) = (a.device, a.rest ++ p.sep :: more) := by
  cases p with
  | posix => exact ⟨rfl, rfl⟩
  | win32 =>
      have hsep := isSep_sep .win32
      obtain ⟨parts, hdrive, heq⟩ | ⟨hdrive, parts, hshare, heq⟩ | ⟨hdrive, hshare, heq⟩ :=
        splitDevice_win32 a.text
      · obtain ⟨letter, htext, hdevice, hletter⟩ :=
          (splitDrive_eq_some_iff _ parts.1 parts.2).mp hdrive
        have hfirst := isSep_of_isLetter hletter .win32
        rw [device, rest, heq, htext]
        constructor
        · cases parts.2 <;> simp [collapse, beginsServer, hfirst]
        · have hjoined : splitDrive (letter :: colon :: (parts.2 ++ Platform.win32.sep :: more)) =
              some (.drive letter, parts.2 ++ Platform.win32.sep :: more) :=
            (splitDrive_eq_some_iff _ _ _).mpr ⟨letter, rfl, rfl, hletter⟩
          simp only [List.cons_append, splitDevice, hjoined, Option.some_or, Option.getD_some,
            hdevice]
      · obtain ⟨first, second, server, seps, share, htext, hdevice, hfirst, hsecond, hserver, _⟩ :=
          (splitShare_eq_some_iff _ parts.1 parts.2).mp hshare
        have hjoined := splitShare_append hshare hsep more
        rw [device, rest, heq]
        rw [htext] at hjoined ⊢
        constructor
        · cases server with
          | nil => exact absurd rfl hserver.1
          | cons u us =>
              have hu := hserver.2 u List.mem_cons_self
              simp [collapse, beginsServer, hfirst, hsecond, hu]
        · simp only [List.cons_append] at hjoined ⊢
          simp only [splitDevice, splitDrive_sep hfirst, hjoined, Option.none_or, Option.getD_some]
      · have hdevice : a.device = .none := congrArg Prod.fst heq
        have hrest : a.rest = a.text := congrArg Prod.snd heq
        have hbegins := a.beginsSep_rest (by rw [hdevice]; rfl)
        have hplaced := a.placed rfl hdevice
        rw [hdevice]
        rw [hrest] at hbegins ⊢
        match htext : a.text with
        | [] => exact absurd htext a.text_ne_nil
        | [_] => exact absurd (by rw [htext]; rfl) (h rfl)
        | u :: v :: us =>
            rw [htext] at hbegins hplaced
            have hu : isSep .win32 u = true := hbegins
            have hv : isSep .win32 v = false := by simpa using hplaced
            have hjoined : splitShare (u :: v :: (us ++ Platform.win32.sep :: more)) = none :=
              splitShare_single u hplaced
            constructor
            · cases us <;> simp [collapse, beginsServer, hv]
            · simp only [List.cons_append, splitDevice, splitDrive_sep hu, hjoined,
                Option.none_or, Option.getD_none]

/-- A path that is one separator: the two separators become one again. -/
theorem collapse_lone (a : Absolute .win32) (htail : a.text.tail = []) {more : Text}
    (hmore : more.head?.all (fun u => !isSep .win32 u) = true) :
    (∃ u, isSep .win32 u = true ∧ a.rest = [u]) ∧ a.device = .none ∧
      collapse .win32 a.text (a.text ++ Platform.win32.sep :: more) =
        Device.none.text ++ Platform.win32.sep :: more := by
  obtain ⟨u, htext⟩ : ∃ u, a.text = [u] := by
    match htext : a.text with
    | [] => exact absurd htext a.text_ne_nil
    | [u] => exact ⟨u, rfl⟩
    | _ :: _ :: _ =>
        rw [htext] at htail
        exact absurd htail (List.cons_ne_nil _ _)
  have hsplit : splitDevice .win32 a.text = (.none, [u]) := by
    rw [htext]
    rfl
  have hdevice : a.device = .none := congrArg Prod.fst hsplit
  have hrest : a.rest = [u] := congrArg Prod.snd hsplit
  have hu : isSep .win32 u = true := by
    have hbegins := a.beginsSep_rest (by rw [hdevice]; rfl)
    rw [hrest] at hbegins
    exact hbegins
  have hrun := takeWhile_run (isSep .win32) [] more
    (fun _ hmem => absurd hmem List.not_mem_nil) hmore
  rw [List.nil_append] at hrun
  refine ⟨⟨u, hu, hrest⟩, hdevice, ?_⟩
  rw [htext]
  simp only [collapse, beginsServer, List.cons_append, List.nil_append, hu, isSep_sep .win32,
    and_self, if_true, hrun.2]
  rfl

/-- A path behind the separator is read behind the device of the directory. -/
theorem splitDevice_join (a : Absolute p) {more : Text} (hne : more ≠ [])
    (hmore : more.head?.all (fun u => !isSep p u) = true) :
    ∃ rest, splitDevice p (collapse p a.text (a.text ++ p.sep :: more)) = (a.device, rest) ∧
      (a.device.rooted || beginsSep p rest) = true ∧ endsSep p rest = endsSep p more ∧
      normalizeArray true (rest.splitOnP (isSep p)) =
        normalizeArray true (a.rest.splitOnP (isSep p) ++ more.splitOnP (isSep p)) := by
  by_cases htail : p = .win32 → a.text.tail ≠ []
  · obtain ⟨hcollapse, hsplit⟩ := a.splitDevice_append htail more
    refine ⟨_, by rw [hcollapse, hsplit], ?_, ?_, ?_⟩
    · cases hrooted : a.device.rooted with
      | true => rfl
      | false =>
          have hbegins := a.beginsSep_rest hrooted
          cases hrest : a.rest with
          | nil => exact isSep_sep p
          | cons u us =>
              rw [hrest] at hbegins
              exact hbegins
    · rw [endsSep, List.getLast?_append_of_ne_nil _ (List.cons_ne_nil _ _),
        List.getLast?_cons_of_ne_nil hne, endsSep]
    · rw [List.splitOnP_append_cons _ _ (isSep_sep p)]
  · obtain ⟨hp, htail⟩ := Classical.not_imp.mp htail
    subst hp
    obtain ⟨⟨u, hu, hrest⟩, hdevice, hcollapse⟩ :=
      a.collapse_lone (Classical.not_not.mp htail) hmore
    refine ⟨Platform.win32.sep :: more, ?_, ?_, ?_, ?_⟩
    · have hlegal : Device.none.Legal .win32 := trivial
      rw [hcollapse, splitDevice_text hlegal hmore, hdevice]
    · rw [Bool.or_eq_true]
      exact .inr rfl
    · rw [endsSep, List.getLast?_cons_of_ne_nil hne, endsSep]
    · rw [hrest, List.splitOnP_cons_eq_if_modifyHead, isSep_sep, if_pos rfl,
        List.splitOnP_cons_eq_if_modifyHead, hu, if_pos rfl, List.splitOnP_nil, List.cons_append,
        List.cons_append, List.nil_append, normalizeArray_nil_cons, normalizeArray_nil_cons,
        normalizeArray_nil_cons]

/-- Joining a directory with names walks along them. -/
theorem join_text (a : Absolute p) {path : List Text} (hne : path ≠ [])
    (h : ∀ name ∈ path, Proper p name) :
    join p a.text (joinNames p path) = (a.walk path h).text := by
  have hpath := (joinNames_eq_nil h).not.mpr hne
  obtain ⟨rest, hsplit, hrooted, hends, hnames⟩ :=
    a.splitDevice_join hpath (head?_joinNames h)
  have habsolute :
      isAbsolute p (collapse p a.text (a.text ++ p.sep :: joinNames p path)) = true := by
    rw [isAbsolute, hsplit]
    exact hrooted
  have hwalk : NodePath.names p (collapse p a.text (a.text ++ p.sep :: joinNames p path)) =
      a.names ++ path := by
    rw [NodePath.names, habsolute, hsplit, hnames, splitOnP_joinNames h hne,
      normalizeArray_append h]
    rw [names, NodePath.names, a.absolute]
    rfl
  rw [join, if_neg a.text_ne_nil, if_neg hpath, normalize_absolute habsolute, hwalk, hsplit, hends,
    endsSep_joinNames h, walk_text]
  simp only [Bool.false_eq_true, and_false, if_false, List.append_nil]

end Absolute

end NodePath

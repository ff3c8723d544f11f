import Tint.Paths
import Mathlib.Data.List.Basic

/-!
# Resources of an application

`AppSchema` opens the file that an `app:` URL names.  In a packaged application
it is looked up in the resource directory: neither the command line nor the
working directory is trusted.

On Windows the host and the path of the URL lose their leading separators before
`Path.Combine` puts them behind the resource directory, but `Path.Combine` drops
the directory as well for what begins with a drive letter, and a drive without
separator is a working directory.  On macOS the URL is put behind `/.`.  Neither
takes `..` away.

* `appSchema_contained_iff` -- the file is the same for every command line and
  working directory and lies in the resource directory, if and only if the URL
  does not go above that directory and has no drive;
* `appSchema_escapes` -- URLs that leave it.
-/

namespace AppSchema

open Paths

/-- A text. -/
abbrev Text := List Char

/-- What a segment of a path says. -/
def partOf (segment : Text) : PathPart Text :=
  if segment = [] ∨ segment = ['.'] then .here
  else if segment = ['.', '.'] then .up
  else .into segment

/-- The parts of a path. -/
def parts (separator : Char → Bool) (path : Text) : List (PathPart Text) :=
  (path.splitOnP separator).map partOf

/-! ## Windows -/

/-- `\` or `/` -/
def isSeparator (c : Char) : Bool := c == '\\' || c == '/'

/-- `Path.GetInvalidPathChars` -/
def invalidPathChar (c : Char) : Bool :=
  c == '"' || c == '<' || c == '>' || c == '|' || c.toNat < 32

/-- `Path.IsPathRooted` -/
def isPathRooted : Text → Bool
  | [] => false
  | [c] => isSeparator c
  | c :: c' :: _ => isSeparator c || c' == ':'

/-- `Path.Combine`, which throws for a character that no path has. -/
def combine (path₁ path₂ : Text) : Option Text :=
  if path₁.any invalidPathChar ∨ path₂.any invalidPathChar then none
  else if path₂ = [] then some path₁
  else if path₁ = [] then some path₂
  else if isPathRooted path₂ then some path₂
  else if path₁.getLast?.any fun c => isSeparator c || c == ':' then some (path₁ ++ path₂)
  else some (path₁ ++ '\\' :: path₂)

/-- Where a rooted path of Windows begins. -/
inductive Volume
  | drive (letter : Char)
  | share (server name : Text)
  deriving DecidableEq

/-- A file or a directory, as its full path says. -/
structure Location where
  volume : Volume
  names : List Text
  deriving DecidableEq

/-- Of a path, the segments before the names. -/
def Volume.segments : Volume → List Text
  | .drive letter => [[letter, ':']]
  | .share server name => [[], [], server, name]

/-- The full path. -/
def Location.text (l : Location) : Text :=
  ['\\'].intercalate l.volume.segments ++ '\\' :: ['\\'].intercalate l.names

/-- The directory it is in, for `Path.GetDirectoryName`. -/
def Location.parent (l : Location) : Location := { l with names := l.names.dropLast }

/-- The command line and the working directories: the current one, and those of
the other drives. -/
structure Environment where
  args : List Text
  current : Location
  onDrive : Char → List Text

/-- The working directory of a drive. -/
def Environment.directoryOf (env : Environment) (letter : Char) : List Text :=
  if env.current.volume = .drive letter then env.current.names else env.onDrive letter

/-- The letter of a drive. -/
def isLetter (c : Char) : Bool :=
  ('a'.toNat ≤ c.toNat && c.toNat ≤ 'z'.toNat) || ('A'.toNat ≤ c.toNat && c.toNat ≤ 'Z'.toNat)

/-- The place of a path in segments: on a share, from the root of the current
volume, on a drive or in the working directory of one, in the current directory. -/
def locate (env : Environment) : List Text → Option Location
  | [] :: [] :: server :: name :: rest =>
    some ⟨.share server name, resolve [] (rest.map partOf)⟩
  | [] :: rest => some ⟨env.current.volume, resolve [] (rest.map partOf)⟩
  | (letter :: ':' :: name) :: rest =>
    if isLetter letter then
      if name = [] ∧ rest ≠ [] then some ⟨.drive letter, resolve [] (rest.map partOf)⟩
      else
        some ⟨.drive letter, resolve (env.directoryOf letter) ((name :: rest).map partOf)⟩
    else none
  | segments => some ⟨env.current.volume, resolve env.current.names (segments.map partOf)⟩

/-- `Path.GetFullPath`, as the file functions use it too; it throws for an empty
path, for a drive that is not a letter and for a later colon. -/
def getFullPath (env : Environment) (path : Text) : Option Location :=
  if path = [] ∨ ':' ∈ path.drop 2 then none else locate env (path.splitOnP isSeparator)

/-- `File.Exists` -/
def fileExists (files : Location → Bool) (env : Environment) (path : Text) : Bool :=
  (getFullPath env path).any files

/-- What `GetResponseStream` reads of the URL. -/
structure Uri where
  host : Text
  absolutePath : Text

/-- Without leading separators, and with `\` for `/`. -/
def normalize (text : Text) : Text :=
  (text.dropWhile isSeparator).map fun c => if c = '/' then '\\' else c

/-- `url` -/
def Uri.url (uri : Uri) : Option Text :=
  if normalize uri.host ≠ [] then combine (normalize uri.host) (normalize uri.absolutePath)
  else some (normalize uri.absolutePath)

/-- `"Resources"` and `"package.json"` -/
def resourcesName : Text := ['R', 'e', 's', 'o', 'u', 'r', 'c', 'e', 's']

/-- The file that every packaged application has. -/
def packageJsonName : Text := ['p', 'a', 'c', 'k', 'a', 'g', 'e', '.', 'j', 's', 'o', 'n']

/-- The first argument that is no option: its directory, or the working
directory. -/
def scriptPath (env : Environment) : Option Text :=
  match env.args.tail.find? fun arg => arg.head? != some '-' with
  | some arg =>
    match getFullPath env arg with
    | some file => if file.names = [] then none else some file.parent.text
    | none => none
  | none => some env.current.text

/-- `GetResponseStream`: the file it opens; `none` where it throws.  `files` are
those that exist and `exe` is the main module. -/
def getResponseStream (files : Location → Bool) (exe : Location) (env : Environment)
    (uri : Uri) : Option Location := do
  let url ← uri.url
  let resourcePath ← combine exe.parent.text resourcesName
  let packageJsonPath ← combine resourcePath packageJsonName
  let path ←
    if fileExists files env packageJsonPath then some resourcePath else scriptPath env
  let path ← if url.head? = some '\\' then combine path (url.drop 1) else combine path url
  let path ←
    if !fileExists files env packageJsonPath && !fileExists files env path then
      combine env.current.text url
    else some path
  if fileExists files env path then getFullPath env path else none

/-- The resource directory. -/
def resources (exe : Location) : Location :=
  { exe with names := exe.names.dropLast ++ [resourcesName] }

/-- The application is packaged. -/
def Packaged (files : Location → Bool) (exe : Location) : Prop :=
  files { exe with names := exe.names.dropLast ++ [resourcesName, packageJsonName] } = true

/-- The place is in the directory, or is the directory. -/
def Inside (dir file : Location) : Prop := file.volume = dir.volume ∧ dir.names <+: file.names

/-- **Containment**, whatever files there are: two command lines and working
directories make no difference, and the file is in the resource directory. -/
def WinContained (exe : Location) (uri : Uri) : Prop :=
  ∀ files, Packaged files exe → ∀ env env' : Environment,
    getResponseStream files exe env uri = getResponseStream files exe env' uri ∧
      ∀ file, getResponseStream files exe env uri = some file → Inside (resources exe) file

/-- The condition on `url`: it has a drive and is the full path of a place in the
directory, or has none and goes nowhere else.  A `url` that is not the path of
any file does no harm. -/
def WinSafe (dir : Location) (url : Text) : Prop :=
  url.any invalidPathChar = false →
    match url with
    | letter :: ':' :: rest =>
      isLetter letter = true → ':' ∉ rest →
        rest.head?.any isSeparator = true ∧
          Inside dir ⟨.drive letter, resolve [] (parts isSeparator rest)⟩
    | _ => ':' ∉ url → (relative (parts isSeparator url)).Within dir.names

/-! ## macOS -/

/-- The separator of a URL. -/
def isSlash (c : Char) : Bool := c == '/'

/-- `stringByReplacingOccurrencesOfString:withString:` for a string of the given
length, which is not 0; `skip` counts what is left of an occurrence. -/
def replaceOccurrences (string replacement : Text) : Nat → Text → Text
  | _, [] => []
  | skip + 1, _ :: text => replaceOccurrences string replacement skip text
  | 0, c :: text =>
    if string <+: c :: text then
      replacement ++ replaceOccurrences string replacement (string.length - 1) text
    else c :: replaceOccurrences string replacement 0 text

/-- `app:///` and `app://` -/
def appPath : Text := ['a', 'p', 'p', ':', '/', '/', '/']

/-- What a URL of the application begins with. -/
def appHost : Text := ['a', 'p', 'p', ':', '/', '/']

/-- `url` without the protocol. -/
def removeProtocol (url : Text) : Text :=
  if appPath <:+: url then replaceOccurrences appPath ['/'] 0 url
  else if appHost <:+: url then replaceOccurrences appHost ['/'] 0 url
  else url

/-- The path of a directory. -/
def pathText (names : List Text) : Text := '/' :: ['/'].intercalate names

/-- The arguments and the working directory. -/
structure MacEnvironment where
  arguments : List Text
  currentDirectory : List Text

/-- The place of a path. -/
def place (env : MacEnvironment) (path : Text) : List Text :=
  resolve (if path.head? = some '/' then [] else env.currentDirectory) (parts isSlash path)

/-- The path that is not packaged: the directory of the first argument that is no
option, or the working directory.  An empty argument raises. -/
def macScriptPath (env : MacEnvironment) : Option Text :=
  match env.arguments.tail.find? fun arg => arg.head? != some '-' with
  | some [] => none
  | some arg =>
    let path := if arg.head? = some '/' then arg else pathText env.currentDirectory ++ '/' :: arg
    let pathComponents := (path.splitOnP isSlash).filter (· != [])
    some (pathComponents.dropLast.flatMap fun component => '/' :: component)
  | none => some (pathText env.currentDirectory)

/-- `startLoading`: the file it opens; `none` where it fails.  `packaged` says
that there is a `package.json` and an identifier, `url` is the description of
the URL. -/
def startLoading (files : List Text → Bool) (resourcePath : List Text) (packaged : Bool)
    (env : MacEnvironment) (url : Text) : Option (List Text) := do
  let url := removeProtocol url
  let path ← if packaged then some (pathText resourcePath) else macScriptPath env
  let path ←
    match url with
    | [] => none
    | c :: _ => some (if c = '/' then path ++ ['/', '.'] ++ url else path ++ '/' :: url)
  let path :=
    if !packaged && !files (place env path) then pathText env.currentDirectory ++ '/' :: url
    else path
  if files (place env path) then some (place env path) else none

/-- Containment. -/
def MacContained (resourcePath : List Text) (url : Text) : Prop :=
  ∀ files, ∀ env env' : MacEnvironment,
    startLoading files resourcePath true env url =
        startLoading files resourcePath true env' url ∧
      ∀ file, startLoading files resourcePath true env url = some file → resourcePath <+: file

/-- The condition: what is left of the URL goes nowhere else. -/
def MacSafe (resourcePath : List Text) (url : Text) : Prop :=
  removeProtocol url ≠ [] →
    (relative (parts isSlash (removeProtocol url))).Within resourcePath

/-! ## Texts of paths -/

/-- A name that a file can have. -/
structure IsName (name : Text) : Prop where
  named : partOf name = .into name
  plain : ∀ c ∈ name, isSeparator c = false ∧ c ≠ ':' ∧ invalidPathChar c = false

/-- What `plain` says, computed. -/
def plainChar (c : Char) : Bool := !isSeparator c && c != ':' && !invalidPathChar c

/-- A name of plain characters. -/
theorem IsName.of_all {name : Text} (hnamed : partOf name = .into name)
    (hall : name.all plainChar = true) : IsName name := by
  refine ⟨hnamed, ?_⟩
  intro c hc
  have hplain := List.all_eq_true.mp hall c hc
  simp only [plainChar, Bool.and_eq_true, Bool.not_eq_true', bne_iff_ne] at hplain
  exact ⟨hplain.1.1, hplain.1.2, hplain.2⟩

/-- A location whose path can be written down. -/
structure Location.IsFile (l : Location) : Prop where
  volume : match l.volume with
    | .drive letter => isLetter letter = true
    | .share server name => IsName server ∧ IsName name
  names : ∀ name ∈ l.names, IsName name

/-- A character of joined segments is the separator, or from a segment. -/
theorem mem_intercalate {c separator : Char} {segments : List Text}
    (hc : c ∈ [separator].intercalate segments) :
    c = separator ∨ ∃ segment ∈ segments, c ∈ segment := by
  induction segments with
  | nil => cases hc
  | cons segment segments ih =>
      cases segments with
      | nil =>
          have hmem : c ∈ segment := by simpa [List.intercalate] using hc
          exact .inr ⟨segment, List.mem_cons_self, hmem⟩
      | cons segment' segments =>
          have hsplit : c ∈ segment ∨ c = separator ∨
              c ∈ [separator].intercalate (segment' :: segments) := by
            simpa [List.intercalate] using hc
          obtain hmem | hsep | hrest := hsplit
          · exact .inr ⟨segment, List.mem_cons_self, hmem⟩
          · exact .inl hsep
          · obtain hsep | ⟨segment'', hmem, hc⟩ := ih hrest
            · exact .inl hsep
            · exact .inr ⟨segment'', List.mem_cons_of_mem _ hmem, hc⟩

/-- Segments that were joined come apart again. -/
theorem splitOnP_intercalate {p : Char → Bool} {separator : Char} (hp : p separator = true)
    {segments : List Text} (hne : segments ≠ [])
    (hplain : ∀ segment ∈ segments, ∀ c ∈ segment, p c = false) :
    ([separator].intercalate segments).splitOnP p = segments := by
  induction segments with
  | nil => exact absurd rfl hne
  | cons segment segments ih =>
      have hfirst := hplain segment List.mem_cons_self
      cases segments with
      | nil =>
          have hjoin : [separator].intercalate [segment] = segment := by simp [List.intercalate]
          rw [hjoin]
          exact List.splitOnP_eq_singleton hfirst
      | cons segment' segments =>
          have hjoin : [separator].intercalate (segment :: segment' :: segments) =
              segment ++ separator :: [separator].intercalate (segment' :: segments) := by
            simp [List.intercalate]
          rw [hjoin, List.splitOnP_append_cons _ _ hp, List.splitOnP_eq_singleton hfirst,
            ih (List.cons_ne_nil _ _)
              (fun s hs => hplain s (List.mem_cons_of_mem _ hs))]
          rfl

/-- Names that were joined lead down. -/
theorem resolve_intercalate {p : Char → Bool} {separator : Char} (hp : p separator = true)
    (dir : List Text) {names : List Text} (hnamed : ∀ name ∈ names, partOf name = .into name)
    (hplain : ∀ name ∈ names, ∀ c ∈ name, p c = false) :
    resolve dir (parts p ([separator].intercalate names)) = dir ++ names := by
  cases names with
  | nil => exact (List.append_nil dir).symm
  | cons name names =>
      unfold parts
      rw [splitOnP_intercalate hp (List.cons_ne_nil _ _) hplain, List.map_congr_left hnamed,
        resolve_into]

/-- The last name stands at the end. -/
theorem intercalate_concat (separator : Char) (segments : List Text) (last : Text) :
    [separator].intercalate (segments ++ [last]) =
      if segments = [] then last else [separator].intercalate segments ++ separator :: last := by
  induction segments with
  | nil => simp [List.intercalate]
  | cons segment segments ih =>
      cases segments with
      | nil => simp [List.intercalate]
      | cons segment' segments =>
          rw [if_neg (List.cons_ne_nil _ _)] at ih ⊢
          have hjoin : ∀ more : List Text,
              [separator].intercalate (segment :: segment' :: more) =
                segment ++ separator :: [separator].intercalate (segment' :: more) := by
            intro more
            simp [List.intercalate]
          rw [List.cons_append, List.cons_append, hjoin, hjoin, ← List.cons_append, ih,
            List.append_assoc]
          rfl

/-- A letter may stand in a path. -/
theorem plain_of_isLetter {c : Char} (hc : isLetter c = true) :
    isSeparator c = false ∧ c ≠ ':' ∧ invalidPathChar c = false := by
  have hne : ∀ d, isLetter d = false → c ≠ d := by
    intro d hd hcd
    rw [hcd, hd] at hc
    cases hc
  have hlow : ¬ c.toNat < 32 := by
    intro hlt
    simp only [isLetter, Bool.or_eq_true, Bool.and_eq_true, decide_eq_true_eq] at hc
    have ha : 'a'.toNat = 97 := rfl
    have hA : 'A'.toNat = 65 := rfl
    omega
  refine ⟨?_, hne _ (by decide), ?_⟩
  · simp only [isSeparator, Bool.or_eq_false_iff, beq_eq_false_iff_ne]
    exact ⟨hne _ (by decide), hne _ (by decide)⟩
  · simp only [invalidPathChar, Bool.or_eq_false_iff, beq_eq_false_iff_ne, decide_eq_false_iff_not]
    exact ⟨⟨⟨⟨hne _ (by decide), hne _ (by decide)⟩, hne _ (by decide)⟩, hne _ (by decide)⟩, hlow⟩

namespace Location.IsFile

variable {l : Location}

/-- The parts of its path after the volume. -/
theorem splitOnP_text (hl : l.IsFile) :
    l.text.splitOnP isSeparator =
      l.volume.segments ++ (['\\'].intercalate l.names).splitOnP isSeparator := by
  unfold Location.text
  rw [List.splitOnP_append_cons _ _ (by decide)]
  congr 1
  have hvolume := hl.volume
  cases hcase : l.volume with
  | drive letter =>
      rw [hcase] at hvolume
      refine splitOnP_intercalate (by decide) (List.cons_ne_nil _ _) ?_
      intro segment hsegment c hc
      obtain rfl := List.mem_singleton.mp hsegment
      simp only [List.mem_cons, List.not_mem_nil, or_false] at hc
      obtain rfl | rfl := hc
      · exact (plain_of_isLetter hvolume).1
      · rfl
  | share server name =>
      rw [hcase] at hvolume
      refine splitOnP_intercalate (by decide) (List.cons_ne_nil _ _) ?_
      intro segment hsegment c hc
      simp only [Volume.segments, List.mem_cons, List.not_mem_nil, or_false] at hsegment
      obtain rfl | rfl | rfl | rfl := hsegment
      · cases hc
      · cases hc
      · exact (hvolume.1.plain c hc).1
      · exact (hvolume.2.plain c hc).1

/-- What its path consists of. -/
theorem plain_text (hl : l.IsFile) : ∀ c ∈ l.text, invalidPathChar c = false := by
  have hsep : invalidPathChar '\\' = false := by decide
  intro c hc
  unfold Location.text at hc
  obtain hc | hc := List.mem_append.mp hc
  · have hvolume := hl.volume
    obtain rfl | ⟨segment, hmem, hc⟩ := mem_intercalate hc
    · exact hsep
    · cases hcase : l.volume with
      | drive letter =>
          rw [hcase] at hvolume hmem
          obtain rfl := List.mem_singleton.mp hmem
          simp only [List.mem_cons, List.not_mem_nil, or_false] at hc
          obtain rfl | rfl := hc
          · exact (plain_of_isLetter hvolume).2.2
          · decide
      | share server name =>
          rw [hcase] at hvolume hmem
          simp only [Volume.segments, List.mem_cons, List.not_mem_nil, or_false] at hmem
          obtain rfl | rfl | rfl | rfl := hmem
          · cases hc
          · cases hc
          · exact (hvolume.1.plain c hc).2.2
          · exact (hvolume.2.plain c hc).2.2
  · obtain rfl | hc := List.mem_cons.mp hc
    · exact hsep
    · obtain rfl | ⟨name, hmem, hc⟩ := mem_intercalate hc
      · exact hsep
      · exact ((hl.names name hmem).plain c hc).2.2

/-- It begins with two characters, and no colon comes after these. -/
theorem text_eq (hl : l.IsFile) : ∃ c c' rest, l.text = c :: c' :: rest ∧ ':' ∉ rest := by
  have hnames : ':' ∉ ['\\'].intercalate l.names := by
    intro hc
    obtain hsep | ⟨name, hmem, hc⟩ := mem_intercalate hc
    · cases hsep
    · exact ((hl.names name hmem).plain _ hc).2.1 rfl
  have hvolume := hl.volume
  unfold Location.text
  cases hcase : l.volume with
  | drive letter =>
      refine ⟨letter, ':', '\\' :: ['\\'].intercalate l.names, rfl, ?_⟩
      intro hc
      obtain hsep | hc := List.mem_cons.mp hc
      · cases hsep
      · exact hnames hc
  | share server name =>
      rw [hcase] at hvolume
      refine ⟨'\\', '\\',
        (server ++ '\\' :: name) ++ '\\' :: ['\\'].intercalate l.names, ?_, ?_⟩
      · simp [Volume.segments, List.intercalate]
      · intro hc
        simp only [List.mem_append, List.mem_cons] at hc
        obtain (hc | hsep | hc) | hsep | hc := hc
        · exact (hvolume.1.plain _ hc).2.1 rfl
        · cases hsep
        · exact (hvolume.2.plain _ hc).2.1 rfl
        · cases hsep
        · exact hnames hc

/-- Segments after its volume are followed from there. -/
theorem locate_segments (hl : l.IsFile) (env : Environment) {rest : List Text} (hrest : rest ≠ []) :
    locate env (l.volume.segments ++ rest) =
      some ⟨l.volume, resolve [] (rest.map partOf)⟩ := by
  have hvolume := hl.volume
  cases hcase : l.volume with
  | drive letter =>
      rw [hcase] at hvolume
      simp only [Volume.segments, List.cons_append, List.nil_append, locate, if_pos hvolume,
        true_and, if_pos hrest, ne_eq]
  | share server name => rfl

/-- Its path leads to it. -/
theorem getFullPath_text (hl : l.IsFile) (env : Environment) :
    getFullPath env l.text = some l := by
  obtain ⟨c, c', rest, htext, hcolon⟩ := hl.text_eq
  have hresolve : resolve [] (parts isSeparator (['\\'].intercalate l.names)) = [] ++ l.names :=
    resolve_intercalate (by decide) [] (fun name hname => (hl.names name hname).named)
      (fun name hname c hc => ((hl.names name hname).plain c hc).1)
  unfold getFullPath
  rw [if_neg (by rw [htext]; simpa using hcolon), hl.splitOnP_text,
    hl.locate_segments env (List.splitOnP_ne_nil _ _)]
  unfold parts at hresolve
  rw [hresolve]
  rfl

/-- A path that is put behind its path is followed from it. -/
theorem getFullPath_append (hl : l.IsFile) (env : Environment) (path : Text) :
    getFullPath env (l.text ++ '\\' :: path) =
      if ':' ∈ path then none
      else some ⟨l.volume, resolve l.names (parts isSeparator path)⟩ := by
  obtain ⟨c, c', rest, htext, hcolon⟩ := hl.text_eq
  have hresolve : resolve [] (parts isSeparator (['\\'].intercalate l.names)) = [] ++ l.names :=
    resolve_intercalate (by decide) [] (fun name hname => (hl.names name hname).named)
      (fun name hname c hc => ((hl.names name hname).plain c hc).1)
  have hguard : (l.text ++ '\\' :: path = [] ∨ ':' ∈ (l.text ++ '\\' :: path).drop 2) ↔
      ':' ∈ path := by
    rw [htext]
    simp [hcolon]
  unfold getFullPath
  simp only [hguard]
  split
  · rfl
  · rw [List.splitOnP_append_cons _ _ (by decide), hl.splitOnP_text, List.append_assoc,
      hl.locate_segments env (by simp), List.map_append, resolve_append]
    unfold parts at hresolve
    rw [hresolve]
    rfl

end Location.IsFile

/-! ## Windows: the condition is exact -/

theorem isName_resources : IsName resourcesName := IsName.of_all (by decide) (by decide)

theorem isName_packageJson : IsName packageJsonName := IsName.of_all (by decide) (by decide)

/-- A name is no rooted path. -/
theorem IsName.notRooted {name : Text} (hname : IsName name) : isPathRooted name = false := by
  match name, hname with
  | [], _ => rfl
  | [c], h => exact (h.plain c List.mem_cons_self).1
  | c :: c' :: rest, h =>
      have hc := (h.plain c List.mem_cons_self).1
      have hc' := (h.plain c' (List.mem_cons_of_mem _ List.mem_cons_self)).2.1
      simp only [isPathRooted, hc, Bool.false_or, beq_eq_false_iff_ne]
      exact hc'

theorem IsName.ne_nil {name : Text} (hname : IsName name) : name ≠ [] := by
  intro hnil
  have hnamed := hname.named
  rw [hnil] at hnamed
  cases hnamed

/-- The path of something in a directory does not end in a separator. -/
theorem getLast?_text {l : Location} (hl : l.IsFile) (hne : l.names ≠ []) :
    (l.text.getLast?.any fun c => isSeparator c || c == ':') = false := by
  obtain hnil | ⟨init, last, hnames⟩ := List.eq_nil_or_concat l.names
  · exact absurd hnil hne
  · rw [List.concat_eq_append] at hnames
    have hlast := hl.names last (by simp [hnames])
    have hend : ∃ front, l.text = front ++ last := by
      unfold Location.text
      rw [hnames, intercalate_concat]
      split
      · exact ⟨['\\'].intercalate l.volume.segments ++ ['\\'], by simp⟩
      · exact ⟨['\\'].intercalate l.volume.segments ++
          '\\' :: (['\\'].intercalate init ++ ['\\']), by simp⟩
    obtain ⟨front, hend⟩ := hend
    obtain ⟨c, hc⟩ : ∃ c, last.getLast? = some c := by
      rw [← Option.isSome_iff_exists, List.getLast?_isSome]
      exact hlast.ne_nil
    have hplain := hlast.plain c (List.mem_of_getLast? hc)
    rw [hend, List.getLast?_append, hc]
    simpa [hplain.1] using hplain.2.1

/-- `Path.Combine` for a path that no file may have. -/
theorem combine_invalid (path₁ : Text) {path₂ : Text} (h : path₂.any invalidPathChar = true) :
    combine path₁ path₂ = none := if_pos (.inr h)

/-- `Path.Combine` behind the path of something in a directory. -/
theorem combine_text {l : Location} (hl : l.IsFile) (hne : l.names ≠ []) {path : Text}
    (hpath : path.any invalidPathChar = false) :
    combine l.text path = some (if path = [] then l.text
      else if isPathRooted path then path else l.text ++ '\\' :: path) := by
  obtain ⟨c, c', rest, htext, -⟩ := hl.text_eq
  have hvalid : l.text.any invalidPathChar = false :=
    List.any_eq_false.mpr fun c hc => by rw [hl.plain_text c hc]; decide
  unfold combine
  rw [if_neg (by simp [hvalid, hpath])]
  split
  · rfl
  · rw [if_neg (by simp [htext])]
    split
    · rfl
    · rw [if_neg (by simp [getLast?_text hl hne])]

/-- A name behind the path of a directory. -/
theorem combine_name {l : Location} (hl : l.IsFile) {name : Text} (hname : IsName name) :
    combine l.text name = some { l with names := l.names ++ [name] }.text := by
  have hpath : name.any invalidPathChar = false :=
    List.any_eq_false.mpr fun c hc => by rw [(hname.plain c hc).2.2]; decide
  by_cases hne : l.names = []
  · obtain ⟨c, c', rest, htext, -⟩ := hl.text_eq
    have hvalid : l.text.any invalidPathChar = false :=
      List.any_eq_false.mpr fun c hc => by rw [hl.plain_text c hc]; decide
    unfold combine
    rw [if_neg (by simp [hvalid, hpath]), if_neg hname.ne_nil, if_neg (by simp [htext]),
      hname.notRooted]
    simp [Location.text, hne, List.intercalate, isSeparator]
  · rw [combine_text hl hne hpath, if_neg hname.ne_nil, hname.notRooted]
    simp only [Bool.false_eq_true, if_false, Location.text, intercalate_concat, if_neg hne,
      List.append_assoc, List.cons_append]

/-- The directory of the executable, and what is in there. -/
theorem parent_isFile {exe : Location} (hexe : exe.IsFile) : exe.parent.IsFile where
  volume := hexe.volume
  names := fun name hname => hexe.names name (List.dropLast_subset _ hname)

/-- A name in a directory is a file there. -/
theorem isFile_snoc {l : Location} (hl : l.IsFile) {name : Text} (hname : IsName name) :
    { l with names := l.names ++ [name] : Location }.IsFile where
  volume := hl.volume
  names := fun name' hname' => by
    obtain hold | hnew := List.mem_append.mp hname'
    · exact hl.names name' hold
    · rw [List.mem_singleton.mp hnew]
      exact hname

theorem resources_isFile {exe : Location} (hexe : exe.IsFile) : (resources exe).IsFile :=
  isFile_snoc (parent_isFile hexe) isName_resources

/-- What is left of a text does not begin with a separator. -/
theorem head?_normalize (text : Text) : (normalize text).head?.any isSeparator = false := by
  unfold normalize
  rw [List.head?_map]
  cases hhead : (text.dropWhile isSeparator).head? with
  | none => rfl
  | some c =>
      have hc : isSeparator c = false := by
        have hnot := List.head?_dropWhile_not isSeparator text
        rw [hhead] at hnot
        simpa using hnot
      by_cases hslash : c = '/'
      · rw [hslash] at hc
        cases hc
      · simpa [hslash] using hc

/-- Nor does `url`. -/
theorem head?_url {uri : Uri} {url : Text} (h : uri.url = some url) :
    url.head?.any isSeparator = false := by
  unfold Uri.url at h
  split at h
  · rename_i hhost
    have hfirst := head?_normalize uri.host
    obtain ⟨c, rest, hcons⟩ := List.exists_cons_of_ne_nil hhost
    rw [hcons] at h hfirst
    simp only [combine, Option.ite_none_left_eq_some] at h
    obtain ⟨-, h⟩ := h
    split at h
    · rw [← Option.some.inj h]
      exact hfirst
    · split at h
      · rename_i hnil
        cases hnil
      · split at h
        · rw [← Option.some.inj h]
          exact head?_normalize uri.absolutePath
        · split at h
          · rw [← Option.some.inj h]
            exact hfirst
          · rw [← Option.some.inj h]
            exact hfirst
  · rw [← Option.some.inj h]
    exact head?_normalize uri.absolutePath

/-- **What is opened in a packaged application.** -/
theorem getResponseStream_packaged {files : Location → Bool} {exe : Location}
    (hexe : exe.IsFile) (hpackaged : Packaged files exe) (env : Environment) (uri : Uri) :
    getResponseStream files exe env uri = uri.url.bind fun url =>
      (combine (resources exe).text url).bind fun path =>
        (getFullPath env path).bind fun file => if files file then some file else none := by
  have hresources := resources_isFile hexe
  have hbase : combine exe.parent.text resourcesName = some (resources exe).text :=
    combine_name (parent_isFile hexe) isName_resources
  have hjson : combine (resources exe).text packageJsonName =
      some { resources exe with names := (resources exe).names ++ [packageJsonName] }.text :=
    combine_name hresources isName_packageJson
  have hexists : fileExists files env
      { resources exe with names := (resources exe).names ++ [packageJsonName] }.text = true := by
    unfold fileExists
    rw [(isFile_snoc hresources isName_packageJson).getFullPath_text env]
    simpa [resources, Packaged] using hpackaged
  unfold getResponseStream
  cases hurl : uri.url with
  | none => rfl
  | some url =>
      have hfirst : url.head? ≠ some '\\' := by
        intro hhead
        have hnot := head?_url hurl
        rw [hhead] at hnot
        cases hnot
      simp only [Option.bind_eq_bind, Option.bind_some, hbase, hjson, hexists, if_true,
        if_neg hfirst, Bool.not_true, Bool.false_and, Bool.false_eq_true, if_false]
      cases combine (resources exe).text url with
      | none => rfl
      | some path =>
          obtain hnone | ⟨file, hfile⟩ := Option.eq_none_or_eq_some (getFullPath env path)
          · simp [fileExists, hnone]
          · simp [fileExists, hfile]

/-- Without a drive a path is followed from the directory. -/
theorem getFullPath_notRooted {l : Location} (hl : l.IsFile) (hne : l.names ≠ [])
    (env : Environment) {url : Text} (hvalid : url.any invalidPathChar = false)
    (hrooted : isPathRooted url = false) :
    ((combine l.text url).bind fun path => getFullPath env path) =
      if ':' ∈ url then none
      else some ⟨l.volume, resolve l.names (parts isSeparator url)⟩ := by
  rw [combine_text hl hne hvalid, Option.bind_some, hrooted]
  by_cases hnil : url = []
  · rw [if_pos hnil, hl.getFullPath_text, hnil, if_neg (List.not_mem_nil)]
    rfl
  · rw [if_neg hnil, if_neg Bool.false_ne_true]
    exact hl.getFullPath_append env url

/-- With a drive the directory is dropped. -/
theorem getFullPath_rooted {l : Location} (hl : l.IsFile) (hne : l.names ≠ [])
    (env : Environment) {letter : Char} {rest : Text}
    (hvalid : (letter :: ':' :: rest).any invalidPathChar = false)
    (hletter : isLetter letter = true) (hcolon : ':' ∉ rest) :
    ((combine l.text (letter :: ':' :: rest)).bind fun path => getFullPath env path) =
      some ⟨.drive letter, resolve
        (if rest.head?.any isSeparator then [] else env.directoryOf letter)
        (parts isSeparator rest)⟩ := by
  have hrooted : isPathRooted (letter :: ':' :: rest) = true := by simp [isPathRooted]
  have hsplit : (letter :: ':' :: rest).splitOnP isSeparator =
      (rest.splitOnP isSeparator).modifyHead fun first => letter :: ':' :: first := by
    rw [List.splitOnP_cons_eq_if_modifyHead, (plain_of_isLetter hletter).1,
      List.splitOnP_cons_eq_if_modifyHead]
    simp [isSeparator, List.modifyHead_modifyHead, Function.comp_def]
  rw [combine_text hl hne hvalid, Option.bind_some, if_neg (List.cons_ne_nil _ _), if_pos hrooted]
  unfold getFullPath
  rw [if_neg (by simpa using hcolon), hsplit]
  cases rest with
  | nil =>
      simp [locate, hletter, parts]
  | cons c rest =>
      by_cases hc : isSeparator c = true
      · have hnil := List.splitOnP_ne_nil isSeparator rest
        rw [parts, List.splitOnP_cons_eq_if_modifyHead, if_pos hc]
        simp [locate, hletter, hnil, hc, follow, partOf]
      · rw [parts, List.splitOnP_cons_eq_if_modifyHead, if_neg hc]
        obtain ⟨first, more, hmore⟩ := List.exists_cons_of_ne_nil
          (List.splitOnP_ne_nil isSeparator rest)
        rw [hmore]
        simp [locate, hletter, hc]

/-- What does not begin with a separator is rooted by its drive. -/
theorem isPathRooted_iff {url : Text} (hfirst : url.head?.any isSeparator = false) :
    isPathRooted url = true ↔ ∃ letter rest, url = letter :: ':' :: rest := by
  match url, hfirst with
  | [], _ => simp [isPathRooted]
  | [c], h =>
      have hc : isSeparator c = false := by simpa using h
      simp [isPathRooted, hc]
  | c :: c' :: rest, h =>
      have hc : isSeparator c = false := by simpa using h
      simp [isPathRooted, hc]

/-- Some drives and colons no file function takes. -/
theorem getFullPath_refused {l : Location} (hl : l.IsFile) (hne : l.names ≠ [])
    (env : Environment) {letter : Char} {rest : Text}
    (hvalid : (letter :: ':' :: rest).any invalidPathChar = false)
    (hfirst : isSeparator letter = false) (hrefused : ¬ (isLetter letter = true ∧ ':' ∉ rest)) :
    ((combine l.text (letter :: ':' :: rest)).bind fun path => getFullPath env path) = none := by
  have hrooted : isPathRooted (letter :: ':' :: rest) = true := by simp [isPathRooted]
  have hsplit : (letter :: ':' :: rest).splitOnP isSeparator =
      (rest.splitOnP isSeparator).modifyHead fun first => letter :: ':' :: first := by
    rw [List.splitOnP_cons_eq_if_modifyHead, hfirst, List.splitOnP_cons_eq_if_modifyHead]
    simp [isSeparator, List.modifyHead_modifyHead, Function.comp_def]
  rw [combine_text hl hne hvalid, Option.bind_some, if_neg (List.cons_ne_nil _ _), if_pos hrooted]
  unfold getFullPath
  by_cases hcolon : ':' ∈ rest
  · exact if_pos (.inr hcolon)
  · have hletter : isLetter letter = false := by
      rw [← Bool.not_eq_true]
      exact fun hletter => hrefused ⟨hletter, hcolon⟩
    obtain ⟨first, more, hmore⟩ := List.exists_cons_of_ne_nil
      (List.splitOnP_ne_nil isSeparator rest)
    rw [if_neg (by simpa using hcolon), hsplit, hmore]
    simp [locate, hletter]

/-- The file that `url` names is the same for every environment and lies in the
directory. -/
def NamesInside (dir : Location) (url : Text) : Prop :=
  ∀ env env' : Environment,
    ((combine dir.text url).bind fun path => getFullPath env path) =
        ((combine dir.text url).bind fun path => getFullPath env' path) ∧
      ∀ file, ((combine dir.text url).bind fun path => getFullPath env path) = some file →
        Inside dir file

/-- A `url` with a drive. -/
theorem namesInside_drive {dir : Location} (hdir : dir.IsFile) (hne : dir.names ≠ [])
    {letter : Char} {rest : Text}
    (hvalid : (letter :: ':' :: rest).any invalidPathChar = false)
    (hletter : isLetter letter = true) (hcolon : ':' ∉ rest) :
    NamesInside dir (letter :: ':' :: rest) ↔
      rest.head?.any isSeparator = true ∧
        Inside dir ⟨.drive letter, resolve [] (parts isSeparator rest)⟩ := by
  have hopened := fun env => getFullPath_rooted hdir hne env hvalid hletter hcolon
  by_cases hroot : rest.head?.any isSeparator = true
  · simp only [hroot, if_true] at hopened
    constructor
    · intro hinside
      let env : Environment := ⟨[], dir, fun _ => []⟩
      exact ⟨hroot, (hinside env env).2 _ (hopened env)⟩
    · intro ⟨_, hinside⟩ env env'
      refine ⟨by rw [hopened env, hopened env'], ?_⟩
      intro file hfile
      rw [hopened env, Option.some.injEq] at hfile
      rw [← hfile]
      exact hinside
  · refine ⟨fun hinside => ?_, fun h => absurd h.1 hroot⟩
    -- two working directories of that drive
    rw [Bool.not_eq_true] at hroot
    simp only [hroot, Bool.false_eq_true, if_false] at hopened
    obtain ⟨elsewhere, hother⟩ := exists_resolve_ne (parts isSeparator rest)
    let env : Environment := ⟨[], ⟨.drive letter, elsewhere⟩, fun _ => []⟩
    let env' : Environment := ⟨[], ⟨.drive letter, []⟩, fun _ => []⟩
    have hsame := (hinside env env').1
    rw [hopened env, hopened env', Option.some.injEq, Location.mk.injEq] at hsame
    have hnames := hsame.2
    simp only [Environment.directoryOf, env, env', if_true] at hnames
    exact absurd hnames hother

/-- The condition is exact for `url`. -/
theorem namesInside_iff {dir : Location} (hdir : dir.IsFile) (hne : dir.names ≠ []) {url : Text}
    (hfirst : url.head?.any isSeparator = false) : NamesInside dir url ↔ WinSafe dir url := by
  by_cases hvalid : url.any invalidPathChar = false
  case neg =>
    have hopened := fun env => congrArg (fun path => path.bind (getFullPath env))
      (combine_invalid dir.text (by simpa using hvalid))
    refine ⟨fun _ h => absurd h hvalid, fun _ env env' => ?_⟩
    refine ⟨(hopened env).trans (hopened env').symm, fun file hfile => ?_⟩
    have hnone := (hopened env).symm.trans hfile
    cases hnone
  by_cases hrooted : isPathRooted url = true
  · obtain ⟨letter, rest, rfl⟩ := (isPathRooted_iff hfirst).mp hrooted
    by_cases hdrive : isLetter letter = true ∧ ':' ∉ rest
    · rw [namesInside_drive hdir hne hvalid hdrive.1 hdrive.2]
      exact ⟨fun h _ _ _ => h, fun h => h hvalid hdrive.1 hdrive.2⟩
    · have hopened := fun env =>
        getFullPath_refused hdir hne env hvalid (by simpa using hfirst) hdrive
      refine ⟨fun _ _ hletter hcolon => absurd ⟨hletter, hcolon⟩ hdrive, fun _ env env' => ?_⟩
      refine ⟨(hopened env).trans (hopened env').symm, fun file hfile => ?_⟩
      rw [hopened env] at hfile
      cases hfile
  · have hopened := fun env =>
      getFullPath_notRooted hdir hne env hvalid (Bool.not_eq_true _ ▸ hrooted)
    have hsafe : WinSafe dir url ↔
        (':' ∉ url → (relative (parts isSeparator url)).Within dir.names) := by
      unfold WinSafe
      split
      · simp [isPathRooted] at hrooted
      · exact ⟨fun h => h hvalid, fun h _ => h⟩
    rw [hsafe]
    by_cases hcolon : ':' ∈ url
    · simp only [if_pos hcolon] at hopened
      refine ⟨fun _ h => absurd hcolon h, fun _ env env' => ?_⟩
      refine ⟨(hopened env).trans (hopened env').symm, fun file hfile => ?_⟩
      rw [hopened env] at hfile
      cases hfile
    · simp only [if_neg hcolon] at hopened
      rw [← prefix_resolve_iff]
      constructor
      · intro hinside _
        let env : Environment := ⟨[], dir, fun _ => []⟩
        exact ((hinside env env).2 _ (hopened env)).2
      · intro hprefix env env'
        refine ⟨(hopened env).trans (hopened env').symm, fun file hfile => ?_⟩
        rw [hopened env, Option.some.injEq] at hfile
        rw [← hfile]
        exact ⟨rfl, hprefix hcolon⟩

/-- **On Windows.** -/
theorem winContained_iff {exe : Location} (hexe : exe.IsFile) (uri : Uri) :
    WinContained exe uri ↔ ∀ url, uri.url = some url → WinSafe (resources exe) url := by
  have hne : (resources exe).names ≠ [] := by simp [resources]
  have hdir := resources_isFile hexe
  constructor
  · intro hcontained url hurl
    rw [← namesInside_iff hdir hne (head?_url hurl)]
    intro env env'
    -- every file exists
    have hpackaged : Packaged (fun _ => true) exe := rfl
    have hall := hcontained (fun _ => true) hpackaged env env'
    rw [getResponseStream_packaged hexe hpackaged, getResponseStream_packaged hexe hpackaged,
      hurl] at hall
    simpa [Option.bind_assoc] using hall
  · intro hsafe files hpackaged env env'
    rw [getResponseStream_packaged hexe hpackaged, getResponseStream_packaged hexe hpackaged]
    cases hurl : uri.url with
    | none => exact ⟨rfl, fun file hfile => by cases hfile⟩
    | some url =>
        have hinside := (namesInside_iff hdir hne (head?_url hurl)).mpr (hsafe url hurl)
        simp only [Option.bind_some, ← Option.bind_assoc]
        refine ⟨by rw [(hinside env env').1], ?_⟩
        intro file hfile
        obtain ⟨file', hfile', hexists⟩ := Option.bind_eq_some_iff.mp hfile
        rw [Option.ite_none_right_eq_some, Option.some.injEq] at hexists
        rw [← hexists.2]
        exact (hinside env env').2 file' hfile'

/-! ## macOS: the condition is exact -/

/-- The names of a directory: none is empty, `.` or `..`, or has a slash. -/
def AreNames (names : List Text) : Prop :=
  ∀ name ∈ names, partOf name = .into name ∧ '/' ∉ name

/-- A path that is put behind the path of a directory is followed from it. -/
theorem place_append {dir : List Text} (hdir : AreNames dir) (env : MacEnvironment)
    (path : Text) :
    place env (pathText dir ++ '/' :: path) = resolve dir (parts isSlash path) := by
  have hslash : isSlash '/' = true := by decide
  have hplain : ∀ name ∈ dir, ∀ c ∈ name, isSlash c = false := by
    intro name hname c hc
    unfold isSlash
    rw [beq_eq_false_iff_ne]
    intro hcslash
    exact (hdir name hname).2 (hcslash ▸ hc)
  have hnames := resolve_intercalate hslash [] (fun name hname => (hdir name hname).1) hplain
  have hsplit : parts isSlash (pathText dir ++ '/' :: path) =
      .here :: (parts isSlash (['/'].intercalate dir) ++ parts isSlash path) := by
    unfold parts pathText
    rw [List.cons_append, List.splitOnP_cons_eq_if_modifyHead, if_pos hslash,
      List.splitOnP_append_cons _ _ hslash, List.map_cons, List.map_append]
    rfl
  unfold place
  rw [hsplit, if_pos (by simp [pathText]), resolve_cons, resolve_append]
  unfold follow
  rw [hnames]
  rfl

/-- **What is opened in a packaged application.** -/
theorem startLoading_packaged {files : List Text → Bool} {dir : List Text} (hdir : AreNames dir)
    (env : MacEnvironment) (url : Text) :
    startLoading files dir true env url =
      if removeProtocol url = [] then none
      else if files (resolve dir (parts isSlash (removeProtocol url))) then
        some (resolve dir (parts isSlash (removeProtocol url)))
      else none := by
  unfold startLoading
  cases hurl : removeProtocol url with
  | nil => rfl
  | cons c rest =>
      have hplace : place env (if c = '/' then pathText dir ++ ['/', '.'] ++ c :: rest
          else pathText dir ++ '/' :: c :: rest) = resolve dir (parts isSlash (c :: rest)) := by
        by_cases hc : c = '/'
        · have hslash : isSlash '/' = true := by decide
          have hdot : isSlash '.' = false := by decide
          rw [if_pos hc, hc, List.append_assoc]
          -- both begin with a part that stays
          refine (place_append hdir env ('.' :: '/' :: rest)).trans ?_
          unfold parts
          rw [List.splitOnP_cons_eq_if_modifyHead '.', hdot,
            List.splitOnP_cons_eq_if_modifyHead '/', if_pos hslash]
          rfl
        · rw [if_neg hc]
          exact place_append hdir env (c :: rest)
      simp only [Option.bind_eq_bind, Option.bind_some, if_true, Bool.not_true, Bool.false_and,
        Bool.false_eq_true, if_false, hplace, List.cons_ne_nil]

/-- **On macOS.** -/
theorem macContained_iff {dir : List Text} (hdir : AreNames dir) (url : Text) :
    MacContained dir url ↔ MacSafe dir url := by
  have hopened := fun files => @startLoading_packaged files dir hdir
  unfold MacContained MacSafe
  simp only [hopened, ← prefix_resolve_iff]
  constructor
  · intro hcontained hne
    have hall := (hcontained (fun _ => true) ⟨[], []⟩ ⟨[], []⟩).2
    simp only [if_neg hne, if_true, Option.some.injEq, forall_eq'] at hall
    exact hall
  · intro hsafe files env env'
    refine ⟨trivial, ?_⟩
    intro file hfile
    rw [Option.ite_none_left_eq_some, Option.ite_none_right_eq_some, Option.some.injEq] at hfile
    rw [← hfile.2.2]
    exact hsafe hfile.1

/-- **The file is the same for every command line and working directory and lies
in the resource directory if and only if** -- on Windows -- `url` does not go
above the directory and has no drive, or is the full path of a place in there;
and -- on macOS -- what is left of the URL does not go above the directory. -/
theorem appSchema_contained_iff (exe : Location) (uri : Uri) (resourcePath : List Text)
    (url : Text) :
    (exe.IsFile → (WinContained exe uri ↔
      ∀ url, uri.url = some url → WinSafe (resources exe) url)) ∧
    (AreNames resourcePath → (MacContained resourcePath url ↔ MacSafe resourcePath url)) :=
  ⟨fun hexe => winContained_iff hexe uri, fun hdir => macContained_iff hdir url⟩

/-- `C:\App\t`, and the resource directory `/App/R`. -/
def exeOnC : Location := ⟨.drive 'C', [['A', 'p', 'p'], ['t']]⟩

/-- Resources in a directory of the application. -/
def appResources : List Text := [['A', 'p', 'p'], ['R']]

/-- An executable on a drive. -/
theorem exeOnC_isFile : exeOnC.IsFile where
  volume := rfl
  names := by
    intro name hname
    simp only [exeOnC, List.mem_cons, List.not_mem_nil, or_false] at hname
    obtain rfl | rfl := hname
    · exact IsName.of_all (by decide) (by decide)
    · exact IsName.of_all (by decide) (by decide)

/-- `app://a/b` on Windows, and `app:///a/../b` on macOS. -/
theorem appSchema_contained_plain :
    (WinContained exeOnC ⟨['a'], ['/', 'b']⟩ ↔
      ∀ url, Uri.url ⟨['a'], ['/', 'b']⟩ = some url → WinSafe (resources exeOnC) url) ∧
    (MacContained appResources (appPath ++ ['a', '/', '.', '.', '/', 'b']) ↔
      MacSafe appResources (appPath ++ ['a', '/', '.', '.', '/', 'b'])) :=
  ⟨(appSchema_contained_iff exeOnC ⟨['a'], ['/', 'b']⟩ [] []).1 exeOnC_isFile,
    (appSchema_contained_iff exeOnC ⟨[], []⟩ appResources
      (appPath ++ ['a', '/', '.', '.', '/', 'b'])).2 (by unfold AreNames; decide)⟩

/-- **Files elsewhere.**  `app:///C:x` is a file of the working directory on
Windows, and `app:///../x` one outside on macOS. -/
theorem appSchema_escapes :
    (¬ ∀ (exe : Location) (uri : Uri), exe.IsFile → WinContained exe uri) ∧
    ¬ ∀ resourcePath url, AreNames resourcePath → MacContained resourcePath url := by
  constructor
  · intro hall
    have hcontained := hall exeOnC ⟨[], ['/', 'C', ':', 'x']⟩ exeOnC_isFile (fun _ => true) rfl
      ⟨[], ⟨.drive 'C', []⟩, fun _ => []⟩ ⟨[], ⟨.drive 'C', [['a']]⟩, fun _ => []⟩
    exact absurd hcontained.1 (by decide)
  · intro hall
    have hcontained := hall appResources (appPath ++ ['.', '.', '/', 'x'])
      (by unfold AreNames; decide) (fun _ => true) ⟨[], []⟩ ⟨[], []⟩
    exact absurd (hcontained.2 [['A', 'p', 'p'], ['x']] (by decide)) (by decide)

end AppSchema

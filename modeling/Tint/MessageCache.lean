import Tint.Transition
import Mathlib.Data.List.Basic
import Mathlib.Logic.Function.Basic

/-!
# The message cache of a bridged Objective-C object

`msgSend` makes an unwrapper function for the types of a message and keeps it in
`msgCache`, under the selector followed by the address of the function that sends.
The types come from the method table, or from the number of arguments where the
method is not known; neither is part of the key.

* `cache_sound_of_unchanged` -- the unwrapper that is taken is the one for the current
  call, in every run in which no method of a selector that was sent is added, a selector
  that is not known is sent with one number of arguments, and no two selectors spell one
  key;
* `keys_apart` -- they do not, if the addresses have the same number of digits;
* `method_added_after_send` -- a method is added to an object that was sent its selector.
-/

namespace MessageCache

open Transition

/-- Selectors, type encodings and keys. -/
abbrev Text := List Char

/-- An argument of `msgSend`; what is no string is known by its identity. -/
inductive Value
  | string (s : Text)
  | undefined
  | null
  | object (identity : Nat)
  deriving DecidableEq

/-- `Object.keys` with the values, and the text of an object in a `join`. -/
structure Objects where
  entries : Nat → List (Text × Value)
  text : Nat → Text

/-- The result of `getTypes`: the return type and the argument types. -/
structure Types where
  retval : Text
  args : List Text
  deriving DecidableEq

/-- The functions of the runtime that send a message. -/
inductive Sender
  | objc_msgSend
  | objc_msgSendSuper
  | objc_msgSend_stret
  | objc_msgSendSuper_stret
  deriving DecidableEq

/-- What `createUnwrapperFunction` is called with. -/
structure Unwrapper where
  funcptr : Sender
  types : Types
  deriving DecidableEq

/-- The methods of a class, by selector. -/
abbrev Table := Text → Option Types

/-- A message that was sent: the unwrapper that was taken for it and the one for its
types. -/
structure Sent where
  sel : Text
  args : List Value
  supre : Bool
  stret : Bool
  used : Unwrapper
  wanted : Unwrapper
  deriving DecidableEq

/-- The method tables of the class and its superclasses, the cache and the messages that
were sent. -/
structure State where
  tables : List Table
  msgCache : Text → Option Unwrapper
  sent : List Sent

/-- A wrapped object that was sent nothing. -/
def start (tables : List Table) : State := ⟨tables, fun _ => none, []⟩

/-- The method that is found, from the class up. -/
def lookup (tables : List Table) (sel : Text) : Option Types :=
  tables.findSome? fun table => table sel

/-- `getTypes` -/
def getTypes (tables : List Table) (sel : Text) (args : List Value) : Types :=
  match lookup tables sel with
  | some types => types
  | none => ⟨['@'], [['@'], [':']] ++ args.map fun _ => ['@']⟩

/-- `class_addMethod`, for the class so many steps up; it refuses a selector that the
class has. -/
def addMethod (tables : List Table) (depth : Nat) (sel : Text) (types : Types) : List Table :=
  tables.modify depth fun table =>
    if (table sel).isSome then table else Function.update table sel (some types)

/-- The function that sends, and the types it is called with: `super` and the return of a
large struct change both. -/
def unwrapper (supre stret : Bool) (types : Types) : Unwrapper :=
  let args := if supre then ['?'] :: types.args.tail else types.args
  if stret then
    ⟨if supre then .objc_msgSendSuper_stret else .objc_msgSend_stret, ⟨['v'], ['?'] :: args⟩⟩
  else ⟨if supre then .objc_msgSendSuper else .objc_msgSend, ⟨types.retval, args⟩⟩

section Model

variable (objects : Objects)

/-- An entry of an array in a `join`. -/
def joined : Value → Text
  | .string s => s
  | .undefined => []
  | .null => []
  | .object identity => objects.text identity

/-- The names, an empty text behind them, joined by colons. -/
def selector (names : List Text) : Text := names.flatMap (· ++ [':'])

/-- The pairs of the varargs form. -/
def pairs : List Value → List (Text × Value)
  | [] => []
  | [v] => [(joined objects v, .undefined)]
  | v :: arg :: argv => (joined objects v, arg) :: pairs argv

/-- `parseArgs`; none if it throws. -/
def parseArgs : List Value → Option (Text × List Value)
  | [.string arg] => some (arg, [])
  | [.undefined] => none
  | [.null] => none
  | [.object identity] =>
      let entries := objects.entries identity
      some (selector (entries.map Prod.fst), entries.map Prod.snd)
  | argv =>
      let entries := pairs objects argv
      some (selector (entries.map Prod.fst), entries.map Prod.snd)

-- the address of each function, and whether `createUnwrapperFunction` can map the types
variable (address : Sender → Nat) (maps : Types → Bool)

/-- `sel += funcptr.address()` -/
def key (sel : Text) (funcptr : Sender) : Text := sel ++ Nat.toDigits 10 (address funcptr)

/-- What `msgSend` makes of its arguments before it looks at the cache, where `size` is
the size of what `getStruct` has for the return type; none if it throws. -/
def message (s : State) (argv : List Value) (supre : Bool) (size : Nat) : Option Sent :=
  match parseArgs objects argv with
  | none => none
  | some (sel, args) =>
      let wanted := unwrapper supre (size > 16) (getTypes s.tables sel args)
      if sel = [] then none
      -- a root class has no superclass
      else if supre ∧ s.tables.length ≤ 1 then none
      else some ⟨sel, args, supre, size > 16, wanted, wanted⟩

/-- `msgSend` -/
def msgSend (s : State) (argv : List Value) (supre : Bool) (size : Nat) : State :=
  match message objects s argv supre size with
  | none => s
  | some m =>
      match s.msgCache (key address m.sel m.wanted.funcptr) with
      | some used => { s with sent := s.sent ++ [{ m with used }] }
      | none =>
          if maps m.wanted.types then
            { s with
              msgCache :=
                Function.update s.msgCache (key address m.sel m.wanted.funcptr) (some m.wanted)
              sent := s.sent ++ [m] }
          else s

/-- The calls on a wrapped object or class. -/
inductive Call
  | msgSend (argv : List Value) (supre : Bool) (size : Nat)
  | addMethod (depth : Nat) (sel : Text) (types : Types)

/-- One call. -/
def step (s : State) : Call → Option State
  | .msgSend argv supre size => some (msgSend objects address maps s argv supre size)
  | .addMethod depth sel types => some { s with tables := addMethod s.tables depth sel types }

/-- **The property.**  Each message was sent by the unwrapper for its function and types. -/
def Sound (s : State) : Prop := ∀ m ∈ s.sent, m.used = m.wanted

instance (s : State) : Decidable (Sound s) :=
  inferInstanceAs (Decidable (∀ m ∈ s.sent, m.used = m.wanted))

/-- The condition on a call.  A method is added where that changes nothing or its selector
was not sent.  A selector that is sent spells the key of no other one that was, and has
as many arguments as before where its method is not known. -/
def KeepsCache (s : State) : Call → Prop
  | .msgSend argv supre size =>
      ∀ m, message objects s argv supre size = some m → ∀ m' ∈ s.sent,
        (key address m'.sel m'.wanted.funcptr = key address m.sel m.wanted.funcptr →
          m'.sel = m.sel ∧ m'.wanted.funcptr = m.wanted.funcptr) ∧
        (m'.sel = m.sel → m'.wanted.funcptr = m.wanted.funcptr → lookup s.tables m.sel = none →
          m'.args.length = m.args.length)
  | .addMethod depth sel types =>
      lookup (addMethod s.tables depth sel types) sel = lookup s.tables sel ∨
        ∀ m ∈ s.sent, m.sel ≠ sel

/-! ## Keys -/

theorem funcptr_unwrapper {supre supre' stret stret' : Bool} {types types' : Types}
    (h : (unwrapper supre stret types).funcptr = (unwrapper supre' stret' types').funcptr) :
    supre = supre' ∧ stret = stret' := by
  cases supre <;> cases stret <;> cases supre' <;> cases stret' <;> simp [unwrapper] at h ⊢

variable {address} in
/-- **Keys apart.**  If the addresses differ and have the same number of digits, a key
says which selector and which function it is for. -/
theorem keys_apart (haddress : Function.Injective address)
    (hdigits : ∀ f f', (Nat.toDigits 10 (address f)).length = (Nat.toDigits 10 (address f')).length)
    {sel sel' : Text} {f f' : Sender} (h : key address sel f = key address sel' f') :
    sel = sel' ∧ f = f' := by
  obtain ⟨hsel, htext⟩ := List.append_inj' h (hdigits f f')
  refine ⟨hsel, haddress ?_⟩
  have hvalue := congrArg (Nat.ofDigitChars 10 · 0) htext
  simpa using hvalue

/-! ## Method tables -/

/-- Adding a method changes what is found for its selector only. -/
theorem lookup_addMethod_of_ne {sel sel' : Text} (h : sel' ≠ sel) (tables : List Table)
    (depth : Nat) (types : Types) :
    lookup (addMethod tables depth sel types) sel' = lookup tables sel' := by
  induction tables generalizing depth with
  | nil => cases depth <;> rfl
  | cons table tables ih =>
      cases depth with
      | zero =>
          have htable :
              (if (table sel).isSome then table
                else Function.update table sel (some types)) sel' = table sel' := by
            split
            · rfl
            · exact Function.update_of_ne h _ _
          simp only [addMethod, List.modify_zero_cons, lookup, List.findSome?_cons, htable]
      | succ depth =>
          have hrest := ih depth
          simp only [addMethod, lookup] at hrest
          simp only [addMethod, List.modify_succ_cons, lookup, List.findSome?_cons, hrest]

/-- The types of a message depend on the method, or on the number of arguments. -/
theorem getTypes_congr {tables tables' : List Table} {sel : Text} {args args' : List Value}
    (hlookup : lookup tables sel = lookup tables' sel)
    (hargs : lookup tables' sel = none → args.length = args'.length) :
    getTypes tables sel args = getTypes tables' sel args' := by
  unfold getTypes
  rw [hlookup]
  split
  · rfl
  · next hnone => simp only [List.map_const', hargs hnone]

/-! ## One call -/

/-- What every call keeps that meets the condition. -/
structure Kept (s : State) : Prop where
  sound : Sound s
  cached : ∀ k used, s.msgCache k = some used →
    ∃ m ∈ s.sent, k = key address m.sel m.wanted.funcptr ∧ used = m.wanted
  current : ∀ m ∈ s.sent, m.wanted = unwrapper m.supre m.stret (getTypes s.tables m.sel m.args)

variable {objects address maps} {s t : State}

/-- The unwrapper that a message wants. -/
theorem wanted_of_message {argv : List Value} {supre : Bool} {size : Nat} {m : Sent}
    (h : message objects s argv supre size = some m) :
    m.used = m.wanted ∧ m.wanted = unwrapper m.supre m.stret (getTypes s.tables m.sel m.args) := by
  unfold message at h
  split at h
  · cases h
  · split_ifs at h
    obtain rfl := Option.some.inj h
    exact ⟨rfl, rfl⟩

/-- A message that finds an entry finds the one for it. -/
theorem cached_eq_wanted (h : Kept address s) {argv : List Value} {supre : Bool} {size : Nat}
    (hok : KeepsCache objects address s (.msgSend argv supre size)) {m : Sent}
    (hm : message objects s argv supre size = some m) {used : Unwrapper}
    (hused : s.msgCache (key address m.sel m.wanted.funcptr) = some used) : used = m.wanted := by
  obtain ⟨m', hm', hkey, rfl⟩ := h.cached _ _ hused
  obtain ⟨hapart, hcount⟩ := hok m hm m' hm'
  obtain ⟨hsel, hfuncptr⟩ := hapart hkey.symm
  have hwanted' := h.current m' hm'
  have hwanted := (wanted_of_message hm).2
  have htypes : getTypes s.tables m'.sel m'.args = getTypes s.tables m.sel m.args := by
    rw [hsel]
    exact getTypes_congr rfl (hcount hsel hfuncptr)
  rw [hwanted', hwanted] at hfuncptr
  obtain ⟨hsupre, hstret⟩ := funcptr_unwrapper hfuncptr
  rw [hwanted', hwanted, hsupre, hstret, htypes]

theorem addMethod_kept (h : Kept address s) {depth : Nat} {sel : Text} {types : Types}
    (hok : KeepsCache objects address s (.addMethod depth sel types)) :
    Kept address { s with tables := addMethod s.tables depth sel types } := by
  refine ⟨h.sound, h.cached, fun m hm => ?_⟩
  have hlookup : lookup s.tables m.sel = lookup (addMethod s.tables depth sel types) m.sel := by
    by_cases hsel : m.sel = sel
    · rcases hok with hsame | hunsent
      · rw [hsel, hsame]
      · exact absurd hsel (hunsent m hm)
    · exact (lookup_addMethod_of_ne hsel s.tables depth types).symm
  rw [h.current m hm]
  exact congrArg (unwrapper m.supre m.stret) (getTypes_congr hlookup fun _ => rfl)

theorem msgSend_kept (h : Kept address s) {argv : List Value} {supre : Bool} {size : Nat}
    (hok : KeepsCache objects address s (.msgSend argv supre size)) :
    Kept address (msgSend objects address maps s argv supre size) := by
  unfold msgSend
  split
  · exact h
  · next m hm =>
    obtain ⟨hsame, hwanted⟩ := wanted_of_message hm
    split
    · next used hused =>
      have hentry := cached_eq_wanted h hok hm hused
      refine ⟨fun m' hm' => ?_, fun k u hu => ?_, fun m' hm' => ?_⟩
      · rcases List.mem_append.mp hm' with hm' | hm'
        · exact h.sound m' hm'
        · obtain rfl := List.mem_singleton.mp hm'
          exact hentry
      · obtain ⟨m', hm', hk⟩ := h.cached k u hu
        exact ⟨m', List.mem_append_left _ hm', hk⟩
      · rcases List.mem_append.mp hm' with hm' | hm'
        · exact h.current m' hm'
        · obtain rfl := List.mem_singleton.mp hm'
          exact hwanted
    · split
      · refine ⟨fun m' hm' => ?_, fun k u hu => ?_, fun m' hm' => ?_⟩
        · rcases List.mem_append.mp hm' with hm' | hm'
          · exact h.sound m' hm'
          · obtain rfl := List.mem_singleton.mp hm'
            exact hsame
        · simp only [Function.update_apply] at hu
          split at hu
          · next hk => exact ⟨m, by simp, hk, (Option.some.inj hu).symm⟩
          · obtain ⟨m', hm', hk⟩ := h.cached k u hu
            exact ⟨m', List.mem_append_left _ hm', hk⟩
        · rcases List.mem_append.mp hm' with hm' | hm'
          · exact h.current m' hm'
          · obtain rfl := List.mem_singleton.mp hm'
            exact hwanted
      · exact h

/-- **One call.**  A call that meets the condition keeps the cache current. -/
theorem step_kept {c : Call} (h : Kept address s) (hok : KeepsCache objects address s c)
    (hstep : step objects address maps s c = some t) : Kept address t := by
  cases c with
  | msgSend argv supre size =>
      obtain rfl := Option.some.inj hstep
      exact msgSend_kept h hok
  | addMethod depth sel types =>
      obtain rfl := Option.some.inj hstep
      exact addMethod_kept h hok

theorem start_kept (tables : List Table) : Kept address (start tables) where
  sound _ hm := by cases hm
  cached _ _ hu := by cases hu
  current _ hm := by cases hm

variable (objects address maps s) in
/-- **The cache is sound.**  In every run whose calls meet the condition each message is
sent by the unwrapper for its function and its types. -/
theorem cache_sound_of_unchanged (tables : List Table)
    (h : Reaches (step objects address maps) (KeepsCache objects address) (start tables) s) :
    Sound s :=
  (h.invariant (Kept address) (start_kept tables)
    fun _ _ _ hs hok hstep => step_kept hs hok hstep).sound

end Model

/-- No objects but strings. -/
def noObjects : Objects := ⟨fun _ => [], fun _ => []⟩

/-- Four addresses. -/
def addresses : Sender → Nat
  | .objc_msgSend => 1000
  | .objc_msgSendSuper => 1100
  | .objc_msgSend_stret => 1200
  | .objc_msgSendSuper_stret => 1300

/-- A method is added to a class, then it is sent twice. -/
theorem cache_sound_of_unchanged_twice : ∃ s, s.sent.length = 2 ∧ Sound s := by
  let argv : List Value := [.string ['p'], .undefined]
  let added : State := ⟨addMethod [fun _ => none] 0 ['p', ':'] ⟨['v'], [['@'], [':'], ['i']]⟩,
    fun _ => none, []⟩
  let sentOnce := msgSend noObjects addresses (fun _ => true) added argv false 0
  have hadd : KeepsCache noObjects addresses (start [fun _ => none])
      (.addMethod 0 ['p', ':'] ⟨['v'], [['@'], [':'], ['i']]⟩) := .inr fun _ hm => by cases hm
  have hfirst : KeepsCache noObjects addresses added (.msgSend argv false 0) :=
    fun _ _ _ hm' => by cases hm'
  have hsecond : KeepsCache noObjects addresses sentOnce (.msgSend argv false 0) := by
    intro m hm m' hm'
    obtain rfl : _ = m := Option.some.inj hm
    obtain rfl : m' = _ := List.mem_singleton.mp hm'
    exact ⟨fun _ => ⟨rfl, rfl⟩, fun _ _ _ => rfl⟩
  exact ⟨_, by decide,
    cache_sound_of_unchanged noObjects addresses (fun _ => true) _ [fun _ => none]
    (((Reaches.start.next hadd rfl).next (t := sentOnce) hfirst rfl).next hsecond rfl)⟩

/-- **A method is added after its selector was sent.**  The second message is sent with
the types of an unknown method. -/
theorem method_added_after_send :
    ¬ ∀ (objects : Objects) (address : Sender → Nat) (maps : Types → Bool) (tables : List Table)
      (s : State),
      Reaches (step objects address maps) (fun _ _ => True) (start tables) s → Sound s := by
  intro hall
  have hsound := hall noObjects addresses (fun _ => true) [fun _ => none] _ (reaches_of_run_any
    [.msgSend [.string ['p'], .undefined] false 0,
      .addMethod 0 ['p', ':'] ⟨['v'], [['@'], [':'], ['i']]⟩,
      .msgSend [.string ['p'], .undefined] false 0] rfl)
  revert hsound
  decide

end MessageCache

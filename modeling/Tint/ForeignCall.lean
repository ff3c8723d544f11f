import Tint.BufferRefs

/-!
# Arguments of foreign calls

A call gets a list of pointers, one for each argument: `ref.alloc` makes a buffer for the
argument, its type writes the value there, and the address goes into `argsList`.  The
buffers of the arguments are in no variable afterwards, only in `_refs` of `argsList`; a
call on the thread pool reads them later, while the program goes on.

* `Ready` -- the native side finds an argument: its value, a pointer, or a string behind a
  pointer;
* `ready_survives` -- it stays so while `argsList` is held and the program writes elsewhere,
  whatever is allocated, forgotten and collected;
* `arguments_survive` -- so a call finds every argument as it was given.
-/

namespace ForeignCall

open ByteMemory Tracing Transition BufferRefs

/-- An argument, with the addresses that the buffers get: what the type writes, a buffer or null for
a pointer type, or the bytes of a C string. -/
inductive Arg
  | value (address : Nat) (data : List UInt8)
  | pointer (address : Nat) (ptr : Option Nat)
  | string (address text : Nat) (data : List UInt8)

/-- `ref.alloc(argType, val)`; the buffer is the `next` one. -/
def Arg.alloc (next : Nat) : Arg → List Action
  | .value address data => [.alloc address data.length, .write next 0 data]
  | .pointer address ptr => [.alloc address POINTER_SIZE, .writePointer next 0 ptr]
  | .string address text data =>
    [.alloc address POINTER_SIZE, .alloc text data.length, .write (next + 1) 0 data,
      .writePointer next 0 (some (next + 1))]

/-- How many buffers that makes. -/
def Arg.count : Arg → Nat
  | .value _ _ => 1
  | .pointer _ _ => 1
  | .string _ _ _ => 2

/-- The size of the argument. -/
def Arg.size : Arg → Nat
  | .value _ data => data.length
  | .pointer _ _ => POINTER_SIZE
  | .string _ _ _ => POINTER_SIZE

def Arg.address : Arg → Nat
  | .value address _ => address
  | .pointer address _ => address
  | .string address _ _ => address

/-- The loop over the arguments, from the `i`th on. -/
def setArguments (argsList : Nat) : Nat → Nat → List Arg → List Action
  | _, _, [] => []
  | next, i, arg :: rest =>
    arg.alloc next ++ .writePointer argsList (i * POINTER_SIZE) (some next) ::
      setArguments argsList (next + arg.count) (i + 1) rest

/-- What a call makes before `ffi_call`: `result`, `argsList` and the arguments. -/
def call (next resultAddress resultSize argsAddress : Nat) (args : List Arg) : List Action :=
  .alloc resultAddress resultSize :: .alloc argsAddress (args.length * POINTER_SIZE) ::
    setArguments (next + 1) (next + 2) 0 args

variable {e : Endianness} {s t u : State} {a : Action}
  {argsList next i j k offset fence : Nat} {o p : Obj}
  {b c : Buffer} {data : List UInt8} {arg : Arg} {args rest : List Arg} {K : Nat → Prop}

/-- A buffer owns its memory and has the bytes there. -/
structure Holds (s : State) (i : Nat) (b : Buffer) (data : List UInt8) : Prop where
  source : ∃ o, s.objects i = some o ∧ o.buffer = b ∧ o.owns = true
  bytes : bytes s.memory b.address data.length = data
  fits : data.length ≤ b.length

/-- The buffer of an argument has what the type wrote. -/
def Written (e : Endianness) (s : State) (next : Nat) : Arg → Prop
  | .value address data => Holds s next ⟨address, data.length⟩ data
  | .pointer address none => Holds s next ⟨address, POINTER_SIZE⟩ (e.encode POINTER_SIZE 0)
  | .pointer address (some ptr) => ∃ c, Points e s next ⟨address, POINTER_SIZE⟩ 0 ptr c
  | .string address text data =>
    Points e s next ⟨address, POINTER_SIZE⟩ 0 (next + 1) ⟨text, data.length⟩ ∧
      Holds s (next + 1) ⟨text, data.length⟩ data

/-- The argument stands in its slot. -/
structure Ready (e : Endianness) (s : State) (argsList : Nat) (b : Buffer)
    (i next : Nat) (arg : Arg) :
    Prop where
  slot : Points e s argsList b (i * POINTER_SIZE) next ⟨arg.address, arg.size⟩
  written : Written e s next arg
  fits : i * POINTER_SIZE + POINTER_SIZE ≤ b.length

/-- The step writes through no buffer of `K`, and into `argsList` only behind the fence. -/
def Elsewhere (K : Nat → Prop) (argsList fence : Nat) (s : State) : Action → Prop
  | .write buf _ _ => ∃ k p, s.objects k = some p ∧ p.owns = true ∧ ¬ K k ∧ k ≠ argsList ∧
      ∀ b, s.objects buf = some b → Within b.buffer p.buffer
  | .writePointer buf offset _ => ¬ K buf ∧ (buf = argsList → fence ≤ offset)
  | _ => True

/-! ## One step -/

theorem Elsewhere.weaken {K' : Nat → Prop} {fence' : Nat} (h : Elsewhere K' argsList fence' s a)
    (hK : ∀ k, K k → K' k) (hfence : fence ≤ fence') : Elsewhere K argsList fence s a := by
  cases a with
  | write buf offset data =>
    obtain ⟨k, p, hk, howns, hnot, hne, hin⟩ := h
    exact ⟨k, p, hk, howns, fun hKk => hnot (hK k hKk), hne, hin⟩
  | writePointer buf offset ptr =>
    exact ⟨fun hKk => h.1 (hK buf hKk), fun hbuf => hfence.trans (h.2 hbuf)⟩
  | _ => trivial

/-- **A step elsewhere spares the memory** of a buffer that owns it. -/
theorem Elsewhere.spares (h : Elsewhere K argsList fence s a) (hinv : Inv s) (hok : Allowed s a)
    (ht : s.step e a = some t) (hi : s.objects i = some o) (howns : o.owns = true)
    (hc : Within c o.buffer)
    (hwhere : K i ∨ i = argsList ∧ c.address + c.length ≤ o.buffer.address + fence) :
    Spares s c a := by
  obtain ⟨hc1, hc2⟩ := hc
  cases a with
  | write buf offset data =>
    obtain ⟨k, p, hk, hpowns, hnot, hne, hin⟩ := h
    obtain ⟨q, hq, hstep⟩ := Option.bind_eq_some_iff.mp ht
    obtain ⟨-, hqo⟩ := held_eq_some hq
    split at hstep
    · rename_i hbound
      intro b hb
      cases hqo.symm.trans hb
      have hki : i ≠ k := by
        rintro rfl
        rcases hwhere with hK | ⟨rfl, -⟩
        · exact hnot hK
        · exact hne rfl
      obtain ⟨hin1, hin2⟩ := hin q hqo
      rcases hinv.apart i o k p hi hk howns hpowns hki with hapart | hapart
      · exact .inr (by simp only; omega)
      · exact .inl (by simp only; omega)
    · cases hstep
  | writePointer buf offset ptr =>
    intro b hb
    obtain ⟨⟨q, hq, hqowns, hbound⟩, -⟩ := hok
    obtain rfl : q = b := Option.some.inj (hq.symm.trans hb)
    by_cases hbuf : i = buf
    · subst hbuf
      cases hi.symm.trans hb
      rcases hwhere with hK | ⟨hargs, hbelow⟩
      · exact absurd hK h.1
      · have := h.2 hargs
        exact .inr (by simp only; omega)
    · rcases hinv.apart i o buf q hi hq howns hqowns hbuf with hapart | hapart
      · exact .inr (by simp only; omega)
      · exact .inl (by simp only; omega)
  | _ => trivial

/-- What a kept buffer holds, it holds after a step elsewhere. -/
theorem holds_step (hinv : Inv s) (hok : Allowed s a) (ht : s.step e a = some t)
    (helse : Elsewhere K argsList fence s a) (hK : K i) (hkept : s.graph.Kept i)
    (h : Holds s i b data) :
    Holds t i b data := by
  obtain ⟨⟨o, ho, rfl, howns⟩, hbytes, hfits⟩ := h
  obtain ⟨o', ho', hbuffer, howns', -⟩ := step_stays hinv hok ht i o hkept ho
  have hspares : Spares s ⟨o.buffer.address + 0, data.length⟩ a :=
    helse.spares hinv hok ht ho howns ⟨Nat.le_refl _, by simp only; omega⟩ (.inl hK)
  have hsame := bytes_spared ht hspares
  exact ⟨⟨o', ho', hbuffer, howns'.trans howns⟩, hsame.trans hbytes, hfits⟩

/-- So does a pointer stay. -/
theorem points_step_elsewhere (hinv : Inv s) (hok : Allowed s a) (ht : s.step e a = some t)
    (helse : Elsewhere K argsList fence s a) (hfits : offset + POINTER_SIZE ≤ b.length)
    (hwhere : K i ∨ i = argsList ∧ offset + POINTER_SIZE ≤ fence) (hkept : s.graph.Kept i)
    (h : Points e s i b offset j c) : Points e t i b offset j c := by
  have hpoints := h
  obtain ⟨⟨o, ho, rfl, howns, -⟩, -, -⟩ := h
  refine points_step hinv hok ht
    (helse.spares hinv hok ht ho howns ⟨Nat.le_add_right _ _, ?_⟩ ?_) hkept hpoints
  · simp only
    omega
  · exact hwhere.imp id fun hargs => ⟨hargs.1, by simp only; omega⟩

/-- What a type wrote stays. -/
theorem written_step (hinv : Inv s) (hok : Allowed s a) (ht : s.step e a = some t)
    (helse : Elsewhere K argsList fence s a) (hK : ∀ k, next ≤ k → k < next + arg.count → K k)
    (hkept : s.graph.Kept next) (h : Written e s next arg) : Written e t next arg := by
  match arg with
  | .value address data =>
    exact holds_step hinv hok ht helse (hK next (Nat.le_refl _) (Nat.lt_succ_self _)) hkept h
  | .pointer address none =>
    exact holds_step hinv hok ht helse (hK next (Nat.le_refl _) (Nat.lt_succ_self _)) hkept h
  | .pointer address (some ptr) =>
    obtain ⟨d, hd⟩ := h
    exact ⟨d, points_step_elsewhere hinv hok ht helse (Nat.le_refl _)
      (.inl (hK next (Nat.le_refl _) (Nat.lt_succ_self _))) hkept hd⟩
  | .string address text data =>
    obtain ⟨hptr, htext⟩ := h
    have hkepttext : s.graph.Kept (next + 1) := by
      obtain ⟨q, hq, -, -, hmem⟩ := hptr.source
      exact Kept.holds hkept ⟨q, hq, hmem⟩
    exact ⟨points_step_elsewhere hinv hok ht helse (Nat.le_refl _)
        (.inl (hK next (Nat.le_refl _) (Nat.lt_add_of_pos_right Nat.two_pos))) hkept hptr,
      holds_step hinv hok ht helse (hK (next + 1) (Nat.le_succ _)
        (Nat.lt_succ_self _)) hkepttext htext⟩

/-- **An argument stays ready** after a step elsewhere. -/
theorem ready_step (hinv : Inv s) (hok : Allowed s a) (ht : s.step e a = some t)
    (helse : Elsewhere K argsList fence s a) (hfence : i * POINTER_SIZE + POINTER_SIZE ≤ fence)
    (hK : ∀ k, next ≤ k → k < next + arg.count → K k) (hkept : s.graph.Kept argsList)
    (h : Ready e s argsList b i next arg) : Ready e t argsList b i next arg := by
  have hkeptnext : s.graph.Kept next := by
    obtain ⟨q, hq, -, -, hnext⟩ := h.slot.source
    exact Kept.holds hkept ⟨q, hq, hnext⟩
  exact
    { slot := points_step_elsewhere hinv hok ht helse h.fits (.inr ⟨rfl, hfence⟩) hkept h.slot
      written := written_step hinv hok ht helse hK hkeptnext h.written
      fits := h.fits }

/-- **It stays ready in any run** whose steps write elsewhere, while `argsList` is kept. -/
theorem ready_survives (hinv : Inv s) (hlater : Reaches (State.step e)
      (fun u a => Allowed u a ∧ Elsewhere K argsList fence u a) s t)
    (hfence : i * POINTER_SIZE + POINTER_SIZE ≤ fence)
    (hK : ∀ k, next ≤ k → k < next + arg.count → K k)
    (hkept : t.graph.Kept argsList) (h : Ready e s argsList b i next arg) :
    Ready e t argsList b i next arg := by
  obtain ⟨o, ho, -⟩ := h.slot.source
  exact (kept_invariant hinv ho (fun _ _ hok => hok.1) h (fun u a u' hu hok htaken hk hready =>
    ready_step hu hok.1 htaken hok.2 hfence hK hk hready) hlater hkept).2

/-! ## Setting the arguments -/

/-- `new Buffer` -/
theorem alloc_step {address size : Nat} (ht : s.step e (.alloc address size) = some t) :
    t.next = s.next + 1 ∧ t.vars = s.next :: s.vars ∧
      t.objects s.next = some ⟨⟨address, size⟩, true, []⟩ ∧ ∀ i, i ≠ s.next →
        t.objects i = s.objects i := by
  cases ht
  exact ⟨rfl, rfl, Function.update_self .., fun i hi => Function.update_of_ne hi _ _⟩

/-- What a type writes into a new buffer. -/
theorem write_step (hi : s.objects i = some o) (howns : o.owns = true)
    (ht : s.step e (.write i 0 data) = some t) :
    t.next = s.next ∧ t.vars = s.vars ∧ t.objects = s.objects ∧ Holds t i o.buffer data := by
  obtain ⟨q, hq, hstep⟩ := Option.bind_eq_some_iff.mp ht
  obtain ⟨-, hqo⟩ := held_eq_some hq
  obtain rfl : q = o := Option.some.inj (hqo.symm.trans hi)
  split at hstep
  · rename_i hfits
    cases hstep
    refine ⟨rfl, rfl, rfl, ⟨q, hi, rfl, howns⟩, ?_, by omega⟩
    exact bytes_store s.memory (q.buffer.address + 0) data
  · cases hstep

/-- `writePointer` with a buffer. -/
theorem pointer_step (hi : s.objects i = some o) (howns : o.owns = true)
    (ht : s.step e (.writePointer i offset (some j)) = some t) :
    t.next = s.next ∧ t.vars = s.vars ∧ t.objects i = some { o with refs := o.refs ++ [j] } ∧
      (∀ k, k ≠ i → t.objects k = s.objects k) ∧
      ∃ p, s.objects j = some p ∧ Points e t i o.buffer offset j p.buffer := by
  obtain ⟨q, hq, hrest⟩ := Option.bind_eq_some_iff.mp ht
  obtain ⟨p, hp, hstep⟩ := Option.bind_eq_some_iff.mp hrest
  obtain ⟨-, hqo⟩ := held_eq_some hq
  obtain ⟨-, hpo⟩ := held_eq_some hp
  obtain rfl : q = o := Option.some.inj (hqo.symm.trans hi)
  cases hstep
  have hothers : ∀ k, k ≠ i → Function.update s.objects i
    (some { q with refs := q.refs ++ [j] }) k = s.objects k :=
    fun k hk => Function.update_of_ne hk _ _
  refine ⟨rfl, rfl, Function.update_self .., hothers, p, hpo, ?_⟩
  have hbytes := bytes_store s.memory (q.buffer.address + offset)
    (e.encode POINTER_SIZE p.buffer.address)
  rw [Endianness.length_encode] at hbytes
  have htarget : ∃ r, Function.update s.objects i (some { q with refs := q.refs ++ [j] }) j =
    some r ∧
      r.buffer = p.buffer := by
    by_cases hne : j = i
    · subst hne
      cases hpo.symm.trans hi
      exact ⟨_, Function.update_self .., rfl⟩
    · exact ⟨p, (hothers j hne).trans hpo, rfl⟩
  exact
    { source := ⟨_, Function.update_self .., rfl, howns,
      List.mem_append_right _ (List.mem_singleton_self j)⟩
      target := htarget
      address := hbytes }

/-- `writePointer` with null. -/
theorem null_step (hi : s.objects i = some o) (howns : o.owns = true)
    (hfits : POINTER_SIZE ≤ o.buffer.length)
    (ht : s.step e (.writePointer i 0 none) = some t) :
    t.next = s.next ∧ t.vars = s.vars ∧ t.objects = s.objects ∧
      Holds t i o.buffer (e.encode POINTER_SIZE 0) := by
  obtain ⟨q, hq, hstep⟩ := Option.bind_eq_some_iff.mp ht
  obtain ⟨-, hqo⟩ := held_eq_some hq
  obtain rfl : q = o := Option.some.inj (hqo.symm.trans hi)
  cases hstep
  refine ⟨rfl, rfl, rfl, ⟨q, hi, rfl, howns⟩, ?_, by rwa [Endianness.length_encode]⟩
  exact bytes_store s.memory (q.buffer.address + 0) (e.encode POINTER_SIZE 0)

/-- The buffers that were there before the arguments, without `argsList`. -/
def Before (s : State) (argsList k : Nat) : Prop := k < s.next ∧ k ≠ argsList

/-- How far a call has come: `argsList` is where it was, and nothing was written elsewhere. -/
structure Progress (e : Endianness) (s : State) (argsList : Nat) (b : Buffer)
    (fence : Nat) (t : State) :
    Prop where
  inv : Inv t
  next : s.next ≤ t.next
  vars : s.vars ⊆ t.vars
  list : ∃ o, t.objects argsList = some o ∧ o.buffer = b ∧ o.owns = true
  elsewhere : Reaches (State.step e)
    (fun u a => Allowed u a ∧ Elsewhere (Before s argsList) argsList fence u a) s t

theorem Progress.step (h : Progress e s argsList b fence u) (hheld : argsList ∈ s.vars)
    (hok : Allowed u a)
    (helse : Elsewhere (Before s argsList) argsList fence u a) (ht : u.step e a = some t)
    (hnext : u.next ≤ t.next) (hvars : u.vars ⊆ t.vars) : Progress e s argsList b fence t := by
  obtain ⟨o, ho, hbuffer, howns⟩ := h.list
  obtain ⟨o', ho', hbuffer', howns', -⟩ :=
    step_stays h.inv hok ht argsList o (Kept.root (h.vars hheld)) ho
  exact
    { inv := inv_step h.inv hok ht
      next := h.next.trans hnext
      vars := List.Subset.trans h.vars hvars
      list := ⟨o', ho', hbuffer'.trans hbuffer, howns'.trans howns⟩
      elsewhere := h.elsewhere.next ⟨hok, helse⟩ ht }

/-- A new buffer is elsewhere. -/
theorem elsewhere_write (hlt : argsList < s.next) (hk : s.next ≤ k) (hobject : u.objects k = some p)
    (howns : p.owns = true) : Elsewhere (Before s argsList) argsList fence u (.write k 0 data) :=
  ⟨k, p, hobject, howns, fun h => absurd h.1 (by omega), by omega, fun b hb => by
    cases hobject.symm.trans hb
    exact .refl _⟩

theorem elsewhere_pointer (hlt : argsList < s.next) (hk : s.next ≤ k) (ptr : Option Nat) :
    Elsewhere (Before s argsList) argsList fence u (.writePointer k offset ptr) :=
  ⟨fun h => absurd h.1 (by omega), fun h => absurd h (by omega)⟩

/-- The buffer of an argument, made. -/
theorem alloc_written (hlt : argsList < s.next) (hheld : argsList ∈ s.vars)
    (hprogress : Progress e s argsList b fence s)
    (hrun : run (State.step e) s (arg.alloc s.next) = some t)
    (hmeets : Meets (State.step e) Allowed s (arg.alloc s.next)) :
    Progress e s argsList b fence t ∧ t.next = s.next + arg.count ∧ s.next ∈ t.vars ∧
      (∃ q, t.objects s.next = some q ∧ q.buffer = ⟨arg.address, arg.size⟩) ∧
        Written e t s.next arg := by
  match arg with
  | .value address data =>
    obtain ⟨u, hu, hrest⟩ := Option.bind_eq_some_iff.mp hrun
    obtain ⟨v, hv, hend⟩ := Option.bind_eq_some_iff.mp hrest
    cases hend
    obtain ⟨hok, hok', -⟩ : Allowed s (.alloc address data.length) ∧
      Allowed u (.write s.next 0 data) ∧ True := by
      simpa only [Arg.alloc, Meets, hu, hv] using hmeets
    obtain ⟨hnext, hvars, hnew, -⟩ := alloc_step hu
    obtain ⟨hnext', hvars', hobjects, hholds⟩ := write_step hnew rfl hv
    have hprogress' := (hprogress.step hheld hok trivial hu (by omega)
      (by simp [hvars])).step hheld hok'
      (elsewhere_write hlt (Nat.le_refl _) hnew rfl) hv (by omega) (by simp [hvars'])
    exact ⟨hprogress', hnext'.trans hnext, by simp [hvars', hvars], ⟨_, hobjects ▸ hnew, rfl⟩,
      hholds⟩
  | .pointer address ptr =>
    obtain ⟨u, hu, hrest⟩ := Option.bind_eq_some_iff.mp hrun
    obtain ⟨v, hv, hend⟩ := Option.bind_eq_some_iff.mp hrest
    cases hend
    obtain ⟨hok, hok', -⟩ : Allowed s (.alloc address POINTER_SIZE) ∧
      Allowed u (.writePointer s.next 0 ptr) ∧
        True := by
      simpa only [Arg.alloc, Meets, hu, hv] using hmeets
    obtain ⟨hnext, hvars, hnew, -⟩ := alloc_step hu
    have hprogress' := hprogress.step hheld hok trivial hu (by omega) (by simp [hvars])
    have helse : Elsewhere (Before s argsList) argsList fence u (.writePointer s.next 0 ptr) :=
      elsewhere_pointer hlt (Nat.le_refl _) ptr
    cases ptr with
    | none =>
      obtain ⟨hnext', hvars', hobjects, hholds⟩ := null_step hnew rfl (Nat.le_refl _) hv
      exact ⟨hprogress'.step hheld hok' helse hv (by omega) (by simp [hvars']), hnext'.trans hnext,
        by simp [hvars', hvars], ⟨_, hobjects ▸ hnew, rfl⟩, hholds⟩
    | some ptr =>
      obtain ⟨hnext', hvars', hobject, -, p, -, hpoints⟩ := pointer_step hnew rfl hv
      exact ⟨hprogress'.step hheld hok' helse hv (by omega) (by simp [hvars']), hnext'.trans hnext,
        by simp [hvars', hvars], ⟨_, hobject, rfl⟩, p.buffer, hpoints⟩
  | .string address text data =>
    obtain ⟨u, hu, hrest⟩ := Option.bind_eq_some_iff.mp hrun
    obtain ⟨v, hv, hrest⟩ := Option.bind_eq_some_iff.mp hrest
    obtain ⟨w, hw, hrest⟩ := Option.bind_eq_some_iff.mp hrest
    obtain ⟨x, hx, hend⟩ := Option.bind_eq_some_iff.mp hrest
    cases hend
    obtain ⟨hok, hok', hok'', hokPointer, -⟩ : Allowed s (.alloc address POINTER_SIZE) ∧
        Allowed u (.alloc text data.length) ∧ Allowed v (.write (s.next + 1) 0 data) ∧
        Allowed w (.writePointer s.next 0 (some (s.next + 1))) ∧ True := by
      simpa only [Arg.alloc, Meets, hu, hv, hw, hx] using hmeets
    obtain ⟨hnext, hvars, hnew, -⟩ := alloc_step hu
    obtain ⟨hnext', hvars', hnew', hothers⟩ := alloc_step hv
    rw [hnext] at hnew' hothers
    have hpointer : v.objects s.next = _ := (hothers s.next (by omega)).trans hnew
    obtain ⟨hnext'', hvars'', hobjects, hholds⟩ := write_step hnew' rfl hw
    rw [← hobjects] at hpointer
    obtain ⟨hnextPointer, hvarsPointer, hobject, -, p, hp, hpoints⟩ := pointer_step hpointer rfl hx
    rw [hobjects, hnew'] at hp
    cases hp
    have hprogress' := ((hprogress.step hheld hok trivial hu (by omega)
      (by simp [hvars])).step hheld hok' trivial
      hv (by omega) (by simp [hvars'])).step hheld hok''
        (elsewhere_write hlt (Nat.le_succ _) hnew' rfl) hw
      (by omega) (by simp [hvars''])
    -- the text stays, as the pointer goes into another buffer
    have helse : Elsewhere (· = s.next + 1) argsList 0 w
      (.writePointer s.next 0 (some (s.next + 1))) :=
      ⟨by omega, fun h => absurd h (by omega)⟩
    have htextheld : s.next + 1 ∈ w.vars := by simp [hvars'', hvars', hnext]
    have htext : Holds t (s.next + 1) ⟨text, data.length⟩ data :=
      holds_step hprogress'.inv hokPointer hx helse rfl (Kept.root htextheld) hholds
    have hdone := hprogress'.step hheld hokPointer (elsewhere_pointer hlt (Nat.le_refl _) _) hx
      (by omega) (by simp [hvarsPointer])
    exact ⟨hdone, by simp only [Arg.count]; omega, by simp [hvarsPointer, hvars'', hvars', hvars],
      ⟨_, hobject, rfl⟩, hpoints, htext⟩

/-- What a call has done so far, and does next. -/
theorem Progress.trans {fence' : Nat} (h : Progress e s argsList b fence u)
    (h' : Progress e u argsList b fence' t) (hfence : fence ≤ fence') :
    Progress e s argsList b fence t where
  inv := h'.inv
  next := h.next.trans h'.next
  vars := List.Subset.trans h.vars h'.vars
  list := h'.list
  elsewhere := h.elsewhere.trans (h'.elsewhere.weaken fun _ _ hok =>
    ⟨hok.1, hok.2.weaken (fun _ hk => ⟨hk.1.trans_le h.next, hk.2⟩) hfence⟩)

/-- An argument, made and put into its slot. -/
theorem set_ready (hlt : argsList < s.next) (hheld : argsList ∈ s.vars)
    (hprogress : Progress e s argsList b (i * POINTER_SIZE) s)
    (hrun : run (State.step e) s (arg.alloc s.next) = some u)
    (hmeets : Meets (State.step e) Allowed s (arg.alloc s.next))
    (hslot : u.step e (.writePointer argsList (i * POINTER_SIZE) (some s.next)) = some t)
    (hok : Allowed u (.writePointer argsList (i * POINTER_SIZE) (some s.next))) :
    Progress e s argsList b (i * POINTER_SIZE) t ∧ t.next = s.next + arg.count ∧
      Ready e t argsList b i s.next arg := by
  obtain ⟨hprogress', hnext, hnew, ⟨q, hq, hbuffer⟩, hwritten⟩ :=
    alloc_written hlt hheld hprogress hrun hmeets
  obtain ⟨o, ho, rfl, howns⟩ := hprogress'.list
  obtain ⟨hnext', hvars', -, -, p, hp, hpoints⟩ := pointer_step ho howns hslot
  cases hq.symm.trans hp
  rw [hbuffer] at hpoints
  have hfits : i * POINTER_SIZE + POINTER_SIZE ≤ o.buffer.length := by
    obtain ⟨⟨o', ho', -, hfits⟩, -⟩ := hok
    cases ho.symm.trans ho'
    exact hfits
  have helse : Elsewhere (Before s argsList) argsList (i * POINTER_SIZE) u
      (.writePointer argsList (i * POINTER_SIZE) (some s.next)) :=
        ⟨fun h => h.2 rfl, fun _ => Nat.le_refl _⟩
  have hbehind : Elsewhere (s.next ≤ ·) argsList 0 u
      (.writePointer argsList (i * POINTER_SIZE) (some s.next)) :=
        ⟨by omega, fun _ => Nat.zero_le _⟩
  refine ⟨hprogress'.step hheld hok helse hslot (by omega) (by simp [hvars']),
    hnext'.trans hnext, ?_⟩
  exact
    { slot := hpoints
      written := written_step hprogress'.inv hok hslot hbehind (fun _ hk _ => hk)
        (Kept.root hnew) hwritten
      fits := hfits }

/-- The arguments stand in their slots, from the `i`th on. -/
def AllReady (e : Endianness) (s : State) (argsList : Nat) (b : Buffer) : Nat → Nat →
    List Arg → Prop
  | _, _, [] => True
  | i, next, arg :: rest =>
    Ready e s argsList b i next arg ∧ AllReady e s argsList b (i + 1) (next + arg.count) rest

/-- **The loop makes every argument ready.** -/
theorem arguments_ready (hinv : Inv s) (hlt : argsList < s.next) (hheld : argsList ∈ s.vars)
    (hlist : ∃ o, s.objects argsList = some o ∧ o.buffer = b ∧ o.owns = true)
    (hrun : run (State.step e) s (setArguments argsList s.next i args) = some t)
    (hmeets : Meets (State.step e) Allowed s (setArguments argsList s.next i args)) :
    Progress e s argsList b (i * POINTER_SIZE) t ∧ AllReady e t argsList b i s.next args ∧
      t.next = s.next + (args.map Arg.count).sum := by
  induction args generalizing s i with
  | nil =>
    cases hrun
    exact ⟨⟨hinv, Nat.le_refl _, List.Subset.refl _, hlist, .start⟩, trivial, rfl⟩
  | cons arg rest ih =>
    rw [setArguments, run_append] at hrun
    obtain ⟨u, hu, hrest⟩ := Option.bind_eq_some_iff.mp hrun
    obtain ⟨v, hv, hrest⟩ := Option.bind_eq_some_iff.mp hrest
    rw [setArguments, meets_append hu] at hmeets
    obtain ⟨halloc, hmeets⟩ := hmeets
    obtain ⟨hok, hmeets⟩ : Allowed u (.writePointer argsList (i * POINTER_SIZE) (some s.next)) ∧
        Meets (State.step e) Allowed v (setArguments argsList (s.next + arg.count)
          (i + 1) rest) := by
      simpa only [Meets, hv] using hmeets
    obtain ⟨hprogress, hnext, hready⟩ := set_ready hlt hheld
      ⟨hinv, Nat.le_refl _, List.Subset.refl _, hlist, .start⟩ hu halloc hv hok
    rw [← hnext] at hrest hmeets
    obtain ⟨hprogress', hall, hnext'⟩ :=
      ih hprogress.inv (by omega) (hprogress.vars hheld) hprogress.list
      hrest hmeets
    have hlater := ready_survives hprogress.inv hprogress'.elsewhere (by rw [Nat.succ_mul])
      (fun k hk hk' => ⟨by omega, by omega⟩)
        (Kept.root (hprogress'.vars (hprogress.vars hheld))) hready
    refine ⟨hprogress.trans hprogress' (Nat.mul_le_mul_right _ (Nat.le_succ i)), ⟨hlater, ?_⟩, ?_⟩
    · rwa [hnext] at hall
    · rw [hnext', hnext, List.map_cons, List.sum_cons]
      omega

/-! ## What the native side finds -/

/-- What stands in a slot, and where it leads. -/
def Found (e : Endianness) (s : State) (slot : Nat) : Arg → Prop
  | .value _ data => bytes s.memory (e.decode (bytes s.memory slot POINTER_SIZE)) data.length = data
  | .pointer _ none => follow e s.memory 2 slot = 0
  | .pointer _ (some ptr) => ∃ p, s.objects ptr = some p ∧ Backed s p.buffer ∧
      follow e s.memory 2 slot = p.buffer.address
  | .string _ _ data => bytes s.memory (follow e s.memory 2 slot) data.length = data

/-- An address that was written is read. -/
theorem decode_address (hinv : Inv s) (hbacked : Backed s c) {address : Nat}
    (h : bytes s.memory address POINTER_SIZE = e.encode POINTER_SIZE c.address) :
    e.decode (bytes s.memory address POINTER_SIZE) = c.address := by
  obtain ⟨k, p, -, hk, howns, hin1, hin2⟩ := hbacked
  have := (hinv.fits k p hk howns).2
  rw [h, Endianness.decode_encode e POINTER_SIZE (by omega)]

/-- The buffer of an argument owns its memory. -/
theorem Written.owns (h : Written e s next arg) : ∃ o, s.objects next = some o ∧ o.owns = true := by
  match arg with
  | .value _ _ =>
    obtain ⟨⟨o, ho, -, howns⟩, -⟩ := h
    exact ⟨o, ho, howns⟩
  | .pointer _ none =>
    obtain ⟨⟨o, ho, -, howns⟩, -⟩ := h
    exact ⟨o, ho, howns⟩
  | .pointer _ (some _) =>
    obtain ⟨-, ⟨o, ho, -, howns, -⟩, -⟩ := h
    exact ⟨o, ho, howns⟩
  | .string _ _ _ =>
    obtain ⟨⟨⟨o, ho, -, howns, -⟩, -⟩, -⟩ := h
    exact ⟨o, ho, howns⟩

/-- Where a pointer leads that a kept buffer has at its beginning. -/
theorem decode_points (hinv : Inv s) (hkept : s.graph.Kept i) (h : Points e s i b offset j c) :
    ∃ p, s.objects j = some p ∧ p.buffer = c ∧ Backed s c ∧
      e.decode (bytes s.memory (b.address + offset) POINTER_SIZE) = c.address := by
  obtain ⟨⟨o, ho, -, howns, hmem⟩, ⟨p, hp, rfl⟩, haddress⟩ := h
  obtain ⟨q, hq, hbacked⟩ := hinv.backed hkept ho howns hmem
  cases hp.symm.trans hq
  exact ⟨p, hp, rfl, hbacked, decode_address hinv hbacked haddress⟩

/-- **What is ready is found.** -/
theorem Ready.found (hinv : Inv s) (hkept : s.graph.Kept argsList)
    (h : Ready e s argsList b i next arg) :
    Found e s (b.address + i * POINTER_SIZE) arg := by
  obtain ⟨-, -, -, -, hslot⟩ := decode_points hinv hkept h.slot
  have hkeptnext : s.graph.Kept next := by
    obtain ⟨o, ho, -, -, hmem⟩ := h.slot.source
    exact Kept.holds hkept ⟨o, ho, hmem⟩
  have hfollow : follow e s.memory 2 (b.address + i * POINTER_SIZE) =
      e.decode (bytes s.memory arg.address POINTER_SIZE) := by
    rw [follow, follow, follow, hslot]
  have hwritten := h.written
  clear h
  cases arg with
  | value address data =>
    rw [Found, show e.decode (bytes s.memory (b.address + i * POINTER_SIZE) POINTER_SIZE) =
      address from hslot]
    exact hwritten.bytes
  | pointer address ptr =>
    cases ptr with
    | none =>
      have hnull : bytes s.memory address (e.encode POINTER_SIZE 0).length =
        e.encode POINTER_SIZE 0 :=
        hwritten.bytes
      rw [Endianness.length_encode] at hnull
      rw [Found, hfollow, show (Arg.pointer address none).address = address from rfl, hnull,
        Endianness.decode_encode e POINTER_SIZE (Nat.pow_pos (by decide))]
    | some ptr =>
      obtain ⟨c, hpoints⟩ := hwritten
      obtain ⟨p, hp, rfl, hbacked, hread⟩ := decode_points hinv hkeptnext hpoints
      exact ⟨p, hp, hbacked, hfollow.trans hread⟩
  | string address text data =>
    obtain ⟨hpoints, hholds⟩ := hwritten
    obtain ⟨-, -, -, -, hread⟩ := decode_points hinv hkeptnext hpoints
    rw [Found, show follow e s.memory 2 (b.address + i * POINTER_SIZE) =
      text from hfollow.trans hread]
    exact hholds.bytes

/-- Each argument is ready in its slot. -/
theorem AllReady.get (h : AllReady e s argsList b i next args) (hj : args[j]? = some arg) :
    ∃ next', next ≤ next' ∧ next' + arg.count ≤ next + (args.map Arg.count).sum ∧
      Ready e s argsList b (i + j) next' arg := by
  induction args generalizing i next j with
  | nil => cases hj
  | cons first rest ih =>
    rw [List.map_cons, List.sum_cons]
    cases j with
    | zero =>
      cases hj
      exact ⟨next, Nat.le_refl _, by omega, h.1⟩
    | succ j =>
      obtain ⟨next', hle, hle', hready⟩ := ih h.2 hj
      refine ⟨next', by omega, by omega, ?_⟩
      rwa [show i + (j + 1) = i + 1 + j by omega]

/-- **A call finds every argument as it was given**: whatever the program does after the arguments
were set, collections included, while it holds `argsList` and writes through other buffers than
those of the call. -/
theorem arguments_survive {memory : Memory}
    (hreach : Reaches (State.step e) Allowed (.start memory) s)
    {resultAddress resultSize argsAddress : Nat} {s₁ : State}
    (hcall : run (State.step e) s (call s.next resultAddress resultSize argsAddress args) = some s₁)
    (hallowed : Meets (State.step e) Allowed s
      (call s.next resultAddress resultSize argsAddress args))
    (hlater : Reaches (State.step e) (fun u a => Allowed u a ∧
      Elsewhere (fun k => s.next ≤ k ∧ k < s₁.next) (s.next + 1)
        (args.length * POINTER_SIZE) u a) s₁ t)
    (hheld : s.next + 1 ∈ t.vars) (hj : args[j]? = some arg) :
    Found e t (argsAddress + j * POINTER_SIZE) arg := by
  obtain ⟨u, hu, hrest⟩ := Option.bind_eq_some_iff.mp hcall
  obtain ⟨v, hv, hrest⟩ := Option.bind_eq_some_iff.mp hrest
  obtain ⟨hok, hok', hmeets⟩ : Allowed s (.alloc resultAddress resultSize) ∧
      Allowed u (.alloc argsAddress (args.length * POINTER_SIZE)) ∧
      Meets (State.step e) Allowed v (setArguments (s.next + 1) (s.next + 2) 0 args) := by
    simpa only [call, Meets, hu, hv] using hallowed
  obtain ⟨hnext, -, -, -⟩ := alloc_step hu
  obtain ⟨hnext', hvars', hnew, -⟩ := alloc_step hv
  rw [hnext] at hnext' hvars' hnew
  have hinv : Inv v := inv_step (inv_step (inv_reaches hreach) hok hu) hok' hv
  rw [show s.next + 2 = v.next by omega] at hrest hmeets
  obtain ⟨hprogress, hall, hend⟩ := arguments_ready hinv (by omega) (by simp [hvars'])
    ⟨_, hnew, rfl, rfl⟩ hrest hmeets
  obtain ⟨next, hle, hle', hready⟩ := hall.get hj
  rw [Nat.zero_add] at hready
  have hfence : j * POINTER_SIZE + POINTER_SIZE ≤ args.length * POINTER_SIZE := hready.fits
  have hready' := ready_survives hprogress.inv hlater hfence (fun k hk hk' => ⟨by omega, by omega⟩)
    (Kept.root hheld) hready
  have hinvt : Inv t := by
    refine hlater.invariant Inv hprogress.inv fun _ _ _ hinv hok htaken =>
      inv_step hinv hok.1 htaken
  have hfound := hready'.found hinvt (Kept.root hheld)
  dsimp only at hfound
  exact hfound

/-- A number, an int, and a string. -/
def threeArgs : List Arg :=
  [.value 5000 [1, 2, 3, 4], .pointer 5100 (some 0), .string 5200 5300 [104, 105, 0]]

/-- The variables of the int and of the arguments go: the string is found behind two pointers. -/
theorem arguments_survive_three :
    ∃ s₁ t, run (State.step .LE) intState (call 1 4000 8 4100 threeArgs) = some s₁ ∧
      run (State.step .LE) s₁ [.forget 0, .forget 3, .forget 4, .forget 5, .forget 6] = some t ∧
      Found .LE t (4100 + 2 * POINTER_SIZE) (.string 5200 5300 [104, 105, 0]) := by
  have hallowed : Meets (State.step .LE) Allowed intState
    (call intState.next 4000 8 4100 threeArgs) :=
    meets_of_checkAll (inv_reaches intState_reached) (by decide +kernel)
  refine ⟨_, _, rfl, rfl, ?_⟩
  refine arguments_survive (j := 2) intState_reached rfl hallowed
    (reaches_of_run [.forget 0, .forget 3, .forget 4, .forget 5, .forget 6] rfl ?_) (by decide) rfl
  exact ⟨⟨trivial, trivial⟩, ⟨trivial, trivial⟩, ⟨trivial, trivial⟩, ⟨trivial, trivial⟩,
    ⟨trivial, trivial⟩, trivial⟩

end ForeignCall

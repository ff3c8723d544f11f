import Tint.ChunkedReader

/-!
# The chunk stream of the PNG codec

`ChunkStream` of the build tool: a writable stream whose reads are requests with a
callback.  `_process` serves the requests in order from the buffers that were
written; a callback may ask for more, and then `_process` runs inside itself.
`end` puts a mark behind the buffers and `_end` closes the stream when the mark
comes to the front.

* `Subclass` -- what the parser and the filter add to the stream: their callbacks
  and what they do on an error;
* `Subclass.reader` -- the same as a reader of a stream in pieces, which waits for
  one thing at a time;
* `process_spec` -- whatever is in the buffers, `_process` only delivers, delivers all
  that it can, and needs no more turns than there are bytes and reads of nothing;
* `writeAll_spec` -- so what is written in pieces does what the whole does.
-/

namespace Png

open ChunkedReader

/-- Bytes in a row. -/
abbrev Bytes := List UInt8

variable {σ κ : Type}

/-- An entry of `_reads`. -/
structure Read (κ : Type) where
  length : Nat
  /-- Then at most this length. -/
  allowLess : Bool
  func : κ
  deriving DecidableEq, Repr

/-- The request `read(length, callback)` puts into `_reads`. -/
def Read.request (length : Int) (func : κ) : Read κ := ⟨length.natAbs, decide (length < 0), func⟩

/-- The last thing a callback does.  No callback does any of these twice, or anything
after it. -/
inductive Last (κ : Type)
  | nothing
  | read (length : Int) (func : κ)
  | destroySoon
  | emitError (message : String)
  | throw (message : String)
  deriving DecidableEq, Repr

/-- What the stream itself emits. -/
inductive Event
  | drain
  | error (message : String)
  | close
  deriving DecidableEq, Repr

/-- What a subclass adds: its callbacks, over its own fields `σ`, and, if its constructor adds a
listener for errors that destroys the stream, what that may throw then. -/
structure Subclass (σ κ : Type) where
  call : κ → Bytes → σ → σ × Last κ
  handleError : Option (σ → Option String)

/-- A stream.  `none` among the buffers is the mark of the end, and `none` for the
buffers or the reads is what `destroy` leaves. -/
structure ChunkStream (σ κ : Type) where
  owner : σ
  buffers : Option (List (Option Bytes))
  buffered : Nat
  reads : Option (List (Read κ))
  paused : Bool
  writable : Bool
  emitted : List Event
  deriving DecidableEq

/-- Why a call does not return. -/
inductive Stop
  | thrown (message : String)
  | outOfFuel
  deriving DecidableEq, Repr

/-- What a call leaves, or why it did not come back. -/
abbrev Outcome := Except Stop

namespace ChunkStream

/-- `ChunkStream()` -/
def create (owner : σ) : ChunkStream σ κ := ⟨owner, some [], 0, some [], false, true, []⟩

/-- `this.emit(event)` -/
def emit (s : ChunkStream σ κ) (e : Event) : ChunkStream σ κ :=
  { s with emitted := s.emitted ++ [e] }

/-- `destroy` -/
def destroy (s : ChunkStream σ κ) : ChunkStream σ κ :=
  match s.buffers with
  | none => s
  | some _ => { s with writable := false, reads := none, buffers := none }.emit .close

/-- `emit('error', new Error(message))`, with the listener of the subclass. -/
def emitError (sub : Subclass σ κ) (message : String) (s : ChunkStream σ κ) :
    Outcome (ChunkStream σ κ) :=
  match sub.handleError.map fun handle => handle s.owner with
  | none => .ok (s.emit (.error message))
  | some none => .ok { s.emit (.error message) with writable := false }.destroy
  | some (some exception) => .error (.thrown exception)

/-- `_end` -/
def finish (sub : Subclass σ κ) (s : ChunkStream σ κ) : Outcome (ChunkStream σ κ) :=
  match s.reads with
  | some (_ :: _) => do
    let s ← s.emitError sub "There are some read requests waitng on finished stream"
    .ok s.destroy
  | _ => .ok s.destroy

/-- The first `n` bytes of the buffers, and what is left of them. -/
def copyFrom : List (Option Bytes) → Nat → Option (Bytes × List (Option Bytes))
  | buffers, 0 => some ([], buffers)
  | some buf :: rest, n + 1 =>
    if buf.length ≤ n + 1 then
      (copyFrom rest (n + 1 - buf.length)).map fun r => (buf ++ r.1, r.2)
    else some (buf.take (n + 1), some (buf.drop (n + 1)) :: rest)
  | _, _ => none

/-- One turn of the loop of `_process` up to the callback: the callback, its data, and the
stream it finds. -/
def turn (s : ChunkStream σ κ) : Outcome (Option (κ × Bytes × ChunkStream σ κ)) :=
  match s.reads, s.buffers with
  | some (read :: reads), some buffers =>
    if 0 < s.buffered then
      if read.allowLess then
        match buffers with
        | some buf :: rest =>
          if read.length < buf.length then
            .ok (some (read.func, buf.take read.length,
              { s with
                reads := some reads
                buffered := s.buffered - read.length
                buffers := some (some (buf.drop read.length) :: rest) }))
          else
            .ok (some (read.func, buf,
              { s with
                reads := some reads
                buffered := s.buffered - buf.length
                buffers := some rest }))
        | _ => .error (.thrown "TypeError")
      else if read.length ≤ s.buffered then
        match copyFrom buffers read.length with
        | some (data, rest) =>
          .ok (some (read.func, data,
            { s with
              reads := some reads
              buffered := s.buffered - read.length
              buffers := some rest }))
        | none => .error (.thrown "TypeError")
      else .ok none
    else .ok none
  | _, _ => .ok none

/-- What `_process` does after its loop. -/
def endMark (sub : Subclass σ κ) (s : ChunkStream σ κ) : Outcome (ChunkStream σ κ) :=
  match s.buffers with
  | some (none :: _) => s.finish sub
  | _ => .ok s

/-- `read`, with the `_process` it calls. -/
def readWith (process : ChunkStream σ κ → Outcome (ChunkStream σ κ)) (length : Int) (func : κ)
    (s : ChunkStream σ κ) : Outcome (ChunkStream σ κ) :=
  match s.reads with
  | none => .error (.thrown "TypeError")
  | some reads => do
    let s ← process { s with reads := some (reads ++ [.request length func]) }
    if s.paused then
      match s.reads with
      | none => .error (.thrown "TypeError")
      | some [] => .ok s
      | some (_ :: _) => .ok ({ s with paused := false }.emit .drain)
    else .ok s

/-- `end()`, with the `_process` it calls. -/
def endWith (sub : Subclass σ κ) (process : ChunkStream σ κ → Outcome (ChunkStream σ κ))
    (s : ChunkStream σ κ) : Outcome (ChunkStream σ κ) :=
  match s.buffers with
  | none => .ok { s with writable := false }
  | some [] => { s with writable := false }.finish sub
  | some buffers => process { s with writable := false, buffers := some (buffers ++ [none]) }

/-- The end of a callback. -/
def perform (sub : Subclass σ κ) (process : ChunkStream σ κ → Outcome (ChunkStream σ κ)) :
    Last κ → ChunkStream σ κ → Outcome (ChunkStream σ κ)
  | .nothing, s => .ok s
  | .read length func, s => s.readWith process length func
  | .destroySoon, s => s.endWith sub process
  | .emitError message, s => s.emitError sub message
  | .throw message, _ => .error (.thrown message)

/-- `_process`: a turn, the callback, and the turns after it.  The callback may come here
again before the turns after it. -/
def process (sub : Subclass σ κ) : Nat → ChunkStream σ κ → Outcome (ChunkStream σ κ)
  | 0, _ => .error .outOfFuel
  | fuel + 1, s => do
    match ← s.turn with
    | none => s.endMark sub
    | some (func, data, t) =>
      let (owner, last) := sub.call func data t.owner
      let t ← perform sub (process sub fuel) last { t with owner := owner }
      process sub fuel t

/-- `read` -/
def read (sub : Subclass σ κ) (fuel : Nat) (length : Int) (func : κ) (s : ChunkStream σ κ) :
    Outcome (ChunkStream σ κ) :=
  s.readWith (process sub fuel) length func

/-- `write` -/
def write (sub : Subclass σ κ) (fuel : Nat) (data : Bytes) (s : ChunkStream σ κ) :
    Outcome (ChunkStream σ κ) :=
  if s.writable then
    match s.buffers with
    | none => .error (.thrown "TypeError")
    | some buffers => do
      let s ← process sub fuel
        { s with buffers := some (buffers ++ [some data]), buffered := s.buffered + data.length }
      match s.reads with
      | some [] => .ok { s with paused := true }
      | _ => .ok s
  else s.emitError sub "Stream not writable"

/-- `end(data)` -/
def endData (sub : Subclass σ κ) (fuel : Nat) (data : Bytes) (s : ChunkStream σ κ) :
    Outcome (ChunkStream σ κ) := do
  let s ← s.write sub fuel data
  s.endWith sub (process sub fuel)

/-- A writer with its data in pieces, which stops when the stream takes no more: a further
`write` would only emit that the stream is not writable. -/
def writeAll (sub : Subclass σ κ) (fuel : Nat) : List Bytes → ChunkStream σ κ →
    Outcome (ChunkStream σ κ)
  | [], s => .ok s
  | data :: pieces, s => do
    let s ← s.write sub fuel data
    if s.writable then writeAll sub fuel pieces s else .ok s

end ChunkStream

/-! ## The stream as a reader -/

/-- How a callback left its stream. -/
inductive Status (κ : Type)
  | reading (read : Read κ)
  | idle
  | soon
  | failed (message : String)
  /-- The callback did not return; of what it waited for, so much is not there yet. -/
  | thrown (message : String) (left : Nat)
  deriving DecidableEq, Repr

/-- The fields of the subclass, and what it waits for. -/
structure Held (σ κ : Type) where
  owner : σ
  status : Status κ
  deriving DecidableEq

namespace Subclass

variable (sub : Subclass σ κ)

/-- What a callback with this end leaves. -/
def after (left : Nat) (owner : σ) : Last κ → Held σ κ
  | .nothing => ⟨owner, .idle⟩
  | .read length func => ⟨owner, .reading (.request length func)⟩
  | .destroySoon => ⟨owner, .soon⟩
  | .emitError message =>
    match sub.handleError.bind fun handle => handle owner with
    | none => ⟨owner, .failed message⟩
    | some exception => ⟨owner, .thrown exception left⟩
  | .throw message => ⟨owner, .thrown message left⟩

/-- A subclass that waits for one thing at a time, as a reader. -/
def reader : Reader UInt8 (Held σ κ) where
  wants h :=
    match h.status with
    | .reading r => some ⟨r.length, r.allowLess⟩
    | .thrown _ (left + 1) => some ⟨left + 1, true⟩
    | _ => none
  take h data :=
    match h.status with
    | .reading r =>
      sub.after (if r.allowLess then r.length - data.length else 0) (sub.call r.func data h.owner).1
        (sub.call r.func data h.owner).2
    | .thrown message left => ⟨h.owner, .thrown message (left - data.length)⟩
    | _ => h

end Subclass

/-- The stream is what its subclass waits for, with the bytes that were not read yet. -/
def Shows (sub : Subclass σ κ) (h : Held σ κ) (unread : Bytes) (s : ChunkStream σ κ) : Prop :=
  match h.status with
  | .reading r => ∃ bs : List Bytes, (∀ b ∈ bs, b ≠ []) ∧ bs.flatten = unread ∧
      s = ⟨h.owner, some (bs.map some), unread.length, some [r], false, true, []⟩
  | .idle => ∃ (bs : List Bytes) (paused : Bool), (∀ b ∈ bs, b ≠ []) ∧ bs.flatten = unread ∧
      s = ⟨h.owner, some (bs.map some), unread.length, some [], paused, true, []⟩
  | .soon =>
    (unread = [] ∧ s = ⟨h.owner, none, 0, none, false, false, [.close]⟩) ∨
      (unread ≠ [] ∧ ∃ (bs : List Bytes) (paused : Bool), (∀ b ∈ bs, b ≠ []) ∧ bs.flatten = unread ∧
        s = ⟨h.owner, some (bs.map some ++ [none]), unread.length, some [], paused, false, []⟩)
  | .failed message =>
    match sub.handleError with
    | some _ => s = ⟨h.owner, none, unread.length, none, false, false, [.error message, .close]⟩
    | none => ∃ (bs : List Bytes) (paused : Bool), (∀ b ∈ bs, b ≠ []) ∧ bs.flatten = unread ∧
        s = ⟨h.owner, some (bs.map some), unread.length, some [], paused, true, [.error message]⟩
  | .thrown _ _ => False

/-- What a call that leaves the subclass so returns. -/
def Result (sub : Subclass σ κ) (h : Held σ κ) (unread : Bytes) : Outcome (ChunkStream σ κ) → Prop
  | .ok s => Shows sub h unread s
  | .error (.thrown message) => ∃ left, h.status = .thrown message left
  | .error .outOfFuel => False

variable {sub : Subclass σ κ} {P : Held σ κ → Prop} {h : Held σ κ} {unread : Bytes}
  {s : ChunkStream σ κ}

theorem wants_reading {r : Read κ} (hr : h.status = .reading r) :
    sub.reader.wants h = some ⟨r.length, r.allowLess⟩ := by
  simp [Subclass.reader, hr]

theorem take_reading {r : Read κ} (hr : h.status = .reading r) (data : Bytes) :
    sub.reader.take h data = sub.after (if r.allowLess then r.length - data.length else 0)
      (sub.call r.func data h.owner).1 (sub.call r.func data h.owner).2 := by
  simp [Subclass.reader, hr]

/-- Buffers with nothing in them are none. -/
theorem flatten_eq_nil {bs : List Bytes} (hbs : ∀ b ∈ bs, b ≠ []) : bs.flatten = [] ↔ bs = [] := by
  constructor
  · intro hflat
    cases bs with
    | nil => rfl
    | cons b bs =>
      exact absurd (by simpa using congrArg (List.take b.length) hflat) (hbs b (by simp))
  · rintro rfl
    rfl

/-- The loop that copies from the buffers finds what is in them. -/
theorem copyFrom_map (bs : List Bytes) (hbs : ∀ b ∈ bs, b ≠ []) (n : Nat)
    (hn : n ≤ bs.flatten.length) :
    ∃ bs' : List Bytes, (∀ b ∈ bs', b ≠ []) ∧ bs'.flatten = bs.flatten.drop n ∧
      ChunkStream.copyFrom (bs.map some) n = some (bs.flatten.take n, bs'.map some) := by
  induction bs generalizing n with
  | nil =>
    obtain rfl : n = 0 := by simpa using hn
    exact ⟨[], by simp, by simp, by simp [ChunkStream.copyFrom]⟩
  | cons b bs ih =>
    cases n with
    | zero => exact ⟨b :: bs, hbs, by simp, by simp [ChunkStream.copyFrom]⟩
    | succ n =>
      have hrest : ∀ c ∈ bs, c ≠ [] := fun c hc => hbs c (by simp [hc])
      by_cases hb : b.length ≤ n + 1
      · have hlen : n + 1 - b.length ≤ bs.flatten.length := by
          simp only [List.flatten_cons, List.length_append] at hn
          omega
        obtain ⟨bs', hfull, hflat, hcopy⟩ := ih hrest (n + 1 - b.length) hlen
        refine ⟨bs', hfull, ?_, ?_⟩
        · rw [hflat, List.flatten_cons, List.drop_append, List.drop_eq_nil_of_le hb,
            List.nil_append]
        · rw [List.map_cons, ChunkStream.copyFrom, if_pos hb, hcopy, List.flatten_cons,
            List.take_append, List.take_of_length_le hb]
          rfl
      · refine ⟨b.drop (n + 1) :: bs, ?_, ?_, ?_⟩
        · intro c hc
          rcases List.mem_cons.mp hc with rfl | hc
          · exact fun hnil => by have := List.drop_eq_nil_iff.mp hnil; omega
          · exact hrest c hc
        · rw [List.flatten_cons, List.flatten_cons, List.drop_append_of_le_length (by omega)]
        · rw [List.map_cons, ChunkStream.copyFrom, if_neg hb, List.flatten_cons,
            List.take_append_of_le_length (by omega)]
          rfl

/-- A turn of a stream that waits for something: the delivery, or there is none. -/
theorem turn_reading {r : Read κ} (hr : h.status = .reading r) (hs : Shows sub h unread s) :
    (s.turn = .ok none ∧ sub.reader.next (h, unread) = none) ∨
      ∃ (data rest : Bytes) (bs : List Bytes),
        s.turn = .ok (some (r.func, data,
          ⟨h.owner, some (bs.map some), rest.length, some [], false, true, []⟩)) ∧
        (∀ b ∈ bs, b ≠ []) ∧ bs.flatten = rest ∧ unread = data ++ rest ∧
        (data = [] → r.length = 0) ∧ Takes sub.reader (h, unread)
          (sub.reader.take h data, rest) := by
  obtain ⟨owner, status⟩ := h
  dsimp only at hr
  subst hr
  obtain ⟨bs, hfull, rfl, rfl⟩ := hs
  have hwants : sub.reader.wants ⟨owner, .reading r⟩ = some ⟨r.length, r.allowLess⟩ := rfl
  by_cases hempty : bs.flatten = []
  · left
    refine ⟨by simp [ChunkStream.turn, hempty], ?_⟩
    rw [hempty]
    exact next_nil _
  · have hpos : 0 < bs.flatten.length := List.length_pos_of_ne_nil hempty
    obtain ⟨n, allowLess, func⟩ := r
    cases allowLess with
    | true =>
      right
      cases bs with
      | nil => exact absurd rfl hempty
      | cons b bs =>
        have hb : b ≠ [] := hfull b (by simp)
        have hrest : ∀ c ∈ bs, c ≠ [] := fun c hc => hfull c (by simp [hc])
        have htakes : ∀ k, k ≤ n → k ≤ b.length → Takes sub.reader
            (⟨owner, .reading ⟨n, true, func⟩⟩, (b :: bs).flatten)
            (sub.reader.take ⟨owner, .reading ⟨n, true, func⟩⟩ (b.take k),
              b.drop k ++ bs.flatten) := by
          intro k hkn hkb
          have := Takes.less (R := sub.reader) (k := k) hwants hempty hkn (by simp; omega)
          rwa [List.flatten_cons, List.take_append_of_le_length hkb,
            List.drop_append_of_le_length hkb] at this
        by_cases hn : n < b.length
        · refine ⟨b.take n, b.drop n ++ bs.flatten, b.drop n :: bs, ?_, ?_, rfl, ?_, ?_,
            htakes n (Nat.le_refl n) (by omega)⟩
          · have hleft : (b :: bs).flatten.length - n = (b.drop n ++ bs.flatten).length := by
              rw [List.flatten_cons, List.length_append, List.length_append, List.length_drop]
              omega
            simp only [ChunkStream.turn, List.map_cons, hpos, hn, hleft, if_true]
          · intro c hc
            rcases List.mem_cons.mp hc with rfl | hc
            · exact fun hnil => by have := List.drop_eq_nil_iff.mp hnil; omega
            · exact hrest c hc
          · rw [← List.append_assoc, List.take_append_drop, List.flatten_cons]
          · exact fun hnil => (List.take_eq_nil_iff.mp hnil).resolve_right hb
        · have := htakes b.length (by omega) (Nat.le_refl _)
          rw [List.take_length, List.drop_length, List.nil_append] at this
          refine ⟨b, bs.flatten, bs, ?_, hrest, rfl, rfl, fun hnil => absurd hnil hb, this⟩
          have hleft : (b :: bs).flatten.length - b.length = bs.flatten.length := by
            rw [List.flatten_cons, List.length_append]
            omega
          simp only [ChunkStream.turn, List.map_cons, hpos, hn, hleft, if_true, if_false]
    | false =>
      by_cases hn : n ≤ bs.flatten.length
      · right
        obtain ⟨bs', hfull', hflat, hcopy⟩ := copyFrom_map bs hfull n hn
        refine ⟨bs.flatten.take n, bs.flatten.drop n, bs', ?_, hfull', hflat,
          (List.take_append_drop n _).symm, ?_, .whole hwants hempty hn⟩
        · simp only [ChunkStream.turn, hpos, hn, hcopy, if_true, Bool.false_eq_true, if_false,
            List.length_drop]
        · intro hnil
          have := congrArg List.length hnil
          rw [List.length_take, List.length_nil] at this
          change n = 0
          omega
      · left
        refine ⟨by simp only [ChunkStream.turn, hpos, hn, if_true, Bool.false_eq_true, if_false],
          ?_⟩
        simp only [Reader.next, hwants, Bool.false_eq_true, false_or, hn, and_false, if_false]

/-! ## All of it is delivered -/

/-- The turns `_process` has to make: two for a byte, and one for a read of nothing. -/
def Held.turns (h : Held σ κ) (unread : Bytes) : Nat :=
  2 * unread.length +
    match h.status with
    | .reading r => if r.length = 0 then 1 else 0
    | _ => 0

theorem Held.turns_le (h : Held σ κ) (unread : Bytes) : h.turns unread ≤ 2 * unread.length + 1 := by
  unfold Held.turns
  split
  · split <;> omega
  · omega

/-- A stream that nothing can be delivered from is left as it is. -/
theorem process_settled (hs : Shows sub h unread s) (hnext : sub.reader.next (h, unread) = none)
    (fuel : Nat) : ChunkStream.process sub (fuel + 1) s = .ok s := by
  suffices hturn : s.turn = .ok none ∧ s.endMark sub = .ok s by
    rw [ChunkStream.process, hturn.1]
    exact hturn.2
  have hmark : ∀ bs : List Bytes, s.buffers = some (bs.map some) → s.endMark sub = .ok s := by
    intro bs hbs
    cases bs <;> simp [ChunkStream.endMark, hbs]
  obtain ⟨owner, status⟩ := h
  cases status with
  | reading r =>
    have hturn : s.turn = .ok none := by
      rcases turn_reading rfl hs with ⟨hturn, -⟩ | ⟨_, _, _, -, -, -, -, -, htakes⟩
      · exact hturn
      · exact absurd hnext htakes.next_ne_none
    obtain ⟨bs, -, -, rfl⟩ := hs
    exact ⟨hturn, hmark bs rfl⟩
  | idle =>
    obtain ⟨bs, paused, -, -, rfl⟩ := hs
    exact ⟨rfl, hmark bs rfl⟩
  | soon =>
    rcases hs with ⟨-, rfl⟩ | ⟨hne, bs, paused, -, hflat, rfl⟩
    · exact ⟨rfl, rfl⟩
    · cases bs with
      | nil => exact absurd hflat.symm hne
      | cons b bs => exact ⟨rfl, rfl⟩
  | failed message =>
    unfold Shows at hs
    dsimp only at hs
    split at hs
    · subst hs
      exact ⟨rfl, rfl⟩
    · obtain ⟨bs, paused, -, -, rfl⟩ := hs
      exact ⟨rfl, hmark bs rfl⟩
  | thrown message left => exact hs.elim

/-- A reader that has thrown drops the rest of what it waited for. -/
theorem thrown_ends (sub : Subclass σ κ) {h : Held σ κ} {message : String} {left : Nat}
    (hstatus : h.status = .thrown message left) (unread : Bytes) :
    ∃ h' unread', Relation.ReflTransGen (Takes sub.reader) (h, unread) (h', unread') ∧
      sub.reader.next (h', unread') = none ∧ ∃ left', h'.status = .thrown message left' := by
  obtain ⟨owner, status⟩ := h
  dsimp only at hstatus
  subst hstatus
  cases left with
  | zero => exact ⟨_, unread, .refl, next_stopped rfl _, 0, rfl⟩
  | succ left =>
    by_cases hempty : unread = []
    · subst hempty
      exact ⟨_, [], .refl, next_nil _, _, rfl⟩
    · have htakes := Takes.less (R := sub.reader) (n := left + 1)
        (k := min (left + 1) unread.length)
        (s := ⟨owner, .thrown message (left + 1)⟩) rfl hempty (by omega) (by omega)
      refine ⟨_, _, .single htakes, ?_, _, rfl⟩
      by_cases hlen : left + 1 ≤ unread.length
      · rw [Nat.min_eq_left hlen]
        refine next_stopped ?_ _
        simp [Subclass.reader, hlen]
      · rw [Nat.min_eq_right (by omega), List.drop_length]
        exact next_nil _

/-- What has thrown stays so. -/
theorem thrown_stays {message : String} {left : Nat} (hstatus : h.status = .thrown message left)
    {unread : Bytes} {c : Config UInt8 (Held σ κ)} (he : Ends sub.reader (h, unread) c) :
    ∃ left', c.1.status = .thrown message left' := by
  obtain ⟨hrun, -⟩ := he
  induction hrun with
  | refl => exact ⟨left, hstatus⟩
  | tail _ hnext ih =>
    obtain ⟨left', hleft'⟩ := ih
    obtain ⟨w, -, -, -, rfl⟩ := next_eq_some hnext
    exact ⟨left' - _, by simp only [Subclass.reader, hleft']; rfl⟩

/-- After a delivery there are fewer turns to make. -/
theorem turns_take (hlaw : Lawful sub.reader P) (hP : P h) {r : Read κ} (hr : h.status = .reading r)
    {data : Bytes} (rest : Bytes) (hempty : data = [] → r.length = 0) :
    (sub.reader.take h data).turns rest < h.turns (data ++ rest) := by
  have hturns := (sub.reader.take h data).turns_le rest
  by_cases hdata : data = []
  · subst hdata
    have hzero : r.length = 0 := hempty rfl
    have hwants : sub.reader.wants h = some ⟨0, r.allowLess⟩ := by rw [wants_reading hr, hzero]
    have hmore := hlaw.progress h r.allowLess
    have hafter : (sub.reader.take h []).turns rest = 2 * rest.length := by
      unfold Held.turns
      split
      · next r' hr' =>
        have := hmore ⟨r'.length, r'.allowLess⟩ hP hwants (wants_reading hr')
        rw [if_neg (by simpa using Nat.ne_of_gt this)]
        rfl
      · rfl
    rw [hafter, Held.turns, hr]
    simp [hzero]
  · have := List.length_pos_of_ne_nil hdata
    have : 2 * (data ++ rest).length ≤ h.turns (data ++ rest) := Nat.le_add_right _ _
    rw [List.length_append] at this
    omega

/-- **`_process` delivers all that it can.**  It returns, or a callback throws, and then
nothing more can be delivered. -/
theorem process_spec (hlaw : Lawful sub.reader P) (fuel : Nat) (hP : P h)
    (hs : Shows sub h unread s) (hfuel : h.turns unread < fuel) :
    ∃ h' unread', Relation.ReflTransGen (Takes sub.reader) (h, unread) (h', unread') ∧
      Result sub h' unread' (ChunkStream.process sub fuel s) ∧
        sub.reader.next (h', unread') = none := by
  -- by the fuel; the callback's own `_process` and the turns after it have less of it
  induction fuel generalizing h unread s with
  | zero => omega
  | succ fuel ih =>
    by_cases hnext : sub.reader.next (h, unread) = none
    · refine ⟨h, unread, .refl, ?_, hnext⟩
      rw [process_settled hs hnext]
      exact hs
    · obtain ⟨r, hr⟩ : ∃ r, h.status = .reading r := by
        unfold Shows at hs
        split at hs
        · next r hr => exact ⟨r, hr⟩
        all_goals exact absurd (next_stopped (by simp_all [Subclass.reader]) _) hnext
      rcases turn_reading hr hs with ⟨-, hnone⟩ |
        ⟨data, rest, bs, hturn, hfull, hflat, rfl, hempty, htakes⟩
      · exact absurd hnone hnext
      have hless := turns_take hlaw hP hr rest hempty
      have hP' : P (sub.reader.take h data) := htakes.keeps hlaw hP
      have hprocess : ChunkStream.process sub (fuel + 1) s =
          ChunkStream.perform sub (ChunkStream.process sub fuel) (sub.call r.func data h.owner).2
            ⟨(sub.call r.func data h.owner).1, some (bs.map some), rest.length,
              some [], false, true,
              []⟩ >>= ChunkStream.process sub fuel := by
        rw [ChunkStream.process, hturn]
        rfl
      obtain ⟨fuel, rfl⟩ : ∃ k, fuel = k + 1 := ⟨fuel - 1, by omega⟩
      rw [hprocess]
      rw [take_reading hr] at hless hP' htakes
      generalize (sub.call r.func data h.owner).1 = owner at *
      generalize (sub.call r.func data h.owner).2 = last at *
      -- where the callback leaves the stream settled, the turns after it do nothing
      have hsettled : ∀ (h' : Held σ κ) (t : ChunkStream σ κ),
          h' = sub.after (if r.allowLess then r.length - data.length else 0) owner last →
          Shows sub h' rest t → sub.reader.next (h', rest) = none →
          ∃ h'' unread'', Relation.ReflTransGen (Takes sub.reader) (h, data ++ rest)
            (h'', unread'') ∧
            Result sub h'' unread'' (ChunkStream.process sub (fuel + 1) t) ∧
              sub.reader.next (h'', unread'') = none := by
        intro h' t hh' ht hnone
        refine ⟨h', rest, .single (hh' ▸ htakes), ?_, hnone⟩
        rw [process_settled ht hnone]
        exact ht
      cases last with
      | nothing =>
        exact hsettled _ _ rfl ⟨bs, false, hfull, hflat, rfl⟩ (next_stopped rfl _)
      | read length func =>
        have ht : Shows sub ⟨owner, .reading (.request length func)⟩ rest
            ⟨owner, some (bs.map some), rest.length, some [.request length func],
              false, true, []⟩ :=
          ⟨bs, hfull, hflat, rfl⟩
        obtain ⟨h', unread', hrun, hresult, hnone⟩ := ih hP' ht (by omega)
        refine ⟨h', unread', .head htakes hrun, ?_, hnone⟩
        simp only [ChunkStream.perform, ChunkStream.readWith, List.nil_append]
        revert hresult
        cases hout : ChunkStream.process sub (fuel + 1)
            ⟨owner, some (bs.map some), rest.length, some [.request length func], false,
              true, []⟩ with
        | error e => exact id
        | ok t =>
          intro hresult
          have hkeep : (if t.paused then
              match t.reads with
              | none => .error (.thrown "TypeError")
              | some [] => .ok t
              | some (_ :: _) => .ok ({ t with paused := false }.emit .drain)
              else .ok t : Outcome (ChunkStream σ κ)) = .ok t := by
            have hshows : Shows sub h' unread' t := hresult
            unfold Shows at hshows
            split at hshows
            · obtain ⟨_, -, -, rfl⟩ := hshows
              rfl
            · obtain ⟨_, _, -, -, rfl⟩ := hshows
              exact ite_self _
            · rcases hshows with ⟨-, rfl⟩ | ⟨-, _, _, -, -, rfl⟩
              · rfl
              · exact ite_self _
            · split at hshows
              · subst hshows
                rfl
              · obtain ⟨_, _, -, -, rfl⟩ := hshows
                exact ite_self _
            · exact hshows.elim
          have : ChunkStream.process sub (fuel + 1) t = .ok t := process_settled hresult hnone fuel
          simp only [bind, Except.bind, hout] at *
          rw [hkeep]
          dsimp only
          rw [this]
          exact hresult
      | destroySoon =>
        cases bs with
        | nil =>
          obtain rfl : rest = [] := hflat.symm
          exact hsettled ⟨owner, .soon⟩ _ rfl (.inl ⟨rfl, rfl⟩) (next_stopped rfl _)
        | cons b bs =>
          have hne : rest ≠ [] := by
            rw [← hflat]
            exact fun hnil => by simpa using (flatten_eq_nil hfull).mp hnil
          have ht : Shows sub ⟨owner, .soon⟩ rest
              ⟨owner, some ((b :: bs).map some ++ [none]), rest.length, some [],
                false, false, []⟩ :=
            .inr ⟨hne, b :: bs, false, hfull, hflat, rfl⟩
          have hend : ChunkStream.perform sub (ChunkStream.process sub (fuel + 1)) .destroySoon
              ⟨owner, some ((b :: bs).map some), rest.length, some [], false, true, []⟩ =
              .ok ⟨owner, some ((b :: bs).map some ++ [none]), rest.length, some [],
                false, false, []⟩ :=
            process_settled ht (next_stopped rfl _) fuel
          rw [hend]
          exact hsettled ⟨owner, .soon⟩ _ rfl ht (next_stopped rfl _)
      | emitError message =>
        cases herror : sub.handleError with
        | none =>
          have hafter : sub.after (if r.allowLess then r.length - data.length else 0) owner
              (.emitError message) = ⟨owner, .failed message⟩ := by
            simp [Subclass.after, herror]
          simp only [ChunkStream.perform, ChunkStream.emitError, herror, Option.map_none]
          refine hsettled _ ⟨owner, some (bs.map some), rest.length, some [], false, true,
            [.error message]⟩ hafter.symm ?_ (next_stopped rfl _)
          simp only [Shows, herror]
          exact ⟨bs, false, hfull, hflat, rfl⟩
        | some handle =>
          cases hhandle : handle owner with
          | none =>
            have hafter : sub.after (if r.allowLess then r.length - data.length else 0) owner
                (.emitError message) = ⟨owner, .failed message⟩ := by
              simp [Subclass.after, herror, hhandle]
            simp only [ChunkStream.perform, ChunkStream.emitError, herror, Option.map_some, hhandle]
            refine hsettled _ ⟨owner, none, rest.length, none, false, false,
              [.error message, .close]⟩ hafter.symm ?_ (next_stopped rfl _)
            simp only [Shows, herror]
          | some exception =>
            -- the listener throws, as a callback may
            have hafter : sub.after (if r.allowLess then r.length - data.length else 0) owner
                (.emitError message) = ⟨owner, .thrown exception
                  (if r.allowLess then r.length - data.length else 0)⟩ := by
              simp [Subclass.after, herror, hhandle]
            rw [hafter] at htakes
            simp only [ChunkStream.perform, ChunkStream.emitError, herror, Option.map_some, hhandle]
            obtain ⟨h', unread', hrun, hnone, hthrown⟩ := thrown_ends sub
              (h := ⟨owner, .thrown exception
                (if r.allowLess then r.length - data.length else 0)⟩) rfl rest
            exact ⟨h', unread', .head htakes hrun, hthrown, hnone⟩
      | throw message =>
        obtain ⟨h', unread', hrun, hnone, hthrown⟩ := thrown_ends sub
          (h := sub.after (if r.allowLess then r.length - data.length else 0) owner
            (.throw message))
          rfl rest
        exact ⟨h', unread', .head htakes hrun, hthrown, hnone⟩

/-- What a subclass that takes no more was left with stays. -/
theorem writable_of_reading {r : Read κ} (hr : h.status = .reading r) (hs : Shows sub h unread s) :
    s.writable = true := by
  unfold Shows at hs
  rw [hr] at hs
  obtain ⟨_, -, -, rfl⟩ := hs
  rfl

/-- The fields of the subclass are those of the stream. -/
theorem Shows.owner_eq (hs : Shows sub h unread s) : s.owner = h.owner := by
  unfold Shows at hs
  split at hs
  · obtain ⟨_, -, -, rfl⟩ := hs
    rfl
  · obtain ⟨_, _, -, -, rfl⟩ := hs
    rfl
  · rcases hs with ⟨-, rfl⟩ | ⟨-, _, _, -, -, rfl⟩ <;> rfl
  · split at hs
    · subst hs
      rfl
    · obtain ⟨_, _, -, -, rfl⟩ := hs
      rfl
  · exact hs.elim

/-- A stream that is not writable any more waits for nothing. -/
theorem wants_of_not_writable (hs : Shows sub h unread s) (hw : s.writable = false) :
    sub.reader.wants h = none := by
  obtain ⟨owner, status⟩ := h
  cases status with
  | reading r => simp [writable_of_reading rfl hs] at hw
  | thrown => exact hs.elim
  | _ => rfl

/-- **A write** delivers all that it can of what it adds. -/
theorem write_spec (hlaw : Lawful sub.reader P) (fuel : Nat) {data : Bytes} (hP : P h)
    (hs : Shows sub h unread s) (hw : s.writable = true) (hdata : data ≠ [])
    (hfuel : 2 * (unread.length + data.length) + 1 < fuel) :
    ∃ h' unread', Run sub.reader (h, unread) [data] (h', unread') ∧
      Result sub h' unread' (s.write sub fuel data) ∧ sub.reader.next (h', unread') = none := by
  -- the buffer is put behind the others
  obtain ⟨buffers, hbuffers, ht⟩ : ∃ buffers, s.buffers = some buffers ∧
      Shows sub h (unread ++ data)
        { s with buffers := some (buffers ++ [some data]), buffered := s.buffered +
          data.length } := by
    have hfull : ∀ bs : List Bytes, (∀ b ∈ bs, b ≠ []) → ∀ b ∈ bs ++ [data], b ≠ [] := by
      intro bs hbs b hb
      rcases List.mem_append.mp hb with hb | hb
      · exact hbs b hb
      · rw [List.mem_singleton.mp hb]
        exact hdata
    unfold Shows at hs ⊢
    cases hstatus : h.status with
    | reading r =>
      rw [hstatus] at hs
      obtain ⟨bs, hbs, rfl, rfl⟩ := hs
      exact ⟨_, rfl, bs ++ [data], hfull bs hbs, by simp, by simp⟩
    | idle =>
      rw [hstatus] at hs
      obtain ⟨bs, paused, hbs, rfl, rfl⟩ := hs
      exact ⟨_, rfl, bs ++ [data], paused, hfull bs hbs, by simp, by simp⟩
    | soon =>
      rw [hstatus] at hs
      rcases hs with ⟨-, rfl⟩ | ⟨-, _, _, -, -, rfl⟩ <;> simp at hw
    | failed message =>
      rw [hstatus] at hs
      dsimp only at hs ⊢
      cases herror : sub.handleError with
      | some handle =>
        rw [herror] at hs
        dsimp only at hs
        subst hs
        simp at hw
      | none =>
        rw [herror] at hs
        obtain ⟨bs, paused, hbs, rfl, rfl⟩ := hs
        exact ⟨_, rfl, bs ++ [data], paused, hfull bs hbs, by simp, by simp⟩
    | thrown message left =>
      rw [hstatus] at hs
      exact hs.elim
  have hturns := h.turns_le (unread ++ data)
  rw [List.length_append] at hturns
  obtain ⟨h', unread', hrun, hresult, hnone⟩ := process_spec hlaw fuel hP ht (by omega)
  refine ⟨h', unread', .arrives (.of_takes hrun), ?_, hnone⟩
  rw [ChunkStream.write, if_pos hw]
  simp only [hbuffers]
  revert hresult
  generalize ChunkStream.process sub fuel _ = out
  cases out with
  | error e => exact id
  | ok t =>
    intro hresult
    -- a stream without reads is paused, which nothing else depends on
    change Shows sub h' unread' t at hresult
    simp only [bind, Except.bind]
    split
    · next hreads =>
      change Shows sub h' unread' { t with paused := true }
      unfold Shows at hresult ⊢
      split at hresult
      · obtain ⟨_, -, -, rfl⟩ := hresult
        simp at hreads
      · obtain ⟨bs, _, hbs, hflat, rfl⟩ := hresult
        exact ⟨bs, true, hbs, hflat, rfl⟩
      · rcases hresult with ⟨-, rfl⟩ | ⟨hne, bs, _, hbs, hflat, rfl⟩
        · simp at hreads
        · exact .inr ⟨hne, bs, true, hbs, hflat, rfl⟩
      · split at hresult
        · subst hresult
          simp at hreads
        · obtain ⟨bs, _, hbs, hflat, rfl⟩ := hresult
          exact ⟨bs, true, hbs, hflat, rfl⟩
      · exact hresult
    · exact hresult

/-- **However the data is cut into pieces**, writing them leaves what the whole of it does.
When the stream takes no more, what is left was not written. -/
theorem writeAll_spec (hlaw : Lawful sub.reader P) {fuel : Nat} {pieces : List Bytes} (hP : P h)
    (hs : Shows sub h unread s) (hw : s.writable = true)
    (hnext : sub.reader.next (h, unread) = none) (hpieces : ∀ data ∈ pieces, data ≠ [])
    (hfuel : 2 * (unread.length + pieces.flatten.length) + 1 < fuel) :
    ∃ h' unread' left, Ends sub.reader (h, unread ++ pieces.flatten) (h', unread' ++ left) ∧
      Result sub h' unread' (s.writeAll sub fuel pieces) := by
  induction pieces generalizing h unread s with
  | nil => exact ⟨h, unread, [], by simpa using Ends.refl hnext, hs⟩
  | cons data pieces ih =>
    simp only [List.flatten_cons, List.length_append] at hfuel ⊢
    obtain ⟨h', unread', hrun, hresult, hnone⟩ :=
      write_spec hlaw fuel hP hs hw (hpieces data (by simp)) (by omega)
    have hP' : P h' := hrun.keeps hlaw hP
    have hshort := hrun.length_le
    simp only [List.flatten_cons, List.flatten_nil, List.append_nil] at hshort
    have hends : ∀ {more : Bytes} {e}, Ends sub.reader (h', unread' ++ more) e →
        Ends sub.reader (h, unread ++ (data ++ more)) e := by
      intro more e he
      simpa using hrun.ends hlaw hP he
    rw [ChunkStream.writeAll]
    cases hout : s.write sub fuel data with
    | error e =>
      rw [hout] at hresult
      cases e with
      | outOfFuel => exact hresult.elim
      | thrown message =>
        -- the call threw, and the rest is dropped
        obtain ⟨left, hstatus⟩ := hresult
        obtain ⟨h'', unread'', hrest, hnone', hthrown⟩ :=
          thrown_ends sub hstatus (unread' ++ pieces.flatten)
        have hdropped := run_ends hlaw (Run.of_takes hrest) hP' hnone'
        simp only [List.flatten_nil, List.append_nil] at hdropped
        exact ⟨h'', unread'', [], by simpa using hends hdropped, hthrown⟩
    | ok t =>
      rw [hout] at hresult
      change Shows sub h' unread' t at hresult
      simp only [bind, Except.bind]
      cases hwritable : t.writable with
      | true =>
        obtain ⟨h'', unread'', left, hrest, hresult'⟩ :=
          ih hP' hresult hwritable hnone (fun d hd => hpieces d (by simp [hd])) (by omega)
        exact ⟨h'', unread'', left, hends hrest, hresult'⟩
      | false =>
        have hstopped := wants_of_not_writable hresult hwritable
        exact ⟨h', unread', pieces.flatten, hends (.refl (next_stopped hstopped _)), hresult⟩

/-! ## Callbacks of a lawful subclass -/

/-- What makes a subclass a lawful reader, said of its callbacks: they keep an invariant of
the fields and the request; a request for at most a length adds up, or its callback throws;
and a request for nothing is not followed by another. -/
structure Subclass.Coherent (sub : Subclass σ κ) (P : σ → Read κ → Prop) : Prop where
  keeps : ∀ {o r data length func}, P o r → (sub.call r.func data o).2 = .read length func →
    P (sub.call r.func data o).1 (.request length func)
  adds : ∀ {o r a b}, P o r → r.allowLess = true → a.length < r.length →
    a.length + b.length ≤ r.length →
    (∃ func, (sub.call r.func a o).2 = .read (-((r.length - a.length : Nat) : Int)) func ∧
      sub.call func b (sub.call r.func a o).1 = sub.call r.func (a ++ b) o) ∨
    (∃ message, (sub.call r.func a o).2 = .throw message ∧
      sub.call r.func (a ++ b) o = ((sub.call r.func a o).1, .throw message))
  progress : ∀ {o r length func}, P o r → r.length = 0 →
    (sub.call r.func [] o).2 = .read length func → length ≠ 0

/-- The invariant of a stream: that of its fields and its request. -/
def Waiting (P : σ → Read κ → Prop) (h : Held σ κ) : Prop :=
  ∀ r, h.status = .reading r → P h.owner r

/-- The reader of a coherent subclass is lawful. -/
theorem Subclass.Coherent.lawful {P : σ → Read κ → Prop} (hco : sub.Coherent P) :
    Lawful sub.reader (Waiting P) where
  keeps h w data hP hw := by
    obtain ⟨o, status⟩ := h
    cases status with
    | reading r =>
      rw [take_reading rfl]
      intro r' hr'
      have hkeeps : ∀ length func, (sub.call r.func data o).2 = .read length func →
          P (sub.call r.func data o).1 (.request length func) :=
        fun _ _ => hco.keeps (hP r rfl)
      generalize (sub.call r.func data o).1 = o' at *
      generalize (sub.call r.func data o).2 = last at *
      cases last with
      | read length func =>
        cases hr'
        exact hkeeps length func rfl
      | emitError message =>
        dsimp only [Subclass.after] at hr'
        split at hr' <;> cases hr'
      | _ => cases hr'
    | thrown message left =>
      intro r' hr'
      cases hr'
    | _ => cases hw
  adds h m a b hP hw ha hb := by
    obtain ⟨o, status⟩ := h
    cases status with
    | reading r =>
      rw [wants_reading rfl] at hw
      obtain ⟨n, allowLess, func⟩ := r
      cases hw
      dsimp only at ha hb
      rw [take_reading rfl a, take_reading rfl (a ++ b)]
      rcases hco.adds (a := a) (b := b) (hP _ rfl) rfl ha hb with
        ⟨func', hread, hcall⟩ | ⟨message, hthrow, hcall⟩
      · dsimp only at hread hcall ⊢
        have hpos : -((n - a.length : Nat) : Int) < 0 := by omega
        have habs : (-((n - a.length : Nat) : Int)).natAbs = n - a.length := by omega
        rw [hread]
        refine ⟨?_, ?_⟩
        · rw [Subclass.after, wants_reading rfl, Read.request, habs, decide_eq_true hpos]
        · rw [Subclass.after, take_reading rfl, Read.request, habs, decide_eq_true hpos]
          dsimp only
          rw [hcall, List.length_append, Nat.sub_sub]
      · dsimp only at hthrow hcall ⊢
        rw [hthrow, hcall]
        obtain ⟨left, hleft⟩ : ∃ left, n - a.length = left + 1 := ⟨n - a.length - 1, by omega⟩
        refine ⟨by simp [Subclass.after, Subclass.reader, hleft], ?_⟩
        simp [Subclass.after, Subclass.reader, Nat.sub_sub]
    | thrown message left =>
      cases left with
      | zero => cases hw
      | succ left =>
        cases hw
        obtain ⟨k, hk⟩ : ∃ k, left + 1 - a.length = k + 1 := ⟨left - a.length, by omega⟩
        refine ⟨by simp [Subclass.reader, hk], ?_⟩
        simp [Subclass.reader, Nat.sub_sub]
    | _ => cases hw
  progress h b w hP hw hw' := by
    obtain ⟨o, status⟩ := h
    cases status with
    | reading r =>
      rw [wants_reading rfl] at hw
      obtain ⟨n, allowLess, func⟩ := r
      cases hw
      rw [take_reading rfl] at hw'
      have hprog : ∀ length func', (sub.call func [] o).2 = .read length func' → length ≠ 0 :=
        fun _ _ => hco.progress (hP _ rfl) rfl
      dsimp only at hw'
      generalize (sub.call func [] o).1 = o' at *
      generalize (sub.call func [] o).2 = last at *
      cases last with
      | read length func' =>
        rw [Subclass.after, wants_reading rfl] at hw'
        cases hw'
        have := hprog length func' rfl
        exact Int.natAbs_pos.mpr this
      | emitError message =>
        dsimp only [Subclass.after] at hw'
        split at hw'
        · cases hw'
        · simp [Subclass.reader] at hw'
      | throw message => simp [Subclass.after, Subclass.reader] at hw'
      | _ => cases hw'
    | thrown message left =>
      cases left with
      | zero => cases hw
      | succ left => cases hw
    | _ => cases hw

/-- **Before its last byte a stream that will be closed waits**, if nothing more is left then. -/
theorem reading_before_end (hlaw : Lawful sub.reader P) {h₀ h h' : Held σ κ} (hP : P h₀)
    {w more unread : Bytes} (he : Ends sub.reader (h₀, w) (h, unread))
    (hall : Ends sub.reader (h₀, w ++ more) (h', [])) (hend : ∀ m l, h'.status ≠ .thrown m l)
    (hmore : more ≠ []) : ∃ r, h.status = .reading r := by
  have hrest := he.resume hlaw hP hall
  have hwaits : sub.reader.wants h ≠ none := by
    intro hnone
    have := hrest.eq_of_none (next_stopped hnone _)
    cases more with
    | nil => exact hmore rfl
    | cons b more => simp at this
  obtain ⟨owner, status⟩ := h
  cases status with
  | reading r => exact ⟨r, rfl⟩
  | thrown message left =>
    obtain ⟨left', hleft'⟩ := thrown_stays rfl hrest
    exact absurd hleft' (hend _ _)
  | _ => exact absurd rfl hwaits

/-- The constructor of a subclass, which asks for the first thing. -/
theorem read_create (fuel : Nat) (owner : σ) (length : Int) (func : κ) :
    ChunkStream.read sub (fuel + 1) length func (.create owner) =
      .ok ⟨owner, some [], 0, some [.request length func], false, true, []⟩ := rfl

/-- **A stream written in pieces** from its constructor on. -/
theorem Subclass.Coherent.writeAll {P : σ → Read κ → Prop} (hco : sub.Coherent P) {owner : σ}
    {r : Read κ} (hP : P owner r) {pieces : List Bytes} (hpieces : ∀ data ∈ pieces, data ≠ [])
    {fuel : Nat} (hfuel : 2 * pieces.flatten.length + 1 < fuel) :
    ∃ h' unread left, Ends sub.reader (⟨owner, .reading r⟩, pieces.flatten) (h', unread ++ left) ∧
      Result sub h' unread
        (ChunkStream.writeAll sub fuel pieces ⟨owner, some [], 0, some [r], false, true, []⟩) := by
  have hwaiting : Waiting P ⟨owner, .reading r⟩ := by
    intro r' hr'
    cases hr'
    exact hP
  have hshows : Shows sub ⟨owner, .reading r⟩ [] ⟨owner, some [], 0, some [r], false, true, []⟩ :=
    ⟨[], by simp, rfl, rfl⟩
  exact writeAll_spec hco.lawful hwaiting hshows rfl (next_nil _) hpieces (by simpa using hfuel)

/-- The messages of the errors that a stream has emitted. -/
def ChunkStream.errors (s : ChunkStream σ κ) : List String :=
  s.emitted.filterMap fun
    | .error message => some message
    | _ => none

/-- Two calls left the same fields, and reported the same: both returned, with the same errors
emitted and the same readiness for more, or both threw the same. -/
def SameOutcome : Outcome (ChunkStream σ κ) → Outcome (ChunkStream σ κ) → Prop
  | .ok s, .ok t => s.owner = t.owner ∧ s.errors = t.errors ∧ s.writable = t.writable
  | .error (.thrown message), .error (.thrown message') => message = message'
  | _, _ => False

/-- The errors and the readiness for more are those of what the subclass was left with. -/
theorem Shows.same {s t : ChunkStream σ κ} {unread' : Bytes} (hs : Shows sub h unread s)
    (ht : Shows sub h unread' t) : s.owner = t.owner ∧ s.errors = t.errors ∧
    s.writable = t.writable := by
  refine ⟨hs.owner_eq.trans ht.owner_eq.symm, ?_⟩
  unfold Shows at hs ht
  cases hstatus : h.status with
  | reading r =>
    rw [hstatus] at hs ht
    obtain ⟨_, -, -, rfl⟩ := hs
    obtain ⟨_, -, -, rfl⟩ := ht
    exact ⟨rfl, rfl⟩
  | idle =>
    rw [hstatus] at hs ht
    obtain ⟨_, _, -, -, rfl⟩ := hs
    obtain ⟨_, _, -, -, rfl⟩ := ht
    exact ⟨rfl, rfl⟩
  | soon =>
    rw [hstatus] at hs ht
    rcases hs with ⟨-, rfl⟩ | ⟨-, _, _, -, -, rfl⟩ <;>
      rcases ht with ⟨-, rfl⟩ | ⟨-, _, _, -, -, rfl⟩ <;> exact ⟨rfl, rfl⟩
  | failed message =>
    rw [hstatus] at hs ht
    dsimp only at hs ht
    cases herror : sub.handleError with
    | some handle =>
      rw [herror] at hs ht
      subst hs ht
      exact ⟨rfl, rfl⟩
    | none =>
      rw [herror] at hs ht
      obtain ⟨_, _, -, -, rfl⟩ := hs
      obtain ⟨_, _, -, -, rfl⟩ := ht
      exact ⟨rfl, rfl⟩
  | thrown message left =>
    rw [hstatus] at hs
    exact hs.elim

/-- Two results of the same bytes are the same. -/
theorem Result.same {out out' : Outcome (ChunkStream σ κ)} {unread' : Bytes}
    (hout : Result sub h unread out) (hout' : Result sub h unread' out') :
    SameOutcome out out' := by
  have hnot : ∀ {unread : Bytes} {s : ChunkStream σ κ} {message : String} {left : Nat},
      h.status = .thrown message left → ¬ Shows sub h unread s := by
    intro unread s message left hstatus hs
    unfold Shows at hs
    rw [hstatus] at hs
    exact hs
  rcases out with (message | _) | s <;> rcases out' with (message' | _) | t
  · obtain ⟨_, hstatus⟩ := hout
    obtain ⟨_, hstatus'⟩ := hout'
    rw [hstatus] at hstatus'
    cases hstatus'
    rfl
  · exact hout'.elim
  · obtain ⟨_, hstatus⟩ := hout
    exact absurd hout' (hnot hstatus)
  · exact hout.elim
  · exact hout.elim
  · exact hout.elim
  · obtain ⟨_, hstatus⟩ := hout'
    exact absurd hout (hnot hstatus)
  · exact hout'.elim
  · exact Shows.same hout hout'

/-- A callback that gets what it waited for. -/
theorem reads_reading {G : Held σ κ → Prop} {o o' : σ} {r : Read κ} {last : Last κ}
    {data rest : Bytes} {c : Config UInt8 (Held σ κ)} (hcall : sub.call r.func data o = (o', last))
    (hlen : data.length = r.length) (hsome : 0 < data.length + rest.length) (hG : G ⟨o, .reading r⟩)
    (hpart : ∀ b more, r.allowLess = true → b ++ more = data →
      G (sub.after (r.length - b.length) (sub.call r.func b o).1 (sub.call r.func b o).2))
    (hr : Reads sub.reader G (sub.after 0 o' last, rest) c) :
    Reads sub.reader G (⟨o, .reading r⟩, data ++ rest) c := by
  refine .take (wants_reading rfl) hlen (List.ne_nil_of_length_pos (by simpa using hsome)) hG ?_ ?_
  · intro b more hless hb
    rw [take_reading rfl, if_pos hless]
    exact hpart b more hless hb
  · rw [take_reading rfl, hcall, hlen, Nat.sub_self, ite_self]
    exact hr

end Png

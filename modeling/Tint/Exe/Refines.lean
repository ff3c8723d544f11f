import Tint.Exe.Version

/-!
# The version resource in a file with an end

The readers of the version resource are given twice: in `VersionInfo` on a file that
has a byte at every position, and in `ExeFile` on one that ends.  What the latter give
by reads inside the file, the former return (`refines_ResourceDataVersionRead`), so what
is shown of them holds of the resources of an executable.
-/

namespace ExeRefines

open FileReader
open Program (Prog)
open VersionInfo (File Units)

/-! ## Readers and programs -/

section Rules

variable {ε α β γ δ : Type} {c : List UInt8} {m : Reader ε α} {prog : Prog ε Nat β}
  {f : α → Reader ε γ} {g : β → Prog ε Nat δ} {R : α → β → Prop} {S : γ → δ → Prop}

/-- What the reader gives at `p` without an error, the program returns. -/
def RefinesAt (c : List UInt8) (p : Nat) (m : Reader ε α) (prog : Prog ε Nat β)
    (R : α → β → Prop) : Prop :=
  ∀ a q, Gives c m p (.ok a) q → ∃ b, ∃ q' : Nat, q = q' ∧ R a b ∧ Program.Returns prog p b q'

/-- From every position inside of the file, the program ends with what the reader gives. -/
def Refines (c : List UInt8) (m : Reader ε α) (prog : Prog ε Nat β) (R : α → β → Prop) : Prop :=
  ∀ p, RefinesAt c p m prog R

/-- Results that are related refine one another. -/
theorem refines_pure {a : α} {b : β} (h : R a b) :
    Refines c (pure a : Reader ε α) (pure b : Prog ε Nat β) R := by
  intro p a' q hgives
  obtain ⟨ha, rfl⟩ := gives_pure.mp hgives
  cases ha
  exact ⟨b, p, rfl, h, .pure b p⟩

theorem refines_throw {e : ε} : Refines c (throw e : Reader ε α) prog R := by
  intro p a q hgives
  cases (gives_throw.mp hgives).1

/-- The position is the state of the program. -/
theorem refines_position :
    Refines c (position : Reader ε Int) (Program.get : Prog ε Nat Nat) fun p n => p = n := by
  intro p a q hgives
  obtain ⟨ha, rfl⟩ := gives_position.mp hgives
  cases ha
  exact ⟨p, p, rfl, rfl, .get p⟩

/-- The same test on both sides fails on both. -/
theorem refines_check {b b' : Bool} (h : b = b') (e e' : ε) :
    Refines c (check b e) (Program.check b' e' : Prog ε Nat PUnit) fun _ _ => True := by
  intro p a q hgives
  obtain ⟨ha, rfl⟩ := gives_check.mp hgives
  split at ha
  · next hb => exact ⟨⟨⟩, p, rfl, trivial, .check (h ▸ hb) e' p⟩
  · cases ha

/-- Refinement goes through two steps, from one position. -/
theorem RefinesAt.bind {p : Nat} (hm : RefinesAt c p m prog R)
    (hf : ∀ a b, R a b → Refines c (f a) (g b) S) : RefinesAt c p (m >>= f) (prog >>= g) S := by
  intro x q hgives
  obtain ⟨a, q', ha, hx⟩ := gives_bind_ok.mp hgives
  obtain ⟨b, n, rfl, hab, hreturns⟩ := hm a q' ha
  obtain ⟨y, n', rfl, hxy, hreturns'⟩ := hf a b hab n x q hx
  exact ⟨y, n', rfl, hxy, hreturns.bind hreturns'⟩

theorem Refines.bind (hm : Refines c m prog R) (hf : ∀ a b, R a b → Refines c (f a) (g b) S) :
    Refines c (m >>= f) (prog >>= g) S := fun p => (hm p).bind hf

/-- What follows knows where it starts. -/
theorem refines_position_bind {f : Int → Reader ε γ} {g : Nat → Prog ε Nat δ}
    (hf : ∀ p : Nat, RefinesAt c p (f p) (g p) S) :
    Refines c (position >>= f) ((Program.get : Prog ε Nat Nat) >>= g) S := by
  intro p x q hgives
  rw [gives_position_bind] at hgives
  obtain ⟨y, q', hq, hxy, hreturns⟩ := hf p x q hgives
  exact ⟨y, q', hq, hxy, (Program.Returns.get p).bind hreturns⟩

/-- Both go on with one value. -/
theorem Refines.bind_eq {prog : Prog ε Nat α} {g : α → Prog ε Nat δ} (hm : Refines c m prog Eq)
    (hf : ∀ a, Refines c (f a) (g a) S) : Refines c (m >>= f) (prog >>= g) S :=
  hm.bind fun a _ h => h ▸ hf a

/-- A loop whose turns keep a relation between the variables. -/
theorem refines_loop {cond : α → Int → Bool} {cond' : β → Nat → Bool} {body : α → Reader ε α}
    {body' : β → Prog ε Nat β} (hcond : ∀ a b (p : Nat), R a b → cond a p = cond' b p)
    (hbody : ∀ a b, R a b → Refines c (body a) (body' b) R) {a : α} {b : β} (h : R a b) :
    Refines c (loop cond body a) (Program.loop cond' body' b) R := by
  intro p a' q hgives
  have hturns := gives_loop.mp hgives
  generalize hp : (p : Int) = p' at hturns
  generalize hr : (.ok a' : Except ε α) = r at hturns
  have hloop : ∃ b', ∃ q' : Nat, q = q' ∧ R a' b' ∧ Program.LoopReturns cond' body' b p b' q' := by
    clear hgives
    induction hturns generalizing b p with
    | done hdone =>
      cases hr
      subst hp
      exact ⟨b, p, rfl, h, .done (hcond _ b p h ▸ hdone)⟩
    | turn hgo hturn _ ih =>
      subst hp
      obtain ⟨b₁, p₁, rfl, h₁, hreturns⟩ := hbody _ b h p _ _ hturn
      obtain ⟨b', q', rfl, h', hrest⟩ := ih h₁ p₁ rfl hr
      exact ⟨b', q', rfl, h', .turn (hcond _ b p h ▸ hgo) hreturns hrest⟩
    | stop _ _ => cases hr
  obtain ⟨b', q', hq, h', hreturns⟩ := hloop
  exact ⟨b', q', hq, h', .loop hreturns⟩

end Rules

/-! ## Numbers, texts and padding -/

section Readers

variable {c : List UInt8} {file : File}

/-- The file has the bytes of the content. -/
def Shows (file : File) (c : List UInt8) : Prop := ∀ i, i < c.length → file i = c.getD i 0

/-- Both read bytes that the file has. -/
theorem refines_READ (h : Shows file c) (n : Nat) :
    Refines c (ExeFile.READ n) (VersionInfo.READ file n) Eq := by
  intro p a q hgives
  obtain ⟨⟨hstart, hend⟩, ha, rfl⟩ := gives_read.mp hgives
  obtain rfl := Except.ok.inj ha
  refine ⟨_, p + n, rfl, ?_, .of_eq fun _ => rfl⟩
  refine List.map_congr_left fun i hi => ?_
  have hlt := List.mem_range.mp hi
  rw [h (p + i) (by omega)]
  rfl

theorem refines_WORD (h : Shows file c) : Refines c ExeFile.WORD (VersionInfo.WORD file) Eq :=
  (refines_READ h 2).bind_eq fun _ => refines_pure rfl

theorem refines_DWORD (h : Shows file c) : Refines c ExeFile.DWORD (VersionInfo.DWORD file) Eq :=
  (refines_READ h 4).bind_eq fun _ => refines_pure rfl

theorem refines_WCHAR (h : Shows file c) : Refines c ExeFile.WCHAR (VersionInfo.WCHAR file) Eq :=
  (refines_READ h 2).bind_eq fun _ => refines_pure rfl

/-- Both read a text, turn by turn. -/
theorem refines_ReadUnicodeUTF16 (h : Shows file c) :
    Refines c ExeFile.ReadUnicodeUTF16 (VersionInfo.ReadUnicodeUTF16 file) Eq := by
  refine (refines_WCHAR h).bind_eq fun data => ?_
  refine Refines.bind_eq (refines_loop (fun a b p hab => ?_) (fun a b hab => ?_) rfl) fun vars => ?_
  · rw [hab]
  · subst hab
    exact (refines_WCHAR h).bind_eq fun next => refines_pure rfl
  · exact refines_pure rfl

/-- Both skip the zeros up to a multiple of four. -/
theorem refines_paddingLoop (h : Shows file c) :
    Refines c (loop (fun _ p => p % 4 ≠ 0) ExeFile.paddingTurn ())
      (Program.loop (fun _ position => position % 4 ≠ 0) (fun _ => do
        let word ← VersionInfo.WORD file
        Program.check (word = 0) "Padding values should be 0, at position: ") ⟨⟩)
      fun _ (_ : PUnit) => True := by
  refine refines_loop (fun _ _ p _ => ?_) (fun _ _ _ => ?_) trivial
  · rw [decide_eq_decide]
    omega
  · exact (refines_WORD h).bind_eq fun word => refines_check rfl _ _

/-- The number of bytes that were skipped: the second position is not before the first. -/
theorem refines_ReadPadding (h : Shows file c) :
    Refines c ExeFile.ReadPadding (VersionInfo.ReadPadding file) fun i n => i = n := by
  intro p a q hgives
  rw [ExeFile.ReadPadding, gives_position_bind, gives_bind_ok] at hgives
  obtain ⟨_, q', hloop, hend⟩ := hgives
  rw [gives_position_bind] at hend
  obtain ⟨ha, rfl⟩ := gives_pure.mp hend
  obtain rfl := Except.ok.inj ha
  have hle := (ExeFile.gives_paddingLoop.mp hloop).forward.1
  obtain ⟨_, n, rfl, -, hreturns⟩ := refines_paddingLoop h p _ _ hloop
  refine ⟨n - p, n, rfl, by omega, ?_⟩
  exact (Program.Returns.get p).bind (hreturns.bind ((Program.Returns.get n).bind (.pure _ n)))

/-! ## Structures -/

/-- What the two readers make of a child, and of a list of them. -/
theorem refines_readChildren {α β : Type} {stop length : Int} {m : ExeFile.Read α}
    {prog : VersionInfo.Read β} {wLength : α → Nat} {wLength' : β → Nat} {f : β → α}
    (h : Shows file c)
    (hm : Refines c m prog fun a b => a = f b) (hlength : ∀ b, wLength (f b) = wLength' b) :
    Refines c (ExeFile.readChildren stop m wLength length)
      (VersionInfo.readChildren file stop prog wLength' length) fun as bs => as = bs.map f := by
  refine Refines.bind (R := fun vars vars' => vars = (vars'.1, vars'.2.map f))
    (refines_loop (fun vars vars' p hvars => ?_) (fun vars vars' hvars => ?_) rfl)
    fun vars vars' hvars => ?_
  · rw [hvars]
  · refine hm.bind fun a b hab => (refines_ReadPadding h).bind fun i n hi => refines_pure ?_
    rw [hvars, hab, hi, hlength, List.map_append]
    rfl
  · rw [hvars]
    exact refines_pure rfl

/-- A string as the reader has it. -/
def stringObj (s : VersionInfo.StringObj) : ExeFile.StringObj :=
  { wLength := s.wLength, wValueLength := s.wValueLength, wType := s.wType, szKey := s.szKey,
    valuePosition := s.valuePosition, value := s.value }

/-- A table as the reader has it. -/
def stringTableObj (t : VersionInfo.StringTableObj) : ExeFile.StringTableObj :=
  { wLength := t.wLength, wValueLength := t.wValueLength, wType := t.wType, szKey := t.szKey,
    children := t.children.map stringObj }

/-- A `Var` as the reader has it. -/
def varObj (v : VersionInfo.VarObj) : ExeFile.VarObj :=
  { wLength := v.wLength, wValueLength := v.wValueLength, wType := v.wType, szKey := v.szKey,
    children := v.children }

/-- The children of an information block as the reader has them. -/
def infoChildren : VersionInfo.InfoChildren → ExeFile.InfoChildren
  | .vars children => .vars (children.map varObj)
  | .tables children => .tables (children.map stringTableObj)

/-- An information block as the reader has it. -/
def infoObj (i : VersionInfo.InfoObj) : ExeFile.InfoObj :=
  { wLength := i.wLength, wValueLength := i.wValueLength, wType := i.wType, szKey := i.szKey,
    children := infoChildren i.children }

/-- A version resource as the reader has it. -/
def versionObj (v : VersionInfo.VersionObj) : ExeFile.VersionObj :=
  { wLength := v.wLength, wValueLength := v.wValueLength, wType := v.wType, szKey := v.szKey,
    valuePosition := v.valuePosition, value := v.value, children := v.children.map infoObj,
    childrenItem := v.childrenItem }

/-- Both read a string of a table. -/
theorem refines_StringRead (h : Shows file c) :
    Refines c ExeFile.StringRead (VersionInfo.StringRead file) fun a b => a = stringObj b := by
  refine (refines_WORD h).bind_eq fun wLength => (refines_WORD h).bind_eq fun wValueLength =>
    (refines_WORD h).bind_eq fun wType => (refines_ReadUnicodeUTF16 h).bind_eq fun szKey =>
    (refines_ReadPadding h).bind fun _ _ _ => refines_position.bind fun i n hi =>
    (refines_ReadUnicodeUTF16 h).bind_eq fun value => refines_pure ?_
  rw [hi]
  rfl

/-- Both read a table of strings. -/
theorem refines_StringTableRead (h : Shows file c) :
    Refines c ExeFile.StringTableRead (VersionInfo.StringTableRead file)
      fun a b => a = stringTableObj b := by
  refine (refines_WORD h).bind_eq fun wLength => (refines_WORD h).bind_eq fun wValueLength =>
    (refines_WORD h).bind_eq fun wType => (refines_ReadUnicodeUTF16 h).bind_eq fun szKey =>
    (refines_check rfl _ _).bind fun _ _ _ => (refines_check rfl _ _).bind fun _ _ _ =>
    (refines_check rfl _ _).bind fun _ _ _ => (refines_ReadPadding h).bind fun i n hi => ?_
  subst hi
  refine (refines_readChildren h (refines_StringRead h) fun _ => rfl).bind fun as bs has =>
    refines_pure ?_
  rw [has]
  rfl

/-- Both read a `Var` with its translations. -/
theorem refines_VarRead (h : Shows file c) :
    Refines c ExeFile.VarRead (VersionInfo.VarRead file) fun a b => a = varObj b := by
  refine (refines_WORD h).bind_eq fun wLength => (refines_WORD h).bind_eq fun wValueLength =>
    (refines_WORD h).bind_eq fun wType => (refines_check rfl _ _).bind fun _ _ _ =>
    (refines_ReadUnicodeUTF16 h).bind_eq fun szKey => (refines_check rfl _ _).bind fun _ _ _ =>
    (refines_ReadPadding h).bind fun _ _ _ => ?_
  refine Refines.bind_eq (refines_loop (fun vars vars' p hvars => ?_)
    (fun vars vars' hvars => ?_) rfl)
    fun vars => refines_pure rfl
  · rw [hvars]
  · subst hvars
    exact (refines_DWORD h).bind_eq fun child => refines_pure rfl

/-- Both read the children of an information block, as its key says. -/
theorem refines_InfoChildrenRead (h : Shows file c) (wLength : Nat) (key : Units) (n : Nat) :
    Refines c (ExeFile.InfoChildrenRead wLength key n)
      (VersionInfo.InfoChildrenRead file wLength key n)
      fun a b => a = infoChildren b := by
  unfold ExeFile.InfoChildrenRead VersionInfo.InfoChildrenRead
  split
  · refine (refines_VarRead h).bind fun a b hab => refines_pure ?_
    rw [hab]
    rfl
  · split
    · refine (refines_readChildren h (refines_StringTableRead h) fun _ => rfl).bind fun as bs has =>
        refines_pure ?_
      rw [has]
      rfl
    · exact refines_throw

/-- Both read an information block. -/
theorem refines_VarFileOrStringFileInfoRead (h : Shows file c) :
    Refines c ExeFile.VarFileOrStringFileInfoRead (VersionInfo.VarFileOrStringFileInfoRead file)
      fun a b => a = infoObj b := by
  refine (refines_WORD h).bind_eq fun wLength => (refines_WORD h).bind_eq fun wValueLength =>
    (refines_check rfl _ _).bind fun _ _ _ => (refines_WORD h).bind_eq fun wType =>
    (refines_ReadUnicodeUTF16 h).bind_eq fun szKey => (refines_ReadPadding h).bind fun i n hi => ?_
  subst hi
  refine (refines_InfoChildrenRead h _ _ n).bind fun a b hab => refines_pure ?_
  rw [hab]
  rfl

/-- Both read the fixed information. -/
theorem refines_FixedFileInfoRead (h : Shows file c) :
    Refines c ExeFile.FixedFileInfoRead (VersionInfo.FixedFileInfoRead file) Eq :=
  (refines_DWORD h).bind_eq fun _ =>
    (refines_DWORD h).bind_eq fun _ => (refines_DWORD h).bind_eq fun _ =>
    (refines_DWORD h).bind_eq fun _ => (refines_DWORD h).bind_eq fun _ =>
    (refines_DWORD h).bind_eq fun _ => (refines_DWORD h).bind_eq fun _ =>
    (refines_DWORD h).bind_eq fun _ => (refines_DWORD h).bind_eq fun _ =>
    (refines_DWORD h).bind_eq fun _ => (refines_DWORD h).bind_eq fun _ =>
    (refines_DWORD h).bind_eq fun _ => (refines_DWORD h).bind_eq fun _ => refines_pure rfl

/-- Both read the value of the resource, where it has one. -/
theorem refines_ValueRead (h : Shows file c) (n p : Nat) :
    RefinesAt c p (ExeFile.ValueRead n p) (VersionInfo.ValueRead file n p) Eq := by
  unfold ExeFile.ValueRead VersionInfo.ValueRead
  split
  · intro x q hgives
    obtain ⟨value, q', hvalue, hrest⟩ := gives_bind_ok.mp hgives
    obtain ⟨_, hblock, -⟩ := ExeFile.block_FixedFileInfoRead (c := c)
    have hq : q' = p + 52 := ((hblock _ _ _).mp hvalue).2.2
    obtain ⟨_, m, rfl, rfl, hreturns⟩ := refines_FixedFileInfoRead h p value q' hvalue
    simp only [gives_position_bind, gives_check_bind_ok, gives_pure] at hrest
    obtain ⟨hlength, hsignature, hx, rfl⟩ := hrest
    have hcheck : decide (m - p = n) = true := by
      rw [decide_eq_true_iff] at hlength ⊢
      omega
    refine ⟨some value, m, rfl, Except.ok.inj hx, hreturns.bind ?_⟩
    exact (Program.Returns.get m).bind ((Program.Returns.check hcheck _ m).bind
      ((Program.Returns.check hsignature _ m).bind (.pure _ m)))
  · exact refines_pure rfl p

/-- **The version resource** that is read inside the file is the one that is read of a
file with the same bytes and no end. -/
theorem refines_ResourceDataVersionRead (h : Shows file c) :
    Refines c ExeFile.ResourceDataVersionRead (VersionInfo.ResourceDataVersionRead file)
      fun a b => a = versionObj b := by
  refine (refines_WORD h).bind_eq fun wLength => (refines_WORD h).bind_eq fun wValueLength =>
    (refines_WORD h).bind_eq fun wType => (refines_ReadUnicodeUTF16 h).bind_eq fun szKey =>
    (refines_check rfl _ _).bind fun _ _ _ => (refines_ReadPadding h).bind fun i n hi =>
    refines_position_bind fun p => (refines_ValueRead h wValueLength p).bind fun value _ hvalue =>
    (refines_ReadPadding h).bind fun j k hj => ?_
  subst hi hj hvalue
  refine (refines_readChildren h (refines_VarFileOrStringFileInfoRead h) fun _ => rfl).bind
    fun as bs has => (refines_WORD h).bind_eq fun childrenItem => refines_pure ?_
  rw [has]
  rfl

end Readers

end ExeRefines

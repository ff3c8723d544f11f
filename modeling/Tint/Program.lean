/-!
# Programs with loops

A program changes a state, returns a value, and may stop with an error.  Its
`while` loops are given fuel: a loop that needs more turns than there is fuel
stops with `outOfFuel`, so a program *returns* from a state if it does with all
fuel from some amount on.

* `Returns` -- the program returns this value and this state, and nothing else
  with any fuel; `Returns.bind`, `Returns.loop` and the rules for the turns of a
  loop derive it for whole programs;
* `loopFor_cases`, `loopFor_invariant` -- what a loop that returned has done;
* `Keeps` -- all a program can do to the state satisfies a relation.
-/

namespace Program

universe u v w x

/-- Why a program has no result. -/
inductive Stop (ε : Type u)
  | failed (e : ε)
  | outOfFuel
  deriving Repr

/-- A program over states `σ` with errors `ε`; the first argument is the fuel. -/
def Prog (ε : Type u) (σ : Type v) (α : Type w) := Nat → σ → Except (Stop ε) (α × σ)

section Definitions

variable {ε : Type u} {σ : Type v}

/-- Two programs one after the other. -/
def Prog.bind {α β : Type w} (m : Prog ε σ α) (f : α → Prog ε σ β) : Prog ε σ β := fun fuel s =>
  match m fuel s with
  | .ok (a, s') => f a fuel s'
  | .error e => .error e

instance : Monad (Prog ε σ) where
  pure a := fun _ s => .ok (a, s)
  bind := Prog.bind

/-- The state. -/
def get : Prog ε σ σ := fun _ s => .ok (s, s)

/-- An assertion. -/
def check (c : Bool) (e : ε) : Prog ε σ PUnit := fun _ s =>
  if c then .ok (⟨⟩, s) else .error (.failed e)

variable {β : Type w}

/-- At most `turns` turns of a loop. -/
def loopFor (cond : β → σ → Bool) (body : β → Prog ε σ β) :
    Nat → β → Nat → σ → Except (Stop ε) (β × σ)
  | 0, _, _, _ => .error .outOfFuel
  | turns + 1, b, fuel, s =>
    if cond b s then Prog.bind (body b) (loopFor cond body turns) fuel s else .ok (b, s)

/-- `while (cond) body`, over the variables `b` of the loop. -/
def loop (cond : β → σ → Bool) (body : β → Prog ε σ β) (b : β) : Prog ε σ β := fun fuel s =>
  loopFor cond body fuel b fuel s

end Definitions

variable {ε : Type u} {σ : Type v} {α β : Type w}

/-! ## Returning -/

/-- The program returns `a` and the state `s'`: with enough fuel it does, and
with any fuel it returns nothing else. -/
structure Returns (m : Prog ε σ α) (s : σ) (a : α) (s' : σ) : Prop where
  enough : ∃ bound, ∀ fuel, bound ≤ fuel → m fuel s = .ok (a, s')
  only : ∀ fuel r, m fuel s = .ok r → r = (a, s')

/-- A program that does not look at its fuel. -/
theorem Returns.of_eq {m : Prog ε σ α} {s s' : σ} {a : α} (h : ∀ fuel, m fuel s = .ok (a, s')) :
    Returns m s a s' where
  enough := ⟨0, fun fuel _ => h fuel⟩
  only := fun fuel r hr => by simpa [h fuel, eq_comm] using hr

theorem Returns.pure (a : α) (s : σ) : Returns (pure a : Prog ε σ α) s a s :=
  Returns.of_eq fun _ => rfl

theorem Returns.get (s : σ) : Returns (get : Prog ε σ σ) s s s := Returns.of_eq fun _ => rfl

theorem Returns.check {c : Bool} (h : c = true) (e : ε) (s : σ) :
    Returns (check c e : Prog ε σ PUnit) s ⟨⟩ s :=
  Returns.of_eq fun _ => by simp [Program.check, h]

/-- What a sequence that returned has done. -/
theorem bind_ok {m : Prog ε σ α} {f : α → Prog ε σ β} {fuel : Nat} {s : σ} {r : β × σ}
    (h : (m >>= f) fuel s = .ok r) :
    ∃ a s', m fuel s = .ok (a, s') ∧ f a fuel s' = .ok r := by
  change Prog.bind m f fuel s = .ok r at h
  unfold Prog.bind at h
  split at h
  · next a s' hm => exact ⟨a, s', hm, h⟩
  · cases h

/-- A sequence goes on with what its first part returned. -/
theorem bind_eq {m : Prog ε σ α} {f : α → Prog ε σ β} {fuel : Nat} {s s' : σ} {a : α}
    (h : m fuel s = .ok (a, s')) : (m >>= f) fuel s = f a fuel s' := by
  change Prog.bind m f fuel s = _
  rw [Prog.bind, h]

/-- The first part of a sequence that returned can be taken off. -/
theorem Returns.step {m : Prog ε σ α} {f : α → Prog ε σ β} {fuel : Nat} {s s' : σ} {a : α}
    {r : β × σ} (h : Returns m s a s') (hr : (m >>= f) fuel s = .ok r) : f a fuel s' = .ok r := by
  obtain ⟨a', s'', hm, hf⟩ := bind_ok hr
  cases h.only fuel _ hm
  exact hf

/-- Sequences. -/
theorem Returns.bind {m : Prog ε σ α} {f : α → Prog ε σ β} {s s' t : σ} {a : α} {b : β}
    (hm : Returns m s a s') (hf : Returns (f a) s' b t) : Returns (m >>= f) s b t where
  enough := by
    obtain ⟨k, hk⟩ := hm.enough
    obtain ⟨l, hl⟩ := hf.enough
    refine ⟨max k l, fun fuel hfuel => ?_⟩
    rw [bind_eq (hk fuel (by omega)), hl fuel (by omega)]
  only := fun fuel _ hr => hf.only fuel _ (hm.step hr)

/-- An assertion that did not fail. -/
theorem check_ok {c : Bool} {e : ε} {f : PUnit → Prog ε σ β} {fuel : Nat} {s : σ} {r : β × σ}
    (h : (check c e >>= f) fuel s = .ok r) : c = true ∧ f ⟨⟩ fuel s = .ok r := by
  obtain ⟨_, s', hc, hf⟩ := bind_ok h
  unfold check at hc
  split at hc
  · next hcond =>
    cases hc
    exact ⟨hcond, hf⟩
  · cases hc

/-! ## Loops -/

section Loop

variable {cond : β → σ → Bool} {body : β → Prog ε σ β}

/-- The turns of a loop return `c` and the state `t`. -/
structure LoopReturns (cond : β → σ → Bool) (body : β → Prog ε σ β) (b : β) (s : σ) (c : β)
    (t : σ) : Prop where
  enough : ∃ bound, ∀ turns fuel, bound ≤ turns → bound ≤ fuel →
    loopFor cond body turns b fuel s = .ok (c, t)
  only : ∀ turns fuel r, loopFor cond body turns b fuel s = .ok r → r = (c, t)

/-- The loop ends. -/
theorem LoopReturns.done {b : β} {s : σ} (h : cond b s = false) :
    LoopReturns cond body b s b s where
  enough := ⟨1, fun turns fuel hturns _ => by
    obtain ⟨n, rfl⟩ : ∃ n, turns = n + 1 := ⟨turns - 1, by omega⟩
    simp [loopFor, h]⟩
  only := fun turns fuel r hr => by
    cases turns with
    | zero => cases hr
    | succ n => simpa [loopFor, h, eq_comm] using hr

/-- The loop turns once more. -/
theorem LoopReturns.turn {b b' c : β} {s s' t : σ} (h : cond b s = true)
    (hbody : Returns (body b) s b' s') (hrest : LoopReturns cond body b' s' c t) :
    LoopReturns cond body b s c t where
  enough := by
    obtain ⟨k, hk⟩ := hbody.enough
    obtain ⟨l, hl⟩ := hrest.enough
    refine ⟨max k (l + 1), fun turns fuel hturns hfuel => ?_⟩
    obtain ⟨n, rfl⟩ : ∃ n, turns = n + 1 := ⟨turns - 1, by omega⟩
    rw [loopFor, if_pos h]
    exact (bind_eq (hk fuel (by omega))).trans (hl n fuel (by omega) (by omega))
  only := fun turns fuel r hr => by
    cases turns with
    | zero => cases hr
    | succ n =>
      rw [loopFor, if_pos h] at hr
      exact hrest.only n fuel r (hbody.step hr)

/-- The loop, from its turns. -/
theorem Returns.loop {b c : β} {s t : σ} (h : LoopReturns cond body b s c t) :
    Returns (loop cond body b) s c t where
  enough := by
    obtain ⟨k, hk⟩ := h.enough
    exact ⟨k, fun fuel hfuel => hk fuel fuel hfuel hfuel⟩
  only := fun fuel r hr => h.only fuel fuel r hr

/-- What the turns of a loop that returned have done. -/
theorem loopFor_cases {turns fuel : Nat} {b : β} {s : σ} {r : β × σ}
    (h : loopFor cond body turns b fuel s = .ok r) :
    (cond b s = false ∧ r = (b, s)) ∨
      (cond b s = true ∧ ∃ turns' b' s', body b fuel s = .ok (b', s') ∧
        loopFor cond body turns' b' fuel s' = .ok r) := by
  cases turns with
  | zero => cases h
  | succ n =>
    rw [loopFor] at h
    split at h
    · next hcond =>
      obtain ⟨b', s', hbody, hrest⟩ := bind_ok h
      exact .inr ⟨hcond, n, b', s', hbody, hrest⟩
    · next hcond =>
      cases h
      exact .inl ⟨by simpa using hcond, rfl⟩

/-- An invariant of the turns holds when the loop returns. -/
theorem loopFor_invariant {I : β → σ → Prop} {fuel : Nat}
    (hstep : ∀ b s b' s', I b s → body b fuel s = .ok (b', s') → I b' s')
    {turns : Nat} {b c : β} {s t : σ} (hinv : I b s)
    (h : loopFor cond body turns b fuel s = .ok (c, t)) : I c t := by
  induction turns generalizing b s with
  | zero => cases h
  | succ n ih =>
    rw [loopFor] at h
    split at h
    · obtain ⟨b', s', hbody, hrest⟩ := bind_ok h
      exact ih (hstep b s b' s' hinv hbody) hrest
    · cases h
      exact hinv

end Loop

/-! ## What a program does to the state -/

/-- Every run of the program relates the states before and after it. -/
def Keeps (R : σ → σ → Prop) (m : Prog ε σ α) : Prop :=
  ∀ fuel s a s', m fuel s = .ok (a, s') → R s s'

section Keeps

variable {R : σ → σ → Prop}

theorem Keeps.pure (hrefl : ∀ s, R s s) (a : α) : Keeps R (pure a : Prog ε σ α) := by
  intro fuel s b s' h
  cases h
  exact hrefl s

theorem Keeps.get (hrefl : ∀ s, R s s) : Keeps R (get : Prog ε σ σ) := by
  intro fuel s b s' h
  cases h
  exact hrefl s

/-- A check keeps what is reflexive. -/
theorem Keeps.check (hrefl : ∀ s, R s s) (c : Bool) (e : ε) :
    Keeps R (check c e : Prog ε σ PUnit) := by
  intro fuel s a s' h
  unfold Program.check at h
  split at h
  · cases h
    exact hrefl s
  · cases h

theorem Keeps.bind (htrans : ∀ s t u, R s t → R t u → R s u) {m : Prog ε σ α}
    {f : α → Prog ε σ β} (hm : Keeps R m) (hf : ∀ a, Keeps R (f a)) : Keeps R (m >>= f) := by
  intro fuel s b t h
  obtain ⟨a, s', hma, hfa⟩ := bind_ok h
  exact htrans _ _ _ (hm fuel s a s' hma) (hf a fuel s' b t hfa)

/-- A loop keeps what its turns keep. -/
theorem Keeps.loop (hrefl : ∀ s, R s s) (htrans : ∀ s t u, R s t → R t u → R s u)
    {cond : β → σ → Bool} {body : β → Prog ε σ β} (hbody : ∀ b, Keeps R (body b)) (b : β) :
    Keeps R (loop cond body b) := by
  intro fuel s c t h
  exact loopFor_invariant (I := fun _ s' => R s s')
    (fun b' u b'' u' hinv hb => htrans _ _ _ hinv (hbody b' fuel u b'' u' hb)) (hrefl s) h

end Keeps

end Program

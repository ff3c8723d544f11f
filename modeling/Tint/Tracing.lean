import Mathlib.Logic.Relation

/-!
# Objects that keep objects

A collector may take what nobody keeps: the objects that no root leads to by what the
objects on the way hold.

* `Kept.holds` -- what a kept object holds is kept;
* `Kept.inside` -- what is kept lies in every set that has the roots and is closed.
-/

namespace Tracing

variable {ι : Type*}

/-- Which objects are held from outside, and which object holds which. -/
structure Graph (ι : Type*) where
  root : ι → Prop
  holds : ι → ι → Prop

/-- A root leads here. -/
def Graph.Kept (g : Graph ι) (i : ι) : Prop := ∃ r, g.root r ∧ Relation.ReflTransGen g.holds r i

variable {g : Graph ι} {i j : ι}

theorem Kept.root (h : g.root i) : g.Kept i := ⟨i, h, .refl⟩

theorem Kept.holds (h : g.Kept i) (hij : g.holds i j) : g.Kept j := by
  obtain ⟨r, hr, hpath⟩ := h
  exact ⟨r, hr, hpath.tail hij⟩

/-- A closed set that has the roots has all that is kept. -/
theorem Kept.inside {M : ι → Prop} (hroot : ∀ r, g.root r → M r)
    (hholds : ∀ i j, M i → g.holds i j → M j) (h : g.Kept i) : M i := by
  obtain ⟨r, hr, hpath⟩ := h
  induction hpath with
  | refl => exact hroot r hr
  | tail _ hstep ih => exact hholds _ _ ih hstep

end Tracing

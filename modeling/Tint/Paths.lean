import Mathlib.Data.List.Basic
import Mathlib.Data.List.Infix

/-!
# Following a path from a directory

A directory is the list of the names that lead to it from a root, and a path is a
list of parts: stay, go up, go into what has a name.  `resolve` follows a path; at
the root, up leads nowhere.

Taken by itself a path goes some levels `ups` above where it starts and from there
down some `names`.  `resolve_eq` says that this is all that counts, and
`prefix_resolve_iff` when a path leads to a place within the directory it starts
from.
-/

namespace Paths

variable {α : Type*}

inductive PathPart (α : Type*)
  | here
  | up
  | into (name : α)
  deriving DecidableEq

/-- Follow one part. -/
def follow (dir : List α) : PathPart α → List α
  | .here => dir
  | .up => dir.dropLast
  | .into name => dir ++ [name]

/-- Follow all parts. -/
def resolve (dir : List α) (path : List (PathPart α)) : List α := path.foldl follow dir

/-- Where a path leads, from wherever it starts. -/
structure Relative (α : Type*) where
  ups : Nat
  names : List α

def Relative.follow : Relative α → PathPart α → Relative α
  | r, .here => r
  | ⟨ups, []⟩, .up => ⟨ups + 1, []⟩
  | ⟨ups, name :: names⟩, .up => ⟨ups, (name :: names).dropLast⟩
  | ⟨ups, names⟩, .into name => ⟨ups, names ++ [name]⟩

def relative (path : List (PathPart α)) : Relative α := path.foldl Relative.follow ⟨0, []⟩

/-- The place that `r` says, seen from a directory. -/
def Relative.seenFrom (r : Relative α) (dir : List α) : List α :=
  dir.take (dir.length - r.ups) ++ r.names

/-- The place is inside the directory, or is the directory. -/
def Relative.Within (r : Relative α) (dir : List α) : Prop :=
  dir.drop (dir.length - r.ups) <+: r.names

@[simp] theorem resolve_nil (dir : List α) : resolve dir [] = dir := rfl

@[simp] theorem resolve_cons (dir : List α) (part : PathPart α) (path : List (PathPart α)) :
    resolve dir (part :: path) = resolve (follow dir part) path := rfl

theorem resolve_append (dir : List α) (path more : List (PathPart α)) :
    resolve dir (path ++ more) = resolve (resolve dir path) more := List.foldl_append

/-- Names alone lead down. -/
theorem resolve_into (dir names : List α) : resolve dir (names.map .into) = dir ++ names := by
  induction names generalizing dir with
  | nil => exact (List.append_nil dir).symm
  | cons name names ih =>
      rw [List.map_cons, resolve_cons, ih]
      exact List.append_assoc dir [name] names

/-- One part, from the directory and by itself. -/
theorem seenFrom_follow (r : Relative α) (part : PathPart α) (dir : List α) :
    (r.follow part).seenFrom dir = follow (r.seenFrom dir) part := by
  obtain ⟨ups, names⟩ := r
  cases part with
  | here => rfl
  | into name => exact (List.append_assoc _ names [name]).symm
  | up =>
      cases names with
      | nil =>
          simp only [Relative.follow, Relative.seenFrom, follow, List.append_nil]
          rw [List.dropLast_eq_take, List.take_take, List.length_take]
          congr 1
          omega
      | cons name names =>
          simp only [Relative.follow, Relative.seenFrom, follow]
          exact (List.dropLast_append_of_ne_nil (List.cons_ne_nil name names)).symm

theorem resolve_seenFrom (dir : List α) (path : List (PathPart α)) (r : Relative α) :
    resolve (r.seenFrom dir) path = (path.foldl Relative.follow r).seenFrom dir := by
  induction path generalizing r with
  | nil => rfl
  | cons part path ih => rw [resolve_cons, ← seenFrom_follow, ih, List.foldl_cons]

/-- What a path leads to. -/
theorem resolve_eq (dir : List α) (path : List (PathPart α)) :
    resolve dir path = (relative path).seenFrom dir := by
  have hstart : (Relative.mk 0 []).seenFrom dir = dir := by
    simp [Relative.seenFrom]
  calc resolve dir path = resolve ((Relative.mk 0 []).seenFrom dir) path := by rw [hstart]
    _ = (relative path).seenFrom dir := resolve_seenFrom dir path ⟨0, []⟩

/-- The place is within the directory. -/
theorem prefix_resolve_iff (dir : List α) (path : List (PathPart α)) :
    dir <+: resolve dir path ↔ (relative path).Within dir := by
  rw [resolve_eq]
  unfold Relative.seenFrom Relative.Within
  conv_lhs =>
    arg 1
    rw [← List.take_append_drop (dir.length - (relative path).ups) dir]
  exact List.prefix_append_right_inj _

/-- How deep the place is. -/
theorem length_resolve (dir : List α) (path : List (PathPart α)) :
    (resolve dir path).length =
      dir.length - (relative path).ups + (relative path).names.length := by
  rw [resolve_eq]
  unfold Relative.seenFrom
  rw [List.length_append, List.length_take]
  omega

/-- No path leads from everywhere to the same place. -/
theorem exists_resolve_ne [Inhabited α] (path : List (PathPart α)) :
    ∃ dir, resolve dir path ≠ resolve [] path := by
  refine ⟨List.replicate ((relative path).ups + 1) default, ?_⟩
  intro hsame
  have hlen := congrArg List.length hsame
  rw [length_resolve, length_resolve, List.length_replicate, List.length_nil] at hlen
  omega

end Paths

/-
Reductions as trees.

A reduction that combines values two by two, in whatever order, is a binary tree with the
values at its leaves.  If the operation is associative the tree may be flattened, and if it is
commutative as well the order of the leaves does not matter either.
-/
import Mathlib.Algebra.BigOperators.Group.Finset.Basic
import Mathlib.Data.List.Perm.Basic

/-- A tree of combinations, with labels at its leaves. -/
inductive CombineTree (ι : Type*) where
  | leaf (i : ι)
  | node (l r : CombineTree ι)

namespace CombineTree

variable {ι β : Type*}

/-- The value of a tree. -/
def eval (combine : β → β → β) (value : ι → β) : CombineTree ι → β
  | leaf i => value i
  | node l r => combine (l.eval combine value) (r.eval combine value)

/-- The labels, from left to right. -/
def leaves : CombineTree ι → List ι
  | leaf i => [i]
  | node l r => l.leaves ++ r.leaves

/-- The left fold of the values of some labels; there is at least one. -/
def foldValues (combine : β → β → β) (value : ι → β) : List ι → Option β
  | [] => none
  | i :: rest => some (rest.foldl (fun acc j => combine acc (value j)) (value i))

end CombineTree

import Mathlib.Logic.Relation
import Mathlib.Tactic.Common

/-!
# Forests of numbered nodes

A forest is given by the parent of every node, with `0` for none, and a child has a smaller number
than its parent. The ancestors of a node then form a chain that rises, so a walk upwards finds any
ancestor, and a jump to an ancestor that is not above the one looked for loses nothing.

## Main definitions

* `Rising`: parents are above their children.
* `Ancestor`: the ancestors of a node, the node itself among them.

## Main results

* `ancestor_jump`: a jump along the chain.
* `ancestor_parent`: one step along the chain.
-/

namespace Subvol.Lib

open Relation

/-- Parents are above their children. -/
def Rising (parent : ℕ → ℕ) : Prop := ∀ x, parent x = 0 ∨ x < parent x

/-- The ancestors of a node, the node itself among them. -/
def Ancestor (parent : ℕ → ℕ) : ℕ → ℕ → Prop := ReflTransGen fun x y => y ≠ 0 ∧ parent x = y

variable {parent : ℕ → ℕ} {x y a : ℕ}

theorem Ancestor.le (hup : Rising parent) (h : Ancestor parent x a) : x ≤ a := by
  induction h with
  | refl => exact Nat.le_refl _
  | @tail y z _ hstep ih =>
    obtain ⟨hne, rfl⟩ := hstep
    exact Nat.le_trans ih (Nat.le_of_lt ((hup y).resolve_left hne))

/-- A jump to an ancestor that is not above the one looked for. -/
theorem ancestor_jump (hup : Rising parent) (hy : Ancestor parent x y) (hle : y ≤ a) :
    Ancestor parent x a ↔ Ancestor parent y a := by
  refine ⟨fun h => ?_, fun h => ReflTransGen.trans hy h⟩
  have hunique : Relator.RightUnique fun x y => y ≠ 0 ∧ parent x = y := by
    rintro u v w ⟨-, rfl⟩ ⟨-, rfl⟩
    rfl
  rcases ReflTransGen.total_of_right_unique hunique hy h with h' | h'
  · exact h'
  · obtain rfl := Nat.le_antisymm hle (Ancestor.le hup h')
    exact .refl

/-- One step up from a node that is not the one looked for. -/
theorem ancestor_parent (parent : ℕ → ℕ) (hne : x ≠ a) :
    Ancestor parent x a ↔ parent x ≠ 0 ∧ Ancestor parent (parent x) a := by
  constructor
  · intro h
    rcases ReflTransGen.cases_head h with heq | ⟨y, ⟨hy, rfl⟩, h⟩
    · exact absurd heq hne
    · exact ⟨hy, h⟩
  · rintro ⟨hy, h⟩
    exact ReflTransGen.head ⟨hy, rfl⟩ h

end Subvol.Lib

import Mathlib.Tactic.Common

/-!
# Loops with a bound on their turns

A loop repeats a step that ends it with a result, goes on with another state, or fails.

## Main definitions

* `Turn`, `loop`.

## Main results

* `loop_succ_next`, `loop_succ_done`, `loop_none`: one step of a loop.
-/

namespace Subvol.Lib

/-- What one step of a loop comes to. -/
inductive Turn (σ α : Type*)
  | next (s : σ)
  | done (a : α)

variable {σ α : Type*}

/-- A loop of at most the given number of turns, `none` if they are used up or a step fails. -/
def loop (step : σ → Option (Turn σ α)) : ℕ → σ → Option α
  | 0, _ => none
  | fuel + 1, s =>
    match step s with
    | none => none
    | some (.next s') => loop step fuel s'
    | some (.done a) => some a

variable {step : σ → Option (Turn σ α)} {s s' : σ} {a : α}

theorem loop_succ_next (h : step s = some (.next s')) (fuel : ℕ) :
    loop step (fuel + 1) s = loop step fuel s' := by
  rw [loop, h]

theorem loop_succ_done (h : step s = some (.done a)) (fuel : ℕ) :
    loop step (fuel + 1) s = some a := by
  rw [loop, h]

theorem loop_none (h : step s = none) (fuel : ℕ) : loop step fuel s = none := by
  cases fuel with
  | zero => rfl
  | succ fuel => rw [loop, h]

end Subvol.Lib

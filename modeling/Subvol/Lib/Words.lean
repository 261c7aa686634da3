import Mathlib.Data.List.Basic
import Mathlib.Tactic.Common

/-!
# Words in memory

A piece of memory as the list of its words. A copy moves words from one place to another one that
may overlap it, a write puts words in place of as many others.

## Main definitions

* `copyWords`: `n` words copied from one place to another.
* `writeWords`: words written, if there is room for them.

## Main results

* `copyWords_down`, `copyWords_up`: a copy that closes a gap, and one that makes room.
* `getElem?_writeWords`, `take_writeWords`: what is there after a write.
* `writeWords_over`: as many words written as were there.
-/

namespace Subvol.Lib

variable {α : Type*} {a b c r : List α}

/-- Copy the `n` words from `src` on to `dst`. -/
def copyWords (mem : List α) (src dst n : ℕ) : List α :=
  mem.take dst ++ (mem.drop src).take n ++ mem.drop (dst + n)

/-- The words `ws` put in place of those from `dst` on; `none` where memory ends. -/
def writeWords (mem : List α) (dst : ℕ) (ws : List α) : Option (List α) :=
  if dst + ws.length ≤ mem.length then
    some (mem.take dst ++ ws ++ mem.drop (dst + ws.length))
  else none

/-! ### Copies -/

theorem copyWords_down :
    copyWords (a ++ b ++ c ++ r) (a.length + b.length) a.length c.length =
      a ++ c ++ (a ++ b ++ c ++ r).drop (a.length + c.length) := by
  have htake : (a ++ b ++ c ++ r).take a.length = a := by simp [List.append_assoc]
  have hdrop : (a ++ b ++ c ++ r).drop (a.length + b.length) = c ++ r := by
    rw [List.append_assoc (a ++ b), ← List.length_append, List.drop_left]
  rw [copyWords, htake, hdrop, List.take_left]

theorem copyWords_up {n : ℕ} :
    copyWords (a ++ b ++ r) a.length (a.length + n) b.length =
      (a ++ b ++ r).take (a.length + n) ++ b ++ (a ++ b ++ r).drop (a.length + n + b.length) := by
  have hdrop : (a ++ b ++ r).drop a.length = b ++ r := by
    rw [List.append_assoc, List.drop_left]
  rw [copyWords, hdrop, List.take_left]

/-- Closing a gap leaves as many words behind what was moved as the gap had. -/
theorem copyWords_close : ∃ junk, junk.length = b.length ∧
    copyWords (a ++ b ++ c ++ r) (a.length + b.length) a.length c.length =
      a ++ c ++ junk ++ r := by
  refine ⟨(b ++ c).drop c.length, by simp, ?_⟩
  have hdrop : (a ++ b ++ c ++ r).drop (a.length + c.length) = (b ++ c).drop c.length ++ r := by
    rw [List.append_assoc a, List.append_assoc a, ← List.drop_drop, List.drop_left,
      List.drop_append_of_le_length (by simp)]
  rw [copyWords_down, hdrop, ← List.append_assoc]

/-! ### Writes -/

section Write

variable {mem mem' ws : List α} {dst : ℕ}

theorem getElem?_writeWords (h : writeWords mem dst ws = some mem') {i : ℕ} (hi : i < ws.length) :
    mem'[dst + i]? = ws[i]? := by
  rw [writeWords] at h
  split_ifs at h with hroom
  have hdst : (mem.take dst).length = dst := List.length_take_of_le (by omega)
  rw [← Option.some.inj h, List.append_assoc, List.getElem?_append_right (by omega), hdst,
    Nat.add_sub_cancel_left, List.getElem?_append_left hi]

theorem take_writeWords (h : writeWords mem dst ws = some mem') :
    mem'.take dst = mem.take dst := by
  rw [writeWords] at h
  split_ifs at h with hroom
  have hdst : (mem.take dst).length = dst := List.length_take_of_le (by omega)
  rw [← Option.some.inj h, List.append_assoc]
  nth_rewrite 1 [← hdst]
  rw [List.take_left]

theorem writeWords_over (a r : List α) (hlen : ws.length = b.length) :
    writeWords (a ++ b ++ r) a.length ws = some (a ++ ws ++ r) := by
  have hroom : a.length + ws.length ≤ (a ++ b ++ r).length := by
    simp only [List.length_append]
    omega
  have htake : (a ++ b ++ r).take a.length = a := by rw [List.append_assoc, List.take_left]
  have hdrop : (a ++ b ++ r).drop (a.length + ws.length) = r := by
    rw [hlen, ← List.length_append, List.drop_left]
  rw [writeWords, if_pos hroom, htake, hdrop]

end Write

end Subvol.Lib

import Mathlib.Data.List.Chain
import Mathlib.Data.List.Nodup
import Mathlib.Tactic.Common

/-!
# Numbered lists

Lists whose elements carry a number, as the records of a log carry their sequence number. A list
is consecutive when each element has the number after that of the one before.

## Main definitions

* `Consecutive f l`: the numbers `f` of the elements of `l` count up by one.

## Main results

* `Consecutive.pairwise_lt`: the numbers of a consecutive list increase.
* `mergeSort_eq_of_perm`: sorting by the number gives back the list with increasing numbers.
-/

namespace Subvol.Lib

variable {α : Type*} {f : α → ℕ} {l : List α}

/-- The numbers of the elements count up by one. -/
def Consecutive (f : α → ℕ) (l : List α) : Prop := l.IsChain fun a b => f a + 1 = f b

namespace Consecutive

theorem nil : Consecutive f [] := List.IsChain.nil

theorem tail {a : α} (h : Consecutive f (a :: l)) : Consecutive f l := List.IsChain.tail h

theorem right_of_append {l' : List α} (h : Consecutive f (l ++ l')) : Consecutive f l' :=
  List.IsChain.right_of_append h

/-- A list is prolonged by the element with the next number. -/
theorem concat {x : α} (h : Consecutive f l) (hx : ∀ y ∈ l.getLast?, f y + 1 = f x) :
    Consecutive f (l ++ [x]) := by
  apply List.IsChain.append h (List.isChain_singleton x)
  intro y hy z hz
  cases Option.mem_some_iff.mp hz
  exact hx y hy

theorem pairwise_lt (h : Consecutive f l) : l.Pairwise fun a b => f a < f b := by
  have : Trans (fun a b : α => f a < f b) (fun a b => f a < f b) (fun a b => f a < f b) :=
    ⟨fun h₁ h₂ => lt_trans h₁ h₂⟩
  rw [← List.isChain_iff_pairwise]
  apply List.IsChain.imp _ h
  intro a b hab
  omega

theorem map {β : Type*} {e : β → α} {l : List β} (h : Consecutive (fun b => f (e b)) l) :
    Consecutive f (l.map e) :=
  (List.isChain_map e).mpr h

/-- The first number and the length of a consecutive list give its last number. -/
theorem head_add_length (h : Consecutive f l) {x y : α} (hx : l.head? = some x)
    (hy : l.getLast? = some y) : f x + l.length = f y + 1 := by
  induction l generalizing x with
  | nil => cases hx
  | cons a l ih =>
    cases hx
    cases l with
    | nil =>
      cases hy
      rfl
    | cons b l =>
      have hab : f a + 1 = f b := (List.isChain_cons.mp h).1 b rfl
      rw [List.getLast?_cons_cons] at hy
      have := ih h.tail rfl hy
      simp only [List.length_cons] at this ⊢
      omega

end Consecutive

/-- Sorting by the number gives back the list in which the numbers increase. -/
theorem mergeSort_eq_of_perm {s : List α} (hp : l.Perm s)
    (hs : s.Pairwise fun a b => f a < f b) :
    (l.mergeSort fun a b => decide (f a ≤ f b)) = s := by
  have hsort : (l.mergeSort fun a b => decide (f a ≤ f b)).Pairwise fun a b =>
      decide (f a ≤ f b) = true := by
    apply List.pairwise_mergeSort
    · intro a b c hab hbc
      simp only [decide_eq_true_eq] at *
      omega
    · intro a b
      simp only [Bool.or_eq_true, decide_eq_true_eq]
      omega
  apply List.Perm.eq_of_pairwise _ hsort
  · exact hs.imp fun h => decide_eq_true (le_of_lt h)
  · exact (List.mergeSort_perm _ _).trans hp
  · -- elements of `s` with the same number are equal
    intro a b ha hb hab hba
    simp only [decide_eq_true_eq] at hab hba
    have hnodup : (s.map f).Nodup := List.pairwise_map.mpr (hs.imp fun h => Nat.ne_of_lt h)
    exact List.inj_on_of_nodup_map hnodup (hp.mem_iff.mp (List.mem_mergeSort.mp ha)) hb
      (le_antisymm hab hba)

/-- The search from the end stops at the last element when it passes. -/
theorem find?_reverse_of_getLast? {p : α → Bool} {e : α}
    (he : l.getLast? = some e) (hp : p e = true) : l.reverse.find? p = some e := by
  obtain ⟨init, rfl⟩ := List.getLast?_eq_some_iff.mp he
  simp [hp]

end Subvol.Lib

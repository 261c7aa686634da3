import Mathlib.Data.List.Pairwise
import Mathlib.Data.List.Perm.Basic
import Mathlib.Tactic.Common

/-!
# Chains of a hash table

A table of chains gives every index the list of the elements that are hashed to it. `pushChain` puts
an element at the front of its chain; the chains of a list of elements that were pushed one by one
are the elements of the list with that index, the last one first.

## Main results

* `foldl_pushChain`: the chains behind a list of pushes.
* `flatMap_filter_perm`: the chains together are the list.
* `pairwise_ne_perm`, `eq_of_pairwise_ne`: elements told apart by a key.
-/

namespace Subvol.Lib

variable {α β : Type*}

/-- Puts an element at the front of the chain at an index. -/
def pushChain (chains : ℕ → List α) (i : ℕ) (a : α) : ℕ → List α :=
  Function.update chains i (a :: chains i)

theorem pushChain_apply (chains : ℕ → List α) (i : ℕ) (a : α) (j : ℕ) :
    pushChain chains i a j = if i = j then a :: chains j else chains j := by
  rw [pushChain, Function.update_apply]
  by_cases h : i = j
  · subst h
    simp
  · have hne : ¬j = i := fun heq => h heq.symm
    simp [h, hne]

theorem foldl_pushChain (f : α → ℕ) (l : List α) (chains : ℕ → List α) (j : ℕ) :
    (l.foldl (fun c a => pushChain c (f a) a) chains) j =
      (l.filter fun a => f a = j).reverse ++ chains j := by
  induction l generalizing chains with
  | nil => rfl
  | cons a l ih =>
    rw [List.foldl_cons, ih, pushChain_apply]
    by_cases h : f a = j <;> simp [h]

/-- The elements of a list gathered index by index. -/
theorem flatMap_filter_perm {f : α → ℕ} {l : List α} {n : ℕ} (h : ∀ a ∈ l, f a < n) :
    ((List.range n).flatMap fun i => l.filter fun a => f a = i).Perm l := by
  have hupto : ∀ m, ((List.range m).flatMap fun i => l.filter fun a => f a = i).Perm
      (l.filter fun a => f a < m) := by
    intro m
    induction m with
    | zero => simp
    | succ m ih =>
      rw [List.range_succ, List.flatMap_append, List.flatMap_singleton]
      refine (ih.append_right _).trans ?_
      have hsplit := List.filter_append_perm (fun a => decide (f a < m))
        (l.filter fun a => f a < m + 1)
      rw [List.filter_filter, List.filter_filter] at hsplit
      refine List.Perm.trans (List.Perm.of_eq ?_) hsplit
      congr 1
      · refine List.filter_congr fun a _ => ?_
        by_cases hlt : f a < m
        · simp [hlt, Nat.lt_succ_of_lt hlt]
        · simp [hlt]
      · refine List.filter_congr fun a _ => ?_
        rcases Nat.lt_trichotomy (f a) m with hlt | heq | hgt
        · simp [hlt, Nat.ne_of_lt hlt]
        · simp [heq]
        · have h₁ : ¬f a < m + 1 := by omega
          simp [h₁, Nat.ne_of_gt hgt]
  have hall : (l.filter fun a => f a < n) = l :=
    List.filter_eq_self.mpr fun a ha => by simpa using h a ha
  have hperm := hupto n
  rw [hall] at hperm
  exact hperm

section Keys

variable {key : α → β} {l : List α}

theorem pairwise_ne_perm {l' : List α} (h : l.Pairwise fun a b => key a ≠ key b)
    (hp : l.Perm l') : l'.Pairwise fun a b => key a ≠ key b :=
  h.perm hp fun hne => Ne.symm hne

/-- Elements of a list with one element for each key. -/
theorem eq_of_pairwise_ne (h : l.Pairwise fun a b => key a ≠ key b) {a b : α} (ha : a ∈ l)
    (hb : b ∈ l) (hkey : key a = key b) : a = b := by
  by_contra hne
  have : Std.Symm fun a b : α => key a ≠ key b := ⟨fun _ _ h => Ne.symm h⟩
  exact h.forall ha hb hne hkey

end Keys

end Subvol.Lib

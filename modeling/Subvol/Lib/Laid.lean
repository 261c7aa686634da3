import Mathlib.Algebra.BigOperators.Group.List.Basic
import Mathlib.Algebra.Order.Ring.Nat
import Mathlib.Data.List.Nodup
import Mathlib.Data.List.Pairwise

/-!
# Items laid out one after another

Items of different sizes that lie one after another from an offset on, and the reading of them
from an offset. An offset at which an item starts, or the end, is a boundary.

## Main definitions

* `total`: the size of items together.
* `laid`: the items with the offsets at which they start.
* `itemsFrom`: the items from a boundary on.

## Main results

* `mem_laid_iff`: the items before one that is laid out at an offset add up to the offset.
* `itemsFrom_eq_some_iff`: reading from an offset finds what lies behind a boundary.
-/

namespace Subvol.Lib

variable {α : Type*} (size : α → ℕ)

/-- The size of items together. -/
def total (l : List α) : ℕ := (l.map size).sum

@[simp] theorem total_nil : total size [] = 0 := rfl

@[simp] theorem total_cons (a : α) (l : List α) : total size (a :: l) = size a + total size l := by
  simp [total]

@[simp] theorem total_append (l m : List α) :
    total size (l ++ m) = total size l + total size m := by
  simp [total]

theorem length_le_total {l : List α} (h : ∀ a ∈ l, 0 < size a) : l.length ≤ total size l := by
  induction l with
  | nil => exact Nat.zero_le _
  | cons a l ih =>
    have hhead := h a List.mem_cons_self
    have htail := ih fun b hb => h b (List.mem_cons_of_mem a hb)
    rw [List.length_cons, total_cons]
    omega

/-- The items with the offsets at which they start. -/
def laid : ℕ → List α → List (ℕ × α)
  | _, [] => []
  | base, a :: l => (base, a) :: laid (base + size a) l

/-- The items from the boundary `off` on. -/
def itemsFrom : ℕ → List α → ℕ → Option (List α)
  | base, [], off => if base = off then some [] else none
  | base, a :: l, off => if base = off then some (a :: l) else itemsFrom (base + size a) l off

variable {size}

@[simp] theorem length_laid (base : ℕ) (l : List α) : (laid size base l).length = l.length := by
  induction l generalizing base with
  | nil => rfl
  | cons a l ih => rw [laid, List.length_cons, List.length_cons, ih]

theorem mem_laid_iff {base : ℕ} {l : List α} {x : ℕ × α} :
    x ∈ laid size base l ↔ ∃ p q, l = p ++ x.2 :: q ∧ x.1 = base + total size p := by
  induction l generalizing base with
  | nil => simp [laid]
  | cons a l ih =>
    rw [laid, List.mem_cons, ih]
    constructor
    · rintro (rfl | ⟨p, q, rfl, hx⟩)
      · exact ⟨[], l, rfl, rfl⟩
      · exact ⟨a :: p, q, rfl, by simp [hx, Nat.add_assoc]⟩
    · rintro ⟨p, q, hl, hx⟩
      cases p with
      | nil =>
        obtain ⟨rfl, rfl⟩ := List.cons.inj hl
        exact Or.inl (Prod.ext (by simpa using hx) rfl)
      | cons b p =>
        obtain ⟨rfl, rfl⟩ := List.cons.inj hl
        exact Or.inr ⟨p, q, rfl, by simpa [Nat.add_assoc] using hx⟩

theorem laid_append (base : ℕ) (l m : List α) :
    laid size base (l ++ m) = laid size base l ++ laid size (base + total size l) m := by
  induction l generalizing base with
  | nil => simp [laid]
  | cons a l ih => simp [laid, ih, Nat.add_assoc]

theorem mem_laid_append {base : ℕ} {l m : List α} {x : ℕ × α} :
    x ∈ laid size base (l ++ m) ↔
      x ∈ laid size base l ∨ x ∈ laid size (base + total size l) m := by
  rw [laid_append, List.mem_append]

theorem mem_of_mem_laid {base : ℕ} {l : List α} {x : ℕ × α} (hx : x ∈ laid size base l) :
    x.2 ∈ l := by
  obtain ⟨p, q, rfl, -⟩ := mem_laid_iff.mp hx
  simp

theorem mem_laid_bounds {base : ℕ} {l : List α} {x : ℕ × α} (hx : x ∈ laid size base l) :
    base ≤ x.1 ∧ x.1 + size x.2 ≤ base + total size l := by
  obtain ⟨p, q, rfl, hx⟩ := mem_laid_iff.mp hx
  simp only [total_append, total_cons]
  omega

theorem laid_pairwise {base : ℕ} {l : List α} (hpos : ∀ a ∈ l, 0 < size a) :
    (laid size base l).Pairwise fun x y => x.1 < y.1 := by
  induction l generalizing base with
  | nil => exact List.Pairwise.nil
  | cons a l ih =>
    refine List.pairwise_cons.mpr
      ⟨fun y hy => ?_, ih fun b hb => hpos b (List.mem_cons_of_mem a hb)⟩
    have := (mem_laid_bounds hy).1
    have := hpos a List.mem_cons_self
    omega

theorem exists_mem_laid {base : ℕ} {l : List α} {a : α} (ha : a ∈ l) :
    ∃ off, (off, a) ∈ laid size base l := by
  obtain ⟨p, q, rfl⟩ := List.append_of_mem ha
  exact ⟨_, mem_laid_iff.mpr ⟨p, q, rfl, rfl⟩⟩

/-- No two items start at an offset. -/
theorem eq_of_mem_laid {base : ℕ} {l : List α} (hpos : ∀ a ∈ l, 0 < size a) {x y : ℕ × α}
    (hx : x ∈ laid size base l) (hy : y ∈ laid size base l) (h : x.1 = y.1) : x = y := by
  have hnodup : ((laid size base l).map Prod.fst).Nodup :=
    List.pairwise_map.mpr ((laid_pairwise hpos).imp fun hlt => Nat.ne_of_lt hlt)
  exact List.inj_on_of_nodup_map hnodup hx hy h

theorem mem_laid_shift {base base' : ℕ} {l : List α} {off : ℕ} {a : α}
    (h : (base + off, a) ∈ laid size base l) : (base' + off, a) ∈ laid size base' l := by
  obtain ⟨p, q, rfl, hx⟩ := mem_laid_iff.mp h
  exact mem_laid_iff.mpr ⟨p, q, rfl, by simpa using hx⟩

/-- Items at smaller offsets come first. -/
theorem rel_of_laid_lt {R : α → α → Prop} {base : ℕ} {l : List α} (hl : l.Pairwise R)
    {x y : ℕ × α} (hx : x ∈ laid size base l) (hy : y ∈ laid size base l) (hlt : x.1 < y.1) :
    R x.2 y.2 := by
  obtain ⟨p, q, rfl, hp⟩ := mem_laid_iff.mp hx
  obtain ⟨p', q', hsplit, hp'⟩ := mem_laid_iff.mp hy
  obtain ⟨a, rfl, ha⟩ | ⟨a, rfl, -⟩ := List.append_eq_append_iff.mp hsplit
  · cases a with
    | nil => simp [hp, hp'] at hlt
    | cons b a =>
      rw [List.cons_append] at ha
      obtain ⟨-, rfl⟩ := List.cons.inj ha
      exact List.rel_of_pairwise_cons (List.pairwise_append.mp hl).2.1 (by simp)
  · rw [total_append] at hp
    omega

theorem itemsFrom_eq_some_iff {base : ℕ} {l m : List α} {off : ℕ} (hpos : ∀ a ∈ l, 0 < size a) :
    itemsFrom size base l off = some m ↔ ∃ p, l = p ++ m ∧ off = base + total size p := by
  induction l generalizing base with
  | nil =>
    rw [itemsFrom]
    constructor
    · intro h
      obtain ⟨hoff, hm⟩ : base = off ∧ [] = m := by simpa using h
      exact ⟨[], by simpa using hm, by simp [hoff]⟩
    · rintro ⟨p, hl, rfl⟩
      obtain ⟨rfl, rfl⟩ := List.append_eq_nil_iff.mp hl.symm
      simp
  | cons a l ih =>
    have ha := hpos a List.mem_cons_self
    rw [itemsFrom]
    by_cases hoff : base = off
    · rw [if_pos hoff, Option.some.injEq]
      constructor
      · rintro rfl
        exact ⟨[], rfl, hoff.symm⟩
      · rintro ⟨p, hl, hp⟩
        cases p with
        | nil => exact hl
        | cons b p =>
          -- A key before the boundary would take room of its own.
          obtain ⟨rfl, rfl⟩ := List.cons.inj hl
          rw [total_cons] at hp
          omega
    · rw [if_neg hoff, ih fun b hb => hpos b (List.mem_cons_of_mem a hb)]
      constructor
      · rintro ⟨p, rfl, hp⟩
        exact ⟨a :: p, rfl, by simp [hp, Nat.add_assoc]⟩
      · rintro ⟨p, hl, hp⟩
        cases p with
        | nil => exact absurd hp.symm hoff
        | cons b p =>
          obtain ⟨rfl, rfl⟩ := List.cons.inj hl
          exact ⟨p, rfl, by simpa [Nat.add_assoc] using hp⟩

end Subvol.Lib

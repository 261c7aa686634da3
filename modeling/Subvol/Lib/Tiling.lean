import Mathlib.Algebra.Order.Ring.Nat
import Mathlib.Order.Basic
import Subvol.Lib.Image

/-!
# Intervals laid end to end

A list of intervals, each given by its start and its length, is tiled from `base` when the first one
starts there and every other one starts where the one before it ends.

## Main definitions

* `Tiled`.

## Main results

* `Tiled.append`, `Tiled.set`: one more interval, and an interval replaced by one at the same place.
* `Tiled.disjoint`, `Tiled.end_le`: the intervals are apart from each other and inside the total.
* `Tiled.readAt_flatMap`: the words read over all intervals are those of the single ones.
-/

namespace Subvol.Lib

variable {α β : Type*} {start len : α → ℕ}

/-- The intervals follow each other from `base` on. -/
def Tiled (start len : α → ℕ) : ℕ → List α → Prop
  | _, [] => True
  | base, a :: rest => start a = base ∧ Tiled start len (base + len a) rest

namespace Tiled

theorem append {base : ℕ} {l : List α} {a : α} (h : Tiled start len base l)
    (ha : start a = base + (l.map len).sum) : Tiled start len base (l ++ [a]) := by
  induction l generalizing base with
  | nil => exact ⟨ha, trivial⟩
  | cons b rest ih =>
    refine ⟨h.1, ih h.2 ?_⟩
    rw [ha, List.map_cons, List.sum_cons, Nat.add_assoc]

theorem set {base i : ℕ} {l : List α} {a b : α} (h : Tiled start len base l)
    (ha : l[i]? = some a) (hstart : start b = start a) (hlen : len b = len a) :
    Tiled start len base (l.set i b) := by
  induction l generalizing base i with
  | nil => cases ha
  | cons c rest ih =>
    cases i with
    | zero =>
      obtain rfl : c = a := Option.some.inj ha
      exact ⟨hstart.trans h.1, by rw [hlen]; exact h.2⟩
    | succ i => exact ⟨h.1, ih h.2 ha⟩

theorem base_le {base : ℕ} {l : List α} (h : Tiled start len base l) {a : α} (ha : a ∈ l) :
    base ≤ start a := by
  induction l generalizing base with
  | nil => cases ha
  | cons b rest ih =>
    rcases List.mem_cons.mp ha with rfl | ha
    · exact Nat.le_of_eq h.1.symm
    · exact Nat.le_trans (Nat.le_add_right _ _) (ih h.2 ha)

theorem end_le {base : ℕ} {l : List α} (h : Tiled start len base l) {a : α} (ha : a ∈ l) :
    start a + len a ≤ base + (l.map len).sum := by
  induction l generalizing base with
  | nil => cases ha
  | cons b rest ih =>
    rw [List.map_cons, List.sum_cons]
    rcases List.mem_cons.mp ha with rfl | ha
    · have hstart := h.1
      omega
    · have hend := ih h.2 ha
      omega

/-- An interval ends before every later one starts. -/
theorem disjoint {base : ℕ} {l : List α} (h : Tiled start len base l) :
    l.Pairwise fun a b => start a + len a ≤ start b := by
  induction l generalizing base with
  | nil => exact List.Pairwise.nil
  | cons b rest ih =>
    refine List.Pairwise.cons (fun a ha => ?_) (ih h.2)
    rw [h.1]
    exact h.2.base_le ha

theorem readAt_flatMap {base : ℕ} {l : List α} (h : Tiled start len base l) (img : Image β)
    {words : α → List β} (hread : ∀ a ∈ l, img.readAt (start a) (len a) = words a) :
    img.readAt base (l.map len).sum = l.flatMap words := by
  induction l generalizing base with
  | nil => rfl
  | cons b rest ih =>
    have hrest := ih h.2 fun a ha => hread a (List.mem_cons_of_mem b ha)
    rw [List.map_cons, List.sum_cons, List.flatMap_cons, ← hread b List.mem_cons_self, h.1, ← hrest]
    exact Image.readAt_add img base (len b) _

end Tiled

end Subvol.Lib

import Mathlib.Data.List.Basic
import Mathlib.Tactic.Common

/-!
# Word-addressed device images

An image assigns a word to every address of a device. A write replaces the words of one
interval and leaves every other address alone; a read returns the words of one interval.
The lemmas say what a read returns after a write that lies inside the interval read, and
after one that does not meet it.

## Main definitions

* `Image.writeAt`, `Image.readAt`: a write and a read of one interval of addresses.

## Main results

* `Image.readAt_writeAt_inside`: a read around a write returns the old words with the written
  ones spliced in.
* `Image.readAt_writeAt_disjoint`: a read away from a write returns the old words.
-/

namespace Subvol.Lib

/-- A device image: one word at every address. -/
def Image (α : Type*) := ℕ → α

namespace Image

variable {α : Type*}

/-- Store the words `ws` from address `off` on. -/
def writeAt (img : Image α) (off : ℕ) (ws : List α) : Image α := fun i =>
  if off ≤ i then (ws[i - off]?).getD (img i) else img i

/-- The `len` words from address `off` on. -/
def readAt (img : Image α) (off len : ℕ) : List α :=
  (List.range len).map fun i => img (off + i)

@[simp] theorem length_readAt (img : Image α) (off len : ℕ) : (img.readAt off len).length = len := by
  simp [readAt]

theorem getElem_readAt (img : Image α) (off len i : ℕ) (h : i < (img.readAt off len).length) :
    (img.readAt off len)[i] = img (off + i) := by
  simp [readAt]

theorem writeAt_of_lt (img : Image α) {off i : ℕ} (ws : List α) (h : i < off) :
    img.writeAt off ws i = img i := by
  simp [writeAt, Nat.not_le.mpr h]

theorem writeAt_of_ge (img : Image α) {off i : ℕ} (ws : List α) (h : off + ws.length ≤ i) :
    img.writeAt off ws i = img i := by
  have hnone : ws[i - off]? = none := List.getElem?_eq_none (by omega)
  simp [writeAt, hnone]

theorem writeAt_of_mem (img : Image α) {off i : ℕ} (ws : List α) (h : i < ws.length) :
    img.writeAt off ws (off + i) = ws[i] := by
  simp [writeAt, h]

@[simp] theorem writeAt_nil (img : Image α) (off : ℕ) : img.writeAt off [] = img := by
  funext i
  simp [writeAt]

/-- A read inside a longer one. -/
theorem readAt_inside (img : Image α) {base o len n : ℕ} (h : o + len ≤ n) :
    img.readAt (base + o) len = ((img.readAt base n).drop o).take len := by
  apply List.ext_getElem
  · simp only [length_readAt, List.length_take, List.length_drop]
    omega
  · intro i h₁ h₂
    rw [getElem_readAt, List.getElem_take, List.getElem_drop, getElem_readAt, Nat.add_assoc]

/-- A read in two parts. -/
theorem readAt_add (img : Image α) (base m n : ℕ) :
    img.readAt base (m + n) = img.readAt base m ++ img.readAt (base + m) n := by
  rw [readAt, readAt, readAt, List.range_add, List.map_append, List.map_map]
  congr 1
  refine List.map_congr_left fun i _ => ?_
  rw [Function.comp_apply, Nat.add_assoc]

/-- A read that does not meet the written interval is unchanged. -/
theorem readAt_writeAt_disjoint (img : Image α) {off base len : ℕ} (ws : List α)
    (h : off + ws.length ≤ base ∨ base + len ≤ off) :
    (img.writeAt off ws).readAt base len = img.readAt base len := by
  apply List.map_congr_left
  intro i hi
  have hi' : i < len := List.mem_range.mp hi
  rcases h with h | h
  · exact writeAt_of_ge img ws (by omega)
  · exact writeAt_of_lt img ws (by omega)

/-- A read around the written interval has the written words spliced in. -/
theorem readAt_writeAt_inside (img : Image α) {base o len : ℕ} (ws : List α)
    (h : o + ws.length ≤ len) :
    (img.writeAt (base + o) ws).readAt base len =
      (img.readAt base len).take o ++ ws ++ (img.readAt base len).drop (o + ws.length) := by
  apply List.ext_getElem
  · simp only [length_readAt, List.length_append, List.length_take, List.length_drop]
    omega
  · intro i h₁ h₂
    rw [getElem_readAt]
    simp only [List.append_assoc, List.getElem_append, List.length_take, length_readAt,
      List.getElem_take, List.getElem_drop, getElem_readAt]
    have ho : min o len = o := by omega
    rw [ho]
    split_ifs with hlt hmid
    · exact writeAt_of_lt img ws (by omega)
    · have hi : base + i = base + o + (i - o) := by omega
      rw [hi, writeAt_of_mem img ws hmid]
    · rw [writeAt_of_ge img ws (by omega)]
      congr 1
      omega

/-- Words written behind words that are there already. -/
theorem readAt_writeAt_append (img : Image α) {off : ℕ} {old ws : List α}
    (h : img.readAt off old.length = old) :
    (img.writeAt (off + old.length) ws).readAt off (old.length + ws.length) = old ++ ws := by
  have hlen : (img.readAt off (old.length + ws.length)).length = old.length + ws.length :=
    length_readAt img off _
  rw [readAt_writeAt_inside img ws (Nat.le_refl _), List.drop_eq_nil_of_le (Nat.le_of_eq hlen),
    List.append_nil]
  rw [readAt_add, h, List.take_left]

/-- The words that were written are read. -/
theorem readAt_writeAt_self (img : Image α) (off : ℕ) (ws : List α) :
    (img.writeAt off ws).readAt off ws.length = ws := by
  have h := @readAt_writeAt_append _ img off [] ws rfl
  simpa using h

/-- A read that gives two runs of words, one behind the other, gives each by itself. -/
theorem readAt_of_append (img : Image α) {off m n : ℕ} {a b : List α}
    (h : img.readAt off (m + n) = a ++ b) (ha : a.length = m) :
    img.readAt off m = a ∧ img.readAt (off + m) n = b := by
  rw [readAt_add] at h
  exact List.append_inj h (by rw [length_readAt, ha])

/-- A read, its first word apart. -/
theorem readAt_succ (img : Image α) (off n : ℕ) :
    img.readAt off (n + 1) = img off :: img.readAt (off + 1) n := by
  rw [Nat.add_comm n, readAt_add]
  rfl

end Image

end Subvol.Lib

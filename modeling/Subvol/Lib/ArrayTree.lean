import Mathlib.Data.Nat.Factorization.Basic
import Mathlib.Data.Nat.Log
import Mathlib.Tactic.Positivity
import Mathlib.Tactic.Ring

/-!
# Search trees in an array

A complete binary search tree kept in an array from the index 1 on: the children of `i` are `2 * i`
and `2 * i + 1`. The places of the indices in the order of the tree, and the next and the previous
index in that order.

In the full tree of the same height the index `2 ^ b + x` has the place `(2 * x + 1) * 2 ^ (h - b)`.
The tree itself lacks places of the lowest level behind `extra`, which are odd; its order is that of
the places, numbered without the missing ones.

## Main definitions

* `leftAncestor`, `rightAncestor`: the nearest index above that comes before, and behind.
* `extra`, `inorder`, `slotAt`: the place of an index, and the index of a place.
* `firstSlot`, `lastSlot`, `nextSlot`, `prevSlot`.

## Main results

* `inorder_leftAncestor`, `inorder_rightAncestor`: the ancestors come before, and behind.
* `inorder_slotAt`, `slotAt_inorder`: places and indices are one to one.
* `inorder_nextSlot`, `inorder_prevSlot`: the next index comes right behind, the previous right before.
-/

namespace Subvol.Lib.ArrayTree

/-! ### Indices -/

/-- The nearest index above `i` that `i` is on the right of, `0` if there is none. -/
def leftAncestor (i : ℕ) : ℕ :=
  if i = 0 then 0 else if i % 2 = 1 then i / 2 else leftAncestor (i / 2)
termination_by i
decreasing_by omega

/-- The nearest index above `i` that `i` is on the left of, `0` if there is none. -/
def rightAncestor (i : ℕ) : ℕ :=
  if i % 2 = 0 then i / 2 else rightAncestor (i / 2)
termination_by i
decreasing_by omega

/-- The first index in the order. -/
def firstSlot (size : ℕ) : ℕ := 2 ^ size.log2

/-- The last index in the order. -/
def lastSlot (size : ℕ) : ℕ := 2 ^ (size + 1).log2 - 1

/-- The index behind `i`, `0` if there is none. -/
def nextSlot (size i : ℕ) : ℕ :=
  if 2 * i + 1 ≤ size then
    let i := (2 * i + 1) * 2 ^ (size.log2 - (2 * i + 1).log2)
    if i > size then i / 2 else i
  else rightAncestor i

/-- The index before `i`, `0` if there is none. -/
def prevSlot (size i : ℕ) : ℕ :=
  if 2 * i ≤ size then
    let i := (2 * i + 1) * 2 ^ (size.log2 - (2 * i + 1).log2) - 1
    if i > size then i / 2 else i
  else leftAncestor i

/-- The end of the places that are there on the lowest level. -/
def extra (size : ℕ) : ℕ := (size + 1 - 2 ^ size.log2) * 2

/-- The place of an index in the full tree of height `h`. -/
def fullPlace (h i : ℕ) : ℕ := (2 * (i - 2 ^ i.log2) + 1) * 2 ^ (h - i.log2)

/-- A place, numbered without the missing ones. -/
def squeeze (extra place : ℕ) : ℕ := if place > extra then place - (place - extra) / 2 else place

/-- The place in the order, from `1` on. -/
def inorder (size i : ℕ) : ℕ := squeeze (extra size) (fullPlace size.log2 i)

/-- A place, numbered with the missing ones. -/
def unsqueeze (extra place : ℕ) : ℕ := if place > extra then place + (place - extra) else place

/-- How often a number can be halved. -/
def halvings (n : ℕ) : ℕ := if n = 0 ∨ n % 2 = 1 then 0 else halvings (n / 2) + 1
termination_by n
decreasing_by omega

/-- The index of a place. -/
def slotAt (size j : ℕ) : ℕ :=
  let p := unsqueeze (extra size) j
  2 ^ (size.log2 - halvings p) + p / 2 ^ (halvings p + 1)

/-! ### Ancestors of a child -/

theorem leftAncestor_double {i : ℕ} (hi : 0 < i) : leftAncestor (2 * i) = leftAncestor i := by
  rw [leftAncestor, if_neg (by omega), if_neg (by omega), Nat.mul_div_cancel_left i Nat.two_pos]

theorem leftAncestor_double_add_one (i : ℕ) : leftAncestor (2 * i + 1) = i := by
  rw [leftAncestor, if_neg (by omega), if_pos (by omega)]
  omega

theorem rightAncestor_double (i : ℕ) : rightAncestor (2 * i) = i := by
  rw [rightAncestor, if_pos (by omega)]
  omega

theorem rightAncestor_double_add_one (i : ℕ) :
    rightAncestor (2 * i + 1) = rightAncestor i := by
  have hhalf : (2 * i + 1) / 2 = i := by omega
  rw [rightAncestor, if_neg (by omega), hhalf]

theorem leftAncestor_one : leftAncestor 1 = 0 := leftAncestor_double_add_one 0

theorem rightAncestor_one : rightAncestor 1 = 0 :=
  (rightAncestor_double_add_one 0).trans (rightAncestor_double 0)

/-! ### Places in the full tree -/

/-- A place that the tree has. -/
def Present (extra place : ℕ) : Prop := place % 2 = 0 ∨ place < extra

theorem log2_two_pow_add {b x : ℕ} (hx : x < 2 ^ b) : (2 ^ b + x).log2 = b := by
  have hpos := Nat.two_pow_pos b
  rw [Nat.log2_eq_iff (by omega), pow_succ]
  omega

/-- An index as its level and its place there. -/
theorem exists_level {i : ℕ} (hi : 0 < i) : ∃ b x, x < 2 ^ b ∧ i = 2 ^ b + x ∧ i.log2 = b := by
  have hle := Nat.log2_self_le hi.ne'
  have hlt := Nat.lt_log2_self (n := i)
  rw [pow_succ] at hlt
  exact ⟨i.log2, i - 2 ^ i.log2, by omega, by omega, rfl⟩

theorem log2_double {i : ℕ} (hi : 0 < i) : (2 * i).log2 = i.log2 + 1 ∧
    (2 * i + 1).log2 = i.log2 + 1 := by
  obtain ⟨b, x, hx, rfl, hb⟩ := exists_level hi
  have hdouble : 2 * (2 ^ b + x) = 2 ^ (b + 1) + 2 * x := by ring
  have hdouble' : 2 * (2 ^ b + x) + 1 = 2 ^ (b + 1) + (2 * x + 1) := by ring
  rw [hb, hdouble', hdouble, log2_two_pow_add (by rw [pow_succ]; omega),
    log2_two_pow_add (by rw [pow_succ]; omega)]
  exact ⟨rfl, rfl⟩

theorem fullPlace_level {h b x : ℕ} (hx : x < 2 ^ b) :
    fullPlace h (2 ^ b + x) = (2 * x + 1) * 2 ^ (h - b) := by
  rw [fullPlace, log2_two_pow_add hx, Nat.add_sub_cancel_left]

/-- The places of the children of an index. -/
theorem fullPlace_double {h i : ℕ} (hi : 0 < i) (hb : i.log2 < h) :
    fullPlace h (2 * i) + 2 ^ (h - (i.log2 + 1)) = fullPlace h i ∧
      fullPlace h (2 * i + 1) = fullPlace h i + 2 ^ (h - (i.log2 + 1)) := by
  obtain ⟨b, x, hx, rfl, hlog⟩ := exists_level hi
  rw [hlog] at hb ⊢
  have hdouble : 2 * (2 ^ b + x) = 2 ^ (b + 1) + 2 * x := by ring
  have hdouble' : 2 * (2 ^ b + x) + 1 = 2 ^ (b + 1) + (2 * x + 1) := by ring
  have hpow : 2 ^ (h - b) = 2 * 2 ^ (h - (b + 1)) := by
    rw [← pow_succ']
    congr 1
    omega
  rw [hdouble', hdouble, fullPlace_level hx, fullPlace_level (by rw [pow_succ]; omega),
    fullPlace_level (by rw [pow_succ]; omega), hpow]
  constructor <;> ring

/-- The place of the left ancestor, `0` if there is none. -/
theorem fullPlace_leftAncestor {h i : ℕ} (hi : 0 < i) (hb : i.log2 ≤ h) :
    (leftAncestor i = 0 ∧ 2 ^ (h - i.log2) = fullPlace h i) ∨
      (0 < leftAncestor i ∧ leftAncestor i < i ∧
        fullPlace h (leftAncestor i) + 2 ^ (h - i.log2) = fullPlace h i) := by
  induction i using Nat.strong_induction_on with
  | _ i ih =>
    rcases Nat.even_or_odd' i with ⟨m, rfl | rfl⟩
    · have hm : 0 < m := by omega
      have hlog := (log2_double hm).1
      have hplace := (fullPlace_double hm (h := h) (by omega)).1
      have hpow : 2 ^ (h - m.log2) = 2 * 2 ^ (h - (m.log2 + 1)) := by
        rw [← pow_succ']
        congr 1
        omega
      rw [leftAncestor_double hm, hlog]
      rcases ih m (by omega) hm (by omega) with ⟨hzero, hw⟩ | ⟨hpos, hless, hw⟩
      · exact Or.inl ⟨hzero, by omega⟩
      · exact Or.inr ⟨hpos, by omega, by omega⟩
    · rcases Nat.eq_zero_or_pos m with rfl | hm
      · refine Or.inl ⟨leftAncestor_one, ?_⟩
        have hone := fullPlace_level (h := h) (b := 0) (x := 0) (by decide)
        have hlog : (2 * 0 + 1).log2 = 0 := by decide
        rw [hlog]
        simpa using hone.symm
      · have hlog := (log2_double hm).2
        have hplace := (fullPlace_double hm (h := h) (by omega)).2
        rw [leftAncestor_double_add_one, hlog]
        exact Or.inr ⟨hm, by omega, by omega⟩

/-- The place of the right ancestor, the end of the full tree if there is none. -/
theorem fullPlace_rightAncestor {h i : ℕ} (hi : 0 < i) (hb : i.log2 ≤ h) :
    (rightAncestor i = 0 ∧ fullPlace h i + 2 ^ (h - i.log2) = 2 ^ (h + 1)) ∨
      (0 < rightAncestor i ∧ rightAncestor i < i ∧
        fullPlace h (rightAncestor i) = fullPlace h i + 2 ^ (h - i.log2)) := by
  induction i using Nat.strong_induction_on with
  | _ i ih =>
    rcases Nat.even_or_odd' i with ⟨m, rfl | rfl⟩
    · have hm : 0 < m := by omega
      have hlog := (log2_double hm).1
      have hplace := (fullPlace_double hm (h := h) (by omega)).1
      rw [rightAncestor_double, hlog]
      exact Or.inr ⟨hm, by omega, by omega⟩
    · rcases Nat.eq_zero_or_pos m with rfl | hm
      · refine Or.inl ⟨rightAncestor_one, ?_⟩
        have hone := fullPlace_level (h := h) (b := 0) (x := 0) (by decide)
        have hlog : (2 * 0 + 1).log2 = 0 := by decide
        rw [hlog, Nat.sub_zero, pow_succ]
        simp only [pow_zero, Nat.add_zero, Nat.mul_zero, Nat.zero_add, Nat.one_mul,
          Nat.sub_zero] at hone ⊢
        omega
      · have hlog := (log2_double hm).2
        have hplace := (fullPlace_double hm (h := h) (by omega)).2
        have hpow : 2 ^ (h - m.log2) = 2 * 2 ^ (h - (m.log2 + 1)) := by
          rw [← pow_succ']
          congr 1
          omega
        rw [rightAncestor_double_add_one, hlog]
        rcases ih m (by omega) hm (by omega) with ⟨hzero, hw⟩ | ⟨hpos, hless, hw⟩
        · exact Or.inl ⟨hzero, by omega⟩
        · exact Or.inr ⟨hpos, by omega, by omega⟩

/-! ### The order of the tree -/

theorem squeeze_lt {extra p q : ℕ} (heven : extra % 2 = 0) (hp : Present extra p)
    (hq : Present extra q) (h : p < q) : squeeze extra p < squeeze extra q := by
  rw [Present] at hp hq
  rw [squeeze, squeeze]
  split_ifs <;> omega

variable {size i : ℕ}

theorem inorder_eq (size i : ℕ) :
    inorder size i = squeeze (extra size) (fullPlace size.log2 i) := rfl

theorem extra_eq (hsize : 0 < size) :
    ∃ d, d < 2 ^ size.log2 ∧ size = 2 ^ size.log2 + d ∧ extra size = 2 * (d + 1) := by
  obtain ⟨b, x, hx, hsum, hlog⟩ := exists_level hsize
  rw [hlog]
  refine ⟨x, hx, hsum, ?_⟩
  rw [extra, hlog]
  omega

theorem extra_even (hsize : 0 < size) : extra size % 2 = 0 := by
  obtain ⟨d, -, -, hd⟩ := extra_eq hsize
  omega

theorem log2_le_log2 (h : i ≤ size) : i.log2 ≤ size.log2 := by
  rw [Nat.log2_eq_log_two, Nat.log2_eq_log_two]
  exact Nat.log_mono_right h

/-- An index of the tree has its place, and above the lowest level an even one. -/
theorem fullPlace_cases (hi : 0 < i) (hle : i ≤ size) :
    (i.log2 = size.log2 ∧ ∃ x, i = 2 ^ size.log2 + x ∧ fullPlace size.log2 i = 2 * x + 1 ∧
        fullPlace size.log2 i < extra size) ∨
      (i.log2 < size.log2 ∧ fullPlace size.log2 i % 2 = 0) := by
  have hlog := log2_le_log2 hle
  have hsize : 0 < size := by omega
  obtain ⟨d, hd, hsum, hextra⟩ := extra_eq hsize
  obtain ⟨b, x, hx, hix, hb⟩ := exists_level hi
  rcases hlog.eq_or_lt with heq | hlt
  · have hbl : b = size.log2 := by omega
    rw [hbl] at hix hx
    have hplace : fullPlace size.log2 i = 2 * x + 1 := by
      rw [hix, fullPlace_level hx, Nat.sub_self, pow_zero, Nat.mul_one]
    refine Or.inl ⟨heq, x, hix, hplace, ?_⟩
    rw [hplace, hextra]
    omega
  · refine Or.inr ⟨hlt, ?_⟩
    rw [hix, fullPlace_level hx]
    obtain ⟨e, he⟩ : ∃ e, size.log2 - b = e + 1 := ⟨size.log2 - b - 1, by omega⟩
    rw [he, pow_succ, ← mul_assoc]
    exact Nat.mul_mod_left _ _

theorem present_fullPlace (hi : 0 < i) (hle : i ≤ size) :
    Present (extra size) (fullPlace size.log2 i) := by
  rcases fullPlace_cases hi hle with ⟨-, x, -, -, hlt⟩ | ⟨-, heven⟩
  · exact Or.inr hlt
  · exact Or.inl heven

/-- The places of the indices are in the range. -/
theorem inorder_bounds (hi : 0 < i) (hle : i ≤ size) :
    0 < inorder size i ∧ inorder size i ≤ size := by
  obtain ⟨d, hd, hsum, hextra⟩ := @extra_eq size (by omega)
  have hlog := log2_le_log2 hle
  have hpresent := present_fullPlace hi hle
  have hpos : 0 < fullPlace size.log2 i := Nat.mul_pos (Nat.succ_pos _) (Nat.two_pow_pos _)
  have hlt : fullPlace size.log2 i < 2 ^ (size.log2 + 1) := by
    obtain ⟨b, x, hx, rfl, hb⟩ := exists_level hi
    have hsplit : 2 ^ (size.log2 + 1) = 2 ^ (b + 1) * 2 ^ (size.log2 - b) := by
      rw [← pow_add]
      congr 1
      omega
    rw [fullPlace_level hx, hsplit]
    refine Nat.mul_lt_mul_of_pos_right ?_ (Nat.two_pow_pos _)
    rw [pow_succ]
    omega
  rw [pow_succ] at hlt
  rw [Present] at hpresent
  rw [inorder, squeeze]
  split_ifs <;> omega

/-- The left ancestor comes before. -/
theorem inorder_leftAncestor (hi : 0 < i) (hle : i ≤ size)
    (hanc : leftAncestor i ≠ 0) : leftAncestor i ≤ size ∧
      inorder size (leftAncestor i) < inorder size i := by
  have hlog := log2_le_log2 hle
  rcases fullPlace_leftAncestor hi hlog with ⟨hzero, -⟩ | ⟨hpos, hless, hplace⟩
  · exact absurd hzero hanc
  · rw [inorder_eq, inorder_eq]
    refine ⟨by omega, squeeze_lt (extra_even (by omega)) (present_fullPlace hpos (by omega))
      (present_fullPlace hi hle) ?_⟩
    have := Nat.two_pow_pos (size.log2 - i.log2)
    omega

/-- The right ancestor comes behind. -/
theorem inorder_rightAncestor (hi : 0 < i) (hle : i ≤ size)
    (hanc : rightAncestor i ≠ 0) : rightAncestor i ≤ size ∧
      inorder size i < inorder size (rightAncestor i) := by
  have hlog := log2_le_log2 hle
  rcases fullPlace_rightAncestor hi hlog with ⟨hzero, -⟩ | ⟨hpos, hless, hplace⟩
  · exact absurd hzero hanc
  · rw [inorder_eq, inorder_eq]
    refine ⟨by omega, squeeze_lt (extra_even (by omega)) (present_fullPlace hi hle)
      (present_fullPlace hpos (by omega)) ?_⟩
    have := Nat.two_pow_pos (size.log2 - i.log2)
    omega

/-- An index without left child comes right behind its left ancestor, or is the first. -/
theorem inorder_of_no_left (hi : 0 < i) (hle : i ≤ size)
    (hleft : size < 2 * i) :
    (leftAncestor i = 0 ∧ inorder size i = 1) ∨
      (leftAncestor i ≠ 0 ∧ inorder size i = inorder size (leftAncestor i) + 1) := by
  have hsize : 0 < size := by omega
  have hlog := log2_le_log2 hle
  obtain ⟨d, hd, hsum, hextra⟩ := extra_eq hsize
  -- The place before is the place of the left ancestor.
  obtain ⟨w, hplace, hw⟩ : ∃ w, (w = 1 ∧ fullPlace size.log2 i < extra size ∨
      w = 2 ∧ extra size + 2 ≤ fullPlace size.log2 i ∧ fullPlace size.log2 i % 2 = 0) ∧
      w = 2 ^ (size.log2 - i.log2) := by
    rcases fullPlace_cases hi hle with ⟨heq, x, hix, hpl, hlt⟩ | ⟨hlow, heven⟩
    · exact ⟨1, Or.inl ⟨rfl, hlt⟩, by rw [heq, Nat.sub_self, pow_zero]⟩
    · obtain ⟨b, x, hx, hix, hb⟩ := exists_level hi
      have hlevel : size.log2 = b + 1 := by
        by_contra hne
        have hpow : 2 ^ (b + 2) ≤ 2 ^ size.log2 := Nat.pow_le_pow_right Nat.two_pos (by omega)
        have hpow' : 2 ^ (b + 2) = 4 * 2 ^ b := by ring
        omega
      refine ⟨2, Or.inr ⟨rfl, ?_, heven⟩, by rw [hb, hlevel, Nat.add_sub_cancel_left, pow_one]⟩
      rw [hix, fullPlace_level hx, hextra, hlevel, Nat.add_sub_cancel_left, pow_one]
      rw [hlevel, pow_succ] at hsum
      omega
  have hanc := fullPlace_leftAncestor hi hlog
  rw [← hw] at hanc
  rw [inorder_eq, inorder_eq, squeeze, squeeze]
  rcases hanc with ⟨hzero, hpl⟩ | ⟨hpos, hless, hpl⟩
  · refine Or.inl ⟨hzero, ?_⟩
    split_ifs <;> omega
  · refine Or.inr ⟨hpos.ne', ?_⟩
    split_ifs <;> omega

/-- An index without right child comes right before its right ancestor, or is the last. -/
theorem inorder_of_no_right (hi : 0 < i) (hle : i ≤ size)
    (hright : size < 2 * i + 1) :
    (rightAncestor i = 0 ∧ inorder size i = size) ∨
      (0 < rightAncestor i ∧ rightAncestor i ≤ size ∧
        inorder size (rightAncestor i) = inorder size i + 1) := by
  have hsize : 0 < size := by omega
  have hlog := log2_le_log2 hle
  obtain ⟨d, hd, hsum, hextra⟩ := extra_eq hsize
  obtain ⟨w, hplace, hw⟩ : ∃ w, (w = 1 ∧ fullPlace size.log2 i < extra size ∧
      fullPlace size.log2 i % 2 = 1 ∨
      w = 2 ∧ extra size ≤ fullPlace size.log2 i ∧ fullPlace size.log2 i % 2 = 0) ∧
      w = 2 ^ (size.log2 - i.log2) := by
    rcases fullPlace_cases hi hle with ⟨heq, x, hix, hpl, hlt⟩ | ⟨hlow, heven⟩
    · exact ⟨1, Or.inl ⟨rfl, hlt, by omega⟩, by rw [heq, Nat.sub_self, pow_zero]⟩
    · obtain ⟨b, x, hx, hix, hb⟩ := exists_level hi
      have hlevel : size.log2 = b + 1 := by
        by_contra hne
        have hpow : 2 ^ (b + 2) ≤ 2 ^ size.log2 := Nat.pow_le_pow_right Nat.two_pos (by omega)
        have hpow' : 2 ^ (b + 2) = 4 * 2 ^ b := by ring
        omega
      refine ⟨2, Or.inr ⟨rfl, ?_, heven⟩, by rw [hb, hlevel, Nat.add_sub_cancel_left, pow_one]⟩
      rw [hix, fullPlace_level hx, hextra, hlevel, Nat.add_sub_cancel_left, pow_one]
      rw [hlevel, pow_succ] at hsum
      omega
  have hanc := fullPlace_rightAncestor hi hlog
  rw [← hw, pow_succ] at hanc
  rw [inorder_eq, inorder_eq, squeeze, squeeze]
  rcases hanc with ⟨hzero, hpl⟩ | ⟨hpos, hless, hpl⟩
  · refine Or.inl ⟨hzero, ?_⟩
    split_ifs <;> omega
  · refine Or.inr ⟨hpos, by omega, ?_⟩
    split_ifs <;> omega

/-- The walk begins at the first place. -/
theorem inorder_firstSlot (hsize : 0 < size) :
    0 < firstSlot size ∧ firstSlot size ≤ size ∧
      inorder size (firstSlot size) = 1 := by
  obtain ⟨d, hd, hsum, hextra⟩ := extra_eq hsize
  have hpos := Nat.two_pow_pos size.log2
  have hfirst : firstSlot size = 2 ^ size.log2 + 0 := by
    rw [firstSlot, Nat.add_zero]
  rw [hfirst, inorder_eq, fullPlace_level hpos, Nat.sub_self, pow_zero, squeeze]
  refine ⟨by omega, by omega, ?_⟩
  split_ifs <;> omega

/-- The next index comes right behind, and there is none behind the last. -/
theorem inorder_nextSlot (hi : 0 < i) (hle : i ≤ size) :
    (nextSlot size i = 0 ∧ inorder size i = size) ∨
      (0 < nextSlot size i ∧ nextSlot size i ≤ size ∧
        inorder size (nextSlot size i) = inorder size i + 1) := by
  rw [nextSlot]
  by_cases hright : 2 * i + 1 ≤ size
  swap
  · rw [if_neg hright]
    exact inorder_of_no_right hi hle (by omega)
  rw [if_pos hright]
  have hsize : 0 < size := by omega
  obtain ⟨d, hd, hsum, hextra⟩ := extra_eq hsize
  obtain ⟨b, x, hx, hix, hb⟩ := exists_level hi
  have hlog := log2_le_log2 hright
  rw [(log2_double hi).2, hb] at hlog ⊢
  -- The leftmost index below the right child, were the lowest level full.
  obtain ⟨e, he⟩ := Nat.exists_eq_add_of_le hlog
  have hdeep : (2 * i + 1) * 2 ^ (size.log2 - (b + 1)) = 2 ^ size.log2 + (2 * x + 1) * 2 ^ e := by
    rw [he, Nat.add_sub_cancel_left, hix, pow_add]
    ring
  have hdeepLt : (2 * x + 1) * 2 ^ e < 2 ^ size.log2 := by
    rw [he, pow_add]
    refine Nat.mul_lt_mul_of_pos_right ?_ (Nat.two_pow_pos e)
    rw [pow_succ]
    omega
  have hplace : fullPlace size.log2 i = 2 * ((2 * x + 1) * 2 ^ e) := by
    have hpow : 2 ^ (size.log2 - b) = 2 * 2 ^ e := by
      rw [← pow_succ']
      congr 1
      omega
    rw [hix, fullPlace_level hx, hpow]
    ring
  rw [hdeep]
  dsimp only
  by_cases hover : 2 ^ size.log2 + (2 * x + 1) * 2 ^ e > size
  · rw [if_pos hover]
    -- That index is missing, and its parent is the next one.
    obtain ⟨e', rfl⟩ : ∃ e', e = e' + 1 := by
      refine ⟨e - 1, ?_⟩
      rcases Nat.eq_zero_or_pos e with rfl | hpos
      · rw [pow_zero, Nat.mul_one] at hover
        have hsame : 2 * i + 1 = 2 ^ size.log2 + (2 * x + 1) := by
          rw [hix, he, Nat.add_zero, pow_succ]
          ring
        omega
      · omega
    have hhalf : (2 ^ size.log2 + (2 * x + 1) * 2 ^ (e' + 1)) / 2 =
        2 ^ (b + 1 + e') + (2 * x + 1) * 2 ^ e' := by
      rw [he, ← Nat.add_assoc, pow_succ, pow_succ, ← mul_assoc]
      omega
    have hlt' : (2 * x + 1) * 2 ^ e' < 2 ^ (b + 1 + e') := by
      rw [pow_add]
      refine Nat.mul_lt_mul_of_pos_right ?_ (Nat.two_pow_pos e')
      rw [pow_succ]
      omega
    have hpow : 2 ^ size.log2 = 2 * 2 ^ (b + 1 + e') := by
      rw [← pow_succ', he]
      congr 1
    have hone : size.log2 - (b + 1 + e') = 1 := by omega
    have hdouble : (2 * x + 1) * 2 ^ (e' + 1) = 2 * ((2 * x + 1) * 2 ^ e') := by ring
    rw [hhalf]
    refine Or.inr ⟨by positivity, by omega, ?_⟩
    rw [inorder_eq, inorder_eq, fullPlace_level hlt', hone, hplace, squeeze, squeeze, pow_one]
    rw [hdouble] at hover ⊢
    generalize (2 * x + 1) * 2 ^ e' = y at hover ⊢
    split_ifs <;> omega
  · rw [if_neg hover]
    refine Or.inr ⟨by positivity, by omega, ?_⟩
    rw [inorder_eq, inorder_eq, fullPlace_level hdeepLt, Nat.sub_self, pow_zero, hplace, squeeze,
      squeeze]
    split_ifs <;> omega

theorem fullPlace_injective {h j : ℕ} (hi : 0 < i) (hj : 0 < j) (hih : i.log2 ≤ h)
    (hjh : j.log2 ≤ h) (heq : fullPlace h i = fullPlace h j) : i = j := by
  obtain ⟨b, x, hx, hix, hb⟩ := exists_level hi
  obtain ⟨c, y, hy, hjy, hc⟩ := exists_level hj
  rw [hix, hjy, fullPlace_level hx, fullPlace_level hy] at heq
  -- An odd number times a power of two determines both.
  have hodd : ∀ {m n p q : ℕ}, (2 * m + 1) * 2 ^ (p + q) = (2 * n + 1) * 2 ^ p → q = 0 := by
    intro m n p q h
    rw [pow_add, mul_comm (2 ^ p), ← mul_assoc] at h
    have hcancel := Nat.eq_of_mul_eq_mul_right (Nat.two_pow_pos p) h
    rcases q with _ | q
    · rfl
    · rw [pow_succ, ← mul_assoc] at hcancel
      omega
  have hbc : b = c := by
    rcases Nat.le_total b c with hle | hle
    · obtain ⟨q, hq⟩ : ∃ q, h - b = h - c + q := ⟨c - b, by omega⟩
      rw [hq] at heq
      have := hodd heq
      omega
    · obtain ⟨q, hq⟩ : ∃ q, h - c = h - b + q := ⟨b - c, by omega⟩
      rw [hq] at heq
      have := hodd heq.symm
      omega
  rw [hbc] at heq
  have := Nat.eq_of_mul_eq_mul_right (Nat.two_pow_pos (h - c)) heq
  rw [hix, hjy, hbc]
  omega

/-- Two indices do not share a place in the order. -/
theorem inorder_injective {j : ℕ} (hi : 0 < i) (hile : i ≤ size) (hj : 0 < j) (hjle : j ≤ size)
    (heq : inorder size i = inorder size j) : i = j := by
  have hsize : 0 < size := by omega
  have hpi := present_fullPlace hi hile
  have hpj := present_fullPlace hj hjle
  refine fullPlace_injective hi hj (log2_le_log2 hile) (log2_le_log2 hjle) ?_
  rw [inorder_eq, inorder_eq] at heq
  rcases Nat.lt_trichotomy (fullPlace size.log2 i) (fullPlace size.log2 j) with hlt | hsame | hgt
  · exact absurd heq (squeeze_lt (extra_even hsize) hpi hpj hlt).ne
  · exact hsame
  · exact absurd heq (squeeze_lt (extra_even hsize) hpj hpi hgt).ne'

/-! ### The index of a place -/

theorem halvings_eq (x s : ℕ) : halvings ((2 * x + 1) * 2 ^ s) = s := by
  induction s with
  | zero => rw [halvings, if_pos (Or.inr (by omega))]
  | succ s ih =>
    have hdouble : (2 * x + 1) * 2 ^ (s + 1) = 2 * ((2 * x + 1) * 2 ^ s) := by ring
    have hpos : 0 < (2 * x + 1) * 2 ^ s := by positivity
    rw [hdouble, halvings, if_neg (by omega), Nat.mul_div_cancel_left _ Nat.two_pos, ih]

/-- A place, numbered with the missing ones, is one that the tree has. -/
theorem unsqueeze_spec {j : ℕ} (hj : 0 < j) (hle : j ≤ size) :
    0 < unsqueeze (extra size) j ∧ unsqueeze (extra size) j < 2 ^ (size.log2 + 1) ∧
      Present (extra size) (unsqueeze (extra size) j) ∧
      squeeze (extra size) (unsqueeze (extra size) j) = j := by
  obtain ⟨d, hd, hsum, hextra⟩ := @extra_eq size (by omega)
  rw [unsqueeze, squeeze, Present, pow_succ]
  split_ifs <;> omega

/-- The index of a place has that place. -/
theorem inorder_slotAt {j : ℕ} (hj : 0 < j) (hle : j ≤ size) :
    0 < slotAt size j ∧ slotAt size j ≤ size ∧ inorder size (slotAt size j) = j := by
  obtain ⟨d, hd, hsum, hextra⟩ := @extra_eq size (by omega)
  obtain ⟨hpos, hlt, hpresent, hsqueeze⟩ := unsqueeze_spec hj hle
  obtain ⟨s, m, ⟨x, rfl⟩, hp⟩ := Nat.exists_eq_two_pow_mul_odd hpos.ne'
  rw [mul_comm] at hp
  have hs : s ≤ size.log2 := by
    refine Nat.lt_succ_iff.mp ((Nat.pow_lt_pow_iff_right one_lt_two).mp (lt_of_le_of_lt ?_ hlt))
    rw [hp]
    exact Nat.le_mul_of_pos_left _ (Nat.succ_pos _)
  obtain ⟨t, ht⟩ := Nat.exists_eq_add_of_le hs
  have hx : x < 2 ^ t := by
    have hfull : (2 * x + 1) * 2 ^ s < 2 ^ (t + 1) * 2 ^ s := by
      rw [← hp, ← pow_add]
      have hsame : t + 1 + s = size.log2 + 1 := by omega
      rwa [hsame]
    have hhalf := Nat.lt_of_mul_lt_mul_right hfull
    rw [pow_succ] at hhalf
    omega
  have hquot : (2 * x + 1) * 2 ^ s / 2 ^ (s + 1) = x := by
    rw [pow_succ', Nat.mul_div_mul_right _ _ (Nat.two_pow_pos s)]
    omega
  have hslot : slotAt size j = 2 ^ t + x := by
    rw [slotAt, hp, halvings_eq, hquot, ht, Nat.add_sub_cancel_left]
  have hplace : fullPlace size.log2 (2 ^ t + x) = unsqueeze (extra size) j := by
    have hshift : size.log2 - t = s := by omega
    rw [fullPlace_level hx, hshift, hp]
  refine ⟨by rw [hslot]; positivity, ?_, by rw [hslot, inorder, hplace, hsqueeze]⟩
  rw [hslot]
  rcases Nat.eq_zero_or_pos s with rfl | hs'
  · -- On the lowest level the place is odd, so it is there.
    rw [pow_zero, Nat.mul_one] at hp
    rw [Present, hp] at hpresent
    have htop : t = size.log2 := by omega
    rw [htop]
    omega
  · have hpow : 2 ^ (t + 1) ≤ 2 ^ size.log2 := Nat.pow_le_pow_right Nat.two_pos (by omega)
    rw [pow_succ] at hpow
    omega

/-- An index is the one of its place. -/
theorem slotAt_inorder (hi : 0 < i) (hle : i ≤ size) : slotAt size (inorder size i) = i := by
  obtain ⟨hpos, hbound⟩ := inorder_bounds hi hle
  obtain ⟨hslot, hslotLe, heq⟩ := inorder_slotAt hpos hbound
  exact inorder_injective hslot hslotLe hi hle heq

/-! ### Walks backwards -/

theorem rightAncestor_two_pow_sub_one (m : ℕ) : rightAncestor (2 ^ m - 1) = 0 := by
  induction m with
  | zero => exact rightAncestor_double 0
  | succ m ih =>
    have hpos := Nat.two_pow_pos m
    have hdouble : 2 ^ (m + 1) - 1 = 2 * (2 ^ m - 1) + 1 := by
      rw [pow_succ]
      omega
    rw [hdouble, rightAncestor_double_add_one, ih]

/-- The indices without left ancestor are the leftmost of their levels. -/
theorem leftAncestor_eq_zero_iff (hi : 0 < i) : leftAncestor i = 0 ↔ i = 2 ^ i.log2 := by
  obtain ⟨b, x, hx, hix, hb⟩ := exists_level hi
  have hplace : fullPlace b i = 2 * x + 1 := by
    rw [hix, fullPlace_level hx, Nat.sub_self, pow_zero, Nat.mul_one]
  have hanc := fullPlace_leftAncestor hi hb.le
  rw [hplace, hb, Nat.sub_self, pow_zero] at hanc
  rw [hb]
  constructor
  · intro hzero
    omega
  · intro hpow
    rcases hanc with ⟨hzero, -⟩ | ⟨hpos, hless, hanc⟩
    · exact hzero
    · have : 0 < fullPlace b (leftAncestor i) := Nat.mul_pos (Nat.succ_pos _) (Nat.two_pow_pos _)
      omega

/-- The indices without right ancestor are the rightmost of their levels. -/
theorem rightAncestor_eq_zero_iff (hi : 0 < i) :
    rightAncestor i = 0 ↔ i + 1 = 2 ^ (i + 1).log2 := by
  constructor
  · intro hzero
    obtain ⟨b, x, hx, hix, hb⟩ := exists_level hi
    have hplace : fullPlace b i = 2 * x + 1 := by
      rw [hix, fullPlace_level hx, Nat.sub_self, pow_zero, Nat.mul_one]
    have hanc := fullPlace_rightAncestor hi hb.le
    rw [hplace, hb, Nat.sub_self, pow_zero, pow_succ] at hanc
    have hnext : i + 1 = 2 ^ (b + 1) := by
      rw [pow_succ]
      omega
    rw [hnext, Nat.log2_two_pow]
  · intro hpow
    have hi : i = 2 ^ (i + 1).log2 - 1 := by omega
    rw [hi]
    exact rightAncestor_two_pow_sub_one _

/-- The walk backwards begins at the last place. -/
theorem inorder_lastSlot (hsize : 0 < size) :
    0 < lastSlot size ∧ lastSlot size ≤ size ∧ inorder size (lastSlot size) = size := by
  have hle : 2 ^ (size + 1).log2 ≤ size + 1 := Nat.log2_self_le (Nat.succ_ne_zero size)
  have hlt : size + 1 < 2 ^ ((size + 1).log2 + 1) := Nat.lt_log2_self
  rw [pow_succ] at hlt
  have hbounds : 0 < lastSlot size ∧ lastSlot size ≤ size ∧ size < 2 * lastSlot size + 1 := by
    rw [lastSlot]
    rcases Nat.eq_zero_or_pos (size + 1).log2 with hzero | hpos
    · rw [hzero] at hlt
      omega
    · have htwo : 2 ^ 1 ≤ 2 ^ (size + 1).log2 := Nat.pow_le_pow_right Nat.two_pos hpos
      omega
  refine ⟨hbounds.1, hbounds.2.1, ?_⟩
  rcases inorder_of_no_right hbounds.1 hbounds.2.1 hbounds.2.2 with ⟨-, hlast⟩ | ⟨hpos, -⟩
  · exact hlast
  · exact absurd (rightAncestor_two_pow_sub_one _) hpos.ne'

/-- The previous index comes right before, and there is none before the first. -/
theorem inorder_prevSlot (hi : 0 < i) (hle : i ≤ size) :
    (prevSlot size i = 0 ∧ inorder size i = 1) ∨
      (0 < prevSlot size i ∧ prevSlot size i ≤ size ∧
        inorder size (prevSlot size i) + 1 = inorder size i) := by
  rw [prevSlot]
  by_cases hleft : 2 * i ≤ size
  swap
  · rw [if_neg hleft]
    rcases inorder_of_no_left hi hle (by omega) with hfirst | ⟨hanc, hplace⟩
    · exact Or.inl hfirst
    · exact Or.inr ⟨by omega, (inorder_leftAncestor hi hle hanc).1, hplace.symm⟩
  rw [if_pos hleft]
  obtain ⟨d, hd, hsum, hextra⟩ := @extra_eq size (by omega)
  obtain ⟨b, x, hx, hix, hb⟩ := exists_level hi
  have hlog := log2_le_log2 hleft
  rw [(log2_double hi).1, hb] at hlog
  rw [(log2_double hi).2, hb]
  -- The rightmost index below the left child, were the lowest level full.
  obtain ⟨e, he⟩ := Nat.exists_eq_add_of_le hlog
  have hpos : 0 < (2 * x + 1) * 2 ^ e := by positivity
  have hdeep : (2 * i + 1) * 2 ^ (size.log2 - (b + 1)) - 1 =
      2 ^ size.log2 + ((2 * x + 1) * 2 ^ e - 1) := by
    have hsame : (2 * i + 1) * 2 ^ (size.log2 - (b + 1)) = 2 ^ size.log2 + (2 * x + 1) * 2 ^ e := by
      rw [he, Nat.add_sub_cancel_left, hix, pow_add]
      ring
    omega
  have hdeepLt : (2 * x + 1) * 2 ^ e - 1 < 2 ^ size.log2 := by
    have hlt : (2 * x + 1) * 2 ^ e < 2 ^ size.log2 := by
      rw [he, pow_add]
      refine Nat.mul_lt_mul_of_pos_right ?_ (Nat.two_pow_pos e)
      rw [pow_succ]
      omega
    omega
  have hplace : fullPlace size.log2 i = 2 * ((2 * x + 1) * 2 ^ e) := by
    have hpow : 2 ^ (size.log2 - b) = 2 * 2 ^ e := by
      rw [← pow_succ']
      congr 1
      omega
    rw [hix, fullPlace_level hx, hpow]
    ring
  rw [hdeep]
  dsimp only
  by_cases hover : 2 ^ size.log2 + ((2 * x + 1) * 2 ^ e - 1) > size
  · rw [if_pos hover]
    -- That index is missing, and its parent is the previous one.
    obtain ⟨e', rfl⟩ : ∃ e', e = e' + 1 := by
      refine ⟨e - 1, ?_⟩
      rcases Nat.eq_zero_or_pos e with rfl | hpos
      · rw [pow_zero, Nat.mul_one] at hover
        have hsame : 2 * i = 2 ^ size.log2 + 2 * x := by
          rw [hix, he, Nat.add_zero, pow_succ]
          ring
        omega
      · omega
    have hdouble : (2 * x + 1) * 2 ^ (e' + 1) = 2 * ((2 * x + 1) * 2 ^ e') := by ring
    have hpos' : 0 < (2 * x + 1) * 2 ^ e' := by positivity
    have hpow : 2 ^ size.log2 = 2 * 2 ^ (b + 1 + e') := by
      rw [← pow_succ', he]
      congr 1
    have hhalf : (2 ^ size.log2 + ((2 * x + 1) * 2 ^ (e' + 1) - 1)) / 2 =
        2 ^ (b + 1 + e') + ((2 * x + 1) * 2 ^ e' - 1) := by
      rw [hpow, hdouble]
      omega
    have hlt' : (2 * x + 1) * 2 ^ e' - 1 < 2 ^ (b + 1 + e') := by
      rw [hpow, hdouble] at hdeepLt
      omega
    have hone : size.log2 - (b + 1 + e') = 1 := by omega
    rw [hhalf]
    refine Or.inr ⟨by positivity, by omega, ?_⟩
    rw [inorder_eq, inorder_eq, fullPlace_level hlt', hone, hplace, squeeze, squeeze, pow_one]
    rw [hdouble] at hover ⊢
    generalize (2 * x + 1) * 2 ^ e' = y at hover hpos' ⊢
    split_ifs <;> omega
  · rw [if_neg hover]
    refine Or.inr ⟨by positivity, by omega, ?_⟩
    rw [inorder_eq, inorder_eq, fullPlace_level hdeepLt, Nat.sub_self, pow_zero, hplace, squeeze,
      squeeze]
    generalize (2 * x + 1) * 2 ^ e = y at hover hpos ⊢
    split_ifs <;> omega

end Subvol.Lib.ArrayTree

import Mathlib.Data.List.Nodup
import Mathlib.Data.Nat.Bitwise
import Subvol.Lib.ArrayTree

/-!
# The order of the search trees

Model of `eytzinger.rs`: the slots of a search tree that is kept in an array, their places in order,
and the walks over them. The source computes in `u32`. A failed assertion, a sum or difference without
room and a shift by too much are `none`, and so is a shift that loses a bit, which the source would
not notice.

## Main definitions

* `U32.add`, `U32.sub`, `U32.shl`, `U32.shr`, `U32.leadingZeros`, `U32.trailingZeros`.
* `eytzinger1First`, `eytzinger1Last`, `eytzinger1Next`, `eytzinger1Prev`, `eytzinger1Extra`.
* `eytzinger1ToInorderExtra`, `inorderToEytzinger1Extra`.
* `walkSlots`: the slots that a walk visits; `slotsInOrder`.

## Main results

* `eytzinger1Next_eq`, `eytzinger1Prev_eq`, `eytzinger1ToInorderExtra_eq`,
  `inorderToEytzinger1Extra_eq`: every function computes what it is for.
* `walk_next`, `walk_prev`: the walks, from the first slot and from the last.
* `eytzinger1_inorder`: places and slots are one to one, and the walks visit all slots in order.
-/

namespace Subvol

open Lib.ArrayTree

/-! ### Arithmetic -/

namespace U32

def add (a b : ℕ) : Option ℕ := if a + b < 2 ^ 32 then some (a + b) else none

def sub (a b : ℕ) : Option ℕ := if b ≤ a then some (a - b) else none

def shl (a s : ℕ) : Option ℕ := if s < 32 ∧ a * 2 ^ s < 2 ^ 32 then some (a * 2 ^ s) else none

def shr (a s : ℕ) : Option ℕ := if s < 32 then some (a / 2 ^ s) else none

/-- `leading_zeros`. -/
def leadingZeros (a : ℕ) : ℕ := if a = 0 then 32 else 31 - a.log2

/-- `trailing_zeros` of a number of the given bits. -/
def trailingZerosOf : ℕ → ℕ → ℕ
  | 0, _ => 0
  | bits + 1, n => if n % 2 = 0 then trailingZerosOf bits (n / 2) + 1 else 0

/-- `trailing_ones` of a number of the given bits. -/
def trailingOnesOf : ℕ → ℕ → ℕ
  | 0, _ => 0
  | bits + 1, n => if n % 2 = 1 then trailingOnesOf bits (n / 2) + 1 else 0

/-- `trailing_zeros`. -/
def trailingZeros (n : ℕ) : ℕ := trailingZerosOf 32 n

/-- `trailing_ones`. -/
def trailingOnes (n : ℕ) : ℕ := trailingOnesOf 32 n

end U32

open U32

/-! ### Slots -/

/-- `eytzinger1_child`. -/
def eytzinger1Child (i child : ℕ) : Option ℕ :=
  if child ≤ 1 then do
    let i ← shl i 1
    add i child
  else none

/-- `eytzinger1_left_child`. -/
def eytzinger1LeftChild (i : ℕ) : Option ℕ := eytzinger1Child i 0

/-- `eytzinger1_right_child`. -/
def eytzinger1RightChild (i : ℕ) : Option ℕ := eytzinger1Child i 1

/-- `rounddown_pow_of_two`. -/
def rounddownPowOfTwo (v : ℕ) : Option ℕ :=
  if v = 0 then some 0
  else do
    let s ← sub 31 (leadingZeros v)
    shl 1 s

/-- `eytzinger1_first`. -/
def eytzinger1First (size : ℕ) : Option ℕ := rounddownPowOfTwo size

/-- `eytzinger1_last`. -/
def eytzinger1Last (size : ℕ) : Option ℕ := do
  let v ← add size 1
  let r ← rounddownPowOfTwo v
  sub r 1

/-- How far a slot is from the lowest level, in bits. -/
def levelShift (size i : ℕ) : Option ℕ := do
  let h ← sub 31 (leadingZeros size)
  let b ← sub 31 (leadingZeros i)
  sub h b

/-- `eytzinger1_next`. -/
def eytzinger1Next (i size : ℕ) : Option ℕ :=
  if i ≠ 0 ∧ i ≤ size then do
    let right ← eytzinger1RightChild i
    if right ≤ size then
      let i ← shl right (← levelShift size right)
      shr i (if i > size then 1 else 0)
    else shr i (← add (trailingOnes i) 1)
  else none

/-- `eytzinger1_prev`. -/
def eytzinger1Prev (i size : ℕ) : Option ℕ :=
  if i ≠ 0 ∧ i ≤ size then do
    let left ← eytzinger1LeftChild i
    if left ≤ size then
      let i ← add left 1
      let i ← shl i (← levelShift size i)
      let i ← sub i 1
      shr i (if i > size then 1 else 0)
    else shr i (← add (trailingZeros i) 1)
  else none

/-- `eytzinger1_extra`. -/
def eytzinger1Extra (size : ℕ) : Option ℕ :=
  if size ≠ 0 then do
    let next ← add size 1
    let r ← rounddownPowOfTwo size
    let d ← sub next r
    shl d 1
  else some 0

/-- `__eytzinger1_to_inorder`. -/
def eytzinger1ToInorderExtra (i size extra : ℕ) : Option ℕ :=
  if i ≠ 0 ∧ i ≤ size then do
    let b ← sub 31 (leadingZeros i)
    let h ← sub 31 (leadingZeros size)
    let shift ← sub h b
    let i := i ^^^ (← shl 1 b)
    let i ← shl i 1
    let i := i ||| 1
    let i ← shl i shift
    if i > extra then
      let d ← sub i extra
      sub i (← shr d 1)
    else some i
  else none

/-- `__inorder_to_eytzinger1`. -/
def inorderToEytzinger1Extra (i size extra : ℕ) : Option ℕ :=
  if i ≠ 0 ∧ i ≤ size then do
    let i ← (if i > extra then do
        let d ← sub i extra
        add i d
      else some i)
    let shift := trailingZeros i
    let j ← shr i (← add shift 1)
    let h ← sub 31 (leadingZeros size)
    let k ← sub h shift
    some (j ||| (← shl 1 k))
  else none

/-- The slots that a walk visits before it comes to `0`; `none` when there are more than `fuel`. -/
def walkSlots (step : ℕ → Option ℕ) : ℕ → ℕ → Option (List ℕ)
  | _, 0 => some []
  | 0, _ + 1 => none
  | fuel + 1, i + 1 => do
    let j ← step (i + 1)
    let slots ← walkSlots step fuel j
    some ((i + 1) :: slots)

/-! ### The arithmetic -/

namespace U32

theorem add_eq {a b : ℕ} (h : a + b < 2 ^ 32) : add a b = some (a + b) := if_pos h

theorem sub_eq {a b : ℕ} (h : b ≤ a) : sub a b = some (a - b) := if_pos h

theorem shl_eq {a s : ℕ} (hs : s < 32) (h : a * 2 ^ s < 2 ^ 32) : shl a s = some (a * 2 ^ s) :=
  if_pos ⟨hs, h⟩

theorem shr_eq {s : ℕ} (a : ℕ) (h : s < 32) : shr a s = some (a / 2 ^ s) := if_pos h

theorem log2_lt {a : ℕ} (hpos : 0 < a) (h : a < 2 ^ 32) : a.log2 < 32 :=
  (Nat.log2_lt hpos.ne').mpr h

/-- The place of the highest bit. -/
theorem sub_leadingZeros {a : ℕ} (hpos : 0 < a) (h : a < 2 ^ 32) :
    sub 31 (leadingZeros a) = some a.log2 := by
  have hlog := log2_lt hpos h
  rw [leadingZeros, if_neg hpos.ne', sub_eq (by omega)]
  congr 1
  omega

/-- Shifting out the ones at the end leaves the right ancestor. -/
theorem div_trailingOnesOf (bits n : ℕ) (h : n < 2 ^ bits) :
    n / 2 ^ (trailingOnesOf bits n + 1) = rightAncestor n := by
  induction bits generalizing n with
  | zero =>
    have hzero : n = 0 := by omega
    rw [hzero, Nat.zero_div, rightAncestor, if_pos rfl]
  | succ bits ih =>
    rw [pow_succ] at h
    rw [trailingOnesOf, rightAncestor]
    by_cases hodd : n % 2 = 1
    · rw [if_pos hodd, if_neg (by omega), ← ih (n / 2) (by omega), Nat.div_div_eq_div_mul, ← pow_succ']
    · rw [if_neg hodd, if_pos (by omega), Nat.zero_add, pow_one]

/-- Shifting out the zeros at the end leaves the left ancestor. -/
theorem div_trailingZerosOf (bits n : ℕ) (hpos : 0 < n) (h : n < 2 ^ bits) :
    n / 2 ^ (trailingZerosOf bits n + 1) = leftAncestor n := by
  induction bits generalizing n with
  | zero => omega
  | succ bits ih =>
    rw [pow_succ] at h
    rw [trailingZerosOf, leftAncestor, if_neg hpos.ne']
    by_cases heven : n % 2 = 0
    · rw [if_pos heven, if_neg (by omega), ← ih (n / 2) (by omega) (by omega),
        Nat.div_div_eq_div_mul, ← pow_succ']
    · rw [if_neg heven, if_pos (by omega), Nat.zero_add, pow_one]

theorem two_pow_trailingOnesOf_le (bits n : ℕ) : 2 ^ trailingOnesOf bits n ≤ n + 1 := by
  induction bits generalizing n with
  | zero => exact Nat.le_add_left 1 n
  | succ bits ih =>
    have hhalf := ih (n / 2)
    rw [trailingOnesOf]
    split_ifs
    · rw [pow_succ]
      omega
    · rw [pow_zero]
      omega

theorem two_pow_trailingZerosOf_le (bits : ℕ) {n : ℕ} (hpos : 0 < n) :
    2 ^ trailingZerosOf bits n ≤ n := by
  induction bits generalizing n with
  | zero => exact hpos
  | succ bits ih =>
    rw [trailingZerosOf]
    split_ifs with heven
    · have hhalf := ih (n := n / 2) (by omega)
      rw [pow_succ]
      omega
    · rw [pow_zero]
      omega

theorem trailingZerosOf_eq (bits : ℕ) {n : ℕ} (hpos : 0 < n) (h : n < 2 ^ bits) :
    trailingZerosOf bits n = halvings n := by
  induction bits generalizing n with
  | zero => omega
  | succ bits ih =>
    rw [pow_succ] at h
    rw [trailingZerosOf, halvings]
    by_cases heven : n % 2 = 0
    · rw [if_pos heven, if_neg (by omega), ih (by omega) (by omega)]
    · rw [if_neg heven, if_pos (by omega)]

/-- The shifts of a walk upwards are in range. -/
theorem trailingOnes_lt {n : ℕ} (h : n + 1 < 2 ^ 31) : trailingOnes n + 1 < 32 := by
  have hpow : 2 ^ trailingOnes n < 2 ^ 31 := (two_pow_trailingOnesOf_le 32 n).trans_lt h
  have := (Nat.pow_lt_pow_iff_right one_lt_two).mp hpow
  omega

theorem trailingZeros_lt {n : ℕ} (hpos : 0 < n) (h : n < 2 ^ 31) : trailingZeros n + 1 < 32 := by
  have hpow : 2 ^ trailingZeros n < 2 ^ 31 := (two_pow_trailingZerosOf_le 32 hpos).trans_lt h
  have := (Nat.pow_lt_pow_iff_right one_lt_two).mp hpow
  omega

/-- The highest bit is cleared. -/
theorem xor_two_pow {b x : ℕ} (hx : x < 2 ^ b) : (2 ^ b + x) ^^^ 2 ^ b = x := by
  have hor := Nat.two_pow_add_eq_or_of_lt hx 1
  rw [Nat.mul_one] at hor
  refine Nat.eq_of_testBit_eq fun k => ?_
  rw [hor, Nat.testBit_xor, Nat.testBit_or, Nat.testBit_two_pow]
  rcases eq_or_ne b k with rfl | hne
  · simp [Nat.testBit_lt_two_pow hx]
  · simp [hne]

/-- The lowest bit is set. -/
theorem double_or_one (x : ℕ) : x * 2 ^ 1 ||| 1 = 2 * x + 1 := by
  rw [Nat.mul_comm, ← Nat.two_pow_add_eq_or_of_lt (by decide) x, pow_one]

end U32

/-! ### What the functions compute -/

theorem rounddownPowOfTwo_eq {v : ℕ} (hpos : 0 < v) (h : v < 2 ^ 32) :
    rounddownPowOfTwo v = some (2 ^ v.log2) := by
  have hle := Nat.log2_self_le hpos.ne'
  rw [rounddownPowOfTwo, if_neg hpos.ne', sub_leadingZeros hpos h]
  simp only [Option.bind_eq_bind, Option.bind_some]
  rw [shl_eq (log2_lt hpos h) (by omega), Nat.one_mul]

theorem levelShift_eq {size i : ℕ} (hi : 0 < i) (hilt : i < 2 ^ 32) (hpos : 0 < size)
    (hlt : size < 2 ^ 32) (hlog : i.log2 ≤ size.log2) :
    levelShift size i = some (size.log2 - i.log2) := by
  rw [levelShift, sub_leadingZeros hpos hlt, sub_leadingZeros hi hilt]
  exact sub_eq hlog

/-- Every slot of a full lowest level fits in 31 bits. -/
theorem two_pow_log2_le {size : ℕ} (hpos : 0 < size) (hlt : size < 2 ^ 31) :
    2 ^ (size.log2 + 1) ≤ 2 ^ 31 :=
  Nat.pow_le_pow_right Nat.two_pos ((Nat.log2_lt hpos.ne').mpr hlt)

/-- Moved down to the lowest level, a slot stays below the next one. -/
theorem mul_two_pow_lt {size i : ℕ} (hi : 0 < i) (hlog : i.log2 ≤ size.log2) :
    i * 2 ^ (size.log2 - i.log2) < 2 ^ (size.log2 + 1) := by
  obtain ⟨b, x, hx, hix, hb⟩ := exists_level hi
  rw [hb] at hlog ⊢
  obtain ⟨e, he⟩ := Nat.exists_eq_add_of_le hlog
  have hsplit : 2 ^ (size.log2 + 1) = 2 ^ (b + 1) * 2 ^ (size.log2 - b) := by
    rw [← pow_add]
    congr 1
    omega
  rw [hsplit]
  refine Nat.mul_lt_mul_of_pos_right ?_ (Nat.two_pow_pos _)
  rw [hix, pow_succ]
  omega

section

variable {size i : ℕ}

theorem eytzinger1Child_eq {child : ℕ} (h : child ≤ 1) (hi : i < 2 ^ 31) :
    eytzinger1Child i child = some (2 * i + child) := by
  rw [eytzinger1Child, if_pos h, shl_eq (by omega) (by omega)]
  simp only [Option.bind_eq_bind, Option.bind_some]
  rw [add_eq (by omega), pow_one, Nat.mul_comm]

theorem eytzinger1First_eq (hpos : 0 < size) (hlt : size < 2 ^ 31) :
    eytzinger1First size = some (firstSlot size) :=
  rounddownPowOfTwo_eq hpos (by omega)

theorem eytzinger1Last_eq (hlt : size < 2 ^ 31) :
    eytzinger1Last size = some (lastSlot size) := by
  rw [eytzinger1Last, add_eq (by omega)]
  simp only [Option.bind_eq_bind, Option.bind_some]
  rw [rounddownPowOfTwo_eq (by omega) (by omega)]
  exact sub_eq (Nat.two_pow_pos _)

theorem eytzinger1Extra_eq (hpos : 0 < size) (hlt : size < 2 ^ 31) :
    eytzinger1Extra size = some (extra size) := by
  have hle := Nat.log2_self_le hpos.ne'
  have hone := Nat.two_pow_pos size.log2
  rw [eytzinger1Extra, if_pos hpos.ne', add_eq (by omega), rounddownPowOfTwo_eq hpos (by omega)]
  simp only [Option.bind_eq_bind, Option.bind_some]
  rw [sub_eq (by omega)]
  simp only [Option.bind_some]
  rw [shl_eq (by omega) (by omega), extra, pow_one]

theorem shr_over (size i : ℕ) :
    shr i (if i > size then 1 else 0) = some (if i > size then i / 2 else i) := by
  split_ifs
  · rw [shr_eq i (by omega), pow_one]
  · rw [shr_eq i (by omega), pow_zero, Nat.div_one]

theorem eytzinger1Next_eq (hi : 0 < i) (hle : i ≤ size) (hlt : size + 1 < 2 ^ 31) :
    eytzinger1Next i size = some (nextSlot size i) := by
  rw [eytzinger1Next, if_pos ⟨hi.ne', hle⟩, eytzinger1RightChild,
    eytzinger1Child_eq le_rfl (by omega), nextSlot]
  simp only [Option.bind_eq_bind, Option.bind_some]
  by_cases hright : 2 * i + 1 ≤ size
  · rw [if_pos hright, if_pos hright]
    have hlog := log2_le_log2 hright
    have hdeep := mul_two_pow_lt (by omega) hlog
    have hfit := @two_pow_log2_le size (by omega) (by omega)
    rw [levelShift_eq (by omega) (by omega) (by omega) (by omega) hlog]
    simp only [Option.bind_some]
    have hshift := log2_lt (a := size) (by omega) (by omega)
    rw [shl_eq (by omega) (by omega)]
    exact shr_over _ _
  · rw [if_neg hright, if_neg hright]
    have hones := trailingOnes_lt (n := i) (by omega)
    rw [add_eq (by omega)]
    simp only [Option.bind_some]
    rw [shr_eq i hones, trailingOnes, div_trailingOnesOf 32 i (by omega)]

theorem eytzinger1Prev_eq (hi : 0 < i) (hle : i ≤ size) (hlt : size + 1 < 2 ^ 31) :
    eytzinger1Prev i size = some (prevSlot size i) := by
  rw [eytzinger1Prev, if_pos ⟨hi.ne', hle⟩, eytzinger1LeftChild,
    eytzinger1Child_eq (Nat.zero_le 1) (by omega), prevSlot]
  simp only [Option.bind_eq_bind, Option.bind_some, Nat.add_zero]
  by_cases hleft : 2 * i ≤ size
  · rw [if_pos hleft, if_pos hleft]
    -- The sibling of the left child is on the same level.
    have hlog := log2_le_log2 hleft
    rw [(log2_double hi).1, ← (log2_double hi).2] at hlog
    have hdeep := mul_two_pow_lt (by omega) hlog
    have hfit := @two_pow_log2_le size (by omega) (by omega)
    have hpos : 0 < (2 * i + 1) * 2 ^ (size.log2 - (2 * i + 1).log2) := by positivity
    have hshift := log2_lt (a := size) (by omega) (by omega)
    rw [add_eq (by omega)]
    simp only [Option.bind_some]
    rw [levelShift_eq (by omega) (by omega) (by omega) (by omega) hlog]
    simp only [Option.bind_some]
    rw [shl_eq (by omega) (by omega)]
    simp only [Option.bind_some]
    rw [sub_eq (by omega)]
    exact shr_over _ _
  · rw [if_neg hleft, if_neg hleft]
    have hzeros := trailingZeros_lt hi (by omega)
    rw [add_eq (by omega)]
    simp only [Option.bind_some]
    rw [shr_eq i hzeros, trailingZeros, div_trailingZerosOf 32 i hi (by omega)]

/-- The place of a slot. -/
theorem eytzinger1ToInorderExtra_eq (hi : 0 < i) (hle : i ≤ size) (hlt : size < 2 ^ 31) :
    eytzinger1ToInorderExtra i size (extra size) = some (inorder size i) := by
  have hlog := log2_le_log2 hle
  have hdeep := mul_two_pow_lt hi hlog
  have hfit := @two_pow_log2_le size (by omega) hlt
  have hshift := log2_lt (a := size) (by omega) (by omega)
  rw [eytzinger1ToInorderExtra, if_pos ⟨hi.ne', hle⟩, sub_leadingZeros hi (by omega),
    sub_leadingZeros (by omega) (by omega), inorder_eq]
  simp only [Option.bind_eq_bind, Option.bind_some]
  obtain ⟨b, x, hx, hix, hb⟩ := exists_level hi
  rw [hb] at hlog hdeep ⊢
  rw [sub_eq hlog]
  simp only [Option.bind_some]
  have hpow := Nat.two_pow_pos b
  rw [shl_eq (by omega) (by omega), Nat.one_mul, hix]
  simp only [Option.bind_some]
  rw [xor_two_pow hx, shl_eq (by omega) (by omega)]
  simp only [Option.bind_some]
  have hplace : (2 * x + 1) * 2 ^ (size.log2 - b) < 2 ^ 32 := by
    have hsplit : 2 ^ (size.log2 + 1) = 2 ^ (b + 1) * 2 ^ (size.log2 - b) := by
      rw [← pow_add]
      congr 1
      omega
    have hmul : (2 * x + 1) * 2 ^ (size.log2 - b) < 2 ^ (b + 1) * 2 ^ (size.log2 - b) := by
      refine Nat.mul_lt_mul_of_pos_right ?_ (Nat.two_pow_pos _)
      rw [pow_succ]
      omega
    omega
  rw [double_or_one, shl_eq (by omega) hplace, fullPlace_level hx, squeeze]
  simp only [Option.bind_some]
  split_ifs with hextra
  · rw [sub_eq (by omega), Option.bind_some, shr_eq _ (by omega), Option.bind_some, pow_one]
    exact sub_eq (by omega)
  · rfl

/-- The slot of a place. -/
theorem inorderToEytzinger1Extra_eq {j : ℕ} (hj : 0 < j) (hle : j ≤ size) (hlt : size < 2 ^ 31) :
    inorderToEytzinger1Extra j size (extra size) = some (slotAt size j) := by
  have hpos : 0 < size := by omega
  have hfit := two_pow_log2_le hpos hlt
  have hshift : size.log2 < 31 := (Nat.log2_lt hpos.ne').mpr hlt
  obtain ⟨hplace, hplaceLt, -, -⟩ := unsqueeze_spec hj hle
  -- The missing places are counted again.
  have hunsqueeze : (if j > extra size then do
        let d ← sub j (extra size)
        add j d
      else some j) = some (unsqueeze (extra size) j) := by
    rw [unsqueeze] at hplaceLt ⊢
    split_ifs with hextra
    · rw [if_pos hextra] at hplaceLt
      rw [sub_eq (by omega)]
      exact add_eq (by omega)
    · rfl
  rw [inorderToEytzinger1Extra, if_pos ⟨hj.ne', hle⟩, hunsqueeze, slotAt]
  generalize unsqueeze (extra size) j = p at hplace hplaceLt ⊢
  have hzeros : trailingZeros p = halvings p := trailingZerosOf_eq 32 hplace (by omega)
  have hhalvings : halvings p ≤ size.log2 := by
    have hle := two_pow_trailingZerosOf_le 32 hplace
    rw [← trailingZeros, hzeros] at hle
    exact Nat.lt_succ_iff.mp ((Nat.pow_lt_pow_iff_right one_lt_two).mp (hle.trans_lt hplaceLt))
  have hquot : p / 2 ^ (halvings p + 1) < 2 ^ (size.log2 - halvings p) := by
    rw [Nat.div_lt_iff_lt_mul (Nat.two_pow_pos _), ← pow_add]
    have hsame : size.log2 - halvings p + (halvings p + 1) = size.log2 + 1 := by omega
    rwa [hsame]
  have hbit : 2 ^ (size.log2 - halvings p) ≤ 2 ^ 31 := Nat.pow_le_pow_right Nat.two_pos (by omega)
  simp only [Option.bind_eq_bind, Option.bind_some]
  rw [hzeros, add_eq (by omega), Option.bind_some, shr_eq _ (by omega), Option.bind_some,
    sub_leadingZeros hpos (by omega), Option.bind_some, sub_eq hhalvings, Option.bind_some,
    shl_eq (by omega) (by omega), Option.bind_some, Nat.one_mul]
  have hor := Nat.two_pow_add_eq_or_of_lt hquot 1
  rw [Nat.mul_one] at hor
  rw [hor, Nat.or_comm]

/-! ### Walks -/

/-- A walk along slots that are not `0`, with `0` behind the last. -/
theorem walkSlots_eq {step : ℕ → Option ℕ} (n : ℕ) (f : ℕ → ℕ) (hend : f n = 0)
    (hpos : ∀ k < n, 0 < f k) (hstep : ∀ k < n, step (f k) = some (f (k + 1))) :
    walkSlots step n (f 0) = some ((List.range n).map f) := by
  induction n generalizing f with
  | zero =>
    rw [hend]
    rfl
  | succ n ih =>
    have hfirst := hstep 0 n.succ_pos
    have hrest := ih (fun k => f (k + 1)) hend (fun k hk => hpos (k + 1) (by omega))
      (fun k hk => hstep (k + 1) (by omega))
    obtain ⟨i, hi⟩ := Nat.exists_eq_add_of_lt (hpos 0 n.succ_pos)
    rw [Nat.zero_add] at hi
    rw [hi] at hfirst
    rw [Nat.zero_add] at hfirst hrest
    rw [hi, walkSlots, hfirst, List.range_succ_eq_map, List.map_cons, List.map_map, hi]
    simp only [Option.bind_eq_bind, Option.bind_some, hrest]
    rfl

/-- The slots in order. -/
def slotsInOrder (size : ℕ) : List ℕ := (List.range' 1 size).map (slotAt size)

theorem mem_slotsInOrder : i ∈ slotsInOrder size ↔ 0 < i ∧ i ≤ size := by
  simp only [slotsInOrder, List.mem_map, List.mem_range'_1]
  constructor
  · rintro ⟨j, hj, rfl⟩
    obtain ⟨hpos, hle, -⟩ := @inorder_slotAt size j (by omega) (by omega)
    exact ⟨hpos, hle⟩
  · rintro ⟨hpos, hle⟩
    obtain ⟨hplace, hplaceLe⟩ := inorder_bounds hpos hle
    exact ⟨inorder size i, by omega, slotAt_inorder hpos hle⟩

theorem slotsInOrder_nodup (size : ℕ) : (slotsInOrder size).Nodup := by
  refine List.Nodup.map_on (fun j hj k hk heq => ?_) List.nodup_range'
  rw [List.mem_range'_1] at hj hk
  rw [← (@inorder_slotAt size j (by omega) (by omega)).2.2,
    ← (@inorder_slotAt size k (by omega) (by omega)).2.2, heq]

theorem nextSlot_slotAt {j : ℕ} (hj : 0 < j) (hle : j ≤ size) :
    nextSlot size (slotAt size j) = if j < size then slotAt size (j + 1) else 0 := by
  obtain ⟨hpos, hslotLe, hplace⟩ := inorder_slotAt hj hle
  rcases inorder_nextSlot hpos hslotLe with ⟨hnone, hlast⟩ | ⟨hnext, hnextLe, hbehind⟩
  · rw [if_neg (by omega), hnone]
  · have hbound := (inorder_bounds hnext hnextLe).2
    rw [hplace] at hbehind
    rw [if_pos (by omega), ← hbehind, slotAt_inorder hnext hnextLe]

theorem prevSlot_slotAt {j : ℕ} (hj : 0 < j) (hle : j ≤ size) :
    prevSlot size (slotAt size j) = if 1 < j then slotAt size (j - 1) else 0 := by
  obtain ⟨hpos, hslotLe, hplace⟩ := inorder_slotAt hj hle
  rcases inorder_prevSlot hpos hslotLe with ⟨hnone, hfirst⟩ | ⟨hprev, hprevLe, hbefore⟩
  · rw [if_neg (by omega), hnone]
  · have hbound := (inorder_bounds hprev hprevLe).1
    rw [hplace] at hbefore
    have hback : j - 1 = inorder size (prevSlot size (slotAt size j)) := by omega
    rw [if_pos (by omega), hback, slotAt_inorder hprev hprevLe]

/-- The walk from the first slot visits the slots in order. -/
theorem walk_next (hpos : 0 < size) (hlt : size + 1 < 2 ^ 31) :
    (eytzinger1First size).bind (walkSlots (eytzinger1Next · size) size) =
      some (slotsInOrder size) := by
  let f : ℕ → ℕ := fun k => if k < size then slotAt size (k + 1) else 0
  have hf : ∀ k < size, f k = slotAt size (k + 1) := fun k hk => if_pos hk
  have hslots : slotsInOrder size = (List.range size).map f := by
    rw [slotsInOrder, List.range'_eq_map_range, List.map_map]
    refine List.map_congr_left fun k hk => ?_
    rw [hf k (List.mem_range.mp hk), Function.comp_apply, Nat.add_comm]
  have hfirst : firstSlot size = f 0 := by
    obtain ⟨hfirst, hle, hplace⟩ := inorder_firstSlot hpos
    rw [hf 0 hpos, Nat.zero_add, ← hplace, slotAt_inorder hfirst hle]
  rw [eytzinger1First_eq hpos (by omega), Option.bind_some, hfirst, hslots]
  refine walkSlots_eq size f (if_neg (lt_irrefl size)) (fun k hk => ?_) (fun k hk => ?_)
  · rw [hf k hk]
    exact (inorder_slotAt k.succ_pos hk).1
  · obtain ⟨hslot, hle, -⟩ := inorder_slotAt k.succ_pos hk
    rw [hf k hk, eytzinger1Next_eq hslot hle hlt, nextSlot_slotAt k.succ_pos hk]

/-- The walk from the last slot visits the slots in the order backwards. -/
theorem walk_prev (hpos : 0 < size) (hlt : size + 1 < 2 ^ 31) :
    (eytzinger1Last size).bind (walkSlots (eytzinger1Prev · size) size) =
      some (slotsInOrder size).reverse := by
  let f : ℕ → ℕ := fun k => if k < size then slotAt size (size - k) else 0
  have hf : ∀ k < size, f k = slotAt size (size - k) := fun k hk => if_pos hk
  have hslots : (slotsInOrder size).reverse = (List.range size).map f := by
    rw [slotsInOrder, ← List.map_reverse, List.reverse_range', List.map_map]
    refine List.map_congr_left fun k hk => ?_
    have hsub : 1 + size - 1 - k = size - k := by omega
    rw [hf k (List.mem_range.mp hk), Function.comp_apply, hsub]
  have hlast : lastSlot size = f 0 := by
    obtain ⟨hlast, hle, hplace⟩ := inorder_lastSlot hpos
    rw [hf 0 hpos, Nat.sub_zero]
    rw [← slotAt_inorder hlast hle, hplace]
  rw [eytzinger1Last_eq (by omega), Option.bind_some, hlast, hslots]
  refine walkSlots_eq size f (if_neg (lt_irrefl size)) (fun k hk => ?_) (fun k hk => ?_)
  · rw [hf k hk]
    exact (inorder_slotAt (by omega) (by omega)).1
  · have hplace : 0 < size - k ∧ size - k ≤ size := by omega
    obtain ⟨hslot, hle, -⟩ := inorder_slotAt hplace.1 hplace.2
    rw [hf k hk, eytzinger1Prev_eq hslot hle hlt, prevSlot_slotAt hplace.1 hplace.2]
    have hsub : size - k - 1 = size - (k + 1) := by omega
    have hmore : 1 < size - k ↔ k + 1 < size := by omega
    simp only [hsub, hmore]
    rfl

end

/-- Places and slots are one to one, and the walks from the first and from the last slot visit all
slots once, in order, and come to `0` behind the last; no step of the arithmetic is without room. -/
theorem eytzinger1_inorder (size : ℕ) (hpos : 1 ≤ size) (hle : size ≤ 2 ^ 31 - 2) :
    ∃ extra slots, eytzinger1Extra size = some extra ∧
      (∀ i, 1 ≤ i → i ≤ size → ∃ j, 1 ≤ j ∧ j ≤ size ∧
        eytzinger1ToInorderExtra i size extra = some j ∧
        inorderToEytzinger1Extra j size extra = some i) ∧
      (∀ j, 1 ≤ j → j ≤ size → ∃ i, 1 ≤ i ∧ i ≤ size ∧
        inorderToEytzinger1Extra j size extra = some i ∧
        eytzinger1ToInorderExtra i size extra = some j) ∧
      (eytzinger1First size).bind (walkSlots (eytzinger1Next · size) size) = some slots ∧
      (eytzinger1Last size).bind (walkSlots (eytzinger1Prev · size) size) = some slots.reverse ∧
      slots.Nodup ∧ (∀ i, i ∈ slots ↔ 1 ≤ i ∧ i ≤ size) ∧
      slots.map (eytzinger1ToInorderExtra · size extra) = (List.range' 1 size).map some := by
  have hlt : size < 2 ^ 31 := by omega
  refine ⟨extra size, slotsInOrder size, eytzinger1Extra_eq hpos hlt, fun i hi hile => ?_,
    fun j hj hjle => ?_, walk_next hpos (by omega), walk_prev hpos (by omega),
    slotsInOrder_nodup size, fun i => mem_slotsInOrder, ?_⟩
  · obtain ⟨hplace, hplaceLe⟩ := inorder_bounds hi hile
    exact ⟨inorder size i, hplace, hplaceLe, eytzinger1ToInorderExtra_eq hi hile hlt,
      by rw [inorderToEytzinger1Extra_eq hplace hplaceLe hlt, slotAt_inorder hi hile]⟩
  · obtain ⟨hslot, hslotLe, hplace⟩ := inorder_slotAt hj hjle
    exact ⟨slotAt size j, hslot, hslotLe, inorderToEytzinger1Extra_eq hj hjle hlt,
      by rw [eytzinger1ToInorderExtra_eq hslot hslotLe hlt, hplace]⟩
  · rw [slotsInOrder, List.map_map]
    refine List.map_congr_left fun j hj => ?_
    rw [List.mem_range'_1] at hj
    obtain ⟨hslot, hslotLe, hplace⟩ := @inorder_slotAt size j (by omega) (by omega)
    rw [Function.comp_apply, eytzinger1ToInorderExtra_eq hslot hslotLe hlt, hplace]

/-- A tree of six slots, with an incomplete lowest level. -/
theorem eytzinger1_inorder_six : ∃ extra slots, eytzinger1Extra 6 = some extra ∧
    (∀ i, 1 ≤ i → i ≤ 6 → ∃ j, 1 ≤ j ∧ j ≤ 6 ∧ eytzinger1ToInorderExtra i 6 extra = some j ∧
      inorderToEytzinger1Extra j 6 extra = some i) ∧
    (∀ j, 1 ≤ j → j ≤ 6 → ∃ i, 1 ≤ i ∧ i ≤ 6 ∧ inorderToEytzinger1Extra j 6 extra = some i ∧
      eytzinger1ToInorderExtra i 6 extra = some j) ∧
    (eytzinger1First 6).bind (walkSlots (eytzinger1Next · 6) 6) = some slots ∧
    (eytzinger1Last 6).bind (walkSlots (eytzinger1Prev · 6) 6) = some slots.reverse ∧
    slots.Nodup ∧ (∀ i, i ∈ slots ↔ 1 ≤ i ∧ i ≤ 6) ∧
    slots.map (eytzinger1ToInorderExtra · 6 extra) = (List.range' 1 6).map some :=
  eytzinger1_inorder 6 (by decide) (by decide)

end Subvol

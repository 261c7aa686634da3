import Mathlib.Data.List.Pairwise
import Mathlib.Data.Nat.Bitwise
import Mathlib.Tactic.Ring

/-!
# Bit fields

Several numbers kept in one word: the field of `len` bits at the place `off`. A field is counted up
by adding the bit it begins with, and written by clearing and setting its bits; as long as it does
not overflow, no other field changes.

## Main definitions

* `field`: the value of a field.
* `setField`: a word with a field written.
* `packFields`: a word made of fields.

## Main results

* `field_add_self`, `field_add_of_disjoint`: counting a field up.
* `field_sub_self`, `field_sub_of_disjoint`: counting a field down.
* `field_setField_self`, `field_setField_of_disjoint`, `setField_setField`, `setField_field`:
  writing a field.
* `field_packFields`: reading what was packed.
* `testBit_setBit`, `testBit_clearBit`, `setBit_eq_add`, `clearBit_add`: one bit.
-/

namespace Subvol.Lib

/-- The number in the `len` bits from `off` on. -/
def field (off len n : ℕ) : ℕ := n / 2 ^ off % 2 ^ len

/-- Two fields that have no bit in common. -/
def FieldsDisjoint (off len off' len' : ℕ) : Prop := off' + len' ≤ off ∨ off + len ≤ off'

variable {off len off' len' n m : ℕ}

theorem field_lt (off len n : ℕ) : field off len n < 2 ^ len :=
  Nat.mod_lt _ (Nat.two_pow_pos len)

theorem testBit_field (i : ℕ) :
    (field off len n).testBit i = (decide (i < len) && n.testBit (off + i)) := by
  rw [field, Nat.testBit_mod_two_pow, Nat.testBit_div_two_pow, Nat.add_comm i off]

theorem field_congr (h : ∀ i < len, n.testBit (off + i) = m.testBit (off + i)) :
    field off len n = field off len m := by
  refine Nat.eq_of_testBit_eq fun i => ?_
  rw [testBit_field, testBit_field]
  by_cases hi : i < len
  · rw [h i hi]
  · simp [hi]

/-! ### Counting -/

theorem field_add_self (h : field off len n + 1 < 2 ^ len) :
    field off len (n + 2 ^ off) = field off len n + 1 := by
  rw [field] at h ⊢
  rw [Nat.add_div_right _ (Nat.two_pow_pos off), Nat.add_mod, ← field]
  have hone : 1 % 2 ^ len = 1 := Nat.mod_eq_of_lt (by omega)
  rw [hone]
  exact Nat.mod_eq_of_lt h

theorem field_add_of_disjoint (hdis : FieldsDisjoint off len off' len')
    (h : field off len n + 1 < 2 ^ len) : field off' len' (n + 2 ^ off) = field off' len' n := by
  rcases hdis with hbelow | habove
  · -- the sum differs by a multiple of all that the lower field reads
    obtain ⟨d, rfl⟩ := Nat.exists_eq_add_of_le hbelow
    have hpow : 2 ^ (off' + len' + d) = 2 ^ off' * (2 ^ len' * 2 ^ d) := by
      rw [pow_add, pow_add, mul_assoc]
    rw [field, field, hpow, Nat.add_mul_div_left _ _ (Nat.two_pow_pos off'),
      Nat.add_mul_mod_self_left]
  · -- what lies above the field sees no carry
    obtain ⟨d, rfl⟩ := Nat.exists_eq_add_of_le habove
    have hcarry : (n + 2 ^ off) / 2 ^ off / 2 ^ len = n / 2 ^ off / 2 ^ len := by
      rw [Nat.add_div_right _ (Nat.two_pow_pos off)]
      rw [field] at h
      have hsplit := Nat.div_add_mod (n / 2 ^ off) (2 ^ len)
      refine Nat.div_eq_of_lt_le ?_ ?_
      · rw [mul_comm]
        omega
      · rw [mul_comm, Nat.mul_succ]
        omega
    have hdiv : ∀ k, k / 2 ^ (off + len + d) = k / 2 ^ off / 2 ^ len / 2 ^ d := by
      intro k
      rw [pow_add, pow_add, ← Nat.div_div_eq_div_mul, ← Nat.div_div_eq_div_mul]
    rw [field, field, hdiv, hdiv, hcarry]

theorem field_sub_self (h : field off len n ≠ 0) :
    2 ^ off ≤ n ∧ field off len (n - 2 ^ off) + 1 = field off len n := by
  have hle : 2 ^ off ≤ n := by
    by_contra hlt
    rw [field, Nat.div_eq_of_lt (not_le.mp hlt), Nat.zero_mod] at h
    exact h rfl
  refine ⟨hle, ?_⟩
  obtain ⟨m, rfl⟩ := Nat.exists_eq_add_of_le' hle
  rw [Nat.add_sub_cancel]
  refine (field_add_self ?_).symm
  -- a field that is full would have become zero
  by_contra hfull
  have hlt := field_lt off len m
  have heq : field off len m + 1 = 2 ^ len := by omega
  refine h ?_
  rw [field] at heq ⊢
  rw [Nat.add_div_right _ (Nat.two_pow_pos off), ← Nat.mod_add_mod, heq, Nat.mod_self]

theorem field_sub_of_disjoint (hdis : FieldsDisjoint off len off' len')
    (h : field off len n ≠ 0) : field off' len' (n - 2 ^ off) = field off' len' n := by
  obtain ⟨hle, hself⟩ := field_sub_self h
  have hlt := field_lt off len n
  have hadd := field_add_of_disjoint hdis (n := n - 2 ^ off) (by omega)
  rw [Nat.sub_add_cancel hle] at hadd
  exact hadd.symm

/-- Counting a field up stays inside the word. -/
theorem add_pow_lt {width : ℕ} (hn : n < 2 ^ width) (hfit : off + len ≤ width)
    (h : field off len n + 1 < 2 ^ len) : n + 2 ^ off < 2 ^ width := by
  obtain ⟨d, rfl⟩ := Nat.exists_eq_add_of_le hfit
  rw [field] at h
  have hpow : 2 ^ (off + len + d) = 2 ^ len * 2 ^ d * 2 ^ off := by
    rw [pow_add, pow_add]
    ring
  rw [hpow] at hn ⊢
  -- what is above the field leaves room for one more
  have hq : n / 2 ^ off / 2 ^ len < 2 ^ d := by
    rw [Nat.div_lt_iff_lt_mul (Nat.two_pow_pos len), mul_comm (2 ^ d),
      Nat.div_lt_iff_lt_mul (Nat.two_pow_pos off)]
    exact hn
  have hsplit := Nat.div_add_mod (n / 2 ^ off) (2 ^ len)
  have hle : n / 2 ^ off + 2 ≤ 2 ^ len * 2 ^ d :=
    calc n / 2 ^ off + 2 ≤ 2 ^ len * (n / 2 ^ off / 2 ^ len) + 2 ^ len := by omega
      _ = 2 ^ len * (n / 2 ^ off / 2 ^ len + 1) := (Nat.mul_succ _ _).symm
      _ ≤ 2 ^ len * 2 ^ d := Nat.mul_le_mul_left _ hq
  have hlt : n < (n / 2 ^ off + 1) * 2 ^ off :=
    Nat.lt_mul_of_div_lt (Nat.lt_add_one _) (Nat.two_pow_pos off)
  calc n + 2 ^ off < (n / 2 ^ off + 1) * 2 ^ off + 2 ^ off := Nat.add_lt_add_right hlt _
    _ = (n / 2 ^ off + 2) * 2 ^ off := by ring
    _ ≤ 2 ^ len * 2 ^ d * 2 ^ off := Nat.mul_le_mul_right _ hle

/-! ### Writing -/

/-- A word with the field of `len` bits at `off` cleared and then set to `v`. -/
def setField {width : ℕ} (off len : ℕ) (v : ℕ) (w : BitVec width) : BitVec width :=
  (w &&& ~~~(BitVec.ofNat width ((2 ^ len - 1) <<< off))) ||| BitVec.ofNat width (v <<< off)

variable {width v : ℕ} {w : BitVec width}

theorem testBit_setField (hv : v < 2 ^ len) {i : ℕ} (hi : i < width) :
    (setField off len v w).toNat.testBit i =
      if off ≤ i ∧ i < off + len then v.testBit (i - off) else w.toNat.testBit i := by
  rw [BitVec.testBit_toNat, BitVec.testBit_toNat, setField]
  simp only [BitVec.getLsbD_or, BitVec.getLsbD_and, BitVec.getLsbD_not, BitVec.getLsbD_ofNat, hi,
    decide_true, Bool.true_and, Nat.testBit_shiftLeft, Nat.testBit_two_pow_sub_one]
  by_cases hlow : off ≤ i
  · by_cases hhigh : i < off + len
    · have hsub : i - off < len := by omega
      rw [if_pos ⟨hlow, hhigh⟩]
      simp [hlow, hsub]
    · have hsub : ¬i - off < len := by omega
      have hzero : v.testBit (i - off) = false :=
        Nat.testBit_lt_two_pow (hv.trans_le (Nat.pow_le_pow_right Nat.two_pos (by omega)))
      rw [if_neg fun h => hhigh h.2]
      simp [hsub, hzero]
  · rw [if_neg fun h => hlow h.1]
    simp [hlow]

theorem field_setField_self (hfit : off + len ≤ width) (hv : v < 2 ^ len) :
    field off len (setField off len v w).toNat = v := by
  refine Nat.eq_of_testBit_eq fun i => ?_
  rw [testBit_field]
  by_cases hi : i < len
  · rw [testBit_setField hv (by omega), if_pos (by omega), Nat.add_sub_cancel_left]
    simp [hi]
  · rw [Nat.testBit_lt_two_pow (hv.trans_le (Nat.pow_le_pow_right Nat.two_pos (not_lt.mp hi)))]
    simp [hi]

theorem field_setField_of_disjoint (hdis : FieldsDisjoint off len off' len')
    (hfit : off' + len' ≤ width) (hv : v < 2 ^ len) :
    field off' len' (setField off len v w).toNat = field off' len' w.toNat := by
  refine field_congr fun i hi => ?_
  rw [testBit_setField hv (by omega), if_neg]
  rcases hdis with hbelow | habove
  · omega
  · omega

theorem setField_setField {u : ℕ} (hu : u < 2 ^ len) (hv : v < 2 ^ len) :
    setField off len v (setField off len u w) = setField off len v w := by
  refine BitVec.eq_of_toNat_eq (Nat.eq_of_testBit_eq fun i => ?_)
  by_cases hi : i < width
  · rw [testBit_setField hv hi, testBit_setField hv hi, testBit_setField hu hi]
    split_ifs with hin
    · rfl
    · rfl
  · rw [BitVec.testBit_toNat, BitVec.testBit_toNat, BitVec.getLsbD_of_ge _ _ (not_lt.mp hi),
      BitVec.getLsbD_of_ge _ _ (not_lt.mp hi)]

theorem setField_field : setField off len (field off len w.toNat) w = w := by
  refine BitVec.eq_of_toNat_eq (Nat.eq_of_testBit_eq fun i => ?_)
  by_cases hi : i < width
  · rw [testBit_setField (field_lt ..) hi, testBit_field]
    split_ifs with hin
    · have hlt : i - off < len := by omega
      have hback : off + (i - off) = i := by omega
      simp [hlt, hback]
    · rfl
  · rw [BitVec.testBit_toNat, BitVec.testBit_toNat, BitVec.getLsbD_of_ge _ _ (not_lt.mp hi),
      BitVec.getLsbD_of_ge _ _ (not_lt.mp hi)]

/-! ### Packing -/

/-- A field together with the number that is put into it. -/
structure FieldValue where
  off : ℕ
  len : ℕ
  val : ℕ

/-- The number in its place, cut to the bits of the field. -/
def FieldValue.bits (f : FieldValue) : ℕ := (f.val % 2 ^ f.len) <<< f.off

/-- A word made of fields. -/
def packFields (fs : List FieldValue) : ℕ := fs.foldr (fun f n => f.bits ||| n) 0

/-- The fields have no bits in common. -/
def FieldsApart (fs : List FieldValue) : Prop :=
  fs.Pairwise fun f g => FieldsDisjoint f.off f.len g.off g.len

instance (off len off' len' : ℕ) : Decidable (FieldsDisjoint off len off' len') :=
  inferInstanceAs (Decidable (_ ∨ _))

theorem testBit_bits (f : FieldValue) (i : ℕ) :
    f.bits.testBit i =
      (decide (f.off ≤ i) && decide (i < f.off + f.len) && f.val.testBit (i - f.off)) := by
  rw [FieldValue.bits, Nat.testBit_shiftLeft, Nat.testBit_mod_two_pow]
  by_cases hlow : f.off ≤ i
  · have hiff : i - f.off < f.len ↔ i < f.off + f.len := by omega
    simp [hlow, hiff]
  · simp [hlow]

theorem testBit_packFields (fs : List FieldValue) (i : ℕ) :
    (packFields fs).testBit i = fs.any fun f => f.bits.testBit i := by
  induction fs with
  | nil => simp [packFields]
  | cons f fs ih =>
    rw [List.any_cons, ← ih, ← Nat.testBit_or]
    rfl

/-- The bits of a field are set by that field alone. -/
theorem testBit_packFields_of_mem {fs : List FieldValue} (h : FieldsApart fs) {f : FieldValue}
    (hf : f ∈ fs) {i : ℕ} (hi : i < f.len) :
    (packFields fs).testBit (f.off + i) = f.val.testBit i := by
  have hself : f.bits.testBit (f.off + i) = f.val.testBit i := by
    rw [testBit_bits, Nat.add_sub_cancel_left]
    simp [hi]
  rw [testBit_packFields, Bool.eq_iff_iff, List.any_eq_true]
  constructor
  · rintro ⟨g, hg, hbit⟩
    by_cases hfg : g = f
    · rw [hfg, hself] at hbit
      exact hbit
    · -- another field does not reach to the bit
      have hsymm : Std.Symm fun f g : FieldValue => FieldsDisjoint f.off f.len g.off g.len :=
        ⟨fun _ _ h => Or.symm h⟩
      have hdis : FieldsDisjoint f.off f.len g.off g.len :=
        List.Pairwise.forall h hf hg fun heq => hfg heq.symm
      rw [testBit_bits] at hbit
      simp only [Bool.and_eq_true, decide_eq_true_eq] at hbit
      rcases hdis with hbelow | habove
      · omega
      · omega
  · intro hbit
    exact ⟨f, hf, hself.trans hbit⟩

/-- A field reads what was put into it, cut to its bits. -/
theorem field_packFields {fs : List FieldValue} (h : FieldsApart fs) {f : FieldValue}
    (hf : f ∈ fs) : field f.off f.len (packFields fs) = f.val % 2 ^ f.len := by
  refine Nat.eq_of_testBit_eq fun i => ?_
  rw [testBit_field, Nat.testBit_mod_two_pow]
  by_cases hi : i < f.len
  · rw [testBit_packFields_of_mem h hf hi]
  · simp [hi]

/-- Below all fields there are no bits. -/
theorem testBit_packFields_below {fs : List FieldValue} {i : ℕ} (h : ∀ f ∈ fs, i < f.off) :
    (packFields fs).testBit i = false := by
  rw [testBit_packFields, List.any_eq_false]
  intro f hf
  rw [testBit_bits]
  simp [h f hf]

theorem packFields_lt {fs : List FieldValue} {w : ℕ} (h : ∀ f ∈ fs, f.off + f.len ≤ w) :
    packFields fs < 2 ^ w := by
  refine Nat.lt_pow_two_of_testBit _ fun i hi => ?_
  rw [testBit_packFields, List.any_eq_false]
  intro f hf
  have hfits := h f hf
  rw [testBit_bits]
  simp only [Bool.and_eq_true, decide_eq_true_eq, not_and]
  omega

/-! ### One bit -/

theorem and_two_pow_eq_zero (n k : ℕ) : n &&& 2 ^ k = 0 ↔ n.testBit k = false := by
  rw [Nat.and_two_pow]
  cases n.testBit k
  · simp
  · simp

theorem testBit_setBit (n k i : ℕ) : (n ||| 2 ^ k).testBit i = (n.testBit i || decide (k = i)) := by
  rw [Nat.testBit_or, Nat.testBit_two_pow]

theorem testBit_clearBit {width k : ℕ} (hk : k < width) (n i : ℕ) :
    (n &&& (2 ^ width - 1 - 2 ^ k)).testBit i =
      (n.testBit i && (decide (i < width) && !decide (k = i))) := by
  have hlt : 2 ^ k < 2 ^ width := Nat.pow_lt_pow_right (by decide) hk
  rw [Nat.testBit_and, Nat.sub_sub, Nat.add_comm 1, Nat.testBit_two_pow_sub_succ hlt,
    Nat.testBit_two_pow]

theorem setBit_eq_add {n k : ℕ} (h : n.testBit k = false) : n ||| 2 ^ k = n + 2 ^ k := by
  -- above the bit stands an even number
  have hsplit : n = 2 ^ k * (n / 2 ^ k) + n % 2 ^ k := (Nat.div_add_mod n (2 ^ k)).symm
  have heven : n / 2 ^ k % 2 = 0 := by
    rw [Nat.testBit_eq_decide_div_mod_eq, decide_eq_false_iff_not] at h
    omega
  have hlow : n % 2 ^ k < 2 ^ k := Nat.mod_lt _ (Nat.two_pow_pos k)
  have hsum : n + 2 ^ k = 2 ^ k * (n / 2 ^ k + 1) + n % 2 ^ k := by
    rw [Nat.mul_add, Nat.mul_one]
    omega
  rw [hsum]
  refine Nat.eq_of_testBit_eq fun i => ?_
  rw [testBit_setBit, hsplit, Nat.testBit_two_pow_mul_add _ hlow, ← hsplit,
    Nat.testBit_two_pow_mul_add _ hlow]
  rcases Nat.lt_trichotomy i k with hlt | rfl | hgt
  · simp [hlt, Nat.ne_of_gt hlt]
  · simp only [Nat.lt_irrefl, if_false, Nat.sub_self, Nat.testBit_zero, decide_true, Bool.or_true]
    simp only [true_eq_decide_iff]
    omega
  · obtain ⟨d, rfl⟩ := Nat.exists_eq_add_of_lt hgt
    have hhalf : (n / 2 ^ k + 1) / 2 = n / 2 ^ k / 2 := by omega
    have hsub : k + d + 1 - k = d + 1 := by omega
    rw [if_neg (by omega), if_neg (by omega), hsub, Nat.testBit_succ, Nat.testBit_succ, hhalf,
      decide_eq_false (by omega), Bool.or_false]

theorem clearBit_add {width n k : ℕ} (hk : k < width) (hn : n < 2 ^ width)
    (h : n.testBit k = true) : (n &&& (2 ^ width - 1 - 2 ^ k)) + 2 ^ k = n := by
  have hclear : (n &&& (2 ^ width - 1 - 2 ^ k)).testBit k = false := by
    rw [testBit_clearBit hk]
    simp
  rw [← setBit_eq_add hclear]
  refine Nat.eq_of_testBit_eq fun i => ?_
  rw [testBit_setBit, testBit_clearBit hk]
  by_cases hik : k = i
  · subst hik
    simp [h]
  · by_cases hi : i < width
    · simp [hik, hi]
    · have hzero : n.testBit i = false :=
        Nat.testBit_lt_two_pow (hn.trans_le (Nat.pow_le_pow_right Nat.two_pos (not_lt.mp hi)))
      simp [hik, hzero]

end Subvol.Lib

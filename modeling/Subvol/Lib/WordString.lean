import Mathlib.Data.Nat.Bitwise
import Mathlib.Tactic.Ring

/-!
# Numbers kept in words

A number of `width * n` bits in `n` words, the word with index `0` the lowest. Fields of given
widths stand in it one behind the other from the highest bit down.

## Main definitions

* `wordsNat`: the number in words.
* `fieldBits`, `fieldsNat`, `FieldsFit`: a list of fields as one number.

## Main results

* `wordsNat_lt`, `wordsNat_update`, `wordsNat_split`, `wordsNat_bits`.
* `fieldsNat_lt`, `fieldsNat_append`, `exists_fieldsNat`.
* `cmpNat_mul_add`: numbers are compared by their high parts first.
-/

namespace Subvol.Lib

/-! ### Powers of two -/

theorem or_eq_add {a b i : ℕ} (h : b < 2 ^ i) : a * 2 ^ i ||| b = a * 2 ^ i + b := by
  have hor := Nat.shiftLeft_add_eq_or_of_lt h a
  rw [Nat.shiftLeft_eq] at hor
  exact hor.symm

theorem mul_pow_div_pow {n m : ℕ} (x : ℕ) (h : n ≤ m) : x * 2 ^ n / 2 ^ m = x / 2 ^ (m - n) := by
  obtain ⟨d, rfl⟩ := Nat.exists_eq_add_of_le h
  rw [Nat.add_sub_cancel_left, pow_add, mul_comm (2 ^ n), Nat.mul_div_mul_right _ _
    (Nat.two_pow_pos n)]

theorem mul_pow_div_pow' {n m : ℕ} (x : ℕ) (h : m ≤ n) :
    x * 2 ^ n / 2 ^ m = x * 2 ^ (n - m) := by
  obtain ⟨d, rfl⟩ := Nat.exists_eq_add_of_le h
  rw [Nat.add_sub_cancel_left, pow_add, mul_comm (2 ^ m), ← mul_assoc,
    Nat.mul_div_cancel _ (Nat.two_pow_pos m)]

theorem mul_pow_mod_pow {n m : ℕ} (x : ℕ) (h : n ≤ m) :
    x * 2 ^ n % 2 ^ m = x % 2 ^ (m - n) * 2 ^ n := by
  obtain ⟨d, rfl⟩ := Nat.exists_eq_add_of_le h
  rw [Nat.add_sub_cancel_left, pow_add, mul_comm (2 ^ n), Nat.mul_mod_mul_right]

theorem mul_pow_add_div {x y n : ℕ} (h : y < 2 ^ n) : (x * 2 ^ n + y) / 2 ^ n = x := by
  rw [mul_comm, Nat.mul_add_div (Nat.two_pow_pos n), Nat.div_eq_of_lt h, Nat.add_zero]

theorem mul_pow_add_mod {x y n : ℕ} (h : y < 2 ^ n) : (x * 2 ^ n + y) % 2 ^ n = y := by
  rw [mul_comm, Nat.mul_add_mod, Nat.mod_eq_of_lt h]

theorem mul_pow_add_lt {x y n m : ℕ} (hx : x < 2 ^ m) (hy : y < 2 ^ n) :
    x * 2 ^ n + y < 2 ^ (m + n) := by
  rw [pow_add]
  calc x * 2 ^ n + y < x * 2 ^ n + 2 ^ n := Nat.add_lt_add_left hy _
    _ = (x + 1) * 2 ^ n := (Nat.succ_mul _ _).symm
    _ ≤ 2 ^ m * 2 ^ n := Nat.mul_le_mul_right _ hx

/-- Numbers that differ in the low bits only agree above. -/
theorem div_eq_of_xor_lt {a b n : ℕ} (h : a ^^^ b < 2 ^ n) : a / 2 ^ n = b / 2 ^ n := by
  have hzero : a / 2 ^ n ^^^ b / 2 ^ n = 0 := by
    rw [← Nat.xor_div_two_pow, Nat.div_eq_of_lt h]
  exact Nat.xor_eq_zero_iff.mp hzero

/-! ### Words -/

section Words

variable {width : ℕ} {words words' : ℕ → BitVec width}

/-- The number in the first `n` words. -/
def wordsNat (words : ℕ → BitVec width) : ℕ → ℕ
  | 0 => 0
  | n + 1 => (words n).toNat * 2 ^ (width * n) + wordsNat words n

theorem wordsNat_lt (words : ℕ → BitVec width) (n : ℕ) : wordsNat words n < 2 ^ (width * n) := by
  induction n with
  | zero => simp [wordsNat]
  | succ n ih =>
    have h := mul_pow_add_lt (words n).isLt ih
    rw [wordsNat, Nat.mul_succ, Nat.add_comm (width * n)]
    exact h

theorem wordsNat_congr {n : ℕ} (h : ∀ i < n, words i = words' i) :
    wordsNat words n = wordsNat words' n := by
  induction n with
  | zero => rfl
  | succ n ih =>
    rw [wordsNat, wordsNat, h n (Nat.lt_succ_self n),
      ih fun i hi => h i (Nat.lt_succ_of_lt hi)]

theorem wordsNat_zero {n : ℕ} (h : ∀ i < n, words i = 0) : wordsNat words n = 0 := by
  induction n with
  | zero => rfl
  | succ n ih =>
    rw [wordsNat, h n (Nat.lt_succ_self n), ih fun i hi => h i (Nat.lt_succ_of_lt hi)]
    simp

/-- One word is written. -/
theorem wordsNat_update (words : ℕ → BitVec width) {n p : ℕ} (hp : p < n) (x : BitVec width) :
    wordsNat (Function.update words p x) n + (words p).toNat * 2 ^ (width * p) =
      wordsNat words n + x.toNat * 2 ^ (width * p) := by
  induction n with
  | zero => exact absurd hp (Nat.not_lt_zero p)
  | succ n ih =>
    rw [wordsNat, wordsNat]
    rcases Nat.lt_succ_iff_lt_or_eq.mp hp with hlt | rfl
    · rw [Function.update_of_ne (Nat.ne_of_gt hlt)]
      have hih := ih hlt
      omega
    · have hbelow : wordsNat (Function.update words p x) p = wordsNat words p :=
        wordsNat_congr fun i hi => Function.update_of_ne (Nat.ne_of_lt hi) ..
      rw [Function.update_self, hbelow]
      omega

/-- The words from an index on, over the words below it. -/
theorem wordsNat_split (words : ℕ → BitVec width) {n p : ℕ} (hp : p ≤ n) :
    wordsNat words n =
      wordsNat (fun i => words (p + i)) (n - p) * 2 ^ (width * p) + wordsNat words p := by
  obtain ⟨d, rfl⟩ := Nat.exists_eq_add_of_le hp
  rw [Nat.add_sub_cancel_left]
  induction d with
  | zero => simp [wordsNat]
  | succ d ih =>
    rw [← Nat.add_assoc, wordsNat, ih (Nat.le_add_right p d), wordsNat, Nat.mul_add, pow_add]
    ring

/-- Bits below the end of the words do not depend on how many words are read. -/
theorem wordsNat_bits (words : ℕ → BitVec width) {n m e d : ℕ} (hn : e + d ≤ width * n)
    (hm : e + d ≤ width * m) :
    wordsNat words n / 2 ^ e % 2 ^ d = wordsNat words m / 2 ^ e % 2 ^ d := by
  wlog hle : n ≤ m generalizing n m
  · exact (this hm hn (Nat.le_of_not_le hle)).symm
  obtain ⟨t, ht⟩ := Nat.exists_eq_add_of_le hn
  rw [wordsNat_split words hle, ht]
  generalize wordsNat (fun i => words (n + i)) (m - n) = x
  have hsplit : x * 2 ^ (e + d + t) = 2 ^ e * (x * 2 ^ t * 2 ^ d) := by
    rw [pow_add, pow_add]
    ring
  rw [hsplit, Nat.mul_add_div (Nat.two_pow_pos e), Nat.mul_add_mod']

end Words

/-! ### Fields -/

/-- The widths of a list of fields together. -/
def fieldBits (fields : List (ℕ × ℕ)) : ℕ := (fields.map Prod.fst).sum

/-- The number of a list of fields, each with its width and its value, the first one highest. -/
def fieldsNat : List (ℕ × ℕ) → ℕ
  | [] => 0
  | f :: rest => f.2 * 2 ^ fieldBits rest + fieldsNat rest

/-- Every value fits its field. -/
def FieldsFit (fields : List (ℕ × ℕ)) : Prop := ∀ f ∈ fields, f.2 < 2 ^ f.1

@[simp] theorem fieldBits_nil : fieldBits [] = 0 := rfl

@[simp] theorem fieldBits_cons (f : ℕ × ℕ) (rest : List (ℕ × ℕ)) :
    fieldBits (f :: rest) = f.1 + fieldBits rest := by
  simp [fieldBits]

theorem fieldsNat_lt {fields : List (ℕ × ℕ)} (h : FieldsFit fields) :
    fieldsNat fields < 2 ^ fieldBits fields := by
  induction fields with
  | nil => simp [fieldsNat]
  | cons f rest ih =>
    rw [fieldsNat, fieldBits_cons]
    exact mul_pow_add_lt (h f (List.mem_cons_self ..))
      (ih fun g hg => h g (List.mem_cons_of_mem _ hg))

theorem fieldBits_append (fields fields' : List (ℕ × ℕ)) :
    fieldBits (fields ++ fields') = fieldBits fields + fieldBits fields' := by
  simp [fieldBits]

theorem fieldsNat_append (fields fields' : List (ℕ × ℕ)) :
    fieldsNat (fields ++ fields') = fieldsNat fields * 2 ^ fieldBits fields' + fieldsNat fields' := by
  induction fields with
  | nil => simp [fieldsNat]
  | cons f rest ih =>
    rw [List.cons_append, fieldsNat, fieldsNat, ih, fieldBits_append, pow_add]
    ring

/-- Every number of the width of fields is the number of values that fit them. -/
theorem exists_fieldsNat (widths : List ℕ) {v : ℕ} (h : v < 2 ^ widths.sum) :
    ∃ vs, vs.length = widths.length ∧ FieldsFit (widths.zip vs) ∧
      fieldsNat (widths.zip vs) = v := by
  induction widths generalizing v with
  | nil =>
    have hv : v = 0 := by simpa using h
    exact ⟨[], rfl, by simp [FieldsFit], by simp [fieldsNat, hv]⟩
  | cons w rest ih =>
    rw [List.sum_cons, pow_add] at h
    obtain ⟨vs, hlen, hfit, hnat⟩ := ih (Nat.mod_lt v (Nat.two_pow_pos rest.sum))
    have hbits : fieldBits (rest.zip vs) = rest.sum := by
      rw [fieldBits, List.map_fst_zip hlen.ge]
    refine ⟨v / 2 ^ rest.sum :: vs, by simp [hlen], ?_, ?_⟩
    · intro f hf
      rcases List.mem_cons.mp hf with rfl | hf
      · exact Nat.div_lt_of_lt_mul (mul_comm (2 ^ w) _ ▸ h)
      · exact hfit f hf
    · rw [List.zip_cons_cons, fieldsNat, hbits, hnat, Nat.div_add_mod']

/-! ### Comparing -/

/-- The sign of a comparison. -/
def cmpNat (a b : ℕ) : ℤ := if a < b then -1 else if b < a then 1 else 0

@[simp] theorem cmpNat_self (a : ℕ) : cmpNat a a = 0 := by simp [cmpNat]

theorem cmpNat_add_right (a b c : ℕ) : cmpNat (a + c) (b + c) = cmpNat a b := by
  simp [cmpNat]

/-- Two numbers with a high and a low part are compared by the high part first. -/
theorem cmpNat_mul_add {x x' y y' n : ℕ} (hy : y < 2 ^ n) (hy' : y' < 2 ^ n) :
    cmpNat (x * 2 ^ n + y) (x' * 2 ^ n + y') = if x = x' then cmpNat y y' else cmpNat x x' := by
  have hlt : ∀ {a a' b b' : ℕ}, a < a' → b < 2 ^ n → a * 2 ^ n + b < a' * 2 ^ n + b' := by
    intro a a' b b' ha hb
    calc a * 2 ^ n + b < a * 2 ^ n + 2 ^ n := Nat.add_lt_add_left hb _
      _ = (a + 1) * 2 ^ n := (Nat.succ_mul _ _).symm
      _ ≤ a' * 2 ^ n := Nat.mul_le_mul_right _ ha
      _ ≤ a' * 2 ^ n + b' := Nat.le_add_right _ _
  rcases Nat.lt_trichotomy x x' with hx | rfl | hx
  · rw [if_neg hx.ne, cmpNat, cmpNat, if_pos (hlt hx hy), if_pos hx]
  · simp [cmpNat]
  · rw [if_neg hx.ne', cmpNat, cmpNat, if_neg (hlt hx hy').not_gt, if_pos (hlt hx hy'),
      if_neg hx.not_gt, if_pos hx]

end Subvol.Lib

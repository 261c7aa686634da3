import Subvol.Lib.Numerals

/-!
# Numbers in bytes

A number as a list of bytes, the lowest one first, and a buffer of such numbers.

## Main definitions

* `natOfBytes`, `bytesOfNat`.
* `bytesOfNats`: numbers of equally many bytes, one behind the other.

## Main results

* `natOfBytes_bytesOfNat`: the bytes of a number give the number back.
* `natOfBytes_take`, `drop_bytesOfNats`: the numbers of a buffer.
-/

namespace Subvol.Lib

/-- The number that bytes stand for. -/
def natOfBytes : List UInt8 → ℕ
  | [] => 0
  | b :: bs => b.toNat + 256 * natOfBytes bs

/-- The `n` lowest bytes of a number. -/
def bytesOfNat : ℕ → ℕ → List UInt8
  | 0, _ => []
  | n + 1, x => UInt8.ofNat x :: bytesOfNat n (x / 256)

@[simp] theorem length_bytesOfNat (n x : ℕ) : (bytesOfNat n x).length = n := by
  induction n generalizing x with
  | zero => rfl
  | succ n ih => rw [bytesOfNat, List.length_cons, ih]

theorem natOfBytes_bytesOfNat (n x : ℕ) : natOfBytes (bytesOfNat n x) = x % 256 ^ n := by
  induction n generalizing x with
  | zero => rw [bytesOfNat, natOfBytes, pow_zero, Nat.mod_one]
  | succ n ih =>
    have hpow : 256 ^ (n + 1) = 256 * 256 ^ n := pow_succ' 256 n
    rw [bytesOfNat, natOfBytes, ih, UInt8.toNat_ofNat', hpow, Nat.mod_mul]

/-- Numbers of `n` bytes each, one behind the other. -/
def bytesOfNats (n : ℕ) (l : List ℕ) : List UInt8 := l.flatMap (bytesOfNat n)

theorem bytesOfNats_cons (n x : ℕ) (l : List ℕ) :
    bytesOfNats n (x :: l) = bytesOfNat n x ++ bytesOfNats n l := List.flatMap_cons

@[simp] theorem length_bytesOfNats (n : ℕ) (l : List ℕ) :
    (bytesOfNats n l).length = n * l.length := by
  induction l with
  | nil => rfl
  | cons x l ih =>
    rw [bytesOfNats_cons, List.length_append, length_bytesOfNat, ih, List.length_cons, mul_add,
      mul_one, add_comm]

theorem natOfBytes_take (n x : ℕ) (l : List ℕ) :
    natOfBytes ((bytesOfNats n (x :: l)).take n) = x % 256 ^ n := by
  rw [bytesOfNats_cons, List.take_left' (length_bytesOfNat n x), natOfBytes_bytesOfNat]

theorem drop_bytesOfNats (n i : ℕ) (l : List ℕ) :
    (bytesOfNats n l).drop (n * i) = bytesOfNats n (l.drop i) := by
  induction l generalizing i with
  | nil =>
    rw [List.drop_nil]
    exact List.drop_nil
  | cons x l ih =>
    cases i with
    | zero => rfl
    | succ i =>
      rw [bytesOfNats_cons, List.drop_succ_cons, ← ih, mul_add, mul_one, add_comm,
        ← List.drop_drop, List.drop_left' (length_bytesOfNat n x)]

end Subvol.Lib

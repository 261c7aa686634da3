import Mathlib.Algebra.Order.Ring.Nat
import Mathlib.Tactic.Common

/-!
# Numerals of finite types

A numeral of `Fin n` needs a proof that `n` is not zero. Where `n` is itself a numeral or a power of
two this proof is an instance with a name, so that definitions at these widths share it.
-/

namespace Subvol.Lib

instance neZero_three : NeZero 3 := ⟨by decide⟩

instance neZero_four : NeZero 4 := ⟨by decide⟩

instance neZero_eight : NeZero 8 := ⟨by decide⟩

instance neZero_nine : NeZero 9 := ⟨by decide⟩

instance neZero_64 : NeZero 64 := ⟨by decide⟩

instance neZero_256 : NeZero 256 := ⟨by decide⟩

instance neZero_two_pow_32 : NeZero (2 ^ 32) := ⟨by decide⟩

instance neZero_two_pow_64 : NeZero (2 ^ 64) := ⟨by decide⟩

end Subvol.Lib

import Subvol.Btree.BsetSearch

/-!
# The bits of a key in a slot

A float has sixteen bits of its key, from the greatest bit down in which the keys at the nearest
slots above differ. A search key between these two keys shares all bits above with them, so that
the sixteen bits tell on which side of the slot it is, unless they are the same and bits below were
dropped. In a format with fewer bits the key is filled up with ones, and a search key with what
stands below it.

## Main results

* `greatestDifferingBit_spec`: the bits above the greatest differing one are the same.
* `keyMantissa_eq`: the sixteen bits that are read.
* `NodeWords.bfloatFor_spec`: a float is made, and it tells the side.
-/

namespace Subvol

open Lib

/-! ### The greatest differing bit -/

theorem bitsOf_pos {x : ℕ} (hx : x ≠ 0) : 0 < bitsOf x := by
  by_contra hzero
  have hlt := (bitsOf_le_iff x 0).mp (by omega)
  omega

theorem greatestDifferingBit_zero (l r : KeyWords) (p : ℕ) : greatestDifferingBit l r p 0 = 0 := by
  cases p with
  | zero => rfl
  | succ p => rw [greatestDifferingBit, if_pos rfl]

/-- The highest bits of two keys agree above the greatest differing one. -/
theorem greatestDifferingBit_spec (l r : KeyWords) {p nr : ℕ} (h : nr ≤ 64 * p) :
    (nr ≠ 0 → greatestDifferingBit l r p nr < nr) ∧
      wordsNat l p / 2 ^ (64 * p - nr) / 2 ^ (greatestDifferingBit l r p nr + 1) =
        wordsNat r p / 2 ^ (64 * p - nr) / 2 ^ (greatestDifferingBit l r p nr + 1) := by
  induction p generalizing nr with
  | zero => simp [wordsNat, show nr = 0 by omega]
  | succ p ih =>
    rcases Nat.eq_zero_or_pos nr with rfl | hpos
    · have hcut : ∀ w : KeyWords, wordsNat w (p + 1) / 2 ^ (64 * (p + 1) - 0) = 0 := fun w =>
        Nat.div_eq_of_lt (wordsNat_lt w (p + 1))
      exact ⟨fun hne => absurd rfl hne, by rw [hcut, hcut]⟩
    rw [greatestDifferingBit, if_neg hpos.ne']
    dsimp only
    by_cases hpart : nr < 64
    · -- The last word, of which only the highest bits belong to the key.
      have hexp : 64 * (p + 1) - nr = 64 * p + (64 - nr) := by omega
      have hrest : nr - 64 = 0 := by omega
      have hcut : ∀ w : BitVec 64, (w >>> (64 - nr)).toNat < 2 ^ nr := fun w => by
        rw [BitVec.toNat_ushiftRight, Nat.shiftRight_eq_div_pow,
          Nat.div_lt_iff_lt_mul (Nat.two_pow_pos _), ← pow_add]
        exact w.isLt.trans_le (Nat.pow_le_pow_right Nat.two_pos (by omega))
      have hshift : ∀ w : KeyWords,
          wordsNat w (p + 1) / 2 ^ (64 * (p + 1) - nr) = (w p >>> (64 - nr)).toNat := fun w => by
        rw [hexp, wordsNat_div_high, BitVec.toNat_ushiftRight, Nat.shiftRight_eq_div_pow]
      rw [if_pos hpart, hrest, hshift, hshift, BitVec.toNat_xor]
      have hl := hcut (l p)
      have hr := hcut (r p)
      generalize (l p >>> (64 - nr)).toNat = x at hl ⊢
      generalize (r p >>> (64 - nr)).toNat = y at hr ⊢
      by_cases hdiffer : x ^^^ y = 0
      · rw [if_neg (not_not.mpr hdiffer), greatestDifferingBit_zero, Nat.xor_eq_zero_iff.mp hdiffer]
        exact ⟨fun _ => hpos, rfl⟩
      · have hbits := bitsOf_pos hdiffer
        have hle := (bitsOf_le_iff _ nr).mpr (Nat.xor_lt_two_pow hl hr)
        have hsucc : bitsOf (x ^^^ y) - 1 + 0 + 1 = bitsOf (x ^^^ y) := by omega
        rw [if_pos hdiffer, hsucc]
        exact ⟨fun _ => by omega, div_eq_of_xor_lt (lt_two_pow_bitsOf _)⟩
    · have hle : nr - 64 ≤ 64 * p := by omega
      have hexp : 64 * (p + 1) - nr = 64 * p - (nr - 64) := by omega
      have he : 64 * p - (nr - 64) ≤ 64 * p := Nat.sub_le _ _
      have hshift : 64 * p - (64 * p - (nr - 64)) = nr - 64 := by omega
      have hzero : ∀ w : BitVec 64, w >>> 0 = w := fun w => BitVec.ushiftRight_zero w
      obtain ⟨hlt, hsame⟩ := ih hle
      have hl := wordsNat_div_lt l he
      have hr := wordsNat_div_lt r he
      rw [if_neg hpart, hzero, hzero, BitVec.toNat_xor, hexp, wordsNat_div_low l he,
        wordsNat_div_low r he]
      rw [hshift] at hl hr ⊢
      generalize wordsNat l p / 2 ^ (64 * p - (nr - 64)) = x at hl hsame ⊢
      generalize wordsNat r p / 2 ^ (64 * p - (nr - 64)) = y at hr hsame ⊢
      by_cases hdiffer : (l p).toNat ^^^ (r p).toNat = 0
      · have hword := Nat.xor_eq_zero_iff.mp hdiffer
        rw [if_neg (not_not.mpr hdiffer), hword]
        refine ⟨fun _ => ?_, ?_⟩
        · rcases Nat.eq_zero_or_pos (nr - 64) with hnone | hsome
          · rw [hnone, greatestDifferingBit_zero]
            exact hpos
          · have := hlt hsome.ne'
            omega
        · rcases Nat.eq_zero_or_pos (nr - 64) with hnone | hsome
          · rw [hnone, pow_zero] at hl hr
            have hxy : x = y := by omega
            rw [hxy]
          · -- The words above do not reach into the bits that are cut off.
            obtain ⟨d, hd⟩ := Nat.exists_eq_add_of_lt (hlt hsome.ne')
            have hsplit : nr - 64 = greatestDifferingBit l r p (nr - 64) + 1 + d := by omega
            generalize greatestDifferingBit l r p (nr - 64) = g at hsame hsplit ⊢
            have hword : (r p).toNat * 2 ^ (nr - 64) =
                2 ^ (g + 1) * ((r p).toNat * 2 ^ d) := by
              rw [hsplit, pow_add]
              ring
            rw [hword, Nat.mul_add_div (Nat.two_pow_pos _), Nat.mul_add_div (Nat.two_pow_pos _),
              hsame]
      · have hbits := bitsOf_pos hdiffer
        have hwide := (bitsOf_le_iff _ 64).mpr (Nat.xor_lt_two_pow (l p).isLt (r p).isLt)
        have hsucc : bitsOf ((l p).toNat ^^^ (r p).toNat) - 1 + (nr - 64) + 1 =
            nr - 64 + bitsOf ((l p).toNat ^^^ (r p).toNat) := by omega
        rw [if_pos hdiffer, hsucc, pow_add, ← Nat.div_div_eq_div_mul, ← Nat.div_div_eq_div_mul,
          mul_pow_add_div hl, mul_pow_add_div hr]
        exact ⟨fun _ => by omega, div_eq_of_xor_lt (lt_two_pow_bitsOf _)⟩

/-! ### Sixteen bits of a key -/

/-- Sixteen bits inside the words of a key. -/
theorem keyMantissa_eq (k : KeyWords) (f : BkeyFloat) {n : ℕ} (h : f.exponent + 16 ≤ 64 * n) :
    keyMantissa k f = wordsNat k n / 2 ^ f.exponent % 2 ^ 16 := by
  have hexp : 8 * (f.exponent / 8) + f.exponent % 8 = f.exponent := Nat.div_add_mod _ 8
  have hlow := Nat.mod_lt f.exponent (show 8 > 0 by decide)
  -- The word that is read has all sixteen bits.
  have hword : ∀ x : ℕ, x % 2 ^ 64 / 2 ^ (f.exponent % 8) % 2 ^ 16 =
      x / 2 ^ (f.exponent % 8) % 2 ^ 16 := by
    intro x
    obtain ⟨d, hd⟩ := Nat.exists_eq_add_of_le (show f.exponent % 8 + 16 ≤ 64 by omega)
    rw [hd, Nat.add_assoc, pow_add, Nat.mod_mul_right_div_self, pow_add, Nat.mod_mul_right_mod]
  rw [keyMantissa, KeyWords.readUnaligned, hword, Nat.div_div_eq_div_mul, ← pow_add, hexp]
  exact wordsNat_bits k (by omega) h

/-- Numbers that agree above the bits that are compared are ordered by them. -/
theorem lt_of_mid_lt {x y d : ℕ} (hsame : x / 2 ^ (d + 16) = y / 2 ^ (d + 16))
    (hlt : x / 2 ^ d % 2 ^ 16 < y / 2 ^ d % 2 ^ 16) : x < y := by
  rw [pow_add, ← Nat.div_div_eq_div_mul, ← Nat.div_div_eq_div_mul] at hsame
  have hdiv : x / 2 ^ d < y / 2 ^ d := by omega
  exact Nat.lt_of_not_le fun hle => absurd (Nat.div_le_div_right hle) (not_le.mpr hdiv)

namespace NodeWords

variable {b : NodeWords}

/-- A float tells on which side of the position of its key the ones between two others are. -/
def Tells (b : NodeWords) (f : BkeyFloat) (pl pm pr : Bpos) : Prop :=
  f.exponent < bfloatFailed → ∀ q words, HasPos b.format q words → pl ≤ q → q ≤ pr →
    (f.mantissa < keyMantissa words f → pm < q) ∧
      (keyMantissa words f ≤ f.mantissa →
        f.mantissa ≠ keyMantissa words f ∨ b.bkeyMantissaBitsDropped f = false → q ≤ pm)

theorem posBits_mono {p q : Bpos} {l r : KeyWords} (hl : HasPos b.format p l)
    (hr : HasPos b.format q r) (hle : p ≤ q) :
    posBits b.format.toBkeyFormat p ≤ posBits b.format.toBkeyFormat q :=
  Nat.le_of_not_lt fun hlt => absurd ((hr.lt_iff hl).mpr hlt) (not_lt.mpr hle)

theorem le_of_posBits {p q : Bpos} {l r : KeyWords} (hl : HasPos b.format p l)
    (hr : HasPos b.format q r)
    (hle : posBits b.format.toBkeyFormat p ≤ posBits b.format.toBkeyFormat q) : p ≤ q :=
  le_of_not_gt fun hlt => absurd ((hr.lt_iff hl).mp hlt) (not_lt.mpr hle)

/-- In a format with sixteen bits or more, a float has bits of the key only. -/
theorem tells_of_wide {pl pm pr : Bpos} {l m r : KeyWords} (hl : HasPos b.format pl l)
    (hm : HasPos b.format pm m) (hr : HasPos b.format pr r) (hlm : pl ≤ pm) (hmr : pm ≤ pr)
    {g d : ℕ} (hsame : posBits b.format.toBkeyFormat pl / 2 ^ (g + 1) =
      posBits b.format.toBkeyFormat pr / 2 ^ (g + 1)) (hgd : g + 1 ≤ d + 16)
    {f : BkeyFloat} (hexp : f.exponent = 64 * b.format.keyU64s - b.nrKeyBits + d)
    (hfit : f.exponent + 16 ≤ 64 * b.format.keyU64s) (hmant : f.mantissa = keyMantissa m f) :
    b.Tells f pl pm pr := by
  intro _ q words hq hlq hqr
  have hnum : ∀ {p : Bpos} {w : KeyWords}, HasPos b.format p w →
      keyMantissa w f = posBits b.format.toBkeyFormat p / 2 ^ d % 2 ^ 16 := by
    intro p w hw
    rw [keyMantissa_eq w f hfit, hexp, pow_add, ← Nat.div_div_eq_div_mul, nrKeyBits, hw.num]
  -- All keys between the two have their highest bits in common.
  have hshared : ∀ {p : Bpos} {w : KeyWords}, HasPos b.format p w → pl ≤ p → p ≤ pr →
      posBits b.format.toBkeyFormat p / 2 ^ (d + 16) =
        posBits b.format.toBkeyFormat pl / 2 ^ (d + 16) := by
    intro p w hw hlp hpr
    obtain ⟨e, he⟩ := Nat.exists_eq_add_of_le hgd
    have hbetween : posBits b.format.toBkeyFormat p / 2 ^ (g + 1) =
        posBits b.format.toBkeyFormat pl / 2 ^ (g + 1) := by
      refine le_antisymm ?_ (Nat.div_le_div_right (posBits_mono hl hw hlp))
      rw [hsame]
      exact Nat.div_le_div_right (posBits_mono hw hr hpr)
    rw [he, pow_add, ← Nat.div_div_eq_div_mul, ← Nat.div_div_eq_div_mul, hbetween]
  have hboth := (hshared hm hlm hmr).trans (hshared hq hlq hqr).symm
  rw [hmant, hnum hm, hnum hq]
  refine ⟨fun hlt => (hm.lt_iff hq).mpr (lt_of_mid_lt hboth hlt), fun hle hside => ?_⟩
  rcases hle.lt_or_eq with hlt | heq
  · exact ((hq.lt_iff hm).mpr (lt_of_mid_lt hboth.symm hlt)).le
  · -- No bits were dropped, and the keys agree in all of them.
    have hkept := hside.resolve_left (not_not.mpr heq.symm)
    rw [bkeyMantissaBitsDropped, decide_eq_false_iff_not] at hkept
    have hzero : d = 0 := by omega
    rw [hzero, pow_zero, Nat.div_one, Nat.div_one] at heq
    rw [hzero, Nat.zero_add] at hboth
    exact le_of_posBits hq hm (by omega)

/-- In a format with fewer bits, the bits of the key are followed by ones. -/
theorem tells_of_narrow {pl pm pr : Bpos} {m : KeyWords} (hm : HasPos b.format pm m) {t : ℕ}
    {f : BkeyFloat} (hexp : f.exponent + t = 64 * b.format.keyU64s - b.nrKeyBits)
    (hbits : b.nrKeyBits + t = 16) (hmant : f.mantissa = keyMantissa m f ||| (2 ^ t - 1)) :
    b.Tells f pl pm pr := by
  intro _ q words hq _ _
  have hle := keyBits_le b.format
  rw [← nrKeyBits] at hle
  have hnum : ∀ {p : Bpos} {w : KeyWords}, HasPos b.format p w →
      keyMantissa w f / 2 ^ t = posBits b.format.toBkeyFormat p := by
    intro p w hw
    have hfit : wordsNat w b.format.keyU64s / 2 ^ f.exponent < 2 ^ 16 := by
      rw [Nat.div_lt_iff_lt_mul (Nat.two_pow_pos _), ← pow_add]
      have hexp : 16 + f.exponent = 64 * b.format.keyU64s := by omega
      rw [hexp]
      exact wordsNat_lt w b.format.keyU64s
    rw [keyMantissa_eq w f (n := b.format.keyU64s) (by omega), Nat.mod_eq_of_lt hfit,
      Nat.div_div_eq_div_mul, ← pow_add, hexp, nrKeyBits, hw.num]
  have hpos := Nat.two_pow_pos t
  -- The ones are the greatest that can stand below the key.
  have hones : f.mantissa = posBits b.format.toBkeyFormat pm * 2 ^ t + (2 ^ t - 1) := by
    have hlow := Nat.mod_lt (keyMantissa m f) hpos
    rw [hmant, ← hnum hm]
    conv_lhs => rw [← Nat.div_add_mod' (keyMantissa m f) (2 ^ t), ← or_eq_add hlow]
    rw [Nat.or_assoc, ← or_eq_add (by omega)]
    congr 1
    refine Nat.eq_of_testBit_eq fun i => ?_
    rw [Nat.testBit_or, Nat.testBit_mod_two_pow, Nat.testBit_two_pow_sub_one]
    by_cases hi : i < t <;> simp [hi]
  have hq' := hnum hq
  refine ⟨fun hlt => (hm.lt_iff hq).mpr ?_, fun hle _ => le_of_posBits hq hm ?_⟩
  · rw [← hq', Nat.lt_div_iff_mul_lt hpos]
    omega
  · have hdiv := Nat.div_le_div_right hle (c := 2 ^ t)
    rwa [hq', hones, mul_pow_add_div (by omega)] at hdiv

/-- A float is made for packed keys, and it tells the side. -/
theorem bfloatFor_spec {pl pm pr : Bpos} {l m r : KeyWords} (hl : HasPos b.format pl l)
    (hm : HasPos b.format pm m) (hr : HasPos b.format pr r) (hlm : pl ≤ pm) (hmr : pm ≤ pr)
    (hnr : b.nrKeyBits ≠ 0) (f : BkeyFloat) :
    ∃ f', b.bfloatFor l m r f = some f' ∧ f'.keyOffset = f.keyOffset ∧ b.Tells f' pl pm pr := by
  have hle := keyBits_le b.format
  have hwords := b.format.keyU64s_pos
  obtain ⟨hlt, hsame⟩ := greatestDifferingBit_spec l r hle
  rw [← nrKeyBits] at hle hlt hsame
  rw [nrKeyBits, hl.num, hr.num, ← nrKeyBits] at hsame
  have hg := hlt hnr
  rw [bfloatFor, bkeyMantissaBits]
  generalize greatestDifferingBit l r b.format.keyU64s b.nrKeyBits = g at hsame hg ⊢
  dsimp only
  obtain ⟨high, hhigh⟩ : ∃ high, high = max g (min 16 b.nrKeyBits - 1) := ⟨_, rfl⟩
  rw [← hhigh, if_pos (by omega)]
  split_ifs with hfail hneg
  · exact ⟨_, rfl, rfl, fun hsmall => absurd hsmall (lt_irrefl _)⟩
  · refine ⟨_, rfl, rfl, tells_of_narrow (t := 16 - b.nrKeyBits) hm ?_ (by omega) ?_⟩
    · dsimp only
      omega
    · have ht : (-((high : ℤ) - ((16 : ℕ) - 1))).toNat = 16 - b.nrKeyBits := by omega
      have hmant : ∀ g : BkeyFloat, keyMantissa m g < 2 ^ 16 := fun _ => Nat.mod_lt _ (by decide)
      have hones : 2 ^ (16 - b.nrKeyBits) - 1 < 2 ^ 16 := by
        have := Nat.pow_le_pow_right Nat.two_pos (show 16 - b.nrKeyBits ≤ 16 by omega)
        have := Nat.two_pow_pos (16 - b.nrKeyBits)
        omega
      dsimp only
      rw [ht, Nat.mod_eq_of_lt (Nat.or_lt_two_pow (hmant _) hones)]
      rfl
  · refine ⟨_, rfl, rfl, tells_of_wide (d := high - 15) hl hm hr hlm hmr hsame (by omega) ?_ ?_ ?_⟩
    · dsimp only
      omega
    · dsimp only
      omega
    · dsimp only
      exact Nat.mod_eq_of_lt (Nat.mod_lt _ (by decide))

end NodeWords

end Subvol

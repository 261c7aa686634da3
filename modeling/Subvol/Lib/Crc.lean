import Mathlib.Logic.Function.Iterate
import Mathlib.Tactic.Common

/-!
# Cyclic redundancy codes

A code takes one symbol after the other into a register: the symbol is added to the register, and the
register is shifted, with a polynomial added for each bit that leaves it. Addition is exclusive or.
The shift is linear and loses nothing, and a symbol that is not taken in at once but some symbols
later is shifted to its place meanwhile. So the register behind a piece of data is known from the
registers behind its parts, and the data cannot change in a few neighbouring symbols alone without a
change of the register.

## Main definitions

* `Crc`: a code; `Crc.run`: the register behind a list of symbols.
* `lsbShift`, `msbShift`: the shift of a bit, with the lowest or the highest bit leaving first.
* `Crc.lsbFirst`, `Crc.msbFirst`: the codes of bytes.

## Main results

* `Crc.run_append`: the register behind two pieces of data.
* `Crc.run_ne_of_change`: a change of a few neighbouring symbols.
* `lsbShift_byte`, `msbShift_byte`: eight shifts at once, with a table.
-/

namespace Subvol.Lib

/-- A code for symbols of `v` bits with a register of `w` bits. `enter i` is what a symbol adds to a
register that has `i` symbols to shift in front of it, and `window` the symbol that leaves next. -/
structure Crc (w v : ℕ) where
  shift : BitVec w → BitVec w
  enter : ℕ → BitVec v → BitVec w
  window : BitVec w → BitVec v
  fits : ℕ
  shift_xor : ∀ x y, shift (x ^^^ y) = shift x ^^^ shift y
  shift_injective : Function.Injective shift
  enter_xor : ∀ i a b, enter i (a ^^^ b) = enter i a ^^^ enter i b
  shift_enter : ∀ i b, i + 1 < fits → shift (enter (i + 1) b) = enter i b
  window_xor : ∀ x y, window (x ^^^ y) = window x ^^^ window y
  window_enter : ∀ b, window (enter 0 b) = b
  window_enter_succ : ∀ i b, i + 1 < fits → window (enter (i + 1) b) = 0#v

namespace Crc

variable {w v : ℕ} (c : Crc w v)

/-- A symbol is taken in. -/
def step (s : BitVec w) (b : BitVec v) : BitVec w := c.shift (s ^^^ c.enter 0 b)

/-- The register behind a list of symbols. -/
def run (s : BitVec w) (data : List (BitVec v)) : BitVec w := data.foldl c.step s

theorem run_cons (s : BitVec w) (b : BitVec v) (data : List (BitVec v)) :
    c.run s (b :: data) = c.run (c.step s b) data := rfl

theorem run_concat (s : BitVec w) (l m : List (BitVec v)) :
    c.run s (l ++ m) = c.run (c.run s l) m := List.foldl_append

theorem shift_zero : c.shift 0#w = 0#w := by
  have h := c.shift_xor 0#w 0#w
  rwa [BitVec.xor_self, BitVec.xor_self] at h

theorem enter_zero (i : ℕ) : c.enter i 0#v = 0#w := by
  have h := c.enter_xor i 0#v 0#v
  rwa [BitVec.xor_self, BitVec.xor_self] at h

theorem window_zero : c.window 0#w = 0#v := by
  have h := c.window_xor 0#w 0#w
  rwa [BitVec.xor_self, BitVec.xor_self] at h

theorem step_xor (s t : BitVec w) (b : BitVec v) :
    c.step (s ^^^ t) b = c.step s b ^^^ c.step t 0#v := by
  rw [step, step, step, ← c.shift_xor, c.enter_zero]
  congr 1
  rw [BitVec.xor_zero, BitVec.xor_assoc, BitVec.xor_assoc, BitVec.xor_comm t]

/-- What is in the register in front of the data goes through as through zeros. -/
theorem run_xor (s t : BitVec w) (data : List (BitVec v)) :
    c.run (s ^^^ t) data = c.run s data ^^^ c.run t (List.replicate data.length 0#v) := by
  induction data generalizing s t with
  | nil => rfl
  | cons b data ih => rw [run_cons, run_cons, step_xor, ih, List.length_cons, List.replicate_succ,
      run_cons]

/-- The register behind two pieces of data, from those behind each of them. -/
theorem run_append (s : BitVec w) (l m : List (BitVec v)) :
    c.run s (l ++ m) = c.run (c.run s l) (List.replicate m.length 0#v) ^^^ c.run 0#w m := by
  rw [run_concat]
  have h := c.run_xor 0#w (c.run s l) m
  rwa [BitVec.zero_xor, BitVec.xor_comm] at h

theorem run_injective (data : List (BitVec v)) : Function.Injective (c.run · data) := by
  induction data with
  | nil => exact Function.injective_id
  | cons b data ih =>
    intro s t h
    exact (BitVec.xor_left_inj _).mp (c.shift_injective (ih h))

/-- What a list of symbols adds to a register that has `i` symbols to shift in front of it. -/
def pack (i : ℕ) : List (BitVec v) → BitVec w
  | [] => 0#w
  | b :: l => c.enter i b ^^^ pack (i + 1) l

theorem shift_pack (i : ℕ) (l : List (BitVec v)) (h : i + 1 + l.length ≤ c.fits) :
    c.shift (c.pack (i + 1) l) = c.pack i l := by
  induction l generalizing i with
  | nil => exact c.shift_zero
  | cons b l ih =>
    rw [List.length_cons] at h
    rw [pack, pack, c.shift_xor, c.shift_enter i b (by omega), ih (i + 1) (by omega)]

theorem window_pack (i : ℕ) (l : List (BitVec v)) (h : i + 1 + l.length ≤ c.fits) :
    c.window (c.pack (i + 1) l) = 0#v := by
  induction l generalizing i with
  | nil => exact c.window_zero
  | cons b l ih =>
    rw [List.length_cons] at h
    rw [pack, c.window_xor, c.window_enter_succ i b (by omega), ih (i + 1) (by omega),
      BitVec.xor_self]

/-- Some symbols taken in one after the other are those taken in at once and shifted. -/
theorem run_eq (s : BitVec w) (l : List (BitVec v)) (h : l.length ≤ c.fits) :
    c.run s l = c.shift^[l.length] (s ^^^ c.pack 0 l) := by
  induction l generalizing s with
  | nil => rw [pack, BitVec.xor_zero]; rfl
  | cons b l ih =>
    rw [List.length_cons] at h
    rw [run_cons, ih _ (by omega), ← c.shift_pack 0 l (by omega), step, ← c.shift_xor, pack,
      BitVec.xor_assoc, List.length_cons, Function.iterate_succ_apply]

theorem pack_injective {l m : List (BitVec v)} (hlen : l.length = m.length)
    (hfits : l.length ≤ c.fits) (h : c.pack 0 l = c.pack 0 m) : l = m := by
  induction l generalizing m with
  | nil => exact (List.length_eq_zero_iff.mp hlen.symm).symm
  | cons a l ih =>
    cases m with
    | nil => cases hlen
    | cons b m =>
      rw [List.length_cons, List.length_cons] at hlen
      rw [List.length_cons] at hfits
      rw [pack, pack] at h
      -- the first symbol leaves next, the others one shift later
      have hwindow := congrArg c.window h
      rw [c.window_xor, c.window_xor, c.window_enter, c.window_enter,
        c.window_pack 0 l (by omega), c.window_pack 0 m (by omega), BitVec.xor_zero,
        BitVec.xor_zero] at hwindow
      subst hwindow
      have hrest := congrArg c.shift ((BitVec.xor_right_inj _).mp h)
      rw [c.shift_pack 0 l (by omega), c.shift_pack 0 m (by omega)] at hrest
      rw [ih (by omega) (by omega) hrest]

/-- A change of a few neighbouring symbols changes the register. -/
theorem run_ne_of_change (s : BitVec w) (front back : List (BitVec v)) {l m : List (BitVec v)}
    (hlen : l.length = m.length) (hfits : l.length ≤ c.fits) (hne : l ≠ m) :
    c.run s (front ++ l ++ back) ≠ c.run s (front ++ m ++ back) := by
  intro h
  rw [run_concat, run_concat, run_concat, run_concat] at h
  have hmid := c.run_injective back h
  rw [c.run_eq _ l hfits, c.run_eq _ m (hlen ▸ hfits), hlen] at hmid
  have hpack := (c.shift_injective.iterate m.length) hmid
  exact hne (c.pack_injective hlen hfits ((BitVec.xor_right_inj _).mp hpack))

end Crc

/-! ### The shift of a bit -/

section Shift

variable {w : ℕ} (poly : BitVec w)

/-- The polynomial, if a bit has left the register. -/
def leaving (b : Bool) : BitVec w := if b then poly else 0#w

theorem leaving_xor (a b : Bool) : leaving poly (a ^^ b) = leaving poly a ^^^ leaving poly b := by
  cases a <;> cases b <;> simp [leaving]

/-- The lowest bit leaves the register first. -/
def lsbShift (x : BitVec w) : BitVec w := (x >>> 1) ^^^ leaving poly (x.getLsbD 0)

/-- The highest bit leaves the register first. -/
def msbShift (x : BitVec w) : BitVec w := (x <<< 1) ^^^ leaving poly x.msb

theorem xor_xor_xor_comm (a b c d : BitVec w) : a ^^^ b ^^^ (c ^^^ d) = a ^^^ c ^^^ (b ^^^ d) := by
  rw [BitVec.xor_assoc, BitVec.xor_assoc, ← BitVec.xor_assoc b, BitVec.xor_comm b,
    BitVec.xor_assoc c]

theorem lsbShift_xor (x y : BitVec w) :
    lsbShift poly (x ^^^ y) = lsbShift poly x ^^^ lsbShift poly y := by
  rw [lsbShift, lsbShift, lsbShift, BitVec.ushiftRight_xor_distrib, BitVec.getLsbD_xor, leaving_xor,
    xor_xor_xor_comm]

theorem msbShift_xor (x y : BitVec w) :
    msbShift poly (x ^^^ y) = msbShift poly x ^^^ msbShift poly y := by
  rw [msbShift, msbShift, msbShift, BitVec.shiftLeft_xor_distrib, BitVec.msb_xor, leaving_xor,
    xor_xor_xor_comm]

/-- A linear map that takes nothing but zero to zero loses nothing. -/
theorem injective_of_xor {f : BitVec w → BitVec w} (hf : ∀ x y, f (x ^^^ y) = f x ^^^ f y)
    (hzero : ∀ x, f x = 0#w → x = 0#w) : Function.Injective f := by
  intro x y h
  have hxor := hzero (x ^^^ y) (by rw [hf, h, BitVec.xor_self])
  exact BitVec.xor_eq_zero_iff.mp hxor

theorem lsbShift_injective (hpoly : poly.msb = true) : Function.Injective (lsbShift poly) := by
  refine injective_of_xor (lsbShift_xor poly) fun x hx => ?_
  have heq : x >>> 1 = leaving poly (x.getLsbD 0) := BitVec.xor_eq_zero_iff.mp hx
  cases hbit : x.getLsbD 0 with
  | true =>
    -- the highest bit of the register is empty behind the shift
    rw [hbit, leaving, if_pos rfl] at heq
    rw [BitVec.msb_eq_getLsbD_last, ← heq, BitVec.getLsbD_ushiftRight,
      BitVec.getLsbD_of_ge _ _ (by omega)] at hpoly
    cases hpoly
  | false =>
    rw [hbit, leaving, if_neg Bool.false_ne_true] at heq
    refine BitVec.eq_of_getLsbD_eq fun i hi => ?_
    rw [BitVec.getLsbD_zero]
    rcases Nat.eq_zero_or_pos i with rfl | hpos
    · exact hbit
    · have hi := congrArg (·.getLsbD (i - 1)) heq
      simp only [BitVec.getLsbD_ushiftRight, BitVec.getLsbD_zero] at hi
      rwa [Nat.add_sub_cancel' hpos] at hi

theorem msbShift_injective (hpoly : poly.getLsbD 0 = true) :
    Function.Injective (msbShift poly) := by
  refine injective_of_xor (msbShift_xor poly) fun x hx => ?_
  have heq : x <<< 1 = leaving poly x.msb := BitVec.xor_eq_zero_iff.mp hx
  cases hbit : x.msb with
  | true =>
    -- the lowest bit of the register is empty behind the shift
    rw [hbit, leaving, if_pos rfl] at heq
    rw [← heq, BitVec.getLsbD_shiftLeft] at hpoly
    simp at hpoly
  | false =>
    rw [hbit, leaving, if_neg Bool.false_ne_true] at heq
    refine BitVec.eq_of_getLsbD_eq fun i hi => ?_
    rw [BitVec.getLsbD_zero]
    by_cases hlast : i = w - 1
    · rwa [hlast, ← BitVec.msb_eq_getLsbD_last]
    · have hi' := congrArg (·.getLsbD (i + 1)) heq
      have hlt : i + 1 < w := by omega
      simpa [hlt, BitVec.getLsbD_eq_getElem hi] using hi'

theorem iterate_xor {f : BitVec w → BitVec w} (hf : ∀ x y, f (x ^^^ y) = f x ^^^ f y) (n : ℕ)
    (x y : BitVec w) : f^[n] (x ^^^ y) = f^[n] x ^^^ f^[n] y := by
  induction n generalizing x y with
  | zero => rfl
  | succ n ih => rw [Function.iterate_succ_apply, Function.iterate_succ_apply,
      Function.iterate_succ_apply, hf, ih]

/-- Bits that are zero leave the register without the polynomial. -/
theorem lsbShift_iterate (n : ℕ) (x : BitVec w) (h : ∀ i < n, x.getLsbD i = false) :
    (lsbShift poly)^[n] x = x >>> n := by
  induction n generalizing x with
  | zero => simp
  | succ n ih =>
    have hshift : lsbShift poly x = x >>> 1 := by
      rw [lsbShift, h 0 (Nat.succ_pos n), leaving, if_neg Bool.false_ne_true, BitVec.xor_zero]
    rw [Function.iterate_succ_apply, hshift, ih, ← BitVec.shiftRight_add, Nat.add_comm]
    intro i hi
    rw [BitVec.getLsbD_ushiftRight]
    exact h (1 + i) (by omega)

theorem msbShift_iterate (n : ℕ) (x : BitVec w) (h : ∀ i, w - n ≤ i → x.getLsbD i = false) :
    (msbShift poly)^[n] x = x <<< n := by
  induction n generalizing x with
  | zero => simp
  | succ n ih =>
    have hmsb : x.msb = false := by
      rw [BitVec.msb_eq_getLsbD_last]
      exact h (w - 1) (by omega)
    have hshift : msbShift poly x = x <<< 1 := by
      rw [msbShift, hmsb, leaving, if_neg Bool.false_ne_true, BitVec.xor_zero]
    rw [Function.iterate_succ_apply, hshift, ih, ← BitVec.shiftLeft_add, Nat.add_comm]
    intro i hi
    rw [BitVec.getLsbD_shiftLeft]
    by_cases hi0 : i < 1
    · simp [hi0]
    · rw [h (i - 1) (by omega), Bool.and_false]

end Shift

/-! ### Codes of bytes -/

section Bytes

variable {w : ℕ} (poly : BitVec w)

/-- The code of bytes whose lowest bit leaves the register first. -/
def Crc.lsbFirst (hpoly : poly.msb = true) (hw : 8 ≤ w) : Crc w 8 where
  shift := (lsbShift poly)^[8]
  enter i b := b.setWidth w <<< (8 * i)
  window x := x.setWidth 8
  fits := w / 8
  shift_xor := iterate_xor (lsbShift_xor poly) 8
  shift_injective := (lsbShift_injective poly hpoly).iterate 8
  enter_xor i a b := by rw [BitVec.setWidth_xor, BitVec.shiftLeft_xor_distrib]
  shift_enter i b h := by
    rw [lsbShift_iterate]
    · refine BitVec.eq_of_getLsbD_eq fun j hj => ?_
      simp only [BitVec.getLsbD_ushiftRight, BitVec.getLsbD_shiftLeft, BitVec.getLsbD_setWidth]
      by_cases hlow : j < 8 * i
      · simp [hlow, show 8 + j < 8 * (i + 1) by omega]
      · rw [show 8 + j - 8 * (i + 1) = j - 8 * i by omega]
        by_cases hbyte : j - 8 * i < 8
        · simp [hlow, hj, show 8 + j < w by omega, show ¬8 + j < 8 * (i + 1) by omega]
        · simp [BitVec.getLsbD_of_ge _ _ (Nat.not_lt.mp hbyte)]
    · intro j hj
      simp [BitVec.getLsbD_shiftLeft, show j < 8 * (i + 1) by omega]
  window_xor x y := BitVec.setWidth_xor
  window_enter b := by
    refine BitVec.eq_of_getLsbD_eq fun j hj => ?_
    simp [hj, show j < w by omega]
  window_enter_succ i b h := by
    refine BitVec.eq_of_getLsbD_eq fun j hj => ?_
    simp [BitVec.getLsbD_shiftLeft, show j < 8 * (i + 1) by omega]

/-- The code of bytes whose highest bit leaves the register first. -/
def Crc.msbFirst (hpoly : poly.getLsbD 0 = true) (hw : 8 ≤ w) : Crc w 8 where
  shift := (msbShift poly)^[8]
  enter i b := b.setWidth w <<< (w - 8 - 8 * i)
  window x := (x >>> (w - 8)).setWidth 8
  fits := w / 8
  shift_xor := iterate_xor (msbShift_xor poly) 8
  shift_injective := (msbShift_injective poly hpoly).iterate 8
  enter_xor i a b := by rw [BitVec.setWidth_xor, BitVec.shiftLeft_xor_distrib]
  shift_enter i b h := by
    rw [msbShift_iterate, ← BitVec.shiftLeft_add]
    · congr 1
      omega
    · intro j hj
      by_cases hw' : j < w
      · simp only [BitVec.getLsbD_shiftLeft, BitVec.getLsbD_setWidth]
        simp [BitVec.getLsbD_of_ge b (j - (w - 8 - 8 * (i + 1))) (by omega)]
      · exact BitVec.getLsbD_of_ge _ _ (Nat.not_lt.mp hw')
  window_xor x y := by rw [BitVec.ushiftRight_xor_distrib, BitVec.setWidth_xor]
  window_enter b := by
    refine BitVec.eq_of_getLsbD_eq fun j hj => ?_
    simp [hj, show w - 8 + j < w by omega]
  window_enter_succ i b h := by
    refine BitVec.eq_of_getLsbD_eq fun j hj => ?_
    simp only [BitVec.getLsbD_setWidth, BitVec.getLsbD_ushiftRight, BitVec.getLsbD_shiftLeft]
    simp [BitVec.getLsbD_of_ge b (w - 8 + j - (w - 8 - 8 * (i + 1))) (by omega)]

/-- Eight shifts at once: the lowest byte is looked up. -/
theorem lsbShift_byte (x : BitVec w) :
    (lsbShift poly)^[8] x =
      (lsbShift poly)^[8] ((x.setWidth 8).setWidth w) ^^^ (x >>> 8) := by
  have hsplit : x = (x.setWidth 8).setWidth w ^^^ (x >>> 8 <<< 8) := by
    refine BitVec.eq_of_getLsbD_eq fun j hj => ?_
    by_cases hlow : j < 8
    · simp [hlow, hj]
    · simp [hlow, hj, show 8 + (j - 8) = j by omega]
  have hhigh : (lsbShift poly)^[8] (x >>> 8 <<< 8) = x >>> 8 := by
    rw [lsbShift_iterate]
    · refine BitVec.eq_of_getLsbD_eq fun j hj => ?_
      by_cases hin : 8 + j < w
      · simp [hin]
      · simp [hin, BitVec.getLsbD_of_ge x (8 + j) (by omega)]
    · intro j hj
      simp [hj]
  calc (lsbShift poly)^[8] x
      = (lsbShift poly)^[8] ((x.setWidth 8).setWidth w ^^^ (x >>> 8 <<< 8)) := by rw [← hsplit]
    _ = (lsbShift poly)^[8] ((x.setWidth 8).setWidth w) ^^^ (x >>> 8) := by
      rw [iterate_xor (lsbShift_xor poly), hhigh]

/-- Eight shifts at once: the highest byte is looked up. -/
theorem msbShift_byte (hw : 8 ≤ w) (x : BitVec w) :
    (msbShift poly)^[8] x =
      (msbShift poly)^[8] (((x >>> (w - 8)).setWidth 8).setWidth w <<< (w - 8)) ^^^ (x <<< 8) := by
  have hsplit : x = ((x >>> (w - 8)).setWidth 8).setWidth w <<< (w - 8) ^^^ (x <<< 8 >>> 8) := by
    refine BitVec.eq_of_getLsbD_eq fun j hj => ?_
    by_cases hlow : j < w - 8
    · simp [hlow, hj, show 8 + j < w by omega]
    · simp [hlow, hj, show j - (w - 8) < 8 by omega, show w - 8 + (j - (w - 8)) = j by omega,
        show ¬8 + j < w by omega, show j - (w - 8) < w by omega]
  have hhigh : (msbShift poly)^[8] (x <<< 8 >>> 8) = x <<< 8 := by
    rw [msbShift_iterate]
    · refine BitVec.eq_of_getLsbD_eq fun j hj => ?_
      by_cases hin : j < 8
      · simp [hin]
      · simp [hin, hj, show 8 + (j - 8) = j by omega]
    · intro j hj
      simp [show ¬8 + j < w by omega]
  calc (msbShift poly)^[8] x
      = (msbShift poly)^[8]
          (((x >>> (w - 8)).setWidth 8).setWidth w <<< (w - 8) ^^^ (x <<< 8 >>> 8)) := by
        rw [← hsplit]
    _ = (msbShift poly)^[8] (((x >>> (w - 8)).setWidth 8).setWidth w <<< (w - 8)) ^^^ (x <<< 8) := by
      rw [iterate_xor (msbShift_xor poly), hhigh]

end Bytes

end Subvol.Lib

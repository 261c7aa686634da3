import Subvol.Btree.Key
import Subvol.Lib.BitField
import Subvol.Lib.WordString

/-!
# Packed keys

A packed key is a few words. The fields of the key stand in them from the highest bit of the last
word down, each in the bits its format gives it and without the offset of its format; the lowest
three bytes of the first word are the header. Model of the functions of `bkey.rs` that write and
read such words. A function that fails an assertion of the source returns `none`.

## Main definitions

* `BkeyHead`: a key without its value.
* `setIncField`, `getIncField`: one field is written, or read.
* `KeyWords.bch2BkeyPackKey`, `KeyWords.bch2BkeyUnpackKey`, `KeyWords.bkeyUnpackPos`.
* `PackFormat`: the formats the engine accepts.

## Main results

* `pack_unpack`: a key is packed exactly when its fields fit, and is read back.
-/

namespace Subvol

open Lib

/-! ### Formats -/

/-- `KEY_FORMAT_CURRENT`. -/
def keyFormatCurrent : UInt8 := 1

/-- `KEY_FORMAT_LOCAL_BTREE`. -/
def keyFormatLocalBtree : UInt8 := 0

/-- The greatest number with the given bits, in a word. -/
def bitsMask (bits : ℕ) : ℕ := if bits = 64 then 2 ^ 64 - 1 else 2 ^ bits - 1

/-- `bch2_bkey_format_field_overflows`. -/
def bch2BkeyFormatFieldOverflows (f : BkeyFormat) (i : ℕ) : Bool :=
  let (formatBits, fieldOffset) := f.fields.getD i (0, 0)
  let (unpackedBits, _) := bkeyFormatCurrent.fields.getD i (0, 0)
  if formatBits > unpackedBits then true
  else if formatBits = unpackedBits ∧ fieldOffset ≠ 0 then true
  else decide ((fieldOffset + bitsMask formatBits) % 2 ^ 64 &&& bitsMask unpackedBits < fieldOffset)

/-- A format for the six fields of a key, none of which overflows, with room for the header. -/
structure PackFormat extends BkeyFormat where
  nrFields : fields.length = 6
  keyU64s_pos : 1 ≤ keyU64s
  keyU64s_le : keyU64s ≤ 5
  overflows : ∀ i < 6, bch2BkeyFormatFieldOverflows toBkeyFormat i = false
  room : keyPackedBitsStart + fieldBits fields ≤ 64 * keyU64s

/-! ### Words of a key -/

/-- `bkey`: a key without its value. -/
structure BkeyHead where
  u64s : UInt8
  format : UInt8
  type : UInt8
  pad : UInt8 := 0
  versionHi : Fin (2 ^ 32)
  versionLo : Fin (2 ^ 64)
  size : Fin (2 ^ 32)
  p : Bpos
deriving DecidableEq

/-- `bkey_field_values`. -/
def BkeyHead.fieldValues (k : BkeyHead) : List ℕ :=
  [k.p.inode, k.p.offset, k.p.snapshot, k.size, k.versionHi, k.versionLo]

/-- The words a key is stored in. -/
abbrev KeyWords := ℕ → BitVec 64

namespace KeyWords

/-- The first three bytes of a stored key. -/
def u64s (words : KeyWords) : UInt8 := UInt8.ofNat (field 0 8 (words 0).toNat)

def format (words : KeyWords) : UInt8 := UInt8.ofNat (field 8 8 (words 0).toNat)

def type (words : KeyWords) : UInt8 := UInt8.ofNat (field 16 8 (words 0).toNat)

/-- Writes a byte of the first word. -/
def setByte (words : KeyWords) (off : ℕ) (v : UInt8) : KeyWords :=
  Function.update words 0 (setField off 8 v.toNat (words 0))

end KeyWords

/-! ### Writing fields -/

structure PackState where
  bits : ℕ
  w : BitVec 64
  p : ℕ
  words : KeyWords

/-- `pack_state_init`. -/
def packStateInit (f : BkeyFormat) (words : KeyWords) : Option PackState :=
  if f.keyU64s ≠ 0 ∧ f.keyU64s ≤ 5 then
    some { bits := 64, w := 0, p := f.keyU64s - 1, words }
  else none

/-- `pack_state_finish`. -/
def packStateFinish (f : BkeyFormat) (s : PackState) : Option KeyWords :=
  if s.p < f.keyU64s then some (Function.update s.words s.p s.w) else none

/-- The first part of `__set_inc_field`: a field that the current word has no room for begins
there and goes on in the word below. -/
def spillField (s : PackState) (bits : ℕ) (v : BitVec 64) : Option (ℕ × PackState) :=
  if bits > s.bits then
    let bits := bits - s.bits
    let w := s.w ||| (v >>> 1) >>> (bits - 1)
    if s.p = 0 then none
    else some (bits,
      { bits := 64, w := 0, p := s.p - 1, words := Function.update s.words s.p w })
  else some (bits, s)

/-- `__set_inc_field`. -/
def setIncFieldBits (s : PackState) (bits : ℕ) (v : BitVec 64) : Option PackState :=
  if bits ≠ 0 then
    match spillField s bits v with
    | some (bits, s) =>
      some { s with bits := s.bits - bits, w := s.w ||| v <<< (s.bits - bits) }
    | none => none
  else some s

/-- The outcome of packing: a value does not fit, or the state behind it. -/
inductive PackRes (α : Type)
  | panic
  | misfit
  | ok (a : α)

/-- `set_inc_field`. -/
def setIncField (s : PackState) (f : ℕ × ℕ) (v : ℕ) : PackRes PackState :=
  let (bits, offset) := f
  if v < offset then .misfit
  else if bitsOf (v - offset) > bits then .misfit
  else match setIncFieldBits s bits (BitVec.ofNat 64 (v - offset)) with
    | some s => .ok s
    | none => .panic

/-- The loop of `bch2_bkey_pack_key` over the fields. -/
def setIncFields (s : PackState) : List ((ℕ × ℕ) × ℕ) → PackRes PackState
  | [] => .ok s
  | (f, v) :: rest =>
    match setIncField s f v with
    | .ok s => setIncFields s rest
    | .misfit => .misfit
    | .panic => .panic

/-- `bch2_bkey_pack_key`: whether the key was packed, and the words. -/
def KeyWords.bch2BkeyPackKey (out : KeyWords) (k : BkeyHead) (f : BkeyFormat) : PackRes KeyWords :=
  if f.fields.length ≠ 6 ∨ k.format &&& 0x7f ≠ keyFormatCurrent then .panic
  else match packStateInit f fun i => if i < f.keyU64s then 0 else out i with
    | none => .panic
    | some s =>
      match setIncFields s (f.fields.zip k.fieldValues) with
      | .panic => .panic
      | .misfit => .misfit
      | .ok s =>
        match packStateFinish f s with
        | none => .panic
        | some words =>
          let outU64s := f.keyU64s + k.u64s.toNat - bkeyU64s
          if outU64s ≤ 255 then
            .ok (((words.setByte 0 (UInt8.ofNat outU64s)).setByte 8 (k.format &&& 0x80)).setByte 16
              k.type)
          else .panic

/-! ### Reading fields -/

/-- The state of a reader; `left` counts the words from the current one down. -/
structure UnpackState where
  bits : ℕ
  w : BitVec 64
  left : ℕ
  words : KeyWords

/-- The word that a reader with `left` words goes through; there is nothing below the first one. -/
def wordBelow (words : KeyWords) : ℕ → BitVec 64
  | 0 => 0
  | left + 1 => words left

/-- `unpack_state_init`. -/
def unpackStateInit (f : BkeyFormat) (words : KeyWords) : Option UnpackState :=
  if f.keyU64s ≠ 0 ∧ f.keyU64s ≤ 5 then
    some { bits := 64, w := wordBelow words f.keyU64s, left := f.keyU64s, words }
  else none

/-- The first part of `get_inc_field`: a field that takes all of the current word goes on in the
one below. -/
def refillField (s : UnpackState) (bits : ℕ) : Option (BitVec 64 × ℕ × UnpackState) :=
  if bits ≥ s.bits then
    let v := s.w >>> (64 - bits)
    let bits := bits - s.bits
    let left := s.left - 1
    if left = 0 ∧ bits ≠ 0 then none
    else some (v, bits, { s with bits := 64, w := wordBelow s.words left, left })
  else some (0, bits, s)

/-- `get_inc_field`. -/
def getIncField (s : UnpackState) (f : ℕ × ℕ) : Option (BitVec 64 × UnpackState) :=
  match refillField s f.1 with
  | some (v, bits, s) =>
    let v := v ||| (s.w >>> 1) >>> (63 - bits)
    some (v + BitVec.ofNat 64 f.2, { s with bits := s.bits - bits, w := s.w <<< bits })
  | none => none

/-- The values of fields that are read one after the other. -/
def getIncFields (s : UnpackState) : List (ℕ × ℕ) → Option (List ℕ)
  | [] => some []
  | f :: rest =>
    match getIncField s f with
    | some (v, s) => (getIncFields s rest).map (v.toNat :: ·)
    | none => none

/-- `__bch2_bkey_unpack_key`. -/
def KeyWords.bch2BkeyUnpackKey (f : BkeyFormat) (words : KeyWords) : Option BkeyHead :=
  let outU64s := words.u64s.toNat - f.keyU64s + bkeyU64s
  if f.fields.length = 6 ∧ f.keyU64s ≤ words.u64s.toNat ∧
      words.format &&& 0x7f = keyFormatLocalBtree ∧ outU64s ≤ 255 then
    match (unpackStateInit f words).bind (getIncFields · f.fields) with
    | some [inode, offset, snapshot, size, versionHi, versionLo] =>
      some {
        u64s := UInt8.ofNat outU64s
        format := keyFormatCurrent ||| (words.format &&& 0x80)
        type := words.type
        versionHi := Fin.ofNat (2 ^ 32) versionHi
        versionLo := Fin.ofNat (2 ^ 64) versionLo
        size := Fin.ofNat (2 ^ 32) size
        p := ⟨Fin.ofNat (2 ^ 64) inode, Fin.ofNat (2 ^ 64) offset, Fin.ofNat (2 ^ 32) snapshot⟩ }
    | _ => none
  else none

/-- `__bkey_unpack_pos`. -/
def KeyWords.bkeyUnpackPos (f : BkeyFormat) (words : KeyWords) : Option Bpos :=
  if f.fields.length = 6 ∧ f.keyU64s ≤ words.u64s.toNat ∧
      words.format &&& 0x7f = keyFormatLocalBtree then
    match (unpackStateInit f words).bind (getIncFields · (f.fields.take 3)) with
    | some [inode, offset, snapshot] =>
      some ⟨Fin.ofNat (2 ^ 64) inode, Fin.ofNat (2 ^ 64) offset, Fin.ofNat (2 ^ 32) snapshot⟩
    | _ => none
  else none

/-! ### What is written -/

/-- The writer has `r` bits left in `n` words that hold the number `N` so far. -/
structure PackState.Wrote (s : PackState) (n r N : ℕ) : Prop where
  p_lt : s.p < n
  bits_le : s.bits ≤ 64
  rest : r = 64 * s.p + s.bits
  high : ∃ u, s.w.toNat = u * 2 ^ s.bits
  below : ∀ i ≤ s.p, s.words i = 0
  num : wordsNat (Function.update s.words s.p s.w) n = N

namespace PackState.Wrote

variable {s : PackState} {n r N : ℕ}

/-- More is written into the current word. -/
theorem add_word (h : s.Wrote n r N) {w : BitVec 64} {d : ℕ} (hw : w.toNat = s.w.toNat + d) :
    wordsNat (Function.update s.words s.p w) n = N + d * 2 ^ (64 * s.p) := by
  have hold := wordsNat_update s.words h.p_lt s.w
  have hnew := wordsNat_update s.words h.p_lt w
  rw [h.num] at hold
  rw [hw, Nat.add_mul] at hnew
  omega

/-- The second part of `__set_inc_field`: a field with room in the current word. -/
theorem push (h : s.Wrote n r N) {m : ℕ} {v : BitVec 64} (hm : m ≤ s.bits)
    (hv : v.toNat < 2 ^ m ∨ s.bits = 64) :
    PackState.Wrote { s with bits := s.bits - m, w := s.w ||| v <<< (s.bits - m) } n (r - m)
      (N + v.toNat % 2 ^ m * 2 ^ (r - m)) := by
  obtain ⟨u, hu⟩ := h.high
  have hbits := h.bits_le
  have hrest := h.rest
  -- the bits of the field, in their place in the word
  have hshift : (v <<< (s.bits - m)).toNat = v.toNat % 2 ^ m * 2 ^ (s.bits - m) := by
    rw [BitVec.toNat_shiftLeft, Nat.shiftLeft_eq]
    rcases hv with hlt | hfull
    · rw [Nat.mod_eq_of_lt hlt]
      refine Nat.mod_eq_of_lt ?_
      have hpow : v.toNat * 2 ^ (s.bits - m) < 2 ^ m * 2 ^ (s.bits - m) :=
        Nat.mul_lt_mul_of_pos_right hlt (Nat.two_pow_pos _)
      rw [← pow_add, Nat.add_sub_cancel' hm] at hpow
      exact hpow.trans_le (Nat.pow_le_pow_right Nat.two_pos hbits)
    · rw [hfull, mul_pow_mod_pow _ (Nat.sub_le 64 m), Nat.sub_sub_self (hfull ▸ hm)]
  have hlow : (v <<< (s.bits - m)).toNat < 2 ^ s.bits := by
    rw [hshift]
    have hpow := Nat.mul_lt_mul_of_pos_right (Nat.mod_lt v.toNat (Nat.two_pow_pos m))
      (Nat.two_pow_pos (s.bits - m))
    rwa [← pow_add, Nat.add_sub_cancel' hm] at hpow
  have hw : (s.w ||| v <<< (s.bits - m)).toNat =
      s.w.toNat + v.toNat % 2 ^ m * 2 ^ (s.bits - m) := by
    rw [BitVec.toNat_or, hu, or_eq_add hlow, hshift]
  refine ⟨h.p_lt, (Nat.sub_le _ _).trans hbits, ?_, ?_, h.below, ?_⟩
  · dsimp only
    omega
  · refine ⟨u * 2 ^ m + v.toNat % 2 ^ m, ?_⟩
    rw [hw, hu, Nat.add_mul, mul_assoc, ← pow_add, Nat.add_sub_cancel' hm]
  · rw [h.add_word hw, mul_assoc, ← pow_add]
    have hexp : s.bits - m + 64 * s.p = r - m := by omega
    rw [hexp]

/-- The first part of `__set_inc_field`: the high bits of a field fill the current word. -/
theorem spill (h : s.Wrote n r N) {bits : ℕ} {v : BitVec 64} (hbits : s.bits < bits)
    (hle : bits ≤ r) (hv : v.toNat < 2 ^ bits) :
    ∃ s', spillField s bits v = some (bits - s.bits, s') ∧ s'.bits = 64 ∧
      s'.Wrote n (r - s.bits) (N + v.toNat / 2 ^ (bits - s.bits) * 2 ^ (r - s.bits)) := by
  obtain ⟨u, hu⟩ := h.high
  have hrest := h.rest
  have hlt := h.p_lt
  have hbits64 := h.bits_le
  have hp : s.p ≠ 0 := by
    intro hp
    omega
  have hshift : ((v >>> 1) >>> (bits - s.bits - 1)).toNat = v.toNat / 2 ^ (bits - s.bits) := by
    rw [BitVec.toNat_ushiftRight, BitVec.toNat_ushiftRight, Nat.shiftRight_eq_div_pow,
      Nat.shiftRight_eq_div_pow, Nat.div_div_eq_div_mul, ← pow_add]
    congr 2
    omega
  have hlow : v.toNat / 2 ^ (bits - s.bits) < 2 ^ s.bits := by
    rw [Nat.div_lt_iff_lt_mul (Nat.two_pow_pos _), ← pow_add]
    have hexp : s.bits + (bits - s.bits) = bits := by omega
    rwa [hexp]
  have hw : (s.w ||| (v >>> 1) >>> (bits - s.bits - 1)).toNat =
      s.w.toNat + v.toNat / 2 ^ (bits - s.bits) := by
    rw [BitVec.toNat_or, hshift, hu, or_eq_add hlow]
  rw [spillField, if_pos hbits, if_neg hp]
  refine ⟨_, rfl, rfl, ?_⟩
  refine ⟨?_, le_rfl, ?_, ⟨0, by simp⟩, ?_, ?_⟩
  · dsimp only
    omega
  · dsimp only
    omega
  · intro i hi
    dsimp only at hi ⊢
    rw [Function.update_of_ne (by omega)]
    exact h.below i (by omega)
  · dsimp only
    have hzero : Function.update s.words s.p (s.w ||| (v >>> 1) >>> (bits - s.bits - 1))
        (s.p - 1) = 0 := by
      rw [Function.update_of_ne (by omega)]
      exact h.below _ (by omega)
    have hsame : Function.update (Function.update s.words s.p
        (s.w ||| (v >>> 1) >>> (bits - s.bits - 1))) (s.p - 1) 0 =
        Function.update s.words s.p (s.w ||| (v >>> 1) >>> (bits - s.bits - 1)) := by
      rw [← hzero, Function.update_eq_self]
    rw [hsame, h.add_word hw]
    have hexp : 64 * s.p = r - s.bits := by omega
    rw [hexp]

end PackState.Wrote

/-- A field is written below what was written before. -/
theorem setIncFieldBits_spec {s : PackState} {n r N bits : ℕ} {v : BitVec 64}
    (h : s.Wrote n r N) (hle : bits ≤ r) (hbits : bits ≤ 64) (hv : v.toNat < 2 ^ bits) :
    ∃ s', setIncFieldBits s bits v = some s' ∧
      s'.Wrote n (r - bits) (N + v.toNat * 2 ^ (r - bits)) := by
  rw [setIncFieldBits]
  by_cases hzero : bits = 0
  · have hv0 : v.toNat = 0 := by simpa [hzero] using hv
    rw [if_neg (not_not.mpr hzero)]
    refine ⟨s, rfl, ?_⟩
    rw [hv0, hzero]
    simpa using h
  rw [if_pos hzero]
  by_cases hspill : s.bits < bits
  · obtain ⟨s', hs', hfull, hw⟩ := h.spill hspill hle hv
    rw [hs']
    refine ⟨_, rfl, ?_⟩
    have hfit : bits - s.bits ≤ s'.bits := by omega
    have hpush := hw.push (v := v) hfit (.inr hfull)
    have hrest : r - s.bits - (bits - s.bits) = r - bits := by omega
    rw [hrest] at hpush
    have hexp : r - s.bits = bits - s.bits + (r - bits) := by omega
    have hsum : N + v.toNat / 2 ^ (bits - s.bits) * 2 ^ (r - s.bits) +
        v.toNat % 2 ^ (bits - s.bits) * 2 ^ (r - bits) = N + v.toNat * 2 ^ (r - bits) := by
      rw [hexp, pow_add, ← mul_assoc, Nat.add_assoc, ← Nat.add_mul, Nat.div_add_mod']
    rwa [hsum] at hpush
  · rw [spillField, if_neg hspill]
    refine ⟨_, rfl, ?_⟩
    have hpush := h.push (Nat.not_lt.mp hspill) (.inl hv)
    rwa [Nat.mod_eq_of_lt hv] at hpush

theorem bitsOf_le_iff (n bits : ℕ) : bitsOf n ≤ bits ↔ n < 2 ^ bits := by
  rw [bitsOf]
  split_ifs with h
  · simp [h]
  · rw [Nat.succ_le_iff, Nat.log2_lt h]

/-- The fields of a packed key as they stand in its words. -/
def rawFields (l : List ((ℕ × ℕ) × ℕ)) : List (ℕ × ℕ) := l.map fun x => (x.1.1, x.2 - x.1.2)

theorem setIncField_spec {s : PackState} {n r N : ℕ} {f : ℕ × ℕ} {v : ℕ} (h : s.Wrote n r N)
    (hle : f.1 ≤ r) (hbits : f.1 ≤ 64) (hv : v < 2 ^ 64) :
    (fieldFits f v = true → ∃ s', setIncField s f v = .ok s' ∧
      s'.Wrote n (r - f.1) (N + (v - f.2) * 2 ^ (r - f.1))) ∧
    (fieldFits f v = false → setIncField s f v = .misfit) := by
  obtain ⟨bits, offset⟩ := f
  rw [fieldFits, setIncField]
  dsimp only at hle hbits ⊢
  constructor
  · intro hfit
    obtain ⟨hoff, hlt⟩ := of_decide_eq_true hfit
    have hval : (BitVec.ofNat 64 (v - offset)).toNat = v - offset := by
      rw [BitVec.toNat_ofNat]
      exact Nat.mod_eq_of_lt ((Nat.sub_le _ _).trans_lt hv)
    obtain ⟨s', hs', hw⟩ := setIncFieldBits_spec h hle hbits (hval.symm ▸ hlt)
    rw [if_neg (Nat.not_lt.mpr hoff), if_neg (Nat.not_lt.mpr ((bitsOf_le_iff _ _).mpr hlt)), hs']
    rw [hval] at hw
    exact ⟨s', rfl, hw⟩
  · intro hmis
    have hnot := of_decide_eq_false hmis
    split_ifs with hoff hwide
    · rfl
    · rfl
    · exact absurd ⟨Nat.not_lt.mp hoff, (bitsOf_le_iff _ _).mp (Nat.not_lt.mp hwide)⟩ hnot

/-- The fields of a key that fit their formats are written one below the other. -/
theorem setIncFields_spec {s : PackState} {n r N : ℕ} {l : List ((ℕ × ℕ) × ℕ)}
    (h : s.Wrote n r N) (hle : fieldBits (rawFields l) ≤ r) (hbits : ∀ x ∈ l, x.1.1 ≤ 64)
    (hv : ∀ x ∈ l, x.2 < 2 ^ 64) :
    ((∀ x ∈ l, fieldFits x.1 x.2 = true) → ∃ s', setIncFields s l = .ok s' ∧
      s'.Wrote n (r - fieldBits (rawFields l))
        (N + fieldsNat (rawFields l) * 2 ^ (r - fieldBits (rawFields l)))) ∧
    (¬(∀ x ∈ l, fieldFits x.1 x.2 = true) → setIncFields s l = .misfit) := by
  induction l generalizing s r N with
  | nil =>
    refine ⟨fun _ => ⟨s, rfl, ?_⟩, fun hmis => absurd (by simp) hmis⟩
    simpa [rawFields, fieldsNat] using h
  | cons x rest ih =>
    obtain ⟨f, v⟩ := x
    have hhead : (f, v) ∈ (f, v) :: rest := List.mem_cons_self ..
    have htail : ∀ y ∈ rest, y ∈ (f, v) :: rest := fun y hy => List.mem_cons_of_mem _ hy
    have hsum : fieldBits (rawFields ((f, v) :: rest)) = f.1 + fieldBits (rawFields rest) := by
      simp [rawFields]
    rw [hsum] at hle ⊢
    obtain ⟨hfits, hmisfit⟩ := setIncField_spec h (Nat.le_of_add_right_le hle) (hbits _ hhead)
      (hv _ hhead)
    by_cases hfit : fieldFits f v = true
    · obtain ⟨s', hs', hw⟩ := hfits hfit
      obtain ⟨hall, hnot⟩ := ih hw (Nat.le_sub_of_add_le' hle) (fun y hy => hbits y (htail y hy))
        (fun y hy => hv y (htail y hy))
      rw [setIncFields, hs']
      constructor
      · intro hrest
        obtain ⟨s'', hs'', hw'⟩ := hall fun y hy => hrest y (htail y hy)
        refine ⟨s'', hs'', ?_⟩
        have hexp : r - f.1 - fieldBits (rawFields rest) = r - (f.1 + fieldBits (rawFields rest)) :=
          Nat.sub_sub ..
        have hhigh : r - f.1 = fieldBits (rawFields rest) +
            (r - (f.1 + fieldBits (rawFields rest))) := by omega
        rw [hexp] at hw'
        have hnat : fieldsNat (rawFields ((f, v) :: rest)) =
            (v - f.2) * 2 ^ fieldBits (rawFields rest) + fieldsNat (rawFields rest) := rfl
        rw [hnat, Nat.add_mul, mul_assoc, ← pow_add, ← hhigh, ← Nat.add_assoc]
        exact hw'
      · intro hmis
        refine hnot fun hrest => hmis ?_
        intro y hy
        rcases List.mem_cons.mp hy with rfl | hy
        · exact hfit
        · exact hrest y hy
    · rw [setIncFields, hmisfit (Bool.not_eq_true _ ▸ hfit)]
      exact ⟨fun hall => absurd (hall _ hhead) hfit, fun _ => rfl⟩

/-! ### What is read -/

/-- The reader has `r` bits before it, with the number `R`; the word that is missing below the first
one counts as read. -/
structure UnpackState.Reads (s : UnpackState) (r R : ℕ) : Prop where
  bits_pos : 1 ≤ s.bits
  bits_le : s.bits ≤ 64
  rest : r = 64 * s.left + s.bits
  num : ∃ x < 2 ^ s.bits, s.w.toNat = x * 2 ^ (64 - s.bits) ∧
    R = x * 2 ^ (64 * s.left) + wordsNat (wordBelow s.words) s.left

namespace UnpackState.Reads

variable {s : UnpackState} {r R : ℕ}

/-- The second part of `get_inc_field`: a field inside the current word. -/
theorem take (h : s.Reads r R) {m : ℕ} (hm : m < s.bits) :
    ((s.w >>> 1) >>> (63 - m)).toNat = R / 2 ^ (r - m) ∧
      UnpackState.Reads { s with bits := s.bits - m, w := s.w <<< m } (r - m) (R % 2 ^ (r - m)) := by
  obtain ⟨x, hx, hw, hR⟩ := h.num
  have hle := h.bits_le
  have hrest := h.rest
  have hlow := wordsNat_lt (wordBelow s.words) s.left
  have hexp : r - m = s.bits - m + 64 * s.left := by omega
  -- the field and what is left of the word
  have hsplit := Nat.div_add_mod x (2 ^ (s.bits - m))
  have hrem : x % 2 ^ (s.bits - m) < 2 ^ (s.bits - m) := Nat.mod_lt _ (Nat.two_pow_pos _)
  have hnum : R = x / 2 ^ (s.bits - m) * 2 ^ (r - m) +
      (x % 2 ^ (s.bits - m) * 2 ^ (64 * s.left) + wordsNat (wordBelow s.words) s.left) := by
    rw [hR, hexp, pow_add, ← mul_assoc, ← Nat.add_assoc, ← Nat.add_mul, mul_comm (x / _), hsplit]
  have hbelow : x % 2 ^ (s.bits - m) * 2 ^ (64 * s.left) +
      wordsNat (wordBelow s.words) s.left < 2 ^ (r - m) := by
    rw [hexp]
    exact mul_pow_add_lt hrem hlow
  constructor
  · rw [hnum, mul_pow_add_div hbelow, BitVec.toNat_ushiftRight, BitVec.toNat_ushiftRight,
      Nat.shiftRight_eq_div_pow, Nat.shiftRight_eq_div_pow, Nat.div_div_eq_div_mul, ← pow_add, hw]
    have h₁ : 64 - s.bits ≤ 1 + (63 - m) := by omega
    have h₂ : 1 + (63 - m) - (64 - s.bits) = s.bits - m := by omega
    rw [mul_pow_div_pow _ h₁, h₂]
  · refine ⟨?_, (Nat.sub_le _ _).trans hle, ?_, x % 2 ^ (s.bits - m), hrem, ?_, ?_⟩
    · dsimp only
      omega
    · dsimp only
      omega
    · dsimp only
      have h₁ : 64 - s.bits + m ≤ 64 := by omega
      have h₂ : 64 - (64 - s.bits + m) = s.bits - m := by omega
      have h₃ : 64 - (s.bits - m) = 64 - s.bits + m := by omega
      rw [BitVec.toNat_shiftLeft, hw, Nat.shiftLeft_eq, mul_assoc, ← pow_add,
        mul_pow_mod_pow _ h₁, h₂, h₃]
    · rw [hnum, mul_pow_add_mod hbelow]

/-- The first part of `get_inc_field`: the field takes the rest of the current word. -/
theorem refill (h : s.Reads r R) {m : ℕ} (hm : s.bits ≤ m) (hm64 : m ≤ 64) (hle : m + 64 ≤ r) :
    ∃ v s' r' R' x, refillField s m = some (v, m - s.bits, s') ∧ s'.Reads r' R' ∧ s'.bits = 64 ∧
      r' = r - s.bits ∧ R = x * 2 ^ r' + R' ∧ R' < 2 ^ r' ∧
      v.toNat = x * 2 ^ (m - s.bits) := by
  obtain ⟨x, hx, hw, hR⟩ := h.num
  have hpos := h.bits_pos
  have hrest := h.rest
  obtain ⟨left, hleft⟩ : ∃ left, s.left = left + 1 :=
    Nat.exists_eq_succ_of_ne_zero (by omega)
  have hnone : ¬(s.left - 1 = 0 ∧ m - s.bits ≠ 0) := by omega
  have hnum : wordsNat (wordBelow s.words) s.left =
      (wordBelow s.words left).toNat * 2 ^ (64 * left) +
        wordsNat (wordBelow s.words) left := by
    rw [hleft, wordsNat]
  have hexp : 64 * s.left = r - s.bits := by omega
  refine ⟨s.w >>> (64 - m), ⟨64, wordBelow s.words (s.left - 1), s.left - 1, s.words⟩, 64 * s.left,
    wordsNat (wordBelow s.words) s.left, x, ?_, ?_, rfl, hexp, hR, wordsNat_lt _ _, ?_⟩
  · rw [refillField, if_pos hm, if_neg hnone]
  · refine ⟨by simp, le_rfl, ?_, (wordBelow s.words left).toNat, (wordBelow s.words left).isLt,
      ?_, ?_⟩
    · dsimp only
      omega
    · simp [hleft]
    · simpa [hleft] using hnum
  · rw [BitVec.toNat_ushiftRight, Nat.shiftRight_eq_div_pow, hw]
    have h₁ : 64 - m ≤ 64 - s.bits := by omega
    have h₂ : 64 - s.bits - (64 - m) = m - s.bits := by omega
    rw [mul_pow_div_pow' _ h₁, h₂]

end UnpackState.Reads

/-- A field is read off the top of what is before the reader. -/
theorem getIncField_spec {s : UnpackState} {r R : ℕ} {f : ℕ × ℕ} (h : s.Reads r R)
    (hm : f.1 ≤ 64) (hle : f.1 + 64 ≤ r) :
    ∃ s', getIncField s f = some (BitVec.ofNat 64 (R / 2 ^ (r - f.1) + f.2), s') ∧
      s'.Reads (r - f.1) (R % 2 ^ (r - f.1)) := by
  obtain ⟨m, offset⟩ := f
  dsimp only at hm hle ⊢
  rw [getIncField]
  by_cases hrefill : s.bits ≤ m
  · obtain ⟨v, s', r', R', x, hs', hreads, hfull, hr', hR, hlt, hv⟩ := h.refill hrefill hm hle
    have hpos := h.bits_pos
    have hrest := h.rest
    obtain ⟨htake, hreads'⟩ := hreads.take (m := m - s.bits) (by omega)
    have hexp : r' - (m - s.bits) = r - m := by omega
    have hexp' : r' = m - s.bits + (r - m) := by omega
    rw [hexp] at htake hreads'
    -- the high part of the field comes from the word before
    have hsplit : R = x * 2 ^ (m - s.bits) * 2 ^ (r - m) + R' := by
      rw [mul_assoc, ← pow_add, ← hexp', hR]
    have hquot : R / 2 ^ (r - m) = x * 2 ^ (m - s.bits) + R' / 2 ^ (r - m) := by
      rw [hsplit, mul_comm _ (2 ^ (r - m)), Nat.mul_add_div (Nat.two_pow_pos _)]
    have hrem : R % 2 ^ (r - m) = R' % 2 ^ (r - m) := by
      rw [hsplit, mul_comm _ (2 ^ (r - m)), Nat.mul_add_mod]
    have hlow : R' / 2 ^ (r - m) < 2 ^ (m - s.bits) := by
      rw [Nat.div_lt_iff_lt_mul (Nat.two_pow_pos _), ← pow_add, ← hexp']
      exact hlt
    rw [hs', hrem]
    refine ⟨_, ?_, hreads'⟩
    dsimp only
    congr 2
    rw [BitVec.ofNat_add]
    congr 1
    refine BitVec.eq_of_toNat_eq ?_
    have hsum : (v ||| (s'.w >>> 1) >>> (63 - (m - s.bits))).toNat = R / 2 ^ (r - m) := by
      rw [BitVec.toNat_or, hv, htake, or_eq_add hlow, hquot]
    rw [BitVec.toNat_ofNat, ← hsum, Nat.mod_eq_of_lt (BitVec.isLt _)]
  · obtain ⟨htake, hreads'⟩ := h.take (Nat.lt_of_not_le hrefill)
    rw [refillField, if_neg hrefill]
    refine ⟨_, ?_, hreads'⟩
    dsimp only
    congr 2
    rw [BitVec.ofNat_add]
    congr 1
    refine BitVec.eq_of_toNat_eq ?_
    rw [BitVec.ofNat_eq_ofNat, BitVec.zero_or, BitVec.toNat_ofNat, ← htake, Nat.mod_eq_of_lt (BitVec.isLt _)]

/-- Fields that stand one below the other are read in this order. -/
theorem getIncFields_spec {s : UnpackState} {r t junk : ℕ} {l : List ((ℕ × ℕ) × ℕ)}
    (h : s.Reads r (fieldsNat (l.map fun x => (x.1.1, x.2)) * 2 ^ t + junk))
    (hr : r = fieldBits (l.map fun x => (x.1.1, x.2)) + t) (ht : 64 ≤ t) (hjunk : junk < 2 ^ t)
    (hbits : ∀ x ∈ l, x.1.1 ≤ 64) (hfit : ∀ x ∈ l, x.2 < 2 ^ x.1.1) :
    getIncFields s (l.map Prod.fst) = some (l.map fun x => (x.2 + x.1.2) % 2 ^ 64) := by
  induction l generalizing s r with
  | nil => rfl
  | cons x rest ih =>
    obtain ⟨f, v⟩ := x
    have hhead : (f, v) ∈ (f, v) :: rest := List.mem_cons_self ..
    set low := fieldsNat (rest.map fun x => (x.1.1, x.2)) * 2 ^ t + junk with hlow
    have hlt : low < 2 ^ (fieldBits (rest.map fun x => (x.1.1, x.2)) + t) := by
      refine mul_pow_add_lt (fieldsNat_lt ?_) hjunk
      intro g hg
      obtain ⟨y, hy, rfl⟩ := List.mem_map.mp hg
      exact hfit y (List.mem_cons_of_mem _ hy)
    rw [List.map_cons, fieldBits_cons] at hr
    have hexp : r - f.1 = fieldBits (rest.map fun x => (x.1.1, x.2)) + t := by
      simp only at hr
      omega
    have hnum : fieldsNat (((f, v) :: rest).map fun x => (x.1.1, x.2)) * 2 ^ t + junk =
        v * 2 ^ (r - f.1) + low := by
      rw [List.map_cons, fieldsNat, Nat.add_mul, mul_assoc, ← pow_add, ← hexp, Nat.add_assoc]
    rw [hnum] at h
    rw [← hexp] at hlt
    have hle : f.1 + 64 ≤ r := by
      simp only at hr
      omega
    obtain ⟨s', hs', hreads⟩ := getIncField_spec h (hbits _ hhead) hle
    rw [mul_pow_add_div hlt] at hs'
    rw [mul_pow_add_mod hlt] at hreads
    rw [List.map_cons, getIncFields, hs']
    dsimp only
    rw [ih hreads hexp (fun y hy => hbits y (List.mem_cons_of_mem _ hy))
      (fun y hy => hfit y (List.mem_cons_of_mem _ hy))]
    rw [BitVec.toNat_ofNat]
    rfl

/-! ### Accepted formats -/

theorem bitsMask_eq (bits : ℕ) : bitsMask bits = 2 ^ bits - 1 := by
  rw [bitsMask]
  split_ifs with h
  · rw [h]
  · rfl

/-- A field that does not overflow has room for every value of its bits. -/
theorem add_pow_le_of_not_overflow {bits offset unpacked : ℕ} (hbits : bits ≤ unpacked)
    (hunpacked : unpacked ≤ 64) (hfull : bits = unpacked → offset = 0)
    (h : offset ≤ (offset + (2 ^ bits - 1)) % 2 ^ 64 % 2 ^ unpacked) :
    offset + 2 ^ bits ≤ 2 ^ unpacked := by
  have hpos := Nat.two_pow_pos bits
  rcases hbits.eq_or_lt with heq | hlt
  · rw [hfull heq, heq]
    omega
  · have hpow : 2 ^ bits < 2 ^ unpacked := Nat.pow_lt_pow_right Nat.one_lt_two hlt
    rw [Nat.mod_mod_of_dvd _ (Nat.pow_dvd_pow 2 hunpacked)] at h
    by_contra hover
    have hmod := Nat.mod_lt (offset + (2 ^ bits - 1)) (Nat.two_pow_pos unpacked)
    have hwrap : (offset + (2 ^ bits - 1)) % 2 ^ unpacked =
        offset + (2 ^ bits - 1) - 2 ^ unpacked := by
      rw [Nat.mod_eq_sub_mod (by omega), Nat.mod_eq_of_lt (by omega)]
    omega

namespace PackFormat

variable (f : PackFormat)

/-- The bits of the fields of an unpacked key. -/
def unpackedBits (i : ℕ) : ℕ := (bkeyFormatCurrent.fields.getD i (0, 0)).1

theorem unpackedBits_le (i : ℕ) : unpackedBits i ≤ 64 := by
  match i with
  | 0 | 1 | 2 | 3 | 4 | 5 => decide
  | i + 6 => exact Nat.zero_le _

theorem field_le {i : ℕ} (hi : i < 6) :
    (f.fields.getD i (0, 0)).1 ≤ unpackedBits i ∧
      (f.fields.getD i (0, 0)).2 + 2 ^ (f.fields.getD i (0, 0)).1 ≤ 2 ^ unpackedBits i := by
  have hov := f.overflows i hi
  have hle64 := unpackedBits_le i
  rw [unpackedBits] at hle64 ⊢
  simp only [bch2BkeyFormatFieldOverflows] at hov
  split_ifs at hov with hwide hfull
  have hle := Nat.not_lt.mp hwide
  refine ⟨hle, add_pow_le_of_not_overflow hle hle64 ?_ ?_⟩
  · intro heq
    by_contra hne
    exact hfull ⟨heq, hne⟩
  · have hge := Nat.not_lt.mp (of_decide_eq_false hov)
    rwa [bitsMask_eq, bitsMask_eq, Nat.and_two_pow_sub_one_eq_mod] at hge

theorem bits_le {g : ℕ × ℕ} (hg : g ∈ f.fields) : g.1 ≤ 64 := by
  obtain ⟨i, hi, rfl⟩ := List.mem_iff_getElem.mp hg
  have hle := (f.field_le (f.nrFields ▸ hi)).1
  rw [List.getD_eq_getElem _ _ hi] at hle
  exact hle.trans (unpackedBits_le i)

end PackFormat

/-! ### The header -/

namespace KeyWords

variable (words : KeyWords)

theorem field_setByte_self {off : ℕ} (hoff : off + 8 ≤ 64) (v : UInt8) :
    field off 8 (words.setByte off v 0).toNat = v.toNat := by
  rw [setByte, Function.update_self]
  exact field_setField_self hoff v.toNat_lt

theorem field_setByte_of_disjoint {off off' len' : ℕ} (hdis : FieldsDisjoint off 8 off' len')
    (hfit : off' + len' ≤ 64) (v : UInt8) :
    field off' len' (words.setByte off v 0).toNat = field off' len' (words 0).toNat := by
  rw [setByte, Function.update_self]
  exact field_setField_of_disjoint hdis hfit v.toNat_lt

/-- A byte of the header is below all fields. -/
theorem wordsNat_setByte {off n t : ℕ} (hoff : off + 8 ≤ 24) (hn : 1 ≤ n) (ht : 24 ≤ t)
    (v : UInt8) : wordsNat (words.setByte off v) n / 2 ^ t = wordsNat words n / 2 ^ t := by
  have hhigh : (words.setByte off v 0).toNat / 2 ^ 24 = (words 0).toNat / 2 ^ 24 := by
    have hfield : field 24 40 (words.setByte off v 0).toNat = field 24 40 (words 0).toNat :=
      field_setByte_of_disjoint words (.inr hoff) le_rfl v
    have hlt : ∀ w : BitVec 64, w.toNat / 2 ^ 24 < 2 ^ 40 := by
      intro w
      have := w.isLt
      omega
    rw [field, field, Nat.mod_eq_of_lt (hlt _), Nat.mod_eq_of_lt (hlt _)] at hfield
    exact hfield
  have hsame : ∀ i, words.setByte off v (1 + i) = words (1 + i) := by
    intro i
    exact Function.update_of_ne (by omega) ..
  have hsplit : ∀ ws : KeyWords, wordsNat ws n / 2 ^ 24 =
      wordsNat (fun i => ws (1 + i)) (n - 1) * 2 ^ 40 + (ws 0).toNat / 2 ^ 24 := by
    intro ws
    rw [wordsNat_split ws hn]
    simp only [wordsNat]
    omega
  obtain ⟨d, rfl⟩ := Nat.exists_eq_add_of_le ht
  rw [pow_add, ← Nat.div_div_eq_div_mul, ← Nat.div_div_eq_div_mul, hsplit, hsplit, hhigh]
  simp only [hsame]

end KeyWords

/-! ### Packing and unpacking -/

theorem wordsNat_wordBelow (words : KeyWords) (n : ℕ) :
    wordsNat (wordBelow words) (n + 1) = wordsNat words n * 2 ^ 64 := by
  rw [wordsNat_split (wordBelow words) (Nat.le_add_left 1 n), Nat.add_sub_cancel]
  have hsame : (fun i => wordBelow words (1 + i)) = words := by
    funext i
    rw [Nat.add_comm]
    rfl
  rw [hsame]
  simp [wordsNat, wordBelow]

theorem reads_init (f : PackFormat) (words : KeyWords) :
    ∃ s, unpackStateInit f.toBkeyFormat words = some s ∧
      s.Reads (64 * f.keyU64s + 64) (wordsNat words f.keyU64s * 2 ^ 64) := by
  have hpos := f.keyU64s_pos
  rw [unpackStateInit, if_pos ⟨by omega, f.keyU64s_le⟩]
  refine ⟨_, rfl, by simp, le_rfl, rfl, (wordBelow words f.keyU64s).toNat,
    (wordBelow words f.keyU64s).isLt, by simp, ?_⟩
  rw [← wordsNat_wordBelow, wordsNat]

theorem wrote_init (f : PackFormat) (out : KeyWords) :
    ∃ s, packStateInit f.toBkeyFormat (fun i => if i < f.keyU64s then 0 else out i) = some s ∧
      s.Wrote f.keyU64s (64 * f.keyU64s) 0 := by
  have hpos := f.keyU64s_pos
  rw [packStateInit, if_pos ⟨by omega, f.keyU64s_le⟩]
  refine ⟨_, rfl, ?_, le_rfl, ?_, ⟨0, by simp⟩, ?_, ?_⟩
  · dsimp only
    omega
  · dsimp only
    omega
  · intro i hi
    dsimp only at hi ⊢
    rw [if_pos (by omega)]
  · refine wordsNat_zero fun i hi => ?_
    dsimp only
    rw [Function.update_apply]
    split_ifs with h
    · rfl
    · rfl

/-- The first fields are read from the top of the words. -/
theorem getIncFields_of_top (f : PackFormat) {words : KeyWords} {l : List ((ℕ × ℕ) × ℕ)}
    (hbits : ∀ x ∈ l, x.1.1 ≤ 64) (hfit : ∀ x ∈ l, x.2 < 2 ^ x.1.1)
    (hle : fieldBits (l.map fun x => (x.1.1, x.2)) ≤ 64 * f.keyU64s)
    (htop : wordsNat words f.keyU64s /
      2 ^ (64 * f.keyU64s - fieldBits (l.map fun x => (x.1.1, x.2))) =
        fieldsNat (l.map fun x => (x.1.1, x.2))) :
    (unpackStateInit f.toBkeyFormat words).bind (getIncFields · (l.map Prod.fst)) =
      some (l.map fun x => (x.2 + x.1.2) % 2 ^ 64) := by
  obtain ⟨s, hs, hreads⟩ := reads_init f words
  rw [hs, Option.bind_some]
  set t := 64 * f.keyU64s - fieldBits (l.map fun x => (x.1.1, x.2)) with ht
  have hrem := Nat.mod_lt (wordsNat words f.keyU64s) (Nat.two_pow_pos t)
  have hnum : wordsNat words f.keyU64s * 2 ^ 64 =
      fieldsNat (l.map fun x => (x.1.1, x.2)) * 2 ^ (t + 64) +
        wordsNat words f.keyU64s % 2 ^ t * 2 ^ 64 := by
    rw [pow_add, ← mul_assoc, ← Nat.add_mul, ← htop, Nat.div_add_mod']
  rw [hnum] at hreads
  refine getIncFields_spec hreads (by omega) (by omega) ?_ hbits hfit
  rw [pow_add]
  exact Nat.mul_lt_mul_of_pos_right hrem (Nat.two_pow_pos 64)

/-- The fields of a key with what stands for them in its words. -/
def packedFields (f : BkeyFormat) (vs : List ℕ) : List ((ℕ × ℕ) × ℕ) :=
  (f.fields.zip vs).map fun x => (x.1, x.2 - x.1.2)

theorem packedFields_map (f : BkeyFormat) (vs : List ℕ) :
    (packedFields f vs).map (fun x => (x.1.1, x.2)) = rawFields (f.fields.zip vs) := by
  rw [packedFields, List.map_map]
  rfl

section Unpack

variable (f : PackFormat) {vs : List ℕ} (hlen : vs.length = 6) (hvs : ∀ v ∈ vs, v < 2 ^ 64)
  (hfit : ∀ x ∈ f.fields.zip vs, fieldFits x.1 x.2 = true)

include hfit in
theorem packedFields_fit {x : (ℕ × ℕ) × ℕ} (hx : x ∈ packedFields f.toBkeyFormat vs) :
    x.1.1 ≤ 64 ∧ x.2 < 2 ^ x.1.1 := by
  obtain ⟨y, hy, rfl⟩ := List.mem_map.mp hx
  exact ⟨f.bits_le (List.of_mem_zip hy).1, (of_decide_eq_true (hfit y hy)).2⟩

include hlen in
theorem fieldBits_packedFields :
    fieldBits ((packedFields f.toBkeyFormat vs).map fun x => (x.1.1, x.2)) =
      fieldBits f.fields := by
  have hmap : ((packedFields f.toBkeyFormat vs).map fun x => (x.1.1, x.2)).map Prod.fst =
      f.fields.map Prod.fst := by
    rw [packedFields, List.map_map, List.map_map]
    have hzip : (f.fields.zip vs).map Prod.fst = f.fields :=
      List.map_fst_zip (by rw [f.nrFields, hlen])
    conv_rhs => rw [← hzip]
    rw [List.map_map]
    rfl
  rw [fieldBits, fieldBits, hmap]

include hlen hvs hfit in
/-- The first fields of a packed key are read back. -/
theorem getIncFields_packed {words : KeyWords} (j : ℕ)
    (htop : wordsNat words f.keyU64s / 2 ^ (64 * f.keyU64s - fieldBits f.fields) =
      fieldsNat (rawFields (f.fields.zip vs))) :
    (unpackStateInit f.toBkeyFormat words).bind (getIncFields · (f.fields.take j)) =
      some (vs.take j) := by
  set l := packedFields f.toBkeyFormat vs with hl
  have hroom := f.room
  -- the fields that are read, and those behind them
  have hsplit : (l.take j).map (fun x => (x.1.1, x.2)) ++ (l.drop j).map (fun x => (x.1.1, x.2)) =
      rawFields (f.fields.zip vs) := by
    rw [← List.map_append, List.take_append_drop, hl, packedFields_map]
  have hbits := fieldBits_packedFields f hlen
  rw [packedFields_map, ← hsplit, fieldBits_append] at hbits
  have htail : fieldsNat ((l.drop j).map fun x => (x.1.1, x.2)) <
      2 ^ fieldBits ((l.drop j).map fun x => (x.1.1, x.2)) := by
    refine fieldsNat_lt fun g hg => ?_
    obtain ⟨y, hy, rfl⟩ := List.mem_map.mp hg
    exact (packedFields_fit f hfit (List.mem_of_mem_drop hy)).2
  have hprefix : wordsNat words f.keyU64s /
      2 ^ (64 * f.keyU64s - fieldBits ((l.take j).map fun x => (x.1.1, x.2))) =
        fieldsNat ((l.take j).map fun x => (x.1.1, x.2)) := by
    have hexp : 64 * f.keyU64s - fieldBits ((l.take j).map fun x => (x.1.1, x.2)) =
        64 * f.keyU64s - fieldBits f.fields +
          fieldBits ((l.drop j).map fun x => (x.1.1, x.2)) := by
      rw [keyPackedBitsStart] at hroom
      omega
    rw [hexp, pow_add, ← Nat.div_div_eq_div_mul, htop, ← hsplit, fieldsNat_append,
      mul_pow_add_div htail]
  have hle : fieldBits ((l.take j).map fun x => (x.1.1, x.2)) ≤ 64 * f.keyU64s := by
    omega
  have hread := getIncFields_of_top f
    (fun x hx => (packedFields_fit f hfit (List.mem_of_mem_take hx)).1)
    (fun x hx => (packedFields_fit f hfit (List.mem_of_mem_take hx)).2) hle hprefix
  have hfst : (l.take j).map Prod.fst = f.fields.take j := by
    rw [List.map_take, hl, packedFields, List.map_map]
    congr 1
    exact List.map_fst_zip (by rw [f.nrFields, hlen])
  have hsnd : (l.take j).map (fun x => (x.2 + x.1.2) % 2 ^ 64) = vs.take j := by
    have hsum : l.map (fun x => (x.2 + x.1.2) % 2 ^ 64) = vs := by
      rw [hl, packedFields, List.map_map]
      have hzip : (f.fields.zip vs).map Prod.snd = vs :=
        List.map_snd_zip (by rw [f.nrFields, hlen])
      conv_rhs => rw [← hzip]
      refine List.map_congr_left fun x hx => ?_
      have hle := (of_decide_eq_true (hfit x hx)).1
      have hv := hvs x.2 (List.of_mem_zip hx).2
      simp only [Function.comp_apply]
      rw [Nat.sub_add_cancel hle, Nat.mod_eq_of_lt hv]
    rw [List.map_take, hsum]
  rwa [hfst, hsnd] at hread

end Unpack

theorem BkeyHead.fieldValues_lt (k : BkeyHead) {v : ℕ} (hv : v ∈ k.fieldValues) : v < 2 ^ 64 := by
  have h32 : (2 : ℕ) ^ 32 ≤ 2 ^ 64 := Nat.pow_le_pow_right Nat.two_pos (by decide)
  simp only [fieldValues, List.mem_cons, List.not_mem_nil, or_false] at hv
  rcases hv with rfl | rfl | rfl | rfl | rfl | rfl
  · exact k.p.inode.isLt
  · exact k.p.offset.isLt
  · exact k.p.snapshot.isLt.trans_le h32
  · exact k.size.isLt.trans_le h32
  · exact k.versionHi.isLt.trans_le h32
  · exact k.versionLo.isLt

/-- The format byte of a packed key has no format, that of an unpacked key the current one; the
highest bit goes along. -/
theorem format_byte (b : UInt8) : b &&& 0x80 &&& 0x7f = keyFormatLocalBtree ∧
    (b &&& 0x7f = keyFormatCurrent → keyFormatCurrent ||| (b &&& 0x80 &&& 0x80) = b) := by
  have hall : ∀ i : Fin 256, UInt8.ofNat i &&& 0x80 &&& 0x7f = keyFormatLocalBtree ∧
      (UInt8.ofNat i &&& 0x7f = keyFormatCurrent →
        keyFormatCurrent ||| (UInt8.ofNat i &&& 0x80 &&& 0x80) = UInt8.ofNat i) := by
    decide +kernel
  have hb := hall ⟨b.toNat, b.toNat_lt⟩
  simpa using hb

/-- The key as it is packed, in the words it is packed into. -/
structure PackedAs (f : PackFormat) (k : BkeyHead) (words : KeyWords) : Prop where
  u64s : words.u64s.toNat = f.keyU64s + k.u64s.toNat - bkeyU64s
  format : words.format = k.format &&& 0x80
  type : words.type = k.type
  fields : wordsNat words f.keyU64s / 2 ^ (64 * f.keyU64s - fieldBits f.fields) =
    fieldsNat (rawFields (f.fields.zip k.fieldValues))

section PackKey

variable (f : PackFormat) (k : BkeyHead) (out : KeyWords)

/-- The header is written below the fields. -/
theorem packedAs_setBytes {words : KeyWords} (hu64s : f.keyU64s + k.u64s.toNat - bkeyU64s ≤ 255)
    (hnum : wordsNat words f.keyU64s = fieldsNat (rawFields (f.fields.zip k.fieldValues)) *
      2 ^ (64 * f.keyU64s - fieldBits f.fields)) :
    PackedAs f k (((words.setByte 0 (UInt8.ofNat (f.keyU64s + k.u64s.toNat - bkeyU64s))).setByte 8
      (k.format &&& 0x80)).setByte 16 k.type) := by
  have hroom := f.room
  have hpos := f.keyU64s_pos
  rw [keyPackedBitsStart] at hroom
  refine ⟨?_, ?_, ?_, ?_⟩
  · rw [KeyWords.u64s, KeyWords.field_setByte_of_disjoint _ (.inl (by decide)) (by decide),
      KeyWords.field_setByte_of_disjoint _ (.inl (by decide)) (by decide),
      KeyWords.field_setByte_self _ (by decide), UInt8.ofNat_toNat, UInt8.toNat_ofNat']
    exact Nat.mod_eq_of_lt (Nat.lt_succ_of_le hu64s)
  · rw [KeyWords.format, KeyWords.field_setByte_of_disjoint _ (.inl (by decide)) (by decide),
      KeyWords.field_setByte_self _ (by decide), UInt8.ofNat_toNat]
  · rw [KeyWords.type, KeyWords.field_setByte_self _ (by decide), UInt8.ofNat_toNat]
  · have ht : 24 ≤ 64 * f.keyU64s - fieldBits f.fields := by omega
    rw [KeyWords.wordsNat_setByte _ (by decide) hpos ht,
      KeyWords.wordsNat_setByte _ (by decide) hpos ht,
      KeyWords.wordsNat_setByte _ (by decide) hpos ht, hnum,
      Nat.mul_div_cancel _ (Nat.two_pow_pos _)]

/-- A key is packed when all of its fields fit, and refused otherwise. -/
theorem bch2BkeyPackKey_cases (hformat : k.format &&& 0x7f = keyFormatCurrent)
    (hu64s : f.keyU64s + k.u64s.toNat - bkeyU64s ≤ 255) :
    ((∀ x ∈ f.fields.zip k.fieldValues, fieldFits x.1 x.2 = true) ∧
      ∃ words, KeyWords.bch2BkeyPackKey out k f.toBkeyFormat = .ok words ∧ PackedAs f k words) ∨
    ¬(∀ x ∈ f.fields.zip k.fieldValues, fieldFits x.1 x.2 = true) ∧
      KeyWords.bch2BkeyPackKey out k f.toBkeyFormat = .misfit := by
  have hguard : ¬(f.fields.length ≠ 6 ∨ k.format &&& 0x7f ≠ keyFormatCurrent) := by
    simp [f.nrFields, hformat]
  obtain ⟨s, hs, hwrote⟩ := wrote_init f out
  have hsum : fieldBits (rawFields (f.fields.zip k.fieldValues)) = fieldBits f.fields := by
    rw [← packedFields_map]
    exact fieldBits_packedFields f rfl
  have hroom := f.room
  obtain ⟨hfits, hmisfit⟩ := setIncFields_spec hwrote
    (l := f.fields.zip k.fieldValues) (by rw [hsum]; omega)
    (fun x hx => f.bits_le (List.of_mem_zip hx).1)
    (fun x hx => k.fieldValues_lt (List.of_mem_zip hx).2)
  rw [KeyWords.bch2BkeyPackKey, if_neg hguard, hs]
  dsimp only
  by_cases hfit : ∀ x ∈ f.fields.zip k.fieldValues, fieldFits x.1 x.2 = true
  · obtain ⟨s', hs', hw⟩ := hfits hfit
    rw [hsum, Nat.zero_add] at hw
    refine .inl ⟨hfit, ?_⟩
    rw [hs']
    dsimp only
    rw [packStateFinish, if_pos hw.p_lt]
    dsimp only
    rw [if_pos hu64s]
    exact ⟨_, rfl, packedAs_setBytes f k hu64s hw.num⟩
  · exact .inr ⟨hfit, by rw [hmisfit hfit]⟩

variable {f k}

theorem PackedAs.unpack {words : KeyWords} (h : PackedAs f k words)
    (hfit : ∀ x ∈ f.fields.zip k.fieldValues, fieldFits x.1 x.2 = true)
    (hformat : k.format &&& 0x7f = keyFormatCurrent) (hu64s : 5 ≤ k.u64s.toNat) :
    KeyWords.bch2BkeyUnpackKey f.toBkeyFormat words = some { k with pad := 0 } := by
  have hbyte := format_byte k.format
  have hk := k.u64s.toNat_lt
  have hout : words.u64s.toNat - f.keyU64s + bkeyU64s = k.u64s.toNat := by
    rw [h.u64s, bkeyU64s]
    omega
  have hguard : f.fields.length = 6 ∧ f.keyU64s ≤ words.u64s.toNat ∧
      words.format &&& 0x7f = keyFormatLocalBtree ∧
      words.u64s.toNat - f.keyU64s + bkeyU64s ≤ 255 := by
    refine ⟨f.nrFields, ?_, ?_, ?_⟩
    · rw [h.u64s, bkeyU64s]
      omega
    · rw [h.format]
      exact hbyte.1
    · omega
  have hread := getIncFields_packed f rfl (fun v hv => k.fieldValues_lt hv) hfit 6 h.fields
  rw [← f.nrFields, List.take_length, f.nrFields] at hread
  rw [KeyWords.bch2BkeyUnpackKey]
  simp only [if_pos hguard, hread]
  simp only [BkeyHead.fieldValues, List.take, hout, UInt8.ofNat_toNat, h.format, h.type,
    hbyte.2 hformat, Fin.ofNat_val_eq_self]

theorem PackedAs.unpackPos {words : KeyWords} (h : PackedAs f k words)
    (hfit : ∀ x ∈ f.fields.zip k.fieldValues, fieldFits x.1 x.2 = true)
    (hu64s : 5 ≤ k.u64s.toNat) :
    KeyWords.bkeyUnpackPos f.toBkeyFormat words = some k.p := by
  have hguard : f.fields.length = 6 ∧ f.keyU64s ≤ words.u64s.toNat ∧
      words.format &&& 0x7f = keyFormatLocalBtree := by
    refine ⟨f.nrFields, ?_, ?_⟩
    · rw [h.u64s, bkeyU64s]
      omega
    · rw [h.format]
      exact (format_byte k.format).1
  have hread := getIncFields_packed f rfl (fun v hv => k.fieldValues_lt hv) hfit 3 h.fields
  rw [KeyWords.bkeyUnpackPos, if_pos hguard, hread]
  simp [BkeyHead.fieldValues]

end PackKey

/-- A key is packed exactly when each of its fields is not below the offset of its format and fits
into its bits, and then it is read back from the words. -/
theorem pack_unpack (f : PackFormat) (k : BkeyHead) (out : KeyWords)
    (hformat : k.format &&& 0x7f = keyFormatCurrent) (hu64s : 5 ≤ k.u64s.toNat)
    (hlen : f.keyU64s + k.u64s.toNat - 5 ≤ 255) :
    KeyWords.bch2BkeyPackKey out k f.toBkeyFormat ≠ .panic ∧
    ((∃ words, KeyWords.bch2BkeyPackKey out k f.toBkeyFormat = .ok words) ↔
      ∀ x ∈ f.fields.zip k.fieldValues, x.1.2 ≤ x.2 ∧ x.2 - x.1.2 < 2 ^ x.1.1) ∧
    ∀ words, KeyWords.bch2BkeyPackKey out k f.toBkeyFormat = .ok words →
      KeyWords.bch2BkeyUnpackKey f.toBkeyFormat words = some { k with pad := 0 } ∧
      KeyWords.bkeyUnpackPos f.toBkeyFormat words = some k.p ∧ PackedAs f k words := by
  have hfits : (∀ x ∈ f.fields.zip k.fieldValues, x.1.2 ≤ x.2 ∧ x.2 - x.1.2 < 2 ^ x.1.1) ↔
      ∀ x ∈ f.fields.zip k.fieldValues, fieldFits x.1 x.2 = true := by
    simp [fieldFits]
  rw [hfits]
  rcases bch2BkeyPackKey_cases f k out hformat hlen with ⟨hfit, words, hok, has⟩ | ⟨hmis, hno⟩
  · rw [hok]
    refine ⟨by simp, iff_of_true ⟨words, rfl⟩ hfit, ?_⟩
    intro words' heq
    obtain rfl := PackRes.ok.inj heq
    exact ⟨has.unpack hfit hformat hu64s, has.unpackPos hfit hu64s, has⟩
  · rw [hno]
    exact ⟨by simp, iff_of_false (by simp) hmis, by simp⟩

/-- A format with fields that go over the end of a word. -/
def narrowFormat : PackFormat where
  keyU64s := 2
  fields := [(8, 100), (9, 200), (4, 3), (5, 0), (6, 0), (16, 1000)]
  nrFields := rfl
  keyU64s_pos := by decide
  keyU64s_le := by decide
  overflows := by decide
  room := by decide

def narrowKey : BkeyHead where
  u64s := 5
  format := 0x81
  type := 7
  versionHi := 17
  versionLo := 12345
  size := 23
  p := ⟨123, 456, 9⟩

theorem pack_unpack_narrowKey :
    ∃ words, KeyWords.bch2BkeyPackKey (fun _ => 0) narrowKey narrowFormat.toBkeyFormat =
      .ok words ∧
      KeyWords.bch2BkeyUnpackKey narrowFormat.toBkeyFormat words = some narrowKey := by
  obtain ⟨-, hpacks, hback⟩ := pack_unpack narrowFormat narrowKey (fun _ => 0) (by decide)
    (by decide) (by decide)
  obtain ⟨words, hwords⟩ := hpacks.mpr (by decide)
  exact ⟨words, hwords, (hback words hwords).1⟩

end Subvol

import Subvol.Btree.Pack

/-!
# Comparing stored keys

Two packed keys are compared word by word from the highest bit down, over the bits of the inode,
the offset and the snapshot and without unpacking them. Where one of the keys is unpacked, the
positions are compared.

## Main definitions

* `bkeyCmpBits`, `bch2BkeyCmpPacked`.
* `StoredIn`: a key that is packed in a format, or unpacked.
* `HasPos`: a packed key with a position in its highest bits.

## Main results

* `bkeyCmpBits_eq`: the words are compared as numbers.
* `cmpNat_posBits`: positions are packed to numbers in the same order.
* `bch2BkeyCmpPacked_eq`: every comparison is that of the positions.
-/

namespace Subvol

open Lib

/-! ### The comparison -/

/-- `bkey_packed`. -/
def KeyWords.packed (words : KeyWords) : Bool := words.format &&& 0x7f != keyFormatCurrent

/-- The position in an unpacked key. -/
def KeyWords.pos (words : KeyWords) : Bpos where
  inode := (words 4).toFin
  offset := (words 3).toFin
  snapshot := Fin.ofNat (2 ^ 32) (field 32 32 (words 2).toNat)

/-- `bkey_unpack_pos`. -/
def KeyWords.unpackPos (f : BkeyFormat) (words : KeyWords) : Option Bpos :=
  if words.packed then KeyWords.bkeyUnpackPos f words else some words.pos

/-- `bkey_format_key_bits`. -/
def bkeyFormatKeyBits (f : BkeyFormat) : ℕ := ((f.fields.take 3).map Prod.fst).sum

/-- `__bkey_cmp_bits`, from the word with index `p - 1` down. -/
def bkeyCmpBits (l r : KeyWords) : ℕ → ℕ → ℤ
  | 0, _ => 0
  | p + 1, nrKeyBits =>
    if nrKeyBits ≥ 64 then
      if l p ≠ r p then (if (l p).toNat > (r p).toNat then 1 else -1)
      else bkeyCmpBits l r p (nrKeyBits - 64)
    else if nrKeyBits = 0 then 0
    else
      let lV := (l p >>> (64 - nrKeyBits)).toNat
      let rV := (r p >>> (64 - nrKeyBits)).toNat
      if lV > rV then 1 else if lV < rV then -1 else 0

/-- `bch2_bkey_cmp_packed`. -/
def bch2BkeyCmpPacked (f : BkeyFormat) (nrKeyBits : ℕ) (l r : KeyWords) : Option ℤ :=
  if l.packed ∧ r.packed then
    if nrKeyBits = bkeyFormatKeyBits f then some (bkeyCmpBits l r f.keyU64s nrKeyBits) else none
  else if l.packed then
    (KeyWords.bch2BkeyUnpackKey f l).map fun unpacked => bposCmp unpacked.p r.pos
  else if r.packed then
    (KeyWords.bch2BkeyUnpackKey f r).map fun unpacked => bposCmp l.pos unpacked.p
  else some (bposCmp l.pos r.pos)

/-- The words from an offset on. -/
def wordsAt (words : List (BitVec 64)) (o : ℕ) : KeyWords := fun i => words.getD (o + i) 0

/-- `bkey_p_next`. -/
def bkeyPNext (words : List (BitVec 64)) (key : ℕ) : ℕ := key + (wordsAt words key).u64s.toNat

/-- A key that is packed in a format, as a whole no longer than an unpacked key can be, or
unpacked. -/
inductive StoredIn (f : BkeyFormat) (words : KeyWords) : Prop
  | packed (hformat : words.format &&& 0x7f = keyFormatLocalBtree)
      (hle : f.keyU64s ≤ words.u64s.toNat)
      (hlen : words.u64s.toNat - f.keyU64s + bkeyU64s ≤ 255)
  | unpacked (hformat : words.format &&& 0x7f = keyFormatCurrent)

/-! ### Words as numbers -/

section Words

variable (w : KeyWords) {p e d : ℕ}

/-- What is cut off below the highest word. -/
theorem wordsNat_div_low (he : e ≤ 64 * p) :
    wordsNat w (p + 1) / 2 ^ e = (w p).toNat * 2 ^ (64 * p - e) + wordsNat w p / 2 ^ e := by
  have hexp : 64 * p = e + (64 * p - e) := by omega
  rw [wordsNat]
  conv_lhs => rw [hexp, pow_add, mul_comm (2 ^ e), ← mul_assoc, mul_comm _ (2 ^ e)]
  rw [Nat.mul_add_div (Nat.two_pow_pos e)]

theorem wordsNat_div_lt (he : e ≤ 64 * p) : wordsNat w p / 2 ^ e < 2 ^ (64 * p - e) := by
  rw [Nat.div_lt_iff_lt_mul (Nat.two_pow_pos e), ← pow_add, Nat.sub_add_cancel he]
  exact wordsNat_lt w p

/-- What is cut off inside the highest word. -/
theorem wordsNat_div_high : wordsNat w (p + 1) / 2 ^ (64 * p + d) = (w p).toNat / 2 ^ d := by
  rw [wordsNat, pow_add, ← Nat.div_div_eq_div_mul, mul_pow_add_div (wordsNat_lt w p)]

end Words

/-- The words are compared as the numbers in their highest bits. -/
theorem bkeyCmpBits_eq (l r : KeyWords) {p nr : ℕ} (h : nr ≤ 64 * p) :
    bkeyCmpBits l r p nr =
      cmpNat (wordsNat l p / 2 ^ (64 * p - nr)) (wordsNat r p / 2 ^ (64 * p - nr)) := by
  induction p generalizing nr with
  | zero => simp [bkeyCmpBits, wordsNat]
  | succ p ih =>
    rw [bkeyCmpBits]
    by_cases hfull : nr ≥ 64
    · have hle : nr - 64 ≤ 64 * p := by omega
      have hexp : 64 * (p + 1) - nr = 64 * p - (nr - 64) := by omega
      have he : 64 * p - (nr - 64) ≤ 64 * p := Nat.sub_le _ _
      rw [if_pos hfull, hexp, wordsNat_div_low l he, wordsNat_div_low r he,
        cmpNat_mul_add (wordsNat_div_lt l he) (wordsNat_div_lt r he), ← ih hle]
      by_cases heq : l p = r p
      · simp [heq]
      · have hne : (l p).toNat ≠ (r p).toNat := fun hnat => heq (BitVec.eq_of_toNat_eq hnat)
        rw [if_pos heq, if_neg hne, cmpNat]
        split_ifs <;> omega
    · have hexp : 64 * (p + 1) - nr = 64 * p + (64 - nr) := by omega
      rw [if_neg hfull, hexp, wordsNat_div_high, wordsNat_div_high]
      by_cases hzero : nr = 0
      · have hcut : ∀ w : BitVec 64, w.toNat / 2 ^ (64 - nr) = 0 := by
          intro w
          rw [hzero]
          exact Nat.div_eq_of_lt w.isLt
        rw [if_pos hzero, hcut, hcut, cmpNat_self]
      · simp only [if_neg hzero, BitVec.toNat_ushiftRight, Nat.shiftRight_eq_div_pow, cmpNat]
        split_ifs <;> omega

/-! ### Positions in packed keys -/

/-- The comparison of positions, field by field. -/
theorem bposCmp_eq (l r : Bpos) : bposCmp l r =
    if (l.inode : ℕ) = r.inode then
      if (l.offset : ℕ) = r.offset then cmpNat l.snapshot r.snapshot
      else cmpNat l.offset r.offset
    else cmpNat l.inode r.inode := by
  obtain ⟨⟨i, hi⟩, ⟨o, ho⟩, ⟨s, hs⟩⟩ := l
  obtain ⟨⟨i', hi'⟩, ⟨o', ho'⟩, ⟨s', hs'⟩⟩ := r
  simp only [bposCmp, cmpNat, ne_eq, Fin.mk.injEq, Fin.mk_lt_mk]
  split_ifs <;> omega

theorem exists_eq_six {α : Type*} {l : List α} (h : l.length = 6) :
    ∃ a b c d e g, l = [a, b, c, d, e, g] := by
  rcases l with - | ⟨a, - | ⟨b, - | ⟨c, - | ⟨d, - | ⟨e, - | ⟨g, - | ⟨x, l⟩⟩⟩⟩⟩⟩⟩ <;> simp at h ⊢

theorem exists_fields (f : PackFormat) : ∃ a b c d e g, f.fields = [a, b, c, d, e, g] :=
  exists_eq_six f.nrFields

/-- The format byte of the key that a packed key stands for. -/
theorem packed_format_byte (b : UInt8) (h : b &&& 0x7f = keyFormatLocalBtree) :
    (keyFormatCurrent ||| (b &&& 0x80)) &&& 0x7f = keyFormatCurrent ∧
      (keyFormatCurrent ||| (b &&& 0x80)) &&& 0x80 = b := by
  have hall : ∀ i : Fin 256, UInt8.ofNat i &&& 0x7f = keyFormatLocalBtree →
      (keyFormatCurrent ||| (UInt8.ofNat i &&& 0x80)) &&& 0x7f = keyFormatCurrent ∧
        (keyFormatCurrent ||| (UInt8.ofNat i &&& 0x80)) &&& 0x80 = UInt8.ofNat i := by
    decide +kernel
  have hb := hall ⟨b.toNat, b.toNat_lt⟩
  simp only [UInt8.ofNat_toNat] at hb
  exact hb h

/-- The value of a field, with the offset of the format put back. -/
def fieldValue {n : ℕ} (a : ℕ × ℕ) {x : ℕ} (hx : x < 2 ^ a.1) (h : a.2 + 2 ^ a.1 ≤ 2 ^ n) :
    Fin (2 ^ n) :=
  ⟨x + a.2, by omega⟩

theorem fieldFits_fieldValue {n : ℕ} {a : ℕ × ℕ} {x : ℕ} (hx : x < 2 ^ a.1)
    (h : a.2 + 2 ^ a.1 ≤ 2 ^ n) : fieldFits a (fieldValue a hx h) = true := by
  simp [fieldFits, fieldValue, hx]

/-- Whatever the bits of a packed key are, it is a key packed in its format. -/
theorem exists_packedAs (f : PackFormat) {words : KeyWords}
    (hformat : words.format &&& 0x7f = keyFormatLocalBtree)
    (hle : f.keyU64s ≤ words.u64s.toNat)
    (hlen : words.u64s.toNat - f.keyU64s + bkeyU64s ≤ 255) :
    ∃ k, PackedAs f k words ∧ k.format &&& 0x7f = keyFormatCurrent ∧ 5 ≤ k.u64s.toNat ∧
      ∀ x ∈ f.fields.zip k.fieldValues, fieldFits x.1 x.2 = true := by
  obtain ⟨a, b, c, d, e, g, hfields⟩ := exists_fields f
  have hroom := f.room
  rw [keyPackedBitsStart] at hroom
  -- the numbers in the bits of the fields
  have hlt : wordsNat words f.keyU64s / 2 ^ (64 * f.keyU64s - fieldBits f.fields) <
      2 ^ (f.fields.map Prod.fst).sum := by
    rw [Nat.div_lt_iff_lt_mul (Nat.two_pow_pos _), ← pow_add]
    refine (wordsNat_lt words f.keyU64s).trans_le (Nat.pow_le_pow_right Nat.two_pos ?_)
    rw [← fieldBits]
    omega
  obtain ⟨vs, hlength, hfit, hnat⟩ := exists_fieldsNat _ hlt
  have hfield : ∀ i (hi : i < 6), (f.fields.getD i (0, 0)).2 + 2 ^ (f.fields.getD i (0, 0)).1 ≤
      2 ^ PackFormat.unpackedBits i := fun i hi => (f.field_le hi).2
  rw [List.length_map, f.nrFields] at hlength
  obtain ⟨x₀, x₁, x₂, x₃, x₄, x₅, rfl⟩ := exists_eq_six hlength
  rw [hfields] at hnat hfit hfield
  simp only [List.map_cons, List.map_nil, List.zip_cons_cons, List.zip_nil_right] at hnat hfit
  simp only [FieldsFit, List.forall_mem_cons, List.not_mem_nil, false_implies, implies_true,
    and_true] at hfit
  obtain ⟨h₀, h₁, h₂, h₃, h₄, h₅⟩ := hfit
  refine ⟨{
    u64s := UInt8.ofNat (words.u64s.toNat - f.keyU64s + bkeyU64s)
    format := keyFormatCurrent ||| (words.format &&& 0x80)
    type := words.type
    versionHi := fieldValue e h₄ (hfield 4 (by decide))
    versionLo := fieldValue g h₅ (hfield 5 (by decide))
    size := fieldValue d h₃ (hfield 3 (by decide))
    p := ⟨fieldValue a h₀ (hfield 0 (by decide)), fieldValue b h₁ (hfield 1 (by decide)),
      fieldValue c h₂ (hfield 2 (by decide))⟩ }, ?_, ?_, ?_, ?_⟩
  · refine ⟨?_, (packed_format_byte _ hformat).2.symm, rfl, ?_⟩
    · dsimp only
      rw [UInt8.toNat_ofNat', Nat.mod_eq_of_lt (Nat.lt_succ_of_le hlen), bkeyU64s]
      omega
    · rw [hfields]
      simp only [rawFields, BkeyHead.fieldValues, fieldValue, List.zip_cons_cons,
        List.zip_nil_right, List.map_cons, List.map_nil, Nat.add_sub_cancel]
      exact hnat.symm
  · exact (packed_format_byte _ hformat).1
  · dsimp only
    rw [UInt8.toNat_ofNat', Nat.mod_eq_of_lt (Nat.lt_succ_of_le hlen)]
    exact Nat.le_add_left ..
  · rw [hfields]
    simp only [BkeyHead.fieldValues, List.zip_cons_cons, List.zip_nil_right,
      List.forall_mem_cons, List.not_mem_nil, false_implies, implies_true, and_true]
    exact ⟨fieldFits_fieldValue _ _, fieldFits_fieldValue _ _, fieldFits_fieldValue _ _,
      fieldFits_fieldValue _ _, fieldFits_fieldValue _ _, fieldFits_fieldValue _ _⟩

/-- The number in the bits of the position. -/
theorem PackedAs.key_bits {f : PackFormat} {k : BkeyHead} {words : KeyWords}
    (h : PackedAs f k words) (hfit : ∀ x ∈ f.fields.zip k.fieldValues, fieldFits x.1 x.2 = true)
    {a b c d e g : ℕ × ℕ} (hfields : f.fields = [a, b, c, d, e, g]) :
    wordsNat words f.keyU64s / 2 ^ (64 * f.keyU64s - bkeyFormatKeyBits f.toBkeyFormat) =
      ((k.p.inode - a.2) * 2 ^ b.1 + (k.p.offset - b.2)) * 2 ^ c.1 + (k.p.snapshot - c.2) := by
  have hroom := f.room
  rw [keyPackedBitsStart] at hroom
  have htop := h.fields
  set high := [(a.1, k.p.inode.val - a.2), (b.1, k.p.offset.val - b.2),
    (c.1, k.p.snapshot.val - c.2)] with hhigh
  set low := [(d.1, k.size.val - d.2), (e.1, k.versionHi.val - e.2), (g.1, k.versionLo.val - g.2)]
    with hlow
  have hraw : rawFields (f.fields.zip k.fieldValues) = high ++ low := by
    rw [hfields]
    rfl
  have hbits : fieldBits f.fields = bkeyFormatKeyBits f.toBkeyFormat + fieldBits low := by
    rw [bkeyFormatKeyBits, hfields]
    simp [fieldBits, hlow]
    omega
  have hlt : fieldsNat low < 2 ^ fieldBits low := by
    refine fieldsNat_lt fun x hx => ?_
    have hmem : x ∈ rawFields (f.fields.zip k.fieldValues) := hraw ▸ List.mem_append_right _ hx
    obtain ⟨y, hy, rfl⟩ := List.mem_map.mp hmem
    exact (of_decide_eq_true (hfit y hy)).2
  have hexp : 64 * f.keyU64s - bkeyFormatKeyBits f.toBkeyFormat =
      64 * f.keyU64s - fieldBits f.fields + fieldBits low := by omega
  rw [hexp, pow_add, ← Nat.div_div_eq_div_mul, htop, hraw, fieldsNat_append, mul_pow_add_div hlt]
  simp only [hhigh, fieldsNat, fieldBits_cons, fieldBits_nil]
  ring

/-- The fields of a position with their formats. -/
def posFields (f : BkeyFormat) (p : Bpos) : List ((ℕ × ℕ) × ℕ) :=
  f.fields.zip [p.inode.val, p.offset.val, p.snapshot.val]

/-- The number that a position is packed to. -/
def posBits (f : BkeyFormat) (p : Bpos) : ℕ := fieldsNat (rawFields (posFields f p))

theorem posBits_eq {f : BkeyFormat} {a b c : ℕ × ℕ} {rest : List (ℕ × ℕ)}
    (hfields : f.fields = a :: b :: c :: rest) (p : Bpos) : posBits f p =
      ((p.inode - a.2) * 2 ^ b.1 + (p.offset - b.2)) * 2 ^ c.1 + (p.snapshot - c.2) := by
  rw [posBits, posFields, hfields]
  simp only [rawFields, List.zip_cons_cons, List.zip_nil_right, List.map_cons, List.map_nil,
    fieldsNat, fieldBits_cons, fieldBits_nil]
  ring

/-- Positions that fit a format are packed to numbers in the same order. -/
theorem cmpNat_posBits (f : PackFormat) {p q : Bpos}
    (hp : ∀ x ∈ posFields f.toBkeyFormat p, fieldFits x.1 x.2 = true)
    (hq : ∀ x ∈ posFields f.toBkeyFormat q, fieldFits x.1 x.2 = true) :
    cmpNat (posBits f.toBkeyFormat p) (posBits f.toBkeyFormat q) = bposCmp p q := by
  obtain ⟨a, b, c, d, e, g, hfields⟩ := exists_fields f
  rw [posBits_eq hfields, posBits_eq hfields]
  simp only [posFields, hfields, List.zip_cons_cons, List.forall_mem_cons, fieldFits,
    decide_eq_true_eq] at hp hq
  obtain ⟨hi, ho, hs, -⟩ := hp
  obtain ⟨hi', ho', hs', -⟩ := hq
  have hcancel : ∀ {x y z : ℕ}, z ≤ x → z ≤ y → (x - z = y - z ↔ x = y) := by omega
  have hcmp : ∀ {x y z : ℕ}, z ≤ x → z ≤ y → cmpNat (x - z) (y - z) = cmpNat x y := by
    intro x y z hx hy
    rw [← cmpNat_add_right _ _ z, Nat.sub_add_cancel hx, Nat.sub_add_cancel hy]
  have hinode := hcancel hi.1 hi'.1
  have hoffset := hcancel ho.1 ho'.1
  rw [cmpNat_mul_add hs.2 hs'.2, cmpNat_mul_add ho.2 ho'.2, hcmp hi.1 hi'.1, hcmp ho.1 ho'.1,
    hcmp hs.1 hs'.1, bposCmp_eq]
  by_cases hieq : (p.inode : ℕ) = q.inode
  · by_cases hoeq : (p.offset : ℕ) = q.offset
    · simp [hieq, hoeq]
    · have hne : ¬((p.offset : ℕ) - b.2 = q.offset - b.2) := hoffset.not.mpr hoeq
      have hne' : ¬(((p.inode : ℕ) - a.2) * 2 ^ b.1 + (p.offset - b.2) =
          (q.inode - a.2) * 2 ^ b.1 + (q.offset - b.2)) := by
        rw [hieq]
        omega
      rw [if_neg hne', if_pos (hinode.mpr hieq), if_pos hieq, if_neg hoeq]
  · have hne : ¬((p.inode : ℕ) - a.2 = q.inode - a.2) := hinode.not.mpr hieq
    have hne' : ¬(((p.inode : ℕ) - a.2) * 2 ^ b.1 + (p.offset - b.2) =
        (q.inode - a.2) * 2 ^ b.1 + (q.offset - b.2)) := by
      intro heq
      have hdiv := congrArg (· / 2 ^ b.1) heq
      simp only [mul_pow_add_div ho.2, mul_pow_add_div ho'.2] at hdiv
      exact hne hdiv
    rw [if_neg hne', if_neg hne, if_neg hieq]

theorem keyBits_le (f : PackFormat) : bkeyFormatKeyBits f.toBkeyFormat ≤ 64 * f.keyU64s := by
  obtain ⟨a, b, c, d, e, g, hfields⟩ := exists_fields f
  have hroom := f.room
  rw [hfields] at hroom
  simp only [fieldBits_cons] at hroom
  simp only [bkeyFormatKeyBits, hfields, List.take_succ_cons, List.take_zero, List.map_cons,
    List.map_nil, List.sum_cons, List.sum_nil]
  omega

/-- A packed key with a position in its highest bits. -/
structure HasPos (f : PackFormat) (p : Bpos) (words : KeyWords) : Prop where
  format : words.format &&& 0x7f = keyFormatLocalBtree
  le : f.keyU64s ≤ words.u64s.toNat
  fits : ∀ x ∈ posFields f.toBkeyFormat p, fieldFits x.1 x.2 = true
  num : wordsNat words f.keyU64s / 2 ^ (64 * f.keyU64s - bkeyFormatKeyBits f.toBkeyFormat) =
    posBits f.toBkeyFormat p

/-- Whatever the highest bits of a packed key are, they are a position. -/
theorem exists_hasPos (f : PackFormat) {words : KeyWords}
    (hformat : words.format &&& 0x7f = keyFormatLocalBtree)
    (hle : f.keyU64s ≤ words.u64s.toNat) : ∃ p, HasPos f p words := by
  obtain ⟨a, b, c, d, e, g, hfields⟩ := exists_fields f
  have hbits : bkeyFormatKeyBits f.toBkeyFormat = [a.1, b.1, c.1].sum := by
    rw [bkeyFormatKeyBits, hfields]
    rfl
  have hlt : wordsNat words f.keyU64s /
      2 ^ (64 * f.keyU64s - bkeyFormatKeyBits f.toBkeyFormat) < 2 ^ [a.1, b.1, c.1].sum := by
    have hle := keyBits_le f
    rw [Nat.div_lt_iff_lt_mul (Nat.two_pow_pos _), ← hbits, ← pow_add, Nat.add_sub_cancel' hle]
    exact wordsNat_lt words f.keyU64s
  obtain ⟨vs, hlength, hfit, hnat⟩ := exists_fieldsNat _ hlt
  have hfield : ∀ i (hi : i < 6), (f.fields.getD i (0, 0)).2 + 2 ^ (f.fields.getD i (0, 0)).1 ≤
      2 ^ PackFormat.unpackedBits i := fun i hi => (f.field_le hi).2
  match vs, hlength with
  | [x₀, x₁, x₂], _ =>
    rw [hfields] at hfield
    simp only [List.zip_cons_cons, List.zip_nil_right, FieldsFit, List.forall_mem_cons,
      List.not_mem_nil, false_implies, implies_true, and_true] at hfit
    obtain ⟨h₀, h₁, h₂⟩ := hfit
    refine ⟨⟨fieldValue a h₀ (hfield 0 (by decide)), fieldValue b h₁ (hfield 1 (by decide)),
      fieldValue c h₂ (hfield 2 (by decide))⟩, hformat, hle, ?_, ?_⟩
    · simp only [posFields, hfields, List.zip_cons_cons, List.zip_nil_right, List.forall_mem_cons,
        List.not_mem_nil, false_implies, implies_true, and_true]
      exact ⟨fieldFits_fieldValue _ _, fieldFits_fieldValue _ _, fieldFits_fieldValue _ _⟩
    · rw [← hnat, posBits, posFields, hfields]
      simp [rawFields, fieldValue]

namespace HasPos

variable {f : PackFormat} {p q : Bpos} {words l r : KeyWords}

theorem packed (h : HasPos f p words) : words.packed = true := by
  rw [KeyWords.packed, h.format]
  rfl

theorem bits_lt (h : HasPos f p words) :
    posBits f.toBkeyFormat p < 2 ^ bkeyFormatKeyBits f.toBkeyFormat := by
  have hle := keyBits_le f
  rw [← h.num, Nat.div_lt_iff_lt_mul (Nat.two_pow_pos _), ← pow_add, Nat.add_sub_cancel' hle]
  exact wordsNat_lt words f.keyU64s

/-- Packed keys are compared by their positions. -/
theorem bkeyCmpBits_eq (hl : HasPos f p l) (hr : HasPos f q r) :
    bkeyCmpBits l r f.keyU64s (bkeyFormatKeyBits f.toBkeyFormat) = bposCmp p q := by
  rw [Subvol.bkeyCmpBits_eq l r (keyBits_le f), hl.num, hr.num, cmpNat_posBits f hl.fits hr.fits]

theorem cmpPacked_eq (hl : HasPos f p l) (hr : HasPos f q r) :
    bch2BkeyCmpPacked f.toBkeyFormat (bkeyFormatKeyBits f.toBkeyFormat) l r =
      some (bposCmp p q) := by
  rw [bch2BkeyCmpPacked, if_pos ⟨hl.packed, hr.packed⟩, if_pos rfl, hl.bkeyCmpBits_eq hr]

/-- The order of positions is that of the bits. -/
theorem lt_iff (hl : HasPos f p l) (hr : HasPos f q r) :
    p < q ↔ posBits f.toBkeyFormat p < posBits f.toBkeyFormat q := by
  rw [← bposCmp_neg_iff, ← cmpNat_posBits f hl.fits hr.fits, cmpNat]
  split_ifs <;> omega

end HasPos

/-- Keys that are packed in one format are compared by their words as by their positions. -/
theorem PackedAs.bkeyCmpBits_eq {f : PackFormat} {k k' : BkeyHead} {l r : KeyWords}
    (h : PackedAs f k l) (hfit : ∀ x ∈ f.fields.zip k.fieldValues, fieldFits x.1 x.2 = true)
    (h' : PackedAs f k' r)
    (hfit' : ∀ x ∈ f.fields.zip k'.fieldValues, fieldFits x.1 x.2 = true) :
    bkeyCmpBits l r f.keyU64s (bkeyFormatKeyBits f.toBkeyFormat) = bposCmp k.p k'.p := by
  obtain ⟨a, b, c, d, e, g, hfields⟩ := exists_fields f
  have hpos : ∀ k : BkeyHead, (∀ x ∈ f.fields.zip k.fieldValues, fieldFits x.1 x.2 = true) →
      ∀ x ∈ posFields f.toBkeyFormat k.p, fieldFits x.1 x.2 = true := by
    intro k hfit x hx
    refine hfit x ?_
    rw [posFields, hfields] at hx
    rw [hfields]
    simp only [BkeyHead.fieldValues, List.zip_cons_cons, List.zip_nil_right, List.mem_cons] at hx ⊢
    tauto
  rw [Subvol.bkeyCmpBits_eq l r (keyBits_le f), h.key_bits hfit hfields, h'.key_bits hfit' hfields,
    ← cmpNat_posBits f (hpos k hfit) (hpos k' hfit'), posBits_eq hfields, posBits_eq hfields]

/-- A packed key stands for a key whose position is unpacked either way. -/
theorem StoredIn.packed_cases {f : PackFormat} {words : KeyWords}
    (h : StoredIn f.toBkeyFormat words) :
    words.packed = true ∧ (∃ k, PackedAs f k words ∧
        (∀ x ∈ f.fields.zip k.fieldValues, fieldFits x.1 x.2 = true) ∧
        KeyWords.bch2BkeyUnpackKey f.toBkeyFormat words = some { k with pad := 0 } ∧
        KeyWords.unpackPos f.toBkeyFormat words = some k.p) ∨
      words.packed = false ∧ KeyWords.unpackPos f.toBkeyFormat words = some words.pos := by
  cases h with
  | packed hformat hle hlen =>
    have hpacked : words.packed = true := by
      rw [KeyWords.packed, hformat]
      rfl
    obtain ⟨k, has, hcurrent, hu64s, hfit⟩ := exists_packedAs f hformat hle hlen
    refine .inl ⟨hpacked, k, has, hfit, has.unpack hfit hcurrent hu64s, ?_⟩
    rw [KeyWords.unpackPos, if_pos hpacked]
    exact has.unpackPos hfit hu64s
  | unpacked hformat =>
    have hpacked : words.packed = false := by
      rw [KeyWords.packed, hformat]
      rfl
    refine .inr ⟨hpacked, ?_⟩
    rw [KeyWords.unpackPos, hpacked]
    rfl

/-- Stored keys are compared by their positions. -/
theorem StoredIn.cmp_eq {f : PackFormat} {l r : KeyWords}
    (hl : StoredIn f.toBkeyFormat l) (hr : StoredIn f.toBkeyFormat r) :
    ∃ p q, KeyWords.unpackPos f.toBkeyFormat l = some p ∧
      KeyWords.unpackPos f.toBkeyFormat r = some q ∧
      bch2BkeyCmpPacked f.toBkeyFormat (bkeyFormatKeyBits f.toBkeyFormat) l r =
        some (bposCmp p q) := by
  rw [bch2BkeyCmpPacked]
  rcases hl.packed_cases with ⟨hlp, k, has, hfit, hunpack, hpos⟩ | ⟨hlp, hpos⟩
  · rcases hr.packed_cases with ⟨hrp, k', has', hfit', -, hpos'⟩ | ⟨hrp, hpos'⟩
    · refine ⟨k.p, k'.p, hpos, hpos', ?_⟩
      rw [if_pos ⟨hlp, hrp⟩, if_pos rfl, has.bkeyCmpBits_eq hfit has' hfit']
    · refine ⟨k.p, r.pos, hpos, hpos', ?_⟩
      simp [hlp, hrp, hunpack]
  · rcases hr.packed_cases with ⟨hrp, k', -, -, hunpack', hpos'⟩ | ⟨hrp, hpos'⟩
    · refine ⟨l.pos, k'.p, hpos, hpos', ?_⟩
      simp [hlp, hrp, hunpack']
    · refine ⟨l.pos, r.pos, hpos, hpos', ?_⟩
      simp [hlp, hrp]

/-- The comparison of two stored keys is that of their positions, whichever of them are packed. -/
theorem bch2BkeyCmpPacked_eq (f : PackFormat) {l r : KeyWords}
    (hl : StoredIn f.toBkeyFormat l) (hr : StoredIn f.toBkeyFormat r) :
    ∃ p q, KeyWords.unpackPos f.toBkeyFormat l = some p ∧
      KeyWords.unpackPos f.toBkeyFormat r = some q ∧
      bch2BkeyCmpPacked f.toBkeyFormat (bkeyFormatKeyBits f.toBkeyFormat) l r =
        some (bposCmp p q) :=
  hl.cmp_eq hr

/-- The words of a packed and of an unpacked key. -/
def narrowPacked : KeyWords := fun i => if i = 0 then 0x070002 else 0x1234 <<< 48

def narrowUnpacked : KeyWords := fun i => if i = 0 then 0x070105 else 118

theorem bch2BkeyCmpPacked_narrow :
    ∃ p q, KeyWords.unpackPos narrowFormat.toBkeyFormat narrowPacked = some p ∧
      KeyWords.unpackPos narrowFormat.toBkeyFormat narrowUnpacked = some q ∧
      bch2BkeyCmpPacked narrowFormat.toBkeyFormat 21 narrowPacked narrowUnpacked =
        some (bposCmp p q) :=
  bch2BkeyCmpPacked_eq narrowFormat
    (.packed (by decide +kernel) (by decide +kernel) (by decide +kernel))
    (.unpacked (by decide +kernel))

end Subvol

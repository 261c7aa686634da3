import Subvol.Btree.PackCmp

/-!
# Packing a position to search for

A search for a position goes through packed keys with a packed position. Where the position itself
does not fit the format of the node, the greatest one below it that does is packed instead.

## Main definitions

* `setIncFieldLossy`, `KeyWords.bch2BkeyPackPos`, `KeyWords.bch2BkeyPackPosLossy`.
* `PosPacked`: words that a position is packed to.
* `lossySaturate`, `Lowered`: the fields that are packed instead, and what they are for.
* `Lossy`: the position that is packed for another one.

## Main results

* `bch2BkeyPackPos_cases`: a position is packed exactly when it fits.
* `PosPacked.unpackPos`: it is read back.
* `bch2BkeyPackPosLossy_greatest`: the greatest position that fits and is not above.
-/

namespace Subvol

open Lib

/-- `bkey_pack_pos_ret`. -/
inductive BkeyPackPosRet
  | exact
  | smaller
  | fail
deriving DecidableEq, Repr

/-! ### Packing -/

/-- What is written behind the fields of a position: the header of a key without value. -/
def finishPos (f : BkeyFormat) (s : PackState) : Option KeyWords :=
  (packStateFinish f s).map fun words =>
    ((words.setByte 0 (UInt8.ofNat f.keyU64s)).setByte 8 keyFormatLocalBtree).setByte 16 0

/-- `__bch2_bkey_pack_pos_exact`. -/
def KeyWords.bch2BkeyPackPos (out : KeyWords) (input : Bpos) (f : BkeyFormat) : PackRes KeyWords :=
  match packStateInit f fun i => if i < f.keyU64s then 0 else out i, f.fields with
  | some s, a :: b :: c :: _ =>
    if input.snapshot < c.2 ∨ input.offset < b.2 ∨ input.inode < a.2 then .misfit
    else match setIncFields s (posFields f input) with
    | .panic => .panic
    | .misfit => .misfit
    | .ok s =>
      match finishPos f s with
      | some words => .ok words
      | none => .panic
  | _, _ => .panic

/-- `set_inc_field_lossy`: whether the value fits; the greatest one is written if it does not. -/
def setIncFieldLossy (s : PackState) (f : ℕ × ℕ) (v : ℕ) : Option (Bool × PackState) :=
  let (bits, offset) := f
  if v < offset then none
  else if bitsOf (v - offset) > bits then
    (setIncFieldBits s bits (BitVec.ofNat 64 (bitsMask bits))).map fun s => (false, s)
  else (setIncFieldBits s bits (BitVec.ofNat 64 (v - offset))).map fun s => (true, s)

/-- The fields of the position while it is packed, and whether they are still those given. -/
structure LossyPos where
  inode : ℕ
  offset : ℕ
  snapshot : ℕ
  exact : Bool

/-- A snapshot below the offset of the format borrows from the offset and the inode. -/
def borrowSnapshot (p : LossyPos) (snapshotOffset : ℕ) : Option LossyPos :=
  if p.snapshot < snapshotOffset then
    if p.offset = 0 then
      if p.inode = 0 then none
      else some ⟨p.inode - 1, keyOffsetMax, keySnapshotMax, false⟩
    else some ⟨p.inode, p.offset - 1, keySnapshotMax, false⟩
  else some p

/-- An offset below that of the format borrows from the inode. -/
def borrowOffset (p : LossyPos) (offsetOffset : ℕ) : Option LossyPos :=
  if p.offset < offsetOffset then
    if p.inode = 0 then none else some ⟨p.inode - 1, keyOffsetMax, keySnapshotMax, false⟩
  else some p

/-- The first part of `bch2_bkey_pack_pos_lossy`. -/
def lossyBorrow (input : Bpos) (inodeOffset offsetOffset snapshotOffset : ℕ) : Option LossyPos := do
  let p ← borrowSnapshot ⟨input.inode, input.offset, input.snapshot, true⟩ snapshotOffset
  let p ← borrowOffset p offsetOffset
  if p.inode < inodeOffset then none else some p

/-- `bch2_bkey_pack_pos_lossy`. -/
def KeyWords.bch2BkeyPackPosLossy (out : KeyWords) (input : Bpos) (f : BkeyFormat) :
    Option (BkeyPackPosRet × KeyWords) :=
  let zeros : KeyWords := fun i => if i < f.keyU64s then 0 else out i
  match packStateInit f zeros, f.fields with
  | some s, a :: b :: c :: _ =>
    match lossyBorrow input a.2 b.2 c.2 with
    | none => some (.fail, zeros)
    | some p => do
      let (fits, s) ← setIncFieldLossy s a p.inode
      let p := if fits then p else ⟨p.inode, keyOffsetMax, keySnapshotMax, false⟩
      let (fits, s) ← setIncFieldLossy s b p.offset
      let p := if fits then p else ⟨p.inode, p.offset, keySnapshotMax, false⟩
      let (fits, s) ← setIncFieldLossy s c p.snapshot
      let exact := p.exact && fits
      let words ← finishPos f s
      some (if exact then .exact else .smaller, words)
  | _, _ => none

/-! ### Packed positions -/

/-- Words that a position is packed to, with nothing else above the header. -/
structure PosPacked (f : PackFormat) (p : Bpos) (words : KeyWords) : Prop where
  format : words.format = keyFormatLocalBtree
  u64s : words.u64s.toNat = f.keyU64s
  fits : ∀ x ∈ posFields f.toBkeyFormat p, fieldFits x.1 x.2 = true
  num : ∃ header < 2 ^ 24, wordsNat words f.keyU64s =
    posBits f.toBkeyFormat p * 2 ^ (64 * f.keyU64s - bkeyFormatKeyBits f.toBkeyFormat) + header

theorem keyBits_room (f : PackFormat) :
    24 + bkeyFormatKeyBits f.toBkeyFormat ≤ 64 * f.keyU64s := by
  obtain ⟨a, b, c, d, e, g, hfields⟩ := exists_fields f
  have hroom := f.room
  rw [hfields, keyPackedBitsStart] at hroom
  simp only [fieldBits_cons] at hroom
  simp only [bkeyFormatKeyBits, hfields, List.take_succ_cons, List.take_zero, List.map_cons,
    List.map_nil, List.sum_cons, List.sum_nil]
  omega

/-- The header is written into the lowest bits, which are free. -/
theorem KeyWords.exists_header {words : KeyWords} {n t x : ℕ} (hn : 1 ≤ n) (ht : 24 ≤ t)
    (hnum : wordsNat words n = x * 2 ^ t) {b₀ b₁ b₂ : UInt8} :
    ∃ header < 2 ^ 24,
      wordsNat (((words.setByte 0 b₀).setByte 8 b₁).setByte 16 b₂) n = x * 2 ^ t + header := by
  set words' := ((words.setByte 0 b₀).setByte 8 b₁).setByte 16 b₂ with hwords'
  have hhigh : wordsNat words' n / 2 ^ 24 = wordsNat words n / 2 ^ 24 := by
    rw [hwords', wordsNat_setByte _ (by decide) hn le_rfl, wordsNat_setByte _ (by decide) hn le_rfl,
      wordsNat_setByte _ (by decide) hn le_rfl]
  obtain ⟨d, rfl⟩ := Nat.exists_eq_add_of_le ht
  refine ⟨wordsNat words' n % 2 ^ 24, Nat.mod_lt _ (by decide), ?_⟩
  have hexact : x * 2 ^ (24 + d) = wordsNat words n / 2 ^ 24 * 2 ^ 24 := by
    rw [hnum, pow_add, mul_comm (2 ^ 24), ← mul_assoc, Nat.mul_div_cancel _ (by decide)]
  rw [hexact, ← hhigh]
  exact (Nat.div_add_mod' _ _).symm

theorem fieldBits_posFields (f : PackFormat) (p : Bpos) :
    fieldBits (rawFields (posFields f.toBkeyFormat p)) = bkeyFormatKeyBits f.toBkeyFormat := by
  obtain ⟨a, b, c, d, e, g, hfields⟩ := exists_fields f
  rw [posFields, bkeyFormatKeyBits, hfields]
  simp [rawFields]

/-- The header is written behind the fields of a position. -/
theorem finishPos_spec (f : PackFormat) {s : PackState} {p : Bpos} {r : ℕ}
    (h : s.Wrote f.keyU64s r (posBits f.toBkeyFormat p *
      2 ^ (64 * f.keyU64s - bkeyFormatKeyBits f.toBkeyFormat)))
    (hfit : ∀ x ∈ posFields f.toBkeyFormat p, fieldFits x.1 x.2 = true) :
    ∃ words, finishPos f.toBkeyFormat s = some words ∧ PosPacked f p words := by
  have hroom := keyBits_room f
  have hle := f.keyU64s_le
  rw [finishPos, packStateFinish, if_pos h.p_lt, Option.map_some]
  refine ⟨_, rfl, ?_, ?_, hfit, KeyWords.exists_header f.keyU64s_pos (by omega) h.num⟩
  · rw [KeyWords.format, KeyWords.field_setByte_of_disjoint _ (.inl (by decide)) (by decide),
      KeyWords.field_setByte_self _ (by decide), UInt8.ofNat_toNat]
  · rw [KeyWords.u64s, KeyWords.field_setByte_of_disjoint _ (.inl (by decide)) (by decide),
      KeyWords.field_setByte_of_disjoint _ (.inl (by decide)) (by decide),
      KeyWords.field_setByte_self _ (by decide), UInt8.ofNat_toNat, UInt8.toNat_ofNat']
    exact Nat.mod_eq_of_lt (by omega)

/-- The fields of a position fit when each is in the range of its format. -/
theorem posFits_iff {f : BkeyFormat} {a b c : ℕ × ℕ} {rest : List (ℕ × ℕ)}
    (hfields : f.fields = a :: b :: c :: rest) {p : Bpos} :
    (∀ x ∈ posFields f p, fieldFits x.1 x.2 = true) ↔
      (a.2 ≤ (p.inode : ℕ) ∧ (p.inode : ℕ) < a.2 + 2 ^ a.1) ∧
        (b.2 ≤ (p.offset : ℕ) ∧ (p.offset : ℕ) < b.2 + 2 ^ b.1) ∧
        c.2 ≤ (p.snapshot : ℕ) ∧ (p.snapshot : ℕ) < c.2 + 2 ^ c.1 := by
  simp only [posFields, hfields, List.zip_cons_cons, List.zip_nil_right, List.forall_mem_cons,
    List.not_mem_nil, false_implies, implies_true, and_true, fieldFits, decide_eq_true_eq]
  omega

theorem posFields_bounds (f : PackFormat) (p : Bpos) {x : (ℕ × ℕ) × ℕ}
    (hx : x ∈ posFields f.toBkeyFormat p) : x.1.1 ≤ 64 ∧ x.2 < 2 ^ 64 := by
  refine ⟨f.bits_le (List.of_mem_zip hx).1, ?_⟩
  have hv := (List.of_mem_zip hx).2
  have h32 : (2 : ℕ) ^ 32 ≤ 2 ^ 64 := Nat.pow_le_pow_right Nat.two_pos (by decide)
  simp only [List.mem_cons, List.not_mem_nil, or_false] at hv
  rcases hv with hv | hv | hv
  · exact hv ▸ p.inode.isLt
  · exact hv ▸ p.offset.isLt
  · exact hv ▸ p.snapshot.isLt.trans_le h32

/-- A position is packed when its fields fit, and refused otherwise. -/
theorem bch2BkeyPackPos_cases (f : PackFormat) (out : KeyWords) (p : Bpos) :
    (∃ words, KeyWords.bch2BkeyPackPos out p f.toBkeyFormat = .ok words ∧ PosPacked f p words) ∨
      (¬∀ x ∈ posFields f.toBkeyFormat p, fieldFits x.1 x.2 = true) ∧
        KeyWords.bch2BkeyPackPos out p f.toBkeyFormat = .misfit := by
  obtain ⟨a, b, c, d, e, g, hfields⟩ := exists_fields f
  obtain ⟨s, hs, hw⟩ := wrote_init f out
  have hbits := fieldBits_posFields f p
  obtain ⟨hall, hnot⟩ := setIncFields_spec hw (hbits ▸ keyBits_le f)
    (fun x hx => (posFields_bounds f p hx).1) fun x hx => (posFields_bounds f p hx).2
  by_cases hfit : ∀ x ∈ posFields f.toBkeyFormat p, fieldFits x.1 x.2 = true
  · obtain ⟨s', hs', hw'⟩ := hall hfit
    rw [hbits, Nat.zero_add] at hw'
    obtain ⟨words, hwords, hpacked⟩ := finishPos_spec f hw' hfit
    refine Or.inl ⟨words, ?_, hpacked⟩
    have hguard : ¬((p.snapshot : ℕ) < c.2 ∨ (p.offset : ℕ) < b.2 ∨ (p.inode : ℕ) < a.2) := by
      rw [posFits_iff hfields] at hfit
      omega
    simp only [KeyWords.bch2BkeyPackPos, hs, hfields, if_neg hguard, hs', hwords]
  · refine Or.inr ⟨hfit, ?_⟩
    simp only [KeyWords.bch2BkeyPackPos, hs, hfields, hnot hfit, ite_self]

/-! ### The greatest position that fits -/

/-- The greatest value of a field. -/
def fieldTop (f : ℕ × ℕ) : ℕ := f.2 + 2 ^ f.1 - 1

/-- The value of a field is written, or the greatest one where it is above that. -/
theorem setIncFieldLossy_spec {s : PackState} {n r N : ℕ} {f : ℕ × ℕ} {v : ℕ} (h : s.Wrote n r N)
    (hle : f.1 ≤ r) (hbits : f.1 ≤ 64) (hoff : f.2 ≤ v) :
    ∃ s', setIncFieldLossy s f v = some (decide (v ≤ fieldTop f), s') ∧
      s'.Wrote n (r - f.1) (N + (min v (fieldTop f) - f.2) * 2 ^ (r - f.1)) := by
  obtain ⟨bits, offset⟩ := f
  dsimp only at hle hbits hoff ⊢
  have hpos := Nat.two_pow_pos bits
  have hpow : 2 ^ bits ≤ 2 ^ 64 := Nat.pow_le_pow_right Nat.two_pos hbits
  have hwrite (x : ℕ) (hx : x < 2 ^ bits) : ∃ s',
      setIncFieldBits s bits (BitVec.ofNat 64 x) = some s' ∧
      s'.Wrote n (r - bits) (N + x * 2 ^ (r - bits)) := by
    have hval : (BitVec.ofNat 64 x).toNat = x := by
      rw [BitVec.toNat_ofNat]
      exact Nat.mod_eq_of_lt (hx.trans_le hpow)
    obtain ⟨s', hs', hw⟩ := setIncFieldBits_spec h hle hbits (hval.symm ▸ hx)
    rw [hval] at hw
    exact ⟨s', hs', hw⟩
  rw [setIncFieldLossy, if_neg (Nat.not_lt.mpr hoff)]
  have htop : fieldTop (bits, offset) = offset + 2 ^ bits - 1 := rfl
  by_cases hfit : v - offset < 2 ^ bits
  · obtain ⟨s', hs', hw⟩ := hwrite _ hfit
    have hle : v ≤ fieldTop (bits, offset) := by omega
    rw [if_neg (Nat.not_lt.mpr ((bitsOf_le_iff _ _).mpr hfit)), hs', decide_eq_true hle,
      Nat.min_eq_left hle]
    exact ⟨s', rfl, hw⟩
  · obtain ⟨s', hs', hw⟩ := hwrite (2 ^ bits - 1) (by omega)
    have hlt : ¬v ≤ fieldTop (bits, offset) := by omega
    have hx : fieldTop (bits, offset) - offset = 2 ^ bits - 1 := by omega
    rw [if_pos (Nat.lt_of_not_le fun hle => hfit ((bitsOf_le_iff _ _).mp hle)), bitsMask_eq, hs',
      decide_eq_false hlt, Nat.min_eq_right (by omega), hx]
    exact ⟨s', rfl, hw⟩

/-- The order of positions, field by field. -/
def lexLe (i o s i' o' s' : ℕ) : Prop := i < i' ∨ i = i' ∧ (o < o' ∨ o = o' ∧ s ≤ s')

theorem Bpos.le_iff_lexLe (p q : Bpos) :
    p ≤ q ↔ lexLe p.inode p.offset p.snapshot q.inode q.offset q.snapshot := by
  obtain ⟨⟨i, hi⟩, ⟨o, ho⟩, ⟨s, hs⟩⟩ := p
  obtain ⟨⟨i', hi'⟩, ⟨o', ho'⟩, ⟨s', hs'⟩⟩ := q
  rw [Bpos.le_iff_toNat, Bpos.toNat, Bpos.toNat, lexLe]
  dsimp only
  omega

/-- The fields `p'` are the greatest ones up to `p` that satisfy `P`, and marked when they are not
those of `p`. -/
structure Lowered (P : ℕ → ℕ → ℕ → Prop) (p p' : LossyPos) : Prop where
  ok : P p'.inode p'.offset p'.snapshot
  lt : p'.inode < 2 ^ 64 ∧ p'.offset < 2 ^ 64 ∧ p'.snapshot < 2 ^ 32
  mark : p' = p ∨ p'.exact = false ∧
    ¬lexLe p.inode p.offset p.snapshot p'.inode p'.offset p'.snapshot
  le : lexLe p'.inode p'.offset p'.snapshot p.inode p.offset p.snapshot
  greatest : ∀ i o s, P i o s → o < 2 ^ 64 → s < 2 ^ 32 →
    lexLe i o s p.inode p.offset p.snapshot → lexLe i o s p'.inode p'.offset p'.snapshot

namespace Lowered

variable {P Q : ℕ → ℕ → ℕ → Prop} {p p' p'' : LossyPos}

theorem refl (hok : P p.inode p.offset p.snapshot)
    (hlt : p.inode < 2 ^ 64 ∧ p.offset < 2 ^ 64 ∧ p.snapshot < 2 ^ 32) : Lowered P p p := by
  refine ⟨hok, hlt, Or.inl rfl, ?_, fun i o s _ _ _ hle => hle⟩
  rw [lexLe]
  omega

/-- What is the greatest in two steps is the greatest. -/
theorem trans (h : Lowered P p p') (h' : Lowered Q p' p'') (hsub : ∀ i o s, Q i o s → P i o s) :
    Lowered Q p p'' := by
  refine ⟨h'.ok, h'.lt, ?_, ?_, fun i o s hQ ho hs hle => ?_⟩
  · rcases h'.mark with rfl | ⟨hexact, hless⟩
    · exact h.mark
    · refine Or.inr ⟨hexact, fun hle => hless ?_⟩
      have hstep := h.le
      rw [lexLe] at hle hstep ⊢
      omega
  · have hfirst := h.le
    have hsecond := h'.le
    rw [lexLe] at hfirst hsecond ⊢
    omega
  · exact h'.greatest i o s hQ ho hs (h.greatest i o s (hsub i o s hQ) ho hs hle)

end Lowered

theorem borrowSnapshot_spec {p p' : LossyPos} {sc : ℕ} (hsc : sc < 2 ^ 32)
    (hp : p.inode < 2 ^ 64 ∧ p.offset < 2 ^ 64 ∧ p.snapshot < 2 ^ 32)
    (h : borrowSnapshot p sc = some p') : Lowered (fun _ _ s => sc ≤ s) p p' := by
  rw [borrowSnapshot, keyOffsetMax, keySnapshotMax] at h
  split_ifs at h with hlow hoff hino
  · obtain rfl := Option.some.inj h
    refine ⟨?_, ?_, Or.inr ⟨rfl, ?_⟩, ?_, fun i o s hs ho hs' hle => ?_⟩ <;>
      dsimp only [lexLe] at * <;> omega
  · obtain rfl := Option.some.inj h
    refine ⟨?_, ?_, Or.inr ⟨rfl, ?_⟩, ?_, fun i o s hs ho hs' hle => ?_⟩ <;>
      dsimp only [lexLe] at * <;> omega
  · obtain rfl := Option.some.inj h
    exact Lowered.refl (Nat.not_lt.mp hlow) hp

/-- No position up to one that cannot borrow is above the snapshot of the format. -/
theorem borrowSnapshot_none {p : LossyPos} {sc i o s : ℕ} (h : borrowSnapshot p sc = none)
    (hs : sc ≤ s) : ¬lexLe i o s p.inode p.offset p.snapshot := by
  rw [borrowSnapshot] at h
  split_ifs at h with hlow hoff hino
  rw [lexLe]
  omega

theorem borrowOffset_spec {p p' : LossyPos} {ob sc : ℕ} (hob : ob < 2 ^ 64) (hsc : sc < 2 ^ 32)
    (hp : p.inode < 2 ^ 64 ∧ p.offset < 2 ^ 64 ∧ p.snapshot < 2 ^ 32) (hs : sc ≤ p.snapshot)
    (h : borrowOffset p ob = some p') : Lowered (fun _ o s => ob ≤ o ∧ sc ≤ s) p p' := by
  rw [borrowOffset, keyOffsetMax, keySnapshotMax] at h
  split_ifs at h with hlow hino
  · obtain rfl := Option.some.inj h
    refine ⟨?_, ?_, Or.inr ⟨rfl, ?_⟩, ?_, fun i o s hs ho hs' hle => ?_⟩ <;>
      dsimp only [lexLe] at * <;> omega
  · obtain rfl := Option.some.inj h
    exact Lowered.refl ⟨Nat.not_lt.mp hlow, hs⟩ hp

theorem borrowOffset_none {p : LossyPos} {ob i o s : ℕ} (h : borrowOffset p ob = none)
    (ho : ob ≤ o) : ¬lexLe i o s p.inode p.offset p.snapshot := by
  rw [borrowOffset] at h
  split_ifs at h with hlow hino
  rw [lexLe]
  omega

section Borrow

variable {input : Bpos} {ia ob sc : ℕ} (hob : ob < 2 ^ 64) (hsc : sc < 2 ^ 32)
include hob hsc

/-- Borrowing gives the greatest fields that are not below the offsets of the format. -/
theorem lossyBorrow_spec {p : LossyPos} (h : lossyBorrow input ia ob sc = some p) :
    Lowered (fun i o s => ia ≤ i ∧ ob ≤ o ∧ sc ≤ s)
      ⟨input.inode, input.offset, input.snapshot, true⟩ p := by
  simp only [lossyBorrow, Option.bind_eq_bind, Option.bind_eq_some_iff] at h
  obtain ⟨p₁, h₁, p₂, h₂, h⟩ := h
  split_ifs at h with hlow
  obtain rfl := Option.some.inj h
  have hs := borrowSnapshot_spec hsc
    ⟨input.inode.isLt, input.offset.isLt, input.snapshot.isLt⟩ h₁
  have ho := hs.trans (borrowOffset_spec hob hsc hs.lt hs.ok h₂) fun _ _ _ hQ => hQ.2
  exact ho.trans (Lowered.refl ⟨Nat.not_lt.mp hlow, ho.ok⟩ ho.lt) fun _ _ _ hQ => hQ.2

/-- Where borrowing fails, no fields up to those of the position reach the offsets of the format. -/
theorem lossyBorrow_none (h : lossyBorrow input ia ob sc = none) {i o s : ℕ} (hi : ia ≤ i)
    (ho : ob ≤ o) (hs : sc ≤ s) (hobig : o < 2 ^ 64) (hsbig : s < 2 ^ 32) :
    ¬lexLe i o s input.inode input.offset input.snapshot := by
  intro hle
  rw [lossyBorrow] at h
  rcases h₁ : borrowSnapshot ⟨input.inode, input.offset, input.snapshot, true⟩ sc with _ | p₁
  · exact borrowSnapshot_none h₁ hs hle
  have hlow₁ := borrowSnapshot_spec hsc
    ⟨input.inode.isLt, input.offset.isLt, input.snapshot.isLt⟩ h₁
  have hle₁ := hlow₁.greatest i o s hs hobig hsbig hle
  rcases h₂ : borrowOffset p₁ ob with _ | p₂
  · exact borrowOffset_none h₂ ho hle₁
  have hle₂ := (borrowOffset_spec hob hsc hlow₁.lt hlow₁.ok h₂).greatest i o s ⟨ho, hs⟩ hobig hsbig
    hle₁
  rw [h₁, Option.bind_eq_bind, Option.bind_some, h₂, Option.bind_some] at h
  split_ifs at h with hlow
  rw [lexLe] at hle₂
  omega

end Borrow

/-- The fields that are written for those of a position that is not below the offsets of the
format. -/
def lossySaturate (a b c : ℕ × ℕ) (p : LossyPos) : LossyPos :=
  let p := if p.inode ≤ fieldTop a then p
    else ⟨fieldTop a, keyOffsetMax, keySnapshotMax, false⟩
  let p := if p.offset ≤ fieldTop b then p
    else ⟨p.inode, fieldTop b, keySnapshotMax, false⟩
  if p.snapshot ≤ fieldTop c then p else ⟨p.inode, p.offset, fieldTop c, false⟩

/-- Values in the ranges of a format. -/
def InRange (a b c : ℕ × ℕ) (i o s : ℕ) : Prop :=
  (a.2 ≤ i ∧ i ≤ fieldTop a) ∧ (b.2 ≤ o ∧ o ≤ fieldTop b) ∧ c.2 ≤ s ∧ s ≤ fieldTop c

theorem lossySaturate_spec {a b c : ℕ × ℕ} {p : LossyPos} (ha : a.2 + 2 ^ a.1 ≤ 2 ^ 64)
    (hb : b.2 + 2 ^ b.1 ≤ 2 ^ 64) (hc : c.2 + 2 ^ c.1 ≤ 2 ^ 32)
    (hp : p.inode < 2 ^ 64 ∧ p.offset < 2 ^ 64 ∧ p.snapshot < 2 ^ 32)
    (hok : a.2 ≤ p.inode ∧ b.2 ≤ p.offset ∧ c.2 ≤ p.snapshot) :
    Lowered (InRange a b c) p (lossySaturate a b c p) := by
  have hapos := Nat.two_pow_pos a.1
  have hbpos := Nat.two_pow_pos b.1
  have hcpos := Nat.two_pow_pos c.1
  have hatop : fieldTop a + 1 = a.2 + 2 ^ a.1 := by
    rw [fieldTop]
    omega
  have hbtop : fieldTop b + 1 = b.2 + 2 ^ b.1 := by
    rw [fieldTop]
    omega
  have hctop : fieldTop c + 1 = c.2 + 2 ^ c.1 := by
    rw [fieldTop]
    omega
  -- the inode
  obtain ⟨p₁, hp₁, h₁⟩ : ∃ p₁, p₁ = (if p.inode ≤ fieldTop a then p
      else ⟨fieldTop a, keyOffsetMax, keySnapshotMax, false⟩) ∧
      Lowered (fun i o s => (a.2 ≤ i ∧ i ≤ fieldTop a) ∧ b.2 ≤ o ∧ c.2 ≤ s) p p₁ := by
    refine ⟨_, rfl, ?_⟩
    rw [keyOffsetMax, keySnapshotMax]
    split_ifs with hle
    · exact Lowered.refl ⟨⟨hok.1, hle⟩, hok.2⟩ hp
    · refine ⟨?_, ?_, Or.inr ⟨rfl, ?_⟩, ?_, fun i o s hs ho hs' hle => ?_⟩ <;>
        dsimp only [lexLe] at * <;> omega
  have hok₁ := h₁.ok
  have hlt₁ := h₁.lt
  -- the offset
  obtain ⟨p₂, hp₂, h₂⟩ : ∃ p₂, p₂ = (if p₁.offset ≤ fieldTop b then p₁
      else ⟨p₁.inode, fieldTop b, keySnapshotMax, false⟩) ∧
      Lowered (fun i o s => (a.2 ≤ i ∧ i ≤ fieldTop a) ∧ (b.2 ≤ o ∧ o ≤ fieldTop b) ∧ c.2 ≤ s)
        p₁ p₂ := by
    refine ⟨_, rfl, ?_⟩
    rw [keySnapshotMax]
    split_ifs with hle
    · exact Lowered.refl ⟨hok₁.1, ⟨hok₁.2.1, hle⟩, hok₁.2.2⟩ hlt₁
    · refine ⟨?_, ?_, Or.inr ⟨rfl, ?_⟩, ?_, fun i o s hs ho hs' hle => ?_⟩ <;>
        dsimp only [lexLe] at * <;> omega
  have hok₂ := h₂.ok
  have hlt₂ := h₂.lt
  -- the snapshot
  have h₃ : Lowered (InRange a b c) p₂ (if p₂.snapshot ≤ fieldTop c then p₂
      else ⟨p₂.inode, p₂.offset, fieldTop c, false⟩) := by
    split_ifs with hle
    · exact Lowered.refl ⟨hok₂.1, hok₂.2.1, hok₂.2.2, hle⟩ hlt₂
    · refine ⟨?_, ?_, Or.inr ⟨rfl, ?_⟩, ?_, fun i o s hs ho hs' hle => ?_⟩ <;>
        dsimp only [lexLe, InRange] at * <;> omega
  subst hp₂ hp₁
  refine (h₁.trans h₂ ?_).trans h₃ ?_
  · intro i o s hQ
    exact ⟨hQ.1, hQ.2.1.1, hQ.2.2⟩
  · intro i o s hQ
    exact ⟨hQ.1, hQ.2.1, hQ.2.2.1⟩

/-- The bits and the ranges of the fields of a position. -/
theorem PackFormat.pos_fields (f : PackFormat) {a b c : ℕ × ℕ} {rest : List (ℕ × ℕ)}
    (hfields : f.fields = a :: b :: c :: rest) :
    a.2 + 2 ^ a.1 ≤ 2 ^ 64 ∧ b.2 + 2 ^ b.1 ≤ 2 ^ 64 ∧ c.2 + 2 ^ c.1 ≤ 2 ^ 32 ∧
      bkeyFormatKeyBits f.toBkeyFormat = a.1 + b.1 + c.1 := by
  have ha := (f.field_le (i := 0) (by decide)).2
  have hb := (f.field_le (i := 1) (by decide)).2
  have hc := (f.field_le (i := 2) (by decide)).2
  rw [hfields] at ha hb hc
  refine ⟨ha, hb, hc, ?_⟩
  rw [bkeyFormatKeyBits, hfields]
  simp only [List.take_succ_cons, List.take_zero, List.map_cons, List.map_nil, List.sum_cons,
    List.sum_nil]
  omega

/-- The words that are written where borrowing succeeds. -/
theorem bch2BkeyPackPosLossy_eq (f : PackFormat) (out : KeyWords) (p : Bpos) {a b c : ℕ × ℕ}
    {rest : List (ℕ × ℕ)} (hfields : f.fields = a :: b :: c :: rest) {l : LossyPos}
    (h : lossyBorrow p a.2 b.2 c.2 = some l)
    (hlow : Lowered (InRange a b c) l (lossySaturate a b c l))
    (hl : a.2 ≤ l.inode ∧ b.2 ≤ l.offset ∧ c.2 ≤ l.snapshot) :
    ∃ q words, KeyWords.bch2BkeyPackPosLossy out p f.toBkeyFormat =
        some (if (lossySaturate a b c l).exact then .exact else .smaller, words) ∧
      PosPacked f q words ∧ (q.inode : ℕ) = (lossySaturate a b c l).inode ∧
      (q.offset : ℕ) = (lossySaturate a b c l).offset ∧
      (q.snapshot : ℕ) = (lossySaturate a b c l).snapshot := by
  obtain ⟨ha, hb, hc, hkey⟩ := f.pos_fields hfields
  have hroom := keyBits_room f
  have hbits : a.1 ≤ 64 ∧ b.1 ≤ 64 ∧ c.1 ≤ 64 := by
    refine ⟨f.bits_le ?_, f.bits_le ?_, f.bits_le ?_⟩ <;> simp [hfields]
  obtain ⟨s, hs, hw⟩ := wrote_init f out
  -- the fields while they are written
  obtain ⟨s₁, hs₁, hw₁⟩ := setIncFieldLossy_spec (f := a) hw (by omega) hbits.1 hl.1
  obtain ⟨l₁, hl₁⟩ : ∃ l₁, l₁ = if l.inode ≤ fieldTop a then l
    else ⟨l.inode, keyOffsetMax, keySnapshotMax, false⟩ := ⟨_, rfl⟩
  have hoff : b.2 ≤ l₁.offset ∧ c.2 ≤ l₁.snapshot := by
    rw [hl₁, keyOffsetMax, keySnapshotMax]
    split_ifs
    · exact hl.2
    · dsimp only
      have := Nat.two_pow_pos b.1
      have := Nat.two_pow_pos c.1
      omega
  obtain ⟨s₂, hs₂, hw₂⟩ := setIncFieldLossy_spec (f := b) hw₁ (by omega) hbits.2.1 hoff.1
  obtain ⟨l₂, hl₂⟩ : ∃ l₂, l₂ = if l₁.offset ≤ fieldTop b then l₁
    else ⟨l₁.inode, l₁.offset, keySnapshotMax, false⟩ := ⟨_, rfl⟩
  have hsnap : c.2 ≤ l₂.snapshot := by
    rw [hl₂, keySnapshotMax]
    split_ifs
    · exact hoff.2
    · dsimp only
      have := Nat.two_pow_pos c.1
      omega
  obtain ⟨s₃, hs₃, hw₃⟩ := setIncFieldLossy_spec (f := c) hw₂ (by omega) hbits.2.2 hsnap
  -- They agree with those of the position that is packed.
  have hinode : (if l.inode ≤ fieldTop a then l
      else ⟨fieldTop a, keyOffsetMax, keySnapshotMax, false⟩) =
      ⟨min l.inode (fieldTop a), l₁.offset, l₁.snapshot, l₁.exact⟩ := by
    rw [hl₁]
    split_ifs with hle
    · rw [min_eq_left hle]
    · rw [min_eq_right (le_of_not_ge hle)]
  have hoffset (i : ℕ) : (if l₁.offset ≤ fieldTop b then ⟨i, l₁.offset, l₁.snapshot, l₁.exact⟩
      else ⟨i, fieldTop b, keySnapshotMax, false⟩ : LossyPos) =
      ⟨i, min l₁.offset (fieldTop b), l₂.snapshot, l₂.exact⟩ := by
    rw [hl₂]
    split_ifs with hle
    · rw [min_eq_left hle]
    · rw [min_eq_right (le_of_not_ge hle)]
  have hsnapshot (i o : ℕ) : (if l₂.snapshot ≤ fieldTop c then ⟨i, o, l₂.snapshot, l₂.exact⟩
      else ⟨i, o, fieldTop c, false⟩ : LossyPos) =
      ⟨i, o, min l₂.snapshot (fieldTop c), l₂.exact && decide (l₂.snapshot ≤ fieldTop c)⟩ := by
    split_ifs with hle
    · rw [min_eq_left hle, decide_eq_true hle, Bool.and_true]
    · rw [min_eq_right (le_of_not_ge hle), decide_eq_false hle, Bool.and_false]
  obtain ⟨r, hr⟩ : ∃ r, r = lossySaturate a b c l := ⟨_, rfl⟩
  have hsame : r.inode = min l.inode (fieldTop a) ∧ r.offset = min l₁.offset (fieldTop b) ∧
      r.snapshot = min l₂.snapshot (fieldTop c) ∧
      r.exact = (l₂.exact && decide (l₂.snapshot ≤ fieldTop c)) := by
    rw [hr, lossySaturate, hinode]
    dsimp only
    rw [hoffset, hsnapshot]
    exact ⟨rfl, rfl, rfl, rfl⟩
  rw [← hr] at hlow ⊢
  obtain ⟨q, hqi, hqo, hqs⟩ : ∃ q : Bpos, (q.inode : ℕ) = r.inode ∧ (q.offset : ℕ) = r.offset ∧
      (q.snapshot : ℕ) = r.snapshot :=
    ⟨⟨⟨r.inode, hlow.lt.1⟩, ⟨r.offset, hlow.lt.2.1⟩, ⟨r.snapshot, hlow.lt.2.2⟩⟩, rfl, rfl, rfl⟩
  have hfit : ∀ x ∈ posFields f.toBkeyFormat q, fieldFits x.1 x.2 = true := by
    obtain ⟨hi, ho, hsn⟩ := hlow.ok
    have := Nat.two_pow_pos a.1
    have := Nat.two_pow_pos b.1
    have := Nat.two_pow_pos c.1
    rw [fieldTop] at hi ho hsn
    rw [posFits_iff hfields]
    omega
  have hnum : 0 + (min l.inode (fieldTop a) - a.2) * 2 ^ (64 * f.keyU64s - a.1) +
        (min l₁.offset (fieldTop b) - b.2) * 2 ^ (64 * f.keyU64s - a.1 - b.1) +
        (min l₂.snapshot (fieldTop c) - c.2) * 2 ^ (64 * f.keyU64s - a.1 - b.1 - c.1) =
      posBits f.toBkeyFormat q * 2 ^ (64 * f.keyU64s - bkeyFormatKeyBits f.toBkeyFormat) := by
    rw [posBits_eq hfields, hqi, hqo, hqs, hsame.1, hsame.2.1, hsame.2.2.1, hkey]
    obtain ⟨t, ht⟩ := Nat.exists_eq_add_of_le (hkey ▸ keyBits_le f)
    have h₁ : 64 * f.keyU64s - a.1 = b.1 + c.1 + t := by omega
    have h₂ : b.1 + c.1 + t - b.1 = c.1 + t := by omega
    have h₃ : c.1 + t - c.1 = t := by omega
    have h₄ : 64 * f.keyU64s - (a.1 + b.1 + c.1) = t := by omega
    rw [h₁, h₂, h₃, h₄]
    ring
  rw [hnum] at hw₃
  obtain ⟨words, hwords, hpacked⟩ := finishPos_spec f hw₃ hfit
  refine ⟨q, words, ?_, hpacked, hqi, hqo, hqs⟩
  simp only [KeyWords.bch2BkeyPackPosLossy, hs, hfields, h, hs₁, Option.bind_eq_bind,
    Option.bind_some, decide_eq_true_eq, ← hl₁, hs₂, ← hl₂, hs₃, hwords, hsame.2.2.2]

/-! ### Reading the position back -/

/-- The header is below the fields. -/
theorem PosPacked.hasPos {f : PackFormat} {p : Bpos} {words : KeyWords}
    (h : PosPacked f p words) : HasPos f p words := by
  have hroom := keyBits_room f
  obtain ⟨header, hheader, hnum⟩ := h.num
  refine ⟨?_, h.u64s.ge, h.fits, ?_⟩
  · rw [h.format]
    rfl
  · rw [hnum, mul_pow_add_div (hheader.trans_le (Nat.pow_le_pow_right Nat.two_pos (by omega)))]

/-- A position is read back from the highest bits. -/
theorem HasPos.unpackPos {f : PackFormat} {p : Bpos} {words : KeyWords}
    (h : HasPos f p words) : KeyWords.bkeyUnpackPos f.toBkeyFormat words = some p := by
  obtain ⟨a, b, c, d, e, g, hfields⟩ := exists_fields f
  have hroom := keyBits_room f
  have hguard : f.fields.length = 6 ∧ f.keyU64s ≤ words.u64s.toNat ∧
      words.format &&& 0x7f = keyFormatLocalBtree := ⟨f.nrFields, h.le, h.format⟩
  set fields := (posFields f.toBkeyFormat p).map fun x => (x.1, x.2 - x.1.2) with hlist
  have hraw : fields.map (fun x => (x.1.1, x.2)) = rawFields (posFields f.toBkeyFormat p) := by
    rw [hlist, List.map_map]
    rfl
  have hmem : ∀ x ∈ fields, x.1.1 ≤ 64 ∧ x.2 < 2 ^ x.1.1 := by
    intro x hx
    obtain ⟨y, hy, rfl⟩ := List.mem_map.mp hx
    exact ⟨(posFields_bounds f p hy).1, (of_decide_eq_true (h.fits y hy)).2⟩
  have hbits := fieldBits_posFields f p
  rw [← hraw] at hbits
  have hread := @getIncFields_of_top f words fields (fun x hx => (hmem x hx).1)
    (fun x hx => (hmem x hx).2) (hbits ▸ keyBits_le f) (by rw [hbits, h.num, hraw]; rfl)
  have hfst : fields.map Prod.fst = f.fields.take 3 := by
    rw [hlist, posFields, hfields]
    rfl
  have hsnd : fields.map (fun x => (x.2 + x.1.2) % 2 ^ 64) =
      [p.inode.val, p.offset.val, p.snapshot.val] := by
    have hle := (posFits_iff hfields).mp h.fits
    have hi := p.inode.isLt
    have ho := p.offset.isLt
    have hs := p.snapshot.isLt
    rw [hlist, posFields, hfields]
    simp only [List.zip_cons_cons, List.zip_nil_right, List.map_cons, List.map_nil,
      List.cons.injEq, and_true]
    omega
  rw [hfst, hsnd] at hread
  rw [KeyWords.bkeyUnpackPos, if_pos hguard, hread]
  simp

/-- A position is read back from the words it is packed to. -/
theorem PosPacked.unpackPos {f : PackFormat} {p : Bpos} {words : KeyWords}
    (h : PosPacked f p words) : KeyWords.bkeyUnpackPos f.toBkeyFormat words = some p :=
  h.hasPos.unpackPos

/-- The position that is packed for another one: itself, or the greatest below it that fits. -/
structure Lossy (f : PackFormat) (p q : Bpos) (exact : Bool) : Prop where
  le : q ≤ p
  greatest : ∀ q' ≤ p, (∀ x ∈ posFields f.toBkeyFormat q', fieldFits x.1 x.2 = true) → q' ≤ q
  eq_iff : exact = true ↔ q = p

/-- What is packed for a position where something is. -/
theorem bch2BkeyPackPosLossy_cases (f : PackFormat) (out : KeyWords) (p : Bpos) :
    (∃ words, KeyWords.bch2BkeyPackPosLossy out p f.toBkeyFormat = some (.fail, words) ∧
        ∀ q ≤ p, ¬∀ x ∈ posFields f.toBkeyFormat q, fieldFits x.1 x.2 = true) ∨
      ∃ exact q words, KeyWords.bch2BkeyPackPosLossy out p f.toBkeyFormat =
          some (if exact then .exact else .smaller, words) ∧
        PosPacked f q words ∧ Lossy f p q exact := by
  obtain ⟨a, b, c, d, e, g, hfields⟩ := exists_fields f
  obtain ⟨ha, hb, hc, -⟩ := f.pos_fields hfields
  have hapos := Nat.two_pow_pos a.1
  have hbpos := Nat.two_pow_pos b.1
  have hcpos := Nat.two_pow_pos c.1
  have hrange : ∀ q : Bpos, (∀ x ∈ posFields f.toBkeyFormat q, fieldFits x.1 x.2 = true) ↔
      InRange a b c q.inode q.offset q.snapshot := by
    intro q
    rw [posFits_iff hfields, InRange, fieldTop, fieldTop, fieldTop]
    omega
  rcases h : lossyBorrow p a.2 b.2 c.2 with _ | l
  · -- Nothing up to the position is in the ranges.
    obtain ⟨s, hs, -⟩ := wrote_init f out
    refine Or.inl ⟨fun i => if i < f.keyU64s then 0 else out i, ?_, fun q hq hfit => ?_⟩
    · simp only [KeyWords.bch2BkeyPackPosLossy, hs, hfields, h]
    · have hin := (hrange q).mp hfit
      exact lossyBorrow_none (by omega) (by omega) h hin.1.1 hin.2.1.1 hin.2.2.1 q.offset.isLt
        q.snapshot.isLt ((Bpos.le_iff_lexLe q p).mp hq)
  · have hborrow := lossyBorrow_spec (by omega) (by omega) h
    have hsaturate := lossySaturate_spec ha hb hc hborrow.lt hborrow.ok
    have hlow := hborrow.trans hsaturate fun _ _ _ hQ => ⟨hQ.1.1, hQ.2.1.1, hQ.2.2.1⟩
    obtain ⟨q, words, heq, hpacked, hi, ho, hsn⟩ :=
      bch2BkeyPackPosLossy_eq f out p hfields h hsaturate hborrow.ok
    generalize lossySaturate a b c l = r at hlow heq hi ho hsn
    refine Or.inr ⟨r.exact, q, words, heq, hpacked, ?_, fun q' hq' hfit => ?_, ?_⟩
    · rw [Bpos.le_iff_lexLe, hi, ho, hsn]
      exact hlow.le
    · rw [Bpos.le_iff_lexLe, hi, ho, hsn]
      exact hlow.greatest _ _ _ ((hrange q').mp hfit) q'.offset.isLt q'.snapshot.isLt
        ((Bpos.le_iff_lexLe q' p).mp hq')
    · have hsame : p ≤ q ↔ lexLe p.inode p.offset p.snapshot r.inode r.offset r.snapshot := by
        rw [Bpos.le_iff_lexLe, hi, ho, hsn]
      have hle : q ≤ p := by
        rw [Bpos.le_iff_lexLe, hi, ho, hsn]
        exact hlow.le
      rcases hlow.mark with hself | ⟨hexact, hless⟩
      · rw [hself] at hsame ⊢
        refine iff_of_true rfl (le_antisymm hle (hsame.mpr ?_))
        rw [lexLe]
        dsimp only
        omega
      · rw [hexact]
        exact iff_of_false (by simp) fun heq => hless (hsame.mp heq.ge)

/-- Positions up to which none is in the format are refused, one that is in the format is packed
itself, and for another one the greatest below it that is. -/
theorem bch2BkeyPackPosLossy_greatest (f : PackFormat) (out : KeyWords) (p : Bpos) :
    ∃ ret words, KeyWords.bch2BkeyPackPosLossy out p f.toBkeyFormat = some (ret, words) ∧
      (ret = .exact ↔ ∀ x ∈ posFields f.toBkeyFormat p, fieldFits x.1 x.2 = true) ∧
      (ret = .fail ↔ ∀ q ≤ p, ¬∀ x ∈ posFields f.toBkeyFormat q, fieldFits x.1 x.2 = true) ∧
      (ret = .exact → KeyWords.bkeyUnpackPos f.toBkeyFormat words = some p) ∧
      (ret = .smaller → ∃ q, KeyWords.bkeyUnpackPos f.toBkeyFormat words = some q ∧
        IsGreatest {q | q < p ∧ ∀ x ∈ posFields f.toBkeyFormat q, fieldFits x.1 x.2 = true} q) := by
  rcases bch2BkeyPackPosLossy_cases f out p with ⟨words, heq, hnone⟩ |
    ⟨exact, q, words, heq, hpacked, hlossy⟩
  · exact ⟨.fail, words, heq, iff_of_false (by simp) (hnone p le_rfl), iff_of_true rfl hnone,
      by simp, by simp⟩
  · have hunpack := hpacked.unpackPos
    refine ⟨_, words, heq, ?_⟩
    rcases Bool.eq_false_or_eq_true exact with rfl | rfl
    · have hqp := hlossy.eq_iff.mp rfl
      rw [hqp] at hunpack hpacked
      exact ⟨iff_of_true rfl hpacked.fits,
        iff_of_false (by simp) fun hnone => hnone p le_rfl hpacked.fits, fun _ => hunpack, by simp⟩
    · have hne : q ≠ p := fun heq => Bool.false_ne_true (hlossy.eq_iff.mpr heq)
      have hlt : q < p := lt_of_le_of_ne hlossy.le hne
      refine ⟨iff_of_false (by simp) fun hfit => ?_, iff_of_false (by simp) fun hnone =>
        hnone q hlossy.le hpacked.fits, by simp, fun _ => ⟨q, hunpack, ⟨hlt, hpacked.fits⟩, ?_⟩⟩
      · exact absurd hlt (not_lt.mpr (hlossy.greatest p le_rfl hfit))
      · exact fun q' hq' => hlossy.greatest q' hq'.1.le hq'.2

end Subvol

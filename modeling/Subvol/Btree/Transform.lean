import Subvol.Btree.PackCmp

/-!
# Moving keys to another format

`bch2_bkey_transform` reads the fields of a packed key one after the other and writes each into
another format at once. It takes an unpacked key as one that is packed in `BKEY_FORMAT_CURRENT`,
whose fields lie just where the fields of `bkey` do. A key that does not fit is unpacked, over what
was written so far.

## Main definitions

* `KeyWords.head`, `KeyWords.setHead`: an unpacked key in its words.
* `KeyWords.bch2BkeyTransform`, `KeyWords.bch2BkeyUnpack`.
* `ReadIn`: a key that can be read in a format.

## Main results

* `getIncFields_current`: the layout of an unpacked key is that of its format.
* `bch2BkeyTransform_spec`: a key is transformed exactly when it can be packed, to the same key.
-/

namespace Subvol

open Lib

namespace KeyWords

/-! ### Unpacked keys -/

/-- A `bkey` in its words. -/
def head (words : KeyWords) : BkeyHead where
  u64s := words.u64s
  format := words.format
  type := words.type
  pad := UInt8.ofNat (field 24 8 (words 0).toNat)
  versionHi := Fin.ofNat (2 ^ 32) (field 32 32 (words 1).toNat)
  versionLo := Fin.ofNat (2 ^ 64)
    (field 0 32 (words 1).toNat * 2 ^ 32 + field 32 32 (words 0).toNat)
  size := Fin.ofNat (2 ^ 32) (field 0 32 (words 2).toNat)
  p := words.pos

/-- A `bkey` is written into its words. -/
def setHead (out : KeyWords) (k : BkeyHead) : KeyWords
  | 0 => BitVec.ofNat 64 (k.u64s.toNat + k.format.toNat * 2 ^ 8 + k.type.toNat * 2 ^ 16 +
      k.pad.toNat * 2 ^ 24 + k.versionLo % 2 ^ 32 * 2 ^ 32)
  | 1 => BitVec.ofNat 64 (k.versionLo / 2 ^ 32 + k.versionHi * 2 ^ 32)
  | 2 => BitVec.ofNat 64 (k.size + k.p.snapshot * 2 ^ 32)
  | 3 => BitVec.ofNat 64 k.p.offset
  | 4 => BitVec.ofNat 64 k.p.inode
  | i => out i

/-- Some words are copied. -/
def copyFrom (out : KeyWords) (dst : ℕ) (input : KeyWords) (src n : ℕ) : KeyWords := fun i =>
  if dst ≤ i ∧ i < dst + n then input (src + (i - dst)) else out i

/-- `bkeyp_key_u64s`. -/
def bkeypKeyU64s (f : BkeyFormat) (words : KeyWords) : ℕ :=
  if words.packed then f.keyU64s else bkeyU64s

/-- `bkeyp_val_u64s`; a key that is shorter than its fields has none. -/
def bkeypValU64s (f : BkeyFormat) (words : KeyWords) : Option ℕ :=
  if words.bkeypKeyU64s f ≤ words.u64s.toNat then
    some (words.u64s.toNat - words.bkeypKeyU64s f)
  else none

/-- `bch2_bkey_unpack`. -/
def bch2BkeyUnpack (f : BkeyFormat) (dst src : KeyWords) : Option KeyWords := do
  let dst ← if src.packed then (bch2BkeyUnpackKey f src).map dst.setHead
    else some (dst.copyFrom 0 src 0 bkeyU64s)
  let n ← src.bkeypValU64s f
  some (dst.copyFrom bkeyU64s src (src.bkeypKeyU64s f) n)

/-! ### Transforming -/

/-- The loop of `bch2_bkey_transform`: whether all fields were written, and the state behind. -/
def transformFields : UnpackState → PackState → List ((ℕ × ℕ) × (ℕ × ℕ)) →
    Option (Bool × PackState)
  | _, out, [] => some (true, out)
  | s, out, (inF, outF) :: rest =>
    match getIncField s inF with
    | none => none
    | some (value, s) =>
      match setIncField out outF value.toNat with
      | .panic => none
      | .misfit => some (false, out)
      | .ok out => transformFields s out rest

/-- `bch2_bkey_transform`: whether it succeeded, and the words. -/
def bch2BkeyTransform (outF : BkeyFormat) (out : KeyWords) (inF : BkeyFormat) (input : KeyWords) :
    Option (Bool × KeyWords) :=
  let outU64s := outF.keyU64s + input.u64s.toNat - inF.keyU64s
  if inF.keyU64s ≤ input.u64s.toNat ∧ outU64s ≤ 255 then do
    let outState ← packStateInit outF fun i => if i < outF.keyU64s then 0 else out i
    let inState ← unpackStateInit inF input
    let (fits, outState) ← transformFields inState outState (inF.fields.zip outF.fields)
    if fits then
      let words ← packStateFinish outF outState
      let words := ((words.setByte 0 (UInt8.ofNat outU64s)).setByte 8
        (input.format &&& 0x80)).setByte 16 input.type
      some (true, words.copyFrom outF.keyU64s input inF.keyU64s
        (input.u64s.toNat - inF.keyU64s))
    else some (false, outState.words)
  else none

/-! ### What a stored key stands for -/

/-- The key, as it is unpacked. -/
def unpackHead (f : BkeyFormat) (words : KeyWords) : Option BkeyHead :=
  if words.packed then bch2BkeyUnpackKey f words else some words.head

/-- The words of the value behind `keyU64s` words of the key. -/
def value (words : KeyWords) (keyU64s : ℕ) : List (BitVec 64) :=
  (List.range (words.u64s.toNat - keyU64s)).map fun i => words (keyU64s + i)

end KeyWords

/-! ### The layout of an unpacked key -/

/-- `BKEY_FORMAT_CURRENT`, as a format that is accepted. -/
def currentFormat : PackFormat where
  toBkeyFormat := bkeyFormatCurrent
  nrFields := rfl
  keyU64s_pos := by decide
  keyU64s_le := by decide
  overflows := by decide
  room := by decide

/-- The number that the fields of an unpacked key make up. -/
theorem fieldsNat_current (k : BkeyHead) :
    fieldsNat (rawFields (bkeyFormatCurrent.fields.zip k.fieldValues)) =
      ((((k.p.inode.val * 2 ^ 64 + k.p.offset) * 2 ^ 32 + k.p.snapshot) * 2 ^ 32 + k.size) * 2 ^ 32 +
        k.versionHi) * 2 ^ 64 + k.versionLo := by
  simp only [BkeyHead.fieldValues, bkeyFormatCurrent, rawFields, List.zip_cons_cons,
    List.zip_nil_right, List.map_cons, List.map_nil, fieldsNat, fieldBits_cons, fieldBits_nil,
    Nat.sub_zero]
  ring

/-- The two halves of a word. -/
theorem word_halves (w : BitVec 64) :
    w.toNat = field 32 32 w.toNat * 2 ^ 32 + field 0 32 w.toNat ∧ field 32 32 w.toNat < 2 ^ 32 ∧
      field 0 32 w.toNat < 2 ^ 32 := by
  have hw := w.isLt
  rw [field, field]
  omega

/-- The fields of `bkey` stand where its format has them. -/
theorem head_fields (words : KeyWords) :
    wordsNat words 5 / 2 ^ 32 =
      fieldsNat (rawFields (bkeyFormatCurrent.fields.zip words.head.fieldValues)) := by
  obtain ⟨h₀, hh₀, hl₀⟩ := word_halves (words 0)
  obtain ⟨h₁, hh₁, hl₁⟩ := word_halves (words 1)
  obtain ⟨h₂, hh₂, hl₂⟩ := word_halves (words 2)
  have hhi : words.head.versionHi.val = field 32 32 (words 1).toNat := Nat.mod_eq_of_lt hh₁
  have hlo : words.head.versionLo.val =
      field 0 32 (words 1).toNat * 2 ^ 32 + field 32 32 (words 0).toNat :=
    Nat.mod_eq_of_lt (by omega)
  have hsize : words.head.size.val = field 0 32 (words 2).toNat := Nat.mod_eq_of_lt hl₂
  have hsnapshot : words.head.p.snapshot.val = field 32 32 (words 2).toNat := Nat.mod_eq_of_lt hh₂
  have hoffset : words.head.p.offset.val = (words 3).toNat := rfl
  have hinode : words.head.p.inode.val = (words 4).toNat := rfl
  rw [fieldsNat_current, hinode, hoffset, hsnapshot, hsize, hhi, hlo]
  have hsum : wordsNat words 5 = (((((((words 4).toNat * 2 ^ 64 + (words 3).toNat) * 2 ^ 32 +
      field 32 32 (words 2).toNat) * 2 ^ 32 + field 0 32 (words 2).toNat) * 2 ^ 32 +
        field 32 32 (words 1).toNat) * 2 ^ 64) + (field 0 32 (words 1).toNat * 2 ^ 32 +
          field 32 32 (words 0).toNat)) * 2 ^ 32 + field 0 32 (words 0).toNat := by
    simp only [wordsNat]
    conv_lhs => rw [h₀, h₁, h₂]
    ring
  rw [hsum, mul_pow_add_div hl₀]

theorem current_fits (k : BkeyHead) :
    ∀ x ∈ bkeyFormatCurrent.fields.zip k.fieldValues, fieldFits x.1 x.2 = true := by
  have hi := k.p.inode.isLt
  have ho := k.p.offset.isLt
  have hs := k.p.snapshot.isLt
  have hz := k.size.isLt
  have hh := k.versionHi.isLt
  have hl := k.versionLo.isLt
  simp only [bkeyFormatCurrent, BkeyHead.fieldValues, List.zip_cons_cons, List.zip_nil_right,
    List.forall_mem_cons, List.not_mem_nil, false_implies, implies_true, and_true, fieldFits,
    decide_eq_true_eq]
  omega

/-- A key that can be read in a format, and what it stands for. -/
inductive ReadIn (f : PackFormat) (words : KeyWords) (k : BkeyHead) : Prop
  /-- It is packed, as a whole no longer than an unpacked key can be. -/
  | packed (hformat : words.format &&& 0x7f = keyFormatLocalBtree)
      (hle : f.keyU64s ≤ words.u64s.toNat)
      (hlen : words.u64s.toNat - f.keyU64s + bkeyU64s ≤ 255)
      (hunpack : KeyWords.bch2BkeyUnpackKey f.toBkeyFormat words = some k)
  /-- It is unpacked. -/
  | unpacked (hf : f = currentFormat) (hformat : words.format &&& 0x7f = keyFormatCurrent)
      (hle : bkeyU64s ≤ words.u64s.toNat) (hhead : k = words.head)

/-- The header of a key that can be read, and its fields. -/
structure ReadSpec (f : PackFormat) (words : KeyWords) (k : BkeyHead) : Prop where
  le : f.keyU64s ≤ words.u64s.toNat
  u64s : k.u64s.toNat = words.u64s.toNat - f.keyU64s + bkeyU64s
  format : k.format &&& 0x80 = words.format &&& 0x80
  current : k.format &&& 0x7f = keyFormatCurrent
  type : k.type = words.type
  fields : (unpackStateInit f.toBkeyFormat words).bind (getIncFields · f.fields) =
    some k.fieldValues

theorem ReadIn.spec {f : PackFormat} {words : KeyWords} {k : BkeyHead} (h : ReadIn f words k) :
    ReadSpec f words k := by
  cases h with
  | packed hformat hle hlen hunpack =>
    obtain ⟨k', has, hcurrent, hu64s, hfit⟩ := exists_packedAs f hformat hle hlen
    rw [has.unpack hfit hcurrent hu64s] at hunpack
    obtain rfl := Option.some.inj hunpack
    have hread := getIncFields_packed f rfl (fun v hv => k'.fieldValues_lt hv) hfit 6 has.fields
    rw [← f.nrFields, List.take_length, f.nrFields] at hread
    have hlen' := has.u64s
    refine ⟨hle, ?_, ?_, hcurrent, has.type.symm, ?_⟩
    · dsimp only
      rw [bkeyU64s] at hlen' ⊢
      omega
    · dsimp only
      rw [has.format, UInt8.and_assoc]
      rfl
    · exact hread
  | unpacked hf hformat hle hhead =>
    subst hf hhead
    refine ⟨hle, (Nat.sub_add_cancel hle).symm, rfl, hformat, rfl, ?_⟩
    have hread := getIncFields_packed currentFormat rfl (fun v hv => words.head.fieldValues_lt hv)
      (current_fits words.head) 6 (head_fields words)
    exact hread

/-! ### The loop -/

/-- The fields are written as those of a key that was read before. -/
theorem transformFields_eq {s : UnpackState} {out : PackState} {l : List ((ℕ × ℕ) × (ℕ × ℕ))}
    {vs : List ℕ} (h : getIncFields s (l.map Prod.fst) = some vs) :
    (∀ out', setIncFields out ((l.map Prod.snd).zip vs) = .ok out' →
      KeyWords.transformFields s out l = some (true, out')) ∧
    (setIncFields out ((l.map Prod.snd).zip vs) = .misfit →
      ∃ out', KeyWords.transformFields s out l = some (false, out')) := by
  induction l generalizing s out vs with
  | nil =>
    rw [List.map_nil, List.zip_nil_left, setIncFields]
    refine ⟨fun out' hout => ?_, by rintro ⟨⟩⟩
    rw [KeyWords.transformFields, PackRes.ok.inj hout]
  | cons x rest ih =>
    obtain ⟨inF, outF⟩ := x
    rw [List.map_cons, getIncFields] at h
    split at h
    · next v s' hget =>
      obtain ⟨vs', hvs, rfl⟩ := Option.map_eq_some_iff.mp h
      rw [List.map_cons, List.zip_cons_cons, setIncFields, KeyWords.transformFields, hget]
      dsimp only
      cases setIncField out outF v.toNat with
      | panic => exact ⟨by rintro _ ⟨⟩, by rintro ⟨⟩⟩
      | misfit => exact ⟨by rintro _ ⟨⟩, fun _ => ⟨out, rfl⟩⟩
      | ok out₁ => exact ih hvs
    · cases h

/-- The value is written behind the fields. -/
theorem copyFrom_of_lt {out input : KeyWords} {dst src n i : ℕ} (h : i < dst) :
    out.copyFrom dst input src n i = out i := by
  rw [KeyWords.copyFrom, if_neg (by omega)]

theorem copyFrom_inside {out input : KeyWords} {dst src n i : ℕ} (h : i < n) :
    out.copyFrom dst input src n (dst + i) = input (src + i) := by
  rw [KeyWords.copyFrom, if_pos (by omega), Nat.add_sub_cancel_left]

/-- A packed key is told by the words of its fields. -/
theorem PackedAs.congr {f : PackFormat} {k : BkeyHead} {words words' : KeyWords}
    (h : PackedAs f k words) (hsame : ∀ i < f.keyU64s, words' i = words i) :
    PackedAs f k words' := by
  have hzero := hsame 0 f.keyU64s_pos
  refine ⟨?_, ?_, ?_, ?_⟩
  · rw [← h.u64s, KeyWords.u64s, KeyWords.u64s, hzero]
  · rw [← h.format, KeyWords.format, KeyWords.format, hzero]
  · rw [← h.type, KeyWords.type, KeyWords.type, hzero]
  · rw [← h.fields, wordsNat_congr hsame]

theorem value_copyFrom {out input : KeyWords} {dst src n : ℕ}
    (hout : (out.copyFrom dst input src n).u64s.toNat = dst + n)
    (hinput : input.u64s.toNat = src + n) :
    (out.copyFrom dst input src n).value dst = input.value src := by
  rw [KeyWords.value, KeyWords.value, hout, hinput, Nat.add_sub_cancel_left,
    Nat.add_sub_cancel_left]
  exact List.map_congr_left fun i hi => copyFrom_inside (List.mem_range.mp hi)

/-- A key is transformed exactly when it could be packed, and then to the same key with the same
value. -/
theorem bch2BkeyTransform_spec (inF outF : PackFormat) (out input : KeyWords) {k : BkeyHead}
    (h : ReadIn inF input k) :
    ∃ ok words, KeyWords.bch2BkeyTransform outF.toBkeyFormat out inF.toBkeyFormat input =
        some (ok, words) ∧
      (ok = true ↔ ∃ packed, KeyWords.bch2BkeyPackKey out k outF.toBkeyFormat = .ok packed) ∧
      (ok = true → words.format &&& 0x7f = keyFormatLocalBtree ∧
        KeyWords.bch2BkeyUnpackKey outF.toBkeyFormat words = some { k with pad := 0 } ∧
        words.value outF.keyU64s = input.value inF.keyU64s ∧ PackedAs outF k words ∧
        ∀ x ∈ outF.fields.zip k.fieldValues, fieldFits x.1 x.2 = true) := by
  have hspec := h.spec
  have hlen := hspec.u64s
  have hle := hspec.le
  have hle5 := outF.keyU64s_le
  have hk := k.u64s.toNat_lt
  rw [bkeyU64s] at hlen
  have hu64s : outF.keyU64s + k.u64s.toNat - bkeyU64s ≤ 255 := by
    rw [bkeyU64s]
    omega
  have hguard : inF.keyU64s ≤ input.u64s.toNat ∧
      outF.keyU64s + input.u64s.toNat - inF.keyU64s ≤ 255 := by omega
  obtain ⟨s, hs, hwrote⟩ := wrote_init outF out
  obtain ⟨s', hs', hget⟩ := Option.bind_eq_some_iff.mp hspec.fields
  have hfst : (inF.fields.zip outF.fields).map Prod.fst = inF.fields :=
    List.map_fst_zip (by rw [inF.nrFields, outF.nrFields])
  have hsnd : (inF.fields.zip outF.fields).map Prod.snd = outF.fields :=
    List.map_snd_zip (by rw [inF.nrFields, outF.nrFields])
  rw [← hfst] at hget
  obtain ⟨hwritten, hmissed⟩ := @transformFields_eq _ s _ _ hget
  rw [hsnd] at hwritten hmissed
  have hsum : fieldBits (rawFields (outF.fields.zip k.fieldValues)) = fieldBits outF.fields := by
    rw [← packedFields_map]
    exact fieldBits_packedFields outF rfl
  have hroom := outF.room
  obtain ⟨hfits, hmisfit⟩ := setIncFields_spec hwrote
    (l := outF.fields.zip k.fieldValues) (by rw [hsum]; omega)
    (fun x hx => outF.bits_le (List.of_mem_zip hx).1)
    (fun x hx => k.fieldValues_lt (List.of_mem_zip hx).2)
  rw [KeyWords.bch2BkeyTransform, if_pos hguard, hs, hs']
  simp only [Option.bind_eq_bind, Option.bind_some]
  rcases bch2BkeyPackKey_cases outF k out hspec.current hu64s with ⟨hfit, packed, hpack, -⟩ |
    ⟨hfit, hpack⟩
  · -- Every field fits.
    obtain ⟨out', hout', hw⟩ := hfits hfit
    rw [hsum, Nat.zero_add] at hw
    rw [hwritten out' hout', Option.bind_some, if_pos rfl, packStateFinish, if_pos hw.p_lt,
      Option.bind_some]
    have hlength : outF.keyU64s + input.u64s.toNat - inF.keyU64s =
        outF.keyU64s + k.u64s.toNat - bkeyU64s := by
      rw [bkeyU64s]
      omega
    have hpacked := packedAs_setBytes outF k hu64s hw.num
    rw [← hlength, hspec.format, hspec.type] at hpacked
    refine ⟨true, _, rfl, iff_of_true rfl ⟨packed, hpack⟩, fun _ => ?_⟩
    have hsame := hpacked.congr fun i hi => @copyFrom_of_lt _ input _ inF.keyU64s
      (input.u64s.toNat - inF.keyU64s) _ hi
    refine ⟨?_, hsame.unpack hfit hspec.current (by rw [hspec.u64s, bkeyU64s]; omega),
      value_copyFrom ?_ ?_, hsame, hfit⟩
    · rw [hsame.format]
      exact (format_byte k.format).1
    · rw [hsame.u64s, bkeyU64s]
      omega
    · omega
  · obtain ⟨out', hout'⟩ := hmissed (hmisfit hfit)
    rw [hout', Option.bind_some, if_neg Bool.false_ne_true]
    refine ⟨false, out'.words, rfl, iff_of_false Bool.false_ne_true ?_,
      fun hok => absurd hok Bool.false_ne_true⟩
    rintro ⟨packed, hok⟩
    rw [hpack] at hok
    cases hok

/-! ### Unpacking -/

/-- The bytes and the high half of the first word of a `bkey`. -/
theorem setHead_zero (out : KeyWords) (k : BkeyHead) :
    field 0 8 (out.setHead k 0).toNat = k.u64s.toNat ∧
      field 8 8 (out.setHead k 0).toNat = k.format.toNat ∧
      field 16 8 (out.setHead k 0).toNat = k.type.toNat ∧
      field 24 8 (out.setHead k 0).toNat = k.pad.toNat ∧
      field 32 32 (out.setHead k 0).toNat = k.versionLo.val % 2 ^ 32 := by
  have hu := k.u64s.toNat_lt
  have hf := k.format.toNat_lt
  have ht := k.type.toNat_lt
  have hp := k.pad.toNat_lt
  have hlo := Nat.mod_lt k.versionLo.val (Nat.two_pow_pos 32)
  rw [KeyWords.setHead, BitVec.toNat_ofNat, Nat.mod_eq_of_lt (by omega)]
  simp only [field]
  omega

/-- The halves of the next two words. -/
theorem setHead_halves (out : KeyWords) (k : BkeyHead) :
    (field 0 32 (out.setHead k 1).toNat = k.versionLo.val / 2 ^ 32 ∧
      field 32 32 (out.setHead k 1).toNat = k.versionHi.val) ∧
      field 0 32 (out.setHead k 2).toNat = k.size.val ∧
      field 32 32 (out.setHead k 2).toNat = k.p.snapshot.val := by
  have hlo := k.versionLo.isLt
  have hhi := k.versionHi.isLt
  have hsize := k.size.isLt
  have hsnapshot := k.p.snapshot.isLt
  rw [KeyWords.setHead, KeyWords.setHead, BitVec.toNat_ofNat, BitVec.toNat_ofNat,
    Nat.mod_eq_of_lt (by omega), Nat.mod_eq_of_lt (by omega)]
  simp only [field]
  omega

/-- A `bkey` is read back from its words. -/
theorem head_setHead (out : KeyWords) (k : BkeyHead) : (out.setHead k).head = k := by
  obtain ⟨hu, hf, ht, hp, hlo⟩ := setHead_zero out k
  obtain ⟨⟨hlo', hhi⟩, hsize, hsnapshot⟩ := setHead_halves out k
  have hoffset : (out.setHead k 3).toFin = k.p.offset := by
    rw [KeyWords.setHead, BitVec.toFin_ofNat, Fin.ofNat_val_eq_self]
  have hinode : (out.setHead k 4).toFin = k.p.inode := by
    rw [KeyWords.setHead, BitVec.toFin_ofNat, Fin.ofNat_val_eq_self]
  rw [KeyWords.head, KeyWords.u64s, KeyWords.format, KeyWords.type, KeyWords.pos, hu, hf, ht, hp,
    hlo, hlo', hhi, hsize, hsnapshot, hoffset, hinode, Nat.div_add_mod']
  simp only [UInt8.ofNat_toNat, Fin.ofNat_val_eq_self]

end Subvol

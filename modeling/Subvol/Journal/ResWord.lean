import Subvol.Journal.Flush
import Subvol.Lib.BitField

/-!
# The reservation word

The offset in the open buffer, the index of that buffer and the reference counts of the four buffers
share one 64-bit word of the journal. Model of the functions on that word, with the masks and shifts
of the source; `unpack` reads its fields, and the lemmas say what each function does to them. A
failed assertion is the result `none`.

## Main definitions

* `journalStateOffset`, `journalStateIdx`, `journalStateCount`, `journalStateSetOffset`,
  `journalStateSetIdx`, `journalStateInc`, `journalStateDec`.
* `unpack`: the fields of a word.
* `journalResGetFastWord`, `journalStateSwitch`: what a reservation and a flush do with the word.

## Main results

* `unpack_inc`, `unpack_dec`, `unpack_setOffset`, `unpack_setIdx`.
* `journalResGetFast_eq`, `unpack_switch`: the functions on fields are those on the word.
-/

namespace Subvol

open Lib

/-! ### Fields -/

/-- `journal_state_offset`. -/
def journalStateOffset (v : BitVec 64) : ℕ := (v &&& BitVec.ofNat 64 (2 ^ 22 - 1)).toNat

/-- `journal_state_idx`. -/
def journalStateIdx (v : BitVec 64) : ℕ := (v >>> 22 &&& BitVec.ofNat 64 (2 ^ 2 - 1)).toNat

/-- `journal_state_count`. -/
def journalStateCount (v : BitVec 64) (idx : ℕ) : ℕ :=
  (v >>> (24 + idx * 10) &&& BitVec.ofNat 64 (2 ^ 10 - 1)).toNat

/-- `journal_state_set_offset`. -/
def journalStateSetOffset (v : BitVec 64) (offset : ℕ) : BitVec 64 :=
  (v &&& ~~~(BitVec.ofNat 64 (2 ^ 22 - 1))) ||| BitVec.ofNat 64 offset

/-- `journal_state_set_idx`. -/
def journalStateSetIdx (v : BitVec 64) (idx : ℕ) : BitVec 64 :=
  (v &&& ~~~(BitVec.ofNat 64 ((2 ^ 2 - 1) <<< 22))) ||| BitVec.ofNat 64 (idx <<< 22)

/-- `journal_state_inc`. -/
def journalStateInc (v : BitVec 64) (idx : ℕ) : Option (BitVec 64) :=
  if journalStateCount v idx = 0x3ff then none
  else some (v + BitVec.ofNat 64 (2 ^ (24 + idx * 10)))

/-- `journal_state_dec`. -/
def journalStateDec (v : BitVec 64) (idx : ℕ) : Option (BitVec 64) :=
  if journalStateCount v idx = 0 then none
  else some (v - BitVec.ofNat 64 (2 ^ (24 + idx * 10)))

/-- The fields of a word. -/
def unpack (v : BitVec 64) : JournalReservations where
  offset := journalStateOffset v
  idx := journalStateIdx v
  count i := if i < journalStateBufNr then journalStateCount v i else 0

theorem unpack_eq {v : BitVec 64} {r : JournalReservations} (hoffset : journalStateOffset v = r.offset)
    (hidx : journalStateIdx v = r.idx) (hcount : (unpack v).count = r.count) : unpack v = r := by
  obtain ⟨offset, idx, count⟩ := r
  obtain rfl : (unpack v).count = count := hcount
  rw [unpack, hoffset, hidx]

theorem journalStateOffset_eq (v : BitVec 64) : journalStateOffset v = field 0 22 v.toNat := by
  rw [journalStateOffset, BitVec.toNat_and, BitVec.toNat_ofNat, Nat.mod_eq_of_lt (by decide),
    Nat.and_two_pow_sub_one_eq_mod, field, pow_zero, Nat.div_one]

theorem journalStateIdx_eq (v : BitVec 64) : journalStateIdx v = field 22 2 v.toNat := by
  rw [journalStateIdx, BitVec.toNat_and, BitVec.toNat_ofNat, Nat.mod_eq_of_lt (by decide),
    Nat.and_two_pow_sub_one_eq_mod, BitVec.toNat_ushiftRight, Nat.shiftRight_eq_div_pow, field]

theorem journalStateCount_eq (v : BitVec 64) (idx : ℕ) :
    journalStateCount v idx = field (24 + idx * 10) 10 v.toNat := by
  rw [journalStateCount, BitVec.toNat_and, BitVec.toNat_ofNat, Nat.mod_eq_of_lt (by decide),
    Nat.and_two_pow_sub_one_eq_mod, BitVec.toNat_ushiftRight, Nat.shiftRight_eq_div_pow, field]

theorem journalStateSetOffset_eq (v : BitVec 64) (offset : ℕ) :
    journalStateSetOffset v offset = setField 0 22 offset v := by
  rw [journalStateSetOffset, setField, Nat.shiftLeft_zero, Nat.shiftLeft_zero]

theorem journalStateSetIdx_eq (v : BitVec 64) (idx : ℕ) :
    journalStateSetIdx v idx = setField 22 2 idx v := rfl

theorem journalStateIdx_lt (v : BitVec 64) : journalStateIdx v < journalStateBufNr := by
  rw [journalStateIdx_eq]
  exact field_lt 22 2 _

/-! ### What the functions do to the fields -/

section Word

variable {v v' : BitVec 64} {i idx : ℕ}

/-- The place of a counter lies in the word, apart from the other fields. -/
theorem counter_fit (h : idx < journalStateBufNr) : 24 + idx * 10 + 10 ≤ 64 := by
  rw [journalStateBufNr] at h
  omega

theorem counters_disjoint (h : i ≠ idx) :
    FieldsDisjoint (24 + idx * 10) 10 (24 + i * 10) 10 := by
  rw [FieldsDisjoint]
  omega

/-- A field that another one is counted up or down beside keeps its value. -/
theorem toNat_inc (hidx : idx < journalStateBufNr) (h : journalStateInc v idx = some v') :
    field (24 + idx * 10) 10 v.toNat + 1 < 2 ^ 10 ∧
      v'.toNat = v.toNat + 2 ^ (24 + idx * 10) := by
  rw [journalStateInc, journalStateCount_eq] at h
  split_ifs at h with hfull
  cases h
  have hlt := field_lt (24 + idx * 10) 10 v.toNat
  have hroom : field (24 + idx * 10) 10 v.toNat + 1 < 2 ^ 10 := by omega
  have hsum := add_pow_lt v.isLt (counter_fit hidx) hroom
  refine ⟨hroom, ?_⟩
  rw [BitVec.toNat_add, BitVec.toNat_ofNat, Nat.add_mod_mod, Nat.mod_eq_of_lt hsum]

theorem toNat_dec (h : journalStateDec v idx = some v') :
    field (24 + idx * 10) 10 v.toNat ≠ 0 ∧ v'.toNat = v.toNat - 2 ^ (24 + idx * 10) := by
  rw [journalStateDec, journalStateCount_eq] at h
  split_ifs at h with hzero
  cases h
  obtain ⟨hle, -⟩ := field_sub_self hzero
  have hlt := v.isLt
  refine ⟨hzero, ?_⟩
  rw [BitVec.toNat_sub, BitVec.toNat_ofNat, Nat.mod_eq_of_lt (hle.trans_lt hlt)]
  have hsum : 2 ^ 64 - 2 ^ (24 + idx * 10) + v.toNat =
      v.toNat - 2 ^ (24 + idx * 10) + 2 ^ 64 := by omega
  rw [hsum, Nat.add_mod_right]
  exact Nat.mod_eq_of_lt ((Nat.sub_le _ _).trans_lt hlt)

theorem unpack_inc (hidx : idx < journalStateBufNr) (h : journalStateInc v idx = some v') :
    unpack v' = { unpack v with
      count := Function.update (unpack v).count idx ((unpack v).count idx + 1) } := by
  obtain ⟨hroom, hnat⟩ := toNat_inc hidx h
  have hoffset : journalStateOffset v' = journalStateOffset v := by
    rw [journalStateOffset_eq, journalStateOffset_eq, hnat]
    exact field_add_of_disjoint (.inl (by omega)) hroom
  have hindex : journalStateIdx v' = journalStateIdx v := by
    rw [journalStateIdx_eq, journalStateIdx_eq, hnat]
    exact field_add_of_disjoint (.inl (by omega)) hroom
  have hcount : (unpack v').count =
      Function.update (unpack v).count idx ((unpack v).count idx + 1) := by
    funext i
    by_cases hi : i = idx
    · subst hi
      rw [Function.update_self, unpack, unpack]
      dsimp only
      rw [if_pos hidx, if_pos hidx, journalStateCount_eq, journalStateCount_eq, hnat]
      exact field_add_self hroom
    · rw [Function.update_of_ne hi, unpack, unpack]
      dsimp only
      rw [journalStateCount_eq, journalStateCount_eq, hnat,
        field_add_of_disjoint (counters_disjoint hi) hroom]
  exact unpack_eq hoffset hindex hcount

theorem unpack_dec (h : journalStateDec v idx = some v') (hidx : idx < journalStateBufNr) :
    unpack v' = { unpack v with
      count := Function.update (unpack v).count idx ((unpack v).count idx - 1) } := by
  obtain ⟨hpos, hnat⟩ := toNat_dec h
  have hoffset : journalStateOffset v' = journalStateOffset v := by
    rw [journalStateOffset_eq, journalStateOffset_eq, hnat]
    exact field_sub_of_disjoint (.inl (by omega)) hpos
  have hindex : journalStateIdx v' = journalStateIdx v := by
    rw [journalStateIdx_eq, journalStateIdx_eq, hnat]
    exact field_sub_of_disjoint (.inl (by omega)) hpos
  have hcount : (unpack v').count =
      Function.update (unpack v).count idx ((unpack v).count idx - 1) := by
    funext i
    by_cases hi : i = idx
    · subst hi
      rw [Function.update_self, unpack, unpack]
      dsimp only
      rw [if_pos hidx, if_pos hidx, journalStateCount_eq, journalStateCount_eq, hnat]
      exact Nat.eq_sub_of_add_eq (field_sub_self hpos).2
    · rw [Function.update_of_ne hi, unpack, unpack]
      dsimp only
      rw [journalStateCount_eq, journalStateCount_eq, hnat,
        field_sub_of_disjoint (counters_disjoint hi) hpos]
  exact unpack_eq hoffset hindex hcount

theorem unpack_setOffset {offset : ℕ} (h : offset ≤ journalEntryOffsetMax) :
    unpack (journalStateSetOffset v offset) = { unpack v with offset := offset } := by
  have hlt : offset < 2 ^ 22 := by
    rw [journalEntryOffsetMax] at h
    omega
  have hoffset : journalStateOffset (journalStateSetOffset v offset) = offset := by
    rw [journalStateOffset_eq, journalStateSetOffset_eq]
    exact field_setField_self (by omega) hlt
  have hindex : journalStateIdx (journalStateSetOffset v offset) = journalStateIdx v := by
    rw [journalStateIdx_eq, journalStateIdx_eq, journalStateSetOffset_eq]
    exact field_setField_of_disjoint (.inr (by omega)) (by omega) hlt
  have hcount : (unpack (journalStateSetOffset v offset)).count = (unpack v).count := by
    funext i
    rw [unpack, unpack]
    dsimp only
    by_cases hi : i < journalStateBufNr
    · rw [if_pos hi, if_pos hi, journalStateCount_eq, journalStateCount_eq,
        journalStateSetOffset_eq]
      exact field_setField_of_disjoint (.inr (by omega)) (counter_fit hi) hlt
    · rw [if_neg hi, if_neg hi]
  exact unpack_eq hoffset hindex hcount

theorem unpack_setIdx (h : idx < journalStateBufNr) :
    unpack (journalStateSetIdx v idx) = { unpack v with idx := idx } := by
  have hlt : idx < 2 ^ 2 := h
  have hoffset : journalStateOffset (journalStateSetIdx v idx) = journalStateOffset v := by
    rw [journalStateOffset_eq, journalStateOffset_eq, journalStateSetIdx_eq]
    exact field_setField_of_disjoint (.inl (by omega)) (by omega) hlt
  have hindex : journalStateIdx (journalStateSetIdx v idx) = idx := by
    rw [journalStateIdx_eq, journalStateSetIdx_eq]
    exact field_setField_self (by omega) hlt
  have hcount : (unpack (journalStateSetIdx v idx)).count = (unpack v).count := by
    funext i
    rw [unpack, unpack]
    dsimp only
    by_cases hi : i < journalStateBufNr
    · rw [if_pos hi, if_pos hi, journalStateCount_eq, journalStateCount_eq, journalStateSetIdx_eq]
      exact field_setField_of_disjoint (.inr (by omega)) (counter_fit hi) hlt
    · rw [if_neg hi, if_neg hi]
  exact unpack_eq hoffset hindex hcount

end Word

/-! ### Reservations and flushes -/

/-- `journal_res_get_fast` on the word: the new word and the reservation. -/
def journalResGetFastWord (j : Journal) (old : BitVec 64) (u64s flags : ℕ) :
    Option (BitVec 64 × JournalRes) :=
  let idx := journalStateIdx old
  let offset := journalStateOffset old
  if offset + u64s > j.curEntryU64s then none
  else if journalStateCount old idx = 0 then none
  else if flags % 8 < j.watermark.toNat then none
  else do
    let new ← journalStateInc old idx
    let seq := j.seq - (j.seq - idx) % journalStateBufNr
    if (j.ring idx).seq ≠ seq then none
    else some (journalStateSetOffset new (offset + u64s), ⟨u64s, offset, seq⟩)

/-- The word of the next entry, from the one of the entry that a flush has closed. -/
def journalStateSwitch (v : BitVec 64) (newIdx : ℕ) : Option (BitVec 64) := do
  let v ← journalStateDec v (journalStateIdx v)
  journalStateInc (journalStateSetOffset (journalStateSetIdx v newIdx) 0) newIdx

/-- A reservation on the word is one on its fields. -/
theorem journalResGetFast_eq {j : Journal} {v : BitVec 64} (hres : j.reservations = unpack v)
    (hbudget : j.curEntryU64s ≤ journalEntryOffsetMax) (u64s flags : ℕ) :
    journalResGetFast j u64s flags = (journalResGetFastWord j v u64s flags).map fun x =>
      ({ j with reservations := unpack x.1 }, x.2) := by
  have hidx := journalStateIdx_lt v
  have hcount : (unpack v).count (unpack v).idx = journalStateCount v (journalStateIdx v) :=
    if_pos hidx
  have hoffset : (unpack v).offset = journalStateOffset v := rfl
  have hindex : (unpack v).idx = journalStateIdx v := rfl
  rw [journalResGetFast, journalResGetFastWord, hres]
  dsimp only
  rw [hcount, hoffset, hindex]
  by_cases hrefused : journalStateOffset v + u64s > j.curEntryU64s ∨
      journalStateCount v (journalStateIdx v) = 0 ∨ flags % 8 < j.watermark.toNat ∨
      journalStateCount v (journalStateIdx v) = 0x3ff
  · rw [if_pos hrefused]
    by_cases hfits : journalStateOffset v + u64s > j.curEntryU64s
    · rw [if_pos hfits]
      rfl
    by_cases hzero : journalStateCount v (journalStateIdx v) = 0
    · rw [if_neg hfits, if_pos hzero]
      rfl
    by_cases hmark : flags % 8 < j.watermark.toNat
    · rw [if_neg hfits, if_neg hzero, if_pos hmark]
      rfl
    · have hfull := ((hrefused.resolve_left hfits).resolve_left hzero).resolve_left hmark
      rw [if_neg hfits, if_neg hzero, if_neg hmark, journalStateInc, if_pos hfull]
      rfl
  · rw [if_neg hrefused]
    simp only [not_or] at hrefused
    obtain ⟨hfits, hzero, hmark, hfull⟩ := hrefused
    have hinc : journalStateInc v (journalStateIdx v) =
        some (v + BitVec.ofNat 64 (2 ^ (24 + journalStateIdx v * 10))) := if_neg hfull
    have hnew := unpack_inc hidx hinc
    rw [if_neg hfits, if_neg hzero, if_neg hmark, hinc, Option.bind_eq_bind, Option.bind_some]
    by_cases hring : (j.ring (journalStateIdx v)).seq =
        j.seq - (j.seq - journalStateIdx v) % journalStateBufNr
    · rw [if_neg (not_not.mpr hring), if_neg (not_not.mpr hring), Option.map_some]
      dsimp only
      rw [unpack_setOffset (by omega), hnew, ← hindex, hcount]
      rfl
    · rw [if_pos hring, if_pos hring]
      rfl

/-- The switch to the next entry on the word is the one on its fields. -/
theorem unpack_switch {v v' : BitVec 64} {newIdx : ℕ} (hnew : newIdx < journalStateBufNr)
    (h : journalStateSwitch v newIdx = some v') :
    unpack v' = openReservations (unpack v) newIdx := by
  rw [journalStateSwitch, Option.bind_eq_bind] at h
  obtain ⟨w, hdec, hinc⟩ := Option.bind_eq_some_iff.mp h
  have hw := unpack_dec hdec (journalStateIdx_lt v)
  rw [unpack_inc hnew hinc, unpack_setOffset (Nat.zero_le _), unpack_setIdx hnew, hw]
  rfl

end Subvol

import Mathlib.Algebra.Group.Action.Defs
import Mathlib.Algebra.Order.BigOperators.Group.List
import Subvol.Btree.Cache
import Subvol.Journal.Reserve

/-!
# The root entries of a record

A flush on a device appends an entry for every live btree root behind the reserved words, but the
budget of an entry is what the header leaves of its sectors. A record fits the sectors its budget
was computed from exactly when the reservations have left room for the root entries; a record that is
larger than a bucket is refused by every flush.

## Main definitions

* `BtreeRoot`, `bch2BtreeRootsToJournalEntries`.
* `EntryOpened`: the budget of the open entry was computed from given sectors.

## Main results

* `spaceAvailable_opened`: where budgets come from.
* `record_fits_iff`: when the record fits.
-/

namespace Subvol

open Lib

variable {g : JournalGeometry}

/-! ### Roots -/

/-- `BKEY_U64S + BKEY_BTREE_PTR_VAL_U64S_MAX`: the words of the largest root key. -/
def rootKeyU64sMax : ℕ := 5 + 15

/-- `btree_root`, with its key as words. -/
structure BtreeRoot where
  key : List UInt64
  level : Fin 256
  alive : Bool
  key_length_le : key.length ≤ rootKeyU64sMax

/-- `BCH_JSET_ENTRY_btree_root`. -/
def jsetEntryBtreeRoot : Fin 256 := 1

/-- `bch2_btree_roots_to_journal_entries`: an entry for every live root that is not to be skipped. -/
def bch2BtreeRootsToJournalEntries (roots : ℕ → BtreeRoot) (skip : ℕ) : List JsetEntry :=
  ((List.range btreeIdNr).filter fun id => (roots id).alive && !skip.testBit id).map fun id =>
    ⟨jsetEntryBtreeRoot, Fin.ofNat 256 id, (roots id).level, (roots id).key⟩

/-- The words a flush appends. -/
def rootWords (roots : ℕ → BtreeRoot) : List UInt64 :=
  (bch2BtreeRootsToJournalEntries roots 0).flatMap JsetEntry.words

/-- The words of the entries of the live roots. -/
def rootU64s (roots : ℕ → BtreeRoot) : ℕ :=
  (((List.range btreeIdNr).filter fun id => (roots id).alive).map fun id =>
    1 + (roots id).key.length).sum

theorem length_rootWords (roots : ℕ → BtreeRoot) : (rootWords roots).length = rootU64s roots := by
  have hskip : ∀ id, ((roots id).alive && !Nat.testBit 0 id) = (roots id).alive := by
    intro id
    rw [Nat.zero_testBit, Bool.not_false, Bool.and_true]
  rw [rootWords, rootU64s, bch2BtreeRootsToJournalEntries, List.length_flatMap, List.map_map]
  simp only [hskip]
  congr 1
  refine List.map_congr_left fun id _ => ?_
  rw [Function.comp_apply, JsetEntry.length_words, Nat.add_comm]

/-- The space `bch2_journal_flush` sets aside for the root entries is enough. -/
theorem rootU64s_le (roots : ℕ → BtreeRoot) : rootU64s roots ≤ btreeIdNr * (1 + rootKeyU64sMax) := by
  have hsum := List.sum_le_card_nsmul (((List.range btreeIdNr).filter fun id => (roots id).alive).map
    fun id => 1 + (roots id).key.length) (1 + rootKeyU64sMax) (by
      intro n hn
      obtain ⟨id, -, rfl⟩ := List.mem_map.mp hn
      exact Nat.add_le_add_left (roots id).key_length_le 1)
  have hlen : ((List.range btreeIdNr).filter fun id => (roots id).alive).length ≤ btreeIdNr :=
    (List.length_filter_le _ _).trans (List.length_range).le
  rw [List.length_map, smul_eq_mul] at hsum
  exact hsum.trans (Nat.mul_le_mul_right _ hlen)

/-! ### Where the budget comes from -/

/-- The budget of the open entry was computed from `s` sectors: whole blocks of a bucket. -/
structure EntryOpened (g : JournalGeometry) (s : ℕ) (j : Journal) : Prop where
  budget : j.curEntryU64s = journalEntryU64sForSectors s
  pos : 0 < s
  blocks : g.blockSectors ∣ s
  le_bucket : s ≤ g.bucketSize

theorem journalSpacesOf_dvd (ja : JournalDevice) (bucketSize blockSectors : ℕ) :
    blockSectors ∣ (journalSpacesOf ja bucketSize blockSectors).discarded.nextEntry := by
  rw [journalSpacesOf]
  split_ifs
  · exact dvd_zero _
  · rw [journalSpaceOf]
    split_ifs <;> exact Dvd.intro_left _ rfl

/-- The budget that follows the space accounting of an attached journal. -/
theorem spaceAvailable_opened {j : Journal} (hattached : j.attached = true) (hb : j.BudgetOk g)
    (hne : (bch2JournalSpaceAvailable g j).curEntrySectors ≠ 0) :
    EntryOpened g (bch2JournalSpaceAvailable g j).curEntrySectors
      { bch2JournalSpaceAvailable g j with
        curEntryU64s :=
          journalEntryU64sForSectors (bch2JournalSpaceAvailable g j).curEntrySectors } := by
  have hle := ((spaceAvailable_resFrame j).budget hb).sectors
  refine ⟨rfl, Nat.pos_of_ne_zero hne, ?_, hle.trans (Nat.div_mul_le_self _ _)⟩
  unfold bch2JournalSpaceAvailable
  split_ifs
  · exact dvd_zero _
  · exact journalSpacesOf_dvd _ _ _

/-! ### The size of a record -/

theorem blockSectors_pos (g : JournalGeometry) : 0 < g.blockSectors :=
  Nat.lt_of_lt_of_le Nat.one_pos (le_max_right _ _)

/-- A record takes whole blocks, so it fits the sectors of some blocks when its words do. -/
theorem writeSectors_le_iff {s : ℕ} (h : g.blockSectors ∣ s) (n : ℕ) :
    g.writeSectors n ≤ s ↔ n ≤ s * sectorU64s := by
  obtain ⟨q, rfl⟩ := h
  have hpos : 0 < g.blockU64s := Nat.mul_pos (blockSectors_pos g) (by decide)
  have hsectors : g.writeSectors n = (n + g.blockU64s - 1) / g.blockU64s * g.blockSectors := by
    rw [JournalGeometry.writeSectors, JournalGeometry.writeU64s]
    conv_lhs => rw [JournalGeometry.blockU64s, ← Nat.mul_assoc]
    exact Nat.mul_div_cancel _ (by decide)
  have hwords : g.blockSectors * q * sectorU64s = g.blockU64s * q := by
    rw [JournalGeometry.blockU64s, Nat.mul_right_comm]
  rw [hsectors, hwords, Nat.mul_comm, Nat.mul_le_mul_left_iff (blockSectors_pos g),
    Nat.div_le_iff_le_mul_add_pred hpos]
  omega

theorem length_flushRecord_words (j : Journal) (roots : List UInt64) :
    (flushRecord j roots).words.length = jsetHeaderU64s + (flushRecord j roots).payload.length := by
  simp only [Jset.words, Jset.header, List.length_cons, List.length_append, List.length_nil,
    jsetHeaderU64s]
  omega

/-- A record that is larger than a bucket is refused, whatever the device answers. -/
theorem journalWriteDevice_too_large {r : Jset} (h : g.bucketSize < g.writeSectors r.words.length)
    (io : FlushIo) (ja : JournalDevice) : journalWriteDevice g io r ja = (-4, ja, []) := by
  rw [journalWriteDevice]
  exact if_pos h

/-- Such a record is refused by every flush, and its entry stays open as it is. -/
theorem bch2JournalFlush_too_large {j : Journal} {roots : List UInt64}
    (hattached : j.attached = true)
    (h : g.bucketSize < g.writeSectors (flushRecord j roots).words.length) (io : FlushIo)
    (fn : PinFlushFn) (fuel : ℕ) :
    (bch2JournalFlush g io fn fuel roots j).ret ≠ some 0 ∧
      (bch2JournalFlush g io fn fuel roots j).writes = [] ∧
      (bch2JournalFlush g io fn fuel roots j).journal =
        { j with faultInjectWriteError :=
          (bch2JournalFlush g io fn fuel roots j).journal.faultInjectWriteError } := by
  have hne : ∀ n : ℤ, n ≠ 0 → some n ≠ some 0 := fun n hn heq => hn (Option.some.inj heq)
  unfold bch2JournalFlush
  dsimp only
  split_ifs with hone hseq hfault
  · exact ⟨hne _ (by decide), rfl, rfl⟩
  · exact ⟨Option.some_ne_none 0 |>.symm, rfl, rfl⟩
  · exact ⟨hne _ (by decide), rfl, rfl⟩
  · rw [journalWriteDevice_too_large h, flushFinish]
    exact ⟨hne (-4) (by decide), rfl, rfl⟩

/-- A record of no more sectors than a bucket is not refused for its size. -/
theorem journalWriteDevice_ret {r : Jset} {ja : JournalDevice}
    (h : g.writeSectors r.words.length ≤ g.bucketSize) (hja : ja.Fits g) (io : FlushIo) :
    (journalWriteDevice g io r ja).1 ∈ [0, -5, -9] := by
  have hwrite : ∀ (ja : JournalDevice) (advanced : Bool),
      (journalWriteRecord g io r ja advanced).1 ∈ [0, -5, -9] := by
    intro ja advanced
    unfold journalWriteRecord
    dsimp only
    split_ifs <;> simp
  have hlists : ¬(ja.nr ≠ g.nr ∨ ja.buckets.length ≠ ja.nr ∨ ja.bucketSeq.length ≠ ja.nr) := by
    rw [hja.nr_eq, hja.buckets_eq, hja.bucketSeq_length]
    simp [JournalGeometry.nr]
  rw [journalWriteDevice, if_neg (Nat.not_lt.mpr h), if_neg hlists]
  split_ifs
  · exact hwrite _ _
  · simp
  · exact hwrite _ _

theorem flushFinish_ret {fn : PinFlushFn} {fuel : ℕ} {j : Journal} {r : Jset} {ret : ℤ}
    {device : JournalDevice} {writes : List DeviceWrite} (hret : ret ∈ [0, -5, -9]) {out : ℤ}
    (h : (flushFinish g fn fuel j r ret device writes).ret = some out) :
    out ∈ [0, -2, -3, -5, -9] := by
  unfold flushFinish at h
  dsimp only at h
  split_ifs at h with hne
  · cases h
    simp only [List.mem_cons, List.not_mem_nil, or_false] at hret ⊢
    omega
  · cases hpub : flushPublish g fn fuel { j with device := device } r with
    | none =>
      rw [hpub] at h
      cases h
    | some x =>
      rw [hpub] at h
      cases h
      unfold flushPublish at hpub
      dsimp only at hpub
      split_ifs at hpub
      · cases hpub
        simp
      · cases hpub
        simp
      · obtain ⟨pin, -, hpub⟩ := Option.bind_eq_some_iff.mp hpub
        obtain ⟨j', -, hpub⟩ := Option.bind_eq_some_iff.mp hpub
        cases hpub
        simp

/-- A flush of an entry without holders whose record fits a bucket fails for want of space or of
sequences or by the device, never for the size of the record. -/
theorem bch2JournalFlush_ret {j : Journal} {roots : List UInt64}
    (hone : j.reservations.count j.reservations.idx = 1) (hattached : j.attached = true)
    (h : g.writeSectors (flushRecord j roots).words.length ≤ g.bucketSize) (hja : j.device.Fits g)
    {io : FlushIo} {fn : PinFlushFn} {fuel : ℕ} {ret : ℤ}
    (hret : (bch2JournalFlush g io fn fuel roots j).ret = some ret) :
    ret ∈ [0, -2, -3, -5, -9] := by
  unfold bch2JournalFlush at hret
  dsimp only at hret
  rw [if_neg (not_not.mpr hone), if_pos hattached] at hret
  split_ifs at hret
  · cases hret
    decide
  · exact flushFinish_ret (journalWriteDevice_ret h hja io) hret

theorem ResInv.length_flushRecord {m : ResMachine} (h : ResInv g m)
    (hattached : m.journal.attached = true) (roots : ℕ → BtreeRoot) :
    (flushRecord m.journal (rootWords roots)).words.length =
      jsetHeaderU64s + ((m.grants.map Grant.len).sum + rootU64s roots) := by
  have hoffset : m.journal.reservations.offset = (m.grants.map Grant.len).sum := by
    rw [h.res]
    exact h.offset
  rw [length_flushRecord_words, flushRecord]
  dsimp only
  rw [if_pos hattached, List.length_append, Image.length_readAt, length_rootWords, hoffset]

/-- A reservation of the whole budget or less, taken and released at once. -/
theorem ResRun.getPut {j : Journal} (hstart : JournalStart g j) {u : ℕ} (hu : u < 2 ^ 16)
    (hfits : u ≤ j.curEntryU64s) :
    ∃ m : ResMachine, ResRun g (.start j) m ∧ m.grants.map Grant.len = [u] ∧
      outstanding m.grants = 0 ∧ m.journal.attached = j.attached ∧
      m.journal.curEntryU64s = j.curEntryU64s := by
  have h : ResInv g (.start j) := hstart.inv
  have hoffset : journalStateOffset (ResMachine.start j).word + u ≤ j.curEntryU64s := by
    rw [h.offset]
    exact (Nat.zero_add u).trans_le hfits
  have hmark : j.watermark.toNat ≤ 6 % 8 := by
    cases j.watermark <;> decide
  obtain ⟨v, res, hget⟩ := h.get_of_room 6 hoffset hmark (show outstanding [] < 0x3fe by decide)
  have hinv := h.get hget
  have hmem : ({ seq := res.seq, start := res.offset, len := u } : Grant) ∈
      ([] ++ [{ seq := res.seq, start := res.offset, len := u }] : List Grant) :=
    List.mem_singleton_self _
  obtain ⟨w, hdec⟩ := Option.isSome_iff_exists.mp (hinv.dec_isSome hmem)
  have hrun : ResRun g (.start j) _ := .tail (.tail .refl (.get hu hget)) (.put (i := 0) rfl rfl hdec)
  exact ⟨_, hrun, rfl, rfl, rfl, rfl⟩

/-- One live root, with a key of five words. -/
def oneRoot (id : ℕ) : BtreeRoot := ⟨List.replicate 5 0, 0, decide (id = 0), by decide⟩

theorem smallJournal_opened : EntryOpened smallGeometry 2 smallJournal :=
  ⟨by decide, by decide, by decide, by decide⟩

end Subvol

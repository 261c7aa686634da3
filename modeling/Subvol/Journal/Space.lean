import Subvol.Journal.Types
import Subvol.Lib.Ring

/-!
# Space accounting on the journal device

Model of the bucket indices of `journal.rs`: which buckets a flush may take, and how
`bch2_journal_space_available` and `bch2_journal_do_discards` move the indices behind the
sequence numbers. The three indices `discard_idx`, `dirty_idx_ondisk` and `dirty_idx` follow
each other round the ring from the bucket after `cur_idx`; `JournalDevice.Ordered` states this
and that everything before `dirty_idx` is older than `last_seq`.

## Main definitions

* `bch2JournalDevBucketsAvailable`, `bch2JournalSetWatermark`, `bch2JournalSpaceAvailable`,
  `bch2JournalDoDiscards`.
* `JournalDevice.Ordered`: the order of the indices.
* `SpaceFrame`: what space accounting leaves alone.

## Main results

* `bch2JournalSpaceAvailable_ordered`, `bch2JournalDoDiscards_ordered`: space accounting keeps
  the order of the indices.
* `JournalDevice.Ordered.of_available`: when a bucket is available, the two buckets after the
  current one are older than `last_seq`.
-/

namespace Subvol

open Lib

/-- `u32::saturating_mul`. -/
def saturatingMul (a b : ℕ) : ℕ := min (a * b) (2 ^ 32 - 1)

/-- `u32::saturating_add`. -/
def saturatingAdd (a b : ℕ) : ℕ := min (a + b) (2 ^ 32 - 1)

/-- `journal_entry_u64s_for_sectors`. -/
def journalEntryU64sForSectors (sectors : ℕ) : ℕ :=
  min (sectors * 512 / 8 - jsetHeaderU64s) journalEntryOffsetMax

/-- The bucket index a kind of space is counted from, `journal_space_from` in the source. -/
def journalSpaceFrom (ja : JournalDevice) : JournalSpaceFrom → ℕ
  | .discarded => ja.discardIdx
  | .cleanOndisk => ja.dirtyIdxOndisk
  | .clean => ja.dirtyIdx

/-- `bch2_journal_dev_buckets_available`. -/
def bch2JournalDevBucketsAvailable (ja : JournalDevice) (kind : JournalSpaceFrom) : ℕ :=
  if ja.nr = 0 then 0
  else
    let available := (journalSpaceFrom ja kind + ja.nr - ja.curIdx - 1) % ja.nr
    if available ≠ 0 ∧ ja.dirtyIdxOndisk = ja.dirtyIdx then available - 1 else available

/-- `bch2_journal_set_watermark`. -/
def bch2JournalSetWatermark (j : Journal) : Journal :=
  let clean := j.space.clean.total
  let total := j.space.total.total
  let medOnSpace := decide (total ≠ 0 ∧ clean * 4 ≤ total * 3)
  let lowOnSpace := decide (total ≠ 0 ∧ clean * 4 ≤ total)
  let lowOnPin := decide (journalPin - j.pin.lists.length < journalPin / 4)
  { j with
    flags := { j.flags with
      medOnSpace := medOnSpace, lowOnSpace := lowOnSpace, lowOnPin := lowOnPin }
    watermark := if lowOnSpace || lowOnPin then .reclaim else .stripe
    reclaimKicked := j.reclaimKicked || medOnSpace }

/-- The two loops of `bch2_journal_space_available`: `dirty_idx` goes on over buckets older than
`last_seq` up to the current one, `dirty_idx_ondisk` over buckets older than `last_seq_ondisk`
up to `dirty_idx`. -/
def advanceDirty (ja : JournalDevice) (lastSeq lastSeqOndisk : ℕ) : JournalDevice :=
  let dirtyIdx := Ring.walk ja.nr
    (fun i => decide (i ≠ ja.curIdx ∧ ja.bucketSeq.getD i 0 < lastSeq)) ja.nr ja.dirtyIdx
  let dirtyIdxOndisk := Ring.walk ja.nr
    (fun i => decide (i ≠ dirtyIdx ∧ ja.bucketSeq.getD i 0 < lastSeqOndisk)) ja.nr
    ja.dirtyIdxOndisk
  { ja with dirtyIdx := dirtyIdx, dirtyIdxOndisk := dirtyIdxOndisk }

/-- The entry of `spaces` for one kind, with the sizes in sectors. -/
def journalSpaceOf (ja : JournalDevice) (bucketSize blockSectors : ℕ) (kind : JournalSpaceFrom) :
    JournalSpace :=
  let aligned := bucketSize / blockSectors * blockSectors
  let buckets := bch2JournalDevBucketsAvailable ja kind
  let sectors := ja.sectorsFree / blockSectors * blockSectors
  if sectors < bucketSize ∧ buckets ≠ 0 then
    ⟨aligned, saturatingAdd aligned (saturatingMul (buckets - 1) aligned)⟩
  else ⟨sectors, saturatingAdd sectors (saturatingMul buckets aligned)⟩

/-- The array `spaces` of `bch2_journal_space_available`. -/
def journalSpacesOf (ja : JournalDevice) (bucketSize blockSectors : ℕ) : JournalSpaces :=
  let aligned := bucketSize / blockSectors * blockSectors
  if aligned = 0 then {}
  else
    { discarded := journalSpaceOf ja bucketSize blockSectors .discarded
      cleanOndisk := journalSpaceOf ja bucketSize blockSectors .cleanOndisk
      clean := journalSpaceOf ja bucketSize blockSectors .clean
      total := ⟨aligned, saturatingMul aligned ja.nr⟩ }

/-- Whether a flush may be skipped, as `bch2_journal_space_available` decides it. -/
def journalMaySkipFlush (spaces : JournalSpaces) : Bool :=
  decide (spaces.cleanOndisk.nextEntry < spaces.cleanOndisk.total ∧
    spaces.clean.total - spaces.cleanOndisk.total ≤ spaces.total.total / 8 ∧
    spaces.clean.total < saturatingMul spaces.cleanOndisk.total 2)

variable (g : JournalGeometry)

/-- `bch2_journal_space_available`. -/
def bch2JournalSpaceAvailable (j : Journal) : Journal :=
  if j.device.nr = 0 then
    bch2JournalSetWatermark { j with space := {}, curEntrySectors := 0, curEntryError := 0 }
  else
    let ja := advanceDirty j.device j.lastSeq j.lastSeqOndisk
    -- A journal without a device file counts with an empty bucket.
    let spaces :=
      if j.attached then journalSpacesOf ja g.bucketSize g.blockSectors
      else journalSpacesOf ja 0 1
    bch2JournalSetWatermark { j with
      device := ja
      flags := { j.flags with maySkipFlush := journalMaySkipFlush spaces }
      space := spaces
      curEntrySectors := spaces.discarded.nextEntry
      curEntryError := if spaces.discarded.nextEntry ≠ 0 then 0 else -9 }

/-- The loop of `bch2_journal_do_discards`. -/
def advanceDiscard (ja : JournalDevice) : JournalDevice :=
  { ja with
    discardIdx := Ring.walk ja.nr (fun i => decide (i ≠ ja.dirtyIdxOndisk)) ja.nr ja.discardIdx }

/-- `bch2_journal_do_discards`. -/
def bch2JournalDoDiscards (j : Journal) : Journal := { j with device := advanceDiscard j.device }

/-! ### What space accounting leaves alone -/

/-- Two device states that differ in the three reuse indices at most. -/
structure DeviceFrame (ja ja' : JournalDevice) : Prop where
  bucketSeq : ja'.bucketSeq = ja.bucketSeq
  sectorsFree : ja'.sectorsFree = ja.sectorsFree
  curIdx : ja'.curIdx = ja.curIdx
  nr : ja'.nr = ja.nr
  buckets : ja'.buckets = ja.buckets
  highestSeqFound : ja'.highestSeqFound = ja.highestSeqFound

/-- Two journals that differ in the space accounting at most. -/
structure SpaceFrame (j j' : Journal) : Prop where
  reservations : j'.reservations = j.reservations
  seq : j'.seq = j.seq
  ring : j'.ring = j.ring
  closed : j'.closed = j.closed
  attached : j'.attached = j.attached
  device : DeviceFrame j.device j'.device
  pin : j'.pin = j.pin
  pins : j'.pins = j.pins
  seqOndisk : j'.seqOndisk = j.seqOndisk
  lastSeqOndisk : j'.lastSeqOndisk = j.lastSeqOndisk
  lastSeq : j'.lastSeq = j.lastSeq

theorem DeviceFrame.refl (ja : JournalDevice) : DeviceFrame ja ja :=
  ⟨rfl, rfl, rfl, rfl, rfl, rfl⟩

theorem DeviceFrame.trans {a b c : JournalDevice} (h₁ : DeviceFrame a b) (h₂ : DeviceFrame b c) :
    DeviceFrame a c where
  bucketSeq := h₂.bucketSeq.trans h₁.bucketSeq
  sectorsFree := h₂.sectorsFree.trans h₁.sectorsFree
  curIdx := h₂.curIdx.trans h₁.curIdx
  nr := h₂.nr.trans h₁.nr
  buckets := h₂.buckets.trans h₁.buckets
  highestSeqFound := h₂.highestSeqFound.trans h₁.highestSeqFound

theorem SpaceFrame.trans {a b c : Journal} (h₁ : SpaceFrame a b) (h₂ : SpaceFrame b c) :
    SpaceFrame a c where
  reservations := h₂.reservations.trans h₁.reservations
  seq := h₂.seq.trans h₁.seq
  ring := h₂.ring.trans h₁.ring
  closed := h₂.closed.trans h₁.closed
  attached := h₂.attached.trans h₁.attached
  device := h₁.device.trans h₂.device
  pin := h₂.pin.trans h₁.pin
  pins := h₂.pins.trans h₁.pins
  seqOndisk := h₂.seqOndisk.trans h₁.seqOndisk
  lastSeqOndisk := h₂.lastSeqOndisk.trans h₁.lastSeqOndisk
  lastSeq := h₂.lastSeq.trans h₁.lastSeq

theorem bch2JournalSpaceAvailable_frame (j : Journal) :
    SpaceFrame j (bch2JournalSpaceAvailable g j) := by
  unfold bch2JournalSpaceAvailable
  split_ifs <;> exact ⟨rfl, rfl, rfl, rfl, rfl, ⟨rfl, rfl, rfl, rfl, rfl, rfl⟩, rfl, rfl, rfl, rfl, rfl⟩

theorem bch2JournalDoDiscards_frame (j : Journal) : SpaceFrame j (bch2JournalDoDiscards j) :=
  ⟨rfl, rfl, rfl, rfl, rfl, ⟨rfl, rfl, rfl, rfl, rfl, rfl⟩, rfl, rfl, rfl, rfl, rfl⟩

/-! ### The order of the indices -/

/-- The reuse indices in ring order, and the buckets before `dirty_idx` older than `lastSeq`. -/
structure JournalDevice.Ordered (ja : JournalDevice) (lastSeq : ℕ) : Prop where
  cur_lt : ja.curIdx < ja.nr
  discard_lt : ja.discardIdx < ja.nr
  dirtyOndisk_lt : ja.dirtyIdxOndisk < ja.nr
  dirty_lt : ja.dirtyIdx < ja.nr
  discard_le : Ring.pos ja.nr ja.curIdx ja.discardIdx ≤ Ring.pos ja.nr ja.curIdx ja.dirtyIdxOndisk
  dirtyOndisk_le : Ring.pos ja.nr ja.curIdx ja.dirtyIdxOndisk ≤ Ring.pos ja.nr ja.curIdx ja.dirtyIdx
  old : ∀ i < ja.nr, Ring.pos ja.nr ja.curIdx i < Ring.pos ja.nr ja.curIdx ja.dirtyIdx →
    ja.bucketSeq.getD i 0 < lastSeq

namespace JournalDevice.Ordered

variable {ja : JournalDevice} {lastSeq : ℕ}

theorem mono (h : ja.Ordered lastSeq) {lastSeq' : ℕ} (hle : lastSeq ≤ lastSeq') :
    ja.Ordered lastSeq' :=
  { h with old := fun i hi hp => lt_of_lt_of_le (h.old i hi hp) hle }

/-- `advanceDirty` keeps the indices in order. -/
theorem advanceDirty (h : ja.Ordered lastSeq) (lastSeqOndisk : ℕ) :
    (advanceDirty ja lastSeq lastSeqOndisk).Ordered lastSeq := by
  have hcur : Ring.pos ja.nr ja.curIdx ja.dirtyIdx ≤ Ring.pos ja.nr ja.curIdx ja.curIdx := by
    have := Ring.pos_lt (n := ja.nr) (c := ja.curIdx) (i := ja.dirtyIdx)
      (by have := h.cur_lt; omega)
    rw [Ring.pos_self h.cur_lt]
    omega
  have hd := Ring.walk_spec_full
    (p := fun i => decide (i ≠ ja.curIdx ∧ ja.bucketSeq.getD i 0 < lastSeq))
    h.cur_lt h.cur_lt (by simp) h.dirty_lt hcur
  have ho := Ring.walk_spec_full
    (p := fun i => decide (i ≠ (Subvol.advanceDirty ja lastSeq lastSeqOndisk).dirtyIdx ∧
      ja.bucketSeq.getD i 0 < lastSeqOndisk))
    h.cur_lt hd.lt (by simp [Subvol.advanceDirty]) h.dirtyOndisk_lt (h.dirtyOndisk_le.trans hd.le)
  refine ⟨h.cur_lt, h.discard_lt, ho.lt, hd.lt, h.discard_le.trans ho.le, ho.le_stop, ?_⟩
  intro i hi hlt
  -- a bucket before the new `dirty_idx` was before the old one or has been passed by the loop
  by_cases hold : Ring.pos ja.nr ja.curIdx i < Ring.pos ja.nr ja.curIdx ja.dirtyIdx
  · exact h.old i hi hold
  · have hpassed := hd.passed i hi (by omega) hlt
    simp only [decide_eq_true_eq] at hpassed
    exact hpassed.2

theorem advanceDiscard (h : ja.Ordered lastSeq) : (advanceDiscard ja).Ordered lastSeq := by
  have hd := Ring.walk_spec_full (p := fun i => decide (i ≠ ja.dirtyIdxOndisk))
    h.cur_lt h.dirtyOndisk_lt (by simp) h.discard_lt h.discard_le
  exact { h with discard_lt := hd.lt, discard_le := hd.le_stop }

/-- When a bucket is available for a new record, both the bucket after the current one and the
one after that are before `dirty_idx`. -/
theorem of_available (h : ja.Ordered lastSeq)
    (havail : bch2JournalDevBucketsAvailable ja .discarded ≠ 0) :
    1 ≤ Ring.pos ja.nr ja.curIdx ja.discardIdx ∧ 2 ≤ Ring.pos ja.nr ja.curIdx ja.dirtyIdx := by
  have hnr : ja.nr ≠ 0 := by have := h.cur_lt; omega
  have hpos : (journalSpaceFrom ja .discarded + ja.nr - ja.curIdx - 1) % ja.nr
      = Ring.pos ja.nr ja.curIdx ja.discardIdx := rfl
  simp only [bch2JournalDevBucketsAvailable, hnr, if_false, hpos] at havail
  have h₁ := h.discard_le
  have h₂ := h.dirtyOndisk_le
  split_ifs at havail with hcase
  · -- the reserve bucket is kept back: two buckets are discarded
    constructor <;> omega
  · -- `dirty_idx` is past `dirty_idx_ondisk`
    have hne : ja.dirtyIdxOndisk ≠ ja.dirtyIdx := fun heq => hcase ⟨havail, heq⟩
    have hlt : Ring.pos ja.nr ja.curIdx ja.dirtyIdxOndisk
        < Ring.pos ja.nr ja.curIdx ja.dirtyIdx :=
      lt_of_le_of_ne h₂ fun heq => hne (Ring.pos_inj h.cur_lt h.dirtyOndisk_lt h.dirty_lt heq)
    constructor <;> omega

end JournalDevice.Ordered

theorem bch2JournalSpaceAvailable_ordered {j : Journal} (h : j.device.Ordered j.lastSeq) :
    (bch2JournalSpaceAvailable g j).device.Ordered j.lastSeq := by
  have hnr : j.device.nr ≠ 0 := by have := h.cur_lt; omega
  simp only [bch2JournalSpaceAvailable, hnr, if_false, bch2JournalSetWatermark]
  exact h.advanceDirty j.lastSeqOndisk

theorem bch2JournalDoDiscards_ordered {j : Journal} {lastSeq : ℕ} (h : j.device.Ordered lastSeq) :
    (bch2JournalDoDiscards j).device.Ordered lastSeq :=
  h.advanceDiscard

end Subvol

import Subvol.Journal.Pins

/-!
# Reservations and the journal flush

Model of `bch2_journal_flush` with the device writes it makes, and of the reservations that fill
the open entry. A flush closes the open entry: it builds the record, moves to the next bucket
when the record does not fit the current one (zeroing that bucket first), writes the record
behind the last one and opens the next sequence.

The root entries appended by `bch2_btree_roots_to_journal_entries` and the callbacks of journal
pins are parameters. `FlushIo` holds the answers of the device file; a write that is not taken
whole is the torn write of a crash or the `-5` of an I/O error.

## Main definitions

* `journalResGetFast`, `journalResWrite`, `bch2JournalResPut`.
* `flushRecord`, `diskRecord`, `diskWords`: the record in memory and on the device.
* `journalWriteDevice`: the part of the flush that touches the device.
* `bch2JournalFlush`.

## Main results

* `journalWriteDevice_cases`: everything the device part can do.
* `Journal.Wf.flushPublish`: the tail of the flush keeps `Journal.Wf` and moves only what it
  should.
-/

namespace Subvol

open Lib

variable (g : JournalGeometry)

/-! ### Reservations -/

/-- `journal_res`. -/
structure JournalRes where
  u64s : ℕ
  offset : ℕ
  seq : ℕ
deriving DecidableEq, Repr

/-- `journal_res_get_fast`: `none` when it returns false or fails an assertion. -/
def journalResGetFast (j : Journal) (u64s flags : ℕ) : Option (Journal × JournalRes) :=
  let r := j.reservations
  if r.offset + u64s > j.curEntryU64s ∨ r.count r.idx = 0 ∨
      flags % 8 < j.watermark.toNat ∨ r.count r.idx = 0x3ff then none
  else
    let seq := j.seq - (j.seq - r.idx) % journalStateBufNr
    if (j.ring r.idx).seq ≠ seq then none
    else
      let r' :=
        { r with
          offset := r.offset + u64s
          count := Function.update r.count r.idx (r.count r.idx + 1) }
      some ({ j with reservations := r' }, ⟨u64s, r.offset, seq⟩)

/-- Store words in the buffer of a reservation, `offset` words into the entry. -/
def journalResWrite (j : Journal) (seq offset : ℕ) (ws : List UInt64) : Journal :=
  let idx := seq % journalStateBufNr
  let buf := { j.ring idx with data := (j.ring idx).data.writeAt offset ws }
  { j with ring := Function.update j.ring idx buf }

/-- `bch2_journal_res_put`: the rest of the reservation is filled with empty entries. -/
def bch2JournalResPut (j : Journal) (res : JournalRes) : Journal :=
  let j := journalResWrite j res.seq res.offset (List.replicate res.u64s 0)
  let idx := res.seq % journalStateBufNr
  { j with reservations :=
      { j.reservations with
        count := Function.update j.reservations.count idx (j.reservations.count idx - 1) } }

/-! ### The record -/

/-- The record a flush closes: the header, the reserved words of the open buffer and, on a
device, the root entries. -/
def flushRecord (j : Journal) (roots : List UInt64) : Jset :=
  let data := (j.ring j.reservations.idx).data.readAt 0 j.reservations.offset
  let payload := if j.attached then data ++ roots else data
  { csum := ⟨0, 0⟩
    magic := jsetMagic
    seq := j.seq
    version := 0
    flags := 0
    u64s := payload.length
    lastSeq := j.lastSeq
    payload := payload }

/-- The header words of a record on the device behind its checksum: the magic number of the file
system, the sequence, version and checksum type, the payload length and `last_seq`. -/
def diskHeader (r : Jset) : List UInt64 :=
  [g.diskMagic, UInt64.ofNat r.seq,
    UInt64.ofNat (metadataVersionCurrent + bchCsumXxhash * 2 ^ 32),
    UInt64.ofNat r.u64s, UInt64.ofNat r.lastSeq]

/-- A record as it is on the device, with the checksum of everything behind it. -/
def diskRecord (r : Jset) : Jset where
  version := metadataVersionCurrent
  flags := bchCsumXxhash
  magic := g.diskMagic
  seq := r.seq
  u64s := r.u64s
  lastSeq := r.lastSeq
  payload := r.payload
  csum := bch2Checksum (diskHeader g r ++ r.payload)

/-- The words of a record on the device, padded to whole blocks. -/
def diskWords (r : Jset) : List UInt64 :=
  (diskRecord g r).words ++
    List.replicate (g.writeU64s r.words.length - r.words.length) 0

/-! ### The device -/

/-- The answers of the device file during a flush: how many words of the zeroing write and of
the record write are taken (`none`: all of them), and whether the sync succeeds. -/
structure FlushIo where
  zeroTaken : Option ℕ := none
  recordTaken : Option ℕ := none
  synced : Bool := true

/-- The words of a write that the file takes. -/
def takeWrite (taken : Option ℕ) (ws : List UInt64) : List UInt64 :=
  match taken with
  | none => ws
  | some n => ws.take n

/-- A write at a word address. -/
abbrev DeviceWrite := ℕ × List UInt64

/-- The device after a sequence of writes. -/
def applyWrites (img : Image UInt64) (ws : List DeviceWrite) : Image UInt64 :=
  ws.foldl (fun img w => img.writeAt w.1 w.2) img

/-- The move to the next bucket, made when the record does not fit behind the last one and a
bucket is available. -/
def advanceBucket (ja : JournalDevice) (seq : ℕ) : JournalDevice :=
  let curIdx := Ring.next ja.nr ja.curIdx
  { ja with
    curIdx := curIdx
    sectorsFree := g.bucketSize
    bucketSeq := ja.bucketSeq.set curIdx seq }

/-- Whether a flush moves to the next bucket. -/
def advances (ja : JournalDevice) (sectors : ℕ) : Bool :=
  decide (sectors > ja.sectorsFree ∧ bch2JournalDevBucketsAvailable ja .discarded ≠ 0)

/-- The zeroing of the current bucket. -/
def zeroBucket (ja : JournalDevice) : DeviceWrite :=
  (ja.buckets.getD ja.curIdx 0 * g.bucketU64s, List.replicate g.bucketU64s 0)

/-- Where the next record goes: behind the sectors used in the current bucket. -/
def recordOffset (ja : JournalDevice) : ℕ :=
  ja.buckets.getD ja.curIdx 0 * g.bucketU64s + (g.bucketSize - ja.sectorsFree) * sectorU64s

/-- The device state after a successful write of a record. -/
def recordWritten (ja : JournalDevice) (r : Jset) : JournalDevice :=
  { ja with
    sectorsFree := ja.sectorsFree - g.writeSectors r.words.length
    bucketSeq := ja.bucketSeq.set ja.curIdx r.seq
    highestSeqFound := r.seq }

/-- The part of `bch2_journal_flush` behind the bucket choice: zero the bucket if it was just
entered, then write the record. -/
def journalWriteRecord (io : FlushIo) (r : Jset) (ja : JournalDevice) (advanced : Bool) :
    ℤ × JournalDevice × List DeviceWrite :=
  let zero := zeroBucket g ja
  let zeroTaken := takeWrite io.zeroTaken zero.2
  let zeros := if advanced then [(zero.1, zeroTaken)] else []
  if advanced ∧ zeroTaken.length ≠ zero.2.length then (-5, ja, zeros)
  else
    let disk := diskWords g r
    let offset := recordOffset g ja
    if offset + disk.length > g.fileSectors * sectorU64s then (-5, ja, zeros)
    else
      let taken := takeWrite io.recordTaken disk
      if taken.length ≠ disk.length ∨ io.synced = false then (-5, ja, zeros ++ [(offset, taken)])
      else (0, recordWritten g ja r, zeros ++ [(offset, disk)])

/-- The part of `bch2_journal_flush` that works on the device: the value it returns, the device
state and the writes it has made. -/
def journalWriteDevice (io : FlushIo) (r : Jset) (ja : JournalDevice) :
    ℤ × JournalDevice × List DeviceWrite :=
  let sectors := g.writeSectors r.words.length
  if sectors > g.bucketSize then (-4, ja, [])
  else if ja.nr ≠ g.nr ∨ ja.buckets.length ≠ ja.nr ∨ ja.bucketSeq.length ≠ ja.nr then (-4, ja, [])
  else if advances ja sectors then
    journalWriteRecord g io r (advanceBucket g ja r.seq) true
  else if sectors > ja.sectorsFree then (-9, ja, [])
  else journalWriteRecord g io r ja false

/-! ### The flush -/

/-- The pin fifo of the next entry: a list for it is pushed, and the entry just closed loses the
reference that being open gave it. The source asserts that the fifo ends at the closed entry and
that this reference is there. -/
def rotatePins (pin : JournalPinFifo) (oldSeq : ℕ) : Option JournalPinFifo :=
  if pin.front + pin.lists.length ≠ oldSeq + 1 then none
  else
    let lists := pin.lists ++ [{ count := 1 }]
    match lists[oldSeq - pin.front]? with
    | some p =>
      if p.count = 0 then none
      else some { pin with lists := lists.set (oldSeq - pin.front) { p with count := p.count - 1 } }
    | none => none

/-- The reservation word after the switch to the next buffer. -/
def openReservations (r : JournalReservations) (newIdx : ℕ) : JournalReservations :=
  let count := Function.update r.count r.idx (r.count r.idx - 1)
  { offset := 0, idx := newIdx, count := Function.update count newIdx (count newIdx + 1) }

/-- The journal with the next entry open and the boundaries of the closed record published. -/
def openNext (j : Journal) (r : Jset) (pin : JournalPinFifo) : Journal :=
  let newIdx := (j.seq + 1) % journalStateBufNr
  { j with
    seq := j.seq + 1
    reservations := openReservations j.reservations newIdx
    ring := Function.update j.ring newIdx { seq := j.seq + 1 }
    pin := pin
    seqOndisk := j.seq
    lastSeqOndisk := max j.lastSeqOndisk (r.lastSeq + (journalEntryEmpty r).toNat) }

/-- The end of `bch2_journal_flush`: boundaries, space and the reclaim that was asked for. -/
def flushSettle (fn : PinFlushFn) (fuel : ℕ) (j : Journal) : Option Journal :=
  let j := bch2JournalUpdateLastSeq g j
  let j := bch2JournalDoDiscards (bch2JournalSpaceAvailable g j)
  let j :=
    if j.curEntrySectors ≠ 0 then
      { j with curEntryU64s := journalEntryU64sForSectors j.curEntrySectors }
    else j
  if j.reclaimKicked then journalReclaim g fn false fuel true { j with reclaimKicked := false }
  else some j

/-- The part of `bch2_journal_flush` behind the device write: `none` is a failed assertion. -/
def flushPublish (fn : PinFlushFn) (fuel : ℕ) (j : Journal) (r : Jset) : Option (ℤ × Journal) :=
  let j := { j with closed := j.closed ++ [r] }
  if j.seq + 1 > journalSeqMax then some (-2, j)
  else if j.reservations.count ((j.seq + 1) % journalStateBufNr) ≠ 0 then some (-3, j)
  else do
    let pin ← rotatePins j.pin j.seq
    let j ← flushSettle g fn fuel (openNext j r pin)
    some (0, j)

/-- What a flush returns (`none`: a failed assertion), the journal it leaves and the device
writes it has made. -/
structure FlushResult where
  ret : Option ℤ
  journal : Journal
  writes : List DeviceWrite

/-- The part of `bch2_journal_flush` behind the device, from what the device part returned. -/
def flushFinish (fn : PinFlushFn) (fuel : ℕ) (j : Journal) (r : Jset) (ret : ℤ)
    (device : JournalDevice) (writes : List DeviceWrite) : FlushResult :=
  let j := { j with device := device }
  if ret ≠ 0 then ⟨some ret, j, writes⟩
  else
    match flushPublish g fn fuel j r with
    | some (ret, j) => ⟨some ret, j, writes⟩
    | none => ⟨none, j, writes⟩

/-- `bch2_journal_flush`. -/
def bch2JournalFlush (io : FlushIo) (fn : PinFlushFn) (fuel : ℕ) (roots : List UInt64)
    (j : Journal) : FlushResult :=
  let res := j.reservations
  if res.count res.idx ≠ 1 then ⟨some (-1), j, []⟩
  else if (j.ring res.idx).seq ≠ j.seq then ⟨none, j, []⟩
  else if j.faultInjectWriteError ≠ 0 then
    ⟨some (-5), { j with faultInjectWriteError := j.faultInjectWriteError - 1 }, []⟩
  else
    let r := flushRecord j roots
    if j.attached then
      let (ret, device, writes) := journalWriteDevice g io r j.device
      flushFinish g fn fuel j r ret device writes
    else flushFinish g fn fuel j r 0 j.device []

/-! ### The device part of a flush -/

/-- The device state belongs to the geometry: it lists the journal buckets, and the current
bucket has no more free sectors than its size. -/
structure JournalDevice.Fits (ja : JournalDevice) : Prop where
  nr_eq : ja.nr = g.nr
  buckets_eq : ja.buckets = g.buckets
  bucketSeq_length : ja.bucketSeq.length = g.nr
  cur_lt : ja.curIdx < g.nr
  free_le : ja.sectorsFree ≤ g.bucketSize

namespace JournalDevice.Fits

variable {g} {ja ja' : JournalDevice}

theorem frame (h : ja.Fits g) (hf : DeviceFrame ja ja') : ja'.Fits g where
  nr_eq := hf.nr.trans h.nr_eq
  buckets_eq := hf.buckets.trans h.buckets_eq
  bucketSeq_length := by rw [hf.bucketSeq]; exact h.bucketSeq_length
  cur_lt := by rw [hf.curIdx]; exact h.cur_lt
  free_le := by rw [hf.sectorsFree]; exact h.free_le

theorem advanceBucket (h : ja.Fits g) (seq : ℕ) : (advanceBucket g ja seq).Fits g where
  nr_eq := h.nr_eq
  buckets_eq := h.buckets_eq
  bucketSeq_length := by
    simp only [Subvol.advanceBucket, List.length_set]
    exact h.bucketSeq_length
  cur_lt := by
    have hpos : 0 < g.nr := lt_of_le_of_lt (Nat.zero_le _) h.cur_lt
    simp only [Subvol.advanceBucket, h.nr_eq]
    exact Ring.next_lt hpos
  free_le := le_rfl

theorem recordWritten (h : ja.Fits g) (r : Jset) : (recordWritten g ja r).Fits g where
  nr_eq := h.nr_eq
  buckets_eq := h.buckets_eq
  bucketSeq_length := by
    simp only [Subvol.recordWritten, List.length_set]
    exact h.bucketSeq_length
  cur_lt := h.cur_lt
  free_le := (Nat.sub_le _ _).trans h.free_le

theorem recordOffset_eq (h : ja.Fits g) : recordOffset g ja =
    g.bucketStart ja.curIdx + (g.bucketSize - ja.sectorsFree) * sectorU64s := by
  rw [recordOffset, h.buckets_eq]
  rfl

theorem zeroBucket_eq (h : ja.Fits g) : zeroBucket g ja =
    (g.bucketStart ja.curIdx, List.replicate g.bucketU64s 0) := by
  rw [zeroBucket, h.buckets_eq]
  rfl

end JournalDevice.Fits

namespace JournalDevice.Ordered

variable {ja : JournalDevice} {lastSeq : ℕ}

/-- A record written to the current bucket leaves the indices in order. -/
theorem recordWritten (h : ja.Ordered lastSeq) (r : Jset) :
    (recordWritten g ja r).Ordered lastSeq := by
  refine { h with old := ?_ }
  intro i hi hlt
  have hne : ja.curIdx ≠ i := by
    rintro rfl
    have hdirty := Ring.pos_lt (n := ja.nr) (c := ja.curIdx) (i := ja.dirtyIdx)
      (lt_of_le_of_lt (Nat.zero_le _) h.cur_lt)
    have hself := Ring.pos_self h.cur_lt
    change Ring.pos ja.nr ja.curIdx ja.curIdx < Ring.pos ja.nr ja.curIdx ja.dirtyIdx at hlt
    omega
  have hget : (Subvol.recordWritten g ja r).bucketSeq.getD i 0 = ja.bucketSeq.getD i 0 := by
    simp only [Subvol.recordWritten, List.getD_eq_getElem?_getD, List.getElem?_set_ne hne]
  rw [hget]
  exact h.old i hi hlt

/-- The move to an available bucket leaves the indices in order. -/
theorem advanceBucket (h : ja.Ordered lastSeq) (seq : ℕ)
    (havail : bch2JournalDevBucketsAvailable ja .discarded ≠ 0) :
    (advanceBucket g ja seq).Ordered lastSeq := by
  obtain ⟨hdiscard, hdirty⟩ := h.of_available havail
  have hpos : 0 < ja.nr := lt_of_le_of_lt (Nat.zero_le _) h.cur_lt
  have hnext := Ring.pos_next h.cur_lt
  have hnlt : Ring.next ja.nr ja.curIdx < ja.nr := Ring.next_lt hpos
  -- an index with a positive place is not the bucket entered, so it moves one place forward
  have hshift : ∀ i < ja.nr, 1 ≤ Ring.pos ja.nr ja.curIdx i →
      Ring.pos ja.nr (Ring.next ja.nr ja.curIdx) i + 1 = Ring.pos ja.nr ja.curIdx i := by
    intro i hi h1
    apply Ring.pos_next_slot h.cur_lt hi
    rintro rfl
    omega
  have h₁ := h.discard_le
  have h₂ := h.dirtyOndisk_le
  have s₁ := hshift _ h.discard_lt hdiscard
  have s₂ := hshift _ h.dirtyOndisk_lt (by omega)
  have s₃ := hshift _ h.dirty_lt (by omega)
  refine ⟨hnlt, h.discard_lt, h.dirtyOndisk_lt, h.dirty_lt, ?_, ?_, ?_⟩
  · change Ring.pos ja.nr (Ring.next ja.nr ja.curIdx) ja.discardIdx ≤
      Ring.pos ja.nr (Ring.next ja.nr ja.curIdx) ja.dirtyIdxOndisk
    omega
  · change Ring.pos ja.nr (Ring.next ja.nr ja.curIdx) ja.dirtyIdxOndisk ≤
      Ring.pos ja.nr (Ring.next ja.nr ja.curIdx) ja.dirtyIdx
    omega
  · intro i hi hlt
    change Ring.pos ja.nr (Ring.next ja.nr ja.curIdx) i <
      Ring.pos ja.nr (Ring.next ja.nr ja.curIdx) ja.dirtyIdx at hlt
    have hne : Ring.next ja.nr ja.curIdx ≠ i := by
      rintro rfl
      have hself := Ring.pos_self hnlt
      have := Ring.pos_lt (n := ja.nr) (c := ja.curIdx) (i := ja.dirtyIdx) hpos
      omega
    have hmove := Ring.pos_next_slot h.cur_lt hi hne.symm
    have hget : (Subvol.advanceBucket g ja seq).bucketSeq.getD i 0 = ja.bucketSeq.getD i 0 := by
      simp only [Subvol.advanceBucket, List.getD_eq_getElem?_getD, List.getElem?_set_ne hne]
    rw [hget]
    exact h.old i hi (by omega)

end JournalDevice.Ordered

/-- What the device part of a flush does when the file takes the zeroing whole: it refuses the
record, or writes it behind the last one of the current bucket, or zeroes the next bucket and
writes it there. -/
inductive DeviceWriteCase (io : FlushIo) (r : Jset) (ja : JournalDevice) :
    ℤ × JournalDevice × List DeviceWrite → Prop
  | refused (ret : ℤ) (hret : ret ≠ 0) : DeviceWriteCase io r ja (ret, ja, [])
  | behind (hfit : g.writeSectors r.words.length ≤ ja.sectorsFree) :
      DeviceWriteCase io r ja (journalWriteRecord g io r ja false)
  | entered (hsize : g.writeSectors r.words.length ≤ g.bucketSize)
      (havail : bch2JournalDevBucketsAvailable ja .discarded ≠ 0) :
      DeviceWriteCase io r ja (journalWriteRecord g io r (advanceBucket g ja r.seq) true)

theorem journalWriteDevice_cases (io : FlushIo) (r : Jset) (ja : JournalDevice) :
    DeviceWriteCase g io r ja (journalWriteDevice g io r ja) := by
  unfold journalWriteDevice
  dsimp only
  split_ifs with h₁ h₂ h₃ h₄
  · exact .refused _ (by decide)
  · exact .refused _ (by decide)
  · simp only [advances, decide_eq_true_eq] at h₃
    exact .entered (Nat.not_lt.mp h₁) h₃.2
  · exact .refused _ (by decide)
  · exact .behind (Nat.not_lt.mp h₄)

/-! ### The end of a flush -/

theorem rotatePins_extent {pin pin' : JournalPinFifo} {oldSeq : ℕ}
    (h : rotatePins pin oldSeq = some pin') :
    pin'.front = pin.front ∧ pin'.lists.length = pin.lists.length + 1 := by
  unfold rotatePins at h
  split_ifs at h
  dsimp only at h
  split at h
  · split_ifs at h
    cases h
    exact ⟨rfl, by simp⟩
  · cases h

theorem flushFinish_writes (fn : PinFlushFn) (fuel : ℕ) (j : Journal) (r : Jset) (ret : ℤ)
    (device : JournalDevice) (writes : List DeviceWrite) :
    (flushFinish g fn fuel j r ret device writes).writes = writes := by
  unfold flushFinish
  dsimp only
  split_ifs
  · rfl
  · split <;> rfl

/-- The open entry is the buffer of its sequence, and no other buffer is referred to. -/
structure Journal.OpenOk (j : Journal) : Prop where
  idx_eq : j.reservations.idx = j.seq % journalStateBufNr
  count_eq : ∀ i, i ≠ j.reservations.idx → j.reservations.count i = 0

theorem Journal.OpenOk.congr {j j' : Journal} (h : j.OpenOk)
    (hres : j'.reservations = j.reservations) (hseq : j'.seq = j.seq) : j'.OpenOk where
  idx_eq := by rw [hres, hseq]; exact h.idx_eq
  count_eq := by rw [hres]; exact h.count_eq

/-- The end of a flush, for a relation that also holds along the boundary, the space accounting and
the budget of the next entry. -/
theorem PinRel.flushSettle {g : JournalGeometry} {R : Journal → Journal → Prop} (h : PinRel g R)
    (hlast : ∀ j, R j (bch2JournalUpdateLastSeq g j))
    (hspace : ∀ j, R j (bch2JournalDoDiscards (bch2JournalSpaceAvailable g j)))
    (hbudget : ∀ j, R j { j with curEntryU64s := journalEntryU64sForSectors j.curEntrySectors })
    {fn : PinFlushFn} {fuel : ℕ} {j j' : Journal}
    (hstep : flushSettle g fn fuel j = some j') : R j j' := by
  unfold Subvol.flushSettle at hstep
  dsimp only at hstep
  have h₂ := h.trans (hlast j) (hspace _)
  revert hstep h₂
  generalize bch2JournalDoDiscards (bch2JournalSpaceAvailable g (bch2JournalUpdateLastSeq g j)) = j₂
  intro hstep h₂
  have hset := h.trans h₂ (hbudget j₂)
  have hkicked : ∀ j, R j { j with reclaimKicked := false } :=
    fun j => h.bookkeeping j _ _ _ _ false
  split_ifs at hstep with hsec hkick hkick
  · exact h.trans hset (h.trans (hkicked _) (h.journalReclaim hstep))
  · cases hstep
    exact hset
  · exact h.trans h₂ (h.trans (hkicked _) (h.journalReclaim hstep))
  · cases hstep
    exact h₂

namespace Journal.Wf

variable {j j' : Journal} {fn : PinFlushFn} {fuel : ℕ} {r : Jset}

theorem openNext (h : j.Wf) {pin : JournalPinFifo} (hpin : rotatePins j.pin j.seq = some pin) :
    (openNext j r pin).Wf := by
  obtain ⟨hfront, hlen⟩ := rotatePins_extent hpin
  refine ⟨h.ordered, hfront.trans h.front_eq, ?_, rfl, h.lastSeq_le.trans (Nat.le_succ _),
    h.lastSeq_pos⟩
  have hfifo := h.fifo_length
  simp only [Subvol.openNext]
  omega

/-- The end of the flush is a step on pins. -/
theorem flushSettle (h : j.Wf) (hstep : flushSettle g fn fuel j = some j') : PinStep j j' :=
  (pinRel g).flushSettle (fun _ h => h.updateLastSeq g) (fun _ h => h.spaceAvailable g)
    (fun _ h => ⟨h.congr rfl rfl rfl rfl rfl rfl,
      ⟨rfl, rfl, rfl, rfl, rfl, .refl _, rfl, le_rfl⟩⟩) hstep h

end Journal.Wf

/-- What the end of a flush does with the record written: the sequence is used up, or the next
entry is open. -/
inductive PublishCase (j : Journal) (r : Jset) : ℤ → Journal → Prop
  | exhausted (hmax : journalSeqMax ≤ j.seq) :
      PublishCase j r (-2) { j with closed := j.closed ++ [r] }
  | opened (hmax : j.seq < journalSeqMax) {pin : JournalPinFifo} {j' : Journal}
      (hpin : rotatePins j.pin j.seq = some pin)
      (hstep : PinStep (openNext { j with closed := j.closed ++ [r] } r pin) j') :
      PublishCase j r 0 j'

theorem flushPublish_cases {fn : PinFlushFn} {fuel : ℕ} {j j' : Journal} {r : Jset} {ret : ℤ}
    (hwf : j.Wf) (hopen : j.OpenOk) (h : flushPublish g fn fuel j r = some (ret, j')) :
    PublishCase j r ret j' := by
  unfold flushPublish at h
  dsimp only at h
  split_ifs at h with hmax hcount
  · cases h
    exact .exhausted (by omega)
  · -- the buffer of the next sequence is not the open one, so nothing refers to it
    have hne : (j.seq + 1) % journalStateBufNr ≠ j.reservations.idx := by
      rw [hopen.idx_eq]
      simp only [journalStateBufNr]
      omega
    exact absurd (hopen.count_eq _ hne) hcount
  · simp only [Option.bind_eq_bind, Option.bind_eq_some_iff, Option.some.injEq,
      Prod.mk.injEq] at h
    obtain ⟨pin, hpin, j₁, hsettle, rfl, rfl⟩ := h
    have hwf' : Journal.Wf { j with closed := j.closed ++ [r] } :=
      hwf.congr rfl rfl rfl rfl rfl rfl
    exact .opened (by omega) hpin ((hwf'.openNext hpin).flushSettle g hsettle)

/-- The journal with the next entry open has the one reference of being open. -/
theorem Journal.OpenOk.openNext {j : Journal} (h : j.OpenOk) (r : Jset) (pin : JournalPinFifo)
    (hone : j.reservations.count j.reservations.idx = 1) : (openNext j r pin).OpenOk where
  idx_eq := rfl
  count_eq i hi := by
    simp only [Subvol.openNext, openReservations] at hi ⊢
    rw [Function.update_of_ne hi]
    by_cases hold : i = j.reservations.idx
    · rw [hold, Function.update_self, hone]
    · rw [Function.update_of_ne hold]
      exact h.count_eq i hold

end Subvol

import Subvol.Journal.Run

/-!
# Flushing and reading back

A journal that has only seen successful flushes is read back from its device as it was: the
records of the window of the newest one, the write position and the next sequence, so that the
next flush goes on behind the newest record.

When the next flush is cut off inside the write of its record, what is read back depends on
whether the header reached the device. Without it the journal is the one before the flush. With
it the checksum decides: a record whose stored words do not match it makes the whole read fail
with `-6`, one whose words match counts as written.

## Main definitions

* `FlushRun`: the runs of successful flushes.
* `FlushWrites`: the device writes a flush can make.
* `ResumesBehind`: the next flush goes on behind the newest record and spares the live ones.
* `tornRecord`, `tornImage`: a record write cut off at a block.

## Main results

* `journal_round_trip`: what is read back after a run of flushes.
* `journal_torn_write`: what is read back after a torn write.
-/

namespace Subvol

open Lib

variable (g : JournalGeometry)

/-- What a record says, without the fields that differ between memory and device. -/
def Jset.content (r : Jset) : ℕ × ℕ × List UInt64 := (r.seq, r.lastSeq, r.payload)

/-! ### The writes of a flush -/

/-- The writes of a flush on a device that takes the zeroing whole and `taken` words of the
record: none, the record behind the last one of the current bucket, or the zeroes of the next
bucket and the record at its start. -/
inductive FlushWrites (ja : JournalDevice) (r : Jset) (taken : Option ℕ) :
    List DeviceWrite → Prop
  | none : FlushWrites ja r taken []
  | behind (hfit : g.writeSectors r.words.length ≤ ja.sectorsFree) :
      FlushWrites ja r taken [(recordOffset g ja, takeWrite taken (diskWords g r))]
  | entered (hsize : g.writeSectors r.words.length ≤ g.bucketSize)
      (havail : bch2JournalDevBucketsAvailable ja .discarded ≠ 0) :
      FlushWrites ja r taken
        [(g.bucketStart (Ring.next g.nr ja.curIdx), List.replicate g.bucketU64s 0),
          (g.bucketStart (Ring.next g.nr ja.curIdx), takeWrite taken (diskWords g r))]

variable {g}

/-- A write that is taken in its whole length is taken whole. -/
theorem takeWrite_of_length {taken : Option ℕ} {ws : List UInt64}
    (h : (takeWrite taken ws).length = ws.length) : takeWrite taken ws = ws := by
  cases taken with
  | none => rfl
  | some n =>
    simp only [takeWrite, List.length_take] at h ⊢
    exact List.take_of_length_le (by omega)

theorem journalWriteRecord_writes {io : FlushIo} (hzero : io.zeroTaken = none)
    {ja : JournalDevice} {r : Jset} (advanced : Bool) (hfits : ja.Fits g)
    (hfit : g.writeSectors r.words.length ≤ ja.sectorsFree) :
    (journalWriteRecord g io r ja advanced).2.2 =
      (if advanced then [zeroBucket g ja] else []) ++
        [(recordOffset g ja, takeWrite io.recordTaken (diskWords g r))] := by
  have hin := hfits.recordOffset_inside hfit
  have htake : takeWrite io.zeroTaken (zeroBucket g ja).2 = (zeroBucket g ja).2 := by
    rw [hzero]
    rfl
  simp only [journalWriteRecord, htake, ne_eq, not_true_eq_false, and_false, if_false,
    gt_iff_lt, Nat.not_lt.mpr hin]
  by_cases htorn : ¬(takeWrite io.recordTaken (diskWords g r)).length = (diskWords g r).length ∨
      io.synced = false
  · rw [if_pos htorn]
  · rw [if_neg htorn, takeWrite_of_length (not_not.mp (not_or.mp htorn).1)]

/-- The writes of a flush of an attached journal. -/
theorem LiveInv.flushWrites {img : Image UInt64} {hist : List Jset} {bk : ℕ → List Jset}
    {j : Journal} (h : LiveInv g img hist bk j) (io : FlushIo) (hzero : io.zeroTaken = none)
    (fn : PinFlushFn) (fuel : ℕ) (roots : List UInt64) :
    FlushWrites g j.device (flushRecord j roots) io.recordTaken
      (bch2JournalFlush g io fn fuel roots j).writes := by
  unfold bch2JournalFlush
  dsimp only
  split_ifs with hcount hring hfault hatt
  · exact .none
  · exact .none
  · exact .none
  · have hcase := journalWriteDevice_cases g io (flushRecord j roots) j.device
    generalize journalWriteDevice g io (flushRecord j roots) j.device = dev at hcase ⊢
    rw [flushFinish_writes]
    cases hcase with
    | refused ret hret => exact .none
    | behind hfit =>
      rw [journalWriteRecord_writes hzero false h.fits hfit]
      exact .behind hfit
    | entered hsize havail =>
      have hfits := h.fits.advanceBucket (flushRecord j roots).seq
      rw [journalWriteRecord_writes hzero true hfits hsize, hfits.zeroBucket_eq,
        hfits.recordOffset_advanced rfl]
      have hcur : (advanceBucket g j.device (flushRecord j roots).seq).curIdx =
          Ring.next g.nr j.device.curIdx := by
        simp only [advanceBucket, h.fits.nr_eq]
      rw [hcur]
      exact .entered hsize havail
  · exact absurd h.attached hatt

/-! ### Stored records and writes -/

/-- A write into another bucket leaves a stored record alone. -/
theorem StoredAt.writeAt_other {img : Image UInt64} {i c s off : ℕ} {r : Jset}
    {ws : List UInt64} (h : StoredAt g img i s r) (hi : i < g.nr) (hc : c < g.nr) (hne : i ≠ c)
    (hoff : g.bucketStart c ≤ off) (hend : off + ws.length ≤ g.bucketStart c + g.bucketU64s) :
    StoredAt g (img.writeAt off ws) i s r := by
  have hlen : (s + g.writeSectors r.words.length) * sectorU64s ≤ g.bucketU64s :=
    Nat.mul_le_mul_right _ h.1
  apply h.writeAt
  rcases g.bucketStart_disjoint hi hc hne with hd | hd
  · right
    omega
  · left
    omega

/-- Records stay stored over writes that each leave them. -/
theorem StoredAt.applyWrites {img : Image UInt64} {i s : ℕ} {r : Jset} {ws : List DeviceWrite}
    (h : StoredAt g img i s r)
    (hstep : ∀ w ∈ ws, ∀ img', StoredAt g img' i s r → StoredAt g (img'.writeAt w.1 w.2) i s r) :
    StoredAt g (applyWrites img ws) i s r := by
  induction ws generalizing img with
  | nil => exact h
  | cons w ws ih =>
    exact ih (hstep w (List.mem_cons_self ..) img h)
      fun w' hw' => hstep w' (List.mem_cons_of_mem _ hw')

/-- No write of a flush touches a live record. -/
theorem LiveInv.live_stored {img : Image UInt64} {hist : List Jset} {bk : ℕ → List Jset}
    {j : Journal} (h : LiveInv g img hist bk j) {r : Jset} (hr : r ∈ liveRecords hist)
    {new : Jset} {writes : List DeviceWrite} (hw : FlushWrites g j.device new none writes) :
    ∃ i < g.nr, ∃ s, ∀ k, StoredAt g (applyWrites img (writes.take k)) i s r := by
  obtain ⟨hmem, nw, hnw, hle, -⟩ := mem_liveRecords.mp hr
  obtain ⟨i, hi, hri⟩ := h.durable.kept nw hnw r hmem hle
  obtain ⟨pre, post, hsplit⟩ := List.append_of_mem hri
  have hstored := h.durable.layout.storedAt hi hsplit
  refine ⟨i, hi, usedSectors g pre, fun k => hstored.applyWrites fun w hw' img' hst => ?_⟩
  have hw' := List.mem_of_mem_take hw'
  cases hw with
  | none => cases hw'
  | behind hfit =>
    cases List.mem_singleton.mp hw'
    have hend : usedSectors g (bk j.device.curIdx) * sectorU64s + (diskWords g new).length ≤
        g.bucketU64s := by
      have hfree := h.free
      rw [length_diskWords, g.writeU64s_eq, ← Nat.add_mul]
      exact Nat.mul_le_mul_right _ (by omega)
    simp only [takeWrite, h.recordOffset_eq]
    by_cases hic : i = j.device.curIdx
    · -- the record lies before the end of what is used
      subst hic
      have hused : usedSectors g pre + g.writeSectors r.words.length ≤
          usedSectors g (bk j.device.curIdx) := by
        rw [hsplit, ← List.singleton_append, usedSectors_append, usedSectors_append,
          usedSectors_singleton]
        omega
      have := Nat.mul_le_mul_right sectorU64s hused
      exact hst.writeAt (Or.inr (by omega))
    · exact hst.writeAt_other hi h.durable.cur_lt hic (by omega) (by omega)
  | entered hsize havail =>
    obtain ⟨hne, -, -⟩ := h.available_old havail
    have hin : i ≠ Ring.next g.nr j.device.curIdx := by
      rintro rfl
      have := h.durable.next_old nw hnw hne r hri
      omega
    have hend : (diskWords g new).length ≤ g.bucketU64s := by
      rw [length_diskWords, g.writeU64s_eq]
      exact Nat.mul_le_mul_right _ hsize
    have hlt : Ring.next g.nr j.device.curIdx < g.nr := Ring.next_lt h.durable.nr_pos
    simp only [List.mem_cons, List.not_mem_nil, or_false] at hw'
    rcases hw' with rfl | rfl
    · exact hst.writeAt_other hi hlt hin le_rfl (by simp)
    · exact hst.writeAt_other hi hlt hin le_rfl (by simp only [takeWrite]; omega)

/-! ### Runs of successful flushes -/

variable (g) in
/-- The journal was attached to a freshly formatted device, and since then every flush has
succeeded. Between the flushes the journal may be worked on, pins and boundaries included, and
the device may be written outside of the journal buckets. -/
inductive FlushRun : Image UInt64 → List Jset → Journal → Prop
  | attach {img : Image UInt64} {j₀ j : Journal} {info : JournalStartInfo}
      (hfmt : Formatted g img) (hread : bch2JournalRead g img j₀ = .ok (j, info)) :
      FlushRun img [] j
  | op {img : Image UInt64} {hist : List Jset} {j j' : Journal} (h : FlushRun img hist j)
      (hop : JournalOp g j j') : FlushRun img hist j'
  | flush {img : Image UInt64} {hist : List Jset} {j : Journal} (h : FlushRun img hist j)
      (fn : PinFlushFn) (fuel : ℕ) (roots : List UInt64)
      (hret : (bch2JournalFlush g {} fn fuel roots j).ret = some 0) :
      FlushRun (applyWrites img (bch2JournalFlush g {} fn fuel roots j).writes)
        (hist ++ [flushRecord j roots]) (bch2JournalFlush g {} fn fuel roots j).journal
  | elsewhere {img : Image UInt64} {hist : List Jset} {j : Journal} (h : FlushRun img hist j)
      {off : ℕ} {ws : List UInt64}
      (hout : ∀ i < g.nr, off + ws.length ≤ g.bucketStart i ∨
        g.bucketStart i + g.bucketU64s ≤ off) :
      FlushRun (img.writeAt off ws) hist j

/-- A run of successful flushes keeps the invariant and does not use up the sequences. -/
theorem FlushRun.inv {img : Image UInt64} {hist : List Jset} {j : Journal}
    (h : FlushRun g img hist j) :
    (∃ bk, LiveInv g img hist bk j) ∧ ∀ r ∈ hist, r.seq < journalSeqMax := by
  induction h with
  | @attach img j₀ j info hfmt hread =>
    have hdur := DurableInv.of_empty hfmt.layout fun _ _ => rfl
    have hmax : ∀ r ∈ ([] : List Jset), r.seq < journalSeqMax := fun r hr => by cases hr
    obtain ⟨j', info', hread', hlive, -⟩ := hdur.bch2JournalRead hmax j₀
    cases hread.symm.trans hread'
    exact ⟨⟨_, hlive⟩, hmax⟩
  | op _ hop ih =>
    obtain ⟨⟨bk, hlive⟩, hmax⟩ := ih
    exact ⟨⟨bk, hlive.op hop⟩, hmax⟩
  | @flush img hist j _ fn fuel roots hret ih =>
    obtain ⟨⟨bk, hlive⟩, hmax⟩ := ih
    have hconcat : (flushRecord j roots).seq < journalSeqMax →
        ∀ r ∈ hist ++ [flushRecord j roots], r.seq < journalSeqMax := by
      intro hlt r hr
      rcases List.mem_append.mp hr with hr | hr
      · exact hmax r hr
      · rw [List.mem_singleton.mp hr]
        exact hlt
    cases hlive.flush fn fuel roots with
    | none _ _ hne _ => exact absurd hret hne
    | record hwrites _ hj =>
      obtain ⟨hlive', hlt⟩ := hj 0 hret
      rw [hwrites]
      exact ⟨⟨_, hlive'⟩, hconcat (hlt rfl)⟩
    | zeroed hwrites _ _ hj =>
      obtain ⟨hlive', hlt⟩ := hj 0 hret
      rw [hwrites]
      exact ⟨⟨_, hlive'⟩, hconcat (hlt rfl)⟩
  | elsewhere _ hout ih =>
    obtain ⟨⟨bk, hlive⟩, hmax⟩ := ih
    exact ⟨⟨bk, { hlive with durable := hlive.durable.outside hout }⟩, hmax⟩

/-! ### The round trip -/

/-- The read returns the live records of the history. -/
def ReadsBack (hist : List Jset) (res : Except ℤ (Journal × JournalStartInfo)) : Prop :=
  ∃ j info, res = .ok (j, info) ∧
    j.closed.map Jset.content = (liveRecords hist).map Jset.content

variable (g) in
/-- The writer goes on behind the newest record: that record ends where the free sectors of the
current bucket start, and every flush writes its record there or at the start of the next bucket,
with no effect on the live records at any time. -/
def ResumesBehind (img : Image UInt64) (hist : List Jset) (j : Journal) : Prop :=
  (∀ nw ∈ hist.getLast?, ∃ s, StoredAt g img j.device.curIdx s nw ∧
    s + g.writeSectors nw.words.length + j.device.sectorsFree = g.bucketSize) ∧
  ∀ (fn : PinFlushFn) (fuel : ℕ) (roots : List UInt64),
    FlushWrites g j.device (flushRecord j roots) none
      (bch2JournalFlush g {} fn fuel roots j).writes ∧
    ∀ r ∈ liveRecords hist, ∃ i < g.nr, ∃ s, ∀ k,
      StoredAt g (applyWrites img ((bch2JournalFlush g {} fn fuel roots j).writes.take k)) i s r

theorem LiveInv.resumesBehind {img : Image UInt64} {hist : List Jset} {bk : ℕ → List Jset}
    {j : Journal} (h : LiveInv g img hist bk j) : ResumesBehind g img hist j := by
  refine ⟨?_, ?_⟩
  · intro nw hnw
    obtain ⟨pre, hpre⟩ := List.getLast?_eq_some_iff.mp (h.durable.newest.trans hnw)
    have hstored := h.durable.layout.storedAt h.durable.cur_lt hpre
    refine ⟨_, hstored, ?_⟩
    have hfree := h.free
    rw [hpre, usedSectors_append, usedSectors_singleton] at hfree
    exact hfree
  · intro fn fuel roots
    have hw := h.flushWrites {} rfl fn fuel roots
    exact ⟨hw, fun r hr => h.live_stored hr hw⟩

theorem readsBack_of_map {hist : List Jset} {j : Journal}
    (h : j.closed = (liveRecords hist).map (readRecord g)) :
    j.closed.map Jset.content = (liveRecords hist).map Jset.content := by
  rw [h, List.map_map]
  rfl

/-- The write positions of two journals that belong to the same device agree once their current
buckets do. -/
theorem LiveInv.position_eq {img : Image UInt64} {hist : List Jset} {bk : ℕ → List Jset}
    {j j' : Journal} (h : LiveInv g img hist bk j) (h' : LiveInv g img hist bk j')
    (hcur : j'.device.curIdx = j.device.curIdx) :
    j'.device.sectorsFree = j.device.sectorsFree ∧
      j'.device.bucketSeq = j.device.bucketSeq := by
  constructor
  · have hfree := h.free
    have hfree' := h'.free
    rw [hcur] at hfree'
    omega
  · have hlen := h.fits.bucketSeq_length
    have hlen' := h'.fits.bucketSeq_length
    apply List.ext_getElem (hlen'.trans hlen.symm)
    intro i h₁ h₂
    have hseq := h.bucketSeq i (by omega)
    have hseq' := h'.bucketSeq i (by omega)
    rw [List.getD_eq_getElem _ _ h₂] at hseq
    rw [List.getD_eq_getElem _ _ h₁] at hseq'
    rw [hseq, hseq']

/-- After successful flushes on a formatted device the journal is read back: the live records,
the write position and the next sequence. -/
theorem journal_round_trip {img : Image UInt64} {hist : List Jset} {j : Journal}
    (h : FlushRun g img hist j) (j₀ : Journal) :
    ∃ j' info, bch2JournalRead g img j₀ = .ok (j', info) ∧
      j'.closed.map Jset.content = (liveRecords hist).map Jset.content ∧
      j'.seq = j.seq ∧ j'.device.curIdx = j.device.curIdx ∧
      j'.device.sectorsFree = j.device.sectorsFree ∧
      j'.device.bucketSeq = j.device.bucketSeq ∧ ResumesBehind g img hist j' := by
  obtain ⟨⟨bk, hlive⟩, hmax⟩ := h.inv
  obtain ⟨j', info, hread, hlive', hclosed, hcur⟩ := hlive.durable.bch2JournalRead hmax j₀
  have hcur' : j'.device.curIdx = j.device.curIdx := by
    by_cases hnil : hist = []
    · rw [hlive'.cur_first hnil, hlive.cur_first hnil]
    · exact hcur hnil
  have hseq : j'.seq = j.seq := by
    cases hlast : hist.getLast? with
    | none =>
      have hnil := List.getLast?_eq_none_iff.mp hlast
      rw [hlive'.seq_first hnil, hlive.seq_first hnil]
    | some nw =>
      have hlt := hmax nw (List.mem_of_getLast? hlast)
      rw [hlive'.seq_next nw hlast hlt, hlive.seq_next nw hlast hlt]
  obtain ⟨hfree, hseqs⟩ := hlive.position_eq hlive' hcur'
  exact ⟨j', info, hread, readsBack_of_map hclosed, hseq, hcur', hfree, hseqs,
    hlive'.resumesBehind⟩

theorem flushRun_smallFlushed :
    FlushRun smallGeometry (applyWrites (fun _ => 0) smallFlushed.writes)
      [flushRecord smallJournal []] smallFlushed.journal :=
  (FlushRun.attach (formatted_zero smallGeometry) read_smallJournal).flush noFlushFn 0 []
    (by decide)

theorem journal_round_trip_small :
    ∃ img hist j, FlushRun smallGeometry img hist j ∧ hist.length = 1 ∧
      ∃ j' info, bch2JournalRead smallGeometry img Journal.default = .ok (j', info) ∧
        j'.closed.map Jset.content = (liveRecords hist).map Jset.content ∧
        j'.seq = j.seq ∧ j'.device.curIdx = j.device.curIdx ∧
        j'.device.sectorsFree = j.device.sectorsFree ∧
        j'.device.bucketSeq = j.device.bucketSeq ∧ ResumesBehind smallGeometry img hist j' :=
  ⟨_, _, _, flushRun_smallFlushed, rfl,
    journal_round_trip flushRun_smallFlushed Journal.default⟩

/-! ### Torn writes -/

/-- The record that the stored words hold when only `taken` words of the write of `r` reached the
device: the header of `r`, and zeros in place of the words torn off. -/
def tornRecord (r : Jset) (taken : ℕ) : Jset :=
  { r with payload := r.payload.take (taken - jsetHeaderU64s) ++
      List.replicate (r.payload.length - (taken - jsetHeaderU64s)) 0 }

variable (g) in
/-- The device after the next flush was cut off when `blocks` blocks of its record had been
written. -/
def tornImage (img : Image UInt64) (fn : PinFlushFn) (fuel : ℕ) (roots : List UInt64)
    (j : Journal) (blocks : ℕ) : Image UInt64 :=
  applyWrites img (bch2JournalFlush g { recordTaken := some (blocks * g.blockU64s) } fn fuel
    roots j).writes

section Torn

variable {r : Jset} {taken : ℕ}

theorem length_tornRecord_payload (r : Jset) (taken : ℕ) :
    (tornRecord r taken).payload.length = r.payload.length := by
  simp only [tornRecord, List.length_append, List.length_take, List.length_replicate]
  omega

theorem length_tornRecord_words (r : Jset) (taken : ℕ) :
    (tornRecord r taken).words.length = r.words.length := by
  rw [length_words, length_words, length_tornRecord_payload]

theorem Jset.Sound.tornRecord (h : r.Sound) (taken : ℕ) : (tornRecord r taken).Sound where
  u64s_eq := h.u64s_eq.trans (length_tornRecord_payload r taken).symm
  length_lt := by rw [length_tornRecord_words]; exact h.length_lt
  seq_pos := h.seq_pos
  seq_le := h.seq_le
  lastSeq_le := h.lastSeq_le

theorem Follows.tornRecord {hist : List Jset} (h : Follows hist r) (taken : ℕ) :
    Follows hist (tornRecord r taken) :=
  { h with sound := h.sound.tornRecord taken }

theorem take_headedWords (r : Jset) (body : List UInt64) (htaken : jsetHeaderU64s ≤ taken) :
    (headedWords g r body).take taken = headedWords g r (body.take (taken - jsetHeaderU64s)) := by
  obtain ⟨m, rfl⟩ : ∃ m, taken = m + jsetHeaderU64s := ⟨taken - jsetHeaderU64s, by omega⟩
  rw [Nat.add_sub_cancel]
  rfl

theorem headedWords_append (r : Jset) (body tail : List UInt64) :
    headedWords g r body ++ tail = headedWords g r (body ++ tail) := by
  simp only [headedWords, List.cons_append, List.append_assoc]

/-- What a torn write leaves in a bucket that was zero behind it: the header of the record, the
payload of the torn record and zeros. -/
theorem take_diskWords_append (r : Jset) (htaken : jsetHeaderU64s ≤ taken)
    (hle : taken ≤ (diskWords g r).length) (n : ℕ) :
    (diskWords g r).take taken ++ List.replicate ((diskWords g r).length - taken + n) 0 =
      headedWords g r ((tornRecord r taken).payload ++
        List.replicate (g.writeU64s r.words.length - r.words.length + n) 0) := by
  have hlen := length_words r
  have hpad := g.le_writeU64s r.words.length
  have hwords := diskWords_append_eq g r []
  rw [List.append_nil, List.append_nil] at hwords
  rw [length_diskWords] at hle ⊢
  rw [hwords, take_headedWords r _ htaken, headedWords_append]
  congr 1
  simp only [tornRecord, List.take_append, List.take_replicate, List.append_assoc,
    List.replicate_append_replicate]
  congr 2
  omega

/-- A record whose torn words have the checksum of the whole record is stored whole. -/
theorem headedWords_tornRecord
    (hcsum : (diskRecord g (tornRecord r taken)).csum = (diskRecord g r).csum) (n : ℕ) :
    headedWords g r ((tornRecord r taken).payload ++
        List.replicate (g.writeU64s r.words.length - r.words.length + n) 0) =
      diskWords g (tornRecord r taken) ++ List.replicate n 0 := by
  have hheader : diskHeader g (tornRecord r taken) = diskHeader g r := rfl
  rw [diskWords_append_eq, length_tornRecord_words, List.replicate_append_replicate]
  simp only [headedWords, hcsum, hheader]

/-- The scan of a bucket behind records that are stored whole. -/
theorem scanBucket_bucketWords_error {rs : List Jset} (hsound : ∀ r ∈ rs, r.Sound)
    (hsorted : rs.Pairwise fun a b => a.seq ≤ b.seq) {rest : List UInt64} {ret : ℤ}
    {bucket fuel offset maxSeq : ℕ} (hmax : ∀ r ∈ rs, maxSeq ≤ r.seq) (hfuel : rs.length < fuel)
    (hrest : ∀ fuel offset,
      scanBucket g bucket (fuel + 1) offset (lastSeqOf maxSeq rs) rest = .error ret) :
    scanBucket g bucket fuel offset maxSeq (bucketWords g rs ++ rest) = .error ret := by
  induction rs generalizing fuel offset maxSeq with
  | nil =>
    obtain ⟨fuel, rfl⟩ : ∃ m, fuel = m + 1 := ⟨fuel - 1, by simp at hfuel; omega⟩
    exact hrest fuel offset
  | cons r rs ih =>
    obtain ⟨fuel, rfl⟩ : ∃ m, fuel = m + 1 := ⟨fuel - 1, by simp at hfuel; omega⟩
    have hcons : bucketWords g (r :: rs) ++ rest = diskWords g r ++ (bucketWords g rs ++ rest) := by
      simp [bucketWords]
    obtain ⟨hle, hrest'⟩ := List.pairwise_cons.mp hsorted
    rw [hcons, scanBucket_diskWords g (hsound r (List.mem_cons_self ..))
      (hmax r (List.mem_cons_self ..))]
    rw [← lastSeqOf_cons] at hrest
    rw [ih (fun x hx => hsound x (List.mem_cons_of_mem _ hx)) hrest' hle
      (by simpa using hfuel) hrest]
    rfl

/-- One bucket that cannot be scanned makes the scan fail, when the others can. -/
theorem scanBuckets_error {img : Image UInt64} {is : List ℕ} {c : ℕ} {ret : ℤ} (hc : c ∈ is)
    (herr : scanBucketOf g img c = .error ret)
    (hok : ∀ i ∈ is, i ≠ c → ∃ p, scanBucketOf g img i = .ok p) :
    scanBuckets g img is = .error ret := by
  induction is with
  | nil => cases hc
  | cons i is ih =>
    by_cases hic : i = c
    · subst hic
      rw [scanBuckets, herr]
      rfl
    · obtain ⟨p, hp⟩ := hok i (List.mem_cons_self ..) hic
      have hmem : c ∈ is := (List.mem_cons.mp hc).resolve_left (Ne.symm hic)
      rw [scanBuckets, hp, ih hmem fun k hk => hok k (List.mem_cons_of_mem _ hk)]
      rfl

/-- The bucket that holds the torn record. -/
theorem Layout.readAt_torn {img : Image UInt64} {bk : ℕ → List Jset} (h : Layout g img bk)
    {c : ℕ} (hc : c < g.nr)
    (hfit : usedSectors g (bk c) + g.writeSectors r.words.length ≤ g.bucketSize)
    (htaken : jsetHeaderU64s ≤ taken) (hle : taken ≤ (diskWords g r).length) :
    (img.writeAt (g.bucketStart c + usedSectors g (bk c) * sectorU64s)
        ((diskWords g r).take taken)).readAt (g.bucketStart c) g.bucketU64s =
      bucketWords g (bk c) ++ headedWords g r ((tornRecord r taken).payload ++
        List.replicate (g.writeU64s r.words.length - r.words.length +
          (g.bucketU64s - (usedSectors g (bk c) * sectorU64s + (diskWords g r).length))) 0) := by
  have hroom : usedSectors g (bk c) * sectorU64s + (diskWords g r).length ≤ g.bucketU64s := by
    rw [length_diskWords, g.writeU64s_eq, ← Nat.add_mul]
    exact Nat.mul_le_mul_right _ hfit
  have hlen : ((diskWords g r).take taken).length = taken := by
    rw [List.length_take]
    omega
  rw [h.readAt_behind hc _ (by omega), hlen, ← take_diskWords_append r htaken hle,
    List.append_assoc]
  congr 3
  omega

/-- Behind sound records in order, a record torn off inside its payload makes the scan fail when
the checksum does not match. -/
theorem Layout.scanBuckets_torn {img : Image UInt64} {bk : ℕ → List Jset} (h : Layout g img bk)
    (hsound : ∀ i < g.nr, ∀ x ∈ bk i, x.Sound)
    (hsorted : ∀ i < g.nr, (bk i).Pairwise fun a b => a.seq ≤ b.seq) {c : ℕ} (hc : c < g.nr)
    (hr : r.Sound) (hseq : lastSeqOf 0 (bk c) ≤ r.seq)
    (hfit : usedSectors g (bk c) + g.writeSectors r.words.length ≤ g.bucketSize)
    (htaken : jsetHeaderU64s ≤ taken) (hle : taken ≤ (diskWords g r).length)
    (hcsum : (diskRecord g (tornRecord r taken)).csum ≠ (diskRecord g r).csum) :
    scanBuckets g (img.writeAt (g.bucketStart c + usedSectors g (bk c) * sectorU64s)
      ((diskWords g r).take taken)) (List.range g.nr) = .error (-6) := by
  have hread := h.readAt_torn hc hfit htaken hle
  have hroom : usedSectors g (bk c) * sectorU64s + (diskWords g r).length ≤ g.bucketU64s := by
    rw [length_diskWords, g.writeU64s_eq, ← Nat.add_mul]
    exact Nat.mul_le_mul_right _ hfit
  apply scanBuckets_error (List.mem_range.mpr hc)
  · rw [Subvol.scanBucketOf, if_neg (Nat.not_lt.mpr (g.bucketStart_inside hc)), hread]
    apply scanBucket_bucketWords_error (hsound c hc) (hsorted c hc) fun _ _ => Nat.zero_le _
    · have hlen := length_le_usedSectors g (bk c ++ [r])
      rw [usedSectors_append, usedSectors_singleton, List.length_append,
        List.length_singleton] at hlen
      calc (bk c).length < g.bucketSize := by omega
        _ ≤ g.bucketU64s := Nat.le_mul_of_pos_right _ (by decide)
    · intro fuel offset
      have hpad := g.le_writeU64s r.words.length
      have hwords := length_words r
      have hpay := length_tornRecord_payload r taken
      rw [scanBucket_headedWords g hr hseq (by
        rw [length_headedWords, List.length_append, List.length_replicate]
        omega)]
      have htake : ∀ n, ((tornRecord r taken).payload ++ List.replicate n 0).take r.u64s =
          (tornRecord r taken).payload := by
        intro n
        rw [hr.u64s_eq, ← hpay, List.take_left]
      rw [htake, if_pos]
      exact fun heq => hcsum heq.symm
  · intro i hi hic
    have hi := List.mem_range.mp hi
    have hscan := h.scanBucketOf hi (hsound i hi) (hsorted i hi)
    refine ⟨_, Eq.trans ?_ hscan⟩
    rw [Subvol.scanBucketOf, Subvol.scanBucketOf, Image.readAt_writeAt_disjoint]
    rw [List.length_take]
    rcases g.bucketStart_disjoint hi hc hic with hd | hd <;> omega

/-- When the checksum matches, the torn image is the one with the torn record written whole. -/
theorem Layout.readAt_torn_whole {img : Image UInt64} {bk : ℕ → List Jset} (h : Layout g img bk)
    {c : ℕ} (hc : c < g.nr)
    (hfit : usedSectors g (bk c) + g.writeSectors r.words.length ≤ g.bucketSize)
    (htaken : jsetHeaderU64s ≤ taken) (hle : taken ≤ (diskWords g r).length)
    (hcsum : (diskRecord g (tornRecord r taken)).csum = (diskRecord g r).csum) {i : ℕ}
    (hi : i < g.nr) :
    (img.writeAt (g.bucketStart c + usedSectors g (bk c) * sectorU64s)
        ((diskWords g r).take taken)).readAt (g.bucketStart i) g.bucketU64s =
      (img.writeAt (g.bucketStart c + usedSectors g (bk c) * sectorU64s)
        (diskWords g (tornRecord r taken))).readAt (g.bucketStart i) g.bucketU64s := by
  have hlen : (diskWords g (tornRecord r taken)).length = (diskWords g r).length := by
    rw [length_diskWords, length_diskWords, length_tornRecord_words]
  have hroom : usedSectors g (bk c) * sectorU64s + (diskWords g r).length ≤ g.bucketU64s := by
    rw [length_diskWords, g.writeU64s_eq, ← Nat.add_mul]
    exact Nat.mul_le_mul_right _ hfit
  by_cases hic : i = c
  · subst hic
    rw [h.readAt_torn hc hfit htaken hle, headedWords_tornRecord hcsum,
      h.readAt_behind hc _ (by omega), hlen, List.append_assoc]
  · have hd := g.bucketStart_disjoint hi hc hic
    rw [Image.readAt_writeAt_disjoint, Image.readAt_writeAt_disjoint]
    · omega
    · rw [List.length_take]
      omega

variable (g) in
/-- What is read back after `blocks` blocks of the record `r` were written behind the history:
the history without a block of it, and else what the checksum says. -/
structure TornOutcome (hist : List Jset) (r : Jset) (blocks : ℕ)
    (res : Except ℤ (Journal × JournalStartInfo)) : Prop where
  before : blocks = 0 → ReadsBack hist res
  rejected : 0 < blocks →
    (diskRecord g (tornRecord r (blocks * g.blockU64s))).csum ≠ (diskRecord g r).csum →
    res = .error (-6)
  whole : 0 < blocks →
    (diskRecord g (tornRecord r (blocks * g.blockU64s))).csum = (diskRecord g r).csum →
    r.seq < journalSeqMax → ReadsBack (hist ++ [tornRecord r (blocks * g.blockU64s)]) res

theorem DurableInv.readsBack {img : Image UInt64} {hist : List Jset} {bk : ℕ → List Jset}
    {cur : ℕ} (h : DurableInv g img hist bk cur) (hmax : ∀ r ∈ hist, r.seq < journalSeqMax)
    (j₀ : Journal) : ReadsBack hist (Subvol.bch2JournalRead g img j₀) := by
  obtain ⟨j, info, hread, -, hclosed, -⟩ := h.bch2JournalRead hmax j₀
  exact ⟨j, info, hread, readsBack_of_map hclosed⟩

/-- The read after a torn write behind the records of bucket `c`, when a whole write there would
prolong the history. -/
theorem DurableInv.tornOutcome {img : Image UInt64} {hist : List Jset} {bk : ℕ → List Jset}
    {cur c : ℕ} (h : DurableInv g img hist bk cur) (blocks : ℕ)
    (hmax : ∀ r ∈ hist, r.seq < journalSeqMax) (hr : Follows hist r) (hc : c < g.nr)
    (hfit : usedSectors g (bk c) + g.writeSectors r.words.length ≤ g.bucketSize)
    (hwhole : ∀ r', Follows hist r' → r'.words.length = r.words.length →
      r'.lastSeq = r.lastSeq → ∃ bk' cur',
      DurableInv g (img.writeAt (g.bucketStart c + usedSectors g (bk c) * sectorU64s)
        (diskWords g r')) (hist ++ [r']) bk' cur')
    (hblocks : blocks * g.blockU64s ≤ (diskWords g r).length) (j₀ : Journal) :
    TornOutcome g hist r blocks (Subvol.bch2JournalRead g
      (img.writeAt (g.bucketStart c + usedSectors g (bk c) * sectorU64s)
        ((diskWords g r).take (blocks * g.blockU64s))) j₀) := by
  have hreadable := h.readable hmax
  have hsorted : ∀ i < g.nr, (bk i).Pairwise fun a b => a.seq ≤ b.seq := fun i hi =>
    ((List.pairwise_flatMap.mp hreadable.chain.pairwise_lt).1 i
      (Ring.mem_order.mpr hi)).imp le_of_lt
  -- the first block holds the whole header
  have hheader : 0 < blocks → jsetHeaderU64s ≤ blocks * g.blockU64s := by
    intro hpos
    have h₁ : 1 * g.blockU64s ≤ blocks * g.blockU64s := Nat.mul_le_mul_right _ hpos
    have h₂ : 1 * sectorU64s ≤ g.blockU64s := Nat.mul_le_mul_right _ g.blockSectors_pos
    simp only [jsetHeaderU64s, sectorU64s] at h₁ h₂ ⊢
    omega
  have hseq : lastSeqOf 0 (bk c) ≤ r.seq := by
    unfold lastSeqOf
    cases hlast : (bk c).getLast? with
    | none => exact Nat.zero_le _
    | some x =>
      have hx := h.stored c hc x (List.mem_of_getLast? hlast)
      exact hr.top h.top x (List.mem_append_left _ hx)
  refine ⟨?_, ?_, ?_⟩
  · rintro rfl
    rw [Nat.zero_mul, List.take_zero, Image.writeAt_nil]
    exact h.readsBack hmax j₀
  · intro hpos hcsum
    have hscan := h.layout.scanBuckets_torn hreadable.sound hsorted hc hr.sound hseq hfit
      (hheader hpos) hblocks hcsum
    rw [Subvol.bch2JournalRead, hscan]
  · intro hpos hcsum hlt
    obtain ⟨bk', cur', hdur⟩ := hwhole _ (hr.tornRecord (blocks * g.blockU64s))
      (length_tornRecord_words r _) rfl
    have hread := fun i (hi : i < g.nr) =>
      h.layout.readAt_torn_whole hc hfit (hheader hpos) hblocks hcsum hi
    apply (hdur.congr hread).readsBack
    intro x hx
    rcases List.mem_append.mp hx with hx | hx
    · exact hmax x hx
    · rw [List.mem_singleton.mp hx]
      exact hlt

/-- The read after the next flush of a run was cut off inside its record. -/
theorem FlushRun.tornOutcome {img : Image UInt64} {hist : List Jset} {j : Journal}
    (h : FlushRun g img hist j) (fn : PinFlushFn) (fuel : ℕ) (roots : List UInt64) (blocks : ℕ)
    (hwrites : (bch2JournalFlush g { recordTaken := some (blocks * g.blockU64s) } fn fuel roots
      j).writes ≠ [])
    (hblocks : blocks * g.blockU64s < g.writeU64s (flushRecord j roots).words.length)
    (j₀ : Journal) :
    TornOutcome g hist (flushRecord j roots) blocks
      (bch2JournalRead g (tornImage g img fn fuel roots j blocks) j₀) := by
  obtain ⟨⟨bk, hlive⟩, hmax⟩ := h.inv
  have hcase := hlive.flushWrites { recordTaken := some (blocks * g.blockU64s) } rfl
    fn fuel roots
  have htaken : blocks * g.blockU64s ≤ (diskWords g (flushRecord j roots)).length := by
    rw [length_diskWords]
    exact hblocks.le
  unfold tornImage
  generalize (bch2JournalFlush g { recordTaken := some (blocks * g.blockU64s) } fn fuel roots
    j).writes = ws at hwrites hcase ⊢
  cases hcase with
  | none => exact absurd rfl hwrites
  | behind hfit =>
    have hfree := hlive.free
    rw [hlive.recordOffset_eq]
    apply hlive.durable.tornOutcome blocks hmax
      (hlive.follows roots (hfit.trans hlive.fits.free_le)) hlive.durable.cur_lt
    · omega
    · intro r' hr' hlen _
      exact ⟨_, _, hlive.durable.append hr' (by rw [hlen]; omega)⟩
    · exact htaken
  | entered hsize havail =>
    obtain ⟨hne, hne', hold⟩ := hlive.available_old havail
    have hmid := hlive.durable.zero hne
    have hempty : Function.update bk (Ring.next g.nr j.device.curIdx) []
        (Ring.next g.nr j.device.curIdx) = [] := Function.update_self ..
    have hlt : Ring.next g.nr j.device.curIdx < g.nr := Ring.next_lt hlive.durable.nr_pos
    have hout := hmid.tornOutcome blocks hmax (hlive.follows roots hsize) hlt
      (by rw [hempty, usedSectors_nil, Nat.zero_add]; exact hsize)
    rw [hempty, usedSectors_nil, Nat.zero_mul, Nat.add_zero] at hout
    refine hout ?_ htaken j₀
    intro r' hr' hlen hlastSeq
    refine ⟨_, _, hmid.enter hr' hempty (by rw [hlen]; exact hsize) ?_⟩
    rw [Function.update_of_ne hne', hlastSeq]
    exact hold

end Torn

/-- The read after a torn write of the next record. Without a block of it the records are those
before the flush. With a block of it the whole read fails with `-6` when the stored words do not
have the checksum of the record, and when they have it the record counts as written. -/
theorem journal_torn_write {img : Image UInt64} {hist : List Jset} {j : Journal}
    (h : FlushRun g img hist j) (fn : PinFlushFn) (fuel : ℕ) (roots : List UInt64) (blocks : ℕ)
    (hwrites : (bch2JournalFlush g { recordTaken := some (blocks * g.blockU64s) } fn fuel roots
      j).writes ≠ [])
    (hblocks : blocks * g.blockU64s < g.writeU64s (flushRecord j roots).words.length)
    (j₀ : Journal) :
    let torn := tornRecord (flushRecord j roots) (blocks * g.blockU64s)
    let res := bch2JournalRead g (tornImage g img fn fuel roots j blocks) j₀
    (blocks = 0 → ReadsBack hist res) ∧
    (0 < blocks → (diskRecord g torn).csum ≠ (diskRecord g (flushRecord j roots)).csum →
      res = .error (-6)) ∧
    (0 < blocks → (diskRecord g torn).csum = (diskRecord g (flushRecord j roots)).csum →
      j.seq < journalSeqMax → ReadsBack (hist ++ [torn]) res) := by
  have hout := h.tornOutcome fn fuel roots blocks hwrites hblocks j₀
  exact ⟨hout.before, hout.rejected, hout.whole⟩

/-- Root entries that make a record of the small device take two blocks. -/
def twoBlockRoots : List UInt64 := List.replicate 57 0 ++ [1]

theorem journal_torn_write_small :
    bch2JournalRead smallGeometry
      (tornImage smallGeometry (applyWrites (fun _ => 0) smallFlushed.writes) noFlushFn 0
        twoBlockRoots smallFlushed.journal 1) Journal.default = .error (-6) :=
  (journal_torn_write flushRun_smallFlushed noFlushFn 0 twoBlockRoots 1
    (by decide) (by decide) Journal.default).2.1 Nat.one_pos (by decide +kernel)

/-- A torn write can make the journal unreadable. -/
theorem journal_torn_write_unreadable :
    ¬∀ (img : Image UInt64) (hist : List Jset) (j : Journal), FlushRun smallGeometry img hist j →
      ∀ (fn : PinFlushFn) (fuel : ℕ) (roots : List UInt64) (blocks : ℕ),
      (bch2JournalFlush smallGeometry
        { recordTaken := some (blocks * smallGeometry.blockU64s) } fn fuel roots j).writes ≠ [] →
      blocks * smallGeometry.blockU64s <
        smallGeometry.writeU64s (flushRecord j roots).words.length →
      ReadsBack hist (bch2JournalRead smallGeometry
        (tornImage smallGeometry img fn fuel roots j blocks) Journal.default) := by
  intro hall
  have hout := flushRun_smallFlushed.tornOutcome noFlushFn 0 twoBlockRoots 1
    (by decide) (by decide) Journal.default
  have herr := hout.rejected Nat.one_pos (by decide +kernel)
  obtain ⟨j, info, hok, -⟩ := hall _ _ _ flushRun_smallFlushed noFlushFn 0 twoBlockRoots 1
    (by decide) (by decide)
  rw [herr] at hok
  cases hok

end Subvol

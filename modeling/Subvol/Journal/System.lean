import Subvol.Journal.Durable

/-!
# The journal in memory over its device

`LiveInv` is what holds of a journal in memory that belongs to the durable records of its device.
Reading a device installs such a journal, the operations on pins keep it, and a flush on a device
that takes every write either writes nothing, or adds its record to the durable ones and leaves a
journal that belongs to them.

## Main definitions

* `LiveInv`: the invariant of an attached journal.
* `Written`: the state between the device write of a record and its publication.
* `FlushEffect`: what a flush has done to the device and the journal.

## Main results

* `DurableInv.bch2JournalRead`: a read installs a journal that belongs to the device.
* `LiveInv.flush`: the effect of a flush.
-/

namespace Subvol

open Lib

variable (g : JournalGeometry)

/-! ### Attached journals -/

/-- A journal in memory that belongs to the durable state of the device: the write position is
behind the newest record, the bucket sequences are those of the records, and the open sequence
follows the newest one. -/
structure LiveInv (img : Image UInt64) (hist : List Jset) (bk : ℕ → List Jset) (j : Journal) :
    Prop where
  durable : DurableInv g img hist bk j.device.curIdx
  wf : j.Wf
  openOk : j.OpenOk
  attached : j.attached = true
  fits : j.device.Fits g
  bucketSeq : ∀ i < g.nr, j.device.bucketSeq.getD i 0 = lastSeqOf 0 (bk i)
  free : usedSectors g (bk j.device.curIdx) + j.device.sectorsFree = g.bucketSize
  seq_le : j.seq ≤ journalSeqMax
  seq_first : hist = [] → j.seq = 1
  cur_first : hist = [] → j.device.curIdx = 0
  seq_top : ∀ nw ∈ hist.getLast?, nw.seq ≤ j.seq
  seq_next : ∀ nw ∈ hist.getLast?, nw.seq < journalSeqMax → j.seq = nw.seq + 1
  lastSeq_top : ∀ nw ∈ hist.getLast?, nw.lastSeq ≤ j.lastSeq

namespace LiveInv

variable {g} {img : Image UInt64} {hist : List Jset} {bk : ℕ → List Jset} {j j' : Journal}

/-- Operations that leave the write position and the open sequence alone. -/
theorem frame (h : LiveInv g img hist bk j) (hwf : j'.Wf) (hopen : j'.OpenOk)
    (hdev : DeviceFrame j.device j'.device) (hseq : j'.seq = j.seq)
    (hatt : j'.attached = j.attached) (hlast : j.lastSeq ≤ j'.lastSeq) :
    LiveInv g img hist bk j' where
  durable := by rw [hdev.curIdx]; exact h.durable
  wf := hwf
  openOk := hopen
  attached := hatt.trans h.attached
  fits := h.fits.frame hdev
  bucketSeq := by rw [hdev.bucketSeq]; exact h.bucketSeq
  free := by rw [hdev.curIdx, hdev.sectorsFree]; exact h.free
  seq_le := hseq.le.trans h.seq_le
  seq_first hnil := hseq.trans (h.seq_first hnil)
  cur_first hnil := hdev.curIdx.trans (h.cur_first hnil)
  seq_top nw hnw := hseq ▸ h.seq_top nw hnw
  seq_next nw hnw hmax := hseq.trans (h.seq_next nw hnw hmax)
  lastSeq_top nw hnw := (h.lastSeq_top nw hnw).trans hlast

theorem pinStep (h : LiveInv g img hist bk j) (hstep : PinStep j j') :
    LiveInv g img hist bk j' :=
  h.frame hstep.wf (h.openOk.congr hstep.frame.reservations hstep.frame.seq) hstep.frame.device
    hstep.frame.seq hstep.frame.attached hstep.frame.lastSeq_le

/-- The record of a flush follows the history. -/
theorem follows (h : LiveInv g img hist bk j) (roots : List UInt64)
    (hfit : g.writeSectors (flushRecord j roots).words.length ≤ g.bucketSize) :
    Follows hist (flushRecord j roots) where
  sound :=
    { u64s_eq := rfl
      length_lt := g.lt_of_writeSectors_le hfit
      seq_pos := lt_of_lt_of_le h.wf.lastSeq_pos h.wf.lastSeq_le
      seq_le := h.seq_le
      lastSeq_le := h.wf.lastSeq_le }
  lastSeq_pos := h.wf.lastSeq_pos
  first := h.seq_first
  seq_le := h.seq_top
  seq_next := h.seq_next
  lastSeq_le := h.lastSeq_top

end LiveInv

/-! ### Attaching a device -/

section Attach

variable {g}

theorem readDevice_ordered (bucketSeq : List ℕ) (highest : Option FoundEntry) (liveFrom : ℕ)
    (hcur : (highest.map FoundEntry.bucket).getD 0 < g.nr) :
    (readDevice g bucketSeq highest liveFrom).Ordered liveFrom := by
  have hpos : 0 < g.nr := lt_of_le_of_lt (Nat.zero_le _) hcur
  have hnext := Ring.pos_next hcur
  have hwalk := Ring.walk_spec_full
    (p := fun i => decide (i ≠ (highest.map FoundEntry.bucket).getD 0 ∧
      bucketSeq.getD i 0 < liveFrom))
    (i := Ring.next g.nr ((highest.map FoundEntry.bucket).getD 0))
    hcur hcur (by simp) (Ring.next_lt hpos) (by omega)
  refine ⟨hcur, hwalk.lt, hwalk.lt, hwalk.lt, le_rfl, le_rfl, ?_⟩
  intro i hi hlt
  have hpassed := hwalk.passed i hi (by omega) hlt
  simp only [decide_eq_true_eq] at hpassed
  exact hpassed.2

theorem readInstall_spaceFrame (j : Journal) (records : List Jset) (device : JournalDevice)
    (pinFront curSeq : ℕ) :
    SpaceFrame (readOpened j records device pinFront curSeq)
      (readInstall g j records device pinFront curSeq) := by
  have hf := bch2JournalSpaceAvailable_frame g (readOpened j records device pinFront curSeq)
  unfold readInstall
  dsimp only
  split_ifs
  · exact ⟨hf.reservations, hf.seq, hf.ring, hf.closed, hf.attached, hf.device, hf.pin, hf.pins,
      hf.seqOndisk, hf.lastSeqOndisk, hf.lastSeq⟩
  · exact hf

/-- The journal a read installs is well formed. -/
theorem readInstall_wf {j : Journal} {records : List Jset} {device : JournalDevice}
    {pinFront curSeq : ℕ} (hord : device.Ordered pinFront) (hpos : 0 < pinFront)
    (hle : pinFront ≤ curSeq) : (readInstall g j records device pinFront curSeq).Wf := by
  have hwf : (readOpened j records device pinFront curSeq).Wf := by
    refine ⟨hord, rfl, ?_, ?_, hle, hpos⟩
    · simp only [readOpened, replayPins, List.length_append, List.length_replicate,
        List.length_singleton]
      omega
    · simp only [readOpened]
      omega
  apply hwf.spaceFrame (readInstall_spaceFrame j records device pinFront curSeq)
  have hord' := bch2JournalSpaceAvailable_ordered g hwf.ordered
  unfold readInstall
  dsimp only
  split_ifs <;> exact hord'

theorem readInstall_openOk (j : Journal) (records : List Jset) (device : JournalDevice)
    (pinFront curSeq : ℕ) : (readInstall g j records device pinFront curSeq).OpenOk := by
  have hf := readInstall_spaceFrame (g := g) j records device pinFront curSeq
  apply Journal.OpenOk.congr (j := readOpened j records device pinFront curSeq) _
    hf.reservations hf.seq
  refine ⟨rfl, ?_⟩
  intro i hi
  exact if_neg hi

/-- What a read of a device installs, for any device state that fits the records. -/
theorem readInstall_liveInv {img : Image UInt64} {hist : List Jset} {bk : ℕ → List Jset}
    {j : Journal} {records : List Jset} {device : JournalDevice} {pinFront curSeq : ℕ}
    (hdur : DurableInv g img hist bk device.curIdx) (hord : device.Ordered pinFront)
    (hfits : device.Fits g)
    (hseqs : ∀ i < g.nr, device.bucketSeq.getD i 0 = lastSeqOf 0 (bk i))
    (hfree : usedSectors g (bk device.curIdx) + device.sectorsFree = g.bucketSize)
    (hpos : 0 < pinFront) (hle : pinFront ≤ curSeq) (hmax : curSeq ≤ journalSeqMax)
    (hfirst : hist = [] → curSeq = 1 ∧ device.curIdx = 0)
    (hnext : ∀ nw ∈ hist.getLast?, curSeq = nw.seq + 1)
    (hlast : ∀ nw ∈ hist.getLast?, nw.lastSeq ≤ pinFront) :
    LiveInv g img hist bk (readInstall g j records device pinFront curSeq) := by
  have hf := readInstall_spaceFrame (g := g) j records device pinFront curSeq
  have hcur : (readInstall g j records device pinFront curSeq).device.curIdx = device.curIdx :=
    hf.device.curIdx
  exact {
    durable := by rw [hcur]; exact hdur
    wf := readInstall_wf hord hpos hle
    openOk := readInstall_openOk j records device pinFront curSeq
    attached := hf.attached
    fits := hfits.frame hf.device
    bucketSeq := by rw [hf.device.bucketSeq]; exact hseqs
    free := by rw [hcur, hf.device.sectorsFree]; exact hfree
    seq_le := hf.seq.le.trans hmax
    seq_first := fun hnil => hf.seq.trans (hfirst hnil).1
    cur_first := fun hnil => hcur.trans (hfirst hnil).2
    seq_top := fun nw hnw => by
      have hs := hnext nw hnw
      have hseq : (readInstall g j records device pinFront curSeq).seq = curSeq := hf.seq
      omega
    seq_next := fun nw hnw _ => hf.seq.trans (hnext nw hnw)
    lastSeq_top := fun nw hnw => (hlast nw hnw).trans hf.lastSeq.ge }

theorem getD_map_range {f : ℕ → ℕ} {n i : ℕ} (hi : i < n) :
    ((List.range n).map f).getD i 0 = f i := by
  simp [List.getD_eq_getElem?_getD, hi]

/-- An image without records is a durable journal whose first bucket is current. -/
theorem DurableInv.of_empty {img : Image UInt64} {bk : ℕ → List Jset} (h : Layout g img bk)
    (hempty : ∀ i < g.nr, bk i = []) : DurableInv g img [] bk 0 where
  layout := h
  cur_lt := g.nr_pos
  suffix := by
    have hnil : ringLog g.nr 0 bk = [] := by
      apply List.eq_nil_iff_forall_not_mem.mpr
      intro r hr
      obtain ⟨i, hi, hr⟩ := mem_ringLog.mp hr
      rw [hempty i hi] at hr
      cases hr
    rw [hnil]
  newest := by rw [hempty 0 g.nr_pos]
  bounded i hi r hr := by rw [hempty i hi] at hr; cases hr
  sound r hr := by cases hr
  top nw hnw := by cases hnw
  cover nw hnw := by cases hnw
  kept nw hnw := by cases hnw
  next_old nw hnw := by cases hnw
  chain _ := Consecutive.nil

/-- Reading a durable journal installs a journal that belongs to it, with the live records to
replay and the bucket of the newest record current. -/
theorem DurableInv.bch2JournalRead {img : Image UInt64} {hist : List Jset} {bk : ℕ → List Jset}
    {cur : ℕ} (h : DurableInv g img hist bk cur) (hmax : ∀ r ∈ hist, r.seq < journalSeqMax)
    (j₀ : Journal) : ∃ j info, bch2JournalRead g img j₀ = .ok (j, info) ∧
      LiveInv g img hist bk j ∧ j.closed = (liveRecords hist).map (readRecord g) ∧
      (hist ≠ [] → j.device.curIdx = cur) := by
  cases hlast : hist.getLast? with
  | none =>
    rw [List.getLast?_eq_none_iff] at hlast
    subst hlast
    have hempty : ∀ i < g.nr, bk i = [] := fun i hi => h.stored_nil hi
    have hdur := DurableInv.of_empty h.layout hempty
    have hread := (hdur.readable hmax).bch2JournalRead_nil (by rw [hempty 0 g.nr_pos]; rfl) j₀
    refine ⟨_, _, hread, ?_, (readInstall_spaceFrame ..).closed, fun hne => absurd rfl hne⟩
    apply readInstall_liveInv hdur (readDevice_ordered _ none _ g.nr_pos)
    · exact ⟨rfl, rfl, by simp [readDevice], g.nr_pos, Nat.sub_le _ _⟩
    · intro i hi
      exact getD_map_range hi
    · have hzero : usedSectors g (bk 0) = 0 := by rw [hempty 0 g.nr_pos]; rfl
      simp [readDevice, hzero]
    · exact Nat.one_pos
    · exact le_rfl
    · decide
    · exact fun _ => ⟨rfl, rfl⟩
    · intro nw hnw
      cases hnw
    · intro nw hnw
      cases hnw
  | some nw =>
    have hnw : (bk cur).getLast? = some nw := h.newest.trans hlast
    have hmem : nw ∈ hist := List.mem_of_getLast? hlast
    obtain ⟨hsound, hpos⟩ := h.sound nw hmem
    have hread := (h.readable hmax).bch2JournalRead_cons hnw hpos j₀
    rw [h.windowRecords_eq hmax hlast] at hread
    refine ⟨_, _, hread, ?_, (readInstall_spaceFrame ..).closed,
      fun _ => (readInstall_spaceFrame ..).device.curIdx⟩
    have hord := readDevice_ordered (g := g)
      ((List.range g.nr).map fun i => lastSeqOf 0 (bk i))
      (some ⟨nw.seq, cur, usedSectors g (bk cur), readRecord g nw⟩) nw.lastSeq h.cur_lt
    apply readInstall_liveInv h hord
    · exact ⟨rfl, rfl, by simp [readDevice], h.cur_lt, Nat.sub_le _ _⟩
    · intro i hi
      exact getD_map_range hi
    · have := h.layout.fits cur h.cur_lt
      simp only [readDevice, Option.map_some, Option.getD_some]
      omega
    · exact hpos
    · exact hsound.lastSeq_le.trans (Nat.le_succ _)
    · exact hmax nw hmem
    · rintro rfl
      cases hmem
    · intro x hx
      cases hlast.symm.trans hx
      rfl
    · intro x hx
      cases hlast.symm.trans hx
      exact le_rfl

end Attach

/-! ### The flush -/

section Flush

variable {g}

/-- A record that fits lies inside the device file. -/
theorem JournalDevice.Fits.recordOffset_inside {ja : JournalDevice} {r : Jset} (h : ja.Fits g)
    (hfit : g.writeSectors r.words.length ≤ ja.sectorsFree) :
    recordOffset g ja + (diskWords g r).length ≤ g.fileSectors * sectorU64s := by
  have hle : (g.bucketSize - ja.sectorsFree) * sectorU64s + (diskWords g r).length ≤
      g.bucketU64s := by
    rw [length_diskWords, g.writeU64s_eq, ← Nat.add_mul]
    have := h.free_le
    exact Nat.mul_le_mul_right _ (by omega)
  rw [h.recordOffset_eq]
  have := g.bucketStart_inside h.cur_lt
  omega

/-- In an empty bucket the record goes to the start. -/
theorem JournalDevice.Fits.recordOffset_advanced {ja : JournalDevice} (h : ja.Fits g)
    (hfree : ja.sectorsFree = g.bucketSize) : recordOffset g ja = g.bucketStart ja.curIdx := by
  rw [h.recordOffset_eq, hfree, Nat.sub_self, Nat.zero_mul, Nat.add_zero]

/-- A device that takes every write takes the record. -/
theorem journalWriteRecord_complete {ja : JournalDevice} {r : Jset} (advanced : Bool)
    (hfits : ja.Fits g) (hfit : g.writeSectors r.words.length ≤ ja.sectorsFree) :
    journalWriteRecord g {} r ja advanced = (0, recordWritten g ja r,
      (if advanced then [zeroBucket g ja] else []) ++ [(recordOffset g ja, diskWords g r)]) := by
  have hin := hfits.recordOffset_inside hfit
  simp only [journalWriteRecord, takeWrite, ne_eq, not_true_eq_false, and_false, if_false,
    gt_iff_lt, Nat.not_lt.mpr hin, Bool.true_eq_false, or_self]

/-- A journal whose device part has just written the record `r`, before the record is
published. -/
structure Written (img : Image UInt64) (hist : List Jset) (bk : ℕ → List Jset) (j : Journal)
    (r : Jset) : Prop where
  durable : DurableInv g img (hist ++ [r]) bk j.device.curIdx
  wf : j.Wf
  openOk : j.OpenOk
  one : j.reservations.count j.reservations.idx = 1
  attached : j.attached = true
  fits : j.device.Fits g
  bucketSeq : ∀ i < g.nr, j.device.bucketSeq.getD i 0 = lastSeqOf 0 (bk i)
  free : usedSectors g (bk j.device.curIdx) + j.device.sectorsFree = g.bucketSize
  seq_le : j.seq ≤ journalSeqMax
  seq_eq : r.seq = j.seq
  lastSeq_eq : r.lastSeq = j.lastSeq

/-- Publishing the record written makes the journal belong to the device again. -/
theorem Written.publish {img : Image UInt64} {hist : List Jset} {bk : ℕ → List Jset}
    {j j' : Journal} {r : Jset} {ret : ℤ} (h : Written (g := g) img hist bk j r)
    (hpub : PublishCase j r ret j') : LiveInv g img (hist ++ [r]) bk j' := by
  have hlast : ∀ nw ∈ (hist ++ [r]).getLast?, nw = r := by
    intro nw hnw
    rw [List.getLast?_concat] at hnw
    exact (Option.mem_some_iff.mp hnw).symm
  have hne : hist ++ [r] ≠ [] := by simp
  cases hpub with
  | exhausted hmax =>
    exact {
      durable := h.durable
      wf := h.wf.congr rfl rfl rfl rfl rfl rfl
      openOk := h.openOk.congr rfl rfl
      attached := h.attached
      fits := h.fits
      bucketSeq := h.bucketSeq
      free := h.free
      seq_le := h.seq_le
      seq_first := fun hnil => absurd hnil hne
      cur_first := fun hnil => absurd hnil hne
      seq_top := fun nw hnw => by rw [hlast nw hnw]; exact h.seq_eq.le
      seq_next := fun nw hnw hlt => by
        rw [hlast nw hnw, h.seq_eq] at hlt
        exact absurd hlt (Nat.not_lt.mpr hmax)
      lastSeq_top := fun nw hnw => by rw [hlast nw hnw]; exact h.lastSeq_eq.le }
  | opened hmax hpin hstep =>
    have hf := hstep.frame
    have hseq : j'.seq = j.seq + 1 := hf.seq
    have hcur : j'.device.curIdx = j.device.curIdx := hf.device.curIdx
    have hopen : Journal.OpenOk { j with closed := j.closed ++ [r] } := h.openOk.congr rfl rfl
    exact {
      durable := by rw [hcur]; exact h.durable
      wf := hstep.wf
      openOk := (hopen.openNext r _ h.one).congr hf.reservations hf.seq
      attached := hf.attached.trans h.attached
      fits := h.fits.frame hf.device
      bucketSeq := by rw [hf.device.bucketSeq]; exact h.bucketSeq
      free := by rw [hcur, hf.device.sectorsFree]; exact h.free
      seq_le := by omega
      seq_first := fun hnil => absurd hnil hne
      cur_first := fun hnil => absurd hnil hne
      seq_top := fun nw hnw => by
        rw [hlast nw hnw, h.seq_eq, hseq]
        exact Nat.le_succ _
      seq_next := fun nw hnw _ => by rw [hlast nw hnw, h.seq_eq, hseq]
      lastSeq_top := fun nw hnw => by
        rw [hlast nw hnw, h.lastSeq_eq]
        exact hf.lastSeq_le }

theorem lastSeqOf_concat (rs : List Jset) (r : Jset) : lastSeqOf 0 (rs ++ [r]) = r.seq := by
  simp [lastSeqOf]

/-- The bucket sequences after a record in bucket `c`, once the records of that bucket end with
it. -/
theorem getD_bucketSeq_set {seqs : List ℕ} {bk : ℕ → List Jset} {c : ℕ} (rs : List Jset)
    {r : Jset} (hlen : seqs.length = g.nr)
    (h : ∀ i < g.nr, i ≠ c → seqs.getD i 0 = lastSeqOf 0 (bk i)) :
    ∀ i < g.nr, (seqs.set c r.seq).getD i 0 =
      lastSeqOf 0 (Function.update bk c (rs ++ [r]) i) := by
  intro i hi
  by_cases hic : i = c
  · subst hic
    rw [Function.update_self, lastSeqOf_concat, List.getD_eq_getElem?_getD,
      List.getElem?_set_self (by omega)]
    rfl
  · rw [Function.update_of_ne hic, ← h i hi hic]
    simp only [List.getD_eq_getElem?_getD, List.getElem?_set_ne (Ne.symm hic)]

namespace LiveInv

variable {img : Image UInt64} {hist : List Jset} {bk : ℕ → List Jset} {j : Journal}

/-- Where the next record goes. -/
theorem recordOffset_eq (h : LiveInv g img hist bk j) : recordOffset g j.device =
    g.bucketStart j.device.curIdx + usedSectors g (bk j.device.curIdx) * sectorU64s := by
  have hfree := h.free
  rw [h.fits.recordOffset_eq]
  congr 2
  omega

/-- The record written behind the newest one. -/
theorem written_behind (h : LiveInv g img hist bk j) (roots : List UInt64)
    (hone : j.reservations.count j.reservations.idx = 1)
    (hfit : g.writeSectors (flushRecord j roots).words.length ≤ j.device.sectorsFree) :
    Written (g := g)
      (applyWrites img [(recordOffset g j.device, diskWords g (flushRecord j roots))]) hist
      (Function.update bk j.device.curIdx (bk j.device.curIdx ++ [flushRecord j roots]))
      { j with device := recordWritten g j.device (flushRecord j roots) } (flushRecord j roots) := by
  have hfollows := h.follows roots (hfit.trans h.fits.free_le)
  have hfree := h.free
  have hdur := h.durable.append hfollows (by omega)
  rw [← h.recordOffset_eq] at hdur
  exact {
    durable := hdur
    wf := { h.wf with ordered := h.wf.ordered.recordWritten g _ }
    openOk := h.openOk.congr rfl rfl
    one := hone
    attached := h.attached
    fits := h.fits.recordWritten _
    bucketSeq := getD_bucketSeq_set _ h.fits.bucketSeq_length fun i hi _ => h.bucketSeq i hi
    free := by
      have hcur : (recordWritten g j.device (flushRecord j roots)).curIdx = j.device.curIdx := rfl
      simp only [hcur, Function.update_self, usedSectors_append, usedSectors_singleton]
      simp only [recordWritten]
      omega
    seq_le := h.seq_le
    seq_eq := rfl
    lastSeq_eq := rfl }

/-- When a bucket is available, the bucket after the current one is another one, and the one
after that holds nothing the journal still needs. -/
theorem available_old (h : LiveInv g img hist bk j)
    (havail : bch2JournalDevBucketsAvailable j.device .discarded ≠ 0) :
    Ring.next g.nr j.device.curIdx ≠ j.device.curIdx ∧
      Ring.next g.nr (Ring.next g.nr j.device.curIdx) ≠ Ring.next g.nr j.device.curIdx ∧
      ∀ x ∈ bk (Ring.next g.nr (Ring.next g.nr j.device.curIdx)), x.seq < j.lastSeq := by
  obtain ⟨-, hdirty⟩ := h.wf.ordered.of_available havail
  rw [h.fits.nr_eq] at hdirty
  have hcur := h.fits.cur_lt
  have hpos : 0 < g.nr := g.nr_pos
  have hdlt := Ring.pos_lt (n := g.nr) (c := j.device.curIdx) (i := j.device.dirtyIdx) hpos
  have hself := Ring.pos_self hcur
  have hnext := Ring.pos_next hcur
  have hnlt : Ring.next g.nr j.device.curIdx < g.nr := Ring.next_lt hpos
  have hne : Ring.next g.nr j.device.curIdx ≠ j.device.curIdx := by
    intro heq
    rw [heq] at hnext
    omega
  have htwo := Ring.pos_step hcur hnlt hne
  have hllt : Ring.next g.nr (Ring.next g.nr j.device.curIdx) < g.nr := Ring.next_lt hpos
  refine ⟨hne, ?_, ?_⟩
  · intro heq
    rw [heq] at htwo
    omega
  · intro x hx
    have hold := h.wf.ordered.old (Ring.next g.nr (Ring.next g.nr j.device.curIdx))
      (by rw [h.fits.nr_eq]; exact hllt) (by rw [h.fits.nr_eq]; omega)
    rw [h.bucketSeq _ hllt] at hold
    exact lt_of_le_of_lt (h.durable.bounded _ hllt x hx) hold

/-- The next bucket zeroed and the record written at its start. -/
theorem written_entered (h : LiveInv g img hist bk j) (roots : List UInt64)
    (hone : j.reservations.count j.reservations.idx = 1)
    (hfit : g.writeSectors (flushRecord j roots).words.length ≤ g.bucketSize)
    (havail : bch2JournalDevBucketsAvailable j.device .discarded ≠ 0) :
    DurableInv g (applyWrites img [zeroBucket g (advanceBucket g j.device j.seq)]) hist
        (Function.update bk (Ring.next g.nr j.device.curIdx) []) j.device.curIdx ∧
      Written (g := g)
        (applyWrites img [zeroBucket g (advanceBucket g j.device j.seq),
          (recordOffset g (advanceBucket g j.device j.seq), diskWords g (flushRecord j roots))])
        hist (Function.update bk (Ring.next g.nr j.device.curIdx) [flushRecord j roots])
        { j with
          device := recordWritten g (advanceBucket g j.device j.seq) (flushRecord j roots) }
        (flushRecord j roots) := by
  obtain ⟨hne, hne', hold⟩ := h.available_old havail
  have hfits := h.fits.advanceBucket j.seq
  have hcur : (advanceBucket g j.device j.seq).curIdx = Ring.next g.nr j.device.curIdx := by
    simp only [advanceBucket, h.fits.nr_eq]
  have hzero : zeroBucket g (advanceBucket g j.device j.seq) =
      (g.bucketStart (Ring.next g.nr j.device.curIdx), List.replicate g.bucketU64s 0) := by
    rw [hfits.zeroBucket_eq, hcur]
  have hoff : recordOffset g (advanceBucket g j.device j.seq) =
      g.bucketStart (Ring.next g.nr j.device.curIdx) := by
    rw [hfits.recordOffset_advanced rfl, hcur]
  have hmid := h.durable.zero hne
  have hdur := hmid.enter (h.follows roots hfit) (Function.update_self ..) hfit (by
    rw [Function.update_of_ne hne']
    exact hold)
  rw [Function.update_idem] at hdur
  rw [hzero, hoff]
  refine ⟨hmid, ?_⟩
  exact {
    durable := by
      have hcur' : (recordWritten g (advanceBucket g j.device j.seq)
          (flushRecord j roots)).curIdx = Ring.next g.nr j.device.curIdx := hcur
      simp only [hcur']
      exact hdur
    wf := { h.wf with
      ordered := (h.wf.ordered.advanceBucket g j.seq havail).recordWritten g _ }
    openOk := h.openOk.congr rfl rfl
    one := hone
    attached := h.attached
    fits := hfits.recordWritten _
    bucketSeq := by
      simp only [recordWritten, hcur]
      apply getD_bucketSeq_set [] hfits.bucketSeq_length
      intro i hi hin
      rw [← h.bucketSeq i hi]
      simp only [advanceBucket, h.fits.nr_eq, List.getD_eq_getElem?_getD,
        List.getElem?_set_ne (Ne.symm hin)]
    free := by
      simp only [recordWritten, hcur, Function.update_self, usedSectors_singleton]
      simp only [advanceBucket]
      omega
    seq_le := h.seq_le
    seq_eq := rfl
    lastSeq_eq := rfl }

end LiveInv

/-- What a flush has done when the device takes every write: nothing, or a record behind the last
one, or a zeroed bucket and a record at its start. The journal is the one the flush leaves when
it returns. -/
inductive FlushEffect (g : JournalGeometry) (img : Image UInt64) (hist : List Jset) (r : Jset)
    (res : FlushResult) : Prop
  | none (bk : ℕ → List Jset) (hwrites : res.writes = []) (hret : res.ret ≠ some 0)
      (hlive : ∀ ret, res.ret = some ret → LiveInv g img hist bk res.journal)
  | record {bk : ℕ → List Jset} {cur : ℕ} {w : DeviceWrite} (hwrites : res.writes = [w])
      (hdur : DurableInv g (applyWrites img [w]) (hist ++ [r]) bk cur)
      (hlive : ∀ ret, res.ret = some ret → LiveInv g (applyWrites img [w]) (hist ++ [r]) bk
        res.journal ∧ (ret = 0 → r.seq < journalSeqMax))
  | zeroed {bk bk' : ℕ → List Jset} {cur cur' : ℕ} {z w : DeviceWrite}
      (hwrites : res.writes = [z, w])
      (hmid : DurableInv g (applyWrites img [z]) hist bk cur)
      (hdur : DurableInv g (applyWrites img [z, w]) (hist ++ [r]) bk' cur')
      (hlive : ∀ ret, res.ret = some ret → LiveInv g (applyWrites img [z, w]) (hist ++ [r]) bk'
        res.journal ∧ (ret = 0 → r.seq < journalSeqMax))

namespace LiveInv

variable {img : Image UInt64} {hist : List Jset} {bk : ℕ → List Jset} {j : Journal}

/-- What a flush does behind the device write of its record. -/
private theorem finish {r : Jset} {device : JournalDevice} {bk' : ℕ → List Jset}
    {img' : Image UInt64} {fn : PinFlushFn} {fuel : ℕ} {writes : List DeviceWrite}
    (hw : Written (g := g) img' hist bk' { j with device := device } r) (ret : ℤ)
    (hret : (flushFinish g fn fuel j r 0 device writes).ret = some ret) :
    LiveInv g img' (hist ++ [r]) bk' (flushFinish g fn fuel j r 0 device writes).journal ∧
      (ret = 0 → r.seq < journalSeqMax) := by
  unfold flushFinish at hret ⊢
  simp only [ne_eq, not_true_eq_false, if_false] at hret ⊢
  cases hpub : flushPublish g fn fuel { j with device := device } r with
  | none =>
    simp only [hpub] at hret
    cases hret
  | some p =>
    obtain ⟨ret', j'⟩ := p
    simp only [hpub, Option.some.injEq] at hret
    subst hret
    have hcase := flushPublish_cases g hw.wf hw.openOk hpub
    refine ⟨hw.publish hcase, fun hzero => ?_⟩
    rw [hw.seq_eq]
    cases hcase with
    | exhausted hmax => cases hzero
    | opened hmax hpin hstep => exact hmax

/-- A flush on a device that takes every write. -/
theorem flush (h : LiveInv g img hist bk j) (fn : PinFlushFn) (fuel : ℕ) (roots : List UInt64) :
    FlushEffect g img hist (flushRecord j roots) (bch2JournalFlush g {} fn fuel roots j) := by
  unfold bch2JournalFlush
  dsimp only
  split_ifs with hcount hring hfault hatt
  · exact .none bk rfl (fun heq => by cases heq) fun _ _ => h
  · exact .none bk rfl (fun heq => by cases heq) fun _ _ => h
  · exact .none bk rfl (fun heq => by cases heq) fun _ _ =>
      h.frame (h.wf.congr rfl rfl rfl rfl rfl rfl) (h.openOk.congr rfl rfl) (.refl _) rfl rfl le_rfl
  · have hone : j.reservations.count j.reservations.idx = 1 := not_not.mp hcount
    have hcase := journalWriteDevice_cases g {} (flushRecord j roots) j.device
    generalize journalWriteDevice g {} (flushRecord j roots) j.device = dev at hcase ⊢
    cases hcase with
    | refused ret hret =>
      refine .none bk (flushFinish_writes ..) ?_ fun _ _ => ?_
      · rw [flushFinish, if_pos hret]
        exact fun heq => hret (Option.some.inj heq)
      · rw [flushFinish, if_pos hret]
        exact h
    | behind hfit =>
      rw [journalWriteRecord_complete false h.fits hfit]
      have hw := h.written_behind roots hone hfit
      exact .record (flushFinish_writes ..) hw.durable fun ret hret => finish hw ret hret
    | entered hfit havail =>
      rw [journalWriteRecord_complete true (h.fits.advanceBucket _) hfit]
      obtain ⟨hmid, hw⟩ := h.written_entered roots hone hfit havail
      exact .zeroed (flushFinish_writes ..) hmid hw.durable fun ret hret => finish hw ret hret
  · exact absurd h.attached hatt

end LiveInv

end Flush

end Subvol

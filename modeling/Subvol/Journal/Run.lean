import Subvol.Journal.System

/-!
# Runs of the journal

A run formats and attaches a device, works on the journal (reservations, pins, reclaim,
checkpoints), flushes it, writes elsewhere on the device, and may be cut off by a crash after any
completed device write, after which the device can be attached again. With the image goes the
history of the records that have become durable.

## Main definitions

* `JournalOp`: the operations of the journal that write nothing.
* `RunStep`, `Run`: the steps and the runs.
* `nextSeq`: the sequence of the open entry.
* `checkpointLocked`: `checkpoint_locked` of the engine.
* `WindowIntact`: the device still holds every record the newest one declares needed.

## Main results

* `RunStep.inv`, `Run.inv`: the invariant along a step and in every run.
* `RunStep.nextSeq_le`: no step takes the sequence of the open entry back.
* `Run.checkpointLocked`: a checkpoint is made of steps of a run.
* `journal_window_intact`: no crash loses a record of the window.
-/

namespace Subvol

open Lib

variable (g : JournalGeometry)

/-! ### Runs -/

/-- The operations of the journal that write nothing to the device: reservations and what is
stored under them, pins, reclaim, the boundary, and the bookkeeping of a checkpoint. -/
inductive JournalOp : Journal → Journal → Prop
  | resGet {j j' : Journal} {u64s flags : ℕ} {res : JournalRes}
      (h : journalResGetFast j u64s flags = some (j', res)) : JournalOp j j'
  | resWrite (j : Journal) (offset : ℕ) (ws : List UInt64) :
      JournalOp j (journalResWrite j j.seq offset ws)
  | resPut (j : Journal) (res : JournalRes) (h : res.seq = j.seq) :
      JournalOp j (bch2JournalResPut j res)
  | pinSet {j j' : Journal} {seq addr : ℕ} {type : JournalPinType}
      (h : bch2JournalPinSet g j seq addr type = some j') : JournalOp j j'
  | pinAdd {j j' : Journal} {seq addr : ℕ} {type : JournalPinType}
      (h : bch2JournalPinAdd g j seq addr type = some j') : JournalOp j j'
  | pinUpdate {j j' : Journal} {seq addr : ℕ} {type : JournalPinType}
      (h : bch2JournalPinUpdate g j seq addr type = some j') : JournalOp j j'
  | pinDrop {j j' : Journal} {addr : ℕ} (h : bch2JournalPinDrop g j addr = some j') :
      JournalOp j j'
  | replayPinsPut {j j' : Journal} {seq : ℕ}
      (h : bch2JournalReplayPinsPut g j seq = some j') : JournalOp j j'
  | flushPins {j j' : Journal} {fn : PinFlushFn} {fuel seqToFlush : ℕ}
      (h : bch2JournalFlushPins g fn fuel seqToFlush j = some j') : JournalOp j j'
  | reclaim {j j' : Journal} {fn : PinFlushFn} {fuel : ℕ} {direct kicked : Bool}
      (h : journalReclaim g fn direct fuel kicked j = some j') : JournalOp j j'
  | updateLastSeq (j : Journal) : JournalOp j (bch2JournalUpdateLastSeq g j)
  | updateLastSeqOndisk (j : Journal) (lastSeqOndisk : ℕ) :
      JournalOp j (bch2JournalUpdateLastSeqOndisk g j lastSeqOndisk).2
  | injectWriteError (j : Journal) (count : ℕ) :
      JournalOp j { j with faultInjectWriteError := count }
  | retainClosed (j : Journal) (seq : ℕ) :
      JournalOp j { j with closed := j.closed.filter fun r => r.seq > seq }

/-- The history after a flush of the record `r` made the given writes: the record is durable once
something was written, the record write being the last one. -/
def histAfter (hist : List Jset) (r : Jset) (writes : List DeviceWrite) : List Jset :=
  if writes = [] then hist else hist ++ [r]

/-- The steps of a journal on a device that takes every write whole, with the image, the history of
durable records and the journal in memory, `none` when the engine is down. A failed assertion
takes the engine down. -/
inductive RunStep : Image UInt64 → List Jset → Option Journal → Image UInt64 → List Jset →
    Option Journal → Prop
  | attach {img : Image UInt64} {hist : List Jset} {j₀ j : Journal} {info : JournalStartInfo}
      (hmax : ∀ r ∈ hist, r.seq < journalSeqMax)
      (hread : bch2JournalRead g img j₀ = .ok (j, info)) :
      RunStep img hist none img hist (some j)
  | op {img : Image UInt64} {hist : List Jset} {j j' : Journal} (hop : JournalOp g j j') :
      RunStep img hist (some j) img hist (some j')
  | flush {img : Image UInt64} {hist : List Jset} {j : Journal} (fn : PinFlushFn) (fuel : ℕ)
      (roots : List UInt64) {ret : ℤ}
      (hret : (bch2JournalFlush g {} fn fuel roots j).ret = some ret) :
      RunStep img hist (some j) (applyWrites img (bch2JournalFlush g {} fn fuel roots j).writes)
        (histAfter hist (flushRecord j roots) (bch2JournalFlush g {} fn fuel roots j).writes)
        (some (bch2JournalFlush g {} fn fuel roots j).journal)
  | flushFirst {img : Image UInt64} {hist : List Jset} {j : Journal} (fn : PinFlushFn) (fuel : ℕ)
      (roots : List UInt64) {z w : DeviceWrite}
      (hwrites : (bch2JournalFlush g {} fn fuel roots j).writes = [z, w]) :
      RunStep img hist (some j) (applyWrites img [z]) hist none
  | flushDown {img : Image UInt64} {hist : List Jset} {j : Journal} (fn : PinFlushFn) (fuel : ℕ)
      (roots : List UInt64) :
      RunStep img hist (some j) (applyWrites img (bch2JournalFlush g {} fn fuel roots j).writes)
        (histAfter hist (flushRecord j roots) (bch2JournalFlush g {} fn fuel roots j).writes) none
  | elsewhere {img : Image UInt64} {hist : List Jset} {oj : Option Journal} {off : ℕ}
      {ws : List UInt64}
      (hout : ∀ i < g.nr, off + ws.length ≤ g.bucketStart i ∨
        g.bucketStart i + g.bucketU64s ≤ off) :
      RunStep img hist oj (img.writeAt off ws) hist oj
  | crash {img : Image UInt64} {hist : List Jset} {j : Journal} :
      RunStep img hist (some j) img hist none

/-- The runs of a journal on a formatted device. -/
inductive Run : Image UInt64 → List Jset → Option Journal → Prop
  | format {img : Image UInt64} (h : Formatted g img) : Run img [] none
  | step {img img' : Image UInt64} {hist hist' : List Jset} {oj oj' : Option Journal}
      (h : Run img hist oj) (hstep : RunStep g img hist oj img' hist' oj') : Run img' hist' oj'

variable {g}

theorem LiveInv.op {img : Image UInt64} {hist : List Jset} {bk : ℕ → List Jset} {j j' : Journal}
    (h : LiveInv g img hist bk j) (hop : JournalOp g j j') : LiveInv g img hist bk j' := by
  cases hop with
  | resGet hres =>
    unfold journalResGetFast at hres
    dsimp only at hres
    split_ifs at hres
    cases hres
    refine h.frame (h.wf.congr rfl rfl rfl rfl rfl rfl) ⟨h.openOk.idx_eq, ?_⟩ (.refl _) rfl rfl
      le_rfl
    intro i hi
    exact (Function.update_of_ne hi _ _).trans (h.openOk.count_eq i hi)
  | resWrite offset ws =>
    exact h.frame (h.wf.congr rfl rfl rfl rfl rfl rfl) (h.openOk.congr rfl rfl) (.refl _) rfl rfl
      le_rfl
  | resPut res hseq =>
    refine h.frame (h.wf.congr rfl rfl rfl rfl rfl rfl) ⟨h.openOk.idx_eq, ?_⟩ (.refl _) rfl rfl
      le_rfl
    intro i hi
    have hidx : res.seq % journalStateBufNr = j.reservations.idx := by
      rw [hseq, h.openOk.idx_eq]
    have hne : i ≠ res.seq % journalStateBufNr := by rwa [hidx]
    exact (Function.update_of_ne hne _ _).trans (h.openOk.count_eq i hi)
  | pinSet hp => exact h.pinStep (h.wf.pinSet g hp)
  | pinAdd hp => exact h.pinStep (h.wf.pinAdd g hp)
  | pinUpdate hp => exact h.pinStep (h.wf.pinUpdate g hp)
  | pinDrop hp => exact h.pinStep (h.wf.pinDrop g hp)
  | replayPinsPut hp => exact h.pinStep (h.wf.replayPinsPut g hp)
  | flushPins hp => exact h.pinStep (h.wf.bch2JournalFlushPins g hp)
  | reclaim hp => exact h.pinStep (h.wf.journalReclaim g hp)
  | updateLastSeq => exact h.pinStep (h.wf.updateLastSeq g)
  | updateLastSeqOndisk v => exact h.pinStep (h.wf.updateLastSeqOndisk g v)
  | injectWriteError count =>
    exact h.frame (h.wf.congr rfl rfl rfl rfl rfl rfl) (h.openOk.congr rfl rfl) (.refl _) rfl rfl
      le_rfl
  | retainClosed seq =>
    exact h.frame (h.wf.congr rfl rfl rfl rfl rfl rfl) (h.openOk.congr rfl rfl) (.refl _) rfl rfl
      le_rfl

/-- The invariant of a run: a journal in memory belongs to the device, and without one the device
is a durable journal. -/
def RunInv (g : JournalGeometry) (img : Image UInt64) (hist : List Jset) : Option Journal → Prop
  | some j => ∃ bk, LiveInv g img hist bk j
  | none => ∃ bk cur, DurableInv g img hist bk cur

theorem RunInv.durable {img : Image UInt64} {hist : List Jset} {oj : Option Journal}
    (h : RunInv g img hist oj) : ∃ bk cur, DurableInv g img hist bk cur := by
  cases oj with
  | none => exact h
  | some j =>
    obtain ⟨bk, hlive⟩ := h
    exact ⟨bk, j.device.curIdx, hlive.durable⟩

/-- A step keeps the invariant. -/
theorem RunStep.inv {img img' : Image UInt64} {hist hist' : List Jset} {oj oj' : Option Journal}
    (hstep : RunStep g img hist oj img' hist' oj') (h : RunInv g img hist oj) :
    RunInv g img' hist' oj' := by
  cases hstep with
  | @attach j₀ j info hmax hread =>
    obtain ⟨bk, cur, hdur⟩ := h
    obtain ⟨j', info', hread', hlive, -⟩ := hdur.bch2JournalRead hmax j₀
    cases hread.symm.trans hread'
    exact ⟨bk, hlive⟩
  | op hop =>
    obtain ⟨bk, hlive⟩ := h
    exact ⟨bk, hlive.op hop⟩
  | flush fn fuel roots hret =>
    obtain ⟨bk, hlive⟩ := h
    cases hlive.flush fn fuel roots with
    | none _ hwrites _ hj =>
      rw [hwrites]
      exact ⟨_, hj _ hret⟩
    | record hwrites hdur hj =>
      rw [hwrites]
      exact ⟨_, (hj _ hret).1⟩
    | zeroed hwrites hmid hdur hj =>
      rw [hwrites]
      exact ⟨_, (hj _ hret).1⟩
  | flushFirst fn fuel roots hfirst =>
    obtain ⟨bk, hlive⟩ := h
    cases hlive.flush fn fuel roots with
    | none _ hwrites _ hj => cases hwrites.symm.trans hfirst
    | record hwrites hdur hj => cases hwrites.symm.trans hfirst
    | zeroed hwrites hmid hdur hj =>
      cases hwrites.symm.trans hfirst
      exact ⟨_, _, hmid⟩
  | flushDown fn fuel roots =>
    obtain ⟨bk, hlive⟩ := h
    cases hlive.flush fn fuel roots with
    | none _ hwrites _ hj =>
      rw [hwrites]
      exact ⟨bk, _, hlive.durable⟩
    | record hwrites hdur hj =>
      rw [hwrites]
      exact ⟨_, _, hdur⟩
    | zeroed hwrites hmid hdur hj =>
      rw [hwrites]
      exact ⟨_, _, hdur⟩
  | elsewhere hout =>
    cases oj with
    | none =>
      obtain ⟨bk, cur, hdur⟩ := h
      exact ⟨bk, cur, hdur.outside hout⟩
    | some j =>
      obtain ⟨bk, hlive⟩ := h
      exact ⟨bk, { hlive with durable := hlive.durable.outside hout }⟩
  | crash => exact h.durable

/-- The invariant holds in every run. -/
theorem Run.inv {img : Image UInt64} {hist : List Jset} {oj : Option Journal}
    (h : Run g img hist oj) : RunInv g img hist oj := by
  induction h with
  | format hfmt => exact ⟨fun _ => [], 0, DurableInv.of_empty hfmt.layout fun _ _ => rfl⟩
  | step _ hstep ih => exact hstep.inv ih

/-! ### The sequence of the open entry -/

/-- The sequence behind the newest durable record, as far as sequences go. -/
def nextSeq (hist : List Jset) : ℕ :=
  min ((hist.getLast?.map Jset.seq).getD 0 + 1) journalSeqMax

theorem LiveInv.seq_eq {img : Image UInt64} {hist : List Jset} {bk : ℕ → List Jset} {j : Journal}
    (h : LiveInv g img hist bk j) : j.seq = nextSeq hist := by
  rw [nextSeq]
  cases hlast : hist.getLast? with
  | none =>
    rw [h.seq_first (List.getLast?_eq_none_iff.mp hlast)]
    rfl
  | some nw =>
    have htop := h.seq_top nw hlast
    have hnext := h.seq_next nw hlast
    have hle := h.seq_le
    simp only [Option.map_some, Option.getD_some]
    by_cases hmax : nw.seq < journalSeqMax
    · rw [hnext hmax, min_eq_left (by omega)]
    · rw [min_eq_right (by omega)]
      omega

/-- The open sequence and the newest one on disk follow from the durable records. -/
theorem RunInv.seq_eq {img : Image UInt64} {hist : List Jset} {j : Journal}
    (h : RunInv g img hist (some j)) : j.seq = nextSeq hist ∧ j.seqOndisk + 1 = nextSeq hist := by
  obtain ⟨bk, hlive⟩ := h
  exact ⟨hlive.seq_eq, hlive.wf.ondisk_next.trans hlive.seq_eq⟩

theorem nextSeq_le_histAfter {hist : List Jset} {r : Jset} (writes : List DeviceWrite)
    (hr : r.seq = nextSeq hist) : nextSeq hist ≤ nextSeq (histAfter hist r writes) := by
  rw [histAfter]
  split_ifs
  · exact le_rfl
  · have hle : nextSeq hist ≤ journalSeqMax := min_le_right _ _
    rw [nextSeq, nextSeq, List.getLast?_concat, Option.map_some, Option.getD_some, hr, ← nextSeq]
    exact le_min (Nat.le_succ _) hle

/-- No step takes the sequence back. -/
theorem RunStep.nextSeq_le {img img' : Image UInt64} {hist hist' : List Jset}
    {oj oj' : Option Journal} (hstep : RunStep g img hist oj img' hist' oj')
    (h : RunInv g img hist oj) : nextSeq hist ≤ nextSeq hist' := by
  cases hstep with
  | flush fn fuel roots hret => exact nextSeq_le_histAfter _ h.seq_eq.1
  | flushDown fn fuel roots => exact nextSeq_le_histAfter _ h.seq_eq.1
  | attach | op | flushFirst | elsewhere | crash => exact le_rfl

/-! ### Checkpoints -/

/-- The device and the journal of an engine that is up. -/
structure Machine where
  image : Image UInt64
  hist : List Jset
  journal : Journal

variable (g) in
/-- `bch2_journal_flush` on a machine. -/
def Machine.flush (fn : PinFlushFn) (fuel : ℕ) (roots : List UInt64) (m : Machine) :
    Option ℤ × Machine :=
  let res := bch2JournalFlush g {} fn fuel roots m.journal
  (res.ret, ⟨applyWrites m.image res.writes,
    histAfter m.hist (flushRecord m.journal roots) res.writes, res.journal⟩)

variable (g) in
/-- The part of `checkpoint_locked` between its two flushes: the pins up to the flushed sequence
are flushed, the boundary is moved behind what they held, and the records in memory below it are
dropped. -/
def checkpointReclaim (fn : PinFlushFn) (fuel sequence : ℕ) (j : Journal) :
    Option (ℤ × Journal) := do
  let j ← bch2JournalFlushPins g fn fuel (sequence + 1) j
  let j := bch2JournalUpdateLastSeq g j
  let (ret, j) := bch2JournalUpdateLastSeqOndisk g j j.lastSeq
  if ret ≠ 0 then some (ret, j)
  else some (0, { j with closed := j.closed.filter fun r => r.seq > sequence })

variable (g) in
/-- `checkpoint_locked` on a machine with a device; `roots` are the root entries of its two
flushes. The first flush is left out when the open entry is empty. -/
def checkpointLocked (fn : PinFlushFn) (fuel : ℕ) (roots roots' : List UInt64) (m : Machine) :
    Option ℤ × Machine :=
  let (ret, m) :=
    if m.journal.reservations.offset ≠ 0 then m.flush g fn fuel roots else (some 0, m)
  if ret ≠ some 0 then (ret, m)
  else if m.journal.seqOndisk = 0 then (some (-1), m)
  else
    match checkpointReclaim g fn fuel m.journal.seqOndisk m.journal with
    | none => (none, m)
    | some (ret, j) =>
      if ret ≠ 0 then (some ret, { m with journal := j })
      else { m with journal := j }.flush g fn fuel roots'

theorem Run.machineFlush {m m' : Machine} {fn : PinFlushFn} {fuel : ℕ} {roots : List UInt64}
    {ret : ℤ} (h : Run g m.image m.hist (some m.journal))
    (hflush : m.flush g fn fuel roots = (some ret, m')) :
    Run g m'.image m'.hist (some m'.journal) := by
  obtain ⟨hret, rfl⟩ := Prod.mk.inj hflush
  exact h.step (.flush fn fuel roots hret)

/-- The reclaim of a checkpoint is made of journal operations. -/
theorem Run.checkpointReclaim {img : Image UInt64} {hist : List Jset} {j j' : Journal}
    {fn : PinFlushFn} {fuel sequence : ℕ} {ret : ℤ} (h : Run g img hist (some j))
    (hstep : checkpointReclaim g fn fuel sequence j = some (ret, j')) :
    Run g img hist (some j') := by
  simp only [Subvol.checkpointReclaim, Option.bind_eq_bind, Option.bind_eq_some_iff] at hstep
  obtain ⟨j₁, hpins, hstep⟩ := hstep
  have h₁ := h.step (.op (.flushPins hpins))
  have h₂ := h₁.step (.op (.updateLastSeq j₁))
  have h₃ := h₂.step (.op (.updateLastSeqOndisk _ (bch2JournalUpdateLastSeq g j₁).lastSeq))
  split_ifs at hstep
  · cases hstep
    exact h₃
  · cases hstep
    exact h₃.step (.op (.retainClosed _ sequence))

/-- A checkpoint that returns takes a run on. -/
theorem Run.checkpointLocked {m m' : Machine} {fn : PinFlushFn} {fuel : ℕ}
    {roots roots' : List UInt64} {ret : ℤ} (h : Run g m.image m.hist (some m.journal))
    (hstep : checkpointLocked g fn fuel roots roots' m = (some ret, m')) :
    Run g m'.image m'.hist (some m'.journal) := by
  unfold Subvol.checkpointLocked at hstep
  -- the first flush, or none
  have hfirst : ∀ ret₁ m₁, (if m.journal.reservations.offset ≠ 0 then m.flush g fn fuel roots
      else (some 0, m)) = (some ret₁, m₁) → Run g m₁.image m₁.hist (some m₁.journal) := by
    intro ret₁ m₁ hm
    split_ifs at hm
    · exact h.machineFlush hm
    · cases hm
      exact h
  generalize (if m.journal.reservations.offset ≠ 0 then m.flush g fn fuel roots
    else (some 0, m)) = p at hstep hfirst
  obtain ⟨ret₁, m₁⟩ := p
  dsimp only at hstep
  split_ifs at hstep with hne hzero
  · cases hstep
    exact hfirst _ _ rfl
  · cases hstep
    exact hfirst 0 m' (by rw [not_not.mp hne])
  · have h₁ := hfirst 0 m₁ (by rw [not_not.mp hne])
    split at hstep
    · cases hstep
    · rename_i ret₂ j hrec
      have h₂ := h₁.checkpointReclaim hrec
      split_ifs at hstep
      · cases hstep
        exact h₂
      · exact Run.machineFlush (m := { m₁ with journal := j }) h₂ hstep

/-! ### The window of the newest record -/

variable (g) in
/-- The newest record of the history has the highest sequence, every sequence of its window
`[last_seq, seq]` has been written, and the device still holds every record of the history in
that window. -/
def WindowIntact (img : Image UInt64) (hist : List Jset) : Prop :=
  ∀ newest ∈ hist.getLast?,
    (∀ r ∈ hist, r.seq ≤ newest.seq) ∧
    (∀ s, newest.lastSeq ≤ s → s ≤ newest.seq → ∃ r ∈ hist, r.seq = s) ∧
    ∀ r ∈ hist, newest.lastSeq ≤ r.seq → OnDevice g img r

theorem DurableInv.windowIntact {img : Image UInt64} {hist : List Jset} {bk : ℕ → List Jset}
    {cur : ℕ} (h : DurableInv g img hist bk cur) : WindowIntact g img hist := by
  intro newest hnew
  obtain ⟨-, hpos⟩ := h.sound newest (List.mem_of_getLast? hnew)
  refine ⟨h.top newest hnew, ?_, ?_⟩
  · intro s hlast hle
    exact h.cover newest hnew s (lt_of_lt_of_le hpos hlast) hle
  · intro r hr hle
    obtain ⟨i, hi, hri⟩ := h.kept newest hnew r hr hle
    exact h.layout.onDevice hi hri

/-- In every run, and so after a crash behind any completed device write, the device still holds
every record that the newest durable record declares needed. -/
theorem journal_window_intact {img : Image UInt64} {hist : List Jset} {oj : Option Journal}
    (h : Run g img hist oj) : WindowIntact g img hist := by
  obtain ⟨bk, cur, hdur⟩ := h.inv.durable
  exact hdur.windowIntact

/-! ### A small device -/

/-- A device of four journal buckets of two sectors behind a reserved one. -/
def smallGeometry : JournalGeometry where
  bucketSize := 2
  blockSize := 1
  buckets := [1, 2, 3, 4]
  fileSectors := 16
  uuidLo := 0x5353535353535353
  bucketSize_pos := by decide
  bucketSize_lt := by decide
  buckets_ne := by decide
  buckets_nodup := by decide
  buckets_length_lt := by decide
  buckets_inside := by decide
  uuidLo_ne := by decide

theorem formatted_zero (g : JournalGeometry) : Formatted g fun _ => 0 := by
  intro i _
  simp [Image.readAt, List.map_const']

/-- The journal attached to the zeroed small device. -/
def smallJournal : Journal :=
  readInstall smallGeometry Journal.default []
    (readDevice smallGeometry ((List.range smallGeometry.nr).map fun _ => 0) none 1) 1 1

theorem read_smallJournal : bch2JournalRead smallGeometry (fun _ => 0) Journal.default =
    .ok (smallJournal, { curSeq := 1 }) := by
  have hfmt := formatted_zero smallGeometry
  have hdur := DurableInv.of_empty hfmt.layout fun _ _ => rfl
  exact (hdur.readable fun r hr => by cases hr).bch2JournalRead_nil rfl Journal.default

theorem run_smallJournal : Run smallGeometry (fun _ => 0) [] (some smallJournal) :=
  .step (.format (formatted_zero smallGeometry)) (.attach (fun r hr => by cases hr) read_smallJournal)

/-- The callback of a pin that has nothing to write. -/
def noFlushFn : PinFlushFn := fun _ _ _ => (0, [])

/-- The journal of the small device after one flush. -/
def smallFlushed : FlushResult := bch2JournalFlush smallGeometry {} noFlushFn 0 [] smallJournal

theorem run_smallFlushed : Run smallGeometry (applyWrites (fun _ => 0) smallFlushed.writes)
    [flushRecord smallJournal []] (some smallFlushed.journal) := by
  have hret : smallFlushed.ret = some 0 := by decide
  exact run_smallJournal.step (.flush noFlushFn 0 [] hret)

theorem journal_window_intact_small :
    ∃ img hist oj, Run smallGeometry img hist oj ∧ hist.length = 1 ∧
      WindowIntact smallGeometry img hist :=
  ⟨_, _, _, run_smallFlushed, rfl, journal_window_intact run_smallFlushed⟩

end Subvol

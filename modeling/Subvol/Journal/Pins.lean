import Mathlib.Logic.Function.Basic
import Subvol.Journal.Space

/-!
# Journal pins and reclaim

Model of the pin lists of `journal.rs`: a sequence number stays needed while a pin, the open
entry or an unfinished replay refers to it, and `bch2_journal_update_last_seq` releases the
sequences at the front of the fifo that nothing refers to. A failed assertion of the source is
the result `none`.

The callback of a pin runs without the lock: that of a node writes it and drops its pins, and a
callback may as well move pins or set new ones. `PinFlushFn` is what the journal sees of it, the
value returned and the operations on pins made on the way.

## Main definitions

* `bch2JournalUpdateLastSeq`, `bch2JournalUpdateLastSeqOndisk`.
* `bch2JournalPinSet`, `bch2JournalPinAdd`, `bch2JournalPinUpdate`, `bch2JournalPinDrop`,
  `bch2JournalReplayPinsPut`.
* `PinOp`, `PinFlushFn`: what a callback does with pins.
* `journalFlushPins`, `bch2JournalFlushPins`, `journalReclaim`.
* `PinRel`: the relations that hold along the loops over pins.
* `Journal.Wf`: the fifo covers `[last_seq, seq]` and the bucket indices are in order.
* `PinFrame`: what the operations on pins leave alone.

## Main results

* `Journal.Wf.pinSet`, `Journal.Wf.pinDrop`, `Journal.Wf.journalReclaim` and their likes: the
  operations on pins keep `Journal.Wf` and never lower `last_seq`.
-/

namespace Subvol

open Lib

variable (g : JournalGeometry)

/-! ### The boundary -/

/-- The loop of `bch2_journal_update_last_seq`: pop the sequences at the front that are on disk
and have no reference left. -/
def popPins (seqOndisk : ℕ) : ℕ → List JournalEntryPinList → JournalPinFifo
  | front, [] => ⟨front, []⟩
  | front, p :: rest =>
    if front ≤ seqOndisk ∧ p.count = 0 then popPins seqOndisk (front + 1) rest
    else ⟨front, p :: rest⟩

/-- `bch2_journal_update_last_seq`. -/
def bch2JournalUpdateLastSeq (j : Journal) : Journal :=
  let pin := popPins j.seqOndisk j.pin.front j.pin.lists
  let j' := { j with pin := pin, lastSeq := pin.front }
  if pin.front ≠ j.lastSeq then bch2JournalDoDiscards (bch2JournalSpaceAvailable g j') else j'

/-- `bch2_journal_update_last_seq_ondisk`. -/
def bch2JournalUpdateLastSeqOndisk (j : Journal) (lastSeqOndisk : ℕ) : ℤ × Journal :=
  if lastSeqOndisk > j.seq ∨ lastSeqOndisk > j.lastSeq then (-1, j)
  else if lastSeqOndisk > j.lastSeqOndisk then
    (0, bch2JournalDoDiscards (bch2JournalSpaceAvailable g
      { j with lastSeqOndisk := lastSeqOndisk }))
  else (0, j)

/-! ### Setting and dropping a pin -/

/-- Drop one reference of the pin `addr` from its list. -/
def JournalEntryPinList.remove (p : JournalEntryPinList) (addr : ℕ) : JournalEntryPinList :=
  { p with
    count := p.count - 1
    unflushed := p.unflushed.filter fun q => q.2 ≠ addr
    flushed := p.flushed.filter fun a => a ≠ addr }

/-- Release the pin `addr` from sequence `seq`; the source asserts that the sequence is in the
fifo and referred to. -/
def pinRelease (pin : JournalPinFifo) (seq addr : ℕ) : Option JournalPinFifo :=
  match pin.lists[seq - pin.front]? with
  | some p =>
    if pin.front ≤ seq ∧ p.count ≠ 0 then
      some { pin with lists := pin.lists.set (seq - pin.front) (p.remove addr) }
    else none
  | none => none

/-- Hold the sequence `seq` with the pin `addr`; the source asserts that it is in the fifo. -/
def pinHold (pin : JournalPinFifo) (seq addr : ℕ) (type : JournalPinType) :
    Option JournalPinFifo :=
  match pin.lists[seq - pin.front]? with
  | some p =>
    if pin.front ≤ seq then
      let p := { p with count := p.count + 1, unflushed := p.unflushed ++ [(type, addr)] }
      some { pin with lists := pin.lists.set (seq - pin.front) p }
    else none
  | none => none

/-- Mark that the pin under flush was dropped or moved. -/
def noteDropped (j : Journal) (addr : ℕ) : Journal :=
  if j.flushInProgress = addr then { j with flushInProgressDropped := true } else j

/-- `bch2_journal_pin_set`. -/
def bch2JournalPinSet (j : Journal) (newSeq addr : ℕ) (type : JournalPinType) : Option Journal :=
  let oldSeq := j.pins addr
  if oldSeq ≠ 0 then do
    let j := noteDropped j addr
    let pin ← pinRelease j.pin oldSeq addr
    let pin ← pinHold pin newSeq addr type
    some (bch2JournalUpdateLastSeq g
      { j with pin := pin, pins := Function.update j.pins addr newSeq })
  else do
    let pin ← pinHold j.pin newSeq addr type
    some { j with pin := pin, pins := Function.update j.pins addr newSeq }

/-- `bch2_journal_pin_add`. -/
def bch2JournalPinAdd (j : Journal) (seq addr : ℕ) (type : JournalPinType) : Option Journal :=
  if j.pins addr = 0 ∨ j.pins addr > seq then bch2JournalPinSet g j seq addr type else some j

/-- `bch2_journal_pin_update`. -/
def bch2JournalPinUpdate (j : Journal) (seq addr : ℕ) (type : JournalPinType) : Option Journal :=
  if j.pins addr = 0 ∨ j.pins addr < seq then bch2JournalPinSet g j seq addr type else some j

/-- `bch2_journal_pin_drop`. -/
def bch2JournalPinDrop (j : Journal) (addr : ℕ) : Option Journal :=
  if j.pins addr = 0 then some j
  else do
    let pin ← pinRelease j.pin (j.pins addr) addr
    let j := noteDropped j addr
    some (bch2JournalUpdateLastSeq g { j with pin := pin, pins := Function.update j.pins addr 0 })

/-- The loop of `bch2_journal_replay_pins_put` over the lists of the sequences before `stop`. -/
def putReplayed (stop : ℕ) : ℕ → List JournalEntryPinList → Option (List JournalEntryPinList)
  | _, [] => some []
  | seq, p :: rest => do
    let rest ← putReplayed stop (seq + 1) rest
    if seq < stop ∧ p.unreplayed then
      if p.count = 0 then none
      else some ({ p with unreplayed := false, count := p.count - 1 } :: rest)
    else some (p :: rest)

/-- `bch2_journal_replay_pins_put`. -/
def bch2JournalReplayPinsPut (j : Journal) (seq : ℕ) : Option Journal := do
  let lists ← putReplayed (min seq j.seq) j.pin.front j.pin.lists
  some (bch2JournalUpdateLastSeq g { j with pin := { j.pin with lists := lists } })

/-! ### Flushing pins -/

/-- An operation on pins that a callback makes. -/
inductive PinOp
  | set (seq addr : ℕ) (type : JournalPinType)
  | add (seq addr : ℕ) (type : JournalPinType)
  | update (seq addr : ℕ) (type : JournalPinType)
  | drop (addr : ℕ)
deriving DecidableEq, Repr

/-- The journal after an operation on pins. -/
def PinOp.run (j : Journal) : PinOp → Option Journal
  | .set seq addr type => bch2JournalPinSet g j seq addr type
  | .add seq addr type => bch2JournalPinAdd g j seq addr type
  | .update seq addr type => bch2JournalPinUpdate g j seq addr type
  | .drop addr => bch2JournalPinDrop g j addr

/-- What a pin callback returns and the operations on pins it makes. -/
abbrev PinFlushFn := Journal → ℕ → ℕ → ℤ × List PinOp

/-- The search of `journal_get_next_pin` through the lists of the fifo, for the masks of pin
types allowed up to `seqToFlush` and above it. -/
def nextPin (seqToFlush allowedBelow allowedAbove : ℕ) :
    ℕ → List JournalEntryPinList → Option (ℕ × ℕ)
  | _, [] => none
  | seq, p :: rest =>
    if p.unreplayed then none
    else if seq > seqToFlush ∧ allowedAbove = 0 then none
    else
      let allowed := fun t : JournalPinType =>
        (allowedBelow.testBit t.toNat && decide (seq ≤ seqToFlush)) || allowedAbove.testBit t.toNat
      match journalPinTypes.findSome? fun t =>
          if allowed t then p.unflushed.find? fun q => q.1 = t else none with
      | some q => some (q.2, seq)
      | none => nextPin seqToFlush allowedBelow allowedAbove (seq + 1) rest

/-- `journal_get_next_pin`. -/
def journalGetNextPin (j : Journal) (seqToFlush allowedBelow allowedAbove : ℕ) :
    Option (ℕ × ℕ) :=
  nextPin seqToFlush allowedBelow allowedAbove j.pin.front j.pin.lists

/-- The operations of a callback, one after another. -/
def runPinOps : Journal → List PinOp → Option Journal
  | j, [] => some j
  | j, op :: rest => do
    let j ← op.run g j
    runPinOps j rest

/-- File the pin `addr` of the sequence `seq` under its flushed pins. -/
def markFlushed (pin : JournalPinFifo) (seq addr : ℕ) : JournalPinFifo :=
  if pin.front ≤ seq then
    { pin with lists := pin.lists.modify (seq - pin.front) fun p =>
        { p with
          unflushed := p.unflushed.filter fun q => q.2 ≠ addr
          flushed := if addr ∈ p.flushed then p.flushed else p.flushed ++ [addr] } }
  else pin

/-- One turn of `journal_flush_pins` for the pin `addr`: the callback, and the pin filed as
flushed when the callback succeeded without dropping it. -/
def flushPin (fn : PinFlushFn) (j : Journal) (addr seq : ℕ) : Option (ℤ × Journal) := do
  let j := { j with flushInProgress := addr, flushInProgressDropped := false }
  let (ret, ops) := fn j addr seq
  let j ← runPinOps g j ops
  let j :=
    if ret = 0 ∧ j.flushInProgressDropped = false ∧ j.pins addr = seq then
      { j with pin := markFlushed j.pin seq addr }
    else j
  some (ret, { j with flushInProgress := 0, flushInProgressDropped := false })

/-- The loop of `journal_flush_pins`, at most `fuel` turns: the number of pins flushed. While
`minAny` is not used up every pin is allowed. -/
def journalFlushPins (fn : PinFlushFn) (seqToFlush allowedBelow allowedAbove : ℕ) :
    ℕ → ℕ → Journal → Option (ℕ × Journal)
  | 0, _, j => some (0, j)
  | fuel + 1, minAny, j =>
    let below := if minAny ≠ 0 then 2 ^ 32 - 1 else allowedBelow
    let above := if minAny ≠ 0 then 2 ^ 32 - 1 else allowedAbove
    match journalGetNextPin j seqToFlush below above with
    | none => some (0, j)
    | some (addr, seq) => do
      let (ret, j) ← flushPin g fn j addr seq
      if ret ≠ 0 then some (0, j)
      else
        let (nr, j) ← journalFlushPins fn seqToFlush allowedBelow allowedAbove fuel (minAny - 1) j
        some (nr + 1, j)

/-- `bch2_journal_flush_pins`, one pass for each pin type, the last type first. -/
def bch2JournalFlushPins (fn : PinFlushFn) (fuel seqToFlush : ℕ) (j : Journal) :
    Option Journal :=
  journalPinTypes.reverse.foldlM
    (fun j t => (journalFlushPins g fn seqToFlush (2 ^ t.toNat) 0 fuel 0 j).map Prod.snd) j

/-- `journal_seq_to_flush`: the sequence of the bucket half a ring ahead. -/
def journalSeqToFlush (j : Journal) : ℕ :=
  if j.device.nr = 0 then 0
  else j.device.bucketSeq.getD ((j.device.curIdx + j.device.nr / 2) % j.device.nr) 0

/-- `__bch2_journal_reclaim`, at most `fuel` rounds. -/
def journalReclaim (fn : PinFlushFn) (direct : Bool) : ℕ → Bool → Journal → Option Journal
  | 0, _, j => some j
  | fuel + 1, kicked, j => do
    let minNr := if kicked || j.flags.medOnSpace then 1 else 0
    let (nr, j) ← journalFlushPins g fn (journalSeqToFlush j) (2 ^ 32 - 1) 0 (fuel + 1) minNr j
    let j :=
      if direct then { j with nrDirectReclaim := j.nrDirectReclaim + nr }
      else { j with nrBackgroundReclaim := j.nrBackgroundReclaim + nr }
    if direct ∨ minNr = 0 ∨ nr = 0 then some j
    else journalReclaim fn direct fuel false j

/-! ### Loops over pins -/

/-- A relation between journals that holds along the operations on pins, along the filing of a pin
as flushed, and along the bookkeeping of reclaim. -/
structure PinRel (R : Journal → Journal → Prop) : Prop where
  refl (j : Journal) : R j j
  trans {a b c : Journal} : R a b → R b c → R a c
  op {j j' : Journal} {op : PinOp} : op.run g j = some j' → R j j'
  flushed {j : Journal} {seq addr : ℕ} :
    j.pins addr = seq → R j { j with pin := markFlushed j.pin seq addr }
  bookkeeping (j : Journal) (inProgress : ℕ) (dropped : Bool) (direct background : ℕ)
      (kicked : Bool) :
    R j { j with
      flushInProgress := inProgress
      flushInProgressDropped := dropped
      nrDirectReclaim := direct
      nrBackgroundReclaim := background
      reclaimKicked := kicked }

namespace PinRel

variable {g} {R : Journal → Journal → Prop} {fn : PinFlushFn} {j j' : Journal}

theorem runPinOps (h : PinRel g R) {ops : List PinOp} (hstep : runPinOps g j ops = some j') :
    R j j' := by
  induction ops generalizing j with
  | nil =>
    cases hstep
    exact h.refl _
  | cons op rest ih =>
    simp only [Subvol.runPinOps, Option.bind_eq_bind, Option.bind_eq_some_iff] at hstep
    obtain ⟨j₁, hop, hrest⟩ := hstep
    exact h.trans (h.op hop) (ih hrest)

theorem flushPin (h : PinRel g R) {addr seq : ℕ} {ret : ℤ}
    (hstep : flushPin g fn j addr seq = some (ret, j')) : R j j' := by
  simp only [Subvol.flushPin, Option.bind_eq_bind, Option.bind_eq_some_iff, Option.some.injEq,
    Prod.mk.injEq] at hstep
  obtain ⟨j₂, hops, -, rfl⟩ := hstep
  have hmark : ∀ j : Journal, R j { j with flushInProgress := 0, flushInProgressDropped := false } :=
    fun j => h.bookkeeping j 0 false _ _ _
  refine h.trans (h.bookkeeping j addr false _ _ _) (h.trans (h.runPinOps hops) ?_)
  split_ifs with hdone
  · exact h.trans (h.flushed hdone.2.2) (hmark _)
  · exact hmark _

theorem journalFlushPins (h : PinRel g R) {seqToFlush below above fuel minAny nr : ℕ}
    (hstep : journalFlushPins g fn seqToFlush below above fuel minAny j = some (nr, j')) :
    R j j' := by
  induction fuel generalizing j minAny nr with
  | zero =>
    cases hstep
    exact h.refl _
  | succ fuel ih =>
    rw [Subvol.journalFlushPins] at hstep
    dsimp only at hstep
    split at hstep
    · cases hstep
      exact h.refl _
    · simp only [Option.bind_eq_bind, Option.bind_eq_some_iff] at hstep
      obtain ⟨⟨ret, j₁⟩, hpin, hstep⟩ := hstep
      have h₁ := h.flushPin hpin
      dsimp only at hstep
      split_ifs at hstep
      · cases hstep
        exact h₁
      · simp only [Option.bind_eq_some_iff] at hstep
        obtain ⟨⟨nr₂, j₂⟩, hrest, hstep⟩ := hstep
        cases hstep
        exact h.trans h₁ (ih hrest)

theorem bch2JournalFlushPins (h : PinRel g R) {fuel seqToFlush : ℕ}
    (hstep : bch2JournalFlushPins g fn fuel seqToFlush j = some j') : R j j' := by
  unfold Subvol.bch2JournalFlushPins at hstep
  generalize journalPinTypes.reverse = types at hstep
  induction types generalizing j with
  | nil =>
    cases hstep
    exact h.refl _
  | cons t types ih =>
    simp only [List.foldlM_cons, Option.bind_eq_bind, Option.bind_eq_some_iff,
      Option.map_eq_some_iff] at hstep
    obtain ⟨j₁, ⟨⟨nr, _⟩, hpass, rfl⟩, hrest⟩ := hstep
    exact h.trans (h.journalFlushPins hpass) (ih hrest)

theorem journalReclaim (h : PinRel g R) {direct kicked : Bool} {fuel : ℕ}
    (hstep : journalReclaim g fn direct fuel kicked j = some j') : R j j' := by
  induction fuel generalizing j kicked with
  | zero =>
    cases hstep
    exact h.refl _
  | succ fuel ih =>
    simp only [Subvol.journalReclaim, Option.bind_eq_bind, Option.bind_eq_some_iff] at hstep
    obtain ⟨⟨nr, j₁⟩, hpins, hstep⟩ := hstep
    have h₁ := h.journalFlushPins hpins
    dsimp only at hstep
    have hcount : R j₁ (if direct then { j₁ with nrDirectReclaim := j₁.nrDirectReclaim + nr }
        else { j₁ with nrBackgroundReclaim := j₁.nrBackgroundReclaim + nr }) := by
      cases direct
      · exact h.bookkeeping j₁ _ _ _ (j₁.nrBackgroundReclaim + nr) _
      · exact h.bookkeeping j₁ _ _ (j₁.nrDirectReclaim + nr) _ _
    have h₂ := h.trans h₁ hcount
    split_ifs at hstep h₂ with hd hstop hstop
    all_goals first
      | (cases hstep; exact h₂)
      | exact h.trans h₂ (ih hstep)

end PinRel

/-! ### What the operations on pins keep -/

/-- The fifo covers `[last_seq, seq]`, the open entry is not on disk yet, and the bucket indices
are in order for `last_seq`. -/
structure Journal.Wf (j : Journal) : Prop where
  ordered : j.device.Ordered j.lastSeq
  front_eq : j.pin.front = j.lastSeq
  fifo_length : j.pin.front + j.pin.lists.length = j.seq + 1
  ondisk_next : j.seqOndisk + 1 = j.seq
  lastSeq_le : j.lastSeq ≤ j.seq
  lastSeq_pos : 0 < j.lastSeq

/-- Two journals that differ in pins and space accounting at most, the second with a `last_seq`
at least as high. -/
structure PinFrame (j j' : Journal) : Prop where
  reservations : j'.reservations = j.reservations
  seq : j'.seq = j.seq
  ring : j'.ring = j.ring
  closed : j'.closed = j.closed
  attached : j'.attached = j.attached
  device : DeviceFrame j.device j'.device
  seqOndisk : j'.seqOndisk = j.seqOndisk
  lastSeq_le : j.lastSeq ≤ j'.lastSeq

/-- A step on pins: well-formedness is kept and nothing else moves. -/
structure PinStep (j j' : Journal) : Prop where
  wf : j'.Wf
  frame : PinFrame j j'

theorem PinFrame.refl (j : Journal) : PinFrame j j :=
  ⟨rfl, rfl, rfl, rfl, rfl, .refl _, rfl, le_rfl⟩

theorem PinFrame.trans {a b c : Journal} (h₁ : PinFrame a b) (h₂ : PinFrame b c) :
    PinFrame a c where
  reservations := h₂.reservations.trans h₁.reservations
  seq := h₂.seq.trans h₁.seq
  ring := h₂.ring.trans h₁.ring
  closed := h₂.closed.trans h₁.closed
  attached := h₂.attached.trans h₁.attached
  device := h₁.device.trans h₂.device
  seqOndisk := h₂.seqOndisk.trans h₁.seqOndisk
  lastSeq_le := h₁.lastSeq_le.trans h₂.lastSeq_le

theorem SpaceFrame.toPinFrame {j j' : Journal} (h : SpaceFrame j j') : PinFrame j j' :=
  ⟨h.reservations, h.seq, h.ring, h.closed, h.attached, h.device, h.seqOndisk, h.lastSeq.ge⟩

theorem PinStep.refl {j : Journal} (h : j.Wf) : PinStep j j := ⟨h, .refl j⟩

theorem PinStep.trans {a b c : Journal} (h₁ : PinStep a b) (h₂ : PinStep b c) : PinStep a c :=
  ⟨h₂.wf, h₁.frame.trans h₂.frame⟩

namespace Journal.Wf

variable {j j' : Journal}

/-- Well-formedness reads the device, `last_seq`, the two sequence numbers and the extent of the
fifo. -/
theorem congr (h : j.Wf) (hdev : j'.device = j.device) (hlast : j'.lastSeq = j.lastSeq)
    (hfront : j'.pin.front = j.pin.front)
    (hlen : j'.pin.lists.length = j.pin.lists.length) (hseq : j'.seq = j.seq)
    (hond : j'.seqOndisk = j.seqOndisk) : j'.Wf where
  ordered := by rw [hdev, hlast]; exact h.ordered
  front_eq := by rw [hfront, hlast]; exact h.front_eq
  fifo_length := by rw [hfront, hlen, hseq]; exact h.fifo_length
  ondisk_next := by rw [hond, hseq]; exact h.ondisk_next
  lastSeq_le := by rw [hlast, hseq]; exact h.lastSeq_le
  lastSeq_pos := by rw [hlast]; exact h.lastSeq_pos

/-- Space accounting that keeps the indices in order keeps well-formedness. -/
theorem spaceFrame (h : j.Wf) (hf : SpaceFrame j j') (hord : j'.device.Ordered j.lastSeq) :
    j'.Wf where
  ordered := by rw [hf.lastSeq]; exact hord
  front_eq := by rw [hf.pin, hf.lastSeq]; exact h.front_eq
  fifo_length := by rw [hf.pin, hf.seq]; exact h.fifo_length
  ondisk_next := by rw [hf.seqOndisk, hf.seq]; exact h.ondisk_next
  lastSeq_le := by rw [hf.lastSeq, hf.seq]; exact h.lastSeq_le
  lastSeq_pos := by rw [hf.lastSeq]; exact h.lastSeq_pos

/-- Space accounting followed by discards is a step on pins. -/
theorem spaceAvailable (h : j.Wf) :
    PinStep j (bch2JournalDoDiscards (bch2JournalSpaceAvailable g j)) := by
  have hframe : SpaceFrame j (bch2JournalDoDiscards (bch2JournalSpaceAvailable g j)) :=
    (bch2JournalSpaceAvailable_frame g j).trans (bch2JournalDoDiscards_frame _)
  have hord := bch2JournalDoDiscards_ordered (bch2JournalSpaceAvailable_ordered g h.ordered)
  exact ⟨h.spaceFrame hframe hord, hframe.toPinFrame⟩

end Journal.Wf

theorem le_popPins_front (seqOndisk front : ℕ) (lists : List JournalEntryPinList) :
    front ≤ (popPins seqOndisk front lists).front := by
  induction lists generalizing front with
  | nil => exact le_rfl
  | cons p rest ih =>
    rw [popPins]
    split_ifs
    · exact (Nat.le_succ front).trans (ih (front + 1))
    · exact le_rfl

theorem popPins_length (seqOndisk front : ℕ) (lists : List JournalEntryPinList) :
    (popPins seqOndisk front lists).front + (popPins seqOndisk front lists).lists.length =
      front + lists.length := by
  induction lists generalizing front with
  | nil => rfl
  | cons p rest ih =>
    rw [popPins]
    split_ifs
    · rw [ih, List.length_cons]
      omega
    · rfl

/-- The front stops behind the last sequence on disk. -/
theorem popPins_front_le (seqOndisk front bound : ℕ) (lists : List JournalEntryPinList)
    (hfront : front ≤ bound) (hbound : seqOndisk < bound) :
    (popPins seqOndisk front lists).front ≤ bound := by
  induction lists generalizing front with
  | nil => exact hfront
  | cons p rest ih =>
    rw [popPins]
    split_ifs with h
    · exact ih (front + 1) (by omega)
    · exact hfront

namespace Journal.Wf

variable {j j' : Journal}

theorem updateLastSeq (h : j.Wf) : PinStep j (bch2JournalUpdateLastSeq g j) := by
  have hle := le_popPins_front j.seqOndisk j.pin.front j.pin.lists
  have hlen := popPins_length j.seqOndisk j.pin.front j.pin.lists
  have hbound := popPins_front_le j.seqOndisk j.pin.front j.seq j.pin.lists
    (h.front_eq.le.trans h.lastSeq_le) h.ondisk_next.le
  rw [h.front_eq] at hle
  -- the journal after the pop, before the space accounting
  have hmid : PinStep j { j with
      pin := popPins j.seqOndisk j.pin.front j.pin.lists
      lastSeq := (popPins j.seqOndisk j.pin.front j.pin.lists).front } := by
    rw [h.front_eq] at hlen hbound ⊢
    exact ⟨⟨h.ordered.mono hle, rfl, hlen.trans (h.front_eq ▸ h.fifo_length), h.ondisk_next,
      hbound, lt_of_lt_of_le h.lastSeq_pos hle⟩, ⟨rfl, rfl, rfl, rfl, rfl, .refl _, rfl, hle⟩⟩
  unfold bch2JournalUpdateLastSeq
  dsimp only
  split_ifs
  · exact hmid.trans (hmid.wf.spaceAvailable g)
  · exact hmid

theorem updateLastSeqOndisk (h : j.Wf) (lastSeqOndisk : ℕ) :
    PinStep j (bch2JournalUpdateLastSeqOndisk g j lastSeqOndisk).2 := by
  unfold bch2JournalUpdateLastSeqOndisk
  split_ifs
  · exact .refl h
  · have hset : PinStep j { j with lastSeqOndisk := lastSeqOndisk } :=
      ⟨h.congr rfl rfl rfl rfl rfl rfl, ⟨rfl, rfl, rfl, rfl, rfl, .refl _, rfl, le_rfl⟩⟩
    exact hset.trans (hset.wf.spaceAvailable g)
  · exact .refl h

end Journal.Wf

theorem pinRelease_extent {pin pin' : JournalPinFifo} {seq addr : ℕ}
    (h : pinRelease pin seq addr = some pin') :
    pin'.front = pin.front ∧ pin'.lists.length = pin.lists.length := by
  unfold pinRelease at h
  split at h
  · split_ifs at h
    cases h
    exact ⟨rfl, List.length_set⟩
  · cases h

theorem pinHold_extent {pin pin' : JournalPinFifo} {seq addr : ℕ} {type : JournalPinType}
    (h : pinHold pin seq addr type = some pin') :
    pin'.front = pin.front ∧ pin'.lists.length = pin.lists.length := by
  unfold pinHold at h
  split at h
  · split_ifs at h
    cases h
    exact ⟨rfl, List.length_set⟩
  · cases h

theorem putReplayed_length {stop seq : ℕ} {lists lists' : List JournalEntryPinList}
    (h : putReplayed stop seq lists = some lists') : lists'.length = lists.length := by
  induction lists generalizing seq lists' with
  | nil =>
    cases h
    rfl
  | cons p rest ih =>
    simp only [putReplayed, Option.bind_eq_bind, Option.bind_eq_some_iff] at h
    obtain ⟨rest', hrest, h⟩ := h
    have hlen := ih hrest
    split_ifs at h <;> cases h <;> simp [hlen]

theorem noteDropped_frame (j : Journal) (addr : ℕ) :
    SpaceFrame j (noteDropped j addr) ∧ (noteDropped j addr).device = j.device := by
  unfold noteDropped
  split_ifs <;>
    exact ⟨⟨rfl, rfl, rfl, rfl, rfl, .refl _, rfl, rfl, rfl, rfl, rfl⟩, rfl⟩

namespace Journal.Wf

variable {j j' : Journal}

/-- Replacing the lists of the fifo one for one is a step on pins. -/
theorem withPin (h : j.Wf) {pin : JournalPinFifo} {pins : ℕ → ℕ} {addr : ℕ}
    (hfront : pin.front = j.pin.front) (hlen : pin.lists.length = j.pin.lists.length) :
    PinStep j { noteDropped j addr with pin := pin, pins := pins } := by
  obtain ⟨hf, hdev⟩ := noteDropped_frame j addr
  refine ⟨h.congr hdev hf.lastSeq hfront hlen hf.seq hf.seqOndisk, ?_⟩
  exact ⟨hf.reservations, hf.seq, hf.ring, hf.closed, hf.attached, hf.device, hf.seqOndisk,
    hf.lastSeq.ge⟩

theorem pinDrop (h : j.Wf) {addr : ℕ} (hstep : bch2JournalPinDrop g j addr = some j') :
    PinStep j j' := by
  unfold bch2JournalPinDrop at hstep
  split_ifs at hstep
  · cases hstep
    exact .refl h
  · simp only [Option.bind_eq_bind, Option.bind_eq_some_iff] at hstep
    obtain ⟨pin, hpin, hstep⟩ := hstep
    cases hstep
    obtain ⟨hfront, hlen⟩ := pinRelease_extent hpin
    have hset : PinStep j { noteDropped j addr with
        pin := pin
        pins := Function.update (noteDropped j addr).pins addr 0 } := h.withPin hfront hlen
    exact hset.trans (hset.wf.updateLastSeq g)

theorem pinSet (h : j.Wf) {newSeq addr : ℕ} {type : JournalPinType}
    (hstep : bch2JournalPinSet g j newSeq addr type = some j') : PinStep j j' := by
  unfold bch2JournalPinSet at hstep
  dsimp only at hstep
  split_ifs at hstep
  · simp only [Option.bind_eq_bind, Option.bind_eq_some_iff] at hstep
    obtain ⟨pin₁, hrel, pin₂, hhold, hstep⟩ := hstep
    cases hstep
    have hpin : (noteDropped j addr).pin = j.pin := (noteDropped_frame j addr).1.pin
    rw [hpin] at hrel
    obtain ⟨hf₁, hl₁⟩ := pinRelease_extent hrel
    obtain ⟨hf₂, hl₂⟩ := pinHold_extent hhold
    have hset : PinStep j { noteDropped j addr with
        pin := pin₂
        pins := Function.update (noteDropped j addr).pins addr newSeq } :=
      h.withPin (hf₂.trans hf₁) (hl₂.trans hl₁)
    exact hset.trans (hset.wf.updateLastSeq g)
  · simp only [Option.bind_eq_bind, Option.bind_eq_some_iff] at hstep
    obtain ⟨pin, hhold, hstep⟩ := hstep
    cases hstep
    obtain ⟨hfront, hlen⟩ := pinHold_extent hhold
    exact ⟨h.congr rfl rfl hfront hlen rfl rfl, ⟨rfl, rfl, rfl, rfl, rfl, .refl _, rfl, le_rfl⟩⟩

theorem pinAdd (h : j.Wf) {seq addr : ℕ} {type : JournalPinType}
    (hstep : bch2JournalPinAdd g j seq addr type = some j') : PinStep j j' := by
  unfold bch2JournalPinAdd at hstep
  split_ifs at hstep
  · exact h.pinSet g hstep
  · cases hstep
    exact .refl h

theorem pinUpdate (h : j.Wf) {seq addr : ℕ} {type : JournalPinType}
    (hstep : bch2JournalPinUpdate g j seq addr type = some j') : PinStep j j' := by
  unfold bch2JournalPinUpdate at hstep
  split_ifs at hstep
  · exact h.pinSet g hstep
  · cases hstep
    exact .refl h

theorem replayPinsPut (h : j.Wf) {seq : ℕ}
    (hstep : bch2JournalReplayPinsPut g j seq = some j') : PinStep j j' := by
  unfold bch2JournalReplayPinsPut at hstep
  simp only [Option.bind_eq_bind, Option.bind_eq_some_iff] at hstep
  obtain ⟨lists, hlists, hstep⟩ := hstep
  cases hstep
  have hset : PinStep j { j with pin := { j.pin with lists := lists } } :=
    ⟨h.congr rfl rfl rfl (putReplayed_length hlists) rfl rfl,
      ⟨rfl, rfl, rfl, rfl, rfl, .refl _, rfl, le_rfl⟩⟩
  exact hset.trans (hset.wf.updateLastSeq g)

theorem pinOp (h : j.Wf) {op : PinOp} (hstep : op.run g j = some j') : PinStep j j' := by
  cases op with
  | set seq addr type => exact h.pinSet g hstep
  | add seq addr type => exact h.pinAdd g hstep
  | update seq addr type => exact h.pinUpdate g hstep
  | drop addr => exact h.pinDrop g hstep

end Journal.Wf

theorem markFlushed_extent (pin : JournalPinFifo) (seq addr : ℕ) :
    (markFlushed pin seq addr).front = pin.front ∧
      (markFlushed pin seq addr).lists.length = pin.lists.length := by
  unfold markFlushed
  split_ifs
  · exact ⟨rfl, List.length_modify ..⟩
  · exact ⟨rfl, rfl⟩

namespace Journal.Wf

variable {j j' : Journal} {fn : PinFlushFn}

/-- Steps on pins follow the loops over pins. -/
theorem pinRel : PinRel g fun j j' => j.Wf → PinStep j j' where
  refl _ := .refl
  trans h₁ h₂ h := (h₁ h).trans (h₂ (h₁ h).wf)
  op hop h := h.pinOp g hop
  flushed {j seq addr} _ h := by
    obtain ⟨hfront, hlen⟩ := markFlushed_extent j.pin seq addr
    exact ⟨h.congr rfl rfl hfront hlen rfl rfl, ⟨rfl, rfl, rfl, rfl, rfl, .refl _, rfl, le_rfl⟩⟩
  bookkeeping j _ _ _ _ _ h :=
    ⟨h.congr rfl rfl rfl rfl rfl rfl, ⟨rfl, rfl, rfl, rfl, rfl, .refl _, rfl, le_rfl⟩⟩

/-- `bch2_journal_flush_pins` is a step on pins. -/
theorem bch2JournalFlushPins (h : j.Wf) {fuel seqToFlush : ℕ}
    (hstep : bch2JournalFlushPins g fn fuel seqToFlush j = some j') : PinStep j j' :=
  (pinRel g).bch2JournalFlushPins hstep h

/-- `__bch2_journal_reclaim` is a step on pins. -/
theorem journalReclaim (h : j.Wf) {direct kicked : Bool} {fuel : ℕ}
    (hstep : journalReclaim g fn direct fuel kicked j = some j') : PinStep j j' :=
  (pinRel g).journalReclaim hstep h

end Journal.Wf

end Subvol

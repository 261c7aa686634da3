import Subvol.Journal.Run

/-!
# The boundary of the journal

The boundary `last_seq_ondisk` is the sequence below which the journal is no longer needed. It never
moves back: operations on the journal, flushes and checkpoints leave it or move it on.

## Main definitions

* `BoundaryLe`: the boundary was left or moved on.

## Main results

* `JournalOp.boundaryLe`, `bch2JournalFlush_boundaryLe`, `checkpointLocked_boundaryLe`.
-/

namespace Subvol

open Lib

variable {g : JournalGeometry}

/-- The boundary did not move back. -/
def BoundaryLe (j j' : Journal) : Prop := j.lastSeqOndisk ≤ j'.lastSeqOndisk

namespace BoundaryLe

theorem refl (j : Journal) : BoundaryLe j j := Nat.le_refl _

theorem trans {a b c : Journal} (h : BoundaryLe a b) (h' : BoundaryLe b c) : BoundaryLe a c :=
  Nat.le_trans h h'

end BoundaryLe

/-! ### Pins -/

theorem spaceDiscarded_boundaryLe (j : Journal) :
    BoundaryLe j (bch2JournalDoDiscards (bch2JournalSpaceAvailable g j)) :=
  (bch2JournalSpaceAvailable_frame g j).lastSeqOndisk.ge

theorem updateLastSeq_boundaryLe (j : Journal) : BoundaryLe j (bch2JournalUpdateLastSeq g j) := by
  unfold bch2JournalUpdateLastSeq
  dsimp only
  split_ifs
  · exact spaceDiscarded_boundaryLe { j with
      pin := popPins j.seqOndisk j.pin.front j.pin.lists
      lastSeq := (popPins j.seqOndisk j.pin.front j.pin.lists).front }
  · exact .refl j

theorem updateLastSeqOndisk_boundaryLe (j : Journal) (lastSeqOndisk : ℕ) :
    BoundaryLe j (bch2JournalUpdateLastSeqOndisk g j lastSeqOndisk).2 := by
  unfold bch2JournalUpdateLastSeqOndisk
  split_ifs with hrange hmove
  · exact .refl j
  · exact BoundaryLe.trans (b := { j with lastSeqOndisk := lastSeqOndisk }) hmove.le
      (spaceDiscarded_boundaryLe _)
  · exact .refl j

theorem noteDropped_boundaryLe (j : Journal) (addr : ℕ) (pin : JournalPinFifo) (pins : ℕ → ℕ) :
    BoundaryLe j { noteDropped j addr with pin := pin, pins := pins } := by
  unfold noteDropped
  split_ifs <;> exact Nat.le_refl _

theorem pinSet_boundaryLe {j j' : Journal} {seq addr : ℕ} {type : JournalPinType}
    (h : bch2JournalPinSet g j seq addr type = some j') : BoundaryLe j j' := by
  unfold bch2JournalPinSet at h
  dsimp only at h
  split_ifs at h
  · simp only [Option.bind_eq_bind, Option.bind_eq_some_iff] at h
    obtain ⟨pin₁, -, pin₂, -, h⟩ := h
    cases h
    exact (noteDropped_boundaryLe j addr _ _).trans (updateLastSeq_boundaryLe _)
  · simp only [Option.bind_eq_bind, Option.bind_eq_some_iff] at h
    obtain ⟨pin, -, h⟩ := h
    cases h
    exact .refl j

theorem pinAdd_boundaryLe {j j' : Journal} {seq addr : ℕ} {type : JournalPinType}
    (h : bch2JournalPinAdd g j seq addr type = some j') : BoundaryLe j j' := by
  rw [bch2JournalPinAdd] at h
  split_ifs at h
  · exact pinSet_boundaryLe h
  · cases h
    exact .refl j

theorem pinUpdate_boundaryLe {j j' : Journal} {seq addr : ℕ} {type : JournalPinType}
    (h : bch2JournalPinUpdate g j seq addr type = some j') : BoundaryLe j j' := by
  rw [bch2JournalPinUpdate] at h
  split_ifs at h
  · exact pinSet_boundaryLe h
  · cases h
    exact .refl j

theorem pinDrop_boundaryLe {j j' : Journal} {addr : ℕ} (h : bch2JournalPinDrop g j addr = some j') :
    BoundaryLe j j' := by
  unfold bch2JournalPinDrop at h
  split_ifs at h
  · cases h
    exact .refl j
  · simp only [Option.bind_eq_bind, Option.bind_eq_some_iff] at h
    obtain ⟨pin, -, h⟩ := h
    cases h
    exact (noteDropped_boundaryLe j addr _ _).trans (updateLastSeq_boundaryLe _)

/-- No operation on pins moves the boundary back. -/
theorem boundaryLe_pinRel : PinRel g BoundaryLe where
  refl := .refl
  trans := .trans
  op {j j' op} h := by
    cases op with
    | set seq addr type => exact pinSet_boundaryLe h
    | add seq addr type => exact pinAdd_boundaryLe h
    | update seq addr type => exact pinUpdate_boundaryLe h
    | drop addr => exact pinDrop_boundaryLe h
  flushed _ := Nat.le_refl _
  bookkeeping _ _ _ _ _ _ := Nat.le_refl _

/-! ### Operations, flushes, checkpoints -/

theorem JournalOp.boundaryLe {j j' : Journal} (h : JournalOp g j j') : BoundaryLe j j' := by
  cases h with
  | resGet hres =>
    unfold journalResGetFast at hres
    dsimp only at hres
    split_ifs at hres
    cases hres
    exact Nat.le_refl _
  | resWrite offset ws => exact Nat.le_refl _
  | resPut res hseq => exact Nat.le_refl _
  | pinSet hp => exact pinSet_boundaryLe hp
  | pinAdd hp => exact pinAdd_boundaryLe hp
  | pinUpdate hp => exact pinUpdate_boundaryLe hp
  | pinDrop hp => exact pinDrop_boundaryLe hp
  | replayPinsPut hp =>
    simp only [bch2JournalReplayPinsPut, Option.bind_eq_bind, Option.bind_eq_some_iff] at hp
    obtain ⟨lists, -, hp⟩ := hp
    cases hp
    exact updateLastSeq_boundaryLe { j with pin := { j.pin with lists := lists } }
  | flushPins hp => exact boundaryLe_pinRel.bch2JournalFlushPins hp
  | reclaim hp => exact boundaryLe_pinRel.journalReclaim hp
  | updateLastSeq => exact updateLastSeq_boundaryLe j
  | updateLastSeqOndisk v => exact updateLastSeqOndisk_boundaryLe j v
  | injectWriteError count => exact Nat.le_refl _
  | retainClosed seq => exact Nat.le_refl _

theorem flushPublish_boundaryLe {fn : PinFlushFn} {fuel : ℕ} {j j' : Journal} {r : Jset} {ret : ℤ}
    (h : flushPublish g fn fuel j r = some (ret, j')) : BoundaryLe j j' := by
  unfold flushPublish at h
  dsimp only at h
  split_ifs at h
  · cases h
    exact Nat.le_refl _
  · cases h
    exact Nat.le_refl _
  · simp only [Option.bind_eq_bind, Option.bind_eq_some_iff, Option.some.injEq, Prod.mk.injEq] at h
    obtain ⟨pin, -, j₁, hsettle, -, rfl⟩ := h
    have hopen : BoundaryLe j (openNext { j with closed := j.closed ++ [r] } r pin) :=
      Nat.le_max_left _ _
    exact hopen.trans (boundaryLe_pinRel.flushSettle updateLastSeq_boundaryLe
      spaceDiscarded_boundaryLe (fun _ => Nat.le_refl _) hsettle)

/-- A flush does not move the boundary back. -/
theorem bch2JournalFlush_boundaryLe (io : FlushIo) (fn : PinFlushFn) (fuel : ℕ)
    (roots : List UInt64) (j : Journal) :
    BoundaryLe j (bch2JournalFlush g io fn fuel roots j).journal := by
  have hfinish : ∀ (ret : ℤ) (device : JournalDevice) (writes : List DeviceWrite),
      BoundaryLe j (flushFinish g fn fuel j (flushRecord j roots) ret device writes).journal := by
    intro ret device writes
    unfold flushFinish
    dsimp only
    split_ifs
    · exact Nat.le_refl _
    · cases hpub : flushPublish g fn fuel { j with device := device } (flushRecord j roots) with
      | none => exact Nat.le_refl _
      | some out =>
        obtain ⟨ret', j'⟩ := out
        have hle := flushPublish_boundaryLe hpub
        exact hle
  unfold bch2JournalFlush
  dsimp only
  split_ifs
  · exact .refl j
  · exact .refl j
  · exact Nat.le_refl _
  · exact hfinish _ _ _
  · exact hfinish _ _ _

theorem checkpointReclaim_boundaryLe {fn : PinFlushFn} {fuel sequence : ℕ} {j j' : Journal} {ret : ℤ}
    (h : checkpointReclaim g fn fuel sequence j = some (ret, j')) : BoundaryLe j j' := by
  simp only [checkpointReclaim, Option.bind_eq_bind, Option.bind_eq_some_iff] at h
  obtain ⟨j₁, hpins, h⟩ := h
  have h₁ := boundaryLe_pinRel.bch2JournalFlushPins hpins
  have h₂ := h₁.trans (updateLastSeq_boundaryLe (g := g) j₁)
  have h₃ := h₂.trans
    (updateLastSeqOndisk_boundaryLe (g := g) _ (bch2JournalUpdateLastSeq g j₁).lastSeq)
  split_ifs at h
  · cases h
    exact h₃
  · cases h
    exact h₃

/-- A checkpoint does not move the boundary back. -/
theorem checkpointLocked_boundaryLe (fn : PinFlushFn) (fuel : ℕ) (roots roots' : List UInt64)
    (m : Machine) :
    BoundaryLe m.journal (checkpointLocked g fn fuel roots roots' m).2.journal := by
  unfold checkpointLocked
  have hfirst : BoundaryLe m.journal (if m.journal.reservations.offset ≠ 0 then
      m.flush g fn fuel roots else (some 0, m)).2.journal := by
    split_ifs
    · exact bch2JournalFlush_boundaryLe {} fn fuel roots m.journal
    · exact .refl _
  generalize (if m.journal.reservations.offset ≠ 0 then m.flush g fn fuel roots
    else (some 0, m)) = p at hfirst
  obtain ⟨ret₁, m₁⟩ := p
  dsimp only
  split_ifs
  · exact hfirst
  · exact hfirst
  · split
    · exact hfirst
    · next ret₂ j hrec =>
      have hmid := hfirst.trans (checkpointReclaim_boundaryLe hrec)
      split_ifs
      · exact hmid
      · exact hmid.trans (bch2JournalFlush_boundaryLe {} fn fuel roots' j)

end Subvol

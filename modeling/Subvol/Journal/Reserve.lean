import Mathlib.Logic.Relation
import Subvol.Journal.PinCounts
import Subvol.Journal.ResWord
import Subvol.Lib.Tiling

/-!
# Reservations in the open entry

Holders reserve words of the open entry, add entries there and release what they hold; a flush
closes the entry once nothing is held. The word of the journal is the only record the source keeps
of this: `Grant` is what it stands for, one reservation with the entries added to it so far. The
slow path of `bch2_journal_res_get` is made of flushes, reclaim and new tries, each of them a step
here.

A buffer has `JOURNAL_ENTRY_SIZE_MAX` bytes, but the budget of an entry follows the blocks of a
bucket. `reservations_inside` is about devices whose buckets have no more blocks than a buffer.

## Main definitions

* `JsetEntry`, `bch2JournalAddEntry`.
* `Grant`, `ResMachine`, `ResStep`: the reservations of the open entry and their runs.
* `ResInv`: what the word, the buffer and the reservations have to do with each other.

## Main results

* `ResStep.inv`: one step keeps `ResInv`.
* `reservations_inside`: every run.
-/

namespace Subvol

open Lib

variable {g : JournalGeometry}

/-! ### Entries -/

/-- `jset_entry` with the words behind its header. -/
structure JsetEntry where
  type : Fin 256
  btreeId : Fin 256
  level : Fin 256
  payload : List UInt64
deriving DecidableEq, Repr

namespace JsetEntry

/-- The header word: `u64s` in 16 bits, then `btree_id`, `level` and `type`. -/
def header (e : JsetEntry) : UInt64 :=
  UInt64.ofNat (e.payload.length + e.btreeId.val * 2 ^ 16 + e.level.val * 2 ^ 24 +
    e.type.val * 2 ^ 32)

/-- An entry as it is stored. -/
def words (e : JsetEntry) : List UInt64 := e.header :: e.payload

/-- The entry that fills up what is left of a reservation. -/
def empty : JsetEntry := ⟨0, 0, 0, []⟩

theorem length_words (e : JsetEntry) : e.words.length = e.payload.length + 1 := rfl

theorem replicate_empty (n : ℕ) :
    (List.replicate n empty).flatMap words = List.replicate n 0 := by
  induction n with
  | zero => rfl
  | succ n ih =>
    rw [List.replicate_succ, List.flatMap_cons, ih, List.replicate_succ]
    rfl

end JsetEntry

/-- `bch2_journal_add_entry`, with the payload that the caller copies behind the header: `none` when
the reservation has too few words left. -/
def bch2JournalAddEntry (j : Journal) (res : JournalRes) (e : JsetEntry) :
    Option (Journal × JournalRes) :=
  let actual := e.payload.length + 1
  if actual > res.u64s then none
  else some (journalResWrite j res.seq res.offset e.words,
    { res with offset := res.offset + actual, u64s := res.u64s - actual })

/-! ### The machine -/

/-- A reservation in the open entry: the sequence it is for, where it begins, the words granted, the
entries added, the empty entries behind them and whether it is released. -/
structure Grant where
  seq : ℕ
  start : ℕ
  len : ℕ
  entries : List JsetEntry := []
  padding : ℕ := 0
  released : Bool := false
deriving DecidableEq, Repr

namespace Grant

/-- The words stored under a reservation. -/
def words (a : Grant) : List UInt64 :=
  (a.entries ++ List.replicate a.padding JsetEntry.empty).flatMap JsetEntry.words

/-- The `journal_res` of the holder. -/
def res (a : Grant) : JournalRes := ⟨a.len - a.words.length, a.start + a.words.length, a.seq⟩

/-- The reservation with one more entry. -/
def add (a : Grant) (e : JsetEntry) : Grant := { a with entries := a.entries ++ [e] }

/-- The reservation filled up with empty entries. -/
def release (a : Grant) : Grant :=
  { a with padding := a.len - a.words.length, released := true }

theorem words_add {a : Grant} (h : a.padding = 0) (e : JsetEntry) :
    (a.add e).words = a.words ++ e.words := by
  simp only [words, add, h, List.replicate_zero, List.append_nil, List.flatMap_append,
    List.flatMap_singleton]

theorem words_release {a : Grant} (h : a.padding = 0) :
    a.release.words = a.words ++ List.replicate (a.len - a.words.length) 0 := by
  have hwords : a.words = a.entries.flatMap JsetEntry.words := by
    rw [words, h, List.replicate_zero, List.append_nil]
  rw [words, release, List.flatMap_append, JsetEntry.replicate_empty, hwords]

end Grant

/-- The journal with its reservation word, and the reservations of the open entry. -/
structure ResMachine where
  journal : Journal
  word : BitVec 64
  grants : List Grant

/-- The reservations that are not released. -/
def outstanding (as : List Grant) : ℕ := as.countP fun a => !a.released

/-- The steps of the holders and of the journal. The word is what the source keeps; the fields of
the journal are read from it. -/
inductive ResStep (g : JournalGeometry) : ResMachine → ResMachine → Prop
  | get {m : ResMachine} {u64s flags : ℕ} {v : BitVec 64} {res : JournalRes} (hu : u64s < 2 ^ 16)
      (h : journalResGetFastWord m.journal m.word u64s flags = some (v, res)) :
      ResStep g m
        ⟨{ m.journal with reservations := unpack v }, v,
          m.grants ++ [{ seq := res.seq, start := res.offset, len := u64s }]⟩
  | add {m : ResMachine} {i : ℕ} {a : Grant} {e : JsetEntry} {j : Journal} {res : JournalRes}
      (ha : m.grants[i]? = some a) (hheld : a.released = false)
      (h : bch2JournalAddEntry m.journal a.res e = some (j, res)) :
      ResStep g m ⟨j, m.word, m.grants.set i (a.add e)⟩
  | put {m : ResMachine} {i : ℕ} {a : Grant} {v : BitVec 64}
      (ha : m.grants[i]? = some a) (hheld : a.released = false)
      (h : journalStateDec m.word (a.seq % journalStateBufNr) = some v) :
      ResStep g m
        ⟨{ bch2JournalResPut m.journal a.res with reservations := unpack v }, v,
          m.grants.set i a.release⟩
  | flush {m : ResMachine} (io : FlushIo) (fn : PinFlushFn) (fuel : ℕ) (roots : List UInt64)
      {v : BitVec 64} (hret : (bch2JournalFlush g io fn fuel roots m.journal).ret = some 0)
      (h : journalStateSwitch m.word ((m.journal.seq + 1) % journalStateBufNr) = some v) :
      ResStep g m
        ⟨{ (bch2JournalFlush g io fn fuel roots m.journal).journal with reservations := unpack v }, v,
          []⟩
  | flushFailed {m : ResMachine} (io : FlushIo) (fn : PinFlushFn) (fuel : ℕ) (roots : List UInt64)
      {ret : ℤ} (hret : (bch2JournalFlush g io fn fuel roots m.journal).ret = some ret)
      (hne : ret ≠ 0) :
      ResStep g m ⟨(bch2JournalFlush g io fn fuel roots m.journal).journal, m.word, m.grants⟩
  | pin {m : ResMachine} {op : PinOp} {j : Journal} (h : op.run g m.journal = some j) :
      ResStep g m ⟨j, m.word, m.grants⟩
  | flushPins {m : ResMachine} {fn : PinFlushFn} {fuel seqToFlush : ℕ} {j : Journal}
      (h : bch2JournalFlushPins g fn fuel seqToFlush m.journal = some j) :
      ResStep g m ⟨j, m.word, m.grants⟩
  | reclaim {m : ResMachine} {fn : PinFlushFn} {fuel : ℕ} {direct kicked : Bool} {j : Journal}
      (h : journalReclaim g fn direct fuel kicked m.journal = some j) :
      ResStep g m ⟨j, m.word, m.grants⟩
  | updateLastSeq (m : ResMachine) :
      ResStep g m ⟨bch2JournalUpdateLastSeq g m.journal, m.word, m.grants⟩
  | updateLastSeqOndisk (m : ResMachine) (lastSeqOndisk : ℕ) :
      ResStep g m
        ⟨(bch2JournalUpdateLastSeqOndisk g m.journal lastSeqOndisk).2, m.word, m.grants⟩

/-- The runs of the machine. -/
abbrev ResRun (g : JournalGeometry) : ResMachine → ResMachine → Prop :=
  Relation.ReflTransGen (ResStep g)

/-! ### The budget of an entry -/

/-- `JOURNAL_ENTRY_SIZE_MAX`, in words: the size of a buffer. -/
def journalBufU64s : ℕ := journalEntrySizeMax / 8

/-- The sectors of a bucket that whole blocks take. -/
def JournalGeometry.alignedBucket (g : JournalGeometry) : ℕ :=
  g.bucketSize / g.blockSectors * g.blockSectors

/-- The largest budget an entry is opened with. -/
def entryBudgetMax (g : JournalGeometry) : ℕ :=
  max (journalBufU64s - jsetHeaderU64s) (journalEntryU64sForSectors g.alignedBucket)

theorem entryBudgetMax_le (g : JournalGeometry) : entryBudgetMax g ≤ journalEntryOffsetMax :=
  max_le (by decide) (min_le_right _ _)

theorem entryBudgetMax_le_buf (h : g.alignedBucket ≤ 2048) : entryBudgetMax g ≤ journalBufU64s := by
  refine max_le (by decide) ((min_le_left _ _).trans ?_)
  rw [journalBufU64s, journalEntrySizeMax, jsetHeaderU64s]
  omega

/-- The free sectors, the sectors for the next entry and the budget follow the bucket size. -/
structure Journal.BudgetOk (g : JournalGeometry) (j : Journal) : Prop where
  free : j.device.sectorsFree ≤ g.bucketSize
  sectors : j.curEntrySectors ≤ g.alignedBucket
  budget : j.curEntryU64s ≤ entryBudgetMax g

/-- Two journals with the same open entry and the same records. -/
structure ResFrame (g : JournalGeometry) (j j' : Journal) : Prop where
  reservations : j'.reservations = j.reservations
  ring : j'.ring = j.ring
  seq : j'.seq = j.seq
  closed : j'.closed = j.closed
  budget : j.BudgetOk g → j'.BudgetOk g

theorem ResFrame.refl (j : Journal) : ResFrame g j j := ⟨rfl, rfl, rfl, rfl, id⟩

theorem ResFrame.trans {a b c : Journal} (h₁ : ResFrame g a b) (h₂ : ResFrame g b c) :
    ResFrame g a c where
  reservations := h₂.reservations.trans h₁.reservations
  ring := h₂.ring.trans h₁.ring
  seq := h₂.seq.trans h₁.seq
  closed := h₂.closed.trans h₁.closed
  budget h := h₂.budget (h₁.budget h)

theorem journalSpaceOf_le {ja : JournalDevice} {bucketSize blockSectors : ℕ}
    (h : ja.sectorsFree ≤ bucketSize) (kind : JournalSpaceFrom) :
    (journalSpaceOf ja bucketSize blockSectors kind).nextEntry ≤
      bucketSize / blockSectors * blockSectors := by
  rw [journalSpaceOf]
  split_ifs
  · exact le_rfl
  · exact Nat.mul_le_mul_right _ (Nat.div_le_div_right h)

theorem journalSpacesOf_le {ja : JournalDevice} {bucketSize blockSectors : ℕ}
    (h : ja.sectorsFree ≤ bucketSize) :
    (journalSpacesOf ja bucketSize blockSectors).discarded.nextEntry ≤
      bucketSize / blockSectors * blockSectors := by
  rw [journalSpacesOf]
  split_ifs
  · exact Nat.zero_le _
  · exact journalSpaceOf_le h _

theorem spaceAvailable_resFrame (j : Journal) : ResFrame g j (bch2JournalSpaceAvailable g j) := by
  have hf := bch2JournalSpaceAvailable_frame g j
  have hcur : (bch2JournalSpaceAvailable g j).curEntryU64s = j.curEntryU64s := by
    unfold bch2JournalSpaceAvailable
    split_ifs <;> rfl
  refine ⟨hf.reservations, hf.ring, hf.seq, hf.closed, fun h => ?_⟩
  refine ⟨hf.device.sectorsFree.trans_le h.free, ?_, hcur.trans_le h.budget⟩
  have hfree : (advanceDirty j.device j.lastSeq j.lastSeqOndisk).sectorsFree ≤ g.bucketSize := h.free
  unfold bch2JournalSpaceAvailable
  split_ifs with hnr hattached
  · exact Nat.zero_le _
  · exact journalSpacesOf_le hfree
  · exact Nat.zero_le _

theorem doDiscards_resFrame (j : Journal) : ResFrame g j (bch2JournalDoDiscards j) :=
  ⟨rfl, rfl, rfl, rfl, fun h => ⟨h.free, h.sectors, h.budget⟩⟩

theorem spaceDiscarded_resFrame (j : Journal) :
    ResFrame g j (bch2JournalDoDiscards (bch2JournalSpaceAvailable g j)) :=
  (spaceAvailable_resFrame j).trans (doDiscards_resFrame _)

theorem updateLastSeq_resFrame (j : Journal) : ResFrame g j (bch2JournalUpdateLastSeq g j) := by
  have hmid : ResFrame g j { j with
      pin := popPins j.seqOndisk j.pin.front j.pin.lists
      lastSeq := (popPins j.seqOndisk j.pin.front j.pin.lists).front } :=
    ⟨rfl, rfl, rfl, rfl, fun h => ⟨h.free, h.sectors, h.budget⟩⟩
  unfold bch2JournalUpdateLastSeq
  dsimp only
  split_ifs
  · exact hmid.trans (spaceDiscarded_resFrame _)
  · exact hmid

theorem updateLastSeqOndisk_resFrame (j : Journal) (lastSeqOndisk : ℕ) :
    ResFrame g j (bch2JournalUpdateLastSeqOndisk g j lastSeqOndisk).2 := by
  unfold bch2JournalUpdateLastSeqOndisk
  split_ifs
  · exact .refl j
  · have hmid : ResFrame g j { j with lastSeqOndisk := lastSeqOndisk } :=
      ⟨rfl, rfl, rfl, rfl, fun h => ⟨h.free, h.sectors, h.budget⟩⟩
    exact hmid.trans (spaceDiscarded_resFrame _)
  · exact .refl j

theorem noteDropped_resFrame (j : Journal) (addr : ℕ) (pin : JournalPinFifo) (pins : ℕ → ℕ) :
    ResFrame g j { noteDropped j addr with pin := pin, pins := pins } := by
  unfold noteDropped
  split_ifs <;> exact ⟨rfl, rfl, rfl, rfl, fun h => ⟨h.free, h.sectors, h.budget⟩⟩

theorem pinSet_resFrame {j j' : Journal} {seq addr : ℕ} {type : JournalPinType}
    (h : bch2JournalPinSet g j seq addr type = some j') : ResFrame g j j' := by
  unfold bch2JournalPinSet at h
  dsimp only at h
  split_ifs at h
  · simp only [Option.bind_eq_bind, Option.bind_eq_some_iff] at h
    obtain ⟨pin₁, -, pin₂, -, h⟩ := h
    cases h
    exact (noteDropped_resFrame j addr _ _).trans (updateLastSeq_resFrame _)
  · simp only [Option.bind_eq_bind, Option.bind_eq_some_iff] at h
    obtain ⟨pin, -, h⟩ := h
    cases h
    exact ⟨rfl, rfl, rfl, rfl, fun h => ⟨h.free, h.sectors, h.budget⟩⟩

theorem pinDrop_resFrame {j j' : Journal} {addr : ℕ} (h : bch2JournalPinDrop g j addr = some j') :
    ResFrame g j j' := by
  unfold bch2JournalPinDrop at h
  split_ifs at h
  · cases h
    exact .refl j
  · simp only [Option.bind_eq_bind, Option.bind_eq_some_iff] at h
    obtain ⟨pin, -, h⟩ := h
    cases h
    exact (noteDropped_resFrame j addr _ _).trans (updateLastSeq_resFrame _)

/-- No operation on pins touches the open entry. -/
theorem resFrame_pinRel : PinRel g (ResFrame g) where
  refl := .refl
  trans := .trans
  op {j j' op} h := by
    cases op with
    | set seq addr type => exact pinSet_resFrame h
    | add seq addr type =>
      rw [PinOp.run, bch2JournalPinAdd] at h
      split_ifs at h
      · exact pinSet_resFrame h
      · cases h
        exact .refl j
    | update seq addr type =>
      rw [PinOp.run, bch2JournalPinUpdate] at h
      split_ifs at h
      · exact pinSet_resFrame h
      · cases h
        exact .refl j
    | drop addr => exact pinDrop_resFrame h
  flushed _ := ⟨rfl, rfl, rfl, rfl, fun h => ⟨h.free, h.sectors, h.budget⟩⟩
  bookkeeping _ _ _ _ _ _ :=
    ⟨rfl, rfl, rfl, rfl, fun h => ⟨h.free, h.sectors, h.budget⟩⟩

/-! ### The flush -/

theorem journalWriteRecord_free {io : FlushIo} {r : Jset} {ja : JournalDevice}
    (h : ja.sectorsFree ≤ g.bucketSize) (advanced : Bool) :
    (journalWriteRecord g io r ja advanced).2.1.sectorsFree ≤ g.bucketSize := by
  have hwritten : (recordWritten g ja r).sectorsFree ≤ g.bucketSize := (Nat.sub_le _ _).trans h
  unfold journalWriteRecord
  dsimp only
  split_ifs <;> first | exact h | exact hwritten

theorem journalWriteDevice_free {io : FlushIo} {r : Jset} {ja : JournalDevice}
    (h : ja.sectorsFree ≤ g.bucketSize) :
    (journalWriteDevice g io r ja).2.1.sectorsFree ≤ g.bucketSize := by
  have hcase := journalWriteDevice_cases g io r ja
  revert hcase
  generalize journalWriteDevice g io r ja = out
  intro hcase
  cases hcase with
  | refused => exact h
  | behind => exact journalWriteRecord_free h false
  | entered =>
    have hadvanced : (advanceBucket g ja r.seq).sectorsFree ≤ g.bucketSize := le_rfl
    exact journalWriteRecord_free hadvanced true

theorem entryBudget_le {sectors : ℕ} (h : sectors ≤ g.alignedBucket) :
    journalEntryU64sForSectors sectors ≤ entryBudgetMax g := by
  refine le_trans ?_ (le_max_right _ _)
  rw [journalEntryU64sForSectors, journalEntryU64sForSectors]
  omega

/-- The end of a flush leaves the entry it has opened alone. -/
theorem flushSettle_resFrame {fn : PinFlushFn} {fuel : ℕ} {j j' : Journal}
    (h : flushSettle g fn fuel j = some j') : ResFrame g j j' :=
  resFrame_pinRel.flushSettle updateLastSeq_resFrame spaceDiscarded_resFrame
    (fun _ => ⟨rfl, rfl, rfl, rfl, fun h => ⟨h.free, h.sectors, entryBudget_le h.sectors⟩⟩) h

/-- What a flush does with the open entry. -/
inductive FlushResCase (g : JournalGeometry) (j : Journal) (roots : List UInt64) :
    ℤ → Journal → Prop
  | kept {ret : ℤ} {j' : Journal} (hret : ret ≠ 0) (hres : j'.reservations = j.reservations)
      (hring : j'.ring = j.ring) (hseq : j'.seq = j.seq) (hbudget : j'.BudgetOk g) :
      FlushResCase g j roots ret j'
  | closed {j' : Journal} (hone : j.reservations.count j.reservations.idx = 1)
      (hroom : j.seq < journalSeqMax)
      (hnext : j.reservations.count ((j.seq + 1) % journalStateBufNr) = 0)
      (hring : j'.ring = Function.update j.ring ((j.seq + 1) % journalStateBufNr)
        { seq := j.seq + 1 })
      (hseq : j'.seq = j.seq + 1) (hclosed : j'.closed = j.closed ++ [flushRecord j roots])
      (hbudget : j'.BudgetOk g) : FlushResCase g j roots 0 j'

theorem flushPublish_resCase {fn : PinFlushFn} {fuel : ℕ} {j j' : Journal} {roots : List UInt64}
    {device : JournalDevice} {ret : ℤ} (hone : j.reservations.count j.reservations.idx = 1)
    (hb : j.BudgetOk g) (hfree : device.sectorsFree ≤ g.bucketSize)
    (h : flushPublish g fn fuel { j with device := device } (flushRecord j roots) =
      some (ret, j')) :
    FlushResCase g j roots ret j' := by
  unfold flushPublish at h
  dsimp only at h
  split_ifs at h with hmax hcount
  · cases h
    exact .kept (by decide) rfl rfl rfl ⟨hfree, hb.sectors, hb.budget⟩
  · cases h
    exact .kept (by decide) rfl rfl rfl ⟨hfree, hb.sectors, hb.budget⟩
  · simp only [Option.bind_eq_bind, Option.bind_eq_some_iff, Option.some.injEq,
      Prod.mk.injEq] at h
    obtain ⟨pin, -, j₁, hsettle, rfl, rfl⟩ := h
    have hf := flushSettle_resFrame hsettle
    exact .closed hone (by omega) (not_not.mp hcount) hf.ring hf.seq hf.closed
      (hf.budget ⟨hfree, hb.sectors, hb.budget⟩)

theorem flushFinish_resCase {fn : PinFlushFn} {fuel : ℕ} {j : Journal} {roots : List UInt64}
    {device : JournalDevice} {writes : List DeviceWrite} {ret₀ ret : ℤ}
    (hone : j.reservations.count j.reservations.idx = 1)
    (hb : j.BudgetOk g) (hfree : device.sectorsFree ≤ g.bucketSize)
    (h : (flushFinish g fn fuel j (flushRecord j roots) ret₀ device writes).ret = some ret) :
    FlushResCase g j roots ret
      (flushFinish g fn fuel j (flushRecord j roots) ret₀ device writes).journal := by
  unfold flushFinish at h ⊢
  dsimp only at h ⊢
  split_ifs at h ⊢ with hret
  · cases h
    exact .kept hret rfl rfl rfl ⟨hfree, hb.sectors, hb.budget⟩
  · cases hpub : flushPublish g fn fuel { j with device := device } (flushRecord j roots) with
    | none =>
      rw [hpub] at h
      cases h
    | some x =>
      rw [hpub] at h
      cases h
      exact flushPublish_resCase hone hb hfree hpub

theorem bch2JournalFlush_resCase {io : FlushIo} {fn : PinFlushFn} {fuel : ℕ} {roots : List UInt64}
    {j : Journal} {ret : ℤ} (hb : j.BudgetOk g)
    (h : (bch2JournalFlush g io fn fuel roots j).ret = some ret) :
    FlushResCase g j roots ret (bch2JournalFlush g io fn fuel roots j).journal := by
  unfold bch2JournalFlush at h ⊢
  dsimp only at h ⊢
  split_ifs at h ⊢ with hone hseq hfault hattached
  · cases h
    exact .kept (by decide) rfl rfl rfl hb
  · cases h
    exact .kept (by decide) rfl rfl rfl ⟨hb.free, hb.sectors, hb.budget⟩
  · exact flushFinish_resCase (not_not.mp hone) hb (journalWriteDevice_free hb.free) h
  · exact flushFinish_resCase (not_not.mp hone) hb hb.free h

/-! ### The reservations and the buffer -/

/-- The reservations of an entry, and the words of its buffer. -/
structure GrantsOk (data : Image UInt64) (as : List Grant) : Prop where
  tiled : Tiled Grant.start Grant.len 0 as
  fits : ∀ a ∈ as, a.words.length ≤ a.len
  held : ∀ a ∈ as, a.released = false → a.padding = 0
  full : ∀ a ∈ as, a.released = true → a.words.length = a.len
  stored : ∀ a ∈ as, data.readAt a.start a.words.length = a.words

namespace GrantsOk

variable {data : Image UInt64} {as : List Grant} {i : ℕ} {a : Grant}

theorem nil (data : Image UInt64) : GrantsOk data [] where
  tiled := trivial
  fits := by simp
  held := by simp
  full := by simp
  stored := by simp

theorem get (h : GrantsOk data as) (seq len : ℕ) :
    GrantsOk data (as ++ [{ seq := seq, start := (as.map Grant.len).sum, len := len }]) := by
  refine ⟨h.tiled.append (Nat.zero_add _).symm, ?_, ?_, ?_, ?_⟩ <;> intro b hb
  · rcases List.mem_append.mp hb with hb | hb
    · exact h.fits b hb
    · rw [List.mem_singleton.mp hb]
      exact Nat.zero_le _
  · rcases List.mem_append.mp hb with hb | hb
    · exact h.held b hb
    · rw [List.mem_singleton.mp hb]
      exact fun _ => rfl
  · rcases List.mem_append.mp hb with hb | hb
    · exact h.full b hb
    · rw [List.mem_singleton.mp hb]
      intro hreleased
      cases hreleased
  · rcases List.mem_append.mp hb with hb | hb
    · exact h.stored b hb
    · rw [List.mem_singleton.mp hb]
      rfl

/-- A reservation of another place ends before this one starts or starts behind it. -/
theorem apart (h : GrantsOk data as) (ha : as[i]? = some a) {k : ℕ} {b : Grant}
    (hb : as[k]? = some b) (hne : k ≠ i) :
    b.start + b.len ≤ a.start ∨ a.start + a.len ≤ b.start := by
  obtain ⟨hi, rfl⟩ := List.getElem?_eq_some_iff.mp ha
  obtain ⟨hk, rfl⟩ := List.getElem?_eq_some_iff.mp hb
  have hpair := List.pairwise_iff_getElem.mp h.tiled.disjoint
  rcases Nat.lt_or_gt_of_ne hne with hlt | hgt
  · exact .inl (hpair k i hk hi hlt)
  · exact .inr (hpair i k hi hk hgt)

/-- Words stored behind those of one reservation, inside what it was granted. -/
theorem write (h : GrantsOk data as) (ha : as[i]? = some a) {a' : Grant} {ws : List UInt64}
    (hstart : a'.start = a.start) (hlen : a'.len = a.len) (hwords : a'.words = a.words ++ ws)
    (hfit : a.words.length + ws.length ≤ a.len) (hheld : a'.released = false → a'.padding = 0)
    (hfull : a'.released = true → a'.words.length = a'.len) :
    GrantsOk (data.writeAt (a.start + a.words.length) ws) (as.set i a') := by
  have hlength : a'.words.length = a.words.length + ws.length := by
    rw [hwords, List.length_append]
  refine ⟨h.tiled.set ha hstart hlen, ?_, ?_, ?_, ?_⟩ <;> intro b hb
  · rcases List.mem_or_eq_of_mem_set hb with hb | rfl
    · exact h.fits b hb
    · rw [hlength, hlen]
      exact hfit
  · rcases List.mem_or_eq_of_mem_set hb with hb | rfl
    · exact h.held b hb
    · exact hheld
  · rcases List.mem_or_eq_of_mem_set hb with hb | rfl
    · exact h.full b hb
    · exact hfull
  · obtain ⟨k, hk⟩ := List.mem_iff_getElem?.mp hb
    rw [List.getElem?_set] at hk
    split_ifs at hk with hik hbound
    · cases hk
      rw [hlength, hstart, hwords]
      exact Image.readAt_writeAt_append data (h.stored a (List.mem_of_getElem? ha))
    · have hmem := List.mem_of_getElem? hk
      have hfits := h.fits b hmem
      have hdisjoint : a.start + a.words.length + ws.length ≤ b.start ∨
          b.start + b.words.length ≤ a.start + a.words.length := by
        have := h.apart ha hk (Ne.symm hik)
        omega
      rw [Image.readAt_writeAt_disjoint data ws hdisjoint]
      exact h.stored b hmem

/-- Once everything is released the buffer holds the words of the reservations one after another. -/
theorem payload (h : GrantsOk data as) (hreleased : ∀ a ∈ as, a.released = true) :
    data.readAt 0 (as.map Grant.len).sum = as.flatMap Grant.words := by
  refine h.tiled.readAt_flatMap data fun a ha => ?_
  rw [← h.full a ha (hreleased a ha)]
  exact h.stored a ha

end GrantsOk

theorem map_len_set {as : List Grant} {i : ℕ} {a a' : Grant} (ha : as[i]? = some a)
    (hlen : a'.len = a.len) : (as.set i a').map Grant.len = as.map Grant.len := by
  obtain ⟨hi, rfl⟩ := List.getElem?_eq_some_iff.mp ha
  have hmap : i < (as.map Grant.len).length := by rwa [List.length_map]
  rw [List.map_set, hlen, ← List.getElem_map Grant.len (h := hmap), List.set_getElem_self]

theorem outstanding_set {as : List Grant} {i : ℕ} {a a' : Grant} (ha : as[i]? = some a)
    (hrel : a'.released = a.released) : outstanding (as.set i a') = outstanding as := by
  obtain ⟨hi, rfl⟩ := List.getElem?_eq_some_iff.mp ha
  have hpos : (!as[i].released) = true → 0 < outstanding as :=
    fun h => List.countP_pos_iff.mpr ⟨as[i], List.getElem_mem hi, h⟩
  rw [outstanding, List.countP_set hi, hrel]
  change outstanding as - _ + _ = outstanding as
  split_ifs with hout
  · exact Nat.sub_add_cancel (hpos hout)
  · rfl

theorem outstanding_release {as : List Grant} {i : ℕ} {a : Grant} (ha : as[i]? = some a)
    (hheld : a.released = false) : outstanding (as.set i a.release) + 1 = outstanding as := by
  obtain ⟨hi, rfl⟩ := List.getElem?_eq_some_iff.mp ha
  have hout : (!as[i].released) = true := by rw [hheld, Bool.not_false]
  have hpos : 0 < outstanding as := List.countP_pos_iff.mpr ⟨as[i], List.getElem_mem hi, hout⟩
  rw [outstanding, List.countP_set hi, if_pos hout]
  change outstanding as - 1 + 0 + 1 = outstanding as
  omega

/-! ### The invariant -/

/-- What the word, the buffer of the open entry and its reservations have to do with each other. -/
structure ResInv (g : JournalGeometry) (m : ResMachine) : Prop where
  res : m.journal.reservations = unpack m.word
  budget : m.journal.BudgetOk g
  ring : (m.journal.ring (m.journal.seq % journalStateBufNr)).seq = m.journal.seq
  idx : journalStateIdx m.word = m.journal.seq % journalStateBufNr
  offset : journalStateOffset m.word = (m.grants.map Grant.len).sum
  inside : journalStateOffset m.word ≤ entryBudgetMax g
  count : ∀ i < journalStateBufNr, journalStateCount m.word i =
    if i = m.journal.seq % journalStateBufNr then 1 + outstanding m.grants else 0
  seq : ∀ a ∈ m.grants, a.seq = m.journal.seq
  grants : GrantsOk (m.journal.ring (m.journal.seq % journalStateBufNr)).data m.grants

theorem unpack_count {v : BitVec 64} {i : ℕ} (hi : i < journalStateBufNr) :
    (unpack v).count i = journalStateCount v i :=
  if_pos hi

theorem seq_mod_lt (n : ℕ) : n % journalStateBufNr < journalStateBufNr := Nat.mod_lt n (by decide)

/-- What a reservation does with the word. -/
theorem journalResGetFastWord_spec {j : Journal} {w v : BitVec 64} {u64s flags : ℕ} {res : JournalRes}
    (hbudget : j.curEntryU64s ≤ journalEntryOffsetMax)
    (h : journalResGetFastWord j w u64s flags = some (v, res)) :
    journalStateOffset w + u64s ≤ j.curEntryU64s ∧
      res = ⟨u64s, journalStateOffset w,
        j.seq - (j.seq - journalStateIdx w) % journalStateBufNr⟩ ∧
      unpack v = { unpack w with
        offset := journalStateOffset w + u64s
        count := Function.update (unpack w).count (journalStateIdx w)
          ((unpack w).count (journalStateIdx w) + 1) } := by
  unfold journalResGetFastWord at h
  dsimp only at h
  split_ifs at h with hfits hzero hmark hring
  · obtain ⟨new, -, h⟩ := Option.bind_eq_some_iff.mp h
    cases h
  obtain ⟨new, hinc, h⟩ := Option.bind_eq_some_iff.mp h
  cases h
  refine ⟨Nat.not_lt.mp hfits, rfl, ?_⟩
  rw [unpack_setOffset (by omega), unpack_inc (journalStateIdx_lt w) hinc]

namespace ResInv

variable {m : ResMachine}

/-- A step that leaves the open entry alone. -/
theorem frame (h : ResInv g m) {j : Journal} (hres : j.reservations = m.journal.reservations)
    (hring : j.ring = m.journal.ring) (hseq : j.seq = m.journal.seq) (hbudget : j.BudgetOk g) :
    ResInv g ⟨j, m.word, m.grants⟩ where
  res := hres.trans h.res
  budget := hbudget
  ring := by
    rw [hring, hseq]
    exact h.ring
  idx := by
    rw [hseq]
    exact h.idx
  offset := h.offset
  inside := h.inside
  count := by
    rw [hseq]
    exact h.count
  seq := by
    rw [hseq]
    exact h.seq
  grants := by
    rw [hring, hseq]
    exact h.grants

theorem resFrame (h : ResInv g m) {j : Journal} (hf : ResFrame g m.journal j) :
    ResInv g ⟨j, m.word, m.grants⟩ :=
  h.frame hf.reservations hf.ring hf.seq (hf.budget h.budget)

theorem get (h : ResInv g m) {u64s flags : ℕ} {v : BitVec 64} {res : JournalRes}
    (hget : journalResGetFastWord m.journal m.word u64s flags = some (v, res)) :
    ResInv g ⟨{ m.journal with reservations := unpack v }, v,
      m.grants ++ [{ seq := res.seq, start := res.offset, len := u64s }]⟩ := by
  obtain ⟨hfits, rfl, hv⟩ :=
    journalResGetFastWord_spec (h.budget.budget.trans (entryBudgetMax_le g)) hget
  have hseq : m.journal.seq - (m.journal.seq - journalStateIdx m.word) % journalStateBufNr =
      m.journal.seq := by
    rw [h.idx, journalStateBufNr]
    omega
  have hoffset : journalStateOffset v = journalStateOffset m.word + u64s :=
    congrArg JournalReservations.offset hv
  refine ⟨rfl, ⟨h.budget.free, h.budget.sectors, h.budget.budget⟩, h.ring, ?_, ?_, ?_, ?_, ?_, ?_⟩
  · exact (congrArg JournalReservations.idx hv).trans h.idx
  · dsimp only
    rw [hoffset, h.offset, List.map_append, List.sum_append, List.map_singleton, List.sum_singleton]
  · rw [hoffset]
    exact hfits.trans h.budget.budget
  · intro i hi
    have hout : outstanding (m.grants ++ [{
        seq := m.journal.seq - (m.journal.seq - journalStateIdx m.word) % journalStateBufNr
        start := journalStateOffset m.word
        len := u64s }]) = outstanding m.grants + 1 := by
      rw [outstanding, List.countP_append]
      rfl
    dsimp only
    rw [← unpack_count hi, hv, hout]
    dsimp only
    rw [h.idx]
    by_cases heq : i = m.journal.seq % journalStateBufNr
    · rw [heq, Function.update_self, unpack_count (seq_mod_lt _), h.count _ (seq_mod_lt _), if_pos rfl,
        if_pos rfl, Nat.add_assoc]
    · rw [Function.update_of_ne heq, unpack_count hi, h.count i hi, if_neg heq, if_neg heq]
  · intro a ha
    rcases List.mem_append.mp ha with ha | ha
    · exact h.seq a ha
    · rw [List.mem_singleton.mp ha]
      exact hseq
  · dsimp only
    rw [h.offset]
    exact h.grants.get _ u64s

theorem journalResWrite_ring (j : Journal) (offset : ℕ) (ws : List UInt64) :
    (journalResWrite j j.seq offset ws).ring (j.seq % journalStateBufNr) =
      ⟨(j.ring (j.seq % journalStateBufNr)).data.writeAt offset ws,
        (j.ring (j.seq % journalStateBufNr)).seq⟩ := by
  rw [journalResWrite]
  dsimp only
  rw [Function.update_self]

/-- Words stored under a reservation, with a word and a journal that count what is outstanding
afterwards. -/
theorem store (h : ResInv g m) {i : ℕ} {a a' : Grant} {ws : List UInt64} {j : Journal}
    {v : BitVec 64} (ha : m.grants[i]? = some a) (hres : j.reservations = unpack v)
    (hbudget : j.BudgetOk g) (hjseq : j.seq = m.journal.seq)
    (hring : j.ring = (journalResWrite m.journal a.seq (a.start + a.words.length) ws).ring)
    (hidx : journalStateIdx v = journalStateIdx m.word)
    (hoffset : journalStateOffset v = journalStateOffset m.word)
    (hcount : ∀ k < journalStateBufNr, journalStateCount v k =
      if k = m.journal.seq % journalStateBufNr then 1 + outstanding (m.grants.set i a') else 0)
    (hseq : a'.seq = a.seq) (hstart : a'.start = a.start) (hlen : a'.len = a.len)
    (hwords : a'.words = a.words ++ ws) (hfit : a.words.length + ws.length ≤ a.len)
    (hheld : a'.released = false → a'.padding = 0)
    (hfull : a'.released = true → a'.words.length = a'.len) :
    ResInv g ⟨j, v, m.grants.set i a'⟩ := by
  have haseq := h.seq a (List.mem_of_getElem? ha)
  rw [haseq] at hring
  refine ⟨hres, hbudget, ?_, ?_, ?_, ?_, ?_, ?_, ?_⟩ <;> dsimp only
  · rw [hring, hjseq, journalResWrite_ring]
    exact h.ring
  · rw [hidx, hjseq]
    exact h.idx
  · rw [hoffset, h.offset, map_len_set ha hlen]
  · rw [hoffset]
    exact h.inside
  · rw [hjseq]
    exact hcount
  · intro b hb
    rw [hjseq]
    rcases List.mem_or_eq_of_mem_set hb with hb | rfl
    · exact h.seq b hb
    · exact hseq.trans haseq
  · rw [hring, hjseq, journalResWrite_ring]
    exact h.grants.write ha hstart hlen hwords hfit hheld hfull

theorem add (h : ResInv g m) {i : ℕ} {a : Grant} {e : JsetEntry} {j : Journal} {res : JournalRes}
    (ha : m.grants[i]? = some a) (hheld : a.released = false)
    (hadd : bch2JournalAddEntry m.journal a.res e = some (j, res)) :
    ResInv g ⟨j, m.word, m.grants.set i (a.add e)⟩ := by
  have hmem := List.mem_of_getElem? ha
  have hpad := h.grants.held a hmem hheld
  unfold bch2JournalAddEntry at hadd
  dsimp only at hadd
  split_ifs at hadd with hroom
  cases hadd
  have hfit : a.words.length + e.words.length ≤ a.len := by
    have hleft : ¬e.payload.length + 1 > a.len - a.words.length := hroom
    rw [JsetEntry.length_words]
    omega
  have hout : outstanding (m.grants.set i (a.add e)) = outstanding m.grants := outstanding_set ha rfl
  refine h.store ha h.res ⟨h.budget.free, h.budget.sectors, h.budget.budget⟩ rfl rfl rfl rfl ?_ rfl
    rfl rfl (Grant.words_add hpad e) hfit (fun _ => hpad) ?_
  · rw [hout]
    exact h.count
  · intro hrel
    have hrel' : a.released = true := hrel
    rw [hheld] at hrel'
    cases hrel'

theorem put (h : ResInv g m) {i : ℕ} {a : Grant} {v : BitVec 64} (ha : m.grants[i]? = some a)
    (hheld : a.released = false)
    (hdec : journalStateDec m.word (a.seq % journalStateBufNr) = some v) :
    ResInv g ⟨{ bch2JournalResPut m.journal a.res with reservations := unpack v }, v,
      m.grants.set i a.release⟩ := by
  have hmem := List.mem_of_getElem? ha
  have hpad := h.grants.held a hmem hheld
  have hfits := h.grants.fits a hmem
  have hv := unpack_dec hdec (seq_mod_lt _)
  rw [h.seq a hmem] at hv
  have hwords := Grant.words_release hpad
  have hlength : a.release.words.length = a.len := by
    rw [hwords, List.length_append, List.length_replicate]
    omega
  refine h.store ha rfl ⟨h.budget.free, h.budget.sectors, h.budget.budget⟩ rfl rfl
    (congrArg JournalReservations.idx hv) (congrArg JournalReservations.offset hv) ?_ rfl rfl rfl
    hwords ?_ ?_ fun _ => hlength
  · intro k hk
    have hout := outstanding_release ha hheld
    rw [← unpack_count hk, hv]
    dsimp only
    by_cases heq : k = m.journal.seq % journalStateBufNr
    · rw [heq, Function.update_self, unpack_count (seq_mod_lt _), h.count _ (seq_mod_lt _),
        if_pos rfl, if_pos rfl]
      omega
    · rw [Function.update_of_ne heq, unpack_count hk, h.count k hk, if_neg heq, if_neg heq]
  · rw [List.length_replicate]
    exact (Nat.add_sub_cancel' hfits).le
  · intro hrel
    cases hrel

/-- The entry a flush closes has nothing outstanding. -/
theorem released (h : ResInv g m)
    (hone : m.journal.reservations.count m.journal.reservations.idx = 1) :
    ∀ a ∈ m.grants, a.released = true := by
  have hidx : m.journal.reservations.idx = m.journal.seq % journalStateBufNr := by
    rw [h.res]
    exact h.idx
  rw [hidx, h.res, unpack_count (seq_mod_lt _), h.count _ (seq_mod_lt _), if_pos rfl] at hone
  have hout : outstanding m.grants = 0 := by omega
  intro a ha
  have hnot := List.countP_eq_zero.mp hout a ha
  simpa using hnot

/-- The record of a flush has the entries added, one reservation after the other. -/
theorem flushRecord_payload (h : ResInv g m)
    (hone : m.journal.reservations.count m.journal.reservations.idx = 1) (roots : List UInt64) :
    (flushRecord m.journal roots).payload =
      m.grants.flatMap Grant.words ++ if m.journal.attached then roots else [] := by
  have hdata : (m.journal.ring m.journal.reservations.idx).data.readAt 0
      m.journal.reservations.offset = m.grants.flatMap Grant.words := by
    have hidx : m.journal.reservations.idx = m.journal.seq % journalStateBufNr := by
      rw [h.res]
      exact h.idx
    have hoffset : m.journal.reservations.offset = (m.grants.map Grant.len).sum := by
      rw [h.res]
      exact h.offset
    rw [hidx, hoffset]
    exact h.grants.payload (h.released hone)
  rw [flushRecord]
  dsimp only
  rw [hdata]
  split_ifs
  · rfl
  · rw [List.append_nil]

theorem flush (h : ResInv g m) {roots : List UInt64} {j : Journal} {v : BitVec 64}
    (hcase : FlushResCase g m.journal roots 0 j)
    (hswitch : journalStateSwitch m.word ((m.journal.seq + 1) % journalStateBufNr) = some v) :
    ResInv g ⟨{ j with reservations := unpack v }, v, []⟩ := by
  cases hcase with
  | kept hret => exact absurd rfl hret
  | closed hone hroom hnext hring hseq hclosed hbudget =>
    have hv := unpack_switch (seq_mod_lt _) hswitch
    have hout : outstanding m.grants = 0 := by
      refine List.countP_eq_zero.mpr fun a ha => ?_
      rw [h.released hone a ha]
      decide
    refine ⟨rfl, ⟨hbudget.free, hbudget.sectors, hbudget.budget⟩, ?_, ?_, ?_, ?_, ?_, ?_, ?_⟩ <;>
      dsimp only
    · rw [hring, hseq, Function.update_self]
    · rw [hseq]
      exact congrArg JournalReservations.idx hv
    · exact congrArg JournalReservations.offset hv
    · exact (congrArg JournalReservations.offset hv).trans_le (Nat.zero_le _)
    · intro i hi
      rw [← unpack_count hi, hv, hseq, openReservations]
      dsimp only
      have hne : (m.journal.seq + 1) % journalStateBufNr ≠ m.journal.seq % journalStateBufNr := by
        rw [journalStateBufNr]
        omega
      have hidx : (unpack m.word).idx = m.journal.seq % journalStateBufNr := h.idx
      rw [hidx]
      by_cases heq : i = (m.journal.seq + 1) % journalStateBufNr
      · rw [heq, Function.update_self, Function.update_of_ne hne, unpack_count (seq_mod_lt _),
          h.count _ (seq_mod_lt _), if_neg hne, if_pos rfl]
        rfl
      · rw [Function.update_of_ne heq, if_neg heq]
        by_cases hold : i = m.journal.seq % journalStateBufNr
        · rw [hold, Function.update_self, unpack_count (seq_mod_lt _), h.count _ (seq_mod_lt _),
            if_pos rfl, hout]
        · rw [Function.update_of_ne hold, unpack_count hi, h.count i hi, if_neg hold]
    · intro a ha
      cases ha
    · exact GrantsOk.nil _

/-- No assertion about the counters fails: a holder can release what it holds. -/
theorem dec_isSome (h : ResInv g m) {a : Grant} (ha : a ∈ m.grants) :
    (journalStateDec m.word (a.seq % journalStateBufNr)).isSome := by
  have hpos : journalStateCount m.word (m.journal.seq % journalStateBufNr) ≠ 0 := by
    rw [h.count _ (seq_mod_lt _), if_pos rfl]
    omega
  rw [h.seq a ha, journalStateDec, if_neg hpos]
  rfl

/-- No assertion about the counters fails: a flush can switch to the next buffer. -/
theorem switch_isSome (h : ResInv g m) :
    (journalStateSwitch m.word ((m.journal.seq + 1) % journalStateBufNr)).isSome := by
  have hne : (m.journal.seq + 1) % journalStateBufNr ≠ m.journal.seq % journalStateBufNr := by
    rw [journalStateBufNr]
    omega
  have hpos : journalStateCount m.word (journalStateIdx m.word) ≠ 0 := by
    rw [h.idx, h.count _ (seq_mod_lt _), if_pos rfl]
    omega
  have hdec : journalStateDec m.word (journalStateIdx m.word) =
      some (m.word - BitVec.ofNat 64 (2 ^ (24 + journalStateIdx m.word * 10))) := if_neg hpos
  have hw := unpack_dec hdec (journalStateIdx_lt m.word)
  rw [journalStateSwitch, hdec, Option.bind_eq_bind, Option.bind_some]
  revert hw
  generalize m.word - BitVec.ofNat 64 (2 ^ (24 + journalStateIdx m.word * 10)) = w
  intro hw
  have hzero : journalStateCount (journalStateSetOffset
      (journalStateSetIdx w ((m.journal.seq + 1) % journalStateBufNr)) 0)
      ((m.journal.seq + 1) % journalStateBufNr) = 0 := by
    rw [← unpack_count (seq_mod_lt _), unpack_setOffset (Nat.zero_le _),
      unpack_setIdx (seq_mod_lt _), hw]
    dsimp only
    rw [h.idx, Function.update_of_ne hne, unpack_count (seq_mod_lt _), h.count _ (seq_mod_lt _),
      if_neg hne]
  rw [journalStateInc, hzero, if_neg (by decide)]
  rfl

end ResInv

theorem ResStep.inv {m m' : ResMachine} (hstep : ResStep g m m') (h : ResInv g m) :
    ResInv g m' := by
  cases hstep with
  | get _ hget => exact h.get hget
  | add ha hheld hadd => exact h.add ha hheld hadd
  | put ha hheld hdec => exact h.put ha hheld hdec
  | flush io fn fuel roots hret hswitch =>
    exact h.flush (bch2JournalFlush_resCase h.budget hret) hswitch
  | flushFailed io fn fuel roots hret hne =>
    cases bch2JournalFlush_resCase h.budget hret with
    | kept _ hres hring hseq hbudget => exact h.frame hres hring hseq hbudget
    | closed => exact absurd rfl hne
  | pin hop => exact h.resFrame (resFrame_pinRel.op hop)
  | flushPins hflush => exact h.resFrame (resFrame_pinRel.bch2JournalFlushPins hflush)
  | reclaim hrec => exact h.resFrame (resFrame_pinRel.journalReclaim hrec)
  | updateLastSeq => exact h.resFrame (updateLastSeq_resFrame _)
  | updateLastSeqOndisk n =>
    exact h.resFrame (updateLastSeqOndisk_resFrame _ n)

theorem ResRun.inv {m m' : ResMachine} (hrun : ResRun g m m') (h : ResInv g m) : ResInv g m' := by
  induction hrun with
  | refl => exact h
  | tail _ hstep ih => exact hstep.inv ih

/-! ### The start -/

/-- The word of a journal whose entry `seq` was just opened. -/
def journalStateInit (seq : ℕ) : BitVec 64 :=
  let idx := seq % journalStateBufNr
  BitVec.ofNat 64 (idx <<< 22) ||| BitVec.ofNat 64 (1 <<< (24 + idx * 10))

theorem unpack_init (seq : ℕ) : unpack (journalStateInit seq) = journalStateOpen seq := by
  have hlt : seq % journalStateBufNr < 4 := seq_mod_lt seq
  rw [journalStateInit, journalStateOpen]
  revert hlt
  generalize seq % journalStateBufNr = idx
  intro hlt
  refine unpack_eq ?_ ?_ (funext fun i => ?_)
  · revert idx
    decide
  · revert idx
    decide
  · by_cases hi : i < journalStateBufNr
    · rw [unpack_count hi]
      have hi' : i < 4 := hi
      revert i idx
      decide
    · have hne : i ≠ idx := fun h => hi (h ▸ hlt)
      exact (if_neg hi).trans (if_neg hne).symm

/-- The journals a run starts from: one without a device, and one that was read from a device. -/
inductive JournalStart (g : JournalGeometry) : Journal → Prop
  | default : JournalStart g Journal.default
  | read {img : Image UInt64} {j : Journal} {info : JournalStartInfo}
      (h : bch2JournalRead g img Journal.default = .ok (j, info)) : JournalStart g j

/-- The machine of a journal whose entry was just opened. -/
def ResMachine.start (j : Journal) : ResMachine := ⟨j, journalStateInit j.seq, []⟩

/-- What a read installs. -/
theorem bch2JournalRead_install {img : Image UInt64} {j₀ j : Journal} {info : JournalStartInfo}
    (h : bch2JournalRead g img j₀ = .ok (j, info)) :
    ∃ records bucketSeq highest pinFront curSeq,
      j = readInstall g j₀ records (readDevice g bucketSeq highest pinFront) pinFront curSeq := by
  unfold bch2JournalRead at h
  split at h
  · cases h
  · unfold readSorted at h
    dsimp only at h
    split_ifs at h
    · cases h
      exact ⟨_, _, _, _, _, rfl⟩
    · cases h
      exact ⟨_, _, _, _, _, rfl⟩

theorem resInv_open {j : Journal} (hres : j.reservations = journalStateOpen j.seq)
    (hring : (j.ring (j.seq % journalStateBufNr)).seq = j.seq) (hbudget : j.BudgetOk g) :
    ResInv g (.start j) := by
  have hw : unpack (journalStateInit j.seq) = journalStateOpen j.seq := unpack_init j.seq
  have hoffset : journalStateOffset (journalStateInit j.seq) = 0 :=
    congrArg JournalReservations.offset hw
  refine ⟨hres.trans hw.symm, hbudget, hring, congrArg JournalReservations.idx hw, hoffset, ?_, ?_,
    ?_, GrantsOk.nil _⟩
  · exact hoffset.trans_le (Nat.zero_le _)
  · intro i hi
    rw [ResMachine.start, ← unpack_count hi, hw]
    rfl
  · intro a ha
    cases ha

theorem readInstall_budgetOk (records : List Jset) (bucketSeq : List ℕ) (highest : Option FoundEntry)
    (pinFront curSeq : ℕ) :
    (readInstall g Journal.default records (readDevice g bucketSeq highest pinFront) pinFront
      curSeq).BudgetOk g := by
  have hopened : (readOpened Journal.default records (readDevice g bucketSeq highest pinFront)
      pinFront curSeq).BudgetOk g :=
    ⟨Nat.sub_le _ _, Nat.zero_le _, le_max_left _ _⟩
  have hspace := (spaceAvailable_resFrame _).budget hopened
  unfold readInstall
  dsimp only
  split_ifs
  · exact ⟨hspace.free, hspace.sectors, entryBudget_le hspace.sectors⟩
  · exact hspace

theorem JournalStart.inv {j : Journal} (h : JournalStart g j) : ResInv g (.start j) := by
  cases h with
  | default =>
    exact resInv_open rfl rfl ⟨Nat.zero_le _, Nat.zero_le _, le_max_left _ _⟩
  | read h =>
    obtain ⟨records, bucketSeq, highest, pinFront, curSeq, rfl⟩ := bch2JournalRead_install h
    have hf := readInstall_spaceFrame (g := g) Journal.default records
      (readDevice g bucketSeq highest pinFront) pinFront curSeq
    have hseq : (readInstall g Journal.default records (readDevice g bucketSeq highest pinFront)
        pinFront curSeq).seq = curSeq := hf.seq
    refine resInv_open ?_ ?_ (readInstall_budgetOk records bucketSeq highest pinFront curSeq)
    · rw [hf.reservations, hseq]
      rfl
    · rw [hf.ring, hseq]
      change (journalRingOpen curSeq (curSeq % journalStateBufNr)).seq = curSeq
      rw [journalRingOpen, if_pos rfl]

/-! ### Every run -/

/-- The word counts the reservations of the open entry, which are apart from each other and inside
the buffer; a flush that succeeds has nothing outstanding and closes exactly what was added, in
every run on a device whose buckets are no larger than a buffer. -/
theorem reservations_inside (hsize : g.alignedBucket ≤ 2048) {j : Journal} (hstart : JournalStart g j)
    {m : ResMachine} (hrun : ResRun g (.start j) m) :
    (m.journal.reservations = unpack m.word ∧
      journalStateIdx m.word = m.journal.seq % journalStateBufNr ∧
      journalStateOffset m.word = (m.grants.map Grant.len).sum ∧
      ∀ i < journalStateBufNr, journalStateCount m.word i =
        if i = m.journal.seq % journalStateBufNr then 1 + outstanding m.grants else 0) ∧
    (m.grants.Pairwise fun a b => a.start + a.len ≤ b.start) ∧
    (∀ a ∈ m.grants, a.start + a.len ≤ journalBufU64s) ∧
    (∀ a ∈ m.grants, (journalStateDec m.word (a.seq % journalStateBufNr)).isSome) ∧
    ∀ (io : FlushIo) (fn : PinFlushFn) (fuel : ℕ) (roots : List UInt64),
      (bch2JournalFlush g io fn fuel roots m.journal).ret = some 0 →
      outstanding m.grants = 0 ∧
      (∀ a ∈ m.grants, a.words.length = a.len) ∧
      (journalStateSwitch m.word ((m.journal.seq + 1) % journalStateBufNr)).isSome ∧
      ∃ r : Jset, (bch2JournalFlush g io fn fuel roots m.journal).journal.closed =
          m.journal.closed ++ [r] ∧
        r.payload = m.grants.flatMap Grant.words ++ if m.journal.attached then roots else [] := by
  have h : ResInv g m := ResRun.inv hrun hstart.inv
  refine ⟨⟨h.res, h.idx, h.offset, h.count⟩, h.grants.tiled.disjoint, ?_, ?_, ?_⟩
  · intro a ha
    have hend := h.grants.tiled.end_le ha
    rw [Nat.zero_add, ← h.offset] at hend
    exact hend.trans (h.inside.trans (entryBudgetMax_le_buf hsize))
  · intro a ha
    exact h.dec_isSome ha
  · intro io fn fuel roots hret
    cases bch2JournalFlush_resCase h.budget hret with
    | kept hne => exact absurd rfl hne
    | closed hone hroom hnext hring hseq hclosed hbudget =>
      have hreleased := h.released hone
      refine ⟨?_, fun a ha => h.grants.full a ha (hreleased a ha), h.switch_isSome, _, hclosed,
        h.flushRecord_payload hone roots⟩
      refine List.countP_eq_zero.mpr fun a ha => ?_
      rw [hreleased a ha]
      decide

/-- A reservation that fits the budget is granted. -/
theorem ResInv.get_of_room {m : ResMachine} (h : ResInv g m) {u64s : ℕ} (flags : ℕ)
    (hfits : journalStateOffset m.word + u64s ≤ m.journal.curEntryU64s)
    (hmark : m.journal.watermark.toNat ≤ flags % 8) (hfew : outstanding m.grants < 0x3fe) :
    ∃ v res, journalResGetFastWord m.journal m.word u64s flags = some (v, res) := by
  have hcount : journalStateCount m.word (journalStateIdx m.word) = 1 + outstanding m.grants := by
    rw [h.idx, h.count _ (seq_mod_lt _), if_pos rfl]
  have hseq : (m.journal.ring (journalStateIdx m.word)).seq =
      m.journal.seq - (m.journal.seq - journalStateIdx m.word) % journalStateBufNr := by
    rw [h.idx, h.ring, journalStateBufNr]
    omega
  have hinc : journalStateInc m.word (journalStateIdx m.word) =
      some (m.word + BitVec.ofNat 64 (2 ^ (24 + journalStateIdx m.word * 10))) := by
    refine if_neg ?_
    rw [hcount]
    omega
  rw [journalResGetFastWord]
  dsimp only
  rw [if_neg (Nat.not_lt.mpr hfits), if_neg (by rw [hcount]; omega), if_neg (Nat.not_lt.mpr hmark),
    hinc, Option.bind_eq_bind, Option.bind_some, if_neg (not_not.mpr hseq)]
  exact ⟨_, _, rfl⟩

/-- A run goes on with a reservation that fits the budget; budget and watermark stay. -/
theorem ResRun.get {j : Journal} {m : ResMachine} (hstart : JournalStart g j)
    (hrun : ResRun g (.start j) m) {lens : List ℕ} (hlens : m.grants.map Grant.len = lens) {u : ℕ}
    (hu : u < 2 ^ 16) (hfits : lens.sum + u ≤ m.journal.curEntryU64s)
    (hmark : m.journal.watermark = .stripe) (hfew : lens.length < 0x3fe) :
    ∃ m' : ResMachine, ResRun g (.start j) m' ∧ m'.grants.map Grant.len = lens ++ [u] ∧
      (∃ a ∈ m'.grants, a.start = lens.sum ∧ a.len = u) ∧
      m'.journal.curEntryU64s = m.journal.curEntryU64s ∧ m'.journal.watermark = .stripe := by
  subst hlens
  have h : ResInv g m := ResRun.inv hrun hstart.inv
  have hout : outstanding m.grants ≤ m.grants.length := List.countP_le_length
  rw [List.length_map] at hfew
  obtain ⟨v, res, hget⟩ := h.get_of_room 0 (h.offset ▸ hfits) (by rw [hmark]; decide)
    (hout.trans_lt hfew)
  obtain ⟨-, rfl, -⟩ :=
    journalResGetFastWord_spec (h.budget.budget.trans (entryBudgetMax_le g)) hget
  refine ⟨_, .tail hrun (.get hu hget), ?_, ⟨_, List.mem_append_right _ (List.mem_singleton_self _),
    h.offset, rfl⟩, rfl, hmark⟩
  rw [List.map_append, List.map_singleton]

theorem reservations_inside_small :
    ∃ m : ResMachine, ResRun smallGeometry (.start smallJournal) m ∧
      m.grants.map Grant.len = [3] ∧ ∀ a ∈ m.grants, a.start + a.len ≤ journalBufU64s := by
  have hstart : JournalStart smallGeometry smallJournal := .read read_smallJournal
  obtain ⟨m, hrun, hlens, -⟩ :=
    ResRun.get hstart .refl rfl (u := 3) (by decide) (by decide) (by decide) (by decide)
  exact ⟨m, hrun, hlens, (reservations_inside (by decide) hstart hrun).2.2.1⟩

/-- A device with buckets of two buffers. -/
def wideGeometry : JournalGeometry where
  bucketSize := 4096
  blockSize := 8
  buckets := [1, 2, 3, 4]
  fileSectors := 5 * 4096
  uuidLo := 0x5353535353535353
  bucketSize_pos := by decide
  bucketSize_lt := by decide
  buckets_ne := smallGeometry.buckets_ne
  buckets_nodup := smallGeometry.buckets_nodup
  buckets_length_lt := smallGeometry.buckets_length_lt
  buckets_inside := by decide
  uuidLo_ne := smallGeometry.uuidLo_ne

/-- The journal attached to the zeroed device with wide buckets. -/
def wideJournal : Journal :=
  readInstall wideGeometry Journal.default []
    (readDevice wideGeometry ((List.range wideGeometry.nr).map fun _ => 0) none 1) 1 1

theorem start_wideJournal : JournalStart wideGeometry wideJournal := by
  have hfmt := formatted_zero wideGeometry
  have hdur := DurableInv.of_empty hfmt.layout fun _ _ => rfl
  exact .read ((hdur.readable fun r hr => by cases hr).bch2JournalRead_nil rfl Journal.default)

/-- With buckets larger than a buffer a reservation can end outside the buffer. -/
theorem reservations_outside :
    ¬∀ (g : JournalGeometry) (j : Journal) (m : ResMachine), JournalStart g j →
      ResRun g (.start j) m → ∀ a ∈ m.grants, a.start + a.len ≤ journalBufU64s := by
  intro hclaim
  have hstart := start_wideJournal
  have hbudget : wideJournal.curEntryU64s = 262137 := by decide
  obtain ⟨m₁, hrun₁, hlens₁, -, hbudget₁, hmark₁⟩ :=
    ResRun.get hstart .refl rfl (u := 65535) (by decide) (by decide) (by decide) (by decide)
  obtain ⟨m₂, hrun₂, hlens₂, -, hbudget₂, hmark₂⟩ :=
    ResRun.get hstart hrun₁ hlens₁ (u := 65535) (by decide)
      (le_of_le_of_eq (by decide) (hbudget₁.trans hbudget).symm) hmark₁ (by decide)
  obtain ⟨m₃, hrun₃, -, ⟨a, ha, hastart, halen⟩, -⟩ :=
    ResRun.get hstart hrun₂ hlens₂ (u := 65535) (by decide)
      (le_of_le_of_eq (by decide) (hbudget₂.trans (hbudget₁.trans hbudget)).symm) hmark₂ (by decide)
  have hinside := hclaim wideGeometry wideJournal m₃ hstart hrun₃ a ha
  rw [hastart, halen] at hinside
  exact absurd hinside (by decide)

end Subvol

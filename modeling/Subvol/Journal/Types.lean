import Mathlib.Algebra.Order.Ring.Nat
import Mathlib.Data.Int.Basic
import Subvol.Checksum
import Subvol.Lib.Image
import Subvol.Lib.Numerals

/-!
# The data of the journal

Model of the types of `journal.rs` and of the superblock fields it reads. Sequence numbers,
sector counts and bucket indices are natural numbers; the bounds that keep the machine
arithmetic of the source exact are fields of `JournalGeometry` or checks of the functions
themselves. Atomics and mutexes hold the same values without their locking, and
`journal_state` (the packed reservation word) is given by its decoded fields.

## Main definitions

* `Jset`: a journal record; `Jset.words` is its layout in 64-bit words.
* `JournalGeometry`: what the superblock says about the journal device.
* `JournalDevice`, `JournalPinFifo`, `Journal`: the in-memory state.
* `journalEntryEmpty`: `journal_entry_empty`.
-/

namespace Subvol

open Lib

/-- `JOURNAL_SEQ_MAX`. -/
def journalSeqMax : ℕ := 2 ^ 56 - 1

/-- `JSET_MAGIC`. -/
def jsetMagic : UInt64 := 0x245235c1a3625032

/-- `JSET_HEADER_U64S`. -/
def jsetHeaderU64s : ℕ := 7

/-- `JOURNAL_PIN`. -/
def journalPin : ℕ := 32 * 1024

/-- `JOURNAL_ENTRY_SIZE_MAX`, in bytes. -/
def journalEntrySizeMax : ℕ := 2 ^ 20

/-- `JOURNAL_ENTRY_OFFSET_MAX`. -/
def journalEntryOffsetMax : ℕ := 2 ^ 22 - 1

/-- `JOURNAL_STATE_BUF_NR`. -/
def journalStateBufNr : ℕ := 4

/-- `bcachefs_metadata_version_current`, `BCH_VERSION(1, 38)`. -/
def metadataVersionCurrent : ℕ := 1 * 2 ^ 10 + 38

/-- The 64-bit words of a 512-byte sector. -/
def sectorU64s : ℕ := 64

/-! ### Records -/

/-- `jset` with the words behind its header. The field `u64s` is the low half of the word that
also holds the two clocks, which are never set. -/
structure Jset where
  version : ℕ
  flags : ℕ
  magic : UInt64
  seq : ℕ
  u64s : ℕ
  lastSeq : ℕ
  payload : List UInt64
  csum : BchCsum
deriving DecidableEq, Repr, Inhabited

namespace Jset

/-- The words of the header behind the checksum. -/
def header (r : Jset) : List UInt64 :=
  [r.magic, UInt64.ofNat r.seq, UInt64.ofNat (r.version + r.flags * 2 ^ 32),
    UInt64.ofNat r.u64s, UInt64.ofNat r.lastSeq]

/-- A record as the words that are stored. -/
def words (r : Jset) : List UInt64 := r.csum.lo :: r.csum.hi :: (r.header ++ r.payload)

/-- `JSET_NO_FLUSH`. -/
def noFlush (r : Jset) : Bool := r.flags.testBit 5

end Jset

/-- The number of payload words a `jset_entry` header announces (`u64s`, a `u16`). -/
def entryU64s (w : UInt64) : ℕ := w.toNat % 2 ^ 16

/-- The type of a `jset_entry` header. -/
def entryType (w : UInt64) : ℕ := w.toNat / 2 ^ 32 % 2 ^ 8

/-- `BCH_JSET_ENTRY_btree_keys`. -/
def jsetEntryBtreeKeys : ℕ := 0

/-- The walk of `journal_entry_empty` over the entries of a payload: no entry of btree keys has
a payload of its own. The first argument bounds the number of entries. -/
def entriesEmpty : ℕ → List UInt64 → Bool
  | 0, _ => true
  | _, [] => true
  | fuel + 1, w :: rest =>
    if entryType w = jsetEntryBtreeKeys ∧ entryU64s w ≠ 0 then false
    else entriesEmpty fuel (rest.drop (entryU64s w))

/-- `journal_entry_empty`: the record needs nothing from before it and carries no key. -/
def journalEntryEmpty (r : Jset) : Bool :=
  if r.seq ≠ r.lastSeq then false
  else entriesEmpty r.u64s (r.payload.take r.u64s)

/-! ### The device -/

/-- What the superblock and the device file fix about the journal: the member's bucket size, the
block size, the buckets of the `journal_v2` ranges in order, the length of the file and the low
half of the UUID. A formatted device gives every journal bucket a place of its own inside the
file, and its UUID does not cancel the magic number. -/
structure JournalGeometry where
  bucketSize : ℕ
  blockSize : ℕ
  buckets : List ℕ
  fileSectors : ℕ
  uuidLo : UInt64
  bucketSize_pos : 0 < bucketSize
  bucketSize_lt : bucketSize < 2 ^ 16
  buckets_ne : buckets ≠ []
  buckets_nodup : buckets.Nodup
  buckets_length_lt : buckets.length < 2 ^ 31
  buckets_inside : ∀ b ∈ buckets, (b + 1) * bucketSize ≤ fileSectors
  uuidLo_ne : uuidLo ≠ jsetMagic

namespace JournalGeometry

variable (g : JournalGeometry)

/-- The number of journal buckets. -/
def nr : ℕ := g.buckets.length

/-- `max(block_size, 1)`. -/
def blockSectors : ℕ := max g.blockSize 1

/-- The words of a block. -/
def blockU64s : ℕ := g.blockSectors * sectorU64s

/-- The words of a bucket. -/
def bucketU64s : ℕ := g.bucketSize * sectorU64s

/-- The number on disk that starts a record, `uuid_lo ^ JSET_MAGIC`. -/
def diskMagic : UInt64 := g.uuidLo ^^^ jsetMagic

/-- The first word of journal bucket `i` on the device. -/
def bucketStart (i : ℕ) : ℕ := g.buckets.getD i 0 * g.bucketU64s

/-- `record_bytes.next_multiple_of(block_bytes)`, in words. -/
def writeU64s (recordU64s : ℕ) : ℕ := (recordU64s + g.blockU64s - 1) / g.blockU64s * g.blockU64s

/-- The sectors a record of the given length takes. -/
def writeSectors (recordU64s : ℕ) : ℕ := g.writeU64s recordU64s / sectorU64s

end JournalGeometry

/-- `journal_space_from`, the three kinds that a bucket index stands for. -/
inductive JournalSpaceFrom
  | discarded
  | cleanOndisk
  | clean
deriving DecidableEq, Repr

/-- `journal_space`. -/
structure JournalSpace where
  nextEntry : ℕ := 0
  total : ℕ := 0
deriving DecidableEq, Repr, Inhabited

/-- The array `space` of the journal, by `journal_space_from`. -/
structure JournalSpaces where
  discarded : JournalSpace := {}
  cleanOndisk : JournalSpace := {}
  clean : JournalSpace := {}
  total : JournalSpace := {}
deriving DecidableEq, Repr, Inhabited

/-- `bch_watermark`. -/
inductive BchWatermark
  | stripe
  | normal
  | copygc
  | btree
  | btreeCopygc
  | reclaim
  | interiorUpdates
deriving DecidableEq, Repr, Inhabited

/-- The number of a watermark. -/
def BchWatermark.toNat : BchWatermark → ℕ
  | .stripe => 0
  | .normal => 1
  | .copygc => 2
  | .btree => 3
  | .btreeCopygc => 4
  | .reclaim => 5
  | .interiorUpdates => 6

/-- `journal_device`. -/
structure JournalDevice where
  bucketSeq : List ℕ := []
  sectorsFree : ℕ := 0
  discardIdx : ℕ := 0
  dirtyIdxOndisk : ℕ := 0
  dirtyIdx : ℕ := 0
  curIdx : ℕ := 0
  nr : ℕ := 0
  buckets : List ℕ := []
  highestSeqFound : ℕ := 0
deriving DecidableEq, Repr, Inhabited

/-! ### Pins and buffers -/

/-- `journal_pin_type`. -/
inductive JournalPinType
  | btree3
  | btree2
  | btree1
  | btree0
  | keyCache
  | other
deriving DecidableEq, Repr, Inhabited

/-- The number of a pin type, the order in which pins of one sequence are flushed. -/
def JournalPinType.toNat : JournalPinType → ℕ
  | .btree3 => 0
  | .btree2 => 1
  | .btree1 => 2
  | .btree0 => 3
  | .keyCache => 4
  | .other => 5

/-- `0..JOURNAL_PIN_TYPE_NR`. -/
def journalPinTypes : List JournalPinType := [.btree3, .btree2, .btree1, .btree0, .keyCache, .other]

/-- `journal_entry_pin_list`: the references that hold one sequence back. Pins are named by
their addresses; `unflushed` keeps the type each was filed under. -/
structure JournalEntryPinList where
  count : ℕ := 0
  unflushed : List (JournalPinType × ℕ) := []
  flushed : List ℕ := []
  unreplayed : Bool := false
deriving DecidableEq, Repr, Inhabited

/-- The pin lists of the sequences from `front` on. -/
structure JournalPinFifo where
  front : ℕ
  lists : List JournalEntryPinList
deriving DecidableEq, Repr, Inhabited

/-- `journal_buf`, zero behind what has been stored. -/
structure JournalBuf where
  data : Image UInt64 := fun _ => 0
  seq : ℕ := 0

/-- The decoded reservation word: the offset in the open buffer, the index of that buffer and
the reference count of each buffer. -/
structure JournalReservations where
  offset : ℕ
  idx : ℕ
  count : ℕ → ℕ

/-- The bits of `flags` that the journal sets. -/
structure JournalFlags where
  replayDone : Bool := false
  maySkipFlush : Bool := false
  medOnSpace : Bool := false
  lowOnSpace : Bool := false
  lowOnPin : Bool := false
deriving DecidableEq, Repr, Inhabited

/-- `journal`. The map `pins` gives the sequence each `journal_entry_pin` holds, zero when it is
not active. -/
structure Journal where
  reservations : JournalReservations
  seq : ℕ
  curEntryU64s : ℕ
  ring : ℕ → JournalBuf
  closed : List Jset
  attached : Bool
  device : JournalDevice
  pin : JournalPinFifo
  pins : ℕ → ℕ
  seqOndisk : ℕ
  lastSeqOndisk : ℕ
  lastSeq : ℕ
  flushInProgress : ℕ
  flushInProgressDropped : Bool
  nrDirectReclaim : ℕ
  nrBackgroundReclaim : ℕ
  flags : JournalFlags
  watermark : BchWatermark
  space : JournalSpaces
  curEntrySectors : ℕ
  curEntryError : ℤ
  reclaimKicked : Bool
  faultInjectWriteError : ℕ

/-- The reservation word of a freshly opened entry. -/
def journalStateOpen (seq : ℕ) : JournalReservations where
  offset := 0
  idx := seq % journalStateBufNr
  count := fun i => if i = seq % journalStateBufNr then 1 else 0

/-- The ring in which only the entry `seq` is open. -/
def journalRingOpen (seq : ℕ) : ℕ → JournalBuf := fun i =>
  if i = seq % journalStateBufNr then { seq := seq } else {}

/-- `journal::default`. -/
def Journal.default : Journal where
  reservations := journalStateOpen 1
  seq := 1
  curEntryU64s := journalEntrySizeMax / 8 - jsetHeaderU64s
  ring := journalRingOpen 1
  closed := []
  attached := false
  device := {}
  pin := ⟨1, [{ count := 1 }]⟩
  pins := fun _ => 0
  seqOndisk := 0
  lastSeqOndisk := 1
  lastSeq := 1
  flushInProgress := 0
  flushInProgressDropped := false
  nrDirectReclaim := 0
  nrBackgroundReclaim := 0
  flags := {}
  watermark := .stripe
  space := {}
  curEntrySectors := 0
  curEntryError := 0
  reclaimKicked := false
  faultInjectWriteError := 0

end Subvol

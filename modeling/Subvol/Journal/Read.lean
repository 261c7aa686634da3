import Subvol.Journal.Flush

/-!
# Reading the journal back

Model of `bch2_journal_read`: every journal bucket is scanned for records, the records found are
sorted by sequence, the window `[last_seq, newest]` of the newest record is checked for gaps and
becomes the records to replay, and the writer state is rebuilt from the place of the newest
record.

A bucket is scanned as the list of its words. The scan ends at a word sequence without the magic
number or at a sequence below the last one; a bad header is the error `-5` and a bad checksum the
error `-6` of the whole read.

## Main definitions

* `decodeJset`: the record whose header starts a list of words.
* `scanBucket`, `scanBuckets`: the records found.
* `dupMismatch`, `dedupSeq`, `windowContiguous`: the checks on the sorted records.
* `bch2JournalRead`.
-/

namespace Subvol

open Lib

variable (g : JournalGeometry)

/-- `journal_start_info`. -/
structure JournalStartInfo where
  lastSeq : ℕ := 0
  replayEnd : ℕ := 0
  curSeq : ℕ := 0
  clean : Bool := false
deriving DecidableEq, Repr, Inhabited

/-- An element of `found`: the sequence, the journal bucket, the sector of that bucket behind the
record and the record. -/
structure FoundEntry where
  seq : ℕ
  bucket : ℕ
  endSector : ℕ
  record : Jset
deriving DecidableEq, Repr, Inhabited

/-! ### Scanning a bucket -/

/-- The record whose header starts the words `ws`. -/
def decodeJset (ws : List UInt64) : Jset :=
  let versionFlags := (ws.getD 4 0).toNat
  let u64s := (ws.getD 5 0).toNat % 2 ^ 32
  { csum := ⟨ws.getD 0 0, ws.getD 1 0⟩
    magic := ws.getD 2 0
    seq := (ws.getD 3 0).toNat
    version := versionFlags % 2 ^ 32
    flags := versionFlags / 2 ^ 32
    u64s := u64s
    lastSeq := (ws.getD 6 0).toNat
    payload := (ws.drop jsetHeaderU64s).take u64s }

/-- The header checks that make the read fail with `-5`, for a record with `room` words left in
its bucket. -/
def headerInvalid (r : Jset) (room : ℕ) : Bool :=
  decide (r.seq = 0 ∨ r.seq > journalSeqMax ∨ r.version ≠ metadataVersionCurrent ∨
    r.flags % 16 ≠ bchCsumXxhash ∨ r.flags.testBit 4 = true ∨ jsetHeaderU64s + r.u64s > room)

/-- The scan of the rest of a bucket from word `offset` on, `maxSeq` being the last sequence
seen: the records found and the sequence of the last one. -/
def scanBucket (bucket : ℕ) : ℕ → ℕ → ℕ → List UInt64 → Except ℤ (List FoundEntry × ℕ)
  | 0, _, maxSeq, _ => .ok ([], maxSeq)
  | fuel + 1, offset, maxSeq, rest =>
    if rest.length < jsetHeaderU64s ∨ rest.getD 2 0 ≠ g.diskMagic then .ok ([], maxSeq)
    else
      let r := decodeJset rest
      let size := g.writeU64s (jsetHeaderU64s + r.u64s)
      if headerInvalid r rest.length then .error (-5)
      else if r.seq < maxSeq then .ok ([], maxSeq)
      else if size > rest.length then .error (-5)
      else if r.csum ≠ bch2Checksum ((rest.drop 2).take (5 + r.u64s)) then .error (-6)
      else do
        let (found, last) ← scanBucket bucket fuel (offset + size) r.seq (rest.drop size)
        let entry : FoundEntry :=
          ⟨r.seq, bucket, (offset + size) / sectorU64s, { r with magic := jsetMagic }⟩
        .ok (entry :: found, last)

/-- The scan of journal bucket `i` of a device. -/
def scanBucketOf (img : Image UInt64) (i : ℕ) : Except ℤ (List FoundEntry × ℕ) :=
  if g.bucketStart i + g.bucketU64s > g.fileSectors * sectorU64s then .error (-4)
  else scanBucket g i g.bucketU64s 0 0 (img.readAt (g.bucketStart i) g.bucketU64s)

/-- The scan of the given journal buckets in order: everything found, and the last sequence of
each bucket. -/
def scanBuckets (img : Image UInt64) : List ℕ → Except ℤ (List FoundEntry × List ℕ)
  | [] => .ok ([], [])
  | i :: rest => do
    let (found, last) ← scanBucketOf g img i
    let (founds, lasts) ← scanBuckets img rest
    .ok (found ++ founds, last :: lasts)

/-! ### The window -/

/-- Two neighbours of one sequence with different records, the error `-7`. -/
def dupMismatch : List FoundEntry → Bool
  | a :: b :: rest => decide (a.seq = b.seq ∧ a.record ≠ b.record) || dupMismatch (b :: rest)
  | _ => false

/-- `found.dedup_by`: the first entry of every run of one sequence. -/
def dedupSeq : List FoundEntry → List FoundEntry
  | [] => []
  | a :: rest =>
    match dedupSeq rest with
    | [] => [a]
    | b :: rest' => if a.seq = b.seq then a :: rest' else a :: b :: rest'

/-- The loop that checks the window `[lastSeq, replayEnd]` for gaps, from `expected` on. -/
def windowContiguous (lastSeq replayEnd : ℕ) : ℕ → List FoundEntry → Bool
  | expected, [] => expected = replayEnd + 1
  | expected, e :: rest =>
    if e.seq < lastSeq ∨ e.seq > replayEnd then windowContiguous lastSeq replayEnd expected rest
    else if e.seq ≠ expected then false
    else windowContiguous lastSeq replayEnd (expected + 1) rest

/-- Whether the newest record needs no replay. -/
def readClean (r : Jset) (seq lastSeq : ℕ) : Bool :=
  decide (seq = lastSeq) && entriesEmpty r.u64s (r.payload.take r.u64s)

/-- `last_seq`, `replay_end` and `clean` of the newest record that was written with a flush. -/
def flushWindow (found : List FoundEntry) : ℕ × ℕ × Bool :=
  match found.reverse.find? fun e => !e.record.noFlush with
  | some e =>
    let lastSeq := min e.record.lastSeq e.seq
    (lastSeq, e.seq, readClean e.record e.seq lastSeq)
  | none => (0, 0, false)

/-! ### The writer state -/

/-- The pin lists of a journal that has the sequences from `front` on to replay and the entry
`curSeq` open. -/
def replayPins (front curSeq : ℕ) : JournalPinFifo :=
  ⟨front, List.replicate (curSeq - front) { count := 1, unreplayed := true } ++ [{ count := 1 }]⟩

/-- The device state behind the newest record `highest`. -/
def readDevice (bucketSeq : List ℕ) (highest : Option FoundEntry) (liveFrom : ℕ) :
    JournalDevice :=
  let curIdx := (highest.map FoundEntry.bucket).getD 0
  let used := (highest.map FoundEntry.endSector).getD 0
  let dirtyIdx := Ring.walk g.nr
    (fun i => decide (i ≠ curIdx ∧ bucketSeq.getD i 0 < liveFrom)) g.nr (Ring.next g.nr curIdx)
  { bucketSeq := bucketSeq
    sectorsFree := g.bucketSize - used
    discardIdx := dirtyIdx
    dirtyIdxOndisk := dirtyIdx
    dirtyIdx := dirtyIdx
    curIdx := curIdx
    nr := g.nr
    buckets := g.buckets
    highestSeqFound := (highest.map FoundEntry.seq).getD 0 }

/-- The journal with the records to replay, the writer state and the entry `curSeq` open. -/
def readOpened (j : Journal) (records : List Jset) (device : JournalDevice)
    (pinFront curSeq : ℕ) : Journal :=
  { j with
    closed := records
    ring := journalRingOpen curSeq
    seq := curSeq
    reservations := journalStateOpen curSeq
    pin := replayPins pinFront curSeq
    seqOndisk := curSeq - 1
    lastSeq := pinFront
    lastSeqOndisk := pinFront
    attached := true
    device := device }

/-- The journal installed by the end of `bch2_journal_read`. -/
def readInstall (j : Journal) (records : List Jset) (device : JournalDevice)
    (pinFront curSeq : ℕ) : Journal :=
  let j := bch2JournalSpaceAvailable g (readOpened j records device pinFront curSeq)
  if j.curEntrySectors ≠ 0 then
    { j with curEntryU64s := journalEntryU64sForSectors j.curEntrySectors }
  else j

/-- The part of `bch2_journal_read` behind the sort. -/
def readSorted (j : Journal) (found : List FoundEntry) (bucketSeq : List ℕ) :
    Except ℤ (Journal × JournalStartInfo) :=
  if dupMismatch found then .error (-7)
  else
    let found := dedupSeq found
    let highest := found.getLast?
    let curSeq := (highest.map fun e => e.seq + 1).getD 1
    let (lastSeq, replayEnd, clean) := flushWindow found
    if replayEnd ≠ 0 ∧ windowContiguous lastSeq replayEnd lastSeq found = false then .error (-8)
    else
      let records :=
        (found.filter fun e => lastSeq ≤ e.seq ∧ e.seq ≤ replayEnd).map FoundEntry.record
      let pinFront := if lastSeq ≠ 0 then lastSeq else curSeq
      .ok (readInstall g j records (readDevice g bucketSeq highest pinFront) pinFront curSeq,
        ⟨lastSeq, replayEnd, curSeq, clean⟩)

/-- `bch2_journal_read`: the journal with its records to replay and writer state installed, or
the error code, which leaves the journal as it was. -/
def bch2JournalRead (img : Image UInt64) (j : Journal) : Except ℤ (Journal × JournalStartInfo) :=
  match scanBuckets g img (List.range g.nr) with
  | .error ret => .error ret
  | .ok (found, bucketSeq) => readSorted g j (found.mergeSort fun a b => a.seq ≤ b.seq) bucketSeq

end Subvol

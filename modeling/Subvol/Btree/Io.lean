import Subvol.Btree.Node

/-!
# Writing and reading nodes

Model of `__bch2_btree_node_write`, which appends the changed keys and the unwritten whiteouts of
a node to its sectors as one more set, of the cleanup behind it, and of `bch2_btree_node_read`,
which merges all sets of a node found on disk.

A node on disk is the list of the sets that were written to its sectors, up to the place its key
declares written. What an interrupted write leaves behind that place is never read. Version,
flags and byte order of a set are the ones the writer always stores and are left out, and a set
on disk with keys that fail the checks of the reader is outside the model (`repaired`).

## Main definitions

* `DiskBset`, `NodeDisk`: a node on disk.
* `bch2SortKeysKeepUnwrittenWhiteouts`, `bch2BtreeNodeWrite`, `bch2BtreePostWriteCleanup`,
  `bch2BtreeNodeWriteTrans`.
* `bch2BtreeInitNext`, `bch2BtreeNodePrepForWrite`.
* `bch2KeySortFixOverlapping`, `bch2BtreeNodeRead`.
-/

namespace Subvol

open Lib

/-! ### The disk -/

/-- A set on disk: the number of its node, the journal sequence it depends on, its first sector,
the sectors it takes and its keys. -/
structure DiskBset where
  seq : ℕ
  journalSeq : ℕ
  offset : ℕ
  sectors : ℕ
  keys : List BkeyPacked
deriving DecidableEq, Repr

/-- The sectors of a node that have been written. -/
structure NodeDisk where
  header : Option NodeHeader := none
  bsets : List DiskBset := []
deriving DecidableEq, Repr

/-- What a node write reads of the superblock, with the answers of the device file: whether the
file reaches to the end of the write and whether it takes the write. -/
structure NodeIo where
  online : Bool := true
  devIdx : ℕ := 0
  blockSize : ℕ := 1
  inFile : Bool := true
  taken : Bool := true

/-- `max(block_size, 1)`. -/
def NodeIo.blockSectors (io : NodeIo) : ℕ := max io.blockSize 1

/-! ### Writing -/

/-- `keep_unwritten_whiteouts_cmp`: by position, deleted keys first, then by address. -/
def keepUnwrittenWhiteoutsCmp (x : RankedKey) : Lex (Bpos × Lex (Bool × ℕ)) :=
  toLex (x.2.pos, toLex (!x.2.deleted, x.1))

/-- `bch2_sort_keys_keep_unwritten_whiteouts`: of the sets and the whiteouts behind them, what a
write has to store. Deleted keys of the sets are dropped, and so is everything that is followed
by a key of its position. -/
def bch2SortKeysKeepUnwrittenWhiteouts (sets : List (List BkeyPacked))
    (whiteouts : List BkeyPacked) : List BkeyPacked :=
  let runs := sortIterRuns 0 (sets ++ [whiteouts])
  let dead (x : RankedKey) : Bool := x.2.deleted && x.1 < sets.length
  (drainPeek keepUnwrittenWhiteoutsCmp (fun x => !dead x) cmpPacked (runsSize runs)
    (sortRuns keepUnwrittenWhiteoutsCmp runs)).map Prod.snd

/-- `bch2_sort_whiteouts`. -/
def bch2SortWhiteouts (b : BtreeNode) : BtreeNode :=
  { b with whiteouts := b.whiteouts.insertionSort fun x y => x.pos ≤ y.pos }

/-- The sets that are not written. -/
def BtreeNode.unwritten (b : BtreeNode) : List Bset := b.sets.filter fun s => !b.bsetWritten s

/-- The keys the next write stores. -/
def writeKeys (b : BtreeNode) : List BkeyPacked :=
  (bch2SortKeysKeepUnwrittenWhiteouts (b.unwritten.map Bset.keys) b.whiteouts).map fun k =>
    k.mark false

/-- The sectors the next write takes. -/
def writeSectorsOf (io : NodeIo) (b : BtreeNode) : ℕ :=
  let headerU64s := if b.written = 0 then btreeNodeU64s else btreeNodeEntryU64s
  let blockU64s := io.blockSectors * sectorWords
  (headerU64s + keysU64s (writeKeys b) + blockU64s - 1) / blockU64s * blockU64s / sectorWords

/-- The journal sequence of the next write. -/
def writeJournalSeq (b : BtreeNode) : ℕ := (b.unwritten.map Bset.journalSeq).foldl max 0

/-- The set that the next write appends. -/
def writeBset (io : NodeIo) (b : BtreeNode) : DiskBset where
  seq := b.header.seq
  journalSeq := writeJournalSeq b
  offset := b.written
  sectors := writeSectorsOf io b
  keys := writeKeys b

/-- The part of `__bch2_btree_node_write` behind the checks of the node. The whiteouts are gone
before the size check and the device write. -/
def nodeWriteSet (io : NodeIo) (b : BtreeNode) (disk : NodeDisk) :
    Option (ℤ × BtreeNode × NodeDisk) :=
  let first : Bool := b.written = 0
  let set := writeBset io b
  let done := { b with whiteouts := [] }
  if !first ∧ set.journalSeq = 0 then none
  else if first ∧ keysU64s set.keys ≠ (b.sets.map Bset.u64s).headD 0 then none
  else if !first ∧ keysU64s set.keys = 0 then some (0, done, disk)
  else if b.written + set.sectors > b.bufU64s / sectorWords ∨ set.sectors ≥ 2 ^ 16 then
    some (-4, done, disk)
  else if !io.inFile ∨ !io.taken then some (-6, done, disk)
  else
    let written := b.written + set.sectors
    let disk : NodeDisk :=
      if first then ⟨some b.header, [set]⟩ else { disk with bsets := disk.bsets ++ [set] }
    some (0, { done with written := written, sectorsWritten := written }, disk)

/-- `__bch2_btree_node_write`: the value returned, the node and its sectors. -/
def bch2BtreeNodeWrite (io : NodeIo) (b : BtreeNode) (disk : NodeDisk) :
    Option (ℤ × BtreeNode × NodeDisk) :=
  if !io.online ∨ b.nsets = 0 ∨ b.bufU64s < sectorWords then some (-1, b, disk)
  else if b.ptrDev = none then some (-2, b, disk)
  else if b.ptrDev ≠ some io.devIdx then some (-3, b, disk)
  else if b.header.seq = 0 then some (-5, b, disk)
  else if b.nsets > maxBsets then some (-7, b, disk)
  else
    let b := bch2SortWhiteouts b
    if b.written ≥ b.bufU64s / sectorWords ∨ b.written % io.blockSectors ≠ 0 then
      some (-4, b, disk)
    else nodeWriteSet io b disk

/-- `bch2_set_bset_needs_whiteout` on all sets. -/
def setNeedsWhiteout (sets : List Bset) : List Bset :=
  sets.map fun s => { s with keys := s.keys.map fun k => k.mark true }

/-- Merge all sets of a node. -/
def mergeSets (b : BtreeNode) : Option BtreeNode :=
  if b.nsets > 1 then bch2BtreeNodeSort b 0 b.nsets else (bch2DropWhiteouts b .all).map Prod.fst

/-- `bch2_btree_post_write_cleanup`: merge the sets of a node that was just written, mark every
key as being on disk and open a new set. -/
def bch2BtreePostWriteCleanup (blockSectors : ℕ) (b : BtreeNode) : Option BtreeNode :=
  if !b.justWritten then some b
  else if b.whiteoutU64s ≠ 0 then none
  else do
    let merged ← mergeSets { b with justWritten := false }
    let b := { merged with sets := setNeedsWhiteout merged.sets }
    if b.last.endOffset > b.written * sectorWords then none
    else openWantedBset blockSectors b

/-- The flags of a node whose write starts. -/
def startWrite (b : BtreeNode) : BtreeNode :=
  { b with dirty := false, needWrite := false, justWritten := true, writeIdx := !b.writeIdx }

/-- `bch2_btree_node_write_trans` with the write lock held: the value `__bch2_btree_node_write`
returned (zero when no write was started), the node and its sectors. The flag `blocked` stands
for the flags that forbid the write. -/
def bch2BtreeNodeWriteTrans (io : NodeIo) (onlyIfNeed blocked : Bool) (b : BtreeNode)
    (disk : NodeDisk) : Option (ℤ × BtreeNode × NodeDisk) :=
  if !b.dirty ∨ (onlyIfNeed ∧ !b.needWrite) ∨ blocked then some (0, b, disk)
  else do
    let (ret, b, disk) ← bch2BtreeNodeWrite io (startWrite b) disk
    if ret ≠ 0 then some (ret, { b with justWritten := false, dirty := true }, disk)
    else do
      let b ← bch2BtreePostWriteCleanup io.blockSectors b
      some (0, b, disk)

/-! ### New sets -/

/-- `should_compact_all`. -/
def shouldCompactAll (b : BtreeNode) : Bool :=
  let maxU64s := b.bufU64s - btreeNodeU64s
  (b.sets.map Bset.u64s).getD 1 0 > 2 ^ ((Nat.log2 maxU64s + 9) / 2)

/-- The write of `bch2_btree_init_next`, which ignores the value returned. -/
def writeLargeSets (io : NodeIo) (b : BtreeNode) (disk : NodeDisk) :
    Option (ℤ × BtreeNode × NodeDisk) :=
  if b.nsets = maxBsets ∧ shouldCompactAll b then bch2BtreeNodeWriteTrans io false false b disk
  else some (0, b, disk)

/-- Merge the sets of a node that has as many as it can. -/
def compactFull (b : BtreeNode) : Option BtreeNode :=
  if b.nsets = maxBsets then bch2BtreeNodeCompact b else some b

/-- `bch2_btree_init_next`: make room for a new set, by a node write when the sets are large and
by merging them otherwise, and open it. -/
def bch2BtreeInitNext (io : NodeIo) (b : BtreeNode) (disk : NodeDisk) :
    Option (BtreeNode × NodeDisk) := do
  let (_, b, disk) ← writeLargeSets io b disk
  let b ← compactFull b
  if b.nsets < maxBsets then do
    let b ← openWantedBset io.blockSectors b
    some (b, disk)
  else none

/-- `bch2_btree_node_prep_for_write`. -/
def bch2BtreeNodePrepForWrite (io : NodeIo) (b : BtreeNode) (disk : NodeDisk) :
    Option (BtreeNode × NodeDisk) := do
  let b ← bch2BtreePostWriteCleanup io.blockSectors b
  match wantNewBset io.blockSectors b with
  | some _ => bch2BtreeInitNext io b disk
  | none => some (b, disk)

/-! ### Reading -/

/-- `key_sort_fix_overlapping_cmp`: by position, then by address. -/
def keySortFixOverlappingCmp (x : RankedKey) : Lex (Bpos × ℕ) := toLex (x.2.pos, x.1)

/-- `bch2_key_sort_fix_overlapping`: the newest key of every position that is not deleted. -/
def bch2KeySortFixOverlapping (sets : List (List BkeyPacked)) : List BkeyPacked :=
  let runs := sortIterRuns 0 sets
  (drainNewest keySortFixOverlappingCmp (fun x => !x.2.deleted) cmpPacked (runsSize runs)
    (sortRuns keySortFixOverlappingCmp runs)).map Prod.snd

/-- The result of a node read: a node, an error code, a failed assertion, or a set with damaged
keys that the reader repairs. -/
inductive NodeRead
  | ok (b : BtreeNode)
  | error (ret : ℤ)
  | panic
  | repaired
deriving DecidableEq, Repr

/-- The words of `bch_btree_ptr_v2`. -/
def btreePtrV2U64s : ℕ := 5

/-- The check of the reader on a key: it is in the range of the node, and a node pointer is not
cut off. -/
def readKeyValid (h : NodeHeader) (k : BkeyPacked) : Bool :=
  decide (h.minKey ≤ k.pos ∧ k.pos ≤ h.maxKey) &&
    (k.k.type != keyTypeBtreePtrV2 || btreePtrV2U64s ≤ k.k.val.length)

/-- The checks of the reader on the keys of a set, which have to be in order. -/
def readKeysValid (h : NodeHeader) : List BkeyPacked → Bool
  | [] => true
  | [k] => readKeyValid h k
  | k :: k' :: keys => readKeyValid h k && k.pos < k'.pos && readKeysValid h (k' :: keys)

/-- The reader clears the pointer into memory, the first word of the value of a node pointer. -/
def readKey (k : BkeyPacked) : BkeyPacked :=
  if k.k.type = keyTypeBtreePtrV2 then { k with k := { k.k with val := k.k.val.set 0 0 } } else k

/-- What the loop of `bch2_btree_node_read` over the sets has gathered: the sets to merge, the
sectors passed and the highest journal sequence. -/
structure ReadState where
  used : List (List BkeyPacked) := []
  written : ℕ := 0
  maxJournalSeq : ℕ := 0

/-- The entries of `sort_iter` that are taken. -/
def ReadState.usedNr (s : ReadState) : ℕ := (s.used.filter fun keys => !keys.isEmpty).length

/-- `sort_iter_stack::sets.len()`. -/
def sortIterStackSize : ℕ := maxBsets + 1

/-- The loop of `bch2_btree_node_read`: sets whose journal sequence is above `replaySeq` are
dropped, and each of the others takes an entry of the sort iterator. -/
def readLoop (h : NodeHeader) (replaySeq limit : ℕ) :
    ReadState → List DiskBset → ReadState ⊕ NodeRead
  | st, [] => .inl st
  | st, s :: rest =>
    if ¬st.written < limit ∨ (st.written ≠ 0 ∧ s.seq ≠ h.seq) then .inl st
    else if replaySeq ≠ 0 ∧ s.journalSeq > replaySeq then
      if st.written = 0 then .inr (.error (-16))
      else readLoop h replaySeq limit { st with written := st.written + s.sectors } rest
    else if readKeysValid h s.keys = false then .inr .repaired
    else if sortIterStackSize ≤ st.usedNr then .inr .panic
    else
      readLoop h replaySeq limit
        { used := st.used ++ [s.keys.map readKey]
          written := st.written + s.sectors
          maxJournalSeq := max st.maxJournalSeq s.journalSeq } rest

/-- The node that a read leaves: one written set with all keys marked as being on disk. -/
def readNode (b : BtreeNode) (st : ReadState) : BtreeNode :=
  let keys := (bch2KeySortFixOverlapping st.used).map fun k => k.mark true
  { header := b.header
    bufU64s := b.bufU64s
    ptrDev := b.ptrDev
    sets := [⟨btreeNodeU64s - bsetHeaderU64s, st.maxJournalSeq, keys⟩]
    written := st.written
    sectorsWritten := b.sectorsWritten
    needRewrite := b.sectorsWritten = 0 }

/-- `bch2_btree_node_read` of the node that the key of `b` points to. -/
def bch2BtreeNodeRead (io : NodeIo) (b : BtreeNode) (disk : NodeDisk) (replaySeq : ℕ) :
    NodeRead :=
  if !io.online ∨ b.bufU64s < sectorWords then .error (-1)
  else if b.ptrDev = none then .error (-2)
  else if b.ptrDev ≠ some io.devIdx then .error (-3)
  else if !io.inFile ∨ !io.taken then .error (-4)
  else
    match disk.header with
    | none => .error (-5)
    | some h =>
      let limit := if b.sectorsWritten ≠ 0 then b.sectorsWritten else b.bufU64s / sectorWords
      if h.seq ≠ b.header.seq then .error (-11)
      else if h.btreeId ≠ b.header.btreeId ∨ h.level ≠ b.header.level then .error (-12)
      else if h.minKey ≠ b.header.minKey ∨ h.maxKey ≠ b.header.maxKey then .error (-13)
      else if h.format.keyU64s = 0 ∨ h.format.keyU64s > bkeyU64s then .error (-14)
      else if limit > b.bufU64s / sectorWords then .error (-6)
      else
        match readLoop h replaySeq limit {} disk.bsets with
        | .inr res => res
        | .inl st => .ok (readNode { b with header := h } st)

end Subvol

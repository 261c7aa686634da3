import Mathlib.Data.Prod.Lex
import Subvol.Btree.Key
import Subvol.Lib.Merge

/-!
# Btree nodes in memory

Model of a node with its sets of keys (`bset`), its unwritten whiteouts and the place up to which
it has been written, and of the operations on them: inserting and deleting a key, dropping dead
keys, merging sets and opening a new set. Offsets into the buffer of a node are counted in 64-bit
words, as `data_offset` is.

The search trees beside a set and the node iterator only speed up the search for a position, and
`nr` only counts what the sets hold; both are replaced by what they stand for. `none` is a failed
assertion of the source.

## Main definitions

* `Bset`, `BtreeNode`.
* `bch2BtreeKeysU64sRemaining`, `wantNewBset`, `bch2BsetInitNext`, `bch2PushWhiteout`.
* `bch2BtreeBsetInsertKey`, `bch2BtreeInsertKeyLeaf`.
* `bch2SortKeys`, `bch2BtreeNodeSort`, `bch2BtreeNodeCompact`, `bch2DropWhiteouts`.
-/

namespace Subvol

open Lib

/-- `MAX_BSETS`. -/
def maxBsets : ℕ := 3

/-- The words of a sector. -/
def sectorWords : ℕ := 64

/-- The words of `btree_node`, the header of a node with its first set. -/
def btreeNodeU64s : ℕ := 20

/-- The words of `btree_node_entry`, the header of every other set on disk. -/
def btreeNodeEntryU64s : ℕ := 5

/-- The words of a `bset` header. -/
def bsetHeaderU64s : ℕ := 3

/-! ### Sets and nodes -/

/-- `bset`: a set of keys in the buffer of a node, with the offset of its header. -/
structure Bset where
  dataOffset : ℕ
  journalSeq : ℕ
  keys : List BkeyPacked
deriving DecidableEq, Repr

/-- The words of keys. -/
def keysU64s (keys : List BkeyPacked) : ℕ := (keys.map BkeyPacked.u64s).sum

namespace Bset

/-- `bset_u64s`. -/
def u64s (s : Bset) : ℕ := keysU64s s.keys

/-- `end_offset`. -/
def endOffset (s : Bset) : ℕ := s.dataOffset + bsetHeaderU64s + s.u64s

/-- The keys that are not deleted. -/
def live (s : Bset) : List BkeyPacked := s.keys.filter fun k => !k.deleted

/-- `nr.bset_u64s`. -/
def liveU64s (s : Bset) : ℕ := keysU64s s.live

/-- `bset_dead_u64s`. -/
def deadU64s (s : Bset) : ℕ := s.u64s - s.liveU64s

end Bset

/-- The header of a node: the number that ties its sets together, its tree, its level, its range
and its key format. -/
structure NodeHeader where
  seq : ℕ
  btreeId : ℕ
  level : ℕ
  minKey : Bpos
  maxKey : Bpos
  format : BkeyFormat
deriving DecidableEq, Repr

/-- `btree`: the sets in the order in which they lie in the buffer, the device of the first pointer
of its key, the whiteouts at the end of the buffer from the lowest address on, the sectors
written, the sectors that its key declares written, and the flags. -/
structure BtreeNode where
  header : NodeHeader
  bufU64s : ℕ
  sets : List Bset
  ptrDev : Option ℕ := none
  whiteouts : List BkeyPacked := []
  written : ℕ := 0
  sectorsWritten : ℕ := 0
  dirty : Bool := false
  needWrite : Bool := false
  justWritten : Bool := false
  writeIdx : Bool := false
  needRewrite : Bool := false
deriving DecidableEq, Repr

namespace BtreeNode

/-- `bset_tree_last`. -/
def last (b : BtreeNode) : Bset := b.sets.getLastD ⟨0, 0, []⟩

/-- `nsets`. -/
def nsets (b : BtreeNode) : ℕ := b.sets.length

/-- `whiteout_u64s`. -/
def whiteoutU64s (b : BtreeNode) : ℕ := keysU64s b.whiteouts

/-- `bset_written`. -/
def bsetWritten (b : BtreeNode) (s : Bset) : Bool := s.dataOffset < b.written * sectorWords

/-- The words of live keys, `nr.live_u64s`. -/
def liveU64s (b : BtreeNode) : ℕ := (b.sets.map Bset.liveU64s).sum

/-- The live keys of all sets. -/
def liveKeys (b : BtreeNode) : List BkeyPacked := b.sets.flatMap Bset.live

/-- The live key at a position. -/
def liveAt (b : BtreeNode) (p : Bpos) : Option BkeyPacked := b.liveKeys.find? fun k => k.pos = p

/-- The index of the set with a live key at a position, the place of the node iterator. -/
def liveIdx (b : BtreeNode) (p : Bpos) : Option ℕ :=
  b.sets.findIdx? fun s => s.live.any fun k => k.pos = p

/-- The live key map: position to key and value. -/
def liveMap (b : BtreeNode) (p : Bpos) : Option Bkey := (b.liveAt p).map BkeyPacked.k

end BtreeNode

/-! ### Space -/

/-- `__bch2_btree_u64s_remaining`. -/
def u64sRemaining (b : BtreeNode) (endOffset : ℕ) : ℤ :=
  (b.bufU64s : ℤ) - (endOffset + b.whiteoutU64s + 1)

/-- `bch2_btree_keys_u64s_remaining`. -/
def bch2BtreeKeysU64sRemaining (b : BtreeNode) : Option ℕ :=
  let remaining := u64sRemaining b b.last.endOffset
  if remaining < 0 then none
  else if b.written * sectorWords > b.last.dataOffset then some 0
  else some remaining.toNat

/-- `bch2_btree_node_insert_fits`. -/
def bch2BtreeNodeInsertFits (b : BtreeNode) (u64s : ℕ) : Option Bool :=
  if b.needRewrite then some false
  else (bch2BtreeKeysU64sRemaining b).map fun remaining => decide (u64s ≤ remaining)

/-- `want_new_bset`: the offset of the entry of a new set, when one is wanted. -/
def wantNewBset (blockSectors : ℕ) (b : BtreeNode) : Option ℕ :=
  let bne := max (b.written * sectorWords) b.last.endOffset
  let remaining := u64sRemaining b (bne + btreeNodeEntryU64s)
  if b.bsetWritten b.last then
    if b.written + blockSectors ≤ b.bufU64s / sectorWords then some bne else none
  else if b.last.u64s * 8 > 4096 ∧ remaining > 512 then some bne
  else none

/-- `bch2_bset_init_next`: a new empty set behind the entry header at `bne`. -/
def bch2BsetInitNext (b : BtreeNode) (bne : ℕ) : Option BtreeNode :=
  if b.nsets < maxBsets then
    let journalSeq := (b.sets.map Bset.journalSeq).foldl max 0
    some { b with sets := b.sets ++ [⟨bne + 2, journalSeq, []⟩] }
  else none

/-- Open a new set when one is wanted. -/
def openWantedBset (blockSectors : ℕ) (b : BtreeNode) : Option BtreeNode :=
  match wantNewBset blockSectors b with
  | some bne => bch2BsetInitNext b bne
  | none => some b

/-- `bch2_push_whiteout`. -/
def bch2PushWhiteout (b : BtreeNode) (pos : Bpos) : Option BtreeNode := do
  let remaining ← bch2BtreeKeysU64sRemaining b
  if remaining < bkeyU64s ∨ b.justWritten then none
  else some { b with whiteouts := whiteoutKey b.header.format pos :: b.whiteouts }

/-! ### Merging sets -/

/-- A key with the rank of the set it is in: sets that lie further back in the buffer have a
higher rank, and the whiteouts at its end the highest. -/
abbrev RankedKey := ℕ × BkeyPacked

/-- `sort_iter_add` for several sets: empty sets are left out. -/
def sortIterRuns : ℕ → List (List BkeyPacked) → List (MergeRun RankedKey)
  | _, [] => []
  | rank, [] :: rest => sortIterRuns (rank + 1) rest
  | rank, (k :: keys) :: rest =>
    ((rank, k), keys.map fun k => (rank, k)) :: sortIterRuns (rank + 1) rest

/-- `bch2_bkey_cmp_packed`: by position. -/
def cmpPacked (x : RankedKey) : Bpos := x.2.pos

/-- `bch2_sort_keys`: the live keys of sets in the order of their positions. -/
def bch2SortKeys (sets : List (List BkeyPacked)) : List BkeyPacked :=
  ((merge cmpPacked (sortIterRuns 0 sets)).map Prod.snd).filter fun k => !k.deleted

/-- `bch2_btree_node_sort` of the sets from `start` up to `stop`. -/
def bch2BtreeNodeSort (b : BtreeNode) (start stop : ℕ) : Option BtreeNode :=
  let mid := (b.sets.take stop).drop start
  match mid with
  | [] => none
  | first :: _ =>
    let keys := bch2SortKeys (mid.map Bset.keys)
    if start = 0 ∧ stop = b.nsets ∧ b.bufU64s < btreeNodeU64s + keysU64s keys then none
    else
      let merged : Bset := ⟨first.dataOffset, (mid.map Bset.journalSeq).foldl max 0, keys⟩
      some { b with sets := b.sets.take start ++ merged :: b.sets.drop stop }

/-- The index of the first set that is not written. -/
def unwrittenIdx (b : BtreeNode) : ℕ := (b.sets.takeWhile b.bsetWritten).length

/-- The first half of `bch2_btree_node_compact`: merge the unwritten sets. -/
def mergeUnwritten (b : BtreeNode) : Option BtreeNode :=
  if b.nsets - unwrittenIdx b > 1 then bch2BtreeNodeSort b (unwrittenIdx b) b.nsets else some b

/-- `bch2_btree_node_compact`: merge the unwritten sets and the written sets. -/
def bch2BtreeNodeCompact (b : BtreeNode) : Option BtreeNode := do
  let merged ← mergeUnwritten b
  if unwrittenIdx b > 1 then bch2BtreeNodeSort merged 0 (unwrittenIdx b) else some merged

/-- `compact_mode`. -/
inductive CompactMode
  | lazy
  | all
deriving DecidableEq, Repr

/-- `should_compact_bset_lazy`. -/
def shouldCompactBsetLazy (s : Bset) : Bool :=
  decide (s.deadU64s > 64 ∧ s.deadU64s * 3 > s.u64s)

/-- `should_compact_bset`. -/
def shouldCompactBset (b : BtreeNode) (s : Bset) (compacting : Bool) : CompactMode → Bool
  | .lazy => s.deadU64s ≠ 0 ∧ (shouldCompactBsetLazy s ∨ (compacting ∧ ¬b.bsetWritten s))
  | .all => s.deadU64s ≠ 0

/-- Where `bch2_drop_whiteouts` puts a set: an unwritten set moves down to the end of the set
before it, which is `prev`. -/
def dropDst (b : BtreeNode) (prev : Option ℕ) (s : Bset) : ℕ :=
  match prev with
  | some prevEnd =>
    if b.bsetWritten s then s.dataOffset else max (b.written * sectorWords) prevEnd + 2
  | none => s.dataOffset

/-- The sets left to visit by `bch2_drop_whiteouts`: they are moved, and dead keys are dropped from
the sets chosen. -/
def dropWhiteoutsFrom (b : BtreeNode) (mode : CompactMode) :
    Option ℕ → Bool → List Bset → Option (List Bset × Bool)
  | _, ret, [] => some ([], ret)
  | prev, ret, s :: rest =>
    let dst := dropDst b prev s
    let moved := ret || dst != s.dataOffset
    let compact := shouldCompactBset b s moved mode
    if compact && s.keys.any fun k => k.deleted && k.needsWhiteout then none
    else
      let s' : Bset := { s with dataOffset := dst, keys := if compact then s.live else s.keys }
      (dropWhiteoutsFrom b mode (some s'.endOffset) (moved || compact) rest).map fun r =>
        (s' :: r.1, r.2)

/-- `bch2_drop_whiteouts`, also `bch2_compact_whiteouts`: the node and whether anything moved. -/
def bch2DropWhiteouts (b : BtreeNode) (mode : CompactMode) : Option (BtreeNode × Bool) := do
  let (sets, ret) ← dropWhiteoutsFrom b mode none false b.sets
  some ({ b with sets := sets }, ret)

/-! ### Inserting a key -/

/-- A key put into the keys of a set at its place; a key at its position is replaced. -/
def insertSorted (k : BkeyPacked) : List BkeyPacked → List BkeyPacked
  | [] => [k]
  | x :: keys =>
    if x.pos < k.pos then x :: insertSorted k keys
    else if x.pos = k.pos then k :: keys
    else k :: x :: keys

/-- A change of the keys of the set with index `i`. -/
def BtreeNode.modifySet (b : BtreeNode) (i : ℕ) (f : List BkeyPacked → List BkeyPacked) :
    BtreeNode :=
  { b with sets := b.sets.modify i fun s => { s with keys := f s.keys } }

/-- The live key at a position marked deleted where it is. -/
def killAt (p : Bpos) (keys : List BkeyPacked) : List BkeyPacked :=
  keys.map fun k => if k.pos = p ∧ !k.deleted then k.kill else k

/-- The live key at a position taken out of its set: removed, or marked deleted in a set that is
not writeable. -/
def takeOut (writeable : Bool) (p : Bpos) (keys : List BkeyPacked) : List BkeyPacked :=
  if writeable then keys.filter fun k => k.pos ≠ p else killAt p keys

/-- The whiteout of a deleted key that may be on disk. -/
def pushNeededWhiteout (b : BtreeNode) (k : BkeyPacked) : Option BtreeNode :=
  if k.needsWhiteout then bch2PushWhiteout b k.pos else some b

/-- `bch2_btree_bset_insert_key`: whether the node was changed, and the node. A deletion pushes a
whiteout when the deleted key may be on disk, and an update hands that mark on; the old key is
removed from the last set and marked deleted in any other. -/
def bch2BtreeBsetInsertKey (b : BtreeNode) (insert : Bkey) (needsWhiteout : Bool) :
    Option (Bool × BtreeNode) :=
  match b.liveAt insert.p, b.liveIdx insert.p with
  | some k, some i =>
    let writeable : Bool := i + 1 = b.nsets
    if insert.deleted then do
      let b ← pushNeededWhiteout b k
      some (true, b.modifySet i (takeOut writeable insert.p))
    else do
      let stored := packKey b.header.format insert (needsWhiteout || k.needsWhiteout)
      let b := if writeable then b else b.modifySet i (killAt insert.p)
      let remaining ← bch2BtreeKeysU64sRemaining b
      if insert.u64s ≤ remaining then
        some (true, b.modifySet (b.nsets - 1) (insertSorted stored))
      else none
  | _, _ =>
    if insert.deleted then some (false, b)
    else do
      let stored := packKey b.header.format insert needsWhiteout
      let remaining ← bch2BtreeKeysU64sRemaining b
      if insert.u64s ≤ remaining then
        some (true, b.modifySet (b.nsets - 1) (insertSorted stored))
      else none

/-- Note the journal sequence of an insertion in the set with index `i`. -/
def BtreeNode.noteJournalSeq (b : BtreeNode) (i journalSeq : ℕ) : BtreeNode :=
  { b with
    sets := b.sets.modify i fun s => { s with journalSeq := max s.journalSeq journalSeq }
    dirty := true }

/-- `bch2_btree_insert_key_leaf`: insert the key, note the journal sequence, and drop dead keys
when a set has many of them. -/
def bch2BtreeInsertKeyLeaf (b : BtreeNode) (insert : Bkey) (needsWhiteout : Bool)
    (journalSeq : ℕ) : Option BtreeNode := do
  let oldU64s := b.last.u64s
  let oldLive := b.liveU64s
  let (changed, b) ← bch2BtreeBsetInsertKey b insert needsWhiteout
  if changed = false then some b
  else
    let b := b.noteJournalSeq (b.nsets - 1) journalSeq
    let liveAdded : ℤ := (b.liveU64s : ℤ) - oldLive
    let added : ℤ := (b.last.u64s : ℤ) - oldU64s
    if added > liveAdded ∧ b.sets.any shouldCompactBsetLazy then
      (bch2DropWhiteouts b .lazy).map Prod.fst
    else some b

end Subvol

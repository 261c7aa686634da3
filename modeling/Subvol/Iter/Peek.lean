import Subvol.Iter.Tree
import Subvol.Lib.Loop
import Subvol.Snapshot.Table

/-!
# Forward iterators

Model of the iterators of `iter.rs` over one tree: `bch2_btree_iter_peek_max`, with the loop that
filters snapshots and without it, `bch2_btree_iter_peek_slot` and `bch2_btree_iter_advance`. An
iterator that filters snapshots does not have `BTREE_ITER_all_snapshots`, which
`bch2_btree_iter_flags` excludes. The transaction has no staged updates and journal replay is
finished, so that the leaves hold all keys.

Every loop has a bound on its turns; `none` is a bound used up or a failed assertion.

## Main definitions

* `BtreeIter`, `Peek`.
* `bch2BtreeIterPeekMax`, built from `peekMaxStep` and `filterStep`.
* `bch2BtreeIterPeekSlot`, `bch2BtreeIterAdvance`.
* `forEachKey`: the loop of a caller.
-/

namespace Subvol

open Lib

/-- `KEY_TYPE_whiteout`. -/
def keyTypeWhiteout : ℕ := 1

/-- `KEY_TYPE_extent_whiteout`. -/
def keyTypeExtentWhiteout : ℕ := 36

/-- The types that the iterators take for a whiteout. -/
def Bkey.whiteout (k : Bkey) : Bool :=
  k.type == keyTypeDeleted || k.type == keyTypeWhiteout || k.type == keyTypeExtentWhiteout

/-- `btree_iter` with the flags that the modelled functions read. -/
structure BtreeIter where
  pos : Bpos
  snapshot : Fin (2 ^ 32)
  k : Bkey
  isExtents : Bool
  filterSnapshots : Bool
  nofilterWhiteouts : Bool
deriving DecidableEq, Repr

/-- A `bkey_s_c` that an iterator returns: no key, a key or an error. -/
inductive Peek
  | null
  | key (k : Bkey)
  | err (e : ℤ)
deriving DecidableEq, Repr

/-- `bch2_trans_iter_init` of a filtering iterator at a position with the snapshot of the iterator. -/
def bch2TransIterInit (pos : Bpos) (isExtents : Bool) : BtreeIter where
  pos := pos
  snapshot := pos.snapshot
  k := { p := pos, type := keyTypeDeleted, val := [] }
  isExtents := isExtents
  filterSnapshots := true
  nofilterWhiteouts := false

/-- `btree_iter_set_pos`. -/
def btreeIterSetPos (iter : BtreeIter) (pos : Bpos) : BtreeIter :=
  let pos := pos.withSnapshot iter.snapshot
  { iter with pos := pos, k := { iter.k with type := keyTypeDeleted, p := pos, size := 0 } }

/-- `bch2_btree_iter_set_pos`. -/
def bch2BtreeIterSetPos (iter : BtreeIter) (pos : Bpos) : BtreeIter :=
  let pos := pos.withSnapshot iter.snapshot
  { iter with pos := pos, k := { p := pos, type := keyTypeDeleted, val := [] } }

namespace BtreeIter

/-- The position at which an iterator meets a key: an extent is met where it begins, or where the
iterator already is. -/
def keyPos (iter : BtreeIter) (k : Bkey) : Bpos :=
  if iter.isExtents then max iter.pos (bkeyStartPos k) else k.p

/-- The first test for the end, which leaves out the snapshots. -/
def pastEnd (iter : BtreeIter) (stop p : Bpos) : Bool :=
  if iter.isExtents then !decide (bkeyLt p stop) else decide (bkeyLt stop p)

/-- The test for the end at a live key. It compares the snapshots too, but not those of extents. -/
def outOfRange (iter : BtreeIter) (stop p : Bpos) : Bool :=
  if iter.isExtents then !decide (bkeyLt p stop) else decide (stop < p)

/-- The test for the end that the filter makes. -/
def filterPastEnd (iter : BtreeIter) (stop p : Bpos) : Bool :=
  if iter.isExtents then decide (stop.inode < p.inode) else decide (bkeyLt stop p)

/-- The position an iterator searches for: an extents iterator looks for keys that end behind its
own position. -/
def searchKey (iter : BtreeIter) (search : Bpos) : Option Bpos :=
  if iter.isExtents ∧ ¬bkeyEq search posMax then
    (bposNosnapSuccessor search).map fun p => p.withSnapshot iter.snapshot
  else some search

end BtreeIter

/-! ### Without the filter -/

/-- What `bch2_btree_iter_peek_max` does with the first key behind the search position. -/
def peekFound (stop search : Bpos) (iter : BtreeIter) (k : Bkey) :
    Option (Turn (BtreeIter × Bpos) (BtreeIter × Peek)) :=
  let iter := { iter with k := k }
  let next := iter.keyPos k
  if iter.pastEnd stop next then
    some (.done (btreeIterSetPos iter stop, .null))
  else
    let iter := { iter with pos := next.withSnapshot iter.snapshot }
    if k.deleted then do
      let next ← if search = k.p then bposSuccessor k.p else some k.p
      if next = sposMax then some (.done (iter, .null)) else some (.next (iter, next))
    else
      let candidate := iter.keyPos k
      if iter.outOfRange stop candidate then some (.done (btreeIterSetPos iter stop, .null))
      else some (.done ({ iter with pos := candidate }, .key k))

/-- What `bch2_btree_iter_peek_max` does at the end of a leaf. -/
def peekLeafEnd (stop : Bpos) (iter : BtreeIter) (leaf : LeafNode) :
    Option (Turn (BtreeIter × Bpos) (BtreeIter × Peek)) :=
  if stop < leaf.maxKey ∨ sposMax ≤ leaf.maxKey then
    some (.done (bch2BtreeIterSetPos iter sposMax, .null))
  else (bposSuccessor leaf.maxKey).map fun search => .next (iter, search)

/-- What `bch2_btree_iter_peek_max` does with the keys left in a leaf. -/
def peekLeaf (stop search : Bpos) (iter : BtreeIter) (leaf : LeafNode) :
    List Bkey → Option (Turn (BtreeIter × Bpos) (BtreeIter × Peek))
  | [] => peekLeafEnd stop iter leaf
  | k :: _ => peekFound stop search iter k

/-- One turn of the loop of `bch2_btree_iter_peek_max`. -/
def peekMaxStep (t : Btree) (stop : Bpos) (x : BtreeIter × Bpos) :
    Option (Turn (BtreeIter × Bpos) (BtreeIter × Peek)) := do
  let search ← x.1.searchKey x.2
  match bch2BtreePathTraverseOne t search with
  | .error e => some (.done (bch2BtreeIterSetPos x.1 x.1.pos, .err e))
  | .ok leaf => (leaf.nodeIterInit search).bind (peekLeaf stop search x.1 leaf)

/-- `bch2_btree_iter_peek_max` of an iterator that does not filter snapshots. -/
def peekMax (fuel : ℕ) (t : Btree) (iter : BtreeIter) (stop : Bpos) : Option (BtreeIter × Peek) :=
  loop (peekMaxStep t stop) fuel (iter, iter.pos)

/-! ### The filter -/

/-- What the filter does with a key. -/
def filterKey (fuel : ℕ) (table : SnapshotTable) (stop : Bpos) (iter : BtreeIter) (k : Bkey) :
    Option (Turn BtreeIter (BtreeIter × Peek)) :=
  if iter.filterPastEnd stop k.p then some (.done (btreeIterSetPos iter stop, .null))
  else if k.p.snapshot < iter.snapshot then
    some (.next { iter with pos := k.p.withSnapshot iter.snapshot })
  else do
    let visible ← bch2SnapshotIsAncestor fuel table iter.snapshot k.p.snapshot
    if !visible then
      let next ← bposSuccessor k.p
      return .next { iter with pos := next }
    else if !iter.nofilterWhiteouts && k.whiteout then
      if k.type = keyTypeExtentWhiteout then
        if ¬bkeyLt k.p stop then return .done (btreeIterSetPos iter stop, .null)
        else return .next { iter with pos := k.p.withSnapshot iter.snapshot }
      else
        let next ← bposNosnapSuccessor k.p
        return .next { iter with pos := next.withSnapshot iter.snapshot }
    else return .done (iter, .key k)

/-- One turn of the loop of `bch2_btree_iter_peek_max` that filters snapshots. -/
def filterStep (fuel : ℕ) (table : SnapshotTable) (t : Btree) (stop : Bpos) (iter : BtreeIter) :
    Option (Turn BtreeIter (BtreeIter × Peek)) := do
  let x ← peekMax fuel t iter stop
  match x.2 with
  | .key k => filterKey fuel table stop x.1 k
  | ret => some (.done (x.1, ret))

/-- `bch2_btree_iter_peek_max`. -/
def bch2BtreeIterPeekMax (fuel : ℕ) (table : SnapshotTable) (t : Btree) (iter : BtreeIter)
    (stop : Bpos) : Option (BtreeIter × Peek) :=
  if iter.filterSnapshots then loop (filterStep fuel table t stop) fuel iter
  else peekMax fuel t iter stop

/-! ### Slots -/

/-- A turn of the loop of `bch2_btree_iter_peek_slot`, which passes over deleted extents. -/
def slotStep (fuel : ℕ) (table : SnapshotTable) (t : Btree) (stop : Bpos) (iter : BtreeIter) :
    Option (Turn BtreeIter (BtreeIter × Peek)) := do
  let x ← bch2BtreeIterPeekMax fuel table t iter stop
  match x.2 with
  | .key k =>
    if x.1.isExtents ∧ k.deleted then some (.next (btreeIterSetPos x.1 k.p))
    else some (.done x)
  | _ => some (.done x)

/-- The hole that `bch2_btree_iter_peek_slot` makes before a key that begins at `next`. -/
def slotHole (iter : BtreeIter) (next : Bpos) : Bkey :=
  let gap := if next.inode = iter.pos.inode then next.offset - iter.pos.offset
    else Fin.last _ - iter.pos.offset
  let size := if iter.isExtents then min (2 ^ 32 - 1) gap.val else 0
  { p := { iter.pos with offset := iter.pos.offset + Fin.ofNat (2 ^ 64) size },
    type := keyTypeDeleted, size := size, val := [] }

/-- What `bch2_btree_iter_peek_slot` returns for a key found: a hole if the key begins behind the
iterator, and a whiteout as a deleted key. -/
def slotKey (iter : BtreeIter) (k : Bkey) : BtreeIter × Peek :=
  let k' :=
    if iter.pos < bkeyStartPos k then slotHole iter (bkeyStartPos k)
    else if iter.filterSnapshots && !iter.nofilterWhiteouts && k.whiteout then
      { k with type := keyTypeDeleted }
    else k
  ({ iter with k := k' }, .key k')

/-- What `bch2_btree_iter_peek_slot` makes of the result of its inner iterator. An error is lost: the
key of the inner iterator is returned in place of it. -/
def slotResult (iter : BtreeIter) (x : BtreeIter × Peek) : BtreeIter × Peek :=
  match x.2 with
  | .null => (iter, .null)
  | .err _ => slotKey iter x.1.k
  | .key k => slotKey iter k

/-- `bch2_btree_iter_peek_slot` of an iterator that filters snapshots or is one of extents. -/
def bch2BtreeIterPeekSlot (fuel : ℕ) (table : SnapshotTable) (t : Btree) (iter : BtreeIter) :
    Option (BtreeIter × Peek) :=
  let offMax := iter.isExtents && iter.pos.offset == Fin.last _
  if offMax && iter.pos.inode == Fin.last _ then some (iter, .null)
  else do
    let iter ← if offMax then (bposNosnapSuccessor iter.pos).map (btreeIterSetPos iter)
      else some iter
    let search ← iter.searchKey iter.pos
    match bch2BtreePathTraverseOne t search with
    | .error e => some (iter, .err e)
    | .ok leaf =>
      let _ ← leaf.nodeIterInit search
      let stop := if iter.isExtents then { iter.pos with offset := Fin.last _ } else iter.pos
      (loop (slotStep fuel table t stop) fuel { iter with nofilterWhiteouts := true }).map
        (slotResult iter)

/-! ### Iteration -/

/-- `bch2_btree_iter_advance`. -/
def bch2BtreeIterAdvance (iter : BtreeIter) : Option (BtreeIter × Bool) :=
  if bkeyEq iter.k.p sposMax then some (btreeIterSetPos iter iter.k.p, false)
  else if iter.isExtents then some (btreeIterSetPos iter iter.k.p, true)
  else (bposNosnapSuccessor iter.k.p).map fun next => (btreeIterSetPos iter next, true)

/-- A turn of the loop over the keys up to an end; `none` also is an error. -/
def forEachStep (fuel : ℕ) (table : SnapshotTable) (t : Btree) (stop : Bpos)
    (x : BtreeIter × List Bkey) : Option (Turn (BtreeIter × List Bkey) (List Bkey)) := do
  let y ← bch2BtreeIterPeekMax fuel table t x.1 stop
  match y.2 with
  | .null => some (.done x.2)
  | .err _ => none
  | .key k =>
    let z ← bch2BtreeIterAdvance y.1
    if z.2 then some (.next (z.1, x.2 ++ [k])) else some (.done (x.2 ++ [k]))

/-- The keys that repeated calls of `bch2_btree_iter_peek_max` and `bch2_btree_iter_advance` give. -/
def forEachKey (fuel : ℕ) (table : SnapshotTable) (t : Btree) (iter : BtreeIter) (stop : Bpos) :
    Option (List Bkey) :=
  loop (forEachStep fuel table t stop) fuel (iter, [])

end Subvol

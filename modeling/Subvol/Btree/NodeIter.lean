import Subvol.Btree.BsetSearch
import Subvol.Btree.RwAuxRun
import Subvol.Btree.SortIter

/-!
# The node iterator

Model of `node_iter.rs` and of the step back in a set (`bset_search.rs`). An iterator over a node
has a cursor for every set that has keys left: the offset of the next key and the end of the set, in
the order of the next keys. Pointers are offsets in words from the start of the node; the list of
cursors is the part of the array that is in use.

`none` is a failed assertion of the source, a read at an offset at which no key starts, or a walk
that does not come to its end.

## Main definitions

* `IterNode`, `BtreeNodeIter`.
* `IterBset.bkeyPrev`, `IterBset.bch2BkeyPrevAll`.
* `IterNode.iterSort`, `IterNode.iterInitFromStart`, `IterNode.iterAdvance`, `IterNode.iterNextAll`,
  `IterNode.iterPeek`, `IterNode.iterPrevAll`.
* `IterNode.iterInit`: an iterator at a position.
* `IterNode.iterFix`, `IterNode.bch2BtreeNodeIterFix`.
-/

namespace Subvol

open Lib

/-! ### Sets -/

namespace IterBset

variable (s : IterBset)

/-- The loop of `__bkey_prev` over the slots of a table, down to the first key. -/
def roPrev (t : RoAuxTree) (k : ℕ) : ℕ → Option ℕ
  | 0 => if s.set.firstOffset < k then some s.set.firstOffset else none
  | j + 1 => do
    let p ← s.treeToBkey t (j + 1)
    if p < k then some p else roPrev t k j

/-- `__bkey_prev`: an offset before `k` at which a key starts, `some none` at the first key. -/
def bkeyPrev (k : ℕ) : Option (Option ℕ) :=
  if s.set.firstOffset ≤ k ∧ k ≤ s.set.endOffset then
    if k = s.set.firstOffset then some none
    else match s.aux with
      | .noAux => some (some s.set.firstOffset)
      | .ro t => (s.roPrev t k (min (t.size - 1) (s.bkeyToCacheline k))).map some
      | .rw => do
        let j ← rwAuxTreeBsearch s.set k
        if j ≠ 0 then
          let e ← s.set.tree[j - 1]?
          return some e.offset
        else return some s.set.firstOffset
  else none

/-- The walk of `bch2_bkey_prev_filter` from a key to `k`: the last key before `k`. -/
def walkTo (k : ℕ) : ℕ → List BkeyPacked → Option ℕ → Option (Option ℕ)
  | off, ks, ret =>
    if off = k then some ret
    else match ks with
      | [] => none
      | key :: rest => walkTo k (off + key.u64s) rest (some off)

/-- `bch2_bkey_prev_all`: every type of a key is at least 0, so that the first turn of
`bch2_bkey_prev_filter` finds a key and the second one only steps back. -/
def bch2BkeyPrevAll (k : ℕ) : Option (Option ℕ) := do
  match ← s.bkeyPrev k with
  | none => return none
  | some p =>
    let ret ← walkTo k p (← s.set.keysAt p) none
    let _ ← s.bkeyPrev p
    return ret

/-- The keys and the table after `bch2_bset_insert` or `bch2_bset_delete`: only a table to write to
is patched. -/
def execSet (call : BsetCall) : Option RwBset :=
  match s.aux with
  | .rw => call.exec s.set
  | _ => do
    let set ← s.set.splice call.place call.clobber (call.newKeys s.set)
    if set.endOffset ≠ s.set.endOffset then setBtreeBsetEnd set else some set

/-- The set after `bch2_bset_insert` or `bch2_bset_delete`. -/
def exec (call : BsetCall) : Option IterBset := (s.execSet call).map fun set => { s with set }

end IterBset

/-! ### Iterators -/

/-- `btree_node_iter_set`: the offset of the next key, and the end of the set. -/
structure BtreeNodeIterSet where
  k : ℕ
  stop : ℕ
deriving DecidableEq, Repr

/-- `btree_node_iter`. -/
abbrev BtreeNodeIter := List BtreeNodeIterSet

/-- `bkey_iter_cmp`. -/
abbrev bkeyIterCmp : SortCmpFn := keepWhiteoutsCmp

/-- A node, as far as its iterators go. -/
structure IterNode where
  sets : List IterBset
  level : ℕ

namespace IterNode

variable (b : IterNode)

/-- The key at an offset. -/
def keyAt (off : ℕ) : Option BkeyPacked :=
  b.sets.findSome? fun s => (s.set.keysAt off).bind List.head?

/-- `btree_node_iter_sort_two`: whether the two cursors from `first` on are swapped, and then. -/
def sortTwo (first : ℕ) (iter : BtreeNodeIter) : Option (Bool × BtreeNodeIter) := do
  let x ← iter[first]?
  let y ← iter[first + 1]?
  let kx ← b.keyAt x.k
  let ky ← b.keyAt y.k
  if bkeyIterCmp (x.k, kx) (y.k, ky) > 0 then return (true, (iter.set first y).set (first + 1) x)
  else return (false, iter)

/-- The first part of `bch2_btree_node_iter_sort`, for three cursors. -/
def sortThree (iter : BtreeNodeIter) : Option BtreeNodeIter := do
  let (_, iter) ← b.sortTwo 0 iter
  let (_, iter) ← b.sortTwo 1 iter
  return iter

/-- `bch2_btree_node_iter_sort`. -/
def iterSort (iter : BtreeNodeIter) : Option BtreeNodeIter := do
  let iter ← if 2 < iter.length then b.sortThree iter else some iter
  if 1 < iter.length then (b.sortTwo 0 iter).map Prod.snd else some iter

/-- `__bch2_btree_node_iter_push`. -/
def iterPushRaw (iter : BtreeNodeIter) (k stop : ℕ) : Option BtreeNodeIter :=
  if k = stop then some iter
  else if iter.length < maxBsets then some (iter ++ [⟨k, stop⟩])
  else none

/-- `bch2_btree_node_iter_push`. -/
def iterPush (iter : BtreeNodeIter) (k stop : ℕ) : Option BtreeNodeIter := do
  b.iterSort (← iterPushRaw iter k stop)

/-- `bch2_btree_node_iter_init_from_start`. -/
def iterInitFromStart : Option BtreeNodeIter := do
  let iter ← b.sets.foldlM (fun iter s => iterPushRaw iter s.set.firstOffset s.set.endOffset) []
  b.iterSort iter

/-- `bch2_btree_node_iter_peek_all`. -/
def iterPeekAll (iter : BtreeNodeIter) : Option ℕ := iter.head?.map BtreeNodeIterSet.k

/-- `bch2_btree_node_iter_advance`. -/
def iterAdvance : BtreeNodeIter → Option BtreeNodeIter
  | [] => none
  | x :: rest => do
    let key ← b.keyAt x.k
    let k := x.k + key.u64s
    if x.stop < k then none
    else if k = x.stop then some rest
    else if rest = [] then some [⟨k, x.stop⟩]
    else
      let (swapped, iter) ← b.sortTwo 0 (⟨k, x.stop⟩ :: rest)
      if swapped ∧ 2 < iter.length then (b.sortTwo 1 iter).map Prod.snd else some iter

/-- `bch2_btree_node_iter_next_all`: the offset of the key, if there is one. -/
def iterNextAll (iter : BtreeNodeIter) : Option (Option ℕ × BtreeNodeIter) :=
  match iterPeekAll iter with
  | none => some (none, iter)
  | some k => (b.iterAdvance iter).map (Prod.mk (some k))

/-- As many turns as a loop over the keys of a node can take. -/
def keyTurns : ℕ := (b.sets.map fun s => s.set.keys.length).sum + 1

/-- The loop of `bch2_btree_node_iter_peek`, past deleted keys. -/
def peekLoop : ℕ → BtreeNodeIter → Option (Option ℕ × BtreeNodeIter)
  | 0, _ => none
  | fuel + 1, iter =>
    match iterPeekAll iter with
    | none => some (none, iter)
    | some k => do
      let key ← b.keyAt k
      if key.deleted then peekLoop fuel (← b.iterAdvance iter) else return (some k, iter)

/-- `bch2_btree_node_iter_peek`: the offset of the next key that is not deleted, if there is one,
and the iterator at it. -/
def iterPeek (iter : BtreeNodeIter) : Option (Option ℕ × BtreeNodeIter) :=
  b.peekLoop b.keyTurns iter

/-- The loop of `bch2_btree_node_iter_init` from the start of the node, for a position that cannot
be packed. -/
def skipBelow (search : Bpos) : ℕ → BtreeNodeIter → Option BtreeNodeIter
  | 0, _ => none
  | fuel + 1, iter => do
    match ← b.iterPeek iter with
    | (none, iter) => return iter
    | (some k, iter) =>
      if 0 ≤ bkeyIterPosCmp (← b.keyAt k) search then return iter
      skipBelow search fuel (← b.iterAdvance iter)

/-- `bch2_btree_node_iter_init`, in a node with the words `w`. -/
def iterInit (w : NodeWords) (search : Bpos) : Option BtreeNodeIter :=
  if w.minKey ≤ search ∧ search ≤ w.maxKey then do
    let (ret, packed) ← KeyWords.bch2BkeyPackPosLossy (fun _ => 0) search w.format.toBkeyFormat
    if ret = .fail then b.skipBelow search b.keyTurns (← b.iterInitFromStart)
    else
      let sets := b.sets.take maxBsets
      let starts ← sets.mapM fun s => w.bch2BsetSearch s search packed
      let packedSearch := if ret = .exact then some packed else none
      let keys ← (sets.zip starts).mapM fun (s, m) =>
        w.bch2BsetSearchLinear s search packedSearch (some packed) m
      b.iterSort ((sets.zip keys).filterMap fun (s, k) =>
        if k ≠ s.set.endOffset then some ⟨k, s.set.endOffset⟩ else none)
  else none

/-- `btree_node_iter_set_find`: the cursor with an end, between those before and those behind it. -/
def setFind (stop : ℕ) :
    BtreeNodeIter → Option (BtreeNodeIter × BtreeNodeIterSet × BtreeNodeIter)
  | [] => none
  | x :: rest =>
    if x.stop = stop then some ([], x, rest)
    else (setFind stop rest).map fun (before, y, behind) => (x :: before, y, behind)

/-- `bch2_btree_node_iter_bset_pos`. -/
def bsetPos (iter : BtreeNodeIter) (s : IterBset) : ℕ :=
  match setFind s.set.endOffset iter with
  | some (_, x, _) => x.k
  | none => s.set.endOffset

/-- The loop of `bch2_btree_node_iter_prev_all` over the sets: the last key before the iterator and
the end of its set. -/
def prevLoop (iter : BtreeNodeIter) : Option (ℕ × ℕ) → List IterBset → Option (Option (ℕ × ℕ))
  | prev, [] => some prev
  | prev, s :: sets => do
    match ← s.bch2BkeyPrevAll (bsetPos iter s) with
    | none => prevLoop iter prev sets
    | some k =>
      match prev with
      | none => prevLoop iter (some (k, s.set.endOffset)) sets
      | some (p, stop) =>
        let cmp := bkeyIterCmp (k, ← b.keyAt k) (p, ← b.keyAt p)
        prevLoop iter (if cmp > 0 then some (k, s.set.endOffset) else some (p, stop)) sets

/-- `bch2_btree_node_iter_prev_all`. -/
def iterPrevAll (iter : BtreeNodeIter) : Option (Option ℕ × BtreeNodeIter) := do
  match ← b.prevLoop iter none b.sets with
  | none => return (none, iter)
  | some (k, stop) =>
    match setFind stop iter with
    | some (before, _, behind) => return (some k, ⟨k, stop⟩ :: (before ++ behind))
    | none => if iter.length < maxBsets then return (some k, ⟨k, stop⟩ :: iter) else none

/-! ### Fixing an iterator after an edit -/

/-- Whether there is a new key at an offset, and it is not below the position. -/
def newKeyAbove (pos : Bpos) (where_ new : ℕ) : Option Bool :=
  if new ≠ 0 then (b.keyAt where_).map fun k => decide (0 ≤ bkeyIterPosCmp k pos) else some false

/-- The first part of `__bch2_btree_node_iter_fix`: the cursor of the set `s` that was edited.
Offsets have 16 bits. -/
def fixSet (s : IterBset) (pos : Bpos) (iter : BtreeNodeIter) (where_ clobber new : ℕ) :
    Option BtreeNodeIter := do
  let shift : ℤ := (new : ℤ) - clobber
  let above ← b.newKeyAbove pos where_ new
  match setFind ((s.set.endOffset : ℤ) - shift).toNat iter with
  | none => if above then b.iterPush iter where_ s.set.endOffset else some iter
  | some (before, x, behind) =>
    let put (k : ℕ) : BtreeNodeIter := before ++ ⟨k, s.set.endOffset⟩ :: behind
    if where_ ≤ x.k then
      if above then b.iterSort (put where_)
      else if x.k < min (where_ + clobber) (2 ^ 16 - 1) then
        let k := min (where_ + new) (2 ^ 16 - 1)
        b.iterSort (if k = s.set.endOffset then before ++ behind else put k)
      else b.iterSort (put (((x.k : ℤ) + shift) % 2 ^ 16).toNat)
    else some (put x.k)

/-- The loop of `__bch2_btree_node_iter_fix` that steps back in a set while the keys are above the
next key of the iterator: where the set is left, and whether there was such a key. -/
def stepBack (s : IterBset) (front : RankedKey) : ℕ → ℕ → Bool → Option (ℕ × Bool)
  | 0, _, _ => none
  | fuel + 1, k, stepped => do
    match ← s.bch2BkeyPrevAll k with
    | none => return (k, stepped)
    | some p =>
      if bkeyIterCmp front (p, ← b.keyAt p) ≥ 0 then return (k, stepped)
      else stepBack s front fuel p true

/-- `btree_node_iter_set_set_pos`. -/
def setSetPos (iter : BtreeNodeIter) (s : IterBset) (k : ℕ) : Option BtreeNodeIter :=
  match setFind s.set.endOffset iter with
  | some (before, x, behind) => b.iterSort (before ++ ⟨k, x.stop⟩ :: behind)
  | none => b.iterPush iter k s.set.endOffset

/-- The loop of `__bch2_btree_node_iter_fix` over the other sets of an interior node. -/
def fixOthers (front : RankedKey) : List IterBset → BtreeNodeIter → Option BtreeNodeIter
  | [], iter => some iter
  | s :: sets, iter =>
    if iter.head?.map BtreeNodeIterSet.stop = some s.set.endOffset then fixOthers front sets iter
    else do
      let (k, stepped) ← b.stepBack s front (s.set.keys.length + 1) (bsetPos iter s) false
      let iter ← if stepped then b.setSetPos iter s k else some iter
      fixOthers front sets iter

/-- `__bch2_btree_node_iter_fix`, for the iterator of a path at `pos`. -/
def iterFix (s : IterBset) (pos : Bpos) (iter : BtreeNodeIter) (where_ clobber new : ℕ) :
    Option BtreeNodeIter := do
  let iter ← b.fixSet s pos iter where_ clobber new
  match iterPeekAll iter with
  | none => return iter
  | some k => if b.level ≠ 0 then b.fixOthers (k, ← b.keyAt k) b.sets iter else return iter

/-- `bch2_bkey_to_bset_inlined`. -/
def bch2BkeyToBset (off : ℕ) : Option IterBset := do
  let s ← b.sets.find? fun s => decide (off ≤ s.set.endOffset)
  if s.set.firstOffset ≤ off then some s else none

/-- `bch2_btree_node_iter_fix`: the iterator of the caller, when it is not one of a path, and the
iterators of all paths that are at the node, each with the position of its path. -/
def bch2BtreeNodeIterFix (own : Option (Bpos × BtreeNodeIter))
    (paths : List (Bpos × BtreeNodeIter)) (where_ clobber new : ℕ) :
    Option (Option (Bpos × BtreeNodeIter) × List (Bpos × BtreeNodeIter)) := do
  let s ← b.bch2BkeyToBset where_
  let fix (x : Bpos × BtreeNodeIter) : Option (Bpos × BtreeNodeIter) :=
    (b.iterFix s x.1 x.2 where_ clobber new).map (Prod.mk x.1)
  let own ← own.mapM fix
  let paths ← paths.mapM fix
  return (own, paths)

end IterNode

end Subvol

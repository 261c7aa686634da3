import Subvol.Btree.Pack
import Subvol.Lib.Laid
import Subvol.Lib.Lists

/-!
# The lookup table of the last set

Model of the table beside a set that is still written to (`rw_aux_tree`): entries that name keys of
the set about a cache line apart, with their positions. The table is built once and patched after
every insertion and deletion that moves keys. Offsets are counted in 64-bit words from the start of
the node, and a pointer into the set is its offset.

`none` is a failed assertion of the source, a read at an offset at which no key starts, or a call
that is not made at a key or clobbers a part of a key.

## Main definitions

* `RwAuxTree`, `RwBset`.
* `buildRwAuxTree`, `rwAuxTreeBsearch`, `bsetSearchWriteSet`.
* `rwAuxTreeInsertEntry`, `bch2BsetFixLookupTable`, `RwBset.bch2BsetInsert`,
  `RwBset.bch2BsetDelete`.
-/

namespace Subvol

open Lib

/-- `L1_CACHE_BYTES`. -/
def l1CacheBytes : ℕ := 64

/-- `rw_aux_tree`: the offset of a key and its position. -/
structure RwAuxTree where
  offset : ℕ
  k : Bpos
deriving DecidableEq, Repr

/-- The last set of a node with its table, and what is read of the node: its key format, the
size of its buffer and the place of the table in the buffer of tables. -/
structure RwBset where
  format : PackFormat
  byteOrder : ℕ
  auxDataOffset : ℕ
  dataOffset : ℕ
  keys : List BkeyPacked
  tree : List RwAuxTree

namespace RwBset

/-- `btree_bkey_first_offset`. -/
def firstOffset (s : RwBset) : ℕ := s.dataOffset + 3

/-- `end_offset`. -/
def endOffset (s : RwBset) : ℕ := s.firstOffset + total BkeyPacked.u64s s.keys

/-- `__btree_aux_data_bytes`: eight bytes for each `BSET_CACHELINE` of the node. -/
def auxDataBytes (s : RwBset) : ℕ := 2 ^ s.byteOrder / 256 * 8

/-- `bset_rw_tree_capacity`: an entry takes 24 bytes. -/
def capacity (s : RwBset) : ℕ := (s.auxDataBytes - s.auxDataOffset * 8) / 24

/-- The keys from an offset on. -/
def keysAt (s : RwBset) (off : ℕ) : Option (List BkeyPacked) :=
  itemsFrom BkeyPacked.u64s s.firstOffset s.keys off

end RwBset

/-! ### Building and searching -/

/-- The loop of `build_rw_aux_tree` over the keys from `off` on. -/
def buildLoop (capacity : ℕ) : List RwAuxTree → ℕ → List BkeyPacked → List RwAuxTree
  | tree, _, [] => tree
  | tree, off, k :: rest =>
    if tree.length = capacity then tree
    else
      let last := tree.getLastD ⟨0, k.pos⟩
      if (off - last.offset) * 8 > l1CacheBytes then
        buildLoop capacity (tree ++ [⟨off, k.pos⟩]) (off + k.u64s) rest
      else buildLoop capacity tree (off + k.u64s) rest

/-- `build_rw_aux_tree`. The position of entry 0 is not set: it is the `stale` one of the buffer. -/
def buildRwAuxTree (s : RwBset) (stale : Bpos) : RwBset :=
  { s with tree := buildLoop s.capacity [⟨s.firstOffset, stale⟩] s.firstOffset s.keys }

/-- The second loop of `rw_aux_tree_bsearch`. -/
def bsearchDown (tree : List RwAuxTree) (offset : ℕ) : ℕ → ℕ
  | 0 => 0
  | idx + 1 =>
    if (tree[idx]?.any fun e => decide (offset ≤ e.offset)) then bsearchDown tree offset idx
    else idx + 1

/-- `rw_aux_tree_bsearch`: from a guess, up past the entries below the offset and then down. -/
def rwAuxTreeBsearch (s : RwBset) (offset : ℕ) : Option ℕ :=
  let bsetOffs := offset - s.firstOffset
  let bsetU64s := s.endOffset - s.firstOffset
  let idx := if bsetU64s ≠ 0 then bsetOffs * s.tree.length / bsetU64s else 0
  if s.tree.length < idx then none
  else
    let up := idx + ((s.tree.drop idx).takeWhile fun e => decide (e.offset < offset)).length
    some (bsearchDown s.tree offset up)

/-- The loop of `bset_search_write_set`: the last index whose position is known to be below. -/
def writeSetLoop (tree : List RwAuxTree) (search : Bpos) (l r : ℕ) : ℕ :=
  if _h : l + 1 < r then
    let m := (l + r) / 2
    if (tree[m]?.any fun e => decide (bposCmp e.k search < 0)) then writeSetLoop tree search m r
    else writeSetLoop tree search l m
  else l
termination_by r - l

/-- `bset_search_write_set`: the offset from which the keys are searched one by one. -/
def bsetSearchWriteSet (s : RwBset) (search : Bpos) : Option ℕ :=
  s.tree[writeSetLoop s.tree search 0 s.tree.length]?.map RwAuxTree.offset

/-! ### Patching the table -/

/-- `rw_aux_tree_set`: the entry for the key at an offset. -/
def rwAuxTreeSet (s : RwBset) (off : ℕ) : Option RwAuxTree :=
  if off < s.endOffset then
    match s.keysAt off with
    | some (k :: _) => some ⟨off, k.pos⟩
    | _ => none
  else none

/-- The walk of `rw_aux_tree_insert_entry` from the key at `off`: the first key a cache line behind
`start`, if one comes before `stop`. -/
def walkLine (start stop : ℕ) : ℕ → List BkeyPacked → Option (Option ℕ)
  | _, [] => none
  | off, k :: rest =>
    let next := off + k.u64s
    if next = stop then some none
    else if (next - start) * 8 ≥ l1CacheBytes then some (some next)
    else walkLine start stop next rest

/-- `rw_aux_tree_insert_entry`: a new entry with index `idx` when the keys between its neighbours
take more than a cache line. -/
def rwAuxTreeInsertEntry (s : RwBset) (idx : ℕ) : Option RwBset :=
  if idx = 0 ∨ s.tree.length < idx then none
  else do
    let start ← s.tree[idx - 1]?.map RwAuxTree.offset
    let stop := (s.tree[idx]?.map RwAuxTree.offset).getD s.endOffset
    if stop < start then none
    else if s.tree.length < s.capacity ∧ (stop - start) * 8 > l1CacheBytes then do
      match ← walkLine start stop start (← s.keysAt start) with
      | none => some s
      | some off => do
        let entry ← rwAuxTreeSet s off
        some { s with tree := s.tree.insertIdx idx entry }
    else some s

/-- An offset moved by `shift`, as a `u16`. -/
def RwAuxTree.shifted (shift : ℤ) (e : RwAuxTree) : RwAuxTree :=
  { e with offset := ((e.offset + shift) % 2 ^ 16).toNat }

/-- The second part of `__bch2_bset_fix_lookup_table`: the entries from `idx` on move. -/
def fixFrom (s : RwBset) (where_ : ℕ) (shift : ℤ) (idx : ℕ) : Option RwBset :=
  if (s.tree[idx]?.any fun e => decide (e.offset ≤ where_)) then none
  else
    let collapsed := match s.tree[idx]?, s.tree[idx - 1]? with
      | some e, some prev => decide ((e.offset : ℤ) + shift = prev.offset)
      | _, _ => false
    let tree := if collapsed then s.tree.eraseIdx idx else s.tree
    rwAuxTreeInsertEntry
      { s with tree := tree.take idx ++ (tree.drop idx).map (RwAuxTree.shifted shift) } idx

/-- `__bch2_bset_fix_lookup_table`, after `clobber` words at `where_` gave way to `new` words. -/
def bch2BsetFixLookupTable (s : RwBset) (where_ clobber new : ℕ) : Option RwBset := do
  let shift : ℤ := (new : ℤ) - clobber
  let last ← s.tree.getLast?
  if where_ > last.offset then rwAuxTreeInsertEntry s s.tree.length
  else
    let idx ← rwAuxTreeBsearch s where_
    let e ← s.tree[idx]?
    if e.offset = where_ then
      if idx = 0 then fixFrom s where_ shift 1
      else if where_ < s.endOffset then do
        let entry ← rwAuxTreeSet s where_
        fixFrom { s with tree := s.tree.set idx entry } where_ shift (idx + 1)
      else if where_ = s.endOffset then
        let size := s.tree.length - 1
        rwAuxTreeInsertEntry { s with tree := s.tree.take size } size
      else none
    else fixFrom s where_ shift idx

/-! ### Insertion and deletion -/

/-- The keys behind a clobbered key, or behind no key. -/
def skipClobbered (clobber : ℕ) (keys : List BkeyPacked) : Option (List BkeyPacked) :=
  if clobber = 0 then some keys
  else match keys with
    | k :: rest => if k.u64s = clobber then some rest else none
    | [] => none

/-- The set with the clobbered key at `where_` replaced by `new`. -/
def RwBset.splice (s : RwBset) (where_ clobber : ℕ) (new : List BkeyPacked) : Option RwBset := do
  let found ← s.keysAt where_
  let rest ← skipClobbered clobber found
  some { s with keys := s.keys.take (s.keys.length - found.length) ++ (new ++ rest) }

/-- `set_btree_bset_end`: the end has to be an offset of 16 bits. -/
def setBtreeBsetEnd (s : RwBset) : Option RwBset :=
  if s.endOffset < 2 ^ 16 then some s else none

/-- `bch2_bset_insert`. The table is left alone when the key takes the room of the clobbered one. -/
def RwBset.bch2BsetInsert (s : RwBset) (where_ : ℕ) (insert : Bkey) (needsWhiteout : Bool)
    (clobber : ℕ) : Option RwBset := do
  let src := packKey s.format.toBkeyFormat insert needsWhiteout
  let s ← s.splice where_ clobber [src]
  if src.u64s ≠ clobber then do
    let s ← setBtreeBsetEnd s
    bch2BsetFixLookupTable s where_ clobber src.u64s
  else some s

/-- `bch2_bset_delete`. -/
def RwBset.bch2BsetDelete (s : RwBset) (where_ clobber : ℕ) : Option RwBset := do
  let s ← s.splice where_ clobber []
  let s ← setBtreeBsetEnd s
  bch2BsetFixLookupTable s where_ clobber 0

end Subvol

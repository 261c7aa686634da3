import Mathlib.Data.Fin.Tuple.Basic
import Subvol.Btree.RwAux
import Subvol.Util.Eytzinger

/-!
# Building the tables of a node

Model of how the tables beside the sets of a node get their places in the node's buffer of tables
(`bset_alloc_tree`) and are filled (`build_ro_aux_tree`, `build_rw_aux_tree`). A region starts where
the one of the set before ends, rounded up to a cache line. Offsets are counted in words of 64 bits.
What the entries hold is left out: a build is told by the node after it and the bytes it writes.

`none` is a failed assertion of the source, a sum, difference or product without room, or a read
behind the end of a set.

## Main definitions

* `BsetTree`, `bsetAuxTreeType`, `bsetAuxTreeBufEnd`.
* `BsetKeys`: what a build reads of a set.
* `AuxNode`, `AuxNode.bsetAllocTree`, `AuxNode.bsetTreeCapacityBytes`.
* `AuxNode.buildRwAuxTree`, `AuxNode.buildRoAuxTree`, `AuxNode.bch2BsetBuildAuxTree`,
  `AuxNode.bch2BtreeBuildAuxTrees`.
-/

namespace Subvol

open Lib

/-- `BSET_NO_AUX_TREE_VAL`. -/
def bsetNoAuxTreeVal : ℕ := 65535

/-- `BSET_RW_AUX_TREE_VAL`. -/
def bsetRwAuxTreeVal : ℕ := 65534

/-- `BSET_CACHELINE`, in bytes. -/
def bsetCacheline : ℕ := 256

/-- `size_of::<bkey_float>()`. -/
def bkeyFloatBytes : ℕ := 4

/-- `size_of::<rw_aux_tree>()`. -/
def rwAuxTreeBytes : ℕ := 24

/-- `__btree_aux_data_bytes`. -/
def btreeAuxDataBytes (byteOrder : ℕ) : ℕ := 2 ^ byteOrder / bsetCacheline * 8

/-- `bset_aux_tree_type`. -/
inductive BsetAuxTreeType
  | noAuxTree | roAuxTree | rwAuxTree
deriving DecidableEq, Repr

/-- `bset_tree`: the part of it that is about the table. -/
structure BsetTree where
  size : ℕ
  extra : ℕ
  auxDataOffset : ℕ
deriving DecidableEq, Repr

namespace BsetTree

/-- A set without a table and without a place for one. -/
def unallocated : BsetTree := ⟨0, bsetNoAuxTreeVal, 65535⟩

/-- `bset_aux_tree_type`. -/
def bsetAuxTreeType (t : BsetTree) : Option BsetAuxTreeType :=
  if t.extra = bsetNoAuxTreeVal then if t.size = 0 then some .noAuxTree else none
  else if t.extra = bsetRwAuxTreeVal then if t.size ≠ 0 then some .rwAuxTree else none
  else if t.size ≠ 0 then some .roAuxTree else none

/-- `bset_aux_tree_buf_end`. -/
def bsetAuxTreeBufEnd (t : BsetTree) : Option ℕ := do
  match ← t.bsetAuxTreeType with
  | .noAuxTree => return t.auxDataOffset
  | .roAuxTree => return t.auxDataOffset + (t.size * bkeyFloatBytes + 7) / 8
  | .rwAuxTree => return t.auxDataOffset + (rwAuxTreeBytes * t.size + 7) / 8

end BsetTree

/-- What a build reads of a set: where it is in the node, its keys, and the words between the start
of a cache line of 64 bytes and the address of the first key. Offsets have 16 bits. -/
structure BsetKeys where
  dataOffset : ℕ
  lead : Fin 8
  keys : List BkeyPacked
  u64s_pos : ∀ k ∈ keys, 0 < k.u64s
  u64s_lt : ∀ k ∈ keys, k.u64s < 2 ^ 8
  fits : dataOffset + 3 + total BkeyPacked.u64s keys < 2 ^ 16

namespace BsetKeys

/-- `btree_bkey_first_offset`. -/
def firstOffset (s : BsetKeys) : ℕ := s.dataOffset + 3

/-- `end_offset`. -/
def endOffset (s : BsetKeys) : ℕ := s.firstOffset + total BkeyPacked.u64s s.keys

/-- The words between `bset_cacheline(0)` and an offset. -/
def wordsFromLine (s : BsetKeys) (off : ℕ) : ℕ := s.lead + (off - s.firstOffset)

/-- `bkey_to_cacheline`. -/
def bkeyToCacheline (s : BsetKeys) (off : ℕ) : ℕ := s.wordsFromLine off * 8 / bsetCacheline

/-- `bkey_to_cacheline_offset`. -/
def bkeyToCachelineOffset (s : BsetKeys) (cacheline off : ℕ) : Option ℕ :=
  if cacheline * bsetCacheline ≤ s.wordsFromLine off * 8 then
    let offset := (s.wordsFromLine off * 8 - cacheline * bsetCacheline) / 8
    if offset < 2 ^ 8 then some offset else none
  else none

/-- The loop of `build_ro_aux_tree` that goes on to the first key behind a cache line. -/
def skipKeys (s : BsetKeys) (cacheline : ℕ) : ℕ → List BkeyPacked → Option (ℕ × List BkeyPacked)
  | off, [] => if s.bkeyToCacheline off < cacheline then none else some (off, [])
  | off, k :: rest =>
    if s.bkeyToCacheline off < cacheline then skipKeys s cacheline (off + k.u64s) rest
    else some (off, k :: rest)

/-- The loop of `build_ro_aux_tree` over the slots in order, from a cache line and a key on: whether
there is a key for every slot, and the slots that are written. -/
def fillSlots (s : BsetKeys) : ℕ → ℕ → List BkeyPacked → List ℕ → Option (Bool × List ℕ)
  | _, _, _, [] => some (true, [])
  | cacheline, off, ks, j :: slots => do
    let (off, ks) ← s.skipKeys cacheline off ks
    if ks = [] then return (false, [])
    let _keyOffset ← s.bkeyToCachelineOffset cacheline off
    let (full, written) ← s.fillSlots (cacheline + 1) off ks slots
    return (full, j :: written)

/-- The slots of a table of some size in order. -/
def treeSlots (size : ℕ) : Option (List ℕ) := do
  walkSlots (eytzinger1Next · size) size (← eytzinger1First size)

/-- The loop of `build_ro_aux_tree` that makes the table smaller until there is a key for every
slot, and then the one that writes the floats: size and `extra` of the table, and the slots that are
written. -/
def buildRoLoop (s : BsetKeys) : ℕ → Option (ℕ × ℕ × List ℕ)
  | 0 => some (0, bsetNoAuxTreeVal, [])
  | 1 => some (0, bsetNoAuxTreeVal, [])
  | size + 2 => do
    let extra ← eytzinger1Extra (size + 1)
    let slots ← treeSlots (size + 1)
    let (full, written) ← s.fillSlots 1 s.firstOffset s.keys slots
    if full then return (size + 2, extra % 2 ^ 16, written ++ slots)
    let (size', extra', written') ← buildRoLoop s (size + 1)
    return (size', extra', written ++ written')

end BsetKeys

/-- A node, as far as its tables go. -/
structure AuxNode where
  byteOrder : ℕ
  unpackFnLen : ℕ
  set : Fin 3 → BsetTree

namespace AuxNode

/-- A node as `bch2_btree_keys_init` leaves it. -/
def init (byteOrder : ℕ) : AuxNode := ⟨byteOrder, 0, fun _ => .unallocated⟩

/-- A node with another `bset_tree` for a set. -/
def setTree (b : AuxNode) (i : Fin 3) (t : BsetTree) : AuxNode :=
  { b with set := Function.update b.set i t }

/-- `bch2_bset_set_no_aux_tree`. -/
def bch2BsetSetNoAuxTree (b : AuxNode) (i : Fin 3) : AuxNode :=
  { b with set := fun j => if i ≤ j then .unallocated else b.set j }

/-- `bset_aux_tree_buf_start`. -/
def bsetAuxTreeBufStart (b : AuxNode) : Fin 3 → Option ℕ
  | ⟨0, _⟩ => some ((b.unpackFnLen + 7) / 8)
  | ⟨i + 1, h⟩ => (b.set ⟨i, by omega⟩).bsetAuxTreeBufEnd

/-- `bset_alloc_tree`: the start is rounded up to `SMP_CACHE_BYTES`, in `u16`. -/
def bsetAllocTree (b : AuxNode) (i : Fin 3) : Option AuxNode := do
  let b := b.bch2BsetSetNoAuxTree i
  let start ← b.bsetAuxTreeBufStart i
  let offset := (start + 7) / 8 % 2 ^ 16 * 8
  if offset < 2 ^ 16 then some (b.setTree i { b.set i with auxDataOffset := offset }) else none

/-- `bset_tree_capacity_bytes`. -/
def bsetTreeCapacityBytes (b : AuxNode) (i : Fin 3) : Option ℕ :=
  let offset := (b.set i).auxDataOffset * 8
  if offset ≤ btreeAuxDataBytes b.byteOrder then some (btreeAuxDataBytes b.byteOrder - offset)
  else none

/-- `bset_ro_tree_capacity`. -/
def bsetRoTreeCapacity (b : AuxNode) (i : Fin 3) : Option ℕ := do
  return (← b.bsetTreeCapacityBytes i) / bkeyFloatBytes

/-- `bset_rw_tree_capacity`. -/
def bsetRwTreeCapacity (b : AuxNode) (i : Fin 3) : Option ℕ := do
  return (← b.bsetTreeCapacityBytes i) / rwAuxTreeBytes

/-- The bytes of an entry of the table of a set: where they start, and how many. -/
def entryBytes (b : AuxNode) (i : Fin 3) (bytes j : ℕ) : ℕ × ℕ :=
  ((b.set i).auxDataOffset * 8 + j * bytes, bytes)

/-- `build_rw_aux_tree`. -/
def buildRwAuxTree (b : AuxNode) (i : Fin 3) (s : BsetKeys) :
    Option (AuxNode × List (ℕ × ℕ)) := do
  let capacity ← b.bsetRwTreeCapacity i
  let tree := buildLoop capacity [⟨s.firstOffset, ⟨0, 0, 0⟩⟩] s.firstOffset s.keys
  if tree.length < 2 ^ 16 then
    return (b.setTree i { b.set i with size := tree.length, extra := bsetRwAuxTreeVal },
      (List.range tree.length).map (b.entryBytes i rwAuxTreeBytes))
  else none

/-- `build_ro_aux_tree`. -/
def buildRoAuxTree (b : AuxNode) (i : Fin 3) (s : BsetKeys) :
    Option (AuxNode × List (ℕ × ℕ)) := do
  let capacity ← b.bsetRoTreeCapacity i
  let (size, extra, slots) ←
    s.buildRoLoop (min (s.bkeyToCacheline s.endOffset) capacity % 2 ^ 16)
  return (b.setTree i { b.set i with size := size, extra := extra },
    slots.map (b.entryBytes i bkeyFloatBytes))

/-- `bch2_bset_build_aux_tree`: the node after it and the bytes that are written. -/
def bch2BsetBuildAuxTree (b : AuxNode) (i : Fin 3) (s : BsetKeys) (writeable : Bool) :
    Option (AuxNode × List (ℕ × ℕ)) := do
  let type ← (b.set i).bsetAuxTreeType
  if type = (if writeable then .rwAuxTree else .roAuxTree) then return (b, [])
  let b ← b.bsetAllocTree i
  let capacity ← b.bsetTreeCapacityBytes i
  if capacity = 0 then return (b, [])
  if writeable then b.buildRwAuxTree i s else b.buildRoAuxTree i s

/-- The loop of `bch2_btree_build_aux_trees` from a set on, over the sets and whether each is
written: only a last set that is not written gets a table to write to. -/
def buildFrom (b : AuxNode) (idx : ℕ) : List (BsetKeys × Bool) → Option (AuxNode × List (ℕ × ℕ))
  | [] => some (b, [])
  | (s, written) :: rest => do
    if h : idx < 3 then
      let (b, writes) ← b.bch2BsetBuildAuxTree ⟨idx, h⟩ s (!written && rest.isEmpty)
      let (b, writes') ← b.buildFrom (idx + 1) rest
      return (b, writes ++ writes')
    else none

/-- `bch2_btree_build_aux_trees`. -/
def bch2BtreeBuildAuxTrees (b : AuxNode) (sets : List (BsetKeys × Bool)) :
    Option (AuxNode × List (ℕ × ℕ)) :=
  b.buildFrom 0 sets

/-- The bytes of the buffer of tables that a set has: from its offset to where the next region may
start. -/
def region (b : AuxNode) (i : Fin 3) : Set ℕ :=
  {x | ∃ stop, (b.set i).bsetAuxTreeBufEnd = some stop ∧
    (b.set i).auxDataOffset * 8 ≤ x ∧ x < stop * 8}

end AuxNode

end Subvol

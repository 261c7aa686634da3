import Mathlib.Data.Int.Notation
import Mathlib.Data.List.Count
import Subvol.Lib.Shelves

/-!
# The states of cached btree nodes

A cached node is in one of five states and pinned or not. Model of the functions of `cache.rs` that
move nodes between the states and the pin classes, with the lists of the cache, the counters and the
hash table. The lists are linked through the nodes; here each is the list of its nodes.

The table answers an insertion with `inserted`, zero where the node has been entered. A call that
breaks an assertion, counts below zero or misses a node in the table stops.

## Main definitions

* `CacheNode`, `BtreeCache`.
* `bch2BtreeNodeTransitionStateLocked`.
* `bch2NodePin`, `bch2BtreeCacheUnpin`, `bch2BtreeNodeSetDirty`, `bch2BtreeNodeWriteDoneClean`.
-/

namespace Subvol

open Lib

/-- `BTREE_ID_NR`. -/
def btreeIdNr : ℕ := 9

/-! ### Nodes -/

/-- `btree_node_cache_state`. -/
inductive BtreeNodeCacheState
  | none
  | clean
  | dirty
  | freeable
  | freed
deriving DecidableEq, Repr

/-- `btree`, with what the functions read of a node. -/
structure CacheNode where
  cacheState : BtreeNodeCacheState
  pinned : Bool
  dirty : Bool
  writeInFlight : Bool
  /-- The buffer is there. -/
  data : Bool
  btreeId : ℕ
  /-- `btree_ptr_hash_val` of the key of the node. -/
  ptrHashVal : UInt64
  hashVal : UInt64
  /-- The lock has counters of readers. -/
  pcpu : Bool
deriving DecidableEq

/-- The lists of the cache. -/
inductive CacheList
  | clean (pinned : Bool)
  | dirty (pinned : Bool)
  | freeable
  | freedPcpu
  | freedNonpcpu
deriving DecidableEq, Repr

/-- The counters of a pin class. -/
structure CacheLive where
  nrClean : ℕ
  nrDirty : ℕ

/-- `bch_fs_btree_cache`. -/
structure BtreeCache (N : Type) where
  nodes : N → CacheNode
  lists : CacheList → List N
  /-- `live[0]` and `live[1]`. -/
  live : Bool → CacheLive
  nrFreeable : ℕ
  nrByBtree : ℕ → ℕ
  /-- The nodes in the hash table, each with the value it was entered with. -/
  table : List (N × UInt64)

/-- Why a call stops. -/
inductive CacheStop
  | assertion
  | underflow
  | notInTable
deriving DecidableEq, Repr

/-- `btree_node_state_hashed`. -/
def btreeNodeStateHashed (state : BtreeNodeCacheState) : Bool := state = .clean || state = .dirty

/-- `btree_node_state_has_buffer`. -/
def btreeNodeStateHasBuffer (state : BtreeNodeCacheState) : Bool :=
  btreeNodeStateHashed state || state = .freeable

/-- `btree_node_live_state`. -/
def btreeNodeLiveState (n : CacheNode) : BtreeNodeCacheState :=
  if n.dirty || n.writeInFlight then .dirty else .clean

section Cache

variable {N : Type} [DecidableEq N]

namespace BtreeCache

def setNode (bc : BtreeCache N) (b : N) (n : CacheNode) : BtreeCache N :=
  { bc with nodes := Function.update bc.nodes b n }

def setLive (bc : BtreeCache N) (pinned : Bool) (live : CacheLive) : BtreeCache N :=
  { bc with live := Function.update bc.live pinned live }

@[simp] theorem setNode_nodes (bc : BtreeCache N) (b : N) (n : CacheNode) :
    (bc.setNode b n).nodes = Function.update bc.nodes b n := rfl

@[simp] theorem setNode_lists (bc : BtreeCache N) (b : N) (n : CacheNode) :
    (bc.setNode b n).lists = bc.lists := rfl

@[simp] theorem setNode_live (bc : BtreeCache N) (b : N) (n : CacheNode) :
    (bc.setNode b n).live = bc.live := rfl

@[simp] theorem setNode_nrByBtree (bc : BtreeCache N) (b : N) (n : CacheNode) :
    (bc.setNode b n).nrByBtree = bc.nrByBtree := rfl

end BtreeCache

/-- `bch2_fs_btree_cache_init_early`, with the nodes that there are. -/
def bch2FsBtreeCacheInitEarly (nodes : N → CacheNode) : BtreeCache N where
  nodes := nodes
  lists := fun _ => []
  live := fun _ => ⟨0, 0⟩
  nrFreeable := 0
  nrByBtree := fun _ => 0
  table := []

/-! ### Transitions -/

/-- A counter is taken down by one. -/
def takeOne : ℕ → Except CacheStop ℕ
  | 0 => .error .underflow
  | n + 1 => .ok n

/-- A node is entered in the table: the state that it goes to, the answer, and the cache. -/
def hashNode (bc : BtreeCache N) (b : N) (new : BtreeNodeCacheState) (inserted : ℤ) :
    BtreeNodeCacheState × ℤ × BtreeCache N :=
  let n := bc.nodes b
  if inserted ≠ 0 then (.freeable, inserted, bc.setNode b { n with hashVal := 0 })
  else
    let bc := { bc.setNode b { n with hashVal := n.ptrHashVal } with
      table := (b, n.ptrHashVal) :: bc.table }
    if n.btreeId < btreeIdNr then
      (new, 0, { bc with
        nrByBtree := Function.update bc.nrByBtree n.btreeId (bc.nrByBtree n.btreeId + 1) })
    else (new, 0, bc)

/-- A node is taken out of the table. -/
def unhashNode (bc : BtreeCache N) (b : N) : Except CacheStop (BtreeCache N) :=
  let n := bc.nodes b
  if (b, n.hashVal) ∈ bc.table then
    let bc := { bc.setNode b { n with hashVal := 0 } with table := bc.table.erase (b, n.hashVal) }
    if n.btreeId < btreeIdNr then
      (takeOne (bc.nrByBtree n.btreeId)).map fun nr =>
        { bc with nrByBtree := Function.update bc.nrByBtree n.btreeId nr }
    else .ok bc
  else .error .notInTable

/-- The change of the hash table in a transition. -/
def rehashNode (bc : BtreeCache N) (b : N) (old new : BtreeNodeCacheState) (inserted : ℤ) :
    Except CacheStop (BtreeNodeCacheState × ℤ × BtreeCache N) :=
  if btreeNodeStateHashed new ∧ ¬btreeNodeStateHashed old then .ok (hashNode bc b new inserted)
  else if btreeNodeStateHashed old ∧ ¬btreeNodeStateHashed new then
    (unhashNode bc b).map fun bc => (new, 0, bc)
  else .ok (new, 0, bc)

/-- What leaving a state takes from the counters. -/
def uncountNode (bc : BtreeCache N) (b : N) (old : BtreeNodeCacheState) :
    Except CacheStop (BtreeCache N) :=
  let pinned := (bc.nodes b).pinned
  let live := bc.live pinned
  match old with
  | .clean => (takeOne live.nrClean).map fun nr => bc.setLive pinned { live with nrClean := nr }
  | .dirty => (takeOne live.nrDirty).map fun nr => bc.setLive pinned { live with nrDirty := nr }
  | .freeable => (takeOne bc.nrFreeable).map fun nr => { bc with nrFreeable := nr }
  | .none => .ok bc
  | .freed => .ok bc

/-- `bch2_btree_node_data_free`. -/
def bch2BtreeNodeDataFree (bc : BtreeCache N) (b : N) : Except CacheStop (BtreeCache N) :=
  let n := bc.nodes b
  if n.writeInFlight then .error .assertion else .ok (bc.setNode b { n with data := false })

/-- What entering a state adds to the counters and the lists. -/
def countNode (bc : BtreeCache N) (b : N) (new : BtreeNodeCacheState) :
    Except CacheStop (BtreeCache N) :=
  let pinned := (bc.nodes b).pinned
  let live := bc.live pinned
  match new with
  | .none => .ok bc
  | .clean => .ok { bc.setLive pinned { live with nrClean := live.nrClean + 1 } with
      lists := putLast bc.lists (.clean pinned) b }
  | .dirty => .ok { bc.setLive pinned { live with nrDirty := live.nrDirty + 1 } with
      lists := putLast bc.lists (.dirty pinned) b }
  | .freeable => .ok { bc with
      nrFreeable := bc.nrFreeable + 1
      lists := putFirst bc.lists .freeable b }
  | .freed => (bch2BtreeNodeDataFree bc b).map fun bc =>
      let list := if (bc.nodes b).pcpu then .freedPcpu else .freedNonpcpu
      { bc with lists := putLast bc.lists list b }

/-- `bch2_btree_node_transition_state_locked`: what it returns, and the cache. -/
def bch2BtreeNodeTransitionStateLocked (bc : BtreeCache N) (b : N) (new : BtreeNodeCacheState)
    (inserted : ℤ) : Except CacheStop (ℤ × BtreeCache N) :=
  let n := bc.nodes b
  let old := n.cacheState
  if old = new then .ok (0, bc)
  else if ¬(¬btreeNodeStateHasBuffer old ∨ n.data) ∨ ¬(¬btreeNodeStateHasBuffer new ∨ n.data) ∨
      ¬(btreeNodeStateHashed new ∨ ¬n.dirty) then .error .assertion
  else do
    let (new, ret, bc) ← rehashNode bc b old new inserted
    let bc ← uncountNode bc b old
    let bc ← countNode { bc with lists := takeOff bc.lists b } b new
    return (ret, bc.setNode b { bc.nodes b with cacheState := new })

/-! ### Calls -/

/-- `bch2_node_pin`; `root` tells whether the node is the root of its btree. -/
def bch2NodePin (bc : BtreeCache N) (b : N) (root : Bool) : Except CacheStop (BtreeCache N) :=
  let n := bc.nodes b
  if ¬root ∧ ¬n.pinned then
    let bc := bc.setNode b { n with pinned := true }
    match n.cacheState with
    | .clean => (takeOne (bc.live false).nrClean).map fun nr =>
        let bc := bc.setLive false { bc.live false with nrClean := nr }
        let bc := bc.setLive true { bc.live true with nrClean := (bc.live true).nrClean + 1 }
        { bc with lists := putLast (takeOff bc.lists b) (.clean true) b }
    | .dirty => (takeOne (bc.live false).nrDirty).map fun nr =>
        let bc := bc.setLive false { bc.live false with nrDirty := nr }
        let bc := bc.setLive true { bc.live true with nrDirty := (bc.live true).nrDirty + 1 }
        { bc with lists := putLast (takeOff bc.lists b) (.dirty true) b }
    | _ => .ok bc
  else .ok bc

/-- The loop of `bch2_btree_cache_unpin` over the nodes of a list. -/
def clearPinned (nodes : N → CacheNode) : List N → N → CacheNode
  | [] => nodes
  | b :: next => clearPinned (Function.update nodes b { nodes b with pinned := false }) next

/-- `bch2_btree_cache_unpin`. -/
def bch2BtreeCacheUnpin (bc : BtreeCache N) : BtreeCache N :=
  let nodes := clearPinned bc.nodes (bc.lists (.clean true))
  let nodes := clearPinned nodes (bc.lists (.dirty true))
  let lists := spliceTail bc.lists (.clean true) (.clean false)
  let lists := spliceTail lists (.dirty true) (.dirty false)
  let unpinned := { bc.live false with
    nrClean := (bc.live false).nrClean + (bc.live true).nrClean
    nrDirty := (bc.live false).nrDirty + (bc.live true).nrDirty }
  { bc with nodes, lists, live := fun pinned => if pinned then ⟨0, 0⟩ else unpinned }

/-- `bch2_btree_node_set_dirty`. -/
def bch2BtreeNodeSetDirty (bc : BtreeCache N) (b : N) (inserted : ℤ) :
    Except CacheStop (BtreeCache N) :=
  let n := bc.nodes b
  if n.dirty then .ok bc
  else
    let bc := bc.setNode b { n with dirty := true }
    if btreeNodeStateHashed n.cacheState then
      (bch2BtreeNodeTransitionStateLocked bc b .dirty inserted).map Prod.snd
    else .ok bc

/-- `bch2_btree_node_write_done_clean`. -/
def bch2BtreeNodeWriteDoneClean (bc : BtreeCache N) (b : N) (inserted : ℤ) :
    Except CacheStop (BtreeCache N) :=
  let n := bc.nodes b
  if btreeNodeStateHashed n.cacheState then
    (bch2BtreeNodeTransitionStateLocked bc b (btreeNodeLiveState n) inserted).map Prod.snd
  else .ok bc

end Cache

end Subvol

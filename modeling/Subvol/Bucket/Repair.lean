import Subvol.Bucket.Index
import Subvol.Extent.Trigger

/-!
# Repairing the indexes of buckets

Model of `repair_derived_indexes`: the entries that the freespace tree and the tree of buckets to
discard should have are derived from the alloc tree, entries that should not be there are deleted
and missing ones inserted, each in a transaction of its own that is repeated while it restarts. Both
trees may hold keys of any type, and only those of type `set` count as entries.

A commit runs the triggers of the key it overwrites where the type of the node has them, and a leaf
without room is split or merged first, which may take buckets for new nodes from the free ones. What
an attempt meets is its environment. `none` stands for a repair whose transactions are still being
repeated.

## Main definitions

* `BitTree`, `AllocKey`, `RepairFs`, `RepairFs.verifyBucketIndexes`.
* `RepairEnv`, `RepairFs.transCommit`, `RepairFs.bitModSync`.
* `RepairFs.repairDerivedIndexes`.
-/

namespace Subvol

open Lib

/-! ### Trees -/

/-- `KEY_TYPE_set`. -/
def keyTypeSet : ℕ := 25

/-- The trees whose keys are entries of an index. -/
inductive BitTree
  | freespace
  | needDiscard
deriving DecidableEq, Repr

/-- The id of a tree. -/
def BitTree.id : BitTree → ℕ
  | .freespace => 5
  | .needDiscard => 6

/-- A key of the alloc tree. -/
inductive AllocKey
  | v4 (a : BchAllocV4)
  | other (type : ℕ) (words : List UInt64)
deriving DecidableEq, Repr

/-- The value of a key of type `alloc_v4`. -/
def AllocKey.v4? : AllocKey → Option BchAllocV4
  | v4 a => some a
  | other _ _ => none

/-- A key of type `set`, as `bch2_btree_bit_mod` makes it. -/
def bitKey : LeafKey := { size := 0, val := .other keyTypeSet [] }

/-- The key that `bch2_btree_bit_mod` puts at a position, `none` for a deletion. -/
def bitValue (set : Bool) : Option LeafKey := if set then some bitKey else none

/-- The key is an entry of an index. -/
def LeafKey.isSet (k : LeafKey) : Bool :=
  match k.val with
  | .other type _ => type == keyTypeSet
  | _ => false

/-- What a repair reads and writes: the devices, the alloc tree, the two indexes and the
backpointers, all at positions of snapshot 0, and the keys of the other trees. -/
structure RepairFs where
  ctx : TriggerCtx
  superblock : Bool := true
  alloc : OrdMap BucketPos AllocKey := .empty
  bits : BitTree → OrdMap BucketPos LeafKey := fun _ => .empty
  backpointers : OrdMap BucketPos Backpointer := .empty
  primary : PtrTree → Bpos → Option LeafKey := fun _ _ => none

namespace RepairFs

/-- The entries of an index. -/
def setPositions (fs : RepairFs) (tree : BitTree) : List BucketPos :=
  ((fs.bits tree).entries.filter fun e => e.2.isSet).map Prod.fst

/-- What `verify_bucket_indexes` scans. -/
def bucketFs (fs : RepairFs) : BucketFs where
  members := fs.ctx.members
  alloc := fs.alloc.mapSome AllocKey.v4?
  freespace := (fs.setPositions .freespace).toFinset
  needDiscard := (fs.setPositions .needDiscard).toFinset

/-- `verify_bucket_indexes`. -/
def verifyBucketIndexes (fs : RepairFs) : Option IndexMismatch :=
  Subvol.verifyBucketIndexes fs.bucketFs

/-- The file system with another index. -/
def withBits (fs : RepairFs) (tree : BitTree) (t : OrdMap BucketPos LeafKey) : RepairFs :=
  { fs with bits := Function.update fs.bits tree t }

/-- An index with a key put at a position, or none. -/
def setBit (fs : RepairFs) (tree : BitTree) (p : BucketPos) (k : Option LeafKey) : RepairFs :=
  fs.withBits tree ((fs.bits tree).put p k)

/-- A bucket that was free is taken for a node. -/
def takeBucket (fs : RepairFs) (p : BucketPos) : RepairFs :=
  match fs.alloc.get p with
  | some (.v4 a) =>
    if a.dataType = .free then
      { fs with alloc := fs.alloc.put p (some (.v4 a.taken)) }.setBit .freespace
        (allocFreespacePos p a) none
    else fs
  | _ => fs

/-- Buckets that were free are taken, one after the other. -/
def takeBuckets (fs : RepairFs) (ps : List BucketPos) : RepairFs := ps.foldl takeBucket fs

end RepairFs

/-! ### Transactions -/

/-- An update of a transaction. -/
inductive RepairUpdate
  | bit (tree : BitTree) (p : BucketPos) (set : Bool)
  | alloc (p : BucketPos) (a : BchAllocV4)
  | dropBackpointer (p : BucketPos)
deriving DecidableEq, Repr

/-- `btree_trigger_order`, by which the updates of a transaction are sorted. -/
def RepairUpdate.sortOrder : RepairUpdate → ℕ
  | .bit .freespace _ _ => 5
  | .dropBackpointer _ => 8
  | .bit .needDiscard _ _ => 254
  | .alloc _ _ => 255

/-- The trees with an update made. -/
def RepairFs.update (fs : RepairFs) : RepairUpdate → RepairFs
  | .bit tree p set => fs.setBit tree p (bitValue set)
  | .alloc p a => { fs with alloc := fs.alloc.put p (some (.v4 a)) }
  | .dropBackpointer p => { fs with backpointers := fs.backpointers.put p none }

/-- What a leaf without room, or with too few keys, comes to: the buckets that are taken for new
nodes, and the value that is returned. -/
structure Restructure where
  takes : List BucketPos := []
  ret : ℤ := 0
deriving DecidableEq, Repr

/-- What one attempt meets: the value of the staging of the update, of the restarts that are
injected, and of everything between the checks of the room and the insertions, and, for every
update, a split at the first check, a merge, and a split at the second check. -/
structure RepairEnv where
  stage : ℤ := 0
  whiteout : Bool := false
  start : ℤ := 0
  check : RepairUpdate → Option Restructure := fun _ => none
  merge : RepairUpdate → Restructure := fun _ => {}
  prepare : ℤ := 0
  insert : RepairUpdate → Option Restructure := fun _ => none
  realloc : Bool := false

/-- The value of a commit that had to split a leaf. -/
def Restructure.afterSplit (r : Restructure) : ℤ := if r.ret ≠ 0 then r.ret else -4

/-- `btree_node_type_has_trans_triggers`. -/
def btreeNodeTypeHasTransTriggers (type : ℕ) : Bool :=
  type == 0 || type == 1 || type == 2 || type == 5 || type == 7 || type == 8

/-- The pointers whose triggers are run when a key is overwritten by one without pointers; the
leaves of a tree have the type one above its id. -/
def overwrittenPtrs (tree : BitTree) (old : Option LeafKey) : List ExtentPtr :=
  if btreeNodeTypeHasTransTriggers (tree.id + 1) && keyTriggerKind old == 2 then
    (bch2BkeyPtrsC old).filterMap fun
      | .ptr _ _ p => some p
      | _ => none
  else []

namespace RepairFs

variable (fs : RepairFs)

/-- `trigger_read_alloc`: an alloc key that the transaction has staged, or the one in the tree. -/
def triggerReadAlloc (staged : List RepairUpdate) (p : BucketPos) : BchAllocV4 :=
  let found := staged.findSome? fun
    | .alloc q a => if q = p then some a else none
    | _ => none
  (found <|> (fs.alloc.get p).bind AllocKey.v4?).getD {}

/-- `trigger_pointer_derived`, for a pointer that is removed. -/
def triggerPointerRemoved (size : ℕ) (staged : List RepairUpdate) (ptr : ExtentPtr) :
    Option (List RepairUpdate) :=
  let pos : BucketPos := ⟨(allocPos fs.ctx ptr).1, (allocPos fs.ctx ptr).2⟩
  let a := fs.triggerReadAlloc staged pos
  if size ≤ a.dirtySectors then
    some (.alloc pos { a with
        gen := if a.gen = 0 then Fin.ofNat 256 ptr.gen else a.gen
        dirtySectors := a.dirtySectors - size } ::
      .dropBackpointer ⟨ptr.dev, ptr.offset⟩ :: staged)
  else none

/-- The triggers of an update that overwrites a key: the updates they stage, the latest first. -/
def runTriggers (tree : BitTree) (p : BucketPos) : Option (List RepairUpdate) :=
  let old := (fs.bits tree).get p
  let ptrs := (overwrittenPtrs tree old).filter fun ptr => triggerPointerValidate fs.ctx ptr
  ptrs.foldlM (fs.triggerPointerRemoved ((old.map LeafKey.size).getD 0)) []

end RepairFs

namespace RepairEnv

variable (env : RepairEnv)

/-- The first check of the room in the leaves. -/
def checkRoom : RepairFs → List RepairUpdate → RepairFs × ℤ
  | fs, [] => (fs, 0)
  | fs, u :: us =>
    match env.check u with
    | some r => (fs.takeBuckets r.takes, r.afterSplit)
    | none =>
      let fs := fs.takeBuckets (env.merge u).takes
      if (env.merge u).ret ≠ 0 then (fs, (env.merge u).ret) else checkRoom fs us

/-- The insertions, each behind its check of the room. -/
def insertAll : RepairFs → List RepairUpdate → RepairFs × ℤ
  | fs, [] => (fs, 0)
  | fs, u :: us =>
    match env.insert u with
    | some r => (fs.takeBuckets r.takes, r.afterSplit)
    | none => insertAll (fs.update u) us

/-- Whether the tree already holds what the update says; a deletion of a key that is not there only
counts if the deleted key is still in its place. -/
def noop (fs : RepairFs) (tree : BitTree) (p : BucketPos) : Bool → Bool
  | true => decide ((fs.bits tree).get p = some bitKey)
  | false => ((fs.bits tree).get p).isNone && env.whiteout

/-- `bch2_btree_bit_mod` and `bch2_trans_commit`: one attempt. -/
def transCommit (fs : RepairFs) (tree : BitTree) (p : BucketPos) (set : Bool) : RepairFs × ℤ :=
  if env.stage ≠ 0 then (fs, env.stage)
  else if env.start ≠ 0 then (fs, env.start)
  else if env.noop fs tree p set then (fs, 0)
  else
    match fs.runTriggers tree p with
    | none => (fs, -1)
    | some staged =>
      let us := (.bit tree p set :: staged.reverse).insertionSort (·.sortOrder ≤ ·.sortOrder)
      let (fs, ret) := env.checkRoom fs us
      if ret ≠ 0 then (fs, ret)
      else if env.prepare ≠ 0 then (fs, env.prepare)
      else env.insertAll fs us

/-- Whether a transaction is repeated after this value. -/
def restarts (ret : ℤ) : Bool := decide (ret = -4) || (decide (ret = -12) && env.realloc)

end RepairEnv

namespace RepairFs

/-- `bit_mod_sync`, with the environments of its attempts: the value it ends with. -/
def bitModSync : List RepairEnv → RepairFs → BitTree → BucketPos → Bool → Option (ℤ × RepairFs)
  | [], _, _, _, _ => none
  | env :: envs, fs, tree, p, set =>
    let (fs, ret) := env.transCommit fs tree p set
    if env.restarts ret then bitModSync envs fs tree p set else some (ret, fs)

/-- Entries that are deleted or inserted, each in a transaction, up to one that fails. -/
def bitModAll (envs : BitTree → BucketPos → List RepairEnv) (tree : BitTree) :
    List (BucketPos × Bool) → RepairFs → Option (Option ℤ × RepairFs)
  | [], fs => some (none, fs)
  | (p, set) :: rest, fs => do
    let (ret, fs) ← bitModSync (envs tree p) fs tree p set
    if ret ≠ 0 then return (some ret, fs)
    bitModAll envs tree rest fs

/-- A set of positions in their order. -/
def posSet (ps : List BucketPos) : OrdMap BucketPos Unit := OrdMap.empty.setAll (ps.map (·, ()))

/-- The keys of type `alloc_v4`. -/
def allocKeys (fs : RepairFs) : List (BucketPos × BchAllocV4) :=
  (fs.alloc.mapSome AllocKey.v4?).entries

/-- The entries that a tree should have. -/
def expected (fs : RepairFs) : BitTree → OrdMap BucketPos Unit
  | .freespace =>
    posSet ((fs.allocKeys.filter fun e => e.2.dataType = .free).map
      fun e => allocFreespacePos e.1 e.2)
  | .needDiscard =>
    posSet ((fs.allocKeys.filter fun e => e.2.dataType = .needDiscard).map Prod.fst)

/-- One index: entries that should not be there are deleted, missing ones inserted. -/
def repairIndex (envs : BitTree → BucketPos → List RepairEnv) (tree : BitTree)
    (expected : OrdMap BucketPos Unit) (fs : RepairFs) : Option (Option ℤ × RepairFs) :=
  let stale := (fs.setPositions tree).filter fun p => (expected.get p).isNone
  let missing := (expected.entries.map Prod.fst).filter fun p => p ∉ fs.setPositions tree
  bitModAll envs tree (stale.map (·, false) ++ missing.map (·, true)) fs

/-- `repair_derived_indexes` without injected faults: the value it fails with, or none. -/
def repairDerivedIndexes (envs : BitTree → BucketPos → List RepairEnv) (fs : RepairFs) :
    Option (Option ℤ × RepairFs) := do
  if !fs.superblock then return (some (-1), fs)
  -- both sets are derived before anything is repaired
  let expectedIndex := fs.expected .freespace
  let expectedNeedDiscard := fs.expected .needDiscard
  let (err, fs) ← repairIndex envs .freespace expectedIndex fs
  if err.isSome then return (err, fs)
  repairIndex envs .needDiscard expectedNeedDiscard fs

end RepairFs

end Subvol

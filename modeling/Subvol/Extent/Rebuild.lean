import Mathlib.Data.Finset.Image
import Mathlib.Data.Fintype.Basic
import Mathlib.Data.Fintype.Sets
import Mathlib.Data.Nat.Bitwise
import Mathlib.Data.Prod.Lex
import Subvol.Extent.Derived
import Subvol.Iter.Walk
import Subvol.Lib.OrdMap

/-!
# Rebuilding the derived trees

Model of `rebuild_derived_state`, which the engine runs behind the replay of the journal, and of the
check that follows it, `check_extents_to_backpointers`. The rebuild clears the alloc tree, the
freespace tree and the backpointers and runs the triggers of all primary keys again; some fields of
the alloc keys that were there before are restored. The check walks over the primary keys once more
and compares what it counts with the two trees.

A tree is the map of its live keys, walked as in `Iter/Walk.lean`. The alloc tree and the
backpointers hold keys of their own type with snapshot zero, and the trees of bits, the freespace
tree and the buckets to discard, keys of type `set`, in which neither function finds a pointer. A
transaction of the rebuild is repeated for memory before it has changed anything; one that fails in
another way, or that splits or merges a node, ends the rebuild with an error. What makes a
transaction fail apart from its triggers is left out.

## Main definitions

* `RebuildFs`, `RebuildFs.primaryPtrs`.
* `rebuildDerivedState`, built from `triggerInsert`, `restoreAlloc` and `rebuildFreespace`.
* `checkExtentsToBackpointers`, built from `expectPtr`.
-/

namespace Subvol

open Lib

deriving instance DecidableEq for Backpointer

/-! ### The trees -/

/-- The trees of primary keys with pointers: those of `PtrTree` but the freespace tree. -/
abbrev PrimaryTree := {b : PtrTree // b.val ≠ 5}

theorem primaryTree_extents : (⟨0, ptrTree_extents⟩ : PtrTree).val ≠ 5 := by decide

/-- The primary trees in the order of their ids. -/
def primaryTrees : List PrimaryTree :=
  [⟨⟨0, ptrTree_extents⟩, primaryTree_extents⟩, ⟨⟨1, by decide⟩, by decide⟩,
    ⟨⟨2, by decide⟩, by decide⟩, ⟨⟨3, by decide⟩, by decide⟩, ⟨⟨7, by decide⟩, by decide⟩]

theorem mem_primaryTrees : ∀ b : PrimaryTree, b ∈ primaryTrees := by decide

/-- What the rebuild and the check read and write: the members of the superblock, the live keys of
the primary trees, the freespace tree, the alloc tree and the backpointers. -/
structure RebuildFs where
  devs : TriggerCtx
  keys : PrimaryTree → OrdMap Bpos LeafKey := fun _ => .empty
  freespace : Finset (ℕ × ℕ) := ∅
  alloc : OrdMap (ℕ ×ₗ ℕ) BucketAlloc := .empty
  backpointers : OrdMap (ℕ ×ₗ ℕ) Backpointer := .empty

namespace RebuildFs

/-- The alloc tree and the backpointers as the triggers see them. -/
def derived (fs : RebuildFs) : Derived where
  alloc p := fs.alloc.get (toLex p)
  backpointers p := fs.backpointers.get (toLex p)

/-- The keys of a tree that `scan_raw_locked` returns: its iterator has no flag but `intent`. -/
def scanRawLocked (fs : RebuildFs) (b : PrimaryTree) : List (Bpos × LeafKey) :=
  walk Prod.fst advanceSlot (some posMin) (fs.keys b).entries

/-- The keys of a tree that the iterator of the rebuild returns, one over all snapshots. -/
def scanAllSnapshots (fs : RebuildFs) (b : PrimaryTree) : List (Bpos × LeafKey) :=
  walk Prod.fst advanceAll (some posMin) (fs.keys b).entries

/-- The pointers of all primary keys. -/
def primaryPtrs (fs : RebuildFs) : List LivePtr :=
  primaryTrees.flatMap fun b =>
    (fs.keys b).entries.flatMap fun k => livePtrs (b.val, k.1) (some k.2)

end RebuildFs

/-! ### The rebuild -/

/-- `DerivedStateMismatch`. -/
inductive DerivedStateMismatch
  | invalidPointer
  | generation
  | duplicateBackpointer
  | allocSet
  | backpointerSet
deriving DecidableEq, Repr

/-- The errors of `EngineError` that a rebuild and its check return. -/
inductive RebuildError
  | transaction (ret : ℤ)
  | journal (ret : ℤ)
  | derivedState (mismatch : DerivedStateMismatch)
deriving DecidableEq, Repr

/-- The trigger for a pointer that is inserted, with the alloc key and the backpointer it writes put
into the trees. -/
def triggerInsert (fs : RebuildFs) (l : LivePtr) : Option RebuildFs :=
  (triggerPointer fs.devs fs.derived ⟨true, l⟩).map fun d =>
    let pos := allocPos fs.devs l.ptr
    { fs with
      alloc := fs.alloc.set (toLex pos) ((d.alloc pos).getD {})
      backpointers := fs.backpointers.set (toLex l.bpPos) l.backpointer }

/-- `bch2_rebuild_derived_for_key`: the triggers of a key that takes the place of a deleted one. -/
def bch2RebuildDerivedForKey (b : PrimaryTree) (fs : RebuildFs) (k : Bpos × LeafKey) :
    Option RebuildFs :=
  if keyTriggerKind (some k.2) ≠ 2 then some fs
  else ((bch2TriggerExtent (b.val, k.1) none (some k.2)).map PtrOp.live).foldlM triggerInsert fs

/-- The keys of a tree, read before the first of them is rebuilt. -/
def rebuildTree (fs : RebuildFs) (b : PrimaryTree) : Option RebuildFs :=
  (fs.scanAllSnapshots b).foldlM (bch2RebuildDerivedForKey b) fs

/-- `bch2_clear_derived_tree` for the three derived trees. -/
def clearDerivedTrees (fs : RebuildFs) : RebuildFs :=
  { fs with freespace := ∅, alloc := .empty, backpointers := .empty }

/-- The fields `oldest_gen` and `data_type` of an alloc key. They are the first of those that a
trigger only copies; a word that is not there is zero. -/
def BucketAlloc.oldestGen (a : BucketAlloc) : UInt64 := a.rest.getD 0 0

@[inherit_doc BucketAlloc.oldestGen]
def BucketAlloc.dataType (a : BucketAlloc) : UInt64 := a.rest.getD 1 0

/-- The alloc key that is written back for one that was there before: the rebuilt one, or the old
one if the rebuild made none, with three fields of the old one. -/
def BucketAlloc.restored (old : BucketAlloc) (rebuilt : Option BucketAlloc) : BucketAlloc :=
  let alloc := rebuilt.getD old
  { alloc with gen := old.gen, rest := old.oldestGen :: old.dataType :: alloc.rest.drop 2 }

/-- The alloc keys that were there before the rebuild, written back. -/
def restoreAlloc (preserved : OrdMap (ℕ ×ₗ ℕ) BucketAlloc) (fs : RebuildFs) : RebuildFs :=
  let restored := preserved.entries.map fun e => (e.1, e.2.restored (fs.alloc.get e.1))
  { fs with alloc := fs.alloc.setAll restored }

/-- `alloc_freespace_pos`. -/
def bucketFreespacePos (p : ℕ × ℕ) (a : BucketAlloc) : ℕ × ℕ :=
  let gcGen := (a.gen + 256 - a.oldestGen.toNat % 256) % 256
  (p.1, p.2 ||| gcGen / 2 ^ 4 * 2 ^ 56)

/-- The freespace tree made from the alloc keys of free buckets; `BCH_DATA_FREE` is zero. -/
def rebuildFreespace (fs : RebuildFs) : RebuildFs :=
  let free := fs.alloc.entries.filter fun e => e.2.dataType = 0
  { fs with freespace := (free.map fun e => bucketFreespacePos (ofLex e.1) e.2).toFinset }

/-- `rebuild_derived_state`; `fault` is `RecoveryFaultPoint::DuringDerivedRebuild`. -/
def rebuildDerivedState (fs : RebuildFs) (fault : Bool) : Except RebuildError RebuildFs :=
  if !fs.devs.membersV2 then .ok fs
  else if fault then .error (.journal (-4))
  else
    match primaryTrees.foldlM rebuildTree (clearDerivedTrees fs) with
    | none => .error (.transaction (-1))
    | some rebuilt => .ok (rebuildFreespace (restoreAlloc fs.alloc rebuilt))

/-! ### The check -/

/-- What the check expects: the generation and the sectors of every bucket, and the backpointers. -/
structure ExpectedDerived where
  alloc : OrdMap (ℕ ×ₗ ℕ) (ℕ × ℕ) := .empty
  backpointers : OrdMap (ℕ ×ₗ ℕ) Backpointer := .empty

/-- The data type that the check expects in the backpointers of a key. -/
def LeafKey.bpDataType (k : LeafKey) : ℕ :=
  match k.val with
  | .extent _ => 0
  | _ => 1

/-- A pointer counted by the check, with the data type of its key. -/
def expectPtr (c : TriggerCtx) (e : ExpectedDerived) (x : LivePtr × ℕ) :
    Except RebuildError ExpectedDerived :=
  let pos := toLex (allocPos c x.1.ptr)
  let alloc := (e.alloc.get pos).getD (x.1.ptr.gen, 0)
  if (c.members[x.1.ptr.dev]?.map DevMember.bucketSize).getD 0 = 0 then
    .error (.derivedState .invalidPointer)
  else if alloc.1 ≠ x.1.ptr.gen then .error (.derivedState .generation)
  else if 2 ^ 32 ≤ alloc.2 + x.1.size then .error (.transaction (-1))
  else if (e.backpointers.get (toLex x.1.bpPos)).isSome then
    .error (.derivedState .duplicateBackpointer)
  else
    .ok { alloc := e.alloc.set pos (alloc.1, alloc.2 + x.1.size)
          backpointers := e.backpointers.set (toLex x.1.bpPos)
            { x.1.backpointer with dataType := x.2 } }

namespace RebuildFs

/-- The pointers that the check finds, with the data types of their keys. -/
def scannedPtrs (fs : RebuildFs) : List (LivePtr × ℕ) :=
  primaryTrees.flatMap fun b => (fs.scanRawLocked b).flatMap fun k =>
    (livePtrs (b.val, k.1) (some k.2)).map fun l => (l, k.2.bpDataType)

/-- The alloc keys that the check looks at: those with sectors. -/
def actualAlloc (fs : RebuildFs) : OrdMap (ℕ ×ₗ ℕ) (ℕ × ℕ) :=
  fs.alloc.mapSome fun a => if a.dirtySectors ≠ 0 then some (a.gen, a.dirtySectors) else none

end RebuildFs

/-- `check_extents_to_backpointers`. -/
def checkExtentsToBackpointers (fs : RebuildFs) : Except RebuildError Unit :=
  match fs.scannedPtrs.foldlM (expectPtr fs.devs) {} with
  | .error err => .error err
  | .ok expected =>
    if fs.actualAlloc.entries ≠ expected.alloc.entries then .error (.derivedState .allocSet)
    else if fs.backpointers.entries ≠ expected.backpointers.entries then
      .error (.derivedState .backpointerSet)
    else .ok ()

end Subvol

import Mathlib.Data.List.SplitBy
import Mathlib.Logic.Function.Basic
import Subvol.Extent.Update
import Subvol.Snapshot.Table

/-!
# The triggers of pointers

Model of the triggers that a commit runs for keys with pointers: for every pointer that a key gains
or loses, the sectors of its bucket are counted in the alloc tree and its owner is entered in the
backpointer tree. The trees 4 and 8 are the maps they hold; a trigger reads what an earlier one of
the same transaction staged.

Keys with pointers are in the trees other than the alloc tree, the tree of buckets to discard and
the backpointers. A transaction that fails leaves everything as it was; limits on the number of
updates, locks and the space in the nodes, which can only make a commit fail, are left out, and so
is the key cache.

## Main definitions

* `PtrTree`, `LeafKey`, `LeafUpdate`, `TransEntry`.
* `triggerPointerValidate`, `triggerPointerDerived`.
* `bch2TriggerExtent`, `transTriggerOps`: the pointers for which triggers run, in their order.
* `bch2TransCommit`.
-/

namespace Subvol

/-! ### Keys -/

/-- A tree in which keys with pointers are kept. -/
abbrev PtrTree := {b : Fin 9 // b ≠ 4 ∧ b ≠ 6 ∧ b ≠ 8}

theorem ptrTree_extents : (0 : Fin 9) ≠ 4 ∧ (0 : Fin 9) ≠ 6 ∧ (0 : Fin 9) ≠ 8 := by decide

/-- The value of a key, `extent`, `btree_ptr` and `btree_ptr_v2` with their entries. -/
inductive PtrVal
  | extent (entries : List ExtentEntry)
  | btreePtr (entries : List ExtentEntry)
  | btreePtrV2 (header : List UInt64) (entries : List ExtentEntry)
  | other (type : ℕ) (words : List UInt64)
deriving DecidableEq, Repr

/-- A key in a leaf, without its place. -/
structure LeafKey where
  size : ℕ
  versionHi : ℕ := 0
  versionLo : ℕ := 0
  val : PtrVal
deriving DecidableEq, Repr

/-- `bch2_bkey_ptrs_c`. -/
def bch2BkeyPtrsC : Option LeafKey → List ExtentEntry
  | none => []
  | some k =>
    match k.val with
    | .extent entries => entries
    | .btreePtr entries => entries
    | .btreePtrV2 _ entries => entries
    | .other _ _ => []

/-- `key_trigger_kind`. -/
def keyTriggerKind : Option LeafKey → ℕ
  | none => 0
  | some k =>
    match k.val with
    | .other type _ => if type = keyTypeSnapshot then 1 else 0
    | _ => 2

/-- A pointer of a key: the place and size of the key, and the pointer. -/
structure LivePtr where
  btree : PtrTree
  pos : Bpos
  size : ℕ
  ptr : ExtentPtr
deriving DecidableEq

/-- The pointers of a key. -/
def livePtrs (place : PtrTree × Bpos) (k : Option LeafKey) : List LivePtr :=
  (bch2BkeyPtrsC k).filterMap fun
    | .ptr _ _ p => some ⟨place.1, place.2, (k.map LeafKey.size).getD 0, p⟩
    | _ => none

/-! ### One pointer -/

/-- What a trigger reads of `bch_member`. -/
structure DevMember where
  bucketSize : ℕ
  firstBucket : ℕ
  nbuckets : ℕ
  online : Bool := true
  alive : Bool := true
deriving DecidableEq, Repr

/-- The devices of the superblock. -/
structure TriggerCtx where
  membersV2 : Bool := true
  members : List DevMember

/-- `BCH_SB_MEMBERS_MAX`. -/
def bchSbMembersMax : ℕ := 256

/-- `trigger_pointer_validate`: whether the pointer is into a bucket of a device that is there. -/
def triggerPointerValidate (c : TriggerCtx) (p : ExtentPtr) : Bool :=
  match c.members[p.dev]? with
  | none => false
  | some m =>
    let bucket := p.offset / m.bucketSize
    decide (p.dev < bchSbMembersMax) && m.online && c.membersV2 && m.alive && m.bucketSize != 0 &&
      decide (m.firstBucket ≤ bucket) &&
      decide (bucket - m.firstBucket < (m.nbuckets + 2 ^ 64 - m.firstBucket) % 2 ^ 64)

/-- The position of the alloc key of a pointer's bucket. -/
def allocPos (c : TriggerCtx) (p : ExtentPtr) : ℕ × ℕ :=
  (p.dev, p.offset / ((c.members[p.dev]?.map DevMember.bucketSize).getD 0))

/-- `bch_alloc_v4`, with the fields that a trigger only copies in `rest`. -/
structure BucketAlloc where
  gen : ℕ := 0
  dirtySectors : ℕ := 0
  rest : List UInt64 := []
deriving DecidableEq, Repr

/-- `bch_backpointer`. -/
structure Backpointer where
  btreeId : ℕ
  level : ℕ := 0
  dataType : ℕ := 0
  bucketGen : ℕ
  bucketLen : ℕ
  pos : Bpos

/-- The position of a pointer's backpointer. -/
def LivePtr.bpPos (l : LivePtr) : ℕ × ℕ := (l.ptr.dev, l.ptr.offset)

/-- The backpointer of a pointer in a leaf. -/
def LivePtr.backpointer (l : LivePtr) : Backpointer where
  btreeId := l.btree.val
  bucketGen := l.ptr.gen
  bucketLen := l.size
  pos := l.pos

/-- The alloc tree and the backpointer tree. -/
structure Derived where
  alloc : ℕ × ℕ → Option BucketAlloc := fun _ => none
  backpointers : ℕ × ℕ → Option Backpointer := fun _ => none

/-- A trigger for one pointer. -/
structure PtrOp where
  insert : Bool
  live : LivePtr
deriving DecidableEq

/-- `trigger_pointer_derived`. -/
def triggerPointerDerived (c : TriggerCtx) (d : Derived) (op : PtrOp) : Option Derived :=
  let pos := allocPos c op.live.ptr
  let alloc := (d.alloc pos).getD {}
  if op.insert && alloc.gen != 0 && alloc.gen != op.live.ptr.gen then none
  else
    let dirty :=
      if op.insert then
        if alloc.dirtySectors + op.live.size < 2 ^ 32 then some (alloc.dirtySectors + op.live.size)
        else none
      else if op.live.size ≤ alloc.dirtySectors then some (alloc.dirtySectors - op.live.size)
      else none
    dirty.map fun dirty =>
      { alloc := Function.update d.alloc pos (some { alloc with
          gen := if alloc.gen = 0 then op.live.ptr.gen else alloc.gen
          dirtySectors := dirty })
        backpointers := Function.update d.backpointers op.live.bpPos
          (if op.insert then some op.live.backpointer else none) }

/-- What `trigger_extent_pointers` does for one pointer: a pointer to a device that is not there
cannot be inserted, and is passed over when it is removed. -/
def triggerPointer (c : TriggerCtx) (d : Derived) (op : PtrOp) : Option Derived :=
  if triggerPointerValidate c op.live.ptr then triggerPointerDerived c d op
  else if op.insert then none
  else some d

/-! ### The triggers of a transaction -/

/-- `trigger_extent_pointers`. -/
def triggerExtentPointers (insert : Bool) (place : PtrTree × Bpos) (k : Option LeafKey) :
    List PtrOp :=
  (livePtrs place k).map (PtrOp.mk insert)

/-- `bch2_trigger_extent`: nothing is done when the pointers are the same, byte for byte. -/
def bch2TriggerExtent (place : PtrTree × Bpos) (old new : Option LeafKey) : List PtrOp :=
  if bch2BkeyPtrsC new = bch2BkeyPtrsC old then []
  else triggerExtentPointers false place old ++ triggerExtentPointers true place new

/-- `bch2_key_trigger`, as far as pointers go. -/
def bch2KeyTrigger (place : PtrTree × Bpos) (old new : Option LeafKey) : List PtrOp :=
  if keyTriggerKind (old <|> new) = 2 then bch2TriggerExtent place old new else []

/-- `btree_insert_entry`: the key at a place and the one to put there. -/
structure TransEntry where
  place : PtrTree × Bpos
  old : Option LeafKey
  new : Option LeafKey
deriving DecidableEq

/-- `btree_node_type_has_trans_triggers` for the leaves of a tree. -/
def btreeHasTransTriggers (b : PtrTree) : Bool := b.val == 0 || b.val == 1 || b.val == 7

/-- The first time that `run_one_trans_trigger` runs for an update. -/
def overwriteTriggerRun (e : TransEntry) : List PtrOp :=
  if btreeHasTransTriggers e.place.1 then
    if keyTriggerKind e.old = keyTriggerKind e.new then bch2KeyTrigger e.place e.old e.new
    else bch2KeyTrigger e.place e.old none
  else []

/-- The second time, for an update whose keys have different triggers. -/
def insertTriggerRun (e : TransEntry) : List PtrOp :=
  if btreeHasTransTriggers e.place.1 then
    if keyTriggerKind e.old = keyTriggerKind e.new then [] else bch2KeyTrigger e.place none e.new
  else []

/-- `bch2_trans_commit_run_triggers`: the updates of one tree after those of another, every tree
until no trigger is left to run. -/
def transTriggerOps (es : List TransEntry) : List PtrOp :=
  (es.splitBy fun e e' => e.place.1 == e'.place.1).flatMap fun group =>
    group.flatMap overwriteTriggerRun ++ group.flatMap insertTriggerRun

/-! ### Commits -/

/-- The trees: the keys with pointers, the alloc tree and the backpointers. -/
structure FsState where
  keys : List ((PtrTree × Bpos) × LeafKey) := []
  derived : Derived := {}

/-- The key at a place. -/
def lookupKey (keys : List ((PtrTree × Bpos) × LeafKey)) (place : PtrTree × Bpos) :
    Option LeafKey :=
  (keys.find? fun k => k.1 == place).map Prod.snd

/-- The trees with the key at a place replaced. -/
def setKey (keys : List ((PtrTree × Bpos) × LeafKey)) (place : PtrTree × Bpos)
    (new : Option LeafKey) : List ((PtrTree × Bpos) × LeafKey) :=
  (new.map (Prod.mk place)).toList ++ keys.filter fun k => k.1 != place

/-- A key to be put at a place, `none` to delete the one there. -/
structure LeafUpdate where
  place : PtrTree × Bpos
  new : Option LeafKey

/-- `btree_insert_entry_cmp`: the trees in the order of their ids, and the positions of one tree. -/
def btreeInsertEntryLt (l r : PtrTree × Bpos) : Bool :=
  decide (l.1.val < r.1.val) || (l.1 == r.1 && decide (l.2 < r.2))

/-- `btree_trans_update_by_path`: the update in its place among the others, or instead of the one
that is there. -/
def btreeTransUpdateByPath (keys : List ((PtrTree × Bpos) × LeafKey)) :
    List TransEntry → LeafUpdate → List TransEntry
  | [], u => [⟨u.place, lookupKey keys u.place, u.new⟩]
  | e :: es, u =>
    if btreeInsertEntryLt e.place u.place then e :: btreeTransUpdateByPath keys es u
    else if e.place = u.place then { e with new := u.new } :: es
    else ⟨u.place, lookupKey keys u.place, u.new⟩ :: e :: es

/-- The updates of a transaction that change something. -/
def transUpdates (keys : List ((PtrTree × Bpos) × LeafKey)) (us : List LeafUpdate) :
    List TransEntry :=
  (us.foldl (btreeTransUpdateByPath keys) []).filter fun e => decide (e.old ≠ e.new)

/-- `bch2_trans_commit`. -/
def bch2TransCommit (c : TriggerCtx) (st : FsState) (us : List LeafUpdate) : Option FsState :=
  let es := transUpdates st.keys us
  ((transTriggerOps es).foldlM (triggerPointer c) st.derived).map fun derived =>
    { keys := es.foldl (fun keys e => setKey keys e.place e.new) st.keys, derived }

end Subvol

import Mathlib.Data.List.FinRange
import Subvol.Iter.Pos
import Subvol.Lock.Six

/-!
# The paths of a transaction and the locks of the nodes

Model of what the paths of a transaction do to the locks of the nodes: `iter.rs` from the table of the
paths to the walk down the tree, over the calls of `six.rs`. A lock counts its holds of every type,
with the recursive ones. A path holds at most one lock at each level, and a write lock on top of an
intent lock.

One thread runs alone. What the contents of the nodes, the cache and the disk decide comes from
outside: the root and the children that a walk finds, and whether a lock is refused.

## Main definitions

* `TransLocks`, `LockM`: the state, and programs that change it or stop.
* `sixUnlock`, `sixIncrement`, `sixLock`, `sixLockTryupgrade`, `bch2BtreeNodeLockWrite`.
* `bch2PathGet`, `bch2PathGetUnlockedMut`, `bch2PathPut`, `btreePathUnlock`, `btreePathTakeNewNode`.
* `bch2BtreePathUpgrade`, `bch2BtreePathTraverse`, `bch2TransNodeAdd`,
  `bch2TransNodeVerifyNotInIters`.
-/

namespace Subvol

/-! ### The state -/

/-- Why a program stops before it returns. -/
inductive LockStop
  /-- A lock is released that is not held. -/
  | released
  /-- Another assertion fails, or a null pointer is followed. -/
  | assertion
  /-- The thread waits for a lock that nobody gives back. -/
  | waits
deriving DecidableEq, Repr

/-- The lock of a path at a level: `BTREE_NODE_UNLOCKED` and so on. -/
inductive NodeLocked
  | unlocked
  | read
  | intent
  | write
deriving DecidableEq, Repr

/-- The value of the lock type, by which the source compares. -/
def NodeLocked.rank : NodeLocked → ℕ
  | unlocked => 0
  | read => 1
  | intent => 2
  | write => 3

/-- The holds that a node lock stands for. -/
def NodeLocked.holds : NodeLocked → SixLockType → ℕ
  | read, .read => 1
  | intent, .intent => 1
  | write, .intent => 1
  | write, .write => 1
  | _, _ => 0

/-- `btree_path_level` with the two bits of `nodes_locked` for its level; a sequence number is only
read by a relock. -/
structure PathLevel where
  b : Option ℕ := none
  lock : NodeLocked := .unlocked
deriving DecidableEq, Repr

/-- `btree_path`. -/
structure BtreePath where
  ref : ℕ := 0
  intentRef : ℕ := 0
  pos : Bpos := posMin
  btreeId : ℕ := 0
  cached : Bool := false
  preserve : Bool := false
  level : Fin 4 := 0
  locksWant : ℕ := 0
  l : Fin 4 → PathLevel := fun _ => {}

/-- Whether `nodes_locked` is not zero. -/
def BtreePath.nodesLocked (p : BtreePath) : Bool :=
  (List.finRange 4).any fun l => (p.l l).lock ≠ .unlocked

/-- The path with another entry at a level. -/
def BtreePath.setLevel (p : BtreePath) (l : Fin 4) (v : PathLevel) : BtreePath :=
  { p with l := Function.update p.l l v }

/-- What the paths read of a node. -/
structure NodeInfo where
  level : Fin 4 := 0
  btreeId : ℕ := 0
  minKey : Bpos := posMin
  maxKey : Bpos := sposMax

/-- The holds of every type on every node. -/
abbrev Holds := ℕ → SixLockType → ℕ

/-- One hold. -/
def hold (n : ℕ) (ty : SixLockType) : Holds := fun m t => if m = n ∧ t = ty then 1 else 0

/-- The locks of the nodes, whether this thread owns the intent lock of a node, and the paths of the
transaction. An entry of the table that is not allocated is `none`. -/
structure TransLocks where
  counts : Holds
  mine : ℕ → Bool
  info : ℕ → NodeInfo
  paths : Fin 64 → Option BtreePath

/-- The path at an index; an entry that is not allocated is empty. -/
def TransLocks.path (st : TransLocks) (i : Fin 64) : BtreePath := (st.paths i).getD {}

abbrev LockM := StateT TransLocks (Except LockStop)

/-- The indices that a walk over the paths goes through; the first one is reserved. -/
def pathIds : List (Fin 64) := (List.finRange 64).filter (· ≠ 0)

/-! ### The calls of a lock -/

/-- `six_unlock_type`. -/
def sixUnlock (ty : SixLockType) (n : ℕ) : LockM Unit := fun st =>
  if st.counts n ty = 0 then .error .released
  else if ty = .write ∧ st.counts n .intent = 0 then .error .assertion
  else if ty ≠ .read ∧ st.mine n = false then .error .assertion
  else .ok ((), { st with
    counts := st.counts - hold n ty
    mine := if ty = .intent ∧ st.counts n .intent = 1 then Function.update st.mine n false
      else st.mine })

/-- `six_lock_increment`. -/
def sixIncrement (ty : SixLockType) (n : ℕ) : LockM Unit := fun st =>
  match ty with
  | .read =>
    if st.counts n .read = 0 ∧ st.counts n .intent = 0 then .error .assertion
    else .ok ((), { st with counts := st.counts + hold n .read })
  | .intent =>
    if st.counts n .intent = 0 then .error .assertion
    else .ok ((), { st with counts := st.counts + hold n .intent })
  | .write =>
    if st.counts n .intent = 0 then .error .assertion
    else .ok ((), { st with counts := st.counts + hold n .write + hold n .intent })

/-- `six_lock_read`, `six_lock_intent` and `six_lock_write`. A lock that is refused, with a return
value other than zero, is not changed. -/
def sixLock (refused : Bool) (ty : SixLockType) (n : ℕ) : LockM Bool := fun st =>
  if ty = .write ∧ (st.mine n = false ∨ st.counts n .write ≠ 0) then .error .assertion
  else if refused then .ok (false, st)
  else
    match ty with
    | .read =>
      if st.counts n .write ≠ 0 then .error .waits
      else .ok (true, { st with counts := st.counts + hold n .read })
    | .intent =>
      if st.counts n .intent ≠ 0 then .error .waits
      else .ok (true, { st with
        counts := st.counts + hold n .intent
        mine := Function.update st.mine n true })
    | .write =>
      if st.counts n .read ≠ 0 then .error .waits
      else .ok (true, { st with counts := st.counts + hold n .write })

/-- `six_lock_tryupgrade`. -/
def sixLockTryupgrade (n : ℕ) : LockM Bool := fun st =>
  if st.counts n .intent ≠ 0 then .ok (false, st)
  else if st.counts n .read = 0 then .error .assertion
  else .ok (true, { st with
    counts := st.counts - hold n .read + hold n .intent
    mine := Function.update st.mine n true })

/-- `six_lock_readers_add` of the negative of a number. -/
def sixLockReadersSub (n k : ℕ) : LockM Unit := fun st =>
  if st.counts n .read < k then .error .assertion
  else .ok ((), { st with counts := st.counts - k • hold n .read })

/-- `six_lock_readers_add`. -/
def sixLockReadersAdd (n k : ℕ) : LockM Unit := fun st =>
  .ok ((), { st with counts := st.counts + k • hold n .read })

/-- `bch2_btree_node_lock_write`: the read holds of the paths of the transaction are given back while
it waits. -/
def bch2BtreeNodeLockWrite (refused : Bool) (b : ℕ) : LockM Bool := do
  let st ← get
  let level := (st.info b).level
  let readers := pathIds.countP fun i => decide ((st.path i).l level = ⟨some b, .read⟩)
  sixLockReadersSub b readers
  let ok ← sixLock refused .write b
  sixLockReadersAdd b readers
  pure ok

/-! ### The table of the paths -/

/-- Changes a path that is allocated. -/
def modifyPath (i : Fin 64) (f : BtreePath → BtreePath) : LockM Unit := fun st =>
  match st.paths i with
  | none => .error .assertion
  | some p => .ok ((), { st with paths := Function.update st.paths i (some (f p)) })

/-- `bch2_path_get` for an intent path. -/
def bch2PathGet (btreeId : ℕ) (pos : Bpos) (level : Fin 4) (preserve : Bool) : LockM (Fin 64) :=
  fun st =>
    match pathIds.find? fun i => (st.paths i).isNone with
    | none => .error .assertion
    | some i => .ok (i, { st with paths := Function.update st.paths i (some
        { ref := 1, intentRef := 1, pos := pos, btreeId := btreeId, preserve := preserve,
          level := level, locksWant := min (level.val + 1) 4 }) })

/-- The unlock of a node by a path, in `btree_path_unlock` and `btree_node_unlock`. -/
def unlockNode (b : ℕ) : NodeLocked → LockM Unit
  | .unlocked => pure ()
  | .read => sixUnlock .read b
  | .intent => sixUnlock .intent b
  | .write => do
    sixUnlock .write b
    sixUnlock .intent b

/-- `btree_node_unlock`. -/
def btreeNodeUnlock (i : Fin 64) (l : Fin 4) : LockM Unit := do
  let v := ((← get).path i).l l
  if v.lock = .unlocked then pure ()
  else
    match v.b with
    | none => throw .assertion
    | some b =>
      unlockNode b v.lock
      modifyPath i fun p => p.setLevel l ⟨some b, .unlocked⟩

/-- One level of `btree_path_unlock`. -/
def btreePathUnlockLevel (i : Fin 64) (l : Fin 4) : LockM Unit := do
  let v := ((← get).path i).l l
  match v.b with
  | none => pure ()
  | some b =>
    unlockNode b v.lock
    modifyPath i fun p => p.setLevel l ⟨none, v.lock⟩

/-- `btree_path_unlock`. -/
def btreePathUnlock (i : Fin 64) : LockM Unit := do
  forM (List.finRange 4) (btreePathUnlockLevel i)
  modifyPath i fun p => { p with l := fun l => ⟨(p.l l).b, .unlocked⟩ }

/-- `bch2_path_put` of an intent reference. -/
def bch2PathPut (i : Fin 64) : LockM Unit := do
  if i = 0 then pure ()
  else
    match (← get).paths i with
    | none => pure ()
    | some p =>
      if p.intentRef = 0 ∨ p.ref = 0 then throw .assertion
      else
        modifyPath i fun p => { p with intentRef := p.intentRef - 1, ref := p.ref - 1 }
        if p.ref = 1 then
          btreePathUnlock i
          modify fun st => { st with paths := Function.update st.paths i none }
        else pure ()

/-- `bch2_path_get_unlocked_mut`. The path is new and need not be preserved, so
`bch2_btree_path_make_mut` leaves it as it is, and it wants no more locks than behind
`bch2_btree_path_downgrade`. -/
def bch2PathGetUnlockedMut (btreeId : ℕ) (level : Fin 4) (pos : Bpos) : LockM (Fin 64) := do
  let i ← bch2PathGet btreeId pos level false
  btreePathUnlock i
  pure i

/-- `btree_path_take_new_node`. -/
def btreePathTakeNewNode (i : Fin 64) (b : ℕ) : LockM Unit := do
  let st ← get
  sixIncrement .write b
  modifyPath i fun p => p.setLevel (st.info b).level ⟨some b, .write⟩

/-! ### An upgrade -/

/-- Whether another path of the transaction has a lock on the node at the level. -/
def othersHold (st : TransLocks) (i : Fin 64) (l : Fin 4) (b : ℕ) (want : NodeLocked → Bool) : Bool :=
  pathIds.any fun j => j ≠ i ∧ ((st.path j).l l).b = some b ∧ want ((st.path j).l l).lock

/-- The read hold of a path becomes an intent hold beside the one that is there. -/
def swapRead (b : ℕ) : LockM Unit := do
  sixIncrement .intent b
  sixUnlock .read b

/-- The branch of an upgrade for as many readers as the path has references: all of them but one are
given back before the lock is tried again. -/
def upgradeAlone (b readers ref : ℕ) : LockM Bool := do
  if readers = ref ∧ 1 < readers then
    forM (List.replicate (readers - 1) ()) fun _ => sixUnlock .read b
    sixLockTryupgrade b
  else pure false

/-- The upgrade of a read lock of a path at a level, `false` when it fails. -/
def upgradeRead (i : Fin 64) (l : Fin 4) (b : ℕ) : LockM Bool := do
  if ← sixLockTryupgrade b then pure true
  else
    let st ← get
    if othersHold st i l b fun k => decide (NodeLocked.intent.rank ≤ k.rank) then
      swapRead b
      pure true
    else
      let readers := st.counts b .read
      let ref := (st.path i).ref
      if 0 < readers ∧ readers < ref then
        swapRead b
        pure true
      else
        if ← upgradeAlone b readers ref then pure true
        else if othersHold (← get) i l b fun k => decide (k = .read) then pure false
        else
          swapRead b
          pure true

/-- One level of `bch2_btree_path_upgrade`, `false` when it returns there. -/
def upgradeLevel (i : Fin 64) (l : Fin 4) : LockM Bool := do
  let v := ((← get).path i).l l
  match v.b with
  | none => pure true
  | some b =>
    match v.lock with
    | .intent => pure true
    | .read =>
      if ← upgradeRead i l b then
        modifyPath i fun p => p.setLevel l ⟨some b, .intent⟩
        pure true
      else pure false
    | _ => pure false

/-- The loop of `bch2_btree_path_upgrade` over the levels. -/
def upgradeLevels (i : Fin 64) : List (Fin 4) → LockM Bool
  | [] => pure true
  | l :: ls => do
    if ← upgradeLevel i l then upgradeLevels i ls
    else pure false

/-- The levels that an upgrade goes through. -/
def upgradeRange (st : TransLocks) (i : Fin 64) (want : ℕ) : List (Fin 4) :=
  (List.finRange 4).filter fun l => (st.path i).locksWant ≤ l ∧ l < want

/-- `bch2_btree_path_upgrade`, `true` for the return value zero. -/
def bch2BtreePathUpgrade (i : Fin 64) (want : ℕ) : LockM Bool := do
  let st ← get
  if min want 4 ≤ (st.path i).locksWant ∧ (st.path i).nodesLocked then pure true
  else
    if ← upgradeLevels i (upgradeRange st i want) then
      modifyPath i fun p => { p with locksWant := min want 4 }
      pure true
    else pure false

/-! ### A walk down the tree -/

/-- What a walk finds: the error of a transaction that is to restart, the root of the tree, and below
a node the child at the position of the path or an error. -/
structure Walk where
  restarted : ℤ := 0
  root : Option ℕ
  child : ℕ → Except ℤ ℕ
  refused : ℕ → Bool := fun _ => false

/-- `path_lock_type`. -/
def pathLockType (p : BtreePath) (l : Fin 4) : NodeLocked :=
  if l < p.locksWant then .intent else .read

/-- A hold beside one that is there, or the lock itself. -/
def sixLockBeside (beside refused : Bool) (ty : SixLockType) (b : ℕ) : LockM Bool := do
  if beside then
    sixIncrement ty b
    pure true
  else sixLock refused ty b

/-- `btree_node_lock`: the lock of a node at a level, as a hold beside that of another path when there
is one. -/
def btreeNodeLock (refused : Bool) (i : Fin 64) (b : ℕ) (l : Fin 4) : LockM Bool := do
  let st ← get
  let lockType := pathLockType (st.path i) l
  let six := if lockType = .intent then SixLockType.intent else .read
  let beside := othersHold st i l b fun k => decide (lockType.rank ≤ k.rank)
  if ← sixLockBeside beside refused six b then
    modifyPath i fun p => p.setLevel l ⟨some b, lockType⟩
    pure true
  else pure false

/-- The loop of `bch2_btree_path_traverse_one` over the levels below the node. -/
def traverseDown (w : Walk) (i : Fin 64) : List (Fin 4) → ℕ → LockM ℤ
  | [], _ => pure 0
  | l :: ls, parent =>
    match w.child parent with
    | .error ret => do
      btreePathUnlock i
      pure ret
    | .ok child => do
      if ← btreeNodeLock (w.refused child) i child l then
        modifyPath i fun p => { p with level := l }
        traverseDown w i ls child
      else
        btreePathUnlock i
        pure (-1)

/-- The levels from one below the root to that of the path, from above. -/
def levelsDown (root depth : Fin 4) : List (Fin 4) :=
  ((List.finRange 4).filter fun l => depth ≤ l ∧ l < root).reverse

/-- `bch2_btree_path_traverse` of a path that is not cached. -/
def bch2BtreePathTraverse (w : Walk) (i : Fin 64) : LockM ℤ := do
  let st ← get
  if i = 0 ∨ st.paths i = none then pure (-22)
  else if (st.path i).nodesLocked then pure 0
  else if w.restarted ≠ 0 then pure (-w.restarted)
  else
    btreePathUnlock i
    match w.root with
    | none => pure (-1)
    | some root =>
      let level := (st.info root).level
      modifyPath i fun p => { p with level := level }
      if ← btreeNodeLock (w.refused root) i root level then
        traverseDown w i (levelsDown level (st.path i).level) root
      else pure (-1)

/-! ### Nodes of the paths -/

/-- `btree_path_pos_in_node`. -/
def btreePathPosInNode (p : BtreePath) (b : NodeInfo) : Bool :=
  decide (p.btreeId = b.btreeId ∧ ¬p.pos < b.minKey ∧ ¬b.maxKey < p.pos)

/-- `btree_lock_want`. -/
def btreeLockWant (p : BtreePath) (l : Fin 4) : NodeLocked :=
  if l < p.level then .unlocked
  else if l < p.locksWant then .intent
  else if l = p.level then .read
  else .unlocked

/-- The lock that a path takes at the level of a new node. -/
def addedLock (p : BtreePath) (l : Fin 4) : NodeLocked :=
  if p.nodesLocked then btreeLockWant p l else .unlocked

/-- A hold of a path beside those that are there. -/
def incrementNode (b : ℕ) : NodeLocked → LockM Unit
  | .unlocked => pure ()
  | .read => sixIncrement .read b
  | .intent => sixIncrement .intent b
  | .write => sixIncrement .write b

/-- What `bch2_trans_node_add` does with a path. -/
def transNodeAddPath (b : ℕ) (i : Fin 64) : LockM Unit := do
  let st ← get
  let l := (st.info b).level
  match st.paths i with
  | none => pure ()
  | some p =>
    if p.cached ∨ l < p.level ∨ ¬btreePathPosInNode p (st.info b) then pure ()
    else
      let lockType := addedLock p l
      btreeNodeUnlock i l
      incrementNode b lockType
      modifyPath i fun p => p.setLevel l ⟨some b, lockType⟩

/-- `bch2_trans_node_add`. -/
def bch2TransNodeAdd (b : ℕ) : LockM Unit := forM pathIds (transNodeAddPath b)

/-- `bch2_trans_node_verify_not_in_iters`. -/
def bch2TransNodeVerifyNotInIters (b : ℕ) : LockM Unit := do
  let st ← get
  let l := (st.info b).level
  if pathIds.any fun i => ((st.path i).l l).b = some b ∧ ((st.path i).l l).lock ≠ .unlocked then
    throw .assertion
  else pure ()

end Subvol

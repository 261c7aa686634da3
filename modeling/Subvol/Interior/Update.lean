import Subvol.Interior.Paths

/-!
# Splits, merges and rewrites of nodes

Model of the locks and paths that `bch2_btree_split_leaf`, `__bch2_foreground_maybe_merge` and
`bch2_btree_node_rewrite` of `interior.rs` take and give back, with every exit. What the keys of the
nodes decide, the nodes that are allocated and the sectors they get come from outside, and so does
whether a lock is refused.

## Main definitions

* `NewNode`, `allocateNode`, `releaseNode`: a node that an update makes.
* `MergeEnv`, `bch2ForegroundMaybeMerge`.
* `SplitEnv`, `bch2BtreeSplitLeaf`.
* `RewriteEnv`, `bch2BtreeNodeRewrite`.
-/

namespace Subvol

/-! ### New nodes -/

/-- A node that `bch2_btree_node_mem_alloc` gives, and the return value of
`bch2_btree_node_alloc_sectors` for it. -/
structure NewNode where
  node : ℕ
  sectorsRet : ℤ := 0

/-- Sets what the paths read of a node. -/
def setInfo (n : ℕ) (info : NodeInfo) : LockM Unit :=
  modify fun st => { st with info := Function.update st.info n info }

/-- The intent and the write lock of a node that nobody else knows. -/
def lockNew (n : ℕ) : LockM Unit := do
  if ← sixLock false .intent n then
    if ← sixLock false .write n then pure ()
    else throw .assertion
  else throw .assertion

/-- The release of both locks of a new node. -/
def unlockNew (n : ℕ) : LockM Unit := do
  sixUnlock .write n
  sixUnlock .intent n

/-- `allocate_node`. A node that is not there fails an assertion. -/
def allocateNode (a : Option NewNode) (info : NodeInfo) : LockM (ℤ ⊕ ℕ) := do
  match a with
  | none => throw .assertion
  | some a =>
    lockNew a.node
    setInfo a.node info
    if a.sectorsRet ≠ 0 then
      unlockNew a.node
      pure (.inl a.sectorsRet)
    else pure (.inr a.node)

/-- The path of a new node, with a hold of its own. -/
def takeNew (n : ℕ) : LockM (Fin 64) := do
  let info := (← get).info n
  let i ← bch2PathGetUnlockedMut info.btreeId info.level info.maxKey
  btreePathTakeNewNode i n
  pure i

/-! ### Merges -/

/-- `merge_node`. -/
structure MergeSource where
  b : ℕ
  path : Fin 64
  liveU64s : ℕ

/-- What decides about a sibling: whether it is left out, at an end of the key space or for the
estimate of its size, and the walk to it. -/
structure PushEnv where
  skip : Bool
  walk : Walk

/-- What decides about a merge: the siblings, the number of nodes that the keys of the sources fill
at either bound and whether one node takes them, the writes that are refused, the node for the keys
and whether it passes the assertions, and the sources whose key is in the parent. -/
structure MergeEnv where
  needsMerge : Bool := true
  left : PushEnv
  right : PushEnv
  liveU64s : ℕ → ℕ
  nrDsts : List MergeSource → ℕ
  nrDstsHalf : List MergeSource → ℕ
  fitsOne : List MergeSource → Bool
  refused : ℕ → Bool := fun _ => false
  dst : Option NewNode
  dstValid : Bool := true
  inParent : ℕ → Bool

/-- The position that the walk to a sibling looks for; the offset wraps. -/
def siblingPos (right : Bool) (info : NodeInfo) : Option Bpos :=
  if right then bposSuccessor info.maxKey
  else some { info.minKey with offset := info.minKey.offset - 1 }

/-- `bch2_btree_merge_push_pos`, with its return value and the source that it pushes. -/
def bch2BtreeMergePushPos (e : MergeEnv) (i : Fin 64) (level : Fin 4) (right : Bool) :
    LockM (ℤ × Option MergeSource) := do
  let st ← get
  let env := if right then e.right else e.left
  match ((st.path i).l level).b with
  | none => throw .assertion
  | some pivot =>
    if env.skip then pure (0, none)
    else
      match siblingPos right (st.info pivot) with
      | none => throw .assertion
      | some pos =>
        let sib ← bch2PathGet (st.path i).btreeId pos level true
        let ret ← bch2BtreePathTraverse env.walk sib
        if ret ≠ 0 then
          bch2PathPut sib
          pure (ret, none)
        else
          let p := (← get).path sib
          match (p.l level).b with
          | none =>
            bch2PathPut sib
            pure (0, none)
          | some b =>
            if b = pivot ∨ (p.l (level + 1)).b ≠ ((st.path i).l (level + 1)).b then
              bch2PathPut sib
              pure (0, none)
            else if (p.l p.level).lock = .unlocked then throw .assertion
            else pure (0, some ⟨b, sib, e.liveU64s b⟩)

/-- `merge_put_sibling_paths`. -/
def mergePutSiblingPaths (i : Fin 64) (srcs : List MergeSource) : LockM Unit :=
  forM srcs fun s => if s.path ≠ i then bch2PathPut s.path else pure ()

/-- The first part of `compute_merge`: of three sources that fill too many nodes the smaller end is
taken out. -/
def dropSource (e : MergeEnv) (srcs : List MergeSource) : LockM (List MergeSource × ℕ) := do
  match srcs with
  | [s₀, s₁, s₂] =>
    if 3 ≤ e.nrDsts srcs then
      if s₂.liveU64s < s₀.liveU64s then
        bch2PathPut s₂.path
        pure ([s₀, s₁], e.nrDstsHalf [s₀, s₁])
      else
        bch2PathPut s₀.path
        pure ([s₁, s₂], e.nrDstsHalf [s₁, s₂])
    else pure (srcs, e.nrDsts srcs)
  | srcs => pure (srcs, e.nrDsts srcs)

/-- `compute_merge`: the sources that are left and the number of nodes for their keys. -/
def computeMerge (e : MergeEnv) (srcs : List MergeSource) : LockM (List MergeSource × ℕ) := do
  let (srcs, nr) ← dropSource e srcs
  if srcs.length ≤ nr then pure (srcs, nr)
  else if nr = 2 then pure (srcs, if e.fitsOne srcs then 1 else srcs.length)
  else pure (srcs, nr)

/-- `btree_merge_topology_check`. -/
def btreeMergeTopologyCheck (info : ℕ → NodeInfo) : List MergeSource → Bool
  | s :: s' :: srcs =>
    decide (bposSuccessor (info s.b).maxKey = some (info s'.b).minKey) &&
      btreeMergeTopologyCheck info (s' :: srcs)
  | _ => true

/-- The part of a merge that collects the sources: a return value, or the sources to merge. -/
def mergeGather (e : MergeEnv) (i : Fin 64) (level : Fin 4) (b : ℕ) :
    LockM (ℤ ⊕ List MergeSource) := do
  let (ret, left) ← bch2BtreeMergePushPos e i level false
  if ret ≠ 0 then pure (.inl ret)
  else
    let srcs := left.toList ++ [⟨b, i, e.liveU64s b⟩]
    let (ret, right) ← bch2BtreeMergePushPos e i level true
    if ret ≠ 0 then
      mergePutSiblingPaths i srcs
      pure (.inl ret)
    else
      let srcs := srcs ++ right.toList
      if srcs.length = 1 then pure (.inl 0)
      else
        let (srcs, nr) ← computeMerge e srcs
        if srcs.length ≤ nr then
          mergePutSiblingPaths i srcs
          pure (.inl 0)
        else if ¬btreeMergeTopologyCheck (← get).info srcs then
          mergePutSiblingPaths i srcs
          pure (.inl (-8))
        else
          let (srcs, nr) ← computeMerge e srcs
          if srcs.length ≤ nr then
            mergePutSiblingPaths i srcs
            pure (.inl 0)
          else pure (.inr srcs)

/-- The write locks of the sources. When one is refused, those before it are given back. -/
def lockSources (refused : ℕ → Bool) : List MergeSource → List MergeSource → LockM Bool
  | _, [] => pure true
  | done, s :: todo => do
    if ← bch2BtreeNodeLockWrite (refused s.b) s.b then lockSources refused (done ++ [s]) todo
    else
      forM done fun s => sixUnlock .write s.b
      pure false

/-- The upgrade of the path and the write locks of the sources: a return value, or the way on. -/
def mergeLock (e : MergeEnv) (i : Fin 64) (level : Fin 4) (srcs : List MergeSource) :
    LockM (Option ℤ) := do
  if ← bch2BtreePathUpgrade i (level.val + 2) then
    if ← lockSources e.refused [] srcs then pure none
    else
      mergePutSiblingPaths i srcs
      pure (some (-10))
  else
    mergePutSiblingPaths i srcs
    pure (some (-7))

/-- `release_node`. -/
def releaseNode (n : ℕ) : LockM Unit := unlockNew n

/-- The part of a merge behind the write locks of the sources. -/
def mergeInstall (e : MergeEnv) (i : Fin 64) (level : Fin 4) (b : ℕ) (srcs : List MergeSource) :
    LockM ℤ := do
  let st ← get
  let info := { st.info b with
    btreeId := (st.path i).btreeId
    minKey := ((srcs.head?.map fun s => (st.info s.b).minKey).getD posMin)
    maxKey := ((srcs.getLast?.map fun s => (st.info s.b).maxKey).getD sposMax) }
  match ← allocateNode e.dst info with
  | .inl ret =>
    -- the sources stay locked
    mergePutSiblingPaths i srcs
    pure ret
  | .inr n =>
    if ¬e.dstValid then throw .assertion
    else
      match (((← get).path i).l (level + 1)).b with
      | none => throw .assertion
      | some parent =>
        if ← bch2BtreeNodeLockWrite (e.refused parent) parent then
          if srcs.all fun s => e.inParent s.b then
            forM srcs fun s => sixUnlock .write s.b
            bch2TransNodeAdd n
            forM srcs fun s => bch2TransNodeVerifyNotInIters s.b
            mergePutSiblingPaths i srcs
            sixUnlock .write parent
            unlockNew n
            pure 0
          else
            releaseNode n
            forM srcs fun s => sixUnlock .write s.b
            mergePutSiblingPaths i srcs
            sixUnlock .write parent
            pure (-8)
        else
          releaseNode n
          forM srcs fun s => sixUnlock .write s.b
          mergePutSiblingPaths i srcs
          pure (-10)

/-- `__bch2_foreground_maybe_merge`. The highest level has no place for a parent in a path. -/
def foregroundMaybeMerge (e : MergeEnv) (i : Fin 64) (level : Fin 4) : LockM ℤ := do
  match (((← get).path i).l level).b with
  | none => throw .assertion
  | some b =>
    if level = 3 then throw .assertion
    else
      match ← mergeGather e i level b with
      | .inl ret => pure ret
      | .inr srcs =>
        match ← mergeLock e i level srcs with
        | some ret => pure ret
        | none => mergeInstall e i level b srcs

/-- `bch2_foreground_maybe_merge`. -/
def bch2ForegroundMaybeMerge (e : MergeEnv) (i : Fin 64) (level : Fin 4) : LockM ℤ := do
  match (((← get).path i).l level).b with
  | none => pure 0
  | some _ =>
    if e.needsMerge then foregroundMaybeMerge e i level
    else pure 0

/-! ### Splits -/

/-- What decides about a split at a level above the leaves: whether the key of the old node is in the
parent, whether two keys fit there, the locks that are refused, whether the parent has keys for two
nodes and where it is parted, the two nodes, and whether the old key is found again in them. -/
structure SplitLevel where
  oldFound : Bool := true
  fits : Bool := true
  refusedOld : Bool := false
  refusedParent : Bool := false
  twoSides : Bool := true
  pivot : Bpos := posMin
  left : Option NewNode := none
  right : Option NewNode := none
  oldKept : Bool := true

/-- What decides about a split: the check of the topology, the level of the root, whether the leaf
has keys for two nodes and where it is parted, the return value when it is grown in place, the new
nodes, the levels above and the merges behind it. -/
structure SplitEnv where
  topology : ℤ := 0
  rootLevel : ℕ := 0
  twoSides : Bool := true
  growRet : ℤ := -4
  pivot : Bpos
  left : Option NewNode
  right : Option NewNode
  root : Option NewNode := none
  up : Fin 4 → SplitLevel := fun _ => {}
  merges : Fin 4 → MergeEnv

/-- `release_paths`, from the last. -/
def releasePaths (rp : Fin 64 × Fin 64) : LockM Unit := do
  bch2PathPut rp.2
  bch2PathPut rp.1

/-- The exit of a split that gives its paths and its new nodes back. -/
def splitRelease (repl : ℕ × ℕ) (rp : Fin 64 × Fin 64) (ret : ℤ) : LockM ℤ := do
  releasePaths rp
  releaseNode repl.1
  releaseNode repl.2
  pure ret

/-- The two nodes that take the keys of a node, with a path each. -/
def splitNodes (left right : Option NewNode) (info : NodeInfo) (pivot : Bpos) :
    LockM (ℤ ⊕ (ℕ × ℕ) × Fin 64 × Fin 64) := do
  match ← allocateNode left { info with maxKey := pivot } with
  | .inl ret => pure (.inl ret)
  | .inr l =>
    match bposSuccessor pivot with
    | none => throw .assertion
    | some next =>
      match ← allocateNode right { info with minKey := next } with
      | .inl ret =>
        releaseNode l
        pure (.inl ret)
      | .inr r =>
        let pl ← takeNew l
        let pr ← takeNew r
        pure (.inr ((l, r), pl, pr))

/-- The paths move to the two nodes and the old node is done with. -/
def splitMove (old : ℕ) (repl : ℕ × ℕ) (rp : Fin 64 × Fin 64) : LockM Unit := do
  bch2TransNodeAdd repl.2
  bch2TransNodeAdd repl.1
  bch2TransNodeVerifyNotInIters old
  releasePaths rp

/-- A split that makes a new root. -/
def splitRoot (e : SplitEnv) (old : ℕ) (repl : ℕ × ℕ) (rp : Fin 64 × Fin 64) (level : Fin 4) :
    LockM ℤ := do
  let info := { (← get).info old with level := level, minKey := posMin, maxKey := sposMax }
  match ← allocateNode e.root info with
  | .inl ret => splitRelease repl rp ret
  | .inr root =>
    modifyPath rp.2 fun p => { p with locksWant := p.locksWant + 1 }
    if (((← get).path rp.2).l level).b ≠ none then throw .assertion
    else
      btreePathTakeNewNode rp.2 root
      bch2TransNodeAdd root
      splitMove old repl rp
      unlockNew root
      unlockNew repl.1
      unlockNew repl.2
      pure 0

/-- The merges behind a split, from the level above the path, as long as it has the intent lock. -/
def mergesBehind (e : SplitEnv) (i : Fin 64) : List (Fin 4) → LockM ℤ
  | [] => pure 0
  | l :: ls => do
    if (((← get).path i).l l).lock = .intent then
      let ret ← bch2ForegroundMaybeMerge (e.merges l) i l
      if ret ≠ 0 then pure ret
      else mergesBehind e i ls
    else pure 0

/-- The levels above that of a path. -/
def levelsAbove (level : Fin 4) : List (Fin 4) := (List.finRange 4).filter fun l => level < l

/-- The locks of a split whose keys fit in the parent, `false` when one is refused. -/
def splitLock (u : SplitLevel) (old parent : ℕ) : LockM Bool := do
  if ← bch2BtreeNodeLockWrite u.refusedOld old then
    if ← bch2BtreeNodeLockWrite u.refusedParent parent then pure true
    else
      sixUnlock .write old
      pure false
  else pure false

/-- The part of a split whose keys are in the parent, behind the locks. -/
def splitFinish (old parent : ℕ) (repl : ℕ × ℕ) (rp : Fin 64 × Fin 64) : LockM Unit := do
  sixUnlock .write old
  splitMove old repl rp
  unlockNew repl.1
  unlockNew repl.2
  sixUnlock .write parent

/-- A split whose keys fit in the parent: a return value, or the new nodes, whose locks have been given
back. -/
def splitFits (u : SplitLevel) (old parent : ℕ) (repl : ℕ × ℕ) (rp : Fin 64 × Fin 64) :
    LockM (ℤ ⊕ ℕ × ℕ) := do
  if ← splitLock u old parent then
    splitFinish old parent repl rp
    pure (.inr repl)
  else
    let ret ← splitRelease repl rp (-10)
    pure (.inl ret)

/-- The split of a parent without the room for two keys: a return value, or the new nodes of the
parent with their paths. -/
def splitParentNode (u : SplitLevel) (old parent : ℕ) (repl : ℕ × ℕ) (rp : Fin 64 × Fin 64) :
    LockM (ℤ ⊕ (ℕ × ℕ) × Fin 64 × Fin 64) := do
  if ¬u.twoSides then
    let ret ← splitRelease repl rp (-6)
    pure (.inl ret)
  else
    match ← splitNodes u.left u.right ((← get).info parent) u.pivot with
    | .inl ret =>
      let ret ← splitRelease repl rp ret
      pure (.inl ret)
    | .inr (nodes, paths) =>
      if u.oldKept then
        splitMove old repl rp
        unlockNew repl.1
        unlockNew repl.2
        pure (.inr (nodes, paths))
      else
        releasePaths paths
        let ret ← splitRelease repl rp (-8)
        releaseNode nodes.1
        releaseNode nodes.2
        pure (.inl ret)

/-- The loop of `bch2_btree_split_leaf` over the levels above the old node, of which the first
argument is the number: a return value, or the new nodes whose keys fit in a parent. -/
def splitUp (e : SplitEnv) (i : Fin 64) :
    ℕ → ℕ → ℕ × ℕ → Fin 64 × Fin 64 → LockM (ℤ ⊕ ℕ × ℕ)
  | 0, _, repl, rp => do
    let ret ← splitRelease repl rp (-12)
    pure (.inl ret)
  | k + 1, old, repl, rp => do
    let level : Fin 4 := ⟨3 - k, by omega⟩
    match (((← get).path i).l level).b with
    | none =>
      let ret ← splitRoot e old repl rp level
      pure (.inl ret)
    | some parent =>
      let u := e.up level
      if ¬u.oldFound then
        let ret ← splitRelease repl rp (-8)
        pure (.inl ret)
      else if u.fits then splitFits u old parent repl rp
      else
        match ← splitParentNode u old parent repl rp with
        | .inl ret => pure (.inl ret)
        | .inr (nodes, paths) => splitUp e i k parent nodes paths

/-- The upgrade of the path of a split whose leaf has a parent. -/
def splitUpgrade (e : SplitEnv) (i : Fin 64) : LockM Bool := do
  if (((← get).path i).l 1).b.isSome then bch2BtreePathUpgrade i (e.rootLevel + 1)
  else pure true

/-- The checks of a split and the upgrade of its path, for a leaf: a return value, or the way on. -/
def splitStart (e : SplitEnv) (i : Fin 64) (src : ℕ) : LockM (Option ℤ) := do
  let st ← get
  if (st.info src).level ≠ 0 then pure (some (-5))
  else if e.topology ≠ 0 then pure (some e.topology)
  else if ← splitUpgrade e i then
    if e.twoSides then pure none
    else pure (some e.growRet)
  else pure (some (-7))

/-- The part of `bch2_btree_split_leaf` up to the merges: a return value, or the new nodes whose keys
fit in a parent. -/
def splitLeafUp (e : SplitEnv) (i : Fin 64) : LockM (ℤ ⊕ ℕ × ℕ) := do
  match (((← get).path i).l 0).b with
  | none => pure (.inl (-5))
  | some src =>
    match ← splitStart e i src with
    | some ret => pure (.inl ret)
    | none =>
      match ← splitNodes e.left e.right ((← get).info src) e.pivot with
      | .inl ret => pure (.inl ret)
      | .inr (nodes, paths) => splitUp e i 3 src nodes paths

/-- `bch2_btree_split_leaf`. When a merge behind the split fails, the locks of the new nodes are
released again. -/
def bch2BtreeSplitLeaf (e : SplitEnv) (i : Fin 64) : LockM ℤ := do
  match ← splitLeafUp e i with
  | .inl ret => pure ret
  | .inr repl =>
    let ret ← mergesBehind e i (levelsAbove ((← get).path i).level)
    if ret ≠ 0 then
      unlockNew repl.1
      unlockNew repl.2
      pure ret
    else pure 0

/-! ### Rewrites -/

/-- What decides about a rewrite: the locks that are refused, the new node and whether it passes the
assertions, and whether the key of the node is in the parent. -/
structure RewriteEnv where
  refused : ℕ → Bool := fun _ => false
  node : Option ℕ
  nodeValid : Bool := true
  inParent : Bool := true

/-- The end of a rewrite that has put the new node in the place of the old one. -/
def rewriteFinish (i' : Fin 64) (b n : ℕ) : LockM Unit := do
  sixUnlock .write b
  bch2TransNodeAdd n
  bch2TransNodeVerifyNotInIters b
  bch2PathPut i'

/-- The parent of a node in a path. -/
def parentOf (p : BtreePath) (level : Fin 4) : Option ℕ :=
  if level = 3 then none else (p.l (level + 1)).b

/-- The part of a rewrite behind the new node and its path. -/
def rewriteInstall (e : RewriteEnv) (i i' : Fin 64) (b n : ℕ) (level : Fin 4) : LockM ℤ := do
  match parentOf ((← get).path i) level with
  | none =>
    rewriteFinish i' b n
    unlockNew n
    pure 0
  | some parent =>
    if ← bch2BtreeNodeLockWrite (e.refused parent) parent then
      if e.inParent then
        rewriteFinish i' b n
        sixUnlock .write parent
        unlockNew n
        pure 0
      else
        bch2PathPut i'
        releaseNode n
        sixUnlock .write b
        sixUnlock .write parent
        pure (-8)
    else
      bch2PathPut i'
      releaseNode n
      sixUnlock .write b
      pure (-10)

/-- `bch2_btree_node_rewrite`. -/
def bch2BtreeNodeRewrite (e : RewriteEnv) (i : Fin 64) : LockM ℤ := do
  let st ← get
  let p := st.path i
  match (p.l p.level).b with
  | none => pure (-5)
  | some b =>
    let info := st.info b
    if ← bch2BtreePathUpgrade i (info.level.val + 2) then
      if ← bch2BtreeNodeLockWrite (e.refused b) b then
        match e.node with
        | none =>
          sixUnlock .write b
          pure (-12)
        | some n =>
          lockNew n
          setInfo n info
          if ¬e.nodeValid then throw .assertion
          else
            let i' ← takeNew n
            rewriteInstall e i i' b n info.level
      else pure (-10)
    else pure (-7)

end Subvol

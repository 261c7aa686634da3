import Subvol.Btree.NodeRun

/-!
# Updates of child pointers

Model of the three places of `interior.rs` that replace child pointers in an interior node: the
split of a child whose two halves fit into the parent, the merge of children, and the rewrite of a
child. Each takes the old pointers out of the node and puts the new ones into its last set, with
its own treatment of the bit `needs_whiteout`.

The pointer into memory, the first word of a child pointer, is left out: it is kept at zero.
`none` is a failed assertion, or a key that is written over other memory, since
`bch2_bset_insert` does not look at the room that is left.

## Main definitions

* `Child`, `childPtr`.
* `bch2BsetInsert`: a key put into the last set.
* `splitParent`, `mergeParent`, `rewriteParent`.
* `ParentOp`, `runParent`: an interior node with its sectors, and runs.
-/

namespace Subvol

/-! ### Child pointers -/

/-- What `child_ptr` reads of a child: the number and the range of the node, and the extent in its
key. -/
structure Child where
  seq : UInt64
  minKey : Bpos
  maxKey : Bpos
  extent : Option UInt64 := none
deriving DecidableEq, Repr

/-- `child_ptr`: the key of a child. Its value is `bch_btree_ptr_v2` with the extent behind it. -/
def childPtr (c : Child) : Bkey where
  p := c.maxKey
  type := keyTypeBtreePtrV2
  val := [0, c.seq, UInt64.ofNat (c.minKey.snapshot * 2 ^ 32), UInt64.ofNat c.minKey.offset,
    UInt64.ofNat c.minKey.inode] ++ c.extent.toList

/-! ### The last set -/

/-- The position is in the range of the node, which `bch2_btree_node_iter_init` asserts. -/
def NodeHeader.InRange (h : NodeHeader) (p : Bpos) : Prop := h.minKey ≤ p ∧ p ≤ h.maxKey

instance (h : NodeHeader) (p : Bpos) : Decidable (h.InRange p) :=
  inferInstanceAs (Decidable (_ ∧ _))

/-- The set and the live key that the node iterator finds at a position. -/
def liveSlot (b : BtreeNode) (p : Bpos) : Option (ℕ × BkeyPacked) :=
  (b.liveIdx p).bind fun i => (b.liveAt p).map fun k => (i, k)

/-- A key put before the first one that is not below it; the node iterator passes deleted keys of
its position. -/
def insertBefore (k : BkeyPacked) : List BkeyPacked → List BkeyPacked
  | [] => [k]
  | x :: keys =>
    if x.pos < k.pos ∨ (x.pos = k.pos ∧ x.deleted) then x :: insertBefore k keys
    else k :: x :: keys

/-- `bch2_bset_insert` at the place of the node iterator in the last set, which may be a written
one. -/
def bch2BsetInsert (b : BtreeNode) (k : Bkey) (needsWhiteout : Bool) : Option BtreeNode :=
  let stored := packKey b.header.format k needsWhiteout
  if b.header.InRange k.p ∧ b.last.endOffset + stored.u64s + b.whiteoutU64s ≤ b.bufU64s then
    some (b.modifySet (b.nsets - 1) (insertBefore stored))
  else none

/-! ### The updates -/

/-- The outcome of an update: the pointers are replaced, an error is returned, or the parent has
no room for the halves of a split and is split itself. -/
inductive ParentUpdate
  | done (b : BtreeNode)
  | error (ret : ℤ) (b : BtreeNode)
  | full
deriving DecidableEq, Repr

/-- The position that `btree_split` reads at the address of the old key behind its deletion: in the
last set the next key has moved there. -/
def posBehindDelete (b : BtreeNode) (writeable : Bool) (p : Bpos) : Bpos :=
  if writeable then ((b.last.keys.find? fun k => p < k.pos).map BkeyPacked.pos).getD p else p

/-- The update of the parent when a child is split: the old pointer is taken out and its bit goes
to the half that has the position read at its address. -/
def splitParent (b : BtreeNode) (oldPos : Bpos) (left right : Child) : Option ParentUpdate :=
  if ¬b.header.InRange oldPos then none
  else match liveSlot b oldPos with
  | none => some (.error (-8) b)
  | some (i, old) =>
    let writeable : Bool := i + 1 = b.nsets
    match bch2BtreeNodeInsertFits b (if writeable then 10 else 20) with
    | none => none
    | some false => some .full
    | some true => do
      let found := posBehindDelete b writeable oldPos
      let b := b.modifySet i (takeOut writeable oldPos)
      let b ← bch2BsetInsert b (childPtr left) (old.needsWhiteout && left.maxKey = found)
      let b ← bch2BsetInsert b (childPtr right) (old.needsWhiteout && right.maxKey = found)
      some (.done { b with dirty := true })

/-- One turn of the loop of `__bch2_foreground_maybe_merge` over the sources: whether the parent has
the pointer, and the parent without it. -/
def mergeTakeOut (b : BtreeNode) (p : Bpos) : Option (Bool × BtreeNode) :=
  if ¬b.header.InRange p then none
  else match liveSlot b p with
  | none => some (false, b)
  | some (i, old) => (pushNeededWhiteout b old).map fun b' =>
    (true, b'.modifySet i (takeOut (i + 1 = b.nsets) p))

/-- The loop over the sources. -/
def mergeTakeOuts : List Bpos → BtreeNode → Option (Bool × BtreeNode)
  | [], b => some (true, b)
  | p :: ps, b => do
    let (found, b) ← mergeTakeOut b p
    if found then mergeTakeOuts ps b else some (false, b)

/-- The update of the parent when children are merged: their pointers are taken out, the last one
first, and one pointer is put in. -/
def mergeParent (b : BtreeNode) (srcs : List Bpos) (dst : Child) : Option ParentUpdate := do
  let (found, b) ← mergeTakeOuts srcs.reverse b
  if found then do
    let b ← bch2BsetInsert b (childPtr dst) false
    some (.done { b with dirty := true })
  else some (.error (-8) b)

/-- The live key at a position marked deleted where it is, its bit left as it is. -/
def deadenAt (p : Bpos) (keys : List BkeyPacked) : List BkeyPacked :=
  keys.map fun k =>
    if k.pos = p ∧ !k.deleted then { k with k := { k.k with type := keyTypeDeleted } } else k

/-- The old pointer of a rewrite taken out of its set. -/
def rewriteTakeOut (writeable : Bool) (p : Bpos) (keys : List BkeyPacked) : List BkeyPacked :=
  if writeable then keys.filter fun k => k.pos ≠ p else deadenAt p keys

/-- The update of the parent in `bch2_btree_node_rewrite`: the old pointer is taken out and the new
one put in, without its bit. -/
def rewriteParent (b : BtreeNode) (pos : Bpos) (n : Child) : Option ParentUpdate :=
  if ¬b.header.InRange pos then none
  else match liveSlot b pos with
  | none => some (.error (-8) b)
  | some (i, _) =>
    (bch2BsetInsert (b.modifySet i (rewriteTakeOut (i + 1 = b.nsets) pos)) (childPtr n) false).map
      fun b => .done { b with dirty := true }

/-- The node behind an update. -/
def ParentUpdate.node (b : BtreeNode) : ParentUpdate → BtreeNode
  | done b' => b'
  | error _ b' => b'
  | full => b

/-! ### Runs -/

/-- The updates of an interior node, its writes, and its reads back. -/
inductive ParentOp
  | split (oldPos : Bpos) (left right : Child)
  | merge (srcs : List Bpos) (dst : Child)
  | rewrite (pos : Bpos) (n : Child)
  | write (a : DevAnswer) (onlyIfNeed : Bool)
  | reload (a : DevAnswer)

namespace ParentOp

/-- One operation; a write that fails ends the run. -/
def step (dev : NodeIo) (s : LeafState) : ParentOp → Option LeafState
  | split oldPos left right =>
    (splitParent s.node oldPos left right).map fun u => { s with node := u.node s.node }
  | merge srcs dst =>
    (mergeParent s.node srcs dst).map fun u => { s with node := u.node s.node }
  | rewrite pos n => (rewriteParent s.node pos n).map fun u => { s with node := u.node s.node }
  | write a onlyIfNeed =>
    match bch2BtreeNodeWriteTrans (dev.answers a) onlyIfNeed false s.node s.disk with
    | some (ret, b, disk) => if ret = 0 then some ⟨b, disk⟩ else none
    | none => none
  | reload a =>
    match bch2BtreeNodeRead (dev.answers a) s.node s.disk 0 with
    | .ok b => some { s with node := b }
    | _ => none

/-- What the callers grant: a child is split inside its range, children of this node are merged
into one that ends where the last of them does, a rewritten node keeps its range, and a node is
read after it was written. -/
def Called (s : LeafState) : ParentOp → Prop
  | split oldPos left right => right.maxKey = oldPos ∧ left.maxKey < oldPos ∧
    s.node.header.minKey ≤ left.maxKey ∧
    ∀ k ∈ s.node.liveKeys, k.pos < oldPos → k.pos < left.maxKey
  | merge srcs dst => srcs.Pairwise (· < ·) ∧ srcs.getLast? = some dst.maxKey ∧
    ∀ p ∈ srcs, s.node.liveAt p ≠ none
  | rewrite pos n => n.maxKey = pos
  | write _ _ => True
  | reload _ => s.node.written ≠ 0

/-- A merge and a rewrite find a last set that is not written, and a pointer that a merge removes
has its bit, unless it is not on disk or has a whiteout waiting. -/
def Sound (s : LeafState) : ParentOp → Prop
  | split _ _ _ => True
  | merge srcs dst => s.node.bsetWritten s.node.last = false ∧
    ∀ p ∈ srcs, p ≠ dst.maxKey → oldMark s.node p = false → nodeView s.disk p ≠ none →
      ∃ x ∈ s.node.whiteouts, x.pos = p
  | rewrite _ _ => s.node.bsetWritten s.node.last = false
  | write _ _ => True
  | reload _ => True

instance (s : LeafState) : (op : ParentOp) → Decidable (op.Called s)
  | split _ _ _ => inferInstanceAs (Decidable (_ ∧ _ ∧ _ ∧ _))
  | merge _ _ => inferInstanceAs (Decidable (_ ∧ _ ∧ _))
  | rewrite _ _ => inferInstanceAs (Decidable (_ = _))
  | write _ _ => inferInstanceAs (Decidable True)
  | reload _ => inferInstanceAs (Decidable (_ ≠ _))

instance (s : LeafState) : (op : ParentOp) → Decidable (op.Sound s)
  | split _ _ _ => inferInstanceAs (Decidable True)
  | merge _ _ => inferInstanceAs (Decidable (_ ∧ _))
  | rewrite _ _ => inferInstanceAs (Decidable (_ = _))
  | write _ _ => inferInstanceAs (Decidable True)
  | reload _ => inferInstanceAs (Decidable True)

end ParentOp

/-- A run whose operations all meet a condition on them and the state before them. -/
def runParent (dev : NodeIo) (cond : LeafState → ParentOp → Prop)
    [∀ s op, Decidable (cond s op)] : List ParentOp → LeafState → Option LeafState
  | [], s => some s
  | op :: ops, s =>
    if cond s op then (op.step dev s).bind (runParent dev cond ops) else none

/-- An interior node that has not been written: one set of child pointers. -/
structure FreshParent (s : LeafState) : Prop extends FreshLeaf s where
  level_pos : 0 < s.node.header.level
  pointers : ∀ t ∈ s.node.sets, ∀ k ∈ t.keys, k.k.type = keyTypeBtreePtrV2

end Subvol

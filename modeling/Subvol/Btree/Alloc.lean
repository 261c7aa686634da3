import Subvol.Btree.NodeRun

/-!
# Sectors for nodes

Model of the allocator behind new nodes: `bch2_bucket_alloc_freelist`, which takes a free bucket,
`bch2_alloc_sectors_btree`, which cuts sectors off the open bucket of the write point, and
`bch2_btree_node_alloc_sectors` with its cache of sectors that were given back. Around it stand the
nodes in memory with the growth of a leaf that cannot be split, and the node writes.

The transaction that marks a bucket as taken can itself split a leaf and allocate nodes before it
commits. The operations of a run are therefore the parts of an allocation, in any order: closing
the write point, taking a bucket, cutting sectors off. `bch2AllocSectorsBtree` is their composition
when nothing comes between.

The alloc tree and the freespace tree are the maps they hold. Locks, the counter
`sectors_allocated`, which nothing reads, and the mode without a device, in which nodes have no
sectors, are left out.

## Main definitions

* `Member`, `OpenBucket`, `Allocator`, `ExtentPtr`.
* `bch2BucketAllocFreelist`, `bch2AllocSectorsBtree`, `bch2BtreeNodeAllocSectors`,
  `bch2BtreeReserveCachePut`.
* `growLeaf`: the growth path of `bch2_btree_split_leaf`.
* `NodeStore`, `StoreOp`: the nodes in memory and their runs.
-/

namespace Subvol

/-! ### The device -/

/-- `BCH_DATA_free`. -/
def bchDataFree : ℕ := 0

/-- `BCH_DATA_btree`. -/
def bchDataBtree : ℕ := 3

/-- `OPEN_BUCKETS_NR`. -/
def openBucketsNr : ℕ := 4

/-- What the allocator reads of the superblock and of the member of its device. -/
structure Member where
  devIdx : ℕ
  bucketSize : ℕ
  firstBucket : ℕ
  nbuckets : ℕ
  /-- `BCH_SB_BTREE_NODE_SIZE`, in sectors. -/
  nodeSize : ℕ
  nrDevices : ℕ
  online : Bool := true
  alive : Bool := true
deriving DecidableEq, Repr

/-- `bch_alloc_v4`, as far as the allocator reads it. -/
structure AllocV4 where
  gen : ℕ
  dataType : ℕ
deriving DecidableEq, Repr

/-- `btree_open_bucket`. -/
structure OpenBucket where
  valid : Bool := false
  dev : ℕ := 0
  gen : ℕ := 0
  bucket : ℕ := 0
  sectorsFree : ℕ := 0
deriving DecidableEq, Repr

/-- `btree_write_point`: whether `ptrs` holds an open bucket, the entry `ptrs.v[0]`, which stays
when `ptrs` is emptied, and the sectors left. -/
structure WritePoint where
  held : Bool := false
  slot : Fin openBucketsNr := ⟨0, by decide⟩
  sectorsFree : ℕ := 0

/-- `bch_fs_allocator`, with the alloc tree and the freespace tree. -/
structure Allocator where
  openBuckets : Fin openBucketsNr → OpenBucket := fun _ => {}
  wp : WritePoint := {}
  alloc : ℕ → Option AllocV4
  freespace : List ℕ

/-- `bch_extent_ptr`: 8 bits for the device, 8 for the generation, 44 for the sector. -/
structure ExtentPtr where
  dev : ℕ
  gen : ℕ
  offset : ℕ
deriving DecidableEq, Repr

/-! ### Taking a bucket -/

/-- Whether `bch2_bucket_alloc_freelist` takes a bucket: when the freespace tree has entries, the
bucket has to be one of them. -/
def Allocator.takes (a : Allocator) (bucket : ℕ) : Bool :=
  match a.alloc bucket with
  | some v => (a.freespace.isEmpty || a.freespace.contains bucket) && v.dataType == bchDataFree
  | none => false

/-- The bucket marked as taken. -/
def Allocator.mark (a : Allocator) (bucket : ℕ) : Allocator :=
  { a with
    alloc := Function.update a.alloc bucket
      ((a.alloc bucket).map fun v => { v with dataType := bchDataBtree })
    freespace := a.freespace.filter fun b => b != bucket }

/-- `bch2_bucket_alloc_freelist`: the first bucket of the device that is free, and its generation.
A commit that fails, other than with a restart, ends in the error for a full device. -/
def bch2BucketAllocFreelist (m : Member) (commits : Bool) (a : Allocator) :
    Except ℤ (ℕ × ℕ) × Allocator :=
  if ¬m.devIdx < m.nrDevices ∨ m.online = false then (.error (-1), a)
  else if m.bucketSize = 0 ∨ m.alive = false then (.error (-1), a)
  else
    match (List.range' m.firstBucket (m.nbuckets - m.firstBucket)).find? a.takes with
    | some bucket =>
      if commits then (.ok (bucket, ((a.alloc bucket).map AllocV4.gen).getD 0), a.mark bucket)
      else (.error (-28), a)
    | none => (.error (-28), a)

/-! ### The write point -/

/-- The open bucket of the write point is used up. -/
def closeWritePoint (a : Allocator) : Allocator :=
  { a with
    openBuckets :=
      if a.wp.held then
        Function.update a.openBuckets a.wp.slot
          { a.openBuckets a.wp.slot with valid := false, sectorsFree := 0 }
      else a.openBuckets
    wp := { a.wp with held := false } }

/-- A bucket becomes the open bucket of the write point, in the first entry that is not in use. -/
def openBucket (m : Member) (bucket gen : ℕ) (a : Allocator) : Option Allocator :=
  ((List.finRange openBucketsNr).find? fun i => !(a.openBuckets i).valid).map fun i =>
    { a with
      openBuckets := Function.update a.openBuckets i ⟨true, m.devIdx, gen, bucket, m.bucketSize⟩
      wp := ⟨true, i, m.bucketSize⟩ }

/-- Take a bucket and open it. -/
def newBucket (m : Member) (commits : Bool) (a : Allocator) : Except ℤ Unit × Allocator :=
  match bch2BucketAllocFreelist m commits a with
  | (.error ret, a) => (.error ret, a)
  | (.ok (bucket, gen), a) =>
    match openBucket m bucket gen a with
    | none => (.error (-1), a)
    | some a => (.ok (), a)

/-- Cut sectors off the open bucket of the write point. -/
def carve (m : Member) (sectors : ℕ) (a : Allocator) : Except ℤ ExtentPtr × Allocator :=
  let ob := a.openBuckets a.wp.slot
  if ob.valid = false ∨ ob.sectorsFree < sectors then (.error (-28), a)
  else
    let offset := ob.bucket * m.bucketSize + (m.bucketSize - ob.sectorsFree)
    (.ok ⟨ob.dev % 2 ^ 8, ob.gen % 2 ^ 8, offset % 2 ^ 44⟩,
      { a with
        openBuckets := Function.update a.openBuckets a.wp.slot
          { ob with sectorsFree := ob.sectorsFree - sectors }
        wp := { a.wp with sectorsFree := a.wp.sectorsFree - sectors } })

/-- `bch2_alloc_sectors_btree`. -/
def bch2AllocSectorsBtree (m : Member) (commits : Bool) (sectors : ℕ) (a : Allocator) :
    Except ℤ ExtentPtr × Allocator :=
  if a.wp.sectorsFree < sectors then
    match newBucket m commits (closeWritePoint a) with
    | (.error ret, a) => (.error ret, a)
    | (.ok (), a) => carve m sectors a
  else carve m sectors a

/-! ### Nodes and their sectors -/

/-- A node in memory: whether it is in use or freeable, the pointer in its key, its contents and
the sets on disk. -/
structure StoreNode where
  live : Bool
  ptr : Option ExtentPtr
  leaf : LeafState
deriving DecidableEq, Repr

/-- The allocator, the cache of sectors given back, newest first, and the nodes in memory. -/
structure NodeStore where
  allocator : Allocator
  reserve : List ExtentPtr := []
  nodes : List StoreNode := []

/-- The largest size of `reserve_cache`. -/
def reserveCacheMax : ℕ := 16

/-- `bch2_btree_node_alloc_sectors`: sectors that were given back, or new ones. -/
def bch2BtreeNodeAllocSectors (m : Member) (commits : Bool) (s : NodeStore) :
    Except ℤ ExtentPtr × NodeStore :=
  match s.reserve with
  | ptr :: reserve => (.ok ptr, { s with reserve := reserve })
  | [] =>
    match bch2AllocSectorsBtree m commits m.nodeSize s.allocator with
    | (res, a) => (res, { s with allocator := a })

/-- `bch2_btree_reserve_cache_put`: the sectors of a node that was never written. -/
def bch2BtreeReserveCachePut (n : StoreNode) (reserve : List ExtentPtr) : List ExtentPtr :=
  match n.ptr with
  | none => reserve
  | some ptr =>
    if n.leaf.node.written = 0 ∧ reserve.length < reserveCacheMax then ptr :: reserve else reserve

/-- The words of the buffer of a new node: `bch2_btree_node_mem_alloc` takes the buffer of a
freeable node as it is, or a new one of the size of the superblock, and a node made from another
one gets a buffer at least as large. -/
def newBufU64s (m : Member) (reused src : Option StoreNode) : ℕ :=
  let buf := match reused with
    | some n => n.leaf.node.bufU64s
    | none => m.nodeSize * sectorWords
  match src with
  | some n => max buf n.leaf.node.bufU64s
  | none => buf

/-- A new node with the keys that are copied into it. -/
def newNode (header : NodeHeader) (keys : List BkeyPacked) (bufU64s : ℕ) (ptr : ExtentPtr) :
    StoreNode where
  live := true
  ptr := some ptr
  leaf :=
    { node :=
        { header := header
          bufU64s := bufU64s
          ptrDev := some ptr.dev
          sets := [⟨btreeNodeU64s - bsetHeaderU64s, 0, keys⟩]
          dirty := true }
      disk := {} }

/-! ### Growing a leaf -/

/-- How many keys `bch2_btree_split_leaf` gives to each side: a key goes to the right when the
words of the keys before it reach the target. -/
def splitCounts (target : ℕ) : ℕ → List BkeyPacked → ℕ × ℕ
  | _, [] => (0, 0)
  | cumulative, k :: keys =>
    let rest := splitCounts target (cumulative + k.u64s) keys
    if target ≤ cumulative then (rest.1, rest.2 + 1) else (rest.1 + 1, rest.2)

/-- The keys of a node in the order of the node iterator. -/
def BtreeNode.inOrder (b : BtreeNode) : List BkeyPacked := bch2SortKeys (b.sets.map Bset.keys)

/-- Whether one side of a split would be empty. -/
def splitOneSided (b : BtreeNode) : Bool :=
  let nr := splitCounts (b.liveU64s * 3 / 5) 0 b.inOrder
  nr.1 == 0 || nr.2 == 0

/-- The words of the largest buffer, `byte_order` 16. -/
def maxBufU64s : ℕ := 2 ^ 13

/-- The growth path of `bch2_btree_split_leaf`: the buffer of a leaf that cannot be split is
doubled. -/
def growLeaf (b : BtreeNode) : Option BtreeNode :=
  if b.header.level = 0 ∧ splitOneSided b = true ∧ b.bufU64s < maxBufU64s then
    some { b with bufU64s := 2 * b.bufU64s }
  else none

/-! ### Writes -/

/-- The set that `__bch2_btree_node_write` hands to the device, whether the device takes it or
not. -/
def nodeWriteAttempt (io : NodeIo) (b : BtreeNode) : Option DiskBset :=
  (bch2BtreeNodeWrite { io with taken := true } b {}).bind fun r => r.2.2.bsets.head?

/-- The set that `bch2_btree_node_write_trans` hands to the device. -/
def writeTransAttempt (io : NodeIo) (onlyIfNeed blocked : Bool) (b : BtreeNode) :
    Option DiskBset :=
  if !b.dirty ∨ (onlyIfNeed ∧ !b.needWrite) ∨ blocked then none
  else nodeWriteAttempt io (startWrite b)

/-- The set that `bch2_btree_init_next` hands to the device. -/
def initNextAttempt (io : NodeIo) (b : BtreeNode) : Option DiskBset :=
  if b.nsets = maxBsets ∧ shouldCompactAll b then writeTransAttempt io false false b else none

/-- The set that an operation on a node hands to the device. -/
def NodeOp.attempt (dev : NodeIo) (b : BtreeNode) : NodeOp → Option DiskBset
  | .write a onlyIfNeed blocked => writeTransAttempt (dev.answers a) onlyIfNeed blocked b
  | .initNext a => initNextAttempt (dev.answers a) b
  | .prepForWrite a => do
    let b ← bch2BtreePostWriteCleanup (dev.answers a).blockSectors b
    let _ ← wantNewBset (dev.answers a).blockSectors b
    initNextAttempt (dev.answers a) b
  | .insert _ _ => none
  | .dropWhiteouts _ => none
  | .compact => none
  | .reload _ => none

/-! ### Runs -/

/-- The operations of the store. A new node is made in the memory of a freeable node or in new
memory, and as a copy of another node or not; its sectors are cut off or come from the cache. -/
inductive StoreOp
  | closeWritePoint
  | newBucket (commits : Bool)
  | allocNode (reused src : Option ℕ) (header : NodeHeader) (keys : List BkeyPacked)
  | reuseSectors (reused src : Option ℕ) (header : NodeHeader) (keys : List BkeyPacked)
  | reservePut (i : ℕ)
  | node (i : ℕ) (op : NodeOp)
  | grow (i : ℕ)
  | retire (i : ℕ)

namespace NodeStore

/-- The node with an index, when it is in use. -/
def liveNode (s : NodeStore) (i : ℕ) : Option StoreNode := s.nodes[i]?.filter fun n => n.live

/-- The node with an index, when it is freeable. -/
def freeableNode (s : NodeStore) (i : ℕ) : Option StoreNode :=
  s.nodes[i]?.filter fun n => !n.live

/-- A node put in the place of a freeable node, or behind the others. -/
def place (s : NodeStore) (reused : Option ℕ) (n : StoreNode) : NodeStore :=
  match reused with
  | some i => { s with nodes := s.nodes.set i n }
  | none => { s with nodes := s.nodes ++ [n] }

/-- A new node with the sectors at `ptr`. -/
def addNode (m : Member) (s : NodeStore) (reused src : Option ℕ) (header : NodeHeader)
    (keys : List BkeyPacked) (ptr : ExtentPtr) : Option NodeStore :=
  if (∀ i ∈ reused, (s.freeableNode i).isSome) ∧ (∀ i ∈ src, (s.liveNode i).isSome) then
    let buf := newBufU64s m (reused.bind s.freeableNode) (src.bind s.liveNode)
    some (s.place reused (newNode header keys buf ptr))
  else none

/-- One operation of the store; `none` when it does not apply or fails. -/
def step (m : Member) (dev : NodeIo) (s : NodeStore) : StoreOp → Option NodeStore
  | .closeWritePoint => some { s with allocator := Subvol.closeWritePoint s.allocator }
  | .newBucket commits => some { s with allocator := (Subvol.newBucket m commits s.allocator).2 }
  | .allocNode reused src header keys =>
    match carve m m.nodeSize s.allocator with
    | (.ok ptr, a) => addNode m { s with allocator := a } reused src header keys ptr
    | (.error _, _) => none
  | .reuseSectors reused src header keys =>
    match s.reserve with
    | ptr :: reserve => addNode m { s with reserve := reserve } reused src header keys ptr
    | [] => none
  | .reservePut i => (s.liveNode i).map fun n =>
    { s with
      reserve := bch2BtreeReserveCachePut n s.reserve
      nodes := s.nodes.set i { n with live := false } }
  | .node i op => (s.liveNode i).bind fun n => (op.step dev n.leaf).map fun leaf =>
    { s with nodes := s.nodes.set i { n with leaf := leaf } }
  | .grow i => (s.liveNode i).bind fun n => (growLeaf n.leaf.node).map fun b =>
    { s with nodes := s.nodes.set i { n with leaf := { n.leaf with node := b } } }
  | .retire i => (s.liveNode i).map fun n =>
    { s with nodes := s.nodes.set i { n with live := false } }

end NodeStore

/-- A run of the store. -/
def runStore (m : Member) (dev : NodeIo) : List StoreOp → NodeStore → Option NodeStore
  | [], s => some s
  | op :: ops, s => (s.step m dev op).bind (runStore m dev ops)

end Subvol

import Subvol.Btree.NodeRead

/-!
# Runs of a leaf

A leaf goes through insertions and deletions, compactions, new sets, writes and reads back, in any
order. From a leaf that has not been written yet the invariant of `NodeWrite` holds along every
such run, as long as no failed write loses a whiteout that a key on disk needs.

## Main definitions

* `LeafState`, `NodeOp`, `runOps`: a leaf with its sectors, and runs.
* `FreshLeaf`: a leaf that has not been written.
* `WriteSafe`: a write that, if it fails, loses nothing.

## Main results

* `NodeOp.inv`, `runOps_inv`: the invariant along a step and along a run.
* `node_read_after_write`: what a read finds behind a write that succeeded.
* `node_read_after_failed_write`: the same with a failed write before it.
-/

namespace Subvol

/-- A leaf and its sectors. -/
structure LeafState where
  node : BtreeNode
  disk : NodeDisk
deriving DecidableEq, Repr

/-- The answers of the device to one write or read. -/
structure DevAnswer where
  online : Bool := true
  inFile : Bool := true
  taken : Bool := true
deriving DecidableEq, Repr

/-- The superblock and the device with the answers to one write or read. -/
def NodeIo.answers (dev : NodeIo) (a : DevAnswer) : NodeIo :=
  { dev with online := a.online, inFile := a.inFile, taken := a.taken }

/-- The operations on a leaf. The keys of a transaction come without the bit `needs_whiteout`. -/
inductive NodeOp
  | insert (k : Bkey) (journalSeq : ℕ)
  | dropWhiteouts (mode : CompactMode)
  | compact
  | initNext (a : DevAnswer)
  | prepForWrite (a : DevAnswer)
  | write (a : DevAnswer) (onlyIfNeed blocked : Bool)
  | reload (a : DevAnswer)

namespace NodeOp

/-- One operation; `none` is a failed assertion or a read that did not return a node. -/
def step (dev : NodeIo) (s : LeafState) : NodeOp → Option LeafState
  | insert k journalSeq =>
    (bch2BtreeInsertKeyLeaf s.node k false journalSeq).map fun b => { s with node := b }
  | dropWhiteouts mode => (bch2DropWhiteouts s.node mode).map fun r => { s with node := r.1 }
  | compact => (bch2BtreeNodeCompact s.node).map fun b => { s with node := b }
  | initNext a => (bch2BtreeInitNext (dev.answers a) s.node s.disk).map fun r => ⟨r.1, r.2⟩
  | prepForWrite a =>
    (bch2BtreeNodePrepForWrite (dev.answers a) s.node s.disk).map fun r => ⟨r.1, r.2⟩
  | write a onlyIfNeed blocked =>
    (bch2BtreeNodeWriteTrans (dev.answers a) onlyIfNeed blocked s.node s.disk).map fun r =>
      ⟨r.2.1, r.2.2⟩
  | reload a =>
    match bch2BtreeNodeRead (dev.answers a) s.node s.disk 0 with
    | .ok b => some { s with node := b }
    | _ => none

end NodeOp

/-! ### Writes that lose nothing -/

instance (h : NodeHeader) (k : Bkey) : Decidable (InsertValid h k) :=
  decidable_of_iff (h.minKey ≤ k.p ∧ k.p ≤ h.maxKey ∧ k.type ≠ keyTypeBtreePtrV2)
    ⟨fun hv => ⟨hv.1, hv.2.1, hv.2.2⟩, fun hv => ⟨hv.1, hv.2, hv.3⟩⟩

instance (io : NodeIo) (b : BtreeNode) : Decidable (WriteChecks io b) :=
  decidable_of_iff (io.online = true ∧ b.nsets ≠ 0 ∧ sectorWords ≤ b.bufU64s ∧
      b.ptrDev = some io.devIdx ∧ b.header.seq ≠ 0 ∧ b.nsets ≤ maxBsets ∧
      b.written < b.bufU64s / sectorWords ∧ b.written % io.blockSectors = 0)
    ⟨fun ⟨h₁, h₂, h₃, h₄, h₅, h₆, h₇, h₈⟩ => ⟨h₁, h₂, h₃, h₄, h₅, h₆, h₇, h₈⟩,
      fun h => ⟨h.1, h.2, h.3, h.4, h.5, h.6, h.7, h.8⟩⟩

instance (b : BtreeNode) (disk : NodeDisk) : Decidable (WhiteoutsSpare b disk) :=
  inferInstanceAs (Decidable (∀ x ∈ b.whiteouts, nodeView disk x.pos = none))

/-- A write that succeeds, or fails in a check before the whiteouts are touched, or has no whiteout
waiting for a key that is live on disk. -/
def WriteSafe (io : NodeIo) (onlyIfNeed blocked : Bool) (s : LeafState) : Prop :=
  ∀ r ∈ bch2BtreeNodeWriteTrans io onlyIfNeed blocked s.node s.disk, r.1 ≠ 0 →
    WriteChecks io s.node → WhiteoutsSpare s.node s.disk

instance (io : NodeIo) (onlyIfNeed blocked : Bool) (s : LeafState) :
    Decidable (WriteSafe io onlyIfNeed blocked s) :=
  inferInstanceAs (Decidable (∀ r ∈ _, _))

/-- `bch2_btree_init_next` writes the node when it has all sets and they are large. -/
def InnerWriteSafe (io : NodeIo) (s : LeafState) : Prop :=
  s.node.nsets = maxBsets ∧ shouldCompactAll s.node = true → WriteSafe io false false s

instance (io : NodeIo) (s : LeafState) : Decidable (InnerWriteSafe io s) :=
  inferInstanceAs (Decidable (_ → _))

/-- What an operation asks of its state: a key in the range of the leaf, and a write that loses
nothing. -/
def NodeOp.Allowed (dev : NodeIo) (s : LeafState) : NodeOp → Prop
  | .insert k _ => InsertValid s.node.header k
  | .dropWhiteouts _ => True
  | .compact => True
  | .initNext a => InnerWriteSafe (dev.answers a) s
  | .prepForWrite a => InnerWriteSafe (dev.answers a) s
  | .write a onlyIfNeed blocked => WriteSafe (dev.answers a) onlyIfNeed blocked s
  | .reload _ => s.node.written ≠ 0

instance (dev : NodeIo) (s : LeafState) : (op : NodeOp) → Decidable (op.Allowed dev s)
  | .insert k _ => inferInstanceAs (Decidable (InsertValid s.node.header k))
  | .dropWhiteouts _ => inferInstanceAs (Decidable True)
  | .compact => inferInstanceAs (Decidable True)
  | .initNext a => inferInstanceAs (Decidable (InnerWriteSafe (dev.answers a) s))
  | .prepForWrite a => inferInstanceAs (Decidable (InnerWriteSafe (dev.answers a) s))
  | .write a onlyIfNeed blocked =>
    inferInstanceAs (Decidable (WriteSafe (dev.answers a) onlyIfNeed blocked s))
  | .reload _ => inferInstanceAs (Decidable (s.node.written ≠ 0))

/-- A run of allowed operations. -/
def runOps (dev : NodeIo) : List NodeOp → LeafState → Option LeafState
  | [], s => some s
  | op :: ops, s => if op.Allowed dev s then (op.step dev s).bind (runOps dev ops) else none

/-- A leaf that has not been written: one set of live keys in the range of the leaf. Offsets have
16 bits, so a buffer has at most `2 ^ 16` words. -/
structure FreshLeaf (s : LeafState) : Prop where
  disk : s.disk.bsets = []
  sets : ∃ seq keys, s.node.sets = [⟨btreeNodeU64s - bsetHeaderU64s, seq, keys⟩]
  sorted : ∀ t ∈ s.node.sets, PosSorted t.keys
  valid : ∀ t ∈ s.node.sets, ∀ k ∈ t.keys, KeyValid s.node.header k ∧ k.deleted = false
  whiteouts : s.node.whiteouts = []
  written : s.node.written = 0
  sectorsWritten : s.node.sectorsWritten = 0
  justWritten : s.node.justWritten = false
  format_pos : 0 < s.node.header.format.keyU64s
  format_le : s.node.header.format.keyU64s ≤ bkeyU64s
  buffer : s.node.bufU64s ≤ 2 ^ 16

theorem FreshLeaf.inv {s : LeafState} (h : FreshLeaf s) : NodeInv s.node s.disk := by
  obtain ⟨seq, keys, hsets⟩ := h.sets
  have hunwritten : ∀ t, s.node.bsetWritten t = false := by
    intro t
    simp [BtreeNode.bsetWritten, h.written]
  have hview : ∀ p, nodeView s.disk p = none := by
    intro p
    simp [nodeView, diskKeys, h.disk, viewOf, newestAt]
  refine ⟨⟨?_, ?_, h.sorted, ?_, ?_, ?_, ?_, ?_, ?_, h.format_pos, h.format_le⟩,
    ⟨?_, ?_, ?_, ?_, ?_, ?_, ?_, ?_, ?_, ?_⟩, h.justWritten, ?_, ?_, ?_⟩
  · simp [hsets]
  · intro t ht
    rw [hsets] at ht
    obtain rfl := Option.some.inj ht
    show btreeNodeU64s - bsetHeaderU64s < sectorWords
    decide
  · rw [hsets]
    exact List.pairwise_singleton _ _
  · rw [hsets]
    exact List.pairwise_singleton _ _
  · exact fun t ht k hk => (h.valid t ht k hk).1
  · simp [h.whiteouts]
  · simp [h.whiteouts]
  · simp [h.whiteouts]
  · exact fun _ => h.disk
  · exact fun hne => absurd h.written hne
  all_goals try simp [h.disk, h.written, h.sectorsWritten]
  · rintro k ⟨t, -, hw, -, -⟩
    rw [hunwritten] at hw
    cases hw
  · intro p hp
    exact absurd (hview p) hp
  · intro w k _ _ x hx
    rw [h.whiteouts] at hx
    cases hx

/-! ### The invariant along a run -/

namespace NodeInv

variable {b b' : BtreeNode} {disk disk' : NodeDisk} {io : NodeIo}

/-- A write that loses nothing keeps the invariant. -/
theorem writeTrans (h : NodeInv b disk) {onlyIfNeed blocked : Bool} {ret : ℤ}
    (hsafe : WriteSafe io onlyIfNeed blocked ⟨b, disk⟩)
    (hw : bch2BtreeNodeWriteTrans io onlyIfNeed blocked b disk = some (ret, b', disk')) :
    NodeInv b' disk' := by
  by_cases hstart : WriteStarts onlyIfNeed blocked b
  · by_cases hret : ret = 0
    · subst hret
      exact (h.tied.writeTrans_done hstart hw).inv
    · exact (h.of_failed (writeTrans_failed hstart hw hret) (hsafe _ hw hret)).1
  · obtain ⟨rfl, rfl, -⟩ := writeTrans_idle hstart hw
    exact h

theorem initNext (h : NodeInv b disk) (hsafe : InnerWriteSafe io ⟨b, disk⟩)
    (hb : bch2BtreeInitNext io b disk = some (b', disk')) : NodeInv b' disk' := by
  obtain ⟨⟨ret, b₁, disk₁⟩, hw, hb⟩ := Option.bind_eq_some_iff.mp hb
  obtain ⟨b₂, hc, hb⟩ := Option.bind_eq_some_iff.mp hb
  have h₁ : NodeInv b₁ disk₁ := by
    rw [writeLargeSets] at hw
    split_ifs at hw with hlarge
    · exact h.writeTrans (hsafe hlarge) hw
    · cases hw
      exact h
  have h₂ : NodeInv b₂ disk₁ := by
    rw [compactFull] at hc
    split_ifs at hc
    · exact h₁.rearranged (h₁.shape.compact hc)
    · cases hc
      exact h₁
  split_ifs at hb
  obtain ⟨b₃, ho, hb⟩ := Option.bind_eq_some_iff.mp hb
  cases hb
  exact h₂.rearranged (h₂.shape.openWantedBset ho)

theorem prepForWrite (h : NodeInv b disk) (hsafe : InnerWriteSafe io ⟨b, disk⟩)
    (hb : bch2BtreeNodePrepForWrite io b disk = some (b', disk')) : NodeInv b' disk' := by
  have hclean : bch2BtreePostWriteCleanup io.blockSectors b = some b := by
    rw [bch2BtreePostWriteCleanup, h.justWritten]
    rfl
  rw [bch2BtreeNodePrepForWrite, hclean] at hb
  simp only [Option.bind_eq_bind, Option.bind_some] at hb
  split at hb
  · exact h.initNext hsafe hb
  · cases hb
    exact h

end NodeInv

/-- One operation keeps the invariant. -/
theorem NodeOp.inv {dev : NodeIo} {s s' : LeafState} {op : NodeOp} (h : NodeInv s.node s.disk)
    (ha : op.Allowed dev s) (hs : op.step dev s = some s') : NodeInv s'.node s'.disk := by
  cases op with
  | insert k seq =>
    obtain ⟨b, hb, rfl⟩ := Option.map_eq_some_iff.mp hs
    exact h.insert (h.shape.insertKeyLeaf h.apart ha hb)
  | dropWhiteouts mode =>
    obtain ⟨r, hr, rfl⟩ := Option.map_eq_some_iff.mp hs
    exact h.rearranged (h.shape.dropWhiteouts hr)
  | compact =>
    obtain ⟨b, hb, rfl⟩ := Option.map_eq_some_iff.mp hs
    exact h.rearranged (h.shape.compact hb)
  | initNext a =>
    obtain ⟨r, hr, rfl⟩ := Option.map_eq_some_iff.mp hs
    exact h.initNext ha hr
  | prepForWrite a =>
    obtain ⟨r, hr, rfl⟩ := Option.map_eq_some_iff.mp hs
    exact h.prepForWrite ha hr
  | write a onlyIfNeed blocked =>
    obtain ⟨⟨ret, b, disk⟩, hr, rfl⟩ := Option.map_eq_some_iff.mp hs
    exact h.writeTrans ha hr
  | reload a =>
    simp only [NodeOp.step] at hs
    split at hs
    · rename_i b hb
      cases hs
      obtain ⟨hok, hpanic⟩ := h.tied.nodeRead_zero (readReady_of_ok hb) ha
      by_cases hle : (nonEmptySets s.disk.bsets).length ≤ sortIterStackSize
      · obtain ⟨b', hb', -, hinv, -⟩ := hok hle
        rw [hb] at hb'
        cases hb'
        exact hinv
      · rw [hpanic (not_le.mp hle)] at hb
        cases hb
    · cases hs

theorem runOps_inv {dev : NodeIo} {ops : List NodeOp} {s s' : LeafState}
    (h : NodeInv s.node s.disk) (hrun : runOps dev ops s = some s') :
    NodeInv s'.node s'.disk := by
  induction ops generalizing s with
  | nil =>
    cases hrun
    exact h
  | cons op ops ih =>
    rw [runOps] at hrun
    split_ifs at hrun with ha
    obtain ⟨s₁, hs₁, hrun⟩ := Option.bind_eq_some_iff.mp hrun
    exact ih (NodeOp.inv h ha hs₁) hrun

/-! ### Reads behind writes -/

/-- A read of the sectors finds the live keys of the node. -/
def NodeReadsBack (dev : NodeIo) (b : BtreeNode) (disk : NodeDisk) : Prop :=
  ∃ b', bch2BtreeNodeRead (dev.answers {}) b disk 0 = .ok b' ∧ b'.liveMap = b.liveMap

/-- Behind a write that succeeded the sectors show the live keys, and a read finds them when the
sets with keys fit its sort iterator. -/
theorem WriteDone.nodeReadsBack_iff {dev : NodeIo} {a : DevAnswer} {b b' : BtreeNode}
    {disk' : NodeDisk} (h : WriteDone (dev.answers a) b b' disk') :
    NodeReadsBack dev b' disk' ↔ (nonEmptySets disk'.bsets).length ≤ sortIterStackSize := by
  have hready : ReadReady (dev.answers {}) b' := ⟨rfl, h.buffer, h.dev, rfl, rfl⟩
  obtain ⟨hok, hpanic⟩ := h.inv.tied.nodeRead_zero hready h.written_ne
  constructor
  · rintro ⟨b'', hb'', -⟩
    by_contra hlt
    rw [hpanic (not_le.mp hlt)] at hb''
    cases hb''
  · intro hle
    obtain ⟨b'', hb'', hmap, -⟩ := hok hle
    refine ⟨b'', hb'', ?_⟩
    rw [hmap, h.liveMap]
    funext p
    exact h.view p

/-- A run from `s₀` to `s` and a write there that succeeds and leaves `b'` and `disk'`. -/
def WrittenAfter (dev : NodeIo) (s₀ s : LeafState) (b' : BtreeNode) (disk' : NodeDisk) : Prop :=
  ∃ ops a onlyIfNeed, runOps dev ops s₀ = some s ∧ WriteStarts onlyIfNeed false s.node ∧
    bch2BtreeNodeWriteTrans (dev.answers a) onlyIfNeed false s.node s.disk = some (0, b', disk')

/-- A run from `s₀` to `s` and a write there that fails and leaves `b₁` and `disk₁`. -/
def FailedAfter (dev : NodeIo) (a : DevAnswer) (s₀ s : LeafState) (b₁ : BtreeNode)
    (disk₁ : NodeDisk) : Prop :=
  ∃ ops onlyIfNeed ret, runOps dev ops s₀ = some s ∧ WriteStarts onlyIfNeed false s.node ∧
    bch2BtreeNodeWriteTrans (dev.answers a) onlyIfNeed false s.node s.disk =
      some (ret, b₁, disk₁) ∧ ret ≠ 0

theorem NodeInv.writtenAfter {dev : NodeIo} {s₀ s : LeafState} {b' : BtreeNode}
    {disk' : NodeDisk} (h : NodeInv s₀.node s₀.disk) (hw : WrittenAfter dev s₀ s b' disk') :
    b'.liveMap = s.node.liveMap ∧
      (NodeReadsBack dev b' disk' ↔ (nonEmptySets disk'.bsets).length ≤ sortIterStackSize) := by
  obtain ⟨ops, a, onlyIfNeed, hrun, hstart, hw⟩ := hw
  have hdone := (runOps_inv h hrun).tied.writeTrans_done hstart hw
  exact ⟨hdone.liveMap, hdone.nodeReadsBack_iff⟩

/-- Behind every run of a leaf that ends in a write that succeeded, a read of its sectors yields the
live keys of the node if at most four of the sets on disk hold keys, and fails otherwise. -/
theorem node_read_after_write {dev : NodeIo} {s₀ s : LeafState} {b' : BtreeNode}
    {disk' : NodeDisk} (h₀ : FreshLeaf s₀) (hw : WrittenAfter dev s₀ s b' disk') :
    b'.liveMap = s.node.liveMap ∧
      (NodeReadsBack dev b' disk' ↔ (nonEmptySets disk'.bsets).length ≤ sortIterStackSize) :=
  h₀.inv.writtenAfter hw

/-! A leaf with one key in a buffer of eight sectors, for the runs below. -/

/-- The device of the small leaf. -/
def smallNodeDev : NodeIo := {}

/-- The key of the small leaf with inode `i`. -/
def smallKey (i : Fin (2 ^ 64)) : Bkey where
  p := ⟨i, 0, 0⟩
  type := 3
  val := [7]

/-- A deletion of that key. -/
def smallDelete (i : Fin (2 ^ 64)) : Bkey where
  p := ⟨i, 0, 0⟩
  type := keyTypeDeleted
  val := []

/-- The small leaf. -/
def smallLeaf : LeafState where
  node :=
    { header := ⟨1, 0, 0, ⟨0, 0, 0⟩, ⟨100, 0, 0⟩, bkeyFormatCurrent⟩
      bufU64s := 512
      sets := [⟨17, 1, [packKey bkeyFormatCurrent (smallKey 1) false]⟩]
      ptrDev := some 0
      dirty := true }
  disk := {}

theorem smallLeaf_fresh : FreshLeaf smallLeaf where
  disk := rfl
  sets := ⟨1, _, rfl⟩
  sorted := by
    intro t ht
    obtain rfl := List.mem_singleton.mp ht
    exact List.pairwise_singleton _ _
  valid := by
    intro t ht k hk
    obtain rfl := List.mem_singleton.mp ht
    obtain rfl := List.mem_singleton.mp hk
    exact ⟨⟨by decide +kernel, by decide +kernel, by decide, by decide +kernel⟩, rfl⟩
  whiteouts := rfl
  written := rfl
  sectorsWritten := rfl
  justWritten := rfl
  format_pos := by decide
  format_le := by decide
  buffer := by decide

/-- A run and a write behind it, found by evaluation. -/
theorem writtenAfter_of_eval (dev : NodeIo) (s₀ : LeafState) (P : BtreeNode → NodeDisk → Bool)
    (ops : List NodeOp)
    (h : (runOps dev ops s₀).any (fun s => s.node.dirty &&
      (bch2BtreeNodeWriteTrans (dev.answers {}) false false s.node s.disk).any fun r =>
        r.1 == 0 && P r.2.1 r.2.2) = true) :
    ∃ s b' disk', WrittenAfter dev s₀ s b' disk' ∧ P b' disk' = true := by
  obtain ⟨s, hs, h⟩ := Option.any_eq_true _ _ |>.mp h
  obtain ⟨hdirty, h⟩ := Bool.and_eq_true_iff.mp h
  obtain ⟨⟨ret, b', disk'⟩, hr, h⟩ := Option.any_eq_true _ _ |>.mp h
  obtain ⟨hret, hP⟩ := Bool.and_eq_true_iff.mp h
  obtain rfl : ret = 0 := by simpa using hret
  exact ⟨s, b', disk', ⟨ops, {}, false, hs, ⟨hdirty, by simp, rfl⟩, hr⟩, hP⟩

/-- Three sets: a key, another one, and a deletion of the first. -/
theorem node_read_after_write_small : FreshLeaf smallLeaf ∧
    ∃ s b' disk', WrittenAfter smallNodeDev smallLeaf s b' disk' ∧ s.node.liveMap ⟨1, 0, 0⟩ = none ∧
      NodeReadsBack smallNodeDev b' disk' := by
  obtain ⟨s, b', disk', hw, hP⟩ := writtenAfter_of_eval smallNodeDev smallLeaf
    (fun b' disk' => decide ((nonEmptySets disk'.bsets).length = 3 ∧
      b'.liveMap ⟨1, 0, 0⟩ = none))
    [.write {} false false, .insert (smallKey 2) 2, .write {} false false,
      .insert (smallDelete 1) 3] (by decide +kernel)
  obtain ⟨hlen, hnone⟩ := of_decide_eq_true hP
  obtain ⟨hmap, hread⟩ := node_read_after_write smallLeaf_fresh hw
  exact ⟨smallLeaf_fresh, s, b', disk', hw, by rw [← hmap]; exact hnone,
    hread.mpr (by rw [hlen]; decide)⟩

/-- Five writes leave five sets on disk, and the read fails. -/
theorem node_read_fifth_set_fails : ¬∀ (dev : NodeIo) (s₀ s : LeafState) (b' : BtreeNode)
    (disk' : NodeDisk), FreshLeaf s₀ → WrittenAfter dev s₀ s b' disk' →
      NodeReadsBack dev b' disk' := by
  intro hclaim
  obtain ⟨s, b', disk', hw, hP⟩ := writtenAfter_of_eval smallNodeDev smallLeaf
    (fun b' disk' => decide (bch2BtreeNodeRead (smallNodeDev.answers {}) b' disk' 0 = .panic))
    [.write {} false false, .insert (smallKey 2) 2, .write {} false false,
      .insert (smallKey 3) 3, .write {} false false, .insert (smallKey 4) 4,
      .write {} false false, .insert (smallKey 5) 5] (by decide +kernel)
  obtain ⟨b'', hb'', -⟩ := hclaim _ _ _ _ _ smallLeaf_fresh hw
  rw [of_decide_eq_true hP] at hb''
  cases hb''

/-- A failed write keeps the keys, the sectors and the written offset and leaves the node dirty. If
it failed before the whiteouts were touched, or none of them waited for a key that is live on disk,
then behind any later write that succeeds a read finds the live keys. -/
theorem node_read_after_failed_write {dev : NodeIo} {a : DevAnswer} {s₀ s : LeafState}
    {b₁ : BtreeNode} {disk₁ : NodeDisk} (h₀ : FreshLeaf s₀)
    (hfailed : FailedAfter dev a s₀ s b₁ disk₁)
    (hspare : WriteChecks (dev.answers a) s.node → WhiteoutsSpare s.node s.disk) :
    (disk₁ = s.disk ∧ b₁.sets = s.node.sets ∧ b₁.written = s.node.written ∧ b₁.dirty = true ∧
      b₁.liveMap = s.node.liveMap) ∧
    ∀ s' b' disk', WrittenAfter dev ⟨b₁, disk₁⟩ s' b' disk' →
      b'.liveMap = s'.node.liveMap ∧
        (NodeReadsBack dev b' disk' ↔ (nonEmptySets disk'.bsets).length ≤ sortIterStackSize) := by
  obtain ⟨ops, onlyIfNeed, ret, hrun, hstart, hw, hret⟩ := hfailed
  have hf := writeTrans_failed hstart hw hret
  obtain ⟨hinv, hmap⟩ := (runOps_inv h₀.inv hrun).of_failed hf hspare
  refine ⟨?_, fun s' b' disk' => hinv.writtenAfter⟩
  obtain ⟨rfl, ⟨wh, idx, rfl⟩, -, -⟩ := hf
  exact ⟨rfl, rfl, rfl, rfl, hmap⟩

/-- The live key that a read found at a position. -/
def NodeRead.finds (r : NodeRead) (p : Bpos) : Option Bkey :=
  match r with
  | .ok b => b.liveMap p
  | _ => none

/-- A failed write and a later one that succeeds, found by evaluation. -/
theorem failedAfter_of_eval (dev : NodeIo) (a : DevAnswer) (s₀ : LeafState)
    (Q : LeafState → Bool) (P : BtreeNode → NodeDisk → Bool) (ops ops' : List NodeOp)
    (h : (runOps dev ops s₀).any (fun s => s.node.dirty && Q s &&
      (bch2BtreeNodeWriteTrans (dev.answers a) false false s.node s.disk).any fun r =>
        r.1 != 0 && (runOps dev ops' ⟨r.2.1, r.2.2⟩).any fun s' => s'.node.dirty &&
          (bch2BtreeNodeWriteTrans (dev.answers {}) false false s'.node s'.disk).any fun r' =>
            r'.1 == 0 && P r'.2.1 r'.2.2) = true) :
    ∃ s b₁ disk₁ s' b' disk', FailedAfter dev a s₀ s b₁ disk₁ ∧ Q s = true ∧
      WrittenAfter dev ⟨b₁, disk₁⟩ s' b' disk' ∧ P b' disk' = true := by
  obtain ⟨s, hs, h⟩ := Option.any_eq_true _ _ |>.mp h
  obtain ⟨hdirty, h⟩ := Bool.and_eq_true_iff.mp h
  obtain ⟨hdirty, hQ⟩ := Bool.and_eq_true_iff.mp hdirty
  obtain ⟨⟨ret, b₁, disk₁⟩, hr, h⟩ := Option.any_eq_true _ _ |>.mp h
  obtain ⟨hret, h⟩ := Bool.and_eq_true_iff.mp h
  obtain ⟨s', b', disk', hw, hP⟩ := writtenAfter_of_eval dev _ P ops' h
  exact ⟨s, b₁, disk₁, s', b', disk',
    ⟨ops, false, ret, hs, ⟨hdirty, by simp, rfl⟩, hr, by simpa using hret⟩, hQ, hw, hP⟩

/-- A failed write of a new key, and the write behind it. -/
theorem node_read_after_failed_write_small : FreshLeaf smallLeaf ∧
    ∃ s b₁ disk₁ s' b' disk', FailedAfter smallNodeDev { taken := false } smallLeaf s b₁ disk₁ ∧
      WhiteoutsSpare s.node s.disk ∧ WrittenAfter smallNodeDev ⟨b₁, disk₁⟩ s' b' disk' ∧
      NodeReadsBack smallNodeDev b' disk' := by
  obtain ⟨s, b₁, disk₁, s', b', disk', hf, hQ, hw, hP⟩ := failedAfter_of_eval
    smallNodeDev { taken := false } smallLeaf (fun s => decide (WhiteoutsSpare s.node s.disk))
    (fun _ disk' => decide ((nonEmptySets disk'.bsets).length = 2))
    [.write {} false false, .insert (smallKey 2) 2] [.insert (smallKey 3) 3] (by decide +kernel)
  have hspare : WhiteoutsSpare s.node s.disk := of_decide_eq_true hQ
  obtain ⟨-, hlater⟩ := node_read_after_failed_write smallLeaf_fresh hf fun _ => hspare
  refine ⟨smallLeaf_fresh, s, b₁, disk₁, s', b', disk', hf, hspare, hw, ?_⟩
  exact ((hlater s' b' disk' hw).2).mpr (by rw [of_decide_eq_true hP]; decide)

/-- The deletion of a key on disk is lost in a failed write: behind the write that succeeds the
read finds the key again. -/
theorem node_failed_write_loses_deletion : ¬∀ (dev : NodeIo) (a : DevAnswer) (s₀ s : LeafState)
    (b₁ : BtreeNode) (disk₁ : NodeDisk) (s' : LeafState) (b' : BtreeNode) (disk' : NodeDisk),
    FreshLeaf s₀ → FailedAfter dev a s₀ s b₁ disk₁ → WrittenAfter dev ⟨b₁, disk₁⟩ s' b' disk' →
      (nonEmptySets disk'.bsets).length ≤ sortIterStackSize → NodeReadsBack dev b' disk' := by
  intro hclaim
  obtain ⟨s, b₁, disk₁, s', b', disk', hf, -, hw, hP⟩ := failedAfter_of_eval
    smallNodeDev { taken := false } smallLeaf (fun _ => true)
    (fun b' disk' => decide ((nonEmptySets disk'.bsets).length ≤ sortIterStackSize ∧
      b'.liveMap ⟨1, 0, 0⟩ = none ∧
      (bch2BtreeNodeRead (smallNodeDev.answers {}) b' disk' 0).finds ⟨1, 0, 0⟩ =
        some (smallKey 1)))
    [.write {} false false, .insert (smallDelete 1) 2] [.insert (smallKey 2) 3]
    (by decide +kernel)
  obtain ⟨hlen, hnone, hread⟩ := of_decide_eq_true hP
  obtain ⟨b'', hb'', hmap⟩ := hclaim _ _ _ _ _ _ _ _ _ smallLeaf_fresh hf hw hlen
  rw [hb'', NodeRead.finds, hmap, hnone] at hread
  cases hread

end Subvol

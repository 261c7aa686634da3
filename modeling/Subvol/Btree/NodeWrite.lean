import Subvol.Btree.NodeInsert

/-!
# What a node write leaves on disk

The sets of a node on disk say, position by position, what the newest key is. The invariant ties
the node in memory to them: a live key of a written set is the one on disk, and whatever is live
on disk is live in memory with the mark that it may be on disk, or has a whiteout waiting. Under it
a write that succeeds leaves exactly the live keys on disk, and for this the marks do not matter:
they decide whether a later deletion leaves a whiteout.

## Main definitions

* `nodeView`: the newest live keys on disk.
* `DiskInv`, `NodeInv`: the invariant of a node and its sectors.
* `NodeTied`: the part of it that a write needs.
* `WriteChecks`, `WhiteoutsSpare`: what decides whether a failed write loses something.

## Main results

* `NodeTied.view_write`: the disk behind a write shows the live keys.
* `NodeTied.writeTrans_done`: a write that succeeds leaves the invariant.
* `NodeInv.of_failed`: so does a write that fails and loses no whiteout.
-/

namespace Subvol

open Lib

/-! ### The newest keys on disk -/

/-- All keys on disk, oldest set first. -/
def diskKeys (disk : NodeDisk) : List BkeyPacked := disk.bsets.flatMap DiskBset.keys

/-- The live key that the newest of several keys leaves at a position. -/
def viewOf (keys : List BkeyPacked) (p : Bpos) : Option Bkey :=
  ((newestAt keys p).filter fun k => !k.deleted).map BkeyPacked.k

/-- The newest live keys on disk. -/
def nodeView (disk : NodeDisk) : Bpos → Option Bkey := viewOf (diskKeys disk)

theorem newestAt_append (l l' : List BkeyPacked) (p : Bpos) :
    newestAt (l ++ l') p = (newestAt l' p).or (newestAt l p) := by
  rw [newestAt, newestAt, newestAt, List.filter_append, List.getLast?_append]

theorem newestAt_pos {keys : List BkeyPacked} {p : Bpos} {k : BkeyPacked}
    (h : newestAt keys p = some k) : k ∈ keys ∧ k.pos = p := by
  obtain ⟨hk, hpos⟩ := List.mem_filter.mp (List.mem_of_getLast? h)
  exact ⟨hk, by simpa using hpos⟩

theorem newestAt_eq_none_iff {keys : List BkeyPacked} {p : Bpos} :
    newestAt keys p = none ↔ ∀ k ∈ keys, k.pos ≠ p := by
  rw [newestAt, List.getLast?_eq_none_iff, List.filter_eq_nil_iff]
  simp

/-- In sorted keys there is one key of a position. -/
theorem PosSorted.newestAt_eq {keys : List BkeyPacked} (h : PosSorted keys) {k : BkeyPacked}
    (hk : k ∈ keys) : newestAt keys k.pos = some k := by
  cases hn : newestAt keys k.pos with
  | none => exact absurd rfl (newestAt_eq_none_iff.mp hn k hk)
  | some x =>
    obtain ⟨hx, hpos⟩ := newestAt_pos hn
    rw [h.eq_of_pos hx hk hpos]

theorem viewOf_eq_some {keys : List BkeyPacked} {p : Bpos} {x : Bkey} :
    viewOf keys p = some x ↔
      ∃ k, newestAt keys p = some k ∧ k.deleted = false ∧ k.k = x := by
  simp only [viewOf, Option.map_eq_some_iff, Option.filter_eq_some_iff, Bool.not_eq_true']
  constructor
  · rintro ⟨k, ⟨hk, hlive⟩, rfl⟩
    exact ⟨k, hk, hlive, rfl⟩
  · rintro ⟨k, hk, hlive, rfl⟩
    exact ⟨k, ⟨hk, hlive⟩, rfl⟩

/-! ### The invariant -/

/-- The sectors of a node: sets of valid sorted keys, of which only the first may be empty, that
fill what is written. -/
structure DiskInv (b : BtreeNode) (disk : NodeDisk) : Prop where
  empty : b.written = 0 → disk.bsets = []
  header : b.written ≠ 0 → disk.header = some b.header
  sorted : ∀ s ∈ disk.bsets, PosSorted s.keys
  valid : ∀ s ∈ disk.bsets, ∀ k ∈ s.keys, KeyValid b.header k
  seq : ∀ s ∈ disk.bsets, s.seq = b.header.seq
  sectors_pos : ∀ s ∈ disk.bsets, 0 < s.sectors
  sum : (disk.bsets.map DiskBset.sectors).sum = b.written
  sectorsWritten : b.sectorsWritten = b.written
  le : b.written ≤ b.bufU64s / sectorWords
  tail_ne : ∀ s ∈ disk.bsets.tail, s.keys ≠ []

/-- The invariant of a node and its sectors. -/
structure NodeInv (b : BtreeNode) (disk : NodeDisk) : Prop where
  shape : NodeShape b
  sectors : DiskInv b disk
  justWritten : b.justWritten = false
  onDisk : ∀ k, b.Holds true k → nodeView disk k.pos = some k.k ∧ k.needsWhiteout = true
  covered : ∀ p, nodeView disk p ≠ none →
    (∃ w k, b.Holds w k ∧ k.pos = p ∧ k.needsWhiteout = true) ∨ ∃ x ∈ b.whiteouts, x.pos = p
  apart : MarksApart b

/-- The invariant without the marks of unwritten keys: whatever is live on disk, but for the
positions in `loose`, is live in memory or has a whiteout waiting. -/
structure NodeTied (b : BtreeNode) (disk : NodeDisk) (loose : Set Bpos) : Prop where
  shape : NodeShape b
  sectors : DiskInv b disk
  justWritten : b.justWritten = false
  onDisk : ∀ k, b.Holds true k → nodeView disk k.pos = some k.k ∧ k.needsWhiteout = true
  covered : ∀ p, p ∉ loose → nodeView disk p ≠ none →
    (∃ w k, b.Holds w k ∧ k.pos = p) ∨ ∃ x ∈ b.whiteouts, x.pos = p
  apart : MarksApart b

theorem NodeInv.tied {b : BtreeNode} {disk : NodeDisk} (h : NodeInv b disk) :
    NodeTied b disk ∅ where
  shape := h.shape
  sectors := h.sectors
  justWritten := h.justWritten
  onDisk := h.onDisk
  covered p _ hp := (h.covered p hp).imp_left fun ⟨w, k, hk, hkp, _⟩ => ⟨w, k, hk, hkp⟩
  apart := h.apart

theorem DiskInv.congr {b b' : BtreeNode} {disk : NodeDisk} (h : DiskInv b disk)
    (hheader : b'.header = b.header) (hbuf : b'.bufU64s = b.bufU64s)
    (hwritten : b'.written = b.written) (hsw : b'.sectorsWritten = b.sectorsWritten) :
    DiskInv b' disk where
  empty := by rw [hwritten]; exact h.empty
  header := by rw [hwritten, hheader]; exact h.header
  sorted := h.sorted
  valid := by rw [hheader]; exact h.valid
  seq := by rw [hheader]; exact h.seq
  sectors_pos := h.sectors_pos
  sum := by rw [hwritten]; exact h.sum
  sectorsWritten := by rw [hwritten, hsw]; exact h.sectorsWritten
  le := by rw [hwritten, hbuf]; exact h.le
  tail_ne := h.tail_ne

namespace NodeInv

variable {b b' : BtreeNode} {disk : NodeDisk}

/-- Moving keys keeps the invariant. -/
theorem rearranged (h : NodeInv b disk) (hr : Rearranged b b') : NodeInv b' disk := by
  obtain ⟨hshape, ⟨sets, rfl⟩, hholds⟩ := hr
  refine ⟨hshape, h.sectors.congr rfl rfl rfl rfl, h.justWritten, ?_, ?_, ?_⟩
  · exact fun k hk => h.onDisk k ((hholds true k).mp hk)
  · intro p hp
    rcases h.covered p hp with ⟨w, k, hk, hkp⟩ | hx
    · exact .inl ⟨w, k, (hholds w k).mpr hk, hkp⟩
    · exact .inr hx
  · exact fun w k hk => h.apart w k ((hholds w k).mp hk)

/-- An insertion keeps the invariant: the disk is what it was, and the mark of the old key has
gone to the new one or to a whiteout. -/
theorem insert (h : NodeInv b disk) {k : Bkey} (he : InsertEffect b b' k) : NodeInv b' disk := by
  obtain ⟨hshape, ⟨sets, wh, d, rfl⟩, hwh, hholds⟩ := he
  have hwh' : wh = if k.deleted && oldMark b k.p then
      whiteoutKey b.header.format k.p :: b.whiteouts else b.whiteouts := hwh
  have hold : ∀ {w k'}, b.Holds w k' → k'.pos = k.p → oldMark b k.p = k'.needsWhiteout := by
    intro w k' hk' hpos
    rw [oldMark, h.shape.liveAt_iff.mpr ⟨⟨w, hk'⟩, hpos⟩]
    rfl
  have hsub : ∀ x ∈ b.whiteouts, x ∈ wh := by
    intro x hx
    rw [hwh']
    split_ifs
    · exact List.mem_cons_of_mem _ hx
    · exact hx
  refine ⟨hshape, h.sectors.congr rfl rfl rfl rfl, h.justWritten, ?_, ?_, ?_⟩
  · intro x hx
    rcases (hholds true x).mp hx with ⟨hx, -⟩ | ⟨-, hfalse, -⟩
    · exact h.onDisk x hx
    · cases hfalse
  · intro p hp
    rcases h.covered p hp with ⟨w, x, hx, hxp, hmark⟩ | ⟨x, hx, hxp⟩
    · by_cases hpk : p = k.p
      · have hm : oldMark b k.p = true := (hold hx (hxp.trans hpk)).trans hmark
        cases hdel : k.deleted with
        | true =>
          refine .inr ⟨whiteoutKey b.header.format k.p, ?_, hpk.symm⟩
          show _ ∈ wh
          rw [hwh', hdel, hm]
          exact List.mem_cons_self ..
        | false =>
          exact .inl ⟨false, _, (hholds _ _).mpr (.inr ⟨hdel, rfl, rfl⟩), hpk.symm, hm⟩
      · exact .inl ⟨w, x, (hholds w x).mpr (.inl ⟨hx, by rwa [hxp]⟩), hxp, hmark⟩
    · exact .inr ⟨x, hsub x hx, hxp⟩
  · intro w x hx hmark y hy
    replace hy : y ∈ wh := hy
    rw [hwh'] at hy
    rcases (hholds w x).mp hx with ⟨hx, hne⟩ | ⟨hdel, -, rfl⟩
    · split_ifs at hy with hpush
      · rcases List.mem_cons.mp hy with rfl | hy
        · exact hne.symm
        · exact h.apart w x hx hmark y hy
      · exact h.apart w x hx hmark y hy
    · -- the new key took the mark over from a live key
      rw [hdel, Bool.false_and] at hy
      obtain ⟨x', hx', hmark'⟩ := oldMark_eq_true hmark
      obtain ⟨⟨w', hw'⟩, hpos⟩ := h.shape.liveAt_iff.mp hx'
      have hne := h.apart w' x' hw' hmark' y hy
      rwa [hpos] at hne

end NodeInv

/-! ### The keys of a write -/

namespace NodeShape

variable {b : BtreeNode}

theorem mem_unwritten_iff {k : BkeyPacked} :
    (k.deleted = false ∧ ∃ keys ∈ b.unwritten.map Bset.keys, k ∈ keys) ↔ b.Holds false k := by
  simp only [BtreeNode.unwritten, BtreeNode.Holds, List.mem_map, List.mem_filter,
    Bool.not_eq_true']
  constructor
  · rintro ⟨hlive, _, ⟨s, ⟨hs, hw⟩, rfl⟩, hk⟩
    exact ⟨s, hs, hw, hk, hlive⟩
  · rintro ⟨s, hs, hw, hk, hlive⟩
    exact ⟨hlive, _, ⟨s, ⟨hs, hw⟩, rfl⟩, hk⟩

theorem mem_livePositions_unwritten {p : Bpos} :
    p ∈ livePositions (b.unwritten.map Bset.keys) ↔ ∃ k, b.Holds false k ∧ k.pos = p := by
  simp only [livePositions, List.mem_map, List.mem_filter, List.mem_flatten, Bool.not_eq_true']
  constructor
  · rintro ⟨k, ⟨⟨keys, hkeys, hk⟩, hlive⟩, rfl⟩
    exact ⟨k, mem_unwritten_iff.mp ⟨hlive, keys, List.mem_map.mpr hkeys, hk⟩, rfl⟩
  · rintro ⟨k, hk, rfl⟩
    obtain ⟨hlive, keys, hkeys, hk⟩ := mem_unwritten_iff.mpr hk
    exact ⟨k, ⟨⟨keys, List.mem_map.mp hkeys, hk⟩, hlive⟩, rfl⟩

theorem mem_sortWhiteouts {x : BkeyPacked} :
    x ∈ (bch2SortWhiteouts b).whiteouts ↔ x ∈ b.whiteouts :=
  List.mem_insertionSort _

theorem posSorted_whiteouts (h : NodeShape b) : PosSorted (bch2SortWhiteouts b).whiteouts := by
  have hle : (bch2SortWhiteouts b).whiteouts.Pairwise fun x y => x.pos ≤ y.pos := by
    have : Std.Total fun x y : BkeyPacked => x.pos ≤ y.pos := ⟨fun x y => le_total _ _⟩
    have : IsTrans BkeyPacked fun x y => x.pos ≤ y.pos := ⟨fun x y z => le_trans⟩
    exact List.pairwise_insertionSort _ _
  have hnodup : ((bch2SortWhiteouts b).whiteouts.map BkeyPacked.pos).Nodup :=
    ((List.perm_insertionSort _ b.whiteouts).map _).nodup_iff.mpr h.whiteouts_nodup
  exact (hle.and (List.pairwise_map.mp hnodup)).imp fun h => lt_of_le_of_ne h.1 h.2

theorem sorted_unwritten (h : NodeShape b) :
    ∀ keys ∈ b.unwritten.map Bset.keys ++ [(bch2SortWhiteouts b).whiteouts], PosSorted keys := by
  intro keys hkeys
  rcases List.mem_append.mp hkeys with hkeys | hkeys
  · obtain ⟨s, hs, rfl⟩ := List.mem_map.mp hkeys
    exact h.sorted s (List.mem_of_mem_filter hs)
  · rw [List.mem_singleton.mp hkeys]
    exact h.posSorted_whiteouts

theorem posSorted_writeKeys (h : NodeShape b) : PosSorted (writeKeys (bch2SortWhiteouts b)) :=
  (posSorted_keepUnwrittenWhiteouts h.sorted_unwritten).map fun _ => rfl

/-- What a write stores: the live keys of the unwritten sets, and the whiteouts of positions
without one. -/
theorem mem_writeKeys (h : NodeShape b) {k : BkeyPacked} :
    k ∈ writeKeys (bch2SortWhiteouts b) ↔
      ∃ k₀, (b.Holds false k₀ ∨ (k₀ ∈ b.whiteouts ∧ ∀ k', b.Holds false k' → k'.pos ≠ k₀.pos)) ∧
        k = k₀.mark false := by
  have hlive : (livePositions (b.unwritten.map Bset.keys)).Nodup := by
    refine livePositions_nodup (fun s hs => h.sorted s (List.mem_of_mem_filter hs)) ?_
    exact h.disjoint.sublist List.filter_sublist
  have hmem : ∀ x, x ∈ bch2SortKeysKeepUnwrittenWhiteouts (b.unwritten.map Bset.keys)
      (bch2SortWhiteouts b).whiteouts ↔ b.Holds false x ∨
        (x ∈ b.whiteouts ∧ ∀ k', b.Holds false k' → k'.pos ≠ x.pos) := by
    intro x
    rw [mem_keepUnwrittenWhiteouts h.sorted_unwritten hlive
      (fun w hw => h.whiteouts_dead w (mem_sortWhiteouts.mp hw)), mem_unwritten_iff,
      mem_sortWhiteouts, mem_livePositions_unwritten]
    simp only [not_exists, not_and]
  rw [writeKeys, List.mem_map]
  constructor
  · rintro ⟨x, hx, rfl⟩
    exact ⟨x, (hmem x).mp hx, rfl⟩
  · rintro ⟨x, hx, rfl⟩
    exact ⟨x, (hmem x).mpr hx, rfl⟩

theorem writeKeys_valid (h : NodeShape b) :
    ∀ k ∈ writeKeys (bch2SortWhiteouts b), KeyValid b.header k := by
  intro k hk
  obtain ⟨x, hx, rfl⟩ := h.mem_writeKeys.mp hk
  rcases hx with hx | ⟨hx, -⟩
  · exact (h.holds_valid hx).mark false
  · exact (h.whiteouts_valid x hx).mark false

end NodeShape

namespace NodeTied

variable {b b' : BtreeNode} {disk : NodeDisk}

/-- The disk with the keys of a write behind it shows the live keys. -/
theorem view_write (h : NodeTied b disk ∅) (p : Bpos) :
    viewOf (diskKeys disk ++ writeKeys (bch2SortWhiteouts b)) p = b.liveMap p := by
  have hmem := fun k => h.shape.mem_writeKeys (k := k)
  -- a position without a key in the write shows what was on disk
  have hold : newestAt (writeKeys (bch2SortWhiteouts b)) p = none →
      viewOf (diskKeys disk ++ writeKeys (bch2SortWhiteouts b)) p = nodeView disk p := by
    intro hnone
    rw [viewOf, newestAt_append, hnone]
    rfl
  -- and one with a key shows that key
  have hnew : ∀ k ∈ writeKeys (bch2SortWhiteouts b), k.pos = p →
      viewOf (diskKeys disk ++ writeKeys (bch2SortWhiteouts b)) p =
        if k.deleted then none else some k.k := by
    rintro k hk rfl
    rw [viewOf, newestAt_append, h.shape.posSorted_writeKeys.newestAt_eq hk]
    cases hdel : k.deleted <;> simp [Option.filter, hdel]
  cases hlive : b.liveAt p with
  | some k =>
    obtain ⟨⟨w, hk⟩, hpos⟩ := h.shape.liveAt_iff.mp hlive
    have hmap : b.liveMap p = some k.k := by simp [BtreeNode.liveMap, hlive]
    cases w with
    | false =>
      obtain ⟨s, -, -, -, hkl⟩ := id hk
      rw [hnew (k.mark false) ((hmem _).mpr ⟨k, .inl hk, rfl⟩) hpos, hmap]
      simp [hkl]
    | true =>
      obtain ⟨hview, hmark⟩ := h.onDisk k hk
      rw [hold, ← hpos, hview, hpos, hmap]
      rw [newestAt_eq_none_iff]
      rintro x hx hxp
      obtain ⟨x₀, hx₀, rfl⟩ := (hmem x).mp hx
      rcases hx₀ with hx₀ | ⟨hx₀, -⟩
      · have := (h.shape.holds_eq hx₀ hk (hxp.trans hpos.symm)).1
        cases this
      · exact h.apart true k hk hmark x₀ hx₀ (hxp.trans hpos.symm)
  | none =>
    have hmap : b.liveMap p = none := by simp [BtreeNode.liveMap, hlive]
    have hfree := NodeShape.liveAt_eq_none_iff.mp hlive
    rw [hmap]
    by_cases hwh : ∃ x ∈ b.whiteouts, x.pos = p
    · obtain ⟨x, hx, hxp⟩ := hwh
      have hstored : x.mark false ∈ writeKeys (bch2SortWhiteouts b) := by
        refine (hmem _).mpr ⟨x, .inr ⟨hx, fun k' hk' => ?_⟩, rfl⟩
        rw [hxp]
        exact hfree false k' hk'
      rw [hnew _ hstored hxp]
      simp [h.shape.whiteouts_dead x hx]
    · have hview : nodeView disk p = none := by
        by_contra hne
        rcases h.covered p (Set.notMem_empty p) hne with ⟨w, k, hk, hkp⟩ | hx
        · exact hfree w k hk hkp
        · exact hwh hx
      rw [hold, hview]
      rw [newestAt_eq_none_iff]
      rintro x hx hxp
      obtain ⟨x₀, hx₀, rfl⟩ := (hmem x).mp hx
      rcases hx₀ with hx₀ | ⟨hx₀, -⟩
      · exact hfree false x₀ hx₀ hxp
      · exact hwh ⟨x₀, hx₀, hxp⟩

end NodeTied

/-! ### The outcomes of a write -/

/-- The checks of `__bch2_btree_node_write` that come before it touches the whiteouts. -/
structure WriteChecks (io : NodeIo) (b : BtreeNode) : Prop where
  online : io.online = true
  nsets_ne : b.nsets ≠ 0
  buffer : sectorWords ≤ b.bufU64s
  dev : b.ptrDev = some io.devIdx
  seq_ne : b.header.seq ≠ 0
  nsets_le : b.nsets ≤ maxBsets
  room : b.written < b.bufU64s / sectorWords
  aligned : b.written % io.blockSectors = 0

/-- The outcomes of `__bch2_btree_node_write`. -/
inductive WriteOutcome (io : NodeIo) (b : BtreeNode) (disk : NodeDisk) :
    ℤ → BtreeNode → NodeDisk → Prop
  /-- An early check failed; the whiteouts are sorted at most. -/
  | early {ret : ℤ} {b' : BtreeNode} (hret : ret ≠ 0) (hchecks : ¬WriteChecks io b)
      (hb : b' = b ∨ b' = bch2SortWhiteouts b) : WriteOutcome io b disk ret b' disk
  /-- The set is too large or the device failed. -/
  | failed {ret : ℤ} (hret : ret ≠ 0) (hchecks : WriteChecks io b) :
      WriteOutcome io b disk ret { b with whiteouts := [] } disk
  /-- There is nothing to write. -/
  | nothing (hchecks : WriteChecks io b) (hwritten : b.written ≠ 0)
      (hkeys : keysU64s (writeKeys (bch2SortWhiteouts b)) = 0) :
      WriteOutcome io b disk 0 { b with whiteouts := [] } disk
  /-- The set is written. -/
  | done {disk' : NodeDisk} (hchecks : WriteChecks io b)
      (hkeys : b.written ≠ 0 → keysU64s (writeKeys (bch2SortWhiteouts b)) ≠ 0)
      (hfits : b.written + (writeBset io (bch2SortWhiteouts b)).sectors ≤
        b.bufU64s / sectorWords)
      (hdisk : disk' =
        if b.written = 0 then ⟨some b.header, [writeBset io (bch2SortWhiteouts b)]⟩
        else { disk with bsets := disk.bsets ++ [writeBset io (bch2SortWhiteouts b)] }) :
      WriteOutcome io b disk 0
        { b with
          whiteouts := []
          written := b.written + (writeBset io (bch2SortWhiteouts b)).sectors
          sectorsWritten := b.written + (writeBset io (bch2SortWhiteouts b)).sectors } disk'

theorem bch2BtreeNodeWrite_outcome {io : NodeIo} {b b' : BtreeNode} {disk disk' : NodeDisk}
    {ret : ℤ} (h : bch2BtreeNodeWrite io b disk = some (ret, b', disk')) :
    WriteOutcome io b disk ret b' disk' := by
  rw [bch2BtreeNodeWrite] at h
  dsimp only at h
  split_ifs at h with hfirst hnone hdev hseq hnsets hroom
  · cases h
    refine .early (by decide) (fun hc => ?_) (.inl rfl)
    rcases hfirst with hf | hf | hf
    · simp [hc.online] at hf
    · exact hc.nsets_ne hf
    · exact absurd hc.buffer (not_le.mpr hf)
  · cases h
    refine .early (by decide) (fun hc => ?_) (.inl rfl)
    rw [hc.dev] at hnone
    cases hnone
  · cases h
    exact .early (by decide) (fun hc => hdev hc.dev) (.inl rfl)
  · cases h
    exact .early (by decide) (fun hc => hc.seq_ne hseq) (.inl rfl)
  · cases h
    exact .early (by decide) (fun hc => absurd hc.nsets_le (not_le.mpr hnsets)) (.inl rfl)
  · cases h
    refine .early (by decide) (fun hc => ?_) (.inr rfl)
    rcases hroom with hr | hr
    · exact absurd hc.room (not_lt.mpr hr)
    · exact hr hc.aligned
  · have hchecks : WriteChecks io b := by
      simp only [not_or, not_lt, Bool.not_eq_true', Bool.not_eq_false, ne_eq, not_not,
        ge_iff_le, not_le, gt_iff_lt] at hfirst hdev hnsets hroom
      exact ⟨hfirst.1, hfirst.2.1, hfirst.2.2, hdev, hseq, hnsets, hroom.1, hroom.2⟩
    rw [nodeWriteSet] at h
    dsimp only at h
    split_ifs at h with hzero hassert hnothing hlarge hio hw
    · cases h
      simp only [Bool.not_eq_true', decide_eq_false_iff_not] at hnothing
      exact .nothing hchecks hnothing.1 hnothing.2
    · cases h
      exact .failed (by decide) hchecks
    · cases h
      exact .failed (by decide) hchecks
    all_goals
      cases h
      simp only [Bool.not_eq_true', decide_eq_false_iff_not, decide_eq_true_eq, not_and, not_or,
        not_lt, gt_iff_lt] at hnothing hlarge hw
    · exact .done hchecks hnothing hlarge.1 (if_pos hw).symm
    · exact .done hchecks hnothing hlarge.1 (if_neg hw).symm

/-! ### The cleanup behind a write -/

/-- Merging all sets leaves one with the live keys, in the first sector. -/
theorem mergeSets_spec {b b₀ m : BtreeNode} (h : NodeShape b₀) (hsets : b.sets = b₀.sets)
    (hheader : b.header = b₀.header) (hm : mergeSets b = some m) :
    ∃ s, m = { b with sets := [s] } ∧ s.dataOffset < sectorWords ∧ PosSorted s.keys ∧
      (∀ k, (k ∈ s.keys ∧ k.deleted = false) ↔ ∃ w, b₀.Holds w k) ∧
      ∀ k ∈ s.keys, KeyValid b.header k := by
  have hholds : ∀ k, ((∃ s ∈ b.sets, k ∈ s.keys) ∧ k.deleted = false) ↔ ∃ w, b₀.Holds w k := by
    intro k
    rw [hsets]
    constructor
    · rintro ⟨⟨s, hs, hk⟩, hlive⟩
      exact ⟨_, s, hs, rfl, hk, hlive⟩
    · rintro ⟨w, s, hs, -, hk, hlive⟩
      exact ⟨⟨s, hs, hk⟩, hlive⟩
  rw [mergeSets] at hm
  split_ifs at hm with hnsets
  · obtain ⟨first, rest, hmid, seq, rfl⟩ := bch2BtreeNodeSort_eq hm
    rw [BtreeNode.nsets, List.take_length, List.drop_zero] at hmid
    refine ⟨⟨first.dataOffset, seq, bch2SortKeys ((first :: rest).map Bset.keys)⟩, ?_, ?_, ?_, ?_,
      ?_⟩
    · rw [List.take_zero, List.nil_append, BtreeNode.nsets, List.drop_length]
    · exact h.first first (by rw [← hsets, hmid]; rfl)
    · rw [← hmid, hsets]
      refine posSorted_bch2SortKeys ?_ h.nodup
      intro keys hkeys
      obtain ⟨s, hs, rfl⟩ := List.mem_map.mp hkeys
      exact h.sorted s hs
    · intro k
      rw [← hholds k, ← hmid, mem_mergedKeys]
      tauto
    · intro k hk
      rw [← hmid] at hk
      obtain ⟨⟨s, hs, hks⟩, -⟩ := mem_mergedKeys.mp hk
      rw [hheader]
      exact h.valid s (hsets ▸ hs) k hks
  · obtain ⟨r, hr, rfl⟩ := Option.map_eq_some_iff.mp hm
    obtain ⟨⟨sets, ret⟩, hr', heq⟩ := Option.bind_eq_some_iff.mp hr
    obtain rfl := Option.some.inj heq
    have hforall := dropWhiteoutsFrom_forall₂ hr'
    have hhead := dropWhiteoutsFrom_head hr'
    obtain ⟨s₀, hs₀⟩ : ∃ s₀, b.sets = [s₀] := by
      have hne : b.sets ≠ [] := hsets ▸ h.sets_ne
      rw [BtreeNode.nsets] at hnsets
      exact List.length_eq_one_iff.mp (by
        have := List.length_pos_iff.mpr hne
        omega)
    rw [hs₀] at hforall hhead
    obtain ⟨s, rest, hthin, hrest, rfl⟩ := List.forall₂_cons_left_iff.mp hforall
    obtain rfl := List.forall₂_nil_left_iff.mp hrest
    have hs₀mem : s₀ ∈ b₀.sets := by
      rw [← hsets, hs₀]
      exact List.mem_singleton_self s₀
    have hoff : s.dataOffset = s₀.dataOffset := Option.some.inj hhead
    refine ⟨s, rfl, ?_, hthin.sorted (h.sorted s₀ hs₀mem), ?_, ?_⟩
    · rw [hoff]
      exact h.first s₀ (by rw [← hsets, hs₀]; rfl)
    · intro k
      rw [hthin.live k, ← hholds k, hs₀]
      simp
    · rw [hheader]
      exact hthin.valid _ (h.valid s₀ hs₀mem)

/-- The last set is the one it was, or a new one without keys. -/
theorem openWantedBset_last {bs : ℕ} {b b' : BtreeNode} (h : openWantedBset bs b = some b') :
    b'.last = b.last ∨ b'.last.keys = [] := by
  rw [openWantedBset] at h
  split at h
  · rw [bch2BsetInitNext] at h
    split_ifs at h
    obtain rfl := Option.some.inj h
    exact .inr (by simp [BtreeNode.last])
  · obtain rfl := Option.some.inj h
    exact .inl rfl

/-- Behind the cleanup all live keys are in written sets and carry the mark, and a set that is open
has no keys yet. -/
theorem postWriteCleanup_spec {bs : ℕ} {b b₀ b' : BtreeNode} (h : NodeShape b₀)
    (hb : bch2BtreePostWriteCleanup bs b = some b') (hsets : b.sets = b₀.sets)
    (hheader : b.header = b₀.header) (hjust : b.justWritten = true) (hwh : b.whiteouts = [])
    (hwritten : b.written ≠ 0) :
    NodeShape b' ∧ (∃ sets, b' = { b with justWritten := false, sets := sets }) ∧
      (∀ w k, b'.Holds w k ↔ w = true ∧ ∃ w₀ k₀, b₀.Holds w₀ k₀ ∧ k = k₀.mark true) ∧
      (b'.bsetWritten b'.last = false → b'.last.keys = []) := by
  rw [bch2BtreePostWriteCleanup, hjust] at hb
  simp only [Bool.not_true, Bool.false_eq_true, if_false] at hb
  split_ifs at hb
  obtain ⟨m, hm, hb⟩ := Option.bind_eq_some_iff.mp hb
  split_ifs at hb
  obtain ⟨s, rfl, hoff, hsorted, hlive, hvalid⟩ :=
    mergeSets_spec (b := { b with justWritten := false }) h hsets hheader hm
  set s' : Bset := { s with keys := s.keys.map fun k => k.mark true } with hs'
  have hshape : NodeShape { b with justWritten := false, sets := [s'] } := by
    refine ⟨by simp, ?_, ?_, List.pairwise_singleton _ _, List.pairwise_singleton _ _, ?_, ?_, ?_,
      ?_, ?_, ?_⟩
    · intro t ht
      obtain rfl := Option.some.inj ht
      exact hoff
    · intro t ht
      obtain rfl := List.mem_singleton.mp ht
      exact hsorted.map fun _ => rfl
    · intro t ht k hk
      obtain rfl := List.mem_singleton.mp ht
      obtain ⟨x, hx, rfl⟩ := List.mem_map.mp hk
      exact (hvalid x hx).mark true
    · intro x hx
      rw [show x ∈ b.whiteouts ↔ x ∈ [] by rw [hwh]] at hx
      cases hx
    · intro x hx
      rw [show x ∈ b.whiteouts ↔ x ∈ [] by rw [hwh]] at hx
      cases hx
    · simp [hwh]
    · rw [hheader]
      exact h.format_pos
    · rw [hheader]
      exact h.format_le
  have hr := hshape.openWantedBset hb
  have hw : BtreeNode.bsetWritten { b with justWritten := false, sets := [s'] } s' = true := by
    refine decide_eq_true (lt_of_lt_of_le hoff ?_)
    exact Nat.le_mul_of_pos_left _ (Nat.pos_of_ne_zero hwritten)
  have hlast : b'.bsetWritten b'.last = false → b'.last.keys = [] := by
    rcases openWantedBset_last hb with heq | hnil
    · rw [heq, hr.bsetWritten]
      exact fun hfalse => absurd hw (Bool.eq_false_iff.mp hfalse)
    · exact fun _ => hnil
  obtain ⟨sets, rfl⟩ := hr.frame
  refine ⟨hr.shape, ⟨_, rfl⟩, fun w k => (hr.holds w k).trans ?_, hlast⟩
  constructor
  · rintro ⟨t, ht, hwt, hk, hkl⟩
    obtain rfl := List.mem_singleton.mp ht
    obtain ⟨x, hx, rfl⟩ := List.mem_map.mp hk
    obtain ⟨w₀, hx₀⟩ := (hlive x).mp ⟨hx, hkl⟩
    exact ⟨hwt.symm.trans hw, w₀, x, hx₀, rfl⟩
  · rintro ⟨rfl, w₀, k₀, hk₀, rfl⟩
    obtain ⟨hx, hxl⟩ := (hlive k₀).mpr ⟨w₀, hk₀⟩
    exact ⟨s', List.mem_singleton_self s', hw, List.mem_map.mpr ⟨k₀, hx, rfl⟩, hxl⟩

/-! ### The write of a node -/

/-- No whiteout waits for a key that is live on disk. -/
def WhiteoutsSpare (b : BtreeNode) (disk : NodeDisk) : Prop :=
  ∀ x ∈ b.whiteouts, nodeView disk x.pos = none

theorem holds_congr {b b' : BtreeNode} (hsets : b'.sets = b.sets) (hwritten : b'.written = b.written)
    (w : Bool) (k : BkeyPacked) : b'.Holds w k ↔ b.Holds w k := by
  simp only [BtreeNode.Holds, BtreeNode.bsetWritten, hsets, hwritten]

namespace NodeInv

variable {b b' : BtreeNode} {disk disk' : NodeDisk}

/-- Flags, and whiteouts that no live key on disk needs, do not matter. -/
theorem of_sets (h : NodeInv b disk) (hsets : b'.sets = b.sets) (hheader : b'.header = b.header)
    (hbuf : b'.bufU64s = b.bufU64s) (hwritten : b'.written = b.written)
    (hsw : b'.sectorsWritten = b.sectorsWritten) (hjust : b'.justWritten = false)
    (hsub : ∀ x ∈ b'.whiteouts, x ∈ b.whiteouts)
    (hnodup : (b'.whiteouts.map BkeyPacked.pos).Nodup)
    (hneed : ∀ x ∈ b.whiteouts, nodeView disk x.pos ≠ none → x ∈ b'.whiteouts) :
    NodeInv b' disk := by
  have hholds := holds_congr hsets hwritten
  have hbw : ∀ s, b'.bsetWritten s = b.bsetWritten s := by
    intro s
    rw [BtreeNode.bsetWritten, BtreeNode.bsetWritten, hwritten]
  refine ⟨⟨?_, ?_, ?_, ?_, ?_, ?_, ?_, ?_, hnodup, ?_, ?_⟩,
    h.sectors.congr hheader hbuf hwritten hsw, hjust, ?_, ?_, ?_⟩
  · rw [hsets]; exact h.shape.sets_ne
  · rw [hsets]; exact h.shape.first
  · rw [hsets]; exact h.shape.sorted
  · rw [hsets]; exact h.shape.disjoint
  · simp only [hsets, hbw]; exact h.shape.writtenFirst
  · rw [hsets, hheader]; exact h.shape.valid
  · exact fun x hx => h.shape.whiteouts_dead x (hsub x hx)
  · rw [hheader]; exact fun x hx => h.shape.whiteouts_valid x (hsub x hx)
  · rw [hheader]; exact h.shape.format_pos
  · rw [hheader]; exact h.shape.format_le
  · exact fun k hk => h.onDisk k ((hholds true k).mp hk)
  · intro p hp
    rcases h.covered p hp with ⟨w, k, hk, hkp⟩ | ⟨x, hx, rfl⟩
    · exact .inl ⟨w, k, (hholds w k).mpr hk, hkp⟩
    · exact .inr ⟨x, hneed x hx hp, rfl⟩
  · exact fun w k hk hmark x hx => h.apart w k ((hholds w k).mp hk) hmark x (hsub x hx)

end NodeInv

/-- The state behind a write whose keys are on disk and a cleanup. -/
theorem NodeTied.written {b b' : BtreeNode} {disk disk' : NodeDisk} {bs : ℕ} {b₁ : BtreeNode}
    (h : NodeTied b disk ∅)
    (hb : bch2BtreePostWriteCleanup bs b₁ = some b') (hsets : b₁.sets = b.sets)
    (hheader : b₁.header = b.header) (hjust : b₁.justWritten = true) (hwh : b₁.whiteouts = [])
    (hwritten : b₁.written ≠ 0) (hsectors : DiskInv b₁ disk')
    (hview : ∀ p, nodeView disk' p = b.liveMap p) :
    NodeInv b' disk' ∧ b'.liveMap = b.liveMap := by
  obtain ⟨hshape, ⟨sets, rfl⟩, hholds, -⟩ :=
    postWriteCleanup_spec h.shape hb hsets hheader hjust hwh hwritten
  refine ⟨⟨hshape, hsectors.congr rfl rfl rfl rfl, rfl, ?_, ?_, ?_⟩, ?_⟩
  · intro k hk
    obtain ⟨-, w₀, k₀, hk₀, rfl⟩ := (hholds true k).mp hk
    refine ⟨?_, rfl⟩
    rw [hview]
    exact h.shape.liveMap_iff.mpr ⟨w₀, k₀, hk₀, rfl, rfl⟩
  · intro p hp
    rw [hview] at hp
    obtain ⟨x, hx⟩ := Option.ne_none_iff_exists'.mp hp
    obtain ⟨w₀, k₀, hk₀, rfl, hpos⟩ := h.shape.liveMap_iff.mp hx
    exact .inl ⟨true, k₀.mark true, (hholds _ _).mpr ⟨rfl, w₀, k₀, hk₀, rfl⟩, hpos, rfl⟩
  · intro w k _ _ x hx
    rw [show x ∈ b₁.whiteouts ↔ x ∈ [] by rw [hwh]] at hx
    cases hx
  · refine h.shape.liveMap_congr hshape fun x => ?_
    constructor
    · rintro ⟨w, k, hk, rfl⟩
      obtain ⟨-, w₀, k₀, hk₀, rfl⟩ := (hholds w k).mp hk
      exact ⟨w₀, k₀, hk₀, rfl⟩
    · rintro ⟨w₀, k₀, hk₀, rfl⟩
      exact ⟨true, k₀.mark true, (hholds _ _).mpr ⟨rfl, w₀, k₀, hk₀, rfl⟩, rfl⟩

theorem writeSectorsOf_pos (io : NodeIo) (b : BtreeNode) : 0 < writeSectorsOf io b := by
  have hblock : 0 < io.blockSectors := lt_of_lt_of_le Nat.one_pos (le_max_right _ _)
  have hwords : 0 < sectorWords := by decide
  have hpos : 0 < io.blockSectors * sectorWords := Nat.mul_pos hblock hwords
  have hheader : 0 < if b.written = 0 then btreeNodeU64s else btreeNodeEntryU64s := by
    split_ifs <;> decide
  rw [writeSectorsOf]
  refine Nat.div_pos ?_ hwords
  refine (Nat.le_mul_of_pos_left _ hblock).trans (Nat.le_mul_of_pos_left _ ?_)
  refine Nat.div_pos ?_ hpos
  omega

theorem keys_eq_nil {hdr : NodeHeader} {keys : List BkeyPacked} (hv : ∀ k ∈ keys, KeyValid hdr k)
    (h : keysU64s keys = 0) : keys = [] := by
  refine List.eq_nil_iff_forall_not_mem.mpr fun k hk => ?_
  have hzero := List.sum_eq_zero_iff_forall_eq_nat.mp h k.u64s (List.mem_map_of_mem hk)
  exact absurd hzero (hv k hk).u64s_pos.ne'

namespace NodeTied

variable {b b' : BtreeNode} {disk disk' : NodeDisk}

/-- The sets on disk behind a write. -/
theorem bsets_done (h : NodeTied b disk ∅) {set : DiskBset} (hdisk : disk' =
      if b.written = 0 then ⟨some b.header, [set]⟩
      else { disk with bsets := disk.bsets ++ [set] }) :
    disk'.bsets = disk.bsets ++ [set] ∧ disk'.header = some b.header := by
  rw [hdisk]
  split_ifs with hw
  · rw [h.sectors.empty hw]
    exact ⟨rfl, rfl⟩
  · exact ⟨rfl, h.sectors.header hw⟩

/-- The sectors behind a write. -/
theorem sectors_done (h : NodeTied b disk ∅) (io : NodeIo) (b₁ : BtreeNode)
    (hheader : b₁.header = b.header) (hbuf : b₁.bufU64s = b.bufU64s)
    (hwritten : b₁.written = b.written + (writeBset io (bch2SortWhiteouts b)).sectors)
    (hsw : b₁.sectorsWritten = b₁.written)
    (hkeys : b.written ≠ 0 → keysU64s (writeKeys (bch2SortWhiteouts b)) ≠ 0)
    (hfits : b.written + (writeBset io (bch2SortWhiteouts b)).sectors ≤ b.bufU64s / sectorWords)
    (hbsets : disk'.bsets = disk.bsets ++ [writeBset io (bch2SortWhiteouts b)])
    (hdheader : disk'.header = some b.header) : DiskInv b₁ disk' := by
  have hpos : 0 < (writeBset io (bch2SortWhiteouts b)).sectors := writeSectorsOf_pos io _
  have hcases : ∀ s ∈ disk'.bsets, s ∈ disk.bsets ∨ s = writeBset io (bch2SortWhiteouts b) := by
    intro s hs
    rw [hbsets] at hs
    simpa using hs
  refine ⟨?_, ?_, ?_, ?_, ?_, ?_, ?_, hsw, ?_, ?_⟩
  · intro h0
    omega
  · rw [hheader]
    exact fun _ => hdheader
  · intro s hs
    rcases hcases s hs with hs | rfl
    · exact h.sectors.sorted s hs
    · exact h.shape.posSorted_writeKeys
  · rw [hheader]
    intro s hs
    rcases hcases s hs with hs | rfl
    · exact h.sectors.valid s hs
    · exact h.shape.writeKeys_valid
  · rw [hheader]
    intro s hs
    rcases hcases s hs with hs | rfl
    · exact h.sectors.seq s hs
    · rfl
  · intro s hs
    rcases hcases s hs with hs | rfl
    · exact h.sectors.sectors_pos s hs
    · exact hpos
  · rw [hbsets, List.map_append, List.sum_append, h.sectors.sum, hwritten]
    simp
  · rw [hwritten, hbuf]
    exact hfits
  · rw [hbsets]
    intro s hs
    cases hold : disk.bsets with
    | nil =>
      rw [hold] at hs
      cases hs
    | cons t rest =>
      rw [hold] at hs
      rcases List.mem_append.mp hs with hs | hs
      · exact h.sectors.tail_ne s (by rw [hold]; exact hs)
      · obtain rfl := List.mem_singleton.mp hs
        intro hnil
        refine hkeys ?_ ?_
        · intro h0
          rw [h.sectors.empty h0] at hold
          cases hold
        · rw [show writeKeys (bch2SortWhiteouts b) = [] from hnil]
          rfl

end NodeTied

/-- The flags of a node under which `bch2_btree_node_write_trans` starts a write. -/
def WriteStarts (onlyIfNeed blocked : Bool) (b : BtreeNode) : Prop :=
  b.dirty = true ∧ (onlyIfNeed = true → b.needWrite = true) ∧ blocked = false

/-- The node and its sectors behind a write that succeeded. -/
structure WriteDone (io : NodeIo) (b b' : BtreeNode) (disk' : NodeDisk) : Prop where
  inv : NodeInv b' disk'
  liveMap : b'.liveMap = b.liveMap
  view : ∀ p, nodeView disk' p = b.liveMap p
  written_ne : b'.written ≠ 0
  dev : b'.ptrDev = some io.devIdx
  buffer : sectorWords ≤ b'.bufU64s

/-- The node and its sectors behind a write that failed. -/
structure WriteFailed (io : NodeIo) (b b' : BtreeNode) (disk disk' : NodeDisk) : Prop where
  disk : disk' = disk
  frame : ∃ wh idx, b' = { b with
    whiteouts := wh
    dirty := true
    needWrite := false
    justWritten := false
    writeIdx := idx }
  lost : WriteChecks io b → b'.whiteouts = []
  kept : ¬WriteChecks io b → b'.whiteouts.Perm b.whiteouts

theorem writeTrans_idle {io : NodeIo} {onlyIfNeed blocked : Bool} {b b' : BtreeNode}
    {disk disk' : NodeDisk} {ret : ℤ} (hidle : ¬WriteStarts onlyIfNeed blocked b)
    (hw : bch2BtreeNodeWriteTrans io onlyIfNeed blocked b disk = some (ret, b', disk')) :
    b' = b ∧ disk' = disk ∧ ret = 0 := by
  have hcond : (!b.dirty) = true ∨ (onlyIfNeed = true ∧ (!b.needWrite) = true) ∨
      blocked = true := by
    by_contra hne
    simp only [not_or, not_and, Bool.not_eq_true', Bool.not_eq_false, Bool.not_eq_true] at hne
    exact hidle hne
  rw [bch2BtreeNodeWriteTrans, if_pos hcond] at hw
  cases hw
  exact ⟨rfl, rfl, rfl⟩

/-- A write that starts is the write of the node and, when it succeeds, the cleanup. -/
theorem writeTrans_started {io : NodeIo} {onlyIfNeed blocked : Bool} {b b' : BtreeNode}
    {disk disk' : NodeDisk} {ret : ℤ} (hstart : WriteStarts onlyIfNeed blocked b)
    (hw : bch2BtreeNodeWriteTrans io onlyIfNeed blocked b disk = some (ret, b', disk')) :
    ∃ b₁, bch2BtreeNodeWrite io (startWrite b) disk = some (ret, b₁, disk') ∧
      ((ret ≠ 0 ∧ b' = { b₁ with justWritten := false, dirty := true }) ∨
        (ret = 0 ∧ bch2BtreePostWriteCleanup io.blockSectors b₁ = some b')) := by
  have hcond : ¬((!b.dirty) = true ∨ (onlyIfNeed = true ∧ (!b.needWrite) = true) ∨
      blocked = true) := by
    obtain ⟨hdirty, hneed, hblocked⟩ := hstart
    simp only [not_or, not_and, Bool.not_eq_true', Bool.not_eq_false, Bool.not_eq_true]
    exact ⟨hdirty, hneed, hblocked⟩
  rw [bch2BtreeNodeWriteTrans, if_neg hcond] at hw
  obtain ⟨⟨ret₁, b₁, disk₁⟩, hwrite, hw⟩ := Option.bind_eq_some_iff.mp hw
  dsimp only at hw
  split_ifs at hw with hret
  · cases hw
    exact ⟨b₁, hwrite, .inl ⟨hret, rfl⟩⟩
  · obtain ⟨b₂, hclean, hw⟩ := Option.bind_eq_some_iff.mp hw
    cases hw
    obtain rfl : ret₁ = 0 := by simpa using hret
    exact ⟨b₁, hwrite, .inr ⟨rfl, hclean⟩⟩

theorem writeTrans_failed {io : NodeIo} {onlyIfNeed blocked : Bool} {b b' : BtreeNode}
    {disk disk' : NodeDisk} {ret : ℤ} (hstart : WriteStarts onlyIfNeed blocked b)
    (hw : bch2BtreeNodeWriteTrans io onlyIfNeed blocked b disk = some (ret, b', disk'))
    (hret : ret ≠ 0) : WriteFailed io b b' disk disk' := by
  obtain ⟨b₁, hwrite, ⟨-, rfl⟩ | ⟨heq, -⟩⟩ := writeTrans_started hstart hw
  · cases bch2BtreeNodeWrite_outcome hwrite with
    | early _ hchecks hb =>
      rcases hb with rfl | rfl
      · exact ⟨rfl, ⟨_, _, rfl⟩, fun hc => absurd ⟨hc.1, hc.2, hc.3, hc.4, hc.5, hc.6, hc.7, hc.8⟩
          hchecks, fun _ => .refl _⟩
      · exact ⟨rfl, ⟨_, _, rfl⟩, fun hc => absurd ⟨hc.1, hc.2, hc.3, hc.4, hc.5, hc.6, hc.7, hc.8⟩
          hchecks, fun _ => List.perm_insertionSort _ _⟩
    | failed _ hchecks =>
      exact ⟨rfl, ⟨_, _, rfl⟩, fun _ => rfl, fun hc => absurd
        ⟨hchecks.1, hchecks.2, hchecks.3, hchecks.4, hchecks.5, hchecks.6, hchecks.7, hchecks.8⟩ hc⟩
    | nothing => exact absurd rfl hret
    | done => exact absurd rfl hret
  · exact absurd heq hret

variable {b b' : BtreeNode} {disk disk' : NodeDisk} {io : NodeIo} {onlyIfNeed blocked : Bool}

/-- A write that succeeds marks every key again. -/
theorem NodeTied.writeTrans_done (h : NodeTied b disk ∅)
    (hstart : WriteStarts onlyIfNeed blocked b)
    (hw : bch2BtreeNodeWriteTrans io onlyIfNeed blocked b disk = some (0, b', disk')) :
    WriteDone io b b' disk' := by
  obtain ⟨b₁, hwrite, ⟨hne, -⟩ | ⟨-, hclean⟩⟩ := writeTrans_started hstart hw
  · exact absurd rfl hne
  cases bch2BtreeNodeWrite_outcome hwrite with
  | early hret => exact absurd rfl hret
  | failed hret => exact absurd rfl hret
  | nothing hchecks hwritten hkeys =>
    have hnil := keys_eq_nil h.shape.writeKeys_valid hkeys
    have hview : ∀ p, nodeView disk p = b.liveMap p := by
      intro p
      have hv := h.view_write p
      rwa [hnil, List.append_nil] at hv
    obtain ⟨hinv, hmap⟩ := h.written hclean rfl rfl rfl rfl hwritten
      (h.sectors.congr rfl rfl rfl rfl) hview
    obtain ⟨-, ⟨sets, rfl⟩, -⟩ := postWriteCleanup_spec h.shape hclean rfl rfl rfl rfl hwritten
    exact ⟨hinv, hmap, hview, hwritten, hchecks.dev, hchecks.buffer⟩
  | done hchecks hkeys hfits hdisk =>
    obtain ⟨hbsets, hheader⟩ := h.bsets_done hdisk
    have hpos : 0 < (writeBset io (bch2SortWhiteouts (startWrite b))).sectors :=
      writeSectorsOf_pos io _
    have hwritten : b.written + (writeBset io (bch2SortWhiteouts (startWrite b))).sectors ≠ 0 := by
      omega
    have hview : ∀ p, nodeView disk' p = b.liveMap p := by
      intro p
      rw [← h.view_write p, nodeView, diskKeys, hbsets, List.flatMap_append, List.flatMap_singleton]
      rfl
    have hsectors := h.sectors_done io { startWrite b with
      whiteouts := []
      written := b.written + (writeBset io (bch2SortWhiteouts (startWrite b))).sectors
      sectorsWritten := b.written + (writeBset io (bch2SortWhiteouts (startWrite b))).sectors }
      rfl rfl rfl rfl hkeys hfits hbsets hheader
    obtain ⟨hinv, hmap⟩ := h.written hclean rfl rfl rfl rfl hwritten hsectors hview
    obtain ⟨-, ⟨sets, rfl⟩, -⟩ := postWriteCleanup_spec h.shape hclean rfl rfl rfl rfl hwritten
    exact ⟨hinv, hmap, hview, hwritten, hchecks.dev, hchecks.buffer⟩

/-- A failed write that loses no whiteout keeps the invariant. -/
theorem NodeInv.of_failed (h : NodeInv b disk) (hf : WriteFailed io b b' disk disk')
    (hspare : WriteChecks io b → WhiteoutsSpare b disk) :
    NodeInv b' disk' ∧ b'.liveMap = b.liveMap := by
  obtain ⟨rfl, ⟨wh, idx, rfl⟩, hlost, hkept⟩ := hf
  refine ⟨h.of_sets rfl rfl rfl rfl rfl rfl ?_ ?_ ?_, rfl⟩
  all_goals by_cases hchecks : WriteChecks io b
  · simp [show wh = [] from hlost hchecks]
  · exact fun x hx => (hkept hchecks).mem_iff.mp hx
  · simp [show wh = [] from hlost hchecks]
  · exact ((hkept hchecks).map _).nodup_iff.mpr h.shape.whiteouts_nodup
  · exact fun x hx hne => absurd (hspare hchecks x hx) hne
  · exact fun x hx _ => (hkept hchecks).mem_iff.mpr hx

end Subvol

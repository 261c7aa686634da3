import Subvol.Btree.Sets
import Subvol.Lib.Lists

/-!
# The shape of a node

The sets of a node are sorted, share no live position, and the written ones come first. The
operations that move keys around keep this shape and keep what the node holds: which live keys
there are, and which of them lie in written sets.

## Main definitions

* `BtreeNode.Holds`: a live key of a written or an unwritten set.
* `NodeShape`: the invariant on sets, keys and whiteouts.

## Main results

* `NodeShape.liveAt_iff`: the live key of a position.
* `NodeShape.dropWhiteouts`, `NodeShape.compact`, `NodeShape.initNext`: keys that are moved.
-/

namespace Subvol

open Lib

/-! ### What a node holds -/

/-- A live key of a set that is written (`w`) or not. -/
def BtreeNode.Holds (b : BtreeNode) (w : Bool) (k : BkeyPacked) : Prop :=
  ∃ s ∈ b.sets, b.bsetWritten s = w ∧ k ∈ s.keys ∧ k.deleted = false

/-- Two sets without a common live position. -/
def LiveDisjoint (s t : Bset) : Prop :=
  ∀ k ∈ s.keys, ∀ k' ∈ t.keys, k.deleted = false → k'.deleted = false → k.pos ≠ k'.pos

instance : Std.Symm LiveDisjoint where
  symm _ _ h k hk k' hk' hlive hlive' := (h k' hk' k hk hlive' hlive).symm

/-- A key that the checks of the reader leave alone: a node pointer is whole, and its pointer into
memory, which the reader clears, is kept clear in the model. -/
structure KeyValid (h : NodeHeader) (k : BkeyPacked) : Prop where
  min_le : h.minKey ≤ k.pos
  le_max : k.pos ≤ h.maxKey
  ptr : k.k.type = keyTypeBtreePtrV2 →
    btreePtrV2U64s ≤ k.k.val.length ∧ k.k.val.set 0 0 = k.k.val
  u64s_pos : 0 < k.u64s

namespace KeyValid

variable {h : NodeHeader} {k : BkeyPacked}

theorem kill (hk : KeyValid h k) : KeyValid h k.kill :=
  ⟨hk.min_le, hk.le_max, by simp [BkeyPacked.kill, keyTypeDeleted, keyTypeBtreePtrV2],
    hk.u64s_pos⟩

theorem mark (hk : KeyValid h k) (w : Bool) : KeyValid h (k.mark w) :=
  ⟨hk.min_le, hk.le_max, hk.ptr, hk.u64s_pos⟩

end KeyValid

/-- The shape of a node: sorted sets that share no live position, the first one in the first
sector and the written ones before the others, and unwritten whiteouts of distinct positions. -/
structure NodeShape (b : BtreeNode) : Prop where
  sets_ne : b.sets ≠ []
  first : ∀ s, b.sets.head? = some s → s.dataOffset < sectorWords
  sorted : ∀ s ∈ b.sets, PosSorted s.keys
  disjoint : b.sets.Pairwise LiveDisjoint
  writtenFirst : b.sets.Pairwise fun s t => b.bsetWritten t = true → b.bsetWritten s = true
  valid : ∀ s ∈ b.sets, ∀ k ∈ s.keys, KeyValid b.header k
  whiteouts_dead : ∀ w ∈ b.whiteouts, w.deleted = true
  whiteouts_valid : ∀ w ∈ b.whiteouts, KeyValid b.header w
  whiteouts_nodup : (b.whiteouts.map BkeyPacked.pos).Nodup
  format_pos : 0 < b.header.format.keyU64s
  format_le : b.header.format.keyU64s ≤ bkeyU64s

/-- The live positions of sorted sets without a common live position are distinct. -/
theorem livePositions_nodup {sets : List Bset} (hs : ∀ s ∈ sets, PosSorted s.keys)
    (hd : sets.Pairwise LiveDisjoint) : (livePositions (sets.map Bset.keys)).Nodup := by
  induction sets with
  | nil => exact List.nodup_nil
  | cons s rest ih =>
    obtain ⟨hs', hd'⟩ := List.pairwise_cons.mp hd
    have hrest := ih (fun t ht => hs t (List.mem_cons_of_mem _ ht)) hd'
    simp only [livePositions, List.map_cons, List.flatten_cons, List.filter_append,
      List.map_append]
    refine List.Nodup.append ?_ hrest ?_
    · have hsorted : PosSorted (s.keys.filter fun k => !k.deleted) :=
        (hs s (List.mem_cons_self ..)).filter _
      exact List.pairwise_map.mpr (hsorted.imp fun hlt => ne_of_lt hlt)
    · intro p hp hp'
      obtain ⟨k, hk, rfl⟩ := List.mem_map.mp hp
      obtain ⟨k', hk', hpos⟩ := List.mem_map.mp hp'
      obtain ⟨hk, hlive⟩ := List.mem_filter.mp hk
      obtain ⟨hk', hlive'⟩ := List.mem_filter.mp hk'
      obtain ⟨keys, hkeys, hk'⟩ := List.mem_flatten.mp hk'
      obtain ⟨t, ht, rfl⟩ := List.mem_map.mp hkeys
      exact hs' t ht k hk k' hk' (by simpa using hlive) (by simpa using hlive') hpos.symm

theorem mem_liveKeys {b : BtreeNode} {k : BkeyPacked} :
    k ∈ b.liveKeys ↔ ∃ w, b.Holds w k := by
  simp only [BtreeNode.liveKeys, BtreeNode.Holds, Bset.live, List.mem_flatMap, List.mem_filter,
    Bool.not_eq_true']
  constructor
  · rintro ⟨s, hs, hk, hlive⟩
    exact ⟨_, s, hs, rfl, hk, hlive⟩
  · rintro ⟨w, s, hs, -, hk, hlive⟩
    exact ⟨s, hs, hk, hlive⟩

namespace NodeShape

variable {b : BtreeNode}

theorem nodup (h : NodeShape b) : (livePositions (b.sets.map Bset.keys)).Nodup :=
  livePositions_nodup h.sorted h.disjoint

/-- No position has two live keys. -/
theorem holds_eq (h : NodeShape b) {w w' : Bool} {k k' : BkeyPacked} (hk : b.Holds w k)
    (hk' : b.Holds w' k') (hpos : k.pos = k'.pos) : w = w' ∧ k = k' := by
  obtain ⟨s, hs, rfl, hks, hlive⟩ := hk
  obtain ⟨t, ht, rfl, hkt, hlive'⟩ := hk'
  by_cases hst : s = t
  · subst hst
    exact ⟨rfl, (h.sorted s hs).eq_of_pos hks hkt hpos⟩
  · exact absurd hpos (h.disjoint.forall hs ht hst k hks k' hkt hlive hlive')

theorem liveAt_iff (h : NodeShape b) {p : Bpos} {k : BkeyPacked} :
    b.liveAt p = some k ↔ (∃ w, b.Holds w k) ∧ k.pos = p := by
  constructor
  · intro hk
    exact ⟨mem_liveKeys.mp (List.mem_of_find?_eq_some hk), by simpa using List.find?_some hk⟩
  · rintro ⟨hk, rfl⟩
    have hsome : (b.liveAt k.pos).isSome :=
      List.find?_isSome.mpr ⟨k, mem_liveKeys.mpr hk, by simp⟩
    obtain ⟨k', hk'⟩ := Option.isSome_iff_exists.mp hsome
    obtain ⟨w, hw⟩ := hk
    obtain ⟨w', hw'⟩ := mem_liveKeys.mp (List.mem_of_find?_eq_some hk')
    have hpos : k'.pos = k.pos := by simpa using List.find?_some hk'
    rw [hk', (h.holds_eq hw' hw hpos).2]

theorem liveAt_eq_none_iff {p : Bpos} :
    b.liveAt p = none ↔ ∀ w k, b.Holds w k → k.pos ≠ p := by
  rw [BtreeNode.liveAt, List.find?_eq_none]
  constructor
  · intro hnone w k hk hpos
    exact hnone k (mem_liveKeys.mpr ⟨w, hk⟩) (by simpa using hpos)
  · intro hnone k hk hpos
    obtain ⟨w, hw⟩ := mem_liveKeys.mp hk
    exact hnone w k hw (by simpa using hpos)

theorem liveMap_iff (h : NodeShape b) {p : Bpos} {x : Bkey} :
    b.liveMap p = some x ↔ ∃ w k, b.Holds w k ∧ k.k = x ∧ x.p = p := by
  rw [BtreeNode.liveMap, Option.map_eq_some_iff]
  constructor
  · rintro ⟨k, hk, rfl⟩
    obtain ⟨⟨w, hw⟩, hpos⟩ := h.liveAt_iff.mp hk
    exact ⟨w, k, hw, rfl, hpos⟩
  · rintro ⟨w, k, hw, rfl, hpos⟩
    exact ⟨k, h.liveAt_iff.mpr ⟨⟨w, hw⟩, hpos⟩, rfl⟩

/-- The live key map is decided by the keys that a node holds. -/
theorem liveMap_congr {b' : BtreeNode} (h : NodeShape b) (h' : NodeShape b')
    (hkeys : ∀ x, (∃ w k, b'.Holds w k ∧ k.k = x) ↔ ∃ w k, b.Holds w k ∧ k.k = x) :
    b'.liveMap = b.liveMap := by
  funext p
  refine Option.ext fun x => ?_
  rw [h.liveMap_iff, h'.liveMap_iff]
  constructor
  · rintro ⟨w, k, hk, hkx, hxp⟩
    obtain ⟨w', k', hk', hkx'⟩ := (hkeys x).mp ⟨w, k, hk, hkx⟩
    exact ⟨w', k', hk', hkx', hxp⟩
  · rintro ⟨w, k, hk, hkx, hxp⟩
    obtain ⟨w', k', hk', hkx'⟩ := (hkeys x).mpr ⟨w, k, hk, hkx⟩
    exact ⟨w', k', hk', hkx', hxp⟩

end NodeShape

/-! ### Operations that only move keys -/

/-- The node `b'` holds what `b` holds, in other places of the buffer. -/
structure Rearranged (b b' : BtreeNode) : Prop where
  shape : NodeShape b'
  frame : ∃ sets, b' = { b with sets := sets }
  holds : ∀ w k, b'.Holds w k ↔ b.Holds w k

namespace Rearranged

variable {b b' b'' : BtreeNode}

theorem refl (h : NodeShape b) : Rearranged b b := ⟨h, ⟨_, rfl⟩, fun _ _ => Iff.rfl⟩

theorem trans (h : Rearranged b b') (h' : Rearranged b' b'') : Rearranged b b'' where
  shape := h'.shape
  frame := by
    obtain ⟨sets, rfl⟩ := h.frame
    obtain ⟨sets', rfl⟩ := h'.frame
    exact ⟨sets', rfl⟩
  holds w k := (h'.holds w k).trans (h.holds w k)

theorem bsetWritten (h : Rearranged b b') (s : Bset) : b'.bsetWritten s = b.bsetWritten s := by
  obtain ⟨sets, rfl⟩ := h.frame
  rfl

theorem liveMap (h : Rearranged b b') (hs : NodeShape b) : b'.liveMap = b.liveMap :=
  hs.liveMap_congr h.shape fun _ => exists₂_congr fun w k => and_congr_left' (h.holds w k)

end Rearranged

/-- A set `s'` in place of `s`: of the live keys those with `P` are left, and dead keys are left,
dropped or added at positions that were there. -/
structure Thinned (b : BtreeNode) (P : BkeyPacked → Prop) (s s' : Bset) : Prop where
  written : b.bsetWritten s' = b.bsetWritten s
  live : ∀ k, (k ∈ s'.keys ∧ k.deleted = false) ↔ (k ∈ s.keys ∧ k.deleted = false) ∧ P k
  sorted : PosSorted s.keys → PosSorted s'.keys
  valid : ∀ h, (∀ k ∈ s.keys, KeyValid h k) → ∀ k ∈ s'.keys, KeyValid h k

/-- Sets that lost some of their keys. -/
theorem NodeShape.thinned {b : BtreeNode} (h : NodeShape b) {P : BkeyPacked → Prop}
    {sets : List Bset} (hsets : List.Forall₂ (Thinned b P) b.sets sets)
    (hhead : sets.head?.map Bset.dataOffset = b.sets.head?.map Bset.dataOffset) :
    NodeShape { b with sets := sets } ∧
      ∀ w k, BtreeNode.Holds { b with sets := sets } w k ↔ b.Holds w k ∧ P k := by
  refine ⟨{ h with
    sets_ne := ?_
    first := ?_
    sorted := ?_
    disjoint := ?_
    writtenFirst := ?_
    valid := ?_ }, ?_⟩
  · rintro rfl
    exact h.sets_ne (List.forall₂_nil_right_iff.mp hsets)
  · intro s hs
    rw [show sets.head? = some s from hs] at hhead
    obtain ⟨t, ht, htoff⟩ := Option.map_eq_some_iff.mp hhead.symm
    rw [← htoff]
    exact h.first t ht
  · intro s hs
    obtain ⟨t, ht, hts⟩ := exists_mem_right hsets hs
    exact hts.sorted (h.sorted t ht)
  · refine pairwise_forall₂ hsets h.disjoint ?_
    intro s t s' t' hs ht hdis k hk k' hk' hl hl'
    have hks := ((hs.live k).mp ⟨hk, hl⟩).1
    have hkt := ((ht.live k').mp ⟨hk', hl'⟩).1
    exact hdis k hks.1 k' hkt.1 hl hl'
  · refine pairwise_forall₂ hsets h.writtenFirst ?_
    intro s t s' t' hs ht hw hw'
    exact hs.written.trans (hw (ht.written.symm.trans hw'))
  · intro s hs
    obtain ⟨t, ht, hts⟩ := exists_mem_right hsets hs
    exact hts.valid b.header (h.valid t ht)
  · intro w k
    constructor
    · rintro ⟨s, hs, hw, hk, hlive⟩
      obtain ⟨t, ht, hts⟩ := exists_mem_right hsets hs
      obtain ⟨⟨hkt, -⟩, hP⟩ := (hts.live k).mp ⟨hk, hlive⟩
      exact ⟨⟨t, ht, hts.written.symm.trans hw, hkt, hlive⟩, hP⟩
    · rintro ⟨⟨t, ht, hw, hk, hlive⟩, hP⟩
      obtain ⟨s, hs, hts⟩ := exists_mem_left hsets ht
      exact ⟨s, hs, hts.written.trans hw, ((hts.live k).mpr ⟨⟨hk, hlive⟩, hP⟩).1, hlive⟩

theorem bsetWritten_dropDst {b : BtreeNode} {prev : Option ℕ} {s : Bset}
    {keys : List BkeyPacked} :
    b.bsetWritten { s with dataOffset := dropDst b prev s, keys := keys } = b.bsetWritten s := by
  cases prev with
  | none => rfl
  | some prevEnd =>
    by_cases hw : b.bsetWritten s = true
    · simp only [dropDst, hw, if_true]
      exact hw
    · have hdst : dropDst b (some prevEnd) s = max (b.written * sectorWords) prevEnd + 2 := by
        simp [dropDst, hw]
      have hlt : ¬dropDst b (some prevEnd) s < b.written * sectorWords := by
        rw [hdst]
        omega
      rw [Bool.eq_false_iff.mpr hw]
      exact decide_eq_false hlt

theorem dropWhiteoutsFrom_forall₂ {b : BtreeNode} {mode : CompactMode} {prev : Option ℕ}
    {ret : Bool} {sets : List Bset} {r : List Bset × Bool}
    (h : dropWhiteoutsFrom b mode prev ret sets = some r) :
    List.Forall₂ (Thinned b fun _ => True) sets r.1 := by
  induction sets generalizing prev ret r with
  | nil =>
    obtain rfl : ([], ret) = r := by simpa [dropWhiteoutsFrom] using h
    exact .nil
  | cons s rest ih =>
    simp only [dropWhiteoutsFrom] at h
    split at h
    · cases h
    · obtain ⟨r', hr', rfl⟩ := Option.map_eq_some_iff.mp h
      refine .cons ⟨bsetWritten_dropDst, ?_, ?_, ?_⟩ (ih hr')
      · intro k
        split
        · simp [Bset.live]
        · simp
      · intro hs
        split
        · exact hs.filter _
        · exact hs
      · intro hdr hs k hk
        split at hk
        · exact hs k (List.mem_of_mem_filter hk)
        · exact hs k hk

theorem dropWhiteoutsFrom_head {b : BtreeNode} {mode : CompactMode} {ret : Bool}
    {sets : List Bset} {r : List Bset × Bool}
    (h : dropWhiteoutsFrom b mode none ret sets = some r) :
    r.1.head?.map Bset.dataOffset = sets.head?.map Bset.dataOffset := by
  cases sets with
  | nil =>
    obtain rfl : ([], ret) = r := by simpa [dropWhiteoutsFrom] using h
    rfl
  | cons s rest =>
    simp only [dropWhiteoutsFrom] at h
    split at h
    · cases h
    · obtain ⟨r', -, rfl⟩ := Option.map_eq_some_iff.mp h
      rfl

/-- `bch2_drop_whiteouts` leaves the node as it was. -/
theorem NodeShape.dropWhiteouts {b : BtreeNode} (h : NodeShape b) {mode : CompactMode}
    {r : BtreeNode × Bool} (hr : bch2DropWhiteouts b mode = some r) : Rearranged b r.1 := by
  obtain ⟨⟨sets, ret⟩, hr', heq⟩ := Option.bind_eq_some_iff.mp hr
  obtain rfl := Option.some.inj heq
  obtain ⟨hshape, hholds⟩ :=
    h.thinned (dropWhiteoutsFrom_forall₂ hr') (dropWhiteoutsFrom_head hr')
  exact ⟨hshape, ⟨_, rfl⟩, fun w k => (hholds w k).trans (and_iff_left trivial)⟩

/-- The result of `bch2_btree_node_sort`: a segment of the sets merged into one. -/
theorem bch2BtreeNodeSort_eq {b b' : BtreeNode} {start stop : ℕ}
    (h : bch2BtreeNodeSort b start stop = some b') :
    ∃ first rest, (b.sets.take stop).drop start = first :: rest ∧
      ∃ seq, b' = { b with
        sets := b.sets.take start ++
          ⟨first.dataOffset, seq, bch2SortKeys ((first :: rest).map Bset.keys)⟩ ::
            b.sets.drop stop } := by
  rw [bch2BtreeNodeSort] at h
  cases hmid : (b.sets.take stop).drop start with
  | nil => simp [hmid] at h
  | cons first rest =>
    simp only [hmid] at h
    split_ifs at h
    exact ⟨first, rest, rfl, _, (Option.some.inj h).symm⟩

theorem mem_mergedKeys {sets : List Bset} {k : BkeyPacked} :
    k ∈ bch2SortKeys (sets.map Bset.keys) ↔ (∃ s ∈ sets, k ∈ s.keys) ∧ k.deleted = false := by
  rw [mem_bch2SortKeys]
  simp

/-- Sets that are all written, or all unwritten, may be merged. -/
theorem NodeShape.nodeSort {b b' : BtreeNode} (h : NodeShape b) {start stop : ℕ} {w : Bool}
    (hw : ∀ s ∈ (b.sets.take stop).drop start, b.bsetWritten s = w)
    (hs : bch2BtreeNodeSort b start stop = some b') : Rearranged b b' := by
  obtain ⟨first, rest, hmid, seq, rfl⟩ := bch2BtreeNodeSort_eq hs
  have hlt : start ≤ stop := by
    by_contra hlt
    have : (b.sets.take stop).drop start = [] :=
      List.drop_eq_nil_of_le ((List.length_take_le _ _).trans (by omega))
    rw [hmid] at this
    cases this
  have hsplit := split_segment b.sets hlt
  rw [hmid] at hsplit hw
  generalize b.sets.take start = front at *
  generalize b.sets.drop stop = back at *
  have hsub : ∀ s ∈ first :: rest, s ∈ b.sets := by
    intro s hs
    rw [hsplit]
    exact List.mem_append_right _ (List.mem_append_left _ hs)
  have hmidSorted : ∀ keys ∈ (first :: rest).map Bset.keys, PosSorted keys := by
    intro keys hkeys
    obtain ⟨s, hs, rfl⟩ := List.mem_map.mp hkeys
    exact h.sorted s (hsub s hs)
  have hmidDis : (first :: rest).Pairwise LiveDisjoint := by
    have hdis := h.disjoint
    rw [hsplit] at hdis
    exact (List.pairwise_append.mp (List.pairwise_append.mp hdis).2.1).1
  have hdis := h.disjoint
  have hwf := h.writtenFirst
  rw [hsplit] at hdis hwf
  refine ⟨{ h with
    sets_ne := by simp
    first := ?_
    sorted := ?_
    disjoint := ?_
    writtenFirst := ?_
    valid := ?_ }, ⟨_, rfl⟩, ?_⟩
  · intro s hs
    cases front with
    | nil =>
      obtain rfl := Option.some.inj hs
      exact h.first first (by rw [hsplit]; rfl)
    | cons a front => exact h.first s (by rw [hsplit]; exact hs)
  · intro s hs
    rcases List.mem_append.mp hs with hs | hs
    · exact h.sorted s (by rw [hsplit]; exact List.mem_append_left _ hs)
    · rcases List.mem_cons.mp hs with rfl | hs
      · exact posSorted_bch2SortKeys hmidSorted
          (livePositions_nodup (fun s hs => h.sorted s (hsub s hs)) hmidDis)
      · exact h.sorted s (by
          rw [hsplit]
          exact List.mem_append_right _ (List.mem_append_right _ hs))
  · refine pairwise_collapse hdis ?_ ?_
    · intro a _ ha k hk k' hk' hl hl'
      obtain ⟨⟨m, hm, hkm⟩, -⟩ := mem_mergedKeys.mp hk'
      exact ha m hm k hk k' hkm hl hl'
    · intro c _ hc k hk k' hk' hl hl'
      obtain ⟨⟨m, hm, hkm⟩, -⟩ := mem_mergedKeys.mp hk
      exact hc m hm k hkm k' hk' hl hl'
  · refine pairwise_collapse hwf ?_ ?_
    · exact fun a _ ha => ha first (List.mem_cons_self ..)
    · exact fun c _ hc => hc first (List.mem_cons_self ..)
  · intro s hs k hk
    rcases List.mem_append.mp hs with hs | hs
    · exact h.valid s (by rw [hsplit]; exact List.mem_append_left _ hs) k hk
    · rcases List.mem_cons.mp hs with rfl | hs
      · obtain ⟨⟨m, hm, hkm⟩, -⟩ := mem_mergedKeys.mp hk
        exact h.valid m (hsub m hm) k hkm
      · exact h.valid s (by
          rw [hsplit]
          exact List.mem_append_right _ (List.mem_append_right _ hs)) k hk
  · intro w' k
    have hfirst := hw first (List.mem_cons_self ..)
    constructor
    · rintro ⟨s, hs, hws, hk, hlive⟩
      rcases List.mem_append.mp hs with hs | hs
      · exact ⟨s, by rw [hsplit]; exact List.mem_append_left _ hs, hws, hk, hlive⟩
      · rcases List.mem_cons.mp hs with rfl | hs
        · obtain ⟨⟨m, hm, hkm⟩, -⟩ := mem_mergedKeys.mp hk
          exact ⟨m, hsub m hm, (hw m hm).trans (hfirst.symm.trans hws), hkm, hlive⟩
        · exact ⟨s, by
            rw [hsplit]
            exact List.mem_append_right _ (List.mem_append_right _ hs), hws, hk, hlive⟩
    · rintro ⟨s, hs, hws, hk, hlive⟩
      rw [hsplit] at hs
      rcases List.mem_append.mp hs with hs | hs
      · exact ⟨s, List.mem_append_left _ hs, hws, hk, hlive⟩
      · rcases List.mem_append.mp hs with hs | hs
        · exact ⟨_, List.mem_append_right _ (List.mem_cons_self ..),
            hfirst.trans ((hw s hs).symm.trans hws), mem_mergedKeys.mpr ⟨⟨s, hs, hk⟩, hlive⟩, hlive⟩
        · exact ⟨s, List.mem_append_right _ (List.mem_cons_of_mem _ hs), hws, hk, hlive⟩

namespace NodeShape

variable {b b' : BtreeNode}

theorem written_of_take (s : Bset) (hs : s ∈ b.sets.take (unwrittenIdx b)) :
    b.bsetWritten s = true := by
  have htake : b.sets.take (unwrittenIdx b) = b.sets.takeWhile b.bsetWritten := by
    conv_lhs => rw [← List.takeWhile_append_dropWhile (p := b.bsetWritten) (l := b.sets)]
    exact List.take_left' rfl
  rw [htake] at hs
  exact List.all_eq_true.mp List.all_takeWhile s hs

/-- From the first unwritten set on no set is written. -/
theorem unwritten_of_drop (h : NodeShape b) (s : Bset) (hs : s ∈ b.sets.drop (unwrittenIdx b)) :
    b.bsetWritten s = false := by
  have hdrop : b.sets.drop (unwrittenIdx b) = b.sets.dropWhile b.bsetWritten := by
    conv_lhs => rw [← List.takeWhile_append_dropWhile (p := b.bsetWritten) (l := b.sets)]
    exact List.drop_left' rfl
  rw [hdrop] at hs
  cases hcase : b.sets.dropWhile b.bsetWritten with
  | nil =>
    rw [hcase] at hs
    cases hs
  | cons t rest =>
    have ht : b.bsetWritten t = false := by
      have := List.head_dropWhile_not b.bsetWritten (l := b.sets) (by simp [hcase])
      simpa [hcase] using this
    have hpair := h.writtenFirst.sublist (List.dropWhile_sublist b.bsetWritten)
    rw [hcase] at hs hpair
    rcases List.mem_cons.mp hs with rfl | hs
    · exact ht
    · have := (List.pairwise_cons.mp hpair).1 s hs
      by_contra hne
      exact absurd (this (by simpa using hne)) (by simp [ht])

/-- `bch2_btree_node_compact` leaves the node as it was. -/
theorem compact (h : NodeShape b) (hb : bch2BtreeNodeCompact b = some b') : Rearranged b b' := by
  obtain ⟨b₁, hb₁, hb⟩ := Option.bind_eq_some_iff.mp hb
  have hidx : unwrittenIdx b ≤ b.sets.length := (List.takeWhile_sublist _).length_le
  -- the sets before the first unwritten one are those of `b`
  have hfirst : Rearranged b b₁ ∧ b₁.sets.take (unwrittenIdx b) = b.sets.take (unwrittenIdx b) := by
    rw [mergeUnwritten] at hb₁
    split_ifs at hb₁
    · refine ⟨h.nodeSort (w := false) ?_ hb₁, ?_⟩
      · intro s hs
        rw [BtreeNode.nsets, List.take_length] at hs
        exact h.unwritten_of_drop s hs
      · obtain ⟨first, rest, -, seq, rfl⟩ := bch2BtreeNodeSort_eq hb₁
        exact List.take_left' (List.length_take_of_le hidx)
    · obtain rfl := Option.some.inj hb₁
      exact ⟨.refl h, rfl⟩
  split_ifs at hb
  · refine hfirst.1.trans (hfirst.1.shape.nodeSort (w := true) ?_ hb)
    intro s hs
    rw [List.drop_zero, hfirst.2] at hs
    exact (hfirst.1.bsetWritten s).trans (written_of_take s hs)
  · obtain rfl := Option.some.inj hb
    exact hfirst.1

/-- A new empty set behind what is written leaves the node as it was. -/
theorem initNext (h : NodeShape b) {bne : ℕ} (hbne : b.written * sectorWords ≤ bne)
    (hb : bch2BsetInitNext b bne = some b') : Rearranged b b' := by
  rw [bch2BsetInitNext] at hb
  split_ifs at hb
  obtain rfl := Option.some.inj hb
  set s₀ : Bset := ⟨bne + 2, (b.sets.map Bset.journalSeq).foldl max 0, []⟩ with hs₀
  have hunwritten : b.bsetWritten s₀ = false := by
    simp only [BtreeNode.bsetWritten, hs₀, decide_eq_false_iff_not]
    omega
  have hempty : ∀ k, k ∉ s₀.keys := fun k hk => List.not_mem_nil hk
  have hmem : ∀ s ∈ b.sets ++ [s₀], s ∈ b.sets ∨ s = s₀ := by
    intro s hs
    simpa using hs
  refine ⟨{ h with
    sets_ne := by simp
    first := ?_
    sorted := ?_
    disjoint := ?_
    writtenFirst := ?_
    valid := ?_ }, ⟨_, rfl⟩, ?_⟩
  · intro s hs
    refine h.first s ?_
    rw [← hs]
    exact (List.head?_append_of_ne_nil _ h.sets_ne).symm
  · intro s hs
    rcases hmem s hs with hs | rfl
    · exact h.sorted s hs
    · exact List.Pairwise.nil
  · refine List.pairwise_append.mpr ⟨h.disjoint, List.pairwise_singleton _ _, ?_⟩
    intro s _ t ht k _ k' hk'
    obtain rfl := List.mem_singleton.mp ht
    exact absurd hk' (hempty k')
  · refine List.pairwise_append.mpr ⟨h.writtenFirst, List.pairwise_singleton _ _, ?_⟩
    intro s _ t ht hw
    obtain rfl := List.mem_singleton.mp ht
    exact absurd hw (Bool.eq_false_iff.mp hunwritten)
  · intro s hs k hk
    rcases hmem s hs with hs | rfl
    · exact h.valid s hs k hk
    · exact absurd hk (hempty k)
  · intro w k
    constructor
    · rintro ⟨s, hs, hw, hk, hlive⟩
      rcases hmem s hs with hs | rfl
      · exact ⟨s, hs, hw, hk, hlive⟩
      · exact absurd hk (hempty k)
    · rintro ⟨s, hs, hw, hk, hlive⟩
      exact ⟨s, List.mem_append_left _ hs, hw, hk, hlive⟩

theorem openWantedBset {blockSectors : ℕ} (h : NodeShape b)
    (hb : openWantedBset blockSectors b = some b') : Rearranged b b' := by
  rw [Subvol.openWantedBset] at hb
  split at hb
  · rename_i bne hbne
    refine h.initNext ?_ hb
    simp only [wantNewBset] at hbne
    split_ifs at hbne
    all_goals
      obtain rfl := Option.some.inj hbne
      exact le_max_left _ _
  · obtain rfl := Option.some.inj hb
    exact .refl h

end NodeShape

end Subvol

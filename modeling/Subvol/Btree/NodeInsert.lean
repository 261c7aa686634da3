import Subvol.Btree.NodeShape

/-!
# What an insertion does to a node

`bch2_btree_insert_key_leaf` takes the live key of a position out of the node, wherever it is, and
puts the new key into the last set. The mark of the old key, that it may be on disk, goes to the
new key or, for a deletion, becomes a whiteout.

## Main definitions

* `oldMark`: the mark of the live key of a position.
* `InsertEffect`: what an insertion changes.

## Main results

* `NodeShape.insertKeyLeaf`: the effect of `bch2_btree_insert_key_leaf`.
-/

namespace Subvol

open Lib

/-! ### The keys of one set -/

theorem mem_killAt {p : Bpos} {keys : List BkeyPacked} {k : BkeyPacked} :
    (k ∈ killAt p keys ∧ k.deleted = false) ↔
      (k ∈ keys ∧ k.deleted = false) ∧ k.pos ≠ p := by
  constructor
  · rintro ⟨hk, hlive⟩
    obtain ⟨x, hx, rfl⟩ := List.mem_map.mp hk
    split_ifs at hlive ⊢ with hdead
    · exact absurd hlive (by simp)
    · refine ⟨⟨hx, hlive⟩, ?_⟩
      rintro rfl
      exact hdead ⟨rfl, by simpa using hlive⟩
  · rintro ⟨⟨hk, hlive⟩, hne⟩
    exact ⟨List.mem_map.mpr ⟨k, hk, if_neg fun h => hne h.1⟩, hlive⟩

theorem posSorted_killAt {p : Bpos} {keys : List BkeyPacked} (h : PosSorted keys) :
    PosSorted (killAt p keys) :=
  h.map fun k => by split_ifs <;> rfl

theorem killAt_valid {p : Bpos} {keys : List BkeyPacked} {hdr : NodeHeader}
    (h : ∀ k ∈ keys, KeyValid hdr k) : ∀ k ∈ killAt p keys, KeyValid hdr k := by
  intro k hk
  obtain ⟨x, hx, rfl⟩ := List.mem_map.mp hk
  split_ifs
  · exact (h x hx).kill
  · exact h x hx

theorem mem_takeOut {writeable : Bool} {p : Bpos} {keys : List BkeyPacked} {k : BkeyPacked} :
    (k ∈ takeOut writeable p keys ∧ k.deleted = false) ↔
      (k ∈ keys ∧ k.deleted = false) ∧ k.pos ≠ p := by
  rw [takeOut]
  split_ifs
  · simp only [List.mem_filter, decide_eq_true_eq]
    tauto
  · exact mem_killAt

theorem posSorted_takeOut {writeable : Bool} {p : Bpos} {keys : List BkeyPacked}
    (h : PosSorted keys) : PosSorted (takeOut writeable p keys) := by
  rw [takeOut]
  split_ifs
  · exact h.filter _
  · exact posSorted_killAt h

theorem takeOut_valid {writeable : Bool} {p : Bpos} {keys : List BkeyPacked} {hdr : NodeHeader}
    (h : ∀ k ∈ keys, KeyValid hdr k) : ∀ k ∈ takeOut writeable p keys, KeyValid hdr k := by
  rw [takeOut]
  split_ifs
  · exact fun k hk => h k (List.mem_of_mem_filter hk)
  · exact killAt_valid h

theorem mem_insertSorted {k x : BkeyPacked} {keys : List BkeyPacked} (h : PosSorted keys) :
    x ∈ insertSorted k keys ↔ x = k ∨ (x ∈ keys ∧ x.pos ≠ k.pos) := by
  induction keys with
  | nil => simp [insertSorted]
  | cons y keys ih =>
    obtain ⟨hy, hkeys⟩ := List.pairwise_cons.mp h
    rw [insertSorted]
    split_ifs with hlt heq
    · rw [List.mem_cons, ih hkeys, List.mem_cons]
      constructor
      · rintro (rfl | rfl | ⟨hx, hne⟩)
        · exact .inr ⟨.inl rfl, ne_of_lt hlt⟩
        · exact .inl rfl
        · exact .inr ⟨.inr hx, hne⟩
      · rintro (rfl | ⟨rfl | hx, hne⟩)
        · exact .inr (.inl rfl)
        · exact .inl rfl
        · exact .inr (.inr ⟨hx, hne⟩)
    · rw [List.mem_cons, List.mem_cons]
      constructor
      · rintro (rfl | hx)
        · exact .inl rfl
        · exact .inr ⟨.inr hx, by rw [← heq]; exact ne_of_gt (hy x hx)⟩
      · rintro (rfl | ⟨rfl | hx, hne⟩)
        · exact .inl rfl
        · exact absurd heq hne
        · exact .inr hx
    · -- the new key comes before all others
      have hgt : k.pos < y.pos := lt_of_le_of_ne (not_lt.mp hlt) (Ne.symm heq)
      rw [List.mem_cons]
      refine or_congr_right ⟨fun hx => ⟨hx, ?_⟩, fun hx => hx.1⟩
      rcases List.mem_cons.mp hx with rfl | hx
      · exact heq
      · exact ne_of_gt (hgt.trans (hy x hx))

theorem posSorted_insertSorted {k : BkeyPacked} {keys : List BkeyPacked} (h : PosSorted keys) :
    PosSorted (insertSorted k keys) := by
  induction keys with
  | nil => exact List.pairwise_singleton _ _
  | cons y keys ih =>
    obtain ⟨hy, hkeys⟩ := List.pairwise_cons.mp h
    rw [insertSorted]
    split_ifs with hlt heq
    · refine List.pairwise_cons.mpr ⟨?_, ih hkeys⟩
      intro x hx
      rcases (mem_insertSorted hkeys).mp hx with rfl | ⟨hx, -⟩
      · exact hlt
      · exact hy x hx
    · exact List.pairwise_cons.mpr ⟨fun x hx => by rw [← heq]; exact hy x hx, hkeys⟩
    · have hgt : k.pos < y.pos := lt_of_le_of_ne (not_lt.mp hlt) (Ne.symm heq)
      refine List.pairwise_cons.mpr ⟨?_, h⟩
      intro x hx
      rcases List.mem_cons.mp hx with rfl | hx
      · exact hgt
      · exact hgt.trans (hy x hx)

/-- A key at the position does not matter to the insertion. -/
theorem insertSorted_filter {k : BkeyPacked} {keys : List BkeyPacked} (h : PosSorted keys) :
    insertSorted k (keys.filter fun x => x.pos ≠ k.pos) = insertSorted k keys := by
  induction keys with
  | nil => rfl
  | cons y keys ih =>
    obtain ⟨hy, hkeys⟩ := List.pairwise_cons.mp h
    by_cases heq : y.pos = k.pos
    · have hall : keys.filter (fun x => x.pos ≠ k.pos) = keys := by
        refine List.filter_eq_self.mpr fun x hx => ?_
        simpa using ne_of_gt (heq ▸ hy x hx)
      have hlt : ¬y.pos < k.pos := by rw [heq]; exact lt_irrefl _
      rw [List.filter_cons_of_neg (by simpa using heq), hall, insertSorted, if_neg hlt, if_pos heq]
      cases keys with
      | nil => rfl
      | cons z keys =>
        have hz : k.pos < z.pos := heq ▸ hy z (List.mem_cons_self ..)
        rw [insertSorted, if_neg (not_lt.mpr hz.le), if_neg (ne_of_gt hz)]
    · rw [List.filter_cons_of_pos (by simpa using heq), insertSorted, insertSorted, ih hkeys]
      split_ifs with hlt
      · rfl
      · have hgt : k.pos < y.pos := lt_of_le_of_ne (not_lt.mp hlt) (Ne.symm heq)
        have hall : keys.filter (fun x => x.pos ≠ k.pos) = keys := by
          refine List.filter_eq_self.mpr fun x hx => ?_
          simpa using ne_of_gt (hgt.trans (hy x hx))
        rw [hall]

/-! ### The keys of a node -/

namespace NodeShape

variable {b : BtreeNode}

/-- Only the set with the live key of a position has one. -/
theorem not_live_of_liveIdx (h : NodeShape b) {p : Bpos} {i : ℕ} (hi : b.liveIdx p = some i)
    {j : ℕ} {s : Bset} (hj : j ≠ i) (hs : b.sets[j]? = some s) {k : BkeyPacked} (hk : k ∈ s.keys)
    (hlive : k.deleted = false) : k.pos ≠ p := by
  obtain ⟨hlt, hany, -⟩ := List.findIdx?_eq_some_iff_getElem.mp hi
  obtain ⟨x, hx, hxp⟩ := List.any_eq_true.mp hany
  obtain ⟨hx, hxlive⟩ := List.mem_filter.mp hx
  have hxlive' : x.deleted = false := by simpa using hxlive
  obtain ⟨hjlt, rfl⟩ := List.getElem?_eq_some_iff.mp hs
  have hdis : LiveDisjoint b.sets[j] b.sets[i] := by
    rcases Nat.lt_or_gt_of_ne hj with hji | hji
    · exact List.pairwise_iff_getElem.mp h.disjoint j i hjlt hlt hji
    · exact symm (List.pairwise_iff_getElem.mp h.disjoint i j hlt hjlt hji)
  have hne := hdis k hk x hx hlive hxlive'
  rwa [show x.pos = p by simpa using hxp] at hne

theorem exists_liveIdx {p : Bpos} {w : Bool} {k : BkeyPacked} (hk : b.Holds w k)
    (hpos : k.pos = p) : ∃ i, b.liveIdx p = some i := by
  obtain ⟨s, hs, -, hks, hlive⟩ := hk
  refine Option.isSome_iff_exists.mp ?_
  rw [BtreeNode.liveIdx, List.findIdx?_isSome, List.any_eq_true]
  refine ⟨s, hs, List.any_eq_true.mpr ⟨k, ?_, by simpa using hpos⟩⟩
  exact List.mem_filter.mpr ⟨hks, by simpa using hlive⟩

/-- A change of the set with the live key of a position that only takes this key out. -/
theorem removeBy (h : NodeShape b) {p : Bpos} {i : ℕ} (hi : b.liveIdx p = some i)
    {g : List BkeyPacked → List BkeyPacked}
    (hmem : ∀ keys k, (k ∈ g keys ∧ k.deleted = false) ↔
      (k ∈ keys ∧ k.deleted = false) ∧ k.pos ≠ p)
    (hsorted : ∀ keys, PosSorted keys → PosSorted (g keys))
    (hvalid : ∀ hdr keys, (∀ k ∈ keys, KeyValid hdr k) → ∀ k ∈ g keys, KeyValid hdr k) :
    NodeShape (b.modifySet i g) ∧
      ∀ w k, (b.modifySet i g).Holds w k ↔ b.Holds w k ∧ k.pos ≠ p := by
  refine h.thinned (P := fun k => k.pos ≠ p) (forall₂_modify ?_ ?_) ?_
  · intro s _
    exact ⟨rfl, hmem s.keys, hsorted s.keys, fun hdr => hvalid hdr s.keys⟩
  · intro j s hj hs
    refine ⟨rfl, fun k => ?_, id, fun _ hv => hv⟩
    refine (and_iff_left_of_imp ?_).symm
    exact fun hk => h.not_live_of_liveIdx hi hj hs hk.1 hk.2
  · cases hsets : b.sets with
    | nil => simp
    | cons s rest => cases i <;> rfl

/-- Taking the live key of a position out of its set. -/
theorem removeAt (h : NodeShape b) {p : Bpos} {i : ℕ} (hi : b.liveIdx p = some i)
    (writeable : Bool) :
    NodeShape (b.modifySet i (takeOut writeable p)) ∧
      ∀ w k, (b.modifySet i (takeOut writeable p)).Holds w k ↔ b.Holds w k ∧ k.pos ≠ p :=
  h.removeBy hi (fun _ _ => mem_takeOut) (fun _ => posSorted_takeOut) fun _ _ => takeOut_valid

theorem sets_eq_last (h : NodeShape b) : ∃ front, b.sets = front ++ [b.last] := by
  refine ⟨b.sets.dropLast, ?_⟩
  rw [BtreeNode.last, List.getLastD_eq_getLast?, List.getLast?_eq_some_getLast h.sets_ne]
  exact (List.dropLast_append_getLast h.sets_ne).symm

/-- Putting a key into the last set, which is not written, when its position is free. -/
theorem insertLast (h : NodeShape b) (stored : BkeyPacked) (hlast : b.bsetWritten b.last = false)
    (hfree : ∀ w k, b.Holds w k → k.pos ≠ stored.pos) (hlive : stored.deleted = false)
    (hvalid : KeyValid b.header stored) :
    NodeShape (b.modifySet (b.nsets - 1) (insertSorted stored)) ∧
      ∀ w k, (b.modifySet (b.nsets - 1) (insertSorted stored)).Holds w k ↔
        b.Holds w k ∨ (w = false ∧ k = stored) := by
  obtain ⟨front, hfront⟩ := h.sets_eq_last
  set s := b.last with hs
  have hsmem : s ∈ b.sets := by
    rw [hfront]
    exact List.mem_append_right _ (List.mem_singleton_self s)
  set s' : Bset := { s with keys := insertSorted stored s.keys } with hs'
  have hsets : b.modifySet (b.nsets - 1) (insertSorted stored) =
      { b with sets := front ++ [s'] } := by
    have hlen : b.nsets - 1 = front.length := by simp [BtreeNode.nsets, hfront]
    rw [BtreeNode.modifySet, hlen]
    congr 1
    rw [hfront, modify_last]
  have hmem : ∀ x, x ∈ s'.keys ↔ x = stored ∨ (x ∈ s.keys ∧ x.pos ≠ stored.pos) :=
    fun x => mem_insertSorted (h.sorted s hsmem)
  have hfrontMem : ∀ t ∈ front, t ∈ b.sets := by
    intro t ht
    rw [hfront]
    exact List.mem_append_left _ ht
  have hcases : ∀ t ∈ front ++ [s'], t ∈ front ∨ t = s' := by
    intro t ht
    simpa using ht
  have hdis := h.disjoint
  have hwf := h.writtenFirst
  rw [hfront] at hdis hwf
  obtain ⟨hdisFront, -, hdisLast⟩ := List.pairwise_append.mp hdis
  obtain ⟨hwfFront, -, -⟩ := List.pairwise_append.mp hwf
  rw [hsets]
  refine ⟨{ h with
    sets_ne := by simp
    first := ?_
    sorted := ?_
    disjoint := ?_
    writtenFirst := ?_
    valid := ?_ }, ?_⟩
  · intro t ht
    cases front with
    | nil =>
      obtain rfl := Option.some.inj ht
      exact h.first s (by rw [hfront]; rfl)
    | cons a front => exact h.first t (by rw [hfront]; exact ht)
  · intro t ht
    rcases hcases t ht with ht | rfl
    · exact h.sorted t (hfrontMem t ht)
    · exact posSorted_insertSorted (h.sorted s hsmem)
  · refine List.pairwise_append.mpr ⟨hdisFront, List.pairwise_singleton _ _, ?_⟩
    intro t ht t' ht' k hk k' hk' hl hl'
    obtain rfl := List.mem_singleton.mp ht'
    rcases (hmem k').mp hk' with rfl | ⟨hk', -⟩
    · exact hfree _ k ⟨t, hfrontMem t ht, rfl, hk, hl⟩
    · exact hdisLast t ht s (List.mem_singleton_self s) k hk k' hk' hl hl'
  · refine List.pairwise_append.mpr ⟨hwfFront, List.pairwise_singleton _ _, ?_⟩
    intro t _ t' ht' hw
    obtain rfl := List.mem_singleton.mp ht'
    exact absurd hw (Bool.eq_false_iff.mp hlast)
  · intro t ht k hk
    rcases hcases t ht with ht | rfl
    · exact h.valid t (hfrontMem t ht) k hk
    · rcases (hmem k).mp hk with rfl | ⟨hk, -⟩
      · exact hvalid
      · exact h.valid s hsmem k hk
  · intro w k
    constructor
    · rintro ⟨t, ht, hw, hk, hl⟩
      rcases hcases t ht with ht | rfl
      · exact .inl ⟨t, hfrontMem t ht, hw, hk, hl⟩
      · rcases (hmem k).mp hk with rfl | ⟨hk, -⟩
        · exact .inr ⟨hw.symm.trans hlast, rfl⟩
        · exact .inl ⟨s, hsmem, hw, hk, hl⟩
    · rintro (⟨t, ht, hw, hk, hl⟩ | ⟨rfl, rfl⟩)
      · rw [hfront] at ht
        rcases List.mem_append.mp ht with ht | ht
        · exact ⟨t, List.mem_append_left _ ht, hw, hk, hl⟩
        · obtain rfl := List.mem_singleton.mp ht
          have hne := hfree w k ⟨s, hsmem, hw, hk, hl⟩
          exact ⟨s', List.mem_append_right _ (List.mem_singleton_self s'), hw,
            (hmem k).mpr (.inr ⟨hk, hne⟩), hl⟩
      · exact ⟨s', List.mem_append_right _ (List.mem_singleton_self s'), hlast,
          (hmem k).mpr (.inl rfl), hlive⟩

end NodeShape

/-! ### The insertion -/

/-- The mark of the live key of a position. -/
def oldMark (b : BtreeNode) (p : Bpos) : Bool := (b.liveAt p).any BkeyPacked.needsWhiteout

theorem oldMark_eq_true {b : BtreeNode} {p : Bpos} (h : oldMark b p = true) :
    ∃ k, b.liveAt p = some k ∧ k.needsWhiteout = true := by
  cases hk : b.liveAt p with
  | none => simp [oldMark, hk] at h
  | some k => exact ⟨k, rfl, by simpa [oldMark, hk] using h⟩

/-- A key that may be inserted into a leaf: its position is in the range of the node. -/
structure InsertValid (h : NodeHeader) (k : Bkey) : Prop where
  min_le : h.minKey ≤ k.p
  le_max : k.p ≤ h.maxKey
  type_ne : k.type ≠ keyTypeBtreePtrV2

/-- No whiteout waits for a position whose live key carries the mark. -/
def MarksApart (b : BtreeNode) : Prop :=
  ∀ w k, b.Holds w k → k.needsWhiteout = true → ∀ x ∈ b.whiteouts, x.pos ≠ k.pos

/-- What an insertion does: the live key of the position is gone, a new key is in an unwritten set
with the mark of the old one, and a deletion turns the mark into a whiteout. -/
structure InsertEffect (b b' : BtreeNode) (insert : Bkey) : Prop where
  shape : NodeShape b'
  frame : ∃ sets wh d, b' = { b with sets := sets, whiteouts := wh, dirty := d }
  whiteouts : b'.whiteouts =
    if insert.deleted && oldMark b insert.p then
      whiteoutKey b.header.format insert.p :: b.whiteouts
    else b.whiteouts
  holds : ∀ w k, b'.Holds w k ↔ (b.Holds w k ∧ k.pos ≠ insert.p) ∨
    (insert.deleted = false ∧ w = false ∧
      k = packKey b.header.format insert (oldMark b insert.p))

theorem InsertEffect.rearranged {b b' b'' : BtreeNode} {insert : Bkey}
    (h : InsertEffect b b' insert) (h' : Rearranged b' b'') : InsertEffect b b'' insert := by
  obtain ⟨hshape, ⟨sets, rfl⟩, hholds⟩ := h'
  obtain ⟨-, ⟨sets₁, wh, d, rfl⟩, hwh, hholds₁⟩ := h
  exact ⟨hshape, ⟨_, _, _, rfl⟩, hwh, fun w k => (hholds w k).trans (hholds₁ w k)⟩

@[simp] theorem modifySet_whiteouts (b : BtreeNode) (i : ℕ) (g : List BkeyPacked → List BkeyPacked) :
    (b.modifySet i g).whiteouts = b.whiteouts := rfl

@[simp] theorem modifySet_header (b : BtreeNode) (i : ℕ) (g : List BkeyPacked → List BkeyPacked) :
    (b.modifySet i g).header = b.header := rfl

@[simp] theorem modifySet_nsets (b : BtreeNode) (i : ℕ) (g : List BkeyPacked → List BkeyPacked) :
    (b.modifySet i g).nsets = b.nsets :=
  List.length_modify ..

theorem last_dataOffset (b : BtreeNode) :
    b.last.dataOffset = ((b.sets.map Bset.dataOffset).getLast?).getD 0 := by
  rw [BtreeNode.last, List.getLast?_map, List.getLastD_eq_getLast?]
  cases b.sets.getLast? <;> rfl

theorem modifySet_last_dataOffset (b : BtreeNode) (i : ℕ)
    (g : List BkeyPacked → List BkeyPacked) :
    (b.modifySet i g).last.dataOffset = b.last.dataOffset := by
  have hmap : (b.modifySet i g).sets.map Bset.dataOffset = b.sets.map Bset.dataOffset :=
    map_modify_of_eq (f := fun s : Bset => { s with keys := g s.keys }) (fun _ => rfl) _ _
  rw [last_dataOffset, last_dataOffset, hmap]

/-- Where there is room for a key the last set is not written. -/
theorem last_unwritten {b : BtreeNode} {r n : ℕ} (h : bch2BtreeKeysU64sRemaining b = some r)
    (hn : 0 < n) (hr : n ≤ r) : b.bsetWritten b.last = false := by
  rw [bch2BtreeKeysU64sRemaining] at h
  split_ifs at h with hneg hw
  · obtain rfl := Option.some.inj h
    omega
  · exact decide_eq_false (by omega)

theorem packKey_valid {b : BtreeNode} (h : NodeShape b) {insert : Bkey}
    (hi : InsertValid b.header insert) (mark : Bool) :
    KeyValid b.header (packKey b.header.format insert mark) where
  min_le := hi.min_le
  le_max := hi.le_max
  ptr htype := absurd htype hi.type_ne
  u64s_pos := by
    have := h.format_pos
    simp only [packKey, BkeyPacked.u64s, bkeyU64s]
    split_ifs <;> omega

theorem whiteoutKey_valid {b : BtreeNode} (h : NodeShape b) {k : BkeyPacked}
    (hk : KeyValid b.header k) : KeyValid b.header (whiteoutKey b.header.format k.pos) where
  min_le := hk.min_le
  le_max := hk.le_max
  ptr := by simp [whiteoutKey, keyTypeDeleted, keyTypeBtreePtrV2]
  u64s_pos := by
    have := h.format_pos
    simp only [whiteoutKey, BkeyPacked.u64s, bkeyU64s]
    split_ifs <;> omega

namespace NodeShape

variable {b b' : BtreeNode}

theorem holds_valid (h : NodeShape b) {w : Bool} {k : BkeyPacked} (hk : b.Holds w k) :
    KeyValid b.header k := by
  obtain ⟨s, hs, -, hks, -⟩ := hk
  exact h.valid s hs k hks

/-- The node with the whiteout of a live key. -/
theorem pushNeededWhiteout (h : NodeShape b) (hm : MarksApart b) {w : Bool} {k : BkeyPacked}
    (hk : b.Holds w k) (hb : pushNeededWhiteout b k = some b') :
    NodeShape b' ∧ b' = { b with whiteouts := b'.whiteouts } ∧ b'.whiteouts =
      if k.needsWhiteout then whiteoutKey b.header.format k.pos :: b.whiteouts
      else b.whiteouts := by
  rw [Subvol.pushNeededWhiteout] at hb
  split_ifs at hb ⊢ with hmark
  · rw [bch2PushWhiteout] at hb
    obtain ⟨r, -, hb⟩ := Option.bind_eq_some_iff.mp hb
    split_ifs at hb
    obtain rfl := Option.some.inj hb
    refine ⟨{ h with
      whiteouts_dead := ?_
      whiteouts_valid := ?_
      whiteouts_nodup := ?_ }, rfl, rfl⟩
    · intro x hx
      rcases List.mem_cons.mp hx with rfl | hx
      · rfl
      · exact h.whiteouts_dead x hx
    · intro x hx
      rcases List.mem_cons.mp hx with rfl | hx
      · exact whiteoutKey_valid h (h.holds_valid hk)
      · exact h.whiteouts_valid x hx
    · refine List.nodup_cons.mpr ⟨?_, h.whiteouts_nodup⟩
      intro hmem
      obtain ⟨x, hx, hpos⟩ := List.mem_map.mp hmem
      exact hm w k hk hmark x hx hpos
  · obtain rfl := Option.some.inj hb
    exact ⟨h, rfl, rfl⟩

/-- The removal of the old key and the insertion of the new one. -/
theorem replaceAt (h : NodeShape b) {p : Bpos} {i : ℕ} (hi : b.liveIdx p = some i)
    (writeable : Bool) {stored : BkeyPacked} (hpos : stored.pos = p)
    (hlast : b.bsetWritten b.last = false) (hlive : stored.deleted = false)
    (hvalid : KeyValid b.header stored) :
    NodeShape ((b.modifySet i (takeOut writeable p)).modifySet (b.nsets - 1)
        (insertSorted stored)) ∧
      ∀ w k, ((b.modifySet i (takeOut writeable p)).modifySet (b.nsets - 1)
        (insertSorted stored)).Holds w k ↔
          (b.Holds w k ∧ k.pos ≠ p) ∨ (w = false ∧ k = stored) := by
  obtain ⟨hshape, hholds⟩ := h.removeAt hi writeable
  have hlast' : (b.modifySet i (takeOut writeable p)).bsetWritten
      (b.modifySet i (takeOut writeable p)).last = false := by
    rw [BtreeNode.bsetWritten, modifySet_last_dataOffset]
    exact hlast
  have hfree : ∀ w k, (b.modifySet i (takeOut writeable p)).Holds w k → k.pos ≠ stored.pos := by
    intro w k hk
    rw [hpos]
    exact ((hholds w k).mp hk).2
  have hins := hshape.insertLast stored hlast' hfree hlive hvalid
  rw [modifySet_nsets] at hins
  exact ⟨hins.1, fun w k => (hins.2 w k).trans (or_congr_left (hholds w k))⟩

/-- Replacing a key of the last set is removing it and inserting the new one. -/
theorem insertSorted_last (h : NodeShape b) {stored : BkeyPacked} :
    b.modifySet (b.nsets - 1) (insertSorted stored) =
      (b.modifySet (b.nsets - 1) (takeOut true stored.pos)).modifySet (b.nsets - 1)
        (insertSorted stored) := by
  obtain ⟨front, hfront⟩ := h.sets_eq_last
  have hlen : b.nsets - 1 = front.length := by simp [BtreeNode.nsets, hfront]
  have hsorted : PosSorted b.last.keys := h.sorted b.last (by
    rw [hfront]
    exact List.mem_append_right _ (List.mem_singleton_self _))
  simp only [BtreeNode.modifySet, hlen, takeOut, if_true]
  congr 1
  rw [hfront, modify_last, modify_last, modify_last, insertSorted_filter hsorted]

/-- `bch2_btree_bset_insert_key` has the effect of an insertion. -/
theorem bsetInsertKey (h : NodeShape b) (hm : MarksApart b) {insert : Bkey}
    (hv : InsertValid b.header insert) {changed : Bool}
    (hb : bch2BtreeBsetInsertKey b insert false = some (changed, b')) :
    InsertEffect b b' insert := by
  have hu64s : 0 < insert.u64s := by
    simp only [Bkey.u64s, bkeyU64s]
    omega
  rw [bch2BtreeBsetInsertKey] at hb
  split at hb
  · -- the position has a live key
    rename_i k i hk hi
    obtain ⟨⟨w, hw⟩, hpos⟩ := h.liveAt_iff.mp hk
    have hold : oldMark b insert.p = k.needsWhiteout := by simp [oldMark, hk]
    split_ifs at hb with hdel
    · obtain ⟨b₁, hb₁, hb⟩ := Option.bind_eq_some_iff.mp hb
      obtain ⟨hshape, hframe, hwh⟩ := h.pushNeededWhiteout hm hw hb₁
      obtain ⟨wh, rfl⟩ : ∃ wh, b₁ = { b with whiteouts := wh } := ⟨_, hframe⟩
      obtain ⟨-, rfl⟩ := Prod.mk.inj (Option.some.inj hb)
      obtain ⟨hshape', hholds⟩ := hshape.removeAt hi (decide (i + 1 = b.nsets))
      refine ⟨hshape', ⟨_, _, _, rfl⟩, ?_, ?_⟩
      · rw [modifySet_whiteouts, hdel, hold, Bool.true_and, hwh, hpos]
      · intro w' k'
        rw [hholds w' k']
        simp only [hdel, Bool.true_eq_false, false_and, or_false]
        rfl
    · -- the new key takes over the mark
      have hdel' : insert.deleted = false := by simpa using hdel
      rw [Bool.false_or] at hb
      have hvalid := packKey_valid h hv k.needsWhiteout
      have hput : b.bsetWritten b.last = false ∧ b' =
          (b.modifySet i (takeOut (decide (i + 1 = b.nsets)) insert.p)).modifySet (b.nsets - 1)
            (insertSorted (packKey b.header.format insert k.needsWhiteout)) := by
        obtain ⟨r, hr, hb⟩ := Option.bind_eq_some_iff.mp hb
        by_cases hwr : i + 1 = b.nsets
        · -- the old key is in the last set and is replaced there
          obtain rfl : i = b.nsets - 1 := by omega
          simp only [hwr, decide_true, if_true] at hr hb ⊢
          split_ifs at hb with hfits
          obtain ⟨-, rfl⟩ := Prod.mk.inj (Option.some.inj hb)
          exact ⟨last_unwritten hr hu64s hfits, h.insertSorted_last⟩
        · simp only [hwr, decide_false, Bool.false_eq_true, if_false] at hr hb ⊢
          split_ifs at hb with hfits
          obtain ⟨-, rfl⟩ := Prod.mk.inj (Option.some.inj hb)
          have hlast := last_unwritten hr hu64s hfits
          rw [BtreeNode.bsetWritten, modifySet_last_dataOffset] at hlast
          exact ⟨hlast, by rw [modifySet_nsets]; rfl⟩
      obtain ⟨hlast, rfl⟩ := hput
      obtain ⟨hshape, hholds⟩ := h.replaceAt hi (decide (i + 1 = b.nsets))
        (packKey_pos b.header.format insert k.needsWhiteout) hlast hdel' hvalid
      refine ⟨hshape, ⟨_, _, _, rfl⟩, ?_, ?_⟩
      · rw [modifySet_whiteouts, modifySet_whiteouts, hdel', Bool.false_and]
        rfl
      · intro w' k'
        rw [hholds w' k', hold]
        simp [hdel']
  · -- the position has no live key
    rename_i hnone
    have hfree : ∀ w k, b.Holds w k → k.pos ≠ insert.p := by
      intro w k hk hpos
      obtain ⟨i, hi⟩ := exists_liveIdx hk hpos
      exact hnone k i (h.liveAt_iff.mpr ⟨⟨w, hk⟩, hpos⟩) hi
    have hold : oldMark b insert.p = false := by
      rw [oldMark, liveAt_eq_none_iff.mpr hfree]
      rfl
    split_ifs at hb with hdel
    · obtain ⟨-, rfl⟩ := Prod.mk.inj (Option.some.inj hb)
      refine ⟨h, ⟨_, _, _, rfl⟩, ?_, ?_⟩
      · rw [hold, Bool.and_false]
        rfl
      · intro w k
        simp only [hdel, Bool.true_eq_false, false_and, or_false]
        exact (and_iff_left_of_imp fun hk => hfree w k hk).symm
    · have hdel' : insert.deleted = false := by simpa using hdel
      obtain ⟨r, hr, hb⟩ := Option.bind_eq_some_iff.mp hb
      split_ifs at hb with hfits
      obtain ⟨-, rfl⟩ := Prod.mk.inj (Option.some.inj hb)
      obtain ⟨hshape, hholds⟩ := h.insertLast (packKey b.header.format insert false)
        (last_unwritten hr hu64s hfits) hfree hdel' (packKey_valid h hv false)
      refine ⟨hshape, ⟨_, _, _, rfl⟩, ?_, ?_⟩
      · rw [modifySet_whiteouts, hold, Bool.and_false]
        rfl
      · intro w k
        rw [hholds w k, hold]
        simp only [hdel', true_and]
        exact or_congr_left (and_iff_left_of_imp fun hk => hfree w k hk).symm

theorem noteJournalSeq (h : NodeShape b) (i seq : ℕ) :
    NodeShape (b.noteJournalSeq i seq) ∧
      ∀ w k, (b.noteJournalSeq i seq).Holds w k ↔ b.Holds w k := by
  have hsets : List.Forall₂ (Thinned b fun _ => True) b.sets (b.noteJournalSeq i seq).sets := by
    refine forall₂_modify ?_ ?_
    · intro s _
      exact ⟨rfl, fun k => (and_iff_left trivial).symm, id, fun _ hv => hv⟩
    · intro j s _ _
      exact ⟨rfl, fun k => (and_iff_left trivial).symm, id, fun _ hv => hv⟩
  have hhead : (b.noteJournalSeq i seq).sets.head?.map Bset.dataOffset =
      b.sets.head?.map Bset.dataOffset := by
    cases hs : b.sets with
    | nil => simp [BtreeNode.noteJournalSeq, hs]
    | cons s rest => cases i <;> simp [BtreeNode.noteJournalSeq, hs]
  obtain ⟨hshape, hholds⟩ := h.thinned hsets hhead
  exact ⟨{ hshape with }, fun w k => (hholds w k).trans (and_iff_left trivial)⟩

/-- `bch2_btree_insert_key_leaf` has the effect of an insertion. -/
theorem insertKeyLeaf (h : NodeShape b) (hm : MarksApart b) {insert : Bkey} {seq : ℕ}
    (hv : InsertValid b.header insert)
    (hb : bch2BtreeInsertKeyLeaf b insert false seq = some b') : InsertEffect b b' insert := by
  obtain ⟨⟨changed, b₁⟩, hb₁, hb⟩ := Option.bind_eq_some_iff.mp hb
  have heff := h.bsetInsertKey hm hv hb₁
  obtain ⟨hshape, hholds⟩ := heff.shape.noteJournalSeq (b₁.nsets - 1) seq
  have heff₂ : InsertEffect b (b₁.noteJournalSeq (b₁.nsets - 1) seq) insert := by
    refine ⟨hshape, ?_, heff.whiteouts, fun w k => (hholds w k).trans (heff.holds w k)⟩
    obtain ⟨sets, wh, d, rfl⟩ := heff.frame
    exact ⟨_, _, _, rfl⟩
  dsimp only at hb
  split_ifs at hb
  · obtain rfl := Option.some.inj hb
    exact heff
  · obtain ⟨r, hr, rfl⟩ := Option.map_eq_some_iff.mp hb
    exact heff₂.rearranged (hshape.dropWhiteouts hr)
  · obtain rfl := Option.some.inj hb
    exact heff₂

end NodeShape

end Subvol

import Subvol.Btree.Parent

/-!
# Runs of an interior node

An interior node goes through splits, merges and rewrites of its children, writes and reads back.
An update of child pointers loosens the tie between the node and its sectors at the positions whose
pointers it takes out, and closes it where it puts a pointer in or leaves a whiteout. What stays
loose is a pointer that a merge removes without its bit: it comes back with the next read.

## Main definitions

* `ParentOpen`: a node whose last set takes new pointers, in the middle of an update.
* `ParentInv`: the invariant between updates.

## Main results

* `ParentOp.inv`, `runParent_inv`: the invariant along a step and along a run.
* `parent_read_after_write`: what a read finds behind a write.
-/

namespace Subvol

open Lib

/-! ### The last set -/

theorem insertBefore_eq {k : BkeyPacked} {keys : List BkeyPacked}
    (h : ∀ x ∈ keys, x.pos ≠ k.pos) : insertBefore k keys = insertSorted k keys := by
  induction keys with
  | nil => rfl
  | cons x keys ih =>
    have hne := h x (List.mem_cons_self ..)
    rw [insertBefore, insertSorted, ih fun y hy => h y (List.mem_cons_of_mem _ hy)]
    simp [hne]

/-- The last set behind a change of one set. -/
theorem last_modifySet (b : BtreeNode) (i : ℕ) (g : List BkeyPacked → List BkeyPacked) :
    (b.modifySet i g).last =
      if i + 1 = b.nsets then { b.last with keys := g b.last.keys } else b.last := by
  rw [BtreeNode.last, BtreeNode.last, List.getLastD_eq_getLast?, List.getLastD_eq_getLast?,
    List.getLast?_eq_getElem?, List.getLast?_eq_getElem?, BtreeNode.modifySet, BtreeNode.nsets]
  dsimp only
  rw [List.length_modify, List.getElem?_modify]
  cases hsets : b.sets with
  | nil => simp
  | cons s rest =>
    rw [List.length_cons, Nat.add_sub_cancel]
    by_cases hi : i = rest.length
    · subst hi
      simp
    · rw [if_neg (by omega)]
      simp [hi]

theorem childPtr_valid {b : BtreeNode} (h : NodeShape b) {c : Child}
    (hrange : b.header.InRange c.maxKey) (mark : Bool) :
    KeyValid b.header (packKey b.header.format (childPtr c) mark) where
  min_le := hrange.1
  le_max := hrange.2
  ptr _ := ⟨by simp [packKey, childPtr, btreePtrV2U64s], rfl⟩
  u64s_pos := by
    have := h.format_pos
    simp only [packKey, BkeyPacked.u64s, bkeyU64s]
    split_ifs <;> omega

theorem mem_rewriteTakeOut {writeable : Bool} {p : Bpos} {keys : List BkeyPacked}
    {k : BkeyPacked} : (k ∈ rewriteTakeOut writeable p keys ∧ k.deleted = false) ↔
      (k ∈ keys ∧ k.deleted = false) ∧ k.pos ≠ p := by
  rw [rewriteTakeOut]
  split_ifs
  · simp only [List.mem_filter, decide_eq_true_eq]
    tauto
  · constructor
    · rintro ⟨hk, hlive⟩
      obtain ⟨x, hx, rfl⟩ := List.mem_map.mp hk
      split_ifs at hlive ⊢ with hdead
      · cases hlive
      · refine ⟨⟨hx, hlive⟩, ?_⟩
        rintro rfl
        exact hdead ⟨rfl, by simpa using hlive⟩
    · rintro ⟨⟨hk, hlive⟩, hne⟩
      exact ⟨List.mem_map.mpr ⟨k, hk, if_neg fun h => hne h.1⟩, hlive⟩

theorem posSorted_rewriteTakeOut {writeable : Bool} {p : Bpos} {keys : List BkeyPacked}
    (h : PosSorted keys) : PosSorted (rewriteTakeOut writeable p keys) := by
  rw [rewriteTakeOut]
  split_ifs
  · exact h.filter _
  · exact h.map fun k => by split_ifs <;> rfl

theorem rewriteTakeOut_valid {writeable : Bool} {p : Bpos} {keys : List BkeyPacked}
    {hdr : NodeHeader} (h : ∀ k ∈ keys, KeyValid hdr k) :
    ∀ k ∈ rewriteTakeOut writeable p keys, KeyValid hdr k := by
  rw [rewriteTakeOut]
  split_ifs
  · exact fun k hk => h k (List.mem_of_mem_filter hk)
  · intro k hk
    obtain ⟨x, hx, rfl⟩ := List.mem_map.mp hk
    split_ifs
    · exact ⟨(h x hx).min_le, (h x hx).le_max,
        by simp [keyTypeDeleted, keyTypeBtreePtrV2], (h x hx).u64s_pos⟩
    · exact h x hx

/-! ### In the middle of an update -/

/-- A node whose last set takes new pointers. -/
structure ParentOpen (b : BtreeNode) (disk : NodeDisk) (loose : Set Bpos) : Prop where
  tied : NodeTied b disk loose
  unwritten : b.bsetWritten b.last = false
  live : ∀ k ∈ b.last.keys, k.deleted = false

namespace ParentOpen

variable {b b' : BtreeNode} {disk : NodeDisk} {loose : Set Bpos} {p : Bpos} {i : ℕ}

theorem mono (h : ParentOpen b disk loose) {loose' : Set Bpos} (hsub : loose ⊆ loose') :
    ParentOpen b disk loose' :=
  { h with tied := { h.tied with covered := fun p hp => h.tied.covered p fun hmem => hp (hsub hmem) } }

/-- A pointer taken out of its set leaves its position loose. -/
theorem removeBy (h : ParentOpen b disk loose) (hi : b.liveIdx p = some i)
    {g : List BkeyPacked → List BkeyPacked}
    (hmem : ∀ keys k, (k ∈ g keys ∧ k.deleted = false) ↔
      (k ∈ keys ∧ k.deleted = false) ∧ k.pos ≠ p)
    (hsorted : ∀ keys, PosSorted keys → PosSorted (g keys))
    (hvalid : ∀ hdr keys, (∀ k ∈ keys, KeyValid hdr k) → ∀ k ∈ g keys, KeyValid hdr k)
    (hsub : i + 1 = b.nsets → ∀ keys, ∀ k ∈ g keys, k ∈ keys) :
    ParentOpen (b.modifySet i g) disk (insert p loose) ∧
      ∀ w k, (b.modifySet i g).Holds w k ↔ b.Holds w k ∧ k.pos ≠ p := by
  obtain ⟨hshape, hholds⟩ := h.tied.shape.removeBy hi hmem hsorted hvalid
  refine ⟨⟨⟨hshape, h.tied.sectors.congr rfl rfl rfl rfl, h.tied.justWritten, ?_, ?_, ?_⟩,
    ?_, ?_⟩, hholds⟩
  · exact fun k hk => h.tied.onDisk k ((hholds true k).mp hk).1
  · intro q hq hview
    obtain ⟨hne, hq⟩ : q ≠ p ∧ q ∉ loose := by simpa [not_or] using hq
    rcases h.tied.covered q hq hview with ⟨w, k, hk, rfl⟩ | hx
    · exact .inl ⟨w, k, (hholds w k).mpr ⟨hk, hne⟩, rfl⟩
    · exact .inr hx
  · exact fun w k hk => h.tied.apart w k ((hholds w k).mp hk).1
  · rw [BtreeNode.bsetWritten, modifySet_last_dataOffset]
    exact h.unwritten
  · intro k hk
    rw [last_modifySet] at hk
    split_ifs at hk with hlast
    · exact h.live k (hsub hlast _ k hk)
    · exact h.live k hk

theorem takeOut (h : ParentOpen b disk loose) (hi : b.liveIdx p = some i) :
    ParentOpen (b.modifySet i (takeOut (i + 1 = b.nsets) p)) disk (insert p loose) ∧
      ∀ w k, (b.modifySet i (takeOut (i + 1 = b.nsets) p)).Holds w k ↔
        b.Holds w k ∧ k.pos ≠ p := by
  refine h.removeBy hi (fun _ _ => mem_takeOut) (fun _ => posSorted_takeOut)
    (fun _ _ => takeOut_valid) fun hlast keys k hk => ?_
  rw [Subvol.takeOut, if_pos (by simpa using hlast)] at hk
  exact List.mem_of_mem_filter hk

theorem rewriteTakeOut (h : ParentOpen b disk loose) (hi : b.liveIdx p = some i) :
    ParentOpen (b.modifySet i (rewriteTakeOut (i + 1 = b.nsets) p)) disk (insert p loose) ∧
      ∀ w k, (b.modifySet i (rewriteTakeOut (i + 1 = b.nsets) p)).Holds w k ↔
        b.Holds w k ∧ k.pos ≠ p := by
  refine h.removeBy hi (fun _ _ => mem_rewriteTakeOut) (fun _ => posSorted_rewriteTakeOut)
    (fun _ _ => rewriteTakeOut_valid) fun hlast keys k hk => ?_
  rw [Subvol.rewriteTakeOut, if_pos (by simpa using hlast)] at hk
  exact List.mem_of_mem_filter hk

/-- A pointer put in at a free position closes that position. -/
theorem bsetInsert (h : ParentOpen b disk loose) {c : Child} {mark : Bool}
    (hb : bch2BsetInsert b (childPtr c) mark = some b')
    (hfree : ∀ w k, b.Holds w k → k.pos ≠ c.maxKey)
    (hmark : mark = true → ∀ x ∈ b.whiteouts, x.pos ≠ c.maxKey) :
    ParentOpen b' disk (loose \ {c.maxKey}) ∧ b'.whiteouts = b.whiteouts ∧
      ∀ w k, b'.Holds w k ↔
        b.Holds w k ∨ (w = false ∧ k = packKey b.header.format (childPtr c) mark) := by
  rw [bch2BsetInsert] at hb
  split_ifs at hb with hroom
  obtain rfl := Option.some.inj hb
  set stored := packKey b.header.format (childPtr c) mark with hstored
  have hpos : stored.pos = c.maxKey := rfl
  have hshape := h.tied.shape
  obtain ⟨front, hfront⟩ := hshape.sets_eq_last
  have hmem : b.last ∈ b.sets := by
    rw [hfront]
    exact List.mem_append_right _ (List.mem_singleton_self _)
  -- the last set has no key at the position, since its keys are live
  have hset : ∀ x ∈ b.last.keys, x.pos ≠ stored.pos :=
    fun x hx => hfree false x ⟨b.last, hmem, h.unwritten, hx, h.live x hx⟩
  have heq : b.modifySet (b.nsets - 1) (insertBefore stored) =
      b.modifySet (b.nsets - 1) (insertSorted stored) := by
    have hlen : b.nsets - 1 = front.length := by simp [BtreeNode.nsets, hfront]
    simp only [BtreeNode.modifySet, hlen]
    congr 1
    rw [hfront, modify_last, modify_last, insertBefore_eq hset]
  rw [heq]
  obtain ⟨hshape', hholds⟩ := hshape.insertLast stored h.unwritten hfree rfl
    (childPtr_valid hshape hroom.1 mark)
  refine ⟨⟨⟨hshape', h.tied.sectors.congr rfl rfl rfl rfl, h.tied.justWritten, ?_, ?_, ?_⟩,
    ?_, ?_⟩, rfl, hholds⟩
  · intro k hk
    rcases (hholds true k).mp hk with hk | ⟨hfalse, -⟩
    · exact h.tied.onDisk k hk
    · cases hfalse
  · intro q hq hview
    by_cases hqc : q = c.maxKey
    · exact .inl ⟨false, stored, (hholds _ _).mpr (.inr ⟨rfl, rfl⟩), hqc ▸ hpos⟩
    · have hq' : q ∉ loose := fun hmem => hq ⟨hmem, hqc⟩
      refine (h.tied.covered q hq' hview).imp_left ?_
      rintro ⟨w, k, hk, hkq⟩
      exact ⟨w, k, (hholds w k).mpr (.inl hk), hkq⟩
  · intro w k hk hkm x hx
    rcases (hholds w k).mp hk with hk | ⟨-, rfl⟩
    · exact h.tied.apart w k hk hkm x hx
    · exact hmark hkm x hx
  · rw [BtreeNode.bsetWritten, modifySet_last_dataOffset]
    exact h.unwritten
  · intro k hk
    rw [last_modifySet] at hk
    split_ifs at hk
    · rcases (mem_insertSorted (hshape.sorted b.last hmem)).mp hk with rfl | ⟨hk, -⟩
      · rfl
      · exact h.live k hk
    · exact h.live k hk

/-- A whiteout closes the position of a pointer that was taken out. -/
theorem push (h : ParentOpen b disk (insert p loose))
    (hfree : ∀ w k, b.Holds w k → k.pos ≠ p) (hp : ∀ x ∈ b.whiteouts, x.pos ≠ p)
    (hvalid : KeyValid b.header (whiteoutKey b.header.format p)) :
    ParentOpen { b with whiteouts := whiteoutKey b.header.format p :: b.whiteouts } disk loose := by
  have hshape := h.tied.shape
  refine ⟨⟨{ hshape with
    whiteouts_dead := ?_
    whiteouts_valid := ?_
    whiteouts_nodup := ?_ }, h.tied.sectors.congr rfl rfl rfl rfl, h.tied.justWritten,
    h.tied.onDisk, ?_, ?_⟩, h.unwritten, h.live⟩
  · intro x hx
    rcases List.mem_cons.mp hx with rfl | hx
    · rfl
    · exact hshape.whiteouts_dead x hx
  · intro x hx
    rcases List.mem_cons.mp hx with rfl | hx
    · exact hvalid
    · exact hshape.whiteouts_valid x hx
  · refine List.nodup_cons.mpr ⟨?_, hshape.whiteouts_nodup⟩
    intro hmem
    obtain ⟨x, hx, hpos⟩ := List.mem_map.mp hmem
    exact hp x hx hpos
  · intro q hq hview
    by_cases hqp : q = p
    · exact .inr ⟨_, List.mem_cons_self .., hqp.symm⟩
    · have hq' : q ∉ insert p loose := by simp [hqp, hq]
      refine (h.tied.covered q hq' hview).imp_right ?_
      rintro ⟨x, hx, hxq⟩
      exact ⟨x, List.mem_cons_of_mem _ hx, hxq⟩
  · intro w k hk hmark x hx
    rcases List.mem_cons.mp hx with rfl | hx
    · exact (hfree w k hk).symm
    · exact h.tied.apart w k hk hmark x hx

end ParentOpen

theorem liveSlot_eq_some {b : BtreeNode} {p : Bpos} {i : ℕ} {k : BkeyPacked}
    (h : liveSlot b p = some (i, k)) : b.liveIdx p = some i ∧ b.liveAt p = some k := by
  obtain ⟨j, hj, hk⟩ := Option.bind_eq_some_iff.mp h
  obtain ⟨x, hx, heq⟩ := Option.map_eq_some_iff.mp hk
  obtain ⟨rfl, rfl⟩ := Prod.mk.inj heq
  exact ⟨hj, hx⟩

theorem liveSlot_ne_none {b : BtreeNode} (h : NodeShape b) {p : Bpos} (hp : b.liveAt p ≠ none) :
    liveSlot b p ≠ none := by
  obtain ⟨k, hk⟩ := Option.ne_none_iff_exists'.mp hp
  obtain ⟨⟨w, hw⟩, hpos⟩ := h.liveAt_iff.mp hk
  obtain ⟨i, hi⟩ := NodeShape.exists_liveIdx hw hpos
  simp [liveSlot, hi, hk]

/-! ### The sources of a merge -/

namespace ParentOpen

variable {b b' : BtreeNode} {disk : NodeDisk} {loose : Set Bpos} {p : Bpos}

/-- A source that is taken out with its bit leaves a whiteout, and without it a loose position. -/
theorem mergeTakeOut (h : ParentOpen b disk loose)
    (hb : mergeTakeOut b p = some (true, b')) :
    ParentOpen b' disk (if oldMark b p then loose else insert p loose) ∧
      (∀ w k, b'.Holds w k ↔ b.Holds w k ∧ k.pos ≠ p) ∧ ∀ x ∈ b.whiteouts, x ∈ b'.whiteouts := by
  rw [Subvol.mergeTakeOut] at hb
  split_ifs at hb
  split at hb
  · cases hb
  · rename_i i old hslot
    obtain ⟨hi, hold⟩ := liveSlot_eq_some hslot
    obtain ⟨b₁, hpush, heq⟩ := Option.map_eq_some_iff.mp hb
    obtain ⟨-, rfl⟩ := Prod.mk.inj heq
    obtain ⟨⟨w, hw⟩, hpos⟩ := h.tied.shape.liveAt_iff.mp hold
    obtain ⟨hopen, hholds⟩ := h.takeOut hi
    have hmark : oldMark b p = old.needsWhiteout := by simp [oldMark, hold]
    rw [pushNeededWhiteout] at hpush
    rw [hmark]
    split_ifs at hpush ⊢ with hneeds
    · obtain ⟨r, -, hpush⟩ := Option.bind_eq_some_iff.mp hpush
      split_ifs at hpush
      obtain rfl := Option.some.inj hpush
      rw [hpos]
      have hvalid := whiteoutKey_valid h.tied.shape (h.tied.shape.holds_valid hw)
      rw [hpos] at hvalid
      refine ⟨hopen.push (fun w' k hk => ((hholds w' k).mp hk).2) ?_ hvalid, hholds, ?_⟩
      · intro x hx
        rw [← hpos]
        exact h.tied.apart w old hw hneeds x hx
      · exact fun x hx => List.mem_cons_of_mem _ hx
    · obtain rfl := Option.some.inj hpush
      exact ⟨hopen, hholds, fun x hx => hx⟩

end ParentOpen

/-- A source that the parent has is found. -/
theorem mergeTakeOut_found {b b' : BtreeNode} (h : NodeShape b) {p : Bpos} {found : Bool}
    (hp : b.liveAt p ≠ none) (hb : mergeTakeOut b p = some (found, b')) : found = true := by
  rw [mergeTakeOut] at hb
  split_ifs at hb
  split at hb
  · rename_i hslot
    exact absurd hslot (liveSlot_ne_none h hp)
  · obtain ⟨b₁, -, heq⟩ := Option.map_eq_some_iff.mp hb
    exact (Prod.mk.inj heq).1.symm

/-- The live key of a position does not change with the keys of other positions. -/
theorem liveAt_congr {b b' : BtreeNode} (h : NodeShape b) (h' : NodeShape b') {p : Bpos}
    (hholds : ∀ w k, k.pos = p → (b'.Holds w k ↔ b.Holds w k)) : b'.liveAt p = b.liveAt p := by
  refine Option.ext fun k => ?_
  rw [h.liveAt_iff, h'.liveAt_iff]
  constructor
  · rintro ⟨⟨w, hw⟩, hpos⟩
    exact ⟨⟨w, (hholds w k hpos).mp hw⟩, hpos⟩
  · rintro ⟨⟨w, hw⟩, hpos⟩
    exact ⟨⟨w, (hholds w k hpos).mpr hw⟩, hpos⟩

/-- The loop over sources that are all there takes them all out. -/
theorem ParentOpen.mergeTakeOuts {disk : NodeDisk} {ps : List Bpos} {b b' : BtreeNode}
    {loose : Set Bpos} {r : Bool} (h : ParentOpen b disk loose) (hps : ps.Nodup)
    (hlive : ∀ p ∈ ps, b.liveAt p ≠ none) (hb : mergeTakeOuts ps b = some (r, b')) :
    r = true ∧ ParentOpen b' disk (loose ∪ {p | p ∈ ps ∧ oldMark b p = false}) ∧
      (∀ w k, b'.Holds w k ↔ b.Holds w k ∧ k.pos ∉ ps) ∧ ∀ x ∈ b.whiteouts, x ∈ b'.whiteouts := by
  induction ps generalizing b loose with
  | nil =>
    obtain ⟨rfl, rfl⟩ := Prod.mk.inj (Option.some.inj hb)
    simpa using h
  | cons p ps ih =>
    obtain ⟨hp, hps⟩ := List.nodup_cons.mp hps
    obtain ⟨⟨found, b₁⟩, hb₁, hb⟩ := Option.bind_eq_some_iff.mp hb
    obtain rfl : found = true := mergeTakeOut_found h.tied.shape (hlive p (List.mem_cons_self ..)) hb₁
    replace hb : Subvol.mergeTakeOuts ps b₁ = some (r, b') := hb
    obtain ⟨hopen, hholds, hwh⟩ := h.mergeTakeOut hb₁
    -- the other sources and their bits stay
    have hsame : ∀ q ∈ ps, b₁.liveAt q = b.liveAt q := by
      intro q hq
      refine liveAt_congr h.tied.shape hopen.tied.shape fun w k hk => ?_
      rw [hholds w k]
      refine and_iff_left ?_
      rintro rfl
      exact hp (hk ▸ hq)
    have hlive₁ : ∀ q ∈ ps, b₁.liveAt q ≠ none := by
      intro q hq
      rw [hsame q hq]
      exact hlive q (List.mem_cons_of_mem _ hq)
    obtain ⟨rfl, hopen', hholds', hwh'⟩ := ih hopen hps hlive₁ hb
    refine ⟨rfl, ?_, ?_, fun x hx => hwh' x (hwh x hx)⟩
    · refine hopen'.mono ?_
      rintro q (hq | ⟨hqs, hmark⟩)
      · split_ifs at hq with hmark
        · exact .inl hq
        · rcases hq with rfl | hq
          · exact .inr ⟨List.mem_cons_self .., by simpa using hmark⟩
          · exact .inl hq
      · refine .inr ⟨List.mem_cons_of_mem _ hqs, ?_⟩
        rw [oldMark, ← hsame q hqs]
        exact hmark
    · intro w k
      rw [hholds' w k, hholds w k, List.mem_cons, not_or, and_assoc]

/-! ### The invariant -/

/-- The invariant of an interior node and its sectors. The keys of a last set that is not written
are live. -/
structure ParentInv (b : BtreeNode) (disk : NodeDisk) : Prop where
  tied : NodeTied b disk ∅
  live : b.bsetWritten b.last = false → ∀ k ∈ b.last.keys, k.deleted = false

theorem ParentInv.open {b : BtreeNode} {disk : NodeDisk} (h : ParentInv b disk)
    (hlast : b.bsetWritten b.last = false) : ParentOpen b disk ∅ := ⟨h.tied, hlast, h.live hlast⟩

/-- Behind an update the positions still loose have to be covered by whiteouts. -/
theorem ParentOpen.dirty {b : BtreeNode} {disk : NodeDisk} {loose : Set Bpos}
    (h : ParentOpen b disk loose)
    (hloose : ∀ p ∈ loose, nodeView disk p ≠ none → ∃ x ∈ b.whiteouts, x.pos = p) :
    ParentInv { b with dirty := true } disk where
  tied :=
    { shape := { h.tied.shape with }
      sectors := h.tied.sectors.congr rfl rfl rfl rfl
      justWritten := h.tied.justWritten
      onDisk := h.tied.onDisk
      covered := by
        intro p _ hview
        by_cases hp : p ∈ loose
        · exact .inr (hloose p hp hview)
        · exact h.tied.covered p hp hview
      apart := h.tied.apart }
  live _ := h.live

theorem insertFits_unwritten {b : BtreeNode} {n : ℕ} (hn : 0 < n)
    (h : bch2BtreeNodeInsertFits b n = some true) : b.bsetWritten b.last = false := by
  rw [bch2BtreeNodeInsertFits] at h
  split_ifs at h
  · cases h
  · obtain ⟨r, hr, hle⟩ := Option.map_eq_some_iff.mp h
    exact last_unwritten hr hn (of_decide_eq_true hle)

theorem le_posBehindDelete (b : BtreeNode) (writeable : Bool) (p : Bpos) :
    p ≤ posBehindDelete b writeable p := by
  rw [posBehindDelete]
  split_ifs
  · cases hfind : b.last.keys.find? fun k => p < k.pos with
    | none => exact le_refl p
    | some k =>
      have hlt : p < k.pos := by simpa using List.find?_some hfind
      exact hlt.le
  · exact le_refl p

namespace ParentInv

variable {b : BtreeNode} {disk : NodeDisk} {u : ParentUpdate}

theorem splitParent (h : ParentInv b disk) {oldPos : Bpos} {left right : Child}
    (hright : right.maxKey = oldPos) (hleft : left.maxKey < oldPos)
    (hpivot : ∀ k ∈ b.liveKeys, k.pos < oldPos → k.pos < left.maxKey)
    (hu : splitParent b oldPos left right = some u) : ParentInv (u.node b) disk := by
  rw [Subvol.splitParent] at hu
  split_ifs at hu
  split at hu
  · cases hu
    exact h
  · rename_i i old hslot
    obtain ⟨hi, hold⟩ := liveSlot_eq_some hslot
    dsimp only at hu
    split at hu
    · cases hu
    · cases hu
      exact h
    · rename_i hfits
      have hopen := h.open (insertFits_unwritten (by split_ifs <;> decide) hfits)
      obtain ⟨hopen₁, hholds₁⟩ := hopen.takeOut hi
      obtain ⟨b₂, hb₂, hu⟩ := Option.bind_eq_some_iff.mp hu
      obtain ⟨b₃, hb₃, hu⟩ := Option.bind_eq_some_iff.mp hu
      cases hu
      -- the position read behind the deletion is never that of the left half
      have hnotLeft : left.maxKey ≠ posBehindDelete b (decide (i + 1 = b.nsets)) oldPos :=
        ne_of_lt (hleft.trans_le (le_posBehindDelete b _ oldPos))
      have hfreeLeft : ∀ w k, (b.modifySet i (takeOut (i + 1 = b.nsets) oldPos)).Holds w k →
          k.pos ≠ left.maxKey := by
        intro w k hk heq
        obtain ⟨hk, -⟩ := (hholds₁ w k).mp hk
        have hlt := hpivot k (mem_liveKeys.mpr ⟨w, hk⟩) (heq ▸ hleft)
        exact absurd heq (ne_of_lt hlt)
      obtain ⟨hopen₂, hwh₂, hholds₂⟩ := hopen₁.bsetInsert hb₂ hfreeLeft (by simp [hnotLeft])
      have hfreeRight : ∀ w k, b₂.Holds w k → k.pos ≠ right.maxKey := by
        intro w k hk
        rw [hright]
        rcases (hholds₂ w k).mp hk with hk | ⟨-, rfl⟩
        · exact ((hholds₁ w k).mp hk).2
        · exact ne_of_lt hleft
      have hmarkRight : (old.needsWhiteout && right.maxKey =
          posBehindDelete b (decide (i + 1 = b.nsets)) oldPos) = true →
          ∀ x ∈ b₂.whiteouts, x.pos ≠ right.maxKey := by
        intro hmark x hx
        rw [hwh₂] at hx
        obtain ⟨⟨w, hw⟩, hpos⟩ := h.tied.shape.liveAt_iff.mp hold
        have hneeds : old.needsWhiteout = true := (Bool.and_eq_true_iff.mp hmark).1
        rw [hright, ← hpos]
        exact h.tied.apart w old hw hneeds x hx
      obtain ⟨hopen₃, -, -⟩ := hopen₂.bsetInsert hb₃ hfreeRight hmarkRight
      refine hopen₃.dirty ?_
      rintro p ⟨⟨rfl | hp, -⟩, hne⟩ -
      · exact absurd hright.symm hne
      · exact absurd hp (Set.notMem_empty p)

theorem mergeParent (h : ParentInv b disk) {srcs : List Bpos} {dst : Child}
    (hsrcs : srcs.Pairwise (· < ·)) (hdst : srcs.getLast? = some dst.maxKey)
    (hlive : ∀ p ∈ srcs, b.liveAt p ≠ none) (hlast : b.bsetWritten b.last = false)
    (hmarked : ∀ p ∈ srcs, p ≠ dst.maxKey → oldMark b p = false → nodeView disk p ≠ none →
      ∃ x ∈ b.whiteouts, x.pos = p)
    (hu : mergeParent b srcs dst = some u) : ParentInv (u.node b) disk := by
  obtain ⟨⟨found, b₁⟩, hb₁, hu⟩ := Option.bind_eq_some_iff.mp hu
  have hnodup : srcs.reverse.Nodup := List.nodup_reverse.mpr (hsrcs.imp fun hlt => ne_of_lt hlt)
  obtain ⟨rfl, hopen₁, hholds₁, hwh₁⟩ := (h.open hlast).mergeTakeOuts hnodup
    (fun p hp => hlive p (List.mem_reverse.mp hp)) hb₁
  obtain ⟨b₂, hb₂, hu⟩ := Option.bind_eq_some_iff.mp hu
  cases hu
  have hfree : ∀ w k, b₁.Holds w k → k.pos ≠ dst.maxKey := by
    intro w k hk heq
    refine ((hholds₁ w k).mp hk).2 (List.mem_reverse.mpr ?_)
    rw [heq]
    exact List.mem_of_getLast? hdst
  obtain ⟨hopen₂, hwh₂, -⟩ := hopen₁.bsetInsert hb₂ hfree (by simp)
  refine hopen₂.dirty ?_
  rintro p ⟨hp | ⟨hp, hmark⟩, hne⟩ hview
  · exact absurd hp (Set.notMem_empty p)
  · obtain ⟨x, hx, hxp⟩ := hmarked p (List.mem_reverse.mp hp) hne hmark hview
    exact ⟨x, hwh₂ ▸ hwh₁ x hx, hxp⟩

theorem rewriteParent (h : ParentInv b disk) {pos : Bpos} {n : Child} (hn : n.maxKey = pos)
    (hlast : b.bsetWritten b.last = false) (hu : rewriteParent b pos n = some u) :
    ParentInv (u.node b) disk := by
  rw [Subvol.rewriteParent] at hu
  split_ifs at hu
  split at hu
  · cases hu
    exact h
  · rename_i i old hslot
    obtain ⟨hi, -⟩ := liveSlot_eq_some hslot
    obtain ⟨b₂, hb₂, hu⟩ := Option.map_eq_some_iff.mp hu
    cases hu
    obtain ⟨hopen₁, hholds₁⟩ := (h.open hlast).rewriteTakeOut hi
    have hfree : ∀ w k, (b.modifySet i (Subvol.rewriteTakeOut (i + 1 = b.nsets) pos)).Holds w k →
        k.pos ≠ n.maxKey := by
      intro w k hk
      rw [hn]
      exact ((hholds₁ w k).mp hk).2
    obtain ⟨hopen₂, -, -⟩ := hopen₁.bsetInsert hb₂ hfree (by simp)
    refine hopen₂.dirty ?_
    rintro p ⟨rfl | hp, hne⟩ -
    · exact absurd hn.symm hne
    · exact absurd hp (Set.notMem_empty p)

/-- A write that succeeds leaves a last set that is written or has no keys yet. -/
theorem write (h : ParentInv b disk) {io : NodeIo} {onlyIfNeed : Bool} {b' : BtreeNode}
    {disk' : NodeDisk}
    (hw : bch2BtreeNodeWriteTrans io onlyIfNeed false b disk = some (0, b', disk')) :
    ParentInv b' disk' := by
  by_cases hstart : WriteStarts onlyIfNeed false b
  · refine ⟨(h.tied.writeTrans_done hstart hw).inv.tied, ?_⟩
    obtain ⟨b₁, hwrite, ⟨hne, -⟩ | ⟨-, hclean⟩⟩ := writeTrans_started hstart hw
    · exact absurd rfl hne
    have hlast : b'.bsetWritten b'.last = false → b'.last.keys = [] := by
      cases bch2BtreeNodeWrite_outcome hwrite with
      | early hret => exact absurd rfl hret
      | failed hret => exact absurd rfl hret
      | nothing _ hwritten =>
        exact (postWriteCleanup_spec h.tied.shape hclean rfl rfl rfl rfl hwritten).2.2.2
      | done =>
        have hpos : 0 < (writeBset io (bch2SortWhiteouts (startWrite b))).sectors :=
          writeSectorsOf_pos io _
        exact (postWriteCleanup_spec h.tied.shape hclean rfl rfl rfl rfl (by
          dsimp only
          omega)).2.2.2
    intro hunwritten k hk
    rw [hlast hunwritten] at hk
    cases hk
  · obtain ⟨rfl, rfl, -⟩ := writeTrans_idle hstart hw
    exact h

theorem reload (h : ParentInv b disk) {io : NodeIo} {b' : BtreeNode} (hwritten : b.written ≠ 0)
    (hb : bch2BtreeNodeRead io b disk 0 = .ok b') : ParentInv b' disk := by
  obtain ⟨hok, hpanic⟩ := h.tied.nodeRead_zero (readReady_of_ok hb) hwritten
  by_cases hle : (nonEmptySets disk.bsets).length ≤ sortIterStackSize
  · obtain ⟨b'', hb'', -, hinv, hlast⟩ := hok hle
    rw [hb] at hb''
    cases hb''
    exact ⟨hinv.tied, fun hfalse => absurd hlast (Bool.eq_false_iff.mp hfalse)⟩
  · rw [hpanic (not_le.mp hle)] at hb
    cases hb

end ParentInv

/-- One operation keeps the invariant. -/
theorem ParentOp.inv {dev : NodeIo} {s s' : LeafState} {op : ParentOp}
    (h : ParentInv s.node s.disk) (hcalled : op.Called s) (hsound : op.Sound s)
    (hs : op.step dev s = some s') : ParentInv s'.node s'.disk := by
  cases op with
  | split oldPos left right =>
    obtain ⟨u, hu, rfl⟩ := Option.map_eq_some_iff.mp hs
    obtain ⟨hright, hleft, -, hpivot⟩ := hcalled
    exact h.splitParent hright hleft hpivot hu
  | merge srcs dst =>
    obtain ⟨u, hu, rfl⟩ := Option.map_eq_some_iff.mp hs
    obtain ⟨hsrcs, hdst, hlive⟩ := hcalled
    exact h.mergeParent hsrcs hdst hlive hsound.1 hsound.2 hu
  | rewrite pos n =>
    obtain ⟨u, hu, rfl⟩ := Option.map_eq_some_iff.mp hs
    exact h.rewriteParent hcalled hsound hu
  | write a onlyIfNeed =>
    simp only [ParentOp.step] at hs
    split at hs
    · rename_i ret b disk hw
      split_ifs at hs with hret
      cases hs
      subst hret
      exact h.write hw
    · cases hs
  | reload a =>
    simp only [ParentOp.step] at hs
    split at hs
    · rename_i b hb
      cases hs
      exact h.reload hcalled hb
    · cases hs

theorem runParent_inv {dev : NodeIo} {ops : List ParentOp} {s s' : LeafState}
    (h : ParentInv s.node s.disk)
    (hrun : runParent dev (fun s op => op.Called s ∧ op.Sound s) ops s = some s') :
    ParentInv s'.node s'.disk := by
  induction ops generalizing s with
  | nil =>
    cases hrun
    exact h
  | cons op ops ih =>
    rw [runParent] at hrun
    split_ifs at hrun with hcond
    obtain ⟨s₁, hs₁, hrun⟩ := Option.bind_eq_some_iff.mp hrun
    exact ih (ParentOp.inv h hcond.1 hcond.2 hs₁) hrun

theorem FreshParent.inv {s : LeafState} (h : FreshParent s) : ParentInv s.node s.disk where
  tied := h.toFreshLeaf.inv.tied
  live := by
    obtain ⟨seq, keys, hsets⟩ := h.sets
    intro _ k hk
    have hlast : s.node.last ∈ s.node.sets := by simp [BtreeNode.last, hsets]
    exact (h.valid _ hlast k hk).2

/-! ### Reads behind writes -/

/-- A run from `s₀` to `s` whose operations meet a condition, and a write there that succeeds and
leaves `b'` and `disk'`. -/
def ParentWritten (dev : NodeIo) (cond : LeafState → ParentOp → Prop)
    [∀ s op, Decidable (cond s op)] (s₀ s : LeafState) (b' : BtreeNode) (disk' : NodeDisk) : Prop :=
  ∃ ops a onlyIfNeed, runParent dev cond ops s₀ = some s ∧ WriteStarts onlyIfNeed false s.node ∧
    bch2BtreeNodeWriteTrans (dev.answers a) onlyIfNeed false s.node s.disk = some (0, b', disk')

/-- Behind every run of an interior node that ends in a write that succeeded, in which every merge
and rewrite found an open set and every merge took out pointers with their bit, a read of its
sectors yields the child pointers of the node, as long as the sets on disk fit its sort iterator. -/
theorem parent_read_after_write {dev : NodeIo} {s₀ s : LeafState} {b' : BtreeNode}
    {disk' : NodeDisk} (h₀ : FreshParent s₀)
    (hw : ParentWritten dev (fun s op => op.Called s ∧ op.Sound s) s₀ s b' disk') :
    b'.liveMap = s.node.liveMap ∧
      (NodeReadsBack dev b' disk' ↔ (nonEmptySets disk'.bsets).length ≤ sortIterStackSize) := by
  obtain ⟨ops, a, onlyIfNeed, hrun, hstart, hw⟩ := hw
  have hdone := (runParent_inv h₀.inv hrun).tied.writeTrans_done hstart hw
  exact ⟨hdone.liveMap, hdone.nodeReadsBack_iff⟩

/-! An interior node with three children in a buffer of eight sectors, for the runs below. -/

/-- The child of the small parent over the inodes from `lo` to `hi`. -/
def smallChild (lo hi : Fin (2 ^ 64)) (seq : UInt64) : Child where
  seq := seq
  minKey := ⟨lo, 0, 0⟩
  maxKey := ⟨hi, 0, 0⟩
  extent := some 64

/-- The small parent. -/
def smallParent : LeafState where
  node :=
    { header := ⟨1, 0, 1, ⟨0, 0, 0⟩, ⟨30, 0, 0⟩, bkeyFormatCurrent⟩
      bufU64s := 512
      sets := [⟨17, 1, [smallChild 0 10 1, smallChild 10 20 2, smallChild 20 30 3].map fun c =>
        packKey bkeyFormatCurrent (childPtr c) false⟩]
      ptrDev := some 0
      dirty := true }
  disk := {}

theorem smallParent_fresh : FreshParent smallParent where
  disk := rfl
  sets := ⟨1, _, rfl⟩
  sorted := by
    intro t ht
    obtain rfl := List.mem_singleton.mp ht
    show List.Pairwise _ _
    decide +kernel
  valid := by
    intro t ht k hk
    obtain rfl := List.mem_singleton.mp ht
    obtain ⟨c, hc, rfl⟩ := List.mem_map.mp hk
    refine ⟨⟨?_, ?_, fun _ => ⟨?_, rfl⟩, ?_⟩, rfl⟩
    all_goals
      revert c
      decide +kernel
  whiteouts := rfl
  written := rfl
  sectorsWritten := rfl
  justWritten := rfl
  format_pos := by decide
  format_le := by decide
  buffer := by decide
  level_pos := by decide
  pointers := by
    intro t ht k hk
    obtain rfl := List.mem_singleton.mp ht
    obtain ⟨c, -, rfl⟩ := List.mem_map.mp hk
    rfl

/-- A run and a write behind it, found by evaluation. -/
theorem parentWritten_of_eval (dev : NodeIo) (cond : LeafState → ParentOp → Prop)
    [∀ s op, Decidable (cond s op)] (s₀ : LeafState) (P : BtreeNode → NodeDisk → Bool)
    (ops : List ParentOp)
    (h : (runParent dev cond ops s₀).any (fun s => s.node.dirty &&
      (bch2BtreeNodeWriteTrans (dev.answers {}) false false s.node s.disk).any fun r =>
        r.1 == 0 && P r.2.1 r.2.2) = true) :
    ∃ s b' disk', ParentWritten dev cond s₀ s b' disk' ∧ P b' disk' = true := by
  obtain ⟨s, hs, h⟩ := Option.any_eq_true _ _ |>.mp h
  obtain ⟨hdirty, h⟩ := Bool.and_eq_true_iff.mp h
  obtain ⟨⟨ret, b', disk'⟩, hr, h⟩ := Option.any_eq_true _ _ |>.mp h
  obtain ⟨hret, hP⟩ := Bool.and_eq_true_iff.mp h
  obtain rfl : ret = 0 := by simpa using hret
  exact ⟨s, b', disk', ⟨ops, {}, false, hs, ⟨hdirty, by simp, rfl⟩, hr⟩, hP⟩

/-- A split, a merge that removes a pointer on disk, and a rewrite. -/
theorem parent_read_after_write_small : FreshParent smallParent ∧
    ∃ s b' disk', ParentWritten smallNodeDev (fun s op => op.Called s ∧ op.Sound s) smallParent s b'
      disk' ∧ s.node.liveMap ⟨10, 0, 0⟩ = none ∧ NodeReadsBack smallNodeDev b' disk' := by
  obtain ⟨s, b', disk', hw, hP⟩ := parentWritten_of_eval smallNodeDev
    (fun s op => op.Called s ∧ op.Sound s) smallParent
    (fun b' disk' => decide ((nonEmptySets disk'.bsets).length = 2 ∧
      b'.liveMap ⟨10, 0, 0⟩ = none))
    [.write {} false, .split ⟨30, 0, 0⟩ (smallChild 20 25 4) (smallChild 25 30 5),
      .merge [⟨10, 0, 0⟩, ⟨20, 0, 0⟩] (smallChild 0 20 6),
      .rewrite ⟨30, 0, 0⟩ (smallChild 25 30 7)] (by decide +kernel)
  obtain ⟨hlen, hnone⟩ := of_decide_eq_true hP
  obtain ⟨hmap, hread⟩ := parent_read_after_write smallParent_fresh hw
  exact ⟨smallParent_fresh, s, b', disk', hw, by rw [← hmap]; exact hnone,
    hread.mpr (by rw [hlen]; decide)⟩

/-- A rewrite drops the bit of a pointer that is on disk, a merge takes the new pointer out without
a whiteout, and behind the next write the read finds the old pointer again. -/
theorem parent_pointer_reappears : ¬∀ (dev : NodeIo) (s₀ s : LeafState) (b' : BtreeNode)
    (disk' : NodeDisk), FreshParent s₀ → ParentWritten dev (fun s op => op.Called s) s₀ s b' disk' →
      (nonEmptySets disk'.bsets).length ≤ sortIterStackSize → NodeReadsBack dev b' disk' := by
  intro hclaim
  obtain ⟨s, b', disk', hw, hP⟩ := parentWritten_of_eval smallNodeDev (fun s op => op.Called s)
    smallParent
    (fun b' disk' => decide ((nonEmptySets disk'.bsets).length ≤ sortIterStackSize ∧
      b'.liveMap ⟨10, 0, 0⟩ = none ∧
      (bch2BtreeNodeRead (smallNodeDev.answers {}) b' disk' 0).finds ⟨10, 0, 0⟩ =
        some (childPtr (smallChild 0 10 1))))
    [.write {} false, .rewrite ⟨10, 0, 0⟩ (smallChild 0 10 4),
      .merge [⟨10, 0, 0⟩, ⟨20, 0, 0⟩] (smallChild 0 20 5)] (by decide +kernel)
  obtain ⟨hlen, hnone, hread⟩ := of_decide_eq_true hP
  obtain ⟨b'', hb'', hmap⟩ := hclaim _ _ _ _ _ smallParent_fresh hw hlen
  rw [hb'', NodeRead.finds, hmap, hnone] at hread
  cases hread

end Subvol

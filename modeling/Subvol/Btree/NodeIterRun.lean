import Subvol.Btree.NodeIterInit

/-!
# Runs of a node iterator

However an iterator has been started and moved back and forth, it is between two keys of its node:
`bch2_btree_node_iter_prev_all` returns the greatest key that it has passed, and the next
`bch2_btree_node_iter_advance` undoes the step.

## Main definitions

* `IterNode.Reaches`: the iterators that calls lead to.

## Main results

* `IterNode.Reaches.between`: the invariant of a run.
* `IterNode.bch2BtreeNodeIterPrevAll_greatest`: what a step back returns, and that it is undone.
-/

namespace Subvol

open Lib

namespace IterNode

/-- The iterators over a node that `bch2_btree_node_iter_init` and
`bch2_btree_node_iter_init_from_start` make, and those that calls of `bch2_btree_node_iter_advance`
and `bch2_btree_node_iter_prev_all` lead to from there. -/
inductive Reaches (b : IterNode) (w : NodeWords) : BtreeNodeIter → Prop
  | init {search : Bpos} {iter : BtreeNodeIter} (h : b.iterInit w search = some iter) :
      Reaches b w iter
  | initFromStart {iter : BtreeNodeIter} (h : b.iterInitFromStart = some iter) : Reaches b w iter
  | advance {iter iter' : BtreeNodeIter} (run : Reaches b w iter)
      (h : b.iterAdvance iter = some iter') : Reaches b w iter'
  | prevAll {iter iter' : BtreeNodeIter} {k : Option ℕ} (run : Reaches b w iter)
      (h : b.iterPrevAll iter = some (k, iter')) : Reaches b w iter'

variable {b : IterNode} {w : NodeWords} {iter iter' : BtreeNodeIter} {all front back : List SetKey}

/-- A step forward keeps an iterator between two keys. -/
theorem Between.of_iterAdvance (h : b.Between front back iter) (hb : b.Wf)
    (hadvance : b.iterAdvance iter = some iter') :
    ∃ front' back', front ++ back = front' ++ back' ∧ b.Between front' back' iter' := by
  cases back with
  | nil =>
    obtain rfl := h.nil hb
    cases hadvance
  | cons y back =>
    obtain ⟨-, iter'', hnext, hbetween⟩ := h.iterAdvance hb
    obtain rfl := Option.some.inj (hnext.symm.trans hadvance)
    exact ⟨front ++ [y], back, List.append_cons .., hbetween⟩

/-- So does a step back. -/
theorem Between.of_iterPrevAll (h : b.Between front back iter) (hb : b.Wf) {k : Option ℕ}
    (hprev : b.iterPrevAll iter = some (k, iter')) :
    ∃ front' back', front ++ back = front' ++ back' ∧ b.Between front' back' iter' := by
  rcases List.eq_nil_or_concat' front with rfl | ⟨front, y, rfl⟩
  · obtain ⟨-, rfl⟩ := Prod.mk.inj (Option.some.inj ((h.iterPrevAll_nil hb).symm.trans hprev))
    exact ⟨[], back, rfl, h⟩
  · obtain ⟨iter'', hnext, hbetween⟩ := h.iterPrevAll hb
    obtain ⟨-, rfl⟩ := Prod.mk.inj (Option.some.inj (hnext.symm.trans hprev))
    exact ⟨front, y :: back, (List.append_cons ..).symm, hbetween⟩

/-- Along a run an iterator is always between two keys. -/
theorem Reaches.between (run : b.Reaches w iter) (h : b.Searchable w) (hall : all.Perm b.nodeKeys)
    (hsorted : all.Pairwise fun x y => x.rank < y.rank) :
    ∃ front back, all = front ++ back ∧ b.Between front back iter := by
  induction run with
  | @init search iter hinit =>
    have hrange : w.minKey ≤ search ∧ search ≤ w.maxKey := by
      by_contra hnot
      rw [IterNode.iterInit, if_neg hnot] at hinit
      cases hinit
    obtain ⟨front, back, iter', hsame, hsplit, hbetween, -⟩ :=
      h.iterInit hrange.1 hrange.2 hall hsorted
    obtain rfl := Option.some.inj (hsame.symm.trans hinit)
    exact ⟨front, back, hsplit, hbetween⟩
  | initFromStart hinit =>
    obtain ⟨iter', hsame, hcut⟩ := h.wf.iterInitFromStart
    obtain rfl := Option.some.inj (hsame.symm.trans hinit)
    obtain ⟨front, hsplit, hbetween⟩ := hcut.between isCut_true hall hsorted
    exact ⟨front, _, hsplit, hbetween⟩
  | advance run hadvance ih =>
    obtain ⟨front, back, rfl, hbetween⟩ := ih
    exact hbetween.of_iterAdvance h.wf hadvance
  | prevAll run hprev ih =>
    obtain ⟨front, back, rfl, hbetween⟩ := ih
    exact hbetween.of_iterPrevAll h.wf hprev

/-- However an iterator has been moved, it has passed some keys and returns the others, which come
behind. A step back returns the greatest of the keys that were passed, if there is one, and a step
forward then undoes it. -/
theorem bch2BtreeNodeIterPrevAll_greatest (b : IterNode) (w : NodeWords) (h : b.Searchable w)
    (iter : BtreeNodeIter) (run : b.Reaches w iter) :
    ∃ passed ks : List SetKey, (passed ++ ks).Perm b.nodeKeys ∧
      ((passed ++ ks).Pairwise fun x y => 0 < bkeyIterCmp y.ranked x.ranked) ∧
      b.Yields iter (ks.map SetKey.off) ∧
      (passed = [] ∧ b.iterPrevAll iter = some (none, iter) ∨
        ∃ y ∈ passed, (∀ x ∈ passed, bkeyIterCmp x.ranked y.ranked ≤ 0) ∧
          ∃ iter' iter'', b.iterPrevAll iter = some (some y.off, iter') ∧
            b.Yields iter' ((y :: ks).map SetKey.off) ∧
            b.iterAdvance iter' = some iter'' ∧ b.Yields iter'' (ks.map SetKey.off)) := by
  obtain ⟨all, hall, hsorted⟩ := h.wf.exists_ordered
  obtain ⟨front, back, rfl, hbetween⟩ := run.between h hall hsorted
  refine ⟨front, back, hall, hsorted.imp fun hlt => (SetKey.bkeyIterCmp_pos_iff _ _).mpr hlt,
    hbetween.yields h.wf, ?_⟩
  rcases List.eq_nil_or_concat' front with rfl | ⟨front, y, rfl⟩
  · exact Or.inl ⟨rfl, hbetween.iterPrevAll_nil h.wf⟩
  · obtain ⟨iter', hprev, hback⟩ := hbetween.iterPrevAll h.wf
    obtain ⟨-, iter'', hadvance, hagain⟩ := hback.iterAdvance h.wf
    refine Or.inr ⟨y, by simp, fun x hx => (bkeyIterCmp_le_iff x y).mpr ?_, iter', iter'', hprev,
      hback.yields h.wf, hadvance, hagain.yields h.wf⟩
    rcases List.mem_append.mp hx with hx | hx
    · exact ((List.pairwise_append.mp (List.pairwise_append.mp hsorted).1).2.2 x hx y
        (List.mem_singleton_self y)).le
    · rw [List.mem_singleton.mp hx]

end IterNode

/-- A step back from the start at a position between the keys of three sets. -/
theorem bch2BtreeNodeIterPrevAll_greatest_three :
    ∃ aux iter, threeNode.buildRoAuxTree mixedSet (List.replicate 8 ⟨0, 0, 0⟩) = some aux ∧
      (threeSets aux).iterInit threeNode ⟨101, 265, 5⟩ = some iter ∧
      ∃ passed ks : List SetKey, (passed ++ ks).Perm (threeSets aux).nodeKeys ∧
        ((passed ++ ks).Pairwise fun x y => 0 < bkeyIterCmp y.ranked x.ranked) ∧
        (threeSets aux).Yields iter (ks.map SetKey.off) ∧
        (passed = [] ∧ (threeSets aux).iterPrevAll iter = some (none, iter) ∨
          ∃ y ∈ passed, (∀ x ∈ passed, bkeyIterCmp x.ranked y.ranked ≤ 0) ∧
            ∃ iter' iter'', (threeSets aux).iterPrevAll iter = some (some y.off, iter') ∧
              (threeSets aux).Yields iter' ((y :: ks).map SetKey.off) ∧
              (threeSets aux).iterAdvance iter' = some iter'' ∧
              (threeSets aux).Yields iter'' (ks.map SetKey.off)) := by
  obtain ⟨aux, hbuild, hsearchable⟩ := threeSets_searchable
  obtain ⟨all, hall, hsorted⟩ := hsearchable.wf.exists_ordered
  obtain ⟨-, -, iter, hinit, -⟩ := hsearchable.iterInit
    (by decide : threeNode.minKey ≤ ⟨101, 265, 5⟩) (by decide) hall hsorted
  exact ⟨aux, iter, hbuild, hinit, IterNode.bch2BtreeNodeIterPrevAll_greatest (threeSets aux)
    threeNode hsearchable iter (.init hinit)⟩

end Subvol

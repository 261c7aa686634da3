import Mathlib.Data.List.TakeWhile
import Subvol.Iter.Pos
import Subvol.Lib.SearchTree
import Subvol.Btree.NodeShape
import Subvol.Btree.Io

/-!
# Trees as iterators see them

Model of the way of an iterator down to a leaf, `bch2_btree_path_traverse_one`, and of the iterator
over the keys of a leaf, `node_iter.rs`. An interior node is the list of its live children, which
are taken to be in memory; a leaf is the list of the keys of its sets in the order in which the
iterator of the node merges them.

## Main definitions

* `LeafNode`, `BtreeNode.leaf`, `nodeIterInit`.
* `Btree`, `Btree.keys`, `bch2BtreePathTraverseOne`.
* `LeafNode.Ok`, `Btree.Valid`.

## Main results

* `NodeShape.leaf_ok`: the leaf of a node of valid shape.
* `Btree.Valid.traverse`: the leaf found for a position, and where the other keys of the tree lie.
-/

namespace Subvol

open Lib

/-! ### Leaves -/

/-- A leaf with its keys in the order of the iterator of the node. -/
structure LeafNode where
  minKey : Bpos
  maxKey : Bpos
  format : BkeyFormat
  keys : List Bkey

/-- The leaf that a node is: its sets merged by `bkey_iter_cmp`, which orders keys by position, then
deleted keys first, then by address. -/
def BtreeNode.leaf (b : BtreeNode) : LeafNode where
  minKey := b.header.minKey
  maxKey := b.header.maxKey
  format := b.header.format
  keys := (merge keepUnwrittenWhiteoutsCmp (sortIterRuns 0 (b.sets.map Bset.keys))).map
    fun x => x.2.k

/-- The result `BKEY_PACK_POS_FAIL` of `bch2_bkey_pack_pos_lossy`: the position lies before
everything that the format can pack. -/
def packPosFails (f : BkeyFormat) (p : Bpos) : Bool :=
  let field (i : ℕ) : ℕ := (f.fields[i]?.map Prod.snd).getD 0
  match if p.snapshot.val < field 2 then bposNosnapPredecessor p else some p with
  | none => true
  | some q =>
    if q.offset.val < field 1 then decide (q.inode.val = 0 ∨ q.inode.val - 1 < field 0)
    else decide (q.inode.val < field 0)

/-- `bch2_btree_node_iter_init`: the keys from a position on; `none` is a failed assertion. If the
position cannot be packed, the iterator is walked there from the start of the node and stops at a
live key. -/
def LeafNode.nodeIterInit (l : LeafNode) (search : Bpos) : Option (List Bkey) :=
  if search < l.minKey ∨ l.maxKey < search then none
  else if packPosFails l.format search then
    some (l.keys.dropWhile fun k => k.deleted || k.p < search)
  else some (l.keys.dropWhile fun k => k.p < search || (k.p = search && k.deleted))

/-- A leaf over a range: its keys lie in it and are in order, and of the keys of one position all
but the last are deleted. -/
structure LeafNode.Ok (lo hi : Bpos) (l : LeafNode) : Prop where
  minKey : l.minKey = lo
  maxKey : l.maxKey = hi
  mem : ∀ k ∈ l.keys, lo ≤ k.p ∧ k.p ≤ hi
  sorted : l.keys.Pairwise fun k k' => k.p < k'.p ∨ k.p = k'.p ∧ k.deleted = true

section Leaf

variable {b : BtreeNode}

theorem leaf_perm (b : BtreeNode) :
    (merge keepUnwrittenWhiteoutsCmp (sortIterRuns 0 (b.sets.map Bset.keys))).Perm
      (rankedKeys 0 (b.sets.map Bset.keys)) := by
  rw [← sortIterRuns_elems]
  exact merge_perm _

theorem mem_leaf_keys {k : Bkey} : k ∈ b.leaf.keys ↔ ∃ s ∈ b.sets, ∃ x ∈ s.keys, x.k = k := by
  simp only [BtreeNode.leaf, List.mem_map, (leaf_perm b).mem_iff]
  constructor
  · rintro ⟨⟨i, x⟩, hx, rfl⟩
    obtain ⟨keys, hkeys, hxk⟩ := mem_rankedKeys_snd.mp ⟨i, hx⟩
    obtain ⟨s, hs, rfl⟩ := List.mem_map.mp hkeys
    exact ⟨s, hs, x, hxk, rfl⟩
  · rintro ⟨s, hs, x, hx, rfl⟩
    obtain ⟨i, hi⟩ := mem_rankedKeys_snd.mpr ⟨s.keys, List.mem_map_of_mem hs, hx⟩
    exact ⟨(i, x), hi, rfl⟩

/-- The merged keys are in order, and only the last one of a position may be live. -/
theorem NodeShape.leaf_sorted (h : NodeShape b) :
    b.leaf.keys.Pairwise fun k k' => k.p < k'.p ∨ k.p = k'.p ∧ k.deleted = true := by
  have hsets : ∀ keys ∈ b.sets.map Bset.keys, PosSorted keys := by
    intro keys hkeys
    obtain ⟨s, hs, rfl⟩ := List.mem_map.mp hkeys
    exact h.sorted s hs
  have hruns : RunsSorted keepUnwrittenWhiteoutsCmp (sortIterRuns 0 (b.sets.map Bset.keys)) :=
    runs_pairwise hsets fun _ _ _ hlt => le_of_lt (Prod.Lex.toLex_lt_toLex.mpr (.inl hlt))
  -- no two live keys share a position, wherever they are
  have hlive : (rankedKeys 0 (b.sets.map Bset.keys)).Pairwise fun x y =>
      (!x.2.deleted) = true → (!y.2.deleted) = true → x.2.pos ≠ y.2.pos := by
    have hnodup := h.nodup
    rw [livePositions, ← rankedKeys_map_snd 0, List.filter_map, List.map_map] at hnodup
    exact List.pairwise_filter.mp (List.pairwise_map.mp hnodup)
  have hmerged := (leaf_perm b).symm.pairwise hlive fun hxy hy hx => (hxy hx hy).symm
  refine List.pairwise_map.mpr (((merge_pairwise hruns).and hmerged).imp ?_)
  rintro x y ⟨hle, hne⟩
  rcases (keepUnwrittenWhiteoutsCmp_mono x y hle).lt_or_eq with hlt | heq
  · exact .inl hlt
  · refine .inr ⟨heq, ?_⟩
    rcases (keepUnwrittenWhiteoutsCmp_le_iff heq).mp hle with hdead | hsame
    · exact hdead.1
    · by_contra hx
      have hx' : x.2.deleted = false := by simpa [BkeyPacked.deleted] using hx
      have hy' : y.2.deleted = false := hsame.1 ▸ hx'
      exact hne (by simp [hx']) (by simp [hy']) heq

/-- The leaf of a node of valid shape. -/
theorem NodeShape.leaf_ok (h : NodeShape b) : b.leaf.Ok b.header.minKey b.header.maxKey where
  minKey := rfl
  maxKey := rfl
  mem := by
    intro k hk
    obtain ⟨s, hs, x, hx, rfl⟩ := mem_leaf_keys.mp hk
    exact ⟨(h.valid s hs x hx).min_le, (h.valid s hs x hx).le_max⟩
  sorted := h.leaf_sorted

/-- The live keys of a leaf are those of its node. -/
theorem NodeShape.mem_leaf_iff (h : NodeShape b) {k : Bkey} :
    (k ∈ b.leaf.keys ∧ k.deleted = false) ↔ b.liveMap k.p = some k := by
  rw [mem_leaf_keys, h.liveMap_iff]
  constructor
  · rintro ⟨⟨s, hs, x, hx, rfl⟩, hlive⟩
    exact ⟨_, x, ⟨s, hs, rfl, hx, hlive⟩, rfl, rfl⟩
  · rintro ⟨w, x, ⟨s, hs, -, hx, hlive⟩, rfl, -⟩
    exact ⟨⟨s, hs, x, hx, rfl⟩, hlive⟩

end Leaf

/-- The iterator of a leaf begins at the position: the keys left out lie before it or are deleted,
and it does not begin with a deleted key of the position itself. -/
theorem LeafNode.Ok.nodeIterInit {l : LeafNode} {lo hi p : Bpos} (h : l.Ok lo hi) (hlo : lo ≤ p)
    (hhi : p ≤ hi) :
    ∃ before rest, l.nodeIterInit p = some rest ∧ l.keys = before ++ rest ∧
      (∀ k ∈ before, k.p < p ∨ k.deleted = true) ∧ (∀ k ∈ rest, p ≤ k.p) ∧
      ∀ k, rest.head? = some k → k.deleted = true → p < k.p := by
  have hrange : ¬(p < l.minKey ∨ l.maxKey < p) := by
    rw [h.minKey, h.maxKey]
    exact not_or.mpr ⟨not_lt.mpr hlo, not_lt.mpr hhi⟩
  have hskip (q : Bkey → Bool) (hq : ∀ k, q k = true → k.p < p ∨ k.deleted = true)
      (hq' : ∀ k, q k = false → p ≤ k.p ∧ (k.deleted = true → p < k.p)) :
      ∃ before rest, some (l.keys.dropWhile q) = some rest ∧ l.keys = before ++ rest ∧
        (∀ k ∈ before, k.p < p ∨ k.deleted = true) ∧ (∀ k ∈ rest, p ≤ k.p) ∧
        ∀ k, rest.head? = some k → k.deleted = true → p < k.p := by
    refine ⟨l.keys.takeWhile q, _, rfl, List.takeWhile_append_dropWhile.symm,
      fun k hk => hq k (List.mem_takeWhile_imp hk), ?_, ?_⟩
    · have hsorted := h.sorted.sublist (List.dropWhile_sublist q)
      cases hd : l.keys.dropWhile q with
      | nil => simp
      | cons k₀ rest =>
        have hk₀ : q k₀ = false := by
          have := List.head?_dropWhile_not q l.keys
          rw [hd] at this
          simpa using this
        rw [hd] at hsorted
        intro k hk
        rcases List.mem_cons.mp hk with rfl | hk
        · exact (hq' k hk₀).1
        · rcases (List.rel_of_pairwise_cons hsorted hk) with hlt | heq
          · exact (hq' k₀ hk₀).1.trans hlt.le
          · exact heq.1 ▸ (hq' k₀ hk₀).1
    · intro k hk
      have := List.head?_dropWhile_not q l.keys
      rw [hk] at this
      exact (hq' k (by simpa using this)).2
  rw [LeafNode.nodeIterInit, if_neg hrange]
  split_ifs with hfail
  · refine hskip _ (fun k hk => ?_) (fun k hk => ?_)
    · rcases Bool.or_eq_true_iff.mp hk with hd | hlt
      · exact .inr hd
      · exact .inl (by simpa using hlt)
    · obtain ⟨hd, hlt⟩ := Bool.or_eq_false_iff.mp hk
      exact ⟨by simpa using hlt, fun hd' => by rw [hd] at hd'; cases hd'⟩
  · refine hskip _ (fun k hk => ?_) (fun k hk => ?_)
    · rcases Bool.or_eq_true_iff.mp hk with hlt | hd
      · exact .inl (by simpa using hlt)
      · exact .inr (Bool.and_eq_true_iff.mp hd).2
    · obtain ⟨hlt, hd⟩ := Bool.or_eq_false_iff.mp hk
      have hle : p ≤ k.p := by simpa using hlt
      refine ⟨hle, fun hd' => lt_of_le_of_ne hle fun heq => ?_⟩
      simp [heq, hd'] at hd

/-! ### Trees -/

/-- A tree of a depth over its leaves. -/
structure Btree where
  depth : ℕ
  root : SearchTree Bpos LeafNode depth

/-- The keys of all leaves in their order. -/
def Btree.keys (t : Btree) : List Bkey := SearchTree.keys LeafNode.keys t.depth t.root

/-- `bch2_btree_path_traverse_one` down to a leaf. In every node the first live child that does not
end before the position is taken; without one the result is `-2`, and `-3` if the child begins
behind the position. -/
def bch2BtreePathTraverseOne (t : Btree) (pos : Bpos) : Except ℤ LeafNode :=
  SearchTree.search (-2) (-3) t.depth t.root pos

/-- A tree of valid topology: the ranges of the children of a node tile its range, and the root has
all positions. -/
def Btree.Valid (t : Btree) : Prop := SearchTree.Valid LeafNode.Ok t.depth posMin sposMax t.root

namespace Btree

variable {t : Btree}

/-- All keys of a tree are in order, and of those of one position all but the last are deleted. -/
theorem Valid.sorted (h : t.Valid) :
    t.keys.Pairwise fun k k' => k.p < k'.p ∨ k.p = k'.p ∧ k.deleted = true :=
  SearchTree.Valid.pairwise (fun _ _ _ hl => hl.mem) (fun _ _ hlt => .inl hlt)
    (fun _ _ _ hl => hl.sorted) h

/-- The leaf of a position. -/
theorem Valid.traverse (h : t.Valid) (p : Bpos) :
    ∃ l lo hi front back, bch2BtreePathTraverseOne t p = .ok l ∧ l.Ok lo hi ∧ lo ≤ p ∧ p ≤ hi ∧
      t.keys = front ++ l.keys ++ back ∧ (∀ k ∈ front, k.p < lo) ∧ ∀ k ∈ back, hi < k.p := by
  obtain ⟨l, lo, hi, front, back, hsearch, hok, hlo, hhi, -, -, hkeys, hfront, hback⟩ :=
    SearchTree.Valid.search (fun _ _ _ hl => hl.mem) (-2 : ℤ) (-3) h
      (Bpos.posMin_le p) (Bpos.le_sposMax p)
  exact ⟨l, lo, hi, front, back, hsearch, hok, hlo, hhi, hkeys, hfront, hback⟩

end Btree

end Subvol

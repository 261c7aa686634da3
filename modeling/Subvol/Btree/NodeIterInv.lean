import Subvol.Btree.NodeIterBack

/-!
# What a node iterator denotes

The cursors of an iterator stand for runs of keys, the ends of the sets from them on, and the moves
of the iterator are those of a merge of these runs. An iterator at a cut of the keys of a node
returns exactly the keys behind the cut, in their order.

## Main definitions

* `SetKey`, `IterNode.nodeKeys`: the keys of a node with their offsets and the ends of their sets.
* `IterNode.Wf`: a node with sets apart from each other.
* `IterNode.IterOk`: cursors at keys of different sets, in the order of these keys.
* `IterNode.Yields`: the keys that calls of `bch2_btree_node_iter_next_all` return.
* `IterNode.AtCut`: every cursor at the first key of its set behind a cut.

## Main results

* `IterNode.Wf.iterSort`, `IterNode.Wf.iterAdvance`: what the moves do with the runs.
* `IterNode.Wf.yields_iff`: an iterator returns the merge of its runs.
* `IterNode.Wf.yields_of_atCut`, `IterNode.Wf.atCut_of_yields`: the iterators that return the keys
  behind a cut are those at the cut.
-/

namespace Subvol

open Lib

/-! ### Keys of a node -/

/-- A key of a node, with its offset and the end of its set. -/
structure SetKey where
  off : ℕ
  key : BkeyPacked
  stop : ℕ

namespace SetKey

/-- The key as the comparators take it. -/
def ranked (x : SetKey) : RankedKey := (x.off, x.key)

/-- A cursor at the key. -/
def cursor (x : SetKey) : BtreeNodeIterSet := ⟨x.off, x.stop⟩

/-- The rank by which `bkey_iter_cmp` goes. -/
def rank (x : SetKey) : Lex (Bpos × Lex (Bool × ℕ)) := keepUnwrittenWhiteoutsCmp x.ranked

theorem bkeyIterCmp_pos_iff (x y : SetKey) :
    0 < bkeyIterCmp x.ranked y.ranked ↔ y.rank < x.rank := cmpRank_keepWhiteoutsCmp _ _

theorem off_eq_of_rank {x y : SetKey} (h : x.rank = y.rank) : x.off = y.off :=
  (Prod.mk.inj (congrArg (fun r => (ofLex (ofLex r).2)) h)).2

end SetKey

/-- Keys laid out from an offset on, in a set with the given end. -/
def keysOn (stop base : ℕ) (keys : List BkeyPacked) : List SetKey :=
  (laid BkeyPacked.u64s base keys).map fun x => ⟨x.1, x.2, stop⟩

section KeysOn

variable {stop base : ℕ} {keys : List BkeyPacked} {x : SetKey}

@[simp] theorem keysOn_nil (stop base : ℕ) : keysOn stop base [] = [] := rfl

@[simp] theorem keysOn_cons (stop base : ℕ) (k : BkeyPacked) (keys : List BkeyPacked) :
    keysOn stop base (k :: keys) = ⟨base, k, stop⟩ :: keysOn stop (base + k.u64s) keys := rfl

theorem keysOn_append (stop base : ℕ) (p q : List BkeyPacked) :
    keysOn stop base (p ++ q) =
      keysOn stop base p ++ keysOn stop (base + total BkeyPacked.u64s p) q := by
  rw [keysOn, laid_append, List.map_append]
  rfl

theorem mem_keysOn : x ∈ keysOn stop base keys ↔
    x.stop = stop ∧ (x.off, x.key) ∈ laid BkeyPacked.u64s base keys := by
  obtain ⟨off, key, stop'⟩ := x
  simp [keysOn, and_comm, eq_comm]

theorem keysOn_pairwise (stop base : ℕ) (hpos : ∀ k ∈ keys, 0 < k.u64s) :
    (keysOn stop base keys).Pairwise fun x y => x.off < y.off :=
  List.pairwise_map.mpr (laid_pairwise hpos)

/-- A piece of keys that are laid out is laid out. -/
theorem keysOn_eq_append {A B : List SetKey} (h : keysOn stop base keys = A ++ B) :
    ∃ p q, keys = p ++ q ∧ A = keysOn stop base p ∧
      B = keysOn stop (base + total BkeyPacked.u64s p) q := by
  induction A generalizing base keys with
  | nil => exact ⟨[], keys, rfl, rfl, h.symm⟩
  | cons a A ih =>
    cases keys with
    | nil => cases h
    | cons k keys =>
      obtain ⟨rfl, htail⟩ := List.cons.inj h
      obtain ⟨p, q, rfl, rfl, rfl⟩ := ih htail
      exact ⟨k :: p, q, rfl, rfl, by rw [total_cons, Nat.add_assoc]⟩

end KeysOn

/-- The keys of a set. -/
def IterBset.nodeKeys (s : IterBset) : List SetKey :=
  keysOn s.set.endOffset s.set.firstOffset s.set.keys

theorem IterBset.mem_nodeKeys {s : IterBset} {x : SetKey} :
    x ∈ s.nodeKeys ↔ x.stop = s.set.endOffset ∧ x.ranked ∈ s.laidKeys := mem_keysOn

theorem IterBset.Wf.bounds {s : IterBset} (h : s.Wf) {x : SetKey} (hx : x ∈ s.nodeKeys) :
    s.set.firstOffset ≤ x.off ∧ x.off + x.key.u64s ≤ s.set.endOffset ∧ x.off < s.set.endOffset := by
  obtain ⟨-, hlaid⟩ := IterBset.mem_nodeKeys.mp hx
  have hbounds := mem_laid_bounds hlaid
  have hpos := h.u64s_pos _ (mem_of_mem_laid hlaid)
  simp only [SetKey.ranked] at hbounds hpos
  rw [RwBset.endOffset]
  omega

namespace IterNode

/-- The keys of a node. -/
def nodeKeys (b : IterNode) : List SetKey := b.sets.flatMap IterBset.nodeKeys

/-- A node: at most three sets, one behind the other, each in order and with a table that names its
keys. -/
structure Wf (b : IterNode) : Prop where
  sets : ∀ s ∈ b.sets, s.Wf
  nsets : b.sets.length ≤ maxBsets
  apart : b.sets.Pairwise fun s t => s.set.endOffset ≤ t.set.dataOffset

variable {b : IterNode}

theorem mem_nodeKeys {x : SetKey} : x ∈ b.nodeKeys ↔ ∃ s ∈ b.sets, x ∈ s.nodeKeys :=
  List.mem_flatMap

theorem Wf.off_pairwise (h : b.Wf) : b.nodeKeys.Pairwise fun x y => x.off < y.off := by
  refine List.pairwise_flatMap.mpr ⟨fun s hs => keysOn_pairwise _ _ (h.sets s hs).u64s_pos, ?_⟩
  refine h.apart.imp_of_mem ?_
  intro s t hs ht hle x hx y hy
  have hxb := (h.sets s hs).bounds hx
  have hyb := (h.sets t ht).bounds hy
  rw [RwBset.firstOffset] at hyb
  omega

theorem Wf.nodup (h : b.Wf) : b.nodeKeys.Nodup :=
  h.off_pairwise.imp fun hlt heq => absurd (congrArg SetKey.off heq) hlt.ne

theorem Wf.eq_of_off (h : b.Wf) {x y : SetKey} (hx : x ∈ b.nodeKeys) (hy : y ∈ b.nodeKeys)
    (hoff : x.off = y.off) : x = y :=
  List.inj_on_of_nodup_map (List.pairwise_map.mpr (h.off_pairwise.imp fun hlt => hlt.ne)) hx hy hoff

/-- The ends of the sets differ. -/
theorem Wf.stops (h : b.Wf) : (b.sets.map fun s => s.set.endOffset).Nodup := by
  refine List.pairwise_map.mpr (h.apart.imp fun {s t} hle => ?_)
  have : t.set.firstOffset ≤ t.set.endOffset := Nat.le_add_right ..
  rw [RwBset.firstOffset] at this
  omega

theorem Wf.keyAt (h : b.Wf) {x : SetKey} (hx : x ∈ b.nodeKeys) : b.keyAt x.off = some x.key := by
  obtain ⟨s, hs, hxs⟩ := mem_nodeKeys.mp hx
  obtain ⟨-, hlaid⟩ := IterBset.mem_nodeKeys.mp hxs
  obtain ⟨p, q, hkeys, hoff⟩ := mem_laid_iff.mp hlaid
  have hfound : (s.set.keysAt x.off).bind List.head? = some x.key := by
    rw [show x.off = _ from hoff, (h.sets s hs).keysAt hkeys]
    rfl
  obtain ⟨k, hk⟩ : ∃ k, b.keyAt x.off = some k := by
    rw [← Option.isSome_iff_exists, IterNode.keyAt, List.findSome?_isSome_iff]
    exact ⟨s, hs, by rw [hfound]; rfl⟩
  -- Whichever set is asked first, the key it has there is one of the node.
  obtain ⟨t, ht, hkt⟩ := List.exists_of_findSome?_eq_some hk
  obtain ⟨ks, hks, hhead⟩ := Option.bind_eq_some_iff.mp hkt
  obtain ⟨pre, hpre, hoff'⟩ := (itemsFrom_eq_some_iff (h.sets t ht).u64s_pos).mp hks
  obtain ⟨rest, rfl⟩ : ∃ rest, ks = k :: rest := List.head?_eq_some_iff.mp hhead
  have hy : (⟨x.off, k, t.set.endOffset⟩ : SetKey) ∈ b.nodeKeys :=
    mem_nodeKeys.mpr ⟨t, ht, IterBset.mem_nodeKeys.mpr
      ⟨rfl, mem_laid_iff.mpr ⟨pre, rest, hpre, hoff'⟩⟩⟩
  rw [hk, h.eq_of_off hx hy rfl]

theorem Wf.set_eq (h : b.Wf) {s t : IterBset} (hs : s ∈ b.sets) (ht : t ∈ b.sets)
    (hstop : s.set.endOffset = t.set.endOffset) : s = t :=
  List.inj_on_of_nodup_map h.stops hs ht hstop

/-! ### Cursors and runs -/

/-- The cursors at the first keys of runs. -/
def cursors (runs : List (MergeRun SetKey)) : BtreeNodeIter := runs.map fun r => r.1.cursor

@[simp] theorem cursors_nil : cursors [] = [] := rfl

@[simp] theorem cursors_cons (r : MergeRun SetKey) (runs : List (MergeRun SetKey)) :
    cursors (r :: runs) = ⟨r.1.off, r.1.stop⟩ :: cursors runs := rfl

theorem cursors_append (front back : List (MergeRun SetKey)) :
    cursors (front ++ back) = cursors front ++ cursors back := List.map_append

@[simp] theorem length_cursors (runs : List (MergeRun SetKey)) :
    (cursors runs).length = runs.length := List.length_map _

/-- Runs that are ends of different sets of a node. -/
structure RunsOf (b : IterNode) (runs : List (MergeRun SetKey)) : Prop where
  suffix : ∀ r ∈ runs, ∃ s ∈ b.sets, r.elems <:+ s.nodeKeys
  stops : (runs.map fun r => r.1.stop).Nodup

namespace RunsOf

variable {runs runs' : List (MergeRun SetKey)} {r : MergeRun SetKey}

theorem elems_mem (h : b.RunsOf runs) (hr : r ∈ runs) {x : SetKey} (hx : x ∈ r.elems) :
    x ∈ b.nodeKeys := by
  obtain ⟨s, hs, hsuffix⟩ := h.suffix r hr
  exact mem_nodeKeys.mpr ⟨s, hs, hsuffix.subset hx⟩

theorem head_mem (h : b.RunsOf runs) (hr : r ∈ runs) : r.1 ∈ b.nodeKeys :=
  h.elems_mem hr List.mem_cons_self

theorem perm (h : b.RunsOf runs) (hp : runs'.Perm runs) : b.RunsOf runs' where
  suffix r hr := h.suffix r (hp.mem_iff.mp hr)
  stops := (hp.map _).nodup_iff.mpr h.stops

theorem length_le (hb : b.Wf) (h : b.RunsOf runs) : runs.length ≤ maxBsets := by
  have hsub : (runs.map fun r => r.1.stop) ⊆ b.sets.map fun s => s.set.endOffset := by
    intro stop hstop
    obtain ⟨r, hr, rfl⟩ := List.mem_map.mp hstop
    obtain ⟨s, hs, hsuffix⟩ := h.suffix r hr
    have hmem : r.1 ∈ s.nodeKeys := hsuffix.subset List.mem_cons_self
    exact List.mem_map.mpr ⟨s, hs, (IterBset.mem_nodeKeys.mp hmem).1.symm⟩
  have hle := (h.stops.subperm hsub).length_le
  rw [List.length_map, List.length_map] at hle
  exact hle.trans hb.nsets

/-- The key behind the first one of a run. -/
theorem next (h : b.RunsOf runs) {x y : SetKey} {l : List SetKey} (hr : (x, y :: l) ∈ runs) :
    y.off = x.off + x.key.u64s ∧ y.stop = x.stop := by
  obtain ⟨s, -, pre, hpre⟩ := h.suffix _ hr
  obtain ⟨p, q, -, -, hq⟩ := keysOn_eq_append hpre.symm
  cases q with
  | nil => cases hq
  | cons k q =>
    obtain ⟨rfl, hq⟩ := List.cons.inj hq
    cases q with
    | nil => cases hq
    | cons k' q =>
      obtain ⟨rfl, -⟩ := List.cons.inj hq
      exact ⟨rfl, rfl⟩

/-- A run of one key is the end of its set. -/
theorem last (h : b.RunsOf runs) {x : SetKey} (hr : (x, []) ∈ runs) :
    x.off + x.key.u64s = x.stop := by
  obtain ⟨s, -, pre, hpre⟩ := h.suffix _ hr
  obtain ⟨p, q, hkeys, -, hq⟩ := keysOn_eq_append hpre.symm
  cases q with
  | nil => cases hq
  | cons k q =>
    obtain ⟨rfl, hq⟩ := List.cons.inj hq
    cases q with
    | nil =>
      rw [RwBset.endOffset, hkeys]
      simp [Nat.add_assoc]
    | cons k' q => cases hq

theorem tail (h : b.RunsOf (r :: runs)) : b.RunsOf runs where
  suffix r' hr' := h.suffix r' (List.mem_cons_of_mem r hr')
  stops := (List.nodup_cons.mp h.stops).2

theorem advance (h : b.RunsOf runs) : b.RunsOf (Lib.advance SetKey.rank runs) := by
  match runs with
  | [] => exact h
  | (_, []) :: rest => exact h.tail
  | (x, y :: l) :: rest =>
    have hnext := (h.next List.mem_cons_self).2
    refine RunsOf.perm ⟨?_, ?_⟩ (sift_perm SetKey.rank (y, l) rest)
    · intro r hr
      rcases List.mem_cons.mp hr with rfl | hr
      · obtain ⟨s, hs, hsuffix⟩ := h.suffix _ List.mem_cons_self
        exact ⟨s, hs, (List.suffix_cons x (y :: l)).trans hsuffix⟩
      · exact h.tail.suffix r hr
    · have hstops := h.stops
      rw [List.map_cons] at hstops ⊢
      rwa [hnext]

end RunsOf

/-! ### Moves of the iterator -/

/-- Two neighbours are put in order. -/
theorem Wf.sortTwo (h : b.Wf) {x y : MergeRun SetKey} (A B : List (MergeRun SetKey))
    (hx : x.1 ∈ b.nodeKeys) (hy : y.1 ∈ b.nodeKeys) :
    b.sortTwo A.length (cursors (A ++ x :: y :: B)) =
      some (decide (y.1.rank < x.1.rank),
        cursors (if y.1.rank < x.1.rank then A ++ y :: x :: B else A ++ x :: y :: B)) := by
  have hcmp := SetKey.bkeyIterCmp_pos_iff x.1 y.1
  have hlen : (A.map fun r => r.1.cursor).length = A.length := List.length_map _
  simp only [cursors, List.map_append, List.map_cons]
  rw [IterNode.sortTwo, ← hlen, List.getElem?_append_right le_rfl,
    List.getElem?_append_right (Nat.le_add_right _ _)]
  simp only [Nat.sub_self, Nat.add_sub_cancel_left, List.getElem?_cons_zero, Option.bind_eq_bind,
    List.getElem?_cons_succ, Option.bind_some, h.keyAt hx, h.keyAt hy, SetKey.cursor, gt_iff_lt]
  simp only [SetKey.ranked] at hcmp
  by_cases hlt : y.1.rank < x.1.rank
  · rw [if_pos (hcmp.mpr hlt), if_pos hlt, List.set_append_right _ _ le_rfl,
      List.set_append_right _ _ (Nat.le_add_right _ _)]
    simp [hlt]
  · rw [if_neg (mt hcmp.mp hlt), if_neg hlt]
    simp [hlt]

theorem headsSorted_pair {x y : MergeRun SetKey} (h : x.1.rank ≤ y.1.rank) :
    HeadsSorted SetKey.rank [x, y] := by
  simpa [HeadsSorted] using h

theorem headsSorted_triple {x y z : MergeRun SetKey} (hxy : x.1.rank ≤ y.1.rank)
    (hyz : y.1.rank ≤ z.1.rank) : HeadsSorted SetKey.rank [x, y, z] := by
  simpa [HeadsSorted, hxy, hyz] using hxy.trans hyz

/-- The first two of at most three cursors are put in order. -/
theorem Wf.sortTwo_front (h : b.Wf) {x y : MergeRun SetKey} (B : List (MergeRun SetKey))
    (hx : x.1 ∈ b.nodeKeys) (hy : y.1 ∈ b.nodeKeys) :
    ∃ p q, (p :: q :: B).Perm (x :: y :: B) ∧ p.1.rank ≤ q.1.rank ∧
      b.sortTwo 0 (cursors (x :: y :: B)) =
        some (decide (y.1.rank < x.1.rank), cursors (p :: q :: B)) := by
  have hswap := h.sortTwo [] B hx hy
  rw [List.length_nil, List.nil_append, List.nil_append] at hswap
  by_cases hlt : y.1.rank < x.1.rank
  · exact ⟨y, x, List.Perm.swap x y B, hlt.le, by rw [hswap, if_pos hlt]⟩
  · exact ⟨x, y, .rfl, not_lt.mp hlt, by rw [hswap, if_neg hlt]⟩

/-- The greatest of three cursors comes to the end. -/
theorem Wf.sortThree (h : b.Wf) {x y z : MergeRun SetKey} (hx : x.1 ∈ b.nodeKeys)
    (hy : y.1 ∈ b.nodeKeys) (hz : z.1 ∈ b.nodeKeys) :
    ∃ p q r, [p, q, r].Perm [x, y, z] ∧ p.1.rank ≤ r.1.rank ∧ q.1.rank ≤ r.1.rank ∧
      b.sortThree (cursors [x, y, z]) = some (cursors [p, q, r]) := by
  obtain ⟨p, q, hperm, hpq, hfront⟩ := h.sortTwo_front [z] hx hy
  have hmem (w : MergeRun SetKey) (hw : w ∈ [p, q, z]) : w.1 ∈ b.nodeKeys := by
    have hw := hperm.mem_iff.mp hw
    simp only [List.mem_cons, List.not_mem_nil, or_false] at hw
    rcases hw with rfl | rfl | rfl
    exacts [hx, hy, hz]
  have hback := h.sortTwo [p] [] (hmem q (by simp)) (hmem z (by simp))
  rw [List.length_singleton, List.singleton_append] at hback
  have hthree : b.sortThree (cursors [x, y, z]) =
      some (cursors (if z.1.rank < q.1.rank then [p, z, q] else [p, q, z])) := by
    rw [IterNode.sortThree, hfront]
    simp only [Option.bind_eq_bind, Option.bind_some, hback]
    rfl
  rw [hthree]
  by_cases hlt : z.1.rank < q.1.rank
  · rw [if_pos hlt]
    exact ⟨p, z, q, ((List.Perm.swap q z []).cons p).trans hperm, hpq, hlt.le, rfl⟩
  · rw [if_neg hlt]
    exact ⟨p, q, z, hperm, hpq.trans (not_lt.mp hlt), not_lt.mp hlt, rfl⟩

/-- `bch2_btree_node_iter_sort` puts the cursors in order. -/
theorem Wf.iterSort (h : b.Wf) {runs : List (MergeRun SetKey)} (hruns : b.RunsOf runs) :
    ∃ runs' : List (MergeRun SetKey), runs'.Perm runs ∧ HeadsSorted SetKey.rank runs' ∧
      b.iterSort (cursors runs) = some (cursors runs') := by
  have hlen := hruns.length_le h
  match runs with
  | [] => exact ⟨[], .rfl, .nil, rfl⟩
  | [x] => exact ⟨[x], .rfl, List.pairwise_singleton _ _, rfl⟩
  | [x, y] =>
    obtain ⟨p, q, hperm, hpq, hsort⟩ := h.sortTwo_front [] (hruns.head_mem (r := x) (by simp))
      (hruns.head_mem (r := y) (by simp))
    refine ⟨[p, q], hperm, headsSorted_pair hpq, ?_⟩
    change (b.sortTwo 0 (cursors [x, y])).map Prod.snd = _
    rw [hsort, Option.map_some]
  | [x, y, z] =>
    obtain ⟨p, q, r, hperm, hpr, hqr, hthree⟩ := h.sortThree (hruns.head_mem (r := x) (by simp))
      (hruns.head_mem (r := y) (by simp)) (hruns.head_mem (r := z) (by simp))
    have hruns' := hruns.perm hperm
    obtain ⟨p', q', hperm', hpq, hsort⟩ := h.sortTwo_front [r]
      (hruns'.head_mem (r := p) (by simp)) (hruns'.head_mem (r := q) (by simp))
    refine ⟨[p', q', r], hperm'.trans hperm, headsSorted_triple hpq ?_, ?_⟩
    · have hpair : [p', q'].Perm [p, q] :=
        (List.perm_append_right_iff [r]).mp
          (show ([p', q'] ++ [r]).Perm ([p, q] ++ [r]) from hperm')
      have hmem : q' ∈ [p, q] := hpair.mem_iff.mp (by simp)
      simp only [List.mem_cons, List.not_mem_nil, or_false] at hmem
      rcases hmem with rfl | rfl
      exacts [hpr, hqr]
    · change ((b.sortThree (cursors [x, y, z])).bind fun iter =>
        (if 1 < iter.length then (b.sortTwo 0 iter).map Prod.snd else some iter)) = _
      rw [hthree, Option.bind_some]
      change (b.sortTwo 0 (cursors [p, q, r])).map Prod.snd = _
      rw [hsort, Option.map_some]
  | x :: y :: z :: w :: rest =>
    simp only [maxBsets, List.length_cons] at hlen
    omega

/-- `bch2_btree_node_iter_advance` takes the first key. -/
theorem Wf.iterAdvance (h : b.Wf) {r : MergeRun SetKey} {rest : List (MergeRun SetKey)}
    (hruns : b.RunsOf (r :: rest)) :
    b.iterAdvance (cursors (r :: rest)) =
      some (cursors (Lib.advance SetKey.rank (r :: rest))) := by
  have hhead := hruns.head_mem (r := r) List.mem_cons_self
  obtain ⟨x, l⟩ := r
  rw [cursors_cons, IterNode.iterAdvance, h.keyAt hhead, Option.bind_eq_bind, Option.bind_some]
  cases l with
  | nil =>
    simp only [hruns.last List.mem_cons_self, lt_irrefl, if_false, if_true]
    rfl
  | cons y l =>
    obtain ⟨hoff, hstop⟩ := hruns.next List.mem_cons_self
    have hy : y ∈ b.nodeKeys :=
      hruns.elems_mem (r := (x, y :: l)) List.mem_cons_self (by simp [MergeRun.elems])
    obtain ⟨s, hs, hys⟩ := mem_nodeKeys.mp hy
    have hlt := ((h.sets s hs).bounds hys).2.2
    rw [← (IterBset.mem_nodeKeys.mp hys).1, hstop, hoff] at hlt
    simp only [hlt.not_gt, hlt.ne, if_false]
    rw [← hoff, ← hstop, ← cursors_cons (y, l) rest]
    have hlen := hruns.length_le h
    rcases rest with - | ⟨z, - | ⟨w, - | ⟨v, rest⟩⟩⟩
    · rfl
    · have hz := hruns.head_mem (r := z) (by simp)
      have hsort := h.sortTwo (x := (y, l)) [] [] hy hz
      simp only [List.nil_append, List.length_nil] at hsort
      rw [hsort]
      by_cases hzy : z.1.rank < y.rank
      · simp [hzy, Lib.advance, sift]
      · simp [hzy, Lib.advance, sift]
    · have hz := hruns.head_mem (r := z) (by simp)
      have hw := hruns.head_mem (r := w) (by simp)
      have hsort := h.sortTwo (x := (y, l)) [] [w] hy hz
      have hback := h.sortTwo (x := (y, l)) [z] [] hy hw
      simp only [List.nil_append, List.length_nil, List.length_singleton,
        List.singleton_append] at hsort hback
      rw [hsort]
      by_cases hzy : z.1.rank < y.rank
      · -- The cursor goes behind the second one, and maybe behind the third one.
        rw [if_pos hzy, decide_eq_true hzy]
        change (b.sortTwo 1 (cursors [z, (y, l), w])).map Prod.snd = _
        rw [hback, Option.map_some]
        by_cases hwy : w.1.rank < y.rank <;> simp [hzy, hwy, Lib.advance, sift]
      · simp [hzy, Lib.advance, sift]
    · simp only [maxBsets, List.length_cons] at hlen
      omega

/-! ### The keys that an iterator returns -/

/-- The keys that calls of `bch2_btree_node_iter_next_all` return up to the null, as offsets. -/
inductive Yields (b : IterNode) : BtreeNodeIter → List ℕ → Prop
  | done {iter iter' : BtreeNodeIter} (h : b.iterNextAll iter = some (none, iter')) :
      Yields b iter []
  | next {iter iter' : BtreeNodeIter} {k : ℕ} {ks : List ℕ}
      (h : b.iterNextAll iter = some (some k, iter')) (rest : Yields b iter' ks) :
      Yields b iter (k :: ks)

theorem Wf.iterNextAll (h : b.Wf) {r : MergeRun SetKey} {rest : List (MergeRun SetKey)}
    (hruns : b.RunsOf (r :: rest)) :
    b.iterNextAll (cursors (r :: rest)) =
      some (some r.1.off, cursors (Lib.advance SetKey.rank (r :: rest))) := by
  rw [IterNode.iterNextAll, h.iterAdvance hruns]
  rfl

theorem yields_nil {ks : List ℕ} : b.Yields [] ks ↔ ks = [] := by
  constructor
  · intro h
    cases h with
    | done => rfl
    | next h => cases h
  · rintro rfl
    exact .done rfl

/-- What an iterator returns is the merge of its runs. -/
theorem Wf.yields_iff (h : b.Wf) {runs : List (MergeRun SetKey)} (hruns : b.RunsOf runs)
    {n : ℕ} (hn : runsSize runs ≤ n) {ks : List ℕ} :
    b.Yields (cursors runs) ks ↔ ks = (drain SetKey.rank n runs).map SetKey.off := by
  induction n generalizing runs ks with
  | zero =>
    cases runs with
    | nil => exact yields_nil
    | cons r rest =>
      rw [runsSize_cons] at hn
      omega
  | succ n ih =>
    cases runs with
    | nil => exact yields_nil
    | cons r rest =>
      have hsize := runsSize_advance SetKey.rank r rest
      have hstep := h.iterNextAll hruns
      have hih (ks' : List ℕ) : b.Yields (cursors (Lib.advance SetKey.rank (r :: rest))) ks' ↔
          ks' = (drain SetKey.rank n (Lib.advance SetKey.rank (r :: rest))).map SetKey.off :=
        ih hruns.advance (by omega)
      rw [drain, List.map_cons]
      constructor
      · intro hy
        cases hy with
        | done hnext => cases hstep.symm.trans hnext
        | next hnext hrest =>
          obtain ⟨hk, rfl⟩ := Prod.mk.inj (Option.some.inj (hstep.symm.trans hnext))
          rw [← (hih _).mp hrest, Option.some.inj hk]
      · rintro rfl
        exact .next hstep ((hih _).mpr rfl)

/-- Every cursor is at a key of a set, no two of them in one set, in the order of the keys. -/
def IterOk (b : IterNode) (iter : BtreeNodeIter) : Prop :=
  ∃ ks : List SetKey, iter = ks.map SetKey.cursor ∧ (∀ k ∈ ks, k ∈ b.nodeKeys) ∧
    (ks.map SetKey.stop).Nodup ∧ ks.Pairwise fun x y => bkeyIterCmp x.ranked y.ranked ≤ 0

theorem bkeyIterCmp_le_iff (x y : SetKey) :
    bkeyIterCmp x.ranked y.ranked ≤ 0 ↔ x.rank ≤ y.rank := by
  rw [← not_lt, SetKey.bkeyIterCmp_pos_iff, not_lt]

theorem RunsOf.iterOk {runs : List (MergeRun SetKey)} (h : b.RunsOf runs)
    (hsorted : HeadsSorted SetKey.rank runs) : b.IterOk (cursors runs) := by
  refine ⟨runs.map Prod.fst, by simp [cursors], ?_, ?_, ?_⟩
  · intro k hk
    obtain ⟨r, hr, rfl⟩ := List.mem_map.mp hk
    exact h.head_mem hr
  · rw [List.map_map]
    exact h.stops
  · exact List.pairwise_map.mpr (hsorted.imp fun hle => (bkeyIterCmp_le_iff _ _).mpr hle)

/-- The runs that begin at keys of a node. -/
theorem exists_runs (ks : List SetKey) (hks : ∀ k ∈ ks, k ∈ b.nodeKeys) :
    ∃ runs : List (MergeRun SetKey), runs.map Prod.fst = ks ∧
      ∀ r ∈ runs, ∃ s ∈ b.sets, r.elems <:+ s.nodeKeys := by
  induction ks with
  | nil => exact ⟨[], rfl, by simp⟩
  | cons k ks ih =>
    obtain ⟨runs, rfl, hruns⟩ := ih fun k hk => hks k (List.mem_cons_of_mem _ hk)
    obtain ⟨s, hs, hk⟩ := mem_nodeKeys.mp (hks k List.mem_cons_self)
    obtain ⟨pre, post, hsplit⟩ := List.append_of_mem hk
    exact ⟨(k, post) :: runs, rfl,
      List.forall_mem_cons.mpr ⟨⟨s, hs, pre, hsplit.symm⟩, hruns⟩⟩

theorem IterOk.exists_runs {iter : BtreeNodeIter} (h : b.IterOk iter) :
    ∃ runs, iter = cursors runs ∧ b.RunsOf runs ∧ HeadsSorted SetKey.rank runs := by
  obtain ⟨ks, rfl, hmem, hstops, hsorted⟩ := h
  obtain ⟨runs, rfl, hruns⟩ := IterNode.exists_runs ks hmem
  refine ⟨runs, by simp [cursors], ⟨hruns, by rwa [List.map_map] at hstops⟩, ?_⟩
  exact (List.pairwise_map.mp hsorted).imp fun hle => (bkeyIterCmp_le_iff _ _).mp hle

/-! ### Iterators at a cut -/

/-- The keys with a property are behind those without it. -/
def IsCut (P : SetKey → Bool) : Prop := ∀ x y, P x = true → P y = false → y.rank < x.rank

/-- The runs of the keys that have a property. -/
def cutRuns (P : SetKey → Bool) (sets : List IterBset) : List (MergeRun SetKey) :=
  sets.filterMap fun s => runOf (s.nodeKeys.filter P)

/-- Every cursor is at the first key of its set that has the property. -/
def AtCut (b : IterNode) (P : SetKey → Bool) (iter : BtreeNodeIter) : Prop :=
  ∃ runs, iter = cursors runs ∧ HeadsSorted SetKey.rank runs ∧ runs.Perm (cutRuns P b.sets)

variable {P : SetKey → Bool}

theorem Wf.rank_pairwise (h : b.Wf) {s : IterBset} (hs : s ∈ b.sets) :
    s.nodeKeys.Pairwise fun x y => x.rank < y.rank := by
  have hoff := keysOn_pairwise s.set.endOffset s.set.firstOffset (h.sets s hs).u64s_pos
  refine hoff.imp_of_mem fun hx hy hlt => ?_
  have hpos := rel_of_laid_lt (h.sets s hs).set.sorted (mem_keysOn.mp hx).2 (mem_keysOn.mp hy).2 hlt
  exact Prod.Lex.toLex_lt_toLex.mpr (Or.inl hpos)

/-- A cut goes through every set. -/
theorem Wf.exists_cut (h : b.Wf) (hP : IsCut P) {s : IterBset} (hs : s ∈ b.sets) :
    ∃ A, s.nodeKeys = A ++ s.nodeKeys.filter P ∧ ∀ a ∈ A, P a = false := by
  refine exists_append_filter ((h.rank_pairwise hs).imp fun {x y} hlt hx => ?_)
  by_contra hy
  exact absurd (hP x y hx (by simpa using hy)) hlt.not_gt

/-- The runs behind a cut end at the ends of their sets. -/
theorem Wf.stops_cut (h : b.Wf) (P : SetKey → Bool) :
    ((cutRuns P b.sets).map fun r => r.1.stop).Nodup := by
  have hmem {s : IterBset} {r : MergeRun SetKey} (hr : runOf (s.nodeKeys.filter P) = some r) :
      r.1.stop = s.set.endOffset := by
    have hx : r.1 ∈ s.nodeKeys.filter P := by
      rw [runOf_eq_some_iff.mp hr]
      exact List.mem_cons_self
    exact (IterBset.mem_nodeKeys.mp (List.mem_of_mem_filter hx)).1
  refine List.pairwise_map.mpr (List.pairwise_filterMap.mpr ?_)
  refine (List.pairwise_map.mp h.stops).imp fun hne r hr r' hr' => ?_
  rwa [hmem hr, hmem hr']

theorem Wf.runsOf_cut (h : b.Wf) (hP : IsCut P) : b.RunsOf (cutRuns P b.sets) where
  suffix r hr := by
    obtain ⟨s, hs, hrun⟩ := List.mem_filterMap.mp hr
    obtain ⟨A, hA, -⟩ := h.exists_cut hP hs
    exact ⟨s, hs, A, by rw [← runOf_eq_some_iff.mp hrun, ← hA]⟩
  stops := h.stops_cut P

theorem AtCut.iterOk (hb : b.Wf) (hP : IsCut P) {iter : BtreeNodeIter} (h : b.AtCut P iter) :
    b.IterOk iter := by
  obtain ⟨runs, rfl, hsorted, hperm⟩ := h
  exact ((hb.runsOf_cut hP).perm hperm).iterOk hsorted

theorem Wf.runsSorted (h : b.Wf) {runs : List (MergeRun SetKey)} (hruns : b.RunsOf runs) :
    RunsSorted SetKey.rank runs := by
  intro r hr
  obtain ⟨s, hs, hsuffix⟩ := hruns.suffix r hr
  exact ((h.rank_pairwise hs).sublist hsuffix.sublist).imp le_of_lt

/-- An iterator at a cut returns exactly the keys behind the cut, in their order. -/
theorem Wf.yields_of_atCut (h : b.Wf) (hP : IsCut P) {iter : BtreeNodeIter}
    (hiter : b.AtCut P iter) :
    ∃ ks : List SetKey, b.Yields iter (ks.map SetKey.off) ∧ ks.Perm (b.nodeKeys.filter P) ∧
      ks.Pairwise fun x y => x.rank < y.rank := by
  obtain ⟨runs, rfl, hsorted, hperm⟩ := hiter
  have hruns := (h.runsOf_cut hP).perm hperm
  have hkeys : (drain SetKey.rank (runsSize runs) runs).Perm (b.nodeKeys.filter P) := by
    refine (drain_perm le_rfl).trans ((hperm.flatMap_right _).trans ?_)
    rw [cutRuns, flatMap_filterMap_runOf, nodeKeys, List.filter_flatMap]
  refine ⟨_, (h.yields_iff hruns le_rfl).mpr rfl, hkeys, ?_⟩
  have hnodup := hkeys.nodup_iff.mpr (h.nodup.filter P)
  refine ((drain_pairwise le_rfl hsorted (h.runsSorted hruns)).and hnodup).imp_of_mem ?_
  intro x y hx hy hxy
  refine lt_of_le_of_ne hxy.1 fun hrank => hxy.2 ?_
  exact h.eq_of_off (List.mem_of_mem_filter (hkeys.mem_iff.mp hx))
    (List.mem_of_mem_filter (hkeys.mem_iff.mp hy)) (SetKey.off_eq_of_rank hrank)

/-- A run that takes part in returning the keys behind a cut begins at the cut. -/
theorem Wf.run_at_cut (h : b.Wf) {runs : List (MergeRun SetKey)} (hruns : b.RunsOf runs)
    (hkeys : (runs.flatMap MergeRun.elems).Perm (b.nodeKeys.filter P)) {r : MergeRun SetKey}
    (hr : r ∈ runs) : ∃ s ∈ b.sets, s.nodeKeys.filter P = r.elems := by
  obtain ⟨s, hs, pre, hpre⟩ := hruns.suffix r hr
  refine ⟨s, hs, ?_⟩
  have hstop {r' : MergeRun SetKey} {x : SetKey} (hr' : r' ∈ runs) (hx : x ∈ r'.elems)
      (hxs : x ∈ s.nodeKeys) : r' = r := by
    obtain ⟨s', hs', hsuffix⟩ := hruns.suffix r' hr'
    have hstop (y : SetKey) (hy : y ∈ s'.nodeKeys) := (IterBset.mem_nodeKeys.mp hy).1
    have hhead : r.1 ∈ s.nodeKeys := by
      rw [← hpre]
      exact List.mem_append_right _ List.mem_cons_self
    refine List.inj_on_of_nodup_map hruns.stops hr' hr ?_
    rw [hstop _ (hsuffix.subset List.mem_cons_self), (IterBset.mem_nodeKeys.mp hhead).1,
      ← hstop _ (hsuffix.subset hx), (IterBset.mem_nodeKeys.mp hxs).1]
  rw [← hpre, List.filter_append]
  have hnone : pre.filter P = [] := by
    refine List.filter_eq_nil_iff.mpr fun x hx hPx => ?_
    have hxs : x ∈ s.nodeKeys := by
      rw [← hpre]
      exact List.mem_append_left _ hx
    have hxb : x ∈ b.nodeKeys.filter P :=
      List.mem_filter.mpr ⟨mem_nodeKeys.mpr ⟨s, hs, hxs⟩, hPx⟩
    obtain ⟨r', hr', hxr⟩ := List.mem_flatMap.mp (hkeys.mem_iff.mpr hxb)
    rw [hstop hr' hxr hxs] at hxr
    have hnodup := (h.rank_pairwise hs).imp (S := fun x y => x ≠ y) fun hlt heq =>
      absurd (congrArg SetKey.rank heq) hlt.ne
    rw [← hpre] at hnodup
    exact (List.pairwise_append.mp hnodup).2.2 x hx x hxr rfl
  have hall : r.elems.filter P = r.elems := by
    refine List.filter_eq_self.mpr fun x hx => ?_
    exact List.of_mem_filter (hkeys.mem_iff.mp (List.mem_flatMap.mpr ⟨r, hr, hx⟩))
  rw [hnone, hall, List.nil_append]

/-- Runs of the keys behind a cut begin at the cut. -/
theorem Wf.atCut_of_runs (h : b.Wf) {runs : List (MergeRun SetKey)} (hruns : b.RunsOf runs)
    (hsorted : HeadsSorted SetKey.rank runs)
    (hcut : (runs.flatMap MergeRun.elems).Perm (b.nodeKeys.filter P)) :
    b.AtCut P (cursors runs) := by
  refine ⟨runs, rfl, hsorted, ?_⟩
  refine (List.perm_ext_iff_of_nodup hruns.stops.of_map (h.stops_cut P).of_map).mpr fun r => ?_
  constructor
  · intro hr
    obtain ⟨s, hs, helems⟩ := h.run_at_cut hruns hcut hr
    exact List.mem_filterMap.mpr ⟨s, hs, runOf_eq_some_iff.mpr helems⟩
  · intro hr
    obtain ⟨s, hs, hrun⟩ := List.mem_filterMap.mp hr
    have helems := runOf_eq_some_iff.mp hrun
    -- The first key of the run is in a run of the iterator, and then in one of the same set.
    have hhead : r.1 ∈ s.nodeKeys.filter P := by
      rw [helems]
      exact List.mem_cons_self
    have hnode : r.1 ∈ b.nodeKeys.filter P :=
      List.mem_filter.mpr ⟨mem_nodeKeys.mpr ⟨s, hs, List.mem_of_mem_filter hhead⟩,
        List.of_mem_filter hhead⟩
    obtain ⟨r', hr', hxr⟩ := List.mem_flatMap.mp (hcut.mem_iff.mpr hnode)
    obtain ⟨s', hs', helems'⟩ := h.run_at_cut hruns hcut hr'
    rw [← helems'] at hxr
    have hstop := (IterBset.mem_nodeKeys.mp (List.mem_of_mem_filter hxr)).1
    rw [(IterBset.mem_nodeKeys.mp (List.mem_of_mem_filter hhead)).1] at hstop
    rw [← h.set_eq hs hs' hstop] at helems'
    rwa [← Option.some.inj (hrun.symm.trans (runOf_eq_some_iff.mpr helems'))] at hr'

/-- An iterator that returns exactly the keys behind a cut is at the cut. -/
theorem Wf.atCut_of_yields (h : b.Wf) {iter : BtreeNodeIter} (hok : b.IterOk iter)
    {ks : List SetKey} (hyields : b.Yields iter (ks.map SetKey.off))
    (hkeys : ks.Perm (b.nodeKeys.filter P)) : b.AtCut P iter := by
  obtain ⟨runs, rfl, hruns, hsorted⟩ := hok.exists_runs
  have hmerge := drain_perm (f := SetKey.rank) (le_refl (runsSize runs))
  have hdrain : drain SetKey.rank (runsSize runs) runs = ks := by
    refine eq_of_map_eq (fun x hx y hy => ?_) ((h.yields_iff hruns le_rfl).mp hyields).symm
    obtain ⟨r, hr, hxr⟩ := List.mem_flatMap.mp (hmerge.mem_iff.mp hx)
    exact h.eq_of_off (hruns.elems_mem hr hxr) (List.mem_of_mem_filter (hkeys.mem_iff.mp hy))
  rw [hdrain] at hmerge
  exact h.atCut_of_runs hruns hsorted (hmerge.symm.trans hkeys)

end IterNode

end Subvol

import Subvol.Btree.BsetSearchRun
import Subvol.Btree.NodeIterMove

/-!
# Starting a node iterator at a position

`bch2_btree_node_iter_init` searches every set for the position, with the table beside it, and puts
the cursors in order. Where no position below can be packed it goes on from the start of the node
instead, past the keys that are deleted or below.

## Main definitions

* `notBelow`: the keys that a path at a position has to see.
* `IterNode.Denotes`: an iterator that returns exactly these.
* `NodeWords.AuxOk`: the invariant of the table beside a set.
* `IterNode.Searchable`: a node whose sets can be searched.

## Main results

* `IterNode.Wf.denotes_iff`: the iterators that denote a position are those at its cut.
* `IterNode.bch2BtreeNodeIterInit_yields`: what the iterator at a position returns.
-/

namespace Subvol

open Lib Lib.ArrayTree

/-! ### The keys that a path sees -/

/-- The keys of a node that are not below the position. -/
def notBelow (p : Bpos) (x : SetKey) : Bool := sees p x.key

theorem isCut_notBelow (p : Bpos) : IterNode.IsCut (notBelow p) := by
  intro x y hx hy
  rw [notBelow, sees, decide_eq_true_iff, bkeyIterPosCmp_nonneg_iff] at hx
  rw [notBelow, sees, decide_eq_false_iff_not, bkeyIterPosCmp_nonneg_iff, not_or, not_lt] at hy
  obtain ⟨hle, hdel⟩ := hy
  refine Prod.Lex.toLex_lt_toLex.mpr ?_
  simp only [SetKey.ranked]
  rcases hle.lt_or_eq with hlt | heq
  · exact Or.inl (hlt.trans_le (by rcases hx with h | ⟨h, -⟩; exacts [h.le, h.le]))
  · rcases hx with hx | ⟨hx, hlive⟩
    · exact Or.inl (heq.trans_lt hx)
    · -- A deleted key at the position comes before a live one.
      have hdead : y.key.deleted = true := by simpa [heq] using hdel
      exact Or.inr ⟨heq.trans hx, Prod.Lex.toLex_lt_toLex.mpr (Or.inl (by simp [hdead, hlive]))⟩

/-- An iterator that has no cursor inside of a key, and from which calls of
`bch2_btree_node_iter_next_all` return exactly the keys that are not below a position, in order. -/
structure IterNode.Denotes (b : IterNode) (p : Bpos) (iter : BtreeNodeIter) : Prop where
  ok : b.IterOk iter
  keys : ∃ ks : List SetKey, b.Yields iter (ks.map SetKey.off) ∧
    ks.Perm (b.nodeKeys.filter (notBelow p)) ∧
    ks.Pairwise fun x y => bkeyIterCmp x.ranked y.ranked ≤ 0

theorem IterNode.Wf.denotes_iff {b : IterNode} (h : b.Wf) (p : Bpos) (iter : BtreeNodeIter) :
    b.Denotes p iter ↔ b.AtCut (notBelow p) iter := by
  constructor
  · rintro ⟨hok, ks, hyields, hkeys, -⟩
    exact h.atCut_of_yields hok hyields hkeys
  · intro hcut
    obtain ⟨ks, hyields, hkeys, hsorted⟩ := h.yields_of_atCut (isCut_notBelow p) hcut
    exact ⟨hcut.iterOk h (isCut_notBelow p), ks, hyields, hkeys,
      hsorted.imp fun hlt => (IterNode.bkeyIterCmp_le_iff _ _).mpr hlt.le⟩

namespace IterNode

variable {s : IterBset} {p : Bpos}

/-- The keys behind a cut, when the keys of the set are cut in two. -/
theorem filter_keysOn {stop base : ℕ} {front back : List BkeyPacked} {Q : BkeyPacked → Bool}
    (hfront : ∀ k ∈ front, Q k = false) (hback : ∀ k ∈ back, Q k = true) :
    (keysOn stop base (front ++ back)).filter (fun x => Q x.key) =
      keysOn stop (base + total BkeyPacked.u64s front) back := by
  rw [keysOn_append, List.filter_append]
  have hnone : (keysOn stop base front).filter (fun x => Q x.key) = [] := by
    refine List.filter_eq_nil_iff.mpr fun x hx => ?_
    simp [hfront x.key (mem_of_mem_laid (mem_keysOn.mp hx).2)]
  have hall : (keysOn stop (base + total BkeyPacked.u64s front) back).filter (fun x => Q x.key) =
      keysOn stop (base + total BkeyPacked.u64s front) back :=
    List.filter_eq_self.mpr fun x hx => hback x.key (mem_of_mem_laid (mem_keysOn.mp hx).2)
  rw [hnone, hall, List.nil_append]

/-- The run of a set whose keys are cut in two at the position. -/
theorem runOf_seen {front back : List BkeyPacked} (hkeys : s.set.keys = front ++ back)
    (hfront : ∀ k ∈ front, sees p k = false) (hback : ∀ k ∈ back, sees p k = true) :
    runOf (s.nodeKeys.filter (notBelow p)) =
      runOf (keysOn s.set.endOffset (s.set.firstOffset + total BkeyPacked.u64s front) back) := by
  rw [IterBset.nodeKeys, hkeys]
  exact congrArg runOf (filter_keysOn hfront hback)

/-- Keys behind one that is seen are seen. -/
theorem seen_of_cons (h : s.Wf) {front back : List BkeyPacked} {k : BkeyPacked}
    (hkeys : s.set.keys = front ++ k :: back) (hk : sees p k = true) :
    ∀ x ∈ k :: back, sees p x = true := by
  have hsorted := h.set.sorted
  rw [hkeys] at hsorted
  have hback := (List.pairwise_cons.mp (List.pairwise_append.mp hsorted).2.1).1
  exact List.forall_mem_cons.mpr ⟨hk, fun x hx => sees_mono (hback x hx) hk⟩

/-- The keys of a set are cut in two at a position. -/
theorem exists_seen (h : s.Wf) (p : Bpos) : ∃ front back, s.set.keys = front ++ back ∧
    (∀ k ∈ front, sees p k = false) ∧ ∀ k ∈ back, sees p k = true := by
  obtain ⟨front, hsplit, hfront⟩ :=
    exists_append_filter (h.set.sorted.imp fun hlt => sees_mono (p := p) hlt)
  exact ⟨front, _, hsplit, hfront, fun k hk => List.of_mem_filter hk⟩

end IterNode

/-! ### Nodes that can be searched -/

/-- The invariant of the table beside a set: one that is written to names keys of the set with their
positions, one that is only searched also has floats that tell the side. -/
def NodeWords.AuxOk (w : NodeWords) (s : IterBset) : Prop :=
  match s.aux with
  | .noAux => True
  | .ro t => w.Built s t
  | .rw => Keeps s.set (some s.set)

/-- A node: at most three sets, one behind the other, each in order, in the words of the node, and
with a table that satisfies its invariant. -/
structure IterNode.Searchable (b : IterNode) (w : NodeWords) : Prop where
  sets : ∀ s ∈ b.sets, s.set.Wf ∧ w.Holds s ∧ w.AuxOk s
  nsets : b.sets.length ≤ maxBsets
  apart : b.sets.Pairwise fun s t => s.set.endOffset ≤ t.set.dataOffset

/-- The places in order of a table name keys as its slots do. -/
theorem RoTable.treeToBkey {s : IterBset} {t : RoAuxTree} (h : RoTable s t) {j : ℕ} (hj : 1 ≤ j)
    (hlt : j < t.size) : ∃ x ∈ s.laidKeys, s.treeToBkey t j = some x.1 := by
  have hle := h.size_le
  obtain ⟨hslot, hslotLe, -⟩ := @inorder_slotAt (t.size - 1) j hj (by omega)
  obtain ⟨x, hx, hname⟩ := h.named _ hslot (by omega)
  refine ⟨x, hx, ?_⟩
  rw [IterBset.treeToBkey, h.extra_eq, inorderToEytzinger1Extra_eq hj (by omega) (by omega)]
  exact hname

theorem NodeWords.AuxOk.tableNames {w : NodeWords} {s : IterBset} (h : w.AuxOk s) :
    s.TableNames := by
  rw [NodeWords.AuxOk] at h
  rw [IterBset.TableNames]
  cases haux : s.aux with
  | noAux => trivial
  | ro t =>
    rw [haux] at h
    exact fun j hj hlt => h.table.treeToBkey hj hlt
  | rw =>
    rw [haux] at h
    exact h

theorem IterNode.Searchable.wf {b : IterNode} {w : NodeWords} (h : b.Searchable w) : b.Wf where
  sets s hs := ⟨(h.sets s hs).1, (h.sets s hs).2.2.tableNames⟩
  nsets := h.nsets
  apart := h.apart

/-! ### Searching every set -/

/-- A search in a table that is written to comes to a key from which a walk finds what it is for. -/
theorem RwBset.Wf.starts {s : IterBset} (h : s.set.Wf) (htable : Keeps s.set (some s.set))
    (search : Bpos) : ∃ off, bsetSearchWriteSet s.set search = some off ∧ s.Starts search off := by
  obtain ⟨off, hoff, hfirst⟩ := (h.rwAuxOk htable).search search
  refine ⟨off, hoff, ?_⟩
  obtain ⟨e, es, hs, hok, -⟩ := htable
  have htree : s.set.tree = e :: es := congrArg RwBset.tree (Option.some.inj hs)
  obtain ⟨x, hx, rfl⟩ := Option.map_eq_some_iff.mp hoff
  obtain ⟨pre, post, hkeys, hboundary⟩ := hok.boundary (htree ▸ List.mem_of_getElem? hx)
  refine ⟨pre, post, hkeys, hboundary, fun k hk => sees_eq_false_iff.mpr (Or.inl ?_)⟩
  obtain ⟨o, ho⟩ : ∃ o, (o, k) ∈ laid BkeyPacked.u64s s.set.firstOffset pre := exists_mem_laid hk
  by_contra hle
  have hlaid : (o, k) ∈ laid BkeyPacked.u64s s.set.firstOffset s.set.keys := by
    rw [hkeys]
    exact mem_laid_append.mpr (Or.inl ho)
  have hbehind := hfirst _ hlaid (not_lt.mp hle)
  have hbounds := mem_laid_bounds ho
  have hpos := h.u64s_pos (hkeys ▸ List.mem_append_left _ hk : k ∈ s.set.keys)
  dsimp only at hbounds hbehind
  omega

namespace IterNode

variable {b : IterNode} {w : NodeWords} {s : IterBset} {search q : Bpos} {exact : Bool}
  {packed : KeyWords} {sets : List IterBset}

/-- The search in a set and the walk from there end at the first key that is not below. -/
theorem Searchable.searchSet (h : b.Searchable w) (hs : s ∈ b.sets) (hq : HasPos w.format q packed)
    (hlossy : Lossy w.format search q exact) (hmin : w.minKey ≤ search)
    (hmax : search ≤ w.maxKey) :
    ∃ m, w.bch2BsetSearch s search packed = some m ∧
      w.bch2BsetSearchLinear s search (if exact then some packed else none) (some packed) m =
        some (s.firstAbove search) := by
  obtain ⟨hset, hholds, haux⟩ := h.sets s hs
  have hstart : ∃ m, w.bch2BsetSearch s search packed = some m ∧ s.Starts search m := by
    rw [NodeWords.AuxOk] at haux
    cases hkind : s.aux with
    | noAux => exact hholds.bch2BsetSearch (Or.inl hkind) hq hlossy hmin hmax
    | ro t =>
      rw [hkind] at haux
      exact hholds.bch2BsetSearch (Or.inr ⟨t, hkind, haux⟩) hq hlossy hmin hmax
    | rw =>
      rw [hkind] at haux
      rw [NodeWords.bch2BsetSearch, hkind]
      exact hset.starts haux search
  obtain ⟨m, hm, hstart⟩ := hstart
  exact ⟨m, hm, hholds.searchLinear hq hlossy hstart⟩

theorem Searchable.searchAll (h : b.Searchable w) (hsets : ∀ s ∈ sets, s ∈ b.sets)
    (hq : HasPos w.format q packed) (hlossy : Lossy w.format search q exact)
    (hmin : w.minKey ≤ search) (hmax : search ≤ w.maxKey) :
    ∃ starts, (sets.mapM fun s => w.bch2BsetSearch s search packed) = some starts ∧
      ((sets.zip starts).mapM fun (s, m) => w.bch2BsetSearchLinear s search
        (if exact then some packed else none) (some packed) m) =
          some (sets.map fun s => s.firstAbove search) := by
  induction sets with
  | nil => exact ⟨[], rfl, rfl⟩
  | cons s sets ih =>
    obtain ⟨hs, hsets⟩ := List.forall_mem_cons.mp hsets
    obtain ⟨m, hm, hlinear⟩ := h.searchSet hs hq hlossy hmin hmax
    obtain ⟨starts, hstarts, hlinears⟩ := ih hsets
    refine ⟨m :: starts, ?_, ?_⟩
    · rw [List.mapM_cons, hm, hstarts]
      rfl
    · rw [List.zip_cons_cons, List.mapM_cons]
      dsimp only
      rw [hlinear, hlinears]
      rfl

/-- The cursor of a set is at the first key that is not below. -/
theorem runOf_firstAbove (h : s.Wf) (search : Bpos) :
    (if s.firstAbove search ≠ s.set.endOffset then
        some (⟨s.firstAbove search, s.set.endOffset⟩ : BtreeNodeIterSet) else none) =
      (runOf (s.nodeKeys.filter (notBelow search))).map fun r => r.1.cursor := by
  obtain ⟨front, back, hkeys, hfront, hback⟩ := exists_seen h search
  have hfirst : s.firstAbove search = s.set.firstOffset + total BkeyPacked.u64s front :=
    IterBset.firstAbove_eq hkeys hfront fun k rest hcons => hback k (by simp [hcons])
  rw [runOf_seen hkeys hfront hback, hfirst, RwBset.endOffset, hkeys, total_append]
  cases back with
  | nil => rw [total_nil, if_neg (by simp)]; rfl
  | cons k back =>
    have hk := h.u64s_pos k (by simp [hkeys])
    rw [total_cons, if_pos (by omega)]
    rfl

theorem cursors_firstAbove (hsets : ∀ s ∈ sets, s.Wf) (search : Bpos) :
    ((sets.zip (sets.map fun s => s.firstAbove search)).filterMap fun (s, k) =>
        if k ≠ s.set.endOffset then some (⟨k, s.set.endOffset⟩ : BtreeNodeIterSet) else none) =
      cursors (cutRuns (notBelow search) sets) := by
  induction sets with
  | nil => rfl
  | cons s sets ih =>
    obtain ⟨hs, hsets⟩ := List.forall_mem_cons.mp hsets
    have hfirst := runOf_firstAbove hs search
    rw [List.map_cons, List.zip_cons_cons, List.filterMap_cons, ih hsets]
    dsimp only
    rw [hfirst]
    simp only [cutRuns, List.filterMap_cons]
    cases runOf (s.nodeKeys.filter (notBelow search)) <;> rfl

/-! ### Starting at the start -/

/-- A set with keys gets a cursor. -/
theorem iterPushRaw_first (h : s.Wf) {iter : BtreeNodeIter} (hlen : iter.length < maxBsets) :
    iterPushRaw iter s.set.firstOffset s.set.endOffset =
      some (iter ++ (runOf (s.nodeKeys.filter fun _ => true)).toList.map fun r => r.1.cursor) := by
  rw [iterPushRaw, List.filter_true, IterBset.nodeKeys]
  cases hkeys : s.set.keys with
  | nil =>
    rw [RwBset.endOffset, hkeys, total_nil, Nat.add_zero, if_pos rfl]
    simp [runOf]
  | cons k keys =>
    have hk := h.u64s_pos k (by simp [hkeys])
    rw [if_neg (by rw [RwBset.endOffset, hkeys, total_cons]; omega), if_pos hlen]
    rfl

theorem Wf.pushAll (hsets : ∀ s ∈ sets, s.Wf) {runs : List (MergeRun SetKey)}
    (hlen : runs.length + sets.length ≤ maxBsets) :
    sets.foldlM (fun iter s => iterPushRaw iter s.set.firstOffset s.set.endOffset) (cursors runs) =
      some (cursors (runs ++ cutRuns (fun _ => true) sets)) := by
  induction sets generalizing runs with
  | nil => simp [cutRuns]
  | cons s sets ih =>
    obtain ⟨hs, hsets⟩ := List.forall_mem_cons.mp hsets
    rw [List.length_cons] at hlen
    have hroom : (cursors runs).length < maxBsets := by
      rw [length_cursors]
      omega
    have hpush := iterPushRaw_first hs hroom
    have hnext : (cursors runs ++
        (runOf (s.nodeKeys.filter fun _ => true)).toList.map fun r => r.1.cursor) =
          cursors (runs ++ (runOf (s.nodeKeys.filter fun _ => true)).toList) :=
      (cursors_append _ _).symm
    rw [List.foldlM_cons, hpush, hnext, Option.bind_eq_bind, Option.bind_some, ih hsets ?_,
      List.append_assoc]
    · simp only [cutRuns, List.filterMap_cons]
      cases runOf (s.nodeKeys.filter fun _ => true) <;> rfl
    · have hone : (runOf (s.nodeKeys.filter fun _ => true)).toList.length ≤ 1 := by
        cases runOf (s.nodeKeys.filter fun _ => true) <;> simp
      rw [List.length_append]
      omega

theorem isCut_true : IsCut fun _ => true := fun _ _ _ h => absurd h Bool.true_eq_false.mp

/-- `bch2_btree_node_iter_init_from_start` makes an iterator over all keys. -/
theorem Wf.iterInitFromStart (h : b.Wf) :
    ∃ iter, b.iterInitFromStart = some iter ∧ b.AtCut (fun _ => true) iter := by
  have hlen : ([] : List (MergeRun SetKey)).length + b.sets.length ≤ maxBsets := by
    simpa using h.nsets
  have hpush := Wf.pushAll h.sets hlen
  obtain ⟨iter, hsort, hcut⟩ := h.iterSort_cut isCut_true (List.Perm.refl _)
  refine ⟨iter, ?_, hcut⟩
  rw [cursors_nil, List.nil_append] at hpush
  rw [IterNode.iterInitFromStart, hpush]
  exact hsort

/-- All keys of a node in their order. -/
theorem Wf.exists_ordered (h : b.Wf) :
    ∃ all : List SetKey, all.Perm b.nodeKeys ∧ all.Pairwise fun x y => x.rank < y.rank := by
  obtain ⟨iter, -, hcut⟩ := h.iterInitFromStart
  obtain ⟨all, -, hkeys, hsorted⟩ := h.yields_of_atCut isCut_true hcut
  rw [List.filter_true] at hkeys
  exact ⟨all, hkeys, hsorted⟩

/-- The loop for a position that cannot be packed passes the keys that are deleted or below. -/
theorem Between.skipBelow {front back : List SetKey} {iter : BtreeNodeIter}
    (h : b.Between front back iter) (hb : b.Wf) {fuel : ℕ} (hfuel : back.length < fuel) :
    ∃ skipped rest iter', back = skipped ++ rest ∧
      (∀ x ∈ skipped, notBelow search x = true → x.key.deleted = true) ∧
      (∀ x ∈ rest.head?, notBelow search x = true) ∧
      b.skipBelow search fuel iter = some iter' ∧ b.Between (front ++ skipped) rest iter' := by
  induction fuel generalizing front back iter with
  | zero => omega
  | succ fuel ih =>
    obtain ⟨dead, rest, iter', rfl, hdead, -, hpeek, hnext⟩ := h.iterPeek hb
    rw [IterNode.skipBelow, hpeek]
    cases rest with
    | nil => exact ⟨dead, [], iter', rfl, fun x hx _ => hdead x hx, by simp, rfl, hnext⟩
    | cons y rest =>
      have hkey := hb.keyAt (hnext.mem (by simp : y ∈ front ++ dead ++ y :: rest))
      have hsees : notBelow search y = decide (0 ≤ bkeyIterPosCmp y.key search) := rfl
      simp only [List.head?_cons, Option.map_some, Option.bind_eq_bind, Option.bind_some, hkey]
      by_cases hge : 0 ≤ bkeyIterPosCmp y.key search
      · rw [if_pos hge]
        refine ⟨dead, y :: rest, iter', rfl, fun x hx _ => hdead x hx, ?_, rfl, hnext⟩
        simpa [hsees] using hge
      · rw [if_neg hge]
        obtain ⟨-, iter'', hadvance, hbetween⟩ := hnext.iterAdvance hb
        rw [List.length_append, List.length_cons] at hfuel
        obtain ⟨skipped, rest', iter₃, rfl, hskipped, hhead, hskip, hbetween'⟩ :=
          ih hbetween (by omega)
        refine ⟨dead ++ y :: skipped, rest', iter₃, by simp, fun x hx hnot => ?_, hhead, ?_, ?_⟩
        · rcases List.mem_append.mp hx with hx | hx
          · exact hdead x hx
          · rcases List.mem_cons.mp hx with rfl | hx
            · exact absurd (of_decide_eq_true (hsees.symm.trans hnot)) hge
            · exact hskipped x hx hnot
        · rw [hadvance, Option.bind_some, hskip]
        · simpa using hbetween'

/-- `bch2_btree_node_iter_init` makes an iterator that has passed the keys below the position, and
deleted keys if the position cannot be packed. -/
theorem Searchable.iterInit (h : b.Searchable w) (hmin : w.minKey ≤ search)
    (hmax : search ≤ w.maxKey) {all : List SetKey} (hall : all.Perm b.nodeKeys)
    (hsorted : all.Pairwise fun x y => x.rank < y.rank) :
    ∃ front back iter, b.iterInit w search = some iter ∧ all = front ++ back ∧
      b.Between front back iter ∧ (∀ x ∈ back, notBelow search x = true) ∧
      (∀ x ∈ front, notBelow search x = true → x.key.deleted = true ∧
        ∃ words, KeyWords.bch2BkeyPackPosLossy (fun _ => 0) search w.format.toBkeyFormat =
          some (.fail, words)) := by
  rw [IterNode.iterInit, if_pos ⟨hmin, hmax⟩]
  rcases bch2BkeyPackPosLossy_cases w.format (fun _ => 0) search with ⟨words, heq, -⟩ |
    ⟨exact, q, words, heq, hpacked, hlossy⟩
  · obtain ⟨iter, hstart, hcut⟩ := h.wf.iterInitFromStart
    obtain ⟨front, hsplit, hbetween⟩ := hcut.between isCut_true hall hsorted
    rw [List.filter_true] at hsplit hbetween
    obtain rfl : front = [] := List.self_eq_append_left.mp hsplit
    obtain ⟨skipped, rest, iter', rfl, hskipped, hhead, hskip, hbetween'⟩ :=
      hbetween.skipBelow h.wf hbetween.length_lt
    refine ⟨skipped, rest, iter', ?_, rfl, hbetween', fun x hx => ?_, fun x hx hnot =>
      ⟨hskipped x hx hnot, words, heq⟩⟩
    · simp only [heq, Option.bind_eq_bind, Option.bind_some, if_true, hstart, hskip]
    · cases rest with
      | nil => exact absurd hx List.not_mem_nil
      | cons y rest =>
        have hy : notBelow search y = true := hhead y rfl
        rcases List.mem_cons.mp hx with rfl | hx
        · exact hy
        · have hlt := (List.pairwise_cons.mp (List.pairwise_append.mp hsorted).2.1).1 x hx
          by_contra hnot
          exact absurd (isCut_notBelow search y x hy (by simpa using hnot)) hlt.not_gt
  · have hne : (if exact then BkeyPackPosRet.exact else .smaller) ≠ .fail := by
      cases exact <;> decide
    have hpackedSearch : (if (if exact then BkeyPackPosRet.exact else .smaller) = .exact then
        some words else none) = if exact then some words else none := by
      cases exact <;> rfl
    obtain ⟨starts, hstarts, hlinears⟩ :=
      h.searchAll (fun s hs => hs) hpacked.hasPos hlossy hmin hmax
    obtain ⟨iter, hsort, hcut⟩ := h.wf.iterSort_cut (isCut_notBelow search) (List.Perm.refl _)
    obtain ⟨front, hsplit, hbetween⟩ := hcut.between (isCut_notBelow search) hall hsorted
    refine ⟨front, all.filter (notBelow search), iter, ?_, hsplit, hbetween,
      fun x hx => List.of_mem_filter hx, fun x hx hnot => ?_⟩
    · simp only [heq, Option.bind_eq_bind, Option.bind_some, if_neg hne, hpackedSearch]
      rw [List.take_of_length_le h.nsets, hstarts, Option.bind_some, hlinears, Option.bind_some,
        cursors_firstAbove h.wf.sets]
      exact hsort
    · -- The key would be on both sides of the cut.
      have hmem : x ∈ all.filter (notBelow search) := by
        refine List.mem_filter.mpr ⟨?_, hnot⟩
        rw [hsplit]
        exact List.mem_append_left _ hx
      exact absurd ((List.pairwise_append.mp hbetween.sorted).2.2 x hx x hmem) (lt_irrefl _)

/-- The iterator at a position returns, in their order, exactly the keys of the node that are not
below the position, but for deleted keys at the front when the position cannot be packed; peeking
returns those that are not deleted. -/
theorem bch2BtreeNodeIterInit_yields (b : IterNode) (w : NodeWords) (h : b.Searchable w)
    (search : Bpos) (hmin : w.minKey ≤ search) (hmax : search ≤ w.maxKey) :
    ∃ (iter : BtreeNodeIter) (skipped ks : List SetKey), b.iterInit w search = some iter ∧
      (skipped ++ ks).Perm (b.nodeKeys.filter (notBelow search)) ∧
      ((skipped ++ ks).Pairwise fun x y => 0 < bkeyIterCmp y.ranked x.ranked) ∧
      (∀ x ∈ skipped, x.key.deleted = true ∧
        ∃ words, KeyWords.bch2BkeyPackPosLossy (fun _ => 0) search w.format.toBkeyFormat =
          some (.fail, words)) ∧
      b.Yields iter (ks.map SetKey.off) ∧
      b.YieldsLive iter (((skipped ++ ks).filter fun x => !x.key.deleted).map SetKey.off) := by
  obtain ⟨all, hall, hsorted⟩ := h.wf.exists_ordered
  obtain ⟨front, back, iter, hinit, rfl, hbetween, hback, hfront⟩ :=
    h.iterInit hmin hmax hall hsorted
  have hseen : (front ++ back).filter (notBelow search) =
      front.filter (notBelow search) ++ back := by
    rw [List.filter_append, List.filter_eq_self.mpr hback]
  have hskipped : ∀ x ∈ front.filter (notBelow search), x.key.deleted = true ∧
      ∃ words, KeyWords.bch2BkeyPackPosLossy (fun _ => 0) search w.format.toBkeyFormat =
        some (.fail, words) :=
    fun x hx => hfront x (List.mem_of_mem_filter hx) (List.of_mem_filter hx)
  refine ⟨iter, front.filter (notBelow search), back, hinit, ?_, ?_, hskipped,
    hbetween.yields h.wf, ?_⟩
  · rw [← hseen]
    exact hall.filter _
  · rw [← hseen]
    exact (hsorted.filter _).imp fun hlt => (SetKey.bkeyIterCmp_pos_iff _ _).mpr hlt
  · have hnone : (front.filter (notBelow search)).filter (fun x => !x.key.deleted) = [] :=
      List.filter_eq_nil_iff.mpr fun x hx => by simp [(hskipped x hx).1]
    rw [List.filter_append, hnone, List.nil_append]
    exact hbetween.yieldsLive h.wf

end IterNode

/-! ### Examples -/

/-- An unpacked key of five words. -/
def plainKey (offset : Fin (2 ^ 64)) (type : ℕ) : BkeyPacked :=
  ⟨⟨⟨101, offset, 5⟩, type, 0, 0, 0, []⟩, 5, false⟩

/-- Its words. -/
def plainWords (offset type : ℕ) : List (BitVec 64) :=
  [BitVec.ofNat 64 (type * 2 ^ 16 + 0x105), 0, 5 <<< 32, BitVec.ofNat 64 offset, 101]

/-- A set between the others, without a table. -/
def plainSet : IterBset where
  set := ⟨narrowFormat, 12, 0, 140, [plainKey 210 0, plainKey 265 7], []⟩
  lead := 0
  aux := .noAux

/-- A last set, with a table to write to, whose deleted key is at the position of one of the first
set. -/
def writtenSet : IterBset where
  set := buildRwAuxTree ⟨narrowFormat, 12, 0, 153, [plainKey 270 0, plainKey 500 7], []⟩ ⟨0, 0, 0⟩
  lead := 0
  aux := .rw

def threeNode : NodeWords :=
  { mixedNode with data := mixedNode.data ++ [0, 0, 0] ++ plainWords 210 0 ++ plainWords 265 7 ++
      [0, 0, 0] ++ plainWords 270 0 ++ plainWords 500 7 }

/-- A node of three sets, the first one with a table to search in. -/
def threeSets (aux : IterAux) : IterNode := ⟨[{ mixedSet with aux }, plainSet, writtenSet], 0⟩

theorem threeNode_holds (s : IterBset) (hs : s ∈ [mixedSet, plainSet, writtenSet]) :
    threeNode.Holds s := by
  have hall : ∀ s ∈ [mixedSet, plainSet, writtenSet],
      (∀ x ∈ s.laidKeys, Stores threeNode.format (wordsAt threeNode.data x.1) x.2) ∧
        (s.set.keys.Pairwise fun k k' => k.pos < k'.pos) ∧ s.set.endOffset < 2 ^ 16 := by
    decide +kernel
  exact ⟨(hall s hs).1, (hall s hs).2.1, (hall s hs).2.2⟩

theorem threeSets_searchable :
    ∃ aux, threeNode.buildRoAuxTree mixedSet (List.replicate 8 ⟨0, 0, 0⟩) = some aux ∧
      (threeSets aux).Searchable threeNode := by
  have hcovers : threeNode.Covers mixedSet := mixedNode_covers
  obtain ⟨aux, hbuild, haux⟩ :=
    (threeNode_holds mixedSet (by simp)).buildRoAuxTree hcovers (List.replicate 8 ⟨0, 0, 0⟩)
  have hwf : ∀ s ∈ [mixedSet, plainSet, writtenSet], s.set.Wf := by
    have hall : ∀ s ∈ [mixedSet, plainSet, writtenSet],
        (s.set.keys.Pairwise fun k k' => k.pos < k'.pos) ∧
          (∀ k ∈ s.set.keys, k.keyU64s = s.set.format.keyU64s ∨ k.keyU64s = bkeyU64s) ∧
          s.set.endOffset < 2 ^ 16 := by decide +kernel
    exact fun s hs => ⟨(hall s hs).1, (hall s hs).2.1, (hall s hs).2.2⟩
  refine ⟨aux, hbuild, ?_, (by decide : 3 ≤ maxBsets), ?_⟩
  · intro s hs
    simp only [threeSets, List.mem_cons, List.not_mem_nil, or_false] at hs
    rcases hs with rfl | rfl | rfl
    · refine ⟨hwf mixedSet (by simp), (threeNode_holds mixedSet (by simp)).withAux aux, ?_⟩
      rcases haux with rfl | ⟨t, rfl, ht⟩
      · trivial
      · exact ht.withAux _
    · exact ⟨hwf plainSet (by simp), threeNode_holds plainSet (by simp), trivial⟩
    · exact ⟨hwf writtenSet (by simp), threeNode_holds writtenSet (by simp),
        buildRwAuxTree_spec _ (by decide)⟩
  · have hends : ([mixedSet, plainSet, writtenSet].map IterBset.set).Pairwise fun s t =>
        s.endOffset ≤ t.dataOffset := by decide +kernel
    have hsame : (threeSets aux).sets.map IterBset.set =
        [mixedSet, plainSet, writtenSet].map IterBset.set := rfl
    rw [← hsame] at hends
    exact List.pairwise_map.mp hends

/-- A start between the keys of three sets, the first one with a table to search in, the last one
with a table to write to. -/
theorem bch2BtreeNodeIterInit_yields_three :
    ∃ aux, threeNode.buildRoAuxTree mixedSet (List.replicate 8 ⟨0, 0, 0⟩) = some aux ∧
      ∃ (iter : BtreeNodeIter) (skipped ks : List SetKey),
        (threeSets aux).iterInit threeNode ⟨101, 265, 5⟩ = some iter ∧
        (skipped ++ ks).Perm ((threeSets aux).nodeKeys.filter (notBelow ⟨101, 265, 5⟩)) ∧
        ((skipped ++ ks).Pairwise fun x y => 0 < bkeyIterCmp y.ranked x.ranked) ∧
        (∀ x ∈ skipped, x.key.deleted = true ∧
          ∃ words, KeyWords.bch2BkeyPackPosLossy (fun _ => 0) ⟨101, 265, 5⟩
            threeNode.format.toBkeyFormat = some (.fail, words)) ∧
        (threeSets aux).Yields iter (ks.map SetKey.off) ∧
        (threeSets aux).YieldsLive iter
          (((skipped ++ ks).filter fun x => !x.key.deleted).map SetKey.off) := by
  obtain ⟨aux, hbuild, hsearchable⟩ := threeSets_searchable
  exact ⟨aux, hbuild, IterNode.bch2BtreeNodeIterInit_yields (threeSets aux) threeNode hsearchable
    ⟨101, 265, 5⟩ (by decide) (by decide)⟩

end Subvol

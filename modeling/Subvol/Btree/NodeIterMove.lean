import Subvol.Btree.NodeIterInv

/-!
# Moving a node iterator

An iterator cuts the keys of its node in two: those that it has passed, and those that it returns.
`bch2_btree_node_iter_advance` moves the cut behind the next key, `bch2_btree_node_iter_prev_all`
back in front of the last one that was passed, wherever the table beside its set makes the step
back in the set begin.

## Main definitions

* `IterNode.behind`: the cut behind given keys.
* `IterNode.Between`: an iterator between the keys that it has passed and those that it returns.
* `IterNode.YieldsLive`: the keys that calls of `bch2_btree_node_iter_peek` return.

## Main results

* `IterNode.Between.yields`, `IterNode.Between.yieldsLive`: what the iterator returns.
* `IterNode.Between.iterAdvance`, `IterNode.Between.iterPeek`, `IterNode.Between.iterPrevAll`: the
  moves of the cut.
-/

namespace Subvol

open Lib

namespace IterNode

variable {b : IterNode} {P : SetKey → Bool} {s : IterBset} {runs : List (MergeRun SetKey)}

/-! ### The cursor of a set -/

theorem setFind_none {stop : ℕ} (h : ∀ q ∈ runs, q.1.stop ≠ stop) :
    setFind stop (cursors runs) = none := by
  induction runs with
  | nil => rfl
  | cons q runs ih =>
    obtain ⟨hq, hruns⟩ := List.forall_mem_cons.mp h
    rw [cursors_cons, setFind, if_neg hq, ih hruns, Option.map_none]

theorem setFind_some {stop : ℕ} (r : MergeRun SetKey) (back : List (MergeRun SetKey))
    (h : ∀ q ∈ runs, q.1.stop ≠ stop) (hr : r.1.stop = stop) :
    setFind stop (cursors (runs ++ r :: back)) =
      some (cursors runs, r.1.cursor, cursors back) := by
  induction runs with
  | nil => rw [List.nil_append, cursors_cons, setFind, if_pos hr]; rfl
  | cons q runs ih =>
    obtain ⟨hq, hruns⟩ := List.forall_mem_cons.mp h
    rw [List.cons_append, cursors_cons, setFind, if_neg hq, ih hruns, Option.map_some]
    rfl

/-- A set without keys behind the cut has no run. -/
theorem Wf.stop_ne (h : b.Wf) (hperm : runs.Perm (cutRuns P b.sets)) (hs : s ∈ b.sets)
    (hrun : runOf (s.nodeKeys.filter P) = none) : ∀ q ∈ runs, q.1.stop ≠ s.set.endOffset := by
  intro q hq hstop
  obtain ⟨t, ht, hqt⟩ := List.mem_filterMap.mp (hperm.mem_iff.mp hq)
  have hmem : q.1 ∈ t.nodeKeys.filter P := by
    rw [runOf_eq_some_iff.mp hqt]
    exact List.mem_cons_self
  have hts := (IterBset.mem_nodeKeys.mp (List.mem_of_mem_filter hmem)).1
  rw [h.set_eq hs ht (hstop.symm.trans hts), hqt] at hrun
  cases hrun

/-- It has no cursor either. -/
theorem Wf.setFind_none (h : b.Wf) (hperm : runs.Perm (cutRuns P b.sets)) (hs : s ∈ b.sets)
    (hrun : runOf (s.nodeKeys.filter P) = none) :
    setFind s.set.endOffset (cursors runs) = none :=
  IterNode.setFind_none (h.stop_ne hperm hs hrun)

/-- Any other set has one at its first key behind the cut. -/
theorem Wf.setFind_some (h : b.Wf) (hperm : runs.Perm (cutRuns P b.sets)) (hs : s ∈ b.sets)
    {r : MergeRun SetKey} (hrun : runOf (s.nodeKeys.filter P) = some r) :
    ∃ front back, runs = front ++ r :: back ∧
      setFind s.set.endOffset (cursors runs) = some (cursors front, r.1.cursor, cursors back) := by
  have hr : r ∈ runs := hperm.mem_iff.mpr (List.mem_filterMap.mpr ⟨s, hs, hrun⟩)
  obtain ⟨front, back, rfl⟩ := List.append_of_mem hr
  have hmem : r.1 ∈ s.nodeKeys.filter P := by
    rw [runOf_eq_some_iff.mp hrun]
    exact List.mem_cons_self
  have hstop := (IterBset.mem_nodeKeys.mp (List.mem_of_mem_filter hmem)).1
  have hstops := ((hperm.map fun r => r.1.stop).nodup_iff.mpr (h.stops_cut P))
  rw [List.map_append, List.map_cons] at hstops
  refine ⟨front, back, rfl, IterNode.setFind_some r back (fun q hq heq => ?_) hstop⟩
  exact (List.pairwise_append.mp hstops).2.2 _ (List.mem_map_of_mem hq) _ List.mem_cons_self
    (heq.trans hstop.symm)

/-- Where an iterator is in a set: in front of the keys behind the cut. -/
theorem Wf.bsetPos_cut (h : b.Wf) (hP : IsCut P) (hperm : runs.Perm (cutRuns P b.sets))
    (hs : s ∈ b.sets) : ∃ front back, s.set.keys = front ++ back ∧
      bsetPos (cursors runs) s = s.set.firstOffset + total BkeyPacked.u64s front ∧
      (∀ x ∈ keysOn s.set.endOffset s.set.firstOffset front, P x = false) ∧
      s.nodeKeys.filter P =
        keysOn s.set.endOffset (s.set.firstOffset + total BkeyPacked.u64s front) back := by
  obtain ⟨A, hA, hnot⟩ := h.exists_cut hP hs
  obtain ⟨front, back, hkeys, rfl, hback⟩ := keysOn_eq_append hA
  refine ⟨front, back, hkeys, ?_, hnot, hback⟩
  cases back with
  | nil =>
    rw [IterNode.bsetPos, h.setFind_none hperm hs (by rw [hback]; rfl)]
    simp [RwBset.endOffset, hkeys]
  | cons k back =>
    have hrun := congrArg runOf hback
    rw [keysOn_cons, runOf] at hrun
    obtain ⟨_, _, -, hfind⟩ := h.setFind_some hperm hs hrun
    rw [IterNode.bsetPos, hfind]
    rfl

/-- Cursors at the first keys behind the cut, in any order. -/
theorem Wf.iterSort_cut (h : b.Wf) (hP : IsCut P) (hperm : runs.Perm (cutRuns P b.sets)) :
    ∃ iter, b.iterSort (cursors runs) = some iter ∧ b.AtCut P iter := by
  obtain ⟨runs', hperm', hsorted, hsort⟩ := h.iterSort ((h.runsOf_cut hP).perm hperm)
  exact ⟨_, hsort, runs', rfl, hsorted, hperm'.trans hperm⟩


/-! ### Keys passed and keys returned -/

/-- The key comes behind others. -/
def behind (front : List SetKey) (x : SetKey) : Bool := front.all fun y => decide (y.rank < x.rank)

theorem isCut_behind (front : List SetKey) : IsCut (behind front) := by
  intro x y hx hy
  simp only [behind, List.all_eq_true, decide_eq_true_iff] at hx
  simp only [behind, List.all_eq_false, decide_eq_true_iff, not_lt] at hy
  obtain ⟨z, hz, hle⟩ := hy
  exact hle.trans_lt (hx z hz)

/-- The keys of a node in their order: those that an iterator has passed, and those that it
returns. -/
structure Between (b : IterNode) (front back : List SetKey) (iter : BtreeNodeIter) : Prop where
  keys : (front ++ back).Perm b.nodeKeys
  sorted : (front ++ back).Pairwise fun x y => x.rank < y.rank
  cut : b.AtCut (behind front) iter

variable {front back : List SetKey} {y : SetKey} {iter : BtreeNodeIter}

theorem behind_front {x : SetKey} (hx : x ∈ front) : behind front x = false := by
  simp only [behind, List.all_eq_false, decide_eq_true_iff, not_lt]
  exact ⟨x, hx, le_rfl⟩

theorem behind_back (hsorted : (front ++ back).Pairwise fun x y => x.rank < y.rank) {x : SetKey}
    (hx : x ∈ back) : behind front x = true := by
  simp only [behind, List.all_eq_true, decide_eq_true_iff]
  exact fun y hy => (List.pairwise_append.mp hsorted).2.2 y hy x hx

/-- The keys behind the cut. -/
theorem filter_behind (hkeys : (front ++ back).Perm b.nodeKeys)
    (hsorted : (front ++ back).Pairwise fun x y => x.rank < y.rank) :
    back.Perm (b.nodeKeys.filter (behind front)) := by
  refine List.Perm.trans ?_ (hkeys.filter _)
  have hfront : front.filter (behind front) = [] :=
    List.filter_eq_nil_iff.mpr fun x hx => by simp [behind_front hx]
  have hback : back.filter (behind front) = back :=
    List.filter_eq_self.mpr fun x hx => behind_back hsorted hx
  rw [List.filter_append, hfront, hback, List.nil_append]

theorem Between.mem (h : b.Between front back iter) {x : SetKey} (hx : x ∈ front ++ back) :
    x ∈ b.nodeKeys := h.keys.mem_iff.mp hx

/-- An iterator returns the keys behind its cut. -/
theorem Between.yields (h : b.Between front back iter) (hb : b.Wf) :
    b.Yields iter (back.map SetKey.off) := by
  obtain ⟨ks, hyields, hkeys, hsorted⟩ := hb.yields_of_atCut (isCut_behind front) h.cut
  have hback := (List.pairwise_append.mp h.sorted).2.1
  have hsame : ks = back :=
    (hkeys.trans (filter_behind h.keys h.sorted).symm).eq_of_pairwise
      (fun x y _ _ hlt hgt => absurd hlt hgt.not_gt) hsorted hback
  rwa [hsame] at hyields

/-- An iterator at any cut of the keys in their order. -/
theorem AtCut.between (hcut : b.AtCut P iter) (hP : IsCut P) {all : List SetKey}
    (hall : all.Perm b.nodeKeys) (hsorted : all.Pairwise fun x y => x.rank < y.rank) :
    ∃ front, all = front ++ all.filter P ∧ b.Between front (all.filter P) iter := by
  have hmono : all.Pairwise fun x y => P x = true → P y = true := by
    refine hsorted.imp fun {x y} hlt hx => ?_
    by_contra hy
    exact absurd (hP x y hx (by simpa using hy)) hlt.not_gt
  obtain ⟨front, hsplit, hfront⟩ := exists_append_filter hmono
  refine ⟨front, hsplit, hsplit ▸ hall, hsplit ▸ hsorted, ?_⟩
  obtain ⟨runs, rfl, hheads, hperm⟩ := hcut
  refine ⟨runs, rfl, hheads, ?_⟩
  have hsame : ∀ x ∈ b.nodeKeys, P x = behind front x := by
    intro x hx
    rw [hsplit] at hall hsorted
    rcases List.mem_append.mp (hall.mem_iff.mpr hx) with hx | hx
    · rw [hfront x hx, behind_front hx]
    · rw [List.of_mem_filter hx, behind_back hsorted hx]
  have hruns : cutRuns (behind front) b.sets = cutRuns P b.sets := by
    refine List.filterMap_congr fun s hs => congrArg runOf (List.filter_congr fun x hx => ?_)
    exact (hsame x (mem_nodeKeys.mpr ⟨s, hs, hx⟩)).symm
  rwa [hruns]

/-! ### Advancing -/

/-- `bch2_btree_node_iter_advance` passes the next key. -/
theorem Between.iterAdvance (h : b.Between front (y :: back) iter) (hb : b.Wf) :
    iterPeekAll iter = some y.off ∧
      ∃ iter', b.iterAdvance iter = some iter' ∧ b.Between (front ++ [y]) back iter' := by
  have hyields := h.yields hb
  obtain ⟨runs, rfl, hheads, hperm⟩ := h.cut
  have hruns := (hb.runsOf_cut (isCut_behind front)).perm hperm
  cases runs with
  | nil => exact absurd (yields_nil.mp hyields) (by simp)
  | cons r rest =>
    rw [List.map_cons] at hyields
    cases hyields with
    | next hnext hrest =>
      rw [hb.iterNextAll hruns] at hnext
      obtain ⟨hoff, rfl⟩ := Prod.mk.inj (Option.some.inj hnext)
      refine ⟨hoff, _, hb.iterAdvance hruns, ?_⟩
      have hkeys : (front ++ [y] ++ back).Perm b.nodeKeys := by
        rw [← List.append_cons]
        exact h.keys
      have hsorted : (front ++ [y] ++ back).Pairwise fun x y => x.rank < y.rank := by
        rw [← List.append_cons]
        exact h.sorted
      exact ⟨hkeys, hsorted, hb.atCut_of_yields (hruns.advance.iterOk hheads.advance) hrest
        (filter_behind hkeys hsorted)⟩

/-- At the end there is no key to pass. -/
theorem Between.nil (h : b.Between front [] iter) (hb : b.Wf) : iter = [] := by
  have hyields := h.yields hb
  obtain ⟨runs, rfl, -, hperm⟩ := h.cut
  have hruns := (hb.runsOf_cut (isCut_behind front)).perm hperm
  cases runs with
  | nil => rfl
  | cons r rest =>
    cases hyields with
    | done hnext =>
      rw [hb.iterNextAll hruns] at hnext
      cases hnext

/-! ### Peeking -/

/-- The keys that `bch2_btree_node_iter_peek` returns up to the null, as offsets, with a call of
`bch2_btree_node_iter_advance` after each of them. -/
inductive YieldsLive (b : IterNode) : BtreeNodeIter → List ℕ → Prop
  | done {iter iter' : BtreeNodeIter} (h : b.iterPeek iter = some (none, iter')) :
      YieldsLive b iter []
  | next {iter iter' iter'' : BtreeNodeIter} {k : ℕ} {ks : List ℕ}
      (h : b.iterPeek iter = some (some k, iter')) (hadvance : b.iterAdvance iter' = some iter'')
      (rest : YieldsLive b iter'' ks) : YieldsLive b iter (k :: ks)

theorem Between.length_lt (h : b.Between front back iter) : back.length < b.keyTurns := by
  have hlen : b.nodeKeys.length = (b.sets.map fun s => s.set.keys.length).sum := by
    rw [nodeKeys, List.length_flatMap]
    exact congrArg List.sum (List.map_congr_left fun s _ => by simp [IterBset.nodeKeys, keysOn])
  have hkeys := h.keys.length_eq
  rw [List.length_append] at hkeys
  rw [keyTurns]
  omega

/-- `bch2_btree_node_iter_peek` passes the deleted keys in front of the first one that is not. -/
theorem Between.peekLoop (h : b.Between front back iter) (hb : b.Wf) {fuel : ℕ}
    (hfuel : back.length < fuel) :
    ∃ dead rest iter', back = dead ++ rest ∧ (∀ x ∈ dead, x.key.deleted = true) ∧
      (∀ x ∈ rest.head?, x.key.deleted = false) ∧
      b.peekLoop fuel iter = some (rest.head?.map SetKey.off, iter') ∧
      b.Between (front ++ dead) rest iter' := by
  induction fuel generalizing front back iter with
  | zero => omega
  | succ fuel ih =>
    cases back with
    | nil =>
      obtain rfl := h.nil hb
      exact ⟨[], [], [], rfl, by simp, by simp, rfl, by rwa [List.append_nil]⟩
    | cons y back =>
      obtain ⟨hpeek, iter', hadvance, hnext⟩ := h.iterAdvance hb
      have hkey := hb.keyAt (h.mem (by simp : y ∈ front ++ y :: back))
      rw [IterNode.peekLoop, hpeek]
      simp only [hkey, Option.bind_eq_bind, Option.bind_some]
      cases hdel : y.key.deleted with
      | true =>
        obtain ⟨dead, rest, iter'', rfl, hdead, hlive, hloop, hbetween⟩ :=
          ih hnext (by rw [List.length_cons] at hfuel; omega)
        refine ⟨y :: dead, rest, iter'', rfl, List.forall_mem_cons.mpr ⟨hdel, hdead⟩, hlive, ?_, ?_⟩
        · rw [if_pos rfl, hadvance, Option.bind_some, hloop]
        · rwa [List.append_cons]
      | false =>
        refine ⟨[], y :: back, iter, rfl, by simp, by simpa using hdel, ?_, ?_⟩
        · rw [if_neg Bool.false_ne_true]
          rfl
        · rwa [List.append_nil]

theorem Between.iterPeek (h : b.Between front back iter) (hb : b.Wf) :
    ∃ dead rest iter', back = dead ++ rest ∧ (∀ x ∈ dead, x.key.deleted = true) ∧
      (∀ x ∈ rest.head?, x.key.deleted = false) ∧
      b.iterPeek iter = some (rest.head?.map SetKey.off, iter') ∧
      b.Between (front ++ dead) rest iter' :=
  h.peekLoop hb h.length_lt

/-- Peeking and advancing returns the keys behind the cut that are not deleted. -/
theorem Between.yieldsLive (h : b.Between front back iter) (hb : b.Wf) :
    b.YieldsLive iter ((back.filter fun x => !x.key.deleted).map SetKey.off) := by
  obtain ⟨n, hn⟩ : ∃ n, back.length ≤ n := ⟨_, le_rfl⟩
  induction n generalizing front back iter with
  | zero =>
    obtain rfl := List.length_eq_zero_iff.mp (Nat.le_zero.mp hn)
    obtain rfl := h.nil hb
    exact .done rfl
  | succ n ih =>
    obtain ⟨dead, rest, iter', rfl, hdead, hlive, hpeek, hnext⟩ := h.iterPeek hb
    have hnone : dead.filter (fun x => !x.key.deleted) = [] :=
      List.filter_eq_nil_iff.mpr fun x hx => by simp [hdead x hx]
    rw [List.filter_append, hnone, List.nil_append]
    cases rest with
    | nil => exact .done hpeek
    | cons y rest =>
      obtain ⟨-, iter'', hadvance, hbetween⟩ := hnext.iterAdvance hb
      have hy : y.key.deleted = false := hlive y rfl
      rw [List.filter_cons_of_pos (by simp [hy]), List.map_cons]
      refine .next hpeek hadvance (ih hbetween ?_)
      rw [List.length_append, List.length_cons] at hn
      omega

/-! ### Stepping back -/

/-- The key before the cursor of a set is the last one in front of the cut. -/
theorem Wf.prevAll_cut (h : b.Wf) (hP : IsCut P) (hperm : runs.Perm (cutRuns P b.sets))
    (hs : s ∈ b.sets) :
    (∀ x ∈ s.nodeKeys, P x = true) ∧
        s.bch2BkeyPrevAll (bsetPos (cursors runs) s) = some none ∨
      ∃ A z, s.nodeKeys = A ++ z :: s.nodeKeys.filter P ∧ P z = false ∧
        (∀ x ∈ A, P x = false) ∧
        s.bch2BkeyPrevAll (bsetPos (cursors runs) s) = some (some z.off) := by
  obtain ⟨front, back, hkeys, hpos, hnot, hback⟩ := h.bsetPos_cut hP hperm hs
  rw [hpos]
  rcases List.eq_nil_or_concat' front with rfl | ⟨front, a, rfl⟩
  · refine Or.inl ⟨fun x hx => ?_, by rw [total_nil, Nat.add_zero, s.bch2BkeyPrevAll_first]⟩
    rw [total_nil, Nat.add_zero] at hback
    have hall : s.nodeKeys.filter P = s.nodeKeys := by
      rw [hback, IterBset.nodeKeys, hkeys, List.nil_append]
    exact List.filter_eq_self.mp hall x hx
  · have hfront : keysOn s.set.endOffset s.set.firstOffset (front ++ [a]) =
        keysOn s.set.endOffset s.set.firstOffset front ++
          [⟨s.set.firstOffset + total BkeyPacked.u64s front, a, s.set.endOffset⟩] := by
      rw [keysOn_append, keysOn_cons, keysOn_nil]
    rw [hfront] at hnot
    refine Or.inr ⟨keysOn s.set.endOffset s.set.firstOffset front,
      ⟨s.set.firstOffset + total BkeyPacked.u64s front, a, s.set.endOffset⟩, ?_,
      hnot _ (by simp), fun x hx => hnot x (List.mem_append_left _ hx), ?_⟩
    · rw [hback, List.append_cons, ← hfront, IterBset.nodeKeys, hkeys, keysOn_append]
    · exact (h.sets s hs).bch2BkeyPrevAll_concat (by rw [hkeys, List.append_assoc]; rfl)

/-- The greatest of the keys in front of a cut, if there is one. -/
def Latest (P : SetKey → Bool) (l : List SetKey) : Option SetKey → Prop
  | none => ∀ x ∈ l, P x = true
  | some z => z ∈ l ∧ P z = false ∧ ∀ x ∈ l, P x = false → x.rank ≤ z.rank

/-- The greater one of two keys in front of the cut. -/
def later : Option SetKey → Option SetKey → Option SetKey
  | z, none => z
  | none, some z' => some z'
  | some z, some z' => if z.rank < z'.rank then some z' else some z

theorem Latest.append {l l' : List SetKey} {z z' : Option SetKey} (h : Latest P l z)
    (h' : Latest P l' z') : Latest P (l ++ l') (later z z') := by
  cases z' with
  | none =>
    cases z with
    | none => exact fun x hx => (List.mem_append.mp hx).elim (h x) (h' x)
    | some z =>
      obtain ⟨hz, hPz, hmax⟩ := h
      refine ⟨List.mem_append_left _ hz, hPz, fun x hx hPx => ?_⟩
      rcases List.mem_append.mp hx with hx | hx
      · exact hmax x hx hPx
      · exact absurd ((h' x hx).symm.trans hPx) (by decide)
  | some z' =>
    obtain ⟨hz', hPz', hmax'⟩ := h'
    cases z with
    | none =>
      refine ⟨List.mem_append_right _ hz', hPz', fun x hx hPx => ?_⟩
      rcases List.mem_append.mp hx with hx | hx
      · exact absurd ((h x hx).symm.trans hPx) (by decide)
      · exact hmax' x hx hPx
    | some z =>
      obtain ⟨hz, hPz, hmax⟩ := h
      rw [later]
      split_ifs with hlt
      · refine ⟨List.mem_append_right _ hz', hPz', fun x hx hPx => ?_⟩
        rcases List.mem_append.mp hx with hx | hx
        · exact (hmax x hx hPx).trans hlt.le
        · exact hmax' x hx hPx
      · refine ⟨List.mem_append_left _ hz, hPz, fun x hx hPx => ?_⟩
        rcases List.mem_append.mp hx with hx | hx
        · exact hmax x hx hPx
        · exact (hmax' x hx hPx).trans (not_lt.mp hlt)

/-- The loop over the sets finds the greatest key in front of the cut. -/
theorem Wf.prevLoop (h : b.Wf) (hP : IsCut P) (hperm : runs.Perm (cutRuns P b.sets))
    {l : List SetKey} (hl : ∀ x ∈ l, x ∈ b.nodeKeys) {z : Option SetKey} (hz : Latest P l z)
    {sets : List IterBset} (hsets : ∀ s ∈ sets, s ∈ b.sets) :
    ∃ z', b.prevLoop (cursors runs) (z.map fun x => (x.off, x.stop)) sets =
        some (z'.map fun x => (x.off, x.stop)) ∧
      Latest P (l ++ sets.flatMap IterBset.nodeKeys) z' := by
  induction sets generalizing l z with
  | nil => exact ⟨z, by cases z <;> rfl, by simpa using hz⟩
  | cons s sets ih =>
    obtain ⟨hs, hsets⟩ := List.forall_mem_cons.mp hsets
    have hmem : ∀ x ∈ l ++ s.nodeKeys, x ∈ b.nodeKeys := fun x hx =>
      (List.mem_append.mp hx).elim (hl x) fun hx => mem_nodeKeys.mpr ⟨s, hs, hx⟩
    rw [List.flatMap_cons, ← List.append_assoc]
    rcases h.prevAll_cut hP hperm hs with ⟨hall, hprev⟩ | ⟨A, y, hkeys, hPy, hA, hprev⟩
    · have hnext : Latest P (l ++ s.nodeKeys) (later z none) := hz.append hall
      rw [show later z none = z by cases z <;> rfl] at hnext
      obtain ⟨z', hloop, hlatest⟩ := ih hmem hnext hsets
      refine ⟨z', ?_, hlatest⟩
      rw [IterNode.prevLoop, hprev]
      exact hloop
    · have hys : y ∈ s.nodeKeys := by
        rw [hkeys]
        simp
      have hlast : Latest P s.nodeKeys (some y) := by
        refine ⟨hys, hPy, fun x hx hPx => ?_⟩
        have hsorted := h.rank_pairwise hs
        rw [hkeys] at hx hsorted
        rcases List.mem_append.mp hx with hx | hx
        · exact ((List.pairwise_append.mp hsorted).2.2 x hx y List.mem_cons_self).le
        · rcases List.mem_cons.mp hx with rfl | hx
          · exact le_rfl
          · exact absurd ((List.of_mem_filter hx).symm.trans hPx) (by decide)
      obtain ⟨z', hloop, hlatest⟩ := ih hmem (hz.append hlast) hsets
      refine ⟨z', ?_, hlatest⟩
      have hstop := (IterBset.mem_nodeKeys.mp hys).1
      rw [← hloop, IterNode.prevLoop, hprev]
      cases z with
      | none => simp [later, hstop]
      | some z =>
        have hcmp := SetKey.bkeyIterCmp_pos_iff y z
        simp only [SetKey.ranked] at hcmp
        simp only [Option.bind_eq_bind, Option.bind_some, Option.map_some,
          h.keyAt (mem_nodeKeys.mpr ⟨s, hs, hys⟩), h.keyAt (hl z hz.1), gt_iff_lt, hcmp, later,
          ← hstop]
        split_ifs <;> rfl

/-- The greatest key of a set in front of the cut comes right before it. -/
theorem Wf.exists_last (h : b.Wf) (hP : IsCut P) (hs : s ∈ b.sets) (hys : y ∈ s.nodeKeys)
    (hPy : P y = false) (hmax : ∀ x ∈ s.nodeKeys, P x = false → x.rank ≤ y.rank) :
    ∃ A, s.nodeKeys = A ++ y :: s.nodeKeys.filter P := by
  obtain ⟨A, hA, hAP⟩ := h.exists_cut hP hs
  have hyA : y ∈ A := by
    rw [hA] at hys
    refine (List.mem_append.mp hys).resolve_right fun hmem => ?_
    exact absurd ((List.of_mem_filter hmem).symm.trans hPy) (by decide)
  obtain ⟨A', C, rfl⟩ := List.append_of_mem hyA
  cases C with
  | nil => exact ⟨A', by rwa [← List.append_cons] at hA⟩
  | cons x C =>
    have hsorted := h.rank_pairwise hs
    rw [hA, List.append_assoc] at hsorted
    have hlt := (List.pairwise_cons.mp (List.pairwise_append.mp hsorted).2.1).1 x (by simp)
    have hx : x ∈ s.nodeKeys := by
      rw [hA]
      simp
    exact absurd (hmax x hx (hAP x (by simp))) hlt.not_ge

/-- A run of a set that begins one key further to the front. -/
theorem Wf.atCut_cons (h : b.Wf) (hP : IsCut P) (hheads : HeadsSorted SetKey.rank runs)
    (hperm : runs.Perm (cutRuns P b.sets)) (hs : s ∈ b.sets) {A : List SetKey}
    (hkeys : s.nodeKeys = A ++ y :: s.nodeKeys.filter P) (hPy : P y = false)
    {others : List (MergeRun SetKey)} (hothers : others.Sublist runs)
    (hoff : ∀ q ∈ others, q.1.stop ≠ s.set.endOffset)
    (helems : (runs.flatMap MergeRun.elems).Perm
      (s.nodeKeys.filter P ++ others.flatMap MergeRun.elems))
    {Q : SetKey → Bool} (hQ : (y :: b.nodeKeys.filter P).Perm (b.nodeKeys.filter Q)) :
    others.length < maxBsets ∧
      b.AtCut Q (⟨y.off, s.set.endOffset⟩ :: cursors others) := by
  have hruns := (h.runsOf_cut hP).perm hperm
  have hys : y ∈ s.nodeKeys := by
    rw [hkeys]
    simp
  have hstop := (IterBset.mem_nodeKeys.mp hys).1
  have hruns' : b.RunsOf ((y, s.nodeKeys.filter P) :: others) := by
    refine ⟨List.forall_mem_cons.mpr ⟨⟨s, hs, A, hkeys.symm⟩, fun r hr => ?_⟩, ?_⟩
    · exact hruns.suffix r (hothers.subset hr)
    · refine List.nodup_cons.mpr ⟨fun hmem => ?_, hruns.stops.sublist (hothers.map _)⟩
      obtain ⟨q, hq, heq⟩ := List.mem_map.mp hmem
      exact hoff q hq (heq.trans hstop)
  have hheads' : HeadsSorted SetKey.rank ((y, s.nodeKeys.filter P) :: others) := by
    refine List.pairwise_cons.mpr ⟨fun r hr => ?_, hheads.sublist hothers⟩
    obtain ⟨t, -, hrun⟩ := List.mem_filterMap.mp (hperm.mem_iff.mp (hothers.subset hr))
    have hmem : r.1 ∈ t.nodeKeys.filter P := by
      rw [runOf_eq_some_iff.mp hrun]
      exact List.mem_cons_self
    exact (hP r.1 y (List.of_mem_filter hmem) hPy).le
  have hlen := hruns'.length_le h
  rw [List.length_cons] at hlen
  have hall : (runs.flatMap MergeRun.elems).Perm (b.nodeKeys.filter P) := by
    refine (hperm.flatMap_right _).trans ?_
    rw [cutRuns, flatMap_filterMap_runOf, nodeKeys, List.filter_flatMap]
  have hcut := h.atCut_of_runs hruns' hheads'
    (((helems.symm.trans hall).cons y).trans hQ)
  rw [cursors_cons, hstop] at hcut
  exact ⟨hlen, hcut⟩

/-- `bch2_btree_node_iter_prev_all` returns nothing when nothing was passed. -/
theorem Between.iterPrevAll_nil (h : b.Between [] back iter) (hb : b.Wf) :
    b.iterPrevAll iter = some (none, iter) := by
  obtain ⟨runs, rfl, -, hperm⟩ := h.cut
  obtain ⟨z, hloop, hlatest⟩ := hb.prevLoop (isCut_behind []) hperm (l := []) (z := none)
    (by simp) (by simp [Latest]) (fun s hs => hs)
  rw [List.nil_append] at hlatest
  cases z with
  | none =>
    rw [Option.map_none] at hloop
    rw [IterNode.iterPrevAll, hloop]
    rfl
  | some z => exact absurd hlatest.2.1 (by simp [behind])

/-- `bch2_btree_node_iter_prev_all` returns the last key that was passed and moves in front of
it. -/
theorem Between.iterPrevAll (h : b.Between (front ++ [y]) back iter) (hb : b.Wf) :
    ∃ iter', b.iterPrevAll iter = some (some y.off, iter') ∧ b.Between front (y :: back) iter' := by
  have hkeys : (front ++ y :: back).Perm b.nodeKeys := by
    rw [List.append_cons]
    exact h.keys
  have hsorted : (front ++ y :: back).Pairwise fun x y => x.rank < y.rank := by
    rw [List.append_cons]
    exact h.sorted
  have hcut := isCut_behind (front ++ [y])
  obtain ⟨runs, rfl, hheads, hperm⟩ := h.cut
  have hruns := (hb.runsOf_cut hcut).perm hperm
  obtain ⟨z, hloop, hlatest⟩ := hb.prevLoop hcut hperm (l := []) (z := none) (by simp)
    (by simp [Latest]) (fun s hs => hs)
  rw [List.nil_append] at hlatest
  have hPy : behind (front ++ [y]) y = false := behind_front (by simp)
  have hy : y ∈ b.nodeKeys := h.mem (by simp)
  -- The key that the loop finds is the last one that was passed.
  obtain rfl : z = some y := by
    cases z with
    | none => exact absurd ((hlatest y hy).symm.trans hPy) (by decide)
    | some z =>
      obtain ⟨hz, hPz, hmax⟩ := hlatest
      have hzfront : z ∈ front ++ [y] := by
        rcases List.mem_append.mp (h.keys.mem_iff.mpr hz) with hz | hz
        · exact hz
        · exact absurd ((behind_back h.sorted hz).symm.trans hPz) (by decide)
      rcases List.mem_append.mp hzfront with hzfront | hzlast
      · have hlt := (List.pairwise_append.mp hsorted).2.2 z hzfront y List.mem_cons_self
        exact absurd (hmax y hy hPy) hlt.not_ge
      · rw [List.mem_singleton.mp hzlast]
  obtain ⟨s, hs, hys⟩ := mem_nodeKeys.mp hy
  obtain ⟨A, hA⟩ := hb.exists_last hcut hs hys hPy fun x hx hPx =>
    hlatest.2.2 x (mem_nodeKeys.mpr ⟨s, hs, hx⟩) hPx
  have hQ : (y :: b.nodeKeys.filter (behind (front ++ [y]))).Perm
      (b.nodeKeys.filter (behind front)) :=
    ((filter_behind h.keys h.sorted).symm.cons y).trans (filter_behind hkeys hsorted)
  have hstop := (IterBset.mem_nodeKeys.mp hys).1
  rw [IterNode.iterPrevAll, show (none : Option (ℕ × ℕ)) = (none : Option SetKey).map
    (fun x => (x.off, x.stop)) from rfl, hloop, Option.map_some, hstop]
  simp only [Option.bind_eq_bind, Option.bind_some]
  cases hrun : runOf (s.nodeKeys.filter (behind (front ++ [y]))) with
  | none =>
    have hempty : s.nodeKeys.filter (behind (front ++ [y])) = [] := by
      cases hlist : s.nodeKeys.filter (behind (front ++ [y])) with
      | nil => rfl
      | cons x l => rw [hlist] at hrun; cases hrun
    obtain ⟨hlen, hnext⟩ := hb.atCut_cons hcut hheads hperm hs hA hPy (List.Sublist.refl runs)
      (hb.stop_ne hperm hs hrun) (by rw [hempty, List.nil_append]) hQ
    rw [hb.setFind_none hperm hs hrun, length_cursors]
    simp only [if_pos hlen]
    exact ⟨_, rfl, hkeys, hsorted, hnext⟩
  | some r =>
    obtain ⟨A', B', rfl, hfind⟩ := hb.setFind_some hperm hs hrun
    have hr : r.elems = s.nodeKeys.filter (behind (front ++ [y])) :=
      (runOf_eq_some_iff.mp hrun).symm
    have hstops := hruns.stops
    rw [(List.perm_middle.map _).nodup_iff, List.map_cons, List.nodup_cons] at hstops
    have hoff : ∀ q ∈ A' ++ B', q.1.stop ≠ s.set.endOffset := by
      intro q hq heq
      have hrs : r.1 ∈ s.nodeKeys.filter (behind (front ++ [y])) := hr ▸ List.mem_cons_self
      have hrstop := (IterBset.mem_nodeKeys.mp (List.mem_of_mem_filter hrs)).1
      exact hstops.1 (List.mem_map.mpr ⟨q, hq, heq.trans hrstop.symm⟩)
    have helems : ((A' ++ r :: B').flatMap MergeRun.elems).Perm
        (s.nodeKeys.filter (behind (front ++ [y])) ++ (A' ++ B').flatMap MergeRun.elems) := by
      rw [← hr]
      exact (List.perm_middle.flatMap_right _)
    obtain ⟨-, hnext⟩ := hb.atCut_cons hcut hheads hperm hs hA hPy
      (List.Sublist.append_left (List.sublist_cons_self r B') A') hoff helems hQ
    rw [hfind]
    rw [cursors_append] at hnext
    exact ⟨_, rfl, hkeys, hsorted, hnext⟩

end IterNode

end Subvol

import Subvol.Btree.NodeIterInit

/-!
# Fixing node iterators after an edit

After a key of the last set has been inserted, replaced or deleted, `bch2_btree_node_iter_fix` moves
the cursor that an iterator has in that set, or makes one or takes it away, and puts the cursors in
order again. The iterator of a path then denotes the keys of the edited node that are not below the
position of the path.

## Main definitions

* `BsetCall.SamePosition`: a key takes the place of one at its position.

## Main results

* `IterNode.bch2BtreeNodeIterFix_denotes`: all iterators that are fixed denote the keys of the
  edited node.
-/

namespace Subvol

open Lib

namespace IterNode

variable {b : IterNode} {P : SetKey → Bool} {s : IterBset} {runs : List (MergeRun SetKey)}

/-! ### The loop over the other sets -/

/-- No key before the cut is above one behind it. -/
theorem Wf.stepBack (h : b.Wf) (hP : IsCut P) (hperm : runs.Perm (cutRuns P b.sets))
    (hs : s ∈ b.sets) {x : SetKey} (hx : P x = true) (fuel : ℕ) :
    b.stepBack s x.ranked (fuel + 1) (bsetPos (cursors runs) s) false =
      some (bsetPos (cursors runs) s, false) := by
  rw [IterNode.stepBack]
  rcases h.prevAll_cut hP hperm hs with ⟨-, hprev⟩ | ⟨A, y, hkeys, hPy, -, hprev⟩
  · rw [hprev]
    rfl
  · have hys : y ∈ s.nodeKeys := by
      rw [hkeys]
      simp
    have hkey := h.keyAt (mem_nodeKeys.mpr ⟨s, hs, hys⟩)
    have hcmp : bkeyIterCmp x.ranked y.ranked ≥ 0 :=
      ((SetKey.bkeyIterCmp_pos_iff x y).mpr (hP x y hx hPy)).le
    simp only [hprev, Option.bind_eq_bind, Option.bind_some, hkey]
    rw [show (y.off, y.key) = y.ranked from rfl, if_pos hcmp]
    rfl

theorem Wf.fixOthers (h : b.Wf) (hP : IsCut P) (hperm : runs.Perm (cutRuns P b.sets))
    {x : SetKey} (hx : P x = true) {sets : List IterBset} (hsets : ∀ s ∈ sets, s ∈ b.sets) :
    b.fixOthers x.ranked sets (cursors runs) = some (cursors runs) := by
  induction sets with
  | nil => rfl
  | cons s sets ih =>
    obtain ⟨hs, hsets⟩ := List.forall_mem_cons.mp hsets
    rw [IterNode.fixOthers]
    split_ifs with hfront
    · exact ih hsets
    · rw [h.stepBack hP hperm hs hx, Option.bind_eq_bind, Option.bind_some]
      exact ih hsets

end IterNode

/-! ### Edits of a set -/

/-- A key that takes the place of another one has its position. -/
def BsetCall.SamePosition (s : RwBset) (call : BsetCall) : Prop :=
  ∀ k rest new, s.keysAt call.place = some (k :: rest) → call.clobber = k.u64s →
    call.newKeys s = [new] → new.pos = k.pos

/-- The words that a call writes. -/
def BsetCall.newWords (s : RwBset) (call : BsetCall) : ℕ := total BkeyPacked.u64s (call.newKeys s)

/-- What an edit of a set changes: the keys `mid` give way to the keys `new`. -/
structure SetEdit (s s' : IterBset) (pre mid new post : List BkeyPacked) : Prop where
  keys : s.set.keys = pre ++ (mid ++ post)
  keys' : s'.set.keys = pre ++ (new ++ post)
  dataOffset : s'.set.dataOffset = s.set.dataOffset
  mid_length : mid.length ≤ 1
  new_length : new.length ≤ 1

theorem SetEdit.endOffset {s s' : IterBset} {pre mid new post : List BkeyPacked}
    (h : SetEdit s s' pre mid new post) :
    s'.set.endOffset + total BkeyPacked.u64s mid = s.set.endOffset + total BkeyPacked.u64s new := by
  simp only [RwBset.endOffset, RwBset.firstOffset, h.keys, h.keys', h.dataOffset, total_append]
  omega

theorem BsetCall.length_newKeys (s : RwBset) (call : BsetCall) : (call.newKeys s).length ≤ 1 := by
  cases call <;> simp [BsetCall.newKeys]

/-- A set that has been spliced, with any table. -/
theorem IterBset.Wf.splice {s : IterBset} (s' : IterBset) (h : s.Wf) {call : BsetCall}
    {set : RwBset} (hsplice : call.Edits s.set set)
    (hset : s'.set = { set with tree := s'.set.tree })
    (hfits : set.endOffset < 2 ^ 16) (hsorted : s'.set.keys.Pairwise fun a b => a.pos < b.pos) :
    s'.set.Wf ∧ ∃ pre mid post, SetEdit s s' pre mid (call.newKeys s.set) post ∧
      total BkeyPacked.u64s mid = call.clobber ∧
      call.place = s.set.firstOffset + total BkeyPacked.u64s pre := by
  obtain ⟨pre, mid, post, hkeys, hmid, hclobber, hplace, -, rfl⟩ := h.set.splice_cases hsplice
  have hkeys' : s'.set.keys = pre ++ (call.newKeys s.set ++ post) := by rw [hset]
  have hdata : s'.set.dataOffset = s.set.dataOffset := by rw [hset]
  have hformat : s'.set.format = s.set.format := by rw [hset]
  have hend : s'.set.endOffset < 2 ^ 16 := by
    rw [hset]
    exact hfits
  refine ⟨⟨hsorted, fun k hk => ?_, hend⟩, pre, mid, post,
    ⟨hkeys, hkeys', hdata, hmid, call.length_newKeys _⟩, hclobber, hplace⟩
  rw [hformat]
  rw [hkeys'] at hk
  exact h.set.stored_splice hkeys (fun k hk => BsetCall.newKeys_stored hk) hk

/-- What a call does to a set without a table or with one to write to. -/
theorem IterBset.Wf.exec_edit {s s' : IterBset} (h : s.Wf) (hro : ∀ t, s.aux ≠ .ro t)
    {call : BsetCall} (hsame : call.SamePosition s.set) (hexec : s.exec call = some s')
    (hsorted : s'.set.keys.Pairwise fun a b => a.pos < b.pos) :
    s'.Wf ∧ ∃ pre mid post, SetEdit s s' pre mid (call.newKeys s.set) post ∧
      total BkeyPacked.u64s mid = call.clobber ∧
      call.place = s.set.firstOffset + total BkeyPacked.u64s pre := by
  have htable := h.table
  obtain ⟨set', hset, rfl⟩ := Option.map_eq_some_iff.mp hexec
  rw [IterBset.TableNames] at htable
  rw [IterBset.execSet] at hset
  have hkind : s.aux = .noAux ∨ s.aux = .rw := by
    cases haux : s.aux with
    | noAux => exact Or.inl rfl
    | ro t => exact absurd haux (hro t)
    | rw => exact Or.inr rfl
  rcases hkind with haux | haux
  · simp only [haux] at hset
    obtain ⟨set, hsplice, hend⟩ := Option.bind_eq_some_iff.mp hset
    obtain ⟨rfl, hfits⟩ : set' = set ∧ set.endOffset < 2 ^ 16 := by
      split_ifs at hend with hne
      · rw [setBtreeBsetEnd] at hend
        split_ifs at hend with hlt
        exact ⟨(Option.some.inj hend).symm, hlt⟩
      · rw [not_not] at hne
        exact ⟨(Option.some.inj hend).symm, hne ▸ h.set.fits⟩
    obtain ⟨hwf, hedit⟩ := h.splice { s with set := set' } hsplice rfl hfits hsorted
    exact ⟨⟨hwf, by simp [IterBset.TableNames, haux]⟩, hedit⟩
  · simp only [haux] at hset htable
    obtain ⟨set, hsplice, hfits⟩ := BsetCall.edits_of_exec h.set hset
    have hkeeps := BsetCall.exec_spec h.set htable
      (fun k rest new hat hclobber hnew _ => hsame k rest new hat hclobber hnew) hsplice hfits
    obtain ⟨set'', hset'', -, hok, -⟩ := hkeeps.tree
    obtain rfl := Option.some.inj (hset.symm.trans hset'')
    obtain ⟨e, es, hset'', -, -⟩ := hkeeps
    obtain rfl := Option.some.inj (hset.symm.trans hset'')
    obtain ⟨hwf, hedit⟩ :=
      h.splice { s with set := { set with tree := e :: es } } hsplice rfl hfits hsorted
    exact ⟨⟨hwf, by simpa [IterBset.TableNames, haux] using hok⟩, hedit⟩

/-! ### The cursor of the edited set -/

namespace IterNode

/-- The node with a last set behind others. -/
abbrev endingIn (olds : List IterBset) (level : ℕ) (s : IterBset) : IterNode := ⟨olds ++ [s], level⟩

section Edit

variable {olds : List IterBset} {s s' : IterBset} {level : ℕ} {p : Bpos}
  {pre mid new post : List BkeyPacked}

theorem cutRuns_concat (P : SetKey → Bool) (olds : List IterBset) (s : IterBset) :
    cutRuns P (olds ++ [s]) = cutRuns P olds ++ (runOf (s.nodeKeys.filter P)).toList := by
  rw [cutRuns, List.filterMap_append]
  rfl

/-- The run of a set whose first seen key is known. -/
theorem runOf_first (h : s.Wf) {front back : List BkeyPacked} {k : BkeyPacked}
    (hkeys : s.set.keys = front ++ k :: back) (hfront : ∀ k ∈ front, sees p k = false)
    (hk : sees p k = true) : ∃ r, runOf (s.nodeKeys.filter (notBelow p)) = some r ∧
      r.1 = ⟨s.set.firstOffset + total BkeyPacked.u64s front, k, s.set.endOffset⟩ := by
  rw [runOf_seen hkeys hfront (seen_of_cons h hkeys hk)]
  exact ⟨_, rfl, rfl⟩

/-- A set without a key that is seen. -/
theorem runOf_unseen (h : ∀ k ∈ s.set.keys, sees p k = false) :
    runOf (s.nodeKeys.filter (notBelow p)) = none := by
  rw [runOf_seen (List.append_nil _).symm h (by simp)]
  rfl

/-- Whether the new key is seen. -/
theorem newKeyAbove_eq (h' : (endingIn olds level s').Wf)
    (hedit : SetEdit s s' pre mid new post) :
    (endingIn olds level s').newKeyAbove p
        (s.set.firstOffset + total BkeyPacked.u64s pre) (total BkeyPacked.u64s new) =
      some (new.any (sees p)) := by
  have hs' : s' ∈ olds ++ [s'] := by simp
  match new, hedit.new_length with
  | [], _ => rfl
  | [n], _ =>
    have hn : 0 < n.u64s := (h'.sets s' hs').u64s_pos n (by simp [hedit.keys'])
    have hmem : (⟨s'.set.firstOffset + total BkeyPacked.u64s pre, n, s'.set.endOffset⟩ : SetKey) ∈
        (endingIn olds level s').nodeKeys := by
      refine mem_nodeKeys.mpr ⟨s', hs', ?_⟩
      rw [IterBset.nodeKeys, hedit.keys', keysOn_append]
      exact List.mem_append_right _ List.mem_cons_self
    have hkey := h'.keyAt hmem
    rw [newKeyAbove, if_pos (by rw [total_cons]; omega)]
    rw [RwBset.firstOffset, hedit.dataOffset] at hkey
    simp only [RwBset.firstOffset, hkey, Option.map_some, List.any_cons, List.any_nil,
      Bool.or_false]
    rfl

theorem perm_concat {P : SetKey → Bool} {front back : List (MergeRun SetKey)}
    {r' : MergeRun SetKey} (hperm : (front ++ back).Perm (cutRuns P olds))
    (hrun : runOf (s'.nodeKeys.filter P) = some r') :
    (front ++ r' :: back).Perm (cutRuns P (olds ++ [s'])) := by
  rw [cutRuns_concat, hrun]
  exact List.perm_middle.trans ((hperm.cons r').trans (List.perm_append_singleton r' _).symm)

/-- A cursor with the same first key, but another end. -/
theorem atCut_replace {P : SetKey → Bool} {front back : List (MergeRun SetKey)}
    {r r' : MergeRun SetKey} (hsorted : HeadsSorted SetKey.rank (front ++ r :: back))
    (hrank : r'.1.rank = r.1.rank) (hperm : (front ++ back).Perm (cutRuns P olds))
    (hrun : runOf (s'.nodeKeys.filter P) = some r') :
    (endingIn olds level s').AtCut P (cursors (front ++ r' :: back)) := by
  refine ⟨_, rfl, ?_, ?_⟩
  · have hranks : ∀ runs : List (MergeRun SetKey), HeadsSorted SetKey.rank runs ↔
        (runs.map fun r => r.1.rank).Pairwise (· ≤ ·) := fun runs => List.pairwise_map.symm
    rw [hranks, List.map_append, List.map_cons] at hsorted ⊢
    rwa [hrank]
  · exact perm_concat hperm hrun

/-- A set that had no key behind the cut. -/
theorem fixSet_unseen (h : (endingIn olds level s).Wf)
    (h' : (endingIn olds level s').Wf) (hedit : SetEdit s s' pre mid new post)
    {iter : BtreeNodeIter} (hcut : (endingIn olds level s).AtCut (notBelow p) iter)
    (hold : ∀ k ∈ s.set.keys, sees p k = false) :
    ∃ iter', (endingIn olds level s').fixSet s' p iter
        (s.set.firstOffset + total BkeyPacked.u64s pre) (total BkeyPacked.u64s mid)
        (total BkeyPacked.u64s new) = some iter' ∧
      (endingIn olds level s').AtCut (notBelow p) iter' := by
  obtain ⟨runs, rfl, hsorted, hperm⟩ := hcut
  have hs' : s' ∈ olds ++ [s'] := by simp
  have hend := hedit.endOffset
  have holdEnd : ((s'.set.endOffset : ℤ) - ((total BkeyPacked.u64s new : ℤ) -
      total BkeyPacked.u64s mid)).toNat = s.set.endOffset := by omega
  have hnone := runOf_unseen hold
  have hfind := h.setFind_none hperm (by simp) hnone
  rw [cutRuns_concat, hnone, Option.toList_none, List.append_nil] at hperm
  rw [hedit.keys] at hold
  rw [fixSet, newKeyAbove_eq h' hedit]
  simp only [holdEnd, hfind, Option.bind_eq_bind, Option.bind_some]
  by_cases habove : new.any (sees p) = true
  · -- The new key is the only one that is seen, and gets a cursor.
    obtain ⟨n, rfl⟩ : ∃ n, new = [n] := by
      have hlength := hedit.new_length
      rcases new with - | ⟨n, - | ⟨n', new⟩⟩
      · simp at habove
      · exact ⟨n, rfl⟩
      · simp at hlength
    have hn : sees p n = true := by simpa using habove
    have hpre : ∀ k ∈ pre, sees p k = false := fun k hk => hold k (List.mem_append_left _ hk)
    obtain ⟨r, hrun, hr⟩ := runOf_first (h'.sets s' hs') hedit.keys' hpre hn
    have hnew : (runs ++ [r]).Perm (cutRuns (notBelow p) (olds ++ [s'])) :=
      perm_concat (by rwa [List.append_nil]) hrun
    have hlen := ((h'.runsOf_cut (isCut_notBelow p)).perm hnew).length_le h'
    rw [List.length_append, List.length_singleton] at hlen
    have hlt : s.set.firstOffset + total BkeyPacked.u64s pre ≠ s'.set.endOffset := by
      have := (h'.sets s' hs').u64s_pos n (by simp [hedit.keys'])
      simp only [RwBset.endOffset, RwBset.firstOffset, hedit.keys', hedit.dataOffset, total_append,
        total_cons]
      omega
    have hpush : iterPushRaw (cursors runs) (s.set.firstOffset + total BkeyPacked.u64s pre)
        s'.set.endOffset = some (cursors (runs ++ [r])) := by
      rw [iterPushRaw, if_neg hlt, if_pos (by rw [length_cursors]; omega)]
      simp [cursors, hr, RwBset.firstOffset, hedit.dataOffset, SetKey.cursor]
    rw [if_pos habove, iterPush, hpush, Option.bind_eq_bind, Option.bind_some]
    exact h'.iterSort_cut (isCut_notBelow p) hnew
  · rw [if_neg habove]
    refine ⟨_, rfl, runs, rfl, hsorted, ?_⟩
    have hunseen : ∀ k ∈ s'.set.keys, sees p k = false := by
      intro k hk
      rw [hedit.keys', List.mem_append, List.mem_append] at hk
      rcases hk with hk | hk | hk
      · exact hold k (by simp [hk])
      · simpa using mt (List.any_eq_true.mpr ⟨k, hk, ·⟩) habove
      · exact hold k (by simp [hk])
    rwa [cutRuns_concat, runOf_unseen hunseen, Option.toList_none, List.append_nil]

/-- A cursor that is moved, and the cursors put in order. -/
theorem iterSort_put (h' : (endingIn olds level s').Wf) {front back : List (MergeRun SetKey)}
    {r' : MergeRun SetKey} (hperm : (front ++ back).Perm (cutRuns (notBelow p) olds))
    (hrun : runOf (s'.nodeKeys.filter (notBelow p)) = some r') :
    ∃ iter', (endingIn olds level s').iterSort
        (cursors front ++ ⟨r'.1.off, r'.1.stop⟩ :: cursors back) = some iter' ∧
      (endingIn olds level s').AtCut (notBelow p) iter' := by
  rw [← cursors_cons, ← cursors_append]
  exact h'.iterSort_cut (isCut_notBelow p) (perm_concat hperm hrun)

/-- What there is to fix in a set with a first seen key. -/
theorem fixSet_eq (h : (endingIn olds level s).Wf) (h' : (endingIn olds level s').Wf)
    (hedit : SetEdit s s' pre mid new post) {runs : List (MergeRun SetKey)}
    (hperm : runs.Perm (cutRuns (notBelow p) (olds ++ [s]))) {r : MergeRun SetKey}
    (hrun : runOf (s.nodeKeys.filter (notBelow p)) = some r) {where_ : ℕ}
    (hwhere : where_ = s.set.firstOffset + total BkeyPacked.u64s pre) :
    ∃ front back, runs = front ++ r :: back ∧ (front ++ back).Perm (cutRuns (notBelow p) olds) ∧
      (endingIn olds level s').fixSet s' p (cursors runs) where_ (total BkeyPacked.u64s mid)
          (total BkeyPacked.u64s new) =
        if where_ ≤ r.1.off then
          if new.any (sees p) = true then
            (endingIn olds level s').iterSort
              (cursors front ++ ⟨where_, s'.set.endOffset⟩ :: cursors back)
          else if r.1.off < min (where_ + total BkeyPacked.u64s mid) (2 ^ 16 - 1) then
            let k := min (where_ + total BkeyPacked.u64s new) (2 ^ 16 - 1)
            (endingIn olds level s').iterSort
              (if k = s'.set.endOffset then cursors front ++ cursors back
                else cursors front ++ ⟨k, s'.set.endOffset⟩ :: cursors back)
          else (endingIn olds level s').iterSort
            (cursors front ++ ⟨(((r.1.off : ℤ) + ((total BkeyPacked.u64s new : ℤ) -
              total BkeyPacked.u64s mid)) % 2 ^ 16).toNat, s'.set.endOffset⟩ :: cursors back)
        else some (cursors front ++ ⟨r.1.off, s'.set.endOffset⟩ :: cursors back) := by
  have hend := hedit.endOffset
  have holdEnd : ((s'.set.endOffset : ℤ) - ((total BkeyPacked.u64s new : ℤ) -
      total BkeyPacked.u64s mid)).toNat = s.set.endOffset := by omega
  obtain ⟨front, back, rfl, hfind⟩ := h.setFind_some hperm (by simp) hrun
  refine ⟨front, back, rfl, ?_, ?_⟩
  · rw [cutRuns_concat, hrun] at hperm
    exact (List.perm_middle.symm.trans (hperm.trans (List.perm_append_singleton r _))).cons_inv
  · rw [fixSet, hwhere, newKeyAbove_eq h' hedit]
    simp only [holdEnd, hfind, Option.bind_eq_bind, Option.bind_some, SetKey.cursor]

/-- The first seen key is before the place of the edit. -/
theorem fixSet_before (h : (endingIn olds level s).Wf) (h' : (endingIn olds level s').Wf)
    (hedit : SetEdit s s' pre mid new post) {iter : BtreeNodeIter}
    (hcut : (endingIn olds level s).AtCut (notBelow p) iter) {A C : List BkeyPacked}
    {k : BkeyPacked} (hpre : pre = A ++ k :: C) (hA : ∀ k ∈ A, sees p k = false)
    (hk : sees p k = true) :
    ∃ iter', (endingIn olds level s').fixSet s' p iter
        (s.set.firstOffset + total BkeyPacked.u64s pre) (total BkeyPacked.u64s mid)
        (total BkeyPacked.u64s new) = some iter' ∧
      (endingIn olds level s').AtCut (notBelow p) iter' := by
  obtain ⟨runs, rfl, hsorted, hperm⟩ := hcut
  have hs : s ∈ olds ++ [s] := by simp
  have hs' : s' ∈ olds ++ [s'] := by simp
  have hpos := (h.sets s hs).u64s_pos k (by simp [hedit.keys, hpre])
  obtain ⟨r, hrun, hr⟩ := runOf_first (h.sets s hs)
    (by rw [hedit.keys, hpre, List.append_assoc]; rfl) hA hk
  obtain ⟨r', hrun', hr'⟩ := runOf_first (h'.sets s' hs')
    (by rw [hedit.keys', hpre, List.append_assoc]; rfl) hA hk
  obtain ⟨front, back, rfl, hperm', hfix⟩ := fixSet_eq h h' hedit hperm hrun rfl
  rw [RwBset.firstOffset, hedit.dataOffset] at hr'
  have hoff : r.1.off < s.set.firstOffset + total BkeyPacked.u64s pre := by
    simp only [hr, hpre, total_append, total_cons]
    omega
  rw [if_neg hoff.not_ge] at hfix
  refine ⟨_, hfix, ?_⟩
  have hrank : r'.1.rank = r.1.rank := by
    rw [hr, hr']
    rfl
  have hcursor : (⟨r.1.off, s'.set.endOffset⟩ : BtreeNodeIterSet) = ⟨r'.1.off, r'.1.stop⟩ := by
    rw [hr, hr']
    rfl
  rw [hcursor, ← cursors_cons, ← cursors_append]
  exact atCut_replace hsorted hrank hperm' hrun'

/-- The first seen key is at the place of the edit or behind it. -/
theorem fixSet_behind (h : (endingIn olds level s).Wf) (h' : (endingIn olds level s').Wf)
    (hedit : SetEdit s s' pre mid new post) {iter : BtreeNodeIter}
    (hcut : (endingIn olds level s).AtCut (notBelow p) iter) {D B : List BkeyPacked}
    {k : BkeyPacked} (hsplit : mid ++ post = D ++ k :: B) (hpre : ∀ k ∈ pre, sees p k = false)
    (hD : ∀ k ∈ D, sees p k = false) (hk : sees p k = true) :
    ∃ iter', (endingIn olds level s').fixSet s' p iter
        (s.set.firstOffset + total BkeyPacked.u64s pre) (total BkeyPacked.u64s mid)
        (total BkeyPacked.u64s new) = some iter' ∧
      (endingIn olds level s').AtCut (notBelow p) iter' := by
  obtain ⟨runs, rfl, hsorted, hperm⟩ := hcut
  have hs : s ∈ olds ++ [s] := by simp
  have hs' : s' ∈ olds ++ [s'] := by simp
  have hpos := (h.sets s hs).u64s_pos k (by simp [hedit.keys, hsplit])
  have hfits := (h.sets s hs).set.fits
  have hfits' := (h'.sets s' hs').set.fits
  have hfirst : s'.set.firstOffset = s.set.firstOffset := by
    rw [RwBset.firstOffset, hedit.dataOffset, RwBset.firstOffset]
  have hkeys : s.set.keys = (pre ++ D) ++ k :: B := by
    rw [hedit.keys, hsplit, List.append_assoc]
  have hfront : ∀ k ∈ pre ++ D, sees p k = false :=
    fun x hx => (List.mem_append.mp hx).elim (hpre x) (hD x)
  obtain ⟨r, hrun, hr⟩ := runOf_first (h.sets s hs) hkeys hfront hk
  obtain ⟨front, back, rfl, hperm', hfix⟩ := fixSet_eq h h' hedit hperm hrun rfl
  have hoff : r.1.off =
      s.set.firstOffset + (total BkeyPacked.u64s pre + total BkeyPacked.u64s D) := by
    rw [hr, total_append]
  rw [hfix, if_pos (by omega)]
  by_cases habove : new.any (sees p) = true
  · -- The new key is the first one that is seen.
    obtain ⟨n, rfl⟩ : ∃ n, new = [n] := by
      have hlength := hedit.new_length
      rcases new with - | ⟨n, - | ⟨n', new⟩⟩
      · simp at habove
      · exact ⟨n, rfl⟩
      · simp at hlength
    obtain ⟨r', hrun', hr'⟩ :=
      runOf_first (h'.sets s' hs') hedit.keys' hpre (by simpa using habove)
    have hput := iterSort_put h' hperm' hrun'
    rw [hr', hfirst] at hput
    rw [if_pos habove]
    exact hput
  · rw [if_neg habove]
    have hnew : ∀ k ∈ new, sees p k = false :=
      fun k hk => by simpa using mt (List.any_eq_true.mpr ⟨k, hk, ·⟩) habove
    have hcase : (D = [] ∧ mid = [k] ∧ post = B) ∨ ∃ C, D = mid ++ C ∧ post = C ++ k :: B := by
      have hlength := hedit.mid_length
      rcases mid with - | ⟨m, - | ⟨m', mid⟩⟩
      · exact Or.inr ⟨D, rfl, hsplit⟩
      · cases D with
        | nil =>
          obtain ⟨rfl, rfl⟩ := List.cons.inj hsplit
          exact Or.inl ⟨rfl, rfl, rfl⟩
        | cons d D =>
          obtain ⟨rfl, rfl⟩ := List.cons.inj hsplit
          exact Or.inr ⟨D, rfl, rfl⟩
      · simp at hlength
    simp only [RwBset.endOffset, hfirst, hedit.keys, hedit.keys', total_append] at hfits hfits'
    rcases hcase with ⟨rfl, rfl, rfl⟩ | ⟨C, rfl, rfl⟩
    · -- The cursor was at the clobbered key.
      simp only [total_cons, total_nil, Nat.add_zero] at hfits hoff ⊢
      have hlt : r.1.off < min (s.set.firstOffset + total BkeyPacked.u64s pre + k.u64s)
          (2 ^ 16 - 1) := by omega
      have hmin : min (s.set.firstOffset + total BkeyPacked.u64s pre + total BkeyPacked.u64s new)
          (2 ^ 16 - 1) = s.set.firstOffset + total BkeyPacked.u64s (pre ++ new) := by
        rw [total_append]
        omega
      have hkeys' : s'.set.keys = (pre ++ new) ++ post := by rw [hedit.keys', List.append_assoc]
      have hfront' : ∀ x ∈ pre ++ new, sees p x = false :=
        fun x hx => (List.mem_append.mp hx).elim (hpre x) (hnew x)
      rw [if_pos hlt, hmin]
      cases post with
      | nil =>
        have hend : s.set.firstOffset + total BkeyPacked.u64s (pre ++ new) = s'.set.endOffset := by
          rw [RwBset.endOffset, hkeys', List.append_nil, hfirst]
        have hnone := runOf_unseen (s := s') (p := p) (by rwa [hkeys', List.append_nil])
        rw [if_pos hend, ← cursors_append]
        refine h'.iterSort_cut (isCut_notBelow p) ?_
        rwa [cutRuns_concat, hnone, Option.toList_none, List.append_nil]
      | cons q post =>
        have hq : sees p q = true := seen_of_cons (h.sets s hs) hkeys hk q (by simp)
        obtain ⟨r', hrun', hr'⟩ := runOf_first (h'.sets s' hs') hkeys' hfront' hq
        have hput := iterSort_put h' hperm' hrun'
        rw [hr', hfirst] at hput
        have hne : s.set.firstOffset + total BkeyPacked.u64s (pre ++ new) ≠ s'.set.endOffset := by
          have := (h'.sets s' hs').u64s_pos q (by simp [hkeys'])
          rw [RwBset.endOffset, hkeys', hfirst]
          simp only [total_append, total_cons]
          omega
        rw [if_neg hne]
        exact hput
    · -- The cursor moves with its key.
      have hmin : ¬r.1.off < min (s.set.firstOffset + total BkeyPacked.u64s pre +
          total BkeyPacked.u64s mid) (2 ^ 16 - 1) := by
        rw [hoff, total_append]
        omega
      rw [if_neg hmin]
      have hkeys' : s'.set.keys = (pre ++ (new ++ C)) ++ k :: B := by
        rw [hedit.keys', List.append_assoc, List.append_assoc]
      have hfront' : ∀ x ∈ pre ++ (new ++ C), sees p x = false := by
        intro x hx
        rcases List.mem_append.mp hx with hx | hx
        · exact hpre x hx
        · rcases List.mem_append.mp hx with hx | hx
          exacts [hnew x hx, hD x (List.mem_append_right _ hx)]
      obtain ⟨r', hrun', hr'⟩ := runOf_first (h'.sets s' hs') hkeys' hfront' hk
      have hput := iterSort_put h' hperm' hrun'
      rw [hr', hfirst] at hput
      have hmove : (((r.1.off : ℤ) + ((total BkeyPacked.u64s new : ℤ) -
          total BkeyPacked.u64s mid)) % 2 ^ 16).toNat =
            s.set.firstOffset + total BkeyPacked.u64s (pre ++ (new ++ C)) := by
        simp only [hoff, total_append, total_cons] at hfits' ⊢
        omega
      rw [hmove]
      exact hput

/-- After an edit, the cursor of the edited set is at the first seen key. -/
theorem fixSet_atCut (h : (endingIn olds level s).Wf) (h' : (endingIn olds level s').Wf)
    (hedit : SetEdit s s' pre mid new post) {iter : BtreeNodeIter}
    (hcut : (endingIn olds level s).AtCut (notBelow p) iter) :
    ∃ iter', (endingIn olds level s').fixSet s' p iter
        (s.set.firstOffset + total BkeyPacked.u64s pre) (total BkeyPacked.u64s mid)
        (total BkeyPacked.u64s new) = some iter' ∧
      (endingIn olds level s').AtCut (notBelow p) iter' := by
  obtain ⟨A, B, hkeys, hA, hB⟩ := exists_seen (h.sets s (by simp)) p
  cases B with
  | nil =>
    rw [List.append_nil] at hkeys
    exact fixSet_unseen h h' hedit hcut (hkeys ▸ hA)
  | cons k B =>
    have hk := hB k List.mem_cons_self
    obtain ⟨D, rfl, hsplit⟩ | ⟨C, rfl, hsplit⟩ :=
      List.append_eq_append_iff.mp (hedit.keys.symm.trans hkeys)
    · exact fixSet_behind h h' hedit hcut hsplit (fun x hx => hA x (List.mem_append_left _ hx))
        (fun x hx => hA x (List.mem_append_right _ hx)) hk
    · cases C with
      | nil =>
        rw [List.append_nil] at hedit ⊢
        have hsplit' : mid ++ post = [] ++ k :: B := hsplit.symm
        exact fixSet_behind h h' hedit hcut hsplit' hA (by simp) hk
      | cons c C =>
        obtain ⟨rfl, -⟩ := List.cons.inj hsplit
        exact fixSet_before h h' hedit hcut rfl hA hk

theorem iterFix_atCut (h : (endingIn olds level s).Wf) (h' : (endingIn olds level s').Wf)
    (hedit : SetEdit s s' pre mid new post) {iter : BtreeNodeIter}
    (hcut : (endingIn olds level s).AtCut (notBelow p) iter) :
    ∃ iter', (endingIn olds level s').iterFix s' p iter
        (s.set.firstOffset + total BkeyPacked.u64s pre) (total BkeyPacked.u64s mid)
        (total BkeyPacked.u64s new) = some iter' ∧
      (endingIn olds level s').AtCut (notBelow p) iter' := by
  obtain ⟨iter', hfix, runs, rfl, hsorted, hperm⟩ := fixSet_atCut h h' hedit hcut
  refine ⟨cursors runs, ?_, runs, rfl, hsorted, hperm⟩
  rw [iterFix, hfix, Option.bind_eq_bind, Option.bind_some]
  cases runs with
  | nil => rfl
  | cons r rest =>
    have hr := (h'.runsOf_cut (isCut_notBelow p)).perm hperm
    obtain ⟨t, -, hrun⟩ := List.mem_filterMap.mp (hperm.mem_iff.mp List.mem_cons_self)
    have hfront : r.1 ∈ t.nodeKeys.filter (notBelow p) := by
      rw [runOf_eq_some_iff.mp hrun]
      exact List.mem_cons_self
    have hothers := h'.fixOthers (isCut_notBelow p) hperm (List.of_mem_filter hfront) fun _ ht => ht
    change (if level ≠ 0 then ((endingIn olds level s').keyAt r.1.off).bind fun key =>
      (endingIn olds level s').fixOthers (r.1.off, key) (endingIn olds level s').sets
        (cursors (r :: rest)) else some (cursors (r :: rest))) = _
    split_ifs
    · rw [h'.keyAt (hr.head_mem List.mem_cons_self), Option.bind_some]
      exact hothers
    · rfl

/-- The place of an edit is in the last set. -/
theorem bch2BkeyToBset_last (h' : (endingIn olds level s').Wf)
    (hedit : SetEdit s s' pre mid new post) :
    (endingIn olds level s').bch2BkeyToBset (s.set.firstOffset + total BkeyPacked.u64s pre) =
      some s' := by
  have hplace : s'.set.firstOffset ≤ s.set.firstOffset + total BkeyPacked.u64s pre ∧
      s.set.firstOffset + total BkeyPacked.u64s pre ≤ s'.set.endOffset := by
    simp only [RwBset.endOffset, RwBset.firstOffset, hedit.keys', hedit.dataOffset, total_append]
    omega
  have hbehind : ∀ t ∈ olds, t.set.endOffset < s'.set.firstOffset := by
    intro t ht
    have hle := (List.pairwise_append.mp h'.apart).2.2 t ht s' (List.mem_singleton_self s')
    rw [RwBset.firstOffset]
    omega
  have hfind : (olds ++ [s']).find? (fun t => decide (s.set.firstOffset +
      total BkeyPacked.u64s pre ≤ t.set.endOffset)) = some s' := by
    refine List.find?_eq_some_iff_append.mpr
      ⟨by simpa using hplace.2, olds, [], rfl, fun t ht => ?_⟩
    have := hbehind t ht
    simp only [Bool.not_eq_true', decide_eq_false_iff_not]
    omega
  rw [bch2BkeyToBset, hfind, Option.bind_eq_bind, Option.bind_some, if_pos hplace.1]

end Edit

/-- Positions with iterators that are fixed one by one. -/
theorem exists_mapM {Q Q' : Bpos × BtreeNodeIter → Prop}
    {f : Bpos × BtreeNodeIter → Option (Bpos × BtreeNodeIter)}
    (hf : ∀ x, Q x → ∃ y, f x = some y ∧ y.1 = x.1 ∧ Q' y) (l : List (Bpos × BtreeNodeIter))
    (hl : ∀ x ∈ l, Q x) :
    ∃ l', l.mapM f = some l' ∧ l'.map Prod.fst = l.map Prod.fst ∧ ∀ y ∈ l', Q' y := by
  induction l with
  | nil => exact ⟨[], rfl, rfl, by simp⟩
  | cons x l ih =>
    obtain ⟨hx, hl⟩ := List.forall_mem_cons.mp hl
    obtain ⟨y, hy, hpos, hQ⟩ := hf x hx
    obtain ⟨l', hl', hmap, hQ'⟩ := ih hl
    refine ⟨y :: l', ?_, ?_, List.forall_mem_cons.mpr ⟨hQ, hQ'⟩⟩
    · rw [List.mapM_cons, hy, hl']
      rfl
    · rw [List.map_cons, List.map_cons, hpos, hmap]

/-- After an insertion into the last set, a replacement of a key at its position or a deletion,
every iterator that was positioned for a path denotes exactly the keys of the edited node that are
not below the position of the path. -/
theorem bch2BtreeNodeIterFix_denotes (olds : List IterBset) (level : ℕ) {s s' : IterBset}
    (call : BsetCall) (h : (endingIn olds level s).Wf) (hro : ∀ t, s.aux ≠ .ro t)
    (hsame : call.SamePosition s.set) (hexec : s.exec call = some s')
    (hsorted : s'.set.keys.Pairwise fun a b => a.pos < b.pos)
    (own : Option (Bpos × BtreeNodeIter)) (paths : List (Bpos × BtreeNodeIter))
    (hown : ∀ x ∈ own, (endingIn olds level s).Denotes x.1 x.2)
    (hpaths : ∀ x ∈ paths, (endingIn olds level s).Denotes x.1 x.2) :
    (endingIn olds level s').Wf ∧ ∃ own' paths',
      (endingIn olds level s').bch2BtreeNodeIterFix own paths call.place call.clobber
        (call.newWords s.set) = some (own', paths') ∧
      own'.map Prod.fst = own.map Prod.fst ∧ paths'.map Prod.fst = paths.map Prod.fst ∧
      (∀ x ∈ own', (endingIn olds level s').Denotes x.1 x.2) ∧
      ∀ x ∈ paths', (endingIn olds level s').Denotes x.1 x.2 := by
  obtain ⟨hs', pre, mid, post, hedit, hclobber, hplace⟩ :=
    (h.sets s (by simp)).exec_edit hro hsame hexec hsorted
  have h' : (endingIn olds level s').Wf := by
    refine ⟨fun t ht => ?_, by simpa using h.nsets, ?_⟩
    · rcases List.mem_append.mp ht with ht | ht
      · exact h.sets t (List.mem_append_left _ ht)
      · rwa [List.mem_singleton.mp ht]
    · obtain ⟨holds, -, hlast⟩ := List.pairwise_append.mp h.apart
      refine List.pairwise_append.mpr ⟨holds, List.pairwise_singleton _ _, fun t ht u hu => ?_⟩
      rw [List.mem_singleton.mp hu, hedit.dataOffset]
      exact hlast t ht s (List.mem_singleton_self s)
  refine ⟨h', ?_⟩
  have hfix (x : Bpos × BtreeNodeIter) (hx : (endingIn olds level s).Denotes x.1 x.2) :
      ∃ y, ((endingIn olds level s').iterFix s' x.1 x.2 call.place call.clobber
          (call.newWords s.set)).map (Prod.mk x.1) = some y ∧ y.1 = x.1 ∧
        (endingIn olds level s').Denotes y.1 y.2 := by
    obtain ⟨iter', hiter, hcut⟩ :=
      iterFix_atCut h h' hedit ((h.denotes_iff x.1 x.2).mp hx)
    rw [hplace, ← hclobber, BsetCall.newWords, hiter]
    exact ⟨_, rfl, rfl, (h'.denotes_iff _ _).mpr hcut⟩
  have hbset := bch2BkeyToBset_last h' hedit
  rw [← hplace] at hbset
  obtain ⟨paths', hpaths', hmap, hall⟩ := exists_mapM hfix paths hpaths
  cases own with
  | none =>
    refine ⟨none, paths', ?_, rfl, hmap, by simp, hall⟩
    rw [bch2BtreeNodeIterFix, hbset]
    simp only [Option.bind_eq_bind, Option.bind_some, hpaths']
    rfl
  | some x =>
    obtain ⟨y, hy, hpos, hden⟩ := hfix x (hown x rfl)
    refine ⟨some y, paths', ?_, congrArg some hpos, hmap, by simpa using hden, hall⟩
    rw [bch2BtreeNodeIterFix, hbset]
    simp only [Option.bind_eq_bind, Option.bind_some, Option.mapM_some, hy, hpaths']
    rfl

/-! ### An example -/

/-- A set in front of `lineSet`, with one key. -/
def frontSet : IterBset :=
  ⟨{ lineSet 12 [linePacked 2] [] with dataOffset := 0 }, 0, .noAux⟩

/-- A last set without a table. -/
def lastSet (keys : List BkeyPacked) : IterBset := ⟨lineSet 12 keys [], 0, .noAux⟩

/-- A key of eight words. -/
def shortKey (offset : Fin (2 ^ 64)) : Bkey where
  p := ⟨0, offset, 0⟩
  type := 1
  val := List.replicate 3 0

/-- The key that the second cursor is at gives way to a shorter one. -/
theorem bch2BtreeNodeIterFix_denotes_short :
    (endingIn [frontSet] 1 (lastSet [linePacked 1,
      packKey narrowFormat.toBkeyFormat (shortKey 3) false])).Denotes (lineKey 2).p
        [⟨3, 15⟩, ⟨32, 40⟩] := by
  have hwf : (endingIn [frontSet] 1 (lastSet [linePacked 1, linePacked 3])).Wf := by
    refine ⟨fun s hs => ?_, by decide, by decide⟩
    simp only [List.singleton_append, List.mem_cons, List.not_mem_nil, or_false] at hs
    rcases hs with rfl | rfl
    exacts [⟨⟨by decide, by decide, by decide⟩, trivial⟩,
      ⟨⟨by decide, by decide, by decide⟩, trivial⟩]
  have hden : (endingIn [frontSet] 1 (lastSet [linePacked 1, linePacked 3])).Denotes (lineKey 2).p
      [⟨3, 15⟩, ⟨32, 44⟩] := by
    refine (hwf.denotes_iff _ _).mpr
      ⟨[(⟨3, linePacked 2, 15⟩, []), (⟨32, linePacked 3, 44⟩, [])], rfl, ?_, .refl _⟩
    exact headsSorted_pair (by decide)
  have hsame : (BsetCall.insert 32 (shortKey 3) false 12).SamePosition
      (lastSet [linePacked 1, linePacked 3]).set := by
    intro k rest new hat _ hnew
    have hk : some [linePacked 3] = some (k :: rest) := hat
    obtain ⟨rfl, -⟩ := List.cons.inj (Option.some.inj hk)
    obtain ⟨rfl, -⟩ := List.cons.inj hnew
    rfl
  obtain ⟨-, own', paths', hfix, -, -, -, hpaths⟩ :=
    bch2BtreeNodeIterFix_denotes [frontSet] 1 (.insert 32 (shortKey 3) false 12) hwf
      (fun t ht => by cases ht) hsame rfl (by decide) none
      [((lineKey 2).p, [⟨3, 15⟩, ⟨32, 44⟩])] (by simp) (by simpa using hden)
  have hrun : some (none, [((lineKey 2).p, [⟨3, 15⟩, ⟨32, 40⟩])]) = some (own', paths') :=
    Eq.trans (by rfl) hfix
  obtain ⟨-, rfl⟩ := Prod.mk.inj (Option.some.inj hrun)
  exact hpaths _ List.mem_cons_self

end IterNode

end Subvol

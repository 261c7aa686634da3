import Mathlib.Algebra.Order.BigOperators.Group.List
import Mathlib.Algebra.Order.Ring.Nat
import Mathlib.Data.List.MinMax
import Subvol.Btree.Sets

/-!
# The sort iterator

Model of `sort_iter` and of the three loops over it, on runs of keys anywhere in memory: every
key has its own address, which is all that the comparators read besides the key. The counts
of keys that `bch2_key_sort_fix_overlapping` returns are left out.

## Main definitions

* `sortIterAdd`, `sortIterSift`, `sortIterSort`, `sortIterAdvance`: the iterator.
* `keySortFixOverlapping`, `sortKeysKeepUnwrittenWhiteouts`, `sortKeys`: the loops.
* `SortInput`: runs that may be handed to the iterator.
* `newestOf`: the key of a position with the highest address.

## Main results

* `sortIter_outputs`: what the three loops put out.
-/

namespace Subvol

open Lib

/-! ### The iterator -/

/-- `sort_cmp_fn`. -/
abbrev SortCmpFn := RankedKey → RankedKey → ℤ

/-- The runs of a `sort_iter`, each with the key that its `k` points to and those behind it. -/
abbrev SortIter := List (MergeRun RankedKey)

/-- `sort_iter_add` on a `sort_iter_stack`. -/
def sortIterAdd (iter : SortIter) (run : List RankedKey) : Option SortIter :=
  if iter.length < sortIterStackSize then
    match run with
    | [] => some iter
    | k :: keys => some (iter ++ [(k, keys)])
  else none

/-- `sort_iter_stack_init` and a `sort_iter_add` for each run. -/
def sortIterOf (runs : List (List RankedKey)) : Option SortIter := runs.foldlM sortIterAdd []

/-- `sort_iter_sift`: swap a run behind the next one while it compares above it. -/
def sortIterSift (cmp : SortCmpFn) (x : MergeRun RankedKey) : SortIter → SortIter
  | [] => [x]
  | y :: rest => if cmp x.1 y.1 > 0 then y :: sortIterSift cmp x rest else x :: y :: rest

/-- `sort_iter_sort`. -/
def sortIterSort (cmp : SortCmpFn) : SortIter → SortIter
  | [] => []
  | x :: rest => sortIterSift cmp x (sortIterSort cmp rest)

/-- `sort_iter_peek`. -/
def sortIterPeek (iter : SortIter) : Option RankedKey := iter.head?.map Prod.fst

/-- `sort_iter_advance`: a run that is used up is taken out of the array. -/
def sortIterAdvance (cmp : SortCmpFn) : SortIter → SortIter
  | [] => []
  | (_, []) :: rest => rest
  | (_, k :: keys) :: rest => sortIterSift cmp (k, keys) rest

/-! ### The comparators -/

/-- `bch2_bkey_cmp_packed`. -/
def positionCmp : SortCmpFn := fun l r => bposCmp l.2.pos r.2.pos

/-- The comparison of two addresses. -/
def addressCmp : SortCmpFn := fun l r => if l.1 < r.1 then -1 else if l.1 > r.1 then 1 else 0

/-- `key_sort_fix_overlapping_cmp`. -/
def fixOverlappingCmp : SortCmpFn := fun l r =>
  let ret := positionCmp l r
  if ret ≠ 0 then ret else addressCmp l r

/-- `keep_unwritten_whiteouts_cmp`. -/
def keepWhiteoutsCmp : SortCmpFn := fun l r =>
  let ret := positionCmp l r
  let deleted : ℤ := (if r.2.deleted then 1 else 0) - (if l.2.deleted then 1 else 0)
  if ret ≠ 0 then ret else if deleted ≠ 0 then deleted else addressCmp l r

/-! ### The loops -/

/-- `should_drop_next_key`: the second run starts at the position of the first. -/
def shouldDropNextKey : SortIter → Bool
  | x :: y :: _ => positionCmp x.1 y.1 == 0
  | _ => false

theorem runsSize_sortIterSift (cmp : SortCmpFn) (x : MergeRun RankedKey) (rest : SortIter) :
    runsSize (sortIterSift cmp x rest) = runsSize (x :: rest) := by
  induction rest with
  | nil => rfl
  | cons y rest ih =>
    rw [sortIterSift]
    split_ifs
    · simp only [runsSize_cons, ih]
      omega
    · rfl

theorem runsSize_sortIterAdvance (cmp : SortCmpFn) (r : MergeRun RankedKey) (rest : SortIter) :
    runsSize (sortIterAdvance cmp (r :: rest)) < runsSize (r :: rest) := by
  obtain ⟨k, keys⟩ := r
  cases keys with
  | nil => simp [sortIterAdvance]
  | cons k' keys => simp [sortIterAdvance, runsSize_sortIterSift]

/-- The loop of `bch2_key_sort_fix_overlapping`. -/
def fixOverlappingLoop : SortIter → List BkeyPacked
  | [] => []
  | r :: rest =>
    let out := if !r.1.2.deleted && !shouldDropNextKey (r :: rest) then [r.1.2] else []
    out ++ fixOverlappingLoop (sortIterAdvance fixOverlappingCmp (r :: rest))
termination_by iter => runsSize iter
decreasing_by exact runsSize_sortIterAdvance _ r rest

/-- `bch2_key_sort_fix_overlapping`: the keys of the set written, and its `u64s`. -/
def keySortFixOverlapping (iter : SortIter) : List BkeyPacked × ℕ :=
  let out := fixOverlappingLoop (sortIterSort fixOverlappingCmp iter)
  (out, keysU64s out % 2 ^ 16)

/-- The loop of `bch2_sort_keys_keep_unwritten_whiteouts`, with the address of
`unwritten_whiteouts_start`. -/
def keepWhiteoutsLoop (start : ℕ) : SortIter → List BkeyPacked
  | [] => []
  | r :: rest =>
    let next := sortIterAdvance keepWhiteoutsCmp (r :: rest)
    let out :=
      if r.1.2.deleted && r.1.1 < start then []
      else if (sortIterPeek next).any fun k => positionCmp r.1 k == 0 then []
      else [r.1.2]
    out ++ keepWhiteoutsLoop start next
termination_by iter => runsSize iter
decreasing_by exact runsSize_sortIterAdvance _ r rest

/-- `bch2_sort_keys_keep_unwritten_whiteouts`: the keys written and their words. -/
def sortKeysKeepUnwrittenWhiteouts (start : ℕ) (iter : SortIter) : List BkeyPacked × ℕ :=
  let out := keepWhiteoutsLoop start (sortIterSort keepWhiteoutsCmp iter)
  (out, keysU64s out)

/-- The loop of `bch2_sort_keys`. -/
def sortKeysLoop : SortIter → List BkeyPacked
  | [] => []
  | r :: rest =>
    let out := if r.1.2.deleted then [] else [r.1.2]
    out ++ sortKeysLoop (sortIterAdvance positionCmp (r :: rest))
termination_by iter => runsSize iter
decreasing_by exact runsSize_sortIterAdvance _ r rest

/-- `bch2_sort_keys`: the keys written and their words. -/
def sortKeys (iter : SortIter) : List BkeyPacked × ℕ :=
  let out := sortKeysLoop (sortIterSort positionCmp iter)
  (out, keysU64s out)

/-! ### The comparators as ranks -/

/-- A comparator goes by a rank. -/
def CmpRank {β : Type*} [LinearOrder β] (cmp : SortCmpFn) (f : RankedKey → β) : Prop :=
  ∀ l r, 0 < cmp l r ↔ f r < f l

theorem positionCmp_zero_iff (l r : RankedKey) : positionCmp l r = 0 ↔ l.2.pos = r.2.pos :=
  bposCmp_zero_iff _ _

theorem addressCmp_pos_iff (l r : RankedKey) : 0 < addressCmp l r ↔ r.1 < l.1 := by
  rw [addressCmp]
  split_ifs <;> omega

theorem cmpRank_positionCmp : CmpRank positionCmp cmpPacked := fun _ _ => bposCmp_pos_iff _ _

theorem cmpRank_fixOverlappingCmp : CmpRank fixOverlappingCmp keySortFixOverlappingCmp := by
  intro l r
  simp only [fixOverlappingCmp, keySortFixOverlappingCmp, Prod.Lex.toLex_lt_toLex]
  split_ifs with hne
  · have hpos : r.2.pos ≠ l.2.pos := fun h => hne ((positionCmp_zero_iff l r).mpr h.symm)
    simp [positionCmp, bposCmp_pos_iff, hpos]
  · have hpos : r.2.pos = l.2.pos := ((positionCmp_zero_iff l r).mp (not_not.mp hne)).symm
    simp [addressCmp_pos_iff, hpos]

theorem cmpRank_keepWhiteoutsCmp : CmpRank keepWhiteoutsCmp keepUnwrittenWhiteoutsCmp := by
  intro l r
  simp only [keepWhiteoutsCmp, keepUnwrittenWhiteoutsCmp, Prod.Lex.toLex_lt_toLex]
  by_cases hpos : r.2.pos = l.2.pos
  · have hzero : positionCmp l r = 0 := (positionCmp_zero_iff l r).mpr hpos.symm
    rw [if_neg (not_not.mpr hzero)]
    cases hl : l.2.deleted <;> cases hr : r.2.deleted <;> simp [addressCmp_pos_iff, hpos]
  · have hne : positionCmp l r ≠ 0 := fun h => hpos ((positionCmp_zero_iff l r).mp h).symm
    rw [if_pos hne]
    simp [positionCmp, bposCmp_pos_iff, hpos]

section Ranked

variable {β : Type*} [LinearOrder β] {cmp : SortCmpFn} {f : RankedKey → β}

theorem sortIterSift_eq (h : CmpRank cmp f) (x : MergeRun RankedKey) (rest : SortIter) :
    sortIterSift cmp x rest = sift f x rest := by
  induction rest with
  | nil => rfl
  | cons y rest ih => simp only [sortIterSift, sift, gt_iff_lt, h x.1 y.1, ih]

theorem sortIterSort_eq (h : CmpRank cmp f) (iter : SortIter) :
    sortIterSort cmp iter = sortRuns f iter := by
  induction iter with
  | nil => rfl
  | cons x rest ih => rw [sortIterSort, sortRuns, ih, sortIterSift_eq h]

theorem sortIterAdvance_eq (h : CmpRank cmp f) (iter : SortIter) :
    sortIterAdvance cmp iter = advance f iter := by
  match iter with
  | [] => rfl
  | (_, []) :: rest => rfl
  | (_, k :: keys) :: rest => exact sortIterSift_eq h _ _

end Ranked

/-! ### The loops as merges -/

theorem shouldDropNextKey_eq (r : MergeRun RankedKey) (rest : SortIter) :
    shouldDropNextKey (r :: rest) =
      decide (rest.head?.map (fun s => cmpPacked s.1) = some (cmpPacked r.1)) := by
  cases rest with
  | nil => rfl
  | cons y rest =>
    rw [Bool.eq_iff_iff]
    simpa [shouldDropNextKey, positionCmp_zero_iff, cmpPacked] using eq_comm

theorem fixOverlappingLoop_eq (iter : SortIter) {n : ℕ} (hn : runsSize iter ≤ n) :
    fixOverlappingLoop iter =
      (drainNewest keySortFixOverlappingCmp (fun x => !x.2.deleted) cmpPacked n iter).map
        Prod.snd := by
  induction n generalizing iter with
  | zero =>
    cases iter with
    | nil => rw [fixOverlappingLoop]; rfl
    | cons r rest => simp at hn
  | succ n ih =>
    cases iter with
    | nil => rw [fixOverlappingLoop]; rfl
    | cons r rest =>
      have hlt := runsSize_sortIterAdvance fixOverlappingCmp r rest
      rw [fixOverlappingLoop, ih _ (by omega), drainNewest, shouldDropNextKey_eq,
        sortIterAdvance_eq cmpRank_fixOverlappingCmp]
      by_cases hdel : r.1.2.deleted = true
      · simp [hdel]
      · by_cases hnext : rest.head?.map (fun s => cmpPacked s.1) = some (cmpPacked r.1)
        · simp [hdel, hnext]
        · simp [hdel, hnext]

theorem keepWhiteoutsLoop_eq (start : ℕ) (iter : SortIter) {n : ℕ} (hn : runsSize iter ≤ n) :
    keepWhiteoutsLoop start iter =
      (drainPeek keepUnwrittenWhiteoutsCmp (fun x => !(x.2.deleted && x.1 < start)) cmpPacked n
        iter).map Prod.snd := by
  induction n generalizing iter with
  | zero =>
    cases iter with
    | nil => rw [keepWhiteoutsLoop]; rfl
    | cons r rest => simp at hn
  | succ n ih =>
    cases iter with
    | nil => rw [keepWhiteoutsLoop]; rfl
    | cons r rest =>
      have hlt := runsSize_sortIterAdvance keepWhiteoutsCmp r rest
      have hpeek : (sortIterPeek (advance keepUnwrittenWhiteoutsCmp (r :: rest))).any
          (fun k => positionCmp r.1 k == 0) =
            decide ((advance keepUnwrittenWhiteoutsCmp (r :: rest)).head?.map
              (fun s => cmpPacked s.1) = some (cmpPacked r.1)) := by
        cases advance keepUnwrittenWhiteoutsCmp (r :: rest) with
        | nil => rfl
        | cons y next =>
          rw [Bool.eq_iff_iff]
          simpa [sortIterPeek, positionCmp_zero_iff, cmpPacked] using eq_comm
      rw [keepWhiteoutsLoop, ih _ (by omega), drainPeek,
        sortIterAdvance_eq cmpRank_keepWhiteoutsCmp, hpeek]
      by_cases hdel : (r.1.2.deleted && decide (r.1.1 < start)) = true
      · simp only [hdel, if_true, Bool.not_true, Bool.false_eq_true, false_and, if_false,
          List.nil_append]
      · by_cases hnext : (advance keepUnwrittenWhiteoutsCmp (r :: rest)).head?.map
            (fun s => cmpPacked s.1) = some (cmpPacked r.1)
        · simp [hdel, hnext]
        · simp [hdel, hnext]

theorem sortKeysLoop_eq (iter : SortIter) {n : ℕ} (hn : runsSize iter ≤ n) :
    sortKeysLoop iter = ((drain cmpPacked n iter).map Prod.snd).filter fun k => !k.deleted := by
  induction n generalizing iter with
  | zero =>
    cases iter with
    | nil => rw [sortKeysLoop]; rfl
    | cons r rest => simp at hn
  | succ n ih =>
    cases iter with
    | nil => rw [sortKeysLoop]; rfl
    | cons r rest =>
      have hlt := runsSize_sortIterAdvance positionCmp r rest
      rw [sortKeysLoop, ih _ (by omega), drain, sortIterAdvance_eq cmpRank_positionCmp]
      by_cases hdel : r.1.2.deleted = true
      · simp [hdel]
      · simp [hdel]

/-! ### What is put out -/

/-- The runs that may be handed to the iterator: as many as it has room for, each strictly
increasing in position, of keys at different addresses. -/
structure SortInput (runs : List (List RankedKey)) : Prop where
  few : runs.length ≤ sortIterStackSize
  sorted : ∀ run ∈ runs, run.Pairwise fun x y => x.2.pos < y.2.pos
  addresses : (runs.flatten.map Prod.fst).Nodup

/-- The key of a position with the highest address. -/
def newestOf (keys : List RankedKey) (p : Bpos) : Option RankedKey :=
  (keys.filter fun x => x.2.pos = p).argmax Prod.fst

/-- The words of keys in memory. -/
def rankedU64s (keys : List RankedKey) : ℕ := keysU64s (keys.map Prod.snd)

/-- An iterator that holds the keys of the runs. -/
structure SortHolds (iter : SortIter) (keys : List RankedKey) : Prop where
  elems : iter.flatMap MergeRun.elems = keys
  sorted : ∀ r ∈ iter, (MergeRun.elems r).Pairwise fun x y => x.2.pos < y.2.pos

theorem foldlM_sortIterAdd {runs : List (List RankedKey)} {iter : SortIter}
    {keys : List RankedKey} (hfew : iter.length + runs.length ≤ sortIterStackSize)
    (hiter : SortHolds iter keys)
    (hsorted : ∀ run ∈ runs, run.Pairwise fun x y => x.2.pos < y.2.pos) :
    ∃ iter', runs.foldlM sortIterAdd iter = some iter' ∧ SortHolds iter' (keys ++ runs.flatten) := by
  induction runs generalizing iter keys with
  | nil => exact ⟨iter, rfl, by simpa using hiter⟩
  | cons run runs ih =>
    rw [List.length_cons] at hfew
    have hrest := fun run hrun => hsorted run (List.mem_cons_of_mem _ hrun)
    have hroom : iter.length < sortIterStackSize := by omega
    cases run with
    | nil =>
      obtain ⟨iter', hrun, hholds⟩ := ih (by omega) hiter hrest
      refine ⟨iter', ?_, by simpa using hholds⟩
      simpa [sortIterAdd, hroom] using hrun
    | cons k rest =>
      have hadd : SortHolds (iter ++ [(k, rest)]) (keys ++ k :: rest) := by
        refine ⟨by simp [hiter.elems, MergeRun.elems], ?_⟩
        intro r hr
        rcases List.mem_append.mp hr with hr | hr
        · exact hiter.sorted r hr
        · rw [List.mem_singleton.mp hr]
          exact hsorted _ (List.mem_cons_self ..)
      obtain ⟨iter', hrun, hholds⟩ := ih (by simp; omega) hadd hrest
      refine ⟨iter', ?_, by simpa using hholds⟩
      simpa [sortIterAdd, hroom] using hrun

/-- Up to four runs fit in the iterator. -/
theorem sortIterOf_holds {runs : List (List RankedKey)} (h : SortInput runs) :
    ∃ iter, sortIterOf runs = some iter ∧ SortHolds iter runs.flatten := by
  have hempty : SortHolds [] [] := ⟨rfl, fun _ hr => by cases hr⟩
  simpa [sortIterOf] using foldlM_sortIterAdd (by simpa using h.few) hempty h.sorted

theorem newestOf_eq_some {keys : List RankedKey} (hnodup : (keys.map Prod.fst).Nodup) {p : Bpos}
    {x : RankedKey} : newestOf keys p = some x ↔
      x ∈ keys ∧ x.2.pos = p ∧ ∀ y ∈ keys, y.2.pos = p → y.1 ≤ x.1 := by
  rw [newestOf, List.argmax_eq_some_iff]
  simp only [List.mem_filter, decide_eq_true_eq, and_imp]
  constructor
  · rintro ⟨⟨hx, hpos⟩, hmax, -⟩
    exact ⟨hx, hpos, hmax⟩
  · rintro ⟨hx, hpos, hmax⟩
    refine ⟨⟨hx, hpos⟩, hmax, fun y hy hyp hle => ?_⟩
    have heq : y = x := List.inj_on_of_nodup_map hnodup hy hx (le_antisymm (hmax y hy hyp) hle)
    rw [heq]

theorem newestOf_eq_none {keys : List RankedKey} {p : Bpos} :
    newestOf keys p = none ↔ ∀ y ∈ keys, y.2.pos ≠ p := by
  rw [newestOf, List.argmax_eq_none, List.filter_eq_nil_iff]
  simp

/-- The key at a position of a sorted list. -/
theorem PosSorted.find?_eq_some {keys : List BkeyPacked} (h : PosSorted keys) {p : Bpos}
    {k : BkeyPacked} : keys.find? (fun k => k.pos = p) = some k ↔ k ∈ keys ∧ k.pos = p := by
  constructor
  · intro hfind
    exact ⟨List.mem_of_find?_eq_some hfind, by simpa using List.find?_some hfind⟩
  · rintro ⟨hk, rfl⟩
    cases hfind : keys.find? (fun k' => k'.pos = k.pos) with
    | none =>
      have hnone := List.find?_eq_none.mp hfind k hk
      simp at hnone
    | some k' =>
      have hpos : k'.pos = k.pos := by simpa using List.find?_some hfind
      rw [h.eq_of_pos (List.mem_of_find?_eq_some hfind) hk hpos]

section Outputs

variable {β : Type*} [LinearOrder β] {f : RankedKey → β} {iter : SortIter}
  {keys : List RankedKey}

theorem SortHolds.mem_merge (h : SortHolds iter keys) {x : RankedKey} :
    x ∈ merge f iter ↔ x ∈ keys := by
  rw [(merge_perm (f := f) iter).mem_iff, h.elems]

theorem SortHolds.runsSorted (h : SortHolds iter keys)
    (hf : ∀ x y : RankedKey, x.2.pos < y.2.pos → f x ≤ f y) : RunsSorted f iter :=
  fun r hr => (h.sorted r hr).imp fun hlt => hf _ _ hlt

/-- Of the keys of a position the one with the highest rank is left. -/
theorem SortHolds.mem_lastOfGroup (h : SortHolds iter keys)
    (hf : ∀ x y : RankedKey, x.2.pos < y.2.pos → f x ≤ f y)
    (hmono : ∀ x y, f x ≤ f y → cmpPacked x ≤ cmpPacked y)
    (hinj : ∀ x ∈ keys, ∀ y ∈ keys, f x = f y → x = y) {x : RankedKey} :
    x ∈ lastOfGroup cmpPacked (merge f iter) ↔
      x ∈ keys ∧ ∀ y ∈ keys, y.2.pos = x.2.pos → f y ≤ f x := by
  have hinj' : ∀ x ∈ merge f iter, ∀ y ∈ merge f iter, f x = f y → x = y :=
    fun x hx y hy => hinj x (h.mem_merge.mp hx) y (h.mem_merge.mp hy)
  rw [mem_lastOfGroup_iff_forall (merge_pairwise (h.runsSorted hf)) hmono hinj']
  simp only [h.mem_merge]
  rfl

/-- What is left is in strict order. -/
theorem SortHolds.posSorted_lastOfGroup (h : SortHolds iter keys)
    (hf : ∀ x y : RankedKey, x.2.pos < y.2.pos → f x ≤ f y)
    (hmono : ∀ x y, f x ≤ f y → cmpPacked x ≤ cmpPacked y) (q : RankedKey → Bool) :
    PosSorted (((lastOfGroup cmpPacked (merge f iter)).filter q).map Prod.snd) := by
  have hsorted : (merge f iter).Pairwise fun x y => cmpPacked x ≤ cmpPacked y :=
    (merge_pairwise (h.runsSorted hf)).imp fun hle => hmono _ _ hle
  exact List.pairwise_map.mpr ((lastOfGroup_pairwise hsorted).filter q)

/-- The words of what is left are words of the runs. -/
theorem keysU64s_le_of_sublist {out : List RankedKey} (h : SortHolds iter keys)
    (hout : out.Sublist (merge f iter)) : keysU64s (out.map Prod.snd) ≤ rankedU64s keys := by
  have hperm : (merge f iter).Perm keys := h.elems ▸ merge_perm iter
  have hwords := ((hperm.map Prod.snd).map BkeyPacked.u64s).sum_nat
  have hle := ((hout.map Prod.snd).map BkeyPacked.u64s).sum_le_sum fun _ _ => Nat.zero_le _
  rw [rankedU64s, keysU64s, keysU64s, ← hwords]
  exact hle

end Outputs

/-! ### The three loops -/

section Loops

variable {iter : SortIter} {keys : List RankedKey}

theorem keySortFixOverlapping_fst (iter : SortIter) (h : SortHolds iter keys) :
    (keySortFixOverlapping iter).1 =
      ((lastOfGroup cmpPacked (merge keySortFixOverlappingCmp iter)).filter
        fun x => !x.2.deleted).map Prod.snd := by
  have hmono : ∀ x y, keySortFixOverlappingCmp x ≤ keySortFixOverlappingCmp y →
      cmpPacked x ≤ cmpPacked y := fun x y hle => Prod.Lex.monotone_fst _ _ hle
  have hruns := h.runsSorted (f := keySortFixOverlappingCmp)
    fun x y hlt => le_of_lt (Prod.Lex.toLex_lt_toLex.mpr (.inl hlt))
  have hperm := sortRuns_perm keySortFixOverlappingCmp iter
  rw [keySortFixOverlapping, sortIterSort_eq cmpRank_fixOverlappingCmp,
    fixOverlappingLoop_eq _ (runsSize_sortRuns iter).le,
    drainNewest_eq _ hmono (headsSorted_sortRuns _) (hruns.perm hperm)
      fun r hr => h.sorted r (hperm.mem_iff.mp hr),
    drainPeek_eq _ (runsSize_sortRuns iter).le]
  rfl

theorem sortKeysKeepUnwrittenWhiteouts_fst (start : ℕ) (iter : SortIter) :
    (sortKeysKeepUnwrittenWhiteouts start iter).1 =
      ((lastOfGroup cmpPacked (merge keepUnwrittenWhiteoutsCmp iter)).filter
        fun x => !(x.2.deleted && x.1 < start)).map Prod.snd := by
  rw [sortKeysKeepUnwrittenWhiteouts, sortIterSort_eq cmpRank_keepWhiteoutsCmp,
    keepWhiteoutsLoop_eq _ _ (runsSize_sortRuns iter).le,
    drainPeek_eq _ (runsSize_sortRuns iter).le]
  rfl

theorem sortKeys_fst (iter : SortIter) :
    (sortKeys iter).1 = ((merge cmpPacked iter).filter fun x => !x.2.deleted).map Prod.snd := by
  rw [sortKeys, sortIterSort_eq cmpRank_positionCmp,
    sortKeysLoop_eq _ (runsSize_sortRuns iter).le, List.filter_map]
  rfl

/-- The newest key of a position is left by `bch2_key_sort_fix_overlapping` when it is live. -/
theorem find?_keySortFixOverlapping (h : SortHolds iter keys)
    (hnodup : (keys.map Prod.fst).Nodup) :
    PosSorted (keySortFixOverlapping iter).1 ∧
      ∀ p, (keySortFixOverlapping iter).1.find? (fun k => k.pos = p) =
        ((newestOf keys p).filter fun x => !x.2.deleted).map Prod.snd := by
  have hf : ∀ x y : RankedKey, x.2.pos < y.2.pos →
      keySortFixOverlappingCmp x ≤ keySortFixOverlappingCmp y :=
    fun x y hlt => le_of_lt (Prod.Lex.toLex_lt_toLex.mpr (.inl hlt))
  have hmono : ∀ x y, keySortFixOverlappingCmp x ≤ keySortFixOverlappingCmp y →
      cmpPacked x ≤ cmpPacked y := fun x y hle => Prod.Lex.monotone_fst _ _ hle
  have hinj : ∀ x ∈ keys, ∀ y ∈ keys, keySortFixOverlappingCmp x = keySortFixOverlappingCmp y →
      x = y := fun x hx y hy heq =>
    List.inj_on_of_nodup_map hnodup hx hy (congrArg (fun z => (ofLex z).2) heq)
  have hle : ∀ x y : RankedKey, y.2.pos = x.2.pos →
      (keySortFixOverlappingCmp y ≤ keySortFixOverlappingCmp x ↔ y.1 ≤ x.1) := by
    intro x y hpos
    simp [keySortFixOverlappingCmp, Prod.Lex.toLex_le_toLex, hpos]
  have hsorted := h.posSorted_lastOfGroup hf hmono fun x => !x.2.deleted
  rw [keySortFixOverlapping_fst iter h]
  refine ⟨hsorted, fun p => Option.ext fun k => ?_⟩
  rw [hsorted.find?_eq_some]
  simp only [List.mem_map, List.mem_filter, h.mem_lastOfGroup hf hmono hinj,
    Option.map_eq_some_iff, Option.filter_eq_some_iff, newestOf_eq_some hnodup]
  constructor
  · rintro ⟨⟨x, ⟨⟨hx, hmax⟩, hlive⟩, rfl⟩, rfl⟩
    exact ⟨x, ⟨⟨hx, rfl, fun y hy hpos => (hle x y hpos).mp (hmax y hy hpos)⟩, hlive⟩, rfl⟩
  · rintro ⟨x, ⟨⟨hx, rfl, hmax⟩, hlive⟩, rfl⟩
    exact ⟨⟨x, ⟨⟨hx, fun y hy hpos => (hle x y hpos).mpr (hmax y hy hpos)⟩, hlive⟩, rfl⟩, rfl⟩

/-- The live key of a position, and else its whiteout, when it is not written, is left by
`bch2_sort_keys_keep_unwritten_whiteouts`. -/
theorem find?_sortKeysKeepUnwrittenWhiteouts (start : ℕ) (h : SortHolds iter keys)
    (hnodup : (keys.map Prod.fst).Nodup) :
    PosSorted (sortKeysKeepUnwrittenWhiteouts start iter).1 ∧
      ∀ p, (sortKeysKeepUnwrittenWhiteouts start iter).1.find? (fun k => k.pos = p) =
        ((newestOf (keys.filter fun x => !x.2.deleted) p).or
          (newestOf (keys.filter fun x => x.2.deleted && start ≤ x.1) p)).map Prod.snd := by
  have hf : ∀ x y : RankedKey, x.2.pos < y.2.pos →
      keepUnwrittenWhiteoutsCmp x ≤ keepUnwrittenWhiteoutsCmp y :=
    fun x y hlt => le_of_lt (Prod.Lex.toLex_lt_toLex.mpr (.inl hlt))
  have hinj : ∀ x ∈ keys, ∀ y ∈ keys,
      keepUnwrittenWhiteoutsCmp x = keepUnwrittenWhiteoutsCmp y → x = y :=
    fun x hx y hy heq => List.inj_on_of_nodup_map hnodup hx hy
      (congrArg (fun z => (ofLex (ofLex z).2).2) heq)
  have hnodupFilter : ∀ q : RankedKey → Bool, ((keys.filter q).map Prod.fst).Nodup :=
    fun q => hnodup.sublist (List.filter_sublist.map _)
  have hsorted := h.posSorted_lastOfGroup hf keepUnwrittenWhiteoutsCmp_mono
    fun x => !(x.2.deleted && x.1 < start)
  rw [sortKeysKeepUnwrittenWhiteouts_fst]
  refine ⟨hsorted, fun p => Option.ext fun k => ?_⟩
  rw [hsorted.find?_eq_some]
  simp only [List.mem_map, List.mem_filter,
    h.mem_lastOfGroup hf keepUnwrittenWhiteoutsCmp_mono hinj,
    Option.map_eq_some_iff, Option.or_eq_some_iff, newestOf_eq_some (hnodupFilter _),
    newestOf_eq_none, and_imp, Bool.not_eq_true', Bool.and_eq_true, decide_eq_true_eq]
  constructor
  · rintro ⟨⟨x, ⟨⟨hx, hmax⟩, hkeep⟩, rfl⟩, rfl⟩
    have hmax' := fun y hy hpos => (keepUnwrittenWhiteoutsCmp_le_iff hpos).mp (hmax y hy hpos)
    refine ⟨x, ?_, rfl⟩
    cases hdel : x.2.deleted with
    | false =>
      refine .inl ⟨⟨hx, rfl⟩, rfl, fun y hy hylive hpos => ?_⟩
      rcases hmax' y hy hpos with ⟨hydel, -⟩ | ⟨-, hle⟩
      · rw [hylive] at hydel
        cases hydel
      · exact hle
    | true =>
      have hstart : start ≤ x.1 := by simpa [hdel] using hkeep
      refine .inr ⟨?_, ⟨hx, rfl, hstart⟩, rfl, fun y hy hydel _ hpos => ?_⟩
      · intro y hy hylive hpos
        rcases hmax' y hy hpos with ⟨-, hxlive⟩ | ⟨hsame, -⟩
        · simp [hdel] at hxlive
        · simp [hylive, hdel] at hsame
      · rcases hmax' y hy hpos with ⟨-, hxlive⟩ | ⟨-, hle⟩
        · simp [hdel] at hxlive
        · exact hle
  · rintro ⟨x, hx, rfl⟩
    rcases hx with ⟨⟨hx, hlive⟩, rfl, hmax⟩ | ⟨hnone, ⟨hx, hdel, hstart⟩, rfl, hmax⟩
    · refine ⟨⟨x, ⟨⟨hx, fun y hy hpos => ?_⟩, by simp [hlive]⟩, rfl⟩, rfl⟩
      rw [keepUnwrittenWhiteoutsCmp_le_iff hpos]
      cases hydel : y.2.deleted with
      | true => exact .inl ⟨rfl, hlive⟩
      | false => exact .inr ⟨hlive.symm, hmax y hy hydel hpos⟩
    · refine ⟨⟨x, ⟨⟨hx, fun y hy hpos => ?_⟩, by simp [hdel, hstart]⟩, rfl⟩, rfl⟩
      have hydel : y.2.deleted = true := by
        by_contra hylive
        exact hnone y hy (by simpa using hylive) hpos
      rw [keepUnwrittenWhiteoutsCmp_le_iff hpos]
      refine .inr ⟨hydel.trans hdel.symm, ?_⟩
      -- a whiteout below `start` has a lower address than one above
      by_cases hystart : start ≤ y.1
      · exact hmax y hy hydel hystart hpos
      · omega

/-- `bch2_sort_keys` leaves the live keys. -/
theorem mem_sortKeys (h : SortHolds iter keys) {k : BkeyPacked} :
    k ∈ (sortKeys iter).1 ↔ ∃ x ∈ keys, x.2 = k ∧ x.2.deleted = false := by
  rw [sortKeys_fst]
  simp only [List.mem_map, List.mem_filter, h.mem_merge, Bool.not_eq_true']
  constructor
  · rintro ⟨x, ⟨hx, hlive⟩, rfl⟩
    exact ⟨x, hx, rfl, hlive⟩
  · rintro ⟨x, hx, rfl, hlive⟩
    exact ⟨x, ⟨hx, hlive⟩, rfl⟩

theorem posSorted_sortKeys (h : SortHolds iter keys)
    (hlive : ((keys.filter fun x => !x.2.deleted).map fun x => x.2.pos).Nodup) :
    PosSorted (sortKeys iter).1 := by
  have hruns := h.runsSorted (f := cmpPacked) fun x y hlt => le_of_lt hlt
  have hperm : (merge cmpPacked iter).Perm keys := h.elems ▸ merge_perm iter
  have hle := (merge_pairwise hruns).filter fun x => !x.2.deleted
  have hnodup := ((hperm.filter fun x => !x.2.deleted).map fun x => x.2.pos).nodup_iff.mpr hlive
  rw [sortKeys_fst, PosSorted, List.pairwise_map]
  exact (hle.and (List.pairwise_map.mp hnodup)).imp fun h => lt_of_le_of_ne h.1 h.2

/-- The words of the outputs are words of the inputs. -/
theorem keysU64s_outputs (start : ℕ) (h : SortHolds iter keys) :
    keysU64s (keySortFixOverlapping iter).1 ≤ rankedU64s keys ∧
      keysU64s (sortKeysKeepUnwrittenWhiteouts start iter).1 ≤ rankedU64s keys ∧
      keysU64s (sortKeys iter).1 ≤ rankedU64s keys := by
  rw [keySortFixOverlapping_fst iter h, sortKeysKeepUnwrittenWhiteouts_fst, sortKeys_fst]
  exact ⟨keysU64s_le_of_sublist h (List.filter_sublist.trans (lastOfGroup_sublist _)),
    keysU64s_le_of_sublist h (List.filter_sublist.trans (lastOfGroup_sublist _)),
    keysU64s_le_of_sublist h List.filter_sublist⟩

end Loops

/-! ### The sets of a node -/

/-- The sort of node sets is `bch2_sort_keys` over their runs. -/
theorem bch2SortKeys_eq (sets : List (List BkeyPacked)) :
    bch2SortKeys sets = (sortKeys (sortIterRuns 0 sets)).1 := by
  rw [bch2SortKeys, sortKeys_fst, List.filter_map]
  rfl

/-- The read of a node is `bch2_key_sort_fix_overlapping` over the runs of its sets. -/
theorem bch2KeySortFixOverlapping_iter (sets : List (List BkeyPacked)) :
    bch2KeySortFixOverlapping sets = (keySortFixOverlapping (sortIterRuns 0 sets)).1 := by
  rw [bch2KeySortFixOverlapping, keySortFixOverlapping,
    sortIterSort_eq cmpRank_fixOverlappingCmp, fixOverlappingLoop_eq _ (runsSize_sortRuns _).le]

/-- The write of a node is `bch2_sort_keys_keep_unwritten_whiteouts` over the runs of its sets
and of the whiteouts behind them. -/
theorem bch2SortKeysKeepUnwrittenWhiteouts_iter (sets : List (List BkeyPacked))
    (whiteouts : List BkeyPacked) : bch2SortKeysKeepUnwrittenWhiteouts sets whiteouts =
      (sortKeysKeepUnwrittenWhiteouts sets.length (sortIterRuns 0 (sets ++ [whiteouts]))).1 := by
  rw [bch2SortKeysKeepUnwrittenWhiteouts, sortKeysKeepUnwrittenWhiteouts,
    sortIterSort_eq cmpRank_keepWhiteoutsCmp, keepWhiteoutsLoop_eq _ _ (runsSize_sortRuns _).le]

/-! ### All three over the same runs -/

/-- The three sorts over the same runs. `bch2_key_sort_fix_overlapping` leaves of every position
the key with the highest address if that is live. `bch2_sort_keys_keep_unwritten_whiteouts`
leaves the live key, the one with the highest address if there are several, and else an
unwritten whiteout. `bch2_sort_keys` leaves the live keys. All outputs increase strictly and are
not larger than the runs. -/
theorem sortIter_outputs (start : ℕ) {runs : List (List RankedKey)} (h : SortInput runs) :
    ∃ iter, sortIterOf runs = some iter ∧
      (PosSorted (keySortFixOverlapping iter).1 ∧
        ∀ p, (keySortFixOverlapping iter).1.find? (fun k => k.pos = p) =
          ((newestOf runs.flatten p).filter fun x => !x.2.deleted).map Prod.snd) ∧
      (PosSorted (sortKeysKeepUnwrittenWhiteouts start iter).1 ∧
        ∀ p, (sortKeysKeepUnwrittenWhiteouts start iter).1.find? (fun k => k.pos = p) =
          ((newestOf (runs.flatten.filter fun x => !x.2.deleted) p).or
            (newestOf (runs.flatten.filter fun x => x.2.deleted && start ≤ x.1) p)).map
              Prod.snd) ∧
      ((((runs.flatten.filter fun x => !x.2.deleted).map fun x => x.2.pos).Nodup →
          PosSorted (sortKeys iter).1) ∧
        ∀ k, k ∈ (sortKeys iter).1 ↔ ∃ x ∈ runs.flatten, x.2 = k ∧ x.2.deleted = false) ∧
      keysU64s (keySortFixOverlapping iter).1 ≤ rankedU64s runs.flatten ∧
      (sortKeysKeepUnwrittenWhiteouts start iter).2 ≤ rankedU64s runs.flatten ∧
      (sortKeys iter).2 ≤ rankedU64s runs.flatten := by
  obtain ⟨iter, hiter, hholds⟩ := sortIterOf_holds h
  exact ⟨iter, hiter, find?_keySortFixOverlapping hholds h.addresses,
    find?_sortKeysKeepUnwrittenWhiteouts start hholds h.addresses,
    ⟨posSorted_sortKeys hholds, fun _ => mem_sortKeys hholds⟩, keysU64s_outputs start hholds⟩

/-- A key of inode 1 without a value. -/
def sortedKeyAt (address : ℕ) (offset : Fin (2 ^ 64)) (type : ℕ) : RankedKey :=
  (address, ⟨{ p := ⟨1, offset, 0⟩, type := type, val := [] }, bkeyU64s, false⟩)

/-- Three sets of a node, the last one with a whiteout. -/
def overlappingRuns : List (List RankedKey) :=
  [[sortedKeyAt 20 1 1, sortedKeyAt 25 2 1], [sortedKeyAt 33 1 2, sortedKeyAt 38 3 3],
    [sortedKeyAt 46 1 0, sortedKeyAt 51 2 4]]

theorem sortIter_outputs_overlappingRuns : ∃ iter, sortIterOf overlappingRuns = some iter ∧
    (keySortFixOverlapping iter).1.find? (fun k => k.pos = ⟨1, 1, 0⟩) = none ∧
    (keySortFixOverlapping iter).1.find? (fun k => k.pos = ⟨1, 2, 0⟩) =
      some (sortedKeyAt 51 2 4).2 ∧
    (sortKeysKeepUnwrittenWhiteouts 40 iter).1.find? (fun k => k.pos = ⟨1, 1, 0⟩) =
      some (sortedKeyAt 33 1 2).2 := by
  have hinput : SortInput overlappingRuns :=
    ⟨by decide, by unfold overlappingRuns; decide, by decide⟩
  obtain ⟨iter, hiter, ⟨-, hfix⟩, ⟨-, hkeep⟩, -⟩ := sortIter_outputs 40 hinput
  refine ⟨iter, hiter, ?_, ?_, ?_⟩
  · rw [hfix]
    decide
  · rw [hfix]
    decide
  · rw [hkeep]
    decide

end Subvol

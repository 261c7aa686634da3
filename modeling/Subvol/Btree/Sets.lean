import Subvol.Btree.Io

/-!
# What the merges of sets keep

The three merges of the sets of a node in terms of the keys at a position: `bch2_sort_keys` keeps
the live keys, `bch2_sort_keys_keep_unwritten_whiteouts` the live key or else the whiteout of a
position, and `bch2_key_sort_fix_overlapping` the newest key when it is live.

## Main definitions

* `PosSorted`: keys with increasing positions.
* `livePositions`: the positions of the live keys of sets.
* `newestAt`: the last of several keys at a position.

## Main results

* `mem_bch2SortKeys`, `posSorted_bch2SortKeys`.
* `mem_keepUnwrittenWhiteouts`, `posSorted_keepUnwrittenWhiteouts`.
* `mem_keySortFixOverlapping`, `posSorted_keySortFixOverlapping`.
-/

namespace Subvol

open Lib

/-- The positions of the keys increase. -/
def PosSorted (keys : List BkeyPacked) : Prop := keys.Pairwise fun x y => x.pos < y.pos

namespace PosSorted

variable {keys : List BkeyPacked}

theorem eq_of_pos (h : PosSorted keys) {x y : BkeyPacked} (hx : x ∈ keys) (hy : y ∈ keys)
    (hpos : x.pos = y.pos) : x = y := by
  have hnodup : (keys.map BkeyPacked.pos).Nodup :=
    List.pairwise_map.mpr (h.imp fun hlt => ne_of_lt hlt)
  exact List.inj_on_of_nodup_map hnodup hx hy hpos

theorem filter (h : PosSorted keys) (q : BkeyPacked → Bool) : PosSorted (keys.filter q) :=
  List.Pairwise.filter q h

theorem map (h : PosSorted keys) {f : BkeyPacked → BkeyPacked} (hf : ∀ k, (f k).pos = k.pos) :
    PosSorted (keys.map f) :=
  List.pairwise_map.mpr (h.imp fun hlt => by rwa [hf, hf])

end PosSorted

/-- The live positions of sets, with repetitions. -/
def livePositions (sets : List (List BkeyPacked)) : List Bpos :=
  (sets.flatten.filter fun k => !k.deleted).map BkeyPacked.pos

/-! ### The keys with their ranks -/

/-- The keys of sets with the ranks of the sets. -/
def rankedKeys : ℕ → List (List BkeyPacked) → List RankedKey
  | _, [] => []
  | rank, keys :: rest => keys.map (fun k => (rank, k)) ++ rankedKeys (rank + 1) rest

theorem sortIterRuns_elems (rank : ℕ) (sets : List (List BkeyPacked)) :
    (sortIterRuns rank sets).flatMap MergeRun.elems = rankedKeys rank sets := by
  induction sets generalizing rank with
  | nil => rfl
  | cons keys rest ih =>
    cases keys with
    | nil => simp [sortIterRuns, rankedKeys, ih]
    | cons k keys => simp [sortIterRuns, rankedKeys, ih, MergeRun.elems]

theorem rankedKeys_map_snd (rank : ℕ) (sets : List (List BkeyPacked)) :
    (rankedKeys rank sets).map Prod.snd = sets.flatten := by
  induction sets generalizing rank with
  | nil => rfl
  | cons keys rest ih => simp [rankedKeys, ih, Function.comp_def]

theorem le_rank_of_mem {rank : ℕ} {sets : List (List BkeyPacked)} {x : RankedKey}
    (h : x ∈ rankedKeys rank sets) : rank ≤ x.1 := by
  induction sets generalizing rank with
  | nil => cases h
  | cons keys rest ih =>
    rcases List.mem_append.mp h with h | h
    · obtain ⟨k, -, rfl⟩ := List.mem_map.mp h
      exact le_rfl
    · exact (Nat.le_succ _).trans (ih h)

/-- The run of a set is the set with its rank. -/
theorem mem_sortIterRuns {rank : ℕ} {sets : List (List BkeyPacked)} {r : MergeRun RankedKey}
    (h : r ∈ sortIterRuns rank sets) :
    ∃ keys ∈ sets, ∃ i, MergeRun.elems r = keys.map fun k => (i, k) := by
  induction sets generalizing rank with
  | nil => cases h
  | cons keys rest ih =>
    cases keys with
    | nil =>
      obtain ⟨keys, hkeys, hi⟩ := ih h
      exact ⟨keys, List.mem_cons_of_mem _ hkeys, hi⟩
    | cons k keys =>
      rcases List.mem_cons.mp h with rfl | h
      · exact ⟨k :: keys, List.mem_cons_self .., rank, rfl⟩
      · obtain ⟨keys', hkeys, hi⟩ := ih h
        exact ⟨keys', List.mem_cons_of_mem _ hkeys, hi⟩

/-- Runs of sorted sets are sorted by any rank that positions decide. -/
theorem runs_pairwise {R : RankedKey → RankedKey → Prop} {rank : ℕ}
    {sets : List (List BkeyPacked)} (h : ∀ keys ∈ sets, PosSorted keys)
    (hR : ∀ i k k', BkeyPacked.pos k < k'.pos → R (i, k) (i, k')) :
    ∀ r ∈ sortIterRuns rank sets, (MergeRun.elems r).Pairwise R := by
  intro r hr
  obtain ⟨keys, hkeys, i, helems⟩ := mem_sortIterRuns hr
  rw [helems, List.pairwise_map]
  exact (h keys hkeys).imp fun hlt => hR i _ _ hlt

/-! ### `bch2_sort_keys` -/

theorem mem_bch2SortKeys {sets : List (List BkeyPacked)} {k : BkeyPacked} :
    k ∈ bch2SortKeys sets ↔ (∃ keys ∈ sets, k ∈ keys) ∧ k.deleted = false := by
  have hperm := (merge_perm (f := cmpPacked) (sortIterRuns 0 sets)).map Prod.snd
  rw [sortIterRuns_elems, rankedKeys_map_snd] at hperm
  rw [bch2SortKeys, List.mem_filter, hperm.mem_iff, List.mem_flatten]
  simp

/-- The keys kept are in order when no two live keys share a position. -/
theorem posSorted_bch2SortKeys {sets : List (List BkeyPacked)}
    (h : ∀ keys ∈ sets, PosSorted keys)
    (hlive : (livePositions sets).Nodup) : PosSorted (bch2SortKeys sets) := by
  have hruns : RunsSorted cmpPacked (sortIterRuns 0 sets) :=
    runs_pairwise h fun i k k' hlt => le_of_lt hlt
  have hperm := (merge_perm (f := cmpPacked) (sortIterRuns 0 sets)).map Prod.snd
  rw [sortIterRuns_elems, rankedKeys_map_snd] at hperm
  have hle : (bch2SortKeys sets).Pairwise fun x y => x.pos ≤ y.pos :=
    List.Pairwise.filter _ (List.pairwise_map.mpr (merge_pairwise hruns))
  have hnodup : ((bch2SortKeys sets).map BkeyPacked.pos).Nodup := by
    rw [livePositions] at hlive
    rw [bch2SortKeys]
    exact ((hperm.filter fun k => !k.deleted).map BkeyPacked.pos).nodup_iff.mpr hlive
  exact (hle.and (List.pairwise_map.mp hnodup)).imp fun h => lt_of_le_of_ne h.1 h.2

/-! ### `bch2_key_sort_fix_overlapping` -/

/-- The last of several keys at a position. -/
def newestAt (keys : List BkeyPacked) (p : Bpos) : Option BkeyPacked :=
  (keys.filter fun k => k.pos = p).getLast?

/-- Keys of one position come in the order of their ranks. -/
theorem rankedKeys_pairwise (rank : ℕ) {sets : List (List BkeyPacked)}
    (h : ∀ keys ∈ sets, PosSorted keys) :
    (rankedKeys rank sets).Pairwise fun x y => x.2.pos = y.2.pos → x.1 < y.1 := by
  induction sets generalizing rank with
  | nil => exact List.Pairwise.nil
  | cons keys rest ih =>
    refine List.pairwise_append.mpr ⟨?_, ih _ fun l hl => h l (List.mem_cons_of_mem _ hl), ?_⟩
    · refine List.pairwise_map.mpr ((h keys (List.mem_cons_self ..)).imp ?_)
      intro x y hlt heq
      exact absurd heq (ne_of_lt hlt)
    · intro x hx y hy _
      obtain ⟨k, -, rfl⟩ := List.mem_map.mp hx
      exact le_rank_of_mem hy

/-- The merge by position and address leaves the newest key of every position. -/
theorem bch2KeySortFixOverlapping_eq {sets : List (List BkeyPacked)}
    (h : ∀ keys ∈ sets, PosSorted keys) :
    bch2KeySortFixOverlapping sets =
      ((lastOfGroup cmpPacked (merge keySortFixOverlappingCmp (sortIterRuns 0 sets))).filter
        fun x => !x.2.deleted).map Prod.snd := by
  have hmono : ∀ x y, keySortFixOverlappingCmp x ≤ keySortFixOverlappingCmp y →
      cmpPacked x ≤ cmpPacked y := fun x y hle => Prod.Lex.monotone_fst _ _ hle
  have hruns : RunsSorted keySortFixOverlappingCmp (sortIterRuns 0 sets) :=
    runs_pairwise h fun i k k' hlt => le_of_lt (Prod.Lex.toLex_lt_toLex.mpr (.inl hlt))
  have hlabels : ∀ r ∈ sortIterRuns 0 sets,
      (MergeRun.elems r).Pairwise fun x y => cmpPacked x < cmpPacked y :=
    runs_pairwise h fun i k k' hlt => hlt
  have hperm := sortRuns_perm keySortFixOverlappingCmp (sortIterRuns 0 sets)
  rw [bch2KeySortFixOverlapping, drainNewest_eq _ hmono (headsSorted_sortRuns _)
    (hruns.perm hperm) fun r hr => hlabels r (hperm.mem_iff.mp hr),
    drainPeek_eq _ (runsSize_sortRuns _).le]
  rfl

theorem mem_keySortFixOverlapping {sets : List (List BkeyPacked)}
    (h : ∀ keys ∈ sets, PosSorted keys) {k : BkeyPacked} :
    k ∈ bch2KeySortFixOverlapping sets ↔
      newestAt sets.flatten k.pos = some k ∧ k.deleted = false := by
  have hruns : RunsSorted keySortFixOverlappingCmp (sortIterRuns 0 sets) :=
    runs_pairwise h fun i k k' hlt => le_of_lt (Prod.Lex.toLex_lt_toLex.mpr (.inl hlt))
  have hsorted : (merge keySortFixOverlappingCmp (sortIterRuns 0 sets)).Pairwise
      fun x y => cmpPacked x ≤ cmpPacked y :=
    (merge_pairwise hruns).imp fun hle => Prod.Lex.monotone_fst _ _ hle
  -- at one position the merge keeps the order of the sets
  have hfilter : ∀ p, (merge keySortFixOverlappingCmp (sortIterRuns 0 sets)).filter
      (fun x => cmpPacked x = p) = (rankedKeys 0 sets).filter fun x => cmpPacked x = p := by
    intro p
    rw [← sortIterRuns_elems]
    refine merge_filter hruns _ ?_
    rw [sortIterRuns_elems, List.pairwise_filter]
    refine (rankedKeys_pairwise 0 h).imp fun hrank hx hy => ?_
    have hpos : cmpPacked _ = cmpPacked _ :=
      (of_decide_eq_true hx).trans (of_decide_eq_true hy).symm
    exact Prod.Lex.toLex_lt_toLex.mpr (.inr ⟨hpos, hrank hpos⟩)
  have hnewest : ∀ p, newestAt sets.flatten p =
      (((rankedKeys 0 sets).filter fun x => cmpPacked x = p).getLast?).map Prod.snd := by
    intro p
    rw [newestAt, ← rankedKeys_map_snd 0 sets, List.filter_map, List.getLast?_map]
    rfl
  rw [bch2KeySortFixOverlapping_eq h, List.mem_map, hnewest]
  constructor
  · rintro ⟨x, hx, rfl⟩
    obtain ⟨hx, hdel⟩ := List.mem_filter.mp hx
    rw [mem_lastOfGroup_iff hsorted, hfilter] at hx
    exact ⟨Option.map_eq_some_iff.mpr ⟨x, hx, rfl⟩, by simpa using hdel⟩
  · rintro ⟨hx, hdel⟩
    obtain ⟨x, hx, rfl⟩ := Option.map_eq_some_iff.mp hx
    refine ⟨x, List.mem_filter.mpr ⟨?_, by simpa using hdel⟩, rfl⟩
    rw [mem_lastOfGroup_iff hsorted, hfilter]
    exact hx

theorem posSorted_keySortFixOverlapping {sets : List (List BkeyPacked)}
    (h : ∀ keys ∈ sets, PosSorted keys) : PosSorted (bch2KeySortFixOverlapping sets) := by
  have hruns : RunsSorted keySortFixOverlappingCmp (sortIterRuns 0 sets) :=
    runs_pairwise h fun i k k' hlt => le_of_lt (Prod.Lex.toLex_lt_toLex.mpr (.inl hlt))
  have hsorted : (merge keySortFixOverlappingCmp (sortIterRuns 0 sets)).Pairwise
      fun x y => cmpPacked x ≤ cmpPacked y :=
    (merge_pairwise hruns).imp fun hle => Prod.Lex.monotone_fst _ _ hle
  rw [bch2KeySortFixOverlapping_eq h]
  exact List.pairwise_map.mpr ((lastOfGroup_pairwise hsorted).filter _)

/-! ### `bch2_sort_keys_keep_unwritten_whiteouts` -/

/-- The key of a position and a rank is one key. -/
theorem rankedKeys_eq_of {sets : List (List BkeyPacked)} (h : ∀ keys ∈ sets, PosSorted keys)
    {x y : RankedKey} (hx : x ∈ rankedKeys 0 sets) (hy : y ∈ rankedKeys 0 sets)
    (hpos : x.2.pos = y.2.pos) (hrank : x.1 = y.1) : x = y := by
  have hpair := rankedKeys_pairwise 0 h
  by_contra hne
  have := List.Pairwise.forall_of_forall_of_flip (R := fun x y : RankedKey =>
    x.2.pos = y.2.pos → x = y ∨ x.1 < y.1 ∨ y.1 < x.1) (fun x _ _ => Or.inl rfl)
    (hpair.imp fun h hp => Or.inr (Or.inl (h hp)))
    (hpair.imp fun h hp => Or.inr (Or.inr (h hp.symm))) hx hy hpos
  rcases this with heq | hlt | hlt
  · exact hne heq
  · omega
  · omega

theorem rankedKeys_append (rank : ℕ) (sets sets' : List (List BkeyPacked)) :
    rankedKeys rank (sets ++ sets') =
      rankedKeys rank sets ++ rankedKeys (rank + sets.length) sets' := by
  induction sets generalizing rank with
  | nil => rfl
  | cons keys rest ih =>
    simp [rankedKeys, ih, Nat.add_assoc, Nat.add_comm 1]

theorem rank_lt_of_mem {rank : ℕ} {sets : List (List BkeyPacked)} {x : RankedKey}
    (h : x ∈ rankedKeys rank sets) : x.1 < rank + sets.length := by
  induction sets generalizing rank with
  | nil => cases h
  | cons keys rest ih =>
    rcases List.mem_append.mp h with h | h
    · obtain ⟨k, -, rfl⟩ := List.mem_map.mp h
      simp
    · have := ih h
      simp only [List.length_cons]
      omega

theorem mem_rankedKeys_snd {rank : ℕ} {sets : List (List BkeyPacked)} {k : BkeyPacked} :
    (∃ i, (i, k) ∈ rankedKeys rank sets) ↔ ∃ keys ∈ sets, k ∈ keys := by
  rw [← List.mem_flatten, ← rankedKeys_map_snd rank sets]
  simp

/-- A live position is in one place only. -/
theorem rankedKeys_live_eq {sets : List (List BkeyPacked)} (hlive : (livePositions sets).Nodup)
    {x y : RankedKey} (hx : x ∈ rankedKeys 0 sets) (hy : y ∈ rankedKeys 0 sets)
    (hxl : x.2.deleted = false) (hyl : y.2.deleted = false) (hpos : x.2.pos = y.2.pos) :
    x = y := by
  have hmap : livePositions sets =
      ((rankedKeys 0 sets).filter fun x => !x.2.deleted).map fun x => x.2.pos := by
    rw [livePositions, ← rankedKeys_map_snd 0 sets, List.filter_map, List.map_map]
    rfl
  rw [hmap] at hlive
  exact List.inj_on_of_nodup_map hlive (List.mem_filter.mpr ⟨hx, by simpa using hxl⟩)
    (List.mem_filter.mpr ⟨hy, by simpa using hyl⟩) hpos

/-- Where a ranked key comes from. -/
theorem mem_rankedKeys_whiteouts {sets : List (List BkeyPacked)} {whiteouts : List BkeyPacked}
    {x : RankedKey} : x ∈ rankedKeys 0 (sets ++ [whiteouts]) ↔
      x ∈ rankedKeys 0 sets ∨ (x.1 = sets.length ∧ x.2 ∈ whiteouts) := by
  obtain ⟨i, k⟩ := x
  simp only [rankedKeys_append, List.mem_append, rankedKeys, List.append_nil, List.mem_map,
    Prod.mk.injEq, Nat.zero_add]
  constructor
  · rintro (h | ⟨k', hk', rfl, rfl⟩)
    · exact .inl h
    · exact .inr ⟨rfl, hk'⟩
  · rintro (h | ⟨rfl, hk'⟩)
    · exact .inl h
    · exact .inr ⟨k, hk', rfl, rfl⟩

section KeepUnwritten

variable {sets : List (List BkeyPacked)} {whiteouts : List BkeyPacked}

theorem keepUnwrittenWhiteoutsCmp_mono (x y : RankedKey)
    (h : keepUnwrittenWhiteoutsCmp x ≤ keepUnwrittenWhiteoutsCmp y) :
    cmpPacked x ≤ cmpPacked y :=
  Prod.Lex.monotone_fst _ _ h

/-- Of two keys at a position the live one counts, and of two deleted ones the one further
back. -/
theorem keepUnwrittenWhiteoutsCmp_le_iff {x y : RankedKey} (hpos : x.2.pos = y.2.pos) :
    keepUnwrittenWhiteoutsCmp x ≤ keepUnwrittenWhiteoutsCmp y ↔
      (x.2.deleted = true ∧ y.2.deleted = false) ∨
        (x.2.deleted = y.2.deleted ∧ x.1 ≤ y.1) := by
  simp only [keepUnwrittenWhiteoutsCmp, Prod.Lex.toLex_le_toLex, hpos, lt_irrefl, false_or,
    true_and]
  cases x.2.deleted <;> cases y.2.deleted <;> simp

theorem runsSorted_keepUnwritten (h : ∀ keys ∈ sets ++ [whiteouts], PosSorted keys) :
    RunsSorted keepUnwrittenWhiteoutsCmp (sortIterRuns 0 (sets ++ [whiteouts])) :=
  runs_pairwise h fun _ _ _ hlt => le_of_lt (Prod.Lex.toLex_lt_toLex.mpr (.inl hlt))

theorem bch2SortKeysKeepUnwrittenWhiteouts_eq :
    bch2SortKeysKeepUnwrittenWhiteouts sets whiteouts =
      ((lastOfGroup cmpPacked (merge keepUnwrittenWhiteoutsCmp
        (sortIterRuns 0 (sets ++ [whiteouts])))).filter
          fun x => !(x.2.deleted && decide (x.1 < sets.length))).map Prod.snd := by
  rw [bch2SortKeysKeepUnwrittenWhiteouts, drainPeek_eq _ (runsSize_sortRuns _).le]
  rfl

theorem posSorted_keepUnwrittenWhiteouts (h : ∀ keys ∈ sets ++ [whiteouts], PosSorted keys) :
    PosSorted (bch2SortKeysKeepUnwrittenWhiteouts sets whiteouts) := by
  have hsorted := (merge_pairwise (runsSorted_keepUnwritten h)).imp
    fun hle => keepUnwrittenWhiteoutsCmp_mono _ _ hle
  rw [bch2SortKeysKeepUnwrittenWhiteouts_eq]
  exact List.pairwise_map.mpr ((lastOfGroup_pairwise hsorted).filter _)

/-- What a write stores: the live keys, and the whiteouts of positions without one. -/
theorem mem_keepUnwrittenWhiteouts (h : ∀ keys ∈ sets ++ [whiteouts], PosSorted keys)
    (hlive : (livePositions sets).Nodup) (hdead : ∀ w ∈ whiteouts, w.deleted = true)
    {k : BkeyPacked} : k ∈ bch2SortKeysKeepUnwrittenWhiteouts sets whiteouts ↔
      (k.deleted = false ∧ ∃ keys ∈ sets, k ∈ keys) ∨
        (k ∈ whiteouts ∧ k.pos ∉ livePositions sets) := by
  have hmerge : ∀ x, x ∈ merge keepUnwrittenWhiteoutsCmp (sortIterRuns 0 (sets ++ [whiteouts])) ↔
      x ∈ rankedKeys 0 (sets ++ [whiteouts]) := by
    intro x
    rw [(merge_perm (f := keepUnwrittenWhiteoutsCmp) _).mem_iff, sortIterRuns_elems]
  have hinj : ∀ x ∈ merge keepUnwrittenWhiteoutsCmp (sortIterRuns 0 (sets ++ [whiteouts])),
      ∀ y ∈ merge keepUnwrittenWhiteoutsCmp (sortIterRuns 0 (sets ++ [whiteouts])),
        keepUnwrittenWhiteoutsCmp x = keepUnwrittenWhiteoutsCmp y → x = y := by
    intro x hx y hy heq
    have hpos : x.2.pos = y.2.pos := congrArg (fun z => (ofLex z).1) heq
    have hrank : x.1 = y.1 := congrArg (fun z => (ofLex (ofLex z).2).2) heq
    exact rankedKeys_eq_of h ((hmerge x).mp hx) ((hmerge y).mp hy) hpos hrank
  have hlast : ∀ x, x ∈ lastOfGroup cmpPacked
      (merge keepUnwrittenWhiteoutsCmp (sortIterRuns 0 (sets ++ [whiteouts]))) ↔
        x ∈ rankedKeys 0 (sets ++ [whiteouts]) ∧ ∀ y ∈ rankedKeys 0 (sets ++ [whiteouts]),
          y.2.pos = x.2.pos → keepUnwrittenWhiteoutsCmp y ≤ keepUnwrittenWhiteoutsCmp x := by
    intro x
    rw [mem_lastOfGroup_iff_forall (merge_pairwise (runsSorted_keepUnwritten h))
      keepUnwrittenWhiteoutsCmp_mono hinj]
    simp only [hmerge]
    rfl
  have hlivePos : ∀ p, p ∈ livePositions sets ↔
      ∃ y ∈ rankedKeys 0 sets, y.2.deleted = false ∧ y.2.pos = p := by
    intro p
    rw [livePositions, ← rankedKeys_map_snd 0 sets]
    simp only [List.mem_map, List.mem_filter, Bool.not_eq_true']
    constructor
    · rintro ⟨k, ⟨⟨y, hy, rfl⟩, hdel⟩, rfl⟩
      exact ⟨y, hy, hdel, rfl⟩
    · rintro ⟨y, hy, hdel, rfl⟩
      exact ⟨y.2, ⟨⟨y, hy, rfl⟩, hdel⟩, rfl⟩
  rw [bch2SortKeysKeepUnwrittenWhiteouts_eq, List.mem_map]
  simp only [List.mem_filter, hlast, mem_rankedKeys_whiteouts, hlivePos]
  constructor
  · rintro ⟨⟨i, k⟩, ⟨⟨hx, hmax⟩, hq⟩, rfl⟩
    rcases hx with hx | ⟨rfl, hx⟩
    · -- a key of the sets that is kept is live
      have hlt : i < sets.length := by simpa using rank_lt_of_mem hx
      have hdel : k.deleted = false := by simpa [hlt] using hq
      exact .inl ⟨hdel, mem_rankedKeys_snd.mp ⟨i, hx⟩⟩
    · refine .inr ⟨hx, ?_⟩
      rintro ⟨y, hy, hydel, hpos⟩
      have hle := hmax y (.inl hy) hpos
      rw [keepUnwrittenWhiteoutsCmp_le_iff hpos] at hle
      simp [hydel, hdead k hx] at hle
  · rintro (⟨hdel, hk⟩ | ⟨hk, hnone⟩)
    · obtain ⟨i, hi⟩ := mem_rankedKeys_snd.mpr hk
      refine ⟨(i, k), ⟨⟨.inl hi, ?_⟩, by simp [hdel]⟩, rfl⟩
      intro y hy hpos
      rw [keepUnwrittenWhiteoutsCmp_le_iff hpos]
      by_cases hydel : y.2.deleted = true
      · exact .inl ⟨hydel, hdel⟩
      · have hydel' : y.2.deleted = false := by simpa using hydel
        rcases hy with hy | ⟨-, hy⟩
        · rw [rankedKeys_live_eq hlive hy hi hydel' hdel hpos]
          exact .inr ⟨rfl, le_rfl⟩
        · exact absurd (hdead _ hy) hydel
    · refine ⟨(sets.length, k), ⟨⟨.inr ⟨rfl, hk⟩, ?_⟩, by simp⟩, rfl⟩
      intro y hy hpos
      rw [keepUnwrittenWhiteoutsCmp_le_iff hpos]
      rcases hy with hy | ⟨hrank, hy⟩
      · have hydel : y.2.deleted = true := by
          by_contra hlive'
          exact hnone ⟨y, hy, by simpa using hlive', hpos⟩
        exact .inr ⟨hydel.trans (hdead k hk).symm, by simpa using (rank_lt_of_mem hy).le⟩
      · exact .inr ⟨(hdead _ hy).trans (hdead k hk).symm, hrank.le⟩

end KeepUnwritten

end Subvol

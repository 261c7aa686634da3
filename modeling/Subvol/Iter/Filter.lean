import Subvol.Iter.Visible

/-!
# Filtered iteration

An iterator that filters snapshots walks from key to key: it passes over keys of other snapshots and
over whiteouts, and stops at a key that its snapshot sees. What is proved of every call that returns
is that it has passed over nothing else. Two things keep iteration from being complete: a key at the
slot of the end is compared with the end by its snapshot too, and an extent whiteout before the end
sends the iterator back to where it was.

## Main definitions

* `Filtering`: an iterator that filters snapshots and is not one of extents.
* `FilterTurn`: what the filter does with a key.
* `FilteredFrom`: what a call comes to that returns.
* `RangeClear`, `EndClear`: the ranges over which iteration is complete.

## Main results

* `filterKey_turn`: what the filter does with a key.
* `filter_sound`, `filter_returns`: one call.
* `forEach_sound`, `forEach_returns`: a run of calls.
-/

namespace Subvol

open Lib

/-- An iterator that filters for a snapshot and is not one of extents. -/
structure Filtering (s : Fin (2 ^ 32)) (iter : BtreeIter) : Prop where
  isExtents : iter.isExtents = false
  filterSnapshots : iter.filterSnapshots = true
  nofilterWhiteouts : iter.nofilterWhiteouts = false
  snapshot : iter.snapshot = s

theorem Filtering.moved {s : Fin (2 ^ 32)} {iter : BtreeIter} (h : Filtering s iter) (pos : Bpos)
    (k : Bkey) : Filtering s { iter with pos := pos, k := k } :=
  ⟨h.isExtents, h.filterSnapshots, h.nofilterWhiteouts, h.snapshot⟩

/-- What the filter does with the first live key `k` from the position `p` on. -/
inductive FilterTurn (parent : ℕ → ℕ) (t : Btree) (s : Fin (2 ^ 32)) (stop : Bpos)
    (iter : BtreeIter) (p : Bpos) (k : Bkey) : Option (Turn BtreeIter (BtreeIter × Peek)) → Prop
  | hidden (q : Bpos) (hlt : k.p < q) (hq : Ahead parent t s q)
      (hpass : ∀ k', VisibleAt parent t s k' → p.slot ≤ k'.p.slot → q.slot ≤ k'.p.slot) :
      FilterTurn parent t s stop iter p k (some (.next { iter with pos := q }))
  | hiddenLast (hmax : k.p = sposMax) (hanc : ¬Ancestor parent s k.p.snapshot) :
      FilterTurn parent t s stop iter p k none
  | whiteout (q : Bpos) (hk : VisibleAt parent t s k) (htype : k.type = keyTypeWhiteout)
      (hslot : q.slot = k.p.slot + 1) (hsnap : q.snapshot = s) :
      FilterTurn parent t s stop iter p k (some (.next { iter with pos := q }))
  | whiteoutLast (hk : VisibleAt parent t s k) (htype : k.type = keyTypeWhiteout)
      (hslot : k.p.slot = sposMax.slot) : FilterTurn parent t s stop iter p k none
  | extentEnd (iter' : BtreeIter) (hk : VisibleAt parent t s k)
      (htype : k.type = keyTypeExtentWhiteout) (hslot : stop.slot ≤ k.p.slot) :
      FilterTurn parent t s stop iter p k (some (.done (iter', .null)))
  | extentBack (hk : VisibleAt parent t s k) (htype : k.type = keyTypeExtentWhiteout)
      (hslot : k.p.slot < stop.slot) :
      FilterTurn parent t s stop iter p k (some (.next { iter with pos := k.p.withSnapshot s }))
  | seen (hk : VisibleAt parent t s k) (hdata : k.whiteout = false) :
      FilterTurn parent t s stop iter p k (some (.done (iter, .key k)))

section Filter

variable {keys : List SnapshotKey} {table : SnapshotTable} {t : Btree} {s : Fin (2 ^ 32)}
  {stop : Bpos} {fuel : ℕ} {iter : BtreeIter}

/-- The test for an ancestor, at ids from that of the snapshot on. -/
theorem isAncestor_filter (hwf : SnapshotKeysWf keys) (htab : TableOf keys keys table) (hs : s ≠ 0)
    (hfuel : searchTurns ≤ fuel) {a : Fin (2 ^ 32)} (hle : s ≤ a) :
    ∃ r, bch2SnapshotIsAncestor fuel table s a = some r ∧
      (r = true ↔ Ancestor (keyParent keys) s a) := by
  have hs' : (s : ℕ) ≠ 0 := fun h => hs (Fin.ext h)
  have hle' : (s : ℕ) ≤ a := hle
  refine isAncestor_spec hwf htab (Nat.le_sub_one_of_lt s.isLt) hs' (by omega) ?_
  exact a.isLt.trans_le (le_trans (by rw [searchTurns]; omega) hfuel)

/-- The types of the live keys that the filter takes for whiteouts. -/
theorem type_of_whiteout {k : Bkey} (hlive : k.deleted = false) (h : k.whiteout = true)
    (hne : k.type ≠ keyTypeExtentWhiteout) : k.type = keyTypeWhiteout := by
  simp only [Bkey.whiteout, Bool.or_eq_true, beq_iff_eq] at h
  rcases h with (h | h) | h
  · simp [Bkey.deleted, h] at hlive
  · exact h
  · exact absurd h hne

/-- What the filter does with a key that is seen. -/
theorem filterKey_visible (hiter : Filtering s iter) {parent : ℕ → ℕ} {p : Bpos} {k : Bkey}
    (hk : VisibleAt parent t s k) :
    FilterTurn parent t s stop iter p k
      (if !iter.nofilterWhiteouts && k.whiteout then
        if k.type = keyTypeExtentWhiteout then
          if ¬bkeyLt k.p stop then some (.done (btreeIterSetPos iter stop, .null))
          else some (.next { iter with pos := k.p.withSnapshot iter.snapshot })
        else (bposNosnapSuccessor k.p).bind fun next =>
          some (.next { iter with pos := next.withSnapshot iter.snapshot })
      else some (.done (iter, .key k))) := by
  obtain rfl := hiter.snapshot
  have hif : (!iter.nofilterWhiteouts && k.whiteout) = k.whiteout := by
    rw [hiter.nofilterWhiteouts, Bool.not_false, Bool.true_and]
  rw [hif]
  by_cases hw : k.whiteout = true
  · rw [if_pos hw]
    by_cases htype : k.type = keyTypeExtentWhiteout
    · rw [if_pos htype]
      by_cases hslot : k.p.slot < stop.slot
      · rw [if_neg (not_not.mpr (bkeyLt_iff.mpr hslot))]
        exact .extentBack hk htype hslot
      · rw [if_pos fun hlt => hslot (bkeyLt_iff.mp hlt)]
        exact .extentEnd _ hk htype (not_lt.mp hslot)
    · rw [if_neg htype]
      have htype' := type_of_whiteout hk.live.2 hw htype
      by_cases hlast : k.p.slot = sposMax.slot
      · rw [bposNosnapSuccessor_eq_none hlast, Option.bind_none]
        exact .whiteoutLast hk htype' hlast
      · have hlt : k.p.slot < 2 ^ 128 - 1 := by
          rw [Bpos.slot_sposMax] at hlast
          exact lt_of_le_of_ne k.p.slot_le hlast
        obtain ⟨q, hq, hslot, -⟩ := bposNosnapSuccessor_eq_some hlt
        rw [hq, Option.bind_some]
        exact .whiteout (q.withSnapshot iter.snapshot) hk htype' hslot rfl
  · rw [if_neg hw]
    exact .seen hk (by simpa using hw)

/-- What the filter does with the first live key from the position of the iterator on. -/
theorem filterKey_turn (hwf : SnapshotKeysWf keys) (htab : TableOf keys keys table) (hs : s ≠ 0)
    (hfuel : searchTurns ≤ fuel) (hiter : Filtering s iter) {p : Bpos} {k : Bkey}
    (hk : t.FirstFrom p k) (hp : Ahead (keyParent keys) t s p) (hstop : k.p ≤ stop) :
    FilterTurn (keyParent keys) t s stop iter p k (filterKey fuel table stop iter k) := by
  have hpast : ¬iter.filterPastEnd stop k.p = true := by
    rw [BtreeIter.filterPastEnd, hiter.isExtents, if_neg Bool.false_ne_true, decide_eq_true_iff,
      bkeyLt_iff]
    exact not_lt.mpr (Bpos.slot_mono hstop)
  have hup := hwf.rising
  obtain rfl := hiter.snapshot
  by_cases hbelow : k.p.snapshot < iter.snapshot
  · rw [filterKey, if_neg hpast, if_pos hbelow]
    refine .hidden (k.p.withSnapshot iter.snapshot) ?_ (ahead_of_le hup le_rfl) fun k' hk' hslot => ?_
    · exact Bpos.lt_iff_slot.mpr (.inr ⟨rfl, hbelow⟩)
    · rw [Bpos.withSnapshot_slot]
      exact Bpos.slot_mono (hk.le_of_slot hp hk'.live hk'.ancestor hslot)
  obtain ⟨r, hr, hiff⟩ := isAncestor_filter hwf htab hs hfuel (not_lt.mp hbelow)
  rw [filterKey, if_neg hpast, if_neg hbelow, hr, Option.bind_eq_bind, Option.bind_some]
  by_cases hanc : Ancestor (keyParent keys) iter.snapshot k.p.snapshot
  · rw [hiff.mpr hanc, Bool.not_true, if_neg Bool.false_ne_true]
    exact filterKey_visible hiter (hk.visibleAt hup hp hanc)
  · have hr' : r = false := by simpa using fun h => hanc (hiff.mp h)
    rw [hr', Bool.not_false, if_pos rfl]
    by_cases hmax : k.p = sposMax
    · rw [hmax, bposSuccessor_sposMax, Option.bind_eq_bind, Option.bind_none]
      exact .hiddenLast hmax hanc
    · obtain ⟨q, hq, hnat⟩ := bposSuccessor_eq_some hmax
      obtain ⟨hahead, hpass⟩ := hk.ahead_succ hp hanc hnat
      rw [hq, Option.bind_eq_bind, Option.bind_some]
      have hlt : k.p < q := Bpos.lt_iff_toNat.mpr (by omega)
      exact .hidden q hlt hahead hpass

/-- A key at the last position of all where there is a deleted key too. -/
def LastDeleted (t : Btree) (k : Bkey) : Prop :=
  k.p = sposMax ∧ ∃ d ∈ t.keys, d.p = sposMax ∧ d.deleted = true

/-- One turn of the filter: no key up to the end is left, or the first one is dealt with. -/
theorem filterStep_turn (hwf : SnapshotKeysWf keys) (htab : TableOf keys keys table) (hv : t.Valid)
    (hs : s ≠ 0) (hfuel : searchTurns ≤ fuel) (hiter : Filtering s iter)
    (hp : Ahead (keyParent keys) t s iter.pos) :
    (∃ iter', filterStep fuel table t stop iter = some (.done (iter', .null)) ∧
      ∀ k, VisibleAt (keyParent keys) t s k → iter.pos.slot ≤ k.p.slot →
        stop < k.p ∨ LastDeleted t k) ∨
    ∃ k, t.FirstFrom iter.pos k ∧ k.p ≤ stop ∧
      FilterTurn (keyParent keys) t s stop { iter with pos := k.p, k := k } iter.pos k
        (filterStep fuel table t stop iter) := by
  obtain ⟨⟨iter', ret⟩, hx, hpeek⟩ := peekMax_spec hv hiter.isExtents hfuel
  rw [filterStep, hx, Option.bind_eq_bind, Option.bind_some]
  rcases hpeek with ⟨rfl, hnull⟩ | ⟨k, hk, hstop, heq⟩
  · refine .inl ⟨iter', rfl, fun k hk hslot => ?_⟩
    rcases hnull k hk.live (hp.le hk.live hk.ancestor hslot) with hlt | ⟨-, hlast⟩
    · exact .inl hlt
    · exact .inr hlast
  · obtain ⟨rfl, rfl⟩ := Prod.mk.inj heq
    exact .inr ⟨k, hk, hstop, filterKey_turn hwf htab hs hfuel (hiter.moved k.p k) hk hp hstop⟩

/-! ### One call -/

/-- What a call from a position comes to that returns. If it finds no key, all keys seen from there
on are whiteouts, or lie behind the end by their snapshots; one at the slot of the end may be an
extent whiteout. If it finds one, only whiteouts are seen before it. -/
def FilteredFrom (parent : ℕ → ℕ) (t : Btree) (s : Fin (2 ^ 32)) (stop p : Bpos) (iter : BtreeIter)
    (x : BtreeIter × Peek) : Prop :=
  (x.2 = .null ∧ ∀ k, VisibleAt parent t s k → p.slot ≤ k.p.slot →
    k.type = keyTypeWhiteout ∨ stop < k.p ∨ LastDeleted t k ∨
      k.type = keyTypeExtentWhiteout ∧ stop.slot ≤ k.p.slot) ∨
  ∃ k, VisibleAt parent t s k ∧ k.whiteout = false ∧ p.slot ≤ k.p.slot ∧ k.p ≤ stop ∧
    (∀ k', VisibleAt parent t s k' → p.slot ≤ k'.p.slot → k'.p.slot < k.p.slot →
      k'.type = keyTypeWhiteout) ∧ x = ({ iter with pos := k.p, k := k }, .key k)

/-- A call that goes on from a later position having passed over whiteouts only. -/
theorem FilteredFrom.of_next {parent : ℕ → ℕ} {p q pos : Bpos} {k : Bkey} {x : BtreeIter × Peek}
    (hpq : p.slot ≤ q.slot) (hpass : ∀ k', VisibleAt parent t s k' → p.slot ≤ k'.p.slot →
      q.slot ≤ k'.p.slot ∨ k'.type = keyTypeWhiteout)
    (h : FilteredFrom parent t s stop q { iter with pos := pos, k := k } x) :
    FilteredFrom parent t s stop p iter x := by
  rcases h with ⟨hx, hnull⟩ | ⟨k', hk', hdata, hslot, hstop, hbefore, hx⟩
  · refine .inl ⟨hx, fun k' hk' hslot => ?_⟩
    rcases hpass k' hk' hslot with hq | htype
    · exact hnull k' hk' hq
    · exact .inl htype
  · refine .inr ⟨k', hk', hdata, hpq.trans hslot, hstop, fun k'' hk'' hslot' hlt => ?_, hx⟩
    rcases hpass k'' hk'' hslot' with hq | htype
    · exact hbefore k'' hk'' hq hlt
    · exact htype

/-- An extent whiteout before the end is never passed over. -/
theorem FilteredFrom.not_extentWhiteout {parent : ℕ → ℕ} (hv : t.Valid) (hup : Rising parent)
    {p : Bpos} {x : BtreeIter × Peek} (h : FilteredFrom parent t s stop p iter x) {k : Bkey}
    (hk : VisibleAt parent t s k) (htype : k.type = keyTypeExtentWhiteout)
    (hslot : p.slot ≤ k.p.slot) (hstop : k.p.slot < stop.slot)
    (hle : ∀ k', VisibleAt parent t s k' → p.slot ≤ k'.p.slot → k.p.slot ≤ k'.p.slot) :
    False := by
  have hne : k.type ≠ keyTypeWhiteout := by
    rw [htype]
    decide
  rcases h with ⟨-, hnull⟩ | ⟨k', hk', hdata, hslot', -, hbefore, -⟩
  · rcases hnull k hk hslot with h | h | h | ⟨-, h⟩
    · exact hne h
    · exact absurd (Bpos.slot_mono h.le) (not_le.mpr hstop)
    · rw [h.1, Bpos.slot_sposMax] at hstop
      exact absurd stop.slot_le (not_le.mpr hstop)
    · exact absurd h (not_le.mpr hstop)
  · rcases (hle k' hk' hslot').lt_or_eq with hlt | heq
    · exact hne (hbefore k hk hslot hlt)
    · obtain rfl := hk.unique hv hup hk' heq
      simp [Bkey.whiteout, htype] at hdata

/-- Every call that returns has passed over whiteouts only. -/
theorem filter_sound (hwf : SnapshotKeysWf keys) (htab : TableOf keys keys table) (hv : t.Valid)
    (hs : s ≠ 0) (hfuel : searchTurns ≤ fuel) {turns : ℕ} {x : BtreeIter × Peek} :
    ∀ {iter : BtreeIter}, Filtering s iter → Ahead (keyParent keys) t s iter.pos →
      loop (filterStep fuel table t stop) turns iter = some x →
      FilteredFrom (keyParent keys) t s stop iter.pos iter x := by
  have hup := hwf.rising
  induction turns with
  | zero => exact fun _ _ hrun => nomatch hrun
  | succ turns ih =>
    intro iter hiter hp hrun
    rcases filterStep_turn hwf htab hv hs hfuel hiter hp with
      ⟨iter', hstep, hnull⟩ | ⟨k, hk, hstop, hturn⟩
    · rw [loop_succ_done hstep] at hrun
      obtain rfl := Option.some.inj hrun
      refine .inl ⟨rfl, fun k hk hslot => ?_⟩
      rcases hnull k hk hslot with hlt | hlast
      · exact .inr (.inl hlt)
      · exact .inr (.inr (.inl hlast))
    have hslot := Bpos.slot_mono hk.le
    have hfirst : ∀ k', VisibleAt (keyParent keys) t s k' → iter.pos.slot ≤ k'.p.slot →
        k.p.slot ≤ k'.p.slot :=
      fun k' hk' hle => Bpos.slot_mono (hk.le_of_slot hp hk'.live hk'.ancestor hle)
    generalize hstep : filterStep fuel table t stop iter = turn at hturn
    cases hturn with
    | hidden q hlt hq hpass =>
      rw [loop_succ_next hstep] at hrun
      refine (ih (hiter.moved q k) hq hrun).of_next (hslot.trans (Bpos.slot_mono hlt.le))
        fun k' hk' hle => .inl (hpass k' hk' hle)
    | hiddenLast hmax hanc =>
      rw [loop_none hstep] at hrun
      cases hrun
    | whiteout q hseen htype hq hsnap =>
      rw [loop_succ_next hstep] at hrun
      have hqslot : iter.pos.slot ≤ q.slot := by omega
      refine (ih (hiter.moved q k) (ahead_of_le hup hsnap.le) hrun).of_next hqslot
        fun k' hk' hle => ?_
      rcases (hfirst k' hk' hle).lt_or_eq with hlt | heq
      · exact .inl (by omega)
      · exact .inr (hseen.unique hv hup hk' heq ▸ htype)
    | whiteoutLast hseen htype hlast =>
      rw [loop_none hstep] at hrun
      cases hrun
    | extentEnd iter' hseen htype hend =>
      rw [loop_succ_done hstep] at hrun
      obtain rfl := Option.some.inj hrun
      refine .inl ⟨rfl, fun k' hk' hle => ?_⟩
      rcases (hfirst k' hk' hle).lt_or_eq with hlt | heq
      · exact .inr (.inl (Bpos.lt_iff_slot.mpr (.inl (hend.trans_lt hlt))))
      · obtain rfl := hseen.unique hv hup hk' heq
        exact .inr (.inr (.inr ⟨htype, hend⟩))
    | extentBack hseen htype hlt =>
      rw [loop_succ_next hstep] at hrun
      have hrest := ih (hiter.moved (k.p.withSnapshot s) k) (ahead_of_le hup le_rfl) hrun
      exact (hrest.not_extentWhiteout hv hup hseen htype le_rfl hlt fun _ _ hle => hle).elim
    | seen hseen hdata =>
      rw [loop_succ_done hstep] at hrun
      obtain rfl := Option.some.inj hrun
      exact .inr ⟨k, hseen, hdata, hslot, hstop,
        fun k' hk' hle hlt => absurd (hfirst k' hk' hle) (not_le.mpr hlt), rfl⟩

/-- A range over which iteration is complete: no key seen at the slot of the end has a larger
snapshot than the end, and no extent whiteout is seen before the end. -/
structure RangeClear (parent : ℕ → ℕ) (t : Btree) (s : Fin (2 ^ 32)) (start stop : Bpos) :
    Prop where
  ending : ∀ k, VisibleAt parent t s k → k.whiteout = false → start.slot ≤ k.p.slot →
    k.p.slot = stop.slot → k.p.snapshot ≤ stop.snapshot
  back : ∀ k, VisibleAt parent t s k → start.slot ≤ k.p.slot → k.p.slot < stop.slot →
    k.type ≠ keyTypeExtentWhiteout

/-- The last slot of all does not stop an iteration that comes to it: no whiteout is seen there, and
if the last position itself is not behind the end, then its keys are not deleted and are of
ancestors. -/
structure EndClear (parent : ℕ → ℕ) (t : Btree) (s : Fin (2 ^ 32)) (stop : Bpos) : Prop where
  whiteout : ∀ k, VisibleAt parent t s k → k.p.slot = sposMax.slot → k.p ≤ stop →
    k.type ≠ keyTypeWhiteout
  last : stop = sposMax → ∀ k ∈ t.keys, k.p = sposMax →
    k.deleted = false ∧ Ancestor parent s k.p.snapshot

theorem EndClear.not_lastDeleted {parent : ℕ → ℕ} (h : EndClear parent t s stop) {k : Bkey}
    (hle : k.p ≤ stop) : ¬LastDeleted t k := by
  rintro ⟨hmax, d, hd, hdmax, hdel⟩
  have hstop : stop = sposMax := le_antisymm (Bpos.le_sposMax _) (hmax ▸ hle)
  rw [(h.last hstop d hd hdmax).1] at hdel
  cases hdel

/-- Without extent whiteouts before the end every call returns. -/
theorem filter_returns (hwf : SnapshotKeysWf keys) (htab : TableOf keys keys table) (hv : t.Valid)
    (hs : s ≠ 0) (hfuel : searchTurns ≤ fuel) (hend : EndClear (keyParent keys) t s stop)
    {turns : ℕ} : ∀ {iter : BtreeIter}, Filtering s iter → Ahead (keyParent keys) t s iter.pos →
      (∀ k, VisibleAt (keyParent keys) t s k → iter.pos.slot ≤ k.p.slot →
        k.p.slot < stop.slot → k.type ≠ keyTypeExtentWhiteout) →
      sposMax.toNat - iter.pos.toNat < turns →
      ∃ x, loop (filterStep fuel table t stop) turns iter = some x := by
  have hup := hwf.rising
  induction turns with
  | zero => exact fun _ _ _ hturns => absurd hturns (Nat.not_lt_zero _)
  | succ turns ih =>
    intro iter hiter hp hback hturns
    rcases filterStep_turn hwf htab hv hs hfuel hiter hp with
      ⟨iter', hstep, -⟩ | ⟨k, hk, hstop, hturn⟩
    · exact ⟨_, loop_succ_done hstep turns⟩
    have hle := hk.le
    -- every turn that goes on does so from a position further on
    have hnext : ∀ q, k.p < q → Ahead (keyParent keys) t s q →
        filterStep fuel table t stop iter = some (.next { iter with pos := q, k := k }) →
        ∃ x, loop (filterStep fuel table t stop) (turns + 1) iter = some x := by
      intro q hlt hq hstep
      have hlt' : iter.pos < q := hle.trans_lt hlt
      have hmax := Bpos.le_sposMax q
      rw [Bpos.lt_iff_toNat] at hlt'
      rw [Bpos.le_iff_toNat] at hmax
      obtain ⟨x, hx⟩ := ih (hiter.moved q k) hq (fun k' hk' hslot => hback k' hk'
        ((Bpos.slot_mono (Bpos.le_iff_toNat.mpr hlt'.le)).trans hslot)) (by dsimp only; omega)
      exact ⟨x, (loop_succ_next hstep turns).trans hx⟩
    generalize hstep : filterStep fuel table t stop iter = turn at hturn
    cases hturn with
    | hidden q hlt hq _ => exact hnext q hlt hq hstep
    | hiddenLast hmax hanc =>
      have hstop' : stop = sposMax := le_antisymm (Bpos.le_sposMax _) (hmax ▸ hstop)
      exact absurd (hend.last hstop' k hk.live.1 hmax).2 hanc
    | whiteout q hseen _ hq hsnap =>
      have hlt : k.p < q := Bpos.lt_iff_slot.mpr (.inl (by omega))
      exact hnext q hlt (ahead_of_le hup hsnap.le) hstep
    | whiteoutLast hseen htype hlast => exact absurd htype (hend.whiteout k hseen hlast hstop)
    | extentEnd iter' _ _ _ => exact ⟨_, loop_succ_done hstep turns⟩
    | extentBack hseen htype hlt =>
      exact absurd htype (hback k hseen (Bpos.slot_mono hle) hlt)
    | seen _ _ => exact ⟨_, loop_succ_done hstep turns⟩

/-! ### A run of calls -/

/-- The step of an iterator that has returned a key: it ends at the last slot, and otherwise is at
the next one. -/
theorem advance_cases (hiter : Filtering s iter) :
    (iter.k.p.slot = sposMax.slot ∧ ∃ iter', bch2BtreeIterAdvance iter = some (iter', false)) ∨
    ∃ iter', bch2BtreeIterAdvance iter = some (iter', true) ∧ Filtering s iter' ∧
      iter'.pos.slot = iter.k.p.slot + 1 ∧ iter'.pos.snapshot = s := by
  by_cases hlast : iter.k.p.slot = sposMax.slot
  · rw [bch2BtreeIterAdvance, if_pos (bkeyEq_iff.mpr hlast)]
    exact .inl ⟨hlast, _, rfl⟩
  · have hlt : iter.k.p.slot < 2 ^ 128 - 1 := by
      rw [Bpos.slot_sposMax] at hlast
      exact lt_of_le_of_ne iter.k.p.slot_le hlast
    obtain ⟨q, hq, hslot, -⟩ := bposNosnapSuccessor_eq_some hlt
    refine .inr ⟨btreeIterSetPos iter q, ?_, ⟨hiter.isExtents, hiter.filterSnapshots,
      hiter.nofilterWhiteouts, hiter.snapshot⟩, hslot, hiter.snapshot⟩
    rw [bch2BtreeIterAdvance, if_neg fun h => hlast (bkeyEq_iff.mp h), hiter.isExtents,
      if_neg Bool.false_ne_true, hq, Option.map_some]

/-- What a run of calls from a slot on enumerates. -/
structure EnumeratedFrom (parent : ℕ → ℕ) (t : Btree) (s : Fin (2 ^ 32)) (stop : Bpos) (n : ℕ)
    (ks : List Bkey) : Prop where
  sorted : ks.Pairwise fun k k' => k.p.slot < k'.p.slot
  seen : ∀ k ∈ ks, VisibleAt parent t s k ∧ k.whiteout = false ∧ n ≤ k.p.slot ∧ k.p ≤ stop
  complete : ∀ k, VisibleAt parent t s k → n ≤ k.p.slot →
    k ∈ ks ∨ k.type = keyTypeWhiteout ∨ stop < k.p ∨ LastDeleted t k ∨
      k.type = keyTypeExtentWhiteout ∧ stop.slot ≤ k.p.slot

/-- A key found, and the keys enumerated from the next slot on. -/
theorem EnumeratedFrom.cons {parent : ℕ → ℕ} (hv : t.Valid) (hup : Rising parent) {n : ℕ}
    {k : Bkey} {ks : List Bkey} (hk : VisibleAt parent t s k) (hdata : k.whiteout = false)
    (hslot : n ≤ k.p.slot) (hstop : k.p ≤ stop)
    (hbefore : ∀ k', VisibleAt parent t s k' → n ≤ k'.p.slot → k'.p.slot < k.p.slot →
      k'.type = keyTypeWhiteout) (h : EnumeratedFrom parent t s stop (k.p.slot + 1) ks) :
    EnumeratedFrom parent t s stop n (k :: ks) where
  sorted := by
    refine List.pairwise_cons.mpr ⟨fun k' hk' => ?_, h.sorted⟩
    exact (h.seen k' hk').2.2.1
  seen := by
    intro k' hk'
    rcases List.mem_cons.mp hk' with rfl | hk'
    · exact ⟨hk, hdata, hslot, hstop⟩
    · obtain ⟨hv', hd', hle, hstop'⟩ := h.seen k' hk'
      exact ⟨hv', hd', by omega, hstop'⟩
  complete := by
    intro k' hk' hle
    rcases Nat.lt_trichotomy k'.p.slot k.p.slot with hlt | heq | hgt
    · exact .inr (.inl (hbefore k' hk' hle hlt))
    · exact .inl (hk'.unique hv hup hk heq ▸ List.mem_cons_self ..)
    · rcases h.complete k' hk' hgt with hmem | hrest
      · exact .inl (List.mem_cons_of_mem _ hmem)
      · exact .inr hrest

/-- Nothing is left behind the last slot. -/
theorem enumeratedFrom_last {parent : ℕ → ℕ} {n : ℕ} (hn : n = sposMax.slot + 1) :
    EnumeratedFrom parent t s stop n [] where
  sorted := List.Pairwise.nil
  seen := fun _ hk => nomatch hk
  complete := by
    intro k _ hle
    have := k.p.slot_le
    rw [Bpos.slot_sposMax] at hn
    omega

/-- A turn of a run with a call that finds no key. -/
theorem forEachStep_null {x : BtreeIter × Peek} {acc : List Bkey}
    (hpeek : bch2BtreeIterPeekMax fuel table t iter stop = some x) (hx : x.2 = .null) :
    forEachStep fuel table t stop (iter, acc) = some (.done acc) := by
  rw [forEachStep, hpeek, Option.bind_eq_bind, Option.bind_some, hx]

/-- A turn with a call that finds one: the run ends at the last slot and otherwise goes on from the
next one. -/
theorem forEachStep_key (hiter : Filtering s iter) {k : Bkey} {acc : List Bkey}
    (hpeek : bch2BtreeIterPeekMax fuel table t iter stop =
      some ({ iter with pos := k.p, k := k }, .key k)) :
    (k.p.slot = sposMax.slot ∧
      forEachStep fuel table t stop (iter, acc) = some (.done (acc ++ [k]))) ∨
    ∃ iter', forEachStep fuel table t stop (iter, acc) = some (.next (iter', acc ++ [k])) ∧
      Filtering s iter' ∧ iter'.pos.slot = k.p.slot + 1 ∧ iter'.pos.snapshot = s := by
  rw [forEachStep, hpeek, Option.bind_eq_bind, Option.bind_some]
  dsimp only
  rcases advance_cases (hiter.moved k.p k) with ⟨hlast, iter', hadv⟩ | ⟨iter', hadv, hnext⟩
  · refine .inl ⟨hlast, ?_⟩
    rw [hadv, Option.bind_eq_bind, Option.bind_some, if_neg Bool.false_ne_true]
  · refine .inr ⟨iter', ?_, hnext⟩
    rw [hadv, Option.bind_eq_bind, Option.bind_some, if_pos rfl]

/-- The keys that a run of calls returns are those seen, without what a call passes over. -/
theorem forEach_sound (hwf : SnapshotKeysWf keys) (htab : TableOf keys keys table) (hv : t.Valid)
    (hs : s ≠ 0) (hfuel : searchTurns ≤ fuel) {turns : ℕ} {ks : List Bkey} :
    ∀ {iter : BtreeIter} {acc : List Bkey}, Filtering s iter → iter.pos.snapshot = s →
      loop (forEachStep fuel table t stop) turns (iter, acc) = some ks →
      ∃ ks', ks = acc ++ ks' ∧ EnumeratedFrom (keyParent keys) t s stop iter.pos.slot ks' := by
  have hup := hwf.rising
  induction turns with
  | zero => exact fun _ _ hrun => nomatch hrun
  | succ turns ih =>
    intro iter acc hiter hsnap hrun
    cases hpeek : bch2BtreeIterPeekMax fuel table t iter stop with
    | none =>
      have hstep : forEachStep fuel table t stop (iter, acc) = none := by
        rw [forEachStep, hpeek, Option.bind_eq_bind, Option.bind_none]
      rw [loop_none hstep] at hrun
      cases hrun
    | some x =>
      have hcall := hpeek
      rw [bch2BtreeIterPeekMax, if_pos hiter.filterSnapshots] at hcall
      rcases filter_sound hwf htab hv hs hfuel hiter (ahead_of_le hup hsnap.le) hcall with
        ⟨hx, hnull⟩ | ⟨k, hk, hdata, hslot, hstop, hbefore, rfl⟩
      · rw [loop_succ_done (forEachStep_null hpeek hx)] at hrun
        obtain rfl := Option.some.inj hrun
        refine ⟨[], (List.append_nil _).symm, List.Pairwise.nil, by simp, fun k hk hslot => ?_⟩
        exact .inr (hnull k hk hslot)
      · rcases forEachStep_key hiter hpeek with ⟨hlast, hstep⟩ |
          ⟨iter', hstep, hiter', hslot', hsnap'⟩
        · rw [loop_succ_done hstep] at hrun
          obtain rfl := Option.some.inj hrun
          exact ⟨[k], rfl, .cons hv hup hk hdata hslot hstop hbefore
            (enumeratedFrom_last (congrArg (· + 1) hlast))⟩
        · rw [loop_succ_next hstep] at hrun
          obtain ⟨ks', rfl, hks'⟩ := ih hiter' hsnap' hrun
          rw [hslot'] at hks'
          exact ⟨k :: ks', by rw [List.append_assoc, List.singleton_append],
            .cons hv hup hk hdata hslot hstop hbefore hks'⟩

/-- Without extent whiteouts before the end a run of calls returns. -/
theorem forEach_returns (hwf : SnapshotKeysWf keys) (htab : TableOf keys keys table) (hv : t.Valid)
    (hs : s ≠ 0) (hfuel : searchTurns ≤ fuel) (hend : EndClear (keyParent keys) t s stop)
    {turns : ℕ} : ∀ {iter : BtreeIter} {acc : List Bkey}, Filtering s iter →
      iter.pos.snapshot = s →
      (∀ k, VisibleAt (keyParent keys) t s k → iter.pos.slot ≤ k.p.slot →
        k.p.slot < stop.slot → k.type ≠ keyTypeExtentWhiteout) →
      sposMax.slot - iter.pos.slot < turns →
      ∃ ks, loop (forEachStep fuel table t stop) turns (iter, acc) = some ks := by
  have hup := hwf.rising
  induction turns with
  | zero => exact fun _ _ _ hturns => absurd hturns (Nat.not_lt_zero _)
  | succ turns ih =>
    intro iter acc hiter hsnap hback hturns
    have hahead : Ahead (keyParent keys) t s iter.pos := ahead_of_le hup hsnap.le
    have henough : sposMax.toNat - iter.pos.toNat < fuel := by
      refine lt_of_lt_of_le ?_ hfuel
      rw [Bpos.toNat_sposMax, searchTurns]
      omega
    obtain ⟨x, hcall⟩ := filter_returns hwf htab hv hs hfuel hend hiter hahead hback henough
    have hpeek : bch2BtreeIterPeekMax fuel table t iter stop = some x := by
      rw [bch2BtreeIterPeekMax, if_pos hiter.filterSnapshots, hcall]
    rcases filter_sound hwf htab hv hs hfuel hiter hahead hcall with
      ⟨hx, -⟩ | ⟨k, -, -, hslot, -, -, rfl⟩
    · exact ⟨acc, loop_succ_done (forEachStep_null hpeek hx) turns⟩
    · rcases forEachStep_key hiter hpeek with ⟨-, hstep⟩ |
        ⟨iter', hstep, hiter', hslot', hsnap'⟩
      · exact ⟨acc ++ [k], loop_succ_done hstep turns⟩
      · have hle := iter'.pos.slot_le
        rw [← Bpos.slot_sposMax] at hle
        obtain ⟨ks, hks⟩ := ih hiter' hsnap'
          (fun k' hk' hle' => hback k' hk' (by omega)) (by omega)
        exact ⟨ks, (loop_succ_next hstep turns).trans hks⟩

end Filter

end Subvol

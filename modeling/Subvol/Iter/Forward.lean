import Subvol.Iter.Filter

/-!
# Complete iterations

When the keys that a filtering iterator enumerates from its position to an end are those that its
snapshot sees there, and when the slot it looks up is. A slot gives only a key of the snapshot
itself, since the end of that search is the position of the iterator.

## Main definitions

* `EnumeratesVisible`, `SlotGivesVisible`: what the iterator is for.
* `SlotClear`: the slots whose lookup is right.

## Main results

* `filtered_iteration`.
-/

namespace Subvol

open Lib

section Forward

variable {keys : List SnapshotKey} {table : SnapshotTable} {t : Btree} {s : Fin (2 ^ 32)}
  {stop : Bpos} {fuel : ℕ} {iter : BtreeIter}

/-! ### Slots -/

/-- The inner iterator of a slot gives the live key at the very position, if there is one. -/
theorem peekMax_slot (hwf : SnapshotKeysWf keys) (htab : TableOf keys keys table) (hv : t.Valid)
    (hs : s ≠ 0) (hfuel : searchTurns ≤ fuel) (hno : iter.nofilterWhiteouts = true)
    (hext : iter.isExtents = false) (hfilter : iter.filterSnapshots = true)
    (hsnap : iter.snapshot = s) (hpos : iter.pos.snapshot = s) :
    ∃ x, bch2BtreeIterPeekMax fuel table t iter iter.pos = some x ∧
      ((x.2 = .null ∧ ∀ k, t.Live k → k.p ≠ iter.pos) ∨
        ∃ k, t.Live k ∧ k.p = iter.pos ∧ x = ({ iter with pos := k.p, k := k }, .key k)) := by
  obtain rfl := hsnap
  obtain ⟨turns, rfl⟩ := Nat.exists_eq_add_of_lt (lt_of_lt_of_le (by decide) hfuel : 0 < fuel)
  rw [bch2BtreeIterPeekMax, if_pos hfilter, Nat.zero_add]
  rw [Nat.zero_add] at hfuel
  obtain ⟨⟨iter', ret⟩, hx, hpeek⟩ := peekMax_spec hv hext hfuel
  rcases hpeek with ⟨rfl, hnull⟩ | ⟨k, hk, hstop, heq⟩
  · have hstep : filterStep (turns + 1) table t iter.pos iter = some (.done (iter', .null)) := by
      rw [filterStep, hx, Option.bind_eq_bind, Option.bind_some]
    refine ⟨_, loop_succ_done hstep turns, .inl ⟨rfl, fun k hk hkp => ?_⟩⟩
    rcases hnull k hk hkp.ge with hlt | ⟨hlt, -⟩
    · exact hlt.ne' hkp
    · exact hlt.ne' hkp
  · obtain ⟨rfl, rfl⟩ := Prod.mk.inj heq
    have hkp : k.p = iter.pos := le_antisymm hstop hk.le
    have hks : k.p.snapshot = iter.snapshot := by rw [hkp, hpos]
    have hself : bch2SnapshotIsAncestor (turns + 1) table iter.snapshot k.p.snapshot =
        some true := by
      obtain ⟨r, hr, hiff⟩ := isAncestor_filter hwf htab hs hfuel hks.ge
      rw [hr, hiff.mpr (hks ▸ .refl)]
    have hpast : ¬BtreeIter.filterPastEnd { iter with pos := k.p, k := k } iter.pos k.p = true := by
      rw [BtreeIter.filterPastEnd]
      dsimp only
      rw [hext, if_neg Bool.false_ne_true, decide_eq_true_iff, bkeyLt_iff, hkp]
      exact lt_irrefl _
    have hstep : filterStep (turns + 1) table t iter.pos iter =
        some (.done ({ iter with pos := k.p, k := k }, .key k)) := by
      rw [filterStep, hx, Option.bind_eq_bind, Option.bind_some]
      dsimp only
      rw [filterKey, if_neg hpast]
      dsimp only
      rw [if_neg hks.not_lt, hself, Option.bind_eq_bind, Option.bind_some, Bool.not_true,
        if_neg Bool.false_ne_true, if_neg (by simp [hno])]
      rfl
    exact ⟨_, loop_succ_done hstep turns, .inr ⟨k, hk.live, hkp, rfl⟩⟩

/-- A slot gives the live key at the very position of the iterator, or none. -/
theorem peekSlot_eq (hwf : SnapshotKeysWf keys) (htab : TableOf keys keys table) (hv : t.Valid)
    (hs : s ≠ 0) (hfuel : searchTurns ≤ fuel) (hiter : Filtering s iter)
    (hpos : iter.pos.snapshot = s) :
    (bch2BtreeIterPeekSlot fuel table t iter = some (iter, .null) ∧
      ∀ k, t.Live k → k.p ≠ iter.pos) ∨
    ∃ k, t.Live k ∧ k.p = iter.pos ∧
      bch2BtreeIterPeekSlot fuel table t iter = some (slotKey iter k) := by
  have hno : ({ iter with nofilterWhiteouts := true } : BtreeIter).nofilterWhiteouts = true := rfl
  obtain ⟨x, hx, hcases⟩ := peekMax_slot hwf htab hv hs hfuel hno hiter.isExtents
    hiter.filterSnapshots hiter.snapshot hpos
  obtain ⟨leaf, lo, hi, -, -, htrav, hok, hlo, hhi, -, -, -⟩ := hv.traverse iter.pos
  obtain ⟨before, rest, hinit, -, -, -, -⟩ := hok.nodeIterInit hlo hhi
  obtain ⟨turns, rfl⟩ := Nat.exists_eq_add_of_lt (lt_of_lt_of_le (by decide) hfuel : 0 < fuel)
  rw [Nat.zero_add] at hx ⊢
  have hoff : (iter.isExtents && iter.pos.offset == Fin.last _) = false := by
    rw [hiter.isExtents, Bool.false_and]
  have hstop : (if iter.isExtents = true then { iter.pos with offset := Fin.last _ }
      else iter.pos) = iter.pos := if_neg (by simp [hiter.isExtents])
  have heq : bch2BtreeIterPeekSlot (turns + 1) table t iter =
      (loop (slotStep (turns + 1) table t iter.pos) (turns + 1)
        { iter with nofilterWhiteouts := true }).map (slotResult iter) := by
    rw [bch2BtreeIterPeekSlot]
    dsimp only
    rw [hoff, Bool.false_and, if_neg Bool.false_ne_true, if_neg Bool.false_ne_true,
      Option.bind_eq_bind, Option.bind_some, iter.searchKey_eq hiter.isExtents,
      Option.bind_eq_bind, Option.bind_some, htrav]
    dsimp only
    rw [hinit, Option.bind_eq_bind, Option.bind_some, hstop]
  rcases hcases with ⟨hnull, hnone⟩ | ⟨k, hk, hkp, rfl⟩
  · have hstep : slotStep (turns + 1) table t iter.pos { iter with nofilterWhiteouts := true } =
        some (.done x) := by
      rw [slotStep, hx, Option.bind_eq_bind, Option.bind_some, hnull]
    refine .inl ⟨?_, hnone⟩
    rw [heq, loop_succ_done hstep, Option.map_some, slotResult, hnull]
  · have hstep : slotStep (turns + 1) table t iter.pos { iter with nofilterWhiteouts := true } =
        some (.done ({ iter with nofilterWhiteouts := true, pos := k.p, k := k }, .key k)) := by
      rw [slotStep, hx, Option.bind_eq_bind, Option.bind_some]
      dsimp only
      rw [if_neg (by simp [hiter.isExtents])]
    refine .inr ⟨k, hk, hkp, ?_⟩
    rw [heq, loop_succ_done hstep, Option.map_some, slotResult]

/-! ### Complete iterations -/

/-- The keys enumerated over a clear range are those seen in it. -/
theorem EnumeratedFrom.visibleRange {parent : ℕ → ℕ} {start : Bpos} {ks : List Bkey}
    (h : EnumeratedFrom parent t s stop start.slot ks) (hclear : RangeClear parent t s start stop)
    (hend : EndClear parent t s stop) : VisibleRange parent t s start stop ks where
  sorted := h.sorted
  mem := by
    intro k
    constructor
    · intro hk
      obtain ⟨hseen, hdata, hslot, hstop⟩ := h.seen k hk
      exact ⟨hseen, hdata, hslot, Bpos.slot_mono hstop⟩
    · rintro ⟨hseen, hdata, hslot, hstop⟩
      have hle : k.p ≤ stop := by
        rcases hstop.lt_or_eq with hlt | heq
        · exact Bpos.le_iff_slot.mpr (.inl hlt)
        · exact Bpos.le_iff_slot.mpr (.inr ⟨heq, hclear.ending k hseen hdata hslot heq⟩)
      rcases h.complete k hseen hslot with hk | htype | hlt | hlast | ⟨htype, -⟩
      · exact hk
      · simp [Bkey.whiteout, htype] at hdata
      · exact absurd hle (not_le.mpr hlt)
      · exact absurd hlast (hend.not_lastDeleted hle)
      · simp [Bkey.whiteout, htype] at hdata

/-- If the keys enumerated are all those seen in the range, then it is clear. -/
theorem EnumeratedFrom.rangeClear {parent : ℕ → ℕ} {start : Bpos} {ks : List Bkey}
    (h : EnumeratedFrom parent t s stop start.slot ks)
    (hks : VisibleRange parent t s start stop ks) : RangeClear parent t s start stop where
  ending := by
    intro k hseen hdata hslot heq
    have hle := (h.seen k ((hks.mem k).mpr ⟨hseen, hdata, hslot, heq.le⟩)).2.2.2
    rcases Bpos.le_iff_slot.mp hle with hlt | ⟨-, hsnap⟩
    · exact absurd heq hlt.ne
    · exact hsnap
  back := by
    intro k hseen hslot hlt htype
    have hwhite : k.whiteout = true := by simp [Bkey.whiteout, htype]
    rcases h.complete k hseen hslot with hk | htype' | hstop | hlast | ⟨-, hle⟩
    · rw [(h.seen k hk).2.1] at hwhite
      cases hwhite
    · rw [htype] at htype'
      exact absurd htype' (by decide)
    · exact absurd (Bpos.slot_mono hstop.le) (not_le.mpr hlt)
    · rw [hlast.1, Bpos.slot_sposMax] at hlt
      exact absurd stop.slot_le (not_le.mpr hlt)
    · exact absurd hle (not_le.mpr hlt)

end Forward

/-- Under enough turns, the keys that a new iterator enumerates from its position to an end are those
its snapshot sees there. -/
def EnumeratesVisible (parent : ℕ → ℕ) (table : SnapshotTable) (t : Btree) (start stop : Bpos) :
    Prop :=
  ∃ ks, VisibleRange parent t start.snapshot start stop ks ∧ ∃ n, ∀ fuel, n ≤ fuel →
    forEachKey fuel table t (bch2TransIterInit start false) stop = some ks

/-- Under enough turns, the slot of a new iterator is the key its snapshot sees there, or a hole. -/
def SlotGivesVisible (parent : ℕ → ℕ) (table : SnapshotTable) (t : Btree) (pos : Bpos) : Prop :=
  ∃ n, ∀ fuel, n ≤ fuel → ∃ iter ret,
    bch2BtreeIterPeekSlot fuel table t (bch2TransIterInit pos false) = some (iter, ret) ∧
      (∀ e, ret ≠ .err e) ∧ ∀ k, (ret = .key k ∧ k.deleted = false) ↔
        VisibleAt parent t pos.snapshot k ∧ k.whiteout = false ∧ k.p.slot = pos.slot

/-- The key seen at the slot of a position is of the snapshot itself and, if it has a size, does not
begin behind the position. -/
def SlotClear (parent : ℕ → ℕ) (t : Btree) (pos : Bpos) : Prop :=
  ∀ k, VisibleAt parent t pos.snapshot k → k.whiteout = false → k.p.slot = pos.slot →
    k.p.snapshot = pos.snapshot ∧ bkeyStartPos k ≤ k.p

/-- A key of the snapshot itself is what it sees at the slot. -/
theorem visibleAt_self {parent : ℕ → ℕ} {t : Btree} {k : Bkey} (hk : t.Live k) :
    VisibleAt parent t k.p.snapshot k :=
  ⟨hk, .refl, fun _ _ _ hanc => hanc⟩

/-- The key returned for a slot: none that is a hole or a whiteout, and otherwise the key itself. -/
theorem slotKey_data {iter : BtreeIter} (hfilter : iter.filterSnapshots = true)
    (hno : iter.nofilterWhiteouts = false) {k : Bkey} (hlive : k.deleted = false)
    (hpos : k.p = iter.pos) (k' : Bkey) :
    ((slotKey iter k).2 = .key k' ∧ k'.deleted = false) ↔
      k' = k ∧ k.whiteout = false ∧ bkeyStartPos k ≤ k.p := by
  have hif : (iter.filterSnapshots && !iter.nofilterWhiteouts && k.whiteout) = k.whiteout := by
    rw [hfilter, hno, Bool.not_false, Bool.and_self, Bool.true_and]
  rw [slotKey, hif, ← hpos]
  dsimp only
  by_cases hhole : k.p < bkeyStartPos k
  · rw [if_pos hhole]
    refine iff_of_false ?_ fun h => absurd h.2.2 (not_le.mpr hhole)
    rintro ⟨hk', hdel⟩
    rw [← Peek.key.inj hk'] at hdel
    cases hdel
  · rw [if_neg hhole]
    by_cases hw : k.whiteout = true
    · rw [if_pos hw]
      refine iff_of_false ?_ fun h => absurd h.2.1 (by simp [hw])
      rintro ⟨hk', hdel⟩
      rw [← Peek.key.inj hk'] at hdel
      cases hdel
    · rw [if_neg hw]
      constructor
      · rintro ⟨hk', -⟩
        exact ⟨(Peek.key.inj hk').symm, by simpa using hw, not_lt.mp hhole⟩
      · rintro ⟨rfl, -, -⟩
        exact ⟨rfl, hlive⟩

section Iteration

variable {keys : List SnapshotKey} {table : SnapshotTable} {t : Btree} {start stop : Bpos}

/-- A new iterator filters for the snapshot of its position. -/
theorem filtering_init (start : Bpos) :
    Filtering start.snapshot (bch2TransIterInit start false) := ⟨rfl, rfl, rfl, rfl⟩

/-- A run that returns enumerates keys seen, from the slot of the iterator on. -/
theorem forEachKey_sound (hwf : SnapshotKeysWf keys) (htab : TableOf keys keys table)
    (hv : t.Valid) (hs : start.snapshot ≠ 0) {fuel : ℕ} (hfuel : searchTurns ≤ fuel)
    {ks : List Bkey}
    (hks : forEachKey fuel table t (bch2TransIterInit start false) stop = some ks) :
    EnumeratedFrom (keyParent keys) t start.snapshot stop start.slot ks := by
  obtain ⟨ks', rfl, hks'⟩ := forEach_sound hwf htab hv hs hfuel (filtering_init start) rfl hks
  exact hks'

/-- Over a clear range the keys enumerated are those seen. -/
theorem enumeratesVisible_of_clear (hwf : SnapshotKeysWf keys) (htab : TableOf keys keys table)
    (hv : t.Valid) (hs : start.snapshot ≠ 0)
    (hclear : RangeClear (keyParent keys) t start.snapshot start stop)
    (hend : EndClear (keyParent keys) t start.snapshot stop) :
    EnumeratesVisible (keyParent keys) table t start stop := by
  have hrun : ∀ fuel, searchTurns ≤ fuel → ∃ ks,
      forEachKey fuel table t (bch2TransIterInit start false) stop = some ks ∧
        VisibleRange (keyParent keys) t start.snapshot start stop ks := by
    intro fuel hfuel
    have hturns : sposMax.slot - (bch2TransIterInit start false).pos.slot < fuel := by
      refine lt_of_lt_of_le ?_ hfuel
      rw [Bpos.slot_sposMax, searchTurns]
      omega
    obtain ⟨ks, hks⟩ := forEach_returns hwf htab hv hs hfuel hend
      (filtering_init start) rfl hclear.back hturns
    have hsound := forEachKey_sound hwf htab hv hs hfuel hks
    exact ⟨ks, hks, hsound.visibleRange hclear hend⟩
  obtain ⟨ks, -, hks⟩ := hrun searchTurns le_rfl
  refine ⟨ks, hks, searchTurns, fun fuel hfuel => ?_⟩
  obtain ⟨ks', hrun', hks'⟩ := hrun fuel hfuel
  rw [hrun', hks'.unique hks]

/-- A range whose keys seen are all enumerated is clear. -/
theorem rangeClear_of_enumerates (hwf : SnapshotKeysWf keys) (htab : TableOf keys keys table)
    (hv : t.Valid) (hs : start.snapshot ≠ 0)
    (h : EnumeratesVisible (keyParent keys) table t start stop) :
    RangeClear (keyParent keys) t start.snapshot start stop := by
  obtain ⟨ks, hks, n, hn⟩ := h
  have hrun := hn _ (Nat.le_max_left n searchTurns)
  exact (forEachKey_sound hwf htab hv hs (Nat.le_max_right n searchTurns) hrun).rangeClear hks

/-- The slot of an iterator is right if and only if the key seen there is of its own snapshot. -/
theorem slotGivesVisible_iff (hwf : SnapshotKeysWf keys) (htab : TableOf keys keys table)
    (hv : t.Valid) (hs : start.snapshot ≠ 0) :
    SlotGivesVisible (keyParent keys) table t start ↔ SlotClear (keyParent keys) t start := by
  have hup := hwf.rising
  have hslot (fuel : ℕ) (hfuel : searchTurns ≤ fuel) :=
    peekSlot_eq hwf htab hv hs hfuel (filtering_init start) rfl
  constructor
  · rintro ⟨n, hn⟩ k hseen hdata hkslot
    obtain ⟨iter, ret, hret, -, hiff⟩ := hn _ (Nat.le_max_left n searchTurns)
    obtain ⟨hk, hlive⟩ := (hiff k).mpr ⟨hseen, hdata, hkslot⟩
    rcases hslot _ (Nat.le_max_right n searchTurns) with ⟨hnull, -⟩ | ⟨k', hk', hkp', heq⟩
    · rw [hnull] at hret
      obtain ⟨-, rfl⟩ := Prod.mk.inj (Option.some.inj hret)
      cases hk
    · rw [heq] at hret
      have hret' : (slotKey (bch2TransIterInit start false) k').2 = .key k := by
        rw [Option.some.inj hret, hk]
      obtain ⟨rfl, -, hstart⟩ := (slotKey_data rfl rfl hk'.2 hkp' k).mp ⟨hret', hlive⟩
      exact ⟨congrArg Bpos.snapshot hkp', hstart⟩
  · intro hclear
    refine ⟨searchTurns, fun fuel hfuel => ?_⟩
    -- a key seen that is of the snapshot itself lies at the very position
    have hat : ∀ k, VisibleAt (keyParent keys) t start.snapshot k → k.whiteout = false →
        k.p.slot = start.slot → k.p = start ∧ bkeyStartPos k ≤ k.p := fun k hseen hdata hkslot =>
      ⟨Bpos.ext_slot hkslot (hclear k hseen hdata hkslot).1, (hclear k hseen hdata hkslot).2⟩
    rcases hslot fuel hfuel with ⟨hnull, hnone⟩ | ⟨k', hk', hkp', heq⟩
    · refine ⟨_, _, hnull, by simp, fun k => iff_of_false (by simp) ?_⟩
      rintro ⟨hseen, hdata, hkslot⟩
      exact hnone k hseen.live (hat k hseen hdata hkslot).1
    · have hkp : k'.p = start := hkp'
      refine ⟨_, (slotKey (bch2TransIterInit start false) k').2, heq, by simp [slotKey],
        fun k => ?_⟩
      rw [slotKey_data rfl rfl hk'.2 hkp' k]
      constructor
      · rintro ⟨rfl, hdata, -⟩
        exact ⟨hkp ▸ visibleAt_self hk', hdata, congrArg Bpos.slot hkp⟩
      · rintro ⟨hseen, hdata, hkslot⟩
        obtain ⟨hp, hstart⟩ := hat k hseen hdata hkslot
        obtain rfl := hv.live_eq hseen.live hk' (hp.trans hkp.symm)
        exact ⟨rfl, hdata, hstart⟩

end Iteration

/-! ### An inherited key -/

theorem twoSnapshots_read : ∃ c, bch2SnapshotsRead (2 ^ 32) {} twoSnapshots = some c ∧
    TableOf twoSnapshots twoSnapshots c.table :=
  (TableOf.empty twoSnapshots).bch2SnapshotsRead twoSnapshots_wf (by decide) rfl

/-- A key of the parent snapshot. -/
def inheritedKey : Bkey := { p := ⟨1, 1, Fin.last _⟩, type := 25, val := [] }

/-- A tree of one leaf. -/
def leafTree (ks : List Bkey) : Btree where
  depth := 0
  root := ({ minKey := posMin, maxKey := sposMax, format := bkeyFormatCurrent, keys := ks } :
    LeafNode)

/-- The position of the child snapshot at an offset. -/
def childPos (offset : Fin (2 ^ 64)) : Bpos := ⟨1, offset, ⟨u32Max - 1, by decide⟩⟩

theorem leafTree_valid {ks : List Bkey}
    (h : ks.Pairwise fun k k' => k.p < k'.p ∨ k.p = k'.p ∧ k.deleted = true) :
    (leafTree ks).Valid :=
  ⟨Bpos.posMin_le _, rfl, rfl, fun _ _ => ⟨Bpos.posMin_le _, Bpos.le_sposMax _⟩, h⟩

theorem child_ancestor : Ancestor (keyParent twoSnapshots) (u32Max - 1) u32Max :=
  .single ⟨by decide, by decide⟩

theorem inheritedKey_visible :
    VisibleAt (keyParent twoSnapshots) (leafTree [inheritedKey]) (childPos 1).snapshot
      inheritedKey where
  live := ⟨List.mem_singleton_self _, rfl⟩
  ancestor := child_ancestor
  nearest := by
    intro k' hk' _ _
    rw [List.mem_singleton.mp hk'.1]
    exact .refl

theorem inheritedKey_live {k : Bkey} (hk : (leafTree [inheritedKey]).Live k) : k = inheritedKey :=
  List.mem_singleton.mp hk.1

theorem inheritedKey_rangeClear : RangeClear (keyParent twoSnapshots) (leafTree [inheritedKey])
    (childPos 0).snapshot (childPos 0) (childPos 2) where
  ending := by
    intro k hk _ _ hslot
    rw [inheritedKey_live hk.live] at hslot
    exact absurd hslot (by decide +kernel)
  back := by
    intro k hk _ _
    rw [inheritedKey_live hk.live]
    decide

theorem inheritedKey_endClear : EndClear (keyParent twoSnapshots) (leafTree [inheritedKey])
    (childPos 0).snapshot (childPos 2) where
  whiteout := by
    intro k hk _ _
    rw [inheritedKey_live hk.live]
    decide
  last := fun h => absurd h (by decide +kernel)

end Subvol

import Subvol.Iter.Extents
import Subvol.Iter.Forward

/-!
# Complete iterations over extents

What an extents iterator finds: of the extents that end behind its position and begin before the end
of the range, the first one that its search does not jump over. So a run of calls enumerates all of
them if and only if the search jumps over none and the iterator begins before the end of the range.

## Main definitions

* `FoundExtent`, `PeekedExtent`: what one call comes to.
* `PeeksFirstExtent`, `EnumeratesExtents`: what the iterator is for.

## Main results

* `peekMax_extents`: one call.
* `forEach_extents`: a run of calls.
* `extent_iteration_iff`.
-/

namespace Subvol

open Lib

/-- An extents iterator. One that filters snapshots has one of its own. -/
structure OnExtents (s : Fin (2 ^ 32)) (iter : BtreeIter) : Prop where
  isExtents : iter.isExtents = true
  snapshot : iter.snapshot = s
  filter : iter.filterSnapshots = true → s ≠ 0

theorem OnExtents.moved {s : Fin (2 ^ 32)} {iter : BtreeIter} (h : OnExtents s iter) (pos : Bpos)
    (k : Bkey) : OnExtents s { iter with pos := pos, k := k } :=
  ⟨h.isExtents, h.snapshot, h.filter⟩

/-! ### Tests of a turn -/

section Tests

variable {iter : BtreeIter} {stop p : Bpos}

theorem BtreeIter.keyPos_slot (hext : iter.isExtents = true) (k : Bkey) :
    (iter.keyPos k).slot = max iter.pos.slot (bkeyStartPos k).slot := by
  have hmono : Monotone Bpos.slot := fun _ _ h => Bpos.slot_mono h
  rw [keyPos, hext, if_pos rfl, hmono.map_max]

theorem BtreeIter.pastEnd_extents (hext : iter.isExtents = true) :
    iter.pastEnd stop p = true ↔ stop.slot ≤ p.slot := by
  rw [pastEnd, hext, if_pos rfl, Bool.not_eq_true', decide_eq_false_iff_not, bkeyLt_iff, not_lt]

theorem BtreeIter.outOfRange_extents (hext : iter.isExtents = true) :
    iter.outOfRange stop p = true ↔ stop.slot ≤ p.slot := by
  rw [outOfRange, hext, if_pos rfl, Bool.not_eq_true', decide_eq_false_iff_not, bkeyLt_iff, not_lt]

/-- A key that begins behind the end ends the search, and so does every key if the iterator itself
is behind the end. -/
theorem peekFound_pastEnd (hext : iter.isExtents = true) {k : Bkey}
    (hpast : stop.slot ≤ max iter.pos.slot (bkeyStartPos k).slot) :
    peekFound stop p iter k = some (.done (btreeIterSetPos { iter with k := k } stop, .null)) := by
  have hext' : ({ iter with k := k } : BtreeIter).isExtents = true := hext
  have htest := (BtreeIter.pastEnd_extents hext').mpr
    (hpast.trans (BtreeIter.keyPos_slot hext' k).ge)
  rw [peekFound, if_pos htest]

/-- A dead key at which the search is not over. -/
theorem peekFound_dead (hext : iter.isExtents = true) {d : Bkey} (hdel : d.deleted = true)
    (hlt : p < d.p) (hpos : iter.pos.slot < stop.slot)
    (hends : ¬(Obstacle.dead d).Ends stop) :
    ∃ pos, pos.slot < stop.slot ∧
      peekFound stop p iter d = some (.next ({ iter with pos := pos, k := d }, d.p)) := by
  obtain ⟨hstart, hlast⟩ := not_or.mp hends
  have hext' : ({ iter with k := d } : BtreeIter).isExtents = true := hext
  have hslot : (({ iter with k := d } : BtreeIter).keyPos d).slot < stop.slot := by
    rw [BtreeIter.keyPos_slot hext']
    exact max_lt hpos (not_le.mp hstart)
  have htest : ¬({ iter with k := d } : BtreeIter).pastEnd stop
      (({ iter with k := d } : BtreeIter).keyPos d) = true :=
    fun h => absurd ((BtreeIter.pastEnd_extents hext').mp h) (not_le.mpr hslot)
  refine ⟨(({ iter with k := d } : BtreeIter).keyPos d).withSnapshot iter.snapshot, hslot, ?_⟩
  rw [peekFound, if_neg htest, if_pos hdel, if_neg hlt.ne, Option.bind_eq_bind, Option.bind_some]
  exact if_neg hlast

/-- A dead key at which the search is over. -/
theorem peekFound_dead_ends (hext : iter.isExtents = true) {d : Bkey} (hdel : d.deleted = true)
    (hlt : p < d.p) (hends : (Obstacle.dead d).Ends stop) :
    ∃ iter', peekFound stop p iter d = some (.done (iter', .null)) := by
  by_cases hpast : stop.slot ≤ max iter.pos.slot (bkeyStartPos d).slot
  · exact ⟨_, peekFound_pastEnd hext hpast⟩
  · have hlast : d.p = sposMax :=
      hends.resolve_left fun hstart => hpast (hstart.trans (le_max_right _ _))
    have hext' : ({ iter with k := d } : BtreeIter).isExtents = true := hext
    have htest : ¬({ iter with k := d } : BtreeIter).pastEnd stop
        (({ iter with k := d } : BtreeIter).keyPos d) = true := fun h =>
      hpast (((BtreeIter.pastEnd_extents hext').mp h).trans (BtreeIter.keyPos_slot hext' d).le)
    rw [peekFound, if_neg htest, if_pos hdel, if_neg hlt.ne, Option.bind_eq_bind, Option.bind_some]
    exact ⟨_, if_pos hlast⟩

/-- An extent that begins before the end is returned. -/
theorem peekFound_live (hext : iter.isExtents = true) {k : Bkey} (hlive : k.deleted = false)
    (hpos : iter.pos.slot < stop.slot) (hstart : (bkeyStartPos k).slot < stop.slot) :
    ∃ pos, peekFound stop p iter k = some (.done ({ iter with pos := pos, k := k }, .key k)) := by
  have hext' : ({ iter with k := k } : BtreeIter).isExtents = true := hext
  have hslot : (({ iter with k := k } : BtreeIter).keyPos k).slot < stop.slot := by
    rw [BtreeIter.keyPos_slot hext']
    exact max_lt hpos hstart
  have htest : ¬({ iter with k := k } : BtreeIter).pastEnd stop
      (({ iter with k := k } : BtreeIter).keyPos k) = true :=
    fun h => absurd ((BtreeIter.pastEnd_extents hext').mp h) (not_le.mpr hslot)
  rw [peekFound, if_neg htest, if_neg (by simp [hlive])]
  dsimp only
  -- the second test is of a position of the same slot
  rw [if_neg fun h => ?_]
  · exact ⟨_, rfl⟩
  · have hext'' : ({ iter with
        pos := (({ iter with k := k } : BtreeIter).keyPos k).withSnapshot iter.snapshot
        k := k } : BtreeIter).isExtents = true := hext
    have hle := (BtreeIter.outOfRange_extents hext'').mp h
    exact absurd (hle.trans (BtreeIter.keyPos_slot hext'' k).le) (not_le.mpr (max_lt hslot hstart))

end Tests

/-! ### One call -/

/-- The extent that a call finds whose search begins behind a position: the first one before the end
that the search does not jump over. -/
structure FoundExtent (t : Btree) (s : Fin (2 ^ 32)) (stop r : Bpos) (k : Bkey) : Prop where
  live : t.Live k
  le : searchAfter s r ≤ k.p
  before : (bkeyStartPos k).slot < stop.slot
  kept : ¬SearchPasses t s stop r k
  passed : ∀ k', t.Live k' → searchAfter s r ≤ k'.p → k'.p < k.p → SearchPasses t s stop r k'
  rest : ∀ k', k.p < k'.p → (SearchPasses t s stop r k' ↔ SearchPasses t s stop k.p k')

/-- What a call comes to whose search begins behind a position. -/
def PeekedExtent (t : Btree) (s : Fin (2 ^ 32)) (stop r : Bpos) (iter : BtreeIter)
    (x : BtreeIter × Peek) : Prop :=
  (x.2 = .null ∧ ∀ k, t.Live k → searchAfter s r ≤ k.p → (bkeyStartPos k).slot < stop.slot →
    SearchPasses t s stop r k) ∨
  ∃ k pos, FoundExtent t s stop r k ∧ x = ({ iter with pos := pos, k := k }, .key k)

section Call

variable {t : Btree} {s : Fin (2 ^ 32)} {stop : Bpos} {iter : BtreeIter}

/-- Behind an obstacle at which it is not over, the search goes on from the obstacle. -/
theorem FoundExtent.of_obstacle (h : t.Valid) {r : Bpos} {o : Obstacle}
    (hmet : o.Met t (searchAfter s r)) (hends : ¬o.Ends stop) {k : Bkey}
    (hk : FoundExtent t s stop o.pos k) : FoundExtent t s stop r k where
  live := hk.live
  le := (hmet.ahead.lt h).le.trans ((le_searchAfter _).trans hk.le)
  before := hk.before
  kept hp := by
    rcases (passes_obstacle_iff h hmet).mp hp with ⟨-, hlt | hover⟩ | ⟨-, hrest⟩
    · exact absurd hk.le (not_le.mpr hlt)
    · exact hends hover
    · exact hk.kept hrest
  passed k' hk' hle hlt := by
    rw [passes_obstacle_iff h hmet]
    rcases lt_or_ge k'.p (searchAfter s o.pos) with hover | hle'
    · exact .inl ⟨hmet.live k' hk' hle, .inl hover⟩
    · exact .inr ⟨hends, hk.passed k' hk' hle' hlt⟩
  rest k' hlt := by
    rw [passes_obstacle_iff h hmet, ← hk.rest k' hlt]
    constructor
    · rintro (⟨-, hover | hover⟩ | ⟨-, hrest⟩)
      · exact absurd (hk.le.trans hlt.le) (not_le.mpr hover)
      · exact absurd hover hends
      · exact hrest
    · exact fun hrest => .inr ⟨hends, hrest⟩

theorem PeekedExtent.of_obstacle (h : t.Valid) {r pos : Bpos} {o : Obstacle} {k₀ : Bkey}
    (hmet : o.Met t (searchAfter s r)) (hends : ¬o.Ends stop) {x : BtreeIter × Peek}
    (hx : PeekedExtent t s stop o.pos { iter with pos := pos, k := k₀ } x) :
    PeekedExtent t s stop r iter x := by
  rcases hx with ⟨hnull, hall⟩ | ⟨k, pos', hk, hx⟩
  · refine .inl ⟨hnull, fun k hk hle hbefore => ?_⟩
    rw [passes_obstacle_iff h hmet]
    rcases lt_or_ge k.p (searchAfter s o.pos) with hover | hle'
    · exact .inl ⟨hmet.live k hk hle, .inl hover⟩
    · exact .inr ⟨hends, hall k hk hle' hbefore⟩
  · exact .inr ⟨k, pos', hk.of_obstacle h hmet hends, hx⟩

/-- A search that is over at an obstacle. -/
theorem PeekedExtent.of_ends {r : Bpos} {o : Obstacle} (hmet : o.Met t (searchAfter s r))
    (hends : o.Ends stop) (iter' : BtreeIter) : PeekedExtent t s stop r iter (iter', .null) :=
  .inl ⟨rfl, fun k hk hle _ => .jump o hmet (hmet.live k hk hle) (.inr hends)⟩

/-- An extent begins before it ends. -/
theorem ExtentKeys.start_lt (ht : ExtentKeys s t) {k : Bkey} (hk : t.Live k) :
    (bkeyStartPos k).slot < k.p.slot := by
  obtain ⟨hpos, hle⟩ := ht.size k hk
  have hlt := k.p.offset.isLt
  have hsub : ((k.p.offset - Fin.ofNat (2 ^ 64) k.size : Fin (2 ^ 64)) : ℕ) =
      k.p.offset - k.size := by
    have hval : ((Fin.ofNat (2 ^ 64) k.size : Fin (2 ^ 64)) : ℕ) = k.size :=
      Nat.mod_eq_of_lt (hle.trans_lt hlt)
    rw [Fin.sub_val_of_le (Fin.le_def.mpr (hval.le.trans hle)), hval]
  simp only [bkeyStartPos, Bpos.slot, hsub]
  omega

/-- The first extent of a search that comes to no obstacle before it. -/
theorem ExtentKeys.peeked_first (h : t.Valid) (ht : ExtentKeys s t) (stop : Bpos) {r : Bpos} {e : Bkey}
    (hfirst : t.FirstFrom (searchAfter s r) e)
    (hclear : ∀ o, Obstacle.Ahead t (searchAfter s r) o → e.p < o.pos) :
    ((bkeyStartPos e).slot < stop.slot → FoundExtent t s stop r e) ∧
    (stop.slot ≤ (bkeyStartPos e).slot → ∀ k, t.Live k → searchAfter s r ≤ k.p →
      ¬(bkeyStartPos k).slot < stop.slot) := by
  refine ⟨fun hbefore => ?_, fun hpast k hk hle hbefore => ?_⟩
  · refine ⟨hfirst.live, hfirst.le, hbefore, fun hp => ?_, fun k' hk' hle hlt => ?_, fun k' _ => ?_⟩
    · have hlt := ((passes_extent_iff hfirst hclear).mp hp).lt h
      exact absurd (le_searchAfter e.p) (not_le.mpr hlt)
    · exact absurd (hfirst.first k' hk' hle) (not_le.mpr hlt)
    · exact passes_extent_iff hfirst hclear
  · rcases (hfirst.first k hk hle).lt_or_eq with hlt | heq
    · have hstart := ht.start_lt hfirst.live
      have hdisj := ht.disjoint e k hfirst.live hk hlt
      omega
    · obtain rfl := h.live_eq hfirst.live hk heq
      omega

/-- One turn looks at the keys left in the leaf of the search position. -/
theorem Btree.LeftIn.peekMaxStep_eq {r : Bpos} {leaf : LeafNode} {rest : List Bkey}
    (h : t.LeftIn (searchAfter s r) leaf rest) (hiter : OnExtents s iter) (stop : Bpos) :
    peekMaxStep t stop (iter, r) = peekLeaf stop (searchAfter s r) iter leaf rest := by
  rw [peekMaxStep, iter.searchKey_extents hiter.isExtents hiter.snapshot, Option.bind_eq_bind,
    Option.bind_some, h.traverse]
  dsimp only
  rw [h.init, Option.bind_some]

/-- A call from before the end of the range comes to the first extent that it does not jump over. -/
theorem peekMax_extents_loop (h : t.Valid) (ht : ExtentKeys s t) {fuel : ℕ} :
    ∀ (iter : BtreeIter) (r : Bpos), OnExtents s iter → iter.pos.slot < stop.slot →
      sposMax.toNat - r.toNat < fuel →
      ∃ x, loop (peekMaxStep t stop) fuel (iter, r) = some x ∧ PeekedExtent t s stop r iter x := by
  induction fuel with
  | zero => exact fun _ _ _ _ hfuel => absurd hfuel (Nat.not_lt_zero _)
  | succ fuel ih =>
    intro iter r hiter hpos hfuel
    obtain ⟨leaf, rest, hleft⟩ := h.leftIn (searchAfter s r)
    have hstep := hleft.peekMaxStep_eq hiter stop
    -- the search goes on from an obstacle with fewer turns left
    have hnext : ∀ o : Obstacle, o.Met t (searchAfter s r) → ¬o.Ends stop → ∀ pos k₀,
        pos.slot < stop.slot →
        peekMaxStep t stop (iter, r) = some (.next ({ iter with pos := pos, k := k₀ }, o.pos)) →
        ∃ x, loop (peekMaxStep t stop) (fuel + 1) (iter, r) = some x ∧
          PeekedExtent t s stop r iter x := by
      intro o hmet hends pos k₀ hlt hturn
      have hr := Bpos.lt_iff_toNat.mp ((le_searchAfter r).trans_lt (hmet.ahead.lt h))
      have hmax := Bpos.le_iff_toNat.mp (Bpos.le_sposMax o.pos)
      obtain ⟨x, hrun, hx⟩ := ih _ o.pos (hiter.moved pos k₀) hlt (by omega)
      exact ⟨x, (loop_succ_next hturn fuel).trans hrun, hx.of_obstacle h hmet hends⟩
    cases rest with
    | nil =>
      rw [peekLeaf, peekLeafEnd] at hstep
      by_cases hlast : leaf.maxKey = sposMax
      · rw [if_pos (.inr hlast.ge)] at hstep
        refine ⟨_, loop_succ_done hstep fuel, .inl ⟨rfl, fun k hk hle _ => ?_⟩⟩
        have hgt := (hleft.later k hk hle).resolve_left (by simp)
        exact absurd (Bpos.le_sposMax k.p) (not_le.mpr (hlast ▸ hgt))
      · obtain ⟨next, hsucc, -⟩ := bposSuccessor_eq_some hlast
        have hmet := hleft.met_leafEnd hsucc
        by_cases hends : stop < leaf.maxKey
        · rw [if_pos (.inl hends)] at hstep
          exact ⟨_, loop_succ_done hstep fuel, .of_ends hmet hends _⟩
        · have hnot : ¬(stop < leaf.maxKey ∨ sposMax ≤ leaf.maxKey) :=
            not_or.mpr ⟨hends, fun hle => hlast (le_antisymm (Bpos.le_sposMax _) hle)⟩
          rw [if_neg hnot, hsucc, Option.map_some] at hstep
          exact hnext _ hmet hends iter.pos iter.k hpos hstep
    | cons k rest =>
      rw [peekLeaf] at hstep
      by_cases hdel : k.deleted = true
      · have hmet := hleft.met_dead hdel
        have hlt := hleft.head k rfl hdel
        by_cases hends : (Obstacle.dead k).Ends stop
        · obtain ⟨iter', hdone⟩ := peekFound_dead_ends hiter.isExtents hdel hlt hends
          exact ⟨_, loop_succ_done (hstep.trans hdone) fuel, .of_ends hmet hends _⟩
        · obtain ⟨pos, hslot, hturn⟩ := peekFound_dead hiter.isExtents hdel hlt hpos hends
          exact hnext _ hmet hends pos k hslot (hstep.trans hturn)
      · have hlive : k.deleted = false := by simpa using hdel
        have hmem : k ∈ k :: rest := List.mem_cons_self ..
        have hfirst : t.FirstFrom (searchAfter s r) k :=
          ⟨⟨hleft.mem k (hleft.suffix.subset hmem), hlive⟩, hleft.le k hmem,
            fun k' hk' hle => hleft.first hk' hle⟩
        have hpeek := ht.peeked_first h stop hfirst fun o ho => hleft.clear hlive ho
        by_cases hbefore : (bkeyStartPos k).slot < stop.slot
        · obtain ⟨pos, hdone⟩ := peekFound_live hiter.isExtents hlive hpos hbefore
          exact ⟨_, loop_succ_done (hstep.trans hdone) fuel,
            .inr ⟨k, pos, hpeek.1 hbefore, rfl⟩⟩
        · have hpast := not_lt.mp hbefore
          have hdone := peekFound_pastEnd (p := searchAfter s r) hiter.isExtents
            (hpast.trans (le_max_right _ _))
          exact ⟨_, loop_succ_done (hstep.trans hdone) fuel,
            .inl ⟨rfl, fun k' hk' hle hlt => absurd hlt (hpeek.2 hpast k' hk' hle)⟩⟩

/-- A call from behind the end of the range finds nothing. -/
theorem peekMax_past_loop (h : t.Valid) {fuel : ℕ} :
    ∀ (iter : BtreeIter) (r : Bpos), OnExtents s iter → stop.slot ≤ iter.pos.slot →
      sposMax.toNat - r.toNat < fuel →
      ∃ iter', loop (peekMaxStep t stop) fuel (iter, r) = some (iter', .null) := by
  induction fuel with
  | zero => exact fun _ _ _ _ hfuel => absurd hfuel (Nat.not_lt_zero _)
  | succ fuel ih =>
    intro iter r hiter hpos hfuel
    obtain ⟨leaf, rest, hleft⟩ := h.leftIn (searchAfter s r)
    have hstep := hleft.peekMaxStep_eq hiter stop
    cases rest with
    | nil =>
      rw [peekLeaf, peekLeafEnd] at hstep
      by_cases hend : stop < leaf.maxKey ∨ sposMax ≤ leaf.maxKey
      · rw [if_pos hend] at hstep
        exact ⟨_, loop_succ_done hstep fuel⟩
      · obtain ⟨-, hlast⟩ := not_or.mp hend
        obtain ⟨next, hsucc, -⟩ := bposSuccessor_eq_some (p := leaf.maxKey) fun heq => hlast heq.ge
        rw [if_neg hend, hsucc, Option.map_some] at hstep
        have hlt := ((le_searchAfter (s := s) r).trans hleft.le_max).trans_lt
          (bposSuccessor_eq_some_iff.mp hsucc).lt
        have hr := Bpos.lt_iff_toNat.mp hlt
        have hmax := Bpos.le_iff_toNat.mp (Bpos.le_sposMax next)
        obtain ⟨iter', hrun⟩ := ih iter next hiter hpos (by omega)
        exact ⟨iter', (loop_succ_next hstep fuel).trans hrun⟩
    | cons k rest =>
      rw [peekLeaf] at hstep
      have hdone := peekFound_pastEnd (p := searchAfter s r) (k := k) hiter.isExtents
        (hpos.trans (le_max_left _ _))
      exact ⟨_, loop_succ_done (hstep.trans hdone) fuel⟩

theorem inode_le_of_slot {p q : Bpos} (h : p.slot < q.slot) : p.inode ≤ q.inode := by
  have hp := p.offset.isLt
  have hq := q.offset.isLt
  simp only [Bpos.slot] at h
  rw [Fin.le_def]
  omega

/-- The filter lets an extent of the snapshot pass. -/
theorem filterKey_extent (ht : ExtentKeys s t) (hiter : OnExtents s iter)
    (hfilter : iter.filterSnapshots = true) {k : Bkey} (hk : t.Live k)
    (hbefore : (bkeyStartPos k).slot < stop.slot) (fuel : ℕ) (table : SnapshotTable) :
    filterKey fuel table stop iter k = some (.done (iter, .key k)) := by
  have hinode : k.p.inode ≤ stop.inode := inode_le_of_slot (p := bkeyStartPos k) hbefore
  have hpast : ¬iter.filterPastEnd stop k.p = true := by
    rw [BtreeIter.filterPastEnd, hiter.isExtents, if_pos rfl, decide_eq_true_iff]
    exact not_lt.mpr hinode
  have hsnap : k.p.snapshot = iter.snapshot := (ht.snapshot k hk).trans hiter.snapshot.symm
  have hne : (iter.snapshot : ℕ) ≠ 0 := fun h => hiter.filter hfilter
    (hiter.snapshot.symm.trans (Fin.ext h))
  have hself : bch2SnapshotIsAncestor fuel table iter.snapshot k.p.snapshot = some true := by
    rw [hsnap, bch2SnapshotIsAncestor, if_neg (not_or.mpr ⟨hne, hne⟩), if_pos rfl]
  rw [filterKey, if_neg hpast, if_neg hsnap.not_lt, hself, Option.bind_eq_bind, Option.bind_some,
    Bool.not_true, if_neg Bool.false_ne_true, if_neg (by simp [ht.whiteout k hk])]
  rfl

/-- One call: with enough turns it comes to an extent if it begins before the end of the range, and
finds nothing otherwise. -/
theorem peekMax_extents (h : t.Valid) (ht : ExtentKeys s t) (hiter : OnExtents s iter) {fuel : ℕ}
    (hfuel : searchTurns ≤ fuel) (table : SnapshotTable) (stop : Bpos) :
    ∃ x, bch2BtreeIterPeekMax fuel table t iter stop = some x ∧
      (iter.pos.slot < stop.slot ∧ PeekedExtent t s stop iter.pos iter x ∨
        stop.slot ≤ iter.pos.slot ∧ x.2 = .null) := by
  have hturns : sposMax.toNat - iter.pos.toNat < fuel := by
    refine lt_of_lt_of_le ?_ hfuel
    rw [Bpos.toNat_sposMax, searchTurns]
    omega
  have hcall : ∃ x, peekMax fuel t iter stop = some x ∧
      (iter.pos.slot < stop.slot ∧ PeekedExtent t s stop iter.pos iter x ∨
        stop.slot ≤ iter.pos.slot ∧ x.2 = .null) := by
    rcases lt_or_ge iter.pos.slot stop.slot with hpos | hpos
    · obtain ⟨x, hx, hpeek⟩ := peekMax_extents_loop h ht iter iter.pos hiter hpos hturns
      exact ⟨x, hx, .inl ⟨hpos, hpeek⟩⟩
    · obtain ⟨iter', hx⟩ := peekMax_past_loop h iter iter.pos hiter hpos hturns
      exact ⟨_, hx, .inr ⟨hpos, rfl⟩⟩
  obtain ⟨x, hx, hpeek⟩ := hcall
  refine ⟨x, ?_, hpeek⟩
  by_cases hfilter : iter.filterSnapshots = true
  · rw [bch2BtreeIterPeekMax, if_pos hfilter]
    obtain ⟨turns, rfl⟩ := Nat.exists_eq_succ_of_ne_zero
      (lt_of_lt_of_le (by decide : 0 < searchTurns) hfuel).ne'
    refine loop_succ_done ?_ turns
    rw [filterStep, hx, Option.bind_eq_bind, Option.bind_some]
    have hnull : x.2 = .null ∨
        ∃ k pos, FoundExtent t s stop iter.pos k ∧ x = ({ iter with pos := pos, k := k }, .key k) := by
      rcases hpeek with ⟨-, ⟨hnull, -⟩ | hfound⟩ | ⟨-, hnull⟩
      · exact .inl hnull
      · exact .inr hfound
      · exact .inl hnull
    rcases hnull with hnull | ⟨k, pos, hk, rfl⟩
    · rw [hnull]
      exact congrArg (fun ret => some (Turn.done (x.1, ret))) hnull.symm
    · exact filterKey_extent ht (hiter.moved pos k) hfilter hk.live hk.before _ table
  · rw [bch2BtreeIterPeekMax, if_neg hfilter, hx]

end Call

/-! ### A run of calls -/

/-- What a run of calls from a position enumerates: the extents of the range that the search does not
jump over. -/
structure EnumeratedExtents (t : Btree) (s : Fin (2 ^ 32)) (pos stop : Bpos) (ks : List Bkey) :
    Prop where
  sorted : ks.Pairwise fun k k' => k.p < k'.p
  mem : ∀ k, k ∈ ks ↔ ExtentIn t pos stop k ∧ ¬SearchPasses t s stop pos k

section Run

variable {t : Btree} {s : Fin (2 ^ 32)} {stop : Bpos} {iter : BtreeIter}

/-- The search from a position before the end of the range finds the extents behind the position. -/
theorem ExtentKeys.searchAfter_le_iff (ht : ExtentKeys s t) {pos : Bpos}
    (hpos : pos.slot < stop.slot) {k : Bkey} (hk : t.Live k) :
    searchAfter s pos ≤ k.p ↔ pos.slot < k.p.slot :=
  Subvol.searchAfter_le_iff (hpos.trans_le (slot_le_last stop)) (ht.snapshot k hk)

/-- An extent found, and those that are enumerated from its end on. -/
theorem EnumeratedExtents.cons (h : t.Valid) (ht : ExtentKeys s t) {pos : Bpos} {k : Bkey}
    {ks : List Bkey} (hpos : pos.slot < stop.slot) (hk : FoundExtent t s stop pos k)
    (hks : EnumeratedExtents t s k.p stop ks) : EnumeratedExtents t s pos stop (k :: ks) where
  sorted := by
    refine List.pairwise_cons.mpr ⟨fun k' hk' => ?_, hks.sorted⟩
    exact Bpos.lt_iff_slot.mpr (.inl ((hks.mem k').mp hk').1.behind)
  mem k' := by
    have hslot := (ht.searchAfter_le_iff hpos hk.live).mp hk.le
    rw [List.mem_cons, hks.mem k']
    constructor
    · rintro (rfl | ⟨hin, hkept⟩)
      · exact ⟨⟨hk.live, hslot, hk.before⟩, hk.kept⟩
      · have hlt := Bpos.lt_iff_slot.mpr (.inl hin.behind)
        exact ⟨⟨hin.live, hslot.trans hin.behind, hin.before⟩,
          fun hp => hkept ((hk.rest k' hlt).mp hp)⟩
    · rintro ⟨hin, hkept⟩
      have hle := (ht.searchAfter_le_iff hpos hin.live).mpr hin.behind
      rcases lt_trichotomy k'.p k.p with hlt | heq | hgt
      · exact absurd (hk.passed k' hin.live hle hlt) hkept
      · exact .inl (h.live_eq hin.live hk.live heq)
      · refine .inr ⟨⟨hin.live, ?_, hin.before⟩, fun hp => hkept ((hk.rest k' hgt).mpr hp)⟩
        have hdisj := ht.disjoint k k' hk.live hin.live hgt
        exact hdisj.trans_lt (ht.start_lt hin.live)

/-- Nothing of the range is left. -/
theorem EnumeratedExtents.nil {pos : Bpos}
    (hnone : ∀ k, ExtentIn t pos stop k → SearchPasses t s stop pos k) :
    EnumeratedExtents t s pos stop [] :=
  ⟨List.Pairwise.nil, fun k => iff_of_false (by simp) fun hk => hk.2 (hnone k hk.1)⟩

/-- No extent that begins before the end of the range lies behind one that ends there. -/
theorem ExtentKeys.enumerated_past (ht : ExtentKeys s t) {k : Bkey} (hk : t.Live k)
    (hpast : stop.slot ≤ k.p.slot) : EnumeratedExtents t s k.p stop [] := by
  refine .nil fun k' hk' => ?_
  have hdisj := ht.disjoint k k' hk hk'.live (Bpos.lt_iff_slot.mpr (.inl hk'.behind))
  have hbefore := hk'.before
  omega

/-- The step of an extents iterator that has returned an extent: it ends at the last slot, and
otherwise is at the end of the extent. -/
theorem advance_extents (hiter : OnExtents s iter) (hsnap : iter.k.p.snapshot = s) :
    (iter.k.p.slot = sposMax.slot ∧ ∃ iter', bch2BtreeIterAdvance iter = some (iter', false)) ∨
    iter.k.p.slot < sposMax.slot ∧ ∃ iter', bch2BtreeIterAdvance iter = some (iter', true) ∧
      OnExtents s iter' ∧ iter'.pos = iter.k.p := by
  rcases (slot_le_last iter.k.p).lt_or_eq with hlt | heq
  · refine .inr ⟨hlt, btreeIterSetPos iter iter.k.p, ?_, ⟨hiter.isExtents, hiter.snapshot,
      hiter.filter⟩, Bpos.ext_slot rfl (hiter.snapshot.trans hsnap.symm)⟩
    rw [bch2BtreeIterAdvance, if_neg fun h => hlt.ne (bkeyEq_iff.mp h), if_pos hiter.isExtents]
  · refine .inl ⟨heq, btreeIterSetPos iter iter.k.p, ?_⟩
    rw [bch2BtreeIterAdvance, if_pos (bkeyEq_iff.mpr heq)]

/-- A run of calls from before the end of the range. -/
theorem forEach_extents (h : t.Valid) (ht : ExtentKeys s t) {fuel : ℕ}
    (hfuel : searchTurns ≤ fuel) (table : SnapshotTable) {turns : ℕ} :
    ∀ (iter : BtreeIter) (acc : List Bkey), OnExtents s iter → iter.pos.slot < stop.slot →
      sposMax.slot - iter.pos.slot < turns →
      ∃ ks, loop (forEachStep fuel table t stop) turns (iter, acc) = some (acc ++ ks) ∧
        EnumeratedExtents t s iter.pos stop ks := by
  induction turns with
  | zero => exact fun _ _ _ _ hturns => absurd hturns (Nat.not_lt_zero _)
  | succ turns ih =>
    intro iter acc hiter hpos hturns
    obtain ⟨x, hpeek, hcall⟩ := peekMax_extents h ht hiter hfuel table stop
    have hx := (hcall.resolve_right fun hpast => absurd hpast.1 (not_le.mpr hpos)).2
    rcases hx with ⟨hnull, hnone⟩ | ⟨k, pos, hk, rfl⟩
    · refine ⟨[], ?_, .nil fun k hk => hnone k hk.live
        ((ht.searchAfter_le_iff hpos hk.live).mpr hk.behind) hk.before⟩
      rw [loop_succ_done (forEachStep_null hpeek hnull), List.append_nil]
    · have hslot := (ht.searchAfter_le_iff hpos hk.live).mp hk.le
      rcases advance_extents (hiter.moved pos k) (ht.snapshot k hk.live) with
        ⟨hlast, iter', hadv⟩ | ⟨hlt, iter', hadv, hiter', hpos'⟩
      · have hstep : forEachStep fuel table t stop (iter, acc) = some (.done (acc ++ [k])) := by
          rw [forEachStep, hpeek, Option.bind_eq_bind, Option.bind_some]
          dsimp only
          rw [hadv, Option.bind_eq_bind, Option.bind_some, if_neg Bool.false_ne_true]
        have hpast : stop.slot ≤ k.p.slot := (slot_le_last stop).trans hlast.ge
        exact ⟨[k], loop_succ_done hstep turns, .cons h ht hpos hk (ht.enumerated_past hk.live hpast)⟩
      · have hstep : forEachStep fuel table t stop (iter, acc) =
            some (.next (iter', acc ++ [k])) := by
          rw [forEachStep, hpeek, Option.bind_eq_bind, Option.bind_some]
          dsimp only
          rw [hadv, Option.bind_eq_bind, Option.bind_some, if_pos rfl]
        have hpos'' : iter'.pos = k.p := hpos'
        rcases lt_or_ge k.p.slot stop.slot with hbefore | hpast
        · have hturns' : sposMax.slot - iter'.pos.slot < turns := by
            rw [hpos'']
            have := slot_le_last k.p
            omega
          obtain ⟨ks, hrun, hks⟩ := ih iter' (acc ++ [k]) hiter' (hpos'' ▸ hbefore) hturns'
          rw [hpos''] at hks
          refine ⟨k :: ks, ?_, .cons h ht hpos hk hks⟩
          rw [loop_succ_next hstep, hrun, List.append_assoc, List.singleton_append]
        · -- the extent reaches behind the end of the range, and one more call finds nothing
          obtain ⟨y, hpeek', hcall'⟩ := peekMax_extents h ht hiter' hfuel table stop
          have hle : stop.slot ≤ iter'.pos.slot := hpos'' ▸ hpast
          have hy := (hcall'.resolve_left fun hb => absurd hle (not_le.mpr hb.1)).2
          refine ⟨[k], ?_, .cons h ht hpos hk (ht.enumerated_past hk.live hpast)⟩
          cases turns with
          | zero =>
            have := slot_le_last k.p
            omega
          | succ turns =>
            rw [loop_succ_next hstep]
            exact loop_succ_done (forEachStep_null hpeek' hy) turns

end Run

/-! ### Complete iterations -/

/-- A call returns the first extent that ends behind the position of the iterator and begins before
the end, or nothing if there is none. -/
def PeeksFirstExtent (fuel : ℕ) (table : SnapshotTable) (t : Btree) (iter : BtreeIter)
    (stop : Bpos) : Prop :=
  ∃ iter' ret, bch2BtreeIterPeekMax fuel table t iter stop = some (iter', ret) ∧
    ((ret = .null ∧ ∀ k, ¬ExtentIn t iter.pos stop k) ∨
      ∃ k, ret = .key k ∧ ExtentIn t iter.pos stop k ∧
        ∀ k', ExtentIn t iter.pos stop k' → k.p ≤ k'.p)

/-- A run of calls enumerates these extents, each of them once. -/
def EnumeratesExtents (fuel : ℕ) (table : SnapshotTable) (t : Btree) (iter : BtreeIter)
    (stop : Bpos) : Prop :=
  ∃ ks, forEachKey fuel table t iter stop = some ks ∧ (ks.Pairwise fun k k' => k.p < k'.p) ∧
    ∀ k, k ∈ ks ↔ ExtentIn t iter.pos stop k

section Complete

variable {t : Btree} {s : Fin (2 ^ 32)} {stop : Bpos} {iter : BtreeIter} {table : SnapshotTable}
  {fuel : ℕ}

/-- If the search jumps over no extent of the range, then a call returns the first one. -/
theorem peeksFirst_of_kept (h : t.Valid) (ht : ExtentKeys s t) (hiter : OnExtents s iter)
    (hfuel : searchTurns ≤ fuel) (hkept : ∀ k, ExtentIn t iter.pos stop k →
      iter.pos.slot < stop.slot ∧ ¬SearchPasses t s stop iter.pos k) :
    PeeksFirstExtent fuel table t iter stop := by
  obtain ⟨⟨iter', ret⟩, hpeek, hcall⟩ := peekMax_extents h ht hiter hfuel table stop
  refine ⟨iter', ret, hpeek, ?_⟩
  rcases hcall with ⟨hpos, ⟨hnull, hnone⟩ | ⟨k, pos, hk, heq⟩⟩ | ⟨hpast, hnull⟩
  · refine .inl ⟨hnull, fun k hk => (hkept k hk).2 ?_⟩
    exact hnone k hk.live ((ht.searchAfter_le_iff hpos hk.live).mpr hk.behind) hk.before
  · have hslot := (ht.searchAfter_le_iff hpos hk.live).mp hk.le
    refine .inr ⟨k, congrArg Prod.snd heq, ⟨hk.live, hslot, hk.before⟩, fun k' hk' => ?_⟩
    by_contra hlt
    have hle := (ht.searchAfter_le_iff hpos hk'.live).mpr hk'.behind
    exact (hkept k' hk').2 (hk.passed k' hk'.live hle (not_le.mp hlt))
  · exact .inl ⟨hnull, fun k hk => absurd (hkept k hk).1 (not_lt.mpr hpast)⟩

/-- A run of calls enumerates the extents of the range if and only if it begins before the end of the
range and the search jumps over none of them. -/
theorem enumerates_iff_kept (h : t.Valid) (ht : ExtentKeys s t) (hiter : OnExtents s iter)
    (hfuel : searchTurns ≤ fuel) :
    EnumeratesExtents fuel table t iter stop ↔ ∀ k, ExtentIn t iter.pos stop k →
      iter.pos.slot < stop.slot ∧ ¬SearchPasses t s stop iter.pos k := by
  rcases lt_or_ge iter.pos.slot stop.slot with hpos | hpast
  · have hturns : sposMax.slot - iter.pos.slot < fuel := by
      refine lt_of_lt_of_le ?_ hfuel
      rw [Bpos.slot_sposMax, searchTurns]
      omega
    obtain ⟨ks, hrun, hks⟩ := forEach_extents h ht hfuel table iter [] hiter hpos
      hturns
    rw [List.nil_append] at hrun
    constructor
    · rintro ⟨ks', hrun', -, hmem⟩ k hk
      obtain rfl := Option.some.inj (hrun.symm.trans hrun')
      exact ⟨hpos, ((hks.mem k).mp ((hmem k).mpr hk)).2⟩
    · intro hkept
      refine ⟨ks, hrun, hks.sorted, fun k => (hks.mem k).trans ?_⟩
      exact ⟨fun hk => hk.1, fun hk => ⟨hk, (hkept k hk).2⟩⟩
  · obtain ⟨x, hpeek, hcall⟩ := peekMax_extents h ht hiter hfuel table stop
    have hnull := (hcall.resolve_left fun hb => absurd hpast (not_le.mpr hb.1)).2
    obtain ⟨turns, rfl⟩ := Nat.exists_eq_succ_of_ne_zero
      (lt_of_lt_of_le (by decide : 0 < searchTurns) hfuel).ne'
    have hrun : forEachKey (turns + 1) table t iter stop = some [] :=
      loop_succ_done (forEachStep_null hpeek hnull) turns
    constructor
    · rintro ⟨ks, hrun', -, hmem⟩ k hk
      obtain rfl := Option.some.inj (hrun.symm.trans hrun')
      exact absurd ((hmem k).mpr hk) (by simp)
    · intro hkept
      refine ⟨[], hrun, List.Pairwise.nil, fun k => iff_of_false (by simp) fun hk => ?_⟩
      exact absurd (hkept k hk).1 (not_lt.mpr hpast)

/-- In a valid extents tree with one snapshot, an extents iterator returns the first extent of a
range and enumerates all of them if and only if it begins before the end of the range and its search
jumps over none. -/
theorem extent_iteration_iff (h : t.Valid) (ht : ExtentKeys s t) (hiter : OnExtents s iter)
    (hfuel : searchTurns ≤ fuel) :
    (PeeksFirstExtent fuel table t iter stop ∧ EnumeratesExtents fuel table t iter stop) ↔
      ∀ k, ExtentIn t iter.pos stop k →
        iter.pos.slot < stop.slot ∧ ¬SearchPasses t s stop iter.pos k := by
  constructor
  · exact fun hboth => (enumerates_iff_kept h ht hiter hfuel).mp hboth.2
  · exact fun hkept => ⟨peeksFirst_of_kept h ht hiter hfuel hkept,
      (enumerates_iff_kept h ht hiter hfuel).mpr hkept⟩

end Complete

/-! ### An extent behind a dead key -/

/-- A key of the root snapshot in inode `1` that ends at an offset. -/
def rootExtent (offset : Fin (2 ^ 64)) (size type : ℕ) : Bkey :=
  { p := ⟨1, offset, Fin.last _⟩, type := type, size := size, val := [] }

/-- An extents iterator of the root snapshot. -/
def rootIter (offset : Fin (2 ^ 64)) : BtreeIter :=
  bch2TransIterInit ⟨1, offset, Fin.last _⟩ true

theorem rootIter_onExtents (offset : Fin (2 ^ 64)) : OnExtents (Fin.last _) (rootIter offset) :=
  ⟨rfl, rfl, fun _ => by decide⟩

/-- A tree of one leaf in which one extent is live. -/
theorem extentKeys_single {ks : List Bkey} {e : Bkey}
    (hks : ∀ k, (leafTree ks).Live k → k = e) (hsnap : e.p.snapshot = Fin.last _)
    (hwhite : e.whiteout = false) (hsize : 0 < e.size ∧ e.size ≤ e.p.offset) :
    ExtentKeys (Fin.last _) (leafTree ks) where
  snapshot k hk := hks k hk ▸ hsnap
  whiteout k hk := hks k hk ▸ hwhite
  size k hk := hks k hk ▸ hsize
  disjoint k k' hk hk' hlt := by
    rw [hks k hk, hks k' hk'] at hlt
    exact absurd hlt (lt_irrefl _)

/-- In a tree of one leaf without dead keys nothing is jumped over. -/
theorem not_passes_single (e : Bkey) (hlive : e.deleted = false) {s : Fin (2 ^ 32)}
    {stop r : Bpos} {k : Bkey} : ¬SearchPasses (leafTree [e]) s stop r k := by
  have hnone : ∀ p o, ¬Obstacle.Ahead (leafTree [e]) p o := by
    intro p o ho
    cases ho with
    | dead hleaf hpack hd hdel hlt =>
      obtain rfl := Except.ok.inj hleaf
      have hmem := List.mem_singleton.mp (List.mem_of_find?_eq_some hd)
      rw [hmem, hlive] at hdel
      cases hdel
    | leafEnd hleaf hnext =>
      obtain rfl := Except.ok.inj hleaf
      exact nomatch bposSuccessor_sposMax.symm.trans hnext
  intro hp
  induction hp with
  | jump o hmet hle hover => exact hnone _ o hmet.ahead
  | obstacle o hmet hends hrest ih => exact ih
  | extent e hfirst hclear hrest ih => exact ih

theorem extent_iteration_single :
    PeeksFirstExtent searchTurns {} (leafTree [rootExtent 8 4 keyTypeExtent]) (rootIter 2)
        ⟨1, 6, 0⟩ ∧
      EnumeratesExtents searchTurns {} (leafTree [rootExtent 8 4 keyTypeExtent]) (rootIter 2)
        ⟨1, 6, 0⟩ := by
  have hvalid : (leafTree [rootExtent 8 4 keyTypeExtent]).Valid :=
    leafTree_valid (List.pairwise_singleton _ _)
  have hkeys : ExtentKeys (Fin.last _) (leafTree [rootExtent 8 4 keyTypeExtent]) :=
    extentKeys_single (fun k hk => List.mem_singleton.mp hk.1) rfl (by decide) (by decide)
  refine (extent_iteration_iff hvalid hkeys (rootIter_onExtents 2) le_rfl).mpr fun k _ => ?_
  exact ⟨by decide +kernel, not_passes_single _ (by decide)⟩

/-- A dead extent in whose place a live one has come with the same end. -/
def overwrittenTree : Btree :=
  leafTree [rootExtent 8 4 keyTypeDeleted, rootExtent 8 4 keyTypeExtent]

theorem overwrittenTree_live {k : Bkey} (hk : overwrittenTree.Live k) :
    k = rootExtent 8 4 keyTypeExtent := by
  obtain ⟨hmem, hdel⟩ := hk
  rcases List.mem_cons.mp hmem with rfl | hmem
  · cases hdel
  · exact List.mem_singleton.mp hmem

theorem overwrittenTree_valid : overwrittenTree.Valid :=
  leafTree_valid (List.pairwise_pair.mpr (.inr ⟨rfl, rfl⟩))

theorem overwrittenTree_keys : ExtentKeys (Fin.last _) overwrittenTree :=
  extentKeys_single (fun _ hk => overwrittenTree_live hk) rfl (by decide) (by decide)

/-- The search meets the dead key and jumps over the live one. -/
theorem overwrittenTree_passes : SearchPasses overwrittenTree (Fin.last _) ⟨1, 6, 0⟩ (rootIter 2).pos
    (rootExtent 8 4 keyTypeExtent) := by
  refine .jump (.dead (rootExtent 8 4 keyTypeDeleted)) ⟨?_, fun o ho => ?_, fun k hk _ => ?_⟩ le_rfl
    (.inl ?_)
  · exact .dead rfl (by decide +kernel) (List.find?_cons_of_pos (by simp)) rfl (by decide +kernel)
  · cases ho with
    | dead hleaf hpack hd hdel hlt =>
      obtain rfl := Except.ok.inj hleaf
      rcases List.mem_cons.mp (List.mem_of_find?_eq_some hd) with rfl | hmem
      · exact le_rfl
      · rw [List.mem_singleton.mp hmem] at hdel
        cases hdel
    | leafEnd hleaf hnext =>
      obtain rfl := Except.ok.inj hleaf
      exact nomatch bposSuccessor_sposMax.symm.trans hnext
  · rw [overwrittenTree_live hk]
    exact le_rfl
  · decide +kernel

/-- An extent that has taken the place of a dead one with the same end is neither returned nor
enumerated: the search meets the dead key first and goes on behind its slot. -/
theorem overwritten_extent_missed :
    overwrittenTree.Valid ∧ ExtentKeys (Fin.last _) overwrittenTree ∧
    OnExtents (Fin.last _) (rootIter 2) ∧
    ExtentIn overwrittenTree (rootIter 2).pos ⟨1, 6, 0⟩ (rootExtent 8 4 keyTypeExtent) ∧
    ¬PeeksFirstExtent searchTurns {} overwrittenTree (rootIter 2) ⟨1, 6, 0⟩ ∧
    ¬EnumeratesExtents searchTurns {} overwrittenTree (rootIter 2) ⟨1, 6, 0⟩ := by
  have hin : ExtentIn overwrittenTree (rootIter 2).pos ⟨1, 6, 0⟩ (rootExtent 8 4 keyTypeExtent) :=
    ⟨⟨List.mem_cons_of_mem _ (List.mem_singleton_self _), rfl⟩, by decide +kernel,
      by decide +kernel⟩
  refine ⟨overwrittenTree_valid, overwrittenTree_keys, rootIter_onExtents 2, hin, ?_, fun h => ?_⟩
  · rintro ⟨iter', ret, hpeek, ⟨-, hnone⟩ | ⟨k, rfl, -, -⟩⟩
    · exact hnone _ hin
    · obtain ⟨x, hx, hcall⟩ := peekMax_extents overwrittenTree_valid overwrittenTree_keys
        (rootIter_onExtents 2) le_rfl {} ⟨1, 6, 0⟩
      obtain rfl := Option.some.inj (hpeek.symm.trans hx)
      rcases hcall with ⟨-, ⟨hnull, -⟩ | ⟨k', pos, hk', heq⟩⟩ | ⟨-, hnull⟩
      · cases hnull
      · exact hk'.kept (overwrittenTree_live hk'.live ▸ overwrittenTree_passes)
      · cases hnull
  · have hkept := (enumerates_iff_kept overwrittenTree_valid overwrittenTree_keys
      (rootIter_onExtents 2) le_rfl).mp h _ hin
    exact hkept.2 overwrittenTree_passes

end Subvol

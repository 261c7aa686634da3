import Subvol.Iter.Forward
import Subvol.Iter.Prev
import Subvol.Iter.Walk
import Subvol.Snapshot.Walk

/-!
# The keys of other snapshots at a slot

Model of the functions that look at one inode and offset for keys of other snapshots:
`__bch2_key_has_snapshot_overwrites` and `__bch2_get_snapshot_overwrites` look backwards for keys of
descendants, which have smaller ids, and `need_whiteout_for_snapshot` forwards for the key of an
ancestor. All three stop at the first key that is not at the very position they started from, its
snapshot included. The first two begin before that position and so stop at once; the third sees no
key but the one of the next id.

## Main definitions

* `bch2GetSnapshotOverwrites`, `bch2KeyHasSnapshotOverwrites`, `needWhiteoutForSnapshot`.
* `Overwrites`, `Topmost`: the keys and the list that the first two are to find.
* `AncestorKey`, `NearestKey`: the key that the third is to look at.

## Main results

* `overwrites_found_iff`: the first two are right where no key overwrites the position.
* `whiteout_needed_iff`: the third is right where the key it is to look at has the next id.
-/

namespace Subvol

open Lib

/-- `bch2_trans_iter_init` with `BTREE_ITER_all_snapshots`. -/
def allSnapshotsIter (pos : Bpos) : BtreeIter :=
  { rawIter with pos := pos, snapshot := pos.snapshot, k := { rawIter.k with p := pos } }

theorem exists_succ_of_searchTurns_le {fuel : ℕ} (h : searchTurns ≤ fuel) :
    ∃ turns, fuel = turns + 1 :=
  Nat.exists_eq_succ_of_ne_zero
    (Nat.ne_zero_of_lt (lt_of_lt_of_le (by decide : 0 < searchTurns) h))

/-! ### Overwrites -/

/-- `snapshot_list_has_ancestor`. -/
def snapshotListHasAncestor (fuel : ℕ) (table : SnapshotTable) (id : ℕ) : List ℕ → Option Bool
  | [] => some false
  | a :: s => do
    if ← bch2SnapshotIsAncestor fuel table id a then return true
    snapshotListHasAncestor fuel table id s

/-- `snapshot_list_add`; the memory for the list is there. -/
def snapshotListAdd (s : List ℕ) (id : ℕ) : Option (List ℕ) :=
  if id ∈ s then none else some (s ++ [id])

/-- A turn of the loop of `__bch2_get_snapshot_overwrites`. -/
def getOverwritesStep (fuel : ℕ) (table : SnapshotTable) (t : Btree) (pos : Bpos)
    (x : BtreeIter × List ℕ) : Option (Turn (BtreeIter × List ℕ) (List ℕ × ℤ)) := do
  let y ← peekPrevMin fuel table t x.1 posMin
  match y.2.1 with
  | .err e => some (.done (x.2, e))
  | .null => some (.done (x.2, 0))
  | .key k =>
    if k.p ≠ pos then some (.done (x.2, 0))
    else
      let below ← bch2SnapshotIsAncestor fuel table k.p.snapshot pos.snapshot
      let known ← if below then snapshotListHasAncestor fuel table k.p.snapshot x.2 else some true
      let s ← if known then some x.2 else snapshotListAdd x.2 k.p.snapshot
      match advanceAll k.p with
      | none => some (.done (s, 0))
      | some next => some (.next (rawSetPos y.1 next, s))

/-- `__bch2_get_snapshot_overwrites`: the list with what is added to it, and the result. -/
def bch2GetSnapshotOverwrites (fuel : ℕ) (table : SnapshotTable) (t : Btree) (pos : Bpos)
    (s : List ℕ) : Option (List ℕ × ℤ) := do
  let start ← bposPredecessor pos
  loop (getOverwritesStep fuel table t pos) fuel (allSnapshotsIter start, s)

/-- A turn of the loop of `__bch2_key_has_snapshot_overwrites`. -/
def hasOverwritesStep (fuel : ℕ) (table : SnapshotTable) (t : Btree) (pos : Bpos)
    (iter : BtreeIter) : Option (Turn BtreeIter ℤ) := do
  let y ← peekPrevMin fuel table t iter posMin
  match y.2.1 with
  | .err e => some (.done e)
  | .null => some (.done 0)
  | .key k =>
    if k.p ≠ pos then some (.done 0)
    else if ← bch2SnapshotIsAncestor fuel table k.p.snapshot pos.snapshot then some (.done 1)
    else
      match advanceAll k.p with
      | none => some (.done 0)
      | some next => some (.next (rawSetPos y.1 next))

/-- `__bch2_key_has_snapshot_overwrites`. -/
def bch2KeyHasSnapshotOverwrites (fuel : ℕ) (table : SnapshotTable) (t : Btree) (pos : Bpos) :
    Option ℤ := do
  let start ← bposPredecessor pos
  loop (hasOverwritesStep fuel table t pos) fuel (allSnapshotsIter start)

/-- A key that overwrites a position in a snapshot below that of the position. -/
structure Overwrites (parent : ℕ → ℕ) (t : Btree) (pos : Bpos) (k : Bkey) : Prop where
  live : t.Live k
  slot : bkeyEq k.p pos
  below : Ancestor parent k.p.snapshot pos.snapshot
  ne : k.p.snapshot ≠ pos.snapshot

/-- The snapshots of the overwriting keys that are below no other one's. -/
structure Topmost (parent : ℕ → ℕ) (t : Btree) (pos : Bpos) (l : List ℕ) : Prop where
  nodup : l.Nodup
  mem : ∀ id, id ∈ l ↔ (∃ k, Overwrites parent t pos k ∧ k.p.snapshot = id) ∧
    ∀ k, Overwrites parent t pos k → k.p.snapshot ≠ id → ¬Ancestor parent id k.p.snapshot

/-- Both functions find the keys that overwrite a position. -/
def OverwritesFound (fuel : ℕ) (table : SnapshotTable) (t : Btree) (pos : Bpos) : Prop :=
  ∃ ret l, bch2KeyHasSnapshotOverwrites fuel table t pos = some ret ∧
    bch2GetSnapshotOverwrites fuel table t pos [] = some (l, 0) ∧
    (ret = 1 ↔ ∃ k, Overwrites table.parent t pos k) ∧ Topmost table.parent t pos l

section Overwrites

variable {t : Btree} {pos start : Bpos} {fuel : ℕ} {table : SnapshotTable}

/-- The search begins before the position, and no key that it finds is at the position. -/
theorem peekPrev_before (h : t.Valid) (table : SnapshotTable)
    (hstart : bposPredecessor pos = some start) (hfuel : searchTurns ≤ fuel) :
    ∃ iter ret shown, peekPrevMin fuel table t (allSnapshotsIter start) posMin =
        some (iter, ret, shown) ∧
      (ret = .null ∨ ∃ k, ret = .key k ∧ k.p ≠ pos) := by
  have hmin : pos ≠ posMin := by
    rintro rfl
    cases hstart
  obtain ⟨q, hq, hnat⟩ := bposPredecessor_eq_some hmin
  obtain rfl : q = start := Option.some.inj (hq.symm.trans hstart)
  have hspec : (∃ iter' k, peekPrevMin fuel table t (allSnapshotsIter q) posMin =
        some (iter', .null, k) ∧ ∀ k, t.Live k → k.p ≤ q → k.p.slot < posMin.slot) ∨
      ∃ k, t.LastUpTo q k ∧ posMin.slot ≤ k.p.slot ∧
        peekPrevMin fuel table t (allSnapshotsIter q) posMin = some
          ({ allSnapshotsIter q with pos := k.p.withSnapshot q.snapshot, k := k }, .key k, some k) :=
    peekPrevMin_spec h rfl table hfuel
  rcases hspec with ⟨iter', shown, hpeek, -⟩ | ⟨k, hk, -, hpeek⟩
  · exact ⟨_, _, _, hpeek, .inl rfl⟩
  · refine ⟨_, _, _, hpeek, .inr ⟨k, rfl, fun heq => ?_⟩⟩
    have hle : k.p.toNat ≤ q.toNat := hk.le
    rw [heq] at hle
    omega

/-- Nothing is ever found. -/
theorem bch2KeyHasSnapshotOverwrites_eq (h : t.Valid) (hpos : pos ≠ posMin)
    (hfuel : searchTurns ≤ fuel) : bch2KeyHasSnapshotOverwrites fuel table t pos = some 0 := by
  obtain ⟨start, hstart, -⟩ := bposPredecessor_eq_some hpos
  obtain ⟨iter, ret, shown, hpeek, hret⟩ := peekPrev_before h table hstart hfuel
  have hstep : hasOverwritesStep fuel table t pos (allSnapshotsIter start) = some (.done 0) := by
    rw [hasOverwritesStep, hpeek, Option.bind_eq_bind, Option.bind_some]
    rcases hret with rfl | ⟨k, rfl, hne⟩
    · rfl
    · exact if_pos hne
  obtain ⟨turns, hturns⟩ := exists_succ_of_searchTurns_le hfuel
  rw [bch2KeyHasSnapshotOverwrites, hstart, Option.bind_eq_bind, Option.bind_some]
  nth_rewrite 2 [hturns]
  exact loop_succ_done hstep turns

theorem bch2GetSnapshotOverwrites_eq (h : t.Valid) (hpos : pos ≠ posMin)
    (hfuel : searchTurns ≤ fuel) (s : List ℕ) :
    bch2GetSnapshotOverwrites fuel table t pos s = some (s, 0) := by
  obtain ⟨start, hstart, -⟩ := bposPredecessor_eq_some hpos
  obtain ⟨iter, ret, shown, hpeek, hret⟩ := peekPrev_before h table hstart hfuel
  have hstep : getOverwritesStep fuel table t pos (allSnapshotsIter start, s) =
      some (.done (s, 0)) := by
    rw [getOverwritesStep, hpeek, Option.bind_eq_bind, Option.bind_some]
    rcases hret with rfl | ⟨k, rfl, hne⟩
    · rfl
    · exact if_pos hne
  obtain ⟨turns, hturns⟩ := exists_succ_of_searchTurns_le hfuel
  rw [bch2GetSnapshotOverwrites, hstart, Option.bind_eq_bind, Option.bind_some]
  nth_rewrite 2 [hturns]
  exact loop_succ_done hstep turns

/-- So they are wrong wherever there is a key to be found. -/
theorem not_overwritesFound (h : t.Valid) (hpos : pos ≠ posMin) (hfuel : searchTurns ≤ fuel)
    {k : Bkey} (hk : Overwrites table.parent t pos k) : ¬OverwritesFound fuel table t pos := by
  rintro ⟨ret, l, hret, -, hiff, -⟩
  rw [bch2KeyHasSnapshotOverwrites_eq h hpos hfuel] at hret
  obtain rfl := Option.some.inj hret
  exact absurd (hiff.mpr ⟨k, hk⟩) (by decide)

theorem topmost_nil (hnone : ¬∃ k, Overwrites table.parent t pos k) :
    Topmost table.parent t pos [] where
  nodup := List.nodup_nil
  mem id := by
    refine iff_of_false List.not_mem_nil ?_
    rintro ⟨⟨k, hk, -⟩, -⟩
    exact hnone ⟨k, hk⟩

end Overwrites

/-- The two functions find the keys of descendants of the snapshot of a position just where there
are none of them, and at the first position they fail. -/
theorem overwrites_found_iff {t : Btree} (h : t.Valid) (table : SnapshotTable) (pos : Bpos)
    {fuel : ℕ} (hfuel : searchTurns ≤ fuel) :
    OverwritesFound fuel table t pos ↔
      pos ≠ posMin ∧ ¬∃ k, Overwrites table.parent t pos k := by
  constructor
  · intro hfound
    have hpos : pos ≠ posMin := by
      rintro rfl
      obtain ⟨ret, l, hret, -⟩ := hfound
      cases hret
    exact ⟨hpos, fun ⟨k, hk⟩ => not_overwritesFound h hpos hfuel hk hfound⟩
  · rintro ⟨hpos, hnone⟩
    exact ⟨0, [], bch2KeyHasSnapshotOverwrites_eq h hpos hfuel,
      bch2GetSnapshotOverwrites_eq h hpos hfuel [], iff_of_false (by decide) hnone,
      topmost_nil hnone⟩

/-- A key of the parent snapshot does not overwrite the position of a child. -/
theorem overwrites_found_inherited :
    OverwritesFound searchTurns fourSnapshots (leafTree [inheritedKey]) (childPos 1) := by
  refine (overwrites_found_iff (leafTree_valid (List.pairwise_singleton _ _)) _ _ le_rfl).mpr
    ⟨by decide, ?_⟩
  rintro ⟨k, hk⟩
  obtain rfl : k = inheritedKey := List.mem_singleton.mp hk.live.1
  have habove := (ancestor_parent fourSnapshots.parent (by decide : u32Max ≠ u32Max - 1)).mp hk.below
  exact absurd habove.1 (by decide)

/-- A key of a child snapshot. -/
def childKey : Bkey := { p := childPos 1, type := 25, val := [] }

/-- The key of a child at the position of its parent is not found. -/
theorem child_overwrite_not_found :
    (leafTree [childKey]).Valid ∧
      Overwrites fourSnapshots.parent (leafTree [childKey]) inheritedKey.p childKey ∧
      ¬OverwritesFound searchTurns fourSnapshots (leafTree [childKey]) inheritedKey.p := by
  have hvalid : (leafTree [childKey]).Valid := leafTree_valid (List.pairwise_singleton _ _)
  have hover : Overwrites fourSnapshots.parent (leafTree [childKey]) inheritedKey.p childKey :=
    ⟨⟨List.mem_singleton_self _, rfl⟩, by decide, .single ⟨by decide, by decide⟩, by decide⟩
  exact ⟨hvalid, hover, not_overwritesFound hvalid (by decide) le_rfl hover⟩

/-! ### Whiteouts -/

/-- What `need_whiteout_for_snapshot` does with a key. -/
def needWhiteoutKey (fuel : ℕ) (table : SnapshotTable) (snapshot : ℕ) (pos : Bpos)
    (iter : BtreeIter) (k : Bkey) : Option (Turn BtreeIter ℤ) :=
  if k.p ≠ pos then some (.done 0)
  else do
    let above ← bch2SnapshotIsAncestor fuel table snapshot k.p.snapshot
    if above then
      some (.done (if k.type = keyTypeDeleted ∨ k.type = keyTypeWhiteout then 0 else 1))
    else
      match advanceAll k.p with
      | none => some (.done 0)
      | some next => some (.next (rawSetPos iter next))

/-- A turn of the loop of `need_whiteout_for_snapshot`. -/
def needWhiteoutStep (fuel : ℕ) (table : SnapshotTable) (t : Btree) (snapshot : ℕ) (pos : Bpos)
    (iter : BtreeIter) : Option (Turn BtreeIter ℤ) := do
  let y ← peekMax fuel t iter sposMax
  match y.2 with
  | .err e => some (.done e)
  | .null => some (.done 0)
  | .key k => needWhiteoutKey fuel table snapshot pos y.1 k

/-- `need_whiteout_for_snapshot`. -/
def needWhiteoutForSnapshot (fuel : ℕ) (table : SnapshotTable) (t : Btree) (pos : Bpos) :
    Option ℤ :=
  if table.parent pos.snapshot = 0 then some 0
  else
    let next := pos.withSnapshot (pos.snapshot + 1)
    loop (needWhiteoutStep fuel table t pos.snapshot next) fuel (allSnapshotsIter next)

/-- A key at the slot of a position in a snapshot above that of the position. -/
structure AncestorKey (parent : ℕ → ℕ) (t : Btree) (pos : Bpos) (k : Bkey) : Prop where
  live : t.Live k
  slot : bkeyEq k.p pos
  above : Ancestor parent pos.snapshot k.p.snapshot
  ne : k.p.snapshot ≠ pos.snapshot

/-- The one of the nearest snapshot. -/
structure NearestKey (parent : ℕ → ℕ) (t : Btree) (pos : Bpos) (k : Bkey) : Prop
    extends AncestorKey parent t pos k where
  nearest : ∀ k', AncestorKey parent t pos k' → Ancestor parent k.p.snapshot k'.p.snapshot

/-- A whiteout is asked for just where the nearest key above is not one itself. -/
def WhiteoutNeeded (fuel : ℕ) (parent : ℕ → ℕ) (table : SnapshotTable) (t : Btree) (pos : Bpos) :
    Prop :=
  ∃ ret, needWhiteoutForSnapshot fuel table t pos = some ret ∧
    (ret = 1 ↔ ∃ k, NearestKey parent t pos k ∧ k.type ≠ keyTypeWhiteout)

section Whiteout

variable {keys : List SnapshotKey} {table : SnapshotTable} {t : Btree} {pos next : Bpos} {fuel : ℕ}

/-- Behind the position the loop ends. -/
theorem needWhiteoutStep_behind (h : t.Valid) (table : SnapshotTable) (snapshot : ℕ)
    {iter : BtreeIter}
    (hext : iter.isExtents = false) (hlt : next < iter.pos) (hfuel : searchTurns ≤ fuel) :
    needWhiteoutStep fuel table t snapshot next iter = some (.done 0) := by
  obtain ⟨x, hpeek, hx⟩ : ∃ x, peekMax fuel t iter sposMax = some x ∧
      PeekedFrom t sposMax iter.pos iter x := peekMax_spec h hext hfuel
  rw [needWhiteoutStep, hpeek, Option.bind_eq_bind, Option.bind_some]
  rcases hx with ⟨hnull, -⟩ | ⟨k, hk, -, rfl⟩
  · rw [hnull]
  · exact if_pos (hlt.trans_le hk.le).ne'

/-- The key looked at: the one of the next id, if that is an ancestor. -/
structure NextKey (parent : ℕ → ℕ) (t : Btree) (pos : Bpos) (k : Bkey) : Prop
    extends AncestorKey parent t pos k where
  next : (k.p.snapshot : ℕ) = pos.snapshot + 1

theorem NextKey.pos_eq {parent : ℕ → ℕ} {k : Bkey} (h : NextKey parent t pos k) :
    k.p = pos.withSnapshot (pos.snapshot + 1) := by
  refine Bpos.ext_slot (bkeyEq_iff.mp h.slot) (Fin.ext ?_)
  have hlt := k.p.snapshot.isLt
  rw [h.next] at hlt ⊢
  rw [Bpos.withSnapshot_snapshot, Fin.val_add]
  exact (Nat.mod_eq_of_lt hlt).symm

/-- A key of the next id is the nearest one. -/
theorem NextKey.nearest {parent : ℕ → ℕ} (hup : Rising parent) {k : Bkey}
    (h : NextKey parent t pos k) : NearestKey parent t pos k where
  toAncestorKey := h.toAncestorKey
  nearest k' hk' := by
    refine (ancestor_jump hup h.above ?_).mp hk'.above
    have hle := hk'.above.le hup
    have hne : (k'.p.snapshot : ℕ) ≠ pos.snapshot := fun heq => hk'.ne (Fin.ext heq)
    have hnext := h.next
    omega

/-- The key of the next id, where its snapshot is an ancestor. -/
theorem nextKey_iff {parent : ℕ → ℕ} (hlt : (pos.snapshot : ℕ) + 1 < 2 ^ 32) {k : Bkey} :
    NextKey parent t pos k ↔ t.Live k ∧ k.p = pos.withSnapshot (pos.snapshot + 1) ∧
      Ancestor parent pos.snapshot k.p.snapshot := by
  constructor
  · exact fun h => ⟨h.live, h.pos_eq, h.above⟩
  · rintro ⟨hlive, hp, habove⟩
    have hsnap : (k.p.snapshot : ℕ) = pos.snapshot + 1 := by
      rw [hp, Bpos.withSnapshot_snapshot, Fin.val_add]
      exact Nat.mod_eq_of_lt hlt
    refine ⟨⟨hlive, bkeyEq_iff.mpr (by rw [hp, Bpos.withSnapshot_slot]), habove, fun heq => ?_⟩, hsnap⟩
    rw [heq] at hsnap
    omega

/-- What a turn of the loop says of the key of the next id. -/
def NextKeyTurn (parent : ℕ → ℕ) (t : Btree) (pos next : Bpos) : Turn BtreeIter ℤ → Prop
  | .done ret => ret = 1 ↔ ∃ k, NextKey parent t pos k ∧ k.type ≠ keyTypeWhiteout
  | .next iter => iter.isExtents = false ∧ next < iter.pos ∧ ∀ k, ¬NextKey parent t pos k

theorem nextKeyTurn_zero {parent : ℕ → ℕ} (hno : ∀ k, ¬NextKey parent t pos k) :
    NextKeyTurn parent t pos next (.done 0) :=
  iff_of_false (by decide) fun ⟨k, hk, _⟩ => hno k hk

/-- A key at the position of the next id. -/
theorem needWhiteoutKey_next (hwf : SnapshotKeysWf keys) (htab : TableOf keys keys table)
    (h : t.Valid) (hfuel : searchTurns ≤ fuel) (hlt : (pos.snapshot : ℕ) + 1 < 2 ^ 32)
    (hpos : (pos.snapshot : ℕ) ≠ 0) {iter : BtreeIter} (hext : iter.isExtents = false) {k : Bkey}
    (hk : t.Live k) (hp : k.p = pos.withSnapshot (pos.snapshot + 1)) :
    ∃ turn, needWhiteoutKey fuel table pos.snapshot k.p iter k = some turn ∧
      NextKeyTurn (keyParent keys) t pos k.p turn := by
  have hunique : ∀ k', NextKey (keyParent keys) t pos k' → k' = k := fun k' hk' =>
    h.live_eq hk'.live hk (hk'.pos_eq.trans hp.symm)
  have hbound : (k.p.snapshot : ℕ) < fuel :=
    k.p.snapshot.isLt.trans_le ((by decide : 2 ^ 32 ≤ searchTurns).trans hfuel)
  have hsnap : (k.p.snapshot : ℕ) ≠ 0 := by
    rw [hp, Bpos.withSnapshot_snapshot, Fin.val_add]
    exact ne_of_eq_of_ne (Nat.mod_eq_of_lt hlt) (Nat.succ_ne_zero _)
  obtain ⟨above, hr, habove⟩ :=
    isAncestor_spec hwf htab (Nat.le_sub_one_of_lt pos.snapshot.isLt) hpos hsnap hbound
  rw [needWhiteoutKey, if_neg (not_not.mpr rfl), hr, Option.bind_eq_bind, Option.bind_some]
  cases above with
  | true =>
    have hkey : NextKey (keyParent keys) t pos k := (nextKey_iff hlt).mpr ⟨hk, hp, habove.mp rfl⟩
    have hlive : k.type ≠ keyTypeDeleted := by simpa [Bkey.deleted] using hk.2
    refine ⟨_, rfl, ?_⟩
    rw [NextKeyTurn]
    by_cases hw : k.type = keyTypeWhiteout
    · rw [if_pos (.inr hw)]
      exact iff_of_false (by decide) (by rintro ⟨k', hk', hw'⟩; exact hw' (hunique k' hk' ▸ hw))
    · rw [if_neg (not_or.mpr ⟨hlive, hw⟩)]
      exact iff_of_true rfl ⟨k, hkey, hw⟩
  | false =>
    have hno : ∀ k', ¬NextKey (keyParent keys) t pos k' := fun k' hk' =>
      Bool.false_ne_true (habove.mpr (hunique k' hk' ▸ hk'.above))
    rw [if_neg Bool.false_ne_true]
    cases hadv : advanceAll k.p with
    | none => exact ⟨_, rfl, nextKeyTurn_zero hno⟩
    | some q => exact ⟨_, rfl, hext, advanceAll_advances k.p q hadv, hno⟩

/-- The first turn looks at the key of the next id. -/
theorem needWhiteoutStep_next (hwf : SnapshotKeysWf keys) (htab : TableOf keys keys table)
    (h : t.Valid) (hfuel : searchTurns ≤ fuel) (hlt : (pos.snapshot : ℕ) + 1 < 2 ^ 32)
    (hpos : (pos.snapshot : ℕ) ≠ 0) (hnext : next = pos.withSnapshot (pos.snapshot + 1)) :
    ∃ turn, needWhiteoutStep fuel table t pos.snapshot next (allSnapshotsIter next) = some turn ∧
      NextKeyTurn (keyParent keys) t pos next turn := by
  obtain ⟨x, hpeek, hx⟩ : ∃ x, peekMax fuel t (allSnapshotsIter next) sposMax = some x ∧
      PeekedFrom t sposMax next (allSnapshotsIter next) x := peekMax_spec h rfl hfuel
  have hat : ∀ k, NextKey (keyParent keys) t pos k → k.p = next := fun k hk =>
    hk.pos_eq.trans hnext.symm
  rw [needWhiteoutStep, hpeek, Option.bind_eq_bind, Option.bind_some]
  rcases hx with ⟨hnull, hbehind⟩ | ⟨k, hk, -, rfl⟩
  · rw [hnull]
    refine ⟨_, rfl, nextKeyTurn_zero fun k hk => ?_⟩
    rcases hbehind k hk.live (hat k hk).ge with hgt | ⟨hgt, -⟩
    · exact absurd (Bpos.le_sposMax k.p) (not_le.mpr hgt)
    · exact absurd (hat k hk) hgt.ne'
  by_cases hne : k.p ≠ next
  · refine ⟨.done 0, if_pos hne, nextKeyTurn_zero fun k' hk' => hne (le_antisymm ?_ hk.le)⟩
    exact (hk.first k' hk'.live (hat k' hk').ge).trans (hat k' hk').le
  · obtain rfl : k.p = next := not_not.mp hne
    exact needWhiteoutKey_next hwf htab h hfuel hlt hpos rfl hk.live hnext

/-- The result: whether there is such a key and it is not a whiteout. -/
theorem needWhiteoutForSnapshot_spec (hwf : SnapshotKeysWf keys) (htab : TableOf keys keys table)
    (h : t.Valid) (pos : Bpos) (hfuel : searchTurns ≤ fuel) :
    ∃ ret, needWhiteoutForSnapshot fuel table t pos = some ret ∧
      (ret = 1 ↔ ∃ k, NextKey (keyParent keys) t pos k ∧ k.type ≠ keyTypeWhiteout) := by
  have hpar := htab.parent hwf (Nat.le_sub_one_of_lt pos.snapshot.isLt)
  rw [needWhiteoutForSnapshot, hpar]
  by_cases hroot : keyParent keys pos.snapshot = 0
  · refine ⟨0, if_pos hroot, iff_of_false (by decide) ?_⟩
    rintro ⟨k, hk, -⟩
    have hne : (pos.snapshot : ℕ) ≠ k.p.snapshot := fun heq => hk.ne (Fin.ext heq.symm)
    exact ((ancestor_parent _ hne).mp hk.above).1 hroot
  · have hup := (hwf.rising pos.snapshot).resolve_left hroot
    have hmax := hwf.keyParent_le pos.snapshot
    have hpos : (pos.snapshot : ℕ) ≠ 0 := fun hz => hroot (hz ▸ hwf.keyParent_zero)
    have hlt : (pos.snapshot : ℕ) + 1 < 2 ^ 32 := by
      rw [u32Max] at hmax
      omega
    rw [if_neg hroot]
    obtain ⟨turn, hstep, hturn⟩ := needWhiteoutStep_next hwf htab h hfuel hlt hpos rfl
    obtain ⟨turns, hturns⟩ : ∃ turns, fuel = turns + 2 :=
      Nat.exists_eq_add_of_le' ((by decide : 2 ≤ searchTurns).trans hfuel)
    dsimp only
    nth_rewrite 2 [hturns]
    cases turn with
    | done ret => exact ⟨ret, loop_succ_done hstep _, hturn⟩
    | next iter =>
      obtain ⟨hext, hbehind, hno⟩ := hturn
      have hlast := needWhiteoutStep_behind h table pos.snapshot hext hbehind hfuel
      refine ⟨0, (loop_succ_next hstep _).trans (loop_succ_done hlast _), ?_⟩
      exact iff_of_false (by decide) (by rintro ⟨k, hk, -⟩; exact hno k hk)

/-- A nearest key of another id is not seen. -/
theorem not_whiteoutNeeded (hwf : SnapshotKeysWf keys) (htab : TableOf keys keys table)
    (h : t.Valid) (hfuel : searchTurns ≤ fuel) {k : Bkey}
    (hk : NearestKey (keyParent keys) t pos k) (htype : k.type ≠ keyTypeWhiteout)
    (hne : (k.p.snapshot : ℕ) ≠ pos.snapshot + 1) :
    ¬WhiteoutNeeded fuel (keyParent keys) table t pos := by
  rintro ⟨ret, hret, hwant⟩
  obtain ⟨ret', hret', hiff⟩ := needWhiteoutForSnapshot_spec hwf htab h pos hfuel
  obtain rfl : ret = ret' := Option.some.inj (hret.symm.trans hret')
  obtain ⟨k', hk', -⟩ := hiff.mp (hwant.mpr ⟨k, hk, htype⟩)
  -- both keys are the nearest one, so they have the same snapshot
  have hle := (hk.nearest k' hk'.toAncestorKey).le hwf.rising
  have hge := ((hk'.nearest hwf.rising).nearest k hk.toAncestorKey).le hwf.rising
  exact hne ((Nat.le_antisymm hle hge).trans hk'.next)

end Whiteout

/-- `need_whiteout_for_snapshot` is right just where the nearest key above the position, unless it
is a whiteout, has the next id. -/
theorem whiteout_needed_iff {keys : List SnapshotKey} (hwf : SnapshotKeysWf keys) {fuel : ℕ}
    (hfuel : searchTurns ≤ fuel) {c : Snapshots} (hc : bch2SnapshotsRead fuel {} keys = some c)
    {t : Btree} (h : t.Valid) (pos : Bpos) :
    WhiteoutNeeded fuel (keyParent keys) c.table t pos ↔
      ∀ k, NearestKey (keyParent keys) t pos k → k.type ≠ keyTypeWhiteout →
        (k.p.snapshot : ℕ) = pos.snapshot + 1 := by
  have hbits : isAncestorBitmap < fuel :=
    lt_of_lt_of_le (by decide : isAncestorBitmap < searchTurns) hfuel
  have htab := tableOf_read hwf hbits hc
  constructor
  · intro hneeded k hk htype
    by_contra hne
    exact not_whiteoutNeeded hwf htab h hfuel hk htype hne hneeded
  · intro hcond
    obtain ⟨ret, hret, hiff⟩ := needWhiteoutForSnapshot_spec hwf htab h pos hfuel
    refine ⟨ret, hret, hiff.trans ⟨?_, ?_⟩⟩
    · rintro ⟨k, hk, htype⟩
      exact ⟨k, hk.nearest hwf.rising, htype⟩
    · rintro ⟨k, hk, htype⟩
      exact ⟨k, ⟨hk.toAncestorKey, hcond k hk htype⟩, htype⟩

theorem whiteout_needed_inherited : ∃ c, bch2SnapshotsRead searchTurns {} twoSnapshots = some c ∧
    WhiteoutNeeded searchTurns (keyParent twoSnapshots) c.table (leafTree [inheritedKey])
      (childPos 1) := by
  obtain ⟨c, hc, -⟩ := (TableOf.empty twoSnapshots).bch2SnapshotsRead twoSnapshots_wf
    (by decide : isAncestorBitmap < searchTurns) rfl (c := {})
  have hvalid : (leafTree [inheritedKey]).Valid := leafTree_valid (List.pairwise_singleton _ _)
  refine ⟨c, hc, (whiteout_needed_iff twoSnapshots_wf le_rfl hc hvalid _).mpr fun k hk _ => ?_⟩
  obtain rfl : k = inheritedKey := List.mem_singleton.mp hk.live.1
  decide

/-- A snapshot, its child and its grandchild. -/
def threeSnapshots : List SnapshotKey :=
  [{ id := u32Max, parent := 0 },
    { id := u32Max - 1, parent := u32Max, depth := 1, skip := fun _ => u32Max },
    { id := u32Max - 2, parent := u32Max - 1, depth := 2, skip := fun _ => u32Max - 1 }]

theorem threeSnapshots_wf : SnapshotKeysWf threeSnapshots where
  type := by simp [threeSnapshots]
  id_pos := by simp [threeSnapshots, u32Max]
  id_le := by simp [threeSnapshots, u32Max]
  descending := by simp [threeSnapshots, u32Max]
  parent := by simp [threeSnapshots, u32Max]
  skip := by
    have hself (a : ℕ) : Ancestor (keyParent threeSnapshots) a a := .refl
    simpa [threeSnapshots, SnapshotKey.entry, snapshotDepthOffset] using
      ⟨fun _ => hself _, fun _ => hself _⟩
  skip_ne := by simp [threeSnapshots, SnapshotKey.entry, snapshotDepthOffset, u32Max]

/-- The position of the grandchild at the slot of the inherited key. -/
def grandchildPos : Bpos := ⟨1, 1, ⟨u32Max - 2, by decide⟩⟩

/-- The key of a snapshot is not seen from its grandchild, where it needs a whiteout. -/
theorem grandchild_whiteout_missed :
    ∃ c, bch2SnapshotsRead searchTurns {} threeSnapshots = some c ∧
      (leafTree [inheritedKey]).Valid ∧
      ¬WhiteoutNeeded searchTurns (keyParent threeSnapshots) c.table (leafTree [inheritedKey])
        grandchildPos := by
  obtain ⟨c, hc, htab⟩ := (TableOf.empty threeSnapshots).bch2SnapshotsRead threeSnapshots_wf
    (by decide : isAncestorBitmap < searchTurns) rfl (c := {})
  have hvalid : (leafTree [inheritedKey]).Valid := leafTree_valid (List.pairwise_singleton _ _)
  have hparent : Ancestor (keyParent threeSnapshots) (u32Max - 2) (u32Max - 1) :=
    .single ⟨by decide, by decide⟩
  have habove : Ancestor (keyParent threeSnapshots) (u32Max - 2) u32Max :=
    hparent.tail ⟨by decide, by decide⟩
  have hnearest : NearestKey (keyParent threeSnapshots) (leafTree [inheritedKey]) grandchildPos
      inheritedKey := by
    refine ⟨⟨⟨List.mem_singleton_self _, rfl⟩, by decide, habove, by decide⟩, fun k' hk' => ?_⟩
    rw [List.mem_singleton.mp hk'.live.1]
    exact .refl
  exact ⟨c, hc, hvalid,
    not_whiteoutNeeded threeSnapshots_wf htab hvalid le_rfl hnearest (by decide) (by decide)⟩

end Subvol

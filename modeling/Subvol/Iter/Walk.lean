import Subvol.Iter.Scan

/-!
# Walks over the keys of a tree

The engine copies trees with iterators that have neither the filter for snapshots nor the flag for
extents: `bch2_trans_iter_init` takes the flags it is given and does not ask
`bch2_btree_iter_flags` for those of the tree. Such an iterator returns one live key after the other
and is advanced from each of them. How far it is advanced depends on `BTREE_ITER_all_snapshots`:
with the flag to the next position, without it to the next offset, over the other snapshots of the
key.

## Main definitions

* `advanceAll`, `advanceSlot`: `bch2_btree_iter_advance` with the flag and without it.
* `rawScan`: the loop over the iterator.
* `walk`: the same over the live keys in their order.

## Main results

* `rawScan_eq_walk`: the loop gives the keys of the walk.
* `walk_advanceAll`: a walk over all snapshots gives all keys.
* `mem_walk_advanceSlot`: one without the flag gives the first key of every inode and offset.
-/

namespace Subvol

open Lib

/-! ### The iterators -/

/-- `bch2_btree_iter_advance` from a key, with `BTREE_ITER_all_snapshots`. -/
def advanceAll (p : Bpos) : Option Bpos := if p = sposMax then none else bposSuccessor p

/-- `bch2_btree_iter_advance` from a key, without the flag; the snapshot of the iterator is zero. -/
def advanceSlot (p : Bpos) : Option Bpos := if bkeyEq p sposMax then none else bposNosnapSuccessor p

/-- `bch2_trans_iter_init` at `POS_MIN`. -/
def rawIter : BtreeIter where
  pos := posMin
  snapshot := 0
  k := { p := posMin, type := keyTypeDeleted, val := [] }
  isExtents := false
  filterSnapshots := false
  nofilterWhiteouts := false

/-- `btree_iter_set_pos` to a position that has the snapshot of the iterator, or with
`BTREE_ITER_all_snapshots`. -/
def rawSetPos (iter : BtreeIter) (p : Bpos) : BtreeIter :=
  { iter with pos := p, k := { iter.k with type := keyTypeDeleted, p := p, size := 0 } }

/-- A turn of the loop: a key is taken, and the iterator advanced. The end of the search is
`SPOS_MAX`, which no position exceeds in either comparison. -/
def rawScanStep (advance : Bpos → Option Bpos) (fuel : ℕ) (t : Btree)
    (x : BtreeIter × List Bkey) : Option (Turn (BtreeIter × List Bkey) (List Bkey)) := do
  let y ← peekMax fuel t x.1 sposMax
  match y.2 with
  | .null => some (.done x.2)
  | .err _ => none
  | .key k =>
    match advance k.p with
    | none => some (.done (x.2 ++ [k]))
    | some next => some (.next (rawSetPos y.1 next, x.2 ++ [k]))

/-- The keys that `bch2_btree_iter_peek` and `bch2_btree_iter_next` return. -/
def rawScan (advance : Bpos → Option Bpos) (fuel : ℕ) (t : Btree) : Option (List Bkey) :=
  loop (rawScanStep advance fuel t) fuel (rawIter, [])

/-! ### Walks over sorted keys -/

section Walk

variable {β : Type*} (pos : β → Bpos) (advance : Bpos → Option Bpos)

/-- The keys returned from a position on, out of live keys in their order; `none` is an iterator
that cannot be advanced. -/
def walk : Option Bpos → List β → List β
  | none, _ => []
  | some _, [] => []
  | some p, k :: ks =>
    if pos k < p then walk (some p) ks else k :: walk (advance (pos k)) ks

variable {pos advance}

@[simp]
theorem walk_none (l : List β) : walk pos advance none l = [] := by
  cases l <;> rfl

theorem walk_nil (p : Option Bpos) : walk pos advance p [] = [] := by
  cases p <;> rfl

theorem walk_sublist (p : Option Bpos) (l : List β) : (walk pos advance p l).Sublist l := by
  induction l generalizing p with
  | nil => rw [walk_nil]
  | cons k ks ih =>
    cases p with
    | none => exact List.nil_sublist _
    | some p =>
      rw [walk]
      split_ifs with hlt
      · exact (ih (some p)).cons k
      · exact (ih _).cons_cons k

/-- Keys before the position are passed over. -/
theorem walk_append_of_lt {p : Bpos} {l l' : List β} (h : ∀ k ∈ l, pos k < p) :
    walk pos advance (some p) (l ++ l') = walk pos advance (some p) l' := by
  induction l with
  | nil => rfl
  | cons k ks ih =>
    obtain ⟨hk, hks⟩ := List.forall_mem_cons.mp h
    rw [List.cons_append, walk, if_pos hk, ih hks]

theorem walk_eq_nil {p : Bpos} {l : List β} (h : ∀ k ∈ l, pos k < p) :
    walk pos advance (some p) l = [] := by
  have hwalk : walk pos advance (some p) (l ++ []) = walk pos advance (some p) [] :=
    walk_append_of_lt h
  rwa [List.append_nil, walk_nil] at hwalk

/-- A walk over all snapshots leaves out no key. -/
theorem walk_advanceAll_from {p : Bpos} {l : List β} (hl : l.Pairwise fun a b => pos a < pos b)
    (hp : ∀ k ∈ l, p ≤ pos k) : walk pos advanceAll (some p) l = l := by
  induction l generalizing p with
  | nil => rfl
  | cons k ks ih =>
    obtain ⟨hfirst, hks⟩ := List.pairwise_cons.mp hl
    rw [walk, if_neg (not_lt.mpr (hp k List.mem_cons_self))]
    congr 1
    by_cases hmax : pos k = sposMax
    · have hnil : ks = [] := List.eq_nil_iff_forall_not_mem.mpr fun k' hk' =>
        absurd (Bpos.le_sposMax (pos k')) (not_le.mpr (hmax ▸ hfirst k' hk'))
      rw [hnil, walk_nil]
    · obtain ⟨q, hq, hnat⟩ := bposSuccessor_eq_some hmax
      rw [advanceAll, if_neg hmax, hq]
      refine ih hks fun k' hk' => ?_
      have hlt : (pos k).toNat < (pos k').toNat := hfirst k' hk'
      exact Bpos.le_iff_toNat.mpr (by omega)

theorem walk_advanceAll {l : List β} (hl : l.Pairwise fun a b => pos a < pos b) :
    walk pos advanceAll (some posMin) l = l :=
  walk_advanceAll_from hl fun _ _ => Bpos.posMin_le _

/-- Where `advanceSlot` goes to: the first position behind the slot. -/
theorem advanceSlot_cases (p : Bpos) :
    (advanceSlot p = none ∧ ∀ q : Bpos, q.slot ≤ p.slot) ∨
      ∃ q, advanceSlot p = some q ∧ ∀ r : Bpos, q ≤ r ↔ p.slot < r.slot := by
  by_cases hmax : bkeyEq p sposMax
  · refine .inl ⟨if_pos hmax, fun q => ?_⟩
    rw [bkeyEq_iff.mp hmax]
    exact Bpos.slot_mono (Bpos.le_sposMax q)
  · have hslot : p.slot < 2 ^ 128 - 1 := by
      refine lt_of_le_of_ne p.slot_le fun heq => hmax (bkeyEq_iff.mpr ?_)
      rw [heq, Bpos.slot_sposMax]
    obtain ⟨q, hq, hqs, hqn⟩ := bposNosnapSuccessor_eq_some hslot
    refine .inr ⟨q, by rw [advanceSlot, if_neg hmax, hq], fun r => ?_⟩
    rw [Bpos.le_iff_slot, hqs, hqn]
    constructor
    · rintro (hlt | ⟨heq, -⟩) <;> omega
    · intro hlt
      rcases Nat.lt_or_eq_of_le (Nat.succ_le_of_lt hlt) with hlt | heq
      · exact .inl hlt
      · exact .inr ⟨heq, Fin.zero_le _⟩

/-- A walk without the flag gives the first key of every slot from its position on. -/
theorem mem_walk_advanceSlot_from {p : Bpos} {l : List β}
    (hl : l.Pairwise fun a b => pos a < pos b) {k : β} :
    k ∈ walk pos advanceSlot (some p) l ↔
      k ∈ l ∧ p ≤ pos k ∧ ∀ k' ∈ l, p ≤ pos k' → (pos k').slot = (pos k).slot → pos k ≤ pos k' := by
  induction l generalizing p with
  | nil => simp [walk]
  | cons k₀ ks ih =>
    obtain ⟨hfirst, hks⟩ := List.pairwise_cons.mp hl
    rw [walk]
    split_ifs with hlt
    · rw [ih hks]
      constructor
      · rintro ⟨hk, hle, hmin⟩
        refine ⟨List.mem_cons_of_mem _ hk, hle, fun k' hk' hle' hslot => ?_⟩
        rcases List.mem_cons.mp hk' with rfl | hk'
        · exact absurd hle' (not_le.mpr hlt)
        · exact hmin k' hk' hle' hslot
      · rintro ⟨hk, hle, hmin⟩
        rcases List.mem_cons.mp hk with rfl | hk
        · exact absurd hle (not_le.mpr hlt)
        · exact ⟨hk, hle, fun k' hk' => hmin k' (List.mem_cons_of_mem _ hk')⟩
    have hle₀ : p ≤ pos k₀ := not_lt.mp hlt
    rw [List.mem_cons]
    constructor
    · rintro (rfl | hk)
      · refine ⟨List.mem_cons_self, hle₀, fun k' hk' _ _ => ?_⟩
        rcases List.mem_cons.mp hk' with rfl | hk'
        · exact le_refl _
        · exact (hfirst k' hk').le
      · rcases advanceSlot_cases (pos k₀) with ⟨hnone, -⟩ | ⟨q, hq, hbehind⟩
        · rw [hnone, walk_none] at hk
          cases hk
        rw [hq] at hk
        obtain ⟨hmem, hqk, hmin⟩ := (ih hks).mp hk
        refine ⟨List.mem_cons_of_mem _ hmem, hle₀.trans (hfirst k hmem).le,
          fun k' hk' _ hslot => ?_⟩
        rcases List.mem_cons.mp hk' with rfl | hk'
        · exact absurd ((hbehind _).mp hqk) (by omega)
        · refine hmin k' hk' ((hbehind _).mpr ?_) hslot
          rw [hslot]
          exact (hbehind _).mp hqk
    · rintro ⟨hk, hle, hmin⟩
      rcases List.mem_cons.mp hk with rfl | hk
      · exact .inl rfl
      -- a key of the slot of the first one lies behind it
      have hslot : (pos k₀).slot < (pos k).slot := by
        refine lt_of_le_of_ne (Bpos.slot_mono (hfirst k hk).le) fun heq => ?_
        exact absurd (hmin k₀ List.mem_cons_self hle₀ heq) (not_le.mpr (hfirst k hk))
      rcases advanceSlot_cases (pos k₀) with ⟨-, hlast⟩ | ⟨q, hq, hbehind⟩
      · exact absurd (hlast (pos k)) (by omega)
      · refine .inr ?_
        rw [hq]
        refine (ih hks).mpr ⟨hk, (hbehind _).mpr hslot, fun k' hk' _ hsame => ?_⟩
        exact hmin k' (List.mem_cons_of_mem _ hk') (hle₀.trans (hfirst k' hk').le) hsame

theorem mem_walk_advanceSlot {l : List β} (hl : l.Pairwise fun a b => pos a < pos b) {k : β} :
    k ∈ walk pos advanceSlot (some posMin) l ↔
      k ∈ l ∧ ∀ k' ∈ l, (pos k').slot = (pos k).slot → pos k ≤ pos k' := by
  rw [mem_walk_advanceSlot_from hl]
  constructor
  · rintro ⟨hk, -, hmin⟩
    exact ⟨hk, fun k' hk' => hmin k' hk' (Bpos.posMin_le _)⟩
  · rintro ⟨hk, hmin⟩
    exact ⟨hk, Bpos.posMin_le _, fun k' hk' _ => hmin k' hk'⟩

end Walk

/-! ### The loop and the walk -/

/-- An advance goes forward. -/
def Advances (advance : Bpos → Option Bpos) : Prop := ∀ p q, advance p = some q → p < q

theorem advanceAll_advances : Advances advanceAll := by
  intro p q h
  rw [advanceAll] at h
  split_ifs at h with hmax
  obtain ⟨q', hq', hnat⟩ := bposSuccessor_eq_some hmax
  rw [hq'] at h
  cases h
  exact Bpos.lt_iff_toNat.mpr (by omega)

theorem advanceSlot_advances : Advances advanceSlot := by
  intro p q h
  rcases advanceSlot_cases p with ⟨hnone, -⟩ | ⟨q', hq', hbehind⟩
  · rw [hnone] at h
    cases h
  · rw [hq'] at h
    cases h
    exact not_le.mp fun hle => absurd ((hbehind p).mp hle) (lt_irrefl _)

/-- The live keys of a tree in their order. -/
def Btree.liveKeys (t : Btree) : List Bkey := t.keys.filter fun k => !k.deleted

section Loop

variable {t : Btree} {advance : Bpos → Option Bpos}

theorem Btree.mem_liveKeys {k : Bkey} : k ∈ t.liveKeys ↔ t.Live k := by
  rw [liveKeys, List.mem_filter, Bool.not_eq_true']
  exact Iff.rfl

theorem Btree.Valid.liveKeys_sorted (h : t.Valid) :
    t.liveKeys.Pairwise fun a b => a.p < b.p := by
  have hpair : t.keys.Pairwise fun a b => a.deleted = false → a.p < b.p := by
    refine h.sorted.imp fun hab ha => ?_
    rcases hab with hlt | ⟨-, hd⟩
    · exact hlt
    · rw [ha] at hd
      cases hd
  refine (hpair.sublist (List.filter_sublist (p := fun k => !k.deleted))).imp_of_mem ?_
  intro a b ha _ hab
  exact hab (Btree.mem_liveKeys.mp ha).2

/-- The live keys around the first one from a position on. -/
theorem Btree.Valid.liveKeys_split (h : t.Valid) {p : Bpos} {k : Bkey} (hk : t.FirstFrom p k) :
    ∃ before behind, t.liveKeys = before ++ k :: behind ∧ ∀ k' ∈ before, k'.p < p := by
  obtain ⟨before, behind, hsplit⟩ := List.append_of_mem (Btree.mem_liveKeys.mpr hk.live)
  refine ⟨before, behind, hsplit, fun k' hk' => not_le.mp fun hle => ?_⟩
  have hsorted := h.liveKeys_sorted
  rw [hsplit] at hsorted
  have hlt := (List.pairwise_append.mp hsorted).2.2 k' hk' k List.mem_cons_self
  have hlive : t.Live k' := Btree.mem_liveKeys.mp (by simp [hsplit, hk'])
  exact absurd (hk.first k' hlive hle) (not_le.mpr hlt)

theorem rawScan_loop (h : t.Valid) (hadv : Advances advance)
    (hlast : ∀ d ∈ t.keys, d.p = sposMax → d.deleted = false) {fuel : ℕ}
    (hfuel : searchTurns ≤ fuel) :
    ∀ (turns : ℕ) (iter : BtreeIter) (out : List Bkey), iter.isExtents = false →
      sposMax.toNat - iter.pos.toNat < turns →
      loop (rawScanStep advance fuel t) turns (iter, out) =
        some (out ++ walk Bkey.p advance (some iter.pos) t.liveKeys) := by
  intro turns
  induction turns with
  | zero => exact fun _ _ _ hturns => absurd hturns (Nat.not_lt_zero _)
  | succ turns ih =>
    intro iter out hext hturns
    obtain ⟨x, hpeek, hx⟩ : ∃ x, peekMax fuel t iter sposMax = some x ∧
        PeekedFrom t sposMax iter.pos iter x := peekMax_spec h hext hfuel
    rcases hx with ⟨hnull, hnone⟩ | ⟨k, hk, -, rfl⟩
    · have hwalk : walk Bkey.p advance (some iter.pos) t.liveKeys = [] := by
        refine walk_eq_nil fun k hk => not_le.mp fun hle => ?_
        rcases hnone k (Btree.mem_liveKeys.mp hk) hle with hlt | ⟨-, -, d, hd, hdp, hdead⟩
        · exact absurd (Bpos.le_sposMax k.p) (not_le.mpr hlt)
        · rw [hlast d hd hdp] at hdead
          cases hdead
      rw [hwalk, List.append_nil]
      refine loop_succ_done ?_ turns
      rw [rawScanStep, hpeek, Option.bind_eq_bind, Option.bind_some, hnull]
    · obtain ⟨before, behind, hsplit, hbefore⟩ := h.liveKeys_split hk
      have hwalk : walk Bkey.p advance (some iter.pos) t.liveKeys =
          k :: walk Bkey.p advance (advance k.p) behind := by
        rw [hsplit, walk_append_of_lt hbefore, walk, if_neg (not_lt.mpr hk.le)]
      rw [hwalk]
      cases hnext : advance k.p with
      | none =>
        rw [walk_none]
        refine loop_succ_done ?_ turns
        rw [rawScanStep, hpeek, Option.bind_eq_bind, Option.bind_some]
        dsimp only
        rw [hnext]
      | some q =>
        have hkq : k.p < q := hadv k.p q hnext
        have hskip : walk Bkey.p advance (some q) t.liveKeys =
            walk Bkey.p advance (some q) behind := by
          rw [hsplit, List.append_cons]
          refine walk_append_of_lt fun k' hk' => ?_
          rcases List.mem_append.mp hk' with hk' | hk'
          · exact (hbefore k' hk').trans_le (hk.le.trans hkq.le)
          · rw [List.mem_singleton.mp hk']
            exact hkq
        have hstep : rawScanStep advance fuel t (iter, out) =
            some (.next (rawSetPos { iter with pos := k.p, k := k } q, out ++ [k])) := by
          rw [rawScanStep, hpeek, Option.bind_eq_bind, Option.bind_some]
          dsimp only
          rw [hnext]
        have hlt : iter.pos.toNat < q.toNat := hk.le.trans_lt hkq
        have hmax : q.toNat ≤ sposMax.toNat := Bpos.le_sposMax q
        have hrun := ih (rawSetPos { iter with pos := k.p, k := k } q) (out ++ [k]) hext
          (by dsimp only [rawSetPos]; omega)
        rw [loop_succ_next hstep, hrun]
        dsimp only [rawSetPos]
        rw [hskip, List.append_assoc, List.singleton_append]

/-- The loop over the iterator gives the walk over the live keys. The last position of a tree, where
a deleted key ends the search, is left out of the trees considered. -/
theorem rawScan_eq_walk (h : t.Valid) (hadv : Advances advance)
    (hlast : ∀ d ∈ t.keys, d.p = sposMax → d.deleted = false) {fuel : ℕ}
    (hfuel : searchTurns ≤ fuel) :
    rawScan advance fuel t = some (walk Bkey.p advance (some posMin) t.liveKeys) := by
  refine rawScan_loop h hadv hlast hfuel fuel rawIter [] rfl (lt_of_lt_of_le ?_ hfuel)
  rw [Bpos.toNat_sposMax, searchTurns]
  omega

end Loop

end Subvol

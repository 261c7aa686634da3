import Subvol.Iter.Peek

/-!
# The first live key

An iterator that does not filter snapshots and is not one of extents returns the first live key from
its position on, unless it lies behind the end. The search goes forward with every turn of the loop,
over deleted keys and from leaf to leaf.

## Main definitions

* `Btree.Live`: the live keys of a tree.
* `Btree.FirstFrom`: the first of them from a position on.

## Main results

* `peekMaxStep_spec`: one turn of the loop.
* `peekMax_spec`: the key found.
-/

namespace Subvol

open Lib

/-- A live key of a tree. -/
def Btree.Live (t : Btree) (k : Bkey) : Prop := k ∈ t.keys ∧ k.deleted = false

/-- The first live key from a position on. -/
structure Btree.FirstFrom (t : Btree) (p : Bpos) (k : Bkey) : Prop where
  live : t.Live k
  le : p ≤ k.p
  first : ∀ k', t.Live k' → p ≤ k'.p → k.p ≤ k'.p

namespace Btree

variable {t : Btree}

/-- No position has two live keys. -/
theorem Valid.live_eq (h : t.Valid) {k k' : Bkey} (hk : t.Live k) (hk' : t.Live k')
    (hp : k.p = k'.p) : k = k' := by
  have hpair : t.keys.Pairwise fun x y => x.deleted = false → y.deleted = false → x.p ≠ y.p := by
    refine h.sorted.imp fun hxy hx _ => ?_
    rcases hxy with hlt | ⟨-, hd⟩
    · exact hlt.ne
    · rw [hx] at hd
      cases hd
  have hsymm : Std.Symm fun x y : Bkey => x.deleted = false → y.deleted = false → x.p ≠ y.p :=
    ⟨fun _ _ hxy hy hx => (hxy hx hy).symm⟩
  by_contra hne
  exact hpair.forall hk.1 hk'.1 hne hk.2 hk'.2 hp

end Btree

section Scan

variable {t : Btree} {stop : Bpos} {iter : BtreeIter}

namespace BtreeIter

theorem keyPos_eq (hext : iter.isExtents = false) (k : Bkey) : iter.keyPos k = k.p := by
  rw [keyPos, hext, if_neg Bool.false_ne_true]

theorem pastEnd_iff (hext : iter.isExtents = false) {p : Bpos} :
    iter.pastEnd stop p = true ↔ stop.slot < p.slot := by
  rw [pastEnd, hext, if_neg Bool.false_ne_true, decide_eq_true_iff, bkeyLt_iff]

theorem outOfRange_iff (hext : iter.isExtents = false) {p : Bpos} :
    iter.outOfRange stop p = true ↔ stop < p := by
  rw [outOfRange, hext, if_neg Bool.false_ne_true, decide_eq_true_iff]

theorem searchKey_eq (hext : iter.isExtents = false) (p : Bpos) : iter.searchKey p = some p := by
  rw [searchKey, hext]
  exact if_neg fun h => Bool.false_ne_true h.1

end BtreeIter

/-- The keys left in the leaf of a position from there on. -/
structure Btree.LeftIn (t : Btree) (p : Bpos) (leaf : LeafNode) (rest : List Bkey) : Prop where
  traverse : bch2BtreePathTraverseOne t p = .ok leaf
  init : leaf.nodeIterInit p = some rest
  ok : leaf.Ok leaf.minKey leaf.maxKey
  le_max : p ≤ leaf.maxKey
  mem : ∀ k ∈ leaf.keys, k ∈ t.keys
  suffix : rest <:+ leaf.keys
  le : ∀ k ∈ rest, p ≤ k.p
  head : ∀ k, rest.head? = some k → k.deleted = true → p < k.p
  later : ∀ k, t.Live k → p ≤ k.p → k ∈ rest ∨ leaf.maxKey < k.p

/-- In a valid tree the live keys from a position on are among those left in its leaf, or behind
it. -/
theorem Btree.Valid.leftIn (h : t.Valid) (p : Bpos) : ∃ leaf rest, t.LeftIn p leaf rest := by
  obtain ⟨leaf, lo, hi, front, back, htrav, hok, hlo, hhi, hkeys, hfront, hback⟩ := h.traverse p
  obtain ⟨before, rest, hinit, hsplit, hbefore, hrest, hhead⟩ := hok.nodeIterInit hlo hhi
  obtain rfl := hok.minKey
  obtain rfl := hok.maxKey
  refine ⟨leaf, rest, htrav, hinit, hok, hhi, fun k hk => by simp [hkeys, hk],
    ⟨before, hsplit.symm⟩, hrest, hhead, ?_⟩
  rintro k ⟨hmem, hlive⟩ hle
  rw [hkeys, hsplit] at hmem
  simp only [List.mem_append] at hmem
  rcases hmem with (hf | hb | hr) | hb
  · exact absurd (hfront k hf) (not_lt.mpr (hlo.trans hle))
  · rcases hbefore k hb with hlt | hd
    · exact absurd hlt (not_lt.mpr hle)
    · rw [hlive] at hd
      cases hd
  · exact .inl hr
  · exact .inr (hback k hb)

/-- The first key left comes before all live keys from the position on. -/
theorem Btree.LeftIn.first {p : Bpos} {leaf : LeafNode} {k : Bkey} {rest : List Bkey}
    (h : t.LeftIn p leaf (k :: rest)) {k' : Bkey} (hk' : t.Live k') (hle : p ≤ k'.p) :
    k.p ≤ k'.p := by
  rcases h.later k' hk' hle with hr | hgt
  · rcases List.mem_cons.mp hr with rfl | hr
    · exact le_refl _
    · rcases List.rel_of_pairwise_cons (h.ok.sorted.sublist h.suffix.sublist) hr with hlt | heq
      · exact hlt.le
      · exact heq.1.le
  · exact (h.ok.mem k (h.suffix.subset (List.mem_cons_self ..))).2.trans hgt.le

/-- One turn: a key is found from which on all live keys lie that the search is for, or the leaf has
no key left. -/
theorem peekMaxStep_spec (h : t.Valid) (hext : iter.isExtents = false) (p : Bpos) :
    (∃ k ∈ t.keys, p ≤ k.p ∧ (k.deleted = true → p < k.p) ∧
      (∀ k', t.Live k' → p ≤ k'.p → k.p ≤ k'.p) ∧
      peekMaxStep t stop (iter, p) = peekFound stop p iter k) ∨
    ∃ leaf : LeafNode, p ≤ leaf.maxKey ∧ (∀ k', t.Live k' → p ≤ k'.p → leaf.maxKey < k'.p) ∧
      peekMaxStep t stop (iter, p) = peekLeafEnd stop iter leaf := by
  obtain ⟨leaf, rest, hleft⟩ := h.leftIn p
  have hstep : peekMaxStep t stop (iter, p) = peekLeaf stop p iter leaf rest := by
    rw [peekMaxStep, iter.searchKey_eq hext, Option.bind_eq_bind, Option.bind_some, hleft.traverse]
    dsimp only
    rw [hleft.init, Option.bind_some]
  cases rest with
  | nil =>
    refine .inr ⟨leaf, hleft.le_max, fun k' hk' hle => ?_, by rw [hstep, peekLeaf]⟩
    exact (hleft.later k' hk' hle).resolve_left (by simp)
  | cons k rest =>
    have hmem : k ∈ k :: rest := List.mem_cons_self ..
    exact .inl ⟨k, hleft.mem k (hleft.suffix.subset hmem), hleft.le k hmem, hleft.head k rfl,
      fun k' hk' hle => hleft.first hk' hle, by rw [hstep, peekLeaf]⟩

/-- What an iterator without the filter comes to from a search position: the first live key from
there on, unless it lies behind the end. A deleted key met at the last position ends the search
too. -/
def PeekedFrom (t : Btree) (stop : Bpos) (p : Bpos) (iter : BtreeIter) (x : BtreeIter × Peek) :
    Prop :=
  (x.2 = .null ∧ ∀ k, t.Live k → p ≤ k.p → stop < k.p ∨
    p < k.p ∧ k.p = sposMax ∧ ∃ d ∈ t.keys, d.p = sposMax ∧ d.deleted = true) ∨
  ∃ k, t.FirstFrom p k ∧ k.p ≤ stop ∧ x = ({ iter with pos := k.p, k := k }, .key k)

/-- The turn at a key found. -/
theorem peekFound_spec (hext : iter.isExtents = false) {p : Bpos} {k : Bkey} (hk : k ∈ t.keys)
    (hle : p ≤ k.p) (hdel : k.deleted = true → p < k.p)
    (hfirst : ∀ k', t.Live k' → p ≤ k'.p → k.p ≤ k'.p) :
    (∃ x, peekFound stop p iter k = some (.done x) ∧ PeekedFrom t stop p iter x) ∨
    ∃ pos, peekFound stop p iter k = some (.next ({ iter with pos := pos, k := k }, k.p)) ∧
      p < k.p := by
  have hext' : ({ iter with k := k } : BtreeIter).isExtents = false := hext
  by_cases hout : stop.slot < k.p.slot
  · rw [peekFound, BtreeIter.keyPos_eq hext', if_pos ((BtreeIter.pastEnd_iff hext').mpr hout)]
    refine .inl ⟨_, rfl, .inl ⟨rfl, fun k' hk' hle' => .inl ?_⟩⟩
    exact lt_of_lt_of_le (Bpos.lt_iff_slot.mpr (.inl hout)) (hfirst k' hk' hle')
  rw [peekFound, BtreeIter.keyPos_eq hext',
    if_neg fun hpast => hout ((BtreeIter.pastEnd_iff hext').mp hpast)]
  by_cases hd : k.deleted = true
  · rw [if_pos hd, if_neg (hdel hd).ne, Option.bind_eq_bind, Option.bind_some]
    dsimp only
    by_cases hmax : k.p = sposMax
    · rw [if_pos hmax]
      refine .inl ⟨_, rfl, .inl ⟨rfl, fun k' hk' hle' => .inr ⟨?_, ?_, k, hk, hmax, hd⟩⟩⟩
      · exact (hdel hd).trans_le (hfirst k' hk' hle')
      · exact le_antisymm (Bpos.le_sposMax _) (hmax ▸ hfirst k' hk' hle')
    · rw [if_neg hmax]
      exact .inr ⟨_, rfl, hdel hd⟩
  · have hext'' : ({ iter with k := k, pos := k.p.withSnapshot iter.snapshot } :
        BtreeIter).isExtents = false := hext
    dsimp only
    rw [if_neg hd, BtreeIter.keyPos_eq hext'']
    by_cases hstop : stop < k.p
    · rw [if_pos ((BtreeIter.outOfRange_iff hext'').mpr hstop)]
      exact .inl ⟨_, rfl, .inl ⟨rfl, fun k' hk' hle' => .inl (hstop.trans_le (hfirst k' hk' hle'))⟩⟩
    · rw [if_neg fun hrange => hstop ((BtreeIter.outOfRange_iff hext'').mp hrange)]
      exact .inl ⟨_, rfl, .inr ⟨k, ⟨⟨hk, by simpa using hd⟩, hle, hfirst⟩, not_lt.mp hstop, rfl⟩⟩

/-- Keys that are left out of a search do not change what it comes to. -/
theorem PeekedFrom.of_next {p q pos : Bpos} {k : Bkey} {x : BtreeIter × Peek} (hpq : p ≤ q)
    (hnone : ∀ k', t.Live k' → p ≤ k'.p → q ≤ k'.p)
    (h : PeekedFrom t stop q { iter with pos := pos, k := k } x) : PeekedFrom t stop p iter x := by
  rcases h with ⟨hx, hnull⟩ | ⟨k', hk', hle, hx⟩
  · refine .inl ⟨hx, fun k' hk' hle => ?_⟩
    rcases hnull k' hk' (hnone k' hk' hle) with hlt | ⟨hlt, hlast⟩
    · exact .inl hlt
    · exact .inr ⟨hpq.trans_lt hlt, hlast⟩
  · refine .inr ⟨k', ⟨hk'.live, hpq.trans hk'.le, fun k'' hk'' hle' => ?_⟩, hle, hx⟩
    exact hk'.first k'' hk'' (hnone k'' hk'' hle')

/-- The search ends at the first live key. -/
theorem peekMax_loop (h : t.Valid) {fuel : ℕ} :
    ∀ (iter : BtreeIter) (p : Bpos), iter.isExtents = false → sposMax.toNat - p.toNat < fuel →
      ∃ x, loop (peekMaxStep t stop) fuel (iter, p) = some x ∧ PeekedFrom t stop p iter x := by
  induction fuel with
  | zero => exact fun _ _ _ hfuel => absurd hfuel (Nat.not_lt_zero _)
  | succ fuel ih =>
    intro iter p hext hfuel
    rcases peekMaxStep_spec h hext p with
      ⟨k, hk, hle, hdel, hfirst, hstep⟩ | ⟨leaf, hle, hnone, hstep⟩
    · rcases peekFound_spec hext hk hle hdel hfirst with
        ⟨x, hx, hpeek⟩ | ⟨pos, hx, hlt⟩
      · exact ⟨x, loop_succ_done (hstep.trans hx) fuel, hpeek⟩
      · have hlt' : p.toNat < k.p.toNat := hlt
        have hmax : k.p.toNat ≤ sposMax.toNat := Bpos.le_sposMax k.p
        obtain ⟨x, hrun, hpeek⟩ := ih { iter with pos := pos, k := k } k.p hext
          (by omega)
        exact ⟨x, (loop_succ_next (hstep.trans hx) fuel).trans hrun, hpeek.of_next hle hfirst⟩
    · rw [peekLeafEnd] at hstep
      by_cases hend : stop < leaf.maxKey ∨ sposMax ≤ leaf.maxKey
      · rw [if_pos hend] at hstep
        refine ⟨_, loop_succ_done hstep fuel, .inl ⟨rfl, fun k' hk' hle' => .inl ?_⟩⟩
        have hgt := hnone k' hk' hle'
        rcases hend with hend | hend
        · exact hend.trans hgt
        · exact absurd (hend.trans_lt hgt) (not_lt.mpr (Bpos.le_sposMax _))
      · rw [if_neg hend] at hstep
        obtain ⟨-, hmax⟩ := not_or.mp hend
        obtain ⟨q, hq, hnat⟩ := bposSuccessor_eq_some (p := leaf.maxKey) fun heq => hmax heq.ge
        rw [hq, Option.map_some] at hstep
        have hle' : p.toNat ≤ leaf.maxKey.toNat := hle
        have hmax' : q.toNat ≤ sposMax.toNat := Bpos.le_sposMax q
        obtain ⟨x, hrun, hpeek⟩ := ih iter q hext (by omega)
        refine ⟨x, (loop_succ_next hstep fuel).trans hrun, ?_⟩
        refine hpeek.of_next ?_ ?_
        · exact Bpos.le_iff_toNat.mpr (by omega)
        · intro k' hk' hle''
          have hgt : leaf.maxKey.toNat < k'.p.toNat := hnone k' hk' hle''
          exact Bpos.le_iff_toNat.mpr (by omega)

/-- Turns that are enough for every search. -/
def searchTurns : ℕ := 2 ^ 160

/-- An iterator without the filter finds the first live key from its position on, unless that lies
behind the end. -/
theorem peekMax_spec (h : t.Valid) (hext : iter.isExtents = false) {fuel : ℕ}
    (hfuel : searchTurns ≤ fuel) :
    ∃ x, peekMax fuel t iter stop = some x ∧ PeekedFrom t stop iter.pos iter x := by
  refine peekMax_loop h iter iter.pos hext (lt_of_lt_of_le ?_ hfuel)
  rw [Bpos.toNat_sposMax, searchTurns]
  omega

end Scan

end Subvol

import Subvol.Iter.Scan

/-!
# Backward iterators

Model of `bch2_btree_iter_peek_prev_min`, with the loop that filters snapshots and without it, and of
`bch2_btree_iter_rewind`, under the same conventions as the forward iterators.

The filter keeps a copy of its path at an inherited key and comes back to it when it meets a key of
the snapshot itself. What such a copy shows when it is looked at again is kept with the result of
the inner iterator.

## Main definitions

* `LeafNode.peekPrev`, `prevStep`, `peekPrevMin`.
* `prevFilterStep`, `bch2BtreeIterPeekPrevMin`, `bch2BtreeIterRewind`.
* `forEachPrevKey`: the loop of a caller.

## Main results

* `peekPrevMin_spec`: without the filter, the last live key up to the position.
-/

namespace Subvol

open Lib

/-! ### Without the filter -/

/-- `bch2_btree_node_iter_prev`: the last live key before the iterator of the node, which has the
given keys left. -/
def LeafNode.nodeIterPrev (l : LeafNode) (rest : List Bkey) : Option Bkey :=
  (l.keys.take (l.keys.length - rest.length)).reverse.find? fun k => !k.deleted

/-- The key of a leaf that `bch2_btree_iter_peek_prev_min` finds: the one at the search position, or
else the last live key before it. -/
def LeafNode.peekPrev (l : LeafNode) (search : Bpos) : List Bkey → Option Bkey
  | [] => l.nodeIterPrev []
  | k :: rest => if search < k.p then l.nodeIterPrev (k :: rest) else some k

/-- The test for the end backwards. -/
def BtreeIter.withinEnd (iter : BtreeIter) (stop p : Bpos) : Bool :=
  if iter.isExtents then decide (bkeyLt stop p) else !decide (bkeyLt p stop)

/-- What `bch2_btree_iter_peek_prev_min` does with the key found in a leaf. -/
def prevFound (stop : Bpos) (iter : BtreeIter) (k : Bkey) :
    Option (Turn (BtreeIter × Bpos) (BtreeIter × Peek)) :=
  let iter := { iter with k := k }
  if iter.withinEnd stop k.p then
    if k.deleted then
      if k.p = posMin then some (.done (iter, .null))
      else (bposPredecessor k.p).map fun search => .next (btreeIterSetPos iter search, search)
    else
      let pos := if iter.isExtents then min iter.pos k.p else k.p
      some (.done ({ iter with pos := pos.withSnapshot iter.snapshot }, .key k))
  else some (.done (btreeIterSetPos iter stop, .null))

/-- What it does at a leaf without one. -/
def prevLeafStart (iter : BtreeIter) (leaf : LeafNode) :
    Option (Turn (BtreeIter × Bpos) (BtreeIter × Peek)) :=
  if leaf.minKey = posMin then some (.done (iter, .null))
  else (bposPredecessor leaf.minKey).map fun search => .next (btreeIterSetPos iter search, search)

/-- What it does at a leaf. -/
def prevLeaf (stop : Bpos) (iter : BtreeIter) (leaf : LeafNode) :
    Option Bkey → Option (Turn (BtreeIter × Bpos) (BtreeIter × Peek))
  | some k => prevFound stop iter k
  | none => prevLeafStart iter leaf

/-- One turn of the loop of `bch2_btree_iter_peek_prev_min`. -/
def prevStep (t : Btree) (stop : Bpos) (x : BtreeIter × Bpos) :
    Option (Turn (BtreeIter × Bpos) (BtreeIter × Peek)) :=
  match bch2BtreePathTraverseOne t x.2 with
  | .error e => some (.done (bch2BtreeIterSetPos x.1 x.1.pos, .err e))
  | .ok leaf =>
    (leaf.nodeIterInit x.2).bind fun rest => prevLeaf stop x.1 leaf (leaf.peekPrev x.2 rest)

/-- What `bch2_btree_path_peek_slot` shows of the path that `bch2_btree_iter_peek_slot` leaves
behind: the key at its position, or a hole. -/
def slotPathKey (t : Btree) (iter : BtreeIter) : Option Bkey := do
  let search ← iter.searchKey iter.pos
  match bch2BtreePathTraverseOne t search with
  | .error _ => none
  | .ok leaf =>
    let rest ← leaf.nodeIterInit search
    let hole : Bkey := { p := search, type := keyTypeDeleted, val := [] }
    return (rest.head?.filter fun k => k.p = search).getD hole

/-- `bch2_btree_iter_peek_prev_min` of an iterator that does not filter snapshots, with the key that
its path shows afterwards. An iterator of extents looks at its slot first. -/
def peekPrevMin (fuel : ℕ) (table : SnapshotTable) (t : Btree) (iter : BtreeIter) (stop : Bpos) :
    Option (BtreeIter × Peek × Option Bkey) := do
  let search (iter : BtreeIter) : Option (BtreeIter × Peek × Option Bkey) :=
    (loop (prevStep t stop) fuel (iter, iter.pos)).map fun x => (x.1, x.2, some x.1.k)
  if iter.isExtents ∧ ¬bkeyEq iter.pos posMax ∧ iter.pos.offset ≠ Fin.last _ then
    let x ← bch2BtreeIterPeekSlot fuel table t { iter with filterSnapshots := false }
    let iter' := { x.1 with filterSnapshots := iter.filterSnapshots }
    match x.2 with
    | .key k =>
      if !k.deleted && decide (bkeyLt (bkeyStartPos k) iter'.pos) then
        return (iter', .key k, slotPathKey t iter)
      else search iter'
    | ret => return (iter', ret, none)
  else search iter

/-! ### The filter -/

/-- The iterator of the filter with the key of the path it has kept. -/
structure PrevState where
  iter : BtreeIter
  saved : Option Bkey

/-- What the filter does with a key. The iterator was at `origin` before the call. -/
def prevFilterKey (fuel : ℕ) (table : SnapshotTable) (stop origin : Bpos) (x : PrevState)
    (k : Bkey) (pathKey : Option Bkey) : Option (Turn PrevState (BtreeIter × Peek)) :=
  if bkeyLt k.p stop then some (.done (btreeIterSetPos x.iter stop, .null))
  else do
    let visible ← bch2SnapshotIsAncestor fuel table origin.snapshot k.p.snapshot
    if !visible then
      let prev ← bposNosnapPredecessor k.p
      return .next { x with iter := { x.iter with pos := prev.withSnapshot origin.snapshot } }
    else if k.p.snapshot ≠ origin.snapshot then
      let prev ← bposNosnapPredecessor k.p
      return .next ⟨{ x.iter with pos := prev.withSnapshot origin.snapshot },
        if k.whiteout then none else pathKey⟩
    else if k.whiteout then
      let prev ← bposNosnapPredecessor k.p
      return .next { x with iter := { x.iter with pos := prev.withSnapshot (Fin.last _) } }
    else
      match x.saved with
      | some v =>
        if k.p < origin then return .done ({ x.iter with k := v }, .key v)
        else return .done (x.iter, .key k)
      | none => return .done (x.iter, .key k)

/-- One turn of the loop of `bch2_btree_iter_peek_prev_min` that filters snapshots. -/
def prevFilterStep (fuel : ℕ) (table : SnapshotTable) (t : Btree) (stop origin : Bpos)
    (x : PrevState) : Option (Turn PrevState (BtreeIter × Peek)) := do
  let y ← peekPrevMin fuel table t x.iter stop
  match y.2.1 with
  | .key k => prevFilterKey fuel table stop origin { x with iter := y.1 } k y.2.2
  | ret => some (.done (y.1, ret))

/-- `bch2_btree_iter_peek_prev_min` of an iterator that filters snapshots. -/
def bch2BtreeIterPeekPrevMin (fuel : ℕ) (table : SnapshotTable) (t : Btree) (iter : BtreeIter)
    (stop : Bpos) : Option (BtreeIter × Peek) :=
  loop (prevFilterStep fuel table t stop iter.pos) fuel ⟨iter, none⟩

/-! ### Iteration -/

/-- `bch2_btree_iter_rewind`. -/
def bch2BtreeIterRewind (iter : BtreeIter) : Option (BtreeIter × Bool) :=
  let pos := if iter.isExtents then bkeyStartPos iter.k else iter.k.p
  if bkeyEq pos posMin then some (btreeIterSetPos iter pos, false)
  else if iter.isExtents then some (btreeIterSetPos iter pos, true)
  else (bposNosnapPredecessor pos).map fun next => (btreeIterSetPos iter next, true)

/-- A turn of the loop backwards over the keys down to an end; `none` also is an error. -/
def forEachPrevStep (fuel : ℕ) (table : SnapshotTable) (t : Btree) (stop : Bpos)
    (x : BtreeIter × List Bkey) : Option (Turn (BtreeIter × List Bkey) (List Bkey)) := do
  let y ← bch2BtreeIterPeekPrevMin fuel table t x.1 stop
  match y.2 with
  | .null => some (.done x.2)
  | .err _ => none
  | .key k =>
    let z ← bch2BtreeIterRewind y.1
    if z.2 then some (.next (z.1, x.2 ++ [k])) else some (.done (x.2 ++ [k]))

/-- The keys that repeated calls of `bch2_btree_iter_peek_prev_min` and `bch2_btree_iter_rewind`
give. -/
def forEachPrevKey (fuel : ℕ) (table : SnapshotTable) (t : Btree) (iter : BtreeIter)
    (stop : Bpos) : Option (List Bkey) :=
  loop (forEachPrevStep fuel table t stop) fuel (iter, [])

/-! ### The last live key -/

/-- The last live key up to a position. -/
structure Btree.LastUpTo (t : Btree) (p : Bpos) (k : Bkey) : Prop where
  live : t.Live k
  le : k.p ≤ p
  last : ∀ k', t.Live k' → k'.p ≤ p → k'.p ≤ k.p

section Prev

variable {t : Btree} {stop : Bpos} {iter : BtreeIter}

/-- The last live key of an ordered list. -/
theorem findRev_spec {ks : List Bkey} (hsorted : ks.Pairwise fun k k' => k.p ≤ k'.p) :
    match ks.reverse.find? fun k => !k.deleted with
    | some k => k ∈ ks ∧ k.deleted = false ∧ ∀ k' ∈ ks, k'.deleted = false → k'.p ≤ k.p
    | none => ∀ k ∈ ks, k.deleted = true := by
  cases hfind : ks.reverse.find? fun k => !k.deleted with
  | none =>
    intro k hk
    simpa using List.find?_eq_none.mp hfind k (List.mem_reverse.mpr hk)
  | some k =>
    obtain ⟨hk, as, bs, hsplit, has⟩ := List.find?_eq_some_iff_append.mp hfind
    have heq : ks = bs.reverse ++ k :: as.reverse := by
      rw [← List.reverse_reverse ks, hsplit]
      simp
    refine ⟨by simp [heq], by simpa using hk, fun k' hk' hlive => ?_⟩
    rw [heq] at hk' hsorted
    rcases List.mem_append.mp hk' with hb | hk'
    · exact (List.pairwise_append.mp hsorted).2.2 k' hb k (List.mem_cons_self ..)
    rcases List.mem_cons.mp hk' with rfl | ha
    · exact le_refl _
    · have := has k' (List.mem_reverse.mp ha)
      simp [hlive] at this

/-- The key that is found in a leaf is the last live one up to the position. -/
theorem LeafNode.Ok.peekPrev {l : LeafNode} {lo hi p : Bpos} (h : l.Ok lo hi) (hlo : lo ≤ p)
    (hhi : p ≤ hi) : ∃ rest, l.nodeIterInit p = some rest ∧
      match l.peekPrev p rest with
      | some k => k ∈ l.keys ∧ k.deleted = false ∧ k.p ≤ p ∧
        ∀ k' ∈ l.keys, k'.deleted = false → k'.p ≤ p → k'.p ≤ k.p
      | none => ∀ k ∈ l.keys, k.deleted = false → p < k.p := by
  obtain ⟨before, rest, hinit, hsplit, hbefore, hrest, hhead⟩ := h.nodeIterInit hlo hhi
  refine ⟨rest, hinit, ?_⟩
  have htake : l.keys.take (l.keys.length - rest.length) = before := by
    rw [hsplit, List.length_append, Nat.add_sub_cancel, List.take_left]
  have hsorted : before.Pairwise fun k k' => k.p ≤ k'.p := by
    have hall := h.sorted
    rw [hsplit] at hall
    refine (List.pairwise_append.mp hall).1.imp fun hr => ?_
    rcases hr with hlt | heq
    · exact hlt.le
    · exact heq.1.le
  -- when nothing at the position is left, the last live key before the iterator is the one
  have hprev (hbehind : ∀ k ∈ rest, p < k.p) :
      match before.reverse.find? fun k => !k.deleted with
      | some k => k ∈ l.keys ∧ k.deleted = false ∧ k.p ≤ p ∧
        ∀ k' ∈ l.keys, k'.deleted = false → k'.p ≤ p → k'.p ≤ k.p
      | none => ∀ k ∈ l.keys, k.deleted = false → p < k.p := by
    have hspec := findRev_spec hsorted
    cases hfind : before.reverse.find? fun k => !k.deleted with
    | some k =>
      rw [hfind] at hspec
      obtain ⟨hk, hlive, hlast⟩ := hspec
      have hle : k.p ≤ p := by
        rcases hbefore k hk with hlt | hd
        · exact hlt.le
        · rw [hlive] at hd
          cases hd
      refine ⟨by simp [hsplit, hk], hlive, hle, fun k' hk' hlive' hle' => ?_⟩
      rw [hsplit] at hk'
      rcases List.mem_append.mp hk' with hb | hr
      · exact hlast k' hb hlive'
      · exact absurd hle' (not_le.mpr (hbehind k' hr))
    | none =>
      rw [hfind] at hspec
      intro k hk hlive
      rw [hsplit] at hk
      rcases List.mem_append.mp hk with hb | hr
      · rw [hspec k hb] at hlive
        cases hlive
      · exact hbehind k hr
  cases rest with
  | nil =>
    rw [LeafNode.peekPrev, LeafNode.nodeIterPrev, htake]
    exact hprev (by simp)
  | cons k rest =>
    rw [LeafNode.peekPrev]
    by_cases hlt : p < k.p
    · rw [if_pos hlt, LeafNode.nodeIterPrev, htake]
      refine hprev fun k' hk' => ?_
      rcases List.mem_cons.mp hk' with rfl | hk'
      · exact hlt
      · have hall := h.sorted
        rw [hsplit] at hall
        rcases List.rel_of_pairwise_cons (List.pairwise_append.mp hall).2.1 hk' with h' | h'
        · exact hlt.trans h'
        · exact h'.1 ▸ hlt
    · rw [if_neg hlt]
      have hlive : k.deleted = false := by
        by_contra hd
        exact hlt (hhead k rfl (by simpa using hd))
      have heq : k.p = p := le_antisymm (not_lt.mp hlt) (hrest k (List.mem_cons_self ..))
      exact ⟨by simp [hsplit], hlive, heq.le, fun k' _ _ hle => heq ▸ hle⟩

/-- One turn: the last live key up to the position is found, or the leaf has none. -/
theorem prevStep_spec (h : t.Valid) (p : Bpos) :
    (∃ k, t.LastUpTo p k ∧ prevStep t stop (iter, p) = prevFound stop iter k) ∨
    ∃ leaf : LeafNode, leaf.minKey ≤ p ∧ (∀ k', t.Live k' → k'.p ≤ p → k'.p < leaf.minKey) ∧
      prevStep t stop (iter, p) = prevLeafStart iter leaf := by
  obtain ⟨leaf, lo, hi, front, back, htrav, hok, hlo, hhi, hkeys, hfront, hback⟩ := h.traverse p
  obtain ⟨rest, hinit, hspec⟩ := hok.peekPrev hlo hhi
  have hstep : prevStep t stop (iter, p) = prevLeaf stop iter leaf (leaf.peekPrev p rest) := by
    rw [prevStep]
    dsimp only
    rw [htrav]
    dsimp only
    rw [hinit, Option.bind_some]
  have hmem : ∀ k', t.Live k' → k'.p ≤ p → k'.p < lo ∨ k' ∈ leaf.keys := by
    rintro k' ⟨hk', -⟩ hle
    rw [hkeys] at hk'
    simp only [List.mem_append] at hk'
    rcases hk' with (hf | hl) | hb
    · exact .inl (hfront k' hf)
    · exact .inr hl
    · exact absurd hle (not_le.mpr (hhi.trans_lt (hback k' hb)))
  cases hfound : leaf.peekPrev p rest with
  | some k =>
    rw [hfound, prevLeaf] at hstep
    rw [hfound] at hspec
    obtain ⟨hk, hlive, hle, hlast⟩ := hspec
    refine .inl ⟨k, ⟨⟨by simp [hkeys, hk], hlive⟩, hle, fun k' hk' hle' => ?_⟩, hstep⟩
    rcases hmem k' hk' hle' with hlt | hl
    · exact hlt.le.trans (hok.mem k hk).1
    · exact hlast k' hl hk'.2 hle'
  | none =>
    rw [hfound, prevLeaf] at hstep
    rw [hfound] at hspec
    refine .inr ⟨leaf, hok.minKey ▸ hlo, fun k' hk' hle' => ?_, hstep⟩
    rw [hok.minKey]
    rcases hmem k' hk' hle' with hlt | hl
    · exact hlt
    · exact absurd hle' (not_le.mpr (hspec k' hl hk'.2))

/-- What a backward iterator without the filter comes to from a search position: the last live key up
to there, unless its slot lies before the end. -/
def PrevPeekedFrom (t : Btree) (stop p : Bpos) (iter : BtreeIter) (x : BtreeIter × Peek) : Prop :=
  (x.2 = .null ∧ ∀ k, t.Live k → k.p ≤ p → k.p.slot < stop.slot) ∨
  ∃ k, t.LastUpTo p k ∧ stop.slot ≤ k.p.slot ∧
    x = ({ iter with pos := k.p.withSnapshot iter.snapshot, k := k }, .key k)

theorem BtreeIter.withinEnd_iff (hext : iter.isExtents = false) {p : Bpos} :
    iter.withinEnd stop p = true ↔ stop.slot ≤ p.slot := by
  rw [withinEnd, hext, if_neg Bool.false_ne_true, Bool.not_eq_true', decide_eq_false_iff_not,
    bkeyLt_iff, not_lt]

/-- The search ends at the last live key. -/
theorem peekPrevMin_loop (h : t.Valid) {fuel : ℕ} :
    ∀ (iter : BtreeIter) (p : Bpos), iter.isExtents = false → p.toNat < fuel →
      ∃ x, loop (prevStep t stop) fuel (iter, p) = some x ∧ PrevPeekedFrom t stop p iter x := by
  induction fuel with
  | zero => exact fun _ _ _ hfuel => absurd hfuel (Nat.not_lt_zero _)
  | succ fuel ih =>
    intro iter p hext hfuel
    rcases prevStep_spec h p with
      ⟨k, hk, hstep⟩ | ⟨leaf, hle, hnone, hstep⟩
    · have hext' : ({ iter with k := k } : BtreeIter).isExtents = false := hext
      have hif : ({ iter with k := k } : BtreeIter).withinEnd stop k.p = true ↔
          stop.slot ≤ k.p.slot := BtreeIter.withinEnd_iff hext'
      rw [prevFound] at hstep
      by_cases hslot : stop.slot ≤ k.p.slot
      · rw [if_pos (hif.mpr hslot), if_neg (by simp [hk.live.2]), if_neg (by simp [hext])] at hstep
        exact ⟨_, loop_succ_done hstep fuel, .inr ⟨k, hk, hslot, rfl⟩⟩
      · rw [if_neg fun hw => hslot (hif.mp hw)] at hstep
        refine ⟨_, loop_succ_done hstep fuel, .inl ⟨rfl, fun k' hk' hle => ?_⟩⟩
        exact lt_of_le_of_lt (Bpos.slot_mono (hk.last k' hk' hle)) (not_le.mp hslot)
    · rw [prevLeafStart] at hstep
      by_cases hmin : leaf.minKey = posMin
      · rw [if_pos hmin] at hstep
        refine ⟨_, loop_succ_done hstep fuel, .inl ⟨rfl, fun k' hk' hle' => ?_⟩⟩
        have hlt := hnone k' hk' hle'
        rw [hmin] at hlt
        exact absurd (Bpos.posMin_le k'.p) (not_le.mpr hlt)
      · rw [if_neg hmin] at hstep
        obtain ⟨q, hq, hnat⟩ := bposPredecessor_eq_some hmin
        rw [hq, Option.map_some] at hstep
        have hle' : leaf.minKey.toNat ≤ p.toNat := hle
        obtain ⟨x, hrun, hpeek⟩ := ih (btreeIterSetPos iter q) q hext (by omega)
        refine ⟨x, (loop_succ_next hstep fuel).trans hrun, ?_⟩
        have hbefore : ∀ k', t.Live k' → k'.p ≤ p → k'.p ≤ q := by
          intro k' hk' hle''
          have hlt : k'.p.toNat < leaf.minKey.toNat := hnone k' hk' hle''
          exact Bpos.le_iff_toNat.mpr (by omega)
        rcases hpeek with ⟨hx, hnull⟩ | ⟨k, hk, hslot, hx⟩
        · exact .inl ⟨hx, fun k' hk' hle'' => hnull k' hk' (hbefore k' hk' hle'')⟩
        · refine .inr ⟨k, ⟨hk.live, hk.le.trans (Bpos.le_iff_toNat.mpr (by omega)),
            fun k' hk' hle'' => hk.last k' hk' (hbefore k' hk' hle'')⟩, hslot, hx⟩

/-- A backward iterator without the filter finds the last live key up to its position, and its path
shows that key. -/
theorem peekPrevMin_spec (h : t.Valid) (hext : iter.isExtents = false) (table : SnapshotTable)
    {fuel : ℕ} (hfuel : searchTurns ≤ fuel) :
    (∃ iter' k, peekPrevMin fuel table t iter stop = some (iter', .null, k) ∧
      ∀ k, t.Live k → k.p ≤ iter.pos → k.p.slot < stop.slot) ∨
    ∃ k, t.LastUpTo iter.pos k ∧ stop.slot ≤ k.p.slot ∧ peekPrevMin fuel table t iter stop =
      some ({ iter with pos := k.p.withSnapshot iter.snapshot, k := k }, .key k, some k) := by
  have hlt : iter.pos.toNat < fuel := by
    have := iter.pos.toNat_le
    rw [searchTurns] at hfuel
    omega
  obtain ⟨x, hx, hpeek⟩ := peekPrevMin_loop h iter iter.pos hext hlt
  have heq : peekPrevMin fuel table t iter stop = some (x.1, x.2, some x.1.k) := by
    rw [peekPrevMin]
    dsimp only
    rw [if_neg (by simp [hext]), hx, Option.map_some]
  rcases hpeek with ⟨hnull, hnone⟩ | ⟨k, hk, hslot, rfl⟩
  · rw [hnull] at heq
    exact .inl ⟨_, _, heq, hnone⟩
  · exact .inr ⟨k, hk, hslot, heq⟩

end Prev

end Subvol

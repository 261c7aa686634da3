import Subvol.Iter.Scan

/-!
# Iterators over extents

An extents iterator looks for extents that end behind its position. At the top of every turn the
search key is moved to the next slot, also if the turn before has only passed over a dead key or
come to the end of a leaf. So the search may jump over an extent: one that ends in the slot of a dead
key, or in the slot behind the end of a leaf. It may also end too early, at a dead key that begins
behind the end of the range, or at a leaf that ends behind it.

## Main definitions

* `ExtentKeys`: the keys of an extents tree with one snapshot.
* `searchAfter`: where a search goes on behind a position.
* `Obstacle`, `Obstacle.Met`: the dead keys and leaf ends that a search comes to.
* `SearchPasses`: the extents that a search jumps over.

## Main results

* `peekMaxStep_extents`: one turn of the loop.
-/

namespace Subvol

open Lib

/-- The keys of an extents tree with one snapshot: every live key is an extent of the snapshot, which
ends in the inode where it begins, and no two of them overlap. -/
structure ExtentKeys (s : Fin (2 ^ 32)) (t : Btree) : Prop where
  snapshot : ∀ k, t.Live k → k.p.snapshot = s
  whiteout : ∀ k, t.Live k → k.whiteout = false
  size : ∀ k, t.Live k → 0 < k.size ∧ k.size ≤ k.p.offset
  disjoint : ∀ k k', t.Live k → t.Live k' → k.p < k'.p → k.p.slot ≤ (bkeyStartPos k').slot

/-- An extent that ends behind a position and begins before an end. -/
structure ExtentIn (t : Btree) (pos stop : Bpos) (k : Bkey) : Prop where
  live : t.Live k
  behind : pos.slot < k.p.slot
  before : (bkeyStartPos k).slot < stop.slot

/-! ### Search positions -/

/-- Where the search for extents goes on behind a position: at the next slot, if there is one. -/
def searchAfter (s : Fin (2 ^ 32)) (p : Bpos) : Bpos :=
  ((bposNosnapSuccessor p).map fun q => q.withSnapshot s).getD p

section SearchAfter

variable {s : Fin (2 ^ 32)} {p q : Bpos}

theorem searchAfter_last (h : p.slot = sposMax.slot) : searchAfter s p = p := by
  rw [searchAfter, bposNosnapSuccessor_eq_none h, Option.map_none, Option.getD_none]

theorem searchAfter_of_lt (h : p.slot < sposMax.slot) :
    (searchAfter s p).slot = p.slot + 1 ∧ (searchAfter s p).snapshot = s := by
  rw [Bpos.slot_sposMax] at h
  obtain ⟨q, hq, hslot, -⟩ := bposNosnapSuccessor_eq_some h
  rw [searchAfter, hq, Option.map_some, Option.getD_some, Bpos.withSnapshot_slot, hslot]
  exact ⟨rfl, rfl⟩

theorem slot_le_last (p : Bpos) : p.slot ≤ sposMax.slot := by
  rw [Bpos.slot_sposMax]
  exact p.slot_le

theorem le_searchAfter (p : Bpos) : p ≤ searchAfter s p := by
  rcases (slot_le_last p).lt_or_eq with hlt | heq
  · refine Bpos.le_iff_slot.mpr (.inl ?_)
    rw [(searchAfter_of_lt hlt).1]
    exact Nat.lt_succ_self _
  · rw [searchAfter_last heq]

/-- The keys of the snapshot that a search still finds are those of later slots. -/
theorem searchAfter_le_iff (hp : p.slot < sposMax.slot) (hq : q.snapshot = s) :
    searchAfter s p ≤ q ↔ p.slot < q.slot := by
  obtain ⟨hslot, hsnap⟩ := searchAfter_of_lt (s := s) hp
  rw [Bpos.le_iff_slot, hslot, hsnap, hq]
  constructor
  · rintro (hlt | ⟨heq, -⟩)
    · exact (Nat.lt_succ_self _).trans hlt
    · omega
  · intro hlt
    rcases (Nat.succ_le_of_lt hlt).lt_or_eq with hlt | heq
    · exact .inl hlt
    · exact .inr ⟨heq, le_rfl⟩

theorem BtreeIter.searchKey_extents {iter : BtreeIter} (hext : iter.isExtents = true)
    (hs : iter.snapshot = s) (p : Bpos) : iter.searchKey p = some (searchAfter s p) := by
  have hlast : bkeyEq p posMax ↔ p.slot = sposMax.slot := bkeyEq_iff
  rw [BtreeIter.searchKey, hext, hs]
  rcases (slot_le_last p).lt_or_eq with hlt | heq
  · rw [if_pos ⟨rfl, fun h => hlt.ne (hlast.mp h)⟩, searchAfter]
    rw [Bpos.slot_sposMax] at hlt
    obtain ⟨q, hq, -⟩ := bposNosnapSuccessor_eq_some hlt
    rw [hq, Option.map_some, Option.getD_some]
  · rw [if_neg fun h => h.2 (hlast.mpr heq), searchAfter_last heq]

end SearchAfter

/-! ### Obstacles -/

/-- What a search comes to before an extent: a dead key, or the end of a leaf with the position
behind it. -/
inductive Obstacle
  | dead (d : Bkey)
  | leafEnd (maxKey next : Bpos)

namespace Obstacle

/-- The position from which a search goes on behind an obstacle. -/
def pos : Obstacle → Bpos
  | dead d => d.p
  | leafEnd _ next => next

/-- The search for extents up to an end is over at the obstacle. -/
def Ends (stop : Bpos) : Obstacle → Prop
  | dead d => stop.slot ≤ (bkeyStartPos d).slot ∨ d.p = sposMax
  | leafEnd maxKey _ => stop < maxKey

/-- The obstacles in the leaf of a search position: the first key of a position behind it, if that
is dead, and the end of the leaf. Dead keys are no obstacle if the search position is walked to from
the start of the leaf since the format cannot pack it. -/
inductive Ahead (t : Btree) (p : Bpos) : Obstacle → Prop
  | dead {leaf : LeafNode} {d : Bkey} (hleaf : bch2BtreePathTraverseOne t p = .ok leaf)
      (hpack : packPosFails leaf.format p = false)
      (hd : leaf.keys.find? (fun k => k.p = d.p) = some d) (hdel : d.deleted = true)
      (hlt : p < d.p) : Ahead t p (.dead d)
  | leafEnd {leaf : LeafNode} {next : Bpos} (hleaf : bch2BtreePathTraverseOne t p = .ok leaf)
      (hnext : bposSuccessor leaf.maxKey = some next) : Ahead t p (.leafEnd leaf.maxKey next)

/-- The obstacle that a search comes to: the first one ahead, with no live key before it. -/
structure Met (t : Btree) (p : Bpos) (o : Obstacle) : Prop where
  ahead : o.Ahead t p
  first : ∀ o', Ahead t p o' → o.pos ≤ o'.pos
  live : ∀ k, t.Live k → p ≤ k.p → o.pos ≤ k.p

end Obstacle

/-- The extents that a search for extents up to an end jumps over from a position on. -/
inductive SearchPasses (t : Btree) (s : Fin (2 ^ 32)) (stop : Bpos) : Bpos → Bkey → Prop
  | jump {r : Bpos} {k : Bkey} (o : Obstacle) (hmet : o.Met t (searchAfter s r))
      (hle : o.pos ≤ k.p) (hover : k.p < searchAfter s o.pos ∨ o.Ends stop) : SearchPasses t s stop r k
  | obstacle {r : Bpos} {k : Bkey} (o : Obstacle) (hmet : o.Met t (searchAfter s r))
      (hends : ¬o.Ends stop) (hrest : SearchPasses t s stop o.pos k) : SearchPasses t s stop r k
  | extent {r : Bpos} {k : Bkey} (e : Bkey) (hfirst : t.FirstFrom (searchAfter s r) e)
      (hclear : ∀ o, Obstacle.Ahead t (searchAfter s r) o → e.p < o.pos)
      (hrest : SearchPasses t s stop e.p k) : SearchPasses t s stop r k

section Obstacles

variable {t : Btree} {s : Fin (2 ^ 32)} {stop : Bpos} {iter : BtreeIter}

/-- An obstacle lies behind the search position. -/
theorem Obstacle.Ahead.lt (h : t.Valid) {p : Bpos} {o : Obstacle} (ho : o.Ahead t p) : p < o.pos := by
  obtain ⟨leaf, rest, hleft⟩ := h.leftIn p
  cases ho with
  | dead hleaf hpack hd hdel hlt => exact hlt
  | leafEnd hleaf hnext =>
    obtain rfl := Except.ok.inj (hleft.traverse.symm.trans hleaf)
    exact hleft.le_max.trans_lt (bposSuccessor_eq_some_iff.mp hnext).lt

/-- A search comes to one obstacle. -/
theorem Obstacle.Met.unique (h : t.Valid) {p : Bpos} {o o' : Obstacle} (ho : o.Met t p)
    (ho' : o'.Met t p) : o = o' := by
  have hpos : o.pos = o'.pos := le_antisymm (ho.first o' ho'.ahead) (ho'.first o ho.ahead)
  obtain ⟨leaf, rest, hleft⟩ := h.leftIn p
  have hleaf {leaf' : LeafNode} (h' : bch2BtreePathTraverseOne t p = .ok leaf') : leaf' = leaf :=
    Except.ok.inj (h'.symm.trans hleft.traverse)
  -- a dead key lies before the end of its leaf
  have hne {d : Bkey} {next : Bpos} (hd : leaf.keys.find? (fun k => k.p = d.p) = some d)
      (hnext : bposSuccessor leaf.maxKey = some next) : d.p ≠ next := by
    have hle := (hleft.ok.mem d (List.mem_of_find?_eq_some hd)).2
    exact (hle.trans_lt (bposSuccessor_eq_some_iff.mp hnext).lt).ne
  cases ho.ahead with
  | @dead _ d h₁ hpack hd hdel hlt =>
    obtain rfl := hleaf h₁
    cases ho'.ahead with
    | @dead _ d' h₂ hpack' hd' hdel' hlt' =>
      obtain rfl := hleaf h₂
      have hp : d.p = d'.p := hpos
      rw [hp, hd'] at hd
      rw [Option.some.inj hd]
    | leafEnd h₂ hnext =>
      obtain rfl := hleaf h₂
      exact absurd hpos (hne hd hnext)
  | leafEnd h₁ hnext =>
    obtain rfl := hleaf h₁
    cases ho'.ahead with
    | dead h₂ hpack hd hdel hlt =>
      obtain rfl := hleaf h₂
      exact absurd hpos.symm (hne hd hnext)
    | leafEnd h₂ hnext' =>
      obtain rfl := hleaf h₂
      rw [Option.some.inj (hnext.symm.trans hnext')]

/-- What a search jumps over lies behind its search position. -/
theorem SearchPasses.lt (h : t.Valid) {r : Bpos} {k : Bkey} (hp : SearchPasses t s stop r k) :
    searchAfter s r < k.p := by
  induction hp with
  | jump o hmet hle hover => exact (hmet.ahead.lt h).trans_le hle
  | obstacle o hmet hends hrest ih => exact ((hmet.ahead.lt h).trans_le (le_searchAfter _)).trans ih
  | extent e hfirst hclear hrest ih => exact (hfirst.le.trans (le_searchAfter _)).trans_lt ih

/-- What a search jumps over that comes to an obstacle. -/
theorem passes_obstacle_iff (h : t.Valid) {r : Bpos} {o : Obstacle}
    (hmet : o.Met t (searchAfter s r)) {k : Bkey} :
    SearchPasses t s stop r k ↔ (o.pos ≤ k.p ∧ (k.p < searchAfter s o.pos ∨ o.Ends stop)) ∨
      (¬o.Ends stop ∧ SearchPasses t s stop o.pos k) := by
  constructor
  · intro hp
    cases hp with
    | jump o' hmet' hle hover =>
      obtain rfl := hmet.unique h hmet'
      exact .inl ⟨hle, hover⟩
    | obstacle o' hmet' hends hrest =>
      obtain rfl := hmet.unique h hmet'
      exact .inr ⟨hends, hrest⟩
    | extent e hfirst hclear hrest =>
      exact absurd (hclear o hmet.ahead) (not_lt.mpr (hmet.live e hfirst.live hfirst.le))
  · rintro (⟨hle, hover⟩ | ⟨hends, hrest⟩)
    · exact .jump o hmet hle hover
    · exact .obstacle o hmet hends hrest

/-- What a search jumps over that comes to an extent. -/
theorem passes_extent_iff {r : Bpos} {e : Bkey}
    (hfirst : t.FirstFrom (searchAfter s r) e)
    (hclear : ∀ o, Obstacle.Ahead t (searchAfter s r) o → e.p < o.pos) {k : Bkey} :
    SearchPasses t s stop r k ↔ SearchPasses t s stop e.p k := by
  have hnot {o : Obstacle} (hmet : o.Met t (searchAfter s r)) : False :=
    absurd (hclear o hmet.ahead) (not_lt.mpr (hmet.live e hfirst.live hfirst.le))
  constructor
  · intro hp
    cases hp with
    | jump o hmet hle hover => exact (hnot hmet).elim
    | obstacle o hmet hends hrest => exact (hnot hmet).elim
    | extent e' hfirst' hclear' hrest =>
      have hp : e.p = e'.p := le_antisymm (hfirst.first e' hfirst'.live hfirst'.le)
        (hfirst'.first e hfirst.live hfirst.le)
      exact hp ▸ hrest
  · exact .extent e hfirst hclear

end Obstacles

/-! ### One turn -/

section Turn

variable {t : Btree} {s : Fin (2 ^ 32)} {stop : Bpos} {iter : BtreeIter}

/-- The keys before those left in a leaf do not lie behind the search position, if the format can
pack it. -/
theorem Btree.LeftIn.le_of_pack {p : Bpos} {leaf : LeafNode} {rest before : List Bkey}
    (h : t.LeftIn p leaf rest) (hsplit : leaf.keys = before ++ rest)
    (hpack : packPosFails leaf.format p = false) : ∀ k ∈ before, k.p ≤ p := by
  have hinit := h.init
  rw [LeafNode.nodeIterInit] at hinit
  split_ifs at hinit with hrange hfail
  · rw [hpack] at hfail
    cases hfail
  · have hrest := Option.some.inj hinit
    have hbefore : before = leaf.keys.takeWhile fun k => k.p < p || (k.p = p && k.deleted) := by
      have hall := List.takeWhile_append_dropWhile (l := leaf.keys)
        (p := fun k => k.p < p || (k.p = p && k.deleted))
      rw [hrest] at hall
      exact List.append_cancel_right (hsplit.symm.trans hall.symm)
    intro k hk
    rw [hbefore] at hk
    have htest := List.mem_takeWhile_imp hk
    rcases Bool.or_eq_true_iff.mp htest with hlt | heq
    · exact (of_decide_eq_true hlt).le
    · exact (of_decide_eq_true (Bool.and_eq_true_iff.mp heq).1).le

/-- If the format cannot pack the search position, then the first key left is live. -/
theorem Btree.LeftIn.live_of_fails {p : Bpos} {leaf : LeafNode} {k : Bkey} {rest : List Bkey}
    (h : t.LeftIn p leaf (k :: rest)) (hpack : packPosFails leaf.format p = true) :
    k.deleted = false := by
  have hinit := h.init
  rw [LeafNode.nodeIterInit] at hinit
  split_ifs at hinit with hrange
  have hhead := List.head?_dropWhile_not (fun k => k.deleted || k.p < p) leaf.keys
  rw [Option.some.inj hinit] at hhead
  exact (by simpa using hhead : k.deleted = false ∧ p ≤ k.p).1

/-- A dead key that is the first one left in a leaf is the obstacle that the search comes to. -/
theorem Btree.LeftIn.met_dead {p : Bpos} {leaf : LeafNode} {d : Bkey} {rest : List Bkey}
    (h : t.LeftIn p leaf (d :: rest)) (hdel : d.deleted = true) : (Obstacle.dead d).Met t p := by
  have hpack : packPosFails leaf.format p = false := by
    by_contra hfail
    rw [h.live_of_fails (by simpa using hfail)] at hdel
    cases hdel
  have hlt := h.head d rfl hdel
  obtain ⟨before, hsplit⟩ := h.suffix
  have hbefore := h.le_of_pack hsplit.symm hpack
  have hsorted := h.ok.sorted.sublist (List.IsSuffix.sublist ⟨before, hsplit⟩)
  refine ⟨.dead h.traverse hpack ?_ hdel hlt, fun o ho => ?_, fun k hk hle => h.first hk hle⟩
  · rw [← hsplit, List.find?_append, List.find?_eq_none.mpr, Option.none_or,
      List.find?_cons_of_pos (by simp)]
    intro k hk
    simpa using ((hbefore k hk).trans_lt hlt).ne
  · cases ho with
    | @dead _ d' hleaf _ hd' _ hlt' =>
      obtain rfl := Except.ok.inj (h.traverse.symm.trans hleaf)
      have hmem := List.mem_of_find?_eq_some hd'
      rw [← hsplit] at hmem
      rcases List.mem_append.mp hmem with hb | hr
      · exact absurd (hbefore d' hb) (not_le.mpr hlt')
      · rcases List.mem_cons.mp hr with rfl | hr
        · exact le_refl _
        · rcases List.rel_of_pairwise_cons hsorted hr with hlt | heq
          · exact hlt.le
          · exact heq.1.le
    | leafEnd hleaf hnext =>
      obtain rfl := Except.ok.inj (h.traverse.symm.trans hleaf)
      have hle := (h.ok.mem d (by simp [← hsplit])).2
      exact hle.trans (bposSuccessor_eq_some_iff.mp hnext).lt.le

/-- A live key that is the first one left in a leaf lies before all obstacles. -/
theorem Btree.LeftIn.clear {p : Bpos} {leaf : LeafNode} {k : Bkey} {rest : List Bkey}
    (h : t.LeftIn p leaf (k :: rest)) (hlive : k.deleted = false) {o : Obstacle}
    (ho : o.Ahead t p) : k.p < o.pos := by
  obtain ⟨before, hsplit⟩ := h.suffix
  have hsorted := h.ok.sorted.sublist (List.IsSuffix.sublist ⟨before, hsplit⟩)
  cases ho with
  | @dead _ d hleaf hpack hd hdel hlt =>
    obtain rfl := Except.ok.inj (h.traverse.symm.trans hleaf)
    have hmem := List.mem_of_find?_eq_some hd
    rw [← hsplit] at hmem
    rcases List.mem_append.mp hmem with hb | hr
    · exact absurd (h.le_of_pack hsplit.symm hpack d hb) (not_le.mpr hlt)
    · rcases List.mem_cons.mp hr with rfl | hr
      · rw [hlive] at hdel
        cases hdel
      · rcases List.rel_of_pairwise_cons hsorted hr with hlt | ⟨-, hd'⟩
        · exact hlt
        · rw [hlive] at hd'
          cases hd'
  | leafEnd hleaf hnext =>
    obtain rfl := Except.ok.inj (h.traverse.symm.trans hleaf)
    have hle := (h.ok.mem k (by simp [← hsplit])).2
    exact hle.trans_lt (bposSuccessor_eq_some_iff.mp hnext).lt

/-- If a leaf has no key left, then its end is the obstacle that the search comes to. -/
theorem Btree.LeftIn.met_leafEnd {p next : Bpos} {leaf : LeafNode} (h : t.LeftIn p leaf [])
    (hnext : bposSuccessor leaf.maxKey = some next) :
    (Obstacle.leafEnd leaf.maxKey next).Met t p := by
  have hcov := bposSuccessor_eq_some_iff.mp hnext
  refine ⟨.leafEnd h.traverse hnext, fun o ho => ?_, fun k hk hle => ?_⟩
  · cases ho with
    | @dead _ d hleaf hpack hd hdel hlt =>
      obtain rfl := Except.ok.inj (h.traverse.symm.trans hleaf)
      have hmem := List.mem_of_find?_eq_some hd
      exact absurd (h.le_of_pack (List.append_nil _).symm hpack d hmem) (not_le.mpr hlt)
    | leafEnd hleaf hnext' =>
      obtain rfl := Except.ok.inj (h.traverse.symm.trans hleaf)
      exact (Option.some.inj (hnext.symm.trans hnext')).le
  · exact hcov.ge_of_gt ((h.later k hk hle).resolve_left (by simp))

end Turn


end Subvol

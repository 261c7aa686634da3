import Subvol.Btree.BsetTable

/-!
# Searches in a set

Every turn of `bset_search_tree` leaves the nearest slots above on either side of the position, so
that the slot that it comes to has its nearest left neighbour below. A packed search key stands for
the position itself, or for the greatest position below that fits the format, which is on the same
side of every packed key. From the key that the table leads to, a walk goes on to the first key that
is not below the position.

## Main definitions

* `NodeWords.Before`, `NodeWords.Behind`: the side of a key, by the comparison that is made for it.
* `IterBset.Starts`: a place that a walk can start from.

## Main results

* `NodeWords.Built.searchStep`, `NodeWords.Built.searchLoop`: a turn and the loop of the search.
* `NodeWords.Holds.searchLinear`: the walk ends at the first key that is not below.
* `bch2BsetSearch_firstAbove`: a search finds what a walk over all keys finds.
-/

namespace Subvol

open Lib Lib.ArrayTree

/-! ### The order of iteration -/

theorem iterOrder_neg_iff (p r : Bpos) (deleted : Bool) :
    iterOrder (bposCmp p r) deleted < 0 ↔ p < r ∨ p = r ∧ deleted = true := by
  have hneg := bposCmp_neg_iff p r
  have hzero := bposCmp_zero_iff p r
  rw [iterOrder]
  split_ifs with hne hdel
  · rw [ne_eq, hzero] at hne
    simp [hneg, hne]
  · rw [not_not, hzero] at hne
    simp [hne, hdel]
  · rw [not_not, hzero] at hne
    simp [hne, hdel]

theorem bkeyIterPosCmp_nonneg_iff (k : BkeyPacked) (p : Bpos) :
    0 ≤ bkeyIterPosCmp k p ↔ p < k.pos ∨ p = k.pos ∧ k.deleted = false := by
  rw [← not_lt, bkeyIterPosCmp, iterOrder_neg_iff]
  rcases lt_trichotomy k.pos p with hlt | rfl | hgt
  · simp [hlt, hlt.le.not_gt, hlt.ne']
  · simp
  · simp [hgt, hgt.le.not_gt, hgt.ne']

theorem sees_iff {p : Bpos} {k : BkeyPacked} :
    sees p k = true ↔ p < k.pos ∨ p = k.pos ∧ k.deleted = false := by
  rw [sees, decide_eq_true_iff, bkeyIterPosCmp_nonneg_iff]

theorem sees_eq_false_iff {p : Bpos} {k : BkeyPacked} :
    sees p k = false ↔ k.pos < p ∨ k.pos = p ∧ k.deleted = true := by
  rw [sees, decide_eq_false_iff_not, not_le, bkeyIterPosCmp, iterOrder_neg_iff]

theorem sees_mono {p : Bpos} {k k' : BkeyPacked} (hlt : k.pos < k'.pos) (h : sees p k = true) :
    sees p k' = true := by
  rw [sees_iff] at h ⊢
  rcases h with h | ⟨h, -⟩
  · exact Or.inl (h.trans hlt)
  · exact Or.inl (h.trans_lt hlt)

namespace NodeWords

variable {b : NodeWords} {s : IterBset} {t : RoAuxTree} {search q : Bpos} {exact : Bool}
  {packed : KeyWords}

/-! ### A turn of the search -/

/-- The position that a key is compared with. -/
def target (b : NodeWords) (search q : Bpos) (x : RankedKey) : Bpos :=
  if (wordsAt b.data x.1).packed then q else search

/-- A key below the search key. -/
def Before (b : NodeWords) (search q : Bpos) (x : RankedKey) : Prop :=
  x.2.pos < b.target search q x

/-- A key that is not below the search key. -/
def Behind (b : NodeWords) (search q : Bpos) (x : RankedKey) : Prop :=
  b.target search q x ≤ x.2.pos

/-- Keys are compared with the packed search key where they are packed themselves. -/
theorem Holds.bkeyCmpPOrUnp (h : b.Holds s) (hq : HasPos b.format q packed) {x : RankedKey}
    (hx : x ∈ s.laidKeys) :
    b.bkeyCmpPOrUnp (wordsAt b.data x.1) (some packed) search =
      some (bposCmp x.2.pos (b.target search q x)) := by
  rw [NodeWords.bkeyCmpPOrUnp, target]
  rcases hpacked : (wordsAt b.data x.1).packed with _ | _
  · have hpos := (h.keys x hx).pos
    rw [KeyWords.unpackPos, hpacked] at hpos
    rw [if_neg Bool.false_ne_true, ← Option.some.inj hpos]
    rfl
  · have hpos := (h.keys x hx).hasPos hpacked
    rw [if_pos hq.packed, if_pos rfl, nrKeyBits, hpos.cmpPacked_eq hq]
    rfl

/-- The key at the nearest slot above on the left is below. -/
def LeftOk (b : NodeWords) (s : IterBset) (t : RoAuxTree) (search q : Bpos) (n : ℕ) : Prop :=
  leftAncestor n ≠ 0 →
    ∃ x ∈ s.laidKeys, s.slotToBkey t (leftAncestor n) = some x.1 ∧ b.Before search q x

/-- The key at the nearest slot above on the right is not below. -/
def RightOk (b : NodeWords) (s : IterBset) (t : RoAuxTree) (search q : Bpos) (n : ℕ) : Prop :=
  rightAncestor n ≠ 0 →
    ∃ x ∈ s.laidKeys, s.slotToBkey t (rightAncestor n) = some x.1 ∧ b.Behind search q x

theorem Holds.eq_of_slot (h : b.Holds s) {x y : RankedKey} (hx : x ∈ s.laidKeys)
    (hy : y ∈ s.laidKeys) {o : Option ℕ} (hox : o = some x.1) (hoy : o = some y.1) : x = y :=
  eq_of_mem_laid (fun _ hk => (h.u64s_bounds hk).1) hx hy (Option.some.inj (hox.symm.trans hoy))

/-- The position on the left is not above the one that is packed. -/
theorem Holds.left_le (h : b.Holds s) (hlossy : Lossy b.format search q exact)
    (hmin : b.minKey ≤ search) {n : ℕ} (hleft : b.LeftOk s t search q n) {pl : Bpos}
    (hl : b.AncestorPos s (s.slotToBkey t) (leftAncestor n) b.minKey pl) : pl ≤ q := by
  rcases hl with ⟨-, rfl, words, hwords⟩ | ⟨hzero, x, hx, hslot, rfl, hpos⟩
  · exact hlossy.greatest _ hmin hwords.fits
  · obtain ⟨y, hy, hslot', hbefore⟩ := hleft hzero
    obtain rfl := h.eq_of_slot hx hy hslot hslot'
    rw [Before, target, if_pos hpos.packed] at hbefore
    exact hbefore.le

/-- The position on the right is not below the one that is packed. -/
theorem Holds.le_right (h : b.Holds s) (hlossy : Lossy b.format search q exact)
    (hmax : search ≤ b.maxKey) {n : ℕ} (hright : b.RightOk s t search q n) {pr : Bpos}
    (hr : b.AncestorPos s (s.slotToBkey t) (rightAncestor n) b.maxKey pr) : q ≤ pr := by
  rcases hr with ⟨-, rfl, -⟩ | ⟨hzero, x, hx, hslot, rfl, hpos⟩
  · exact hlossy.le.trans hmax
  · obtain ⟨y, hy, hslot', hbehind⟩ := hright hzero
    obtain rfl := h.eq_of_slot hx hy hslot hslot'
    rwa [Behind, target, if_pos hpos.packed] at hbehind

/-- Where a turn of `bset_search_tree` goes from the slot of a key. -/
def StepsTo (b : NodeWords) (search q : Bpos) (n : ℕ) (x : RankedKey) : ℕ ⊕ ℕ → Prop
  | .inl k => k = x.1 ∧ x.2.pos = b.target search q x
  | .inr next => next = 2 * n + 1 ∧ b.Before search q x ∨ next = 2 * n ∧ b.Behind search q x

/-- The comparison with the key of a slot tells the side, or that the key is found. -/
theorem Holds.compareStep (h : b.Holds s) (hq : HasPos b.format q packed) {n : ℕ} {x : RankedKey}
    (hx : x ∈ s.laidKeys) (hslot : s.slotToBkey t n = some x.1) :
    ∃ r, b.compareStep s t search packed n = some r ∧ b.StepsTo search q n x r := by
  have hneg := bposCmp_neg_iff x.2.pos (b.target search q x)
  have hzero := bposCmp_zero_iff x.2.pos (b.target search q x)
  rw [NodeWords.compareStep, hslot]
  simp only [Option.bind_eq_bind, Option.bind_some]
  rw [h.bkeyCmpPOrUnp hq hx, Option.bind_some]
  split_ifs with hfound
  · exact ⟨_, rfl, rfl, hzero.mp hfound⟩
  · refine ⟨_, rfl, ?_⟩
    rw [hzero] at hfound
    by_cases hlt : x.2.pos < b.target search q x
    · refine Or.inl ⟨?_, hlt⟩
      rw [decide_eq_true (hneg.mpr hlt), Bool.toNat_true]
      omega
    · refine Or.inr ⟨?_, not_lt.mp hlt⟩
      rw [decide_eq_false (mt hneg.mp hlt), Bool.toNat_false]
      omega

/-- Where the float tells the side, the key is on it. -/
theorem Built.bfloatStep (hb : b.Built s t) (h : b.Holds s) (hq : HasPos b.format q packed)
    (hlossy : Lossy b.format search q exact) (hmin : b.minKey ≤ search)
    (hmax : search ≤ b.maxKey) {n : ℕ} (hn : 0 < n) (hlt : n < t.size)
    (hleft : b.LeftOk s t search q n) (hright : b.RightOk s t search q n) {x : RankedKey}
    (hx : x ∈ s.laidKeys) (hslot : s.slotToBkey t n = some x.1) {f : BkeyFloat}
    (hf : t.floats[n]? = some f) :
    b.bfloatStep f packed = some none ∨ ∃ right, b.bfloatStep f packed = some (some right) ∧
      b.StepsTo search q n x (.inr (n * 2 + right.toNat)) := by
  rw [NodeWords.bfloatStep]
  split_ifs with hsmall
  swap
  · exact Or.inl rfl
  obtain ⟨pl, pm, pr, hl, hm, hr, htells⟩ := hb.told n f hn hlt hf hsmall
  obtain ⟨y, hy, hslot', rfl, hpos⟩ := hm
  obtain rfl := h.eq_of_slot hx hy hslot hslot'
  obtain ⟨hbefore, hbehind⟩ := htells hsmall q packed hq (h.left_le hlossy hmin hleft hl)
    (h.le_right hlossy hmax hright hr)
  rw [bkeyMantissa, if_pos hq.packed]
  simp only [Option.bind_eq_bind, Option.bind_some]
  split_ifs with htell
  · refine Or.inr ⟨_, rfl, ?_⟩
    rw [StepsTo, Before, Behind, target, if_pos hpos.packed]
    by_cases hless : f.mantissa < keyMantissa packed f
    · rw [decide_eq_true hless, Bool.toNat_true]
      exact Or.inl ⟨by omega, hbefore hless⟩
    · rw [decide_eq_false hless, Bool.toNat_false]
      refine Or.inr ⟨by omega, hbehind (Nat.le_of_not_lt hless) ?_⟩
      simpa using htell
  · exact Or.inl rfl

/-- A turn of `bset_search_tree` goes to the right of a key that is below, to the left of one that
is not, or ends at the key with the position. -/
theorem Built.searchStep (hb : b.Built s t) (h : b.Holds s) (hq : HasPos b.format q packed)
    (hlossy : Lossy b.format search q exact) (hmin : b.minKey ≤ search)
    (hmax : search ≤ b.maxKey) {n : ℕ} (hn : 0 < n) (hlt : n < t.size)
    (hleft : b.LeftOk s t search q n) (hright : b.RightOk s t search q n) :
    ∃ x ∈ s.laidKeys, s.slotToBkey t n = some x.1 ∧ ∃ r,
      b.searchStep s t search packed n = some r ∧ b.StepsTo search q n x r := by
  obtain ⟨x, hx, hslot⟩ := hb.table.named n hn hlt
  have hroom := hlt.trans_le hb.table.length
  obtain ⟨f, hf⟩ : ∃ f, t.floats[n]? = some f := ⟨_, List.getElem?_eq_getElem hroom⟩
  refine ⟨x, hx, hslot, ?_⟩
  rw [NodeWords.searchStep, hf]
  simp only [Option.bind_eq_bind, Option.bind_some]
  rcases hb.bfloatStep h hq hlossy hmin hmax hn hlt hleft hright hx hslot hf with hnone |
    ⟨right, htold, hstep⟩
  · rw [hnone]
    exact h.compareStep hq hx hslot
  · rw [htold]
    exact ⟨_, rfl, hstep⟩

/-! ### The loop of the search -/

/-- The next slot has the nearest slots above on either side of the position. -/
theorem StepsTo.next {n next : ℕ} {x : RankedKey} (hx : x ∈ s.laidKeys)
    (hslot : s.slotToBkey t n = some x.1) (hn : 0 < n) (hstep : b.StepsTo search q n x (.inr next))
    (hleft : b.LeftOk s t search q n) (hright : b.RightOk s t search q n) :
    next / 2 = n ∧ b.LeftOk s t search q next ∧ b.RightOk s t search q next := by
  rcases hstep with ⟨rfl, hbefore⟩ | ⟨rfl, hbehind⟩
  · refine ⟨by omega, fun _ => ?_, ?_⟩
    · rw [leftAncestor_double_add_one]
      exact ⟨x, hx, hslot, hbefore⟩
    · rw [RightOk, rightAncestor_double_add_one]
      exact hright
  · refine ⟨by omega, ?_, fun _ => ?_⟩
    · rw [LeftOk, leftAncestor_double hn]
      exact hleft
    · rw [rightAncestor_double]
      exact ⟨x, hx, hslot, hbehind⟩

/-- The loop ends at a key with the position, or below the table. -/
theorem Built.searchLoop (hb : b.Built s t) (h : b.Holds s) (hq : HasPos b.format q packed)
    (hlossy : Lossy b.format search q exact) (hmin : b.minKey ≤ search)
    (hmax : search ≤ b.maxKey) {fuel n : ℕ} (hfuel : t.size < fuel + n) (hn : 0 < n)
    (hlt : n < t.size) (hleft : b.LeftOk s t search q n) (hright : b.RightOk s t search q n) :
    (∃ x ∈ s.laidKeys, b.searchLoop s t search packed fuel n = some (.inl x.1) ∧
        x.2.pos = b.target search q x) ∨
      ∃ next, b.searchLoop s t search packed fuel n = some (.inr next) ∧ t.size ≤ next ∧
        0 < next / 2 ∧ next / 2 < t.size ∧ b.LeftOk s t search q next := by
  induction fuel generalizing n with
  | zero => omega
  | succ fuel ih =>
    obtain ⟨x, hx, hslot, r, hr, hstep⟩ :=
      hb.searchStep h hq hlossy hmin hmax hn hlt hleft hright
    rw [NodeWords.searchLoop, hr]
    simp only [Option.bind_eq_bind, Option.bind_some]
    rcases r with k | next
    · obtain ⟨rfl, hpos⟩ := hstep
      exact Or.inl ⟨x, hx, rfl, hpos⟩
    · obtain ⟨hhalf, hleft', hright'⟩ := hstep.next hx hslot hn hleft hright
      dsimp only
      split_ifs with hmore
      · exact ih (by omega) (by omega) hmore hleft' hright'
      · exact Or.inr ⟨next, rfl, Nat.le_of_not_lt hmore, by omega, by omega, hleft'⟩

/-- `bset_search_tree` comes to the first key, or to a key that is not above the position. -/
theorem Built.bsetSearchTree (hb : b.Built s t) (h : b.Holds s) (hq : HasPos b.format q packed)
    (hlossy : Lossy b.format search q exact) (hmin : b.minKey ≤ search)
    (hmax : search ≤ b.maxKey) :
    ∃ off, b.bsetSearchTree s t search packed = some off ∧
      (off = s.set.firstOffset ∨ ∃ x ∈ s.laidKeys, x.1 = off ∧ x.2.pos ≤ search) := by
  have hge := hb.table.size_ge
  have hle := hb.table.size_le
  have htarget : ∀ x : RankedKey, b.target search q x ≤ search := fun x => by
    rw [target]
    split_ifs
    · exact hlossy.le
    · exact le_rfl
  have hleft : b.LeftOk s t search q 1 := fun hne => absurd leftAncestor_one hne
  have hright : b.RightOk s t search q 1 := fun hne => absurd rightAncestor_one hne
  rw [NodeWords.bsetSearchTree]
  rcases hb.searchLoop h hq hlossy hmin hmax (Nat.lt_succ_self t.size) Nat.one_pos (by omega) hleft
    hright with ⟨x, hx, hloop, hpos⟩ | ⟨next, hloop, hend, hpos, hlast, hleft'⟩
  · rw [hloop]
    exact ⟨x.1, rfl, Or.inr ⟨x, hx, rfl, hpos ▸ htarget x⟩⟩
  · have hplace : eytzinger1ToInorderExtra (next / 2) (t.size - 1) t.extra =
        some (inorder (t.size - 1) (next / 2)) := by
      rw [hb.table.extra_eq]
      exact eytzinger1ToInorderExtra_eq hpos (by omega) (by omega)
    -- the key at the nearest slot above on the left
    have hfound : ∀ n, leftAncestor next = n → n ≠ 0 → n < t.size → ∃ f, t.floats[n]? = some f ∧
        ∃ x ∈ s.laidKeys, s.cachelineToBkey (inorder (t.size - 1) n) f.keyOffset = x.1 ∧
          x.2.pos ≤ search := by
      rintro n rfl hne hlt
      obtain ⟨x, hx, hslot, hbefore⟩ := hleft' hne
      rw [IterBset.slotToBkey, hb.table.extra_eq,
        eytzinger1ToInorderExtra_eq (Nat.pos_of_ne_zero hne) (by omega) (by omega)] at hslot
      simp only [Option.bind_eq_bind, Option.bind_some] at hslot
      obtain ⟨f, hf, hoff⟩ := Option.bind_eq_some_iff.mp hslot
      exact ⟨f, hf, x, hx, Option.some.inj hoff, hbefore.le.trans (htarget x)⟩
    rw [hloop]
    simp only [Option.bind_eq_bind, Option.bind_some, hplace]
    rcases Nat.even_or_odd' next with ⟨m, rfl | rfl⟩
    · have hhalf : 2 * m / 2 = m := by omega
      rw [hhalf] at hpos hlast ⊢
      rw [leftAncestor_double hpos] at hfound
      rw [if_pos (by omega)]
      rcases @inorder_of_no_left (t.size - 1) m hpos (by omega) (by omega) with ⟨-, hone⟩ |
        ⟨hne, hplace⟩
      · rw [hone, if_pos rfl]
        exact ⟨_, rfl, Or.inl rfl⟩
      · have hanc := (@inorder_leftAncestor (t.size - 1) m hpos (by omega) hne).1
        have hbounds := @inorder_bounds (t.size - 1) _ (Nat.pos_of_ne_zero hne) hanc
        obtain ⟨f, hf, x, hx, hoff, hless⟩ := hfound _ rfl hne (by omega)
        have hprev : prevSlot (t.size - 1) m = leftAncestor m := by
          rw [prevSlot, if_neg (by omega)]
        rw [hplace, Nat.add_sub_cancel, if_neg (by omega),
          eytzinger1Prev_eq hpos (by omega) (by omega), hprev, Option.bind_some, hf]
        exact ⟨_, rfl, Or.inr ⟨x, hx, hoff.symm, hless⟩⟩
    · have hhalf : (2 * m + 1) / 2 = m := by omega
      rw [hhalf] at hpos hlast ⊢
      obtain ⟨f, hf, x, hx, hoff, hless⟩ :=
        hfound m (leftAncestor_double_add_one m) hpos.ne' hlast
      rw [if_neg (by omega), hf]
      exact ⟨_, rfl, Or.inr ⟨x, hx, hoff.symm, hless⟩⟩

end NodeWords

/-! ### The walk -/

/-- A key from which a walk finds the first key that is not below the position. -/
def IterBset.Starts (s : IterBset) (search : Bpos) (off : ℕ) : Prop :=
  ∃ pre post, s.set.keys = pre ++ post ∧ off = s.set.firstOffset + total BkeyPacked.u64s pre ∧
    ∀ k ∈ pre, sees search k = false

theorem IterBset.starts_first (s : IterBset) (search : Bpos) : s.Starts search s.set.firstOffset :=
  ⟨[], s.set.keys, rfl, rfl, fun _ hk => absurd hk List.not_mem_nil⟩

/-- What is in front of the first key that is not below does not matter. -/
theorem IterBset.firstAbove_skip {s : IterBset} {search : Bpos} {pre post : List BkeyPacked}
    (hkeys : s.set.keys = pre ++ post) (hpre : ∀ k ∈ pre, sees search k = false) :
    s.firstAbove search = (((laid BkeyPacked.u64s
      (s.set.firstOffset + total BkeyPacked.u64s pre) post).find?
        fun x => sees search x.2).map Prod.fst).getD s.set.endOffset := by
  have hnone : (laid BkeyPacked.u64s s.set.firstOffset pre).find? (fun x => sees search x.2) =
      none := by
    rw [List.find?_eq_none]
    intro x hx
    rw [hpre x.2 (mem_of_mem_laid hx)]
    exact Bool.false_ne_true
  rw [firstAbove, laidKeys, hkeys, laid_append, List.find?_append, hnone, Option.none_or]

theorem IterBset.firstAbove_eq {s : IterBset} {search : Bpos} {pre post : List BkeyPacked}
    (hkeys : s.set.keys = pre ++ post) (hpre : ∀ k ∈ pre, sees search k = false)
    (hpost : ∀ k rest, post = k :: rest → sees search k = true) :
    s.firstAbove search = s.set.firstOffset + total BkeyPacked.u64s pre := by
  rw [firstAbove_skip hkeys hpre]
  rcases post with _ | ⟨k, rest⟩
  · rw [laid, List.find?_nil, RwBset.endOffset, hkeys, List.append_nil]
    rfl
  · simp [laid, hpost k rest rfl]

/-- No key that is not below is in front of a start. -/
theorem IterBset.Starts.le_firstAbove {s : IterBset} {search : Bpos} {off : ℕ}
    (h : s.Starts search off) : off ≤ s.firstAbove search := by
  obtain ⟨pre, post, hkeys, rfl, hpre⟩ := h
  rw [firstAbove_skip hkeys hpre]
  rcases hfind : (laid BkeyPacked.u64s (s.set.firstOffset + total BkeyPacked.u64s pre) post).find?
      (fun x => sees search x.2) with _ | x
  · rw [hfind, Option.map_none, Option.getD_none, RwBset.endOffset, hkeys, total_append]
    omega
  · rw [hfind]
    exact (mem_laid_bounds (List.mem_of_find?_eq_some hfind)).1

namespace NodeWords

variable {b : NodeWords} {s : IterBset} {search q : Bpos} {exact : Bool} {packed : KeyWords}
  {pre post : List BkeyPacked}

/-- Keys that are not above the position can be started from. -/
theorem Holds.starts (h : b.Holds s) {x : RankedKey} (hx : x ∈ s.laidKeys)
    (hle : x.2.pos ≤ search) : s.Starts search x.1 := by
  obtain ⟨p, r, hkeys, hoff⟩ := mem_laid_iff.mp hx
  refine ⟨p, x.2 :: r, hkeys, hoff, fun k hk => sees_eq_false_iff.mpr (Or.inl ?_)⟩
  have hsorted := h.sorted
  rw [hkeys] at hsorted
  exact ((List.pairwise_append.mp hsorted).2.2 k hk x.2 List.mem_cons_self).trans_le hle

/-- A walk stops at the first key that is not below. -/
theorem Holds.walkBelow (h : b.Holds s) {below : KeyWords → Option Bool} {P : RankedKey → Bool}
    (hbelow : ∀ x ∈ s.laidKeys, below (wordsAt b.data x.1) = some (P x)) {off : ℕ}
    (hkeys : s.set.keys = pre ++ post)
    (hoff : off = s.set.firstOffset + total BkeyPacked.u64s pre) :
    ∃ mid rest, post = mid ++ rest ∧
      b.walkBelow below s.set.endOffset off = some (off + total BkeyPacked.u64s mid) ∧
      (∀ x ∈ laid BkeyPacked.u64s off mid, P x = true) ∧
      ∀ k rest', rest = k :: rest' → P (off + total BkeyPacked.u64s mid, k) = false := by
  induction post generalizing pre off with
  | nil =>
    refine ⟨[], [], rfl, ?_, by simp [laid], by simp⟩
    rw [NodeWords.walkBelow, if_pos (by rw [hoff, RwBset.endOffset, hkeys, List.append_nil])]
    rfl
  | cons k post ih =>
    have hmem : (off, k) ∈ s.laidKeys := mem_laid_iff.mpr ⟨pre, post, hkeys, hoff⟩
    have hu64s := (h.keys _ hmem).u64s
    have hpos : 0 < k.u64s := (h.keys _ hmem).u64s_bounds.1
    have hend : off + k.u64s ≤ s.set.endOffset := by
      rw [hoff, RwBset.endOffset, hkeys, total_append, total_cons]
      omega
    rw [NodeWords.walkBelow, if_neg (by omega), hbelow _ hmem]
    rcases hP : P (off, k) with _ | _
    · refine ⟨[], k :: post, rfl, rfl, by simp [laid], fun k' rest' heq => ?_⟩
      obtain ⟨rfl, -⟩ := List.cons.inj heq
      exact hP
    · have hnext : bkeyPNext b.data off = off + k.u64s := by rw [bkeyPNext, hu64s]
      have hkeysNext : s.set.keys = (pre ++ [k]) ++ post := by simp [hkeys]
      have hoffNext : off + k.u64s = s.set.firstOffset + total BkeyPacked.u64s (pre ++ [k]) := by
        simp [hoff, Nat.add_assoc]
      obtain ⟨mid, rest, rfl, hwalk, hmid, hrest⟩ := ih hkeysNext hoffNext
      refine ⟨k :: mid, rest, rfl, ?_, fun x hx => ?_, fun k' rest' heq => ?_⟩
      · dsimp only
        rw [hnext, if_pos ⟨by omega, hend⟩, hwalk, total_cons, Nat.add_assoc]
      · rcases List.mem_cons.mp hx with rfl | hx
        · exact hP
        · exact hmid x hx
      · rw [total_cons, ← Nat.add_assoc]
        exact hrest k' rest' heq

/-- The walk with the position ends at the first key that is not below. -/
theorem Holds.walkPos (h : b.Holds s) {off : ℕ} (hstart : s.Starts search off) :
    b.walkBelow (b.belowPos search) s.set.endOffset off = some (s.firstAbove search) := by
  obtain ⟨pre, post, hkeys, hoff, hpre⟩ := hstart
  have hbelow : ∀ x ∈ s.laidKeys,
      b.belowPos search (wordsAt b.data x.1) = some (!sees search x.2) := by
    intro x hx
    have hstored := h.keys x hx
    rw [belowPos, NodeWords.bkeyIterPosCmp, hstored.pos, Option.map_some, Option.map_some,
      hstored.deleted]
    rcases hsees : sees search x.2 with _ | _
    · exact congrArg some (decide_eq_true ((iterOrder_neg_iff _ _ _).mpr
        (sees_eq_false_iff.mp hsees)))
    · refine congrArg some (decide_eq_false fun hneg => ?_)
      have := sees_eq_false_iff.mpr ((iterOrder_neg_iff _ _ _).mp hneg)
      exact absurd (this.symm.trans hsees) Bool.false_ne_true
  obtain ⟨mid, rest, rfl, hwalk, hmid, hrest⟩ := h.walkBelow hbelow hkeys hoff
  have hsplit : s.set.keys = (pre ++ mid) ++ rest := by rw [hkeys, List.append_assoc]
  have hfirst : s.firstAbove search = s.set.firstOffset + total BkeyPacked.u64s (pre ++ mid) := by
    refine IterBset.firstAbove_eq hsplit (fun k hk => ?_) fun k rest' heq => ?_
    · rcases List.mem_append.mp hk with hk | hk
      · exact hpre k hk
      · obtain ⟨o, ho⟩ := exists_mem_laid hk
        simpa using hmid _ ho
    · simpa using hrest k rest' heq
  rw [hwalk, hfirst, hoff, total_append, Nat.add_assoc]

/-- `bch2_bset_search_linear` ends at the first key that is not below. -/
theorem Holds.searchLinear (h : b.Holds s) (hq : HasPos b.format q packed)
    (hlossy : Lossy b.format search q exact) {off : ℕ} (hstart : s.Starts search off) :
    b.bch2BsetSearchLinear s search (if exact then some packed else none) (some packed) off =
      some (s.firstAbove search) := by
  obtain ⟨pre, post, hkeys, hoff, hpre⟩ := hstart
  have hbelow : ∀ x ∈ s.laidKeys,
      b.belowPacked search (some packed) (wordsAt b.data x.1) =
        some (decide (iterOrder (bposCmp x.2.pos (b.target search q x)) x.2.deleted < 0)) := by
    intro x hx
    rw [belowPacked, bkeyIterCmpPOrUnp, h.bkeyCmpPOrUnp hq hx, (h.keys x hx).deleted]
    rfl
  obtain ⟨mid, rest, rfl, hwalk, hmid, hrest⟩ := h.walkBelow hbelow hkeys hoff
  -- Keys that are below the packed position are below the position.
  have htarget : ∀ x : RankedKey, b.target search q x ≤ search := fun x => by
    rw [target]
    split_ifs
    · exact hlossy.le
    · exact le_rfl
  have hseen : ∀ k ∈ pre ++ mid, sees search k = false := by
    intro k hk
    rcases List.mem_append.mp hk with hk | hk
    · exact hpre k hk
    · obtain ⟨o, ho⟩ := exists_mem_laid hk
      have hneg := (iterOrder_neg_iff _ _ _).mp (of_decide_eq_true (hmid _ ho))
      rw [sees_eq_false_iff]
      rcases hneg with hlt | ⟨heq, hdel⟩
      · exact Or.inl (hlt.trans_le (htarget _))
      · rcases (heq.trans_le (htarget _)).lt_or_eq with hlt | hsame
        · exact Or.inl hlt
        · exact Or.inr ⟨hsame, hdel⟩
  have hkeys' : s.set.keys = (pre ++ mid) ++ rest := by rw [hkeys, List.append_assoc]
  have hoff' : off + total BkeyPacked.u64s mid =
      s.set.firstOffset + total BkeyPacked.u64s (pre ++ mid) := by
    rw [hoff, total_append, Nat.add_assoc]
  rw [bch2BsetSearchLinear, Option.isSome_some, if_pos rfl, hwalk]
  simp only [Option.bind_eq_bind, Option.bind_some]
  rcases exact with _ | _
  · exact h.walkPos ⟨pre ++ mid, rest, hkeys', hoff', hseen⟩
  · have hsame : q = search := hlossy.eq_iff.mp rfl
    have hfirst := IterBset.firstAbove_eq hkeys' hseen fun k rest' heq => by
      have hnot := of_decide_eq_false (hrest k rest' heq)
      rw [iterOrder_neg_iff, target, hsame, ite_self] at hnot
      rcases hsees : sees search k with _ | _
      · exact absurd (sees_eq_false_iff.mp hsees) hnot
      · rfl
    rw [hfirst, hoff']
    rfl

/-- A search comes to a key from which the walk finds what it is for. -/
theorem Holds.bch2BsetSearch (h : b.Holds s)
    (haux : s.aux = .noAux ∨ ∃ t, s.aux = .ro t ∧ b.Built s t)
    (hq : HasPos b.format q packed) (hlossy : Lossy b.format search q exact)
    (hmin : b.minKey ≤ search) (hmax : search ≤ b.maxKey) :
    ∃ off, b.bch2BsetSearch s search packed = some off ∧ s.Starts search off := by
  rw [NodeWords.bch2BsetSearch]
  rcases haux with haux | ⟨t, haux, hb⟩
  · rw [haux]
    exact ⟨_, rfl, s.starts_first search⟩
  · rw [haux]
    obtain ⟨off, hoff, rfl | ⟨x, hx, rfl, hle⟩⟩ := hb.bsetSearchTree h hq hlossy hmin hmax
    · exact ⟨_, hoff, s.starts_first search⟩
    · exact ⟨_, hoff, h.starts hx hle⟩

end NodeWords

/-- In a set with the table that a build makes for it, a search for a position that is packed, or
for which a smaller one is, starts no further back than at the first key that is not below the
position, and the walk from there ends at this key, as one over all keys does. -/
theorem bch2BsetSearch_firstAbove (b : NodeWords) (s : IterBset) (h : b.Holds s)
    (hcovers : b.Covers s) (stale : List BkeyFloat) (search : Bpos) (hmin : b.minKey ≤ search)
    (hmax : search ≤ b.maxKey) (out packed : KeyWords) (ret : BkeyPackPosRet)
    (hpack : KeyWords.bch2BkeyPackPosLossy out search b.format.toBkeyFormat = some (ret, packed))
    (hret : ret ≠ .fail) :
    ∃ aux off, b.buildRoAuxTree s stale = some aux ∧
      b.bch2BsetSearch { s with aux } search packed = some off ∧ off ≤ s.firstAbove search ∧
      b.bch2BsetSearchLinear { s with aux } search (if ret = .exact then some packed else none)
        (some packed) off = some (s.firstAbove search) ∧
      b.bch2BsetSearchLinear { s with aux } search none none s.set.firstOffset =
        some (s.firstAbove search) := by
  obtain ⟨aux, hbuild, haux⟩ := h.buildRoAuxTree hcovers stale
  have h' : b.Holds { s with aux } := h.withAux aux
  have haux' : aux = .noAux ∨ ∃ t, aux = .ro t ∧ b.Built { s with aux } t :=
    haux.imp_right fun ⟨t, ht, hb⟩ => ⟨t, ht, hb.withAux aux⟩
  rcases bch2BkeyPackPosLossy_cases b.format out search with ⟨words, heq, -⟩ |
    ⟨exact, q, words, heq, hpacked, hlossy⟩
  · rw [hpack] at heq
    exact absurd (Prod.mk.inj (Option.some.inj heq)).1 hret
  · rw [hpack] at heq
    obtain ⟨rfl, rfl⟩ := Prod.mk.inj (Option.some.inj heq)
    obtain ⟨off, hoff, hstart⟩ := h'.bch2BsetSearch haux' hpacked.hasPos hlossy hmin hmax
    have hwalk := h'.searchLinear hpacked.hasPos hlossy hstart
    have hplain := h'.walkPos (IterBset.starts_first { s with aux } search)
    refine ⟨aux, off, hbuild, hoff, hstart.le_firstAbove, ?_, hplain⟩
    rcases exact with _ | _ <;> exact hwalk

/-- Twenty keys of six words, one of them unpacked. -/
def mixedKey (i : ℕ) : BkeyPacked :=
  ⟨⟨⟨101, Fin.ofNat _ (200 + 10 * i), 5⟩, 7, 0, 0, 0, List.replicate (if i = 7 then 1 else 4) 0⟩,
    if i = 7 then 5 else 2, false⟩

def mixedSet : IterBset where
  set := ⟨narrowFormat, 12, 0, 17, (List.range 20).map mixedKey, []⟩
  lead := 4
  aux := .noAux

/-- The words of a key. -/
def mixedWords (i : ℕ) : List (BitVec 64) :=
  if i = 7 then [0x070106, 0, 5 <<< 32, BitVec.ofNat 64 (200 + 10 * i), 101, 0]
  else [0x070006, BitVec.ofNat 64 (2 ^ 56 + 10 * i * 2 ^ 47 + 2 ^ 44), 0, 0, 0, 0]

def mixedNode : NodeWords where
  format := narrowFormat
  minKey := ⟨101, 200, 3⟩
  maxKey := ⟨101, 711, 18⟩
  data := List.replicate 20 (0 : BitVec 64) ++ (List.range 20).flatMap mixedWords

theorem mixedNode_holds : mixedNode.Holds mixedSet where
  keys := by decide +kernel
  sorted := by decide +kernel
  fits := by decide +kernel

theorem mixedNode_covers : mixedNode.Covers mixedSet := by
  rw [NodeWords.Covers]
  decide +kernel

/-- A position that no packed key has, so that a smaller one is packed. -/
theorem bch2BsetSearch_firstAbove_mixed : ∃ ret packed aux off,
    KeyWords.bch2BkeyPackPosLossy (fun _ => 0) ⟨101, 265, 100⟩ narrowFormat.toBkeyFormat =
      some (ret, packed) ∧
    mixedNode.buildRoAuxTree mixedSet (List.replicate 8 ⟨0, 0, 0⟩) = some aux ∧
    mixedNode.bch2BsetSearch { mixedSet with aux } ⟨101, 265, 100⟩ packed = some off ∧
    off ≤ mixedSet.firstAbove ⟨101, 265, 100⟩ ∧
    mixedNode.bch2BsetSearchLinear { mixedSet with aux } ⟨101, 265, 100⟩
      (if ret = .exact then some packed else none) (some packed) off =
        some (mixedSet.firstAbove ⟨101, 265, 100⟩) ∧
    mixedNode.bch2BsetSearchLinear { mixedSet with aux } ⟨101, 265, 100⟩ none none
      mixedSet.set.firstOffset = some (mixedSet.firstAbove ⟨101, 265, 100⟩) := by
  have hret : (KeyWords.bch2BkeyPackPosLossy (fun _ => 0) ⟨101, 265, 100⟩
      narrowFormat.toBkeyFormat).map Prod.fst = some .smaller := by decide +kernel
  obtain ⟨⟨ret, packed⟩, hpack, rfl⟩ := Option.map_eq_some_iff.mp hret
  obtain ⟨aux, off, hfound⟩ := bch2BsetSearch_firstAbove mixedNode mixedSet mixedNode_holds
    mixedNode_covers
    (List.replicate 8 ⟨0, 0, 0⟩) ⟨101, 265, 100⟩ (by decide) (by decide) (fun _ => 0) packed _ hpack
    (by decide)
  exact ⟨_, packed, aux, off, hpack, hfound⟩

end Subvol

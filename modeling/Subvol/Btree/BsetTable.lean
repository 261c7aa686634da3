import Subvol.Btree.AuxTreeRun
import Subvol.Btree.BsetFloat

/-!
# The table of a set that is searched in

What `build_ro_aux_tree` leaves behind. The slots name, in their order, the first keys behind the
cache lines; a key that goes over more than one line is named more than once. Each float tells on
which side of its key a position is that is between the keys at the nearest slots above, or at the
ends of the table between the first and the last position of the node.

## Main definitions

* `BsetKeys.keyBehind`: the key that a slot names.
* `RoTable`: slots that name keys in their order.
* `NodeWords.Told`: a float that tells the side, where it can be used.

## Main results

* `BsetKeys.roLoop_spec`: the slots after the first part of a build.
* `BsetKeys.roLoop_size`: the size is the one that the room for the table is told by.
* `NodeWords.Holds.buildRoAuxTree`: a build comes to its end, with such a table or with none.
-/

namespace Subvol

open Lib Lib.ArrayTree

/-! ### Filling the slots -/

namespace BsetKeys

variable {s : BsetKeys} {cacheline off off' : ℕ} {ks ks' : List BkeyPacked}

/-- The first key that does not start before a cache line. -/
def keyBehind (s : BsetKeys) (cacheline : ℕ) : Option RankedKey :=
  (laid BkeyPacked.u64s s.firstOffset s.keys).find? fun x =>
    decide (cacheline ≤ s.bkeyToCacheline x.1)

/-- The keys in front of the one that the loop of `build_ro_aux_tree` is at start before the cache
line. -/
def BehindLine (s : BsetKeys) (cacheline off : ℕ) (ks : List BkeyPacked) : Prop :=
  ∃ pre, s.keys = pre ++ ks ∧ off = s.firstOffset + total BkeyPacked.u64s pre ∧
    ∀ x ∈ laid BkeyPacked.u64s s.firstOffset pre, s.bkeyToCacheline x.1 < cacheline

theorem BehindLine.skipKeys (hbehind : s.BehindLine cacheline off ks)
    (h : s.skipKeys cacheline off ks = some (off', ks')) : s.BehindLine cacheline off' ks' := by
  induction ks generalizing off with
  | nil =>
    rw [BsetKeys.skipKeys] at h
    split_ifs at h
    obtain ⟨rfl, rfl⟩ := Prod.mk.inj (Option.some.inj h)
    exact hbehind
  | cons k ks ih =>
    rw [BsetKeys.skipKeys] at h
    split_ifs at h with hbefore
    · obtain ⟨pre, hkeys, hoff, hpre⟩ := hbehind
      refine ih ⟨pre ++ [k], by simp [hkeys], by simp [hoff, Nat.add_assoc], fun x hx => ?_⟩ h
      rcases mem_laid_append.mp hx with hx | hx
      · exact hpre x hx
      · obtain rfl : x = (off, k) := by simpa [laid, hoff] using hx
        exact hbefore
    · obtain ⟨rfl, rfl⟩ := Prod.mk.inj (Option.some.inj h)
      exact hbehind

theorem BehindLine.keyBehind {k : BkeyPacked} (hbehind : s.BehindLine cacheline off (k :: ks))
    (hle : cacheline ≤ s.bkeyToCacheline off) : s.keyBehind cacheline = some (off, k) := by
  obtain ⟨pre, hkeys, hoff, hpre⟩ := hbehind
  have hnone : (laid BkeyPacked.u64s s.firstOffset pre).find?
      (fun x => decide (cacheline ≤ s.bkeyToCacheline x.1)) = none := by
    rw [List.find?_eq_none]
    intro x hx
    have := hpre x hx
    rw [decide_eq_true_iff]
    omega
  rw [BsetKeys.keyBehind, hkeys, laid_append, List.find?_append, hnone, ← hoff, laid,
    Option.none_or]
  exact List.find?_cons_of_pos (decide_eq_true hle)

/-- The words from the start of the cache lines to a key, by the entry for it. -/
theorem bkeyToCachelineOffset_eq {offset : ℕ}
    (h : s.bkeyToCachelineOffset cacheline off = some offset) :
    s.wordsFromLine off = cacheline * 32 + offset := by
  rw [bkeyToCachelineOffset, bsetCacheline] at h
  dsimp only at h
  split_ifs at h
  have := Option.some.inj h
  omega

/-- Every slot names the first key behind its cache line, if there is one for each. -/
theorem fillFloats_spec {slots : List ℕ} {floats : List BkeyFloat}
    (hat : s.LoopAt cacheline off ks) (hbehind : s.BehindLine cacheline off ks)
    (hline : cacheline + slots.length ≤ s.bkeyToCacheline s.endOffset) (hnodup : slots.Nodup)
    (hslots : ∀ j ∈ slots, j < floats.length) :
    ∃ full floats', s.fillFloats cacheline off ks slots floats = some (full, floats') ∧
      floats'.length = floats.length ∧ (∀ j ∉ slots, floats'[j]? = floats[j]?) ∧
      (full = true → ∀ i j, slots[i]? = some j → ∃ x f, s.keyBehind (cacheline + i) = some x ∧
        floats'[j]? = some f ∧ s.wordsFromLine x.1 = (cacheline + i) * 32 + f.keyOffset) := by
  induction slots generalizing cacheline off ks floats with
  | nil => exact ⟨true, floats, rfl, rfl, fun _ _ => rfl, fun _ i j hj => by simp at hj⟩
  | cons slot slots ih =>
    rw [List.length_cons] at hline
    obtain ⟨off', ks', hskip, hat', hline'⟩ := skipKeys_spec hat (by omega)
    have hbehind' := hbehind.skipKeys hskip
    rw [fillFloats, hskip, Option.bind_eq_bind, Option.bind_some]
    dsimp only
    rcases ks' with _ | ⟨k, ks'⟩
    · exact ⟨false, floats, if_pos rfl, rfl, fun _ _ => rfl, fun h => Bool.noConfusion h⟩
    rw [if_neg (List.cons_ne_nil k ks')]
    obtain ⟨offset, hoffset⟩ := bkeyToCachelineOffset_isSome hat' hline'
    have hslot := hslots slot List.mem_cons_self
    have hnear := hat'.near
    have hnext : s.LoopAt (cacheline + 1) off' (k :: ks') :=
      ⟨hat'.end_eq, hat'.first_le, hat'.u64s_lt, by omega⟩
    have hbehindNext : s.BehindLine (cacheline + 1) off' (k :: ks') := by
      obtain ⟨pre, hkeys, hoff, hpre⟩ := hbehind'
      exact ⟨pre, hkeys, hoff, fun x hx => (hpre x hx).trans (Nat.lt_succ_self _)⟩
    obtain ⟨hnotin, hrest⟩ := List.nodup_cons.mp hnodup
    have hslotsNext : ∀ j ∈ slots,
        j < (floats.set slot { floats[slot] with keyOffset := offset }).length := by
      intro j hj
      rw [List.length_set]
      exact hslots j (List.mem_cons_of_mem slot hj)
    obtain ⟨full, floats', hfill, hlength, hother, hfull⟩ :=
      ih hnext hbehindNext (by omega) hrest hslotsNext
    simp only [hoffset, List.getElem?_eq_getElem hslot, Option.bind_eq_bind, Option.bind_some]
    rw [hfill]
    refine ⟨full, floats', rfl, hlength.trans List.length_set, fun j hj => ?_, fun h i j hj => ?_⟩
    · have hne : slot ≠ j := fun heq => hj (heq ▸ List.mem_cons_self)
      rw [hother j fun hmem => hj (List.mem_cons_of_mem slot hmem), List.getElem?_set_ne hne]
    · rcases i with _ | i
      · obtain rfl : slot = j := Option.some.inj hj
        refine ⟨(off', k), { floats[slot] with keyOffset := offset }, hbehind'.keyBehind hline', ?_,
          bkeyToCachelineOffset_eq hoffset⟩
        rw [hother slot hnotin, List.getElem?_set_self hslot]
      · obtain ⟨x, f, hx, hf, hwords⟩ := hfull h i j hj
        have hsame : cacheline + (i + 1) = cacheline + 1 + i := by omega
        rw [hsame]
        exact ⟨x, f, hx, hf, hwords⟩

/-- The slots of a table of some size in order, as they are walked through. -/
theorem treeSlots_eq {size : ℕ} (hpos : 0 < size) (hlt : size + 1 < 2 ^ 31) :
    treeSlots size = some (slotsInOrder size) := walk_next hpos hlt

/-- The first turn of the loop over the sizes of a table. -/
theorem first_fill {size : ℕ} {floats : List BkeyFloat}
    (hsize : size + 2 ≤ s.bkeyToCacheline s.endOffset) (hroom : size + 2 ≤ floats.length) :
    ∃ full floats',
      s.fillFloats 1 s.firstOffset s.keys (slotsInOrder (size + 1)) floats = some (full, floats') ∧
      floats'.length = floats.length ∧
      (∀ j ∉ slotsInOrder (size + 1), floats'[j]? = floats[j]?) ∧
      (full = true → ∀ i j, (slotsInOrder (size + 1))[i]? = some j →
        ∃ x f, s.keyBehind (1 + i) = some x ∧ floats'[j]? = some f ∧
          s.wordsFromLine x.1 = (1 + i) * 32 + f.keyOffset) := by
  have hlength : (slotsInOrder (size + 1)).length = size + 1 := by
    rw [slotsInOrder, List.length_map, List.length_range']
  have hat : s.LoopAt 1 s.firstOffset s.keys :=
    ⟨rfl, le_refl _, s.u64s_lt, by have := s.lead.isLt; rw [wordsFromLine]; omega⟩
  refine fillFloats_spec hat ⟨[], rfl, rfl, fun x hx => absurd hx List.not_mem_nil⟩
    (by rw [hlength]; omega) (slotsInOrder_nodup (size + 1)) fun j hj => ?_
  have := (mem_slotsInOrder.mp hj).2
  omega

/-- The slots after the first part of a build. -/
theorem roLoop_spec {size : ℕ} {floats : List BkeyFloat}
    (hsize : size ≤ s.bkeyToCacheline s.endOffset) (hroom : size ≤ floats.length) :
    ∃ t, s.roLoop size floats = some t ∧ t.floats.length = floats.length ∧
      (t.size = 0 ∨ 2 ≤ t.size ∧ t.size ≤ size ∧ t.extra = extra (t.size - 1) ∧
        ∀ n, 0 < n → n < t.size → ∃ x f, s.keyBehind (inorder (t.size - 1) n) = some x ∧
          t.floats[n]? = some f ∧
          s.wordsFromLine x.1 = inorder (t.size - 1) n * 32 + f.keyOffset) := by
  have hlines := s.bkeyToCacheline_endOffset_le
  induction size, floats using roLoop.induct with
  | case1 floats => exact ⟨_, rfl, rfl, Or.inl rfl⟩
  | case2 floats => exact ⟨_, rfl, rfl, Or.inl rfl⟩
  | case3 size floats ih =>
    obtain ⟨full, floats', hfill, hsame, -, hfull⟩ := first_fill hsize hroom
    rw [roLoop, eytzinger1Extra_eq (Nat.succ_pos size) (by omega),
      treeSlots_eq (Nat.succ_pos size) (by omega)]
    simp only [Option.bind_eq_bind, Option.bind_some]
    rw [hfill, Option.bind_some]
    dsimp only
    rcases full with _ | _
    · obtain ⟨t, ht, htlength, hcases⟩ := ih floats' (by omega) (by omega)
      refine ⟨t, ht, htlength.trans hsame, hcases.imp_right fun ⟨hge, hle, hrest⟩ => ?_⟩
      exact ⟨hge, by omega, hrest⟩
    · have hextra : extra (size + 1) % 2 ^ 16 = extra (size + 1) := by
        have hsub : extra (size + 1) ≤ (size + 2) * 2 :=
          Nat.mul_le_mul_right 2 (Nat.sub_le (size + 1 + 1) _)
        exact Nat.mod_eq_of_lt (by omega)
      refine ⟨_, rfl, hsame, Or.inr ⟨Nat.le_add_left 2 size, le_rfl, hextra, fun n hn hlt => ?_⟩⟩
      have hle : n ≤ size + 1 := Nat.lt_succ_iff.mp hlt
      obtain ⟨hplace, hplaceLe⟩ := inorder_bounds hn hle
      have hslot : (slotsInOrder (size + 1))[inorder (size + 1) n - 1]? = some n := by
        rw [slotsInOrder, List.getElem?_map, List.getElem?_range' (by omega), Option.map_some]
        have hplus : 1 + 1 * (inorder (size + 1) n - 1) = inorder (size + 1) n := by omega
        rw [hplus, slotAt_inorder hn hle]
      obtain ⟨x, f, hx, hf, hwords⟩ := hfull rfl _ n hslot
      rw [Nat.add_sub_cancel' hplace] at hx hwords
      exact ⟨x, f, hx, hf, hwords⟩

/-- Filling in the entries takes as many keys as counting the bytes that are written. -/
theorem fillFloats_full {slots : List ℕ} {floats : List BkeyFloat}
    (hslots : ∀ j ∈ slots, j < floats.length) :
    (s.fillFloats cacheline off ks slots floats).map Prod.fst =
      (s.fillSlots cacheline off ks slots).map Prod.fst := by
  induction slots generalizing cacheline off ks floats with
  | nil => rfl
  | cons slot slots ih =>
    have hslot := hslots slot List.mem_cons_self
    rw [fillFloats, fillSlots, List.getElem?_eq_getElem hslot]
    rcases s.skipKeys cacheline off ks with _ | ⟨off', ks'⟩
    · rfl
    simp only [Option.bind_eq_bind, Option.bind_some]
    split_ifs
    · rfl
    rcases s.bkeyToCachelineOffset cacheline off' with _ | offset
    · rfl
    simp only [Option.bind_some]
    rw [ih fun j hj => by
      rw [List.length_set]
      exact hslots j (List.mem_cons_of_mem slot hj)]
    rcases s.fillSlots (cacheline + 1) off' ks' slots with _ | ⟨full, written⟩ <;> rfl

/-- The table has the size that the room for it is told by. -/
theorem roLoop_size {size : ℕ} {floats : List BkeyFloat}
    (hsize : size ≤ s.bkeyToCacheline s.endOffset) (hroom : size ≤ floats.length) :
    (s.roLoop size floats).map (fun t => (t.size, t.extra)) =
      (s.buildRoLoop size).map fun r => (r.1, r.2.1) := by
  have hlines := s.bkeyToCacheline_endOffset_le
  induction size, floats using roLoop.induct with
  | case1 floats => rfl
  | case2 floats => rfl
  | case3 size floats ih =>
    have hslots : ∀ j ∈ slotsInOrder (size + 1), j < floats.length := fun j hj => by
      have := (mem_slotsInOrder.mp hj).2
      omega
    obtain ⟨full, floats', hfill, hsame, -, -⟩ := first_fill hsize hroom
    have hfull := @fillFloats_full s 1 s.firstOffset s.keys _ _ hslots
    rw [hfill] at hfull
    obtain ⟨⟨_, written⟩, hwritten, rfl⟩ := Option.map_eq_some_iff.mp hfull.symm
    rw [roLoop, buildRoLoop, eytzinger1Extra_eq (Nat.succ_pos size) (by omega),
      treeSlots_eq (Nat.succ_pos size) (by omega)]
    simp only [Option.bind_eq_bind, Option.bind_some]
    rw [hfill, hwritten]
    simp only [Option.bind_some]
    split_ifs
    · rfl
    · rw [ih floats' (by omega) (by omega)]
      rcases s.buildRoLoop (size + 1) with _ | r <;> rfl

end BsetKeys

/-! ### Keys and their words -/

section Words

variable {b : NodeWords} {s : IterBset}

theorem Stores.hasPos {f : PackFormat} {words : KeyWords} {k : BkeyPacked}
    (h : Stores f words k) (hpacked : words.packed = true) : HasPos f k.pos words := by
  rcases h.form with ⟨hformat, hle⟩ | ⟨hformat, -⟩
  · obtain ⟨p, hp⟩ := exists_hasPos f hformat (h.u64s ▸ hle)
    have hpos := h.pos
    rw [KeyWords.unpackPos, if_pos hpacked, hp.unpackPos] at hpos
    exact Option.some.inj hpos ▸ hp
  · rw [KeyWords.packed, hformat] at hpacked
    exact absurd hpacked (by decide)

theorem Stores.u64s_bounds {f : PackFormat} {words : KeyWords} {k : BkeyPacked}
    (h : Stores f words k) : 0 < k.u64s ∧ k.u64s < 2 ^ 8 := by
  refine ⟨?_, h.u64s ▸ words.u64s.toNat_lt⟩
  rcases h.form with ⟨-, hle⟩ | ⟨-, hle⟩
  · exact f.keyU64s_pos.trans hle
  · exact (by decide : 0 < bkeyU64s).trans_le hle

namespace NodeWords.Holds

theorem u64s_bounds (h : b.Holds s) {k : BkeyPacked} (hk : k ∈ s.set.keys) :
    0 < k.u64s ∧ k.u64s < 2 ^ 8 := by
  obtain ⟨off, hoff⟩ := exists_mem_laid hk
  exact (h.keys _ hoff).u64s_bounds

theorem bsetKeys (h : b.Holds s) : ∃ keys, s.bsetKeys = some keys ∧
    keys.firstOffset = s.set.firstOffset ∧ keys.endOffset = s.set.endOffset ∧
    keys.lead = s.lead ∧ keys.keys = s.set.keys := by
  have hfits := h.fits
  rw [IterBset.bsetKeys, dif_pos ⟨fun k hk => (h.u64s_bounds hk).1,
    fun k hk => (h.u64s_bounds hk).2, hfits⟩]
  exact ⟨_, rfl, rfl, rfl, rfl, rfl⟩

/-- Keys further to the front have positions below. -/
theorem pos_le (h : b.Holds s) {x y : RankedKey} (hx : x ∈ s.laidKeys) (hy : y ∈ s.laidKeys)
    (hle : x.1 ≤ y.1) : x.2.pos ≤ y.2.pos := by
  rcases hle.lt_or_eq with hlt | heq
  · exact (rel_of_laid_lt h.sorted hx hy hlt).le
  · exact (congrArg (fun z => z.2.pos)
      (eq_of_mem_laid (fun k hk => (h.u64s_bounds hk).1) hx hy heq)).le

end NodeWords.Holds

end Words

/-! ### Slots that name keys -/

/-- Slots that name keys of a set in their order. -/
structure RoTable (s : IterBset) (t : RoAuxTree) : Prop where
  size_ge : 2 ≤ t.size
  size_le : t.size ≤ 2048
  extra_eq : t.extra = extra (t.size - 1)
  length : t.size ≤ t.floats.length
  named : ∀ n, 0 < n → n < t.size → ∃ x ∈ s.laidKeys, s.slotToBkey t n = some x.1
  mono : ∀ n m a c, 0 < n → n < t.size → 0 < m → m < t.size → s.slotToBkey t n = some a →
    s.slotToBkey t m = some c → inorder (t.size - 1) n ≤ inorder (t.size - 1) m → a ≤ c

section Slots

variable {b : NodeWords} {s : IterBset} {t t' : RoAuxTree} {n : ℕ}

/-- The keys that slots name are told by the entries for them. -/
theorem IterBset.slotToBkey_congr (hsize : t'.size = t.size) (hextra : t'.extra = t.extra)
    (hfloats : t'.floats.map BkeyFloat.keyOffset = t.floats.map BkeyFloat.keyOffset) :
    s.slotToBkey t' = s.slotToBkey t := by
  have hread : ∀ (t : RoAuxTree) (n cacheline : ℕ),
      (t.floats[n]?.bind fun f => some (s.cachelineToBkey cacheline f.keyOffset)) =
        (t.floats.map BkeyFloat.keyOffset)[n]?.map (s.cachelineToBkey cacheline) := by
    intro t n cacheline
    rw [List.getElem?_map, Option.map_map]
    rcases t.floats[n]? with _ | f <;> rfl
  funext n
  simp only [slotToBkey, Option.bind_eq_bind, Option.pure_def]
  rw [hsize, hextra]
  simp only [hread, hfloats]

theorem RoTable.congr (h : RoTable s t) (hsize : t'.size = t.size) (hextra : t'.extra = t.extra)
    (hfloats : t'.floats.map BkeyFloat.keyOffset = t.floats.map BkeyFloat.keyOffset) :
    RoTable s t' := by
  have hlength : t'.floats.length = t.floats.length := by
    have := congrArg List.length hfloats
    rwa [List.length_map, List.length_map] at this
  have hslot := IterBset.slotToBkey_congr (s := s) hsize hextra hfloats
  refine ⟨hsize ▸ h.size_ge, hsize ▸ h.size_le, ?_, ?_, ?_, ?_⟩
  · rw [hextra, hsize, h.extra_eq]
  · rw [hsize, hlength]
    exact h.length
  · rw [hslot, hsize]
    exact h.named
  · rw [hslot, hsize]
    exact h.mono

/-- Further cache lines have keys further behind. -/
theorem BsetKeys.keyBehind_mono {s : BsetKeys} {c c' : ℕ} {x y : RankedKey} (hle : c ≤ c')
    (hx : s.keyBehind c = some x) (hy : s.keyBehind c' = some y) : x.1 ≤ y.1 := by
  obtain ⟨-, front, back, hlaid, hfront⟩ := List.find?_eq_some_iff_append.mp hx
  have hline : c ≤ s.bkeyToCacheline y.1 := by
    rw [keyBehind] at hy
    exact hle.trans (by simpa using List.find?_some hy)
  have hmem := List.mem_of_find?_eq_some hy
  have hsorted : (laid BkeyPacked.u64s s.firstOffset s.keys).Pairwise fun x y => x.1 < y.1 :=
    laid_pairwise s.u64s_pos
  rw [hlaid] at hmem hsorted
  rcases List.mem_append.mp hmem with hmem | hmem
  · have := hfront y hmem
    simp [hline] at this
  · rcases List.mem_cons.mp hmem with rfl | hmem
    · exact le_rfl
    · exact (List.rel_of_pairwise_cons (List.pairwise_append.mp hsorted).2.1 hmem).le

/-- The first part of a build leaves slots that name keys in their order, or no table. -/
theorem NodeWords.Holds.roLoop (h : b.Holds s) {keys : BsetKeys} (hkeys : s.bsetKeys = some keys)
    {size : ℕ} {floats : List BkeyFloat} (hsize : size ≤ keys.bkeyToCacheline keys.endOffset)
    (hroom : size ≤ floats.length) :
    ∃ t, keys.roLoop size floats = some t ∧ (t.size = 0 ∨ RoTable s t) := by
  obtain ⟨keys', hkeys', hfirst, -, hlead, hsame⟩ := h.bsetKeys
  obtain rfl : keys' = keys := Option.some.inj (hkeys'.symm.trans hkeys)
  have hlines := keys'.bkeyToCacheline_endOffset_le
  obtain ⟨t, ht, hlength, hcases⟩ := keys'.roLoop_spec hsize hroom
  refine ⟨t, ht, hcases.imp_right fun ⟨hge, hle, hextra, hslots⟩ => ?_⟩
  have hnamed : ∀ n, 0 < n → n < t.size → ∃ x,
      keys'.keyBehind (inorder (t.size - 1) n) = some x ∧ s.slotToBkey t n = some x.1 := by
    intro n hn hlt
    obtain ⟨x, f, hx, hf, hwords⟩ := hslots n hn hlt
    have hmem := (mem_laid_bounds (List.mem_of_find?_eq_some hx)).1
    refine ⟨x, hx, ?_⟩
    rw [IterBset.slotToBkey, hextra, eytzinger1ToInorderExtra_eq hn (by omega) (by omega), hf]
    simp only [Option.bind_eq_bind, Option.bind_some, Option.pure_def, IterBset.cachelineToBkey,
      bsetCacheline, Option.some.injEq]
    rw [BsetKeys.wordsFromLine, hlead, hfirst] at hwords
    rw [hfirst] at hmem
    omega
  refine ⟨hge, by omega, hextra, by omega, fun n hn hlt => ?_,
    fun n m a c hn hlt hm hlt' ha hc hle => ?_⟩
  · obtain ⟨x, hx, hslot⟩ := hnamed n hn hlt
    refine ⟨x, ?_, hslot⟩
    rw [IterBset.laidKeys, ← hfirst, ← hsame]
    exact List.mem_of_find?_eq_some hx
  · obtain ⟨x, hx, hslot⟩ := hnamed n hn hlt
    obtain ⟨y, hy, hslot'⟩ := hnamed m hm hlt'
    rw [hslot] at ha
    rw [hslot'] at hc
    rw [← Option.some.inj ha, ← Option.some.inj hc]
    exact BsetKeys.keyBehind_mono hle hx hy

/-! ### Floats that tell the side -/

namespace NodeWords

/-- The position of the packed key that a slot names. -/
def SlotPos (b : NodeWords) (s : IterBset) (slot : ℕ → Option ℕ) (n : ℕ) (p : Bpos) : Prop :=
  ∃ x ∈ s.laidKeys, slot n = some x.1 ∧ x.2.pos = p ∧ HasPos b.format p (wordsAt b.data x.1)

/-- The position at a slot above, or at an end of the table. -/
def AncestorPos (b : NodeWords) (s : IterBset) (slot : ℕ → Option ℕ) (n : ℕ) (bound p : Bpos) :
    Prop :=
  (n = 0 ∧ p = bound ∧ ∃ words, HasPos b.format p words) ∨ n ≠ 0 ∧ b.SlotPos s slot n p

/-- A float that tells the side between the keys at the nearest slots above, if it is used. -/
def Told (b : NodeWords) (s : IterBset) (slot : ℕ → Option ℕ) (n : ℕ) (f : BkeyFloat) : Prop :=
  f.exponent < bfloatFailed → ∃ pl pm pr, b.AncestorPos s slot (leftAncestor n) b.minKey pl ∧
    b.SlotPos s slot n pm ∧ b.AncestorPos s slot (rightAncestor n) b.maxKey pr ∧
    b.Tells f pl pm pr

theorem boundKey_spec (b : NodeWords) (p : Bpos) :
    ∃ words, b.boundKey p = some words ∧ (words.packed = true → HasPos b.format p words) := by
  rw [boundKey]
  rcases bch2BkeyPackPos_cases b.format (fun _ => 0) p with ⟨words, hpack, hpacked⟩ | ⟨-, hpack⟩
  · rw [hpack]
    exact ⟨words, rfl, fun _ => hpacked.hasPos⟩
  · rw [hpack]
    have hunpacked : (bkeyInitAt p).packed = false := by
      have hformat : (bkeyInitAt p).format = keyFormatCurrent := by
        rw [KeyWords.format, show bkeyInitAt p 0 = 261 from rfl]
        decide
      rw [KeyWords.packed, hformat]
      decide
    exact ⟨_, rfl, fun h => absurd h (by rw [hunpacked]; decide)⟩

theorem isPowerOfTwo_iff {n : ℕ} (hn : 0 < n) : isPowerOfTwo n = true ↔ leftAncestor n = 0 := by
  rw [leftAncestor_eq_zero_iff hn, isPowerOfTwo, decide_eq_true_iff]
  exact ⟨fun h => h.2, fun h => ⟨hn.ne', h⟩⟩

theorem isPowerOfTwo_succ_iff {n : ℕ} (hn : 0 < n) :
    isPowerOfTwo (n + 1) = true ↔ rightAncestor n = 0 := by
  rw [rightAncestor_eq_zero_iff hn, isPowerOfTwo, decide_eq_true_iff]
  exact ⟨fun h => h.2, fun h => ⟨Nat.succ_ne_zero n, h⟩⟩

end NodeWords

/-- The key at a slot of a table. -/
theorem RoTable.slotPos (ht : RoTable s t) (h : b.Holds s) (hn : 0 < n) (hlt : n < t.size) :
    ∃ words, (s.slotToBkey t n).map (wordsAt b.data) = some words ∧
      (words.packed = true → ∃ p, b.SlotPos s (s.slotToBkey t) n p ∧ HasPos b.format p words) := by
  obtain ⟨x, hx, hslot⟩ := ht.named n hn hlt
  refine ⟨wordsAt b.data x.1, by rw [hslot]; rfl, fun hpacked => ?_⟩
  have hpos := (h.keys x hx).hasPos hpacked
  exact ⟨x.2.pos, ⟨x, hx, hslot, rfl, hpos⟩, hpos⟩

theorem RoTable.slotBefore (ht : RoTable s t) (h : b.Holds s) (hn : 0 < n) (hlt : n < t.size)
    {minKey : KeyWords} (hmin : minKey.packed = true → HasPos b.format b.minKey minKey) :
    ∃ words, b.slotBefore s t n minKey = some words ∧ (words.packed = true →
      ∃ p, b.AncestorPos s (s.slotToBkey t) (leftAncestor n) b.minKey p ∧
        HasPos b.format p words) := by
  have hle := ht.size_le
  rw [NodeWords.slotBefore, U32.div_trailingZerosOf 64 n hn (by omega)]
  by_cases hzero : leftAncestor n = 0
  · rw [if_pos ((NodeWords.isPowerOfTwo_iff hn).mpr hzero)]
    exact ⟨minKey, rfl, fun hpacked =>
      ⟨b.minKey, Or.inl ⟨hzero, rfl, minKey, hmin hpacked⟩, hmin hpacked⟩⟩
  · have hanc := (@inorder_leftAncestor (t.size - 1) n hn (by omega) hzero).1
    rw [if_neg (mt (NodeWords.isPowerOfTwo_iff hn).mp hzero)]
    obtain ⟨words, hwords, hpos⟩ := ht.slotPos h (Nat.pos_of_ne_zero hzero) (by omega)
    exact ⟨words, hwords, fun hpacked =>
      (hpos hpacked).imp fun p hp => ⟨Or.inr ⟨hzero, hp.1⟩, hp.2⟩⟩

theorem RoTable.slotBehind (ht : RoTable s t) (h : b.Holds s) (hn : 0 < n) (hlt : n < t.size)
    {maxKey : KeyWords} (hmax : maxKey.packed = true → HasPos b.format b.maxKey maxKey) :
    ∃ words, b.slotBehind s t n maxKey = some words ∧ (words.packed = true →
      ∃ p, b.AncestorPos s (s.slotToBkey t) (rightAncestor n) b.maxKey p ∧
        HasPos b.format p words) := by
  have hle := ht.size_le
  rw [NodeWords.slotBehind, U32.div_trailingOnesOf 64 n (by omega)]
  by_cases hzero : rightAncestor n = 0
  · rw [if_pos ((NodeWords.isPowerOfTwo_succ_iff hn).mpr hzero)]
    exact ⟨maxKey, rfl, fun hpacked =>
      ⟨b.maxKey, Or.inl ⟨hzero, rfl, maxKey, hmax hpacked⟩, hmax hpacked⟩⟩
  · have hanc := (@inorder_rightAncestor (t.size - 1) n hn (by omega) hzero).1
    rw [if_neg (mt (NodeWords.isPowerOfTwo_succ_iff hn).mp hzero)]
    obtain ⟨words, hwords, hpos⟩ := ht.slotPos h (Nat.pos_of_ne_zero hzero) (by omega)
    exact ⟨words, hwords, fun hpacked =>
      (hpos hpacked).imp fun p hp => ⟨Or.inr ⟨hzero, hp.1⟩, hp.2⟩⟩

/-- The positions at the nearest slots above are on either side. -/
theorem RoTable.between (ht : RoTable s t) (h : b.Holds s) (hcovers : b.Covers s) (hn : 0 < n)
    (hlt : n < t.size)
    {pl pm pr : Bpos} (hl : b.AncestorPos s (s.slotToBkey t) (leftAncestor n) b.minKey pl)
    (hm : b.SlotPos s (s.slotToBkey t) n pm)
    (hr : b.AncestorPos s (s.slotToBkey t) (rightAncestor n) b.maxKey pr) : pl ≤ pm ∧ pm ≤ pr := by
  have hle := ht.size_ge
  obtain ⟨x, hx, hslot, rfl, -⟩ := hm
  have hin := hcovers x.2 (mem_of_mem_laid hx)
  constructor
  · rcases hl with ⟨-, rfl, -⟩ | ⟨hzero, y, hy, hslot', rfl, -⟩
    · exact hin.1
    · obtain ⟨hanc, hplace⟩ := @inorder_leftAncestor (t.size - 1) n hn (by omega) hzero
      exact h.pos_le hy hx (ht.mono _ _ _ _ (Nat.pos_of_ne_zero hzero) (by omega) hn hlt hslot'
        hslot hplace.le)
  · rcases hr with ⟨-, rfl, -⟩ | ⟨hzero, y, hy, hslot', rfl, -⟩
    · exact hin.2
    · obtain ⟨hanc, hplace⟩ := @inorder_rightAncestor (t.size - 1) n hn (by omega) hzero
      exact h.pos_le hx hy (ht.mono _ _ _ _ hn hlt (Nat.pos_of_ne_zero hzero) (by omega) hslot
        hslot' hplace.le)

/-- The float of a slot is made, and it tells the side. -/
theorem RoTable.makeBfloat (ht : RoTable s t) (h : b.Holds s) (hcovers : b.Covers s) (hn : 0 < n)
    (hlt : n < t.size)
    {minKey maxKey : KeyWords} (hmin : minKey.packed = true → HasPos b.format b.minKey minKey)
    (hmax : maxKey.packed = true → HasPos b.format b.maxKey maxKey) :
    ∃ f f', t.floats[n]? = some f ∧ f'.keyOffset = f.keyOffset ∧
      b.makeBfloat s minKey maxKey t n = some { t with floats := t.floats.set n f' } ∧
      b.Told s (s.slotToBkey t) n f' := by
  obtain ⟨m, hm, hmpos⟩ := ht.slotPos h hn hlt
  obtain ⟨l, hl, hlpos⟩ := ht.slotBefore h hn hlt hmin
  obtain ⟨r, hr, hrpos⟩ := ht.slotBehind h hn hlt hmax
  have hroom := hlt.trans_le ht.length
  have hf : t.floats[n]? = some t.floats[n] := List.getElem?_eq_getElem hroom
  rw [NodeWords.makeBfloat, hm, hl, hr, hf]
  simp only [Option.bind_eq_bind, Option.bind_some]
  by_cases hpart : (!l.packed || !r.packed || !m.packed || b.nrKeyBits == 0) = true
  · rw [if_pos hpart]
    exact ⟨_, { t.floats[n] with exponent := bfloatFailedUnpacked }, rfl, rfl, rfl,
      fun hsmall => absurd hsmall (lt_irrefl _)⟩
  · rw [if_neg hpart]
    simp only [Bool.or_eq_true, Bool.not_eq_true', beq_iff_eq, not_or, Bool.not_eq_false] at hpart
    obtain ⟨⟨⟨hlp, hrp⟩, hmp⟩, hbits⟩ := hpart
    obtain ⟨pl, hpl, hlhas⟩ := hlpos hlp
    obtain ⟨pm, hpm, hmhas⟩ := hmpos hmp
    obtain ⟨pr, hpr, hrhas⟩ := hrpos hrp
    obtain ⟨hlm, hmr⟩ := ht.between h hcovers hn hlt hpl hpm hpr
    obtain ⟨f', hf', hoffset, htells⟩ :=
      NodeWords.bfloatFor_spec hlhas hmhas hrhas hlm hmr hbits t.floats[n]
    rw [hf']
    exact ⟨_, f', rfl, hoffset, rfl, fun _ => ⟨pl, pm, pr, hpl, hpm, hpr, htells⟩⟩

/-- The floats of several slots. -/
theorem RoTable.makeBfloats (ht : RoTable s t) (h : b.Holds s) (hcovers : b.Covers s)
    {slots : List ℕ}
    (hslots : ∀ n ∈ slots, 0 < n ∧ n < t.size) (hnodup : slots.Nodup) {minKey maxKey : KeyWords}
    (hmin : minKey.packed = true → HasPos b.format b.minKey minKey)
    (hmax : maxKey.packed = true → HasPos b.format b.maxKey maxKey) :
    ∃ t', slots.foldlM (b.makeBfloat s minKey maxKey) t = some t' ∧ t'.size = t.size ∧
      t'.extra = t.extra ∧
      t'.floats.map BkeyFloat.keyOffset = t.floats.map BkeyFloat.keyOffset ∧
      (∀ n ∉ slots, t'.floats[n]? = t.floats[n]?) ∧
      ∀ n ∈ slots, ∃ f, t'.floats[n]? = some f ∧ b.Told s (s.slotToBkey t) n f := by
  induction slots generalizing t with
  | nil => exact ⟨t, rfl, rfl, rfl, rfl, fun _ _ => rfl, by simp⟩
  | cons n slots ih =>
    obtain ⟨hn, hlt⟩ := hslots n List.mem_cons_self
    obtain ⟨hnotin, hrest⟩ := List.nodup_cons.mp hnodup
    obtain ⟨f, f', hf, hoffset, hmake, htold⟩ := ht.makeBfloat h hcovers hn hlt hmin hmax
    obtain ⟨hroom, hget⟩ := List.getElem?_eq_some_iff.mp hf
    have hfloats : (t.floats.set n f').map BkeyFloat.keyOffset =
        t.floats.map BkeyFloat.keyOffset := by
      rw [List.map_set, hoffset, ← hget, ← List.getElem_map BkeyFloat.keyOffset (h := by simpa)]
      exact List.set_getElem_self _
    have hslot : s.slotToBkey { t with floats := t.floats.set n f' } = s.slotToBkey t :=
      IterBset.slotToBkey_congr rfl rfl hfloats
    obtain ⟨t', hfold, hsize, hextra, hsame, hother, htold'⟩ :=
      ih (t := { t with floats := t.floats.set n f' }) (ht.congr rfl rfl hfloats)
        (fun m hm => hslots m (List.mem_cons_of_mem n hm)) hrest
    refine ⟨t', ?_, hsize, hextra, hsame.trans hfloats, fun m hm => ?_, fun m hm => ?_⟩
    · rw [List.foldlM_cons, hmake]
      exact hfold
    · have hne : n ≠ m := fun heq => hm (heq ▸ List.mem_cons_self)
      rw [hother m fun hmem => hm (List.mem_cons_of_mem n hmem)]
      exact List.getElem?_set_ne hne
    · rcases List.mem_cons.mp hm with rfl | hm
      · exact ⟨f', by rw [hother m hnotin, List.getElem?_set_self hroom], htold⟩
      · obtain ⟨g, hg, htold⟩ := htold' m hm
        exact ⟨g, hg, hslot ▸ htold⟩

/-- A table that a build leaves behind. -/
structure NodeWords.Built (b : NodeWords) (s : IterBset) (t : RoAuxTree) : Prop where
  table : RoTable s t
  told : ∀ n f, 0 < n → n < t.size → t.floats[n]? = some f → b.Told s (s.slotToBkey t) n f

/-- What is said of a table does not depend on the one beside the set. -/
theorem NodeWords.Built.withAux (h : b.Built s t) (aux : IterAux) : b.Built { s with aux } t :=
  ⟨⟨h.table.size_ge, h.table.size_le, h.table.extra_eq, h.table.length, h.table.named,
    h.table.mono⟩, h.told⟩

theorem NodeWords.Holds.withAux (h : b.Holds s) (aux : IterAux) : b.Holds { s with aux } :=
  ⟨h.keys, h.sorted, h.fits⟩

/-- A build comes to its end, with a table whose floats tell the side, or with none. -/
theorem NodeWords.Holds.buildRoAuxTree (h : b.Holds s) (hcovers : b.Covers s)
    (stale : List BkeyFloat) :
    ∃ aux, b.buildRoAuxTree s stale = some aux ∧
      (aux = .noAux ∨ ∃ t, aux = .ro t ∧ b.Built s t) := by
  obtain ⟨keys, hkeys, -⟩ := h.bsetKeys
  have hmod : ∀ n, n % 2 ^ 16 ≤ n := fun n => Nat.mod_le n _
  obtain ⟨t, ht, hcases⟩ := h.roLoop hkeys ((hmod _).trans (Nat.min_le_left _ stale.length))
    ((hmod _).trans (Nat.min_le_right _ _))
  rw [NodeWords.buildRoAuxTree, hkeys]
  simp only [Option.bind_eq_bind, Option.bind_some]
  rw [ht, Option.bind_some]
  rcases hcases with hzero | htable
  · rw [if_pos (by omega)]
    exact ⟨.noAux, rfl, Or.inl rfl⟩
  have hge := htable.size_ge
  have hle := htable.size_le
  obtain ⟨minKey, hminKey, hmin⟩ := b.boundKey_spec b.minKey
  obtain ⟨maxKey, hmaxKey, hmax⟩ := b.boundKey_spec b.maxKey
  have hslots : ∀ n ∈ slotsInOrder (t.size - 1), 0 < n ∧ n < t.size := fun n hn => by
    have := mem_slotsInOrder.mp hn
    omega
  obtain ⟨t', hfold, hsize, hextra, hsame, -, htold⟩ :=
    htable.makeBfloats h hcovers hslots (slotsInOrder_nodup _) hmin hmax
  rw [if_neg (by omega), hminKey, hmaxKey, BsetKeys.treeSlots_eq (by omega) (by omega)]
  simp only [Option.bind_some]
  rw [hfold]
  refine ⟨.ro t', rfl, Or.inr ⟨t', rfl, htable.congr hsize hextra hsame, fun n f hn hlt hf => ?_⟩⟩
  obtain ⟨g, hg, htold⟩ := htold n (mem_slotsInOrder.mpr (by omega))
  obtain rfl : g = f := Option.some.inj (hg.symm.trans hf)
  rwa [IterBset.slotToBkey_congr hsize hextra hsame]

end Slots

end Subvol

import Mathlib.Data.Set.Lattice
import Mathlib.Order.CompletePartialOrder
import Mathlib.Order.Interval.Set.Disjoint
import Subvol.Btree.AuxTree
import Subvol.Btree.RwAuxRun

/-!
# Runs of builds on the tables of a node

The regions that the sets of a node have in its buffer of tables, along every run of builds. The
sets with a region are the first ones, each region starts at the first cache line behind the one
before, and the buffer is a number of cache lines, so that also a start that is rounded up is in
it. A build gives up the tables of the sets behind before it writes.

## Main definitions

* `AuxNode.AuxOk`: the invariant.
* `AuxNode.AuxStep`: a build, sets that are merged, a table that is patched, buffers that grow.

## Main results

* `AuxNode.AuxOk.bch2BsetBuildAuxTree_cases`: what a build does to a set.
* `AuxNode.AuxStep.auxOk`: every step keeps the invariant.
* `AuxNode.aux_regions_apart`: the regions are disjoint and in the buffer, capacities do not
  underflow, a build writes to no other region, and `bch2_btree_build_aux_trees` comes to its end.
-/

namespace Subvol

open Lib

/-! ### The loops of a build -/

/-- `build_rw_aux_tree` takes no more entries than there is room for, and at most one for a key. -/
theorem buildLoop_length {capacity off : ℕ} {tree : List RwAuxTree} {ks : List BkeyPacked}
    (hcap : tree.length ≤ capacity) :
    (buildLoop capacity tree off ks).length ≤ capacity ∧
      tree.length ≤ (buildLoop capacity tree off ks).length ∧
      (buildLoop capacity tree off ks).length ≤ tree.length + ks.length := by
  induction ks generalizing tree off with
  | nil => simpa [buildLoop] using hcap
  | cons k ks ih =>
    rw [buildLoop, List.length_cons]
    split_ifs with hfull
    · omega
    · dsimp only
      split_ifs with hfar
      · have hroom : (tree ++ [RwAuxTree.mk off k.pos]).length ≤ capacity := by
          rw [List.length_append, List.length_singleton]
          omega
        obtain ⟨hle, hge, hadd⟩ := @ih (off + k.u64s) _ hroom
        rw [List.length_append, List.length_singleton] at hge hadd
        omega
      · obtain ⟨hle, hge, hadd⟩ := @ih (off + k.u64s) _ hcap
        omega

namespace BsetKeys

variable {s : BsetKeys} {cacheline off : ℕ} {ks : List BkeyPacked}

theorem bkeyToCacheline_eq (s : BsetKeys) (off : ℕ) :
    s.bkeyToCacheline off = s.wordsFromLine off / 32 := by
  have hwords : s.wordsFromLine off * 8 / bsetCacheline =
      s.wordsFromLine off / (bsetCacheline / 8) := by
    rw [bsetCacheline]
    omega
  exact hwords

/-- A set has at most `2048` cache lines. -/
theorem bkeyToCacheline_endOffset_le (s : BsetKeys) : s.bkeyToCacheline s.endOffset ≤ 2048 := by
  have hlead := s.lead.isLt
  have hfits := s.fits
  rw [bkeyToCacheline_eq, wordsFromLine, endOffset, firstOffset]
  omega

/-- The key that the loop of `build_ro_aux_tree` is at: the keys left go to the end of the set, and
the key starts less than a key behind the start of the cache line. -/
structure LoopAt (s : BsetKeys) (cacheline off : ℕ) (ks : List BkeyPacked) : Prop where
  end_eq : off + total BkeyPacked.u64s ks = s.endOffset
  first_le : s.firstOffset ≤ off
  u64s_lt : ∀ k ∈ ks, k.u64s < 2 ^ 8
  near : s.wordsFromLine off < 32 * cacheline + 255

/-- The end of the set stops the search for a key behind a cache line that is not behind it. -/
theorem skipKeys_spec (hat : s.LoopAt cacheline off ks)
    (hline : cacheline ≤ s.bkeyToCacheline s.endOffset) :
    ∃ off' ks', s.skipKeys cacheline off ks = some (off', ks') ∧ s.LoopAt cacheline off' ks' ∧
      cacheline ≤ s.bkeyToCacheline off' := by
  induction ks generalizing off with
  | nil =>
    have hoff : off = s.endOffset := hat.end_eq
    rw [← hoff] at hline
    exact ⟨off, [], by rw [skipKeys, if_neg (by omega)], hat, hline⟩
  | cons k ks ih =>
    rw [skipKeys]
    split_ifs with hbefore
    · have hk := hat.u64s_lt k List.mem_cons_self
      rw [bkeyToCacheline_eq, wordsFromLine] at hbefore
      have hfirst := hat.first_le
      refine ih ⟨?_, by omega, fun k' hk' => hat.u64s_lt k' (List.mem_cons_of_mem k hk'), ?_⟩
      · rw [← hat.end_eq, total_cons, Nat.add_assoc]
      · rw [wordsFromLine]
        omega
    · exact ⟨off, k :: ks, rfl, hat, by omega⟩

theorem bkeyToCachelineOffset_isSome (hat : s.LoopAt cacheline off ks)
    (hline : cacheline ≤ s.bkeyToCacheline off) :
    ∃ offset, s.bkeyToCachelineOffset cacheline off = some offset := by
  have hnear := hat.near
  rw [bkeyToCacheline_eq] at hline
  have hle : cacheline * bsetCacheline ≤ s.wordsFromLine off * 8 := by
    rw [bsetCacheline]
    omega
  have hlt : (s.wordsFromLine off * 8 - cacheline * bsetCacheline) / 8 < 2 ^ 8 := by
    rw [bsetCacheline]
    omega
  refine ⟨(s.wordsFromLine off * 8 - cacheline * bsetCacheline) / 8, ?_⟩
  rw [bkeyToCachelineOffset, if_pos hle]
  exact if_pos hlt

/-- The loop over the slots does not leave the set while there are more cache lines than slots. -/
theorem fillSlots_spec {slots : List ℕ} (hat : s.LoopAt cacheline off ks)
    (hline : cacheline + slots.length ≤ s.bkeyToCacheline s.endOffset) :
    ∃ full written, s.fillSlots cacheline off ks slots = some (full, written) ∧
      ∀ j ∈ written, j ∈ slots := by
  induction slots generalizing cacheline off ks with
  | nil => exact ⟨true, [], rfl, fun j hj => hj⟩
  | cons j slots ih =>
    rw [List.length_cons] at hline
    obtain ⟨off', ks', hskip, hat', hline'⟩ := skipKeys_spec hat (by omega)
    rw [fillSlots, hskip, Option.bind_eq_bind, Option.bind_some]
    dsimp only
    split_ifs with hnil
    · exact ⟨false, [], rfl, fun j hj => absurd hj List.not_mem_nil⟩
    · obtain ⟨offset, hoffset⟩ := bkeyToCachelineOffset_isSome hat' hline'
      have hnear := hat'.near
      have hnext : s.LoopAt (cacheline + 1) off' ks' :=
        ⟨hat'.end_eq, hat'.first_le, hat'.u64s_lt, by omega⟩
      obtain ⟨full, written, hfill, hmem⟩ := ih hnext (by omega)
      refine ⟨full, j :: written, ?_, fun i hi => ?_⟩
      · rw [hoffset, hfill]
        rfl
      · rcases List.mem_cons.mp hi with rfl | hi
        · exact List.mem_cons_self
        · exact List.mem_cons_of_mem j (hmem i hi)

/-- A smaller table is tried until there is a key for every slot; every slot that is written is one
of the first table tried. -/
theorem buildRoLoop_spec {size : ℕ} (hsize : size ≤ s.bkeyToCacheline s.endOffset) :
    ∃ size' extra slots, s.buildRoLoop size = some (size', extra, slots) ∧ size' ≤ size ∧
      extra ≠ bsetRwAuxTreeVal ∧ (extra = bsetNoAuxTreeVal ↔ size' = 0) ∧
      ∀ j ∈ slots, j < size := by
  have hlines := s.bkeyToCacheline_endOffset_le
  induction size using buildRoLoop.induct with
  | case1 => exact ⟨0, bsetNoAuxTreeVal, [], rfl, le_refl 0, by decide, by simp, by simp⟩
  | case2 => exact ⟨0, bsetNoAuxTreeVal, [], rfl, Nat.zero_le 1, by decide, by simp, by simp⟩
  | case3 size ih =>
    have hslots : treeSlots (size + 1) = some (slotsInOrder (size + 1)) :=
      walk_next (Nat.succ_pos size) (by omega)
    have hlength : (slotsInOrder (size + 1)).length = size + 1 := by
      rw [slotsInOrder, List.length_map, List.length_range']
    have hlt (j : ℕ) (hj : j ∈ slotsInOrder (size + 1)) : j < size + 2 := by
      have := (mem_slotsInOrder.mp hj).2
      omega
    have hat : s.LoopAt 1 s.firstOffset s.keys :=
      ⟨rfl, le_refl _, s.u64s_lt, by have := s.lead.isLt; rw [wordsFromLine]; omega⟩
    obtain ⟨full, written, hfill, hmem⟩ := fillSlots_spec hat (by rw [hlength]; omega)
    have hextra : eytzinger1Extra (size + 1) = some (ArrayTree.extra (size + 1)) :=
      eytzinger1Extra_eq (Nat.succ_pos size) (by omega)
    rw [buildRoLoop, hextra, hslots]
    simp only [Option.bind_eq_bind, Option.bind_some]
    rw [hfill, Option.bind_some]
    dsimp only
    split_ifs
    · have hlt' : ArrayTree.extra (size + 1) % 2 ^ 16 < bsetRwAuxTreeVal := by
        have hmod := Nat.mod_le (ArrayTree.extra (size + 1)) (2 ^ 16)
        have hsub : ArrayTree.extra (size + 1) ≤ (size + 2) * 2 :=
          Nat.mul_le_mul_right 2 (Nat.sub_le (size + 1 + 1) _)
        have hval : bsetRwAuxTreeVal = 65534 := rfl
        omega
      have hno : bsetRwAuxTreeVal < bsetNoAuxTreeVal := by decide
      refine ⟨size + 2, ArrayTree.extra (size + 1) % 2 ^ 16, written ++ slotsInOrder (size + 1),
        rfl, le_refl _, by omega, by omega, fun j hj => ?_⟩
      rcases List.mem_append.mp hj with hj | hj
      · exact hlt j (hmem j hj)
      · exact hlt j hj
    · obtain ⟨size', extra, slots, hbuild, hle, hrw, hnone, hmem'⟩ := ih (by omega)
      refine ⟨size', extra, written ++ slots, by rw [hbuild]; rfl, by omega, hrw, hnone, ?_⟩
      intro j hj
      rcases List.mem_append.mp hj with hj | hj
      · exact hlt j (hmem j hj)
      · have := hmem' j hj
        omega

end BsetKeys

/-! ### Sets and their regions -/

/-- A number of words rounded up to cache lines. -/
def lineUp (words : ℕ) : ℕ := (words + 7) / 8 * 8

theorem le_lineUp (words : ℕ) : words ≤ lineUp words := by
  rw [lineUp]
  omega

theorem lineUp_mod (words : ℕ) : lineUp words % 8 = 0 := Nat.mul_mod_left _ _

theorem lineUp_le {words bound : ℕ} (hle : words ≤ bound) (hbound : bound % 8 = 0) :
    lineUp words ≤ bound := by
  rw [lineUp]
  omega

namespace BsetTree

/-- The kind of a table. -/
def kind (t : BsetTree) : BsetAuxTreeType :=
  if t.extra = bsetNoAuxTreeVal then .noAuxTree
  else if t.extra = bsetRwAuxTreeVal then .rwAuxTree
  else .roAuxTree

/-- The words of a table. -/
def words (t : BsetTree) : ℕ :=
  match t.kind with
  | .noAuxTree => 0
  | .roAuxTree => (t.size * bkeyFloatBytes + 7) / 8
  | .rwAuxTree => (rwAuxTreeBytes * t.size + 7) / 8

/-- Where the region of a set stops. -/
def stop (t : BsetTree) : ℕ := t.auxDataOffset + t.words

/-- A place in the buffer was given to the set. -/
def Allocated (t : BsetTree) : Prop := t.auxDataOffset ≠ 65535

instance (t : BsetTree) : Decidable t.Allocated := inferInstanceAs (Decidable (_ ≠ _))

/-- Size and kind go together, and a table to search in has an entry for a cache line of a set. -/
structure Typed (t : BsetTree) : Prop where
  size_lt : t.size < 2 ^ 16
  offset_lt : t.auxDataOffset < 2 ^ 16
  none_iff : t.extra = bsetNoAuxTreeVal ↔ t.size = 0
  ro_le : t.kind = .roAuxTree → t.size ≤ 2048

variable {t : BsetTree}

theorem unallocated_typed : unallocated.Typed :=
  ⟨by decide, by decide, by decide, by decide⟩

theorem Typed.bsetAuxTreeType_eq (h : t.Typed) : t.bsetAuxTreeType = some t.kind := by
  have hnone := h.none_iff
  rw [bsetAuxTreeType, kind]
  split_ifs <;> first | rfl | tauto

theorem Typed.bsetAuxTreeBufEnd_eq (h : t.Typed) : t.bsetAuxTreeBufEnd = some t.stop := by
  rw [bsetAuxTreeBufEnd, h.bsetAuxTreeType_eq, stop, words]
  cases t.kind <;> rfl

theorem Typed.stop_lt (h : t.Typed) : t.stop < 2 ^ 19 - 7 := by
  have hsize := h.size_lt
  have hoffset := h.offset_lt
  rw [stop, words]
  cases t.kind <;> simp only [bkeyFloatBytes, rwAuxTreeBytes] <;> omega

/-- Without a table to write to, a region has at most `1024` words. -/
theorem Typed.stop_le (h : t.Typed) (hkind : t.kind ≠ .rwAuxTree) :
    t.stop ≤ t.auxDataOffset + 1024 := by
  have hro := h.ro_le
  rw [stop, words]
  cases hk : t.kind with
  | noAuxTree => exact Nat.le_add_right _ _
  | roAuxTree =>
    have hsize := hro hk
    simp only [bkeyFloatBytes]
    omega
  | rwAuxTree => exact absurd hk hkind

theorem allocated_of_mod (h : t.auxDataOffset % 8 = 0) : t.Allocated := by
  rw [Allocated]
  omega

end BsetTree

/-! ### One build -/

namespace AuxNode

variable {b b' : AuxNode} {i j : Fin 3} {s : BsetKeys}

/-- The words of the buffer of tables. -/
def bufWords (b : AuxNode) : ℕ := 2 ^ b.byteOrder / bsetCacheline

theorem bufWords_mod (h : 11 ≤ b.byteOrder) : b.bufWords % 8 = 0 := by
  obtain ⟨n, hn⟩ := Nat.exists_eq_add_of_le h
  have hpow : 2 ^ (11 + n) = bsetCacheline * (8 * 2 ^ n) := by
    rw [pow_add, ← Nat.mul_assoc]
    rfl
  rw [bufWords, hn, hpow, Nat.mul_div_cancel_left _ (by decide), Nat.mul_mod_right]

theorem lt_of_succ_lt {i : ℕ} (h : i + 1 < 3) : i < 3 := by omega

/-- Where the region of the set before stops. -/
def start (b : AuxNode) : Fin 3 → ℕ
  | ⟨0, _⟩ => 0
  | ⟨i + 1, h⟩ => (b.set ⟨i, lt_of_succ_lt h⟩).stop

/-- The sets that have a place are the first ones; each starts behind the one before, at a cache
line, and stops inside the buffer. -/
structure AuxOk (b : AuxNode) : Prop where
  unpackFnLen : b.unpackFnLen = 0
  byteOrder : 11 ≤ b.byteOrder
  typed : ∀ i, (b.set i).Typed
  free : ∀ i, ¬(b.set i).Allocated → b.set i = .unallocated
  before : ∀ i j, j < i → (b.set i).Allocated → (b.set j).Allocated
  offset_eq : ∀ i, (b.set i).Allocated → (b.set i).auxDataOffset = lineUp (b.start i)
  stop_le : ∀ i, (b.set i).Allocated → (b.set i).stop ≤ b.bufWords

theorem init_auxOk {byteOrder : ℕ} (h : 11 ≤ byteOrder) : AuxOk (init byteOrder) where
  unpackFnLen := rfl
  byteOrder := h
  typed _ := BsetTree.unallocated_typed
  free _ _ := rfl
  before _ _ _ halloc := absurd rfl halloc
  offset_eq _ halloc := absurd rfl halloc
  stop_le _ halloc := absurd rfl halloc

namespace AuxOk

theorem bsetAuxTreeBufStart_eq (h : AuxOk b) (i : Fin 3) :
    b.bsetAuxTreeBufStart i = some (b.start i) := by
  obtain ⟨_ | i, hi⟩ := i
  · rw [bsetAuxTreeBufStart, h.unpackFnLen]
    rfl
  · exact (h.typed ⟨i, by omega⟩).bsetAuxTreeBufEnd_eq

theorem start_le (h : AuxOk b) (hbefore : ∀ j < i, (b.set j).Allocated) :
    b.start i ≤ b.bufWords := by
  obtain ⟨_ | i, hi⟩ := i
  · exact Nat.zero_le _
  · exact h.stop_le ⟨i, by omega⟩ (hbefore ⟨i, by omega⟩ (Nat.lt_succ_self i))

theorem start_lt (h : AuxOk b) (i : Fin 3) : b.start i < 2 ^ 19 - 7 := by
  obtain ⟨_ | i, hi⟩ := i
  · exact Nat.zero_lt_succ _
  · exact (h.typed ⟨i, by omega⟩).stop_lt

/-- The regions lie one behind the other. -/
theorem stop_le_offset (h : AuxOk b) (hij : i < j) (halloc : (b.set j).Allocated) :
    (b.set i).stop ≤ (b.set j).auxDataOffset := by
  obtain ⟨j, hj⟩ := j
  induction j with
  | zero => exact absurd hij (Nat.not_lt_zero _)
  | succ j ih =>
    have hstart : (b.set ⟨j, by omega⟩).stop ≤ (b.set ⟨j + 1, hj⟩).auxDataOffset := by
      rw [h.offset_eq _ halloc]
      exact le_lineUp _
    rcases Nat.lt_succ_iff_lt_or_eq.mp (show i.val < j + 1 from hij) with hlt | heq
    · have hj' := h.before ⟨j + 1, hj⟩ ⟨j, by omega⟩ (Nat.lt_succ_self j) halloc
      have hstop := ih (by omega) hlt hj'
      have hwords : (b.set ⟨j, by omega⟩).auxDataOffset ≤ (b.set ⟨j, by omega⟩).stop :=
        Nat.le_add_right _ _
      omega
    · have hi : i = ⟨j, by omega⟩ := Fin.ext heq
      rw [hi]
      exact hstart

end AuxOk

theorem setNoAuxTree_set_of_lt (h : j < i) : (b.bch2BsetSetNoAuxTree i).set j = b.set j :=
  if_neg (not_le.mpr h)

theorem setNoAuxTree_set_of_le (h : i ≤ j) : (b.bch2BsetSetNoAuxTree i).set j = .unallocated :=
  if_pos h

theorem setNoAuxTree_start (h : j ≤ i) : (b.bch2BsetSetNoAuxTree i).start j = b.start j := by
  obtain ⟨_ | j, hj⟩ := j
  · rfl
  · exact congrArg BsetTree.stop (setNoAuxTree_set_of_lt (Nat.lt_of_succ_le h))

@[simp] theorem setTree_set_self (t : BsetTree) : (b.setTree i t).set i = t := by
  rw [setTree]
  exact Function.update_self i t b.set

theorem setTree_set_of_ne (t : BsetTree) (h : j ≠ i) : (b.setTree i t).set j = b.set j := by
  rw [setTree]
  exact Function.update_of_ne h t b.set

theorem setTree_start (t : BsetTree) (h : j ≤ i) : (b.setTree i t).start j = b.start j := by
  obtain ⟨_ | j, hj⟩ := j
  · rfl
  · have hlt : (⟨j, by omega⟩ : Fin 3) < i := Nat.lt_of_succ_le h
    exact congrArg BsetTree.stop (setTree_set_of_ne t hlt.ne)

/-- What a set may become: a place behind the set before, and a table that stops in the buffer. -/
structure Placed (b : AuxNode) (i : Fin 3) (t : BsetTree) : Prop where
  typed : t.Typed
  offset_eq : t.auxDataOffset = lineUp (b.start i)
  stop_le : t.stop ≤ b.bufWords

theorem Placed.allocated {t : BsetTree} (h : Placed b i t) : t.Allocated :=
  BsetTree.allocated_of_mod (h.offset_eq ▸ lineUp_mod _)

namespace AuxOk

theorem setNoAuxTree (h : AuxOk b) (i : Fin 3) : AuxOk (b.bch2BsetSetNoAuxTree i) := by
  have hcases (j : Fin 3) : (j < i ∧ (b.bch2BsetSetNoAuxTree i).set j = b.set j) ∨
      (i ≤ j ∧ (b.bch2BsetSetNoAuxTree i).set j = .unallocated) :=
    (lt_or_ge j i).imp (fun hlt => ⟨hlt, setNoAuxTree_set_of_lt hlt⟩)
      fun hge => ⟨hge, setNoAuxTree_set_of_le hge⟩
  refine ⟨h.unpackFnLen, h.byteOrder, fun j => ?_, fun j hfree => ?_, fun j k hlt halloc => ?_,
    fun j halloc => ?_, fun j halloc => ?_⟩
  · rcases hcases j with ⟨-, hj⟩ | ⟨-, hj⟩ <;> rw [hj]
    · exact h.typed j
    · exact BsetTree.unallocated_typed
  · rcases hcases j with ⟨-, hj⟩ | ⟨-, hj⟩ <;> rw [hj] at hfree ⊢
    exact h.free j hfree
  · rcases hcases j with ⟨hji, hj⟩ | ⟨-, hj⟩ <;> rw [hj] at halloc
    · rw [setNoAuxTree_set_of_lt (hlt.trans hji)]
      exact h.before j k hlt halloc
    · exact absurd rfl halloc
  · rcases hcases j with ⟨hji, hj⟩ | ⟨-, hj⟩ <;> rw [hj] at halloc ⊢
    · rw [setNoAuxTree_start hji.le]
      exact h.offset_eq j halloc
    · exact absurd rfl halloc
  · rcases hcases j with ⟨-, hj⟩ | ⟨-, hj⟩ <;> rw [hj] at halloc ⊢
    · exact h.stop_le j halloc
    · exact absurd rfl halloc

/-- The last set with a place may change. -/
theorem setTree {t : BsetTree} (h : AuxOk b) (hbefore : ∀ j < i, (b.set j).Allocated)
    (hlast : ∀ j, i < j → ¬(b.set j).Allocated) (ht : Placed b i t) : AuxOk (b.setTree i t) := by
  have hcases (j : Fin 3) : (j = i ∧ (b.setTree i t).set j = t) ∨
      (j ≠ i ∧ (b.setTree i t).set j = b.set j) := by
    by_cases hj : j = i
    · exact Or.inl ⟨hj, hj ▸ setTree_set_self t⟩
    · exact Or.inr ⟨hj, setTree_set_of_ne t hj⟩
  have hle (j : Fin 3) (halloc : (b.set j).Allocated) : j ≤ i :=
    not_lt.mp fun hlt => hlast j hlt halloc
  refine ⟨h.unpackFnLen, h.byteOrder, fun j => ?_, fun j hfree => ?_, fun j k hlt halloc => ?_,
    fun j halloc => ?_, fun j halloc => ?_⟩
  · rcases hcases j with ⟨-, hj⟩ | ⟨-, hj⟩ <;> rw [hj]
    · exact ht.typed
    · exact h.typed j
  · rcases hcases j with ⟨-, hj⟩ | ⟨-, hj⟩ <;> rw [hj] at hfree ⊢
    · exact absurd ht.allocated hfree
    · exact h.free j hfree
  · have hji : j ≤ i := by
      rcases hcases j with ⟨rfl, -⟩ | ⟨-, hj⟩
      · exact le_refl j
      · exact hle j (hj ▸ halloc)
    rw [setTree_set_of_ne t (hlt.trans_le hji).ne]
    exact hbefore k (hlt.trans_le hji)
  · rcases hcases j with ⟨rfl, hj⟩ | ⟨-, hj⟩ <;> rw [hj] at halloc ⊢
    · rw [setTree_start t (le_refl j)]
      exact ht.offset_eq
    · rw [setTree_start t (hle j halloc)]
      exact h.offset_eq j halloc
  · rcases hcases j with ⟨-, hj⟩ | ⟨-, hj⟩ <;> rw [hj] at halloc ⊢
    · exact ht.stop_le
    · exact h.stop_le j halloc

end AuxOk

/-- The node with the tables from a set on given up and another one for the set. -/
def install (b : AuxNode) (i : Fin 3) (t : BsetTree) : AuxNode :=
  (b.bch2BsetSetNoAuxTree i).setTree i t

@[simp] theorem install_set_self (t : BsetTree) : (b.install i t).set i = t :=
  setTree_set_self t

theorem install_set_of_lt (t : BsetTree) (h : j < i) : (b.install i t).set j = b.set j :=
  (setTree_set_of_ne t h.ne).trans (setNoAuxTree_set_of_lt h)

theorem install_set_of_gt (t : BsetTree) (h : i < j) : (b.install i t).set j = .unallocated :=
  (setTree_set_of_ne t h.ne').trans (setNoAuxTree_set_of_le h.le)

theorem setTree_install (t t' : BsetTree) : (b.install i t).setTree i t' = b.install i t' := by
  simp only [install, setTree, Function.update_idem]

theorem AuxOk.install {t : BsetTree} (h : AuxOk b) (hbefore : ∀ j < i, (b.set j).Allocated)
    (ht : Placed b i t) : AuxOk (b.install i t) := by
  refine (h.setNoAuxTree i).setTree (fun j hj => ?_) (fun j hj => ?_)
    ⟨ht.typed, (setNoAuxTree_start (le_refl i)).symm ▸ ht.offset_eq, ht.stop_le⟩
  · rw [setNoAuxTree_set_of_lt hj]
    exact hbefore j hj
  · rw [setNoAuxTree_set_of_le hj.le]
    exact fun halloc => absurd rfl halloc

/-! #### Steps of a build -/

/-- A set gets a place exactly when all sets before it have one, and `none` is a product in `u16`
without room: the start behind a set without a place, or behind a region that is too long. -/
theorem AuxOk.bsetAllocTree_eq (h : AuxOk b) (i : Fin 3) :
    b.bsetAllocTree i =
      if (∀ j < i, (b.set j).Allocated) ∧ lineUp (b.start i) < 2 ^ 16 then
        some (b.install i ⟨0, bsetNoAuxTreeVal, lineUp (b.start i)⟩)
      else none := by
  have hstart : (b.bch2BsetSetNoAuxTree i).bsetAuxTreeBufStart i = some (b.start i) := by
    rw [← h.bsetAuxTreeBufStart_eq]
    obtain ⟨_ | i, hi⟩ := i
    · rfl
    · exact congrArg BsetTree.bsetAuxTreeBufEnd (if_neg (not_le.mpr (Nat.lt_succ_self i)))
  have hlt := h.start_lt i
  have hmod : (b.start i + 7) / 8 % 2 ^ 16 * 8 = lineUp (b.start i) := by
    rw [lineUp]
    omega
  have hself : (b.bch2BsetSetNoAuxTree i).set i = .unallocated := if_pos (le_refl i)
  rw [bsetAllocTree, hstart]
  simp only [Option.bind_eq_bind, Option.bind_some]
  rw [hmod, hself]
  by_cases hbefore : ∀ j < i, (b.set j).Allocated
  · by_cases hroom : lineUp (b.start i) < 2 ^ 16
    · rw [if_pos hroom, if_pos ⟨hbefore, hroom⟩]
      rfl
    · rw [if_neg hroom, if_neg fun hand => hroom hand.2]
  · have hfull : ¬lineUp (b.start i) < 2 ^ 16 := by
      obtain ⟨_ | i, hi⟩ := i
      · exact absurd (fun j hj => absurd hj (Nat.not_lt_zero _)) hbefore
      · -- the set right before has no place
        have hnot : ¬(b.set ⟨i, by omega⟩).Allocated := fun halloc => hbefore fun j hj => by
          rcases Nat.lt_succ_iff_lt_or_eq.mp (show j.val < i + 1 from hj) with hlt | heq
          · exact h.before ⟨i, by omega⟩ j hlt halloc
          · exact (Fin.ext heq : j = ⟨i, by omega⟩) ▸ halloc
        rw [start, h.free _ hnot]
        decide
    rw [if_neg hfull, if_neg fun hand => hbefore hand.1]

/-- There is room behind the start of a region. -/
theorem bsetTreeCapacityBytes_eq (hle : (b.set i).auxDataOffset ≤ b.bufWords) :
    b.bsetTreeCapacityBytes i = some ((b.bufWords - (b.set i).auxDataOffset) * 8) := by
  have hbytes : btreeAuxDataBytes b.byteOrder = b.bufWords * 8 := rfl
  rw [bsetTreeCapacityBytes, hbytes, if_pos (by omega), Nat.sub_mul]

theorem install_capacityBytes_eq {t : BsetTree} (hle : t.auxDataOffset ≤ b.bufWords) :
    (b.install i t).bsetTreeCapacityBytes i = some ((b.bufWords - t.auxDataOffset) * 8) := by
  have hself : (b.install i t).set i = t := install_set_self t
  rw [bsetTreeCapacityBytes_eq (by rw [hself]; exact hle), hself]
  rfl

/-- The bytes that a build writes are behind the start of the region and in the buffer. -/
def WritesIn (b : AuxNode) (i : Fin 3) (writes : List (ℕ × ℕ)) : Prop :=
  ∀ w ∈ writes, lineUp (b.start i) * 8 ≤ w.1 ∧ w.1 + w.2 ≤ b.bufWords * 8

theorem writesIn_entries {t : BsetTree} {bytes size : ℕ} {slots : List ℕ}
    (hoffset : t.auxDataOffset = lineUp (b.start i))
    (hroom : t.auxDataOffset * 8 + size * bytes ≤ b.bufWords * 8) (hslots : ∀ j ∈ slots, j < size) :
    b.WritesIn i (slots.map ((b.install i t).entryBytes i bytes)) := by
  intro w hw
  obtain ⟨j, hj, rfl⟩ := List.mem_map.mp hw
  have hle : (j + 1) * bytes ≤ size * bytes := Nat.mul_le_mul_right bytes (hslots j hj)
  rw [Nat.add_mul, Nat.one_mul] at hle
  simp only [entryBytes, install_set_self]
  rw [← hoffset]
  omega

theorem buildRwAuxTree_placed {offset : ℕ} (s : BsetKeys) (hoffset : offset = lineUp (b.start i))
    (hlt : offset < b.bufWords) (hlt16 : offset < 2 ^ 16) (hmod : b.bufWords % 8 = 0) :
    ∃ t writes, (b.install i ⟨0, bsetNoAuxTreeVal, offset⟩).buildRwAuxTree i s =
        some (b.install i t, writes) ∧
      Placed b i t ∧ t.kind = .rwAuxTree ∧ b.WritesIn i writes := by
  have hoffmod : offset % 8 = 0 := hoffset ▸ lineUp_mod _
  have hcap : (b.bufWords - offset) * 8 / rwAuxTreeBytes = (b.bufWords - offset) / 3 := by
    rw [rwAuxTreeBytes]
    omega
  obtain ⟨hle, hge, hadd⟩ := @buildLoop_length ((b.bufWords - offset) / 3) s.firstOffset
    [⟨s.firstOffset, ⟨0, 0, 0⟩⟩] s.keys (by rw [List.length_singleton]; omega)
  rw [List.length_singleton] at hge hadd
  set tree :=
    buildLoop ((b.bufWords - offset) / 3) [⟨s.firstOffset, ⟨0, 0, 0⟩⟩] s.firstOffset s.keys
    with htree
  have hkeys : s.keys.length ≤ total BkeyPacked.u64s s.keys := length_le_total _ s.u64s_pos
  have hfits := s.fits
  have hlength : tree.length < 2 ^ 16 := by omega
  have hstop : offset + (24 * tree.length + 7) / 8 ≤ b.bufWords := by omega
  refine ⟨⟨tree.length, bsetRwAuxTreeVal, offset⟩,
    (List.range tree.length).map
      ((b.install i ⟨0, bsetNoAuxTreeVal, offset⟩).entryBytes i rwAuxTreeBytes),
    ?_, ⟨⟨hlength, hlt16, ?_, nofun⟩, hoffset, hstop⟩, rfl, ?_⟩
  · rw [buildRwAuxTree, bsetRwTreeCapacity, install_capacityBytes_eq hlt.le]
    simp only [Option.bind_eq_bind, Option.bind_some, Option.pure_def, hcap]
    rw [← htree, if_pos hlength, setTree_install, install_set_self]
  · have hne : tree.length ≠ 0 := by omega
    exact iff_of_false (show bsetRwAuxTreeVal ≠ bsetNoAuxTreeVal by decide) hne
  · refine writesIn_entries hoffset ?_ fun j hj => List.mem_range.mp hj
    rw [rwAuxTreeBytes]
    dsimp only
    omega

theorem buildRoAuxTree_placed {offset : ℕ} (s : BsetKeys) (hoffset : offset = lineUp (b.start i))
    (hlt : offset < b.bufWords) (hlt16 : offset < 2 ^ 16) :
    ∃ t writes, (b.install i ⟨0, bsetNoAuxTreeVal, offset⟩).buildRoAuxTree i s =
        some (b.install i t, writes) ∧
      Placed b i t ∧ t.kind ≠ .rwAuxTree ∧ b.WritesIn i writes := by
  have hcap : (b.bufWords - offset) * 8 / bkeyFloatBytes = (b.bufWords - offset) * 2 := by
    rw [bkeyFloatBytes]
    omega
  have hlines := s.bkeyToCacheline_endOffset_le
  have hmin : min (s.bkeyToCacheline s.endOffset) ((b.bufWords - offset) * 2) % 2 ^ 16 =
      min (s.bkeyToCacheline s.endOffset) ((b.bufWords - offset) * 2) :=
    Nat.mod_eq_of_lt (lt_of_le_of_lt (min_le_left _ _) (by omega))
  have hle := min_le_left (s.bkeyToCacheline s.endOffset) ((b.bufWords - offset) * 2)
  have hroom := min_le_right (s.bkeyToCacheline s.endOffset) ((b.bufWords - offset) * 2)
  set first := min (s.bkeyToCacheline s.endOffset) ((b.bufWords - offset) * 2) with hfirst
  obtain ⟨size, extra, slots, hbuild, hsize, hrw, hnone, hslots⟩ := BsetKeys.buildRoLoop_spec hle
  have hkind : (BsetTree.mk size extra offset).kind ≠ .rwAuxTree := by
    rw [BsetTree.kind, if_neg hrw]
    split_ifs <;> decide
  have hstop : (BsetTree.mk size extra offset).stop ≤ b.bufWords := by
    rw [BsetTree.stop, BsetTree.words]
    cases hk : (BsetTree.mk size extra offset).kind with
    | noAuxTree => exact hlt.le
    | roAuxTree =>
      simp only [bkeyFloatBytes]
      omega
    | rwAuxTree => exact absurd hk hkind
  refine ⟨⟨size, extra, offset⟩,
    slots.map ((b.install i ⟨0, bsetNoAuxTreeVal, offset⟩).entryBytes i bkeyFloatBytes),
    ?_, ⟨⟨?_, hlt16, hnone, fun _ => ?_⟩, hoffset, hstop⟩, hkind, ?_⟩
  · rw [buildRoAuxTree, bsetRoTreeCapacity, install_capacityBytes_eq hlt.le]
    simp only [Option.bind_eq_bind, Option.bind_some, Option.pure_def, hcap]
    rw [← hfirst, hmin, hbuild, Option.bind_some]
    dsimp only
    rw [setTree_install, install_set_self]
  · dsimp only
    omega
  · dsimp only
    omega
  · refine writesIn_entries hoffset ?_ hslots
    rw [bkeyFloatBytes]
    dsimp only
    omega

/-- What `bch2_bset_build_aux_tree` does to a set: nothing when it has the table already, and else a
new table when there is a place for it. -/
theorem AuxOk.bch2BsetBuildAuxTree_cases (h : AuxOk b) (i : Fin 3) (s : BsetKeys)
    (writeable : Bool) :
    let wanted := if writeable then BsetAuxTreeType.rwAuxTree else .roAuxTree
    ((b.set i).kind = wanted ∧ b.bch2BsetBuildAuxTree i s writeable = some (b, [])) ∨
    ((b.set i).kind ≠ wanted ∧ (∀ j < i, (b.set j).Allocated) ∧ lineUp (b.start i) < 2 ^ 16 ∧
      ∃ t writes, b.bch2BsetBuildAuxTree i s writeable = some (b.install i t, writes) ∧
        Placed b i t ∧ (t.kind = .rwAuxTree → writeable = true) ∧ b.WritesIn i writes) ∨
    (¬((∀ j < i, (b.set j).Allocated) ∧ lineUp (b.start i) < 2 ^ 16) ∧
      b.bch2BsetBuildAuxTree i s writeable = none) := by
  intro wanted
  rw [bch2BsetBuildAuxTree, (h.typed i).bsetAuxTreeType_eq]
  simp only [Option.bind_eq_bind, Option.bind_some, Option.pure_def]
  by_cases hkind : (b.set i).kind = wanted
  · exact Or.inl ⟨hkind, if_pos hkind⟩
  rw [if_neg hkind, h.bsetAllocTree_eq]
  by_cases hroom : (∀ j < i, (b.set j).Allocated) ∧ lineUp (b.start i) < 2 ^ 16
  · refine Or.inr (Or.inl ⟨hkind, hroom.1, hroom.2, ?_⟩)
    have hmod := bufWords_mod h.byteOrder
    have hle : lineUp (b.start i) ≤ b.bufWords := lineUp_le (h.start_le hroom.1) hmod
    rw [if_pos hroom, Option.bind_some, install_capacityBytes_eq hle, Option.bind_some]
    dsimp only
    by_cases hfull : (b.bufWords - lineUp (b.start i)) * 8 = 0
    · rw [if_pos hfull]
      have hplaced : Placed b i ⟨0, bsetNoAuxTreeVal, lineUp (b.start i)⟩ :=
        ⟨⟨Nat.zero_lt_succ _, hroom.2, iff_of_true rfl rfl, nofun⟩, rfl, hle⟩
      exact ⟨_, _, rfl, hplaced, nofun, fun w hw => absurd hw List.not_mem_nil⟩
    · have hlt : lineUp (b.start i) < b.bufWords := by omega
      rw [if_neg hfull]
      cases writeable with
      | true =>
        obtain ⟨t, writes, hbuild, hplaced, -, hwrites⟩ :=
          buildRwAuxTree_placed s rfl hlt hroom.2 hmod
        exact ⟨t, writes, hbuild, hplaced, fun _ => rfl, hwrites⟩
      | false =>
        obtain ⟨t, writes, hbuild, hplaced, hro, hwrites⟩ :=
          buildRoAuxTree_placed s rfl hlt hroom.2
        exact ⟨t, writes, hbuild, hplaced, fun hrw => absurd hrw hro, hwrites⟩
  · exact Or.inr (Or.inr ⟨hroom, by rw [if_neg hroom, Option.bind_none]⟩)

/-! ### Runs -/

/-- What happens to the tables of a node. -/
inductive AuxStep : AuxNode → AuxNode → Prop
  | build {b b' : AuxNode} (i : Fin 3) (s : BsetKeys) (writeable : Bool) {writes : List (ℕ × ℕ)}
      (hbuild : b.bch2BsetBuildAuxTree i s writeable = some (b', writes)) : AuxStep b b'
  /-- Sets are merged, or dropped. -/
  | setNoAuxTree {b : AuxNode} (i : Fin 3) : AuxStep b (b.bch2BsetSetNoAuxTree i)
  /-- The table of the last set is patched after an insertion or a deletion. -/
  | fixLookupTable {b : AuxNode} (i : Fin 3) (s : RwBset) (hok : RwAuxOk s)
      (horder : s.byteOrder = b.byteOrder)
      (hoffset : s.auxDataOffset = (b.set i).auxDataOffset) (hsize : s.tree.length < 2 ^ 16)
      (hkind : (b.set i).kind = .rwAuxTree) (hlast : ∀ j, i < j → ¬(b.set j).Allocated) :
      AuxStep b (b.setTree i { b.set i with size := s.tree.length })
  /-- The node gets other buffers, which are not smaller. -/
  | resize {b : AuxNode} {byteOrder : ℕ} (hle : b.byteOrder ≤ byteOrder) :
      AuxStep b { b.bch2BsetSetNoAuxTree 0 with byteOrder := byteOrder }

namespace AuxOk

theorem allocated_of_kind (h : AuxOk b) (hkind : (b.set i).kind ≠ .noAuxTree) :
    (b.set i).Allocated := by
  by_contra hfree
  rw [h.free i hfree] at hkind
  exact hkind rfl

theorem offset_le (h : AuxOk b) (halloc : (b.set i).Allocated) :
    (b.set i).auxDataOffset ≤ b.bufWords :=
  le_trans (Nat.le_add_right _ _) (h.stop_le i halloc)

/-- A table to write to has the room that its patches reckon with. -/
theorem bsetRwTreeCapacity_eq (h : AuxOk b) (halloc : (b.set i).Allocated) {s : RwBset}
    (horder : s.byteOrder = b.byteOrder) (hoffset : s.auxDataOffset = (b.set i).auxDataOffset) :
    b.bsetRwTreeCapacity i = some s.capacity := by
  have hbytes : s.auxDataBytes = b.bufWords * 8 := by
    rw [RwBset.auxDataBytes, horder]
    rfl
  rw [bsetRwTreeCapacity, bsetTreeCapacityBytes_eq (h.offset_le halloc), RwBset.capacity, hbytes,
    hoffset, Nat.sub_mul]
  rfl

theorem fixLookupTable (h : AuxOk b) {size capacity : ℕ} (hkind : (b.set i).kind = .rwAuxTree)
    (hlast : ∀ j, i < j → ¬(b.set j).Allocated) (hcapacity : b.bsetRwTreeCapacity i = some capacity)
    (hsize : 1 ≤ size ∧ size ≤ capacity ∧ size < 2 ^ 16) :
    AuxOk (b.setTree i { b.set i with size := size }) := by
  have halloc : (b.set i).Allocated := h.allocated_of_kind (by rw [hkind]; decide)
  have hle := h.offset_le halloc
  have hkind' :
      (BsetTree.mk size (b.set i).extra (b.set i).auxDataOffset).kind = .rwAuxTree := hkind
  have hextra : (b.set i).extra ≠ bsetNoAuxTreeVal := fun hnone => by
    rw [BsetTree.kind, if_pos hnone] at hkind
    cases hkind
  have hstop : (BsetTree.mk size (b.set i).extra (b.set i).auxDataOffset).stop ≤ b.bufWords := by
    rw [bsetRwTreeCapacity, bsetTreeCapacityBytes_eq hle] at hcapacity
    have hcap : (b.bufWords - (b.set i).auxDataOffset) * 8 / rwAuxTreeBytes = capacity :=
      Option.some.inj hcapacity
    rw [rwAuxTreeBytes] at hcap
    rw [BsetTree.stop, BsetTree.words, hkind']
    simp only [rwAuxTreeBytes]
    omega
  refine h.setTree (fun j hj => h.before i j hj halloc) hlast
    ⟨⟨hsize.2.2, (h.typed i).offset_lt, ?_, fun hro => ?_⟩, h.offset_eq i halloc, hstop⟩
  · exact iff_of_false hextra (by dsimp only; omega)
  · rw [hkind'] at hro
    cases hro

theorem resize (h : AuxOk b) {byteOrder : ℕ} (hle : b.byteOrder ≤ byteOrder) :
    AuxOk { b.bch2BsetSetNoAuxTree 0 with byteOrder := byteOrder } := by
  have hfree (j : Fin 3) : (b.bch2BsetSetNoAuxTree 0).set j = .unallocated :=
    setNoAuxTree_set_of_le (Nat.zero_le j.val)
  have hnot (j : Fin 3) : ¬((b.bch2BsetSetNoAuxTree 0).set j).Allocated := by
    rw [hfree j]
    exact fun halloc => absurd rfl halloc
  exact ⟨h.unpackFnLen, le_trans h.byteOrder hle, (h.setNoAuxTree 0).typed, fun j _ => hfree j,
    fun j _ _ halloc => absurd halloc (hnot j), fun j halloc => absurd halloc (hnot j),
    fun j halloc => absurd halloc (hnot j)⟩

end AuxOk

/-- Every step keeps the regions apart. -/
theorem AuxStep.auxOk (hstep : AuxStep b b') (h : AuxOk b) : AuxOk b' := by
  cases hstep with
  | build i s writeable hbuild =>
    rcases h.bch2BsetBuildAuxTree_cases i s writeable with
      ⟨-, heq⟩ | ⟨-, hbefore, -, t, writes, heq, ht, -⟩ | ⟨-, heq⟩ <;> rw [heq] at hbuild
    · cases hbuild
      exact h
    · cases hbuild
      exact h.install hbefore ht
    · cases hbuild
  | setNoAuxTree i => exact h.setNoAuxTree i
  | fixLookupTable i s hok horder hoffset hsize hkind hlast =>
    have halloc : (b.set i).Allocated := h.allocated_of_kind (by rw [hkind]; decide)
    exact h.fixLookupTable hkind hlast (h.bsetRwTreeCapacity_eq halloc horder hoffset)
      ⟨hok.size.1, hok.size.2, hsize⟩
  | resize hle => exact h.resize hle

theorem auxOk_of_run {byteOrder : ℕ} (h : 11 ≤ byteOrder)
    (hrun : Relation.ReflTransGen AuxStep (init byteOrder) b) : AuxOk b := by
  induction hrun with
  | refl => exact init_auxOk h
  | tail _ hstep ih => exact hstep.auxOk ih

/-- When the sets before a set have no table to write to, its place is in the first words. -/
theorem AuxOk.start_le_of_ready (h : AuxOk b)
    (hready : ∀ j < i, (b.set j).Allocated ∧ (b.set j).kind ≠ .rwAuxTree) :
    b.start i ≤ 1031 * i := by
  obtain ⟨i, hi⟩ := i
  induction i with
  | zero => exact le_refl 0
  | succ i ih =>
    obtain ⟨halloc, hkind⟩ := hready ⟨i, by omega⟩ (Nat.lt_succ_self i)
    have hstart := ih (by omega) fun j hj => hready j (lt_trans hj (Nat.lt_succ_self i))
    have hstop := (h.typed ⟨i, by omega⟩).stop_le hkind
    rw [h.offset_eq _ halloc, lineUp] at hstop
    rw [start]
    dsimp only at hstart ⊢
    omega

/-- A set behind sets without a table to write to is built, and only a set that is to be writeable
gets a table to write to. -/
theorem AuxOk.build_of_ready (h : AuxOk b) (s : BsetKeys) (writeable : Bool)
    (hready : ∀ j < i, (b.set j).Allocated ∧ (b.set j).kind ≠ .rwAuxTree) :
    ∃ b' writes, b.bch2BsetBuildAuxTree i s writeable = some (b', writes) ∧
      (∀ j < i, b'.set j = b.set j) ∧ (b'.set i).Allocated ∧
      ((b'.set i).kind = .rwAuxTree → writeable = true) := by
  rcases h.bch2BsetBuildAuxTree_cases i s writeable with
    ⟨hkind, heq⟩ | ⟨-, -, -, t, writes, heq, ht, hrw, -⟩ | ⟨hnot, -⟩
  · refine ⟨b, [], heq, fun j _ => rfl, h.allocated_of_kind ?_, fun hrw => ?_⟩
    · rw [hkind]
      cases writeable <;> decide
    · cases writeable with
      | true => rfl
      | false => rw [hkind] at hrw; cases hrw
  · refine ⟨b.install i t, writes, heq, fun j hj => install_set_of_lt t hj, ?_, ?_⟩
    · rw [install_set_self]
      exact ht.allocated
    · rwa [install_set_self]
  · have hstart := h.start_le_of_ready hready
    have hi := i.isLt
    refine absurd ⟨fun j hj => (hready j hj).1, ?_⟩ hnot
    rw [lineUp]
    omega

/-- `bch2_btree_build_aux_trees` comes to its end. -/
theorem AuxOk.buildFrom_spec {idx : ℕ} {sets : List (BsetKeys × Bool)} (h : AuxOk b)
    (hlen : idx + sets.length ≤ 3)
    (hready : ∀ j : Fin 3, j < idx → (b.set j).Allocated ∧ (b.set j).kind ≠ .rwAuxTree) :
    ∃ b' writes, b.buildFrom idx sets = some (b', writes) ∧
      Relation.ReflTransGen AuxStep b b' := by
  induction sets generalizing b idx with
  | nil => exact ⟨b, [], rfl, .refl⟩
  | cons head rest ih =>
    obtain ⟨s, written⟩ := head
    rw [List.length_cons] at hlen
    have hidx : idx < 3 := by omega
    obtain ⟨b₁, writes, hbuild, hsame, halloc, hkind⟩ :=
      h.build_of_ready (i := ⟨idx, hidx⟩) s (!written && rest.isEmpty) hready
    have hstep : AuxStep b b₁ := .build _ s _ hbuild
    have hrest : ∃ b' writes', b₁.buildFrom (idx + 1) rest = some (b', writes') ∧
        Relation.ReflTransGen AuxStep b₁ b' := by
      cases rest with
      | nil => exact ⟨b₁, [], rfl, .refl⟩
      | cons next rest =>
        refine ih (hstep.auxOk h) (by omega) fun j hj => ?_
        rcases Nat.lt_succ_iff_lt_or_eq.mp hj with hlt | heq
        · rw [hsame j hlt]
          exact hready j hlt
        · obtain rfl : j = ⟨idx, hidx⟩ := Fin.ext heq
          refine ⟨halloc, fun hrw => ?_⟩
          have := hkind hrw
          simp at this
    obtain ⟨b', writes', hbuild', hrun⟩ := hrest
    refine ⟨b', writes ++ writes', ?_, .head hstep hrun⟩
    rw [buildFrom, dif_pos hidx, hbuild]
    simp only [Option.bind_eq_bind, Option.bind_some]
    rw [hbuild']
    rfl

/-! ### Regions -/

namespace AuxOk

theorem mem_region_iff (h : AuxOk b) {x : ℕ} :
    x ∈ b.region i ↔ (b.set i).auxDataOffset * 8 ≤ x ∧ x < (b.set i).stop * 8 := by
  rw [region, Set.mem_ofPred_eq, (h.typed i).bsetAuxTreeBufEnd_eq]
  constructor
  · rintro ⟨stop, hstop, hx⟩
    cases hstop
    exact hx
  · exact fun hx => ⟨_, rfl, hx⟩

/-- A set without a place has no bytes. -/
theorem allocated_of_mem (h : AuxOk b) {x : ℕ} (hx : x ∈ b.region i) : (b.set i).Allocated := by
  by_contra hfree
  rw [h.mem_region_iff, h.free i hfree] at hx
  exact absurd (lt_of_le_of_lt hx.1 hx.2) (by decide)

theorem region_disjoint_of_lt (h : AuxOk b) (hij : i < j) : Disjoint (b.region i) (b.region j) := by
  rw [Set.disjoint_left]
  intro x hi hj
  have hle := h.stop_le_offset hij (h.allocated_of_mem hj)
  rw [h.mem_region_iff] at hi hj
  omega

theorem region_subset (h : AuxOk b) (i : Fin 3) :
    b.region i ⊆ Set.Iio (btreeAuxDataBytes b.byteOrder) := by
  intro x hx
  have hstop := h.stop_le i (h.allocated_of_mem hx)
  have hbytes : btreeAuxDataBytes b.byteOrder = b.bufWords * 8 := rfl
  rw [h.mem_region_iff] at hx
  rw [Set.mem_Iio, hbytes]
  omega

/-- A build writes inside the buffer, and not to the region of another set. -/
theorem writes_apart (h : AuxOk b) {s : BsetKeys} {writeable : Bool} {writes : List (ℕ × ℕ)}
    (hbuild : b.bch2BsetBuildAuxTree i s writeable = some (b', writes)) {w : ℕ × ℕ}
    (hw : w ∈ writes) {x : ℕ} (hx : x ∈ Set.Ico w.1 (w.1 + w.2)) :
    x < btreeAuxDataBytes b.byteOrder ∧ ∀ j ≠ i, x ∉ b'.region j := by
  have h' : AuxOk b' := (AuxStep.build i s writeable hbuild).auxOk h
  rcases h.bch2BsetBuildAuxTree_cases i s writeable with
    ⟨-, heq⟩ | ⟨-, hbefore, -, t, writes', heq, ht, -, hin⟩ | ⟨-, heq⟩ <;> rw [heq] at hbuild
  · cases hbuild
    exact absurd hw List.not_mem_nil
  · cases hbuild
    obtain ⟨hlow, hhigh⟩ := hin w hw
    have hbytes : btreeAuxDataBytes b.byteOrder = b.bufWords * 8 := rfl
    rw [Set.mem_Ico] at hx
    refine ⟨by omega, fun j hj hmem => ?_⟩
    have halloc := h'.allocated_of_mem hmem
    rw [h'.mem_region_iff] at hmem
    rcases lt_or_gt_of_ne hj with hlt | hgt
    · -- a set before: its region stops where this one starts
      have hplaced : ((b.install i t).set i).Allocated := by
        rw [install_set_self]
        exact ht.allocated
      have hle := h'.stop_le_offset hlt hplaced
      rw [install_set_self, ht.offset_eq] at hle
      omega
    · -- a set behind: its table was given up
      rw [install_set_of_gt t hgt] at halloc
      exact absurd rfl halloc
  · cases hbuild

end AuxOk

/-- In every run of builds on a node of at least `2048` bytes, the regions of the sets are disjoint
and in the buffer of tables, no capacity underflows, and a build writes in the buffer and to the
region of no other set. A build fails only for a set behind one that has no place yet, or in a
buffer of more than 16 bits of words; `bch2_btree_build_aux_trees` always comes to its end. -/
theorem aux_regions_apart {byteOrder : ℕ} (horder : 11 ≤ byteOrder) {b : AuxNode}
    (hrun : Relation.ReflTransGen AuxStep (init byteOrder) b) :
    Pairwise (Function.onFun Disjoint b.region) ∧
    (∀ i, b.region i ⊆ Set.Iio (btreeAuxDataBytes b.byteOrder)) ∧
    (∀ i, (b.set i).Allocated → ∃ bytes, b.bsetTreeCapacityBytes i = some bytes) ∧
    (∀ i b', b.bsetAllocTree i = some b' → ∃ bytes, b'.bsetTreeCapacityBytes i = some bytes) ∧
    (∀ i s writeable b' writes, b.bch2BsetBuildAuxTree i s writeable = some (b', writes) →
      ∀ w ∈ writes, ∀ x ∈ Set.Ico w.1 (w.1 + w.2),
        x < btreeAuxDataBytes b.byteOrder ∧ ∀ j ≠ i, x ∉ b'.region j) ∧
    (∀ i s writeable, (∀ j < i, (b.set j).Allocated) → b.byteOrder < 24 →
      ∃ b' writes, b.bch2BsetBuildAuxTree i s writeable = some (b', writes)) ∧
    (∀ sets : List (BsetKeys × Bool), sets.length ≤ 3 →
      ∃ b' writes, b.bch2BtreeBuildAuxTrees sets = some (b', writes) ∧
        Relation.ReflTransGen AuxStep (init byteOrder) b') := by
  have h := auxOk_of_run horder hrun
  refine ⟨fun i j hij => ?_, h.region_subset, fun i halloc => ?_, fun i b' halloc => ?_,
    fun i s writeable b' writes hbuild w hw x hx => h.writes_apart hbuild hw hx,
    fun i s writeable hbefore hsmall => ?_, fun sets hlen => ?_⟩
  · rcases lt_or_gt_of_ne hij with hlt | hgt
    · exact h.region_disjoint_of_lt hlt
    · exact (h.region_disjoint_of_lt hgt).symm
  · exact ⟨_, bsetTreeCapacityBytes_eq (h.offset_le halloc)⟩
  · rw [h.bsetAllocTree_eq] at halloc
    split_ifs at halloc with hroom
    cases halloc
    have hle := lineUp_le (h.start_le hroom.1) (bufWords_mod h.byteOrder)
    exact ⟨_, install_capacityBytes_eq hle⟩
  · rcases h.bch2BsetBuildAuxTree_cases i s writeable with
      ⟨-, heq⟩ | ⟨-, -, -, t, writes, heq, -⟩ | ⟨hnot, -⟩
    · exact ⟨b, [], heq⟩
    · exact ⟨_, writes, heq⟩
    · refine absurd ⟨hbefore, ?_⟩ hnot
      have hle := lineUp_le (h.start_le hbefore) (bufWords_mod h.byteOrder)
      have hpow : 2 ^ b.byteOrder ≤ 2 ^ 23 := Nat.pow_le_pow_right (by decide) (by omega)
      have hwords : b.bufWords ≤ 2 ^ 23 / bsetCacheline := Nat.div_le_div_right hpow
      exact lt_of_le_of_lt (le_trans hle hwords) (by decide)
  · have hlen0 : 0 + sets.length ≤ 3 := by omega
    obtain ⟨b', writes, hbuild, hrun'⟩ := h.buildFrom_spec hlen0
      fun j hj => absurd hj (Nat.not_lt_zero _)
    exact ⟨b', writes, hbuild, hrun.trans hrun'⟩

/-- Twenty keys of twenty words. -/
def twentyKeys : BsetKeys where
  dataOffset := 17
  lead := 4
  keys := List.replicate 20 ⟨⟨⟨0, 8, 0⟩, 1, 0, 0, 0, []⟩, 20, false⟩
  u64s_pos := by decide
  u64s_lt := by decide
  fits := by decide

/-- The build of a table to search in for the first set of a node of `4096` bytes. -/
def firstBuild : Option (AuxNode × List (ℕ × ℕ)) :=
  (init 12).bch2BsetBuildAuxTree 0 twentyKeys false

theorem firstBuild_isSome : firstBuild.isSome := by decide +kernel

def firstBuilt : AuxNode := (firstBuild.get firstBuild_isSome).1

/-- Then of a table to write to for the second one. -/
def secondBuild : Option (AuxNode × List (ℕ × ℕ)) :=
  firstBuilt.bch2BsetBuildAuxTree 1 twentyKeys true

theorem secondBuild_isSome : secondBuild.isSome := by decide +kernel

def secondBuilt : AuxNode := (secondBuild.get secondBuild_isSome).1

example : secondBuilt.set 0 = ⟨12, 8, 0⟩ ∧ secondBuilt.set 1 = ⟨2, 65534, 8⟩ := by decide +kernel

theorem aux_regions_apart_second :
    Pairwise (Function.onFun Disjoint secondBuilt.region) ∧
    (∀ i, secondBuilt.region i ⊆ Set.Iio (btreeAuxDataBytes secondBuilt.byteOrder)) ∧
    (∀ i, (secondBuilt.set i).Allocated →
      ∃ bytes, secondBuilt.bsetTreeCapacityBytes i = some bytes) ∧
    (∀ i b', secondBuilt.bsetAllocTree i = some b' →
      ∃ bytes, b'.bsetTreeCapacityBytes i = some bytes) ∧
    (∀ i s writeable b' writes, secondBuilt.bch2BsetBuildAuxTree i s writeable = some (b', writes) →
      ∀ w ∈ writes, ∀ x ∈ Set.Ico w.1 (w.1 + w.2),
        x < btreeAuxDataBytes secondBuilt.byteOrder ∧ ∀ j ≠ i, x ∉ b'.region j) ∧
    (∀ i s writeable, (∀ j < i, (secondBuilt.set j).Allocated) → secondBuilt.byteOrder < 24 →
      ∃ b' writes, secondBuilt.bch2BsetBuildAuxTree i s writeable = some (b', writes)) ∧
    (∀ sets : List (BsetKeys × Bool), sets.length ≤ 3 →
      ∃ b' writes, secondBuilt.bch2BtreeBuildAuxTrees sets = some (b', writes) ∧
        Relation.ReflTransGen AuxStep (init 12) b') := by
  have hfirst : AuxStep (init 12) firstBuilt :=
    .build 0 twentyKeys false (Option.some_get firstBuild_isSome).symm
  have hsecond : AuxStep firstBuilt secondBuilt :=
    .build 1 twentyKeys true (Option.some_get secondBuild_isSome).symm
  exact aux_regions_apart (by decide) (.tail (.single hfirst) hsecond)

end AuxNode

end Subvol

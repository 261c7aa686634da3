import Mathlib.Algebra.Order.BigOperators.Group.List
import Mathlib.Algebra.Order.Group.Nat
import Mathlib.Data.List.Flatten
import Subvol.Extent.Rebuild
import Subvol.Lib.Lists

/-!
# The rebuild and its check

Behind a rebuild of the derived trees the engine checks them against the primary keys, and does not
open an image for which the check fails. The two functions count in ways that differ. The check sees
one key of every inode and offset, whatever snapshots there are, while the rebuild walks over all of
them; the data type of a backpointer comes from the level in the one and from the type of the key in
the other; a bucket without sectors is expected by the check but not looked for in the alloc tree;
and the alloc keys from before the rebuild bring back their generation, and their sectors where no
pointer is left. `check_rebuilt_iff` says for which trees the check succeeds.

## Main definitions

* `RebuildFs.PrimaryValid`: pointers that are valid, of one generation for every bucket, and
  distinct.
* `RebuildFs.Rechecks`: the trees for which the check agrees with the rebuild.
* `tally`: the generation and the sectors of a bucket.

## Main results

* `rebuilt_foldlM`: what the triggers of all keys leave.
* `expectPtr_foldlM`: what the check expects.
* `check_rebuilt_iff`.
-/

namespace Subvol

open Lib

/-! ### What is counted -/

section Tally

variable {c : TriggerCtx} {ls ls' : List LivePtr} {l : LivePtr} {a : ℕ × ℕ}

/-- The generation and the sectors of a bucket; the generation is that of the first pointer into
it. -/
def tally (c : TriggerCtx) (ls : List LivePtr) (a : ℕ × ℕ) : Option (ℕ × ℕ) :=
  (ls.find? fun l => allocPos c l.ptr = a).map fun l => (l.ptr.gen, sectorsAt c a ls)

/-- The pointers into one bucket agree on its generation. -/
def SameGens (c : TriggerCtx) (ls : List LivePtr) : Prop :=
  ∀ l ∈ ls, ∀ l' ∈ ls, allocPos c l.ptr = allocPos c l'.ptr → l.ptr.gen = l'.ptr.gen

theorem tally_eq_none_iff : tally c ls a = none ↔ ∀ l ∈ ls, allocPos c l.ptr ≠ a := by
  rw [tally, Option.map_eq_none_iff, List.find?_eq_none]
  simp

theorem tally_of_mem (hgens : SameGens c ls) (hl : l ∈ ls) :
    tally c ls (allocPos c l.ptr) = some (l.ptr.gen, sectorsAt c (allocPos c l.ptr) ls) := by
  cases hfind : ls.find? fun l' => allocPos c l'.ptr = allocPos c l.ptr with
  | none => exact absurd (decide_eq_true rfl) (List.find?_eq_none.mp hfind l hl)
  | some l' =>
    have hpos : allocPos c l'.ptr = allocPos c l.ptr := by simpa using List.find?_some hfind
    rw [tally, hfind, Option.map_some, hgens l' (List.mem_of_find?_eq_some hfind) l hl hpos]

theorem sectorsAt_eq_zero (h : ∀ l ∈ ls, allocPos c l.ptr ≠ a) : sectorsAt c a ls = 0 := by
  rw [sectorsAt, List.sum_eq_zero_iff_forall_eq_nat]
  intro n hn
  obtain ⟨l, hl, rfl⟩ := List.mem_map.mp hn
  exact if_neg (h l hl)

theorem sectorsAt_ne_zero_iff :
    sectorsAt c a ls ≠ 0 ↔ ∃ l ∈ ls, allocPos c l.ptr = a ∧ l.size ≠ 0 := by
  rw [sectorsAt, Ne, List.sum_eq_zero_iff_forall_eq_nat]
  simp

theorem sectorsAt_le_of_sublist (h : ls.Sublist ls') : sectorsAt c a ls ≤ sectorsAt c a ls' :=
  (h.map _).sum_le_sum fun _ _ => Nat.zero_le _

/-- What both sides find of the bucket of one more pointer. -/
theorem tally_getD (hgens : SameGens c (ls ++ [l])) :
    (tally c ls (allocPos c l.ptr)).getD (l.ptr.gen, 0) =
      (l.ptr.gen, sectorsAt c (allocPos c l.ptr) ls) := by
  cases htally : tally c ls (allocPos c l.ptr) with
  | none => rw [sectorsAt_eq_zero (tally_eq_none_iff.mp htally), Option.getD_none]
  | some x =>
    obtain ⟨l', hl', rfl⟩ := Option.map_eq_some_iff.mp htally
    have hpos : allocPos c l'.ptr = allocPos c l.ptr := by simpa using List.find?_some hl'
    have hmem := List.mem_append_left [l] (List.mem_of_find?_eq_some hl')
    rw [Option.getD_some, hgens l' hmem l (by simp) hpos]

theorem tally_concat (hgens : SameGens c (ls ++ [l])) :
    tally c (ls ++ [l]) a = if a = allocPos c l.ptr
      then some (l.ptr.gen, sectorsAt c (allocPos c l.ptr) ls + l.size) else tally c ls a := by
  by_cases ha : a = allocPos c l.ptr
  · subst ha
    rw [if_pos rfl, tally_of_mem hgens (by simp), sectorsAt_append]
    simp [sectorsAt]
  · have hne : ¬allocPos c l.ptr = a := fun h => ha h.symm
    rw [if_neg ha, tally, tally, List.find?_append, sectorsAt_append]
    simp [sectorsAt, hne]

theorem SameGens.of_append (h : SameGens c (ls ++ ls')) : SameGens c ls :=
  fun l hl l' hl' => h l (List.mem_append_left _ hl) l' (List.mem_append_left _ hl')

end Tally

/-! ### What the triggers leave -/

/-- The trees after the triggers of some pointers, beginning with empty ones. -/
structure Rebuilt (base : RebuildFs) (ls : List LivePtr) (fs : RebuildFs) : Prop where
  devs : fs.devs = base.devs
  keys : fs.keys = base.keys
  alloc : ∀ a, (fs.alloc.get (toLex a)).map (fun b => (b.gen, b.dirtySectors)) =
    tally base.devs ls a
  backpointers : ∀ x, fs.backpointers.get (toLex x) =
    (ls.find? fun l => l.bpPos = x).map LivePtr.backpointer
  bound : ∀ a, sectorsAt base.devs a ls < 2 ^ 32

/-- Pointers that the triggers can take one after the other. -/
def Insertable (c : TriggerCtx) (ls : List LivePtr) : Prop :=
  SameGens c ls ∧ (ls.map LivePtr.bpPos).Nodup

theorem Insertable.of_append {c : TriggerCtx} (ls ls' : List LivePtr)
    (h : Insertable c (ls ++ ls')) : Insertable c ls := by
  refine ⟨h.1.of_append, ?_⟩
  have hnodup := h.2
  rw [List.map_append] at hnodup
  exact (List.nodup_append.mp hnodup).1

theorem Insertable.notMem {c : TriggerCtx} {ls : List LivePtr} {l : LivePtr}
    (h : Insertable c (ls ++ [l])) : ∀ l' ∈ ls, l'.bpPos ≠ l.bpPos := by
  have hnodup := h.2
  rw [List.map_append, List.nodup_append] at hnodup
  exact fun l' hl' => hnodup.2.2 _ (List.mem_map_of_mem hl') _ (by simp)

section Triggers

variable {base fs fs' : RebuildFs} {ls : List LivePtr} {l : LivePtr}

/-- What the trigger of an inserted pointer writes to the alloc tree. -/
theorem triggerPointer_insert {c : TriggerCtx} {d d' : Derived} {old : BucketAlloc}
    (hold : (d.alloc (allocPos c l.ptr)).getD {} = old)
    (h : triggerPointer c d ⟨true, l⟩ = some d') :
    old.dirtySectors + l.size < 2 ^ 32 ∧ d'.alloc (allocPos c l.ptr) = some
      { old with
        gen := if old.gen = 0 then l.ptr.gen else old.gen
        dirtySectors := old.dirtySectors + l.size } := by
  by_cases hvalid : triggerPointerValidate c l.ptr = true
  swap
  · rw [triggerPointer, if_neg hvalid, if_pos rfl] at h
    cases h
  rw [triggerPointer, if_pos hvalid, triggerPointerDerived] at h
  dsimp only at h
  rw [hold] at h
  by_cases hgen : (true && old.gen != 0 && old.gen != l.ptr.gen) = true
  · rw [if_pos hgen] at h
    cases h
  rw [if_neg hgen, if_pos rfl] at h
  obtain ⟨dirty, hdirty, rfl⟩ := Option.map_eq_some_iff.mp h
  rw [if_pos rfl] at hdirty
  split_ifs at hdirty with hroom
  cases hdirty
  exact ⟨hroom, Function.update_self ..⟩

/-- The trigger for one pointer. -/
theorem Rebuilt.triggerInsert (h : Rebuilt base ls fs) (hins : Insertable base.devs (ls ++ [l]))
    (hrun : triggerInsert fs l = some fs') : Rebuilt base (ls ++ [l]) fs' := by
  obtain ⟨d, hd, rfl⟩ := Option.map_eq_some_iff.mp hrun
  rw [h.devs] at hd ⊢
  -- the alloc key found counts the sectors so far
  obtain ⟨old, hold, hdirty, hgen⟩ : ∃ old : BucketAlloc,
      (fs.derived.alloc (allocPos base.devs l.ptr)).getD {} = old ∧
      old.dirtySectors = sectorsAt base.devs (allocPos base.devs l.ptr) ls ∧
      (old.gen = 0 ∨ old.gen = l.ptr.gen) := by
    have htally := tally_getD hins.1
    rw [← h.alloc] at htally
    show ∃ old, (fs.alloc.get (toLex (allocPos base.devs l.ptr))).getD {} = old ∧ _
    cases hget : fs.alloc.get (toLex (allocPos base.devs l.ptr)) with
    | none =>
      rw [hget] at htally
      exact ⟨_, rfl, (Prod.mk.inj htally).2, .inl rfl⟩
    | some b =>
      rw [hget] at htally
      exact ⟨_, rfl, (Prod.mk.inj htally).2, .inr (Prod.mk.inj htally).1⟩
  obtain ⟨hroom, hwritten⟩ := triggerPointer_insert hold hd
  have hnewGen : (if old.gen = 0 then l.ptr.gen else old.gen) = l.ptr.gen := by
    split_ifs with hzero
    · rfl
    · exact hgen.resolve_left hzero
  rw [hnewGen, hdirty] at hwritten
  rw [hdirty] at hroom
  refine ⟨rfl, h.keys, fun a => ?_, fun x => ?_, fun a => ?_⟩
  · dsimp only
    rw [tally_concat hins.1, OrdMap.get_set, hwritten]
    by_cases ha : a = allocPos base.devs l.ptr
    · rw [if_pos ha, if_pos (congrArg toLex ha)]
      rfl
    · rw [if_neg ha, if_neg fun heq => ha (toLex.injective heq), h.alloc]
  · dsimp only
    rw [OrdMap.get_set, find?_key_concat LivePtr.bpPos hins.notMem]
    by_cases hx : x = l.bpPos
    · rw [if_pos hx, if_pos (congrArg toLex hx), Option.map_some]
    · rw [if_neg hx, if_neg fun heq => hx (toLex.injective heq), h.backpointers]
  · rw [sectorsAt_append]
    by_cases ha : allocPos base.devs l.ptr = a
    · simpa [sectorsAt, ha] using ha ▸ hroom
    · simpa [sectorsAt, ha] using h.bound a

/-- The triggers of a list of pointers. -/
theorem Rebuilt.triggerInserts {ls' : List LivePtr} (h : Rebuilt base ls fs)
    (hins : Insertable base.devs (ls ++ ls'))
    (hrun : ls'.foldlM Subvol.triggerInsert fs = some fs') :
    Rebuilt base (ls ++ ls') fs' := by
  have hone : ls'.flatMap (fun l => [l]) = ls' := by simp
  rw [← hone] at hins ⊢
  exact collect_foldlM (Insertable.of_append (c := base.devs))
    (fun _ _ _ _ hins hs hstep => hs.triggerInsert hins hstep) hins h hrun

/-- The triggers of a key insert its pointers. -/
theorem bch2RebuildDerivedForKey_eq (b : PrimaryTree) (fs : RebuildFs) (k : Bpos × LeafKey) :
    bch2RebuildDerivedForKey b fs k =
      (livePtrs (b.val, k.1) (some k.2)).foldlM triggerInsert fs := by
  rw [bch2RebuildDerivedForKey]
  by_cases hptrs : bch2BkeyPtrsC (some k.2) = []
  · rw [bch2TriggerExtent, if_pos (show bch2BkeyPtrsC (some k.2) = bch2BkeyPtrsC none from hptrs),
      livePtrs_of_ptrs_nil hptrs, List.map_nil]
    exact ite_self (some fs)
  · have hkind : ¬keyTriggerKind (some k.2) ≠ 2 := fun hkind => hptrs (livePtrs_of_kind_ne hkind)
    rw [if_neg hkind, bch2TriggerExtent,
      if_neg (show ¬bch2BkeyPtrsC (some k.2) = bch2BkeyPtrsC none from hptrs)]
    congr 1
    simp [triggerExtentPointers, livePtrs, bch2BkeyPtrsC, Function.comp_def]

/-- The pointers of the keys of a tree. -/
def RebuildFs.treePtrs (fs : RebuildFs) (b : PrimaryTree) : List LivePtr :=
  (fs.keys b).entries.flatMap fun k => livePtrs (b.val, k.1) (some k.2)

/-- The rebuild of the keys of a tree. -/
theorem Rebuilt.rebuildTree {b : PrimaryTree} (h : Rebuilt base ls fs)
    (hins : Insertable base.devs (ls ++ base.treePtrs b)) (hrun : rebuildTree fs b = some fs') :
    Rebuilt base (ls ++ base.treePtrs b) fs' := by
  rw [Subvol.rebuildTree, RebuildFs.scanAllSnapshots, walk_advanceAll (fs.keys b).sorted,
    h.keys] at hrun
  refine collect_foldlM (Insertable.of_append (c := base.devs)) ?_ hins h hrun
  intro es s k s' hins hs hstep
  rw [bch2RebuildDerivedForKey_eq] at hstep
  exact hs.triggerInserts hins hstep

/-- The rebuild of all keys, from empty trees. -/
theorem rebuilt_foldlM (hins : Insertable fs.devs fs.primaryPtrs)
    (hrun : primaryTrees.foldlM rebuildTree (clearDerivedTrees fs) = some fs') :
    Rebuilt fs fs.primaryPtrs fs' := by
  have hempty : Rebuilt fs [] (clearDerivedTrees fs) := by
    refine ⟨rfl, rfl, fun a => rfl, fun x => rfl, fun a => ?_⟩
    show 0 < 2 ^ 32
    omega
  have hall : Insertable fs.devs ([] ++ primaryTrees.flatMap fs.treePtrs) := hins
  have hrebuilt := collect_foldlM (Insertable.of_append (c := fs.devs))
    (fun _ _ _ _ hins hs hstep => hs.rebuildTree hins hstep) hall hempty hrun
  exact hrebuilt

end Triggers

/-! ### What the check expects -/

section Expected

variable {c : TriggerCtx} {es rest : List (LivePtr × ℕ)}

/-- The backpointer that the check expects for a pointer. -/
def expectedBackpointer (x : LivePtr × ℕ) : Backpointer := { x.1.backpointer with dataType := x.2 }

/-- What the check has counted. -/
structure Counted (c : TriggerCtx) (es : List (LivePtr × ℕ)) (e : ExpectedDerived) : Prop where
  alloc : ∀ a, e.alloc.get (toLex a) = tally c (es.map Prod.fst) a
  backpointers : ∀ x, e.backpointers.get (toLex x) =
    (es.find? fun y => y.1.bpPos = x).map expectedBackpointer

/-- Pointers that the check can count. -/
structure Countable (c : TriggerCtx) (ls : List LivePtr) : Prop where
  insertable : Insertable c ls
  bucket : ∀ l ∈ ls, (c.members[l.ptr.dev]?.map DevMember.bucketSize).getD 0 ≠ 0
  bound : ∀ a, sectorsAt c a ls < 2 ^ 32

/-- One pointer more. -/
theorem Counted.expectPtr {e : ExpectedDerived} {x : LivePtr × ℕ} (h : Counted c es e)
    (hok : Countable c ((es ++ [x]).map Prod.fst)) :
    ∃ e', expectPtr c e x = .ok e' ∧ Counted c (es ++ [x]) e' := by
  have hmap : (es ++ [x]).map Prod.fst = es.map Prod.fst ++ [x.1] := by simp
  rw [hmap] at hok
  have hnew : ∀ y ∈ es, y.1.bpPos ≠ x.1.bpPos := fun y hy =>
    hok.insertable.notMem y.1 (List.mem_map_of_mem hy)
  have halloc : (e.alloc.get (toLex (allocPos c x.1.ptr))).getD (x.1.ptr.gen, 0) =
      (x.1.ptr.gen, sectorsAt c (allocPos c x.1.ptr) (es.map Prod.fst)) := by
    rw [h.alloc, tally_getD hok.insertable.1]
  have hroom : ¬2 ^ 32 ≤ sectorsAt c (allocPos c x.1.ptr) (es.map Prod.fst) + x.1.size := by
    have hbound := hok.bound (allocPos c x.1.ptr)
    rw [sectorsAt_append] at hbound
    simp only [sectorsAt, List.map_cons, List.map_nil, List.sum_cons, List.sum_nil] at hbound ⊢
    simpa using hbound
  have hfree : ¬(e.backpointers.get (toLex x.1.bpPos)).isSome = true := by
    have hnone : (es.find? fun y => y.1.bpPos = x.1.bpPos) = none :=
      List.find?_eq_none.mpr fun y hy => by simpa using hnew y hy
    rw [h.backpointers, hnone]
    exact Bool.false_ne_true
  rw [Subvol.expectPtr]
  dsimp only
  rw [halloc, if_neg (hok.bucket x.1 (by simp)), if_neg (not_not.mpr rfl), if_neg hroom,
    if_neg hfree]
  refine ⟨_, rfl, fun a => ?_, fun p => ?_⟩
  · dsimp only
    rw [hmap, tally_concat hok.insertable.1, OrdMap.get_set]
    by_cases ha : a = allocPos c x.1.ptr
    · rw [if_pos ha, if_pos (congrArg toLex ha)]
    · rw [if_neg ha, if_neg fun heq => ha (toLex.injective heq), h.alloc]
  · dsimp only
    rw [OrdMap.get_set, find?_key_concat (fun y : LivePtr × ℕ => y.1.bpPos) hnew]
    by_cases hp : p = x.1.bpPos
    · rw [if_pos hp, if_pos (congrArg toLex hp)]
      rfl
    · rw [if_neg hp, if_neg fun heq => hp (toLex.injective heq), h.backpointers]

theorem Countable.of_sublist {ls ls' : List LivePtr} (h : Countable c ls') (hsub : ls.Sublist ls') :
    Countable c ls where
  insertable := ⟨fun l hl l' hl' => h.insertable.1 l (hsub.subset hl) l' (hsub.subset hl'),
    (hsub.map LivePtr.bpPos).nodup h.insertable.2⟩
  bucket l hl := h.bucket l (hsub.subset hl)
  bound a := (sectorsAt_le_of_sublist hsub).trans_lt (h.bound a)

/-- The check counts all pointers it can count. -/
theorem Counted.expectPtrs {e : ExpectedDerived} (h : Counted c es e)
    (hok : Countable c ((es ++ rest).map Prod.fst)) :
    ∃ e', rest.foldlM (Subvol.expectPtr c) e = .ok e' ∧ Counted c (es ++ rest) e' := by
  induction rest generalizing es e with
  | nil => exact ⟨e, rfl, by rwa [List.append_nil]⟩
  | cons x rest ih =>
    rw [List.append_cons] at hok ⊢
    have hfirst : ((es ++ [x]).map Prod.fst).Sublist ((es ++ [x] ++ rest).map Prod.fst) :=
      (List.sublist_append_left _ _).map _
    obtain ⟨e₁, he₁, hcounted⟩ := h.expectPtr (hok.of_sublist hfirst)
    obtain ⟨e', he', hcounted'⟩ := ih hcounted hok
    refine ⟨e', ?_, hcounted'⟩
    rw [List.foldlM_cons, he₁]
    exact he'

theorem expectPtr_foldlM (hok : Countable c (es.map Prod.fst)) :
    ∃ e, es.foldlM (Subvol.expectPtr c) {} = .ok e ∧ Counted c es e := by
  have hempty : Counted c [] {} := ⟨fun _ => rfl, fun _ => rfl⟩
  exact hempty.expectPtrs hok

end Expected

/-! ### The pointers that the check sees -/

namespace RebuildFs

/-- Primary keys whose pointers are valid, agree on the generation of every bucket and are at places
of their own. -/
structure PrimaryValid (fs : RebuildFs) : Prop where
  valid : ∀ l ∈ fs.primaryPtrs, triggerPointerValidate fs.devs l.ptr = true
  gens : SameGens fs.devs fs.primaryPtrs
  distinct : (fs.primaryPtrs.map LivePtr.bpPos).Nodup

/-- The trees, with members in the superblock, of which the rebuild makes what the check expects. -/
structure Reproduced (fs : RebuildFs) : Prop where
  /-- No key with pointers has another one before it at its inode and offset. -/
  first : ∀ b, ∀ k ∈ (fs.keys b).entries, livePtrs (b.val, k.1) (some k.2) ≠ [] →
    ∀ k' ∈ (fs.keys b).entries, bkeyEq k'.1 k.1 → k.1 ≤ k'.1
  extent : ∀ b, ∀ k ∈ (fs.keys b).entries, livePtrs (b.val, k.1) (some k.2) ≠ [] →
    ∃ entries, k.2.val = .extent entries
  /-- A bucket with pointers has sectors. -/
  sectors : ∀ l ∈ fs.primaryPtrs, ∃ l' ∈ fs.primaryPtrs,
    allocPos fs.devs l'.ptr = allocPos fs.devs l.ptr ∧ l'.size ≠ 0
  /-- An alloc key of a bucket with pointers had their generation. -/
  gens : ∀ l ∈ fs.primaryPtrs, ∀ old, fs.alloc.get (toLex (allocPos fs.devs l.ptr)) = some old →
    old.gen = l.ptr.gen
  /-- An alloc key of a bucket without pointers counted no sectors. -/
  unused : ∀ a old, fs.alloc.get (toLex a) = some old →
    (∀ l ∈ fs.primaryPtrs, allocPos fs.devs l.ptr ≠ a) → old.dirtySectors = 0

/-- The trees for which the check succeeds behind a rebuild. Without members in the superblock the
rebuild leaves the derived trees as they are. -/
def Rechecks (fs : RebuildFs) : Prop :=
  if fs.devs.membersV2 then fs.Reproduced
  else (∀ a old, fs.alloc.get a = some old → old.dirtySectors = 0) ∧
    ∀ x, fs.backpointers.get x = none

section Scan

variable {fs : RebuildFs} {l : LivePtr}

theorem mem_primaryPtrs :
    l ∈ fs.primaryPtrs ↔ ∃ b, ∃ k ∈ (fs.keys b).entries, l ∈ livePtrs (b.val, k.1) (some k.2) := by
  simp only [primaryPtrs, List.mem_flatMap, mem_primaryTrees, true_and]

theorem mem_scannedPtrs {n : ℕ} :
    (l, n) ∈ fs.scannedPtrs ↔
      ∃ b, ∃ k ∈ fs.scanRawLocked b, l ∈ livePtrs (b.val, k.1) (some k.2) ∧ k.2.bpDataType = n := by
  simp only [scannedPtrs, List.mem_flatMap, mem_primaryTrees, true_and, List.mem_map,
    Prod.mk.injEq]
  constructor
  · rintro ⟨b, k, hk, l', hl', rfl, hn⟩
    exact ⟨b, k, hk, hl', hn⟩
  · rintro ⟨b, k, hk, hl, hn⟩
    exact ⟨b, k, hk, l, hl, rfl, hn⟩

/-- The check sees a part of the pointers, in their order. -/
theorem scannedPtrs_sublist (fs : RebuildFs) :
    (fs.scannedPtrs.map Prod.fst).Sublist fs.primaryPtrs := by
  rw [scannedPtrs, primaryPtrs, List.map_flatMap]
  refine List.Sublist.flatMap_right _ fun b _ => ?_
  rw [List.map_flatMap]
  simp only [List.map_map, Function.comp_def, List.map_id']
  exact (walk_sublist _ _).flatMap _

theorem livePtrs_place {place : PtrTree × Bpos} {k : Option LeafKey} (h : l ∈ livePtrs place k) :
    (l.btree, l.pos) = place := by
  obtain ⟨e, -, he⟩ := List.mem_filterMap.mp h
  cases e with
  | ptr cached unwritten p =>
    cases he
    rfl
  | crc32 | crc64 | crc128 | other => cases he

/-- A pointer belongs to one key. -/
theorem key_eq_of_mem_livePtrs {b b' : PrimaryTree} {k k' : Bpos × LeafKey}
    (hk : k ∈ (fs.keys b).entries) (hk' : k' ∈ (fs.keys b').entries)
    (hl : l ∈ livePtrs (b.val, k.1) (some k.2)) (hl' : l ∈ livePtrs (b'.val, k'.1) (some k'.2)) :
    b = b' ∧ k = k' := by
  obtain ⟨hb, hpos⟩ := Prod.mk.inj ((livePtrs_place hl).symm.trans (livePtrs_place hl'))
  have hb : b = b' := Subtype.ext hb
  subst hb
  refine ⟨rfl, Prod.ext hpos ?_⟩
  have hget := ((fs.keys b).mem_entries_iff (k := k.1) (v := k.2)).mp hk
  have hget' := ((fs.keys b).mem_entries_iff (k := k'.1) (v := k'.2)).mp hk'
  rw [← hpos, hget] at hget'
  exact Option.some.inj hget'

/-- The check sees a key if none lies before it at its inode and offset. -/
theorem mem_scanRawLocked {b : PrimaryTree} {k : Bpos × LeafKey} :
    k ∈ fs.scanRawLocked b ↔ k ∈ (fs.keys b).entries ∧
      ∀ k' ∈ (fs.keys b).entries, bkeyEq k'.1 k.1 → k.1 ≤ k'.1 := by
  rw [scanRawLocked, mem_walk_advanceSlot (fs.keys b).sorted]
  simp only [bkeyEq_iff]

/-- When it sees all keys with pointers, it sees all pointers. -/
theorem scannedPtrs_eq (hnodup : (fs.primaryPtrs.map LivePtr.bpPos).Nodup)
    (hfirst : ∀ b, ∀ k ∈ (fs.keys b).entries, livePtrs (b.val, k.1) (some k.2) ≠ [] →
      ∀ k' ∈ (fs.keys b).entries, bkeyEq k'.1 k.1 → k.1 ≤ k'.1) :
    fs.scannedPtrs.map Prod.fst = fs.primaryPtrs := by
  refine fs.scannedPtrs_sublist.eq_of_length_le (hnodup.of_map.length_le_of_subset ?_)
  intro l hl
  obtain ⟨b, k, hk, hlk⟩ := mem_primaryPtrs.mp hl
  have hscan : k ∈ fs.scanRawLocked b :=
    mem_scanRawLocked.mpr ⟨hk, hfirst b k hk (List.ne_nil_of_mem hlk)⟩
  exact List.mem_map.mpr ⟨(l, _), mem_scannedPtrs.mpr ⟨b, k, hscan, hlk, rfl⟩, rfl⟩

end Scan

end RebuildFs

/-! ### The comparison -/

section Compare

variable {fs fs₁ fs' : RebuildFs}

theorem eq_of_bpPos_eq {ls : List LivePtr} (h : (ls.map LivePtr.bpPos).Nodup) {l l' : LivePtr}
    (hl : l ∈ ls) (hl' : l' ∈ ls) (hpos : l.bpPos = l'.bpPos) : l = l' :=
  List.inj_on_of_nodup_map h hl hl' hpos

theorem LeafKey.bpDataType_eq_zero_iff {k : LeafKey} :
    k.bpDataType = 0 ↔ ∃ entries, k.val = .extent entries := by
  rw [LeafKey.bpDataType]
  cases k.val with
  | extent entries => exact ⟨fun _ => ⟨entries, rfl⟩, fun _ => rfl⟩
  | btreePtr | btreePtrV2 | other =>
    constructor
    · intro h
      cases h
    · rintro ⟨entries, h⟩
      cases h

/-- When the backpointers are those expected, every pointer is seen as one of an extent. -/
theorem scanned_of_backpointers_eq (hvalid : fs.PrimaryValid)
    (h : ∀ x, (fs.primaryPtrs.find? fun l => l.bpPos = x).map LivePtr.backpointer =
      (fs.scannedPtrs.find? fun y => y.1.bpPos = x).map expectedBackpointer)
    {l : LivePtr} (hl : l ∈ fs.primaryPtrs) : (l, 0) ∈ fs.scannedPtrs := by
  have hfound : (fs.primaryPtrs.find? fun l' => l'.bpPos = l.bpPos) = some l := by
    cases hfind : fs.primaryPtrs.find? fun l' => l'.bpPos = l.bpPos with
    | none => exact absurd (decide_eq_true rfl) (List.find?_eq_none.mp hfind l hl)
    | some l' =>
      have hpos : l'.bpPos = l.bpPos := by simpa using List.find?_some hfind
      rw [eq_of_bpPos_eq hvalid.distinct (List.mem_of_find?_eq_some hfind) hl hpos]
  have heq := h l.bpPos
  rw [hfound, Option.map_some] at heq
  obtain ⟨⟨l', n⟩, hy, hbp⟩ := Option.map_eq_some_iff.mp heq.symm
  have hmem := List.mem_of_find?_eq_some hy
  have hpos : l'.bpPos = l.bpPos := by simpa using List.find?_some hy
  have hl' : l' ∈ fs.primaryPtrs :=
    fs.scannedPtrs_sublist.subset (List.mem_map.mpr ⟨_, hmem, rfl⟩)
  obtain rfl := eq_of_bpPos_eq hvalid.distinct hl' hl hpos
  have hzero : n = 0 := congrArg Backpointer.dataType hbp
  rwa [hzero] at hmem

/-- The backpointers are those expected for extents that are the first keys of their offsets. -/
theorem backpointers_eq_iff (hvalid : fs.PrimaryValid) :
    (∀ x, (fs.primaryPtrs.find? fun l => l.bpPos = x).map LivePtr.backpointer =
      (fs.scannedPtrs.find? fun y => y.1.bpPos = x).map expectedBackpointer) ↔
    (∀ b, ∀ k ∈ (fs.keys b).entries, livePtrs (b.val, k.1) (some k.2) ≠ [] →
      ∀ k' ∈ (fs.keys b).entries, bkeyEq k'.1 k.1 → k.1 ≤ k'.1) ∧
    ∀ b, ∀ k ∈ (fs.keys b).entries, livePtrs (b.val, k.1) (some k.2) ≠ [] →
      ∃ entries, k.2.val = .extent entries := by
  constructor
  · intro h
    have hseen : ∀ b, ∀ k ∈ (fs.keys b).entries, livePtrs (b.val, k.1) (some k.2) ≠ [] →
        k ∈ fs.scanRawLocked b ∧ k.2.bpDataType = 0 := by
      intro b k hk hne
      obtain ⟨l, hl⟩ := List.exists_mem_of_ne_nil _ hne
      have hmem := scanned_of_backpointers_eq hvalid h
        (RebuildFs.mem_primaryPtrs.mpr ⟨b, k, hk, hl⟩)
      obtain ⟨b', k', hk', hl', hn⟩ := RebuildFs.mem_scannedPtrs.mp hmem
      have hentry := (RebuildFs.mem_scanRawLocked.mp hk').1
      obtain ⟨rfl, rfl⟩ := RebuildFs.key_eq_of_mem_livePtrs hk hentry hl hl'
      exact ⟨hk', hn⟩
    refine ⟨fun b k hk hne => ?_, fun b k hk hne => ?_⟩
    · exact (RebuildFs.mem_scanRawLocked.mp (hseen b k hk hne).1).2
    · exact LeafKey.bpDataType_eq_zero_iff.mp (hseen b k hk hne).2
  · rintro ⟨hfirst, hextent⟩ x
    rw [← RebuildFs.scannedPtrs_eq hvalid.distinct hfirst, List.find?_map, Option.map_map]
    cases hy : fs.scannedPtrs.find? fun y => y.1.bpPos = x with
    | none =>
      have hnone : fs.scannedPtrs.find? ((fun l => decide (l.bpPos = x)) ∘ Prod.fst) = none := hy
      rw [hnone]
      rfl
    | some y =>
      have hsome : fs.scannedPtrs.find? ((fun l => decide (l.bpPos = x)) ∘ Prod.fst) = some y := hy
      obtain ⟨l, n⟩ := y
      obtain ⟨b, k, hk, hl, rfl⟩ :=
        RebuildFs.mem_scannedPtrs.mp (List.mem_of_find?_eq_some hy)
      have hzero := LeafKey.bpDataType_eq_zero_iff.mpr (hextent b k
        (RebuildFs.mem_scanRawLocked.mp hk).1 (List.ne_nil_of_mem hl))
      rw [hsome, Option.map_some, Option.map_some, hzero]
      rfl

/-- The alloc keys of the rebuilt trees that the check looks at. -/
theorem get_actualAlloc (preserved : OrdMap (ℕ ×ₗ ℕ) BucketAlloc) (fs : RebuildFs)
    (a : ℕ ×ₗ ℕ) :
    (rebuildFreespace (restoreAlloc preserved fs)).actualAlloc.get a =
      (((preserved.get a).map fun old => old.restored (fs.alloc.get a)).or
        (fs.alloc.get a)).bind fun b =>
          if b.dirtySectors ≠ 0 then some (b.gen, b.dirtySectors) else none := by
  rw [RebuildFs.actualAlloc, OrdMap.get_mapSome]
  have hget := OrdMap.get_setAll fs.alloc preserved (fun p old => old.restored (fs.alloc.get p)) a
  rw [← hget]
  rfl

/-- One bucket: what is found in the alloc tree is what the pointers give. -/
theorem actualAlloc_eq_iff (h : Rebuilt fs fs.primaryPtrs fs₁) (a : ℕ × ℕ) :
    (rebuildFreespace (restoreAlloc fs.alloc fs₁)).actualAlloc.get (toLex a) =
        tally fs.devs fs.primaryPtrs a ↔
      match tally fs.devs fs.primaryPtrs a with
      | none => ∀ old, fs.alloc.get (toLex a) = some old → old.dirtySectors = 0
      | some x => x.2 ≠ 0 ∧ ∀ old, fs.alloc.get (toLex a) = some old → old.gen = x.1 := by
  rw [get_actualAlloc, ← h.alloc a]
  cases hnew : fs₁.alloc.get (toLex a) with
  | none =>
    cases hold : fs.alloc.get (toLex a) with
    | none => simp
    | some old => simp [BucketAlloc.restored]
  | some b =>
    cases hold : fs.alloc.get (toLex a) with
    | none => simp
    | some old =>
      by_cases hzero : b.dirtySectors = 0
      · simp [BucketAlloc.restored, hzero]
      · simp [BucketAlloc.restored, hzero]

/-- All buckets. -/
theorem actualAlloc_iff (hvalid : fs.PrimaryValid) (h : Rebuilt fs fs.primaryPtrs fs₁) :
    (∀ a, (rebuildFreespace (restoreAlloc fs.alloc fs₁)).actualAlloc.get (toLex a) =
      tally fs.devs fs.primaryPtrs a) ↔
    (∀ l ∈ fs.primaryPtrs, ∃ l' ∈ fs.primaryPtrs,
      allocPos fs.devs l'.ptr = allocPos fs.devs l.ptr ∧ l'.size ≠ 0) ∧
    (∀ l ∈ fs.primaryPtrs, ∀ old, fs.alloc.get (toLex (allocPos fs.devs l.ptr)) = some old →
      old.gen = l.ptr.gen) ∧
    ∀ a old, fs.alloc.get (toLex a) = some old →
      (∀ l ∈ fs.primaryPtrs, allocPos fs.devs l.ptr ≠ a) → old.dirtySectors = 0 := by
  simp only [actualAlloc_eq_iff h]
  constructor
  · intro hall
    refine ⟨fun l hl => ?_, fun l hl old hold => ?_, fun a old hold hnone => ?_⟩
    · have ha := hall (allocPos fs.devs l.ptr)
      rw [tally_of_mem hvalid.gens hl] at ha
      exact sectorsAt_ne_zero_iff.mp ha.1
    · have ha := hall (allocPos fs.devs l.ptr)
      rw [tally_of_mem hvalid.gens hl] at ha
      exact ha.2 old hold
    · have ha := hall a
      rw [tally_eq_none_iff.mpr hnone] at ha
      exact ha old hold
  · rintro ⟨hsectors, hgens, hunused⟩ a
    by_cases hused : ∃ l ∈ fs.primaryPtrs, allocPos fs.devs l.ptr = a
    · obtain ⟨l, hl, rfl⟩ := hused
      rw [tally_of_mem hvalid.gens hl]
      exact ⟨sectorsAt_ne_zero_iff.mpr (hsectors l hl), hgens l hl⟩
    · have hnone : ∀ l ∈ fs.primaryPtrs, allocPos fs.devs l.ptr ≠ a :=
        fun l hl ha => hused ⟨l, hl, ha⟩
      rw [tally_eq_none_iff.mpr hnone]
      exact fun old hold => hunused a old hold hnone

/-- A valid pointer is into a device with buckets. -/
theorem bucketSize_ne_zero {c : TriggerCtx} {p : ExtentPtr}
    (h : triggerPointerValidate c p = true) :
    (c.members[p.dev]?.map DevMember.bucketSize).getD 0 ≠ 0 := by
  rw [triggerPointerValidate] at h
  cases hm : c.members[p.dev]? with
  | none =>
    rw [hm] at h
    cases h
  | some m =>
    rw [hm] at h
    simp only [Bool.and_eq_true, bne_iff_ne, ne_eq] at h
    simpa using h.1.1.2

/-- The check of trees in which it counts what is expected. -/
theorem check_eq_ok_iff {e : ExpectedDerived}
    (he : fs.scannedPtrs.foldlM (expectPtr fs.devs) {} = .ok e) :
    checkExtentsToBackpointers fs = .ok () ↔
      (∀ a, fs.actualAlloc.get (toLex a) = e.alloc.get (toLex a)) ∧
        ∀ x, fs.backpointers.get (toLex x) = e.backpointers.get (toLex x) := by
  have hlex {ν : Type} {m m' : OrdMap (ℕ ×ₗ ℕ) ν} :
      (∀ a : ℕ × ℕ, m.get (toLex a) = m'.get (toLex a)) ↔ m.entries = m'.entries := by
    rw [OrdMap.entries_eq_iff]
    exact ⟨fun h k => h (ofLex k), fun h a => h (toLex a)⟩
  rw [hlex, hlex, checkExtentsToBackpointers, he]
  dsimp only
  split_ifs with halloc hbp
  · exact ⟨fun h => (by cases h), fun h => absurd h.1 halloc⟩
  · exact ⟨fun h => (by cases h), fun h => absurd h.2 hbp⟩
  · exact ⟨fun _ => ⟨not_not.mp halloc, not_not.mp hbp⟩, fun _ => rfl⟩

/-- With members in the superblock: the check behind the rebuild of all keys. -/
theorem check_restored_iff (hvalid : fs.PrimaryValid) (h : Rebuilt fs fs.primaryPtrs fs₁) :
    checkExtentsToBackpointers (rebuildFreespace (restoreAlloc fs.alloc fs₁)) = .ok () ↔
      fs.Reproduced := by
  have hdevs : (rebuildFreespace (restoreAlloc fs.alloc fs₁)).devs = fs.devs := h.devs
  have hscan : (rebuildFreespace (restoreAlloc fs.alloc fs₁)).scannedPtrs = fs.scannedPtrs := by
    have hkeys : (rebuildFreespace (restoreAlloc fs.alloc fs₁)).keys = fs.keys := h.keys
    simp only [RebuildFs.scannedPtrs, RebuildFs.scanRawLocked, hkeys]
  have hall : Countable fs.devs fs.primaryPtrs :=
    ⟨⟨hvalid.gens, hvalid.distinct⟩, fun l hl => bucketSize_ne_zero (hvalid.valid l hl), h.bound⟩
  obtain ⟨e, he, hcounted⟩ := expectPtr_foldlM (hall.of_sublist fs.scannedPtrs_sublist)
  have hbp : ∀ x, (rebuildFreespace (restoreAlloc fs.alloc fs₁)).backpointers.get (toLex x) =
      (fs.primaryPtrs.find? fun l => l.bpPos = x).map LivePtr.backpointer := h.backpointers
  rw [check_eq_ok_iff (by rw [hscan, hdevs]; exact he)]
  simp only [hcounted.alloc, hcounted.backpointers, hbp]
  rw [backpointers_eq_iff hvalid]
  constructor
  · rintro ⟨halloc, hfirst, hextent⟩
    rw [RebuildFs.scannedPtrs_eq hvalid.distinct hfirst] at halloc
    obtain ⟨hsectors, hgens, hunused⟩ := (actualAlloc_iff hvalid h).mp halloc
    exact ⟨hfirst, hextent, hsectors, hgens, hunused⟩
  · rintro ⟨hfirst, hextent, hsectors, hgens, hunused⟩
    rw [RebuildFs.scannedPtrs_eq hvalid.distinct hfirst]
    exact ⟨(actualAlloc_iff hvalid h).mpr ⟨hsectors, hgens, hunused⟩, hfirst, hextent⟩

/-- Without members in the superblock no pointer is valid. -/
theorem primaryPtrs_eq_nil (hvalid : fs.PrimaryValid) (hmembers : fs.devs.membersV2 = false) :
    fs.primaryPtrs = [] := by
  refine List.eq_nil_iff_forall_not_mem.mpr fun l hl => ?_
  have hptr := hvalid.valid l hl
  rw [triggerPointerValidate, hmembers] at hptr
  cases hm : fs.devs.members[l.ptr.dev]? with
  | none =>
    rw [hm] at hptr
    cases hptr
  | some m =>
    rw [hm] at hptr
    simp at hptr

/-- Without members in the superblock: the check of trees that the rebuild did not touch. -/
theorem check_untouched_iff (hptrs : fs.primaryPtrs = []) :
    checkExtentsToBackpointers fs = .ok () ↔
      (∀ a old, fs.alloc.get a = some old → old.dirtySectors = 0) ∧
        ∀ x, fs.backpointers.get x = none := by
  have hscan : fs.scannedPtrs = [] := by
    have hsub := fs.scannedPtrs_sublist
    rw [hptrs, List.sublist_nil, List.map_eq_nil_iff] at hsub
    exact hsub
  have he : fs.scannedPtrs.foldlM (expectPtr fs.devs) {} = .ok {} := by
    rw [hscan]
    rfl
  rw [check_eq_ok_iff he]
  refine and_congr ⟨fun h a old hold => ?_, fun h a => ?_⟩ ⟨fun h x => h (ofLex x), fun h x => ?_⟩
  · by_contra hne
    have ha := h (ofLex a)
    rw [RebuildFs.actualAlloc, OrdMap.get_mapSome, toLex_ofLex, hold, Option.bind_some,
      if_pos hne] at ha
    cases ha
  · rw [RebuildFs.actualAlloc, OrdMap.get_mapSome]
    cases hold : fs.alloc.get (toLex a) with
    | none => rfl
    | some old => rw [Option.bind_some, if_neg (not_not.mpr (h _ old hold))]; rfl
  · exact h (toLex x)

/-- The check succeeds behind a rebuild exactly for the trees in which the two count the same. -/
theorem check_rebuilt_iff {fault : Bool} (hvalid : fs.PrimaryValid)
    (hrun : rebuildDerivedState fs fault = .ok fs') :
    checkExtentsToBackpointers fs' = .ok () ↔ fs.Rechecks := by
  rw [rebuildDerivedState] at hrun
  rw [RebuildFs.Rechecks]
  by_cases hmembers : fs.devs.membersV2 = true
  · rw [if_pos hmembers]
    rw [hmembers, Bool.not_true, if_neg Bool.false_ne_true] at hrun
    split_ifs at hrun
    cases hfold : primaryTrees.foldlM rebuildTree (clearDerivedTrees fs) with
    | none =>
      rw [hfold] at hrun
      cases hrun
    | some fs₁ =>
      rw [hfold] at hrun
      cases hrun
      exact check_restored_iff hvalid (rebuilt_foldlM ⟨hvalid.gens, hvalid.distinct⟩ hfold)
  · have hfalse : fs.devs.membersV2 = false := Bool.eq_false_iff.mpr hmembers
    rw [if_neg hmembers]
    rw [hfalse, Bool.not_false, if_pos rfl] at hrun
    cases hrun
    exact check_untouched_iff (primaryPtrs_eq_nil hvalid hfalse)

end Compare

/-! ### Two images -/

/-- The extents tree. -/
def extentsTree : PrimaryTree := ⟨⟨0, ptrTree_extents⟩, primaryTree_extents⟩

/-- An extent of a bucket with one pointer to it. -/
def bucketExtent (bucket : ℕ) : LeafKey where
  size := 8
  val := .extent [.ptr false false ⟨0, 1, 8 * bucket⟩]

/-- A device with extents at an offset of inode 1, in the snapshots given, each with a bucket of its
own. -/
def snapshotImage (snapshots : List (Fin (2 ^ 32))) : RebuildFs where
  devs := { members := [{ bucketSize := 8, firstBucket := 1, nbuckets := 16 }] }
  keys b := if b = extentsTree then
      OrdMap.empty.setAll (snapshots.map fun s => (⟨1, 8, s⟩, bucketExtent (s.val + 1)))
    else .empty
  alloc := OrdMap.empty.set (toLex (0, 4)) { gen := 1, dirtySectors := 8, rest := [0, 3] }

/-- One snapshot: the alloc key of its bucket from before has the generation of the pointer, and the
check succeeds. -/
theorem check_rebuilt_one_snapshot :
    (snapshotImage [3]).PrimaryValid ∧
      ∃ fs', rebuildDerivedState (snapshotImage [3]) false = .ok fs' ∧
        checkExtentsToBackpointers fs' = .ok () ∧ (snapshotImage [3]).Rechecks := by
  have hvalid : (snapshotImage [3]).PrimaryValid :=
    ⟨by decide +kernel, by unfold SameGens; decide +kernel, by decide +kernel⟩
  have hrun : (rebuildDerivedState (snapshotImage [3]) false).map checkExtentsToBackpointers =
      .ok (.ok ()) := by decide +kernel
  refine ⟨hvalid, ?_⟩
  cases hrebuilt : rebuildDerivedState (snapshotImage [3]) false with
  | error e =>
    rw [hrebuilt] at hrun
    cases hrun
  | ok fs' =>
    rw [hrebuilt] at hrun
    have hcheck : checkExtentsToBackpointers fs' = .ok () := Except.ok.inj hrun
    exact ⟨fs', rfl, hcheck, (check_rebuilt_iff hvalid hrebuilt).mp hcheck⟩

/-- Two snapshots of one offset: the rebuild enters the pointers of both, the check counts one. -/
theorem check_rebuilt_two_snapshots :
    (snapshotImage [3, 5]).PrimaryValid ∧
      ∃ fs', rebuildDerivedState (snapshotImage [3, 5]) false = .ok fs' ∧
        checkExtentsToBackpointers fs' = .error (.derivedState .allocSet) := by
  have hvalid : (snapshotImage [3, 5]).PrimaryValid :=
    ⟨by decide +kernel, by unfold SameGens; decide +kernel, by decide +kernel⟩
  have hrun : (rebuildDerivedState (snapshotImage [3, 5]) false).map checkExtentsToBackpointers =
      .ok (.error (.derivedState .allocSet)) := by decide +kernel
  refine ⟨hvalid, ?_⟩
  cases hrebuilt : rebuildDerivedState (snapshotImage [3, 5]) false with
  | error e =>
    rw [hrebuilt] at hrun
    cases hrun
  | ok fs' =>
    rw [hrebuilt] at hrun
    exact ⟨fs', rfl, Except.ok.inj hrun⟩

end Subvol

import Mathlib.Tactic.Common
import Subvol.Btree.Cache

/-!
# The lists and counters of the node cache

In every run every node is on the list of its state and pin class, the counters are the lengths of
the lists, and the hash table holds the nodes in a hashed state. The lists and the table are apart:
a transition first changes the table, and then moves the node between the lists.

## Main definitions

* `ListsOk`, `HashOk`, `CacheOk`.
* `CacheCall`, `cacheCall`, `CacheRun`: the calls, and what others do to the nodes in between.

## Main results

* `bch2BtreeNodeTransitionStateLocked_ok`, `bch2NodePin_ok`, `bch2BtreeCacheUnpin_ok`.
* `cacheRun_ok`: every run keeps `CacheOk`, and no call counts below zero.
-/

namespace Subvol

open Lib

variable {N : Type} [DecidableEq N]

/-! ### Lists and counters -/

theorem takeOne_of_pos {n : ℕ} (h : 0 < n) : takeOne n = .ok (n - 1) := by
  obtain ⟨m, rfl⟩ : ∃ m, n = m + 1 := ⟨n - 1, by omega⟩
  rfl

namespace CacheNode

/-- The list of a node in a state. -/
def listOf (n : CacheNode) : BtreeNodeCacheState → Option CacheList
  | .none => none
  | .clean => some (.clean n.pinned)
  | .dirty => some (.dirty n.pinned)
  | .freeable => some .freeable
  | .freed => some (if n.pcpu then .freedPcpu else .freedNonpcpu)

/-- The list that a node is to be on. -/
def list (n : CacheNode) : Option CacheList := n.listOf n.cacheState

end CacheNode

/-- The counter of a list. -/
def BtreeCache.counter (bc : BtreeCache N) : CacheList → Option ℕ
  | .clean pinned => some (bc.live pinned).nrClean
  | .dirty pinned => some (bc.live pinned).nrDirty
  | .freeable => some bc.nrFreeable
  | .freedPcpu => none
  | .freedNonpcpu => none

/-- The nodes are on the lists that `place` gives, and the counters are the lengths. -/
structure ListsOk (bc : BtreeCache N) (place : N → Option CacheList) : Prop where
  placed : OnLists bc.lists place
  counted : ∀ l n, bc.counter l = some n → n = (bc.lists l).length

namespace ListsOk

variable {bc bc' : BtreeCache N} {place : N → Option CacheList} (h : ListsOk bc place)
include h

omit [DecidableEq N] in
theorem congr (hlists : bc'.lists = bc.lists) (hlive : bc'.live = bc.live)
    (hfreeable : bc'.nrFreeable = bc.nrFreeable) : ListsOk bc' place := by
  refine ⟨hlists ▸ h.placed, fun l n hn => hlists ▸ h.counted l n ?_⟩
  rw [← hn]
  cases l <;> simp only [BtreeCache.counter, hlive, hfreeable]

/-- A node is taken off its list, and the counter follows. -/
theorem off {b : N} {l : CacheList} (hb : place b = some l)
    (hlists : bc'.lists = takeOff bc.lists b)
    (hcount : ∀ l', bc'.counter l' =
      if l' = l then (bc.counter l').map (· - 1) else bc.counter l') :
    ListsOk bc' (Function.update place b none) := by
  refine ⟨hlists ▸ h.placed.takeOff b, fun l' n hn => ?_⟩
  rw [hcount] at hn
  rw [hlists]
  split_ifs at hn with hl
  · obtain ⟨m, hm, rfl⟩ := Option.map_eq_some_iff.mp hn
    rw [hl, h.placed.length_takeOff hb, ← hl, h.counted l' m hm]
  · rw [h.placed.takeOff_of_ne fun hl' => hl (Option.some.inj (hl'.symm.trans hb)),
      h.counted l' n hn]

/-- A node on no list is taken off none. -/
theorem off_none {b : N} (hb : place b = none) :
    ListsOk { bc with lists := takeOff bc.lists b } (Function.update place b none) := by
  refine ⟨h.placed.takeOff b, fun l n hn => ?_⟩
  dsimp only
  rw [h.placed.takeOff_of_ne (hb.trans_ne nofun), h.counted l n hn]

/-- A node is put on a list, and the counter follows. -/
theorem on {b : N} {l : CacheList} (hb : place b = none)
    (hlists : bc'.lists = putFirst bc.lists l b ∨ bc'.lists = putLast bc.lists l b)
    (hcount : ∀ l', bc'.counter l' =
      if l' = l then (bc.counter l').map (· + 1) else bc.counter l') :
    ListsOk bc' (Function.update place b (some l)) := by
  have hlength (l' : CacheList) : (bc'.lists l').length =
      if l' = l then (bc.lists l').length + 1 else (bc.lists l').length := by
    rcases hlists with hlists | hlists
    · rw [hlists, putFirst, Function.update_apply]
      split_ifs with hl
      · rw [hl, List.length_cons]
      · rfl
    · rw [hlists, putLast, Function.update_apply]
      split_ifs with hl
      · rw [hl, List.length_append, List.length_singleton]
      · rfl
  refine ⟨?_, fun l' n hn => ?_⟩
  · rcases hlists with hlists | hlists
    · exact hlists ▸ h.placed.putFirst hb l
    · exact hlists ▸ h.placed.putLast hb l
  · rw [hcount] at hn
    rw [hlength]
    split_ifs at hn ⊢ with hl
    · obtain ⟨m, hm, rfl⟩ := Option.map_eq_some_iff.mp hn
      rw [h.counted l' m hm]
    · exact h.counted l' n hn

/-- A node is moved from a list to the end of another, and first the one counter follows, then the
other. -/
theorem move (off : BtreeCache N) {b : N} {l l' : CacheList} (hb : place b = some l)
    (hoff : off.lists = takeOff bc.lists b)
    (htaken : ∀ m, off.counter m = if m = l then (bc.counter m).map (· - 1) else bc.counter m)
    (hlists : bc'.lists = putLast off.lists l' b)
    (hput : ∀ m, bc'.counter m = if m = l' then (off.counter m).map (· + 1) else off.counter m) :
    ListsOk bc' (Function.update place b (some l')) := by
  have hon := (h.off hb hoff htaken).on (Function.update_self b none place) (Or.inr hlists) hput
  rwa [Function.update_idem] at hon

omit [DecidableEq N] in
/-- The counter of the list of a node is not zero. -/
theorem counter_pos {b : N} {l : CacheList} {n : ℕ} (hb : place b = some l)
    (hn : bc.counter l = some n) : takeOne n = .ok (n - 1) := by
  have hpos := h.placed.length_pos hb
  rw [← h.counted l n hn] at hpos
  exact takeOne_of_pos hpos

end ListsOk

/-! ### Counters -/

section Counters

variable (bc : BtreeCache N) (f : ℕ → ℕ) (pinned : Bool) (l : CacheList)

omit [DecidableEq N] in
theorem counter_clean :
    (bc.setLive pinned { bc.live pinned with nrClean := f (bc.live pinned).nrClean }).counter l =
      if l = .clean pinned then (bc.counter l).map f else bc.counter l := by
  cases l with
  | clean p =>
    by_cases hp : p = pinned
    · simp [BtreeCache.counter, BtreeCache.setLive, hp]
    · simp [BtreeCache.counter, BtreeCache.setLive, hp]
  | dirty p =>
    by_cases hp : p = pinned
    · simp [BtreeCache.counter, BtreeCache.setLive, hp]
    · simp [BtreeCache.counter, BtreeCache.setLive, hp]
  | _ => simp [BtreeCache.counter, BtreeCache.setLive]

omit [DecidableEq N] in
theorem counter_dirty :
    (bc.setLive pinned { bc.live pinned with nrDirty := f (bc.live pinned).nrDirty }).counter l =
      if l = .dirty pinned then (bc.counter l).map f else bc.counter l := by
  cases l with
  | clean p =>
    by_cases hp : p = pinned
    · simp [BtreeCache.counter, BtreeCache.setLive, hp]
    · simp [BtreeCache.counter, BtreeCache.setLive, hp]
  | dirty p =>
    by_cases hp : p = pinned
    · simp [BtreeCache.counter, BtreeCache.setLive, hp]
    · simp [BtreeCache.counter, BtreeCache.setLive, hp]
  | _ => simp [BtreeCache.counter, BtreeCache.setLive]

omit [DecidableEq N] in
theorem counter_freeable :
    ({ bc with nrFreeable := f bc.nrFreeable } : BtreeCache N).counter l =
      if l = .freeable then (bc.counter l).map f else bc.counter l := by
  cases l <;> simp [BtreeCache.counter]

omit [DecidableEq N] in
/-- The lists of freed nodes are not counted. -/
theorem counter_freed {l' : CacheList} (h : l' = .freedPcpu ∨ l' = .freedNonpcpu) :
    bc.counter l = if l = l' then (bc.counter l).map f else bc.counter l := by
  split_ifs with hl
  · rw [hl]
    rcases h with rfl | rfl
    · rfl
    · rfl
  · rfl

end Counters

/-! ### Leaving and entering a state -/

/-- What a change of lists and counters leaves alone. -/
structure SameTable (bc bc' : BtreeCache N) : Prop where
  table : bc'.table = bc.table
  nrByBtree : bc'.nrByBtree = bc.nrByBtree

/-- A node leaves the list of its state. -/
theorem uncountNode_ok {bc : BtreeCache N} {place : N → Option CacheList} (h : ListsOk bc place)
    {b : N} {old : BtreeNodeCacheState} (hb : place b = (bc.nodes b).listOf old) :
    ∃ bc', uncountNode bc b old = .ok bc' ∧
      ListsOk { bc' with lists := takeOff bc'.lists b } (Function.update place b none) ∧
      bc'.nodes = bc.nodes ∧ SameTable bc bc' := by
  cases old with
  | none => exact ⟨bc, rfl, h.off_none hb, rfl, rfl, rfl⟩
  | clean =>
    rw [uncountNode, h.counter_pos hb rfl]
    exact ⟨_, rfl, h.off hb rfl (counter_clean bc (· - 1) _), rfl, rfl, rfl⟩
  | dirty =>
    rw [uncountNode, h.counter_pos hb rfl]
    exact ⟨_, rfl, h.off hb rfl (counter_dirty bc (· - 1) _), rfl, rfl, rfl⟩
  | freeable =>
    rw [uncountNode, h.counter_pos hb rfl]
    exact ⟨_, rfl, h.off hb rfl (counter_freeable bc (· - 1)), rfl, rfl, rfl⟩
  | freed =>
    refine ⟨bc, rfl, h.off hb rfl fun l => counter_freed bc (· - 1) l ?_, rfl, rfl, rfl⟩
    split_ifs
    · exact Or.inl rfl
    · exact Or.inr rfl

/-- A node goes on the list of its new state. -/
theorem countNode_ok {bc : BtreeCache N} {place : N → Option CacheList} (h : ListsOk bc place)
    {b : N} (new : BtreeNodeCacheState) (hb : place b = none) :
    countNode bc b new = .error .assertion ∨
      ∃ bc' data, countNode bc b new = .ok bc' ∧
        ListsOk bc' (Function.update place b ((bc.nodes b).listOf new)) ∧
        bc'.nodes = Function.update bc.nodes b { bc.nodes b with data := data } ∧
        SameTable bc bc' := by
  have hkeep : bc.nodes =
      Function.update bc.nodes b { bc.nodes b with data := (bc.nodes b).data } :=
    (Function.update_eq_self b bc.nodes).symm
  cases new with
  | none =>
    refine Or.inr ⟨bc, _, rfl, ?_, hkeep, rfl, rfl⟩
    rw [CacheNode.listOf, ← hb, Function.update_eq_self]
    exact h
  | clean =>
    exact Or.inr ⟨_, _, rfl, h.on hb (Or.inr rfl) (counter_clean bc (· + 1) _), hkeep, rfl, rfl⟩
  | dirty =>
    exact Or.inr ⟨_, _, rfl, h.on hb (Or.inr rfl) (counter_dirty bc (· + 1) _), hkeep, rfl, rfl⟩
  | freeable =>
    exact Or.inr ⟨_, _, rfl, h.on hb (Or.inl rfl) (counter_freeable bc (· + 1)), hkeep, rfl, rfl⟩
  | freed =>
    rw [countNode, bch2BtreeNodeDataFree]
    dsimp only
    split_ifs with hflight
    · exact Or.inl rfl
    · refine Or.inr ⟨_, false, rfl, h.on hb (Or.inr ?_) fun l => counter_freed bc (· + 1) l ?_, ?_,
        rfl, rfl⟩
      · simp only [BtreeCache.setNode_nodes, BtreeCache.setNode_lists, Function.update_self]
      · split_ifs
        · exact Or.inl rfl
        · exact Or.inr rfl
      · rfl

/-! ### The hash table -/

/-- The nodes that `hashed` tells are in the table, with their values, and are counted. -/
structure HashOk (bc : BtreeCache N) (hashed : N → Bool) : Prop where
  mem_iff : ∀ b v, (b, v) ∈ bc.table ↔ hashed b ∧ v = (bc.nodes b).hashVal
  nodup : bc.table.Nodup
  byBtree : ∀ id < btreeIdNr, bc.nrByBtree id = bc.table.countP fun e => (bc.nodes e.1).btreeId = id

/-- What a change of the table leaves alone. -/
structure SameLists (bc bc' : BtreeCache N) : Prop where
  lists : bc'.lists = bc.lists
  live : bc'.live = bc.live
  nrFreeable : bc'.nrFreeable = bc.nrFreeable

omit [DecidableEq N] in
theorem HashOk.congr {bc bc' : BtreeCache N} {hashed : N → Bool} (h : HashOk bc hashed)
    (htable : bc'.table = bc.table) (hnr : bc'.nrByBtree = bc.nrByBtree)
    (hval : ∀ b, hashed b → (bc'.nodes b).hashVal = (bc.nodes b).hashVal)
    (hid : ∀ b, hashed b → (bc'.nodes b).btreeId = (bc.nodes b).btreeId) : HashOk bc' hashed := by
  refine ⟨fun b v => ?_, htable ▸ h.nodup, fun id hlt => ?_⟩
  · rw [htable, h.mem_iff]
    exact and_congr_right fun hb => by rw [hval b hb]
  · rw [hnr, htable, h.byBtree id hlt]
    refine List.countP_congr fun e he => ?_
    rw [hid e.1 ((h.mem_iff e.1 e.2).mp he).1]

section Table

variable {bc bc' : BtreeCache N} {hashed : N → Bool} (h : HashOk bc hashed) {b : N} {v : UInt64}
  (hnodes : bc'.nodes = Function.update bc.nodes b { bc.nodes b with hashVal := v })

include hnodes in
/-- Only the value of a node changes, so the nodes of a btree are the same. -/
theorem countP_btreeId (id : ℕ) (table : List (N × UInt64)) :
    (table.countP fun e => (bc'.nodes e.1).btreeId = id) =
      table.countP fun e => (bc.nodes e.1).btreeId = id := by
  refine congrFun (congrArg List.countP (funext fun e => ?_)) table
  rw [hnodes, Function.update_apply]
  split_ifs with he
  · rw [he]
  · rfl

include h

omit [DecidableEq N] in
theorem HashOk.not_mem (hb : hashed b = false) (v : UInt64) : (b, v) ∉ bc.table := by
  rw [h.mem_iff, hb]
  exact fun hmem => nomatch hmem.1

include hnodes

theorem HashOk.mem_iff_of_ne {b' : N} (hne : b' ≠ b) (v' : UInt64) :
    (b', v') ∈ bc.table ↔ hashed b' ∧ v' = (bc'.nodes b').hashVal := by
  rw [hnodes, Function.update_of_ne hne]
  exact h.mem_iff b' v'

/-- A node that is not in the table gets another value. -/
theorem HashOk.refused (hb : hashed b = false) (htable : bc'.table = bc.table)
    (hnr : bc'.nrByBtree = bc.nrByBtree) : HashOk bc' (Function.update hashed b false) := by
  refine ⟨fun b' v' => ?_, htable ▸ h.nodup, fun id hlt => ?_⟩
  · rw [htable]
    rcases eq_or_ne b' b with rfl | hne
    · exact iff_of_false (h.not_mem hb v') (by simp)
    · rw [Function.update_of_ne hne]
      exact h.mem_iff_of_ne hnodes hne v'
  · rw [hnr, htable, countP_btreeId hnodes, h.byBtree id hlt]

/-- A node is entered with its new value. -/
theorem HashOk.entered (hb : hashed b = false) (htable : bc'.table = (b, v) :: bc.table)
    (hnr : ∀ id < btreeIdNr, bc'.nrByBtree id =
      bc.nrByBtree id + if (bc.nodes b).btreeId = id then 1 else 0) :
    HashOk bc' (Function.update hashed b true) := by
  refine ⟨fun b' v' => ?_, ?_, fun id hlt => ?_⟩
  · rw [htable, List.mem_cons]
    rcases eq_or_ne b' b with rfl | hne
    · rw [hnodes, Function.update_self, Function.update_self]
      simp [h.not_mem hb v']
    · rw [Function.update_of_ne hne, ← h.mem_iff_of_ne hnodes hne v']
      simp [hne]
  · rw [htable]
    exact List.nodup_cons.mpr ⟨h.not_mem hb v, h.nodup⟩
  · rw [hnr id hlt, htable, countP_btreeId hnodes, List.countP_cons, h.byBtree id hlt]
    simp

/-- A node is taken out. -/
theorem HashOk.left (hb : hashed b = true)
    (htable : bc'.table = bc.table.erase (b, (bc.nodes b).hashVal))
    (hnr : ∀ id < btreeIdNr, bc'.nrByBtree id =
      bc.nrByBtree id - if (bc.nodes b).btreeId = id then 1 else 0) :
    HashOk bc' (Function.update hashed b false) := by
  have hmem : (b, (bc.nodes b).hashVal) ∈ bc.table := (h.mem_iff b _).mpr ⟨hb, rfl⟩
  refine ⟨fun b' v' => ?_, ?_, fun id hlt => ?_⟩
  · rw [htable, h.nodup.mem_erase_iff]
    rcases eq_or_ne b' b with rfl | hne
    · rw [Function.update_self, h.mem_iff]
      refine iff_of_false (fun hin => hin.1 (by rw [hin.2.2])) fun hin => nomatch hin.1
    · rw [Function.update_of_ne hne, ← h.mem_iff_of_ne hnodes hne v']
      simp [hne]
  · rw [htable]
    exact h.nodup.erase _
  · rw [hnr id hlt, htable, countP_btreeId hnodes, List.countP_erase, h.byBtree id hlt]
    simp [hmem]

end Table

/-- A transition changes the table for the node, and nothing else of the cache. -/
theorem rehashNode_ok {bc : BtreeCache N} {hashed : N → Bool} (h : HashOk bc hashed) {b : N}
    {old : BtreeNodeCacheState} (hb : hashed b = btreeNodeStateHashed old)
    (new : BtreeNodeCacheState) (inserted : ℤ) :
    ∃ new' ret bc' v, rehashNode bc b old new inserted = .ok (new', ret, bc') ∧
      HashOk bc' (Function.update hashed b (btreeNodeStateHashed new')) ∧
      bc'.nodes = Function.update bc.nodes b { bc.nodes b with hashVal := v } ∧
      SameLists bc bc' := by
  rw [rehashNode]
  split_ifs with henter hleave
  · obtain ⟨hnew, hold⟩ := henter
    rw [← hb, Bool.not_eq_true] at hold
    rw [hashNode]
    dsimp only
    split_ifs with hfail hid
    · exact ⟨_, _, _, 0, rfl, h.refused rfl hold rfl rfl, rfl, rfl, rfl, rfl⟩
    · refine ⟨new, _, _, (bc.nodes b).ptrHashVal, rfl, ?_, rfl, rfl, rfl, rfl⟩
      rw [hnew]
      refine h.entered rfl hold rfl fun id _ => ?_
      rcases eq_or_ne id (bc.nodes b).btreeId with rfl | hne
      · simp
      · simp [hne, hne.symm]
    · refine ⟨new, _, _, (bc.nodes b).ptrHashVal, rfl, ?_, rfl, rfl, rfl, rfl⟩
      rw [hnew]
      refine h.entered rfl hold rfl fun id hlt => ?_
      rw [if_neg (by omega)]
      rfl
  · obtain ⟨hold, hnew⟩ := hleave
    rw [← hb] at hold
    rw [Bool.not_eq_true] at hnew
    have hmem : (b, (bc.nodes b).hashVal) ∈ bc.table := (h.mem_iff b _).mpr ⟨hold, rfl⟩
    rw [unhashNode]
    dsimp only
    rw [if_pos hmem]
    split_ifs with hid
    · -- The node is one of those that are counted.
      have hpos : 0 < bc.nrByBtree (bc.nodes b).btreeId := by
        rw [h.byBtree _ hid]
        exact List.countP_pos_iff.mpr ⟨_, hmem, by simp⟩
      rw [BtreeCache.setNode_nrByBtree, takeOne_of_pos hpos]
      refine ⟨new, _, _, 0, rfl, ?_, rfl, rfl, rfl, rfl⟩
      rw [hnew]
      refine h.left rfl hold rfl fun id _ => ?_
      rcases eq_or_ne id (bc.nodes b).btreeId with rfl | hne
      · simp
      · simp [hne, hne.symm]
    · refine ⟨new, _, _, 0, rfl, ?_, rfl, rfl, rfl, rfl⟩
      rw [hnew]
      refine h.left rfl hold rfl fun id hlt => ?_
      rw [if_neg (by omega)]
      rfl
  · have heq : btreeNodeStateHashed new = hashed b := by
      rw [hb]
      revert henter hleave
      cases btreeNodeStateHashed new <;> cases btreeNodeStateHashed old <;> simp
    refine ⟨new, 0, bc, (bc.nodes b).hashVal, rfl, ?_, (Function.update_eq_self b bc.nodes).symm,
      rfl, rfl, rfl⟩
    rw [heq, Function.update_eq_self]
    exact h

/-! ### Transitions -/

theorem Except.bind_ok {ε α β : Type} (a : α) (f : α → Except ε β) :
    (Except.ok a >>= f : Except ε β) = f a := rfl

/-- What holds of the cache between calls: every node is on the list of its state and pin class, the
counters are the lengths, and the nodes in a hashed state are in the table. -/
structure CacheOk (bc : BtreeCache N) : Prop where
  lists : ListsOk bc fun b => (bc.nodes b).list
  hash : HashOk bc fun b => btreeNodeStateHashed (bc.nodes b).cacheState

/-- The node is moved to its new state, or to the freeable ones where the table refuses it. -/
theorem bch2BtreeNodeTransitionStateLocked_ok {bc : BtreeCache N} (h : CacheOk bc) (b : N)
    (new : BtreeNodeCacheState) (inserted : ℤ) :
    bch2BtreeNodeTransitionStateLocked bc b new inserted = .error .assertion ∨
      ∃ ret bc', bch2BtreeNodeTransitionStateLocked bc b new inserted = .ok (ret, bc') ∧
        CacheOk bc' := by
  rw [bch2BtreeNodeTransitionStateLocked]
  dsimp only
  split_ifs with hsame hassert
  · exact Or.inr ⟨0, bc, rfl, h⟩
  · exact Or.inl rfl
  obtain ⟨new', ret, bc₁, v, hrehash, hhash, hnodes₁, hlists₁⟩ :=
    rehashNode_ok h.hash (b := b) rfl new inserted
  have hok₁ := h.lists.congr hlists₁.lists hlists₁.live hlists₁.nrFreeable
  have hplace₁ : (bc.nodes b).list = (bc₁.nodes b).listOf (bc.nodes b).cacheState := by
    rw [hnodes₁, Function.update_self]
    rfl
  obtain ⟨bc₂, huncount, hok₂, hnodes₂, htable₂⟩ := uncountNode_ok hok₁ hplace₁
  rcases countNode_ok hok₂ (b := b) new' (by rw [Function.update_self]) with
    hcount | ⟨bc₃, data, hcount, hok₃, hnodes₃, htable₃⟩
  · refine Or.inl ?_
    rw [hrehash, Except.bind_ok, huncount, Except.bind_ok, hcount]
    rfl
  · rw [hrehash, Except.bind_ok, huncount, Except.bind_ok, hcount]
    refine Or.inr ⟨ret, _, rfl, ?_⟩
    have hnodes : (bc₃.setNode b { bc₃.nodes b with cacheState := new' }).nodes =
        Function.update bc.nodes b
          { bc.nodes b with hashVal := v, data := data, cacheState := new' } := by
      simp [hnodes₃, hnodes₂, hnodes₁]
    refine ⟨?_, ?_⟩
    · have hplace :
          (fun b' => ((bc₃.setNode b { bc₃.nodes b with cacheState := new' }).nodes b').list) =
          Function.update (Function.update (fun b => (bc.nodes b).list) b none) b
            ((bc₂.nodes b).listOf new') := by
        funext b'
        rw [hnodes, hnodes₂, hnodes₁]
        rcases eq_or_ne b' b with rfl | hne
        · simp only [Function.update_self]
          rfl
        · simp only [Function.update_of_ne hne]
      rw [hplace]
      exact hok₃.congr rfl rfl rfl
    · have hhashed : (fun b' => btreeNodeStateHashed
          ((bc₃.setNode b { bc₃.nodes b with cacheState := new' }).nodes b').cacheState) =
          Function.update (fun b => btreeNodeStateHashed (bc.nodes b).cacheState) b
            (btreeNodeStateHashed new') := by
        funext b'
        rw [hnodes]
        rcases eq_or_ne b' b with rfl | hne
        · simp only [Function.update_self]
        · simp only [Function.update_of_ne hne]
      have hsame (b' : N) :
          ((bc₃.setNode b { bc₃.nodes b with cacheState := new' }).nodes b').hashVal =
            (bc₁.nodes b').hashVal ∧
          ((bc₃.setNode b { bc₃.nodes b with cacheState := new' }).nodes b').btreeId =
            (bc₁.nodes b').btreeId := by
        rw [hnodes, hnodes₁]
        rcases eq_or_ne b' b with rfl | hne
        · simp only [Function.update_self, and_self]
        · simp only [Function.update_of_ne hne, and_self]
      rw [hhashed]
      exact hhash.congr (htable₃.table.trans htable₂.table)
        (htable₃.nrByBtree.trans htable₂.nrByBtree) (fun b' _ => (hsame b').1)
        fun b' _ => (hsame b').2

/-! ### The other calls -/

/-- A node changes and stays in its state. -/
theorem CacheOk.of_node {bc bc' : BtreeCache N} (h : CacheOk bc) {b : N} {n : CacheNode}
    (hnodes : bc'.nodes = Function.update bc.nodes b n)
    (hstate : n.cacheState = (bc.nodes b).cacheState) (hval : n.hashVal = (bc.nodes b).hashVal)
    (hid : btreeNodeStateHashed n.cacheState → n.btreeId = (bc.nodes b).btreeId)
    (htable : SameTable bc bc')
    (hlists : ListsOk bc' (Function.update (fun b => (bc.nodes b).list) b n.list)) :
    CacheOk bc' := by
  refine ⟨?_, ?_⟩
  · have hplace : (fun b' => (bc'.nodes b').list) =
        Function.update (fun b => (bc.nodes b).list) b n.list := by
      funext b'
      rw [hnodes]
      rcases eq_or_ne b' b with rfl | hne
      · simp only [Function.update_self]
      · simp only [Function.update_of_ne hne]
    rwa [hplace]
  · have hhashed : (fun b' => btreeNodeStateHashed (bc'.nodes b').cacheState) =
        fun b' => btreeNodeStateHashed (bc.nodes b').cacheState := by
      funext b'
      rw [hnodes]
      rcases eq_or_ne b' b with rfl | hne
      · rw [Function.update_self, hstate]
      · rw [Function.update_of_ne hne]
    rw [hhashed]
    refine h.hash.congr htable.table htable.nrByBtree (fun b' _ => ?_) fun b' hb' => ?_
    · rw [hnodes]
      rcases eq_or_ne b' b with rfl | hne
      · rw [Function.update_self, hval]
      · rw [Function.update_of_ne hne]
    · rw [hnodes]
      rcases eq_or_ne b' b with rfl | hne
      · rw [Function.update_self, hid (hstate ▸ hb')]
      · rw [Function.update_of_ne hne]

/-- A node changes where the lists do not depend on it. -/
theorem CacheOk.setNode {bc : BtreeCache N} (h : CacheOk bc) {b : N} {n : CacheNode}
    (hstate : n.cacheState = (bc.nodes b).cacheState) (hval : n.hashVal = (bc.nodes b).hashVal)
    (hid : btreeNodeStateHashed n.cacheState → n.btreeId = (bc.nodes b).btreeId)
    (hlist : n.list = (bc.nodes b).list) : CacheOk (bc.setNode b n) := by
  refine h.of_node rfl hstate hval hid ⟨rfl, rfl⟩ ?_
  rw [hlist, Function.update_eq_self_iff.mpr rfl]
  exact h.lists.congr rfl rfl rfl

theorem bch2NodePin_ok {bc : BtreeCache N} (h : CacheOk bc) (b : N) (root : Bool) :
    ∃ bc', bch2NodePin bc b root = .ok bc' ∧ CacheOk bc' := by
  rw [bch2NodePin]
  dsimp only
  split_ifs with hpin
  · have hunpinned : (bc.nodes b).pinned = false := by simpa using hpin.2
    have hlist : (bc.nodes b).list = (bc.nodes b).listOf (bc.nodes b).cacheState := rfl
    cases hstate : (bc.nodes b).cacheState with
    | clean =>
      rw [hstate, CacheNode.listOf, hunpinned] at hlist
      dsimp only
      rw [BtreeCache.setNode_live, h.lists.counter_pos hlist rfl]
      refine ⟨_, rfl, h.of_node rfl hstate.symm rfl (fun _ => rfl) ⟨rfl, rfl⟩ ?_⟩
      exact h.lists.move
        { bc.setLive false { bc.live false with nrClean := (bc.live false).nrClean - 1 } with
          lists := takeOff bc.lists b }
        hlist rfl (counter_clean bc (· - 1) false) rfl (counter_clean _ (· + 1) true)
    | dirty =>
      rw [hstate, CacheNode.listOf, hunpinned] at hlist
      dsimp only
      rw [BtreeCache.setNode_live, h.lists.counter_pos hlist rfl]
      refine ⟨_, rfl, h.of_node rfl hstate.symm rfl (fun _ => rfl) ⟨rfl, rfl⟩ ?_⟩
      exact h.lists.move
        { bc.setLive false { bc.live false with nrDirty := (bc.live false).nrDirty - 1 } with
          lists := takeOff bc.lists b }
        hlist rfl (counter_dirty bc (· - 1) false) rfl (counter_dirty _ (· + 1) true)
    | _ =>
      refine ⟨_, rfl, h.setNode hstate.symm rfl (fun _ => rfl) ?_⟩
      simp only [CacheNode.list, CacheNode.listOf, hstate]
  · exact ⟨bc, rfl, h⟩

theorem clearPinned_apply (nodes : N → CacheNode) (l : List N) (b : N) :
    clearPinned nodes l b = if b ∈ l then { nodes b with pinned := false } else nodes b := by
  induction l generalizing nodes with
  | nil => rw [clearPinned, if_neg List.not_mem_nil]
  | cons c next ih =>
    rw [clearPinned, ih]
    rcases eq_or_ne b c with rfl | hne
    · simp
    · simp [hne]

/-- The list of a node that is on it once no node is pinned. -/
def unpinnedList : CacheList → CacheList
  | .clean _ => .clean false
  | .dirty _ => .dirty false
  | l => l

/-- The nodes of the pinned lists are unpinned. -/
theorem unpin_nodes {bc : BtreeCache N} (h : CacheOk bc) (b : N) :
    (bch2BtreeCacheUnpin bc).nodes b =
      if (bc.nodes b).list = some (.clean true) ∨ (bc.nodes b).list = some (.dirty true) then
        { bc.nodes b with pinned := false }
      else bc.nodes b := by
  rw [bch2BtreeCacheUnpin]
  dsimp only
  simp only [clearPinned_apply, h.lists.placed.mem_iff]
  by_cases hclean : (bc.nodes b).list = some (.clean true)
  · simp [hclean]
  · by_cases hdirty : (bc.nodes b).list = some (.dirty true)
    · simp [hdirty]
    · simp [hclean, hdirty]

theorem list_unpinned (n : CacheNode) :
    ({ n with pinned := false } : CacheNode).list = n.list.map unpinnedList := by
  rw [CacheNode.list, CacheNode.list]
  dsimp only
  cases n.cacheState with
  | freed =>
    rw [CacheNode.listOf, CacheNode.listOf, Option.map_some]
    split_ifs <;> rfl
  | _ => rfl

theorem unpin_list {bc : BtreeCache N} (h : CacheOk bc) (b : N) :
    ((bch2BtreeCacheUnpin bc).nodes b).list = (bc.nodes b).list.map unpinnedList := by
  rw [unpin_nodes h]
  split_ifs with hpinned
  · exact list_unpinned _
  · rw [not_or] at hpinned
    revert hpinned
    generalize (bc.nodes b).list = l
    rcases l with _ | (_ | _) | (_ | _) | _ | _ | _ <;> simp [unpinnedList]

theorem bch2BtreeCacheUnpin_ok {bc : BtreeCache N} (h : CacheOk bc) :
    CacheOk (bch2BtreeCacheUnpin bc) := by
  have hkeep (b : N) : ((bch2BtreeCacheUnpin bc).nodes b).cacheState = (bc.nodes b).cacheState ∧
      ((bch2BtreeCacheUnpin bc).nodes b).hashVal = (bc.nodes b).hashVal ∧
      ((bch2BtreeCacheUnpin bc).nodes b).btreeId = (bc.nodes b).btreeId := by
    rw [unpin_nodes h]
    split_ifs <;> exact ⟨rfl, rfl, rfl⟩
  refine ⟨⟨?_, fun l n hn => ?_⟩, ?_⟩
  · have hclean : CacheList.clean true ≠ .clean false := by decide
    have hdirty : CacheList.dirty true ≠ .dirty false := by decide
    have hplaced := (h.lists.placed.spliceTail hclean).spliceTail hdirty
    have hplace (b : N) : ((bch2BtreeCacheUnpin bc).nodes b).list = _ := unpin_list h b
    simp only [hplace]
    refine (congrArg (OnLists _) (funext fun b => ?_)).mp hplaced
    generalize (bc.nodes b).list = l
    rcases l with _ | (_ | _) | (_ | _) | _ | _ | _ <;> rfl
  · have hcount (l : CacheList) {n : ℕ} (hn : bc.counter l = some n) := h.lists.counted l n hn
    rw [bch2BtreeCacheUnpin] at hn ⊢
    rcases l with (_ | _) | (_ | _) | _ | _ | _
    · obtain rfl := Option.some.inj hn
      simp [spliceTail, hcount (.clean false) rfl, hcount (.clean true) rfl]
    · obtain rfl := Option.some.inj hn
      simp [spliceTail]
    · obtain rfl := Option.some.inj hn
      simp [spliceTail, hcount (.dirty false) rfl, hcount (.dirty true) rfl]
    · obtain rfl := Option.some.inj hn
      simp [spliceTail]
    · obtain rfl := Option.some.inj hn
      simp [spliceTail, hcount .freeable rfl]
    · cases hn
    · cases hn
  · simp only [fun b => (hkeep b).1]
    exact h.hash.congr rfl rfl (fun b _ => (hkeep b).2.1) fun b _ => (hkeep b).2.2

theorem bch2BtreeNodeSetDirty_ok {bc : BtreeCache N} (h : CacheOk bc) (b : N) (inserted : ℤ) :
    bch2BtreeNodeSetDirty bc b inserted = .error .assertion ∨
      ∃ bc', bch2BtreeNodeSetDirty bc b inserted = .ok bc' ∧ CacheOk bc' := by
  rw [bch2BtreeNodeSetDirty]
  dsimp only
  split_ifs with hdirty hhashed
  · exact Or.inr ⟨bc, rfl, h⟩
  · rcases bch2BtreeNodeTransitionStateLocked_ok
        (h.setNode (b := b) (n := { bc.nodes b with dirty := true }) rfl rfl (fun _ => rfl) rfl)
        b .dirty inserted with herr | ⟨ret, bc', hok, h'⟩
    · exact Or.inl (by rw [herr]; rfl)
    · exact Or.inr ⟨bc', by rw [hok]; rfl, h'⟩
  · exact Or.inr ⟨_, rfl, h.setNode rfl rfl (fun _ => rfl) rfl⟩

theorem bch2BtreeNodeWriteDoneClean_ok {bc : BtreeCache N} (h : CacheOk bc) (b : N)
    (inserted : ℤ) :
    bch2BtreeNodeWriteDoneClean bc b inserted = .error .assertion ∨
      ∃ bc', bch2BtreeNodeWriteDoneClean bc b inserted = .ok bc' ∧ CacheOk bc' := by
  rw [bch2BtreeNodeWriteDoneClean]
  split_ifs with hhashed
  · rcases bch2BtreeNodeTransitionStateLocked_ok h b (btreeNodeLiveState (bc.nodes b)) inserted with
      herr | ⟨ret, bc', hok, h'⟩
    · exact Or.inl (by rw [herr]; rfl)
    · exact Or.inr ⟨bc', by rw [hok]; rfl, h'⟩
  · exact Or.inr ⟨bc, rfl, h⟩

/-! ### Runs -/

/-- The calls, with what the table answers and whether a node is a root. -/
inductive CacheCall (N : Type)
  | transition (b : N) (new : BtreeNodeCacheState) (inserted : ℤ)
  | pin (b : N) (root : Bool)
  | unpin
  | setDirty (b : N) (inserted : ℤ)
  | writeDoneClean (b : N) (inserted : ℤ)

def cacheCall (bc : BtreeCache N) : CacheCall N → Except CacheStop (BtreeCache N)
  | .transition b new inserted =>
    (bch2BtreeNodeTransitionStateLocked bc b new inserted).map Prod.snd
  | .pin b root => bch2NodePin bc b root
  | .unpin => .ok (bch2BtreeCacheUnpin bc)
  | .setDirty b inserted => bch2BtreeNodeSetDirty bc b inserted
  | .writeDoneClean b inserted => bch2BtreeNodeWriteDoneClean bc b inserted

/-- A call stops at an assertion or keeps what holds of the cache. -/
theorem cacheCall_ok {bc : BtreeCache N} (h : CacheOk bc) (c : CacheCall N) :
    cacheCall bc c = .error .assertion ∨ ∃ bc', cacheCall bc c = .ok bc' ∧ CacheOk bc' := by
  cases c with
  | transition b new inserted =>
    rcases bch2BtreeNodeTransitionStateLocked_ok h b new inserted with
      herr | ⟨ret, bc', hok, h'⟩
    · exact Or.inl (by rw [cacheCall, herr]; rfl)
    · exact Or.inr ⟨bc', by rw [cacheCall, hok]; rfl, h'⟩
  | pin b root => exact Or.inr (bch2NodePin_ok h b root)
  | unpin => exact Or.inr ⟨_, rfl, bch2BtreeCacheUnpin_ok h⟩
  | setDirty b inserted => exact bch2BtreeNodeSetDirty_ok h b inserted
  | writeDoneClean b inserted => exact bch2BtreeNodeWriteDoneClean_ok h b inserted

/-- What the rest of the program does to a node between the calls: it writes it, gives it a buffer
and clears its flags, but the pin class and the btree of a node in the table stay, and so does the
kind of lock of a freed node. -/
structure NodeKept (n n' : CacheNode) : Prop where
  cacheState : n'.cacheState = n.cacheState
  hashVal : n'.hashVal = n.hashVal
  hashed : btreeNodeStateHashed n.cacheState → n'.pinned = n.pinned ∧ n'.btreeId = n.btreeId
  freed : n.cacheState = .freed → n'.pcpu = n.pcpu

theorem NodeKept.list {n n' : CacheNode} (h : NodeKept n n') : n'.list = n.list := by
  rw [CacheNode.list, CacheNode.list, h.cacheState]
  cases hstate : n.cacheState with
  | clean => rw [CacheNode.listOf, CacheNode.listOf, (h.hashed (by rw [hstate]; rfl)).1]
  | dirty => rw [CacheNode.listOf, CacheNode.listOf, (h.hashed (by rw [hstate]; rfl)).1]
  | freed => rw [CacheNode.listOf, CacheNode.listOf, h.freed hstate]
  | _ => rfl

/-- The caches that the calls lead to from one without nodes in it. -/
inductive CacheRun : BtreeCache N → Prop
  | init (nodes : N → CacheNode) (hfresh : ∀ b, (nodes b).cacheState = .none) :
    CacheRun (bch2FsBtreeCacheInitEarly nodes)
  | call {bc bc' : BtreeCache N} (c : CacheCall N) (run : CacheRun bc)
    (hcall : cacheCall bc c = .ok bc') : CacheRun bc'
  | other {bc : BtreeCache N} (b : N) (n : CacheNode) (run : CacheRun bc)
    (hkept : NodeKept (bc.nodes b) n) : CacheRun (bc.setNode b n)

omit [DecidableEq N] in
theorem cacheOk_init {nodes : N → CacheNode} (hfresh : ∀ b, (nodes b).cacheState = .none) :
    CacheOk (bch2FsBtreeCacheInitEarly nodes) := by
  refine ⟨⟨⟨fun b l => ?_, fun l => List.nodup_nil⟩, fun l n hn => ?_⟩,
    ⟨fun b v => ?_, List.nodup_nil, fun id _ => rfl⟩⟩
  · refine iff_of_false List.not_mem_nil ?_
    rw [bch2FsBtreeCacheInitEarly, CacheNode.list, hfresh]
    exact nofun
  · cases l with
    | freedPcpu => exact nomatch hn
    | freedNonpcpu => exact nomatch hn
    | _ => exact (Option.some.inj hn).symm
  · refine iff_of_false List.not_mem_nil ?_
    rw [bch2FsBtreeCacheInitEarly, hfresh]
    exact fun hhashed => nomatch hhashed.1

/-- Every run keeps the lists, the counters and the table. -/
theorem CacheRun.cacheOk {bc : BtreeCache N} (hrun : CacheRun bc) : CacheOk bc := by
  induction hrun with
  | init nodes hfresh => exact cacheOk_init hfresh
  | call c run hcall ih =>
    rcases cacheCall_ok ih c with herr | ⟨bc', heq, hok⟩
    · rw [hcall] at herr
      exact nomatch herr
    · rw [hcall] at heq
      rwa [Except.ok.inj heq]
  | other b n run hkept ih =>
    exact ih.setNode hkept.cacheState hkept.hashVal
      (fun hhashed => (hkept.hashed (hkept.cacheState ▸ hhashed)).2) hkept.list

/-- In every run every node is on the list of its state and pin class, the counters are the lengths
of the lists and the numbers of hashed nodes of the btrees, and the nodes in a hashed state are
those in the table; no call counts below zero or misses a node in the table. -/
theorem cacheRun_ok {bc : BtreeCache N} (hrun : CacheRun bc) :
    CacheOk bc ∧ ∀ c : CacheCall N,
      cacheCall bc c ≠ .error .underflow ∧ cacheCall bc c ≠ .error .notInTable := by
  have hok := hrun.cacheOk
  refine ⟨hok, fun c => ?_⟩
  rcases cacheCall_ok hok c with hcall | ⟨bc', hcall, -⟩
  · rw [hcall]
    exact ⟨nofun, nofun⟩
  · rw [hcall]
    exact ⟨nofun, nofun⟩

/-- A new node, with a buffer. -/
def freshNode : CacheNode where
  cacheState := .none
  pinned := false
  dirty := false
  writeInFlight := false
  data := true
  btreeId := 1
  ptrHashVal := 5
  hashVal := 0
  pcpu := false

/-- A node is entered as clean and pinned. -/
theorem cacheRun_ok_pinned :
    ∃ bc : BtreeCache ℕ, bc.lists (.clean true) = [0] ∧ CacheOk bc ∧ ∀ c : CacheCall ℕ,
      cacheCall bc c ≠ .error .underflow ∧ cacheCall bc c ≠ .error .notInTable := by
  have hfresh : ∀ b : ℕ, ((fun _ => freshNode) b).cacheState = .none := fun _ => rfl
  have hclean := CacheRun.call (.transition 0 .clean 0) (.init _ hfresh) rfl
  have hpinned := CacheRun.call (.pin 0 false) hclean rfl
  exact ⟨_, rfl, cacheRun_ok hpinned⟩

end Subvol

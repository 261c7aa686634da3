import Mathlib.Data.Prod.Lex
import Mathlib.Data.Multiset.MapFold
import Subvol.Lib.SortedTable
import Subvol.Trans.Path

/-!
# The updates of a transaction

Model of `btree_trans_update_by_path`: an update is put in its place among the updates of a
transaction, or instead of the one for the same place. The updates are in the order of their trees,
with the alloc tree last and the stripes before it; in a tree in the order of the key cache, of the
level from above, and of the position.

What the tree and the keys of the journal hold at a place comes with the update, as it is read when
the update is made; buffers of keys are values.

## Main definitions

* `BkeyI`, `BtreeInsertEntry`, `BtreeTrans`.
* `btreeTriggerOrder`, `btreeInsertEntryCmp`.
* `BtreeTrans.btreeTransUpdateByPath`, `BtreeTrans.bch2TransResetUpdates`.

## Main results

* `btreeInsertEntryCmp_lt_iff`, `btreeInsertEntryCmp_eq_iff`, `btreeInsertEntryCmp_gt_iff`: the
  comparison is that of `entryKey`.
* `BtreeTrans.update_spec`: what an update does.
* `BtreeTrans.update_counts`, `BtreeTrans.reset_counts`: the counts of the paths.
-/

namespace Subvol

open Lib

variable {ν : Type*}

/-! ### Entries -/

/-- `bkey_i`, and `bkey_s_c` for a key that is read. -/
structure BkeyI (ν : Type*) where
  p : Bpos
  type : ℕ
  u64s : ℕ
  size : ℕ
  val : ν
deriving DecidableEq

/-- `btree_insert_entry`, with `old_k` and `old_v` as one key. -/
structure BtreeInsertEntry (ν : Type*) where
  flags : ℕ
  sortOrder : ℕ
  bkeyType : ℕ
  btreeId : ℕ
  level : ℕ
  cached : Bool
  insertTriggerRun : Bool := false
  overwriteTriggerRun : Bool := false
  oldBtreeU64s : ℕ
  kBufU64s : ℕ
  path : ℕ
  k : BkeyI ν
  old : BkeyI ν
  ipAllocated : ℕ
deriving DecidableEq

/-- `btree_trigger_order`. -/
def btreeTriggerOrder (btree : ℕ) : ℕ :=
  if btree = 4 then 255 else if btree = 6 then 254 else btree

/-- `btree_insert_entry_cmp`. -/
def btreeInsertEntryCmp (l r : BtreeInsertEntry ν) : Ordering :=
  (compare l.sortOrder r.sortOrder).then <| (compare l.cached r.cached).then <|
    (compare r.level l.level).then <| compare (bposCmp l.k.p r.k.p) 0

/-- What is known when an update is made: its path, its key, and what the tree and the keys of the
journal hold there. -/
structure UpdateArgs (ν : Type*) where
  path : ℕ
  k : BkeyI ν
  kBufU64s : ℕ
  flags : ℕ
  ip : ℕ
  slot : BkeyI ν
  journalKey : Option (BkeyI ν)

/-- `btree_trans`. -/
structure BtreeTrans (ν : Type*) where
  paths : PathTable
  updates : List (BtreeInsertEntry ν) := []
  hasInteriorUpdates : Bool := false
  journalReplayNotFinished : Bool

namespace BtreeTrans

/-- `nr_paths`, the size of the array of updates. -/
def nrPaths : ℕ := btreeIterInitial

/-- The entry of an update, with the old key that goes with it when it is inserted. -/
def newEntry (t : BtreeTrans ν) (p : CountedPath) (u : UpdateArgs ν) : BtreeInsertEntry ν where
  flags := u.flags
  sortOrder := btreeTriggerOrder p.btreeId
  bkeyType := if p.level ≠ 0 then 0 else min (p.btreeId + 1) 255
  btreeId := p.btreeId
  level := p.level
  cached := p.cached
  kBufU64s := u.kBufU64s
  path := u.path
  k := u.k
  ipAllocated := u.ip
  oldBtreeU64s := if u.slot.type ≠ 0 then u.slot.u64s else 0
  old := if t.journalReplayNotFinished then u.journalKey.getD u.slot else u.slot

/-- The entry for a place after another update of it. -/
def overwriteEntry (i n : BtreeInsertEntry ν) : BtreeInsertEntry ν :=
  { i with
    flags := n.flags
    cached := n.cached
    kBufU64s := n.kBufU64s
    k := n.k
    path := n.path
    ipAllocated := n.ipAllocated }

/-- `btree_trans_update_by_path`. -/
def btreeTransUpdateByPath (t : BtreeTrans ν) (u : UpdateArgs ν) : Option (BtreeTrans ν) :=
  match t.paths u.path with
  | none => none
  | some p =>
    if p.shouldBeLocked ∧ t.updates.length < nrPaths ∧ u.k.p = p.pos ∧ u.k.u64s ≤ u.kBufU64s then
      let n := t.newEntry p u
      let before := t.updates.takeWhile fun e => btreeInsertEntryCmp n e == .gt
      match t.updates.dropWhile fun e => btreeInsertEntryCmp n e == .gt with
      | [] => finish p (before ++ [n]) t.paths
      | i :: after =>
        if btreeInsertEntryCmp n i = .eq then
          if i.insertTriggerRun || i.overwriteTriggerRun then none
          else
            (t.paths.bch2PathPut i.path true).bind
              (finish p (before ++ overwriteEntry i n :: after))
        else finish p (before ++ n :: i :: after) t.paths
    else none
where
  finish (p : CountedPath) (updates : List (BtreeInsertEntry ν)) (paths : PathTable) :
      Option (BtreeTrans ν) :=
    (paths.pathRefGet u.path true).map fun paths =>
      { t with paths, updates, hasInteriorUpdates := t.hasInteriorUpdates || p.level != 0 }

/-- `bch2_trans_reset_updates`. -/
def bch2TransResetUpdates (t : BtreeTrans ν) : Option (BtreeTrans ν) :=
  (t.updates.foldlM (fun (paths : PathTable) i => paths.bch2PathPut i.path true) t.paths).map
    fun paths => { t with paths, updates := [], hasInteriorUpdates := false }

end BtreeTrans

/-! ### The order of the entries -/

/-- The order of the entries: tree, key cache, level from above, position. -/
abbrev EntryKey := ℕ ×ₗ Bool ×ₗ ℕᵒᵈ ×ₗ Bpos

/-- The place of an entry in the order. -/
def entryKey (e : BtreeInsertEntry ν) : EntryKey :=
  toLex (e.sortOrder, toLex (e.cached, toLex (OrderDual.toDual e.level, e.k.p)))

theorem compare_bposCmp (l r : Bpos) : compare (bposCmp l r) 0 = compare l r := by
  rcases lt_trichotomy l r with hlt | rfl | hgt
  · rw [compare_lt_iff_lt.mpr hlt, compare_lt_iff_lt.mpr ((bposCmp_neg_iff l r).mpr hlt)]
  · rw [(bposCmp_zero_iff l l).mpr rfl, compare_eq_iff_eq.mpr rfl, compare_eq_iff_eq.mpr rfl]
  · rw [compare_gt_iff_gt.mpr hgt, compare_gt_iff_gt.mpr ((bposCmp_pos_iff l r).mpr hgt)]

theorem btreeInsertEntryCmp_lt_iff {l r : BtreeInsertEntry ν} :
    btreeInsertEntryCmp l r = .lt ↔ entryKey l < entryKey r := by
  simp only [btreeInsertEntryCmp, compare_bposCmp, Ordering.then_eq_lt, compare_lt_iff_lt,
    compare_eq_iff_eq, entryKey, Prod.Lex.toLex_lt_toLex, OrderDual.toDual_lt_toDual,
    OrderDual.toDual_inj, eq_comm (a := r.level)]

theorem btreeInsertEntryCmp_eq_iff {l r : BtreeInsertEntry ν} :
    btreeInsertEntryCmp l r = .eq ↔ entryKey l = entryKey r := by
  simp only [btreeInsertEntryCmp, compare_bposCmp, Ordering.then_eq_eq, compare_eq_iff_eq, entryKey,
    toLex_inj, Prod.mk.injEq, OrderDual.toDual_inj, eq_comm (a := r.level)]

theorem btreeInsertEntryCmp_gt_iff {l r : BtreeInsertEntry ν} :
    btreeInsertEntryCmp l r = .gt ↔ entryKey r < entryKey l := by
  simp only [btreeInsertEntryCmp, compare_bposCmp, Ordering.then_eq_gt, compare_gt_iff_gt,
    compare_eq_iff_eq, entryKey, Prod.Lex.toLex_lt_toLex, OrderDual.toDual_lt_toDual,
    OrderDual.toDual_inj, eq_comm (b := l.sortOrder), eq_comm (a := r.cached)]

/-! ### What an update does -/

/-- The reference that an entry has to its path. -/
def entryRef (e : BtreeInsertEntry ν) : PathRef := ⟨e.path, true⟩

namespace BtreeTrans

theorem entryKey_overwriteEntry {i n : BtreeInsertEntry ν} (h : entryKey i = entryKey n) :
    entryKey (overwriteEntry i n) = entryKey n := by
  simp only [entryKey, toLex_inj, Prod.mk.injEq, OrderDual.toDual_inj] at h ⊢
  exact ⟨h.1, rfl, h.2.2.1, rfl⟩

/-- The paths after the update that was there has given back its own. -/
def putOverwritten (paths : PathTable) (i : Option (BtreeInsertEntry ν)) : Option PathTable :=
  i.elim (some paths) fun i =>
    if i.insertTriggerRun || i.overwriteTriggerRun then none else paths.bch2PathPut i.path true

/-- An update is put among the updates of the transaction by its place. -/
theorem update_spec {t t' : BtreeTrans ν} {u : UpdateArgs ν} (hsorted : SortedBy entryKey t.updates)
    (h : t.btreeTransUpdateByPath u = some t') :
    ∃ p, t.paths u.path = some p ∧ p.shouldBeLocked = true ∧ u.k.p = p.pos ∧
      t'.journalReplayNotFinished = t.journalReplayNotFinished ∧
      t'.updates = upsert entryKey overwriteEntry (t.newEntry p u) t.updates ∧
      ∃ paths, putOverwritten t.paths (findKey entryKey t.updates (entryKey (t.newEntry p u))) =
        some paths ∧ paths.pathRefGet u.path true = some t'.paths := by
  rw [btreeTransUpdateByPath] at h
  cases hp : t.paths u.path with
  | none =>
    rw [hp] at h
    cases h
  | some p =>
    simp only [hp] at h
    split_ifs at h with hassert
    have hgt : (fun e => btreeInsertEntryCmp (t.newEntry p u) e == .gt) =
        fun e => decide (entryKey e < entryKey (t.newEntry p u)) :=
      funext fun e => by
        rw [Bool.eq_iff_iff, beq_iff_eq, decide_eq_true_eq, btreeInsertEntryCmp_gt_iff]
    rw [hgt] at h
    refine ⟨p, rfl, hassert.1, hassert.2.2.1, ?_⟩
    rw [hsorted.findKey_eq_head?, upsert_eq_walk]
    cases hwalk : t.updates.dropWhile fun e => decide (entryKey e < entryKey (t.newEntry p u)) with
    | nil =>
      simp only [hwalk] at h ⊢
      obtain ⟨paths, hget, rfl⟩ := Option.map_eq_some_iff.mp h
      exact ⟨rfl, rfl, t.paths, rfl, hget⟩
    | cons i after =>
      simp only [hwalk, btreeInsertEntryCmp_eq_iff] at h ⊢
      by_cases heq : entryKey i = entryKey (t.newEntry p u)
      · rw [if_pos heq.symm] at h
        split_ifs at h with hrun
        obtain ⟨mid, hput, h⟩ := Option.bind_eq_some_iff.mp h
        obtain ⟨paths, hget, rfl⟩ := Option.map_eq_some_iff.mp h
        refine ⟨rfl, by rw [if_pos heq], mid, ?_, hget⟩
        rw [List.head?_cons, Option.filter_some_pos (by simpa using heq)]
        exact (if_neg hrun).trans hput
      · rw [if_neg (Ne.symm heq)] at h
        obtain ⟨paths, hget, rfl⟩ := Option.map_eq_some_iff.mp h
        refine ⟨rfl, by rw [if_neg heq], t.paths, ?_, hget⟩
        rw [List.head?_cons, Option.filter_some_neg (by simpa using heq)]
        rfl

/-- The references of the iterators and of the updates. -/
def refs (t : BtreeTrans ν) (held : Multiset PathRef) : Multiset PathRef :=
  (t.updates : Multiset (BtreeInsertEntry ν)).map entryRef + held

theorem refsTo_refs (t : BtreeTrans ν) (held : Multiset PathRef) (i : ℕ) :
    refsTo (t.refs held) i = t.updates.countP (fun e => e.path = i) + refsTo held i := by
  rw [refs, refsTo, Multiset.countP_add, Multiset.countP_map,
    ← Multiset.countP_eq_card_filter, Multiset.coe_countP]
  rfl

theorem intentRefsTo_refs (t : BtreeTrans ν) (held : Multiset PathRef) (i : ℕ) :
    intentRefsTo (t.refs held) i =
      t.updates.countP (fun e => e.path = i) + intentRefsTo held i := by
  rw [refs, intentRefsTo, Multiset.countP_add, Multiset.countP_map,
    ← Multiset.countP_eq_card_filter, Multiset.coe_countP]
  simp only [entryRef, and_true]
  rfl

/-- An update moves the reference of its place to its own path. -/
theorem update_counts {t t' : BtreeTrans ν} {u : UpdateArgs ν} {held : Multiset PathRef}
    (hsorted : SortedBy entryKey t.updates) (hcounts : t.paths.Counts (t.refs held))
    (h : t.btreeTransUpdateByPath u = some t') : t'.paths.Counts (t'.refs held) := by
  obtain ⟨p, -, -, -, -, hupdates, mid, hput, hget⟩ := update_spec hsorted h
  rw [refs, hupdates]
  cases hfind : findKey entryKey t.updates (entryKey (t.newEntry p u)) with
  | none =>
    rw [hfind] at hput
    obtain rfl := Option.some.inj hput
    rw [Multiset.coe_eq_coe.mpr (upsert_perm_of_none hfind), ← Multiset.cons_coe, Multiset.map_cons,
      Multiset.cons_add]
    exact hcounts.refGet hget
  | some i =>
    obtain ⟨rest, hold, hnew⟩ := upsert_perm_of_some overwriteEntry hsorted hfind
    simp only [hfind, putOverwritten, Option.elim_some] at hput
    split_ifs at hput with hrun
    rw [refs, Multiset.coe_eq_coe.mpr hold, ← Multiset.cons_coe, Multiset.map_cons,
      Multiset.cons_add] at hcounts
    rw [Multiset.coe_eq_coe.mpr hnew, ← Multiset.cons_coe, Multiset.map_cons, Multiset.cons_add]
    exact (hcounts.put hput).refGet hget

/-- A row of updates gives back its paths. -/
theorem puts_counts {updates : List (BtreeInsertEntry ν)} {paths paths' : PathTable}
    {held : Multiset PathRef}
    (hcounts : paths.Counts ((updates : Multiset (BtreeInsertEntry ν)).map entryRef + held))
    (h : updates.foldlM (fun (paths : PathTable) i => paths.bch2PathPut i.path true) paths =
      some paths') : paths'.Counts held := by
  induction updates generalizing paths with
  | nil =>
    obtain rfl := Option.some.inj h
    simpa using hcounts
  | cons i updates ih =>
    obtain ⟨mid, hput, hputs⟩ := Option.bind_eq_some_iff.mp h
    rw [← Multiset.cons_coe, Multiset.map_cons, Multiset.cons_add] at hcounts
    exact ih (hcounts.put hput) hputs

theorem reset_counts {t t' : BtreeTrans ν} {held : Multiset PathRef}
    (hcounts : t.paths.Counts (t.refs held)) (h : t.bch2TransResetUpdates = some t') :
    t'.paths.Counts held ∧ t'.updates = [] := by
  obtain ⟨paths, hputs, rfl⟩ := Option.map_eq_some_iff.mp h
  exact ⟨puts_counts hcounts hputs, rfl⟩

end BtreeTrans

end Subvol

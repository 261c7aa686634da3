import Mathlib.Data.List.Find
import Subvol.Trans.Update

/-!
# Runs of staged updates

A transaction takes paths for its iterators, moves them, gives them back and stages updates with the
paths that its iterators hold, in any order. Its updates are then the last ones of their places, in
the order of the commit, with the old keys of the first ones, and the count of a path is that of the
updates with it and the iterators on it.

An operation is named after the function that an iterator calls; what a walk down the tree finds
comes with it. A run stops at a failed assertion.

## Main definitions

* `StagingOp`, `StagingState.step`, `stagingRun`.
* `stagedImage`: the last update of a place with the old key of the first.
* `StagingInv`: the invariant.

## Main results

* `StagingInv.step`, `StagingInv.run`.
* `stagingRun_updates`: what the updates of a transaction are after any run.
-/

namespace Subvol

open Lib

variable {ν : Type*}

/-! ### Runs -/

/-- The path after a walk down its tree, or in the key cache: a key that is not there makes it a
path of the tree. Only a tree with a root has nodes to lock. -/
def CountedPath.traversed (p : CountedPath) (level : ℕ) (inCache locked : Bool) : CountedPath :=
  { p with
    level
    cached := p.cached && inCache
    shouldBeLocked := if p.btreeId < btreeIdNr then locked || p.shouldBeLocked else p.shouldBeLocked
    btreeId_lt := by
      intro h
      split_ifs at h with hlt
      · exact hlt
      · exact p.btreeId_lt h }

/-- The paths at the start of a transaction, in `bch2_trans_begin`. -/
def PathTable.begin (paths : PathTable) (wasRestarted : Bool) : PathTable := fun i =>
  (paths i).bind fun p =>
    if p.ref = 0 ∧ (p.preserve && wasRestarted) = false then none
    else some { p with shouldBeLocked := false, preserve := false, btreeId_lt := p.unlocked }

/-- What an iterator does with the paths of its transaction, and the transaction with its
updates. -/
inductive StagingOp (ν : Type*)
  | get (btreeId : ℕ) (pos : Bpos) (level : ℕ) (intent cached nopreserve : Bool)
  | copy (r : PathRef)
  | clone (r : PathRef) (intent : Bool)
  | makeMut (r : PathRef)
  | setPos (r : PathRef) (newPos : Bpos) (inNode : Bool)
  | traverse (r : PathRef) (level : ℕ) (inCache locked : Bool)
  | put (r : PathRef)
  | update (u : UpdateArgs ν)
  | begin (wasRestarted replayNotFinished : Bool)

/-- A transaction, the references of its iterators, and the updates that were staged since it
began. -/
structure StagingState (ν : Type*) where
  trans : BtreeTrans ν
  held : Multiset PathRef := 0
  log : List (BtreeInsertEntry ν) := []

namespace StagingState

/-- `bch2_trans_init`. -/
def init (replayNotFinished : Bool) : StagingState ν where
  trans := { paths := fun _ => none, journalReplayNotFinished := replayNotFinished }

/-- The state with other paths and references to them. -/
def withPaths (s : StagingState ν) (paths : PathTable) (held : Multiset PathRef) : StagingState ν :=
  { s with trans := { s.trans with paths }, held }

/-- One operation; iterators only name paths that they hold. -/
def step (s : StagingState ν) : StagingOp ν → Option (StagingState ν)
  | .get btreeId pos level intent cached nopreserve =>
    (s.trans.paths.bch2PathGet btreeId pos level intent cached nopreserve).map fun m =>
      s.withPaths m.1 (⟨m.2, intent⟩ ::ₘ s.held)
  | .copy r =>
    if r ∈ s.held then
      (s.trans.paths.pathRefGet r.path r.intent).map fun paths => s.withPaths paths (r ::ₘ s.held)
    else none
  | .clone r intent =>
    if r ∈ s.held then
      (s.trans.paths.btreePathClone r.path intent).map fun m =>
        s.withPaths m.1 (⟨m.2, intent⟩ ::ₘ s.held)
    else none
  | .makeMut r =>
    if r ∈ s.held then
      (s.trans.paths.bch2BtreePathMakeMut r.path r.intent).map fun m =>
        s.withPaths m.1 (⟨m.2, r.intent⟩ ::ₘ s.held.erase r)
    else none
  | .setPos r newPos inNode =>
    if r ∈ s.held then
      (s.trans.paths.bch2BtreePathSetPos r.path newPos r.intent inNode).map fun m =>
        s.withPaths m.1 (⟨m.2, r.intent⟩ ::ₘ s.held.erase r)
    else none
  | .traverse r level inCache locked =>
    if r ∈ s.held then
      (s.trans.paths r.path).map fun p =>
        s.withPaths (s.trans.paths.setPath r.path (some (p.traversed level inCache locked))) s.held
    else none
  | .put r =>
    if r ∈ s.held then
      (s.trans.paths.bch2PathPut r.path r.intent).map fun paths =>
        s.withPaths paths (s.held.erase r)
    else none
  | .update u =>
    if ⟨u.path, true⟩ ∈ s.held then
      (s.trans.btreeTransUpdateByPath u).map fun trans =>
        { s with
          trans
          log := s.log ++ ((s.trans.paths u.path).map fun p => s.trans.newEntry p u).toList }
    else none
  | .begin wasRestarted replayNotFinished =>
    s.trans.bch2TransResetUpdates.map fun trans =>
      { s with
        trans := { trans with
          paths := trans.paths.begin wasRestarted
          journalReplayNotFinished := replayNotFinished }
        log := [] }

end StagingState

/-- Operations one after the other. -/
def stagingRun (s : StagingState ν) (ops : List (StagingOp ν)) : Option (StagingState ν) :=
  ops.foldlM StagingState.step s

/-! ### The image of a run -/

/-- What an update is for. -/
structure BtreePlace where
  btreeId : ℕ
  cached : Bool
  level : ℕ
  pos : Bpos
deriving DecidableEq

/-- The place of an entry. -/
def BtreeInsertEntry.place (e : BtreeInsertEntry ν) : BtreePlace :=
  ⟨e.btreeId, e.cached, e.level, e.k.p⟩

/-- The last update of a place, with the old key of the first. -/
def stagedImage (log : List (BtreeInsertEntry ν)) (place : BtreePlace) :
    Option (BtreeInsertEntry ν) :=
  match log.find? (fun e => decide (e.place = place)),
    log.reverse.find? (fun e => decide (e.place = place)) with
  | some first, some last => some { last with old := first.old, oldBtreeU64s := first.oldBtreeU64s }
  | _, _ => none

/-- The fields of an entry that go by its place, in a tree that there is, before its triggers
run. -/
structure BtreeInsertEntry.Formed (e : BtreeInsertEntry ν) : Prop where
  btreeId_lt : e.btreeId < btreeIdNr
  sortOrder : e.sortOrder = btreeTriggerOrder e.btreeId
  bkeyType : e.bkeyType = if e.level ≠ 0 then 0 else min (e.btreeId + 1) 255
  not_run : e.insertTriggerRun = false ∧ e.overwriteTriggerRun = false

theorem btreeTriggerOrder_injOn {b b' : ℕ} (hb : b < btreeIdNr) (hb' : b' < btreeIdNr)
    (h : btreeTriggerOrder b = btreeTriggerOrder b') : b = b' := by
  rw [btreeIdNr] at hb hb'
  rw [btreeTriggerOrder, btreeTriggerOrder] at h
  split_ifs at h <;> omega

namespace BtreeInsertEntry.Formed

variable {e e' : BtreeInsertEntry ν}

/-- Entries of one place are one in the order. -/
theorem entryKey_eq_iff (h : e.Formed) (h' : e'.Formed) :
    entryKey e = entryKey e' ↔ e.place = e'.place := by
  simp only [entryKey, place, toLex_inj, Prod.mk.injEq, OrderDual.toDual_inj, BtreePlace.mk.injEq]
  refine and_congr_left fun _ => ⟨fun horder => ?_, fun hid => ?_⟩
  · rw [h.sortOrder, h'.sortOrder] at horder
    exact btreeTriggerOrder_injOn h.btreeId_lt h'.btreeId_lt horder
  · rw [h.sortOrder, h'.sortOrder, hid]

theorem overwriteEntry_eq (h : e.Formed) (h' : e'.Formed) (hplace : e.place = e'.place) :
    BtreeTrans.overwriteEntry e e' = { e' with old := e.old, oldBtreeU64s := e.oldBtreeU64s } := by
  obtain ⟨hid, hcached, hlevel, hpos⟩ := BtreePlace.mk.inj hplace
  have hsort : e.sortOrder = e'.sortOrder := by rw [h.sortOrder, h'.sortOrder, hid]
  have htype : e.bkeyType = e'.bkeyType := by rw [h.bkeyType, h'.bkeyType, hid, hlevel]
  have hinsert := h.not_run.1.trans h'.not_run.1.symm
  have hoverwrite := h.not_run.2.trans h'.not_run.2.symm
  rw [BtreeTrans.overwriteEntry, hsort, htype, hid, hlevel, hinsert, hoverwrite]

end BtreeInsertEntry.Formed

/-! ### The invariant -/

/-- What holds between the operations of a transaction: the counts of the paths are those of the
references, and the updates are the first and last ones of their places, in order. -/
structure StagingInv (s : StagingState ν) : Prop where
  counts : s.trans.paths.Counts (s.trans.refs s.held)
  sorted : SortedBy entryKey s.trans.updates
  image : ∀ k, findKey entryKey s.trans.updates k =
    firstLast entryKey BtreeTrans.overwriteEntry s.log k
  formed : ∀ e ∈ s.log, e.Formed

namespace StagingInv

variable {s s' : StagingState ν}

theorem init (replayNotFinished : Bool) :
    StagingInv (StagingState.init replayNotFinished : StagingState ν) where
  counts := ⟨fun _ => rfl, fun _ => rfl, fun _ _ h => nomatch h⟩
  sorted := List.Pairwise.nil
  image _ := rfl
  formed _ h := nomatch h

theorem refs_cons (t : BtreeTrans ν) (r : PathRef) (held : Multiset PathRef) :
    t.refs (r ::ₘ held) = r ::ₘ t.refs held := Multiset.add_cons _ _ _

/-- A held reference is one of those that are counted. -/
theorem refs_erase {r : PathRef} (h : StagingInv s) (hr : r ∈ s.held) :
    s.trans.paths.Counts (r ::ₘ s.trans.refs (s.held.erase r)) := by
  rw [← refs_cons, Multiset.cons_erase hr]
  exact h.counts

theorem withPaths (h : StagingInv s) {paths : PathTable} {held : Multiset PathRef}
    (hcounts : paths.Counts (s.trans.refs held)) : StagingInv (s.withPaths paths held) :=
  ⟨hcounts, h.sorted, h.image, h.formed⟩

theorem newEntry_formed (t : BtreeTrans ν) {p : CountedPath} (u : UpdateArgs ν)
    (hlocked : p.shouldBeLocked = true) : (t.newEntry p u).Formed where
  btreeId_lt := p.btreeId_lt hlocked
  sortOrder := rfl
  bkeyType := rfl
  not_run := ⟨rfl, rfl⟩

theorem update (h : StagingInv s) {u : UpdateArgs ν} {trans : BtreeTrans ν}
    (hupdate : s.trans.btreeTransUpdateByPath u = some trans) :
    StagingInv { s with
      trans
      log := s.log ++ ((s.trans.paths u.path).map fun p => s.trans.newEntry p u).toList } := by
  obtain ⟨p, hp, hlocked, -, -, hupdates, -⟩ := BtreeTrans.update_spec h.sorted hupdate
  have hmerge : ∀ i, entryKey i = entryKey (s.trans.newEntry p u) →
      entryKey (BtreeTrans.overwriteEntry i (s.trans.newEntry p u)) =
        entryKey (s.trans.newEntry p u) := fun _ => BtreeTrans.entryKey_overwriteEntry
  rw [hp]
  refine ⟨BtreeTrans.update_counts h.sorted h.counts hupdate, ?_, fun k => ?_, fun e he => ?_⟩
  · rw [hupdates]
    exact h.sorted.upsert hmerge
  · show findKey entryKey trans.updates k =
      firstLast entryKey BtreeTrans.overwriteEntry (s.log ++ [s.trans.newEntry p u]) k
    rw [hupdates, findKey_upsert hmerge h.sorted,
      firstLast_append_singleton BtreeTrans.overwriteEntry (fun _ => rfl)
        (fun _ _ _ => rfl), h.image, h.image]
    by_cases hk : k = entryKey (s.trans.newEntry p u)
    · rw [if_pos hk, if_pos hk, hk]
    · rw [if_neg hk, if_neg hk]
  · rcases List.mem_append.mp he with he | he
    · exact h.formed e he
    · rw [List.mem_singleton.mp he]
      exact newEntry_formed s.trans u hlocked

/-- The paths of a transaction that begins are counted as before. -/
theorem begin_counts {paths : PathTable} {refs : Multiset PathRef} (h : paths.Counts refs)
    (wasRestarted : Bool) : (paths.begin wasRestarted).Counts refs := by
  have hbegin : ∀ i p, paths i = some p → paths.begin wasRestarted i =
      some { p with shouldBeLocked := false, preserve := false, btreeId_lt := p.unlocked } := by
    intro i p hp
    have href : ¬(p.ref = 0 ∧ (p.preserve && wasRestarted) = false) :=
      fun hzero => (h.slot i p hp).2.2 hzero.1
    rw [PathTable.begin, hp]
    exact if_neg href
  have hnone : ∀ i, paths i = none → paths.begin wasRestarted i = none := by
    intro i hi
    rw [PathTable.begin, hi]
    rfl
  refine ⟨fun i => ?_, fun i => ?_, fun i q hq => ?_⟩
  · rw [← h.ref, PathTable.refOf, PathTable.refOf]
    cases hp : paths i with
    | none => rw [hnone i hp]
    | some p =>
      rw [hbegin i p hp]
      rfl
  · rw [← h.intentRef, PathTable.intentRefOf, PathTable.intentRefOf]
    cases hp : paths i with
    | none => rw [hnone i hp]
    | some p =>
      rw [hbegin i p hp]
      rfl
  · cases hp : paths i with
    | none =>
      rw [hnone i hp] at hq
      cases hq
    | some p =>
      rw [hbegin i p hp] at hq
      obtain rfl := Option.some.inj hq
      exact h.slot i p hp

theorem step (h : StagingInv s) {op : StagingOp ν} (hstep : s.step op = some s') :
    StagingInv s' := by
  cases op with
  | get btreeId pos level intent cached nopreserve =>
    obtain ⟨m, hget, rfl⟩ := Option.map_eq_some_iff.mp hstep
    refine h.withPaths ?_
    rw [refs_cons]
    exact h.counts.get hget
  | copy r =>
    rw [StagingState.step] at hstep
    split_ifs at hstep with hr
    obtain ⟨paths, hget, rfl⟩ := Option.map_eq_some_iff.mp hstep
    refine h.withPaths ?_
    rw [refs_cons]
    exact h.counts.refGet hget
  | clone r intent =>
    rw [StagingState.step] at hstep
    split_ifs at hstep with hr
    obtain ⟨m, hclone, rfl⟩ := Option.map_eq_some_iff.mp hstep
    refine h.withPaths ?_
    rw [refs_cons]
    exact h.counts.clone hclone
  | makeMut r =>
    rw [StagingState.step] at hstep
    split_ifs at hstep with hr
    obtain ⟨m, hmut, rfl⟩ := Option.map_eq_some_iff.mp hstep
    refine h.withPaths ?_
    rw [refs_cons]
    exact (h.refs_erase hr).makeMut hmut
  | setPos r newPos inNode =>
    rw [StagingState.step] at hstep
    split_ifs at hstep with hr
    obtain ⟨m, hset, rfl⟩ := Option.map_eq_some_iff.mp hstep
    refine h.withPaths ?_
    rw [refs_cons]
    exact (h.refs_erase hr).setPos hset
  | traverse r level inCache locked =>
    rw [StagingState.step] at hstep
    split_ifs at hstep with hr
    obtain ⟨p, hp, rfl⟩ := Option.map_eq_some_iff.mp hstep
    exact h.withPaths (h.counts.modify hp rfl rfl)
  | put r =>
    rw [StagingState.step] at hstep
    split_ifs at hstep with hr
    obtain ⟨paths, hput, rfl⟩ := Option.map_eq_some_iff.mp hstep
    exact h.withPaths ((h.refs_erase hr).put hput)
  | update u =>
    rw [StagingState.step] at hstep
    split_ifs at hstep with hr
    obtain ⟨trans, hupdate, rfl⟩ := Option.map_eq_some_iff.mp hstep
    exact h.update hupdate
  | begin wasRestarted replayNotFinished =>
    obtain ⟨trans, hreset, rfl⟩ := Option.map_eq_some_iff.mp hstep
    obtain ⟨hcounts, hupdates⟩ := BtreeTrans.reset_counts h.counts hreset
    refine ⟨?_, ?_, fun k => ?_, fun e he => nomatch he⟩
    · rw [BtreeTrans.refs]
      simp only [hupdates, Multiset.coe_nil, Multiset.map_zero, zero_add]
      exact begin_counts hcounts wasRestarted
    · simp only [hupdates]
      exact List.Pairwise.nil
    · simp only [hupdates]
      rfl

theorem run (h : StagingInv s) {ops : List (StagingOp ν)} (hrun : stagingRun s ops = some s') :
    StagingInv s' := by
  induction ops generalizing s with
  | nil =>
    obtain rfl := Option.some.inj hrun
    exact h
  | cons op ops ih =>
    obtain ⟨mid, hstep, hrest⟩ := Option.bind_eq_some_iff.mp hrun
    exact ih (h.step hstep) hrest

theorem findKey_eq_find? {log : List (BtreeInsertEntry ν)} (hlog : ∀ e ∈ log, e.Formed)
    {e : BtreeInsertEntry ν} (he : e.Formed) :
    findKey entryKey log (entryKey e) = log.find? fun x => decide (x.place = e.place) :=
  List.find?_congr fun x hx => decide_eq_decide.mpr ((hlog x hx).entryKey_eq_iff he)

theorem find?_place {log : List (BtreeInsertEntry ν)} {place : BtreePlace} {e : BtreeInsertEntry ν}
    (h : log.find? (fun x => decide (x.place = place)) = some e) : e ∈ log ∧ e.place = place :=
  ⟨List.mem_of_find?_eq_some h, by simpa using List.find?_some h⟩

/-- The merge of the first and the last update of a place is the last one with the old key of the
first. -/
theorem firstLast_eq_stagedImage {log : List (BtreeInsertEntry ν)} (hlog : ∀ e ∈ log, e.Formed)
    {e : BtreeInsertEntry ν} (he : e.Formed) :
    firstLast entryKey BtreeTrans.overwriteEntry log (entryKey e) = stagedImage log e.place := by
  have hreverse : ∀ x ∈ log.reverse, x.Formed := fun x hx => hlog x (List.mem_reverse.mp hx)
  rw [firstLast, stagedImage, findKey_eq_find? hlog he, findKey_eq_find? hreverse he]
  cases hfirst : log.find? fun x => decide (x.place = e.place) with
  | none => rfl
  | some first =>
    obtain ⟨hfirstMem, hfirstPlace⟩ := find?_place hfirst
    cases hlast : log.reverse.find? fun x => decide (x.place = e.place) with
    | none =>
      exact absurd (decide_eq_true hfirstPlace)
        (List.find?_eq_none.mp hlast first (List.mem_reverse.mpr hfirstMem))
    | some last =>
      obtain ⟨hlastMem, hlastPlace⟩ := find?_place hlast
      exact congrArg some ((hlog first hfirstMem).overwriteEntry_eq (hreverse last hlastMem)
        (hfirstPlace.trans hlastPlace.symm))

/-- The place of the image of a place. -/
theorem stagedImage_spec {log : List (BtreeInsertEntry ν)} (hlog : ∀ e ∈ log, e.Formed)
    {place : BtreePlace} {e : BtreeInsertEntry ν} (h : stagedImage log place = some e) :
    e.place = place ∧ e.Formed := by
  rw [stagedImage] at h
  split at h
  · next first last hfirst hlast =>
    obtain rfl := Option.some.inj h
    obtain ⟨hmem, hplace⟩ := find?_place hlast
    have hformed := hlog last (List.mem_reverse.mp hmem)
    exact ⟨hplace, hformed.btreeId_lt, hformed.sortOrder, hformed.bkeyType, hformed.not_run⟩
  · cases h

theorem formed_of_mem (h : StagingInv s) {e : BtreeInsertEntry ν} (he : e ∈ s.trans.updates) :
    e.Formed := by
  have himage := h.sorted.mem_iff_findKey.mp he
  rw [h.image] at himage
  obtain ⟨first, hfirst, -⟩ := Option.map_eq_some_iff.mp himage
  have hformed := h.formed first (List.mem_of_find?_eq_some hfirst)
  have hkey : entryKey first = entryKey e := by simpa using List.find?_some hfirst
  rw [← hkey, firstLast_eq_stagedImage h.formed hformed] at himage
  exact (stagedImage_spec h.formed himage).2

/-- An update is the last of its place, with the old key of the first. -/
theorem mem_updates_iff (h : StagingInv s) {place : BtreePlace} {e : BtreeInsertEntry ν} :
    e ∈ s.trans.updates ∧ e.place = place ↔ stagedImage s.log place = some e := by
  constructor
  · rintro ⟨he, rfl⟩
    rw [← firstLast_eq_stagedImage h.formed (h.formed_of_mem he), ← h.image]
    exact h.sorted.mem_iff_findKey.mp he
  · intro himage
    obtain ⟨hplace, hformed⟩ := stagedImage_spec h.formed himage
    refine ⟨h.sorted.mem_iff_findKey.mpr ?_, hplace⟩
    rw [h.image, firstLast_eq_stagedImage h.formed hformed, hplace]
    exact himage

end StagingInv

/-- **After any run of a transaction its updates are in the order of the commit, with one entry for
each place: the last update of the place, with the old key of the first. The count of a path is that
of the updates with it and of the references that the iterators hold.** -/
theorem stagingRun_updates {ops : List (StagingOp ν)} {replayNotFinished : Bool}
    {s : StagingState ν} (h : stagingRun (StagingState.init replayNotFinished) ops = some s) :
    (s.trans.updates.Pairwise fun l r => btreeInsertEntryCmp l r = .lt) ∧
      (s.trans.updates.map BtreeInsertEntry.place).Nodup ∧
      (∀ place e, (e ∈ s.trans.updates ∧ e.place = place) ↔ stagedImage s.log place = some e) ∧
      ∀ i, s.trans.paths.refOf i = s.trans.updates.countP (fun e => e.path = i) + refsTo s.held i ∧
        s.trans.paths.intentRefOf i =
          s.trans.updates.countP (fun e => e.path = i) + intentRefsTo s.held i := by
  have hstaged := (StagingInv.init replayNotFinished).run h
  refine ⟨hstaged.sorted.imp btreeInsertEntryCmp_lt_iff.mpr, ?_, fun _ _ => hstaged.mem_updates_iff,
    fun i => ⟨?_, ?_⟩⟩
  · refine List.pairwise_map.mpr (hstaged.sorted.imp_of_mem fun {l r} hl hr hlt hplace => ?_)
    have hkeys := (hstaged.formed_of_mem hl).entryKey_eq_iff (hstaged.formed_of_mem hr)
    exact hlt.ne (hkeys.mpr hplace)
  · rw [hstaged.counts.ref, BtreeTrans.refsTo_refs]
  · rw [hstaged.counts.intentRef, BtreeTrans.intentRefsTo_refs]

/-- A path of the first tree, with an iterator on it and a copy, and two updates of its place. -/
theorem stagingRun_updates_twice :
    let pos : Bpos := ⟨1, 2, 0⟩
    let u (val : ℕ) : UpdateArgs ℕ := ⟨1, ⟨pos, 1, 6, 0, val⟩, 6, 0, 0, ⟨pos, 1, 6, 0, 7⟩, none⟩
    ∃ s, stagingRun (StagingState.init false)
        [.get 0 pos 0 true false false, .traverse ⟨1, true⟩ 0 true true, .copy ⟨1, true⟩,
          .update (u 8), .update (u 9)] = some s ∧
      ((s.trans.updates.Pairwise fun l r => btreeInsertEntryCmp l r = .lt) ∧
      (s.trans.updates.map BtreeInsertEntry.place).Nodup ∧
      (∀ place e, (e ∈ s.trans.updates ∧ e.place = place) ↔ stagedImage s.log place = some e) ∧
      ∀ i, s.trans.paths.refOf i = s.trans.updates.countP (fun e => e.path = i) + refsTo s.held i ∧
        s.trans.paths.intentRefOf i =
          s.trans.updates.countP (fun e => e.path = i) + intentRefsTo s.held i) := by
  intro pos u
  have hrun : (stagingRun (StagingState.init false)
      [.get 0 pos 0 true false false, .traverse ⟨1, true⟩ 0 true true, .copy ⟨1, true⟩,
        .update (u 8), .update (u 9)]).isSome = true := by decide +kernel
  obtain ⟨s, hs⟩ := Option.isSome_iff_exists.mp hrun
  exact ⟨s, hs, stagingRun_updates hs⟩

end Subvol

import Mathlib.Data.List.Nodup
import Mathlib.Data.List.TakeWhile
import Mathlib.Data.Prod.Lex
import Mathlib.Order.Fin.Basic
import Subvol.Btree.Key
import Subvol.Lib.Runs

/-!
# The overlay of journal keys

During recovery the keys of the journal lie over the trees: an array sorted by tree, level and
position. A key that was replayed is overwritten; runs of overwritten keys of one tree and level are
kept as ranges of indices, which the lookups skip. A range that was merged into another one stays in
the table with no key that refers to it. Pointers to keys are the keys themselves, and
`overwritten_range` is a natural number; there is at most one range more than overwritten keys, so
the 32 bits of the source hold it.

## Main definitions

* `JournalKey`, `JournalKeys`.
* `journalKeysSort`, `bch2JournalKeyInsert`, `journalKeyOverwritten`,
  `bch2JournalKeyCheckOrOverwrite`.
* `JournalKeys.Ok`: the array is sorted and the ranges are the runs of overwritten keys.

## Main results

* `journalKeysSort_ok`, `JournalKeys.Ok.insert`, `JournalKeys.Ok.overwritten`: the operations keep
  `JournalKeys.Ok`.
-/

namespace Subvol

open Lib

/-! ### Keys -/

/-- `journal_key`. -/
structure JournalKey where
  btreeId : Fin 256
  level : Fin 256
  k : Bkey
  overwritten : Bool := false
  overwrittenRange : ℕ := 0
deriving DecidableEq, Repr

namespace JournalKey

/-- The place of a key in the array: tree, level and position in this order. -/
def slot (key : JournalKey) : Fin 256 ×ₗ Fin 256 ×ₗ Bpos :=
  toLex (key.btreeId, toLex (key.level, key.k.p))

/-- The tree and level of an overwritten key. -/
def mark (key : JournalKey) : Option (Fin 256 × Fin 256) :=
  if key.overwritten then some (key.btreeId, key.level) else none

/-- The key with another range. -/
def withRange (key : JournalKey) (range : ℕ) : JournalKey := { key with overwrittenRange := range }

@[simp] theorem mark_withRange (key : JournalKey) (range : ℕ) :
    (key.withRange range).mark = key.mark := rfl

@[simp] theorem slot_withRange (key : JournalKey) (range : ℕ) :
    (key.withRange range).slot = key.slot := rfl

theorem mark_eq_some {key : JournalKey} {c : Fin 256 × Fin 256} :
    key.mark = some c ↔ key.overwritten = true ∧ (key.btreeId, key.level) = c := by
  rw [mark]
  by_cases h : key.overwritten = true
  · rw [if_pos h, Option.some.injEq, and_iff_right h]
  · rw [if_neg h]
    exact iff_of_false (Option.some_ne_none c).symm fun hc => h hc.1

end JournalKey

/-- `journal_keys`: the sorted array and the ranges of overwritten keys, from start to end. -/
structure JournalKeys where
  data : List JournalKey := []
  overwrites : List (ℕ × ℕ) := []
deriving DecidableEq, Repr

/-- Whether a key is of the given tree and level. -/
def JournalKey.inTree (key : JournalKey) (btreeId level : Fin 256) : Bool :=
  decide (key.btreeId = btreeId ∧ key.level = level)

/-! ### Sorting and inserting -/

/-- The table a new range is appended to: its first entry is not used. -/
def newTable (overwrites : List (ℕ × ℕ)) : List (ℕ × ℕ) :=
  if overwrites = [] then [(0, 0)] else overwrites

theorem newTable_spec (ov : List (ℕ × ℕ)) :
    (newTable ov).length ≠ 0 ∧ (newTable ov).length ≤ max ov.length 1 := by
  rw [newTable]
  split_ifs with hnil
  · exact ⟨Nat.one_ne_zero, Nat.le_max_right _ _⟩
  · exact ⟨fun hzero => hnil (List.length_eq_zero_iff.mp hzero), Nat.le_max_left _ _⟩

/-- The loop of `__journal_keys_sort` over the sorted keys from `idx` on: runs of overwritten keys
get a new range each, behind an unused first one. The first argument bounds the rounds. -/
def journalKeysLabel : ℕ → ℕ → List JournalKey → List (ℕ × ℕ) → List JournalKey × List (ℕ × ℕ)
  | 0, _, keys, overwrites => (keys, overwrites)
  | _ + 1, _, [], overwrites => ([], overwrites)
  | fuel + 1, idx, key :: rest, overwrites =>
    if key.overwritten = false then
      let (keys, overwrites) := journalKeysLabel fuel (idx + 1) rest overwrites
      (key.withRange 0 :: keys, overwrites)
    else
      let run := key :: rest.takeWhile fun x => x.overwritten && x.inTree key.btreeId key.level
      let overwrites := newTable overwrites
      let range := overwrites.length
      let (keys, overwrites) := journalKeysLabel fuel (idx + run.length)
        (rest.drop (run.length - 1)) (overwrites ++ [(idx, idx + run.length)])
      (run.map (fun x => x.withRange range) ++ keys, overwrites)

/-- `__journal_keys_sort`. -/
def journalKeysSort (keys : JournalKeys) : JournalKeys :=
  let data := keys.data.mergeSort fun l r => decide (l.slot ≤ r.slot)
  let (data, overwrites) := journalKeysLabel data.length 0 data []
  ⟨data, overwrites⟩

/-- Whether a key is the one of the given tree, level and position. -/
def JournalKey.isAt (key : JournalKey) (btreeId level : Fin 256) (pos : Bpos) : Bool :=
  decide (key.btreeId = btreeId ∧ key.level = level ∧ key.k.p = pos)

/-- `bch2_journal_key_insert`. -/
def bch2JournalKeyInsert (keys : JournalKeys) (btreeId level : Fin 256) (k : Bkey) : JournalKeys :=
  match keys.data.findIdx? fun x => x.isAt btreeId level k.p with
  | some i => journalKeysSort { keys with data := keys.data.set i ⟨btreeId, level, k, false, 0⟩ }
  | none => journalKeysSort { keys with data := keys.data ++ [⟨btreeId, level, k, false, 0⟩] }

/-! ### Overwriting -/

/-- The range of the key at `i`, if it has one. -/
def keyRange (data : List JournalKey) (overwrites : List (ℕ × ℕ)) (i : Option ℕ) : Option ℕ := do
  let key ← data[← i]?
  let range := key.overwrittenRange
  if range ≠ 0 ∧ range < overwrites.length then some range else none

/-- The keys with the range of those from `s` to `e` replaced. -/
def relabel (data : List JournalKey) (s e range : ℕ) : List JournalKey :=
  data.mapIdx fun i x => if s ≤ i ∧ i < e then x.withRange range else x

/-- The range at an index of the table. -/
def rangeAt (overwrites : List (ℕ × ℕ)) (i : ℕ) : ℕ × ℕ := overwrites.getD i (0, 0)

/-- The neighbour at `i`, if it is an overwritten key of the same tree and level. -/
def overwrittenAt (data : List JournalKey) (btreeId level : Fin 256) (i : ℕ) : Option ℕ :=
  match data[i]? with
  | some x => if x.inTree btreeId level && x.overwritten then some i else none
  | none => none

/-- `__bch2_journal_key_overwritten`. -/
def journalKeyOverwritten (keys : JournalKeys) (idx : ℕ) (key : JournalKey) : JournalKeys :=
  let data := keys.data.set idx { key with overwritten := true }
  let ov := keys.overwrites
  let prevIdx := if idx = 0 then none else overwrittenAt data key.btreeId key.level (idx - 1)
  let nextIdx := overwrittenAt data key.btreeId key.level (idx + 1)
  match keyRange data ov prevIdx, keyRange data ov nextIdx with
  | some prev, some next =>
    let nextEnd := (rangeAt ov next).2
    let ov := ov.set prev ((rangeAt ov prev).1, nextEnd)
    ⟨relabel (relabel data idx (idx + 1) prev) (rangeAt ov next).1 nextEnd prev, ov⟩
  | some prev, none =>
    ⟨relabel data idx (idx + 1) prev,
      ov.set prev ((rangeAt ov prev).1, max (rangeAt ov prev).2 (idx + 1))⟩
  | none, some next =>
    ⟨relabel data idx (idx + 1) next,
      ov.set next (min (rangeAt ov next).1 idx, (rangeAt ov next).2)⟩
  | none, none =>
    let ov := newTable ov
    let start := prevIdx.getD idx
    let stop := nextIdx.getD idx + 1
    ⟨relabel data start stop ov.length, ov ++ [(start, stop)]⟩

/-- `bch2_journal_key_check_or_overwrite`. -/
def bch2JournalKeyCheckOrOverwrite (keys : JournalKeys) (btreeId level : Fin 256) (pos : Bpos)
    (check : Bool) : JournalKeys :=
  match keys.data.findIdx? fun x => x.isAt btreeId level pos with
  | some idx =>
    match keys.data[idx]? with
    | some key => if key.overwritten || check then keys else journalKeyOverwritten keys idx key
    | none => keys
  | none => keys

/-! ### The invariant -/

/-- The array is strictly sorted and the ranges are the runs of overwritten keys; there is at most
one range more than overwritten keys. -/
structure JournalKeys.Ok (keys : JournalKeys) : Prop where
  sorted : keys.data.Pairwise fun l r => l.slot < r.slot
  runs : RunsOk 0 (marksOf JournalKey.mark keys.data)
    (labelsOf JournalKey.overwrittenRange keys.data) keys.overwrites
  few : keys.overwrites.length ≤ keys.data.countP JournalKey.overwritten + 1

/-- Two arrays with the same keys, their ranges apart. -/
def SameKeys (l r : List JournalKey) : Prop :=
  l.map (fun x => x.withRange 0) = r.map fun x => x.withRange 0

namespace SameKeys

variable {l r : List JournalKey}

theorem of_factor {β : Type*} {φ : JournalKey → β} (hφ : ∀ x, φ (x.withRange 0) = φ x)
    (h : SameKeys l r) : l.map φ = r.map φ := by
  have hmap := congrArg (List.map φ) h
  rw [List.map_map, List.map_map] at hmap
  have heq : (φ ∘ fun x => x.withRange 0) = φ := funext hφ
  rwa [heq] at hmap

theorem slots (h : SameKeys l r) : l.map JournalKey.slot = r.map JournalKey.slot :=
  h.of_factor fun _ => rfl

theorem length_eq (h : SameKeys l r) : l.length = r.length := by
  simpa using congrArg List.length h

theorem marks (h : SameKeys l r) : marksOf JournalKey.mark l = marksOf JournalKey.mark r := by
  have hmap : l.map JournalKey.mark = r.map JournalKey.mark := h.of_factor fun _ => rfl
  have hjoin : ∀ x : List JournalKey, ∀ k,
      marksOf JournalKey.mark x k = ((x.map JournalKey.mark)[k]?).join := by
    intro x k
    rw [marksOf, List.getElem?_map]
    cases x[k]? <;> rfl
  funext k
  rw [hjoin, hjoin, hmap]

theorem countP (h : SameKeys l r) :
    l.countP JournalKey.overwritten = r.countP JournalKey.overwritten := by
  have hmap : l.map JournalKey.overwritten = r.map JournalKey.overwritten :=
    h.of_factor fun _ => rfl
  have hcount : ∀ x : List JournalKey,
      x.countP JournalKey.overwritten = (x.map JournalKey.overwritten).countP id := by
    intro x
    rw [List.countP_map]
    rfl
  rw [hcount, hcount, hmap]

end SameKeys

/-! ### The sort -/

/-- What the labelling loop does from `idx` on. -/
structure Labelled (idx : ℕ) (keys : List JournalKey) (overwrites : List (ℕ × ℕ))
    (out : List JournalKey × List (ℕ × ℕ)) : Prop where
  same : SameKeys out.1 keys
  grown : overwrites <+: out.2
  runs : RunsOk idx (marksOf JournalKey.mark out.1)
    (labelsOf JournalKey.overwrittenRange out.1) out.2
  few : out.2.length ≤ max overwrites.length 1 + keys.countP JournalKey.overwritten

theorem runsOk_nil (base : ℕ) (rows : List (ℕ × ℕ)) :
    RunsOk base (marksOf JournalKey.mark []) (labelsOf JournalKey.overwrittenRange []) rows := by
  intro i c hi
  cases hi

theorem labelled_nil (idx : ℕ) (overwrites : List (ℕ × ℕ)) :
    Labelled idx [] overwrites ([], overwrites) :=
  ⟨rfl, List.prefix_rfl, runsOk_nil _ _, Nat.le_max_left _ _⟩

/-- A key that is not overwritten, in front of what is labelled. -/
theorem Labelled.cons_live {idx : ℕ} {key : JournalKey} {rest : List JournalKey}
    {overwrites : List (ℕ × ℕ)} {out : List JournalKey × List (ℕ × ℕ)}
    (h : Labelled (idx + 1) rest overwrites out) (hlive : key.overwritten = false) :
    Labelled idx (key :: rest) overwrites (key.withRange 0 :: out.1, out.2) := by
  refine ⟨congrArg (List.cons _) h.same, h.grown, h.runs.cons_none ?_, ?_⟩
  · rw [JournalKey.mark_withRange, JournalKey.mark, hlive]
    rfl
  · rw [List.countP_cons, hlive]
    exact h.few

/-- A run of overwritten keys with a new range, in front of what is labelled. -/
theorem Labelled.append_run (key : JournalKey) {idx : ℕ} {run back : List JournalKey}
    {overwrites : List (ℕ × ℕ)} {out : List JournalKey × List (ℕ × ℕ)}
    (h : Labelled (idx + run.length) back (newTable overwrites ++ [(idx, idx + run.length)]) out)
    (hne : run ≠ [])
    (hrun : ∀ x ∈ run, x.overwritten = true ∧ x.inTree key.btreeId key.level = true)
    (hback : ∀ x, back.head? = some x →
      (x.overwritten && x.inTree key.btreeId key.level) = false) :
    Labelled idx (run ++ back) overwrites
      (run.map (fun x => x.withRange (newTable overwrites).length) ++ out.1, out.2) := by
  obtain ⟨hpos, hsmall⟩ := newTable_spec overwrites
  have hgrown : overwrites <+: newTable overwrites := by
    rw [newTable]
    split_ifs with hnil
    · rw [hnil]
      exact List.nil_prefix
    · exact List.prefix_rfl
  have hcount : 1 ≤ run.countP JournalKey.overwritten := by
    obtain ⟨x, hx⟩ := List.exists_mem_of_ne_nil run hne
    exact List.countP_pos_iff.mpr ⟨x, hx, (hrun x hx).1⟩
  refine ⟨?_, (hgrown.trans (List.prefix_append _ _)).trans h.grown, ?_, ?_⟩
  · have hsame := h.same
    unfold SameKeys at hsame ⊢
    rw [List.map_append, List.map_append, hsame, List.map_map]
    rfl
  · have hlen : (run.map fun x => x.withRange (newTable overwrites).length).length = run.length :=
      List.length_map _
    refine RunsOk.append_block (c := (key.btreeId, key.level)) (q := (newTable overwrites).length)
      ?_ ?_ ?_ hpos ?_ ?_ ?_
    · simpa using hne
    · intro x hx
      obtain ⟨y, hy, rfl⟩ := List.mem_map.mp hx
      obtain ⟨hover, htree⟩ := hrun y hy
      obtain ⟨hid, hlevel⟩ := of_decide_eq_true htree
      rw [JournalKey.mark_withRange, JournalKey.mark_eq_some]
      exact ⟨hover, by rw [hid, hlevel]⟩
    · intro x hx
      obtain ⟨y, -, rfl⟩ := List.mem_map.mp hx
      rfl
    · rw [hlen]
      obtain ⟨more, hmore⟩ := h.grown
      rw [← hmore, List.append_assoc, List.getElem?_append_right le_rfl, Nat.sub_self]
      rfl
    · rw [h.same.marks, marksOf, ← List.head?_eq_getElem?]
      intro hmark
      obtain ⟨x, hx, hmark⟩ := Option.bind_eq_some_iff.mp hmark
      obtain ⟨hover, hpair⟩ := JournalKey.mark_eq_some.mp hmark
      have hno := hback x hx
      rw [hover, Bool.true_and, JournalKey.inTree, decide_eq_false_iff_not] at hno
      exact hno ⟨congrArg Prod.fst hpair, congrArg Prod.snd hpair⟩
    · rw [hlen]
      exact h.runs
  · have hfew := h.few
    rw [List.length_append, List.length_singleton] at hfew
    rw [List.countP_append]
    dsimp only
    omega

theorem journalKeysLabel_spec (fuel idx : ℕ) (keys : List JournalKey) (overwrites : List (ℕ × ℕ))
    (hfuel : keys.length ≤ fuel) :
    Labelled idx keys overwrites (journalKeysLabel fuel idx keys overwrites) := by
  induction fuel generalizing idx keys overwrites with
  | zero =>
    obtain rfl : keys = [] := List.length_eq_zero_iff.mp (Nat.le_zero.mp hfuel)
    exact labelled_nil idx overwrites
  | succ fuel ih =>
    cases keys with
    | nil => exact labelled_nil idx overwrites
    | cons key rest =>
      rw [List.length_cons] at hfuel
      rw [journalKeysLabel]
      by_cases hlive : key.overwritten = false
      · rw [if_pos hlive]
        exact (ih (idx + 1) rest overwrites (by omega)).cons_live hlive
      · rw [if_neg hlive]
        dsimp only
        have hsplit := List.takeWhile_append_dropWhile
          (p := fun x : JournalKey => x.overwritten && x.inTree key.btreeId key.level) (l := rest)
        have hinside : ∀ x ∈ rest.takeWhile (fun x => x.overwritten && x.inTree key.btreeId key.level),
            (x.overwritten && x.inTree key.btreeId key.level) = true :=
          fun x hx => by simpa using List.mem_takeWhile_imp hx
        have hstop := List.head?_dropWhile_not
          (fun x : JournalKey => x.overwritten && x.inTree key.btreeId key.level) rest
        revert hsplit hinside hstop
        generalize rest.takeWhile (fun x => x.overwritten && x.inTree key.btreeId key.level) = run
        generalize rest.dropWhile (fun x => x.overwritten && x.inTree key.btreeId key.level) = back
        rintro rfl hinside hstop
        rw [List.length_append] at hfuel
        rw [List.length_cons, Nat.add_sub_cancel, List.drop_left, ← List.cons_append]
        refine Labelled.append_run key (ih _ back _ (by omega)) (List.cons_ne_nil _ _) ?_ ?_
        · intro x hx
          rcases List.mem_cons.mp hx with rfl | hx
          · exact ⟨by simpa using hlive, decide_eq_true ⟨rfl, rfl⟩⟩
          · exact (Bool.and_eq_true_iff).mp (hinside x hx)
        · intro x hx
          rw [hx] at hstop
          exact hstop

/-- Sorting an array without two keys of one place. -/
theorem journalKeysSort_ok {keys : JournalKeys} (hnodup : (keys.data.map JournalKey.slot).Nodup) :
    (journalKeysSort keys).Ok := by
  have hperm := List.mergeSort_perm keys.data fun l r => decide (l.slot ≤ r.slot)
  have hsorted : (keys.data.mergeSort fun l r => decide (l.slot ≤ r.slot)).Pairwise
      fun l r => l.slot ≤ r.slot := by
    refine (List.pairwise_mergeSort ?_ ?_ keys.data).imp fun h => of_decide_eq_true h
    · intro a b c hab hbc
      exact decide_eq_true ((of_decide_eq_true hab).trans (of_decide_eq_true hbc))
    · intro a b
      rw [Bool.or_eq_true, decide_eq_true_eq, decide_eq_true_eq]
      exact le_total a.slot b.slot
  have hnodup' := (hperm.map JournalKey.slot).nodup_iff.mpr hnodup
  unfold journalKeysSort
  revert hsorted hnodup'
  generalize (keys.data.mergeSort fun l r => decide (l.slot ≤ r.slot)) = data
  intro hsorted hnodup'
  have h := journalKeysLabel_spec data.length 0 data [] le_rfl
  have hstrict : (data.map JournalKey.slot).Pairwise (· < ·) := by
    have hle : (data.map JournalKey.slot).Pairwise (· ≤ ·) := List.pairwise_map.mpr hsorted
    exact (hle.and hnodup').imp fun h => lt_of_le_of_ne h.1 h.2
  refine ⟨?_, h.runs, ?_⟩
  · rw [← h.same.slots] at hstrict
    exact List.pairwise_map.mp hstrict
  · have hfew := h.few
    rw [List.length_nil, Nat.max_eq_right (Nat.zero_le _), Nat.add_comm] at hfew
    rw [h.same.countP]
    exact hfew

theorem JournalKeys.Ok.nodup {keys : JournalKeys} (h : keys.Ok) :
    (keys.data.map JournalKey.slot).Nodup :=
  (List.pairwise_map.mpr h.sorted).imp fun hlt => ne_of_lt hlt

theorem isAt_iff {key : JournalKey} {btreeId level : Fin 256} {pos : Bpos} :
    key.isAt btreeId level pos = true ↔ key.slot = toLex (btreeId, toLex (level, pos)) := by
  rw [JournalKey.isAt, decide_eq_true_eq, JournalKey.slot]
  constructor
  · rintro ⟨rfl, rfl, rfl⟩
    rfl
  · intro h
    exact ⟨congrArg (fun x => (ofLex x).1) h, congrArg (fun x => (ofLex (ofLex x).2).1) h,
      congrArg (fun x => (ofLex (ofLex x).2).2) h⟩

theorem JournalKeys.Ok.insert {keys : JournalKeys} (h : keys.Ok) (btreeId level : Fin 256)
    (k : Bkey) : (bch2JournalKeyInsert keys btreeId level k).Ok := by
  unfold bch2JournalKeyInsert
  cases hfind : keys.data.findIdx? fun x => x.isAt btreeId level k.p with
  | some i =>
    obtain ⟨hi, hat, -⟩ := List.findIdx?_eq_some_iff_getElem.mp hfind
    have hmap : i < (keys.data.map JournalKey.slot).length := by rwa [List.length_map]
    refine journalKeysSort_ok ?_
    dsimp only
    rw [List.map_set]
    have hslot : JournalKey.slot ⟨btreeId, level, k, false, 0⟩ =
        (keys.data.map JournalKey.slot)[i] := by
      rw [List.getElem_map, isAt_iff.mp hat]
      rfl
    rw [hslot, List.set_getElem_self]
    exact h.nodup
  | none =>
    refine journalKeysSort_ok ?_
    dsimp only
    rw [List.map_append, List.map_singleton]
    refine List.nodup_append.mpr ⟨h.nodup, List.nodup_singleton _, ?_⟩
    intro a ha b hb
    obtain ⟨x, hx, rfl⟩ := List.mem_map.mp ha
    rw [List.mem_singleton.mp hb]
    intro heq
    have hnone := List.findIdx?_eq_none_iff.mp hfind x hx
    rw [isAt_iff.mpr heq] at hnone
    cases hnone

/-! ### One more overwritten key -/

section Overwrite

variable {data : List JournalKey} {idx : ℕ} {key : JournalKey}

theorem marksOf_overwritten (hget : data[idx]? = some key) :
    marksOf JournalKey.mark (data.set idx { key with overwritten := true }) =
      Function.update (marksOf JournalKey.mark data) idx (some (key.btreeId, key.level)) := by
  obtain ⟨hidx, -⟩ := List.getElem?_eq_some_iff.mp hget
  funext k
  by_cases hk : k = idx
  · subst hk
    rw [Function.update_self, marksOf, List.getElem?_set_self hidx]
    rfl
  · rw [Function.update_of_ne hk, marksOf, List.getElem?_set_ne (Ne.symm hk), marksOf]

theorem labelsOf_overwritten (hget : data[idx]? = some key) :
    labelsOf JournalKey.overwrittenRange (data.set idx { key with overwritten := true }) =
      labelsOf JournalKey.overwrittenRange data := by
  obtain ⟨hidx, hkey⟩ := List.getElem?_eq_some_iff.mp hget
  funext k
  by_cases hk : k = idx
  · subst hk
    rw [labelsOf, labelsOf, List.getElem?_set_self hidx, hget]
    rfl
  · rw [labelsOf, List.getElem?_set_ne (Ne.symm hk), labelsOf]

theorem slots_overwritten (hget : data[idx]? = some key) :
    (data.set idx { key with overwritten := true }).map JournalKey.slot =
      data.map JournalKey.slot := by
  obtain ⟨hidx, rfl⟩ := List.getElem?_eq_some_iff.mp hget
  have hmap : idx < (data.map JournalKey.slot).length := by rwa [List.length_map]
  have hslot : JournalKey.slot { data[idx] with overwritten := true } =
      (data.map JournalKey.slot)[idx] := by
    rw [List.getElem_map]
    rfl
  rw [List.map_set, hslot, List.set_getElem_self]

theorem countP_overwritten (hget : data[idx]? = some key) (hlive : key.overwritten = false) :
    (data.set idx { key with overwritten := true }).countP JournalKey.overwritten =
      data.countP JournalKey.overwritten + 1 := by
  obtain ⟨hidx, rfl⟩ := List.getElem?_eq_some_iff.mp hget
  rw [List.countP_set hidx, hlive]
  rfl

theorem sameKeys_relabel (data : List JournalKey) (s e range : ℕ) :
    SameKeys (relabel data s e range) data := by
  refine List.ext_getElem? fun k => ?_
  rw [List.getElem?_map, List.getElem?_map, relabel, List.getElem?_mapIdx]
  cases data[k]? with
  | none => rfl
  | some x =>
    rw [Option.map_some, Option.map_some, Option.map_some]
    split_ifs <;> rfl

theorem labelsOf_relabel {s e range k : ℕ} (hk : k < data.length) :
    labelsOf JournalKey.overwrittenRange (relabel data s e range) k =
      if s ≤ k ∧ k < e then range else labelsOf JournalKey.overwrittenRange data k := by
  rw [labelsOf, labelsOf, relabel, List.getElem?_mapIdx, List.getElem?_eq_getElem hk,
    Option.map_some, Option.map_some, Option.map_some]
  split_ifs <;> rfl

theorem overwrittenAt_eq (data : List JournalKey) (btreeId level : Fin 256) (i : ℕ) :
    overwrittenAt data btreeId level i =
      if marksOf JournalKey.mark data i = some (btreeId, level) then some i else none := by
  rw [overwrittenAt, marksOf]
  cases data[i]? with
  | none => exact (if_neg (Option.some_ne_none _).symm).symm
  | some x =>
    have hiff : (x.inTree btreeId level && x.overwritten) = true ↔ x.mark = some (btreeId, level) := by
      rw [JournalKey.mark_eq_some, Bool.and_eq_true, JournalKey.inTree, decide_eq_true_eq,
        and_comm, Prod.mk.injEq]
    rw [Option.bind_some]
    dsimp only
    by_cases hx : x.mark = some (btreeId, level)
    · rw [if_pos hx, if_pos (hiff.mpr hx)]
    · rw [if_neg hx, if_neg fun h => hx (hiff.mp h)]

/-- A marked key has a range. -/
theorem keyRange_of_mark {ov : List (ℕ × ℕ)} {marks : ℕ → Option (Fin 256 × Fin 256)} {i : ℕ}
    (hruns : RunsOk 0 marks (labelsOf JournalKey.overwrittenRange data) ov) (hlt : i < data.length)
    (hi : marks i ≠ none) :
    keyRange data ov (some i) = some (labelsOf JournalKey.overwrittenRange data i) := by
  obtain ⟨c, hc⟩ := Option.ne_none_iff_exists'.mp hi
  obtain ⟨hne, s, e, hrow, -⟩ := hruns i c hc
  have hrowlt := (List.getElem?_eq_some_iff.mp hrow).1
  rw [labelsOf, List.getElem?_eq_getElem hlt] at hne hrowlt ⊢
  rw [keyRange]
  simp only [Option.bind_eq_bind, Option.bind_some, List.getElem?_eq_getElem hlt]
  exact if_pos ⟨hne, hrowlt⟩

theorem lt_length_of_mark {i : ℕ} (hi : marksOf JournalKey.mark data i ≠ none) : i < data.length := by
  by_contra hge
  refine hi ?_
  rw [marksOf, List.getElem?_eq_none (Nat.not_lt.mp hge)]
  rfl

theorem rangeAt_of_row {ov : List (ℕ × ℕ)} {i a b : ℕ} (h : ov[i]? = some (0 + a, 0 + b)) :
    rangeAt ov i = (a, b) := by
  rw [rangeAt, List.getD_eq_getElem?_getD, h, Option.getD_some, Nat.zero_add, Nat.zero_add]

/-- The array with one more overwritten key, whatever its new ranges are. -/
theorem JournalKeys.Ok.overwrite {keys : JournalKeys} (h : keys.Ok)
    (hget : keys.data[idx]? = some key) (hlive : key.overwritten = false) {out : JournalKeys}
    (hsame : SameKeys out.data (keys.data.set idx { key with overwritten := true }))
    (hruns : RunsOk 0 (Function.update (marksOf JournalKey.mark keys.data) idx
      (some (key.btreeId, key.level))) (labelsOf JournalKey.overwrittenRange out.data) out.overwrites)
    (hfew : out.overwrites.length ≤ max keys.overwrites.length 1 + 1) : out.Ok where
  sorted := by
    have hsorted : (keys.data.map JournalKey.slot).Pairwise (· < ·) :=
      List.pairwise_map.mpr h.sorted
    rw [← slots_overwritten hget, ← hsame.slots] at hsorted
    exact List.pairwise_map.mp hsorted
  runs := by
    rw [hsame.marks, marksOf_overwritten hget]
    exact hruns
  few := by
    have hold := h.few
    rw [hsame.countP, countP_overwritten hget hlive]
    omega

/-- The run `[s, e)` of overwritten keys, with the range `range`. -/
structure RangeRun (keys : JournalKeys) (c : Fin 256 × Fin 256) (range s e : ℕ) : Prop where
  ne_zero : range ≠ 0
  row : keys.overwrites[range]? = some (0 + s, 0 + e)
  run : IsRun (marksOf JournalKey.mark keys.data) c s e
  labels : ∀ k, s ≤ k → k < e → labelsOf JournalKey.overwrittenRange keys.data k = range

theorem RangeRun.lt_length {keys : JournalKeys} {c : Fin 256 × Fin 256} {range s e k : ℕ}
    (h : RangeRun keys c range s e) (hs : s ≤ k) (he : k < e) : k < keys.data.length :=
  lt_length_of_mark (by rw [h.run.marked k hs he]; exact Option.some_ne_none c)

/-- No other key has the range of a run. -/
theorem RangeRun.label_ne {keys : JournalKeys} {c : Fin 256 × Fin 256} {range s e k : ℕ}
    (h : RangeRun keys c range s e) (hok : keys.Ok) (hout : ¬(s ≤ k ∧ k < e))
    (hk : marksOf JournalKey.mark keys.data k ≠ none) :
    labelsOf JournalKey.overwrittenRange keys.data k ≠ range := by
  intro hlabel
  exact hout (hok.runs.mem_row hk (hlabel ▸ h.row))

theorem RangeRun.set_row {keys : JournalKeys} {c : Fin 256 × Fin 256} {range s e : ℕ}
    (h : RangeRun keys c range s e) (a b : ℕ) :
    (keys.overwrites.set range (a, b))[range]? = some (0 + a, 0 + b) := by
  rw [List.getElem?_set_self (List.getElem?_eq_some_iff.mp h.row).1, Nat.zero_add, Nat.zero_add]

theorem rangeRun_of_mark {keys : JournalKeys} (h : keys.Ok) {i : ℕ} {c : Fin 256 × Fin 256}
    (hi : marksOf JournalKey.mark keys.data i = some c) :
    ∃ s e, s ≤ i ∧ i < e ∧
      RangeRun keys c (labelsOf JournalKey.overwrittenRange keys.data i) s e := by
  obtain ⟨hne, s, e, hrow, hs, he, hrun, hsame⟩ := h.runs i c hi
  exact ⟨s, e, hs, he, hne, hrow, hrun, hsame⟩

/-- The range before the key at `idx`, if there is one to extend. -/
theorem prev_cases {keys : JournalKeys} (h : keys.Ok) (hget : keys.data[idx]? = some key)
    (hnone : marksOf JournalKey.mark keys.data idx = none) {prevIdx : Option ℕ}
    (hprev : prevIdx = if idx = 0 then none else overwrittenAt
      (keys.data.set idx { key with overwritten := true }) key.btreeId key.level (idx - 1)) :
    (prevIdx = none ∧ ∀ k, k + 1 = idx →
      marksOf JournalKey.mark keys.data k ≠ some (key.btreeId, key.level)) ∨
    ∃ prev s, keyRange (keys.data.set idx { key with overwritten := true }) keys.overwrites prevIdx =
        some prev ∧ RangeRun keys (key.btreeId, key.level) prev s idx := by
  cases idx with
  | zero =>
    rw [if_pos rfl] at hprev
    exact .inl ⟨hprev, fun k hk => absurd hk (Nat.succ_ne_zero k)⟩
  | succ n =>
    rw [if_neg (Nat.succ_ne_zero n), Nat.add_sub_cancel, overwrittenAt_eq, marksOf_overwritten hget,
      Function.update_of_ne (Nat.ne_of_lt (Nat.lt_succ_self n))] at hprev
    by_cases hmark : marksOf JournalKey.mark keys.data n = some (key.btreeId, key.level)
    · rw [if_pos hmark] at hprev
      subst hprev
      obtain ⟨s, e, hs, he, hrun⟩ := rangeRun_of_mark h hmark
      obtain rfl : e = n + 1 := hrun.run.end_eq hs he hnone
      have hruns := h.runs
      rw [← labelsOf_overwritten hget] at hruns
      have hlt := hrun.lt_length hs he
      refine .inr ⟨_, s, keyRange_of_mark hruns (by rwa [List.length_set]) ?_, ?_⟩
      · rw [hmark]
        exact Option.some_ne_none _
      · rw [labelsOf_overwritten hget]
        exact hrun
    · rw [if_neg hmark] at hprev
      refine .inl ⟨hprev, fun k hk => ?_⟩
      rw [Nat.succ_inj.mp hk]
      exact hmark

/-- The range behind the key at `idx`, if there is one to extend. -/
theorem next_cases {keys : JournalKeys} (h : keys.Ok) (hget : keys.data[idx]? = some key)
    (hnone : marksOf JournalKey.mark keys.data idx = none) {nextIdx : Option ℕ}
    (hnext : nextIdx = overwrittenAt (keys.data.set idx { key with overwritten := true })
      key.btreeId key.level (idx + 1)) :
    (nextIdx = none ∧
      marksOf JournalKey.mark keys.data (idx + 1) ≠ some (key.btreeId, key.level)) ∨
    ∃ next e, keyRange (keys.data.set idx { key with overwritten := true }) keys.overwrites nextIdx =
        some next ∧ RangeRun keys (key.btreeId, key.level) next (idx + 1) e := by
  rw [overwrittenAt_eq, marksOf_overwritten hget,
    Function.update_of_ne (Nat.ne_of_gt (Nat.lt_succ_self idx))] at hnext
  by_cases hmark : marksOf JournalKey.mark keys.data (idx + 1) = some (key.btreeId, key.level)
  · rw [if_pos hmark] at hnext
    subst hnext
    obtain ⟨s, e, hs, he, hrun⟩ := rangeRun_of_mark h hmark
    obtain rfl : s = idx + 1 := hrun.run.start_eq hs he hnone
    have hruns := h.runs
    rw [← labelsOf_overwritten hget] at hruns
    have hlt := hrun.lt_length hs he
    refine .inr ⟨_, e, keyRange_of_mark hruns (by rwa [List.length_set]) ?_, ?_⟩
    · rw [hmark]
      exact Option.some_ne_none _
    · rw [labelsOf_overwritten hget]
      exact hrun
  · rw [if_neg hmark] at hnext
    exact .inl ⟨hnext, hmark⟩

/-- The key at `idx` is not in a run yet. -/
theorem mark_none_of_live {keys : JournalKeys} (hget : keys.data[idx]? = some key)
    (hlive : key.overwritten = false) : marksOf JournalKey.mark keys.data idx = none := by
  rw [marksOf, hget, Option.bind_some, JournalKey.mark, hlive]
  rfl

/-- The ranges behind a relabelling of the array with one more overwritten key. -/
theorem labelsOf_relabel_overwritten {keys : JournalKeys} (hget : keys.data[idx]? = some key)
    {s e range k : ℕ} (hk : k < keys.data.length) :
    labelsOf JournalKey.overwrittenRange
      (relabel (keys.data.set idx { key with overwritten := true }) s e range) k =
      if s ≤ k ∧ k < e then range else labelsOf JournalKey.overwrittenRange keys.data k := by
  rw [labelsOf_relabel (by rwa [List.length_set]), labelsOf_overwritten hget]

/-- A run of its own, behind the ranges there are. -/
theorem JournalKeys.Ok.overwritten_alone {keys : JournalKeys} (h : keys.Ok)
    (hget : keys.data[idx]? = some key) (hlive : key.overwritten = false)
    (hbefore : ∀ k, k + 1 = idx →
      marksOf JournalKey.mark keys.data k ≠ some (key.btreeId, key.level))
    (hbehind : marksOf JournalKey.mark keys.data (idx + 1) ≠ some (key.btreeId, key.level)) :
    JournalKeys.Ok ⟨relabel (keys.data.set idx { key with overwritten := true }) idx (idx + 1)
      (newTable keys.overwrites).length, newTable keys.overwrites ++ [(idx, idx + 1)]⟩ := by
  obtain ⟨hidx, -⟩ := List.getElem?_eq_some_iff.mp hget
  have hrun := IsRun.join (c := (key.btreeId, key.level)) (Nat.le_refl idx) (Nat.lt_succ_self idx)
    (fun k hs he => absurd hs (Nat.not_le.mpr he)) hbefore
    (fun k hs he => absurd he (Nat.not_lt.mpr hs)) hbehind
  refine h.overwrite hget hlive (sameKeys_relabel _ _ _ _) (h.runs.mark
    (mark_none_of_live hget hlive) hrun le_rfl (Nat.lt_succ_self idx)
    (q := (newTable keys.overwrites).length) ?_ ?_ ?_ ?_) ?_
  · exact (newTable_spec keys.overwrites).1
  · change (newTable keys.overwrites ++ [(idx, idx + 1)])[(newTable keys.overwrites).length]? = _
    rw [List.getElem?_append_right le_rfl, Nat.sub_self, Nat.zero_add, Nat.zero_add]
    rfl
  · intro k hs he
    rw [show k = idx by omega]
    exact (labelsOf_relabel_overwritten hget hidx).trans (if_pos ⟨le_rfl, Nat.lt_succ_self idx⟩)
  · intro k hout hk
    refine ⟨(labelsOf_relabel_overwritten hget (lt_length_of_mark hk)).trans (if_neg hout), ?_⟩
    obtain ⟨c, hc⟩ := Option.ne_none_iff_exists'.mp hk
    obtain ⟨-, a, b, hrow, -⟩ := h.runs k c hc
    have hrowlt := (List.getElem?_eq_some_iff.mp hrow).1
    have htable : newTable keys.overwrites = keys.overwrites := by
      refine if_neg fun hnil => ?_
      rw [hnil] at hrowlt
      exact Nat.not_lt_zero _ hrowlt
    change (newTable keys.overwrites ++ [(idx, idx + 1)])[_]? = _
    rw [htable, List.getElem?_append_left hrowlt]
  · change (newTable keys.overwrites ++ [(idx, idx + 1)]).length ≤ _
    rw [List.length_append, List.length_singleton]
    exact Nat.succ_le_succ (newTable_spec keys.overwrites).2

/-- The key joins the run beside it, whose range grows to `[s, e)`. -/
theorem JournalKeys.Ok.overwritten_grow {keys : JournalKeys} (h : keys.Ok)
    (hget : keys.data[idx]? = some key) (hlive : key.overwritten = false) {range s e s' e' : ℕ}
    (hrun : RangeRun keys (key.btreeId, key.level) range s' e')
    (hjoin : IsRun (Function.update (marksOf JournalKey.mark keys.data) idx
      (some (key.btreeId, key.level))) (key.btreeId, key.level) s e)
    (hs : s ≤ idx) (he : idx < e)
    (hcover : ∀ k, s ≤ k ∧ k < e ↔ k = idx ∨ s' ≤ k ∧ k < e') :
    JournalKeys.Ok ⟨relabel (keys.data.set idx { key with overwritten := true }) idx (idx + 1) range,
      keys.overwrites.set range (s, e)⟩ := by
  obtain ⟨hidx, -⟩ := List.getElem?_eq_some_iff.mp hget
  refine h.overwrite hget hlive (sameKeys_relabel _ _ _ _) (h.runs.mark
    (mark_none_of_live hget hlive) hjoin hs he hrun.ne_zero (hrun.set_row s e) ?_ ?_) ?_
  · intro k hsk hke
    by_cases hk : k = idx
    · subst hk
      exact (labelsOf_relabel_overwritten hget hidx).trans (if_pos ⟨le_rfl, Nat.lt_succ_self k⟩)
    · obtain ⟨hsk', hke'⟩ := ((hcover k).mp ⟨hsk, hke⟩).resolve_left hk
      refine (labelsOf_relabel_overwritten hget (hrun.lt_length hsk' hke')).trans
        ((if_neg (by omega)).trans ?_)
      exact hrun.labels k hsk' hke'
  · intro k hout hk
    have hne : k ≠ idx := fun heq => hout ((hcover k).mpr (.inl heq))
    have hout' : ¬(s' ≤ k ∧ k < e') := fun hin => hout ((hcover k).mpr (.inr hin))
    refine ⟨(labelsOf_relabel_overwritten hget (lt_length_of_mark hk)).trans
      (if_neg (by omega)), ?_⟩
    exact List.getElem?_set_ne (hrun.label_ne h hout' hk).symm
  · rw [List.length_set]
    omega

/-- The range before takes the one behind over. -/
theorem JournalKeys.Ok.overwritten_between {keys : JournalKeys} (h : keys.Ok)
    (hget : keys.data[idx]? = some key) (hlive : key.overwritten = false) {prev next s e : ℕ}
    (hprun : RangeRun keys (key.btreeId, key.level) prev s idx)
    (hnrun : RangeRun keys (key.btreeId, key.level) next (idx + 1) e) :
    JournalKeys.Ok ⟨relabel (relabel (keys.data.set idx { key with overwritten := true }) idx
      (idx + 1) prev) (idx + 1) e prev, keys.overwrites.set prev (s, e)⟩ := by
  obtain ⟨hidx, -⟩ := List.getElem?_eq_some_iff.mp hget
  have hfirst := hprun.run.lt
  have hlast := hnrun.run.lt
  have hrun := IsRun.join hfirst.le (Nat.lt_of_succ_lt hlast)
    (fun k hs he => hprun.run.marked k hs he) hprun.run.before
    (fun k hs he => hnrun.run.marked k hs he) hnrun.run.behind
  have hboth : ∀ k, k < keys.data.length → labelsOf JournalKey.overwrittenRange
      (relabel (relabel (keys.data.set idx { key with overwritten := true }) idx (idx + 1) prev)
        (idx + 1) e prev) k =
      if idx ≤ k ∧ k < e then prev else labelsOf JournalKey.overwrittenRange keys.data k := by
    intro k hk
    have hk' : k < (relabel (keys.data.set idx { key with overwritten := true }) idx (idx + 1)
        prev).length := by rwa [(sameKeys_relabel _ _ _ _).length_eq, List.length_set]
    rw [labelsOf_relabel hk', labelsOf_relabel_overwritten hget hk]
    split_ifs <;> first | rfl | omega
  refine h.overwrite hget hlive ((sameKeys_relabel _ _ _ _).trans (sameKeys_relabel _ _ _ _))
    (h.runs.mark (mark_none_of_live hget hlive) hrun hfirst.le (Nat.lt_of_succ_lt hlast)
      hprun.ne_zero (hprun.set_row s e) ?_ ?_) ?_
  · intro k hs he
    rcases Nat.lt_or_ge k idx with hk | hk
    · refine (hboth k (hprun.lt_length hs hk)).trans ((if_neg (by omega)).trans ?_)
      exact hprun.labels k hs hk
    · have hklt : k < keys.data.length := by
        by_cases hki : k = idx
        · rwa [hki]
        · exact hnrun.lt_length (by omega) he
      exact (hboth k hklt).trans (if_pos ⟨hk, he⟩)
  · intro k hout hk
    refine ⟨(hboth k (lt_length_of_mark hk)).trans (if_neg (by omega)), ?_⟩
    exact List.getElem?_set_ne (hprun.label_ne h (by omega) hk).symm
  · rw [List.length_set]
    omega

theorem JournalKeys.Ok.overwritten {keys : JournalKeys} (h : keys.Ok)
    (hget : keys.data[idx]? = some key) (hlive : key.overwritten = false) :
    (journalKeyOverwritten keys idx key).Ok := by
  have hnone := mark_none_of_live hget hlive
  rw [journalKeyOverwritten]
  dsimp only
  rcases prev_cases h hget hnone rfl with ⟨hprev, hbefore⟩ | ⟨prev, s, hprev, hprun⟩ <;>
    rcases next_cases h hget hnone rfl with ⟨hnext, hbehind⟩ | ⟨next, e, hnext, hnrun⟩
  · rw [hprev, hnext]
    exact h.overwritten_alone hget hlive hbefore hbehind
  · -- the range behind grows to the front
    rw [hprev, hnext]
    have hat : rangeAt keys.overwrites next = (idx + 1, e) := rangeAt_of_row hnrun.row
    have hlast := hnrun.run.lt
    have hjoin := IsRun.join (Nat.le_refl idx) (Nat.lt_of_succ_lt hlast)
      (fun k hs he => absurd hs (Nat.not_le.mpr he)) hbefore
      (fun k hs he => hnrun.run.marked k hs he) hnrun.run.behind
    change JournalKeys.Ok ⟨relabel _ idx (idx + 1) next, keys.overwrites.set next
      (min (rangeAt keys.overwrites next).1 idx, (rangeAt keys.overwrites next).2)⟩
    rw [hat, Nat.min_eq_right (Nat.le_succ idx)]
    exact h.overwritten_grow hget hlive hnrun hjoin le_rfl (Nat.lt_of_succ_lt hlast)
      fun k => by omega
  · -- the range before grows to the back
    rw [hprev, hnext]
    have hat : rangeAt keys.overwrites prev = (s, idx) := rangeAt_of_row hprun.row
    have hfirst := hprun.run.lt
    have hjoin := IsRun.join hfirst.le (Nat.lt_succ_self idx)
      (fun k hs he => hprun.run.marked k hs he) hprun.run.before
      (fun k hs he => absurd he (Nat.not_lt.mpr hs)) hbehind
    change JournalKeys.Ok ⟨relabel _ idx (idx + 1) prev, keys.overwrites.set prev
      ((rangeAt keys.overwrites prev).1, max (rangeAt keys.overwrites prev).2 (idx + 1))⟩
    rw [hat, Nat.max_eq_right (Nat.le_succ idx)]
    exact h.overwritten_grow hget hlive hprun hjoin hfirst.le (Nat.lt_succ_self idx)
      fun k => by omega
  · rw [hprev, hnext]
    have hpat : rangeAt keys.overwrites prev = (s, idx) := rangeAt_of_row hprun.row
    have hnat : rangeAt keys.overwrites next = (idx + 1, e) := rangeAt_of_row hnrun.row
    have hne : prev ≠ next := by
      rintro rfl
      rw [hpat] at hnat
      have hfst := congrArg Prod.fst hnat
      have hfirst := hprun.run.lt
      dsimp only at hfst
      omega
    have hkept : rangeAt (keys.overwrites.set prev (s, e)) next = (idx + 1, e) := by
      rw [rangeAt, List.getD_eq_getElem?_getD, List.getElem?_set_ne hne,
        ← List.getD_eq_getElem?_getD]
      exact hnat
    change JournalKeys.Ok ⟨relabel (relabel _ idx (idx + 1) prev)
      (rangeAt (keys.overwrites.set prev ((rangeAt keys.overwrites prev).1,
        (rangeAt keys.overwrites next).2)) next).1 (rangeAt keys.overwrites next).2 prev,
      keys.overwrites.set prev ((rangeAt keys.overwrites prev).1,
        (rangeAt keys.overwrites next).2)⟩
    rw [hpat, hnat, hkept]
    exact h.overwritten_between hget hlive hprun hnrun

end Overwrite

theorem JournalKeys.Ok.checkOrOverwrite {keys : JournalKeys} (h : keys.Ok) (btreeId level : Fin 256)
    (pos : Bpos) (check : Bool) :
    (bch2JournalKeyCheckOrOverwrite keys btreeId level pos check).Ok := by
  unfold bch2JournalKeyCheckOrOverwrite
  split
  · next idx _ =>
    cases hget : keys.data[idx]? with
    | none => exact h
    | some key =>
      dsimp only
      split_ifs with hskip
      · exact h
      · rw [Bool.or_eq_true, not_or, Bool.not_eq_true] at hskip
        exact h.overwritten hget hskip.1
  · exact h

theorem JournalKeys.ok_empty : JournalKeys.Ok {} :=
  ⟨List.Pairwise.nil, runsOk_nil _ _, Nat.zero_le _⟩

end Subvol

import Mathlib.Data.List.Pairwise
import Subvol.Lib.Forest
import Subvol.Snapshot.Table

/-!
# The tests for an ancestor agree

A table read from well-formed snapshot keys holds the parents of the keys, and the bitmap of an
entry holds its ancestors among the next 128 ids. The walk from parent to parent and the jumps
along the skip list followed by a look at the bitmap then both decide ancestry.

## Main definitions

* `keyParent`, `SnapshotKeysWf`: the forest of the keys.
* `TableOf`: a table that holds the entries of keys.

## Main results

* `bch2SnapshotsRead_tableOf`: the table that is read at startup.
* `snapshot_is_ancestor_agrees`: the two tests.
-/

namespace Subvol

open Lib

/-- The parent of an id in the keys, `0` for none. -/
def keyParent (keys : List SnapshotKey) (id : ℕ) : ℕ :=
  ((keys.find? fun k => k.id = id).map SnapshotKey.parent).getD 0

/-- Well-formed snapshot keys in descending order: a parent is `0` or a larger id that is present,
and the entries of the skip list are ancestors, none of them missing below a parent. -/
structure SnapshotKeysWf (keys : List SnapshotKey) : Prop where
  type : ∀ k ∈ keys, k.type = keyTypeSnapshot
  id_pos : ∀ k ∈ keys, 0 < k.id
  id_le : ∀ k ∈ keys, k.id ≤ u32Max
  descending : keys.Pairwise fun k k' => k'.id < k.id
  parent : ∀ k ∈ keys, k.parent = 0 ∨ k.id < k.parent ∧ ∃ k' ∈ keys, k'.id = k.parent
  skip : ∀ k ∈ keys, ∀ i, k.entry.skip i ≠ 0 → Ancestor (keyParent keys) k.parent (k.entry.skip i)
  skip_ne : ∀ k ∈ keys, ∀ i, k.parent ≠ 0 ↔ k.entry.skip i ≠ 0

namespace SnapshotKeysWf

variable {keys : List SnapshotKey}

theorem find_eq (h : SnapshotKeysWf keys) {k : SnapshotKey} (hk : k ∈ keys) :
    keys.find? (fun k' => k'.id = k.id) = some k := by
  obtain ⟨k', hk'⟩ : ∃ k', keys.find? (fun k' => k'.id = k.id) = some k' := by
    rw [← Option.isSome_iff_exists, List.find?_isSome]
    exact ⟨k, hk, by simp⟩
  have hid : k'.id = k.id := by simpa using List.find?_some hk'
  have hne : keys.Pairwise fun a b => a.id ≠ b.id := h.descending.imp fun hlt => hlt.ne'
  have hsymm : Std.Symm fun a b : SnapshotKey => a.id ≠ b.id := ⟨fun _ _ hab => hab.symm⟩
  by_cases heq : k' = k
  · rw [hk', heq]
  · exact absurd hid (hne.forall (List.mem_of_find?_eq_some hk') hk heq)

theorem keyParent_eq (h : SnapshotKeysWf keys) {k : SnapshotKey} (hk : k ∈ keys) :
    keyParent keys k.id = k.parent := by
  rw [keyParent, h.find_eq hk]
  rfl

theorem exists_key {x : ℕ} (hx : keyParent keys x ≠ 0) : ∃ k ∈ keys, k.id = x := by
  by_contra hnone
  rw [keyParent, List.find?_eq_none.mpr] at hx
  · exact hx rfl
  · intro k hk hid
    exact hnone ⟨k, hk, by simpa using hid⟩

theorem rising (h : SnapshotKeysWf keys) : Rising (keyParent keys) := by
  intro x
  by_cases hx : keyParent keys x = 0
  · exact .inl hx
  · obtain ⟨k, hk, rfl⟩ := exists_key hx
    rw [h.keyParent_eq hk] at hx ⊢
    exact .inr ((h.parent k hk).resolve_left hx).1

theorem keyParent_zero (h : SnapshotKeysWf keys) : keyParent keys 0 = 0 := by
  by_contra hne
  obtain ⟨k, hk, hid⟩ := exists_key hne
  exact absurd hid (h.id_pos k hk).ne'

theorem keyParent_le (h : SnapshotKeysWf keys) (x : ℕ) : keyParent keys x ≤ u32Max := by
  by_cases hx : keyParent keys x = 0
  · exact hx ▸ Nat.zero_le _
  · obtain ⟨k, hk, rfl⟩ := exists_key hx
    rw [h.keyParent_eq hk] at hx ⊢
    obtain ⟨-, k', hk', hid⟩ := (h.parent k hk).resolve_left hx
    exact hid ▸ h.id_le k' hk'

/-- Nothing is above no snapshot. -/
theorem not_ancestor_zero (h : SnapshotKeysWf keys) {a : ℕ} (ha : a ≠ 0) :
    ¬Ancestor (keyParent keys) 0 a := by
  intro hanc
  obtain ⟨hne, -⟩ := (ancestor_parent _ ha.symm).mp hanc
  exact hne h.keyParent_zero

end SnapshotKeysWf

/-! ### Tables of keys -/

/-- The bitmap of an entry: its ancestors among the next 128 ids. -/
def BitmapOf (parent : ℕ → ℕ) (id : ℕ) (bits : BitVec 128) : Prop :=
  ∀ i < isAncestorBitmap, bits.getLsbD i = true ↔ Ancestor parent id (id + 1 + i)

/-- The table holds the entries of the keys `done` of `keys` and nothing else. -/
structure TableOf (keys done : List SnapshotKey) (t : SnapshotTable) : Prop where
  nr : t.nr = t.s.length
  marked : ∀ k ∈ done, ∃ bits, snapshotT t k.id = some { k.entry with isAncestor := bits } ∧
    BitmapOf (keyParent keys) k.id bits
  unmarked : ∀ id ≤ u32Max, (∀ k ∈ done, k.id ≠ id) →
    snapshotT t id = none ∨ snapshotT t id = some {}

theorem TableOf.empty (keys : List SnapshotKey) : TableOf keys [] {} where
  nr := rfl
  marked := by simp
  unmarked := fun _ _ _ => .inl rfl

/-- The parent of an id whose key, if there is one, has been entered. -/
theorem TableOf.parent_eq {keys done : List SnapshotKey} {t : SnapshotTable}
    (hwf : SnapshotKeysWf keys) (h : TableOf keys done t) (hsub : ∀ k ∈ done, k ∈ keys) {id : ℕ}
    (hid : id ≤ u32Max) (hdone : ∀ k ∈ keys, k.id = id → k ∈ done) :
    t.parent id = keyParent keys id := by
  by_cases hk : ∃ k ∈ done, k.id = id
  · obtain ⟨k, hk, rfl⟩ := hk
    obtain ⟨bits, hbits, -⟩ := h.marked k hk
    rw [hwf.keyParent_eq (hsub k hk), SnapshotTable.parent, hbits]
    rfl
  · push Not at hk
    have hzero : keyParent keys id = 0 := by
      by_contra hne
      obtain ⟨k, hk', hid'⟩ := SnapshotKeysWf.exists_key hne
      exact hk k (hdone k hk' hid') hid'
    rw [hzero, SnapshotTable.parent]
    rcases h.unmarked id hid hk with hnone | hsome
    · rw [hnone]
      rfl
    · rw [hsome]
      rfl

/-! ### Entering one key -/

theorem getLsbD_or_bit {bits : BitVec 128} {o i : ℕ} (hi : i < isAncestorBitmap) :
    (bits ||| 1#128 <<< o).getLsbD i = true ↔ bits.getLsbD i = true ∨ i = o := by
  have hi' : i < 128 := hi
  rw [BitVec.getLsbD_or, Bool.or_eq_true, BitVec.getLsbD_shiftLeft, BitVec.getLsbD_one]
  refine or_congr_right ?_
  simp only [hi', decide_true, Bool.true_and, Bool.and_eq_true, Bool.not_eq_true',
    decide_eq_false_iff_not, decide_eq_true_eq]
  omega

/-- The loop over the ancestors marks those that are close. -/
theorem markAncestors_spec {keys : List SnapshotKey} (hwf : SnapshotKeysWf keys)
    {t : SnapshotTable} {id : ℕ}
    (ht : ∀ x, id < x → x ≤ u32Max → t.parent x = keyParent keys x) :
    ∀ {fuel p : ℕ} (bits : BitVec 128), 0 < fuel → (p = 0 ∨ id < p ∧ p ≤ u32Max) →
      (p ≠ 0 → isAncestorBitmap < fuel + (p - id - 1)) →
      ∃ bits', markAncestors t id fuel p bits = some bits' ∧
        ∀ i < isAncestorBitmap, bits'.getLsbD i = true ↔
          bits.getLsbD i = true ∨ p ≠ 0 ∧ Ancestor (keyParent keys) p (id + 1 + i) := by
  intro fuel
  induction fuel with
  | zero => exact fun _ h => absurd h (Nat.lt_irrefl 0)
  | succ fuel ih =>
    intro p bits _ hp hfuel
    rw [markAncestors]
    by_cases hzero : p = 0
    · exact ⟨bits, if_pos hzero, fun i _ => by simp [hzero]⟩
    obtain ⟨hlt, hle⟩ := hp.resolve_left hzero
    rw [if_neg hzero, if_neg (Nat.not_le.mpr hlt)]
    have hf := hfuel hzero
    by_cases hnear : p - id - 1 < isAncestorBitmap
    · have hpar := ht p hlt hle
      have hnext : keyParent keys p = 0 ∨ id < keyParent keys p ∧ keyParent keys p ≤ u32Max :=
        (hwf.rising p).imp_right fun h => ⟨hlt.trans h, hwf.keyParent_le p⟩
      have hfuel' : keyParent keys p ≠ 0 →
          isAncestorBitmap < fuel + (keyParent keys p - id - 1) := by
        intro hne
        have := (hwf.rising p).resolve_left hne
        omega
      obtain ⟨bits', hbits', hspec⟩ := ih (bits ||| 1#128 <<< (p - id - 1)) (by omega) hnext hfuel'
      refine ⟨bits', ?_, fun i hi => ?_⟩
      · rw [if_pos hnear, hpar, hbits']
      · rw [hspec i hi, getLsbD_or_bit hi, or_assoc]
        refine or_congr_right ?_
        by_cases hhere : p = id + 1 + i
        · have hi' : i = p - id - 1 := by omega
          refine iff_of_true (.inl hi') ⟨hzero, ?_⟩
          rw [hhere]
          exact .refl
        · rw [ancestor_parent _ hhere]
          have hne : i ≠ p - id - 1 := by omega
          simp [hne, hzero]
    · refine ⟨bits, by rw [if_neg hnear], fun i hi => ?_⟩
      have hfar : ¬Ancestor (keyParent keys) p (id + 1 + i) := by
        intro hanc
        have := hanc.le hwf.rising
        omega
      simp [hfar]

theorem length_grow {t : SnapshotTable} (hnr : t.nr = t.s.length) (idx : ℕ) :
    (t.grow idx).nr = (t.grow idx).s.length ∧ idx < (t.grow idx).nr := by
  rw [SnapshotTable.grow]
  split_ifs with hge
  · have hpow : idx + 1 ≤ 2 ^ Nat.clog 2 (idx + 1) := Nat.le_pow_clog (by decide) _
    simp only [List.length_append, List.length_replicate]
    omega
  · exact ⟨hnr, by omega⟩

/-- A grown table has the entries it had, and empty ones. -/
theorem snapshotT_grow {t : SnapshotTable} (hnr : t.nr = t.s.length) (idx id : ℕ) :
    snapshotT (t.grow idx) id = snapshotT t id ∨
      snapshotT t id = none ∧ snapshotT (t.grow idx) id = some {} := by
  rw [SnapshotTable.grow]
  split_ifs with hge
  · simp only [snapshotT]
    by_cases hold : u32Max - id < t.nr
    · left
      have hpow : idx + 1 ≤ 2 ^ Nat.clog 2 (idx + 1) := Nat.le_pow_clog (by decide) _
      rw [if_pos hold, if_pos (by omega), List.getElem?_append_left (by omega)]
    · by_cases hnew : u32Max - id < 2 ^ Nat.clog 2 (idx + 1)
      · right
        rw [if_neg hold, if_pos hnew, List.getElem?_append_right (by omega),
          List.getElem?_replicate, if_pos (by omega)]
        exact ⟨rfl, rfl⟩
      · left
        rw [if_neg hold, if_neg hnew]
  · exact .inl rfl

theorem snapshotT_set {t : SnapshotTable} (hnr : t.nr = t.s.length) {k x : ℕ} (e : SnapshotT)
    (hk : u32Max - k < t.nr) (hkmax : k ≤ u32Max) (hx : x ≤ u32Max) :
    snapshotT { t with s := t.s.set (u32Max - k) e } x =
      if x = k then some e else snapshotT t x := by
  simp only [snapshotT]
  by_cases hxk : x = k
  · subst hxk
    rw [if_pos hk, if_pos rfl, List.getElem?_set_self (by omega)]
  · rw [if_neg hxk, List.getElem?_set_ne (by omega)]

/-- Entering a key whose ancestors have been entered. -/
theorem TableOf.bch2MarkSnapshot {keys done : List SnapshotKey} {c : Snapshots} {k : SnapshotKey}
    (hwf : SnapshotKeysWf keys) (h : TableOf keys done c.table) (hsub : ∀ k ∈ done, k ∈ keys)
    (hk : k ∈ keys) (hnew : ∀ k' ∈ done, k'.id ≠ k.id)
    (habove : ∀ k' ∈ keys, k.id < k'.id → k' ∈ done) {fuel : ℕ} (hfuel : isAncestorBitmap < fuel) :
    ∃ table, TableOf keys (done ++ [k]) table ∧ bch2MarkSnapshot fuel c k =
      some ⟨table, c.needDeleteDeadSnapshots || k.flags.willDelete⟩ := by
  have hkmax := hwf.id_le k hk
  obtain ⟨hnr, hidx⟩ := length_grow h.nr (u32Max - k.id)
  -- the grown table still is the table of `done`
  have hgrown : TableOf keys done (c.table.grow (u32Max - k.id)) := by
    refine ⟨hnr, fun k' hk' => ?_, fun id hid hnone => ?_⟩
    · obtain ⟨bits, hbits, hspec⟩ := h.marked k' hk'
      refine ⟨bits, ?_, hspec⟩
      rcases snapshotT_grow h.nr (u32Max - k.id) k'.id with heq | ⟨hn, -⟩
      · rw [heq, hbits]
      · rw [hbits] at hn
        cases hn
    · rcases snapshotT_grow h.nr (u32Max - k.id) id with heq | ⟨-, hs⟩
      · rw [heq]
        exact h.unmarked id hid hnone
      · exact .inr hs
  have hparent : ∀ x, k.id < x → x ≤ u32Max →
      (c.table.grow (u32Max - k.id)).parent x = keyParent keys x := by
    intro x hx hxmax
    exact hgrown.parent_eq hwf hsub hxmax fun k' hk' hid => habove k' hk' (hid ▸ hx)
  have hstart : k.parent = 0 ∨ k.id < k.parent ∧ k.parent ≤ u32Max := by
    refine (hwf.parent k hk).imp_right ?_
    rintro ⟨hlt, k', hk', hid⟩
    exact ⟨hlt, hid ▸ hwf.id_le k' hk'⟩
  have hpos : 0 < fuel := by omega
  have henough : k.parent ≠ 0 → isAncestorBitmap < fuel + (k.parent - k.id - 1) := fun _ => by omega
  obtain ⟨bits, hbits, hspec⟩ := markAncestors_spec hwf hparent 0 hpos hstart henough
  generalize hgrow : c.table.grow (u32Max - k.id) = grown at hgrown hbits hnr hidx
  have hset := fun x => snapshotT_set hnr { k.entry with isAncestor := bits } hidx hkmax (x := x)
  refine ⟨⟨grown.nr, grown.s.set (u32Max - k.id) { k.entry with isAncestor := bits }⟩,
    ⟨?_, fun k' hk' => ?_, fun id hid hnone => ?_⟩, ?_⟩
  · simpa using hnr
  · rcases List.mem_append.mp hk' with hold | hlast
    · obtain ⟨bits', hbits', hspec'⟩ := hgrown.marked k' hold
      refine ⟨bits', ?_, hspec'⟩
      rw [hset k'.id (hwf.id_le k' (hsub k' hold)), if_neg (hnew k' hold), hbits']
    · obtain rfl := List.mem_singleton.mp hlast
      refine ⟨bits, ?_, fun i hi => ?_⟩
      · rw [hset k'.id hkmax, if_pos rfl]
      · have hstep := ancestor_parent (keyParent keys)
          (show k'.id ≠ k'.id + 1 + i by omega)
        rw [hspec i hi, hstep, hwf.keyParent_eq hk]
        simp
  · have hne : id ≠ k.id := fun heq => hnone k (by simp) heq.symm
    rw [hset id hid, if_neg hne]
    exact hgrown.unmarked id hid fun k' hk' => hnone k' (List.mem_append_left _ hk')
  · rw [Subvol.bch2MarkSnapshot, if_pos (hwf.type k hk), hgrow, hbits]
    rfl

/-- The table read from the keys behind those entered already. -/
theorem TableOf.bch2SnapshotsRead {keys : List SnapshotKey} (hwf : SnapshotKeysWf keys)
    {fuel : ℕ} (hfuel : isAncestorBitmap < fuel) {done rest : List SnapshotKey}
    (hsplit : keys = done ++ rest) {c : Snapshots} (h : TableOf keys done c.table) :
    ∃ c', bch2SnapshotsRead fuel c rest = some c' ∧ TableOf keys keys c'.table := by
  induction rest generalizing done c with
  | nil =>
    rw [List.append_nil] at hsplit
    exact ⟨c, rfl, by rwa [← hsplit] at h⟩
  | cons k rest ih =>
    have hk : k ∈ keys := by simp [hsplit]
    have hdesc := hwf.descending
    rw [hsplit] at hdesc
    obtain ⟨-, hrest, hcross⟩ := List.pairwise_append.mp hdesc
    have habove : ∀ k' ∈ keys, k.id < k'.id → k' ∈ done := by
      intro k' hk' hlt
      rw [hsplit] at hk'
      rcases List.mem_append.mp hk' with hd | hr
      · exact hd
      rcases List.mem_cons.mp hr with rfl | hr
      · exact absurd hlt (Nat.lt_irrefl _)
      · exact absurd hlt (Nat.lt_asymm (List.rel_of_pairwise_cons hrest hr))
    obtain ⟨table, htable, hmark⟩ := h.bch2MarkSnapshot hwf (fun k' hk' => by simp [hsplit, hk'])
      hk (fun k' hk' => (hcross k' hk' k (List.mem_cons_self ..)).ne') habove hfuel
    have hsplit' : keys = done ++ [k] ++ rest := by simp [hsplit]
    obtain ⟨c', hc', htable'⟩ := ih hsplit'
      (c := ⟨table, c.needDeleteDeadSnapshots || k.flags.willDelete⟩) htable
    refine ⟨c', ?_, htable'⟩
    rw [Subvol.bch2SnapshotsRead, List.foldlM_cons, if_pos (hwf.type k hk), hmark]
    exact hc'

/-- The table read at startup. -/
theorem tableOf_read {keys : List SnapshotKey} (hwf : SnapshotKeysWf keys) {c : Snapshots}
    {fuel : ℕ} (hfuel : isAncestorBitmap < fuel) (hc : bch2SnapshotsRead fuel {} keys = some c) :
    TableOf keys keys c.table := by
  obtain ⟨c', hc', htable⟩ :=
    (TableOf.empty keys).bch2SnapshotsRead hwf hfuel rfl (c := {})
  rw [hc] at hc'
  rw [Option.some.inj hc']
  exact htable

/-! ### The tests -/

section Tests

variable {keys : List SnapshotKey} {t : SnapshotTable}

theorem TableOf.parent (hwf : SnapshotKeysWf keys) (h : TableOf keys keys t) {id : ℕ}
    (hid : id ≤ u32Max) : t.parent id = keyParent keys id :=
  h.parent_eq hwf (fun _ hk => hk) hid fun _ hk _ => hk

/-- The walk from parent to parent. -/
theorem earlyLoop_spec (hwf : SnapshotKeysWf keys) (h : TableOf keys keys t) {a : ℕ} (ha : a ≠ 0) :
    ∀ {fuel id : ℕ}, 0 < fuel → id ≤ u32Max → (id ≠ 0 → a < fuel + id) →
      ∃ r, earlyLoop t a fuel id = some r ∧ (r = a ↔ Ancestor (keyParent keys) id a) := by
  intro fuel
  induction fuel with
  | zero => exact fun h => absurd h (Nat.lt_irrefl 0)
  | succ fuel ih =>
    intro id _ hid hfuel
    rw [earlyLoop]
    by_cases hgo : id ≠ 0 ∧ id < a
    · have hf := hfuel hgo.1
      have hnext : keyParent keys id ≠ 0 → a < fuel + keyParent keys id := by
        intro hne
        have := (hwf.rising id).resolve_left hne
        omega
      obtain ⟨r, hr, hiff⟩ := ih (by omega) (hwf.keyParent_le id) hnext
      refine ⟨r, by rw [if_pos hgo, h.parent hwf hid, hr], ?_⟩
      rw [hiff, ancestor_parent _ hgo.2.ne]
      refine ⟨fun hanc => ⟨fun hz => ?_, hanc⟩, fun hanc => hanc.2⟩
      rw [hz] at hanc
      exact hwf.not_ancestor_zero ha hanc
    · refine ⟨id, if_neg hgo, ⟨fun heq => heq ▸ .refl, fun hanc => ?_⟩⟩
      by_cases hz : id = 0
      · rw [hz] at hanc
        exact absurd hanc (hwf.not_ancestor_zero ha)
      · exact Nat.le_antisymm (hanc.le hwf.rising) (Nat.not_lt.mp fun hlt => hgo ⟨hz, hlt⟩)

/-- A jump along the skip list goes up and loses no ancestor. -/
theorem getAncestorBelow_spec (hwf : SnapshotKeysWf keys) (h : TableOf keys keys t) {a id : ℕ}
    (ha : a ≠ 0) (hid : id ≤ u32Max) (hlt : id < a) :
    (getAncestorBelow t id a = 0 ∨ id < getAncestorBelow t id a ∧
      getAncestorBelow t id a ≤ u32Max) ∧
    (Ancestor (keyParent keys) id a ↔ Ancestor (keyParent keys) (getAncestorBelow t id a) a) := by
  by_cases hk : ∃ k ∈ keys, k.id = id
  · obtain ⟨k, hk, rfl⟩ := hk
    obtain ⟨bits, hentry, -⟩ := h.marked k hk
    have hstep := ancestor_parent (keyParent keys) hlt.ne
    rw [hwf.keyParent_eq hk] at hstep
    by_cases hroot : k.parent = 0
    · -- a root has no skip list, and the first comparison takes its empty entry
      have hzero : k.entry.skip 2 = 0 := by
        by_contra hne
        exact (hwf.skip_ne k hk 2).mpr hne hroot
      have hbelow : getAncestorBelow t k.id a = 0 := by
        rw [getAncestorBelow, hentry]
        simp [hzero]
      rw [hbelow, hstep]
      simp [hroot, hwf.not_ancestor_zero ha]
    · have hup := ((hwf.parent k hk).resolve_left hroot).1
      have hskip : ∀ i, k.entry.skip i ≤ a →
          (k.id < k.entry.skip i ∧ k.entry.skip i ≤ u32Max) ∧
            (Ancestor (keyParent keys) k.id a ↔ Ancestor (keyParent keys) (k.entry.skip i) a) := by
        intro i hle
        have hanc := hwf.skip k hk i ((hwf.skip_ne k hk i).mp hroot)
        have hge := hanc.le hwf.rising
        refine ⟨⟨by omega, ?_⟩, ?_⟩
        · rcases Relation.ReflTransGen.cases_tail hanc with heq | ⟨y, -, -, hy⟩
          · rw [heq, ← hwf.keyParent_eq hk]
            exact hwf.keyParent_le _
          · exact hy ▸ hwf.keyParent_le y
        · rw [hstep, ancestor_jump hwf.rising hanc hle]
          simp [hroot]
      rw [getAncestorBelow, hentry]
      dsimp only
      split_ifs with h₂ h₁ h₀
      · exact ⟨.inr (hskip 2 h₂).1, (hskip 2 h₂).2⟩
      · exact ⟨.inr (hskip 1 h₁).1, (hskip 1 h₁).2⟩
      · exact ⟨.inr (hskip 0 h₀).1, (hskip 0 h₀).2⟩
      · refine ⟨.inr ⟨hup, ?_⟩, by rw [hstep]; simp [hroot, SnapshotKey.entry]⟩
        exact (hwf.keyParent_eq hk).symm.le.trans (hwf.keyParent_le _)
  · push Not at hk
    have hzero : getAncestorBelow t id a = 0 := by
      rw [getAncestorBelow]
      rcases h.unmarked id hid hk with hn | hs
      · rw [hn]
      · rw [hs]
        simp
    have hpar : keyParent keys id = 0 := by
      by_contra hne
      obtain ⟨k, hk', hid'⟩ := SnapshotKeysWf.exists_key hne
      exact hk k hk' hid'
    rw [hzero, ancestor_parent _ hlt.ne]
    simp [hpar, hwf.not_ancestor_zero ha]

/-- The jumps end within reach of the bitmap. -/
theorem skipLoop_spec (hwf : SnapshotKeysWf keys) (h : TableOf keys keys t) {a : ℕ} (ha : a ≠ 0) :
    ∀ {fuel id : ℕ}, 0 < fuel → id ≤ u32Max → (id ≠ 0 → a < fuel + id) →
      ∃ r, skipLoop t a fuel id = some r ∧ r ≤ u32Max ∧ (r = 0 ∨ a - isAncestorBitmap ≤ r) ∧
        (Ancestor (keyParent keys) id a ↔ Ancestor (keyParent keys) r a) := by
  intro fuel
  induction fuel with
  | zero => exact fun h => absurd h (Nat.lt_irrefl 0)
  | succ fuel ih =>
    intro id _ hid hfuel
    rw [skipLoop]
    by_cases hgo : id ≠ 0 ∧ id < a - isAncestorBitmap
    · obtain ⟨hup, hiff⟩ := getAncestorBelow_spec hwf h ha hid (by omega : id < a)
      have hf := hfuel hgo.1
      generalize getAncestorBelow t id a = next at hup hiff
      have hnext : next ≤ u32Max := by omega
      obtain ⟨r, hr, hmax, hnear, hiff'⟩ := ih (by omega) hnext (by omega)
      exact ⟨r, by rw [if_pos hgo, hr], hmax, hnear, hiff.trans hiff'⟩
    · exact ⟨id, if_neg hgo, hid, by omega, Iff.rfl⟩

/-- The bitmap decides ancestry within its reach. -/
theorem testAncestorBitmap_spec (h : TableOf keys keys t) {a id : ℕ} (hid : id ≤ u32Max)
    (hlt : id < a) (hnear : a - id - 1 < isAncestorBitmap) :
    testAncestorBitmap t id a = true ↔ Ancestor (keyParent keys) id a := by
  rw [testAncestorBitmap]
  by_cases hk : ∃ k ∈ keys, k.id = id
  · obtain ⟨k, hk, rfl⟩ := hk
    obtain ⟨bits, hentry, hbits⟩ := h.marked k hk
    rw [hentry]
    refine (hbits _ hnear).trans ?_
    rw [show k.id + 1 + (a - k.id - 1) = a by omega]
  · push Not at hk
    have hpar : keyParent keys id = 0 := by
      by_contra hne
      obtain ⟨k, hk', hid'⟩ := SnapshotKeysWf.exists_key hne
      exact hk k hk' hid'
    rw [ancestor_parent _ hlt.ne]
    rcases h.unmarked id hid hk with hn | hs
    · rw [hn]
      simp [hpar]
    · rw [hs]
      simp [hpar]

/-- The walk decides ancestry. -/
theorem isAncestorEarly_spec (hwf : SnapshotKeysWf keys) (h : TableOf keys keys t) {x a fuel : ℕ}
    (hx : x ≤ u32Max) (ha : a ≠ 0) (hfuel : a < fuel) :
    ∃ r, bch2SnapshotIsAncestorEarly fuel t x a = some r ∧
      (r = true ↔ Ancestor (keyParent keys) x a) := by
  have hpos : 0 < fuel := by omega
  have henough : x ≠ 0 → a < fuel + x := fun _ => by omega
  obtain ⟨r, hr, hiff⟩ := earlyLoop_spec hwf h ha hpos hx henough
  refine ⟨decide (r = a), ?_, by rw [decide_eq_true_eq, hiff]⟩
  rw [bch2SnapshotIsAncestorEarly, hr]
  rfl

theorem skipToBitmap_spec (hwf : SnapshotKeysWf keys) (h : TableOf keys keys t) {x a fuel : ℕ}
    (hx : x ≤ u32Max) (ha : a ≠ 0) (hfuel : a < fuel) :
    ∃ y, skipToBitmap fuel t x a = some y ∧ y ≤ u32Max ∧ (y = 0 ∨ a - isAncestorBitmap ≤ y) ∧
      (Ancestor (keyParent keys) x a ↔ Ancestor (keyParent keys) y a) := by
  rw [skipToBitmap]
  have hpos : 0 < fuel := by omega
  have henough : x ≠ 0 → a < fuel + x := fun _ => by omega
  split_ifs with hge
  · exact skipLoop_spec hwf h ha hpos hx henough
  · exact ⟨x, rfl, hx, by omega, Iff.rfl⟩

/-- The jumps and the bitmap decide ancestry. -/
theorem isAncestor_spec (hwf : SnapshotKeysWf keys) (h : TableOf keys keys t) {x a fuel : ℕ}
    (hx : x ≤ u32Max) (hx₀ : x ≠ 0) (ha : a ≠ 0) (hfuel : a < fuel) :
    ∃ r, bch2SnapshotIsAncestor fuel t x a = some r ∧
      (r = true ↔ Ancestor (keyParent keys) x a) := by
  rw [bch2SnapshotIsAncestor, if_neg (by simp [hx₀, ha])]
  by_cases hsame : x = a
  · exact ⟨true, if_pos hsame, iff_of_true rfl (hsame ▸ .refl)⟩
  obtain ⟨y, hy, hymax, hnear, hiff⟩ := skipToBitmap_spec hwf h hx ha hfuel
  rw [if_neg hsame, snapshotIsAncestor, hy, Option.map_some, hiff]
  refine ⟨_, rfl, ?_⟩
  split_ifs with hgo
  · exact testAncestorBitmap_spec h hymax hgo.2 (by omega)
  · rw [decide_eq_true_eq]
    refine ⟨fun heq => heq ▸ .refl, fun hanc => ?_⟩
    by_cases hz : y = 0
    · rw [hz] at hanc
      exact absurd hanc (hwf.not_ancestor_zero ha)
    · exact Nat.le_antisymm (hanc.le hwf.rising) (Nat.not_lt.mp fun hlt => hgo ⟨hz, hlt⟩)

end Tests

/-- In a table read from well-formed snapshot keys the test by skip list and bitmap answers as the
walk from parent to parent does, and both say whether the one snapshot is an ancestor of the
other. -/
theorem snapshot_is_ancestor_agrees {keys : List SnapshotKey} (hwf : SnapshotKeysWf keys)
    (id ancestor : Fin (2 ^ 32)) (hid : id ≠ 0) (hanc : ancestor ≠ 0) {fuel : ℕ}
    (hfuel : 2 ^ 32 ≤ fuel) :
    ∃ c r, bch2SnapshotsRead fuel {} keys = some c ∧
      bch2SnapshotIsAncestor fuel c.table id ancestor = some r ∧
      bch2SnapshotIsAncestorEarly fuel c.table id ancestor = some r ∧
      (r = true ↔ Ancestor (keyParent keys) id ancestor) := by
  have hbig : isAncestorBitmap < fuel := lt_of_lt_of_le (by decide) hfuel
  have hmax : (id : ℕ) ≤ u32Max := Nat.le_sub_one_of_lt id.isLt
  have hid' : (id : ℕ) ≠ 0 := fun h => hid (Fin.ext h)
  have hanc' : (ancestor : ℕ) ≠ 0 := fun h => hanc (Fin.ext h)
  have hfuel' : (ancestor : ℕ) < fuel := lt_of_lt_of_le ancestor.isLt hfuel
  obtain ⟨c, hread, htable⟩ := (TableOf.empty keys).bch2SnapshotsRead hwf hbig rfl (c := {})
  obtain ⟨r, hr, hiff⟩ := isAncestor_spec hwf htable hmax hid' hanc' hfuel'
  obtain ⟨r', hr', hiff'⟩ := isAncestorEarly_spec hwf htable hmax hanc' hfuel'
  obtain rfl : r = r' := Bool.eq_iff_iff.mpr (hiff.trans hiff'.symm)
  exact ⟨c, r, hread, hr, hr', hiff⟩

/-- A snapshot and its child. -/
def twoSnapshots : List SnapshotKey :=
  [{ id := u32Max, parent := 0 },
    { id := u32Max - 1, parent := u32Max, depth := 1, skip := fun _ => u32Max }]

theorem twoSnapshots_wf : SnapshotKeysWf twoSnapshots where
  type := by simp [twoSnapshots]
  id_pos := by simp [twoSnapshots, u32Max]
  id_le := by simp [twoSnapshots, u32Max]
  descending := by simp [twoSnapshots, u32Max]
  parent := by simp [twoSnapshots, u32Max]
  skip := by
    have hself : Ancestor (keyParent twoSnapshots) u32Max u32Max := .refl
    simpa [twoSnapshots, SnapshotKey.entry, snapshotDepthOffset] using fun _ => hself
  skip_ne := by simp [twoSnapshots, SnapshotKey.entry, snapshotDepthOffset]

theorem snapshot_is_ancestor_agrees_two : ∃ c r,
    bch2SnapshotsRead (2 ^ 32) {} twoSnapshots = some c ∧
      bch2SnapshotIsAncestor (2 ^ 32) c.table (u32Max - 1) u32Max = some r ∧
      bch2SnapshotIsAncestorEarly (2 ^ 32) c.table (u32Max - 1) u32Max = some r ∧
      (r = true ↔ Ancestor (keyParent twoSnapshots) (u32Max - 1) u32Max) :=
  snapshot_is_ancestor_agrees twoSnapshots_wf ⟨u32Max - 1, by decide⟩ ⟨u32Max, by decide⟩
    (by decide) (by decide) le_rfl

end Subvol

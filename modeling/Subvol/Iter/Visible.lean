import Subvol.Iter.Scan
import Subvol.Snapshot.Ancestor

/-!
# What a snapshot sees

At every slot a snapshot sees the key of its nearest ancestor that has one there. Along the keys of
a tree this is the first key of the slot whose snapshot is an ancestor, since ids rise from a
snapshot to its parent.

## Main definitions

* `VisibleAt`: the key that a snapshot sees at a slot.
* `VisibleRange`: the keys other than whiteouts that it sees in a range, in order.
* `Ahead`: a position that no key the snapshot could see of its slot comes before.

## Main results

* `Btree.FirstFrom.visibleAt`: the first key from such a position on.
* `VisibleAt.unique`.
-/

namespace Subvol

open Lib

/-- The key that snapshot `s` sees at a slot: the live key there of its nearest ancestor, the
snapshot itself being the nearest of all. -/
structure VisibleAt (parent : ℕ → ℕ) (t : Btree) (s : Fin (2 ^ 32)) (k : Bkey) : Prop where
  live : t.Live k
  ancestor : Ancestor parent s k.p.snapshot
  nearest : ∀ k', t.Live k' → k'.p.slot = k.p.slot → Ancestor parent s k'.p.snapshot →
    Ancestor parent k.p.snapshot k'.p.snapshot

/-- The keys that a snapshot sees from one slot to another, in their order and without whiteouts. -/
structure VisibleRange (parent : ℕ → ℕ) (t : Btree) (s : Fin (2 ^ 32)) (start stop : Bpos)
    (ks : List Bkey) : Prop where
  sorted : ks.Pairwise fun k k' => k.p.slot < k'.p.slot
  mem : ∀ k, k ∈ ks ↔ VisibleAt parent t s k ∧ k.whiteout = false ∧
    start.slot ≤ k.p.slot ∧ k.p.slot ≤ stop.slot

/-- No key that the snapshot could see at the slot of a position lies before the position. -/
def Ahead (parent : ℕ → ℕ) (t : Btree) (s : Fin (2 ^ 32)) (p : Bpos) : Prop :=
  ∀ k, t.Live k → Ancestor parent s k.p.snapshot → k.p.slot = p.slot → p ≤ k.p

section Visible

variable {parent : ℕ → ℕ} {t : Btree} {s : Fin (2 ^ 32)}

/-- A key seen comes before the other keys of its slot that could be. -/
theorem VisibleAt.le (hup : Rising parent) {k k' : Bkey} (h : VisibleAt parent t s k)
    (hk' : t.Live k') (hslot : k'.p.slot = k.p.slot) (hanc : Ancestor parent s k'.p.snapshot) :
    k.p ≤ k'.p :=
  Bpos.le_iff_slot.mpr (.inr ⟨hslot.symm, (h.nearest k' hk' hslot hanc).le hup⟩)

theorem VisibleAt.unique (hv : t.Valid) (hup : Rising parent) {k k' : Bkey}
    (h : VisibleAt parent t s k) (h' : VisibleAt parent t s k') (hslot : k.p.slot = k'.p.slot) :
    k = k' :=
  hv.live_eq h.live h'.live
    (le_antisymm (h.le hup h'.live hslot.symm h'.ancestor) (h'.le hup h.live hslot h.ancestor))

/-- A position of the snapshot itself, or of a smaller id, comes before all keys it could see. -/
theorem ahead_of_le (hup : Rising parent) {p : Bpos} (hp : p.snapshot ≤ s) :
    Ahead parent t s p := by
  intro k _ hanc hslot
  exact Bpos.le_iff_slot.mpr (.inr ⟨hslot.symm, hp.trans (hanc.le hup)⟩)

theorem Ahead.le {p : Bpos} (h : Ahead parent t s p) {k : Bkey} (hk : t.Live k)
    (hanc : Ancestor parent s k.p.snapshot) (hslot : p.slot ≤ k.p.slot) : p ≤ k.p := by
  rcases hslot.lt_or_eq with hlt | heq
  · exact Bpos.le_iff_slot.mpr (.inl hlt)
  · exact h k hk hanc heq.symm

variable {p : Bpos} {k : Bkey}

/-- A key of the slot of a first key, or of a later one, does not come before it. -/
theorem Btree.FirstFrom.le_of_slot (hk : t.FirstFrom p k) (hp : Ahead parent t s p) {k' : Bkey}
    (hk' : t.Live k') (hanc : Ancestor parent s k'.p.snapshot) (hslot : p.slot ≤ k'.p.slot) :
    k.p ≤ k'.p :=
  hk.first k' hk' (hp.le hk' hanc hslot)

/-- The first key from a position on is seen if its snapshot is an ancestor. -/
theorem Btree.FirstFrom.visibleAt (hup : Rising parent) (hk : t.FirstFrom p k)
    (hp : Ahead parent t s p) (hanc : Ancestor parent s k.p.snapshot) :
    VisibleAt parent t s k where
  live := hk.live
  ancestor := hanc
  nearest := by
    intro k' hk' hslot hanc'
    have hle := hk.le_of_slot hp hk' hanc' ((Bpos.slot_mono hk.le).trans hslot.ge)
    refine (ancestor_jump hup hanc ?_).mp hanc'
    rcases Bpos.le_iff_slot.mp hle with hlt | ⟨-, hle⟩
    · exact absurd hslot hlt.ne'
    · exact hle

/-- Otherwise the position behind it still comes before all keys that could be seen. -/
theorem Btree.FirstFrom.ahead_succ (hk : t.FirstFrom p k) (hp : Ahead parent t s p)
    (hanc : ¬Ancestor parent s k.p.snapshot) {q : Bpos} (hq : q.toNat = k.p.toNat + 1) :
    Ahead parent t s q ∧ ∀ k', VisibleAt parent t s k' → p.slot ≤ k'.p.slot →
      q.slot ≤ k'.p.slot := by
  have hbehind : ∀ k', t.Live k' → Ancestor parent s k'.p.snapshot → p.slot ≤ k'.p.slot →
      q ≤ k'.p := by
    intro k' hk' hanc' hslot
    have hne : k.p ≠ k'.p := fun heq => hanc (heq ▸ hanc')
    have hlt : k.p < k'.p := lt_of_le_of_ne (hk.le_of_slot hp hk' hanc' hslot) hne
    rw [Bpos.lt_iff_toNat] at hlt
    exact Bpos.le_iff_toNat.mpr (by omega)
  have hslot : p.slot ≤ q.slot := by
    refine (Bpos.slot_mono hk.le).trans (Bpos.slot_mono (Bpos.le_iff_toNat.mpr ?_))
    omega
  refine ⟨fun k' hk' hanc' heq => hbehind k' hk' hanc' (hslot.trans heq.ge), fun k' hk' hle => ?_⟩
  exact Bpos.slot_mono (hbehind k' hk'.live hk'.ancestor hle)

/-- The keys seen in a range are one list. -/
theorem VisibleRange.unique {start stop : Bpos} {ks ks' : List Bkey}
    (h : VisibleRange parent t s start stop ks) (h' : VisibleRange parent t s start stop ks') :
    ks = ks' := by
  have hnodup : ∀ {l : List Bkey}, l.Pairwise (fun k k' => k.p.slot < k'.p.slot) → l.Nodup :=
    fun hl => hl.imp fun hlt heq => hlt.ne (congrArg (fun k => Bpos.slot (Bkey.p k)) heq)
  have hperm : ks.Perm ks' := by
    refine (List.perm_ext_iff_of_nodup (hnodup h.sorted) (hnodup h'.sorted)).mpr fun k => ?_
    rw [h.mem, h'.mem]
  exact hperm.eq_of_pairwise (fun k k' _ _ hlt hgt => absurd hlt hgt.not_gt) h.sorted h'.sorted

end Visible

end Subvol

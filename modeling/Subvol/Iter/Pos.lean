import Mathlib.Order.Cover
import Subvol.Btree.Key

/-!
# Steps between positions

Model of the successors and predecessors of positions in `bkey.rs`. A position is a place of the
snapshots, its slot, with a snapshot in it, and some comparisons look at the slot alone.

## Main definitions

* `Bpos.slot`, `bkeyLt`, `bkeyEq`.
* `bposSuccessor`, `bposPredecessor`, `bposNosnapSuccessor`, `bposNosnapPredecessor`; `none` is a
  failed assertion.
* `bkeyStartPos`.
-/

namespace Subvol

/-- `POS_MIN`. -/
def posMin : Bpos := ⟨0, 0, 0⟩

/-- `POS_MAX`. -/
def posMax : Bpos := ⟨Fin.last _, Fin.last _, 0⟩

/-- `SPOS_MAX`. -/
def sposMax : Bpos := ⟨Fin.last _, Fin.last _, Fin.last _⟩

namespace Bpos

/-- The place of inode and offset in their order. -/
def slot (p : Bpos) : ℕ := p.inode * 2 ^ 64 + p.offset

/-- `bpos_with_snapshot`. -/
def withSnapshot (p : Bpos) (s : Fin (2 ^ 32)) : Bpos := { p with snapshot := s }

@[simp] theorem withSnapshot_slot (p : Bpos) (s : Fin (2 ^ 32)) : (p.withSnapshot s).slot = p.slot :=
  rfl

@[simp] theorem withSnapshot_snapshot (p : Bpos) (s : Fin (2 ^ 32)) :
    (p.withSnapshot s).snapshot = s := rfl

theorem toNat_eq (p : Bpos) : p.toNat = p.slot * 2 ^ 32 + p.snapshot := rfl

theorem slot_le (p : Bpos) : p.slot ≤ 2 ^ 128 - 1 := by
  have := p.inode.isLt
  have := p.offset.isLt
  simp only [slot]
  omega

theorem toNat_le (p : Bpos) : p.toNat ≤ 2 ^ 160 - 1 := by
  have := p.slot_le
  have := p.snapshot.isLt
  rw [toNat_eq]
  omega

/-- Positions are compared by slot, then by snapshot. -/
theorem lt_iff_slot {l r : Bpos} :
    l < r ↔ l.slot < r.slot ∨ l.slot = r.slot ∧ l.snapshot < r.snapshot := by
  have := l.snapshot.isLt
  have := r.snapshot.isLt
  rw [lt_iff_toNat, toNat_eq, toNat_eq, Fin.lt_def]
  omega

theorem le_iff_slot {l r : Bpos} :
    l ≤ r ↔ l.slot < r.slot ∨ l.slot = r.slot ∧ l.snapshot ≤ r.snapshot := by
  have := l.snapshot.isLt
  have := r.snapshot.isLt
  rw [le_iff_toNat, toNat_eq, toNat_eq, Fin.le_def]
  omega

theorem slot_mono {l r : Bpos} (h : l ≤ r) : l.slot ≤ r.slot := by
  rcases le_iff_slot.mp h with h | h
  · exact h.le
  · exact h.1.le

theorem slot_sposMax : sposMax.slot = 2 ^ 128 - 1 := by decide +kernel

theorem toNat_sposMax : sposMax.toNat = 2 ^ 160 - 1 := by decide +kernel

theorem le_sposMax (p : Bpos) : p ≤ sposMax := by
  rw [le_iff_toNat, toNat_sposMax]
  exact p.toNat_le

theorem posMin_le (p : Bpos) : posMin ≤ p := Nat.zero_le p.toNat

theorem ext_slot {l r : Bpos} (hslot : l.slot = r.slot) (hsnap : l.snapshot = r.snapshot) :
    l = r := by
  refine toNat_injective ?_
  rw [toNat_eq, toNat_eq, hslot, hsnap]

end Bpos

/-- `bkey_eq`. -/
def bkeyEq (l r : Bpos) : Prop := l.inode = r.inode ∧ l.offset = r.offset

/-- `bkey_lt`; `bkey_ge` is its negation. -/
def bkeyLt (l r : Bpos) : Prop :=
  if l.inode ≠ r.inode then l.inode < r.inode else l.offset < r.offset

instance (l r : Bpos) : Decidable (bkeyEq l r) := inferInstanceAs (Decidable (_ ∧ _))

instance (l r : Bpos) : Decidable (bkeyLt l r) := by
  unfold bkeyLt
  infer_instance

theorem bkeyEq_iff {l r : Bpos} : bkeyEq l r ↔ l.slot = r.slot := by
  obtain ⟨⟨i, hi⟩, ⟨o, ho⟩, s⟩ := l
  obtain ⟨⟨i', hi'⟩, ⟨o', ho'⟩, s'⟩ := r
  simp only [bkeyEq, Bpos.slot, Fin.mk.injEq]
  omega

theorem bkeyLt_iff {l r : Bpos} : bkeyLt l r ↔ l.slot < r.slot := by
  obtain ⟨⟨i, hi⟩, ⟨o, ho⟩, s⟩ := l
  obtain ⟨⟨i', hi'⟩, ⟨o', ho'⟩, s'⟩ := r
  simp only [bkeyLt, Bpos.slot, ne_eq, Fin.mk.injEq, Fin.mk_lt_mk]
  split_ifs <;> omega

/-! ### Successors and predecessors -/

/-- `bpos_nosnap_successor`. -/
def bposNosnapSuccessor (p : Bpos) : Option Bpos :=
  if h : p.offset.val + 1 < 2 ^ 64 then some ⟨p.inode, ⟨p.offset + 1, h⟩, 0⟩
  else if h : p.inode.val + 1 < 2 ^ 64 then some ⟨⟨p.inode + 1, h⟩, 0, 0⟩
  else none

/-- `bpos_successor`. -/
def bposSuccessor (p : Bpos) : Option Bpos :=
  if h : p.snapshot.val + 1 < 2 ^ 32 then some { p with snapshot := ⟨p.snapshot + 1, h⟩ }
  else bposNosnapSuccessor p

/-- `bpos_nosnap_predecessor`. -/
def bposNosnapPredecessor (p : Bpos) : Option Bpos :=
  if p.offset.val ≠ 0 then
    some ⟨p.inode, ⟨p.offset - 1, lt_of_le_of_lt (Nat.sub_le _ _) p.offset.isLt⟩, 0⟩
  else if p.inode.val ≠ 0 then
    some ⟨⟨p.inode - 1, lt_of_le_of_lt (Nat.sub_le _ _) p.inode.isLt⟩, Fin.last _, 0⟩
  else none

/-- `bpos_predecessor`. -/
def bposPredecessor (p : Bpos) : Option Bpos :=
  if p.snapshot.val ≠ 0 then
    some { p with snapshot := ⟨p.snapshot - 1, lt_of_le_of_lt (Nat.sub_le _ _) p.snapshot.isLt⟩ }
  else (bposNosnapPredecessor p).map fun q => q.withSnapshot (Fin.last _)

theorem bposNosnapSuccessor_eq_some {p : Bpos} (h : p.slot < 2 ^ 128 - 1) :
    ∃ q, bposNosnapSuccessor p = some q ∧ q.slot = p.slot + 1 ∧ q.snapshot = 0 := by
  have hi := p.inode.isLt
  have ho := p.offset.isLt
  simp only [Bpos.slot] at h
  rw [bposNosnapSuccessor]
  split_ifs with hoff hin
  · exact ⟨_, rfl, by simp only [Bpos.slot]; omega, rfl⟩
  · exact ⟨_, rfl, by simp only [Bpos.slot, Fin.val_zero]; omega, rfl⟩
  · omega

theorem bposNosnapSuccessor_eq_none {p : Bpos} (h : p.slot = sposMax.slot) :
    bposNosnapSuccessor p = none := by
  have hi := p.inode.isLt
  have ho := p.offset.isLt
  rw [Bpos.slot_sposMax, Bpos.slot] at h
  rw [bposNosnapSuccessor, dif_neg (by omega), dif_neg (by omega)]

theorem bposSuccessor_sposMax : bposSuccessor sposMax = none := by
  rw [bposSuccessor, dif_neg (by decide)]
  exact bposNosnapSuccessor_eq_none rfl

theorem bposSuccessor_eq_some {p : Bpos} (h : p ≠ sposMax) :
    ∃ q, bposSuccessor p = some q ∧ q.toNat = p.toNat + 1 := by
  have hs := p.snapshot.isLt
  rw [bposSuccessor]
  split_ifs with hsnap
  · exact ⟨_, rfl, by simp only [Bpos.toNat]; omega⟩
  · have hslot : p.slot < 2 ^ 128 - 1 := by
      have hle := p.slot_le
      refine lt_of_le_of_ne hle fun heq => h (Bpos.toNat_injective ?_)
      rw [Bpos.toNat_sposMax, Bpos.toNat_eq]
      omega
    obtain ⟨q, hq, hqs, hqn⟩ := bposNosnapSuccessor_eq_some hslot
    refine ⟨q, hq, ?_⟩
    rw [Bpos.toNat_eq, Bpos.toNat_eq, hqs, hqn, Fin.val_zero]
    omega

theorem bposSuccessor_eq_some_iff {p q : Bpos} : bposSuccessor p = some q ↔ p ⋖ q := by
  by_cases hmax : p = sposMax
  · rw [hmax, bposSuccessor_sposMax]
    refine iff_of_false (by simp) fun hcov => ?_
    exact absurd (Bpos.le_sposMax q) (not_le.mpr hcov.lt)
  · obtain ⟨s, hs, hnat⟩ := bposSuccessor_eq_some hmax
    have hcov : p ⋖ s := by
      refine ⟨Bpos.lt_iff_toNat.mpr (by omega), fun r hpr hrs => ?_⟩
      have h₁ := Bpos.lt_iff_toNat.mp hpr
      have h₂ := Bpos.lt_iff_toNat.mp hrs
      omega
    rw [hs, Option.some.injEq]
    exact ⟨fun heq => heq ▸ hcov, fun hcov' => hcov.unique_right hcov'⟩

theorem bposNosnapPredecessor_eq_some {p : Bpos} (h : p.slot ≠ 0) :
    ∃ q, bposNosnapPredecessor p = some q ∧ q.slot + 1 = p.slot ∧ q.snapshot = 0 := by
  have hi := p.inode.isLt
  have ho := p.offset.isLt
  simp only [Bpos.slot] at h
  rw [bposNosnapPredecessor]
  split_ifs with hoff hin
  · exact ⟨_, rfl, by simp only [Bpos.slot]; omega, rfl⟩
  · exact ⟨_, rfl, by simp only [Bpos.slot, Fin.val_last]; omega, rfl⟩
  · omega

theorem bposPredecessor_eq_some {p : Bpos} (h : p ≠ posMin) :
    ∃ q, bposPredecessor p = some q ∧ q.toNat + 1 = p.toNat := by
  have hs := p.snapshot.isLt
  rw [bposPredecessor]
  split_ifs with hsnap
  · exact ⟨_, rfl, by simp only [Bpos.toNat]; omega⟩
  · have hslot : p.slot ≠ 0 := by
      refine fun heq => h (Bpos.toNat_injective ?_)
      rw [Bpos.toNat_eq, heq, show posMin.toNat = 0 from rfl]
      omega
    obtain ⟨q, hq, hqs, hqn⟩ := bposNosnapPredecessor_eq_some hslot
    refine ⟨_, by rw [hq]; rfl, ?_⟩
    rw [Bpos.toNat_eq, Bpos.toNat_eq, Bpos.withSnapshot_slot, Bpos.withSnapshot_snapshot,
      Fin.val_last]
    omega

/-- `bkey_start_pos`. -/
def bkeyStartPos (k : Bkey) : Bpos :=
  { k.p with offset := k.p.offset - Fin.ofNat (2 ^ 64) k.size }

end Subvol

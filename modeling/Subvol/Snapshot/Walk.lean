import Mathlib.Data.List.Perm.Subperm
import Mathlib.Data.Fin.Basic
import Subvol.Lib.Preorder
import Subvol.Snapshot.Table

/-!
# The walk over a snapshot tree

Model of `__bch2_snapshot_tree_next`, which finds the next snapshot of a tree from the parents and
the two child slots of the entries alone, and of the loop that calls it from the root until it
returns 0. In a well-formed tree the loop meets the snapshots in pre-order, each with its depth.

## Main definitions

* `bch2SnapshotTreeNext`, `snapshotTreeWalk`.
* `SnapshotTreeWf`: the child slots and the parents are one tree.

## Main results

* `Visits.preorder`: the snapshots below one are met in pre-order.
* `snapshot_tree_walk_preorder`: the whole walk.
-/

namespace Subvol

open Lib

/-- A child slot in the table, `0` for none. -/
def SnapshotTable.child (t : SnapshotTable) (id : ℕ) (i : Fin 2) : ℕ :=
  ((snapshotT t id).map fun s => s.children i).getD 0

/-- The loop of `__bch2_snapshot_tree_next`: up to the first ancestor that has a next sibling. -/
def snapshotTreeClimb (t : SnapshotTable) : ℕ → ℕ → ℕ → Option (ℕ × ℕ)
  | 0, _, _ => none
  | fuel + 1, id, depth =>
    let parent := t.parent id
    if parent = 0 then some (0, depth)
    else if depth = 0 then none
    else
      let n := t.child parent 1
      if n ≠ 0 ∧ n ≠ id then some (n, depth - 1 + 1)
      else snapshotTreeClimb t fuel parent (depth - 1)

/-- `__bch2_snapshot_tree_next`: the next snapshot and its depth. -/
def bch2SnapshotTreeNext (fuel : ℕ) (t : SnapshotTable) (id depth : ℕ) : Option (ℕ × ℕ) :=
  let n := t.child id 0
  if n ≠ 0 then if depth < u32Max then some (n, depth + 1) else none
  else snapshotTreeClimb t fuel id depth

/-- The snapshots met by calling `__bch2_snapshot_tree_next` again and again, from `id` on until
it returns 0, with the depth at each. -/
def snapshotTreeWalk (t : SnapshotTable) : ℕ → ℕ → ℕ → Option (List (ℕ × ℕ))
  | 0, _, _ => none
  | fuel + 1, id, depth =>
    if id = 0 then some []
    else do
      let next ← bch2SnapshotTreeNext (2 ^ 32) t id depth
      let rest ← snapshotTreeWalk t fuel next.1 next.2
      some ((id, depth) :: rest)

/-! ### Well-formed trees -/

/-- The ids a snapshot can have. -/
def snapshotIds : Set ℕ := { id | id ≠ 0 ∧ id ≤ u32Max }

/-- The snapshot `id` is `depth` steps below `top`. -/
abbrev SnapshotTable.Below (t : SnapshotTable) (top id depth : ℕ) : Prop :=
  DepthBelow snapshotIds t.parent top id depth

/-- A well-formed tree: the child slots of its snapshots name those that have them as parent, by
smaller ids, and an only child is in slot 0. -/
structure SnapshotTreeWf (t : SnapshotTable) (root : ℕ) : Prop where
  root_mem : root ∈ snapshotIds
  root_parent : t.parent root = 0
  child : ∀ {id d i}, t.Below root id d → t.child id i ≠ 0 →
    t.child id i < id ∧ t.parent (t.child id i) = id
  parent : ∀ {id d c}, t.Below root id d → c ∈ snapshotIds → t.parent c = id → ∃ i, t.child id i = c
  slot : ∀ {id d}, t.Below root id d → t.child id 0 = 0 → t.child id 1 = 0

/-- The children of a snapshot, in the order of their slots. -/
def SnapshotTable.kids (t : SnapshotTable) (id : ℕ) : List ℕ :=
  if t.child id 0 = 0 then []
  else if t.child id 1 ≠ 0 ∧ t.child id 1 ≠ t.child id 0 then [t.child id 0, t.child id 1]
  else [t.child id 0]

namespace SnapshotTreeWf

variable {t : SnapshotTable} {root id c d n e fuel : ℕ}

theorem le_root (h : SnapshotTreeWf t root) (hid : t.Below root id d) : d + id ≤ root := by
  induction hid with
  | top => omega
  | @step x d hx hup ih =>
    obtain ⟨i, hi⟩ := h.parent hup hx rfl
    have hne : t.child (t.parent x) i ≠ 0 := by rw [hi]; exact hx.1
    have hlt := (h.child hup hne).1
    omega

theorem mem_snapshotIds (h : SnapshotTreeWf t root) (hid : t.Below root id d) :
    id ∈ snapshotIds :=
  hid.mem h.root_mem

theorem mem_kids (h : SnapshotTreeWf t root) (hid : t.Below root id d) :
    c ∈ t.kids id ↔ c ∈ snapshotIds ∧ t.parent c = id := by
  constructor
  · intro hc
    obtain ⟨i, rfl, hne⟩ : ∃ i, c = t.child id i ∧ c ≠ 0 := by
      rw [SnapshotTable.kids] at hc
      split_ifs at hc with h₀ h₁
      · simp at hc
      · rcases List.mem_pair.mp hc with rfl | rfl
        · exact ⟨0, rfl, h₀⟩
        · exact ⟨1, rfl, h₁.1⟩
      · obtain rfl := List.mem_singleton.mp hc
        exact ⟨0, rfl, h₀⟩
    obtain ⟨hlt, hpar⟩ := h.child hid hne
    have hle := (h.mem_snapshotIds hid).2
    exact ⟨⟨hne, by omega⟩, hpar⟩
  · rintro ⟨hc, hpar⟩
    have hslots := Fin.exists_fin_two.mp (h.parent hid hc hpar)
    have hslot : t.child id 0 ≠ 0 := by
      intro h₀
      rcases hslots with rfl | rfl
      · exact hc.1 h₀
      · exact hc.1 (h.slot hid h₀)
    rw [SnapshotTable.kids, if_neg hslot]
    split_ifs with h₁
    · rcases hslots with rfl | rfl <;> simp
    · rcases hslots with rfl | rfl
      · exact List.mem_singleton_self _
      · exact List.mem_singleton.mpr (not_not.mp fun hne => h₁ ⟨hc.1, hne⟩)

/-- The children and the parents of a well-formed tree. -/
theorem kidsOf (h : SnapshotTreeWf t root) : KidsOf snapshotIds t.parent t.kids root where
  nodup hid := by
    rw [SnapshotTable.kids]
    split_ifs with h₀ h₁
    · exact List.nodup_nil
    · simpa using Ne.symm h₁.2
    · exact List.nodup_singleton _
  lt hid hc := by
    obtain ⟨hmem, hpar⟩ := (h.mem_kids hid).mp hc
    obtain ⟨i, rfl⟩ := h.parent hid hmem hpar
    exact (h.child hid hmem.1).1
  mem hid := h.mem_kids hid

/-! ### The way up -/

/-- One turn of the loop at a child. -/
theorem climb_child (h : SnapshotTreeWf t root) (hid : t.Below root id d) (hc : c ∈ t.kids id) :
    snapshotTreeClimb t (fuel + 1) c (d + 1) =
      if t.child id 1 ≠ 0 ∧ t.child id 1 ≠ c then some (t.child id 1, d + 1)
      else snapshotTreeClimb t fuel id d := by
  obtain ⟨-, hpar⟩ := (h.mem_kids hid).mp hc
  rw [snapshotTreeClimb, hpar]
  simp [(h.mem_snapshotIds hid).1]

/-- From a snapshot the loop comes to `n` at depth `e`. -/
def Climbs (t : SnapshotTable) (root id d n e : ℕ) : Prop :=
  ∀ fuel, root < fuel + id → snapshotTreeClimb t fuel id d = some (n, e)

theorem climbs_root (h : SnapshotTreeWf t root) : Climbs t root root 0 0 0 := by
  intro fuel hfuel
  obtain ⟨fuel, rfl⟩ := Nat.exists_eq_succ_of_ne_zero (show fuel ≠ 0 by omega)
  simp [snapshotTreeClimb, h.root_parent]

/-- From the last child the loop goes on from its parent. -/
theorem climbs_last (h : SnapshotTreeWf t root) (hid : t.Below root id d) (hc : c ∈ t.kids id)
    (hlast : ¬(t.child id 1 ≠ 0 ∧ t.child id 1 ≠ c)) (hup : Climbs t root id d n e) :
    Climbs t root c (d + 1) n e := by
  intro fuel hfuel
  have hlt := h.kidsOf.lt hid hc
  have hle := h.le_root hid
  obtain ⟨fuel, rfl⟩ := Nat.exists_eq_succ_of_ne_zero (show fuel ≠ 0 by omega)
  rw [h.climb_child hid hc, if_neg hlast]
  exact hup fuel (by omega)

/-- From the first of two children the loop comes to the second. -/
theorem climbs_next (h : SnapshotTreeWf t root) (hid : t.Below root id d) (hc : c ∈ t.kids id)
    (hnext : t.child id 1 ≠ 0 ∧ t.child id 1 ≠ c) :
    Climbs t root c (d + 1) (t.child id 1) (d + 1) := by
  intro fuel hfuel
  have hle := h.le_root (h.kidsOf.child hid hc)
  obtain ⟨fuel, rfl⟩ := Nat.exists_eq_succ_of_ne_zero (show fuel ≠ 0 by omega)
  rw [h.climb_child hid hc, if_pos hnext]

end SnapshotTreeWf

/-! ### The walk -/

/-- Calling the function from `id` on meets the snapshots of a list, and the call at the last of
them returns `n` at depth `e`. -/
inductive Visits (t : SnapshotTable) : ℕ → ℕ → List (ℕ × ℕ) → ℕ → ℕ → Prop
  | last {id d n e : ℕ} (hid : id ≠ 0) (h : bch2SnapshotTreeNext (2 ^ 32) t id d = some (n, e)) :
      Visits t id d [(id, d)] n e
  | cons {id d id' d' n e : ℕ} {l : List (ℕ × ℕ)} (hid : id ≠ 0)
      (h : bch2SnapshotTreeNext (2 ^ 32) t id d = some (id', d')) (hl : Visits t id' d' l n e) :
      Visits t id d ((id, d) :: l) n e

namespace Visits

variable {t : SnapshotTable} {root id d id' d' n e fuel : ℕ} {l l' : List (ℕ × ℕ)}

theorem append (h : Visits t id d l id' d') (h' : Visits t id' d' l' n e) :
    Visits t id d (l ++ l') n e := by
  induction h with
  | last hid hnext => exact .cons hid hnext h'
  | cons hid hnext _ ih => exact .cons hid hnext (ih h')

/-- A walk that comes to 0 has met the snapshots of the list. -/
theorem walk_eq (h : Visits t id d l 0 e) (hfuel : l.length < fuel) :
    snapshotTreeWalk t fuel id d = some l := by
  generalize hn : 0 = n at h
  induction h generalizing fuel with
  | last hid hnext =>
    obtain ⟨fuel, rfl⟩ := Nat.exists_eq_add_of_le (show 2 ≤ fuel from hfuel)
    subst hn
    rw [Nat.add_comm 2 fuel, snapshotTreeWalk, if_neg hid, hnext]
    simp [snapshotTreeWalk]
  | cons hid hnext _ ih =>
    rw [List.length_cons] at hfuel
    obtain ⟨fuel, rfl⟩ := Nat.exists_eq_succ_of_ne_zero (show fuel ≠ 0 by omega)
    rw [snapshotTreeWalk, if_neg hid, hnext]
    simp [ih (show _ < fuel by omega) hn]

/-- The snapshots below one are met in pre-order, and the walk goes on where the loop upwards
ends. -/
theorem preorder (h : SnapshotTreeWf t root) (hid : t.Below root id d)
    (hup : SnapshotTreeWf.Climbs t root id d n e) (hfuel : id < fuel) :
    Visits t id d (preorder t.kids fuel id d) n e := by
  have hroot := h.root_mem.2
  induction fuel generalizing id d n e with
  | zero => omega
  | succ fuel ih =>
    have hne := (h.mem_snapshotIds hid).1
    have hle := h.le_root hid
    have hkid : ∀ c ∈ t.kids id, t.Below root c (d + 1) ∧ c < fuel := by
      intro c hc
      have hlt := h.kidsOf.lt hid hc
      exact ⟨h.kidsOf.child hid hc, by omega⟩
    rw [Lib.preorder]
    by_cases h₀ : t.child id 0 = 0
    · have hkids : t.kids id = [] := if_pos h₀
      rw [hkids]
      refine .last hne ?_
      have hturns : root < 2 ^ 32 + id := by rw [u32Max] at hroot; omega
      rw [bch2SnapshotTreeNext, h₀, if_neg (not_not.mpr rfl), hup _ hturns]
    have hnext : bch2SnapshotTreeNext (2 ^ 32) t id d = some (t.child id 0, d + 1) := by
      have hdepth : d < u32Max := by omega
      rw [bch2SnapshotTreeNext, if_pos h₀, if_pos hdepth]
    refine .cons hne hnext ?_
    by_cases h₁ : t.child id 1 ≠ 0 ∧ t.child id 1 ≠ t.child id 0
    · have hkids : t.kids id = [t.child id 0, t.child id 1] := by
        rw [SnapshotTable.kids, if_neg h₀, if_pos h₁]
      have hc₀ : t.child id 0 ∈ t.kids id := by simp [hkids]
      have hc₁ : t.child id 1 ∈ t.kids id := by simp [hkids]
      have hleft := ih (hkid _ hc₀).1 (h.climbs_next hid hc₀ h₁) (hkid _ hc₀).2
      have hright := ih (hkid _ hc₁).1 (h.climbs_last hid hc₁ (by simp) hup) (hkid _ hc₁).2
      rw [hkids]
      simpa using hleft.append hright
    · have hkids : t.kids id = [t.child id 0] := by
        rw [SnapshotTable.kids, if_neg h₀, if_neg h₁]
      have hc₀ : t.child id 0 ∈ t.kids id := by simp [hkids]
      have honly := ih (hkid _ hc₀).1 (h.climbs_last hid hc₀ h₁ hup) (hkid _ hc₀).2
      rw [hkids]
      simpa using honly

end Visits

/-- A list of different ids from 1 to `n` is not longer than `n`. -/
theorem length_le_of_nodup_ids {l : List ℕ} {n : ℕ} (hl : l.Nodup)
    (h : ∀ id ∈ l, id ≠ 0 ∧ id ≤ n) : l.length ≤ n := by
  have hsub : l ⊆ List.range' 1 n := by
    intro id hid
    have := h id hid
    rw [List.mem_range'_1]
    omega
  simpa using (hl.subperm hsub).length_le

/-- Calling `__bch2_snapshot_tree_next` from the root of a well-formed tree meets its snapshots in
pre-order and then returns 0: every snapshot of the tree once, with its distance from the root as
the depth. -/
theorem snapshot_tree_walk_preorder {t : SnapshotTable} {root : ℕ} (h : SnapshotTreeWf t root)
    {fuel : ℕ} (hfuel : 2 ^ 32 ≤ fuel) :
    ∃ l, snapshotTreeWalk t fuel root 0 = some l ∧ l = preorder t.kids (root + 1) root 0 ∧
      (l.map Prod.fst).Nodup ∧ ∀ id depth, (id, depth) ∈ l ↔ t.Below root id depth := by
  have hlt : root < root + 1 := Nat.lt_succ_self root
  have hnodup := nodup_preorder h.kidsOf .top hlt
  have hmem : ∀ id depth, (id, depth) ∈ preorder t.kids (root + 1) root 0 ↔
      t.Below root id depth := by
    intro id depth
    rw [mem_preorder h.kidsOf .top hlt]
    simp
  refine ⟨_, ?_, rfl, hnodup, hmem⟩
  refine (Visits.preorder h .top h.climbs_root hlt).walk_eq ?_
  have hlen := length_le_of_nodup_ids hnodup (n := root) fun id hid => by
    obtain ⟨⟨id, depth⟩, hin, rfl⟩ := List.mem_map.mp hid
    have hbelow := (hmem id depth).mp hin
    have hle := h.le_root hbelow
    exact ⟨(h.mem_snapshotIds hbelow).1, by simp only; omega⟩
  have hroot := h.root_mem.2
  rw [List.length_map] at hlen
  rw [u32Max] at hroot
  omega

/-- A root with two children, the first of which has a child. -/
def fourSnapshots : SnapshotTable where
  nr := 4
  s := [{ state := .live, children := fun i => if i = 0 then u32Max - 1 else u32Max - 2 },
    { state := .live, parent := u32Max, depth := 1,
      children := fun i => if i = 0 then u32Max - 3 else 0 },
    { state := .live, parent := u32Max, depth := 1 },
    { state := .live, parent := u32Max - 1, depth := 2 }]

theorem fourSnapshots_cases {id : ℕ} (hid : id ∈ snapshotIds) :
    id = u32Max ∨ id = u32Max - 1 ∨ id = u32Max - 2 ∨ id = u32Max - 3 ∨
      fourSnapshots.parent id = 0 ∧ ∀ i, fourSnapshots.child id i = 0 := by
  obtain ⟨-, hle⟩ := hid
  by_cases hfar : 4 ≤ u32Max - id
  · have hnone : snapshotT fourSnapshots id = none := if_neg (Nat.not_lt.mpr hfar)
    simp [SnapshotTable.parent, SnapshotTable.child, hnone]
  · omega

theorem fourSnapshots_wf : SnapshotTreeWf fourSnapshots u32Max where
  root_mem := ⟨by decide, le_rfl⟩
  root_parent := by decide
  child := by
    intro id d i hid hne
    rcases fourSnapshots_cases (hid.mem ⟨by decide, le_rfl⟩) with rfl | rfl | rfl | rfl | ⟨-, hnone⟩
    · revert i
      decide
    · revert i
      decide
    · revert i
      decide
    · revert i
      decide
    · exact absurd (hnone i) hne
  parent := by
    intro id d c hid hc hpar
    have hid' : id ≠ 0 := (hid.mem ⟨by decide, le_rfl⟩).1
    rcases fourSnapshots_cases hc with rfl | rfl | rfl | rfl | ⟨hnone, -⟩
    · exact absurd hpar.symm hid'
    · exact ⟨0, hpar ▸ by decide⟩
    · exact ⟨1, hpar ▸ by decide⟩
    · exact ⟨0, hpar ▸ by decide⟩
    · exact absurd (hpar.symm.trans hnone) hid'
  slot := by
    intro id d hid
    rcases fourSnapshots_cases (hid.mem ⟨by decide, le_rfl⟩) with rfl | rfl | rfl | rfl | ⟨-, hnone⟩
    · decide
    · decide
    · decide
    · decide
    · exact fun _ => hnone 1

/-- The walk over the four snapshots. -/
theorem snapshot_tree_walk_preorder_four : ∃ l,
    snapshotTreeWalk fourSnapshots (2 ^ 32) u32Max 0 = some l ∧
      l = preorder fourSnapshots.kids (u32Max + 1) u32Max 0 ∧ (l.map Prod.fst).Nodup ∧
      ∀ id depth, (id, depth) ∈ l ↔ fourSnapshots.Below u32Max id depth :=
  snapshot_tree_walk_preorder fourSnapshots_wf le_rfl

end Subvol

import Mathlib.Data.List.Nodup
import Mathlib.Data.Set.Basic
import Mathlib.Tactic.Common

/-!
# Trees listed in pre-order

A tree is given by the parent of every node of a set of numbers, and again by the list of the
children of every node; a child has a smaller number than its parent. The pre-order list of the
nodes below a node, each with its depth, holds every one of them once.

## Main definitions

* `DepthBelow`: a node below another one, and how far.
* `KidsOf`: the lists of children and the parents are one tree.
* `preorder`: the nodes with their depths, every node before its children.

## Main results

* `mem_preorder`: the list holds the nodes below its first one, with their depths.
* `nodup_preorder`: no node is listed twice.
-/

namespace Subvol.Lib

/-- The node `x` is `d` steps below `top`, along nodes of `S`. -/
inductive DepthBelow (S : Set ℕ) (parent : ℕ → ℕ) (top : ℕ) : ℕ → ℕ → Prop
  | top : DepthBelow S parent top top 0
  | step {x d : ℕ} (hx : x ∈ S) (h : DepthBelow S parent top (parent x) d) :
      DepthBelow S parent top x (d + 1)

variable {S : Set ℕ} {parent : ℕ → ℕ} {kids : ℕ → List ℕ} {root top x y c d e fuel : ℕ}

theorem DepthBelow.trans (h : DepthBelow S parent top y d) (h' : DepthBelow S parent y x e) :
    DepthBelow S parent top x (d + e) := by
  induction h' with
  | top => exact h
  | step hx _ ih => exact .step hx ih

theorem DepthBelow.mem (h : DepthBelow S parent top x d) (htop : top ∈ S) : x ∈ S := by
  cases h with
  | top => exact htop
  | step hx _ => exact hx

/-- The first step down the way to a node. -/
theorem DepthBelow.exists_child (h : DepthBelow S parent top x (d + 1)) :
    ∃ c ∈ S, parent c = top ∧ DepthBelow S parent c x d := by
  induction d generalizing x with
  | zero =>
    cases h with
    | step hx h =>
      generalize hy : parent x = y at h
      cases h
      exact ⟨x, hx, hy, .top⟩
  | succ d ih =>
    cases h with
    | step hx h =>
      obtain ⟨c, hc, hpar, hbelow⟩ := ih h
      exact ⟨c, hc, hpar, .step hx hbelow⟩

/-- The lists of children and the parents of the nodes below `root` are one tree. -/
structure KidsOf (S : Set ℕ) (parent : ℕ → ℕ) (kids : ℕ → List ℕ) (root : ℕ) : Prop where
  nodup : ∀ {x d}, DepthBelow S parent root x d → (kids x).Nodup
  lt : ∀ {x d c}, DepthBelow S parent root x d → c ∈ kids x → c < x
  mem : ∀ {x d c}, DepthBelow S parent root x d → (c ∈ kids x ↔ c ∈ S ∧ parent c = x)

namespace KidsOf

/-- A child of a node below the root is below it too. -/
theorem child (h : KidsOf S parent kids root) (hx : DepthBelow S parent root x d)
    (hc : c ∈ kids x) : DepthBelow S parent root c (d + 1) := by
  obtain ⟨hcS, hpar⟩ := (h.mem hx).mp hc
  exact .step hcS (hpar.symm ▸ hx)

/-- Numbers fall at least as fast as the depth grows. -/
theorem add_le (h : KidsOf S parent kids root) (hy : DepthBelow S parent root y d)
    (hx : DepthBelow S parent y x e) : e + x ≤ y := by
  induction hx with
  | top => omega
  | @step x e hxS hpar ih =>
    have hlt : x < parent x := h.lt (hy.trans hpar) ((h.mem (hy.trans hpar)).mpr ⟨hxS, rfl⟩)
    omega

/-- A node is below one child of a node at most. -/
theorem child_unique (h : KidsOf S parent kids root) (hy : DepthBelow S parent root y d)
    {c c' e' : ℕ} (hc : c ∈ kids y) (hc' : c' ∈ kids y) (hx : DepthBelow S parent c x e)
    (hx' : DepthBelow S parent c' x e') : c = c' := by
  obtain ⟨-, hpar⟩ := (h.mem hy).mp hc
  obtain ⟨-, hpar'⟩ := (h.mem hy).mp hc'
  -- by the way up from `x`: both ways end at the same time, since above a child is `y`
  induction hx generalizing e' with
  | top =>
    cases hx' with
    | top => rfl
    | step _ hup =>
      rw [hpar] at hup
      have hle := h.add_le (h.child hy hc') hup
      have hlt := h.lt hy hc'
      omega
  | step hxS hup ih =>
    cases hx' with
    | top =>
      rw [hpar'] at hup
      have hle := h.add_le (h.child hy hc) hup
      have hlt := h.lt hy hc
      omega
    | step _ hup' => exact ih hup'

end KidsOf

/-- The nodes below `x`, which is at depth `d`, with their depths: every node before its children,
and all nodes below a child before the next child. -/
def preorder (kids : ℕ → List ℕ) : ℕ → ℕ → ℕ → List (ℕ × ℕ)
  | 0, _, _ => []
  | fuel + 1, x, d => (x, d) :: (kids x).flatMap fun c => preorder kids fuel c (d + 1)

/-- The list holds the nodes below its first one, with their depths. -/
theorem mem_preorder (h : KidsOf S parent kids root) (hx : DepthBelow S parent root x d)
    (hfuel : x < fuel) :
    (y, e) ∈ preorder kids fuel x d ↔ ∃ k, e = d + k ∧ DepthBelow S parent x y k := by
  induction fuel generalizing x d with
  | zero => omega
  | succ fuel ih =>
    have hkid : ∀ c ∈ kids x, (y, e) ∈ preorder kids fuel c (d + 1) ↔
        ∃ k, e = d + 1 + k ∧ DepthBelow S parent c y k := by
      intro c hc
      have hlt := h.lt hx hc
      exact ih (h.child hx hc) (by omega)
    rw [preorder, List.mem_cons, List.mem_flatMap]
    constructor
    · rintro (heq | ⟨c, hc, hmem⟩)
      · obtain ⟨rfl, rfl⟩ := Prod.mk.inj heq
        exact ⟨0, rfl, .top⟩
      · obtain ⟨k, rfl, hbelow⟩ := (hkid c hc).mp hmem
        obtain ⟨hcS, hpar⟩ := (h.mem hx).mp hc
        have hstep : DepthBelow S parent x c 1 := .step hcS (hpar.symm ▸ .top)
        exact ⟨1 + k, by omega, hstep.trans hbelow⟩
    · rintro ⟨k, rfl, hbelow⟩
      cases k with
      | zero =>
        cases hbelow
        exact .inl rfl
      | succ k =>
        obtain ⟨c, hcS, hpar, hbelow⟩ := hbelow.exists_child
        have hc : c ∈ kids x := (h.mem hx).mpr ⟨hcS, hpar⟩
        exact .inr ⟨c, hc, (hkid c hc).mpr ⟨k, by omega, hbelow⟩⟩

/-- No node is listed twice. -/
theorem nodup_preorder (h : KidsOf S parent kids root) (hx : DepthBelow S parent root x d)
    (hfuel : x < fuel) : ((preorder kids fuel x d).map Prod.fst).Nodup := by
  induction fuel generalizing x d with
  | zero => omega
  | succ fuel ih =>
    have hlt : ∀ c ∈ kids x, c < fuel := by
      intro c hc
      have := h.lt hx hc
      omega
    -- a listed node is below the child whose list it is in
    have hbelow : ∀ c ∈ kids x, ∀ y ∈ (preorder kids fuel c (d + 1)).map Prod.fst,
        ∃ k, DepthBelow S parent c y k := by
      intro c hc y hy
      obtain ⟨⟨y, e⟩, hmem, rfl⟩ := List.mem_map.mp hy
      obtain ⟨k, -, hk⟩ := (mem_preorder h (h.child hx hc) (hlt c hc)).mp hmem
      exact ⟨k, hk⟩
    rw [preorder, List.map_cons, List.map_flatMap, List.nodup_cons, List.nodup_flatMap]
    refine ⟨?_, fun c hc => ih (h.child hx hc) (hlt c hc), ?_⟩
    · intro hmem
      obtain ⟨c, hc, hmem⟩ := List.mem_flatMap.mp hmem
      obtain ⟨k, hk⟩ := hbelow c hc x hmem
      have hle := h.add_le (h.child hx hc) hk
      have hcx := h.lt hx hc
      omega
    · refine (h.nodup hx).imp_of_mem fun hc hc' hne y hy hy' => ?_
      obtain ⟨k, hk⟩ := hbelow _ hc y hy
      obtain ⟨k', hk'⟩ := hbelow _ hc' y hy'
      exact hne (h.child_unique hx hc hc' hk hk')

end Subvol.Lib

import Mathlib.Data.List.GetD
import Mathlib.Data.List.Nodup
import Mathlib.Logic.Equiv.Basic
import Mathlib.Order.Lattice
import Mathlib.Order.Nat
import Mathlib.Tactic.Common

/-!
# Heap sort

An array is the function from its indices. The heap of its first entries has the children of the
node `p` at `2 * p + 1` and `2 * p + 2`. An entry is sifted down from the bottom: the way to a leaf
that always takes the greater child is looked for first, then the entry's place on it from the leaf
up, and at last the entries above this place move up by one.

The order is that of a rank of the entries. It is asked for by a Boolean function that is right for
some entries only.

## Main definitions

* `leafSearch`, `climb`, `rotate`, `siftDown`, `sortLoop`, `sort`.
* `Rearranged`: the same entries in another order.
* `EdgesOk`: the children of a node are not greater than it.

## Main results

* `siftDown_edges`: an entry is put in its place below its node.
* `sort_spec`, `sortList_spec`: the entries are the same, in their order.
-/

namespace Subvol.Lib.HeapSort

/-! ### Rearrangements -/

section Rearranged

variable {α : Type*} {n m : ℕ} {xs ys zs : ℕ → α}

/-- The first entries are those of another array in some order, and the others are the same. -/
def Rearranged (n : ℕ) (xs ys : ℕ → α) : Prop :=
  ∃ σ : Equiv.Perm ℕ, (∀ k, n ≤ k → σ k = k) ∧ ys = xs ∘ σ

/-- Two entries exchanged. -/
def swapAt (xs : ℕ → α) (i j : ℕ) : ℕ → α := xs ∘ Equiv.swap i j

theorem swapAt_left (xs : ℕ → α) (i j : ℕ) : swapAt xs i j i = xs j := by
  rw [swapAt, Function.comp_apply, Equiv.swap_apply_left]

theorem swapAt_right (xs : ℕ → α) (i j : ℕ) : swapAt xs i j j = xs i := by
  rw [swapAt, Function.comp_apply, Equiv.swap_apply_right]

theorem swapAt_of_ne {i j k : ℕ} (xs : ℕ → α) (hi : k ≠ i) (hj : k ≠ j) :
    swapAt xs i j k = xs k := by
  rw [swapAt, Function.comp_apply, Equiv.swap_apply_of_ne_of_ne hi hj]

namespace Rearranged

theorem refl (n : ℕ) (xs : ℕ → α) : Rearranged n xs xs :=
  ⟨Equiv.refl ℕ, fun _ _ => rfl, rfl⟩

theorem trans (h : Rearranged n xs ys) (h' : Rearranged n ys zs) : Rearranged n xs zs := by
  obtain ⟨σ, hσ, rfl⟩ := h
  obtain ⟨τ, hτ, rfl⟩ := h'
  refine ⟨τ.trans σ, fun k hk => ?_, rfl⟩
  rw [Equiv.trans_apply, hτ k hk, hσ k hk]

theorem mono (h : Rearranged n xs ys) (hle : n ≤ m) : Rearranged m xs ys := by
  obtain ⟨σ, hσ, hys⟩ := h
  exact ⟨σ, fun k hk => hσ k (hle.trans hk), hys⟩

theorem swap {i j : ℕ} (xs : ℕ → α) (hi : i < n) (hj : j < n) :
    Rearranged n xs (swapAt xs i j) := by
  refine ⟨Equiv.swap i j, fun k hk => ?_, rfl⟩
  exact Equiv.swap_apply_of_ne_of_ne (by omega) (by omega)

theorem eq_of_le (h : Rearranged n xs ys) {k : ℕ} (hk : n ≤ k) : ys k = xs k := by
  obtain ⟨σ, hσ, rfl⟩ := h
  rw [Function.comp_apply, hσ k hk]

/-- The first indices stay among themselves. -/
theorem perm_lt {σ : Equiv.Perm ℕ} (hσ : ∀ k, n ≤ k → σ k = k) {k : ℕ} (hk : k < n) : σ k < n := by
  by_contra hge
  have hfix := σ.injective (hσ (σ k) (Nat.le_of_not_lt hge))
  exact hge (hfix.symm ▸ hk)

theorem exists_eq (h : Rearranged n xs ys) {k : ℕ} (hk : k < n) : ∃ j < n, ys k = xs j := by
  obtain ⟨σ, hσ, rfl⟩ := h
  exact ⟨σ k, perm_lt hσ hk, rfl⟩

/-- The lists of the first entries are permutations of each other. -/
theorem perm (h : Rearranged n xs ys) :
    ((List.range n).map ys).Perm ((List.range n).map xs) := by
  obtain ⟨σ, hσ, rfl⟩ := h
  have hrange : ((List.range n).map σ).Perm (List.range n) := by
    refine (List.perm_ext_iff_of_nodup (List.nodup_range.map σ.injective) List.nodup_range).mpr
      fun k => ?_
    rw [List.mem_map, List.mem_range]
    constructor
    · rintro ⟨j, hj, rfl⟩
      exact perm_lt hσ (List.mem_range.mp hj)
    · intro hk
      have hinv : ∀ j, n ≤ j → σ.symm j = j := fun j hj => by
        rw [Equiv.symm_apply_eq, hσ j hj]
      exact ⟨σ.symm k, List.mem_range.mpr (perm_lt hinv hk), σ.apply_symm_apply k⟩
  have hmap := hrange.map xs
  rwa [List.map_map] at hmap

end Rearranged

end Rearranged

/-! ### The sort -/

section HeapSort

variable {α : Type*} (ge : α → α → Bool)

/-- From a node down to a leaf, to the greater child each time. -/
def leafSearch (xs : ℕ → α) (n b : ℕ) : ℕ :=
  if 2 * b + 2 < n then
    leafSearch xs n (if ge (xs (2 * b + 1)) (xs (2 * b + 2)) then 2 * b + 1 else 2 * b + 2)
  else if 2 * b + 2 = n then 2 * b + 1
  else b
termination_by n - b
decreasing_by split_ifs <;> omega

/-- From a node up to the place of the entry of `a`, which is a node above. -/
def climb (xs : ℕ → α) (a b : ℕ) : ℕ :=
  if a < b ∧ ge (xs a) (xs b) then climb xs a ((b - 1) / 2) else b
termination_by b

/-- The entries on the way from `a` to `c` move up by one and that of `a` goes to the end of it; `b`
is the node reached from `c`. -/
def rotate (xs : ℕ → α) (a b c : ℕ) : ℕ → α :=
  if a < b then rotate (swapAt xs ((b - 1) / 2) c) a ((b - 1) / 2) c else xs
termination_by b

/-- The entry of `a` goes to its place below. -/
def siftDown (xs : ℕ → α) (n a : ℕ) : ℕ → α :=
  let b := climb ge xs a (leafSearch ge xs n a)
  rotate xs a b b

/-- The heap is built from the node `a` down to the root, then its root is taken away until one
entry is left. -/
def sortLoop (xs : ℕ → α) (a n : ℕ) : ℕ → α :=
  if a ≠ 0 then sortLoop (siftDown ge xs n (a - 1)) (a - 1) n
  else if n - 1 ≠ 0 then sortLoop (siftDown ge (swapAt xs 0 (n - 1)) (n - 1) 0) 0 (n - 1)
  else xs
termination_by a + n

/-- The first `n` entries in order. -/
def sort (xs : ℕ → α) (n : ℕ) : ℕ → α := if n / 2 = 0 then xs else sortLoop ge xs (n / 2) n

/-- The entries of a list in order. -/
def sortList [Inhabited α] (l : List α) : List α :=
  (List.range l.length).map (sort ge (fun i => l.getD i default) l.length)

end HeapSort

/-! ### Nodes -/

/-- The node is `q` or below it. -/
inductive Under (q : ℕ) : ℕ → Prop
  | self : Under q q
  | child {k : ℕ} (hpos : 0 < k) (h : Under q ((k - 1) / 2)) : Under q k

theorem Under.le {q k : ℕ} (h : Under q k) : q ≤ k := by
  induction h with
  | self => exact le_rfl
  | child hpos _ ih => omega

theorem Under.trans {p q k : ℕ} (hpq : Under p q) (hqk : Under q k) : Under p k := by
  induction hqk with
  | self => exact hpq
  | child hpos _ ih => exact .child hpos ih

/-- A child of the parent of `y` that is at or below `y` is `y`. -/
theorem Under.eq_of_sibling {y i : ℕ} (h : Under y i) (hy : 0 < y)
    (hparent : (i - 1) / 2 = (y - 1) / 2) : i = y := by
  cases h with
  | self => rfl
  | child hpos h =>
    have hle := h.le
    omega

section Heap

variable {α β : Type*} [LinearOrder β] {ge : α → α → Bool} {rank : α → β} {S : Set α}
  {xs ws : ℕ → α} {n a b y p q : ℕ}

/-- The children of a node are not greater than it. -/
def EdgesOk (rank : α → β) (n : ℕ) (xs : ℕ → α) (p : ℕ) : Prop :=
  ∀ i < n, 0 < i → (i - 1) / 2 = p → rank (xs i) ≤ rank (xs p)

/-- A node is on the way down from `a` that takes the greater child each time. -/
inductive Way (rank : α → β) (n : ℕ) (xs : ℕ → α) (a : ℕ) : ℕ → Prop
  | start : Way rank n xs a a
  | child {c : ℕ} (h : Way rank n xs a ((c - 1) / 2)) (hpos : 0 < c) (hc : c < n)
      (hgreatest : ∀ i < n, 0 < i → (i - 1) / 2 = (c - 1) / 2 → rank (xs i) ≤ rank (xs c)) :
      Way rank n xs a c

theorem Way.le (h : Way rank n xs a b) : a ≤ b := by
  induction h with
  | start => exact le_rfl
  | child _ hpos _ _ ih => omega

theorem Way.lt (h : Way rank n xs a b) (ha : a < n) : b < n := by
  cases h with
  | start => exact ha
  | child _ _ hc _ => exact hc

variable (hge : ∀ x ∈ S, ∀ z ∈ S, ge x z = true ↔ rank z ≤ rank x) (hS : ∀ i < n, xs i ∈ S)

include hge hS in
/-- The way to a leaf. -/
theorem leafSearch_spec (h : Way rank n xs a b) (ha : a < n) :
    Way rank n xs a (leafSearch ge xs n b) ∧ n ≤ 2 * leafSearch ge xs n b + 1 := by
  induction hk : n - b using Nat.strongRecOn generalizing b with
  | _ k ih =>
    have hb := h.lt ha
    rw [leafSearch]
    split_ifs with htwo hle hlast
    · -- the left child is not less than the right one
      have hle := (hge _ (hS _ (by omega)) _ (hS _ htwo)).mp hle
      refine ih (n - (2 * b + 1)) (by omega)
        (.child (c := 2 * b + 1) ?_ (by omega) (by omega) ?_) rfl
      · rwa [show (2 * b + 1 - 1) / 2 = b by omega]
      · intro i _ hpos hi
        obtain rfl | rfl : i = 2 * b + 1 ∨ i = 2 * b + 2 := by omega
        · exact le_rfl
        · exact hle
    · have hlt := mt (hge _ (hS _ (by omega)) _ (hS _ htwo)).mpr hle
      refine ih (n - (2 * b + 2)) (by omega) (.child (c := 2 * b + 2) ?_ (by omega) htwo ?_) rfl
      · rwa [show (2 * b + 2 - 1) / 2 = b by omega]
      · intro i _ hpos hi
        obtain rfl | rfl : i = 2 * b + 1 ∨ i = 2 * b + 2 := by omega
        · exact (not_le.mp hlt).le
        · exact le_rfl
    · refine ⟨.child (c := 2 * b + 1) ?_ (by omega) (by omega) ?_, by omega⟩
      · rwa [show (2 * b + 1 - 1) / 2 = b by omega]
      · intro i hi hpos hparent
        obtain rfl : i = 2 * b + 1 := by omega
        exact le_rfl
    · exact ⟨h, by omega⟩

include hge hS in
/-- The place of the entry of `a` on the way: what is below is not greater, the entry there is. -/
theorem climb_spec (h : Way rank n xs a b) (ha : a < n)
    (hbelow : ∀ i < n, 0 < i → (i - 1) / 2 = b → rank (xs i) ≤ rank (xs a)) :
    Way rank n xs a (climb ge xs a b) ∧
      (∀ i < n, 0 < i → (i - 1) / 2 = climb ge xs a b → rank (xs i) ≤ rank (xs a)) ∧
      (climb ge xs a b = a ∨ rank (xs a) < rank (xs (climb ge xs a b))) := by
  induction h with
  | start =>
    rw [climb, if_neg fun hlt => lt_irrefl a hlt.1]
    exact ⟨.start, hbelow, .inl rfl⟩
  | @child c h hpos hc hgreatest ih =>
    have hle := h.le
    have hiff := hge _ (hS a ha) _ (hS c hc)
    rw [climb]
    split_ifs with hcond
    · -- the children of the parent are not greater than `c`
      refine ih fun i hi hipos hparent => ?_
      exact (hgreatest i hi hipos hparent).trans (hiff.mp hcond.2)
    · refine ⟨.child h hpos hc hgreatest, hbelow, .inr ?_⟩
      exact not_le.mp (mt hiff.mpr fun hge => hcond ⟨by omega, hge⟩)

/-! ### Moving up -/

/-- The entries on the way from `b` up to `y` have moved up by one, and `b` has the entry of `a`. -/
structure Shifted (rank : α → β) (n a : ℕ) (xs ws : ℕ → α) (y : ℕ) : Prop where
  edges : ∀ p, a < p ∨ p = y → EdgesOk rank n ws p
  le : y ≠ a → rank (ws y) ≤ rank (xs y)
  frame : ∀ k, ¬Under y k → ws k = xs k
  behind : ∀ k, n ≤ k → ws k = xs k

/-- The entry of `a` at its place. -/
theorem shifted_update (h : Way rank n xs a b) (ha : a < n)
    (hedges : ∀ p, a < p → EdgesOk rank n xs p)
    (hbelow : ∀ i < n, 0 < i → (i - 1) / 2 = b → rank (xs i) ≤ rank (xs a))
    (habove : b = a ∨ rank (xs a) < rank (xs b)) :
    Shifted rank n a xs (Function.update xs b (xs a)) b := by
  have hb := h.lt ha
  refine ⟨fun p hp i hi hpos hparent => ?_, fun hne => ?_, fun k hk => ?_, fun k hk => ?_⟩
  · by_cases hib : i = b
    · -- the parent of the place
      subst hib
      have hap : a < p := hp.resolve_right (by omega)
      have hlt := habove.resolve_left (by omega)
      rw [Function.update_self, Function.update_of_ne (by omega)]
      exact hlt.le.trans (hedges p hap i hi hpos hparent)
    · rw [Function.update_of_ne hib]
      by_cases hpb : p = b
      · subst hpb
        rw [Function.update_self]
        exact hbelow i hi hpos hparent
      · rw [Function.update_of_ne hpb]
        exact hedges p (hp.resolve_right hpb) i hi hpos hparent
  · rw [Function.update_self]
    exact (habove.resolve_left hne).le
  · rw [Function.update_of_ne]
    rintro rfl
    exact hk .self
  · rw [Function.update_of_ne (by omega)]

/-- One more entry moves up. -/
theorem Shifted.up (h : Shifted rank n a xs ws y) (hway : Way rank n xs a ((y - 1) / 2))
    (hpos : 0 < y) (hlt : y < n)
    (hgreatest : ∀ i < n, 0 < i → (i - 1) / 2 = (y - 1) / 2 → rank (xs i) ≤ rank (xs y))
    (hedges : ∀ p, a < p → EdgesOk rank n xs p) :
    Shifted rank n a xs (Function.update ws ((y - 1) / 2) (xs y)) ((y - 1) / 2) := by
  have haq := hway.le
  set q := (y - 1) / 2 with hq
  have hframe : ∀ k < y, ws k = xs k := fun k hk => h.frame k fun hu => by
    have := hu.le
    omega
  refine ⟨fun p hp i hi hipos hparent => ?_, fun hne => ?_, fun k hk => ?_, fun k hk => ?_⟩
  · by_cases hpq : p = q
    · -- the children of `q`: `y`, whose entry has moved, and its sibling
      subst hpq
      rw [Function.update_self, Function.update_of_ne (by omega)]
      by_cases hiy : i = y
      · subst hiy
        exact h.le (by omega)
      · rw [h.frame i fun hu => hiy (hu.eq_of_sibling hpos (hparent.trans hq))]
        exact hgreatest i hi hipos (hparent.trans hq)
    · have hap : a < p := hp.resolve_right hpq
      rw [Function.update_of_ne hpq]
      by_cases hiq : i = q
      · subst hiq
        rw [Function.update_self, hframe p (by omega)]
        exact (hedges _ (by omega) y hlt hpos rfl).trans (hedges p hap _ hi hipos hparent)
      · rw [Function.update_of_ne hiq]
        exact h.edges p (.inl hap) i hi hipos hparent
  · rw [Function.update_self]
    exact hedges q (by omega) y hlt hpos rfl
  · have hkq : k ≠ q := fun heq => hk (heq ▸ .self)
    rw [Function.update_of_ne hkq]
    exact h.frame k fun hu => hk ((Under.child hpos .self).trans hu)
  · rw [Function.update_of_ne (by omega)]
    exact h.behind k hk

/-- The loop over the way, from the state in which `y` is reached. -/
theorem rotate_spec {c : ℕ} (hway : Way rank n xs a y)
    (hedges : ∀ p, a < p → EdgesOk rank n xs p) (h : Shifted rank n a xs ws y) (hyc : y ≤ c)
    (hc : c < n) (hwc : ws c = xs a) :
    Shifted rank n a xs (rotate (Function.update ws c (xs y)) a y c) a ∧
      Rearranged n (Function.update ws c (xs y)) (rotate (Function.update ws c (xs y)) a y c) := by
  induction hway generalizing ws with
  | start =>
    rw [rotate, if_neg (lt_irrefl a), ← hwc, Function.update_eq_self]
    exact ⟨h, .refl n ws⟩
  | @child y hway hpos hlt hgreatest ih =>
    have hle := hway.le
    set q := (y - 1) / 2 with hq
    have hwq : ws q = xs q := h.frame q fun hu => by
      have := hu.le
      omega
    -- the exchange of the entries of `q` and `c`
    have hswap : swapAt (Function.update ws c (xs y)) q c =
        Function.update (Function.update ws q (xs y)) c (xs q) := by
      funext k
      by_cases hkc : k = c
      · subst hkc
        rw [swapAt_right, Function.update_of_ne (by omega), Function.update_self, hwq]
      · by_cases hkq : k = q
        · subst hkq
          rw [swapAt_left, Function.update_self, Function.update_of_ne hkc, Function.update_self]
        · rw [swapAt_of_ne _ hkq hkc, Function.update_of_ne hkc, Function.update_of_ne hkc,
            Function.update_of_ne hkq]
    have hnext := ih (h.up hway hpos hlt hgreatest hedges) (by omega)
      (by rw [Function.update_of_ne (by omega), hwc])
    rw [rotate, if_pos (by omega), ← hq, hswap]
    refine ⟨hnext.1, Rearranged.trans ?_ hnext.2⟩
    rw [← hswap]
    exact .swap _ (by omega) hc

include hge hS in
/-- Sifting an entry down leaves no node from it on with a greater child. -/
theorem siftDown_edges (ha : a < n) (hedges : ∀ p, a < p → EdgesOk rank n xs p) :
    (∀ p, a ≤ p → EdgesOk rank n (siftDown ge xs n a) p) ∧
      Rearranged n xs (siftDown ge xs n a) := by
  obtain ⟨hleaf, hlast⟩ := leafSearch_spec hge hS .start ha
  obtain ⟨hway, hbelow, habove⟩ := climb_spec hge hS hleaf ha (fun i hi hpos hparent => by omega)
  have hshift := shifted_update hway ha hedges hbelow habove
  have hrotate := rotate_spec hway hedges hshift le_rfl (hway.lt ha) (Function.update_self ..)
  rw [Function.update_idem, Function.update_eq_self] at hrotate
  refine ⟨fun p hp => hrotate.1.edges p ?_, hrotate.2⟩
  exact (lt_or_eq_of_le hp).imp_right Eq.symm

/-! ### The whole sort -/

/-- No entry of a heap is greater than its root. -/
theorem rank_le_root (hedges : ∀ p, EdgesOk rank n xs p) {k : ℕ} (hk : k < n) :
    rank (xs k) ≤ rank (xs 0) := by
  induction k using Nat.strongRecOn with
  | _ k ih =>
    rcases Nat.eq_zero_or_pos k with rfl | hpos
    · exact le_rfl
    · exact (hedges _ k hk hpos rfl).trans (ih ((k - 1) / 2) (by omega) (by omega))

/-- The entries from `n` on are in order and not less than those before. -/
def TailSorted (rank : α → β) (n len : ℕ) (xs : ℕ → α) : Prop :=
  ∀ i j, i < j → n ≤ j → j < len → rank (xs i) ≤ rank (xs j)

theorem TailSorted.rearranged {len : ℕ} {ys : ℕ → α} (h : TailSorted rank n len xs)
    (hys : Rearranged n xs ys) : TailSorted rank n len ys := by
  intro i j hij hnj hj
  rw [hys.eq_of_le hnj]
  by_cases hi : i < n
  · obtain ⟨k, hk, heq⟩ := hys.exists_eq hi
    rw [heq]
    exact h k j (by omega) hnj hj
  · rw [hys.eq_of_le (by omega)]
    exact h i j hij hnj hj

include hge in
/-- The loop: while `a` is not zero the heap is built, then its greatest entry goes to the end. -/
theorem sortLoop_spec {len : ℕ} (hn : 0 < n) (hlen : n ≤ len) (ha : a ≤ n)
    (hmem : ∀ i < len, xs i ∈ S) (hedges : ∀ p, a ≤ p → EdgesOk rank n xs p)
    (htail : TailSorted rank n len xs) :
    TailSorted rank 0 len (sortLoop ge xs a n) ∧ Rearranged len xs (sortLoop ge xs a n) := by
  have hkeep : ∀ {m : ℕ} {zs : ℕ → α}, Rearranged len xs zs → m ≤ len → ∀ i < m, zs i ∈ S := by
    intro m zs hzs hm i hi
    obtain ⟨j, hj, heq⟩ := hzs.exists_eq (lt_of_lt_of_le hi hm)
    exact heq ▸ hmem j hj
  induction hk : a + n using Nat.strongRecOn generalizing xs a n with
  | _ k ih =>
    rw [sortLoop]
    split_ifs with hbuild htake
    · obtain ⟨hsift, hperm⟩ := siftDown_edges hge (fun i hi => hmem i (by omega))
        (show a - 1 < n by omega) (fun p hp => hedges p (by omega))
      have hall := hperm.mono hlen
      have hnext := ih (a - 1 + n) (by omega) hn hlen (by omega) (hkeep hall le_rfl) hsift
        (htail.rearranged hperm) (fun {m} {zs} hzs => hkeep (hall.trans hzs)) rfl
      exact ⟨hnext.1, hall.trans hnext.2⟩
    · -- the root goes behind the smaller heap
      have ha0 : a = 0 := not_not.mp hbuild
      subst ha0
      have hroot : ∀ k < n, rank (xs k) ≤ rank (xs 0) :=
        fun k hk => rank_le_root (fun p => hedges p (Nat.zero_le p)) hk
      have hswap : Rearranged n xs (swapAt xs 0 (n - 1)) := .swap xs hn (by omega)
      have hlast : TailSorted rank (n - 1) len (swapAt xs 0 (n - 1)) := by
        intro i j hij hnj hj
        rcases Nat.eq_or_lt_of_le hnj with rfl | hlt
        · obtain ⟨l, hl, heq⟩ := hswap.exists_eq (show i < n by omega)
          rw [heq, swapAt_right]
          exact hroot l hl
        · exact htail.rearranged hswap i j hij (by omega) hj
      have hbelow : ∀ p, 0 < p → EdgesOk rank (n - 1) (swapAt xs 0 (n - 1)) p := by
        intro p hp i hi hpos hparent
        rw [swapAt_of_ne _ (by omega) (by omega), swapAt_of_ne _ (by omega) (by omega)]
        exact hedges p (Nat.zero_le p) i (by omega) hpos hparent
      obtain ⟨hsift, hperm⟩ := siftDown_edges hge (hkeep (hswap.mono hlen) (by omega))
        (show 0 < n - 1 by omega) hbelow
      have hall := (hswap.mono hlen).trans (hperm.mono (by omega))
      have hnext := ih (0 + (n - 1)) (by omega) (by omega) (by omega) (Nat.zero_le _)
        (hkeep hall le_rfl) hsift (hlast.rearranged hperm)
        (fun {m} {zs} hzs => hkeep (hall.trans hzs)) rfl
      exact ⟨hnext.1, hall.trans hnext.2⟩
    · refine ⟨fun i j hij _ hj => htail i j hij (by omega) hj, .refl len xs⟩

include hge in
/-- The sorted array has the same entries, in their order. -/
theorem sort_spec (hmem : ∀ i < n, xs i ∈ S) :
    (∀ i j, i < j → j < n → rank (sort ge xs n i) ≤ rank (sort ge xs n j)) ∧
      Rearranged n xs (sort ge xs n) := by
  rw [sort]
  split_ifs with hsmall
  · exact ⟨fun i j hij hj => by omega, .refl n xs⟩
  · -- the nodes from the middle on have no children
    have h := sortLoop_spec hge (a := n / 2) (show 0 < n by omega) le_rfl (by omega)
      hmem (fun p hp i hi hpos hparent => by omega) (fun i j _ hnj hj => by omega)
    exact ⟨fun i j hij hj => h.1 i j hij (Nat.zero_le j) hj, h.2⟩

section List

variable [Inhabited α] {l : List α} (hl : ∀ x ∈ l, x ∈ S)

omit hS in
include hge hl in
theorem sortList_spec : (sortList ge l).Perm l ∧
    (sortList ge l).Pairwise fun x z => rank x ≤ rank z := by
  have hgetD : ∀ i < l.length, l.getD i default ∈ l := by
    intro i hi
    rw [List.getD_eq_getElem _ _ hi]
    exact List.getElem_mem hi
  have hself : (List.range l.length).map (fun i => l.getD i default) = l := by
    refine List.ext_getElem (by simp) fun i hi hi' => ?_
    rw [List.getElem_map, List.getElem_range, List.getD_eq_getElem _ _ hi']
  obtain ⟨hsorted, hperm⟩ := sort_spec hge (n := l.length)
    (fun i hi => hl _ (hgetD i hi))
  refine ⟨?_, ?_⟩
  · have h := hperm.perm
    rwa [hself] at h
  · refine List.pairwise_map.mpr (List.pairwise_lt_range.imp_of_mem fun {i j} _ hj hij => ?_)
    exact hsorted i j hij (List.mem_range.mp hj)

end List

end Heap

end Subvol.Lib.HeapSort

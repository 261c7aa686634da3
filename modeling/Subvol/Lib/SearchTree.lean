import Mathlib.Data.List.Pairwise
import Mathlib.Order.Cover
import Mathlib.Tactic.Common

/-!
# Search trees of uniform depth

A tree of depth `0` is a leaf, and a deeper tree is a list of subtrees with their ranges. The ranges
of a valid tree tile that of the whole tree without a gap. The search for a place goes down into
the first subtree that does not end before it, and in a valid tree it ends at the leaf whose range
holds the place, with all keys of other leaves outside this range.

## Main definitions

* `Branch`, `SearchTree`, `SearchTree.search`.
* `Tiles`, `SearchTree.Valid`.
* `SearchTree.keys`: the keys of the leaves, in order.

## Main results

* `SearchTree.Valid.pairwise`: the keys are in order.
* `SearchTree.Valid.search`: the leaf that a search ends at.
-/

namespace Subvol.Lib

/-- A subtree with its range. -/
structure Branch (P T : Type*) where
  minKey : P
  maxKey : P
  child : T

/-- Trees of a depth over leaves of type `L`. -/
def SearchTree (P L : Type) : ℕ → Type
  | 0 => L
  | d + 1 => List (Branch P (SearchTree P L d))

variable {P L K ε : Type}

/-- The subtrees below the root. -/
def SearchTree.branches {d : ℕ} (t : SearchTree P L (d + 1)) : List (Branch P (SearchTree P L d)) :=
  t

/-- The leaf for a place; `missing` if all subtrees end before it, `outside` if the one found begins
behind it. -/
def SearchTree.search [LinearOrder P] (missing outside : ε) :
    (d : ℕ) → SearchTree P L d → P → Except ε L
  | 0, l, _ => .ok l
  | d + 1, t, p =>
    match t.branches.find? fun c => decide (p ≤ c.maxKey) with
    | none => .error missing
    | some c => if p < c.minKey then .error outside else search missing outside d c.child p

/-- The keys of all leaves. -/
def SearchTree.keys (leafKeys : L → List K) : (d : ℕ) → SearchTree P L d → List K
  | 0, l => leafKeys l
  | d + 1, t => t.branches.flatMap fun c => SearchTree.keys leafKeys d c.child

/-- Ranges that tile the range from `lo` to `hi`: each begins right behind the one before it. -/
def Tiles {T : Type*} [LinearOrder P] : P → P → List (Branch P T) → Prop
  | _, _, [] => False
  | lo, hi, [c] => c.minKey = lo ∧ c.maxKey = hi
  | lo, hi, c :: c' :: cs => c.minKey = lo ∧ c.maxKey ⋖ c'.minKey ∧ Tiles c'.minKey hi (c' :: cs)

/-- A valid tree over the range from `lo` to `hi`: its leaves have the ranges that lead to them. -/
def SearchTree.Valid [LinearOrder P] (leafOk : P → P → L → Prop) :
    (d : ℕ) → P → P → SearchTree P L d → Prop
  | 0, lo, hi, l => lo ≤ hi ∧ leafOk lo hi l
  | d + 1, lo, hi, t =>
    Tiles lo hi t.branches ∧
      ∀ c ∈ t.branches, SearchTree.Valid leafOk d c.minKey c.maxKey c.child

/-! ### Ranges -/

section Tiles

variable {T : Type*} [LinearOrder P] {lo hi : P} {cs : List (Branch P T)}

theorem Tiles.le (h : Tiles lo hi cs) (hcs : ∀ c ∈ cs, c.minKey ≤ c.maxKey) : lo ≤ hi := by
  induction cs generalizing lo with
  | nil => exact h.elim
  | cons c cs ih =>
    have hc := hcs c (List.mem_cons_self ..)
    cases cs with
    | nil =>
      obtain ⟨rfl, rfl⟩ := h
      exact hc
    | cons c' cs =>
      obtain ⟨rfl, hlt, h⟩ := h
      exact hc.trans (hlt.lt.le.trans (ih h fun x hx => hcs x (List.mem_cons_of_mem _ hx)))

/-- Every range is inside the whole one. -/
theorem Tiles.mem (h : Tiles lo hi cs) (hcs : ∀ c ∈ cs, c.minKey ≤ c.maxKey) :
    ∀ c ∈ cs, lo ≤ c.minKey ∧ c.maxKey ≤ hi := by
  induction cs generalizing lo with
  | nil => exact h.elim
  | cons c cs ih =>
    have hc := hcs c (List.mem_cons_self ..)
    intro x hx
    cases cs with
    | nil =>
      obtain rfl := List.mem_singleton.mp hx
      exact ⟨h.1.ge, h.2.le⟩
    | cons c' cs =>
      obtain ⟨rfl, hlt, h⟩ := h
      have hcs' : ∀ x ∈ c' :: cs, x.minKey ≤ x.maxKey :=
        fun x hx => hcs x (List.mem_cons_of_mem _ hx)
      rcases List.mem_cons.mp hx with rfl | hx
      · exact ⟨le_refl _, hlt.lt.le.trans (h.le hcs')⟩
      · exact ⟨hc.trans (hlt.lt.le.trans (ih h hcs' x hx).1), (ih h hcs' x hx).2⟩

/-- The first range that does not end before a place holds it. -/
theorem Tiles.route (h : Tiles lo hi cs) (hcs : ∀ c ∈ cs, c.minKey ≤ c.maxKey) {p : P}
    (hlo : lo ≤ p) (hhi : p ≤ hi) :
    ∃ front c back, cs = front ++ c :: back ∧
      cs.find? (fun c => decide (p ≤ c.maxKey)) = some c ∧ c.minKey ≤ p ∧ p ≤ c.maxKey ∧
      (∀ x ∈ front, x.maxKey < c.minKey) ∧ ∀ x ∈ back, c.maxKey < x.minKey := by
  induction cs generalizing lo with
  | nil => exact h.elim
  | cons c cs ih =>
    have hcs' : ∀ x ∈ cs, x.minKey ≤ x.maxKey := fun x hx => hcs x (List.mem_cons_of_mem _ hx)
    by_cases hp : p ≤ c.maxKey
    · have hmin : c.minKey = lo := by
        cases cs with
        | nil => exact h.1
        | cons c' cs => exact h.1
      refine ⟨[], c, cs, rfl, ?_, hmin ▸ hlo, hp, by simp, ?_⟩
      · rw [List.find?_cons_of_pos (by simpa using hp)]
      · intro x hx
        cases cs with
        | nil => cases hx
        | cons c' cs =>
          obtain ⟨-, hlt, h⟩ := h
          exact hlt.lt.trans_le (h.mem hcs' x hx).1
    · cases cs with
      | nil =>
        obtain ⟨-, rfl⟩ := h
        exact absurd hhi hp
      | cons c' cs =>
        obtain ⟨-, hlt, h⟩ := h
        have hlo' : c'.minKey ≤ p := hlt.ge_of_gt (not_le.mp hp)
        obtain ⟨front, x, back, hsplit, hfind, hmin, hmax, hfront, hback⟩ := ih h hcs' hlo'
        have hx : x ∈ c' :: cs := by
          rw [hsplit]
          exact List.mem_append_right _ (List.mem_cons_self ..)
        refine ⟨c :: front, x, back, by rw [hsplit]; rfl, ?_, hmin, hmax, ?_, hback⟩
        · rw [List.find?_cons_of_neg (by simpa using hp)]
          exact hfind
        · intro y hy
          rcases List.mem_cons.mp hy with rfl | hy
          · exact hlt.lt.trans_le (h.mem hcs' x hx).1
          · exact hfront y hy

/-- A branch ends before a later one begins. -/
theorem Tiles.pairwise (h : Tiles lo hi cs) (hcs : ∀ c ∈ cs, c.minKey ≤ c.maxKey) :
    cs.Pairwise fun c c' => c.maxKey < c'.minKey := by
  induction cs generalizing lo with
  | nil => exact List.Pairwise.nil
  | cons c cs ih =>
    have hcs' : ∀ x ∈ cs, x.minKey ≤ x.maxKey := fun x hx => hcs x (List.mem_cons_of_mem _ hx)
    cases cs with
    | nil => exact List.pairwise_singleton _ _
    | cons c' cs =>
      obtain ⟨-, hlt, h⟩ := h
      exact List.pairwise_cons.mpr ⟨fun x hx => hlt.lt.trans_le (h.mem hcs' x hx).1, ih h hcs'⟩

end Tiles

/-! ### Valid trees -/

namespace SearchTree

variable [LinearOrder P] {leafKeys : L → List K} {pos : K → P} {R : K → K → Prop}
  {leafOk : P → P → L → Prop}

theorem Valid.le {d : ℕ} {lo hi : P} {t : SearchTree P L d} (h : Valid leafOk d lo hi t) :
    lo ≤ hi := by
  induction d generalizing lo hi with
  | zero => exact h.1
  | succ d ih => exact h.1.le fun c hc => ih (h.2 c hc)

theorem Valid.mem_keys (hleaf : ∀ lo hi l, leafOk lo hi l → ∀ k ∈ leafKeys l,
      lo ≤ pos k ∧ pos k ≤ hi) {d : ℕ} {lo hi : P} {t : SearchTree P L d}
    (h : Valid leafOk d lo hi t) : ∀ k ∈ keys leafKeys d t, lo ≤ pos k ∧ pos k ≤ hi := by
  induction d generalizing lo hi with
  | zero => exact hleaf lo hi t h.2
  | succ d ih =>
    intro k hk
    obtain ⟨c, hc, hk⟩ := List.mem_flatMap.mp hk
    have hrange := h.1.mem (fun c hc => (h.2 c hc).le) c hc
    have hkey := ih (h.2 c hc) k hk
    exact ⟨hrange.1.trans hkey.1, hkey.2.trans hrange.2⟩

/-- The keys of a valid tree are in order. -/
theorem Valid.pairwise (hleaf : ∀ lo hi l, leafOk lo hi l → ∀ k ∈ leafKeys l,
      lo ≤ pos k ∧ pos k ≤ hi) (hR : ∀ k k', pos k < pos k' → R k k')
    (hsorted : ∀ lo hi l, leafOk lo hi l → (leafKeys l).Pairwise R) {d : ℕ} {lo hi : P}
    {t : SearchTree P L d} (h : Valid leafOk d lo hi t) : (keys leafKeys d t).Pairwise R := by
  induction d generalizing lo hi with
  | zero => exact hsorted lo hi t h.2
  | succ d ih =>
    refine List.pairwise_flatMap.mpr ⟨fun c hc => ih (h.2 c hc), ?_⟩
    have hpair := h.1.pairwise fun c hc => (h.2 c hc).le
    refine hpair.imp_of_mem fun hc hc' hlt k hk k' hk' => ?_
    refine hR k k' ?_
    exact ((h.2 _ hc).mem_keys hleaf k hk).2.trans_lt
      (hlt.trans_le ((h.2 _ hc').mem_keys hleaf k' hk').1)

/-- A search ends at a leaf whose range holds the place, and the keys of the other leaves lie before
and behind that range. -/
theorem Valid.search (hleaf : ∀ lo hi l, leafOk lo hi l → ∀ k ∈ leafKeys l,
      lo ≤ pos k ∧ pos k ≤ hi) (missing outside : ε) {d : ℕ} {lo hi : P} {t : SearchTree P L d}
    (h : Valid leafOk d lo hi t) {p : P} (hlo : lo ≤ p) (hhi : p ≤ hi) :
    ∃ l lo' hi' front back, SearchTree.search missing outside d t p = .ok l ∧ leafOk lo' hi' l ∧
      lo' ≤ p ∧ p ≤ hi' ∧ lo ≤ lo' ∧ hi' ≤ hi ∧
      keys leafKeys d t = front ++ leafKeys l ++ back ∧
      (∀ k ∈ front, pos k < lo') ∧ ∀ k ∈ back, hi' < pos k := by
  induction d generalizing lo hi with
  | zero =>
    exact ⟨t, lo, hi, [], [], rfl, h.2, hlo, hhi, le_refl _, le_refl _, by simp [keys], by simp,
      by simp⟩
  | succ d ih =>
    have hle : ∀ c ∈ t.branches, c.minKey ≤ c.maxKey :=
      fun c hc => (h.2 c hc).le
    obtain ⟨before, c, behind, hsplit, hfind, hmin, hmax, hbefore, hbehind⟩ :=
      h.1.route hle hlo hhi
    have hmem : ∀ x, x ∈ before ∨ x = c ∨ x ∈ behind → x ∈ t.branches := by
      intro x hx
      rw [hsplit]
      simpa using hx
    have hc := hmem c (.inr (.inl rfl))
    obtain ⟨l, lo', hi', front, back, hsearch, hok, hlo', hhi', hin, hin', hkeys, hfront, hback⟩ :=
      ih (h.2 c hc) hmin hmax
    have hrange := h.1.mem hle c hc
    refine ⟨l, lo', hi', before.flatMap (fun c => keys leafKeys d c.child) ++ front,
      back ++ behind.flatMap (fun c => keys leafKeys d c.child), ?_, hok, hlo', hhi',
      hrange.1.trans hin, hin'.trans hrange.2, ?_, ?_, ?_⟩
    · rw [SearchTree.search, hfind]
      dsimp only
      rw [if_neg (not_lt.mpr hmin)]
      exact hsearch
    · rw [keys, hsplit, List.flatMap_append, List.flatMap_cons, hkeys]
      simp only [List.append_assoc]
    · intro k hk
      rcases List.mem_append.mp hk with hk | hk
      · obtain ⟨x, hx, hk⟩ := List.mem_flatMap.mp hk
        have hkey := (h.2 x (hmem x (.inl hx))).mem_keys hleaf k hk
        exact hkey.2.trans_lt ((hbefore x hx).trans_le hin)
      · exact hfront k hk
    · intro k hk
      rcases List.mem_append.mp hk with hk | hk
      · exact hback k hk
      · obtain ⟨x, hx, hk⟩ := List.mem_flatMap.mp hk
        have hkey := (h.2 x (hmem x (.inr (.inr hx)))).mem_keys hleaf k hk
        exact hin'.trans_lt ((hbehind x hx).trans_le hkey.1)

end SearchTree

end Subvol.Lib

import Mathlib.Algebra.Order.Ring.Nat
import Mathlib.Data.List.Sort
import Mathlib.Order.Lattice
import Mathlib.Tactic.Common

/-!
# Merging sorted runs

A k-way merge as a small array of runs does it: the runs are kept in the order of their first
elements, the first element of the first run is taken, and that run is sifted to its new place.
Runs are not empty, and elements are compared by a rank `f` in a linear order.

## Main definitions

* `sift`, `sortRuns`, `advance`: the moves of the array.
* `drain`, `merge`: the elements in the order in which they are taken.
* `lastOfGroup`: the last element of every block of elements with one label.

## Main results

* `merge_perm`, `merge_pairwise`: the merge is the sorted arrangement of all elements.
* `merge_filter`: elements whose ranks increase along the runs keep their order.
* `filter_lastOfGroup`: of the elements with one label the last one is left.
* `mem_lastOfGroup_iff_forall`: this is the one with the highest rank.
* `drainPeek_eq`, `drainNewest_eq`: two ways to look ahead for the last one.
-/

namespace Subvol.Lib

variable {α β : Type*} [LinearOrder β] (f : α → β)

/-- A run: its first element and the rest. -/
abbrev MergeRun (α : Type*) := α × List α

/-- The elements of a run. -/
def MergeRun.elems (r : MergeRun α) : List α := r.1 :: r.2

/-- The run of elements, if there are any. -/
def runOf : List α → Option (MergeRun α)
  | [] => none
  | a :: l => some (a, l)

/-- The number of elements of runs. -/
def runsSize (runs : List (MergeRun α)) : ℕ := (runs.map fun r => r.2.length + 1).sum

/-- Put a run in front of others and swap it behind those with a smaller first element. -/
def sift (x : MergeRun α) : List (MergeRun α) → List (MergeRun α)
  | [] => [x]
  | y :: rest => if f y.1 < f x.1 then y :: sift x rest else x :: y :: rest

/-- Put runs in the order of their first elements, from the last one on. -/
def sortRuns : List (MergeRun α) → List (MergeRun α)
  | [] => []
  | x :: rest => sift f x (sortRuns rest)

/-- Take the first element off the first run. -/
def advance : List (MergeRun α) → List (MergeRun α)
  | [] => []
  | (_, []) :: rest => rest
  | (_, b :: l) :: rest => sift f (b, l) rest

/-- The elements in the order in which they are taken, at most `n` of them. -/
def drain : ℕ → List (MergeRun α) → List α
  | 0, _ => []
  | _, [] => []
  | n + 1, r :: rest => r.1 :: drain n (advance f (r :: rest))

/-- The merge of runs. -/
def merge (runs : List (MergeRun α)) : List α := drain f (runsSize runs) (sortRuns f runs)

/-! ### The array of runs -/

theorem runOf_eq_some_iff {l : List α} {r : MergeRun α} : runOf l = some r ↔ l = r.elems := by
  obtain ⟨a, m⟩ := r
  cases l with
  | nil => simp [runOf, MergeRun.elems]
  | cons b l => simp [runOf, MergeRun.elems]

theorem flatMap_filterMap_runOf {γ : Type*} (g : γ → List α) (l : List γ) :
    (l.filterMap fun c => runOf (g c)).flatMap MergeRun.elems = l.flatMap g := by
  induction l with
  | nil => rfl
  | cons c l ih =>
    rw [List.filterMap_cons, List.flatMap_cons, ← ih]
    cases g c with
    | nil => rfl
    | cons a m => rfl

theorem sift_perm (x : MergeRun α) (rest : List (MergeRun α)) :
    (sift f x rest).Perm (x :: rest) := by
  induction rest with
  | nil => rfl
  | cons y rest ih =>
    rw [sift]
    split_ifs
    · exact (ih.cons y).trans (List.Perm.swap x y rest)
    · rfl

theorem sortRuns_perm (runs : List (MergeRun α)) : (sortRuns f runs).Perm runs := by
  induction runs with
  | nil => rfl
  | cons x rest ih => exact (sift_perm f x _).trans (ih.cons x)

theorem runsSize_perm {runs runs' : List (MergeRun α)} (h : runs.Perm runs') :
    runsSize runs = runsSize runs' :=
  (h.map _).sum_nat

@[simp] theorem runsSize_cons (r : MergeRun α) (rest : List (MergeRun α)) :
    runsSize (r :: rest) = r.2.length + 1 + runsSize rest := by
  simp [runsSize]

theorem runsSize_advance (r : MergeRun α) (rest : List (MergeRun α)) :
    runsSize (advance f (r :: rest)) + 1 = runsSize (r :: rest) := by
  obtain ⟨a, l⟩ := r
  cases l with
  | nil => simp [advance]; omega
  | cons b l =>
    rw [advance, runsSize_perm (sift_perm f _ _)]
    simp
    omega

theorem advance_elems (r : MergeRun α) (rest : List (MergeRun α)) :
    ((r :: rest).flatMap MergeRun.elems).Perm
      (r.1 :: (advance f (r :: rest)).flatMap MergeRun.elems) := by
  obtain ⟨a, l⟩ := r
  cases l with
  | nil => simp [advance, MergeRun.elems]
  | cons b l =>
    rw [advance]
    have hperm := ((sift_perm f (b, l) rest).flatMap_right MergeRun.elems).symm
    simpa [MergeRun.elems] using hperm

/-- The first elements of the runs are in order. -/
def HeadsSorted (runs : List (MergeRun α)) : Prop := runs.Pairwise fun x y => f x.1 ≤ f y.1

variable {f}

theorem HeadsSorted.sift {x : MergeRun α} {rest : List (MergeRun α)} (h : HeadsSorted f rest) :
    HeadsSorted f (sift f x rest) := by
  induction rest with
  | nil => exact List.pairwise_singleton _ x
  | cons y rest ih =>
    obtain ⟨hy, hrest⟩ := List.pairwise_cons.mp h
    rw [Lib.sift]
    split_ifs with hlt
    · refine List.pairwise_cons.mpr ⟨?_, ih hrest⟩
      intro z hz
      rcases List.mem_cons.mp ((sift_perm f x rest).mem_iff.mp hz) with rfl | hz
      · exact le_of_lt hlt
      · exact hy z hz
    · refine List.pairwise_cons.mpr ⟨?_, h⟩
      intro z hz
      rcases List.mem_cons.mp hz with rfl | hz
      · exact not_lt.mp hlt
      · exact (not_lt.mp hlt).trans (hy z hz)

theorem headsSorted_sortRuns (runs : List (MergeRun α)) : HeadsSorted f (sortRuns f runs) := by
  induction runs with
  | nil => exact List.Pairwise.nil
  | cons x rest ih => exact ih.sift

theorem HeadsSorted.advance {runs : List (MergeRun α)} (h : HeadsSorted f runs) :
    HeadsSorted f (advance f runs) := by
  cases runs with
  | nil => exact h
  | cons r rest =>
    obtain ⟨a, l⟩ := r
    have hrest : HeadsSorted f rest := (List.pairwise_cons.mp h).2
    cases l with
    | nil => exact hrest
    | cons b l => exact hrest.sift

/-- The elements of every run are in order. -/
def RunsSorted (f : α → β) (runs : List (MergeRun α)) : Prop :=
  ∀ r ∈ runs, (MergeRun.elems r).Pairwise fun x y => f x ≤ f y

theorem RunsSorted.perm {runs runs' : List (MergeRun α)} (h : RunsSorted f runs)
    (hp : runs'.Perm runs) : RunsSorted f runs' :=
  fun r hr => h r (hp.mem_iff.mp hr)

/-- Taking an element leaves the rest of every run. -/
theorem advance_labels {R : α → α → Prop} {runs : List (MergeRun α)}
    (h : ∀ r ∈ runs, (MergeRun.elems r).Pairwise R) :
    ∀ r ∈ advance f runs, (MergeRun.elems r).Pairwise R := by
  cases runs with
  | nil => exact h
  | cons r rest =>
    obtain ⟨a, l⟩ := r
    have hrest : ∀ r ∈ rest, (MergeRun.elems r).Pairwise R :=
      fun r hr => h r (List.mem_cons_of_mem _ hr)
    cases l with
    | nil => exact hrest
    | cons b l =>
      have hfirst := h (a, b :: l) (List.mem_cons_self ..)
      intro r hr
      rcases List.mem_cons.mp ((sift_perm f _ _).mem_iff.mp hr) with rfl | hr
      · exact (List.pairwise_cons.mp hfirst).2
      · exact hrest r hr

theorem RunsSorted.advance {runs : List (MergeRun α)} (h : RunsSorted f runs) :
    RunsSorted f (advance f runs) :=
  advance_labels h

/-- The first element of the first run is the smallest one. -/
theorem head_le {r : MergeRun α} {rest : List (MergeRun α)} (hs : HeadsSorted f (r :: rest))
    (hr : RunsSorted f (r :: rest)) :
    ∀ y ∈ (advance f (r :: rest)).flatMap MergeRun.elems, f r.1 ≤ f y := by
  intro y hy
  have hmem : y ∈ r.1 :: (advance f (r :: rest)).flatMap MergeRun.elems :=
    List.mem_cons_of_mem _ hy
  obtain ⟨s, hs', hys⟩ := List.mem_flatMap.mp ((advance_elems f r rest).mem_iff.mpr hmem)
  have hhead : f r.1 ≤ f s.1 := by
    rcases List.mem_cons.mp hs' with rfl | hs'
    · exact le_rfl
    · exact (List.pairwise_cons.mp hs).1 s hs'
  rcases List.mem_cons.mp hys with rfl | hys
  · exact hhead
  · exact hhead.trans ((List.pairwise_cons.mp (hr s hs')).1 y hys)

/-! ### The elements taken -/

theorem drain_perm {n : ℕ} {runs : List (MergeRun α)} (hn : runsSize runs ≤ n) :
    (drain f n runs).Perm (runs.flatMap MergeRun.elems) := by
  induction n generalizing runs with
  | zero =>
    cases runs with
    | nil => rfl
    | cons r rest =>
      rw [runsSize_cons] at hn
      omega
  | succ n ih =>
    cases runs with
    | nil => rfl
    | cons r rest =>
      have hsize := runsSize_advance f r rest
      exact ((ih (by omega)).cons r.1).trans (advance_elems f r rest).symm

theorem drain_pairwise {n : ℕ} {runs : List (MergeRun α)} (hn : runsSize runs ≤ n)
    (hs : HeadsSorted f runs) (hr : RunsSorted f runs) :
    (drain f n runs).Pairwise fun x y => f x ≤ f y := by
  induction n generalizing runs with
  | zero => exact List.Pairwise.nil
  | succ n ih =>
    cases runs with
    | nil => exact List.Pairwise.nil
    | cons r rest =>
      have hsize := runsSize_advance f r rest
      have hn' : runsSize (advance f (r :: rest)) ≤ n := by omega
      refine List.pairwise_cons.mpr ⟨?_, ih hn' hs.advance hr.advance⟩
      intro y hy
      exact head_le hs hr y ((drain_perm hn').mem_iff.mp hy)

/-- What is taken next is the first element of the first run. -/
theorem head?_drain {n : ℕ} {runs : List (MergeRun α)} (hn : runsSize runs ≤ n) :
    (drain f n runs).head? = runs.head?.map Prod.fst := by
  cases runs with
  | nil => cases n <;> rfl
  | cons r rest =>
    cases n with
    | zero =>
      rw [runsSize_cons] at hn
      omega
    | succ n => rfl

theorem runsSize_sortRuns (runs : List (MergeRun α)) :
    runsSize (sortRuns f runs) = runsSize runs :=
  runsSize_perm (sortRuns_perm f runs)

theorem merge_perm (runs : List (MergeRun α)) :
    (merge f runs).Perm (runs.flatMap MergeRun.elems) :=
  (drain_perm (runsSize_sortRuns runs).le).trans
    ((sortRuns_perm f runs).flatMap_right MergeRun.elems)

theorem merge_pairwise {runs : List (MergeRun α)} (h : RunsSorted f runs) :
    (merge f runs).Pairwise fun x y => f x ≤ f y :=
  drain_pairwise (runsSize_sortRuns runs).le (headsSorted_sortRuns runs)
    (h.perm (sortRuns_perm f runs))

/-- Elements whose ranks increase along the runs come out in the order of the runs. -/
theorem merge_filter {runs : List (MergeRun α)} (h : RunsSorted f runs) (p : α → Bool)
    (hp : ((runs.flatMap MergeRun.elems).filter p).Pairwise fun x y => f x < f y) :
    (merge f runs).filter p = (runs.flatMap MergeRun.elems).filter p := by
  have hperm := (merge_perm (f := f) runs).filter p
  apply List.Perm.eq_of_pairwise _ ((merge_pairwise h).filter p) (hp.imp le_of_lt) hperm
  intro a b ha hb hab hba
  have ha' := hperm.mem_iff.mp ha
  by_contra hne
  have hlt := List.Pairwise.forall_of_forall_of_flip (l := (runs.flatMap MergeRun.elems).filter p)
    (R := fun x y => x = y ∨ f x < f y ∨ f y < f x) (fun x _ => Or.inl rfl)
    (hp.imp fun h => Or.inr (Or.inl h)) (hp.imp fun h => Or.inr (Or.inr h)) ha' hb
  rcases hlt with heq | hlt | hlt
  · exact hne heq
  · exact absurd hba (not_le.mpr hlt)
  · exact absurd hab (not_le.mpr hlt)

/-! ### Blocks of one label -/

section Blocks

variable {γ : Type*} [LinearOrder γ] {g : α → γ}

/-- The last element of every block of neighbours with one label. -/
def lastOfGroup (g : α → γ) : List α → List α
  | [] => []
  | [a] => [a]
  | a :: b :: l => if g a = g b then lastOfGroup g (b :: l) else a :: lastOfGroup g (b :: l)

theorem lastOfGroup_cons (a : α) (l : List α) : lastOfGroup g (a :: l) =
    if l.head?.map g = some (g a) then lastOfGroup g l else a :: lastOfGroup g l := by
  cases l with
  | nil => rfl
  | cons b l => simp [lastOfGroup, eq_comm]

theorem lastOfGroup_sublist (l : List α) : (lastOfGroup g l).Sublist l := by
  induction l with
  | nil => exact List.Sublist.refl _
  | cons a l ih =>
    rw [lastOfGroup_cons]
    split_ifs
    · exact ih.cons a
    · exact ih.cons_cons a

/-- The labels of the last elements increase when the labels are in order. -/
theorem lastOfGroup_pairwise {l : List α} (h : l.Pairwise fun x y => g x ≤ g y) :
    (lastOfGroup g l).Pairwise fun x y => g x < g y := by
  induction l with
  | nil => exact List.Pairwise.nil
  | cons a l ih =>
    obtain ⟨ha, hl⟩ := List.pairwise_cons.mp h
    rw [lastOfGroup_cons]
    split_ifs with hsame
    · exact ih hl
    · refine List.pairwise_cons.mpr ⟨?_, ih hl⟩
      intro y hy
      cases l with
      | nil => cases hy
      | cons b l =>
        have hb : g a < g b := lt_of_le_of_ne (ha b (List.mem_cons_self ..)) (by
          simpa [eq_comm] using hsame)
        rcases List.mem_cons.mp ((lastOfGroup_sublist _).subset hy) with rfl | hy
        · exact hb
        · exact lt_of_lt_of_le hb ((List.pairwise_cons.mp hl).1 y hy)

/-- Of the elements with label `c` the last one is left. -/
theorem filter_lastOfGroup {l : List α} (h : l.Pairwise fun x y => g x ≤ g y) (c : γ) :
    (lastOfGroup g l).filter (fun x => g x = c) =
      (l.filter fun x => g x = c).getLast?.toList := by
  induction l with
  | nil => rfl
  | cons a l ih =>
    obtain ⟨ha, hl⟩ := List.pairwise_cons.mp h
    rw [lastOfGroup_cons]
    split_ifs with hsame
    · -- `a` is followed by an element of its block
      rw [ih hl]
      by_cases hac : g a = c
      · obtain ⟨b, hb, hba⟩ := Option.map_eq_some_iff.mp hsame
        have hne : l.filter (fun x => g x = c) ≠ [] := by
          apply List.ne_nil_of_mem (a := b)
          simp [List.mem_of_mem_head? hb, hba, hac]
        rw [List.filter_cons_of_pos (by simpa using hac)]
        congr 1
        obtain ⟨y, hy⟩ := Option.isSome_iff_exists.mp (List.getLast?_isSome.mpr hne)
        rw [List.getLast?_cons, hy]
        rfl
      · rw [List.filter_cons_of_neg (by simpa using hac)]
    · by_cases hac : g a = c
      · -- nothing behind `a` has its label
        have hnil : l.filter (fun x => g x = c) = [] := by
          apply List.filter_eq_nil_iff.mpr
          intro y hy hyc
          simp only [decide_eq_true_eq] at hyc
          cases l with
          | nil => cases hy
          | cons b l =>
            have hb : g a ≠ g b := by simpa [eq_comm] using hsame
            have hab := ha b (List.mem_cons_self ..)
            have hby : g b ≤ g y := by
              rcases List.mem_cons.mp hy with rfl | hy
              · exact le_rfl
              · exact (List.pairwise_cons.mp hl).1 y hy
            exact hb (le_antisymm hab (hby.trans (hyc.trans hac.symm).le))
        rw [List.filter_cons_of_pos (by simpa using hac), ih hl, hnil,
          List.filter_cons_of_pos (by simpa using hac), hnil]
        rfl
      · rw [List.filter_cons_of_neg (by simpa using hac), ih hl,
          List.filter_cons_of_neg (by simpa using hac)]

/-- An element is left when it is the last one of its label. -/
theorem mem_lastOfGroup_iff {l : List α} (h : l.Pairwise fun x y => g x ≤ g y) {x : α} :
    x ∈ lastOfGroup g l ↔ (l.filter fun y => g y = g x).getLast? = some x := by
  have hmem : x ∈ lastOfGroup g l ↔ x ∈ (lastOfGroup g l).filter fun y => g y = g x := by
    simp [List.mem_filter]
  rw [hmem, filter_lastOfGroup h, Option.mem_toList]

/-- In a list sorted by `f`, an element is left when it has the highest rank of its label. -/
theorem mem_lastOfGroup_iff_forall {l : List α} (h : l.Pairwise fun x y => f x ≤ f y)
    (hmono : ∀ x y, f x ≤ f y → g x ≤ g y) (hinj : ∀ x ∈ l, ∀ y ∈ l, f x = f y → x = y) {x : α} :
    x ∈ lastOfGroup g l ↔ x ∈ l ∧ ∀ y ∈ l, g y = g x → f y ≤ f x := by
  have hg : l.Pairwise fun x y => g x ≤ g y := h.imp fun hle => hmono _ _ hle
  have hlast : ∀ z, (l.filter fun y => g y = g x).getLast? = some z →
      ∀ y ∈ l, g y = g x → f y ≤ f z := by
    intro z hz y hy hyx
    obtain ⟨front, hfront⟩ := List.getLast?_eq_some_iff.mp hz
    have hsorted := h.filter fun y => decide (g y = g x)
    have hmem : y ∈ l.filter fun y => decide (g y = g x) :=
      List.mem_filter.mpr ⟨hy, by simpa using hyx⟩
    rw [hfront] at hsorted hmem
    rcases List.mem_append.mp hmem with hmem | hmem
    · exact (List.pairwise_append.mp hsorted).2.2 y hmem z (List.mem_singleton_self z)
    · exact (congrArg f (List.mem_singleton.mp hmem)).le
  rw [mem_lastOfGroup_iff hg]
  constructor
  · intro hx
    exact ⟨(List.mem_filter.mp (List.mem_of_getLast? hx)).1, hlast x hx⟩
  · rintro ⟨hx, hmax⟩
    have hne : l.filter (fun y => g y = g x) ≠ [] :=
      List.ne_nil_of_mem (List.mem_filter.mpr ⟨hx, by simp⟩)
    obtain ⟨z, hz⟩ := Option.isSome_iff_exists.mp (List.getLast?_isSome.mpr hne)
    obtain ⟨hzl, hzx⟩ := List.mem_filter.mp (List.mem_of_getLast? hz)
    have heq : f x = f z :=
      le_antisymm (hlast z hz x hx rfl) (hmax z hzl (by simpa using hzx))
    rw [hz, hinj x hx z hzl heq]

variable (f) in
/-- Take the elements and keep those that pass `q` and are not followed by one with their label:
the next element is looked at once the one before has been taken. -/
def drainPeek (q : α → Bool) (g : α → γ) : ℕ → List (MergeRun α) → List α
  | 0, _ => []
  | _, [] => []
  | n + 1, r :: rest =>
    let next := advance f (r :: rest)
    if q r.1 ∧ next.head?.map (fun s => g s.1) ≠ some (g r.1) then r.1 :: drainPeek q g n next
    else drainPeek q g n next

variable (f) in
/-- Take the elements and keep those that pass `q` and do not have the label of the first element
of the second run. -/
def drainNewest (q : α → Bool) (g : α → γ) : ℕ → List (MergeRun α) → List α
  | 0, _ => []
  | _, [] => []
  | n + 1, r :: rest =>
    let next := advance f (r :: rest)
    if q r.1 ∧ rest.head?.map (fun s => g s.1) ≠ some (g r.1) then r.1 :: drainNewest q g n next
    else drainNewest q g n next

theorem drainPeek_eq (q : α → Bool) {n : ℕ} {runs : List (MergeRun α)} (hn : runsSize runs ≤ n) :
    drainPeek f q g n runs = (lastOfGroup g (drain f n runs)).filter q := by
  induction n generalizing runs with
  | zero => rfl
  | succ n ih =>
    cases runs with
    | nil => rfl
    | cons r rest =>
      have hsize := runsSize_advance f r rest
      have hn' : runsSize (advance f (r :: rest)) ≤ n := by omega
      have hhead : ((drain f n (advance f (r :: rest))).head?.map g) =
          (advance f (r :: rest)).head?.map fun s => g s.1 := by
        rw [head?_drain hn', Option.map_map]
        rfl
      simp only [drainPeek, drain, lastOfGroup_cons, hhead, ih hn']
      by_cases hsame : (advance f (r :: rest)).head?.map (fun s => g s.1) = some (g r.1)
      · simp [hsame]
      · by_cases hq : q r.1 <;> simp [hsame, hq]

/-- The element taken next comes from the second run, when it has the label of the one before and
the labels increase along the runs. -/
theorem head?_advance_label {r : MergeRun α} {rest : List (MergeRun α)}
    (hmono : ∀ x y, f x ≤ f y → g x ≤ g y) (hs : HeadsSorted f (r :: rest))
    (hr : RunsSorted f (r :: rest)) (hg : (MergeRun.elems r).Pairwise fun x y => g x < g y) :
    (advance f (r :: rest)).head?.map (fun s => g s.1) = some (g r.1) ↔
      rest.head?.map (fun s => g s.1) = some (g r.1) := by
  have hle := head_le hs hr
  obtain ⟨a, l⟩ := r
  cases l with
  | nil => rfl
  | cons b l =>
    have hab : g a < g b := (List.pairwise_cons.mp hg).1 b (List.mem_cons_self ..)
    cases rest with
    | nil => simp [advance, sift, hab.ne']
    | cons y rest =>
      simp only [advance, sift, List.head?_cons, Option.map_some, Option.some.injEq]
      split_ifs with hlt
      · simp
      · -- the element taken next is `b`, which is behind `a`
        have hby : g b ≤ g y.1 := hmono _ _ (not_lt.mp hlt)
        simp [hab.ne', (lt_of_lt_of_le hab hby).ne']

theorem drainNewest_eq (q : α → Bool) (hmono : ∀ x y, f x ≤ f y → g x ≤ g y) {n : ℕ}
    {runs : List (MergeRun α)} (hs : HeadsSorted f runs) (hr : RunsSorted f runs)
    (hg : ∀ r ∈ runs, (MergeRun.elems r).Pairwise fun x y => g x < g y) :
    drainNewest f q g n runs = drainPeek f q g n runs := by
  induction n generalizing runs with
  | zero => rfl
  | succ n ih =>
    cases runs with
    | nil => rfl
    | cons r rest =>
      have hlabel := head?_advance_label hmono hs hr (hg r (List.mem_cons_self ..))
      have hnext := ih hs.advance hr.advance (advance_labels hg)
      simp only [drainNewest, drainPeek, hlabel, ne_eq, hnext]

end Blocks

end Subvol.Lib

import Mathlib.Data.List.Basic
import Mathlib.Logic.Function.Basic
import Mathlib.Tactic.Common

/-!
# Labelled runs

Some places of a sequence carry a mark. A run is a maximal interval of places with one mark. A table
of intervals and a label at every place describe the runs when the label of a marked place is the
row of its run, the same along the run, and never zero.

## Main definitions

* `IsRun`: the interval `[s, e)` is a run of the mark `c`.
* `RunsOk`: the labels and the table describe the runs.
* `marksOf`, `labelsOf`: the sequences of a list.

## Main results

* `IsRun.join`: a new mark between two ends makes one run of both.
* `RunsOk.mark`: a new mark, with its run labelled and every other one left alone.
* `RunsOk.cons_none`, `RunsOk.append_block`: a table built from the back of a list.
-/

namespace Subvol.Lib

variable {α γ : Type*}

/-- The interval `[s, e)` is a maximal one with the mark `c`. -/
structure IsRun (marks : ℕ → Option γ) (c : γ) (s e : ℕ) : Prop where
  lt : s < e
  marked : ∀ k, s ≤ k → k < e → marks k = some c
  before : ∀ k, k + 1 = s → marks k ≠ some c
  behind : marks e ≠ some c

namespace IsRun

variable {marks : ℕ → Option γ} {c : γ} {s e i : ℕ}

/-- The run of a place ends behind it when nothing is marked there. -/
theorem end_eq (h : IsRun marks c s e) (hs : s ≤ i) (he : i < e) (hnone : marks (i + 1) = none) :
    e = i + 1 := by
  by_contra hne
  have hmark := h.marked (i + 1) (by omega) (by omega)
  rw [hnone] at hmark
  cases hmark

theorem start_eq (h : IsRun marks c s e) (hs : s ≤ i + 1) (he : i + 1 < e) (hnone : marks i = none) :
    s = i + 1 := by
  by_contra hne
  have hmark := h.marked i (by omega) (by omega)
  rw [hnone] at hmark
  cases hmark

/-- A run is left alone by a new mark that is not at one of its ends. -/
theorem update (h : IsRun marks c s e) (hi : marks i = none) {d : γ}
    (happart : d = c → i ≠ e ∧ i + 1 ≠ s) : IsRun (Function.update marks i (some d)) c s e := by
  have hkeep : ∀ k, (k = i → d ≠ c) → marks k ≠ some c →
      Function.update marks i (some d) k ≠ some c := by
    intro k hk hmark
    by_cases hki : k = i
    · rw [hki, Function.update_self]
      exact fun heq => hk hki (Option.some.inj heq)
    · rwa [Function.update_of_ne hki]
  refine ⟨h.lt, fun k hs he => ?_, fun k hk => ?_, ?_⟩
  · have hne : k ≠ i := by
      rintro rfl
      have hmark := h.marked k hs he
      rw [hi] at hmark
      cases hmark
    rw [Function.update_of_ne hne]
    exact h.marked k hs he
  · refine hkeep k (fun hki hd => (happart hd).2 (hki ▸ hk)) (h.before k hk)
  · exact hkeep e (fun hei hd => (happart hd).1 hei.symm) h.behind

/-- A new mark joins what ends before it and what starts behind it. -/
theorem join (hs : s ≤ i) (he : i < e) (hleft : ∀ k, s ≤ k → k < i → marks k = some c)
    (hbefore : ∀ k, k + 1 = s → marks k ≠ some c) (hright : ∀ k, i < k → k < e → marks k = some c)
    (hbehind : marks e ≠ some c) : IsRun (Function.update marks i (some c)) c s e := by
  refine ⟨by omega, fun k hsk hke => ?_, fun k hk => ?_, ?_⟩
  · by_cases hki : k = i
    · rw [hki, Function.update_self]
    · rw [Function.update_of_ne hki]
      rcases Nat.lt_or_gt_of_ne hki with hlt | hgt
      · exact hleft k hsk hlt
      · exact hright k hgt hke
  · rw [Function.update_of_ne (by omega)]
    exact hbefore k hk
  · rw [Function.update_of_ne (by omega)]
    exact hbehind

end IsRun

/-- The labels and the rows of the table describe the runs; rows are counted from `base`. -/
def RunsOk (base : ℕ) (marks : ℕ → Option γ) (labels : ℕ → ℕ) (rows : List (ℕ × ℕ)) : Prop :=
  ∀ i c, marks i = some c → labels i ≠ 0 ∧ ∃ s e, rows[labels i]? = some (base + s, base + e) ∧
    s ≤ i ∧ i < e ∧ IsRun marks c s e ∧ ∀ k, s ≤ k → k < e → labels k = labels i

namespace RunsOk

variable {base : ℕ} {marks : ℕ → Option γ} {labels : ℕ → ℕ} {rows : List (ℕ × ℕ)}

/-- A marked place lies in the row of its label. -/
theorem mem_row (h : RunsOk base marks labels rows) {k a b : ℕ} (hk : marks k ≠ none)
    (hrow : rows[labels k]? = some (base + a, base + b)) : a ≤ k ∧ k < b := by
  obtain ⟨c, hc⟩ := Option.ne_none_iff_exists'.mp hk
  obtain ⟨-, s, e, hrow', hs, he, -⟩ := h k c hc
  rw [hrow] at hrow'
  have hpair := Option.some.inj hrow'
  have hfst := congrArg Prod.fst hpair
  have hsnd := congrArg Prod.snd hpair
  dsimp only at hfst hsnd
  omega

/-- A new mark at `i`, when its run `[s, e)` is labelled with a row of its own and the places of the
other runs keep their labels and rows. -/
theorem mark (h : RunsOk base marks labels rows) {i s e q : ℕ} {c : γ} (hi : marks i = none)
    (hrun : IsRun (Function.update marks i (some c)) c s e) (hs : s ≤ i) (he : i < e) (hq : q ≠ 0)
    {labels' : ℕ → ℕ} {rows' : List (ℕ × ℕ)} (hrow : rows'[q]? = some (base + s, base + e))
    (hnew : ∀ k, s ≤ k → k < e → labels' k = q)
    (hold : ∀ k, ¬(s ≤ k ∧ k < e) → marks k ≠ none →
      labels' k = labels k ∧ rows'[labels k]? = rows[labels k]?) :
    RunsOk base (Function.update marks i (some c)) labels' rows' := by
  intro k d hk
  by_cases hin : s ≤ k ∧ k < e
  · have hd : d = c := Option.some.inj (hk.symm.trans (hrun.marked k hin.1 hin.2))
    subst hd
    rw [hnew k hin.1 hin.2]
    exact ⟨hq, s, e, hrow, hin.1, hin.2, hrun, hnew⟩
  · have hki : k ≠ i := by
      rintro rfl
      exact hin ⟨hs, he⟩
    rw [Function.update_of_ne hki] at hk
    obtain ⟨hlabel, a, b, hrowk, hak, hkb, hrunk, hsame⟩ := h k d hk
    -- a run that meets the new one would be part of it
    have hout : ∀ m, a ≤ m → m < b → ¬(s ≤ m ∧ m < e) := by
      intro m ham hmb hm
      have hmi : m ≠ i := by
        rintro rfl
        have hmark := hrunk.marked m ham hmb
        rw [hi] at hmark
        cases hmark
      have hd : d = c := by
        have hmark := hrun.marked m hm.1 hm.2
        rw [Function.update_of_ne hmi, hrunk.marked m ham hmb] at hmark
        exact Option.some.inj hmark
      subst hd
      have hle : a < s ∨ e ≤ b - 1 ∨ (s ≤ a ∧ b ≤ e) := by omega
      rcases hle with hlt | hle | hinside
      · refine hrun.before (s - 1) (by omega) ?_
        rw [Function.update_of_ne (by omega)]
        exact hrunk.marked _ (by omega) (by omega)
      · refine hrun.behind ?_
        rw [Function.update_of_ne (by omega)]
        exact hrunk.marked _ (by omega) (by omega)
      · exact hin ⟨by omega, by omega⟩
    have hkne : marks k ≠ none := by
      rw [hk]
      exact Option.some_ne_none d
    obtain ⟨hlabelk, hrowsk⟩ := hold k hin hkne
    have happart : c = d → i ≠ b ∧ i + 1 ≠ a := by
      rintro rfl
      have hlt := hrunk.lt
      refine ⟨fun hib => ?_, fun hia => ?_⟩
      · -- the place before the new mark would be in the new run
        refine hout (b - 1) (by omega) (by omega) ⟨?_, by omega⟩
        by_contra hsb
        have hsi : s = b := by omega
        refine hrun.before (b - 1) (by omega) ?_
        rw [Function.update_of_ne (by omega)]
        exact hrunk.marked _ (by omega) (by omega)
      · refine hout a (Nat.le_refl a) hlt ⟨by omega, ?_⟩
        by_contra hae
        have hea : e = a := by omega
        refine hrun.behind ?_
        rw [hea, Function.update_of_ne (by omega)]
        exact hrunk.marked _ (Nat.le_refl a) hlt
    refine ⟨by rwa [hlabelk], a, b, ?_, hak, hkb, hrunk.update hi happart, fun m ham hmb => ?_⟩
    · rw [hlabelk, hrowsk]
      exact hrowk
    · have hmne : marks m ≠ none := by
        rw [hrunk.marked m ham hmb]
        exact Option.some_ne_none d
      rw [(hold m (hout m ham hmb) hmne).1, hlabelk]
      exact hsame m ham hmb

end RunsOk

/-! ### Sequences of a list -/

/-- The marks of the items of a list. -/
def marksOf (f : α → Option γ) (l : List α) : ℕ → Option γ := fun k => l[k]?.bind f

/-- The labels of the items of a list. -/
def labelsOf (g : α → ℕ) (l : List α) : ℕ → ℕ := fun k => (l[k]?.map g).getD 0

variable {f : α → Option γ} {g : α → ℕ} {base : ℕ} {rows : List (ℕ × ℕ)} {b l : List α}

theorem marksOf_append_left {k : ℕ} (h : k < b.length) : marksOf f (b ++ l) k = marksOf f b k := by
  rw [marksOf, marksOf, List.getElem?_append_left h]

theorem marksOf_append_add (k : ℕ) : marksOf f (b ++ l) (b.length + k) = marksOf f l k := by
  rw [marksOf, marksOf, List.getElem?_append_right (Nat.le_add_right _ _), Nat.add_sub_cancel_left]

theorem labelsOf_append_left {k : ℕ} (h : k < b.length) :
    labelsOf g (b ++ l) k = labelsOf g b k := by
  rw [labelsOf, labelsOf, List.getElem?_append_left h]

theorem labelsOf_append_add (k : ℕ) : labelsOf g (b ++ l) (b.length + k) = labelsOf g l k := by
  rw [labelsOf, labelsOf, List.getElem?_append_right (Nat.le_add_right _ _),
    Nat.add_sub_cancel_left]

namespace RunsOk

/-- The runs of the back of a list, when the item before it has another mark. -/
theorem append_back (h : RunsOk (base + b.length) (marksOf f l) (labelsOf g l) rows)
    (hborder : ∀ k c, k + 1 = b.length → marksOf f l 0 = some c → marksOf f b k ≠ some c)
    {i : ℕ} {c : γ} (hi : marksOf f l i = some c) :
    labelsOf g (b ++ l) (b.length + i) ≠ 0 ∧ ∃ s e,
      rows[labelsOf g (b ++ l) (b.length + i)]? = some (base + s, base + e) ∧ s ≤ b.length + i ∧
      b.length + i < e ∧ IsRun (marksOf f (b ++ l)) c s e ∧
      ∀ k, s ≤ k → k < e → labelsOf g (b ++ l) k = labelsOf g (b ++ l) (b.length + i) := by
  obtain ⟨hlabel, s, e, hrow, hsi, hie, hrun, hsame⟩ := h i c hi
  rw [labelsOf_append_add]
  refine ⟨hlabel, b.length + s, b.length + e, ?_, by omega, by omega, ⟨by have := hrun.lt; omega,
    fun k hk hke => ?_, fun k hk => ?_, ?_⟩, fun k hk hke => ?_⟩
  · rw [hrow, Nat.add_assoc, Nat.add_assoc]
  · obtain ⟨m, rfl⟩ := Nat.exists_eq_add_of_le (show b.length ≤ k by omega)
    rw [marksOf_append_add]
    exact hrun.marked m (by omega) (by omega)
  · by_cases hs : s = 0
    · subst hs
      rw [marksOf_append_left (by omega)]
      exact hborder k c (by omega) (hrun.marked 0 (Nat.le_refl 0) (by omega))
    · obtain ⟨m, rfl⟩ := Nat.exists_eq_add_of_le (show b.length ≤ k by omega)
      rw [marksOf_append_add]
      exact hrun.before m (by omega)
  · rw [marksOf_append_add]
    exact hrun.behind
  · obtain ⟨m, rfl⟩ := Nat.exists_eq_add_of_le (show b.length ≤ k by omega)
    rw [labelsOf_append_add]
    exact hsame m (by omega) (by omega)

theorem cons_none {a : α} (ha : f a = none)
    (h : RunsOk (base + 1) (marksOf f l) (labelsOf g l) rows) :
    RunsOk base (marksOf f (a :: l)) (labelsOf g (a :: l)) rows := by
  have hzero : marksOf f [a] 0 = none := ha
  intro i c hi
  cases i with
  | zero =>
    have hnone : marksOf f (a :: l) 0 = none := ha
    rw [hnone] at hi
    cases hi
  | succ i =>
    rw [Nat.add_comm i 1]
    refine append_back (b := [a]) h (fun k d hk _ => ?_) hi
    have hk0 : k = 0 := by
      rw [List.length_singleton] at hk
      omega
    rw [hk0, hzero]
    exact Option.some_ne_none d |>.symm

/-- A block with one mark and one label in front of the runs of a list that starts otherwise. -/
theorem append_block {c : γ} {q : ℕ} (hne : b ≠ []) (hmarks : ∀ a ∈ b, f a = some c)
    (hlabels : ∀ a ∈ b, g a = q) (hq : q ≠ 0) (hrow : rows[q]? = some (base, base + b.length))
    (hback : marksOf f l 0 ≠ some c)
    (h : RunsOk (base + b.length) (marksOf f l) (labelsOf g l) rows) :
    RunsOk base (marksOf f (b ++ l)) (labelsOf g (b ++ l)) rows := by
  have hmark : ∀ k < b.length, marksOf f b k = some c := by
    intro k hk
    rw [marksOf, List.getElem?_eq_getElem hk]
    exact hmarks _ (List.getElem_mem hk)
  have hlabel : ∀ k < b.length, labelsOf g b k = q := by
    intro k hk
    rw [labelsOf, List.getElem?_eq_getElem hk]
    exact hlabels _ (List.getElem_mem hk)
  intro i d hi
  by_cases hib : i < b.length
  · rw [marksOf_append_left hib, hmark i hib] at hi
    obtain rfl : c = d := Option.some.inj hi
    rw [labelsOf_append_left hib, hlabel i hib]
    refine ⟨hq, 0, b.length, hrow, Nat.zero_le _, hib, ⟨List.length_pos_iff.mpr hne, fun k _ hk => ?_,
      fun k hk => absurd hk (Nat.succ_ne_zero k), ?_⟩, fun k _ hk => ?_⟩
    · rw [marksOf_append_left hk, hmark k hk]
    · exact marksOf_append_add (f := f) (b := b) (l := l) 0 ▸ hback
    · rw [labelsOf_append_left hk, hlabel k hk]
  · obtain ⟨m, rfl⟩ := Nat.exists_eq_add_of_le (Nat.not_lt.mp hib)
    rw [marksOf_append_add] at hi
    refine append_back h (fun k e hk he => ?_) hi
    rw [hmark k (by omega)]
    rintro heq
    exact hback (heq ▸ he)

end RunsOk

end Subvol.Lib

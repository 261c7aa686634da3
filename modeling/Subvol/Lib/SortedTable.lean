import Mathlib.Data.List.Nodup
import Mathlib.Order.Basic
import Mathlib.Order.Lattice
import Mathlib.Tactic.Common

/-!
# Tables in the order of their keys

A table is a list in the strict order of the keys of its entries. An entry is put in its place; when
there is one with its key, that one is replaced by the merge of the two. After a row of puts, the
entry of a key is the merge of the first and the last that were put for it.

## Main definitions

* `SortedBy`, `upsert`.
* `firstLast`: the merge of the first and the last entry of a key.

## Main results

* `SortedBy.upsert`, `findKey_upsert`, `upsert_perm_of_none`, `upsert_perm_of_some`.
* `upsert_eq_walk`: the walk that finds the place of an entry.
* `firstLast_append_singleton`: what one more entry makes of the merge.
-/

namespace Subvol.Lib

variable {α κ : Type*} [LinearOrder κ] {key : α → κ}

/-- The entries are in the strict order of their keys. -/
def SortedBy (key : α → κ) (l : List α) : Prop := l.Pairwise fun a b => key a < key b

/-- The entry of a key. -/
def findKey (key : α → κ) (l : List α) (k : κ) : Option α := l.find? fun e => decide (key e = k)

/-- An entry with the one it replaces. -/
def mergeOld (merge : α → α → α) (old : Option α) (n : α) : α := (old.map fun i => merge i n).getD n

/-- The table with an entry put in its place. -/
def upsert (key : α → κ) (merge : α → α → α) (n : α) : List α → List α
  | [] => [n]
  | e :: es =>
    if key e < key n then e :: upsert key merge n es
    else if key e = key n then merge e n :: es
    else n :: e :: es

namespace SortedBy

theorem ne_of_mem {e e' : α} {es : List α} (h : SortedBy key (e :: es)) (he' : e' ∈ es) :
    key e' ≠ key e := ((List.pairwise_cons.mp h).1 e' he').ne'

theorem mem_iff_findKey {l : List α} (h : SortedBy key l) {e : α} :
    e ∈ l ↔ findKey key l (key e) = some e := by
  induction l with
  | nil => simp [findKey]
  | cons a l ih =>
    have htail : SortedBy key l := (List.pairwise_cons.mp h).2
    rw [findKey, List.find?_cons]
    by_cases ha : key a = key e
    · rw [decide_eq_true ha, Option.some_inj]
      refine ⟨fun he => ?_, fun he => he ▸ List.mem_cons_self⟩
      rcases List.mem_cons.mp he with rfl | he
      · rfl
      · exact absurd ha.symm (h.ne_of_mem he)
    · rw [decide_eq_false ha, List.mem_cons]
      refine Iff.trans ⟨fun he => ?_, Or.inr⟩ (ih htail)
      rcases he with rfl | he
      · exact absurd rfl ha
      · exact he

theorem nodup_keys {l : List α} (h : SortedBy key l) : (l.map key).Nodup :=
  List.pairwise_map.mpr (h.imp fun hlt => hlt.ne)

theorem mem_upsert_key {merge : α → α → α} {n : α}
    (hmerge : ∀ i, key i = key n → key (merge i n) = key n) {l : List α} {e : α}
    (he : e ∈ Lib.upsert key merge n l) : key e = key n ∨ e ∈ l := by
  induction l with
  | nil => exact .inl (congrArg key (List.mem_singleton.mp he))
  | cons a l ih =>
    rw [Lib.upsert] at he
    split_ifs at he with hlt heq
    · rcases List.mem_cons.mp he with rfl | he
      · exact .inr List.mem_cons_self
      · exact (ih he).imp_right (List.mem_cons_of_mem a)
    · rcases List.mem_cons.mp he with rfl | he
      · exact .inl (hmerge a heq)
      · exact .inr (List.mem_cons_of_mem a he)
    · rcases List.mem_cons.mp he with rfl | he
      · exact .inl rfl
      · exact .inr he

theorem upsert {merge : α → α → α} {n : α}
    (hmerge : ∀ i, key i = key n → key (merge i n) = key n) {l : List α} (h : SortedBy key l) :
    SortedBy key (Lib.upsert key merge n l) := by
  induction l with
  | nil => exact List.pairwise_singleton _ _
  | cons a l ih =>
    obtain ⟨hfirst, htail⟩ := List.pairwise_cons.mp h
    rw [Lib.upsert]
    split_ifs with hlt heq
    · refine List.pairwise_cons.mpr ⟨fun e he => ?_, ih htail⟩
      rcases mem_upsert_key hmerge he with hkey | he
      · exact hkey ▸ hlt
      · exact hfirst e he
    · refine List.pairwise_cons.mpr ⟨fun e he => ?_, htail⟩
      rw [hmerge a heq, ← heq]
      exact hfirst e he
    · have hgt : key n < key a := lt_of_le_of_ne (not_lt.mp hlt) (Ne.symm heq)
      refine List.pairwise_cons.mpr ⟨fun e he => ?_, h⟩
      rcases List.mem_cons.mp he with rfl | he
      · exact hgt
      · exact hgt.trans (hfirst e he)

theorem findKey_eq_none_of_lt {l : List α} {a : α} {k : κ} (h : SortedBy key (a :: l))
    (hk : k < key a) : findKey key (a :: l) k = none := by
  refine List.find?_eq_none.mpr fun e he => ?_
  rw [decide_eq_true_eq]
  rcases List.mem_cons.mp he with rfl | he
  · exact hk.ne'
  · exact (hk.trans ((List.pairwise_cons.mp h).1 e he)).ne'

end SortedBy

theorem findKey_cons (a : α) (l : List α) (k : κ) :
    findKey key (a :: l) k = if key a = k then some a else findKey key l k := by
  rw [findKey, List.find?_cons]
  split_ifs with h
  · rw [decide_eq_true h]
  · rw [decide_eq_false h]
    rfl

theorem upsert_of_lt {merge : α → α → α} {n a : α} {l : List α} (h : key a < key n) :
    upsert key merge n (a :: l) = a :: upsert key merge n l := if_pos h

theorem upsert_of_eq {merge : α → α → α} {n a : α} {l : List α} (h : key a = key n) :
    upsert key merge n (a :: l) = merge a n :: l := by
  rw [upsert, if_neg (h ▸ lt_irrefl (key a)), if_pos h]

theorem upsert_of_gt {merge : α → α → α} {n a : α} {l : List α} (h : key n < key a) :
    upsert key merge n (a :: l) = n :: a :: l := by
  rw [upsert, if_neg h.not_gt, if_neg h.ne']

theorem findKey_upsert {merge : α → α → α} {n : α}
    (hmerge : ∀ i, key i = key n → key (merge i n) = key n) {l : List α} (h : SortedBy key l)
    (k : κ) :
    findKey key (upsert key merge n l) k =
      if k = key n then some (mergeOld merge (findKey key l (key n)) n) else findKey key l k := by
  induction l with
  | nil =>
    rw [upsert, findKey_cons]
    simp only [eq_comm (a := k)]
    rfl
  | cons a l ih =>
    have htail : SortedBy key l := (List.pairwise_cons.mp h).2
    rcases lt_trichotomy (key a) (key n) with hlt | heq | hgt
    · rw [upsert_of_lt hlt, findKey_cons, ih htail, findKey_cons, findKey_cons, if_neg hlt.ne]
      by_cases hk : k = key n
      · rw [if_pos hk, if_pos hk, if_neg (fun h => hlt.ne (h.trans hk))]
      · rw [if_neg hk, if_neg hk]
    · rw [upsert_of_eq heq, findKey_cons, hmerge a heq, findKey_cons, findKey_cons, if_pos heq, heq]
      by_cases hk : k = key n
      · rw [if_pos hk.symm, if_pos hk]
        rfl
      · rw [if_neg (Ne.symm hk), if_neg hk, if_neg (Ne.symm hk)]
    · rw [upsert_of_gt hgt, findKey_cons, h.findKey_eq_none_of_lt hgt]
      simp only [eq_comm (a := k)]
      rfl

/-- The table when no entry has the key. -/
theorem upsert_perm_of_none {merge : α → α → α} {n : α} {l : List α}
    (hnone : findKey key l (key n) = none) : (upsert key merge n l).Perm (n :: l) := by
  induction l with
  | nil => exact List.Perm.refl _
  | cons a l ih =>
    rw [findKey_cons] at hnone
    split_ifs at hnone with ha
    rcases lt_or_gt_of_ne ha with hlt | hgt
    · rw [upsert_of_lt hlt]
      exact ((ih hnone).cons a).trans (List.Perm.swap n a l)
    · rw [upsert_of_gt hgt]

/-- The table when an entry has the key: the merge is there instead of it. -/
theorem upsert_perm_of_some (merge : α → α → α) {n i : α} {l : List α} (h : SortedBy key l)
    (hsome : findKey key l (key n) = some i) :
    ∃ rest, l.Perm (i :: rest) ∧ (upsert key merge n l).Perm (merge i n :: rest) := by
  induction l with
  | nil => exact absurd hsome nofun
  | cons a l ih =>
    have htail : SortedBy key l := (List.pairwise_cons.mp h).2
    rcases lt_trichotomy (key a) (key n) with hlt | heq | hgt
    · rw [findKey_cons, if_neg hlt.ne] at hsome
      obtain ⟨rest, hl, hupsert⟩ := ih htail hsome
      refine ⟨a :: rest, (hl.cons a).trans (List.Perm.swap i a rest), ?_⟩
      rw [upsert_of_lt hlt]
      exact (hupsert.cons a).trans (List.Perm.swap _ a rest)
    · rw [findKey_cons, if_pos heq] at hsome
      obtain rfl := Option.some.inj hsome
      exact ⟨l, List.Perm.refl _, by rw [upsert_of_eq heq]⟩
    · rw [h.findKey_eq_none_of_lt hgt] at hsome
      cases hsome

/-- The entry of a key is found by a walk over those with a lower one. -/
theorem SortedBy.findKey_eq_head? {l : List α} (h : SortedBy key l) (k : κ) :
    findKey key l k =
      (l.dropWhile fun e => decide (key e < k)).head?.filter fun e => decide (key e = k) := by
  induction l with
  | nil => rfl
  | cons a l ih =>
    have htail : SortedBy key l := (List.pairwise_cons.mp h).2
    rcases lt_trichotomy (key a) k with hlt | rfl | hgt
    · rw [findKey_cons, if_neg hlt.ne, List.dropWhile_cons_of_pos (by simpa using hlt), ih htail]
    · rw [findKey_cons, if_pos rfl, List.dropWhile_cons_of_neg (by simp), List.head?_cons,
        Option.filter_some_pos (by simp)]
    · rw [h.findKey_eq_none_of_lt hgt, List.dropWhile_cons_of_neg (by simpa using hgt.le),
        List.head?_cons, Option.filter_some_neg (by simpa using hgt.ne')]

/-- The place of an entry is found by a walk over those with a lower key. -/
theorem upsert_eq_walk (merge : α → α → α) (n : α) (l : List α) :
    upsert key merge n l =
      match l.dropWhile fun e => decide (key e < key n) with
      | [] => (l.takeWhile fun e => decide (key e < key n)) ++ [n]
      | i :: after =>
        (l.takeWhile fun e => decide (key e < key n)) ++
          if key i = key n then merge i n :: after else n :: i :: after := by
  induction l with
  | nil => rfl
  | cons a l ih =>
    rcases lt_trichotomy (key a) (key n) with hlt | heq | hgt
    · rw [upsert_of_lt hlt, List.dropWhile_cons_of_pos (by simpa using hlt),
        List.takeWhile_cons_of_pos (by simpa using hlt), ih]
      cases l.dropWhile fun e => decide (key e < key n) <;> rfl
    · rw [upsert_of_eq heq, List.dropWhile_cons_of_neg (by simp [heq]),
        List.takeWhile_cons_of_neg (by simp [heq])]
      exact (if_pos heq).symm
    · rw [upsert_of_gt hgt, List.dropWhile_cons_of_neg (by simpa using hgt.le),
        List.takeWhile_cons_of_neg (by simpa using hgt.le)]
      exact (if_neg hgt.ne').symm

/-! ### Rows of puts -/

/-- The merge of the first and the last entry of a key. -/
def firstLast (key : α → κ) (merge : α → α → α) (log : List α) (k : κ) : Option α :=
  (findKey key log k).map fun first => merge first ((findKey key log.reverse k).getD first)

theorem findKey_append (l l' : List α) (k : κ) :
    findKey key (l ++ l') k = (findKey key l k).or (findKey key l' k) := List.find?_append

/-- One more entry: it is merged with what there is, as the last of its key. -/
theorem firstLast_append_singleton (merge : α → α → α) (hself : ∀ a, merge a a = a)
    (hlast : ∀ a b c, merge (merge a b) c = merge a c) (log : List α) (n : α) (k : κ) :
    firstLast key merge (log ++ [n]) k =
      if k = key n then some (mergeOld merge (firstLast key merge log k) n)
      else firstLast key merge log k := by
  have hsingle : findKey key [n] k = if key n = k then some n else none := findKey_cons n [] k
  rw [firstLast, firstLast, List.reverse_append, List.reverse_singleton, findKey_append,
    findKey_append, hsingle]
  by_cases hk : k = key n
  · rw [if_pos hk.symm, if_pos hk]
    cases findKey key log k with
    | none => exact congrArg some (hself n)
    | some first => exact congrArg some (hlast first _ n).symm
  · rw [if_neg (Ne.symm hk), if_neg hk, Option.or_none, Option.none_or]

end Subvol.Lib

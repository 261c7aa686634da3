import Mathlib.Data.List.Forall2
import Mathlib.Data.List.Pairwise
import Mathlib.Data.List.Perm.Basic
import Mathlib.Tactic.Common

/-!
# Lists changed in places

Two ways in which a list is changed while most of it stays: every element is replaced by one that
is related to it (`List.Forall₂`), and a segment is replaced by one element. Both carry a relation
between the elements of the list over to the new list.

## Main results

* `exists_mem_right`, `exists_mem_left`, `pairwise_forall₂`, `forall₂_modify`: elements replaced
  one by one.
* `split_segment`, `pairwise_collapse`: a segment replaced by one element.
* `modify_last`, `map_modify_of_eq`: an element replaced in its place.
* `filterMap_set_perm`, `pairwise_subperm`: what is gathered from a list with one element replaced.
* `foldl_max_le`: a bound of the elements bounds their maximum.
* `exists_append_filter`: a list cut where a property begins.
* `find?_key_concat`: the first element with a key, with one element more.
-/

namespace Subvol.Lib

variable {α β : Type*}

section Related

variable {R : α → β → Prop} {l : List α} {l' : List β}

theorem exists_mem_right (h : List.Forall₂ R l l') {b : β} (hb : b ∈ l') : ∃ a ∈ l, R a b := by
  induction h with
  | nil => cases hb
  | cons hab _ ih =>
    rcases List.mem_cons.mp hb with rfl | hb
    · exact ⟨_, List.mem_cons_self .., hab⟩
    · obtain ⟨a, ha, hr⟩ := ih hb
      exact ⟨a, List.mem_cons_of_mem _ ha, hr⟩

theorem exists_mem_left (h : List.Forall₂ R l l') {a : α} (ha : a ∈ l) : ∃ b ∈ l', R a b :=
  exists_mem_right (List.Forall₂.flip (R := flip R) h) ha

theorem pairwise_forall₂ {P : α → α → Prop} {Q : β → β → Prop} (h : List.Forall₂ R l l')
    (hp : l.Pairwise P) (hPQ : ∀ a a' b b', R a b → R a' b' → P a a' → Q b b') :
    l'.Pairwise Q := by
  induction h with
  | nil => exact List.Pairwise.nil
  | cons hab hrest ih =>
    obtain ⟨hhead, htail⟩ := List.pairwise_cons.mp hp
    refine List.pairwise_cons.mpr ⟨?_, ih htail⟩
    intro b' hb'
    obtain ⟨a', ha', hr⟩ := exists_mem_right hrest hb'
    exact hPQ _ _ _ _ hab hr (hhead a' ha')

theorem forall₂_modify {R : α → α → Prop} {l : List α} {i : ℕ} {f : α → α}
    (hi : ∀ a, l[i]? = some a → R a (f a)) (hother : ∀ j a, j ≠ i → l[j]? = some a → R a a) :
    List.Forall₂ R l (l.modify i f) := by
  induction l generalizing i with
  | nil => simp
  | cons a l ih =>
    cases i with
    | zero =>
      refine .cons (hi a rfl) (List.forall₂_same.mpr ?_)
      intro b hb
      obtain ⟨j, hj⟩ := List.mem_iff_getElem?.mp hb
      exact hother (j + 1) b (by simp) (by simpa using hj)
    | succ i =>
      refine .cons (hother 0 a (by simp) rfl) (ih (fun b hb => hi b (by simpa using hb)) ?_)
      intro j b hj hb
      exact hother (j + 1) b (by simpa using hj) (by simpa using hb)

end Related

section Segment

/-- A list is what comes before a segment, the segment and what comes behind it. -/
theorem split_segment (l : List α) {start stop : ℕ} (h : start ≤ stop) :
    l = l.take start ++ ((l.take stop).drop start ++ l.drop stop) := by
  have htake : l.take start = (l.take stop).take start := by
    rw [List.take_take, Nat.min_eq_left h]
  rw [← List.append_assoc, htake, List.take_append_drop, List.take_append_drop]

theorem pairwise_collapse {P : α → α → Prop} {front mid back : List α} {x : α}
    (h : (front ++ (mid ++ back)).Pairwise P) (hfront : ∀ a ∈ front, (∀ m ∈ mid, P a m) → P a x)
    (hback : ∀ c ∈ back, (∀ m ∈ mid, P m c) → P x c) : (front ++ x :: back).Pairwise P := by
  obtain ⟨hf, hmb, hcross⟩ := List.pairwise_append.mp h
  obtain ⟨-, hb, hmid⟩ := List.pairwise_append.mp hmb
  refine List.pairwise_append.mpr ⟨hf, List.pairwise_cons.mpr ⟨?_, hb⟩, ?_⟩
  · intro c hc
    exact hback c hc fun m hm => hmid m hm c hc
  · intro a ha c hc
    rcases List.mem_cons.mp hc with rfl | hc
    · exact hfront a ha fun m hm => hcross a ha m (List.mem_append_left _ hm)
    · exact hcross a ha c (List.mem_append_right _ hc)

theorem map_modify_of_eq {f : α → α} {g : α → β} (h : ∀ a, g (f a) = g a) (l : List α) (i : ℕ) :
    (l.modify i f).map g = l.map g := by
  induction l generalizing i with
  | nil => simp
  | cons a l ih => cases i <;> simp [h, ih]

theorem modify_last (front : List α) (a : α) (f : α → α) :
    (front ++ [a]).modify front.length f = front ++ [f a] := by
  induction front with
  | nil => rfl
  | cons b front ih => simp [ih]

end Segment

theorem insertIdx_append_length (front back : List α) (a : α) :
    (front ++ back).insertIdx front.length a = front ++ a :: back := by
  induction front with
  | nil => simp
  | cons b front ih => simpa using ih

theorem foldl_max_le {l : List ℕ} {m n : ℕ} (hm : m ≤ n) (h : ∀ x ∈ l, x ≤ n) :
    l.foldl max m ≤ n := by
  induction l generalizing m with
  | nil => exact hm
  | cons x l ih =>
    exact ih (Nat.max_le.mpr ⟨hm, h x (List.mem_cons_self ..)⟩) fun y hy =>
      h y (List.mem_cons_of_mem _ hy)

/-- What is gathered from a list with one element replaced. -/
theorem filterMap_set_perm (f : α → Option β) {l : List α} {i : ℕ} {a : α} (h : l[i]? = some a)
    (b : α) :
    ((l.set i b).filterMap f ++ (f a).toList).Perm ((f b).toList ++ l.filterMap f) := by
  induction l generalizing i with
  | nil => simp at h
  | cons x l ih =>
    cases i with
    | zero =>
      have hx : x = a := by simpa using h
      subst hx
      rw [List.set_cons_zero, List.filterMap_cons, List.filterMap_cons]
      cases f x <;> cases f b <;> simp
    | succ i =>
      have hl : l[i]? = some a := by simpa using h
      rw [List.set_cons_succ, List.filterMap_cons, List.filterMap_cons]
      cases f x with
      | none => exact ih hl
      | some y =>
        dsimp only
        rw [List.cons_append]
        exact ((ih hl).cons y).trans List.perm_middle.symm

theorem pairwise_subperm {R : α → α → Prop} {l l' : List α} (h : l'.Pairwise R)
    (hsub : l.Subperm l') (hsymm : ∀ {x y}, R x y → R y x) : l.Pairwise R := by
  obtain ⟨l'', hperm, hsublist⟩ := hsub
  exact (h.sublist hsublist).perm hperm hsymm

theorem eq_of_map_eq {f : α → β} {l l' : List α} (hinj : ∀ x ∈ l, ∀ y ∈ l', f x = f y → x = y)
    (h : l.map f = l'.map f) : l = l' := by
  induction l generalizing l' with
  | nil => exact (List.map_eq_nil_iff.mp h.symm).symm
  | cons a l ih =>
    cases l' with
    | nil => cases h
    | cons b l' =>
      obtain ⟨hhead, htail⟩ := List.cons.inj h
      rw [hinj a List.mem_cons_self b List.mem_cons_self hhead,
        ih (fun x hx y hy => hinj x (List.mem_cons_of_mem a hx) y (List.mem_cons_of_mem b hy))
          htail]

/-- A list in which a property is kept ends with the elements that have it. -/
theorem exists_append_filter {P : α → Bool} {l : List α}
    (h : l.Pairwise fun a b => P a = true → P b = true) :
    ∃ A, l = A ++ l.filter P ∧ ∀ a ∈ A, P a = false := by
  induction l with
  | nil => exact ⟨[], rfl, by simp⟩
  | cons a l ih =>
    obtain ⟨ha, hl⟩ := List.pairwise_cons.mp h
    cases hPa : P a with
    | true =>
      have hall : (a :: l).filter P = a :: l :=
        List.filter_eq_self.mpr (List.forall_mem_cons.mpr ⟨hPa, fun b hb => ha b hb hPa⟩)
      exact ⟨[], by rw [hall, List.nil_append], by simp⟩
    | false =>
      obtain ⟨A, hA, hnot⟩ := ih hl
      refine ⟨a :: A, ?_, List.forall_mem_cons.mpr ⟨hPa, hnot⟩⟩
      rw [List.filter_cons_of_neg (by simp [hPa]), List.cons_append, ← hA]

/-- The first element with a given key, with one more element of a key of its own. -/
theorem find?_key_concat [DecidableEq β] (key : α → β) {l : List α} {a : α}
    (h : ∀ x ∈ l, key x ≠ key a) (y : β) :
    ((l ++ [a]).find? fun x => key x = y) =
      if y = key a then some a else l.find? fun x => key x = y := by
  rw [List.find?_append]
  split_ifs with hy
  · subst hy
    have hnone : (l.find? fun x => key x = key a) = none :=
      List.find?_eq_none.mpr fun x hx => by simpa using h x hx
    rw [hnone]
    simp
  · have hne : ¬key a = y := fun heq => hy heq.symm
    simp [hne]

end Subvol.Lib

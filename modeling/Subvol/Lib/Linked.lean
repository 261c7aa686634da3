import Mathlib.Data.Sum.Basic
import Subvol.Lib.Shelves

/-!
# Cells that are linked in both directions

Cells have links to a next and a previous one. A list of cells is linked between two others when each
link forward has one back, and a ring is linked between a cell and itself.

## Main definitions

* `Links`, `Links.Joined`, `Links.Seg`.
* `Shelved`: a family of lists, each of which is a ring with a head, and the cells on no list, each of
  which is a ring of its own.

## Main results

* `Links.Seg.append_iff`: a list that is cut at a cell.
* `Links.Seg.congr`: what keeps a list linked.
* `Links.Seg.toward`, `Links.Seg.unlink`: the end of a list is linked to another cell, and a cell is
  taken off.
* `Links.Seg.map_next`, `Links.Seg.map_prev`: where the links of a list lead.
* `Shelved.frame`: the rings that a change does not touch.
-/

namespace Subvol.Lib

variable {P : Type*}

/-- The links of all cells. -/
structure Links (P : Type*) where
  next : P → P
  prev : P → P

namespace Links

section Set

variable [DecidableEq P]

def setNext (k : Links P) (p q : P) : Links P := { k with next := Function.update k.next p q }

def setPrev (k : Links P) (p q : P) : Links P := { k with prev := Function.update k.prev p q }

@[simp] theorem setNext_next (k : Links P) (p q : P) :
    (k.setNext p q).next = Function.update k.next p q := rfl

@[simp] theorem setNext_prev (k : Links P) (p q : P) : (k.setNext p q).prev = k.prev := rfl

@[simp] theorem setPrev_next (k : Links P) (p q : P) : (k.setPrev p q).next = k.next := rfl

@[simp] theorem setPrev_prev (k : Links P) (p q : P) :
    (k.setPrev p q).prev = Function.update k.prev p q := rfl

end Set

/-- A link forward and the link back. -/
def Joined (k : Links P) (p q : P) : Prop := k.next p = q ∧ k.prev q = p

/-- The list is linked between two cells. -/
def Seg (k : Links P) (a : P) : List P → P → Prop
  | [], z => k.Joined a z
  | b :: l, z => k.Joined a b ∧ k.Seg b l z

namespace Seg

variable {k k' : Links P} {a b y z : P} {l m : List P}

theorem append_iff : k.Seg a (l ++ b :: m) z ↔ k.Seg a l b ∧ k.Seg b m z := by
  induction l generalizing a with
  | nil => exact Iff.rfl
  | cons c l ih => exact (and_congr_right fun _ => ih).trans and_assoc.symm

/-- A list stays linked when the links forward of all cells but the last, and the links back of all
but the first, stay. -/
theorem congr (h : k.Seg a l z) (hnext : ∀ p ∈ a :: l, k'.next p = k.next p)
    (hprev : ∀ p ∈ l ++ [z], k'.prev p = k.prev p) : k'.Seg a l z := by
  induction l generalizing a with
  | nil =>
    exact ⟨(hnext a List.mem_cons_self).trans h.1, (hprev z (List.mem_singleton_self z)).trans h.2⟩
  | cons b l ih =>
    obtain ⟨hab, hseg⟩ := h
    refine ⟨⟨(hnext a List.mem_cons_self).trans hab.1, (hprev b List.mem_cons_self).trans hab.2⟩,
      ih hseg (fun p hp => hnext p (List.mem_cons_of_mem a hp)) fun p hp => ?_⟩
    exact hprev p (List.mem_cons_of_mem b hp)

/-- The cell in front of the end is on the list or the beginning. -/
theorem prev_mem (h : k.Seg a l z) : k.prev z ∈ a :: l := by
  induction l generalizing a with
  | nil => exact List.mem_singleton.mpr h.2
  | cons b l ih => exact List.mem_cons_of_mem a (ih h.2)

/-- The cell behind the beginning is on the list or the end. -/
theorem next_mem (h : k.Seg a l z) : k.next a ∈ l ++ [z] := by
  cases l with
  | nil => exact List.mem_singleton.mpr h.1
  | cons b l =>
    rw [h.1.1]
    exact List.mem_cons_self

/-- The last cell is linked to another one. -/
theorem toward (h : k.Seg a l z) (hnodup : (a :: l).Nodup)
    (hnext : ∀ p ∈ a :: l, p ≠ k.prev z → k'.next p = k.next p)
    (hprev : ∀ p ∈ l, k'.prev p = k.prev p) (hlast : k'.next (k.prev z) = y)
    (hback : k'.prev y = k.prev z) : k'.Seg a l y := by
  induction l generalizing a with
  | nil =>
    have ha : k.prev z = a := h.2
    exact ⟨ha ▸ hlast, hback.trans ha⟩
  | cons b l ih =>
    obtain ⟨hab, hseg⟩ := h
    obtain ⟨hnot, hrest⟩ := List.nodup_cons.mp hnodup
    have ha : a ≠ k.prev z := by
      rintro rfl
      exact hnot hseg.prev_mem
    refine ⟨⟨(hnext a List.mem_cons_self ha).trans hab.1,
      (hprev b List.mem_cons_self).trans hab.2⟩,
      ih hseg hrest (fun p hp => hnext p (List.mem_cons_of_mem a hp)) fun p hp => ?_⟩
    exact hprev p (List.mem_cons_of_mem b hp)

/-- A cell is taken off: its neighbours are linked to each other. -/
theorem unlink (h : k.Seg a (l ++ b :: m) z) (hfront : (a :: (l ++ b :: m)).Nodup)
    (hback : (l ++ b :: m ++ [z]).Nodup)
    (hnext : ∀ p, p ≠ k.prev b → p ≠ b → k'.next p = k.next p)
    (hprev : ∀ p, p ≠ k.next b → p ≠ b → k'.prev p = k.prev p)
    (hlast : k'.next (k.prev b) = k.next b) (hfirst : k'.prev (k.next b) = k.prev b) :
    k'.Seg a (l ++ m) z := by
  obtain ⟨hl, hm⟩ := append_iff.mp h
  have hla : (a :: l).Nodup ∧ ∀ p ∈ a :: l, ∀ q ∈ b :: m, p ≠ q := by
    obtain ⟨hal, -, hne⟩ := List.nodup_append.mp (List.cons_append ▸ hfront)
    exact ⟨hal, hne⟩
  have hmz : (m ++ [z]).Nodup ∧ b ∉ m ++ [z] ∧ ∀ p ∈ l, ∀ q ∈ m ++ [z], p ≠ q := by
    rw [List.append_assoc, List.cons_append] at hback
    obtain ⟨-, hbm, hne⟩ := List.nodup_append.mp hback
    obtain ⟨hb, hm⟩ := List.nodup_cons.mp hbm
    exact ⟨hm, hb, fun p hp q hq => hne p hp q (List.mem_cons_of_mem b hq)⟩
  have hn : k.next b ∈ m ++ [z] := hm.next_mem
  have hp : k.prev b ∈ a :: l := hl.prev_mem
  have htoward : k'.Seg a l (k.next b) := by
    refine hl.toward hla.1 (fun p hp hne => hnext p hne ?_) (fun p hp => hprev p ?_ ?_) hlast hfirst
    · exact hla.2 p hp b List.mem_cons_self
    · exact hmz.2.2 p hp _ hn
    · exact hla.2 p (List.mem_cons_of_mem a hp) b List.mem_cons_self
  cases m with
  | nil =>
    rw [List.append_nil]
    exact hm.1 ▸ htoward
  | cons c m =>
    rw [hm.1.1] at htoward hn hprev
    refine append_iff.mpr ⟨htoward, hm.2.congr (fun p hpm => hnext p ?_ ?_) fun p hpm => hprev p ?_ ?_⟩
    · exact fun heq => hla.2 _ hp p (List.mem_cons_of_mem b hpm) heq.symm
    · rintro rfl
      exact hmz.2.1 (List.mem_append_left _ hpm)
    · rintro rfl
      exact (List.nodup_cons.mp hmz.1).1 hpm
    · rintro rfl
      exact hmz.2.1 (List.mem_cons_of_mem c hpm)

/-- The links forward lead through the list to its end. -/
theorem map_next (h : k.Seg a l z) : (a :: l).map k.next = l ++ [z] := by
  induction l generalizing a with
  | nil => rw [List.map_singleton, h.1, List.nil_append]
  | cons b l ih => rw [List.map_cons, h.1.1, ih h.2, List.cons_append]

/-- The links back lead through the list to its beginning. -/
theorem map_prev (h : k.Seg a l z) : (l ++ [z]).map k.prev = a :: l := by
  induction l generalizing a with
  | nil => rw [List.nil_append, List.map_singleton, h.2]
  | cons b l ih => rw [List.cons_append, List.map_cons, h.1.2, ih h.2]

end Seg

end Links

/-! ### Families of rings -/

section Shelved

variable {L N : Type*}

/-- The lists of a family are rings with their heads, and an element that is on no list is a ring of
its own. -/
structure Shelved (k : Links (L ⊕ N)) (lists : L → List N) (place : N → Option L) : Prop where
  on : OnLists lists place
  ring : ∀ l, k.Seg (.inl l) ((lists l).map .inr) (.inl l)
  off : ∀ b, place b = none → k.Joined (.inr b) (.inr b)

/-- The ring of a cell: that of a head, or of an element on no list. -/
def ringOf (place : N → Option L) : L ⊕ N → L ⊕ N
  | .inl l => .inl l
  | .inr b => ((place b).map .inl).getD (.inr b)

theorem ringOf_off {place : N → Option L} {b : N} (hb : place b = none) :
    ringOf place (.inr b) = .inr b := by
  rw [ringOf, hb]
  rfl

theorem ringOf_on {place : N → Option L} {b : N} {l : L} (hb : place b = some l) :
    ringOf place (.inr b) = .inl l := by
  rw [ringOf, hb]
  rfl

namespace Shelved

variable {k k' : Links (L ⊕ N)} {lists : L → List N} {place : N → Option L}
  (h : Shelved k lists place)
include h

theorem ringOf_mem {l : L} {p : L ⊕ N} (hp : p ∈ .inl l :: (lists l).map .inr) :
    ringOf place p = .inl l := by
  rcases List.mem_cons.mp hp with rfl | hp
  · rfl
  · obtain ⟨b, hb, rfl⟩ := List.mem_map.mp hp
    exact ringOf_on ((h.on.mem_iff b l).mp hb)

/-- The rings that are not touched stay. -/
theorem frame {S : L ⊕ N → Prop}
    (hsame : ∀ p, ¬S (ringOf place p) → k'.next p = k.next p ∧ k'.prev p = k.prev p) :
    (∀ l, ¬S (.inl l) → k'.Seg (.inl l) ((lists l).map .inr) (.inl l)) ∧
      ∀ b, place b = none → ¬S (.inr b) → k'.Joined (.inr b) (.inr b) := by
  refine ⟨fun l hl => (h.ring l).congr (fun p hp => ?_) fun p hp => ?_, fun b hb hS => ?_⟩
  · exact (hsame p (by rwa [h.ringOf_mem hp])).1
  · have hp' : p ∈ .inl l :: (lists l).map .inr := by
      rw [List.mem_append, List.mem_singleton] at hp
      exact List.mem_cons.mpr hp.symm
    exact (hsame p (by rwa [h.ringOf_mem hp'])).2
  · obtain ⟨hnext, hprev⟩ := hsame (.inr b) (by rwa [ringOf_off hb])
    exact ⟨hnext.trans (h.off b hb).1, hprev.trans (h.off b hb).2⟩

theorem nodup_front (l : L) : ((.inl l : L ⊕ N) :: (lists l).map .inr).Nodup := by
  refine List.nodup_cons.mpr ⟨by simp, ?_⟩
  exact (h.on.nodup l).map Sum.inr_injective

theorem nodup_back (l : L) : ((lists l).map Sum.inr ++ [(Sum.inl l : L ⊕ N)]).Nodup :=
  (List.perm_append_singleton _ _).symm.nodup (h.nodup_front l)

end Shelved

end Shelved

end Subvol.Lib

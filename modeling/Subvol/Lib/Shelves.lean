import Mathlib.Data.List.Nodup
import Mathlib.Logic.Function.Basic

/-!
# Elements on one list of many

A family of lists of which every element is on at most one, and there once, as with lists that are
linked through their elements. An element is taken off, put on as the first or the last, and a list
is emptied into another.

## Main definitions

* `OnLists`: every element is on the list that a function gives.
* `takeOff`, `putFirst`, `putLast`, `spliceTail`.

## Main results

* `OnLists.takeOff`, `OnLists.putFirst`, `OnLists.putLast`, `OnLists.spliceTail`.
-/

namespace Subvol.Lib

variable {N L : Type*} [DecidableEq N] [DecidableEq L]

/-- Every element is on the list that `place` gives, once, and on no other. -/
structure OnLists (lists : L → List N) (place : N → Option L) : Prop where
  mem_iff : ∀ b l, b ∈ lists l ↔ place b = some l
  nodup : ∀ l, (lists l).Nodup

def takeOff (lists : L → List N) (b : N) : L → List N := fun l => (lists l).erase b

def putFirst (lists : L → List N) (l : L) (b : N) : L → List N :=
  Function.update lists l (b :: lists l)

def putLast (lists : L → List N) (l : L) (b : N) : L → List N :=
  Function.update lists l (lists l ++ [b])

/-- All of one list goes behind another. -/
def spliceTail (lists : L → List N) (src dst : L) : L → List N :=
  Function.update (Function.update lists dst (lists dst ++ lists src)) src []

namespace OnLists

variable {lists : L → List N} {place : N → Option L} (h : OnLists lists place)
include h

omit [DecidableEq N] [DecidableEq L] in
theorem length_pos {b : N} {l : L} (hb : place b = some l) : 0 < (lists l).length :=
  List.length_pos_of_mem ((h.mem_iff b l).mpr hb)

omit [DecidableEq L] in
theorem takeOff_of_ne {b : N} {l : L} (hb : place b ≠ some l) : takeOff lists b l = lists l :=
  List.erase_of_not_mem fun hmem => hb ((h.mem_iff b l).mp hmem)

omit [DecidableEq L] in
theorem length_takeOff {b : N} {l : L} (hb : place b = some l) :
    (takeOff lists b l).length = (lists l).length - 1 :=
  List.length_erase_of_mem ((h.mem_iff b l).mpr hb)

omit [DecidableEq L] in
protected theorem takeOff (b : N) : OnLists (takeOff lists b) (Function.update place b none) where
  mem_iff b' l := by
    rw [Lib.takeOff, (h.nodup l).mem_erase_iff, h.mem_iff]
    rcases eq_or_ne b' b with rfl | hne
    · simp
    · simp [hne]
  nodup l := (h.nodup l).erase b

/-- Where an element is put on a list. -/
theorem put {b : N} {l : L} {xs : List N} (hb : place b = none)
    (hmem : ∀ x, x ∈ xs ↔ x = b ∨ x ∈ lists l) (hnodup : xs.Nodup) :
    OnLists (Function.update lists l xs) (Function.update place b (some l)) where
  mem_iff b' l' := by
    rcases eq_or_ne l' l with rfl | hl
    · rw [Function.update_self, hmem, h.mem_iff]
      rcases eq_or_ne b' b with rfl | hne
      · simp
      · simp [hne]
    · rw [Function.update_of_ne hl, h.mem_iff]
      rcases eq_or_ne b' b with rfl | hne
      · simp [hb, hl.symm]
      · simp [hne]
  nodup l' := by
    rcases eq_or_ne l' l with rfl | hl
    · rwa [Function.update_self]
    · rw [Function.update_of_ne hl]
      exact h.nodup l'

omit [DecidableEq N] [DecidableEq L] in
theorem not_mem {b : N} (hb : place b = none) (l : L) : b ∉ lists l := by
  rw [h.mem_iff, hb]
  exact nofun

protected theorem putFirst {b : N} (hb : place b = none) (l : L) :
    OnLists (putFirst lists l b) (Function.update place b (some l)) :=
  h.put hb (fun _ => List.mem_cons) (List.nodup_cons.mpr ⟨h.not_mem hb l, h.nodup l⟩)

protected theorem putLast {b : N} (hb : place b = none) (l : L) :
    OnLists (putLast lists l b) (Function.update place b (some l)) := by
  refine h.put hb (fun x => ?_) ?_
  · rw [List.mem_append, List.mem_singleton, or_comm]
  · exact (h.nodup l).append (List.nodup_singleton b)
      (List.disjoint_singleton.mpr (h.not_mem hb l))

omit [DecidableEq N] in
protected theorem spliceTail {src dst : L} (hne : src ≠ dst) :
    OnLists (spliceTail lists src dst)
      fun b => if place b = some src then some dst else place b where
  mem_iff b l := by
    rcases eq_or_ne l src with rfl | hsrc
    · rw [Lib.spliceTail, Function.update_self]
      split_ifs with hb
      · simp [hne.symm]
      · simp [hb]
    · rw [Lib.spliceTail, Function.update_of_ne hsrc]
      rcases eq_or_ne l dst with rfl | hdst
      · rw [Function.update_self, List.mem_append, h.mem_iff, h.mem_iff]
        split_ifs with hb
        · simp [hb]
        · simp [hb]
      · rw [Function.update_of_ne hdst, h.mem_iff]
        split_ifs with hb
        · simp [hb, hsrc.symm, hdst.symm]
        · rfl
  nodup l := by
    rcases eq_or_ne l src with rfl | hsrc
    · rw [Lib.spliceTail, Function.update_self]
      exact List.nodup_nil
    · rw [Lib.spliceTail, Function.update_of_ne hsrc]
      rcases eq_or_ne l dst with rfl | hdst
      · rw [Function.update_self]
        refine (h.nodup l).append (h.nodup src) fun b hb hb' => ?_
        rw [h.mem_iff] at hb hb'
        rw [hb] at hb'
        exact hne (Option.some.inj hb').symm
      · rw [Function.update_of_ne hdst]
        exact h.nodup l

end OnLists

end Subvol.Lib

import Mathlib.Logic.Function.Basic
import Mathlib.Tactic.Common

/-!
# Maps with a stored copy

A map is changed in memory, and now and then all of it is stored or read back. What is not stored yet
is lost when it is read back.

## Main definitions

* `WriteBack`, `WriteBackAct`, `WriteBack.act`, `WriteBack.run`.

## Main results

* `WriteBack.stored_run`: only a store changes what is stored.
* `WriteBack.reload_run`: what is read back is what was in memory when it was stored last.
-/

namespace Subvol.Lib

/-- A map in memory, and what is stored of it. -/
structure WriteBack (K V : Type*) where
  mem : K → Option V
  stored : K → Option V

inductive WriteBackAct (K V : Type*)
  | idle
  | put (k : K) (v : Option V)
  | sync
  | reload

namespace WriteBack

variable {K V : Type*} [DecidableEq K]

def act (w : WriteBack K V) : WriteBackAct K V → WriteBack K V
  | .idle => w
  | .put k v => { w with mem := Function.update w.mem k v }
  | .sync => { w with stored := w.mem }
  | .reload => { w with mem := w.stored }

def run (w : WriteBack K V) (as : List (WriteBackAct K V)) : WriteBack K V := as.foldl act w

variable (w : WriteBack K V)

@[simp] theorem run_nil : w.run [] = w := rfl

@[simp] theorem run_cons (a : WriteBackAct K V) (as : List (WriteBackAct K V)) :
    w.run (a :: as) = (w.act a).run as := rfl

theorem run_append (as bs : List (WriteBackAct K V)) : w.run (as ++ bs) = (w.run as).run bs :=
  List.foldl_append

/-- Only a store changes what is stored. -/
theorem stored_run {as : List (WriteBackAct K V)} (h : .sync ∉ as) :
    (w.run as).stored = w.stored := by
  induction as generalizing w with
  | nil => rfl
  | cons a as ih =>
    rw [List.mem_cons, not_or] at h
    rw [run_cons, ih _ h.2]
    cases a with
    | sync => exact absurd rfl h.1
    | idle => rfl
    | put k v => rfl
    | reload => rfl

/-- What is read back is what was in memory when it was stored last. -/
theorem reload_run {as bs : List (WriteBackAct K V)} (h : .sync ∉ bs) :
    (w.run (as ++ .sync :: bs ++ [.reload])).mem = (w.run as).mem := by
  rw [run_append, run_append, run_cons, run_cons, run_nil]
  exact stored_run _ h

end WriteBack

end Subvol.Lib

import Mathlib.Algebra.BigOperators.Group.List.Basic
import Mathlib.Algebra.Order.Ring.Nat
import Mathlib.Logic.Function.Basic
import Mathlib.Tactic.Common

/-!
# Entries and balances

Two records that are kept up to date by a list of operations: a map in which entries are put and
removed one after the other, and a balance that every operation changes by what it adds and takes
away.

## Main definitions

* `writeAll`: the map behind the writes.

## Main results

* `writeAll_of_put`, `writeAll_of_removed`, `writeAll_of_forall_ne`: what the map holds.
* `balance_foldlM`: the balance behind all operations.
* `collect_foldlM`: a record of all entries that were gone through.
-/

namespace Subvol.Lib

section Map

variable {κ β : Type*} [DecidableEq κ] {f : κ → Option β} {ws : List (κ × Option β)} {x : κ}

/-- The map behind the writes, in which `none` removes an entry. -/
def writeAll (f : κ → Option β) (ws : List (κ × Option β)) : κ → Option β :=
  ws.foldl (fun f w => Function.update f w.1 w.2) f

theorem writeAll_cons (w : κ × Option β) :
    writeAll f (w :: ws) = writeAll (Function.update f w.1 w.2) ws := rfl

theorem writeAll_of_forall_ne (h : ∀ w ∈ ws, w.1 ≠ x) : writeAll f ws x = f x := by
  induction ws generalizing f with
  | nil => rfl
  | cons w ws ih =>
    obtain ⟨hw, hws⟩ := List.forall_mem_cons.mp h
    rw [writeAll_cons, ih hws, Function.update_of_ne hw.symm]

/-- An entry is there when no removal of it comes behind a put, and all puts are of one value. -/
theorem writeAll_of_put {b : β} (hput : (x, some b) ∈ ws) (hone : ∀ b', (x, some b') ∈ ws → b' = b)
    (hlate : ws.Pairwise fun w w' => w.2.isSome = true → w'.2 = none → w.1 ≠ w'.1) :
    writeAll f ws x = some b := by
  induction ws generalizing f with
  | nil => exact absurd hput List.not_mem_nil
  | cons w ws ih =>
    obtain ⟨hhead, htail⟩ := List.pairwise_cons.mp hlate
    rw [writeAll_cons]
    by_cases hrest : (x, some b) ∈ ws
    · exact ih hrest (fun b' hb' => hone b' (List.mem_cons_of_mem _ hb')) htail
    · -- the last put is the first write, and nothing is written behind it
      have hw : w = (x, some b) := ((List.mem_cons.mp hput).resolve_right hrest).symm
      subst hw
      rw [writeAll_of_forall_ne, Function.update_self]
      rintro ⟨y, v⟩ hv rfl
      cases v with
      | none => exact hhead _ hv rfl rfl rfl
      | some b' => exact hrest (hone b' (List.mem_cons_of_mem _ hv) ▸ hv)

/-- An entry is gone when it is removed and not put. -/
theorem writeAll_of_removed (hmem : (x, none) ∈ ws) (hno : ∀ b, (x, some b) ∉ ws) :
    writeAll f ws x = none := by
  induction ws generalizing f with
  | nil => exact absurd hmem List.not_mem_nil
  | cons w ws ih =>
    rw [writeAll_cons]
    by_cases hrest : (x, none) ∈ ws
    · exact ih hrest fun b hb => hno b (List.mem_cons_of_mem _ hb)
    · have hw : w = (x, none) := ((List.mem_cons.mp hmem).resolve_right hrest).symm
      subst hw
      rw [writeAll_of_forall_ne, Function.update_self]
      rintro ⟨y, v⟩ hv rfl
      cases v with
      | none => exact hrest hv
      | some b => exact hno b (List.mem_cons_of_mem _ hv)

end Map

/-- When every operation changes a balance by what it adds and takes away, so do all of them. -/
theorem balance_foldlM {σ ο : Type*} {step : σ → ο → Option σ} {v : σ → ℕ} {inc dec : ο → ℕ}
    (P : ο → Prop) (hstep : ∀ s o s', P o → step s o = some s' → v s' + dec o = v s + inc o)
    {ops : List ο} {s s' : σ} (hP : ∀ o ∈ ops, P o) (h : ops.foldlM step s = some s') :
    v s' + (ops.map dec).sum = v s + (ops.map inc).sum := by
  induction ops generalizing s with
  | nil =>
    cases h
    rfl
  | cons o ops ih =>
    obtain ⟨ho, hops⟩ := List.forall_mem_cons.mp hP
    rw [List.foldlM_cons] at h
    obtain ⟨s₁, hs₁, h⟩ := Option.bind_eq_some_iff.mp h
    have hfirst := hstep s o s₁ ho hs₁
    have hrest := ih hops h
    rw [List.map_cons, List.map_cons, List.sum_cons, List.sum_cons]
    omega

/-- A record `P` of the entries gone through that every operation carries on holds behind all of
them, when the entries are such (`Q`) that every operation can. -/
theorem collect_foldlM {σ ο ε : Type*} {step : σ → ο → Option σ} {entries : ο → List ε}
    {P : List ε → σ → Prop} {Q : List ε → Prop} (hQ : ∀ es es', Q (es ++ es') → Q es)
    (hstep : ∀ es s o s', Q (es ++ entries o) → P es s → step s o = some s' →
      P (es ++ entries o) s')
    {ops : List ο} {es : List ε} {s s' : σ} (hall : Q (es ++ ops.flatMap entries)) (hs : P es s)
    (h : ops.foldlM step s = some s') : P (es ++ ops.flatMap entries) s' := by
  induction ops generalizing es s with
  | nil =>
    cases h
    rwa [List.flatMap_nil, List.append_nil]
  | cons o ops ih =>
    rw [List.flatMap_cons, ← List.append_assoc] at hall ⊢
    rw [List.foldlM_cons] at h
    obtain ⟨s₁, hs₁, h⟩ := Option.bind_eq_some_iff.mp h
    exact ih hall (hstep es s o s₁ (hQ _ _ hall) hs hs₁) h

end Subvol.Lib

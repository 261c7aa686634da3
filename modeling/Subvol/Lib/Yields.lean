import Mathlib.Tactic.Common

/-!
# Programs with a state and failures

What a program yields from a state: a result for which a postcondition holds, or a failure that may
happen. The rules follow the program from one step to the next.

## Main definitions

* `Yields`.

## Main results

* `Yields.bind`, `yields_pure`, `Yields.mono`: one step behind the other.
* `yields_forM`: a program for every element of a list.
-/

namespace Subvol.Lib

variable {σ ε α β : Type} {may : ε → Prop} {m : StateT σ (Except ε) α} {s : σ}
  {Q : α → σ → Prop}

/-- From the state, the program comes to a result for which `Q` holds or fails in a way that may
happen. -/
def Yields (may : ε → Prop) (m : StateT σ (Except ε) α) (s : σ) (Q : α → σ → Prop) : Prop :=
  match m s with
  | .ok x => Q x.1 x.2
  | .error e => may e

theorem yields_of_ok {x : α × σ} (h : m s = .ok x) : Yields may m s Q ↔ Q x.1 x.2 := by
  rw [Yields, h]

theorem yields_of_error {e : ε} (h : m s = .error e) : Yields may m s Q ↔ may e := by
  rw [Yields, h]

theorem yields_of_eq {m' : StateT σ (Except ε) α} (h : m = m') :
    Yields may m s Q ↔ Yields may m' s Q := by
  rw [h]

theorem yields_pure {a : α} (h : Q a s) : Yields may (pure a) s Q := h

theorem yields_throw {e : ε} (h : may e) : Yields may (throw e : StateT σ (Except ε) α) s Q := h

theorem yields_get_bind {f : σ → StateT σ (Except ε) α} (h : Yields may (f s) s Q) :
    Yields may (get >>= f) s Q := h

theorem Yields.mono {R : α → σ → Prop} (h : Yields may m s Q)
    (himp : ∀ a s', Q a s' → R a s') : Yields may m s R := by
  cases hm : m s with
  | ok x => exact (yields_of_ok hm).mpr (himp _ _ ((yields_of_ok hm).mp h))
  | error e => exact (yields_of_error hm).mpr ((yields_of_error hm).mp h)

/-- The second program starts where the first has ended. -/
theorem Yields.bind {f : α → StateT σ (Except ε) β} {R : β → σ → Prop} (h : Yields may m s Q)
    (hf : ∀ a s', m s = .ok (a, s') → Q a s' → Yields may (f a) s' R) :
    Yields may (m >>= f) s R := by
  cases hm : m s with
  | ok x =>
    have heq : (m >>= f) s = f x.1 x.2 := by
      change (m s >>= fun y => f y.1 y.2) = _
      rw [hm]
      rfl
    have hrest := hf x.1 x.2 hm ((yields_of_ok hm).mp h)
    rw [Yields] at hrest ⊢
    rwa [heq]
  | error e =>
    have heq : (m >>= f) s = .error e := by
      change (m s >>= fun y => f y.1 y.2) = _
      rw [hm]
      rfl
    exact (yields_of_error heq).mpr ((yields_of_error hm).mp h)

/-- Programs run one behind the other for the elements of a list, under an invariant of the elements
that are left. -/
theorem yields_forM {γ : Type} {f : γ → StateT σ (Except ε) PUnit} (I : List γ → σ → Prop)
    (hstep : ∀ x xs s, I (x :: xs) s → Yields may (f x) s fun _ => I xs) {xs : List γ} {s : σ}
    (h : I xs s) : Yields may (forM xs f) s fun _ => I [] := by
  induction xs generalizing s with
  | nil => exact yields_pure h
  | cons x xs ih =>
    rw [List.forM_cons]
    exact (hstep x xs s h).bind fun _ s' _ h' => ih h'

end Subvol.Lib

import Mathlib.Data.List.Nodup
import Mathlib.Data.List.Perm.Basic
import Mathlib.Logic.Function.Basic

/-!
# Items that wait in queues

An item that is waiting has a flag, so that it is not put in line a second time. The flag is set and
cleared by steps of their own, and the item moves through several places in between. A queue keeps a
record of what was put in line, what was served and what was taken out.

## Main definitions

* `Flagged`: an item with its flag set is in one place, the others are in none.
* `FifoLog`, `FifoLog.Of`: the record of a queue.

## Main results

* `Flagged.enter`, `Flagged.move`, `Flagged.leave`.
* `FifoLog.Of.push`, `FifoLog.Of.pop`, `FifoLog.Of.remove`.
-/

namespace Subvol.Lib

section Flagged

variable {W P : Type*}

/-- An item with its flag set is in one place, the others are in none. -/
structure Flagged (flag : W → Bool) (holds : P → W → Prop) : Prop where
  flag : ∀ w, flag w = true ↔ ∃ p, holds p w
  unique : ∀ w p p', holds p w → holds p' w → p = p'

namespace Flagged

variable {flag : W → Bool} {holds holds' : P → W → Prop} {p r : P} {w : W}

theorem congr (h : Flagged flag holds) (hsame : ∀ q v, holds' q v ↔ holds q v) :
    Flagged flag holds' where
  flag v := (h.flag v).trans (exists_congr fun q => (hsame q v).symm)
  unique v q q' hq hq' := h.unique v q q' ((hsame q v).mp hq) ((hsame q' v).mp hq')

/-- An item in no place gets its flag and a place. -/
theorem enter [DecidableEq W] (h : Flagged flag holds) (hw : flag w = false)
    (hto : ∀ v, holds' p v ↔ holds p v ∨ v = w)
    (hother : ∀ q, q ≠ p → ∀ v, holds' q v ↔ holds q v) :
    Flagged (Function.update flag w true) holds' := by
  have hnone : ∀ q, ¬holds q w := fun q hq =>
    Bool.false_ne_true (hw.symm.trans ((h.flag w).mpr ⟨q, hq⟩))
  have hold : ∀ q v, v ≠ w → (holds' q v ↔ holds q v) := by
    intro q v hv
    by_cases hq : q = p
    · rw [hq, hto, or_iff_left hv]
    · exact hother q hq v
  have honly : ∀ q, holds' q w → q = p := by
    intro q hq
    by_contra hne
    exact hnone q ((hother q hne w).mp hq)
  refine ⟨fun v => ?_, fun v q q' hq hq' => ?_⟩
  · by_cases hv : v = w
    · subst hv
      rw [Function.update_self]
      exact iff_of_true rfl ⟨p, (hto v).mpr (.inr rfl)⟩
    · rw [Function.update_of_ne hv, h.flag]
      exact exists_congr fun q => (hold q v hv).symm
  · by_cases hv : v = w
    · subst hv
      rw [honly q hq, honly q' hq']
    · exact h.unique v q q' ((hold q v hv).mp hq) ((hold q' v hv).mp hq')

/-- An item goes from one place to another. -/
theorem move (h : Flagged flag holds) (hp : holds p w) (hne : r ≠ p)
    (hfrom : ∀ v, holds' p v ↔ holds p v ∧ v ≠ w) (hto : ∀ v, holds' r v ↔ holds r v ∨ v = w)
    (hother : ∀ q, q ≠ p → q ≠ r → ∀ v, holds' q v ↔ holds q v) : Flagged flag holds' := by
  have hold : ∀ q v, v ≠ w → (holds' q v ↔ holds q v) := by
    intro q v hv
    by_cases hq : q = p
    · rw [hq, hfrom, and_iff_left hv]
    · by_cases hq' : q = r
      · rw [hq', hto, or_iff_left hv]
      · exact hother q hq hq' v
  have honly : ∀ q, holds' q w → q = r := by
    intro q hq
    by_contra hne'
    have hqp : q ≠ p := by
      rintro rfl
      exact ((hfrom w).mp hq).2 rfl
    exact hqp (h.unique w q p ((hother q hqp hne' w).mp hq) hp)
  refine ⟨fun v => ?_, fun v q q' hq hq' => ?_⟩
  · rw [h.flag]
    by_cases hv : v = w
    · subst hv
      exact iff_of_true ⟨p, hp⟩ ⟨r, (hto v).mpr (.inr rfl)⟩
    · exact exists_congr fun q => (hold q v hv).symm
  · by_cases hv : v = w
    · subst hv
      rw [honly q hq, honly q' hq']
    · exact h.unique v q q' ((hold q v hv).mp hq) ((hold q' v hv).mp hq')

/-- An item loses its place and its flag. -/
theorem leave [DecidableEq W] (h : Flagged flag holds) (hp : holds p w)
    (hfrom : ∀ v, holds' p v ↔ holds p v ∧ v ≠ w)
    (hother : ∀ q, q ≠ p → ∀ v, holds' q v ↔ holds q v) :
    Flagged (Function.update flag w false) holds' := by
  have hold : ∀ q v, v ≠ w → (holds' q v ↔ holds q v) := by
    intro q v hv
    by_cases hq : q = p
    · rw [hq, hfrom, and_iff_left hv]
    · exact hother q hq v
  have hnone : ∀ q, ¬holds' q w := by
    intro q hq
    by_cases hqp : q = p
    · subst hqp
      exact ((hfrom w).mp hq).2 rfl
    · exact hqp (h.unique w q p ((hother q hqp w).mp hq) hp)
  refine ⟨fun v => ?_, fun v q q' hq hq' => ?_⟩
  · by_cases hv : v = w
    · subst hv
      rw [Function.update_self]
      exact iff_of_false Bool.false_ne_true fun ⟨q, hq⟩ => hnone q hq
    · rw [Function.update_of_ne hv, h.flag]
      exact exists_congr fun q => (hold q v hv).symm
  · by_cases hv : v = w
    · subst hv
      exact absurd hq (hnone q)
    · exact h.unique v q q' ((hold q v hv).mp hq) ((hold q' v hv).mp hq')

end Flagged

end Flagged

section Log

variable {W : Type*}

/-- What was put in line, what was served and what was taken out, in the order in which it was. -/
structure FifoLog (W : Type*) where
  pushed : List W := []
  served : List W := []
  removed : List W := []
deriving DecidableEq, Repr

namespace FifoLog

def push (l : FifoLog W) (w : W) : FifoLog W := { l with pushed := l.pushed ++ [w] }

def pop (l : FifoLog W) (w : W) : FifoLog W := { l with served := l.served ++ [w] }

def remove (l : FifoLog W) (w : W) : FifoLog W := { l with removed := l.removed ++ [w] }

/-- The record of a queue: nothing was lost or doubled, and all is served in the order in which it
was put in line. -/
structure Of (l : FifoLog W) (waiting : List W) : Prop where
  order : (l.served ++ waiting).Sublist l.pushed
  perm : l.pushed.Perm (l.served ++ waiting ++ l.removed)

namespace Of

variable {l : FifoLog W} {waiting : List W} {w : W}

theorem empty : Of ({} : FifoLog W) [] := ⟨.slnil, .nil⟩

theorem push (h : l.Of waiting) (w : W) : (l.push w).Of (waiting ++ [w]) where
  order := by
    rw [← List.append_assoc]
    exact h.order.append (.refl _)
  perm := by
    have hlast : (l.removed ++ [w]).Perm ([w] ++ l.removed) := List.perm_append_comm
    have hall : (l.pushed ++ [w]).Perm (l.served ++ waiting ++ ([w] ++ l.removed)) := by
      refine (h.perm.append_right [w]).trans ?_
      rw [List.append_assoc]
      exact hlast.append_left _
    simpa only [FifoLog.push, List.append_assoc] using hall

theorem pop (h : l.Of (w :: waiting)) : (l.pop w).Of waiting := by
  have hsame : l.served ++ w :: waiting = l.served ++ [w] ++ waiting := by simp
  exact ⟨hsame ▸ h.order, hsame ▸ h.perm⟩

theorem remove [DecidableEq W] (h : l.Of waiting) (hw : w ∈ waiting) :
    (l.remove w).Of (waiting.erase w) where
  order := (List.Sublist.append_left List.erase_sublist _).trans h.order
  perm := by
    have hmove : (waiting ++ l.removed).Perm (waiting.erase w ++ (l.removed ++ [w])) := by
      refine ((List.perm_cons_erase hw).append_right _).trans ?_
      rw [← List.append_assoc]
      exact (List.perm_append_singleton w (waiting.erase w ++ l.removed)).symm
    have h' := h.perm
    rw [List.append_assoc] at h'
    rw [List.append_assoc]
    exact h'.trans (hmove.append_left _)

end Of

end FifoLog

end Log

end Subvol.Lib

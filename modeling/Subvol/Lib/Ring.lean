import Mathlib.Data.List.Rotate
import Mathlib.Data.List.Range
import Mathlib.Tactic.Common

/-!
# Positions in a ring of slots

A ring of `n` slots with a current slot `c` is walked from the slot after `c` round to
`c` itself. `Ring.pos n c i` is the place of slot `i` on this walk, `Ring.order n c` the
walk as a list.

## Main definitions

* `Ring.next`, `Ring.pos`, `Ring.order`.
* `Ring.walk`: from a slot on while a predicate holds.

## Main results

* `Ring.pos_next_slot`: moving `c` one slot on sends the slot it lands on to the end of the
  walk and every other slot one place forward.
* `Ring.order_next`: the same for the walk as a list.
* `Ring.walk_spec`: what `Ring.walk` has passed when it stops.
-/

namespace Subvol.Lib.Ring

/-- The slot after `i`. -/
def next (n i : ℕ) : ℕ := (i + 1) % n

/-- The place of slot `i` on the walk that starts after `c`. -/
def pos (n c i : ℕ) : ℕ := (i + n - c - 1) % n

/-- From slot `i` on to the next slot while `p` holds, at most `fuel` times. -/
def walk (n : ℕ) (p : ℕ → Bool) : ℕ → ℕ → ℕ
  | 0, i => i
  | fuel + 1, i => if p i then walk n p fuel (next n i) else i

/-- The slots in the order of the walk that starts after `c` and ends at `c`. -/
def order (n c : ℕ) : List ℕ := (List.range n).rotate (c + 1)

variable {n c i j : ℕ}

theorem next_lt (hn : 0 < n) : next n i < n := Nat.mod_lt _ hn

theorem pos_lt (hn : 0 < n) : pos n c i < n := Nat.mod_lt _ hn

theorem next_eq (hi : i < n) : next n i = if i + 1 = n then 0 else i + 1 := by
  unfold next
  split_ifs with h
  · rw [h, Nat.mod_self]
  · exact Nat.mod_eq_of_lt (by omega)

theorem pos_eq (hc : c < n) (hi : i < n) :
    pos n c i = if c < i then i - c - 1 else i + n - c - 1 := by
  unfold pos
  split_ifs with h
  · have : i + n - c - 1 = (i - c - 1) + n := by omega
    rw [this, Nat.add_mod_right]
    exact Nat.mod_eq_of_lt (by omega)
  · exact Nat.mod_eq_of_lt (by omega)

/-- The current slot is the last one of the walk. -/
theorem pos_self (hc : c < n) : pos n c c = n - 1 := by
  rw [pos_eq hc hc]
  simp only [lt_irrefl, if_false]
  omega

theorem pos_inj (hc : c < n) (hi : i < n) (hj : j < n) (h : pos n c i = pos n c j) :
    i = j := by
  rw [pos_eq hc hi, pos_eq hc hj] at h
  split_ifs at h <;> omega

/-- The slot after the current one starts the walk. -/
theorem pos_next (hc : c < n) : pos n c (next n c) = 0 := by
  rw [pos_eq hc (next_lt (by omega)), next_eq hc]
  split_ifs <;> omega

/-- Walking on from a slot other than the current one takes one step. -/
theorem pos_step (hc : c < n) (hi : i < n) (h : i ≠ c) :
    pos n c (next n i) = pos n c i + 1 := by
  rw [pos_eq hc (next_lt (by omega)), pos_eq hc hi, next_eq hi]
  split_ifs <;> omega

/-- Moving the current slot on sends the slot it lands on to the end of the walk and every
other slot one place forward. -/
theorem pos_next_slot (hc : c < n) (hi : i < n) (h : i ≠ next n c) :
    pos n (next n c) i + 1 = pos n c i := by
  have hnc : next n c < n := next_lt (by omega)
  rw [pos_eq hnc hi, pos_eq hc hi]
  rw [next_eq hc] at h ⊢
  split_ifs at h ⊢ <;> omega

theorem length_order : (order n c).length = n := by
  simp [order]

theorem mem_order : i ∈ order n c ↔ i < n := by
  simp [order]

theorem order_perm : (order n c).Perm (List.range n) := List.rotate_perm _ _

theorem nodup_order : (order n c).Nodup := order_perm.nodup_iff.mpr List.nodup_range

/-- The walk visits each slot at its place. -/
theorem getElem_order (h : i < (order n c).length) :
    (order n c)[i] = (c + 1 + i) % n := by
  simp only [order, List.getElem_rotate, List.getElem_range, List.length_range]
  congr 1
  omega

/-- The walk starts at the slot after the current one. -/
theorem order_eq_cons (hn : 0 < n) :
    order n c = next n c :: (order n c).tail := by
  have hlen : 0 < (order n c).length := by rw [length_order]; exact hn
  have hhead : (order n c)[0] = next n c := getElem_order hlen
  rw [← hhead]
  exact (List.cons_head_tail (List.ne_nil_of_length_pos hlen)).symm.trans
    (by rw [List.head_eq_getElem])

/-- Moving the current slot on moves the head of the walk to its end. -/
theorem order_next (hn : 0 < n) :
    order n (next n c) = (order n c).tail ++ [next n c] := by
  have hrot : order n (next n c) = (order n c).rotate 1 := by
    unfold order next
    rw [List.rotate_rotate, ← List.rotate_mod, ← List.rotate_mod (n := c + 1 + 1)]
    simp only [List.length_range, Nat.mod_add_mod]
  rw [hrot, order_eq_cons hn, List.rotate_cons_succ, List.rotate_zero, List.tail_cons]

/-- The walk ends at the current slot. -/
theorem order_eq_concat (hc : c < n) :
    order n c = (order n c).dropLast ++ [c] := by
  have hlen : 0 < (order n c).length := by rw [length_order]; omega
  have hlast : (order n c).getLast (List.ne_nil_of_length_pos hlen) = c := by
    rw [List.getLast_eq_getElem, getElem_order, length_order]
    have : c + 1 + (n - 1) = c + n := by omega
    rw [this, Nat.add_mod_right, Nat.mod_eq_of_lt hc]
  conv_lhs => rw [← List.dropLast_append_getLast (List.ne_nil_of_length_pos hlen), hlast]

/-! ### Walking on while a predicate holds -/

/-- What `walk` does from slot `i` when `p` fails at `stop`, a slot not before `i`: it halts at a
slot between the two where `p` fails, and `p` held at every slot it passed. -/
structure WalkSpec (n c : ℕ) (p : ℕ → Bool) (i stop r : ℕ) : Prop where
  lt : r < n
  le : pos n c i ≤ pos n c r
  le_stop : pos n c r ≤ pos n c stop
  passed : ∀ k < n, pos n c i ≤ pos n c k → pos n c k < pos n c r → p k = true
  halted : p r = false

theorem walk_spec {p : ℕ → Bool} {stop : ℕ} (hc : c < n) (hs : stop < n)
    (hp : p stop = false) (fuel : ℕ) (hi : i < n) (hle : pos n c i ≤ pos n c stop)
    (hfuel : pos n c stop - pos n c i < fuel) :
    WalkSpec n c p i stop (walk n p fuel i) := by
  induction fuel generalizing i with
  | zero => omega
  | succ fuel ih =>
    rw [walk]
    split_ifs with h
    · -- `p` holds at `i`, so `i` is before `stop` and in particular not the current slot
      have hne : i ≠ stop := by
        rintro rfl
        simp [hp] at h
      have hlt : pos n c i < pos n c stop :=
        lt_of_le_of_ne hle fun heq => hne (pos_inj hc hi hs heq)
      have hcur : i ≠ c := by
        rintro rfl
        have := pos_lt (n := n) (c := i) (i := stop) (by omega)
        rw [pos_self hc] at hlt
        omega
      have hstep : pos n c (next n i) = pos n c i + 1 := pos_step hc hi hcur
      have hrec := ih (i := next n i) (next_lt (by omega)) (by omega) (by omega)
      refine ⟨hrec.lt, by have := hrec.le; omega, hrec.le_stop, ?_, hrec.halted⟩
      intro k hk hik hkr
      rcases Nat.eq_or_lt_of_le hik with heq | hlt'
      · rw [← pos_inj hc hi hk heq]
        exact h
      · exact hrec.passed k hk (by omega) hkr
    · exact ⟨hi, le_rfl, hle, fun k _ h₁ h₂ => absurd h₁ (by omega), by simpa using h⟩

/-- The fuel `n` is enough for any walk. -/
theorem walk_spec_full {p : ℕ → Bool} {stop : ℕ} (hc : c < n) (hs : stop < n)
    (hp : p stop = false) (hi : i < n) (hle : pos n c i ≤ pos n c stop) :
    WalkSpec n c p i stop (walk n p n i) := by
  apply walk_spec hc hs hp n hi hle
  have := pos_lt (n := n) (c := c) (i := stop) (by omega)
  omega

end Subvol.Lib.Ring

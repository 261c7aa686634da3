import Mathlib.Data.List.Perm.Subperm
import Subvol.Lib.BitField
import Subvol.Lock.Six

/-!
# The word and the queue of a six lock

The counts and bits of the word are read and changed independently of each other as long as no count
overflows. The queue is a list of slots, and a waiter never takes the slot of another.

## Main definitions

* `SixWord`: a word with given numbers of readers, intent holders and writers.
* `WaitingBit`: the bit that says that somebody waits for the type.
* `SixLockWaitFifo.Ok`: no waiter stands at or above `nr`.

## Main results

* `SixWord.add`, `SixWord.sub`, `SixWord.upgrade`, `SixWord.clearWrite`: the changes of the counts.
* `waitingBit_set`, `waitingBit_clear`: the changes of the bits.
* `SixLockWaitFifo.insert_spec`: a waiter is put into a free slot.
* `SixLockWaitFifo.candidate_none`, `SixLockWaitFifo.candidate_read`,
  `SixLockWaitFifo.candidate_unique`: a pass overlooks nobody.
-/

namespace Subvol

open Lib

/-! ### The word -/

/-- A word with `r` readers, `i` intent holders and `p` writers, of which there is at most one. -/
structure SixWord (w r i p : ℕ) : Prop where
  low : w % 2 ^ 28 = r + 2 ^ 26 * i + 2 ^ 27 * p
  readers : r < 2 ^ 26
  intents : i ≤ 1
  writers : p ≤ 1
  top : w < 2 ^ 31

/-- The bit that says that somebody waits. -/
def WaitingBit (w : ℕ) (ty : SixLockType) : Prop := w &&& ty.waitingMask ≠ 0

theorem waitingMask_eq (ty : SixLockType) : ty.waitingMask = 2 ^ (28 + ty.index) := by
  cases ty
  · rfl
  · rfl
  · rfl

theorem waitingBit_iff (w : ℕ) (ty : SixLockType) :
    WaitingBit w ty ↔ (w / 2 ^ 28).testBit ty.index = true := by
  rw [WaitingBit, waitingMask_eq, ne_eq, and_two_pow_eq_zero, Nat.testBit_div_two_pow,
    Nat.add_comm 28, Bool.not_eq_false]

theorem WaitingBit.congr {w w' : ℕ} (h : w' / 2 ^ 28 = w / 2 ^ 28) (ty : SixLockType) :
    WaitingBit w' ty ↔ WaitingBit w ty := by
  rw [waitingBit_iff, waitingBit_iff, h]

theorem SixLockType.index_inj {ty ty' : SixLockType} : ty.index = ty'.index ↔ ty = ty' := by
  cases ty <;> cases ty' <;> decide

theorem waitingBit_set (w : ℕ) (ty ty' : SixLockType) :
    WaitingBit (w ||| ty.waitingMask) ty' ↔ WaitingBit w ty' ∨ ty = ty' := by
  simp only [WaitingBit, waitingMask_eq, ne_eq, and_two_pow_eq_zero, Bool.not_eq_false,
    testBit_setBit, Bool.or_eq_true, decide_eq_true_eq, Nat.add_left_cancel_iff,
    SixLockType.index_inj]

theorem waitingBit_clear (w : ℕ) (ty ty' : SixLockType) :
    WaitingBit (fetchAndNot w ty.waitingMask) ty' ↔ WaitingBit w ty' ∧ ty ≠ ty' := by
  have hlt : ∀ ty : SixLockType, 28 + ty.index < 32 := by
    intro ty
    cases ty <;> decide
  simp only [WaitingBit, fetchAndNot, waitingMask_eq, ne_eq, and_two_pow_eq_zero,
    Bool.not_eq_false, testBit_clearBit (hlt ty), Bool.and_eq_true, decide_eq_true_eq, hlt ty',
    true_and, Bool.not_eq_true', decide_eq_false_iff_not, Nat.add_left_cancel_iff,
    SixLockType.index_inj]

namespace SixWord

variable {w r i p : ℕ}

theorem and_read (h : SixWord w r i p) : w &&& sixLockHeldRead = r := by
  rw [sixLockHeldRead, Nat.and_two_pow_sub_one_eq_mod]
  have := h.low
  have := h.readers
  omega

theorem and_intent (h : SixWord w r i p) : w &&& sixLockHeldIntent = 0 ↔ i = 0 := by
  rw [sixLockHeldIntent, and_two_pow_eq_zero, Nat.testBit_eq_decide_div_mod_eq]
  have := h.low
  have := h.readers
  have := h.intents
  simp only [decide_eq_false_iff_not]
  omega

theorem and_write (h : SixWord w r i p) : w &&& sixLockHeldWrite = 0 ↔ p = 0 := by
  rw [sixLockHeldWrite, and_two_pow_eq_zero, Nat.testBit_eq_decide_div_mod_eq]
  have := h.low
  have := h.readers
  have := h.intents
  have := h.writers
  simp only [decide_eq_false_iff_not]
  omega

/-- Adding to one of the counts. -/
theorem add (h : SixWord w r i p) {r' i' p' v : ℕ} (hv : r' + 2 ^ 26 * i' + 2 ^ 27 * p' =
      r + 2 ^ 26 * i + 2 ^ 27 * p + v) (hr : r' < 2 ^ 26) (hi : i' ≤ 1) (hp : p' ≤ 1) :
    SixWord (fetchAdd w v) r' i' p' ∧ fetchAdd w v / 2 ^ 28 = w / 2 ^ 28 := by
  obtain ⟨hlow, hr0, hi0, hp0, htop⟩ := h
  have hsum : fetchAdd w v = w + v := by
    rw [fetchAdd]
    omega
  refine ⟨⟨?_, hr, hi, hp, ?_⟩, ?_⟩
  · rw [hsum]
    omega
  · rw [hsum]
    omega
  · rw [hsum]
    omega

/-- Taking from one of the counts. -/
theorem sub (h : SixWord w r i p) {r' i' p' v : ℕ} (hv : r' + 2 ^ 26 * i' + 2 ^ 27 * p' + v =
      r + 2 ^ 26 * i + 2 ^ 27 * p) (hr : r' ≤ r) (hi : i' ≤ i) :
    SixWord (fetchSub w v) r' i' p' ∧ fetchSub w v / 2 ^ 28 = w / 2 ^ 28 := by
  obtain ⟨hlow, hr0, hi0, hp0, htop⟩ := h
  have hsum : fetchSub w v + v = w := by
    rw [fetchSub]
    omega
  refine ⟨⟨?_, ?_, ?_, ?_, ?_⟩, ?_⟩ <;> omega

theorem addRead (h : SixWord w r i p) (hr : r + 1 < 2 ^ 26) :
    SixWord (fetchAdd w (SixLockType.lockVal .read)) (r + 1) i p ∧
      fetchAdd w (SixLockType.lockVal .read) / 2 ^ 28 = w / 2 ^ 28 := by
  refine h.add ?_ hr h.intents h.writers
  simp only [SixLockType.lockVal]
  omega

theorem addIntent (h : SixWord w r 0 p) :
    SixWord (fetchAdd w (SixLockType.lockVal .intent)) r 1 p ∧
      fetchAdd w (SixLockType.lockVal .intent) / 2 ^ 28 = w / 2 ^ 28 := by
  refine h.add ?_ h.readers le_rfl h.writers
  simp only [SixLockType.lockVal, sixLockHeldIntent]
  omega

theorem addWrite (h : SixWord w r i 0) :
    SixWord (fetchAdd w sixLockHeldWrite) r i 1 ∧
      fetchAdd w sixLockHeldWrite / 2 ^ 28 = w / 2 ^ 28 := by
  refine h.add ?_ h.readers h.intents le_rfl
  simp only [sixLockHeldWrite]
  omega

theorem subRead (h : SixWord w (r + 1) i p) :
    SixWord (fetchSub w (SixLockType.lockVal .read)) r i p ∧
      fetchSub w (SixLockType.lockVal .read) / 2 ^ 28 = w / 2 ^ 28 := by
  refine h.sub ?_ (Nat.le_succ r) le_rfl
  simp only [SixLockType.lockVal]
  omega

theorem subIntent (h : SixWord w r 1 p) :
    SixWord (fetchSub w (SixLockType.lockVal .intent)) r 0 p ∧
      fetchSub w (SixLockType.lockVal .intent) / 2 ^ 28 = w / 2 ^ 28 := by
  refine h.sub ?_ le_rfl (Nat.zero_le 1)
  simp only [SixLockType.lockVal, sixLockHeldIntent]
  omega

theorem subWrite (h : SixWord w r i 1) :
    SixWord (fetchSub w (SixLockType.lockVal .write)) r i 0 ∧
      fetchSub w (SixLockType.lockVal .write) / 2 ^ 28 = w / 2 ^ 28 := by
  refine h.sub ?_ le_rfl le_rfl
  simp only [SixLockType.lockVal, sixLockHeldWrite]
  omega

theorem nospin (h : SixWord w r i p) : w &&& sixLockNospin = 0 := by
  rw [sixLockNospin, and_two_pow_eq_zero]
  exact Nat.testBit_lt_two_pow h.top

/-- The exchange of an upgrade. -/
theorem upgrade (h : SixWord w (r + 1) 0 p) :
    SixWord ((w - 1) ||| sixLockHeldIntent) r 1 p ∧
      ((w - 1) ||| sixLockHeldIntent) / 2 ^ 28 = w / 2 ^ 28 := by
  obtain ⟨hlow, hr0, hi0, hp0, htop⟩ := h
  have hor : (w - 1) ||| sixLockHeldIntent = (w - 1) + 2 ^ 26 := by
    refine setBit_eq_add ?_
    rw [Nat.testBit_eq_decide_div_mod_eq, decide_eq_false_iff_not]
    omega
  rw [hor]
  refine ⟨⟨?_, ?_, ?_, ?_, ?_⟩, ?_⟩ <;> omega

theorem setWaiting (h : SixWord w r i p) (ty : SixLockType) :
    SixWord (w ||| ty.waitingMask) r i p := by
  refine ⟨?_, h.readers, h.intents, h.writers, ?_⟩
  · rw [Nat.or_mod_two_pow, h.low]
    cases ty
    all_goals simp [waitingMask_eq, SixLockType.index]
  · refine Nat.or_lt_two_pow h.top ?_
    cases ty <;> decide

theorem clearWaiting (h : SixWord w r i p) (ty : SixLockType) :
    SixWord (fetchAndNot w ty.waitingMask) r i p := by
  rw [fetchAndNot]
  refine ⟨?_, h.readers, h.intents, h.writers, lt_of_le_of_lt Nat.and_le_left h.top⟩
  rw [← h.low, Nat.and_mod_two_pow]
  have hmask : (2 ^ 32 - 1 - ty.waitingMask) % 2 ^ 28 = 2 ^ 28 - 1 := by
    cases ty <;> decide
  rw [hmask, Nat.and_two_pow_sub_one_eq_mod, Nat.mod_mod]

/-- A writer that gives up. -/
theorem clearWrite (h : SixWord w r i 1) :
    SixWord (fetchAndNot w sixLockHeldWrite) r i 0 ∧
      fetchAndNot w sixLockHeldWrite / 2 ^ 28 = w / 2 ^ 28 := by
  obtain ⟨hlow, hr0, hi0, hp0, htop⟩ := h
  have hsum : fetchAndNot w sixLockHeldWrite + 2 ^ 27 = w := by
    rw [fetchAndNot]
    refine clearBit_add (by decide) (by omega) ?_
    rw [Nat.testBit_eq_decide_div_mod_eq, decide_eq_true_eq]
    omega
  refine ⟨⟨?_, ?_, ?_, ?_, ?_⟩, ?_⟩ <;> omega

end SixWord

/-! ### The queue -/

section Fifo

variable {τ : Type*}

theorem SixLockWaitSlot.Wants.unique {slot : SixLockWaitSlot τ} {ty ty' : SixLockType}
    (h : slot.Wants ty) (h' : slot.Wants ty') : ty = ty' :=
  SixLockType.index_inj.mp (h.symm.trans h')

namespace SixLockWaitFifo

variable {wf wf' : SixLockWaitFifo τ} {task : τ} {ty : SixLockType} {transStartTime i j : ℕ}
  {more : Bool}

/-- No waiter stands at or above `nr`. -/
def Ok (wf : SixLockWaitFifo τ) : Prop := ∀ i, wf.nr ≤ i → wf.slot i = none

theorem wants_startTimeOf (task : τ) (transStartTime : ℕ) (ty : SixLockType) :
    SixLockWaitSlot.Wants ⟨task, startTimeOf transStartTime ty⟩ ty := by
  have hthree : (3 : ℕ) = 2 ^ 2 - 1 := rfl
  have hindex : ty.index < 4 := by
    cases ty <;> decide
  rw [SixLockWaitSlot.Wants, startTimeOf, hthree, Nat.and_two_pow_sub_one_eq_mod,
    Nat.and_two_pow_sub_one_eq_mod, Nat.or_mod_two_pow, Nat.shiftLeft_eq]
  have hlow : transStartTime * 2 ^ 2 % 2 ^ 64 % 2 ^ 2 = 0 := by omega
  rw [hlow, Nat.zero_or]
  omega

theorem slot_remove (wf : SixLockWaitFifo τ) (i j : ℕ) :
    (wf.remove j).slot i = if i = j then none else wf.slot i := by
  rw [slot, slot, remove, List.getElem?_set]
  by_cases hij : j = i
  · rw [if_pos hij, if_pos hij.symm]
    split_ifs
    · rfl
    · rfl
  · rw [if_neg hij, if_neg fun h => hij h.symm]

theorem slot_shrink (wf : SixLockWaitFifo τ) (i : ℕ) : wf.shrink.slot i = wf.slot i := rfl

theorem Ok.remove (h : wf.Ok) (j : ℕ) : (wf.remove j).Ok := by
  intro i hi
  rw [slot_remove]
  split_ifs
  · rfl
  · exact h i hi

/-- The loop of `shrink` passes only slots without a waiter. -/
theorem slot_of_shrinkNr_le (wf : SixLockWaitFifo τ) (n : ℕ) :
    ∀ i, wf.shrinkNr n ≤ i → i < n → wf.slot i = none := by
  induction n with
  | zero => exact fun i _ hi => absurd hi (Nat.not_lt_zero i)
  | succ n ih =>
    intro i hle hlt
    rw [shrinkNr] at hle
    split_ifs at hle with hnone
    · rcases Nat.lt_succ_iff_lt_or_eq.mp hlt with hi | rfl
      · exact ih i hle hi
      · exact Option.isNone_iff_eq_none.mp hnone
    · omega

theorem Ok.shrink (h : wf.Ok) : wf.shrink.Ok := by
  intro i hi
  rw [slot_shrink]
  by_cases hlt : i < wf.nr
  · exact slot_of_shrinkNr_le wf wf.nr i hi hlt
  · exact h i (not_lt.mp hlt)

theorem slot_firstFree (h : wf.Ok) : wf.slot wf.firstFree = none := by
  rw [firstFree]
  cases hfind : (List.range wf.nr).find? fun i => (wf.slot i).isNone with
  | none => exact h _ le_rfl
  | some i =>
    have hnone := List.find?_some hfind
    exact Option.isNone_iff_eq_none.mp hnone

/-- The slot to fill is free, and the queue that has it has the same waiters. -/
theorem reserve_spec (h : wf.Ok) (hres : wf.reserve = some (wf', i)) :
    wf.slot i = none ∧ wf'.nr = wf.nr ∧ ∀ j, wf'.slot j = wf.slot j := by
  rw [reserve] at hres
  split_ifs at hres with hhint hnone hsize hgrow
  · obtain ⟨rfl, rfl⟩ := Prod.mk.inj (Option.some.inj hres)
    exact ⟨Option.isNone_iff_eq_none.mp hnone, rfl, fun j => rfl⟩
  · obtain ⟨rfl, rfl⟩ := Prod.mk.inj (Option.some.inj hres)
    refine ⟨slot_firstFree h, rfl, fun j => ?_⟩
    rw [slot, slot, List.getElem?_append]
    split_ifs with hj
    · rfl
    · rw [List.getElem?_eq_none (not_lt.mp hj), List.getElem?_replicate]
      split_ifs
      · rfl
      · rfl
  · obtain ⟨rfl, rfl⟩ := Prod.mk.inj (Option.some.inj hres)
    exact ⟨slot_firstFree h, rfl, fun j => rfl⟩

/-- A waiter is put into a free slot. -/
theorem insert_spec (h : wf.Ok) (hins : wf.insert task ty transStartTime = some (wf', i)) :
    wf.slot i = none ∧ wf'.Ok ∧
      ∀ j, wf'.slot j = if j = i then some ⟨task, startTimeOf transStartTime ty⟩ else wf.slot j := by
  rw [insert] at hins
  cases hres : wf.reserve with
  | none =>
    rw [hres] at hins
    cases hins
  | some r =>
    obtain ⟨wf₁, k⟩ := r
    obtain ⟨hfree, hnr, hslots⟩ := reserve_spec h hres
    simp only [hres] at hins
    split_ifs at hins with hlt
    obtain ⟨rfl, rfl⟩ := Prod.mk.inj (Option.some.inj hins)
    have hslot : ∀ j, (wf₁.data.set k (some ⟨task, startTimeOf transStartTime ty⟩))[j]?.join =
        if j = k then some ⟨task, startTimeOf transStartTime ty⟩ else wf.slot j := by
      intro j
      rw [List.getElem?_set, ← hslots j, slot]
      by_cases hj : k = j
      · rw [if_pos hj, if_pos hj.symm, if_pos hlt]
        rfl
      · rw [if_neg hj, if_neg fun h => hj h.symm]
    refine ⟨hfree, fun j hj => ?_, hslot⟩
    have hj' : wf₁.nr ≤ j ∧ k < j := by
      simp only [sup_le_iff] at hj
      omega
    refine (hslot j).trans ?_
    rw [if_neg (by omega)]
    exact h j (hnr ▸ hj'.1)

theorem wants_eq_true (wf : SixLockWaitFifo τ) (ty : SixLockType) (i : ℕ) :
    wf.wants ty i = true ↔ ∃ slot, wf.slot i = some slot ∧ slot.Wants ty := by
  rw [wants, Option.any_eq_true]
  simp only [decide_eq_true_eq]

theorem wants_remove (wf : SixLockWaitFifo τ) (ty : SixLockType) (i j : ℕ) :
    (wf.remove j).wants ty i = true ↔ i ≠ j ∧ wf.wants ty i = true := by
  rw [wants, wants, slot_remove]
  by_cases hij : i = j
  · simp [hij]
  · simp [hij]

theorem Ok.lt_of_wants (h : wf.Ok) (hw : wf.wants ty i = true) : i < wf.nr := by
  by_contra hge
  obtain ⟨slot, hslot, -⟩ := (wants_eq_true wf ty i).mp hw
  rw [h i (not_lt.mp hge)] at hslot
  cases hslot

/-- The search for the oldest waiter ends at a waiter, unless there is none. -/
theorem foldl_older (wf : SixLockWaitFifo τ) (ty : SixLockType) (l : List ℕ) :
    ∀ oldest : Option ℕ, (∀ j, oldest = some j → wf.wants ty j = true) →
      match l.foldl (wf.older ty) oldest with
      | none => oldest = none ∧ ∀ k ∈ l, wf.wants ty k = false
      | some j => wf.wants ty j = true := by
  induction l with
  | nil =>
    intro oldest h
    cases oldest with
    | none => exact ⟨rfl, fun k hk => absurd hk List.not_mem_nil⟩
    | some j => exact h j rfl
  | cons a l ih =>
    intro oldest h
    have hstep : ∀ j, wf.older ty oldest a = some j → wf.wants ty j = true := by
      intro j hj
      rw [older.eq_def] at hj
      split_ifs at hj with ha
      · cases oldest with
        | none => exact Option.some.inj hj ▸ ha
        | some k =>
          simp only at hj
          split_ifs at hj
          · exact Option.some.inj hj ▸ ha
          · exact h j hj
      · exact h j hj
    have hrec := ih (wf.older ty oldest a) hstep
    rw [List.foldl_cons]
    cases hfold : l.foldl (wf.older ty) (wf.older ty oldest a) with
    | some j =>
      rw [hfold] at hrec
      exact hrec
    | none =>
      rw [hfold] at hrec
      obtain ⟨hnone, hrest⟩ := hrec
      rw [older.eq_def] at hnone
      split_ifs at hnone with ha
      · cases oldest with
        | none => cases hnone
        | some k =>
          simp only at hnone
          split_ifs at hnone
      · exact ⟨hnone, fun k hk => (List.mem_cons.mp hk).elim
          (fun hka => hka ▸ Bool.eq_false_iff.mpr ha) (hrest k)⟩

/-- A pass that finds nobody to try has nobody left to wait for the type. -/
theorem candidate_none (h : wf.Ok) (hc : wf.candidate ty i = none)
    (hread : ty = .read → ∀ k < i, wf.wants .read k = false) (k : ℕ) : wf.wants ty k = false := by
  by_contra hw
  rw [Bool.not_eq_false] at hw
  have hlt := h.lt_of_wants hw
  have hfold : ∀ ty : SixLockType, wf.wants ty k = true →
      (List.range wf.nr).foldl (wf.older ty) none ≠ none := by
    intro ty hw hnone
    have hspec := foldl_older wf ty (List.range wf.nr) none (fun j hj => nomatch hj)
    rw [hnone] at hspec
    have hfalse := hspec.2 k (List.mem_range.mpr hlt)
    rw [hw] at hfalse
    cases hfalse
  cases ty with
  | read =>
    have hki : i ≤ k := by
      by_contra hlt
      have hfalse := hread rfl k (not_le.mp hlt)
      rw [hw] at hfalse
      cases hfalse
    rw [candidate, Option.map_eq_none_iff, List.find?_eq_none] at hc
    exact hc k (List.mem_range'_1.mpr (by omega)) hw
  | intent => exact hfold .intent hw (Option.map_eq_none_iff.mp hc)
  | write => exact hfold .write hw (Option.map_eq_none_iff.mp hc)

/-- The waiter that a pass tries waits for the type. -/
theorem candidate_wants (hc : wf.candidate ty i = some (j, more)) : wf.wants ty j = true := by
  have hfold : ∀ ty : SixLockType, (List.range wf.nr).foldl (wf.older ty) none = some j →
      wf.wants ty j = true := by
    intro ty hsome
    have hspec := foldl_older wf ty (List.range wf.nr) none (fun j hj => nomatch hj)
    rw [hsome] at hspec
    exact hspec
  cases ty with
  | read =>
    obtain ⟨k, hk, heq⟩ := Option.map_eq_some_iff.mp hc
    cases heq
    exact List.find?_some hk
  | intent =>
    obtain ⟨k, hk, heq⟩ := Option.map_eq_some_iff.mp hc
    cases heq
    exact hfold .intent hk
  | write =>
    obtain ⟨k, hk, heq⟩ := Option.map_eq_some_iff.mp hc
    cases heq
    exact hfold .write hk

/-- No reader is passed over. -/
theorem candidate_read (h : wf.Ok) (hc : wf.candidate .read i = some (j, more))
    (hbefore : ∀ k < i, wf.wants .read k = false) : ∀ k < j, wf.wants .read k = false := by
  intro k hk
  by_contra hw
  rw [Bool.not_eq_false] at hw
  have hki : i ≤ k := by
    by_contra hlt
    have hfalse := hbefore k (not_le.mp hlt)
    rw [hw] at hfalse
    cases hfalse
  obtain ⟨m, hm, heq⟩ := Option.map_eq_some_iff.mp hc
  cases heq
  obtain ⟨-, as, bs, hsplit, has⟩ := List.find?_eq_some_iff_append.mp hm
  have hmem : k ∈ as := by
    have hrange : k ∈ List.range' i (wf.nr - i) :=
      List.mem_range'_1.mpr (by have := h.lt_of_wants hw; omega)
    have hsorted : (as ++ j :: bs).Pairwise (· < ·) := hsplit ▸ List.pairwise_lt_range'
    rw [hsplit] at hrange
    rcases List.mem_append.mp hrange with hin | hin
    · exact hin
    · rcases List.mem_cons.mp hin with rfl | hin
      · exact absurd hk (Nat.lt_irrefl _)
      · have := (List.pairwise_cons.mp (List.pairwise_append.mp hsorted).2.1).1 k hin
        omega
  have := has k hmem
  simp [hw] at this

/-- A pass that sees no other waiter for its type is right. -/
theorem candidate_unique (h : wf.Ok) (hty : ty ≠ .read) (hc : wf.candidate ty i = some (j, false))
    (k : ℕ) (hw : wf.wants ty k = true) : k = j := by
  have hj := candidate_wants hc
  have hcount : (List.range wf.nr).countP (wf.wants ty) ≤ 1 := by
    cases ty with
    | read => exact absurd rfl hty
    | intent =>
      obtain ⟨m, hm, heq⟩ := Option.map_eq_some_iff.mp hc
      simpa using (Prod.mk.inj heq).2
    | write =>
      obtain ⟨m, hm, heq⟩ := Option.map_eq_some_iff.mp hc
      simpa using (Prod.mk.inj heq).2
  -- two of them would be two elements of the list of matches
  by_contra hne
  have hsub : [k, j] ⊆ (List.range wf.nr).filter (wf.wants ty) := by
    intro m hm
    rcases List.mem_cons.mp hm with rfl | hm
    · exact List.mem_filter.mpr ⟨List.mem_range.mpr (h.lt_of_wants hw), hw⟩
    · cases List.mem_singleton.mp hm
      exact List.mem_filter.mpr ⟨List.mem_range.mpr (h.lt_of_wants hj), hj⟩
  have hnodup : [k, j].Nodup := by simp [hne]
  have hlen := (hnodup.subperm hsub).length_le
  rw [← List.countP_eq_length_filter] at hlen
  simp only [List.length_cons, List.length_nil] at hlen
  omega

end SixLockWaitFifo

end Fifo

end Subvol

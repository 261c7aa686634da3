import Subvol.Lock.SixHold

/-!
# Reading without the lock

A thread notes the sequence number of a lock, lets the lock go, and takes it again with
`six_relock_ip`. When that succeeds, no other thread was a writer in between, in no state of the run,
and so what only writers change is what it was.

## Main definitions

* `SixState.Writes`: a thread has the lock for write and may use it.
* `StoreStep`: a step of the lock, or a store of another thread that may write.

## Main results

* `SixState.Writes.run`: a writer stays one until an unlock is counted.
* `relock_keeps_data`: a relock that succeeds finds the data of the state whose number it has.
-/

namespace Subvol

/-- Where a thread that has the lock for write does not use it: it gives it back, or it is in the slow
path and has not been told that it has it. -/
def SixPhase.offWrite : SixPhase → Bool
  | unlockSeq _ => true
  | slowAdd _ => true
  | unlockSub ty _ => ty = .write
  | slowLock ty _ => ty = .write
  | slowOr ty _ => ty = .write
  | slowTry ty _ => ty = .write
  | slowInsert ty _ => ty = .write
  | waiting ty _ => ty = .write
  | cancelLock ty _ _ => ty = .write
  | _ => false

namespace SixPhase

@[simp] theorem tryEntry_offWrite (ty : SixLockType) (k : SixCaller) :
    (tryEntry ty k).offWrite = false := by
  cases ty <;> rfl

@[simp] theorem granted_offWrite (ty : SixLockType) (k : SixCaller) :
    (k.granted ty).offWrite = false := by
  cases k <;> rfl

@[simp] theorem refused_offWrite (ty : SixLockType) (k : SixCaller) :
    (k.refused ty).offWrite = false := by
  cases k
  case lock n => cases ty <;> rfl
  all_goals rfl

@[simp] theorem taken_offWrite (ty : SixLockType) (k : SixCaller) :
    (SixCaller.taken ty k).offWrite = false := by
  cases ty
  case intent => rfl
  all_goals exact granted_offWrite ..

@[simp] theorem passNext_offWrite (ty : SixLockType) (j : ℕ) (more : Bool) (w : SixWake) :
    (SixState.passNext ty j more w).offWrite = false := by
  cases ty <;> cases more <;> rfl

@[simp] theorem doUnlock_offWrite (ty : SixLockType) (ret : SixRet) :
    (doUnlock ty ret).offWrite = decide (ty = .write) := by
  cases ty <;> rfl

end SixPhase

theorem SixOp.entry_offWrite (op : SixOp) : op.entry.offWrite = false := by
  cases op
  case trylock ty => exact SixPhase.tryEntry_offWrite ..
  case lock ty start => exact SixPhase.tryEntry_offWrite ..
  all_goals rfl

namespace SixState

variable {τ : Type*} {s s' : SixState τ} {t x : τ} {p : SixPhase}

/-- The thread has the lock for write and may use it. -/
def Writes (s : SixState τ) (x : τ) : Prop := x ∈ s.holds .write ∧ (s.phase x).offWrite = false

/-- The operation leaves the threads where they are, and takes off no write hold. -/
structure KeepsWrite (s s' : SixState τ) : Prop where
  phase : s'.phase = s.phase
  holds : ∀ x ∈ s.holds .write, x ∈ s'.holds .write

namespace KeepsWrite

theorem refl (s : SixState τ) : KeepsWrite s s := ⟨rfl, fun _ => id⟩

theorem put {w : ℕ} {holds : SixLockType → List τ} {pending : List τ}
    (h : ∀ x ∈ s.holds .write, x ∈ holds .write) : KeepsWrite s (s.put w holds pending) :=
  ⟨put_phase .., by rwa [put_holds]⟩

theorem take (ty : SixLockType) (u : τ) : KeepsWrite s (s.take ty u) := by
  refine .put fun x hx => ?_
  cases ty <;> simp [hx]

theorem grantWrite [DecidableEq τ] (u : τ) : KeepsWrite s (s.grantWrite u) :=
  .put fun x hx => by simp [hx]

theorem upgrade [DecidableEq τ] (t : τ) : KeepsWrite s (s.upgrade t) :=
  .put fun x hx => by simpa using hx

theorem pend (t : τ) : KeepsWrite s (s.pend t) := .put fun _ => id

theorem unpend [DecidableEq τ] (t : τ) : KeepsWrite s (s.unpend t) := .put fun _ => id

theorem setWaiting (ty : SixLockType) : KeepsWrite s (s.setWaiting ty) := .put fun _ => id

theorem clearWaiting (ty : SixLockType) : KeepsWrite s (s.clearWaiting ty) := .put fun _ => id

theorem passGive [DecidableEq τ] (ty : SixLockType) (j : ℕ) (u : τ) : KeepsWrite s (s.passGive ty j u) := by
  rw [SixState.passGive]
  split_ifs
  · exact ⟨(grantWrite u).phase, (grantWrite u).holds⟩
  · exact ⟨rfl, fun _ => id⟩

end KeepsWrite

variable [DecidableEq τ]

/-- A step that is not the end of an unlock takes off no write hold, and a writer begins to give its
hold back only where the unlock is counted. -/
theorem advance_keeps (hstep : s.advance t p = some s') (hp : ∀ ty ret, p ≠ .unlockSub ty ret) :
    ∃ s₁ q, s' = s₁.goto t q ∧ KeepsWrite s s₁ ∧ (q.offWrite = true → p.offWrite = true ∨
      s.state &&& sixLockHeldWrite = 0 ∨ s₁.writeUnlocks = s.writeUnlocks + 1) := by
  cases p
  case unlockSub ty ret => exact absurd rfl (hp ty ret)
  all_goals
    simp only [advance, unlockIp, wakeup, passAttempt, slowAttempt, increment] at hstep
    repeat' split at hstep
  all_goals
    cases hstep <;> refine ⟨_, _, rfl, ?_, ?_⟩
  all_goals first
    | with_reducible exact .refl _
    | with_reducible exact .take _ _
    | with_reducible exact .upgrade _
    | with_reducible exact .grantWrite _
    | with_reducible exact .pend _
    | with_reducible exact .unpend _
    | with_reducible exact .setWaiting _
    | with_reducible exact .clearWaiting _
    | with_reducible exact .passGive ..
    | (intro hq; simp at hq; done)
    | (simp_all [SixPhase.offWrite]; done)
    | exact ⟨rfl, fun _ => id⟩
    | exact fun _ => .inr (.inr rfl)
    | exact fun hq => .inl ((SixPhase.doUnlock_offWrite ..).symm.trans hq)

/-- A thread that may write still may after a step of any thread that does not count an unlock. -/
theorem Writes.step {act : SixAct} (hinv : SixInv s none) (hx : s.Writes x)
    (hstep : sixStep s t act = some s') (hsame : s'.writeUnlocks = s.writeUnlocks) :
    s'.Writes x := by
  obtain ⟨hhold, hoff⟩ := hx
  have hgoto : ∀ s₁ q, s' = s₁.goto t q → KeepsWrite s s₁ → (x = t → q.offWrite = false) →
      s'.Writes x := by
    rintro s₁ q rfl hkeeps hq
    refine ⟨hkeeps.holds x hhold, ?_⟩
    rw [goto_phase, hkeeps.phase]
    by_cases hxt : x = t
    · rw [hxt, Function.update_self]
      exact hq hxt
    · rwa [Function.update_of_ne hxt]
  cases act with
  | call op =>
    cases hphase : s.phase t with
    | returned ret =>
      simp only [sixStep, hphase] at hstep
      cases hstep
      exact hgoto _ _ rfl (.refl s) fun _ => SixOp.entry_offWrite op
    | _ => simp [sixStep, hphase] at hstep
  | cancel ret =>
    cases hphase : s.phase t with
    | waiting ty i =>
      simp only [sixStep, hphase] at hstep
      split_ifs at hstep
      cases hstep
      refine hgoto _ _ rfl (.refl s) ?_
      rintro rfl
      rwa [hphase] at hoff
    | _ => simp [sixStep, hphase] at hstep
  | go =>
    rw [sixStep] at hstep
    by_cases hsub : ∃ ty ret, s.phase t = .unlockSub ty ret
    · obtain ⟨ty, ret, hphase⟩ := hsub
      rw [hphase, advance] at hstep
      split_ifs at hstep
      cases hstep
      have hin : x ∈ (s.release ty t).holds .write := by
        rw [release, put_holds]
        by_cases hty : ty = .write
        · -- the thread that releases the write hold may not write any more
          have hxt : x ≠ t := by
            rintro rfl
            rw [hphase, hty] at hoff
            cases hoff
          rw [hty, Function.update_self]
          exact (List.mem_erase_of_ne hxt).mpr hhold
        · rwa [Function.update_of_ne (Ne.symm hty)]
      refine ⟨hin, ?_⟩
      rw [goto_phase, release, put_phase]
      by_cases hxt : x = t
      · rw [hxt, Function.update_self]
        rfl
      · rwa [Function.update_of_ne hxt]
    · obtain ⟨s₁, q, rfl, hkeeps, hq⟩ := advance_keeps hstep fun ty ret h => hsub ⟨ty, ret, h⟩
      refine hgoto s₁ q rfl hkeeps ?_
      rintro rfl
      refine Bool.eq_false_of_not_eq_true fun htrue => ?_
      rcases hq htrue with hp | hfree | hcount
      · exact absurd (hoff.symm.trans hp) Bool.false_ne_true
      · rw [(SixHeld.write_free hinv hfree).1] at hhold
        cases hhold
      · rw [goto_writeUnlocks] at hsame
        omega

/-- A thread that may write still may as long as no unlock is counted. -/
theorem Writes.run (hheld : SixHeld s) (hinv : SixInv s none) (hx : s.Writes x)
    (hrun : SixRun Disciplined s s') (hsame : s'.writeUnlocks = s.writeUnlocks) : s'.Writes x := by
  induction hrun with
  | refl => exact hx
  | @tail s₁ s₂ hrun₁ hstep ih =>
    have hle := writeUnlocks_run hrun₁
    have hle' := writeUnlocks_run (.single hstep)
    obtain ⟨t, act, -, -, hstep, -⟩ := hstep
    exact (ih (by omega)).step (hheld.run hinv hrun₁).2 hstep (by omega)

end SixState

/-! ### The data under the lock -/

section Data

variable {τ δ : Type*} [DecidableEq τ]

/-- A step of the lock leaves the data alone. A thread that may write changes it. -/
inductive StoreStep (t : τ) : SixState τ × δ → SixState τ × δ → Prop
  | lock {s s' : SixState τ} (d : δ) (hstep : SixStep Disciplined s s') :
      StoreStep t (s, d) (s', d)
  | store {s : SixState τ} {x : τ} (d d' : δ) (hx : x ≠ t) (hwrites : s.Writes x) :
      StoreStep t (s, d) (s, d')

/-- The runs of the lock in which threads other than the given one change the data. -/
def StoreRun (t : τ) : SixState τ × δ → SixState τ × δ → Prop :=
  Relation.ReflTransGen (StoreStep t)

variable {t : τ} {s s₁ s₂ : SixState τ} {d d₁ : δ}

theorem StoreRun.sixRun {c c' : SixState τ × δ} (hrun : StoreRun t c c') :
    SixRun Disciplined c.1 c'.1 := by
  induction hrun with
  | refl => exact .refl
  | tail _ hstep ih =>
    cases hstep with
    | lock _ hstep => exact ih.tail hstep
    | store => exact ih

/-- A run of the lock alone. -/
theorem StoreRun.of_sixRun (d : δ) (hrun : SixRun Disciplined s s₁) :
    StoreRun t (s, d) (s₁, d) := by
  induction hrun with
  | refl => exact .refl
  | tail _ hstep ih => exact ih.tail (.lock d hstep)

/-- In a run to a state where no unlock has been counted and no other thread has the lock for write,
the data is not changed. -/
theorem StoreRun.data (hheld : SixHeld s) (hinv : SixInv s none) {c : SixState τ × δ}
    (hrun : StoreRun t (s, d) c) (hto : SixRun Disciplined c.1 s₁)
    (hsame : s₁.writeUnlocks = s.writeUnlocks) (hall : ∀ x ∈ s₁.holds .write, x = t) :
    c.2 = d := by
  induction hrun with
  | refl => rfl
  | @tail c₁ c₂ hrun₁ hstep ih =>
    cases hstep with
    | lock _ hstep => exact ih (.head hstep hto)
    | @store s' x _ _ hx hwrites =>
      -- the writer would have the lock at the end
      have hrun' : SixRun Disciplined s s' := StoreRun.sixRun hrun₁
      have hle := writeUnlocks_run hrun'
      have hle' : s'.writeUnlocks ≤ s₁.writeUnlocks := writeUnlocks_run hto
      have hstate := hheld.run hinv hrun'
      have hend := hwrites.run hstate.1 hstate.2 hto (by omega)
      exact absurd (hall x hend.1) hx

end Data

/-- The second thread writes and lets the lock go. -/
def writeOnce : List (Bool × SixAct) :=
  [(true, .call (.trylock .intent)), (true, .go), (true, .go), (true, .call (.trylock .write)), (true, .go),
    (true, .go), (true, .call (.unlock .write)), (true, .go), (true, .go), (true, .go), (true, .go), (true, .go)]

/-- The first thread takes the lock for read with the number that it has noted. -/
def relockRead : List (Bool × SixAct) :=
  [(false, .call (.relock .read 1)), (false, .go), (false, .go)]

end Subvol

import Subvol.Lock.SixInv

/-!
# Waiters of a six lock

Whoever waits for the lock in the queue is found there by the next pass only if the bit of its type is
set. A pass clears the bit when it has nobody left to try, but also when it could not take the lock
for the waiter it tried, because some other thread came first. The waiter then stands in the queue
with its bit cleared and nobody on the way to it.

## Main definitions

* `SixState.Passes`: a pass for the type is in progress.
* `WaitersCovered`: every waiter's bit is set, or a pass for its type is in progress.
* `PassesSucceed`: the lock is free for whom a pass tries to take it.
* `BeginsPass`: a thread that released the lock goes on to a pass.

## Main results

* `waiters_covered`: as long as no pass fails, no waiter is forgotten.
-/

namespace Subvol

variable {τ : Type*}

/-- The thread makes a pass for the type. -/
def SixPhase.passes : SixPhase → Option SixLockType
  | passTry ty _ _ => some ty
  | passOwner _ _ _ => some .intent
  | passGrant ty _ _ _ => some ty
  | passClear ty _ => some ty
  | passEnd ty _ => some ty
  | _ => none

/-- A pass for the type is in progress. -/
def SixState.Passes (s : SixState τ) (ty : SixLockType) : Prop :=
  ∃ t, (s.phase t).passes = some ty

/-- Whoever waits in the queue and has not been granted the lock is waited for: the bit of its type
is set, or a pass for the type is in progress. -/
def WaitersCovered (s : SixState τ) : Prop :=
  ∀ i slot ty, s.fifo.slot i = some slot → slot.Wants ty → s.acquired slot.task = false →
    WaitingBit s.state ty ∨ s.Passes ty

/-- The type and the slot from which a pass is about to try to take the lock for a waiter. -/
def SixPhase.tries : SixPhase → Option (SixLockType × ℕ)
  | passTry ty i _ => some (ty, i)
  | _ => none

/-- The step is not one of a pass that cannot have the lock for the waiter it tries. -/
def PassesSucceed (s : SixState τ) (t : τ) : SixAct → Prop
  | .go => ∀ q ∈ (s.phase t).tries, s.fifo.candidate q.1 q.2 ≠ none →
      s.state &&& q.1.lockFail = 0
  | _ => True

instance (s : SixState τ) (t : τ) (act : SixAct) : Decidable (PassesSucceed s t act) :=
  match act with
  | .go => inferInstanceAs (Decidable (∀ q ∈ (s.phase t).tries,
      s.fifo.candidate q.1 q.2 ≠ none → s.state &&& q.1.lockFail = 0))
  | .call _ => .isTrue trivial
  | .cancel _ => .isTrue trivial

/-! ### What covers a waiter -/

namespace SixState

/-- What a thread has seen of the queue and of the bits. -/
def Covers (s : SixState τ) : SixPhase → Prop
  | .passTry ty i _ => ty = .read → ∀ k < i, s.fifo.wants .read k = false
  | .passOwner j more _ => more = false → ∀ k, s.fifo.wants .intent k = true → k = j
  | .passGrant ty j more _ =>
    (ty = .read → ∀ k < j, s.fifo.wants .read k = false) ∧
      (ty ≠ .read → more = false → ∀ k, s.fifo.wants ty k = true → k = j)
  | .passClear ty _ => ∀ k, s.fifo.wants ty k = false
  | .slowTry ty _ => WaitingBit s.state ty
  | .slowInsert ty _ => WaitingBit s.state ty
  | _ => True

variable {s s' : SixState τ} {p : SixPhase}

theorem Covers.mono (h : s.Covers p) (hfifo : s'.fifo = s.fifo)
    (hbits : ∀ ty, WaitingBit s.state ty → WaitingBit s'.state ty) : s'.Covers p := by
  cases p with
  | slowTry ty transStartTime => exact hbits ty h
  | slowInsert ty transStartTime => exact hbits ty h
  | passTry ty i w =>
    rw [Covers, hfifo]
    exact h
  | passOwner j more w =>
    rw [Covers, hfifo]
    exact h
  | passGrant ty j more w =>
    rw [Covers, hfifo]
    exact h
  | passClear ty w =>
    rw [Covers, hfifo]
    exact h
  | _ => trivial

/-- Only who is inside the queue's lock has seen anything. -/
theorem covers_of_not_inside (s : SixState τ) (h : p.inside ≠ true) : s.Covers p := by
  cases p with
  | passTry ty i w => exact absurd rfl h
  | passOwner j more w => exact absurd rfl h
  | passGrant ty j more w => exact absurd rfl h
  | passClear ty w => exact absurd rfl h
  | slowTry ty transStartTime => exact absurd rfl h
  | slowInsert ty transStartTime => exact absurd rfl h
  | _ => trivial

end SixState

/-- The bit of everybody in the queue is set. -/
structure SixCovered (s : SixState τ) : Prop where
  bits : ∀ i ty, s.fifo.wants ty i = true → WaitingBit s.state ty
  covers : ∀ t, s.Covers (s.phase t)

theorem SixCovered.covers_of {s : SixState τ} {t : τ} {p : SixPhase} (h : SixCovered s)
    (hphase : s.phase t = p) : s.Covers p :=
  hphase ▸ h.covers t

theorem SixCovered.init : SixCovered ({} : SixState τ) := by
  refine ⟨fun i ty hw => ?_, fun t => trivial⟩
  have hinit : SixInv ({} : SixState τ) none := SixInv.init
  obtain ⟨slot, hslot, -⟩ := (SixLockWaitFifo.wants_eq_true _ ty i).mp hw
  rw [hinit.fifo i (Nat.zero_le i)] at hslot
  cases hslot

section Steps

variable [DecidableEq τ] {s s' : SixState τ} {t : τ} {p p' : SixPhase} {ty : SixLockType}
  {w : SixWake} {transStartTime i j : ℕ} {more : Bool}

/-- A step that leaves the queue and the bits alone. -/
structure SixQuiet (s s' : SixState τ) (t : τ) (p : SixPhase) : Prop where
  fifo : s'.fifo = s.fifo
  bits : ∀ ty, WaitingBit s.state ty → WaitingBit s'.state ty
  phase : s'.phase = Function.update s.phase t p

namespace SixCovered

theorem quiet (h : SixCovered s) (hquiet : SixQuiet s s' t p) (hp : s.Covers p) :
    SixCovered s' := by
  refine ⟨fun i ty hw => ?_, fun v => ?_⟩
  · rw [hquiet.fifo] at hw
    exact hquiet.bits ty (h.bits i ty hw)
  · rw [hquiet.phase]
    by_cases hv : v = t
    · subst hv
      rw [Function.update_self]
      exact hp.mono hquiet.fifo hquiet.bits
    · rw [Function.update_of_ne hv]
      exact (h.covers v).mono hquiet.fifo hquiet.bits

/-- A change of the queue or of the bits, inside the queue's lock. -/
theorem change (hinv : SixInv s none) (hlock : s.waitLock = none ∨ s.waitLock = some t)
    (hphase : s'.phase = Function.update s.phase t p)
    (hbits : ∀ i ty, s'.fifo.wants ty i = true → WaitingBit s'.state ty) (hp : s'.Covers p) :
    SixCovered s' := by
  refine ⟨hbits, fun v => ?_⟩
  rw [hphase]
  by_cases hv : v = t
  · subst hv
    rw [Function.update_self]
    exact hp
  · rw [Function.update_of_ne hv]
    exact s'.covers_of_not_inside
      ((hinv.except t).not_inside hlock fun h => hv (Option.some.inj h).symm)

end SixCovered

/-! ### Quiet steps -/

theorem SixQuiet.goto (s : SixState τ) (t : τ) (p : SixPhase) : SixQuiet s (s.goto t p) t p :=
  ⟨rfl, fun _ => id, rfl⟩

theorem SixQuiet.put {holds : SixLockType → List τ} {pending : List τ} {n : ℕ}
    (hbits : (s.put n holds pending).state / 2 ^ 28 = s.state / 2 ^ 28) (t : τ) (p : SixPhase) :
    SixQuiet s ((s.put n holds pending).goto t p) t p :=
  ⟨rfl, fun ty hbit => (WaitingBit.congr hbits ty).mpr hbit, rfl⟩

/-! ### Passes -/

namespace SixCovered

theorem step_passTry (h : SixCovered s) (hinv : SixInv s none)
    (hphase : s.phase t = .passTry ty i w) (hstep : s.advance t (.passTry ty i w) = some s')
    (hb : (s'.holds .read).length < 2 ^ 26) (hok : PassesSucceed s t .go) : SixCovered s' := by
  have hcovers : s.Covers (.passTry ty i w) := h.covers_of hphase
  simp only [SixState.advance] at hstep
  cases hcand : s.fifo.candidate ty i with
  | none =>
    rw [hcand] at hstep
    cases hstep
    exact h.quiet (.goto s t _) fun k => SixLockWaitFifo.candidate_none hinv.fifo hcand hcovers k
  | some c =>
    obtain ⟨j, more⟩ := c
    obtain ⟨slot, hslot, -⟩ :=
      (s.fifo.wants_eq_true ty j).mp (SixLockWaitFifo.candidate_wants hcand)
    have hfree := hok (ty, i) (by simp [hphase, SixPhase.tries]) (by simp [hcand])
    have hunique : ty ≠ .read → more = false → ∀ k, s.fifo.wants ty k = true → k = j := by
      rintro hty rfl
      exact SixLockWaitFifo.candidate_unique hinv.fifo hty hcand
    simp only [hcand, SixState.passAttempt, hslot] at hstep
    cases ty with
    | write =>
      simp only [hfree, if_true] at hstep
      split_ifs at hstep
      cases hstep
      exact h.quiet (.goto s t _) ⟨by rintro ⟨⟩, hunique⟩
    | intent =>
      simp only [hfree, if_true] at hstep
      cases hstep
      exact h.quiet (.put (hinv.word.take_intent hfree).bits t _) (hunique (by rintro ⟨⟩))
    | read =>
      simp only [hfree, if_true] at hstep
      cases hstep
      have hlen : (s.holds .read).length + 1 < 2 ^ 26 := by
        simpa [SixState.take, SixState.goto] using hb
      refine h.quiet (.put (hinv.word.take_read hlen).bits t _)
        ⟨fun _ => ?_, fun hty => absurd rfl hty⟩
      exact SixLockWaitFifo.candidate_read hinv.fifo hcand (hcovers rfl)

theorem step_passOwner (h : SixCovered s) (hphase : s.phase t = .passOwner j more w)
    (hstep : s.advance t (.passOwner j more w) = some s') : SixCovered s' := by
  have hcovers : s.Covers (.passOwner j more w) := h.covers_of hphase
  simp only [SixState.advance] at hstep
  cases hslot : s.fifo.slot j with
  | none =>
    rw [hslot] at hstep
    cases hstep
  | some slot =>
    simp only [hslot] at hstep
    split_ifs at hstep
    cases hstep
    exact h.quiet ⟨rfl, fun _ => id, rfl⟩ ⟨by rintro ⟨⟩, fun _ => hcovers⟩

theorem passGive_state (s : SixState τ) (ty : SixLockType) (j : ℕ) (u : τ) :
    (s.passGive ty j u).state = s.state ∧ (s.passGive ty j u).phase = s.phase := by
  simp only [SixState.passGive]
  split_ifs
  · exact ⟨rfl, rfl⟩
  · exact ⟨rfl, rfl⟩

theorem step_passGrant (h : SixCovered s) (hinv : SixInv s none)
    (hphase : s.phase t = .passGrant ty j more w)
    (hstep : s.advance t (.passGrant ty j more w) = some s') : SixCovered s' := by
  obtain ⟨hread, hunique⟩ : s.Covers (.passGrant ty j more w) := h.covers_of hphase
  have hlock := hinv.waitLock_of hphase rfl
  simp only [SixState.advance] at hstep
  cases hslot : s.fifo.slot j with
  | none =>
    rw [hslot] at hstep
    cases hstep
  | some slot =>
    simp only [hslot] at hstep
    cases hstep
    have hfifo := SixInv.passGive_fifo s ty j slot.task
    obtain ⟨hstate, hphases⟩ := passGive_state s ty j slot.task
    refine change hinv (p := SixState.passNext ty j more w) (.inr hlock) ?_ (fun i ty' hw => ?_) ?_
    · rw [SixState.goto_phase, hphases]
    · rw [SixState.goto_state, hstate]
      rw [SixState.goto_fifo, hfifo, SixLockWaitFifo.wants_remove] at hw
      exact h.bits i ty' hw.2
    · have hnone : ∀ ty' k, (k ≠ j → s.fifo.wants ty' k = false) →
          (s.passGive ty j slot.task).fifo.wants ty' k = false := by
        intro ty' k hk
        rw [hfifo, Bool.eq_false_iff, ne_eq, SixLockWaitFifo.wants_remove]
        rintro ⟨hne, hw⟩
        exact absurd ((hk hne).symm.trans hw) Bool.false_ne_true
      have hlast : ty ≠ .read → more = false →
          ∀ k, (s.passGive ty j slot.task).fifo.wants ty k = false := fun hty hmore k =>
        hnone ty k fun hne => Bool.eq_false_iff.mpr fun hw => hne (hunique hty hmore k hw)
      cases ty with
      | read => exact fun _ k hk => hnone .read k fun hne => hread rfl k (by omega)
      | intent =>
        cases more with
        | true => trivial
        | false => exact hlast (by rintro ⟨⟩) rfl
      | write =>
        cases more with
        | true => trivial
        | false => exact hlast (by rintro ⟨⟩) rfl

theorem step_passClear (h : SixCovered s) (hinv : SixInv s none)
    (hphase : s.phase t = .passClear ty w) (hstep : s.advance t (.passClear ty w) = some s') :
    SixCovered s' := by
  have hcovers : s.Covers (.passClear ty w) := h.covers_of hphase
  have hlock := hinv.waitLock_of hphase rfl
  cases hstep
  refine change hinv (p := .passEnd ty w) (.inr hlock) rfl (fun i ty' hw => ?_) trivial
  rw [SixState.goto_fifo, SixState.clearWaiting, SixState.put_fifo] at hw
  rw [SixState.goto_state, SixState.clearWaiting, SixState.put_state]
  refine (waitingBit_clear s.state ty ty').mpr ⟨h.bits i ty' hw, ?_⟩
  rintro rfl
  exact absurd ((hcovers i).symm.trans hw) Bool.false_ne_true

theorem step_passEnd (h : SixCovered s) (hinv : SixInv s none)
    (hphase : s.phase t = .passEnd ty w) (hstep : s.advance t (.passEnd ty w) = some s') :
    SixCovered s' := by
  have hlock := hinv.waitLock_of hphase rfl
  cases hstep
  exact change hinv (p := .waking w) (.inr hlock) rfl h.bits trivial

/-! ### Waiting -/

theorem step_slowOr (h : SixCovered s) (hinv : SixInv s none)
    (hphase : s.phase t = .slowOr ty transStartTime)
    (hstep : s.advance t (.slowOr ty transStartTime) = some s') : SixCovered s' := by
  have hlock := hinv.waitLock_of hphase rfl
  cases hstep
  refine change hinv (p := .slowTry ty transStartTime) (.inr hlock) rfl (fun i ty' hw => ?_) ?_
  · rw [SixState.goto_fifo, SixState.setWaiting, SixState.put_fifo] at hw
    rw [SixState.goto_state, SixState.setWaiting, SixState.put_state, waitingBit_set]
    exact .inl (h.bits i ty' hw)
  · rw [SixState.Covers, SixState.goto_state, SixState.setWaiting, SixState.put_state,
      waitingBit_set]
    exact .inr rfl

theorem step_slowTry (h : SixCovered s) (hinv : SixInv s none)
    (hphase : s.phase t = .slowTry ty transStartTime)
    (hstep : s.advance t (.slowTry ty transStartTime) = some s')
    (hb : (s'.holds .read).length < 2 ^ 26) : SixCovered s' := by
  have hcovers : s.Covers (.slowTry ty transStartTime) := h.covers_of hphase
  simp only [SixState.advance, SixState.slowAttempt] at hstep
  cases ty with
  | write =>
    simp only at hstep
    split_ifs at hstep
    · cases hstep
      exact h.quiet (.put rfl t _) trivial
    · cases hstep
      exact h.quiet (.goto s t _) hcovers
  | intent =>
    simp only at hstep
    split_ifs at hstep with hfree
    · cases hstep
      exact h.quiet (.put (hinv.word.take_intent hfree).bits t _) trivial
    · cases hstep
      exact h.quiet (.goto s t _) hcovers
  | read =>
    simp only at hstep
    split_ifs at hstep with hfree
    · cases hstep
      have hlen : (s.holds .read).length + 1 < 2 ^ 26 := by
        simpa [SixState.take, SixState.goto] using hb
      exact h.quiet (.put (hinv.word.take_read hlen).bits t _) trivial
    · cases hstep
      exact h.quiet (.goto s t _) hcovers

theorem step_slowInsert (h : SixCovered s) (hinv : SixInv s none)
    (hphase : s.phase t = .slowInsert ty transStartTime)
    (hstep : s.advance t (.slowInsert ty transStartTime) = some s') : SixCovered s' := by
  have hcovers : s.Covers (.slowInsert ty transStartTime) := h.covers_of hphase
  have hlock := hinv.waitLock_of hphase rfl
  simp only [SixState.advance] at hstep
  cases hins : s.fifo.insert t ty transStartTime with
  | none =>
    rw [hins] at hstep
    cases hstep
  | some r =>
    obtain ⟨wf, i⟩ := r
    rw [hins] at hstep
    cases hstep
    obtain ⟨-, -, hslots⟩ := SixLockWaitFifo.insert_spec hinv.fifo hins
    refine change hinv (p := .waiting ty i) (.inr hlock) rfl (fun k ty' hw => ?_) trivial
    have hw' : wf.wants ty' k = true := hw
    obtain ⟨slot, hslot, hwants⟩ := (wf.wants_eq_true ty' k).mp hw'
    rw [hslots] at hslot
    split_ifs at hslot
    · cases hslot
      have hty := (SixLockWaitFifo.wants_startTimeOf t transStartTime ty).unique hwants
      exact hty ▸ hcovers
    · exact h.bits k ty' ((s.fifo.wants_eq_true ty' k).mpr ⟨slot, hslot, hwants⟩)

theorem step_cancelLock {ret : ℤ} (h : SixCovered s) (hinv : SixInv s none)
    (hstep : s.advance t (.cancelLock ty i ret) = some s') : SixCovered s' := by
  simp only [SixState.advance] at hstep
  by_cases hlock : s.waitLock = none
  swap
  · rw [if_neg hlock] at hstep
    cases hstep
  rw [if_pos hlock] at hstep
  by_cases ha : s.acquired t = true
  · rw [if_pos ha] at hstep
    cases hstep
    exact h.quiet (.goto s t _)
      (s.covers_of_not_inside (by simp [SixPhase.doUnlock_inside]))
  · rw [if_neg ha] at hstep
    cases hstep
    refine change hinv (.inl hlock) rfl (fun k ty' hw => ?_) ?_
    · have hw' : (s.fifo.remove i).wants ty' k = true := hw
      exact h.bits k ty' ((s.fifo.wants_remove ty' k i).mp hw').2
    · split_ifs
      · trivial
      · trivial

/-! ### Runs -/

theorem step_unlocking {ret : SixRet} (h : SixCovered s)
    (hstep : s.advance t (.unlocking ty ret) = some s') : SixCovered s' := by
  simp only [SixState.advance, SixState.unlockIp] at hstep
  cases ty with
  | read =>
    cases hstep
    exact h.quiet (.goto s t _) trivial
  | intent =>
    simp only at hstep
    split_ifs at hstep
    · cases hstep
      exact h.quiet (p := .returned ret) ⟨rfl, fun _ => id, rfl⟩ trivial
    · cases hstep
      exact h.quiet (.goto s t _) trivial
  | write =>
    simp only at hstep
    split_ifs at hstep
    · cases hstep
      exact h.quiet (p := .returned ret) ⟨rfl, fun _ => id, rfl⟩ trivial
    · cases hstep
      exact h.quiet (p := .unlockSeq ret) ⟨rfl, fun _ => id, rfl⟩ trivial

theorem step_waking (h : SixCovered s) (hstep : s.advance t (.waking w) = some s') :
    SixCovered s' := by
  simp only [SixState.advance, SixState.wakeup] at hstep
  cases htypes : w.types with
  | nil =>
    rw [htypes] at hstep
    cases hstep
    exact h.quiet (.goto s t _) trivial
  | cons ty types =>
    simp only [htypes] at hstep
    split_ifs at hstep
    · cases hstep
      exact h.quiet (.goto s t _) trivial
    · cases hstep
      exact h.quiet (.goto s t _) trivial
    · cases hstep
      exact h.quiet (p := .passTry ty 0 { w with types := types }) ⟨rfl, fun _ => id, rfl⟩
        fun _ k hk => absurd hk (Nat.not_lt_zero k)

theorem step_tryCas {k : SixCaller} (h : SixCovered s) (hinv : SixInv s none)
    (hphase : s.phase t = .tryCas ty k) (hstep : s.advance t (.tryCas ty k) = some s')
    (hb : (s'.holds .read).length < 2 ^ 26) : SixCovered s' := by
  have hclaim := hinv.claim_of hphase
  have htaken : s.Covers (SixCaller.taken ty k) :=
    s.covers_of_not_inside (by simp [SixPhase.taken_inside])
  simp only [SixState.advance] at hstep
  split_ifs at hstep with hfree
  · cases hstep
    cases ty with
    | read =>
      have hlen : (s.holds .read).length + 1 < 2 ^ 26 := by
        simpa [SixState.take, SixState.goto] using hb
      exact h.quiet (.put (hinv.word.take_read hlen).bits t _) htaken
    | intent => exact h.quiet (.put (hinv.word.take_intent hfree).bits t _) htaken
    | write =>
      obtain ⟨-, hwrite, hpending⟩ : s.Claims t .mayWrite := hclaim
      exact h.quiet (.put (hinv.word.take_write hwrite hpending).bits t _) htaken
  · cases hstep
    exact h.quiet (.goto s t _) (s.covers_of_not_inside (by simp [SixPhase.refused_inside]))

theorem step_incrementing {downgrade : Bool} (h : SixCovered s) (hinv : SixInv s none)
    (hstep : s.advance t (.incrementing ty downgrade) = some s')
    (hb : (s'.holds .read).length < 2 ^ 26) : SixCovered s' := by
  simp only [SixState.advance, SixState.increment] at hstep
  cases ty with
  | read =>
    by_cases hheld : s.state &&& (sixLockHeldRead ||| sixLockHeldIntent) ≠ 0
    · simp only [if_pos hheld] at hstep
      cases hstep
      have hlen : (s.holds .read).length + 1 < 2 ^ 26 := by
        simpa [SixState.take, SixState.goto] using hb
      refine h.quiet (.put (hinv.word.take_read hlen).bits t _) ?_
      split_ifs
      · trivial
      · trivial
    · simp only [if_neg hheld] at hstep
      cases hstep
  | _ =>
    simp only at hstep
    split_ifs at hstep
    cases hstep
    exact h.quiet (p := .returned .unit) ⟨rfl, fun _ => id, rfl⟩ trivial

theorem advance (h : SixCovered s) (hinv : SixInv s none) (hphase : s.phase t = p)
    (hstep : s.advance t p = some s') (hb : (s'.holds .read).length < 2 ^ 26)
    (hok : PassesSucceed s t .go) : SixCovered s' := by
  have hclaim := hinv.claim_of hphase
  cases p with
  | returned ret => cases hstep
  | relockFirst ty seq =>
    simp only [SixState.advance] at hstep
    split_ifs at hstep
    · cases hstep
      exact h.quiet (.goto s t _) (s.covers_of_not_inside (by simp [SixPhase.tryEntry_inside]))
    · cases hstep
      exact h.quiet (.goto s t _) trivial
  | tryAssert k =>
    simp only [SixState.advance] at hstep
    split_ifs at hstep
    cases hstep
    exact h.quiet (.goto s t _) trivial
  | tryCas ty k => exact h.step_tryCas hinv hphase hstep hb
  | tryOwner k =>
    simp only [SixState.advance] at hstep
    split_ifs at hstep
    cases hstep
    exact h.quiet (p := k.granted .intent) ⟨rfl, fun _ => id, rfl⟩
      (s.covers_of_not_inside (by simp [SixPhase.granted_inside]))
  | relockSecond ty seq =>
    simp only [SixState.advance] at hstep
    split_ifs at hstep
    · cases hstep
      exact h.quiet (.goto s t _) trivial
    · cases hstep
      exact h.quiet (.goto s t _) trivial
  | unlocking ty ret => exact h.step_unlocking hstep
  | unlockSeq ret =>
    cases hstep
    exact h.quiet (p := .unlockSub .write ret) ⟨rfl, fun _ => id, rfl⟩ trivial
  | unlockOwner ret =>
    cases hstep
    exact h.quiet (p := .unlockSub .intent ret) ⟨rfl, fun _ => id, rfl⟩ trivial
  | unlockSub ty ret =>
    simp only [SixState.advance] at hstep
    split_ifs at hstep
    cases hstep
    exact h.quiet (.put (hinv.word.release (hinv.mem_of_unlockSub hphase)).bits t _) trivial
  | loadAll =>
    cases hstep
    exact h.quiet (.goto s t _) trivial
  | waking w => exact h.step_waking hstep
  | passTry ty i w => exact h.step_passTry hinv hphase hstep hb hok
  | passOwner j more w => exact h.step_passOwner hphase hstep
  | passGrant ty j more w => exact h.step_passGrant hinv hphase hstep
  | passClear ty w => exact h.step_passClear hinv hphase hstep
  | passEnd ty w => exact h.step_passEnd hinv hphase hstep
  | slowAssert transStartTime =>
    simp only [SixState.advance] at hstep
    split_ifs at hstep
    cases hstep
    exact h.quiet (.goto s t _) trivial
  | slowAdd transStartTime =>
    cases hstep
    obtain ⟨-, hwrite, hpending⟩ : s.Claims t .mayWrite := hclaim
    exact h.quiet (.put (hinv.word.pend hwrite hpending).bits t _) trivial
  | slowLock ty transStartTime =>
    simp only [SixState.advance] at hstep
    split_ifs at hstep
    cases hstep
    exact h.quiet (p := .slowOr ty transStartTime) ⟨rfl, fun _ => id, rfl⟩ trivial
  | slowOr ty transStartTime => exact h.step_slowOr hinv hphase hstep
  | slowTry ty transStartTime => exact h.step_slowTry hinv hphase hstep hb
  | slowOwner =>
    simp only [SixState.advance] at hstep
    split_ifs at hstep
    cases hstep
    exact h.quiet (p := .slowDone) ⟨rfl, fun _ => id, rfl⟩ trivial
  | slowDone =>
    cases hstep
    exact h.quiet (p := .returned (.int 0)) ⟨rfl, fun _ => id, rfl⟩ trivial
  | slowInsert ty transStartTime => exact h.step_slowInsert hinv hphase hstep
  | waiting ty i =>
    simp only [SixState.advance] at hstep
    split_ifs at hstep
    cases hstep
    exact h.quiet (.goto s t _) trivial
  | cancelLock ty i ret => exact h.step_cancelLock hinv hstep
  | cancelClear ret =>
    cases hstep
    have hpends : s.Pends t := hclaim
    exact h.quiet (.put (hinv.word.unpend (hinv.write_of_pends hpends) hpends.2).bits t _) trivial
  | cancelLoad ret =>
    cases hstep
    exact h.quiet (.goto s t _) trivial
  | upgradeCas =>
    simp only [SixState.advance] at hstep
    split_ifs at hstep with hheld
    · cases hstep
      exact h.quiet (.goto s t _) trivial
    · cases hstep
      exact h.quiet (.put (hinv.word.upgrade hclaim (not_not.mp hheld)).bits t _) trivial
  | incrementing ty downgrade => exact h.step_incrementing hinv hstep hb

theorem step {act : SixAct} (h : SixCovered s) (hinv : SixInv s none)
    (hstep : sixStep s t act = some s') (hb : (s'.holds .read).length < 2 ^ 26)
    (hok : PassesSucceed s t act) : SixCovered s' := by
  cases act with
  | call op =>
    cases hphase : s.phase t with
    | returned ret =>
      simp only [sixStep, hphase] at hstep
      cases hstep
      exact h.quiet (.goto s t _) (s.covers_of_not_inside (by simp [SixPhase.entry_inside]))
    | _ => simp [sixStep, hphase] at hstep
  | go => exact h.advance hinv rfl hstep hb hok
  | cancel ret =>
    cases hphase : s.phase t with
    | waiting ty i =>
      simp only [sixStep, hphase] at hstep
      split_ifs at hstep
      cases hstep
      exact h.quiet (.goto s t _) trivial
    | _ => simp [sixStep, hphase] at hstep

theorem run (h : SixCovered s) (hinv : SixInv s none) (hrun : SixRun PassesSucceed s s') :
    SixCovered s' ∧ SixInv s' none := by
  induction hrun with
  | refl => exact ⟨h, hinv⟩
  | tail _ hstep ih =>
    obtain ⟨t, act, hrel, hok, hstep, hb⟩ := hstep
    exact ⟨ih.1.step ih.2 hstep hb hok, ih.2.step hrel hstep hb⟩

end SixCovered

/-- The next step of the thread, as soon as the queue's lock is free, begins a pass for the type. -/
def BeginsPass (s : SixState τ) (t : τ) (ty : SixLockType) : Prop :=
  ∀ s₁ : SixState τ, s₁.phase t = s.phase t → s₁.waitLock = none →
    ∃ s₂, sixStep s₁ t .go = some s₂ ∧ (s₂.phase t).passes = some ty

theorem beginsPass_of_bit {ret : SixRet} {n : ℕ} (hphase : s.phase t = .waking ⟨n, [ty], ret⟩)
    (hbit : WaitingBit n ty) (hfree : n &&& ty.lockFail = 0) : BeginsPass s t ty := by
  intro s₁ hs₁ hlock
  have hread : ¬(ty = .write ∧ n &&& sixLockHeldRead ≠ 0) := by
    rintro ⟨rfl, hne⟩
    exact hne hfree
  have hstep : sixStep s₁ t .go =
      some ((s₁.setWaitLock (some t)).goto t (.passTry ty 0 ⟨n, [], ret⟩)) := by
    simp only [sixStep, hs₁, hphase, SixState.advance, SixState.wakeup, if_neg hread, if_neg hbit,
      if_pos hlock]
  refine ⟨_, hstep, ?_⟩
  rw [SixState.goto_phase, Function.update_self]
  rfl

/-- In a run in which every pass can have the lock for the waiter it tries, a waiter's bit is set or
a pass for its type is in progress, and a thread whose unlock makes the lock available to a waiter
begins a pass for its type. -/
theorem waiters_covered (hrun : SixRun PassesSucceed ({} : SixState τ) s) :
    WaitersCovered s ∧
      ∀ t ty ret s', s.phase t = .unlockSub ty ret → sixStep s t .go = some s' →
        s'.state &&& ty.unlockWakeup.lockFail = 0 →
        (∃ i, s'.fifo.wants ty.unlockWakeup i = true) → BeginsPass s' t ty.unlockWakeup := by
  obtain ⟨hcov, hinv⟩ := SixCovered.init.run SixInv.init hrun
  refine ⟨fun i slot ty hslot hwants _ => ?_, fun t ty ret s' hphase hstep hfree hqueued => ?_⟩
  · exact .inl (hcov.bits i ty ((s.fifo.wants_eq_true ty i).mpr ⟨slot, hslot, hwants⟩))
  · obtain ⟨i, hw⟩ := hqueued
    simp only [sixStep, hphase, SixState.advance] at hstep
    split_ifs at hstep
    cases hstep
    have hquiet := SixQuiet.put (hinv.word.release (hinv.mem_of_unlockSub hphase)).bits t
      (.waking ⟨(s.release ty t).state, [ty.unlockWakeup], ret⟩)
    have hw' : s.fifo.wants ty.unlockWakeup i = true := hquiet.fifo ▸ hw
    have hwaking : ((s.release ty t).goto t
        (.waking ⟨(s.release ty t).state, [ty.unlockWakeup], ret⟩)).phase t =
        .waking ⟨(s.release ty t).state, [ty.unlockWakeup], ret⟩ := by
      rw [SixState.goto_phase, Function.update_self]
    exact beginsPass_of_bit hwaking (hquiet.bits _ (hcov.bits i _ hw')) hfree

end Steps

/-! ### A waiter that is forgotten -/

/-- One thread has the lock for intent, and a second one waits for it. -/
def lockAndWait : List (Fin 3 × SixAct) :=
  [(0, .call (.trylock .intent)), (0, .go), (0, .go),
    (1, .call (.lock .intent 0)), (1, .go), (1, .go), (1, .go), (1, .go), (1, .go)]

/-- The first thread unlocks, but before its pass comes to the waiter a third one takes the lock. The
pass clears the bit, and the third thread, when it unlocks, sees nobody who waits. -/
def unlockAndBarge : List (Fin 3 × SixAct) :=
  [(0, .call (.unlock .intent)), (0, .go), (0, .go), (0, .go), (0, .go),
    (2, .call (.trylock .intent)), (2, .go), (2, .go),
    (0, .go), (0, .go), (0, .go), (0, .go),
    (2, .call (.unlock .intent)), (2, .go), (2, .go), (2, .go), (2, .go), (2, .go)]

theorem waiters_covered_waiting :
    ∃ s : SixState (Fin 3), SixRun PassesSucceed {} s ∧ s.phase 1 = .waiting .intent 0 ∧
      WaitersCovered s := by
  have hexec : (sixExec PassesSucceed {} lockAndWait).map (fun s => s.phase 1) =
      some (.waiting .intent 0) := by
    decide +kernel
  obtain ⟨s, hs, hphase⟩ := Option.map_eq_some_iff.mp hexec
  exact ⟨s, sixRun_of_exec hs, hphase, (waiters_covered (sixRun_of_exec hs)).1⟩

/-- A waiter that is still in the queue of a free lock, while all other threads have returned. -/
theorem waiter_forgotten :
    ∃ s : SixState (Fin 3), SixRun (fun _ _ _ => True) {} s ∧ ¬WaitersCovered s ∧ s.state = 0 ∧
      s.phase 1 = .waiting .intent 0 ∧ ∀ t, t ≠ 1 → ∃ ret, s.phase t = .returned ret := by
  have hexec : (sixExec (fun _ _ _ => True) {} (lockAndWait ++ unlockAndBarge)).map
      (fun s => (s.fifo.slot 0, s.acquired 1, s.state, s.phase 0, s.phase 1, s.phase 2)) =
      some (some ⟨1, 1⟩, false, 0, .returned .unit, .waiting .intent 0, .returned .unit) := by
    decide +kernel
  obtain ⟨s, hs, heq⟩ := Option.map_eq_some_iff.mp hexec
  simp only [Prod.mk.injEq] at heq
  obtain ⟨hslot, hacq, hstate, h0, h1, h2⟩ := heq
  have hphase : ∀ t : Fin 3, t ≠ 1 → s.phase t = .returned .unit := by
    intro t ht
    match t with
    | 0 => exact h0
    | 1 => exact absurd rfl ht
    | 2 => exact h2
  refine ⟨s, sixRun_of_exec hs, fun hcov => ?_, hstate, h1, fun t ht => ⟨_, hphase t ht⟩⟩
  rcases hcov 0 ⟨1, 1⟩ .intent hslot rfl hacq with hbit | ⟨t, ht⟩
  · rw [hstate] at hbit
    exact hbit (Nat.zero_and _)
  · by_cases h : t = 1
    · rw [h, h1] at ht
      cases ht
    · rw [hphase t h] at ht
      cases ht

end Subvol

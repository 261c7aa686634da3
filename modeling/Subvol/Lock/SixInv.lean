import Subvol.Lock.SixParts

/-!
# What every run of a six lock keeps

As long as the threads release only what they have and the readers do not overflow their part of the
word, the word counts what the threads have. Where a thread is says what it relies on: that it is the
owner, that nobody has set the bit of the writer, that it stands in its slot of the queue until it is
told that it has the lock. A step changes the shared state in one of a few ways, each of which leaves
to every other thread what it relies on.

## Main definitions

* `SixClaim`, `SixState.Claims`: what a thread relies on.
* `SixState.WordOk`, `Recounts`: the word counts what the threads have.
* `SixInv`: the invariant, for all threads but one that is in the middle of a step.

## Main results

* `SixInv.step`, `SixInv.run`.
-/

namespace Subvol

variable {τ : Type*}

/-- A call that has returned takes no step of its own. -/
theorem SixState.advance_returned [DecidableEq τ] (s : SixState τ) (t : τ) (ret : SixRet) :
    s.advance t (.returned ret) = none := by
  simp only [SixState.advance]

/-! ### Claims -/

/-- What a thread relies on where it is. -/
inductive SixClaim
  | free
  | has (ty : SixLockType)
  | mayWrite
  | unowned
  | owns
  | pending
  | waits (ty : SixLockType) (i : ℕ)
  | names (j : ℕ)
  | gives (ty : SixLockType) (j : ℕ)

namespace SixPhase

def claim : SixPhase → SixClaim
  | tryCas ty _ => if ty = .write then .mayWrite else .free
  | tryOwner _ => .unowned
  | relockSecond ty _ => .has ty
  | unlocking ty _ => .has ty
  | unlockSeq _ => .has .write
  | unlockOwner _ => .owns
  | unlockSub ty _ => if ty = .intent then .unowned else .has ty
  | passOwner j _ _ => .names j
  | passGrant ty j _ _ => .gives ty j
  | slowAssert _ => .mayWrite
  | slowAdd _ => .mayWrite
  | slowLock ty _ => if ty = .write then .pending else .free
  | slowOr ty _ => if ty = .write then .pending else .free
  | slowTry ty _ => if ty = .write then .pending else .free
  | slowInsert ty _ => if ty = .write then .pending else .free
  | slowOwner => .unowned
  | waiting ty i => .waits ty i
  | cancelLock ty i _ => .waits ty i
  | cancelClear _ => .pending
  | upgradeCas => .has .read
  | incrementing _ downgrade => if downgrade then .has .intent else .free
  | _ => .free

/-- The thread is inside the queue's lock. -/
def inside : SixPhase → Bool
  | passTry .. => true
  | passOwner .. => true
  | passGrant .. => true
  | passClear .. => true
  | passEnd .. => true
  | slowOr .. => true
  | slowTry .. => true
  | slowOwner => true
  | slowDone => true
  | slowInsert .. => true
  | _ => false

theorem tryEntry_inside (ty : SixLockType) (k : SixCaller) : (tryEntry ty k).inside = false := by
  cases ty
  · rfl
  · rfl
  · rfl

theorem doUnlock_inside (ty : SixLockType) (ret : SixRet) : (doUnlock ty ret).inside = false := by
  cases ty
  · rfl
  · rfl
  · rfl

theorem granted_inside (ty : SixLockType) (k : SixCaller) : (k.granted ty).inside = false := by
  cases k
  · rfl
  · rfl
  · rfl
  · rfl

theorem taken_inside (ty : SixLockType) (k : SixCaller) : (k.taken ty).inside = false := by
  cases ty
  · exact granted_inside _ k
  · rfl
  · exact granted_inside _ k

theorem refused_inside (ty : SixLockType) (k : SixCaller) : (k.refused ty).inside = false := by
  cases k
  · rfl
  · rfl
  · cases ty
    · rfl
    · rfl
    · rfl
  · rfl

theorem entry_inside (op : SixOp) : op.entry.inside = false := by
  cases op with
  | trylock ty => exact tryEntry_inside ty _
  | lock ty transStartTime => exact tryEntry_inside ty _
  | _ => rfl

/-- The slot of a thread that waits, and what it waits for. -/
def queued : SixPhase → Option (SixLockType × ℕ)
  | waiting ty i => some (ty, i)
  | cancelLock ty i _ => some (ty, i)
  | _ => none

variable {p : SixPhase} {ty : SixLockType} {i j : ℕ}

theorem claim_eq_waits : p.claim = .waits ty i ↔ p.queued = some (ty, i) := by
  cases p with
  | waiting ty' i' => simp [claim, queued]
  | cancelLock ty' i' ret => simp [claim, queued]
  | _ => grind [claim, queued]

theorem inside_of_claim_names (h : p.claim = .names j) : p.inside = true := by
  cases p with
  | passOwner j' more w => rfl
  | _ => grind [claim]

theorem inside_of_claim_gives (h : p.claim = .gives ty j) : p.inside = true := by
  cases p with
  | passGrant ty' j' more w => rfl
  | _ => grind [claim]

end SixPhase

namespace SixState

/-- A thread has set the bit of the writer and waits for the readers. -/
def Pends (s : SixState τ) (t : τ) : Prop := s.owner = some t ∧ s.pending = [t]

/-- A thread stands in a slot of the queue. -/
def Stands (s : SixState τ) (t : τ) (ty : SixLockType) (i : ℕ) : Prop :=
  ∃ slot, s.fifo.slot i = some slot ∧ slot.task = t ∧ slot.Wants ty

/-- A thread has the lock, and it is the owner if it has it for intent. -/
def Has (s : SixState τ) (t : τ) (ty : SixLockType) : Prop :=
  t ∈ s.holds ty ∧ (ty = .intent → s.owner = some t)

def Claims (s : SixState τ) (t : τ) : SixClaim → Prop
  | .free => True
  | .has ty => t ∈ s.holds ty
  | .mayWrite => s.owner = some t ∧ s.holds .write = [] ∧ s.pending = []
  | .unowned => t ∈ s.holds .intent ∧ s.owner = none
  | .owns => s.owner = some t
  | .pending => s.Pends t
  | .waits ty i =>
    (s.acquired t = true → s.Has t ty) ∧
      (s.acquired t = false → s.Stands t ty i ∧ (ty = .write → s.Pends t))
  | .names j => ∃ u, s.Stands u .intent j ∧ u ∈ s.holds .intent ∧ s.owner = none
  | .gives ty j => ∃ u, s.Stands u ty j ∧ (ty ≠ .write → s.Has u ty)

/-- The word counts what the threads have. -/
def WordOk (s : SixState τ) : Prop :=
  SixWord s.state (s.holds .read).length (s.holds .intent).length
    ((s.holds .write).length + s.pending.length)

/-- No slot of the queue is the thread's. -/
def Absent (s : SixState τ) (t : τ) : Prop :=
  ∀ i slot, s.fifo.slot i = some slot → slot.task ≠ t

theorem goto_phase [DecidableEq τ] (s : SixState τ) (t : τ) (p : SixPhase) :
    (s.goto t p).phase = Function.update s.phase t p := rfl

theorem goto_fifo [DecidableEq τ] (s : SixState τ) (t : τ) (p : SixPhase) :
    (s.goto t p).fifo = s.fifo := rfl

theorem goto_holds [DecidableEq τ] (s : SixState τ) (t : τ) (p : SixPhase) :
    (s.goto t p).holds = s.holds := rfl

theorem goto_state [DecidableEq τ] (s : SixState τ) (t : τ) (p : SixPhase) :
    (s.goto t p).state = s.state := rfl

theorem goto_writeUnlocks [DecidableEq τ] (s : SixState τ) (t : τ) (p : SixPhase) :
    (s.goto t p).writeUnlocks = s.writeUnlocks := by rw [goto]

section Put

-- not by `rfl`: to compare the states the kernel would compute with the words
variable (s : SixState τ) (w : ℕ) (holds : SixLockType → List τ) (pending : List τ)

@[simp] theorem put_state : (s.put w holds pending).state = w := by rw [put]

@[simp] theorem put_owner : (s.put w holds pending).owner = s.owner := by rw [put]

@[simp] theorem put_waitLock : (s.put w holds pending).waitLock = s.waitLock := by rw [put]

@[simp] theorem put_fifo : (s.put w holds pending).fifo = s.fifo := by rw [put]

@[simp] theorem put_acquired : (s.put w holds pending).acquired = s.acquired := by rw [put]

@[simp] theorem put_phase : (s.put w holds pending).phase = s.phase := by rw [put]

@[simp] theorem put_holds : (s.put w holds pending).holds = holds := by rw [put]

@[simp] theorem put_pending : (s.put w holds pending).pending = pending := by rw [put]

@[simp] theorem put_writeUnlocks : (s.put w holds pending).writeUnlocks = s.writeUnlocks := by
  rw [put]

end Put

end SixState

/-! ### Counting -/

/-- A change that the word counts, and that leaves its bits for the waiters alone. -/
structure Recounts (s s' : SixState τ) : Prop where
  word : s'.WordOk
  bits : s'.state / 2 ^ 28 = s.state / 2 ^ 28

namespace SixState.WordOk

variable {s : SixState τ} {t u : τ} {ty : SixLockType}

theorem take_read (h : s.WordOk) (hb : (s.holds .read).length + 1 < 2 ^ 26) :
    Recounts s (s.take .read u) := by
  have hword := SixWord.addRead h hb
  refine ⟨?_, ?_⟩
  · simpa [WordOk, take] using hword.1
  · simpa [take] using hword.2

theorem take_intent (h : s.WordOk) (hfree : s.state &&& sixLockHeldIntent = 0) :
    Recounts s (s.take .intent u) := by
  have hzero := (SixWord.and_intent h).mp hfree
  rw [WordOk, hzero] at h
  have hword := SixWord.addIntent h
  refine ⟨?_, ?_⟩
  · simpa [WordOk, take, hzero] using hword.1
  · simpa [take] using hword.2

theorem take_write (h : s.WordOk) (hwrite : s.holds .write = []) (hpending : s.pending = []) :
    Recounts s (s.take .write u) := by
  rw [WordOk, hwrite, hpending] at h
  have hword := SixWord.addWrite h
  refine ⟨?_, ?_⟩
  · simpa [WordOk, take, hwrite, hpending, SixLockType.lockVal] using hword.1
  · simpa [take, SixLockType.lockVal] using hword.2

theorem pend (h : s.WordOk) (hwrite : s.holds .write = []) (hpending : s.pending = []) :
    Recounts s (s.pend t) := by
  rw [WordOk, hwrite, hpending] at h
  have hword := SixWord.addWrite h
  refine ⟨?_, ?_⟩
  · simpa [WordOk, SixState.pend, hwrite, hpending] using hword.1
  · simpa [SixState.pend] using hword.2

theorem unlockVal_eq (h : s.WordOk) (ty : SixLockType) : s.unlockVal ty = ty.lockVal := by
  cases ty with
  | read => rfl
  | _ => simp only [unlockVal, SixWord.nospin h, Nat.add_zero]

variable [DecidableEq τ]

theorem unpend (h : s.WordOk) (hwrite : s.holds .write = []) (hpending : s.pending = [t]) :
    Recounts s (s.unpend t) := by
  rw [WordOk, hwrite, hpending] at h
  have hword := SixWord.clearWrite h
  refine ⟨?_, ?_⟩
  · simpa [WordOk, SixState.unpend, hwrite, hpending] using hword.1
  · simpa [SixState.unpend] using hword.2

theorem grantWrite (h : s.WordOk) (hpending : s.pending = [u]) : Recounts s (s.grantWrite u) := by
  rw [WordOk, hpending] at h
  refine ⟨?_, ?_⟩
  · simpa [WordOk, SixState.grantWrite, hpending] using h
  · simp [SixState.grantWrite]

theorem release (h : s.WordOk) (ht : t ∈ s.holds ty) : Recounts s (s.release ty t) := by
  have hlen := List.length_erase_add_one ht
  have hval := h.unlockVal_eq ty
  cases ty with
  | read =>
    rw [WordOk, ← hlen] at h
    have hword := SixWord.subRead h
    refine ⟨?_, ?_⟩
    · simpa [WordOk, SixState.release, hval] using hword.1
    · simpa [SixState.release, hval] using hword.2
  | intent =>
    have hone : ((s.holds .intent).erase t).length = 0 := by
      have := SixWord.intents h
      omega
    rw [WordOk, ← hlen, hone] at h
    have hword := SixWord.subIntent h
    refine ⟨?_, ?_⟩
    · simpa [WordOk, SixState.release, hval, hone] using hword.1
    · simpa [SixState.release, hval] using hword.2
  | write =>
    have hone : ((s.holds .write).erase t).length = 0 ∧ s.pending.length = 0 := by
      have := SixWord.writers h
      omega
    rw [WordOk, ← hlen, hone.1, hone.2] at h
    have hword := SixWord.subWrite h
    refine ⟨?_, ?_⟩
    · simpa [WordOk, SixState.release, hval, hone] using hword.1
    · simpa [SixState.release, hval] using hword.2

theorem upgrade (h : s.WordOk) (ht : t ∈ s.holds .read)
    (hfree : s.state &&& sixLockHeldIntent = 0) : Recounts s (s.upgrade t) := by
  have hzero := (SixWord.and_intent h).mp hfree
  rw [WordOk, hzero, ← List.length_erase_add_one ht] at h
  have hword := SixWord.upgrade h
  refine ⟨?_, ?_⟩
  · simpa [WordOk, SixState.upgrade, SixLockType.lockVal, hzero] using hword.1
  · simpa [SixState.upgrade, SixLockType.lockVal] using hword.2

end SixState.WordOk

/-! ### The invariant -/

/-- The word counts what the threads have, the owner has the lock for intent, the slots of the queue
are those of the threads that wait, and every thread but `e` can rely on what it relies on. -/
structure SixInv (s : SixState τ) (e : Option τ) : Prop where
  word : s.WordOk
  owner : ∀ u, s.owner = some u → u ∈ s.holds .intent
  inside : ∀ v, e ≠ some v → (s.phase v).inside = true → s.waitLock = some v
  slots : ∀ i slot, s.fifo.slot i = some slot → e ≠ some slot.task →
    ∃ ty, slot.Wants ty ∧ (s.phase slot.task).queued = some (ty, i) ∧ s.acquired slot.task = false
  fifo : s.fifo.Ok
  claims : ∀ v, e ≠ some v → s.Claims v (s.phase v).claim

namespace SixInv

variable {s : SixState τ} {e : Option τ} {t u v : τ} {p : SixPhase} {ty : SixLockType} {i j : ℕ}

private theorem eq_of_length_le_one {l : List τ} (hl : l.length ≤ 1) (hu : u ∈ l) (hv : v ∈ l) :
    u = v := by
  match l with
  | [] => cases hu
  | [x] =>
    rw [List.mem_singleton] at hu hv
    exact hu.trans hv.symm
  | x :: y :: l => simp at hl

theorem except (h : SixInv s none) (t : τ) : SixInv s (some t) :=
  ⟨h.word, h.owner, fun v _ => h.inside v (Option.some_ne_none v).symm,
    fun i slot hslot _ => h.slots i slot hslot (Option.some_ne_none _).symm, h.fifo,
    fun v _ => h.claims v (Option.some_ne_none v).symm⟩

/-- There is one intent holder. -/
theorem intent_unique (h : SixInv s e) (hu : u ∈ s.holds .intent) (hv : v ∈ s.holds .intent) :
    u = v :=
  eq_of_length_le_one (SixWord.intents h.word) hu hv

/-- There is one writer. -/
theorem write_unique (h : SixInv s e) (hu : u ∈ s.holds .write) (hv : v ∈ s.holds .write) :
    u = v :=
  eq_of_length_le_one (by have := SixWord.writers h.word; omega) hu hv

/-- Who has set the bit of the writer is the only one. -/
theorem write_of_pends (h : SixInv s e) (hp : s.Pends t) : s.holds .write = [] := by
  have hle := h.word.writers
  rw [hp.2, List.length_singleton] at hle
  exact List.length_eq_zero_iff.mp (by omega)

/-- A lock that nobody has for intent has no owner. -/
theorem owner_none (h : SixInv s e) (hfree : s.state &&& sixLockHeldIntent = 0) :
    s.owner = none := by
  cases ho : s.owner with
  | none => rfl
  | some x =>
    have hmem := h.owner x ho
    rw [List.length_eq_zero_iff.mp (h.word.and_intent.mp hfree)] at hmem
    cases hmem

theorem absent (h : SixInv s none) (hq : (s.phase t).queued = none) : s.Absent t := by
  rintro i slot hslot rfl
  obtain ⟨ty, -, hqueued, -⟩ := h.slots i slot hslot (Option.some_ne_none _).symm
  rw [hq] at hqueued
  cases hqueued

/-- A thread that has been told that it has the lock is not in the queue. -/
theorem absent_of_acquired (h : SixInv s none) (ha : s.acquired t = true) : s.Absent t := by
  rintro i slot hslot rfl
  obtain ⟨ty, -, -, hfalse⟩ := h.slots i slot hslot (Option.some_ne_none _).symm
  exact absurd (hfalse.symm.trans ha) Bool.false_ne_true

/-- A thread that takes itself off the queue stood in one slot only. -/
theorem absent_remove (h : SixInv s none) (hq : (s.phase t).queued = some (ty, i)) :
    (s.setFifo (s.fifo.remove i).shrink).Absent t := by
  rintro j slot hslot rfl
  have hj : (if j = i then none else s.fifo.slot j) = some slot :=
    (s.fifo.slot_remove j i).symm.trans hslot
  split_ifs at hj with hji
  obtain ⟨ty', -, hqueued, -⟩ := h.slots j slot hj (Option.some_ne_none _).symm
  rw [hq] at hqueued
  exact hji (Prod.mk.inj (Option.some.inj hqueued)).2.symm

/-- Who stands in a slot waits there. -/
theorem queued_of_stands (h : SixInv s e) (hu : s.Stands u ty j) (he : e ≠ some u) :
    (s.phase u).queued = some (ty, j) ∧ s.acquired u = false := by
  obtain ⟨slot, hslot, rfl, hw⟩ := hu
  obtain ⟨ty', hw', hq, hacq⟩ := h.slots j slot hslot he
  rw [hw.unique hw']
  exact ⟨hq, hacq⟩

/-- Nobody but the thread itself can be inside a lock that is free or that it has. -/
theorem not_inside (h : SixInv s (some t)) (hw : s.waitLock = none ∨ s.waitLock = some t)
    (hv : some t ≠ some v) : (s.phase v).inside ≠ true := by
  intro hin
  have hheld := h.inside v hv hin
  rcases hw with hw | hw
  · rw [hw] at hheld
    cases hheld
  · exact hv (hw.symm.trans hheld)

/-- The thread goes on to a place where it can rely on what it relies on. -/
theorem goto [DecidableEq τ] (h : SixInv s (some t)) (hp : s.Claims t p.claim)
    (hin : p.inside = true → s.waitLock = some t)
    (hq : ∀ i slot, s.fifo.slot i = some slot → slot.task = t →
      ∃ ty, slot.Wants ty ∧ p.queued = some (ty, i) ∧ s.acquired t = false) :
    SixInv (s.goto t p) none := by
  have hself : (s.goto t p).phase t = p := by rw [SixState.goto_phase, Function.update_self]
  have hother : ∀ v, v ≠ t → (s.goto t p).phase v = s.phase v := fun v hv => by
    rw [SixState.goto_phase, Function.update_of_ne hv]
  refine ⟨h.word, h.owner, fun v _ hv => ?_, fun i slot hslot _ => ?_, h.fifo, fun v _ => ?_⟩
  · by_cases hvt : v = t
    · subst hvt
      rw [hself] at hv
      exact hin hv
    · rw [hother v hvt] at hv
      exact h.inside v (fun h => hvt (Option.some.inj h).symm) hv
  · by_cases hvt : slot.task = t
    · rw [hvt, hself]
      exact hq i slot hslot hvt
    · rw [hother _ hvt]
      exact h.slots i slot hslot fun h => hvt (Option.some.inj h).symm
  · by_cases hvt : v = t
    · subst hvt
      rw [hself]
      exact hp
    · rw [hother v hvt]
      exact h.claims v fun h => hvt (Option.some.inj h).symm

/-! ### Changes of the shared state -/

/-- Nothing that a thread relies on changes but the word. -/
theorem setWord (h : SixInv s (some t)) {w : ℕ} (hw : (s.put w s.holds s.pending).WordOk) :
    SixInv (s.put w s.holds s.pending) (some t) :=
  ⟨hw, h.owner, h.inside, h.slots, h.fifo, h.claims⟩

/-- What the threads have in the word changes: those that stay keep what they have, and only the
owner changes what belongs to the writer. -/
theorem setHolds (h : SixInv s (some t)) {w : ℕ} {holds : SixLockType → List τ} {pending : List τ}
    (hw : (s.put w holds pending).WordOk)
    (hholds : ∀ ty u, u ≠ t → u ∈ s.holds ty → u ∈ holds ty)
    (howner : s.owner = some t → t ∈ holds .intent)
    (hwrite : ∀ v, v ≠ t → s.owner = some v → s.holds .write = [] →
      holds .write = [] ∧ pending = s.pending)
    (hq : s.Absent t) :
    SixInv (s.put w holds pending) (some t) := by
  have hstands : ∀ u ty j, s.Stands u ty j → u ≠ t := by
    rintro u ty j ⟨slot, hslot, rfl, -⟩
    exact hq j slot hslot
  refine ⟨hw, fun u hu => ?_, h.inside, h.slots, h.fifo, fun v hv => ?_⟩
  · by_cases hut : u = t
    · subst hut
      exact howner hu
    · exact hholds _ u hut (h.owner u hu)
  · have hvt : v ≠ t := fun h => hv (congrArg some h.symm)
    have hpends : s.Pends v → s.owner = some v ∧ pending = [v] := by
      rintro ⟨ho, hp⟩
      exact ⟨ho, (hwrite v hvt ho (h.write_of_pends ⟨ho, hp⟩)).2.trans hp⟩
    have hclaim := h.claims v hv
    change (s.put w holds pending).Claims v (s.phase v).claim
    cases hc : (s.phase v).claim with
    | free => trivial
    | has ty =>
      rw [hc] at hclaim
      exact hholds ty v hvt hclaim
    | mayWrite =>
      rw [hc] at hclaim
      obtain ⟨ho, hw, hp⟩ := hclaim
      exact ⟨ho, (hwrite v hvt ho hw).1, (hwrite v hvt ho hw).2.trans hp⟩
    | unowned =>
      rw [hc] at hclaim
      exact ⟨hholds _ v hvt hclaim.1, hclaim.2⟩
    | owns =>
      rw [hc] at hclaim
      exact hclaim
    | pending =>
      rw [hc] at hclaim
      exact hpends hclaim
    | waits ty i =>
      rw [hc] at hclaim
      exact ⟨fun ha => ⟨hholds ty v hvt (hclaim.1 ha).1, (hclaim.1 ha).2⟩,
        fun ha => ⟨(hclaim.2 ha).1, fun hty => hpends ((hclaim.2 ha).2 hty)⟩⟩
    | names j =>
      rw [hc] at hclaim
      obtain ⟨u, hu, hin, ho⟩ := hclaim
      exact ⟨u, hu, hholds _ u (hstands u _ j hu) hin, ho⟩
    | gives ty j =>
      rw [hc] at hclaim
      obtain ⟨u, hu, hhas⟩ := hclaim
      exact ⟨u, hu, fun hty => ⟨hholds ty u (hstands u _ j hu) (hhas hty).1, (hhas hty).2⟩⟩

/-- A thread that has the lock for intent becomes the owner. -/
theorem setOwner_some (h : SixInv s (some t)) (hnone : s.owner = none)
    (hu : u ∈ s.holds .intent) (hself : u = t ∨ s.waitLock = some t ∧ (s.phase u).queued ≠ none)
    (hq : s.Absent t) : SixInv (s.setOwner (some u)) (some t) := by
  have howner : ∀ x, s.owner ≠ some x := by simp [hnone]
  refine ⟨h.word, fun x hx => Option.some.inj hx ▸ hu, h.inside, h.slots, h.fifo, fun v hv => ?_⟩
  have hvt : v ≠ t := fun h => hv (congrArg some h.symm)
  have hclaim := h.claims v hv
  change (s.setOwner (some u)).Claims v (s.phase v).claim
  cases hc : (s.phase v).claim with
  | free => trivial
  | has ty =>
    rw [hc] at hclaim
    exact hclaim
  | mayWrite =>
    rw [hc] at hclaim
    exact absurd hclaim.1 (howner v)
  | unowned =>
    rw [hc] at hclaim
    have huv := h.intent_unique hu hclaim.1
    subst huv
    rcases hself with rfl | ⟨-, hqueued⟩
    · exact absurd rfl hvt
    · -- who waits in the queue does not set the owner itself
      refine absurd ?_ hqueued
      cases hp : (s.phase u).queued with
      | none => rfl
      | some q =>
        rw [SixPhase.claim_eq_waits.mpr hp] at hc
        cases hc
  | owns =>
    rw [hc] at hclaim
    exact absurd hclaim (howner v)
  | pending =>
    rw [hc] at hclaim
    exact absurd hclaim.1 (howner v)
  | waits ty i =>
    rw [hc] at hclaim
    exact ⟨fun ha => ⟨(hclaim.1 ha).1, fun hty => absurd ((hclaim.1 ha).2 hty) (howner v)⟩,
      fun ha => ⟨(hclaim.2 ha).1, fun hty => absurd ((hclaim.2 ha).2 hty).1 (howner v)⟩⟩
  | names j =>
    rw [hc] at hclaim
    obtain ⟨x, hx, hin, ho⟩ := hclaim
    have hux := h.intent_unique hu hin
    subst hux
    rcases hself with rfl | ⟨hwait, -⟩
    · obtain ⟨slot, hslot, htask, -⟩ := hx
      exact absurd htask (hq j slot hslot)
    · exact absurd (SixPhase.inside_of_claim_names hc) (h.not_inside (.inr hwait) hv)
  | gives ty j =>
    rw [hc] at hclaim
    obtain ⟨x, hx, hhas⟩ := hclaim
    exact ⟨x, hx, fun hty => ⟨(hhas hty).1, fun hi => absurd ((hhas hty).2 hi) (howner x)⟩⟩

/-- The owner gives its name up. -/
theorem setOwner_none (h : SixInv s (some t)) (howner : s.owner = some t) (hq : s.Absent t) :
    SixInv (s.setOwner none) (some t) := by
  refine ⟨h.word, fun x hx => ?_, h.inside, h.slots, h.fifo, fun v hv => ?_⟩
  · cases hx
  have hother : ∀ x, x ≠ t → s.owner ≠ some x := fun x hx ho =>
    hx (Option.some.inj (ho.symm.trans howner))
  have hsome : s.owner ≠ none := by simp [howner]
  have hvt : v ≠ t := fun h => hv (congrArg some h.symm)
  have hclaim := h.claims v hv
  change (s.setOwner none).Claims v (s.phase v).claim
  cases hc : (s.phase v).claim with
  | free => trivial
  | has ty =>
    rw [hc] at hclaim
    exact hclaim
  | mayWrite =>
    rw [hc] at hclaim
    exact absurd hclaim.1 (hother v hvt)
  | unowned =>
    rw [hc] at hclaim
    exact absurd hclaim.2 hsome
  | owns =>
    rw [hc] at hclaim
    exact absurd hclaim (hother v hvt)
  | pending =>
    rw [hc] at hclaim
    exact absurd hclaim.1 (hother v hvt)
  | waits ty i =>
    rw [hc] at hclaim
    exact ⟨fun ha => ⟨(hclaim.1 ha).1, fun hty => absurd ((hclaim.1 ha).2 hty) (hother v hvt)⟩,
      fun ha => ⟨(hclaim.2 ha).1, fun hty => absurd ((hclaim.2 ha).2 hty).1 (hother v hvt)⟩⟩
  | names j =>
    rw [hc] at hclaim
    obtain ⟨x, -, -, ho⟩ := hclaim
    exact absurd ho hsome
  | gives ty j =>
    rw [hc] at hclaim
    obtain ⟨x, hx, hhas⟩ := hclaim
    have hxt : x ≠ t := by
      obtain ⟨slot, hslot, rfl, -⟩ := hx
      exact hq j slot hslot
    exact ⟨x, hx, fun hty => ⟨(hhas hty).1, fun hi => absurd ((hhas hty).2 hi) (hother x hxt)⟩⟩

theorem setWaitLock (h : SixInv s (some t)) (hw : s.waitLock = none ∨ s.waitLock = some t)
    (holder : Option τ) : SixInv (s.setWaitLock holder) (some t) :=
  ⟨h.word, h.owner, fun _ hv hin => absurd hin (h.not_inside hw hv), h.slots, h.fifo, h.claims⟩

theorem setRecurse (h : SixInv s e) (m n : ℕ) : SixInv (s.setRecurse m n) e :=
  ⟨h.word, h.owner, h.inside, h.slots, h.fifo, h.claims⟩

theorem setSeq (h : SixInv s e) (n : ℕ) : SixInv (s.setSeq n) e :=
  ⟨h.word, h.owner, h.inside, h.slots, h.fifo, h.claims⟩

theorem setWriteUnlocks (h : SixInv s e) (n : ℕ) : SixInv (s.setWriteUnlocks n) e :=
  ⟨h.word, h.owner, h.inside, h.slots, h.fifo, h.claims⟩

/-- The queue and the flags of the waiters change, inside the queue's lock, and with them what a
waiter has. -/
theorem setQueue (h : SixInv s (some t)) (hw : s.waitLock = none ∨ s.waitLock = some t)
    {wf : SixLockWaitFifo τ} {acquired : τ → Bool} {holds : SixLockType → List τ}
    {pending : List τ} (hok : wf.Ok)
    (hword : SixWord s.state (holds .read).length (holds .intent).length
      ((holds .write).length + pending.length))
    (hholds : ∀ ty u, u ∈ s.holds ty → u ∈ holds ty)
    (hwrite : holds .write = s.holds .write ∧ pending = s.pending ∨
      ∃ x, s.owner = some x ∧ (s.phase x).queued ≠ none)
    (hslots : ∀ i slot, wf.slot i = some slot → slot.task ≠ t →
      s.fifo.slot i = some slot ∧ acquired slot.task = s.acquired slot.task)
    (hwaits : ∀ v ty i, v ≠ t → (s.phase v).queued = some (ty, i) →
      ({ s with fifo := wf, acquired := acquired, holds := holds, pending := pending } :
        SixState τ).Claims v (.waits ty i)) :
    SixInv { s with fifo := wf, acquired := acquired, holds := holds, pending := pending }
      (some t) := by
  refine ⟨hword, fun u hu => hholds _ u (h.owner u hu), h.inside, fun i slot hslot he => ?_, hok,
    fun v hv => ?_⟩
  · have hne : slot.task ≠ t := fun heq => he (congrArg some heq.symm)
    obtain ⟨hold, hacq⟩ := hslots i slot hslot hne
    obtain ⟨ty, hwants, hq, ha⟩ := h.slots i slot hold he
    exact ⟨ty, hwants, hq, hacq.trans ha⟩
  · have hvt : v ≠ t := fun h => hv (congrArg some h.symm)
    have hsame : s.owner = some v → (s.phase v).queued = none →
        holds .write = s.holds .write ∧ pending = s.pending := by
      intro ho hq
      refine hwrite.resolve_right ?_
      rintro ⟨x, hx, hqueued⟩
      cases Option.some.inj (hx.symm.trans ho)
      exact hqueued hq
    have hnotqueued : ∀ c, (s.phase v).claim = c → (∀ ty i, c ≠ .waits ty i) →
        (s.phase v).queued = none := by
      rintro _ rfl hne
      cases hq : (s.phase v).queued with
      | none => rfl
      | some q => exact absurd (SixPhase.claim_eq_waits.mpr hq) (hne q.1 q.2)
    have hclaim := h.claims v hv
    change SixState.Claims _ v (s.phase v).claim
    cases hc : (s.phase v).claim with
    | free => trivial
    | has ty =>
      rw [hc] at hclaim
      exact hholds ty v hclaim
    | mayWrite =>
      rw [hc] at hclaim
      have hkeep := hsame hclaim.1 (hnotqueued _ hc (by simp))
      exact ⟨hclaim.1, hkeep.1.trans hclaim.2.1, hkeep.2.trans hclaim.2.2⟩
    | unowned =>
      rw [hc] at hclaim
      exact ⟨hholds _ v hclaim.1, hclaim.2⟩
    | owns =>
      rw [hc] at hclaim
      exact hclaim
    | pending =>
      rw [hc] at hclaim
      exact ⟨hclaim.1, (hsame hclaim.1 (hnotqueued _ hc (by simp))).2.trans hclaim.2⟩
    | waits ty i => exact hwaits v ty i hvt (SixPhase.claim_eq_waits.mp hc)
    | names j => exact absurd (SixPhase.inside_of_claim_names hc) (h.not_inside hw hv)
    | gives ty j => exact absurd (SixPhase.inside_of_claim_gives hc) (h.not_inside hw hv)

/-- A waiter that is in another slot is not touched by a change of this one. -/
theorem waits_of_slot (h : SixInv s (some t)) (hv : v ≠ t)
    (hq : (s.phase v).queued = some (ty, i)) {wf : SixLockWaitFifo τ}
    (hslot : ∀ slot, s.fifo.slot i = some slot → slot.task = v → wf.slot i = some slot) :
    (s.setFifo wf).Claims v (.waits ty i) := by
  have hclaim := h.claims v fun h => hv (Option.some.inj h).symm
  rw [SixPhase.claim_eq_waits.mpr hq] at hclaim
  refine ⟨hclaim.1, fun ha => ⟨?_, (hclaim.2 ha).2⟩⟩
  obtain ⟨slot, hold, htask, hwants⟩ := (hclaim.2 ha).1
  exact ⟨slot, hslot slot hold htask, htask, hwants⟩

/-- A thread takes itself off the queue. -/
theorem remove (h : SixInv s (some t)) (hw : s.waitLock = none) {slot : SixLockWaitSlot τ}
    (hslot : s.fifo.slot i = some slot) (htask : slot.task = t) :
    SixInv (s.setFifo (s.fifo.remove i).shrink) (some t) := by
  refine h.setQueue (.inl hw) (h.fifo.remove i).shrink h.word (fun _ _ => id) (.inl ⟨rfl, rfl⟩)
    (fun j slot' hslot' _ => ?_) fun v ty j hv hq => h.waits_of_slot hv hq fun slot' hold hv' => ?_
  · rw [SixLockWaitFifo.slot_shrink, SixLockWaitFifo.slot_remove] at hslot'
    split_ifs at hslot'
    exact ⟨hslot', rfl⟩
  · rw [SixLockWaitFifo.slot_shrink, SixLockWaitFifo.slot_remove, if_neg]
    · exact hold
    · rintro rfl
      cases hslot.symm.trans hold
      exact hv (hv'.symm.trans htask)

/-- A thread stands in the queue. -/
theorem insert [DecidableEq τ] (h : SixInv s (some t)) (hw : s.waitLock = some t)
    {wf : SixLockWaitFifo τ} {transStartTime : ℕ}
    (hins : s.fifo.insert t ty transStartTime = some (wf, i)) :
    SixInv ((s.setFifo wf).setAcquired t false) (some t) := by
  obtain ⟨hfree, hok, hslots⟩ := SixLockWaitFifo.insert_spec h.fifo hins
  have hflag : ∀ v, v ≠ t → Function.update s.acquired t false v = s.acquired v := fun v hv =>
    Function.update_of_ne hv _ _
  refine h.setQueue (.inr hw) hok h.word (fun _ _ => id) (.inl ⟨rfl, rfl⟩)
    (fun j slot hslot hne => ?_) fun v ty j hv hq => ?_
  · rw [hslots] at hslot
    split_ifs at hslot
    · cases hslot
      exact absurd rfl hne
    · exact ⟨hslot, hflag _ hne⟩
  · have hwaits : (s.setFifo wf).Claims v (.waits ty j) := by
      refine h.waits_of_slot hv hq fun slot hold _ => ?_
      rw [hslots, if_neg]
      · exact hold
      · rintro rfl
        rw [hfree] at hold
        cases hold
    exact ⟨fun ha => hwaits.1 ((hflag v hv).symm.trans ha),
      fun ha => hwaits.2 ((hflag v hv).symm.trans ha)⟩

theorem mem_update_cons {holds : SixLockType → List τ} {ty' : SixLockType} (ty : SixLockType)
    (u : τ) (hx : v ∈ holds ty') : v ∈ Function.update holds ty (u :: holds ty) ty' := by
  by_cases hty : ty' = ty
  · subst hty
    simpa using Or.inr hx
  · simpa [hty] using hx

theorem mem_update_erase [DecidableEq τ] {holds : SixLockType → List τ} {ty' : SixLockType} (ty : SixLockType)
    (hv : v ≠ t) (hx : v ∈ holds ty') :
    v ∈ Function.update holds ty ((holds ty).erase t) ty' := by
  by_cases hty : ty' = ty
  · subst hty
    simpa using (List.mem_erase_of_ne hv).mpr hx
  · simpa [hty] using hx

/-- A pass tells the waiter in a slot that it has the lock. -/
theorem give [DecidableEq τ] (h : SixInv s (some t)) (hw : s.waitLock = some t) (hq : s.Absent t)
    (hu : s.Stands u ty j) (hhas : ty ≠ .write → s.Has u ty) :
    SixInv (s.passGive ty j u) (some t) := by
  obtain ⟨slot, hslot, htask, hwants⟩ := hu
  have hut : u ≠ t := htask ▸ hq j slot hslot
  have hqueued := h.queued_of_stands ⟨slot, hslot, htask, hwants⟩ fun h => hut (Option.some.inj h).symm
  have hwaitsU := h.claims u fun h => hut (Option.some.inj h).symm
  rw [SixPhase.claim_eq_waits.mpr hqueued.1] at hwaitsU
  have hslots : ∀ i slot', (s.fifo.remove j).slot i = some slot' → slot'.task ≠ t →
      s.fifo.slot i = some slot' ∧
        Function.update s.acquired u true slot'.task = s.acquired slot'.task := by
    intro i slot' hslot' hne
    rw [SixLockWaitFifo.slot_remove] at hslot'
    split_ifs at hslot' with hij
    refine ⟨hslot', Function.update_of_ne ?_ _ _⟩
    -- a thread stands in one slot only
    rintro rfl
    obtain ⟨ty', -, hq', -⟩ := h.slots i slot' hslot' fun h => hne (Option.some.inj h).symm
    have heq := hqueued.1.symm.trans hq'
    exact hij (Prod.mk.inj (Option.some.inj heq)).2.symm
  have hother : ∀ v ty' i, v ≠ t → v ≠ u → (s.phase v).queued = some (ty', i) →
      (s.setFifo (s.fifo.remove j)).Claims v (.waits ty' i) := by
    intro v ty' i hv hvu hqv
    refine h.waits_of_slot hv hqv fun slot' hold hv' => ?_
    rw [SixLockWaitFifo.slot_remove, if_neg]
    · exact hold
    · rintro rfl
      cases hslot.symm.trans hold
      exact hvu (hv'.symm.trans htask)
  by_cases hty : ty = .write
  · subst hty
    obtain ⟨howner, hpending⟩ := (hwaitsU.2 hqueued.2).2 rfl
    have hword := h.word
    simp only [SixState.passGive, SixState.setFifo, SixState.setAcquired, SixState.grantWrite,
      if_true]
    refine h.setQueue (.inr hw) (h.fifo.remove j) ?_ (fun ty' x hx => mem_update_cons _ u hx)
      (.inr ⟨u, howner, by simp [hqueued.1]⟩) hslots fun v ty' i hv hqv => ?_
    · simpa [SixState.WordOk, hpending] using hword
    · by_cases hvu : v = u
      · subst hvu
        cases hqueued.1.symm.trans hqv
        refine ⟨fun _ => ⟨?_, fun h => nomatch h⟩, fun ha => ?_⟩
        · simp
        · simp at ha
      · obtain ⟨hacq, hnot⟩ := hother v ty' i hv hvu hqv
        have hflag : Function.update s.acquired u true v = s.acquired v :=
          Function.update_of_ne hvu _ _
        refine ⟨fun ha => ?_, fun ha => ?_⟩
        · have hv := hacq (hflag.symm.trans ha)
          exact ⟨mem_update_cons _ u hv.1, hv.2⟩
        · have hv := hnot (hflag.symm.trans ha)
          exact ⟨hv.1, fun hty' =>
            absurd (Option.some.inj ((hv.2 hty').1.symm.trans howner)) hvu⟩
  · simp only [SixState.passGive, SixState.setFifo, SixState.setAcquired, if_neg hty]
    refine h.setQueue (.inr hw) (h.fifo.remove j) h.word (fun _ _ => id) (.inl ⟨rfl, rfl⟩) hslots
      fun v ty' i hv hqv => ?_
    by_cases hvu : v = u
    · subst hvu
      cases hqueued.1.symm.trans hqv
      refine ⟨fun _ => hhas hty, fun ha => ?_⟩
      simp at ha
    · obtain ⟨hacq, hnot⟩ := hother v ty' i hv hvu hqv
      have hflag : Function.update s.acquired u true v = s.acquired v :=
        Function.update_of_ne hvu _ _
      exact ⟨fun ha => hacq (hflag.symm.trans ha), fun ha => hnot (hflag.symm.trans ha)⟩

/-- The lock is taken for read on behalf of a thread. -/
theorem take_read (h : SixInv s (some t)) (hq : s.Absent t)
    (hb : (s.holds .read).length + 1 < 2 ^ 26) (u : τ) : SixInv (s.take .read u) (some t) :=
  h.setHolds (h.word.take_read hb).word (fun _ _ _ hx => mem_update_cons _ u hx)
    (fun ho => mem_update_cons _ u (h.owner t ho)) (fun _ _ _ hw => ⟨by simpa using hw, rfl⟩) hq

/-- The lock is taken for intent on behalf of a thread. -/
theorem take_intent (h : SixInv s (some t)) (hq : s.Absent t)
    (hfree : s.state &&& SixLockType.lockFail .intent = 0) (u : τ) :
    SixInv (s.take .intent u) (some t) :=
  h.setHolds (h.word.take_intent hfree).word (fun _ _ _ hx => mem_update_cons _ u hx)
    (fun ho => mem_update_cons _ u (h.owner t ho)) (fun _ _ _ hw => ⟨by simpa using hw, rfl⟩) hq

/-- The owner takes the lock for write. -/
theorem take_write (h : SixInv s (some t)) (hq : s.Absent t) (hmay : s.Claims t .mayWrite) :
    SixInv (s.take .write t) (some t) := by
  obtain ⟨howner, hwrite, hpending⟩ := hmay
  exact h.setHolds (h.word.take_write hwrite hpending).word
    (fun _ _ _ hx => mem_update_cons _ t hx) (fun ho => mem_update_cons _ t (h.owner t ho))
    (fun _ hv ho => absurd (Option.some.inj (ho.symm.trans howner)) hv) hq

/-- A thread gives back what it has for read or for write. -/
theorem release [DecidableEq τ] (h : SixInv s (some t)) (hq : s.Absent t) (hty : ty ≠ .intent)
    (ht : t ∈ s.holds ty) : SixInv (s.release ty t) (some t) := by
  refine h.setHolds (h.word.release ht).word (fun _ _ hx hin => mem_update_erase _ hx hin)
    (fun ho => ?_) (fun _ _ _ hw => ?_) hq
  · simpa [Ne.symm hty] using h.owner t ho
  · cases ty with
    | read => exact ⟨by simpa using hw, rfl⟩
    | intent => exact absurd rfl hty
    | write =>
      rw [hw] at ht
      cases ht

/-- A thread whose name is not there any more gives back what it has for intent. -/
theorem release_intent [DecidableEq τ] (h : SixInv s (some t)) (hq : s.Absent t)
    (ht : s.Claims t .unowned) : SixInv (s.release .intent t) (some t) := by
  obtain ⟨hin, hnone⟩ := ht
  refine h.setHolds (h.word.release hin).word (fun _ _ hx hin => mem_update_erase _ hx hin)
    (fun ho => ?_) (fun _ _ _ hw => ⟨by simpa using hw, rfl⟩) hq
  rw [hnone] at ho
  cases ho

/-- A reader becomes the intent holder. -/
theorem upgrade [DecidableEq τ] (h : SixInv s (some t)) (hq : s.Absent t) (ht : t ∈ s.holds .read)
    (hfree : s.state &&& sixLockHeldIntent = 0) : SixInv (s.upgrade t) (some t) := by
  refine h.setHolds (h.word.upgrade ht hfree).word (fun ty x hx hin => ?_) (fun ho => ?_)
    (fun _ _ _ hw => ⟨by simpa using hw, rfl⟩) hq
  · cases ty with
    | read => simpa using (List.mem_erase_of_ne hx).mpr hin
    | intent => simpa using Or.inr hin
    | write => simpa using hin
  · simp

/-- The owner sets the bit of the writer. -/
theorem pend (h : SixInv s (some t)) (hq : s.Absent t) (hmay : s.Claims t .mayWrite) :
    SixInv (s.pend t) (some t) := by
  obtain ⟨howner, hwrite, hpending⟩ := hmay
  exact h.setHolds (h.word.pend hwrite hpending).word (fun _ _ _ hx => hx) (h.owner t)
    (fun _ hv ho => absurd (Option.some.inj (ho.symm.trans howner)) hv) hq

/-- The owner gives the bit of the writer up. -/
theorem unpend [DecidableEq τ] (h : SixInv s (some t)) (hq : s.Absent t) (hp : s.Pends t) :
    SixInv (s.unpend t) (some t) :=
  h.setHolds (h.word.unpend (h.write_of_pends hp) hp.2).word (fun _ _ _ hx => hx) (h.owner t)
    (fun _ hv ho => absurd (Option.some.inj (ho.symm.trans hp.1)) hv) hq

/-- The owner has seen that there are no readers. -/
theorem grantWrite [DecidableEq τ] (h : SixInv s (some t)) (hq : s.Absent t) (hp : s.Pends t) :
    SixInv (s.grantWrite t) (some t) :=
  h.setHolds (h.word.grantWrite hp.2).word (fun _ _ _ hx => mem_update_cons _ t hx)
    (fun ho => mem_update_cons _ t (h.owner t ho))
    (fun _ hv ho => absurd (Option.some.inj (ho.symm.trans hp.1)) hv) hq

end SixInv

/-! ### Steps -/

namespace SixInv

variable {s s' : SixState τ} {t u : τ} {p : SixPhase} {ty : SixLockType} {i j : ℕ}
  {ret : SixRet} {w : SixWake} {more : Bool} {transStartTime : ℕ} {k : SixCaller}

/-- What a thread relies on holds. -/
theorem claim_of (h : SixInv s none) (hphase : s.phase t = p) : s.Claims t p.claim := by
  have hclaim := h.claims t (Option.some_ne_none t).symm
  rwa [hphase] at hclaim

theorem waitLock_of (h : SixInv s none) (hphase : s.phase t = p) (hin : p.inside = true) :
    s.waitLock = some t :=
  h.inside t (Option.some_ne_none t).symm (hphase ▸ hin)

theorem absent_of (h : SixInv s none) (hphase : s.phase t = p) (hq : p.queued = none) :
    s.Absent t :=
  h.absent (hphase ▸ hq)

theorem claims_tryEntry (s : SixState τ) (t : τ) (ty : SixLockType) (k : SixCaller) :
    s.Claims t (SixPhase.tryEntry ty k).claim := by
  cases ty
  · trivial
  · trivial
  · trivial

theorem claims_granted (hty : t ∈ s.holds ty) (k : SixCaller) :
    s.Claims t (k.granted ty).claim := by
  cases k
  · trivial
  · exact hty
  · trivial
  · trivial

theorem claims_entry {op : SixOp} (hrel : ReleasesHeld s t (.call op)) :
    s.Claims t op.entry.claim := by
  cases op with
  | trylock ty => exact claims_tryEntry s t ty _
  | relock ty seq => trivial
  | lock ty transStartTime => exact claims_tryEntry s t ty _
  | unlock ty => exact hrel
  | downgrade => exact hrel
  | tryupgrade => exact hrel
  | increment ty => trivial
  | wakeupAll => trivial

theorem mem_of_unlockSub (h : SixInv s none) (hphase : s.phase t = .unlockSub ty ret) :
    t ∈ s.holds ty := by
  have hclaim := h.claim_of hphase
  rw [SixPhase.claim] at hclaim
  split_ifs at hclaim with hty
  · subst hty
    exact hclaim.1
  · exact hclaim

/-- A place outside the queue's lock needs no lock. -/
theorem waitLock_of_outside (hp : p.inside = false) : p.inside = true → s.waitLock = some t :=
  fun hin => absurd (hp.symm.trans hin) Bool.false_ne_true

variable [DecidableEq τ]

/-- The end of a step of a thread that is not in the queue. -/
theorem finish (h : SixInv s (some t)) (hq : s.Absent t) (hp : s.Claims t p.claim)
    (hin : p.inside = true → s.waitLock = some t) : SixInv (s.goto t p) none :=
  h.goto hp hin fun i slot hslot htask => absurd htask (hq i slot hslot)

/-- The end of a step that changed the word. -/
theorem finish_put {holds : SixLockType → List τ} {pending : List τ} {w : ℕ}
    (h : SixInv (s.put w holds pending) (some t)) (hq : s.Absent t)
    (hp : (s.put w holds pending).Claims t p.claim)
    (hin : p.inside = true → s.waitLock = some t) :
    SixInv ((s.put w holds pending).goto t p) none :=
  h.finish hq hp hin

/-- A step that only goes on. -/
theorem move (h : SixInv s none) (hq : s.Absent t) (hp : s.Claims t p.claim)
    (hin : p.inside = true → s.waitLock = some t) : SixInv (s.goto t p) none :=
  (h.except t).finish hq hp hin

theorem step_tryCas (h : SixInv s none) (hphase : s.phase t = .tryCas ty k)
    (hstep : s.advance t (.tryCas ty k) = some s') (hb : (s'.holds .read).length < 2 ^ 26) :
    SixInv s' none := by
  have hq := h.absent_of hphase rfl
  have hclaim := h.claim_of hphase
  simp only [SixState.advance] at hstep
  split_ifs at hstep with hfree
  · cases hstep
    cases ty with
    | read =>
      have hread : t ∈ (s.take .read t).holds .read := by simp [SixState.take]
      refine finish_put (p := k.granted .read) ((h.except t).take_read hq ?_ t) hq
        (claims_granted hread k) (waitLock_of_outside (SixPhase.granted_inside _ k))
      simpa [SixState.take, SixState.goto] using hb
    | intent =>
      have hunowned : (s.take .intent t).Claims t .unowned := by
        refine ⟨?_, ?_⟩
        · simp [SixState.take]
        · simpa [SixState.take] using h.owner_none hfree
      exact finish_put ((h.except t).take_intent hq hfree t) hq hunowned fun hin => nomatch hin
    | write =>
      have hwrite : t ∈ (s.take .write t).holds .write := by simp [SixState.take]
      exact finish_put (p := k.granted .write) ((h.except t).take_write hq hclaim) hq
        (claims_granted hwrite k) (waitLock_of_outside (SixPhase.granted_inside _ k))
  · cases hstep
    refine h.move hq ?_ (waitLock_of_outside (SixPhase.refused_inside ty k))
    cases k with
    | lock transStartTime =>
      cases ty with
      | read => trivial
      | intent => trivial
      | write => exact hclaim
    | _ => trivial

theorem step_tryOwner (h : SixInv s none) (hphase : s.phase t = .tryOwner k)
    (hstep : s.advance t (.tryOwner k) = some s') : SixInv s' none := by
  have hq := h.absent_of hphase rfl
  obtain ⟨hin, -⟩ := h.claim_of hphase
  simp only [SixState.advance] at hstep
  split_ifs at hstep with hnone
  cases hstep
  exact ((h.except t).setOwner_some hnone hin (.inl rfl) hq).finish hq
    (claims_granted (s := s.setOwner (some t)) hin k)
    (waitLock_of_outside (SixPhase.granted_inside _ k))

theorem step_unlocking (h : SixInv s none) (hphase : s.phase t = .unlocking ty ret)
    (hstep : s.advance t (.unlocking ty ret) = some s') : SixInv s' none := by
  have hq := h.absent_of hphase rfl
  have hclaim := h.claim_of hphase
  simp only [SixState.advance, SixState.unlockIp] at hstep
  cases ty with
  | read =>
    cases hstep
    exact h.move hq hclaim fun hin => nomatch hin
  | intent =>
    simp only at hstep
    split_ifs at hstep with howner hrec
    · cases hstep
      exact ((h.except t).setRecurse _ _).finish hq trivial fun hin => nomatch hin
    · cases hstep
      exact h.move hq howner fun hin => nomatch hin
  | write =>
    simp only at hstep
    split_ifs at hstep with howner hrec
    · cases hstep
      exact ((h.except t).setRecurse _ _).finish hq trivial fun hin => nomatch hin
    · cases hstep
      exact ((h.except t).setWriteUnlocks _).finish hq hclaim fun hin => nomatch hin

theorem step_unlockOwner (h : SixInv s none) (hphase : s.phase t = .unlockOwner ret)
    (hstep : s.advance t (.unlockOwner ret) = some s') : SixInv s' none := by
  have hq := h.absent_of hphase rfl
  have howner : s.owner = some t := h.claim_of hphase
  cases hstep
  exact ((h.except t).setOwner_none howner hq).finish hq ⟨h.owner t howner, rfl⟩
    fun hin => nomatch hin

theorem step_unlockSub (h : SixInv s none) (hphase : s.phase t = .unlockSub ty ret)
    (hstep : s.advance t (.unlockSub ty ret) = some s') : SixInv s' none := by
  have hq := h.absent_of hphase rfl
  have hclaim := h.claim_of hphase
  simp only [SixState.advance] at hstep
  split_ifs at hstep
  cases hstep
  by_cases hty : ty = .intent
  · subst hty
    exact finish_put ((h.except t).release_intent hq hclaim) hq trivial fun hin => nomatch hin
  · rw [SixPhase.claim, if_neg hty] at hclaim
    exact finish_put ((h.except t).release hq hty hclaim) hq trivial fun hin => nomatch hin

theorem step_waking (h : SixInv s none) (hphase : s.phase t = .waking w)
    (hstep : s.advance t (.waking w) = some s') : SixInv s' none := by
  have hq := h.absent_of hphase rfl
  simp only [SixState.advance, SixState.wakeup] at hstep
  cases htypes : w.types with
  | nil =>
    rw [htypes] at hstep
    cases hstep
    exact h.move hq trivial fun hin => nomatch hin
  | cons ty types =>
    simp only [htypes] at hstep
    split_ifs at hstep with hread hbit hlock
    · cases hstep
      exact h.move hq trivial fun hin => nomatch hin
    · cases hstep
      exact h.move hq trivial fun hin => nomatch hin
    · cases hstep
      exact ((h.except t).setWaitLock (.inl hlock) _).finish hq trivial fun _ => rfl

theorem step_passTry (h : SixInv s none) (hphase : s.phase t = .passTry ty i w)
    (hstep : s.advance t (.passTry ty i w) = some s') (hb : (s'.holds .read).length < 2 ^ 26) :
    SixInv s' none := by
  have hq := h.absent_of hphase rfl
  have hlock := h.waitLock_of hphase rfl
  simp only [SixState.advance] at hstep
  cases hcand : s.fifo.candidate ty i with
  | none =>
    rw [hcand] at hstep
    cases hstep
    exact h.move hq trivial fun _ => hlock
  | some c =>
    obtain ⟨j, more⟩ := c
    obtain ⟨slot, hslot, hwants⟩ :=
      (s.fifo.wants_eq_true ty j).mp (SixLockWaitFifo.candidate_wants hcand)
    have hstands : s.Stands slot.task ty j := ⟨slot, hslot, rfl, hwants⟩
    simp only [hcand, SixState.passAttempt, hslot] at hstep
    cases ty with
    | write =>
      simp only at hstep
      split_ifs at hstep
      · cases hstep
        exact h.move hq ⟨slot.task, hstands, fun hne => absurd rfl hne⟩ fun _ => hlock
      · cases hstep
        exact h.move hq trivial fun _ => hlock
    | intent =>
      simp only at hstep
      split_ifs at hstep with hfree
      · cases hstep
        have hnames : (s.take .intent slot.task).Claims t (.names j) := by
          refine ⟨slot.task, ?_, ?_, ?_⟩
          · simpa [SixState.take, SixState.Stands] using hstands
          · simp [SixState.take]
          · simpa [SixState.take] using h.owner_none hfree
        exact finish_put ((h.except t).take_intent hq hfree slot.task) hq hnames fun _ => hlock
      · cases hstep
        exact h.move hq trivial fun _ => hlock
    | read =>
      simp only at hstep
      split_ifs at hstep with hfree
      · cases hstep
        have hgives : (s.take .read slot.task).Claims t (.gives .read j) := by
          refine ⟨slot.task, ?_, fun _ => ⟨?_, fun hty => nomatch hty⟩⟩
          · simpa [SixState.take, SixState.Stands] using hstands
          · simp [SixState.take]
        refine finish_put ((h.except t).take_read hq ?_ slot.task) hq hgives fun _ => hlock
        simpa [SixState.take, SixState.goto] using hb
      · cases hstep
        exact h.move hq trivial fun _ => hlock

theorem step_passOwner (h : SixInv s none) (hphase : s.phase t = .passOwner j more w)
    (hstep : s.advance t (.passOwner j more w) = some s') : SixInv s' none := by
  have hq := h.absent_of hphase rfl
  have hlock := h.waitLock_of hphase rfl
  obtain ⟨u, hstands, hin, hnone⟩ := h.claim_of hphase
  have hqueued := (h.queued_of_stands hstands (Option.some_ne_none u).symm).1
  obtain ⟨slot, hslot, rfl, hwants⟩ := hstands
  simp only [SixState.advance, hslot, hnone, if_true] at hstep
  cases hstep
  have howner := (h.except t).setOwner_some hnone hin (.inr ⟨hlock, by simp [hqueued]⟩) hq
  exact howner.finish hq ⟨slot.task, ⟨slot, hslot, rfl, hwants⟩, fun _ => ⟨hin, fun _ => rfl⟩⟩
    fun _ => hlock

theorem passGive_waitLock (s : SixState τ) (ty : SixLockType) (j : ℕ) (u : τ) :
    (s.passGive ty j u).waitLock = s.waitLock := by
  simp only [SixState.passGive]
  split_ifs
  · rfl
  · rfl

theorem passGive_fifo (s : SixState τ) (ty : SixLockType) (j : ℕ) (u : τ) :
    (s.passGive ty j u).fifo = s.fifo.remove j := by
  simp only [SixState.passGive]
  split_ifs
  · rfl
  · rfl

theorem step_passGrant (h : SixInv s none) (hphase : s.phase t = .passGrant ty j more w)
    (hstep : s.advance t (.passGrant ty j more w) = some s') : SixInv s' none := by
  have hq := h.absent_of hphase rfl
  have hlock := h.waitLock_of hphase rfl
  obtain ⟨u, ⟨slot, hslot, rfl, hwants⟩, hhas⟩ := h.claim_of hphase
  simp only [SixState.advance, hslot] at hstep
  cases hstep
  have hgive := (h.except t).give hlock hq ⟨slot, hslot, rfl, hwants⟩ hhas
  refine hgive.finish (fun i slot' hslot' => ?_) ?_ fun _ => (passGive_waitLock ..).trans hlock
  · rw [passGive_fifo, SixLockWaitFifo.slot_remove] at hslot'
    split_ifs at hslot'
    exact hq i slot' hslot'
  · cases ty with
    | read => trivial
    | _ =>
      cases more with
      | true => trivial
      | false => trivial

theorem step_passClear (h : SixInv s none) (hphase : s.phase t = .passClear ty w)
    (hstep : s.advance t (.passClear ty w) = some s') : SixInv s' none := by
  have hlock := h.waitLock_of hphase rfl
  cases hstep
  exact finish_put ((h.except t).setWord (h.word.clearWaiting ty)) (h.absent_of hphase rfl) trivial
    fun _ => hlock

theorem step_passEnd (h : SixInv s none) (hphase : s.phase t = .passEnd ty w)
    (hstep : s.advance t (.passEnd ty w) = some s') : SixInv s' none := by
  have hlock := h.waitLock_of hphase rfl
  cases hstep
  have hshrink : SixInv (s.setFifo s.fifo.shrink) (some t) :=
    have he := h.except t
    ⟨he.word, he.owner, he.inside, he.slots, he.fifo.shrink, he.claims⟩
  exact (hshrink.setWaitLock (.inr hlock) none).finish (h.absent_of hphase rfl) trivial
    fun hin => nomatch hin

theorem step_slowAdd (h : SixInv s none) (hphase : s.phase t = .slowAdd transStartTime)
    (hstep : s.advance t (.slowAdd transStartTime) = some s') : SixInv s' none := by
  have hq := h.absent_of hphase rfl
  have hmay : s.Claims t .mayWrite := h.claim_of hphase
  cases hstep
  have hpends : (s.pend t).Claims t .pending := by
    refine ⟨?_, ?_⟩
    · simpa [SixState.pend] using hmay.1
    · simp [SixState.pend, hmay.2.2]
  exact finish_put ((h.except t).pend hq hmay) hq hpends fun hin => nomatch hin

theorem step_slowOr (h : SixInv s none) (hphase : s.phase t = .slowOr ty transStartTime)
    (hstep : s.advance t (.slowOr ty transStartTime) = some s') : SixInv s' none := by
  have hlock := h.waitLock_of hphase rfl
  have hclaim := h.claim_of hphase
  cases hstep
  refine finish_put ((h.except t).setWord (h.word.setWaiting ty)) (h.absent_of hphase rfl) ?_
    fun _ => hlock
  by_cases hty : ty = .write
  · subst hty
    exact hclaim
  · rw [SixPhase.claim, if_neg hty]
    trivial

theorem step_slowTry (h : SixInv s none) (hphase : s.phase t = .slowTry ty transStartTime)
    (hstep : s.advance t (.slowTry ty transStartTime) = some s')
    (hb : (s'.holds .read).length < 2 ^ 26) : SixInv s' none := by
  have hq := h.absent_of hphase rfl
  have hlock := h.waitLock_of hphase rfl
  have hclaim := h.claim_of hphase
  simp only [SixState.advance, SixState.slowAttempt] at hstep
  cases ty with
  | write =>
    simp only at hstep
    split_ifs at hstep
    · cases hstep
      exact finish_put ((h.except t).grantWrite hq hclaim) hq trivial fun _ => hlock
    · cases hstep
      exact h.move hq hclaim fun _ => hlock
  | intent =>
    simp only at hstep
    split_ifs at hstep with hfree
    · cases hstep
      have hunowned : (s.take .intent t).Claims t .unowned := by
        refine ⟨?_, ?_⟩
        · simp [SixState.take]
        · simpa [SixState.take] using h.owner_none hfree
      exact finish_put ((h.except t).take_intent hq hfree t) hq hunowned fun _ => hlock
    · cases hstep
      exact h.move hq trivial fun _ => hlock
  | read =>
    simp only at hstep
    split_ifs at hstep with hfree
    · cases hstep
      refine finish_put ((h.except t).take_read hq ?_ t) hq trivial fun _ => hlock
      simpa [SixState.take, SixState.goto] using hb
    · cases hstep
      exact h.move hq trivial fun _ => hlock

theorem step_slowOwner (h : SixInv s none) (hphase : s.phase t = .slowOwner)
    (hstep : s.advance t .slowOwner = some s') : SixInv s' none := by
  have hq := h.absent_of hphase rfl
  have hlock := h.waitLock_of hphase rfl
  obtain ⟨hin, -⟩ := h.claim_of hphase
  simp only [SixState.advance] at hstep
  split_ifs at hstep with hnone
  cases hstep
  exact ((h.except t).setOwner_some hnone hin (.inl rfl) hq).finish hq trivial fun _ => hlock

theorem step_slowInsert (h : SixInv s none) (hphase : s.phase t = .slowInsert ty transStartTime)
    (hstep : s.advance t (.slowInsert ty transStartTime) = some s') : SixInv s' none := by
  have hq := h.absent_of hphase rfl
  have hlock := h.waitLock_of hphase rfl
  have hclaim := h.claim_of hphase
  simp only [SixState.advance] at hstep
  cases hins : s.fifo.insert t ty transStartTime with
  | none =>
    rw [hins] at hstep
    cases hstep
  | some r =>
    obtain ⟨wf, i⟩ := r
    rw [hins] at hstep
    cases hstep
    obtain ⟨-, -, hslots⟩ := SixLockWaitFifo.insert_spec h.fifo hins
    have hwants := SixLockWaitFifo.wants_startTimeOf t transStartTime ty
    have hslot : wf.slot i = some ⟨t, SixLockWaitFifo.startTimeOf transStartTime ty⟩ := by
      rw [hslots, if_pos rfl]
    have hflag : Function.update s.acquired t false t = false := Function.update_self ..
    refine (((h.except t).insert hlock hins).setWaitLock (.inr hlock) none).goto
      ⟨fun ha => ?_, fun _ => ⟨⟨_, hslot, rfl, hwants⟩, fun hty => ?_⟩⟩ (fun hin => nomatch hin)
      fun j slot hj htask => ?_
    · exact absurd (hflag.symm.trans ha) Bool.false_ne_true
    · subst hty
      exact hclaim
    · have hj' : (if j = i then some ⟨t, SixLockWaitFifo.startTimeOf transStartTime ty⟩
          else s.fifo.slot j) = some slot := (hslots j).symm.trans hj
      split_ifs at hj' with hji
      · subst hji
        cases hj'
        exact ⟨ty, hwants, rfl, hflag⟩
      · exact absurd htask (hq j slot hj')

theorem step_cancelLock {ret : ℤ} (h : SixInv s none) (hphase : s.phase t = .cancelLock ty i ret)
    (hstep : s.advance t (.cancelLock ty i ret) = some s') : SixInv s' none := by
  obtain ⟨hhas, hstands⟩ := h.claim_of hphase
  simp only [SixState.advance] at hstep
  by_cases hlock : s.waitLock = none
  swap
  · rw [if_neg hlock] at hstep
    cases hstep
  rw [if_pos hlock] at hstep
  by_cases ha : s.acquired t = true
  · rw [if_pos ha] at hstep
    cases hstep
    refine h.move (h.absent_of_acquired ha) ?_
      (waitLock_of_outside (SixPhase.doUnlock_inside ty _))
    cases ty with
    | intent => exact (hhas ha).2 rfl
    | read => exact (hhas ha).1
    | write => exact (hhas ha).1
  · rw [if_neg ha] at hstep
    cases hstep
    obtain ⟨⟨slot, hslot, htask, -⟩, hpends⟩ := hstands (Bool.eq_false_iff.mpr ha)
    have hq : (s.phase t).queued = some (ty, i) := by rw [hphase, SixPhase.queued]
    refine ((h.except t).remove hlock hslot htask).finish (h.absent_remove hq) ?_ fun hin => ?_
    · by_cases hty : ty = .write
      · rw [if_pos hty]
        exact hpends hty
      · rw [if_neg hty]
        trivial
    · split_ifs at hin
      · cases hin
      · cases hin

theorem step_cancelClear {ret : ℤ} (h : SixInv s none) (hphase : s.phase t = .cancelClear ret)
    (hstep : s.advance t (.cancelClear ret) = some s') : SixInv s' none := by
  have hq := h.absent_of hphase rfl
  have hpends : s.Pends t := h.claim_of hphase
  cases hstep
  exact finish_put ((h.except t).unpend hq hpends) hq trivial fun hin => nomatch hin

theorem step_upgradeCas (h : SixInv s none) (hphase : s.phase t = .upgradeCas)
    (hstep : s.advance t .upgradeCas = some s') : SixInv s' none := by
  have hq := h.absent_of hphase rfl
  have hread : t ∈ s.holds .read := h.claim_of hphase
  simp only [SixState.advance] at hstep
  split_ifs at hstep with hheld
  · cases hstep
    exact h.move hq trivial fun hin => nomatch hin
  · cases hstep
    have hfree := not_not.mp hheld
    have hunowned : (s.upgrade t).Claims t .unowned := by
      refine ⟨?_, ?_⟩
      · simp [SixState.upgrade]
      · simpa [SixState.upgrade] using h.owner_none hfree
    exact finish_put ((h.except t).upgrade hq hread hfree) hq hunowned fun hin => nomatch hin

theorem step_incrementing {downgrade : Bool} (h : SixInv s none)
    (hphase : s.phase t = .incrementing ty downgrade)
    (hstep : s.advance t (.incrementing ty downgrade) = some s')
    (hb : (s'.holds .read).length < 2 ^ 26) : SixInv s' none := by
  have hq := h.absent_of hphase rfl
  have hclaim := h.claim_of hphase
  simp only [SixState.advance, SixState.increment] at hstep
  cases ty with
  | read =>
    simp only at hstep
    split_ifs at hstep with hheld hdown
    · cases hstep
      subst hdown
      have hhas : (s.take .read t).Claims t (.has .intent) := by
        have hin : t ∈ s.holds .intent := hclaim
        simpa [SixState.take, SixState.Claims] using hin
      refine finish_put ((h.except t).take_read hq ?_ t) hq hhas fun hin => nomatch hin
      simpa [SixState.take, SixState.goto] using hb
    · cases hstep
      refine finish_put ((h.except t).take_read hq ?_ t) hq trivial fun hin => nomatch hin
      simpa [SixState.take, SixState.goto] using hb
  | intent =>
    simp only at hstep
    split_ifs at hstep
    cases hstep
    exact ((h.except t).setRecurse _ _).finish hq trivial fun hin => nomatch hin
  | write =>
    simp only at hstep
    split_ifs at hstep
    cases hstep
    exact ((h.except t).setRecurse _ _).finish hq trivial fun hin => nomatch hin

/-- A step from where a thread is. -/
theorem advance (h : SixInv s none) (hphase : s.phase t = p) (hstep : s.advance t p = some s')
    (hb : (s'.holds .read).length < 2 ^ 26) : SixInv s' none := by
  have hclaim := h.claim_of hphase
  cases p with
  | returned ret =>
    rw [SixState.advance_returned] at hstep
    cases hstep
  | relockFirst ty seq =>
    simp only [SixState.advance] at hstep
    split_ifs at hstep
    · cases hstep
      exact h.move (h.absent_of hphase rfl) (claims_tryEntry s t ty _)
        (waitLock_of_outside (SixPhase.tryEntry_inside ty _))
    · cases hstep
      exact h.move (h.absent_of hphase rfl) trivial fun hin => nomatch hin
  | tryAssert k =>
    simp only [SixState.advance] at hstep
    split_ifs at hstep with hassert
    cases hstep
    have hzero := h.word.and_write.mp hassert.2
    refine h.move (h.absent_of hphase rfl) ⟨hassert.1, ?_, ?_⟩ fun hin => nomatch hin
    · exact List.length_eq_zero_iff.mp (by omega)
    · exact List.length_eq_zero_iff.mp (by omega)
  | tryCas ty k => exact h.step_tryCas hphase hstep hb
  | tryOwner k => exact h.step_tryOwner hphase hstep
  | relockSecond ty seq =>
    simp only [SixState.advance] at hstep
    split_ifs at hstep
    · cases hstep
      exact h.move (h.absent_of hphase rfl) trivial fun hin => nomatch hin
    · cases hstep
      exact h.move (h.absent_of hphase rfl) hclaim fun hin => nomatch hin
  | unlocking ty ret => exact h.step_unlocking hphase hstep
  | unlockSeq ret =>
    cases hstep
    exact ((h.except t).setSeq _).finish (h.absent_of hphase rfl) hclaim
      fun hin => nomatch hin
  | unlockOwner ret => exact h.step_unlockOwner hphase hstep
  | unlockSub ty ret => exact h.step_unlockSub hphase hstep
  | loadAll =>
    cases hstep
    exact h.move (h.absent_of hphase rfl) trivial fun hin => nomatch hin
  | waking w => exact h.step_waking hphase hstep
  | passTry ty i w => exact h.step_passTry hphase hstep hb
  | passOwner j more w => exact h.step_passOwner hphase hstep
  | passGrant ty j more w => exact h.step_passGrant hphase hstep
  | passClear ty w => exact h.step_passClear hphase hstep
  | passEnd ty w => exact h.step_passEnd hphase hstep
  | slowAssert transStartTime =>
    simp only [SixState.advance] at hstep
    split_ifs at hstep
    cases hstep
    exact h.move (h.absent_of hphase rfl) hclaim fun hin => nomatch hin
  | slowAdd transStartTime => exact h.step_slowAdd hphase hstep
  | slowLock ty transStartTime =>
    simp only [SixState.advance] at hstep
    split_ifs at hstep with hlock
    cases hstep
    exact ((h.except t).setWaitLock (.inl hlock) _).finish (h.absent_of hphase rfl)
      hclaim fun _ => rfl
  | slowOr ty transStartTime => exact h.step_slowOr hphase hstep
  | slowTry ty transStartTime => exact h.step_slowTry hphase hstep hb
  | slowOwner => exact h.step_slowOwner hphase hstep
  | slowDone =>
    cases hstep
    exact ((h.except t).setWaitLock (.inr (h.waitLock_of hphase rfl)) none).finish
      (h.absent_of hphase rfl) trivial fun hin => nomatch hin
  | slowInsert ty transStartTime => exact h.step_slowInsert hphase hstep
  | waiting ty i =>
    simp only [SixState.advance] at hstep
    split_ifs at hstep with ha
    cases hstep
    exact h.move (h.absent_of_acquired ha) trivial fun hin => nomatch hin
  | cancelLock ty i ret => exact h.step_cancelLock hphase hstep
  | cancelClear ret => exact h.step_cancelClear hphase hstep
  | cancelLoad ret =>
    cases hstep
    exact h.move (h.absent_of hphase rfl) trivial fun hin => nomatch hin
  | upgradeCas => exact h.step_upgradeCas hphase hstep
  | incrementing ty downgrade => exact h.step_incrementing hphase hstep hb

/-- A step of a thread that releases only what it has. -/
theorem step {act : SixAct} (h : SixInv s none) (hrel : ReleasesHeld s t act)
    (hstep : sixStep s t act = some s') (hb : (s'.holds .read).length < 2 ^ 26) :
    SixInv s' none := by
  cases act with
  | call op =>
    cases hphase : s.phase t with
    | returned ret =>
      simp only [sixStep, hphase] at hstep
      cases hstep
      exact h.move (h.absent_of hphase rfl) (claims_entry hrel)
        (waitLock_of_outside (SixPhase.entry_inside op))
    | _ => simp [sixStep, hphase] at hstep
  | go => exact h.advance rfl hstep hb
  | cancel ret =>
    cases hphase : s.phase t with
    | waiting ty i =>
      simp only [sixStep, hphase] at hstep
      split_ifs at hstep with ha
      cases hstep
      have hclaim := h.claim_of hphase
      refine (h.except t).goto hclaim (fun hin => nomatch hin)
        fun j slot hslot htask => ?_
      subst htask
      obtain ⟨ty', hwants, hqueued, hacq⟩ := h.slots j slot hslot (Option.some_ne_none _).symm
      rw [hphase] at hqueued
      exact ⟨ty', hwants, hqueued, hacq⟩
    | _ => simp [sixStep, hphase] at hstep

end SixInv

/-- A lock that nobody has used yet. -/
theorem SixInv.init : SixInv ({} : SixState τ) none := by
  have hslot : ∀ i, ({} : SixState τ).fifo.slot i = none := by
    intro i
    change ((List.replicate 8 none)[i]?).join = none
    rw [List.getElem?_replicate]
    split_ifs
    · rfl
    · rfl
  refine ⟨⟨rfl, by simp, by simp, by simp, by simp⟩, fun u hu => ?_, fun v _ hin => ?_,
    fun i slot hs => ?_, fun i _ => hslot i, fun v _ => trivial⟩
  · cases hu
  · cases hin
  · rw [hslot] at hs
    cases hs

/-- What every run keeps. -/
theorem SixInv.run [DecidableEq τ] {cond : SixState τ → τ → SixAct → Prop} {s s' : SixState τ}
    (h : SixInv s none) (hrun : SixRun cond s s') : SixInv s' none := by
  induction hrun with
  | refl => exact h
  | tail _ hstep ih =>
    obtain ⟨t, act, hrel, -, hstep, hb⟩ := hstep
    exact ih.step hrel hstep hb

end Subvol

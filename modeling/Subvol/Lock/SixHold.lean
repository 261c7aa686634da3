import Subvol.Lock.SixInv

/-!
# Holders of a six lock

What a thread has is counted in the word, so there is one intent holder and one writer. That the
writer is alone, and has the lock for intent too, is left to the threads: nothing keeps the writer
from releasing its intent hold first, or from taking a read hold with `six_lock_increment`. Threads
that do neither never see a writer together with a reader, also where a pass takes the lock on their
behalf and where they give up waiting for a lock that they already have.

## Main definitions

* `Disciplined`: a writer keeps its intent hold and takes no read hold.
* `SixState.OwnerMoves`: the owner is about to be set, or has just been cleared.
* `SixState.SeqCounts`, `RelockSound`: the sequence number counts the unlocks of a writer, and a
  relock that succeeds has not missed one.
* `SixHeld`: what the runs of such threads keep.

## Main results

* `six_lock_holders`.
-/

namespace Subvol

variable {τ : Type*}

/-! ### The discipline of the threads -/

/-- The thread is about to release an intent hold. -/
def SixPhase.unlocksIntent : SixPhase → Bool
  | unlocking ty _ => ty = .intent
  | _ => false

/-- A thread that holds the lock for write does not release its last intent hold, and takes no read
hold by `six_lock_increment` or `six_lock_downgrade`. What a thread takes once more it has. -/
def Disciplined (s : SixState τ) (t : τ) : SixAct → Prop
  | .call (.increment .read) => t ∉ s.holds .write ∧ (t ∈ s.holds .read ∨ t ∈ s.holds .intent)
  | .call (.increment .intent) => t ∈ s.holds .intent
  | .call (.increment .write) => t ∈ s.holds .write
  | .call .downgrade => t ∉ s.holds .write
  | .go => (s.phase t).unlocksIntent = true → t ∈ s.holds .write → s.intentLockRecurse ≠ 0
  | _ => True

instance [DecidableEq τ] (s : SixState τ) (t : τ) (act : SixAct) : Decidable (Disciplined s t act) :=
  match act with
  | .call (.increment .read) => inferInstanceAs
      (Decidable (t ∉ s.holds .write ∧ (t ∈ s.holds .read ∨ t ∈ s.holds .intent)))
  | .call (.increment .intent) => inferInstanceAs (Decidable (t ∈ s.holds .intent))
  | .call (.increment .write) => inferInstanceAs (Decidable (t ∈ s.holds .write))
  | .call .downgrade => inferInstanceAs (Decidable (t ∉ s.holds .write))
  | .go => inferInstanceAs (Decidable
      ((s.phase t).unlocksIntent = true → t ∈ s.holds .write → s.intentLockRecurse ≠ 0))
  | .call (.trylock _) => .isTrue trivial
  | .call (.relock _ _) => .isTrue trivial
  | .call (.lock _ _) => .isTrue trivial
  | .call (.unlock _) => .isTrue trivial
  | .call .tryupgrade => .isTrue trivial
  | .call .wakeupAll => .isTrue trivial
  | .cancel _ => .isTrue trivial

/-! ### The invariant -/

namespace SixPhase

/-- The thread is about to set its own name, or to give back what it has. -/
def movesOwner : SixPhase → Bool
  | tryOwner _ => true
  | slowOwner => true
  | unlockSub ty _ => ty = .intent
  | _ => false

/-- The slot of the waiter whose name the thread is about to set. -/
def names : SixPhase → Option ℕ
  | passOwner j _ _ => some j
  | _ => none

/-- The thread is about to count an unlock of the writer. -/
def bumps : SixPhase → Bool
  | unlockSeq _ => true
  | _ => false

/-- The thread does not change the owner. -/
def leavesOwner (p : SixPhase) : Bool := !p.movesOwner && p.names.isNone

/-- The thread changes neither the owner nor the sequence number. -/
def steady (p : SixPhase) : Bool := p.leavesOwner && !p.bumps

theorem leavesOwner_of_steady {p : SixPhase} (h : p.steady = true) : p.leavesOwner = true := by
  rw [steady, Bool.and_eq_true] at h
  exact h.1

theorem bumps_of_steady {p : SixPhase} (h : p.steady = true) : p.bumps = false := by
  rw [steady, Bool.and_eq_true, Bool.not_eq_true'] at h
  exact h.2

end SixPhase

namespace SixState

/-- The owner is about to be set to the thread, or has just been cleared by it. -/
def OwnerMoves (s : SixState τ) (t : τ) : Prop :=
  (s.phase t).movesOwner = true ∨ ∃ v j, (s.phase v).names = some j ∧ s.Stands t .intent j

/-- What keeps a thread that gives intent back from being the writer, and readers from coming when
the writer has the lock. -/
def Guards (s : SixState τ) (t : τ) : SixPhase → Prop
  | .incrementing ty _ =>
    ty = .read → t ∉ s.holds .write ∧ (t ∈ s.holds .read ∨ t ∈ s.holds .intent)
  | .unlockOwner _ => t ∉ s.holds .write
  | .unlockSub ty _ => ty = .intent → t ∉ s.holds .write
  | .waiting ty _ => ty = .intent → s.acquired t = true → t ∉ s.holds .write
  | .cancelLock ty _ _ => ty = .intent → s.acquired t = true → t ∉ s.holds .write
  | .passOwner j _ _ => ∀ u, s.Stands u .intent j → u ∉ s.holds .write
  | .passGrant ty j _ _ =>
    (ty = .write → s.holds .read = []) ∧
      (ty = .intent → ∀ u, s.Stands u .intent j → u ∉ s.holds .write)
  | _ => True

end SixState

/-- The writer is alone and has the lock for intent, the owner is the intent holder unless it is
being changed, and the sequence number counts the unlocks of the writer. -/
structure SixHeld (s : SixState τ) : Prop where
  read : s.holds .write ≠ [] → s.holds .read = []
  intent : ∀ t ∈ s.holds .write, t ∈ s.holds .intent
  named : ∀ t ∈ s.holds .intent, s.owner = some t ∨ s.OwnerMoves t
  seqRest : (∀ t, (s.phase t).bumps = false) → s.seq = s.writeUnlocks % 2 ^ 32
  seqBump : ∀ t, (s.phase t).bumps = true → fetchAdd s.seq 1 = s.writeUnlocks % 2 ^ 32
  guards : ∀ t, s.Guards t (s.phase t)

/-! ### Frames -/

section Frames

variable {s s' : SixState τ} {t u v : τ} {p : SixPhase}

/-- A step that makes no thread the writer but itself or one that waits for it, lets no reader in
while a writer waits, and leaves to every other thread what it has. -/
structure SixGentle (s s' : SixState τ) (t : τ) : Prop where
  write : ∀ x ∈ s'.holds .write, x ∈ s.holds .write ∨ (x = t ∧ (s.phase t).queued = none) ∨
    ∃ i, (s.phase x).queued = some (.write, i)
  read : s.holds .read = [] → s'.holds .read = [] ∨ ∀ u, s.Pends u → (s.phase u).queued = none
  keep : ∀ v, v ≠ t → v ∈ s.holds .read ∨ v ∈ s.holds .intent →
    v ∈ s'.holds .read ∨ v ∈ s'.holds .intent
  acquired : ∀ v i, v ≠ t → (s.phase v).queued = some (.intent, i) → s'.acquired v = true →
    s.acquired v = true ∨ v ∉ s'.holds .write
  slots : (∀ i, s'.fifo.slot i = s.fifo.slot i) ∨ ∀ v, v ≠ t → (s.phase v).inside ≠ true

theorem SixGentle.guards (hgentle : SixGentle s s' t) (hinv : SixInv s none)
    (h : s.Guards v (s.phase v)) (hv : v ≠ t) : s'.Guards v (s.phase v) := by
  obtain ⟨hwrite, hread, hkeep, hacq, hslots⟩ := hgentle
  -- a thread that neither makes the step nor waits for write is not made the writer
  have hself : v ∉ s.holds .write → (∀ i, (s.phase v).queued ≠ some (.write, i)) →
      v ∉ s'.holds .write := by
    intro hnot hq hin
    rcases hwrite v hin with hold | ⟨heq, -⟩ | ⟨i, hi⟩
    · exact hnot hold
    · exact hv heq
    · exact hq i hi
  have hstands : ∀ j, (∀ i, s'.fifo.slot i = s.fifo.slot i) →
      (∀ u, s.Stands u .intent j → u ∉ s.holds .write) →
      ∀ u, s'.Stands u .intent j → u ∉ s'.holds .write := by
    rintro j hsame hall u ⟨slot, hslot, htask, hwants⟩ hin
    have hu : s.Stands u .intent j := ⟨slot, (hsame j) ▸ hslot, htask, hwants⟩
    have hq := (hinv.queued_of_stands hu (Option.some_ne_none u).symm).1
    rcases hwrite u hin with hold | ⟨rfl, hnone⟩ | ⟨i, hi⟩
    · exact hall u hu hold
    · rw [hq] at hnone
      cases hnone
    · rw [hq] at hi
      cases hi
  cases hp : s.phase v with
  | incrementing ty downgrade =>
    rw [hp] at h
    intro hty
    exact ⟨hself (h hty).1 (by simp [hp, SixPhase.queued]), hkeep v hv (h hty).2⟩
  | unlockOwner ret =>
    rw [hp] at h
    exact hself h (by simp [hp, SixPhase.queued])
  | unlockSub ty ret =>
    rw [hp] at h
    exact fun hty => hself (h hty) (by simp [hp, SixPhase.queued])
  | waiting ty i =>
    rw [hp] at h
    rintro rfl ha
    rcases hacq v i hv (by rw [hp, SixPhase.queued]) ha with hold | hnot
    · exact hself (h rfl hold) (by simp [hp, SixPhase.queued])
    · exact hnot
  | cancelLock ty i ret =>
    rw [hp] at h
    rintro rfl ha
    rcases hacq v i hv (by rw [hp, SixPhase.queued]) ha with hold | hnot
    · exact hself (h rfl hold) (by simp [hp, SixPhase.queued])
    · exact hnot
  | passOwner j more w =>
    rw [hp] at h
    rcases hslots with hsame | hnot
    · exact hstands j hsame h
    · exact absurd (by rw [hp, SixPhase.inside]) (hnot v hv)
  | passGrant ty j more w =>
    rw [hp] at h
    rcases hslots with hsame | hnot
    · refine ⟨fun hty => (hread (h.1 hty)).resolve_right fun hnone => ?_,
        fun hty => hstands j hsame (h.2 hty)⟩
      -- the writer that is about to be granted the lock waits for it
      subst hty
      obtain ⟨u, hu, -⟩ := hinv.claim_of hp
      have hq := hinv.queued_of_stands hu (Option.some_ne_none u).symm
      have hwaits := hinv.claims u (Option.some_ne_none u).symm
      rw [SixPhase.claim_eq_waits.mpr hq.1] at hwaits
      have hqueued := hnone u ((hwaits.2 hq.2).2 rfl)
      rw [hq.1] at hqueued
      cases hqueued
    · exact absurd (by rw [hp, SixPhase.inside]) (hnot v hv)
  | _ => trivial

/-- A change of the owner that is under way stays so when another thread makes a step. -/
theorem SixState.OwnerMoves.frame [DecidableEq τ] (h : s.OwnerMoves u)
    (hphase : s'.phase = Function.update s.phase t p) (hleaves : (s.phase t).leavesOwner = true)
    (hslots : (∀ i, s'.fifo.slot i = s.fifo.slot i) ∨
      ∀ v, v ≠ t → (s.phase v).inside ≠ true) : s'.OwnerMoves u := by
  rw [SixPhase.leavesOwner, Bool.and_eq_true, Bool.not_eq_true', Option.isNone_iff_eq_none]
    at hleaves
  rcases h with hmoves | ⟨v, j, hnames, hstands⟩
  · have hut : u ≠ t := by
      rintro rfl
      exact absurd (hleaves.1.symm.trans hmoves) Bool.false_ne_true
    refine .inl ?_
    rw [hphase, Function.update_of_ne hut]
    exact hmoves
  · have hvt : v ≠ t := by
      rintro rfl
      rw [hleaves.2] at hnames
      cases hnames
    refine .inr ⟨v, j, ?_, ?_⟩
    · rw [hphase, Function.update_of_ne hvt]
      exact hnames
    · rcases hslots with hsame | hnot
      · obtain ⟨slot, hslot, htask, hwants⟩ := hstands
        exact ⟨slot, (hsame j).trans hslot, htask, hwants⟩
      · refine absurd ?_ (hnot v hvt)
        cases hp : s.phase v with
        | passOwner j' more w => rfl
        | _ =>
          rw [hp] at hnames
          cases hnames

namespace SixHeld

theorem write_nil_of_intent_nil (h : SixHeld s) (hnil : s.holds .intent = []) :
    s.holds .write = [] := by
  refine List.eq_nil_iff_forall_not_mem.mpr fun x hx => ?_
  have hin := h.intent x hx
  rw [hnil] at hin
  cases hin

variable [DecidableEq τ]

/-- The end of a step: what the other threads rely on is kept, and the thread itself can rely on what
it relies on. -/
theorem finish (h : SixHeld s) (hinv : SixInv s none) (hgentle : SixGentle s s' t)
    (hphase : s'.phase = Function.update s.phase t p)
    (hread : s'.holds .write ≠ [] → s'.holds .read = [])
    (hintent : ∀ x ∈ s'.holds .write, x ∈ s'.holds .intent)
    (hnamed : ∀ x ∈ s'.holds .intent, s'.owner = some x ∨ s'.OwnerMoves x)
    (hbump : (s.phase t).bumps = false) (hbump' : p.bumps = false)
    (hseq : s'.seq = s.seq ∧ s'.writeUnlocks = s.writeUnlocks) (hp : s'.Guards t p) :
    SixHeld s' := by
  have hother : ∀ v, (s'.phase v).bumps = true → (s.phase v).bumps = true ∧ v ≠ t := by
    intro v hv
    rw [hphase] at hv
    by_cases hvt : v = t
    · subst hvt
      rw [Function.update_self] at hv
      exact absurd (hbump'.symm.trans hv) Bool.false_ne_true
    · rw [Function.update_of_ne hvt] at hv
      exact ⟨hv, hvt⟩
  refine ⟨hread, hintent, hnamed, fun hrest => ?_, fun v hv => ?_, fun v => ?_⟩
  · rw [hseq.1, hseq.2]
    refine h.seqRest fun v => ?_
    by_cases hvt : v = t
    · subst hvt
      exact hbump
    · have hv := hrest v
      rwa [hphase, Function.update_of_ne hvt] at hv
  · rw [hseq.1, hseq.2]
    exact h.seqBump v (hother v hv).1
  · rw [hphase]
    by_cases hvt : v = t
    · subst hvt
      rw [Function.update_self]
      exact hp
    · rw [Function.update_of_ne hvt]
      exact hgentle.guards hinv (h.guards v) hvt

/-- A step that leaves what the threads have, the owner and the sequence number alone. -/
theorem calm (h : SixHeld s) (hinv : SixInv s none)
    (hphase : s'.phase = Function.update s.phase t p) (hholds : s'.holds = s.holds)
    (howner : s'.owner = s.owner) (hseq : s'.seq = s.seq ∧ s'.writeUnlocks = s.writeUnlocks)
    (hacq : ∀ v, v ≠ t → s'.acquired v = s.acquired v)
    (hslots : (∀ i, s'.fifo.slot i = s.fifo.slot i) ∨ ∀ v, v ≠ t → (s.phase v).inside ≠ true)
    (hsteady : (s.phase t).steady = true) (hbump : p.bumps = false) (hp : s'.Guards t p) :
    SixHeld s' := by
  refine h.finish hinv ⟨fun x hx => ?_, fun hr => ?_, fun v _ hv => ?_, fun v _ hv _ ha => ?_,
      hslots⟩ hphase ?_ ?_ (fun x hx => ?_) (SixPhase.bumps_of_steady hsteady)
    hbump hseq hp
  · rw [hholds] at hx
    exact .inl hx
  · rw [hholds]
    exact .inl hr
  · rw [hholds]
    exact hv
  · exact .inl ((hacq v hv).symm.trans ha)
  · rw [hholds]
    exact h.read
  · rw [hholds]
    exact h.intent
  · rw [hholds] at hx
    rw [howner]
    exact (h.named x hx).imp_right fun hm => hm.frame hphase (SixPhase.leavesOwner_of_steady hsteady) hslots

/-- A step that only goes on. -/
theorem goto (h : SixHeld s) (hinv : SixInv s none) (hsteady : (s.phase t).steady = true)
    (hbump : p.bumps = false) (hp : s.Guards t p) : SixHeld (s.goto t p) :=
  h.calm hinv rfl rfl rfl ⟨rfl, rfl⟩ (fun _ _ => rfl) (.inl fun _ => rfl) hsteady hbump hp

/-! ### Changes of what the threads have -/

theorem put {holds : SixLockType → List τ} {pending : List τ} {n : ℕ} (h : SixHeld s)
    (hinv : SixInv s none)
    (hwrite : ∀ x ∈ holds .write, x ∈ s.holds .write ∨ x = t) (hq : (s.phase t).queued = none)
    (hpends : s.holds .read = [] → holds .read = [] ∨ ∀ u, s.Pends u → (s.phase u).queued = none)
    (hkeep : ∀ v, v ≠ t → v ∈ s.holds .read ∨ v ∈ s.holds .intent →
      v ∈ holds .read ∨ v ∈ holds .intent)
    (hread : holds .write ≠ [] → holds .read = [])
    (hintent : ∀ x ∈ holds .write, x ∈ holds .intent)
    (hnamed : ∀ x ∈ holds .intent,
      s.owner = some x ∨ ((s.put n holds pending).goto t p).OwnerMoves x)
    (hbump : (s.phase t).bumps = false) (hbump' : p.bumps = false)
    (hp : ((s.put n holds pending).goto t p).Guards t p) :
    SixHeld ((s.put n holds pending).goto t p) :=
  h.finish hinv
    ⟨fun x hx => (hwrite x hx).imp_right fun hxt => .inl ⟨hxt, hq⟩, hpends, hkeep,
      fun _ _ _ _ => .inl, .inl fun _ => rfl⟩
    rfl hread hintent hnamed hbump hbump' ⟨rfl, rfl⟩ hp

/-- A reader comes when there is no writer. -/
theorem take_read (h : SixHeld s) (hinv : SixInv s none) (hnil : s.holds .write = [])
    (hpends : s.holds .read = [] → ∀ u, s.Pends u → (s.phase u).queued = none)
    (hq : (s.phase t).queued = none)
    (hsteady : (s.phase t).steady = true) (hbump : p.bumps = false)
    (hp : ((s.take .read u).goto t p).Guards t p) : SixHeld ((s.take .read u).goto t p) := by
  have hwrite : Function.update s.holds .read (u :: s.holds .read) .write = [] := by
    simpa using hnil
  refine h.put hinv (fun x hx => ?_) hq (fun hr => .inr (hpends hr)) (fun v _ hv => ?_)
    (fun hne => absurd hwrite hne) (fun x hx => ?_) (fun x hx => ?_) (SixPhase.bumps_of_steady hsteady) hbump
    hp
  · rw [hwrite] at hx
    cases hx
  · exact hv.imp (SixInv.mem_update_cons _ u) (SixInv.mem_update_cons _ u)
  · rw [hwrite] at hx
    cases hx
  · have hx' : x ∈ s.holds .intent := by simpa using hx
    exact (h.named x hx').imp_right fun hm => hm.frame rfl (SixPhase.leavesOwner_of_steady hsteady) (.inl fun _ => rfl)

/-- An intent holder comes when there is none. -/
theorem take_intent (h : SixHeld s) (hinv : SixInv s none) (hnil : s.holds .intent = [])
    (hq : (s.phase t).queued = none) (hbump : (s.phase t).bumps = false) (hbump' : p.bumps = false)
    (hmoves : ((s.take .intent u).goto t p).OwnerMoves u)
    (hp : ((s.take .intent u).goto t p).Guards t p) : SixHeld ((s.take .intent u).goto t p) := by
  have hwrite : Function.update s.holds .intent (u :: s.holds .intent) .write = [] := by
    simpa using h.write_nil_of_intent_nil hnil
  refine h.put hinv (fun x hx => ?_) hq (fun hr => .inl ?_) (fun v _ hv => ?_)
    (fun hne => absurd hwrite hne) (fun x hx => ?_) (fun x hx => ?_) hbump hbump' hp
  · rw [hwrite] at hx
    cases hx
  · simpa using hr
  · exact hv.imp (SixInv.mem_update_cons _ u) (SixInv.mem_update_cons _ u)
  · rw [hwrite] at hx
    cases hx
  · have hxu : x = u := by simpa [hnil] using hx
    subst hxu
    exact .inr hmoves

/-- The owner becomes the writer when there are no readers. -/
theorem becomeWriter {pending : List τ} {n : ℕ} (h : SixHeld s) (hinv : SixInv s none)
    (howner : s.owner = some t) (hnil : s.holds .read = []) (hq : (s.phase t).queued = none)
    (hsteady : (s.phase t).steady = true) (hbump : p.bumps = false)
    (hp : ((s.put n (Function.update s.holds .write (t :: s.holds .write)) pending).goto
      t p).Guards t p) :
    SixHeld ((s.put n (Function.update s.holds .write (t :: s.holds .write)) pending).goto t p) := by
  refine h.put hinv (fun x hx => ?_) hq (fun hr => .inl ?_) (fun v _ hv => ?_) (fun _ => ?_)
    (fun x hx => ?_) (fun x hx => ?_) (SixPhase.bumps_of_steady hsteady) hbump hp
  · rw [Function.update_self] at hx
    exact (List.mem_cons.mp hx).symm
  · simpa using hr
  · exact hv.imp (SixInv.mem_update_cons _ t) (SixInv.mem_update_cons _ t)
  · simpa using hnil
  · rw [Function.update_self] at hx
    refine SixInv.mem_update_cons _ t ?_
    rcases List.mem_cons.mp hx with rfl | hold
    · exact hinv.owner _ howner
    · exact h.intent x hold
  · have hx' : x ∈ s.holds .intent := by simpa using hx
    exact (h.named x hx').imp_right fun hm => hm.frame rfl (SixPhase.leavesOwner_of_steady hsteady) (.inl fun _ => rfl)

/-- A thread gives back what it has for read or for write. -/
theorem release {ty : SixLockType} (h : SixHeld s) (hinv : SixInv s none) (hty : ty ≠ .intent)
    (hq : (s.phase t).queued = none) (hsteady : (s.phase t).steady = true)
    (hbump : p.bumps = false) (hp : ((s.release ty t).goto t p).Guards t p) :
    SixHeld ((s.release ty t).goto t p) := by
  have hsub : ∀ ty', ∀ x ∈ Function.update s.holds ty ((s.holds ty).erase t) ty',
      x ∈ s.holds ty' := by
    intro ty' x hx
    by_cases heq : ty' = ty
    · subst heq
      rw [Function.update_self] at hx
      exact List.mem_of_mem_erase hx
    · rwa [Function.update_of_ne heq] at hx
  have hnil : ∀ ty', s.holds ty' = [] →
      Function.update s.holds ty ((s.holds ty).erase t) ty' = [] := by
    intro ty' hr
    refine List.eq_nil_iff_forall_not_mem.mpr fun x hx => ?_
    have hin := hsub ty' x hx
    rw [hr] at hin
    cases hin
  have hsame : Function.update s.holds ty ((s.holds ty).erase t) .intent = s.holds .intent :=
    Function.update_of_ne (Ne.symm hty) _ _
  refine h.put hinv (fun x hx => .inl (hsub _ x hx)) hq (fun hr => .inl (hnil _ hr))
    (fun v hv hin => ?_) (fun hne => ?_) (fun x hx => ?_) (fun x hx => ?_) (SixPhase.bumps_of_steady hsteady)
    hbump hp
  · exact hin.imp (SixInv.mem_update_erase _ hv) (SixInv.mem_update_erase _ hv)
  · exact hnil _ (h.read fun hw => hne (hnil _ hw))
  · rw [hsame]
    exact h.intent x (hsub _ x hx)
  · rw [hsame] at hx
    exact (h.named x hx).imp_right fun hm => hm.frame rfl (SixPhase.leavesOwner_of_steady hsteady) (.inl fun _ => rfl)

/-- The intent holder, if it is not the writer, gives back what it has. -/
theorem release_intent (h : SixHeld s) (hinv : SixInv s none) (hin : t ∈ s.holds .intent)
    (hnot : t ∉ s.holds .write) (hq : (s.phase t).queued = none)
    (hbump : (s.phase t).bumps = false) (hbump' : p.bumps = false)
    (hp : ((s.release .intent t).goto t p).Guards t p) :
    SixHeld ((s.release .intent t).goto t p) := by
  have hnil : s.holds .write = [] := by
    refine List.eq_nil_iff_forall_not_mem.mpr fun x hx => ?_
    exact hnot (hinv.intent_unique hin (h.intent x hx) ▸ hx)
  have hwrite : Function.update s.holds .intent ((s.holds .intent).erase t) .write = [] := by
    simpa using hnil
  have hintent : Function.update s.holds .intent ((s.holds .intent).erase t) .intent = [] := by
    rw [Function.update_self]
    have hlen := List.length_erase_add_one hin
    have hle := SixWord.intents hinv.word
    exact List.length_eq_zero_iff.mp (by omega)
  refine h.put hinv (fun x hx => ?_) hq (fun hr => .inl ?_) (fun v hv hin => ?_)
    (fun hne => absurd hwrite hne) (fun x hx => ?_) (fun x hx => ?_) hbump hbump' hp
  · rw [hwrite] at hx
    cases hx
  · simpa using hr
  · exact hin.imp (SixInv.mem_update_erase _ hv) (SixInv.mem_update_erase _ hv)
  · rw [hwrite] at hx
    cases hx
  · rw [hintent] at hx
    cases hx

/-- A reader becomes the intent holder when there is none. -/
theorem upgrade (h : SixHeld s) (hinv : SixInv s none) (hnil : s.holds .intent = [])
    (hq : (s.phase t).queued = none) (hbump : (s.phase t).bumps = false) (hbump' : p.bumps = false)
    (hmoves : p.movesOwner = true) (hp : ((s.upgrade t).goto t p).Guards t p) :
    SixHeld ((s.upgrade t).goto t p) := by
  have hnone := h.write_nil_of_intent_nil hnil
  refine h.put hinv (fun x hx => ?_) hq (fun hr => .inl ?_) (fun v hv hin => ?_) (fun hne => ?_)
    (fun x hx => ?_) (fun x hx => .inr (.inl ?_)) hbump hbump' hp
  · exact .inl (by simpa using hx)
  · simp [hr]
  · refine hin.imp (fun hr => ?_) fun hi => ?_
    · simpa using (List.mem_erase_of_ne hv).mpr hr
    · simpa using Or.inr hi
  · exact absurd (by simpa using hnone) hne
  · have hx' : x ∈ s.holds .write := by simpa using hx
    rw [hnone] at hx'
    cases hx'
  · have hxt : x = t := by simpa [hnil] using hx
    subst hxt
    rw [SixState.goto_phase, Function.update_self]
    exact hmoves

/-! ### Changes of the owner and of the sequence number -/

/-- The intent holder becomes the owner. -/
theorem setOwner_some (h : SixHeld s) (hinv : SixInv s none) (hu : u ∈ s.holds .intent)
    (hbump : (s.phase t).bumps = false) (hbump' : p.bumps = false)
    (hp : ((s.setOwner (some u)).goto t p).Guards t p) :
    SixHeld ((s.setOwner (some u)).goto t p) :=
  h.finish hinv ⟨fun _ => .inl, .inl, fun _ _ => id, fun _ _ _ _ => .inl, .inl fun _ => rfl⟩ rfl h.read
    h.intent (fun _ hx => .inl (congrArg some (hinv.intent_unique hu hx))) hbump hbump' ⟨rfl, rfl⟩ hp

/-- The owner clears its name before it gives back what it has. -/
theorem setOwner_none (h : SixHeld s) (hinv : SixInv s none) (ht : t ∈ s.holds .intent)
    (hbump : (s.phase t).bumps = false) (hbump' : p.bumps = false) (hmoves : p.movesOwner = true)
    (hp : ((s.setOwner none).goto t p).Guards t p) : SixHeld ((s.setOwner none).goto t p) := by
  refine h.finish hinv ⟨fun _ => .inl, .inl, fun _ _ => id, fun _ _ _ _ => .inl, .inl fun _ => rfl⟩ rfl
    h.read h.intent (fun x hx => .inr (.inl ?_)) hbump hbump' ⟨rfl, rfl⟩ hp
  rw [← hinv.intent_unique ht hx, SixState.goto_phase, Function.update_self]
  exact hmoves

/-- A pass tells a waiter that it has the lock. -/
theorem give {ty : SixLockType} {j : ℕ} (h : SixHeld s) (hinv : SixInv s none)
    (hlock : s.waitLock = some t) (hsteady : (s.phase t).steady = true)
    (hu : s.Stands u ty j) (hread : ty = .write → s.holds .read = [])
    (hnot : ty = .intent → u ∉ s.holds .write) (hbump : p.bumps = false)
    (hp : ((s.passGive ty j u).goto t p).Guards t p) :
    SixHeld ((s.passGive ty j u).goto t p) := by
  have hqueued := hinv.queued_of_stands hu (Option.some_ne_none u).symm
  have hwaits := hinv.claims u (Option.some_ne_none u).symm
  rw [SixPhase.claim_eq_waits.mpr hqueued.1] at hwaits
  have hslots : ∀ v, v ≠ t → (s.phase v).inside ≠ true := fun v hv =>
    (hinv.except t).not_inside (.inr hlock) fun h => hv (Option.some.inj h).symm
  have hacq : ∀ v i, (s.phase v).queued = some (.intent, i) →
      Function.update s.acquired u true v = true → s.acquired v = true ∨ v ∉ s.holds .write := by
    intro v i hq ha
    by_cases hvu : v = u
    · subst hvu
      cases hqueued.1.symm.trans hq
      exact .inr (hnot rfl)
    · rw [Function.update_of_ne hvu] at ha
      exact .inl ha
  by_cases hty : ty = .write
  · subst hty
    have howner := ((hwaits.2 hqueued.2).2 rfl).1
    simp only [SixState.passGive, if_true] at hp ⊢
    have hwrite : Function.update s.holds .write (u :: s.holds .write) .write =
        u :: s.holds .write := Function.update_self ..
    refine h.finish hinv ⟨fun x hx => ?_, fun _ => .inl ?_, fun v _ hv => ?_,
      fun v i _ hq ha => ?_, .inr hslots⟩ rfl (fun _ => ?_) (fun x hx => ?_) (fun x hx => ?_)
      (SixPhase.bumps_of_steady hsteady) hbump ⟨rfl, rfl⟩ hp
    · have hx' : x ∈ u :: s.holds .write := hwrite ▸ hx
      rcases List.mem_cons.mp hx' with rfl | hold
      · exact .inr (.inr ⟨j, hqueued.1⟩)
      · exact .inl hold
    · exact hread rfl
    · exact hv
    · rcases hacq v i hq ha with hold | hout
      · exact .inl hold
      · refine .inr fun hin => ?_
        have hin' : v ∈ u :: s.holds .write := hwrite ▸ hin
        rcases List.mem_cons.mp hin' with rfl | hold
        · rw [hqueued.1] at hq
          cases hq
        · exact hout hold
    · exact hread rfl
    · have hx' : x ∈ u :: s.holds .write := hwrite ▸ hx
      rcases List.mem_cons.mp hx' with rfl | hold
      · exact hinv.owner _ howner
      · exact h.intent x hold
    · exact (h.named x hx).imp_right fun hm => hm.frame rfl (SixPhase.leavesOwner_of_steady hsteady) (.inr hslots)
  · simp only [SixState.passGive, if_neg hty] at hp ⊢
    exact h.finish hinv ⟨fun _ => .inl, .inl, fun _ _ => id, fun v i _ => hacq v i, .inr hslots⟩
      rfl h.read h.intent
      (fun x hx => (h.named x hx).imp_right fun hm => hm.frame rfl (SixPhase.leavesOwner_of_steady hsteady) (.inr hslots))
      (SixPhase.bumps_of_steady hsteady) hbump ⟨rfl, rfl⟩ hp

/-- An unlock of the outermost write hold begins. -/
theorem beginBump {ret : SixRet} (h : SixHeld s) (hinv : SixInv s none)
    (hwrite : t ∈ s.holds .write) (hphase : s.phase t = .unlocking .write ret) :
    SixHeld ((s.setWriteUnlocks (s.writeUnlocks + 1)).goto t (.unlockSeq ret)) := by
  have hrest : ∀ v, (s.phase v).bumps = false := by
    intro v
    cases hp : s.phase v with
    | unlockSeq ret' =>
      -- the thread that counts is the writer
      have hv : v ∈ s.holds .write := hinv.claim_of hp
      rw [hinv.write_unique hv hwrite, hphase] at hp
      cases hp
    | _ => rfl
  have hseq := h.seqRest hrest
  have hgentle : SixGentle s ((s.setWriteUnlocks (s.writeUnlocks + 1)).goto t (.unlockSeq ret)) t :=
    ⟨fun _ => .inl, .inl, fun _ _ => id, fun _ _ _ _ => .inl, .inl fun _ => rfl⟩
  have hsteady : (s.phase t).steady = true := by
    rw [hphase]
    rfl
  refine ⟨h.read, h.intent, fun x hx => ?_, fun hnone => ?_, fun v hv => ?_, fun v => ?_⟩
  · exact (h.named x hx).imp_right fun hm => hm.frame rfl (SixPhase.leavesOwner_of_steady hsteady) (.inl fun _ => rfl)
  · have ht := hnone t
    rw [SixState.goto_phase, Function.update_self] at ht
    cases ht
  · change fetchAdd s.seq 1 = (s.writeUnlocks + 1) % 2 ^ 32
    rw [hseq, fetchAdd]
    omega
  · rw [SixState.goto_phase]
    by_cases hvt : v = t
    · subst hvt
      rw [Function.update_self]
      trivial
    · rw [Function.update_of_ne hvt]
      exact hgentle.guards hinv (h.guards v) hvt

/-- The unlock is counted. -/
theorem endBump {ret : SixRet} (h : SixHeld s) (hinv : SixInv s none)
    (hphase : s.phase t = .unlockSeq ret) :
    SixHeld ((s.setSeq (fetchAdd s.seq 1)).goto t (.unlockSub .write ret)) := by
  have hwrite : t ∈ s.holds .write := hinv.claim_of hphase
  have hbump := h.seqBump t (by rw [hphase]; rfl)
  have hgentle : SixGentle s ((s.setSeq (fetchAdd s.seq 1)).goto t (.unlockSub .write ret)) t :=
    ⟨fun _ => .inl, .inl, fun _ _ => id, fun _ _ _ _ => .inl, .inl fun _ => rfl⟩
  have hother : ∀ v, v ≠ t → (s.phase v).bumps = false := by
    intro v hv
    cases hp : s.phase v with
    | unlockSeq ret' =>
      have hin : v ∈ s.holds .write := hinv.claim_of hp
      exact absurd (hinv.write_unique hin hwrite) hv
    | _ => rfl
  refine ⟨h.read, h.intent, fun x hx => ?_, fun _ => hbump, fun v hv => ?_, fun v => ?_⟩
  · have hleaves : (s.phase t).leavesOwner = true := by
      rw [hphase]
      rfl
    exact (h.named x hx).imp_right fun hm => hm.frame rfl hleaves (.inl fun _ => rfl)
  · rw [SixState.goto_phase] at hv
    by_cases hvt : v = t
    · rw [hvt, Function.update_self] at hv
      cases hv
    · rw [Function.update_of_ne hvt] at hv
      exact absurd ((hother v hvt).symm.trans hv) Bool.false_ne_true
  · rw [SixState.goto_phase]
    by_cases hvt : v = t
    · subst hvt
      rw [Function.update_self]
      exact fun hty => nomatch hty
    · rw [Function.update_of_ne hvt]
      exact hgentle.guards hinv (h.guards v) hvt

/-- A step that changes only the word. -/
theorem word {pending : List τ} {n : ℕ} (h : SixHeld s) (hinv : SixInv s none)
    (hsteady : (s.phase t).steady = true) (hbump : p.bumps = false) (hp : s.Guards t p) :
    SixHeld ((s.put n s.holds pending).goto t p) :=
  h.calm hinv rfl rfl rfl ⟨rfl, rfl⟩ (fun _ _ => rfl) (.inl fun _ => rfl) hsteady hbump hp

end SixHeld

end Frames

/-! ### Steps -/

namespace SixHeld

variable {s s' : SixState τ} {t u : τ} {p p' : SixPhase} {ty : SixLockType}
  {ret : SixRet} {k : SixCaller} {w : SixWake} {i j : ℕ} {more : Bool}

theorem guards_of (h : SixHeld s) (hphase : s.phase t = p) : s.Guards t p :=
  hphase ▸ h.guards t

theorem write_free (hinv : SixInv s none) (hfree : s.state &&& sixLockHeldWrite = 0) :
    s.holds .write = [] ∧ ∀ u, ¬s.Pends u := by
  have hzero := (SixWord.and_write hinv.word).mp hfree
  refine ⟨List.length_eq_zero_iff.mp (by omega), fun u hu => ?_⟩
  have hlen := congrArg List.length hu.2
  rw [List.length_singleton] at hlen
  omega

theorem read_free (hinv : SixInv s none) (hfree : s.state &&& sixLockHeldRead = 0) :
    s.holds .read = [] :=
  List.length_eq_zero_iff.mp ((SixWord.and_read hinv.word).symm.trans hfree)

theorem intent_free (hinv : SixInv s none) (hfree : s.state &&& sixLockHeldIntent = 0) :
    s.holds .intent = [] :=
  List.length_eq_zero_iff.mp ((SixWord.and_intent hinv.word).mp hfree)

theorem granted_plain (s : SixState τ) (t : τ) (ty : SixLockType) (k : SixCaller) :
    s.Guards t (k.granted ty) ∧ (k.granted ty).bumps = false := by
  cases k
  · exact ⟨trivial, rfl⟩
  · exact ⟨trivial, rfl⟩
  · exact ⟨trivial, rfl⟩
  · exact ⟨trivial, rfl⟩

theorem refused_plain (s : SixState τ) (t : τ) (ty : SixLockType) (k : SixCaller) :
    s.Guards t (k.refused ty) ∧ (k.refused ty).bumps = false := by
  cases k with
  | lock transStartTime =>
    cases ty
    · exact ⟨trivial, rfl⟩
    · exact ⟨trivial, rfl⟩
    · exact ⟨trivial, rfl⟩
  | _ => exact ⟨trivial, rfl⟩

theorem tryEntry_plain (s : SixState τ) (t : τ) (ty : SixLockType) (k : SixCaller) :
    s.Guards t (.tryEntry ty k) ∧ (SixPhase.tryEntry ty k).bumps = false := by
  cases ty
  · exact ⟨trivial, rfl⟩
  · exact ⟨trivial, rfl⟩
  · exact ⟨trivial, rfl⟩

theorem entry_plain {op : SixOp} (hrel : ReleasesHeld s t (.call op))
    (hdisc : Disciplined s t (.call op)) : s.Guards t op.entry ∧ op.entry.bumps = false := by
  cases op with
  | trylock ty => exact tryEntry_plain s t ty _
  | lock ty transStartTime => exact tryEntry_plain s t ty _
  | downgrade => exact ⟨fun _ => ⟨hdisc, .inr hrel⟩, rfl⟩
  | increment ty =>
    cases ty with
    | read => exact ⟨fun _ => hdisc, rfl⟩
    | intent => exact ⟨(nomatch ·), rfl⟩
    | write => exact ⟨(nomatch ·), rfl⟩
  | relock ty seq => exact ⟨trivial, rfl⟩
  | unlock ty => exact ⟨trivial, rfl⟩
  | tryupgrade => exact ⟨trivial, rfl⟩
  | wakeupAll => exact ⟨trivial, rfl⟩

/-- Who takes the lock for read once more is not kept out by a writer. -/
theorem no_writer (h : SixHeld s) (hinv : SixInv s none) (hq : (s.phase t).queued = none)
    (hnot : t ∉ s.holds .write) (hin : t ∈ s.holds .read ∨ t ∈ s.holds .intent) :
    s.holds .write = [] ∧ (s.holds .read = [] → ∀ u, s.Pends u → (s.phase u).queued = none) := by
  refine ⟨List.eq_nil_iff_forall_not_mem.mpr fun x hx => ?_, fun hnil u hu => ?_⟩
  · rcases hin with hr | hi
    · rw [h.read (List.ne_nil_of_mem hx)] at hr
      cases hr
    · exact hnot (hinv.intent_unique hi (h.intent x hx) ▸ hx)
  · rcases hin with hr | hi
    · rw [hnil] at hr
      cases hr
    · rw [hinv.intent_unique (hinv.owner u hu.1) hi]
      exact hq

theorem init : SixHeld ({} : SixState τ) := by
  refine ⟨fun hne => absurd rfl hne, fun t ht => ?_, fun t ht => ?_, fun _ => rfl, fun t ht => ?_,
    fun t => trivial⟩
  · cases ht
  · cases ht
  · cases ht

/-- Nobody counts an unlock while a thread checks the sequence number of a lock that it has taken. -/
theorem rest_of_relockSecond {q : ℕ} (h : SixHeld s) (hinv : SixInv s none)
    (hphase : s.phase t = .relockSecond ty q) :
    (∀ x ∈ s.holds .write, x = t) ∧ ∀ v, (s.phase v).bumps = false := by
  have hin : t ∈ s.holds ty := hinv.claim_of hphase
  have hall : ∀ x ∈ s.holds .write, x = t := by
    intro x hx
    cases ty with
    | read =>
      rw [h.read (List.ne_nil_of_mem hx)] at hin
      cases hin
    | intent => exact hinv.intent_unique (h.intent x hx) hin
    | write => exact hinv.write_unique hx hin
  refine ⟨hall, fun v => ?_⟩
  cases hp : s.phase v with
  | unlockSeq ret =>
    have hv : v ∈ s.holds .write := hinv.claim_of hp
    rw [hall v hv, hphase] at hp
    cases hp
  | _ => rfl

variable [DecidableEq τ]

theorem step_tryCas (h : SixHeld s) (hinv : SixInv s none) (hphase : s.phase t = .tryCas ty k)
    (hstep : s.advance t (.tryCas ty k) = some s') : SixHeld s' := by
  have hclaim := hinv.claim_of hphase
  have hsteady : (s.phase t).steady = true := by rw [hphase]; rfl
  have hq : (s.phase t).queued = none := by rw [hphase]; rfl
  simp only [SixState.advance] at hstep
  split_ifs at hstep with hfree
  · cases hstep
    cases ty with
    | read =>
      obtain ⟨hnil, hpends⟩ := write_free hinv hfree
      have hp := granted_plain ((s.take .read t).goto t (k.granted .read)) t .read k
      exact h.take_read (p := k.granted .read) hinv hnil (fun _ u hu => absurd hu (hpends u)) hq hsteady hp.2 hp.1
    | intent =>
      refine h.take_intent (p := .tryOwner k) hinv (intent_free hinv hfree) hq
        (SixPhase.bumps_of_steady hsteady) rfl (.inl ?_) trivial
      rw [SixState.goto_phase, Function.update_self]
      rfl
    | write =>
      obtain ⟨howner, -, -⟩ : s.Claims t .mayWrite := hclaim
      have hp := granted_plain ((s.take .write t).goto t (k.granted .write)) t .write k
      exact h.becomeWriter (p := k.granted .write) hinv howner (read_free hinv hfree) hq hsteady
        hp.2 hp.1
  · cases hstep
    have hp := refused_plain s t ty k
    exact h.goto hinv hsteady hp.2 hp.1

theorem step_unlocking (h : SixHeld s) (hinv : SixInv s none)
    (hphase : s.phase t = .unlocking ty ret) (hstep : s.advance t (.unlocking ty ret) = some s')
    (hdisc : Disciplined s t .go) : SixHeld s' := by
  have hclaim := hinv.claim_of hphase
  have hsteady : (s.phase t).steady = true := by rw [hphase]; rfl
  simp only [SixState.advance, SixState.unlockIp] at hstep
  cases ty with
  | read =>
    cases hstep
    exact h.goto hinv hsteady rfl (by rintro ⟨⟩)
  | intent =>
    simp only at hstep
    split_ifs at hstep with howner hrec
    · cases hstep
      exact h.calm (p := .returned ret) hinv rfl rfl rfl ⟨rfl, rfl⟩ (fun _ _ => rfl)
        (.inl fun _ => rfl) hsteady rfl trivial
    · cases hstep
      exact h.goto hinv hsteady rfl fun hin => hrec (hdisc (by rw [hphase]; rfl) hin)
  | write =>
    simp only at hstep
    split_ifs at hstep
    · cases hstep
      exact h.calm (p := .returned ret) hinv rfl rfl rfl ⟨rfl, rfl⟩ (fun _ _ => rfl)
        (.inl fun _ => rfl) hsteady rfl trivial
    · cases hstep
      exact h.beginBump hinv hclaim hphase

theorem step_unlockSub (h : SixHeld s) (hinv : SixInv s none)
    (hphase : s.phase t = .unlockSub ty ret)
    (hstep : s.advance t (.unlockSub ty ret) = some s') : SixHeld s' := by
  have hin := hinv.mem_of_unlockSub hphase
  have hq : (s.phase t).queued = none := by rw [hphase]; rfl
  simp only [SixState.advance] at hstep
  split_ifs at hstep
  cases hstep
  by_cases hty : ty = .intent
  · subst hty
    have hnot := h.guards_of hphase rfl
    exact h.release_intent hinv hin hnot hq (by rw [hphase]; rfl) rfl trivial
  · have hsteady : (s.phase t).steady = true := by
      rw [hphase]
      cases ty with
      | intent => exact absurd rfl hty
      | read => rfl
      | write => rfl
    exact h.release hinv hty hq hsteady rfl trivial

theorem step_passTry (h : SixHeld s) (hinv : SixInv s none) (hphase : s.phase t = .passTry ty i w)
    (hstep : s.advance t (.passTry ty i w) = some s') : SixHeld s' := by
  have hsteady : (s.phase t).steady = true := by rw [hphase]; rfl
  have hq : (s.phase t).queued = none := by rw [hphase]; rfl
  simp only [SixState.advance] at hstep
  cases hcand : s.fifo.candidate ty i with
  | none =>
    rw [hcand] at hstep
    cases hstep
    exact h.goto hinv hsteady rfl trivial
  | some c =>
    obtain ⟨j, more⟩ := c
    obtain ⟨slot, hslot, hwants⟩ :=
      (s.fifo.wants_eq_true ty j).mp (SixLockWaitFifo.candidate_wants hcand)
    simp only [hcand, SixState.passAttempt, hslot] at hstep
    cases ty with
    | write =>
      simp only at hstep
      split_ifs at hstep with _ hfree
      · cases hstep
        exact h.goto hinv hsteady rfl ⟨fun _ => read_free hinv hfree, by rintro ⟨⟩⟩
      · cases hstep
        exact h.goto hinv hsteady rfl trivial
    | intent =>
      simp only at hstep
      split_ifs at hstep with hfree
      · cases hstep
        have hnil := intent_free hinv hfree
        refine h.take_intent (p := .passOwner j more w) hinv hnil hq
          (SixPhase.bumps_of_steady hsteady) rfl (.inr ⟨t, j, ?_, ?_⟩) fun u _ hin => ?_
        · rw [SixState.goto_phase, Function.update_self]
          rfl
        · rw [SixState.Stands, SixState.goto_fifo, SixState.take, SixState.put_fifo]
          exact ⟨slot, hslot, rfl, hwants⟩
        · rw [SixState.goto_holds, SixState.take, SixState.put_holds] at hin
          simp [h.write_nil_of_intent_nil hnil] at hin
      · cases hstep
        exact h.goto hinv hsteady rfl trivial
    | read =>
      simp only at hstep
      split_ifs at hstep with hfree
      · cases hstep
        obtain ⟨hnil, hpends⟩ := write_free hinv hfree
        exact h.take_read (p := .passGrant .read j more w) hinv hnil (fun _ u hu => absurd hu (hpends u)) hq hsteady rfl
          ⟨by rintro ⟨⟩, by rintro ⟨⟩⟩
      · cases hstep
        exact h.goto hinv hsteady rfl trivial

theorem step_passOwner (h : SixHeld s) (hinv : SixInv s none)
    (hphase : s.phase t = .passOwner j more w)
    (hstep : s.advance t (.passOwner j more w) = some s') : SixHeld s' := by
  have hguards : s.Guards t (.passOwner j more w) := h.guards_of hphase
  obtain ⟨u, ⟨slot, hslot, rfl, -⟩, hin, hnone⟩ := hinv.claim_of hphase
  simp only [SixState.advance, hslot, hnone, if_true] at hstep
  cases hstep
  exact h.setOwner_some (p := .passGrant .intent j more w) hinv hin (by rw [hphase]; rfl) rfl
    ⟨by rintro ⟨⟩, fun _ => hguards⟩

theorem step_passGrant (h : SixHeld s) (hinv : SixInv s none)
    (hphase : s.phase t = .passGrant ty j more w)
    (hstep : s.advance t (.passGrant ty j more w) = some s') : SixHeld s' := by
  obtain ⟨hread, hnot⟩ : s.Guards t (.passGrant ty j more w) := h.guards_of hphase
  obtain ⟨u, hu, -⟩ := hinv.claim_of hphase
  have hstands := hu
  obtain ⟨slot, hslot, rfl, hwants⟩ := hu
  simp only [SixState.advance, hslot] at hstep
  cases hstep
  have hplain : ∀ s : SixState τ, s.Guards t (SixState.passNext ty j more w) ∧
      (SixState.passNext ty j more w).bumps = false := by
    intro s
    cases ty with
    | read => exact ⟨trivial, rfl⟩
    | _ =>
      cases more with
      | true => exact ⟨trivial, rfl⟩
      | false => exact ⟨trivial, rfl⟩
  refine h.give hinv (hinv.waitLock_of hphase rfl) (by rw [hphase]; rfl) hstands hread ?_
    (hplain s).2 (hplain _).1
  rintro rfl
  exact hnot rfl slot.task hstands

theorem step_slowTry {transStartTime : ℕ} (h : SixHeld s) (hinv : SixInv s none)
    (hphase : s.phase t = .slowTry ty transStartTime)
    (hstep : s.advance t (.slowTry ty transStartTime) = some s') : SixHeld s' := by
  have hclaim := hinv.claim_of hphase
  have hsteady : (s.phase t).steady = true := by rw [hphase]; rfl
  have hq : (s.phase t).queued = none := by rw [hphase]; rfl
  simp only [SixState.advance, SixState.slowAttempt] at hstep
  cases ty with
  | write =>
    simp only at hstep
    split_ifs at hstep with howner hfree
    · cases hstep
      exact h.becomeWriter (p := .slowDone) hinv howner.1 (read_free hinv hfree) hq hsteady rfl
        trivial
    · cases hstep
      exact h.goto hinv hsteady rfl trivial
  | intent =>
    simp only at hstep
    split_ifs at hstep with hfree
    · cases hstep
      refine h.take_intent (p := .slowOwner) hinv (intent_free hinv hfree) hq
        (SixPhase.bumps_of_steady hsteady) rfl (.inl ?_) trivial
      rw [SixState.goto_phase, Function.update_self]
      rfl
    · cases hstep
      exact h.goto hinv hsteady rfl trivial
  | read =>
    simp only at hstep
    split_ifs at hstep with hfree
    · cases hstep
      obtain ⟨hnil, hpends⟩ := write_free hinv hfree
      exact h.take_read (p := .slowDone) hinv hnil (fun _ u hu => absurd hu (hpends u)) hq hsteady rfl trivial
    · cases hstep
      exact h.goto hinv hsteady rfl trivial

theorem step_slowInsert {transStartTime : ℕ} (h : SixHeld s) (hinv : SixInv s none)
    (hphase : s.phase t = .slowInsert ty transStartTime)
    (hstep : s.advance t (.slowInsert ty transStartTime) = some s') : SixHeld s' := by
  have hlock := hinv.waitLock_of hphase rfl
  simp only [SixState.advance] at hstep
  cases hins : s.fifo.insert t ty transStartTime with
  | none =>
    rw [hins] at hstep
    cases hstep
  | some r =>
    obtain ⟨wf, i⟩ := r
    rw [hins] at hstep
    cases hstep
    refine h.calm (p := .waiting ty i) hinv rfl rfl rfl ⟨rfl, rfl⟩ (fun v hv => ?_) (.inr ?_)
      (by rw [hphase]; rfl) rfl fun _ ha => ?_
    · exact Function.update_of_ne hv _ _
    · exact fun v hv => (hinv.except t).not_inside (.inr hlock) fun h => hv (Option.some.inj h).symm
    · have hflag : Function.update s.acquired t false t = false := Function.update_self ..
      exact absurd (hflag.symm.trans ha) Bool.false_ne_true

theorem step_cancelLock {ret : ℤ} (h : SixHeld s) (hinv : SixInv s none)
    (hphase : s.phase t = .cancelLock ty i ret)
    (hstep : s.advance t (.cancelLock ty i ret) = some s') : SixHeld s' := by
  have hguards : s.Guards t (.cancelLock ty i ret) := h.guards_of hphase
  have hsteady : (s.phase t).steady = true := by rw [hphase]; rfl
  simp only [SixState.advance] at hstep
  by_cases hlock : s.waitLock = none
  swap
  · rw [if_neg hlock] at hstep
    cases hstep
  rw [if_pos hlock] at hstep
  by_cases ha : s.acquired t = true
  · rw [if_pos ha] at hstep
    cases hstep
    cases ty with
    | intent => exact h.goto hinv hsteady rfl (hguards rfl ha)
    | read => exact h.goto hinv hsteady rfl (by rintro ⟨⟩)
    | write => exact h.goto hinv hsteady rfl (by rintro ⟨⟩)
  · rw [if_neg ha] at hstep
    cases hstep
    have hslots : ∀ v, v ≠ t → (s.phase v).inside ≠ true := fun v hv =>
      (hinv.except t).not_inside (.inl hlock) fun h => hv (Option.some.inj h).symm
    by_cases hty : ty = .write
    · rw [if_pos hty]
      exact h.calm (p := .cancelClear ret) hinv rfl rfl rfl ⟨rfl, rfl⟩ (fun _ _ => rfl)
        (.inr hslots) hsteady rfl trivial
    · rw [if_neg hty]
      exact h.calm (p := .returned (.int ret)) hinv rfl rfl rfl ⟨rfl, rfl⟩ (fun _ _ => rfl)
        (.inr hslots) hsteady rfl trivial

theorem step_incrementing {downgrade : Bool} (h : SixHeld s) (hinv : SixInv s none)
    (hphase : s.phase t = .incrementing ty downgrade)
    (hstep : s.advance t (.incrementing ty downgrade) = some s') : SixHeld s' := by
  have hguards : s.Guards t (.incrementing ty downgrade) := h.guards_of hphase
  have hsteady : (s.phase t).steady = true := by rw [hphase]; rfl
  have hq : (s.phase t).queued = none := by rw [hphase]; rfl
  simp only [SixState.advance, SixState.increment] at hstep
  cases ty with
  | read =>
    obtain ⟨hnil, hpends⟩ := h.no_writer hinv hq (hguards rfl).1 (hguards rfl).2
    cases downgrade with
    | true =>
      simp only [if_true] at hstep
      split_ifs at hstep
      cases hstep
      exact h.take_read (p := .unlocking .intent .unit) hinv hnil hpends hq hsteady rfl trivial
    | false =>
      simp only [Bool.false_eq_true, if_false] at hstep
      split_ifs at hstep
      cases hstep
      exact h.take_read (p := .returned .unit) hinv hnil hpends hq hsteady rfl trivial
  | _ =>
    simp only at hstep
    split_ifs at hstep
    cases hstep
    exact h.calm (p := .returned .unit) hinv rfl rfl rfl ⟨rfl, rfl⟩ (fun _ _ => rfl)
      (.inl fun _ => rfl) hsteady rfl trivial

theorem step_waking (h : SixHeld s) (hinv : SixInv s none) (hphase : s.phase t = .waking w)
    (hstep : s.advance t (.waking w) = some s') : SixHeld s' := by
  have hsteady : (s.phase t).steady = true := by rw [hphase]; rfl
  simp only [SixState.advance, SixState.wakeup] at hstep
  cases htypes : w.types with
  | nil =>
    rw [htypes] at hstep
    cases hstep
    exact h.goto hinv hsteady rfl trivial
  | cons ty types =>
    simp only [htypes] at hstep
    split_ifs at hstep
    · cases hstep
      exact h.goto hinv hsteady rfl trivial
    · cases hstep
      exact h.goto hinv hsteady rfl trivial
    · cases hstep
      exact h.calm (p := .passTry ty 0 { w with types := types }) hinv rfl rfl rfl ⟨rfl, rfl⟩
        (fun _ _ => rfl) (.inl fun _ => rfl) hsteady rfl trivial

theorem advance (h : SixHeld s) (hinv : SixInv s none) (hphase : s.phase t = p)
    (hstep : s.advance t p = some s') (hdisc : Disciplined s t .go) : SixHeld s' := by
  have hclaim := hinv.claim_of hphase
  have hq : p.queued = none → (s.phase t).queued = none := fun hq => hphase ▸ hq
  have hsteady : p.steady = true → (s.phase t).steady = true := fun hsteady => hphase ▸ hsteady
  have hbump : p.bumps = false → (s.phase t).bumps = false := fun hbump => hphase ▸ hbump
  cases p with
  | returned ret => cases hstep
  | relockFirst ty seq =>
    simp only [SixState.advance] at hstep
    split_ifs at hstep
    · cases hstep
      have hp := tryEntry_plain s t ty (.relock seq)
      exact h.goto hinv (hsteady rfl) hp.2 hp.1
    · cases hstep
      exact h.goto hinv (hsteady rfl) rfl trivial
  | tryAssert k =>
    simp only [SixState.advance] at hstep
    split_ifs at hstep
    cases hstep
    exact h.goto hinv (hsteady rfl) rfl trivial
  | tryCas ty k => exact h.step_tryCas hinv hphase hstep
  | tryOwner k =>
    simp only [SixState.advance] at hstep
    split_ifs at hstep
    cases hstep
    have hp := granted_plain ((s.setOwner (some t)).goto t (k.granted .intent)) t .intent k
    exact h.setOwner_some hinv hclaim.1 (hbump rfl) hp.2 hp.1
  | relockSecond ty seq =>
    simp only [SixState.advance] at hstep
    split_ifs at hstep
    · cases hstep
      exact h.goto hinv (hsteady rfl) rfl trivial
    · cases hstep
      exact h.goto hinv (hsteady rfl) rfl trivial
  | unlocking ty ret => exact h.step_unlocking hinv hphase hstep hdisc
  | unlockSeq ret =>
    cases hstep
    exact h.endBump hinv hphase
  | unlockOwner ret =>
    cases hstep
    have hnot : t ∉ s.holds .write := h.guards_of hphase
    exact h.setOwner_none (p := .unlockSub .intent ret) hinv (hinv.owner t hclaim) (hbump rfl) rfl
      rfl fun _ => hnot
  | unlockSub ty ret => exact h.step_unlockSub hinv hphase hstep
  | loadAll =>
    cases hstep
    exact h.goto hinv (hsteady rfl) rfl trivial
  | waking w => exact h.step_waking hinv hphase hstep
  | passTry ty i w => exact h.step_passTry hinv hphase hstep
  | passOwner j more w => exact h.step_passOwner hinv hphase hstep
  | passGrant ty j more w => exact h.step_passGrant hinv hphase hstep
  | passClear ty w =>
    cases hstep
    exact h.word (p := .passEnd ty w) hinv (hsteady rfl) rfl trivial
  | passEnd ty w =>
    cases hstep
    exact h.calm (p := .waking w) hinv rfl rfl rfl ⟨rfl, rfl⟩ (fun _ _ => rfl)
      (.inl fun _ => rfl) (hsteady rfl) rfl trivial
  | slowAssert transStartTime =>
    simp only [SixState.advance] at hstep
    split_ifs at hstep
    cases hstep
    exact h.goto hinv (hsteady rfl) rfl trivial
  | slowAdd transStartTime =>
    cases hstep
    exact h.word (p := .slowLock .write transStartTime) hinv (hsteady rfl) rfl trivial
  | slowLock ty transStartTime =>
    simp only [SixState.advance] at hstep
    split_ifs at hstep
    cases hstep
    exact h.calm (p := .slowOr ty transStartTime) hinv rfl rfl rfl ⟨rfl, rfl⟩ (fun _ _ => rfl)
      (.inl fun _ => rfl) (hsteady rfl) rfl trivial
  | slowOr ty transStartTime =>
    cases hstep
    exact h.word (p := .slowTry ty transStartTime) hinv (hsteady rfl) rfl trivial
  | slowTry ty transStartTime => exact h.step_slowTry hinv hphase hstep
  | slowOwner =>
    simp only [SixState.advance] at hstep
    split_ifs at hstep
    cases hstep
    exact h.setOwner_some hinv hclaim.1 (hbump rfl) rfl trivial
  | slowDone =>
    cases hstep
    exact h.calm (p := .returned (.int 0)) hinv rfl rfl rfl ⟨rfl, rfl⟩ (fun _ _ => rfl)
      (.inl fun _ => rfl) (hsteady rfl) rfl trivial
  | slowInsert ty transStartTime => exact h.step_slowInsert hinv hphase hstep
  | waiting ty i =>
    simp only [SixState.advance] at hstep
    split_ifs at hstep
    cases hstep
    exact h.goto hinv (hsteady rfl) rfl trivial
  | cancelLock ty i ret => exact h.step_cancelLock hinv hphase hstep
  | cancelClear ret =>
    cases hstep
    exact h.word (p := .cancelLoad ret) hinv (hsteady rfl) rfl trivial
  | cancelLoad ret =>
    cases hstep
    exact h.goto hinv (hsteady rfl) rfl trivial
  | upgradeCas =>
    simp only [SixState.advance] at hstep
    split_ifs at hstep with hheld
    · cases hstep
      exact h.goto hinv (hsteady rfl) rfl trivial
    · cases hstep
      exact h.upgrade (p := .tryOwner .upgrade) hinv (intent_free hinv (not_not.mp hheld)) (hq rfl)
        (hbump rfl) rfl rfl trivial
  | incrementing ty downgrade => exact h.step_incrementing hinv hphase hstep

theorem step {act : SixAct} (h : SixHeld s) (hinv : SixInv s none) (hrel : ReleasesHeld s t act)
    (hdisc : Disciplined s t act) (hstep : sixStep s t act = some s') : SixHeld s' := by
  cases act with
  | call op =>
    cases hphase : s.phase t with
    | returned ret =>
      simp only [sixStep, hphase] at hstep
      cases hstep
      have hp := entry_plain hrel hdisc
      exact h.goto hinv (by rw [hphase]; rfl) hp.2 hp.1
    | _ => simp [sixStep, hphase] at hstep
  | go => exact h.advance hinv rfl hstep hdisc
  | cancel ret =>
    cases hphase : s.phase t with
    | waiting ty i =>
      simp only [sixStep, hphase] at hstep
      split_ifs at hstep
      cases hstep
      have hguards : s.Guards t (.waiting ty i) := h.guards_of hphase
      exact h.goto hinv (by rw [hphase]; rfl) rfl hguards
    | _ => simp [sixStep, hphase] at hstep

theorem run (h : SixHeld s) (hinv : SixInv s none) (hrun : SixRun Disciplined s s') :
    SixHeld s' ∧ SixInv s' none := by
  induction hrun with
  | refl => exact ⟨h, hinv⟩
  | tail _ hstep ih =>
    obtain ⟨t, act, hrel, hdisc, hstep, hb⟩ := hstep
    exact ⟨ih.1.step ih.2 hrel hdisc hstep, ih.2.step hrel hstep hb⟩

end SixHeld

/-! ### Runs -/

section Runs

variable [DecidableEq τ] {s s' : SixState τ} {t : τ} {p : SixPhase}

theorem passGive_writeUnlocks (s : SixState τ) (ty : SixLockType) (j : ℕ) (u : τ) :
    (s.passGive ty j u).writeUnlocks = s.writeUnlocks := by
  simp only [SixState.passGive]
  split_ifs
  · rfl
  · rfl

theorem writeUnlocks_advance (hstep : s.advance t p = some s') :
    s.writeUnlocks ≤ s'.writeUnlocks := by
  cases p
  all_goals
    simp only [SixState.advance, SixState.unlockIp, SixState.wakeup, SixState.passAttempt,
      SixState.slowAttempt, SixState.increment] at hstep
    repeat' split at hstep
  all_goals
    cases hstep <;> simp [SixState.goto_writeUnlocks, SixState.take, SixState.release,
      SixState.upgrade, SixState.pend, SixState.unpend, SixState.grantWrite, SixState.setWaiting,
      SixState.clearWaiting, passGive_writeUnlocks, SixState.setOwner, SixState.setWaitLock,
      SixState.setFifo, SixState.setAcquired, SixState.setRecurse, SixState.setSeq,
      SixState.setWriteUnlocks]

theorem writeUnlocks_run {cond : SixState τ → τ → SixAct → Prop} (hrun : SixRun cond s s') :
    s.writeUnlocks ≤ s'.writeUnlocks := by
  induction hrun with
  | refl => exact le_rfl
  | @tail s₁ s₂ _ hstep ih =>
    obtain ⟨t, act, -, -, hstep, -⟩ := hstep
    refine ih.trans ?_
    cases act with
    | go => exact writeUnlocks_advance hstep
    | call op =>
      cases hphase : s₁.phase t with
      | returned ret =>
        simp only [sixStep, hphase] at hstep
        cases hstep
        exact le_rfl
      | _ => simp [sixStep, hphase] at hstep
    | cancel ret =>
      cases hphase : s₁.phase t with
      | waiting ty i =>
        simp only [sixStep, hphase] at hstep
        split_ifs at hstep
        cases hstep
        exact le_rfl
      | _ => simp [sixStep, hphase] at hstep

/-- The sequence number is the number of unlocks of the outermost write hold, but for one that is not
counted yet. -/
def SixState.SeqCounts (s : SixState τ) : Prop :=
  ((∀ t, (s.phase t).bumps = false) → s.seq = s.writeUnlocks % 2 ^ 32) ∧
    ∀ t, (s.phase t).bumps = true → fetchAdd s.seq 1 = s.writeUnlocks % 2 ^ 32

/-- A relock that succeeds with the sequence number of an earlier state has seen no unlock of a writer
since then, and no other writer has the lock. -/
def RelockSound (s : SixState τ) : Prop :=
  ∀ s₁ s₂ t ty q, SixRun Disciplined s s₁ → s.seq = q → s₁.phase t = .relockSecond ty q →
    sixStep s₁ t .go = some s₂ → s₂.phase t = .returned (.bool true) →
    s₁.writeUnlocks < s.writeUnlocks + (2 ^ 32 - 1) →
    s₁.writeUnlocks = s.writeUnlocks ∧ ∀ x ∈ s₁.holds .write, x = t

theorem relockSound (h : SixHeld s) (hinv : SixInv s none) : RelockSound s := by
  intro s₁ s₂ t ty q hrun hq hphase hstep hret hbound
  obtain ⟨hheld, hinv₁⟩ := h.run hinv hrun
  obtain ⟨hall, hrest⟩ := hheld.rest_of_relockSecond hinv₁ hphase
  have hseq₁ := hheld.seqRest hrest
  have hle := writeUnlocks_run hrun
  have hsame : s₁.seq = q := by
    simp only [sixStep, hphase, SixState.advance] at hstep
    split_ifs at hstep with hsame
    · exact hsame
    · cases hstep
      rw [SixState.goto_phase, Function.update_self] at hret
      cases hret
  refine ⟨?_, hall⟩
  by_cases hbump : ∀ v, (s.phase v).bumps = false
  · have hseq := h.seqRest hbump
    omega
  · -- an unlock that is not counted yet would be counted before the relock
    push Not at hbump
    obtain ⟨v, hv⟩ := hbump
    have hseq := h.seqBump v (by simpa using hv)
    rw [fetchAdd] at hseq
    omega

/-- In every run of threads that do not release their last intent hold while they hold the lock for
write and take no read hold then, there is one intent holder, a writer is alone and has the lock for
intent, the word counts the read holds, the owner is the intent holder unless it is being set or
cleared, and the sequence number counts the unlocks of the outermost write hold. -/
theorem six_lock_holders (hrun : SixRun Disciplined ({} : SixState τ) s) :
    (s.holds .intent).length ≤ 1 ∧
      (∀ t ∈ s.holds .write, s.holds .read = [] ∧ t ∈ s.holds .intent) ∧
      s.state &&& sixLockHeldRead = (s.holds .read).length ∧
      (∀ t, s.owner = some t → t ∈ s.holds .intent) ∧
      (∀ t ∈ s.holds .intent, s.owner = some t ∨ s.OwnerMoves t) ∧
      s.SeqCounts ∧ RelockSound s := by
  obtain ⟨hheld, hinv⟩ := SixHeld.init.run SixInv.init hrun
  exact ⟨SixWord.intents hinv.word,
    fun t ht => ⟨hheld.read (List.ne_nil_of_mem ht), hheld.intent t ht⟩,
    SixWord.and_read hinv.word, hinv.owner, hheld.named, ⟨hheld.seqRest, hheld.seqBump⟩,
    relockSound hheld hinv⟩

end Runs

/-- A thread takes the lock for intent and for write. -/
def lockWrite : List (Fin 1 × SixAct) :=
  [(0, .call (.trylock .intent)), (0, .go), (0, .go), (0, .call (.trylock .write)), (0, .go), (0, .go)]

theorem six_lock_holders_write :
    ∃ s : SixState (Fin 1), SixRun Disciplined {} s ∧ 0 ∈ s.holds .write ∧ s.holds .read = [] ∧
      0 ∈ s.holds .intent := by
  have hexec : (sixExec Disciplined {} lockWrite).map (fun s => s.holds .write) = some [0] := by
    decide +kernel
  obtain ⟨s, hs, hwrite⟩ := Option.map_eq_some_iff.mp hexec
  have hin : (0 : Fin 1) ∈ s.holds .write := by simp [hwrite]
  have hrun := sixRun_of_exec hs
  exact ⟨s, hrun, hin, (six_lock_holders hrun).2.1 0 hin⟩

/-- A writer without intent: the thread unlocks intent first. A writer with a reader: the thread
increments read. An intent holder that is not the owner: the exchange has succeeded, the owner is not
set yet. -/
theorem six_lock_holders_fail :
    (∃ s : SixState (Fin 1), SixRun (fun _ _ _ => True) {} s ∧
      0 ∈ s.holds .write ∧ 0 ∉ s.holds .intent) ∧
    (∃ s : SixState (Fin 1), SixRun (fun _ _ _ => True) {} s ∧
      0 ∈ s.holds .write ∧ 0 ∈ s.holds .read) ∧
    ∃ s : SixState (Fin 1), SixRun (fun _ _ _ => True) {} s ∧
      0 ∈ s.holds .intent ∧ s.owner = none := by
  have hunlock : (sixExec (fun _ _ _ => True) {} (lockWrite ++
      [(0, .call (.unlock .intent)), (0, .go), (0, .go), (0, .go)])).map
      (fun s => (s.holds .write, s.holds .intent)) = some ([0], []) := by
    decide +kernel
  have hincrement : (sixExec (fun _ _ _ => True) {} (lockWrite ++
      [(0, .call (.increment .read)), (0, .go)])).map
      (fun s => (s.holds .write, s.holds .read)) = some ([0], [0]) := by
    decide +kernel
  have hexchange : (sixExec (fun _ _ _ => True) {} (lockWrite.take 2)).map
      (fun s => (s.holds .intent, s.owner)) = some ([0], none) := by
    decide +kernel
  refine ⟨?_, ?_, ?_⟩
  · obtain ⟨s, hs, heq⟩ := Option.map_eq_some_iff.mp hunlock
    obtain ⟨hwrite, hintent⟩ := Prod.mk.inj heq
    exact ⟨s, sixRun_of_exec hs, by simp [hwrite], by simp [hintent]⟩
  · obtain ⟨s, hs, heq⟩ := Option.map_eq_some_iff.mp hincrement
    obtain ⟨hwrite, hread⟩ := Prod.mk.inj heq
    exact ⟨s, sixRun_of_exec hs, by simp [hwrite], by simp [hread]⟩
  · obtain ⟨s, hs, heq⟩ := Option.map_eq_some_iff.mp hexchange
    obtain ⟨hintent, howner⟩ := Prod.mk.inj heq
    exact ⟨s, sixRun_of_exec hs, by simp [hintent], howner⟩

end Subvol

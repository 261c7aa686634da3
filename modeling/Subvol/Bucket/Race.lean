import Mathlib.Logic.Function.Basic
import Subvol.Bucket.Index

/-!
# Threads on the buckets

The operations on buckets by several threads. The lock of the file system covers an allocation, a
reclaim and each of the two parts of a discard; the sets of open buckets and of writable devices have
locks of their own, so they can change between the checks of a reclaim and its transaction, and the
buckets can change between the two parts of a discard. A step is one critical section.

## Main definitions

* `BucketThread`, `RaceState`, `RaceAct`, `raceStep`, `RaceRun`.
* `DiscardAlone`, `OpenElsewhere`: no reclaim of a bucket is committed between the two parts of a
  discard of it; no bucket is opened between the check of a reclaim of it and its transaction.

## Main results

* `discard_finds_need_discard`, `reclaim_finds_closed`.
-/

namespace Subvol

open Lib

/-! ### Threads -/

/-- Where a thread is. A reclaim carries the member it read, and whether it is the second part of a
discard. -/
inductive BucketThread
  | idle
  | discardFound (pos : KeyPosition)
  | discardClosed (pos : KeyPosition)
  | discardReleased (pos : KeyPosition)
  | reclaimEntered (pos : KeyPosition) (m : DevMember) (discard : Bool)
  | reclaimClosed (pos : KeyPosition) (m : DevMember) (discard : Bool)
  | reclaimWritable (pos : KeyPosition) (m : DevMember) (discard : Bool)
deriving DecidableEq, Repr

namespace BucketThread

/-- Whether the thread holds the lock of the file system. -/
def holds : BucketThread → Bool
  | idle => false
  | discardReleased _ => false
  | _ => true

/-- The bucket of a discard, from the check of its alloc key on. -/
def discards : BucketThread → Option BucketPos
  | idle => none
  | discardFound pos => some pos.bucket
  | discardClosed pos => some pos.bucket
  | discardReleased pos => some pos.bucket
  | reclaimEntered pos _ discard => if discard then some pos.bucket else none
  | reclaimClosed pos _ discard => if discard then some pos.bucket else none
  | reclaimWritable pos _ discard => if discard then some pos.bucket else none

/-- The bucket of a reclaim behind its check of the open buckets. -/
def closed : BucketThread → Option BucketPos
  | reclaimClosed pos _ _ => some pos.bucket
  | reclaimWritable pos _ _ => some pos.bucket
  | _ => none

end BucketThread

/-- The state of the engine, the holder of the lock of the file system and the threads. -/
structure RaceState where
  fs : BucketFs
  holder : Option ℕ := none
  threads : ℕ → BucketThread := fun _ => .idle

namespace RaceState

/-- A thread goes on, with the lock. -/
def lock (s : RaceState) (i : ℕ) (t : BucketThread) : RaceState :=
  { s with holder := some i, threads := Function.update s.threads i t }

/-- A thread goes on, and gives the lock back. -/
def unlock (s : RaceState) (i : ℕ) (t : BucketThread) : RaceState :=
  { s with holder := none, threads := Function.update s.threads i t }

variable (s : RaceState) (i : ℕ) (t : BucketThread)

theorem lock_threads_self : (s.lock i t).threads i = t := by
  simp only [lock, Function.update_self]

theorem unlock_threads_self : (s.unlock i t).threads i = t := by
  simp only [unlock, Function.update_self]

theorem lock_threads_of_ne {j : ℕ} (h : j ≠ i) : (s.lock i t).threads j = s.threads j := by
  simp only [lock, Function.update_of_ne h]

theorem unlock_threads_of_ne {j : ℕ} (h : j ≠ i) : (s.unlock i t).threads j = s.threads j := by
  simp only [unlock, Function.update_of_ne h]

end RaceState

/-- The critical sections. -/
inductive RaceAct
  | allocate (dev : ℕ) (env : CallEnv)
  | openBucket (pos : KeyPosition)
  | closeOpenBucket (pos : KeyPosition)
  | setDeviceRw (dev : ℕ) (rw : Bool)
  | discard (i : ℕ) (pos : KeyPosition) (scan : ℤ)
  | reclaim (i : ℕ) (pos : KeyPosition) (scan : ℕ → ℤ)
  | resume (i : ℕ) (scan : ℕ → ℤ)
  | check (i : ℕ)
  | commit (i : ℕ) (env : CallEnv)

/-- `set_device_rw`. -/
def setDeviceRw (c : BucketFs) (dev : ℕ) (rw : Bool) : BucketFs :=
  if rw then { c with rwDevs := insert dev c.rwDevs }
  else if ∃ b ∈ c.openBuckets, b.dev = dev then c
  else { c with rwDevs := c.rwDevs.erase dev }

/-- The first part of `reclaim_bucket`, up to the check of the open buckets. -/
def enterReclaim (s : RaceState) (i : ℕ) (pos : KeyPosition) (scan : ℕ → ℤ) (discard : Bool) :
    RaceState :=
  match reclaimMember scan s.fs pos with
  | .error _ => s.unlock i .idle
  | .ok m => s.lock i (.reclaimEntered pos m discard)

/-- The next check of the open buckets or of the writable devices. -/
def checkStep (s : RaceState) (i : ℕ) : Option RaceState :=
  match s.threads i with
  | .discardFound pos =>
    some (if pos.bucket ∈ s.fs.openBuckets then s.unlock i .idle else s.lock i (.discardClosed pos))
  | .discardClosed pos =>
    some (if pos.inode ∉ s.fs.rwDevs then s.unlock i .idle else s.unlock i (.discardReleased pos))
  | .reclaimEntered pos m discard =>
    some (if pos.bucket ∈ s.fs.openBuckets then s.unlock i .idle
      else s.lock i (.reclaimClosed pos m discard))
  | .reclaimClosed pos m discard =>
    some (if pos.inode ∉ s.fs.rwDevs then s.unlock i .idle
      else s.lock i (.reclaimWritable pos m discard))
  | _ => none

/-- The transaction of `reclaim_bucket`. -/
def commitStep (s : RaceState) (i : ℕ) (env : CallEnv) : Option RaceState :=
  match s.threads i with
  | .reclaimWritable pos m _ =>
    match reclaimLocked env.scan s.fs m pos with
    | .error _ => some (s.unlock i .idle)
    | .ok t =>
      match runTrans env s.fs t () with
      | none => none
      | some r => some ({ s with fs := r.2 }.unlock i .idle)
  | _ => none

/-- One critical section; `none` if it cannot run now. -/
def raceStep (s : RaceState) : RaceAct → Option RaceState
  | .allocate dev env =>
    if s.holder ≠ none then none
    else (allocateBucket env s.fs dev).map fun r => { s with fs := r.2 }
  | .openBucket pos =>
    some { s with fs := { s.fs with openBuckets := insert pos.bucket s.fs.openBuckets } }
  | .closeOpenBucket pos =>
    some { s with fs := { s.fs with openBuckets := s.fs.openBuckets.erase pos.bucket } }
  | .setDeviceRw dev rw => some { s with fs := setDeviceRw s.fs dev rw }
  | .discard i pos scan =>
    if s.holder ≠ none ∨ s.threads i ≠ .idle then none
    else
      match discardKeyCheck scan s.fs pos with
      | some _ => some s
      | none => some (s.lock i (.discardFound pos))
  | .reclaim i pos scan =>
    if s.holder ≠ none ∨ s.threads i ≠ .idle then none
    else some (enterReclaim s i pos scan false)
  | .resume i scan =>
    if s.holder ≠ none then none
    else
      match s.threads i with
      | .discardReleased pos => some (enterReclaim s i pos scan true)
      | _ => none
  | .check i => checkStep s i
  | .commit i env => commitStep s i env

/-- The runs whose critical sections satisfy `P` where they start. -/
inductive RaceRun (P : RaceState → RaceAct → Prop) (s₀ : RaceState) : RaceState → Prop
  | refl : RaceRun P s₀ s₀
  | tail {s s' : RaceState} {act : RaceAct} (hrun : RaceRun P s₀ s) (hP : P s act)
      (hstep : raceStep s act = some s') : RaceRun P s₀ s'

/-- Critical sections one after another. -/
def raceActs (s : RaceState) : List RaceAct → Option RaceState
  | [] => some s
  | act :: acts =>
    match raceStep s act with
    | none => none
    | some s' => raceActs s' acts

theorem raceActs_run {P : RaceState → RaceAct → Prop} {s₀ s s' : RaceState} {acts : List RaceAct}
    (hrun : RaceRun P s₀ s) (hP : ∀ act ∈ acts, ∀ s, P s act) (h : raceActs s acts = some s') :
    RaceRun P s₀ s' := by
  induction acts generalizing s with
  | nil =>
    cases h
    exact hrun
  | cons act acts ih =>
    rw [raceActs] at h
    split at h
    · cases h
    · next s₁ hstep =>
      exact ih (hrun.tail (hP act List.mem_cons_self s) hstep)
        (fun act' hact' => hP act' (List.mem_cons_of_mem _ hact')) h

/-- The bucket of a thread that is about to make its transaction. -/
def BucketThread.writes : BucketThread → Option BucketPos
  | .reclaimWritable pos _ _ => some pos.bucket
  | _ => none

/-- No reclaim of a bucket is committed between the two parts of a discard of it. -/
def DiscardAlone (s : RaceState) : RaceAct → Prop
  | .commit i _ => ∀ j pos, s.threads j = .discardReleased pos →
      (s.threads i).writes ≠ some pos.bucket
  | _ => True

/-- No bucket is opened between the check of a reclaim of it and its transaction. -/
def OpenElsewhere (s : RaceState) : RaceAct → Prop
  | .openBucket pos => ∀ i, (s.threads i).closed ≠ some pos.bucket
  | _ => True

/-! ### What a critical section does to the alloc keys -/

/-- The alloc keys after the transaction of a call: only the key of its bucket can change. -/
theorem runTrans_get {env : CallEnv} {c c' w : BucketFs} {p : BucketPos} {a : BchAllocV4}
    {t : List BucketUpdate} {α : Type} {value : α} {res : Except ℤ α}
    (hchange : BucketChange c p a t w) (hrun : runTrans env c t value = some (res, c')) :
    Partly c w c' ∧ ∀ q, q ≠ p → c'.alloc.get q = c.alloc.get q := by
  rw [runTrans] at hrun
  cases hloop : commitLoop env.attempts c t with
  | none =>
    rw [hloop] at hrun
    cases hrun
  | some r =>
    obtain ⟨ret, d⟩ := r
    rw [hloop] at hrun
    cases hrun
    have hpartly := commitLoop_partly hchange.transaction (Partly.refl c w) hloop
    refine ⟨hpartly, fun q hq => ?_⟩
    have htree : c'.alloc = c.alloc ∨ c'.alloc = w.alloc := hpartly.tree .alloc
    obtain ⟨b, hb⟩ := hchange.exists_alloc
    rcases htree with htree | htree
    · rw [htree]
    · rw [htree, hb, c.alloc.get_set_of_ne _ hq]

/-- An allocation leaves the open buckets as they are, and of the buckets takes at most one that is
free. -/
theorem allocateBucket_effect {env : CallEnv} {c c' : BucketFs} {dev : ℕ}
    {res : Except ℤ KeyPosition} (hrun : allocateBucket env c dev = some (res, c')) :
    c'.openBuckets = c.openBuckets ∧ ∀ p, c'.alloc.get p = c.alloc.get p ∨
      ∃ a, c.alloc.get p = some a ∧ a.dataType = .free ∧ c'.alloc.get p = some a.taken := by
  rw [allocateBucket] at hrun
  cases htrans : allocateTrans env.scan c dev with
  | error err =>
    rw [htrans] at hrun
    cases hrun
    exact ⟨rfl, fun _ => .inl rfl⟩
  | ok r =>
    obtain ⟨t, pos⟩ := r
    rw [htrans] at hrun
    obtain ⟨q, a, hgetq, hfree, rfl, rfl⟩ := allocateTrans_eq_ok htrans
    obtain ⟨hpartly, hother⟩ := runTrans_get (.take hfree) hrun
    refine ⟨hpartly.openBuckets, fun p => ?_⟩
    by_cases hp : p = q
    · subst hp
      have htree : c'.alloc = c.alloc ∨ c'.alloc = c.alloc.set p a.taken := hpartly.tree .alloc
      rcases htree with htree | htree
      · exact .inl (by rw [htree])
      · exact .inr ⟨a, hgetq, hfree, by rw [htree, OrdMap.get_set_self]⟩
    · exact .inl (hother p hp)

/-- An allocation leaves a bucket that is not free as it is. -/
theorem allocateBucket_get {env : CallEnv} {c c' : BucketFs} {dev : ℕ} {res : Except ℤ KeyPosition}
    (hrun : allocateBucket env c dev = some (res, c')) {p : BucketPos} {a : BchAllocV4}
    (hget : c.alloc.get p = some a) (ha : a.dataType ≠ .free) : c'.alloc.get p = some a := by
  rcases (allocateBucket_effect hrun).2 p with hsame | ⟨b, hgetb, hfree, -⟩
  · exact hsame.trans hget
  · rw [hget] at hgetb
    cases hgetb
    exact absurd hfree ha

/-- What the transaction of a reclaim does: nothing to the buckets, or something to its own. -/
structure CommitEffect (s s' : RaceState) (i : ℕ) : Prop where
  unlock : s' = { s with fs := s'.fs }.unlock i .idle
  openBuckets : s'.fs.openBuckets = s.fs.openBuckets
  get : ∀ q, (s.threads i).writes ≠ some q → s'.fs.alloc.get q = s.fs.alloc.get q
  writable : ∃ pos m discard, s.threads i = .reclaimWritable pos m discard

theorem commitStep_effect {s s' : RaceState} {i : ℕ} {env : CallEnv}
    (h : commitStep s i env = some s') : CommitEffect s s' i := by
  rw [commitStep] at h
  split at h
  · next pos m discard hthread =>
    split at h
    · cases h
      exact ⟨rfl, rfl, fun _ _ => rfl, pos, m, discard, hthread⟩
    · next t hlocked =>
      split at h
      · cases h
      · next r hrun =>
        cases h
        obtain ⟨a, w, hchange⟩ : ∃ a w, BucketChange s.fs pos.bucket a t w := by
          obtain ⟨a, -, ⟨hne, rfl⟩ | ⟨hdiscard, hseq, rfl⟩⟩ := reclaimLocked_eq_ok hlocked
          · exact ⟨a, _, .empty hne⟩
          · exact ⟨a, _, .free hdiscard hseq⟩
        obtain ⟨hpartly, hget⟩ := runTrans_get hchange hrun
        refine ⟨rfl, hpartly.openBuckets, fun q hq => hget q ?_, pos, m, discard, hthread⟩
        rintro rfl
        rw [hthread] at hq
        exact hq rfl
  · cases h

/-- What a check of the open buckets or of the devices can do. -/
inductive CheckCase (s : RaceState) (i : ℕ) : RaceState → Prop
  | refused : CheckCase s i (s.unlock i .idle)
  | released {pos : KeyPosition} (hthread : s.threads i = .discardClosed pos) :
      CheckCase s i (s.unlock i (.discardReleased pos))
  | passed {t : BucketThread} (hdiscards : t.discards = (s.threads i).discards)
      (hclosed : ∀ p, t.closed = some p →
        (s.threads i).closed = some p ∨ p ∉ s.fs.openBuckets) : CheckCase s i (s.lock i t)

theorem checkStep_cases {s s' : RaceState} {i : ℕ} (h : checkStep s i = some s') :
    (s.threads i).holds = true ∧ CheckCase s i s' := by
  rw [checkStep] at h
  cases hthread : s.threads i with
  | idle =>
    rw [hthread] at h
    cases h
  | discardFound pos =>
    rw [hthread] at h
    cases h
    refine ⟨rfl, ?_⟩
    split_ifs
    · exact .refused
    · exact .passed (by rw [hthread]; rfl) fun p hp => by cases hp
  | discardClosed pos =>
    rw [hthread] at h
    cases h
    refine ⟨rfl, ?_⟩
    split_ifs
    · exact .released hthread
    · exact .refused
  | discardReleased pos =>
    rw [hthread] at h
    cases h
  | reclaimEntered pos m discard =>
    rw [hthread] at h
    cases h
    refine ⟨rfl, ?_⟩
    split_ifs with hopen
    · exact .refused
    · refine .passed (by rw [hthread]; rfl) fun p hp => ?_
      cases hp
      exact .inr hopen
  | reclaimClosed pos m discard =>
    rw [hthread] at h
    cases h
    refine ⟨rfl, ?_⟩
    split_ifs
    · exact .passed (by rw [hthread]; rfl) fun p hp => .inl (by rw [hthread]; exact hp)
    · exact .refused
  | reclaimWritable pos m discard =>
    rw [hthread] at h
    cases h

theorem enterReclaim_fs (s : RaceState) (i : ℕ) (pos : KeyPosition) (scan : ℕ → ℤ)
    (discard : Bool) : (enterReclaim s i pos scan discard).fs = s.fs := by
  rw [enterReclaim]
  split <;> rfl

theorem checkStep_fs {s s' : RaceState} {i : ℕ} (h : checkStep s i = some s') : s'.fs = s.fs := by
  obtain ⟨-, hcase⟩ := checkStep_cases h
  cases hcase <;> rfl

/-- Only an allocation and the transaction of a reclaim change an alloc key. -/
theorem raceStep_get {s s' : RaceState} {act : RaceAct} (hstep : raceStep s act = some s')
    {p : BucketPos} (hne : s'.fs.alloc.get p ≠ s.fs.alloc.get p) :
    (∃ a, s.fs.alloc.get p = some a ∧ a.dataType = .free ∧ s'.fs.alloc.get p = some a.taken) ∨
      ∃ i env, act = .commit i env ∧ (s.threads i).writes = some p := by
  cases act with
  | allocate dev env =>
    rw [raceStep] at hstep
    split_ifs at hstep
    obtain ⟨r, hr, rfl⟩ := Option.map_eq_some_iff.mp hstep
    exact .inl (((allocateBucket_effect hr).2 p).resolve_left hne)
  | openBucket pos =>
    cases hstep
    exact absurd rfl hne
  | closeOpenBucket pos =>
    cases hstep
    exact absurd rfl hne
  | setDeviceRw dev rw =>
    cases hstep
    refine absurd ?_ hne
    rw [setDeviceRw]
    split_ifs <;> rfl
  | discard i pos scan =>
    rw [raceStep] at hstep
    split_ifs at hstep
    split at hstep <;> cases hstep <;> exact absurd rfl hne
  | reclaim i pos scan =>
    rw [raceStep] at hstep
    split_ifs at hstep
    cases hstep
    exact absurd (by rw [enterReclaim_fs]) hne
  | resume i scan =>
    rw [raceStep] at hstep
    split_ifs at hstep
    split at hstep
    · cases hstep
      exact absurd (by rw [enterReclaim_fs]) hne
    · cases hstep
  | check i =>
    rw [raceStep] at hstep
    exact absurd (by rw [checkStep_fs hstep]) hne
  | commit i env =>
    refine .inr ⟨i, env, rfl, ?_⟩
    by_contra hwrites
    exact hne ((commitStep_effect hstep).get p hwrites)

/-! ### Threads and the lock -/

/-- A discard works on a bucket that waits for it, and a thread in a critical section of the file
system holds its lock. -/
structure DiscardInv (s : RaceState) : Prop where
  holder : ∀ i, (s.threads i).holds = true → s.holder = some i
  found : ∀ i p, (s.threads i).discards = some p →
    ∃ a, s.fs.alloc.get p = some a ∧ a.dataType = .needDiscard

namespace DiscardInv

variable {s : RaceState} {i : ℕ} {t : BucketThread}

/-- A thread takes the lock or keeps it. -/
theorem lock (h : DiscardInv s) (hfree : s.holder = none ∨ s.holder = some i)
    (hfound : ∀ p, t.discards = some p →
      ∃ a, s.fs.alloc.get p = some a ∧ a.dataType = .needDiscard) : DiscardInv (s.lock i t) := by
  refine ⟨fun j hj => ?_, fun j p hj => ?_⟩
  · by_cases hji : j = i
    · rw [hji]
      rfl
    · rw [s.lock_threads_of_ne i t hji] at hj
      have hholder := h.holder j hj
      rcases hfree with hfree | hfree
      · rw [hfree] at hholder
        cases hholder
      · rw [hfree] at hholder
        exact absurd (Option.some.inj hholder).symm hji
  · by_cases hji : j = i
    · rw [hji, s.lock_threads_self] at hj
      exact hfound p hj
    · rw [s.lock_threads_of_ne i t hji] at hj
      exact h.found j p hj

/-- A thread gives the lock back. -/
theorem unlock (h : DiscardInv s) (hfree : s.holder = none ∨ s.holder = some i)
    (ht : t.holds = false) (hfound : ∀ p, t.discards = some p →
      ∃ a, s.fs.alloc.get p = some a ∧ a.dataType = .needDiscard) : DiscardInv (s.unlock i t) := by
  have hlock := h.lock hfree hfound
  refine ⟨fun j hj => ?_, hlock.found⟩
  have hholder := hlock.holder j hj
  cases hholder
  rw [s.unlock_threads_self, ht] at hj
  cases hj

/-- The alloc keys of the discards stay. -/
theorem keep (h : DiscardInv s) {c : BucketFs}
    (hget : ∀ p a, s.fs.alloc.get p = some a → a.dataType = .needDiscard →
      c.alloc.get p = some a) : DiscardInv { s with fs := c } := by
  refine ⟨h.holder, fun j p hj => ?_⟩
  obtain ⟨a, hgeta, ha⟩ := h.found j p hj
  exact ⟨a, hget p a hgeta ha, ha⟩

end DiscardInv

/-! ### Discards -/

section Discard

variable {s s' : RaceState} {i : ℕ}

theorem DiscardInv.enterReclaim (h : DiscardInv s) (hfree : s.holder = none) {pos : KeyPosition}
    {discard : Bool} (hfound : discard = true →
      ∃ a, s.fs.alloc.get pos.bucket = some a ∧ a.dataType = .needDiscard) (scan : ℕ → ℤ) :
    DiscardInv (enterReclaim s i pos scan discard) := by
  rw [Subvol.enterReclaim]
  split
  · exact h.unlock (.inl hfree) rfl (fun p hp => by cases hp)
  · refine h.lock (.inl hfree) fun p hp => ?_
    cases discard with
    | false => cases hp
    | true =>
      cases hp
      exact hfound rfl

theorem DiscardInv.checkStep (h : DiscardInv s) (hstep : checkStep s i = some s') :
    DiscardInv s' := by
  obtain ⟨hholds, hcase⟩ := checkStep_cases hstep
  have hholder := h.holder i hholds
  have hidle : ∀ p, BucketThread.idle.discards = some p →
      ∃ a, s.fs.alloc.get p = some a ∧ a.dataType = .needDiscard := fun p hp => by cases hp
  cases hcase with
  | refused => exact h.unlock (.inr hholder) rfl hidle
  | released hthread =>
    refine h.unlock (.inr hholder) rfl fun p hp => h.found i p ?_
    rw [hthread]
    exact hp
  | passed hdiscards _ => exact h.lock (.inr hholder) fun p hp => h.found i p (hdiscards ▸ hp)

/-- The transaction of a reclaim, of a bucket that no other thread is about to discard. -/
theorem DiscardInv.commit (h : DiscardInv s) {env : CallEnv} (hstep : commitStep s i env = some s')
    (halone : DiscardAlone s (.commit i env)) : DiscardInv s' := by
  obtain ⟨hunlock, -, hget, pos, m, discard, hthread⟩ := commitStep_effect hstep
  have hholder : s.holder = some i := h.holder i (by rw [hthread]; rfl)
  refine ⟨fun j hj => ?_, fun j p hj => ?_⟩
  · by_cases hji : j = i
    · rw [hunlock, hji, RaceState.unlock_threads_self] at hj
      cases hj
    · rw [hunlock, RaceState.unlock_threads_of_ne _ _ _ hji] at hj
      have hj' := h.holder j hj
      rw [hholder] at hj'
      exact absurd (Option.some.inj hj').symm hji
  · by_cases hji : j = i
    · rw [hunlock, hji, RaceState.unlock_threads_self] at hj
      cases hj
    · rw [hunlock, RaceState.unlock_threads_of_ne _ _ _ hji] at hj
      have hj : (s.threads j).discards = some p := hj
      rw [hget]
      · exact h.found j p hj
      · -- the other thread does not hold the lock, so it is between its two parts
        have hnot : (s.threads j).holds = false := by
          by_contra hholds
          have hj' := h.holder j (Bool.not_eq_false _ ▸ hholds)
          rw [hholder] at hj'
          exact hji (Option.some.inj hj').symm
        cases hthreadj : s.threads j with
        | discardReleased pos' =>
          rw [hthreadj] at hj
          cases hj
          exact halone j pos' hthreadj
        | idle =>
          rw [hthreadj] at hj
          cases hj
        | _ =>
          rw [hthreadj] at hnot
          cases hnot

theorem raceStep_discardInv (h : DiscardInv s) {act : RaceAct} (halone : DiscardAlone s act)
    (hstep : raceStep s act = some s') : DiscardInv s' := by
  cases act with
  | allocate dev env =>
    rw [raceStep] at hstep
    split_ifs at hstep
    obtain ⟨r, hr, rfl⟩ := Option.map_eq_some_iff.mp hstep
    refine h.keep fun p a hget ha => allocateBucket_get hr hget ?_
    rw [ha]
    exact fun hfree => BchDataType.noConfusion hfree
  | openBucket pos =>
    cases hstep
    exact h.keep fun _ _ hget _ => hget
  | closeOpenBucket pos =>
    cases hstep
    exact h.keep fun _ _ hget _ => hget
  | setDeviceRw dev rw =>
    cases hstep
    refine h.keep fun _ _ hget _ => ?_
    rw [setDeviceRw]
    split_ifs <;> exact hget
  | discard i pos scan =>
    rw [raceStep] at hstep
    split_ifs at hstep with hfree
    rw [not_or, not_not] at hfree
    cases hcheck : discardKeyCheck scan s.fs pos with
    | some err =>
      rw [hcheck] at hstep
      cases hstep
      exact h
    | none =>
      rw [hcheck] at hstep
      cases hstep
      refine h.lock (.inl hfree.1) fun p hp => ?_
      cases hp
      exact discardKeyCheck_eq_none hcheck
  | reclaim i pos scan =>
    rw [raceStep] at hstep
    split_ifs at hstep with hfree
    rw [not_or, not_not] at hfree
    cases hstep
    exact h.enterReclaim hfree.1 (fun hd => by cases hd) scan
  | resume i scan =>
    rw [raceStep] at hstep
    split_ifs at hstep with hfree
    split at hstep
    · next pos hthread =>
      cases hstep
      exact h.enterReclaim (not_not.mp hfree) (fun _ => h.found i _ (by rw [hthread]; rfl)) scan
    · cases hstep
  | check i => exact h.checkStep hstep
  | commit i env => exact h.commit hstep halone

theorem RaceRun.discardInv {s₀ : RaceState} (h₀ : ∀ i, s₀.threads i = .idle)
    (hrun : RaceRun DiscardAlone s₀ s) : DiscardInv s := by
  induction hrun with
  | refl =>
    refine ⟨fun i hi => ?_, fun i p hi => ?_⟩
    · rw [h₀ i] at hi
      cases hi
    · rw [h₀ i] at hi
      cases hi
  | tail _ hP hstep ih => exact raceStep_discardInv ih hP hstep

/-- In every run in which no reclaim of a bucket is committed between the two parts of a discard of
it, a discard makes its transaction on a bucket that waits for it, and a bucket that was allocated
stays so until a reclaim of it that is not part of a discard. -/
theorem discard_finds_need_discard {s₀ : RaceState} {act : RaceAct}
    (h₀ : ∀ i, s₀.threads i = .idle) (hrun : RaceRun DiscardAlone s₀ s)
    (hstep : raceStep s act = some s') :
    (∀ (i : ℕ) (env : CallEnv) (pos : KeyPosition) (m : DevMember), act = .commit i env →
      s.threads i = .reclaimWritable pos m true →
        ∃ a, s.fs.alloc.get pos.bucket = some a ∧ a.dataType = .needDiscard) ∧
    ∀ (p : BucketPos) (a : BchAllocV4), s.fs.alloc.get p = some a → a.dataType = .btree →
      s'.fs.alloc.get p ≠ some a →
        ∃ (i : ℕ) (env : CallEnv) (pos : KeyPosition) (m : DevMember), act = .commit i env ∧
          s.threads i = .reclaimWritable pos m false ∧ p = pos.bucket := by
  have hinv := hrun.discardInv h₀
  have hfinds : ∀ (i : ℕ) (pos : KeyPosition) (m : DevMember),
      s.threads i = .reclaimWritable pos m true →
        ∃ a, s.fs.alloc.get pos.bucket = some a ∧ a.dataType = .needDiscard := by
    intro i pos m hthread
    refine hinv.found i pos.bucket ?_
    rw [hthread]
    rfl
  refine ⟨fun i env pos m _ hthread => hfinds i pos m hthread, fun p a hget ha hne => ?_⟩
  rw [← hget] at hne
  rcases raceStep_get hstep hne with ⟨b, hgetb, hfree, -⟩ | ⟨i, env, rfl, hwrites⟩
  · rw [hget] at hgetb
    cases hgetb
    rw [ha] at hfree
    cases hfree
  · obtain ⟨pos, m, discard, hthread⟩ := (commitStep_effect hstep).writable
    rw [hthread] at hwrites
    cases hwrites
    cases discard with
    | false => exact ⟨i, env, pos, m, rfl, hthread, rfl⟩
    | true =>
      obtain ⟨b, hgetb, hb⟩ := hfinds i pos m hthread
      rw [hget] at hgetb
      cases hgetb
      rw [ha] at hb
      cases hb

/-- An engine with one bucket, which waits for its discard. -/
def discardEngine : RaceState where
  fs := (initBuckets bucketEngine [1]).empty ⟨0, 1⟩ {}

/-- The steps of a discard of this bucket up to its transaction. -/
def discardActs (i : ℕ) : List RaceAct :=
  [.discard i ⟨0, 1, 0⟩ 0, .check i, .check i, .resume i fun _ => 0, .check i, .check i]

/-- One discard. -/
theorem discard_finds_need_discard_one : ∃ s s' : RaceState,
    RaceRun DiscardAlone discardEngine s ∧ raceStep s (.commit 0 {}) = some s' ∧
    (∃ a, s.fs.alloc.get ⟨0, 1⟩ = some a ∧ a.dataType = .needDiscard) ∧
    (s'.fs.alloc.get ⟨0, 1⟩).map BchAllocV4.dataType = some .free := by
  obtain ⟨s, hs, s', hstep, hthread, hfree⟩ : ∃ s, raceActs discardEngine (discardActs 0) = some s ∧
      ∃ s', raceStep s (.commit 0 {}) = some s' ∧
        s.threads 0 = .reclaimWritable ⟨0, 1, 0⟩ bucketMember true ∧
        (s'.fs.alloc.get ⟨0, 1⟩).map BchAllocV4.dataType = some .free :=
    ⟨_, rfl, _, rfl, rfl, rfl⟩
  have hrun : RaceRun DiscardAlone discardEngine s := by
    refine raceActs_run .refl (fun act hact s => ?_) hs
    simp only [discardActs, List.mem_cons, List.not_mem_nil, or_false] at hact
    rcases hact with rfl | rfl | rfl | rfl | rfl | rfl <;> exact trivial
  exact ⟨s, s', hrun, hstep,
    (discard_finds_need_discard (fun _ => rfl) hrun hstep).1 0 {} ⟨0, 1, 0⟩ bucketMember rfl hthread,
    hfree⟩

/-- Two discards pass their checks; the second one frees the bucket, an allocation takes it, and the
first one turns the allocated bucket into one that waits for its discard. -/
theorem discard_finds_allocated : ∃ s s' : RaceState,
    RaceRun (fun _ _ => True) discardEngine s ∧ raceStep s (.commit 0 {}) = some s' ∧
    s.threads 0 = .reclaimWritable ⟨0, 1, 0⟩ bucketMember true ∧
    (s.fs.alloc.get ⟨0, 1⟩).map BchAllocV4.dataType = some .btree ∧
    (s'.fs.alloc.get ⟨0, 1⟩).map BchAllocV4.dataType = some .needDiscard := by
  obtain ⟨s, hs, s', hstep, hthread, hbtree, hdiscard⟩ : ∃ s,
      raceActs discardEngine ((discardActs 0).take 3 ++ discardActs 1 ++ [.commit 1 {}] ++
        [.allocate 0 {}] ++ (discardActs 0).drop 3) = some s ∧
      ∃ s', raceStep s (.commit 0 {}) = some s' ∧
        s.threads 0 = .reclaimWritable ⟨0, 1, 0⟩ bucketMember true ∧
        (s.fs.alloc.get ⟨0, 1⟩).map BchAllocV4.dataType = some .btree ∧
        (s'.fs.alloc.get ⟨0, 1⟩).map BchAllocV4.dataType = some .needDiscard :=
    ⟨_, rfl, _, rfl, rfl, rfl, rfl⟩
  exact ⟨s, s', raceActs_run .refl (fun _ _ _ => trivial) hs, hstep, hthread, hbtree, hdiscard⟩

end Discard

/-! ### Open buckets -/

/-- A reclaim that passed its check of the open buckets works on a bucket that is not open. -/
def ClosedInv (s : RaceState) : Prop :=
  ∀ i p, (s.threads i).closed = some p → p ∉ s.fs.openBuckets

namespace ClosedInv

variable {s s' : RaceState} {i : ℕ} {t : BucketThread}

theorem lock (h : ClosedInv s) (ht : ∀ p, t.closed = some p → p ∉ s.fs.openBuckets) :
    ClosedInv (s.lock i t) := by
  intro j p hj
  by_cases hji : j = i
  · rw [hji, s.lock_threads_self] at hj
    exact ht p hj
  · rw [s.lock_threads_of_ne i t hji] at hj
    exact h j p hj

theorem unlock (h : ClosedInv s) (ht : t.closed = none) : ClosedInv (s.unlock i t) :=
  h.lock (i := i) fun p hp => by rw [ht] at hp; cases hp

theorem enterReclaim (h : ClosedInv s) (pos : KeyPosition) (scan : ℕ → ℤ) (discard : Bool) :
    ClosedInv (enterReclaim s i pos scan discard) := by
  rw [Subvol.enterReclaim]
  split
  · exact h.unlock rfl
  · exact h.lock fun p hp => by cases hp

/-- The open buckets become fewer. -/
theorem keep (h : ClosedInv s) {c : BucketFs} (hopen : c.openBuckets ⊆ s.fs.openBuckets) :
    ClosedInv { s with fs := c } := fun j p hj hmem => h j p hj (hopen hmem)

end ClosedInv

theorem raceStep_closedInv {s s' : RaceState} (h : ClosedInv s) {act : RaceAct}
    (helsewhere : OpenElsewhere s act) (hstep : raceStep s act = some s') : ClosedInv s' := by
  cases act with
  | allocate dev env =>
    rw [raceStep] at hstep
    split_ifs at hstep
    obtain ⟨r, hr, rfl⟩ := Option.map_eq_some_iff.mp hstep
    exact h.keep (allocateBucket_effect hr).1.subset
  | openBucket pos =>
    cases hstep
    intro j p hj hmem
    rcases Finset.mem_insert.mp hmem with rfl | hmem
    · exact helsewhere j hj
    · exact h j p hj hmem
  | closeOpenBucket pos =>
    cases hstep
    exact h.keep (Finset.erase_subset _ _)
  | setDeviceRw dev rw =>
    cases hstep
    refine h.keep ?_
    rw [setDeviceRw]
    split_ifs <;> exact subset_rfl
  | discard i pos scan =>
    rw [raceStep] at hstep
    split_ifs at hstep
    split at hstep
    · cases hstep
      exact h
    · cases hstep
      exact h.lock fun p hp => by cases hp
  | reclaim i pos scan =>
    rw [raceStep] at hstep
    split_ifs at hstep
    cases hstep
    exact h.enterReclaim pos scan false
  | resume i scan =>
    rw [raceStep] at hstep
    split_ifs at hstep
    split at hstep
    · cases hstep
      exact h.enterReclaim _ scan true
    · cases hstep
  | check i =>
    obtain ⟨-, hcase⟩ := checkStep_cases hstep
    cases hcase with
    | refused => exact h.unlock rfl
    | released => exact h.unlock rfl
    | passed _ hclosed => exact h.lock fun p hp => (hclosed p hp).elim (h i p) id
  | commit i env =>
    obtain ⟨hunlock, hopen, -⟩ := commitStep_effect hstep
    rw [hunlock]
    exact (h.keep hopen.subset).unlock rfl

theorem RaceRun.closedInv {s₀ s : RaceState} (h₀ : ∀ i, s₀.threads i = .idle)
    (hrun : RaceRun OpenElsewhere s₀ s) : ClosedInv s := by
  induction hrun with
  | refl =>
    intro i p hi
    rw [h₀ i] at hi
    cases hi
  | tail _ hP hstep ih => exact raceStep_closedInv ih hP hstep

/-- In every run in which no bucket is opened between the check of a reclaim of it and its
transaction, no open bucket comes to need a discard or becomes free. -/
theorem reclaim_finds_closed {s₀ s s' : RaceState} {act : RaceAct}
    (h₀ : ∀ i, s₀.threads i = .idle) (hrun : RaceRun OpenElsewhere s₀ s)
    (hstep : raceStep s act = some s') :
    (∀ (i : ℕ) (env : CallEnv) (pos : KeyPosition) (m : DevMember) (discard : Bool),
      act = .commit i env → s.threads i = .reclaimWritable pos m discard →
        pos.bucket ∉ s.fs.openBuckets) ∧
    ∀ (p : BucketPos) (a b : BchAllocV4), s.fs.alloc.get p = some a → s'.fs.alloc.get p = some b →
      a.dataType ≠ b.dataType → (b.dataType = .needDiscard ∨ b.dataType = .free) →
        p ∉ s.fs.openBuckets := by
  have hinv := hrun.closedInv h₀
  have hclosed : ∀ (i : ℕ) (p : BucketPos), (s.threads i).writes = some p →
      p ∉ s.fs.openBuckets := by
    intro i p hwrites
    refine hinv i p ?_
    cases hthread : s.threads i with
    | reclaimWritable pos m discard =>
      rw [hthread] at hwrites
      exact hwrites
    | _ =>
      rw [hthread] at hwrites
      cases hwrites
  refine ⟨fun i env pos m discard _ hthread => hclosed i _ (by rw [hthread]; rfl),
    fun p a b hget hget' hne hb => ?_⟩
  have hchange : s'.fs.alloc.get p ≠ s.fs.alloc.get p := by
    rw [hget, hget']
    rintro heq
    cases heq
    exact hne rfl
  rcases raceStep_get hstep hchange with ⟨a', -, -, htaken⟩ | ⟨i, env, -, hwrites⟩
  · rw [hget'] at htaken
    cases htaken
    rcases hb with hb | hb <;> cases hb
  · exact hclosed i p hwrites

/-- The steps of a reclaim of the bucket up to its transaction. -/
def reclaimActs (i : ℕ) : List RaceAct :=
  [.reclaim i ⟨0, 1, 0⟩ fun _ => 0, .check i, .check i]

/-- One reclaim. -/
theorem reclaim_finds_closed_one : ∃ s s' : RaceState,
    RaceRun OpenElsewhere discardEngine s ∧ raceStep s (.commit 0 {}) = some s' ∧
    ⟨0, 1⟩ ∉ s.fs.openBuckets ∧
    (s'.fs.alloc.get ⟨0, 1⟩).map BchAllocV4.dataType = some .free := by
  obtain ⟨s, hs, s', hstep, hthread, hfree⟩ : ∃ s, raceActs discardEngine (reclaimActs 0) = some s ∧
      ∃ s', raceStep s (.commit 0 {}) = some s' ∧
        s.threads 0 = .reclaimWritable ⟨0, 1, 0⟩ bucketMember false ∧
        (s'.fs.alloc.get ⟨0, 1⟩).map BchAllocV4.dataType = some .free :=
    ⟨_, rfl, _, rfl, rfl, rfl⟩
  have hrun : RaceRun OpenElsewhere discardEngine s := by
    refine raceActs_run .refl (fun act hact s => ?_) hs
    simp only [reclaimActs, List.mem_cons, List.not_mem_nil, or_false] at hact
    rcases hact with rfl | rfl | rfl <;> exact trivial
  exact ⟨s, s', hrun, hstep,
    (reclaim_finds_closed (fun _ => rfl) hrun hstep).1 0 {} ⟨0, 1, 0⟩ bucketMember false rfl hthread,
    hfree⟩

/-- The bucket is opened behind the check of a reclaim, which then frees it. -/
theorem reclaim_frees_open : ∃ s s' : RaceState,
    RaceRun (fun _ _ => True) discardEngine s ∧ raceStep s (.commit 0 {}) = some s' ∧
    ⟨0, 1⟩ ∈ s.fs.openBuckets ∧ ⟨0, 1⟩ ∈ s'.fs.openBuckets ∧
    (s.fs.alloc.get ⟨0, 1⟩).map BchAllocV4.dataType = some .needDiscard ∧
    (s'.fs.alloc.get ⟨0, 1⟩).map BchAllocV4.dataType = some .free := by
  obtain ⟨s, hs, s', hstep, hopen, hopen', hdiscard, hfree⟩ : ∃ s,
      raceActs discardEngine (reclaimActs 0 ++ [.openBucket ⟨0, 1, 0⟩]) = some s ∧
      ∃ s', raceStep s (.commit 0 {}) = some s' ∧ ⟨0, 1⟩ ∈ s.fs.openBuckets ∧
        ⟨0, 1⟩ ∈ s'.fs.openBuckets ∧
        (s.fs.alloc.get ⟨0, 1⟩).map BchAllocV4.dataType = some .needDiscard ∧
        (s'.fs.alloc.get ⟨0, 1⟩).map BchAllocV4.dataType = some .free :=
    ⟨_, rfl, _, rfl, by decide, by decide, rfl, rfl⟩
  exact ⟨s, s', raceActs_run .refl (fun _ _ _ => trivial) hs, hstep, hopen, hopen', hdiscard, hfree⟩

end Subvol

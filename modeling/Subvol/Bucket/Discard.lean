import Mathlib.Data.Finset.Sort
import Subvol.Bucket.Race

/-!
# The discard queue

Buckets that wait for their discard stand in a queue, and in a set that also has the buckets that a
worker is busy with. A worker takes a bucket off the queue, calls `discard_bucket` and puts the
bucket back if the call returned `EAGAIN`; otherwise it takes it out of the set. Open buckets and
writable devices are looked at twice on the way, by `discard_bucket` and by `reclaim_bucket`, and
the two report them with different errors. A step is one critical section.

## Main definitions

* `DiscardCaller`, `DiscardThread`, `DiscardState`, `DiscardAct`, `discardStep`, `DiscardRun`.
* `DiscardCause`: why a discard ended.
* `QuietBetween`: no bucket is opened, and no device made read-only, between the two looks of a
  discard at it.

## Main results

* `discard_queue_kept`.
-/

namespace Subvol

open Lib

/-! ### Workers -/

/-- Who discards: `run_discard_worker_once`, or `run_discard_worker` with the turns that are left of
its round. -/
inductive DiscardCaller
  | once
  | pass (left : ℕ) (deferred : Bool)
deriving DecidableEq, Repr

/-- Why a discard ended. -/
inductive DiscardCause
  | finished
  | bucketOpen
  | deviceReadonly
  | notDurable
  | other
deriving DecidableEq, Repr

/-- The discard could not proceed now but may later. -/
def DiscardCause.waits : DiscardCause → Bool
  | bucketOpen => true
  | deviceReadonly => true
  | notDurable => true
  | _ => false

/-- Where a thread is. -/
inductive DiscardThread
  | idle
  | returned (pass : Bool) (ret : ℤ)
  | rounds
  | popping (w : DiscardCaller)
  | entering (p : BucketPos) (w : DiscardCaller)
  | keyChecked (p : BucketPos) (w : DiscardCaller)
  | openChecked (p : BucketPos) (w : DiscardCaller)
  | released (p : BucketPos) (w : DiscardCaller)
  | reclaimEntered (p : BucketPos) (m : DevMember) (w : DiscardCaller)
  | reclaimClosed (p : BucketPos) (m : DevMember) (w : DiscardCaller)
  | reclaimWritable (p : BucketPos) (m : DevMember) (w : DiscardCaller)
  | ending (p : BucketPos) (ret : ℤ) (cause : DiscardCause) (w : DiscardCaller)
  | discovered (positions : List BucketPos)

namespace DiscardThread

/-- The bucket that a thread is busy with. -/
def processes : DiscardThread → Option BucketPos
  | entering p _ => some p
  | keyChecked p _ => some p
  | openChecked p _ => some p
  | released p _ => some p
  | reclaimEntered p _ _ => some p
  | reclaimClosed p _ _ => some p
  | reclaimWritable p _ _ => some p
  | ending p _ _ _ => some p
  | _ => none

/-- The bucket that was found closed and will be looked at again. -/
def closed : DiscardThread → Option BucketPos
  | openChecked p _ => some p
  | released p _ => some p
  | reclaimEntered p _ _ => some p
  | _ => none

/-- The bucket whose device was found writable and will be looked at again. -/
def writable : DiscardThread → Option BucketPos
  | released p _ => some p
  | reclaimEntered p _ _ => some p
  | reclaimClosed p _ _ => some p
  | _ => none

end DiscardThread

structure DiscardState where
  fs : BucketFs
  holder : Option ℕ := none
  queue : List BucketPos := []
  inflight : Finset BucketPos := ∅
  threads : ℕ → DiscardThread := fun _ => .idle

namespace DiscardState

def setThread (s : DiscardState) (i : ℕ) (t : DiscardThread) : DiscardState :=
  { s with threads := Function.update s.threads i t }

/-- The thread goes on with the lock of the file system. -/
def lock (s : DiscardState) (i : ℕ) (t : DiscardThread) : DiscardState :=
  { s.setThread i t with holder := some i }

/-- The thread goes on and gives the lock back. -/
def unlock (s : DiscardState) (i : ℕ) (t : DiscardThread) : DiscardState :=
  { s.setThread i t with holder := none }

/-- `queue_discard_bucket`, and one turn of the loop of `discover_discard_buckets`. -/
def queueDiscardBucket (s : DiscardState) (p : BucketPos) : DiscardState :=
  if p ∈ s.inflight then s
  else { s with inflight := insert p s.inflight, queue := s.queue ++ [p] }

end DiscardState

/-- The position that a worker makes of an entry of the queue. -/
def KeyPosition.ofBucket (p : BucketPos) : KeyPosition := ⟨p.dev, p.offset, 0⟩

/-- The end of a turn of the inner loop of `run_discard_worker`. -/
def nextTurn (left : ℕ) (deferred : Bool) : DiscardThread :=
  match left with
  | 0 => if deferred then .returned true (-11) else .rounds
  | left + 1 => .popping (.pass left deferred)

/-- Where a caller goes on behind a discard that returned `ret`. -/
def DiscardCaller.resume (ret : ℤ) : DiscardCaller → DiscardThread
  | once => .returned false ret
  | pass left deferred =>
    if ret = -11 then nextTurn left true
    else if ret = 0 then nextTurn left deferred
    else .returned true ret

/-- Whether a bucket waits for its discard with a boundary that is not durable yet. -/
def notDurable (c : BucketFs) (p : BucketPos) : Bool :=
  match allocKeyAt c (.ofBucket p) with
  | some a => decide (a.dataType = .needDiscard ∧ a.journalSeqEmpty > c.lastSeqOndisk)
  | none => false

/-- Why `discard_bucket` returned an error from its look at the alloc key. -/
def keyCheckCause (scan : ℤ) (c : BucketFs) (p : BucketPos) : DiscardCause :=
  if p.dev < c.members.length ∧ scan = 0 ∧ notDurable c p then .notDurable else .other

/-- Why `reclaim_bucket` returned an error from its checks behind those of the open buckets and the
devices. -/
def reclaimCause (scan : ℕ → ℤ) (c : BucketFs) (m : DevMember) (p : BucketPos) : DiscardCause :=
  if bucketReferred c m p = false ∧ scan 4 = 0 ∧ notDurable c p ∧
      (∀ a ∈ allocKeyAt c (.ofBucket p), a.dirtySectors = 0 ∧ a.cachedSectors = 0)
  then .notDurable else .other

/-- The critical sections of a worker in `discard_bucket` and `reclaim_bucket`. -/
def workStep (s : DiscardState) (i : ℕ) (env : CallEnv) : Option DiscardState :=
  match s.threads i with
  | .entering p w =>
    if s.holder ≠ none then none
    else
      match discardKeyCheck (env.scan 4) s.fs (.ofBucket p) with
      | some err => some (s.setThread i (.ending p err (keyCheckCause (env.scan 4) s.fs p) w))
      | none => some (s.lock i (.keyChecked p w))
  | .keyChecked p w =>
    some (if p ∈ s.fs.openBuckets then s.unlock i (.ending p (-11) .bucketOpen w)
      else s.lock i (.openChecked p w))
  | .openChecked p w =>
    some (if p.dev ∉ s.fs.rwDevs then s.unlock i (.ending p (-11) .deviceReadonly w)
      else s.unlock i (.released p w))
  | .released p w =>
    if s.holder ≠ none then none
    else
      match reclaimMember env.scan s.fs (.ofBucket p) with
      | .error err => some (s.setThread i (.ending p err .other w))
      | .ok m => some (s.lock i (.reclaimEntered p m w))
  | .reclaimEntered p m w =>
    some (if p ∈ s.fs.openBuckets then s.unlock i (.ending p (-16) .bucketOpen w)
      else s.lock i (.reclaimClosed p m w))
  | .reclaimClosed p m w =>
    some (if p.dev ∉ s.fs.rwDevs then s.unlock i (.ending p (-16) .deviceReadonly w)
      else s.lock i (.reclaimWritable p m w))
  | .reclaimWritable p m w =>
    match reclaimLocked env.scan s.fs m (.ofBucket p) with
    | .error err => some (s.unlock i (.ending p err (reclaimCause env.scan s.fs m p) w))
    | .ok t =>
      match runTrans env s.fs t () with
      | none => none
      | some (.ok (), c) => some ({ s with fs := c }.unlock i (.ending p 0 .finished w))
      | some (.error err, c) => some ({ s with fs := c }.unlock i (.ending p err .other w))
  | _ => none

/-- The critical sections of a worker on the queue. -/
def queueStep (s : DiscardState) (i : ℕ) : Option DiscardState :=
  match s.threads i with
  | .rounds =>
    some (s.setThread i
      (if s.queue.length = 0 then .returned true 0 else nextTurn s.queue.length false))
  | .popping w =>
    match s.queue with
    | [] =>
      some (s.setThread i (match w with
        | .once => .returned false (-11)
        | .pass _ deferred => nextTurn 0 deferred))
    | p :: rest => some ({ s with queue := rest }.setThread i (.entering p w))
  | .ending p ret _ w =>
    some ((if ret = -11 then { s with queue := s.queue ++ [p] }
      else { s with inflight := s.inflight.erase p }).setThread i (w.resume ret))
  | .discovered positions =>
    some ((positions.foldl DiscardState.queueDiscardBucket s).setThread i .idle)
  | _ => none

inductive DiscardAct
  | queue (p : BucketPos)
  | openBucket (p : BucketPos)
  | closeOpenBucket (p : BucketPos)
  | setDeviceRw (dev : ℕ) (rw : Bool)
  | other (c : BucketFs)
  | start (i : ℕ) (pass : Bool)
  | discover (i : ℕ) (scan : ℤ)
  | work (i : ℕ) (env : CallEnv)
  | turn (i : ℕ)

/-- Whether a thread can begin a call. -/
def DiscardThread.rests : DiscardThread → Bool
  | idle => true
  | returned _ _ => true
  | _ => false

/-- One critical section; `none` if it cannot run now. Other operations that hold the lock of the
file system leave any trees and any boundary of the journal. -/
def discardStep (s : DiscardState) : DiscardAct → Option DiscardState
  | .queue p => some (s.queueDiscardBucket p)
  | .openBucket p =>
    some { s with fs := { s.fs with openBuckets := insert p s.fs.openBuckets } }
  | .closeOpenBucket p =>
    some { s with fs := { s.fs with openBuckets := s.fs.openBuckets.erase p } }
  | .setDeviceRw dev rw => some { s with fs := setDeviceRw s.fs dev rw }
  | .other c =>
    if s.holder ≠ none then none
    else some { s with
      fs := { c with openBuckets := s.fs.openBuckets, rwDevs := s.fs.rwDevs } }
  | .start i pass =>
    if (s.threads i).rests then
      some (s.setThread i (if pass then .rounds else .popping .once))
    else none
  | .discover i scan =>
    if s.holder = none ∧ (s.threads i).rests then
      if scan ≠ 0 then some s
      else some (s.setThread i (.discovered (s.fs.needDiscard.sort (· ≤ ·))))
    else none
  | .work i env => workStep s i env
  | .turn i => queueStep s i

/-- The runs whose critical sections satisfy `P` where they start. -/
inductive DiscardRun (P : DiscardState → DiscardAct → Prop) (s₀ : DiscardState) :
    DiscardState → Prop
  | refl : DiscardRun P s₀ s₀
  | tail {s s' : DiscardState} {act : DiscardAct} (hrun : DiscardRun P s₀ s) (hP : P s act)
      (hstep : discardStep s act = some s') : DiscardRun P s₀ s'

/-- No bucket is opened and no device made read-only between the two looks of a discard at it. -/
def QuietBetween (s : DiscardState) : DiscardAct → Prop
  | .openBucket p => ∀ i, (s.threads i).closed ≠ some p
  | .setDeviceRw dev rw => rw = false → (∀ b ∈ s.fs.openBuckets, b.dev ≠ dev) →
      ∀ i p, (s.threads i).writable = some p → p.dev ≠ dev
  | _ => True

/-! ### What a worker does -/

section Work

variable {s s' : DiscardState} {i : ℕ} {env : CallEnv}

/-- A discard that waits for the boundary of the journal returns `EAGAIN`. -/
theorem keyCheckCause_waits {scan err : ℤ} {c : BucketFs} {p : BucketPos}
    (h : discardKeyCheck scan c (.ofBucket p) = some err)
    (hcause : (keyCheckCause scan c p).waits = true) : err = -11 := by
  rw [keyCheckCause] at hcause
  split_ifs at hcause with hnot
  · obtain ⟨hdev, hscan, hdurable⟩ := hnot
    rw [notDurable] at hdurable
    split at hdurable
    · next a hkey =>
      obtain ⟨-, hseq⟩ := of_decide_eq_true hdurable
      have hdev' : ¬(KeyPosition.ofBucket p).inode ≥ c.members.length := Nat.not_le.mpr hdev
      rw [discardKeyCheck, if_neg hdev', if_neg (not_not.mpr hscan), hkey] at h
      dsimp only at h
      rw [if_pos (.inr hseq)] at h
      exact (Option.some.inj h).symm
    · cases hdurable
  · cases hcause

theorem reclaimCause_waits {scan : ℕ → ℤ} {err : ℤ} {c : BucketFs} {m : DevMember} {p : BucketPos}
    (h : reclaimLocked scan c m (.ofBucket p) = .error err)
    (hcause : (reclaimCause scan c m p).waits = true) : err = -11 := by
  rw [reclaimCause] at hcause
  split_ifs at hcause with hnot
  · obtain ⟨hreferred, hscan, hdurable, hsectors⟩ := hnot
    rw [notDurable] at hdurable
    split at hdurable
    · next a hkey =>
      obtain ⟨hdiscard, hseq⟩ := of_decide_eq_true hdurable
      obtain ⟨hdirty, hcached⟩ := hsectors a hkey
      have hreferred' : ¬bucketReferred c m (KeyPosition.ofBucket p).bucket = true := by
        have hbucket : (KeyPosition.ofBucket p).bucket = p := rfl
        rw [hbucket, hreferred]
        simp
      have hclean : ¬(a.dirtySectors ≠ 0 ∨ a.cachedSectors ≠ 0) := by
        rw [hdirty, hcached]
        simp
      rw [reclaimLocked, if_neg hreferred', if_neg (not_not.mpr hscan), hkey] at h
      dsimp only at h
      rw [if_neg hclean, if_pos ⟨hdiscard, hseq⟩] at h
      exact (Except.error.inj h).symm
    · cases hdurable
  · cases hcause

/-- The parts of the state that a critical section of a discard leaves as they are. -/
structure WorkFrame (s : DiscardState) (i : ℕ) (t : DiscardThread) (s' : DiscardState) : Prop where
  threads : s'.threads = Function.update s.threads i t
  queue : s'.queue = s.queue
  inflight : s'.inflight = s.inflight
  openBuckets : s'.fs.openBuckets = s.fs.openBuckets
  rwDevs : s'.fs.rwDevs = s.fs.rwDevs

/-- What a critical section of a discard can do. The thread stays busy with its bucket; it comes
behind a look at the open buckets or the devices that found nothing, or it ends, with `EAGAIN` unless
a second look found what the first one did not. -/
structure WorkEffect (s : DiscardState) (i : ℕ) (t : DiscardThread) (s' : DiscardState) : Prop
    extends WorkFrame s i t s' where
  processes : t.processes = (s.threads i).processes
  busy : t.processes ≠ none
  closed : ∀ p, t.closed = some p → (s.threads i).closed = some p ∨ p ∉ s.fs.openBuckets
  writable : ∀ p, t.writable = some p → (s.threads i).writable = some p ∨ p.dev ∈ s.fs.rwDevs
  ending : ∀ p ret cause w, t = .ending p ret cause w → cause.waits = true → ret = -11 ∨
    (s.threads i).closed = some p ∧ p ∈ s.fs.openBuckets ∨
    (s.threads i).writable = some p ∧ p.dev ∉ s.fs.rwDevs

theorem runTrans_frame {c c' : BucketFs} {m : DevMember} {scan : ℕ → ℤ} {p : BucketPos}
    {t : List BucketUpdate} {res : Except ℤ Unit}
    (hlocked : reclaimLocked scan c m (.ofBucket p) = .ok t)
    (hrun : runTrans env c t () = some (res, c')) :
    c'.openBuckets = c.openBuckets ∧ c'.rwDevs = c.rwDevs := by
  obtain ⟨a, w, hchange⟩ : ∃ a w, BucketChange c (KeyPosition.ofBucket p).bucket a t w := by
    obtain ⟨a, -, ⟨hne, rfl⟩ | ⟨hdiscard, hseq, rfl⟩⟩ := reclaimLocked_eq_ok hlocked
    · exact ⟨a, _, .empty hne⟩
    · exact ⟨a, _, .free hdiscard hseq⟩
  obtain ⟨hpartly, -⟩ := runTrans_get hchange hrun
  have hrw := congrArg BucketFs.rwDevs hpartly.frame
  exact ⟨hpartly.openBuckets, hrw⟩

theorem WorkEffect.ends {p : BucketPos} {ret : ℤ} {cause : DiscardCause} {w : DiscardCaller}
    (hframe : WorkFrame s i (.ending p ret cause w) s')
    (hproc : (s.threads i).processes = some p)
    (hend : cause.waits = true → ret = -11 ∨
      (s.threads i).closed = some p ∧ p ∈ s.fs.openBuckets ∨
      (s.threads i).writable = some p ∧ p.dev ∉ s.fs.rwDevs) :
    WorkEffect s i (.ending p ret cause w) s' := by
  refine ⟨hframe, hproc.symm, by simp [DiscardThread.processes], ?_, ?_, ?_⟩
  · intro q hq
    cases hq
  · intro q hq
    cases hq
  · rintro p' ret' cause' w' heq hwaits
    cases heq
    exact hend hwaits

theorem WorkEffect.goes {t : DiscardThread} {p : BucketPos} (hframe : WorkFrame s i t s')
    (hproc : (s.threads i).processes = some p) (ht : t.processes = some p)
    (hclosed : ∀ q, t.closed = some q → (s.threads i).closed = some q ∨ q ∉ s.fs.openBuckets)
    (hwritable : ∀ q, t.writable = some q →
      (s.threads i).writable = some q ∨ q.dev ∈ s.fs.rwDevs)
    (hend : ∀ p ret cause w, t ≠ .ending p ret cause w) : WorkEffect s i t s' := by
  refine ⟨hframe, ht.trans hproc.symm, by simp [ht], hclosed, hwritable, ?_⟩
  intro p ret cause w heq
  exact absurd heq (hend p ret cause w)

theorem workStep_effect (h : workStep s i env = some s') : ∃ t, WorkEffect s i t s' := by
  rw [workStep] at h
  cases hthread : s.threads i with
  | entering p w =>
    rw [hthread] at h
    dsimp only at h
    split_ifs at h with hholder
    split at h
    · next err herr =>
      cases h
      refine ⟨_, .ends ⟨rfl, rfl, rfl, rfl, rfl⟩ (by rw [hthread]; rfl) fun hwaits => ?_⟩
      exact .inl (keyCheckCause_waits herr hwaits)
    · cases h
      exact ⟨_, .goes ⟨rfl, rfl, rfl, rfl, rfl⟩ (by rw [hthread]; rfl) rfl (by nofun) (by nofun)
        (by nofun)⟩
  | keyChecked p w =>
    rw [hthread] at h
    dsimp only at h
    split_ifs at h with hopen
    · cases h
      exact ⟨_, .ends ⟨rfl, rfl, rfl, rfl, rfl⟩ (by rw [hthread]; rfl) fun _ => .inl rfl⟩
    · cases h
      refine ⟨_, .goes ⟨rfl, rfl, rfl, rfl, rfl⟩ (by rw [hthread]; rfl) rfl ?_ (by nofun)
        (by nofun)⟩
      rintro q ⟨⟩
      exact .inr hopen
  | openChecked p w =>
    rw [hthread] at h
    dsimp only at h
    split_ifs at h with hrw
    · cases h
      refine ⟨_, .goes ⟨rfl, rfl, rfl, rfl, rfl⟩ (by rw [hthread]; rfl) rfl ?_ ?_ (by nofun)⟩
      · rintro q ⟨⟩
        exact .inl (by rw [hthread]; rfl)
      · rintro q ⟨⟩
        exact .inr hrw
    · cases h
      exact ⟨_, .ends ⟨rfl, rfl, rfl, rfl, rfl⟩ (by rw [hthread]; rfl) fun _ => .inl rfl⟩
  | released p w =>
    rw [hthread] at h
    dsimp only at h
    split_ifs at h with hholder
    split at h
    · cases h
      exact ⟨_, .ends ⟨rfl, rfl, rfl, rfl, rfl⟩ (by rw [hthread]; rfl) (by nofun)⟩
    · cases h
      refine ⟨_, .goes ⟨rfl, rfl, rfl, rfl, rfl⟩ (by rw [hthread]; rfl) rfl ?_ ?_ (by nofun)⟩
      · rintro q ⟨⟩
        exact .inl (by rw [hthread]; rfl)
      · rintro q ⟨⟩
        exact .inl (by rw [hthread]; rfl)
  | reclaimEntered p m w =>
    rw [hthread] at h
    dsimp only at h
    split_ifs at h with hopen
    · cases h
      refine ⟨_, .ends ⟨rfl, rfl, rfl, rfl, rfl⟩ (by rw [hthread]; rfl) fun _ => ?_⟩
      exact .inr (.inl ⟨by rw [hthread]; rfl, hopen⟩)
    · cases h
      refine ⟨_, .goes ⟨rfl, rfl, rfl, rfl, rfl⟩ (by rw [hthread]; rfl) rfl (by nofun) ?_
        (by nofun)⟩
      rintro q ⟨⟩
      exact .inl (by rw [hthread]; rfl)
  | reclaimClosed p m w =>
    rw [hthread] at h
    dsimp only at h
    split_ifs at h with hrw
    · cases h
      exact ⟨_, .goes ⟨rfl, rfl, rfl, rfl, rfl⟩ (by rw [hthread]; rfl) rfl (by nofun) (by nofun)
        (by nofun)⟩
    · cases h
      refine ⟨_, .ends ⟨rfl, rfl, rfl, rfl, rfl⟩ (by rw [hthread]; rfl) fun _ => ?_⟩
      exact .inr (.inr ⟨by rw [hthread]; rfl, hrw⟩)
  | reclaimWritable p m w =>
    rw [hthread] at h
    dsimp only at h
    split at h
    · next err herr =>
      cases h
      refine ⟨_, .ends ⟨rfl, rfl, rfl, rfl, rfl⟩ (by rw [hthread]; rfl) fun hwaits => ?_⟩
      exact .inl (reclaimCause_waits herr hwaits)
    · next t hlocked =>
      split at h
      · cases h
      · next c hrun =>
        cases h
        obtain ⟨hopen, hrw⟩ := runTrans_frame hlocked hrun
        exact ⟨_, .ends ⟨rfl, rfl, rfl, hopen, hrw⟩ (by rw [hthread]; rfl) (by nofun)⟩
      · next err c hrun =>
        cases h
        obtain ⟨hopen, hrw⟩ := runTrans_frame hlocked hrun
        exact ⟨_, .ends ⟨rfl, rfl, rfl, hopen, hrw⟩ (by rw [hthread]; rfl) (by nofun)⟩
  | idle => rw [hthread] at h; cases h
  | returned pass ret => rw [hthread] at h; cases h
  | rounds => rw [hthread] at h; cases h
  | popping w => rw [hthread] at h; cases h
  | ending p ret cause w => rw [hthread] at h; cases h
  | discovered positions => rw [hthread] at h; cases h

end Work

/-! ### The queue and the set -/

/-- A bucket is once in the queue or with one worker, and these buckets are the ones in the set. -/
structure QueueInv (s : DiscardState) : Prop where
  nodup : s.queue.Nodup
  member : ∀ p, p ∈ s.inflight ↔ p ∈ s.queue ∨ ∃ i, (s.threads i).processes = some p
  apart : ∀ i p, (s.threads i).processes = some p → p ∉ s.queue
  alone : ∀ i j p, (s.threads i).processes = some p → (s.threads j).processes = some p → i = j

namespace QueueInv

variable {s s' : DiscardState} {i : ℕ} {p : BucketPos} {t : DiscardThread}

theorem keep (h : QueueInv s) (hqueue : s'.queue = s.queue) (hinflight : s'.inflight = s.inflight)
    (hthreads : ∀ j, (s'.threads j).processes = (s.threads j).processes) : QueueInv s' := by
  refine ⟨?_, ?_, ?_, ?_⟩
  · rw [hqueue]
    exact h.nodup
  · simpa only [hqueue, hinflight, hthreads] using h.member
  · simpa only [hqueue, hthreads] using h.apart
  · simpa only [hthreads] using h.alone

/-- The other threads stay busy with what they were. -/
theorem processes_update (hi : t.processes = (s.threads i).processes) (j : ℕ) :
    (Function.update s.threads i t j).processes = (s.threads j).processes := by
  by_cases hj : j = i
  · subst hj
    rw [Function.update_self]
    exact hi
  · rw [Function.update_of_ne hj]

theorem push (h : QueueInv s) (p : BucketPos) : QueueInv (s.queueDiscardBucket p) := by
  rw [DiscardState.queueDiscardBucket]
  split_ifs with hmem
  · exact h
  · have hfresh := (h.member p).not.mp hmem
    rw [not_or] at hfresh
    refine ⟨?_, ?_, ?_, h.alone⟩
    · exact List.nodup_append.mpr ⟨h.nodup, List.nodup_singleton p, fun a ha b hb hab => by
        rw [List.mem_singleton] at hb
        exact hfresh.1 (hb ▸ hab ▸ ha)⟩
    · intro q
      rw [Finset.mem_insert, h.member q, List.mem_append, List.mem_singleton]
      tauto
    · intro j q hq hmem'
      rcases List.mem_append.mp hmem' with hold | hnew
      · exact h.apart j q hq hold
      · obtain rfl := List.mem_singleton.mp hnew
        exact hfresh.2 ⟨j, hq⟩

theorem push_all (h : QueueInv s) (ps : List BucketPos) :
    QueueInv (ps.foldl DiscardState.queueDiscardBucket s) := by
  induction ps generalizing s with
  | nil => exact h
  | cons p ps ih => exact ih (h.push p)

theorem queueDiscardBucket_threads (s : DiscardState) (ps : List BucketPos) :
    (ps.foldl DiscardState.queueDiscardBucket s).threads = s.threads := by
  induction ps generalizing s with
  | nil => rfl
  | cons p ps ih =>
    rw [List.foldl_cons, ih, DiscardState.queueDiscardBucket]
    split_ifs
    · rfl
    · rfl

theorem queueDiscardBucket_fs (s : DiscardState) (ps : List BucketPos) :
    (ps.foldl DiscardState.queueDiscardBucket s).fs = s.fs := by
  induction ps generalizing s with
  | nil => rfl
  | cons p ps ih =>
    rw [List.foldl_cons, ih, DiscardState.queueDiscardBucket]
    split_ifs
    · rfl
    · rfl

/-- A worker takes the first bucket. -/
theorem pop (h : QueueInv s) {rest : List BucketPos} (hqueue : s.queue = p :: rest)
    (hidle : (s.threads i).processes = none) (ht : t.processes = some p) :
    QueueInv ({ s with queue := rest }.setThread i t) := by
  have hnodup := h.nodup
  rw [hqueue, List.nodup_cons] at hnodup
  have hbusy : ∀ j q, (Function.update s.threads i t j).processes = some q →
      j = i ∧ q = p ∨ j ≠ i ∧ (s.threads j).processes = some q := by
    intro j q hq
    by_cases hj : j = i
    · subst hj
      rw [Function.update_self, ht] at hq
      exact .inl ⟨rfl, (Option.some.inj hq).symm⟩
    · rw [Function.update_of_ne hj] at hq
      exact .inr ⟨hj, hq⟩
  have hhead : p ∈ s.queue := by simp [hqueue]
  refine ⟨hnodup.2, ?_, ?_, ?_⟩
  · intro q
    change q ∈ s.inflight ↔ q ∈ rest ∨ ∃ j, (Function.update s.threads i t j).processes = some q
    rw [h.member q, hqueue, List.mem_cons]
    constructor
    · rintro ((rfl | hq) | ⟨j, hj⟩)
      · exact .inr ⟨i, by rw [Function.update_self, ht]⟩
      · exact .inl hq
      · refine .inr ⟨j, ?_⟩
        have hne : j ≠ i := by
          rintro rfl
          rw [hidle] at hj
          cases hj
        rw [Function.update_of_ne hne, hj]
    · rintro (hq | ⟨j, hj⟩)
      · exact .inl (.inr hq)
      · rcases hbusy j q hj with ⟨-, rfl⟩ | ⟨-, hold⟩
        · exact .inl (.inl rfl)
        · exact .inr ⟨j, hold⟩
  · intro j q hq hmem
    change q ∈ rest at hmem
    rcases hbusy j q hq with ⟨-, rfl⟩ | ⟨-, hold⟩
    · exact hnodup.1 hmem
    · exact h.apart j q hold (by simp [hqueue, hmem])
  · intro j k q hj hk
    rcases hbusy j q hj with ⟨rfl, rfl⟩ | ⟨hji, hold⟩
    · rcases hbusy k q hk with ⟨rfl, -⟩ | ⟨-, hold'⟩
      · rfl
      · exact absurd hhead (h.apart k q hold')
    · rcases hbusy k q hk with ⟨rfl, rfl⟩ | ⟨-, hold'⟩
      · exact absurd hhead (h.apart j q hold)
      · exact h.alone j k q hold hold'

/-- The buckets of the other threads, behind a worker that is done with its own. -/
theorem busy_of_update (h : QueueInv s) (hbusy : (s.threads i).processes = some p)
    (ht : t.processes = none) (q : BucketPos) :
    (∃ j, (Function.update s.threads i t j).processes = some q) ↔
      q ≠ p ∧ ∃ j, (s.threads j).processes = some q := by
  constructor
  · rintro ⟨j, hj⟩
    have hne : j ≠ i := by
      rintro rfl
      rw [Function.update_self, ht] at hj
      cases hj
    rw [Function.update_of_ne hne] at hj
    refine ⟨?_, j, hj⟩
    rintro rfl
    exact hne (h.alone j i q hj hbusy)
  · rintro ⟨hq, j, hj⟩
    have hne : j ≠ i := by
      rintro rfl
      rw [hbusy] at hj
      exact hq (Option.some.inj hj).symm
    exact ⟨j, by rw [Function.update_of_ne hne, hj]⟩

theorem alone_update (h : QueueInv s) (ht : t.processes = none) (j k : ℕ) (q : BucketPos)
    (hj : (Function.update s.threads i t j).processes = some q)
    (hk : (Function.update s.threads i t k).processes = some q) : j = k := by
  have hold : ∀ l, (Function.update s.threads i t l).processes = some q →
      (s.threads l).processes = some q := by
    intro l hl
    by_cases hli : l = i
    · subst hli
      rw [Function.update_self, ht] at hl
      cases hl
    · rwa [Function.update_of_ne hli] at hl
  exact h.alone j k q (hold j hj) (hold k hk)

/-- A worker puts its bucket back. -/
theorem requeue (h : QueueInv s) (hbusy : (s.threads i).processes = some p)
    (ht : t.processes = none) :
    QueueInv ({ s with queue := s.queue ++ [p] }.setThread i t) := by
  have hapart := h.apart i p hbusy
  have hothers := h.busy_of_update hbusy ht
  refine ⟨?_, ?_, ?_, h.alone_update ht⟩
  · exact List.nodup_append.mpr ⟨h.nodup, List.nodup_singleton p, fun a ha b hb hab => by
      rw [List.mem_singleton] at hb
      exact hapart (hb ▸ hab ▸ ha)⟩
  · intro q
    change q ∈ s.inflight ↔ q ∈ s.queue ++ [p] ∨
      ∃ j, (Function.update s.threads i t j).processes = some q
    rw [hothers q, h.member q, List.mem_append, List.mem_singleton]
    by_cases hq : q = p
    · subst hq
      exact iff_of_true (.inr ⟨i, hbusy⟩) (.inl (.inr rfl))
    · simp [hq]
  · intro j q hq hmem
    change q ∈ s.queue ++ [p] at hmem
    obtain ⟨hne, k, hk⟩ := (hothers q).mp ⟨j, hq⟩
    rcases List.mem_append.mp hmem with hold | hnew
    · exact h.apart k q hk hold
    · exact hne (List.mem_singleton.mp hnew)

/-- A worker is done with its bucket. -/
theorem finish (h : QueueInv s) (hbusy : (s.threads i).processes = some p)
    (ht : t.processes = none) :
    QueueInv ({ s with inflight := s.inflight.erase p }.setThread i t) := by
  have hapart := h.apart i p hbusy
  have hothers := h.busy_of_update hbusy ht
  refine ⟨h.nodup, ?_, ?_, h.alone_update ht⟩
  · intro q
    change q ∈ s.inflight.erase p ↔ q ∈ s.queue ∨
      ∃ j, (Function.update s.threads i t j).processes = some q
    rw [hothers q, Finset.mem_erase, h.member q]
    constructor
    · rintro ⟨hne, hq | hq⟩
      · exact .inl hq
      · exact .inr ⟨hne, hq⟩
    · rintro (hq | ⟨hne, hq⟩)
      · exact ⟨fun heq => hapart (heq ▸ hq), .inl hq⟩
      · exact ⟨hne, .inr hq⟩
  · intro j q hq
    obtain ⟨-, k, hk⟩ := (hothers q).mp ⟨j, hq⟩
    exact h.apart k q hk

end QueueInv

/-! ### Steps on the queue -/

theorem DiscardThread.processes_of_closed {t : DiscardThread} {p : BucketPos}
    (h : t.closed = some p) : t.processes = some p := by
  cases t <;> first | exact h | cases h

theorem DiscardThread.processes_of_writable {t : DiscardThread} {p : BucketPos}
    (h : t.writable = some p) : t.processes = some p := by
  cases t <;> first | exact h | cases h

theorem DiscardThread.processes_of_rests {t : DiscardThread} (h : t.rests = true) :
    t.processes = none := by
  cases t <;> first | rfl | cases h

@[simp] theorem nextTurn_processes (left : ℕ) (deferred : Bool) :
    (nextTurn left deferred).processes = none := by
  cases left with
  | zero =>
    rw [nextTurn]
    split_ifs <;> rfl
  | succ left => rfl

theorem nextTurn_ne (left : ℕ) (deferred : Bool) : nextTurn left deferred ≠ .returned true 0 := by
  cases left with
  | zero =>
    rw [nextTurn]
    split_ifs <;> simp
  | succ left => simp [nextTurn]

@[simp] theorem DiscardCaller.resume_processes (ret : ℤ) (w : DiscardCaller) :
    (w.resume ret).processes = none := by
  cases w with
  | once => rfl
  | pass left deferred =>
    rw [resume]
    split_ifs
    · exact nextTurn_processes ..
    · exact nextTurn_processes ..
    · rfl

theorem DiscardCaller.resume_ne (ret : ℤ) (w : DiscardCaller) :
    w.resume ret ≠ .returned true 0 := by
  cases w with
  | once => simp [resume]
  | pass left deferred =>
    rw [resume]
    split_ifs with hagain hzero
    · exact nextTurn_ne left true
    · exact nextTurn_ne left deferred
    · simpa using hzero

/-- What a critical section on the queue can do. -/
inductive QueueCase (s : DiscardState) (i : ℕ) : DiscardState → Prop
  | turns {t : DiscardThread} (hidle : (s.threads i).processes = none) (ht : t.processes = none)
      (hok : t = .returned true 0 → s.queue = []) : QueueCase s i (s.setThread i t)
  | pops {p : BucketPos} {rest : List BucketPos} {w : DiscardCaller}
      (hthread : s.threads i = .popping w) (hqueue : s.queue = p :: rest) :
      QueueCase s i ({ s with queue := rest }.setThread i (.entering p w))
  | requeues {p : BucketPos} {cause : DiscardCause} {w : DiscardCaller}
      (hthread : s.threads i = .ending p (-11) cause w) :
      QueueCase s i ({ s with queue := s.queue ++ [p] }.setThread i (w.resume (-11)))
  | finishes {p : BucketPos} {ret : ℤ} {cause : DiscardCause} {w : DiscardCaller}
      (hthread : s.threads i = .ending p ret cause w) (hret : ret ≠ -11) :
      QueueCase s i ({ s with inflight := s.inflight.erase p }.setThread i (w.resume ret))
  | discovers {ps : List BucketPos} (hthread : s.threads i = .discovered ps) :
      QueueCase s i ((ps.foldl DiscardState.queueDiscardBucket s).setThread i .idle)

theorem queueStep_cases {s s' : DiscardState} {i : ℕ} (h : queueStep s i = some s') :
    QueueCase s i s' := by
  rw [queueStep] at h
  split at h
  · next hthread =>
    cases h
    refine .turns (by rw [hthread]; rfl) ?_ ?_
    · split_ifs
      · rfl
      · exact nextTurn_processes ..
    · intro heq
      split_ifs at heq with hempty
      · exact List.length_eq_zero_iff.mp hempty
      · exact absurd heq (nextTurn_ne _ _)
  · next w hthread =>
    split at h
    · next hqueue =>
      cases h
      refine .turns (by rw [hthread]; rfl) ?_ fun _ => hqueue
      split
      · rfl
      · exact nextTurn_processes ..
    · next p rest hqueue =>
      cases h
      exact .pops hthread hqueue
  · next p ret cause w hthread =>
    cases h
    split_ifs with hret
    · subst hret
      exact .requeues hthread
    · exact .finishes hthread hret
  · next ps hthread =>
    cases h
    exact .discovers hthread
  · cases h

theorem queueInv_step {s s' : DiscardState} (h : QueueInv s) {act : DiscardAct}
    (hstep : discardStep s act = some s') : QueueInv s' := by
  cases act with
  | queue p =>
    cases hstep
    exact h.push p
  | openBucket p =>
    cases hstep
    exact h.keep rfl rfl fun _ => rfl
  | closeOpenBucket p =>
    cases hstep
    exact h.keep rfl rfl fun _ => rfl
  | setDeviceRw dev rw =>
    cases hstep
    exact h.keep rfl rfl fun _ => rfl
  | other c =>
    rw [discardStep] at hstep
    split_ifs at hstep
    cases hstep
    exact h.keep rfl rfl fun _ => rfl
  | start i pass =>
    rw [discardStep] at hstep
    by_cases hrests : (s.threads i).rests
    · rw [if_pos hrests] at hstep
      cases hstep
      refine h.keep rfl rfl (QueueInv.processes_update ?_)
      rw [DiscardThread.processes_of_rests hrests]
      split_ifs <;> rfl
    · rw [if_neg hrests] at hstep
      cases hstep
  | discover i scan =>
    rw [discardStep] at hstep
    split_ifs at hstep with hrests hscan
    · cases hstep
      exact h
    · cases hstep
      refine h.keep rfl rfl (QueueInv.processes_update ?_)
      rw [DiscardThread.processes_of_rests hrests.2]
      rfl
  | work i env =>
    obtain ⟨t, heffect⟩ := workStep_effect hstep
    refine h.keep heffect.queue heffect.inflight fun j => ?_
    rw [heffect.threads]
    exact QueueInv.processes_update heffect.processes j
  | turn i =>
    cases queueStep_cases hstep with
    | turns hidle ht => exact h.keep rfl rfl (QueueInv.processes_update (ht.trans hidle.symm))
    | pops hthread hqueue => exact h.pop hqueue (by rw [hthread]; rfl) rfl
    | requeues hthread => exact h.requeue (by rw [hthread]; rfl) (DiscardCaller.resume_processes ..)
    | finishes hthread => exact h.finish (by rw [hthread]; rfl) (DiscardCaller.resume_processes ..)
    | @discovers ps hthread =>
      refine (h.push_all ps).keep rfl rfl (QueueInv.processes_update ?_)
      rw [QueueInv.queueDiscardBucket_threads, hthread]
      rfl

/-! ### The two looks of a discard -/

/-- What a discard found at its first look is still so at its second, and no discard that may succeed
later ends with anything but `EAGAIN`. -/
structure CheckedInv (s : DiscardState) : Prop where
  closed : ∀ i p, (s.threads i).closed = some p → p ∉ s.fs.openBuckets
  writable : ∀ i p, (s.threads i).writable = some p → p.dev ∈ s.fs.rwDevs
  ending : ∀ i p ret cause w, s.threads i = .ending p ret cause w → cause.waits = true → ret = -11

namespace CheckedInv

variable {s s' : DiscardState} {i : ℕ} {t : DiscardThread}

theorem keep (h : CheckedInv s) (hthreads : s'.threads = s.threads)
    (hopen : s'.fs.openBuckets = s.fs.openBuckets) (hrw : s'.fs.rwDevs = s.fs.rwDevs) :
    CheckedInv s' := by
  refine ⟨?_, ?_, ?_⟩
  · simpa only [hthreads, hopen] using h.closed
  · simpa only [hthreads, hrw] using h.writable
  · simpa only [hthreads] using h.ending

theorem update (h : CheckedInv s) (hthreads : s'.threads = Function.update s.threads i t)
    (hopen : s'.fs.openBuckets = s.fs.openBuckets) (hrw : s'.fs.rwDevs = s.fs.rwDevs)
    (hclosed : ∀ p, t.closed = some p → p ∉ s.fs.openBuckets)
    (hwritable : ∀ p, t.writable = some p → p.dev ∈ s.fs.rwDevs)
    (hending : ∀ p ret cause w, t = .ending p ret cause w → cause.waits = true → ret = -11) :
    CheckedInv s' := by
  refine ⟨?_, ?_, ?_⟩
  · intro j p hj
    rw [hthreads] at hj
    rw [hopen]
    by_cases hji : j = i
    · subst hji
      rw [Function.update_self] at hj
      exact hclosed p hj
    · rw [Function.update_of_ne hji] at hj
      exact h.closed j p hj
  · intro j p hj
    rw [hthreads] at hj
    rw [hrw]
    by_cases hji : j = i
    · subst hji
      rw [Function.update_self] at hj
      exact hwritable p hj
    · rw [Function.update_of_ne hji] at hj
      exact h.writable j p hj
  · intro j p ret cause w hj
    rw [hthreads] at hj
    by_cases hji : j = i
    · subst hji
      rw [Function.update_self] at hj
      exact hending p ret cause w hj
    · rw [Function.update_of_ne hji] at hj
      exact h.ending j p ret cause w hj

/-- The thread is behind its discard, or before it. -/
theorem rest (h : CheckedInv s) (hthreads : s'.threads = Function.update s.threads i t)
    (hopen : s'.fs.openBuckets = s.fs.openBuckets) (hrw : s'.fs.rwDevs = s.fs.rwDevs)
    (ht : t.processes = none ∨ ∃ p w, t = .entering p w) : CheckedInv s' := by
  rcases ht with ht | ⟨p, w, rfl⟩
  · refine h.update hthreads hopen hrw ?_ ?_ ?_
    · intro p hp
      rw [DiscardThread.processes_of_closed hp] at ht
      cases ht
    · intro p hp
      rw [DiscardThread.processes_of_writable hp] at ht
      cases ht
    · rintro p ret cause w rfl
      cases ht
  · exact h.update hthreads hopen hrw (by nofun) (by nofun) (by nofun)

theorem work (h : CheckedInv s) (heffect : WorkEffect s i t s') : CheckedInv s' := by
  refine h.update heffect.threads heffect.openBuckets heffect.rwDevs ?_ ?_ ?_
  · intro p hp
    rcases heffect.closed p hp with hold | hnew
    · exact h.closed i p hold
    · exact hnew
  · intro p hp
    rcases heffect.writable p hp with hold | hnew
    · exact h.writable i p hold
    · exact hnew
  · intro p ret cause w heq hwaits
    rcases heffect.ending p ret cause w heq hwaits with hret | ⟨hold, hopen⟩ | ⟨hold, hrw⟩
    · exact hret
    · exact absurd hopen (h.closed i p hold)
    · exact absurd (h.writable i p hold) hrw

theorem setDeviceRw (h : CheckedInv s) {dev : ℕ} {rw : Bool}
    (hquiet : QuietBetween s (.setDeviceRw dev rw)) :
    CheckedInv { s with fs := setDeviceRw s.fs dev rw } := by
  rw [Subvol.setDeviceRw]
  split_ifs with hrw hopen
  · refine ⟨h.closed, ?_, h.ending⟩
    intro j p hj
    exact Finset.mem_insert_of_mem (h.writable j p hj)
  · exact h
  · have hnone : ∀ b ∈ s.fs.openBuckets, b.dev ≠ dev := fun b hb hdev => hopen ⟨b, hb, hdev⟩
    refine ⟨h.closed, ?_, h.ending⟩
    intro j p hj
    refine Finset.mem_erase.mpr ⟨?_, h.writable j p hj⟩
    exact hquiet (Bool.eq_false_of_not_eq_true hrw) hnone j p hj

end CheckedInv

theorem checkedInv_step {s s' : DiscardState} (h : CheckedInv s) {act : DiscardAct}
    (hquiet : QuietBetween s act) (hstep : discardStep s act = some s') : CheckedInv s' := by
  cases act with
  | queue p =>
    cases hstep
    rw [DiscardState.queueDiscardBucket]
    split_ifs
    · exact h
    · exact h.keep rfl rfl rfl
  | openBucket p =>
    cases hstep
    refine ⟨?_, h.writable, h.ending⟩
    intro j q hj hmem
    rcases Finset.mem_insert.mp hmem with rfl | hold
    · exact hquiet j hj
    · exact h.closed j q hj hold
  | closeOpenBucket p =>
    cases hstep
    refine ⟨?_, h.writable, h.ending⟩
    intro j q hj hmem
    exact h.closed j q hj (Finset.mem_of_mem_erase hmem)
  | setDeviceRw dev rw =>
    cases hstep
    exact h.setDeviceRw hquiet
  | other c =>
    rw [discardStep] at hstep
    split_ifs at hstep
    cases hstep
    exact h.keep rfl rfl rfl
  | start i pass =>
    rw [discardStep] at hstep
    by_cases hrests : (s.threads i).rests
    · rw [if_pos hrests] at hstep
      cases hstep
      refine h.rest rfl rfl rfl (.inl ?_)
      split_ifs <;> rfl
    · rw [if_neg hrests] at hstep
      cases hstep
  | discover i scan =>
    rw [discardStep] at hstep
    split_ifs at hstep with hrests hscan
    · cases hstep
      exact h
    · cases hstep
      exact h.rest rfl rfl rfl (.inl rfl)
  | work i env =>
    obtain ⟨t, heffect⟩ := workStep_effect hstep
    exact h.work heffect
  | turn i =>
    cases queueStep_cases hstep with
    | turns hidle ht => exact h.rest rfl rfl rfl (.inl ht)
    | pops hthread hqueue => exact h.rest rfl rfl rfl (.inr ⟨_, _, rfl⟩)
    | requeues hthread => exact h.rest rfl rfl rfl (.inl (DiscardCaller.resume_processes ..))
    | finishes hthread => exact h.rest rfl rfl rfl (.inl (DiscardCaller.resume_processes ..))
    | @discovers ps hthread =>
      have hpush : CheckedInv (ps.foldl DiscardState.queueDiscardBucket s) := by
        refine h.keep (QueueInv.queueDiscardBucket_threads s ps) ?_ ?_
        · rw [QueueInv.queueDiscardBucket_fs]
        · rw [QueueInv.queueDiscardBucket_fs]
      exact hpush.rest rfl rfl rfl (.inl rfl)

/-! ### Runs -/

/-- The thread of a critical section. -/
def DiscardAct.thread : DiscardAct → Option ℕ
  | start i _ => some i
  | discover i _ => some i
  | work i _ => some i
  | turn i => some i
  | _ => none

/-- A critical section leaves the other threads where they are. -/
theorem discardStep_threads {s s' : DiscardState} {act : DiscardAct}
    (hstep : discardStep s act = some s') {j : ℕ} (hj : act.thread ≠ some j) :
    s'.threads j = s.threads j := by
  cases act with
  | queue p =>
    cases hstep
    rw [DiscardState.queueDiscardBucket]
    split_ifs <;> rfl
  | openBucket p => cases hstep; rfl
  | closeOpenBucket p => cases hstep; rfl
  | setDeviceRw dev rw => cases hstep; rfl
  | other c =>
    rw [discardStep] at hstep
    split_ifs at hstep
    cases hstep
    rfl
  | start i pass =>
    have hne : j ≠ i := fun heq => hj (congrArg some heq.symm)
    rw [discardStep] at hstep
    by_cases hrests : (s.threads i).rests
    · rw [if_pos hrests] at hstep
      cases hstep
      exact Function.update_of_ne hne ..
    · rw [if_neg hrests] at hstep
      cases hstep
  | discover i scan =>
    have hne : j ≠ i := fun heq => hj (congrArg some heq.symm)
    rw [discardStep] at hstep
    split_ifs at hstep with hrests hscan
    · cases hstep
      rfl
    · cases hstep
      exact Function.update_of_ne hne ..
  | work i env =>
    have hne : j ≠ i := fun heq => hj (congrArg some heq.symm)
    obtain ⟨t, heffect⟩ := workStep_effect hstep
    rw [heffect.threads]
    exact Function.update_of_ne hne ..
  | turn i =>
    have hne : j ≠ i := fun heq => hj (congrArg some heq.symm)
    cases queueStep_cases hstep with
    | turns hidle ht => exact Function.update_of_ne hne ..
    | pops hthread hqueue => exact Function.update_of_ne hne ..
    | requeues hthread => exact Function.update_of_ne hne ..
    | finishes hthread => exact Function.update_of_ne hne ..
    | @discovers ps hthread =>
      have hthreads := QueueInv.queueDiscardBucket_threads s ps
      exact (Function.update_of_ne hne ..).trans (congrFun hthreads j)

/-- `run_discard_worker` returns without an error only where it finds the queue empty. -/
theorem discardStep_returned {s s' : DiscardState} {act : DiscardAct}
    (hstep : discardStep s act = some s') {i : ℕ} (hbefore : s.threads i ≠ .returned true 0)
    (hafter : s'.threads i = .returned true 0) : s.queue = [] := by
  by_cases hthread : act.thread = some i
  · cases act with
    | queue p => cases hthread
    | openBucket p => cases hthread
    | closeOpenBucket p => cases hthread
    | setDeviceRw dev rw => cases hthread
    | other c => cases hthread
    | start j pass =>
      cases hthread
      rw [discardStep] at hstep
      by_cases hrests : (s.threads i).rests
      · rw [if_pos hrests] at hstep
        cases hstep
        simp only [DiscardState.setThread, Function.update_self] at hafter
        split_ifs at hafter
      · rw [if_neg hrests] at hstep
        cases hstep
    | discover j scan =>
      cases hthread
      rw [discardStep] at hstep
      split_ifs at hstep with hrests hscan
      · cases hstep
        exact absurd hafter hbefore
      · cases hstep
        simp [DiscardState.setThread] at hafter
    | work j env =>
      cases hthread
      obtain ⟨t, heffect⟩ := workStep_effect hstep
      rw [heffect.threads, Function.update_self] at hafter
      exact absurd (by rw [hafter]; rfl) heffect.busy
    | turn j =>
      cases hthread
      cases queueStep_cases hstep with
      | turns hidle ht hok =>
        simp only [DiscardState.setThread, Function.update_self] at hafter
        exact hok hafter
      | pops hpop hqueue => simp [DiscardState.setThread] at hafter
      | requeues hend =>
        simp only [DiscardState.setThread, Function.update_self] at hafter
        exact absurd hafter (DiscardCaller.resume_ne _ _)
      | finishes hend hret =>
        simp only [DiscardState.setThread, Function.update_self] at hafter
        exact absurd hafter (DiscardCaller.resume_ne _ _)
      | discovers hfound => simp [DiscardState.setThread] at hafter
  · rw [discardStep_threads hstep hthread] at hafter
    exact absurd hafter hbefore

/-- A discard that ended with `EAGAIN` puts its bucket back. -/
theorem discardStep_requeues {s s' : DiscardState} (h : QueueInv s) {act : DiscardAct}
    (hstep : discardStep s act = some s') {i : ℕ} {p : BucketPos} {cause : DiscardCause}
    {w : DiscardCaller} (hending : s.threads i = .ending p (-11) cause w) :
    s'.threads i = .ending p (-11) cause w ∨ p ∈ s'.queue ∧ p ∈ s'.inflight := by
  by_cases hthread : act.thread = some i
  · cases act with
    | queue q => cases hthread
    | openBucket q => cases hthread
    | closeOpenBucket q => cases hthread
    | setDeviceRw dev rw => cases hthread
    | other c => cases hthread
    | start j pass =>
      cases hthread
      rw [discardStep, hending] at hstep
      cases hstep
    | discover j scan =>
      cases hthread
      rw [discardStep, hending] at hstep
      simp [DiscardThread.rests] at hstep
    | work j env =>
      cases hthread
      rw [discardStep, workStep, hending] at hstep
      cases hstep
    | turn j =>
      cases hthread
      rw [discardStep, queueStep, hending] at hstep
      cases hstep
      refine .inr ⟨List.mem_append_right _ (List.mem_singleton_self p), ?_⟩
      exact (h.member p).mpr (.inr ⟨i, by rw [hending]; rfl⟩)
  · rw [discardStep_threads hstep hthread]
    exact .inl hending

/-- In a run where no bucket is opened and no device made read-only between the two looks of a
discard at it: the queue has no bucket twice, the set is the queue and the buckets that workers are
busy with, `run_discard_worker` returns without an error only where the queue is empty, and a bucket
whose discard may succeed later goes back to the queue. -/
theorem discard_queue_kept {s₀ s : DiscardState} (hidle : ∀ i, s₀.threads i = .idle)
    (hqueue : s₀.queue = []) (hinflight : s₀.inflight = ∅)
    (hrun : DiscardRun QuietBetween s₀ s) :
    s.queue.Nodup ∧
    (∀ p, p ∈ s.inflight ↔ p ∈ s.queue ∨ ∃ i, (s.threads i).processes = some p) ∧
    ∀ act s', discardStep s act = some s' →
      (∀ i, s.threads i ≠ .returned true 0 → s'.threads i = .returned true 0 → s.queue = []) ∧
      ∀ i p ret cause w, s.threads i = .ending p ret cause w → cause.waits = true →
        s'.threads i = .ending p ret cause w ∨ p ∈ s'.queue ∧ p ∈ s'.inflight := by
  have hinv : QueueInv s ∧ CheckedInv s := by
    induction hrun with
    | refl =>
      refine ⟨⟨?_, ?_, ?_, ?_⟩, ⟨?_, ?_, ?_⟩⟩
      · simp [hqueue]
      · simp [hqueue, hinflight, hidle, DiscardThread.processes]
      · simp [hidle, DiscardThread.processes]
      · simp [hidle, DiscardThread.processes]
      · simp [hidle, DiscardThread.closed]
      · simp [hidle, DiscardThread.writable]
      · simp [hidle]
    | tail _ hP hstep ih => exact ⟨queueInv_step ih.1 hstep, checkedInv_step ih.2 hP hstep⟩
  obtain ⟨hqueueInv, hchecked⟩ := hinv
  refine ⟨hqueueInv.nodup, hqueueInv.member, fun act s' hstep => ⟨?_, ?_⟩⟩
  · intro i hbefore hafter
    exact discardStep_returned hstep hbefore hafter
  · intro i p ret cause w hending hwaits
    obtain rfl := hchecked.ending i p ret cause w hending hwaits
    exact discardStep_requeues hqueueInv hstep hending

/-- Critical sections one after another. -/
def discardSteps (s : DiscardState) : List DiscardAct → Option DiscardState
  | [] => some s
  | act :: acts =>
    match discardStep s act with
    | none => none
    | some s' => discardSteps s' acts

theorem discardSteps_run {P : DiscardState → DiscardAct → Prop} {s₀ s s' : DiscardState}
    {acts : List DiscardAct} (hrun : DiscardRun P s₀ s) (hP : ∀ act ∈ acts, ∀ s, P s act)
    (h : discardSteps s acts = some s') : DiscardRun P s₀ s' := by
  induction acts generalizing s with
  | nil =>
    cases h
    exact hrun
  | cons act acts ih =>
    rw [discardSteps] at h
    split at h
    · cases h
    · next s₁ hstep =>
      exact ih (hrun.tail (hP act List.mem_cons_self s) hstep)
        (fun act' hact' => hP act' (List.mem_cons_of_mem _ hact')) h

/-- An engine with one bucket, which waits for its discard; the bucket may be open. -/
def queueEngine (opened : Finset BucketPos) : DiscardState where
  fs := { (initBuckets bucketEngine [1]).empty ⟨0, 1⟩ {} with openBuckets := opened }

/-- The bucket is open, and goes back to the queue. -/
theorem discard_queue_kept_open : ∃ s s' : DiscardState,
    DiscardRun QuietBetween (queueEngine {⟨0, 1⟩}) s ∧
    s.threads 0 = .ending ⟨0, 1⟩ (-11) .bucketOpen .once ∧
    discardStep s (.turn 0) = some s' ∧ ⟨0, 1⟩ ∈ s'.queue ∧ ⟨0, 1⟩ ∈ s'.inflight := by
  obtain ⟨s, hs, s', hstep, hthread, hdone⟩ : ∃ s, discardSteps (queueEngine {⟨0, 1⟩})
        [.queue ⟨0, 1⟩, .start 0 false, .turn 0, .work 0 {}, .work 0 {}] = some s ∧
      ∃ s', discardStep s (.turn 0) = some s' ∧
        s.threads 0 = .ending ⟨0, 1⟩ (-11) .bucketOpen .once ∧
        s'.threads 0 = .returned false (-11) :=
    ⟨_, rfl, _, rfl, rfl, rfl⟩
  have hrun : DiscardRun QuietBetween (queueEngine {⟨0, 1⟩}) s := by
    refine discardSteps_run .refl (fun act hact s => ?_) hs
    simp only [List.mem_cons, List.not_mem_nil, or_false] at hact
    rcases hact with rfl | rfl | rfl | rfl | rfl <;> exact trivial
  obtain ⟨-, -, hkept⟩ := discard_queue_kept (fun _ => rfl) rfl rfl hrun
  have hback := (hkept _ s' hstep).2 0 _ _ _ _ hthread rfl
  rw [hdone] at hback
  exact ⟨s, s', hrun, hthread, hstep, hback.resolve_left (by simp)⟩

/-- The bucket is opened between the two looks, and is dropped. -/
theorem discard_queue_drops : ∃ s s' : DiscardState,
    DiscardRun (fun _ _ => True) (queueEngine ∅) s ∧
    s.threads 0 = .ending ⟨0, 1⟩ (-16) .bucketOpen .once ∧
    discardStep s (.turn 0) = some s' ∧ ⟨0, 1⟩ ∉ s'.queue ∧ ⟨0, 1⟩ ∉ s'.inflight ∧
    (s'.fs.alloc.get ⟨0, 1⟩).map BchAllocV4.dataType = some .needDiscard := by
  obtain ⟨s, hs, s', hstep, hthread, hqueue, hinflight, hdiscard⟩ : ∃ s, discardSteps
        (queueEngine ∅)
        [.queue ⟨0, 1⟩, .start 0 false, .turn 0, .work 0 {}, .work 0 {}, .work 0 {},
          .openBucket ⟨0, 1⟩, .work 0 {}, .work 0 {}] = some s ∧
      ∃ s', discardStep s (.turn 0) = some s' ∧
        s.threads 0 = .ending ⟨0, 1⟩ (-16) .bucketOpen .once ∧
        s'.queue = [] ∧ s'.inflight = ∅ ∧
        (s'.fs.alloc.get ⟨0, 1⟩).map BchAllocV4.dataType = some .needDiscard :=
    ⟨_, rfl, _, rfl, rfl, rfl, rfl, rfl⟩
  refine ⟨s, s', discardSteps_run .refl (fun _ _ _ => trivial) hs, hthread, hstep, ?_, ?_, hdiscard⟩
  · simp [hqueue]
  · simp [hinflight]

end Subvol

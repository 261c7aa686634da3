import Mathlib.Algebra.Order.Ring.Nat
import Mathlib.Data.List.Infix
import Mathlib.Logic.Relation
import Mathlib.Tactic.Common

/-!
# The background reclaimer

Model of the worker of `engine.rs` that runs `reclaim_background_once` on request, of the calls that
ask for a pass and of those that wait for one. Requests only count up a number. The worker takes the
number when it begins a pass and sets `completed` to it when the pass is over; a waiting call takes
the number when it begins and is over when `completed` has reached it. A step is one critical
section of the mutex, or the start of a pass. A commit that finds the journal low on space makes the
same step as `request_reclaim`.

The system also keeps what happened when: the times of the requests, the passes that are over, and
what the waiting calls returned.

## Main definitions

* `ReclaimWorkerState`, `ReclaimWorker`, `ReclaimSystem`, `ReclaimAct`, `reclaimStep`.
* `ReclaimReturn.Covered`: a pass for all requests before a call.

## Main results

* `ReclaimInv.step`: the invariant of the counters, the worker and the calls.
* `reclaim_wait_covered`.
-/

namespace Subvol

/-- `u64::MAX`. -/
def u64Max : ℕ := 2 ^ 64 - 1

/-- `saturating_add(1)` of a `u64`. -/
def saturatingSucc (n : ℕ) : ℕ := min (n + 1) u64Max

/-! ### The system -/

/-- `ReclaimWorkerState`, under the mutex. -/
structure ReclaimWorkerState where
  requested : ℕ := 0
  completed : ℕ := 0
  running : Bool := false
  stopping : Bool := false
  lastError : Option ℤ := none
deriving DecidableEq, Repr

/-- `ReclaimStatus`. -/
structure ReclaimStatus where
  requested : ℕ
  completed : ℕ
  running : Bool
  lastError : Option ℤ
deriving DecidableEq, Repr

/-- `reclaim_status`. -/
def reclaimStatus (st : ReclaimWorkerState) : ReclaimStatus :=
  ⟨st.requested, st.completed, st.running, st.lastError⟩

/-- Where the worker is in `reclaim_worker_loop`. -/
inductive ReclaimWorker
  /-- Before the mutex. -/
  | top
  /-- In `wait_timeout`. -/
  | waiting
  /-- Without the mutex after a timeout. -/
  | probing
  /-- Before the mutex with a request of its own. -/
  | requesting
  /-- With a number of requests taken, before the pass. -/
  | sampled (request : ℕ)
  /-- In the pass that began at the time given. -/
  | passing (request start : ℕ)
  /-- Returned. -/
  | gone
deriving DecidableEq, Repr

/-- A call of `wait_for_reclaim`, with the time it took its target at. -/
structure ReclaimWait where
  target : ℕ
  since : ℕ
deriving DecidableEq, Repr

/-- A pass that is over. -/
structure ReclaimPass where
  start : ℕ
  finish : ℕ
  error : Option ℤ
deriving DecidableEq, Repr

/-- A call of `wait_for_reclaim` that returned `Ok`. -/
structure ReclaimReturn where
  since : ℕ
  time : ℕ
  status : ReclaimStatus
deriving DecidableEq, Repr

/-- The worker, the waiting calls by their threads, and the history. -/
structure ReclaimSystem where
  state : ReclaimWorkerState := {}
  worker : ReclaimWorker := .top
  waits : ℕ → Option ReclaimWait := fun _ => none
  now : ℕ := 0
  requests : List ℕ := []
  passes : List ReclaimPass := []
  returned : List ReclaimReturn := []

/-- The steps. What the code cannot know before, the timeouts, the state of the engine and the
result of a pass, is part of a step. -/
inductive ReclaimAct
  | request
  | waitCall (i : ℕ) (expired : Bool)
  | waitWake (i : ℕ) (timedOut expired : Bool)
  | shutdown
  | workerTop
  | workerWake (timedOut : Bool)
  | workerProbe (upgraded needed : Bool)
  | workerRequest
  | workerStart (upgraded : Bool)
  | workerFinish (error : Option ℤ)

namespace ReclaimSystem

/-- One more request. -/
def addRequest (s : ReclaimSystem) : ReclaimSystem :=
  { s with state := { s.state with requested := saturatingSucc s.state.requested }
           requests := s.requests ++ [s.now] }

/-- The worker takes the number of requests and begins. -/
def beginPass (s : ReclaimSystem) : ReclaimSystem :=
  { s with state := { s.state with running := true }, worker := .sampled s.state.requested }

/-- The loop of `wait_for_reclaim` when it has the mutex: it returns, fails, or waits on. -/
def look (s : ReclaimSystem) (i : ℕ) (w : ReclaimWait) (failed : Bool) : ReclaimSystem :=
  if s.state.completed < w.target then
    { s with waits := Function.update s.waits i (if failed then none else some w) }
  else
    { s with waits := Function.update s.waits i none
             returned := s.returned ++ [⟨w.since, s.now, reclaimStatus s.state⟩] }

/-- What a step does, `none` if it cannot be made. -/
def act (s : ReclaimSystem) : ReclaimAct → Option ReclaimSystem
  | .request => some (if s.state.stopping then s else s.addRequest)
  | .waitCall i expired =>
    if (s.waits i).isSome then none
    else some (s.look i ⟨s.state.requested, s.now⟩ expired)
  | .waitWake i timedOut expired => (s.waits i).map fun w => s.look i w (timedOut || expired)
  | .shutdown => some { s with state := { s.state with stopping := true } }
  | .workerTop =>
    if s.worker ≠ .top then none
    else if s.state.stopping then some { s with worker := .gone }
    else if s.state.requested ≤ s.state.completed then some { s with worker := .waiting }
    else some s.beginPass
  | .workerWake timedOut =>
    if s.worker ≠ .waiting then none
    else if s.state.stopping then some { s with worker := .gone }
    else if s.state.requested ≤ s.state.completed then
      some { s with worker := if timedOut then .probing else .top }
    else some s.beginPass
  | .workerProbe upgraded needed =>
    if s.worker ≠ .probing then none
    else some { s with worker := if !upgraded then .gone else if needed then .requesting else .top }
  | .workerRequest =>
    if s.worker ≠ .requesting then none
    else if s.state.stopping then some { s with worker := .gone }
    else if s.state.requested ≤ s.state.completed then some { s.addRequest with worker := .top }
    else some { s with worker := .top }
  | .workerStart upgraded =>
    match s.worker with
    | .sampled request =>
      some { s with worker := if upgraded then .passing request s.now else .gone }
    | _ => none
  | .workerFinish error =>
    match s.worker with
    | .passing request start =>
      some { s with
        state := { s.state with running := false, completed := max s.state.completed request
                                lastError := error }
        worker := .top
        passes := s.passes ++ [⟨start, s.now, error⟩] }
    | _ => none

end ReclaimSystem

/-- A step and the passing of time. -/
def reclaimStep (s : ReclaimSystem) (a : ReclaimAct) : Option ReclaimSystem :=
  (s.act a).map fun s' => { s' with now := s.now + 1 }

/-- Runs of the system. -/
def ReclaimRun : ReclaimSystem → ReclaimSystem → Prop :=
  Relation.ReflTransGen fun s s' => ∃ a, reclaimStep s a = some s'

/-- If there were requests before a call of `wait_for_reclaim`, the error it returned is that of a
pass that was over when it returned and began after all of them. -/
def ReclaimReturn.Covered (s : ReclaimSystem) (r : ReclaimReturn) : Prop :=
  (∃ q ∈ s.requests, q < r.since) →
    ∃ p ∈ s.passes, p.finish < r.time ∧ p.error = r.status.lastError ∧
      ∀ q ∈ s.requests, q < r.since → q < p.start

/-! ### The invariant -/

/-- The number that the worker has taken lies between the two counters, and a pass began after the
requests that it counts. -/
def WorkerOk (s : ReclaimSystem) : ReclaimWorker → Prop
  | .sampled r => s.state.completed ≤ r ∧ r ≤ s.state.requested
  | .passing r start => s.state.completed ≤ r ∧ r ≤ s.state.requested ∧
      ∀ q ∈ s.requests.take r, q < start
  | _ => True

/-- A call took its target after the requests that it counts and before all others. -/
def WaitOk (s : ReclaimSystem) (w : ReclaimWait) : Prop :=
  w.since ≤ s.now ∧ (s.requests.length ≤ u64Max → ∀ q ∈ s.requests.drop w.target, w.since ≤ q)

/-- The pass that `completed` and `last_error` come from. -/
def LastPass (s : ReclaimSystem) : Prop :=
  s.state.completed = 0 ∨ ∃ p ∈ s.passes, p.finish < s.now ∧ p.error = s.state.lastError ∧
    ∀ q ∈ s.requests.take s.state.completed, q < p.start

/-- The invariant of the system. -/
structure ReclaimInv (s : ReclaimSystem) : Prop where
  requests_lt : ∀ q ∈ s.requests, q < s.now
  requested : s.state.requested = min s.requests.length u64Max
  le : s.state.completed ≤ s.state.requested
  worker : WorkerOk s s.worker
  last : LastPass s
  waits : ∀ i w, s.waits i = some w → WaitOk s w
  since_le : ∀ r ∈ s.returned, r.since ≤ s.now
  returned : s.requests.length ≤ u64Max → ∀ r ∈ s.returned, r.Covered s

namespace ReclaimInv

variable {s s' : ReclaimSystem}

theorem init : ReclaimInv {} where
  requests_lt := by simp
  requested := rfl
  le := le_rfl
  worker := trivial
  last := .inl rfl
  waits := by simp
  since_le := by simp
  returned := by simp

theorem requested_le (h : ReclaimInv s) : s.state.requested ≤ s.requests.length := by
  have := h.requested
  omega

/-- Steps that leave the counters and the history alone. -/
theorem frame (h : ReclaimInv s) (hnow : s.now ≤ s'.now) (hrequests : s'.requests = s.requests)
    (hpasses : s'.passes = s.passes) (hwaits : s'.waits = s.waits)
    (hreturned : s'.returned = s.returned) (hrequested : s'.state.requested = s.state.requested)
    (hcompleted : s'.state.completed = s.state.completed)
    (herror : s'.state.lastError = s.state.lastError) (hworker : WorkerOk s' s'.worker) :
    ReclaimInv s' where
  requests_lt q hq := (h.requests_lt q (hrequests ▸ hq)).trans_le hnow
  requested := by rw [hrequested, hrequests, h.requested]
  le := by rw [hrequested, hcompleted]; exact h.le
  worker := hworker
  last := by
    rw [LastPass, hcompleted, herror, hrequests, hpasses]
    refine h.last.imp_right fun ⟨p, hp, hlt, hrest⟩ => ⟨p, hp, hlt.trans_le hnow, hrest⟩
  waits i w hw := by
    obtain ⟨hsince, hdrop⟩ := h.waits i w (hwaits ▸ hw)
    exact ⟨hsince.trans hnow, by rw [hrequests]; exact hdrop⟩
  since_le r hr := (h.since_le r (hreturned ▸ hr)).trans hnow
  returned hlen r hr := by
    rw [ReclaimReturn.Covered, hrequests, hpasses]
    exact h.returned (hrequests ▸ hlen) r (hreturned ▸ hr)

/-- One more request. -/
theorem addRequest (h : ReclaimInv s) {w : ReclaimWorker}
    (hw : w = s.worker ∨ w = .top) :
    ReclaimInv { s.addRequest with worker := w, now := s.now + 1 } := by
  have hle := h.requested_le
  have hreq := h.requested
  have hcompl := h.le
  have hup : s.state.requested ≤ saturatingSucc s.state.requested := by
    rw [saturatingSucc]
    omega
  have htake : ∀ r ≤ s.state.requested, (s.requests ++ [s.now]).take r = s.requests.take r :=
    fun r hr => List.take_append_of_le_length (hr.trans hle)
  refine ⟨?_, ?_, hcompl.trans hup, ?_, ?_, ?_, ?_, ?_⟩
  · intro q hq
    rcases List.mem_append.mp hq with hq | hq
    · exact (h.requests_lt q hq).trans (Nat.lt_succ_self _)
    · rw [List.mem_singleton.mp hq]
      exact Nat.lt_succ_self _
  · simp only [ReclaimSystem.addRequest, List.length_append, List.length_singleton, saturatingSucc]
    omega
  · rcases hw with rfl | rfl
    · have hworker := h.worker
      cases hs : s.worker with
      | sampled r =>
        rw [hs] at hworker
        exact ⟨hworker.1, hworker.2.trans hup⟩
      | passing r start =>
        rw [hs] at hworker
        obtain ⟨h₁, h₂, h₃⟩ := hworker
        exact ⟨h₁, h₂.trans hup, by simpa only [ReclaimSystem.addRequest, htake r h₂] using h₃⟩
      | _ => trivial
    · trivial
  · refine h.last.imp_right fun ⟨p, hp, hlt, herr, hall⟩ => ⟨p, hp, hlt.trans (Nat.lt_succ_self _),
      herr, ?_⟩
    simpa only [ReclaimSystem.addRequest, htake _ hcompl] using hall
  · intro i w hw
    obtain ⟨hsince, hdrop⟩ := h.waits i w hw
    refine ⟨hsince.trans (Nat.le_succ _), fun hlen q hq => ?_⟩
    simp only [ReclaimSystem.addRequest, List.length_append, List.length_singleton] at hlen
    rcases List.mem_append.mp (List.drop_append ▸ hq) with hq | hq
    · exact hdrop (by omega) q hq
    · rw [List.mem_singleton.mp (List.mem_of_mem_drop hq)]
      exact hsince
  · exact fun r hr => (h.since_le r hr).trans (Nat.le_succ _)
  · intro hlen r hr
    simp only [ReclaimSystem.addRequest, List.length_append, List.length_singleton] at hlen
    have hnew : ∀ q ∈ s.requests ++ [s.now], q < r.since → q ∈ s.requests := by
      intro q hq hlt
      rcases List.mem_append.mp hq with hq | hq
      · exact hq
      · rw [List.mem_singleton.mp hq] at hlt
        exact absurd (h.since_le r hr) (not_le.mpr hlt)
    rintro ⟨q, hq, hlt⟩
    obtain ⟨p, hp, hfin, herr, hall⟩ := h.returned (by omega) r hr ⟨q, hnew q hq hlt, hlt⟩
    exact ⟨p, hp, hfin, herr, fun q hq hlt => hall q (hnew q hq hlt) hlt⟩

/-- The worker begins. -/
theorem beginPass (h : ReclaimInv s) :
    ReclaimInv { s.beginPass with now := s.now + 1 } :=
  h.frame (Nat.le_succ _) rfl rfl rfl rfl rfl rfl rfl ⟨h.le, le_rfl⟩

/-- A pass is over. -/
theorem finish (h : ReclaimInv s) {r start : ℕ} (hw : s.worker = .passing r start)
    (error : Option ℤ) :
    ReclaimInv { s with
      state := { s.state with running := false, completed := max s.state.completed r
                              lastError := error }
      worker := .top
      passes := s.passes ++ [⟨start, s.now, error⟩]
      now := s.now + 1 } := by
  have hworker := h.worker
  rw [hw] at hworker
  obtain ⟨hge, hle, hbefore⟩ := hworker
  have hmax : max s.state.completed r = r := max_eq_right hge
  refine ⟨?_, h.requested, ?_, trivial, ?_, ?_, ?_, ?_⟩
  · exact fun q hq => (h.requests_lt q hq).trans (Nat.lt_succ_self _)
  · exact hmax.trans_le hle
  · refine .inr ⟨_, List.mem_append_right _ (List.mem_singleton_self _), Nat.lt_succ_self _, rfl, ?_⟩
    simpa only [hmax] using hbefore
  · intro i w hwait
    obtain ⟨hsince, hdrop⟩ := h.waits i w hwait
    exact ⟨hsince.trans (Nat.le_succ _), hdrop⟩
  · exact fun r hr => (h.since_le r hr).trans (Nat.le_succ _)
  · intro hlen r hr hsome
    obtain ⟨p, hp, hrest⟩ := h.returned hlen r hr hsome
    exact ⟨p, List.mem_append_left _ hp, hrest⟩

/-- A call that finds its target reached was waited for by a pass. -/
theorem covered (h : ReclaimInv s) {w : ReclaimWait} (hw : WaitOk s w)
    (hreached : w.target ≤ s.state.completed) (hlen : s.requests.length ≤ u64Max) :
    ReclaimReturn.Covered s ⟨w.since, s.now, reclaimStatus s.state⟩ := by
  -- the requests before the call are among those that `completed` counts
  have hcounted : ∀ q ∈ s.requests, q < w.since → q ∈ s.requests.take s.state.completed := by
    intro q hq hlt
    have hsplit : q ∈ s.requests.take w.target ++ s.requests.drop w.target := by
      rwa [List.take_append_drop]
    rcases List.mem_append.mp hsplit with hq | hq
    · exact (List.take_sublist_take_left hreached).subset hq
    · exact absurd (hw.2 hlen q hq) (not_le.mpr hlt)
  rintro ⟨q, hq, hlt⟩
  rcases h.last with hzero | ⟨p, hp, hfin, herr, hall⟩
  · have := hcounted q hq hlt
    rw [hzero] at this
    cases this
  · exact ⟨p, hp, hfin, herr, fun q hq hlt => hall q (hcounted q hq hlt)⟩

/-- A call looks at the counters. -/
theorem look (h : ReclaimInv s) {i : ℕ} {w : ReclaimWait} (hw : WaitOk s w) (failed : Bool) :
    ReclaimInv { s.look i w failed with now := s.now + 1 } := by
  have hkept : ∀ x : Option ReclaimWait, (∀ w', x = some w' → WaitOk s w') →
      ∀ j w', Function.update s.waits i x j = some w' → WaitOk s w' := by
    intro x hx j w' hj
    by_cases hji : j = i
    · subst hji
      rw [Function.update_self] at hj
      exact hx w' hj
    · rw [Function.update_of_ne hji] at hj
      exact h.waits j w' hj
  have hlater : ∀ w', WaitOk s w' → WaitOk { s with now := s.now + 1 } w' :=
    fun w' hw' => ⟨hw'.1.trans (Nat.le_succ _), hw'.2⟩
  have hbase : ReclaimInv { s with now := s.now + 1 } :=
    h.frame (Nat.le_succ _) rfl rfl rfl rfl rfl rfl rfl h.worker
  rw [ReclaimSystem.look]
  by_cases hshort : s.state.completed < w.target
  · rw [if_pos hshort]
    refine { hbase with waits := fun j w' hj => hlater w' (hkept _ ?_ j w' hj) }
    intro w' hw'
    split_ifs at hw'
    obtain rfl := Option.some.inj hw'
    exact hw
  · rw [if_neg hshort]
    refine { hbase with
      waits := fun j w' hj => hlater w' (hkept none (by simp) j w' hj)
      since_le := fun r hr => ?_
      returned := fun hlen r hr => ?_ }
    · rcases List.mem_append.mp hr with hr | hr
      · exact (h.since_le r hr).trans (Nat.le_succ _)
      · rw [List.mem_singleton.mp hr]
        exact hw.1.trans (Nat.le_succ _)
    · rcases List.mem_append.mp hr with hr | hr
      · exact h.returned hlen r hr
      · rw [List.mem_singleton.mp hr]
        exact h.covered hw (Nat.not_lt.mp hshort) hlen

/-- A worker without a number of requests. -/
theorem quiet (h : ReclaimInv s) {w : ReclaimWorker} (hw : WorkerOk s w) :
    ReclaimInv { s with worker := w, now := s.now + 1 } := by
  refine h.frame (Nat.le_succ _) rfl rfl rfl rfl rfl rfl rfl ?_
  cases w <;> exact hw

/-- Every step keeps the invariant. -/
theorem step (h : ReclaimInv s) {a : ReclaimAct} (hstep : reclaimStep s a = some s') :
    ReclaimInv s' := by
  obtain ⟨t, hact, rfl⟩ := Option.map_eq_some_iff.mp hstep
  cases a with
  | request =>
    obtain rfl := Option.some.inj hact
    split_ifs
    · exact h.quiet h.worker
    · exact h.addRequest (.inl rfl)
  | waitCall i expired =>
    simp only [ReclaimSystem.act] at hact
    split_ifs at hact
    obtain rfl := Option.some.inj hact
    refine h.look ⟨le_rfl, fun hlen q hq => ?_⟩ expired
    -- all requests so far are counted
    have hall : s.state.requested = s.requests.length := by rw [h.requested, min_eq_left hlen]
    rw [hall, List.drop_length] at hq
    cases hq
  | waitWake i timedOut expired =>
    obtain ⟨w, hw, rfl⟩ := Option.map_eq_some_iff.mp hact
    exact h.look (h.waits i w hw) _
  | shutdown =>
    obtain rfl := Option.some.inj hact
    exact h.frame (Nat.le_succ _) rfl rfl rfl rfl rfl rfl rfl h.worker
  | workerTop =>
    simp only [ReclaimSystem.act] at hact
    split_ifs at hact <;> obtain rfl := Option.some.inj hact
    · exact h.quiet trivial
    · exact h.quiet trivial
    · exact h.beginPass
  | workerWake timedOut =>
    simp only [ReclaimSystem.act] at hact
    split_ifs at hact <;> obtain rfl := Option.some.inj hact
    · exact h.quiet trivial
    · exact h.quiet trivial
    · exact h.quiet trivial
    · exact h.beginPass
  | workerProbe upgraded needed =>
    simp only [ReclaimSystem.act] at hact
    split_ifs at hact <;> obtain rfl := Option.some.inj hact
    · exact h.quiet trivial
    · exact h.quiet trivial
    · exact h.quiet trivial
  | workerRequest =>
    simp only [ReclaimSystem.act] at hact
    split_ifs at hact <;> obtain rfl := Option.some.inj hact
    · exact h.quiet trivial
    · exact h.addRequest (.inr rfl)
    · exact h.quiet trivial
  | workerStart upgraded =>
    cases hw : s.worker with
    | sampled r =>
      have hworker := h.worker
      simp only [ReclaimSystem.act, hw] at hact hworker
      obtain rfl := Option.some.inj hact
      split_ifs
      · refine h.quiet ⟨hworker.1, hworker.2, fun q hq => ?_⟩
        exact h.requests_lt q (List.mem_of_mem_take hq)
      · exact h.quiet trivial
    | _ => simp [ReclaimSystem.act, hw] at hact
  | workerFinish error =>
    cases hw : s.worker with
    | passing r start =>
      simp only [ReclaimSystem.act, hw] at hact
      obtain rfl := Option.some.inj hact
      exact h.finish hw error
    | _ => simp [ReclaimSystem.act, hw] at hact

theorem run (h : ReclaimInv s) (hrun : ReclaimRun s s') : ReclaimInv s' := by
  induction hrun with
  | refl => exact h
  | tail _ hstep ih =>
    obtain ⟨a, ha⟩ := hstep
    exact ih.step ha

/-- No step takes a counter back. -/
theorem step_mono (h : ReclaimInv s) {a : ReclaimAct} (hstep : reclaimStep s a = some s') :
    s.state.requested ≤ s'.state.requested ∧ s.state.completed ≤ s'.state.completed := by
  have hup : s.state.requested ≤ saturatingSucc s.state.requested := by
    have := h.requested
    rw [saturatingSucc]
    omega
  obtain ⟨t, hact, rfl⟩ := Option.map_eq_some_iff.mp hstep
  cases a with
  | request =>
    obtain rfl := Option.some.inj hact
    split_ifs
    · exact ⟨le_rfl, le_rfl⟩
    · exact ⟨hup, le_rfl⟩
  | waitCall i expired =>
    simp only [ReclaimSystem.act] at hact
    split_ifs at hact
    obtain rfl := Option.some.inj hact
    rw [ReclaimSystem.look]
    split_ifs <;> exact ⟨le_rfl, le_rfl⟩
  | waitWake i timedOut expired =>
    obtain ⟨w, hw, rfl⟩ := Option.map_eq_some_iff.mp hact
    rw [ReclaimSystem.look]
    split_ifs <;> exact ⟨le_rfl, le_rfl⟩
  | shutdown =>
    obtain rfl := Option.some.inj hact
    exact ⟨le_rfl, le_rfl⟩
  | workerRequest =>
    simp only [ReclaimSystem.act] at hact
    split_ifs at hact <;> obtain rfl := Option.some.inj hact
    · exact ⟨le_rfl, le_rfl⟩
    · exact ⟨hup, le_rfl⟩
    · exact ⟨le_rfl, le_rfl⟩
  | workerStart upgraded =>
    cases hw : s.worker with
    | sampled r =>
      simp only [ReclaimSystem.act, hw] at hact
      obtain rfl := Option.some.inj hact
      exact ⟨le_rfl, le_rfl⟩
    | _ => simp [ReclaimSystem.act, hw] at hact
  | workerFinish error =>
    cases hw : s.worker with
    | passing r start =>
      simp only [ReclaimSystem.act, hw] at hact
      obtain rfl := Option.some.inj hact
      exact ⟨le_rfl, le_max_left _ _⟩
    | _ => simp [ReclaimSystem.act, hw] at hact
  | _ =>
    simp only [ReclaimSystem.act] at hact
    split_ifs at hact <;> obtain rfl := Option.some.inj hact <;> exact ⟨le_rfl, le_rfl⟩

theorem run_mono (h : ReclaimInv s) (hrun : ReclaimRun s s') :
    s.state.requested ≤ s'.state.requested ∧ s.state.completed ≤ s'.state.completed := by
  induction hrun with
  | refl => exact ⟨le_rfl, le_rfl⟩
  | tail hrun hstep ih =>
    obtain ⟨a, ha⟩ := hstep
    obtain ⟨h₁, h₂⟩ := (h.run hrun).step_mono ha
    exact ⟨ih.1.trans h₁, ih.2.trans h₂⟩

end ReclaimInv

/-- In every run the counters grow and `completed` stays at `requested` or below it, and as long as
the counter of the requests does not saturate, every call of `wait_for_reclaim` that returned was
waited for by a pass that began after all requests before the call, and returned its error. -/
theorem reclaim_wait_covered {s s' : ReclaimSystem} (hs : ReclaimRun {} s)
    (hrun : ReclaimRun s s') :
    s.state.requested ≤ s'.state.requested ∧ s.state.completed ≤ s'.state.completed ∧
      s'.state.completed ≤ s'.state.requested ∧
      (s'.requests.length < 2 ^ 64 → ∀ r ∈ s'.returned, r.Covered s') := by
  have hinv := ReclaimInv.init.run hs
  have hinv' := hinv.run hrun
  obtain ⟨hreq, hcompl⟩ := hinv.run_mono hrun
  exact ⟨hreq, hcompl, hinv'.le, fun hlen => hinv'.returned (Nat.le_sub_one_of_lt hlen)⟩

/-! ### Runs -/

/-- The steps of a list. -/
def reclaimSteps (s : ReclaimSystem) (as : List ReclaimAct) : Option ReclaimSystem :=
  as.foldlM reclaimStep s

theorem reclaimRun_of_steps {s s' : ReclaimSystem} {as : List ReclaimAct}
    (h : reclaimSteps s as = some s') : ReclaimRun s s' := by
  induction as generalizing s with
  | nil =>
    obtain rfl := Option.some.inj h
    exact .refl
  | cons a as ih =>
    rw [reclaimSteps, List.foldlM_cons] at h
    obtain ⟨t, ht, hrest⟩ := Option.bind_eq_some_iff.mp h
    exact .head ⟨a, ht⟩ (ih hrest)

/-- A request, a pass that fails, and a call behind it. -/
def failedPass : List ReclaimAct :=
  [.request, .workerTop, .workerStart true, .workerFinish (some (-5)), .waitCall 0 false]

theorem reclaim_wait_covered_once : ∃ s, reclaimSteps {} failedPass = some s ∧
    s.returned = [⟨4, 4, ⟨1, 1, false, some (-5)⟩⟩] ∧ ∀ r ∈ s.returned, r.Covered s := by
  have hrun : (reclaimSteps {} failedPass).map (fun s => (s.requests.length, s.returned)) =
      some (1, [⟨4, 4, ⟨1, 1, false, some (-5)⟩⟩]) := by decide
  obtain ⟨s, hs, heq⟩ := Option.map_eq_some_iff.mp hrun
  obtain ⟨hlen, hret⟩ := Prod.mk.inj heq
  refine ⟨s, hs, hret, ?_⟩
  exact (reclaim_wait_covered .refl (reclaimRun_of_steps hs)).2.2.2 (by rw [hlen]; decide)

/-- The system after a number of requests. -/
def afterRequests (n : ℕ) : ReclaimSystem :=
  { state := { requested := n }, now := n, requests := List.range n }

theorem run_afterRequests {n : ℕ} (hn : n ≤ u64Max) : ReclaimRun {} (afterRequests n) := by
  induction n with
  | zero => exact .refl
  | succ n ih =>
    refine (ih (by omega)).tail ⟨.request, ?_⟩
    have hsat : saturatingSucc n = n + 1 := min_eq_left hn
    simp [reclaimStep, ReclaimSystem.act, ReclaimSystem.addRequest, afterRequests, hsat,
      List.range_succ]

/-- A pass, a request and a call at a counter that cannot grow. -/
theorem saturated_steps {n : ℕ} (hpos : 0 < n) (hsat : saturatingSucc n = n) :
    ∃ s, reclaimSteps (afterRequests n)
        [.workerTop, .workerStart true, .workerFinish none, .request, .waitCall 0 false] = some s ∧
      s.requests = List.range n ++ [n + 3] ∧ s.passes = [⟨n + 1, n + 2, none⟩] ∧
      s.returned = [⟨n + 4, n + 4, ⟨n, n, false, none⟩⟩] := by
  have hneg : ¬n ≤ 0 := by omega
  simp [reclaimSteps, reclaimStep, ReclaimSystem.act, ReclaimSystem.addRequest, afterRequests,
    ReclaimSystem.beginPass, ReclaimSystem.look, hneg, hsat, reclaimStatus]

/-- A request at the saturated counter is not waited for. -/
theorem saturated_request_lost : ∃ s, ReclaimRun {} s ∧ ∃ r ∈ s.returned, ¬r.Covered s := by
  obtain ⟨s, hs, hreq, hpass, hret⟩ := saturated_steps (n := u64Max) (by decide) (by decide)
  refine ⟨s, (run_afterRequests le_rfl).trans (reclaimRun_of_steps hs), _,
    hret ▸ List.mem_singleton_self _, fun hcov => ?_⟩
  have hlate : u64Max + 3 ∈ s.requests := by simp [hreq]
  obtain ⟨p, hp, -, -, hall⟩ := hcov ⟨_, hlate, by simp⟩
  rw [hpass, List.mem_singleton] at hp
  have hlt := hall _ hlate (by simp)
  rw [hp] at hlt
  simp at hlt

end Subvol

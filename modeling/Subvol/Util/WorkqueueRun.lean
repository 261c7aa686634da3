import Subvol.Util.Workqueue

/-!
# Runs of work queues

Whatever the threads and the workers do, an item is in line once at most, and nothing that was put in
line is lost or run twice. A drained queue has nothing left but an item that the worker has just
taken.

## Main definitions

* `WqState.Holds`: the places in which an item is while its bit is set.
* `WqInv`: what every run keeps.

## Main results

* `WqInv.run`.
* `workqueue_keeps_work`: where the items of a queue are.
* `drain_and_destroy_finish`: what has been run when a queue has been drained or destroyed.
* `worker_empties`: a worker gets its queue empty.
-/

namespace Subvol

open Lib

variable {T Q W : Type*}

/-! ### Where an item is -/

/-- The places in which an item is while its bit is set. -/
inductive WorkPlace (T Q : Type*)
  | client (t : T)
  | list (q : Q)
  | worker (q : Q)

/-- The item that a thread is about to put in line, or has taken out. -/
def WqPhase.carries : WqPhase Q W → Option W
  | pushing _ w => some w
  | clearing w _ _ _ => some w
  | _ => none

namespace WqState

/-- The item is in the place, and its bit belongs to it. -/
def Holds (s : WqState T Q W) : WorkPlace T Q → W → Prop
  | .client t, w => (s.client t).carries = some w
  | .list q, w => w ∈ (s.queue q).pendingWork
  | .worker q, w => (s.worker q).bind WorkerPhase.carries = some w

/-- What the worker of a queue has taken and not finished. -/
def inHand (s : WqState T Q W) (q : Q) : List W := ((s.worker q).map WorkerPhase.inHand).getD []

end WqState

/-- What was put in line on a queue is, in its order, finished, in the hand of the worker or waiting,
but for what was taken out, and `current_work` is what the worker has stored there. -/
structure QueueOk (pendingWork : List W) (currentWork : Option W) (log : FifoLog W)
    (finished : List W) (worker : Option (WorkerPhase W)) : Prop where
  nodup : pendingWork.Nodup
  record : log.Of pendingWork
  served : log.served = finished ++ (worker.map WorkerPhase.inHand).getD []
  current : currentWork = worker.bind WorkerPhase.current

/-- An item with its bit set is in one place, every queue has a record of its items, and the worker
of a queue that a thread has joined has ended. -/
structure WqInv (s : WqState T Q W) : Prop where
  flagged : Flagged s.pending s.Holds
  queues : ∀ q, QueueOk (s.queue q).pendingWork (s.queue q).currentWork (s.log q) (s.finished q)
    (s.worker q)
  joined : ∀ t q, s.client t = .asserting q → s.worker q = some .exited

namespace WqInv

theorem init : WqInv ({} : WqState T Q W) where
  flagged := by
    refine ⟨fun w => iff_of_false Bool.false_ne_true ?_, ?_⟩
    · rintro ⟨t | q | q, h⟩
      · cases h
      · exact absurd h List.not_mem_nil
      · cases h
    · rintro w (t | q | q) p h
      · cases h
      · exact absurd h List.not_mem_nil
      · cases h
  queues _ := ⟨.nil, .empty, rfl, rfl⟩
  joined _ _ h := by cases h

variable {s s' : WqState T Q W} {t : T} {q : Q} {w : W} {p : WqPhase Q W}

section Threads

variable [DecidableEq T]

theorem carries_update {f : T → WqPhase Q W} (hp : p.carries = (f t).carries) (u : T) :
    (Function.update f t p u).carries = (f u).carries := by
  by_cases hu : u = t
  · rw [hu, Function.update_self, hp]
  · rw [Function.update_of_ne hu]

/-- The joined queues when a thread goes on. -/
theorem joined_update (h : WqInv s)
    (hworker : ∀ r, s.worker r = some .exited → s'.worker r = some .exited)
    (hclient : s'.client = Function.update s.client t p)
    (hp : ∀ r, p = .asserting r → s'.worker r = some .exited) :
    ∀ u r, s'.client u = .asserting r → s'.worker r = some .exited := by
  intro u r hu
  rw [hclient] at hu
  by_cases hut : u = t
  · rw [hut, Function.update_self] at hu
    exact hp r hu
  · rw [Function.update_of_ne hut] at hu
    exact hworker r (h.joined u r hu)

/-- A thread goes on, and nothing happens to the items. -/
theorem calm (h : WqInv s) (hclient : s'.client = Function.update s.client t p)
    (hp : p.carries = (s.client t).carries) (hpending : s'.pending = s.pending)
    (hlist : ∀ r, (s'.queue r).pendingWork = (s.queue r).pendingWork)
    (hcurrent : ∀ r, (s'.queue r).currentWork = (s.queue r).currentWork)
    (hworker : s'.worker = s.worker) (hlog : s'.log = s.log) (hfinished : s'.finished = s.finished)
    (hjoin : ∀ r, p = .asserting r → s.worker r = some .exited) : WqInv s' := by
  refine ⟨?_, fun r => ?_, ?_⟩
  · rw [hpending]
    refine h.flagged.congr ?_
    rintro (u | r | r) v
    · simp only [WqState.Holds]
      rw [hclient, carries_update hp]
    · simp only [WqState.Holds]
      rw [hlist]
    · simp only [WqState.Holds]
      rw [hworker]
  · rw [hlist, hcurrent, hlog, hfinished, hworker]
    exact h.queues r
  · refine h.joined_update (fun r hr => ?_) hclient fun r hr => ?_
    · rwa [hworker]
    · rw [hworker]
      exact hjoin r hr

/-- A thread goes on. -/
theorem goto (h : WqInv s) (hp : p.carries = (s.client t).carries)
    (hjoin : ∀ r, p = .asserting r → s.worker r = some .exited) : WqInv (s.goto t p) :=
  h.calm rfl hp rfl (fun _ => rfl) (fun _ => rfl) rfl rfl rfl hjoin

end Threads

/-- The records of the other queues stay. -/
theorem queues_update (h : WqInv s)
    (hother : ∀ r, r ≠ q → s'.queue r = s.queue r ∧ s'.log r = s.log r ∧
      s'.finished r = s.finished r ∧ s'.worker r = s.worker r)
    (hq : QueueOk (s'.queue q).pendingWork (s'.queue q).currentWork (s'.log q) (s'.finished q)
      (s'.worker q)) (r : Q) :
    QueueOk (s'.queue r).pendingWork (s'.queue r).currentWork (s'.log r) (s'.finished r)
      (s'.worker r) := by
  by_cases hr : r = q
  · rwa [hr]
  · obtain ⟨hqueue, hlog, hfinished, hworker⟩ := hother r hr
    rw [hqueue, hlog, hfinished, hworker]
    exact h.queues r

/-- The item that a thread carries waits nowhere. -/
theorem not_mem_of_carries (h : WqInv s) (hw : (s.client t).carries = some w) (q : Q) :
    w ∉ (s.queue q).pendingWork := by
  intro hin
  have hplace := h.flagged.unique w (.client t) (.list q) hw hin
  cases hplace

/-- So does the item that a worker carries. -/
theorem not_mem_of_worker (h : WqInv s) {ph : WorkerPhase W} (hph : s.worker q = some ph)
    (hw : ph.carries = some w) (r : Q) : w ∉ (s.queue r).pendingWork := by
  intro hin
  have hholds : s.Holds (.worker q) w := by rwa [WqState.Holds, hph]
  have hplace := h.flagged.unique w (.worker q) (.list r) hholds hin
  cases hplace

section Bit

variable [DecidableEq T] [DecidableEq W]

/-- `queue_work` finds the bit clear. -/
theorem setBit (h : WqInv s) (hw : s.pending w = false) (hret : (s.client t).carries = none) :
    WqInv ((s.setPending w true).goto t (.pushing q w)) := by
  refine ⟨?_, h.queues, ?_⟩
  · refine h.flagged.enter (p := .client t) hw (fun v => ?_) ?_
    · simp only [WqState.Holds, WqState.goto, Function.update_self, hret]
      simp [WqPhase.carries, eq_comm]
    · rintro (u | r | r) hne v
      · have hut : u ≠ t := fun hut => hne (hut ▸ rfl)
        simp only [WqState.Holds, WqState.goto, Function.update_of_ne hut]
        exact Iff.rfl
      · exact Iff.rfl
      · exact Iff.rfl
  · exact h.joined_update (t := t) (fun _ => id) rfl fun r hr => by cases hr

/-- `cancel_work_sync` clears the bit of the item that it has taken out. -/
theorem clearBit (h : WqInv s) {done rest : List Q} (hphase : s.client t = .clearing w q done rest) :
    WqInv ((s.setPending w false).goto t (.looking w q done rest true)) := by
  have hcarries : (s.client t).carries = some w := by rw [hphase, WqPhase.carries]
  have hholds : s.Holds (.client t) w := hcarries
  refine ⟨?_, h.queues, ?_⟩
  · refine h.flagged.leave hholds (fun v => ?_) ?_
    · simp only [WqState.Holds, WqState.goto, Function.update_self, hcarries]
      simp only [WqPhase.carries, reduceCtorEq, false_iff, Option.some.injEq]
      exact fun hv => hv.2 hv.1.symm
    · rintro (u | r | r) hne v
      · have hut : u ≠ t := fun hut => hne (hut ▸ rfl)
        simp only [WqState.Holds, WqState.goto, Function.update_of_ne hut]
        exact Iff.rfl
      · exact Iff.rfl
      · exact Iff.rfl
  · exact h.joined_update (t := t) (fun _ => id) rfl fun r hr => by cases hr

end Bit

variable [DecidableEq Q]

section Line

variable [DecidableEq T]

/-- `queue_work` puts the item in line. -/
theorem push (h : WqInv s) (hphase : s.client t = .pushing q w) :
    WqInv ((s.putList q ((s.queue q).pendingWork ++ [w]) ((s.log q).push w)).goto t
      (.returned (some true))) := by
  have hcarries : (s.client t).carries = some w := by rw [hphase, WqPhase.carries]
  have hnot := h.not_mem_of_carries hcarries q
  refine ⟨?_, h.queues_update (q := q) (fun r hr => ?_) ?_, ?_⟩
  · refine h.flagged.move (p := .client t) (r := .list q) hcarries (by simp) (fun v => ?_)
      (fun v => ?_) ?_
    · simp only [WqState.Holds, WqState.goto, Function.update_self, hcarries]
      simp [WqPhase.carries]
      exact fun hv => hv.symm
    · simp only [WqState.Holds, WqState.goto, WqState.putList, Function.update_self]
      simp
    · rintro (u | r | r) hne hne' v
      · have hut : u ≠ t := fun hut => hne (hut ▸ rfl)
        simp only [WqState.Holds, WqState.goto, Function.update_of_ne hut]
        exact Iff.rfl
      · have hr : r ≠ q := fun hr => hne' (hr ▸ rfl)
        simp only [WqState.Holds, WqState.goto, WqState.putList, Function.update_of_ne hr]
      · exact Iff.rfl
  · simp [WqState.goto, WqState.putList, Function.update_of_ne hr]
  · obtain ⟨hnodup, hlog, hserved, hcurrent⟩ := h.queues q
    simp only [WqState.goto, WqState.putList, Function.update_self]
    exact ⟨hnodup.append (List.nodup_singleton w) (by simpa using hnot), hlog.push w, hserved,
      hcurrent⟩
  · exact h.joined_update (t := t) (fun _ => id) rfl fun r hr => by cases hr

/-- `cancel_work_sync` takes the item out. -/
theorem takeOut [DecidableEq W] (h : WqInv s) {done rest : List Q} {cancelled : Bool}
    (hphase : s.client t = .cancelling w done (q :: rest) cancelled)
    (hw : w ∈ (s.queue q).pendingWork) :
    WqInv (((s.putList q ((s.queue q).pendingWork.erase w) ((s.log q).remove w)).setLock q
      (some t)).goto t (.clearing w q done rest)) := by
  obtain ⟨hnodup, hlog, hserved, hcurrent⟩ := h.queues q
  refine ⟨?_, h.queues_update (q := q) (fun r hr => ?_) ?_, ?_⟩
  · refine h.flagged.move (p := .list q) (r := .client t) hw (by simp) (fun v => ?_)
      (fun v => ?_) ?_
    · simp only [WqState.Holds, WqState.goto, WqState.setLock, WqState.putList,
        Function.update_self]
      rw [hnodup.mem_erase_iff, and_comm]
    · simp only [WqState.Holds, WqState.goto, Function.update_self, hphase]
      simp [WqPhase.carries, eq_comm]
    · rintro (u | r | r) hne hne' v
      · have hut : u ≠ t := fun hut => hne' (hut ▸ rfl)
        simp only [WqState.Holds, WqState.goto, Function.update_of_ne hut]
        exact Iff.rfl
      · have hr : r ≠ q := fun hr => hne (hr ▸ rfl)
        simp only [WqState.Holds, WqState.goto, WqState.setLock, WqState.putList,
          Function.update_of_ne hr]
      · exact Iff.rfl
  · simp [WqState.goto, WqState.setLock, WqState.putList, Function.update_of_ne hr]
  · simp only [WqState.goto, WqState.setLock, WqState.putList, Function.update_self]
    exact ⟨hnodup.erase w, hlog.remove hw, hserved, hcurrent⟩
  · exact h.joined_update (t := t) (fun _ => id) rfl fun r hr => by cases hr

end Line

/-! ### The worker -/

section Worker

variable {ph ph' : WorkerPhase W}

/-- The joined queues when a worker goes on that has not ended. -/
theorem joined_worker (h : WqInv s) (hph : s.worker q = some ph) (hne : ph ≠ .exited)
    (hclient : s'.client = s.client) (hworker : s'.worker = Function.update s.worker q (some ph')) :
    ∀ u r, s'.client u = .asserting r → s'.worker r = some .exited := by
  intro u r hu
  rw [hclient] at hu
  have hjoined := h.joined u r hu
  have hr : r ≠ q := by
    rintro rfl
    exact hne (Option.some.inj (hph.symm.trans hjoined))
  rwa [hworker, Function.update_of_ne hr]

/-- A worker goes on, and its item stays where it is. -/
theorem work (h : WqInv s) (hph : s.worker q = some ph) (hne : ph ≠ .exited)
    (hclient : s'.client = s.client) (hpending : s'.pending = s.pending)
    (hworker : s'.worker = Function.update s.worker q (some ph')) (hcarries : ph'.carries = ph.carries)
    (hlist : ∀ r, (s'.queue r).pendingWork = (s.queue r).pendingWork)
    (hother : ∀ r, r ≠ q → s'.queue r = s.queue r ∧ s'.log r = s.log r ∧
      s'.finished r = s.finished r)
    (hq : QueueOk (s'.queue q).pendingWork (s'.queue q).currentWork (s'.log q) (s'.finished q)
      (some ph')) : WqInv s' := by
  refine ⟨?_, h.queues_update (q := q) (fun r hr => ?_) ?_, h.joined_worker hph hne hclient hworker⟩
  · rw [hpending]
    refine h.flagged.congr ?_
    rintro (u | r | r) v
    · simp only [WqState.Holds]
      rw [hclient]
    · simp only [WqState.Holds]
      rw [hlist]
    · simp only [WqState.Holds]
      rw [hworker]
      by_cases hr : r = q
      · rw [hr, Function.update_self, hph, Option.bind_some, Option.bind_some, hcarries]
      · rw [Function.update_of_ne hr]
  · obtain ⟨hqueue, hlog, hfinished⟩ := hother r hr
    exact ⟨hqueue, hlog, hfinished, by rw [hworker, Function.update_of_ne hr]⟩
  · rwa [hworker, Function.update_self]

/-- A worker takes the first item. -/
theorem pop (h : WqInv s) (hph : s.worker q = some .fetching) {rest : List W}
    (hlist : (s.queue q).pendingWork = w :: rest) :
    WqInv ((s.putList q rest ((s.log q).pop w)).setWorker q (.popped w)) := by
  obtain ⟨hnodup, hlog, hserved, hcurrent⟩ := h.queues q
  rw [hlist] at hnodup hlog
  rw [hph] at hserved hcurrent
  obtain ⟨hnot, hnodup⟩ := List.nodup_cons.mp hnodup
  refine ⟨?_, h.queues_update (q := q) (fun r hr => ?_) ?_,
    h.joined_worker hph (by simp) rfl rfl⟩
  · refine h.flagged.move (p := .list q) (r := .worker q) (hlist ▸ List.mem_cons_self) (by simp)
      (fun v => ?_) (fun v => ?_) ?_
    · simp only [WqState.Holds, WqState.setWorker, WqState.putList, Function.update_self, hlist]
      rw [List.mem_cons]
      constructor
      · intro hv
        exact ⟨.inr hv, fun hvw => hnot (hvw ▸ hv)⟩
      · rintro ⟨hv | hv, hne⟩
        · exact absurd hv hne
        · exact hv
    · simp only [WqState.Holds, WqState.setWorker, Function.update_self, hph, Option.bind_some]
      simp [WorkerPhase.carries, eq_comm]
    · rintro (u | r | r) hne hne' v
      · exact Iff.rfl
      · have hr : r ≠ q := fun hr => hne (hr ▸ rfl)
        simp only [WqState.Holds, WqState.setWorker, WqState.putList, Function.update_of_ne hr]
      · have hr : r ≠ q := fun hr => hne' (hr ▸ rfl)
        simp only [WqState.Holds, WqState.setWorker, Function.update_of_ne hr]
        exact Iff.rfl
  · simp [WqState.setWorker, WqState.putList, Function.update_of_ne hr]
  · simp only [WqState.setWorker, WqState.putList, Function.update_self]
    refine ⟨hnodup, hlog.pop, ?_, hcurrent⟩
    simp only [FifoLog.pop, hserved]
    simp [WorkerPhase.inHand]

/-- A worker clears the bit of its item. -/
theorem start [DecidableEq W] (h : WqInv s) (hph : s.worker q = some (.announced w)) :
    WqInv ((s.setPending w false).setWorker q (.running w)) := by
  obtain ⟨hnodup, hlog, hserved, hcurrent⟩ := h.queues q
  rw [hph] at hserved hcurrent
  have hholds : s.Holds (.worker q) w := by rw [WqState.Holds, hph]; rfl
  refine ⟨?_, h.queues_update (q := q) (fun r hr => ?_) ?_,
    h.joined_worker hph (by simp) rfl rfl⟩
  · refine h.flagged.leave hholds (fun v => ?_) ?_
    · simp only [WqState.Holds, WqState.setWorker, Function.update_self, hph, Option.bind_some]
      simp only [WorkerPhase.carries, reduceCtorEq, false_iff, Option.some.injEq]
      exact fun hv => hv.2 hv.1.symm
    · rintro (u | r | r) hne v
      · exact Iff.rfl
      · exact Iff.rfl
      · have hr : r ≠ q := fun hr => hne (hr ▸ rfl)
        simp only [WqState.Holds, WqState.setWorker, Function.update_of_ne hr]
        exact Iff.rfl
  · simp [WqState.setWorker, WqState.setPending, Function.update_of_ne hr]
  · simp only [WqState.setWorker, WqState.setPending, Function.update_self]
    exact ⟨hnodup, hlog, hserved, hcurrent⟩

/-- A new queue has a worker. -/
theorem alloc [DecidableEq T] (h : WqInv s) (hfree : s.worker q = none)
    (hret : (s.client t).carries = none) :
    WqInv (((s.setAll (s.allWorkqueues ++ [q])).setWorker q .fetching).goto t
      (.returned none)) := by
  obtain ⟨hnodup, hlog, hserved, hcurrent⟩ := h.queues q
  rw [hfree] at hserved hcurrent
  refine ⟨h.flagged.congr ?_, h.queues_update (q := q) (fun r hr => ?_) ?_, ?_⟩
  · rintro (u | r | r) v
    · have hsame := carries_update (p := .returned none) (f := s.client) hret.symm u
      simp only [WqState.Holds, WqState.goto, WqState.setWorker, WqState.setAll]
      rw [hsame]
    · exact Iff.rfl
    · simp only [WqState.Holds, WqState.goto, WqState.setWorker, WqState.setAll]
      by_cases hr : r = q
      · rw [hr, Function.update_self, hfree]
        rfl
      · rw [Function.update_of_ne hr]
  · simp [WqState.goto, WqState.setWorker, WqState.setAll, Function.update_of_ne hr]
  · simp only [WqState.goto, WqState.setWorker, WqState.setAll, Function.update_self]
    exact ⟨hnodup, hlog, hserved, hcurrent⟩
  · refine h.joined_update (t := t) (fun r hr => ?_) rfl fun r hr => by cases hr
    have hne : r ≠ q := by
      rintro rfl
      cases hfree.symm.trans hr
    simp only [WqState.goto, WqState.setWorker, WqState.setAll]
    rwa [Function.update_of_ne hne]

end Worker

/-! ### Steps -/

variable [DecidableEq W]

theorem enter [DecidableEq T] (h : WqInv s) {ret : Option Bool} (hphase : s.client t = .returned ret) {op : WqOp Q W}
    (hstep : s.enter t op = some s') : WqInv s' := by
  have hnone : (s.client t).carries = none := by
    rw [hphase]
    rfl
  cases op with
  | allocWorkqueue q =>
    simp only [WqState.enter] at hstep
    split_ifs at hstep with hfree
    cases hstep
    exact h.alloc hfree hnone
  | queueWork q w =>
    simp only [WqState.enter] at hstep
    split_ifs at hstep with hbit
    · cases hstep
      exact h.goto hnone.symm fun r hr => by cases hr
    · cases hstep
      exact h.setBit (by simpa using hbit) hnone
  | flushWork w =>
    cases hstep
    exact h.goto hnone.symm fun r hr => by cases hr
  | cancelWorkSync w =>
    cases hstep
    exact h.goto hnone.symm fun r hr => by cases hr
  | drainWorkqueue q =>
    cases hstep
    exact h.goto hnone.symm fun r hr => by cases hr
  | destroyWorkqueue q =>
    cases hstep
    refine h.calm (p := .joining q) rfl hnone.symm rfl (fun r => ?_) (fun r => ?_) rfl rfl rfl
      fun r hr => by cases hr
    · by_cases hr : r = q
      · simp [WqState.goto, WqState.setShutdown, hr]
      · simp [WqState.goto, WqState.setShutdown, hr]
    · by_cases hr : r = q
      · simp [WqState.goto, WqState.setShutdown, hr]
      · simp [WqState.goto, WqState.setShutdown, hr]

theorem advance [DecidableEq T] (h : WqInv s) (hphase : s.client t = p) (hstep : s.advance t p = some s') :
    WqInv s' := by
  have hcarries : p.carries = (s.client t).carries := by rw [hphase]
  cases p with
  | returned ret => cases hstep
  | pushing q w =>
    simp only [WqState.advance] at hstep
    split_ifs at hstep
    cases hstep
    exact h.push hphase
  | flushing w done rest flushed =>
    cases rest with
    | nil =>
      cases hstep
      exact h.goto hcarries fun r hr => by cases hr
    | cons q rest =>
      simp only [WqState.advance] at hstep
      split_ifs at hstep
      all_goals
        cases hstep
        exact h.goto hcarries fun r hr => by cases hr
  | flushWaiting w =>
    cases hstep
    exact h.goto hcarries fun r hr => by cases hr
  | cancelling w done rest cancelled =>
    cases rest with
    | nil =>
      cases hstep
      exact h.goto hcarries fun r hr => by cases hr
    | cons q rest =>
      simp only [WqState.advance] at hstep
      split_ifs at hstep with hfree hin
      · cases hstep
        exact h.takeOut hphase hin
      · cases hstep
        exact h.calm (p := .looking w q done rest cancelled) rfl hcarries rfl (fun _ => rfl)
          (fun _ => rfl) rfl rfl rfl fun r hr => by cases hr
  | clearing w q done rest =>
    cases hstep
    exact h.clearBit hphase
  | looking w q done rest cancelled =>
    simp only [WqState.advance] at hstep
    split_ifs at hstep
    · cases hstep
      exact h.calm (p := .sleeping w q done rest) rfl hcarries rfl (fun _ => rfl)
        (fun _ => rfl) rfl rfl rfl fun r hr => by cases hr
    · cases hstep
      exact h.calm (p := .cancelling w (done ++ [q]) rest cancelled) rfl hcarries rfl
        (fun _ => rfl) (fun _ => rfl) rfl rfl rfl fun r hr => by cases hr
  | sleeping w q done rest =>
    simp only [WqState.advance] at hstep
    split_ifs at hstep
    cases hstep
    exact h.calm (p := .looking w q done rest true) rfl hcarries rfl (fun _ => rfl)
      (fun _ => rfl) rfl rfl rfl fun r hr => by cases hr
  | draining q =>
    simp only [WqState.advance] at hstep
    split_ifs at hstep
    cases hstep
    exact h.goto hcarries fun r hr => by cases hr
  | joining q =>
    simp only [WqState.advance] at hstep
    split_ifs at hstep with hexited
    cases hstep
    refine h.goto hcarries fun r hr => ?_
    cases hr
    exact hexited
  | asserting q =>
    simp only [WqState.advance] at hstep
    split_ifs at hstep
    cases hstep
    exact h.goto hcarries fun r hr => by cases hr
  | retaining q =>
    cases hstep
    exact h.calm (p := .returned none) rfl hcarries rfl (fun _ => rfl) (fun _ => rfl) rfl rfl rfl
      fun r hr => by cases hr

theorem workStep (h : WqInv s) {ph : WorkerPhase W} (hph : s.worker q = some ph)
    (hstep : s.workStep q ph = some s') : WqInv s' := by
  obtain ⟨hnodup, hlog, hserved, hcurrent⟩ := h.queues q
  rw [hph] at hserved hcurrent
  cases ph with
  | fetching =>
    cases hlist : (s.queue q).pendingWork with
    | cons w rest =>
      simp only [WqState.workStep, hlist] at hstep
      split_ifs at hstep
      cases hstep
      exact h.pop hph hlist
    | nil =>
      simp only [WqState.workStep, hlist] at hstep
      split_ifs at hstep
      cases hstep
      exact h.work hph (by simp) rfl rfl rfl rfl (fun _ => rfl) (fun _ _ => ⟨rfl, rfl, rfl⟩)
        ⟨hnodup, hlog, hserved, hcurrent⟩
  | popped w =>
    cases hstep
    refine h.work hph (by simp) rfl rfl rfl rfl (fun r => ?_) (fun r hr => ?_) ?_
    · by_cases hr : r = q
      · simp [WqState.setWorker, WqState.setCurrent, hr]
      · simp [WqState.setWorker, WqState.setCurrent, hr]
    · simp [WqState.setWorker, WqState.setCurrent, hr]
    · simp only [WqState.setWorker, WqState.setCurrent, Function.update_self]
      exact ⟨hnodup, hlog, hserved, rfl⟩
  | announced w =>
    cases hstep
    exact h.start hph
  | running w =>
    cases hstep
    refine h.work hph (by simp) rfl rfl rfl rfl (fun r => ?_) (fun r hr => ?_) ?_
    · by_cases hr : r = q
      · simp [WqState.setWorker, WqState.setFinished, WqState.setCurrent, hr]
      · simp [WqState.setWorker, WqState.setFinished, WqState.setCurrent, hr]
    · simp [WqState.setWorker, WqState.setFinished, WqState.setCurrent, hr]
    · simp only [WqState.setWorker, WqState.setFinished, WqState.setCurrent, Function.update_self]
      refine ⟨hnodup, hlog, ?_, rfl⟩
      rw [hserved]
      simp [WorkerPhase.inHand]
  | exited => cases hstep

theorem step [DecidableEq T] (h : WqInv s) {act : WqAct T Q W} (hstep : wqStep s act = some s') : WqInv s' := by
  cases act with
  | call t op =>
    cases hphase : s.client t with
    | returned ret =>
      simp only [wqStep, hphase] at hstep
      exact h.enter hphase hstep
    | _ => simp [wqStep, hphase] at hstep
  | go t => exact h.advance rfl hstep
  | work q =>
    obtain ⟨ph, hph, hstep⟩ := Option.bind_eq_some_iff.mp hstep
    exact h.workStep hph hstep

theorem run [DecidableEq T] (h : WqInv s) {cond : WqState T Q W → WqAct T Q W → Prop} (hrun : WqRun cond s s') :
    WqInv s' := by
  induction hrun with
  | refl => exact h
  | tail _ hstep ih =>
    obtain ⟨act, -, hstep⟩ := hstep
    exact ih.step hstep

end WqInv

/-! ### Runs -/

section Main

variable {s s' : WqState T Q W} {t : T} {q : Q}

/-- The items of a queue in a run: nothing that was put in line is lost or doubled, and what was not
taken out is served in the order in which it was put in line. -/
theorem WqInv.record (h : WqInv s) (q : Q) :
    (s.finished q ++ s.inHand q ++ (s.queue q).pendingWork).Sublist (s.log q).pushed ∧
      (s.log q).pushed.Perm
        (s.finished q ++ s.inHand q ++ (s.queue q).pendingWork ++ (s.log q).removed) := by
  obtain ⟨-, hlog, hserved, -⟩ := h.queues q
  rw [WqState.inHand, ← hserved]
  exact ⟨hlog.order, hlog.perm⟩

variable [DecidableEq T] [DecidableEq Q] [DecidableEq W]

/-- In every run, the items that were put in line on a queue are, in their order, those that are
finished, the one that the worker has, those that wait and those that were taken out; an item has its
bit set exactly when a thread is about to put it in line or has just taken it out, it waits on a
queue, or a worker has popped it and has not cleared the bit; and that is so in one place only. -/
theorem workqueue_keeps_work (hrun : WqRun (fun _ _ => True) ({} : WqState T Q W) s) :
    (∀ q, (s.finished q ++ s.inHand q ++ (s.queue q).pendingWork).Sublist (s.log q).pushed ∧
      (s.log q).pushed.Perm
        (s.finished q ++ s.inHand q ++ (s.queue q).pendingWork ++ (s.log q).removed)) ∧
      (∀ w, s.pending w = true ↔ ∃ place, s.Holds place w) ∧
      (∀ w place place', s.Holds place w → s.Holds place' w → place = place') ∧
      ∀ q, (s.queue q).pendingWork.Nodup := by
  have hinv := WqInv.init.run hrun
  exact ⟨hinv.record, hinv.flagged.flag, hinv.flagged.unique, fun q => (hinv.queues q).nodup⟩

theorem workqueue_keeps_work_popped : ∃ s : WqState Bool ℕ ℕ,
    WqRun (fun _ _ => True) {} s ∧ s.worker 0 = some (.popped 0) ∧ ∃ place, s.Holds place 0 := by
  obtain ⟨s, hs, hpending, hworker, -⟩ := drainEarly_exec
  have hrun := wqRun_of_exec hs
  exact ⟨s, hrun, hworker, ((workqueue_keeps_work hrun).2.1 0).mp hpending⟩

/-- When `drain_workqueue` returns, everything that was put in line is finished or was taken out, if
and only if the worker has not popped an item that it has not stored in `current_work` yet. When
`destroy_workqueue` has seen that nothing waits, everything is finished or was taken out. -/
theorem drain_and_destroy_finish (hrun : WqRun (fun _ _ => True) ({} : WqState T Q W) s)
    (hstep : wqStep s (.go t) = some s') :
    (s.client t = .draining q → ((s.log q).pushed.Perm (s.finished q ++ (s.log q).removed) ↔
      ∀ w, s.worker q ≠ some (.popped w))) ∧
    (s.client t = .asserting q → (s.log q).pushed.Perm (s.finished q ++ (s.log q).removed)) := by
  have hinv := WqInv.init.run hrun
  obtain ⟨-, hperm⟩ := hinv.record q
  refine ⟨fun hphase => ?_, fun hphase => ?_⟩
  · simp only [wqStep, hphase, WqState.advance] at hstep
    split_ifs at hstep with hfree
    obtain ⟨-, hnil, hcurrent⟩ := hfree
    rw [hnil, List.append_nil] at hperm
    have hworker := (hinv.queues q).current
    rw [hcurrent] at hworker
    constructor
    · -- what the worker has is missing
      intro hdone w hpopped
      have hlen := (hperm.symm.trans hdone).length_eq
      simp [WqState.inHand, hpopped, WorkerPhase.inHand] at hlen
    · intro hnot
      have hhand : s.inHand q = [] := by
        rw [WqState.inHand]
        cases hph : s.worker q with
        | none => rfl
        | some ph =>
          rw [hph] at hworker
          cases ph with
          | popped w => exact absurd hph (hnot w)
          | announced w => cases hworker
          | running w => cases hworker
          | fetching => rfl
          | exited => rfl
      rwa [hhand, List.append_nil] at hperm
  · simp only [wqStep, hphase, WqState.advance] at hstep
    split_ifs at hstep with hfree
    have hhand : s.inHand q = [] := by
      rw [WqState.inHand, hinv.joined t q hphase]
      rfl
    rwa [hfree.2, hhand, List.append_nil, List.append_nil] at hperm

/-- `drain_workqueue` returns while the worker has an item that it has not begun to run. -/
theorem drain_and_destroy_finish_early : ∃ s s' : WqState Bool ℕ ℕ,
    WqRun (fun _ _ => True) {} s ∧ s.client true = .draining 0 ∧ wqStep s (.go true) = some s' ∧
      ¬(s.log 0).pushed.Perm (s.finished 0 ++ (s.log 0).removed) := by
  obtain ⟨s, hs, -, hworker, -, hphase, hstep⟩ := drainEarly_exec
  obtain ⟨s', hstep⟩ := Option.isSome_iff_exists.mp hstep
  have hrun := wqRun_of_exec hs
  refine ⟨s, s', hrun, hphase, hstep, fun hperm => ?_⟩
  exact ((drain_and_destroy_finish hrun hstep).1 hphase).mp hperm 0 hworker

/-- What a worker leaves alone. -/
structure WorkerLeaves (q : Q) (s s' : WqState T Q W) : Prop where
  run : WqRun (fun _ act => act = .work q) s s'
  lock : s'.lock = s.lock
  client : s'.client = s.client
  pushed : (s'.log q).pushed = (s.log q).pushed
  removed : (s'.log q).removed = (s.log q).removed

theorem WorkerLeaves.refl (q : Q) (s : WqState T Q W) : WorkerLeaves q s s := ⟨.refl, rfl, rfl, rfl, rfl⟩

theorem WorkerLeaves.trans {s'' : WqState T Q W} (h : WorkerLeaves q s s')
    (h' : WorkerLeaves q s' s'') : WorkerLeaves q s s'' :=
  ⟨h.run.trans h'.run, h'.lock.trans h.lock, h'.client.trans h.client, h'.pushed.trans h.pushed,
    h'.removed.trans h.removed⟩

theorem WorkerLeaves.work (hstep : wqStep s (.work q) = some s') (hlock : s'.lock = s.lock)
    (hclient : s'.client = s.client) (hpushed : (s'.log q).pushed = (s.log q).pushed)
    (hremoved : (s'.log q).removed = (s.log q).removed) : WorkerLeaves q s s' :=
  ⟨.single ⟨_, rfl, hstep⟩, hlock, hclient, hpushed, hremoved⟩

/-- A worker gets done with what it has. -/
theorem worker_finishes {f : WorkerPhase W} (hph : s.worker q = some f) (hne : f ≠ .exited) :
    ∃ s', WorkerLeaves q s s' ∧ s'.worker q = some .fetching ∧
      (s'.queue q).pendingWork = (s.queue q).pendingWork ∧
      s'.finished q = s.finished q ++ f.inHand := by
  -- from the place behind the clearing of the bit, then from the places in front of it
  have hrunning : ∀ (s : WqState T Q W) (w : W), s.worker q = some (.running w) →
      ∃ s', WorkerLeaves q s s' ∧ s'.worker q = some .fetching ∧
        (s'.queue q).pendingWork = (s.queue q).pendingWork ∧
        s'.finished q = s.finished q ++ [w] := by
    intro s w hph
    let s₁ := ((s.setCurrent q none).setFinished q (s.finished q ++ [w])).setWorker q .fetching
    have hwork : WorkerLeaves q s s₁ := .work (by rw [wqStep, hph]; rfl) rfl rfl rfl rfl
    refine ⟨s₁, hwork, ?_, ?_, ?_⟩
    · simp [s₁, WqState.setWorker]
    · simp [s₁, WqState.setWorker, WqState.setFinished, WqState.setCurrent]
    · simp [s₁, WqState.setWorker, WqState.setFinished]
  have hannounced : ∀ (s : WqState T Q W) (w : W), s.worker q = some (.announced w) →
      ∃ s', WorkerLeaves q s s' ∧ s'.worker q = some .fetching ∧
        (s'.queue q).pendingWork = (s.queue q).pendingWork ∧
        s'.finished q = s.finished q ++ [w] := by
    intro s w hph
    let s₁ := (s.setPending w false).setWorker q (.running w)
    have hwork : WorkerLeaves q s s₁ := .work (by rw [wqStep, hph]; rfl) rfl rfl rfl rfl
    obtain ⟨s', hleaves, hrest⟩ := hrunning s₁ w (by simp [s₁, WqState.setWorker])
    exact ⟨s', hwork.trans hleaves, hrest⟩
  cases f with
  | fetching => exact ⟨s, .refl q s, hph, rfl, (List.append_nil _).symm⟩
  | popped w =>
    let s₁ := (s.setCurrent q (some w)).setWorker q (.announced w)
    have hwork : WorkerLeaves q s s₁ := .work (by rw [wqStep, hph]; rfl) rfl rfl rfl rfl
    obtain ⟨s', hleaves, hworker, hlist, hfinished⟩ :=
      hannounced s₁ w (by simp [s₁, WqState.setWorker])
    refine ⟨s', hwork.trans hleaves, hworker, ?_, hfinished⟩
    rw [hlist]
    simp [s₁, WqState.setWorker, WqState.setCurrent]
  | announced w => exact hannounced s w hph
  | running w => exact hrunning s w hph
  | exited => exact absurd rfl hne

/-- A worker that has nothing runs what waits. -/
theorem worker_runs_list (hlock : s.lock q = none) (hph : s.worker q = some .fetching)
    {l : List W} (hlist : (s.queue q).pendingWork = l) :
    ∃ s', WorkerLeaves q s s' ∧ s'.worker q = some .fetching ∧ (s'.queue q).pendingWork = [] ∧
      s'.finished q = s.finished q ++ l := by
  induction l generalizing s with
  | nil => exact ⟨s, .refl q s, hph, hlist, (List.append_nil _).symm⟩
  | cons w rest ih =>
    let s₁ := (s.putList q rest ((s.log q).pop w)).setWorker q (.popped w)
    have hpop : WorkerLeaves q s s₁ := by
      refine .work ?_ rfl rfl ?_ ?_
      · rw [wqStep, hph, Option.bind_some, WqState.workStep, if_pos hlock, hlist]
      · simp [s₁, WqState.setWorker, WqState.putList, FifoLog.pop]
      · simp [s₁, WqState.setWorker, WqState.putList, FifoLog.pop]
    obtain ⟨s₂, hleaves, hfetch, hlist₂, hfinished⟩ :=
      worker_finishes (s := s₁) (q := q) (f := .popped w) (by simp [s₁, WqState.setWorker])
        (by simp)
    have hrest : (s₂.queue q).pendingWork = rest := by
      rw [hlist₂]
      simp [s₁, WqState.setWorker, WqState.putList]
    obtain ⟨s₃, hleaves₃, hfetch₃, hlist₃, hfinished₃⟩ :=
      ih (by rw [hleaves.lock, hpop.lock, hlock]) hfetch hrest
    refine ⟨s₃, (hpop.trans hleaves).trans hleaves₃, hfetch₃, hlist₃, ?_⟩
    rw [hfinished₃, hfinished, List.append_assoc]
    rfl

/-- From every state of a run in which nobody has the lock of a queue and its worker has not ended,
steps of the worker alone finish all that it has and all that waits, in this order. Then everything
that was put in line is finished or was taken out, and the threads that drain the queue return. -/
theorem worker_empties (hrun : WqRun (fun _ _ => True) ({} : WqState T Q W) s)
    (hlock : s.lock q = none) {ph : WorkerPhase W} (hph : s.worker q = some ph)
    (hne : ph ≠ .exited) :
    ∃ s', WqRun (fun _ act => act = .work q) s s' ∧
      s'.finished q = s.finished q ++ s.inHand q ++ (s.queue q).pendingWork ∧
      (s.log q).pushed.Perm (s'.finished q ++ (s.log q).removed) ∧
      ∀ t, s.client t = .draining q → wqStep s' (.go t) = some (s'.goto t (.returned none)) := by
  have hinv := WqInv.init.run hrun
  obtain ⟨s₁, hleaves₁, hfetch₁, hlist₁, hfinished₁⟩ := worker_finishes hph hne
  obtain ⟨s₂, hleaves₂, hfetch₂, hlist₂, hfinished₂⟩ :=
    worker_runs_list (by rw [hleaves₁.lock, hlock]) hfetch₁ hlist₁
  have hleaves := hleaves₁.trans hleaves₂
  have hhand : s.inHand q = ph.inHand := by rw [WqState.inHand, hph]; rfl
  have hall : s₂.finished q = s.finished q ++ s.inHand q ++ (s.queue q).pendingWork := by
    rw [hfinished₂, hfinished₁, hhand]
  refine ⟨s₂, hleaves.run, hall, ?_, fun t ht => ?_⟩
  · rw [hall]
    exact (hinv.record q).2
  · have hcurrent := ((hinv.run hleaves.run).queues q).current
    rw [hfetch₂] at hcurrent
    rw [wqStep, hleaves.client, ht, WqState.advance,
      if_pos ⟨(congrFun hleaves.lock q).trans hlock, hlist₂, hcurrent⟩]

theorem worker_empties_popped : ∃ s s' : WqState Bool ℕ ℕ,
    WqRun (fun _ _ => True) {} s ∧ s.worker 0 = some (.popped 0) ∧
      WqRun (fun _ act => act = .work 0) s s' ∧ (s.log 0).pushed.Perm
        (s'.finished 0 ++ (s.log 0).removed) := by
  obtain ⟨s, hs, -, hworker, hlock, -⟩ := drainEarly_exec
  have hrun := wqRun_of_exec hs
  obtain ⟨s', hrun', -, hperm, -⟩ := worker_empties hrun hlock hworker (by simp)
  exact ⟨s, s', hrun, hworker, hrun', hperm⟩

end Main

end Subvol

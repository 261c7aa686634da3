import Mathlib.Logic.Relation
import Subvol.Lib.Queued

/-!
# Work queues

Threads put work in line on queues, each of which has one worker that runs the work function of one
work item after the other. A bit of the item says that it is in line. The model has one step for
every access to the bit of an item or to `current_work`, and for every section in which the lock of a
queue is held, except where a thread that cancels works on while it holds the lock. An allocation is
one step. A thread that waits looks again whenever it can.

What a work function does is done by a thread of its own: it may put the item in line again.

## Main definitions

* `Workqueue`, `WorkerPhase`, `WqPhase`, `WqState`: the queues, their workers and the threads.
* `wqStep`, `WqRun`: steps and runs.
-/

namespace Subvol

open Lib

variable {T Q W : Type*}

/-- `workqueue_struct`. -/
structure Workqueue (W : Type*) where
  pendingWork : List W := []
  currentWork : Option W := none
  shutdown : Bool := false
deriving DecidableEq, Repr

/-- Where the worker of a queue is in `worker_thread`. -/
inductive WorkerPhase (W : Type*)
  | fetching
  | popped (w : W)
  | announced (w : W)
  | running (w : W)
  | exited
deriving DecidableEq, Repr

namespace WorkerPhase

/-- The item whose bit the worker has not cleared yet. -/
def carries : WorkerPhase W → Option W
  | popped w => some w
  | announced w => some w
  | _ => none

/-- The item that the worker has taken and not finished. -/
def inHand : WorkerPhase W → List W
  | popped w => [w]
  | announced w => [w]
  | running w => [w]
  | _ => []

/-- What the worker has stored in `current_work`. -/
def current : WorkerPhase W → Option W
  | announced w => some w
  | running w => some w
  | _ => none

end WorkerPhase

/-- Where a thread is. A thread that goes through all queues has the queues that it is done with and
those that are left. -/
inductive WqPhase (Q W : Type*)
  | returned (ret : Option Bool)
  -- `queue_work` when the bit was clear
  | pushing (q : Q) (w : W)
  -- `flush_work`
  | flushing (w : W) (done rest : List Q) (flushed : Bool)
  | flushWaiting (w : W)
  -- `cancel_work_sync`
  | cancelling (w : W) (done rest : List Q) (cancelled : Bool)
  | clearing (w : W) (q : Q) (done rest : List Q)
  | looking (w : W) (q : Q) (done rest : List Q) (cancelled : Bool)
  | sleeping (w : W) (q : Q) (done rest : List Q)
  -- `drain_workqueue` and `destroy_workqueue`
  | draining (q : Q)
  | joining (q : Q)
  | asserting (q : Q)
  | retaining (q : Q)
deriving DecidableEq, Repr

/-- The calls of a thread. `schedule_work` is `queue_work` on the queue of the system. -/
inductive WqOp (Q W : Type*)
  | allocWorkqueue (q : Q)
  | queueWork (q : Q) (w : W)
  | flushWork (w : W)
  | cancelWorkSync (w : W)
  | drainWorkqueue (q : Q)
  | destroyWorkqueue (q : Q)
deriving DecidableEq, Repr

/-- A thread makes a call or goes on, or the worker of a queue does. -/
inductive WqAct (T Q W : Type*)
  | call (t : T) (op : WqOp Q W)
  | go (t : T)
  | work (q : Q)
deriving DecidableEq, Repr

/-- The queues, their workers and the threads. A queue that has not been allocated has no worker,
`lock` is the thread that has the lock of `pending_work`. What happened to the items of a queue is
kept beside it: `log`, and `finished` for the work functions that have returned. No step of the code
looks at them. -/
structure WqState (T Q W : Type*) where
  pending : W → Bool := fun _ => false
  queue : Q → Workqueue W := fun _ => {}
  lock : Q → Option T := fun _ => none
  worker : Q → Option (WorkerPhase W) := fun _ => none
  client : T → WqPhase Q W := fun _ => .returned none
  allWorkqueues : List Q := []
  log : Q → FifoLog W := fun _ => {}
  finished : Q → List W := fun _ => []

namespace WqState

variable [DecidableEq T] [DecidableEq Q] [DecidableEq W]

def goto (s : WqState T Q W) (t : T) (p : WqPhase Q W) : WqState T Q W :=
  { s with client := Function.update s.client t p }

def setPending (s : WqState T Q W) (w : W) (b : Bool) : WqState T Q W :=
  { s with pending := Function.update s.pending w b }

def setLock (s : WqState T Q W) (q : Q) (holder : Option T) : WqState T Q W :=
  { s with lock := Function.update s.lock q holder }

def setWorker (s : WqState T Q W) (q : Q) (p : WorkerPhase W) : WqState T Q W :=
  { s with worker := Function.update s.worker q (some p) }

/-- A new list of waiting items, and what happened to them. -/
def putList (s : WqState T Q W) (q : Q) (pendingWork : List W) (log : FifoLog W) : WqState T Q W :=
  { s with
    queue := Function.update s.queue q { s.queue q with pendingWork := pendingWork }
    log := Function.update s.log q log }

def setCurrent (s : WqState T Q W) (q : Q) (currentWork : Option W) : WqState T Q W :=
  { s with queue := Function.update s.queue q { s.queue q with currentWork := currentWork } }

def setShutdown (s : WqState T Q W) (q : Q) : WqState T Q W :=
  { s with queue := Function.update s.queue q { s.queue q with shutdown := true } }

def setFinished (s : WqState T Q W) (q : Q) (finished : List W) : WqState T Q W :=
  { s with finished := Function.update s.finished q finished }

def setAll (s : WqState T Q W) (allWorkqueues : List Q) : WqState T Q W :=
  { s with allWorkqueues := allWorkqueues }

/-- A call, as far as its first step. -/
def enter (s : WqState T Q W) (t : T) : WqOp Q W → Option (WqState T Q W)
  | .allocWorkqueue q =>
    if s.worker q = none then
      some (((s.setAll (s.allWorkqueues ++ [q])).setWorker q .fetching).goto t (.returned none))
    else none
  | .queueWork q w =>
    if s.pending w then some (s.goto t (.returned (some false)))
    else some ((s.setPending w true).goto t (.pushing q w))
  | .flushWork w => some (s.goto t (.flushing w [] s.allWorkqueues false))
  | .cancelWorkSync w => some (s.goto t (.cancelling w [] s.allWorkqueues false))
  | .drainWorkqueue q => some (s.goto t (.draining q))
  | .destroyWorkqueue q => some ((s.setShutdown q).goto t (.joining q))

/-- The next step of a thread from where it is. -/
def advance (s : WqState T Q W) (t : T) : WqPhase Q W → Option (WqState T Q W)
  | .returned _ => none
  | .pushing q w =>
    if s.lock q = none then
      some ((s.putList q ((s.queue q).pendingWork ++ [w]) ((s.log q).push w)).goto t
        (.returned (some true)))
    else none
  | .flushing _ _ [] flushed => some (s.goto t (.returned (some flushed)))
  | .flushing w done (q :: rest) flushed =>
    if s.lock q = none then
      if (s.queue q).currentWork = some w ∨ w ∈ (s.queue q).pendingWork then
        some (s.goto t (.flushWaiting w))
      else some (s.goto t (.flushing w (done ++ [q]) rest flushed))
    else none
  | .flushWaiting w => some (s.goto t (.flushing w [] s.allWorkqueues true))
  | .cancelling _ _ [] cancelled => some (s.goto t (.returned (some cancelled)))
  | .cancelling w done (q :: rest) cancelled =>
    if s.lock q = none then
      if w ∈ (s.queue q).pendingWork then
        some (((s.putList q ((s.queue q).pendingWork.erase w) ((s.log q).remove w)).setLock q
          (some t)).goto t (.clearing w q done rest))
      else some ((s.setLock q (some t)).goto t (.looking w q done rest cancelled))
    else none
  | .clearing w q done rest =>
    some ((s.setPending w false).goto t (.looking w q done rest true))
  | .looking w q done rest cancelled =>
    if (s.queue q).currentWork = some w then
      some ((s.setLock q none).goto t (.sleeping w q done rest))
    else some ((s.setLock q none).goto t (.cancelling w (done ++ [q]) rest cancelled))
  | .sleeping w q done rest =>
    if s.lock q = none then
      some ((s.setLock q (some t)).goto t (.looking w q done rest true))
    else none
  | .draining q =>
    if s.lock q = none ∧ (s.queue q).pendingWork = [] ∧ (s.queue q).currentWork = none then
      some (s.goto t (.returned none))
    else none
  | .joining q => if s.worker q = some .exited then some (s.goto t (.asserting q)) else none
  | .asserting q =>
    if s.lock q = none ∧ (s.queue q).pendingWork = [] then some (s.goto t (.retaining q)) else none
  | .retaining q => some ((s.setAll (s.allWorkqueues.filter (· ≠ q))).goto t (.returned none))

/-- The next step of the worker of a queue. -/
def workStep (s : WqState T Q W) (q : Q) : WorkerPhase W → Option (WqState T Q W)
  | .fetching =>
    if s.lock q = none then
      match (s.queue q).pendingWork with
      | w :: rest => some ((s.putList q rest ((s.log q).pop w)).setWorker q (.popped w))
      | [] => if (s.queue q).shutdown then some (s.setWorker q .exited) else none
    else none
  | .popped w => some ((s.setCurrent q (some w)).setWorker q (.announced w))
  | .announced w => some ((s.setPending w false).setWorker q (.running w))
  | .running w => some (((s.setCurrent q none).setFinished q (s.finished q ++ [w])).setWorker q
      .fetching)
  | .exited => none

end WqState

section Runs

variable [DecidableEq T] [DecidableEq Q] [DecidableEq W]

def wqStep (s : WqState T Q W) : WqAct T Q W → Option (WqState T Q W)
  | .call t op =>
    match s.client t with
    | .returned _ => s.enter t op
    | _ => none
  | .go t => s.advance t (s.client t)
  | .work q => (s.worker q).bind (s.workStep q)

/-- The runs whose steps meet a condition on the state before them. -/
def WqRun (cond : WqState T Q W → WqAct T Q W → Prop) : WqState T Q W → WqState T Q W → Prop :=
  Relation.ReflTransGen fun s s' => ∃ act, cond s act ∧ wqStep s act = some s'

/-- The state behind given steps, if they meet the condition. -/
def wqExec (cond : WqState T Q W → WqAct T Q W → Prop) [∀ s act, Decidable (cond s act)]
    (s : WqState T Q W) (acts : List (WqAct T Q W)) : Option (WqState T Q W) :=
  acts.foldlM (fun s act => if cond s act then wqStep s act else none) s

theorem wqRun_of_exec {cond : WqState T Q W → WqAct T Q W → Prop}
    [∀ s act, Decidable (cond s act)] {s s' : WqState T Q W} {acts : List (WqAct T Q W)}
    (h : wqExec cond s acts = some s') : WqRun cond s s' := by
  induction acts generalizing s with
  | nil =>
    cases h
    exact .refl
  | cons act acts ih =>
    obtain ⟨s₁, hstep, hexec⟩ := Option.bind_eq_some_iff.mp h
    simp only [Option.ite_none_right_eq_some] at hstep
    obtain ⟨hcond, hstep⟩ := hstep
    exact .head ⟨act, hcond, hstep⟩ (ih hexec)

end Runs

/-- An item is put in line and popped by the worker, and another thread drains the queue. -/
def drainEarly : List (WqAct Bool ℕ ℕ) :=
  [.call false (.allocWorkqueue 0), .call false (.queueWork 0 0), .go false, .work 0,
    .call true (.drainWorkqueue 0)]

theorem drainEarly_exec : ∃ s, wqExec (fun _ _ => True) {} drainEarly = some s ∧ s.pending 0 = true ∧
    s.worker 0 = some (.popped 0) ∧ s.lock 0 = none ∧ s.client true = .draining 0 ∧
    (wqStep s (.go true)).isSome := by
  have hexec : (wqExec (fun _ _ => True) {} drainEarly).map (fun s =>
      (s.pending 0, s.worker 0, s.lock 0, s.client true, (wqStep s (.go true)).isSome)) =
      some (true, some (.popped 0), none, .draining 0, true) := by
    decide +kernel
  obtain ⟨s, hs, heq⟩ := Option.map_eq_some_iff.mp hexec
  simp only [Prod.mk.injEq] at heq
  exact ⟨s, hs, heq⟩

end Subvol

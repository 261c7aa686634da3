import Subvol.Util.WorkqueueRun

/-!
# Work that is flushed or cancelled

When `flush_work` or `cancel_work_sync` returns, no queue has the item any more, if nobody has put it
in line since and the thread has not looked at a queue whose worker had popped the item and not yet
stored it in `current_work`. So the item can be freed.

## Main definitions

* `WqState.Gone`: a queue does not have an item.
* `LeavesAlone`: the condition on the steps.
* `WqState.Passed`: what a thread that goes through the queues knows of them.

## Main results

* `flush_and_cancel_wait`.
-/

namespace Subvol

open Lib

variable {T Q W : Type*}

namespace WqState

variable {s s' : WqState T Q W} {w : W} {q : Q} {t : T}

/-- The item neither waits on the queue nor does the worker have it. -/
def Gone (s : WqState T Q W) (w : W) (q : Q) : Prop :=
  w ∉ (s.queue q).pendingWork ∧ w ∉ s.inHand q

/-- No thread is about to put the item in line. -/
def NoPusher (s : WqState T Q W) (w : W) : Prop := ∀ t q, s.client t ≠ .pushing q w

end WqState

/-- The queue that a thread looks for its item on. -/
def WqPhase.looksAt : WqPhase Q W → Option Q
  | flushing _ _ (q :: _) _ => some q
  | looking _ q _ _ _ => some q
  | _ => none

/-- Nobody begins to put the item in line. -/
def NotQueued (w : W) : WqAct T Q W → Prop
  | .call _ (.queueWork _ v) => v ≠ w
  | _ => True

/-- Nobody begins to put the item in line, and the thread does not look at a queue whose worker has
popped the item and not stored it in `current_work`. -/
def LeavesAlone (w : W) (t : T) (s : WqState T Q W) (act : WqAct T Q W) : Prop :=
  NotQueued w act ∧
    (act = .go t → ∀ q ∈ (s.client t).looksAt, s.worker q ≠ some (.popped w))

instance [DecidableEq W] (w : W) (act : WqAct T Q W) : Decidable (NotQueued w act) :=
  match act with
  | .call _ (.queueWork _ v) => inferInstanceAs (Decidable (v ≠ w))
  | .call _ (.allocWorkqueue _) => .isTrue trivial
  | .call _ (.flushWork _) => .isTrue trivial
  | .call _ (.cancelWorkSync _) => .isTrue trivial
  | .call _ (.drainWorkqueue _) => .isTrue trivial
  | .call _ (.destroyWorkqueue _) => .isTrue trivial
  | .go _ => .isTrue trivial
  | .work _ => .isTrue trivial

instance [DecidableEq T] [DecidableEq Q] [DecidableEq W] (w : W) (t : T) (s : WqState T Q W)
    (act : WqAct T Q W) : Decidable (LeavesAlone w t s act) :=
  inferInstanceAs (Decidable (_ ∧ (_ → ∀ q ∈ (s.client t).looksAt, _)))

/-! ### What a step does -/

variable {s s' : WqState T Q W} {t : T} {q : Q} {w : W}

/-- The thread that makes a step. -/
def WqAct.thread : WqAct T Q W → Option T
  | call t _ => some t
  | go t => some t
  | work _ => none

/-- Items come to a queue from the threads that put them in line, and to a worker from its queue. A
thread only begins to put an item in line with a call. A queue gets on the list of all queues when it
gets its worker. -/
structure StepFacts (s s' : WqState T Q W) (act : WqAct T Q W) : Prop where
  list : ∀ q v, v ∈ (s'.queue q).pendingWork →
    v ∈ (s.queue q).pendingWork ∨ ∃ t, s.client t = .pushing q v
  hand : ∀ q v, v ∈ s'.inHand q → v ∈ s.inHand q ∨ v ∈ (s.queue q).pendingWork
  worker : ∀ q, s.worker q ≠ none → s'.worker q ≠ none
  all : ∀ q ∈ s'.allWorkqueues, q ∈ s.allWorkqueues ∨ s.worker q = none ∧ s'.worker q ≠ none
  client : ∀ u, act.thread ≠ some u → s'.client u = s.client u
  pusher : ∀ u q v, s'.client u = .pushing q v →
    s.client u = .pushing q v ∨ act = .call u (.queueWork q v)

/-- A thread goes on. -/
theorem StepFacts.ofThread [DecidableEq T] {act : WqAct T Q W} {p : WqPhase Q W} (hthread : act.thread = some t)
    (hclient : s'.client = Function.update s.client t p)
    (hp : ∀ q v, p = .pushing q v → act = .call t (.queueWork q v))
    (hlist : ∀ q v, v ∈ (s'.queue q).pendingWork →
      v ∈ (s.queue q).pendingWork ∨ s.client t = .pushing q v)
    (hworker : s'.worker = s.worker) (hall : ∀ q ∈ s'.allWorkqueues, q ∈ s.allWorkqueues) :
    StepFacts s s' act where
  list q v hv := (hlist q v hv).imp_right fun hpush => ⟨t, hpush⟩
  hand q v hv := by
    rw [WqState.inHand, hworker] at hv
    exact .inl hv
  worker q := by rw [hworker]; exact id
  all q hq := .inl (hall q hq)
  client u hu := by
    rw [hclient, Function.update_of_ne]
    rintro rfl
    exact hu hthread
  pusher u q v hu := by
    rw [hclient] at hu
    by_cases hut : u = t
    · rw [hut, Function.update_self] at hu
      exact .inr (hut ▸ hp q v hu)
    · rw [Function.update_of_ne hut] at hu
      exact .inl hu

/-- A worker goes on. -/
theorem StepFacts.ofWorker [DecidableEq Q] {r : Q} {f : WorkerPhase W}
    (hworker : s'.worker = Function.update s.worker r (some f)) (hclient : s'.client = s.client)
    (hall : s'.allWorkqueues = s.allWorkqueues)
    (hlist : ∀ q v, v ∈ (s'.queue q).pendingWork → v ∈ (s.queue q).pendingWork)
    (hhand : ∀ v ∈ f.inHand, v ∈ s.inHand r ∨ v ∈ (s.queue r).pendingWork) :
    StepFacts s s' (.work r) where
  list q v hv := .inl (hlist q v hv)
  hand q v hv := by
    rw [WqState.inHand, hworker] at hv
    by_cases hq : q = r
    · rw [hq, Function.update_self] at hv
      exact hq ▸ hhand v hv
    · rw [Function.update_of_ne hq] at hv
      exact .inl hv
  worker q hq := by
    rw [hworker]
    by_cases hqr : q = r
    · rw [hqr, Function.update_self]
      exact Option.some_ne_none f
    · rwa [Function.update_of_ne hqr]
  all q hq := .inl (hall ▸ hq)
  client u _ := by rw [hclient]
  pusher u q v hu := .inl (hclient ▸ hu)

section Step

variable [DecidableEq T] [DecidableEq Q] [DecidableEq W]

theorem StepFacts.enter {op : WqOp Q W} (hstep : s.enter t op = some s') :
    StepFacts s s' (.call t op) := by
  cases op with
  | allocWorkqueue q =>
    simp only [WqState.enter] at hstep
    split_ifs at hstep with hfree
    cases hstep
    refine ⟨fun _ _ => .inl, fun r v hv => ?_, fun r hr => ?_, fun r hr => ?_, fun u hu => ?_,
      fun u r v hu => ?_⟩
    · simp only [WqState.inHand, WqState.goto, WqState.setWorker, WqState.setAll] at hv
      by_cases hr : r = q
      · rw [hr, Function.update_self] at hv
        cases hv
      · rw [Function.update_of_ne hr] at hv
        exact .inl hv
    · simp only [WqState.goto, WqState.setWorker, WqState.setAll]
      rw [Function.update_of_ne]
      · exact hr
      · rintro rfl
        exact hr hfree
    · rcases List.mem_append.mp hr with hr | hr
      · exact .inl hr
      · obtain rfl := List.mem_singleton.mp hr
        refine .inr ⟨hfree, ?_⟩
        simp [WqState.goto, WqState.setWorker]
    · have hut : u ≠ t := fun hut => hu (hut ▸ rfl)
      exact Function.update_of_ne hut ..
    · simp only [WqState.goto, WqState.setWorker, WqState.setAll] at hu
      by_cases hut : u = t
      · rw [hut, Function.update_self] at hu
        cases hu
      · rw [Function.update_of_ne hut] at hu
        exact .inl hu
  | queueWork q w =>
    simp only [WqState.enter] at hstep
    split_ifs at hstep
    · cases hstep
      exact .ofThread rfl rfl (by simp) (fun _ _ => .inl) rfl fun _ => id
    · cases hstep
      refine .ofThread rfl rfl (fun r v hp => ?_) (fun _ _ => .inl) rfl fun _ => id
      cases hp
      rfl
  | flushWork w =>
    cases hstep
    exact .ofThread rfl rfl (by simp) (fun _ _ => .inl) rfl fun _ => id
  | cancelWorkSync w =>
    cases hstep
    exact .ofThread rfl rfl (by simp) (fun _ _ => .inl) rfl fun _ => id
  | drainWorkqueue q =>
    cases hstep
    exact .ofThread rfl rfl (by simp) (fun _ _ => .inl) rfl fun _ => id
  | destroyWorkqueue q =>
    cases hstep
    refine .ofThread rfl rfl (by simp) (fun r v hv => ?_) rfl fun _ => id
    by_cases hr : r = q
    · subst hr
      exact .inl (by simpa [WqState.goto, WqState.setShutdown] using hv)
    · exact .inl (by simpa [WqState.goto, WqState.setShutdown, hr] using hv)

theorem StepFacts.advance (hstep : s.advance t (s.client t) = some s') :
    StepFacts s s' (.go t) := by
  cases hphase : s.client t with
  | pushing q w =>
    simp only [hphase, WqState.advance] at hstep
    split_ifs at hstep
    cases hstep
    refine .ofThread rfl rfl (by simp) (fun r v hv => ?_) rfl fun _ => id
    by_cases hr : r = q
    · subst hr
      simp only [WqState.goto, WqState.putList, Function.update_self, List.mem_append,
        List.mem_singleton] at hv
      refine hv.imp_right ?_
      rintro rfl
      exact hphase
    · exact .inl (by simpa [WqState.goto, WqState.putList, hr] using hv)
  | cancelling w done rest cancelled =>
    cases rest with
    | nil =>
      rw [hphase] at hstep
      cases hstep
      exact .ofThread rfl rfl (by simp) (fun _ _ => .inl) rfl fun _ => id
    | cons q rest =>
      simp only [hphase, WqState.advance] at hstep
      split_ifs at hstep
      · cases hstep
        refine .ofThread rfl rfl (by simp) (fun r v hv => .inl ?_) rfl fun _ => id
        by_cases hr : r = q
        · subst hr
          simp only [WqState.goto, WqState.setLock, WqState.putList, Function.update_self] at hv
          exact List.mem_of_mem_erase hv
        · simpa [WqState.goto, WqState.setLock, WqState.putList, hr] using hv
      · cases hstep
        exact .ofThread rfl rfl (by simp) (fun _ _ => .inl) rfl fun _ => id
  | retaining q =>
    rw [hphase] at hstep
    cases hstep
    exact .ofThread rfl rfl (by simp) (fun _ _ => .inl) rfl fun _ => List.mem_of_mem_filter
  | flushing w done rest flushed =>
    cases rest with
    | nil =>
      rw [hphase] at hstep
      cases hstep
      exact .ofThread rfl rfl (by simp) (fun _ _ => .inl) rfl fun _ => id
    | cons q rest =>
      simp only [hphase, WqState.advance] at hstep
      split_ifs at hstep
      all_goals
        cases hstep
        exact .ofThread rfl rfl (by simp) (fun _ _ => .inl) rfl fun _ => id
  | _ =>
    simp only [hphase, WqState.advance] at hstep
    try split_ifs at hstep
    all_goals
      cases hstep
      try exact .ofThread rfl rfl (by simp) (fun _ _ => .inl) rfl fun _ => id

omit [DecidableEq T] in
theorem StepFacts.workStep {ph : WorkerPhase W} (hph : s.worker q = some ph)
    (hstep : s.workStep q ph = some s') : StepFacts s s' (.work q) := by
  have hhand : s.inHand q = ph.inHand := by
    rw [WqState.inHand, hph]
    rfl
  cases ph with
  | fetching =>
    cases hlist : (s.queue q).pendingWork with
    | cons w rest =>
      simp only [WqState.workStep, hlist] at hstep
      split_ifs at hstep
      cases hstep
      refine .ofWorker (f := .popped w) rfl rfl rfl (fun r v hv => ?_) fun v hv => ?_
      · by_cases hr : r = q
        · subst hr
          rw [hlist]
          simp only [WqState.setWorker, WqState.putList, Function.update_self] at hv
          exact List.mem_cons_of_mem w hv
        · simpa [WqState.setWorker, WqState.putList, hr] using hv
      · rw [hlist, List.mem_singleton.mp hv]
        exact .inr List.mem_cons_self
    | nil =>
      simp only [WqState.workStep, hlist] at hstep
      split_ifs at hstep
      cases hstep
      exact .ofWorker (f := .exited) rfl rfl rfl (fun _ _ => id) fun v hv => by cases hv
  | popped w =>
    cases hstep
    refine .ofWorker (f := .announced w) rfl rfl rfl (fun r v hv => ?_) fun v hv => ?_
    · by_cases hr : r = q
      · subst hr
        simpa [WqState.setWorker, WqState.setCurrent] using hv
      · simpa [WqState.setWorker, WqState.setCurrent, hr] using hv
    · rw [hhand]
      exact .inl hv
  | announced w =>
    cases hstep
    refine .ofWorker (f := .running w) rfl rfl rfl (fun _ _ => id) fun v hv => ?_
    rw [hhand]
    exact .inl hv
  | running w =>
    cases hstep
    refine .ofWorker (f := .fetching) rfl rfl rfl (fun r v hv => ?_) fun v hv => by cases hv
    by_cases hr : r = q
    · subst hr
      simpa [WqState.setWorker, WqState.setFinished, WqState.setCurrent] using hv
    · simpa [WqState.setWorker, WqState.setFinished, WqState.setCurrent, hr] using hv
  | exited => cases hstep

theorem StepFacts.of_step {act : WqAct T Q W} (hstep : wqStep s act = some s') :
    StepFacts s s' act := by
  cases act with
  | call t op =>
    cases hphase : s.client t with
    | returned ret =>
      simp only [wqStep, hphase] at hstep
      exact .enter hstep
    | _ => simp [wqStep, hphase] at hstep
  | go t => exact .advance hstep
  | work q =>
    obtain ⟨ph, hph, hstep⟩ := Option.bind_eq_some_iff.mp hstep
    exact .workStep hph hstep

end Step

/-! ### What the threads know -/

theorem WqState.NoPusher.step {act : WqAct T Q W} (h : s.NoPusher w) (hact : NotQueued w act)
    (hfacts : StepFacts s s' act) : s'.NoPusher w := by
  intro u q hu
  rcases hfacts.pusher u q w hu with hu | rfl
  · exact h u q hu
  · exact hact rfl

theorem WqState.Gone.step {act : WqAct T Q W} (h : s.Gone w q) (hno : s.NoPusher w)
    (hfacts : StepFacts s s' act) : s'.Gone w q := by
  refine ⟨fun hin => ?_, fun hin => ?_⟩
  · rcases hfacts.list q w hin with hin | ⟨t, ht⟩
    · exact h.1 hin
    · exact hno t q ht
  · exact (hfacts.hand q w hin).elim h.2 h.1

/-- The thread is done with some queues, which do not have the item, and the given queues are among
these and those that are left, if they are still there. -/
structure WqState.Through (s : WqState T Q W) (w : W) (queues done rest : List Q) : Prop where
  gone : ∀ q ∈ done, s.Gone w q
  all : ∀ q ∈ s.allWorkqueues, q ∈ queues → q ∈ done ++ rest

/-- What a thread that goes through the queues for an item knows where it is. -/
def WqState.Passed (s : WqState T Q W) (w : W) (queues : List Q) : WqPhase Q W → Prop
  | .flushing v done rest _ => v = w → s.Through w queues done rest
  | .cancelling v done rest _ => v = w → s.Through w queues done rest
  | .clearing v q done rest =>
    v = w → s.Through w queues done (q :: rest) ∧ w ∉ (s.queue q).pendingWork
  | .looking v q done rest _ =>
    v = w → s.Through w queues done (q :: rest) ∧ w ∉ (s.queue q).pendingWork
  | .sleeping v q done rest =>
    v = w → s.Through w queues done (q :: rest) ∧ w ∉ (s.queue q).pendingWork
  | _ => True

/-- The steps of a call of a thread that goes through the queues for an item. -/
structure CallInv (s : WqState T Q W) (w : W) (t : T) (queues : List Q) : Prop where
  inv : WqInv s
  noPusher : s.NoPusher w
  allocated : ∀ q ∈ queues, s.worker q ≠ none
  passed : s.Passed w queues (s.client t)

namespace CallInv

variable {queues done rest : List Q} {act : WqAct T Q W} {p : WqPhase Q W}

theorem through (h : CallInv s w t queues) (hfacts : StepFacts s s' act)
    (hthrough : s.Through w queues done rest) : s'.Through w queues done rest where
  gone q hq := (hthrough.gone q hq).step h.noPusher hfacts
  all q hq hmem := by
    rcases hfacts.all q hq with hq | ⟨hnone, -⟩
    · exact hthrough.all q hq hmem
    · exact absurd hnone (h.allocated q hmem)

theorem outside (h : CallInv s w t queues) (hfacts : StepFacts s s' act)
    (hnot : w ∉ (s.queue q).pendingWork) : w ∉ (s'.queue q).pendingWork := by
  intro hin
  rcases hfacts.list q w hin with hin | ⟨u, hu⟩
  · exact hnot hin
  · exact h.noPusher u q hu

/-- What the thread knows stays true. -/
theorem passed_step (h : CallInv s w t queues) (hfacts : StepFacts s s' act)
    (hp : s.Passed w queues p) : s'.Passed w queues p := by
  cases p
  case flushing => exact fun hv => h.through hfacts (hp hv)
  case cancelling => exact fun hv => h.through hfacts (hp hv)
  case clearing => exact fun hv => ⟨h.through hfacts (hp hv).1, h.outside hfacts (hp hv).2⟩
  case looking => exact fun hv => ⟨h.through hfacts (hp hv).1, h.outside hfacts (hp hv).2⟩
  case sleeping => exact fun hv => ⟨h.through hfacts (hp hv).1, h.outside hfacts (hp hv).2⟩
  all_goals trivial

/-- The thread has looked at a queue. -/
theorem next (hthrough : s.Through w queues done (q :: rest)) (hgone : s.Gone w q) :
    s.Through w queues (done ++ [q]) rest where
  gone r hr := by
    rcases List.mem_append.mp hr with hr | hr
    · exact hthrough.gone r hr
    · rwa [List.mem_singleton.mp hr]
  all r hr hmem := by
    rw [List.append_assoc]
    exact hthrough.all r hr hmem

theorem begin (s : WqState T Q W) (w : W) (queues : List Q) :
    s.Through w queues [] s.allWorkqueues where
  gone _ hq := absurd hq List.not_mem_nil
  all _ hq _ := hq

/-- A queue that the thread has seen without the item does not have it. -/
theorem gone_of_look (h : CallInv s w t queues) (hlist : w ∉ (s.queue q).pendingWork)
    (hcurrent : (s.queue q).currentWork ≠ some w) (hpopped : s.worker q ≠ some (.popped w)) :
    s.Gone w q := by
  refine ⟨hlist, fun hin => ?_⟩
  have hworker := (h.inv.queues q).current
  rw [WqState.inHand] at hin
  cases hph : s.worker q with
  | none =>
    rw [hph] at hin
    cases hin
  | some ph =>
    rw [hph] at hin hworker
    cases ph with
    | popped v =>
      obtain rfl := List.mem_singleton.mp hin
      exact hpopped hph
    | announced v =>
      obtain rfl := List.mem_singleton.mp hin
      exact hcurrent hworker
    | running v =>
      obtain rfl := List.mem_singleton.mp hin
      exact hcurrent hworker
    | fetching => cases hin
    | exited => cases hin

variable [DecidableEq T] [DecidableEq Q] [DecidableEq W]

/-- A step of the thread itself. -/
theorem passed_self (h : CallInv s w t queues) (hact : LeavesAlone w t s (.go t))
    (hstep : s.advance t (s.client t) = some s') : s'.Passed w queues (s'.client t) := by
  have hpassed := h.passed
  have hfacts : StepFacts s s' (.go t) := .advance hstep
  have hself : ∀ (s₁ : WqState T Q W) p, (s₁.goto t p).client t = p := fun _ _ =>
    Function.update_self ..
  cases hphase : s.client t with
  | flushing v done rest flushed =>
    rw [hphase] at hpassed
    cases rest with
    | nil =>
      rw [hphase] at hstep
      cases hstep
      rw [hself]
      trivial
    | cons q rest =>
      simp only [hphase, WqState.advance] at hstep
      split_ifs at hstep with hfree hfound
      · cases hstep
        rw [hself]
        trivial
      · cases hstep
        rw [hself]
        rintro rfl
        push Not at hfound
        have hpopped := hact.2 rfl q (by rw [hphase]; rfl)
        exact h.through hfacts (next (hpassed rfl) (h.gone_of_look hfound.2 hfound.1 hpopped))
  | flushWaiting v =>
    rw [hphase] at hstep
    cases hstep
    rw [hself]
    exact fun _ => begin _ w queues
  | cancelling v done rest cancelled =>
    rw [hphase] at hpassed
    cases rest with
    | nil =>
      rw [hphase] at hstep
      cases hstep
      rw [hself]
      trivial
    | cons q rest =>
      simp only [hphase, WqState.advance] at hstep
      split_ifs at hstep with hfree hfound
      · cases hstep
        rw [hself]
        rintro rfl
        refine ⟨h.through hfacts (hpassed rfl), ?_⟩
        simp only [WqState.goto, WqState.setLock, WqState.putList, Function.update_self]
        exact (h.inv.queues q).nodup.not_mem_erase
      · cases hstep
        rw [hself]
        rintro rfl
        exact ⟨h.through hfacts (hpassed rfl), hfound⟩
  | clearing v q done rest =>
    rw [hphase] at hpassed hstep
    cases hstep
    rw [hself]
    exact fun hv => ⟨h.through hfacts (hpassed hv).1, h.outside hfacts (hpassed hv).2⟩
  | looking v q done rest cancelled =>
    rw [hphase] at hpassed
    simp only [hphase, WqState.advance] at hstep
    split_ifs at hstep with hcurrent
    · cases hstep
      rw [hself]
      exact fun hv => ⟨h.through hfacts (hpassed hv).1, h.outside hfacts (hpassed hv).2⟩
    · cases hstep
      rw [hself]
      rintro rfl
      obtain ⟨hthrough, hlist⟩ := hpassed rfl
      have hpopped := hact.2 rfl q (by rw [hphase]; rfl)
      exact h.through hfacts (next hthrough (h.gone_of_look hlist hcurrent hpopped))
  | sleeping v q done rest =>
    rw [hphase] at hpassed
    simp only [hphase, WqState.advance] at hstep
    split_ifs at hstep
    cases hstep
    rw [hself]
    exact fun hv => ⟨h.through hfacts (hpassed hv).1, h.outside hfacts (hpassed hv).2⟩
  | _ =>
    simp only [hphase, WqState.advance] at hstep
    try split_ifs at hstep
    all_goals
      cases hstep
      try (rw [hself]; trivial)

theorem step (h : CallInv s w t queues) (hact : LeavesAlone w t s act)
    (hstep : wqStep s act = some s') : CallInv s' w t queues := by
  have hfacts := StepFacts.of_step hstep
  refine ⟨h.inv.step hstep, h.noPusher.step hact.1 hfacts,
    fun q hq => hfacts.worker q (h.allocated q hq), ?_⟩
  by_cases hother : act.thread = some t
  · cases act with
    | go u =>
      obtain rfl := Option.some.inj hother
      exact h.passed_self hact hstep
    | call u op =>
      obtain rfl := Option.some.inj hother
      cases hphase : s.client u with
      | returned ret =>
        simp only [wqStep, hphase] at hstep
        cases op
        all_goals
          simp only [WqState.enter] at hstep
          try split_ifs at hstep
        all_goals
          cases hstep
          simp only [WqState.goto, Function.update_self]
          first | trivial | exact fun _ => begin _ w queues
      | _ => simp [wqStep, hphase] at hstep
    | work q => cases hother
  · rw [hfacts.client t hother]
    exact h.passed_step hfacts h.passed

theorem run (h : CallInv s w t queues) (hrun : WqRun (LeavesAlone w t) s s') :
    CallInv s' w t queues := by
  induction hrun with
  | refl => exact h
  | tail _ hstep ih =>
    obtain ⟨act, hact, hstep⟩ := hstep
    exact ih.step hact hstep

end CallInv

/-! ### Calls -/

variable [DecidableEq T] [DecidableEq Q] [DecidableEq W]

/-- The queues on the list of all queues have a worker. -/
theorem allocated_run {cond : WqState T Q W → WqAct T Q W → Prop} (hrun : WqRun cond {} s) :
    ∀ q ∈ s.allWorkqueues, s.worker q ≠ none := by
  induction hrun with
  | refl => exact fun q hq => absurd hq List.not_mem_nil
  | tail _ hstep ih =>
    obtain ⟨act, -, hstep⟩ := hstep
    have hfacts := StepFacts.of_step hstep
    intro q hq
    rcases hfacts.all q hq with hq | ⟨-, hq⟩
    · exact hfacts.worker q (ih q hq)
    · exact hq

theorem gone_run (h : s.Gone w q) (hno : s.NoPusher w)
    (hrun : WqRun (fun _ act => NotQueued w act) s s') : s'.Gone w q ∧ s'.NoPusher w := by
  induction hrun with
  | refl => exact ⟨h, hno⟩
  | tail _ hstep ih =>
    obtain ⟨act, hact, hstep⟩ := hstep
    have hfacts := StepFacts.of_step hstep
    exact ⟨ih.1.step ih.2 hfacts, ih.2.step hact hfacts⟩

/-- When `flush_work` or `cancel_work_sync` is about to return, if nobody has begun to put the item in
line since before the call, and the thread has looked at no queue whose worker had popped the item
and not stored it in `current_work`: from then on, until the item is put in line again, none of the
queues that were there all the time has it, and no worker of theirs has; each time that it was put in
line on one of them it was run to its end or taken out. -/
theorem flush_and_cancel_wait {s₀ s₁ s₂ : WqState T Q W} {ret : Option Bool} {done : List Q}
    {b : Bool} (hstart : WqRun (fun _ _ => True) {} s₀) (hidle : s₀.client t = .returned ret)
    (hno : s₀.NoPusher w) (hrun : WqRun (LeavesAlone w t) s₀ s₁)
    (hphase : s₁.client t = .flushing w done [] b ∨ s₁.client t = .cancelling w done [] b)
    (hlater : WqRun (fun _ act => NotQueued w act) s₁ s₂) (hq₀ : q ∈ s₀.allWorkqueues)
    (hq₁ : q ∈ s₁.allWorkqueues) :
    w ∉ (s₂.queue q).pendingWork ∧ w ∉ s₂.inHand q ∧
      (s₂.log q).pushed.count w = (s₂.finished q).count w + (s₂.log q).removed.count w := by
  have hinv := WqInv.init.run hstart
  have hcall : CallInv s₀ w t s₀.allWorkqueues := by
    refine ⟨hinv, hno, allocated_run hstart, ?_⟩
    rw [hidle]
    trivial
  have hend := hcall.run hrun
  have hthrough : s₁.Through w s₀.allWorkqueues done [] := by
    have hpassed := hend.passed
    rcases hphase with hphase | hphase
    · rw [hphase] at hpassed
      exact hpassed rfl
    · rw [hphase] at hpassed
      exact hpassed rfl
  have hdone : q ∈ done := by
    have hmem := hthrough.all q hq₁ hq₀
    rwa [List.append_nil] at hmem
  obtain ⟨⟨hlist, hhand⟩, -⟩ := gone_run (hthrough.gone q hdone) hend.noPusher hlater
  refine ⟨hlist, hhand, ?_⟩
  have hperm := (((hend.inv.run hlater).record q).2).count_eq w
  rw [hperm, List.count_append, List.count_append, List.count_append,
    List.count_eq_zero.mpr hhand, List.count_eq_zero.mpr hlist, Nat.add_zero]

/-- An item is put in line, and another thread cancels it. -/
def cancelOne : List (WqAct Bool ℕ ℕ) :=
  [.call true (.cancelWorkSync 0), .go true, .go true, .go true]

theorem flush_and_cancel_wait_one : ∃ s₀ s₁ : WqState Bool ℕ ℕ,
    WqRun (fun _ _ => True) {} s₀ ∧ WqRun (LeavesAlone 0 true) s₀ s₁ ∧
      (s₀.queue 0).pendingWork = [0] ∧ s₁.client true = .cancelling 0 [0] [] true ∧
      0 ∉ (s₁.queue 0).pendingWork := by
  have hexec : ((wqExec (fun _ _ => True) {} (drainEarly.take 3)).bind fun s₀ =>
      (wqExec (LeavesAlone 0 true) s₀ cancelOne).map fun s₁ =>
        (((s₀.queue 0).pendingWork, s₀.client false, s₀.client true, s₀.allWorkqueues),
          s₁.client true, s₁.allWorkqueues)) =
      some (([0], .returned (some true), .returned none, [0]), .cancelling 0 [0] [] true, [0]) := by
    decide +kernel
  obtain ⟨s₀, hs₀, hexec⟩ := Option.bind_eq_some_iff.mp hexec
  obtain ⟨s₁, hs₁, heq⟩ := Option.map_eq_some_iff.mp hexec
  simp only [Prod.mk.injEq] at heq
  obtain ⟨⟨hlist, hzero, hone, hall₀⟩, hphase, hall₁⟩ := heq
  have hno : s₀.NoPusher 0 := by
    intro u q hu
    cases u with
    | false => cases hzero.symm.trans hu
    | true => cases hone.symm.trans hu
  have hrun := wqRun_of_exec hs₀
  have hrun₁ := wqRun_of_exec hs₁
  exact ⟨s₀, s₁, hrun, hrun₁, hlist, hphase, (flush_and_cancel_wait hrun hone hno hrun₁
    (.inr hphase) .refl (by simp [hall₀]) (by simp [hall₁])).1⟩

end Subvol

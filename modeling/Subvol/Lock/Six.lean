import Mathlib.Data.Int.Notation
import Mathlib.Data.List.Basic
import Mathlib.Data.Nat.Bitwise
import Mathlib.Logic.Relation
import Subvol.Lib.Numerals

/-!
# The six lock

A six lock is taken for read, for intent or for write. One word has the number of readers, a bit for
the intent holder, a bit for the writer and, for every type, a bit that says that somebody waits. A
thread that cannot have the lock at once stands in a queue under a lock of its own, and whoever
releases the lock runs a pass over the queue and takes the lock on behalf of the waiters.

The threads are interleaved at every access to the word, the owner and the sequence number, and at
the ends of the critical sections of the queue. A loop around a compare-and-exchange is the step of
its last turn, and a step that an assertion refuses does not exist. Parking and waking are not steps:
a waiter may look at its flag at any time.

## Main definitions

* `SixLockWaitFifo`, with `insert`, `remove`, `shrink`: the queue.
* `SixLock`, `SixPhase`, `SixState`: the lock, where a thread is, and both.
* `sixStep`, `SixRun`, `sixExec`: a step of a thread, the runs whose steps meet a condition, and a
  run of given steps.
-/

namespace Subvol

/-! ### The word -/

/-- `six_lock_type`. -/
inductive SixLockType
  | read
  | intent
  | write
deriving DecidableEq, Repr

namespace SixLockType

def index : SixLockType → ℕ
  | read => 0
  | intent => 1
  | write => 2

end SixLockType

def sixLockHeldRead : ℕ := 2 ^ 26 - 1

def sixLockHeldIntent : ℕ := 2 ^ 26

def sixLockHeldWrite : ℕ := 2 ^ 27

def sixLockWaitingRead : ℕ := 2 ^ 28

def sixLockNospin : ℕ := 2 ^ 31

namespace SixLockType

def lockVal : SixLockType → ℕ
  | read => 1
  | intent => sixLockHeldIntent
  | write => sixLockHeldWrite

def lockFail : SixLockType → ℕ
  | read => sixLockHeldWrite
  | intent => sixLockHeldIntent
  | write => sixLockHeldRead

def heldMask : SixLockType → ℕ
  | read => sixLockHeldRead
  | intent => sixLockHeldIntent
  | write => sixLockHeldWrite

def unlockWakeup : SixLockType → SixLockType
  | read => write
  | intent => intent
  | write => read

def waitingMask (ty : SixLockType) : ℕ := sixLockWaitingRead <<< ty.index

end SixLockType

/-- `fetch_add` of a 32-bit word. -/
@[irreducible] def fetchAdd (w v : ℕ) : ℕ := (w + v) % 2 ^ 32

/-- `fetch_sub` of a 32-bit word. -/
@[irreducible] def fetchSub (w v : ℕ) : ℕ := (w + (2 ^ 32 - v)) % 2 ^ 32

/-- `fetch_and` of a 32-bit word with the complement of a mask. -/
@[irreducible] def fetchAndNot (w m : ℕ) : ℕ := w &&& (2 ^ 32 - 1 - m)

/-! ### The queue -/

variable {τ : Type*}

/-- `six_lock_wait_slot` with a waiter: its thread and its start time, with the wanted type in the
two lowest bits. -/
structure SixLockWaitSlot (τ : Type*) where
  task : τ
  startTime : ℕ
deriving DecidableEq, Repr

/-- `start_time & SIX_LOCK_WANT_MASK` is the type. -/
def SixLockWaitSlot.Wants (slot : SixLockWaitSlot τ) (ty : SixLockType) : Prop :=
  slot.startTime &&& 3 = ty.index

instance (slot : SixLockWaitSlot τ) (ty : SixLockType) : Decidable (slot.Wants ty) :=
  inferInstanceAs (Decidable (_ = _))

/-- `six_lock_wait_fifo`. A slot without a waiter is `none`. -/
structure SixLockWaitFifo (τ : Type*) where
  size : ℕ := 8
  nr : ℕ := 0
  nextFreeHint : ℕ := 0
  data : List (Option (SixLockWaitSlot τ)) := List.replicate 8 none
deriving DecidableEq, Repr

namespace SixLockWaitFifo

def slot (wf : SixLockWaitFifo τ) (i : ℕ) : Option (SixLockWaitSlot τ) := wf.data[i]?.join

/-- `six_lock_wait_fifo_remove`. -/
def remove (wf : SixLockWaitFifo τ) (idx : ℕ) : SixLockWaitFifo τ :=
  { wf with
    data := wf.data.set idx none
    nextFreeHint := min wf.nextFreeHint idx }

/-- The loop of `six_lock_wait_fifo_shrink`. -/
def shrinkNr (wf : SixLockWaitFifo τ) : ℕ → ℕ
  | 0 => 0
  | n + 1 => if (wf.slot n).isNone then wf.shrinkNr n else n + 1

/-- `six_lock_wait_fifo_shrink`. -/
def shrink (wf : SixLockWaitFifo τ) : SixLockWaitFifo τ :=
  { wf with
    nr := wf.shrinkNr wf.nr
    nextFreeHint := min wf.nextFreeHint (wf.shrinkNr wf.nr) }

/-- The first slot below `nr` without a waiter, or `nr`. -/
def firstFree (wf : SixLockWaitFifo τ) : ℕ :=
  ((List.range wf.nr).find? fun i => (wf.slot i).isNone).getD wf.nr

/-- The slot that `six_lock_wait_fifo_insert` fills, in a queue that has it. -/
def reserve (wf : SixLockWaitFifo τ) : Option (SixLockWaitFifo τ × ℕ) :=
  if wf.data.length ≤ wf.nextFreeHint then none
  else if (wf.slot wf.nextFreeHint).isNone then some (wf, wf.nextFreeHint)
  else if wf.firstFree = wf.size then
    if wf.size < 2 ^ 15 then
      some ({ wf with
        size := wf.size * 2
        data := wf.data ++ List.replicate (wf.size * 2 - wf.data.length) none }, wf.firstFree)
    else none
  else some (wf, wf.firstFree)

/-- `(trans_start_time << SIX_LOCK_WANT_BITS) | (lock_want & SIX_LOCK_WANT_MASK)`. -/
def startTimeOf (transStartTime : ℕ) (ty : SixLockType) : ℕ :=
  transStartTime <<< 2 % 2 ^ 64 ||| (ty.index &&& 3)

/-- `six_lock_wait_fifo_insert`: the queue with the waiter, and its slot. -/
def insert (wf : SixLockWaitFifo τ) (task : τ) (ty : SixLockType) (transStartTime : ℕ) :
    Option (SixLockWaitFifo τ × ℕ) :=
  match wf.reserve with
  | none => none
  | some (wf, i) =>
    if i < wf.data.length then
      some ({ wf with
        data := wf.data.set i (some ⟨task, startTimeOf transStartTime ty⟩)
        nextFreeHint := (i + 1) &&& (wf.size - 1)
        nr := max wf.nr (i + 1) }, i)
    else none

/-- A waiter for the type stands in the slot. -/
def wants (wf : SixLockWaitFifo τ) (ty : SixLockType) (i : ℕ) : Bool :=
  (wf.slot i).any fun slot => decide (slot.Wants ty)

/-- The start time in a slot. -/
def startTime (wf : SixLockWaitFifo τ) (i : ℕ) : ℕ := ((wf.slot i).map (·.startTime)).getD 0

/-- A turn of the loop that looks for the oldest waiter. -/
def older (wf : SixLockWaitFifo τ) (ty : SixLockType) (oldest : Option ℕ) (i : ℕ) : Option ℕ :=
  if wf.wants ty i then
    match oldest with
    | none => some i
    | some j => if wf.startTime i < wf.startTime j then some i else some j
  else oldest

/-- The waiter that a pass tries next, and whether there are others. The readers are tried one after
the other from the slot `i` on, for the other types only the oldest waiter is. -/
def candidate (wf : SixLockWaitFifo τ) (ty : SixLockType) (i : ℕ) : Option (ℕ × Bool) :=
  match ty with
  | .read => ((List.range' i (wf.nr - i)).find? (wf.wants .read)).map fun j => (j, false)
  | ty => ((List.range wf.nr).foldl (wf.older ty) none).map fun j =>
      (j, decide (1 < (List.range wf.nr).countP (wf.wants ty)))

end SixLockWaitFifo

/-! ### Threads -/

/-- What a call returned. -/
inductive SixRet
  | unit
  | bool (b : Bool)
  | int (ret : ℤ)
deriving DecidableEq, Repr

/-- On whose behalf a thread tries to take the lock. -/
inductive SixCaller
  | trylock
  | relock (seq : ℕ)
  | lock (transStartTime : ℕ)
  | upgrade
deriving DecidableEq, Repr

/-- The calls of `six_lock_wakeup` that a thread still has to make, with the word they are given,
and what the thread returns behind them. -/
structure SixWake where
  word : ℕ
  types : List SixLockType
  ret : SixRet
deriving DecidableEq, Repr

/-- Where a thread is. -/
inductive SixPhase
  | returned (ret : SixRet)
  -- `__do_six_trylock` for the thread itself, and `six_relock_ip` around it
  | relockFirst (ty : SixLockType) (seq : ℕ)
  | tryAssert (k : SixCaller)
  | tryCas (ty : SixLockType) (k : SixCaller)
  | tryOwner (k : SixCaller)
  | relockSecond (ty : SixLockType) (seq : ℕ)
  -- `six_unlock_ip` and `do_six_unlock_type`
  | unlocking (ty : SixLockType) (ret : SixRet)
  | unlockSeq (ret : SixRet)
  | unlockOwner (ret : SixRet)
  | unlockSub (ty : SixLockType) (ret : SixRet)
  -- `six_lock_wakeup_all`, `six_lock_wakeup` and `__six_lock_wakeup`
  | loadAll
  | waking (w : SixWake)
  | passTry (ty : SixLockType) (i : ℕ) (w : SixWake)
  | passOwner (j : ℕ) (more : Bool) (w : SixWake)
  | passGrant (ty : SixLockType) (j : ℕ) (more : Bool) (w : SixWake)
  | passClear (ty : SixLockType) (w : SixWake)
  | passEnd (ty : SixLockType) (w : SixWake)
  -- `__six_lock_slowpath`
  | slowAssert (transStartTime : ℕ)
  | slowAdd (transStartTime : ℕ)
  | slowLock (ty : SixLockType) (transStartTime : ℕ)
  | slowOr (ty : SixLockType) (transStartTime : ℕ)
  | slowTry (ty : SixLockType) (transStartTime : ℕ)
  | slowOwner
  | slowDone
  | slowInsert (ty : SixLockType) (transStartTime : ℕ)
  | waiting (ty : SixLockType) (i : ℕ)
  | cancelLock (ty : SixLockType) (i : ℕ) (ret : ℤ)
  | cancelClear (ret : ℤ)
  | cancelLoad (ret : ℤ)
  -- `six_lock_tryupgrade`, and `six_lock_increment` with the rest of `six_lock_downgrade`
  | upgradeCas
  | incrementing (ty : SixLockType) (downgrade : Bool)
deriving DecidableEq, Repr

/-- The calls of a thread. -/
inductive SixOp
  | trylock (ty : SixLockType)
  | relock (ty : SixLockType) (seq : ℕ)
  | lock (ty : SixLockType) (transStartTime : ℕ)
  | unlock (ty : SixLockType)
  | downgrade
  | tryupgrade
  | increment (ty : SixLockType)
  | wakeupAll
deriving DecidableEq, Repr

/-- What a thread does: it makes a call, it goes on, or `should_sleep_fn` ends its wait. -/
inductive SixAct
  | call (op : SixOp)
  | go
  | cancel (ret : ℤ)
deriving DecidableEq, Repr

namespace SixPhase

/-- The beginning of `__do_six_trylock` with `try_lock`. -/
def tryEntry : SixLockType → SixCaller → SixPhase
  | .write, k => tryAssert k
  | ty, k => tryCas ty k

/-- The beginning of `__six_lock_slowpath`. -/
def slowEntry : SixLockType → ℕ → SixPhase
  | .write, transStartTime => slowAssert transStartTime
  | ty, transStartTime => slowLock ty transStartTime

/-- The beginning of `do_six_unlock_type`. -/
def doUnlock : SixLockType → SixRet → SixPhase
  | .intent, ret => unlockOwner ret
  | ty, ret => unlockSub ty ret

end SixPhase

def SixOp.entry : SixOp → SixPhase
  | trylock ty => .tryEntry ty .trylock
  | relock ty seq => .relockFirst ty seq
  | lock ty transStartTime => .tryEntry ty (.lock transStartTime)
  | unlock ty => .unlocking ty .unit
  | downgrade => .incrementing .read true
  | tryupgrade => .upgradeCas
  | increment ty => .incrementing ty false
  | wakeupAll => .loadAll

namespace SixCaller

/-- Where a thread goes on when it has the lock. -/
def granted (ty : SixLockType) : SixCaller → SixPhase
  | trylock => .returned (.bool true)
  | relock seq => .relockSecond ty seq
  | lock _ => .returned (.int 0)
  | upgrade => .returned (.bool true)

/-- Where a thread goes on when it cannot have the lock now. -/
def refused (ty : SixLockType) : SixCaller → SixPhase
  | lock transStartTime => .slowEntry ty transStartTime
  | _ => .returned (.bool false)

/-- Where a thread goes on behind the exchange that took the lock: `six_set_owner`, if it is for
intent. -/
def taken : SixLockType → SixCaller → SixPhase
  | .intent, k => .tryOwner k
  | ty, k => k.granted ty

end SixCaller

/-! ### The lock -/

/-- `six_lock`, with the thread that is inside `wait_lock`. -/
structure SixLock (τ : Type*) where
  state : ℕ := 0
  seq : ℕ := 0
  intentLockRecurse : ℕ := 0
  writeLockRecurse : ℕ := 0
  owner : Option τ := none
  waitLock : Option τ := none
  fifo : SixLockWaitFifo τ := {}

/-- The lock and its threads: where each of them is, and the flag of its waiter. What a thread has
in the word is kept beside it: `holds` has an entry for every count or bit of the type, `pending`
the thread that set the bit of the writer and waits for the readers. `writeUnlocks` counts the calls
of `six_unlock_ip` that release the outermost write hold. No step of the code looks at them. -/
structure SixState (τ : Type*) extends SixLock τ where
  acquired : τ → Bool := fun _ => false
  phase : τ → SixPhase := fun _ => .returned .unit
  holds : SixLockType → List τ := fun _ => []
  pending : List τ := []
  writeUnlocks : ℕ := 0

namespace SixState

variable [DecidableEq τ]

def goto (s : SixState τ) (t : τ) (p : SixPhase) : SixState τ :=
  { s with phase := Function.update s.phase t p }

/-- The recursion counters. -/
def setRecurse (s : SixState τ) (intentLockRecurse writeLockRecurse : ℕ) : SixState τ :=
  { s with
    intentLockRecurse := intentLockRecurse
    writeLockRecurse := writeLockRecurse }

def setSeq (s : SixState τ) (seq : ℕ) : SixState τ := { s with seq := seq }

def setWriteUnlocks (s : SixState τ) (n : ℕ) : SixState τ := { s with writeUnlocks := n }

/-- A new word, and what the threads have in it. -/
def put (s : SixState τ) (w : ℕ) (holds : SixLockType → List τ) (pending : List τ) : SixState τ :=
  { s with
    state := w
    holds := holds
    pending := pending }

/-- `lock_val` is added to the word on behalf of a thread. -/
def take (s : SixState τ) (ty : SixLockType) (u : τ) : SixState τ :=
  s.put (fetchAdd s.state ty.lockVal) (Function.update s.holds ty (u :: s.holds ty)) s.pending

/-- What `do_six_unlock_type` takes off the word. -/
def unlockVal (s : SixState τ) : SixLockType → ℕ
  | .read => SixLockType.lockVal .read
  | ty => ty.lockVal + (s.state &&& sixLockNospin)

/-- The `fetch_sub` of `do_six_unlock_type`. -/
def release (s : SixState τ) (ty : SixLockType) (t : τ) : SixState τ :=
  s.put (fetchSub s.state (s.unlockVal ty)) (Function.update s.holds ty ((s.holds ty).erase t))
    s.pending

/-- The exchange of `six_lock_tryupgrade`. -/
def upgrade (s : SixState τ) (t : τ) : SixState τ :=
  s.put ((s.state - SixLockType.lockVal .read) ||| sixLockHeldIntent)
    (Function.update (Function.update s.holds .read ((s.holds .read).erase t)) .intent
      (t :: s.holds .intent)) s.pending

/-- A writer that set its bit has seen that there are no readers. -/
def grantWrite (s : SixState τ) (u : τ) : SixState τ :=
  s.put s.state (Function.update s.holds .write (u :: s.holds .write)) (s.pending.erase u)

/-- A blocked writer sets its bit. -/
def pend (s : SixState τ) (t : τ) : SixState τ :=
  s.put (fetchAdd s.state sixLockHeldWrite) s.holds (t :: s.pending)

/-- A writer that gives up clears its bit. -/
def unpend (s : SixState τ) (t : τ) : SixState τ :=
  s.put (fetchAndNot s.state sixLockHeldWrite) s.holds (s.pending.erase t)

def setWaiting (s : SixState τ) (ty : SixLockType) : SixState τ :=
  s.put (s.state ||| ty.waitingMask) s.holds s.pending

def clearWaiting (s : SixState τ) (ty : SixLockType) : SixState τ :=
  s.put (fetchAndNot s.state ty.waitingMask) s.holds s.pending

def setOwner (s : SixState τ) (owner : Option τ) : SixState τ := { s with owner := owner }

def setWaitLock (s : SixState τ) (holder : Option τ) : SixState τ := { s with waitLock := holder }

def setFifo (s : SixState τ) (wf : SixLockWaitFifo τ) : SixState τ := { s with fifo := wf }

def setAcquired (s : SixState τ) (u : τ) (b : Bool) : SixState τ :=
  { s with acquired := Function.update s.acquired u b }

/-- The checks and the recursion counters of `six_unlock_ip`. The counters belong to the thread that
has the lock for intent. -/
def unlockIp (s : SixState τ) (t : τ) (ty : SixLockType) (ret : SixRet) : Option (SixState τ) :=
  match ty with
  | .read => some (s.goto t (.unlockSub .read ret))
  | .intent =>
    if s.owner = some t then
      if s.intentLockRecurse ≠ 0 then
        some ((s.setRecurse (s.intentLockRecurse - 1) s.writeLockRecurse).goto t (.returned ret))
      else some (s.goto t (.unlockOwner ret))
    else none
  | .write =>
    if s.state &&& sixLockHeldIntent ≠ 0 ∧ s.owner = some t then
      if s.writeLockRecurse ≠ 0 then
        some ((s.setRecurse s.intentLockRecurse (s.writeLockRecurse - 1)).goto t (.returned ret))
      else some ((s.setWriteUnlocks (s.writeUnlocks + 1)).goto t (.unlockSeq ret))
    else none

/-- `six_lock_wakeup` as far as the queue's lock. -/
def wakeup (s : SixState τ) (t : τ) (w : SixWake) : Option (SixState τ) :=
  match w.types with
  | [] => some (s.goto t (.returned w.ret))
  | ty :: types =>
    if ty = .write ∧ w.word &&& sixLockHeldRead ≠ 0 then
      some (s.goto t (.waking { w with types := types }))
    else if w.word &&& ty.waitingMask = 0 then some (s.goto t (.waking { w with types := types }))
    else if s.waitLock = none then
      some ((s.setWaitLock (some t)).goto t (.passTry ty 0 { w with types := types }))
    else none

/-- `__six_lock_wakeup` tries to take the lock for the waiter in the slot `j`. A writer has its bit
already. -/
def passAttempt (s : SixState τ) (t : τ) (ty : SixLockType) (j : ℕ) (more : Bool) (w : SixWake) :
    Option (SixState τ) :=
  match s.fifo.slot j with
  | none => none
  | some slot =>
    match ty with
    | .write =>
      if s.owner = some slot.task ∧ s.state &&& sixLockHeldWrite ≠ 0 then
        if s.state &&& SixLockType.lockFail .write = 0 then
          some (s.goto t (.passGrant .write j more w))
        else some (s.goto t (.passClear .write w))
      else none
    | .intent =>
      if s.state &&& SixLockType.lockFail .intent = 0 then
        some ((s.take .intent slot.task).goto t (.passOwner j more w))
      else some (s.goto t (.passClear .intent w))
    | .read =>
      if s.state &&& SixLockType.lockFail .read = 0 then
        some ((s.take .read slot.task).goto t (.passGrant .read j more w))
      else some (s.goto t (.passClear .read w))

/-- Where a pass goes on behind a grant. -/
def passNext (ty : SixLockType) (j : ℕ) (more : Bool) (w : SixWake) : SixPhase :=
  match ty with
  | .read => .passTry .read (j + 1) w
  | ty => if more then .passEnd ty w else .passClear ty w

/-- The waiter in a slot has the lock: it is taken off the queue and told so. -/
def passGive (s : SixState τ) (ty : SixLockType) (j : ℕ) (u : τ) : SixState τ :=
  let s := (s.setFifo (s.fifo.remove j)).setAcquired u true
  if ty = .write then s.grantWrite u else s

/-- `__six_lock_slowpath` tries once more, inside the queue's lock. -/
def slowAttempt (s : SixState τ) (t : τ) (ty : SixLockType) (transStartTime : ℕ) :
    Option (SixState τ) :=
  match ty with
  | .write =>
    if s.owner = some t ∧ s.state &&& sixLockHeldWrite ≠ 0 then
      if s.state &&& SixLockType.lockFail .write = 0 then some ((s.grantWrite t).goto t .slowDone)
      else some (s.goto t (.slowInsert .write transStartTime))
    else none
  | .intent =>
    if s.state &&& SixLockType.lockFail .intent = 0 then
      some ((s.take .intent t).goto t .slowOwner)
    else some (s.goto t (.slowInsert .intent transStartTime))
  | .read =>
    if s.state &&& SixLockType.lockFail .read = 0 then some ((s.take .read t).goto t .slowDone)
    else some (s.goto t (.slowInsert .read transStartTime))

/-- `six_lock_increment`, and the rest of `six_lock_downgrade`. -/
def increment (s : SixState τ) (t : τ) (ty : SixLockType) (downgrade : Bool) :
    Option (SixState τ) :=
  match ty with
  | .read =>
    if s.state &&& (sixLockHeldRead ||| sixLockHeldIntent) ≠ 0 then
      some ((s.take .read t).goto t
        (if downgrade then .unlocking .intent .unit else .returned .unit))
    else none
  | .intent =>
    if s.state &&& sixLockHeldIntent ≠ 0 then
      some ((s.setRecurse (fetchAdd s.intentLockRecurse 1) s.writeLockRecurse).goto t
        (.returned .unit))
    else none
  | .write =>
    if s.state &&& sixLockHeldIntent ≠ 0 then
      some ((s.setRecurse (fetchAdd s.intentLockRecurse 1) (fetchAdd s.writeLockRecurse 1)).goto t
        (.returned .unit))
    else none

/-- The next step of a thread from where it is. -/
def advance (s : SixState τ) (t : τ) : SixPhase → Option (SixState τ)
  | .returned _ => none
  | .relockFirst ty seq =>
    if s.seq = seq then some (s.goto t (.tryEntry ty (.relock seq)))
    else some (s.goto t (.returned (.bool false)))
  | .tryAssert k =>
    if s.owner = some t ∧ s.state &&& sixLockHeldWrite = 0 then some (s.goto t (.tryCas .write k))
    else none
  | .tryCas ty k =>
    if s.state &&& ty.lockFail = 0 then some ((s.take ty t).goto t (SixCaller.taken ty k))
    else some (s.goto t (k.refused ty))
  | .tryOwner k =>
    if s.owner = none then some ((s.setOwner (some t)).goto t (k.granted .intent)) else none
  | .relockSecond ty seq =>
    if s.seq = seq then some (s.goto t (.returned (.bool true)))
    else some (s.goto t (.unlocking ty (.bool false)))
  | .unlocking ty ret => s.unlockIp t ty ret
  | .unlockSeq ret =>
    some ((s.setSeq (fetchAdd s.seq 1)).goto t (.unlockSub .write ret))
  | .unlockOwner ret => some ((s.setOwner none).goto t (.unlockSub .intent ret))
  | .unlockSub ty ret =>
    if s.state &&& ty.heldMask ≠ 0 then
      some ((s.release ty t).goto t (.waking ⟨(s.release ty t).state, [ty.unlockWakeup], ret⟩))
    else none
  | .loadAll => some (s.goto t (.waking ⟨s.state, [.read, .intent, .write], .unit⟩))
  | .waking w => s.wakeup t w
  | .passTry ty i w =>
    match s.fifo.candidate ty i with
    | none => some (s.goto t (.passClear ty w))
    | some (j, more) => s.passAttempt t ty j more w
  | .passOwner j more w =>
    match s.fifo.slot j with
    | none => none
    | some slot =>
      if s.owner = none then
        some ((s.setOwner (some slot.task)).goto t (.passGrant .intent j more w))
      else none
  | .passGrant ty j more w =>
    match s.fifo.slot j with
    | none => none
    | some slot => some ((s.passGive ty j slot.task).goto t (passNext ty j more w))
  | .passClear ty w => some ((s.clearWaiting ty).goto t (.passEnd ty w))
  | .passEnd _ w => some (((s.setFifo s.fifo.shrink).setWaitLock none).goto t (.waking w))
  | .slowAssert transStartTime =>
    if s.state &&& sixLockHeldWrite = 0 then some (s.goto t (.slowAdd transStartTime)) else none
  | .slowAdd transStartTime => some ((s.pend t).goto t (.slowLock .write transStartTime))
  | .slowLock ty transStartTime =>
    if s.waitLock = none then some ((s.setWaitLock (some t)).goto t (.slowOr ty transStartTime))
    else none
  | .slowOr ty transStartTime => some ((s.setWaiting ty).goto t (.slowTry ty transStartTime))
  | .slowTry ty transStartTime => s.slowAttempt t ty transStartTime
  | .slowOwner => if s.owner = none then some ((s.setOwner (some t)).goto t .slowDone) else none
  | .slowDone => some ((s.setWaitLock none).goto t (.returned (.int 0)))
  | .slowInsert ty transStartTime =>
    match s.fifo.insert t ty transStartTime with
    | none => none
    -- the flag is the thread's own as long as it is not in the queue
    | some (wf, i) =>
      some ((((s.setFifo wf).setAcquired t false).setWaitLock none).goto t (.waiting ty i))
  | .waiting _ _ => if s.acquired t then some (s.goto t (.returned (.int 0))) else none
  | .cancelLock ty i ret =>
    if s.waitLock = none then
      if s.acquired t then some (s.goto t (.doUnlock ty (.int ret)))
      else some ((s.setFifo (s.fifo.remove i).shrink).goto t
        (if ty = .write then .cancelClear ret else .returned (.int ret)))
    else none
  | .cancelClear ret => some ((s.unpend t).goto t (.cancelLoad ret))
  | .cancelLoad ret => some (s.goto t (.waking ⟨s.state, [.read], .int ret⟩))
  | .upgradeCas =>
    if s.state &&& sixLockHeldIntent ≠ 0 then some (s.goto t (.returned (.bool false)))
    else if s.state &&& sixLockHeldRead ≠ 0 then some ((s.upgrade t).goto t (.tryOwner .upgrade))
    else none
  | .incrementing ty downgrade => s.increment t ty downgrade

end SixState

/-! ### Runs -/

variable [DecidableEq τ]

/-- A step of a thread. -/
def sixStep (s : SixState τ) (t : τ) : SixAct → Option (SixState τ)
  | .call op =>
    match s.phase t with
    | .returned _ => some (s.goto t op.entry)
    | _ => none
  | .go => s.advance t (s.phase t)
  | .cancel ret =>
    match s.phase t with
    | .waiting ty i =>
      if s.acquired t = false ∧ ret ≠ 0 then some (s.goto t (.cancelLock ty i ret)) else none
    | _ => none

/-- A thread releases, downgrades and upgrades only what it has. -/
def ReleasesHeld (s : SixState τ) (t : τ) : SixAct → Prop
  | .call (.unlock ty) => t ∈ s.holds ty
  | .call .downgrade => t ∈ s.holds .intent
  | .call .tryupgrade => t ∈ s.holds .read
  | _ => True

instance (s : SixState τ) (t : τ) (act : SixAct) : Decidable (ReleasesHeld s t act) :=
  match act with
  | .call (.unlock ty) => inferInstanceAs (Decidable (t ∈ s.holds ty))
  | .call .downgrade => inferInstanceAs (Decidable (t ∈ s.holds .intent))
  | .call .tryupgrade => inferInstanceAs (Decidable (t ∈ s.holds .read))
  | .call (.trylock _) => inferInstanceAs (Decidable True)
  | .call (.relock _ _) => inferInstanceAs (Decidable True)
  | .call (.lock _ _) => inferInstanceAs (Decidable True)
  | .call (.increment _) => inferInstanceAs (Decidable True)
  | .call .wakeupAll => inferInstanceAs (Decidable True)
  | .go => inferInstanceAs (Decidable True)
  | .cancel _ => inferInstanceAs (Decidable True)

/-- The steps that meet a condition on the state before them, made by threads that release only what
they have, as long as the readers can be counted in their part of the word. -/
def SixStep (cond : SixState τ → τ → SixAct → Prop) (s s' : SixState τ) : Prop :=
  ∃ t act, ReleasesHeld s t act ∧ cond s t act ∧ sixStep s t act = some s' ∧
    (s'.holds .read).length < 2 ^ 26

/-- The runs of such steps. -/
def SixRun (cond : SixState τ → τ → SixAct → Prop) : SixState τ → SixState τ → Prop :=
  Relation.ReflTransGen (SixStep cond)

/-- The state behind given steps, if they are a run. -/
def sixExec (cond : SixState τ → τ → SixAct → Prop) [∀ s t act, Decidable (cond s t act)]
    (s : SixState τ) : List (τ × SixAct) → Option (SixState τ)
  | [] => some s
  | (t, act) :: acts =>
    if ReleasesHeld s t act ∧ cond s t act then
      match sixStep s t act with
      | none => none
      | some s' => if (s'.holds .read).length < 2 ^ 26 then sixExec cond s' acts else none
    else none

theorem sixRun_of_exec {cond : SixState τ → τ → SixAct → Prop}
    [∀ s t act, Decidable (cond s t act)] {s s' : SixState τ} {acts : List (τ × SixAct)}
    (h : sixExec cond s acts = some s') : SixRun cond s s' := by
  induction acts generalizing s with
  | nil =>
    cases h
    exact .refl
  | cons a acts ih =>
    obtain ⟨t, act⟩ := a
    simp only [sixExec] at h
    split_ifs at h with hcond
    cases hstep : sixStep s t act with
    | none =>
      rw [hstep] at h
      cases h
    | some s₁ =>
      simp only [hstep] at h
      split_ifs at h with hb
      exact .head ⟨t, act, hcond.1, hcond.2, hstep, hb⟩ (ih h)

end Subvol

import Subvol.Bucket.Race
import Subvol.Journal.Boundary

/-!
# Reuse of emptied buckets

A bucket that was emptied must not be used again before the journal no longer needs the transaction
that emptied it. `reclaim_bucket` compares the field `journal_seq_empty` of the alloc key with the
boundary of the journal before it frees a bucket; no path of the engine writes this field. Along the
runs here goes the sequence of the transaction that emptied each bucket.

## Main definitions

* `ReuseState`, `ReuseAct`, `ReuseStep`, `ReuseRun`.
* `Recorded`: a bucket that is emptied has the open sequence in its alloc key, or the boundary is
  there already.

## Main results

* `freed_behind_boundary`.
-/

namespace Subvol

open Lib

variable (g : JournalGeometry)

/-! ### Runs -/

/-- The device with its journal, the trees of buckets and the sequence of the transaction that
emptied a bucket. -/
structure ReuseState where
  machine : Machine
  fs : BucketFs
  emptied : BucketPos → Option ℕ := fun _ => none

/-- The boundary of the journal. -/
def ReuseState.boundary (s : ReuseState) : ℕ := s.machine.journal.lastSeqOndisk

/-- What the bucket operations see. -/
def ReuseState.view (s : ReuseState) : BucketFs := { s.fs with lastSeqOndisk := s.boundary }

/-- The data type of a bucket with an alloc key. -/
def bucketType (c : BucketFs) (p : BucketPos) : Option BchDataType :=
  (c.alloc.get p).map BchAllocV4.dataType

/-- The sequences behind a transaction: it emptied the buckets that wait for their discard only
since. -/
def emptiedAfter (c c' : BucketFs) (seq : ℕ) (emptied : BucketPos → Option ℕ) (p : BucketPos) :
    Option ℕ :=
  if bucketType c' p = some .needDiscard ∧ bucketType c p ≠ some .needDiscard then some seq
  else emptied p

/-- The triggers of a commit change the sectors and the generation in alloc keys and add keys of
buckets that had none. -/
structure Triggered (c c' : BucketFs) : Prop where
  kept : ∀ p a, c.alloc.get p = some a → ∃ a', c'.alloc.get p = some a' ∧
    a'.dataType = a.dataType ∧ a'.journalSeqEmpty = a.journalSeqEmpty
  added : ∀ p a', c.alloc.get p = none → c'.alloc.get p = some a' → a'.dataType = .free

/-- The kinds of steps. -/
inductive ReuseAct
  | journal
  | flush
  | checkpoint
  | commit
  | allocate
  | reclaim (pos : KeyPosition)

/-- The steps of the engine. -/
inductive ReuseStep (s : ReuseState) : ReuseAct → ReuseState → Prop
  | journal {j : Journal} (hop : JournalOp g s.machine.journal j) :
      ReuseStep s .journal { s with machine := { s.machine with journal := j } }
  | flush (fn : PinFlushFn) (fuel : ℕ) (roots : List UInt64) {ret : ℤ}
      (hret : (s.machine.flush g fn fuel roots).1 = some ret) :
      ReuseStep s .flush { s with machine := (s.machine.flush g fn fuel roots).2 }
  | checkpoint (fn : PinFlushFn) (fuel : ℕ) (roots roots' : List UInt64) {ret : ℤ}
      (hret : (checkpointLocked g fn fuel roots roots' s.machine).1 = some ret) :
      ReuseStep s .checkpoint
        { s with machine := (checkpointLocked g fn fuel roots roots' s.machine).2 }
  | commit {c : BucketFs} (hcommit : Triggered s.fs c) : ReuseStep s .commit { s with fs := c }
  | allocate (env : CallEnv) (dev : ℕ) {res : Except ℤ KeyPosition} {c : BucketFs}
      (hcall : allocateBucket env s.view dev = some (res, c)) :
      ReuseStep s .allocate { s with fs := c }
  | reclaim (env : CallEnv) (pos : KeyPosition) {res : Except ℤ Unit} {c : BucketFs}
      (hcall : reclaimBucket env s.view pos = some (res, c)) :
      ReuseStep s (.reclaim pos)
        { s with fs := c, emptied := emptiedAfter s.fs c s.machine.journal.seq s.emptied }

/-- The runs whose steps satisfy `P` where they start. -/
inductive ReuseRun (P : ReuseState → ReuseAct → Prop) (s₀ : ReuseState) : ReuseState → Prop
  | refl : ReuseRun P s₀ s₀
  | tail {s s' : ReuseState} {act : ReuseAct} (hrun : ReuseRun P s₀ s) (hP : P s act)
      (hstep : ReuseStep g s act s') : ReuseRun P s₀ s'

/-- A bucket that a reclaim empties has a sequence in its alloc key that is not below the one of the
open entry of the journal, or the boundary is not below it. -/
def Recorded (s : ReuseState) : ReuseAct → Prop
  | .reclaim pos => ∀ a, s.fs.alloc.get pos.bucket = some a → a.dataType ≠ .needDiscard →
      s.machine.journal.seq ≤ max a.journalSeqEmpty s.boundary
  | _ => True

variable {g}

/-! ### What a reclaim does to its bucket -/

/-- A reclaim leaves the alloc keys, or empties its bucket, or frees it behind the comparison with
the boundary. -/
inductive ReclaimKeys (c : BucketFs) (pos : KeyPosition) (c' : BucketFs) : Prop
  | same (halloc : c'.alloc = c.alloc)
  | emptied {a : BchAllocV4} (hget : c.alloc.get pos.bucket = some a)
      (hne : a.dataType ≠ .needDiscard) (halloc : c'.alloc = c.alloc.set pos.bucket a.emptied)
  | freed {a : BchAllocV4} (hget : c.alloc.get pos.bucket = some a)
      (hdiscard : a.dataType = .needDiscard) (hseq : a.journalSeqEmpty ≤ c.lastSeqOndisk)
      (halloc : c'.alloc = c.alloc.set pos.bucket a.freed)

theorem reclaimBucket_keys {env : CallEnv} {c c' : BucketFs} {pos : KeyPosition}
    {res : Except ℤ Unit} (h : reclaimBucket env c pos = some (res, c')) : ReclaimKeys c pos c' := by
  rw [reclaimBucket] at h
  cases htrans : reclaimTrans env.scan c pos with
  | error err =>
    rw [htrans] at h
    cases h
    exact .same rfl
  | ok t =>
    rw [htrans] at h
    obtain ⟨-, m, hlocked⟩ := reclaimTrans_eq_ok htrans
    obtain ⟨a, hget, ⟨hne, rfl⟩ | ⟨hdiscard, hseq, rfl⟩⟩ := reclaimLocked_eq_ok hlocked
    · rcases (runTrans_get (.empty hne) h).1.tree .alloc with halloc | halloc
      · exact .same halloc
      · exact .emptied hget hne halloc
    · rcases (runTrans_get (.free hdiscard hseq) h).1.tree .alloc with halloc | halloc
      · exact .same halloc
      · exact .freed hget hdiscard hseq halloc

/-! ### The boundary and the alloc keys -/

/-- The alloc key of an emptied bucket holds the boundary back up to the transaction that emptied
it. -/
def HeldBack (s : ReuseState) : Prop :=
  ∀ p q a, s.emptied p = some q → s.fs.alloc.get p = some a → a.dataType = .needDiscard →
    q ≤ max a.journalSeqEmpty s.boundary

namespace HeldBack

variable {s s' : ReuseState}

/-- The boundary moves on. -/
theorem machine (h : HeldBack s) {m : Machine} (hle : BoundaryLe s.machine.journal m.journal) :
    HeldBack { s with machine := m } := fun p q a hq hget ha =>
  (h p q a hq hget ha).trans (max_le_max_left _ hle)

/-- The alloc keys of the buckets that wait for their discard stay. -/
theorem keys (h : HeldBack s) {c : BucketFs}
    (hkeys : ∀ p a, c.alloc.get p = some a → a.dataType = .needDiscard →
      ∃ a', s.fs.alloc.get p = some a' ∧ a'.dataType = .needDiscard ∧
        a'.journalSeqEmpty = a.journalSeqEmpty) : HeldBack { s with fs := c } := by
  intro p q a hq hget ha
  obtain ⟨a', hget', ha', hseq⟩ := hkeys p a hget ha
  rw [← hseq]
  exact h p q a' hq hget' ha'

theorem reclaim (h : HeldBack s) {pos : KeyPosition} {c : BucketFs}
    (hkeys : ReclaimKeys s.view pos c) (hrecorded : Recorded s (.reclaim pos)) :
    HeldBack { s with
      fs := c
      emptied := emptiedAfter s.fs c s.machine.journal.seq s.emptied } := by
  intro p q a hq hget ha
  have hq : emptiedAfter s.fs c s.machine.journal.seq s.emptied p = some q := hq
  have hget : c.alloc.get p = some a := hget
  have hafter : bucketType c p = some .needDiscard := by rw [bucketType, hget, ← ha]; rfl
  by_cases hsame : c.alloc.get p = s.fs.alloc.get p
  · -- an alloc key that did not change was not emptied by this transaction
    have hbefore : bucketType s.fs p = some .needDiscard := by rw [← hafter, bucketType, bucketType, hsame]
    rw [emptiedAfter, if_neg (fun hand => hand.2 hbefore)] at hq
    exact h p q a hq (hsame ▸ hget) ha
  · cases hkeys with
    | same halloc => exact absurd (by rw [halloc]; rfl) hsame
    | @emptied b hgetb hne halloc =>
      have hp : p = pos.bucket := by
        by_contra hp
        exact hsame (by rw [halloc, OrdMap.get_set_of_ne _ _ hp]; rfl)
      subst hp
      rw [halloc, OrdMap.get_set_self] at hget
      cases hget
      have hgetb : s.fs.alloc.get pos.bucket = some b := hgetb
      have hbefore : bucketType s.fs pos.bucket ≠ some .needDiscard := by
        rw [bucketType, hgetb]
        exact fun hsome => hne (Option.some.inj hsome)
      rw [emptiedAfter, if_pos ⟨hafter, hbefore⟩] at hq
      cases hq
      exact hrecorded b hgetb hne
    | @freed b hgetb hdiscard hseq halloc =>
      have hp : p = pos.bucket := by
        by_contra hp
        exact hsame (by rw [halloc, OrdMap.get_set_of_ne _ _ hp]; rfl)
      subst hp
      rw [halloc, OrdMap.get_set_self] at hget
      cases hget
      cases ha

end HeldBack

theorem ReuseStep.heldBack {s s' : ReuseState} {act : ReuseAct} (hstep : ReuseStep g s act s')
    (hrecorded : Recorded s act) (h : HeldBack s) : HeldBack s' := by
  cases hstep with
  | journal hop => exact h.machine hop.boundaryLe
  | flush fn fuel roots hret => exact h.machine (bch2JournalFlush_boundaryLe {} fn fuel roots _)
  | checkpoint fn fuel roots roots' hret =>
    exact h.machine (checkpointLocked_boundaryLe fn fuel roots roots' _)
  | commit hcommit =>
    refine h.keys fun p a hget ha => ?_
    cases hold : s.fs.alloc.get p with
    | none =>
      rw [hcommit.added p a hold hget] at ha
      cases ha
    | some a' =>
      obtain ⟨a'', hget'', htype, hseq⟩ := hcommit.kept p a' hold
      rw [hget] at hget''
      cases hget''
      exact ⟨a', rfl, htype ▸ ha, hseq.symm⟩
  | allocate env dev hcall =>
    refine h.keys fun p a hget ha => ?_
    rcases (allocateBucket_effect hcall).2 p with hsame | ⟨b, -, -, htaken⟩
    · rw [hget] at hsame
      exact ⟨a, hsame.symm, ha, rfl⟩
    · rw [hget] at htaken
      cases htaken
      cases ha
  | reclaim env pos hcall => exact h.reclaim (reclaimBucket_keys hcall) hrecorded

theorem ReuseRun.heldBack {s₀ s : ReuseState} (h₀ : ∀ p, s₀.emptied p = none)
    (hrun : ReuseRun g Recorded s₀ s) : HeldBack s := by
  induction hrun with
  | refl =>
    intro p q a hq
    rw [h₀ p] at hq
    cases hq
  | tail _ hP hstep ih => exact hstep.heldBack hP ih

/-- In every run in which the sequence of the open entry is in the alloc key of each bucket that is
emptied, or the boundary has reached it, a bucket becomes free only behind the boundary. -/
theorem freed_behind_boundary {s₀ s s' : ReuseState} {act : ReuseAct}
    (h₀ : ∀ p, s₀.emptied p = none) (hrun : ReuseRun g Recorded s₀ s)
    (hstep : ReuseStep g s act s') {p : BucketPos} {q : ℕ} (hq : s.emptied p = some q)
    (hbefore : bucketType s.fs p = some .needDiscard) (hafter : bucketType s'.fs p = some .free) :
    q ≤ s.boundary := by
  have hkept : bucketType s'.fs p ≠ bucketType s.fs p := by
    rw [hbefore, hafter]
    exact fun heq => BchDataType.noConfusion (Option.some.inj heq)
  obtain ⟨a, hget, ha⟩ := Option.map_eq_some_iff.mp hbefore
  cases hstep with
  | journal hop => exact absurd rfl hkept
  | flush fn fuel roots hret => exact absurd rfl hkept
  | checkpoint fn fuel roots roots' hret => exact absurd rfl hkept
  | @commit c hcommit =>
    obtain ⟨a', hget', htype, -⟩ := hcommit.kept p a hget
    refine absurd ?_ hkept
    change bucketType c p = _
    rw [bucketType, bucketType, hget, hget', Option.map_some, Option.map_some, htype]
  | @allocate env dev res c hcall =>
    rcases (allocateBucket_effect hcall).2 p with hsame | ⟨b, -, -, htaken⟩
    · exact absurd (congrArg (Option.map BchAllocV4.dataType) hsame) hkept
    · change bucketType c p = _ at hafter
      rw [bucketType, htaken] at hafter
      cases hafter
  | @reclaim env pos res c hcall =>
    change bucketType c p = _ at hafter
    cases reclaimBucket_keys hcall with
    | same halloc => exact absurd (by rw [bucketType, halloc]; rfl) hkept
    | @emptied b hgetb hne halloc =>
      by_cases hp : p = pos.bucket
      · rw [bucketType, halloc, hp, OrdMap.get_set_self] at hafter
        cases hafter
      · refine absurd ?_ hkept
        change bucketType c p = _
        rw [bucketType, halloc, OrdMap.get_set_of_ne _ _ hp]
        rfl
    | @freed b hgetb hdiscard hseq halloc =>
      by_cases hp : p = pos.bucket
      · subst hp
        have hgetb : s.fs.alloc.get pos.bucket = some b := hgetb
        rw [hget] at hgetb
        cases hgetb
        have hheld := hrun.heldBack h₀ _ q a hq hget ha
        rwa [max_eq_right (show a.journalSeqEmpty ≤ s.boundary from hseq)] at hheld
      · refine absurd ?_ hkept
        change bucketType c p = _
        rw [bucketType, halloc, OrdMap.get_set_of_ne _ _ hp]
        rfl

/-! ### A small engine -/

/-- An engine with one free bucket on the small device. -/
def reuseEngine : ReuseState where
  machine := ⟨fun _ => 0, [], smallJournal⟩
  fs := initBuckets bucketEngine [1]

/-- A bucket is emptied under the first sequence, which is the boundary, and then freed. -/
theorem freed_behind_boundary_first : ∃ s s' : ReuseState,
    ReuseRun smallGeometry Recorded reuseEngine s ∧
    ReuseStep smallGeometry s (.reclaim ⟨0, 1, 0⟩) s' ∧ s.emptied ⟨0, 1⟩ = some 1 ∧
    bucketType s'.fs ⟨0, 1⟩ = some .free ∧ 1 ≤ s.boundary := by
  have hrecorded : Recorded reuseEngine (.reclaim ⟨0, 1, 0⟩) := fun a _ _ => le_max_right _ _
  obtain ⟨s, hrun, s', hstep, hq, hbefore, hafter⟩ : ∃ s,
      ReuseRun smallGeometry Recorded reuseEngine s ∧
      ∃ s', ReuseStep smallGeometry s (.reclaim ⟨0, 1, 0⟩) s' ∧ s.emptied ⟨0, 1⟩ = some 1 ∧
        bucketType s.fs ⟨0, 1⟩ = some .needDiscard ∧ bucketType s'.fs ⟨0, 1⟩ = some .free :=
    ⟨_, .tail .refl hrecorded (.reclaim {} ⟨0, 1, 0⟩ rfl), _, .reclaim {} ⟨0, 1, 0⟩ rfl,
      by decide, by decide, by decide⟩
  exact ⟨s, s', hrun, hstep, hq, hafter,
    freed_behind_boundary (fun _ => rfl) hrun hstep hq hbefore hafter⟩

/-- The small journal with a reservation of six words. -/
def keyGranted : Journal :=
  { smallJournal with
    reservations :=
      { smallJournal.reservations with
        offset := 6
        count := Function.update smallJournal.reservations.count 1 2 } }

/-- A key stored under this reservation, which is then given back. -/
def keyStored : Journal :=
  bch2JournalResPut (journalResWrite keyGranted 1 0 [5, 0, 0, 0, 0, 0]) ⟨0, 6, 1⟩

/-- The engine after a commit of this key under the first sequence and its flush. -/
def reuseFlushed : ReuseState :=
  { reuseEngine with
    machine := (Machine.flush smallGeometry noFlushFn 0 [] ⟨fun _ => 0, [], keyStored⟩).2 }

theorem run_reuseFlushed :
    ReuseRun smallGeometry (fun _ _ => True) reuseEngine reuseFlushed := by
  have hget : journalResGetFast smallJournal 6 7 = some (keyGranted, ⟨6, 0, 1⟩) := by rfl
  have hgranted := ReuseRun.tail (P := fun _ _ => True) .refl trivial
    (.journal (s := reuseEngine) (g := smallGeometry) (.resGet hget))
  have hstored := hgranted.tail trivial (.journal (.resWrite keyGranted 0 [5, 0, 0, 0, 0, 0]))
  have hput := hstored.tail trivial (.journal (.resPut _ ⟨0, 6, 1⟩ rfl))
  have hret : (bch2JournalFlush smallGeometry {} noFlushFn 0 [] keyStored).ret = some 0 := by decide
  exact hput.tail trivial (.flush noFlushFn 0 [] hret)

/-- The next transaction empties the bucket under the second sequence; the call after it frees the
bucket, with the boundary still at the first one. -/
theorem freed_before_boundary : ∃ s s' : ReuseState,
    ReuseRun smallGeometry (fun _ _ => True) reuseEngine s ∧
    ReuseStep smallGeometry s (.reclaim ⟨0, 1, 0⟩) s' ∧ s.emptied ⟨0, 1⟩ = some 2 ∧
    bucketType s.fs ⟨0, 1⟩ = some .needDiscard ∧ bucketType s'.fs ⟨0, 1⟩ = some .free ∧
    s.boundary = 1 := by
  have hboundary : reuseFlushed.boundary = 1 := by decide
  refine ⟨_, _, run_reuseFlushed.tail trivial (.reclaim {} ⟨0, 1, 0⟩ rfl),
    .reclaim {} ⟨0, 1, 0⟩ rfl, ?_, ?_, ?_, ?_⟩
  · decide
  · decide
  · decide
  · exact hboundary

end Subvol

import Subvol.Bucket.Commit

/-!
# Buckets of the engine

Model of the bucket operations of `engine.rs`. Each of them runs under the lock of the file system
and makes at most one transaction; `discard_bucket` gives the lock back between its checks and the
transaction. A result of `none` stands for a call whose transaction is still being repeated.

## Main definitions

* `allocFreespacePos`, `addFreeBucket`, `allocateBucket`, `reclaimBucket`, `discardCheck`,
  `discardBucket`, `verifyBucketIndexes`.
* `BucketChange`: the transactions of the operations.

## Main results

* `allocateTrans_eq_ok`, `reclaimLocked_eq_ok`: the transactions an operation can make.
-/

namespace Subvol

open Lib

/-! ### Changes of a bucket -/

/-- `KeyPosition`. -/
structure KeyPosition where
  inode : ℕ
  offset : ℕ
  snapshot : ℕ
deriving DecidableEq, Repr

/-- The bucket of a position. -/
def KeyPosition.bucket (pos : KeyPosition) : BucketPos := ⟨pos.inode, pos.offset⟩

/-- `alloc_freespace_pos`: the top byte of the offset holds the top bits of the age of the bucket. -/
def allocFreespacePos (p : BucketPos) (a : BchAllocV4) : BucketPos where
  dev := p.dev
  offset := p.offset ||| (((a.gen - a.oldestGen : Fin 256).val >>> 4) <<< 56)

/-- The bucket that an entry of the freespace tree is for. -/
def bucketOfIndex (x : BucketPos) : BucketPos := ⟨x.dev, x.offset % 2 ^ 56⟩

/-- The alloc key of a bucket that is taken for a btree node. -/
def BchAllocV4.taken (a : BchAllocV4) : BchAllocV4 := { a with dataType := .btree }

/-- The alloc key of a bucket that was emptied. -/
def BchAllocV4.emptied (a : BchAllocV4) : BchAllocV4 :=
  { a with
    dataType := .needDiscard
    oldestGen := if a.oldestGen = a.gen then a.oldestGen + 1 else a.oldestGen
    gen := a.gen + 1 }

/-- The alloc key of a bucket that was discarded. -/
def BchAllocV4.freed (a : BchAllocV4) : BchAllocV4 := { a with dataType := .free }

/-- The transaction of `allocate_bucket`. -/
def takeUpdates (p : BucketPos) (a : BchAllocV4) : List BucketUpdate :=
  transUpdate (.freespace (allocFreespacePos p a) false) <|
  transUpdate (.alloc p a.taken) []

/-- The transaction of `reclaim_bucket` that empties a bucket. -/
def emptyUpdates (p : BucketPos) (a : BchAllocV4) : List BucketUpdate :=
  transUpdate (.needDiscard p true) <|
  transUpdate (.freespace (allocFreespacePos p a) false) <|
  transUpdate (.alloc p a.emptied) []

/-- The transaction of `reclaim_bucket` that frees a bucket. -/
def freeUpdates (p : BucketPos) (a : BchAllocV4) : List BucketUpdate :=
  transUpdate (.needDiscard p false) <|
  transUpdate (.freespace (allocFreespacePos p a.freed) true) <|
  transUpdate (.alloc p a.freed) []

/-! ### The operations -/

/-- What a call meets: the value of its scans of trees, by their number, and the attempts of its
transaction. -/
structure CallEnv where
  scan : ℕ → ℤ := fun _ => 0
  attempts : List CommitEnv := [{}]

/-- The trees after the transaction of a call, and what it returns. -/
def runTrans {α : Type} (env : CallEnv) (c : BucketFs) (t : List BucketUpdate) (value : α) :
    Option (Except ℤ α × BucketFs) :=
  match commitLoop env.attempts c t with
  | none => none
  | some (ret, c') => some (if ret ≠ 0 then .error ret else .ok value, c')

/-- `add_free_bucket`, for a bucket of the first device; it does not return unless its transaction
is made. -/
def addFreeBucket (c : BucketFs) (offset : ℕ) : BucketFs :=
  { c with
    alloc := c.alloc.set ⟨0, offset⟩ {}
    freespace := insert (allocFreespacePos ⟨0, offset⟩ {}) c.freespace }

/-- Whether `allocate_bucket` takes a bucket: the scan of the freespace tree restricts the buckets
as soon as it has an entry for the device. -/
def allocCandidate (c : BucketFs) (m : DevMember) (dev : ℕ) (e : BucketPos × BchAllocV4) : Bool :=
  let candidates := (c.freespace.filter fun x => x.dev = dev).image bucketOfIndex
  decide (e.1.dev = dev ∧ m.firstBucket ≤ e.1.offset ∧ e.1.offset < m.nbuckets ∧
    (candidates = ∅ ∨ e.1 ∈ candidates) ∧ e.2.dataType = .free)

/-- The checks of `allocate_bucket`, the transaction it makes then and the position it returns. -/
def allocateTrans (scan : ℕ → ℤ) (c : BucketFs) (dev : ℕ) :
    Except ℤ (List BucketUpdate × KeyPosition) :=
  match c.members[dev]? with
  | none => .error (-1)
  | some m =>
    if m.bucketSize = 0 ∨ m.alive = false then .error (-1)
    else if dev ∉ c.rwDevs then .error (-1)
    else if scan 5 ≠ 0 then .error (scan 5)
    else if scan 4 ≠ 0 then .error (scan 4)
    else
      match c.alloc.entries.find? (allocCandidate c m dev) with
      | none => .error (-28)
      | some (p, a) => .ok (takeUpdates p a, ⟨p.dev, p.offset, 0⟩)

/-- `allocate_bucket`. -/
def allocateBucket (env : CallEnv) (c : BucketFs) (dev : ℕ) :
    Option (Except ℤ KeyPosition × BucketFs) :=
  match allocateTrans env.scan c dev with
  | .error err => some (.error err, c)
  | .ok (t, pos) => runTrans env c t pos

/-- `u64::saturating_mul`. -/
def saturatingMul64 (a b : ℕ) : ℕ := min (a * b) (2 ^ 64 - 1)

/-- `u64::saturating_add`. -/
def saturatingAdd64 (a b : ℕ) : ℕ := min (a + b) (2 ^ 64 - 1)

/-- Whether a backpointer is into the given bucket. -/
def bucketReferred (c : BucketFs) (m : DevMember) (p : BucketPos) : Bool :=
  let start := saturatingMul64 p.offset m.bucketSize
  let stop := saturatingAdd64 start m.bucketSize
  c.backpointers.any fun b => decide (b.dev = p.dev ∧ start ≤ b.offset ∧ b.offset < stop)

/-- The key of a bucket in the alloc tree, whose keys are all of snapshot zero. -/
def allocKeyAt (c : BucketFs) (pos : KeyPosition) : Option BchAllocV4 :=
  if pos.snapshot = 0 then c.alloc.get pos.bucket else none

/-- The first checks of `reclaim_bucket`: the scan of the backpointers succeeds and the member is
there and has the bucket. -/
def reclaimMember (scan : ℕ → ℤ) (c : BucketFs) (pos : KeyPosition) : Except ℤ DevMember :=
  match c.members[pos.inode]? with
  | none => .error (-1)
  | some m =>
    if scan 8 ≠ 0 then .error (scan 8)
    else if m.bucketSize = 0 ∨ pos.offset < m.firstBucket ∨ pos.offset ≥ m.nbuckets then .error (-1)
    else .ok m

/-- The checks of `reclaim_bucket` behind those of the open buckets and the writable devices, and the
transaction it makes then. -/
def reclaimLocked (scan : ℕ → ℤ) (c : BucketFs) (m : DevMember) (pos : KeyPosition) :
    Except ℤ (List BucketUpdate) :=
  if bucketReferred c m pos.bucket then .error (-16)
  else if scan 4 ≠ 0 then .error (scan 4)
  else
    match allocKeyAt c pos with
    | none => .error (-2)
    | some a =>
      if a.dirtySectors ≠ 0 ∨ a.cachedSectors ≠ 0 then .error (-16)
      else if a.dataType = .needDiscard ∧ a.journalSeqEmpty > c.lastSeqOndisk then .error (-11)
      else if a.dataType = .needDiscard then .ok (freeUpdates pos.bucket a)
      else .ok (emptyUpdates pos.bucket a)

/-- The checks of `reclaim_bucket` and the transaction it makes then. -/
def reclaimTrans (scan : ℕ → ℤ) (c : BucketFs) (pos : KeyPosition) :
    Except ℤ (List BucketUpdate) :=
  match reclaimMember scan c pos with
  | .error err => .error err
  | .ok m =>
    if pos.bucket ∈ c.openBuckets then .error (-16)
    else if pos.inode ∉ c.rwDevs then .error (-16)
    else reclaimLocked scan c m pos

/-- `reclaim_bucket`. -/
def reclaimBucket (env : CallEnv) (c : BucketFs) (pos : KeyPosition) :
    Option (Except ℤ Unit × BucketFs) :=
  match reclaimTrans env.scan c pos with
  | .error err => some (.error err, c)
  | .ok t => runTrans env c t ()

/-- The check of `discard_bucket` on the alloc key, where its scan returns `scan`: the error it
returns, if any. -/
def discardKeyCheck (scan : ℤ) (c : BucketFs) (pos : KeyPosition) : Option ℤ :=
  if pos.inode ≥ c.members.length then some (-1)
  else if scan ≠ 0 then some scan
  else
    match allocKeyAt c pos with
    | none => some (-2)
    | some a =>
      if a.dataType ≠ .needDiscard ∨ a.journalSeqEmpty > c.lastSeqOndisk then some (-11) else none

/-- The part of `discard_bucket` before it gives the lock back. -/
def discardCheck (scan : ℤ) (c : BucketFs) (pos : KeyPosition) : Option ℤ :=
  match discardKeyCheck scan c pos with
  | some err => some err
  | none =>
    if pos.bucket ∈ c.openBuckets then some (-11)
    else if pos.inode ∉ c.rwDevs then some (-11)
    else none

/-- `discard_bucket`, running alone. -/
def discardBucket (scan : ℤ) (env : CallEnv) (c : BucketFs) (pos : KeyPosition) :
    Option (Except ℤ Unit × BucketFs) :=
  match discardCheck scan c pos with
  | some err => some (.error err, c)
  | none => reclaimBucket env c pos

/-- `DerivedStateMismatch`, as far as the indexes of buckets go. -/
inductive IndexMismatch
  | freespaceSet
  | needDiscardSet
deriving DecidableEq, Repr

/-- `verify_bucket_indexes`: what it finds wrong. -/
def verifyBucketIndexes (c : BucketFs) : Option IndexMismatch :=
  let free := c.alloc.entries.filter fun e => e.2.dataType = .free
  let allocFree := (free.map Prod.fst).toFinset
  let expectedIndex := (free.map fun e => allocFreespacePos e.1 e.2).toFinset
  let expectedNeedDiscard :=
    ((c.alloc.entries.filter fun e => e.2.dataType = .needDiscard).map Prod.fst).toFinset
  if allocFree.card ≠ c.freespace.card ∨ expectedIndex ≠ c.freespace ∨
      ∃ x ∈ c.freespace, bucketOfIndex x ∉ allocFree then some .freespaceSet
  else if expectedNeedDiscard ≠ c.needDiscard then some .needDiscardSet
  else none

/-! ### What an operation can do -/

/-- The bucket taken. -/
def BucketFs.take (c : BucketFs) (p : BucketPos) (a : BchAllocV4) : BucketFs :=
  { c with
    alloc := c.alloc.set p a.taken
    freespace := c.freespace.erase (allocFreespacePos p a) }

/-- The bucket emptied. -/
def BucketFs.empty (c : BucketFs) (p : BucketPos) (a : BchAllocV4) : BucketFs :=
  { c with
    alloc := c.alloc.set p a.emptied
    freespace := c.freespace.erase (allocFreespacePos p a)
    needDiscard := insert p c.needDiscard }

/-- The bucket freed. -/
def BucketFs.free (c : BucketFs) (p : BucketPos) (a : BchAllocV4) : BucketFs :=
  { c with
    alloc := c.alloc.set p a.freed
    freespace := insert (allocFreespacePos p a.freed) c.freespace
    needDiscard := c.needDiscard.erase p }

/-- The transactions of the operations on the bucket `p` with the alloc key `a`. -/
inductive BucketChange (c : BucketFs) (p : BucketPos) (a : BchAllocV4) :
    List BucketUpdate → BucketFs → Prop
  | take (hfree : a.dataType = .free) : BucketChange c p a (takeUpdates p a) (c.take p a)
  | empty (hne : a.dataType ≠ .needDiscard) : BucketChange c p a (emptyUpdates p a) (c.empty p a)
  | free (hdiscard : a.dataType = .needDiscard) (hseq : a.journalSeqEmpty ≤ c.lastSeqOndisk) :
      BucketChange c p a (freeUpdates p a) (c.free p a)

/-- The alloc key after a transaction. -/
theorem BucketChange.exists_alloc {c w : BucketFs} {p : BucketPos} {a : BchAllocV4}
    {t : List BucketUpdate} (h : BucketChange c p a t w) : ∃ b, w.alloc = c.alloc.set p b := by
  cases h with
  | take => exact ⟨_, rfl⟩
  | empty => exact ⟨_, rfl⟩
  | free => exact ⟨_, rfl⟩

/-- The updates in the order in which they are inserted. -/
theorem takeUpdates_eq (p : BucketPos) (a : BchAllocV4) : takeUpdates p a =
    [.freespace (allocFreespacePos p a) false, .alloc p a.taken] := rfl

theorem emptyUpdates_eq (p : BucketPos) (a : BchAllocV4) : emptyUpdates p a =
    [.freespace (allocFreespacePos p a) false, .needDiscard p true, .alloc p a.emptied] := rfl

theorem freeUpdates_eq (p : BucketPos) (a : BchAllocV4) : freeUpdates p a =
    [.freespace (allocFreespacePos p a.freed) true, .needDiscard p false, .alloc p a.freed] := rfl

theorem BucketChange.transaction {c w : BucketFs} {p : BucketPos} {a : BchAllocV4}
    {t : List BucketUpdate} (h : BucketChange c p a t w) : Transaction c w t := by
  cases h with
  | take =>
    refine ⟨rfl, fun u hu => ?_, fun tree htree => ?_⟩
    · simp only [takeUpdates_eq, List.mem_cons, List.not_mem_nil, or_false] at hu
      rcases hu with rfl | rfl <;> rfl
    · have htrees : tree ∉ [BucketTree.freespace, .alloc] := htree
      cases tree with
      | alloc => exact absurd (by decide) htrees
      | freespace => exact absurd (by decide) htrees
      | needDiscard => rfl
  | empty =>
    refine ⟨rfl, fun u hu => ?_, fun tree htree => ?_⟩
    · simp only [emptyUpdates_eq, List.mem_cons, List.not_mem_nil, or_false] at hu
      rcases hu with rfl | rfl | rfl <;> rfl
    · have htrees : tree ∉ [BucketTree.freespace, .needDiscard, .alloc] := htree
      exact absurd (by cases tree <;> decide) htrees
  | free =>
    refine ⟨rfl, fun u hu => ?_, fun tree htree => ?_⟩
    · simp only [freeUpdates_eq, List.mem_cons, List.not_mem_nil, or_false] at hu
      rcases hu with rfl | rfl | rfl <;> rfl
    · have htrees : tree ∉ [BucketTree.freespace, .needDiscard, .alloc] := htree
      exact absurd (by cases tree <;> decide) htrees

/-- A transaction of `allocate_bucket` takes a free bucket of the device. -/
theorem allocateTrans_eq_ok {scan : ℕ → ℤ} {c : BucketFs} {dev : ℕ} {t : List BucketUpdate}
    {pos : KeyPosition} (h : allocateTrans scan c dev = .ok (t, pos)) :
    ∃ p a, c.alloc.get p = some a ∧ a.dataType = .free ∧ t = takeUpdates p a ∧
      pos = ⟨p.dev, p.offset, 0⟩ := by
  unfold allocateTrans at h
  split at h
  · cases h
  · next m _ =>
    cases hfind : c.alloc.entries.find? (allocCandidate c m dev) with
    | none =>
      rw [hfind] at h
      dsimp only at h
      split_ifs at h
    | some e =>
      obtain ⟨p, a⟩ := e
      have hmem := List.mem_of_find?_eq_some hfind
      have hcandidate : allocCandidate c m dev (p, a) = true := List.find?_some hfind
      obtain ⟨-, -, -, -, hfree⟩ := of_decide_eq_true hcandidate
      rw [hfind] at h
      dsimp only at h
      split_ifs at h
      cases h
      exact ⟨p, a, c.alloc.mem_entries_iff.mp hmem, hfree, rfl, rfl⟩

theorem allocKeyAt_eq_some {c : BucketFs} {pos : KeyPosition} {a : BchAllocV4}
    (h : allocKeyAt c pos = some a) : c.alloc.get pos.bucket = some a := by
  rw [allocKeyAt] at h
  split_ifs at h
  exact h

/-- A transaction of `reclaim_bucket` empties the bucket or frees it. -/
theorem reclaimLocked_eq_ok {scan : ℕ → ℤ} {c : BucketFs} {m : DevMember} {pos : KeyPosition}
    {t : List BucketUpdate} (h : reclaimLocked scan c m pos = .ok t) :
    ∃ a, c.alloc.get pos.bucket = some a ∧
      ((a.dataType ≠ .needDiscard ∧ t = emptyUpdates pos.bucket a) ∨
        (a.dataType = .needDiscard ∧ a.journalSeqEmpty ≤ c.lastSeqOndisk ∧
          t = freeUpdates pos.bucket a)) := by
  unfold reclaimLocked at h
  cases hkey : allocKeyAt c pos with
  | none =>
    rw [hkey] at h
    dsimp only at h
    split_ifs at h
  | some a =>
    rw [hkey] at h
    dsimp only at h
    split_ifs at h with hreferred hscan hsectors hseq hdiscard
    · cases h
      exact ⟨a, allocKeyAt_eq_some hkey,
        .inr ⟨hdiscard, Nat.not_lt.mp fun hgt => hseq ⟨hdiscard, hgt⟩, rfl⟩⟩
    · cases h
      exact ⟨a, allocKeyAt_eq_some hkey, .inl ⟨hdiscard, rfl⟩⟩

/-- The transaction of `reclaim_bucket` is one behind its checks, for a bucket that is not open. -/
theorem reclaimTrans_eq_ok {scan : ℕ → ℤ} {c : BucketFs} {pos : KeyPosition}
    {t : List BucketUpdate} (h : reclaimTrans scan c pos = .ok t) :
    pos.bucket ∉ c.openBuckets ∧ ∃ m, reclaimLocked scan c m pos = .ok t := by
  unfold reclaimTrans at h
  split at h
  · cases h
  · next m _ =>
    split_ifs at h with hopen hrw
    exact ⟨hopen, m, h⟩

/-- A bucket that passes the check of `discard_bucket` waits for its discard. -/
theorem discardKeyCheck_eq_none {scan : ℤ} {c : BucketFs} {pos : KeyPosition}
    (h : discardKeyCheck scan c pos = none) :
    ∃ a, c.alloc.get pos.bucket = some a ∧ a.dataType = .needDiscard := by
  rw [discardKeyCheck] at h
  cases hkey : allocKeyAt c pos with
  | none =>
    rw [hkey] at h
    dsimp only at h
    split_ifs at h
  | some a =>
    rw [hkey] at h
    dsimp only at h
    split_ifs at h with hdev hscan hstate
    rw [not_or, not_not] at hstate
    exact ⟨a, allocKeyAt_eq_some hkey, hstate.1⟩

end Subvol

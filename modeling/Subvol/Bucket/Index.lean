import Subvol.Bucket.Engine

/-!
# The indexes of buckets

The freespace tree is to hold the entries of the free buckets and the need-discard tree the buckets
that wait for their discard, also while the age of a bucket, and with it its place in the freespace
tree, changes. An entry of the freespace tree gives its bucket back as long as the offsets of buckets
leave the top byte free, so a change of one bucket does not touch the entries of another.

## Main definitions

* `IndexOk`: the two trees are those of the alloc tree.
* `BucketCall`, `runCalls`: sequences of calls, each running alone.

## Main results

* `BucketChange.indexOk`: one transaction.
* `bucket_indexes_exact`: every sequence of calls.
-/

namespace Subvol

open Lib

/-! ### Entries of the freespace tree -/

theorem bucketOfIndex_allocFreespacePos {p : BucketPos} (h : p.offset < 2 ^ 56) (a : BchAllocV4) :
    bucketOfIndex (allocFreespacePos p a) = p := by
  obtain ⟨dev, offset⟩ := p
  have hoffset : (offset ||| ((a.gen - a.oldestGen : Fin 256).val >>> 4) <<< 56) % 2 ^ 56 =
      offset := by
    rw [Nat.or_mod_two_pow, Nat.shiftLeft_eq, Nat.mul_mod_left, Nat.or_zero]
    exact Nat.mod_eq_of_lt h
  rw [bucketOfIndex, allocFreespacePos, hoffset]

/-- The trees of free buckets and of buckets to discard follow the alloc tree. -/
structure IndexOk (c : BucketFs) : Prop where
  offset_lt : ∀ p a, c.alloc.get p = some a → p.offset < 2 ^ 56
  freespace : ∀ x, x ∈ c.freespace ↔
    ∃ p a, c.alloc.get p = some a ∧ a.dataType = .free ∧ x = allocFreespacePos p a
  needDiscard : ∀ p, p ∈ c.needDiscard ↔
    ∃ a, c.alloc.get p = some a ∧ a.dataType = .needDiscard

namespace IndexOk

variable {c : BucketFs} {p : BucketPos}

/-- An entry of another bucket. -/
theorem mem_freespace_iff (h : IndexOk c) (x : BucketPos) : x ∈ c.freespace ↔
    ∃ a, c.alloc.get (bucketOfIndex x) = some a ∧ a.dataType = .free ∧
      x = allocFreespacePos (bucketOfIndex x) a := by
  rw [h.freespace]
  constructor
  · rintro ⟨q, a, hget, hfree, rfl⟩
    rw [bucketOfIndex_allocFreespacePos (h.offset_lt q a hget)]
    exact ⟨a, hget, hfree, rfl⟩
  · rintro ⟨a, hget, hfree, hx⟩
    exact ⟨_, a, hget, hfree, hx⟩

/-- The alloc key of one bucket is replaced, its old entries go and its new ones come. -/
theorem set (h : IndexOk c) (hp : p.offset < 2 ^ 56) {a : BchAllocV4} {c' : BucketFs}
    (halloc : c'.alloc = c.alloc.set p a)
    (hfree : ∀ x, x ∈ c'.freespace ↔ (bucketOfIndex x ≠ p ∧ x ∈ c.freespace) ∨
      (a.dataType = .free ∧ x = allocFreespacePos p a))
    (hdiscard : ∀ q, q ∈ c'.needDiscard ↔ (q ≠ p ∧ q ∈ c.needDiscard) ∨
      (q = p ∧ a.dataType = .needDiscard)) : IndexOk c' := by
  have hself : c'.alloc.get p = some a := by rw [halloc, OrdMap.get_set_self]
  have hother : ∀ q, q ≠ p → c'.alloc.get q = c.alloc.get q := by
    intro q hq
    rw [halloc, OrdMap.get_set_of_ne _ _ hq]
  refine ⟨fun q b hget => ?_, fun x => ?_, fun q => ?_⟩
  · by_cases hq : q = p
    · rw [hq]
      exact hp
    · rw [hother q hq] at hget
      exact h.offset_lt q b hget
  · rw [hfree]
    constructor
    · rintro (⟨hne, hx⟩ | ⟨hfree, hx⟩)
      · obtain ⟨b, hget, hbfree, hx⟩ := (h.mem_freespace_iff x).mp hx
        exact ⟨_, b, (hother _ hne).trans hget, hbfree, hx⟩
      · exact ⟨p, a, hself, hfree, hx⟩
    · rintro ⟨q, b, hget, hbfree, rfl⟩
      by_cases hq : q = p
      · subst hq
        rw [hself] at hget
        cases hget
        exact .inr ⟨hbfree, rfl⟩
      · rw [hother q hq] at hget
        have hback := bucketOfIndex_allocFreespacePos (h.offset_lt q b hget) b
        exact .inl ⟨by rwa [hback], (h.freespace _).mpr ⟨q, b, hget, hbfree, rfl⟩⟩
  · rw [hdiscard]
    constructor
    · rintro (⟨hne, hq⟩ | ⟨rfl, hdis⟩)
      · obtain ⟨b, hget, hdis⟩ := (h.needDiscard q).mp hq
        exact ⟨b, (hother q hne).trans hget, hdis⟩
      · exact ⟨a, hself, hdis⟩
    · rintro ⟨b, hget, hdis⟩
      by_cases hq : q = p
      · subst hq
        rw [hself] at hget
        cases hget
        exact .inr ⟨rfl, hdis⟩
      · rw [hother q hq] at hget
        exact .inl ⟨hq, (h.needDiscard q).mpr ⟨b, hget, hdis⟩⟩

/-- The entry of a bucket that is in the freespace tree belongs to its alloc key. -/
theorem eq_of_mem (h : IndexOk c) {a : BchAllocV4} (hget : c.alloc.get p = some a) {x : BucketPos}
    (hx : x ∈ c.freespace) (hp : bucketOfIndex x = p) :
    a.dataType = .free ∧ x = allocFreespacePos p a := by
  obtain ⟨b, hgetb, hfree, heq⟩ := (h.mem_freespace_iff x).mp hx
  rw [hp, hget] at hgetb
  cases hgetb
  rw [hp] at heq
  exact ⟨hfree, heq⟩

end IndexOk

/-- A transaction of an operation keeps the indexes. -/
theorem BucketChange.indexOk {c c' : BucketFs} {p : BucketPos} {a : BchAllocV4}
    {t : List BucketUpdate} (hchange : BucketChange c p a t c') (h : IndexOk c)
    (hget : c.alloc.get p = some a) : IndexOk c' := by
  have hp := h.offset_lt p a hget
  have hback := bucketOfIndex_allocFreespacePos hp a
  -- the entry that is erased is the one of this bucket, if it has one
  have herase : ∀ x, x ∈ c.freespace.erase (allocFreespacePos p a) ↔
      bucketOfIndex x ≠ p ∧ x ∈ c.freespace := by
    intro x
    rw [Finset.mem_erase]
    refine and_congr_left fun hx => ⟨fun hne hxp => hne (h.eq_of_mem hget hx hxp).2, ?_⟩
    rintro hne rfl
    exact hne hback
  cases hchange with
  | take hfree =>
    refine h.set hp rfl (fun x => ?_) (fun q => ?_)
    · rw [or_iff_left fun hx => BchDataType.noConfusion hx.1]
      exact herase x
    · have hnot : p ∉ c.needDiscard := by
        intro hmem
        obtain ⟨b, hgetb, hdis⟩ := (h.needDiscard p).mp hmem
        rw [hget] at hgetb
        cases hgetb
        rw [hfree] at hdis
        cases hdis
      rw [or_iff_left fun hq => BchDataType.noConfusion hq.2]
      exact ⟨fun hq => ⟨fun hqp => hnot (hqp ▸ hq), hq⟩, fun hq => hq.2⟩
  | empty hne =>
    refine h.set hp rfl (fun x => ?_) (fun q => ?_)
    · rw [or_iff_left fun hx => BchDataType.noConfusion hx.1]
      exact herase x
    · rw [BucketFs.empty, Finset.mem_insert]
      by_cases hq : q = p
      · exact iff_of_true (.inl hq) (.inr ⟨hq, rfl⟩)
      · rw [or_iff_right hq, or_iff_left fun hqp => hq hqp.1, and_iff_right hq]
  | free hdiscard hseq =>
    have hback' := bucketOfIndex_allocFreespacePos hp a.freed
    refine h.set hp rfl (fun x => ?_) (fun q => ?_)
    · rw [BucketFs.free, Finset.mem_insert]
      constructor
      · rintro (rfl | hx)
        · exact .inr ⟨rfl, rfl⟩
        · refine .inl ⟨fun hxp => ?_, hx⟩
          have hfree := (h.eq_of_mem hget hx hxp).1
          rw [hdiscard] at hfree
          cases hfree
      · rintro (⟨-, hx⟩ | ⟨-, rfl⟩)
        · exact .inr hx
        · exact .inl rfl
    · rw [BucketFs.free, Finset.mem_erase]
      exact (or_iff_left fun hq => BchDataType.noConfusion hq.2).symm

/-- The journal does not matter for the indexes. -/
theorem IndexOk.journal {c : BucketFs} (h : IndexOk c) (js : List BucketUpdate) :
    IndexOk { c with journaled := js } := ⟨h.offset_lt, h.freespace, h.needDiscard⟩

/-! ### The check -/

/-- Right indexes pass `verify_bucket_indexes`. -/
theorem IndexOk.verify {c : BucketFs} (h : IndexOk c) : verifyBucketIndexes c = none := by
  have hfree : ∀ p, p ∈ ((c.alloc.entries.filter fun e => e.2.dataType = .free).map
      Prod.fst).toFinset ↔ ∃ a, c.alloc.get p = some a ∧ a.dataType = .free := by
    intro p
    simp only [List.mem_toFinset, List.mem_map, List.mem_filter, decide_eq_true_eq]
    constructor
    · rintro ⟨⟨q, a⟩, ⟨hmem, hdata⟩, rfl⟩
      exact ⟨a, c.alloc.mem_entries_iff.mp hmem, hdata⟩
    · rintro ⟨a, hget, hdata⟩
      exact ⟨(p, a), ⟨c.alloc.mem_entries_iff.mpr hget, hdata⟩, rfl⟩
  have hindex : ((c.alloc.entries.filter fun e => e.2.dataType = .free).map fun e =>
      allocFreespacePos e.1 e.2).toFinset = c.freespace := by
    ext x
    simp only [List.mem_toFinset, List.mem_map, List.mem_filter, decide_eq_true_eq, h.freespace]
    constructor
    · rintro ⟨⟨q, a⟩, ⟨hmem, hdata⟩, rfl⟩
      exact ⟨q, a, c.alloc.mem_entries_iff.mp hmem, hdata, rfl⟩
    · rintro ⟨q, a, hget, hdata, rfl⟩
      exact ⟨(q, a), ⟨c.alloc.mem_entries_iff.mpr hget, hdata⟩, rfl⟩
  have hdiscard : ((c.alloc.entries.filter fun e => e.2.dataType = .needDiscard).map
      Prod.fst).toFinset = c.needDiscard := by
    ext p
    simp only [List.mem_toFinset, List.mem_map, List.mem_filter, decide_eq_true_eq, h.needDiscard]
    constructor
    · rintro ⟨⟨q, a⟩, ⟨hmem, hdata⟩, rfl⟩
      exact ⟨a, c.alloc.mem_entries_iff.mp hmem, hdata⟩
    · rintro ⟨a, hget, hdata⟩
      exact ⟨(p, a), ⟨c.alloc.mem_entries_iff.mpr hget, hdata⟩, rfl⟩
  have himage : c.freespace.image bucketOfIndex =
      ((c.alloc.entries.filter fun e => e.2.dataType = .free).map Prod.fst).toFinset := by
    ext p
    rw [hfree, Finset.mem_image]
    constructor
    · rintro ⟨x, hx, rfl⟩
      obtain ⟨a, hget, hdata, -⟩ := (h.mem_freespace_iff x).mp hx
      exact ⟨a, hget, hdata⟩
    · rintro ⟨a, hget, hdata⟩
      exact ⟨allocFreespacePos p a, (h.freespace _).mpr ⟨p, a, hget, hdata, rfl⟩,
        bucketOfIndex_allocFreespacePos (h.offset_lt p a hget) a⟩
  have hinj : Set.InjOn bucketOfIndex c.freespace := by
    intro x hx y hy hxy
    obtain ⟨a, hget, -, heq⟩ := (h.mem_freespace_iff x).mp hx
    rw [heq]
    exact (h.eq_of_mem hget hy hxy.symm).2.symm
  have hcard := Finset.card_image_of_injOn hinj
  rw [himage] at hcard
  rw [verifyBucketIndexes]
  rw [if_neg, if_neg (not_not.mpr hdiscard)]
  rintro (hne | hne | ⟨x, hx, hout⟩)
  · exact hne hcard
  · exact hne hindex
  · rw [← himage] at hout
    exact hout (Finset.mem_image_of_mem _ hx)

/-! ### Sequences of calls -/

/-- A call, with what it meets; a flush of the journal moves the boundary. -/
inductive BucketCall
  | allocate (dev : ℕ) (env : CallEnv)
  | reclaim (pos : KeyPosition) (env : CallEnv)
  | discard (pos : KeyPosition) (scan : ℤ) (env : CallEnv)
  | flush (lastSeqOndisk : ℕ)

namespace BucketCall

/-- What a call returns, and the trees behind it. -/
def run (c : BucketFs) : BucketCall → Option (Except ℤ (Option KeyPosition) × BucketFs)
  | allocate dev env => (allocateBucket env c dev).map fun r => (r.1.map some, r.2)
  | reclaim pos env => (reclaimBucket env c pos).map fun r => (r.1.map fun _ => none, r.2)
  | discard pos scan env => (discardBucket scan env c pos).map fun r => (r.1.map fun _ => none, r.2)
  | flush n => some (.ok none, { c with lastSeqOndisk := max c.lastSeqOndisk n })

/-- The call is a reclaim or a discard of the bucket. -/
def reclaims (p : BucketPos) : BucketCall → Prop
  | reclaim pos _ => p = pos.bucket
  | discard pos _ _ => p = pos.bucket
  | _ => False

/-- In the transaction of the call, nothing fails behind an attempt that stops at an insertion. -/
def Whole (c : BucketFs) : BucketCall → Prop
  | allocate dev env => ∀ t pos, allocateTrans env.scan c dev = .ok (t, pos) →
      CommitsWhole env.attempts c t
  | reclaim pos env => ∀ t, reclaimTrans env.scan c pos = .ok t → CommitsWhole env.attempts c t
  | discard pos scan env => discardCheck scan c pos = none →
      ∀ t, reclaimTrans env.scan c pos = .ok t → CommitsWhole env.attempts c t
  | flush _ => True

end BucketCall

/-- The calls of a run with their results, each call satisfying `P` where it starts. -/
inductive BucketRun (P : BucketFs → BucketCall → Prop) :
    BucketFs → List (BucketCall × Except ℤ (Option KeyPosition)) → BucketFs → Prop
  | nil (c : BucketFs) : BucketRun P c [] c
  | cons {c d e : BucketFs} {call : BucketCall} {res : Except ℤ (Option KeyPosition)}
      {calls : List (BucketCall × Except ℤ (Option KeyPosition))} (hP : P c call)
      (hcall : call.run c = some (res, d)) (hcalls : BucketRun P d calls e) :
      BucketRun P c ((call, res) :: calls) e

/-! ### What a call can do -/

/-- Everything a call can do whose transaction is made as a whole or not at all. -/
inductive CallCase (c : BucketFs) (call : BucketCall) :
    Except ℤ (Option KeyPosition) → BucketFs → Prop
  | refused (err : ℤ) : CallCase c call (.error err) c
  | flushed (n : ℕ) : CallCase c call (.ok none) { c with lastSeqOndisk := n }
  | taken {p : BucketPos} {a : BchAllocV4} {js : List BucketUpdate} (hget : c.alloc.get p = some a)
      (hfree : a.dataType = .free) :
      CallCase c call (.ok (some ⟨p.dev, p.offset, 0⟩)) { c.take p a with journaled := js }
  | reclaimed {p : BucketPos} {a : BchAllocV4} {t : List BucketUpdate} {w : BucketFs}
      {js : List BucketUpdate} (hcall : call.reclaims p) (hget : c.alloc.get p = some a)
      (hchange : BucketChange c p a t w) : CallCase c call (.ok none) { w with journaled := js }

/-- The transaction of a call is made as a whole or not at all. -/
theorem runTrans_cases {α : Type} {env : CallEnv} {c w : BucketFs} {t : List BucketUpdate}
    {value : α} {out : Except ℤ α × BucketFs} (ht : Transaction c w t)
    (hwhole : CommitsWhole env.attempts c t) (hrun : runTrans env c t value = some out) :
    (∃ err, out = (.error err, c)) ∨ ∃ js, out = (.ok value, { w with journaled := js }) := by
  rw [runTrans] at hrun
  cases hloop : commitLoop env.attempts c t with
  | none =>
    rw [hloop] at hrun
    cases hrun
  | some r =>
    obtain ⟨ret, d⟩ := r
    rw [hloop] at hrun
    cases hrun
    rcases commitLoop_cases ht hwhole hloop with ⟨hne, rfl⟩ | ⟨rfl, hd⟩
    · exact .inl ⟨ret, by rw [if_pos hne]⟩
    · exact .inr ⟨d.journaled, by rw [if_neg (not_not.mpr rfl), ← hd]⟩

/-- A transaction of `reclaim_bucket` is one of those of the operations. -/
theorem reclaimTrans_change {scan : ℕ → ℤ} {c : BucketFs} {pos : KeyPosition}
    {t : List BucketUpdate} (h : reclaimTrans scan c pos = .ok t) :
    ∃ a w, c.alloc.get pos.bucket = some a ∧ BucketChange c pos.bucket a t w := by
  obtain ⟨-, m, hlocked⟩ := reclaimTrans_eq_ok h
  obtain ⟨a, hget, ⟨hne, rfl⟩ | ⟨hdiscard, hseq, rfl⟩⟩ := reclaimLocked_eq_ok hlocked
  · exact ⟨a, _, hget, .empty hne⟩
  · exact ⟨a, _, hget, .free hdiscard hseq⟩

theorem reclaimBucket_call {env : CallEnv} {c : BucketFs} {pos : KeyPosition} {call : BucketCall}
    {out : Except ℤ Unit × BucketFs} (hcall : call.reclaims pos.bucket)
    (hwhole : ∀ t, reclaimTrans env.scan c pos = .ok t → CommitsWhole env.attempts c t)
    (hrun : reclaimBucket env c pos = some out) :
    CallCase c call (out.1.map fun _ => none) out.2 := by
  rw [reclaimBucket] at hrun
  cases htrans : reclaimTrans env.scan c pos with
  | error err =>
    rw [htrans] at hrun
    cases hrun
    exact .refused err
  | ok t =>
    rw [htrans] at hrun
    obtain ⟨a, w, hget, hchange⟩ := reclaimTrans_change htrans
    rcases runTrans_cases hchange.transaction (hwhole t htrans) hrun with ⟨err, rfl⟩ | ⟨js, rfl⟩
    · exact .refused err
    · exact .reclaimed hcall hget hchange

theorem BucketCall.run_cases {c c' : BucketFs} {call : BucketCall}
    {res : Except ℤ (Option KeyPosition)} (hwhole : call.Whole c)
    (hrun : call.run c = some (res, c')) : CallCase c call res c' := by
  cases call with
  | allocate dev env =>
    obtain ⟨out, hout, heq⟩ := Option.map_eq_some_iff.mp hrun
    cases heq
    rw [allocateBucket] at hout
    cases htrans : allocateTrans env.scan c dev with
    | error err =>
      rw [htrans] at hout
      cases hout
      exact .refused err
    | ok r =>
      obtain ⟨t, pos⟩ := r
      rw [htrans] at hout
      obtain ⟨p, a, hget, hfree, rfl, rfl⟩ := allocateTrans_eq_ok htrans
      rcases runTrans_cases (BucketChange.transaction (.take hfree)) (hwhole _ _ htrans) hout with
        ⟨err, rfl⟩ | ⟨js, rfl⟩
      · exact .refused err
      · exact .taken hget hfree
  | reclaim pos env =>
    obtain ⟨out, hout, heq⟩ := Option.map_eq_some_iff.mp hrun
    cases heq
    exact reclaimBucket_call rfl hwhole hout
  | discard pos scan env =>
    obtain ⟨out, hout, heq⟩ := Option.map_eq_some_iff.mp hrun
    cases heq
    rw [discardBucket] at hout
    cases hcheck : discardCheck scan c pos with
    | some err =>
      rw [hcheck] at hout
      cases hout
      exact .refused err
    | none =>
      rw [hcheck] at hout
      exact reclaimBucket_call rfl (hwhole hcheck) hout
  | flush n =>
    cases hrun
    exact .flushed _

namespace CallCase

variable {c c' : BucketFs} {call : BucketCall} {res : Except ℤ (Option KeyPosition)}

theorem indexOk (hcase : CallCase c call res c') (h : IndexOk c) : IndexOk c' := by
  cases hcase with
  | refused err => exact h
  | flushed n => exact ⟨h.offset_lt, h.freespace, h.needDiscard⟩
  | taken hget hfree => exact (BucketChange.indexOk (.take hfree) h hget).journal _
  | reclaimed _ hget hchange => exact (hchange.indexOk h hget).journal _

/-- A call that fails changes nothing. -/
theorem unchanged {err : ℤ} (hcase : CallCase c call (.error err) c') : c' = c := by
  cases hcase
  rfl

/-- A bucket that is not free keeps its alloc key unless the call reclaims it. -/
theorem get_eq (hcase : CallCase c call res c') {p : BucketPos} {a : BchAllocV4}
    (hget : c.alloc.get p = some a) (ha : a.dataType ≠ .free)
    (hcall : ¬(call.reclaims p ∧ ∃ value, res = .ok value)) : c'.alloc.get p = some a := by
  cases hcase with
  | refused err => exact hget
  | flushed n => exact hget
  | @taken q b js hgetq hfree =>
    have hne : p ≠ q := by
      rintro rfl
      rw [hget] at hgetq
      cases hgetq
      exact ha hfree
    exact (c.alloc.get_set_of_ne _ hne).trans hget
  | @reclaimed q b t w js hreclaims hgetq hchange =>
    have hne : p ≠ q := by
      rintro rfl
      exact hcall ⟨hreclaims, none, rfl⟩
    obtain ⟨b', hb'⟩ := hchange.exists_alloc
    have hset : w.alloc.get p = c.alloc.get p := by rw [hb', c.alloc.get_set_of_ne _ hne]
    exact hset.trans hget

/-- A bucket that was returned belongs to a btree. -/
theorem get_of_taken {pos : KeyPosition} (hcase : CallCase c call (.ok (some pos)) c') :
    ∃ a, c.alloc.get pos.bucket = some a ∧ a.dataType = .free ∧
      c'.alloc.get pos.bucket = some a.taken := by
  cases hcase with
  | taken hget hfree => exact ⟨_, hget, hfree, OrdMap.get_set_self _ _ _⟩

end CallCase

/-! ### Runs -/

theorem BucketRun.indexOk {c d : BucketFs}
    {calls : List (BucketCall × Except ℤ (Option KeyPosition))}
    (hrun : BucketRun (fun c call => call.Whole c) c calls d) (h : IndexOk c) : IndexOk d := by
  induction hrun with
  | nil => exact h
  | cons hwhole hcall _ ih => exact ih ((BucketCall.run_cases hwhole hcall).indexOk h)

theorem BucketRun.append {P : BucketFs → BucketCall → Prop} {c d : BucketFs}
    {calls calls' : List (BucketCall × Except ℤ (Option KeyPosition))}
    (hrun : BucketRun P c (calls ++ calls') d) :
    ∃ e, BucketRun P c calls e ∧ BucketRun P e calls' d := by
  induction calls generalizing c with
  | nil => exact ⟨c, .nil c, hrun⟩
  | cons x calls ih =>
    cases hrun with
    | cons hP hcall hrest =>
      obtain ⟨e, hfirst, hlast⟩ := ih hrest
      exact ⟨e, .cons hP hcall hfirst, hlast⟩

/-- A bucket that is not free keeps its alloc key in a run that does not reclaim it. -/
theorem BucketRun.get_eq {c d : BucketFs}
    {calls : List (BucketCall × Except ℤ (Option KeyPosition))}
    (hrun : BucketRun (fun c call => call.Whole c) c calls d) {p : BucketPos} {a : BchAllocV4}
    (hget : c.alloc.get p = some a) (ha : a.dataType ≠ .free)
    (hcalls : ∀ x ∈ calls, ¬(x.1.reclaims p ∧ ∃ value, x.2 = .ok value)) :
    d.alloc.get p = some a := by
  induction hrun with
  | nil => exact hget
  | cons hwhole hcall _ ih =>
    refine ih ?_ fun x hx => hcalls x (List.mem_cons_of_mem _ hx)
    exact (BucketCall.run_cases hwhole hcall).get_eq hget ha (hcalls _ List.mem_cons_self)

/-- Between two calls that return the same bucket, it is reclaimed. -/
theorem BucketRun.reclaimed_between {c d : BucketFs} {x y : BucketCall} {pos : KeyPosition}
    {calls calls' : List (BucketCall × Except ℤ (Option KeyPosition))}
    (hrun : BucketRun (fun c call => call.Whole c) c
      ((x, .ok (some pos)) :: (calls ++ (y, .ok (some pos)) :: calls')) d) :
    ∃ z ∈ calls, z.1.reclaims pos.bucket ∧ ∃ value, z.2 = .ok value := by
  by_contra hnone
  simp only [not_exists, not_and] at hnone
  cases hrun with
  | cons hx hxrun hrest =>
    obtain ⟨a, -, -, hgetx⟩ := (BucketCall.run_cases hx hxrun).get_of_taken
    obtain ⟨e, hmid, hlast⟩ := hrest.append
    have hgete := hmid.get_eq hgetx (fun h => BchDataType.noConfusion h)
      fun z hz ⟨hreclaims, value, hvalue⟩ => hnone z hz hreclaims value hvalue
    cases hlast with
    | cons hy hyrun _ =>
      obtain ⟨b, hgetb, hfree, -⟩ := (BucketCall.run_cases hy hyrun).get_of_taken
      rw [hgete] at hgetb
      cases hgetb
      cases hfree

/-! ### The engine after its initialisation -/

theorem addFreeBucket_indexOk {c : BucketFs} (h : IndexOk c) {offset : ℕ} (hlt : offset < 2 ^ 56)
    (hdiscard : c.needDiscard = ∅) (hfree : ∀ p a, c.alloc.get p = some a → a = {}) :
    IndexOk (addFreeBucket c offset) := by
  refine h.set (p := ⟨0, offset⟩) hlt rfl (fun x => ?_) (fun q => ?_)
  · rw [addFreeBucket, Finset.mem_insert]
    constructor
    · rintro (rfl | hx)
      · exact .inr ⟨rfl, rfl⟩
      · by_cases hp : bucketOfIndex x = ⟨0, offset⟩
        · obtain ⟨a, hget, -, hxa⟩ := (h.mem_freespace_iff x).mp hx
          rw [hp] at hxa hget
          rw [hfree _ _ hget] at hxa
          exact .inr ⟨rfl, hxa⟩
        · exact .inl ⟨hp, hx⟩
    · rintro (⟨-, hx⟩ | ⟨-, rfl⟩)
      · exact .inr hx
      · exact .inl rfl
  · have hempty : q ∉ (addFreeBucket c offset).needDiscard := by
      change q ∉ c.needDiscard
      rw [hdiscard]
      exact Finset.notMem_empty q
    refine iff_of_false hempty ?_
    rintro (⟨-, hq⟩ | ⟨-, hdata⟩)
    · exact hempty hq
    · cases hdata

/-- The engine whose buckets were set up with `add_free_bucket`. -/
def initBuckets (c : BucketFs) (offsets : List ℕ) : BucketFs := offsets.foldl addFreeBucket c

theorem initBuckets_indexOk {c : BucketFs} {offsets : List ℕ} (h : IndexOk c)
    (hlt : ∀ o ∈ offsets, o < 2 ^ 56) (hdiscard : c.needDiscard = ∅)
    (hfree : ∀ p a, c.alloc.get p = some a → a = {}) : IndexOk (initBuckets c offsets) := by
  induction offsets generalizing c with
  | nil => exact h
  | cons o offsets ih =>
    refine ih (addFreeBucket_indexOk h (hlt o List.mem_cons_self) hdiscard hfree)
      (fun o' ho' => hlt o' (List.mem_cons_of_mem _ ho')) hdiscard fun p a hget => ?_
    by_cases hp : p = ⟨0, o⟩
    · rw [hp, addFreeBucket, OrdMap.get_set_self] at hget
      exact (Option.some.inj hget).symm
    · rw [addFreeBucket, OrdMap.get_set_of_ne _ _ hp] at hget
      exact hfree p a hget

/-- An engine without buckets. -/
theorem indexOk_empty {c : BucketFs} (halloc : c.alloc = .empty) (hfree : c.freespace = ∅)
    (hdiscard : c.needDiscard = ∅) : IndexOk c := by
  have hget : ∀ p, c.alloc.get p = none := by
    intro p
    rw [halloc]
    rfl
  refine ⟨fun p a h => ?_, fun x => iff_of_false ?_ ?_, fun p => iff_of_false ?_ ?_⟩
  · rw [hget] at h
    cases h
  · rw [hfree]
    exact Finset.notMem_empty x
  · rintro ⟨p, a, h, -⟩
    rw [hget] at h
    cases h
  · rw [hdiscard]
    exact Finset.notMem_empty p
  · rintro ⟨a, h, -⟩
    rw [hget] at h
    cases h

/-- A device of sixteen buckets. -/
def bucketMember : DevMember := { bucketSize := 8, firstBucket := 1, nbuckets := 16 }

/-- An engine with this device and no buckets yet. -/
def bucketEngine : BucketFs := { members := [bucketMember], rwDevs := {0} }

theorem commitsWhole_default (c : BucketFs) (t : List BucketUpdate) : CommitsWhole [{}] c t := by
  refine ⟨?_, trivial⟩
  rintro ⟨-, u, -, hfull⟩
  cases u <;> cases hfull

/-- The need-discard tree is one leaf of 512 bytes: with eight entries it has three words left. No
sectors are left for the nodes of a split. -/
def fullLeafEnv : CommitEnv where
  check tree := if tree = .needDiscard then { remaining := 3 } else {}
  insert tree := if tree = .needDiscard then { remaining := 3 } else {}
  split _ := -28

end Subvol

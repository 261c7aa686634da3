import Mathlib.Data.Finset.Card
import Mathlib.Data.Finset.Image
import Mathlib.Data.Nat.Bitwise
import Mathlib.Data.Prod.Lex
import Subvol.Extent.Trigger
import Subvol.Lib.OrdMap

/-!
# Transactions over the trees of buckets

A bucket has a key in the alloc tree; free buckets have an entry in the freespace tree, under a
position that also holds the top bits of the age of the bucket, and buckets that are to be discarded
have one in a tree of their own. The operations of the engine change these trees in transactions,
modelled here along `bch2_trans_commit`: updates that change nothing are dropped, the leaves of the
others are checked for room, the journal takes the updates, and then they are inserted one by one.
Before each insertion the room is checked once more, and a leaf without room is split at this point,
with the updates before it already made. The engine repeats a transaction that has to restart.

The trees are the maps and sets they hold. How full the leaves are and what fails around them is not
part of this state; it is the environment of an attempt, `CommitEnv`.

## Main definitions

* `BchAllocV4`, `BucketFs`, `BucketUpdate`.
* `CommitEnv`, `transCommit`, `commitLoop`.
* `CommitEnv.breaksOff`, `CommitsWhole`: an attempt stops at an insertion; after such an attempt
  nothing fails.

## Main results

* `commitLoop_cases`: without a failure behind such an attempt, a transaction is made as a whole or
  not at all.
-/

namespace Subvol

open Lib

/-! ### Data -/

/-- The position of a bucket or of an entry for it: the device and the offset. -/
structure BucketPos where
  dev : ℕ
  offset : ℕ
deriving Repr

namespace BucketPos

/-- The device and the offset in their order. -/
def key (p : BucketPos) : ℕ ×ₗ ℕ := toLex (p.dev, p.offset)

theorem key_injective : Function.Injective key := by
  rintro ⟨d, o⟩ ⟨d', o'⟩ h
  have hpair : (d, o) = (d', o') := h
  cases hpair
  rfl

instance : LinearOrder BucketPos := LinearOrder.lift' key key_injective

end BucketPos

/-- The data types that the engine tells apart. -/
inductive BchDataType
  | free
  | btree
  | needDiscard
  | other (code : Fin 256)
deriving DecidableEq, Repr

/-- `bch_alloc_v4`, with the fields that are only copied in `rest`. -/
structure BchAllocV4 where
  gen : Fin 256 := 0
  oldestGen : Fin 256 := 0
  dataType : BchDataType := .free
  dirtySectors : ℕ := 0
  cachedSectors : ℕ := 0
  journalSeqEmpty : ℕ := 0
  rest : List UInt64 := []
deriving DecidableEq, Repr

/-- The trees that a transaction of the bucket operations writes. -/
inductive BucketTree
  | alloc
  | freespace
  | needDiscard
deriving DecidableEq, Repr

/-- An update of a transaction: an alloc key, or an entry that is set or deleted. -/
inductive BucketUpdate
  | alloc (p : BucketPos) (a : BchAllocV4)
  | freespace (x : BucketPos) (set : Bool)
  | needDiscard (p : BucketPos) (set : Bool)
deriving DecidableEq, Repr

/-- What the bucket operations read and write: the members of the superblock, the three trees, the
positions in the backpointer tree, the open buckets, the writable devices, the boundary of the
journal and the updates the journal was given. -/
structure BucketFs where
  members : List DevMember
  alloc : OrdMap BucketPos BchAllocV4 := .empty
  freespace : Finset BucketPos := ∅
  needDiscard : Finset BucketPos := ∅
  backpointers : List BucketPos := []
  openBuckets : Finset BucketPos := ∅
  rwDevs : Finset ℕ := ∅
  lastSeqOndisk : ℕ := 1
  journaled : List BucketUpdate := []

namespace BucketUpdate

/-- The tree of an update. -/
def tree : BucketUpdate → BucketTree
  | alloc _ _ => .alloc
  | freespace _ _ => .freespace
  | needDiscard _ _ => .needDiscard

/-- The words of the key of an update. -/
def u64s : BucketUpdate → ℕ
  | alloc _ _ => 13
  | freespace _ _ => 5
  | needDiscard _ _ => 5

/-- `btree_trigger_order`, by which the updates of a transaction are sorted. -/
def sortOrder : BucketUpdate → ℕ
  | alloc _ _ => 255
  | freespace _ _ => 5
  | needDiscard _ _ => 254

/-- Whether the tree has a key at the position of the update. -/
def found (c : BucketFs) : BucketUpdate → Bool
  | alloc p _ => (c.alloc.get p).isSome
  | freespace x _ => decide (x ∈ c.freespace)
  | needDiscard p _ => decide (p ∈ c.needDiscard)

/-- Whether the update deletes a key. -/
def deletes : BucketUpdate → Bool
  | alloc _ _ => false
  | freespace _ set => !set
  | needDiscard _ set => !set

/-- Whether the tree already holds what the update says; a deletion of a key that is not there only
counts if the deleted key is still in its place. -/
def noop (c : BucketFs) (whiteout : BucketTree → Bool) : BucketUpdate → Bool
  | alloc p a => decide (c.alloc.get p = some a)
  | freespace x true => decide (x ∈ c.freespace)
  | freespace x false => decide (x ∉ c.freespace) && whiteout .freespace
  | needDiscard p true => decide (p ∈ c.needDiscard)
  | needDiscard p false => decide (p ∉ c.needDiscard) && whiteout .needDiscard

/-- The words that the first check of the room counts: a key that is replaced by a deletion counts
for none. -/
def requiredU64s (c : BucketFs) (u : BucketUpdate) : ℕ :=
  if u.deletes && u.found c then 0 else u.u64s

end BucketUpdate

/-- The trees with an update made. -/
def BucketFs.update (c : BucketFs) : BucketUpdate → BucketFs
  | .alloc p a => { c with alloc := c.alloc.set p a }
  | .freespace x true => { c with freespace := insert x c.freespace }
  | .freespace x false => { c with freespace := c.freespace.erase x }
  | .needDiscard p true => { c with needDiscard := insert p c.needDiscard }
  | .needDiscard p false => { c with needDiscard := c.needDiscard.erase p }

/-- `bch2_trans_update`: the updates of a transaction in their order, with one more. -/
def transUpdate (u : BucketUpdate) : List BucketUpdate → List BucketUpdate
  | [] => [u]
  | v :: vs => if v.sortOrder < u.sortOrder then v :: transUpdate u vs else u :: v :: vs

/-! ### The commit -/

/-- The leaf that an update goes to: the words left in it, and whether a further bset can be
started. -/
structure LeafEnv where
  remaining : ℕ := 64
  needRewrite : Bool := false
  newBset : Bool := false
deriving DecidableEq, Repr

/-- `bch2_btree_node_insert_fits` and `want_new_bset`: the leaf has to be split first. -/
def LeafEnv.full (l : LeafEnv) (u64s : ℕ) : Bool :=
  (l.needRewrite || decide (l.remaining < u64s)) && !l.newBset

/-- What one attempt to commit meets: the value of the staging of the updates, of the restarts that
are injected and the interior updates left from a split, of the triggers, of a merge behind the first
check and of everything up to the insertions (the reservation in the journal, the locks, the check
of the old keys), the leaves at both checks and the value of their splits. -/
structure CommitEnv where
  stage : ℤ := 0
  start : ℤ := 0
  triggers : ℤ := 0
  whiteout : BucketTree → Bool := fun _ => false
  check : BucketTree → LeafEnv := fun _ => {}
  merge : BucketTree → ℤ := fun _ => 0
  prepare : ℤ := 0
  insert : BucketTree → LeafEnv := fun _ => {}
  split : BucketTree → ℤ := fun _ => 0
  realloc : Bool := false

namespace CommitEnv

variable (env : CommitEnv)

/-- What the commit returns after `bch2_btree_split_leaf`. -/
def afterSplit (tree : BucketTree) : ℤ := if env.split tree ≠ 0 then env.split tree else -4

/-- The first check of the room in the leaves. -/
def checkRoom (c : BucketFs) : List BucketUpdate → ℤ
  | [] => 0
  | u :: us =>
    if (env.check u.tree).full (u.requiredU64s c) then env.afterSplit u.tree
    else if env.merge u.tree ≠ 0 then env.merge u.tree
    else checkRoom c us

/-- The insertions, each behind its check of the room. -/
def insertAll : BucketFs → List BucketUpdate → BucketFs × ℤ
  | c, [] => (c, 0)
  | c, u :: us =>
    if (env.insert u.tree).full u.u64s then (c, env.afterSplit u.tree)
    else insertAll (c.update u) us

/-- The updates that a commit does not drop. -/
def pending (c : BucketFs) (t : List BucketUpdate) : List BucketUpdate :=
  t.filter fun u => !u.noop c env.whiteout

/-- The value with which an attempt ends before the insertions, if it is not zero. -/
def refuses (c : BucketFs) (t : List BucketUpdate) : ℤ :=
  if env.stage ≠ 0 then env.stage
  else if env.start ≠ 0 then env.start
  else if env.pending c t = [] then 0
  else if env.triggers ≠ 0 then env.triggers
  else if env.checkRoom c (env.pending c t) ≠ 0 then env.checkRoom c (env.pending c t)
  else env.prepare

/-- The staging of the updates and `bch2_trans_commit`. -/
def transCommit (c : BucketFs) (t : List BucketUpdate) : BucketFs × ℤ :=
  if env.refuses c t ≠ 0 then (c, env.refuses c t)
  else env.insertAll { c with journaled := c.journaled ++ env.pending c t } (env.pending c t)

/-- Whether the engine repeats the transaction after this value. -/
def restarts (ret : ℤ) : Bool := decide (ret = -4) || (decide (ret = -12) && env.realloc)

end CommitEnv

/-- The loop around the commits of a transaction; each attempt has its environment, and without one
more the loop has not come to its end. -/
def commitLoop : List CommitEnv → BucketFs → List BucketUpdate → Option (ℤ × BucketFs)
  | [], _, _ => none
  | env :: envs, c, t =>
    if env.restarts (env.transCommit c t).2 then commitLoop envs (env.transCommit c t).1 t
    else some ((env.transCommit c t).2, (env.transCommit c t).1)

/-! ### Attempts that stop at an insertion -/

/-- An attempt reaches the insertions and finds a leaf full there. -/
def CommitEnv.breaksOff (env : CommitEnv) (c : BucketFs) (t : List BucketUpdate) : Prop :=
  env.refuses c t = 0 ∧ ∃ u ∈ env.pending c t, (env.insert u.tree).full u.u64s = true

/-- Zero or a reason to restart. -/
def CommitEnv.BenignValue (env : CommitEnv) (ret : ℤ) : Prop := ret = 0 ∨ env.restarts ret = true

/-- Nothing fails in the attempt. -/
structure CommitEnv.Benign (env : CommitEnv) : Prop where
  stage : env.BenignValue env.stage
  start : env.BenignValue env.start
  triggers : env.BenignValue env.triggers
  merge : ∀ tree, env.BenignValue (env.merge tree)
  prepare : env.BenignValue env.prepare
  split : ∀ tree, env.BenignValue (env.split tree)

/-- From an attempt on that stops at an insertion, nothing fails. -/
def CommitsWhole : List CommitEnv → BucketFs → List BucketUpdate → Prop
  | [], _, _ => True
  | env :: envs, c, t =>
    (env.breaksOff c t → ∀ e ∈ env :: envs, e.Benign) ∧
      CommitsWhole envs (env.transCommit c t).1 t

/-! ### Transactions made in part -/

/-- Two states agree in a tree. -/
def SameTree (c d : BucketFs) : BucketTree → Prop
  | .alloc => c.alloc = d.alloc
  | .freespace => c.freespace = d.freespace
  | .needDiscard => c.needDiscard = d.needDiscard

theorem SameTree.refl (c : BucketFs) (tree : BucketTree) : SameTree c c tree := by
  cases tree <;> rfl

theorem SameTree.trans {c d e : BucketFs} {tree : BucketTree} (h : SameTree c d tree)
    (h' : SameTree d e tree) : SameTree c e tree := by
  cases tree <;> exact Eq.trans h h'

theorem SameTree.symm {c d : BucketFs} {tree : BucketTree} (h : SameTree c d tree) :
    SameTree d c tree := by
  cases tree <;> exact Eq.symm h

/-- An update leaves the other trees as they are. -/
theorem BucketFs.sameTree_update (c : BucketFs) {u : BucketUpdate} {tree : BucketTree}
    (h : tree ≠ u.tree) : SameTree (c.update u) c tree := by
  rcases u with ⟨p, a⟩ | ⟨x, set | set⟩ | ⟨p, set | set⟩ <;> cases tree <;>
    first | exact absurd rfl h | rfl

/-- An update that changes nothing. -/
theorem BucketUpdate.update_eq_of_noop {c : BucketFs} {whiteout : BucketTree → Bool}
    {u : BucketUpdate} (h : u.noop c whiteout = true) : c.update u = c := by
  rcases u with ⟨p, a⟩ | ⟨x, set | set⟩ | ⟨p, set | set⟩
  · rw [BucketFs.update, OrdMap.set_of_get _ (of_decide_eq_true h)]
  · have hnot := of_decide_eq_true ((Bool.and_eq_true _ _).mp h).1
    rw [BucketFs.update, Finset.erase_eq_of_notMem hnot]
  · rw [BucketFs.update, Finset.insert_eq_of_mem (of_decide_eq_true h)]
  · have hnot := of_decide_eq_true ((Bool.and_eq_true _ _).mp h).1
    rw [BucketFs.update, Finset.erase_eq_of_notMem hnot]
  · rw [BucketFs.update, Finset.insert_eq_of_mem (of_decide_eq_true h)]

/-- An update of one tree looks at this tree only. -/
theorem SameTree.update {c d : BucketFs} {u : BucketUpdate} (h : SameTree c d u.tree) :
    SameTree (c.update u) (d.update u) u.tree := by
  rcases u with ⟨p, a⟩ | ⟨x, set | set⟩ | ⟨p, set | set⟩
  · exact congrArg (fun m => OrdMap.set m p a) h
  · exact congrArg (fun s => Finset.erase s x) h
  · exact congrArg (fun s => insert x s) h
  · exact congrArg (fun s => Finset.erase s p) h
  · exact congrArg (fun s => insert p s) h

/-- Making an update twice is making it once. -/
theorem BucketFs.update_update (c : BucketFs) (u : BucketUpdate) :
    (c.update u).update u = c.update u := by
  rcases u with ⟨p, a⟩ | ⟨x, set | set⟩ | ⟨p, set | set⟩
  · simp only [BucketFs.update, OrdMap.set_set]
  · simp only [BucketFs.update, Finset.erase_idem]
  · simp only [BucketFs.update, Finset.insert_idem]
  · simp only [BucketFs.update, Finset.erase_idem]
  · simp only [BucketFs.update, Finset.insert_idem]

/-- The state apart from the three trees and the journal. -/
def BucketFs.frame (c : BucketFs) : BucketFs :=
  { c with alloc := .empty, freespace := ∅, needDiscard := ∅, journaled := [] }

theorem BucketFs.frame_update (c : BucketFs) (u : BucketUpdate) : (c.update u).frame = c.frame := by
  rcases u with ⟨p, a⟩ | ⟨x, set | set⟩ | ⟨p, set | set⟩ <;> rfl

/-- States that agree in all trees and in the rest differ in the journal only. -/
theorem BucketFs.eq_of_sameTree {c d : BucketFs} (hframe : c.frame = d.frame)
    (htree : ∀ tree, SameTree c d tree) : c = { d with journaled := c.journaled } := by
  obtain ⟨members, alloc, freespace, needDiscard, backpointers, openBuckets, rwDevs, seq, js⟩ := c
  have halloc : alloc = d.alloc := htree .alloc
  have hfreespace : freespace = d.freespace := htree .freespace
  have hneedDiscard : needDiscard = d.needDiscard := htree .needDiscard
  simp only [BucketFs.frame, BucketFs.mk.injEq, true_and, and_true] at hframe
  obtain ⟨rfl, rfl, rfl, rfl, rfl⟩ := hframe
  rw [halloc, hfreespace, hneedDiscard]

/-- `w` is what the updates make of `c`, each in a tree of its own. -/
structure Transaction (c w : BucketFs) (t : List BucketUpdate) : Prop where
  frame : w.frame = c.frame
  update : ∀ u ∈ t, SameTree (c.update u) w u.tree
  rest : ∀ tree, tree ∉ t.map BucketUpdate.tree → SameTree c w tree

/-- An update gives its tree the value behind the transaction, whether it has it already or not. -/
theorem Transaction.settles {c w d : BucketFs} {t : List BucketUpdate} (h : Transaction c w t)
    {u : BucketUpdate} (hu : u ∈ t) (hd : SameTree d c u.tree ∨ SameTree d w u.tree) :
    SameTree (d.update u) w u.tree := by
  have hw := h.update u hu
  rcases hd with hd | hd
  · exact hd.update.trans hw
  · have hagain := (hd.trans hw.symm).update
    rw [BucketFs.update_update] at hagain
    exact hagain.trans hw

/-- Some trees are as before the transaction, the others as after it. -/
structure Partly (c w d : BucketFs) : Prop where
  frame : d.frame = c.frame
  tree : ∀ tree, SameTree d c tree ∨ SameTree d w tree

namespace Partly

variable {c w d : BucketFs} {t : List BucketUpdate}

theorem refl (c w : BucketFs) : Partly c w c := ⟨rfl, fun tree => .inl (.refl c tree)⟩

theorem openBuckets (h : Partly c w d) : d.openBuckets = c.openBuckets := by
  have hframe := congrArg BucketFs.openBuckets h.frame
  exact hframe

/-- The journal does not matter. -/
theorem journal (h : Partly c w d) (js : List BucketUpdate) :
    Partly c w { d with journaled := js } := by
  refine ⟨h.frame, fun tree => ?_⟩
  have htree := h.tree tree
  cases tree <;> exact htree

theorem update (ht : Transaction c w t) (h : Partly c w d) {u : BucketUpdate} (hu : u ∈ t) :
    Partly c w (d.update u) := by
  refine ⟨(d.frame_update u).trans h.frame, fun tree => ?_⟩
  by_cases htree : tree = u.tree
  · subst htree
    exact .inr (ht.settles hu (h.tree u.tree))
  · exact (h.tree tree).imp (d.sameTree_update htree).trans (d.sameTree_update htree).trans

/-- A tree that is as after the transaction stays so. -/
theorem sameTree_update (ht : Transaction c w t) {u : BucketUpdate} (hu : u ∈ t)
    {tree : BucketTree} (h : SameTree d w tree) : SameTree (d.update u) w tree := by
  by_cases htree : tree = u.tree
  · subst htree
    exact ht.settles hu (.inr h)
  · exact (d.sameTree_update htree).trans h

/-- An update that would change nothing is made. -/
theorem of_noop (ht : Transaction c w t) (h : Partly c w d) {u : BucketUpdate} (hu : u ∈ t)
    {whiteout : BucketTree → Bool} (hnoop : u.noop d whiteout = true) : SameTree d w u.tree := by
  have hsettled := ht.settles hu (h.tree u.tree)
  rwa [BucketUpdate.update_eq_of_noop hnoop] at hsettled

end Partly

/-! ### What an attempt can do -/

section Attempt

variable {c w d : BucketFs} {t : List BucketUpdate} (env : CommitEnv)

/-- The insertions of updates of a transaction: the trees that were as after it stay so, and if no
leaf is full the trees of the updates become so. -/
theorem CommitEnv.insertAll_partly (ht : Transaction c w t) {us : List BucketUpdate}
    (hus : ∀ u ∈ us, u ∈ t) (h : Partly c w d) :
    Partly c w (env.insertAll d us).1 ∧
      (∀ tree, SameTree d w tree → SameTree (env.insertAll d us).1 w tree) := by
  induction us generalizing d with
  | nil => exact ⟨h, fun _ hsame => hsame⟩
  | cons u us ih =>
    rw [CommitEnv.insertAll]
    split_ifs with hfull
    · exact ⟨h, fun _ hsame => hsame⟩
    · have hu := hus u List.mem_cons_self
      obtain ⟨hpartly, hkeep⟩ := ih (fun v hv => hus v (List.mem_cons_of_mem _ hv)) (h.update ht hu)
      exact ⟨hpartly, fun tree hsame => hkeep tree (Partly.sameTree_update ht hu hsame)⟩

theorem CommitEnv.insertAll_settled (ht : Transaction c w t) {us : List BucketUpdate}
    (hus : ∀ u ∈ us, u ∈ t) (h : Partly c w d)
    (hroom : ∀ u ∈ us, (env.insert u.tree).full u.u64s = false) :
    (env.insertAll d us).2 = 0 ∧ ∀ u ∈ us, SameTree (env.insertAll d us).1 w u.tree := by
  induction us generalizing d with
  | nil => exact ⟨rfl, fun u hu => absurd hu List.not_mem_nil⟩
  | cons u us ih =>
    have hu := hus u List.mem_cons_self
    have hus' : ∀ v ∈ us, v ∈ t := fun v hv => hus v (List.mem_cons_of_mem _ hv)
    have hpartly := h.update ht hu
    obtain ⟨hret, hsettled⟩ := ih hus' hpartly fun v hv => hroom v (List.mem_cons_of_mem _ hv)
    rw [CommitEnv.insertAll, hroom u List.mem_cons_self]
    refine ⟨hret, fun v hv => ?_⟩
    rcases List.mem_cons.mp hv with rfl | hv
    · exact (env.insertAll_partly ht hus' hpartly).2 _ (ht.settles hu (h.tree v.tree))
    · exact hsettled v hv

/-- An attempt that stops at an insertion does not return zero, and if nothing fails the engine
repeats it. -/
theorem CommitEnv.insertAll_full {us : List BucketUpdate}
    (hfull : ∃ u ∈ us, (env.insert u.tree).full u.u64s = true) :
    ∃ tree, (env.insertAll d us).2 = env.afterSplit tree := by
  induction us generalizing d with
  | nil =>
    obtain ⟨u, hu, -⟩ := hfull
    cases hu
  | cons u us ih =>
    rw [CommitEnv.insertAll]
    split_ifs with hu
    · exact ⟨u.tree, rfl⟩
    · obtain ⟨v, hv, hvfull⟩ := hfull
      rcases List.mem_cons.mp hv with rfl | hv
      · exact absurd hvfull hu
      · exact ih ⟨v, hv, hvfull⟩

/-- What an attempt can do. -/
inductive AttemptCase (c w d : BucketFs) (t : List BucketUpdate) : BucketFs × ℤ → Prop
  | refused {ret : ℤ} (hret : env.refuses d t = ret) (hne : ret ≠ 0) : AttemptCase c w d t (d, ret)
  | broken {d' : BucketFs} {tree : BucketTree} (hbreak : env.breaksOff d t)
      (hpartly : Partly c w d') : AttemptCase c w d t (d', env.afterSplit tree)
  | whole {d' : BucketFs} (hframe : d'.frame = c.frame) (htree : ∀ tree, SameTree d' w tree) :
      AttemptCase c w d t (d', 0)

theorem CommitEnv.transCommit_cases (ht : Transaction c w t) (h : Partly c w d) :
    AttemptCase env c w d t (env.transCommit d t) := by
  rw [CommitEnv.transCommit]
  split_ifs with hrefuses
  · exact .refused rfl hrefuses
  · rw [not_not] at hrefuses
    have hsub : ∀ u ∈ env.pending d t, u ∈ t := fun u hu => (List.mem_filter.mp hu).1
    have hjournal := h.journal (d.journaled ++ env.pending d t)
    obtain ⟨hpartly, hkeep⟩ := env.insertAll_partly ht hsub hjournal
    by_cases hfull : ∃ u ∈ env.pending d t, (env.insert u.tree).full u.u64s = true
    · obtain ⟨tree, hret⟩ := env.insertAll_full hfull
      rw [← Prod.mk.eta (p := env.insertAll _ _), hret]
      exact .broken ⟨hrefuses, hfull⟩ hpartly
    · simp only [not_exists, not_and] at hfull
      obtain ⟨hret, hsettled⟩ := env.insertAll_settled ht hsub hjournal fun u hu =>
        Bool.eq_false_iff.mpr (hfull u hu)
      rw [← Prod.mk.eta (p := env.insertAll _ _), hret]
      refine .whole hpartly.frame fun tree => ?_
      -- a tree of the transaction has its update inserted or dropped
      by_cases htree : tree ∈ t.map BucketUpdate.tree
      · obtain ⟨u, hu, rfl⟩ := List.mem_map.mp htree
        by_cases hnoop : u.noop d env.whiteout = true
        · have hsame := Partly.of_noop ht h hu hnoop
          exact hkeep _ (by cases hu' : u.tree <;> rw [hu'] at hsame <;> exact hsame)
        · refine hsettled u (List.mem_filter.mpr ⟨hu, ?_⟩)
          rw [Bool.eq_false_iff.mpr hnoop]
          rfl
      · exact (hpartly.tree tree).elim (fun hc => hc.trans (ht.rest tree htree)) id

end Attempt

/-! ### Attempts in which nothing fails -/

namespace CommitEnv.Benign

variable {env : CommitEnv} (h : env.Benign)

include h

theorem restarts_afterSplit (tree : BucketTree) : env.restarts (env.afterSplit tree) = true := by
  rw [CommitEnv.afterSplit]
  split_ifs with hsplit
  · exact (h.split tree).resolve_left hsplit
  · rfl

theorem checkRoom (c : BucketFs) (us : List BucketUpdate) :
    env.BenignValue (env.checkRoom c us) := by
  induction us with
  | nil => exact .inl rfl
  | cons u us ih =>
    rw [CommitEnv.checkRoom]
    split_ifs
    · exact .inr (h.restarts_afterSplit u.tree)
    · exact h.merge u.tree
    · exact ih

theorem refuses (c : BucketFs) (t : List BucketUpdate) : env.BenignValue (env.refuses c t) := by
  rw [CommitEnv.refuses]
  split_ifs
  · exact h.stage
  · exact h.start
  · exact .inl rfl
  · exact h.triggers
  · exact h.checkRoom c _
  · exact h.prepare

end CommitEnv.Benign

/-! ### The loop -/

section Loop

variable {c w : BucketFs} {t : List BucketUpdate}

/-- Whatever fails, a transaction leaves each tree as before it or as after it. -/
theorem commitLoop_partly (ht : Transaction c w t) {envs : List CommitEnv} {d d' : BucketFs} {ret : ℤ}
    (h : Partly c w d) (hloop : commitLoop envs d t = some (ret, d')) : Partly c w d' := by
  induction envs generalizing d with
  | nil => cases hloop
  | cons env envs ih =>
    have hstep : Partly c w (env.transCommit d t).1 := by
      have hcase := env.transCommit_cases ht h
      revert hcase
      generalize env.transCommit d t = out
      rintro (⟨-, -⟩ | ⟨-, hpartly⟩ | ⟨hframe, htree⟩)
      · exact h
      · exact hpartly
      · exact ⟨hframe, fun tree => .inr (htree tree)⟩
    rw [commitLoop] at hloop
    split_ifs at hloop
    · exact ih hstep hloop
    · cases hloop
      exact hstep

/-- If nothing fails, a transaction that was made in part is made as a whole. -/
theorem commitLoop_benign (ht : Transaction c w t) {envs : List CommitEnv} {d d' : BucketFs}
    {ret : ℤ} (h : Partly c w d) (henvs : ∀ env ∈ envs, env.Benign)
    (hloop : commitLoop envs d t = some (ret, d')) :
    ret = 0 ∧ d'.frame = c.frame ∧ ∀ tree, SameTree d' w tree := by
  induction envs generalizing d with
  | nil => cases hloop
  | cons env envs ih =>
    have henv := henvs env List.mem_cons_self
    have hrest : ∀ e ∈ envs, e.Benign := fun e he => henvs e (List.mem_cons_of_mem _ he)
    have hcase := env.transCommit_cases ht h
    rw [commitLoop] at hloop
    revert hloop hcase
    generalize env.transCommit d t = out
    rintro hloop (⟨hret, hne⟩ | ⟨hbreak, hpartly⟩ | ⟨hframe, htree⟩)
    · have hrestart := (henv.refuses d t).resolve_left (hret ▸ hne)
      rw [hret] at hrestart
      rw [hrestart] at hloop
      exact ih h hrest hloop
    · rw [henv.restarts_afterSplit] at hloop
      exact ih hpartly hrest hloop
    · cases hloop
      exact ⟨rfl, hframe, htree⟩

/-- A transaction whose attempts do not fail behind a broken one is made as a whole or not at
all. -/
theorem commitLoop_cases (ht : Transaction c w t) {envs : List CommitEnv} {d' : BucketFs} {ret : ℤ}
    (hwhole : CommitsWhole envs c t) (hloop : commitLoop envs c t = some (ret, d')) :
    (ret ≠ 0 ∧ d' = c) ∨ (ret = 0 ∧ d' = { w with journaled := d'.journaled }) := by
  induction envs with
  | nil => cases hloop
  | cons env envs ih =>
    obtain ⟨hbenign, hrest⟩ := hwhole
    have hcase := env.transCommit_cases ht (Partly.refl c w)
    rw [commitLoop] at hloop
    revert hloop hrest hcase
    generalize env.transCommit c t = out
    rintro hloop hrest (⟨-, hne⟩ | ⟨hbreak, hpartly⟩ | ⟨hframe, htree⟩)
    · split_ifs at hloop with hrestart
      · exact ih hrest hloop
      · cases hloop
        exact .inl ⟨hne, rfl⟩
    · have henvs := hbenign hbreak
      rw [(henvs env List.mem_cons_self).restarts_afterSplit] at hloop
      obtain ⟨hret, hframe, htree⟩ := commitLoop_benign ht hpartly
        (fun e he => henvs e (List.mem_cons_of_mem _ he)) hloop
      exact .inr ⟨hret, BucketFs.eq_of_sameTree (hframe.trans ht.frame.symm) htree⟩
    · cases hloop
      exact .inr ⟨rfl, BucketFs.eq_of_sameTree (hframe.trans ht.frame.symm) htree⟩

end Loop

end Subvol

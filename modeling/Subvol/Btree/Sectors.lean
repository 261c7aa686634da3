import Mathlib.Data.Set.Lattice
import Mathlib.Order.CompletePartialOrder
import Mathlib.Order.Interval.Set.Basic
import Subvol.Btree.Alloc
import Subvol.Lib.Lists

/-!
# The sectors of the nodes in use

Along every run of allocations, splits, growth, writes and frees, the sectors of the nodes in use
and of the sectors given back are disjoint, and each of them lies in one bucket: the part of an
open bucket behind its `sectors_free` holds everything that was cut off it, and a bucket is taken
only while no node lies in it.

A write is bounded by the buffer of its node, and the sectors of a node have the size of the
superblock. The two agree as long as no leaf is grown.

## Main definitions

* `AllocInv`, `Placed`, `StoreInv`: the invariant of the allocator and of the store.
* `SectorsSafe`: disjoint sectors, each in one bucket, and writes inside them.

## Main results

* `step_inv`, `runStore_inv`: the invariant along a step and along a run.
* `node_sectors_safe`: the sectors of the nodes in a run that grows no leaf.
-/

namespace Subvol

open Lib

/-! ### The invariant of the allocator -/

/-- What is checked of a superblock: a node fits into a bucket. -/
structure Member.Valid (m : Member) : Prop where
  node_pos : 0 < m.nodeSize
  node_le : m.nodeSize ≤ m.bucketSize

/-- The sectors of the device have numbers that fit the pointer of a node. -/
def Member.Addressable (m : Member) : Prop := m.nbuckets * m.bucketSize ≤ 2 ^ 44

/-- A bucket that the allocator does not take. -/
def Allocator.Taken (a : Allocator) (bucket : ℕ) : Prop :=
  ∀ v, a.alloc bucket = some v → v.dataType ≠ bchDataFree

/-- The open buckets are taken, different, and no larger than a bucket. -/
structure AllocInv (m : Member) (a : Allocator) : Prop where
  lt_nbuckets : ∀ i, (a.openBuckets i).valid = true → (a.openBuckets i).bucket < m.nbuckets
  free_le : ∀ i, (a.openBuckets i).valid = true → (a.openBuckets i).sectorsFree ≤ m.bucketSize
  taken : ∀ i, (a.openBuckets i).valid = true → a.Taken (a.openBuckets i).bucket
  inj : ∀ i j, (a.openBuckets i).valid = true → (a.openBuckets j).valid = true →
    (a.openBuckets i).bucket = (a.openBuckets j).bucket → i = j

/-- The sectors of a node from `x` on lie in one bucket that is taken, and in front of the free
part when that bucket is open. -/
structure PlacedIn (m : Member) (a : Allocator) (x bucket : ℕ) : Prop where
  lt_nbuckets : bucket < m.nbuckets
  ge : bucket * m.bucketSize ≤ x
  le : x + m.nodeSize ≤ bucket * m.bucketSize + m.bucketSize
  taken : a.Taken bucket
  used : ∀ i, (a.openBuckets i).valid = true → (a.openBuckets i).bucket = bucket →
    x + m.nodeSize ≤ bucket * m.bucketSize + (m.bucketSize - (a.openBuckets i).sectorsFree)

/-- The sectors of a node from `x` on lie in one bucket. -/
def Placed (m : Member) (a : Allocator) (x : ℕ) : Prop := ∃ bucket, PlacedIn m a x bucket

/-- Two nodes with `n` sectors each do not overlap. -/
def Apart (n x y : ℕ) : Prop := x + n ≤ y ∨ y + n ≤ x

theorem Apart.symm {n x y : ℕ} (h : Apart n x y) : Apart n y x := Or.symm h

/-- No bucket is opened and none is given back. -/
structure Narrower (a a' : Allocator) : Prop where
  valid : ∀ i, (a'.openBuckets i).valid = true → (a.openBuckets i).valid = true
  bucket : ∀ i, (a'.openBuckets i).valid = true →
    (a'.openBuckets i).bucket = (a.openBuckets i).bucket
  free : ∀ i, (a'.openBuckets i).valid = true →
    (a'.openBuckets i).sectorsFree ≤ (a.openBuckets i).sectorsFree
  taken : ∀ bucket, a.Taken bucket → a'.Taken bucket

section Allocator

variable {m : Member} {a a' : Allocator}

/-- Open buckets that are closed or stay as they are. -/
theorem Narrower.of_same
    (hsame : ∀ i, (a'.openBuckets i).valid = true → a'.openBuckets i = a.openBuckets i)
    (htaken : ∀ bucket, a.Taken bucket → a'.Taken bucket) : Narrower a a' where
  valid i hi := hsame i hi ▸ hi
  bucket i hi := by rw [hsame i hi]
  free i hi := by rw [hsame i hi]
  taken := htaken

theorem AllocInv.narrower (h : AllocInv m a) (hn : Narrower a a') : AllocInv m a' := by
  refine ⟨fun i hi => ?_, fun i hi => ?_, fun i hi => ?_, fun i j hi hj hij => ?_⟩
  · rw [hn.bucket i hi]
    exact h.lt_nbuckets i (hn.valid i hi)
  · exact (hn.free i hi).trans (h.free_le i (hn.valid i hi))
  · rw [hn.bucket i hi]
    exact hn.taken _ (h.taken i (hn.valid i hi))
  · rw [hn.bucket i hi, hn.bucket j hj] at hij
    exact h.inj i j (hn.valid i hi) (hn.valid j hj) hij

theorem PlacedIn.narrower {x bucket : ℕ} (h : PlacedIn m a x bucket) (hn : Narrower a a') :
    PlacedIn m a' x bucket := by
  refine ⟨h.lt_nbuckets, h.ge, h.le, hn.taken _ h.taken, fun i hi hb => ?_⟩
  rw [hn.bucket i hi] at hb
  have hused := h.used i (hn.valid i hi) hb
  have hfree := hn.free i hi
  omega

theorem Placed.narrower {x : ℕ} (h : Placed m a x) (hn : Narrower a a') : Placed m a' x := by
  obtain ⟨bucket, hx⟩ := h
  exact ⟨bucket, hx.narrower hn⟩

theorem narrower_close (a : Allocator) : Narrower a (closeWritePoint a) := by
  refine .of_same (fun i hi => ?_) fun bucket h => h
  by_cases hheld : a.wp.held = true
  · by_cases heq : i = a.wp.slot
    · simp [closeWritePoint, hheld, heq] at hi
    · simp [closeWritePoint, hheld, heq]
  · simp [closeWritePoint, hheld]

theorem taken_mark_self (a : Allocator) (bucket : ℕ) : (a.mark bucket).Taken bucket := by
  intro v hv
  obtain ⟨w, -, rfl⟩ : ∃ w, a.alloc bucket = some w ∧ { w with dataType := bchDataBtree } = v := by
    simpa [Allocator.mark] using hv
  show bchDataBtree ≠ bchDataFree
  decide

theorem narrower_mark (a : Allocator) (bucket : ℕ) : Narrower a (a.mark bucket) := by
  refine .of_same (fun i hi => rfl) fun b h => ?_
  by_cases hb : b = bucket
  · subst hb
    exact taken_mark_self a b
  · intro v hv
    exact h v (by simpa [Allocator.mark, hb] using hv)

/-- `bch2_bucket_alloc_freelist` leaves everything as it was, or marks a bucket that was free. -/
theorem bch2BucketAllocFreelist_spec {commits : Bool} {res : Except ℤ (ℕ × ℕ)}
    (h : bch2BucketAllocFreelist m commits a = (res, a')) :
    ((∃ ret, res = .error ret) ∧ a' = a) ∨
      ∃ bucket gen, res = .ok (bucket, gen) ∧ a' = a.mark bucket ∧ bucket < m.nbuckets ∧
        ¬a.Taken bucket := by
  rw [bch2BucketAllocFreelist] at h
  by_cases hoff : ¬m.devIdx < m.nrDevices ∨ m.online = false
  · rw [if_pos hoff] at h
    cases h
    exact .inl ⟨⟨_, rfl⟩, rfl⟩
  by_cases hdead : m.bucketSize = 0 ∨ m.alive = false
  · rw [if_neg hoff, if_pos hdead] at h
    cases h
    exact .inl ⟨⟨_, rfl⟩, rfl⟩
  rw [if_neg hoff, if_neg hdead] at h
  split at h
  case h_2 =>
    cases h
    exact .inl ⟨⟨_, rfl⟩, rfl⟩
  case h_1 bucket hfind =>
    by_cases hcommits : commits = true
    · rw [if_pos hcommits] at h
      cases h
      refine .inr ⟨bucket, _, rfl, rfl, ?_, fun htaken => ?_⟩
      · have hmem := List.mem_of_find?_eq_some hfind
        rw [List.mem_range'_1] at hmem
        omega
      · have htakes : a.takes bucket = true := List.find?_some hfind
        rw [Allocator.takes] at htakes
        split at htakes
        case h_1 v hv =>
          refine htaken v hv ?_
          simpa using (Bool.and_eq_true_iff.mp htakes).2
        case h_2 => cases htakes
    · rw [if_neg hcommits] at h
      cases h
      exact .inl ⟨⟨_, rfl⟩, rfl⟩

/-- What opening a bucket that was free leaves. -/
theorem openBucket_spec {bucket gen : ℕ} (h : AllocInv m a) (hlt : bucket < m.nbuckets)
    (htaken : a.Taken bucket)
    (hfresh : ∀ i, (a.openBuckets i).valid = true → (a.openBuckets i).bucket ≠ bucket)
    (ho : openBucket m bucket gen a = some a') :
    AllocInv m a' ∧ ∀ x b, b ≠ bucket → PlacedIn m a x b → PlacedIn m a' x b := by
  obtain ⟨j, hj, rfl⟩ := Option.map_eq_some_iff.mp ho
  have hother : ∀ i, i ≠ j → Function.update a.openBuckets j
      ⟨true, m.devIdx, gen, bucket, m.bucketSize⟩ i = a.openBuckets i :=
    fun i hi => Function.update_of_ne hi _ _
  have hself : Function.update a.openBuckets j ⟨true, m.devIdx, gen, bucket, m.bucketSize⟩ j =
      ⟨true, m.devIdx, gen, bucket, m.bucketSize⟩ := Function.update_self _ _ _
  refine ⟨⟨fun i hi => ?_, fun i hi => ?_, fun i hi => ?_, fun i k hi hk hik => ?_⟩,
    fun x b hb hx => ⟨hx.lt_nbuckets, hx.ge, hx.le, hx.taken, fun i hi hib => ?_⟩⟩
  all_goals dsimp only at hi ⊢
  · by_cases hij : i = j
    · subst hij
      rw [hself]
      exact hlt
    · rw [hother i hij] at hi ⊢
      exact h.lt_nbuckets i hi
  · by_cases hij : i = j
    · subst hij
      rw [hself]
    · rw [hother i hij] at hi ⊢
      exact h.free_le i hi
  · by_cases hij : i = j
    · subst hij
      rw [hself]
      exact htaken
    · rw [hother i hij] at hi ⊢
      exact h.taken i hi
  · by_cases hij : i = j
    · by_cases hkj : k = j
      · rw [hij, hkj]
      · dsimp only at hk hik
        rw [hij, hself, hother k hkj] at hik
        rw [hother k hkj] at hk
        exact absurd hik.symm (hfresh k hk)
    · dsimp only at hk hik
      rw [hother i hij] at hi hik
      by_cases hkj : k = j
      · rw [hkj, hself] at hik
        exact absurd hik (hfresh i hi)
      · rw [hother k hkj] at hk hik
        exact h.inj i k hi hk hik
  · dsimp only at hib
    by_cases hij : i = j
    · subst hij
      rw [hself] at hib
      exact absurd hib.symm hb
    · rw [hother i hij] at hi hib ⊢
      exact hx.used i hi hib

/-- Taking a bucket leaves every placed node where it is. -/
theorem newBucket_spec {commits : Bool} {res : Except ℤ Unit} (h : AllocInv m a)
    (hn : newBucket m commits a = (res, a')) :
    AllocInv m a' ∧ ∀ x, Placed m a x → Placed m a' x := by
  rw [newBucket] at hn
  split at hn
  case h_1 ret a₁ hf =>
    cases hn
    rcases bch2BucketAllocFreelist_spec hf with ⟨-, rfl⟩ | ⟨_, _, hres, _⟩
    · exact ⟨h, fun x hx => hx⟩
    · cases hres
  case h_2 bucket gen a₁ hf =>
    rcases bch2BucketAllocFreelist_spec hf with ⟨⟨_, hres⟩, _⟩ | ⟨b, g, hres, rfl, hlt, hfree⟩
    · cases hres
    · cases hres
      have hmark := narrower_mark a bucket
      have hinv := h.narrower hmark
      split at hn
      case h_1 =>
        cases hn
        exact ⟨hinv, fun x hx => hx.narrower hmark⟩
      case h_2 a₂ ho =>
        cases hn
        have hfresh : ∀ i, ((a.mark bucket).openBuckets i).valid = true →
            ((a.mark bucket).openBuckets i).bucket ≠ bucket :=
          fun i hi heq => hfree (heq ▸ h.taken i hi)
        obtain ⟨hinv', hplaced⟩ := openBucket_spec hinv hlt (taken_mark_self a bucket) hfresh ho
        refine ⟨hinv', fun x ⟨b, hx⟩ => ⟨b, hplaced x b ?_ (hx.narrower hmark)⟩⟩
        rintro rfl
        exact hfree hx.taken

/-- Two nodes in different buckets do not overlap. -/
theorem PlacedIn.apart {x y b b' : ℕ} (h : PlacedIn m a x b) (h' : PlacedIn m a y b')
    (hne : b ≠ b') : Apart m.nodeSize x y := by
  rcases Nat.lt_or_gt_of_ne hne with hlt | hlt
  · have hmul : (b + 1) * m.bucketSize ≤ b' * m.bucketSize := Nat.mul_le_mul_right _ hlt
    rw [Nat.add_one_mul] at hmul
    exact .inl (h.le.trans (hmul.trans h'.ge))
  · have hmul : (b' + 1) * m.bucketSize ≤ b * m.bucketSize := Nat.mul_le_mul_right _ hlt
    rw [Nat.add_one_mul] at hmul
    exact .inr (h'.le.trans (hmul.trans h.ge))

/-- The allocator behind sectors cut off. -/
theorem carve_eq {ptr : ExtentPtr} {sectors : ℕ} (hc : carve m sectors a = (.ok ptr, a')) :
    (a.openBuckets a.wp.slot).valid = true ∧
      sectors ≤ (a.openBuckets a.wp.slot).sectorsFree ∧
      ptr.offset = ((a.openBuckets a.wp.slot).bucket * m.bucketSize +
        (m.bucketSize - (a.openBuckets a.wp.slot).sectorsFree)) % 2 ^ 44 ∧
      a'.alloc = a.alloc ∧
      a'.openBuckets = Function.update a.openBuckets a.wp.slot
        { a.openBuckets a.wp.slot with
          sectorsFree := (a.openBuckets a.wp.slot).sectorsFree - sectors } := by
  rw [carve] at hc
  dsimp only at hc
  by_cases hfail : (a.openBuckets a.wp.slot).valid = false ∨
      (a.openBuckets a.wp.slot).sectorsFree < sectors
  · rw [if_pos hfail] at hc
    cases hc
  · rw [if_neg hfail] at hc
    cases hc
    rw [not_or, Bool.not_eq_false, not_lt] at hfail
    exact ⟨hfail.1, hfail.2, rfl, rfl, rfl⟩

theorem carve_narrower {ptr : ExtentPtr} {sectors : ℕ}
    (hc : carve m sectors a = (.ok ptr, a')) : Narrower a a' := by
  obtain ⟨hvalid, -, -, halloc, hopen⟩ := carve_eq hc
  have hother : ∀ i, i ≠ a.wp.slot → a'.openBuckets i = a.openBuckets i := by
    intro i hi
    rw [hopen, Function.update_of_ne hi]
  have hself : a'.openBuckets a.wp.slot = { a.openBuckets a.wp.slot with
      sectorsFree := (a.openBuckets a.wp.slot).sectorsFree - sectors } := by
    rw [hopen, Function.update_self]
  refine ⟨fun i hi => ?_, fun i hi => ?_, fun i hi => ?_, fun b hb => ?_⟩
  · by_cases his : i = a.wp.slot
    · rw [his]
      exact hvalid
    · exact hother i his ▸ hi
  · by_cases his : i = a.wp.slot
    · rw [his, hself]
    · rw [hother i his]
  · by_cases his : i = a.wp.slot
    · rw [his, hself]
      exact Nat.sub_le _ _
    · rw [hother i his]
  · rw [Allocator.Taken, halloc]
    exact hb

/-- The sectors cut off an open bucket lie in it, behind everything cut off it before. -/
theorem carve_spec {ptr : ExtentPtr} (hm : m.Valid) (hdev : m.Addressable) (h : AllocInv m a)
    (hc : carve m m.nodeSize a = (.ok ptr, a')) :
    Placed m a' ptr.offset ∧ ∀ x, Placed m a x → Apart m.nodeSize ptr.offset x := by
  obtain ⟨hvalid, hfree, hoffset, halloc, hopen⟩ := carve_eq hc
  have hlt := h.lt_nbuckets _ hvalid
  have hle := h.free_le _ hvalid
  have htaken := h.taken _ hvalid
  have hinj := h.inj a.wp.slot
  obtain ⟨ob, hob⟩ : ∃ ob, a.openBuckets a.wp.slot = ob := ⟨_, rfl⟩
  rw [hob] at hvalid hfree hoffset hopen hlt hle htaken hinj
  -- the end of the bucket has a number that fits the pointer
  have hend : ob.bucket * m.bucketSize + m.bucketSize ≤ 2 ^ 44 :=
    calc ob.bucket * m.bucketSize + m.bucketSize =
        (ob.bucket + 1) * m.bucketSize := (Nat.add_one_mul _ _).symm
      _ ≤ m.nbuckets * m.bucketSize := Nat.mul_le_mul_right _ hlt
      _ ≤ 2 ^ 44 := hdev
  have hpos := hm.node_pos
  have hx : ptr.offset = ob.bucket * m.bucketSize + (m.bucketSize - ob.sectorsFree) := by
    rw [hoffset]
    exact Nat.mod_eq_of_lt (by omega)
  have hnarrow := carve_narrower hc
  have hself : PlacedIn m a' ptr.offset ob.bucket := by
    refine ⟨hlt, by omega, by omega, ?_, fun i hi hb => ?_⟩
    · rw [Allocator.Taken, halloc]
      exact htaken
    · -- the bucket is open in one entry only, the one that was cut
      have hslot : a.wp.slot = i :=
        hinj i hvalid (hnarrow.valid i hi) (by rw [← hnarrow.bucket i hi, hb])
      rw [hopen, ← hslot, Function.update_self]
      dsimp only
      omega
  refine ⟨⟨ob.bucket, hself⟩, ?_⟩
  rintro x ⟨bucket, hplaced⟩
  by_cases hb : bucket = ob.bucket
  · have hused := hplaced.used a.wp.slot (hob ▸ hvalid) (by rw [hob, hb])
    rw [hob, hb] at hused
    exact .inr (by omega)
  · exact hself.apart (hplaced.narrower hnarrow) (Ne.symm hb)

end Allocator

/-! ### The invariant of the store -/

/-- The first sector of a node in use. -/
def StoreNode.sector (n : StoreNode) : Option ℕ :=
  if n.live then n.ptr.map ExtentPtr.offset else none

/-- The first sectors of all nodes in use and of all sectors given back. -/
def NodeStore.held (s : NodeStore) : List ℕ :=
  s.nodes.filterMap StoreNode.sector ++ s.reserve.map ExtentPtr.offset

/-- The sectors held are placed and do not overlap. -/
structure StoreInv (m : Member) (s : NodeStore) : Prop where
  alloc : AllocInv m s.allocator
  placed : ∀ x ∈ s.held, Placed m s.allocator x
  apart : s.held.Pairwise (Apart m.nodeSize)

section Store

variable {m : Member} {dev : NodeIo} {s s' : NodeStore}

/-- The sectors held are among those held before. -/
theorem StoreInv.of_subperm (h : StoreInv m s) (halloc : s'.allocator = s.allocator)
    (hheld : s'.held.Subperm s.held) : StoreInv m s' where
  alloc := halloc ▸ h.alloc
  placed x hx := halloc ▸ h.placed x (hheld.subset hx)
  apart := pairwise_subperm h.apart hheld Apart.symm

/-- One more node, with sectors that overlap none of those held. -/
theorem StoreInv.of_cons {x : ℕ} (h : StoreInv m s) (hx : Placed m s.allocator x)
    (hapart : ∀ y ∈ s.held, Apart m.nodeSize x y) (halloc : s'.allocator = s.allocator)
    (hheld : s'.held.Perm (x :: s.held)) : StoreInv m s' where
  alloc := halloc ▸ h.alloc
  placed y hy := by
    rw [halloc]
    rcases List.mem_cons.mp (hheld.mem_iff.mp hy) with rfl | hy
    · exact hx
    · exact h.placed y hy
  apart := (List.pairwise_cons.mpr ⟨hapart, h.apart⟩).perm hheld.symm Apart.symm

theorem liveNode_eq_some {i : ℕ} {n : StoreNode} :
    s.liveNode i = some n ↔ s.nodes[i]? = some n ∧ n.live = true := by
  rw [NodeStore.liveNode, Option.filter_eq_some_iff]

theorem freeableNode_eq_some {i : ℕ} {n : StoreNode} :
    s.freeableNode i = some n ↔ s.nodes[i]? = some n ∧ n.live = false := by
  rw [NodeStore.freeableNode, Option.filter_eq_some_iff, Bool.not_eq_true']

/-- What is held with one node replaced. -/
theorem held_set_perm {i : ℕ} {n : StoreNode} (hn : s.nodes[i]? = some n) (n' : StoreNode) :
    (({ s with nodes := s.nodes.set i n' } : NodeStore).held ++ n.sector.toList).Perm
      (n'.sector.toList ++ s.held) := by
  have hset := filterMap_set_perm StoreNode.sector hn n'
  show (((s.nodes.set i n').filterMap StoreNode.sector ++ s.reserve.map ExtentPtr.offset) ++
    n.sector.toList).Perm (n'.sector.toList ++ (s.nodes.filterMap StoreNode.sector ++
      s.reserve.map ExtentPtr.offset))
  rw [← List.append_assoc n'.sector.toList]
  refine List.Perm.trans ?_ (hset.append_right _)
  rw [List.append_assoc, List.append_assoc]
  exact List.perm_append_comm.append_left _

/-- A node that keeps its sectors. -/
theorem StoreInv.set_same (h : StoreInv m s) {i : ℕ} {n n' : StoreNode}
    (hn : s.nodes[i]? = some n) (hsector : n'.sector = n.sector) :
    StoreInv m { s with nodes := s.nodes.set i n' } := by
  have hperm := held_set_perm hn n'
  rw [hsector] at hperm
  have hperm' := (hperm.trans List.perm_append_comm)
  exact h.of_subperm rfl ((List.perm_append_right_iff _).mp hperm').subperm

/-- A node that gives its sectors up. -/
theorem StoreInv.set_none (h : StoreInv m s) {i : ℕ} {n n' : StoreNode}
    (hn : s.nodes[i]? = some n) (hsector : n'.sector = none) :
    StoreInv m { s with nodes := s.nodes.set i n' } := by
  have hperm := held_set_perm hn n'
  rw [hsector] at hperm
  exact h.of_subperm rfl ((List.sublist_append_left _ _).subperm.trans hperm.subperm)

/-- A node that gives its sectors back to the cache. -/
theorem StoreInv.reservePut (h : StoreInv m s) {i : ℕ} {n : StoreNode}
    (hn : s.nodes[i]? = some n) (hlive : n.live = true) :
    StoreInv m { s with
      reserve := bch2BtreeReserveCachePut n s.reserve
      nodes := s.nodes.set i { n with live := false } } := by
  have hnone : ({ n with live := false } : StoreNode).sector = none := rfl
  by_cases hkeep : bch2BtreeReserveCachePut n s.reserve = s.reserve
  · rw [hkeep]
    exact h.set_none hn hnone
  · obtain ⟨ptr, hptr, hput⟩ : ∃ ptr, n.ptr = some ptr ∧
        bch2BtreeReserveCachePut n s.reserve = ptr :: s.reserve := by
      rw [bch2BtreeReserveCachePut] at hkeep ⊢
      split at hkeep
      case h_1 => exact absurd rfl hkeep
      case h_2 ptr hptr =>
        refine ⟨ptr, hptr, ?_⟩
        by_cases hput : n.leaf.node.written = 0 ∧ s.reserve.length < reserveCacheMax
        · exact if_pos hput
        · exact absurd (if_neg hput) hkeep
    have hset := filterMap_set_perm StoreNode.sector hn { n with live := false }
    rw [hnone, show n.sector = some ptr.offset by simp [StoreNode.sector, hlive, hptr]] at hset
    refine h.of_subperm rfl (List.Perm.subperm ?_)
    rw [hput]
    show ((s.nodes.set i { n with live := false }).filterMap StoreNode.sector ++
      ptr.offset :: s.reserve.map ExtentPtr.offset).Perm s.held
    rw [← List.singleton_append, ← List.append_assoc]
    exact hset.append_right _

/-- What is held with a new node. -/
theorem held_place_perm {reused : Option ℕ} {n : StoreNode} {x : ℕ}
    (hreused : ∀ i ∈ reused, (s.freeableNode i).isSome = true) (hn : n.sector = some x) :
    (s.place reused n).held.Perm (x :: s.held) := by
  cases reused with
  | none =>
    show ((s.nodes ++ [n]).filterMap StoreNode.sector ++ s.reserve.map ExtentPtr.offset).Perm
      (x :: (s.nodes.filterMap StoreNode.sector ++ s.reserve.map ExtentPtr.offset))
    rw [List.filterMap_append, ← List.cons_append]
    refine List.Perm.append_right _ ?_
    simp [hn]
  | some i =>
    obtain ⟨old, hold⟩ := Option.isSome_iff_exists.mp (hreused i rfl)
    obtain ⟨hold, hdead⟩ := freeableNode_eq_some.mp hold
    have hperm := held_set_perm hold n
    rw [show old.sector = none by simp [StoreNode.sector, hdead], hn, Option.toList_none,
      List.append_nil] at hperm
    exact hperm

/-- What a new node asks for and leaves. -/
theorem addNode_spec {reused src : Option ℕ} {header : NodeHeader} {keys : List BkeyPacked}
    {ptr : ExtentPtr} (hadd : s.addNode m reused src header keys ptr = some s') :
    s'.allocator = s.allocator ∧ s'.held.Perm (ptr.offset :: s.held) := by
  rw [NodeStore.addNode] at hadd
  split_ifs at hadd with hok
  cases hadd
  refine ⟨?_, held_place_perm hok.1 rfl⟩
  cases reused <;> rfl

/-- The invariant along one operation of the store. -/
theorem StoreInv.step (hm : m.Valid) (hdev : m.Addressable) (h : StoreInv m s) {op : StoreOp}
    (hs : s.step m dev op = some s') : StoreInv m s' := by
  cases op with
  | closeWritePoint =>
    cases hs
    have hn := narrower_close s.allocator
    exact ⟨h.alloc.narrower hn, fun x hx => (h.placed x hx).narrower hn, h.apart⟩
  | newBucket commits =>
    cases hs
    obtain ⟨halloc, hplaced⟩ := newBucket_spec h.alloc (Prod.eta (newBucket m commits s.allocator)).symm
    exact ⟨halloc, fun x hx => hplaced x (h.placed x hx), h.apart⟩
  | allocNode reused src header keys =>
    rw [NodeStore.step] at hs
    split at hs
    case h_2 => cases hs
    case h_1 ptr a hc =>
      have hn := carve_narrower hc
      obtain ⟨hx, hapart⟩ := carve_spec hm hdev h.alloc hc
      obtain ⟨halloc, hheld⟩ := addNode_spec hs
      have hinv : StoreInv m { s with allocator := a } :=
        ⟨h.alloc.narrower hn, fun x hx => (h.placed x hx).narrower hn, h.apart⟩
      exact hinv.of_cons hx (fun y hy => hapart y (h.placed y hy)) halloc hheld
  | reuseSectors reused src header keys =>
    rw [NodeStore.step] at hs
    split at hs
    case h_2 => cases hs
    case h_1 ptr reserve hreserve =>
      obtain ⟨halloc, hheld⟩ := addNode_spec hs
      refine h.of_subperm halloc (hheld.trans ?_).subperm
      rw [NodeStore.held, NodeStore.held, hreserve]
      exact List.perm_middle.symm
  | reservePut i =>
    obtain ⟨n, hn, rfl⟩ := Option.map_eq_some_iff.mp hs
    obtain ⟨hn, hlive⟩ := liveNode_eq_some.mp hn
    exact h.reservePut hn hlive
  | node i op =>
    obtain ⟨n, hn, hs⟩ := Option.bind_eq_some_iff.mp hs
    obtain ⟨leaf, -, rfl⟩ := Option.map_eq_some_iff.mp hs
    exact h.set_same (liveNode_eq_some.mp hn).1 rfl
  | grow i =>
    obtain ⟨n, hn, hs⟩ := Option.bind_eq_some_iff.mp hs
    obtain ⟨b, -, rfl⟩ := Option.map_eq_some_iff.mp hs
    exact h.set_same (liveNode_eq_some.mp hn).1 rfl
  | retire i =>
    obtain ⟨n, hn, rfl⟩ := Option.map_eq_some_iff.mp hs
    exact h.set_none (liveNode_eq_some.mp hn).1 rfl

/-- The invariant along a run. -/
theorem runStore_inv (hm : m.Valid) (hdev : m.Addressable) (h : StoreInv m s)
    {ops : List StoreOp} (hrun : runStore m dev ops s = some s') : StoreInv m s' := by
  induction ops generalizing s with
  | nil =>
    cases hrun
    exact h
  | cons op ops ih =>
    obtain ⟨t, ht, hrun⟩ := Option.bind_eq_some_iff.mp hrun
    exact ih (h.step hm hdev ht) hrun

end Store

/-! ### The buffer of a node -/

section Buffer

variable {dev io : NodeIo} {b b' : BtreeNode} {disk disk' : NodeDisk}

theorem nodeSort_bufU64s {start stop : ℕ} (h : bch2BtreeNodeSort b start stop = some b') :
    b'.bufU64s = b.bufU64s := by
  rw [bch2BtreeNodeSort] at h
  dsimp only at h
  split at h
  · cases h
  · split_ifs at h
    all_goals
      cases h
      rfl

theorem compact_bufU64s (h : bch2BtreeNodeCompact b = some b') : b'.bufU64s = b.bufU64s := by
  obtain ⟨merged, hmerged, h⟩ := Option.bind_eq_some_iff.mp h
  have hfirst : merged.bufU64s = b.bufU64s := by
    rw [mergeUnwritten] at hmerged
    split_ifs at hmerged
    · exact nodeSort_bufU64s hmerged
    · cases hmerged
      rfl
  rw [← hfirst]
  split_ifs at h
  · exact nodeSort_bufU64s h
  · cases h
    rfl

theorem dropWhiteouts_bufU64s {mode : CompactMode} {r : BtreeNode × Bool}
    (h : bch2DropWhiteouts b mode = some r) : r.1.bufU64s = b.bufU64s := by
  obtain ⟨_, -, h⟩ := Option.bind_eq_some_iff.mp h
  cases h
  rfl

theorem openWantedBset_bufU64s {bs : ℕ} (h : openWantedBset bs b = some b') :
    b'.bufU64s = b.bufU64s := by
  rw [openWantedBset] at h
  split at h
  · rw [bch2BsetInitNext] at h
    split_ifs at h
    cases h
    rfl
  · cases h
    rfl

theorem postWriteCleanup_bufU64s {bs : ℕ} (h : bch2BtreePostWriteCleanup bs b = some b') :
    b'.bufU64s = b.bufU64s := by
  rw [bch2BtreePostWriteCleanup] at h
  split_ifs at h
  · cases h
    rfl
  · obtain ⟨merged, hmerged, h⟩ := Option.bind_eq_some_iff.mp h
    have hfirst : merged.bufU64s = b.bufU64s := by
      rw [mergeSets] at hmerged
      split_ifs at hmerged
      · rw [nodeSort_bufU64s hmerged]
      · obtain ⟨r, hr, rfl⟩ := Option.map_eq_some_iff.mp hmerged
        rw [dropWhiteouts_bufU64s hr]
    dsimp only at h
    split_ifs at h
    exact (openWantedBset_bufU64s h).trans hfirst

theorem nodeWrite_bufU64s {ret : ℤ} (h : bch2BtreeNodeWrite io b disk = some (ret, b', disk')) :
    b'.bufU64s = b.bufU64s := by
  cases bch2BtreeNodeWrite_outcome h with
  | early _ _ hb =>
    rcases hb with rfl | rfl
    · rfl
    · rfl
  | failed _ _ => rfl
  | nothing _ _ _ => rfl
  | done _ _ _ _ => rfl

theorem writeTrans_bufU64s {onlyIfNeed blocked : Bool} {r : ℤ × BtreeNode × NodeDisk}
    (h : bch2BtreeNodeWriteTrans io onlyIfNeed blocked b disk = some r) :
    r.2.1.bufU64s = b.bufU64s := by
  rw [bch2BtreeNodeWriteTrans] at h
  split_ifs at h
  · cases h
    rfl
  · obtain ⟨⟨ret, b₁, disk₁⟩, hw, h⟩ := Option.bind_eq_some_iff.mp h
    have hfirst : b₁.bufU64s = b.bufU64s := (nodeWrite_bufU64s hw).trans rfl
    dsimp only at h
    split_ifs at h
    · cases h
      exact hfirst
    · obtain ⟨b₂, hb₂, h⟩ := Option.bind_eq_some_iff.mp h
      cases h
      exact (postWriteCleanup_bufU64s hb₂).trans hfirst

theorem initNext_bufU64s {r : BtreeNode × NodeDisk} (h : bch2BtreeInitNext io b disk = some r) :
    r.1.bufU64s = b.bufU64s := by
  obtain ⟨⟨ret, b₁, disk₁⟩, hw, h⟩ := Option.bind_eq_some_iff.mp h
  have hfirst : b₁.bufU64s = b.bufU64s := by
    rw [writeLargeSets] at hw
    split_ifs at hw
    · exact writeTrans_bufU64s hw
    · cases hw
      rfl
  obtain ⟨b₂, hb₂, h⟩ := Option.bind_eq_some_iff.mp h
  have hsecond : b₂.bufU64s = b₁.bufU64s := by
    rw [compactFull] at hb₂
    split_ifs at hb₂
    · exact compact_bufU64s hb₂
    · cases hb₂
      rfl
  split_ifs at h
  obtain ⟨b₃, hb₃, h⟩ := Option.bind_eq_some_iff.mp h
  cases h
  exact (openWantedBset_bufU64s hb₃).trans (hsecond.trans hfirst)

theorem prepForWrite_bufU64s {r : BtreeNode × NodeDisk}
    (h : bch2BtreeNodePrepForWrite io b disk = some r) : r.1.bufU64s = b.bufU64s := by
  obtain ⟨b₁, hb₁, h⟩ := Option.bind_eq_some_iff.mp h
  rw [← postWriteCleanup_bufU64s hb₁]
  split at h
  · exact initNext_bufU64s h
  · cases h
    rfl

theorem pushNeeded_bufU64s {k : BkeyPacked} (h : pushNeededWhiteout b k = some b') :
    b'.bufU64s = b.bufU64s := by
  rw [pushNeededWhiteout] at h
  split_ifs at h
  · obtain ⟨n, -, h⟩ := Option.bind_eq_some_iff.mp h
    split_ifs at h
    cases h
    rfl
  · cases h
    rfl

theorem bsetInsertKey_bufU64s {k : Bkey} {needsWhiteout changed : Bool}
    (h : bch2BtreeBsetInsertKey b k needsWhiteout = some (changed, b')) :
    b'.bufU64s = b.bufU64s := by
  rw [bch2BtreeBsetInsertKey] at h
  split at h
  · dsimp only at h
    split at h
    · obtain ⟨b₁, hb₁, h⟩ := Option.bind_eq_some_iff.mp h
      cases h
      rw [← pushNeeded_bufU64s hb₁]
      rfl
    · obtain ⟨n, -, h⟩ := Option.bind_eq_some_iff.mp h
      split_ifs at h
      all_goals
        cases h
        rfl
  · split_ifs at h
    · cases h
      rfl
    · obtain ⟨n, -, h⟩ := Option.bind_eq_some_iff.mp h
      split_ifs at h
      cases h
      rfl

theorem insertKeyLeaf_bufU64s {k : Bkey} {needsWhiteout : Bool} {journalSeq : ℕ}
    (h : bch2BtreeInsertKeyLeaf b k needsWhiteout journalSeq = some b') :
    b'.bufU64s = b.bufU64s := by
  obtain ⟨⟨changed, b₁⟩, hins, h⟩ := Option.bind_eq_some_iff.mp h
  rw [← bsetInsertKey_bufU64s hins]
  dsimp only at h
  split_ifs at h
  · cases h
    rfl
  · obtain ⟨r, hr, rfl⟩ := Option.map_eq_some_iff.mp h
    rw [dropWhiteouts_bufU64s hr]
    rfl
  · cases h
    rfl

theorem nodeRead_bufU64s {replaySeq : ℕ} (h : bch2BtreeNodeRead io b disk replaySeq = .ok b') :
    b'.bufU64s = b.bufU64s := by
  obtain ⟨hdr, limit, st, -, rfl⟩ := nodeRead_eq_ok h
  rfl

/-- No operation on a node changes the size of its buffer. -/
theorem NodeOp.step_bufU64s {s s' : LeafState} {op : NodeOp} (h : op.step dev s = some s') :
    s'.node.bufU64s = s.node.bufU64s := by
  cases op with
  | insert k journalSeq =>
    obtain ⟨b, hb, rfl⟩ := Option.map_eq_some_iff.mp h
    exact insertKeyLeaf_bufU64s hb
  | dropWhiteouts mode =>
    obtain ⟨r, hr, rfl⟩ := Option.map_eq_some_iff.mp h
    exact dropWhiteouts_bufU64s hr
  | compact =>
    obtain ⟨b, hb, rfl⟩ := Option.map_eq_some_iff.mp h
    exact compact_bufU64s hb
  | initNext a =>
    obtain ⟨r, hr, rfl⟩ := Option.map_eq_some_iff.mp h
    exact initNext_bufU64s hr
  | prepForWrite a =>
    obtain ⟨r, hr, rfl⟩ := Option.map_eq_some_iff.mp h
    exact prepForWrite_bufU64s hr
  | write a onlyIfNeed blocked =>
    obtain ⟨r, hr, rfl⟩ := Option.map_eq_some_iff.mp h
    exact writeTrans_bufU64s hr
  | reload a =>
    rw [NodeOp.step] at h
    split at h
    · rename_i b hread
      cases h
      exact nodeRead_bufU64s hread
    · cases h

/-- A write is bounded by the buffer of its node. -/
theorem nodeWriteAttempt_le {set : DiskBset} (h : nodeWriteAttempt io b = some set) :
    set.offset + set.sectors ≤ b.bufU64s / sectorWords := by
  obtain ⟨⟨ret, b', disk'⟩, hw, hset⟩ := Option.bind_eq_some_iff.mp h
  cases bch2BtreeNodeWrite_outcome hw with
  | early _ _ _ => cases hset
  | failed _ _ => cases hset
  | nothing _ _ _ => cases hset
  | done _ _ hfits hdisk =>
    subst hdisk
    have hset' : writeBset { io with taken := true } (bch2SortWhiteouts b) = set := by
      by_cases hfirst : b.written = 0
      · simpa [hfirst] using hset
      · simpa [hfirst] using hset
    rw [← hset']
    exact hfits

theorem writeTransAttempt_le {onlyIfNeed blocked : Bool} {set : DiskBset}
    (h : writeTransAttempt io onlyIfNeed blocked b = some set) :
    set.offset + set.sectors ≤ b.bufU64s / sectorWords := by
  rw [writeTransAttempt] at h
  split_ifs at h
  have hle := nodeWriteAttempt_le h
  exact hle

theorem initNextAttempt_le {set : DiskBset} (h : initNextAttempt io b = some set) :
    set.offset + set.sectors ≤ b.bufU64s / sectorWords := by
  rw [initNextAttempt] at h
  split_ifs at h
  exact writeTransAttempt_le h

/-- Every set handed to the device ends within the buffer of its node. -/
theorem NodeOp.attempt_le {op : NodeOp} {set : DiskBset} (h : op.attempt dev b = some set) :
    set.offset + set.sectors ≤ b.bufU64s / sectorWords := by
  cases op with
  | write a onlyIfNeed blocked => exact writeTransAttempt_le h
  | initNext a => exact initNextAttempt_le h
  | prepForWrite a =>
    obtain ⟨b₁, hb₁, h⟩ := Option.bind_eq_some_iff.mp h
    obtain ⟨_, -, h⟩ := Option.bind_eq_some_iff.mp h
    rw [← postWriteCleanup_bufU64s hb₁]
    exact initNextAttempt_le h
  | insert k journalSeq => cases h
  | dropWhiteouts mode => cases h
  | compact => cases h
  | reload a => cases h

end Buffer

/-! ### Runs that grow no leaf -/

/-- Every buffer has the size of the superblock. -/
def Uniform (m : Member) (s : NodeStore) : Prop :=
  ∀ n ∈ s.nodes, n.leaf.node.bufU64s = m.nodeSize * sectorWords

/-- An operation that grows no leaf. -/
def StoreOp.KeepsSize : StoreOp → Prop
  | .grow _ => False
  | _ => True

instance : DecidablePred StoreOp.KeepsSize
  | .grow _ => inferInstanceAs (Decidable False)
  | .closeWritePoint => inferInstanceAs (Decidable True)
  | .newBucket _ => inferInstanceAs (Decidable True)
  | .allocNode _ _ _ _ => inferInstanceAs (Decidable True)
  | .reuseSectors _ _ _ _ => inferInstanceAs (Decidable True)
  | .reservePut _ => inferInstanceAs (Decidable True)
  | .node _ _ => inferInstanceAs (Decidable True)
  | .retire _ => inferInstanceAs (Decidable True)

section Uniform

variable {m : Member} {dev : NodeIo} {s s' : NodeStore}

theorem Uniform.set (h : Uniform m s) {i : ℕ} {n : StoreNode} {reserve : List ExtentPtr}
    (hn : n.leaf.node.bufU64s = m.nodeSize * sectorWords) :
    Uniform m { s with reserve := reserve, nodes := s.nodes.set i n } := by
  intro n' hn'
  rcases List.mem_or_eq_of_mem_set hn' with hmem | rfl
  · exact h n' hmem
  · exact hn

theorem Uniform.of_liveNode (h : Uniform m s) {i : ℕ} {n : StoreNode}
    (hn : s.liveNode i = some n) : n.leaf.node.bufU64s = m.nodeSize * sectorWords :=
  h n (List.mem_of_getElem? (liveNode_eq_some.mp hn).1)

theorem Uniform.newBufU64s (h : Uniform m s) (reused src : Option ℕ) :
    newBufU64s m (reused.bind s.freeableNode) (src.bind s.liveNode) = m.nodeSize * sectorWords := by
  have hreused : ∀ n, reused.bind s.freeableNode = some n →
      n.leaf.node.bufU64s = m.nodeSize * sectorWords := by
    intro n hn
    obtain ⟨i, -, hn⟩ := Option.bind_eq_some_iff.mp hn
    exact h n (List.mem_of_getElem? (freeableNode_eq_some.mp hn).1)
  have hsrc : ∀ n, src.bind s.liveNode = some n →
      n.leaf.node.bufU64s = m.nodeSize * sectorWords := by
    intro n hn
    obtain ⟨i, -, hn⟩ := Option.bind_eq_some_iff.mp hn
    exact h.of_liveNode hn
  cases hr : reused.bind s.freeableNode with
  | none =>
    cases hc : src.bind s.liveNode with
    | none => rfl
    | some n =>
      change max _ n.leaf.node.bufU64s = _
      rw [hsrc n hc, max_self]
  | some n' =>
    cases hc : src.bind s.liveNode with
    | none => exact hreused n' hr
    | some n =>
      change max n'.leaf.node.bufU64s n.leaf.node.bufU64s = _
      rw [hreused n' hr, hsrc n hc, max_self]

theorem Uniform.addNode (h : Uniform m s) {reused src : Option ℕ} {header : NodeHeader}
    {keys : List BkeyPacked} {ptr : ExtentPtr}
    (hadd : s.addNode m reused src header keys ptr = some s') : Uniform m s' := by
  rw [NodeStore.addNode] at hadd
  split_ifs at hadd with hok
  cases hadd
  rw [h.newBufU64s]
  cases reused with
  | none =>
    intro n hn
    rcases List.mem_append.mp hn with hn | hn
    · exact h n hn
    · obtain rfl := List.mem_singleton.mp hn
      rfl
  | some i => exact h.set rfl

theorem Uniform.step (h : Uniform m s) {op : StoreOp} (hop : op.KeepsSize)
    (hs : s.step m dev op = some s') : Uniform m s' := by
  cases op with
  | closeWritePoint =>
    cases hs
    exact h
  | newBucket commits =>
    cases hs
    exact h
  | allocNode reused src header keys =>
    rw [NodeStore.step] at hs
    split at hs
    case h_2 => cases hs
    case h_1 ptr a hc =>
      have hsame : Uniform m { s with allocator := a } := h
      exact hsame.addNode hs
  | reuseSectors reused src header keys =>
    rw [NodeStore.step] at hs
    split at hs
    case h_2 => cases hs
    case h_1 ptr reserve hreserve =>
      have hsame : Uniform m { s with reserve := reserve } := h
      exact hsame.addNode hs
  | reservePut i =>
    obtain ⟨n, hn, rfl⟩ := Option.map_eq_some_iff.mp hs
    have hbuf := h.of_liveNode hn
    exact h.set hbuf
  | node i op =>
    obtain ⟨n, hn, hs⟩ := Option.bind_eq_some_iff.mp hs
    obtain ⟨leaf, hleaf, rfl⟩ := Option.map_eq_some_iff.mp hs
    exact h.set ((NodeOp.step_bufU64s hleaf).trans (h.of_liveNode hn))
  | grow i => exact hop.elim
  | retire i =>
    obtain ⟨n, hn, rfl⟩ := Option.map_eq_some_iff.mp hs
    have hbuf := h.of_liveNode hn
    exact h.set hbuf

theorem runStore_uniform (h : Uniform m s) {ops : List StoreOp}
    (hops : ∀ op ∈ ops, op.KeepsSize) (hrun : runStore m dev ops s = some s') :
    Uniform m s' := by
  induction ops generalizing s with
  | nil =>
    cases hrun
    exact h
  | cons op ops ih =>
    obtain ⟨t, ht, hrun⟩ := Option.bind_eq_some_iff.mp hrun
    exact ih (h.step (hops op (List.mem_cons_self ..)) ht)
      (fun op hop => hops op (List.mem_cons_of_mem _ hop)) hrun

end Uniform

/-! ### The sectors along a run -/

/-- The sectors of the node with the pointer `ptr`. -/
def Member.sectors (m : Member) (ptr : ExtentPtr) : Set ℕ :=
  Set.Ico ptr.offset (ptr.offset + m.nodeSize)

/-- Nodes in use have disjoint sectors, each node in one bucket, and whatever a node hands to the
device ends within its sectors. -/
structure SectorsSafe (m : Member) (dev : NodeIo) (s : NodeStore) : Prop where
  disjoint : ∀ i j n n' ptr ptr', i ≠ j → s.liveNode i = some n → s.liveNode j = some n' →
    n.ptr = some ptr → n'.ptr = some ptr' → Disjoint (m.sectors ptr) (m.sectors ptr')
  bucket : ∀ i n ptr, s.liveNode i = some n → n.ptr = some ptr → ∃ bucket < m.nbuckets,
    m.sectors ptr ⊆ Set.Ico (bucket * m.bucketSize) ((bucket + 1) * m.bucketSize)
  writes : ∀ i n (op : NodeOp) (set : DiskBset), s.liveNode i = some n → op.attempt dev n.leaf.node = some set →
    set.offset + set.sectors ≤ m.nodeSize

/-- A device that was just opened: no bucket is open and no sectors were given back. The nodes have
buffers of the size of the superblock and sectors of their own, in buckets that are not free. -/
structure Mounted (m : Member) (s : NodeStore) : Prop where
  closed : ∀ i, (s.allocator.openBuckets i).valid = false
  reserve : s.reserve = []
  placed : ∀ x ∈ s.held, Placed m s.allocator x
  apart : s.held.Pairwise (Apart m.nodeSize)
  uniform : Uniform m s

theorem Mounted.inv {m : Member} {s : NodeStore} (h : Mounted m s) : StoreInv m s where
  alloc := by
    have hno : ∀ i, ¬(s.allocator.openBuckets i).valid = true := by
      intro i
      rw [h.closed i]
      decide
    exact ⟨fun i hi => (hno i hi).elim, fun i hi => (hno i hi).elim,
      fun i hi => (hno i hi).elim, fun i j hi => (hno i hi).elim⟩
  placed := h.placed
  apart := h.apart

section Safe

variable {m : Member} {dev : NodeIo} {s : NodeStore}

theorem Apart.disjoint {ptr ptr' : ExtentPtr} (h : Apart m.nodeSize ptr.offset ptr'.offset) :
    Disjoint (m.sectors ptr) (m.sectors ptr') := by
  rw [Set.disjoint_left]
  rintro x ⟨hge, hlt⟩ ⟨hge', hlt'⟩
  rcases h with h | h <;> omega

/-- Two nodes in use hold their sectors in two places. -/
theorem StoreInv.live_apart (h : StoreInv m s) {i j : ℕ} {n n' : StoreNode} {ptr ptr' : ExtentPtr}
    (hij : i < j) (hn : s.liveNode i = some n) (hn' : s.liveNode j = some n')
    (hptr : n.ptr = some ptr) (hptr' : n'.ptr = some ptr') :
    Apart m.nodeSize ptr.offset ptr'.offset := by
  obtain ⟨hn, hlive⟩ := liveNode_eq_some.mp hn
  obtain ⟨hn', hlive'⟩ := liveNode_eq_some.mp hn'
  have hnodes : (s.nodes.filterMap StoreNode.sector).Pairwise (Apart m.nodeSize) :=
    h.apart.sublist (List.sublist_append_left _ _)
  rw [List.pairwise_filterMap] at hnodes
  obtain ⟨hi, hni⟩ := List.getElem?_eq_some_iff.mp hn
  obtain ⟨hj, hnj⟩ := List.getElem?_eq_some_iff.mp hn'
  have hpair := List.pairwise_iff_getElem.mp hnodes i j hi hj hij
  refine hpair ptr.offset ?_ ptr'.offset ?_
  · rw [hni]
    simp [StoreNode.sector, hlive, hptr]
  · rw [hnj]
    simp [StoreNode.sector, hlive', hptr']

theorem StoreInv.safe (h : StoreInv m s) (hu : Uniform m s) : SectorsSafe m dev s := by
  refine ⟨fun i j n n' ptr ptr' hij hn hn' hptr hptr' => ?_, fun i n ptr hn hptr => ?_,
    fun i n op set hn hset => ?_⟩
  · rcases Nat.lt_or_gt_of_ne hij with hlt | hlt
    · exact (h.live_apart hlt hn hn' hptr hptr').disjoint
    · exact (h.live_apart hlt hn' hn hptr' hptr).disjoint.symm
  · obtain ⟨hn, hlive⟩ := liveNode_eq_some.mp hn
    have hmem : ptr.offset ∈ s.held := by
      refine List.mem_append_left _ (List.mem_filterMap.mpr ⟨n, List.mem_of_getElem? hn, ?_⟩)
      simp [StoreNode.sector, hlive, hptr]
    obtain ⟨bucket, hplaced⟩ := h.placed _ hmem
    refine ⟨bucket, hplaced.lt_nbuckets, Set.Ico_subset_Ico hplaced.ge ?_⟩
    rw [Nat.add_one_mul]
    exact hplaced.le
  · have hle := NodeOp.attempt_le hset
    rw [hu.of_liveNode hn, Nat.mul_div_cancel _ (by decide)] at hle
    exact hle

/-- Along every run from a device that was just opened in which no leaf is grown, the sectors of
the nodes in use are disjoint, each node lies in one bucket, and every write ends within the
sectors of its node. -/
theorem node_sectors_safe {s₀ : NodeStore} {ops : List StoreOp} (hm : m.Valid)
    (hdev : m.Addressable) (h₀ : Mounted m s₀) (hops : ∀ op ∈ ops, op.KeepsSize)
    (hrun : runStore m dev ops s₀ = some s) : SectorsSafe m dev s :=
  (runStore_inv hm hdev h₀.inv hrun).safe (runStore_uniform h₀.uniform hops hrun)

end Safe

/-- An allocation with nothing in between, and the node made with it, is a run. -/
theorem allocSectors_run {m : Member} {dev : NodeIo} {s s₁ s' : NodeStore} {commits : Bool}
    {ptr : ExtentPtr} {reused src : Option ℕ} {header : NodeHeader} {keys : List BkeyPacked}
    (halloc : bch2BtreeNodeAllocSectors m commits s = (.ok ptr, s₁))
    (hadd : s₁.addNode m reused src header keys ptr = some s') :
    ∃ ops, (∀ op ∈ ops, op.KeepsSize) ∧ runStore m dev ops s = some s' := by
  rw [bch2BtreeNodeAllocSectors] at halloc
  split at halloc
  case h_1 ptr' reserve hreserve =>
    cases halloc
    refine ⟨[.reuseSectors reused src header keys], by simp [StoreOp.KeepsSize], ?_⟩
    simp only [runStore, NodeStore.step, hreserve, hadd, Option.bind_some]
  case h_2 hreserve =>
    obtain ⟨⟨res, a₁⟩, hsectors⟩ :
        ∃ r, bch2AllocSectorsBtree m commits m.nodeSize s.allocator = r := ⟨_, rfl⟩
    rw [hsectors] at halloc
    obtain ⟨rfl, rfl⟩ := Prod.mk.inj halloc
    have hcarve : ∀ a, carve m m.nodeSize a = (.ok ptr, a₁) →
        runStore m dev [.allocNode reused src header keys] { s with allocator := a } =
          some s' := by
      intro a hc
      simp only [runStore, NodeStore.step, hc, hadd, Option.bind_some]
    rw [bch2AllocSectorsBtree] at hsectors
    by_cases hfull : s.allocator.wp.sectorsFree < m.nodeSize
    · rw [if_pos hfull] at hsectors
      split at hsectors
      case h_1 => cases hsectors
      case h_2 a hnew =>
        refine ⟨[.closeWritePoint, .newBucket commits, .allocNode reused src header keys],
          by simp [StoreOp.KeepsSize], ?_⟩
        rw [runStore, NodeStore.step, Option.bind_some, runStore, NodeStore.step,
          Option.bind_some]
        dsimp only
        rw [hnew]
        exact hcarve a hsectors
    · rw [if_neg hfull] at hsectors
      exact ⟨[.allocNode reused src header keys], by simp [StoreOp.KeepsSize],
        hcarve _ hsectors⟩

/-! A device with nodes of one sector in buckets of eight, and two nodes on it. -/

/-- The member of the small device. -/
def smallMember : Member where
  devIdx := 0
  bucketSize := 8
  firstBucket := 0
  nbuckets := 512
  nodeSize := 1
  nrDevices := 1

/-- The small device with all buckets free. -/
def smallStore : NodeStore where
  allocator :=
    { alloc := fun bucket => if bucket < 512 then some ⟨0, bchDataFree⟩ else none
      freespace := [] }

/-- The header of the nodes of the small device. -/
def smallHeader : NodeHeader := ⟨1, 0, 0, ⟨0, 0, 0⟩, ⟨100, 0, 0⟩, bkeyFormatCurrent⟩

/-- A key that takes half a node. -/
def wideKey (i : Fin (2 ^ 64)) : Bkey where
  p := ⟨i, 0, 0⟩
  type := 3
  val := List.replicate 25 7

/-- Two nodes side by side. -/
def twoNodes : List StoreOp :=
  [.newBucket true, .allocNode none none smallHeader [packKey bkeyFormatCurrent (wideKey 1) false],
    .allocNode none none smallHeader []]

theorem smallMember_valid : smallMember.Valid := ⟨by decide, by decide⟩

theorem smallMember_addressable : smallMember.Addressable := by
  rw [Member.Addressable]
  decide

theorem smallStore_mounted : Mounted smallMember smallStore where
  closed _ := rfl
  reserve := rfl
  placed x hx := by cases hx
  apart := List.Pairwise.nil
  uniform n hn := by cases hn

theorem node_sectors_safe_small : smallMember.Valid ∧ smallMember.Addressable ∧
    Mounted smallMember smallStore ∧ (∀ op ∈ twoNodes, op.KeepsSize) ∧
    ∃ s, runStore smallMember smallNodeDev twoNodes smallStore = some s ∧
      SectorsSafe smallMember smallNodeDev s := by
  have hops : ∀ op ∈ twoNodes, op.KeepsSize := by decide
  have hsome : (runStore smallMember smallNodeDev twoNodes smallStore).isSome = true := by
    decide +kernel
  obtain ⟨s, hs⟩ := Option.isSome_iff_exists.mp hsome
  exact ⟨smallMember_valid, smallMember_addressable, smallStore_mounted, hops, s, hs,
    node_sectors_safe smallMember_valid smallMember_addressable smallStore_mounted hops hs⟩

/-- The first of two nodes is grown, and its write runs over the second one. -/
theorem grown_leaf_overwrites_next : ¬∀ (m : Member) (dev : NodeIo) (s₀ s : NodeStore)
    (ops : List StoreOp), m.Valid → m.Addressable → Mounted m s₀ →
    runStore m dev ops s₀ = some s → SectorsSafe m dev s := by
  intro hall
  have hrun : ((runStore smallMember smallNodeDev
      (twoNodes ++ [.grow 0, .node 0 (.insert (wideKey 2) 1)]) smallStore).bind fun s =>
        (s.liveNode 0).bind fun n => (NodeOp.attempt smallNodeDev n.leaf.node
          (.write {} false false)).map fun set => set.offset + set.sectors) = some 2 := by
    decide +kernel
  obtain ⟨s, hs, hrun⟩ := Option.bind_eq_some_iff.mp hrun
  obtain ⟨n, hn, hrun⟩ := Option.bind_eq_some_iff.mp hrun
  obtain ⟨set, hset, hend⟩ := Option.map_eq_some_iff.mp hrun
  have hsafe := hall _ _ _ s _ smallMember_valid smallMember_addressable smallStore_mounted hs
  have hle := hsafe.writes 0 n _ set hn hset
  rw [hend] at hle
  exact absurd hle (by decide)

end Subvol

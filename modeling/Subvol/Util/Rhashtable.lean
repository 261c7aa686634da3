import Mathlib.Data.Nat.Bitwise
import Subvol.Lib.Chains

/-!
# The resizable hash table

Objects hang in chains, one chain for each bucket. A lookup and the search for a duplicate leave a
chain after `rhtElasticity` objects. A deferred pass doubles or halves the number of buckets, with
a new seed, and moves every object to the front of its new chain, whatever the length of the chain.
The operations hold the gate of the table, so each of them is one step here.

Objects are told apart by their address (`Obj`); `keyOf` is the field of an object that holds its
key. Arithmetic on the number of buckets is that of the machine words of the source.

## Main definitions

* `RhashtableParams`, `Rhashtable`, `rhashtableInit`, `rhashtableLookupFast`, `rehashLocked`,
  `rhtDeferredWorker`, `rhashtableLookupInsertFast`, `rhashtableRemoveFast`.
* `RhtState`, `RhtOp`: a table along a run, with the objects that were inserted and not removed.
* `Faithful`: the table is the map of these objects.
* `HasRoom`: no chain gets longer than a lookup goes.

## Main results

* `RhtState.Ok.faithful_iff`, `faithful_along_iff`.
-/

namespace Subvol

open Lib

variable {Obj Key : Type}

/-! ### The table -/

/-- How many objects of a chain a lookup goes through. -/
def rhtElasticity : ℕ := 16

/-- The parameters of a table. An object is hashed and compared by its key, also where the table has
functions of its own for objects. -/
structure RhashtableParams (Obj Key : Type) where
  nelemHint : ℕ := 0
  keyLen : ℕ
  maxSize : ℕ := 0
  minSize : ℕ := 0
  automaticShrinking : Bool
  keyOf : Obj → Key
  hashfn : Key → UInt32 → UInt32
  objHashfn : Option (Obj → UInt32 → UInt32) := none
  objCmpfn : Option (Key → Obj → ℤ) := none
  hash_obj : ∀ f ∈ objHashfn, ∀ o seed, f o seed = hashfn (keyOf o) seed := by simp
  cmp_obj : ∀ f ∈ objCmpfn, ∀ key o, f key o = 0 ↔ keyOf o = key := by simp

/-- A table. The chain of a bucket begins with the object its head points to. -/
structure Rhashtable (Obj : Type) where
  size : ℕ
  hashRnd : UInt32
  buckets : ℕ → List Obj := fun _ => []
  minSize : ℕ
  maxSize : ℕ
  nelems : ℕ := 0
  runWork : Bool := false

/-- The next power of two. -/
def roundupPow2 (value : ℕ) : ℕ :=
  if value ≤ 1 then 1
  else
    let v := value - 1
    let v := v ||| v >>> 1
    let v := v ||| v >>> 2
    let v := v ||| v >>> 4
    let v := v ||| v >>> 8
    let v := v ||| v >>> 16
    let v := v ||| v >>> 32
    v + 1

/-- The number of buckets of a new table. -/
def roundedHashtableSize (nelemHint minSize : ℕ) : ℕ :=
  let hinted := if nelemHint ≠ 0 then nelemHint * 4 / 3 else 64
  roundupPow2 (max (max hinted minSize) 4)

/-- A new table, with the seed it draws. -/
def rhashtableInit (P : RhashtableParams Obj Key) (seed : UInt32) : Except ℤ (Rhashtable Obj) :=
  if P.keyLen = 0 ∧ P.objHashfn.isNone ∨ P.objHashfn.isSome ∧ P.objCmpfn.isNone then .error (-22)
  else
    let minSize := max (roundupPow2 P.minSize) 4 % 2 ^ 16
    let maxSize := if P.maxSize ≠ 0 then P.maxSize.nextPowerOfTwo % 2 ^ 32 / 2 else P.maxSize
    .ok { size := roundedHashtableSize P.nelemHint minSize % 2 ^ 32, hashRnd := seed, minSize,
          maxSize }

/-- The bucket of a hash: the mask is one below the number of buckets, and wraps below zero. -/
def rhtBucketIndex (hash : UInt32) (size : ℕ) : ℕ :=
  hash.toNat &&& ((size + (2 ^ 64 - 1)) % 2 ^ 64)

def rhtKeyHashfn (P : RhashtableParams Obj Key) (seed : UInt32) (size : ℕ) (key : Key) : ℕ :=
  rhtBucketIndex (P.hashfn key seed) size

def rhtHeadHashfn (P : RhashtableParams Obj Key) (seed : UInt32) (size : ℕ) (obj : Obj) : ℕ :=
  match P.objHashfn with
  | some hashfn => rhtBucketIndex (hashfn obj seed) size
  | none => rhtBucketIndex (P.hashfn (P.keyOf obj) seed) size

def objectsEqual [DecidableEq Key] (P : RhashtableParams Obj Key) (key : Key) (obj : Obj) : Bool :=
  match P.objCmpfn with
  | some compare => compare key obj = 0
  | none => P.keyOf obj = key

/-- Goes along a chain for a number of steps: the first object that matches, or what is left of the
chain. -/
def walkChain (p : Obj → Bool) : ℕ → List Obj → Obj ⊕ List Obj
  | _, [] => .inr []
  | 0, head :: next => .inr (head :: next)
  | steps + 1, head :: next => if p head then .inl head else walkChain p steps next

def rhashtableLookupFast [DecidableEq Key] (P : RhashtableParams Obj Key) (ht : Rhashtable Obj)
    (key : Key) : Option Obj :=
  match walkChain (objectsEqual P key) rhtElasticity
      (ht.buckets (rhtKeyHashfn P ht.hashRnd ht.size key)) with
  | .inl obj => some obj
  | .inr _ => none

/-- Moves every object, bucket by bucket, to the front of its chain in a new table. -/
def rehashLocked (P : RhashtableParams Obj Key) (ht : Rhashtable Obj) (newSize : ℕ)
    (seed : UInt32) : Rhashtable Obj :=
  if ht.size = newSize then ht
  else
    let size := newSize % 2 ^ 32
    let moved := (List.range ht.size).flatMap ht.buckets
    { ht with
      size
      hashRnd := seed
      buckets := moved.foldl (fun c obj => pushChain c (rhtHeadHashfn P seed size obj) obj)
        fun _ => [] }

/-- The number of buckets that a table is to grow to. -/
def rhtGrowSize (ht : Rhashtable Obj) (size : ℕ) : ℕ :=
  min (size * 2) (if ht.maxSize = 0 then 2 ^ 64 - 1 else ht.maxSize)

/-- The number of buckets that a deferred pass asks for. -/
def rhtNextSize (P : RhashtableParams Obj Key) (ht : Rhashtable Obj) : Option ℕ :=
  if ht.nelems > ht.size * 3 / 4 then
    if rhtGrowSize ht ht.size > ht.size then some (rhtGrowSize ht ht.size) else none
  else if P.automaticShrinking ∧ ht.size > ht.minSize ∧ ht.nelems < ht.size * 3 / 10 then
    some (max (ht.size / 2) ht.minSize)
  else none

/-- A deferred pass, with the seed its new table draws. -/
def rhtDeferredWorker (P : RhashtableParams Obj Key) (ht : Rhashtable Obj) (seed : UInt32) :
    Rhashtable Obj :=
  let ht := { ht with runWork := false }
  match rhtNextSize P ht with
  | some newSize => rehashLocked P ht newSize seed
  | none => ht

def rhashtableLookupInsertFast [DecidableEq Key] (P : RhashtableParams Obj Key)
    (ht : Rhashtable Obj) (obj : Obj) : ℤ × Rhashtable Obj :=
  let index := rhtHeadHashfn P ht.hashRnd ht.size obj
  match walkChain (objectsEqual P (P.keyOf obj)) rhtElasticity (ht.buckets index) with
  | .inl _ => (-17, ht)
  | .inr (_ :: _) => (-7, { ht with runWork := true })
  | .inr [] =>
    let count := ht.nelems + 1
    let ht := { ht with buckets := pushChain ht.buckets index obj, nelems := count }
    if count > ht.size * 3 / 4 ∧ rhtGrowSize ht ht.size > ht.size then
      (0, { ht with runWork := true })
    else (0, ht)

/-- Takes an object out of its chain, whatever its place in it. -/
def rhashtableRemoveFast [DecidableEq Obj] (P : RhashtableParams Obj Key) (ht : Rhashtable Obj)
    (obj : Obj) : ℤ × Rhashtable Obj :=
  let index := rhtHeadHashfn P ht.hashRnd ht.size obj
  if obj ∈ ht.buckets index then
    let count := ht.nelems - 1
    let ht := { ht with
      buckets := Function.update ht.buckets index ((ht.buckets index).erase obj)
      nelems := count }
    if P.automaticShrinking ∧ ht.size > ht.minSize ∧ count < ht.size * 3 / 10 then
      (0, { ht with runWork := true })
    else (0, ht)
  else (-2, ht)

/-! ### Runs -/

/-- A table with the objects that were inserted and not removed since. -/
structure RhtState (Obj : Type) where
  table : Rhashtable Obj
  live : List Obj := []

inductive RhtOp (Obj : Type)
  | insert (obj : Obj)
  | remove (obj : Obj)
  | deferred (seed : UInt32)

/-- One operation on the table; an object is live from the insertion that reported success to the
removal that did. -/
def RhtState.step [DecidableEq Obj] [DecidableEq Key] (P : RhashtableParams Obj Key)
    (s : RhtState Obj) : RhtOp Obj → RhtState Obj
  | .insert obj =>
    let (ret, table) := rhashtableLookupInsertFast P s.table obj
    { table, live := if ret = 0 then obj :: s.live else s.live }
  | .remove obj =>
    let (ret, table) := rhashtableRemoveFast P s.table obj
    { table, live := if ret = 0 then s.live.erase obj else s.live }
  | .deferred seed => { s with table := rhtDeferredWorker P s.table seed }

/-- The state behind a list of operations. -/
def RhtState.run [DecidableEq Obj] [DecidableEq Key] (P : RhashtableParams Obj Key)
    (s : RhtState Obj) (ops : List (RhtOp Obj)) : RhtState Obj :=
  ops.foldl (RhtState.step P) s

/-- The table is the map of the live objects. -/
structure Faithful [DecidableEq Key] (P : RhashtableParams Obj Key) (s : RhtState Obj) : Prop where
  lookup : ∀ key obj, rhashtableLookupFast P s.table key = some obj ↔
    obj ∈ s.live ∧ P.keyOf obj = key
  keys : s.live.Pairwise fun o o' => P.keyOf o ≠ P.keyOf o'
  nelems : s.table.nelems = s.live.length
  kept : ∀ obj, obj ∈ s.live ↔ ∃ i, obj ∈ s.table.buckets i
  once : ∀ i, (s.table.buckets i).Nodup
  apart : ∀ i j obj, obj ∈ s.table.buckets i → obj ∈ s.table.buckets j → i = j

/-- How many live objects a bucket has under a seed and a number of buckets. -/
def chainLoad (P : RhashtableParams Obj Key) (live : List Obj) (seed : UInt32) (size i : ℕ) : ℕ :=
  (live.filter fun o => rhtHeadHashfn P seed size o = i).length

/-- No chain gets longer than a lookup goes: an object with a new key finds a place in its bucket,
and the seed of a deferred pass spreads the live objects. -/
def HasRoom (P : RhashtableParams Obj Key) (s : RhtState Obj) : RhtOp Obj → Prop
  | .insert obj => (∃ o ∈ s.live, P.keyOf o = P.keyOf obj) ∨
      chainLoad P s.live s.table.hashRnd s.table.size
        (rhtHeadHashfn P s.table.hashRnd s.table.size obj) < rhtElasticity
  | .remove _ => True
  | .deferred seed => ∀ newSize, rhtNextSize P s.table = some newSize →
      ∀ i, chainLoad P s.live seed (newSize % 2 ^ 32) i ≤ rhtElasticity

/-! ### Chains -/

theorem walkChain_eq (p : Obj → Bool) (n : ℕ) (l : List Obj) :
    walkChain p n l = ((l.take n).find? p).elim (.inr (l.drop n)) .inl := by
  induction l generalizing n with
  | nil => simp [walkChain]
  | cons head next ih =>
    cases n with
    | zero => rfl
    | succ n =>
      rw [walkChain, List.take_succ_cons, List.find?_cons, List.drop_succ_cons]
      by_cases hp : p head <;> simp [hp, ih]

/-- An object is in the bucket where a lookup of its key starts. -/
theorem rhtHeadHashfn_eq (P : RhashtableParams Obj Key) (seed : UInt32) (size : ℕ) (obj : Obj) :
    rhtHeadHashfn P seed size obj = rhtKeyHashfn P seed size (P.keyOf obj) := by
  rw [rhtHeadHashfn, rhtKeyHashfn]
  split
  next hashfn h => rw [P.hash_obj hashfn h]
  next => rfl

theorem rhtHeadHashfn_lt (P : RhashtableParams Obj Key) (seed : UInt32) {size : ℕ} (h : 0 < size)
    (hsmall : size < 2 ^ 32) (obj : Obj) : rhtHeadHashfn P seed size obj < size := by
  rw [rhtHeadHashfn_eq, rhtKeyHashfn, rhtBucketIndex]
  have hmask : (size + (2 ^ 64 - 1)) % 2 ^ 64 = size - 1 := by omega
  rw [hmask]
  have hle := Nat.and_le_right (n := (P.hashfn (P.keyOf obj) seed).toNat) (m := size - 1)
  omega

/-- What holds in every state: the chains are the live objects, one for each key. -/
structure RhtState.Ok (P : RhashtableParams Obj Key) (s : RhtState Obj) : Prop where
  chains : ∀ i, (s.table.buckets i).Perm
    (s.live.filter fun o => rhtHeadHashfn P s.table.hashRnd s.table.size o = i)
  keys : s.live.Pairwise fun o o' => P.keyOf o ≠ P.keyOf o'
  nelems : s.table.nelems = s.live.length
  small : s.table.size < 2 ^ 32

namespace RhtState.Ok

variable {P : RhashtableParams Obj Key} {s : RhtState Obj}

theorem mem_bucket (h : s.Ok P) {i : ℕ} {obj : Obj} :
    obj ∈ s.table.buckets i ↔
      obj ∈ s.live ∧ rhtHeadHashfn P s.table.hashRnd s.table.size obj = i := by
  rw [(h.chains i).mem_iff]
  simp

theorem length_bucket (h : s.Ok P) (i : ℕ) :
    (s.table.buckets i).length = chainLoad P s.live s.table.hashRnd s.table.size i :=
  (h.chains i).length_eq

theorem nodup (h : s.Ok P) : s.live.Nodup :=
  h.keys.imp fun hne heq => hne (congrArg P.keyOf heq)

theorem keys_bucket (h : s.Ok P) (i : ℕ) :
    (s.table.buckets i).Pairwise fun o o' => P.keyOf o ≠ P.keyOf o' :=
  pairwise_ne_perm (h.keys.sublist List.filter_sublist) (h.chains i).symm

theorem runWork (h : s.Ok P) (work : Bool) :
    RhtState.Ok P { s with table := { s.table with runWork := work } } :=
  ⟨h.chains, h.keys, h.nelems, h.small⟩

theorem objects_perm (h : s.Ok P) (hsize : 0 < s.table.size) :
    ((List.range s.table.size).flatMap s.table.buckets).Perm s.live := by
  have hlt : ∀ o ∈ s.live, rhtHeadHashfn P s.table.hashRnd s.table.size o < s.table.size :=
    fun o _ => rhtHeadHashfn_lt P _ hsize h.small o
  refine List.Perm.trans ?_ (flatMap_filter_perm hlt)
  exact List.Perm.flatMap_left _ fun i _ => h.chains i

end RhtState.Ok

/-- A deferred pass asks for a number of buckets that is not the one the table has, and only where
the table has buckets. -/
theorem rhtNextSize_ne {P : RhashtableParams Obj Key} {ht : Rhashtable Obj} {n : ℕ}
    (h : rhtNextSize P ht = some n) : ht.size ≠ n ∧ 0 < ht.size := by
  rw [rhtNextSize] at h
  split_ifs at h with hgrow hmore hshrink
  · obtain rfl := Option.some.inj h
    refine ⟨hmore.ne, ?_⟩
    rw [rhtGrowSize] at hmore
    omega
  · obtain rfl := Option.some.inj h
    refine ⟨?_, ?_⟩ <;> omega

theorem rhashtableInit_ok {P : RhashtableParams Obj Key} {seed : UInt32} {ht : Rhashtable Obj}
    (h : rhashtableInit P seed = .ok ht) : RhtState.Ok P { table := ht } ∧
      ∀ i, ht.buckets i = [] := by
  rw [rhashtableInit] at h
  split at h
  · cases h
  obtain rfl := Except.ok.inj h
  exact ⟨⟨fun i => by simp, List.Pairwise.nil, rfl, Nat.mod_lt _ (by decide)⟩, fun _ => rfl⟩

/-! ### Lookups -/

section Lookups

variable [DecidableEq Key] {P : RhashtableParams Obj Key} {s : RhtState Obj}

@[simp] theorem objectsEqual_iff (P : RhashtableParams Obj Key) (key : Key) (obj : Obj) :
    objectsEqual P key obj = true ↔ P.keyOf obj = key := by
  rw [objectsEqual]
  split
  next compare h => simpa using P.cmp_obj compare h key obj
  next => simp

theorem rhashtableLookupFast_eq (P : RhashtableParams Obj Key) (ht : Rhashtable Obj) (key : Key) :
    rhashtableLookupFast P ht key =
      ((ht.buckets (rhtKeyHashfn P ht.hashRnd ht.size key)).take rhtElasticity).find?
        (objectsEqual P key) := by
  rw [rhashtableLookupFast, walkChain_eq]
  cases ((ht.buckets (rhtKeyHashfn P ht.hashRnd ht.size key)).take rhtElasticity).find?
    (objectsEqual P key) <;> rfl

namespace RhtState.Ok

/-- A lookup that reaches the end of every chain finds the live objects. -/
theorem lookup_of_le (h : s.Ok P) (hle : ∀ i, (s.table.buckets i).length ≤ rhtElasticity)
    (key : Key) (obj : Obj) :
    rhashtableLookupFast P s.table key = some obj ↔ obj ∈ s.live ∧ P.keyOf obj = key := by
  rw [rhashtableLookupFast_eq, List.take_of_length_le (hle _)]
  constructor
  · intro hfind
    have hmem := List.mem_of_find?_eq_some hfind
    have hkey := List.find?_some hfind
    exact ⟨(h.mem_bucket.mp hmem).1, (objectsEqual_iff P key obj).mp hkey⟩
  · rintro ⟨hlive, rfl⟩
    have hbucket : obj ∈ s.table.buckets
        (rhtKeyHashfn P s.table.hashRnd s.table.size (P.keyOf obj)) :=
      h.mem_bucket.mpr ⟨hlive, rhtHeadHashfn_eq ..⟩
    have hsome : ((s.table.buckets (rhtKeyHashfn P s.table.hashRnd s.table.size
        (P.keyOf obj))).find? (objectsEqual P (P.keyOf obj))).isSome := by
      rw [List.find?_isSome]
      exact ⟨obj, hbucket, by simp⟩
    obtain ⟨o, ho⟩ := Option.isSome_iff_exists.mp hsome
    have hmem := (h.mem_bucket.mp (List.mem_of_find?_eq_some ho)).1
    have hkey := (objectsEqual_iff P _ o).mp (List.find?_some ho)
    rw [ho, eq_of_pairwise_ne h.keys hmem hlive hkey]

/-- An object behind the last one a lookup goes to is not found. -/
theorem lookup_of_deep (h : s.Ok P) {i : ℕ} {obj : Obj}
    (hdeep : obj ∈ (s.table.buckets i).drop rhtElasticity) :
    rhashtableLookupFast P s.table (P.keyOf obj) = none := by
  have hi : rhtKeyHashfn P s.table.hashRnd s.table.size (P.keyOf obj) = i := by
    rw [← rhtHeadHashfn_eq]
    exact (h.mem_bucket.mp (List.mem_of_mem_drop hdeep)).2
  rw [rhashtableLookupFast_eq, hi, List.find?_eq_none]
  intro o ho heq
  have hsplit := h.keys_bucket i
  rw [← List.take_append_drop rhtElasticity (s.table.buckets i)] at hsplit
  exact (List.pairwise_append.mp hsplit).2.2 o ho obj hdeep ((objectsEqual_iff P _ o).mp heq)

/-- The table is the map of its objects exactly when no chain is longer than a lookup goes. -/
theorem faithful_iff (h : s.Ok P) :
    Faithful P s ↔ ∀ i, (s.table.buckets i).length ≤ rhtElasticity := by
  constructor
  · intro hf i
    by_contra hlong
    obtain ⟨obj, hobj⟩ : ∃ obj, obj ∈ (s.table.buckets i).drop rhtElasticity := by
      refine List.exists_mem_of_ne_nil _ ?_
      rw [Ne, List.drop_eq_nil_iff]
      exact hlong
    have hlive := (h.mem_bucket.mp (List.mem_of_mem_drop hobj)).1
    have hfound := (hf.lookup (P.keyOf obj) obj).mpr ⟨hlive, rfl⟩
    rw [h.lookup_of_deep hobj] at hfound
    cases hfound
  · intro hle
    refine ⟨h.lookup_of_le hle, h.keys, h.nelems, ?_, ?_, ?_⟩
    · intro obj
      constructor
      · exact fun hlive => ⟨_, h.mem_bucket.mpr ⟨hlive, rfl⟩⟩
      · rintro ⟨i, hi⟩
        exact (h.mem_bucket.mp hi).1
    · exact fun i => (h.chains i).nodup_iff.mpr (h.nodup.filter _)
    · intro i j obj hi hj
      rw [← (h.mem_bucket.mp hi).2, (h.mem_bucket.mp hj).2]

end RhtState.Ok

end Lookups

/-! ### Steps -/

section Steps

variable [DecidableEq Obj] [DecidableEq Key] {P : RhashtableParams Obj Key} {s : RhtState Obj}

/-- What an insertion does: it is refused and leaves the chains, or its object with a new key goes
to the front of a chain that a lookup gets through. -/
theorem insert_cases (P : RhashtableParams Obj Key) (s : RhtState Obj) (obj : Obj) :
    ((∃ o ∈ s.table.buckets (rhtHeadHashfn P s.table.hashRnd s.table.size obj),
        P.keyOf o = P.keyOf obj) ∨
      rhtElasticity <
        (s.table.buckets (rhtHeadHashfn P s.table.hashRnd s.table.size obj)).length) ∧
      (∃ work, s.step P (.insert obj) = { s with table := { s.table with runWork := work } }) ∨
    (∀ o ∈ s.table.buckets (rhtHeadHashfn P s.table.hashRnd s.table.size obj),
        P.keyOf o ≠ P.keyOf obj) ∧
      (s.table.buckets (rhtHeadHashfn P s.table.hashRnd s.table.size obj)).length ≤
        rhtElasticity ∧
      ∃ work, s.step P (.insert obj) =
        { table := { s.table with
            buckets := pushChain s.table.buckets
              (rhtHeadHashfn P s.table.hashRnd s.table.size obj) obj
            nelems := s.table.nelems + 1
            runWork := work }
          live := obj :: s.live } := by
  set chain := s.table.buckets (rhtHeadHashfn P s.table.hashRnd s.table.size obj) with hchain
  simp only [RhtState.step, rhashtableLookupInsertFast, walkChain_eq, ← hchain]
  cases hfind : (chain.take rhtElasticity).find? (objectsEqual P (P.keyOf obj)) with
  | some o =>
    have hmem := List.mem_of_mem_take (List.mem_of_find?_eq_some hfind)
    have hkey := (objectsEqual_iff P _ o).mp (List.find?_some hfind)
    exact .inl ⟨.inl ⟨o, hmem, hkey⟩, s.table.runWork, by simp⟩
  | none =>
    cases hrest : chain.drop rhtElasticity with
    | cons head next =>
      have hlong : rhtElasticity < chain.length := by
        rw [← List.drop_eq_nil_iff.not.trans Nat.not_le, hrest]
        simp
      exact .inl ⟨.inr hlong, true, by simp⟩
    | nil =>
      have hshort := List.drop_eq_nil_iff.mp hrest
      rw [List.take_of_length_le hshort] at hfind
      have hnew : ∀ o ∈ chain, P.keyOf o ≠ P.keyOf obj := by
        intro o ho heq
        exact List.find?_eq_none.mp hfind o ho ((objectsEqual_iff P _ o).mpr heq)
      refine .inr ⟨hnew, hshort, ?_⟩
      simp only [Option.elim_none]
      split_ifs with hgrow hret hret
      · exact ⟨true, rfl⟩
      · exact absurd rfl hret
      · exact ⟨s.table.runWork, rfl⟩
      · exact absurd rfl hret

/-- What a removal does: its object is in no chain, or it leaves its chain. -/
theorem remove_cases (P : RhashtableParams Obj Key) (s : RhtState Obj) (obj : Obj) :
    s.step P (.remove obj) = s ∨
    obj ∈ s.table.buckets (rhtHeadHashfn P s.table.hashRnd s.table.size obj) ∧
      ∃ work, s.step P (.remove obj) =
        { table := { s.table with
            buckets := Function.update s.table.buckets
              (rhtHeadHashfn P s.table.hashRnd s.table.size obj)
              ((s.table.buckets (rhtHeadHashfn P s.table.hashRnd s.table.size obj)).erase obj)
            nelems := s.table.nelems - 1
            runWork := work }
          live := s.live.erase obj } := by
  simp only [RhtState.step, rhashtableRemoveFast]
  by_cases hmem : obj ∈ s.table.buckets (rhtHeadHashfn P s.table.hashRnd s.table.size obj)
  · refine .inr ⟨hmem, ?_⟩
    simp only [if_pos hmem]
    split_ifs with hshrink hret hret
    · exact ⟨true, rfl⟩
    · exact absurd rfl hret
    · exact ⟨s.table.runWork, rfl⟩
    · exact absurd rfl hret
  · exact .inl (by simp [if_neg hmem])

/-- The table behind a deferred pass that asks for a number of buckets. -/
theorem deferred_some {seed : UInt32} {n : ℕ} (h : rhtNextSize P s.table = some n) :
    s.step P (.deferred seed) =
      { s with
        table := { s.table with
          size := n % 2 ^ 32
          hashRnd := seed
          buckets := fun i => (((List.range s.table.size).flatMap s.table.buckets).filter
            fun obj => rhtHeadHashfn P seed (n % 2 ^ 32) obj = i).reverse
          runWork := false } } := by
  have hnext : rhtNextSize P { s.table with runWork := false } = some n := h
  have hne := (rhtNextSize_ne h).1
  simp only [RhtState.step, rhtDeferredWorker, hnext, rehashLocked, if_neg hne]
  congr 2
  funext i
  rw [foldl_pushChain, List.append_nil]

theorem deferred_none {seed : UInt32} (h : rhtNextSize P s.table = none) :
    s.step P (.deferred seed) = { s with table := { s.table with runWork := false } } := by
  have hnext : rhtNextSize P { s.table with runWork := false } = none := h
  simp only [RhtState.step, rhtDeferredWorker, hnext]

namespace RhtState.Ok

theorem insert (h : s.Ok P) (obj : Obj) : (s.step P (.insert obj)).Ok P := by
  rcases insert_cases P s obj with ⟨-, work, heq⟩ | ⟨hnew, -, work, heq⟩
  · rw [heq]
    exact h.runWork work
  · rw [heq]
    refine ⟨?_, ?_, ?_, h.small⟩
    · intro i
      dsimp only
      rw [pushChain_apply]
      split_ifs with hi
      · rw [List.filter_cons_of_pos (by simpa using hi)]
        exact (h.chains i).cons obj
      · rw [List.filter_cons_of_neg (by simpa using hi)]
        exact h.chains i
    · refine List.pairwise_cons.mpr ⟨?_, h.keys⟩
      intro o ho heq
      -- An object with the key of the new one would be in the chain that was searched.
      refine hnew o (h.mem_bucket.mpr ⟨ho, ?_⟩) heq.symm
      rw [rhtHeadHashfn_eq, rhtHeadHashfn_eq, heq]
    · simp [h.nelems]

theorem remove (h : s.Ok P) (obj : Obj) : (s.step P (.remove obj)).Ok P := by
  rcases remove_cases P s obj with heq | ⟨hmem, work, heq⟩
  · rw [heq]
    exact h
  · rw [heq]
    have hlive := (h.mem_bucket.mp hmem).1
    refine ⟨?_, h.keys.sublist (List.erase_sublist ..), ?_, h.small⟩
    · intro i
      dsimp only
      rw [h.nodup.erase_eq_filter, List.filter_filter]
      by_cases hi : i = rhtHeadHashfn P s.table.hashRnd s.table.size obj
      · subst hi
        rw [Function.update_self]
        refine ((h.chains _).erase obj).trans (List.Perm.of_eq ?_)
        rw [List.Nodup.erase_eq_filter (h.nodup.filter _), List.filter_filter]
        refine List.filter_congr fun o _ => ?_
        rw [Bool.and_comm]
      · rw [Function.update_of_ne hi]
        refine (h.chains i).trans (List.Perm.of_eq (List.filter_congr fun o _ => ?_))
        by_cases ho : o = obj
        · subst ho
          simp [Ne.symm hi]
        · simp [ho]
    · simp [h.nelems, List.length_erase_of_mem hlive]

theorem deferred (h : s.Ok P) (seed : UInt32) : (s.step P (.deferred seed)).Ok P := by
  cases hnext : rhtNextSize P s.table with
  | none =>
    rw [deferred_none hnext]
    exact h.runWork false
  | some n =>
    rw [deferred_some hnext]
    have hperm := h.objects_perm (rhtNextSize_ne hnext).2
    refine ⟨?_, h.keys, h.nelems, Nat.mod_lt _ (by decide)⟩
    intro i
    exact (List.reverse_perm _).trans (hperm.filter _)

theorem step (h : s.Ok P) (op : RhtOp Obj) : (s.step P op).Ok P := by
  cases op with
  | insert obj => exact h.insert obj
  | remove obj => exact h.remove obj
  | deferred seed => exact h.deferred seed

theorem run (h : s.Ok P) (ops : List (RhtOp Obj)) : (s.run P ops).Ok P := by
  induction ops generalizing s with
  | nil => exact h
  | cons op ops ih => exact ih (h.step op)

end RhtState.Ok

/-- An operation on a faithful table leaves it faithful exactly when there is room. -/
theorem RhtState.Ok.faithful_step_iff (h : s.Ok P) (hf : Faithful P s) (op : RhtOp Obj) :
    Faithful P (s.step P op) ↔ HasRoom P s op := by
  have hle := h.faithful_iff.mp hf
  rw [(h.step op).faithful_iff]
  cases op with
  | insert obj =>
    set i := rhtHeadHashfn P s.table.hashRnd s.table.size obj with hi
    rcases insert_cases P s obj with ⟨hcause, work, heq⟩ | ⟨hnew, -, work, heq⟩
    · rw [heq]
      refine iff_of_true hle ?_
      rcases hcause with ⟨o, ho, hkey⟩ | hlong
      · exact .inl ⟨o, (h.mem_bucket.mp ho).1, hkey⟩
      · exact absurd (hle i) (Nat.not_le.mpr hlong)
    · rw [heq]
      have hfresh : ¬∃ o ∈ s.live, P.keyOf o = P.keyOf obj := by
        rintro ⟨o, ho, hkey⟩
        refine hnew o (h.mem_bucket.mpr ⟨ho, ?_⟩) hkey
        rw [rhtHeadHashfn_eq, rhtHeadHashfn_eq, hkey]
      simp only [HasRoom, hfresh, false_or, ← hi, ← h.length_bucket i]
      constructor
      · intro hlen
        have hi' := hlen i
        rwa [pushChain_apply, if_pos rfl] at hi'
      · intro hlt j
        rw [pushChain_apply]
        split_ifs with hj
        · subst hj
          exact hlt
        · exact hle j
  | remove obj =>
    refine iff_of_true ?_ trivial
    rcases remove_cases P s obj with heq | ⟨-, work, heq⟩
    · rw [heq]
      exact hle
    · rw [heq]
      intro j
      dsimp only
      rw [Function.update_apply]
      split_ifs with hj
      · exact (List.length_erase_le ..).trans (hle _)
      · exact hle j
  | deferred seed =>
    cases hnext : rhtNextSize P s.table with
    | none =>
      rw [deferred_none hnext]
      refine iff_of_true hle ?_
      intro n hn
      rw [hnext] at hn
      cases hn
    | some n =>
      have hlen := (h.step (.deferred seed)).length_bucket
      rw [deferred_some hnext] at hlen ⊢
      simp only [HasRoom, hnext, Option.some.injEq, forall_eq']
      exact forall_congr' fun i => by rw [hlen i]

theorem RhtState.run_take_succ (P : RhashtableParams Obj Key) (s : RhtState Obj)
    {ops : List (RhtOp Obj)} {k : ℕ} {op : RhtOp Obj} (h : ops[k]? = some op) :
    s.run P (ops.take (k + 1)) = (s.run P (ops.take k)).step P op := by
  rw [RhtState.run, List.take_add_one, h]
  simp [RhtState.run]

end Steps

/-- A table is a faithful map all along a run exactly when every operation of the run finds room in
the chains. -/
theorem faithful_along_iff [DecidableEq Obj] [DecidableEq Key] (P : RhashtableParams Obj Key)
    {seed : UInt32} {ht : Rhashtable Obj} (hinit : rhashtableInit P seed = .ok ht) (ops : List (RhtOp Obj)) :
    (∀ k, Faithful P (RhtState.run P { table := ht } (ops.take k))) ↔
      ∀ k op, ops[k]? = some op → HasRoom P (RhtState.run P { table := ht } (ops.take k)) op := by
  obtain ⟨hok, hempty⟩ := rhashtableInit_ok hinit
  constructor
  · intro hf k op hop
    have hnext := hf (k + 1)
    rw [RhtState.run_take_succ P _ hop] at hnext
    exact ((hok.run _).faithful_step_iff (hf k) op).mp hnext
  · intro hroom k
    induction k with
    | zero =>
      refine hok.faithful_iff.mpr fun i => ?_
      simp [hempty i]
    | succ k ih =>
      cases hop : ops[k]? with
      | none =>
        rw [List.take_add_one, hop]
        simpa using ih
      | some op =>
        rw [RhtState.run_take_succ P _ hop]
        exact ((hok.run _).faithful_step_iff ih op).mpr (hroom k op hop)

/-- A table whose hash function gives every key the same hash. -/
def flatParams : RhashtableParams ℕ ℕ where
  keyLen := 8
  automaticShrinking := true
  keyOf := id
  hashfn _ _ := 0

def flatTable : Rhashtable ℕ := { size := 64, hashRnd := 1, minSize := 4, maxSize := 0 }

theorem faithful_along_two_inserts :
    Faithful flatParams
      (RhtState.run flatParams { table := flatTable } [.insert 5, .insert 7]) := by
  have hinit : rhashtableInit flatParams 1 = .ok flatTable := rfl
  refine (faithful_along_iff flatParams hinit [.insert 5, .insert 7]).mpr ?_ 2
  intro k op hop
  match k with
  | 0 =>
    obtain rfl := Option.some.inj hop
    exact .inr (by decide)
  | 1 =>
    obtain rfl := Option.some.inj hop
    exact .inr (by decide)
  | k + 2 => cases hop

/-- The first of seventeen objects of one bucket is live and no lookup finds it. -/
theorem first_of_seventeen_lost :
    rhashtableInit flatParams 1 = .ok flatTable ∧
      0 ∈ (RhtState.run flatParams { table := flatTable } ((List.range 17).map .insert)).live ∧
      rhashtableLookupFast flatParams
        (RhtState.run flatParams { table := flatTable } ((List.range 17).map .insert)).table 0 =
          none ∧
      ¬Faithful flatParams
        (RhtState.run flatParams { table := flatTable } ((List.range 17).map .insert)) := by
  have hlive : 0 ∈
      (RhtState.run flatParams { table := flatTable } ((List.range 17).map .insert)).live := by
    decide +kernel
  have hlost : rhashtableLookupFast flatParams
      (RhtState.run flatParams { table := flatTable } ((List.range 17).map .insert)).table 0 =
        none := by
    decide +kernel
  refine ⟨rfl, hlive, hlost, fun hf => ?_⟩
  have hfound := (hf.lookup 0 0).mpr ⟨hlive, rfl⟩
  rw [hlost] at hfound
  cases hfound

end Subvol

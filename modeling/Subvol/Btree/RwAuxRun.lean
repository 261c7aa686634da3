import Subvol.Btree.RwAuxInv

/-!
# Runs of insertions and deletions on the last set

The lookup table along a run of `bch2_bset_insert` and `bch2_bset_delete`, from the table that
`build_rw_aux_tree` makes. An overwrite by a key of the same size leaves the table alone, so that it
has to keep the position of the key it replaces.

## Main definitions

* `BsetCall`, `BsetCall.exec`, `RwRun`.
* `RwAuxOk`: what holds of the table and of the search that starts from it.

## Main results

* `rw_aux_tree_ok`: `RwAuxOk` along every run whose overwrites of the same size keep the position,
  and no assertion fails.
* `stale_position`: without that, a search starts behind the key that it is for.
-/

namespace Subvol

open Lib

/-- Keys of a set: in the order of their positions, each packed or not, within offsets of 16
bits. -/
structure RwBset.Wf (s : RwBset) : Prop where
  sorted : s.keys.Pairwise fun a b => a.pos < b.pos
  stored : ∀ k ∈ s.keys, k.keyU64s = s.format.keyU64s ∨ k.keyU64s = bkeyU64s
  fits : s.endOffset < 2 ^ 16

/-- The table of a set names keys of it in their order with their positions, the first entry the
first key, and a search never starts behind the first key that is not below. -/
structure RwAuxOk (s : RwBset) : Prop where
  size : 1 ≤ s.tree.length ∧ s.tree.length ≤ s.capacity
  first : ∀ e, s.tree[0]? = some e → e.offset = s.firstOffset
  ascending : s.tree.Pairwise fun a b => a.offset < b.offset
  atKey : s.keys ≠ [] → ∀ e ∈ s.tree, ∃ k, (e.offset, k) ∈ laid BkeyPacked.u64s s.firstOffset s.keys
  position : ∀ i e, s.tree[i + 1]? = some e → Named s.firstOffset s.keys e
  search : ∀ pos, ∃ off, bsetSearchWriteSet s pos = some off ∧
    ∀ x ∈ laid BkeyPacked.u64s s.firstOffset s.keys, pos ≤ x.2.pos → off ≤ x.1

/-! ### Calls -/

/-- A call on the last set. -/
inductive BsetCall
  | insert (where_ : ℕ) (insert : Bkey) (needsWhiteout : Bool) (clobber : ℕ)
  | delete (where_ clobber : ℕ)

namespace BsetCall

/-- The set after a call. -/
def exec (s : RwBset) : BsetCall → Option RwBset
  | insert where_ k needsWhiteout clobber => s.bch2BsetInsert where_ k needsWhiteout clobber
  | delete where_ clobber => s.bch2BsetDelete where_ clobber

/-- The keys that a call puts in the place of the clobbered one. -/
def newKeys (s : RwBset) : BsetCall → List BkeyPacked
  | insert _ k needsWhiteout _ => [packKey s.format.toBkeyFormat k needsWhiteout]
  | delete .. => []

/-- Where a call is made. -/
def place : BsetCall → ℕ
  | insert where_ .. => where_
  | delete where_ _ => where_

/-- The words that a call clobbers. -/
def clobber : BsetCall → ℕ
  | insert _ _ _ clobber => clobber
  | delete _ clobber => clobber

/-- The call changes the keys to those of `s'`: it is made at a key and clobbers none or that
key. -/
def Edits (s : RwBset) (call : BsetCall) (s' : RwBset) : Prop :=
  s.splice call.place call.clobber (call.newKeys s) = some s'

/-- A key that takes exactly the room of the clobbered one has its position. -/
def KeepsPos (s : RwBset) (call : BsetCall) : Prop :=
  ∀ k rest new, s.keysAt call.place = some (k :: rest) → call.clobber = k.u64s →
    call.newKeys s = [new] → new.u64s = k.u64s → new.pos = k.pos

end BsetCall

/-- A run of calls that are all `allowed` and keep the keys in order. -/
inductive RwRun (allowed : RwBset → BsetCall → Prop) (s₀ : RwBset) : RwBset → Prop
  | refl : RwRun allowed s₀ s₀
  | tail {s s' : RwBset} (run : RwRun allowed s₀ s) (call : BsetCall) (hallowed : allowed s call)
      (hexec : call.exec s = some s') (hsorted : s'.keys.Pairwise fun a b => a.pos < b.pos) :
      RwRun allowed s₀ s'

/-! ### One call -/

variable {s s' : RwBset}

theorem u64s_pos_of_stored (f : PackFormat) {k : BkeyPacked}
    (h : k.keyU64s = f.keyU64s ∨ k.keyU64s = bkeyU64s) : 0 < k.u64s := by
  have := f.keyU64s_pos
  rw [BkeyPacked.u64s]
  rcases h with h | h
  · omega
  · rw [h, bkeyU64s]
    omega

theorem RwBset.Wf.u64s_pos (h : s.Wf) {k : BkeyPacked} (hk : k ∈ s.keys) : 0 < k.u64s :=
  u64s_pos_of_stored s.format (h.stored k hk)

theorem packKey_keyU64s (f : BkeyFormat) (k : Bkey) (nw : Bool) :
    (packKey f k nw).keyU64s = f.keyU64s ∨ (packKey f k nw).keyU64s = bkeyU64s := by
  rw [packKey]
  split_ifs
  · exact Or.inl rfl
  · exact Or.inr rfl

theorem BsetCall.newKeys_stored {call : BsetCall} {k : BkeyPacked} (hk : k ∈ call.newKeys s) :
    k.keyU64s = s.format.keyU64s ∨ k.keyU64s = bkeyU64s := by
  cases call with
  | delete => cases hk
  | insert where_ insert nw clobber =>
    rw [List.mem_singleton.mp hk]
    exact packKey_keyU64s ..

theorem skipClobbered_eq_some {clobber : ℕ} {keys rest : List BkeyPacked}
    (h : skipClobbered clobber keys = some rest) :
    (clobber = 0 ∧ keys = rest) ∨ ∃ k, keys = k :: rest ∧ k.u64s = clobber := by
  unfold skipClobbered at h
  split_ifs at h with hzero
  · exact Or.inl ⟨hzero, by simpa using h⟩
  · cases keys with
    | nil => cases h
    | cons k keys =>
      dsimp only at h
      split_ifs at h with hk
      exact Or.inr ⟨k, by simpa using h, hk⟩

/-- An edit of the keys of a set. -/
theorem RwBset.Wf.splice_cases (hwf : s.Wf) {where_ clobber : ℕ} {new : List BkeyPacked}
    (h : s.splice where_ clobber new = some s') :
    ∃ pre mid post, s.keys = pre ++ (mid ++ post) ∧ mid.length ≤ 1 ∧
      total BkeyPacked.u64s mid = clobber ∧
      where_ = s.firstOffset + total BkeyPacked.u64s pre ∧
      s.keysAt where_ = some (mid ++ post) ∧ s' = { s with keys := pre ++ (new ++ post) } := by
  rw [RwBset.splice] at h
  simp only [Option.bind_eq_bind, Option.bind_eq_some_iff, Option.some.injEq] at h
  obtain ⟨found, hfound, rest, hrest, rfl⟩ := h
  obtain ⟨pre, hkeys, hwhere⟩ := (itemsFrom_eq_some_iff fun k hk => hwf.u64s_pos hk).mp hfound
  have htake : s.keys.take (s.keys.length - found.length) = pre := by
    rw [hkeys, List.length_append, Nat.add_sub_cancel, List.take_left]
  rw [htake]
  rcases skipClobbered_eq_some hrest with ⟨rfl, rfl⟩ | ⟨k, rfl, rfl⟩
  · exact ⟨pre, [], found, hkeys, by simp, rfl, hwhere, hfound, rfl⟩
  · exact ⟨pre, [k], rest, hkeys, by simp, by simp, hwhere, hfound, rfl⟩

theorem RwBset.Wf.stored_splice (hwf : s.Wf) {pre mid new post : List BkeyPacked}
    (hkeys : s.keys = pre ++ (mid ++ post))
    (hnew : ∀ k ∈ new, k.keyU64s = s.format.keyU64s ∨ k.keyU64s = bkeyU64s) {k : BkeyPacked}
    (hk : k ∈ pre ++ (new ++ post)) : k.keyU64s = s.format.keyU64s ∨ k.keyU64s = bkeyU64s := by
  have hold := hwf.stored k
  rw [hkeys] at hold
  rcases List.mem_append.mp hk with hk | hk
  · exact hold (List.mem_append_left _ hk)
  rcases List.mem_append.mp hk with hk | hk
  · exact hnew k hk
  · exact hold (List.mem_append_right _ (List.mem_append_right _ hk))

/-- A key replaced by one of the same size at the same position. -/
theorem Named.replace {first : ℕ} {pre post : List BkeyPacked} {k new : BkeyPacked} {e : RwAuxTree}
    (hsize : new.u64s = k.u64s) (hpos : new.pos = k.pos) (h : Named first (pre ++ k :: post) e) :
    Named first (pre ++ new :: post) e := by
  rw [List.append_cons, named_append, named_append] at h ⊢
  simp only [total_append, total_cons, total_nil] at h ⊢
  rw [hsize]
  refine h.imp_left (Or.imp_right ?_)
  rintro ⟨k', hk', he⟩
  obtain ⟨hoff, rfl⟩ := Prod.mk.inj (List.mem_singleton.mp hk')
  exact ⟨new, List.mem_singleton.mpr (by rw [hoff]), he.trans hpos.symm⟩

theorem Keeps.tree {r : Option RwBset} (h : Keeps s r) :
    ∃ s', r = some s' ∧ s'.keys = s.keys ∧ Keeps s' (some s') ∧
      s'.format = s.format ∧ s'.endOffset = s.endOffset ∧ s'.capacity = s.capacity := by
  obtain ⟨e, es, rfl, hok, hlen⟩ := h
  exact ⟨_, rfl, rfl, ⟨e, es, rfl, hok, hlen⟩, rfl, rfl, rfl⟩

/-- A call that edits the keys within 16 bits succeeds and keeps the invariant. -/
theorem BsetCall.exec_spec {s₁ : RwBset} {call : BsetCall} (hwf : s.Wf) (hok : Keeps s (some s))
    (hkeeps : call.KeepsPos s) (hedits : call.Edits s s₁) (hfits : s₁.endOffset < 2 ^ 16) :
    Keeps s₁ (call.exec s) := by
  obtain ⟨e, es, hs, htable, hcap⟩ := hok
  have htree : s.tree = e :: es := congrArg RwBset.tree (Option.some.inj hs)
  have hsplice : s.splice call.place call.clobber (call.newKeys s) = some s₁ := hedits
  obtain ⟨pre, mid, post, hkeys, hmid, hclobber, hplace, hat, rfl⟩ := hwf.splice_cases hsplice
  have hstored : ∀ k ∈ pre ++ (call.newKeys s ++ post),
      k.keyU64s = s.format.keyU64s ∨ k.keyU64s = bkeyU64s :=
    fun k hk => hwf.stored_splice hkeys (fun k hk => BsetCall.newKeys_stored hk) hk
  have hpos (k : BkeyPacked) (hk : k ∈ pre ++ (call.newKeys s ++ post)) : 0 < k.u64s :=
    u64s_pos_of_stored s.format (hstored k hk)
  have hfix : Keeps { s with keys := pre ++ (call.newKeys s ++ post) }
      (bch2BsetFixLookupTable { s with keys := pre ++ (call.newKeys s ++ post) } call.place
        call.clobber (total BkeyPacked.u64s (call.newKeys s))) := by
    rw [hkeys] at htable
    rw [← hclobber]
    exact bch2BsetFixLookupTable_spec hpos rfl hmid hplace hfits htree htable (htree ▸ hcap)
  cases call with
  | delete where_ clobber =>
    rw [BsetCall.exec, RwBset.bch2BsetDelete]
    simp only [BsetCall.place, BsetCall.clobber, BsetCall.newKeys] at hsplice hfits hfix ⊢
    simp only [hsplice, Option.bind_eq_bind, Option.bind_some, setBtreeBsetEnd, if_pos hfits]
    exact hfix
  | insert where_ k nw clobber =>
    rw [BsetCall.exec, RwBset.bch2BsetInsert]
    simp only [BsetCall.place, BsetCall.clobber, BsetCall.newKeys] at hsplice hfits hfix ⊢
    simp only [BsetCall.place, BsetCall.clobber, BsetCall.newKeys] at hclobber hpos hat
    simp only [hsplice, Option.bind_eq_bind, Option.bind_some, setBtreeBsetEnd, if_pos hfits]
    by_cases hsame : (packKey s.format.toBkeyFormat k nw).u64s = clobber
    swap
    · rw [if_pos hsame]
      simpa only [total_cons, total_nil, Nat.add_zero] using hfix
    rw [if_neg (not_not.mpr hsame)]
    -- The table is left alone, and the clobbered key is one of the same size.
    match mid, hmid with
    | [], _ =>
      have := hpos (packKey s.format.toBkeyFormat k nw) (by simp)
      rw [total_nil] at hclobber
      omega
    | [old], _ =>
      have hsize : (packKey s.format.toBkeyFormat k nw).u64s = old.u64s := by
        rw [hsame, ← hclobber, total_cons, total_nil, Nat.add_zero]
      have hposEq := hkeeps old post _ hat (by rw [← hsize]; exact hsame.symm) rfl hsize
      refine ⟨e, es, by rw [← htree], ⟨htable.first_eq, htable.ascending, fun x hx => ?_⟩, hcap⟩
      have hx := htable.named x hx
      rw [hkeys] at hx
      exact hx.replace hsize hposEq

/-- A call that succeeds edits the keys within 16 bits. -/
theorem BsetCall.edits_of_exec {call : BsetCall} (hwf : s.Wf) (h : call.exec s = some s') :
    ∃ s₁, call.Edits s s₁ ∧ s₁.endOffset < 2 ^ 16 := by
  have hset {s₁ s₂ : RwBset} (hend : setBtreeBsetEnd s₁ = some s₂) : s₁.endOffset < 2 ^ 16 := by
    rw [setBtreeBsetEnd] at hend
    split_ifs at hend with hlt
    exact hlt
  cases call with
  | delete where_ clobber =>
    rw [BsetCall.exec, RwBset.bch2BsetDelete] at h
    simp only [Option.bind_eq_bind, Option.bind_eq_some_iff] at h
    obtain ⟨s₁, hsplice, s₂, hend, -⟩ := h
    exact ⟨s₁, hsplice, hset hend⟩
  | insert where_ k nw clobber =>
    rw [BsetCall.exec, RwBset.bch2BsetInsert] at h
    simp only [Option.bind_eq_bind, Option.bind_eq_some_iff] at h
    obtain ⟨s₁, hsplice, h⟩ := h
    refine ⟨s₁, hsplice, ?_⟩
    split_ifs at h with hsame
    · obtain ⟨s₂, hend, -⟩ := Option.bind_eq_some_iff.mp h
      exact hset hend
    · -- The set keeps its size.
      obtain ⟨pre, mid, post, hkeys, -, hclobber, -, -, rfl⟩ := hwf.splice_cases hsplice
      have hfits := hwf.fits
      rw [RwBset.endOffset, hkeys] at hfits
      rw [RwBset.endOffset]
      simp only [RwBset.firstOffset, total_append, total_cons, total_nil] at hfits ⊢
      omega

/-! ### Runs -/

theorem RwRun.inv {s₀ : RwBset} (run : RwRun (fun s call => call.KeepsPos s) s₀ s) (hwf : s₀.Wf)
    (hok : Keeps s₀ (some s₀)) : s.Wf ∧ Keeps s (some s) := by
  induction run with
  | refl => exact ⟨hwf, hok⟩
  | @tail s s' run call hallowed hexec hsorted ih =>
    obtain ⟨hwf, hok⟩ := ih
    obtain ⟨s₁, hedits, hfits⟩ := BsetCall.edits_of_exec hwf hexec
    obtain ⟨s'', hs'', hkeys, hok', hformat, hend, -⟩ :=
      (BsetCall.exec_spec hwf hok hallowed hedits hfits).tree
    obtain rfl : s' = s'' := Option.some.inj (hexec.symm.trans hs'')
    refine ⟨⟨hsorted, fun k hk => ?_, hend ▸ hfits⟩, hok'⟩
    obtain ⟨pre, mid, post, hold, -, -, -, -, rfl⟩ := hwf.splice_cases hedits
    rw [hformat]
    rw [hkeys] at hk
    exact hwf.stored_splice hold (fun k hk => BsetCall.newKeys_stored hk) hk

/-! ### Searching -/

/-- The loop ends at an index of its range whose position is below, unless it is the start. -/
theorem writeSetLoop_spec (tree : List RwAuxTree) (search : Bpos) {l r : ℕ} (hlt : l < r) :
    l ≤ writeSetLoop tree search l r ∧ writeSetLoop tree search l r < r ∧
      (writeSetLoop tree search l r = l ∨
        ∀ e, tree[writeSetLoop tree search l r]? = some e → e.k < search) := by
  induction l, r using writeSetLoop.induct tree search with
  | case1 l r h m hm ih =>
    rw [writeSetLoop, dif_pos h, if_pos hm]
    obtain ⟨hlow, hhigh, hend⟩ := ih (by omega)
    simp only [m] at hlow hhigh hend hm
    refine ⟨by omega, hhigh, Or.inr fun e he => ?_⟩
    rcases hend with hend | hend
    · rw [hend] at he
      rw [he, Option.any_some] at hm
      exact (bposCmp_neg_iff _ _).mp (of_decide_eq_true hm)
    · exact hend e he
  | case2 l r h m hm ih =>
    rw [writeSetLoop, dif_pos h, if_neg hm]
    obtain ⟨hlow, hhigh, hend⟩ := ih (by omega)
    simp only [m] at hlow hhigh hend
    exact ⟨hlow, by omega, hend⟩
  | case3 l r h =>
    rw [writeSetLoop, dif_neg h]
    exact ⟨le_rfl, hlt, Or.inl rfl⟩

/-- A table that satisfies the invariant does what it is for. -/
theorem RwBset.Wf.rwAuxOk (hwf : s.Wf) (hok : Keeps s (some s)) : RwAuxOk s := by
  obtain ⟨e, es, hs, htable, hcap⟩ := hok
  have htree : s.tree = e :: es := congrArg RwBset.tree (Option.some.inj hs)
  have hposition (i : ℕ) (x : RwAuxTree) (hx : s.tree[i + 1]? = some x) :
      Named s.firstOffset s.keys x := by
    rw [htree, List.getElem?_cons_succ] at hx
    exact htable.named x (List.mem_of_getElem? hx)
  have hfirst (x : RwAuxTree) (hx : s.tree[0]? = some x) : x.offset = s.firstOffset := by
    rw [htree, List.getElem?_cons_zero, Option.some.injEq] at hx
    exact hx ▸ htable.first_eq
  refine ⟨⟨by simp [htree], htree ▸ hcap⟩, hfirst, htree ▸ htable.ascending, fun hne x hx => ?_,
    hposition, fun pos => ?_⟩
  · rw [htree] at hx
    rcases List.mem_cons.mp hx with rfl | hx
    · obtain ⟨k, keys, hkeys⟩ := List.exists_cons_of_ne_nil hne
      exact ⟨k, mem_laid_iff.mpr ⟨[], keys, hkeys, htable.first_eq⟩⟩
    · obtain ⟨k, hk, -⟩ := htable.named x hx
      exact ⟨k, hk⟩
  · have hsize : 0 < s.tree.length := by simp [htree]
    obtain ⟨-, hlt, hend⟩ := writeSetLoop_spec s.tree pos hsize
    rw [bsetSearchWriteSet]
    generalize writeSetLoop s.tree pos 0 s.tree.length = i at hlt hend ⊢
    refine ⟨s.tree[i].offset, by rw [List.getElem?_eq_getElem hlt, Option.map_some],
      fun x hx hpos => ?_⟩
    cases i with
    | zero =>
      rw [hfirst _ (List.getElem?_eq_getElem hlt)]
      exact (mem_laid_bounds hx).1
    | succ i =>
      have hbelow := (hend.resolve_left (Nat.succ_ne_zero i)) _ (List.getElem?_eq_getElem hlt)
      obtain ⟨k, hk, hkpos⟩ := hposition i _ (List.getElem?_eq_getElem hlt)
      by_contra hbehind
      have := rel_of_laid_lt hwf.sorted hx hk (by simpa using hbehind)
      exact absurd (hpos.trans_lt this) (by rw [← hkpos]; exact hbelow.not_gt)

/-- The table from `build_rw_aux_tree` on: after every run of calls whose overwrites of the same
size keep the position, it names the keys, and no further call fails that edits the keys within
offsets of 16 bits. -/
theorem rw_aux_tree_ok (s₀ : RwBset) (stale : Bpos) (hwf : s₀.Wf) (hcap : 1 ≤ s₀.capacity)
    (s : RwBset) (run : RwRun (fun s call => call.KeepsPos s) (buildRwAuxTree s₀ stale) s) :
    RwAuxOk s ∧ ∀ call s₁, BsetCall.KeepsPos s call → call.Edits s s₁ →
      s₁.endOffset < 2 ^ 16 → (call.exec s).isSome := by
  have hbuilt : (buildRwAuxTree s₀ stale).Wf := ⟨hwf.sorted, hwf.stored, hwf.fits⟩
  obtain ⟨hwf, hok⟩ := run.inv hbuilt (buildRwAuxTree_spec stale hcap)
  refine ⟨hwf.rwAuxOk hok, fun call s₁ hkeeps hedits hfits => ?_⟩
  obtain ⟨e, es, hexec, -⟩ := BsetCall.exec_spec hwf hok hkeeps hedits hfits
  rw [hexec]
  rfl

/-! ### Examples -/

/-- A key of twelve words. -/
def lineKey (offset : Fin (2 ^ 64)) : Bkey where
  p := ⟨0, offset, 0⟩
  type := 1
  val := List.replicate 7 0

def linePacked (offset : Fin (2 ^ 64)) : BkeyPacked :=
  packKey narrowFormat.toBkeyFormat (lineKey offset) false

/-- A set of a node of `2 ^ byteOrder` bytes. -/
def lineSet (byteOrder : ℕ) (keys : List BkeyPacked) (tree : List RwAuxTree) : RwBset where
  format := narrowFormat
  byteOrder := byteOrder
  auxDataOffset := 0
  dataOffset := 17
  keys := keys
  tree := tree

/-- Four keys, each with an entry of its own. -/
def lineKeys : List BkeyPacked := [linePacked 1, linePacked 3, linePacked 5, linePacked 9]

def lineTree : List RwAuxTree :=
  [⟨20, (lineKey 0).p⟩, ⟨32, (lineKey 3).p⟩, ⟨44, (lineKey 5).p⟩, ⟨56, (lineKey 9).p⟩]

theorem lineSet_wf : (lineSet 12 lineKeys []).Wf where
  sorted := by decide
  stored := by decide
  fits := by decide

/-- A key put before the third one: its entry now names the new key, and the keys behind it get an
entry more. -/
theorem rw_aux_tree_ok_insert :
    (BsetCall.insert 44 (lineKey 4) false 0).exec
        (buildRwAuxTree (lineSet 12 lineKeys []) (lineKey 0).p) =
      some (lineSet 12 [linePacked 1, linePacked 3, linePacked 4, linePacked 5, linePacked 9]
        [⟨20, (lineKey 0).p⟩, ⟨32, (lineKey 3).p⟩, ⟨44, (lineKey 4).p⟩, ⟨56, (lineKey 5).p⟩,
          ⟨68, (lineKey 9).p⟩]) ∧
    RwAuxOk (lineSet 12 [linePacked 1, linePacked 3, linePacked 4, linePacked 5, linePacked 9]
        [⟨20, (lineKey 0).p⟩, ⟨32, (lineKey 3).p⟩, ⟨44, (lineKey 4).p⟩, ⟨56, (lineKey 5).p⟩,
          ⟨68, (lineKey 9).p⟩]) := by
  refine ⟨rfl, (rw_aux_tree_ok (lineSet 12 lineKeys []) (lineKey 0).p lineSet_wf (by decide) _
    (.tail .refl (.insert 44 (lineKey 4) false 0) ?_ rfl (by decide))).1⟩
  intro k rest new hat hclobber
  have hpos : 0 < k.u64s := by
    have hmem : k ∈ lineKeys := by
      obtain ⟨p, hkeys, -⟩ :=
        (itemsFrom_eq_some_iff fun k hk => lineSet_wf.u64s_pos hk).mp hat
      rw [show lineKeys = p ++ k :: rest from hkeys]
      simp
    exact lineSet_wf.u64s_pos hmem
  rw [← hclobber] at hpos
  exact absurd hpos (by decide)

/-- Two overwrites of the same size that change positions: the entry of the third key records its
old position, and the search for the position 6 starts behind the key at 7. When the only key is
deleted the entry is at no key, and in a node of 512 bytes the table has no room for its entry. -/
theorem stale_position :
    (RwRun (fun _ _ => True) (buildRwAuxTree (lineSet 12 lineKeys []) (lineKey 0).p)
      (lineSet 12 [linePacked 1, linePacked 7, linePacked 8, linePacked 9] lineTree) ∧
    lineTree[2]? = some ⟨44, (lineKey 5).p⟩ ∧
    (44, linePacked 8) ∈
      laid BkeyPacked.u64s 20 [linePacked 1, linePacked 7, linePacked 8, linePacked 9] ∧
    bsetSearchWriteSet (lineSet 12 [linePacked 1, linePacked 7, linePacked 8, linePacked 9]
      lineTree) (lineKey 6).p = some 44 ∧
    (32, linePacked 7) ∈
      laid BkeyPacked.u64s 20 [linePacked 1, linePacked 7, linePacked 8, linePacked 9] ∧
    (lineKey 6).p ≤ (linePacked 7).pos) ∧
    RwRun (fun _ _ => True) (buildRwAuxTree (lineSet 12 [linePacked 1] []) (lineKey 0).p)
      (lineSet 12 [] [⟨20, (lineKey 0).p⟩]) ∧
    (buildRwAuxTree (lineSet 9 [] []) (lineKey 0).p).tree.length = 1 ∧
    (lineSet 9 [] []).capacity = 0 := by
  refine ⟨⟨?_, rfl, by decide, by decide +kernel, by decide, by decide⟩,
    .tail .refl (.delete 20 12) trivial rfl (by decide), by decide, by decide⟩
  have hthird : RwRun (fun _ _ => True)
      (buildRwAuxTree (lineSet 12 lineKeys []) (lineKey 0).p)
      (lineSet 12 [linePacked 1, linePacked 3, linePacked 8, linePacked 9] lineTree) :=
    .tail .refl (.insert 44 (lineKey 8) false 12) trivial rfl (by decide)
  exact .tail hthird (.insert 32 (lineKey 7) false 12) trivial rfl (by decide)

end Subvol

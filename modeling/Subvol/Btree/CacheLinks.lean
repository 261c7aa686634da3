import Subvol.Btree.CacheRun
import Subvol.Btree.ListHead

/-!
# The links of the cache of btree nodes

The lists of the cache are linked through the nodes. Beside the calls on the lists themselves stand
here their writes to the links, and in every run the links are those of the lists: whoever follows
them from the head of a list meets the nodes of its state and pin class, each of them once, and comes
back to the head.

## Main definitions

* `transitionLinks`, `pinLinks`, `unpinLinks`, `setDirtyLinks`, `writeDoneCleanLinks`: the writes to
  the links.
* `listEntries`: the loop through a list.
* `LinkedRun`: the runs of the cache with its links.

## Main results

* `cacheLinks_run`.
-/

namespace Subvol

open Lib

variable {N : Type} [DecidableEq N]

/-! ### The writes to the links -/

/-- The links of the cache: each of its lists has a head, and each node a `list_head`. -/
abbrev CacheLinks (N : Type) := Links (CacheList ⊕ N)

/-- `bch2_fs_btree_cache_init_early` and `__bch2_btree_node_mem_alloc` link every head and every node
to itself. -/
def initCacheLinks : CacheLinks N := ⟨id, id⟩

/-- A node that is on no list is put on that of its new state. -/
def addNodeLinks (n : CacheNode) (b : N) (new : BtreeNodeCacheState) (k : CacheLinks N) :
    CacheLinks N :=
  match new with
  | .none => k
  | .clean => listAddTail k (.inr b) (.inl (.clean n.pinned))
  | .dirty => listAddTail k (.inr b) (.inl (.dirty n.pinned))
  | .freeable => listAdd k (.inr b) (.inl .freeable)
  | .freed => listAddTail k (.inr b) (.inl (if n.pcpu then .freedPcpu else .freedNonpcpu))

/-- `bch2_btree_node_transition_state_locked`. -/
def transitionLinks (bc : BtreeCache N) (b : N) (new : BtreeNodeCacheState) (inserted : ℤ)
    (k : CacheLinks N) : CacheLinks N :=
  let old := (bc.nodes b).cacheState
  if old = new then k
  else
    match rehashNode bc b old new inserted with
    | .ok (new, _, bc) => addNodeLinks (bc.nodes b) b new (listDelInit k (.inr b))
    | .error _ => k

/-- `bch2_node_pin`. -/
def pinLinks (bc : BtreeCache N) (b : N) (root : Bool) (k : CacheLinks N) : CacheLinks N :=
  if ¬root ∧ ¬(bc.nodes b).pinned then
    match (bc.nodes b).cacheState with
    | .clean => listMoveTail k (.inr b) (.inl (.clean true))
    | .dirty => listMoveTail k (.inr b) (.inl (.dirty true))
    | _ => k
  else k

/-- `bch2_btree_cache_unpin`. -/
def unpinLinks (k : CacheLinks N) : CacheLinks N :=
  let k := listSpliceTailInit k (.inl (.clean true)) (.inl (.clean false))
  listSpliceTailInit k (.inl (.dirty true)) (.inl (.dirty false))

/-- `bch2_btree_node_set_dirty`. -/
def setDirtyLinks (bc : BtreeCache N) (b : N) (inserted : ℤ) (k : CacheLinks N) : CacheLinks N :=
  let n := bc.nodes b
  if n.dirty then k
  else if btreeNodeStateHashed n.cacheState then
    transitionLinks (bc.setNode b { n with dirty := true }) b .dirty inserted k
  else k

/-- `bch2_btree_node_write_done_clean`. -/
def writeDoneCleanLinks (bc : BtreeCache N) (b : N) (inserted : ℤ) (k : CacheLinks N) :
    CacheLinks N :=
  let n := bc.nodes b
  if btreeNodeStateHashed n.cacheState then
    transitionLinks bc b (btreeNodeLiveState n) inserted k
  else k

/-- The writes of a call. -/
def callLinks (bc : BtreeCache N) : CacheCall N → CacheLinks N → CacheLinks N
  | .transition b new inserted => transitionLinks bc b new inserted
  | .pin b root => pinLinks bc b root
  | .unpin => unpinLinks
  | .setDirty b inserted => setDirtyLinks bc b inserted
  | .writeDoneClean b inserted => writeDoneCleanLinks bc b inserted

/-- The loop of `bch2_btree_cache_unpin` through a list, for so many turns at most: the nodes that it
meets. -/
def listEntriesFrom (k : CacheLinks N) (l : CacheList) : ℕ → CacheList ⊕ N → Option (List N)
  | _, .inl l' => if l' = l then some [] else none
  | 0, .inr _ => none
  | fuel + 1, .inr b => (listEntriesFrom k l fuel (k.next (.inr b))).map (b :: ·)

def listEntries (k : CacheLinks N) (l : CacheList) (fuel : ℕ) : Option (List N) :=
  listEntriesFrom k l fuel (k.next (.inl l))

/-! ### The lists behind the writes -/

/-- What `addNodeLinks` does to the lists. -/
def addNodeLists (n : CacheNode) (b : N) (new : BtreeNodeCacheState) (lists : CacheList → List N) :
    CacheList → List N :=
  match new with
  | .none => lists
  | .clean => putLast lists (.clean n.pinned) b
  | .dirty => putLast lists (.dirty n.pinned) b
  | .freeable => putFirst lists .freeable b
  | .freed => putLast lists (if n.pcpu then .freedPcpu else .freedNonpcpu) b

theorem addNodeLinks_shelved {k : CacheLinks N} {lists : CacheList → List N}
    {place : N → Option CacheList} (h : Shelved k lists place) {b : N} (hb : place b = none)
    (n : CacheNode) (new : BtreeNodeCacheState) :
    ∃ place', Shelved (addNodeLinks n b new k) (addNodeLists n b new lists) place' := by
  cases new with
  | none => exact ⟨_, h⟩
  | clean => exact ⟨_, listAddTail_shelved h hb _⟩
  | dirty => exact ⟨_, listAddTail_shelved h hb _⟩
  | freeable => exact ⟨_, listAdd_shelved h hb _⟩
  | freed => exact ⟨_, listAddTail_shelved h hb _⟩

omit [DecidableEq N] in
theorem takeOne_map_ok {bc : BtreeCache N} {n : ℕ} {f : ℕ → BtreeCache N}
    (h : (takeOne n).map f = .ok bc) : ∃ nr, bc = f nr := by
  cases n with
  | zero => cases h
  | succ n =>
    cases h
    exact ⟨n, rfl⟩

omit [DecidableEq N] in
theorem uncountNode_lists {bc bc' : BtreeCache N} {b : N} {old : BtreeNodeCacheState}
    (h : uncountNode bc b old = .ok bc') : bc'.lists = bc.lists ∧ bc'.nodes = bc.nodes := by
  cases old with
  | none =>
    cases h
    exact ⟨rfl, rfl⟩
  | freed =>
    cases h
    exact ⟨rfl, rfl⟩
  | _ =>
    obtain ⟨nr, rfl⟩ := takeOne_map_ok h
    exact ⟨rfl, rfl⟩

theorem countNode_lists {bc bc' : BtreeCache N} {b : N} {new : BtreeNodeCacheState}
    (h : countNode bc b new = .ok bc') : bc'.lists = addNodeLists (bc.nodes b) b new bc.lists := by
  cases new with
  | freed =>
    rw [countNode, bch2BtreeNodeDataFree] at h
    dsimp only at h
    split_ifs at h
    · cases h
    · cases h
      simp [addNodeLists]
  | _ =>
    cases h
    rfl

/-- A transition takes the node off its list and puts it on that of its new state. -/
theorem transition_lists {bc bc' : BtreeCache N} (h : CacheOk bc) {b : N}
    {new : BtreeNodeCacheState} {inserted ret : ℤ}
    (hok : bch2BtreeNodeTransitionStateLocked bc b new inserted = .ok (ret, bc'))
    (hne : (bc.nodes b).cacheState ≠ new) :
    ∃ new' ret' bc₁, rehashNode bc b (bc.nodes b).cacheState new inserted = .ok (new', ret', bc₁) ∧
      bc'.lists = addNodeLists (bc₁.nodes b) b new' (takeOff bc.lists b) := by
  obtain ⟨new', ret', bc₁, v, hrehash, -, -, hlists₁⟩ :=
    rehashNode_ok h.hash (b := b) rfl new inserted
  refine ⟨new', ret', bc₁, hrehash, ?_⟩
  rw [bch2BtreeNodeTransitionStateLocked] at hok
  dsimp only at hok
  rw [if_neg hne] at hok
  split_ifs at hok
  rw [hrehash, Except.bind_ok] at hok
  cases huncount : uncountNode bc₁ b (bc.nodes b).cacheState with
  | error e =>
    rw [huncount] at hok
    cases hok
  | ok bc₂ =>
    obtain ⟨hlists₂, hnodes₂⟩ := uncountNode_lists huncount
    rw [huncount, Except.bind_ok] at hok
    cases hcount : countNode { bc₂ with lists := takeOff bc₂.lists b } b new' with
    | error e =>
      rw [hcount] at hok
      cases hok
    | ok bc₃ =>
      rw [hcount, Except.bind_ok] at hok
      cases hok
      rw [BtreeCache.setNode_lists, countNode_lists hcount]
      simp only [hnodes₂, hlists₂, hlists₁.lists]

section Calls

variable {bc bc' : BtreeCache N} {k : CacheLinks N} {place : N → Option CacheList}

theorem transitionLinks_shelved (h : CacheOk bc) (hk : Shelved k bc.lists place) {b : N}
    {new : BtreeNodeCacheState} {inserted ret : ℤ}
    (hok : bch2BtreeNodeTransitionStateLocked bc b new inserted = .ok (ret, bc')) :
    ∃ place', Shelved (transitionLinks bc b new inserted k) bc'.lists place' := by
  rw [transitionLinks]
  split_ifs with hsame
  · rw [bch2BtreeNodeTransitionStateLocked] at hok
    dsimp only at hok
    rw [if_pos hsame] at hok
    cases hok
    exact ⟨place, hk⟩
  · obtain ⟨new', ret', bc₁, hrehash, hlists⟩ := transition_lists h hok hsame
    rw [hrehash, hlists]
    exact addNodeLinks_shelved (listDelInit_shelved hk b) (Function.update_self ..) _ _

/-- A node that is moved to the end of another list. -/
theorem listMoveTail_shelved (hk : Shelved k bc.lists place) (b : N) (l : CacheList) :
    Shelved (listMoveTail k (.inr b) (.inl l)) (putLast (takeOff bc.lists b) l b)
      (Function.update (Function.update place b none) b (some l)) := by
  rw [listMoveTail_eq k Sum.inr_ne_inl]
  exact listAddTail_shelved (listDelInit_shelved hk b) (Function.update_self ..) l

theorem pinLinks_shelved (hk : Shelved k bc.lists place) {b : N} {root : Bool}
    (hok : bch2NodePin bc b root = .ok bc') :
    ∃ place', Shelved (pinLinks bc b root k) bc'.lists place' := by
  rw [bch2NodePin] at hok
  rw [pinLinks]
  dsimp only at hok
  split_ifs with hpin
  · rw [if_pos hpin] at hok
    cases hstate : (bc.nodes b).cacheState with
    | clean =>
      simp only [hstate] at hok
      obtain ⟨nr, rfl⟩ := takeOne_map_ok hok
      exact ⟨_, listMoveTail_shelved hk b _⟩
    | dirty =>
      simp only [hstate] at hok
      obtain ⟨nr, rfl⟩ := takeOne_map_ok hok
      exact ⟨_, listMoveTail_shelved hk b _⟩
    | _ =>
      simp only [hstate] at hok
      cases hok
      exact ⟨place, hk⟩
  · rw [if_neg hpin] at hok
    cases hok
    exact ⟨place, hk⟩

/-- The links behind a call are those of the lists behind it. -/
theorem callLinks_shelved (h : CacheOk bc) (hk : Shelved k bc.lists place) {c : CacheCall N}
    (hok : cacheCall bc c = .ok bc') : ∃ place', Shelved (callLinks bc c k) bc'.lists place' := by
  have hmap : ∀ {x : Except CacheStop (ℤ × BtreeCache N)}, x.map Prod.snd = .ok bc' →
      ∃ ret, x = .ok (ret, bc') := by
    intro x hx
    cases x with
    | error e => cases hx
    | ok r =>
      cases hx
      exact ⟨r.1, rfl⟩
  cases c with
  | transition b new inserted =>
    obtain ⟨ret, hok⟩ := hmap hok
    exact transitionLinks_shelved h hk hok
  | pin b root => exact pinLinks_shelved hk hok
  | unpin =>
    cases hok
    exact ⟨_, listSpliceTailInit_shelved (listSpliceTailInit_shelved hk (by simp)) (by simp)⟩
  | setDirty b inserted =>
    rw [cacheCall, bch2BtreeNodeSetDirty] at hok
    rw [callLinks, setDirtyLinks]
    dsimp only at hok ⊢
    split_ifs at hok ⊢
    · cases hok
      exact ⟨place, hk⟩
    · obtain ⟨ret, hok⟩ := hmap hok
      have hdirty : CacheOk (bc.setNode b { bc.nodes b with dirty := true }) :=
        h.setNode rfl rfl (fun _ => rfl) rfl
      exact transitionLinks_shelved hdirty hk hok
    · cases hok
      exact ⟨place, hk⟩
  | writeDoneClean b inserted =>
    rw [cacheCall, bch2BtreeNodeWriteDoneClean] at hok
    rw [callLinks, writeDoneCleanLinks]
    split_ifs at hok ⊢
    · obtain ⟨ret, hok⟩ := hmap hok
      exact transitionLinks_shelved h hk hok
    · cases hok
      exact ⟨place, hk⟩

end Calls

/-! ### Runs -/

/-- The runs of the cache, with its links. -/
inductive LinkedRun : BtreeCache N → CacheLinks N → Prop
  | init (nodes : N → CacheNode) (hfresh : ∀ b, (nodes b).cacheState = .none) :
    LinkedRun (bch2FsBtreeCacheInitEarly nodes) initCacheLinks
  | call {bc bc' : BtreeCache N} {k : CacheLinks N} (c : CacheCall N) (run : LinkedRun bc k)
    (hcall : cacheCall bc c = .ok bc') : LinkedRun bc' (callLinks bc c k)
  | other {bc : BtreeCache N} {k : CacheLinks N} (b : N) (n : CacheNode) (run : LinkedRun bc k)
    (hkept : NodeKept (bc.nodes b) n) : LinkedRun (bc.setNode b n) k

theorem LinkedRun.cacheRun {bc : BtreeCache N} {k : CacheLinks N} (hrun : LinkedRun bc k) :
    CacheRun bc := by
  induction hrun with
  | init nodes hfresh => exact .init nodes hfresh
  | call c run hcall ih => exact .call c ih hcall
  | other b n run hkept ih => exact .other b n ih hkept

/-- In every run the links are those of the lists. -/
theorem LinkedRun.shelved {bc : BtreeCache N} {k : CacheLinks N} (hrun : LinkedRun bc k) :
    ∃ place, Shelved k bc.lists place := by
  induction hrun with
  | init nodes hfresh =>
    refine ⟨_, (cacheOk_init hfresh).lists.placed, fun l => ?_, fun b _ => ?_⟩
    · exact ⟨rfl, rfl⟩
    · exact ⟨rfl, rfl⟩
  | call c run hcall ih =>
    obtain ⟨place, hk⟩ := ih
    exact callLinks_shelved run.cacheRun.cacheOk hk hcall
  | other b n run hkept ih => exact ih

omit [DecidableEq N] in
theorem listEntries_ring {k : CacheLinks N} {l : CacheList} {a : CacheList ⊕ N} {es : List N}
    (h : k.Seg a (es.map .inr) (.inl l)) {fuel : ℕ} (hfuel : es.length ≤ fuel) :
    listEntriesFrom k l fuel (k.next a) = some es := by
  induction es generalizing a fuel with
  | nil =>
    have ha : k.next a = .inl l := h.1
    rw [ha]
    cases fuel <;> exact if_pos rfl
  | cons b es ih =>
    obtain ⟨fuel, rfl⟩ : ∃ m, fuel = m + 1 := ⟨fuel - 1, by simp at hfuel; omega⟩
    obtain ⟨hb, hrest⟩ := h
    rw [hb.1, listEntriesFrom, ih hrest (by simpa using hfuel)]
    rfl

/-- In every run of the cache, the links forward lead from the head of a list through the nodes that
are in its state and pin class, each of them once, and back to the head, the links back lead the
other way round, `list_count_nodes` returns the number of these nodes, which is what their counter
says, and a node that is in no state with a list is linked to itself. -/
theorem cacheLinks_run {bc : BtreeCache N} {k : CacheLinks N} (hrun : LinkedRun bc k) :
    (∀ l, ∃ es : List N, es.Nodup ∧ (∀ b, b ∈ es ↔ (bc.nodes b).list = some l) ∧
      (∀ fuel ≥ es.length, listEntries k l fuel = some es ∧
        listCountNodes k (.inl l) fuel = some es.length) ∧
      (es.map Sum.inr ++ [Sum.inl l]).map k.prev = .inl l :: es.map Sum.inr ∧
      ∀ n, bc.counter l = some n → n = es.length) ∧
    ∀ b, (bc.nodes b).list = none → k.next (.inr b) = .inr b ∧ k.prev (.inr b) = .inr b := by
  obtain ⟨place, hk⟩ := hrun.shelved
  obtain ⟨⟨hplaced, hcounted⟩, -⟩ := hrun.cacheRun.cacheOk
  refine ⟨fun l => ⟨bc.lists l, hplaced.nodup l, fun b => hplaced.mem_iff b l,
    fun fuel hfuel => ⟨listEntries_ring (hk.ring l) hfuel, listCountNodes_ring hk l hfuel⟩,
    (hk.ring l).map_prev, hcounted l⟩, fun b hb => ?_⟩
  have hoff : place b = none := by
    by_contra hne
    obtain ⟨l, hl⟩ := Option.ne_none_iff_exists'.mp hne
    have hmem := (hplaced.mem_iff b l).mp ((hk.on.mem_iff b l).mpr hl)
    rw [hb] at hmem
    cases hmem
  exact hk.off b hoff

/-- A node is entered as clean and pinned: the links lead to it. -/
theorem cacheLinks_run_pinned : ∃ (bc : BtreeCache ℕ) (k : CacheLinks ℕ), LinkedRun bc k ∧
    (bc.nodes 0).list = some (.clean true) ∧ ∃ es : List ℕ, 0 ∈ es ∧
      listEntries k (.clean true) es.length = some es := by
  have hfresh : ∀ b : ℕ, ((fun _ => freshNode) b).cacheState = .none := fun _ => rfl
  have hclean := LinkedRun.call (.transition 0 .clean 0) (.init _ hfresh) rfl
  have hpinned := LinkedRun.call (.pin 0 false) hclean rfl
  obtain ⟨es, -, hmem, hentries, -⟩ := (cacheLinks_run hpinned).1 (.clean true)
  exact ⟨_, _, hpinned, rfl, es, (hmem 0).mpr rfl, (hentries es.length (Nat.le_refl _)).1⟩

end Subvol

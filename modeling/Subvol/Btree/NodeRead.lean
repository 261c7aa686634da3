import Subvol.Btree.NodeWrite

/-!
# What a node read finds

`bch2_btree_node_read` takes the sets of a node whose journal sequence is not above the one it is
given, each into one of the four places of its sort iterator, and leaves a node with the newest
live keys of these sets. A fifth set that holds keys fails an assertion.

## Main definitions

* `readKeeps`, `readSets`: the sets that a read takes.
* `ReadReady`: the device answers the read.

## Main results

* `NodeTied.nodeRead`: the outcome of a read of a node that has been written.
* `NodeTied.nodeRead_zero`: the same without a bound on the journal sequence.
-/

namespace Subvol

open Lib

/-- Whether a read takes a set. -/
def readKeeps (replaySeq : ℕ) (s : DiskBset) : Bool :=
  decide (replaySeq = 0 ∨ s.journalSeq ≤ replaySeq)

/-- The sets that a read takes. -/
def readSets (replaySeq : ℕ) (disk : NodeDisk) : List DiskBset :=
  disk.bsets.filter (readKeeps replaySeq)

/-- The sets that hold keys. -/
def nonEmptySets (bsets : List DiskBset) : List DiskBset := bsets.filter fun s => !s.keys.isEmpty

/-- The device is there and answers the read. -/
structure ReadReady (io : NodeIo) (b : BtreeNode) : Prop where
  online : io.online = true
  buffer : sectorWords ≤ b.bufU64s
  dev : b.ptrDev = some io.devIdx
  inFile : io.inFile = true
  taken : io.taken = true

/-- The loop never makes a node itself. -/
theorem readLoop_ne_ok {h : NodeHeader} {replaySeq limit : ℕ} {sets : List DiskBset}
    (st : ReadState) (b : BtreeNode) : readLoop h replaySeq limit st sets ≠ .inr (.ok b) := by
  induction sets generalizing st with
  | nil =>
    intro hloop
    cases hloop
  | cons s sets ih =>
    intro hloop
    rw [readLoop] at hloop
    split_ifs at hloop
    all_goals first
      | exact ih _ hloop
      | cases hloop

/-- A check that would have ended differently was passed. -/
theorem ite_eq_of_ne {α : Type*} {c : Prop} [Decidable c] {x y z : α}
    (h : (if c then x else y) = z) (hne : x ≠ z) : ¬c ∧ y = z := by
  by_cases hc : c
  · exact absurd ((if_pos hc).symm.trans h) hne
  · exact ⟨hc, (if_neg hc).symm.trans h⟩

/-- A read that returns a node went through the loop. -/
theorem nodeRead_eq_ok {io : NodeIo} {b b' : BtreeNode} {disk : NodeDisk} {replaySeq : ℕ}
    (h : bch2BtreeNodeRead io b disk replaySeq = .ok b') :
    ∃ hdr limit st, readLoop hdr replaySeq limit {} disk.bsets = .inl st ∧
      b' = readNode { b with header := hdr } st := by
  rw [bch2BtreeNodeRead] at h
  iterate 4 obtain ⟨-, h⟩ := ite_eq_of_ne h (by simp)
  split at h
  · cases h
  · dsimp only at h
    iterate 5 obtain ⟨-, h⟩ := ite_eq_of_ne h (by simp)
    split at h
    · rename_i hloop
      rw [h] at hloop
      exact absurd hloop (readLoop_ne_ok _ _)
    · rename_i st hloop
      cases h
      exact ⟨_, _, st, hloop, rfl⟩

theorem readReady_of_ok {io : NodeIo} {b b' : BtreeNode} {disk : NodeDisk} {replaySeq : ℕ}
    (h : bch2BtreeNodeRead io b disk replaySeq = .ok b') : ReadReady io b := by
  rw [bch2BtreeNodeRead] at h
  by_cases honline : (!io.online) = true ∨ b.bufU64s < sectorWords
  · rw [if_pos honline] at h
    cases h
  by_cases hnone : b.ptrDev = none
  · rw [if_neg honline, if_pos hnone] at h
    cases h
  by_cases hdev : b.ptrDev ≠ some io.devIdx
  · rw [if_neg honline, if_neg hnone, if_pos hdev] at h
    cases h
  by_cases hfile : (!io.inFile) = true ∨ (!io.taken) = true
  · rw [if_neg honline, if_neg hnone, if_neg hdev, if_pos hfile] at h
    cases h
  simp only [not_or, not_lt, Bool.not_eq_true', Bool.not_eq_false, ne_eq, not_not]
    at honline hdev hfile
  exact ⟨honline.1, honline.2, hdev, hfile.1, hfile.2⟩

/-! ### The loop over the sets -/

theorem readKeyValid_of {h : NodeHeader} {k : BkeyPacked} (hk : KeyValid h k) :
    readKeyValid h k = true := by
  by_cases htype : k.k.type = keyTypeBtreePtrV2
  · simp [readKeyValid, hk.min_le, hk.le_max, (hk.ptr htype).1]
  · simp [readKeyValid, hk.min_le, hk.le_max, htype]

theorem readKeysValid_of {h : NodeHeader} {keys : List BkeyPacked} (hs : PosSorted keys)
    (hv : ∀ k ∈ keys, KeyValid h k) : readKeysValid h keys = true := by
  induction keys with
  | nil => rfl
  | cons k keys ih =>
    obtain ⟨hk, hrest⟩ := List.pairwise_cons.mp hs
    have hkv := readKeyValid_of (hv k (List.mem_cons_self ..))
    have ih := ih hrest fun x hx => hv x (List.mem_cons_of_mem _ hx)
    cases keys with
    | nil => exact hkv
    | cons k' keys =>
      have hlt : k.pos < k'.pos := hk k' (List.mem_cons_self ..)
      simp only [readKeysValid, hkv, ih, hlt, decide_true, Bool.and_self]

theorem map_readKey {h : NodeHeader} {keys : List BkeyPacked} (hv : ∀ k ∈ keys, KeyValid h k) :
    keys.map readKey = keys := by
  conv_rhs => rw [← List.map_id keys]
  refine List.map_congr_left fun k hk => ?_
  rw [readKey]
  split_ifs with htype
  · rw [((hv k hk).ptr htype).2]
    rfl
  · rfl

/-- A set on disk that the loop accepts. -/
structure SetReadable (h : NodeHeader) (s : DiskBset) : Prop where
  sorted : PosSorted s.keys
  valid : ∀ k ∈ s.keys, KeyValid h k
  seq : s.seq = h.seq
  sectors_pos : 0 < s.sectors

theorem usedNr_append (st : ReadState) (keys : List BkeyPacked) (w m : ℕ) :
    ReadState.usedNr ⟨st.used ++ [keys], w, m⟩ =
      st.usedNr + if keys.isEmpty then 0 else 1 := by
  simp only [ReadState.usedNr, List.filter_append, List.length_append]
  cases keys <;> simp

/-- One turn of the loop. -/
theorem readLoop_cons {h : NodeHeader} {replaySeq limit : ℕ} (st : ReadState) {s : DiskBset}
    {rest : List DiskBset} (hs : SetReadable h s) (hlimit : st.written < limit) :
    readLoop h replaySeq limit st (s :: rest) =
      if readKeeps replaySeq s = false then
        if st.written = 0 then .inr (.error (-16))
        else readLoop h replaySeq limit { st with written := st.written + s.sectors } rest
      else if sortIterStackSize ≤ st.usedNr then .inr .panic
      else
        readLoop h replaySeq limit
          ⟨st.used ++ [s.keys], st.written + s.sectors, max st.maxJournalSeq s.journalSeq⟩ rest := by
  have hstop : ¬(¬st.written < limit ∨ (st.written ≠ 0 ∧ s.seq ≠ h.seq)) := by
    simp [hlimit, hs.seq]
  have hdrop : (replaySeq ≠ 0 ∧ s.journalSeq > replaySeq) ↔ readKeeps replaySeq s = false := by
    simp [readKeeps]
  rw [readLoop, if_neg hstop, if_congr hdrop rfl rfl, readKeysValid_of hs.sorted hs.valid,
    map_readKey hs.valid]
  rfl

/-- The loop over sets behind the first one, which all hold keys. -/
theorem readLoop_tail {h : NodeHeader} (replaySeq limit : ℕ) {rest : List DiskBset}
    (st : ReadState) (hs : ∀ s ∈ rest, SetReadable h s) (hne : ∀ s ∈ rest, s.keys ≠ [])
    (hwritten : st.written ≠ 0) (hsum : st.written + (rest.map DiskBset.sectors).sum = limit) :
    (st.usedNr + (rest.filter (readKeeps replaySeq)).length ≤ sortIterStackSize →
      ∃ m, readLoop h replaySeq limit st rest =
        .inl ⟨st.used ++ (rest.filter (readKeeps replaySeq)).map DiskBset.keys, limit, m⟩) ∧
    (sortIterStackSize < st.usedNr + (rest.filter (readKeeps replaySeq)).length →
      st.usedNr ≤ sortIterStackSize → readLoop h replaySeq limit st rest = .inr .panic) := by
  induction rest generalizing st with
  | nil =>
    refine ⟨fun _ => ⟨st.maxJournalSeq, ?_⟩, fun hlt hle => ?_⟩
    · obtain rfl : st.written = limit := by simpa using hsum
      simp [readLoop]
    · simp at hlt
      omega
  | cons s rest ih =>
    have hsr := hs s (List.mem_cons_self ..)
    have hpos := hsr.sectors_pos
    rw [List.map_cons, List.sum_cons] at hsum
    have hlimit : st.written < limit := by omega
    have hs' : ∀ t ∈ rest, SetReadable h t := fun t ht => hs t (List.mem_cons_of_mem _ ht)
    have hne' : ∀ t ∈ rest, t.keys ≠ [] := fun t ht => hne t (List.mem_cons_of_mem _ ht)
    rw [readLoop_cons st hsr hlimit]
    by_cases hkeep : readKeeps replaySeq s = true
    · rw [if_neg (by simp [hkeep]), List.filter_cons_of_pos hkeep, List.length_cons]
      by_cases hfull : sortIterStackSize ≤ st.usedNr
      · rw [if_pos hfull]
        exact ⟨fun hle => by omega, fun _ _ => rfl⟩
      · rw [if_neg hfull]
        have hused := usedNr_append st s.keys (st.written + s.sectors)
          (max st.maxJournalSeq s.journalSeq)
        rw [if_neg (by simpa using hne s (List.mem_cons_self ..))] at hused
        obtain ⟨hok, hpanic⟩ := ih ⟨st.used ++ [s.keys], st.written + s.sectors,
          max st.maxJournalSeq s.journalSeq⟩ hs' hne' (by dsimp only; omega)
          (by dsimp only; omega)
        rw [hused] at hok hpanic
        refine ⟨fun hle => ?_, fun hlt _ => hpanic (by omega) (by omega)⟩
        obtain ⟨m, hm⟩ := hok (by omega)
        exact ⟨m, by rw [hm]; simp⟩
    · have hkeep' : readKeeps replaySeq s = false := by simpa using hkeep
      rw [if_pos hkeep', if_neg hwritten, List.filter_cons_of_neg hkeep]
      exact ih { st with written := st.written + s.sectors } hs' hne'
        (by dsimp only; omega) (by dsimp only; omega)

/-- The loop over all sets. -/
theorem readLoop_all {h : NodeHeader} {replaySeq limit : ℕ} {first : DiskBset}
    {rest : List DiskBset} (hs : ∀ s ∈ first :: rest, SetReadable h s)
    (hne : ∀ s ∈ rest, s.keys ≠ []) (hkeep : readKeeps replaySeq first = true)
    (hsum : ((first :: rest).map DiskBset.sectors).sum = limit) :
    ((nonEmptySets ((first :: rest).filter (readKeeps replaySeq))).length ≤ sortIterStackSize →
      ∃ m, readLoop h replaySeq limit {} (first :: rest) =
        .inl ⟨((first :: rest).filter (readKeeps replaySeq)).map DiskBset.keys, limit, m⟩) ∧
    (sortIterStackSize < (nonEmptySets ((first :: rest).filter (readKeeps replaySeq))).length →
      readLoop h replaySeq limit {} (first :: rest) = .inr .panic) := by
  have hsr := hs first (List.mem_cons_self ..)
  have hpos := hsr.sectors_pos
  rw [List.map_cons, List.sum_cons] at hsum
  have hlimit : (0 : ℕ) < limit := by omega
  have hfilter : nonEmptySets (rest.filter (readKeeps replaySeq)) =
      rest.filter (readKeeps replaySeq) := by
    refine List.filter_eq_self.mpr fun s hs' => ?_
    simpa using hne s (List.mem_of_mem_filter hs')
  have hused : ReadState.usedNr ⟨[] ++ [first.keys], 0 + first.sectors,
      max 0 first.journalSeq⟩ = if first.keys.isEmpty then 0 else 1 :=
    (usedNr_append {} first.keys _ _).trans (Nat.zero_add _)
  have hcount : (nonEmptySets ((first :: rest).filter (readKeeps replaySeq))).length =
      (if first.keys.isEmpty then 0 else 1) + (rest.filter (readKeeps replaySeq)).length := by
    rw [List.filter_cons_of_pos hkeep]
    conv_rhs => rw [← hfilter]
    cases hk : first.keys <;> simp [nonEmptySets, hk, Nat.add_comm]
  obtain ⟨hok, hpanic⟩ := readLoop_tail (h := h) replaySeq limit
    ⟨[] ++ [first.keys], 0 + first.sectors, max 0 first.journalSeq⟩
    (fun s hs' => hs s (List.mem_cons_of_mem _ hs')) hne (by dsimp only; omega)
    (by dsimp only; omega)
  rw [hused, ← hcount] at hok hpanic
  rw [readLoop_cons {} hsr hlimit, if_neg (by simp [hkeep]), if_neg (by decide)]
  refine ⟨fun hle => ?_, fun hlt => hpanic hlt ?_⟩
  · obtain ⟨m, hm⟩ := hok hle
    refine ⟨m, hm.trans ?_⟩
    rw [List.filter_cons_of_pos hkeep]
    rfl
  · split_ifs <;> decide

/-! ### The read of a node -/

namespace NodeTied

variable {b : BtreeNode} {disk : NodeDisk} {loose : Set Bpos} {io : NodeIo}

theorem setReadable (h : NodeTied b disk loose) : ∀ s ∈ disk.bsets, SetReadable b.header s :=
  fun s hs => ⟨h.sectors.sorted s hs, h.sectors.valid s hs, h.sectors.seq s hs,
    h.sectors.sectors_pos s hs⟩

theorem bsets_ne (h : NodeTied b disk loose) (hw : b.written ≠ 0) : disk.bsets ≠ [] := by
  intro hnil
  have := h.sectors.sum
  rw [hnil] at this
  exact hw this.symm

/-- The checks of the reader on the header pass, and the loop decides. -/
theorem nodeRead_eq (h : NodeTied b disk loose) (hio : ReadReady io b) (hw : b.written ≠ 0)
    (replaySeq : ℕ) : bch2BtreeNodeRead io b disk replaySeq =
      match readLoop b.header replaySeq b.written {} disk.bsets with
      | .inr res => res
      | .inl st => .ok (readNode b st) := by
  have hsw : b.sectorsWritten ≠ 0 := by
    rw [h.sectors.sectorsWritten]
    exact hw
  have hfp := h.shape.format_pos
  have hfl := h.shape.format_le
  rw [bch2BtreeNodeRead, if_neg (by simp [hio.online, hio.buffer]), if_neg (by simp [hio.dev]),
    if_neg (by simp [hio.dev]), if_neg (by simp [hio.inFile, hio.taken]), h.sectors.header hw]
  have hlimit : (if b.sectorsWritten ≠ 0 then b.sectorsWritten
      else b.bufU64s / sectorWords) = b.written := by
    rw [if_pos hsw, h.sectors.sectorsWritten]
  dsimp only
  rw [if_neg (by simp), if_neg (by simp), if_neg (by simp), if_neg (by omega), hlimit]
  exact if_neg (by simpa using h.sectors.le)

/-- The outcome of a read: the sets it takes have to fit the sort iterator. -/
theorem nodeRead (h : NodeTied b disk loose) (hio : ReadReady io b) (hw : b.written ≠ 0)
    {replaySeq : ℕ} (hkeep : (disk.bsets.head?.map (readKeeps replaySeq)) = some true) :
    ((nonEmptySets (readSets replaySeq disk)).length ≤ sortIterStackSize →
      ∃ m, bch2BtreeNodeRead io b disk replaySeq =
        .ok (readNode b ⟨(readSets replaySeq disk).map DiskBset.keys, b.written, m⟩)) ∧
    (sortIterStackSize < (nonEmptySets (readSets replaySeq disk)).length →
      bch2BtreeNodeRead io b disk replaySeq = .panic) := by
  rw [h.nodeRead_eq hio hw, readSets]
  have hs := h.setReadable
  have htail := h.sectors.tail_ne
  have hsum := h.sectors.sum
  cases hcases : disk.bsets with
  | nil => exact absurd hcases (h.bsets_ne hw)
  | cons first rest =>
    rw [hcases] at hs htail hsum hkeep
    obtain ⟨hok, hpanic⟩ := readLoop_all hs htail (Option.some.inj hkeep) hsum
    refine ⟨fun hle => ?_, fun hlt => by rw [hpanic hlt]⟩
    obtain ⟨m, hm⟩ := hok hle
    exact ⟨m, by rw [hm]⟩

/-- A first set that is not taken is an error. -/
theorem nodeRead_error (h : NodeTied b disk loose) (hio : ReadReady io b) (hw : b.written ≠ 0)
    {replaySeq : ℕ} (hkeep : (disk.bsets.head?.map (readKeeps replaySeq)) = some false) :
    bch2BtreeNodeRead io b disk replaySeq = .error (-16) := by
  rw [h.nodeRead_eq hio hw]
  have hs := h.setReadable
  cases hcases : disk.bsets with
  | nil => exact absurd hcases (h.bsets_ne hw)
  | cons first rest =>
    rw [hcases] at hs hkeep
    rw [readLoop_cons {} (hs first (List.mem_cons_self ..)) (Nat.pos_of_ne_zero hw),
      if_pos (Option.some.inj hkeep)]
    rfl

end NodeTied

/-- The live keys of a node that was read are the newest live keys of the sets taken. -/
theorem readNode_holds {b : BtreeNode} {sets : List (List BkeyPacked)} {w m : ℕ}
    (hs : ∀ keys ∈ sets, PosSorted keys) {v : Bool} {k : BkeyPacked} :
    (readNode b ⟨sets, w, m⟩).Holds v k ↔
      v = decide (btreeNodeU64s - bsetHeaderU64s < w * sectorWords) ∧
      ∃ k₀, newestAt sets.flatten k₀.pos = some k₀ ∧ k₀.deleted = false ∧ k = k₀.mark true := by
  constructor
  · rintro ⟨s, hs', hw, hk, hlive⟩
    obtain rfl := List.mem_singleton.mp hs'
    obtain ⟨k₀, hk₀, rfl⟩ := List.mem_map.mp hk
    obtain ⟨hnew, hl⟩ := (mem_keySortFixOverlapping hs).mp hk₀
    exact ⟨hw.symm, k₀, hnew, hl, rfl⟩
  · rintro ⟨rfl, k₀, hnew, hlive, rfl⟩
    exact ⟨_, List.mem_singleton_self _, rfl,
      List.mem_map.mpr ⟨k₀, (mem_keySortFixOverlapping hs).mpr ⟨hnew, hlive⟩, rfl⟩, hlive⟩

theorem readNode_shape {b : BtreeNode} {sets : List (List BkeyPacked)} {w m : ℕ}
    (h : NodeShape b) (hs : ∀ keys ∈ sets, PosSorted keys)
    (hv : ∀ keys ∈ sets, ∀ k ∈ keys, KeyValid b.header k) :
    NodeShape (readNode b ⟨sets, w, m⟩) := by
  refine ⟨by simp [readNode], ?_, ?_, List.pairwise_singleton _ _, List.pairwise_singleton _ _,
    ?_, by simp [readNode], by simp [readNode], by simp [readNode], h.format_pos, h.format_le⟩
  · intro s hs'
    obtain rfl := Option.some.inj hs'
    show btreeNodeU64s - bsetHeaderU64s < sectorWords
    decide
  · intro s hs'
    obtain rfl := List.mem_singleton.mp hs'
    exact (posSorted_keySortFixOverlapping hs).map fun _ => rfl
  · intro s hs' k hk
    obtain rfl := List.mem_singleton.mp hs'
    obtain ⟨k₀, hk₀, rfl⟩ := List.mem_map.mp hk
    obtain ⟨hnew, -⟩ := (mem_keySortFixOverlapping hs).mp hk₀
    obtain ⟨keys, hkeys, hmem⟩ := List.mem_flatten.mp (newestAt_pos hnew).1
    exact (hv keys hkeys k₀ hmem).mark true

theorem readNode_liveMap {b : BtreeNode} {sets : List (List BkeyPacked)} {w m : ℕ}
    (h : NodeShape b) (hs : ∀ keys ∈ sets, PosSorted keys)
    (hv : ∀ keys ∈ sets, ∀ k ∈ keys, KeyValid b.header k) (p : Bpos) :
    (readNode b ⟨sets, w, m⟩).liveMap p = viewOf sets.flatten p := by
  refine Option.ext fun x => ?_
  rw [(readNode_shape h hs hv).liveMap_iff, viewOf_eq_some]
  constructor
  · rintro ⟨v, k, hk, rfl, rfl⟩
    obtain ⟨-, k₀, hnew, hlive, rfl⟩ := (readNode_holds hs).mp hk
    exact ⟨k₀, hnew, hlive, rfl⟩
  · rintro ⟨k, hnew, hlive, rfl⟩
    obtain ⟨-, hpos⟩ := newestAt_pos hnew
    refine ⟨_, k.mark true, (readNode_holds hs).mpr ⟨rfl, k, ?_, hlive, rfl⟩, rfl, hpos⟩
    rwa [hpos]

namespace NodeTied

variable {b : BtreeNode} {disk : NodeDisk} {loose : Set Bpos}

theorem sorted_keys (h : NodeTied b disk loose) :
    ∀ keys ∈ disk.bsets.map DiskBset.keys, PosSorted keys := by
  intro keys hkeys
  obtain ⟨s, hs, rfl⟩ := List.mem_map.mp hkeys
  exact h.sectors.sorted s hs

theorem valid_keys (h : NodeTied b disk loose) :
    ∀ keys ∈ disk.bsets.map DiskBset.keys, ∀ k ∈ keys, KeyValid b.header k := by
  intro keys hkeys
  obtain ⟨s, hs, rfl⟩ := List.mem_map.mp hkeys
  exact h.sectors.valid s hs

theorem flatten_keys (disk : NodeDisk) :
    (disk.bsets.map DiskBset.keys).flatten = diskKeys disk := by
  rw [diskKeys, List.flatMap_def]

/-- A node that was read back has the invariant again. -/
theorem reload (h : NodeTied b disk loose) (m : ℕ) :
    NodeInv (readNode b ⟨disk.bsets.map DiskBset.keys, b.written, m⟩) disk := by
  have hholds := fun v k => readNode_holds (b := b) (w := b.written) (m := m) h.sorted_keys
    (v := v) (k := k)
  rw [flatten_keys] at hholds
  refine ⟨readNode_shape h.shape h.sorted_keys h.valid_keys, h.sectors.congr rfl rfl rfl rfl, rfl,
    ?_, ?_, ?_⟩
  · intro k hk
    obtain ⟨-, k₀, hnew, hlive, rfl⟩ := (hholds true k).mp hk
    exact ⟨viewOf_eq_some.mpr ⟨k₀, hnew, hlive, rfl⟩, rfl⟩
  · intro p hp
    obtain ⟨x, hx⟩ := Option.ne_none_iff_exists'.mp hp
    obtain ⟨k, hnew, hlive, -⟩ := viewOf_eq_some.mp hx
    obtain ⟨-, hpos⟩ := newestAt_pos hnew
    refine .inl ⟨_, k.mark true, (hholds _ _).mpr ⟨rfl, k, ?_, hlive, rfl⟩, hpos, rfl⟩
    rwa [hpos]
  · intro w k _ _ x hx
    cases hx

/-- The outcome of a read without a bound on the journal sequence. -/
theorem nodeRead_zero (h : NodeTied b disk loose) {io : NodeIo} (hio : ReadReady io b)
    (hw : b.written ≠ 0) :
    ((nonEmptySets disk.bsets).length ≤ sortIterStackSize →
      ∃ b', bch2BtreeNodeRead io b disk 0 = .ok b' ∧ b'.liveMap = nodeView disk ∧
        NodeInv b' disk ∧ b'.bsetWritten b'.last = true) ∧
    (sortIterStackSize < (nonEmptySets disk.bsets).length →
      bch2BtreeNodeRead io b disk 0 = .panic) := by
  have hsets : readSets 0 disk = disk.bsets := List.filter_eq_self.mpr fun s _ => rfl
  have hkeep : disk.bsets.head?.map (readKeeps 0) = some true := by
    cases hcases : disk.bsets with
    | nil => exact absurd hcases (h.bsets_ne hw)
    | cons first rest => rfl
  obtain ⟨hok, hpanic⟩ := h.nodeRead hio hw hkeep
  rw [hsets] at hok hpanic
  refine ⟨fun hle => ?_, hpanic⟩
  obtain ⟨m, hm⟩ := hok hle
  refine ⟨_, hm, ?_, h.reload m, ?_⟩
  · funext p
    rw [readNode_liveMap h.shape h.sorted_keys h.valid_keys, flatten_keys, nodeView]
  · have hpos := Nat.pos_of_ne_zero hw
    refine decide_eq_true (lt_of_lt_of_le ?_ (Nat.le_mul_of_pos_left _ hpos))
    show btreeNodeU64s - bsetHeaderU64s < sectorWords
    decide

end NodeTied

end Subvol

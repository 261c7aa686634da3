import Subvol.Btree.Transform
import Subvol.Lib.HeapSort

/-!
# Sorting the whiteouts of a node

The whiteouts that wait for the next write are packed or unpacked keys at the end of the buffer of a
node, in the order in which they were pushed, the last one first. Before a write the pointers to
them are sorted by a heap sort and the keys are copied in the new order. Offsets are counted in
64-bit words from the start of the buffer, and a pointer is the offset of its key.

`none` is a failed assertion of the source, or a loop that does not end. Whether the assertions of
debug builds are there is a parameter.

## Main definitions

* `WhiteoutNode`, `sortBkeyPtrs`, `verifyNoDups`, `WhiteoutNode.bch2SortWhiteouts`.
* `WhiteoutKey`: the words of a whiteout.

## Main results

* `keyGe_iff`: stored keys are compared by their positions.
* `bch2SortWhiteouts_sorted`: the area has the same keys, in the order of their positions.
-/

namespace Subvol

open Lib

/-! ### The model -/

/-- The part of `btree` that the sort reads and writes: the key format, the words of the buffer and
how many of them, at its end, are whiteouts. -/
structure WhiteoutNode where
  format : BkeyFormat
  nrKeyBits : ℕ
  data : List (BitVec 64)
  whiteoutU64s : ℕ

/-- The loop of `bch2_sort_whiteouts` that collects the pointers. A key without words would keep it
at its place. -/
def whiteoutPtrs (words : List (BitVec 64)) (stop key : ℕ) : Option (List ℕ) :=
  if key = stop then some []
  else if key < bkeyPNext words key ∧ bkeyPNext words key ≤ stop then
    (whiteoutPtrs words stop (bkeyPNext words key)).map (key :: ·)
  else none
termination_by stop - key

/-- `bkey_start_pos`. -/
def BkeyHead.startPos (k : BkeyHead) : Bpos :=
  { k.p with offset := Fin.ofNat (2 ^ 64) (k.p.offset + 2 ^ 64 - k.size) }

/-- The loop of `verify_no_dups`. -/
def noDupsFrom (f : BkeyFormat) (words : List (BitVec 64)) (previous key : ℕ) : Bool :=
  if key = words.length then true
  else if key < bkeyPNext words key ∧ bkeyPNext words key ≤ words.length then
    match (wordsAt words previous).unpackHead f, (wordsAt words key).unpackHead f with
    | some left, some right =>
      decide (left.p < right.startPos) && noDupsFrom f words key (bkeyPNext words key)
    | _, _ => false
  else false
termination_by words.length - key

/-- `verify_no_dups`, over all the words. -/
def verifyNoDups (f : BkeyFormat) (words : List (BitVec 64)) : Bool :=
  words.isEmpty || noDupsFrom f words 0 (bkeyPNext words 0)

namespace WhiteoutNode

/-- `unwritten_whiteouts_start`. -/
def unwrittenWhiteoutsStart (b : WhiteoutNode) : ℕ := b.data.length - b.whiteoutU64s

/-- `unwritten_whiteouts_end`. -/
def unwrittenWhiteoutsEnd (b : WhiteoutNode) : ℕ := b.data.length

/-- The comparison of `sort_bkey_ptrs`: the left key is not before the right one. -/
def keyGe (b : WhiteoutNode) (l r : ℕ) : Bool :=
  (bch2BkeyCmpPacked b.format b.nrKeyBits (wordsAt b.data l) (wordsAt b.data r)).any
    fun c => decide (0 ≤ c)

/-- `sort_bkey_ptrs`. -/
def sortBkeyPtrs (b : WhiteoutNode) (ptrs : List ℕ) : List ℕ := HeapSort.sortList b.keyGe ptrs

/-- The words of the key at an offset. -/
def keyAt (b : WhiteoutNode) (o : ℕ) : List (BitVec 64) :=
  (b.data.drop o).take (wordsAt b.data o).u64s.toNat

/-- `bch2_sort_whiteouts`. -/
def bch2SortWhiteouts (debug : Bool) (b : WhiteoutNode) : Option WhiteoutNode :=
  if b.whiteoutU64s = 0 then some b
  else do
    let ptrs ← whiteoutPtrs b.data b.unwrittenWhiteoutsEnd b.unwrittenWhiteoutsStart
    let words := (b.sortBkeyPtrs ptrs).flatMap b.keyAt
    if words.length ≠ b.whiteoutU64s then none
    else if debug && !verifyNoDups b.format words then none
    else some { b with data := b.data.take b.unwrittenWhiteoutsStart ++ words }

end WhiteoutNode

/-! ### Keys in their words -/

/-- The words of one key, packed in the format of the node or unpacked. -/
structure WhiteoutKey (f : PackFormat) (k : List (BitVec 64)) : Prop where
  stored : StoredIn f.toBkeyFormat (wordsAt k 0)
  length : k.length = (wordsAt k 0).u64s.toNat
  unpacked : (wordsAt k 0).packed = false → bkeyU64s ≤ k.length

/-- The position of a key. -/
def keyPos (f : PackFormat) (k : List (BitVec 64)) : Option Bpos :=
  (wordsAt k 0).unpackPos f.toBkeyFormat

/-- The key covers no range. -/
def Sizeless (f : PackFormat) (k : List (BitVec 64)) : Prop :=
  ((wordsAt k 0).unpackHead f.toBkeyFormat).map BkeyHead.size = some 0

section Words

variable {f : PackFormat} {k data pre post : List (BitVec 64)} {words : KeyWords} {o : ℕ}

/-- A key is not empty. -/
theorem WhiteoutKey.pos (h : WhiteoutKey f k) : 0 < k.length := by
  cases h.stored with
  | packed _ hle _ =>
    rw [h.length]
    exact Nat.lt_of_lt_of_le f.keyU64s_pos hle
  | unpacked hformat =>
    refine (by decide : 0 < bkeyU64s).trans_le (h.unpacked ?_)
    rw [KeyWords.packed, hformat]
    rfl

/-- The first words of a key tell all of it. -/
theorem WhiteoutKey.congr (h : WhiteoutKey f k)
    (hsame : ∀ i < k.length, words i = wordsAt k 0 i) :
    words.u64s = (wordsAt k 0).u64s ∧ StoredIn f.toBkeyFormat words ∧
      words.unpackPos f.toBkeyFormat = keyPos f k ∧
      words.unpackHead f.toBkeyFormat = (wordsAt k 0).unpackHead f.toBkeyFormat := by
  have hzero := hsame 0 h.pos
  have hu64s : words.u64s = (wordsAt k 0).u64s := by rw [KeyWords.u64s, KeyWords.u64s, hzero]
  have hformat : words.format = (wordsAt k 0).format := by
    rw [KeyWords.format, KeyWords.format, hzero]
  have hpacked : words.packed = (wordsAt k 0).packed := by
    rw [KeyWords.packed, KeyWords.packed, hformat]
  refine ⟨hu64s, ?_⟩
  cases h.stored with
  | packed hlocal hle hlen =>
    obtain ⟨x, has, hcurrent, hx, hfit⟩ := exists_packedAs f hlocal hle hlen
    have has' : PackedAs f x words := has.congr fun i hi => hsame i (by
      rw [h.length]
      exact hi.trans_le hle)
    have hyes : (wordsAt k 0).packed = true := by
      rw [KeyWords.packed, hlocal]
      rfl
    refine ⟨.packed (hformat ▸ hlocal) (hu64s ▸ hle) (hu64s ▸ hlen), ?_, ?_⟩
    · rw [keyPos, KeyWords.unpackPos, KeyWords.unpackPos, hpacked, if_pos hyes, if_pos hyes,
        has'.unpackPos hfit hx, has.unpackPos hfit hx]
    · rw [KeyWords.unpackHead, KeyWords.unpackHead, hpacked, if_pos hyes, if_pos hyes,
        has'.unpack hfit hcurrent hx, has.unpack hfit hcurrent hx]
  | unpacked hcurrent =>
    have hno : (wordsAt k 0).packed = false := by
      rw [KeyWords.packed, hcurrent]
      rfl
    have hfive := h.unpacked hno
    have hw : ∀ i < 5, words i = wordsAt k 0 i := fun i hi => hsame i (hi.trans_le hfive)
    have hpos : words.pos = (wordsAt k 0).pos := by
      rw [KeyWords.pos, KeyWords.pos, hw 2 (by decide), hw 3 (by decide), hw 4 (by decide)]
    refine ⟨.unpacked (hformat ▸ hcurrent), ?_, ?_⟩
    · rw [keyPos, KeyWords.unpackPos, KeyWords.unpackPos, hpacked, hno, hpos]
      rfl
    · rw [KeyWords.unpackHead, KeyWords.unpackHead, hpacked, hno]
      simp only [Bool.false_eq_true, if_false, KeyWords.head, KeyWords.type, hu64s, hformat, hpos,
        hw 0 (by decide), hw 1 (by decide), hw 2 (by decide)]

/-- The words of a key inside others. -/
theorem wordsAt_append {i : ℕ} (hi : i < k.length) :
    wordsAt (pre ++ (k ++ post)) pre.length i = wordsAt k 0 i := by
  rw [wordsAt, wordsAt, Nat.zero_add, List.getD_append_right _ _ _ _ (Nat.le_add_right ..),
    Nat.add_sub_cancel_left, List.getD_append _ _ _ _ hi]

/-- What follows a key. -/
theorem WhiteoutKey.next (h : WhiteoutKey f k) :
    bkeyPNext (pre ++ (k ++ post)) pre.length = pre.length + k.length := by
  rw [bkeyPNext, (h.congr fun i hi => wordsAt_append hi).1, ← h.length]

end Words

/-! ### The keys of an area -/

/-- The offsets of keys one behind the other. -/
def keyOffsets : ℕ → List (List (BitVec 64)) → List ℕ
  | _, [] => []
  | o, k :: ks => o :: keyOffsets (o + k.length) ks

/-- The words of a key stand at an offset. -/
def StandsAt (data : List (BitVec 64)) (o : ℕ) (k : List (BitVec 64)) : Prop :=
  ∃ pre post, data = pre ++ (k ++ post) ∧ o = pre.length

section Area

variable {f : PackFormat} {k k' data pre : List (BitVec 64)} {ks : List (List (BitVec 64))} {o : ℕ}

theorem WhiteoutKey.standsAt (h : WhiteoutKey f k) (hat : StandsAt data o k) :
    StoredIn f.toBkeyFormat (wordsAt data o) ∧
      (wordsAt data o).unpackPos f.toBkeyFormat = keyPos f k ∧
      (wordsAt data o).unpackHead f.toBkeyFormat = (wordsAt k 0).unpackHead f.toBkeyFormat ∧
      (data.drop o).take (wordsAt data o).u64s.toNat = k := by
  obtain ⟨pre, post, rfl, rfl⟩ := hat
  obtain ⟨hu64s, hrest⟩ := h.congr fun i hi => @wordsAt_append k pre post i hi
  refine ⟨hrest.1, hrest.2.1, hrest.2.2, ?_⟩
  rw [hu64s, ← h.length, List.drop_left, List.take_left]

/-- The pointers are the offsets of the keys. -/
theorem whiteoutPtrs_eq (hks : ∀ k ∈ ks, WhiteoutKey f k) :
    whiteoutPtrs (pre ++ ks.flatten) (pre.length + ks.flatten.length) pre.length =
      some (keyOffsets pre.length ks) := by
  induction ks generalizing pre with
  | nil =>
    rw [whiteoutPtrs, List.flatten_nil, List.length_nil, Nat.add_zero, if_pos rfl]
    rfl
  | cons k ks ih =>
    have hk := hks k List.mem_cons_self
    have hpos := hk.pos
    have hrest := @ih (pre ++ k) fun k' hk' => hks k' (List.mem_cons_of_mem _ hk')
    rw [List.append_assoc, List.length_append, Nat.add_assoc] at hrest
    rw [List.flatten_cons, List.length_append, whiteoutPtrs, if_neg (by omega), hk.next,
      if_pos (by omega), hrest]
    rfl

theorem standsAt_of_mem (ho : o ∈ keyOffsets pre.length ks) :
    ∃ k ∈ ks, StandsAt (pre ++ ks.flatten) o k := by
  induction ks generalizing pre with
  | nil => cases ho
  | cons k ks ih =>
    rcases List.mem_cons.mp ho with rfl | ho
    · exact ⟨k, List.mem_cons_self, pre, ks.flatten, rfl, rfl⟩
    · rw [← List.length_append] at ho
      obtain ⟨k', hk', hat⟩ := ih ho
      rw [List.append_assoc] at hat
      exact ⟨k', List.mem_cons_of_mem _ hk', hat⟩

/-- The keys at the offsets. -/
theorem map_keyAt (hks : ∀ k ∈ ks, WhiteoutKey f k) :
    (keyOffsets pre.length ks).map (fun o => ((pre ++ ks.flatten).drop o).take
      (wordsAt (pre ++ ks.flatten) o).u64s.toNat) = ks := by
  induction ks generalizing pre with
  | nil => rfl
  | cons k ks ih =>
    have hrest := @ih (pre ++ k) fun k' hk' => hks k' (List.mem_cons_of_mem _ hk')
    rw [List.append_assoc, List.length_append] at hrest
    rw [keyOffsets, List.map_cons, List.flatten_cons, hrest,
      ((hks k List.mem_cons_self).standsAt ⟨pre, ks.flatten, rfl, rfl⟩).2.2.2]

/-- Two keys are in the order of their positions. -/
def KeyLt (f : PackFormat) (k k' : List (BitVec 64)) : Prop :=
  ∃ p q, keyPos f k = some p ∧ keyPos f k' = some q ∧ p < q

/-- The position of a key is that of the key it is unpacked to. -/
theorem WhiteoutKey.unpackHead (h : WhiteoutKey f k) :
    ∃ x, (wordsAt k 0).unpackHead f.toBkeyFormat = some x ∧ keyPos f k = some x.p := by
  rcases h.stored.packed_cases with ⟨hpacked, x, -, -, hunpack, hpos⟩ | ⟨hpacked, hpos⟩
  · refine ⟨{ x with pad := 0 }, ?_, hpos⟩
    rw [KeyWords.unpackHead, if_pos hpacked, hunpack]
  · refine ⟨(wordsAt k 0).head, ?_, hpos⟩
    rw [KeyWords.unpackHead, hpacked]
    rfl

/-- A key without a range starts at its position. -/
theorem startPos_of_sizeless {x : BkeyHead} (hx : (wordsAt k 0).unpackHead f.toBkeyFormat = some x)
    (h : Sizeless f k) : x.startPos = x.p := by
  rw [Sizeless, hx] at h
  have hzero : x.size = 0 := Option.some.inj h
  have hlt := x.p.offset.isLt
  have hoffset : Fin.ofNat (2 ^ 64) (x.p.offset + 2 ^ 64 - x.size) = x.p.offset := by
    refine Fin.ext ?_
    rw [hzero, Fin.val_ofNat, Fin.val_zero]
    omega
  rw [BkeyHead.startPos, hoffset]

/-- Keys in order pass the check for duplicates. -/
theorem noDupsFrom_eq_true {previous : ℕ} (hk : WhiteoutKey f k) (hat : StandsAt data previous k)
    (hdata : data = pre ++ ks.flatten) (hks : ∀ k ∈ ks, WhiteoutKey f k)
    (hsize : ∀ k ∈ ks, Sizeless f k) (hsorted : (k :: ks).Pairwise (KeyLt f)) :
    noDupsFrom f.toBkeyFormat data previous pre.length = true := by
  induction ks generalizing pre k previous with
  | nil =>
    have hend : pre.length = data.length := by rw [hdata, List.flatten_nil, List.append_nil]
    rw [noDupsFrom, if_pos hend]
  | cons k' ks ih =>
    have hk' := hks k' List.mem_cons_self
    have hat' : StandsAt data pre.length k' := ⟨pre, ks.flatten, hdata, rfl⟩
    have hlength : data.length = pre.length + k'.length + ks.flatten.length := by
      rw [hdata, List.flatten_cons, List.length_append, List.length_append, Nat.add_assoc]
    have hnext : bkeyPNext data pre.length = (pre ++ k').length := by
      rw [hdata, List.flatten_cons, hk'.next, List.length_append]
    have hpos := hk'.pos
    obtain ⟨x, hx, hxp⟩ := hk.unpackHead
    obtain ⟨y, hy, hyp⟩ := hk'.unpackHead
    obtain ⟨hfirst, hrest⟩ := List.pairwise_cons.mp hsorted
    obtain ⟨p, q, hp, hq, hlt⟩ := hfirst k' List.mem_cons_self
    have hxy : x.p < y.startPos := by
      rw [startPos_of_sizeless hy (hsize k' List.mem_cons_self)]
      rw [hxp] at hp
      rw [hyp] at hq
      rwa [Option.some.inj hp, Option.some.inj hq]
    rw [noDupsFrom, if_neg (by omega), hnext, List.length_append, if_pos (by omega),
      (hk.standsAt hat).2.2.1, (hk'.standsAt hat').2.2.1, hx, hy]
    simp only [hxy, decide_true, Bool.true_and]
    rw [← List.length_append]
    refine ih hk' hat' ?_ (fun j hj => hks j (List.mem_cons_of_mem _ hj))
      (fun j hj => hsize j (List.mem_cons_of_mem _ hj)) hrest
    rw [hdata, List.flatten_cons, List.append_assoc]

theorem verifyNoDups_eq_true (hks : ∀ k ∈ ks, WhiteoutKey f k) (hsize : ∀ k ∈ ks, Sizeless f k)
    (hsorted : ks.Pairwise (KeyLt f)) : verifyNoDups f.toBkeyFormat ks.flatten = true := by
  cases ks with
  | nil => rfl
  | cons k ks =>
    have hk := hks k List.mem_cons_self
    have hnext : bkeyPNext (k :: ks).flatten 0 = k.length := by
      have h := @WhiteoutKey.next f k [] ks.flatten hk
      rwa [List.length_nil, Nat.zero_add] at h
    rw [verifyNoDups, hnext, Bool.or_eq_true]
    exact .inr <| noDupsFrom_eq_true hk ⟨[], ks.flatten, rfl, rfl⟩ rfl
      (fun j hj => hks j (List.mem_cons_of_mem _ hj))
      (fun j hj => hsize j (List.mem_cons_of_mem _ hj)) hsorted

end Area

/-! ### The sort -/

namespace WhiteoutNode

/-- The node with whiteouts behind the rest of its buffer. -/
def ofKeys (f : PackFormat) (pre : List (BitVec 64)) (ks : List (List (BitVec 64))) :
    WhiteoutNode where
  format := f.toBkeyFormat
  nrKeyBits := bkeyFormatKeyBits f.toBkeyFormat
  data := pre ++ ks.flatten
  whiteoutU64s := ks.flatten.length

section OfKeys

variable {f : PackFormat} {pre : List (BitVec 64)} {ks : List (List (BitVec 64))}

/-- The position of the key at an offset. -/
def ptrPos (f : PackFormat) (b : WhiteoutNode) (o : ℕ) : Bpos :=
  ((wordsAt b.data o).unpackPos f.toBkeyFormat).getD ⟨0, 0, 0⟩

/-- Stored keys are compared by their positions. -/
theorem keyGe_iff {l r : ℕ} (hl : StoredIn f.toBkeyFormat (wordsAt (ofKeys f pre ks).data l))
    (hr : StoredIn f.toBkeyFormat (wordsAt (ofKeys f pre ks).data r)) :
    (ofKeys f pre ks).keyGe l r = true ↔
      ptrPos f (ofKeys f pre ks) r ≤ ptrPos f (ofKeys f pre ks) l := by
  obtain ⟨p, q, hp, hq, hcmp⟩ := hl.cmp_eq hr
  have hneg := bposCmp_neg_iff p q
  rw [keyGe, show (ofKeys f pre ks).format = f.toBkeyFormat from rfl,
    show (ofKeys f pre ks).nrKeyBits = bkeyFormatKeyBits f.toBkeyFormat from rfl, hcmp, ptrPos,
    ptrPos, hp, hq, Option.any_some, decide_eq_true_eq, Option.getD_some, Option.getD_some,
    ← not_lt,
    ← not_lt, hneg]

/-- The words of the keys in the sorted order of their pointers. -/
theorem sortBkeyPtrs_keys (hks : ∀ k ∈ ks, WhiteoutKey f k)
    (hdistinct : (ks.map (keyPos f)).Nodup) :
    (((ofKeys f pre ks).sortBkeyPtrs (keyOffsets pre.length ks)).map (ofKeys f pre ks).keyAt).Perm
        ks ∧
      (((ofKeys f pre ks).sortBkeyPtrs (keyOffsets pre.length ks)).map
        (ofKeys f pre ks).keyAt).Pairwise (KeyLt f) := by
  set b := ofKeys f pre ks with hb
  set offsets := keyOffsets pre.length ks with hoffsets
  have hstands : ∀ o ∈ offsets, ∃ k ∈ ks, StandsAt b.data o k := fun o ho => standsAt_of_mem ho
  have hspec : ∀ o ∈ offsets, ∃ k ∈ ks, StoredIn f.toBkeyFormat (wordsAt b.data o) ∧
      (wordsAt b.data o).unpackPos f.toBkeyFormat = keyPos f k ∧ b.keyAt o = k := by
    intro o ho
    obtain ⟨k, hk, hat⟩ := hstands o ho
    obtain ⟨hstored, hpos, -, hkey⟩ := (hks k hk).standsAt hat
    exact ⟨k, hk, hstored, hpos, hkey⟩
  have hkeys : offsets.map b.keyAt = ks := map_keyAt hks
  have hge : ∀ l ∈ {o | StoredIn f.toBkeyFormat (wordsAt b.data o)},
      ∀ r ∈ {o | StoredIn f.toBkeyFormat (wordsAt b.data o)},
      b.keyGe l r = true ↔ ptrPos f b r ≤ ptrPos f b l := fun l hl r hr => keyGe_iff hl hr
  have hstored : ∀ o ∈ offsets, o ∈ {o | StoredIn f.toBkeyFormat (wordsAt b.data o)} := by
    intro o ho
    obtain ⟨k, -, hstored, -⟩ := hspec o ho
    exact hstored
  obtain ⟨hperm, hsorted⟩ := HeapSort.sortList_spec hge hstored
  -- no two pointers have the same position
  have hnodup : (offsets.map fun o => (wordsAt b.data o).unpackPos f.toBkeyFormat).Nodup := by
    have hmap : (offsets.map fun o => (wordsAt b.data o).unpackPos f.toBkeyFormat) =
        (offsets.map b.keyAt).map (keyPos f) := by
      rw [List.map_map]
      refine List.map_congr_left fun o ho => ?_
      obtain ⟨k, -, -, hpos, hkey⟩ := hspec o ho
      rw [Function.comp_apply, hkey, hpos]
    rw [hmap, hkeys]
    exact hdistinct
  have hnodup' := (hperm.map fun o => (wordsAt b.data o).unpackPos f.toBkeyFormat).nodup_iff.mpr
    hnodup
  refine ⟨?_, ?_⟩
  · have h := hperm.map b.keyAt
    rwa [hkeys] at h
  · refine List.pairwise_map.mpr ((hsorted.and (List.pairwise_map.mp hnodup')).imp_of_mem
      fun {l r} hl hr hlr => ?_)
    obtain ⟨k, hk, -, hpos, hkey⟩ := hspec l (hperm.subset hl)
    obtain ⟨k', hk', -, hpos', hkey'⟩ := hspec r (hperm.subset hr)
    obtain ⟨x, -, hx⟩ := (hks k hk).unpackHead
    obtain ⟨y, -, hy⟩ := (hks k' hk').unpackHead
    obtain ⟨hle, hne⟩ := hlr
    rw [ptrPos, ptrPos, hpos, hpos', hx, hy] at hle
    rw [hpos, hpos', hx, hy] at hne
    exact ⟨x.p, y.p, hkey ▸ hx, hkey' ▸ hy, lt_of_le_of_ne hle fun heq => hne (congrArg some heq)⟩

/-- Whiteouts of different positions are sorted by position, whatever their order was; the rest of
the buffer and the number of words stay. -/
theorem bch2SortWhiteouts_sorted (f : PackFormat) (debug : Bool) (pre : List (BitVec 64))
    (ks : List (List (BitVec 64))) (hks : ∀ k ∈ ks, WhiteoutKey f k)
    (hsize : debug = true → ∀ k ∈ ks, Sizeless f k) (hdistinct : (ks.map (keyPos f)).Nodup) :
    ∃ ks' : List (List (BitVec 64)), ks'.Perm ks ∧ ks'.Pairwise (KeyLt f) ∧
      (ofKeys f pre ks).bch2SortWhiteouts debug =
        some { ofKeys f pre ks with data := pre ++ ks'.flatten } := by
  obtain ⟨hperm, hsorted⟩ := @sortBkeyPtrs_keys f pre ks hks hdistinct
  set b := ofKeys f pre ks with hb
  set sorted := (b.sortBkeyPtrs (keyOffsets pre.length ks)).map b.keyAt with hsorted'
  have hstart : b.unwrittenWhiteoutsStart = pre.length := by
    rw [unwrittenWhiteoutsStart, hb, ofKeys, List.length_append, Nat.add_sub_cancel]
  have hptrs : whiteoutPtrs b.data b.unwrittenWhiteoutsEnd b.unwrittenWhiteoutsStart =
      some (keyOffsets pre.length ks) := by
    rw [hstart, unwrittenWhiteoutsEnd, hb, ofKeys, List.length_append]
    exact whiteoutPtrs_eq hks
  have hlength : sorted.flatten.length = b.whiteoutU64s := (hperm.flatten).length_eq
  have hwords : (b.sortBkeyPtrs (keyOffsets pre.length ks)).flatMap b.keyAt = sorted.flatten :=
    List.flatMap_def
  have hverify : (debug && !verifyNoDups b.format sorted.flatten) = false := by
    cases hd : debug with
    | false => rfl
    | true =>
      have h := verifyNoDups_eq_true (fun k hk => hks k (hperm.subset hk))
        (fun k hk => hsize hd k (hperm.subset hk)) hsorted
      rw [hb, ofKeys, h]
      rfl
  refine ⟨sorted, hperm, hsorted, ?_⟩
  rw [bch2SortWhiteouts]
  by_cases hzero : b.whiteoutU64s = 0
  · -- keys have words, so there are none
    have hnil : ks.flatten = [] := List.length_eq_zero_iff.mp hzero
    have hnil' : sorted.flatten = [] := List.length_eq_zero_iff.mp (hlength.trans hzero)
    rw [if_pos hzero, hnil', hb, ofKeys, hnil]
  · rw [if_neg hzero, hptrs, Option.bind_eq_bind, Option.bind_some]
    dsimp only
    rw [hwords, if_neg (not_not.mpr hlength), hverify, hstart]
    have htake : b.data.take pre.length = pre := List.take_left
    rw [htake]
    rfl

end OfKeys

/-- A packed whiteout. -/
def narrowWhiteout : List (BitVec 64) := [0x000002, 0x1234 <<< 48]

/-- An unpacked whiteout. -/
def wideWhiteout : List (BitVec 64) := [0x000105, 0, 0, 118, 0]

theorem bch2SortWhiteouts_narrow :
    ∃ ks' : List (List (BitVec 64)), ks'.Perm [narrowWhiteout, wideWhiteout] ∧
      ks'.Pairwise (KeyLt narrowFormat) ∧
      (ofKeys narrowFormat [1, 2] [narrowWhiteout, wideWhiteout]).bch2SortWhiteouts true =
        some { ofKeys narrowFormat [1, 2] [narrowWhiteout, wideWhiteout] with
          data := [1, 2] ++ ks'.flatten } := by
  refine bch2SortWhiteouts_sorted narrowFormat true [1, 2] [narrowWhiteout, wideWhiteout] ?_ ?_ ?_
  · have hnarrow : WhiteoutKey narrowFormat narrowWhiteout :=
      ⟨.packed (by decide +kernel) (by decide +kernel) (by decide +kernel), by decide +kernel,
        by decide +kernel⟩
    have hwide : WhiteoutKey narrowFormat wideWhiteout :=
      ⟨.unpacked (by decide +kernel), by decide +kernel, by decide +kernel⟩
    simp only [List.forall_mem_cons, List.not_mem_nil, false_implies, implies_true, and_true]
    exact ⟨hnarrow, hwide⟩
  · intro _
    have hnarrow : Sizeless narrowFormat narrowWhiteout := by
      unfold Sizeless
      decide +kernel
    have hwide : Sizeless narrowFormat wideWhiteout := by
      unfold Sizeless
      decide +kernel
    simp only [List.forall_mem_cons, List.not_mem_nil, false_implies, implies_true, and_true]
    exact ⟨hnarrow, hwide⟩
  · decide +kernel

end WhiteoutNode

end Subvol

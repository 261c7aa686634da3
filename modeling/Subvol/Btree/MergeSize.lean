import Mathlib.Algebra.Order.Group.Nat
import Mathlib.Algebra.BigOperators.Group.List.Basic
import Subvol.Btree.Key

/-!
# The size of a merged node

Model of `merge_node_u64s_and_format`, which computes a format for the keys of sibling nodes and
estimates the words that they take in it, and of `bch2_sort_repack`, which writes them there. The
format is computed from positions, so a key with a size or a version does not fit it and is written
unpacked. The estimate counts a key that is packed in its own node as packed, and any other one as
unpacked.

## Main definitions

* `StoredKey`, `MergeNode`: the live keys of a node as they are stored.
* `mergeNodeU64sAndFormat`, `btreeNodeU64sWithFormat`, `bch2BtreeSortInto`.
* `plain`: a key without a size and a version.

## Main results

* `fits_mergeFormat_iff`: the keys that fit the format of a merge.
* `merge_estimate_iff`: where the estimate is enough.
-/

namespace Subvol

/-! ### Nodes -/

/-- A live key of a node as it is stored: packed in the format of the node or not. -/
structure StoredKey where
  k : Bkey
  packed : Bool
deriving DecidableEq, Repr

/-- What the merge reads of a node: its range, its format and its live keys. A packed key fits the
format. -/
structure MergeNode where
  minKey : Bpos
  maxKey : Bpos
  format : BkeyFormat
  keys : List StoredKey
  fits : ∀ x ∈ keys, x.packed = true → bch2BkeyPackKey format x.k = true

/-! ### The estimate -/

/-- `__bch2_btree_calc_format`. -/
def bch2BtreeCalcFormat (state : BkeyFormatState) (b : MergeNode) : BkeyFormatState :=
  b.keys.foldl (fun state x => bch2BkeyFormatAddPos state x.k.p) state

/-- The words that `btree_node_u64s_with_format` counts for a key. It tries to pack the position
in the format of the node, not in the new one. -/
def estimateU64s (srcF newF : BkeyFormat) (x : StoredKey) : ℕ :=
  if x.packed && bch2BkeyPackPos srcF x.k.p then newF.keyU64s + x.k.val.length
  else bkeyU64s + x.k.val.length

/-- `btree_node_u64s_with_format`. -/
def btreeNodeU64sWithFormat (b : MergeNode) (newF : BkeyFormat) : ℕ :=
  (b.keys.map (estimateU64s b.format newF)).sum

/-- The format that `merge_node_u64s_and_format` computes. -/
def mergeFormat (first last : Bpos) (srcs : List MergeNode) : BkeyFormat :=
  bch2BkeyFormatDone (bch2BkeyFormatAddPos
    (srcs.foldl bch2BtreeCalcFormat (bch2BkeyFormatAddPos bch2BkeyFormatInit first)) last)

/-- `merge_node_u64s_and_format` of nodes, of which there is at least one. -/
def mergeNodeU64sAndFormat (src : MergeNode) (srcs : List MergeNode) : ℕ × BkeyFormat :=
  let newF := mergeFormat src.minKey ((src :: srcs).getLast (List.cons_ne_nil _ _)).maxKey
    (src :: srcs)
  (((src :: srcs).map fun b => btreeNodeU64sWithFormat b newF).sum, newF)

/-! ### What is written -/

/-- The words that `bch2_sort_repack` writes for a key: it copies a key of the same format, and else
unpacks what `bch2_bkey_transform` cannot pack. -/
def repackU64s (srcF outF : BkeyFormat) (x : StoredKey) : ℕ :=
  if outF ≠ srcF then
    if bch2BkeyPackKey outF x.k then outF.keyU64s + x.k.val.length
    else bkeyU64s + x.k.val.length
  else if x.packed then srcF.keyU64s + x.k.val.length
  else bkeyU64s + x.k.val.length

/-- The words that `bch2_btree_sort_into` writes into a node of the given format. -/
def bch2BtreeSortInto (outF : BkeyFormat) (b : MergeNode) : ℕ :=
  (b.keys.map (repackU64s b.format outF)).sum

/-! ### The format -/

/-- A key without a size and a version. -/
def plain (k : Bkey) : Bool := k.size == 0 && k.versionHi == 0 && k.versionLo == 0

/-- The state of a format with the positions alone. -/
def posState (a b c : ℕ × ℕ) : BkeyFormatState :=
  [a, b, c, (0, 0), (2 ^ 64 - 1, 0), (2 ^ 64 - 1, 0)]

/-- The state covers a position. -/
def PosCovered (state : BkeyFormatState) (p : Bpos) : Prop :=
  ∃ a b c, state = posState a b c ∧ (a.1 ≤ p.inode ∧ p.inode ≤ a.2) ∧
    (b.1 ≤ p.offset ∧ p.offset ≤ b.2) ∧ (c.1 ≤ p.snapshot ∧ p.snapshot ≤ c.2)

section Format

variable {state : BkeyFormatState} {p q : Bpos}

theorem addPos_posState (a b c : ℕ × ℕ) (p : Bpos) :
    bch2BkeyFormatAddPos (posState a b c) p =
      posState (min a.1 p.inode, max a.2 p.inode) (min b.1 p.offset, max b.2 p.offset)
        (min c.1 p.snapshot, max c.2 p.snapshot) := rfl

theorem PosCovered.addPos (h : PosCovered state q) (p : Bpos) :
    PosCovered (bch2BkeyFormatAddPos state p) q ∧ PosCovered (bch2BkeyFormatAddPos state p) p := by
  obtain ⟨a, b, c, rfl, ha, hb, hc⟩ := h
  rw [addPos_posState]
  refine ⟨⟨_, _, _, rfl, ?_, ?_, ?_⟩, ⟨_, _, _, rfl, ?_, ?_, ?_⟩⟩
  all_goals
    dsimp only
    omega

theorem posCovered_first (p : Bpos) :
    PosCovered (bch2BkeyFormatAddPos bch2BkeyFormatInit p) p := by
  refine ⟨_, _, _, addPos_posState (2 ^ 64 - 1, 0) (2 ^ 64 - 1, 0) (2 ^ 64 - 1, 0) p, ?_, ?_, ?_⟩
  all_goals
    dsimp only
    omega

/-- The positions of a node are covered, and those that were stay so. -/
theorem PosCovered.calcFormat (h : PosCovered state q) (b : MergeNode) :
    PosCovered (bch2BtreeCalcFormat state b) q ∧
      ∀ x ∈ b.keys, PosCovered (bch2BtreeCalcFormat state b) x.k.p := by
  rw [bch2BtreeCalcFormat]
  generalize b.keys = keys
  induction keys generalizing state q with
  | nil => exact ⟨h, by simp⟩
  | cons x xs ih =>
    obtain ⟨hq, hx⟩ := h.addPos x.k.p
    refine ⟨(ih hq).1, fun y hy => ?_⟩
    rcases List.mem_cons.mp hy with rfl | hy
    · exact (ih hx).1
    · exact (ih hq).2 y hy

theorem PosCovered.calcFormats (h : PosCovered state q) (srcs : List MergeNode) :
    PosCovered (srcs.foldl bch2BtreeCalcFormat state) q ∧
      ∀ b ∈ srcs, ∀ x ∈ b.keys, PosCovered (srcs.foldl bch2BtreeCalcFormat state) x.k.p := by
  induction srcs generalizing state q with
  | nil => exact ⟨h, by simp⟩
  | cons b srcs ih =>
    obtain ⟨hq, hkeys⟩ := h.calcFormat b
    refine ⟨(ih hq).1, fun b' hb' x hx => ?_⟩
    rcases List.mem_cons.mp hb' with rfl | hb'
    · exact (ih (hkeys x hx)).1
    · exact (ih hq).2 b' hb' x hx

/-! ### Fields -/

theorem setFormatField_eq (u bits offset : ℕ) :
    setFormatField u bits offset =
      if u ≤ bits then (u, 0) else (bits, min offset (2 ^ u - 2 ^ bits)) := by
  rw [setFormatField]
  split_ifs with h₁ h₂ h₂
  · rw [h₁]
  · omega
  · omega
  · rw [min_eq_left (by omega)]

/-- A field that is wide enough for a value stays so. -/
theorem fieldFits_setFormatField {u bits offset v : ℕ} (hu : v < 2 ^ u)
    (hfits : fieldFits (bits, offset) v = true) :
    fieldFits (setFormatField u bits offset) v = true := by
  obtain ⟨hle, hlt⟩ : offset ≤ v ∧ v - offset < 2 ^ bits := of_decide_eq_true hfits
  rw [setFormatField_eq]
  split_ifs with hbits
  · exact decide_eq_true ⟨Nat.zero_le _, hu⟩
  · have hpow : 2 ^ bits ≤ 2 ^ u := Nat.pow_le_pow_right (by decide) (by omega)
    refine decide_eq_true ⟨?_, ?_⟩
    · exact (min_le_left _ _).trans hle
    · dsimp only
      omega

/-- Rounding up keeps the values that fit. -/
theorem roundFields_cons (left u bits offset : ℕ) (rest : List (ℕ × ℕ × ℕ)) :
    ∃ field left', roundFields left ((u, bits, offset) :: rest) = field :: roundFields left' rest ∧
      ∀ v < 2 ^ u, fieldFits (bits, offset) v = true → fieldFits field v = true := by
  rw [roundFields]
  split_ifs with hextra
  · refine ⟨_, _, rfl, fun v hu hfits => fieldFits_setFormatField hu ?_⟩
    obtain ⟨hle, hlt⟩ : offset ≤ v ∧ v - offset < 2 ^ bits := of_decide_eq_true hfits
    refine decide_eq_true ⟨hle, hlt.trans_le ?_⟩
    exact Nat.pow_le_pow_right (by decide) (Nat.le_add_right _ _)
  · exact ⟨_, _, rfl, fun v _ hfits => hfits⟩

/-- A field without bits stays one. -/
theorem roundFields_zero {left u : ℕ} (hu : u ≠ 0) (rest : List (ℕ × ℕ × ℕ)) :
    roundFields left ((u, 0, 0) :: rest) = (0, 0) :: roundFields left rest := by
  rw [roundFields]
  simp [setFormatField_eq, hu]

/-- The field made for a range of values. -/
def rangeField (u : ℕ) (a : ℕ × ℕ) : ℕ × ℕ :=
  setFormatField u (bitsOf (a.2 - min a.1 a.2)) (min a.1 a.2)

theorem fieldFits_rangeField {u v : ℕ} {a : ℕ × ℕ} (hu : v < 2 ^ u) (hv : a.1 ≤ v ∧ v ≤ a.2) :
    fieldFits (rangeField u a) v = true := by
  refine fieldFits_setFormatField hu (decide_eq_true ⟨by dsimp only; omega, ?_⟩)
  have hlt := lt_two_pow_bitsOf (a.2 - min a.1 a.2)
  dsimp only
  omega

theorem rangeField_le (u : ℕ) (a : ℕ × ℕ) : (rangeField u a).1 ≤ u := by
  rw [rangeField, setFormatField_eq]
  split_ifs
  · exact le_rfl
  · dsimp only
    omega

/-- The fields of a format made from positions: those of a position, and three without bits. -/
theorem formatDone_posState (a b c : ℕ × ℕ) :
    (bch2BkeyFormatDone (posState a b c)).keyU64s ≤ 3 ∧
      ∃ fa fb fc, (bch2BkeyFormatDone (posState a b c)).fields =
          [fa, fb, fc, (0, 0), (0, 0), (0, 0)] ∧
        (∀ v < 2 ^ 64, a.1 ≤ v ∧ v ≤ a.2 → fieldFits fa v = true) ∧
        (∀ v < 2 ^ 64, b.1 ≤ v ∧ v ≤ b.2 → fieldFits fb v = true) ∧
        ∀ v < 2 ^ 32, c.1 ≤ v ∧ v ≤ c.2 → fieldFits fc v = true := by
  have hzero : rangeField 32 (0, 0) = (0, 0) ∧ rangeField 32 (2 ^ 64 - 1, 0) = (0, 0) ∧
      rangeField 64 (2 ^ 64 - 1, 0) = (0, 0) := by decide +kernel
  obtain ⟨bits, hbits⟩ : ∃ bits, bits = keyPackedBitsStart +
      ((rangeField 64 a).1 + ((rangeField 64 b).1 + (rangeField 32 c).1)) := ⟨_, rfl⟩
  have hdone : bch2BkeyFormatDone (posState a b c) =
      ⟨(bits + 63) / 64, roundFields ((bits + 63) / 64 * 64 - bits)
        [(64, rangeField 64 a), (64, rangeField 64 b), (32, rangeField 32 c),
          (32, 0, 0), (32, 0, 0), (64, 0, 0)]⟩ := by
    rw [bch2BkeyFormatDone]
    simp only [bkeyFormatCurrent, posState, List.map_cons, List.map_nil, List.zip_cons_cons,
      List.zip_nil_left, ← rangeField.eq_1, hzero, List.sum_cons, List.sum_nil, Nat.add_zero,
      ← hbits]
  rw [hdone]
  refine ⟨?_, ?_⟩
  · have ha := rangeField_le 64 a
    have hb := rangeField_le 64 b
    have hc := rangeField_le 32 c
    rw [keyPackedBitsStart] at hbits
    dsimp only
    omega
  · obtain ⟨fa, l₁, h₁, hfa⟩ := roundFields_cons ((bits + 63) / 64 * 64 - bits) 64
      (rangeField 64 a).1 (rangeField 64 a).2 [(64, rangeField 64 b), (32, rangeField 32 c),
        (32, 0, 0), (32, 0, 0), (64, 0, 0)]
    obtain ⟨fb, l₂, h₂, hfb⟩ := roundFields_cons l₁ 64 (rangeField 64 b).1 (rangeField 64 b).2
      [(32, rangeField 32 c), (32, 0, 0), (32, 0, 0), (64, 0, 0)]
    obtain ⟨fc, l₃, h₃, hfc⟩ := roundFields_cons l₂ 32 (rangeField 32 c).1 (rangeField 32 c).2
      [(32, 0, 0), (32, 0, 0), (64, 0, 0)]
    refine ⟨fa, fb, fc, ?_, ?_, ?_, ?_⟩
    · dsimp only
      rw [h₁, h₂, h₃, roundFields_zero (by decide), roundFields_zero (by decide),
        roundFields_zero (by decide), roundFields]
    · exact fun v hu hv => hfa v hu (fieldFits_rangeField hu hv)
    · exact fun v hu hv => hfb v hu (fieldFits_rangeField hu hv)
    · exact fun v hu hv => hfc v hu (fieldFits_rangeField hu hv)

theorem PosCovered.keyU64s_le (h : PosCovered state p) :
    (bch2BkeyFormatDone state).keyU64s ≤ 3 := by
  obtain ⟨a, b, c, rfl, -⟩ := h
  exact (formatDone_posState a b c).1

/-- A covered position fits the format, and with it the keys that have no size and no version. -/
theorem PosCovered.fits_iff {k : Bkey} (h : PosCovered state k.p) :
    bch2BkeyPackKey (bch2BkeyFormatDone state) k = plain k := by
  obtain ⟨a, b, c, rfl, ha, hb, hc⟩ := h
  obtain ⟨-, fa, fb, fc, hfields, hfa, hfb, hfc⟩ := formatDone_posState a b c
  have hzero : ∀ v, fieldFits (0, 0) v = (v == 0) := by
    intro v
    rw [Bool.eq_iff_iff]
    simp [fieldFits]
  rw [bch2BkeyPackKey, hfields]
  simp [Bkey.fieldValues, plain, hzero, hfa k.p.inode k.p.inode.isLt ha,
    hfb k.p.offset k.p.offset.isLt hb, hfc k.p.snapshot k.p.snapshot.isLt hc, Bool.and_assoc]

end Format

/-! ### Counting words -/

theorem mergeFormat_keyU64s_le (first last : Bpos) (srcs : List MergeNode) :
    (mergeFormat first last srcs).keyU64s ≤ 3 :=
  (((posCovered_first first).calcFormats srcs).1.addPos last).1.keyU64s_le

/-- The keys that fit the format of a merge. -/
theorem fits_mergeFormat_iff (first last : Bpos) {srcs : List MergeNode} {b : MergeNode}
    (hb : b ∈ srcs) {x : StoredKey} (hx : x ∈ b.keys) :
    bch2BkeyPackKey (mergeFormat first last srcs) x.k = plain x.k :=
  (((posCovered_first first).calcFormats srcs).2 b hb x hx |>.addPos last).1.fits_iff

/-- The words of keys of which those of a kind are packed. -/
def packedU64s (keyU64s : ℕ) (packed : StoredKey → Bool) (xs : List StoredKey) : ℕ :=
  (xs.map fun x => (if packed x then keyU64s else bkeyU64s) + x.k.val.length).sum

theorem packedU64s_cons (kf : ℕ) (p : StoredKey → Bool) (x : StoredKey) (xs : List StoredKey) :
    packedU64s kf p (x :: xs) =
      (if p x then kf else bkeyU64s) + x.k.val.length + packedU64s kf p xs := by
  rw [packedU64s, List.map_cons, List.sum_cons, packedU64s]

/-- Two ways to pack the same keys, compared by the keys that only one of them packs. -/
theorem packedU64s_add {kf : ℕ} (hkf : kf ≤ bkeyU64s) (p q : StoredKey → Bool)
    (xs : List StoredKey) :
    packedU64s kf q xs + (bkeyU64s - kf) * xs.countP (fun x => q x && !p x) =
      packedU64s kf p xs + (bkeyU64s - kf) * xs.countP fun x => p x && !q x := by
  induction xs with
  | nil => rfl
  | cons x xs ih =>
    rw [packedU64s_cons, packedU64s_cons, List.countP_cons, List.countP_cons, Nat.mul_add,
      Nat.mul_add]
    cases hp : p x <;> cases hq : q x <;>
      simp only [Bool.not_true, Bool.not_false, Bool.and_true, Bool.and_false, if_true, if_false,
        Bool.false_eq_true, Nat.mul_zero, Nat.mul_one] <;> omega

/-- The keys that are counted as packed and are written unpacked. -/
def underCounted (b : MergeNode) : ℕ := b.keys.countP fun x => x.packed && !plain x.k

/-- The keys that are counted as unpacked and are written packed. -/
def overCounted (newF : BkeyFormat) (b : MergeNode) : ℕ :=
  if newF ≠ b.format then b.keys.countP fun x => plain x.k && !x.packed else 0

section Count

variable {newF : BkeyFormat} {b : MergeNode}

theorem packPos_of_packKey {f : BkeyFormat} {k : Bkey} (h : bch2BkeyPackKey f k = true) :
    bch2BkeyPackPos f k.p = true := by
  obtain ⟨kf, fields⟩ := f
  simp only [bch2BkeyPackKey, Bkey.fieldValues] at h
  simp only [bch2BkeyPackPos]
  rcases fields with _ | ⟨a, _ | ⟨b, _ | ⟨c, rest⟩⟩⟩ <;> simp_all

/-- A packed key is counted as packed: its position fits the format of its node. -/
theorem btreeNodeU64sWithFormat_eq (newF : BkeyFormat) (b : MergeNode) :
    btreeNodeU64sWithFormat b newF = packedU64s newF.keyU64s StoredKey.packed b.keys := by
  refine congrArg List.sum (List.map_congr_left fun x hx => ?_)
  have hcounted : (x.packed && bch2BkeyPackPos b.format x.k.p) = x.packed := by
    cases hp : x.packed with
    | false => rfl
    | true => exact packPos_of_packKey (b.fits x hx hp)
  rw [estimateU64s, hcounted]
  split_ifs <;> rfl

/-- The words written for a node. -/
theorem sortInto_add (hkf : newF.keyU64s ≤ bkeyU64s)
    (hfits : ∀ x ∈ b.keys, bch2BkeyPackKey newF x.k = plain x.k) :
    bch2BtreeSortInto newF b + (bkeyU64s - newF.keyU64s) * overCounted newF b =
      btreeNodeU64sWithFormat b newF + (bkeyU64s - newF.keyU64s) * underCounted b := by
  rw [btreeNodeU64sWithFormat_eq, overCounted, underCounted]
  by_cases hsame : newF = b.format
  · -- the keys are copied, and a packed key has no size and no version
    have hwritten : bch2BtreeSortInto newF b =
        packedU64s newF.keyU64s StoredKey.packed b.keys := by
      refine congrArg List.sum (List.map_congr_left fun x hx => ?_)
      rw [repackU64s, if_neg (not_not.mpr hsame), ← hsame]
      split_ifs <;> rfl
    have hnone : b.keys.countP (fun x => x.packed && !plain x.k) = 0 := by
      refine List.countP_eq_zero.mpr fun x hx => ?_
      cases hp : x.packed with
      | false => simp
      | true => simp [← hfits x hx, hsame, b.fits x hx hp]
    rw [hwritten, if_neg (not_not.mpr hsame), hnone]
  · have hwritten : bch2BtreeSortInto newF b =
        packedU64s newF.keyU64s (fun x => plain x.k) b.keys := by
      refine congrArg List.sum (List.map_congr_left fun x hx => ?_)
      rw [repackU64s, if_pos hsame, hfits x hx]
      split_ifs <;> rfl
    rw [hwritten, if_pos hsame]
    exact packedU64s_add hkf _ _ _

theorem sortInto_sum_add {srcs : List MergeNode} (hkf : newF.keyU64s ≤ bkeyU64s)
    (hfits : ∀ b ∈ srcs, ∀ x ∈ b.keys, bch2BkeyPackKey newF x.k = plain x.k) :
    (srcs.map (bch2BtreeSortInto newF)).sum +
        (bkeyU64s - newF.keyU64s) * (srcs.map (overCounted newF)).sum =
      (srcs.map fun b => btreeNodeU64sWithFormat b newF).sum +
        (bkeyU64s - newF.keyU64s) * (srcs.map underCounted).sum := by
  induction srcs with
  | nil => rfl
  | cons b srcs ih =>
    obtain ⟨hb, hrest⟩ := List.forall_mem_cons.mp hfits
    have hhead := sortInto_add hkf hb
    have htail := ih hrest
    simp only [List.map_cons, List.sum_cons, Nat.mul_add]
    omega

end Count

/-- The estimate for a merge is enough just where the keys counted as packed that have a size or a
version are not more than those counted as unpacked that have none, in nodes of another format than
the new one. -/
theorem merge_estimate_iff (src : MergeNode) (srcs : List MergeNode) :
    ((src :: srcs).map (bch2BtreeSortInto (mergeNodeU64sAndFormat src srcs).2)).sum ≤
        (mergeNodeU64sAndFormat src srcs).1 ↔
      ((src :: srcs).map underCounted).sum ≤
        ((src :: srcs).map (overCounted (mergeNodeU64sAndFormat src srcs).2)).sum := by
  obtain ⟨newF, hnewF⟩ : ∃ newF, newF = (mergeNodeU64sAndFormat src srcs).2 := ⟨_, rfl⟩
  have htotal : (mergeNodeU64sAndFormat src srcs).1 =
      ((src :: srcs).map fun b => btreeNodeU64sWithFormat b newF).sum := by
    rw [hnewF]
    rfl
  have hkf : newF.keyU64s ≤ 3 := hnewF ▸ mergeFormat_keyU64s_le _ _ _
  have hfits : ∀ b ∈ src :: srcs, ∀ x ∈ b.keys, bch2BkeyPackKey newF x.k = plain x.k :=
    fun b hb x hx => hnewF ▸ fits_mergeFormat_iff _ _ hb hx
  have hsum := sortInto_sum_add (hkf.trans (by decide)) hfits
  have hpos : 0 < bkeyU64s - newF.keyU64s := by
    rw [bkeyU64s]
    omega
  have hscale : (bkeyU64s - newF.keyU64s) * ((src :: srcs).map underCounted).sum ≤
      (bkeyU64s - newF.keyU64s) * ((src :: srcs).map (overCounted newF)).sum ↔ _ :=
    Nat.mul_le_mul_left_iff hpos
  rw [← hnewF, htotal, ← hscale]
  omega

/-- A node of the format of unpacked keys with one extent in it. -/
def extentNode (lo hi offset : Fin (2 ^ 64)) : MergeNode where
  minKey := ⟨1, lo, 0⟩
  maxKey := ⟨1, hi, 0⟩
  format := bkeyFormatCurrent
  keys := [⟨{ p := ⟨1, offset, 0⟩, type := 6, size := 8, val := [0] }, true⟩]
  fits := by
    intro x hx _
    rw [List.mem_singleton.mp hx]
    simp [bch2BkeyPackKey, bkeyFormatCurrent, Bkey.fieldValues, fieldFits]

/-- Two nodes with an extent each: both are counted as packed and are written unpacked. -/
theorem extent_merge_underestimated :
    (mergeNodeU64sAndFormat (extentNode 0 15 8) [extentNode 16 31 24]).1 = 4 ∧
      ¬([extentNode 0 15 8, extentNode 16 31 24].map (bch2BtreeSortInto
        (mergeNodeU64sAndFormat (extentNode 0 15 8) [extentNode 16 31 24]).2)).sum ≤ 4 := by
  decide +kernel

end Subvol

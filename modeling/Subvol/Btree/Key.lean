import Mathlib.Algebra.Order.Ring.Nat
import Mathlib.Data.Fin.Basic
import Mathlib.Order.Basic
import Mathlib.Tactic.Common
import Subvol.Lib.Numerals

/-!
# Positions and keys

Model of the keys of `bkey.rs`. A position has an inode, an offset and a snapshot and is ordered
by them in this order. A key in a node is stored packed under the format of the node when its
fields fit, and unpacked otherwise; the model keeps its fields, its value, the number of words of
its key part and the bit `needs_whiteout` of its format byte.

## Main definitions

* `Bpos`, `bposCmp`: positions and their comparison.
* `Bkey`, `BkeyFormat`, `BkeyPacked`.
* `bch2BkeyPackKey`, `bch2BkeyPackPos`: the number of words of the stored key part.
* `bch2BkeyFormatDone`: the format built from keys and positions.
-/

namespace Subvol

/-! ### Positions -/

/-- `KEY_OFFSET_MAX`. -/
def keyOffsetMax : ℕ := 2 ^ 64 - 1

/-- `KEY_SNAPSHOT_MAX`. -/
def keySnapshotMax : ℕ := 2 ^ 32 - 1

/-- `bpos`. -/
structure Bpos where
  inode : Fin (2 ^ 64)
  offset : Fin (2 ^ 64)
  snapshot : Fin (2 ^ 32)
deriving Repr

namespace Bpos

/-- The place of a position in their order. -/
def toNat (p : Bpos) : ℕ := (p.inode * 2 ^ 64 + p.offset) * 2 ^ 32 + p.snapshot

theorem toNat_injective : Function.Injective toNat := by
  rintro ⟨⟨i, hi⟩, ⟨o, ho⟩, ⟨s, hs⟩⟩ ⟨⟨i', hi'⟩, ⟨o', ho'⟩, ⟨s', hs'⟩⟩ h
  simp only [toNat] at h
  obtain ⟨rfl, rfl, rfl⟩ : i = i' ∧ o = o' ∧ s = s' := by omega
  rfl

instance : LinearOrder Bpos := LinearOrder.lift' toNat toNat_injective

theorem lt_iff_toNat {l r : Bpos} : l < r ↔ l.toNat < r.toNat := Iff.rfl

theorem le_iff_toNat {l r : Bpos} : l ≤ r ↔ l.toNat ≤ r.toNat := Iff.rfl

end Bpos

/-- `bpos_cmp`. -/
def bposCmp (l r : Bpos) : ℤ :=
  if l.inode ≠ r.inode then (if l.inode < r.inode then -1 else 1)
  else if l.offset ≠ r.offset then (if l.offset < r.offset then -1 else 1)
  else if l.snapshot ≠ r.snapshot then (if l.snapshot < r.snapshot then -1 else 1)
  else 0

/-- The comparison of positions is that of their places. -/
theorem bposCmp_neg_iff (l r : Bpos) : bposCmp l r < 0 ↔ l < r := by
  obtain ⟨⟨i, hi⟩, ⟨o, ho⟩, ⟨s, hs⟩⟩ := l
  obtain ⟨⟨i', hi'⟩, ⟨o', ho'⟩, ⟨s', hs'⟩⟩ := r
  simp only [Bpos.lt_iff_toNat, Bpos.toNat, bposCmp, ne_eq, Fin.mk.injEq, Fin.mk_lt_mk]
  split_ifs <;> omega

theorem bposCmp_pos_iff (l r : Bpos) : 0 < bposCmp l r ↔ r < l := by
  obtain ⟨⟨i, hi⟩, ⟨o, ho⟩, ⟨s, hs⟩⟩ := l
  obtain ⟨⟨i', hi'⟩, ⟨o', ho'⟩, ⟨s', hs'⟩⟩ := r
  simp only [Bpos.lt_iff_toNat, Bpos.toNat, bposCmp, ne_eq, Fin.mk.injEq, Fin.mk_lt_mk]
  split_ifs <;> omega

theorem bposCmp_zero_iff (l r : Bpos) : bposCmp l r = 0 ↔ l = r := by
  have hneg := bposCmp_neg_iff l r
  have hpos := bposCmp_pos_iff l r
  constructor
  · intro h
    apply le_antisymm
    · exact not_lt.mp fun hlt => by have := hpos.mpr hlt; omega
    · exact not_lt.mp fun hlt => by have := hneg.mpr hlt; omega
  · rintro rfl
    have hle := not_lt.mp (mt hneg.mp (lt_irrefl _))
    have hge := not_lt.mp (mt hpos.mp (lt_irrefl _))
    omega

/-! ### Keys -/

/-- `BKEY_U64S`, the words of an unpacked key without its value. -/
def bkeyU64s : ℕ := 5

/-- `KEY_TYPE_deleted`. -/
def keyTypeDeleted : ℕ := 0

/-- `KEY_TYPE_btree_ptr`. -/
def keyTypeBtreePtr : ℕ := 5

/-- `KEY_TYPE_extent`. -/
def keyTypeExtent : ℕ := 6

/-- `KEY_TYPE_stripe`. -/
def keyTypeStripe : ℕ := 14

/-- `KEY_TYPE_reflink_v`. -/
def keyTypeReflinkV : ℕ := 16

/-- `KEY_TYPE_btree_ptr_v2`. -/
def keyTypeBtreePtrV2 : ℕ := 18

/-- `bkey_i`: a key and its value. -/
structure Bkey where
  p : Bpos
  type : ℕ
  size : ℕ := 0
  versionHi : ℕ := 0
  versionLo : ℕ := 0
  val : List UInt64
deriving DecidableEq, Repr

/-- `k.u64s` of an unpacked key. -/
def Bkey.u64s (k : Bkey) : ℕ := bkeyU64s + k.val.length

/-- `bkey_deleted`. -/
def Bkey.deleted (k : Bkey) : Bool := k.type == keyTypeDeleted

/-- `bkey_field_values`. -/
def Bkey.fieldValues (k : Bkey) : List ℕ :=
  [k.p.inode, k.p.offset, k.p.snapshot, k.size, k.versionHi, k.versionLo]

/-- `bkey_format`: the words of a packed key and the bits and offset of each field. -/
structure BkeyFormat where
  keyU64s : ℕ
  fields : List (ℕ × ℕ)
deriving DecidableEq, Repr

/-- `BKEY_FORMAT_CURRENT`. -/
def bkeyFormatCurrent : BkeyFormat where
  keyU64s := bkeyU64s
  fields := [(64, 0), (64, 0), (32, 0), (32, 0), (32, 0), (64, 0)]

/-- Whether `set_inc_field` takes the value. -/
def fieldFits (bitsOffset : ℕ × ℕ) (v : ℕ) : Bool :=
  decide (bitsOffset.2 ≤ v ∧ v - bitsOffset.2 < 2 ^ bitsOffset.1)

/-- `bch2_bkey_pack_key`: whether the fields of a key fit a format. -/
def bch2BkeyPackKey (f : BkeyFormat) (k : Bkey) : Bool :=
  (f.fields.zip k.fieldValues).all fun fv => fieldFits fv.1 fv.2

/-- `bch2_bkey_pack_pos`: the same for a position, whose other fields are not looked at. -/
def bch2BkeyPackPos (f : BkeyFormat) (p : Bpos) : Bool :=
  (f.fields.zip [p.inode.val, p.offset.val, p.snapshot.val]).all fun fv => fieldFits fv.1 fv.2

/-- `bkey_packed`: a key as it is stored in a node. -/
structure BkeyPacked where
  k : Bkey
  keyU64s : ℕ
  needsWhiteout : Bool
deriving DecidableEq, Repr

namespace BkeyPacked

/-- The position. -/
def pos (k : BkeyPacked) : Bpos := k.k.p

/-- `u64s` of the stored key. -/
def u64s (k : BkeyPacked) : ℕ := k.keyU64s + k.k.val.length

/-- `bkey_deleted` of the stored key. -/
def deleted (k : BkeyPacked) : Bool := k.k.deleted

/-- The key after its type and its bit were cleared in place. -/
def kill (k : BkeyPacked) : BkeyPacked :=
  { k with k := { k.k with type := keyTypeDeleted }, needsWhiteout := false }

/-- The key with its bit `needs_whiteout` set to `w`. -/
def mark (k : BkeyPacked) (w : Bool) : BkeyPacked := { k with needsWhiteout := w }

@[simp] theorem mark_k (k : BkeyPacked) (w : Bool) : (k.mark w).k = k.k := rfl

@[simp] theorem mark_pos (k : BkeyPacked) (w : Bool) : (k.mark w).pos = k.pos := rfl

@[simp] theorem mark_deleted (k : BkeyPacked) (w : Bool) : (k.mark w).deleted = k.deleted := rfl

@[simp] theorem mark_u64s (k : BkeyPacked) (w : Bool) : (k.mark w).u64s = k.u64s := rfl

@[simp] theorem mark_needsWhiteout (k : BkeyPacked) (w : Bool) :
    (k.mark w).needsWhiteout = w := rfl

@[simp] theorem kill_pos (k : BkeyPacked) : k.kill.pos = k.pos := rfl

@[simp] theorem kill_deleted (k : BkeyPacked) : k.kill.deleted = true := rfl

@[simp] theorem kill_needsWhiteout (k : BkeyPacked) : k.kill.needsWhiteout = false := rfl

@[simp] theorem kill_u64s (k : BkeyPacked) : k.kill.u64s = k.u64s := rfl

end BkeyPacked

/-- The stored form of a key in a node of the given format. -/
def packKey (f : BkeyFormat) (k : Bkey) (needsWhiteout : Bool) : BkeyPacked where
  k := k
  keyU64s := if bch2BkeyPackKey f k then f.keyU64s else bkeyU64s
  needsWhiteout := needsWhiteout

@[simp] theorem packKey_pos (f : BkeyFormat) (k : Bkey) (nw : Bool) :
    (packKey f k nw).pos = k.p := rfl

@[simp] theorem packKey_deleted (f : BkeyFormat) (k : Bkey) (nw : Bool) :
    (packKey f k nw).deleted = k.deleted := rfl

@[simp] theorem packKey_needsWhiteout (f : BkeyFormat) (k : Bkey) (nw : Bool) :
    (packKey f k nw).needsWhiteout = nw := rfl

/-- The whiteout that `bch2_push_whiteout` stores. -/
def whiteoutKey (f : BkeyFormat) (p : Bpos) : BkeyPacked where
  k := { p := p, type := keyTypeDeleted, val := [] }
  keyU64s := if bch2BkeyPackPos f p then f.keyU64s else bkeyU64s
  needsWhiteout := true

@[simp] theorem whiteoutKey_pos (f : BkeyFormat) (p : Bpos) : (whiteoutKey f p).pos = p := rfl

@[simp] theorem whiteoutKey_deleted (f : BkeyFormat) (p : Bpos) :
    (whiteoutKey f p).deleted = true := rfl

/-! ### Building a format -/

/-- `bkey_format_state`: the least and the greatest value of each field so far. -/
abbrev BkeyFormatState := List (ℕ × ℕ)

/-- `bch2_bkey_format_init`. -/
def bch2BkeyFormatInit : BkeyFormatState :=
  (List.replicate 6 (2 ^ 64 - 1, 0)).set 3 (0, 0)

/-- `__bkey_format_add` for the first fields. -/
def bkeyFormatAdd (state : BkeyFormatState) (vs : List ℕ) : BkeyFormatState :=
  state.mapIdx fun i f => match vs[i]? with
    | some v => (min f.1 v, max f.2 v)
    | none => f

/-- `bch2_bkey_format_add_key`. -/
def bch2BkeyFormatAddKey (state : BkeyFormatState) (k : Bkey) : BkeyFormatState :=
  bkeyFormatAdd state k.fieldValues

/-- `bch2_bkey_format_add_pos`. -/
def bch2BkeyFormatAddPos (state : BkeyFormatState) (p : Bpos) : BkeyFormatState :=
  bkeyFormatAdd state [p.inode, p.offset, p.snapshot]

/-- `set_format_field`: the bits and the offset of a field that has `unpackedBits` in an unpacked
key. -/
def setFormatField (unpackedBits bits offset : ℕ) : ℕ × ℕ :=
  let bits := min bits unpackedBits
  (bits, if bits = unpackedBits then 0 else min offset (2 ^ unpackedBits - 2 ^ bits))

/-- `KEY_PACKED_BITS_START`. -/
def keyPackedBitsStart : ℕ := 24

/-- The bits of a number without its leading zeros. -/
def bitsOf (n : ℕ) : ℕ := if n = 0 then 0 else n.log2 + 1

theorem lt_two_pow_bitsOf (n : ℕ) : n < 2 ^ bitsOf n := by
  rw [bitsOf]
  split_ifs with h
  · simp [h]
  · exact Nat.lt_log2_self

/-- The second loop of `bch2_bkey_format_done`: the bits that are left over round fields up to whole
bytes. -/
def roundFields : ℕ → List (ℕ × ℕ × ℕ) → List (ℕ × ℕ)
  | _, [] => []
  | left, (unpackedBits, bits, offset) :: rest =>
    let extra := (bits + 7) / 8 * 8 - bits
    if extra ≤ left then setFormatField unpackedBits (bits + extra) offset ::
      roundFields (left - extra) rest
    else (bits, offset) :: roundFields left rest

/-- `bch2_bkey_format_done`. -/
def bch2BkeyFormatDone (state : BkeyFormatState) : BkeyFormat :=
  let unpacked := bkeyFormatCurrent.fields.map Prod.fst
  let fields := (unpacked.zip state).map fun f =>
    setFormatField f.1 (bitsOf (f.2.2 - min f.2.1 f.2.2)) (min f.2.1 f.2.2)
  let bits := keyPackedBitsStart + (fields.map Prod.fst).sum
  let keyU64s := (bits + 63) / 64
  ⟨keyU64s, roundFields (keyU64s * 64 - bits) (unpacked.zip fields)⟩

end Subvol

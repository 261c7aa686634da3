import Mathlib.Algebra.Order.Ring.Int
import Mathlib.Data.Nat.Log
import Subvol.Lib.Image

/-!
# The fields of a superblock

Behind the fixed part of a superblock lie its fields, one after another; the first word of a field
has its length in words and its type. Model of the functions of `io.rs` that find, resize and delete
fields. The words are counted from the first field on.

Sums of lengths are those of `u32`, which come round. Where a build checks them, the sum of
`__bch2_sb_field_resize` may stop the program before anything is written.

## Main definitions

* `SbHandle`: a superblock in its buffer.
* `bch2SbFieldGetId`, `bch2SbRealloc`, `bch2SbFieldResizeAt`.
* `bch2SbFieldResizeId`, `bch2SbFieldGetMinsizeId`, `bch2SbFieldDelete`.
-/

namespace Subvol

open Lib

/-! ### Superblocks -/

/-- `size_of::<bch_sb>()`. -/
def sbBytes : ℕ := 752

/-- `__vstruct_bytes`. -/
def vstructBytes (u64s : ℕ) : ℕ := sbBytes + u64s * 8

/-- `bch_sb_handle`, with what the functions read of its superblock. -/
structure SbHandle where
  u64s : ℕ
  sbMaxSizeBits : ℕ
  words : Image (BitVec 64)
  bufferSize : ℕ
  /-- `BCH_SB_HANDLE_HAVE_LAYOUT`. -/
  haveLayout : Bool
  /-- `BCH_SB_HANDLE_FS_SB`. -/
  fsSb : Bool

/-- The length in the first word of a field. -/
def fieldU64s (w : BitVec 64) : ℕ := w.toNat % 2 ^ 32

/-- The type in the first word of a field. -/
def fieldType (w : BitVec 64) : ℕ := w.toNat / 2 ^ 32

/-- The first word of a field. -/
def fieldHeader (type u64s : ℕ) : BitVec 64 := BitVec.ofNat 64 (type * 2 ^ 32 + u64s)

/-- The loop of `bch2_sb_field_get_id`; it does not end at a field without words. -/
def fieldGetId (words : Image (BitVec 64)) (last type i : ℕ) : Option (Option ℕ) :=
  if i < last then
    if fieldType (words i) = type then some (some i)
    else if fieldU64s (words i) = 0 then none
    else fieldGetId words last type (i + fieldU64s (words i))
  else some none
termination_by last - i

/-- `bch2_sb_field_get_id`. -/
def bch2SbFieldGetId (sb : SbHandle) (type : ℕ) : Option (Option ℕ) :=
  fieldGetId sb.words sb.u64s type 0

/-! ### Resizing -/

/-- What the field is set to when its length is written. -/
def setFieldU64s (words : Image (BitVec 64)) (i u64s : ℕ) : Image (BitVec 64) :=
  words.writeAt i [fieldHeader (fieldType (words i)) u64s]

/-- What the field is set to when its type is written. -/
def setFieldType (words : Image (BitVec 64)) (i type : ℕ) : Image (BitVec 64) :=
  words.writeAt i [fieldHeader type (fieldU64s (words i))]

/-- `ptr::write_bytes` with zeros. -/
def zeroWords (words : Image (BitVec 64)) (i n : ℕ) : Image (BitVec 64) :=
  words.writeAt i (List.replicate n 0)

/-- The length of a field that was found. -/
def oldU64s (sb : SbHandle) : Option ℕ → ℕ
  | none => 0
  | some i => fieldU64s (sb.words i)

/-- `__bch2_sb_field_resize`: the field, and the superblock. -/
def bch2SbFieldResizeAt (sb : SbHandle) (field : Option ℕ) (u64s : ℕ) :
    Option (Option ℕ × SbHandle) :=
  let sbU64s := (sb.u64s + u64s + (2 ^ 32 - oldU64s sb field)) % 2 ^ 32
  if vstructBytes sbU64s ≤ sb.bufferSize then
    match field with
    | none =>
      if u64s = 0 then some (none, { sb with u64s := sbU64s })
      else
        let words := zeroWords sb.words sb.u64s u64s
        let words := setFieldU64s words sb.u64s u64s
        let words := setFieldType words sb.u64s 0
        some (some sb.u64s, { sb with u64s := sbU64s, words })
    | some i =>
      let src := i + oldU64s sb field
      let words := if u64s ≠ 0 then setFieldU64s sb.words i u64s else sb.words
      let dst := i + u64s
      let words := words.writeAt dst (words.readAt src (sb.u64s - src))
      let words := if dst > src then zeroWords words src (dst - src) else words
      some (if u64s ≠ 0 then some i else none, { sb with u64s := sbU64s, words })
  else none

/-- The errors of `bch2_sb_realloc`. -/
inductive SbReallocErr
  | enospcSb
  | enomemSbBufRealloc
deriving DecidableEq, Repr

/-- `next_power_of_two`. -/
def nextPowerOfTwo (n : ℕ) : ℕ := 2 ^ Nat.clog 2 n

theorem le_nextPowerOfTwo (n : ℕ) : n ≤ nextPowerOfTwo n := Nat.le_pow_clog Nat.one_lt_two n

/-- `bch2_sb_realloc`, of a superblock that is there; `alloc` tells whether there is memory. -/
def bch2SbRealloc (sb : SbHandle) (u64s : ℕ) (alloc : Bool) : Except SbReallocErr SbHandle :=
  let newBytes := vstructBytes u64s
  let newBufferSize := nextPowerOfTwo newBytes
  if sb.bufferSize ≥ newBufferSize then .ok sb
  else if sb.haveLayout ∧ newBytes > 512 <<< (sb.sbMaxSizeBits % 64) % 2 ^ 64 then .error .enospcSb
  else if ¬alloc then .error .enomemSbBufRealloc
  else .ok { sb with
    words := fun i => if vstructBytes (i + 1) ≤ sb.bufferSize then sb.words i else 0
    bufferSize := newBufferSize }

/-- The length that `bch2_sb_field_resize_id` asks for. -/
def resizedU64s (sb : SbHandle) (field : Option ℕ) (u64s : ℕ) : ℕ :=
  (((sb.u64s : ℤ) - oldU64s sb field + u64s) % 2 ^ 32).toNat

/-- `bch2_sb_field_resize_id`. -/
def bch2SbFieldResizeId (sb : SbHandle) (type u64s : ℕ) (alloc : Bool) :
    Option (Option ℕ × SbHandle) :=
  match bch2SbFieldGetId sb type with
  | none => none
  | some field =>
    match bch2SbRealloc sb (resizedU64s sb field u64s) alloc with
    | .error _ => some (none, sb)
    | .ok sb =>
      if sb.fsSb then some (none, sb)
      else
        match bch2SbFieldGetId sb type with
        | none => none
        | some field =>
          match bch2SbFieldResizeAt sb field u64s with
          | none => none
          | some (none, sb) => some (none, sb)
          | some (some i, sb) => some (some i, { sb with words := setFieldType sb.words i type })

/-- `bch2_sb_field_get_minsize_id`. -/
def bch2SbFieldGetMinsizeId (sb : SbHandle) (type u64s : ℕ) (alloc : Bool) :
    Option (Option ℕ × SbHandle) :=
  match bch2SbFieldGetId sb type with
  | none => none
  | some none => bch2SbFieldResizeId sb type u64s alloc
  | some (some i) =>
    if fieldU64s (sb.words i) < u64s then bch2SbFieldResizeId sb type u64s alloc
    else some (some i, sb)

/-- `bch2_sb_field_delete`. -/
def bch2SbFieldDelete (sb : SbHandle) (type : ℕ) : Option SbHandle :=
  match bch2SbFieldGetId sb type with
  | none => none
  | some none => some sb
  | some (some i) => (bch2SbFieldResizeAt sb (some i) 0).map Prod.snd

end Subvol

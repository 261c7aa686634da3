import Subvol.Lib.BitField
import Subvol.Value.Entry

/-!
# Crc entries

A crc entry describes the checksum, the compression and the sizes of the pointers behind it. Model
of its three packed forms, which differ in the bits of their fields, and of
`bch2_extent_crc_append`, which picks the smallest form that will do.

## Main definitions

* `CrcUnpacked`: `bch_extent_crc_unpacked`.
* `bch2ExtentCrcUnpack`, `bch2ExtentCrcPack`: reading and writing an entry.
* `MemKey.ptrs`: where the entries of a key are.
* `bch2ExtentCrcAppend`.
* `CrcFits`: the values fit the fields of a form.

## Main results

* `unpack_pack`: a form that fits reads back what was packed.
* `bch2ExtentCrcAppend_spec`.
-/

namespace Subvol

open Lib

/-! ### The entries of a key -/

/-- The range of offsets that `bch2_bkey_ptrs` returns, if it is not null. The words of a stripe
start with a header that has the number of its pointers in the fourth byte. -/
def MemKey.ptrs (k : MemKey) : Option (ℕ × ℕ) :=
  if k.type = keyTypeBtreePtrV2 then some (5, k.valU64s)
  else if k.type = keyTypeStripe then k.mem[0]?.map fun w => (1, 1 + field 24 8 w.toNat)
  else if k.type = keyTypeBtreePtr ∨ k.type = keyTypeExtent ∨ k.type = keyTypeReflinkV then
    some (0, k.valU64s)
  else none

/-! ### Packing and unpacking -/

/-- `bch_extent_crc_unpacked`. -/
@[ext]
structure CrcUnpacked where
  compressedSize : ℕ
  uncompressedSize : ℕ
  liveSize : ℕ
  csumType : ℕ := 0
  compressionType : ℕ := 0
  offset : ℕ := 0
  nonce : ℕ := 0
  csumLo : UInt64 := 0
  csumHi : UInt64 := 0
deriving DecidableEq, Repr

/-- `bch2_extent_crc_unpack` of the null pointer. -/
def crcNull (size : ℕ) : CrcUnpacked where
  compressedSize := size
  uncompressedSize := size
  liveSize := size

/-- `bch2_extent_crc_unpack` of the entry at an offset. The two halves of the word of a crc32
are its fields and its checksum. -/
def bch2ExtentCrcUnpack (size : ℕ) (mem : List UInt64) (crc : ℕ) : Option CrcUnpacked := do
  let w ← mem[crc]?
  let n := w.toNat
  if extentEntryType w = extentEntryCrc32 then
    some
      { compressedSize := field 2 7 n + 1
        uncompressedSize := field 9 7 n + 1
        liveSize := size
        offset := field 16 7 n
        csumType := field 24 4 n
        compressionType := field 28 4 n
        csumLo := UInt64.ofNat (field 32 32 n) }
  else if extentEntryType w = extentEntryCrc64 then do
    let lo ← mem[crc + 1]?
    some
      { compressedSize := field 3 9 n + 1
        uncompressedSize := field 12 9 n + 1
        liveSize := size
        offset := field 21 9 n
        nonce := field 30 10 n
        csumType := field 40 4 n
        compressionType := field 44 4 n
        csumLo := lo
        csumHi := UInt64.ofNat (field 48 16 n) }
  else if extentEntryType w = extentEntryCrc128 then do
    let lo ← mem[crc + 1]?
    let hi ← mem[crc + 2]?
    some
      { compressedSize := field 4 13 n + 1
        uncompressedSize := field 17 13 n + 1
        liveSize := size
        offset := field 30 13 n
        nonce := field 43 13 n
        csumType := field 56 4 n
        compressionType := field 60 4 n
        csumLo := lo
        csumHi := hi }
  else none

/-- The fields of `bch_extent_crc32`. -/
def crc32Fields (src : CrcUnpacked) : List FieldValue :=
  [⟨1, 1, 1⟩, ⟨2, 7, src.compressedSize - 1⟩, ⟨9, 7, src.uncompressedSize - 1⟩,
    ⟨16, 7, src.offset⟩, ⟨24, 4, src.csumType⟩, ⟨28, 4, src.compressionType⟩,
    ⟨32, 32, src.csumLo.toNat⟩]

/-- The fields of the first word of `bch_extent_crc64`. -/
def crc64Fields (src : CrcUnpacked) : List FieldValue :=
  [⟨2, 1, 1⟩, ⟨3, 9, src.compressedSize - 1⟩, ⟨12, 9, src.uncompressedSize - 1⟩,
    ⟨21, 9, src.offset⟩, ⟨30, 10, src.nonce⟩, ⟨40, 4, src.csumType⟩,
    ⟨44, 4, src.compressionType⟩, ⟨48, 16, src.csumHi.toNat⟩]

/-- The fields of the first word of `bch_extent_crc128`. -/
def crc128Fields (src : CrcUnpacked) : List FieldValue :=
  [⟨3, 1, 1⟩, ⟨4, 13, src.compressedSize - 1⟩, ⟨17, 13, src.uncompressedSize - 1⟩,
    ⟨30, 13, src.offset⟩, ⟨43, 13, src.nonce⟩, ⟨56, 4, src.csumType⟩,
    ⟨60, 4, src.compressionType⟩]

/-- `bch2_extent_crc_pack`: the words written. -/
def bch2ExtentCrcPack (src : CrcUnpacked) (type : ℕ) : Option (List UInt64) :=
  if src.compressedSize = 0 ∨ src.uncompressedSize = 0 then none
  else if type = extentEntryCrc32 then some [UInt64.ofNat (packFields (crc32Fields src))]
  else if type = extentEntryCrc64 then
    some [UInt64.ofNat (packFields (crc64Fields src)), src.csumLo]
  else if type = extentEntryCrc128 then
    some [UInt64.ofNat (packFields (crc128Fields src)), src.csumLo, src.csumHi]
  else none

/-! ### Appending -/

/-- `bch_crc_bytes`. -/
def bchCrcBytes : List ℕ := [0, 4, 8, 10, 16, 4, 8, 8]

/-- `CRC32_SIZE_MAX`, `CRC64_SIZE_MAX` and `CRC128_SIZE_MAX`, as `bch2_crc_field_size_max` has
them. -/
def crcSizeMax (type : ℕ) : ℕ :=
  if type = extentEntryCrc32 then 2 ^ 7
  else if type = extentEntryCrc64 then 2 ^ 9
  else if type = extentEntryCrc128 then 2 ^ 13
  else 0

/-- `CRC32_NONCE_MAX`, `CRC64_NONCE_MAX` and `CRC128_NONCE_MAX`. -/
def crcNonceMax (type : ℕ) : ℕ :=
  if type = extentEntryCrc64 then 2 ^ 10 - 1
  else if type = extentEntryCrc128 then 2 ^ 13 - 1
  else 0

/-- The bytes of checksum that a form has room for. -/
def crcCsumBytes (type : ℕ) : ℕ :=
  if type = extentEntryCrc32 then 4 else if type = extentEntryCrc64 then 10 else 16

/-- The form `bch2_extent_crc_append` picks for a checksum of some bytes. -/
def crcEntryType (bytes : ℕ) (new : CrcUnpacked) : Option ℕ :=
  let will (type : ℕ) : Bool :=
    bytes ≤ crcCsumBytes type && new.uncompressedSize ≤ crcSizeMax type &&
      new.nonce ≤ crcNonceMax type
  if will extentEntryCrc32 then some extentEntryCrc32
  else if will extentEntryCrc64 then some extentEntryCrc64
  else if will extentEntryCrc128 then some extentEntryCrc128
  else none

/-- `BKEY_EXTENT_VAL_U64S_MAX`. -/
def bkeyExtentValU64sMax : ℕ := 41

/-- `bch2_extent_crc_append`. -/
def bch2ExtentCrcAppend (k : MemKey) (new : CrcUnpacked) : Option MemKey := do
  let (_, stop) ← k.ptrs
  let bytes ← bchCrcBytes[new.csumType]?
  let type ← crcEntryType bytes new
  let ws ← bch2ExtentCrcPack new type
  let mem ← writeWords k.mem stop ws
  let w ← mem[stop]?
  let u64s ← extentEntryU64s w
  let k' := { k with mem := mem, u64s := (k.u64s + u64s) % 2 ^ 8 }
  if k'.valU64s ≤ bkeyExtentValU64sMax then some k' else none

section Forms

@[simp] theorem crcSizeMax_crc32 : crcSizeMax extentEntryCrc32 = 2 ^ 7 := rfl

@[simp] theorem crcSizeMax_crc64 : crcSizeMax extentEntryCrc64 = 2 ^ 9 := rfl

@[simp] theorem crcSizeMax_crc128 : crcSizeMax extentEntryCrc128 = 2 ^ 13 := rfl

@[simp] theorem crcNonceMax_crc32 : crcNonceMax extentEntryCrc32 = 0 := rfl

@[simp] theorem crcNonceMax_crc64 : crcNonceMax extentEntryCrc64 = 2 ^ 10 - 1 := rfl

@[simp] theorem crcNonceMax_crc128 : crcNonceMax extentEntryCrc128 = 2 ^ 13 - 1 := rfl

@[simp] theorem crcCsumBytes_crc32 : crcCsumBytes extentEntryCrc32 = 4 := rfl

@[simp] theorem crcCsumBytes_crc64 : crcCsumBytes extentEntryCrc64 = 10 := rfl

@[simp] theorem crcCsumBytes_crc128 : crcCsumBytes extentEntryCrc128 = 16 := rfl

end Forms

/-! ### What a form can hold -/

/-- The fields of a form hold the values. -/
structure CrcFits (type : ℕ) (crc : CrcUnpacked) : Prop where
  form : type = extentEntryCrc32 ∨ type = extentEntryCrc64 ∨ type = extentEntryCrc128
  compressedSize : 1 ≤ crc.compressedSize ∧ crc.compressedSize ≤ crcSizeMax type
  uncompressedSize : 1 ≤ crc.uncompressedSize ∧ crc.uncompressedSize ≤ crcSizeMax type
  offset : crc.offset < crcSizeMax type
  nonce : crc.nonce ≤ crcNonceMax type
  csumType : crc.csumType < 2 ^ 4
  compressionType : crc.compressionType < 2 ^ 4
  csum : crc.csumHi.toNat * 2 ^ 64 + crc.csumLo.toNat < 2 ^ (8 * crcCsumBytes type)

theorem toNat_ofNat_packFields {fs : List FieldValue} (h : ∀ f ∈ fs, f.off + f.len ≤ 64) :
    (UInt64.ofNat (packFields fs)).toNat = packFields fs :=
  UInt64.toNat_ofNat_of_lt (packFields_lt h)

/-- The type of a word is the place of its lowest bit. -/
theorem extentEntryType_eq {w : UInt64} {t : ℕ} (ht : t < 64) (hbit : w.toNat.testBit t = true)
    (hlow : ∀ i < t, w.toNat.testBit i = false) : extentEntryType w = t := by
  have hfind : (List.range 64).find? (fun i => w.toNat.testBit i) = some t := by
    rw [List.find?_range_eq_some]
    exact ⟨hbit, List.mem_range.mpr ht, fun i hi => by simp [hlow i hi]⟩
  rw [extentEntryType, hfind, Option.getD_some]

/-- A packed word has the type its first field says. -/
theorem extentEntryType_packFields {t : ℕ} (ht : t < 64) {fs : List FieldValue}
    (hfits : ∀ f ∈ FieldValue.mk t 1 1 :: fs, f.off + f.len ≤ 64)
    (hapart : FieldsApart (FieldValue.mk t 1 1 :: fs)) (hlow : ∀ f ∈ fs, t ≤ f.off) :
    extentEntryType (UInt64.ofNat (packFields (FieldValue.mk t 1 1 :: fs))) = t := by
  have hnat := toNat_ofNat_packFields hfits
  apply extentEntryType_eq ht
  · have hself : FieldValue.mk t 1 1 ∈ FieldValue.mk t 1 1 :: fs := List.mem_cons_self ..
    rw [hnat]
    simpa using testBit_packFields_of_mem hapart hself Nat.one_pos
  · intro i hi
    rw [hnat]
    refine testBit_packFields_below fun f hf => ?_
    rcases List.mem_cons.mp hf with rfl | hf
    · exact hi
    · exact hi.trans_le (hlow f hf)

theorem crc32Fields_apart (src : CrcUnpacked) : FieldsApart (crc32Fields src) := by
  simp [FieldsApart, crc32Fields, FieldsDisjoint]

theorem crc64Fields_apart (src : CrcUnpacked) : FieldsApart (crc64Fields src) := by
  simp [FieldsApart, crc64Fields, FieldsDisjoint]

theorem crc128Fields_apart (src : CrcUnpacked) : FieldsApart (crc128Fields src) := by
  simp [FieldsApart, crc128Fields, FieldsDisjoint]

theorem crc32Fields_fit (src : CrcUnpacked) : ∀ f ∈ crc32Fields src, f.off + f.len ≤ 64 := by
  simp [crc32Fields]

theorem crc64Fields_fit (src : CrcUnpacked) : ∀ f ∈ crc64Fields src, f.off + f.len ≤ 64 := by
  simp [crc64Fields]

theorem crc128Fields_fit (src : CrcUnpacked) : ∀ f ∈ crc128Fields src, f.off + f.len ≤ 64 := by
  simp [crc128Fields]

/-- A field of a packed word reads a value that fits it. -/
theorem field_packed {fs : List FieldValue} (h : FieldsApart fs) {off len v : ℕ}
    (hf : FieldValue.mk off len v ∈ fs) (hv : v < 2 ^ len) :
    field off len (packFields fs) = v :=
  (field_packFields h hf).trans (Nat.mod_eq_of_lt hv)

section Unpack

variable {src : CrcUnpacked} {mem : List UInt64} {crc : ℕ}

theorem unpack_pack_crc32 (h : CrcFits extentEntryCrc32 src)
    (hmem : mem[crc]? = some (UInt64.ofNat (packFields (crc32Fields src)))) :
    bch2ExtentCrcUnpack src.liveSize mem crc = some src := by
  have htype : extentEntryType (UInt64.ofNat (packFields (crc32Fields src))) = extentEntryCrc32 :=
    extentEntryType_packFields (by decide) (crc32Fields_fit src) (crc32Fields_apart src)
      (by simp)
  have hread : ∀ {off len v : ℕ}, FieldValue.mk off len v ∈ crc32Fields src → v < 2 ^ len →
      field off len (packFields (crc32Fields src)) = v :=
    fun hf hv => field_packed (crc32Fields_apart src) hf hv
  obtain ⟨-, hcs, hus, hoff, hnonce, hct, hcomp, hcsum⟩ := h
  simp only [crcSizeMax_crc32, crcNonceMax_crc32, crcCsumBytes_crc32] at hcs hus hoff hnonce hcsum
  have hcs' : field 2 7 _ = _ :=
    hread (v := src.compressedSize - 1) (by simp [crc32Fields]) (by omega)
  have hus' : field 9 7 _ = _ :=
    hread (v := src.uncompressedSize - 1) (by simp [crc32Fields]) (by omega)
  have hoff' : field 16 7 _ = _ := hread (v := src.offset) (by simp [crc32Fields]) hoff
  have hct' : field 24 4 _ = _ := hread (v := src.csumType) (by simp [crc32Fields]) hct
  have hcomp' : field 28 4 _ = _ := hread (v := src.compressionType) (by simp [crc32Fields]) hcomp
  have hlo' : field 32 32 _ = _ := hread (v := src.csumLo.toNat) (by simp [crc32Fields]) (by omega)
  have hhi : src.csumHi = 0 := UInt64.toNat_inj.mp (by change _ = 0; omega)
  simp only [bch2ExtentCrcUnpack, hmem, Option.bind_eq_bind, Option.bind_some, htype, if_true,
    toNat_ofNat_packFields (crc32Fields_fit src), hcs', hus', hoff', hct', hcomp', hlo',
    UInt64.ofNat_toNat, Option.some.injEq]
  ext
  · exact Nat.sub_add_cancel hcs.1
  · exact Nat.sub_add_cancel hus.1
  · rfl
  · rfl
  · rfl
  · rfl
  · exact (Nat.le_zero.mp hnonce).symm
  · rfl
  · rw [hhi]

theorem unpack_pack_crc64 (h : CrcFits extentEntryCrc64 src)
    (hmem : mem[crc]? = some (UInt64.ofNat (packFields (crc64Fields src))))
    (hlo : mem[crc + 1]? = some src.csumLo) :
    bch2ExtentCrcUnpack src.liveSize mem crc = some src := by
  have htype : extentEntryType (UInt64.ofNat (packFields (crc64Fields src))) = extentEntryCrc64 :=
    extentEntryType_packFields (by decide) (crc64Fields_fit src) (crc64Fields_apart src)
      (by simp)
  have hread : ∀ {off len v : ℕ}, FieldValue.mk off len v ∈ crc64Fields src → v < 2 ^ len →
      field off len (packFields (crc64Fields src)) = v :=
    fun hf hv => field_packed (crc64Fields_apart src) hf hv
  obtain ⟨-, hcs, hus, hoff, hnonce, hct, hcomp, hcsum⟩ := h
  simp only [crcSizeMax_crc64, crcNonceMax_crc64, crcCsumBytes_crc64] at hcs hus hoff hnonce hcsum
  have hcs' : field 3 9 _ = _ :=
    hread (v := src.compressedSize - 1) (by simp [crc64Fields]) (by omega)
  have hus' : field 12 9 _ = _ :=
    hread (v := src.uncompressedSize - 1) (by simp [crc64Fields]) (by omega)
  have hoff' : field 21 9 _ = _ := hread (v := src.offset) (by simp [crc64Fields]) hoff
  have hnonce' : field 30 10 _ = _ := hread (v := src.nonce) (by simp [crc64Fields]) (by omega)
  have hct' : field 40 4 _ = _ := hread (v := src.csumType) (by simp [crc64Fields]) hct
  have hcomp' : field 44 4 _ = _ := hread (v := src.compressionType) (by simp [crc64Fields]) hcomp
  have hhi' : field 48 16 _ = _ := hread (v := src.csumHi.toNat) (by simp [crc64Fields]) (by omega)
  have hne : extentEntryCrc64 ≠ extentEntryCrc32 := by decide
  simp only [bch2ExtentCrcUnpack, hmem, hlo, Option.bind_eq_bind, Option.bind_some, htype, hne,
    if_true, if_false, toNat_ofNat_packFields (crc64Fields_fit src), hcs', hus', hoff', hnonce',
    hct', hcomp', hhi', UInt64.ofNat_toNat, Option.some.injEq]
  ext
  · exact Nat.sub_add_cancel hcs.1
  · exact Nat.sub_add_cancel hus.1
  all_goals rfl

theorem unpack_pack_crc128 (h : CrcFits extentEntryCrc128 src)
    (hmem : mem[crc]? = some (UInt64.ofNat (packFields (crc128Fields src))))
    (hlo : mem[crc + 1]? = some src.csumLo) (hhi : mem[crc + 2]? = some src.csumHi) :
    bch2ExtentCrcUnpack src.liveSize mem crc = some src := by
  have htype :
      extentEntryType (UInt64.ofNat (packFields (crc128Fields src))) = extentEntryCrc128 :=
    extentEntryType_packFields (by decide) (crc128Fields_fit src) (crc128Fields_apart src)
      (by simp)
  have hread : ∀ {off len v : ℕ}, FieldValue.mk off len v ∈ crc128Fields src → v < 2 ^ len →
      field off len (packFields (crc128Fields src)) = v :=
    fun hf hv => field_packed (crc128Fields_apart src) hf hv
  obtain ⟨-, hcs, hus, hoff, hnonce, hct, hcomp, -⟩ := h
  simp only [crcSizeMax_crc128, crcNonceMax_crc128] at hcs hus hoff hnonce
  have hcs' : field 4 13 _ = _ :=
    hread (v := src.compressedSize - 1) (by simp [crc128Fields]) (by omega)
  have hus' : field 17 13 _ = _ :=
    hread (v := src.uncompressedSize - 1) (by simp [crc128Fields]) (by omega)
  have hoff' : field 30 13 _ = _ := hread (v := src.offset) (by simp [crc128Fields]) hoff
  have hnonce' : field 43 13 _ = _ := hread (v := src.nonce) (by simp [crc128Fields]) (by omega)
  have hct' : field 56 4 _ = _ := hread (v := src.csumType) (by simp [crc128Fields]) hct
  have hcomp' : field 60 4 _ = _ := hread (v := src.compressionType) (by simp [crc128Fields]) hcomp
  have hne : extentEntryCrc128 ≠ extentEntryCrc32 := by decide
  have hne' : extentEntryCrc128 ≠ extentEntryCrc64 := by decide
  simp only [bch2ExtentCrcUnpack, hmem, hlo, hhi, Option.bind_eq_bind, Option.bind_some, htype,
    hne, hne', if_true, if_false, toNat_ofNat_packFields (crc128Fields_fit src), hcs', hus',
    hoff', hnonce', hct', hcomp', Option.some.injEq]
  ext
  · exact Nat.sub_add_cancel hcs.1
  · exact Nat.sub_add_cancel hus.1
  all_goals rfl

end Unpack

/-! ### What appending does -/

/-- A descriptor that goes with a key: the key uses a part of what was checksummed. -/
structure CrcDescriptor (k : MemKey) (crc : CrcUnpacked) : Prop where
  compressedSize : 1 ≤ crc.compressedSize ∧ crc.compressedSize ≤ crc.uncompressedSize
  liveSize : 1 ≤ crc.liveSize ∧ crc.liveSize = k.size
  offset : crc.offset + crc.liveSize ≤ crc.uncompressedSize
  csumType : crc.csumType < 2 ^ 4
  compressionType : crc.compressionType < 2 ^ 4
  csum : ∀ bytes, bchCrcBytes[crc.csumType]? = some bytes →
    crc.csumHi.toNat * 2 ^ 64 + crc.csumLo.toNat < 2 ^ (8 * bytes)

variable {k k' : MemKey} {new : CrcUnpacked} {type : ℕ}

/-- The form that is picked is large enough. -/
theorem crcEntryType_some {bytes : ℕ} (h : crcEntryType bytes new = some type) :
    (type = extentEntryCrc32 ∨ type = extentEntryCrc64 ∨ type = extentEntryCrc128) ∧
      bytes ≤ crcCsumBytes type ∧ new.uncompressedSize ≤ crcSizeMax type ∧
      new.nonce ≤ crcNonceMax type := by
  simp only [crcEntryType, Bool.and_eq_true, decide_eq_true_eq] at h
  split_ifs at h with h32 h64 h128
  · obtain rfl := Option.some.inj h
    exact ⟨.inl rfl, h32.1.1, h32.1.2, h32.2⟩
  · obtain rfl := Option.some.inj h
    exact ⟨.inr (.inl rfl), h64.1.1, h64.1.2, h64.2⟩
  · obtain rfl := Option.some.inj h
    exact ⟨.inr (.inr rfl), h128.1.1, h128.1.2, h128.2⟩

theorem CrcDescriptor.fits (h : CrcDescriptor k new) {bytes : ℕ}
    (hbytes : bchCrcBytes[new.csumType]? = some bytes)
    (htype : crcEntryType bytes new = some type) : CrcFits type new := by
  obtain ⟨hform, hle, hsize, hnonce⟩ := crcEntryType_some htype
  have hc := h.compressedSize
  have hl := h.liveSize.1
  have ho := h.offset
  have hpow : 2 ^ (8 * bytes) ≤ 2 ^ (8 * crcCsumBytes type) :=
    Nat.pow_le_pow_right Nat.two_pos (by omega)
  exact ⟨hform, ⟨hc.1, hc.2.trans hsize⟩, ⟨hc.1.trans hc.2, hsize⟩, by omega, hnonce, h.csumType,
    h.compressionType, (h.csum bytes hbytes).trans_le hpow⟩

/-- A form that fits is read back as it was packed. -/
theorem unpack_pack (h : CrcFits type new) {ws mem mem' : List UInt64} {dst : ℕ}
    (hws : bch2ExtentCrcPack new type = some ws) (hmem : writeWords mem dst ws = some mem') :
    mem'[dst]?.map extentEntryType = some type ∧
      bch2ExtentCrcUnpack new.liveSize mem' dst = some new := by
  have hget := fun i hi => getElem?_writeWords hmem (i := i) hi
  rw [bch2ExtentCrcPack] at hws
  split_ifs at hws with hzero h32 h64 h128
  · obtain rfl := Option.some.inj hws
    subst h32
    have hfirst : mem'[dst]? = some (UInt64.ofNat (packFields (crc32Fields new))) :=
      hget 0 Nat.one_pos
    refine ⟨?_, unpack_pack_crc32 h hfirst⟩
    rw [hfirst]
    exact congrArg some (extentEntryType_packFields (by decide) (crc32Fields_fit new)
      (crc32Fields_apart new) (by simp))
  · obtain rfl := Option.some.inj hws
    subst h64
    have hfirst : mem'[dst]? = some (UInt64.ofNat (packFields (crc64Fields new))) :=
      hget 0 Nat.two_pos
    refine ⟨?_, unpack_pack_crc64 h hfirst (hget 1 Nat.one_lt_two)⟩
    rw [hfirst]
    exact congrArg some (extentEntryType_packFields (by decide) (crc64Fields_fit new)
      (crc64Fields_apart new) (by simp))
  · obtain rfl := Option.some.inj hws
    subst h128
    have hfirst : mem'[dst]? = some (UInt64.ofNat (packFields (crc128Fields new))) :=
      hget 0 (by simp)
    refine ⟨?_, unpack_pack_crc128 h hfirst (hget 1 (by simp)) (hget 2 (by simp))⟩
    rw [hfirst]
    exact congrArg some (extentEntryType_packFields (by decide) (crc128Fields_fit new)
      (crc128Fields_apart new) (by simp))

/-- A size that passes the check at the end has not wrapped. -/
theorem u64s_of_valU64s_le {n : ℕ} (hk : k.u64s < 2 ^ 8) (hn : n ≤ 3)
    (hu64s : k'.u64s = (k.u64s + n) % 2 ^ 8) (hmax : k'.valU64s ≤ bkeyExtentValU64sMax) :
    k'.u64s = k.u64s + n := by
  simp only [MemKey.valU64s, bkeyExtentValU64sMax, bkeyU64s] at hmax
  omega

/-- `bch2_extent_crc_append` picks a form whose fields can hold the descriptor, adds the words of
that form to the key, and the entry it leaves is read back as the descriptor. -/
theorem bch2ExtentCrcAppend_spec (hk : k.u64s < 2 ^ 8) (hnew : CrcDescriptor k new)
    (h : bch2ExtentCrcAppend k new = some k') :
    ∃ start stop type, k.ptrs = some (start, stop) ∧ CrcFits type new ∧
      k'.mem[stop]?.map extentEntryType = some type ∧
      k'.u64s = k.u64s + extentEntryU64sKnown type ∧
      bch2ExtentCrcUnpack k'.size k'.mem stop = some new ∧
      k'.mem.take stop = k.mem.take stop ∧
      k'.p = k.p ∧ k'.type = k.type ∧ k'.size = k.size := by
  simp only [bch2ExtentCrcAppend, Option.bind_eq_bind, Option.bind_eq_some_iff] at h
  obtain ⟨⟨start, stop⟩, hptrs, bytes, hbytes, type, htype, ws, hws, mem, hmem, w, hw, u64s, hu64s,
    h⟩ := h
  have hfits := hnew.fits hbytes htype
  obtain ⟨hentry, hread⟩ := unpack_pack hfits hws hmem
  split_ifs at h with hmax
  obtain rfl := Option.some.inj h
  have hknown : u64s = extentEntryU64sKnown type := by
    rw [hw, Option.map_some, Option.some.injEq] at hentry
    rw [extentEntryU64s] at hu64s
    split_ifs at hu64s with hlt
    rw [← Option.some.inj hu64s, hentry]
  refine ⟨start, stop, type, hptrs, hfits, hentry, ?_, ?_, take_writeWords hmem, rfl, rfl, rfl⟩
  · rw [← hknown]
    exact u64s_of_valU64s_le hk (extentEntryU64s_bounds hu64s).2 rfl hmax
  · rw [← hnew.liveSize.2]
    exact hread

/-- A descriptor at the largest size of the middle form. -/
def crc64Descriptor : CrcUnpacked where
  compressedSize := 2 ^ 9
  uncompressedSize := 2 ^ 9
  liveSize := 8
  csumType := 3
  offset := 2 ^ 9 - 8
  nonce := 2 ^ 10 - 1
  csumLo := 7
  csumHi := 2 ^ 16 - 1

/-- An extent without entries that has room for three words. -/
def emptyExtent : MemKey where
  p := ⟨1, 8, 0⟩
  type := keyTypeExtent
  size := 8
  u64s := 5
  mem := [0, 0, 0]

theorem bch2ExtentCrcAppend_emptyExtent : ∃ k', bch2ExtentCrcAppend emptyExtent crc64Descriptor =
    some k' ∧ bch2ExtentCrcUnpack 8 k'.mem 0 = some crc64Descriptor := by
  have hnew : CrcDescriptor emptyExtent crc64Descriptor := by
    refine ⟨by decide, by decide, by decide, by decide, by decide, ?_⟩
    intro bytes hbytes
    obtain rfl : 10 = bytes := Option.some.inj hbytes
    decide
  obtain ⟨k', hrun⟩ : ∃ k', bch2ExtentCrcAppend emptyExtent crc64Descriptor = some k' :=
    Option.isSome_iff_exists.mp (by decide)
  obtain ⟨start, stop, type, hptrs, -, -, -, hread, -, -, -, hsize⟩ :=
    bch2ExtentCrcAppend_spec (by decide) hnew hrun
  obtain ⟨rfl, rfl⟩ : 0 = start ∧ 0 = stop := by
    have heq : some (0, 0) = some (start, stop) := hptrs
    simpa using heq
  rw [hsize] at hread
  exact ⟨k', hrun, hread⟩

end Subvol

import Mathlib.Data.List.Sort
import Subvol.Lib.BitField
import Subvol.Sb.Field

/-!
# The check of a superblock

A superblock is an image of 64-bit words, counted from its first word on. Model of
`validate_sb_layout` and of `bch2_sb_validate`, as it is called for a superblock that was read: with
the check of the versions, and not for a write.

## Main definitions

* `SbLayout`, `sbLayoutAt`, `validateSbLayout`.
* `Sb`: the fields of the fixed part.
* `bch2SbCompatible`, `bch2SbValidate`.
-/

namespace Subvol

open Lib

/-- The errors of reading a superblock. -/
inductive SbErr
  | layout
  | layoutType
  | layoutNrSuperblocks
  | layoutSuperblocksOverlap
  | layoutMaxSizeBits
  | version
  | enomem
  | io
  | magic
  | size
  | csumType
  | csum
  | noneValid
  | features
  | uuid
  | offset
  | tooManyMembers
  | devIdx
  | timePrecision
  | fieldSize
  | membersMissing
  | members
  | journal
  | fieldType
deriving DecidableEq, Repr

/-! ### Layouts -/

/-- `BCHFS_MAGIC`, as two words. -/
def bchfsMagic : BitVec 64 × BitVec 64 := (0xa990ce66f67385c6, 0xeff73d80cf606ad9)

/-- `BCH_SB_LAYOUT_SIZE_BITS_MAX`. -/
def bchSbLayoutSizeBitsMax : ℕ := 16

/-- `bch_sb_layout`. -/
structure SbLayout where
  magic : BitVec 64 × BitVec 64
  layoutType : ℕ
  sbMaxSizeBits : ℕ
  nrSuperblocks : ℕ
  sbOffset : List ℕ

/-- The layout whose first word is there. -/
def sbLayoutAt (words : Image (BitVec 64)) (base : ℕ) : SbLayout where
  magic := (words base, words (base + 1))
  layoutType := field 0 8 (words (base + 2)).toNat
  sbMaxSizeBits := field 8 8 (words (base + 2)).toNat
  nrSuperblocks := field 16 8 (words (base + 2)).toNat
  sbOffset := (words.readAt (base + 3) 61).map BitVec.toNat

/-- The offsets of the superblocks that there are. -/
def SbLayout.offsets (l : SbLayout) : List ℕ := l.sbOffset.take l.nrSuperblocks

/-- The loop of `validate_sb_layout`: every superblock begins behind the one before. -/
def offsetsApart (maxSectors : ℕ) : List ℕ → Bool
  | prev :: offset :: rest =>
    (prev + maxSectors) % 2 ^ 64 ≤ offset && offsetsApart maxSectors (offset :: rest)
  | _ => true

/-- `validate_sb_layout`. -/
def validateSbLayout (l : SbLayout) : Except SbErr Unit :=
  if l.magic ≠ bchfsMagic then .error .layout
  else if l.layoutType ≠ 0 then .error .layoutType
  else if l.nrSuperblocks = 0 then .error .layoutNrSuperblocks
  else if l.nrSuperblocks > 61 then .error .layoutNrSuperblocks
  else if l.sbMaxSizeBits > bchSbLayoutSizeBitsMax then .error .layoutMaxSizeBits
  else if ¬offsetsApart (2 ^ l.sbMaxSizeBits) l.offsets then .error .layoutSuperblocksOverlap
  else .ok ()

/-! ### The fixed part -/

namespace Sb

variable (words : Image (BitVec 64))

def csum : BitVec 64 × BitVec 64 := (words 0, words 1)

def version : ℕ := field 0 16 (words 2).toNat

def versionMin : ℕ := field 16 16 (words 2).toNat

def magic : BitVec 64 × BitVec 64 := (words 3, words 4)

def uuid : BitVec 64 × BitVec 64 := (words 5, words 6)

def userUuid : BitVec 64 × BitVec 64 := (words 7, words 8)

def offset : ℕ := (words 13).toNat

def seq : ℕ := (words 14).toNat

def blockSize : ℕ := field 0 16 (words 15).toNat

def devIdx : ℕ := field 16 8 (words 15).toNat

def nrDevices : ℕ := field 24 8 (words 15).toNat

def u64s : ℕ := field 32 32 (words 15).toNat

def timePrecision : ℕ := field 32 32 (words 17).toNat

def flags (i : ℕ) : ℕ := (words (18 + i)).toNat

def features (i : ℕ) : ℕ := (words (26 + i)).toNat

def layout : SbLayout := sbLayoutAt words 30

/-- The words behind the fixed part, where the fields lie. -/
def start : Image (BitVec 64) := fun i => words (94 + i)

/-- `BCH_SB_CSUM_TYPE`. -/
def csumType : ℕ := field 2 6 (flags words 0)

/-- `BCH_SB_BTREE_NODE_SIZE`. -/
def btreeNodeSize : ℕ := field 12 16 (flags words 0)

/-- `BCH_SB_VERSION_INCOMPAT`. -/
def versionIncompat : ℕ := field 32 16 (flags words 5)

/-- `BCH_SB_VERSION_INCOMPAT_ALLOWED`. -/
def versionIncompatAllowed : ℕ := field 48 16 (flags words 5)

/-- `SET_BCH_SB_VERSION_INCOMPAT_ALLOWED`. -/
def setVersionIncompatAllowed (value : ℕ) : Image (BitVec 64) :=
  words.writeAt 23 [setField 48 16 value (words 23)]

end Sb

/-- `bcachefs_metadata_version_current`. -/
def bcachefsMetadataVersionCurrent : ℕ := 1 * 2 ^ 10 + 38

/-- `BCH_VERSION_MAJOR`. -/
def bchVersionMajor (version : ℕ) : ℕ := version / 2 ^ 10

/-- `bch2_sb_compatible`. -/
def bch2SbCompatible (words : Image (BitVec 64)) : Except SbErr Unit :=
  if Sb.version words ≠ bcachefsMetadataVersionCurrent ∨
      Sb.versionMin words ≠ bcachefsMetadataVersionCurrent then .error .version
  else .ok ()

/-! ### Members and journal buckets -/

/-- `bch_member`, with what is checked of it. -/
structure SbMember where
  nbuckets : ℕ
  firstBucket : ℕ
  bucketSize : ℕ
  btreeBitmapShift : ℕ
  flags : ℕ

/-- The byte of an image, counted from its first one. -/
def byteAt (words : Image (BitVec 64)) (k : ℕ) : ℕ := field (8 * (k % 8)) 8 (words (k / 8)).toNat

/-- The number in some bytes, the lowest one first. -/
def leBytes (bytes : ℕ → ℕ) (off : ℕ) : ℕ → ℕ
  | 0 => 0
  | n + 1 => bytes off + 256 * leBytes bytes (off + 1) n

/-- `bch2_members_v2_get`, of the field at `i`; what is not stored of a member is zero. -/
def bch2MembersV2Get (start : Image (BitVec 64)) (i index : ℕ) : SbMember :=
  let memberBytes := field 0 16 (start (i + 1)).toNat
  let bytes k := if k < memberBytes then byteAt start (8 * i + 16 + index * memberBytes + k) else 0
  { nbuckets := leBytes bytes 16 8
    firstBucket := leBytes bytes 24 2
    bucketSize := leBytes bytes 26 2
    btreeBitmapShift := leBytes bytes 28 1
    flags := leBytes bytes 40 8 }

/-- `BCH_SB_FIELD_members_v2`. -/
def bchSbFieldMembersV2 : ℕ := 11

/-- `BCH_SB_FIELD_journal_v2`. -/
def bchSbFieldJournalV2 : ℕ := 9

/-- `bch2_sb_member_get`. -/
def bch2SbMemberGet (words : Image (BitVec 64)) (index : ℕ) : SbMember :=
  match fieldGetId (Sb.start words) (Sb.u64s words) bchSbFieldMembersV2 0 with
  | some (some i) => bch2MembersV2Get (Sb.start words) i index
  | _ => ⟨0, 0, 0, 0, 0⟩

/-- `validate_member`. -/
def validateMember (member : SbMember) (words : Image (BitVec 64)) : Bool :=
  !(member.nbuckets > 2 ^ 31 - 1 - 64 ||
    (member.nbuckets + (2 ^ 64 - member.firstBucket)) % 2 ^ 64 < 2 ^ 9 ||
    member.bucketSize < Sb.blockSize words ||
    member.bucketSize < Sb.btreeNodeSize words ||
    member.btreeBitmapShift ≥ 58 ||
    (member.flags.testBit 30 && (Sb.features words 0).testBit 21))

/-- `bch2_sb_members_v2_validate`. -/
def bch2SbMembersV2Validate (words : Image (BitVec 64)) (i : ℕ) : Except SbErr Unit :=
  let start := Sb.start words
  if 16 + Sb.nrDevices words * field 0 16 (start (i + 1)).toNat > fieldU64s (start i) * 8 then
    .error .members
  else if (List.range (Sb.nrDevices words)).all fun index =>
      validateMember (bch2MembersV2Get start i index) words then .ok ()
  else .error .members

/-- The start and the end of each entry of the buckets of the journal. -/
def journalRanges (start : Image (BitVec 64)) (i nr : ℕ) : List (ℕ × ℕ) :=
  (List.range nr).map fun j =>
    let first := (start (i + 1 + 2 * j)).toNat
    (first, (first + (start (i + 2 + 2 * j)).toNat) % 2 ^ 64)

/-- `bch2_sb_journal_v2_validate`. -/
def bch2SbJournalV2Validate (words : Image (BitVec 64)) (i : ℕ) : Except SbErr Unit :=
  let start := Sb.start words
  let member := bch2SbMemberGet words (Sb.devIdx words)
  let nr := (fieldU64s (start i) - 1) / 2
  let sum := ((List.range nr).map fun j => (start (i + 2 + 2 * j)).toNat).sum % 2 ^ 64
  let ranges := (journalRanges start i nr).mergeSort fun a b => a.1 ≤ b.1
  if nr = 0 then .ok ()
  else if ranges.any fun range => range.2 ≤ range.1 then .error .journal
  else if (ranges.headD (0, 0)).1 = 0 then .error .journal
  else if (ranges.headD (0, 0)).1 < member.firstBucket then .error .journal
  else if (ranges.getLastD (0, 0)).2 > member.nbuckets then .error .journal
  else if (ranges.zip ranges.tail).any fun pair => pair.1.2 > pair.2.1 then .error .journal
  else if sum > 2 ^ 32 - 1 then .error .journal
  else .ok ()

/-- `bch2_sb_field_validate`. -/
def bch2SbFieldValidate (words : Image (BitVec 64)) (i : ℕ) : Except SbErr Unit :=
  let type := fieldType (Sb.start words i)
  if type = bchSbFieldJournalV2 then bch2SbJournalV2Validate words i
  else if type = bchSbFieldMembersV2 then bch2SbMembersV2Validate words i
  else .error .fieldType

/-! ### The whole superblock -/

/-- The first loop of `bch2_sb_validate` over the fields: every field ends inside. -/
def fieldsInside (start : Image (BitVec 64)) (last i : ℕ) : Bool :=
  if i < last then
    if fieldU64s (start i) = 0 ∨ i + fieldU64s (start i) > last then false
    else fieldsInside start last (i + fieldU64s (start i))
  else true
termination_by last - i

/-- The second loop of `bch2_sb_validate` over the fields, none of which is empty. -/
def fieldsValidate (words : Image (BitVec 64)) (last i : ℕ) : Except SbErr Unit :=
  if i < last ∧ fieldU64s (Sb.start words i) ≠ 0 then
    match bch2SbFieldValidate words i with
    | .error e => .error e
    | .ok () => fieldsValidate words last (i + fieldU64s (Sb.start words i))
  else .ok ()
termination_by last - i

/-- What `bch2_sb_validate` sets in a superblock that it reads. -/
def sbFixups (words : Image (BitVec 64)) : Image (BitVec 64) :=
  let words := if Sb.versionIncompatAllowed words > Sb.version words then
      Sb.setVersionIncompatAllowed words (Sb.version words) else words
  let words := if Sb.versionIncompat words > Sb.versionIncompatAllowed words then
      Sb.setVersionIncompatAllowed words (Sb.versionIncompat words) else words
  if Sb.nrDevices words > 1 then words.writeAt 21 [words 21 ||| 1 <<< 63] else words

/-- `bch2_sb_validate`. A feature is unknown from bit 24 on. -/
def bch2SbValidate (words : Image (BitVec 64)) (readOffset : ℕ) :
    Except SbErr (Image (BitVec 64)) :=
  match bch2SbCompatible words with
  | .error e => .error e
  | .ok () =>
    if Sb.features words 0 / 2 ^ 24 ≠ 0 ∨ Sb.features words 1 ≠ 0 ∨
        bchVersionMajor (Sb.version words) > bchVersionMajor bcachefsMetadataVersionCurrent ∨
        Sb.versionIncompat words > bcachefsMetadataVersionCurrent then .error .features
    else if Sb.userUuid words = (0, 0) ∨ Sb.uuid words = (0, 0) then .error .uuid
    else if Sb.offset words ≠ readOffset then .error .offset
    else if Sb.nrDevices words = 0 then .error .tooManyMembers
    else if Sb.devIdx words ≥ Sb.nrDevices words then .error .devIdx
    else if Sb.timePrecision words = 0 ∨ Sb.timePrecision words > 1000000000 then
      .error .timePrecision
    else
      let words := sbFixups words
      match validateSbLayout (Sb.layout words) with
      | .error e => .error e
      | .ok () =>
        if ¬fieldsInside (Sb.start words) (Sb.u64s words) 0 then .error .fieldSize
        else
          match fieldGetId (Sb.start words) (Sb.u64s words) bchSbFieldMembersV2 0 with
          | some (some i) =>
            match bch2SbFieldValidate words i with
            | .error e => .error e
            | .ok () => (fieldsValidate words (Sb.u64s words) 0).map fun _ => words
          | _ => .error .membersMissing

end Subvol

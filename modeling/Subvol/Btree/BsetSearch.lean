import Subvol.Btree.AuxTree
import Subvol.Btree.Node
import Subvol.Btree.PackPos

/-!
# Searching in a set

Model of `bset_search.rs` and of how `bset_build.rs` fills the table of a set that is no longer
written to (`build_ro_aux_tree`): a search tree in an array, with a slot for every cache line of the
set. A slot names the first key behind its cache line, and has sixteen bits of that key below the
bits that all keys between the slots around it share. Pointers are offsets in words from the start
of the node.

`none` is a failed assertion of the source, a read behind the table, or a walk that does not come to
the end of the set.

## Main definitions

* `BkeyFloat`, `RoAuxTree`, `IterBset`, `NodeWords`.
* `BsetKeys.fillFloats`, `BsetKeys.roLoop`, `greatestDifferingBit`, `NodeWords.makeBfloat`,
  `NodeWords.buildRoAuxTree`.
* `NodeWords.bsetSearchTree`, `NodeWords.bch2BsetSearch`, `NodeWords.bch2BsetSearchLinear`.
* `Stores`, `NodeWords.Holds`, `NodeWords.Covers`: the words of the keys of a set.
* `sees`, `IterBset.firstAbove`: what a search is for.
-/

namespace Subvol

open Lib

/-! ### Sets with their tables -/

/-- `BFLOAT_FAILED`. -/
def bfloatFailed : ℕ := 255

/-- `BFLOAT_FAILED_UNPACKED`. -/
def bfloatFailedUnpacked : ℕ := 255

/-- `BKEY_MANTISSA_BITS`. -/
def bkeyMantissaBits : ℕ := 16

/-- `bkey_float`. -/
structure BkeyFloat where
  exponent : ℕ
  keyOffset : ℕ
  mantissa : ℕ
deriving DecidableEq, Repr

/-- The table of a set that is searched in. The floats are those that there is room for. -/
structure RoAuxTree where
  size : ℕ
  extra : ℕ
  floats : List BkeyFloat
deriving DecidableEq, Repr

/-- The table beside a set. -/
inductive IterAux
  | noAux
  | ro (t : RoAuxTree)
  | rw
deriving DecidableEq, Repr

/-- A set of a node, the words between the start of a cache line of 64 bytes and the address of its
first key, and its table; a table to write to is the one of the set. -/
structure IterBset where
  set : RwBset
  lead : Fin 8
  aux : IterAux

namespace IterBset

variable (s : IterBset)

/-- The keys with their offsets. -/
def laidKeys : List RankedKey := laid BkeyPacked.u64s s.set.firstOffset s.set.keys

/-- `bkey_to_cacheline`. -/
def bkeyToCacheline (off : ℕ) : ℕ := (s.lead + (off - s.set.firstOffset)) * 8 / bsetCacheline

/-- `cacheline_to_bkey`, as an offset. -/
def cachelineToBkey (cacheline keyOffset : ℕ) : ℕ :=
  s.set.firstOffset + (cacheline * bsetCacheline / 8 + keyOffset) - s.lead

/-- `tree_to_bkey`, as an offset. -/
def slotToBkey (t : RoAuxTree) (slot : ℕ) : Option ℕ := do
  let cacheline ← eytzinger1ToInorderExtra slot (t.size - 1) t.extra
  let f ← t.floats[slot]?
  return s.cachelineToBkey cacheline f.keyOffset

/-- `tree_to_bkey` at the slot of a place in order. -/
def treeToBkey (t : RoAuxTree) (j : ℕ) : Option ℕ := do
  s.slotToBkey t (← inorderToEytzinger1Extra j (t.size - 1) t.extra)

/-- What a build reads of the set: a key has its length in a byte, offsets have 16 bits. -/
def bsetKeys : Option BsetKeys :=
  if h : (∀ k ∈ s.set.keys, 0 < k.u64s) ∧ (∀ k ∈ s.set.keys, k.u64s < 2 ^ 8) ∧
      s.set.dataOffset + 3 + total BkeyPacked.u64s s.set.keys < 2 ^ 16 then
    some ⟨s.set.dataOffset, s.lead, s.set.keys, h.1, h.2.1, h.2.2⟩
  else none

end IterBset

/-- What is read of a node: its format, its first and its last position, and the words of its
buffer. -/
structure NodeWords where
  format : PackFormat
  minKey : Bpos
  maxKey : Bpos
  data : List (BitVec 64)

/-- `nr_key_bits`, which goes with the format. -/
def NodeWords.nrKeyBits (b : NodeWords) : ℕ := bkeyFormatKeyBits b.format.toBkeyFormat

/-! ### Building -/

namespace BsetKeys

/-- The loop of `build_ro_aux_tree` over the slots in order, from a cache line and a key on: whether
there is a key for every slot, and the floats. -/
def fillFloats (s : BsetKeys) :
    ℕ → ℕ → List BkeyPacked → List ℕ → List BkeyFloat → Option (Bool × List BkeyFloat)
  | _, _, _, [], floats => some (true, floats)
  | cacheline, off, ks, j :: slots, floats => do
    let (off, ks) ← s.skipKeys cacheline off ks
    if ks = [] then return (false, floats)
    let keyOffset ← s.bkeyToCachelineOffset cacheline off
    let f ← floats[j]?
    s.fillFloats (cacheline + 1) off ks slots (floats.set j { f with keyOffset })

/-- The loop of `build_ro_aux_tree` that makes the table smaller until there is a key for every
slot. -/
def roLoop (s : BsetKeys) : ℕ → List BkeyFloat → Option RoAuxTree
  | 0, floats => some ⟨0, bsetNoAuxTreeVal, floats⟩
  | 1, floats => some ⟨0, bsetNoAuxTreeVal, floats⟩
  | size + 2, floats => do
    let extra ← eytzinger1Extra (size + 1)
    let slots ← treeSlots (size + 1)
    let (full, floats) ← s.fillFloats 1 s.firstOffset s.keys slots floats
    if full then return ⟨size + 2, extra % 2 ^ 16, floats⟩
    roLoop s (size + 1) floats

end BsetKeys

/-- `greatest_differing_bit`, from the word with index `p - 1` down. -/
def greatestDifferingBit (l r : KeyWords) : ℕ → ℕ → ℕ
  | 0, _ => 0
  | p + 1, nr =>
    if nr = 0 then 0
    else
      let cut := if nr < 64 then 64 - nr else 0
      let rest := nr - 64
      let differing := (l p >>> cut ^^^ r p >>> cut).toNat
      if differing ≠ 0 then bitsOf differing - 1 + rest else greatestDifferingBit l r p rest

/-- A word that is read at a number of bytes. -/
def KeyWords.readUnaligned (words : KeyWords) (byte : ℕ) : ℕ :=
  wordsNat words (byte / 8 + 2) / 2 ^ (8 * byte) % 2 ^ 64

/-- `key_mantissa`. -/
def keyMantissa (k : KeyWords) (f : BkeyFloat) : ℕ :=
  k.readUnaligned (f.exponent / 8) / 2 ^ (f.exponent % 8) % 2 ^ 16

/-- An unpacked key as `bkey_init` makes it, at a position. -/
def bkeyInitAt (p : Bpos) : KeyWords
  | 0 => BitVec.ofNat 64 (bkeyU64s + keyFormatCurrent.toNat * 2 ^ 8)
  | 2 => BitVec.ofNat 64 (p.snapshot * 2 ^ 32)
  | 3 => BitVec.ofNat 64 p.offset
  | 4 => BitVec.ofNat 64 p.inode
  | _ => 0

/-- `is_power_of_two`. -/
def isPowerOfTwo (n : ℕ) : Bool := n ≠ 0 ∧ n = 2 ^ n.log2

namespace NodeWords

variable (b : NodeWords)

/-- The key that the floats at the ends of the table are made with: a position of the node, packed
where it fits. -/
def boundKey (p : Bpos) : Option KeyWords :=
  match KeyWords.bch2BkeyPackPos (fun _ => 0) p b.format.toBkeyFormat with
  | .ok words => some words
  | .misfit => some (bkeyInitAt p)
  | .panic => none

/-- The key at the nearest slot above that comes before, or the first key of the node. -/
def slotBefore (s : IterBset) (t : RoAuxTree) (j : ℕ) (minKey : KeyWords) : Option KeyWords :=
  if isPowerOfTwo j then some minKey
  else (s.slotToBkey t (j / 2 ^ (U32.trailingZerosOf 64 j + 1))).map (wordsAt b.data)

/-- The key at the nearest slot above that comes behind, or the last key of the node. -/
def slotBehind (s : IterBset) (t : RoAuxTree) (j : ℕ) (maxKey : KeyWords) : Option KeyWords :=
  if isPowerOfTwo (j + 1) then some maxKey
  else (s.slotToBkey t (j / 2 ^ (U32.trailingOnesOf 64 j + 1))).map (wordsAt b.data)

/-- The second part of `make_bfloat`, for packed keys. -/
def bfloatFor (l m r : KeyWords) (f : BkeyFloat) : Option BkeyFloat :=
  let highBit := max (greatestDifferingBit l r b.format.keyU64s b.nrKeyBits)
    (min bkeyMantissaBits b.nrKeyBits - 1)
  let exponent : ℤ := (highBit : ℤ) - (bkeyMantissaBits - 1)
  let shift : ℤ := ((b.format.keyU64s : ℤ) * 64 - b.nrKeyBits) + exponent
  if 0 ≤ shift ∧ shift + bkeyMantissaBits ≤ b.format.keyU64s * 64 then
    if shift ≥ bfloatFailed then some { f with exponent := bfloatFailed }
    else
      let f := { f with exponent := shift.toNat }
      let mantissa := keyMantissa m f
      some { f with
        mantissa := (if exponent < 0 then mantissa ||| (2 ^ (-exponent).toNat - 1)
          else mantissa) % 2 ^ 16 }
  else none

/-- `make_bfloat`. -/
def makeBfloat (s : IterBset) (minKey maxKey : KeyWords) (t : RoAuxTree) (j : ℕ) :
    Option RoAuxTree := do
  let m ← (s.slotToBkey t j).map (wordsAt b.data)
  let l ← b.slotBefore s t j minKey
  let r ← b.slotBehind s t j maxKey
  let f ← t.floats[j]?
  let f ← if !l.packed || !r.packed || !m.packed || b.nrKeyBits == 0 then
      some { f with exponent := bfloatFailedUnpacked }
    else b.bfloatFor l m r f
  return { t with floats := t.floats.set j f }

/-- `build_ro_aux_tree`, over the floats that are left in the buffer of tables. -/
def buildRoAuxTree (s : IterBset) (stale : List BkeyFloat) : Option IterAux := do
  let keys ← s.bsetKeys
  let t ← keys.roLoop (min (keys.bkeyToCacheline keys.endOffset) stale.length % 2 ^ 16) stale
  if t.size < 2 then return .noAux
  let minKey ← b.boundKey b.minKey
  let maxKey ← b.boundKey b.maxKey
  let slots ← BsetKeys.treeSlots (t.size - 1)
  let t ← slots.foldlM (b.makeBfloat s minKey maxKey) t
  return .ro t

/-! ### Searching -/

/-- `bkey_cmp_p_or_unp`. -/
def bkeyCmpPOrUnp (l : KeyWords) (rPacked : Option KeyWords) (r : Bpos) : Option ℤ :=
  if !l.packed then some (bposCmp l.pos r)
  else match rPacked with
    | some rPacked =>
      if rPacked.packed then bch2BkeyCmpPacked b.format.toBkeyFormat b.nrKeyBits l rPacked else none
    | none => (l.unpackPos b.format.toBkeyFormat).map fun p => bposCmp p r

end NodeWords

/-- `bkey_deleted` of a stored key. -/
def KeyWords.deleted (words : KeyWords) : Bool := words.type.toNat == keyTypeDeleted

/-- The comparison of a key in iteration order: among keys at a position deleted ones are less. -/
def iterOrder (cmp : ℤ) (deleted : Bool) : ℤ :=
  if cmp ≠ 0 then cmp else if deleted then -1 else 0

namespace NodeWords

variable (b : NodeWords)

/-- `bkey_iter_cmp_p_or_unp`. -/
def bkeyIterCmpPOrUnp (l : KeyWords) (rPacked : Option KeyWords) (r : Bpos) : Option ℤ :=
  (b.bkeyCmpPOrUnp l rPacked r).map (iterOrder · l.deleted)

/-- `bkey_iter_pos_cmp`. -/
def bkeyIterPosCmp (l : KeyWords) (r : Bpos) : Option ℤ :=
  (l.unpackPos b.format.toBkeyFormat).map fun p => iterOrder (bposCmp p r) l.deleted

/-- `bkey_mantissa_bits_dropped`. -/
def bkeyMantissaBitsDropped (f : BkeyFloat) : Bool :=
  f.exponent > b.format.keyU64s * 64 - b.nrKeyBits

/-- `bkey_mantissa`. -/
def bkeyMantissa (k : KeyWords) (f : BkeyFloat) : Option ℕ :=
  if k.packed then some (keyMantissa k f) else none

/-- The first part of a turn of `bset_search_tree`: whether the search goes on to the right, if the
float tells. -/
def bfloatStep (f : BkeyFloat) (packedSearch : KeyWords) : Option (Option Bool) :=
  if f.exponent < bfloatFailed then do
    let l := f.mantissa
    let r ← bkeyMantissa packedSearch f
    if l ≠ r ∨ !b.bkeyMantissaBitsDropped f then return some (decide (l < r)) else return none
  else some none

/-- The second part of a turn of `bset_search_tree`, where the float does not tell. -/
def compareStep (s : IterBset) (t : RoAuxTree) (search : Bpos) (packedSearch : KeyWords) (n : ℕ) :
    Option (ℕ ⊕ ℕ) := do
  let k ← s.slotToBkey t n
  let cmp ← b.bkeyCmpPOrUnp (wordsAt b.data k) (some packedSearch) search
  if cmp = 0 then return .inl k
  else return .inr (n * 2 + (decide (cmp < 0)).toNat)

/-- A turn of `bset_search_tree`: the key at the position, or the next slot. -/
def searchStep (s : IterBset) (t : RoAuxTree) (search : Bpos) (packedSearch : KeyWords) (n : ℕ) :
    Option (ℕ ⊕ ℕ) := do
  let f ← t.floats[n]?
  match ← b.bfloatStep f packedSearch with
  | some right => return .inr (n * 2 + right.toNat)
  | none => b.compareStep s t search packedSearch n

/-- The loop of `bset_search_tree`: the key at the position, or the slot behind the table that the
loop ends at. -/
def searchLoop (s : IterBset) (t : RoAuxTree) (search : Bpos) (packedSearch : KeyWords) :
    ℕ → ℕ → Option (ℕ ⊕ ℕ)
  | 0, _ => none
  | fuel + 1, n => do
    match ← b.searchStep s t search packedSearch n with
    | .inl k => return .inl k
    | .inr n =>
      if n < t.size then searchLoop s t search packedSearch fuel n else return .inr n

/-- `bset_search_tree`. -/
def bsetSearchTree (s : IterBset) (t : RoAuxTree) (search : Bpos) (packedSearch : KeyWords) :
    Option ℕ := do
  match ← b.searchLoop s t search packedSearch t.size 1 with
  | .inl k => return k
  | .inr n =>
    let inorder ← eytzinger1ToInorderExtra (n / 2) (t.size - 1) t.extra
    if n % 2 = 0 then
      if inorder - 1 = 0 then return s.set.firstOffset
      let f ← t.floats[← eytzinger1Prev (n / 2) (t.size - 1)]?
      return s.cachelineToBkey (inorder - 1) f.keyOffset
    else
      let f ← t.floats[n / 2]?
      return s.cachelineToBkey inorder f.keyOffset

/-- `__bch2_bset_search`. -/
def bch2BsetSearch (s : IterBset) (search : Bpos) (lossyPackedSearch : KeyWords) : Option ℕ :=
  match s.aux with
  | .noAux => some s.set.firstOffset
  | .rw => bsetSearchWriteSet s.set search
  | .ro t => b.bsetSearchTree s t search lossyPackedSearch

/-- A loop of `bch2_bset_search_linear`: on from key to key while they are below. -/
def walkBelow (below : KeyWords → Option Bool) (stop m : ℕ) : Option ℕ :=
  if m = stop then some m
  else match below (wordsAt b.data m) with
    | none => none
    | some false => some m
    | some true =>
      if m < bkeyPNext b.data m ∧ bkeyPNext b.data m ≤ stop then
        walkBelow below stop (bkeyPNext b.data m)
      else none
termination_by stop - m

/-- What the loops of `bch2_bset_search_linear` walk past: with a packed search key, keys that are
below it where they are packed. -/
def belowPacked (search : Bpos) (packedSearch : Option KeyWords) (k : KeyWords) : Option Bool :=
  (b.bkeyIterCmpPOrUnp k packedSearch search).map fun cmp => decide (cmp < 0)

/-- Keys that are below the position. -/
def belowPos (search : Bpos) (k : KeyWords) : Option Bool :=
  (b.bkeyIterPosCmp k search).map fun cmp => decide (cmp < 0)

/-- `bch2_bset_search_linear`. -/
def bch2BsetSearchLinear (s : IterBset) (search : Bpos)
    (packedSearch lossyPackedSearch : Option KeyWords) (m : ℕ) : Option ℕ := do
  let m ← if lossyPackedSearch.isSome then
      b.walkBelow (b.belowPacked search lossyPackedSearch) s.set.endOffset m
    else some m
  if packedSearch.isNone then b.walkBelow (b.belowPos search) s.set.endOffset m
  else return m

end NodeWords

/-! ### The words of a set -/

/-- The words of a key in a node with a format. -/
structure Stores (f : PackFormat) (words : KeyWords) (k : BkeyPacked) : Prop where
  u64s : words.u64s.toNat = k.u64s
  form : words.format &&& 0x7f = keyFormatLocalBtree ∧ f.keyU64s ≤ k.u64s ∨
    words.format &&& 0x7f = keyFormatCurrent ∧ bkeyU64s ≤ k.u64s
  pos : words.unpackPos f.toBkeyFormat = some k.pos
  deleted : words.deleted = k.deleted

instance (f : PackFormat) (words : KeyWords) (k : BkeyPacked) : Decidable (Stores f words k) :=
  decidable_of_iff (words.u64s.toNat = k.u64s ∧
      (words.format &&& 0x7f = keyFormatLocalBtree ∧ f.keyU64s ≤ k.u64s ∨
        words.format &&& 0x7f = keyFormatCurrent ∧ bkeyU64s ≤ k.u64s) ∧
      words.unpackPos f.toBkeyFormat = some k.pos ∧ words.deleted = k.deleted)
    ⟨fun h => ⟨h.1, h.2.1, h.2.2.1, h.2.2.2⟩, fun h => ⟨h.u64s, h.form, h.pos, h.deleted⟩⟩

/-- The words of the keys of a set, in the order of their positions. -/
structure NodeWords.Holds (b : NodeWords) (s : IterBset) : Prop where
  keys : ∀ x ∈ s.laidKeys, Stores b.format (wordsAt b.data x.1) x.2
  sorted : s.set.keys.Pairwise fun k k' => k.pos < k'.pos
  fits : s.set.endOffset < 2 ^ 16

/-- The keys of a set are between the first and the last position of the node. -/
def NodeWords.Covers (b : NodeWords) (s : IterBset) : Prop :=
  ∀ k ∈ s.set.keys, b.minKey ≤ k.pos ∧ k.pos ≤ b.maxKey

/-- `bkey_iter_pos_cmp`. -/
def bkeyIterPosCmp (k : BkeyPacked) (p : Bpos) : ℤ := iterOrder (bposCmp k.pos p) k.deleted

/-- The key is not below the position. -/
def sees (p : Bpos) (k : BkeyPacked) : Bool := decide (0 ≤ bkeyIterPosCmp k p)

/-- What a search is for: the first key that is not below the position in iteration order, the end
of the set if there is none. -/
def IterBset.firstAbove (s : IterBset) (search : Bpos) : ℕ :=
  ((s.laidKeys.find? fun x => sees search x.2).map Prod.fst).getD s.set.endOffset

end Subvol

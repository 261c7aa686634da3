import Mathlib.Data.List.Sort
import Subvol.Btree.Alloc

/-!
# Inserting an extent

Model of `bch2_trans_update_extent`: an extent is inserted into a tree whose extents are all in one
snapshot, and the extents it overlaps are cut or deleted. An extent is stored at its end.

In a tree with one snapshot no key overwrites another one from a different snapshot, so
`bch2_insert_snapshot_whiteouts`, `need_whiteout_for_snapshot` and
`__bch2_key_has_snapshot_overwrites` find nothing, and deletions leave no whiteouts; there is no
middle split. The iterator returns the keys of the tree from its position on. What a peek leaves in
the path is the position it searched for, not the one of the key; `landed` says for which keys the
two agree because a deleted key of an older set lies at the same place or the leaf begins there.

## Main definitions

* `ExtentEntry`, `ExtentVal`, `Extent`.
* `bch2CutFront`, `bch2CutBack`, `bch2BkeyMerge`.
* `bch2TransUpdateExtentOverwrite`, `bch2TransUpdateExtent`: the updates that are staged.
* `commitUpdates`: the tree behind them.
-/

namespace Subvol

/-! ### Extents -/

/-- `KEY_INODE_MAX`. -/
def keyInodeMax : ℕ := 2 ^ 64 - 1

/-- `bch_extent_entry`: a pointer with its flags, a checksum entry with the offset into the data it
covers and everything else of it, or an entry of another type. -/
inductive ExtentEntry
  | ptr (cached unwritten : Bool) (p : ExtentPtr)
  | crc32 (offset rest : ℕ)
  | crc64 (offset rest : ℕ)
  | crc128 (offset rest : ℕ)
  | other (type : ℕ) (words : List UInt64)
deriving DecidableEq, Repr

/-- The values of extents. `other` stands for the types that neither `bch2_cut_front_s` nor
`bch2_bkey_merge` looks into. -/
inductive ExtentVal
  | extent (entries : List ExtentEntry)
  | reflinkV (entries : List ExtentEntry)
  | reservation (generation nrReplicas : ℕ)
  | set
  | other (type : ℕ) (words : List UInt64)
deriving DecidableEq, Repr

/-- `type_` of a key with that value. -/
def ExtentVal.type : ExtentVal → ℕ
  | .extent _ => 6
  | .reservation _ _ => 7
  | .reflinkV _ => 16
  | .set => 25
  | .other type _ => type

/-- An extent: `offset` is its end. -/
structure Extent where
  inode : ℕ
  offset : ℕ
  size : ℕ
  versionHi : ℕ := 0
  versionLo : ℕ := 0
  val : ExtentVal
deriving DecidableEq, Repr

namespace Extent

/-- `bkey_start_offset`. -/
def start (e : Extent) : ℕ := e.offset - e.size

/-- The position, without the snapshot. -/
def pos (e : Extent) : ℕ × ℕ := (e.inode, e.offset)

end Extent

/-! ### Cutting and merging -/

/-- The entries of an extent cut by `sub` sectors at its front: the offset of a checksum entry
moves, and the one of a pointer when no checksum entry stands before it. -/
def cutEntries (sub : ℕ) : Bool → List ExtentEntry → List ExtentEntry
  | _, [] => []
  | seenCrc, .ptr cached unwritten p :: es =>
    .ptr cached unwritten (if seenCrc then p else { p with offset := (p.offset + sub) % 2 ^ 44 }) ::
      cutEntries sub seenCrc es
  | _, .crc32 offset rest :: es => .crc32 ((offset + sub) % 2 ^ 7) rest :: cutEntries sub true es
  | _, .crc64 offset rest :: es => .crc64 ((offset + sub) % 2 ^ 9) rest :: cutEntries sub true es
  | _, .crc128 offset rest :: es => .crc128 ((offset + sub) % 2 ^ 13) rest :: cutEntries sub true es
  | seenCrc, .other type words :: es => .other type words :: cutEntries sub seenCrc es

/-- The value of an extent cut by `sub` sectors at its front. -/
def cutVal (sub : ℕ) : ExtentVal → ExtentVal
  | .extent es => .extent (cutEntries sub false es)
  | .reflinkV es => .reflinkV (cutEntries sub false es)
  | v => v

/-- `bch2_cut_front`; what is cut is less than the extent. -/
def bch2CutFront (at_ : ℕ) (e : Extent) : Extent :=
  if at_ ≤ e.start then e
  else { e with size := e.size - (at_ - e.start), val := cutVal (at_ - e.start) e.val }

/-- `bch2_cut_back`; what is cut is less than the extent. -/
def bch2CutBack (at_ : ℕ) (e : Extent) : Extent :=
  if e.offset ≤ at_ then e else { e with offset := at_, size := at_ - e.start }

/-- `bch2_bkey_maybe_mergable`. -/
def bch2BkeyMaybeMergable (l r : Extent) : Bool :=
  l.val.type == r.val.type && (l.versionHi, l.versionLo) == (r.versionHi, r.versionLo) &&
    l.pos == (r.inode, r.start)

/-- `bch2_key_resize`. -/
def bch2KeyResize (e : Extent) (size : ℕ) : Extent :=
  { e with offset := e.offset - e.size + size, size := size }

/-- Whether `bch2_bkey_merge` takes the values. -/
def valsMerge : ExtentVal → ExtentVal → Bool
  | .reservation g n, .reservation g' n' => g == g' && n == n'
  | .set, .set => true
  | _, _ => false

/-- `bch2_bkey_merge`: the left extent grown over the right one. -/
def bch2BkeyMerge (l r : Extent) : Option Extent :=
  if bch2BkeyMaybeMergable l r && decide (l.size + r.size < 2 ^ 32) && valsMerge l.val r.val then
    some (bch2KeyResize l (l.size + r.size))
  else none

/-! ### The updates -/

/-- A staged update at a position. -/
inductive ExtentUpdate
  | put (e : Extent)
  | delete (inode offset : ℕ)
deriving DecidableEq, Repr

/-- What the update reads beside the tree: the snapshot of the extents, whether journal replay is
still going on, and where the search of the iterator ends at the key it finds. -/
structure ExtentCtx where
  snapshot : ℕ
  journalReplayNotFinished : Bool := false
  landed : ℕ × ℕ → Bool := fun _ => false

/-- `bch2_trans_update_extent_overwrite` for an extent of the same snapshot. The part behind the
new extent is staged through the path of the iterator, which has to be at the extent (`onKey`);
`none` is that assertion. -/
def bch2TransUpdateExtentOverwrite (onKey : Bool) (old new : Extent) :
    Option (List ExtentUpdate) :=
  let front := if old.start < new.start then [.put (bch2CutBack new.start old)] else []
  if old.offset ≤ new.offset then some (front ++ [.delete old.inode old.offset])
  else if onKey then some (front ++ [.put (bch2CutFront new.offset old)])
  else none

/-- The loop of `bch2_trans_update_extent` over the keys from `search` on: the updates, and the key
it ends at. `none` is a failed assertion, or a loop that does not end because the iterator cannot
advance from the last position of the tree. -/
def overwriteLoop (c : ExtentCtx) (new : Extent) :
    ℕ → List Extent → Option (List ExtentUpdate × Option Extent)
  | _, [] => some ([], none)
  | search, k :: ks =>
    if k.offset ≤ new.start then none
    else if new.offset ≤ k.start then some ([], some k)
    else
      (bch2TransUpdateExtentOverwrite (c.landed k.pos || search == k.offset) k new).bind fun us =>
        if new.offset < k.offset then some (us, some k)
        else if k.pos = (keyInodeMax, keyOffsetMax) then none
        else (overwriteLoop c new (k.offset + 1) ks).map fun r => (us ++ r.1, r.2)

/-- `extent_front_merge`: the extent that ends where the new one starts is deleted, and the new one
grows over it. -/
def extentFrontMerge (c : ExtentCtx) (k new : Extent) : List ExtentUpdate × Extent :=
  if c.journalReplayNotFinished then ([], new)
  else
    match bch2BkeyMerge k new with
    | some merged => ([.delete k.inode k.offset], merged)
    | none => ([], new)

/-- `extent_back_merge`: the new extent grows over the one that starts where it ends. -/
def extentBackMerge (c : ExtentCtx) (new k : Extent) : Extent :=
  if c.journalReplayNotFinished then new else (bch2BkeyMerge new k).getD new

/-- The keys that `bch2_btree_iter_peek_max` returns one after the other, from the start of the new
extent up to `POS(inode, U64_MAX)`. The end is compared with its snapshot, which is zero. -/
def keysFrom (c : ExtentCtx) (tree : List Extent) (new : Extent) : List Extent :=
  tree.filter fun e => e.inode = new.inode ∧ new.start ≤ e.offset ∧
    (e.offset = keyOffsetMax → c.snapshot = 0)

/-- The end of `bch2_trans_update_extent`: the new extent behind the other updates. -/
def finishUpdate (c : ExtentCtx) (us : List ExtentUpdate) (new : Extent) (k : Option Extent) :
    List ExtentUpdate :=
  us ++ [.put ((k.map (extentBackMerge c new)).getD new)]

/-- `bch2_trans_update_extent`: the updates staged. When an extent ends where the new one starts,
the loop over the extents behind it is not entered. -/
def bch2TransUpdateExtent (c : ExtentCtx) (tree : List Extent) (new : Extent) :
    Option (List ExtentUpdate) :=
  match keysFrom c tree new with
  | [] => some [.put new]
  | k :: ks =>
    if k.offset = new.start then
      let (us, merged) := if bch2BkeyMaybeMergable k new then extentFrontMerge c k new else ([], new)
      some (finishUpdate c us merged ks.head?)
    else
      (overwriteLoop c new new.start (k :: ks)).map fun r => finishUpdate c r.1 new r.2

/-! ### The tree behind the updates -/

/-- The order of the tree. -/
def Extent.le (e e' : Extent) : Prop := toLex e.pos ≤ toLex e'.pos

instance : DecidableRel Extent.le := fun e e' =>
  inferInstanceAs (Decidable (toLex e.pos ≤ toLex e'.pos))

/-- One update applied to the tree: the key at its position is replaced or removed. -/
def commitUpdate (tree : List Extent) : ExtentUpdate → List Extent
  | .put e => (tree.filter fun k => k.pos ≠ e.pos).orderedInsert Extent.le e
  | .delete inode offset => tree.filter fun k => k.pos ≠ (inode, offset)

/-- The updates applied to the tree, in their order. -/
def commitUpdates (tree : List Extent) (us : List ExtentUpdate) : List Extent :=
  us.foldl commitUpdate tree

end Subvol

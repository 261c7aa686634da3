import Mathlib.Algebra.Order.Ring.Nat
import Mathlib.Data.Nat.Log
import Mathlib.Tactic.Common
import Subvol.Lib.Numerals

/-!
# The snapshot table

Model of the table of snapshots in memory: how a snapshot key is entered, how the table is read
at startup, and the two tests for an ancestor. Snapshot ids are counted down from `u32::MAX`, so
a parent has a larger id than its children. The loops take a bound on their turns and return
`none` when it is used up; `none` also is a failed assertion.

## Main definitions

* `SnapshotT`, `SnapshotTable`, `snapshotT`.
* `bch2MarkSnapshot`, `bch2SnapshotsRead`.
* `bch2SnapshotIsAncestorEarly`, `bch2SnapshotIsAncestor`.
-/

namespace Subvol

/-- `u32::MAX`. -/
def u32Max : ℕ := 2 ^ 32 - 1

/-- `IS_ANCESTOR_BITMAP`. -/
def isAncestorBitmap : ℕ := 128

/-- `KEY_TYPE_snapshot`. -/
def keyTypeSnapshot : ℕ := 22

/-- `snapshot_id_state`. -/
inductive SnapshotIdState
  | empty
  | live
  | deleted
deriving DecidableEq, Repr

/-- `snapshot_t`: an entry of the table. -/
structure SnapshotT where
  state : SnapshotIdState := .empty
  parent : ℕ := 0
  skip : Fin 3 → ℕ := fun _ => 0
  depth : ℕ := 0
  children : Fin 2 → ℕ := fun _ => 0
  subvol : ℕ := 0
  tree : ℕ := 0
  isAncestor : BitVec 128 := 0

/-- `snapshot_table`. -/
structure SnapshotTable where
  nr : ℕ := 0
  s : List SnapshotT := []

/-- `__snapshot_t`. -/
def snapshotT (t : SnapshotTable) (id : ℕ) : Option SnapshotT :=
  let idx := u32Max - id
  if idx < t.nr then t.s[idx]? else none

/-- The parent in the table, `0` for none. -/
def SnapshotTable.parent (t : SnapshotTable) (id : ℕ) : ℕ :=
  ((snapshotT t id).map SnapshotT.parent).getD 0

/-! ### Entering snapshots -/

/-- The flags of `bch_snapshot`. -/
structure SnapshotFlags where
  willDelete : Bool := false
  subvol : Bool := false
  deleted : Bool := false
  noKeys : Bool := false
deriving DecidableEq, Repr

/-- A key of the snapshot tree with its value `bch_snapshot`; its id is the low half of the offset
of its position, and values of older formats are shorter. -/
structure SnapshotKey where
  id : ℕ
  type : ℕ := keyTypeSnapshot
  valU64s : ℕ := 7
  flags : SnapshotFlags := {}
  parent : ℕ
  children : Fin 2 → ℕ := fun _ => 0
  subvol : ℕ := 0
  tree : ℕ := 0
  depth : ℕ := 0
  skip : Fin 3 → ℕ := fun _ => 0

/-- `offset_of!(bch_snapshot, depth)`. -/
def snapshotDepthOffset : ℕ := 24

/-- The entry of a snapshot key but for its bitmap. -/
def SnapshotKey.entry (k : SnapshotKey) : SnapshotT where
  state := if !k.flags.deleted && !k.flags.noKeys then .live else .deleted
  parent := k.parent
  skip := if k.valU64s * 8 > snapshotDepthOffset then k.skip else fun _ => 0
  depth := if k.valU64s * 8 > snapshotDepthOffset then k.depth else 0
  children := k.children
  subvol := if k.flags.subvol then k.subvol else 0
  tree := k.tree

/-- The loop of `bch2_mark_snapshot` that marks the ancestors close to `id`. -/
def markAncestors (t : SnapshotTable) (id : ℕ) : ℕ → ℕ → BitVec 128 → Option (BitVec 128)
  | 0, _, _ => none
  | fuel + 1, parent, bits =>
    if parent = 0 then some bits
    else if parent ≤ id then none
    else if parent - id - 1 < isAncestorBitmap then
      markAncestors t id fuel (t.parent parent) (bits ||| (1#128 <<< (parent - id - 1)))
    else some bits

/-- The table with room for the entry `idx`. -/
def SnapshotTable.grow (t : SnapshotTable) (idx : ℕ) : SnapshotTable :=
  if idx ≥ t.nr then
    let newSize := 2 ^ Nat.clog 2 (idx + 1)
    ⟨newSize, t.s ++ List.replicate (newSize - t.s.length) ({} : SnapshotT)⟩
  else t

/-- The snapshots of a file system: the table, and whether dead snapshots wait for deletion. -/
structure Snapshots where
  table : SnapshotTable := {}
  needDeleteDeadSnapshots : Bool := false

/-- `bch2_mark_snapshot`. -/
def bch2MarkSnapshot (fuel : ℕ) (c : Snapshots) (new : SnapshotKey) : Option Snapshots := do
  let idx := u32Max - new.id
  let table := c.table.grow idx
  if new.type = keyTypeSnapshot then do
    let bits ← markAncestors table new.id fuel new.parent 0
    some {
      table := { table with s := table.s.set idx { new.entry with isAncestor := bits } }
      needDeleteDeadSnapshots := c.needDeleteDeadSnapshots || new.flags.willDelete }
  else some { c with table := { table with s := table.s.set idx {} } }

/-- `bch2_snapshots_read`, over the keys of tree 0 as its scan meets them, from the last one
backwards. -/
def bch2SnapshotsRead (fuel : ℕ) (c : Snapshots) (keys : List SnapshotKey) : Option Snapshots :=
  keys.foldlM (fun c k => if k.type = keyTypeSnapshot then bch2MarkSnapshot fuel c k else some c) c

/-! ### The tests for an ancestor -/

/-- The loop of `bch2_snapshot_is_ancestor_early`. -/
def earlyLoop (t : SnapshotTable) (ancestor : ℕ) : ℕ → ℕ → Option ℕ
  | 0, _ => none
  | fuel + 1, id =>
    if id ≠ 0 ∧ id < ancestor then earlyLoop t ancestor fuel (t.parent id) else some id

/-- `bch2_snapshot_is_ancestor_early`. -/
def bch2SnapshotIsAncestorEarly (fuel : ℕ) (t : SnapshotTable) (id ancestor : ℕ) : Option Bool :=
  (earlyLoop t ancestor fuel id).map fun id => id = ancestor

/-- `get_ancestor_below`. -/
def getAncestorBelow (t : SnapshotTable) (id ancestor : ℕ) : ℕ :=
  match snapshotT t id with
  | none => 0
  | some s =>
    if s.skip 2 ≤ ancestor then s.skip 2
    else if s.skip 1 ≤ ancestor then s.skip 1
    else if s.skip 0 ≤ ancestor then s.skip 0
    else s.parent

/-- `test_ancestor_bitmap`. -/
def testAncestorBitmap (t : SnapshotTable) (id ancestor : ℕ) : Bool :=
  match snapshotT t id with
  | none => false
  | some s => s.isAncestor.getLsbD (ancestor - id - 1)

/-- The loop of `__bch2_snapshot_is_ancestor`. -/
def skipLoop (t : SnapshotTable) (ancestor : ℕ) : ℕ → ℕ → Option ℕ
  | 0, _ => none
  | fuel + 1, id =>
    if id ≠ 0 ∧ id < ancestor - isAncestorBitmap then
      skipLoop t ancestor fuel (getAncestorBelow t id ancestor)
    else some id

/-- The first part of `__bch2_snapshot_is_ancestor`: up the skip list into reach of the bitmap. -/
def skipToBitmap (fuel : ℕ) (t : SnapshotTable) (id ancestor : ℕ) : Option ℕ :=
  if ancestor ≥ isAncestorBitmap then skipLoop t ancestor fuel id else some id

/-- `__bch2_snapshot_is_ancestor`. -/
def snapshotIsAncestor (fuel : ℕ) (t : SnapshotTable) (id ancestor : ℕ) : Option Bool :=
  (skipToBitmap fuel t id ancestor).map fun id =>
    if id ≠ 0 ∧ id < ancestor then testAncestorBitmap t id ancestor else decide (id = ancestor)

/-- `bch2_snapshot_is_ancestor`. -/
def bch2SnapshotIsAncestor (fuel : ℕ) (t : SnapshotTable) (id ancestor : ℕ) : Option Bool :=
  if id = 0 ∨ ancestor = 0 then none
  else if id = ancestor then some true
  else snapshotIsAncestor fuel t id ancestor

end Subvol

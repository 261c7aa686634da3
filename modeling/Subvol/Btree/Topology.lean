import Subvol.Iter.Tree
import Subvol.Btree.Parent

/-!
# The check of the topology

Model of `bch2_btree_node_check_topology`, which is to refuse an interior node whose children do not
tile its range. It walks over all keys of the node, the dead ones included, and is content with the
node at the first key that is not a node pointer, so it does not look behind a dead key.

## Main definitions

* `btreePtrV2MinKey`: the `min_key` in the value of a node pointer.
* `bch2BtreeNodeCheckTopology`, `checkChildren`.
* `TopologyOk`: what the check is for.

## Main results

* `checkChildren_eq_zero_iff`: what the walk accepts.
* `check_topology_iff`: where the check is right.
-/

namespace Subvol

open Lib

/-! ### The check -/

/-- The `min_key` of `bch_btree_ptr_v2`; words that the value does not have are zero in the buffer
it is copied to. -/
def btreePtrV2MinKey (k : Bkey) : Bpos where
  inode := Fin.ofNat _ (k.val.getD 4 0).toNat
  offset := Fin.ofNat _ (k.val.getD 3 0).toNat
  snapshot := Fin.ofNat _ ((k.val.getD 2 0).toNat / 2 ^ 32)

/-- The position at which the next child is to begin. -/
def expectedMin (nodeMin : Bpos) : Option Bkey → Option Bpos
  | none => some nodeMin
  | some prev => if prev.type ≠ keyTypeDeleted then bposSuccessor prev.p else some nodeMin

/-- The loop of `bch2_btree_node_check_topology` over the keys that are left. -/
def checkChildren (nodeMin nodeMax : Bpos) : Option Bkey → List Bkey → Option ℤ
  | none, [] => some (-1)
  | some prev, [] =>
    if prev.type = keyTypeDeleted ∨ prev.p ≠ nodeMax then some (-1) else some 0
  | prev, k :: ks =>
    if k.type ≠ keyTypeBtreePtrV2 then some 0
    else (expectedMin nodeMin prev).bind fun expected =>
      if expected ≠ btreePtrV2MinKey k then some (-1)
      else checkChildren nodeMin nodeMax (some k) ks

/-- The `min_key` of a node, from its key if that has one. -/
def nodeMin (b : BtreeNode) (key : Bkey) : Bpos :=
  if key.type = keyTypeBtreePtrV2 then btreePtrV2MinKey key else b.header.minKey

/-- `bch2_btree_node_check_topology` of a node with its key; `root` if it is the root of its tree.
`none` is a failed assertion. -/
def bch2BtreeNodeCheckTopology (b : BtreeNode) (key : Bkey) (root : Bool) : Option ℤ :=
  if key.type = keyTypeBtreePtrV2 ∧ nodeMin b key ≠ b.header.minKey then some (-1)
  else if root ∧ (b.header.minKey ≠ posMin ∨ b.header.maxKey ≠ sposMax) then some (-1)
  else if b.header.level = 0 then some 0
  else checkChildren (nodeMin b key) key.p none b.leaf.keys

/-! ### What it is for -/

/-- A live child with its range. -/
def childRange (k : Bkey) : Branch Bpos Bkey := ⟨btreePtrV2MinKey k, k.p, k⟩

/-- The live keys of a node in the order of their positions. -/
def liveChildren (b : BtreeNode) : List Bkey := b.leaf.keys.filter fun k => !k.deleted

/-- The key of a node agrees with its header, and a root has all positions. -/
structure HeaderAgrees (b : BtreeNode) (key : Bkey) (root : Bool) : Prop where
  min : key.type = keyTypeBtreePtrV2 → btreePtrV2MinKey key = b.header.minKey
  root : root = true → b.header.minKey = posMin ∧ b.header.maxKey = sposMax

/-- The children of a node tile its range. -/
structure TopologyOk (b : BtreeNode) (key : Bkey) (root : Bool) : Prop
    extends HeaderAgrees b key root where
  tiles : Tiles (nodeMin b key) key.p ((liveChildren b).map childRange)

/-- An interior node that holds nothing but node pointers and dead keys. -/
structure InteriorKeys (b : BtreeNode) : Prop where
  level : b.header.level ≠ 0
  types : ∀ k ∈ b.leaf.keys, k.type = keyTypeBtreePtrV2 ∨ k.deleted = true

/-! ### Chains of children -/

/-- Every child begins at the position expected, the first one at the given one. -/
def ChainsFrom : Option Bpos → List Bkey → Prop
  | _, [] => True
  | e, k :: ks => e = some (btreePtrV2MinKey k) ∧ ChainsFrom (bposSuccessor k.p) ks

/-- Children tile a range if they chain from its begin and the last one ends with it. -/
theorem tiles_iff_chainsFrom {lo hi : Bpos} {ks : List Bkey} :
    Tiles lo hi (ks.map childRange) ↔
      ChainsFrom (some lo) ks ∧ ∃ k, ks.getLast? = some k ∧ k.p = hi := by
  induction ks generalizing lo with
  | nil => simp [Tiles]
  | cons k ks ih =>
    cases ks with
    | nil => simp [Tiles, ChainsFrom, childRange, eq_comm]
    | cons k' ks =>
      rw [List.map_cons, List.map_cons, Tiles, ← List.map_cons, ih, ChainsFrom,
        List.getLast?_cons_cons]
      constructor
      · rintro ⟨hmin, hcov, hchain, hlast⟩
        have hsucc : bposSuccessor k.p = some (btreePtrV2MinKey k') :=
          bposSuccessor_eq_some_iff.mpr hcov
        exact ⟨⟨congrArg some hmin.symm, hsucc ▸ hchain⟩, hlast⟩
      · rintro ⟨⟨hmin, hchain⟩, hlast⟩
        refine ⟨(Option.some.inj hmin).symm, bposSuccessor_eq_some_iff.mp hchain.1, ?_, hlast⟩
        exact ⟨rfl, hchain.2⟩

/-- The first live keys of a list are also the first of all live ones. -/
theorem ChainsFrom.takeWhile {e : Option Bpos} {ks : List Bkey} {p : Bkey → Bool}
    (h : ChainsFrom e (ks.filter p)) : ChainsFrom e (ks.takeWhile p) := by
  induction ks generalizing e with
  | nil => trivial
  | cons k ks ih =>
    rw [List.takeWhile_cons]
    split_ifs with hk
    · rw [List.filter_cons_of_pos hk] at h
      exact ⟨h.1, ih h.2⟩
    · trivial

/-! ### The walk -/

/-- The walk accepts keys whose live ones in front of the first dead key chain, and without a dead
key the last one has to end with the node. -/
theorem checkChildren_eq_zero_iff (lo hi : Bpos) {ks : List Bkey}
    (htypes : ∀ k ∈ ks, k.type = keyTypeBtreePtrV2 ∨ k.deleted = true) (prev : Option Bkey)
    (hprev : ∀ k ∈ prev, k.type = keyTypeBtreePtrV2) :
    checkChildren lo hi prev ks = some 0 ↔
      ChainsFrom (expectedMin lo prev) (ks.takeWhile fun k => !k.deleted) ∧
        ((∀ k ∈ ks, k.deleted = false) →
          ∃ k, (prev.toList ++ ks).getLast? = some k ∧ k.p = hi) := by
  induction ks generalizing prev with
  | nil =>
    cases prev with
    | none => simp [checkChildren]
    | some k =>
      have hk : k.type = keyTypeBtreePtrV2 := hprev k rfl
      simp [checkChildren, ChainsFrom, hk, keyTypeBtreePtrV2, keyTypeDeleted]
  | cons k ks ih =>
    obtain ⟨hk, htypes⟩ := List.forall_mem_cons.mp htypes
    have hunfold : checkChildren lo hi prev (k :: ks) =
        if k.type ≠ keyTypeBtreePtrV2 then some 0
        else (expectedMin lo prev).bind fun expected =>
          if expected ≠ btreePtrV2MinKey k then some (-1)
          else checkChildren lo hi (some k) ks := by
      cases prev <;> rfl
    rw [hunfold]
    by_cases hdead : k.deleted = true
    · have htype : k.type ≠ keyTypeBtreePtrV2 := by
        rw [beq_iff_eq.mp hdead]
        decide
      simp [htype, hdead, ChainsFrom]
    · have htype : k.type = keyTypeBtreePtrV2 := hk.resolve_right hdead
      have hlast : (prev.toList ++ k :: ks).getLast? = ((some k).toList ++ ks).getLast? := by
        simp [List.getLast?_append, List.getLast?_cons]
      have hrest := ih htypes (some k) (by simpa using htype)
      have hnext : expectedMin lo (some k) = bposSuccessor k.p := by
        simp [expectedMin, htype, keyTypeBtreePtrV2, keyTypeDeleted]
      rw [hnext] at hrest
      rw [if_neg (not_not.mpr htype), List.takeWhile_cons, if_pos (by simpa using hdead), hlast,
        ChainsFrom]
      cases hexp : expectedMin lo prev with
      | none => simp
      | some e =>
        rw [Option.bind_some]
        by_cases heq : e = btreePtrV2MinKey k
        · rw [if_neg (not_not.mpr heq), hrest, heq]
          simp [hdead]
        · simp [heq]

section Node

variable {b : BtreeNode} {key : Bkey} {root : Bool}

/-- What the check accepts. -/
theorem check_eq_zero_iff (h : InteriorKeys b) :
    bch2BtreeNodeCheckTopology b key root = some 0 ↔ HeaderAgrees b key root ∧
      ChainsFrom (some (nodeMin b key)) (b.leaf.keys.takeWhile fun k => !k.deleted) ∧
        ((∀ k ∈ b.leaf.keys, k.deleted = false) →
          ∃ k, b.leaf.keys.getLast? = some k ∧ k.p = key.p) := by
  have hwalk := checkChildren_eq_zero_iff (nodeMin b key) key.p h.types none (by simp)
  rw [bch2BtreeNodeCheckTopology]
  split_ifs with hmin hroot hlevel
  · refine iff_of_false (by decide) fun hall => hmin.2 ?_
    rw [nodeMin, if_pos hmin.1]
    exact hall.1.min hmin.1
  · refine iff_of_false (by decide) fun hall => ?_
    obtain ⟨hlo, hhi⟩ := hall.1.root hroot.1
    exact hroot.2.elim (fun hne => hne hlo) fun hne => hne hhi
  · exact absurd hlevel h.level
  · have hagrees : HeaderAgrees b key root := by
      refine ⟨fun htype => ?_, fun hr => ?_⟩
      · by_contra hne
        exact hmin ⟨htype, by rwa [nodeMin, if_pos htype]⟩
      · by_contra hne
        exact hroot ⟨hr, not_and_or.mp hne⟩
    rw [hwalk]
    exact ⟨fun hall => ⟨hagrees, hall⟩, fun hall => hall.2⟩

/-- In a node without a dead key the check is right. -/
theorem tiles_iff_of_live (hlive : ∀ k ∈ b.leaf.keys, k.deleted = false) :
    Tiles (nodeMin b key) key.p ((liveChildren b).map childRange) ↔
      ChainsFrom (some (nodeMin b key)) (b.leaf.keys.takeWhile fun k => !k.deleted) ∧
        ∃ k, b.leaf.keys.getLast? = some k ∧ k.p = key.p := by
  have hall : ∀ k ∈ b.leaf.keys, (!k.deleted) = true := fun k hk => by simp [hlive k hk]
  rw [tiles_iff_chainsFrom, liveChildren, List.filter_eq_self.mpr hall,
    List.takeWhile_eq_self_iff.mpr hall]

end Node

/-- The check of an interior node is right just where a dead key behind children that chain from the
begin of the node hides no child out of place. -/
theorem check_topology_iff {b : BtreeNode} (h : InteriorKeys b) (key : Bkey) (root : Bool) :
    (bch2BtreeNodeCheckTopology b key root = some 0 ↔ TopologyOk b key root) ↔
      (HeaderAgrees b key root → (∃ k ∈ b.leaf.keys, k.deleted = true) →
        ChainsFrom (some (nodeMin b key)) (b.leaf.keys.takeWhile fun k => !k.deleted) →
        Tiles (nodeMin b key) key.p ((liveChildren b).map childRange)) := by
  rw [check_eq_zero_iff h]
  constructor
  · intro hright hagrees ⟨k, hk, hdead⟩ hchain
    refine (hright.mp ⟨hagrees, hchain, fun hlive => ?_⟩).tiles
    rw [hlive k hk] at hdead
    cases hdead
  · intro hcond
    constructor
    · rintro ⟨hagrees, hchain, hlast⟩
      refine ⟨hagrees, ?_⟩
      by_cases hdead : ∃ k ∈ b.leaf.keys, k.deleted = true
      · exact hcond hagrees hdead hchain
      · have hlive : ∀ k ∈ b.leaf.keys, k.deleted = false := by simpa using hdead
        exact (tiles_iff_of_live hlive).mpr ⟨hchain, hlast hlive⟩
    · intro hok
      refine ⟨hok.toHeaderAgrees, (tiles_iff_chainsFrom.mp hok.tiles).1.takeWhile, fun hlive => ?_⟩
      exact ((tiles_iff_of_live hlive).mp hok.tiles).2

/-- A root over all positions with the given keys in one set. -/
def rootNode (ks : List Bkey) : BtreeNode where
  header := { seq := 1, btreeId := 0, level := 1, minKey := posMin, maxKey := sposMax,
              format := bkeyFormatCurrent }
  bufU64s := 1024
  sets := [⟨btreeNodeU64s, 1, ks.map fun k => ⟨k, bkeyU64s, false⟩⟩]

/-- The key of a node that begins at an inode and has the last position. -/
def lastChild (inode : Fin (2 ^ 64)) : Bkey :=
  childPtr { seq := 1, minKey := ⟨inode, 0, 0⟩, maxKey := sposMax }

/-- A root with one child over all positions. -/
theorem check_topology_whole :
    bch2BtreeNodeCheckTopology (rootNode [lastChild 0]) (lastChild 0) true = some 0 ↔
      TopologyOk (rootNode [lastChild 0]) (lastChild 0) true := by
  have hkeys : (rootNode [lastChild 0]).leaf.keys = [lastChild 0] := by decide +kernel
  have hinterior : InteriorKeys (rootNode [lastChild 0]) :=
    ⟨by decide, by rw [hkeys]; decide +kernel⟩
  refine (check_topology_iff hinterior _ _).mpr fun _ hdead => ?_
  rw [hkeys] at hdead
  exact absurd hdead (by decide +kernel)

/-- A dead child pointer. -/
def deadChild : Bkey := { p := ⟨1, 0, 0⟩, type := keyTypeDeleted, val := [] }

/-- A root whose only live child does not begin where the root does is accepted if a dead key comes
first. -/
theorem check_topology_gap :
    InteriorKeys (rootNode [deadChild, lastChild 2]) ∧
      bch2BtreeNodeCheckTopology (rootNode [deadChild, lastChild 2]) (lastChild 0) true = some 0 ∧
      ¬TopologyOk (rootNode [deadChild, lastChild 2]) (lastChild 0) true := by
  have hkeys : (rootNode [deadChild, lastChild 2]).leaf.keys = [deadChild, lastChild 2] := by
    decide +kernel
  refine ⟨⟨by decide, by rw [hkeys]; decide +kernel⟩, by decide +kernel, fun hok => ?_⟩
  have htiles := hok.tiles
  rw [liveChildren, hkeys] at htiles
  exact absurd htiles.1 (by decide +kernel)

end Subvol

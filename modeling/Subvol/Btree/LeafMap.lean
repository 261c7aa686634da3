import Subvol.Btree.NodeRun
import Subvol.Lib.WriteBack

/-!
# A leaf as a map

A leaf stands for the map of its live keys, and its sectors for the map that a read finds in them.
Along every run of a leaf these two maps change as a map in memory with a stored copy does: an
insertion or a deletion puts one key, a node write that succeeds stores the map, a read of the node
takes the stored map back, and compactions, new sets and failed writes change neither.

## Main definitions

* `LeafState.maps`: the two maps of a leaf.
* `NodeOp.act`, `runActs`: what an operation and a run do to them.

## Main results

* `NodeOp.maps`: one operation.
* `leaf_maps_run`: the maps along a run.
-/

namespace Subvol

open Lib

/-- The live keys of a leaf, and what a read of its sectors finds. -/
def LeafState.maps (s : LeafState) : WriteBack Bpos Bkey := ⟨s.node.liveMap, nodeView s.disk⟩

/-- What an insertion puts at its position. -/
def Bkey.entry (k : Bkey) : Option Bkey := if k.deleted then none else some k

instance (onlyIfNeed blocked : Bool) (b : BtreeNode) : Decidable (WriteStarts onlyIfNeed blocked b) :=
  inferInstanceAs (Decidable (_ ∧ _ ∧ _))

/-- A write stores the map when it starts and returns zero. -/
def writeAct (io : NodeIo) (onlyIfNeed blocked : Bool) (s : LeafState) : WriteBackAct Bpos Bkey :=
  if WriteStarts onlyIfNeed blocked s.node ∧
      (bch2BtreeNodeWriteTrans io onlyIfNeed blocked s.node s.disk).any fun r => r.1 = 0 then .sync
  else .idle

/-- `bch2_btree_init_next` writes a node that has all sets and large ones. -/
def initNextAct (io : NodeIo) (s : LeafState) : WriteBackAct Bpos Bkey :=
  if s.node.nsets = maxBsets ∧ shouldCompactAll s.node then writeAct io false false s else .idle

/-- What an operation does to the maps. -/
def NodeOp.act (dev : NodeIo) (s : LeafState) : NodeOp → WriteBackAct Bpos Bkey
  | .insert k _ => .put k.p k.entry
  | .dropWhiteouts _ => .idle
  | .compact => .idle
  | .initNext a => initNextAct (dev.answers a) s
  | .prepForWrite a =>
    if (wantNewBset dev.blockSectors s.node).isSome then initNextAct (dev.answers a) s else .idle
  | .write a onlyIfNeed blocked => writeAct (dev.answers a) onlyIfNeed blocked s
  | .reload _ => .reload

/-- What a run does to the maps. -/
def runActs (dev : NodeIo) : List NodeOp → LeafState → List (WriteBackAct Bpos Bkey)
  | [], _ => []
  | op :: ops, s => op.act dev s :: ((op.step dev s).map (runActs dev ops)).getD []

/-! ### One operation -/

theorem InsertEffect.liveMap {b b' : BtreeNode} {k : Bkey} (h : NodeShape b)
    (he : InsertEffect b b' k) : b'.liveMap = Function.update b.liveMap k.p k.entry := by
  funext p
  refine Option.ext fun x => ?_
  rw [he.shape.liveMap_iff]
  by_cases hp : p = k.p
  · subst hp
    rw [Function.update_self, Bkey.entry]
    constructor
    · rintro ⟨w, y, hy, rfl, hpos⟩
      rcases (he.holds w y).mp hy with ⟨-, hne⟩ | ⟨hlive, -, rfl⟩
      · exact absurd hpos hne
      · rw [hlive]
        rfl
    · intro hx
      split_ifs at hx with hdel
      obtain rfl := Option.some.inj hx
      exact ⟨false, _, (he.holds _ _).mpr (Or.inr ⟨by simpa using hdel, rfl, rfl⟩), rfl, rfl⟩
  · rw [Function.update_of_ne hp, h.liveMap_iff]
    constructor
    · rintro ⟨w, y, hy, rfl, hpos⟩
      rcases (he.holds w y).mp hy with ⟨hy, -⟩ | ⟨-, -, rfl⟩
      · exact ⟨w, y, hy, rfl, hpos⟩
      · exact absurd hpos.symm hp
    · rintro ⟨w, y, hy, rfl, hpos⟩
      exact ⟨w, y, (he.holds w y).mpr (Or.inl ⟨hy, fun h => hp (hpos.symm.trans h)⟩), rfl, hpos⟩

section Write

variable {b b' : BtreeNode} {disk disk' : NodeDisk} {io : NodeIo}

theorem writeTrans_maps (h : NodeInv b disk) {onlyIfNeed blocked : Bool} {ret : ℤ}
    (hsafe : WriteSafe io onlyIfNeed blocked ⟨b, disk⟩)
    (hw : bch2BtreeNodeWriteTrans io onlyIfNeed blocked b disk = some (ret, b', disk')) :
    LeafState.maps ⟨b', disk'⟩ =
      (LeafState.maps ⟨b, disk⟩).act (writeAct io onlyIfNeed blocked ⟨b, disk⟩) := by
  by_cases hstart : WriteStarts onlyIfNeed blocked b
  · by_cases hret : ret = 0
    · subst hret
      have hdone := h.tied.writeTrans_done hstart hw
      have hact : writeAct io onlyIfNeed blocked ⟨b, disk⟩ = .sync :=
        if_pos ⟨hstart, by rw [hw]; rfl⟩
      rw [hact, LeafState.maps, WriteBack.act, hdone.liveMap, funext hdone.view]
      rfl
    · have hfail := writeTrans_failed hstart hw hret
      have hact : writeAct io onlyIfNeed blocked ⟨b, disk⟩ = .idle :=
        if_neg fun hs => hret (by simpa [hw] using hs.2)
      rw [hact, LeafState.maps, (h.of_failed hfail (hsafe _ hw hret)).2, hfail.disk]
      rfl
  · obtain ⟨rfl, rfl, -⟩ := writeTrans_idle hstart hw
    rw [writeAct, if_neg fun hs => hstart hs.1]
    rfl

theorem initNext_maps (h : NodeInv b disk) (hsafe : InnerWriteSafe io ⟨b, disk⟩)
    (hb : bch2BtreeInitNext io b disk = some (b', disk')) :
    LeafState.maps ⟨b', disk'⟩ = (LeafState.maps ⟨b, disk⟩).act (initNextAct io ⟨b, disk⟩) := by
  obtain ⟨⟨ret, b₁, disk₁⟩, hw, hb⟩ := Option.bind_eq_some_iff.mp hb
  obtain ⟨b₂, hc, hb⟩ := Option.bind_eq_some_iff.mp hb
  have h₁ : NodeInv b₁ disk₁ ∧ LeafState.maps ⟨b₁, disk₁⟩ =
      (LeafState.maps ⟨b, disk⟩).act (initNextAct io ⟨b, disk⟩) := by
    rw [writeLargeSets] at hw
    rw [initNextAct]
    split_ifs at hw with hlarge
    · rw [if_pos hlarge]
      exact ⟨h.writeTrans (hsafe hlarge) hw, writeTrans_maps h (hsafe hlarge) hw⟩
    · cases hw
      rw [if_neg hlarge]
      exact ⟨h, rfl⟩
  have h₂ : Rearranged b₁ b₂ := by
    rw [compactFull] at hc
    split_ifs at hc
    · exact h₁.1.shape.compact hc
    · cases hc
      exact .refl h₁.1.shape
  split_ifs at hb
  obtain ⟨b₃, ho, hb⟩ := Option.bind_eq_some_iff.mp hb
  cases hb
  have hmap := (h₂.trans (h₂.shape.openWantedBset ho)).liveMap h₁.1.shape
  rw [← h₁.2, LeafState.maps, LeafState.maps, hmap]

theorem prepForWrite_maps (h : NodeInv b disk) (hsafe : InnerWriteSafe io ⟨b, disk⟩)
    (hb : bch2BtreeNodePrepForWrite io b disk = some (b', disk')) :
    LeafState.maps ⟨b', disk'⟩ = (LeafState.maps ⟨b, disk⟩).act
      (if (wantNewBset io.blockSectors b).isSome then initNextAct io ⟨b, disk⟩ else .idle) := by
  have hclean : bch2BtreePostWriteCleanup io.blockSectors b = some b := by
    rw [bch2BtreePostWriteCleanup, h.justWritten]
    rfl
  rw [bch2BtreeNodePrepForWrite, hclean] at hb
  simp only [Option.bind_eq_bind, Option.bind_some] at hb
  split at hb
  · rename_i hwant
    rw [hwant, Option.isSome_some, if_pos rfl]
    exact initNext_maps h hsafe hb
  · rename_i hwant
    cases hb
    rw [hwant]
    rfl

end Write

/-- One operation changes the maps as its action does. -/
theorem NodeOp.maps {dev : NodeIo} {s s' : LeafState} {op : NodeOp} (h : NodeInv s.node s.disk)
    (ha : op.Allowed dev s) (hs : op.step dev s = some s') :
    s'.maps = s.maps.act (op.act dev s) := by
  cases op with
  | insert k seq =>
    obtain ⟨b, hb, rfl⟩ := Option.map_eq_some_iff.mp hs
    rw [LeafState.maps, (h.shape.insertKeyLeaf h.apart ha hb).liveMap h.shape]
    rfl
  | dropWhiteouts mode =>
    obtain ⟨r, hr, rfl⟩ := Option.map_eq_some_iff.mp hs
    rw [LeafState.maps, (h.shape.dropWhiteouts hr).liveMap h.shape]
    rfl
  | compact =>
    obtain ⟨b, hb, rfl⟩ := Option.map_eq_some_iff.mp hs
    rw [LeafState.maps, (h.shape.compact hb).liveMap h.shape]
    rfl
  | initNext a =>
    obtain ⟨r, hr, rfl⟩ := Option.map_eq_some_iff.mp hs
    exact initNext_maps h ha hr
  | prepForWrite a =>
    obtain ⟨r, hr, rfl⟩ := Option.map_eq_some_iff.mp hs
    exact prepForWrite_maps h ha hr
  | write a onlyIfNeed blocked =>
    obtain ⟨⟨ret, b, disk⟩, hr, rfl⟩ := Option.map_eq_some_iff.mp hs
    exact writeTrans_maps h ha hr
  | reload a =>
    simp only [NodeOp.step] at hs
    split at hs
    · rename_i b hb
      cases hs
      obtain ⟨hok, hpanic⟩ := h.tied.nodeRead_zero (readReady_of_ok hb) ha
      by_cases hle : (nonEmptySets s.disk.bsets).length ≤ sortIterStackSize
      · obtain ⟨b', hb', hmap, -⟩ := hok hle
        rw [hb] at hb'
        cases hb'
        rw [LeafState.maps, hmap]
        rfl
      · rw [hpanic (not_le.mp hle)] at hb
        cases hb
    · cases hs

/-! ### Runs -/

theorem runOps_maps {dev : NodeIo} {ops : List NodeOp} {s s' : LeafState}
    (h : NodeInv s.node s.disk) (hrun : runOps dev ops s = some s') :
    s'.maps = s.maps.run (runActs dev ops s) := by
  induction ops generalizing s with
  | nil =>
    cases hrun
    rfl
  | cons op ops ih =>
    rw [runOps] at hrun
    split_ifs at hrun with ha
    obtain ⟨s₁, hs₁, hrun⟩ := Option.bind_eq_some_iff.mp hrun
    rw [ih (NodeOp.inv h ha hs₁) hrun, NodeOp.maps h ha hs₁, runActs, hs₁]
    rfl

/-- A write, an insertion that is not stored, and a read of the node. -/
def loseInsert : List NodeOp :=
  [.write {} false false, .insert (smallKey 2) 2, .dropWhiteouts .lazy, .reload {}]

/-- A run that ends in a read of the node, with no write that succeeds since the last one, has the
live keys that the node had at that write. -/
theorem liveMap_of_reload {dev : NodeIo} {ops : List NodeOp} {s₀ s : LeafState}
    {as bs : List (WriteBackAct Bpos Bkey)} (h₀ : FreshLeaf s₀) (hrun : runOps dev ops s₀ = some s)
    (hacts : runActs dev ops s₀ = as ++ .sync :: bs ++ [.reload]) (hbs : .sync ∉ bs) :
    s.node.liveMap = (s₀.maps.run as).mem := by
  have hmaps := runOps_maps h₀.inv hrun
  rw [hacts] at hmaps
  exact (congrArg WriteBack.mem hmaps).trans (WriteBack.reload_run _ hbs)

end Subvol

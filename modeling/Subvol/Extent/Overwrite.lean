import Subvol.Extent.Update

/-!
# What an inserted extent leaves

The extents of a tree map the sectors of files to what is stored for them. Inserting an extent is
meant to put it in the place of whatever was there and to leave all other sectors as they are. This
module follows the loop of `bch2_trans_update_extent` over the extents that are overwritten, and
the extents that the new one grows over.

## Main definitions

* `Maps`: where the sectors of a tree are.
* `ExtentTree`: extents of one snapshot that do not overlap.
* `Overwritten`: the new extent in the place of what was there.

## Main results

* `loop_isSome_iff`: when the loop ends.
* `mem_commit_loop`: the tree behind the loop.
* `Cleared.finish`: the new extent in a tree in which it overlaps nothing.
-/

namespace Subvol

/-! ### Sectors -/

namespace Extent

/-- The extent holds the sector `x` of the file `i`. -/
def Covers (e : Extent) (i x : ℕ) : Prop := e.inode = i ∧ e.start ≤ x ∧ x < e.offset

/-- Two extents share a sector. -/
def Overlaps (e e' : Extent) : Prop :=
  e.inode = e'.inode ∧ e.start < e'.offset ∧ e'.start < e.offset

instance (e e' : Extent) : Decidable (e.Overlaps e') :=
  inferInstanceAs (Decidable (_ ∧ _))

/-- The keys that come first, and do not overlap. -/
def Before (e e' : Extent) : Prop :=
  e.inode < e'.inode ∨ e.inode = e'.inode ∧ e.offset ≤ e'.start

/-- The fields have their widths, and the extent is not empty. -/
structure Valid (e : Extent) : Prop where
  size_pos : 0 < e.size
  size_le : e.size ≤ e.offset
  offset_le : e.offset ≤ keyOffsetMax
  inode_le : e.inode ≤ keyInodeMax

instance (e : Extent) : Decidable e.Valid :=
  decidable_of_iff (0 < e.size ∧ e.size ≤ e.offset ∧ e.offset ≤ keyOffsetMax ∧
      e.inode ≤ keyInodeMax)
    ⟨fun ⟨h₁, h₂, h₃, h₄⟩ => ⟨h₁, h₂, h₃, h₄⟩,
      fun h => ⟨h.size_pos, h.size_le, h.offset_le, h.inode_le⟩⟩

instance (e e' : Extent) : Decidable (e.Before e') :=
  inferInstanceAs (Decidable (_ ∨ _))

theorem Valid.start_lt {e : Extent} (h : e.Valid) : e.start < e.offset := by
  have hpos := h.size_pos
  have hle := h.size_le
  rw [start]
  omega

theorem Overlaps.symm {e e' : Extent} (h : e.Overlaps e') : e'.Overlaps e :=
  ⟨h.1.symm, h.2.2, h.2.1⟩

theorem Covers.overlaps {e e' : Extent} {i x : ℕ} (h : e.Covers i x) (h' : e'.Covers i x) :
    e.Overlaps e' :=
  ⟨h.1.trans h'.1.symm, h.2.1.trans_lt h'.2.2, h'.2.1.trans_lt h.2.2⟩

theorem Valid.covers_start {e : Extent} (h : e.Valid) : e.Covers e.inode e.start :=
  ⟨rfl, le_rfl, h.start_lt⟩

end Extent

/-- What cutting an extent at its front moves along. -/
def ExtentVal.IsCut : ExtentVal → Prop
  | .other _ _ => False
  | _ => True

/-- The sectors behind the start that the value does not account for. -/
def ExtentVal.uncut (d : ℕ) : ExtentVal → ℕ
  | .other _ _ => d
  | _ => 0

/-- What the extent holds for the sector `x`: its pointers and checksums, moved on to the sector,
and its version. -/
def Extent.sector (e : Extent) (x : ℕ) : ExtentVal × ℕ × ℕ × ℕ :=
  (cutVal (x - e.start) e.val, e.val.uncut (x - e.start), e.versionHi, e.versionLo)

/-- The tree holds `s` for the sector `x` of the file `i`. -/
def Maps (tree : List Extent) (i x : ℕ) (s : ExtentVal × ℕ × ℕ × ℕ) : Prop :=
  ∃ e ∈ tree, e.Covers i x ∧ e.sector x = s

/-- A tree of extents that do not overlap, in the order of their positions. -/
structure ExtentTree (tree : List Extent) : Prop where
  valid : ∀ e ∈ tree, e.Valid
  ordered : tree.Pairwise Extent.Before

instance (tree : List Extent) : Decidable (ExtentTree tree) :=
  decidable_of_iff ((∀ e ∈ tree, e.Valid) ∧ tree.Pairwise Extent.Before)
    ⟨fun ⟨h₁, h₂⟩ => ⟨h₁, h₂⟩, fun h => ⟨h.valid, h.ordered⟩⟩

/-- The new extent is in the place of what was there: extents do not overlap, the sectors of the
new extent are its own, and all others are what they were. -/
structure Overwritten (tree : List Extent) (new : Extent) (tree' : List Extent) : Prop where
  apart : ∀ e ∈ tree', ∀ e' ∈ tree', e ≠ e' → ¬e.Overlaps e'
  inside : ∀ i x s, new.Covers i x → (Maps tree' i x s ↔ s = new.sector x)
  outside : ∀ i x s, ¬new.Covers i x → (Maps tree' i x s ↔ Maps tree i x s)

/-! ### Cutting -/

theorem cutEntries_add (a b : ℕ) (seenCrc : Bool) (es : List ExtentEntry) :
    cutEntries b seenCrc (cutEntries a seenCrc es) = cutEntries (a + b) seenCrc es := by
  induction es generalizing seenCrc with
  | nil => rfl
  | cons entry es ih =>
    cases entry with
    | ptr cached unwritten p =>
      cases seenCrc with
      | true => simp [cutEntries, ih]
      | false => simp [cutEntries, ih, Nat.mod_add_mod, Nat.add_assoc]
    | crc32 offset rest => simp [cutEntries, ih, Nat.mod_add_mod, Nat.add_assoc]
    | crc64 offset rest => simp [cutEntries, ih, Nat.mod_add_mod, Nat.add_assoc]
    | crc128 offset rest => simp [cutEntries, ih, Nat.mod_add_mod, Nat.add_assoc]
    | other type words => simp [cutEntries, ih]

theorem cutVal_add (a b : ℕ) (v : ExtentVal) : cutVal b (cutVal a v) = cutVal (a + b) v := by
  cases v <;> simp [cutVal, cutEntries_add]

section Cut

variable {e : Extent} {p : ℕ}

theorem bch2CutBack_of_lt (h : p < e.offset) :
    bch2CutBack p e = { e with offset := p, size := p - e.start } :=
  if_neg (by omega)

theorem start_bch2CutBack (h : p < e.offset) (hp : e.start ≤ p) :
    (bch2CutBack p e).start = e.start := by
  rw [bch2CutBack_of_lt h]
  show p - (p - e.start) = e.start
  omega

/-- The sectors in front of the cut stay. -/
theorem sector_bch2CutBack (h : p < e.offset) (hp : e.start ≤ p) (x : ℕ) :
    (bch2CutBack p e).sector x = e.sector x := by
  rw [Extent.sector, start_bch2CutBack h hp, bch2CutBack_of_lt h]
  rfl

theorem bch2CutFront_of_lt (h : e.start < p) :
    bch2CutFront p e =
      { e with size := e.size - (p - e.start), val := cutVal (p - e.start) e.val } :=
  if_neg (by omega)

theorem start_bch2CutFront (hv : e.Valid) (h : e.start < p) (hp : p < e.offset) :
    (bch2CutFront p e).start = p := by
  have hle := hv.size_le
  rw [bch2CutFront_of_lt h]
  show e.offset - (e.size - (p - e.start)) = p
  rw [Extent.start] at h ⊢
  omega

/-- The sectors behind the cut stay where the value is moved along. -/
theorem sector_bch2CutFront (hv : e.Valid) (h : e.start < p) (hp : p < e.offset)
    (hcut : e.val.IsCut) {x : ℕ} (hx : p ≤ x) : (bch2CutFront p e).sector x = e.sector x := by
  have hval : cutVal (x - p) (cutVal (p - e.start) e.val) = cutVal (x - e.start) e.val := by
    rw [cutVal_add]
    congr 1
    omega
  rw [Extent.sector, start_bch2CutFront hv h hp, bch2CutFront_of_lt h]
  show (cutVal (x - p) (cutVal (p - e.start) e.val), (cutVal (p - e.start) e.val).uncut (x - p),
    e.versionHi, e.versionLo) = _
  rw [hval, Extent.sector]
  congr 2
  cases hcase : e.val with
  | other type words =>
    rw [hcase] at hcut
    exact hcut.elim
  | extent es => rfl
  | reflinkV es => rfl
  | reservation g n => rfl
  | set => rfl

end Cut

/-! ### Trees -/

section Tree

variable {tree : List Extent} {e e' : Extent}

theorem Extent.Before.not_overlaps (h : e.Before e') : ¬e.Overlaps e' := by
  rintro ⟨hi, hs, hs'⟩
  rcases h with h | ⟨-, h⟩ <;> omega

/-- Two extents of a tree are the same or come one after the other. -/
theorem ExtentTree.cases (h : ExtentTree tree) (he : e ∈ tree) (he' : e' ∈ tree) :
    e = e' ∨ e.Before e' ∨ e'.Before e := by
  obtain ⟨i, hi, rfl⟩ := List.mem_iff_getElem.mp he
  obtain ⟨j, hj, rfl⟩ := List.mem_iff_getElem.mp he'
  rcases lt_trichotomy i j with hij | rfl | hij
  · exact .inr (.inl (List.pairwise_iff_getElem.mp h.ordered i j hi hj hij))
  · exact .inl rfl
  · exact .inr (.inr (List.pairwise_iff_getElem.mp h.ordered j i hj hi hij))

theorem ExtentTree.apart (h : ExtentTree tree) (he : e ∈ tree) (he' : e' ∈ tree) (hne : e ≠ e') :
    ¬e.Overlaps e' := by
  rcases h.cases he he' with heq | hb | hb
  · exact absurd heq hne
  · exact hb.not_overlaps
  · exact fun ho => hb.not_overlaps ho.symm

theorem ExtentTree.eq_of_covers (h : ExtentTree tree) (he : e ∈ tree) (he' : e' ∈ tree) {i x : ℕ}
    (hx : e.Covers i x) (hx' : e'.Covers i x) : e = e' := by
  by_contra hne
  exact h.apart he he' hne (hx.overlaps hx')

/-- The last sector of an extent is its own, so no two end at one place. -/
theorem ExtentTree.eq_of_pos (h : ExtentTree tree) (he : e ∈ tree) (he' : e' ∈ tree)
    (hpos : e.pos = e'.pos) : e = e' := by
  obtain ⟨hi, ho⟩ := Prod.mk.inj hpos
  have hlt := (h.valid e he).start_lt
  have hlt' := (h.valid e' he').start_lt
  refine h.eq_of_covers he he' (i := e.inode) (x := e.offset - 1) ⟨rfl, by omega, by omega⟩
    ⟨hi.symm, by omega, by omega⟩

theorem commitUpdates_append (us us' : List ExtentUpdate) :
    commitUpdates tree (us ++ us') = commitUpdates (commitUpdates tree us) us' :=
  List.foldl_append

theorem commitUpdates_singleton (u : ExtentUpdate) :
    commitUpdates tree [u] = commitUpdate tree u := rfl

theorem mem_commitUpdate_put {x : Extent} :
    x ∈ commitUpdate tree (.put e) ↔ x = e ∨ x ∈ tree ∧ x.pos ≠ e.pos := by
  rw [commitUpdate, List.mem_orderedInsert, List.mem_filter, decide_eq_true_eq]

theorem mem_commitUpdate_delete {x : Extent} {i o : ℕ} :
    x ∈ commitUpdate tree (.delete i o) ↔ x ∈ tree ∧ x.pos ≠ (i, o) := by
  rw [commitUpdate, List.mem_filter, decide_eq_true_eq]

end Tree

/-! ### One extent overwritten -/

/-- What is left of an extent beside the new one. -/
def residuals (old new : Extent) : List Extent :=
  (if old.start < new.start then [bch2CutBack new.start old] else []) ++
    (if new.offset < old.offset then [bch2CutFront new.offset old] else [])

/-- No two extents are at one position. -/
def PosUnique (tree : List Extent) : Prop :=
  ∀ e ∈ tree, ∀ e' ∈ tree, e.pos = e'.pos → e = e'

section Overwrite

variable {c : ExtentCtx} {tree : List Extent} {old new x : Extent} {us : List ExtentUpdate}

theorem mem_residuals : x ∈ residuals old new ↔
    (old.start < new.start ∧ x = bch2CutBack new.start old) ∨
      (new.offset < old.offset ∧ x = bch2CutFront new.offset old) := by
  rw [residuals, List.mem_append]
  refine or_congr ?_ ?_
  · split_ifs with h <;> simp [h]
  · split_ifs with h <;> simp [h]

theorem pos_bch2CutFront (p : ℕ) : (bch2CutFront p old).pos = old.pos := by
  rw [bch2CutFront]
  split_ifs <;> rfl

theorem pos_bch2CutBack {p : ℕ} (h : p < old.offset) :
    (bch2CutBack p old).pos = (old.inode, p) := by
  rw [bch2CutBack_of_lt h]
  rfl

/-- The tree behind the updates for one overlapped extent. -/
theorem mem_commit_overwrite {onKey : Bool} (hu : PosUnique tree) (hold : old ∈ tree)
    (hlt : new.start < old.offset)
    (hfree : old.start < new.start → ∀ e ∈ tree, e.pos ≠ (old.inode, new.start))
    (hus : bch2TransUpdateExtentOverwrite onKey old new = some us) :
    x ∈ commitUpdates tree us ↔ (x ∈ tree ∧ x ≠ old) ∨ x ∈ residuals old new := by
  have hne : x ∈ tree → (x.pos ≠ old.pos ↔ x ≠ old) := fun hx =>
    ⟨fun h heq => h (by rw [heq]), fun h heq => h (hu x hx old hold heq)⟩
  have hcut : (bch2CutBack new.start old).pos ≠ old.pos := by
    rw [pos_bch2CutBack hlt]
    intro heq
    exact absurd (Prod.mk.inj heq).2 hlt.ne
  -- the front piece goes to a position where nothing was
  have hfront : ∀ y, y ∈ commitUpdates tree
      (if old.start < new.start then [.put (bch2CutBack new.start old)] else []) ↔
      y ∈ tree ∨ old.start < new.start ∧ y = bch2CutBack new.start old := by
    intro y
    by_cases hf : old.start < new.start
    · rw [if_pos hf, commitUpdates_singleton, mem_commitUpdate_put, pos_bch2CutBack hlt]
      constructor
      · rintro (rfl | ⟨hy, -⟩)
        · exact .inr ⟨hf, rfl⟩
        · exact .inl hy
      · rintro (hy | ⟨-, rfl⟩)
        · exact .inr ⟨hy, hfree hf y hy⟩
        · exact .inl rfl
    · rw [if_neg hf]
      exact ⟨.inl, fun h => h.elim id fun h => absurd h.1 hf⟩
  rw [mem_residuals]
  rw [bch2TransUpdateExtentOverwrite] at hus
  by_cases hback : old.offset ≤ new.offset
  · rw [if_pos hback] at hus
    cases hus
    rw [commitUpdates_append, commitUpdates_singleton, mem_commitUpdate_delete, hfront]
    constructor
    · rintro ⟨hx | hx, hpos⟩
      · exact .inl ⟨hx, (hne hx).mp hpos⟩
      · exact .inr (.inl hx)
    · rintro (⟨hx, hxo⟩ | ⟨hf, rfl⟩ | ⟨hlt', -⟩)
      · exact ⟨.inl hx, (hne hx).mpr hxo⟩
      · exact ⟨.inr ⟨hf, rfl⟩, hcut⟩
      · exact absurd hlt' (not_lt.mpr hback)
  · rw [if_neg hback] at hus
    cases onKey with
    | false => cases hus
    | true =>
      cases hus
      rw [commitUpdates_append, commitUpdates_singleton, mem_commitUpdate_put, hfront,
        pos_bch2CutFront]
      constructor
      · rintro (rfl | ⟨hx | hx, hpos⟩)
        · exact .inr (.inr ⟨not_le.mp hback, rfl⟩)
        · exact .inl ⟨hx, (hne hx).mp hpos⟩
        · exact .inr (.inl hx)
      · rintro (⟨hx, hxo⟩ | ⟨hf, rfl⟩ | ⟨-, rfl⟩)
        · exact .inr ⟨.inl hx, (hne hx).mpr hxo⟩
        · exact .inr ⟨.inr ⟨hf, rfl⟩, hcut⟩
        · exact .inl rfl

/-- The pieces of an overwritten extent are at positions of their own. -/
theorem posUnique_overwrite {onKey : Bool} (hu : PosUnique tree) (hold : old ∈ tree)
    (hlt : new.start < old.offset)
    (hfree : old.start < new.start → ∀ e ∈ tree, e.pos ≠ (old.inode, new.start))
    (hus : bch2TransUpdateExtentOverwrite onKey old new = some us) :
    PosUnique (commitUpdates tree us) := by
  have hpiece : ∀ y ∈ residuals old new, ∀ z ∈ tree, z ≠ old → z.pos ≠ y.pos := by
    intro y hy z hz hzo
    rcases mem_residuals.mp hy with ⟨hfront, rfl⟩ | ⟨-, rfl⟩
    · rw [pos_bch2CutBack hlt]
      exact hfree hfront z hz
    · rw [pos_bch2CutFront]
      exact fun heq => hzo (hu z hz old hold heq)
  intro e he e' he' hpos
  rcases (mem_commit_overwrite hu hold hlt hfree hus).mp he with ⟨he, heo⟩ | he
  · rcases (mem_commit_overwrite hu hold hlt hfree hus).mp he' with ⟨he', -⟩ | he'
    · exact hu e he e' he' hpos
    · exact absurd hpos (hpiece e' he' e he heo)
  · rcases (mem_commit_overwrite hu hold hlt hfree hus).mp he' with ⟨he', heo'⟩ | he'
    · exact absurd hpos.symm (hpiece e he e' he' heo')
    · rcases mem_residuals.mp he with ⟨-, rfl⟩ | ⟨-, rfl⟩
      · rcases mem_residuals.mp he' with ⟨-, rfl⟩ | ⟨-, rfl⟩
        · rfl
        · rw [pos_bch2CutFront, pos_bch2CutBack hlt] at hpos
          exact absurd (Prod.mk.inj hpos).2 hlt.ne
      · rcases mem_residuals.mp he' with ⟨-, rfl⟩ | ⟨-, rfl⟩
        · rw [pos_bch2CutFront, pos_bch2CutBack hlt] at hpos
          exact absurd (Prod.mk.inj hpos).2 hlt.ne'
        · rfl

end Overwrite

/-! ### The loop -/

/-- The keys that the loop goes through: extents of the file that end behind the start of the new
one, in order. -/
structure LoopKeys (new : Extent) (ks : List Extent) : Prop where
  inode : ∀ k ∈ ks, k.inode = new.inode
  gt : ∀ k ∈ ks, new.start < k.offset
  valid : ∀ k ∈ ks, k.Valid
  ordered : ks.Pairwise fun k k' => k.offset ≤ k'.start

/-- The loop gets past an overlapped extent: the path is at an extent that has to be cut at its
front, and the iterator moves on from any other. -/
def Passes (c : ExtentCtx) (new old : Extent) : Prop :=
  if new.offset < old.offset then c.landed old.pos = true
  else old.pos ≠ (keyInodeMax, keyOffsetMax)

section Loop

variable {c : ExtentCtx} {new k : Extent} {ks : List Extent} {search : ℕ}

theorem LoopKeys.tail (h : LoopKeys new (k :: ks)) : LoopKeys new ks where
  inode k hk := h.inode k (List.mem_cons_of_mem _ hk)
  gt k hk := h.gt k (List.mem_cons_of_mem _ hk)
  valid k hk := h.valid k (List.mem_cons_of_mem _ hk)
  ordered := (List.pairwise_cons.mp h.ordered).2

theorem LoopKeys.head_le (h : LoopKeys new (k :: ks)) : ∀ k' ∈ ks, k.offset ≤ k'.start :=
  (List.pairwise_cons.mp h.ordered).1

theorem LoopKeys.overlaps_iff (h : LoopKeys new (k :: ks)) :
    k.Overlaps new ↔ k.start < new.offset :=
  ⟨fun ho => ho.2.1, fun hlt => ⟨h.inode k List.mem_cons_self, hlt, h.gt k List.mem_cons_self⟩⟩

/-- Behind an extent that ends behind the new one, nothing overlaps. -/
theorem LoopKeys.tail_apart (h : LoopKeys new (k :: ks)) (hle : new.offset ≤ k.offset) :
    ∀ k' ∈ ks, ¬k'.Overlaps new := by
  intro k' hk' ho
  have hstart := h.head_le k' hk'
  have hlt := ho.2.1
  omega

theorem overwrite_isSome_iff {onKey : Bool} {old : Extent} :
    (bch2TransUpdateExtentOverwrite onKey old new).isSome = true ↔
      (new.offset < old.offset → onKey = true) := by
  rw [bch2TransUpdateExtentOverwrite]
  by_cases hback : old.offset ≤ new.offset
  · rw [if_pos hback]
    exact ⟨fun _ hlt => absurd hlt (not_lt.mpr hback), fun _ => rfl⟩
  · rw [if_neg hback]
    cases onKey with
    | false => simp [not_le.mp hback]
    | true => simp

/-- The search position behind an extent is not the one of an extent to be cut at its front. -/
theorem LoopKeys.search_ne (h : LoopKeys new (k :: ks)) (hle : k.offset ≤ new.offset) :
    ∀ k' ∈ ks, k'.Overlaps new → new.offset < k'.offset → k.offset + 1 ≠ k'.offset := by
  intro k' hk' ho hlt heq
  have hstart := h.head_le k' hk'
  have hov := ho.2.1
  omega

/-- When the loop ends. -/
theorem loop_isSome_iff (h : LoopKeys new ks)
    (hsearch : ∀ k ∈ ks, k.Overlaps new → new.offset < k.offset → search ≠ k.offset) :
    (overwriteLoop c new search ks).isSome = true ↔
      ∀ k ∈ ks, k.Overlaps new → Passes c new k := by
  induction ks generalizing search with
  | nil => simp [overwriteLoop]
  | cons k ks ih =>
    rw [overwriteLoop, if_neg (not_le.mpr (h.gt k List.mem_cons_self)), List.forall_mem_cons]
    by_cases hbreak : new.offset ≤ k.start
    · -- the first extent behind the new one ends the loop
      rw [if_pos hbreak]
      have hlt := (h.valid k List.mem_cons_self).start_lt
      refine iff_of_true rfl ⟨fun ho => absurd ho.2.1 (not_lt.mpr hbreak), fun k' hk' ho => ?_⟩
      exact absurd ho (h.tail_apart (by omega) k' hk')
    rw [if_neg hbreak]
    have hov : k.Overlaps new := h.overlaps_iff.mpr (not_le.mp hbreak)
    have hkey : (new.offset < k.offset → (c.landed k.pos || search == k.offset) = true) ↔
        (new.offset < k.offset → c.landed k.pos = true) := by
      refine imp_congr_right fun hlt => ?_
      have hne := hsearch k List.mem_cons_self hov hlt
      simp [hne]
    cases hus : bch2TransUpdateExtentOverwrite (c.landed k.pos || search == k.offset) k new with
    | none =>
      refine iff_of_false (by simp) fun hall => ?_
      have hnone : ¬(bch2TransUpdateExtentOverwrite (c.landed k.pos || search == k.offset) k
          new).isSome = true := by
        rw [hus]
        decide
      rw [overwrite_isSome_iff, hkey] at hnone
      refine hnone fun hlt => ?_
      have hpass := hall.1 hov
      rwa [Passes, if_pos hlt] at hpass
    | some us =>
      have hsome := overwrite_isSome_iff.mp (Option.isSome_iff_exists.mpr ⟨us, hus⟩)
      rw [hkey] at hsome
      rw [Option.bind_some]
      by_cases hdone : new.offset < k.offset
      · rw [if_pos hdone]
        refine iff_of_true rfl ⟨fun _ => ?_, fun k' hk' ho => ?_⟩
        · rw [Passes, if_pos hdone]
          exact hsome hdone
        · exact absurd ho (h.tail_apart hdone.le k' hk')
      · rw [if_neg hdone]
        by_cases hlast : k.pos = (keyInodeMax, keyOffsetMax)
        · rw [if_pos hlast]
          refine iff_of_false (by decide) fun hall => ?_
          have hpass := hall.1 hov
          rw [Passes, if_neg hdone] at hpass
          exact hpass hlast
        · rw [if_neg hlast, Option.isSome_map, ih h.tail (h.search_ne (not_lt.mp hdone))]
          refine ⟨fun hall => ⟨fun _ => ?_, hall⟩, And.right⟩
          rw [Passes, if_neg hdone]
          exact hlast

variable {tree : List Extent} {us : List ExtentUpdate} {end_ : Option Extent}

/-- The tree behind the loop: overlapped extents are replaced by what is left of them. -/
theorem mem_commit_loop (h : LoopKeys new ks) (hu : PosUnique tree) (hks : ∀ k ∈ ks, k ∈ tree)
    (hfree : ∀ k ∈ ks, k.start < new.start → ∀ e ∈ tree, e.pos ≠ (new.inode, new.start))
    (hloop : overwriteLoop c new search ks = some (us, end_)) :
    (∀ x, x ∈ commitUpdates tree us ↔ (x ∈ tree ∧ (x ∈ ks → ¬x.Overlaps new)) ∨
      ∃ k ∈ ks, k.Overlaps new ∧ x ∈ residuals k new) ∧ ∀ k ∈ end_, k ∈ ks := by
  induction ks generalizing search tree us with
  | nil =>
    cases hloop
    refine ⟨fun x => ?_, by simp⟩
    simp [commitUpdates]
  | cons k ks ih =>
    have hgt := h.gt k List.mem_cons_self
    rw [overwriteLoop, if_neg (not_le.mpr hgt)] at hloop
    have hktree : k ∈ tree := hks k List.mem_cons_self
    by_cases hbreak : new.offset ≤ k.start
    · rw [if_pos hbreak] at hloop
      cases hloop
      have hnone : ∀ k' ∈ k :: ks, ¬k'.Overlaps new := by
        have hlt := (h.valid k List.mem_cons_self).start_lt
        rw [List.forall_mem_cons]
        exact ⟨fun ho => absurd ho.2.1 (not_lt.mpr hbreak), h.tail_apart (by omega)⟩
      refine ⟨fun x => ⟨fun hx => .inl ⟨hx, hnone x⟩, ?_⟩, by simp⟩
      rintro (⟨hx, -⟩ | ⟨k', hk', ho, -⟩)
      · exact hx
      · exact absurd ho (hnone k' hk')
    rw [if_neg hbreak] at hloop
    have hov : k.Overlaps new := h.overlaps_iff.mpr (not_le.mp hbreak)
    obtain ⟨us₁, hus₁, hloop⟩ := Option.bind_eq_some_iff.mp hloop
    have hfree₁ : k.start < new.start → ∀ e ∈ tree, e.pos ≠ (k.inode, new.start) := by
      rw [h.inode k List.mem_cons_self]
      exact hfree k List.mem_cons_self
    have hmem := fun x => mem_commit_overwrite (x := x) hu hktree hgt hfree₁ hus₁
    have hu₁ := posUnique_overwrite hu hktree hgt hfree₁ hus₁
    have hnotin : k ∉ ks := by
      intro hk
      have hle := h.head_le k hk
      have hlt := (h.valid k List.mem_cons_self).start_lt
      omega
    by_cases hdone : new.offset < k.offset
    · rw [if_pos hdone] at hloop
      cases hloop
      have hnone := h.tail_apart hdone.le
      refine ⟨fun x => ?_, by simp⟩
      rw [hmem]
      constructor
      · rintro (⟨hx, hxk⟩ | hx)
        · refine .inl ⟨hx, fun hin => ?_⟩
          exact hnone x ((List.mem_cons.mp hin).resolve_left hxk)
        · exact .inr ⟨k, List.mem_cons_self, hov, hx⟩
      · rintro (⟨hx, hno⟩ | ⟨k', hk', ho, hx⟩)
        · exact .inl ⟨hx, fun heq => hno (heq ▸ List.mem_cons_self) (heq ▸ hov)⟩
        · rcases List.mem_cons.mp hk' with rfl | hk'
          · exact .inr hx
          · exact absurd ho (hnone k' hk')
    · rw [if_neg hdone] at hloop
      by_cases hlast : k.pos = (keyInodeMax, keyOffsetMax)
      · rw [if_pos hlast] at hloop
        cases hloop
      rw [if_neg hlast] at hloop
      obtain ⟨⟨us₂, e₂⟩, hus₂, heq⟩ := Option.map_eq_some_iff.mp hloop
      cases heq
      -- the other extents lie behind this one, so they are still there and not cut at their end
      have hks₁ : ∀ k' ∈ ks, k' ∈ commitUpdates tree us₁ := fun k' hk' =>
        (hmem k').mpr (.inl ⟨hks k' (List.mem_cons_of_mem _ hk'), fun heq => hnotin (heq ▸ hk')⟩)
      have hfree₂ : ∀ k' ∈ ks, k'.start < new.start →
          ∀ e ∈ commitUpdates tree us₁, e.pos ≠ (new.inode, new.start) := by
        intro k' hk' hlt
        have hle := h.head_le k' hk'
        omega
      obtain ⟨ihmem, ihend⟩ := ih h.tail hu₁ hks₁ hfree₂ hus₂
      refine ⟨fun x => ?_, fun k' hk' => List.mem_cons_of_mem _ (ihend k' hk')⟩
      rw [commitUpdates_append, ihmem, hmem]
      have hres : x ∈ residuals k new → x ∉ ks := by
        intro hx hin
        rcases mem_residuals.mp hx with ⟨-, rfl⟩ | ⟨hlt, -⟩
        · have hgt' := h.tail.gt _ hin
          rw [bch2CutBack_of_lt hgt] at hgt'
          exact lt_irrefl _ hgt'
        · exact absurd hlt hdone
      constructor
      · rintro (⟨⟨hx, hxk⟩ | hx, hno⟩ | ⟨k', hk', ho, hx⟩)
        · exact .inl ⟨hx, fun hin => hno ((List.mem_cons.mp hin).resolve_left hxk)⟩
        · exact .inr ⟨k, List.mem_cons_self, hov, hx⟩
        · exact .inr ⟨k', List.mem_cons_of_mem _ hk', ho, hx⟩
      · rintro (⟨hx, hno⟩ | ⟨k', hk', ho, hx⟩)
        · refine .inl ⟨.inl ⟨hx, fun heq => ?_⟩, fun hin => hno (List.mem_cons_of_mem _ hin)⟩
          exact hno (heq ▸ List.mem_cons_self) (heq ▸ hov)
        · rcases List.mem_cons.mp hk' with rfl | hk'
          · exact .inl ⟨.inr hx, fun hin => absurd hin (hres hx)⟩
          · exact .inr ⟨k', hk', ho, hx⟩

end Loop

/-! ### The new extent -/

section Finish

variable {c : ExtentCtx} {tree tree₁ tree' : List Extent} {new k m : Extent}

/-- An extent put into a tree in which it overlaps at most the one it replaces. -/
theorem overwritten_put (hapart : ∀ e ∈ tree, ∀ e' ∈ tree, e ≠ e' → ¬e.Overlaps e')
    (hclear : ∀ e ∈ tree, e.pos ≠ new.pos → ¬e.Overlaps new)
    (hsame : ∀ e ∈ tree, e.pos = new.pos → new.start ≤ e.start) :
    Overwritten tree new (commitUpdate tree (.put new)) := by
  refine ⟨fun e he e' he' hne => ?_, fun i x s hx => ?_, fun i x s hx => ?_⟩
  · rcases mem_commitUpdate_put.mp he with heq | ⟨hmem, hpos⟩
    · rcases mem_commitUpdate_put.mp he' with heq' | ⟨hmem', hpos'⟩
      · exact absurd (heq.trans heq'.symm) hne
      · exact fun ho => hclear e' hmem' hpos' (heq ▸ ho.symm)
    · rcases mem_commitUpdate_put.mp he' with heq' | ⟨hmem', hpos'⟩
      · exact heq' ▸ hclear e hmem hpos
      · exact hapart e hmem e' hmem' hne
  · constructor
    · rintro ⟨e, he, hcov, rfl⟩
      rcases mem_commitUpdate_put.mp he with rfl | ⟨he, hpos⟩
      · rfl
      · exact absurd (hcov.overlaps hx) (hclear e he hpos)
    · rintro rfl
      exact ⟨new, mem_commitUpdate_put.mpr (.inl rfl), hx, rfl⟩
  · constructor
    · rintro ⟨e, he, hcov, rfl⟩
      rcases mem_commitUpdate_put.mp he with rfl | ⟨he, -⟩
      · exact absurd hcov hx
      · exact ⟨e, he, hcov, rfl⟩
    · rintro ⟨e, he, hcov, rfl⟩
      refine ⟨e, mem_commitUpdate_put.mpr (.inr ⟨he, fun hpos => hx ?_⟩), hcov, rfl⟩
      obtain ⟨hi, ho⟩ := Prod.mk.inj hpos
      exact ⟨hi ▸ hcov.1, (hsame e he hpos).trans hcov.2.1, ho ▸ hcov.2.2⟩

/-- `m` is the extent `l` grown over `r`. -/
structure Merged (l r m : Extent) : Prop where
  inode_left : m.inode = l.inode
  inode_right : m.inode = r.inode
  touch : l.offset = r.start
  start : m.start = l.start
  offset : m.offset = r.offset
  sector_left : ∀ x, m.sector x = l.sector x
  sector_right : ∀ x, m.sector x = r.sector x

theorem bch2BkeyMerge_merged {l r : Extent} (hl : l.Valid) (hr : r.Valid)
    (h : bch2BkeyMerge l r = some m) : Merged l r m := by
  rw [bch2BkeyMerge] at h
  split_ifs at h with hok
  cases h
  simp only [bch2BkeyMaybeMergable, Bool.and_eq_true, beq_iff_eq, decide_eq_true_eq] at hok
  obtain ⟨⟨⟨⟨-, hversion⟩, hpos⟩, -⟩, hvals⟩ := hok
  obtain ⟨hi, ho⟩ := Prod.mk.inj hpos
  obtain ⟨hhi, hlo⟩ := Prod.mk.inj hversion
  have hlsize := hl.size_le
  have hrsize := hr.size_le
  have hstart : (bch2KeyResize l (l.size + r.size)).start = l.start := by
    show l.offset - l.size + (l.size + r.size) - (l.size + r.size) = l.offset - l.size
    omega
  -- a merged value is the same for every sector
  have hval : ∀ d d', cutVal d l.val = cutVal d' r.val ∧ l.val.uncut d = 0 ∧
      r.val.uncut d' = 0 := by
    intro d d'
    cases hlv : l.val with
    | reservation g n =>
      cases hrv : r.val with
      | reservation g' n' =>
        rw [hlv, hrv] at hvals
        simp only [valsMerge, Bool.and_eq_true, beq_iff_eq] at hvals
        rw [hvals.1, hvals.2]
        exact ⟨rfl, rfl, rfl⟩
      | extent _ => simp [hlv, hrv, valsMerge] at hvals
      | reflinkV _ => simp [hlv, hrv, valsMerge] at hvals
      | set => simp [hlv, hrv, valsMerge] at hvals
      | other _ _ => simp [hlv, hrv, valsMerge] at hvals
    | set =>
      cases hrv : r.val with
      | set => exact ⟨rfl, rfl, rfl⟩
      | extent _ => simp [hlv, hrv, valsMerge] at hvals
      | reflinkV _ => simp [hlv, hrv, valsMerge] at hvals
      | reservation _ _ => simp [hlv, hrv, valsMerge] at hvals
      | other _ _ => simp [hlv, hrv, valsMerge] at hvals
    | extent _ => simp [hlv, valsMerge] at hvals
    | reflinkV _ => simp [hlv, valsMerge] at hvals
    | other _ _ => simp [hlv, valsMerge] at hvals
  refine ⟨rfl, hi, ho, hstart, ?_, fun x => ?_, fun x => ?_⟩
  · show l.offset - l.size + (l.size + r.size) = r.offset
    rw [Extent.start] at ho
    omega
  · rw [Extent.sector, hstart]
    rfl
  · rw [Extent.sector, hstart, Extent.sector]
    obtain ⟨hcut, hun, hun'⟩ := hval (x - l.start) (x - r.start)
    show (cutVal (x - l.start) l.val, l.val.uncut (x - l.start), l.versionHi, l.versionLo) = _
    rw [hcut, hun, hun', hhi, hlo]

theorem Merged.covers_iff {l r : Extent} (h : Merged l r m) (hl : l.Valid) (hr : r.Valid)
    {i x : ℕ} : m.Covers i x ↔ l.Covers i x ∨ r.Covers i x := by
  have hlt := hl.start_lt
  have hlt' := hr.start_lt
  have hi := h.inode_left
  have hi' := h.inode_right
  have ht := h.touch
  have hs := h.start
  have ho := h.offset
  constructor
  · rintro ⟨rfl, hge, hlt⟩
    by_cases hx : x < l.offset
    · exact .inl ⟨hi.symm, by omega, hx⟩
    · exact .inr ⟨hi'.symm, by omega, by omega⟩
  · rintro (⟨rfl, hge, hlt⟩ | ⟨rfl, hge, hlt⟩)
    · exact ⟨hi, by omega, by omega⟩
    · exact ⟨hi', by omega, by omega⟩

/-- A new extent that grew over an extent of the tree on its way. -/
theorem Overwritten.of_grown (h : Overwritten tree₁ m tree')
    (hcov : ∀ i x, m.Covers i x ↔ new.Covers i x ∨ k.Covers i x)
    (hnew : ∀ x, m.sector x = new.sector x) (hk : ∀ x, m.sector x = k.sector x)
    (hktree : ∀ i x s, k.Covers i x → (Maps tree i x s ↔ s = k.sector x))
    (hrest : ∀ i x s, ¬m.Covers i x → (Maps tree₁ i x s ↔ Maps tree i x s)) :
    Overwritten tree new tree' := by
  refine ⟨h.apart, fun i x s hx => ?_, fun i x s hx => ?_⟩
  · rw [h.inside i x s ((hcov i x).mpr (.inl hx)), hnew]
  · by_cases hkx : k.Covers i x
    · rw [h.inside i x s ((hcov i x).mpr (.inr hkx)), hk, hktree i x s hkx]
    · have hmx : ¬m.Covers i x := fun hm => ((hcov i x).mp hm).elim hx hkx
      rw [h.outside i x s hmx, hrest i x s hmx]

/-- A tree in which the new extent overlaps at most one it replaces as a whole, with the sectors of
`tree` beside it. -/
structure Cleared (tree : List Extent) (new : Extent) (cleared : List Extent) : Prop where
  nonempty : ∀ e ∈ cleared, e.start < e.offset
  apart : ∀ e ∈ cleared, ∀ e' ∈ cleared, e ≠ e' → ¬e.Overlaps e'
  clear : ∀ e ∈ cleared, e.Overlaps new → e.pos = new.pos ∧ new.start ≤ e.start
  outside : ∀ i x s, ¬new.Covers i x → (Maps cleared i x s ↔ Maps tree i x s)

theorem Cleared.overwritten (h : Cleared tree new tree₁) (hn : new.Valid) :
    Overwritten tree new (commitUpdate tree₁ (.put new)) := by
  have hput : Overwritten tree₁ new (commitUpdate tree₁ (.put new)) := by
    refine overwritten_put h.apart (fun e he hpos ho => hpos (h.clear e he ho).1)
      fun e he hpos => (h.clear e he ?_).2
    obtain ⟨hi, ho⟩ := Prod.mk.inj hpos
    have hlt := h.nonempty e he
    have hlt' := hn.start_lt
    exact ⟨hi, by omega, by omega⟩
  exact ⟨hput.apart, hput.inside, fun i x s hx =>
    (hput.outside i x s hx).trans (h.outside i x s hx)⟩

/-- Two extents of a cleared tree share no sector. -/
theorem Cleared.maps_iff (h : Cleared tree new tree₁) (hk : k ∈ tree₁) {i x : ℕ}
    {s : ExtentVal × ℕ × ℕ × ℕ} (hx : k.Covers i x) : Maps tree₁ i x s ↔ s = k.sector x := by
  constructor
  · rintro ⟨e, he, hcov, rfl⟩
    by_cases heq : e = k
    · rw [heq]
    · exact absurd (hcov.overlaps hx) (h.apart e he k hk heq)
  · rintro rfl
    exact ⟨k, hk, hx, rfl⟩

theorem Cleared.overwritten_merged (h : Cleared tree new tree₁) (hn : new.Valid) (hkv : k.Valid)
    (hk : k ∈ tree₁) (hm : Merged new k m) (hclear : ∀ e ∈ tree₁, ¬e.Overlaps new) :
    Overwritten tree new (commitUpdate tree₁ (.put m)) := by
  have hmpos : m.pos = k.pos := Prod.ext hm.inode_right hm.offset
  have hput : Overwritten tree₁ m (commitUpdate tree₁ (.put m)) := by
    refine overwritten_put h.apart (fun e he hpos ho => ?_) fun e he hpos => ?_
    · -- an overlap with the grown extent is one with either part
      have hne : e ≠ k := fun heq => hpos (by rw [heq, hmpos])
      have ht := hm.touch
      have hs := hm.start
      have hend := hm.offset
      have hlt := hkv.start_lt
      have hlt' := hn.start_lt
      obtain ⟨hi, h₁, h₂⟩ := ho
      by_cases hx : e.start < new.offset
      · exact hclear e he ⟨hi.trans hm.inode_left, hx, by omega⟩
      · exact h.apart e he k hk hne ⟨hi.trans hm.inode_right, by omega, by
          have := h.nonempty e he
          omega⟩
    · have heq : e = k := by
        by_contra hne
        refine h.apart e he k hk hne ?_
        obtain ⟨hi, ho⟩ := Prod.mk.inj (hpos.trans hmpos)
        have hlt := h.nonempty e he
        have hlt' := hkv.start_lt
        exact ⟨hi, by omega, by omega⟩
      have ht := hm.touch
      have hs := hm.start
      have hlt' := hn.start_lt
      rw [heq]
      omega
  refine hput.of_grown (fun i x => hm.covers_iff hn hkv) hm.sector_left hm.sector_right
    (fun i x s hx => ?_) fun i x s hx => ?_
  · have hnx : ¬new.Covers i x := by
      rintro ⟨-, -, hlt⟩
      have ht := hm.touch
      have hge := hx.2.1
      omega
    rw [← h.outside i x s hnx]
    exact h.maps_iff hk hx
  · exact h.outside i x s fun hnx => hx ((hm.covers_iff hn hkv).mpr (.inl hnx))

/-- The end of the update in a cleared tree. -/
theorem Cleared.finish (c : ExtentCtx) (h : Cleared tree new tree₁) (hn : new.Valid)
    (end_ : Option Extent)
    (hend : ∀ k ∈ end_, k.Valid ∧ (k.inode = new.inode → k.start = new.offset →
      k ∈ tree₁ ∧ ∀ e ∈ tree₁, ¬e.Overlaps new)) :
    Overwritten tree new
      (commitUpdate tree₁ (.put ((end_.map (extentBackMerge c new)).getD new))) := by
  cases end_ with
  | none => exact h.overwritten hn
  | some k =>
    show Overwritten tree new (commitUpdate tree₁ (.put (extentBackMerge c new k)))
    obtain ⟨hkv, hk⟩ := hend k rfl
    rw [extentBackMerge]
    by_cases hreplay : c.journalReplayNotFinished = true
    · rw [if_pos hreplay]
      exact h.overwritten hn
    rw [if_neg hreplay]
    cases hmerge : bch2BkeyMerge new k with
    | none => exact h.overwritten hn
    | some m =>
      have hm := bch2BkeyMerge_merged hn hkv hmerge
      obtain ⟨hk, hclear⟩ := hk (hm.inode_right.symm.trans hm.inode_left) hm.touch.symm
      exact h.overwritten_merged hn hkv hk hm hclear

end Finish

end Subvol

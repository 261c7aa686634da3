import Subvol.Extent.Overwrite

/-!
# When an inserted extent takes its place

`update_extent_iff` says for which trees and extents `bch2_trans_update_extent` does what it is
for. Two shortcuts of it miss extents, the part of an extent behind the new one is staged through a
path that is not at it, and the values of some types are not moved along with a cut.

## Main definitions

* `OverwriteReaches`: the extents that are reached.

## Main results

* `update_extent_iff`: when the new extent takes its place.
-/

namespace Subvol

/-! ### The extents that are reached -/

/-- The extents of the tree that the update gets right. When an extent ends where the new one
starts, no other is looked at, and an overlapped one has to end where the new one ends. Otherwise
an extent at the last offset is not seen outside snapshot zero, one that reaches behind the new
extent is cut when the search of the iterator ended at it, and the iterator does not move on from
the last position of the tree. -/
def OverwriteReaches (c : ExtentCtx) (tree : List Extent) (new : Extent) : Prop :=
  if ∃ e ∈ tree, e.pos = (new.inode, new.start) then
    ∀ e ∈ tree, e.Overlaps new → e.offset = new.offset
  else
    ∀ e ∈ tree, e.Overlaps new →
      if e.offset = keyOffsetMax ∧ c.snapshot ≠ 0 then
        new.offset = keyOffsetMax ∧ new.start ≤ e.start
      else if new.offset < e.offset then c.landed e.pos = true ∧ e.val.IsCut
      else e.pos ≠ (keyInodeMax, keyOffsetMax)

instance (v : ExtentVal) : Decidable v.IsCut :=
  match v with
  | .other _ _ => isFalse id
  | .extent _ | .reflinkV _ | .reservation _ _ | .set => isTrue trivial

instance (c : ExtentCtx) (tree : List Extent) (new : Extent) :
    Decidable (OverwriteReaches c tree new) :=
  inferInstanceAs (Decidable (ite _ _ _))

section Main

variable {c : ExtentCtx} {tree : List Extent} {new : Extent}

theorem mem_keysFrom {e : Extent} : e ∈ keysFrom c tree new ↔ e ∈ tree ∧ e.inode = new.inode ∧
    new.start ≤ e.offset ∧ (e.offset = keyOffsetMax → c.snapshot = 0) := by
  rw [keysFrom, List.mem_filter, decide_eq_true_eq]

theorem keysFrom_ordered (c : ExtentCtx) (new : Extent) (h : ExtentTree tree) :
    (keysFrom c tree new).Pairwise fun k k' => k.offset ≤ k'.start := by
  have hb : (keysFrom c tree new).Pairwise Extent.Before := h.ordered.filter _
  refine hb.imp_of_mem fun hk hk' hbefore => ?_
  obtain ⟨-, hi, -⟩ := mem_keysFrom.mp hk
  obtain ⟨-, hi', -⟩ := mem_keysFrom.mp hk'
  rcases hbefore with hlt | ⟨-, hle⟩
  · omega
  · exact hle

theorem keysFrom_loopKeys (h : ExtentTree tree)
    (hno : ∀ e ∈ tree, e.pos ≠ (new.inode, new.start)) : LoopKeys new (keysFrom c tree new) where
  inode k hk := (mem_keysFrom.mp hk).2.1
  gt k hk := by
    obtain ⟨hk, hi, hge, -⟩ := mem_keysFrom.mp hk
    refine lt_of_le_of_ne hge fun heq => hno k hk ?_
    rw [Extent.pos, hi, heq]
  valid k hk := h.valid k (mem_keysFrom.mp hk).1
  ordered := keysFrom_ordered c new h

/-- Without an extent that ends where the new one starts, the update is the loop. -/
theorem update_eq_loop (hno : ∀ e ∈ tree, e.pos ≠ (new.inode, new.start)) :
    bch2TransUpdateExtent c tree new =
      (overwriteLoop c new new.start (keysFrom c tree new)).map fun r =>
        finishUpdate c r.1 new r.2 := by
  rw [bch2TransUpdateExtent]
  cases hkeys : keysFrom c tree new with
  | nil => rfl
  | cons k ks =>
    obtain ⟨hk, hi, -⟩ := mem_keysFrom.mp (hkeys ▸ List.mem_cons_self : k ∈ keysFrom c tree new)
    dsimp only
    rw [if_neg fun heq => hno k hk (by rw [Extent.pos, hi, heq])]

theorem loop_search_ne (hn : new.Valid) {ks : List Extent} :
    ∀ k ∈ ks, k.Overlaps new → new.offset < k.offset → new.start ≠ k.offset := by
  intro k _ _ hlt heq
  have hstart := hn.start_lt
  omega

section Residuals

variable {k e : Extent} {i x : ℕ}

theorem residual_spec (hk : k.Valid) (hn : new.Valid) (ho : k.Overlaps new)
    (he : e ∈ residuals k new) : e.inode = k.inode ∧ e.start < e.offset ∧ k.start ≤ e.start ∧
      e.offset ≤ k.offset ∧ (e.offset ≤ new.start ∨ new.offset ≤ e.start) := by
  obtain ⟨-, h₁, h₂⟩ := ho
  have hlt := hk.start_lt
  have hlt' := hn.start_lt
  rcases mem_residuals.mp he with ⟨hfront, rfl⟩ | ⟨hback, rfl⟩
  · rw [start_bch2CutBack h₂ hfront.le, bch2CutBack_of_lt h₂]
    exact ⟨rfl, hfront, le_rfl, h₂.le, .inl le_rfl⟩
  · rw [start_bch2CutFront hk h₁ hback, bch2CutFront_of_lt h₁]
    exact ⟨rfl, hback, h₁.le, le_rfl, .inr le_rfl⟩

/-- The sectors beside the new extent stay where they are. -/
theorem residual_maps (hk : k.Valid) (hcut : new.offset < k.offset → k.val.IsCut)
    (ho : k.Overlaps new) (hnew : ¬new.Covers i x) (s : ExtentVal × ℕ × ℕ × ℕ) :
    (∃ e ∈ residuals k new, e.Covers i x ∧ e.sector x = s) ↔ k.Covers i x ∧ k.sector x = s := by
  obtain ⟨hi, h₁, h₂⟩ := ho
  constructor
  · rintro ⟨e, he, hcov, rfl⟩
    rcases mem_residuals.mp he with ⟨hfront, rfl⟩ | ⟨hback, rfl⟩
    · rw [Extent.Covers, start_bch2CutBack h₂ hfront.le, bch2CutBack_of_lt h₂] at hcov
      rw [sector_bch2CutBack h₂ hfront.le]
      exact ⟨⟨hcov.1, hcov.2.1, hcov.2.2.trans h₂⟩, rfl⟩
    · rw [Extent.Covers, start_bch2CutFront hk h₁ hback, bch2CutFront_of_lt h₁] at hcov
      rw [sector_bch2CutFront hk h₁ hback (hcut hback) hcov.2.1]
      exact ⟨⟨hcov.1, h₁.le.trans hcov.2.1, hcov.2.2⟩, rfl⟩
  · rintro ⟨⟨hki, hge, hlt⟩, rfl⟩
    by_cases hx : x < new.start
    · have hfront : k.start < new.start := hge.trans_lt hx
      refine ⟨_, mem_residuals.mpr (.inl ⟨hfront, rfl⟩), ?_, sector_bch2CutBack h₂ hfront.le x⟩
      rw [Extent.Covers, start_bch2CutBack h₂ hfront.le, bch2CutBack_of_lt h₂]
      exact ⟨hki, hge, hx⟩
    · have hx' : new.offset ≤ x := by
        by_contra hnot
        exact hnew ⟨hi ▸ hki, not_lt.mp hx, not_le.mp hnot⟩
      have hback : new.offset < k.offset := hx'.trans_lt hlt
      refine ⟨_, mem_residuals.mpr (.inr ⟨hback, rfl⟩), ?_,
        sector_bch2CutFront hk h₁ hback (hcut hback) hx'⟩
      rw [Extent.Covers, start_bch2CutFront hk h₁ hback, bch2CutFront_of_lt h₁]
      exact ⟨hki, hx', hlt⟩

end Residuals

/-- The tree behind the loop, by what it holds. -/
def LoopTree (c : ExtentCtx) (tree : List Extent) (new : Extent) (tree₁ : List Extent) : Prop :=
  ∀ x, x ∈ tree₁ ↔ (x ∈ tree ∧ (x ∈ keysFrom c tree new → ¬x.Overlaps new)) ∨
    ∃ k ∈ keysFrom c tree new, k.Overlaps new ∧ x ∈ residuals k new

/-- Every extent behind the loop lies in one of the tree. -/
theorem LoopTree.origin (h : ExtentTree tree) (hn : new.Valid) {tree₁ : List Extent}
    (hl : LoopTree c tree new tree₁) {e : Extent} (he : e ∈ tree₁) :
    ∃ k ∈ tree, e.inode = k.inode ∧ e.start < e.offset ∧ k.start ≤ e.start ∧
      e.offset ≤ k.offset ∧ (e = k ∨ k ∈ keysFrom c tree new ∧ k.Overlaps new ∧
        e ∈ residuals k new) := by
  rcases (hl e).mp he with ⟨he, -⟩ | ⟨k, hk, ho, he⟩
  · exact ⟨e, he, rfl, (h.valid e he).start_lt, le_rfl, le_rfl, .inl rfl⟩
  · have hkt := (mem_keysFrom.mp hk).1
    obtain ⟨hi, hlt, hge, hle, -⟩ := residual_spec (h.valid k hkt) hn ho he
    exact ⟨k, hkt, hi, hlt, hge, hle, .inr ⟨hk, ho, he⟩⟩

/-- Behind the loop only an extent that it did not see overlaps the new one. -/
theorem LoopTree.unseen (h : ExtentTree tree) (hn : new.Valid) {tree₁ : List Extent}
    (hl : LoopTree c tree new tree₁) {e : Extent} (he : e ∈ tree₁) (ho : e.Overlaps new) :
    e ∈ tree ∧ e ∉ keysFrom c tree new ∧ e.offset = keyOffsetMax := by
  rcases (hl e).mp he with ⟨het, hno⟩ | ⟨k, hk, hov, hres⟩
  · have hkey : e ∉ keysFrom c tree new := fun hkey => hno hkey ho
    have hnot : ¬(e.offset = keyOffsetMax → c.snapshot = 0) := fun hvis =>
      hkey (mem_keysFrom.mpr ⟨het, ho.1, ho.2.2.le, hvis⟩)
    rw [Classical.not_imp] at hnot
    exact ⟨het, hkey, hnot.1⟩
  · have hkt := (mem_keysFrom.mp hk).1
    obtain ⟨-, -, -, -, hbeside⟩ := residual_spec (h.valid k hkt) hn hov hres
    obtain ⟨-, h₁, h₂⟩ := ho
    omega

theorem LoopTree.cleared (h : ExtentTree tree) (hn : new.Valid) {tree₁ : List Extent}
    (hl : LoopTree c tree new tree₁)
    (hseen : ∀ e ∈ tree, e.Overlaps new → e ∉ keysFrom c tree new →
      new.offset = keyOffsetMax ∧ new.start ≤ e.start)
    (hcut : ∀ k ∈ keysFrom c tree new, k.Overlaps new → new.offset < k.offset → k.val.IsCut) :
    Cleared tree new tree₁ := by
  refine ⟨fun e he => ?_, fun e he e' he' hne ho => ?_, fun e he ho => ?_, fun i x s hx => ?_⟩
  · obtain ⟨k, -, -, hlt, -⟩ := hl.origin h hn he
    exact hlt
  · -- two pieces lie in different extents of the tree, or are the two pieces of one
    obtain ⟨k, hk, hi, -, hge, hle, horig⟩ := hl.origin h hn he
    obtain ⟨k', hk', hi', -, hge', hle', horig'⟩ := hl.origin h hn he'
    obtain ⟨hei, h₁, h₂⟩ := ho
    have hkk : k = k' := by
      by_contra hkne
      exact h.apart hk hk' hkne ⟨by omega, by omega, by omega⟩
    subst hkk
    rcases horig with rfl | ⟨hkey, hov, hres⟩
    · rcases horig' with rfl | ⟨hkey', hov', -⟩
      · exact hne rfl
      · rcases (hl e).mp he with ⟨-, hno⟩ | ⟨k₂, hk₂, ho₂, hres₂⟩
        · exact hno hkey' hov'
        · have hk₂t := (mem_keysFrom.mp hk₂).1
          obtain ⟨hi₂, hlt₂, hge₂, hle₂, hbeside⟩ := residual_spec (h.valid k₂ hk₂t) hn ho₂ hres₂
          obtain ⟨-, h₃, h₄⟩ := hov'
          omega
    · rcases horig' with rfl | ⟨-, -, hres'⟩
      · rcases (hl e').mp he' with ⟨-, hno⟩ | ⟨k₂, hk₂, ho₂, hres₂⟩
        · exact hno hkey hov
        · have hk₂t := (mem_keysFrom.mp hk₂).1
          obtain ⟨hi₂, hlt₂, hge₂, hle₂, hbeside⟩ := residual_spec (h.valid k₂ hk₂t) hn ho₂ hres₂
          obtain ⟨-, h₃, h₄⟩ := hov
          omega
      · have hkv := h.valid k hk
        obtain ⟨-, h₃, h₄⟩ := hov
        have hnlt := hn.start_lt
        rcases mem_residuals.mp hres with ⟨hf, rfl⟩ | ⟨hb, rfl⟩
        · rcases mem_residuals.mp hres' with ⟨-, rfl⟩ | ⟨hb', rfl⟩
          · exact hne rfl
          · rw [start_bch2CutFront hkv h₃ hb', bch2CutBack_of_lt h₄] at h₂
            dsimp only at h₂
            omega
        · rcases mem_residuals.mp hres' with ⟨hf', rfl⟩ | ⟨-, rfl⟩
          · rw [start_bch2CutFront hkv h₃ hb, bch2CutBack_of_lt h₄] at h₁
            dsimp only at h₁
            omega
          · exact hne rfl
  · obtain ⟨het, hkey, hoff⟩ := hl.unseen h hn he ho
    obtain ⟨hmax, hge⟩ := hseen e het ho hkey
    exact ⟨Prod.ext ho.1 (hoff.trans hmax.symm), hge⟩
  · constructor
    · rintro ⟨e, he, hcov, rfl⟩
      rcases (hl e).mp he with ⟨het, -⟩ | ⟨k, hk, hov, hres⟩
      · exact ⟨e, het, hcov, rfl⟩
      · have hkt := (mem_keysFrom.mp hk).1
        obtain ⟨hkc, hks⟩ := (residual_maps (h.valid k hkt) (hcut k hk hov) hov hx (e.sector x)).mp
          ⟨e, hres, hcov, rfl⟩
        exact ⟨k, hkt, hkc, hks⟩
    · rintro ⟨e, he, hcov, rfl⟩
      by_cases hin : e ∈ keysFrom c tree new ∧ e.Overlaps new
      · obtain ⟨e', he', hcov', hs'⟩ := (residual_maps (h.valid e he) (hcut e hin.1 hin.2) hin.2 hx
          (e.sector x)).mpr ⟨hcov, rfl⟩
        exact ⟨e', (hl e').mpr (.inr ⟨e, hin.1, hin.2, he'⟩), hcov', hs'⟩
      · exact ⟨e, (hl e).mpr (.inl ⟨he, fun hkey ho => hin ⟨hkey, ho⟩⟩), hcov, rfl⟩

/-! ### The new extent at the end of the update -/

/-- The extent that is put at the end is the new one, or has grown over the key behind it. -/
theorem backMerge_cases (c : ExtentCtx) (hn : new.Valid) (end_ : Option Extent)
    (hend : ∀ k ∈ end_, k.Valid) :
    (end_.map (extentBackMerge c new)).getD new = new ∨
      ∃ k ∈ end_, Merged new k ((end_.map (extentBackMerge c new)).getD new) := by
  cases end_ with
  | none => exact .inl rfl
  | some k =>
    show extentBackMerge c new k = new ∨ ∃ k' ∈ some k, Merged new k' (extentBackMerge c new k)
    rw [extentBackMerge]
    split_ifs with hreplay
    · exact .inl rfl
    cases hmerge : bch2BkeyMerge new k with
    | none => exact .inl rfl
    | some m => exact .inr ⟨k, rfl, bch2BkeyMerge_merged hn (hend k rfl) hmerge⟩

theorem ExtentTree.maps_iff (h : ExtentTree tree) {k : Extent} (hk : k ∈ tree) {i x : ℕ}
    {s : ExtentVal × ℕ × ℕ × ℕ} (hx : k.Covers i x) : Maps tree i x s ↔ s = k.sector x := by
  constructor
  · rintro ⟨e, he, hcov, rfl⟩
    rw [h.eq_of_covers he hk hcov hx]
  · rintro rfl
    exact ⟨k, hk, hx, rfl⟩

/-! ### Without an extent that ends at the start -/

section NoTouch

variable (hT : ExtentTree tree) (hn : new.Valid)
  (hno : ∀ e ∈ tree, e.pos ≠ (new.inode, new.start))

include hT hno

theorem loop_tree {us : List ExtentUpdate} {end_ : Option Extent}
    (hloop : overwriteLoop c new new.start (keysFrom c tree new) = some (us, end_)) :
    LoopTree c tree new (commitUpdates tree us) ∧ ∀ k ∈ end_, k ∈ keysFrom c tree new :=
  mem_commit_loop (keysFrom_loopKeys hT hno) (fun _ he _ he' => hT.eq_of_pos he he')
    (fun _ hk => (mem_keysFrom.mp hk).1) (fun _ _ _ => hno) hloop

include hn

theorem overwritten_of_loop
    (hreach : ∀ e ∈ tree, e.Overlaps new →
      if e.offset = keyOffsetMax ∧ c.snapshot ≠ 0 then
        new.offset = keyOffsetMax ∧ new.start ≤ e.start
      else if new.offset < e.offset then c.landed e.pos = true ∧ e.val.IsCut
      else e.pos ≠ (keyInodeMax, keyOffsetMax)) :
    ∃ us, bch2TransUpdateExtent c tree new = some us ∧
      Overwritten tree new (commitUpdates tree us) := by
  have hvisible : ∀ k ∈ keysFrom c tree new, k.Overlaps new →
      if new.offset < k.offset then c.landed k.pos = true ∧ k.val.IsCut
      else k.pos ≠ (keyInodeMax, keyOffsetMax) := by
    intro k hk ho
    obtain ⟨hkt, -, -, hvis⟩ := mem_keysFrom.mp hk
    have hk := hreach k hkt ho
    rwa [if_neg fun hmax => hmax.2 (hvis hmax.1)] at hk
  have hpass : ∀ k ∈ keysFrom c tree new, k.Overlaps new → Passes c new k := by
    intro k hk ho
    have hk := hvisible k hk ho
    rw [Passes]
    split_ifs at hk ⊢
    · exact hk.1
    · exact hk
  obtain ⟨⟨us, end_⟩, hloop⟩ := Option.isSome_iff_exists.mp
    ((loop_isSome_iff (keysFrom_loopKeys hT hno) (loop_search_ne hn)).mpr hpass)
  obtain ⟨hl, hend⟩ := loop_tree hT hno hloop
  have hseen : ∀ e ∈ tree, e.Overlaps new → e ∉ keysFrom c tree new →
      new.offset = keyOffsetMax ∧ new.start ≤ e.start := by
    intro e he ho hkey
    have hmax : e.offset = keyOffsetMax ∧ c.snapshot ≠ 0 := by
      by_contra hnot
      refine hkey (mem_keysFrom.mpr ⟨he, ho.1, ho.2.2.le, fun hmax => ?_⟩)
      by_contra hs
      exact hnot ⟨hmax, hs⟩
    have he := hreach e he ho
    rwa [if_pos hmax] at he
  have hcleared := hl.cleared hT hn hseen fun k hk ho hlt => by
    have hk := hvisible k hk ho
    rw [if_pos hlt] at hk
    exact hk.2
  refine ⟨finishUpdate c us new end_, by rw [update_eq_loop hno, hloop]; rfl, ?_⟩
  rw [finishUpdate, commitUpdates_append, commitUpdates_singleton]
  refine hcleared.finish c hn _ fun k hk => ?_
  have hkt := (mem_keysFrom.mp (hend k hk)).1
  refine ⟨hT.valid k hkt, fun _ hstart => ⟨?_, fun e he ho => ?_⟩⟩
  · refine (hl k).mpr (.inl ⟨hkt, fun _ ho => ?_⟩)
    have hlt := ho.2.1
    omega
  · -- an extent that was not seen ends at the last offset, and nothing starts there
    obtain ⟨het, hkey, -⟩ := hl.unseen hT hn he ho
    have hmax := (hseen e het ho hkey).1
    have hlt := (hT.valid k hkt).start_lt
    have hle := (hT.valid k hkt).offset_le
    omega

/-- The update stages the new extent behind a loop that ended. -/
theorem loop_of_update {us : List ExtentUpdate} (hus : bch2TransUpdateExtent c tree new = some us) :
    ∃ tree₁ ins, LoopTree c tree new tree₁ ∧ commitUpdates tree us = commitUpdate tree₁ (.put ins) ∧
      (∀ k ∈ keysFrom c tree new, k.Overlaps new → Passes c new k) ∧
      (ins = new ∨ ∃ k ∈ keysFrom c tree new, Merged new k ins) := by
  rw [update_eq_loop hno] at hus
  obtain ⟨⟨us₁, end_⟩, hloop, rfl⟩ := Option.map_eq_some_iff.mp hus
  obtain ⟨hl, hend⟩ := loop_tree hT hno hloop
  have hpass := (loop_isSome_iff (keysFrom_loopKeys hT hno) (loop_search_ne hn)).mp
    (Option.isSome_iff_exists.mpr ⟨_, hloop⟩)
  refine ⟨_, _, hl, by rw [finishUpdate, commitUpdates_append, commitUpdates_singleton], hpass, ?_⟩
  refine (backMerge_cases c hn end_ fun k hk => hT.valid k (mem_keysFrom.mp (hend k hk)).1).imp_right ?_
  rintro ⟨k, hk, hm⟩
  exact ⟨k, hend k hk, hm⟩

/-- An extent that is not seen has to be the one that the new extent replaces. -/
theorem unseen_of_overwritten {tree₁ : List Extent} {ins e : Extent}
    (hl : LoopTree c tree new tree₁)
    (hins : ins = new ∨ ∃ k ∈ keysFrom c tree new, Merged new k ins)
    (hover : Overwritten tree new (commitUpdate tree₁ (.put ins))) (he : e ∈ tree)
    (ho : e.Overlaps new) (hunseen : e ∉ keysFrom c tree new) :
    e.offset = new.offset ∧ new.start ≤ e.start := by
  have he₁ : e ∈ tree₁ := (hl e).mpr (.inl ⟨he, fun hkey => absurd hkey hunseen⟩)
  obtain ⟨hoi, ho₁, ho₂⟩ := ho
  have hinsput : ins ∈ commitUpdate tree₁ (.put ins) := mem_commitUpdate_put.mpr (.inl rfl)
  have hspan : ins.inode = new.inode ∧ ins.start = new.start ∧ new.offset ≤ ins.offset := by
    rcases hins with rfl | ⟨k, hk, hm⟩
    · exact ⟨rfl, rfl, le_rfl⟩
    · have hlt := (hT.valid k (mem_keysFrom.mp hk).1).start_lt
      have ht := hm.touch
      have hoff := hm.offset
      exact ⟨hm.inode_left, hm.start, by omega⟩
  -- beside the new extent it would overlap it
  have hpos : e.pos = ins.pos := by
    by_contra hpos
    refine hover.apart e (mem_commitUpdate_put.mpr (.inr ⟨he₁, hpos⟩)) ins hinsput
      (fun heq => hpos (by rw [heq])) ⟨by omega, by omega, by omega⟩
  have hnew : ins = new := by
    rcases hins with heq | ⟨k, hk, hm⟩
    · exact heq
    · have hkt := (mem_keysFrom.mp hk).1
      have heq : e = k := hT.eq_of_pos he hkt (hpos.trans (Prod.ext hm.inode_right hm.offset))
      exact absurd (heq ▸ hk) hunseen
  subst hnew
  refine ⟨(Prod.mk.inj hpos).2, ?_⟩
  by_contra hlt
  -- otherwise the sectors in front of the new extent are lost
  have hcov := (hT.valid e he).covers_start
  have hout : ¬ins.Covers e.inode e.start := fun hcov' => hlt hcov'.2.1
  obtain ⟨e', he', hcov', -⟩ := (hover.outside _ _ _ hout).mpr ⟨e, he, hcov, rfl⟩
  rcases mem_commitUpdate_put.mp he' with rfl | ⟨he', hpos'⟩
  · exact hout hcov'
  · obtain ⟨k, hk, hki, -, hks, hko, horig⟩ := hl.origin hT hn he'
    have hkcov : k.Covers e.inode e.start :=
      ⟨hki.symm.trans hcov'.1, hks.trans hcov'.2.1, hcov'.2.2.trans_le hko⟩
    have hke : k = e := hT.eq_of_covers hk he hkcov hcov
    rcases horig with rfl | ⟨hkey, -⟩
    · exact hpos' (hke ▸ hpos)
    · exact hunseen (hke ▸ hkey)

/-- An extent cut at its front has to be one whose value moves along. -/
theorem isCut_of_overwritten {tree₁ : List Extent} {ins e : Extent}
    (hl : LoopTree c tree new tree₁)
    (hins : ins = new ∨ ∃ k ∈ keysFrom c tree new, Merged new k ins)
    (hover : Overwritten tree new (commitUpdate tree₁ (.put ins))) (hkey : e ∈ keysFrom c tree new)
    (ho : e.Overlaps new) (hlt : new.offset < e.offset) : e.val.IsCut := by
  have he := (mem_keysFrom.mp hkey).1
  have hev := hT.valid e he
  have hnlt := hn.start_lt
  have hres : bch2CutFront new.offset e ∈ tree₁ :=
    (hl _).mpr (.inr ⟨e, hkey, ho, mem_residuals.mpr (.inr ⟨hlt, rfl⟩)⟩)
  have hecov : e.Covers e.inode new.offset := ⟨rfl, ho.2.1.le, hlt⟩
  have hstart := start_bch2CutFront hev ho.2.1 hlt
  have hpiece : (bch2CutFront new.offset e).Covers e.inode new.offset := by
    obtain ⟨hi, hoff⟩ := Prod.mk.inj (pos_bch2CutFront new.offset : _ = e.pos)
    exact ⟨hi, hstart.le, hoff ▸ hlt⟩
  -- the new extent does not grow, as the cut extent starts before its end
  have hpos : (bch2CutFront new.offset e).pos ≠ ins.pos := by
    rw [pos_bch2CutFront]
    intro heq
    rcases hins with rfl | ⟨k, hk, hm⟩
    · exact absurd (Prod.mk.inj heq).2 hlt.ne'
    · have hke : e = k := hT.eq_of_pos he (mem_keysFrom.mp hk).1
        (heq.trans (Prod.ext hm.inode_right hm.offset))
      have ht := hm.touch
      have hos := ho.2.1
      rw [← hke] at ht
      omega
  have hmem : bch2CutFront new.offset e ∈ commitUpdate tree₁ (.put ins) :=
    mem_commitUpdate_put.mpr (.inr ⟨hres, hpos⟩)
  have hout : ¬new.Covers e.inode new.offset := fun hcov => lt_irrefl _ hcov.2.2
  obtain ⟨e', he', hcov', hsector⟩ := (hover.outside _ _ _ hout).mpr ⟨e, he, hecov, rfl⟩
  have heq : e' = bch2CutFront new.offset e := by
    by_contra hne
    exact hover.apart e' he' _ hmem hne (hcov'.overlaps hpiece)
  rw [heq, Extent.sector, Extent.sector, hstart, bch2CutFront_of_lt ho.2.1] at hsector
  cases hval : e.val with
  | other type words =>
    rw [hval] at hsector
    have huncut : new.offset - new.offset = new.offset - e.start := (Prod.mk.inj
      (Prod.mk.inj hsector).2).1
    have hos := ho.2.1
    omega
  | extent es => trivial
  | reflinkV es => trivial
  | reservation g n => trivial
  | set => trivial

theorem reaches_of_loop {us : List ExtentUpdate}
    (hus : bch2TransUpdateExtent c tree new = some us)
    (hover : Overwritten tree new (commitUpdates tree us)) :
    ∀ e ∈ tree, e.Overlaps new →
      if e.offset = keyOffsetMax ∧ c.snapshot ≠ 0 then
        new.offset = keyOffsetMax ∧ new.start ≤ e.start
      else if new.offset < e.offset then c.landed e.pos = true ∧ e.val.IsCut
      else e.pos ≠ (keyInodeMax, keyOffsetMax) := by
  obtain ⟨tree₁, ins, hl, hcommit, hpass, hins⟩ := loop_of_update hT hn hno hus
  rw [hcommit] at hover
  intro e he ho
  by_cases hmax : e.offset = keyOffsetMax ∧ c.snapshot ≠ 0
  · rw [if_pos hmax]
    have hunseen : e ∉ keysFrom c tree new := fun hkey =>
      hmax.2 ((mem_keysFrom.mp hkey).2.2.2 hmax.1)
    obtain ⟨hoff, hstart⟩ := unseen_of_overwritten hT hn hno hl hins hover he ho hunseen
    exact ⟨hoff.symm.trans hmax.1, hstart⟩
  · rw [if_neg hmax]
    have hkey : e ∈ keysFrom c tree new := mem_keysFrom.mpr ⟨he, ho.1, ho.2.2.le, fun hoff => by
      by_contra hs
      exact hmax ⟨hoff, hs⟩⟩
    have hpasses := hpass e hkey ho
    rw [Passes] at hpasses
    split_ifs at hpasses ⊢ with hlt
    · exact ⟨hpasses, isCut_of_overwritten hT hn hno hl hins hover hkey ho hlt⟩
    · exact hpasses

end NoTouch

/-! ### Behind an extent that ends at the start -/

theorem bch2BkeyMerge_valid {l r m : Extent} (hl : l.Valid) (hr : r.Valid)
    (h : bch2BkeyMerge l r = some m) : m.Valid := by
  have hm := bch2BkeyMerge_merged hl hr h
  rw [bch2BkeyMerge] at h
  split_ifs at h
  cases h
  have hpos := hl.size_pos
  refine ⟨?_, ?_, hm.offset ▸ hr.offset_le, hl.inode_le⟩
  · show 0 < l.size + r.size
    omega
  · show l.size + r.size ≤ l.offset - l.size + (l.size + r.size)
    omega

/-- What is staged for the extent that ends at the start of the new one. -/
theorem frontMerge_cases (c : ExtentCtx) (new k : Extent) :
    (if bch2BkeyMaybeMergable k new then extentFrontMerge c k new else ([], new)) = ([], new) ∨
      ∃ m, bch2BkeyMerge k new = some m ∧
        (if bch2BkeyMaybeMergable k new then extentFrontMerge c k new else ([], new)) =
          ([.delete k.inode k.offset], m) := by
  split_ifs with hmaybe
  · rw [extentFrontMerge]
    split_ifs with hreplay
    · exact .inl rfl
    cases hmerge : bch2BkeyMerge k new with
    | none => exact .inl rfl
    | some m => exact .inr ⟨m, rfl, rfl⟩
  · exact .inl rfl

section Touch

variable {a : Extent} (hT : ExtentTree tree) (hn : new.Valid) (ha : a ∈ tree)
  (hpos : a.pos = (new.inode, new.start))

include hT ha hpos

/-- An extent that overlaps the new one starts behind the one that ends at its start. -/
theorem start_le_of_touch {e : Extent} (he : e ∈ tree) (ho : e.Overlaps new) :
    new.start ≤ e.start := by
  obtain ⟨hai, hao⟩ := Prod.mk.inj hpos
  obtain ⟨hi, h₁, h₂⟩ := ho
  have hlt := (hT.valid a ha).start_lt
  rcases hT.cases ha he with rfl | (hb | ⟨-, hb⟩) | (hb | ⟨-, hb⟩) <;> omega

/-- When the key behind starts where the new extent ends, nothing overlaps the new extent. -/
theorem not_overlaps_of_next {k e : Extent} {ks : List Extent}
    (hkeys : keysFrom c tree new = a :: ks) (hk : k ∈ ks.head?) (hstart : k.start = new.offset)
    (he : e ∈ tree) : ¬e.Overlaps new := by
  intro ho
  obtain ⟨hai, hao⟩ := Prod.mk.inj hpos
  have hge := start_le_of_touch hT ha hpos he ho
  obtain ⟨hi, h₁, h₂⟩ := ho
  have hordered := hkeys ▸ keysFrom_ordered c new hT
  have hks : k ∈ ks := List.mem_of_mem_head? hk
  obtain ⟨hkt, hki, -⟩ := mem_keysFrom.mp (hkeys ▸ List.mem_cons_of_mem a hks :
    k ∈ keysFrom c tree new)
  have hklt := (hT.valid k hkt).start_lt
  by_cases hkey : e ∈ keysFrom c tree new
  · rcases List.mem_cons.mp (hkeys ▸ hkey) with rfl | hin
    · omega
    · cases ks with
      | nil => exact absurd hin List.not_mem_nil
      | cons k' ks =>
        cases hk
        rcases List.mem_cons.mp hin with rfl | hin
        · omega
        · have hle := (List.pairwise_cons.mp (List.pairwise_cons.mp hordered).2).1 e hin
          omega
  · -- it ends at the last offset and would overlap the key behind
    have hmax : e.offset = keyOffsetMax := by
      by_contra hmax
      exact hkey (mem_keysFrom.mpr ⟨he, hi, h₂.le, fun hoff => absurd hoff hmax⟩)
    have hkle := (hT.valid k hkt).offset_le
    have hne : e ≠ k := by
      rintro rfl
      omega
    exact hT.apart he hkt hne ⟨hi.trans hki.symm, by omega, by omega⟩

include hn

theorem keysFrom_touch : ∃ ks, keysFrom c tree new = a :: ks := by
  obtain ⟨hai, hao⟩ := Prod.mk.inj hpos
  have hlt := hn.start_lt
  have hle := hn.offset_le
  have hkey : a ∈ keysFrom c tree new :=
    mem_keysFrom.mpr ⟨ha, hai, hao.ge, fun hmax => by omega⟩
  cases hkeys : keysFrom c tree new with
  | nil => exact absurd (hkeys ▸ hkey) List.not_mem_nil
  | cons k ks =>
    have hordered := hkeys ▸ keysFrom_ordered c new hT
    rcases List.mem_cons.mp (hkeys ▸ hkey) with rfl | hin
    · exact ⟨ks, rfl⟩
    · have hfirst := (List.pairwise_cons.mp hordered).1 a hin
      have hge := (mem_keysFrom.mp (hkeys ▸ List.mem_cons_self : k ∈ keysFrom c tree new)).2.2.1
      have halt := (hT.valid a ha).start_lt
      omega

/-- The update stages the new extent at once, grown over its neighbours. -/
theorem update_touch : ∃ ks us ins, keysFrom c tree new = a :: ks ∧
    bch2TransUpdateExtent c tree new = some (finishUpdate c us ins ks.head?) ∧
    (us = [] ∧ ins = new ∨
      us = [.delete a.inode a.offset] ∧ bch2BkeyMerge a new = some ins) := by
  obtain ⟨ks, hkeys⟩ := keysFrom_touch (c := c) hT hn ha hpos
  obtain ⟨-, hao⟩ := Prod.mk.inj hpos
  have hupdate : bch2TransUpdateExtent c tree new =
      let r := if bch2BkeyMaybeMergable a new then extentFrontMerge c a new else ([], new)
      some (finishUpdate c r.1 r.2 ks.head?) := by
    rw [bch2TransUpdateExtent, hkeys]
    dsimp only
    rw [if_pos hao]
  rcases frontMerge_cases c new a with hnone | ⟨m, hm, hmerged⟩
  · rw [hnone] at hupdate
    exact ⟨ks, [], new, hkeys, hupdate, .inl ⟨rfl, rfl⟩⟩
  · rw [hmerged] at hupdate
    exact ⟨ks, _, m, hkeys, hupdate, .inr ⟨rfl, hm⟩⟩

/-- The new extent in the tree without the extent it grew over. -/
theorem overwritten_of_grown_front {ks : List Extent} {m : Extent}
    (hreach : ∀ e ∈ tree, e.Overlaps new → e.offset = new.offset)
    (hkeys : keysFrom c tree new = a :: ks) (hkst : ∀ k ∈ ks.head?, k ∈ tree)
    (hmerge : bch2BkeyMerge a new = some m) :
    Overwritten tree new (commitUpdate (commitUpdate tree (.delete a.inode a.offset))
      (.put ((ks.head?.map (extentBackMerge c m)).getD m))) := by
  obtain ⟨hai, hao⟩ := Prod.mk.inj hpos
  have hav := hT.valid a ha
  have hm := bch2BkeyMerge_merged hav hn hmerge
  have hmv := bch2BkeyMerge_valid hav hn hmerge
  have hnlt := hn.start_lt
  have halt := hav.start_lt
  have hmem : ∀ x, x ∈ commitUpdate tree (.delete a.inode a.offset) ↔ x ∈ tree ∧ x ≠ a := by
    intro x
    rw [mem_commitUpdate_delete]
    refine and_congr_right fun hx => not_congr ⟨fun heq => hT.eq_of_pos hx ha heq, ?_⟩
    rintro rfl
    rfl
  have hover : ∀ e ∈ tree, e ≠ a → e.Overlaps m → e.Overlaps new := by
    rintro e he hne ⟨hi, h₁, h₂⟩
    have hms := hm.start
    have hmo := hm.offset
    have helt := (hT.valid e he).start_lt
    by_contra hno
    refine hT.apart he ha hne ⟨hi.trans hm.inode_left, ?_, by omega⟩
    by_contra hge
    exact hno ⟨hi.trans hm.inode_right, by omega, by omega⟩
  have hcleared : Cleared (commitUpdate tree (.delete a.inode a.offset)) m
      (commitUpdate tree (.delete a.inode a.offset)) := by
    refine ⟨fun e he => (hT.valid e ((hmem e).mp he).1).start_lt,
      fun e he e' he' => hT.apart ((hmem e).mp he).1 ((hmem e').mp he').1,
      fun e he ho => ?_, fun _ _ _ _ => Iff.rfl⟩
    obtain ⟨he, hne⟩ := (hmem e).mp he
    have ho' := hover e he hne ho
    have hge := start_le_of_touch hT ha hpos he ho'
    have hms := hm.start
    exact ⟨Prod.ext ho.1 ((hreach e he ho').trans hm.offset.symm), by omega⟩
  have hgrown := hcleared.finish c hmv ks.head? fun k hk => by
    refine ⟨hT.valid k (hkst k hk), fun _ hstart => ⟨(hmem k).mpr ⟨hkst k hk, ?_⟩, ?_⟩⟩
    · rintro rfl
      have hmo := hm.offset
      omega
    · intro e he ho
      obtain ⟨he, hne⟩ := (hmem e).mp he
      exact not_overlaps_of_next hT ha hpos hkeys hk (hstart.trans hm.offset) he
        (hover e he hne ho)
  refine hgrown.of_grown (fun i x => (hm.covers_iff hav hn).trans or_comm) hm.sector_right
    hm.sector_left (fun i x s hx => hT.maps_iff ha hx) fun i x s hx => ?_
  -- the extent that was deleted has no sector outside
  refine exists_congr fun e => ?_
  rw [hmem]
  refine ⟨fun ⟨⟨he, _⟩, hcov⟩ => ⟨he, hcov⟩, fun ⟨he, hcov⟩ => ⟨⟨he, ?_⟩, hcov⟩⟩
  rintro rfl
  exact hx ((hm.covers_iff hav hn).mpr (.inl hcov.1))

theorem overwritten_of_touch (hreach : ∀ e ∈ tree, e.Overlaps new → e.offset = new.offset) :
    ∃ us, bch2TransUpdateExtent c tree new = some us ∧
      Overwritten tree new (commitUpdates tree us) := by
  obtain ⟨ks, us, ins, hkeys, hupdate, hcase⟩ := update_touch (c := c) hT hn ha hpos
  have hkst : ∀ k ∈ ks.head?, k ∈ tree := fun k hk =>
    (mem_keysFrom.mp (hkeys ▸ List.mem_cons_of_mem a (List.mem_of_mem_head? hk) :
      k ∈ keysFrom c tree new)).1
  refine ⟨_, hupdate, ?_⟩
  rw [finishUpdate, commitUpdates_append, commitUpdates_singleton]
  rcases hcase with ⟨rfl, rfl⟩ | ⟨rfl, hmerge⟩
  · have hcleared : Cleared tree ins tree :=
      ⟨fun e he => (hT.valid e he).start_lt, fun e he e' he' => hT.apart he he',
        fun e he ho => ⟨Prod.ext ho.1 (hreach e he ho),
          start_le_of_touch hT ha hpos he ho⟩, fun _ _ _ _ => Iff.rfl⟩
    refine hcleared.finish c hn _ fun k hk => ⟨hT.valid k (hkst k hk), fun _ hstart => ?_⟩
    exact ⟨hkst k hk, fun e he => not_overlaps_of_next hT ha hpos hkeys hk hstart he⟩
  · exact overwritten_of_grown_front hT hn ha hpos hreach hkeys hkst hmerge

theorem reaches_of_touch {us : List ExtentUpdate}
    (hus : bch2TransUpdateExtent c tree new = some us)
    (hover : Overwritten tree new (commitUpdates tree us)) :
    ∀ e ∈ tree, e.Overlaps new → e.offset = new.offset := by
  intro e he ho
  obtain ⟨ks, us₁, ins, hkeys, hupdate, hcase⟩ := update_touch (c := c) hT hn ha hpos
  obtain ⟨hai, hao⟩ := Prod.mk.inj hpos
  rw [hupdate] at hus
  cases hus
  have hav := hT.valid a ha
  have hnlt := hn.start_lt
  have hge := start_le_of_touch hT ha hpos he ho
  have hea : e.pos ≠ a.pos := by
    intro heq
    rw [hT.eq_of_pos he ha heq] at ho
    exact absurd ho.2.2 (by omega)
  have hins : ins.Valid ∧ ins.inode = new.inode ∧ ins.start ≤ new.start ∧
      ins.offset = new.offset ∧ e ∈ commitUpdates tree us₁ := by
    rcases hcase with ⟨rfl, rfl⟩ | ⟨rfl, hmerge⟩
    · exact ⟨hn, rfl, le_rfl, rfl, he⟩
    · have hm := bch2BkeyMerge_merged hav hn hmerge
      have halt := hav.start_lt
      have hms := hm.start
      exact ⟨bch2BkeyMerge_valid hav hn hmerge, hm.inode_right, by omega, hm.offset,
        mem_commitUpdate_delete.mpr ⟨he, hea⟩⟩
  obtain ⟨hiv, hii, his, hio, het⟩ := hins
  rw [finishUpdate, commitUpdates_append, commitUpdates_singleton] at hover
  have hkst : ∀ k ∈ ks.head?, k ∈ tree := fun k hk =>
    (mem_keysFrom.mp (hkeys ▸ List.mem_cons_of_mem a (List.mem_of_mem_head? hk) :
      k ∈ keysFrom c tree new)).1
  rcases backMerge_cases c hiv ks.head? fun k hk => hT.valid k (hkst k hk) with
    heq | ⟨k, hk, hm⟩
  · rw [heq] at hover
    by_contra hne
    -- the extent is left beside the new one
    have hpos' : e.pos ≠ ins.pos := fun heq => hne ((Prod.mk.inj heq).2.trans hio)
    obtain ⟨hi, h₁, h₂⟩ := ho
    exact hover.apart e (mem_commitUpdate_put.mpr (.inr ⟨het, hpos'⟩)) ins
      (mem_commitUpdate_put.mpr (.inl rfl)) (fun heq => hpos' (by rw [heq]))
      ⟨hi.trans hii.symm, by omega, by omega⟩
  · exact absurd ho (not_overlaps_of_next hT ha hpos hkeys hk (hm.touch.symm.trans hio) he)

end Touch

end Main

/-- Extents of a reservation, `[start, offset)` of the file 1. -/
private def reserved (start offset : ℕ) (n : ℕ := 1) : Extent where
  inode := 1
  offset := offset
  size := offset - start
  val := .reservation 0 n

end Subvol

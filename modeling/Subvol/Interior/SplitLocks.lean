import Subvol.Interior.MergeLocks

/-!
# The locks of a split

A split gives back what it has taken on every way out, but when a merge behind it fails it releases
the locks of its new nodes a second time.

## Main definitions

* `MergesClear`, `SplitClear`: no merge behind the split fails, and the upgrades are clear.

## Main results

* `Track.splitLeafUp`: the split up to the merges.
* `Track.splitLeaf`: what a split leaves behind.
-/

namespace Subvol

open Lib

variable {strict : Bool} {st₀ st : TransLocks} {d e : Holds} {T : List (Fin 64)} {i : Fin 64}
  {level : Fin 4} {old parent : ℕ} {repl : ℕ × ℕ} {rp : Fin 64 × Fin 64}

/-! ### The new nodes -/

/-- The locks of two new nodes. -/
def bothHolds (repl : ℕ × ℕ) : Holds := newHolds repl.1 + newHolds repl.2

/-- What a part of a split leaves when it goes on with two new nodes, and nothing when it returns. -/
def SplitPart (strict : Bool) (st₀ : TransLocks) (d e : Holds) (T : List (Fin 64)) (st : TransLocks) :
    ℤ ⊕ (ℕ × ℕ) × Fin 64 × Fin 64 → Prop
  | .inl _ => Track strict st₀ d e T st
  | .inr (repl, rp) => Track strict st₀ d (e + bothHolds repl) (rp.2 :: rp.1 :: T) st

namespace Track

/-- The locks of two new nodes are given back, and the update goes on. -/
theorem unlockBoth {α : Type} {m : LockM α} {Q : α → TransLocks → Prop}
    (h : Track strict st₀ d (e + bothHolds repl) T st)
    (hm : ∀ st', Track strict st₀ d e T st' → Yields (MayStop strict) m st' Q) :
    Yields (MayStop strict)
      (do Subvol.unlockNew repl.1; Subvol.unlockNew repl.2; m) st Q := by
  rw [bothHolds, add_comm (newHolds repl.1), ← add_assoc] at h
  refine h.unlockNew.bind ?_
  rintro _ st₁ - h₁
  refine h₁.unlockNew.bind ?_
  rintro _ st₂ - h₂
  exact hm st₂ h₂

theorem releasePaths (h : Track strict st₀ d e (rp.2 :: rp.1 :: T) st) :
    Yields (MayStop strict) (releasePaths rp) st fun _ st' => Track strict st₀ d e T st' := by
  refine h.pathPut.bind ?_
  rintro _ st₁ - h₁
  exact h₁.pathPut

theorem splitRelease (h : Track strict st₀ d (e + bothHolds repl) (rp.2 :: rp.1 :: T) st) (ret : ℤ) :
    Yields (MayStop strict) (splitRelease repl rp ret) st fun _ st' => Track strict st₀ d e T st' := by
  refine h.releasePaths.bind ?_
  rintro _ st₁ - h₁
  exact h₁.unlockBoth fun _ h₂ => yields_pure h₂

theorem splitMove (h : Track strict st₀ d e (rp.2 :: rp.1 :: T) st) (old : ℕ) (repl : ℕ × ℕ) :
    Yields (MayStop strict) (splitMove old repl rp) st fun _ st' => Track strict st₀ d e T st' := by
  refine (h.transNodeAdd repl.2).bind ?_
  rintro _ st₁ - h₁
  refine (h₁.transNodeAdd repl.1).bind ?_
  rintro _ st₂ - h₂
  refine (h₂.verifyNotInIters old).bind ?_
  rintro _ st₃ - h₃
  exact h₃.releasePaths

theorem splitNodes (h : Track strict st₀ d e T st) (left right : Option NewNode) (info : NodeInfo)
    (pivot : Bpos) :
    Yields (MayStop strict) (splitNodes left right info pivot) st fun r st' =>
      SplitPart strict st₀ d e T st' r := by
  refine (h.allocateNode left _).bind ?_
  rintro r st₁ - hr
  cases r with
  | inl ret => exact yields_pure hr.1
  | inr l =>
    obtain ⟨h₁, -, -⟩ := hr
    dsimp only
    cases bposSuccessor pivot with
    | none => exact yields_throw (mayStop_assertion strict)
    | some next =>
      refine (h₁.allocateNode right _).bind ?_
      rintro r st₂ - hr
      cases r with
      | inl ret =>
        refine hr.1.unlockNew.bind ?_
        rintro _ st₃ - h₃
        exact yields_pure h₃
      | inr r =>
        obtain ⟨h₂, -, -⟩ := hr
        refine (h₂.takeNew l).bind ?_
        rintro pl st₃ - h₃
        refine (h₃.takeNew r).bind ?_
        rintro pr st₄ - h₄
        refine yields_pure ?_
        change Track strict st₀ d (e + bothHolds (l, r)) (pr :: pl :: T) st₄
        rw [bothHolds, ← add_assoc]
        exact h₄

/-! ### The levels above -/

theorem splitRoot (h : Track strict st₀ d (e + bothHolds repl) (rp.2 :: rp.1 :: T) st)
    (env : SplitEnv) (old : ℕ) (level : Fin 4) :
    Yields (MayStop strict) (splitRoot env old repl rp level) st fun _ st' =>
      Track strict st₀ d e T st' := by
  refine yields_get_bind ?_
  dsimp only
  refine (h.allocateNode env.root _).bind ?_
  rintro r st₁ - hr
  cases r with
  | inl ret => exact hr.1.splitRelease ret
  | inr root =>
    obtain ⟨h₁, -, hinfo⟩ := hr
    obtain ⟨-, -, p, hp, -⟩ := h₁.own rp.2 List.mem_cons_self
    refine Yields.bind (modifyPath_yields (Q := fun _ st' =>
      Track strict st₀ d (e + bothHolds repl + newHolds root) (rp.2 :: rp.1 :: T) st' ∧
      st'.info = st₁.info ∧ ∃ q, st'.paths rp.2 = some q) fun q hq => ?_) ?_
    · have hstep : PathStep rp.2 q { q with locksWant := q.locksWant + 1 } st₁
          { st₁ with
            paths := Function.update st₁.paths rp.2
              (some { q with locksWant := q.locksWant + 1 }) } :=
        ⟨rfl, rfl, rfl, rfl⟩
      exact ⟨h₁.step hq hstep fun _ _ _ => rfl, rfl, _, Function.update_self ..⟩
    rintro _ st₂ - ⟨h₂, hsame, q, hq⟩
    refine yields_get_bind ?_
    rw [TransLocks.path_eq hq]
    by_cases hnone : (q.l level).b ≠ none
    · rw [if_pos hnone]
      exact yields_throw (mayStop_assertion strict)
    rw [if_neg hnone]
    have hlevel : (q.l (st₂.info root).level).b = none := by
      rw [hsame, hinfo]
      exact not_not.mp hnone
    refine (h₂.takeNewNode List.mem_cons_self hq root hlevel).bind ?_
    rintro _ st₃ - h₃
    refine (h₃.transNodeAdd root).bind ?_
    rintro _ st₄ - h₄
    refine (h₄.splitMove old repl).bind ?_
    rintro _ st₅ - h₅
    refine h₅.unlockNew.bind ?_
    rintro _ st₆ - h₆
    exact h₆.unlockBoth fun _ h₇ => yields_pure h₇

theorem splitLock (h : Track strict st₀ d e T st) (u : SplitLevel) (old parent : ℕ) :
    Yields (MayStop strict) (splitLock u old parent) st fun ok st' =>
      Track strict st₀ d (e + if ok then hold parent .write + hold old .write else 0) T st' := by
  refine (h.nodeLockWrite u.refusedOld old).bind ?_
  rintro ok st₁ - h₁
  cases ok with
  | false => exact yields_pure h₁
  | true =>
    rw [if_pos rfl] at h₁
    refine (h₁.nodeLockWrite u.refusedParent parent).bind ?_
    rintro ok st₂ - h₂
    cases ok with
    | false =>
      rw [if_neg Bool.false_ne_true, add_zero] at h₂
      refine h₂.unlock.bind ?_
      rintro _ st₃ - h₃
      refine yields_pure ?_
      rw [if_neg Bool.false_ne_true, add_zero]
      exact h₃
    | true =>
      refine yields_pure ?_
      rw [if_pos rfl, add_comm (hold parent .write), ← add_assoc]
      exact h₂

theorem splitFits (h : Track strict st₀ d (e + bothHolds repl) (rp.2 :: rp.1 :: T) st) (u : SplitLevel)
    (old parent : ℕ) :
    Yields (MayStop strict) (splitFits u old parent repl rp) st fun _ st' =>
      Track strict st₀ d e T st' := by
  refine (h.splitLock u old parent).bind ?_
  rintro ok st₁ - h₁
  cases ok with
  | false =>
    rw [if_neg Bool.false_ne_true, add_zero] at h₁
    refine (h₁.splitRelease (-10)).bind ?_
    rintro ret st₂ - h₂
    exact yields_pure h₂
  | true =>
    rw [if_pos rfl, ← add_assoc] at h₁
    refine Yields.bind (Q := fun _ st' => Track strict st₀ d e T st') ?_
      fun _ _ _ h' => yields_pure h'
    refine h₁.unlock.bind ?_
    rintro _ st₂ - h₂
    refine (h₂.splitMove old repl).bind ?_
    rintro _ st₃ - h₃
    rw [add_right_comm] at h₃
    exact h₃.unlockBoth fun _ h₄ => h₄.unlock

theorem splitParentNode (h : Track strict st₀ d (e + bothHolds repl) (rp.2 :: rp.1 :: T) st)
    (u : SplitLevel) (old parent : ℕ) :
    Yields (MayStop strict) (splitParentNode u old parent repl rp) st fun r st' =>
      SplitPart strict st₀ d e T st' r := by
  unfold Subvol.splitParentNode
  by_cases htwo : ¬u.twoSides = true
  · rw [if_pos htwo]
    refine (h.splitRelease (-6)).bind ?_
    rintro ret st₁ - h₁
    exact yields_pure h₁
  rw [if_neg htwo]
  refine yields_get_bind ?_
  refine (h.splitNodes u.left u.right _ u.pivot).bind ?_
  rintro r st₁ - hr
  cases r with
  | inl ret =>
    refine (Track.splitRelease (hr : Track ..) ret).bind ?_
    rintro ret st₂ - h₂
    exact yields_pure h₂
  | inr r =>
    obtain ⟨nodes, paths⟩ := r
    have h₁ : Track strict st₀ d (e + bothHolds repl + bothHolds nodes)
      (paths.2 :: paths.1 :: rp.2 :: rp.1 :: T) st₁ := hr
    dsimp only
    by_cases hkept : u.oldKept = true
    · rw [if_pos hkept]
      rw [add_right_comm] at h₁
      have hperm : (paths.2 :: paths.1 :: rp.2 :: rp.1 :: T).Perm
          (rp.2 :: rp.1 :: paths.2 :: paths.1 :: T) :=
        List.Perm.append_right T
          (List.perm_append_comm : ([paths.2, paths.1] ++ [rp.2, rp.1]).Perm _)
      refine ((h₁.perm hperm).splitMove old repl).bind ?_
      rintro _ st₂ - h₂
      exact h₂.unlockBoth fun _ h₃ => yields_pure h₃
    · rw [if_neg hkept]
      refine h₁.releasePaths.bind ?_
      rintro _ st₂ - h₂
      rw [add_right_comm] at h₂
      refine (h₂.splitRelease (-8)).bind ?_
      rintro ret st₃ - h₃
      exact h₃.unlockBoth fun _ h₄ => yields_pure h₄

/-- The levels above the old node: what is left for the merges has been given back. -/
theorem splitUp (k : ℕ) (h : Track strict st₀ d (e + bothHolds repl) (rp.2 :: rp.1 :: T) st)
    (env : SplitEnv) (old : ℕ) :
    Yields (MayStop strict) (splitUp env i k old repl rp) st fun _ st' =>
      Track strict st₀ d e T st' := by
  induction k generalizing st old repl rp with
  | zero =>
    refine (h.splitRelease (-12)).bind ?_
    rintro ret st₁ - h₁
    exact yields_pure h₁
  | succ k ih =>
    refine yields_get_bind ?_
    dsimp only
    cases ((st.path i).l ⟨3 - k, by omega⟩).b with
    | none =>
      refine (h.splitRoot env old _).bind ?_
      rintro ret st₁ - h₁
      exact yields_pure h₁
    | some parent =>
      dsimp only
      generalize env.up ⟨3 - k, _⟩ = u
      by_cases hfound : ¬u.oldFound = true
      · rw [if_pos hfound]
        refine (h.splitRelease (-8)).bind ?_
        rintro ret st₁ - h₁
        exact yields_pure h₁
      rw [if_neg hfound]
      by_cases hfits : u.fits = true
      · rw [if_pos hfits]
        exact h.splitFits u old parent
      rw [if_neg hfits]
      refine (h.splitParentNode u old parent).bind ?_
      rintro r st₁ - hr
      cases r with
      | inl ret => exact yields_pure hr
      | inr r => exact ih hr parent

end Track

/-! ### The start of a split -/

/-- The upgrade of a split is clear, when it is made. -/
def SplitUpgradeClear (env : SplitEnv) (i : Fin 64) (st : TransLocks) : Prop :=
  ∀ src, ((st.path i).l 0).b = some src → (st.info src).level = 0 → env.topology = 0 →
    ((st.path i).l 1).b.isSome → UpgradeClear i (env.rootLevel + 1) st

namespace Track

theorem splitUpgrade (h : Track strict st₀ d e T st) (hi : (st.paths i).isSome) (env : SplitEnv)
    (hclear : strict = true → ((st.path i).l 1).b.isSome → UpgradeClear i (env.rootLevel + 1) st) :
    Yields (MayStop strict) (splitUpgrade env i) st fun _ st' => ∃ x,
      Track strict st₀ (d + x) e T st' ∧ OnlyType .read x ∧
      (x = 0 ↔ (((st.path i).l 1).b.isSome → UpgradeClear i (env.rootLevel + 1) st)) := by
  refine yields_get_bind ?_
  by_cases hparent : ((st.path i).l 1).b.isSome = true
  · rw [if_pos hparent]
    refine (h.upgrade hi _ fun hs => hclear hs hparent).mono ?_
    rintro ok st₁ ⟨x, h₁, honly, hzero, -⟩
    exact ⟨x, h₁, honly, hzero.trans ⟨fun hcl _ => hcl, fun hcl => hcl hparent⟩⟩
  · rw [if_neg hparent]
    refine yields_pure ⟨0, by rwa [add_zero], onlyType_zero _, iff_of_true rfl fun hsome => ?_⟩
    exact absurd hsome hparent

theorem splitStart {src : ℕ} (h : Track strict st₀ d e T st) (hi : (st.paths i).isSome)
    (env : SplitEnv) (hsrc : ((st.path i).l 0).b = some src)
    (hclear : strict = true → SplitUpgradeClear env i st) :
    Yields (MayStop strict) (splitStart env i src) st fun _ st' => ∃ x,
      Track strict st₀ (d + x) e T st' ∧ OnlyType .read x ∧
      (x = 0 ↔ SplitUpgradeClear env i st) := by
  -- a split that returns before its upgrade makes no debt
  have hearly : ∀ {ret : ℤ}, SplitUpgradeClear env i st →
      Yields (MayStop strict) (pure (some ret)) st fun (_ : Option ℤ) st' => ∃ x,
        Track strict st₀ (d + x) e T st' ∧ OnlyType .read x ∧
        (x = 0 ↔ SplitUpgradeClear env i st) := fun hcl =>
    yields_pure ⟨0, by rwa [add_zero], onlyType_zero _, iff_of_true rfl hcl⟩
  refine yields_get_bind ?_
  by_cases hlevel : (st.info src).level ≠ 0
  · rw [if_pos hlevel]
    refine hearly fun src' hsrc' hzero => ?_
    rw [hsrc] at hsrc'
    obtain rfl := Option.some.inj hsrc'
    exact absurd hzero hlevel
  rw [if_neg hlevel]
  by_cases htop : env.topology ≠ 0
  · rw [if_pos htop]
    exact hearly fun _ _ _ hzero => absurd hzero htop
  rw [if_neg htop]
  have hiff : SplitUpgradeClear env i st ↔
      (((st.path i).l 1).b.isSome → UpgradeClear i (env.rootLevel + 1) st) :=
    ⟨fun hcl => hcl src hsrc (not_not.mp hlevel) (not_not.mp htop), fun hcl _ _ _ _ => hcl⟩
  rw [hiff] at hclear ⊢
  refine (h.splitUpgrade hi env hclear).bind ?_
  rintro ok st₁ - hx
  split_ifs <;> exact yields_pure hx

/-- The split up to the merges makes a debt if and only if its upgrade does. -/
theorem splitLeafUp (h : Track strict st₀ d e T st) (hi : (st.paths i).isSome) (env : SplitEnv)
    (hclear : strict = true → SplitUpgradeClear env i st) :
    Yields (MayStop strict) (splitLeafUp env i) st fun _ st' => ∃ x,
      Track strict st₀ (d + x) e T st' ∧ OnlyType .read x ∧
      (x = 0 ↔ SplitUpgradeClear env i st) := by
  refine yields_get_bind ?_
  cases hsrc : ((st.path i).l 0).b with
  | none =>
    refine yields_pure ⟨0, by rwa [add_zero], onlyType_zero _, iff_of_true rfl ?_⟩
    intro src hsrc'
    rw [hsrc] at hsrc'
    cases hsrc'
  | some src =>
    refine (h.splitStart hi env hsrc hclear).bind ?_
    rintro r st₁ - ⟨x, h₁, honly, hzero⟩
    cases r with
    | some ret => exact yields_pure ⟨x, h₁, honly, hzero⟩
    | none =>
      refine yields_get_bind ?_
      refine (h₁.splitNodes env.left env.right _ env.pivot).bind ?_
      rintro r st₂ - hr
      cases r with
      | inl ret => exact yields_pure ⟨x, hr, honly, hzero⟩
      | inr r =>
        refine (Track.splitUp 3 hr env src).mono ?_
        rintro _ st₃ h₃
        exact ⟨x, h₃, honly, hzero⟩

end Track

/-! ### The merges behind a split -/

/-- The merges behind a split are clear, and none of them fails. -/
def MergesClear (env : SplitEnv) (i : Fin 64) : List (Fin 4) → TransLocks → Prop
  | [], _ => True
  | l :: ls, st => ((st.path i).l l).lock = .intent →
    ((env.merges l).needsMerge = true → MergeClear (env.merges l) i l st) ∧
    ∀ ret st', bch2ForegroundMaybeMerge (env.merges l) i l st = .ok (ret, st') →
      ret = 0 ∧ MergesClear env i ls st'

/-- The upgrade of a split is clear, and so are the merges behind it. -/
def SplitClear (env : SplitEnv) (i : Fin 64) (st : TransLocks) : Prop :=
  SplitUpgradeClear env i st ∧ ∀ repl st', splitLeafUp env i st = .ok (.inr repl, st') →
    MergesClear env i (levelsAbove (st'.path i).level) st'

/-- What the merges behind a split leave behind. -/
structure MergesLeft (strict : Bool) (st₀ : TransLocks) (d e : Holds) (T : List (Fin 64))
    (clear : Prop) (ret : ℤ) (st : TransLocks) (x y : Holds) : Prop where
  track : Track strict st₀ (d + x) (e + y) T st
  reads : OnlyType .read x
  writes : OnlyType .write y
  clear_iff : x = 0 ∧ ret = 0 ↔ clear
  done : ret = 0 → y = 0

namespace Track

theorem maybeMerge (h : Track strict st₀ d e T st) (hi : (st₀.paths i).isSome) (env : MergeEnv)
    (hclear : strict = true → env.needsMerge = true → MergeClear env i level st) :
    Yields (MayStop strict) (bch2ForegroundMaybeMerge env i level) st fun ret st' =>
      ∃ x y, MergeLeft strict st₀ d e T (env.needsMerge = true → MergeClear env i level st) ret st'
        x y := by
  refine yields_get_bind ?_
  cases hb : ((st.path i).l level).b with
  | none =>
    refine yields_pure ⟨0, 0, .nothing h fun _ b _ _ hb' => ?_⟩
    rw [hb] at hb'
    cases hb'
  | some b =>
    dsimp only
    by_cases hneeds : env.needsMerge = true
    · rw [if_pos hneeds]
      have hiff : (env.needsMerge = true → MergeClear env i level st) ↔ MergeClear env i level st :=
        ⟨fun hcl => hcl hneeds, fun hcl _ => hcl⟩
      rw [hiff] at hclear ⊢
      exact h.merge hi env hclear
    · rw [if_neg hneeds]
      exact yields_pure ⟨0, 0, .nothing h fun hneeds' => absurd hneeds' hneeds⟩

theorem mergesBehind {ls : List (Fin 4)} (h : Track strict st₀ d e T st)
    (hi : (st₀.paths i).isSome) (env : SplitEnv) (hclear : strict = true → MergesClear env i ls st) :
    Yields (MayStop strict) (mergesBehind env i ls) st fun ret st' =>
      ∃ x y, MergesLeft strict st₀ d e T (MergesClear env i ls st) ret st' x y := by
  have hnothing : ∀ {clear : Prop}, clear → MergesLeft strict st₀ d e T clear 0 st 0 0 := fun hcl =>
    ⟨by rwa [add_zero, add_zero], onlyType_zero _, onlyType_zero _, iff_of_true ⟨rfl, rfl⟩ hcl,
      fun _ => rfl⟩
  induction ls generalizing st d with
  | nil => exact yields_pure ⟨0, 0, hnothing trivial⟩
  | cons l ls ih =>
    refine yields_get_bind ?_
    by_cases hintent : ((st.path i).l l).lock = .intent
    · rw [if_pos hintent]
      refine (h.maybeMerge hi (env.merges l) fun hs => (hclear hs hintent).1).bind ?_
      rintro ret st₁ hrun ⟨x, y, hleft⟩
      have hrest : MergesClear env i (l :: ls) st ↔
          ((env.merges l).needsMerge = true → MergeClear (env.merges l) i l st) ∧
          ret = 0 ∧ MergesClear env i ls st₁ := by
        refine ⟨fun hcl => ⟨(hcl hintent).1, (hcl hintent).2 ret st₁ hrun⟩, fun hcl _ =>
          ⟨hcl.1, fun ret' st' hrun' => ?_⟩⟩
        rw [hrun] at hrun'
        cases hrun'
        exact hcl.2
      rw [hrest] at hclear ⊢
      by_cases hret : ret ≠ 0
      · rw [if_pos hret]
        refine yields_pure ⟨x, y, hleft.track, hleft.reads, hleft.writes, ?_, fun hzero => ?_⟩
        · exact iff_of_false (fun hcl => hret hcl.2) fun hcl => hret hcl.2.1
        · exact absurd hzero hret
      rw [if_neg hret]
      have hzero : ret = 0 := not_not.mp hret
      -- a merge that does not fail has kept no lock
      obtain rfl : y = 0 := by_contra fun hy => hleft.failed hy hzero
      have h₁ := hleft.track
      rw [add_zero] at h₁
      refine (ih h₁ (fun hs => (hclear hs).2.2) fun hcl => ?_).mono ?_
      · exact ⟨by rwa [add_zero, add_zero], onlyType_zero _, onlyType_zero _,
          iff_of_true ⟨rfl, rfl⟩ hcl, fun _ => rfl⟩
      rintro ret' st₂ ⟨x', y', hleft'⟩
      refine ⟨x + x', y', by rw [← add_assoc]; exact hleft'.track, hleft.reads.add hleft'.reads,
        hleft'.writes, ?_, hleft'.done⟩
      have hiff := hleft.clear_iff
      rw [and_iff_left rfl] at hiff
      rw [holds_add_eq_zero, and_assoc, hiff, hleft'.clear_iff, and_iff_right hzero]
    · rw [if_neg hintent]
      exact yields_pure ⟨0, 0, hnothing fun hintent' => absurd hintent' hintent⟩

end Track

/-! ### A split -/

/-- What a call leaves behind: it balances if and only if the call is clear. -/
def CallLeft (strict : Bool) (st₀ : TransLocks) (clear : Prop) (st : TransLocks) : Prop :=
  ∃ d e, Track strict st₀ d e [] st ∧ (d = e ↔ clear)

namespace Track

/-- A lock that the update does not hold is given back for somebody else. -/
theorem unlockOwing (h : Track false st₀ d e T st) (n : ℕ) (ty : SixLockType) :
    Yields (MayStop false) (sixUnlock ty n) st fun _ st' =>
      Track false st₀ (d + hold n ty) e T st' := by
  refine (sixUnlock_yields fun hs => absurd hs Bool.false_ne_true).mono ?_
  rintro _ st₁ ⟨hpaths, hcounts⟩
  refine ⟨?_, h.counted, fun hs => absurd hs Bool.false_ne_true, fun j hj => hpaths ▸ h.kept j hj,
    fun j hj => hpaths ▸ h.own j hj, h.nodup⟩
  funext m t
  have h₁ := congrFun₂ h.counts m t
  have h₂ := congrFun₂ hcounts m t
  rw [hpaths]
  simp only [Pi.add_apply] at h₁ h₂ ⊢
  omega

theorem unlockNewOwing (h : Track false st₀ d e T st) (n : ℕ) :
    Yields (MayStop false) (Subvol.unlockNew n) st fun _ st' =>
      Track false st₀ (d + newHolds n) e T st' := by
  refine (h.unlockOwing n .write).bind ?_
  rintro _ st₁ - h₁
  refine (h₁.unlockOwing n .intent).mono ?_
  rintro _ st₂ h₂
  rw [newHolds, add_comm (hold n .intent), ← add_assoc]
  exact h₂

/-- The release of the new nodes behind a merge that failed takes the intent locks of others. -/
theorem unlockAgain {x y : Holds} {clear : Prop} {ret : ℤ} (h : Track false st₀ x y [] st)
    (hwrite : OnlyType .write y) (hclear : ¬clear) (repl : ℕ × ℕ) :
    Yields (MayStop false) (do Subvol.unlockNew repl.1; Subvol.unlockNew repl.2; pure ret) st
      fun _ st' => CallLeft false st₀ clear st' := by
  refine (h.unlockNewOwing repl.1).bind ?_
  rintro _ st₁ - h₁
  refine (h₁.unlockNewOwing repl.2).bind ?_
  rintro _ st₂ - h₂
  refine yields_pure ⟨_, _, h₂, iff_of_false (fun heq => ?_) hclear⟩
  have hintent := congrFun₂ heq repl.1 .intent
  rw [hwrite _ _ (by decide)] at hintent
  simp only [Pi.add_apply, newHolds, hold_self] at hintent
  omega

/-- A split balances if and only if it is clear. -/
theorem splitLeaf (hcounted : pathHolds st.paths ≤ st.counts) (hi : (st.paths i).isSome)
    (env : SplitEnv) (hclear : strict = true → SplitClear env i st) :
    Yields (MayStop strict) (bch2BtreeSplitLeaf env i) st fun _ st' =>
      CallLeft strict st (SplitClear env i st) st' := by
  refine ((start hcounted).splitLeafUp hi env fun hs => (hclear hs).1).bind ?_
  rintro r st₁ hrun ⟨x, h₁, hread, hzero⟩
  rw [zero_add] at h₁
  cases r with
  | inl ret =>
    refine yields_pure ⟨x, 0, h₁, hzero.trans ⟨fun hcl => ⟨hcl, fun repl st' hrun' => ?_⟩,
      fun hcl => hcl.1⟩⟩
    rw [hrun] at hrun'
    cases hrun'
  | inr repl =>
    have hiff : SplitClear env i st ↔ SplitUpgradeClear env i st ∧
        MergesClear env i (levelsAbove (st₁.path i).level) st₁ := by
      refine and_congr_right fun _ => ⟨fun hcl => hcl repl st₁ hrun, fun hcl repl' st' hrun' => ?_⟩
      rw [hrun] at hrun'
      cases hrun'
      exact hcl
    rw [hiff] at hclear ⊢
    refine yields_get_bind ?_
    refine (h₁.mergesBehind hi env fun hs => (hclear hs).2).bind ?_
    rintro ret st₂ - ⟨x', y', hleft⟩
    have h₂ := hleft.track
    rw [zero_add] at h₂
    by_cases hret : ret ≠ 0
    · rw [if_pos hret]
      have hfailed : ¬(SplitUpgradeClear env i st ∧
          MergesClear env i (levelsAbove (st₁.path i).level) st₁) := fun hcl =>
        hret (hleft.clear_iff.mpr hcl.2).2
      cases strict with
      | true => exact absurd (hclear rfl) hfailed
      | false => exact h₂.unlockAgain hleft.writes hfailed repl
    · rw [if_neg hret]
      have hdone : ret = 0 := not_not.mp hret
      obtain rfl : y' = 0 := hleft.done hdone
      refine yields_pure ⟨x + x', 0, h₂, ?_⟩
      have hmerges := hleft.clear_iff
      rw [and_iff_left hdone] at hmerges
      rw [holds_add_eq_zero, hzero, hmerges]

end Track

end Subvol

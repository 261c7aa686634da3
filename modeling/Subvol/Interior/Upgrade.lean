import Subvol.Interior.PathOps

/-!
# The upgrade of a path

An upgrade turns the read locks of a path into intent locks. In one branch it takes the readers of a
node for references of the path: with as many readers as references, it gives back all read holds but
one, and the holds of other readers are lost. The branch is only taken when the intent lock is held,
and by none of the paths of the transaction.

## Main definitions

* `OverReleases`: the branch is taken at a level.
* `UpgradeClear`: the branch is taken at no level of an upgrade.

## Main results

* `Track.upgrade`: an upgrade makes a debt if and only if the branch is taken.
-/

namespace Subvol

open Lib

variable {strict : Bool} {st₀ st : TransLocks} {d e : Holds} {T : List (Fin 64)} {i : Fin 64}
  {l : Fin 4} {p : BtreePath} {b : ℕ}

/-- Holds of one type. -/
def OnlyType (ty : SixLockType) (x : Holds) : Prop := ∀ n t, t ≠ ty → x n t = 0

theorem onlyType_zero (ty : SixLockType) : OnlyType ty 0 := fun _ _ _ => rfl

theorem OnlyType.add {ty : SixLockType} {x y : Holds} (hx : OnlyType ty x) (hy : OnlyType ty y) :
    OnlyType ty (x + y) := fun n t ht => by
  rw [Pi.add_apply, Pi.add_apply, hx n t ht, hy n t ht]

/-- The upgrade at the level takes the readers of the node for references of the path. -/
def OverReleases (st : TransLocks) (i : Fin 64) (l : Fin 4) : Prop :=
  ∃ b, (st.path i).l l = ⟨some b, .read⟩ ∧ 0 < st.counts b .intent ∧
    (othersHold st i l b fun k => decide (NodeLocked.intent.rank ≤ k.rank)) = false ∧
    st.counts b .read = (st.path i).ref ∧ 1 < (st.path i).ref

/-- No level of the loop takes the readers of a node for references of the path. -/
def LevelsClear (i : Fin 64) : List (Fin 4) → TransLocks → Prop
  | [], _ => True
  | l :: ls, st => ¬OverReleases st i l ∧
    ∀ st', upgradeLevel i l st = .ok (true, st') → LevelsClear i ls st'

/-- The upgrade takes the readers of no node for references of the path. -/
def UpgradeClear (i : Fin 64) (want : ℕ) (st : TransLocks) : Prop :=
  min want 4 ≤ (st.path i).locksWant ∧ (st.path i).nodesLocked = true ∨
    LevelsClear i (upgradeRange st i want) st

theorem swapRead_yields (hpos : strict = true → 0 < st.counts b .read) :
    Yields (MayStop strict) (swapRead b) st fun _ st' =>
      st'.paths = st.paths ∧ st'.counts + hold b .read = st.counts + hold b .intent := by
  refine (sixIncrement_intent b).bind ?_
  rintro _ st₁ - ⟨hpaths₁, hcounts₁⟩
  rw [PathLevel.holds_intent] at hcounts₁
  refine (sixUnlock_yields fun hs => ?_).mono ?_
  · rw [hcounts₁]
    exact Nat.add_pos_left (hpos hs) _
  · rintro _ st₂ ⟨hpaths₂, hcounts₂⟩
    exact ⟨hpaths₂.trans hpaths₁, hcounts₂.trans hcounts₁⟩

theorem unlockReaders_yields (b k : ℕ) :
    Yields (MayStop false) (forM (List.replicate k ()) fun _ => sixUnlock .read b) st fun _ st' =>
      st'.paths = st.paths ∧ st'.counts + k • hold b .read = st.counts := by
  induction k generalizing st with
  | zero =>
    refine yields_pure ⟨rfl, ?_⟩
    rw [zero_nsmul, add_zero]
  | succ k ih =>
    rw [List.replicate_succ, List.forM_cons]
    refine (sixUnlock_yields fun hs => absurd hs Bool.false_ne_true).bind ?_
    rintro _ st₁ - ⟨hpaths₁, hcounts₁⟩
    refine ih.mono ?_
    rintro _ st₂ ⟨hpaths₂, hcounts₂⟩
    refine ⟨hpaths₂.trans hpaths₁, ?_⟩
    rw [succ_nsmul, ← add_assoc, hcounts₂, hcounts₁]

/-- What an upgrade of a read lock does to the holds: a read hold becomes an intent hold, and behind
the wrong branch the holds `x` are lost. -/
structure UpgradedRead (st : TransLocks) (b : ℕ) (ok : Bool) (x : Holds) (st' : TransLocks) :
    Prop where
  paths : st'.paths = st.paths
  counts : st'.counts + (if ok then hold b .read else 0) + x =
    st.counts + if ok then hold b .intent else 0

/-- The end of the upgrade: the swap, unless another path reads the node. -/
theorem upgradeSwap_yields {st' : TransLocks} {x : Holds} (hpaths : st'.paths = st.paths)
    (hcounts : st'.counts + x = st.counts) (hpos : strict = true → 0 < st'.counts b .read) :
    Yields (MayStop strict) (do
      if othersHold (← get) i l b fun k => decide (k = .read) then pure false
      else
        swapRead b
        pure true) st' fun ok st'' => UpgradedRead st b ok x st'' := by
  refine yields_get_bind ?_
  split_ifs
  · refine yields_pure ⟨hpaths, ?_⟩
    rw [if_neg Bool.false_ne_true, if_neg Bool.false_ne_true, add_zero, add_zero, hcounts]
  · refine (swapRead_yields hpos).bind ?_
    rintro _ st₁ - ⟨hpaths₁, hcounts₁⟩
    refine yields_pure ⟨hpaths₁.trans hpaths, ?_⟩
    rw [if_pos rfl, if_pos rfl, hcounts₁, add_right_comm, hcounts]

theorem onlyType_readers (b k : ℕ) : OnlyType .read (k • hold b .read) := fun n t ht => by
  rw [Pi.smul_apply, Pi.smul_apply, hold_apply, if_neg fun h => ht h.2, nsmul_zero]

/-- All readers but one are given back, and the lock is refused again. -/
theorem upgradeAlone_yields {ref : ℕ}
    (hall : st.counts b .read = ref ∧ 1 < st.counts b .read) (hintent : 0 < st.counts b .intent) :
    Yields (MayStop false) (upgradeAlone b (st.counts b .read) ref) st fun ok st' =>
      ok = false ∧ st'.paths = st.paths ∧
        st'.counts + (st.counts b .read - 1) • hold b .read = st.counts := by
  unfold upgradeAlone
  rw [if_pos hall]
  refine (unlockReaders_yields b _).bind ?_
  rintro _ st₁ - ⟨hpaths, hcounts⟩
  refine (sixLockTryupgrade_yields b).mono ?_
  rintro ok st₂ hup
  cases ok with
  | true =>
    obtain ⟨-, hfree, -⟩ := hup
    have hsame := congrFun₂ hcounts b .intent
    have hnone := onlyType_readers b (st.counts b .read - 1) b .intent (by decide)
    rw [Pi.add_apply, Pi.add_apply, hnone, hfree] at hsame
    omega
  | false =>
    obtain ⟨rfl, -⟩ := hup
    exact ⟨rfl, hpaths, hcounts⟩

theorem upgradeRead_yields (hi : st.paths i = some p) (hl : p.l l = ⟨some b, .read⟩)
    (hpos : strict = true → 0 < st.counts b .read)
    (hclear : strict = true → ¬OverReleases st i l) :
    Yields (MayStop strict) (upgradeRead i l b) st fun ok st' => ∃ x, OnlyType .read x ∧
      (x = 0 ↔ ¬OverReleases st i l) ∧ UpgradedRead st b ok x st' := by
  have hpath := TransLocks.path_eq hi
  -- the branches that lose nothing
  have hfine : ∀ {ok : Bool} {st' : TransLocks}, ¬OverReleases st i l → UpgradedRead st b ok 0 st' →
      ∃ x, OnlyType .read x ∧ (x = 0 ↔ ¬OverReleases st i l) ∧ UpgradedRead st b ok x st' :=
    fun hnot hup => ⟨0, onlyType_zero _, iff_of_true rfl hnot, hup⟩
  have hswap : ¬OverReleases st i l → Yields (MayStop strict) (do swapRead b; pure true) st
      fun ok st' => ∃ x, OnlyType .read x ∧ (x = 0 ↔ ¬OverReleases st i l) ∧
        UpgradedRead st b ok x st' := by
    intro hnot
    refine (swapRead_yields hpos).bind ?_
    rintro _ st₁ - ⟨hpaths, hcounts⟩
    refine yields_pure (hfine hnot ⟨hpaths, ?_⟩)
    rw [if_pos rfl, if_pos rfl, add_zero, hcounts]
  have hnode : ∀ b', (st.path i).l l = ⟨some b', .read⟩ → b' = b := by
    intro b' hb'
    rw [hpath, hl] at hb'
    cases hb'
    rfl
  unfold upgradeRead
  refine (sixLockTryupgrade_yields b).bind ?_
  rintro ok st₁ - hup
  cases ok with
  | true =>
    obtain ⟨hpaths, hintent, hcounts⟩ := hup
    refine yields_pure (hfine ?_ ⟨hpaths, ?_⟩)
    · rintro ⟨b', hb', hpos', -⟩
      rw [hnode b' hb', hintent] at hpos'
      exact absurd hpos' (Nat.lt_irrefl 0)
    · rw [if_pos rfl, if_pos rfl, add_zero, hcounts]
  | false =>
    obtain ⟨rfl, hintent⟩ := hup
    refine yields_get_bind ?_
    dsimp only
    split_ifs with hother hfew
    · refine hswap ?_
      rintro ⟨b', hb', -, hnone, -⟩
      rw [hnode b' hb', hother] at hnone
      exact absurd hnone (by decide)
    · refine hswap ?_
      rintro ⟨b', hb', -, -, heq, -⟩
      rw [hnode b' hb'] at heq
      omega
    · by_cases hall : st₁.counts b .read = (st₁.path i).ref ∧ 1 < st₁.counts b .read
      · -- the readers are as many as the references: all but one are given back
        have hover : OverReleases st₁ i l := ⟨b, by rw [hpath, hl], hintent,
          Bool.eq_false_iff.mpr hother, hall.1, hall.1 ▸ hall.2⟩
        have hloose : strict = false := by
          cases strict with
          | false => rfl
          | true => exact absurd hover (hclear rfl)
        subst hloose
        refine (upgradeAlone_yields hall hintent).bind ?_
        rintro ok st' - ⟨rfl, hpaths, hcounts⟩
        refine (upgradeSwap_yields hpaths hcounts fun hs => absurd hs Bool.false_ne_true).mono ?_
        refine fun ok st'' hup => ⟨_, onlyType_readers b _, ?_, hup⟩
        refine iff_of_false (fun hzero => ?_) (not_not.mpr hover)
        have hone := congrFun₂ hzero b .read
        rw [Pi.smul_apply, Pi.smul_apply, hold_self, smul_eq_mul, mul_one, Pi.zero_apply,
          Pi.zero_apply] at hone
        omega
      · have hnot : ¬OverReleases st₁ i l := by
          rintro ⟨b', hb', -, -, heq, hone⟩
          rw [hnode b' hb'] at heq
          exact hall ⟨heq, heq ▸ hone⟩
        unfold upgradeAlone
        rw [if_neg hall]
        exact (upgradeSwap_yields (x := 0) rfl (add_zero _) hpos).mono fun ok st' hup =>
          hfine hnot hup

namespace Track

/-- An upgrade of one level makes a debt if and only if it takes the wrong branch there. -/
theorem upgradeLevel (h : Track strict st₀ d e T st) (hi : st.paths i = some p)
    (hclear : strict = true → ¬OverReleases st i l) :
    Yields (MayStop strict) (upgradeLevel i l) st fun _ st' => ∃ x,
      Track strict st₀ (d + x) e T st' ∧ OnlyType .read x ∧ (x = 0 ↔ ¬OverReleases st i l) ∧
      (st'.paths i).isSome := by
  have hpath := TransLocks.path_eq hi
  have hnone : (∀ b, p.l l ≠ ⟨some b, .read⟩) → ∃ x,
      Track strict st₀ (d + x) e T st ∧ OnlyType .read x ∧ (x = 0 ↔ ¬OverReleases st i l) ∧
      (st.paths i).isSome := by
    intro hnot
    refine ⟨0, by rwa [add_zero], onlyType_zero _, iff_of_true rfl ?_, hi ▸ rfl⟩
    rintro ⟨b, hb, -⟩
    exact hnot b (hpath ▸ hb)
  refine yields_get_bind ?_
  rw [hpath]
  dsimp only
  cases hb : (p.l l).b with
  | none => exact yields_pure (hnone fun b heq => by simp [heq] at hb)
  | some b =>
    dsimp only
    cases hlock : (p.l l).lock with
    | unlocked => exact yields_pure (hnone fun b heq => by simp [heq] at hlock)
    | intent => exact yields_pure (hnone fun b heq => by simp [heq] at hlock)
    | write => exact yields_pure (hnone fun b heq => by simp [heq] at hlock)
    | read =>
      have hl : p.l l = ⟨some b, .read⟩ := by rw [← hb, ← hlock]
      refine (upgradeRead_yields hi hl (fun hs => ?_) hclear).bind ?_
      · have hle : (p.l l).holds b .read ≤ st.counts b .read :=
          ((p.level_le l).trans (h.path_le hs hi)) b .read
        rw [hl, PathLevel.holds_read, hold_self] at hle
        exact hle
      rintro ok st₁ - ⟨x, honly, hzero, hup⟩
      have hx : strict = true → x = 0 := fun hs => hzero.mpr (hclear hs)
      cases ok with
      | false =>
        have hcounts := hup.counts
        rw [if_neg Bool.false_ne_true, if_neg Bool.false_ne_true, add_zero, add_zero] at hcounts
        refine yields_pure ⟨x, h.owing hi ?_ ?_ (.inl (.refl p)) rfl rfl hx, honly, hzero, ?_⟩
        · rw [hup.paths, Function.update_eq_self_iff.mpr hi.symm]
        · rw [add_right_comm, hcounts]
        · rw [hup.paths, hi]
          rfl
      | true =>
        have hcounts := hup.counts
        rw [if_pos rfl, if_pos rfl] at hcounts
        refine Yields.bind (modifyPath_yields (Q := fun _ st' => ∃ x,
          Track strict st₀ (d + x) e T st' ∧ OnlyType .read x ∧ (x = 0 ↔ ¬OverReleases st i l) ∧
          (st'.paths i).isSome) fun q hq => ?_) fun _ _ _ hQ => yields_pure hQ
        obtain rfl := Option.some.inj ((hup.paths ▸ hi).symm.trans hq)
        have hlevel := p.holds_setLevel l ⟨some b, .intent⟩
        rw [hl, PathLevel.holds_read, PathLevel.holds_intent] at hlevel
        have hkept : KeptPath p (p.setLevel l ⟨some b, .intent⟩) := by
          refine ⟨rfl, rfl, fun l' hl' => ?_⟩
          by_cases hll : l' = l
          · rw [hll, p.setLevel_self] at hl'
            cases hl'
          · exact p.setLevel_of_ne hll _
        refine ⟨x, h.owing hi (by rw [hup.paths]) ?_ (.inl hkept) rfl rfl hx, honly, hzero,
          isSome_update ..⟩
        funext n ty
        have h₁ := congrFun₂ hcounts n ty
        have h₂ := congrFun₂ hlevel n ty
        simp only [Pi.add_apply] at h₁ h₂ ⊢
        omega

theorem upgradeLevels {ls : List (Fin 4)} (h : Track strict st₀ d e T st)
    (hi : (st.paths i).isSome) (hclear : strict = true → LevelsClear i ls st) :
    Yields (MayStop strict) (upgradeLevels i ls) st fun _ st' => ∃ x,
      Track strict st₀ (d + x) e T st' ∧ OnlyType .read x ∧ (x = 0 ↔ LevelsClear i ls st) ∧
      (st'.paths i).isSome := by
  induction ls generalizing st d with
  | nil => exact yields_pure ⟨0, by rwa [add_zero], onlyType_zero _, iff_of_true rfl trivial, hi⟩
  | cons l ls ih =>
    obtain ⟨p, hp⟩ := Option.isSome_iff_exists.mp hi
    refine (h.upgradeLevel hp fun hs => (hclear hs).1).bind ?_
    rintro ok st₁ hrun ⟨x, h₁, honly, hzero, hi₁⟩
    cases ok with
    | false =>
      refine yields_pure ⟨x, h₁, honly, hzero.trans ⟨fun hnot => ⟨hnot, fun st' hrun' => ?_⟩,
        fun hcl => hcl.1⟩, hi₁⟩
      rw [hrun] at hrun'
      cases hrun'
    | true =>
      refine (ih h₁ hi₁ fun hs => (hclear hs).2 st₁ hrun).mono ?_
      rintro _ st₂ ⟨y, h₂, honly₂, hzero₂, hi₂⟩
      refine ⟨x + y, by rwa [← add_assoc], honly.add honly₂, ?_, hi₂⟩
      rw [holds_add_eq_zero, hzero, hzero₂]
      refine and_congr_right fun _ => ⟨fun hcl st' hrun' => ?_, fun hcl => hcl st₁ hrun⟩
      rw [hrun] at hrun'
      cases hrun'
      exact hcl

/-- An upgrade makes a debt if and only if it takes the wrong branch at some level. -/
theorem upgrade (h : Track strict st₀ d e T st) (hi : (st.paths i).isSome) (want : ℕ)
    (hclear : strict = true → UpgradeClear i want st) :
    Yields (MayStop strict) (bch2BtreePathUpgrade i want) st fun _ st' => ∃ x,
      Track strict st₀ (d + x) e T st' ∧ OnlyType .read x ∧ (x = 0 ↔ UpgradeClear i want st) ∧
      (st'.paths i).isSome := by
  refine yields_get_bind ?_
  split_ifs with hdone
  · exact yields_pure ⟨0, by rwa [add_zero], onlyType_zero _, iff_of_true rfl (.inl hdone), hi⟩
  have hiff : UpgradeClear i want st ↔ LevelsClear i (upgradeRange st i want) st :=
    or_iff_right hdone
  rw [hiff] at hclear
  refine (h.upgradeLevels hi hclear).bind ?_
  rintro ok st₁ - ⟨x, h₁, honly, hzero, hi₁⟩
  rw [← hiff] at hzero
  cases ok with
  | false => exact yields_pure ⟨x, h₁, honly, hzero, hi₁⟩
  | true =>
    refine Yields.bind (modifyPath_yields (Q := fun _ st' => ∃ x,
      Track strict st₀ (d + x) e T st' ∧ OnlyType .read x ∧ (x = 0 ↔ UpgradeClear i want st) ∧
      (st'.paths i).isSome) fun q hq => ?_) fun _ _ _ hQ => yields_pure hQ
    have hstep : PathStep i q { q with locksWant := min want 4 } st₁
        { st₁ with paths := Function.update st₁.paths i (some { q with locksWant := min want 4 }) } :=
      ⟨rfl, rfl, rfl, rfl⟩
    exact ⟨x, h₁.step hq hstep fun _ _ _ => rfl, honly, hzero,
      isSome_update ..⟩

/-- No upgrade of a path with a single reference takes the wrong branch. -/
theorem levelsClear {ls : List (Fin 4)} (h : Track false st₀ d e T st) (hi : (st₀.paths i).isSome)
    (href : (st₀.path i).ref ≤ 1) : LevelsClear i ls st := by
  induction ls generalizing st d with
  | nil => trivial
  | cons l ls ih =>
    have hpath := h.path_ref hi
    refine ⟨fun ⟨b, _, _, _, _, hmany⟩ => by omega, fun st' hrun => ?_⟩
    obtain ⟨p, hp⟩ := Option.isSome_iff_exists.mp (h.isSome hi)
    obtain ⟨x, h', -⟩ := (yields_of_ok hrun).mp
      (h.upgradeLevel hp fun hs => absurd hs Bool.false_ne_true)
    exact ih h'

theorem upgradeClear (h : Track false st₀ d e T st) (hi : (st₀.paths i).isSome)
    (href : (st₀.path i).ref ≤ 1) (want : ℕ) : UpgradeClear i want st :=
  .inr (h.levelsClear hi href)

end Track

end Subvol

import Mathlib.Tactic.Abel
import Subvol.Interior.Track

/-!
# The operations on locks and paths

What every operation on a lock or on a path does to a running update: it takes or gives back holds of
the update, or changes a path with the holds that the path records.

## Main results

* `Track.unlock`, `Track.nodeLockWrite`: holds of the update.
* `Track.pathGet`, `Track.pathPut`, `Track.takeNewNode`, `Track.traverse`: paths of the update.
* `Track.transNodeAdd`: all paths that are in a new node.
-/

namespace Subvol

open Lib

variable {strict : Bool} {st₀ st : TransLocks} {d e : Holds} {T : List (Fin 64)} {i : Fin 64}
  {p : BtreePath} {n : ℕ} {ty : SixLockType}

/-! ### Locks -/

theorem sub_hold_add {c : Holds} (h : 0 < c n ty) : c - hold n ty + hold n ty = c := by
  funext m t
  simp only [Pi.add_apply, Pi.sub_apply, hold_apply]
  split
  · rename_i heq
    obtain ⟨rfl, rfl⟩ := heq
    omega
  · omega

theorem sixUnlock_yields (hpos : strict = true → 0 < st.counts n ty) :
    Yields (MayStop strict) (sixUnlock ty n) st fun _ st' =>
      st'.paths = st.paths ∧ st'.counts + hold n ty = st.counts := by
  rw [Yields, sixUnlock]
  split_ifs with hzero hwrite hmine
  · intro _
    cases strict with
    | false => rfl
    | true => exact absurd (hpos rfl) (by omega)
  · exact mayStop_assertion strict
  · exact mayStop_assertion strict
  · exact ⟨rfl, sub_hold_add (Nat.pos_of_ne_zero hzero)⟩
  · exact ⟨rfl, sub_hold_add (Nat.pos_of_ne_zero hzero)⟩

theorem sixIncrement_read (n : ℕ) :
    Yields (MayStop strict) (sixIncrement .read n) st fun _ st' =>
      st'.paths = st.paths ∧ st'.counts = st.counts + PathLevel.holds ⟨some n, .read⟩ := by
  rw [Yields, sixIncrement, PathLevel.holds_read]
  split_ifs
  · exact mayStop_assertion strict
  · exact ⟨rfl, rfl⟩

theorem sixIncrement_intent (n : ℕ) :
    Yields (MayStop strict) (sixIncrement .intent n) st fun _ st' =>
      st'.paths = st.paths ∧ st'.counts = st.counts + PathLevel.holds ⟨some n, .intent⟩ := by
  rw [Yields, sixIncrement, PathLevel.holds_intent]
  split_ifs
  · exact mayStop_assertion strict
  · exact ⟨rfl, rfl⟩

theorem sixIncrement_write (n : ℕ) :
    Yields (MayStop strict) (sixIncrement .write n) st fun _ st' =>
      st'.paths = st.paths ∧ st'.counts = st.counts + PathLevel.holds ⟨some n, .write⟩ := by
  rw [Yields, sixIncrement, PathLevel.holds_write]
  split_ifs
  · exact mayStop_assertion strict
  · exact ⟨rfl, add_assoc ..⟩

theorem sixLock_yields (refused : Bool) (ty : SixLockType) (n : ℕ) :
    Yields (MayStop strict) (sixLock refused ty n) st fun ok st' =>
      st'.paths = st.paths ∧ st'.counts = st.counts + if ok then hold n ty else 0 := by
  unfold Yields sixLock
  by_cases hassert : ty = .write ∧ (st.mine n = false ∨ st.counts n .write ≠ 0)
  · rw [if_pos hassert]
    exact mayStop_assertion strict
  rw [if_neg hassert]
  by_cases hrefused : refused = true
  · rw [if_pos hrefused]
    exact ⟨rfl, (add_zero _).symm⟩
  rw [if_neg hrefused]
  cases ty <;> dsimp only <;> split_ifs
  all_goals first
    | exact mayStop_waits strict
    | exact ⟨rfl, rfl⟩

theorem sixLockTryupgrade_yields (n : ℕ) :
    Yields (MayStop strict) (sixLockTryupgrade n) st fun ok st' =>
      if ok then st'.paths = st.paths ∧ st.counts n .intent = 0 ∧
        st'.counts + hold n .read = st.counts + hold n .intent
      else st' = st ∧ 0 < st.counts n .intent := by
  rw [Yields, sixLockTryupgrade]
  split_ifs with hintent hread
  · exact ⟨rfl, Nat.pos_of_ne_zero hintent⟩
  · exact mayStop_assertion strict
  · refine ⟨rfl, not_not.mp hintent, ?_⟩
    change st.counts - hold n .read + hold n .intent + hold n .read = _
    rw [add_right_comm, sub_hold_add (Nat.pos_of_ne_zero hread)]

theorem sixLockReadersSub_yields (n k : ℕ) :
    Yields (MayStop strict) (sixLockReadersSub n k) st fun _ st' =>
      st'.paths = st.paths ∧ st'.counts + k • hold n .read = st.counts := by
  rw [Yields, sixLockReadersSub]
  split_ifs with hfew
  · exact mayStop_assertion strict
  · refine ⟨rfl, ?_⟩
    funext m t
    simp only [Pi.add_apply, Pi.sub_apply, Pi.smul_apply, hold_apply, smul_eq_mul]
    split
    · rename_i heq
      obtain ⟨rfl, rfl⟩ := heq
      omega
    · omega

theorem bch2BtreeNodeLockWrite_yields (refused : Bool) (b : ℕ) :
    Yields (MayStop strict) (bch2BtreeNodeLockWrite refused b) st fun ok st' =>
      st'.paths = st.paths ∧ st'.counts = st.counts + if ok then hold b .write else 0 := by
  refine yields_get_bind ?_
  dsimp only
  generalize pathIds.countP _ = k
  -- the readers that are given back come back behind the lock
  refine (sixLockReadersSub_yields b k).bind ?_
  rintro _ st₁ - ⟨hpaths₁, hcounts₁⟩
  refine (sixLock_yields refused .write b).bind ?_
  rintro ok st₂ - ⟨hpaths₂, hcounts₂⟩
  refine ⟨hpaths₂.trans hpaths₁, ?_⟩
  change st₂.counts + k • hold b .read = _
  rw [hcounts₂, add_right_comm, hcounts₁]

/-! ### Holds of the update -/

namespace Track

/-- A hold of the update is given back. -/
theorem unlock (h : Track strict st₀ d (e + hold n ty) T st) :
    Yields (MayStop strict) (sixUnlock ty n) st fun _ st' => Track strict st₀ d e T st' := by
  refine (sixUnlock_yields fun hs => ?_).mono ?_
  · have hle : pathHolds st.paths n ty + (e n ty + hold n ty n ty) ≤ st.counts n ty :=
      h.le_counts hs n ty
    rw [hold_self] at hle
    omega
  · rintro _ st' ⟨hpaths, hcounts⟩
    refine h.of_counts hpaths ?_
    rw [← hcounts]
    abel

theorem lock (h : Track strict st₀ d e T st) (refused : Bool) (ty : SixLockType) (n : ℕ) :
    Yields (MayStop strict) (sixLock refused ty n) st fun ok st' =>
      Track strict st₀ d (e + if ok then hold n ty else 0) T st' := by
  refine (sixLock_yields refused ty n).mono ?_
  rintro ok st' ⟨hpaths, hcounts⟩
  refine h.of_counts hpaths ?_
  rw [hcounts]
  abel

theorem nodeLockWrite (h : Track strict st₀ d e T st) (refused : Bool) (b : ℕ) :
    Yields (MayStop strict) (bch2BtreeNodeLockWrite refused b) st fun ok st' =>
      Track strict st₀ d (e + if ok then hold b .write else 0) T st' := by
  refine (bch2BtreeNodeLockWrite_yields refused b).mono ?_
  rintro ok st' ⟨hpaths, hcounts⟩
  refine h.of_counts hpaths ?_
  rw [hcounts]
  abel

end Track

/-! ### The table of the paths -/

theorem modifyPath_yields {f : BtreePath → BtreePath} {Q : Unit → TransLocks → Prop}
    (h : ∀ p, st.paths i = some p →
      Q () { st with paths := Function.update st.paths i (some (f p)) }) :
    Yields (MayStop strict) (modifyPath i f) st Q := by
  unfold Yields modifyPath
  cases hi : st.paths i with
  | none => exact mayStop_assertion strict
  | some p => exact h p hi

theorem unlockNode_yields {b : ℕ} {lock : NodeLocked}
    (hle : strict = true → PathLevel.holds ⟨some b, lock⟩ ≤ st.counts) :
    Yields (MayStop strict) (unlockNode b lock) st fun _ st' =>
      st'.paths = st.paths ∧ st'.counts + PathLevel.holds ⟨some b, lock⟩ = st.counts := by
  cases lock with
  | unlocked =>
    rw [PathLevel.holds_of_unlocked rfl]
    exact ⟨rfl, rfl⟩
  | read =>
    rw [PathLevel.holds_read] at hle ⊢
    refine sixUnlock_yields fun hs => ?_
    have hone : hold b .read b .read ≤ st.counts b .read := hle hs b .read
    rwa [hold_self] at hone
  | intent =>
    rw [PathLevel.holds_intent] at hle ⊢
    refine sixUnlock_yields fun hs => ?_
    have hone : hold b .intent b .intent ≤ st.counts b .intent := hle hs b .intent
    rwa [hold_self] at hone
  | write =>
    rw [PathLevel.holds_write] at hle ⊢
    refine (sixUnlock_yields fun hs => ?_).bind ?_
    · have hone : hold b .write b .write + hold b .intent b .write ≤ st.counts b .write :=
        hle hs b .write
      rw [hold_self] at hone
      omega
    rintro _ st₁ - ⟨hpaths₁, hcounts₁⟩
    refine (sixUnlock_yields fun hs => ?_).mono ?_
    · have hone : hold b .write b .intent + hold b .intent b .intent ≤ st.counts b .intent :=
        hle hs b .intent
      have hsame := congrFun₂ hcounts₁ b .intent
      rw [hold_self] at hone
      simp only [Pi.add_apply] at hsame
      omega
    · rintro _ st₂ ⟨hpaths₂, hcounts₂⟩
      refine ⟨hpaths₂.trans hpaths₁, ?_⟩
      rw [← hcounts₁, ← hcounts₂]
      abel

/-- A program that changes a path as the path records, for paths of before the update without a new
write lock. -/
theorem btreeNodeUnlock_yields (l : Fin 4) (hi : st.paths i = some p)
    (hle : strict = true → p.holds ≤ st.counts) :
    Yields (MayStop strict) (btreeNodeUnlock i l) st fun _ st' =>
      ∃ v, v.lock = .unlocked ∧ PathStep i p (p.setLevel l v) st st' := by
  refine yields_get_bind ?_
  rw [TransLocks.path_eq hi]
  dsimp only
  split_ifs with hlock
  · refine yields_pure ⟨p.l l, hlock, ?_⟩
    rw [p.setLevel_eq_self]
    exact .refl hi
  · cases hb : (p.l l).b with
    | none => exact yields_throw (mayStop_assertion strict)
    | some b =>
      have hv : p.l l = ⟨some b, (p.l l).lock⟩ := by rw [← hb]
      refine (unlockNode_yields fun hs => ?_).bind ?_
      · rw [← hv]
        exact (p.level_le l).trans (hle hs)
      rintro _ st₁ - ⟨hpaths, hcounts⟩
      refine modifyPath_yields fun q hq => ?_
      obtain rfl := Option.some.inj ((hpaths ▸ hi).symm.trans hq)
      refine ⟨⟨some b, .unlocked⟩, rfl, .of_level (hpaths ▸ rfl) ?_⟩
      rw [PathLevel.holds_of_unlocked (v := ⟨some b, .unlocked⟩) rfl, add_zero, hv]
      exact hcounts

theorem btreePathUnlockLevel_yields (l : Fin 4) (hi : st.paths i = some p)
    (hle : strict = true → p.holds ≤ st.counts) :
    Yields (MayStop strict) (btreePathUnlockLevel i l) st fun _ st' =>
      ∃ v, v.b = none ∧ PathStep i p (p.setLevel l v) st st' := by
  refine yields_get_bind ?_
  rw [TransLocks.path_eq hi]
  dsimp only
  cases hb : (p.l l).b with
  | none =>
    refine yields_pure ⟨p.l l, hb, ?_⟩
    rw [p.setLevel_eq_self]
    exact .refl hi
  | some b =>
    have hv : p.l l = ⟨some b, (p.l l).lock⟩ := by rw [← hb]
    refine (unlockNode_yields fun hs => ?_).bind ?_
    · rw [← hv]
      exact (p.level_le l).trans (hle hs)
    rintro _ st₁ - ⟨hpaths, hcounts⟩
    refine modifyPath_yields fun q hq => ?_
    obtain rfl := Option.some.inj ((hpaths ▸ hi).symm.trans hq)
    refine ⟨⟨none, (p.l l).lock⟩, rfl, .of_level (hpaths ▸ rfl) ?_⟩
    rw [PathLevel.holds_of_none (v := ⟨none, (p.l l).lock⟩) rfl, add_zero, hv]
    exact hcounts

/-- Behind the unlock, the path is empty. -/
theorem btreePathUnlock_yields (hi : st.paths i = some p)
    (hle : strict = true → p.holds ≤ st.counts) :
    Yields (MayStop strict) (btreePathUnlock i) st fun _ st' =>
      ∃ p', (∀ l, p'.l l = {}) ∧ PathStep i p p' st st' := by
  refine Yields.bind (yields_forM
    (fun ls st' => ∃ p', (∀ l ∉ ls, (p'.l l).b = none) ∧ PathStep i p p' st st') ?_
    ⟨p, fun l hl => absurd (List.mem_finRange l) hl, .refl hi⟩) ?_
  · rintro l ls st' ⟨p', hdone, hstep⟩
    refine (btreePathUnlockLevel_yields l hstep.at_self fun hs => hstep.le_counts (hle hs)).mono ?_
    rintro _ st'' ⟨v, hv, hstep'⟩
    refine ⟨p'.setLevel l v, fun l' hl' => ?_, hstep.trans hstep'⟩
    by_cases hll : l' = l
    · rw [hll, p'.setLevel_self]
      exact hv
    · rw [p'.setLevel_of_ne hll]
      exact hdone l' (by simp [hll, hl'])
  · rintro _ st' - ⟨p', hdone, hstep⟩
    refine modifyPath_yields fun q hq => ?_
    obtain rfl := Option.some.inj (hstep.at_self.symm.trans hq)
    have hnone : ∀ l, (p'.l l).b = none := fun l => hdone l List.not_mem_nil
    refine ⟨_, fun l => congrArg (PathLevel.mk · .unlocked) (hnone l),
      hstep.trans ⟨rfl, ?_, rfl, rfl⟩⟩
    have hempty : BtreePath.holds { p' with l := fun l => ⟨(p'.l l).b, .unlocked⟩ } = 0 :=
      BtreePath.holds_of_empty hnone
    rw [BtreePath.holds_of_empty hnone, hempty]

namespace Track

/-- A path of the update, which holds nothing. -/
theorem pathGet (h : Track strict st₀ d e T st) (btreeId : ℕ) (pos : Bpos) (level : Fin 4)
    (preserve : Bool) :
    Yields (MayStop strict) (bch2PathGet btreeId pos level preserve) st fun i st' =>
      Track strict st₀ d e (i :: T) st' ∧ st.paths i = none ∧
      ∃ p, st'.paths i = some p ∧ ∀ l, p.l l = {} := by
  unfold Yields bch2PathGet
  cases hfind : pathIds.find? fun i => (st.paths i).isNone with
  | none => exact mayStop_assertion strict
  | some i =>
    have hnone : st.paths i = none := Option.isNone_iff_eq_none.mp
      (List.find?_some (p := fun i => (st.paths i).isNone) hfind)
    have hne : i ≠ 0 := by
      have hmem := List.mem_of_find?_eq_some hfind
      simpa [pathIds] using hmem
    refine ⟨h.get hnone hne rfl rfl (BtreePath.holds_of_empty fun _ => rfl) rfl rfl, hnone, _,
      Function.update_self .., fun _ => rfl⟩

/-- A path of the update is given back, with all that it holds. -/
theorem pathPut (h : Track strict st₀ d e (i :: T) st) :
    Yields (MayStop strict) (bch2PathPut i) st fun _ st' => Track strict st₀ d e T st' := by
  obtain ⟨hne, -, p, hi, href, hintent⟩ := h.own i List.mem_cons_self
  unfold bch2PathPut
  rw [if_neg hne]
  refine yields_get_bind ?_
  rw [hi]
  dsimp only
  rw [if_neg (by omega), if_pos href]
  refine Yields.bind (modifyPath_yields (Q := fun _ st' => PathStep i
    { p with intentRef := p.intentRef - 1, ref := p.ref - 1 }
    { p with intentRef := p.intentRef - 1, ref := p.ref - 1 } st st') fun q hq => ?_) ?_
  · obtain rfl := Option.some.inj (hi.symm.trans hq)
    exact ⟨rfl, rfl, rfl, rfl⟩
  rintro _ st₁ - hstep₁
  refine (btreePathUnlock_yields hstep₁.at_self fun hs =>
    hstep₁.le_counts (h.path_le hs hi : p.holds ≤ st.counts)).bind ?_
  rintro _ st₂ - ⟨p', hempty, hstep₂⟩
  have hstep := hstep₁.trans hstep₂
  refine Track.drop h hi (?_ : Function.update st₂.paths i none = _) ?_
  · rw [hstep.paths, Function.update_idem]
  · have hnone : p'.holds = 0 := BtreePath.holds_of_empty fun l => by rw [hempty l]
    have hcounts := hstep.counts
    rw [hnone, add_zero] at hcounts
    exact hcounts

/-- A path of the update takes the lock of a new node in an entry without a node. -/
theorem takeNewNode (h : Track strict st₀ d e T st) (hmem : i ∈ T) (hi : st.paths i = some p)
    (b : ℕ) (hnone : (p.l (st.info b).level).b = none) :
    Yields (MayStop strict) (btreePathTakeNewNode i b) st fun _ st' =>
      Track strict st₀ d e T st' := by
  refine yields_get_bind ((sixIncrement_write b).bind ?_)
  rintro _ st₁ - ⟨hpaths, hcounts⟩
  refine modifyPath_yields fun q hq => ?_
  obtain rfl := Option.some.inj ((hpaths ▸ hi).symm.trans hq)
  refine h.step hi (.of_level (l := (st.info b).level) (v := ⟨some b, .write⟩) (hpaths ▸ rfl) ?_)
    fun hnot => absurd hmem hnot
  rw [PathLevel.holds_of_none hnone, add_zero]
  exact hcounts

end Track

/-! ### A walk down the tree -/

theorem sixLockBeside_yields (beside refused : Bool) (ty : SixLockType) (b : ℕ) (hty : ty ≠ .write) :
    Yields (MayStop strict) (sixLockBeside beside refused ty b) st fun ok st' =>
      st'.paths = st.paths ∧ st'.counts = st.counts + if ok then hold b ty else 0 := by
  unfold sixLockBeside
  split_ifs
  · cases ty with
    | read =>
      rw [← PathLevel.holds_read]
      refine (sixIncrement_read b).bind ?_
      rintro _ st₁ - ⟨hpaths, hcounts⟩
      exact yields_pure ⟨hpaths, hcounts⟩
    | intent =>
      rw [← PathLevel.holds_intent]
      refine (sixIncrement_intent b).bind ?_
      rintro _ st₁ - ⟨hpaths, hcounts⟩
      exact yields_pure ⟨hpaths, hcounts⟩
    | write => exact absurd rfl hty
  · exact sixLock_yields refused ty b

/-- A level without a hold gets the lock that the path wants there. -/
theorem btreeNodeLock_yields (refused : Bool) (b : ℕ) {l : Fin 4} (hi : st.paths i = some p)
    (hzero : (p.l l).holds = 0) :
    Yields (MayStop strict) (btreeNodeLock refused i b l) st fun _ st' =>
      ∃ p', PathStep i p p' st st' ∧ ∀ l' ≠ l, p'.l l' = p.l l' := by
  refine yields_get_bind ?_
  rw [TransLocks.path_eq hi]
  dsimp only
  refine Yields.bind (Q := fun (ok : Bool) (st' : TransLocks) => st'.paths = st.paths ∧
    st'.counts = st.counts + if ok then PathLevel.holds ⟨some b, pathLockType p l⟩ else 0) ?_ ?_
  · -- the hold is that of the lock type, beside another path or alone
    by_cases hwant : l < p.locksWant
    · have htype : pathLockType p l = .intent := if_pos hwant
      rw [htype, PathLevel.holds_intent]
      exact sixLockBeside_yields _ refused .intent b (by decide)
    · have htype : pathLockType p l = .read := if_neg hwant
      rw [htype, PathLevel.holds_read]
      exact sixLockBeside_yields _ refused .read b (by decide)
  · rintro ok st₁ - ⟨hpaths, hcounts⟩
    cases ok with
    | false =>
      rw [if_neg Bool.false_ne_true, add_zero] at hcounts
      refine yields_pure ⟨p, ⟨?_, by rw [hcounts], rfl, rfl⟩, fun _ _ => rfl⟩
      rw [hpaths, Function.update_eq_self_iff.mpr hi.symm]
    | true =>
      rw [if_pos rfl] at hcounts
      refine Yields.bind (modifyPath_yields (Q := fun _ st' =>
        PathStep i p (p.setLevel l ⟨some b, pathLockType p l⟩) st st') fun q hq => ?_) ?_
      · obtain rfl := Option.some.inj ((hpaths ▸ hi).symm.trans hq)
        refine .of_level (hpaths ▸ rfl) ?_
        rw [hzero, add_zero]
        exact hcounts
      · rintro _ st₂ - hstep
        exact yields_pure ⟨_, hstep, fun l' hne => p.setLevel_of_ne hne _⟩

/-- The loop over the levels of a walk, none of which has a hold yet. -/
theorem traverseDown_yields (w : Walk) {ls : List (Fin 4)} (b : ℕ) (hi : st.paths i = some p)
    (hle : strict = true → p.holds ≤ st.counts) (hzero : ∀ l ∈ ls, (p.l l).holds = 0)
    (hnodup : ls.Nodup) :
    Yields (MayStop strict) (traverseDown w i ls b) st fun _ st' => ∃ p', PathStep i p p' st st' := by
  induction ls generalizing st p b with
  | nil => exact yields_pure ⟨p, .refl hi⟩
  | cons l ls ih =>
    obtain ⟨hl, hls⟩ := List.forall_mem_cons.mp hzero
    obtain ⟨hnot, hnodup⟩ := List.nodup_cons.mp hnodup
    have hunlock : ∀ {ret : ℤ} {st' : TransLocks} {p' : BtreePath}, PathStep i p p' st st' →
        Yields (MayStop strict) (do btreePathUnlock i; pure ret) st' fun _ st'' =>
          ∃ p'', PathStep i p p'' st st'' := by
      intro ret st' p' hstep
      refine (btreePathUnlock_yields hstep.at_self fun hs => hstep.le_counts (hle hs)).bind ?_
      rintro _ st'' - ⟨p'', -, hstep'⟩
      exact yields_pure ⟨p'', hstep.trans hstep'⟩
    unfold traverseDown
    cases hchild : w.child b with
    | error ret => exact hunlock (.refl hi)
    | ok child =>
      refine (btreeNodeLock_yields _ child hi hl).bind ?_
      rintro ok st₁ - ⟨p₁, hstep₁, hsame⟩
      cases ok with
      | false => exact hunlock hstep₁
      | true =>
        refine Yields.bind (modifyPath_yields (Q := fun _ st' =>
          PathStep i p₁ { p₁ with level := l } st₁ st') fun q hq => ?_) ?_
        · obtain rfl := Option.some.inj (hstep₁.at_self.symm.trans hq)
          exact ⟨rfl, rfl, rfl, rfl⟩
        rintro _ st₂ - hstep₂
        have hstep := hstep₁.trans hstep₂
        refine (ih child hstep.at_self (fun hs => hstep.le_counts (hle hs)) (fun l' hl' => ?_)
          hnodup).mono ?_
        · have hne : l' ≠ l := fun heq => hnot (heq ▸ hl')
          change (p₁.l l').holds = 0
          rw [hsame l' hne]
          exact hls l' hl'
        · rintro _ st₃ ⟨p₃, hstep₃⟩
          exact ⟨p₃, hstep.trans hstep₃⟩

theorem traverse_yields (w : Walk) (hi : st.paths i = some p) (hempty : ∀ l, p.l l = {}) :
    Yields (MayStop strict) (bch2BtreePathTraverse w i) st fun _ st' =>
      ∃ p', PathStep i p p' st st' := by
  have hzero : p.holds = 0 := BtreePath.holds_of_empty fun l => by rw [hempty l]
  have hle : strict = true → p.holds ≤ st.counts := fun _ => hzero ▸ fun _ _ => Nat.zero_le _
  refine yields_get_bind ?_
  rw [TransLocks.path_eq hi]
  split_ifs
  · exact yields_pure ⟨p, .refl hi⟩
  · exact yields_pure ⟨p, .refl hi⟩
  · exact yields_pure ⟨p, .refl hi⟩
  refine (btreePathUnlock_yields hi hle).bind ?_
  rintro _ st₁ - ⟨p₁, hempty₁, hstep₁⟩
  cases w.root with
  | none => exact yields_pure ⟨p₁, hstep₁⟩
  | some root =>
    dsimp only
    refine Yields.bind (modifyPath_yields (Q := fun _ st' =>
      PathStep i p₁ { p₁ with level := (st.info root).level } st₁ st') fun q hq => ?_) ?_
    · obtain rfl := Option.some.inj (hstep₁.at_self.symm.trans hq)
      exact ⟨rfl, rfl, rfl, rfl⟩
    rintro _ st₂ - hstep₂
    have hnone : ∀ l, (p₁.l l).holds = 0 := fun l => PathLevel.holds_of_none (by rw [hempty₁ l])
    refine (btreeNodeLock_yields _ root hstep₂.at_self (hnone _)).bind ?_
    rintro ok st₃ - ⟨p₃, hstep₃, hsame⟩
    have hstep := (hstep₁.trans hstep₂).trans hstep₃
    cases ok with
    | false => exact yields_pure ⟨p₃, hstep⟩
    | true =>
      refine (traverseDown_yields w root hstep.at_self (fun hs => hstep.le_counts (hle hs))
        (fun l hl => ?_) ?_).mono ?_
      · have hlt : l < (st.info root).level := by
          have hmem := List.mem_filter.mp (List.mem_reverse.mp hl)
          exact (of_decide_eq_true hmem.2).2
        rw [hsame l hlt.ne]
        exact hnone l
      · exact List.nodup_reverse.mpr ((List.nodup_finRange 4).filter _)
      · rintro _ st₄ ⟨p₄, hstep₄⟩
        exact ⟨p₄, hstep.trans hstep₄⟩

namespace Track

/-- A path of the update that holds nothing goes down the tree. -/
theorem traverse (h : Track strict st₀ d e T st) (hmem : i ∈ T) (hi : st.paths i = some p)
    (hempty : ∀ l, p.l l = {}) (w : Walk) :
    Yields (MayStop strict) (bch2BtreePathTraverse w i) st fun _ st' =>
      Track strict st₀ d e T st' := by
  refine (traverse_yields w hi hempty).mono ?_
  rintro _ st' ⟨p', hstep⟩
  exact h.step hi hstep fun hnot => absurd hmem hnot

end Track

/-! ### Nodes of the paths -/

theorem addedLock_ne_write (p : BtreePath) (l : Fin 4) : addedLock p l ≠ .write := by
  unfold addedLock btreeLockWant
  split_ifs <;> decide

theorem incrementNode_yields (b : ℕ) (lock : NodeLocked) :
    Yields (MayStop strict) (incrementNode b lock) st fun _ st' =>
      st'.paths = st.paths ∧ st'.counts = st.counts + PathLevel.holds ⟨some b, lock⟩ := by
  cases lock with
  | unlocked =>
    rw [PathLevel.holds_of_unlocked rfl, add_zero]
    exact ⟨rfl, rfl⟩
  | read => exact sixIncrement_read b
  | intent => exact sixIncrement_intent b
  | write => exact sixIncrement_write b

namespace Track

/-- A path that is in the node gives back what it holds at the level and takes what it wants. -/
theorem transNodeAddPath (h : Track strict st₀ d e T st) (b : ℕ) (i : Fin 64) :
    Yields (MayStop strict) (transNodeAddPath b i) st fun _ st' => Track strict st₀ d e T st' := by
  refine yields_get_bind ?_
  dsimp only
  cases hi : st.paths i with
  | none => exact yields_pure h
  | some p =>
    dsimp only
    split_ifs
    · exact yields_pure h
    refine (btreeNodeUnlock_yields (st.info b).level hi fun hs => h.path_le hs hi).bind ?_
    rintro _ st₁ - ⟨v, hv, hstep₁⟩
    refine (incrementNode_yields b _).bind ?_
    rintro _ st₂ - ⟨hpaths, hcounts⟩
    refine modifyPath_yields fun q hq => ?_
    obtain rfl := Option.some.inj ((hpaths ▸ hstep₁.at_self).symm.trans hq)
    refine h.step hi (hstep₁.trans (.of_level (l := (st.info b).level)
      (v := ⟨some b, addedLock p (st.info b).level⟩) (hpaths ▸ rfl) ?_)) fun _ l hl => ?_
    · rw [p.setLevel_self, PathLevel.holds_of_unlocked hv, add_zero]
      exact hcounts
    by_cases hlevel : l = (st.info b).level
    · rw [hlevel, BtreePath.setLevel_self] at hl
      exact absurd hl (addedLock_ne_write p _)
    · rw [BtreePath.setLevel_of_ne hlevel, BtreePath.setLevel_of_ne hlevel]

theorem transNodeAdd (h : Track strict st₀ d e T st) (b : ℕ) :
    Yields (MayStop strict) (bch2TransNodeAdd b) st fun _ st' => Track strict st₀ d e T st' :=
  yields_forM (fun _ st' => Track strict st₀ d e T st') (fun i _ _ h => h.transNodeAddPath b i) h

theorem verifyNotInIters (h : Track strict st₀ d e T st) (b : ℕ) :
    Yields (MayStop strict) (bch2TransNodeVerifyNotInIters b) st fun _ st' =>
      Track strict st₀ d e T st' := by
  refine yields_get_bind ?_
  dsimp only
  split_ifs
  · exact yields_throw (mayStop_assertion strict)
  · exact yields_pure h

end Track

end Subvol

import Subvol.Interior.SplitLocks

/-!
# What the updates of the interior leave behind

A split, a merge and a rewrite take locks and paths and give them back on every way out. The holds of
everybody else and the references of all paths are the same before and behind, but for three ways out:
a merge whose node gets no sectors keeps its sources locked, a split releases the locks of its new
nodes again when a merge behind it fails, and an upgrade may give back the holds of other readers.

## Main definitions

* `InteriorCall`: a call of one of the three updates.
* `Restored`, `Balanced`: what it has to leave behind.
* `InteriorCall.Clear`: it does not come to one of the three ways out.

## Main results

* `Track.nodeRewrite`: a rewrite balances if and only if its upgrade is clear.
* `interiorCall_balanced_iff`: a call balances if and only if it is clear.
-/

namespace Subvol

open Lib

variable {strict : Bool} {st₀ st : TransLocks} {d e : Holds} {T : List (Fin 64)} {i i' : Fin 64}
  {level : Fin 4} {b n : ℕ}

/-! ### A rewrite -/

/-- The upgrade of a rewrite is clear, when it is made. -/
def RewriteClear (i : Fin 64) (st : TransLocks) : Prop :=
  ∀ b, ((st.path i).l (st.path i).level).b = some b →
    UpgradeClear i ((st.info b).level.val + 2) st

namespace Track

theorem rewriteFinish (h : Track strict st₀ d (e + hold b .write) (i' :: T) st) (n : ℕ) :
    Yields (MayStop strict) (rewriteFinish i' b n) st fun _ st' => Track strict st₀ d e T st' := by
  refine h.unlock.bind ?_
  rintro _ st₁ - h₁
  refine (h₁.transNodeAdd n).bind ?_
  rintro _ st₂ - h₂
  refine (h₂.verifyNotInIters b).bind ?_
  rintro _ st₃ - h₃
  exact h₃.pathPut

theorem rewriteInstall
    (h : Track strict st₀ d (e + hold b .write + newHolds n) (i' :: T) st) (env : RewriteEnv)
    (level : Fin 4) :
    Yields (MayStop strict) (rewriteInstall env i i' b n level) st fun _ st' =>
      Track strict st₀ d e T st' := by
  refine yields_get_bind ?_
  cases parentOf (st.path i) level with
  | none =>
    rw [add_right_comm] at h
    refine (h.rewriteFinish n).bind ?_
    rintro _ st₁ - h₁
    refine h₁.unlockNew.bind ?_
    rintro _ st₂ - h₂
    exact yields_pure h₂
  | some parent =>
    refine (h.nodeLockWrite (env.refused parent) parent).bind ?_
    rintro ok st₁ - h₁
    cases ok with
    | false =>
      rw [if_neg Bool.false_ne_true, add_zero] at h₁
      refine h₁.pathPut.bind ?_
      rintro _ st₂ - h₂
      refine h₂.unlockNew.bind ?_
      rintro _ st₃ - h₃
      refine h₃.unlock.bind ?_
      rintro _ st₄ - h₄
      exact yields_pure h₄
    | true =>
      rw [if_pos rfl] at h₁
      by_cases hparent : env.inParent = true
      · refine (yields_of_eq (if_pos hparent)).mpr ?_
        have hholds : e + hold b .write + newHolds n + hold parent .write =
            e + newHolds n + hold parent .write + hold b .write := by
          rw [add_right_comm e, add_right_comm _ (hold b .write)]
        rw [hholds] at h₁
        refine (h₁.rewriteFinish n).bind ?_
        rintro _ st₂ - h₂
        refine h₂.unlock.bind ?_
        rintro _ st₃ - h₃
        refine h₃.unlockNew.bind ?_
        rintro _ st₄ - h₄
        exact yields_pure h₄
      · refine (yields_of_eq (if_neg hparent)).mpr ?_
        refine h₁.pathPut.bind ?_
        rintro _ st₂ - h₂
        rw [add_right_comm] at h₂
        refine h₂.unlockNew.bind ?_
        rintro _ st₃ - h₃
        rw [add_right_comm] at h₃
        refine h₃.unlock.bind ?_
        rintro _ st₄ - h₄
        refine h₄.unlock.bind ?_
        rintro _ st₅ - h₅
        exact yields_pure h₅

/-- A rewrite balances if and only if its upgrade is clear. -/
theorem nodeRewrite (hcounted : pathHolds st.paths ≤ st.counts) (hi : (st.paths i).isSome)
    (env : RewriteEnv) (hclear : strict = true → RewriteClear i st) :
    Yields (MayStop strict) (bch2BtreeNodeRewrite env i) st fun _ st' =>
      CallLeft strict st (RewriteClear i st) st' := by
  refine yields_get_bind ?_
  dsimp only
  cases hb : ((st.path i).l (st.path i).level).b with
  | none =>
    refine yields_pure ⟨0, 0, start hcounted, iff_of_true rfl fun b hb' => ?_⟩
    rw [hb] at hb'
    cases hb'
  | some b =>
    dsimp only
    have hiff : RewriteClear i st ↔ UpgradeClear i ((st.info b).level.val + 2) st := by
      refine ⟨fun hcl => hcl b hb, fun hcl b' hb' => ?_⟩
      rw [hb] at hb'
      obtain rfl := Option.some.inj hb'
      exact hcl
    rw [hiff] at hclear ⊢
    refine ((start hcounted).upgrade hi _ hclear).bind ?_
    rintro ok st₁ - ⟨x, h₁, -, hzero, -⟩
    rw [zero_add] at h₁
    have hleft : ∀ {st' : TransLocks}, Track strict st x 0 [] st' →
        CallLeft strict st (UpgradeClear i ((st.info b).level.val + 2) st) st' := fun h' =>
      ⟨x, 0, h', hzero⟩
    cases ok with
    | false => exact yields_pure (hleft h₁)
    | true =>
      refine (h₁.nodeLockWrite (env.refused b) b).bind ?_
      rintro ok st₂ - h₂
      cases ok with
      | false =>
        rw [if_neg Bool.false_ne_true, add_zero] at h₂
        exact yields_pure (hleft h₂)
      | true =>
        rw [if_pos rfl] at h₂
        cases env.node with
        | none =>
          refine h₂.unlock.bind ?_
          rintro _ st₃ - h₃
          exact yields_pure (hleft h₃)
        | some n =>
          refine (h₂.lockNew n).bind ?_
          rintro _ st₃ - h₃
          refine (h₃.setInfo n _).bind ?_
          rintro _ st₄ - ⟨h₄, -⟩
          by_cases hvalid : ¬env.nodeValid = true
          · refine (yields_of_eq (if_pos hvalid)).mpr ?_
            exact yields_throw (mayStop_assertion strict)
          refine (yields_of_eq (if_neg hvalid)).mpr ?_
          refine (h₄.takeNew n).bind ?_
          rintro i' st₅ - h₅
          exact (h₅.rewriteInstall env _).mono fun _ _ h' => hleft h'

end Track

/-! ### The three updates -/

/-- A call of an update of the interior. -/
inductive InteriorCall where
  | splitLeaf (env : SplitEnv) (i : Fin 64)
  | merge (env : MergeEnv) (i : Fin 64) (level : Fin 4)
  | rewrite (env : RewriteEnv) (i : Fin 64)

namespace InteriorCall

/-- The path of the call. -/
def path : InteriorCall → Fin 64
  | splitLeaf _ i => i
  | merge _ i _ => i
  | rewrite _ i => i

/-- The call. -/
def run : InteriorCall → LockM ℤ
  | splitLeaf env i => bch2BtreeSplitLeaf env i
  | merge env i level => foregroundMaybeMerge env i level
  | rewrite env i => bch2BtreeNodeRewrite env i

/-- The call does not come to a way out that leaves something behind. -/
def Clear : InteriorCall → TransLocks → Prop
  | splitLeaf env i, st => SplitClear env i st
  | merge env i level, st => MergeClear env i level st
  | rewrite _ i, st => RewriteClear i st

end InteriorCall

/-- The holds that are not those of the paths are the same, no write hold is left, and so are the paths
with their references. -/
structure Restored (st st' : TransLocks) : Prop where
  holds : ∀ n ty,
    st'.counts n ty + pathHolds st.paths n ty = st.counts n ty + pathHolds st'.paths n ty
  write : ∀ n, st'.counts n .write ≤ st.counts n .write
  paths : ∀ i, Option.Rel (fun p p' => p'.ref = p.ref ∧ p'.intentRef = p.intentRef)
    (st.paths i) (st'.paths i)

/-- The call releases no lock that is not held, and leaves everything as it was when it returns. -/
def Balanced (c : InteriorCall) (st : TransLocks) : Prop :=
  c.run st ≠ .error .released ∧ ∀ ret st', c.run st = .ok (ret, st') → Restored st st'

/-- A write hold that a level records has been there before. -/
theorem PathLevel.write_le {v v' : PathLevel} (h : v'.lock = .write → v' = v) (n : ℕ) :
    v'.holds n .write ≤ v.holds n .write := by
  by_cases hlock : v'.lock = .write
  · rw [h hlock]
  · have hzero : v'.lock.holds .write = 0 := by
      cases hl : v'.lock <;> simp_all [NodeLocked.holds]
    rw [PathLevel.holds, hzero, ite_self]
    exact Nat.zero_le _

theorem KeptPath.write_le {p p' : BtreePath} (h : KeptPath p p') (n : ℕ) :
    p'.holds n .write ≤ p.holds n .write :=
  Finset.sum_le_sum fun l _ => PathLevel.write_le (h.write l) n

/-- Without paths of its own, an update has no new write locks in the paths. -/
theorem Track.write_le (h : Track strict st₀ d e [] st) (n : ℕ) :
    pathHolds st.paths n .write ≤ pathHolds st₀.paths n .write := by
  unfold pathHolds
  gcongr with j
  have hkept := h.kept j List.not_mem_nil
  generalize st.paths j = y at hkept
  generalize st₀.paths j = x at hkept
  cases hkept with
  | none => exact le_rfl
  | some hp => exact hp.write_le n

theorem Track.restored_iff (h : Track strict st₀ d e [] st) : Restored st₀ st ↔ d = e := by
  constructor
  · intro hres
    funext n ty
    have h₁ := congrFun₂ h.counts n ty
    have h₂ := hres.holds n ty
    simp only [Pi.add_apply] at h₁
    omega
  · rintro rfl
    have hholds : ∀ n ty,
        st.counts n ty + pathHolds st₀.paths n ty = st₀.counts n ty + pathHolds st.paths n ty := by
      intro n ty
      have h₁ := congrFun₂ h.counts n ty
      simp only [Pi.add_apply] at h₁
      omega
    refine ⟨hholds, fun n => ?_, fun j => ?_⟩
    · have h₁ := hholds n .write
      have h₂ := h.write_le n
      omega
    · have hkept := h.kept j List.not_mem_nil
      generalize st.paths j = y at hkept ⊢
      generalize st₀.paths j = x at hkept ⊢
      cases hkept with
      | none => exact .none
      | some hp => exact .some ⟨hp.ref, hp.intentRef⟩

/-- Read and write holds have nothing in common. -/
theorem OnlyType.eq_iff {x y : Holds} (hx : OnlyType .read x) (hy : OnlyType .write y) :
    x = y ↔ x = 0 ∧ y = 0 := by
  refine ⟨fun heq => ?_, fun ⟨hx₀, hy₀⟩ => hx₀.trans hy₀.symm⟩
  have hzero : x = 0 := by
    funext n ty
    by_cases hty : ty = .read
    · rw [heq]
      exact hy n ty (by rw [hty]; decide)
    · exact hx n ty hty
  exact ⟨hzero, heq ▸ hzero⟩

theorem interiorCall_left {c : InteriorCall} (hcounted : pathHolds st.paths ≤ st.counts)
    (hi : (st.paths c.path).isSome) (hclear : strict = true → c.Clear st) :
    Yields (MayStop strict) c.run st fun _ st' => CallLeft strict st (c.Clear st) st' := by
  cases c with
  | splitLeaf env i => exact Track.splitLeaf hcounted hi env hclear
  | merge env i level =>
    refine ((Track.start hcounted).merge hi env hclear).mono ?_
    rintro ret st₁ ⟨x, y, hleft⟩
    have h₁ := hleft.track
    rw [zero_add, zero_add] at h₁
    exact ⟨x, y, h₁, (hleft.reads.eq_iff hleft.writes).trans hleft.clear_iff⟩
  | rewrite env i => exact Track.nodeRewrite hcounted hi env hclear

/-- A call that does not fail in another way balances if and only if it is clear. -/
theorem interiorCall_balanced_iff (c : InteriorCall) (st : TransLocks)
    (hcounted : pathHolds st.paths ≤ st.counts) (hi : (st.paths c.path).isSome)
    (hstop : ∀ s, c.run st = .error s → s = .released) : Balanced c st ↔ c.Clear st := by
  constructor
  · rintro ⟨hreleased, hres⟩
    have hleft := interiorCall_left hcounted hi fun (hs : false = true) => absurd hs Bool.false_ne_true
    cases hrun : c.run st with
    | error s => exact absurd (hstop s hrun ▸ hrun) hreleased
    | ok r =>
      obtain ⟨d, e, htrack, hiff⟩ := (yields_of_ok hrun).mp hleft
      exact hiff.mp (htrack.restored_iff.mp (hres r.1 r.2 hrun))
  · intro hclear
    have hleft := interiorCall_left hcounted hi fun (_ : true = true) => hclear
    constructor
    · intro hrun
      exact absurd ((yields_of_error hrun).mp hleft rfl) (by decide)
    · intro ret st' hrun
      obtain ⟨d, e, htrack, hiff⟩ := (yields_of_ok hrun).mp hleft
      exact htrack.restored_iff.mpr (hiff.mpr hclear)

/-! ### Paths with a single reference -/

/-- With a single reference, a rewrite is clear. -/
theorem rewriteClear_of_ref (hcounted : pathHolds st.paths ≤ st.counts) (hi : (st.paths i).isSome)
    (href : (st.path i).ref ≤ 1) : RewriteClear i st := fun _ _ =>
  (Track.start hcounted).upgradeClear hi href _

/-- With a single reference, a merge is clear when its node gets its sectors. -/
theorem mergeClear_of_ref {env : MergeEnv} (hcounted : pathHolds st.paths ≤ st.counts)
    (hi : (st.paths i).isSome) (href : (st.path i).ref ≤ 1)
    (hdst : ∀ a ∈ env.dst, a.sectorsRet = 0) : MergeClear env i level st := by
  intro b srcs st₁ _ _ hgather
  have h₁ := (yields_of_ok hgather).mp ((Track.start hcounted : Track false ..).mergeGather hi env)
  exact ⟨h₁.1.upgradeClear hi href _, fun _ _ => hdst⟩

/-! ### A merge on a full device -/

/-- A path to the leaf 1 with its intent lock, below the root 3. -/
def leafPath : BtreePath where
  ref := 1
  intentRef := 1
  pos := ⟨1, 5, 0⟩
  locksWant := 1
  l l := if l = 0 then ⟨some 1, .intent⟩ else if l = 1 then ⟨some 3, .read⟩ else {}

/-- The leaves 1 and 2 below the root 3, and one path. -/
def twoLeaves : TransLocks where
  counts := hold 1 .intent + hold 3 .read
  mine n := n = 1
  info n :=
    if n = 1 then { maxKey := ⟨1, 10, 0⟩ }
    else if n = 2 then { minKey := ⟨1, 10, 1⟩ }
    else if n = 3 then { level := 1 }
    else {}
  paths := Function.update (fun _ => none) 1 (some leafPath)

/-- The leaf 1 and its right sibling fit in one node; the return value of the allocation of sectors. -/
def mergeTwo (sectorsRet : ℤ) : MergeEnv where
  left := ⟨true, { root := some 3, child := fun _ => .ok 1 }⟩
  right := ⟨false, { root := some 3, child := fun _ => .ok 2 }⟩
  liveU64s _ := 5
  nrDsts _ := 1
  nrDstsHalf _ := 1
  fitsOne _ := true
  dst := some ⟨4, sectorsRet⟩
  inParent _ := true

theorem leafPath_holds : leafPath.holds = hold 1 .intent + hold 3 .read := by
  funext n ty
  have hzero : (leafPath.l 0).holds = hold 1 .intent := PathLevel.holds_intent 1
  have hone : (leafPath.l 1).holds = hold 3 .read := PathLevel.holds_read 3
  have htwo : (leafPath.l 2).holds = 0 := PathLevel.holds_of_none rfl
  have hthree : (leafPath.l 3).holds = 0 := PathLevel.holds_of_none rfl
  rw [BtreePath.holds, Fin.sum_univ_four, hzero, hone, htwo, hthree]
  rfl

theorem pathHolds_single (i : Fin 64) (p : BtreePath) :
    pathHolds (Function.update (fun _ => none) i (some p)) = p.holds := by
  have hpaths := pathHolds_update (fun _ => none) i (some p)
  funext n ty
  have hat := congrFun₂ hpaths n ty
  have hnone : pathHolds (fun _ => none) n ty = 0 := Finset.sum_eq_zero fun _ _ => rfl
  simp only [Pi.add_apply, hnone] at hat
  change _ + 0 = 0 + p.holds n ty at hat
  omega

theorem twoLeaves_counted : pathHolds twoLeaves.paths ≤ twoLeaves.counts := by
  have hpaths : pathHolds twoLeaves.paths = leafPath.holds := pathHolds_single 1 leafPath
  rw [hpaths, leafPath_holds]
  exact le_refl (hold 1 .intent + hold 3 .read)

/-- Without space, a merge of two leaves returns with both of them locked. -/
theorem mergeTwo_keeps_locks :
    ((foregroundMaybeMerge (mergeTwo (-28)) 1 0 twoLeaves).map fun r =>
      (r.1, r.2.counts 1 .write, r.2.counts 2 .write)).toOption = some (-28, 1, 1) ∧
    twoLeaves.counts 1 .write = 0 ∧ twoLeaves.counts 2 .write = 0 ∧
    ¬Balanced (.merge (mergeTwo (-28)) 1 0) twoLeaves := by
  have hrun : ((foregroundMaybeMerge (mergeTwo (-28)) 1 0 twoLeaves).map fun r =>
      (r.1, r.2.counts 1 .write, r.2.counts 2 .write)).toOption = some (-28, 1, 1) := by
    decide +kernel
  refine ⟨hrun, rfl, rfl, fun hbal => ?_⟩
  cases hres : foregroundMaybeMerge (mergeTwo (-28)) 1 0 twoLeaves with
  | error s =>
    rw [hres] at hrun
    cases hrun
  | ok r =>
    rw [hres] at hrun
    have hwrite : r.2.counts 1 .write = 1 :=
      congrArg (fun x => x.2.1) (Option.some.inj hrun)
    have hle := (hbal.2 r.1 r.2 hres).write 1
    rw [hwrite] at hle
    exact absurd hle (by decide)

/-- With space, it leaves nothing behind. -/
theorem mergeTwo_balanced :
    pathHolds twoLeaves.paths ≤ twoLeaves.counts ∧ Balanced (.merge (mergeTwo 0) 1 0) twoLeaves := by
  refine ⟨twoLeaves_counted, ?_⟩
  have hok : (foregroundMaybeMerge (mergeTwo 0) 1 0 twoLeaves).isOk = true := by decide +kernel
  refine (interiorCall_balanced_iff (.merge (mergeTwo 0) 1 0) twoLeaves twoLeaves_counted rfl
    fun s hrun => ?_).mpr ?_
  · change foregroundMaybeMerge _ _ _ _ = _ at hrun
    rw [hrun] at hok
    cases hok
  · refine mergeClear_of_ref twoLeaves_counted rfl (by decide) fun a ha => ?_
    obtain rfl := Option.some.inj ha
    rfl

end Subvol

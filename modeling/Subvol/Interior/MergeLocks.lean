import Subvol.Interior.Update
import Subvol.Interior.Upgrade

/-!
# The locks of a merge

A merge gives back what it has taken on every way out but one: when the node for the keys gets no
sectors, it returns with the write locks of its sources.

## Main definitions

* `MergeClear`: the merge does not come to that exit, and its upgrade is clear.

## Main results

* `Track.allocateNode`, `Track.takeNew`, `Track.unlockNew`: the nodes that an update makes.
* `Track.merge`: what a merge leaves behind.
-/

namespace Subvol

open Lib

variable {strict : Bool} {st₀ st : TransLocks} {d e : Holds} {T : List (Fin 64)} {i : Fin 64}
  {level : Fin 4} {b n : ℕ}

/-! ### New nodes -/

/-- Both locks of a new node. -/
def newHolds (n : ℕ) : Holds := hold n .intent + hold n .write

namespace Track

theorem setInfo (h : Track strict st₀ d e T st) (n : ℕ) (info : NodeInfo) :
    Yields (MayStop strict) (setInfo n info) st fun _ st' =>
      Track strict st₀ d e T st' ∧ st'.info n = info :=
  ⟨h.of_counts rfl rfl, Function.update_self ..⟩

theorem lockNew (h : Track strict st₀ d e T st) (n : ℕ) :
    Yields (MayStop strict) (lockNew n) st fun _ st' => Track strict st₀ d (e + newHolds n) T st' := by
  refine (h.lock false .intent n).bind ?_
  rintro ok st₁ - h₁
  cases ok with
  | false => exact yields_throw (mayStop_assertion strict)
  | true =>
    refine (h₁.lock false .write n).bind ?_
    rintro ok st₂ - h₂
    cases ok with
    | false => exact yields_throw (mayStop_assertion strict)
    | true =>
      rw [if_pos rfl, if_pos rfl, add_assoc] at h₂
      exact yields_pure h₂

theorem unlockNew (h : Track strict st₀ d (e + newHolds n) T st) :
    Yields (MayStop strict) (unlockNew n) st fun _ st' => Track strict st₀ d e T st' := by
  rw [newHolds, ← add_assoc] at h
  refine h.unlock.bind ?_
  rintro _ st₁ - h₁
  exact h₁.unlock

/-- A node is allocated with both locks, or not at all. -/
theorem allocateNode (h : Track strict st₀ d e T st) (a : Option NewNode) (info : NodeInfo) :
    Yields (MayStop strict) (allocateNode a info) st fun r st' =>
      match r with
      | .inl ret => Track strict st₀ d e T st' ∧ ∃ x, a = some x ∧ x.sectorsRet = ret ∧ ret ≠ 0
      | .inr n => Track strict st₀ d (e + newHolds n) T st' ∧ (∀ x ∈ a, x.sectorsRet = 0) ∧
        st'.info n = info := by
  cases a with
  | none => exact yields_throw (mayStop_assertion strict)
  | some x =>
    refine (h.lockNew x.node).bind ?_
    rintro _ st₁ - h₁
    refine (h₁.setInfo x.node info).bind ?_
    rintro _ st₂ - ⟨h₂, hinfo⟩
    split_ifs with hret
    · refine h₂.unlockNew.bind ?_
      rintro _ st₃ - h₃
      exact yields_pure ⟨h₃, x, rfl, rfl, hret⟩
    · refine yields_pure ⟨h₂, fun y hy => ?_, hinfo⟩
      obtain rfl := Option.some.inj hy
      exact not_not.mp hret

/-- A new node gets a path of the update. -/
theorem takeNew (h : Track strict st₀ d e T st) (n : ℕ) :
    Yields (MayStop strict) (takeNew n) st fun i st' => Track strict st₀ d e (i :: T) st' := by
  refine yields_get_bind ?_
  dsimp only
  refine Yields.bind (Q := fun i st' => Track strict st₀ d e (i :: T) st' ∧
    ∃ p, st'.paths i = some p ∧ ∀ l, p.l l = {}) ?_ ?_
  · refine (h.pathGet _ _ _ _).bind ?_
    rintro i st₁ - ⟨h₁, -, p, hp, -⟩
    refine (btreePathUnlock_yields hp fun hs => h₁.path_le hs hp).bind ?_
    rintro _ st₂ - ⟨p', hempty, hstep⟩
    exact yields_pure ⟨h₁.step hp hstep fun hnot => absurd List.mem_cons_self hnot,
      p', hstep.at_self, hempty⟩
  · rintro i st₁ - ⟨h₁, p, hp, hempty⟩
    refine (h₁.takeNewNode List.mem_cons_self hp n (by rw [hempty])).bind ?_
    rintro _ st₂ - h₂
    exact yields_pure h₂

end Track

/-! ### The sources of a merge -/

/-- The paths of the siblings among the sources. -/
def siblingPaths (i : Fin 64) (srcs : List MergeSource) : List (Fin 64) :=
  (srcs.filter fun s => s.path ≠ i).map MergeSource.path

theorem siblingPaths_append (i : Fin 64) (srcs srcs' : List MergeSource) :
    siblingPaths i (srcs ++ srcs') = siblingPaths i srcs ++ siblingPaths i srcs' := by
  rw [siblingPaths, List.filter_append, List.map_append, siblingPaths, siblingPaths]

theorem siblingPaths_cons_of_ne {s : MergeSource} (hs : s.path ≠ i) (srcs : List MergeSource) :
    siblingPaths i (s :: srcs) = s.path :: siblingPaths i srcs := by
  rw [siblingPaths, List.filter_cons_of_pos (by simpa using hs), List.map_cons, siblingPaths]

theorem siblingPaths_cons_of_eq {s : MergeSource} (hs : s.path = i) (srcs : List MergeSource) :
    siblingPaths i (s :: srcs) = siblingPaths i srcs := by
  rw [siblingPaths, List.filter_cons_of_neg (by simpa using hs), siblingPaths]

/-- The write locks of the sources. -/
def writeHolds (srcs : List MergeSource) : Holds := (srcs.map fun s => hold s.b .write).sum

theorem writeHolds_cons (s : MergeSource) (srcs : List MergeSource) :
    writeHolds (s :: srcs) = hold s.b .write + writeHolds srcs := by
  rw [writeHolds, List.map_cons, List.sum_cons, writeHolds]

theorem writeHolds_concat (srcs : List MergeSource) (s : MergeSource) :
    writeHolds (srcs ++ [s]) = writeHolds srcs + hold s.b .write := by
  rw [writeHolds, List.map_append, List.sum_append, List.map_singleton, List.sum_singleton,
    writeHolds]

theorem onlyType_writeHolds (srcs : List MergeSource) : OnlyType .write (writeHolds srcs) := by
  induction srcs with
  | nil => exact onlyType_zero _
  | cons s srcs ih =>
    rw [writeHolds_cons]
    exact .add (fun n t ht => if_neg fun h => ht h.2) ih

theorem writeHolds_ne_zero {srcs : List MergeSource} (hne : srcs ≠ []) : writeHolds srcs ≠ 0 := by
  obtain ⟨s, rest, rfl⟩ := List.exists_cons_of_ne_nil hne
  rw [writeHolds_cons]
  intro hzero
  have hone := congrFun₂ (holds_add_eq_zero.mp hzero).1 s.b .write
  rw [hold_self] at hone
  exact absurd hone one_ne_zero

/-- The sources are the node of the path with at most one sibling on either side. -/
def MergeShape (i : Fin 64) (srcs : List MergeSource) : Prop :=
  ∃ left pivot right, srcs = left ++ pivot :: right ∧ left.length ≤ 1 ∧ right.length ≤ 1 ∧
    pivot.path = i ∧ ∀ s ∈ left ++ right, s.path ≠ i

theorem MergeShape.ne_nil {srcs : List MergeSource} (h : MergeShape i srcs) : srcs ≠ [] := by
  obtain ⟨left, pivot, right, rfl, -⟩ := h
  exact List.append_ne_nil_of_right_ne_nil _ (List.cons_ne_nil _ _)

theorem MergeShape.siblingPaths_eq_nil {srcs : List MergeSource} (h : MergeShape i srcs)
    (hone : srcs.length = 1) : siblingPaths i srcs = [] := by
  obtain ⟨left, pivot, right, rfl, -, -, hpivot, -⟩ := h
  rw [List.length_append, List.length_cons] at hone
  obtain rfl : left = [] := List.length_eq_zero_iff.mp (by omega)
  obtain rfl : right = [] := List.length_eq_zero_iff.mp (by omega)
  exact siblingPaths_cons_of_eq hpivot []

namespace Track

theorem putSiblings {srcs : List MergeSource} (h : Track strict st₀ d e (siblingPaths i srcs ++ T) st) :
    Yields (MayStop strict) (mergePutSiblingPaths i srcs) st fun _ st' =>
      Track strict st₀ d e T st' := by
  refine yields_forM (fun rest st' => Track strict st₀ d e (siblingPaths i rest ++ T) st') ?_ h
  intro s rest st' h'
  split_ifs with hs
  · rw [siblingPaths_cons_of_ne hs] at h'
    exact h'.pathPut
  · rw [siblingPaths_cons_of_eq (not_not.mp hs)] at h'
    exact yields_pure h'

theorem unlockSources {srcs : List MergeSource} (h : Track strict st₀ d (e + writeHolds srcs) T st) :
    Yields (MayStop strict) (forM srcs fun s => sixUnlock .write s.b) st fun _ st' =>
      Track strict st₀ d e T st' := by
  refine (yields_forM (fun rest st' => Track strict st₀ d (e + writeHolds rest) T st') ?_ h).mono
    fun _ st' h' => ?_
  · intro s rest st' h'
    rw [writeHolds_cons, add_comm (hold s.b .write), ← add_assoc] at h'
    exact h'.unlock
  · exact (add_zero e) ▸ h'

/-- A sibling that is pushed has a path of the update. -/
theorem mergePushPos (h : Track strict st₀ d e T st) (hi : (st₀.paths i).isSome) (env : MergeEnv)
    (right : Bool) :
    Yields (MayStop strict) (bch2BtreeMergePushPos env i level right) st fun r st' =>
      Track strict st₀ d e (siblingPaths i r.2.toList ++ T) st' ∧
      (∀ s ∈ r.2.toList, s.path ≠ i) ∧ (r.1 ≠ 0 → r.2 = none) := by
  have hleft : ∀ {ret : ℤ} {st' : TransLocks}, Track strict st₀ d e T st' →
      Track strict st₀ d e (siblingPaths i (ret, (none : Option MergeSource)).2.toList ++ T) st' ∧
      (∀ s ∈ (ret, (none : Option MergeSource)).2.toList, s.path ≠ i) ∧
      ((ret, (none : Option MergeSource)).1 ≠ 0 → (ret, (none : Option MergeSource)).2 = none) :=
    fun h' => ⟨h', fun s hs => absurd hs List.not_mem_nil, fun _ => rfl⟩
  have hput : ∀ {sib : Fin 64} {ret : ℤ} {st' : TransLocks}, Track strict st₀ d e (sib :: T) st' →
      Yields (MayStop strict) (do bch2PathPut sib; pure (ret, (none : Option MergeSource))) st'
        fun r st' => Track strict st₀ d e (siblingPaths i r.2.toList ++ T) st' ∧
          (∀ s ∈ r.2.toList, s.path ≠ i) ∧ (r.1 ≠ 0 → r.2 = none) := by
    intro sib ret st' h'
    refine h'.pathPut.bind ?_
    rintro _ st'' - h''
    exact yields_pure (hleft h'')
  refine yields_get_bind ?_
  dsimp only
  generalize (if right = true then env.right else env.left) = push
  cases ((st.path i).l level).b with
  | none => exact yields_throw (mayStop_assertion strict)
  | some pivot =>
    dsimp only
    by_cases hskip : push.skip = true
    · rw [if_pos hskip]
      exact yields_pure (hleft h)
    rw [if_neg hskip]
    cases siblingPos right (st.info pivot) with
    | none => exact yields_throw (mayStop_assertion strict)
    | some pos =>
      refine (h.pathGet _ _ _ _).bind ?_
      rintro sib st₁ - ⟨h₁, hfree, p, hp, hempty⟩
      have hsib : sib ≠ i := fun heq => by
        have hsome := h.isSome hi
        rw [← heq, hfree] at hsome
        cases hsome
      refine (h₁.traverse List.mem_cons_self hp hempty push.walk).bind ?_
      rintro ret st₂ - h₂
      by_cases hret : ret ≠ 0
      · rw [if_pos hret]
        exact hput h₂
      rw [if_neg hret]
      refine yields_get_bind ?_
      cases ((st₂.path sib).l level).b with
      | none => exact hput h₂
      | some b =>
        dsimp only
        split_ifs
        · exact hput h₂
        · exact yields_throw (mayStop_assertion strict)
        · refine yields_pure ⟨?_, fun s hs => ?_, fun hne => absurd rfl hne⟩
          · rw [Option.toList_some, siblingPaths_cons_of_ne hsib]
            exact h₂
          · obtain rfl := List.mem_singleton.mp hs
            exact hsib

/-- Of three sources, one at an end may be taken out. -/
theorem dropSource {srcs : List MergeSource} (h : Track strict st₀ d e (siblingPaths i srcs ++ T) st)
    (hshape : MergeShape i srcs) (env : MergeEnv) :
    Yields (MayStop strict) (dropSource env srcs) st fun r st' =>
      Track strict st₀ d e (siblingPaths i r.1 ++ T) st' ∧ MergeShape i r.1 := by
  unfold Subvol.dropSource
  split
  · rename_i s₀ s₁ s₂
    obtain ⟨left, pivot, right, heq, hleft, hright, hpivot, hsibs⟩ := hshape
    obtain ⟨rfl, rfl, rfl⟩ : left = [s₀] ∧ pivot = s₁ ∧ right = [s₂] := by
      rcases left with _ | ⟨s, _ | ⟨s', left⟩⟩
      · have hlen := congrArg List.length heq
        simp only [List.nil_append, List.length_cons, List.length_nil] at hlen
        omega
      · obtain ⟨rfl, rfl, rfl⟩ : s₀ = s ∧ s₁ = pivot ∧ [s₂] = right := by simpa using heq
        exact ⟨rfl, rfl, rfl⟩
      · simp at hleft
    have h₀ : s₀.path ≠ pivot.path := hpivot ▸ hsibs s₀ (by simp)
    have h₂ : s₂.path ≠ pivot.path := hpivot ▸ hsibs s₂ (by simp)
    subst hpivot
    rw [siblingPaths_cons_of_ne h₀, siblingPaths_cons_of_eq rfl, siblingPaths_cons_of_ne h₂] at h
    split_ifs
    · refine (h.perm (List.Perm.swap ..)).pathPut.bind ?_
      rintro _ st₁ - h₁
      refine yields_pure ⟨?_, [s₀], pivot, [], rfl, le_rfl, zero_le_one, rfl, ?_⟩
      · rw [siblingPaths_cons_of_ne h₀, siblingPaths_cons_of_eq rfl]
        exact h₁
      · exact fun s hs => (List.mem_singleton.mp hs) ▸ h₀
    · refine h.pathPut.bind ?_
      rintro _ st₁ - h₁
      refine yields_pure ⟨?_, [], pivot, [s₂], rfl, zero_le_one, le_rfl, rfl, ?_⟩
      · rw [siblingPaths_cons_of_eq rfl, siblingPaths_cons_of_ne h₂]
        exact h₁
      · exact fun s hs => (List.mem_singleton.mp hs) ▸ h₂
    · refine yields_pure ⟨?_, [s₀], pivot, [s₂], rfl, le_rfl, le_rfl, rfl, hsibs⟩
      rw [siblingPaths_cons_of_ne h₀, siblingPaths_cons_of_eq rfl, siblingPaths_cons_of_ne h₂]
      exact h
  · exact yields_pure ⟨h, hshape⟩

theorem computeMerge {srcs : List MergeSource} (h : Track strict st₀ d e (siblingPaths i srcs ++ T) st)
    (hshape : MergeShape i srcs) (env : MergeEnv) :
    Yields (MayStop strict) (computeMerge env srcs) st fun r st' =>
      Track strict st₀ d e (siblingPaths i r.1 ++ T) st' ∧ MergeShape i r.1 := by
  refine (h.dropSource hshape env).bind ?_
  rintro ⟨srcs, nr⟩ st₁ - h₁
  dsimp only
  split_ifs <;> exact yields_pure h₁

/-- The sources are collected, or nothing is left of them. -/
theorem mergeGather (h : Track strict st₀ d e T st) (hi : (st₀.paths i).isSome) (env : MergeEnv) :
    Yields (MayStop strict) (mergeGather env i level b) st fun r st' =>
      match r with
      | .inl _ => Track strict st₀ d e T st'
      | .inr srcs => Track strict st₀ d e (siblingPaths i srcs ++ T) st' ∧ srcs ≠ [] := by
  have hput : ∀ {ret : ℤ} {srcs : List MergeSource} {st' : TransLocks},
      Track strict st₀ d e (siblingPaths i srcs ++ T) st' →
      Yields (MayStop strict) (do mergePutSiblingPaths i srcs; pure (Sum.inl ret)) st'
        fun (r : ℤ ⊕ List MergeSource) st' => match r with
        | .inl _ => Track strict st₀ d e T st'
        | .inr srcs => Track strict st₀ d e (siblingPaths i srcs ++ T) st' ∧ srcs ≠ [] := by
    intro ret srcs st' h'
    refine h'.putSiblings.bind ?_
    rintro _ st'' - h''
    exact yields_pure h''
  unfold Subvol.mergeGather
  refine (h.mergePushPos hi env false).bind ?_
  rintro ⟨ret, left⟩ st₁ - ⟨h₁, hleft, hnone⟩
  dsimp only
  by_cases hret : ret ≠ 0
  · rw [if_pos hret]
    obtain rfl : left = none := hnone hret
    exact yields_pure h₁
  rw [if_neg hret]
  refine (h₁.mergePushPos hi env true).bind ?_
  rintro ⟨ret, right⟩ st₂ - ⟨h₂, hright, hnone⟩
  dsimp only
  have hpivot : siblingPaths i [⟨b, i, env.liveU64s b⟩] = [] := siblingPaths_cons_of_eq rfl []
  by_cases hret : ret ≠ 0
  · rw [if_pos hret]
    obtain rfl : right = none := hnone hret
    refine hput ?_
    rw [siblingPaths_append, hpivot, List.append_nil]
    exact h₂
  rw [if_neg hret]
  have hshape : MergeShape i (left.toList ++ [⟨b, i, env.liveU64s b⟩] ++ right.toList) := by
    refine ⟨left.toList, ⟨b, i, env.liveU64s b⟩, right.toList, by simp, ?_, ?_, rfl, fun s hs => ?_⟩
    · cases left <;> simp
    · cases right <;> simp
    · exact (List.mem_append.mp hs).elim (hleft s) (hright s)
  have h₂' : Track strict st₀ d e
      (siblingPaths i (left.toList ++ [⟨b, i, env.liveU64s b⟩] ++ right.toList) ++ T) st₂ := by
    rw [siblingPaths_append, siblingPaths_append, hpivot, List.append_nil]
    refine h₂.perm ?_
    rw [← List.append_assoc]
    exact List.perm_append_comm.append_right T
  generalize left.toList ++ [⟨b, i, env.liveU64s b⟩] ++ right.toList = srcs at hshape h₂' ⊢
  by_cases hone : srcs.length = 1
  · rw [if_pos hone]
    rw [hshape.siblingPaths_eq_nil hone] at h₂'
    exact yields_pure h₂'
  rw [if_neg hone]
  refine (h₂'.computeMerge hshape env).bind ?_
  rintro ⟨srcs₁, nr₁⟩ st₃ - ⟨h₃, hshape₁⟩
  dsimp only
  by_cases hfew : srcs₁.length ≤ nr₁
  · rw [if_pos hfew]
    exact hput h₃
  rw [if_neg hfew]
  refine yields_get_bind ?_
  by_cases htop : ¬btreeMergeTopologyCheck st₃.info srcs₁ = true
  · rw [if_pos htop]
    exact hput h₃
  rw [if_neg htop]
  refine (h₃.computeMerge hshape₁ env).bind ?_
  rintro ⟨srcs₂, nr₂⟩ st₄ - ⟨h₄, hshape₂⟩
  dsimp only
  by_cases hfew : srcs₂.length ≤ nr₂
  · rw [if_pos hfew]
    exact hput h₄
  rw [if_neg hfew]
  exact yields_pure ⟨h₄, hshape₂.ne_nil⟩

/-- The sources are locked one after the other, or none of them is. -/
theorem lockSources {done todo : List MergeSource}
    (h : Track strict st₀ d (e + writeHolds done) T st) (refused : ℕ → Bool) :
    Yields (MayStop strict) (lockSources refused done todo) st fun ok st' =>
      Track strict st₀ d (e + if ok then writeHolds (done ++ todo) else 0) T st' := by
  induction todo generalizing done st with
  | nil =>
    refine yields_pure ?_
    rw [List.append_nil, if_pos rfl]
    exact h
  | cons s todo ih =>
    refine (h.nodeLockWrite (refused s.b) s.b).bind ?_
    rintro ok st₁ - h₁
    cases ok with
    | false =>
      rw [if_neg Bool.false_ne_true, add_zero] at h₁
      refine h₁.unlockSources.bind ?_
      rintro _ st₂ - h₂
      refine yields_pure ?_
      rw [if_neg Bool.false_ne_true, add_zero]
      exact h₂
    | true =>
      rw [if_pos rfl, add_assoc, ← writeHolds_concat] at h₁
      have hrest := ih h₁
      rw [List.append_assoc] at hrest
      exact hrest

/-- The path is upgraded and the sources are locked, or nothing is left of them. -/
theorem mergeLock {srcs : List MergeSource} (h : Track strict st₀ d e (siblingPaths i srcs ++ T) st)
    (hi : (st₀.paths i).isSome) (env : MergeEnv)
    (hclear : strict = true → UpgradeClear i (level.val + 2) st) :
    Yields (MayStop strict) (mergeLock env i level srcs) st fun r st' => ∃ x,
      OnlyType .read x ∧ (x = 0 ↔ UpgradeClear i (level.val + 2) st) ∧
      match r with
      | some ret => Track strict st₀ (d + x) e T st' ∧ ret ≠ 0
      | none => Track strict st₀ (d + x) (e + writeHolds srcs) (siblingPaths i srcs ++ T) st' := by
  have hput : ∀ {ret : ℤ} {st' : TransLocks} {x : Holds}, ret ≠ 0 → OnlyType .read x →
      (x = 0 ↔ UpgradeClear i (level.val + 2) st) →
      Track strict st₀ (d + x) e (siblingPaths i srcs ++ T) st' →
      Yields (MayStop strict) (do mergePutSiblingPaths i srcs; pure (some ret)) st'
        fun (r : Option ℤ) st' => ∃ x, OnlyType .read x ∧
          (x = 0 ↔ UpgradeClear i (level.val + 2) st) ∧ match r with
          | some ret => Track strict st₀ (d + x) e T st' ∧ ret ≠ 0
          | none => Track strict st₀ (d + x) (e + writeHolds srcs) (siblingPaths i srcs ++ T) st' := by
    intro ret st' x hret honly hzero h'
    refine h'.putSiblings.bind ?_
    rintro _ st'' - h''
    exact yields_pure ⟨x, honly, hzero, h'', hret⟩
  refine (h.upgrade (h.isSome hi) _ hclear).bind ?_
  rintro ok st₁ - ⟨x, h₁, honly, hzero, -⟩
  cases ok with
  | false => exact hput (by decide) honly hzero h₁
  | true =>
    have h₁' : Track strict st₀ (d + x) (e + writeHolds []) (siblingPaths i srcs ++ T) st₁ := by
      rw [writeHolds, List.map_nil, List.sum_nil, add_zero]
      exact h₁
    refine (h₁'.lockSources env.refused).bind ?_
    rintro ok st₂ - h₂
    cases ok with
    | false =>
      rw [if_neg Bool.false_ne_true, add_zero] at h₂
      exact hput (by decide) honly hzero h₂
    | true => exact yields_pure ⟨x, honly, hzero, h₂⟩

/-- Behind the locks, a merge gives everything back unless its node gets no sectors. -/
theorem mergeInstall {srcs : List MergeSource}
    (h : Track strict st₀ d (e + writeHolds srcs) (siblingPaths i srcs ++ T) st) (env : MergeEnv) :
    Yields (MayStop strict) (mergeInstall env i level b srcs) st fun ret st' =>
      (∀ a ∈ env.dst, a.sectorsRet = 0) ∧ Track strict st₀ d e T st' ∨
      (¬∀ a ∈ env.dst, a.sectorsRet = 0) ∧ ret ≠ 0 ∧
        Track strict st₀ d (e + writeHolds srcs) T st' := by
  refine yields_get_bind ?_
  dsimp only
  refine (h.allocateNode env.dst _).bind ?_
  rintro r st₁ - hr
  cases r with
  | inl ret =>
    obtain ⟨h₁, a, ha, haret, hret⟩ := hr
    refine h₁.putSiblings.bind ?_
    rintro _ st₂ - h₂
    exact yields_pure (.inr ⟨fun hall => hret (haret ▸ hall a ha), hret, h₂⟩)
  | inr n =>
    obtain ⟨h₁, hgot, -⟩ := hr
    dsimp only
    by_cases hvalid : ¬env.dstValid = true
    · rw [if_pos hvalid]
      exact yields_throw (mayStop_assertion strict)
    rw [if_neg hvalid]
    refine yields_get_bind ?_
    cases ((st₁.path i).l (level + 1)).b with
    | none => exact yields_throw (mayStop_assertion strict)
    | some parent =>
      refine (h₁.nodeLockWrite (env.refused parent) parent).bind ?_
      rintro ok st₂ - h₂
      cases ok with
      | false =>
        rw [if_neg Bool.false_ne_true, add_zero] at h₂
        refine h₂.unlockNew.bind ?_
        rintro _ st₃ - h₃
        refine h₃.unlockSources.bind ?_
        rintro _ st₄ - h₄
        refine h₄.putSiblings.bind ?_
        rintro _ st₅ - h₅
        exact yields_pure (.inl ⟨hgot, h₅⟩)
      | true =>
        rw [if_pos rfl] at h₂
        have hparent : e + writeHolds srcs + newHolds n + hold parent .write =
            e + newHolds n + hold parent .write + writeHolds srcs := by
          rw [add_right_comm e, add_right_comm _ (writeHolds srcs)]
        by_cases hall : (srcs.all fun s => env.inParent s.b) = true
        · refine (yields_of_eq (if_pos hall)).mpr ?_
          rw [hparent] at h₂
          refine h₂.unlockSources.bind ?_
          rintro _ st₃ - h₃
          refine (h₃.transNodeAdd n).bind ?_
          rintro _ st₄ - h₄
          refine (yields_forM (fun _ st' => Track strict st₀ d (e + newHolds n + hold parent .write)
            (siblingPaths i srcs ++ T) st') (fun s _ _ h' => h'.verifyNotInIters s.b) h₄).bind ?_
          rintro _ st₅ - h₅
          refine h₅.putSiblings.bind ?_
          rintro _ st₆ - h₆
          refine h₆.unlock.bind ?_
          rintro _ st₇ - h₇
          refine h₇.unlockNew.bind ?_
          rintro _ st₈ - h₈
          exact yields_pure (.inl ⟨hgot, h₈⟩)
        · refine (yields_of_eq (if_neg hall)).mpr ?_
          rw [add_right_comm _ (newHolds n)] at h₂
          refine h₂.unlockNew.bind ?_
          rintro _ st₃ - h₃
          rw [add_right_comm] at h₃
          refine h₃.unlockSources.bind ?_
          rintro _ st₄ - h₄
          refine h₄.putSiblings.bind ?_
          rintro _ st₅ - h₅
          refine h₅.unlock.bind ?_
          rintro _ st₆ - h₆
          exact yields_pure (.inl ⟨hgot, h₆⟩)

end Track

/-! ### A merge -/

/-- The upgrade of a merge is clear, and its node gets its sectors when the sources are locked. -/
def MergeClear (env : MergeEnv) (i : Fin 64) (level : Fin 4) (st : TransLocks) : Prop :=
  ∀ b srcs st₁, ((st.path i).l level).b = some b → level ≠ 3 →
    mergeGather env i level b st = .ok (.inr srcs, st₁) →
    UpgradeClear i (level.val + 2) st₁ ∧
    ∀ st₂, mergeLock env i level srcs st₁ = .ok (none, st₂) → ∀ a ∈ env.dst, a.sectorsRet = 0

/-- What a merge leaves behind: read holds `x` that it has given back for others, and write locks
`y` that it has kept. It only keeps locks when it fails. -/
structure MergeLeft (strict : Bool) (st₀ : TransLocks) (d e : Holds) (T : List (Fin 64))
    (clear : Prop) (ret : ℤ) (st : TransLocks) (x y : Holds) : Prop where
  track : Track strict st₀ (d + x) (e + y) T st
  reads : OnlyType .read x
  writes : OnlyType .write y
  clear_iff : x = 0 ∧ y = 0 ↔ clear
  failed : y ≠ 0 → ret ≠ 0

theorem MergeLeft.nothing {clear : Prop} {ret : ℤ} (h : Track strict st₀ d e T st) (hclear : clear) :
    MergeLeft strict st₀ d e T clear ret st 0 0 where
  track := by rwa [add_zero, add_zero]
  reads := onlyType_zero _
  writes := onlyType_zero _
  clear_iff := iff_of_true ⟨rfl, rfl⟩ hclear
  failed hne := absurd rfl hne

namespace Track

/-- A merge leaves nothing behind if and only if it is clear. -/
theorem merge (h : Track strict st₀ d e T st) (hi : (st₀.paths i).isSome) (env : MergeEnv)
    (hclear : strict = true → MergeClear env i level st) :
    Yields (MayStop strict) (foregroundMaybeMerge env i level) st fun ret st' =>
      ∃ x y, MergeLeft strict st₀ d e T (MergeClear env i level st) ret st' x y := by
  refine yields_get_bind ?_
  cases hb : ((st.path i).l level).b with
  | none => exact yields_throw (mayStop_assertion strict)
  | some b =>
    dsimp only
    by_cases hlevel : level = 3
    · rw [if_pos hlevel]
      exact yields_throw (mayStop_assertion strict)
    rw [if_neg hlevel]
    -- the condition speaks of the only sources there are
    refine (h.mergeGather hi env).bind ?_
    rintro r st₁ hgather hr
    cases r with
    | inl ret =>
      refine yields_pure ⟨0, 0, .nothing hr ?_⟩
      intro b' srcs st' hb' _ hgather'
      obtain rfl := Option.some.inj (hb.symm.trans hb')
      rw [hgather] at hgather'
      cases hgather'
    | inr srcs =>
      obtain ⟨h₁, hne⟩ := hr
      have hiff : MergeClear env i level st ↔ UpgradeClear i (level.val + 2) st₁ ∧
          ∀ st₂, Subvol.mergeLock env i level srcs st₁ = .ok (none, st₂) →
            ∀ a ∈ env.dst, a.sectorsRet = 0 := by
        refine ⟨fun hcl => hcl b srcs st₁ hb hlevel hgather, fun hcl => ?_⟩
        intro b' srcs' st' hb' _ hgather'
        obtain rfl := Option.some.inj (hb.symm.trans hb')
        rw [hgather] at hgather'
        cases hgather'
        exact hcl
      rw [hiff] at hclear ⊢
      refine (h₁.mergeLock hi env fun hs => (hclear hs).1).bind ?_
      rintro r st₂ hlock ⟨x, honly, hzero, hr⟩
      cases r with
      | some ret =>
        obtain ⟨h₂, hret⟩ := hr
        refine yields_pure ⟨x, 0, by rwa [add_zero], honly, onlyType_zero _, ?_,
          fun hne => absurd rfl hne⟩
        rw [and_iff_left rfl, hzero]
        refine ⟨fun hcl => ⟨hcl, fun st' hlock' => ?_⟩, fun hcl => hcl.1⟩
        rw [hlock] at hlock'
        cases hlock'
      | none =>
        have hdst : (∀ st₂, Subvol.mergeLock env i level srcs st₁ = .ok (none, st₂) →
            ∀ a ∈ env.dst, a.sectorsRet = 0) ↔ ∀ a ∈ env.dst, a.sectorsRet = 0 :=
          ⟨fun hall => hall st₂ hlock, fun hall _ _ => hall⟩
        rw [hdst]
        refine (hr.mergeInstall env).mono ?_
        rintro ret st₃ (⟨hgot, h₃⟩ | ⟨hlost, hret, h₃⟩)
        · refine ⟨x, 0, by rwa [add_zero], honly, onlyType_zero _, ?_, fun hne => absurd rfl hne⟩
          rw [and_iff_left rfl, and_iff_left hgot, hzero]
        · refine ⟨x, writeHolds srcs, h₃, honly, onlyType_writeHolds srcs, ?_, fun _ => hret⟩
          exact iff_of_false (fun hz => writeHolds_ne_zero hne hz.2) fun hcl => hlost hcl.2

end Track

end Subvol

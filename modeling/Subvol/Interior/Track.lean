import Mathlib.Algebra.BigOperators.Fin
import Mathlib.Algebra.BigOperators.Group.List.Basic
import Mathlib.Algebra.Order.BigOperators.Group.Finset
import Mathlib.Data.Option.Basic
import Subvol.Interior.Paths
import Subvol.Lib.Yields

/-!
# What the paths hold

The holds on a node are those of the paths, those that a running update has taken for itself and
those of everybody else. An operation on a path changes the holds by what the path records, so that
the holds of everybody else stay as they are. A transaction that gives back more than its paths hold
has a debt.

## Main definitions

* `pathHolds`: the holds that the paths record.
* `PathStep`: an operation on one path.
* `Track`: a running update, with its debt, its own holds and its own paths.

## Main results

* `Track.step`, `Track.drop`, `Track.get`: a path is changed, given back and taken.
* `Track.release`, `Track.take`: the update gives back and takes a hold.
-/

namespace Subvol

open Lib

/-! ### Holds -/

theorem hold_apply (n m : ℕ) (ty t : SixLockType) :
    hold n ty m t = if m = n ∧ t = ty then 1 else 0 := rfl

@[simp] theorem hold_self (n : ℕ) (ty : SixLockType) : hold n ty n ty = 1 := if_pos ⟨rfl, rfl⟩

theorem holds_add_eq_zero {x y : Holds} : x + y = 0 ↔ x = 0 ∧ y = 0 := by
  refine ⟨fun h => ?_, fun ⟨hx, hy⟩ => by rw [hx, hy, add_zero]⟩
  have hpoint : ∀ n ty, x n ty = 0 ∧ y n ty = 0 := fun n ty =>
    Nat.add_eq_zero_iff.mp (congrFun₂ h n ty)
  exact ⟨funext fun n => funext fun ty => (hpoint n ty).1,
    funext fun n => funext fun ty => (hpoint n ty).2⟩

/-- Sums over a table of which one entry is changed. -/
theorem sum_update {ι β : Type*} [Fintype ι] [DecidableEq ι] (f : β → ℕ) (g : ι → β) (i : ι) (x : β) :
    ∑ j, f (Function.update g i x j) + f (g i) = ∑ j, f (g j) + f x := by
  have hrest : ∑ j ∈ Finset.univ.erase i, f (Function.update g i x j) =
      ∑ j ∈ Finset.univ.erase i, f (g j) :=
    Finset.sum_congr rfl fun j hj => by rw [Function.update_of_ne (Finset.ne_of_mem_erase hj)]
  rw [← Finset.add_sum_erase _ _ (Finset.mem_univ i),
    ← Finset.add_sum_erase (f := fun j => f (g j)) _ (Finset.mem_univ i), hrest,
    Function.update_self]
  omega

/-- The holds of a path at a level. -/
def PathLevel.holds (v : PathLevel) : Holds := fun n ty => if v.b = some n then v.lock.holds ty else 0

/-- The holds of a path. -/
def BtreePath.holds (p : BtreePath) : Holds := fun n ty => ∑ l, (p.l l).holds n ty

/-- The holds of an entry of the table. -/
def entryHolds (x : Option BtreePath) : Holds := fun n ty => x.elim 0 fun p => p.holds n ty

/-- The holds of all paths. -/
def pathHolds (paths : Fin 64 → Option BtreePath) : Holds := fun n ty =>
  ∑ i, entryHolds (paths i) n ty

theorem PathLevel.holds_of_unlocked {v : PathLevel} (h : v.lock = .unlocked) : v.holds = 0 := by
  funext n ty
  simp only [holds, h, Pi.zero_apply]
  split <;> rfl

theorem PathLevel.holds_of_none {v : PathLevel} (h : v.b = none) : v.holds = 0 := by
  funext n ty
  rw [holds, h]
  exact if_neg (by simp)

theorem PathLevel.holds_read (b : ℕ) : PathLevel.holds ⟨some b, .read⟩ = hold b .read := by
  funext n ty
  cases ty <;> simp [holds, NodeLocked.holds, hold_apply, eq_comm]

theorem PathLevel.holds_intent (b : ℕ) : PathLevel.holds ⟨some b, .intent⟩ = hold b .intent := by
  funext n ty
  cases ty <;> simp [holds, NodeLocked.holds, hold_apply, eq_comm]

theorem PathLevel.holds_write (b : ℕ) :
    PathLevel.holds ⟨some b, .write⟩ = hold b .write + hold b .intent := by
  funext n ty
  cases ty <;> simp [holds, NodeLocked.holds, hold_apply, eq_comm]

@[simp] theorem BtreePath.setLevel_self (p : BtreePath) (l : Fin 4) (v : PathLevel) :
    (p.setLevel l v).l l = v := Function.update_self ..

theorem BtreePath.setLevel_of_ne {l l' : Fin 4} (hne : l' ≠ l) (p : BtreePath) (v : PathLevel) :
    (p.setLevel l v).l l' = p.l l' := Function.update_of_ne hne ..

theorem BtreePath.setLevel_eq_self (p : BtreePath) (l : Fin 4) : p.setLevel l (p.l l) = p := by
  rw [setLevel, Function.update_eq_self]

theorem isSome_update (paths : Fin 64 → Option BtreePath) (i : Fin 64) (p : BtreePath) :
    (Function.update paths i (some p) i).isSome = true := by
  rw [Function.update_self, Option.isSome_some]

theorem TransLocks.path_eq {st : TransLocks} {i : Fin 64} {p : BtreePath} (h : st.paths i = some p) :
    st.path i = p := by
  rw [path, h, Option.getD_some]

theorem BtreePath.holds_setLevel (p : BtreePath) (l : Fin 4) (v : PathLevel) :
    (p.setLevel l v).holds + (p.l l).holds = p.holds + v.holds := by
  funext n ty
  exact sum_update (fun v => PathLevel.holds v n ty) p.l l v

theorem BtreePath.level_le (p : BtreePath) (l : Fin 4) : (p.l l).holds ≤ p.holds := fun n ty =>
  Finset.single_le_sum (f := fun l => (p.l l).holds n ty) (fun _ _ => Nat.zero_le _)
    (Finset.mem_univ l)

theorem BtreePath.holds_of_empty {p : BtreePath} (h : ∀ l, (p.l l).b = none) : p.holds = 0 := by
  funext n ty
  exact Finset.sum_eq_zero fun l _ => congrFun₂ (PathLevel.holds_of_none (h l)) n ty

theorem pathHolds_update (paths : Fin 64 → Option BtreePath) (i : Fin 64) (x : Option BtreePath) :
    pathHolds (Function.update paths i x) + entryHolds (paths i) = pathHolds paths + entryHolds x := by
  funext n ty
  exact sum_update (fun x => entryHolds x n ty) paths i x

theorem entry_le_pathHolds (paths : Fin 64 → Option BtreePath) (i : Fin 64) :
    entryHolds (paths i) ≤ pathHolds paths := fun n ty =>
  Finset.single_le_sum (f := fun i => entryHolds (paths i) n ty) (fun _ _ => Nat.zero_le _)
    (Finset.mem_univ i)

/-! ### An operation on one path -/

/-- An operation that changes the path and the locks by what the path records. -/
structure PathStep (i : Fin 64) (p p' : BtreePath) (st st' : TransLocks) : Prop where
  paths : st'.paths = Function.update st.paths i (some p')
  counts : st'.counts + p.holds = st.counts + p'.holds
  ref : p'.ref = p.ref
  intentRef : p'.intentRef = p.intentRef

namespace PathStep

variable {i : Fin 64} {p p' p'' : BtreePath} {st st' st'' : TransLocks}

theorem refl (hi : st.paths i = some p) : PathStep i p p st st :=
  ⟨(Function.update_eq_self_iff.mpr hi.symm).symm, rfl, rfl, rfl⟩

theorem at_self (h : PathStep i p p' st st') : st'.paths i = some p' := by
  rw [h.paths, Function.update_self]

theorem trans (h : PathStep i p p' st st') (h' : PathStep i p' p'' st' st'') :
    PathStep i p p'' st st'' := by
  refine ⟨?_, ?_, h'.ref.trans h.ref, h'.intentRef.trans h.intentRef⟩
  · rw [h'.paths, h.paths, Function.update_idem]
  · funext n ty
    have h₁ := congrFun₂ h.counts n ty
    have h₂ := congrFun₂ h'.counts n ty
    simp only [Pi.add_apply] at h₁ h₂ ⊢
    omega

/-- What the path records is still counted. -/
theorem le_counts (h : PathStep i p p' st st') (hle : p.holds ≤ st.counts) : p'.holds ≤ st'.counts := by
  intro n ty
  have h₁ := congrFun₂ h.counts n ty
  have h₂ : p.holds n ty ≤ st.counts n ty := hle n ty
  simp only [Pi.add_apply] at h₁
  change p'.holds n ty ≤ st'.counts n ty
  omega

/-- A change of one level. -/
theorem of_level {l : Fin 4} {v : PathLevel}
    (hpaths : st'.paths = Function.update st.paths i (some (p.setLevel l v)))
    (hcounts : st'.counts + (p.l l).holds = st.counts + v.holds) :
    PathStep i p (p.setLevel l v) st st' := by
  refine ⟨hpaths, ?_, rfl, rfl⟩
  funext n ty
  have h₁ := congrFun₂ hcounts n ty
  have h₂ := congrFun₂ (p.holds_setLevel l v) n ty
  simp only [Pi.add_apply] at h₁ h₂ ⊢
  omega

end PathStep

/-! ### A running update -/

/-- A path of before the update: it has the same references and no new write lock. -/
structure KeptPath (p p' : BtreePath) : Prop where
  ref : p'.ref = p.ref
  intentRef : p'.intentRef = p.intentRef
  write : ∀ l, (p'.l l).lock = .write → p'.l l = p.l l

theorem KeptPath.refl (p : BtreePath) : KeptPath p p := ⟨rfl, rfl, fun _ _ => rfl⟩

theorem KeptPath.trans {p p' p'' : BtreePath} (h : KeptPath p p') (h' : KeptPath p' p'') :
    KeptPath p p'' :=
  ⟨h'.ref.trans h.ref, h'.intentRef.trans h.intentRef, fun l hl => by
    have heq := h'.write l hl
    rw [heq]
    exact h.write l (heq ▸ hl)⟩

/-- The failures that may happen: when the update is strict, no lock is released that is not held. -/
def MayStop (strict : Bool) (s : LockStop) : Prop := s = .released → strict = false

theorem mayStop_assertion (strict : Bool) : MayStop strict .assertion := fun h => by cases h

theorem mayStop_waits (strict : Bool) : MayStop strict .waits := fun h => by cases h

/-- An update that has begun in `st₀` and has come to `st`: it has the holds `e` and the paths `T` of
its own, and has given back the holds `d` of somebody else. -/
structure Track (strict : Bool) (st₀ : TransLocks) (d e : Holds) (T : List (Fin 64))
    (st : TransLocks) : Prop where
  counts : st.counts + pathHolds st₀.paths + d = st₀.counts + pathHolds st.paths + e
  counted : pathHolds st₀.paths ≤ st₀.counts
  clean : strict = true → d = 0
  kept : ∀ i ∉ T, Option.Rel KeptPath (st₀.paths i) (st.paths i)
  own : ∀ i ∈ T, i ≠ 0 ∧ st₀.paths i = none ∧
    ∃ p, st.paths i = some p ∧ p.ref = 1 ∧ p.intentRef = 1
  nodup : T.Nodup

namespace Track

variable {strict : Bool} {st₀ st st' : TransLocks} {d e : Holds} {T : List (Fin 64)} {i : Fin 64}
  {p p' : BtreePath}

theorem start (hcounted : pathHolds st₀.paths ≤ st₀.counts) : Track strict st₀ 0 0 [] st₀ where
  counts := rfl
  counted := hcounted
  clean _ := rfl
  kept i _ := by
    cases st₀.paths i with
    | none => exact .none
    | some p => exact .some (.refl p)
  own _ hi := absurd hi List.not_mem_nil
  nodup := List.nodup_nil

/-- What the paths and the update hold is counted. -/
theorem le_counts (h : Track strict st₀ d e T st) (hs : strict = true) :
    pathHolds st.paths + e ≤ st.counts := by
  intro n ty
  have h₁ := congrFun₂ h.counts n ty
  have h₂ : pathHolds st₀.paths n ty ≤ st₀.counts n ty := h.counted n ty
  rw [h.clean hs] at h₁
  simp only [Pi.add_apply, Pi.zero_apply] at h₁
  change pathHolds st.paths n ty + e n ty ≤ st.counts n ty
  omega

theorem path_le (h : Track strict st₀ d e T st) (hs : strict = true) (hi : st.paths i = some p) :
    p.holds ≤ st.counts := by
  intro n ty
  have h₁ : pathHolds st.paths n ty + e n ty ≤ st.counts n ty := h.le_counts hs n ty
  have h₂ : entryHolds (st.paths i) n ty ≤ pathHolds st.paths n ty :=
    entry_le_pathHolds st.paths i n ty
  rw [hi] at h₂
  change p.holds n ty ≤ _ at h₂
  change p.holds n ty ≤ st.counts n ty
  omega

/-- The locks have changed by what the update has taken and given back. -/
theorem of_counts {e' : Holds} (h : Track strict st₀ d e T st) (hpaths : st'.paths = st.paths)
    (hcounts : st'.counts + e = st.counts + e') : Track strict st₀ d e' T st' where
  counts := by
    funext n ty
    have h₁ := congrFun₂ h.counts n ty
    have h₂ := congrFun₂ hcounts n ty
    rw [hpaths]
    simp only [Pi.add_apply] at h₁ h₂ ⊢
    omega
  counted := h.counted
  clean := h.clean
  kept j hj := hpaths ▸ h.kept j hj
  own j hj := hpaths ▸ h.own j hj
  nodup := h.nodup

/-- A path has changed, and holds of somebody else have been given back. -/
theorem owing {x : Holds} (h : Track strict st₀ d e T st) (hi : st.paths i = some p)
    (hpaths : st'.paths = Function.update st.paths i (some p'))
    (hcounts : st'.counts + p.holds + x = st.counts + p'.holds) (hkept : KeptPath p p' ∨ i ∈ T)
    (href : p'.ref = p.ref) (hintent : p'.intentRef = p.intentRef) (hx : strict = true → x = 0) :
    Track strict st₀ (d + x) e T st' where
  counts := by
    have hheld := pathHolds_update st.paths i (some p')
    rw [hi, ← hpaths] at hheld
    funext n ty
    have h₁ := congrFun₂ h.counts n ty
    have h₂ := congrFun₂ hcounts n ty
    have h₃ := congrFun₂ hheld n ty
    simp only [Pi.add_apply] at h₁ h₂ h₃ ⊢
    change _ + p.holds n ty = _ + p'.holds n ty at h₃
    omega
  counted := h.counted
  clean hs := by rw [h.clean hs, hx hs, add_zero]
  kept j hj := by
    have hbefore := h.kept j hj
    rw [hpaths]
    by_cases hji : j = i
    · subst hji
      rw [hi] at hbefore
      rw [Function.update_self]
      generalize st₀.paths j = y at hbefore
      cases hbefore with
      | some hp => exact .some (hp.trans (hkept.resolve_right hj))
    · rwa [Function.update_of_ne hji]
  own j hj := by
    obtain ⟨hne, hnone, q, hq, hqref, hqintent⟩ := h.own j hj
    refine ⟨hne, hnone, ?_⟩
    rw [hpaths]
    by_cases hji : j = i
    · subst hji
      obtain rfl := Option.some.inj (hi.symm.trans hq)
      exact ⟨p', Function.update_self .., href.trans hqref, hintent.trans hqintent⟩
    · exact ⟨q, by rw [Function.update_of_ne hji, hq], hqref, hqintent⟩
  nodup := h.nodup

/-- A path has changed. -/
theorem step (h : Track strict st₀ d e T st) (hi : st.paths i = some p)
    (hstep : PathStep i p p' st st')
    (hwrite : i ∉ T → ∀ l, (p'.l l).lock = .write → p'.l l = p.l l) :
    Track strict st₀ d e T st' := by
  have hkept : KeptPath p p' ∨ i ∈ T := by
    by_cases hmem : i ∈ T
    · exact .inr hmem
    · exact .inl ⟨hstep.ref, hstep.intentRef, hwrite hmem⟩
  have howing := h.owing (x := 0) hi hstep.paths (by rw [add_zero, hstep.counts]) hkept hstep.ref
    hstep.intentRef fun _ => rfl
  rwa [add_zero] at howing

/-- A path of the update has been given back. -/
theorem drop (h : Track strict st₀ d e (i :: T) st) (hi : st.paths i = some p)
    (hpaths : st'.paths = Function.update st.paths i none)
    (hcounts : st'.counts + p.holds = st.counts) : Track strict st₀ d e T st' where
  counts := by
    have hheld := pathHolds_update st.paths i none
    rw [hi, ← hpaths] at hheld
    funext n ty
    have h₁ := congrFun₂ h.counts n ty
    have h₂ := congrFun₂ hcounts n ty
    have h₃ := congrFun₂ hheld n ty
    simp only [Pi.add_apply] at h₁ h₂ h₃ ⊢
    change _ + p.holds n ty = _ + 0 at h₃
    omega
  counted := h.counted
  clean := h.clean
  kept j hj := by
    rw [hpaths]
    by_cases hji : j = i
    · subst hji
      rw [Function.update_self, (h.own j List.mem_cons_self).2.1]
      exact .none
    · rw [Function.update_of_ne hji]
      exact h.kept j (by simp [hji, hj])
  own j hj := by
    have hji : j ≠ i := fun heq => (List.nodup_cons.mp h.nodup).1 (heq ▸ hj)
    rw [hpaths, Function.update_of_ne hji]
    exact h.own j (List.mem_cons_of_mem _ hj)
  nodup := (List.nodup_cons.mp h.nodup).2

/-- An entry of the table that is free has been taken for a path of the update. -/
theorem get (h : Track strict st₀ d e T st) (hi : st.paths i = none) (hne : i ≠ 0)
    (hpaths : st'.paths = Function.update st.paths i (some p)) (hcounts : st'.counts = st.counts)
    (hempty : p.holds = 0) (href : p.ref = 1) (hintent : p.intentRef = 1) :
    Track strict st₀ d e (i :: T) st' where
  counts := by
    have hheld := pathHolds_update st.paths i (some p)
    rw [hi, ← hpaths] at hheld
    funext n ty
    have h₁ := congrFun₂ h.counts n ty
    have h₃ := congrFun₂ hheld n ty
    rw [hcounts]
    simp only [Pi.add_apply] at h₁ h₃ ⊢
    change _ + 0 = _ + p.holds n ty at h₃
    rw [hempty, Pi.zero_apply, Pi.zero_apply] at h₃
    omega
  counted := h.counted
  clean := h.clean
  kept j hj := by
    have hji : j ≠ i := fun heq => hj (heq ▸ List.mem_cons_self)
    rw [hpaths, Function.update_of_ne hji]
    exact h.kept j fun hmem => hj (List.mem_cons_of_mem _ hmem)
  own j hj := by
    have hnotin : i ∉ T := fun hmem => by
      obtain ⟨-, -, q, hq, -⟩ := h.own i hmem
      rw [hi] at hq
      cases hq
    rw [hpaths]
    rcases List.mem_cons.mp hj with rfl | hmem
    · refine ⟨hne, ?_, p, Function.update_self .., href, hintent⟩
      have hkept := h.kept j hnotin
      rw [hi] at hkept
      generalize hx : st₀.paths j = x at hkept
      cases hkept
      rfl
    · have hji : j ≠ i := fun heq => hnotin (heq ▸ hmem)
      rw [Function.update_of_ne hji]
      exact h.own j hmem
  nodup := by
    refine List.nodup_cons.mpr ⟨fun hmem => ?_, h.nodup⟩
    obtain ⟨-, -, q, hq, -⟩ := h.own i hmem
    rw [hi] at hq
    cases hq

/-- A path of before the update is there all the time. -/
theorem keptPath (h : Track strict st₀ d e T st) (hi : st₀.paths i = some p) :
    ∃ p', st.paths i = some p' ∧ KeptPath p p' := by
  have hnot : i ∉ T := fun hmem => by
    rw [(h.own i hmem).2.1] at hi
    cases hi
  have hkept := h.kept i hnot
  rw [hi] at hkept
  generalize st.paths i = y at hkept ⊢
  cases hkept with
  | some hp => exact ⟨_, rfl, hp⟩

theorem isSome (h : Track strict st₀ d e T st) (hi : (st₀.paths i).isSome) :
    (st.paths i).isSome := by
  obtain ⟨p, hp⟩ := Option.isSome_iff_exists.mp hi
  obtain ⟨p', hp', -⟩ := h.keptPath hp
  rw [hp', Option.isSome_some]

theorem path_ref (h : Track strict st₀ d e T st) (hi : (st₀.paths i).isSome) :
    (st.path i).ref = (st₀.path i).ref := by
  obtain ⟨p, hp⟩ := Option.isSome_iff_exists.mp hi
  obtain ⟨p', hp', hkept⟩ := h.keptPath hp
  rw [TransLocks.path_eq hp, TransLocks.path_eq hp', hkept.ref]

theorem perm {T' : List (Fin 64)} (h : Track strict st₀ d e T st) (hperm : T.Perm T') :
    Track strict st₀ d e T' st where
  counts := h.counts
  counted := h.counted
  clean := h.clean
  kept j hj := h.kept j fun hmem => hj (hperm.mem_iff.mp hmem)
  own j hj := h.own j (hperm.mem_iff.mpr hj)
  nodup := hperm.nodup_iff.mp h.nodup

end Track

end Subvol

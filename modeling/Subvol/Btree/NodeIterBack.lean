import Subvol.Btree.NodeIter

/-!
# Stepping back in a set

`bch2_bkey_prev_all` jumps to some key before the one it is called for, by the table beside the set
if there is one, and walks up from there. All that it needs of a table is that its entries name
keys.

## Main definitions

* `IterBset.Wf`: a set with a table that names its keys.

## Main results

* `IterBset.Wf.bkeyPrev`: a key before the offset is found.
* `IterBset.Wf.bch2BkeyPrevAll_first`, `IterBset.Wf.bch2BkeyPrevAll_concat`: the key before the
  offset is found.
-/

namespace Subvol

open Lib

/-- The entries of the table beside a set name keys of it. -/
def IterBset.TableNames (s : IterBset) : Prop :=
  match s.aux with
  | .noAux => True
  | .ro t => ∀ j, 1 ≤ j → j < t.size → ∃ x ∈ s.laidKeys, s.treeToBkey t j = some x.1
  | .rw => Keeps s.set (some s.set)

/-- A set with a table that names its keys. -/
structure IterBset.Wf (s : IterBset) : Prop where
  set : s.set.Wf
  table : s.TableNames

namespace IterBset

variable {s : IterBset} {pre post : List BkeyPacked}

theorem Wf.u64s_pos (h : s.Wf) : ∀ k ∈ s.set.keys, 0 < k.u64s := fun _ hk => h.set.u64s_pos hk

/-- A key laid out before a boundary starts at a boundary further to the front. -/
theorem exists_front (hkeys : s.set.keys = pre ++ post) {x : RankedKey}
    (hx : x ∈ s.laidKeys) (hlt : x.1 < s.set.firstOffset + total BkeyPacked.u64s pre) :
    ∃ front mid, pre = front ++ mid ∧ mid ≠ [] ∧
      x.1 = s.set.firstOffset + total BkeyPacked.u64s front := by
  obtain ⟨p, q, hpq, hoff⟩ := mem_laid_iff.mp hx
  rw [hoff] at hlt
  obtain ⟨a, rfl, ha⟩ | ⟨a, rfl, -⟩ := List.append_eq_append_iff.mp (hkeys.symm.trans hpq)
  · rw [total_append] at hlt
    omega
  · refine ⟨p, a, rfl, ?_, hoff⟩
    rintro rfl
    rw [List.append_nil] at hlt
    omega

/-- The loop over the slots of a table ends at a key before the offset. -/
theorem roPrev_spec (h : s.Wf) {t : RoAuxTree} (hkeys : s.set.keys = pre ++ post) (hpre : pre ≠ [])
    (htable : ∀ j, 1 ≤ j → j < t.size → ∃ x ∈ s.laidKeys, s.treeToBkey t j = some x.1) {j : ℕ}
    (hj : j ≤ t.size - 1) :
    ∃ front mid, pre = front ++ mid ∧ mid ≠ [] ∧
      s.roPrev t (s.set.firstOffset + total BkeyPacked.u64s pre) j =
        some (s.set.firstOffset + total BkeyPacked.u64s front) := by
  induction j with
  | zero =>
    refine ⟨[], pre, rfl, hpre, ?_⟩
    obtain ⟨k, rest, rfl⟩ := List.exists_cons_of_ne_nil hpre
    have hk : 0 < k.u64s := h.u64s_pos k (by simp [hkeys])
    rw [roPrev, if_pos (by rw [total_cons]; omega), total_nil, Nat.add_zero]
  | succ j ih =>
    obtain ⟨x, hx, hslot⟩ := htable (j + 1) (Nat.le_add_left 1 j) (by omega)
    rw [roPrev, hslot, Option.bind_eq_bind, Option.bind_some]
    split_ifs with hlt
    · obtain ⟨front, mid, rfl, hmid, hoff⟩ := exists_front hkeys hx hlt
      exact ⟨front, mid, rfl, hmid, congrArg some hoff⟩
    · exact ih (by omega)

/-- The entry before the place of an offset in the table of a set that is written to. -/
theorem rwPrev_spec (h : s.Wf) (hkeys : s.set.keys = pre ++ post) (hpre : pre ≠ [])
    (htable : Keeps s.set (some s.set)) :
    ∃ front mid, pre = front ++ mid ∧ mid ≠ [] ∧ ∃ j e,
      rwAuxTreeBsearch s.set (s.set.firstOffset + total BkeyPacked.u64s pre) = some (j + 1) ∧
      s.set.tree[j]? = some e ∧ e.offset = s.set.firstOffset + total BkeyPacked.u64s front := by
  obtain ⟨e, es, hs, hok, -⟩ := htable
  have htree : s.set.tree = e :: es := congrArg RwBset.tree (Option.some.inj hs)
  obtain ⟨k, rest, hcons⟩ := List.exists_cons_of_ne_nil hpre
  have hk : 0 < k.u64s := h.u64s_pos k (by simp [hkeys, hcons])
  have hfirst : e.offset < s.set.firstOffset + total BkeyPacked.u64s pre := by
    rw [hok.first_eq, hcons, total_cons]
    omega
  have hend : s.set.firstOffset + total BkeyPacked.u64s pre ≤ s.set.endOffset := by
    rw [RwBset.endOffset, hkeys, total_append]
    omega
  obtain ⟨A, B, hcut, hA, hB⟩ :=
    hok.ascending.exists_cut (s.set.firstOffset + total BkeyPacked.u64s pre)
  -- The first entry is in front of the cut, since the set starts there.
  obtain ⟨A, rfl⟩ : ∃ A', A = e :: A' := by
    cases A with
    | nil => exact absurd hfirst (hB e (by rw [← List.nil_append B, ← hcut]; simp)).not_gt
    | cons a A' => exact ⟨A', by rw [(List.cons.inj hcut).1]⟩
  have hlast : (e :: A)[A.length]? = some ((e :: A).getLast (by simp)) := by
    simp [List.getLast_eq_getElem]
  have hmem : (e :: A).getLast (by simp) ∈ e :: A := List.getLast_mem _
  generalize (e :: A).getLast (by simp) = x at hlast hmem
  have hnamed : ∃ key, (x.offset, key) ∈ s.laidKeys := by
    rcases List.mem_cons.mp hmem with rfl | hx
    · refine ⟨k, mem_laid_iff.mpr ⟨[], rest ++ post, ?_, hok.first_eq⟩⟩
      rw [hkeys, hcons]
      rfl
    · obtain ⟨key, hkey, -⟩ := hok.named x (by
        rw [← (List.cons.inj hcut).2.symm]
        exact List.mem_append_left B hx)
      exact ⟨key, hkey⟩
  obtain ⟨key, hkey⟩ := hnamed
  obtain ⟨front, mid, hsplit, hmid, hoff⟩ := exists_front hkeys hkey (hA x hmem)
  refine ⟨front, mid, hsplit, hmid, A.length, x, ?_, ?_, hoff⟩
  · exact rwAuxTreeBsearch_eq (htree.trans hcut) hA hB hend
  · rw [htree, hcut, List.getElem?_append_left (by simp), hlast]

/-- `__bkey_prev` finds no key before the first one. -/
theorem bkeyPrev_first (s : IterBset) : s.bkeyPrev s.set.firstOffset = some none := by
  rw [bkeyPrev, if_pos ⟨le_rfl, by rw [RwBset.endOffset]; omega⟩, if_pos rfl]

/-- `__bkey_prev` finds a key before any other boundary. -/
theorem Wf.bkeyPrev (h : s.Wf) (hkeys : s.set.keys = pre ++ post) (hpre : pre ≠ []) :
    ∃ front mid, pre = front ++ mid ∧ mid ≠ [] ∧
      s.bkeyPrev (s.set.firstOffset + total BkeyPacked.u64s pre) =
        some (some (s.set.firstOffset + total BkeyPacked.u64s front)) := by
  obtain ⟨k, rest, hcons⟩ := List.exists_cons_of_ne_nil hpre
  have hk : 0 < k.u64s := h.u64s_pos k (by simp [hkeys, hcons])
  have hend : s.set.firstOffset + total BkeyPacked.u64s pre ≤ s.set.endOffset := by
    rw [RwBset.endOffset, hkeys, total_append]
    omega
  have hfirst : s.set.firstOffset + total BkeyPacked.u64s pre ≠ s.set.firstOffset := by
    rw [hcons, total_cons]
    omega
  have htable := h.table
  rw [IterBset.bkeyPrev, if_pos ⟨Nat.le_add_right .., hend⟩, if_neg hfirst]
  rw [TableNames] at htable
  cases haux : s.aux with
  | noAux => exact ⟨[], pre, rfl, hpre, by simp⟩
  | ro t =>
    rw [haux] at htable
    obtain ⟨front, mid, hsplit, hmid, hprev⟩ :=
      roPrev_spec h hkeys hpre htable (Nat.min_le_left (t.size - 1)
        (s.bkeyToCacheline (s.set.firstOffset + total BkeyPacked.u64s pre)))
    exact ⟨front, mid, hsplit, hmid, by simp only [hprev, Option.map_some]⟩
  | rw =>
    rw [haux] at htable
    obtain ⟨front, mid, hsplit, hmid, j, e, hsearch, he, hoff⟩ := rwPrev_spec h hkeys hpre htable
    refine ⟨front, mid, hsplit, hmid, ?_⟩
    simp only [hsearch, Option.bind_eq_bind, Option.bind_some, ne_eq, Nat.add_eq_zero_iff,
      one_ne_zero, and_false, not_false_eq_true, if_true, Nat.add_sub_cancel, he, hoff]
    rfl

/-- The walk from a boundary to a later one ends at the last key between them. -/
theorem walkTo_spec (base : ℕ) (l : List BkeyPacked) (a : BkeyPacked) (post : List BkeyPacked)
    (hpos : ∀ k ∈ l ++ [a], 0 < k.u64s) (ret : Option ℕ) :
    walkTo (base + total BkeyPacked.u64s (l ++ [a])) base (l ++ a :: post) ret =
      some (some (base + total BkeyPacked.u64s l)) := by
  induction l generalizing base ret with
  | nil =>
    have ha := hpos a (by simp)
    simp only [List.nil_append, total_cons, total_nil, Nat.add_zero]
    rw [walkTo, if_neg (by omega)]
    cases post <;> rw [walkTo, if_pos rfl]
  | cons k l ih =>
    have hk := hpos k (by simp)
    simp only [List.cons_append, total_cons]
    rw [walkTo, if_neg (by omega), ← Nat.add_assoc, ← Nat.add_assoc]
    exact ih _ (fun x hx => hpos x (List.mem_cons_of_mem k hx)) _

theorem Wf.keysAt (h : s.Wf) (hkeys : s.set.keys = pre ++ post) :
    s.set.keysAt (s.set.firstOffset + total BkeyPacked.u64s pre) = some post :=
  (itemsFrom_eq_some_iff h.u64s_pos).mpr ⟨pre, hkeys, rfl⟩

/-- Nothing comes before the first key. -/
theorem bch2BkeyPrevAll_first (s : IterBset) :
    s.bch2BkeyPrevAll s.set.firstOffset = some none := by
  rw [bch2BkeyPrevAll, bkeyPrev_first]
  rfl

/-- The key before a boundary. -/
theorem Wf.bch2BkeyPrevAll_concat (h : s.Wf) {a : BkeyPacked}
    (hkeys : s.set.keys = pre ++ a :: post) :
    s.bch2BkeyPrevAll (s.set.firstOffset + total BkeyPacked.u64s (pre ++ [a])) =
      some (some (s.set.firstOffset + total BkeyPacked.u64s pre)) := by
  have hkeys' : s.set.keys = (pre ++ [a]) ++ post := by rw [hkeys, List.append_cons]
  obtain ⟨front, mid, hsplit, hmid, hprev⟩ := h.bkeyPrev hkeys' (by simp)
  -- The walk goes over the keys of `mid`, of which `a` is the last one.
  obtain ⟨mid, x, rfl⟩ : ∃ mid' x, mid = mid' ++ [x] :=
    ⟨mid.dropLast, mid.getLast hmid, (List.dropLast_append_getLast hmid).symm⟩
  obtain ⟨rfl, hx⟩ := List.append_inj' (hsplit.trans (List.append_assoc ..).symm) rfl
  obtain rfl := (List.cons.inj hx).1
  have hfront : s.set.keys = front ++ (mid ++ a :: post) := by rw [hkeys, List.append_assoc]
  have hagain : ∃ r, s.bkeyPrev (s.set.firstOffset + total BkeyPacked.u64s front) = some r := by
    by_cases hnil : front = []
    · rw [hnil, total_nil, Nat.add_zero]
      exact ⟨_, s.bkeyPrev_first⟩
    · obtain ⟨_, _, -, -, hr⟩ := h.bkeyPrev hfront hnil
      exact ⟨_, hr⟩
  obtain ⟨r, hr⟩ := hagain
  have hwalk := walkTo_spec (s.set.firstOffset + total BkeyPacked.u64s front) mid a post
    (fun k hk => h.u64s_pos k (by
      rw [hkeys]
      simp only [List.mem_append, List.mem_cons, List.not_mem_nil, or_false] at hk ⊢
      tauto)) none
  simp only [total_append, Nat.add_assoc] at hprev hwalk ⊢
  rw [bch2BkeyPrevAll, hprev]
  simp only [Option.bind_eq_bind, Option.bind_some, h.keysAt hfront, hwalk, hr]
  rfl

end IterBset

end Subvol

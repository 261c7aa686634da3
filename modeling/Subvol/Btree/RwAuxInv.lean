import Subvol.Btree.RwAux

/-!
# The lookup table names keys of the set

The invariant of the table of the last set, and that every patch of it after an insertion or a
deletion keeps it. An edit is seen as one of the keys: keys `pre ++ mid ++ post` become
`pre ++ new ++ post`, where `mid` and `new` hold at most one key. Entries below the edit stay,
entries above it move with their keys, and at most one entry is at the edit itself.

## Main definitions

* `Named`: an entry records the position of the key at its offset.
* `TableOk`: the invariant.

## Main results

* `rwAuxTreeInsertEntry_spec`, `fixFrom_spec`, `bch2BsetFixLookupTable_spec`: no assertion fails and
  the invariant is kept.
* `buildRwAuxTree_spec`: the table as it is built satisfies the invariant.
-/

namespace Subvol

open Lib

/-- An entry records the position of the key that is laid out at its offset. -/
def Named (first : ℕ) (keys : List BkeyPacked) (e : RwAuxTree) : Prop :=
  ∃ k : BkeyPacked, (e.offset, k) ∈ laid BkeyPacked.u64s first keys ∧ e.k = k.pos

/-- Entries in the order of their offsets. -/
def Ascending (tree : List RwAuxTree) : Prop := tree.Pairwise fun a b => a.offset < b.offset

/-- The invariant of a table with first entry `e` and other entries `es`. -/
structure TableOk (first : ℕ) (keys : List BkeyPacked) (e : RwAuxTree) (es : List RwAuxTree) :
    Prop where
  first_eq : e.offset = first
  ascending : Ascending (e :: es)
  named : ∀ x ∈ es, Named first keys x

variable {first W : ℕ} {keys pre mid new post : List BkeyPacked} {e : RwAuxTree}
  {es A B : List RwAuxTree}

/-! ### Entries and keys -/

theorem Ascending.le_getLast {tree : List RwAuxTree} (h : Ascending tree) (hne : tree ≠ [])
    {x : RwAuxTree} (hx : x ∈ tree) : x.offset ≤ (tree.getLast hne).offset := by
  rw [← List.dropLast_append_getLast hne] at h hx
  rcases List.mem_append.mp hx with hx | hx
  · exact ((List.pairwise_append.mp h).2.2 x hx _ (List.mem_singleton_self _)).le
  · rw [List.mem_singleton.mp hx]

/-- The entry before index `A.length + 1` is the greatest of those up to it. -/
theorem exists_entry_before (h : Ascending (e :: A)) :
    ∃ x ∈ e :: A, (e :: (A ++ B))[A.length]? = some x ∧ ∀ a ∈ e :: A, a.offset ≤ x.offset := by
  refine ⟨(e :: A).getLast (by simp), List.getLast_mem _, ?_, fun a ha => h.le_getLast _ ha⟩
  rw [← List.cons_append, List.getElem?_append_left (by simp)]
  simp [List.getLast_eq_getElem]

theorem getElem?_entry_behind : (e :: (A ++ B))[A.length + 1]? = B.head? := by
  rw [List.getElem?_cons_succ, List.getElem?_append_right le_rfl, Nat.sub_self,
    List.head?_eq_getElem?]

theorem Named.bounds (h : Named first keys e) :
    first ≤ e.offset ∧ e.offset ≤ first + total BkeyPacked.u64s keys := by
  obtain ⟨k, hk, -⟩ := h
  have := mem_laid_bounds hk
  constructor <;> dsimp only at this <;> omega

theorem Named.lt_end (hpos : ∀ k ∈ keys, 0 < k.u64s) (h : Named first keys e) :
    e.offset < first + total BkeyPacked.u64s keys := by
  obtain ⟨k, hk, -⟩ := h
  have hk0 := hpos k (mem_of_mem_laid hk)
  have := mem_laid_bounds hk
  dsimp only at this
  omega

theorem named_append : Named first (pre ++ post) e ↔
    Named first pre e ∨ Named (first + total BkeyPacked.u64s pre) post e := by
  simp only [Named, mem_laid_append]
  constructor
  · rintro ⟨k, hk | hk, he⟩
    · exact Or.inl ⟨k, hk, he⟩
    · exact Or.inr ⟨k, hk, he⟩
  · rintro (⟨k, hk, he⟩ | ⟨k, hk, he⟩)
    · exact ⟨k, Or.inl hk, he⟩
    · exact ⟨k, Or.inr hk, he⟩

theorem Named.offset_eq (h : Named W mid e) (hmid : mid.length ≤ 1) : e.offset = W := by
  obtain ⟨k, hk, -⟩ := h
  match mid, hmid with
  | [], _ => exact absurd hk (by simp [laid])
  | [k'], _ => exact congrArg Prod.fst (List.mem_singleton.mp hk)

theorem not_named_nil : ¬Named first [] e := by
  rintro ⟨k, hk, -⟩
  exact absurd hk (by simp [laid])

theorem named_head (k : BkeyPacked) (rest : List BkeyPacked) :
    Named W (k :: rest) ⟨W, k.pos⟩ := ⟨k, by simp [laid], rfl⟩

/-- An entry of a key that moves from one base to another. -/
theorem Named.shift {base off : ℕ} {k : Bpos} (h : Named base keys ⟨base + off, k⟩) (base' : ℕ) :
    Named base' keys ⟨base' + off, k⟩ := by
  obtain ⟨x, hx, hk⟩ := h
  exact ⟨x, mem_laid_shift hx, hk⟩

namespace TableOk

theorem le_end (h : TableOk first keys e es) {x : RwAuxTree} (hx : x ∈ e :: es) :
    x.offset ≤ first + total BkeyPacked.u64s keys := by
  rcases List.mem_cons.mp hx with rfl | hx
  · rw [h.first_eq]
    exact Nat.le_add_right _ _
  · exact (h.named x hx).bounds.2

/-- Every entry is at a boundary of the keys. -/
theorem boundary (h : TableOk first keys e es) {x : RwAuxTree} (hx : x ∈ e :: es) :
    ∃ p q, keys = p ++ q ∧ x.offset = first + total BkeyPacked.u64s p := by
  rcases List.mem_cons.mp hx with rfl | hx
  · exact ⟨[], keys, rfl, by simp [h.first_eq]⟩
  · obtain ⟨k, hk, -⟩ := h.named x hx
    obtain ⟨p, q, hkeys, hp⟩ := mem_laid_iff.mp hk
    exact ⟨p, k :: q, hkeys, hp⟩

end TableOk

/-! ### Reading keys -/

namespace RwBset

variable {s : RwBset}

theorem keysAt_of_boundary (hpos : ∀ k ∈ s.keys, 0 < k.u64s) (hkeys : s.keys = pre ++ post)
    (hW : W = s.firstOffset + total BkeyPacked.u64s pre) : s.keysAt W = some post :=
  (itemsFrom_eq_some_iff hpos).mpr ⟨pre, hkeys, hW⟩

/-- The entry for the key at a boundary that is not the end. -/
theorem rwAuxTreeSet_of_boundary {k : BkeyPacked} (hpos : ∀ k ∈ s.keys, 0 < k.u64s)
    (hkeys : s.keys = pre ++ k :: post)
    (hW : W = s.firstOffset + total BkeyPacked.u64s pre) :
    rwAuxTreeSet s W = some ⟨W, k.pos⟩ := by
  have hk := hpos k (by simp [hkeys])
  have hend : W < s.endOffset := by
    rw [endOffset, hkeys, total_append, total_cons, hW]
    omega
  rw [rwAuxTreeSet, if_pos hend, keysAt_of_boundary hpos hkeys hW]

end RwBset

/-- The walk from one boundary to another finds a boundary between them, or none. -/
theorem walkLine_spec {start off : ℕ} {p : List BkeyPacked} (q : List BkeyPacked) (hp : p ≠ [])
    (hpos : ∀ k ∈ p, 0 < k.u64s) (hstart : start ≤ off) :
    walkLine start (off + total BkeyPacked.u64s p) off (p ++ q) = some none ∨
      ∃ p₁ k p₂, p = p₁ ++ k :: p₂ ∧ p₁ ≠ [] ∧
        walkLine start (off + total BkeyPacked.u64s p) off (p ++ q) =
          some (some (off + total BkeyPacked.u64s p₁)) := by
  induction p generalizing off with
  | nil => exact absurd rfl hp
  | cons k p ih =>
    have hstop : off + total BkeyPacked.u64s (k :: p) =
        off + k.u64s + total BkeyPacked.u64s p := by rw [total_cons, Nat.add_assoc]
    rw [hstop, List.cons_append, walkLine]
    cases p with
    | nil => exact Or.inl (by simp)
    | cons k' p =>
      have hk' := hpos k' (by simp)
      have hne : off + k.u64s ≠ off + k.u64s + total BkeyPacked.u64s (k' :: p) := by
        rw [total_cons]
        omega
      rw [if_neg hne]
      by_cases hline : (off + k.u64s - start) * 8 ≥ l1CacheBytes
      · rw [if_pos hline]
        exact Or.inr ⟨[k], k', p, rfl, by simp, by simp⟩
      · rw [if_neg hline]
        have hnext : start ≤ off + k.u64s := hstart.trans (Nat.le_add_right _ _)
        obtain hnone | ⟨p₁, k₁, p₂, hsplit, -, hsome⟩ :=
          ih (by simp) (fun x hx => hpos x (List.mem_cons_of_mem k hx)) hnext
        · exact Or.inl hnone
        · refine Or.inr ⟨k :: p₁, k₁, p₂, by rw [hsplit]; rfl, by simp, ?_⟩
          rw [hsome, total_cons, Nat.add_assoc]

/-! ### A new entry -/

/-- What an operation on the table does: it succeeds with a table that satisfies the invariant and
is within its capacity, and it changes nothing else. -/
def Keeps (s : RwBset) (r : Option RwBset) : Prop :=
  ∃ e es, r = some { s with tree := e :: es } ∧ TableOk s.firstOffset s.keys e es ∧
    (e :: es).length ≤ s.capacity

/-- What lies between two boundaries. -/
theorem exists_between {p q p' q' : List BkeyPacked} (h : p ++ q = p' ++ q')
    (hle : total BkeyPacked.u64s p ≤ total BkeyPacked.u64s p') :
    ∃ q₁ q₂, q = q₁ ++ q₂ ∧
      total BkeyPacked.u64s p' = total BkeyPacked.u64s p + total BkeyPacked.u64s q₁ := by
  obtain ⟨a, rfl, rfl⟩ | ⟨a, rfl, rfl⟩ := List.append_eq_append_iff.mp h
  · exact ⟨a, q', rfl, total_append ..⟩
  · rw [total_append] at hle
    exact ⟨[], q, rfl, by rw [total_append, total_nil]; omega⟩

/-- An entry for a key between two neighbours. -/
theorem TableOk.insert (hok : TableOk first keys e (A ++ B)) {x : RwAuxTree}
    (hx : Named first keys x) (hA : ∀ a ∈ e :: A, a.offset < x.offset)
    (hB : ∀ b ∈ B, x.offset < b.offset) : TableOk first keys e (A ++ x :: B) where
  first_eq := hok.first_eq
  ascending := by
    have hAB := hok.ascending
    rw [Ascending, ← List.cons_append, List.pairwise_append] at hAB ⊢
    refine ⟨hAB.1, List.pairwise_cons.mpr ⟨hB, hAB.2.1⟩, fun a ha b hb => ?_⟩
    rcases List.mem_cons.mp hb with rfl | hb
    · exact hA a ha
    · exact hAB.2.2 a ha b hb
  named y hy := by
    rcases List.mem_append.mp hy with hy | hy
    · exact hok.named y (List.mem_append_left _ hy)
    · rcases List.mem_cons.mp hy with rfl | hy
      · exact hx
      · exact hok.named y (List.mem_append_right _ hy)

theorem rwAuxTreeInsertEntry_spec {s : RwBset} (hpos : ∀ k ∈ s.keys, 0 < k.u64s)
    (htree : s.tree = e :: (A ++ B)) (hok : TableOk s.firstOffset s.keys e (A ++ B))
    (hcap : s.tree.length ≤ s.capacity) : Keeps s (rwAuxTreeInsertEntry s (A.length + 1)) := by
  have hself : some s = some { s with tree := e :: (A ++ B) } := by rw [← htree]
  have hkept : Keeps s (some s) := ⟨e, A ++ B, hself, hok, by rwa [← htree]⟩
  -- The neighbours of the new entry.
  obtain ⟨x, hx, hlast, hle⟩ := exists_entry_before (A := A) (B := B)
    (hok.ascending.sublist ((List.sublist_append_left A B).cons_cons e))
  rw [← htree] at hlast
  have hnext : s.tree[A.length + 1]? = B.head? := htree ▸ getElem?_entry_behind
  have hidx : ¬(A.length + 1 = 0 ∨ s.tree.length < A.length + 1) := by
    rw [htree]
    simp
  have hAB := hok.ascending
  rw [Ascending, ← List.cons_append, List.pairwise_append] at hAB
  obtain ⟨stop, hstop, hxstop, hB, p', q', hstopAt⟩ : ∃ stop,
      (s.tree[A.length + 1]?.map RwAuxTree.offset).getD s.endOffset = stop ∧ x.offset ≤ stop ∧
      (∀ b ∈ B, stop ≤ b.offset) ∧ ∃ p' q', s.keys = p' ++ q' ∧
        stop = s.firstOffset + total BkeyPacked.u64s p' := by
    rw [hnext]
    cases B with
    | nil =>
      exact ⟨s.endOffset, rfl, hok.le_end (by simpa using hx), by simp, s.keys, [], by simp, rfl⟩
    | cons b B =>
      have hb : b ∈ e :: (A ++ b :: B) := by simp
      refine ⟨b.offset, rfl, (hAB.2.2 x hx b List.mem_cons_self).le, fun y hy => ?_,
        hok.boundary hb⟩
      rcases List.mem_cons.mp hy with rfl | hy
      · exact le_rfl
      · exact (List.rel_of_pairwise_cons hAB.2.1 hy).le
  rw [rwAuxTreeInsertEntry, if_neg hidx, Nat.add_sub_cancel, hlast, hstop]
  simp only [Option.map_some, Option.bind_eq_bind, Option.bind_some, if_neg hxstop.not_gt]
  by_cases hroom : s.tree.length < s.capacity ∧ (stop - x.offset) * 8 > l1CacheBytes
  swap
  · rw [if_neg hroom]
    exact hkept
  rw [if_pos hroom]
  -- Both neighbours are boundaries, so the walk stays on keys.
  obtain ⟨p, q, hkeys, hxAt⟩ := hok.boundary (x := x) (by
    rcases List.mem_cons.mp hx with rfl | hx
    · exact List.mem_cons_self
    · exact List.mem_cons_of_mem e (List.mem_append_left B hx))
  obtain ⟨q₁, q₂, rfl, htotal⟩ := exists_between (hkeys.symm.trans hstopAt.1) (by omega)
  have hstopEq : stop = x.offset + total BkeyPacked.u64s q₁ := by omega
  have hq₁ : q₁ ≠ [] := by
    rintro rfl
    rw [total_nil] at hstopEq
    have := hroom.2
    omega
  rw [RwBset.keysAt_of_boundary hpos hkeys hxAt]
  simp only [Option.bind_some]
  obtain hnone | ⟨p₁, k, p₂, hsplit, hp₁, hsome⟩ :=
    walkLine_spec q₂ hq₁ (fun k hk => hpos k (by simp [hkeys, hk])) (le_refl x.offset)
  · rw [hstopEq, hnone]
    exact hkept
  · have hat : s.keys = (p ++ p₁) ++ k :: (p₂ ++ q₂) := by simp [hkeys, hsplit]
    have hoff : x.offset + total BkeyPacked.u64s p₁ =
        s.firstOffset + total BkeyPacked.u64s (p ++ p₁) := by
      rw [total_append]
      omega
    rw [hstopEq, hsome]
    simp only [Option.bind_some, RwBset.rwAuxTreeSet_of_boundary hpos hat hoff]
    have hk := hpos k (by simp [hat])
    have hp₁pos : 0 < total BkeyPacked.u64s p₁ := by
      obtain ⟨k', p₁, rfl⟩ := List.exists_cons_of_ne_nil hp₁
      have := hpos k' (by simp [hkeys, hsplit])
      rw [total_cons]
      omega
    have hbelow : x.offset + total BkeyPacked.u64s p₁ < stop := by
      rw [hstopEq, hsplit, total_append, total_cons]
      omega
    refine ⟨e, A ++ ⟨x.offset + total BkeyPacked.u64s p₁, k.pos⟩ :: B, ?_, ?_, ?_⟩
    · rw [htree, List.insertIdx_succ_cons, insertIdx_append_length]
    · refine hok.insert ⟨k, mem_laid_iff.mpr ⟨p ++ p₁, p₂ ++ q₂, hat, hoff⟩, rfl⟩ (fun a ha => ?_)
        fun b hb => lt_of_lt_of_le hbelow (hB b hb)
      exact lt_of_le_of_lt (hle a ha) (by dsimp only; omega)
    · have := hroom.1
      rw [htree] at this
      simp only [List.length_cons, List.length_append] at this ⊢
      omega

/-! ### Moving entries -/

/-- Entries for later keys behind the entries of a table. -/
theorem TableOk.append (hok : TableOk first keys e A) (hB : Ascending B)
    (hnamed : ∀ b ∈ B, Named first keys b) (hAB : ∀ a ∈ e :: A, ∀ b ∈ B, a.offset < b.offset) :
    TableOk first keys e (A ++ B) where
  first_eq := hok.first_eq
  ascending := by
    rw [Ascending, ← List.cons_append, List.pairwise_append]
    exact ⟨hok.ascending, hB, hAB⟩
  named x hx := (List.mem_append.mp hx).elim (hok.named x) (hnamed x)

/-- The entry of a key behind an edit of `clobber` words moves with the key. -/
theorem shifted_spec {clobber : ℕ} {shift : ℤ} {b : RwAuxTree}
    (hshift : shift = (total BkeyPacked.u64s new : ℤ) - clobber)
    (hpos : ∀ k ∈ post, 0 < k.u64s) (hb : Named (W + clobber) post b)
    (hend : W + total BkeyPacked.u64s new + total BkeyPacked.u64s post < 2 ^ 16) :
    (b.shifted shift).offset + clobber = b.offset + total BkeyPacked.u64s new ∧
      Named (W + total BkeyPacked.u64s new) post (b.shifted shift) := by
  have hlow := hb.bounds.1
  have hhigh := hb.lt_end hpos
  obtain ⟨d, hd⟩ := Nat.exists_eq_add_of_le hlow
  have hoff : (b.shifted shift).offset = W + total BkeyPacked.u64s new + d := by
    have hsum : (b.offset : ℤ) + shift = ((W + total BkeyPacked.u64s new + d : ℕ) : ℤ) := by
      push_cast
      omega
    have hlt : ((W + total BkeyPacked.u64s new + d : ℕ) : ℤ) < 2 ^ 16 := by
      rw [show ((2 : ℤ) ^ 16) = ((2 ^ 16 : ℕ) : ℤ) by norm_num, Int.ofNat_lt]
      omega
    rw [RwAuxTree.shifted, hsum, Int.emod_eq_of_lt (Int.natCast_nonneg _) hlt, Int.toNat_natCast]
  refine ⟨by omega, ?_⟩
  have hb' : Named (W + clobber) post ⟨W + clobber + d, b.k⟩ := by rwa [← hd]
  have hshift := hb'.shift (W + total BkeyPacked.u64s new)
  rwa [← hoff] at hshift

theorem fixFrom_spec {s : RwBset} {clobber : ℕ} {shift : ℤ}
    (hshift : shift = (total BkeyPacked.u64s new : ℤ) - clobber) (hpos : ∀ k ∈ s.keys, 0 < k.u64s)
    (hkeys : s.keys = pre ++ (new ++ post)) (hW : W = s.firstOffset + total BkeyPacked.u64s pre)
    (hend : s.endOffset < 2 ^ 16) (htree : s.tree = e :: (A ++ B))
    (hA : TableOk s.firstOffset s.keys e A) (hAW : ∀ a ∈ e :: A, a.offset ≤ W)
    (hB : Ascending B) (hBW : ∀ b ∈ B, W < b.offset ∧ Named (W + clobber) post b)
    (hcap : s.tree.length ≤ s.capacity) :
    Keeps s (fixFrom s W shift (A.length + 1)) := by
  have hendW : W + total BkeyPacked.u64s new + total BkeyPacked.u64s post < 2 ^ 16 := by
    rw [RwBset.endOffset, hkeys, total_append, total_append] at hend
    omega
  have hmoved (b : RwAuxTree) (hb : b ∈ B) :=
    shifted_spec hshift (fun k hk => hpos k (by simp [hkeys, hk])) (hBW b hb).2 hendW
  have hnamed (b : RwAuxTree) (hb : b ∈ B) : Named s.firstOffset s.keys (b.shifted shift) := by
    rw [hkeys, named_append, named_append, ← hW]
    exact Or.inr (Or.inr (hmoved b hb).2)
  have hascending : Ascending (B.map (RwAuxTree.shifted shift)) := by
    rw [Ascending, List.pairwise_map]
    refine hB.imp_of_mem fun {a b} ha hb hab => ?_
    have := (hmoved a ha).1
    have := (hmoved b hb).1
    omega
  -- The entry before the ones that move.
  obtain ⟨x, hx, hlast, hle⟩ := exists_entry_before (B := B) hA.ascending
  have hnext : (e :: (A ++ B))[A.length + 1]? = B.head? := getElem?_entry_behind
  -- Entries from the moved ones that are behind `x` make a table.
  have hfinish (C : List RwAuxTree) (hC : C.Sublist (B.map (RwAuxTree.shifted shift)))
      (hxC : ∀ c ∈ C, x.offset < c.offset) :
      Keeps s (rwAuxTreeInsertEntry { s with tree := e :: (A ++ C) } (A.length + 1)) := by
    refine rwAuxTreeInsertEntry_spec (s := { s with tree := e :: (A ++ C) }) hpos rfl
      (hA.append (hascending.sublist hC) (fun c hc => ?_)
        fun a ha c hc => lt_of_le_of_lt (hle a ha) (hxC c hc)) ?_
    · obtain ⟨b, hb, rfl⟩ := List.mem_map.mp (hC.subset hc)
      exact hnamed b hb
    · have hlen := hC.length_le
      rw [htree] at hcap
      simp only [List.length_map, List.length_cons, List.length_append] at hlen hcap ⊢
      exact le_trans (by omega) hcap
  have hxW := hAW x hx
  rw [fixFrom, htree, hnext, Nat.add_sub_cancel, hlast]
  cases B with
  | nil =>
    simpa using hfinish [] (List.Sublist.refl _) (by simp)
  | cons b B =>
    have hbW := (hBW b List.mem_cons_self).1
    have hbx := (hmoved b List.mem_cons_self).1
    have hbB := (List.pairwise_cons.mp hascending).1
    have hbnamed := (hmoved b List.mem_cons_self).2.bounds.1
    simp only [List.head?_cons, Option.any_some, decide_eq_true_eq, if_neg hbW.not_ge]
    by_cases hcollapse : (b.offset : ℤ) + shift = x.offset
    · simp only [hcollapse, if_true]
      have herase : (e :: (A ++ b :: B)).eraseIdx (A.length + 1) = e :: (A ++ B) := by
        rw [List.eraseIdx_cons_succ, List.eraseIdx_append_of_length_le le_rfl]
        simp
      rw [herase]
      have hsplit : (e :: (A ++ B)).take (A.length + 1) = e :: A ∧
          (e :: (A ++ B)).drop (A.length + 1) = B := by simp
      rw [hsplit.1, hsplit.2]
      refine hfinish (B.map (RwAuxTree.shifted shift)) (List.sublist_cons_self _ _) fun c hc => ?_
      have := hbB c hc
      omega
    · simp only [hcollapse, if_false]
      have hsplit : (e :: (A ++ b :: B)).take (A.length + 1) = e :: A ∧
          (e :: (A ++ b :: B)).drop (A.length + 1) = b :: B := by simp
      rw [hsplit.1, hsplit.2]
      refine hfinish ((b :: B).map (RwAuxTree.shifted shift)) (List.Sublist.refl _) fun c hc => ?_
      have hxb : x.offset < (b.shifted shift).offset := by omega
      rcases List.mem_cons.mp hc with rfl | hc
      · exact hxb
      · exact hxb.trans (hbB c hc)

/-! ### Patching after an edit -/

theorem bsearchDown_eq {offset : ℕ} (hA : ∀ a ∈ A, a.offset < offset)
    (hB : ∀ b ∈ B, offset ≤ b.offset) {i : ℕ} (hlow : A.length ≤ i)
    (hhigh : i ≤ A.length + B.length) : bsearchDown (A ++ B) offset i = A.length := by
  induction i with
  | zero => rw [bsearchDown, Nat.le_zero.mp hlow]
  | succ i ih =>
    rw [bsearchDown]
    rcases Nat.lt_or_ge i A.length with hi | hi
    · rw [List.getElem?_append_left hi, List.getElem?_eq_getElem hi, Option.any_some,
        if_neg (by simpa using hA _ (List.getElem_mem hi))]
      omega
    · have hiB : i - A.length < B.length := by omega
      rw [List.getElem?_append_right hi, List.getElem?_eq_getElem hiB, Option.any_some,
        if_pos (by simpa using hB _ (List.getElem_mem hiB))]
      exact ih hi (by omega)

/-- The search finds the first entry that is not below the offset, whatever the guess was. -/
theorem rwAuxTreeBsearch_eq {s : RwBset} {offset : ℕ} (htree : s.tree = A ++ B)
    (hA : ∀ a ∈ A, a.offset < offset) (hB : ∀ b ∈ B, offset ≤ b.offset)
    (hend : offset ≤ s.endOffset) : rwAuxTreeBsearch s offset = some A.length := by
  have hguess : (if s.endOffset - s.firstOffset ≠ 0 then
      (offset - s.firstOffset) * s.tree.length / (s.endOffset - s.firstOffset) else 0) ≤
      s.tree.length := by
    split_ifs
    · exact Nat.div_le_of_le_mul (Nat.mul_le_mul_right _ (by omega))
    · exact Nat.zero_le _
  rw [rwAuxTreeBsearch]
  dsimp only
  generalize (if s.endOffset - s.firstOffset ≠ 0 then
      (offset - s.firstOffset) * s.tree.length / (s.endOffset - s.firstOffset) else 0) = i
    at hguess ⊢
  rw [if_neg hguess.not_gt, Option.some.injEq]
  rw [htree, List.length_append] at hguess
  have hstop (C : List RwAuxTree) (hC : ∀ c ∈ C, c ∈ B) :
      C.takeWhile (fun e => decide (e.offset < offset)) = [] := by
    cases C with
    | nil => rfl
    | cons c C => simpa [List.takeWhile_cons] using hB c (hC c List.mem_cons_self)
  rw [htree]
  rcases Nat.lt_or_ge i A.length with hi | hi
  · have hup : ((A ++ B).drop i).takeWhile (fun e => decide (e.offset < offset)) = A.drop i := by
      rw [List.drop_append_of_le_length hi.le, List.takeWhile_append_of_pos, hstop B fun c hc => hc,
        List.append_nil]
      exact fun a ha => by simpa using hA a (List.mem_of_mem_drop ha)
    rw [hup, List.length_drop, Nat.add_sub_cancel' hi.le]
    exact bsearchDown_eq hA hB le_rfl (Nat.le_add_right _ _)
  · have hup : ((A ++ B).drop i).takeWhile (fun e => decide (e.offset < offset)) = [] := by
      rw [List.drop_append, List.drop_of_length_le hi, List.nil_append]
      exact hstop _ fun c hc => List.mem_of_mem_drop hc
    rw [hup, List.length_nil, Nat.add_zero]
    exact bsearchDown_eq hA hB hi hguess

/-- A table cut at an offset. -/
theorem Ascending.exists_cut {tree : List RwAuxTree} (h : Ascending tree) (offset : ℕ) :
    ∃ A B, tree = A ++ B ∧ (∀ a ∈ A, a.offset < offset) ∧ ∀ b ∈ B, offset ≤ b.offset := by
  induction tree with
  | nil => exact ⟨[], [], rfl, by simp, by simp⟩
  | cons x tree ih =>
    obtain ⟨hx, htree⟩ := List.pairwise_cons.mp h
    rcases Nat.lt_or_ge x.offset offset with hlt | hge
    · obtain ⟨A, B, rfl, hA, hB⟩ := ih htree
      exact ⟨x :: A, B, rfl, List.forall_mem_cons.mpr ⟨hlt, hA⟩, hB⟩
    · exact ⟨[], x :: tree, rfl, by simp,
        List.forall_mem_cons.mpr ⟨hge, fun b hb => hge.trans (hx b hb).le⟩⟩

theorem bch2BsetFixLookupTable_spec {s : RwBset} (hpos : ∀ k ∈ s.keys, 0 < k.u64s)
    (hkeys : s.keys = pre ++ (new ++ post)) (hmid : mid.length ≤ 1)
    (hW : W = s.firstOffset + total BkeyPacked.u64s pre) (hend : s.endOffset < 2 ^ 16)
    (htree : s.tree = e :: es) (hok : TableOk s.firstOffset (pre ++ (mid ++ post)) e es)
    (hcap : s.tree.length ≤ s.capacity) :
    Keeps s (bch2BsetFixLookupTable s W (total BkeyPacked.u64s mid)
      (total BkeyPacked.u64s new)) := by
  have hprePos (k : BkeyPacked) (hk : k ∈ pre) : 0 < k.u64s := hpos k (by simp [hkeys, hk])
  have hWend : W ≤ s.endOffset := by
    rw [RwBset.endOffset, hkeys, total_append]
    omega
  have hback (x : RwAuxTree) (hx : x ∈ es) (hlt : W < x.offset) :
      W < x.offset ∧ Named (W + total BkeyPacked.u64s mid) post x := by
    have hx := hok.named x hx
    rw [named_append, named_append, ← hW] at hx
    rcases hx with hx | hx | hx
    · have := hx.lt_end hprePos
      omega
    · have := hx.offset_eq hmid
      omega
    · exact ⟨hlt, hx⟩
  have hfront (x : RwAuxTree) (hx : x ∈ es) (hlt : x.offset < W) :
      Named s.firstOffset s.keys x := by
    have hx := hok.named x hx
    rw [named_append, named_append, ← hW] at hx
    rw [hkeys, named_append]
    rcases hx with hx | hx | hx
    · exact Or.inl hx
    · have := hx.bounds
      omega
    · have := hx.bounds
      omega
  obtain ⟨A, B, hcut, hA, hB⟩ := hok.ascending.exists_cut W
  -- The last entry is below the edit exactly when all are.
  obtain ⟨last, hlast, hlastW⟩ : ∃ last, s.tree.getLast? = some last ∧
      (last.offset < W ↔ B = []) := by
    refine ⟨(e :: es).getLast (by simp), by rw [htree, List.getLast?_eq_some_getLast], ?_⟩
    constructor
    · intro hlt
      by_contra hne
      obtain ⟨b, B, rfl⟩ := List.exists_cons_of_ne_nil hne
      have hb : b ∈ e :: es := by simp [hcut]
      have := hok.ascending.le_getLast (by simp) hb
      have := hB b List.mem_cons_self
      omega
    · rintro rfl
      refine hA _ ?_
      rw [List.append_nil] at hcut
      simp only [← hcut]
      exact List.getLast_mem _
  rw [bch2BsetFixLookupTable, hlast]
  simp only [Option.bind_eq_bind, Option.bind_some]
  rw [rwAuxTreeBsearch_eq (htree.trans hcut) hA hB hWend]
  simp only [Option.bind_some]
  cases A with
  | nil =>
    -- The edit is at the first key.
    rw [List.nil_append] at hcut
    have hne : B ≠ [] := by simp [← hcut]
    have heW : e.offset = W := by
      have := hB e (by simp [← hcut])
      have := hok.first_eq
      omega
    rw [if_neg (by rw [gt_iff_lt, hlastW]; exact hne)]
    simp only [htree, List.length_nil, List.getElem?_cons_zero, Option.bind_some, heW, if_true]
    refine fixFrom_spec (A := []) (B := es) rfl hpos hkeys hW hend htree
      ⟨hok.first_eq, List.pairwise_singleton _ _, by simp⟩ (by simp [heW])
      (List.pairwise_cons.mp hok.ascending).2 (fun b hb => hback b hb ?_) hcap
    exact heW ▸ (List.pairwise_cons.mp hok.ascending).1 b hb
  | cons a A =>
    rw [List.cons_append] at hcut
    obtain ⟨rfl, rfl⟩ := List.cons.inj hcut
    have hasc := hok.ascending
    rw [Ascending, ← List.cons_append, List.pairwise_append] at hasc
    have hokA : TableOk s.firstOffset s.keys e A :=
      ⟨hok.first_eq, hasc.1, fun x hx => hfront x (List.mem_append_left B hx)
        (hA x (List.mem_cons_of_mem e hx))⟩
    cases B with
    | nil =>
      rw [if_pos (hlastW.mpr rfl), htree]
      rw [htree] at hcap
      have := rwAuxTreeInsertEntry_spec (A := A) (B := []) hpos htree (by simpa using hokA)
        (by rwa [htree])
      simpa [htree] using this
    | cons b B =>
      rw [if_neg (by rw [gt_iff_lt, hlastW]; simp)]
      have hidx : s.tree[A.length + 1]? = some b := by
        rw [htree, getElem?_entry_behind, List.head?_cons]
      have hBback (x : RwAuxTree) (hx : x ∈ B) := hback x (by simp [hx])
        (lt_of_le_of_lt (hB b List.mem_cons_self) (List.rel_of_pairwise_cons hasc.2.1 hx))
      simp only [List.length_cons, hidx, Option.bind_some, Nat.add_one_ne_zero, if_false]
      by_cases hbW : b.offset = W
      swap
      · rw [if_neg hbW]
        refine fixFrom_spec rfl hpos hkeys hW hend htree hokA (fun x hx => (hA x hx).le) hasc.2.1
          (fun x hx => ?_) hcap
        rcases List.mem_cons.mp hx with rfl | hx
        · exact hback x (by simp) (lt_of_le_of_ne (hB x List.mem_cons_self) (Ne.symm hbW))
        · exact hBback x hx
      rw [if_pos hbW]
      by_cases hWlt : W < s.endOffset
      · -- The entry at the edit gets the key that is there now.
        rw [if_pos hWlt]
        obtain ⟨k, rest, hrest⟩ : ∃ k rest, new ++ post = k :: rest := by
          refine List.exists_cons_of_ne_nil fun hnil => ?_
          rw [RwBset.endOffset, hkeys, hnil, List.append_nil] at hWlt
          omega
        rw [RwBset.rwAuxTreeSet_of_boundary hpos (hkeys.trans (by rw [hrest])) hW]
        have hset : s.tree.set (A.length + 1) ⟨W, k.pos⟩ =
            e :: ((A ++ [⟨W, k.pos⟩]) ++ B) := by
          rw [htree]
          simp
        have hnew : Named s.firstOffset s.keys ⟨W, k.pos⟩ := by
          rw [hkeys, named_append, ← hW, hrest]
          exact Or.inr (named_head k rest)
        have hokA' : TableOk s.firstOffset s.keys e (A ++ [⟨W, k.pos⟩]) :=
          hokA.append (List.pairwise_singleton _ _) (by simpa using hnew)
            (fun x hx y hy => by rw [List.mem_singleton.mp hy]; exact hA x hx)
        simp only [Option.bind_some, hset]
        have hlen : A.length + 1 + 1 = (A ++ [(⟨W, k.pos⟩ : RwAuxTree)]).length + 1 := by simp
        rw [hlen]
        refine fixFrom_spec (s := { s with tree := _ }) rfl hpos hkeys hW hend rfl hokA'
          (fun x hx => ?_) (List.pairwise_cons.mp hasc.2.1).2 hBback ?_
        · rw [← List.cons_append] at hx
          rcases List.mem_append.mp hx with hx | hx
          · exact (hA x hx).le
          · rw [List.mem_singleton.mp hx]
        · rw [htree] at hcap
          simp only [List.length_cons, List.length_append, List.length_nil] at hcap ⊢
          exact le_trans (by omega) hcap
      · -- The last key was deleted, and with it the last entry.
        have hWeq : W = s.endOffset := by omega
        rw [if_neg hWlt, if_pos hWeq]
        have hpost : post = [] := by
          cases post with
          | nil => rfl
          | cons k post =>
            have := hpos k (by simp [hkeys])
            rw [RwBset.endOffset, hkeys, total_append, total_append, total_cons] at hWeq
            omega
        have hBnil : B = [] := List.eq_nil_iff_forall_not_mem.mpr fun x hx =>
          not_named_nil (hpost ▸ (hBback x hx).2)
        subst hBnil
        have htake : s.tree.take (s.tree.length - 1) = e :: (A ++ []) := by
          rw [htree]
          simp
        have hsize : s.tree.length - 1 = A.length + 1 := by
          rw [htree]
          simp
        rw [htake, hsize]
        have hokA' : TableOk s.firstOffset s.keys e (A ++ []) := by rwa [List.append_nil]
        refine rwAuxTreeInsertEntry_spec (s := { s with tree := _ }) hpos rfl hokA' ?_
        rw [htree] at hcap
        simp only [List.length_cons, List.length_append, List.length_nil] at hcap ⊢
        exact le_trans (by omega) hcap

/-! ### Building -/

/-- The loop over the keys from `off` on, when no entry is behind `off`. -/
theorem buildLoop_spec {capacity off : ℕ} (hkeys : keys = pre ++ post)
    (hoff : off = first + total BkeyPacked.u64s pre) (hok : TableOk first keys e es)
    (hle : ∀ x ∈ e :: es, x.offset ≤ off) (hlen : (e :: es).length ≤ capacity) :
    ∃ es', buildLoop capacity (e :: es) off post = e :: es' ∧ TableOk first keys e es' ∧
      (e :: es').length ≤ capacity := by
  induction post generalizing pre off es with
  | nil => exact ⟨es, by rw [buildLoop], hok, hlen⟩
  | cons k post ih =>
    have hkeys' : keys = (pre ++ [k]) ++ post := by rw [hkeys, List.append_assoc]; rfl
    have hoff' : off + k.u64s = first + total BkeyPacked.u64s (pre ++ [k]) := by
      rw [total_append, total_cons, total_nil]
      omega
    have hlast : (e :: es).getLastD ⟨0, k.pos⟩ = (e :: es).getLast (by simp) := by
      rw [List.getLastD_eq_getLast?, List.getLast?_eq_some_getLast (by simp), Option.getD_some]
    rw [buildLoop]
    by_cases hfull : (e :: es).length = capacity
    · rw [if_pos hfull]
      exact ⟨es, rfl, hok, hlen⟩
    rw [if_neg hfull, hlast]
    dsimp only
    by_cases hline : (off - ((e :: es).getLast (by simp)).offset) * 8 > l1CacheBytes
    · rw [if_pos hline, List.cons_append]
      have hnamed : Named first keys ⟨off, k.pos⟩ := by
        rw [hkeys, named_append, ← hoff]
        exact Or.inr (named_head k post)
      have hbehind (x : RwAuxTree) (hx : x ∈ e :: es) : x.offset < off := by
        have := hok.ascending.le_getLast (by simp) hx
        omega
      refine ih hkeys' hoff' (hok.append (List.pairwise_singleton _ _) (by simpa using hnamed)
        fun x hx y hy => ?_) (fun x hx => ?_) ?_
      · rw [List.mem_singleton.mp hy]
        exact hbehind x hx
      · rw [← List.cons_append] at hx
        rcases List.mem_append.mp hx with hx | hx
        · exact le_trans (hle x hx) (Nat.le_add_right _ _)
        · rw [List.mem_singleton.mp hx]
          exact Nat.le_add_right _ _
      · simp only [List.length_cons, List.length_append, List.length_nil] at hlen hfull ⊢
        omega
    · rw [if_neg hline]
      exact ih hkeys' hoff' hok (fun x hx => le_trans (hle x hx) (Nat.le_add_right _ _)) hlen

theorem buildRwAuxTree_spec {s : RwBset} (stale : Bpos) (hcap : 1 ≤ s.capacity) :
    Keeps s (some (buildRwAuxTree s stale)) := by
  have hok : TableOk s.firstOffset s.keys ⟨s.firstOffset, stale⟩ [] :=
    ⟨rfl, List.pairwise_singleton _ _, by simp⟩
  obtain ⟨es, htree, hok, hlen⟩ :=
    buildLoop_spec (List.nil_append s.keys).symm rfl hok (by simp) hcap
  rw [total_nil, Nat.add_zero] at htree
  exact ⟨⟨s.firstOffset, stale⟩, es, by rw [buildRwAuxTree, htree], hok, hlen⟩

end Subvol

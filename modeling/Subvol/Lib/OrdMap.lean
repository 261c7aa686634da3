import Mathlib.Data.List.Nodup
import Mathlib.Order.Basic
import Mathlib.Order.Lattice
import Mathlib.Tactic.Common

/-!
# Maps with their keys in order

A finite map is the list of its entries in the strict order of their keys, so a scan of the map is a
walk over that list.

## Main definitions

* `OrdMap`, `OrdMap.get`, `OrdMap.set`, `OrdMap.put`.
* `OrdMap.mapSome`: the map with some of its values, changed.
* `OrdMap.setAll`: values set one after the other.

## Main results

* `OrdMap.mem_entries_iff`: the entries of a scan are those of the map.
* `OrdMap.get_set_self`, `OrdMap.get_set_of_ne`, `OrdMap.set_set`.
* `OrdMap.entries_eq_iff`: maps with the same values are the same scan.
* `OrdMap.get_setAll`.
-/

namespace Subvol.Lib

/-- A map as the list of its entries in the order of their keys. -/
structure OrdMap (κ ν : Type*) [LinearOrder κ] where
  entries : List (κ × ν) := []
  sorted : entries.Pairwise fun a b => a.1 < b.1

namespace OrdMap

variable {κ ν : Type*} [LinearOrder κ]

/-- The entry of a key in its place. -/
def insertEntry (k : κ) (v : ν) : List (κ × ν) → List (κ × ν)
  | [] => [(k, v)]
  | (k', v') :: rest =>
    if k' < k then (k', v') :: insertEntry k v rest
    else if k' = k then (k, v) :: rest
    else (k, v) :: (k', v') :: rest

theorem mem_insertEntry {k : κ} {v : ν} {l : List (κ × ν)} (hl : l.Pairwise fun a b => a.1 < b.1)
    {e : κ × ν} : e ∈ insertEntry k v l ↔ e = (k, v) ∨ (e ∈ l ∧ e.1 ≠ k) := by
  induction l with
  | nil => simp [insertEntry]
  | cons a rest ih =>
    obtain ⟨k', v'⟩ := a
    obtain ⟨hfirst, hrest⟩ := List.pairwise_cons.mp hl
    rw [insertEntry]
    split_ifs with hlt heq
    · rw [List.mem_cons, ih hrest, List.mem_cons]
      constructor
      · rintro (rfl | rfl | ⟨he, hne⟩)
        · exact .inr ⟨.inl rfl, hlt.ne⟩
        · exact .inl rfl
        · exact .inr ⟨.inr he, hne⟩
      · rintro (rfl | ⟨rfl | he, hne⟩)
        · exact .inr (.inl rfl)
        · exact .inl rfl
        · exact .inr (.inr ⟨he, hne⟩)
    · subst heq
      rw [List.mem_cons, List.mem_cons]
      constructor
      · rintro (rfl | he)
        · exact .inl rfl
        · exact .inr ⟨.inr he, (hfirst e he).ne'⟩
      · rintro (rfl | ⟨rfl | he, hne⟩)
        · exact .inl rfl
        · exact absurd rfl hne
        · exact .inr he
    · have hgt : k < k' := lt_of_le_of_ne (not_lt.mp hlt) (Ne.symm heq)
      rw [List.mem_cons]
      constructor
      · rintro (rfl | he)
        · exact .inl rfl
        · refine .inr ⟨he, ?_⟩
          rcases List.mem_cons.mp he with rfl | he
          · exact heq
          · exact (hgt.trans (hfirst e he)).ne'
      · rintro (rfl | ⟨he, -⟩)
        · exact .inl rfl
        · exact .inr he

theorem pairwise_insertEntry {k : κ} {v : ν} {l : List (κ × ν)}
    (hl : l.Pairwise fun a b => a.1 < b.1) :
    (insertEntry k v l).Pairwise fun a b => a.1 < b.1 := by
  induction l with
  | nil => exact List.pairwise_singleton _ _
  | cons a rest ih =>
    obtain ⟨k', v'⟩ := a
    obtain ⟨hfirst, hrest⟩ := List.pairwise_cons.mp hl
    rw [insertEntry]
    split_ifs with hlt heq
    · refine List.pairwise_cons.mpr ⟨fun e he => ?_, ih hrest⟩
      rcases (mem_insertEntry hrest).mp he with rfl | ⟨he, -⟩
      · exact hlt
      · exact hfirst e he
    · subst heq
      exact List.pairwise_cons.mpr ⟨hfirst, hrest⟩
    · have hgt : k < k' := lt_of_le_of_ne (not_lt.mp hlt) (Ne.symm heq)
      refine List.pairwise_cons.mpr ⟨fun e he => ?_, hl⟩
      rcases List.mem_cons.mp he with rfl | he
      · exact hgt
      · exact hgt.trans (hfirst e he)

/-- The map without entries. -/
def empty : OrdMap κ ν := ⟨[], List.Pairwise.nil⟩

/-- The value of a key. -/
def get (m : OrdMap κ ν) (k : κ) : Option ν := (m.entries.find? fun e => e.1 = k).map Prod.snd

/-- The map with the value of a key replaced. -/
def set (m : OrdMap κ ν) (k : κ) (v : ν) : OrdMap κ ν :=
  ⟨insertEntry k v m.entries, pairwise_insertEntry m.sorted⟩

theorem mem_entries_iff (m : OrdMap κ ν) {k : κ} {v : ν} :
    (k, v) ∈ m.entries ↔ m.get k = some v := by
  rw [get, Option.map_eq_some_iff]
  constructor
  · intro hmem
    cases hfind : m.entries.find? fun e => e.1 = k with
    | none =>
      have hnone := List.find?_eq_none.mp hfind (k, v) hmem
      exact absurd (decide_eq_true rfl) hnone
    | some e =>
      have hkey : e.1 = k := by simpa using List.find?_some hfind
      have he := List.mem_of_find?_eq_some hfind
      refine ⟨e, rfl, ?_⟩
      -- two entries of one key are the same entry
      have hnodup : (m.entries.map Prod.fst).Nodup :=
        List.pairwise_map.mpr (m.sorted.imp fun h => h.ne)
      have hsame : e = (k, v) := List.inj_on_of_nodup_map hnodup he hmem hkey
      rw [hsame]
  · rintro ⟨e, hfind, rfl⟩
    have hkey : e.1 = k := by simpa using List.find?_some hfind
    rw [← hkey]
    exact List.mem_of_find?_eq_some hfind

theorem get_set_self (m : OrdMap κ ν) (k : κ) (v : ν) : (m.set k v).get k = some v := by
  rw [← mem_entries_iff]
  exact (mem_insertEntry m.sorted).mpr (.inl rfl)

theorem get_set_of_ne (m : OrdMap κ ν) {k k' : κ} (v : ν) (h : k' ≠ k) :
    (m.set k v).get k' = m.get k' := by
  refine Option.ext fun w => ?_
  rw [← mem_entries_iff, ← mem_entries_iff, set, mem_insertEntry m.sorted]
  constructor
  · rintro (heq | ⟨hmem, -⟩)
    · exact absurd (congrArg Prod.fst heq) h
    · exact hmem
  · exact fun hmem => .inr ⟨hmem, h⟩

theorem insertEntry_of_mem {k : κ} {v : ν} {l : List (κ × ν)}
    (hl : l.Pairwise fun a b => a.1 < b.1) (hmem : (k, v) ∈ l) : insertEntry k v l = l := by
  induction l with
  | nil => cases hmem
  | cons a rest ih =>
    obtain ⟨hfirst, hrest⟩ := List.pairwise_cons.mp hl
    rcases List.mem_cons.mp hmem with rfl | hmem
    · rw [insertEntry, if_neg (lt_irrefl k), if_pos rfl]
    · rw [insertEntry, if_pos (hfirst (k, v) hmem), ih hrest hmem]

/-- Setting a key to the value it has changes nothing. -/
theorem set_of_get (m : OrdMap κ ν) {k : κ} {v : ν} (h : m.get k = some v) : m.set k v = m := by
  obtain ⟨entries, sorted⟩ := m
  have heq := insertEntry_of_mem sorted ((mem_entries_iff ⟨entries, sorted⟩).mpr h)
  simp only [set, heq]

theorem set_set (m : OrdMap κ ν) (k : κ) (v : ν) : (m.set k v).set k v = m.set k v :=
  set_of_get _ (get_set_self m k v)

theorem get_set (m : OrdMap κ ν) (k k' : κ) (v : ν) :
    (m.set k v).get k' = if k' = k then some v else m.get k' := by
  split_ifs with h
  · rw [h, get_set_self]
  · exact get_set_of_ne m v h

/-- The map with the value of a key replaced, or taken away. -/
def put (m : OrdMap κ ν) (k : κ) : Option ν → OrdMap κ ν
  | some v => m.set k v
  | none => ⟨m.entries.filter fun e => e.1 ≠ k, m.sorted.filter _⟩

theorem get_put (m : OrdMap κ ν) (k k' : κ) (v : Option ν) :
    (m.put k v).get k' = if k' = k then v else m.get k' := by
  cases v with
  | some v => exact get_set m k k' v
  | none =>
    refine Option.ext fun w => ?_
    rw [← mem_entries_iff, put, List.mem_filter]
    split_ifs with hk
    · subst hk
      simp
    · rw [← mem_entries_iff]
      simp [hk]

/-- Putting what is there changes nothing. -/
theorem put_of_get (m : OrdMap κ ν) {k : κ} {v : Option ν} (h : m.get k = v) : m.put k v = m := by
  cases v with
  | some v => exact set_of_get m h
  | none =>
    obtain ⟨entries, sorted⟩ := m
    have hfilter : entries.filter (fun e => e.1 ≠ k) = entries := by
      refine List.filter_eq_self.mpr fun e he => decide_eq_true fun hk => ?_
      subst hk
      have hget := (mem_entries_iff ⟨entries, sorted⟩).mp he
      rw [h] at hget
      cases hget
    simp only [put, hfilter]

/-- Maps with the same values have the same entries. -/
theorem entries_eq_iff {m m' : OrdMap κ ν} :
    m.entries = m'.entries ↔ ∀ k, m.get k = m'.get k := by
  constructor
  · intro h k
    rw [get, get, h]
  · intro h
    have hmem : ∀ e, e ∈ m.entries ↔ e ∈ m'.entries := by
      rintro ⟨k, v⟩
      rw [mem_entries_iff, mem_entries_iff, h]
    have hnodup : ∀ n : OrdMap κ ν, n.entries.Nodup := fun n =>
      n.sorted.imp fun {a b} hlt heq => absurd (congrArg Prod.fst heq) hlt.ne
    refine ((List.perm_ext_iff_of_nodup (hnodup m) (hnodup m')).mpr hmem).eq_of_pairwise
      (fun a b _ _ hab hba => ?_) m.sorted m'.sorted
    exact absurd hab (lt_asymm hba)

/-- The entries whose value gives one, with it. -/
def mapSome {μ : Type*} (m : OrdMap κ ν) (f : ν → Option μ) : OrdMap κ μ where
  entries := m.entries.filterMap fun e => (f e.2).map (Prod.mk e.1)
  sorted := by
    refine List.pairwise_filterMap.mpr (m.sorted.imp fun {a b} hlt x hx y hy => ?_)
    obtain ⟨_, -, rfl⟩ := Option.map_eq_some_iff.mp hx
    obtain ⟨_, -, rfl⟩ := Option.map_eq_some_iff.mp hy
    exact hlt

theorem get_mapSome {μ : Type*} (m : OrdMap κ ν) (f : ν → Option μ) (k : κ) :
    (m.mapSome f).get k = (m.get k).bind f := by
  refine Option.ext fun w => ?_
  rw [← mem_entries_iff, Option.bind_eq_some_iff, mapSome, List.mem_filterMap]
  constructor
  · rintro ⟨e, he, hw⟩
    obtain ⟨w', hw', heq⟩ := Option.map_eq_some_iff.mp hw
    obtain ⟨rfl, rfl⟩ := Prod.mk.inj heq
    exact ⟨e.2, (mem_entries_iff m).mp he, hw'⟩
  · rintro ⟨v, hv, hw⟩
    refine ⟨(k, v), (mem_entries_iff m).mpr hv, ?_⟩
    rw [hw, Option.map_some]

/-- The map with entries put into it, one after the other. -/
def setAll (m : OrdMap κ ν) (es : List (κ × ν)) : OrdMap κ ν :=
  es.foldl (fun m e => m.set e.1 e.2) m

theorem get_setAll_isSome (m : OrdMap κ ν) (es : List (κ × ν)) (k : κ) :
    ((m.setAll es).get k).isSome ↔ (m.get k).isSome ∨ k ∈ es.map Prod.fst := by
  induction es generalizing m with
  | nil => simp [setAll]
  | cons e es ih =>
    have hrest := ih (m.set e.1 e.2)
    rw [get_set] at hrest
    rw [List.map_cons, List.mem_cons]
    refine hrest.trans ?_
    split_ifs with hk
    · simp [hk]
    · simp [hk]

/-- The entries of another map, changed and put into a map, take the place of what is there. -/
theorem get_setAll {μ : Type*} (m : OrdMap κ ν) (n : OrdMap κ μ) (f : κ → μ → ν) (k : κ) :
    (m.setAll (n.entries.map fun e => (e.1, f e.1 e.2))).get k =
      ((n.get k).map (f k)).or (m.get k) := by
  obtain ⟨entries, sorted⟩ := n
  induction entries generalizing m with
  | nil => rfl
  | cons e es ih =>
    obtain ⟨hfirst, hes⟩ := List.pairwise_cons.mp sorted
    have hrest := ih (m.set e.1 (f e.1 e.2)) hes
    rw [setAll, List.map_cons, List.foldl_cons]
    refine hrest.trans ?_
    rw [get_set]
    by_cases hk : k = e.1
    · -- no later entry has the key of the first one
      subst hk
      have hnone : (⟨es, hes⟩ : OrdMap κ μ).get e.1 = none := by
        refine Option.eq_none_iff_forall_not_mem.mpr fun v hv => ?_
        exact absurd (hfirst _ ((mem_entries_iff ⟨es, hes⟩).mpr hv)) (lt_irrefl _)
      have hsome : (⟨e :: es, sorted⟩ : OrdMap κ μ).get e.1 = some e.2 :=
        (mem_entries_iff ⟨e :: es, sorted⟩).mp List.mem_cons_self
      rw [hnone, hsome, if_pos rfl]
      rfl
    · have htail : (⟨e :: es, sorted⟩ : OrdMap κ μ).get k = (⟨es, hes⟩ : OrdMap κ μ).get k := by
        rw [get, List.find?_cons_of_neg (by simpa using Ne.symm hk)]
        rfl
      rw [htail, if_neg hk]

end OrdMap

end Subvol.Lib

import Mathlib.Algebra.Order.Group.Multiset
import Mathlib.Data.Multiset.Count
import Mathlib.Data.List.Range
import Mathlib.Logic.Function.Basic
import Subvol.Btree.Key
import Subvol.Journal.Roots

/-!
# The counts of the paths of a transaction

Model of how `iter.rs` counts who refers to a path of a transaction: the iterators that hold it and
the updates that were staged with it. A path goes back to the table when nobody refers to it any
more, so a path that is referred to is never another one.

A failed assertion and a count that overflows its byte are `none`. Slot 0 of the table is the one
that `bch2_trans_init` takes for good, so it never holds a path. The nodes of a path and their locks
are left out.

## Main definitions

* `CountedPath`, `PathTable`, `PathRef`.
* `PathTable.bch2PathGet`, `PathTable.bch2PathPut`, `PathTable.btreePathClone`,
  `PathTable.bch2BtreePathMakeMut`, `PathTable.bch2BtreePathSetPos`, `PathTable.pathRefGet`.
* `PathTable.Counts`: the counts of the paths are those of the references.

## Main results

* `PathTable.Counts.put`, `PathTable.Counts.get`, `PathTable.Counts.refGet`,
  `PathTable.Counts.clone`, `PathTable.Counts.makeMut`, `PathTable.Counts.setPos`.
-/

namespace Subvol

/-- `btree_path`, without its nodes and their locks. A path is only locked by a walk down its tree
or in the key cache, so its tree is one that there is. -/
structure CountedPath where
  ref : ℕ
  intentRef : ℕ
  pos : Bpos
  btreeId : ℕ
  cached : Bool
  preserve : Bool
  shouldBeLocked : Bool := false
  level : ℕ
  btreeId_lt : shouldBeLocked = true → btreeId < btreeIdNr := by nofun
deriving DecidableEq

theorem CountedPath.unlocked (p : CountedPath) : false = true → p.btreeId < btreeIdNr := nofun

/-- The path at another position; it keeps its level when it stays in the node it has locked. -/
def CountedPath.movedTo (p : CountedPath) (newPos : Bpos) (inNode : Bool) : CountedPath :=
  { p with
    pos := newPos
    shouldBeLocked := false
    level := if !p.cached && inNode then p.level else 0
    btreeId_lt := p.unlocked }

/-- `BTREE_ITER_INITIAL`, the size of the table of paths. -/
def btreeIterInitial : ℕ := 64

/-- The paths of a transaction: those whose bit in `paths_allocated` is set. -/
abbrev PathTable := ℕ → Option CountedPath

/-- A reference to a path, and whether it is one for intent. -/
structure PathRef where
  path : ℕ
  intent : Bool
deriving DecidableEq

namespace PathTable

variable (paths : PathTable)

/-- The count of the references to a path. -/
def refOf (i : ℕ) : ℕ := ((paths i).map CountedPath.ref).getD 0

/-- The count of the references to a path for intent. -/
def intentRefOf (i : ℕ) : ℕ := ((paths i).map CountedPath.intentRef).getD 0

/-- The first free slot of the table. -/
def freeSlot : Option ℕ :=
  (List.range btreeIterInitial).find? fun i => decide (i ≠ 0) && (paths i).isNone

/-- The path in a slot of the table. -/
def setPath (i : ℕ) (p : Option CountedPath) : PathTable := Function.update paths i p

/-- `bch2_path_get`. -/
def bch2PathGet (btreeId : ℕ) (pos : Bpos) (level : ℕ) (intent cached nopreserve : Bool) :
    Option (PathTable × ℕ) :=
  paths.freeSlot.map fun free =>
    (paths.setPath free (some
      { ref := 1, intentRef := intent.toNat, pos, btreeId, cached, level
        preserve := !nopreserve }), free)

/-- A reference less to a path: its last part in `bch2_path_put` and in
`bch2_btree_path_make_mut`. -/
def dropRef (i : ℕ) (p : CountedPath) (intent : Bool) : Option PathTable :=
  if intent && p.intentRef == 0 then none
  else if p.ref = 0 then none
  else if p.ref - 1 = 0 then some (paths.setPath i none)
  else some (paths.setPath i (some
    { p with ref := p.ref - 1, intentRef := p.intentRef - intent.toNat }))

/-- `bch2_path_put`. -/
def bch2PathPut (i : ℕ) (intent : Bool) : Option PathTable :=
  if i = 0 ∨ btreeIterInitial ≤ i then some paths
  else
    match paths i with
    | none => some paths
    | some p => paths.dropRef i p intent

/-- One more reference to a path, as `bch2_trans_copy_iter` and `btree_trans_update_by_path` count
it. -/
def pathRefGet (i : ℕ) (intent : Bool) : Option PathTable :=
  match paths i with
  | none => none
  | some p =>
    if p.ref = 255 then none
    else some (paths.setPath i (some
      { p with ref := p.ref + 1, intentRef := p.intentRef + intent.toNat }))

/-- `btree_path_clone`. -/
def btreePathClone (src : ℕ) (intent : Bool) : Option (PathTable × ℕ) :=
  match paths src with
  | none => none
  | some old =>
    paths.freeSlot.map fun free =>
      (paths.setPath free (some
        { old with
          ref := 1, intentRef := intent.toNat, shouldBeLocked := false
          btreeId_lt := nofun }), free)

/-- `bch2_btree_path_make_mut`: the path itself when nobody else refers to it, a clone otherwise. -/
def bch2BtreePathMakeMut (i : ℕ) (intent : Bool) : Option (PathTable × ℕ) :=
  match paths i with
  | none => none
  | some old =>
    if old.ref = 0 then none
    else if old.ref ≤ 1 ∧ old.preserve = false then
      some (paths.setPath i (some
        { old with shouldBeLocked := false, btreeId_lt := nofun }), i)
    else
      (paths.freeSlot).bind fun free =>
        ((paths.setPath free (some
          { old with
            ref := 1, intentRef := intent.toNat, shouldBeLocked := false, preserve := false
            btreeId_lt := nofun }))
          |>.dropRef i old intent).map fun paths => (paths, free)

/-- `bch2_btree_path_set_pos`; `inNode` tells whether the position is in the node that the path has
locked. -/
def bch2BtreePathSetPos (i : ℕ) (newPos : Bpos) (intent inNode : Bool) : Option (PathTable × ℕ) :=
  match paths i with
  | none => none
  | some p =>
    if p.pos = newPos then some (paths, i)
    else
      (paths.bch2BtreePathMakeMut i intent).map fun m =>
        (m.1.setPath m.2 ((m.1 m.2).map fun p => p.movedTo newPos inNode), m.2)

end PathTable

/-! ### The counts -/

/-- How many references there are to a path. -/
def refsTo (refs : Multiset PathRef) (i : ℕ) : ℕ := refs.countP fun r => r.path = i

/-- How many references there are to a path for intent. -/
def intentRefsTo (refs : Multiset PathRef) (i : ℕ) : ℕ :=
  refs.countP fun r => r.path = i ∧ r.intent = true

theorem refsTo_cons (r : PathRef) (refs : Multiset PathRef) (i : ℕ) :
    refsTo (r ::ₘ refs) i = refsTo refs i + if r.path = i then 1 else 0 :=
  Multiset.countP_cons _ _ _

theorem intentRefsTo_cons (r : PathRef) (refs : Multiset PathRef) (i : ℕ) :
    intentRefsTo (r ::ₘ refs) i =
      intentRefsTo refs i + if r.path = i then r.intent.toNat else 0 := by
  rw [intentRefsTo, Multiset.countP_cons]
  obtain ⟨p, _ | _⟩ := r
  · simp [intentRefsTo]
  · simp [intentRefsTo]

theorem intentRefsTo_le (refs : Multiset PathRef) (i : ℕ) :
    intentRefsTo refs i ≤ refsTo refs i := by
  induction refs using Multiset.induction_on with
  | empty => exact le_rfl
  | cons r refs ih =>
    have hbit : r.intent.toNat ≤ 1 := Bool.toNat_le r.intent
    rw [refsTo_cons, intentRefsTo_cons]
    split_ifs <;> omega

namespace PathTable

/-- The counts of the paths are those of the references, and only paths that are referred to are in
the table. -/
structure Counts (paths : PathTable) (refs : Multiset PathRef) : Prop where
  ref : ∀ i, paths.refOf i = refsTo refs i
  intentRef : ∀ i, paths.intentRefOf i = intentRefsTo refs i
  slot : ∀ i p, paths i = some p → i ≠ 0 ∧ i < btreeIterInitial ∧ p.ref ≠ 0

variable {paths : PathTable} {refs : Multiset PathRef}

@[simp] theorem setPath_self (paths : PathTable) (i : ℕ) (p : Option CountedPath) :
    paths.setPath i p i = p := Function.update_self ..

@[simp] theorem setPath_of_ne (paths : PathTable) {i j : ℕ} (h : j ≠ i) (p : Option CountedPath) :
    paths.setPath i p j = paths j := Function.update_of_ne h ..

theorem refOf_of_eq {i : ℕ} {p : CountedPath} (h : paths i = some p) : paths.refOf i = p.ref := by
  rw [refOf, h]
  rfl

theorem intentRefOf_of_eq {i : ℕ} {p : CountedPath} (h : paths i = some p) :
    paths.intentRefOf i = p.intentRef := by
  rw [intentRefOf, h]
  rfl

theorem freeSlot_spec {free : ℕ} (h : paths.freeSlot = some free) :
    free ≠ 0 ∧ free < btreeIterInitial ∧ paths free = none := by
  have hprop := List.find?_some h
  rw [Bool.and_eq_true, decide_eq_true_eq, Option.isNone_iff_eq_none] at hprop
  exact ⟨hprop.1, List.mem_range.mp (List.mem_of_find?_eq_some h), hprop.2⟩

/-- One path is replaced, and the references to it are others. -/
theorem Counts.setPath (h : Counts paths refs) {i : ℕ} {p : Option CountedPath}
    {refs' : Multiset PathRef}
    (hother : ∀ j, j ≠ i → refsTo refs' j = refsTo refs j ∧
      intentRefsTo refs' j = intentRefsTo refs j)
    (href : (p.map CountedPath.ref).getD 0 = refsTo refs' i)
    (hintent : (p.map CountedPath.intentRef).getD 0 = intentRefsTo refs' i)
    (hslot : ∀ q, p = some q → i ≠ 0 ∧ i < btreeIterInitial ∧ q.ref ≠ 0) :
    Counts (paths.setPath i p) refs' := by
  refine ⟨fun j => ?_, fun j => ?_, fun j q hq => ?_⟩
  · by_cases hj : j = i
    · rw [hj, refOf, setPath_self, href]
    · rw [refOf, setPath_of_ne _ hj, (hother j hj).1]
      exact h.ref j
  · by_cases hj : j = i
    · rw [hj, intentRefOf, setPath_self, hintent]
    · rw [intentRefOf, setPath_of_ne _ hj, (hother j hj).2]
      exact h.intentRef j
  · by_cases hj : j = i
    · subst hj
      rw [setPath_self] at hq
      exact hslot q hq
    · rw [setPath_of_ne _ hj] at hq
      exact h.slot j q hq

theorem refsTo_cons_of_ne {r : PathRef} {j : ℕ} (h : j ≠ r.path) :
    refsTo (r ::ₘ refs) j = refsTo refs j ∧ intentRefsTo (r ::ₘ refs) j = intentRefsTo refs j := by
  rw [refsTo_cons, intentRefsTo_cons, if_neg (Ne.symm h), if_neg (Ne.symm h)]
  exact ⟨rfl, rfl⟩

/-- A path with a reference that is not yet counted in the table is in the table. -/
theorem Counts.exists_path {r : PathRef} (h : Counts paths (r ::ₘ refs)) :
    ∃ p, paths r.path = some p ∧ p.ref = refsTo refs r.path + 1 ∧
      p.intentRef = intentRefsTo refs r.path + r.intent.toNat := by
  have href := h.ref r.path
  have hintent := h.intentRef r.path
  rw [refsTo_cons, if_pos rfl] at href
  rw [intentRefsTo_cons, if_pos rfl] at hintent
  cases hp : paths r.path with
  | none =>
    rw [refOf, hp] at href
    exact absurd href (Nat.succ_ne_zero _).symm
  | some p =>
    rw [refOf_of_eq hp] at href
    rw [intentRefOf_of_eq hp] at hintent
    exact ⟨p, rfl, href, hintent⟩

theorem Counts.dropRef {r : PathRef} {p : CountedPath} {paths' : PathTable}
    (h : Counts paths (r ::ₘ refs)) (hp : paths r.path = some p)
    (hdrop : paths.dropRef r.path p r.intent = some paths') : Counts paths' refs := by
  obtain ⟨q, hq, href, hintent⟩ := h.exists_path
  obtain rfl : q = p := Option.some.inj (hq.symm.trans hp)
  have hle := intentRefsTo_le refs r.path
  have hother : ∀ j, j ≠ r.path → refsTo refs j = refsTo (r ::ₘ refs) j ∧
      intentRefsTo refs j = intentRefsTo (r ::ₘ refs) j := fun j hj =>
    ⟨(refsTo_cons_of_ne hj).1.symm, (refsTo_cons_of_ne hj).2.symm⟩
  rw [PathTable.dropRef] at hdrop
  split_ifs at hdrop with hassert hzero hlast
  · obtain rfl := Option.some.inj hdrop
    refine h.setPath hother ?_ ?_ fun q hq => nomatch hq
    · show 0 = _
      omega
    · show 0 = _
      omega
  · obtain rfl := Option.some.inj hdrop
    refine h.setPath hother ?_ ?_ fun q hq => ?_
    · show q.ref - 1 = _
      omega
    · show q.intentRef - r.intent.toNat = _
      omega
    · obtain rfl := Option.some.inj hq
      exact ⟨(h.slot _ _ hp).1, (h.slot _ _ hp).2.1, hlast⟩

/-- A reference is given back. -/
theorem Counts.put {r : PathRef} {paths' : PathTable} (h : Counts paths (r ::ₘ refs))
    (hput : paths.bch2PathPut r.path r.intent = some paths') : Counts paths' refs := by
  obtain ⟨p, hp, -⟩ := h.exists_path
  have hslot := h.slot _ _ hp
  have hvalid : ¬(r.path = 0 ∨ btreeIterInitial ≤ r.path) := by omega
  rw [bch2PathPut, if_neg hvalid, hp] at hput
  exact h.dropRef hp hput

/-- One more reference to a path that is referred to. -/
theorem Counts.refGet {r : PathRef} {paths' : PathTable} (h : Counts paths refs)
    (hget : paths.pathRefGet r.path r.intent = some paths') : Counts paths' (r ::ₘ refs) := by
  rw [pathRefGet] at hget
  cases hp : paths r.path with
  | none =>
    rw [hp] at hget
    cases hget
  | some p =>
    simp only [hp] at hget
    split_ifs at hget
    obtain rfl := Option.some.inj hget
    refine h.setPath (fun j hj => refsTo_cons_of_ne hj) ?_ ?_ fun q hq => ?_
    · rw [refsTo_cons, if_pos rfl, ← h.ref, refOf_of_eq hp]
      rfl
    · rw [intentRefsTo_cons, if_pos rfl, ← h.intentRef, intentRefOf_of_eq hp]
      rfl
    · obtain rfl := Option.some.inj hq
      exact ⟨(h.slot _ _ hp).1, (h.slot _ _ hp).2.1, Nat.succ_ne_zero _⟩

/-- A path in a free slot, with its first reference. -/
theorem Counts.take {free : ℕ} {p : CountedPath} (h : Counts paths refs) (intent : Bool)
    (hfree : paths.freeSlot = some free) (href : p.ref = 1) (hintent : p.intentRef = intent.toNat) :
    Counts (paths.setPath free (some p)) (⟨free, intent⟩ ::ₘ refs) := by
  obtain ⟨hzero, hlt, hnone⟩ := freeSlot_spec hfree
  have hrefs : refsTo refs free = 0 := by rw [← h.ref, refOf, hnone]; rfl
  have hintents : intentRefsTo refs free = 0 := by
    have hle := intentRefsTo_le refs free
    omega
  refine h.setPath (fun j hj => refsTo_cons_of_ne hj) ?_ ?_ fun q hq => ?_
  · rw [refsTo_cons, if_pos rfl, hrefs]
    exact href
  · rw [intentRefsTo_cons, if_pos rfl, hintents, Nat.zero_add]
    exact hintent
  · obtain rfl := Option.some.inj hq
    exact ⟨hzero, hlt, by omega⟩

theorem Counts.get {btreeId level : ℕ} {pos : Bpos} {intent cached nopreserve : Bool}
    {paths' : PathTable} {i : ℕ} (h : Counts paths refs)
    (hget : paths.bch2PathGet btreeId pos level intent cached nopreserve = some (paths', i)) :
    Counts paths' (⟨i, intent⟩ ::ₘ refs) := by
  obtain ⟨free, hfree, heq⟩ := Option.map_eq_some_iff.mp hget
  obtain ⟨rfl, rfl⟩ := Prod.mk.inj heq
  exact h.take intent hfree rfl rfl

theorem Counts.clone {src i : ℕ} {intent : Bool} {paths' : PathTable} (h : Counts paths refs)
    (hclone : paths.btreePathClone src intent = some (paths', i)) :
    Counts paths' (⟨i, intent⟩ ::ₘ refs) := by
  rw [btreePathClone] at hclone
  cases hsrc : paths src with
  | none =>
    rw [hsrc] at hclone
    cases hclone
  | some old =>
    rw [hsrc] at hclone
    obtain ⟨free, hfree, heq⟩ := Option.map_eq_some_iff.mp hclone
    obtain ⟨rfl, rfl⟩ := Prod.mk.inj heq
    exact h.take intent hfree rfl rfl

/-- A path is changed in what nobody counts. -/
theorem Counts.modify (h : Counts paths refs) {i : ℕ} {p q : CountedPath} (hp : paths i = some p)
    (href : q.ref = p.ref) (hintent : q.intentRef = p.intentRef) :
    Counts (paths.setPath i (some q)) refs := by
  refine h.setPath (fun j _ => ⟨rfl, rfl⟩) ?_ ?_ fun r hr => ?_
  · rw [← h.ref, refOf_of_eq hp]
    exact href
  · rw [← h.intentRef, intentRefOf_of_eq hp]
    exact hintent
  · obtain rfl := Option.some.inj hr
    exact href ▸ h.slot i p hp

/-- The reference is then to the path that `bch2_btree_path_make_mut` returns. -/
theorem Counts.makeMut {r : PathRef} {i : ℕ} {paths' : PathTable} (h : Counts paths (r ::ₘ refs))
    (hmut : paths.bch2BtreePathMakeMut r.path r.intent = some (paths', i)) :
    Counts paths' (⟨i, r.intent⟩ ::ₘ refs) := by
  obtain ⟨p, hp, -⟩ := h.exists_path
  simp only [bch2BtreePathMakeMut, hp] at hmut
  split_ifs at hmut with hzero hmine
  · obtain ⟨rfl, rfl⟩ := Prod.mk.inj (Option.some.inj hmut)
    exact h.modify hp rfl rfl
  · obtain ⟨free, hfree, hdrop⟩ := Option.bind_eq_some_iff.mp hmut
    obtain ⟨dropped, hdropped, heq⟩ := Option.map_eq_some_iff.mp hdrop
    obtain ⟨rfl, rfl⟩ := Prod.mk.inj heq
    have hne : r.path ≠ free := by
      rintro rfl
      exact absurd hp (by rw [(freeSlot_spec hfree).2.2]; exact nofun)
    have htaken := h.take r.intent hfree
      (p := { p with
        ref := 1, intentRef := r.intent.toNat, shouldBeLocked := false, preserve := false
        btreeId_lt := p.unlocked }) rfl rfl
    rw [Multiset.cons_swap] at htaken
    exact htaken.dropRef ((setPath_of_ne _ hne _).trans hp) hdropped

/-- The reference is then to the path that `bch2_btree_path_set_pos` returns. -/
theorem Counts.setPos {r : PathRef} {i : ℕ} {newPos : Bpos} {inNode : Bool} {paths' : PathTable}
    (h : Counts paths (r ::ₘ refs))
    (hset : paths.bch2BtreePathSetPos r.path newPos r.intent inNode = some (paths', i)) :
    Counts paths' (⟨i, r.intent⟩ ::ₘ refs) := by
  obtain ⟨p, hp, -⟩ := h.exists_path
  simp only [bch2BtreePathSetPos, hp] at hset
  split_ifs at hset with hpos
  · obtain ⟨rfl, rfl⟩ := Prod.mk.inj (Option.some.inj hset)
    exact h
  · obtain ⟨⟨moved, j⟩, hmut, heq⟩ := Option.map_eq_some_iff.mp hset
    obtain ⟨rfl, rfl⟩ := Prod.mk.inj heq
    have hmoved := h.makeMut hmut
    obtain ⟨q, hq, -⟩ := hmoved.exists_path
    have hq' : (moved j).map (fun p => p.movedTo newPos inNode) = some (q.movedTo newPos inNode) :=
      congrArg (Option.map _) hq
    exact hq' ▸ hmoved.modify hq rfl rfl

end PathTable

end Subvol

import Subvol.Lib.Linked

/-!
# Intrusive lists

The lists of the program are linked through a `list_head` in each of their elements and have one as
their head. Model of the functions that the cache of btree nodes uses, as writes to the links one
after the other, and what they do to a family of such lists: they take an element off, put it on as
the first or the last, and empty a list into another.

## Main definitions

* `initListHead`, `listAdd`, `listAddTail`, `listDel`, `listDelInit`, `listMoveTail`,
  `listSpliceTail`, `listSpliceTailInit`, `listCountNodes`.

## Main results

* `listDelInit_shelved`, `listAdd_shelved`, `listAddTail_shelved`, `listMoveTail_eq`,
  `listSpliceTailInit_shelved`: what the functions do to a family of lists.
* `listCountNodes_ring`.
-/

namespace Subvol

open Lib

section Functions

variable {P : Type*} [DecidableEq P]

/-- `INIT_LIST_HEAD`. -/
def initListHead (k : Links P) (head : P) : Links P := (k.setNext head head).setPrev head head

/-- `list_add`. -/
def listAdd (k : Links P) (new head : P) : Links P :=
  let k := k.setPrev (k.next head) new
  let k := k.setNext new (k.next head)
  let k := k.setPrev new head
  k.setNext head new

/-- `list_add_tail`. -/
def listAddTail (k : Links P) (new head : P) : Links P :=
  let k := k.setNext (k.prev head) new
  let k := k.setNext new head
  let k := k.setPrev new (k.prev head)
  k.setPrev head new

/-- `__list_del`. -/
def listDelBetween (k : Links P) (prev next : P) : Links P :=
  (k.setPrev next prev).setNext prev next

/-- `list_del`. -/
def listDel (k : Links P) (entry : P) : Links P :=
  listDelBetween k (k.prev entry) (k.next entry)

/-- `list_del_init`. -/
def listDelInit (k : Links P) (entry : P) : Links P := initListHead (listDel k entry) entry

/-- `list_move_tail`. -/
def listMoveTail (k : Links P) (entry head : P) : Links P := listAddTail (listDel k entry) entry head

/-- `list_splice_tail`. -/
def listSpliceTail (k : Links P) (list head : P) : Links P :=
  if list = k.next list then k
  else
    let first := k.next list
    let last := k.prev list
    let prev := k.prev head
    let k := k.setPrev first prev
    let k := k.setNext prev first
    let k := k.setNext last head
    k.setPrev head last

/-- `list_splice_tail_init`. -/
def listSpliceTailInit (k : Links P) (list head : P) : Links P :=
  initListHead (listSpliceTail k list head) list

/-- The loop of `list_count_nodes`, for so many turns at most. -/
def listCountFrom (k : Links P) (head : P) : ℕ → P → ℕ → Option ℕ
  | 0, pos, count => if pos = head then some count else none
  | fuel + 1, pos, count =>
    if pos = head then some count else listCountFrom k head fuel (k.next pos) (count + 1)

/-- `list_count_nodes`. -/
def listCountNodes (k : Links P) (head : P) (fuel : ℕ) : Option ℕ :=
  listCountFrom k head fuel (k.next head) 0

end Functions

/-! ### Families of lists -/

section Families

variable {L N : Type*} [DecidableEq L] [DecidableEq N] {k : Links (L ⊕ N)} {lists : L → List N}
  {place : N → Option L} {b : N} {l : L}

theorem listDelInit_off (h : Shelved k lists place) (hb : place b = none) :
    listDelInit k (.inr b) = k := by
  obtain ⟨hnext, hprev⟩ := h.off b hb
  rw [listDelInit, listDel, hnext, hprev, listDelBetween, initListHead]
  have hn := Function.update_eq_self (.inr b) k.next
  have hp := Function.update_eq_self (.inr b) k.prev
  rw [hnext] at hn
  rw [hprev] at hp
  simp only [Links.setNext, Links.setPrev, hn, hp]

omit [DecidableEq L] in
theorem takeOff_split (h : Shelved k lists place) {l₁ l₂ : List N} (hl : lists l = l₁ ++ b :: l₂) :
    takeOff lists b l = l₁ ++ l₂ := by
  have hnodup := h.on.nodup l
  rw [hl] at hnodup
  have hb : b ∉ l₁ := fun hb =>
    (List.nodup_append.mp hnodup).2.2 b hb b List.mem_cons_self rfl
  rw [takeOff, hl, List.erase_append_right _ hb, List.erase_cons_head]

/-- `list_del_init` takes an element off its list, if it is on one. -/
theorem listDelInit_shelved (h : Shelved k lists place) (b : N) :
    Shelved (listDelInit k (.inr b)) (takeOff lists b) (Function.update place b none) := by
  cases hb : place b with
  | none =>
    have hlists : takeOff lists b = lists := by
      funext l
      exact h.on.takeOff_of_ne (by simp [hb])
    have hplace : Function.update place b none = place := by
      rw [← hb, Function.update_eq_self]
    rwa [listDelInit_off h hb, hlists, hplace]
  | some l =>
    obtain ⟨l₁, l₂, hl⟩ := List.append_of_mem ((h.on.mem_iff b l).mpr hb)
    have hring := h.ring l
    have hfront := h.nodup_front l
    have hback := h.nodup_back l
    rw [hl, List.map_append, List.map_cons] at hring hfront hback
    obtain ⟨h₁, h₂⟩ := Links.Seg.append_iff.mp hring
    have hcell : ∀ p, p ∈ Sum.inl l :: l₁.map Sum.inr ∨ p ∈ l₂.map Sum.inr ++ [Sum.inl l] →
        ringOf place p = .inl l ∧ p ≠ .inr b := by
      intro p hp
      constructor
      · refine h.ringOf_mem ?_
        rw [hl, List.map_append, List.map_cons]
        simp only [List.mem_cons, List.mem_append, List.not_mem_nil, or_false] at hp ⊢
        tauto
      · rintro rfl
        rcases hp with hp | hp
        · rw [← List.cons_append] at hfront
          exact (List.nodup_append.mp hfront).2.2 _ hp _ List.mem_cons_self rfl
        · rw [List.append_assoc, List.cons_append] at hback
          exact (List.nodup_cons.mp (List.nodup_append.mp hback).2.1).1 hp
    obtain ⟨hprevRing, hprevNe⟩ := hcell _ (.inl h₁.prev_mem)
    obtain ⟨hnextRing, hnextNe⟩ := hcell _ (.inr h₂.next_mem)
    have hself : ringOf place (.inr b) = .inl l := ringOf_on hb
    have hsame : ∀ p, ¬ringOf place p = .inl l →
        (listDelInit k (.inr b)).next p = k.next p ∧ (listDelInit k (.inr b)).prev p = k.prev p := by
      intro p hp
      have hpb : p ≠ .inr b := by
        rintro rfl
        exact hp hself
      have hpp : p ≠ k.prev (.inr b) := by
        rintro rfl
        exact hp hprevRing
      have hpn : p ≠ k.next (.inr b) := by
        rintro rfl
        exact hp hnextRing
      constructor
      · simp [listDelInit, initListHead, listDel, listDelBetween, hpb, hpp]
      · simp [listDelInit, initListHead, listDel, listDelBetween, hpb, hpn]
    obtain ⟨hrings, hoffs⟩ := h.frame (S := (· = .inl l)) hsame
    refine ⟨h.on.takeOff b, fun l' => ?_, fun b' hb' => ?_⟩
    · by_cases hl' : l' = l
      · subst hl'
        rw [takeOff_split h hl, List.map_append]
        refine hring.unlink hfront hback (fun p hp hpb => ?_) (fun p hp hpb => ?_) ?_ ?_
        · simp [listDelInit, initListHead, listDel, listDelBetween, hp, hpb]
        · simp [listDelInit, initListHead, listDel, listDelBetween, hp, hpb]
        · simp [listDelInit, initListHead, listDel, listDelBetween, hprevNe]
        · simp [listDelInit, initListHead, listDel, listDelBetween, hnextNe]
      · rw [h.on.takeOff_of_ne (by rw [hb]; exact fun heq => hl' (Option.some.inj heq).symm)]
        exact hrings l' (by simpa using hl')
    · by_cases hbb : b' = b
      · subst hbb
        constructor
        · simp [listDelInit, initListHead, listDel, listDelBetween]
        · simp [listDelInit, initListHead, listDel, listDelBetween]
      · rw [Function.update_of_ne hbb] at hb'
        exact hoffs b' hb' (by simp)

/-- An element that is on no list is put on one: the other rings stay. -/
theorem putOn_shelved (h : Shelved k lists place) (hb : place b = none) {k' : Links (L ⊕ N)}
    {xs : List N} (hon : OnLists (Function.update lists l xs) (Function.update place b (some l)))
    (hsame : ∀ p, p ≠ .inr b → p ≠ .inl l → p ≠ k.prev (.inl l) → k'.next p = k.next p)
    (hsame' : ∀ p, p ≠ .inr b → p ≠ .inl l → p ≠ k.next (.inl l) → k'.prev p = k.prev p)
    (hring : k'.Seg (.inl l) (xs.map .inr) (.inl l)) :
    Shelved k' (Function.update lists l xs) (Function.update place b (some l)) := by
  have hself : ringOf place (.inr b) = .inr b := ringOf_off hb
  have hprev : ringOf place (k.prev (.inl l)) = .inl l := h.ringOf_mem (h.ring l).prev_mem
  have hnext : ringOf place (k.next (.inl l)) = .inl l := by
    refine h.ringOf_mem (List.mem_cons.mpr ?_)
    have hmem := (h.ring l).next_mem
    rwa [List.mem_append, List.mem_singleton, or_comm] at hmem
  have hother : ∀ p, ¬(ringOf place p = .inl l ∨ ringOf place p = .inr b) →
      k'.next p = k.next p ∧ k'.prev p = k.prev p := by
    intro p hp
    push Not at hp
    have hpb : p ≠ .inr b := by
      rintro rfl
      exact hp.2 hself
    have hpl : p ≠ .inl l := by
      rintro rfl
      exact hp.1 rfl
    refine ⟨hsame p hpb hpl ?_, hsame' p hpb hpl ?_⟩
    · rintro rfl
      exact hp.1 hprev
    · rintro rfl
      exact hp.1 hnext
  obtain ⟨hrings, hoffs⟩ := h.frame (S := fun p => p = .inl l ∨ p = .inr b) hother
  refine ⟨hon, fun l' => ?_, fun b' hb' => ?_⟩
  · by_cases hl' : l' = l
    · subst hl'
      rwa [Function.update_self]
    · rw [Function.update_of_ne hl']
      exact hrings l' (by simpa using hl')
  · by_cases hbb : b' = b
    · subst hbb
      rw [Function.update_self] at hb'
      cases hb'
    · rw [Function.update_of_ne hbb] at hb'
      exact hoffs b' hb' (by simpa using hbb)

/-- `list_add_tail` puts an element on as the last. -/
theorem listAddTail_shelved (h : Shelved k lists place) (hb : place b = none) (l : L) :
    Shelved (listAddTail k (.inr b) (.inl l)) (putLast lists l b)
      (Function.update place b (some l)) := by
  have hprev := (h.ring l).prev_mem
  have hnot : (.inr b : L ⊕ N) ∉ (.inl l : L ⊕ N) :: (lists l).map .inr := by
    simpa using h.on.not_mem hb l
  have hne : k.prev (.inl l) ≠ .inr b := fun heq => hnot (heq ▸ hprev)
  refine putOn_shelved h hb (h.on.putLast hb l) (fun p hpb hpl hpp => ?_) (fun p hpb hpl _ => ?_) ?_
  · simp [listAddTail, hpb, hpp]
  · simp [listAddTail, hpb, hpl]
  · rw [List.map_append, List.map_singleton]
    refine Links.Seg.append_iff.mpr ⟨(h.ring l).toward (h.nodup_front l) (fun p hp hpp => ?_)
      (fun p hp => ?_) ?_ ?_, ?_, ?_⟩
    · have hpb : p ≠ .inr b := fun heq => hnot (heq ▸ hp)
      simp [listAddTail, hpb, hpp]
    · have hpb : p ≠ .inr b := fun heq => hnot (heq ▸ List.mem_cons_of_mem _ hp)
      have hpl : p ≠ .inl l := by
        rintro rfl
        simp at hp
      simp [listAddTail, hpb, hpl]
    · simp [listAddTail, hne]
    · simp [listAddTail]
    · simp [listAddTail]
    · simp [listAddTail]

/-- `list_add` puts an element on as the first. -/
theorem listAdd_shelved (h : Shelved k lists place) (hb : place b = none) (l : L) :
    Shelved (listAdd k (.inr b) (.inl l)) (putFirst lists l b)
      (Function.update place b (some l)) := by
  have hring := h.ring l
  have hback := h.nodup_back l
  have hnot : b ∉ lists l := h.on.not_mem hb l
  refine putOn_shelved h hb (h.on.putFirst hb l) (fun p hpb hpl _ => ?_) (fun p hpb _ hpn => ?_) ?_
  · simp [listAdd, hpb, hpl]
  · simp [listAdd, hpb, hpn]
  · rw [List.map_cons]
    refine ⟨⟨by simp [listAdd], by simp [listAdd]⟩, ?_⟩
    cases hl : lists l with
    | nil =>
      rw [hl] at hring
      have hself : k.next (.inl l) = .inl l := hring.1
      constructor
      · simp [listAdd, hself]
      · simp [listAdd, hself]
    | cons c cs =>
      rw [hl, List.map_cons] at hring hback
      rw [hl] at hnot
      obtain ⟨⟨hfirst, -⟩, hrest⟩ := hring
      have hcb : c ≠ b := fun heq => hnot (heq ▸ List.mem_cons_self)
      rw [List.map_cons]
      refine ⟨⟨by simp [listAdd, hfirst], by simp [listAdd, hfirst, hcb]⟩,
        hrest.congr (fun p hp => ?_) fun p hp => ?_⟩
      · have hpb : p ≠ .inr b := by
          rintro rfl
          rw [← List.map_cons] at hp
          exact hnot (by simpa using hp)
        have hpl : p ≠ .inl l := by
          rintro rfl
          simp at hp
        simp [listAdd, hpb, hpl]
      · have hpb : p ≠ .inr b := by
          rintro rfl
          exact hnot (List.mem_cons_of_mem c (by simpa using hp))
        have hpc : p ≠ .inr c := by
          rintro rfl
          exact (List.nodup_cons.mp hback).1 hp
        simp [listAdd, hfirst, hpb, hpc]

/-- `list_move_tail` takes an element off and puts it on as the last. -/
theorem listMoveTail_eq {P : Type*} [DecidableEq P] (k : Links P) {entry head : P}
    (hne : entry ≠ head) :
    listMoveTail k entry head = listAddTail (listDelInit k entry) entry head := by
  have hprev : (listDelInit k entry).prev head = (listDel k entry).prev head := by
    simp [listDelInit, initListHead, hne.symm]
  rw [listMoveTail, listAddTail, listAddTail]
  simp only [Links.setNext, Links.setPrev, hprev, Links.mk.injEq]
  constructor
  · funext p
    by_cases hp : p = entry
    · simp [hp]
    · simp [Function.update_apply, hp, listDelInit, initListHead]
  · funext p
    by_cases hp : p = entry
    · simp [hp, hne]
    · simp [Function.update_apply, hp, listDelInit, initListHead]

/-- `list_splice_tail_init` empties a list into another one. -/
theorem listSpliceTailInit_shelved (h : Shelved k lists place) {src dst : L} (hne : src ≠ dst) :
    Shelved (listSpliceTailInit k (.inl src) (.inl dst)) (spliceTail lists src dst)
      fun b => if place b = some src then some dst else place b := by
  have hon := h.on.spliceTail hne
  have hsrc := h.ring src
  cases hl : lists src with
  | nil =>
    rw [hl] at hsrc
    obtain ⟨hnext, hprev⟩ : k.Joined (.inl src) (.inl src) := hsrc
    have hk : listSpliceTailInit k (.inl src) (.inl dst) = k := by
      have hn := Function.update_eq_self (.inl src) k.next
      have hp := Function.update_eq_self (.inl src) k.prev
      rw [hnext] at hn
      rw [hprev] at hp
      rw [listSpliceTailInit, listSpliceTail, if_pos hnext.symm, initListHead]
      simp only [Links.setNext, Links.setPrev, hn, hp]
    refine ⟨hon, fun l => ?_, fun b hb => ?_⟩
    · rw [hk]
      have hsame : spliceTail lists src dst l = lists l := by
        rw [spliceTail, hl, List.append_nil, Function.update_eq_self, ← hl, Function.update_eq_self]
      rw [hsame]
      exact h.ring l
    · rw [hk]
      split_ifs at hb
      exact h.off b hb
  | cons c cs =>
    have hdst := h.ring dst
    have hsrcFront := h.nodup_front src
    rw [hl, List.map_cons] at hsrc hsrcFront
    obtain ⟨⟨hfirst, -⟩, hrest⟩ := hsrc
    -- the cells of the two rings are told apart by their rings
    have hinSrc : ∀ p, p ∈ (.inl src :: .inr c :: cs.map .inr : List (L ⊕ N)) →
        ringOf place p = .inl src := by
      intro p hp
      refine h.ringOf_mem ?_
      rwa [hl]
    have hapart : ∀ p q, ringOf place p = .inl src → ringOf place q = .inl dst → p ≠ q := by
      rintro p q hp hq rfl
      exact hne (Sum.inl.inj (hp.symm.trans hq))
    have hlastMem := hrest.prev_mem
    have hlastRing := hinSrc _ (List.mem_cons_of_mem _ hlastMem)
    have hprevRing : ringOf place (k.prev (.inl dst)) = .inl dst := h.ringOf_mem hdst.prev_mem
    have hcRing := hinSrc (.inr c) (by simp)
    have hlastSrc : k.prev (.inl src) ≠ .inl src := by
      intro heq
      rw [heq] at hlastMem
      exact (List.nodup_cons.mp hsrcFront).1 hlastMem
    have hlastPrev := hapart _ _ hlastRing hprevRing
    have hsrcPrev := hapart (.inl src) _ rfl hprevRing
    have hnext : (listSpliceTailInit k (.inl src) (.inl dst)).next =
        Function.update (Function.update (Function.update k.next (k.prev (.inl dst)) (.inr c))
          (k.prev (.inl src)) (.inl dst)) (.inl src) (.inl src) := by
      rw [listSpliceTailInit, listSpliceTail, hfirst, if_neg (by simp)]
      rfl
    have hprev : (listSpliceTailInit k (.inl src) (.inl dst)).prev =
        Function.update (Function.update (Function.update k.prev (.inr c) (k.prev (.inl dst)))
          (.inl dst) (k.prev (.inl src))) (.inl src) (.inl src) := by
      rw [listSpliceTailInit, listSpliceTail, hfirst, if_neg (by simp)]
      rfl
    have hother : ∀ p, ¬(ringOf place p = .inl src ∨ ringOf place p = .inl dst) →
        (listSpliceTailInit k (.inl src) (.inl dst)).next p = k.next p ∧
          (listSpliceTailInit k (.inl src) (.inl dst)).prev p = k.prev p := by
      intro p hp
      push Not at hp
      have hne' : ∀ q, ringOf place q = .inl src ∨ ringOf place q = .inl dst → p ≠ q := by
        rintro q (hq | hq) rfl
        · exact hp.1 hq
        · exact hp.2 hq
      rw [hnext, hprev]
      constructor
      · rw [Function.update_of_ne (hne' _ (.inl rfl)), Function.update_of_ne (hne' _ (.inl hlastRing)),
          Function.update_of_ne (hne' _ (.inr hprevRing))]
      · rw [Function.update_of_ne (hne' _ (.inl rfl)), Function.update_of_ne (hne' _ (.inr rfl)),
          Function.update_of_ne (hne' _ (.inl hcRing))]
    obtain ⟨hrings, hoffs⟩ := h.frame (S := fun p => p = .inl src ∨ p = .inl dst) hother
    refine ⟨hon, fun l => ?_, fun b hb => ?_⟩
    · by_cases hsrcl : l = src
      · subst hsrcl
        rw [spliceTail, Function.update_self]
        exact ⟨by simp [hnext], by simp [hprev]⟩
      · by_cases hdstl : l = dst
        · subst hdstl
          rw [spliceTail, Function.update_of_ne hsrcl, Function.update_self, hl, List.map_append,
            List.map_cons]
          refine Links.Seg.append_iff.mpr ⟨hdst.toward (h.nodup_front l) (fun p hp hpp => ?_)
            (fun p hp => ?_) ?_ ?_, hrest.toward (List.nodup_cons.mp hsrcFront).2
            (fun p hp hpp => ?_) (fun p hp => ?_) ?_ ?_⟩
          · have hpRing := h.ringOf_mem hp
            rw [hnext, Function.update_of_ne (hapart _ _ rfl hpRing).symm,
              Function.update_of_ne (hapart _ _ hlastRing hpRing).symm, Function.update_of_ne hpp]
          · have hpRing := h.ringOf_mem (List.mem_cons_of_mem _ hp)
            have hpl : p ≠ .inl l := by
              rintro rfl
              simp at hp
            rw [hprev, Function.update_of_ne (hapart _ _ rfl hpRing).symm,
              Function.update_of_ne hpl, Function.update_of_ne (hapart _ _ hcRing hpRing).symm]
          · rw [hnext, Function.update_of_ne hsrcPrev.symm, Function.update_of_ne hlastPrev.symm,
              Function.update_self]
          · rw [hprev, Function.update_of_ne (by simp), Function.update_of_ne (by simp),
              Function.update_self]
          · have hpRing := hinSrc p (List.mem_cons_of_mem _ hp)
            have hps : p ≠ .inl src := fun heq => (List.nodup_cons.mp hsrcFront).1 (heq ▸ hp)
            rw [hnext, Function.update_of_ne hps, Function.update_of_ne hpp,
              Function.update_of_ne (hapart _ _ hpRing hprevRing)]
          · have hpRing := hinSrc p (List.mem_cons_of_mem _ (List.mem_cons_of_mem _ hp))
            have hps : p ≠ .inl src := fun heq =>
              (List.nodup_cons.mp hsrcFront).1 (heq ▸ List.mem_cons_of_mem _ hp)
            have hpc : p ≠ .inr c := by
              rintro rfl
              exact (List.nodup_cons.mp (List.nodup_cons.mp hsrcFront).2).1 hp
            rw [hprev, Function.update_of_ne hps, Function.update_of_ne (hapart _ _ hpRing rfl),
              Function.update_of_ne hpc]
          · rw [hnext, Function.update_of_ne hlastSrc, Function.update_self]
          · rw [hprev, Function.update_of_ne (by simpa using hsrcl), Function.update_self]
        · have hsame : spliceTail lists src dst l = lists l := by
            rw [spliceTail, Function.update_of_ne hsrcl, Function.update_of_ne hdstl]
          rw [hsame]
          exact hrings l (by simp [hsrcl, hdstl])
    · split_ifs at hb
      exact hoffs b hb (by simp)

/-- `list_count_nodes` counts the cells between a cell and the head. -/
theorem listCountFrom_seg {P : Type*} [DecidableEq P] {k : Links P} {a z : P} {l : List P}
    (h : k.Seg a l z) (hz : z ∉ l) {fuel : ℕ} (hfuel : l.length ≤ fuel) (n : ℕ) :
    listCountFrom k z fuel (k.next a) n = some (n + l.length) := by
  induction l generalizing a fuel n with
  | nil =>
    have ha : k.next a = z := h.1
    cases fuel with
    | zero => rw [listCountFrom, if_pos ha, List.length_nil, Nat.add_zero]
    | succ fuel => rw [listCountFrom, if_pos ha, List.length_nil, Nat.add_zero]
  | cons b l ih =>
    obtain ⟨fuel, rfl⟩ : ∃ m, fuel = m + 1 := ⟨fuel - 1, by simp at hfuel; omega⟩
    have hb : k.next a = b := h.1.1
    have hbz : b ≠ z := fun heq => hz (heq ▸ List.mem_cons_self)
    rw [listCountFrom, hb, if_neg hbz, ih h.2 (fun hin => hz (List.mem_cons_of_mem b hin))
      (by simpa using hfuel), List.length_cons, Nat.add_assoc, Nat.add_comm 1]

theorem listCountNodes_ring (h : Shelved k lists place) (l : L) {fuel : ℕ}
    (hfuel : (lists l).length ≤ fuel) :
    listCountNodes k (.inl l) fuel = some (lists l).length := by
  have hcount := listCountFrom_seg (h.ring l) (by simp) (by simpa using hfuel) 0
  rwa [Nat.zero_add, List.length_map] at hcount

end Families

end Subvol

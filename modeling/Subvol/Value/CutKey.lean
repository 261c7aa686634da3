import Subvol.Value.Cut

/-!
# Cuts of keys with extents

When the functions that cut an extent leave what they are to leave. The loop over the entries begins
at the start of the value. The value of a `reflink_v` key begins with a refcount, which the loop
takes for an entry, so that it may change the refcount, end there or leave pointers as they were. A
position that differs from an end of the extent in the snapshot alone makes an assertion fail.

## Main definitions

* `AtEntries`, `NoWrap`: the loop stands at the entries, and no offset wraps around.
* `FrontFits`: what a cut at the front needs.

## Main results

* `loopFits_iff_noWrap`: a loop that stands at the entries moves what it is to move.
* `LoopFits.dvd_of_refcount`, `loopFits_iff_of_unknown`: a loop that takes a refcount for an entry.
* `bch2CutFrontS_spec`, `bch2CutBackS_spec`, `bch2CutS_iff`: when the functions do what they are
  to do.
-/

namespace Subvol

open Lib

/-! ### Positions -/

theorem Bpos.le_iff_of_inode {l r : Bpos} (h : l.inode = r.inode) :
    l ≤ r ↔ l.offset < r.offset ∨ l.offset = r.offset ∧ l.snapshot ≤ r.snapshot := by
  obtain ⟨i, ⟨o, ho⟩, ⟨s, hs⟩⟩ := l
  obtain ⟨i', ⟨o', ho'⟩, ⟨s', hs'⟩⟩ := r
  obtain rfl : i = i' := h
  simp only [Bpos.le_iff_toNat, Bpos.toNat, Fin.mk_lt_mk, Fin.mk.injEq, Fin.mk_le_mk]
  omega

@[simp] theorem MemKey.startPos_inode (k : MemKey) : k.startPos.inode = k.p.inode := by
  rw [MemKey.startPos]

@[simp] theorem MemKey.startPos_snapshot (k : MemKey) : k.startPos.snapshot = k.p.snapshot := by
  rw [MemKey.startPos]

/-- Where a key with extents begins. -/
theorem MemKey.startPos_offset {k : MemKey} (h : k.size ≤ k.p.offset) :
    k.startPos.offset.val = k.p.offset - k.size := by
  have hlt := k.p.offset.isLt
  simp only [MemKey.startPos, Fin.val_ofNat]
  omega

section Size

variable {k : MemKey}

theorem setValU64s_same {n : ℕ} (h : k.WF) (hn : k.valU64s = n) :
    setValU64s k n = some (k, 0) := by
  have hval := h.valU64s_eq
  have hle := h.le
  have hlt := h.lt
  have hfits := h.fits
  have hsize : bkeyU64s + n = k.u64s := by omega
  have hwrite : writeWords k.mem n [] = some k.mem := by
    rw [writeWords, List.length_nil, Nat.add_zero, if_pos (by omega), List.append_nil,
      List.take_append_drop]
  rw [setValU64s, hsize, if_pos hlt, hn, Nat.sub_self]
  dsimp only
  rw [List.replicate_zero, hwrite]
  rfl

theorem setValU64s_zero (h : k.WF) : ∃ mem ret, setValU64s k 0 =
    some ({ k with u64s := bkeyU64s, mem := mem }, ret) := by
  have hval := h.valU64s_eq
  have hfits := h.fits
  refine ⟨k.mem.take 0 ++ List.replicate k.valU64s 0 ++ k.mem.drop (0 + k.valU64s),
    -(k.valU64s : ℤ), ?_⟩
  have hroom : 0 + (List.replicate k.valU64s (0 : UInt64)).length ≤ k.mem.length := by
    rw [List.length_replicate]
    omega
  rw [setValU64s, if_pos (by decide), Nat.sub_zero]
  dsimp only
  rw [writeWords, if_pos hroom, List.length_replicate]
  rfl

end Size

/-! ### A loop that stands at the entries -/

/-- The loop stands at the entries: there is no refcount, or one that passes for an entry of one
word that it leaves alone. -/
def AtEntries (hd : List UInt64) : Prop :=
  ∀ r ∈ hd, extentEntryStripePtr ≤ extentEntryType r ∧ extentEntryType r < extentEntryMax

/-- No offset wraps around: that of the crc for a pointer under a crc, that of the pointer else. -/
def NoWrap (k : MemKey) (es : List Entry) (i sub : ℕ) : Prop :=
  ∀ q ∈ ptrPlaces i none es, ∀ off len,
    cutField (extentEntryType (k.word (q.2.getD q.1))) = some (off, len) →
      fieldAt (k.word (q.2.getD q.1)) + sub < 2 ^ len

/-- The places of a loop that stands at the entries. -/
def entryPlaces : ℕ → Bool → List Entry → List (ℕ × Bool)
  | _, _, [] => []
  | i, seenCrc, e :: es => (i, seenCrc) :: entryPlaces (i + e.u64s) (seenCrc || e.isCrc) es

section Aligned

variable {es : List Entry}

theorem extentEntryU64sKnown_head (e : Entry) :
    extentEntryU64sKnown (extentEntryType e.head) = e.u64s := by
  have hsized := e.sized
  rw [extentEntryU64s] at hsized
  split_ifs at hsized with hknown
  exact Option.some.inj hsized

theorem cutPlaces_at {mem pre post : List UInt64} {n : ℕ} {seenCrc : Bool} (hn : es.length < n)
    (hmem : mem = pre ++ entryWords es ++ post) :
    cutPlaces (pre.length + (entryWords es).length) n mem pre.length seenCrc =
      entryPlaces pre.length seenCrc es := by
  induction es generalizing pre n seenCrc with
  | nil =>
    cases n with
    | zero => rfl
    | succ n => rw [cutPlaces, entryWords_nil, if_neg (by simp), entryPlaces]
  | cons e es ih =>
    obtain ⟨n, rfl⟩ : ∃ n', n = n' + 1 := ⟨n - 1, by omega⟩
    rw [List.length_cons] at hn
    obtain ⟨-, hrest, hword, hstop, hlt⟩ := entryWords_cons_at hmem
    have hhead : mem.getD pre.length 0 = e.head := by
      rw [List.getD_eq_getElem?_getD, hword, Option.getD_some]
    have hnext : pre.length + e.u64s = (pre ++ e.words).length := by
      rw [List.length_append, e.length_words]
    have hpos : e.u64s ≠ 0 := by
      rw [Entry.u64s]
      omega
    rw [hstop, cutPlaces, if_pos hlt, hhead]
    dsimp only
    rw [extentEntryU64sKnown_head, if_neg hpos, entryPlaces, hnext, ih (by omega) hrest]
    rfl

theorem le_of_mem_placed {i : ℕ} {q : ℕ × Entry} (h : q ∈ placedEntries i es) : i ≤ q.1 := by
  induction es generalizing i with
  | nil => cases h
  | cons e es ih =>
    rcases List.mem_cons.mp h with rfl | hlater
    · exact le_rfl
    · have hle := ih hlater
      omega

/-- The loop stands at every entry. -/
theorem lookup_of_mem_placed {i : ℕ} {seenCrc : Bool} {q : ℕ × Entry}
    (h : q ∈ placedEntries i es) : ∃ seen, (entryPlaces i seenCrc es).lookup q.1 = some seen := by
  induction es generalizing i seenCrc with
  | nil => cases h
  | cons e es ih =>
    rcases List.mem_cons.mp h with rfl | hlater
    · exact ⟨seenCrc, List.lookup_cons_self⟩
    · have hle := le_of_mem_placed hlater
      have hpos : 0 < e.u64s := Nat.succ_pos _
      have hne : (q.1 == i) = false := beq_eq_false_iff_ne.mpr (by omega)
      rw [entryPlaces, List.lookup_cons, hne]
      exact ih hlater

/-- At a pointer the loop has seen a crc if the pointer stands under one. -/
theorem lookup_of_mem_ptrPlaces {i : ℕ} {crc : Option ℕ} {q : ℕ × Option ℕ}
    (h : q ∈ ptrPlaces i crc es) :
    (entryPlaces i crc.isSome es).lookup q.1 = some q.2.isSome := by
  induction es generalizing i crc with
  | nil => cases h
  | cons e es ih =>
    have hlater : ∀ {crc'}, q ∈ ptrPlaces (i + e.u64s) crc' es →
        crc'.isSome = (crc.isSome || e.isCrc) →
        (entryPlaces i crc.isSome (e :: es)).lookup q.1 = some q.2.isSome := by
      intro crc' hq hseen
      obtain ⟨⟨e', he', -⟩, -⟩ := mem_ptrPlaces hq
      have hle := le_of_mem_placed he'
      have hpos : 0 < e.u64s := Nat.succ_pos _
      have hne : (q.1 == i) = false := beq_eq_false_iff_ne.mpr (by simp only at hle; omega)
      rw [entryPlaces, List.lookup_cons, hne, ← hseen]
      exact ih hq
    rw [ptrPlaces] at h
    split_ifs at h with hptr hcrc
    · rcases List.mem_cons.mp h with rfl | hq
      · exact List.lookup_cons_self
      · exact hlater hq (by rw [Entry.isCrc_of_isPtr hptr, Bool.or_false])
    · exact hlater h (by rw [hcrc, Bool.or_true, Option.isSome_some])
    · exact hlater h (by rw [Bool.not_eq_true] at hcrc; rw [hcrc, Bool.or_false])

/-- The loop stands nowhere else. -/
theorem mem_placed_of_lookup {i j : ℕ} {seenCrc seen : Bool}
    (h : (entryPlaces i seenCrc es).lookup j = some seen) : ∃ e, (j, e) ∈ placedEntries i es := by
  induction es generalizing i seenCrc with
  | nil => cases h
  | cons e es ih =>
    rw [entryPlaces, List.lookup_cons] at h
    by_cases hj : j = i
    · exact ⟨e, by rw [hj]; exact List.mem_cons_self⟩
    · have hne : (j == i) = false := beq_eq_false_iff_ne.mpr hj
      rw [hne] at h
      obtain ⟨e', he'⟩ := ih h
      exact ⟨e', List.mem_cons_of_mem _ he'⟩

end Aligned

section Refcount

variable {k : MemKey} {hd : List UInt64} {es : List Entry} {sub : ℕ}

/-- A key with no refcount, or one with a refcount in its first word. -/
theorem ExtentValue.head_cases (h : ExtentValue k hd es) :
    hd = [] ∨ ∃ r, hd = [r] ∧ k.word 0 = r ∧ 0 < k.valU64s := by
  rcases h.head with ⟨-, hnil⟩ | ⟨-, hone⟩
  · exact .inl hnil
  · obtain ⟨r, rfl⟩ := List.length_eq_one_iff.mp hone
    refine .inr ⟨r, rfl, ?_, ?_⟩
    · rw [MemKey.word, h.mem]
      rfl
    · rw [h.valU64s, List.length_singleton]
      omega

theorem ExtentValue.length_le (h : ExtentValue k hd es) :
    hd.length + es.length ≤ k.mem.length := by
  have hwords := MemKey.HasEntries.length_le es
  have hval := h.valU64s
  have hmem := h.valU64s_le
  omega

/-- The loop in a value with a refcount, from the refcount on. -/
theorem ExtentValue.cutPlaces_refcount {r : UInt64} (h : ExtentValue k [r] es) :
    k.cutPlaces = (0, false) ::
      if extentEntryU64sKnown (extentEntryType r) = 0 then []
      else cutPlaces k.valU64s k.mem.length k.mem (extentEntryU64sKnown (extentEntryType r))
        (extentEntryIsCrc r) := by
  have hlen : 0 < k.valU64s := by
    rw [h.valU64s, List.length_singleton]
    omega
  have hhead : k.mem.getD 0 0 = r := by
    rw [h.mem]
    rfl
  rw [MemKey.cutPlaces, cutPlaces, if_pos hlen, hhead]
  dsimp only
  rw [Nat.zero_add, Bool.false_or]

/-- A loop that stands at the entries does so in their order. -/
theorem ExtentValue.lookup_aligned (h : ExtentValue k hd es) (hat : AtEntries hd) {i : ℕ}
    (hi : hd.length ≤ i) :
    k.cutPlaces.lookup i = (entryPlaces hd.length false es).lookup i := by
  have hlen := h.length_le
  have hmem := h.mem
  have hval := h.valU64s
  rcases h.head_cases with rfl | ⟨r, rfl, -, -⟩
  · rw [List.length_nil] at hlen
    have hplaces := @cutPlaces_at es k.mem [] _ (k.mem.length + 1) false (by omega) hmem
    rw [MemKey.cutPlaces, hval]
    exact congrArg (List.lookup i) hplaces
  · obtain ⟨hlow, hhigh⟩ := hat r List.mem_cons_self
    have hknown : extentEntryU64sKnown (extentEntryType r) = 1 := by
      simp only [extentEntryStripePtr] at hlow
      rw [extentEntryU64sKnown, if_neg (by simp only [extentEntryCrc64]; omega),
        if_neg (by simp only [extentEntryCrc128]; omega), if_pos hhigh]
    have hcrc : extentEntryIsCrc r = false := by
      simp only [extentEntryStripePtr] at hlow
      simp only [extentEntryIsCrc, extentEntryCrc32, extentEntryCrc64, extentEntryCrc128,
        Bool.or_eq_false_iff, beq_eq_false_iff_ne]
      omega
    rw [List.length_singleton] at hi hlen
    have hplaces := @cutPlaces_at es k.mem [r] _ k.mem.length false (by omega) hmem
    have hne : (i == 0) = false := beq_eq_false_iff_ne.mpr (by omega)
    rw [h.cutPlaces_refcount, hknown, hcrc, if_neg Nat.one_ne_zero, List.lookup_cons, hne, hval]
    exact congrArg (List.lookup i) hplaces

/-- A refcount that passes for an entry which the loop leaves alone is left alone. -/
theorem AtEntries.movesAt_refcount (hat : AtEntries hd) (h : ExtentValue k hd es) {i : ℕ}
    (hi : i < hd.length) : movesAt k.cutPlaces i (k.word i) = none := by
  rcases h.head_cases with rfl | ⟨r, rfl, hr, -⟩
  · cases hi
  · rw [List.length_singleton] at hi
    obtain rfl : i = 0 := by omega
    have hlow := (hat r List.mem_cons_self).1
    simp only [extentEntryStripePtr] at hlow
    cases hmoves : movesAt k.cutPlaces 0 (k.word 0) with
    | none => rfl
    | some f =>
      have hlt := (cutField_bounds (cutField_of_movesAt hmoves)).2.2
      rw [hr] at hlt
      omega

/-- At the entries the loop moves a pointer that stands under no crc. -/
theorem ExtentValue.movesAt_ptr (h : ExtentValue k hd es) (hat : AtEntries hd)
    {q : ℕ × Option ℕ} (hq : q ∈ ptrPlaces hd.length none es) :
    movesAt k.cutPlaces q.1 (k.word q.1) = if q.2.isSome = true then none else some (4, 44) := by
  obtain ⟨⟨e, he, hptr⟩, -⟩ := mem_ptrPlaces hq
  have hseen := (h.lookup_aligned hat (le_of_mem_placed he)).trans (lookup_of_mem_ptrPlaces hq)
  have htype : extentEntryType (k.word q.1) = extentEntryPtr := by
    rw [(h.word_of_placed he).1]
    simpa [Entry.isPtr, extentEntryIsPtr] using hptr
  have hfield : cutField extentEntryPtr = some (4, 44) := rfl
  rw [movesAt, hseen]
  dsimp only
  rw [htype, hfield]
  simp only [true_and]

/-- At the entries the loop moves every crc. -/
theorem ExtentValue.movesAt_crc (h : ExtentValue k hd es) (hat : AtEntries hd)
    {q : ℕ × Option ℕ} (hq : q ∈ ptrPlaces hd.length none es) {crc : ℕ} (hcrc : q.2 = some crc) :
    movesAt k.cutPlaces crc (k.word crc) = cutField (extentEntryType (k.word crc)) := by
  obtain ⟨e, he, hiscrc⟩ : ∃ e, (crc, e) ∈ placedEntries hd.length es ∧ e.isCrc = true := by
    rcases (mem_ptrPlaces hq).2 with hnone | ⟨c, e, hc, he, hiscrc⟩
    · rw [hnone] at hcrc
      cases hcrc
    · rw [hc] at hcrc
      obtain rfl := Option.some.inj hcrc
      exact ⟨e, he, hiscrc⟩
  obtain ⟨seen, hlookup⟩ := @lookup_of_mem_placed es hd.length false _ he
  have hne : ¬extentEntryType (k.word crc) = extentEntryPtr := by
    intro htype
    rw [(h.word_of_placed he).1] at htype
    rw [Entry.isCrc, extentEntryIsCrc, htype] at hiscrc
    exact absurd hiscrc (by decide)
  have hseen : k.cutPlaces.lookup crc = some seen :=
    (h.lookup_aligned hat (le_of_mem_placed he)).trans hlookup
  exact movesAt_of_lookup hseen fun hboth => hne hboth.1

/-- At the entries a pointer moves on unless an offset wraps around. -/
theorem ExtentValue.movesOnce_aligned (h : ExtentValue k hd es) (hat : AtEntries hd)
    {q : ℕ × Option ℕ} (hq : q ∈ ptrPlaces hd.length none es) :
    MovesOnce k k.cutPlaces sub q ↔
      ∀ off len, cutField (extentEntryType (k.word (q.2.getD q.1))) = some (off, len) →
        fieldAt (k.word (q.2.getD q.1)) + sub < 2 ^ len := by
  have hmoves := h.movesAt_ptr hat hq
  obtain ⟨⟨hfield, -⟩, hcrcs⟩ := h.fields_of_ptr hq
  cases hq2 : q.2 with
  | none =>
    rw [hq2, Option.isSome_none, if_neg Bool.false_ne_true, ← hfield] at hmoves
    rw [Option.getD_none]
    constructor
    · rintro (⟨off, len, hsome, hfits, -⟩ | ⟨hnone, -⟩) off' len' hfield'
      · rw [hmoves, hfield'] at hsome
        obtain ⟨rfl, rfl⟩ := Prod.mk.inj (Option.some.inj hsome)
        exact hfits
      · rw [hmoves, hfield'] at hnone
        cases hnone
    · intro hfits
      refine .inl ⟨_, _, hmoves.trans hfield, hfits _ _ hfield, fun crc hcrc => ?_⟩
      rw [hq2] at hcrc
      cases hcrc
  | some crc =>
    rw [hq2, Option.isSome_some, if_pos rfl] at hmoves
    rw [Option.getD_some]
    have hcmoves := h.movesAt_crc hat hq hq2
    obtain ⟨-, off, len, hcfield, -⟩ := hcrcs crc hq2
    constructor
    · rintro (⟨off', len', hsome, -⟩ | ⟨-, crc', off', len', hcrc', hsome, hfits⟩) off'' len'' hf
      · rw [hmoves] at hsome
        cases hsome
      · rw [hq2] at hcrc'
        obtain rfl := Option.some.inj hcrc'
        rw [hcmoves, hf] at hsome
        obtain ⟨rfl, rfl⟩ := Prod.mk.inj (Option.some.inj hsome)
        exact hfits
    · intro hfits
      exact .inr ⟨hmoves, crc, off, len, hq2, hcmoves.trans hcfield, hfits off len hcfield⟩

/-- At the entries the loop moves what it is to move unless an offset wraps around. -/
theorem loopFits_iff_noWrap (h : ExtentValue k hd es) (hat : AtEntries hd) :
    LoopFits k hd es sub ↔ NoWrap k es hd.length sub := by
  constructor
  · intro hfits q hq
    exact (h.movesOnce_aligned hat hq).mp (hfits.pointers q hq)
  · intro hwrap
    refine ⟨fun i _ off len hmoves => .inr ?_,
      fun q hq => (h.movesOnce_aligned hat hq).mpr (hwrap q hq)⟩
    rcases Nat.lt_or_ge i hd.length with hlt | hge
    · rw [hat.movesAt_refcount h hlt] at hmoves
      cases hmoves
    · rw [movesAt, h.lookup_aligned hat hge] at hmoves
      cases hlookup : (entryPlaces hd.length false es).lookup i with
      | none =>
        rw [hlookup] at hmoves
        cases hmoves
      | some seen => exact mem_placed_of_lookup hlookup

/-- A refcount whose lowest bit passes for a pointer or a crc is changed, unless the field that is
moved in it comes round to what it was. -/
theorem LoopFits.dvd_of_refcount {r : UInt64} {off len : ℕ} (h : ExtentValue k [r] es)
    (hr : cutField (extentEntryType r) = some (off, len)) (hfits : LoopFits k [r] es sub) :
    2 ^ len ∣ sub := by
  obtain ⟨hword, hlt⟩ : k.word 0 = r ∧ 0 < k.valU64s := by
    rcases h.head_cases with hnil | ⟨r', hr', hword, hlt⟩
    · cases hnil
    · obtain rfl := List.singleton_inj.mp hr'
      exact ⟨hword, hlt⟩
  have hmoves : movesAt k.cutPlaces 0 (k.word 0) = some (off, len) := by
    rw [movesAt, h.cutPlaces_refcount, List.lookup_cons_self]
    dsimp only
    rw [hword, if_neg (by simp), hr]
  rcases hfits.entries 0 hlt off len hmoves with hdvd | ⟨e, he⟩
  · exact hdvd
  · have hle := le_of_mem_placed he
    cases hle

/-- A refcount that passes for an entry of no known type ends the loop, and no pointer is moved. -/
theorem loopFits_iff_of_unknown {r : UInt64} (h : ExtentValue k [r] es)
    (hr : extentEntryMax ≤ extentEntryType r) :
    LoopFits k [r] es sub ↔ ptrPlaces 1 none es = [] := by
  have hknown : extentEntryU64sKnown (extentEntryType r) = 0 := by
    simp only [extentEntryMax] at hr
    rw [extentEntryU64sKnown, if_neg (by simp only [extentEntryCrc64]; omega),
      if_neg (by simp only [extentEntryCrc128]; omega),
      if_neg (by simp only [extentEntryMax]; omega)]
  have hplaces : k.cutPlaces = [(0, false)] := by rw [h.cutPlaces_refcount, hknown, if_pos rfl]
  have hword : k.word 0 = r := by
    rcases h.head_cases with hnil | ⟨r', hr', hword, -⟩
    · cases hnil
    · obtain rfl := List.singleton_inj.mp hr'
      exact hword
  have hnone : ∀ i, movesAt k.cutPlaces i (k.word i) = none := by
    intro i
    cases hmoves : movesAt k.cutPlaces i (k.word i) with
    | none => rfl
    | some f =>
      have hlt := (cutField_bounds (cutField_of_movesAt hmoves)).2.2
      rw [movesAt, hplaces, List.lookup_cons] at hmoves
      by_cases hi : i = 0
      · rw [hi, hword] at hlt
        simp only [extentEntryMax] at hr
        omega
      · rw [beq_eq_false_iff_ne.mpr hi] at hmoves
        cases hmoves
  constructor
  · intro hfits
    refine List.eq_nil_iff_forall_not_mem.mpr fun q hq => ?_
    rcases hfits.pointers q hq with ⟨off, len, hsome, -⟩ | ⟨-, crc, off, len, -, hsome, -⟩
    · rw [hnone] at hsome
      cases hsome
    · rw [hnone] at hsome
      cases hsome
  · intro hnil
    refine ⟨fun i _ off len hmoves => ?_, fun q hq => ?_⟩
    · rw [hnone] at hmoves
      cases hmoves
    · rw [List.length_singleton, hnil] at hq
      cases hq

end Refcount

/-! ### The cut at the front -/

section Front

variable {k : MemKey} {hd : List UInt64} {es : List Entry} {where_ : Bpos}

/-- The whole key is left. -/
theorem CutsTo.refl (h : ExtentValue k hd es) :
    CutsTo k hd es k.startPos.offset k.p.offset k where
  slot := ⟨rfl, rfl⟩
  stop := rfl
  size := by
    have hstart := k.startPos_offset h.size_le
    have hle := h.size_le
    omega
  empty heq := by
    have hstart := k.startPos_offset h.size_le
    have hle := h.size_le
    have hpos := h.size_pos
    omega
  kept _ := ⟨rfl, rfl⟩
  words _ _ _ := .inl rfl
  sectors _ _ _ _ _ := rfl

/-- What the loop leaves is right if and only if it fits. -/
theorem cutsTo_iff_loopFits (h : ExtentValue k hd es) {sub : ℕ} (hpos : 0 < sub)
    (hlt : sub < k.size) {mem : List UInt64}
    (hwords : ∀ i, mem[i]? = k.mem[i]?.map (wordAfter k.cutPlaces sub i)) :
    CutsTo k hd es (k.startPos.offset + sub) k.p.offset
      { k with size := k.size - sub, mem := mem } ↔ LoopFits k hd es sub := by
  have hstart := k.startPos_offset h.size_le
  have hsize := h.size_le
  have hsmall := h.size_lt
  generalize hk' : ({ k with size := k.size - sub, mem := mem } : MemKey) = k'
  obtain ⟨hp, htype, hleft, hu64s, hmem⟩ : k'.p = k.p ∧ k'.type = k.type ∧
      k'.size = k.size - sub ∧ k'.u64s = k.u64s ∧ k'.mem = mem := by
    rw [← hk']
    exact ⟨rfl, rfl, rfl, rfl, rfl⟩
  have hstart' : k'.startPos.offset.val = k.startPos.offset + sub := by
    have hle : k'.size ≤ k'.p.offset := by
      rw [hleft, hp]
      omega
    have hoffset := k'.startPos_offset hle
    rw [hleft, hp] at hoffset
    omega
  have hword : ∀ i < k.valU64s, k'.word i = wordAfter k.cutPlaces sub i (k.word i) := by
    intro i hi
    have hget := h.getElem?_word hi
    rw [MemKey.word, List.getD_eq_getElem?_getD, hmem, hwords, hget, Option.map_some,
      Option.getD_some]
  have hsector : ∀ q ∈ ptrPlaces hd.length none es, ∀ sector, k.startPos.offset + sub ≤ sector →
      (k'.deviceSector q sector = k.deviceSector q sector ↔ MovesOnce k k.cutPlaces sub q) := by
    intro q hq sector hle
    obtain ⟨⟨-, hptr⟩, hcrcs⟩ := h.fields_of_ptr hq
    have hmoves := @movesOnce_iff k hd es k.cutPlaces sub q h hq hpos (hlt.trans hsmall)
    have hfirst := hword q.1 hptr
    rw [← hmoves, MemKey.deviceSector, MemKey.deviceSector, hfirst, hstart']
    have hcrc : (q.2.map fun crc => fieldAt (k'.word crc)) =
        q.2.map fun crc => fieldAt (wordAfter k.cutPlaces sub crc (k.word crc)) := by
      cases hq2 : q.2 with
      | none => rw [Option.map_none, Option.map_none]
      | some crc =>
        rw [Option.map_some, Option.map_some, hword _ (hcrcs crc hq2).1]
    rw [hcrc]
    omega
  constructor
  · intro hcuts
    refine ⟨fun i hi off len hmoves => ?_, fun q hq => ?_⟩
    · have hget := h.getElem?_word hi
      rcases hcuts.words (by omega) i hi with hsame | ⟨e, -, -, he, -⟩
      · left
        rw [hmem, hwords, hget, Option.map_some, wordAfter_of_some hmoves] at hsame
        exact (addField_eq_self_iff (cutField_bounds (cutField_of_movesAt hmoves)).2.1).mp
          (Option.some.inj hsame)
      · exact .inr ⟨e, he⟩
    · exact (hsector q hq _ le_rfl).mp (hcuts.sectors q hq _ le_rfl (by omega))
  · intro hfits
    refine ⟨⟨by rw [hp], by rw [hp]⟩, by rw [hp], ?_, fun heq => ?_, fun _ => ⟨htype, hu64s⟩,
      fun _ i hi => ?_, ?_⟩
    · omega
    · omega
    · have hget := h.getElem?_word hi
      cases hmoves : movesAt k.cutPlaces i (k.word i) with
      | none =>
        left
        rw [hmem, hwords, hget, Option.map_some, wordAfter_of_none hmoves]
      | some f =>
        obtain ⟨off, len⟩ := f
        have hfield := cutField_of_movesAt hmoves
        rcases hfits.entries i hi off len hmoves with hdvd | ⟨e, he⟩
        · left
          rw [hmem, hwords, hget, Option.map_some, wordAfter_of_some hmoves,
            (addField_eq_self_iff (cutField_bounds hfield).2.1).mpr hdvd]
        · right
          have hhead := (h.word_of_placed he).1
          refine ⟨e, off, len, he, by rw [← hhead, hfield],
            (field off len (k.word i).toNat + sub) % 2 ^ len, Nat.mod_lt _ (Nat.two_pow_pos len),
            ?_⟩
          rw [hmem, hwords, hget, Option.map_some, wordAfter_of_some hmoves, ← hhead, addField]
    · intro q hq sector hle _
      exact (hsector q hq sector hle).mpr (hfits.pointers q hq)

/-- What is cut is the distance from the start of the key. -/
theorem bch2CutFrontS_eq (h : ExtentValue k hd es)
    (hlo : k.startPos.offset.val ≤ where_.offset) (hhi : where_.offset.val ≤ k.p.offset)
    (hcut : ¬where_ ≤ k.startPos) (hsnap : ¬k.p < where_) :
    bch2CutFrontS where_ k =
      cutFrontTo (where_.offset - k.startPos.offset : ℕ)
        (k.size - (where_.offset - k.startPos.offset : ℕ)) k := by
  have hstart := k.startPos_offset h.size_le
  have hsize := h.size_le
  have hsmall := h.size_lt
  have hafter : ¬where_.offset < k.startPos.offset := by
    rw [Fin.lt_def]
    omega
  have hfit : (where_.offset - k.startPos.offset : ℕ) % 2 ^ 32 =
      (where_.offset - k.startPos.offset : ℕ) := Nat.mod_eq_of_lt (by omega)
  rw [bch2CutFrontS, if_neg hcut, if_neg hsnap, if_neg hafter]
  simp only [hfit]
  rw [if_neg (by omega)]

/-- As long as a part of the key is left, the loop goes over the whole value. -/
theorem cutFrontTo_pos (h : ExtentValue k hd es) (sub : ℕ) {size : ℕ} (hsize : size ≠ 0) :
    ∃ mem, cutFrontTo sub size k = some ({ k with size := size, mem := mem }, 0) ∧
      ∀ i, mem[i]? = k.mem[i]?.map (wordAfter k.cutPlaces sub i) := by
  have htype : k.type = keyTypeExtent ∨ k.type = keyTypeReflinkV := by
    rcases h.head with ⟨htype, -⟩ | ⟨htype, -⟩
    · exact .inl htype
    · exact .inr htype
  have hne : k.type ≠ keyTypeBtreePtrV2 ∧ k.type ≠ keyTypeStripe := by
    rcases htype with htype | htype
    · rw [htype]
      decide
    · rw [htype]
      decide
  have hptrs : MemKey.ptrs { k with size := size } = some (0, k.valU64s) := by
    have hkind : k.type = keyTypeBtreePtr ∨ k.type = keyTypeExtent ∨ k.type = keyTypeReflinkV :=
      .inr htype
    rw [MemKey.ptrs, if_neg hne.1, if_neg hne.2, if_pos hkind, MemKey.valU64s, MemKey.valU64s]
  have hstop := h.valU64s_le
  obtain ⟨mem, hrun, hlen, hwords⟩ := @cutFrontLoop_spec sub k.valU64s (k.mem.length + 1) 0 k.mem
    false hstop (by omega)
  have hwf : MemKey.WF { k with size := size, mem := mem } :=
    ⟨h.wf.le, h.wf.lt, h.wf.fits.trans hlen.ge⟩
  have hvalU64s : MemKey.valU64s { k with size := size, mem := mem } = k.valU64s := by
    rw [MemKey.valU64s, MemKey.valU64s]
  have hentries : cutFrontEntries sub { k with size := size } = some mem := by
    rw [cutFrontEntries, if_pos htype, hptrs]
    exact hrun
  refine ⟨mem, ?_, hwords⟩
  rw [cutFrontTo, if_neg hsize, if_neg hsize, hentries, Option.bind_eq_bind, Option.bind_some,
    setValU64s_same hwf hvalU64s]

/-- A cut that leaves nothing. -/
theorem cutFrontTo_zero (h : ExtentValue k hd es) (sub : ℕ) :
    ∃ mem ret, cutFrontTo sub 0 k =
      some ({ k with size := 0, type := keyTypeDeleted, u64s := bkeyU64s, mem := mem }, ret) := by
  have hwf : MemKey.WF { k with size := 0, type := keyTypeDeleted } :=
    ⟨h.wf.le, h.wf.lt, h.wf.fits⟩
  have hother : ¬(keyTypeDeleted = keyTypeExtent ∨ keyTypeDeleted = keyTypeReflinkV) := by decide
  obtain ⟨mem, ret, hset⟩ := setValU64s_zero hwf
  have hentries : cutFrontEntries sub { k with size := 0, type := keyTypeDeleted } = some k.mem :=
    if_neg hother
  refine ⟨mem, ret, ?_⟩
  rw [cutFrontTo, if_pos rfl, if_pos rfl, hentries, Option.bind_eq_bind, Option.bind_some, hset]

/-- What the cut at the front needs: the position is not behind the end of the key in its snapshot,
no offset wraps around, and where the loop takes a refcount for an entry that it changes or that
misleads it, it nevertheless moves every pointer and nothing else. -/
structure FrontFits (where_ : Bpos) (k : MemKey) (hd : List UInt64) (es : List Entry) : Prop where
  snapshot : where_.offset = k.p.offset → where_.snapshot ≤ k.p.snapshot
  noWrap : k.startPos.offset < where_.offset → where_.offset < k.p.offset → AtEntries hd →
    NoWrap k es hd.length (where_.offset - k.startPos.offset : ℕ)
  refcount : k.startPos.offset < where_.offset → where_.offset < k.p.offset → ¬AtEntries hd →
    LoopFits k hd es (where_.offset - k.startPos.offset : ℕ)

theorem frontFits_iff (h : ExtentValue k hd es) : FrontFits where_ k hd es ↔
    (where_.offset = k.p.offset → where_.snapshot ≤ k.p.snapshot) ∧
      (k.startPos.offset < where_.offset → where_.offset < k.p.offset →
        LoopFits k hd es (where_.offset - k.startPos.offset : ℕ)) := by
  constructor
  · intro hfits
    refine ⟨hfits.snapshot, fun hlo hhi => ?_⟩
    by_cases hat : AtEntries hd
    · exact (loopFits_iff_noWrap h hat).mpr (hfits.noWrap hlo hhi hat)
    · exact hfits.refcount hlo hhi hat
  · rintro ⟨hsnap, hloop⟩
    exact ⟨hsnap, fun hlo hhi hat => (loopFits_iff_noWrap h hat).mp (hloop hlo hhi),
      fun hlo hhi _ => hloop hlo hhi⟩

/-- A key of which nothing is left. -/
theorem CutsTo.nothing {lo hi : ℕ} {k' : MemKey} (hlo : lo = hi)
    (hp : k'.p = { k.p with offset := k'.p.offset }) (hstop : k'.p.offset.val = hi)
    (hsize : k'.size = 0) (htype : k'.type = keyTypeDeleted) (hu64s : k'.u64s = bkeyU64s) :
    CutsTo k hd es lo hi k' where
  slot := ⟨by rw [hp], by rw [hp]⟩
  stop := hstop
  size := by omega
  empty _ := ⟨htype, hu64s⟩
  kept hlt := by omega
  words hlt := by omega
  sectors q _ sector hle hlt := by omega

/-- A cut that leaves a part of the key, when the snapshot of the position does not matter. -/
theorem cutFrontTo_cutsTo_iff (h : ExtentValue k hd es) {sub : ℕ} (hlt : sub < k.size) :
    (∃ k' ret, cutFrontTo sub (k.size - sub) k = some (k', ret) ∧
        CutsTo k hd es (k.startPos.offset + sub) k.p.offset k') ↔
      (0 < sub → LoopFits k hd es sub) := by
  obtain ⟨mem, hrun, hwords⟩ := cutFrontTo_pos h sub (Nat.sub_ne_zero_of_lt hlt)
  rw [hrun]
  rcases Nat.eq_zero_or_pos sub with rfl | hpos
  · -- the loop adds nothing
    have hmem : mem = k.mem := by
      refine List.ext_getElem? fun i => ?_
      have hid : wordAfter k.cutPlaces 0 i = id := funext fun w => wordAfter_zero ..
      rw [hwords, hid, Option.map_id, id]
    have hkey : ({ k with size := k.size - 0, mem := mem } : MemKey) = k := by
      rw [Nat.sub_zero, hmem]
    rw [hkey, Nat.add_zero]
    exact ⟨fun _ hlt => absurd hlt (lt_irrefl 0), fun _ => ⟨k, 0, rfl, .refl h⟩⟩
  · have hiff := cutsTo_iff_loopFits h hpos hlt hwords
    generalize ({ k with size := k.size - sub, mem := mem } : MemKey) = left at hiff ⊢
    constructor
    · rintro ⟨k', ret, hres, hcuts⟩ -
      obtain ⟨rfl, -⟩ := Prod.mk.inj (Option.some.inj hres)
      exact hiff.mp hcuts
    · intro hfits
      exact ⟨left, 0, rfl, hiff.mpr (hfits hpos)⟩

/-- When the cut at the front does what it is to do. -/
theorem bch2CutFrontS_spec (h : ExtentValue k hd es) (hinode : where_.inode = k.p.inode)
    (hlo : k.startPos.offset ≤ where_.offset) (hhi : where_.offset ≤ k.p.offset) :
    (∃ k' ret, bch2CutFrontS where_ k = some (k', ret) ∧
        CutsTo k hd es where_.offset k.p.offset k') ↔ FrontFits where_ k hd es := by
  have hstart := k.startPos_offset h.size_le
  have hsize := h.size_le
  have hpos := h.size_pos
  rw [frontFits_iff h]
  have hbefore : where_ ≤ k.startPos ↔ where_.offset < k.startPos.offset ∨
      where_.offset = k.startPos.offset ∧ where_.snapshot ≤ k.p.snapshot := by
    rw [Bpos.le_iff_of_inode (hinode.trans k.startPos_inode.symm), k.startPos_snapshot]
  have hbehind : where_ ≤ k.p ↔ where_.offset < k.p.offset ∨
      where_.offset = k.p.offset ∧ where_.snapshot ≤ k.p.snapshot := Bpos.le_iff_of_inode hinode
  rw [Fin.lt_def, Fin.ext_iff] at hbefore hbehind
  rw [Fin.le_def] at hlo hhi
  by_cases hcut : where_ ≤ k.startPos
  · -- nothing is cut
    have hfirst : where_.offset.val = k.startPos.offset := by
      rcases hbefore.mp hcut with hlt | ⟨heq, -⟩
      · omega
      · exact heq
    have hfits : (where_.offset = k.p.offset → where_.snapshot ≤ k.p.snapshot) ∧
        (k.startPos.offset < where_.offset → where_.offset < k.p.offset →
          LoopFits k hd es (where_.offset - k.startPos.offset : ℕ)) := by
      refine ⟨fun hend => ?_, fun hlt => ?_⟩
      · rw [Fin.ext_iff] at hend
        omega
      · rw [Fin.lt_def] at hlt
        omega
    refine iff_of_true ⟨k, 0, by rw [bch2CutFrontS, if_pos hcut], ?_⟩ hfits
    rw [hfirst]
    exact .refl h
  · by_cases hsnap : where_ ≤ k.p
    · rw [bch2CutFrontS_eq h hlo hhi hcut (not_lt.mpr hsnap)]
      by_cases hend : where_.offset.val = k.p.offset
      · -- nothing is left
        have hall : k.size - (where_.offset - k.startPos.offset : ℕ) = 0 := by omega
        obtain ⟨mem, ret, hrun⟩ := cutFrontTo_zero h (where_.offset - k.startPos.offset : ℕ)
        have hfits : (where_.offset = k.p.offset → where_.snapshot ≤ k.p.snapshot) ∧
            (k.startPos.offset < where_.offset → where_.offset < k.p.offset →
              LoopFits k hd es (where_.offset - k.startPos.offset : ℕ)) := by
          refine ⟨fun _ => ?_, fun _ hlt => ?_⟩
          · rcases hbehind.mp hsnap with hlt | ⟨-, hle⟩
            · omega
            · exact hle
          · rw [Fin.lt_def] at hlt
            omega
        let left : MemKey :=
          { k with size := 0, type := keyTypeDeleted, u64s := bkeyU64s, mem := mem }
        have hcuts : CutsTo k hd es where_.offset k.p.offset left :=
          .nothing hend rfl rfl rfl rfl rfl
        rw [hall, hrun]
        exact iff_of_true ⟨left, ret, rfl, hcuts⟩ hfits
      · generalize hsub : (where_.offset - k.startPos.offset : ℕ) = sub
        have hsum : where_.offset.val = k.startPos.offset + sub := by omega
        have hiff := cutFrontTo_cutsTo_iff h (show sub < k.size by omega)
        rw [hsum, hiff]
        constructor
        · intro hloop
          refine ⟨fun heq => absurd (congrArg Fin.val heq) hend, fun hlt _ => ?_⟩
          rw [Fin.lt_def] at hlt
          exact hloop (by omega)
        · intro hfits hsubpos
          exact hfits.2 (by rw [Fin.lt_def]; omega) (by rw [Fin.lt_def]; omega)
    · -- the assertion fails
      refine iff_of_false ?_ fun hfits => hsnap (hbehind.mpr ?_)
      · rintro ⟨k', ret, hrun, -⟩
        rw [bch2CutFrontS, if_neg hcut, if_pos (not_le.mp hsnap)] at hrun
        cases hrun
      · rcases Nat.lt_or_eq_of_le hhi with hlt | heq
        · exact .inl hlt
        · exact .inr ⟨heq, hfits.1 (Fin.ext heq)⟩

end Front

/-! ### The cut at the back -/

section Back

variable {k : MemKey} {hd : List UInt64} {es : List Entry} {where_ : Bpos}

/-- A cut at the back leaves the value as it is as long as something is left. -/
theorem cutBackTo_cutsTo (h : ExtentValue k hd es) {len : ℕ} (hlen : len ≤ k.size)
    (hsum : where_.offset.val = k.startPos.offset + len) :
    ∃ k' ret, cutBackTo where_ len k = some (k', ret) ∧
      CutsTo k hd es k.startPos.offset where_.offset k' := by
  have hstart := k.startPos_offset h.size_le
  have hsize := h.size_le
  have hsmall := h.size_lt
  have hfit : len % 2 ^ 32 = len := Nat.mod_eq_of_lt (by omega)
  rw [cutBackTo, hfit]
  by_cases hzero : len = 0
  · rw [if_pos hzero, if_pos hzero]
    generalize hk₁ : ({ k with
      p := { k.p with offset := where_.offset }, size := len, type := keyTypeDeleted } :
        MemKey) = k₁
    have hwf : k₁.WF := by
      rw [← hk₁]
      exact ⟨h.wf.le, h.wf.lt, h.wf.fits⟩
    obtain ⟨hp, hleft, htype⟩ : k₁.p = { k.p with offset := where_.offset } ∧ k₁.size = len ∧
        k₁.type = keyTypeDeleted := by
      rw [← hk₁]
      exact ⟨rfl, rfl, rfl⟩
    obtain ⟨mem, ret, hset⟩ := setValU64s_zero hwf
    refine ⟨_, ret, hset, ?_⟩
    refine .nothing (by omega) ?_ ?_ (hleft.trans hzero) htype rfl
    · simp only [hp]
    · simp only [hp]
  · rw [if_neg hzero, if_neg hzero]
    generalize hk' : ({ k with p := { k.p with offset := where_.offset }, size := len } :
      MemKey) = k'
    obtain ⟨hp, hleft, htype, hu64s, hmem⟩ : k'.p = { k.p with offset := where_.offset } ∧
        k'.size = len ∧ k'.type = k.type ∧ k'.u64s = k.u64s ∧ k'.mem = k.mem := by
      rw [← hk']
      exact ⟨rfl, rfl, rfl, rfl, rfl⟩
    have hwf : k'.WF := by
      rw [← hk']
      exact ⟨h.wf.le, h.wf.lt, h.wf.fits⟩
    have hvalU64s : k'.valU64s = k.valU64s := by rw [MemKey.valU64s, MemKey.valU64s, hu64s]
    have hoffset : k'.p.offset = where_.offset := by rw [hp]
    have hstart' : k'.startPos.offset.val = k.startPos.offset := by
      have hle : k'.size ≤ k'.p.offset := by
        rw [hleft, hoffset]
        omega
      have hsub := k'.startPos_offset hle
      rw [hleft, hoffset] at hsub
      omega
    refine ⟨k', 0, setValU64s_same hwf hvalU64s, ⟨by rw [hp], by rw [hp]⟩, by rw [hoffset], ?_,
      ?_, fun _ => ⟨htype, hu64s⟩, fun _ i _ => .inl (by rw [hmem]), ?_⟩
    · omega
    · intro heq
      omega
    · intro q _ sector _ _
      have hword : k'.word = k.word := by
        funext i
        rw [MemKey.word, MemKey.word, hmem]
      rw [MemKey.deviceSector, MemKey.deviceSector, hword, hstart']

/-- When the cut at the back does what it is to do. -/
theorem bch2CutBackS_spec (h : ExtentValue k hd es) (hinode : where_.inode = k.p.inode)
    (hlo : k.startPos.offset ≤ where_.offset) (hhi : where_.offset ≤ k.p.offset) :
    (∃ k' ret, bch2CutBackS where_ k = some (k', ret) ∧
        CutsTo k hd es k.startPos.offset where_.offset k') ↔
      (where_.offset = k.startPos.offset → k.p.snapshot ≤ where_.snapshot) := by
  have hstart := k.startPos_offset h.size_le
  have hsize := h.size_le
  have hpos := h.size_pos
  have hafter : k.startPos ≤ where_ ↔ k.startPos.offset < where_.offset ∨
      k.startPos.offset = where_.offset ∧ k.p.snapshot ≤ where_.snapshot := by
    rw [Bpos.le_iff_of_inode (k.startPos_inode.trans hinode.symm), k.startPos_snapshot]
  have hbehind : k.p ≤ where_ ↔ k.p.offset < where_.offset ∨
      k.p.offset = where_.offset ∧ k.p.snapshot ≤ where_.snapshot :=
    Bpos.le_iff_of_inode hinode.symm
  rw [Fin.lt_def, Fin.ext_iff] at hafter hbehind
  rw [Fin.le_def] at hlo hhi
  by_cases hcut : k.p ≤ where_
  · -- nothing is cut
    have hlast : where_.offset.val = k.p.offset := by
      rcases hbehind.mp hcut with hlt | ⟨heq, -⟩
      · omega
      · exact heq.symm
    refine iff_of_true ⟨k, 0, by rw [bch2CutBackS, if_pos hcut], ?_⟩ fun hfirst => ?_
    · rw [hlast]
      exact .refl h
    · rw [Fin.ext_iff] at hfirst
      omega
  · by_cases hsnap : k.startPos ≤ where_
    · have hinside : ¬where_.offset < k.startPos.offset := by
        rw [Fin.lt_def]
        omega
      rw [bch2CutBackS, if_neg hcut, if_neg (not_lt.mpr hsnap), if_neg hinside]
      refine iff_of_true (cutBackTo_cutsTo h (by omega) (by omega)) fun hfirst => ?_
      rw [Fin.ext_iff] at hfirst
      rcases hafter.mp hsnap with hlt | ⟨-, hle⟩
      · omega
      · exact hle
    · -- the assertion fails
      refine iff_of_false ?_ fun hfits => hsnap (hafter.mpr ?_)
      · rintro ⟨k', ret, hrun, -⟩
        rw [bch2CutBackS, if_neg hcut, if_pos (not_le.mp hsnap)] at hrun
        cases hrun
      · rcases Nat.lt_or_eq_of_le hlo with hlt | heq
        · exact .inl hlt
        · exact .inr ⟨heq, hfits (Fin.ext heq.symm)⟩

end Back

/-! ### Both cuts -/

/-- When both cuts at a position do what they are to do. -/
theorem bch2CutS_iff {k : MemKey} {hd : List UInt64} {es : List Entry} {where_ : Bpos}
    (h : ExtentValue k hd es) (hinode : where_.inode = k.p.inode)
    (hlo : k.startPos.offset ≤ where_.offset) (hhi : where_.offset ≤ k.p.offset) :
    ((∃ k' ret, bch2CutFrontS where_ k = some (k', ret) ∧
        CutsTo k hd es where_.offset k.p.offset k') ∧
      ∃ k' ret, bch2CutBackS where_ k = some (k', ret) ∧
        CutsTo k hd es k.startPos.offset where_.offset k') ↔
      FrontFits where_ k hd es ∧
        (where_.offset = k.startPos.offset → k.p.snapshot ≤ where_.snapshot) :=
  and_congr (bch2CutFrontS_spec h hinode hlo hhi) (bch2CutBackS_spec h hinode hlo hhi)

/-- Sectors 10 to 20 at sector 7 of a device, and at sector 9 under a crc64 with offset 2. -/
def mixedExtent : MemKey where
  p := ⟨3, 20, 5⟩
  type := keyTypeExtent
  size := 10
  u64s := 9
  mem := [1 + 7 * 2 ^ 4, 2 ^ 2 + 2 * 2 ^ 21, 0, 1 + 9 * 2 ^ 4]

/-- The entries of `mixedExtent`. -/
def mixedEntries : List Entry :=
  [⟨1 + 7 * 2 ^ 4, [], by decide⟩, ⟨2 ^ 2 + 2 * 2 ^ 21, [0], by decide⟩,
    ⟨1 + 9 * 2 ^ 4, [], by decide⟩]

theorem mixedExtent_value : ExtentValue mixedExtent [] mixedEntries where
  wf := ⟨by decide, by decide, by decide⟩
  size_pos := by decide
  size_lt := by decide
  size_le := by decide
  head := .inl ⟨rfl, rfl⟩
  val := by decide

theorem mixedExtent_noWrap : NoWrap mixedExtent mixedEntries 0 3 := by
  have hplaces : ptrPlaces 0 none mixedEntries = [(0, none), (3, some 1)] := by decide
  intro q hq off len hfield
  rw [hplaces] at hq
  have hcases : q = (0, none) ∨ q = (3, some 1) := by simpa using hq
  rcases hcases with rfl | rfl
  · have htype : cutField (extentEntryType (mixedExtent.word 0)) = some (4, 44) := by decide
    obtain ⟨rfl, rfl⟩ := Prod.mk.inj (Option.some.inj (hfield.symm.trans htype))
    decide
  · have htype : cutField (extentEntryType (mixedExtent.word 1)) = some (21, 9) := by decide
    obtain ⟨rfl, rfl⟩ := Prod.mk.inj (Option.some.inj (hfield.symm.trans htype))
    decide

theorem bch2CutS_mixedExtent :
    (∃ k' ret, bch2CutFrontS ⟨3, 13, 9⟩ mixedExtent = some (k', ret) ∧
        CutsTo mixedExtent [] mixedEntries 13 20 k') ∧
      ∃ k' ret, bch2CutBackS ⟨3, 13, 9⟩ mixedExtent = some (k', ret) ∧
        CutsTo mixedExtent [] mixedEntries 10 13 k' :=
  (bch2CutS_iff mixedExtent_value (by decide) (by decide) (by decide)).mpr
    ⟨⟨fun h => absurd h (by decide), fun _ _ _ => mixedExtent_noWrap,
      fun _ _ hat => absurd (fun _ hr => nomatch hr) hat⟩, fun h => absurd h (by decide)⟩

/-- Sectors 10 to 20 at sector 7 of a device, with one reference. -/
def sharedExtent : MemKey where
  p := ⟨3, 20, 0⟩
  type := keyTypeReflinkV
  size := 10
  u64s := 7
  mem := [1, 1 + 7 * 2 ^ 4]

/-- The entry of `sharedExtent`. -/
def sharedEntries : List Entry := [⟨1 + 7 * 2 ^ 4, [], by decide⟩]

theorem sharedExtent_value : ExtentValue sharedExtent [1] sharedEntries where
  wf := ⟨by decide, by decide, by decide⟩
  size_pos := by decide
  size_lt := by decide
  size_le := by decide
  head := .inr ⟨rfl, rfl⟩
  val := by decide

/-- A cut at the front makes 81 references of one. -/
theorem bch2CutS_sharedExtent :
    bch2CutFrontS ⟨3, 15, 0⟩ sharedExtent =
        some ({ sharedExtent with size := 5, mem := [81, 1 + 12 * 2 ^ 4] }, 0) ∧
      ¬((∃ k' ret, bch2CutFrontS ⟨3, 15, 0⟩ sharedExtent = some (k', ret) ∧
          CutsTo sharedExtent [1] sharedEntries 15 20 k') ∧
        ∃ k' ret, bch2CutBackS ⟨3, 15, 0⟩ sharedExtent = some (k', ret) ∧
          CutsTo sharedExtent [1] sharedEntries 10 15 k') := by
  refine ⟨by decide, fun hboth => ?_⟩
  have hfits := (bch2CutFrontS_spec sharedExtent_value (by decide) (by decide) (by decide)).mp
    hboth.1
  have hloop := hfits.refcount (by decide) (by decide) fun hat =>
    absurd (hat 1 List.mem_cons_self).1 (by decide)
  have hdvd := hloop.dvd_of_refcount sharedExtent_value (show _ = some (4, 44) by decide)
  exact absurd hdvd (by decide)

end Subvol

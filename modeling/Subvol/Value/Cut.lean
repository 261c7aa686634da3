import Subvol.Value.Decode

/-!
# Cutting extents

`bch2_cut_front_s` and `bch2_cut_back_s` leave the part of an extent that is behind or before a
position. The pointers of an extent say where its first sector is: a cut at the front moves the
offset of each pointer, or that of the crc it stands under. Model of both functions, and of what the
loop over the entries does to the words of a value.

## Main definitions

* `bch2CutFrontS`, `bch2CutBackS`.
* `cutPlaces`: the words at which the loop over the entries stands.
* `ExtentValue`: the keys with extents, their refcount and their entries.
* `CutsTo`: what is to be of a key when a range of sectors is left.
* `LoopFits`: the loop moves every pointer and nothing else.

## Main results

* `cutFrontLoop_spec`: what the loop does to each word.
* `movesOnce_iff`: which pointers it moves on.
-/

namespace Subvol

open Lib

/-! ### The functions -/

/-- `bkey_start_pos`. -/
def MemKey.startPos (k : MemKey) : Bpos :=
  { k.p with offset := Fin.ofNat (2 ^ 64) (k.p.offset + 2 ^ 64 - k.size % 2 ^ 64) }

/-- The field that a cut at the front moves in an entry of some type: where it begins and how long
it is. -/
def cutField (type : ℕ) : Option (ℕ × ℕ) :=
  if type = extentEntryPtr then some (4, 44)
  else if type = extentEntryCrc32 then some (16, 7)
  else if type = extentEntryCrc64 then some (21, 9)
  else if type = extentEntryCrc128 then some (30, 13)
  else none

/-- A word with a field counted up, wrapping around. -/
def addField (off len sub : ℕ) (w : UInt64) : UInt64 :=
  UInt64.ofBitVec (setField off len ((field off len w.toNat + sub) % 2 ^ len) w.toBitVec)

/-- The `match` of `bch2_cut_front_s` at the first word of an entry: a pointer is moved as long as
no crc has been seen. -/
def cutWord (sub : ℕ) (seenCrc : Bool) (w : UInt64) : UInt64 :=
  match cutField (extentEntryType w) with
  | some (off, len) =>
    if extentEntryType w = extentEntryPtr ∧ seenCrc = true then w else addField off len sub w
  | none => w

/-- The loop of `bch2_cut_front_s` over the entries up to `stop`. -/
def cutFrontLoop (sub stop : ℕ) : ℕ → List UInt64 → ℕ → Bool → Option (List UInt64)
  | 0, _, _, _ => none
  | n + 1, mem, entry, seenCrc =>
    if entry < stop then do
      let w ← mem[entry]?
      let w' := cutWord sub seenCrc w
      let mem := mem.set entry w'
      -- the type is read again behind the `match`
      let u64s := extentEntryU64sKnown (extentEntryType w')
      if u64s = 0 then some mem
      else cutFrontLoop sub stop n mem (entry + u64s) (seenCrc || extentEntryIsCrc w)
    else some mem

/-- The end of both functions: the size of the value is set, what is cut off of it is cleared, and
the change of the size is returned. -/
def setValU64s (k : MemKey) (newValU64s : ℕ) : Option (MemKey × ℤ) :=
  if bkeyU64s + newValU64s < 2 ^ 8 then do
    let delta := k.valU64s - newValU64s
    let mem ← writeWords k.mem newValU64s (List.replicate delta 0)
    some ({ k with u64s := bkeyU64s + newValU64s, mem := mem }, -delta)
  else none

/-- The `match` of `bch2_cut_front_s` on the type of the key. -/
def cutFrontEntries (sub : ℕ) (k : MemKey) : Option (List UInt64) :=
  if k.type = keyTypeExtent ∨ k.type = keyTypeReflinkV then
    match k.ptrs with
    | none => some k.mem
    | some (start, stop) => cutFrontLoop sub stop (k.mem.length + 1) k.mem start false
  else some k.mem

/-- The part of `bch2_cut_front_s` behind the assertion, with the size that is left. -/
def cutFrontTo (sub size : ℕ) (k : MemKey) : Option (MemKey × ℤ) := do
  let newValU64s := if size = 0 then 0 else k.valU64s
  let type := if size = 0 then keyTypeDeleted else k.type
  let mem ← cutFrontEntries sub { k with size := size, type := type }
  setValU64s { k with size := size, type := type, mem := mem } newValU64s

/-- `bch2_cut_front_s`. -/
def bch2CutFrontS (where_ : Bpos) (k : MemKey) : Option (MemKey × ℤ) :=
  if where_ ≤ k.startPos then some (k, 0)
  else if k.p < where_ then none
  else if where_.offset < k.startPos.offset then none
  else
    let sub := where_.offset.val - k.startPos.offset.val
    if k.size < sub % 2 ^ 32 then none
    else cutFrontTo sub (k.size - sub % 2 ^ 32) k

/-- The part of `bch2_cut_back_s` behind the assertion, with the size that is left. -/
def cutBackTo (where_ : Bpos) (len : ℕ) (k : MemKey) : Option (MemKey × ℤ) :=
  let newValU64s := if len = 0 then 0 else k.valU64s
  let type := if len = 0 then keyTypeDeleted else k.type
  setValU64s
    { k with p := { k.p with offset := where_.offset }, size := len % 2 ^ 32, type := type }
    newValU64s

/-- `bch2_cut_back_s`. -/
def bch2CutBackS (where_ : Bpos) (k : MemKey) : Option (MemKey × ℤ) :=
  if k.p ≤ where_ then some (k, 0)
  else if where_ < k.startPos then none
  else if where_.offset < k.startPos.offset then none
  else cutBackTo where_ (where_.offset.val - k.startPos.offset.val) k

/-! ### Counting a field up -/

section AddField

variable {off len sub : ℕ} {w : UInt64}

theorem testBit_addField (i : ℕ) (hi : i < 64) :
    (addField off len sub w).toNat.testBit i =
      if off ≤ i ∧ i < off + len then
        ((field off len w.toNat + sub) % 2 ^ len).testBit (i - off)
      else w.toNat.testBit i := by
  rw [addField, UInt64.toNat, UInt64.toBitVec_ofBitVec,
    testBit_setField (Nat.mod_lt _ (Nat.two_pow_pos len)) hi]
  rfl

theorem field_addField (hfit : off + len ≤ 64) :
    field off len (addField off len sub w).toNat = (field off len w.toNat + sub) % 2 ^ len := by
  rw [addField, UInt64.toNat, UInt64.toBitVec_ofBitVec,
    field_setField_self hfit (Nat.mod_lt _ (Nat.two_pow_pos len))]

theorem field_addField_of_disjoint {off' len' : ℕ} (hdis : FieldsDisjoint off len off' len')
    (hfit : off' + len' ≤ 64) :
    field off' len' (addField off len sub w).toNat = field off' len' w.toNat := by
  rw [addField, UInt64.toNat, UInt64.toBitVec_ofBitVec,
    field_setField_of_disjoint hdis hfit (Nat.mod_lt _ (Nat.two_pow_pos len))]
  rfl

/-- A sum that wraps around to the number itself. -/
theorem add_mod_eq_self_iff {v m : ℕ} (hv : v < m) : (v + sub) % m = v ↔ m ∣ sub := by
  constructor
  · intro h
    have hdiv := Nat.div_add_mod (v + sub) m
    exact ⟨(v + sub) / m, by omega⟩
  · rintro ⟨d, rfl⟩
    rw [Nat.add_mul_mod_self_left, Nat.mod_eq_of_lt hv]

theorem addField_eq_self_iff (hfit : off + len ≤ 64) :
    addField off len sub w = w ↔ 2 ^ len ∣ sub := by
  rw [← add_mod_eq_self_iff (field_lt off len w.toNat)]
  constructor
  · intro h
    rw [← field_addField hfit, h]
  · intro h
    rw [addField, h]
    have hself : setField off len (field off len w.toBitVec.toNat) w.toBitVec = w.toBitVec :=
      setField_field
    rw [UInt64.toNat_toBitVec] at hself
    rw [hself, UInt64.ofBitVec_toBitVec]

end AddField

/-! ### The words of entries -/

/-- The type of a word is that of one with the same bits up to its lowest one. -/
theorem extentEntryType_congr {w w' : UInt64} (hlt : extentEntryType w < 64)
    (h : ∀ i ≤ extentEntryType w, w'.toNat.testBit i = w.toNat.testBit i) :
    extentEntryType w' = extentEntryType w := by
  cases hfind : (List.range 64).find? fun i => w.toNat.testBit i with
  | none =>
    rw [extentEntryType, hfind] at hlt
    exact absurd hlt (by decide)
  | some t =>
    have htype : extentEntryType w = t := by rw [extentEntryType, hfind, Option.getD_some]
    rw [List.find?_range_eq_some] at hfind
    obtain ⟨hbit, -, hlow⟩ := hfind
    rw [htype] at hlt h ⊢
    refine extentEntryType_eq hlt ((h t le_rfl).trans hbit) fun i hi => ?_
    rw [h i hi.le]
    simpa using hlow i hi

/-- The field that is moved lies above the bit that says the type. -/
theorem cutField_bounds {type off len : ℕ} (h : cutField type = some (off, len)) :
    type < off ∧ off + len ≤ 64 ∧ type < 4 := by
  rw [cutField] at h
  split_ifs at h with h₀ h₁ h₂ h₃ <;> obtain ⟨rfl, rfl⟩ := Prod.mk.inj (Option.some.inj h) <;>
    simp only [extentEntryPtr, extentEntryCrc32, extentEntryCrc64, extentEntryCrc128] at * <;>
    omega

@[simp] theorem extentEntryType_cutWord (sub : ℕ) (seenCrc : Bool) (w : UInt64) :
    extentEntryType (cutWord sub seenCrc w) = extentEntryType w := by
  rw [cutWord]
  cases hfield : cutField (extentEntryType w) with
  | none => rfl
  | some f =>
    obtain ⟨off, len⟩ := f
    obtain ⟨habove, hfit, hlt⟩ := cutField_bounds hfield
    dsimp only
    split_ifs with hseen
    · rfl
    · refine extentEntryType_congr (by omega) fun i hi => ?_
      rw [testBit_addField i (by omega), if_neg (by omega)]

/-! ### What the loop changes -/

/-- The words at which the loop of `bch2_cut_front_s` stands, and whether it has seen a crc
before. -/
def cutPlaces (stop : ℕ) : ℕ → List UInt64 → ℕ → Bool → List (ℕ × Bool)
  | 0, _, _, _ => []
  | n + 1, mem, entry, seenCrc =>
    if entry < stop then
      let w := mem.getD entry 0
      let u64s := extentEntryU64sKnown (extentEntryType w)
      (entry, seenCrc) ::
        if u64s = 0 then []
        else cutPlaces stop n mem (entry + u64s) (seenCrc || extentEntryIsCrc w)
    else []

/-- What becomes of the word at an offset when the loop stands at the given places. -/
def wordAfter (places : List (ℕ × Bool)) (sub i : ℕ) (w : UInt64) : UInt64 :=
  match places.lookup i with
  | some seenCrc => cutWord sub seenCrc w
  | none => w

section Loop

variable {sub stop n entry : ℕ} {mem : List UInt64} {seenCrc : Bool}

/-- The places depend on the words from the first of them on alone. -/
theorem cutPlaces_congr {mem' : List UInt64} (h : ∀ i, entry ≤ i → mem'[i]? = mem[i]?) :
    cutPlaces stop n mem' entry seenCrc = cutPlaces stop n mem entry seenCrc := by
  induction n generalizing entry seenCrc with
  | zero => rfl
  | succ n ih =>
    have hword : mem'.getD entry 0 = mem.getD entry 0 := by
      rw [List.getD_eq_getElem?_getD, List.getD_eq_getElem?_getD, h entry le_rfl]
    rw [cutPlaces, cutPlaces, hword]
    dsimp only
    rw [@ih _ _ fun i hi => h i (by omega)]

theorem le_of_mem_cutPlaces {q : ℕ × Bool} (h : q ∈ cutPlaces stop n mem entry seenCrc) :
    entry ≤ q.1 ∧ q.1 < stop := by
  induction n generalizing entry seenCrc with
  | zero => cases h
  | succ n ih =>
    rw [cutPlaces] at h
    by_cases hlt : entry < stop
    · rw [if_pos hlt] at h
      rcases List.mem_cons.mp h with rfl | hlater
      · exact ⟨le_rfl, hlt⟩
      · split_ifs at hlater with hknown
        · cases hlater
        · have hle := ih hlater
          exact ⟨by omega, hle.2⟩
    · rw [if_neg hlt] at h
      cases h

theorem lookup_eq_none_of_lt {i : ℕ} (hi : i < entry) :
    (cutPlaces stop n mem entry seenCrc).lookup i = none := by
  rw [List.lookup_eq_none_iff]
  intro q hq
  have hle := (le_of_mem_cutPlaces hq).1
  simpa using (by omega : ¬i = q.1)

/-- The loop ends, and changes the words at which it stands. -/
theorem cutFrontLoop_spec (hstop : stop ≤ mem.length) (hn : stop - entry < n) :
    ∃ mem', cutFrontLoop sub stop n mem entry seenCrc = some mem' ∧ mem'.length = mem.length ∧
      ∀ i, mem'[i]? =
        mem[i]?.map (wordAfter (cutPlaces stop n mem entry seenCrc) sub i) := by
  induction n generalizing entry seenCrc mem with
  | zero => cases hn
  | succ n ih =>
    by_cases hlt : entry < stop
    · have hword : mem[entry]? = some (mem.getD entry 0) := by
        rw [List.getD_eq_getElem _ _ (by omega), List.getElem?_eq_getElem]
      generalize hw : mem.getD entry 0 = w at hword
      rw [cutFrontLoop, if_pos hlt, hword, Option.bind_eq_bind, Option.bind_some, cutPlaces,
        if_pos hlt, hw]
      dsimp only
      rw [extentEntryType_cutWord]
      -- behind the word, the changed memory is as it was
      have hset : ∀ i, (mem.set entry (cutWord sub seenCrc w))[i]? =
          if i = entry then some (cutWord sub seenCrc w) else mem[i]? := by
        intro i
        rw [List.getElem?_set]
        by_cases hi : entry = i
        · rw [if_pos hi, if_pos hi.symm, if_pos (by omega)]
        · rw [if_neg hi, if_neg (Ne.symm hi)]
      by_cases hknown : extentEntryU64sKnown (extentEntryType w) = 0
      · refine ⟨_, if_pos hknown, List.length_set, fun i => ?_⟩
        rw [if_pos hknown, hset]
        by_cases hi : i = entry
        · rw [if_pos hi, hi, hword, Option.map_some, wordAfter, List.lookup_cons_self]
        · have hne : (i == entry) = false := beq_eq_false_iff_ne.mpr hi
          have hsame : wordAfter [(entry, seenCrc)] sub i = id := by
            funext v
            rw [wordAfter, List.lookup_cons, hne]
            rfl
          rw [if_neg hi, hsame, Option.map_id, id]
      · rw [if_neg hknown, if_neg hknown]
        have hplaces : cutPlaces stop n (mem.set entry (cutWord sub seenCrc w))
            (entry + extentEntryU64sKnown (extentEntryType w))
            (seenCrc || extentEntryIsCrc w) =
            cutPlaces stop n mem (entry + extentEntryU64sKnown (extentEntryType w))
              (seenCrc || extentEntryIsCrc w) := by
          refine cutPlaces_congr fun i hi => ?_
          rw [hset, if_neg (by omega)]
        obtain ⟨mem', hrun, hlen, hwords⟩ := @ih (entry + extentEntryU64sKnown (extentEntryType w))
          (mem.set entry (cutWord sub seenCrc w)) (seenCrc || extentEntryIsCrc w)
          (by rwa [List.length_set]) (by omega)
        refine ⟨mem', hrun, hlen.trans List.length_set, fun i => ?_⟩
        rw [hwords i, hplaces, hset]
        by_cases hi : i = entry
        · have hnone : (cutPlaces stop n mem
              (entry + extentEntryU64sKnown (extentEntryType w))
              (seenCrc || extentEntryIsCrc w)).lookup entry = none :=
            lookup_eq_none_of_lt (by omega)
          rw [if_pos hi, hi, hword, Option.map_some, Option.map_some, wordAfter, wordAfter,
            hnone, List.lookup_cons_self]
        · have hne : (i == entry) = false := beq_eq_false_iff_ne.mpr hi
          rw [if_neg hi]
          congr 1
          funext v
          rw [wordAfter, wordAfter, List.lookup_cons, hne]
    · refine ⟨mem, ?_, rfl, fun i => ?_⟩
      · rw [cutFrontLoop, if_neg hlt]
      · have hsame : wordAfter (cutPlaces stop (n + 1) mem entry seenCrc) sub i = id := by
          funext v
          rw [cutPlaces, if_neg hlt]
          rfl
        rw [hsame, Option.map_id, id]

end Loop

/-! ### The field that is moved -/

/-- The field that the loop moves in a word at an offset. -/
def movesAt (places : List (ℕ × Bool)) (i : ℕ) (w : UInt64) : Option (ℕ × ℕ) :=
  match places.lookup i with
  | some seenCrc =>
    if extentEntryType w = extentEntryPtr ∧ seenCrc = true then none
    else cutField (extentEntryType w)
  | none => none

/-- The offset that a pointer or a crc holds: `BCH_EXTENT_PTR_OFFSET`, or the offset of the crc. -/
def fieldAt (w : UInt64) : ℕ :=
  match cutField (extentEntryType w) with
  | some (off, len) => field off len w.toNat
  | none => 0

section Moves

variable {places : List (ℕ × Bool)} {sub i off len : ℕ} {w : UInt64}

theorem cutField_of_movesAt (h : movesAt places i w = some (off, len)) :
    cutField (extentEntryType w) = some (off, len) := by
  rw [movesAt] at h
  split at h
  · split_ifs at h
    exact h
  · cases h

theorem movesAt_of_lookup {seenCrc : Bool} (h : places.lookup i = some seenCrc)
    (hnot : ¬(extentEntryType w = extentEntryPtr ∧ seenCrc = true)) :
    movesAt places i w = cutField (extentEntryType w) := by
  unfold movesAt
  simp only [h, if_neg hnot]

theorem wordAfter_of_some (h : movesAt places i w = some (off, len)) :
    wordAfter places sub i w = addField off len sub w := by
  have hfield := cutField_of_movesAt h
  rw [movesAt] at h
  rw [wordAfter]
  split at h
  · next seenCrc hlookup =>
    split_ifs at h with hseen
    rw [cutWord, hfield]
    dsimp only
    rw [if_neg hseen]
  · cases h

theorem wordAfter_of_none (h : movesAt places i w = none) : wordAfter places sub i w = w := by
  rw [movesAt] at h
  rw [wordAfter]
  cases hlookup : places.lookup i with
  | none => rfl
  | some seenCrc =>
    rw [hlookup] at h
    dsimp only at h ⊢
    rw [cutWord]
    cases hfield : cutField (extentEntryType w) with
    | none => rfl
    | some f =>
      dsimp only
      rw [hfield] at h
      split_ifs at h with hseen
      rw [if_pos hseen]

@[simp] theorem extentEntryType_wordAfter :
    extentEntryType (wordAfter places sub i w) = extentEntryType w := by
  rw [wordAfter]
  split
  · exact extentEntryType_cutWord ..
  · rfl

theorem fieldAt_of_cutField (h : cutField (extentEntryType w) = some (off, len)) :
    fieldAt w = field off len w.toNat := by
  rw [fieldAt, h]

theorem fieldAt_wordAfter_of_some (h : movesAt places i w = some (off, len)) :
    fieldAt (wordAfter places sub i w) = (fieldAt w + sub) % 2 ^ len := by
  have hfield := cutField_of_movesAt h
  have hafter : cutField (extentEntryType (wordAfter places sub i w)) = some (off, len) := by
    rw [extentEntryType_wordAfter, hfield]
  rw [fieldAt_of_cutField hafter, fieldAt_of_cutField hfield, wordAfter_of_some h,
    field_addField (cutField_bounds hfield).2.1]

end Moves

/-! ### Keys with extents -/

/-- A key of type `extent`, or of type `reflink_v` with its refcount, and its entries. -/
structure ExtentValue (k : MemKey) (hd : List UInt64) (es : List Entry) : Prop where
  wf : k.WF
  size_pos : 0 < k.size
  size_lt : k.size < 2 ^ 32
  size_le : k.size ≤ k.p.offset
  head : k.type = keyTypeExtent ∧ hd = [] ∨ k.type = keyTypeReflinkV ∧ hd.length = 1
  val : k.val = hd ++ entryWords es

/-- The entries from an offset on, each with the offset of its first word. -/
def placedEntries : ℕ → List Entry → List (ℕ × Entry)
  | _, [] => []
  | i, e :: es => (i, e) :: placedEntries (i + e.u64s) es

/-- The pointers among the entries from an offset on: where each is, and where the crc is that it
stands under. -/
def ptrPlaces : ℕ → Option ℕ → List Entry → List (ℕ × Option ℕ)
  | _, _, [] => []
  | i, crc, e :: es =>
    if e.isPtr then (i, crc) :: ptrPlaces (i + e.u64s) crc es
    else if e.isCrc then ptrPlaces (i + e.u64s) (some i) es
    else ptrPlaces (i + e.u64s) crc es

namespace MemKey

/-- The word of the value at an offset. -/
def word (k : MemKey) (i : ℕ) : UInt64 := k.mem.getD i 0

/-- Where a pointer has a sector of the key on its device: the offsets of the pointer and of its
crc, and how far the sector is from the start of the key. -/
def deviceSector (k : MemKey) (q : ℕ × Option ℕ) (sector : ℕ) : ℕ :=
  fieldAt (k.word q.1) + (q.2.map fun crc => fieldAt (k.word crc)).getD 0 +
    (sector - k.startPos.offset)

end MemKey

/-- A key of which the sectors from `lo` to `hi` are left: it covers these, nothing but the offsets
of pointers and crcs has changed, and each sector is where it was. -/
structure CutsTo (k : MemKey) (hd : List UInt64) (es : List Entry) (lo hi : ℕ) (k' : MemKey) :
    Prop where
  slot : k'.p.inode = k.p.inode ∧ k'.p.snapshot = k.p.snapshot
  stop : k'.p.offset.val = hi
  size : k'.size = hi - lo
  empty : lo = hi → k'.type = keyTypeDeleted ∧ k'.u64s = bkeyU64s
  kept : lo < hi → k'.type = k.type ∧ k'.u64s = k.u64s
  words : lo < hi → ∀ i < k.valU64s, k'.mem[i]? = k.mem[i]? ∨
    ∃ e off len, (i, e) ∈ placedEntries hd.length es ∧
      cutField (extentEntryType e.head) = some (off, len) ∧ ∃ v < 2 ^ len,
        k'.mem[i]? = some (UInt64.ofBitVec (setField off len v e.head.toBitVec))
  sectors : ∀ q ∈ ptrPlaces hd.length none es, ∀ sector, lo ≤ sector → sector < hi →
    k'.deviceSector q sector = k.deviceSector q sector

/-- A pointer whose sectors move on by `sub` in the loop: either its own offset is counted up and
that of its crc is not, or the other way round. -/
def MovesOnce (k : MemKey) (places : List (ℕ × Bool)) (sub : ℕ) (q : ℕ × Option ℕ) : Prop :=
  (∃ off len, movesAt places q.1 (k.word q.1) = some (off, len) ∧
      fieldAt (k.word q.1) + sub < 2 ^ len ∧
      ∀ crc, q.2 = some crc → ∀ off len, movesAt places crc (k.word crc) = some (off, len) →
        2 ^ len ∣ sub) ∨
    movesAt places q.1 (k.word q.1) = none ∧ ∃ crc off len, q.2 = some crc ∧
      movesAt places crc (k.word crc) = some (off, len) ∧ fieldAt (k.word crc) + sub < 2 ^ len

/-- The places of the loop in the value of a key. -/
def MemKey.cutPlaces (k : MemKey) : List (ℕ × Bool) :=
  Subvol.cutPlaces k.valU64s (k.mem.length + 1) k.mem 0 false

/-- The loop changes nothing but pointers and crcs, and each pointer moves on. -/
structure LoopFits (k : MemKey) (hd : List UInt64) (es : List Entry) (sub : ℕ) : Prop where
  entries : ∀ i < k.valU64s, ∀ off len, movesAt k.cutPlaces i (k.word i) = some (off, len) →
    2 ^ len ∣ sub ∨ ∃ e, (i, e) ∈ placedEntries hd.length es
  pointers : ∀ q ∈ ptrPlaces hd.length none es, MovesOnce k k.cutPlaces sub q

/-! ### The places of entries -/

/-- The first word of an entry stands where its place says. -/
theorem getElem?_of_mem_placed {mem pre post : List UInt64} {es : List Entry} {q : ℕ × Entry}
    (hmem : mem = pre ++ entryWords es ++ post) (h : q ∈ placedEntries pre.length es) :
    mem[q.1]? = some q.2.head ∧ q.1 < pre.length + (entryWords es).length := by
  induction es generalizing pre with
  | nil => cases h
  | cons e es ih =>
    obtain ⟨-, hrest, hword, hstop, hlt⟩ := entryWords_cons_at hmem
    rcases List.mem_cons.mp h with rfl | hlater
    · exact ⟨hword, by omega⟩
    · have hnext : pre.length + e.u64s = (pre ++ e.words).length := by
        rw [List.length_append, e.length_words]
      rw [hnext] at hlater
      rw [hstop]
      exact ih hrest hlater

/-- A pointer is an entry, and so is the crc that it stands under. -/
theorem mem_ptrPlaces {es : List Entry} {i : ℕ} {crc : Option ℕ} {q : ℕ × Option ℕ}
    (h : q ∈ ptrPlaces i crc es) :
    (∃ e, (q.1, e) ∈ placedEntries i es ∧ e.isPtr = true) ∧
      (q.2 = crc ∨ ∃ c e, q.2 = some c ∧ (c, e) ∈ placedEntries i es ∧ e.isCrc = true) := by
  induction es generalizing i crc with
  | nil => cases h
  | cons e es ih =>
    have hlater : ∀ {crc'}, q ∈ ptrPlaces (i + e.u64s) crc' es → (crc' = crc ∨
        crc' = some i ∧ e.isCrc = true) →
        (∃ e', (q.1, e') ∈ placedEntries i (e :: es) ∧ e'.isPtr = true) ∧
          (q.2 = crc ∨ ∃ c e', q.2 = some c ∧ (c, e') ∈ placedEntries i (e :: es) ∧
            e'.isCrc = true) := by
      intro crc' hq hcrc'
      obtain ⟨⟨e', he', hptr⟩, hcrc⟩ := ih hq
      refine ⟨⟨e', List.mem_cons_of_mem _ he', hptr⟩, ?_⟩
      rcases hcrc with hsame | ⟨c, e'', hc, he'', hiscrc⟩
      · rcases hcrc' with rfl | ⟨rfl, hiscrc⟩
        · exact .inl hsame
        · exact .inr ⟨i, e, hsame, List.mem_cons_self, hiscrc⟩
      · exact .inr ⟨c, e'', hc, List.mem_cons_of_mem _ he'', hiscrc⟩
    rw [ptrPlaces] at h
    split_ifs at h with hptr hcrc
    · rcases List.mem_cons.mp h with rfl | hq
      · exact ⟨⟨e, List.mem_cons_self, hptr⟩, .inl rfl⟩
      · exact hlater hq (.inl rfl)
    · exact hlater h (.inr ⟨rfl, hcrc⟩)
    · exact hlater h (.inl rfl)

namespace ExtentValue

variable {k : MemKey} {hd : List UInt64} {es : List Entry}

theorem mem (h : ExtentValue k hd es) :
    k.mem = hd ++ entryWords es ++ k.mem.drop k.valU64s := by
  rw [← h.val]
  exact k.mem_eq

theorem valU64s (h : ExtentValue k hd es) :
    k.valU64s = hd.length + (entryWords es).length := by
  rw [← h.wf.val_length, h.val, List.length_append]

theorem valU64s_le (h : ExtentValue k hd es) : k.valU64s ≤ k.mem.length := by
  rw [h.wf.valU64s_eq]
  exact h.wf.fits

theorem getElem?_word (h : ExtentValue k hd es) {i : ℕ} (hi : i < k.valU64s) :
    k.mem[i]? = some (k.word i) := by
  have hlen := h.valU64s_le
  rw [MemKey.word, List.getD_eq_getElem _ _ (by omega), List.getElem?_eq_getElem]

theorem word_of_placed (h : ExtentValue k hd es) {i : ℕ} {e : Entry}
    (he : (i, e) ∈ placedEntries hd.length es) : k.word i = e.head ∧ i < k.valU64s := by
  obtain ⟨hword, hlt⟩ := getElem?_of_mem_placed h.mem he
  refine ⟨?_, by rwa [h.valU64s]⟩
  rw [MemKey.word, List.getD_eq_getElem?_getD, hword, Option.getD_some]

/-- The word of a pointer holds an offset of 44 bits, that of its crc a shorter one. -/
theorem fields_of_ptr (h : ExtentValue k hd es) {q : ℕ × Option ℕ}
    (hq : q ∈ ptrPlaces hd.length none es) :
    (cutField (extentEntryType (k.word q.1)) = some (4, 44) ∧ q.1 < k.valU64s) ∧
      ∀ crc, q.2 = some crc → crc < k.valU64s ∧
        ∃ off len, cutField (extentEntryType (k.word crc)) = some (off, len) ∧ len ≤ 13 := by
  obtain ⟨⟨e, he, hptr⟩, hcrc⟩ := mem_ptrPlaces hq
  obtain ⟨hword, hlt⟩ := h.word_of_placed he
  have htype : extentEntryType e.head = extentEntryPtr := by
    simpa [Entry.isPtr, extentEntryIsPtr] using hptr
  refine ⟨⟨by rw [hword, htype]; rfl, hlt⟩, fun crc hqcrc => ?_⟩
  rcases hcrc with hnone | ⟨c, e', hc, he', hiscrc⟩
  · rw [hnone] at hqcrc
    cases hqcrc
  · obtain rfl : c = crc := Option.some.inj (hc.symm.trans hqcrc)
    obtain ⟨hword', hlt'⟩ := h.word_of_placed he'
    refine ⟨hlt', ?_⟩
    rw [hword']
    simp only [Entry.isCrc, extentEntryIsCrc, Bool.or_eq_true, beq_iff_eq] at hiscrc
    rcases hiscrc with (h32 | h64) | h128
    · exact ⟨16, 7, by rw [h32]; rfl, by decide⟩
    · exact ⟨21, 9, by rw [h64]; rfl, by decide⟩
    · exact ⟨30, 13, by rw [h128]; rfl, by decide⟩

end ExtentValue

/-! ### The sectors of a pointer -/

section Sectors

variable {k : MemKey} {hd : List UInt64} {es : List Entry} {places : List (ℕ × Bool)} {sub : ℕ}
  {q : ℕ × Option ℕ}

/-- What becomes of the offset in a word. -/
theorem fieldAt_wordAfter_cases (places : List (ℕ × Bool)) (sub i : ℕ) (w : UInt64) :
    movesAt places i w = none ∧ fieldAt (wordAfter places sub i w) = fieldAt w ∨
      ∃ off len, movesAt places i w = some (off, len) ∧ fieldAt w < 2 ^ len ∧
        fieldAt (wordAfter places sub i w) = (fieldAt w + sub) % 2 ^ len := by
  cases hmoves : movesAt places i w with
  | none => exact .inl ⟨rfl, by rw [wordAfter_of_none hmoves]⟩
  | some f =>
    obtain ⟨off, len⟩ := f
    refine .inr ⟨off, len, rfl, ?_, fieldAt_wordAfter_of_some hmoves⟩
    rw [fieldAt_of_cutField (cutField_of_movesAt hmoves)]
    exact field_lt ..

/-- The offsets of a pointer and its crc together grow by what is cut off if one of them does. -/
theorem movesOnce_iff (h : ExtentValue k hd es) (hq : q ∈ ptrPlaces hd.length none es)
    (hpos : 0 < sub) (hlt : sub < 2 ^ 32) :
    fieldAt (wordAfter places sub q.1 (k.word q.1)) +
        (q.2.map fun crc => fieldAt (wordAfter places sub crc (k.word crc))).getD 0 =
      fieldAt (k.word q.1) + (q.2.map fun crc => fieldAt (k.word crc)).getD 0 + sub ↔
    MovesOnce k places sub q := by
  obtain ⟨⟨hptr, -⟩, hcrcs⟩ := h.fields_of_ptr hq
  rcases fieldAt_wordAfter_cases places sub q.1 (k.word q.1) with
    ⟨hnone, hsame⟩ | ⟨off, len, hsome, hfield, hmoved⟩
  · -- the offset of the pointer stays, so that of the crc has to move
    rw [hsame]
    constructor
    · intro hsum
      refine .inr ⟨hnone, ?_⟩
      cases hcrc : q.2 with
      | none =>
        rw [hcrc] at hsum
        simp only [Option.map_none, Option.getD_none] at hsum
        omega
      | some crc =>
        rw [hcrc] at hsum
        simp only [Option.map_some, Option.getD_some] at hsum
        rcases fieldAt_wordAfter_cases places sub crc (k.word crc) with
          ⟨-, hsame'⟩ | ⟨off, len, hsome, -, hmoved⟩
        · omega
        · refine ⟨crc, off, len, rfl, hsome, ?_⟩
          have hmod := Nat.mod_lt (fieldAt (k.word crc) + sub) (Nat.two_pow_pos len)
          omega
    · rintro (⟨off, len, hsome, -⟩ | ⟨-, crc, off, len, hcrc, hsome, hfits⟩)
      · rw [hnone] at hsome
        cases hsome
      · rw [hcrc]
        simp only [Option.map_some, Option.getD_some]
        rw [fieldAt_wordAfter_of_some hsome, Nat.mod_eq_of_lt hfits, Nat.add_assoc]
  · -- the offset of the pointer moves, so it must not wrap around, and that of the crc has to stay
    obtain ⟨rfl, rfl⟩ : off = 4 ∧ len = 44 := by
      have := (cutField_of_movesAt hsome).symm.trans hptr
      simpa using this
    rw [hmoved]
    constructor
    · intro hsum
      refine .inl ⟨4, 44, hsome, ?_, ?_⟩
      · by_contra hwrap
        have hmod : (fieldAt (k.word q.1) + sub) % 2 ^ 44 =
            fieldAt (k.word q.1) + sub - 2 ^ 44 := by omega
        cases hcrc : q.2 with
        | none =>
          rw [hcrc] at hsum
          simp only [Option.map_none, Option.getD_none] at hsum
          omega
        | some crc =>
          obtain ⟨-, off, len, hcrcField, hlen⟩ := hcrcs crc hcrc
          rw [hcrc] at hsum
          simp only [Option.map_some, Option.getD_some] at hsum
          have hbound : fieldAt (wordAfter places sub crc (k.word crc)) < 2 ^ 13 := by
            have hafter : cutField (extentEntryType (wordAfter places sub crc (k.word crc))) =
                some (off, len) := by rw [extentEntryType_wordAfter, hcrcField]
            rw [fieldAt_of_cutField hafter]
            exact (field_lt ..).trans_le (Nat.pow_le_pow_right Nat.two_pos hlen)
          omega
      · intro crc hcrc off len hmoves
        rw [hcrc] at hsum
        simp only [Option.map_some, Option.getD_some] at hsum
        have hcrcField := cutField_of_movesAt hmoves
        have hlt' : fieldAt (k.word crc) < 2 ^ len := by
          rw [fieldAt_of_cutField hcrcField]
          exact field_lt ..
        rw [fieldAt_wordAfter_of_some hmoves] at hsum
        refine (add_mod_eq_self_iff hlt').mp ?_
        obtain ⟨-, off', len', hcrcField', hlen⟩ := hcrcs crc hcrc
        obtain ⟨rfl, rfl⟩ : off' = off ∧ len' = len := by
          have := hcrcField'.symm.trans hcrcField
          simpa using this
        have hbound : (fieldAt (k.word crc) + sub) % 2 ^ len' < 2 ^ 13 :=
          (Nat.mod_lt _ (Nat.two_pow_pos _)).trans_le (Nat.pow_le_pow_right Nat.two_pos hlen)
        omega
    · rintro (⟨off, len, hsome', hfits, hstays⟩ | ⟨hnone, -⟩)
      · obtain ⟨rfl, rfl⟩ : off = 4 ∧ len = 44 := by
          have := hsome'.symm.trans hsome
          simpa using this
        rw [Nat.mod_eq_of_lt hfits]
        cases hcrc : q.2 with
        | none =>
          simp only [Option.map_none, Option.getD_none]
          omega
        | some crc =>
          simp only [Option.map_some, Option.getD_some]
          rcases fieldAt_wordAfter_cases places sub crc (k.word crc) with
            ⟨-, hsame'⟩ | ⟨off, len, hmoves, hlt', hmoved'⟩
          · omega
          · have hself := (add_mod_eq_self_iff hlt').mpr (hstays crc hcrc off len hmoves)
            omega
      · rw [hsome] at hnone
        cases hnone

/-- Cutting nothing off changes nothing. -/
theorem wordAfter_zero (places : List (ℕ × Bool)) (i : ℕ) (w : UInt64) :
    wordAfter places 0 i w = w := by
  cases hmoves : movesAt places i w with
  | none => exact wordAfter_of_none hmoves
  | some f =>
    rw [wordAfter_of_some hmoves,
      addField_eq_self_iff (cutField_bounds (cutField_of_movesAt hmoves)).2.1]
    exact dvd_zero _

end Sectors

end Subvol

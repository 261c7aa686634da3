import Subvol.Value.Crc

/-!
# Decoded pointers

A crc entry goes for all pointers behind it up to the next one, and a stripe pointer for the next
pointer. Model of the walk over the entries of a key in memory that finds the pointers with both,
and the same in terms of a list of entries.

## Main definitions

* `bkeyPtrsDecode`, `bch2BkeyHasDeviceDecode`: the walk in memory.
* `MemKey.HasEntries`: a key whose value is made of entries.
* `decodeEntries`: the pointers of entries.

## Main results

* `bkeyPtrsDecode_eq`: the walk in memory finds the pointers of the entries.
-/

namespace Subvol

open Lib

/-! ### The walk in memory -/

/-- `extent_ptr_decoded`, with the stripe pointer as an option for `has_ec`. -/
structure PtrDecoded where
  crc : CrcUnpacked
  ptr : UInt64
  ec : Option UInt64
deriving DecidableEq, Repr

/-- `BCH_EXTENT_PTR_DEV`. -/
def bchExtentPtrDev (ptr : UInt64) : ℕ := field 48 8 ptr.toNat

/-- `extent_entry_next_safe`. -/
def extentEntryNextSafe (mem : List UInt64) (entry stop : ℕ) : Option ℕ := do
  let w ← mem[entry]?
  if extentEntryType w < extentEntryMax then extentEntryNext mem entry else some stop

/-- The two loops of `bch2_bkey_has_device_decode` over the entries up to `stop`, with the crc and
the stripe pointer that are pending, for all pointers. -/
def ptrsDecode (size : ℕ) (mem : List UInt64) (stop : ℕ) :
    ℕ → ℕ → CrcUnpacked → Option UInt64 → Option (List PtrDecoded)
  | 0, _, _, _ => none
  | n + 1, entry, crc, ec =>
    if entry < stop then do
      let w ← mem[entry]?
      let next ← extentEntryNextSafe mem entry stop
      if extentEntryIsPtr w then do
        let rest ← ptrsDecode size mem stop n next crc none
        some (⟨crc, w, ec⟩ :: rest)
      else if extentEntryIsCrc w then do
        let crc ← bch2ExtentCrcUnpack size mem entry
        ptrsDecode size mem stop n next crc ec
      else if extentEntryIsStripePtr w then ptrsDecode size mem stop n next crc (some w)
      else ptrsDecode size mem stop n next crc ec
    else some []

/-- The pointers that the loops of `bch2_bkey_has_device_decode` come across. -/
def bkeyPtrsDecode (k : MemKey) : Option (List PtrDecoded) :=
  match k.ptrs with
  | none => some []
  | some (start, stop) =>
    ptrsDecode k.size k.mem stop (k.mem.length + 1) start (crcNull k.size) none

/-- `bch2_bkey_has_device_decode`. -/
def bch2BkeyHasDeviceDecode (k : MemKey) (dev : ℕ) : Option (Option PtrDecoded) :=
  (bkeyPtrsDecode k).map fun ptrs => ptrs.find? fun d => bchExtentPtrDev d.ptr == dev

/-! ### Lists of entries -/

namespace Entry

/-- The entry is a pointer. -/
def isPtr (e : Entry) : Bool := extentEntryIsPtr e.head

/-- The entry is a crc. -/
def isCrc (e : Entry) : Bool := extentEntryIsCrc e.head

/-- The entry is a stripe pointer. -/
def isStripePtr (e : Entry) : Bool := extentEntryIsStripePtr e.head

/-- What a crc entry unpacks to in a key of some size. -/
def crc (size : ℕ) (e : Entry) : CrcUnpacked :=
  (bch2ExtentCrcUnpack size e.words 0).getD (crcNull size)

theorem isCrc_of_isPtr {e : Entry} (h : e.isPtr = true) : e.isCrc = false := by
  have htype : extentEntryType e.head = extentEntryPtr := by
    simpa [isPtr, extentEntryIsPtr] using h
  rw [isCrc, extentEntryIsCrc, htype]
  decide

theorem isStripePtr_of_isPtr {e : Entry} (h : e.isPtr = true) : e.isStripePtr = false := by
  have htype : extentEntryType e.head = extentEntryPtr := by
    simpa [isPtr, extentEntryIsPtr] using h
  rw [isStripePtr, extentEntryIsStripePtr, htype]
  decide

theorem isStripePtr_of_isCrc {e : Entry} (h : e.isCrc = true) : e.isStripePtr = false := by
  rw [isCrc, extentEntryIsCrc] at h
  simp only [Bool.or_eq_true, beq_iff_eq] at h
  rw [isStripePtr, extentEntryIsStripePtr]
  rcases h with (h | h) | h
  · rw [h]
    decide
  · rw [h]
    decide
  · rw [h]
    decide

/-- A crc entry unpacks wherever it is in memory. -/
theorem unpack_at {e : Entry} (h : e.isCrc = true) {mem pre post : List UInt64} (size : ℕ)
    (hmem : mem = pre ++ e.words ++ post) :
    bch2ExtentCrcUnpack size mem pre.length = some (e.crc size) := by
  have hget : ∀ i < e.u64s, mem[pre.length + i]? = e.words[i]? := by
    intro i hi
    rw [hmem, List.append_assoc, List.getElem?_append_right (Nat.le_add_right ..),
      Nat.add_sub_cancel_left, List.getElem?_append_left hi]
  have hsome : ∀ i < e.u64s, ∃ w, e.words[i]? = some w :=
    fun i hi => ⟨_, List.getElem?_eq_getElem hi⟩
  have hsized := e.sized
  have hfirst : mem[pre.length]? = some e.head := hget 0 (Nat.succ_pos _)
  have hhead : e.words[0]? = some e.head := rfl
  rw [isCrc, extentEntryIsCrc] at h
  simp only [Bool.or_eq_true, beq_iff_eq] at h
  have hu64s : e.u64s = extentEntryU64sKnown (extentEntryType e.head) := by
    rw [extentEntryU64s] at hsized
    split_ifs at hsized
    exact (Option.some.inj hsized).symm
  rcases h with (h | h) | h
  · simp [crc, bch2ExtentCrcUnpack, hfirst, hhead, h]
  · have htwo : e.u64s = 2 := by rw [hu64s, h]; rfl
    obtain ⟨lo, hlo⟩ := hsome 1 (by omega)
    have hne : extentEntryCrc64 ≠ extentEntryCrc32 := by decide
    simp [crc, bch2ExtentCrcUnpack, hfirst, hhead, h, hne, hget 1 (by omega), hlo]
  · have hthree : e.u64s = 3 := by rw [hu64s, h]; rfl
    obtain ⟨lo, hlo⟩ := hsome 1 (by omega)
    obtain ⟨hi, hhi⟩ := hsome 2 (by omega)
    have hne : extentEntryCrc128 ≠ extentEntryCrc32 := by decide
    have hne' : extentEntryCrc128 ≠ extentEntryCrc64 := by decide
    simp [crc, bch2ExtentCrcUnpack, hfirst, hhead, h, hne, hne', hget 1 (by omega), hlo,
      hget 2 (by omega), hhi]

end Entry

/-- The pointers of entries, with the crc and the stripe pointer that are pending. -/
def decodeEntries (size : ℕ) : CrcUnpacked → Option UInt64 → List Entry → List PtrDecoded
  | _, _, [] => []
  | crc, ec, e :: es =>
    if e.isPtr then ⟨crc, e.head, ec⟩ :: decodeEntries size crc none es
    else if e.isCrc then decodeEntries size (e.crc size) ec es
    else if e.isStripePtr then decodeEntries size crc (some e.head) es
    else decodeEntries size crc ec es

/-- The pointers of the entries of a key of some size. -/
def decodedPtrs (size : ℕ) (es : List Entry) : List PtrDecoded :=
  decodeEntries size (crcNull size) none es

/-- A key whose value is some words and entries behind them, where the walks start. -/
structure MemKey.HasEntries (k : MemKey) (hd : List UInt64) (es : List Entry) : Prop where
  wf : k.WF
  notStripe : k.type ≠ keyTypeStripe
  ptrs : k.ptrs = some (hd.length, k.valU64s)
  val : k.val = hd ++ entryWords es

namespace MemKey.HasEntries

variable {k : MemKey} {hd : List UInt64} {es : List Entry}

theorem valU64s (h : k.HasEntries hd es) : k.valU64s = hd.length + (entryWords es).length := by
  rw [← h.wf.val_length, h.val, List.length_append]

theorem mem (h : k.HasEntries hd es) :
    k.mem = hd ++ entryWords es ++ k.mem.drop k.valU64s := by
  rw [← h.val]
  exact k.mem_eq

/-- Every entry has a word. -/
theorem length_le (es : List Entry) : es.length ≤ (entryWords es).length := by
  induction es with
  | nil => rfl
  | cons e es ih =>
    rw [entryWords_cons, List.length_append, e.length_words, List.length_cons, Entry.u64s]
    omega

theorem length_lt (h : k.HasEntries hd es) : es.length < k.mem.length + 1 := by
  have hlen := length_le es
  have hmem := congrArg List.length h.mem
  simp only [List.length_append] at hmem
  omega

end MemKey.HasEntries

theorem extentEntryNextSafe_at {mem pre post : List UInt64} {e : Entry}
    (h : mem = pre ++ e.words ++ post) (stop : ℕ) :
    extentEntryNextSafe mem pre.length stop = some (pre ++ e.words).length := by
  have hword : mem[pre.length]? = some e.head := by simp [h, Entry.words]
  have hknown : extentEntryType e.head < extentEntryMax := by
    have hsized := e.sized
    rw [extentEntryU64s] at hsized
    split_ifs at hsized with hknown
    exact hknown
  rw [extentEntryNextSafe, hword, Option.bind_eq_bind, Option.bind_some, if_pos hknown,
    extentEntryNext_at h, List.length_append, e.length_words]

/-- The walk in memory from an entry on. -/
theorem ptrsDecode_at (size : ℕ) {mem pre post : List UInt64} {es : List Entry} {n : ℕ}
    (hn : es.length < n) (hmem : mem = pre ++ entryWords es ++ post) (crc : CrcUnpacked)
    (ec : Option UInt64) :
    ptrsDecode size mem (pre.length + (entryWords es).length) n pre.length crc ec =
      some (decodeEntries size crc ec es) := by
  induction es generalizing pre n crc ec with
  | nil =>
    obtain ⟨n, rfl⟩ := Nat.exists_eq_add_of_lt hn
    simp [ptrsDecode, decodeEntries]
  | cons e es ih =>
    obtain ⟨n, rfl⟩ : ∃ n', n = n' + 1 := ⟨n - 1, by omega⟩
    have hlen : es.length < n := by
      rw [List.length_cons] at hn
      omega
    obtain ⟨hat, hrest, hword, hstop, hlt⟩ := entryWords_cons_at hmem
    have hnext := extentEntryNextSafe_at hat ((pre ++ e.words).length + (entryWords es).length)
    have hgo := ih hlen hrest
    rw [hstop, ptrsDecode, if_pos hlt, hword, Option.bind_eq_bind, Option.bind_some, hnext,
      Option.bind_eq_bind, Option.bind_some, decodeEntries]
    change (if e.isPtr = true then _ else if e.isCrc = true then _ else
      if e.isStripePtr = true then _ else _) = _
    by_cases hptr : e.isPtr = true
    · rw [if_pos hptr, if_pos hptr, hgo crc none]
      rfl
    · rw [if_neg hptr, if_neg hptr]
      by_cases hcrc : e.isCrc = true
      · rw [if_pos hcrc, if_pos hcrc, Entry.unpack_at hcrc size hat, Option.bind_eq_bind,
          Option.bind_some, hgo (e.crc size) ec]
      · rw [if_neg hcrc, if_neg hcrc]
        by_cases hec : e.isStripePtr = true
        · rw [if_pos hec, if_pos hec, hgo crc (some e.head)]
        · rw [if_neg hec, if_neg hec, hgo crc ec]

/-- The walk in memory finds the pointers of the entries. -/
theorem bkeyPtrsDecode_eq {k : MemKey} {hd : List UInt64} {es : List Entry}
    (h : k.HasEntries hd es) : bkeyPtrsDecode k = some (decodedPtrs k.size es) := by
  have hwalk := ptrsDecode_at k.size h.length_lt h.mem (crcNull k.size) none
  rw [bkeyPtrsDecode, h.ptrs, h.valU64s]
  exact hwalk

end Subvol

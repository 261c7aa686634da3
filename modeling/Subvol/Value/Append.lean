import Subvol.Value.DropPtr

/-!
# Appending decoded pointers

Model of `bch2_extent_ptr_decoded_append`: the pointer goes behind a crc entry that says the same
as its own, behind a new one if there is none, or to the front if it needs none, and its stripe
pointer goes in front of it.

## Main definitions

* `extentEntryInsert`, `bkeyFindCrc`, `bch2ExtentPtrDecodedAppend`.
* `appendFront`: the entries in front of the new pointer.
* `Appendable`: when appending does not change what is there.

## Main results

* `bch2ExtentPtrDecodedAppend_iff`: the decoded pointers are the old ones and the new one exactly
  then.
-/

namespace Subvol

open Lib

/-! ### The functions -/

/-- `__extent_entry_insert` of words at an offset. -/
def extentEntryInsert (k : MemKey) (dst : ℕ) (new : List UInt64) : Option MemKey := do
  let w ← new.head?
  let u64s ← extentEntryU64s w
  if dst ≤ k.valU64s ∧ k.valU64s + u64s ≤ k.mem.length ∧ u64s ≤ new.length then do
    let moved := copyWords k.mem dst (dst + u64s) (k.valU64s - dst)
    let mem ← writeWords moved dst (new.take u64s)
    some { k with mem := mem, u64s := (k.u64s + u64s) % 2 ^ 8 }
  else none

/-- `bkey_find_crc` from an entry on. -/
def bkeyFindCrc (size : ℕ) (mem : List UInt64) (stop : ℕ) (crc : CrcUnpacked) :
    ℕ → ℕ → Option (Option ℕ)
  | 0, _ => none
  | n + 1, entry =>
    if entry < stop then do
      let w ← mem[entry]?
      let next ← extentEntryNextSafe mem entry stop
      if extentEntryIsCrc w then do
        let found ← bch2ExtentCrcUnpack size mem entry
        if found = crc then some (some entry) else bkeyFindCrc size mem stop crc n next
      else bkeyFindCrc size mem stop crc n next
    else some none

/-- The first part of `bch2_extent_ptr_decoded_append`: a key that has the crc, and the place of
the new pointer. -/
def appendPlace (k : MemKey) (crc : CrcUnpacked) : Option (MemKey × ℕ) := do
  let (start, stop) ← k.ptrs
  if crc = crcNull k.size then some (k, start)
  else do
    match ← bkeyFindCrc k.size k.mem stop crc (k.mem.length + 1) start with
    | some entry => do
      let pos ← extentEntryNext k.mem entry
      some (k, pos)
    | none => do
      let k ← bch2ExtentCrcAppend k crc
      some (k, k.valU64s)

/-- The word of a stripe pointer that `bch2_extent_ptr_decoded_append` writes. -/
def stripePtrWord : UInt64 := UInt64.ofNat (2 ^ extentEntryStripePtr)

/-- `bch2_extent_ptr_decoded_append`. -/
def bch2ExtentPtrDecodedAppend (k : MemKey) (p : PtrDecoded) : Option MemKey := do
  let (k, pos) ← appendPlace k p.crc
  let k ← extentEntryInsert k pos [p.ptr ||| 1]
  match p.ec with
  | none => some k
  | some _ => extentEntryInsert k pos [stripePtrWord]

/-! ### Putting an entry in -/

section Insert

variable {k : MemKey} {hd : List UInt64} {pre post es : List Entry} {e : Entry}

theorem extentEntryInsert_spec (hk : k.WF) {a b : List UInt64} (hval : k.val = a ++ b)
    (hroom : k.valU64s + e.u64s ≤ k.mem.length) (hlt : k.u64s + e.u64s < 2 ^ 8) :
    ∃ k', extentEntryInsert k a.length e.words = some k' ∧ k.Keeps k' ∧ k'.WF ∧
      k'.val = a ++ e.words ++ b ∧ k'.u64s = k.u64s + e.u64s := by
  have hlen : k.valU64s = a.length + b.length := by
    rw [← hk.val_length, hval, List.length_append]
  obtain ⟨r, hr⟩ : ∃ r, k.mem = a ++ b ++ r := ⟨k.mem.drop k.valU64s, by
    rw [← hval]
    exact k.mem_eq⟩
  have hrlen : e.u64s ≤ r.length := by
    have hmem := congrArg List.length hr
    simp only [List.length_append] at hmem
    omega
  have hcount : k.valU64s - a.length = b.length := by omega
  have hmoved : copyWords k.mem a.length (a.length + e.u64s) (k.valU64s - a.length) =
      k.mem.take (a.length + e.u64s) ++ (b ++ k.mem.drop (a.length + e.u64s + b.length)) := by
    rw [hcount, hr, copyWords_up, List.append_assoc]
  have htake : (k.mem.take (a.length + e.u64s)).length = a.length + e.u64s :=
    List.length_take_of_le (by omega)
  have hwrite : writeWords (copyWords k.mem a.length (a.length + e.u64s) (k.valU64s - a.length))
      a.length e.words =
        some (a ++ e.words ++ (b ++ k.mem.drop (a.length + e.u64s + b.length))) := by
    have hfront : (k.mem.take (a.length + e.u64s)).take a.length = a := by
      rw [List.take_take, Nat.min_eq_left (Nat.le_add_right ..), hr, List.append_assoc,
        List.take_left]
    rw [hmoved, writeWords, if_pos (by rw [List.length_append, htake, e.length_words]; omega),
      e.length_words, List.take_append_of_le_length (by omega), hfront,
      List.drop_left' htake]
  have hu64s := hk.u64s_eq
  rw [hk.val_length] at hu64s
  have hnew : k.u64s + e.u64s = bkeyU64s + (a ++ e.words ++ b).length := by
    simp only [List.length_append, e.length_words]
    omega
  let k' : MemKey := { k with
    mem := a ++ e.words ++ (b ++ k.mem.drop (a.length + e.u64s + b.length))
    u64s := k.u64s + e.u64s }
  obtain ⟨hwf, hvalue⟩ := MemKey.wf_of_mem (k := k') (List.append_assoc ..).symm hnew hlt
  refine ⟨k', ?_, ⟨rfl, rfl, rfl, ?_⟩, hwf, hvalue, rfl⟩
  · have hhead : e.words.head? = some e.head := rfl
    have hsized : extentEntryU64s e.head = some e.u64s := e.sized
    have hall : e.words.take e.u64s = e.words := List.take_of_length_le le_rfl
    rw [extentEntryInsert, hhead, Option.bind_eq_bind, Option.bind_some, hsized,
      Option.bind_eq_bind, Option.bind_some, if_pos ⟨by omega, hroom, le_rfl⟩]
    simp only [hall, hwrite, Option.bind_eq_bind, Option.bind_some, Nat.mod_eq_of_lt hlt]
    rfl
  · simp only [k']
    simp only [List.length_append, List.length_drop, e.length_words]
    omega

/-- An entry is put into the list. -/
theorem MemKey.HasEntries.insert (h : k.HasEntries hd (pre ++ post))
    (hroom : k.valU64s + e.u64s ≤ k.mem.length) (hlt : k.u64s + e.u64s < 2 ^ 8) :
    ∃ k', extentEntryInsert k (hd.length + (entryWords pre).length) e.words = some k' ∧
      k'.HasEntries hd (pre ++ e :: post) ∧ k.Keeps k' ∧ k'.u64s = k.u64s + e.u64s := by
  have hval : k.val = (hd ++ entryWords pre) ++ entryWords post := by
    rw [h.val, entryWords_append, List.append_assoc]
  obtain ⟨k', hins, hkeeps, hwf, hval', hu64s⟩ := extentEntryInsert_spec h.wf hval hroom hlt
  rw [List.length_append] at hins
  refine ⟨k', hins, ⟨hwf, ?_, ?_, ?_⟩, hkeeps, hu64s⟩
  · rw [hkeeps.type]
    exact h.notStripe
  · exact ptrs_of_type hkeeps.type h.notStripe h.ptrs
  · rw [hval', entryWords_append, entryWords_cons]
    simp only [List.append_assoc]

/-- The first crc that says the same, or none. -/
theorem bkeyFindCrc_at (size : ℕ) (crc : CrcUnpacked) {mem pre post : List UInt64} {n : ℕ}
    (hn : es.length < n) (hmem : mem = pre ++ entryWords es ++ post) :
    (bkeyFindCrc size mem (pre.length + (entryWords es).length) crc n pre.length = some none ∧
      ∀ e ∈ es, e.isCrc = true → e.crc size ≠ crc) ∨
    ∃ front e back, es = front ++ e :: back ∧ e.isCrc = true ∧ e.crc size = crc ∧
      (∀ e' ∈ front, e'.isCrc = true → e'.crc size ≠ crc) ∧
      bkeyFindCrc size mem (pre.length + (entryWords es).length) crc n pre.length =
        some (some (pre.length + (entryWords front).length)) := by
  induction es generalizing pre n with
  | nil =>
    obtain ⟨n, rfl⟩ : ∃ n', n = n' + 1 := ⟨n - 1, by rw [List.length_nil] at hn; omega⟩
    exact .inl ⟨by simp [bkeyFindCrc], by simp⟩
  | cons e es ih =>
    obtain ⟨n, rfl⟩ : ∃ n', n = n' + 1 := ⟨n - 1, by omega⟩
    obtain ⟨hat, hrest, hword, hstop, hlt⟩ := entryWords_cons_at hmem
    have hcount : es.length < n := Nat.lt_of_succ_lt_succ hn
    have hnext := extentEntryNextSafe_at hat ((pre ++ e.words).length + (entryWords es).length)
    have hfront : ∀ front, (pre ++ e.words).length + (entryWords front).length =
        pre.length + (entryWords (e :: front)).length := by
      intro front
      rw [entryWords_cons, List.length_append, List.length_append, Nat.add_assoc]
    have hgo : ∀ hskip : e.isCrc = true → e.crc size ≠ crc,
        (bkeyFindCrc size mem ((pre ++ e.words).length + (entryWords es).length) crc n
            (pre ++ e.words).length = some none ∧
          ∀ e' ∈ e :: es, e'.isCrc = true → e'.crc size ≠ crc) ∨
        ∃ front e' back, e :: es = front ++ e' :: back ∧ e'.isCrc = true ∧ e'.crc size = crc ∧
          (∀ e' ∈ front, e'.isCrc = true → e'.crc size ≠ crc) ∧
          bkeyFindCrc size mem ((pre ++ e.words).length + (entryWords es).length) crc n
            (pre ++ e.words).length = some (some (pre.length + (entryWords front).length)) := by
      intro hskip
      rcases ih hcount hrest with ⟨hnone, hall⟩ | ⟨front, e', back, rfl, hcrc, hsame, hall, hfind⟩
      · exact .inl ⟨hnone, List.forall_mem_cons.mpr ⟨hskip, hall⟩⟩
      · refine .inr ⟨e :: front, e', back, rfl, hcrc, hsame,
          List.forall_mem_cons.mpr ⟨hskip, hall⟩, ?_⟩
        rw [hfind, hfront]
    rw [hstop, bkeyFindCrc, if_pos hlt, hword, Option.bind_eq_bind, Option.bind_some, hnext,
      Option.bind_eq_bind, Option.bind_some]
    by_cases hcrc : e.isCrc = true
    · have hcrc' : extentEntryIsCrc e.head = true := hcrc
      rw [if_pos hcrc', Entry.unpack_at hcrc size hat, Option.bind_eq_bind, Option.bind_some]
      by_cases hsame : e.crc size = crc
      · rw [if_pos hsame]
        exact .inr ⟨[], e, es, rfl, hcrc, hsame, by simp, by simp⟩
      · rw [if_neg hsame]
        exact hgo fun _ => hsame
    · have hcrc' : ¬extentEntryIsCrc e.head = true := hcrc
      rw [if_neg hcrc']
      exact hgo fun h => absurd h hcrc

end Insert

/-! ### Appending a crc -/

/-- An entry of one of the forms of a crc. -/
theorem entry_of_form {w : UInt64} {tail : List UInt64} {type : ℕ} (hw : extentEntryType w = type)
    (hform : type = extentEntryCrc32 ∨ type = extentEntryCrc64 ∨ type = extentEntryCrc128)
    (hknown : extentEntryU64sKnown type = tail.length + 1) :
    ∃ e : Entry, e.words = w :: tail ∧ extentEntryType e.head = type ∧ e.isCrc = true := by
  have hmax : type < extentEntryMax := by
    rcases hform with rfl | rfl | rfl <;> decide
  have hsized : extentEntryU64s w = some (tail.length + 1) := by
    rw [extentEntryU64s, hw, if_pos hmax, hknown]
  refine ⟨⟨w, tail, hsized⟩, rfl, hw, ?_⟩
  rw [Entry.isCrc, extentEntryIsCrc]
  rcases hform with rfl | rfl | rfl
  · simp [hw]
  · simp [hw]
  · simp [hw]

/-- What is packed is an entry of its form. -/
theorem entry_of_pack {crc : CrcUnpacked} {type : ℕ} {ws : List UInt64}
    (h : bch2ExtentCrcPack crc type = some ws) :
    ∃ e : Entry, e.words = ws ∧ extentEntryType e.head = type ∧ e.isCrc = true := by
  rw [bch2ExtentCrcPack] at h
  split_ifs at h with hzero h32 h64 h128
  · rw [← Option.some.inj h, h32]
    exact entry_of_form (extentEntryType_packFields (by decide) (crc32Fields_fit crc)
      (crc32Fields_apart crc) (by simp)) (.inl rfl) rfl
  · rw [← Option.some.inj h, h64]
    exact entry_of_form (extentEntryType_packFields (by decide) (crc64Fields_fit crc)
      (crc64Fields_apart crc) (by simp)) (.inr (.inl rfl)) rfl
  · rw [← Option.some.inj h, h128]
    exact entry_of_form (extentEntryType_packFields (by decide) (crc128Fields_fit crc)
      (crc128Fields_apart crc) (by simp)) (.inr (.inr rfl)) rfl

/-- What is unpacked fits the form it came from. -/
theorem unpack_fits {size : ℕ} {mem : List UInt64} {entry type : ℕ} {crc : CrcUnpacked}
    (htype : mem[entry]?.map extentEntryType = some type)
    (h : bch2ExtentCrcUnpack size mem entry = some crc) : CrcFits type crc ∧ crc.liveSize = size := by
  obtain ⟨w, hw, rfl⟩ := Option.map_eq_some_iff.mp htype
  have hfield := fun off len => field_lt off len w.toNat
  have h7 := fun off => hfield off 7
  have h9 := fun off => hfield off 9
  have h13 := fun off => hfield off 13
  rw [bch2ExtentCrcUnpack, hw, Option.bind_eq_bind, Option.bind_some] at h
  split_ifs at h with h32 h64 h128
  · rw [← Option.some.inj h, h32]
    refine ⟨⟨.inl rfl, ⟨Nat.succ_pos _, h7 2⟩, ⟨Nat.succ_pos _, h7 9⟩, h7 16, le_rfl, hfield 24 4,
      hfield 28 4, ?_⟩, rfl⟩
    have hlo : (UInt64.ofNat (field 32 32 w.toNat)).toNat = field 32 32 w.toNat :=
      UInt64.toNat_ofNat_of_lt ((hfield 32 32).trans (by decide))
    simp only [hlo, crcCsumBytes_crc32]
    have hlt := hfield 32 32
    change 0 * 2 ^ 64 + _ < _
    omega
  · obtain ⟨lo, hlo, h⟩ := Option.bind_eq_some_iff.mp h
    rw [← Option.some.inj h, h64]
    refine ⟨⟨.inr (.inl rfl), ⟨Nat.succ_pos _, h9 3⟩, ⟨Nat.succ_pos _, h9 12⟩, h9 21,
      Nat.le_sub_one_of_lt (hfield 30 10), hfield 40 4, hfield 44 4, ?_⟩, rfl⟩
    have hhi : (UInt64.ofNat (field 48 16 w.toNat)).toNat = field 48 16 w.toNat :=
      UInt64.toNat_ofNat_of_lt ((hfield 48 16).trans (by decide))
    simp only [hhi, crcCsumBytes_crc64]
    have hlt := hfield 48 16
    have hlo := lo.toNat_lt
    omega
  · obtain ⟨lo, hlo, h⟩ := Option.bind_eq_some_iff.mp h
    obtain ⟨hi, hhi, h⟩ := Option.bind_eq_some_iff.mp h
    rw [← Option.some.inj h, h128]
    refine ⟨⟨.inr (.inr rfl), ⟨Nat.succ_pos _, h13 4⟩, ⟨Nat.succ_pos _, h13 17⟩, h13 30,
      Nat.le_sub_one_of_lt (hfield 43 13), hfield 56 4, hfield 60 4, ?_⟩, rfl⟩
    have hlo := lo.toNat_lt
    have hhi := hi.toNat_lt
    simp only [crcCsumBytes_crc128]
    omega

/-- A crc that a key has room for in a form that reads back. -/
def CrcAppendable (k : MemKey) (crc : CrcUnpacked) : Prop :=
  ∃ bytes type, bchCrcBytes[crc.csumType]? = some bytes ∧ crcEntryType bytes crc = some type ∧
    CrcFits type crc ∧ crc.liveSize = k.size ∧
    k.valU64s + extentEntryU64sKnown type ≤ bkeyExtentValU64sMax

section AppendCrc

variable {k : MemKey} {hd : List UInt64} {es : List Entry} {crc : CrcUnpacked}

/-- What a packed entry reads back is what was packed when the form fits, and only then. -/
theorem crc_of_pack {type size : ℕ} {e : Entry} (hws : bch2ExtentCrcPack crc type = some e.words)
    (htype : extentEntryType e.head = type) (hcrc : e.isCrc = true) :
    e.crc size = crc ↔ CrcFits type crc ∧ crc.liveSize = size := by
  have hread : bch2ExtentCrcUnpack size e.words 0 = some (e.crc size) :=
    @Entry.unpack_at e hcrc e.words [] [] size (by simp)
  have hentry : e.words[0]?.map extentEntryType = some type := congrArg some htype
  constructor
  · intro hsame
    rw [hsame] at hread
    exact unpack_fits hentry hread
  · rintro ⟨hfits, rfl⟩
    have hwrite : writeWords e.words 0 e.words = some e.words := by
      simp [writeWords]
    have hback := (unpack_pack hfits hws hwrite).2
    rw [hread] at hback
    exact Option.some.inj hback

/-- A crc is appended as an entry, unless it has no form or there is no room. -/
theorem MemKey.HasEntries.appendCrc (h : k.HasEntries hd es) (crc : CrcUnpacked)
    (hroom : k.valU64s + 3 ≤ k.mem.length) (hmax : k.valU64s ≤ bkeyExtentValU64sMax) :
    (bch2ExtentCrcAppend k crc = none ∧ ¬CrcAppendable k crc) ∨
    ∃ k₁ e, bch2ExtentCrcAppend k crc = some k₁ ∧ e.isCrc = true ∧ k₁.HasEntries hd (es ++ [e]) ∧
      k.Keeps k₁ ∧ k₁.valU64s = k.valU64s + e.u64s ∧ k₁.u64s = k.u64s + e.u64s ∧
      (e.crc k.size = crc ↔ CrcAppendable k crc) := by
  rw [bch2ExtentCrcAppend, h.ptrs, Option.bind_eq_bind, Option.bind_some]
  simp only [Option.bind_eq_bind]
  cases hbytes : bchCrcBytes[crc.csumType]? with
  | none =>
    refine .inl ⟨rfl, ?_⟩
    rintro ⟨bytes, type, hbytes', -⟩
    rw [hbytes] at hbytes'
    cases hbytes'
  | some bytes =>
    rw [Option.bind_some]
    cases htype : crcEntryType bytes crc with
    | none =>
      refine .inl ⟨rfl, ?_⟩
      rintro ⟨bytes', type, hbytes', htype', -⟩
      obtain rfl := Option.some.inj (hbytes.symm.trans hbytes')
      rw [htype] at htype'
      cases htype'
    | some type =>
      have happ : CrcAppendable k crc ↔ CrcFits type crc ∧ crc.liveSize = k.size ∧
          k.valU64s + extentEntryU64sKnown type ≤ bkeyExtentValU64sMax := by
        constructor
        · rintro ⟨bytes', type', hbytes', htype', hfits⟩
          obtain rfl := Option.some.inj (hbytes.symm.trans hbytes')
          obtain rfl := Option.some.inj (htype.symm.trans htype')
          exact hfits
        · exact fun hfits => ⟨bytes, type, hbytes, htype, hfits⟩
      rw [Option.bind_some]
      cases hws : bch2ExtentCrcPack crc type with
      | none =>
        refine .inl ⟨rfl, fun hfits => ?_⟩
        obtain ⟨hfits, -⟩ := happ.mp hfits
        rw [bch2ExtentCrcPack] at hws
        have hcs := hfits.compressedSize.1
        have hus := hfits.uncompressedSize.1
        rcases hfits.form with rfl | rfl | rfl
        · rw [if_neg (by omega), if_pos rfl] at hws
          cases hws
        · rw [if_neg (by omega), if_neg (by decide), if_pos rfl] at hws
          cases hws
        · rw [if_neg (by omega), if_neg (by decide), if_neg (by decide), if_pos rfl] at hws
          cases hws
      | some ws =>
        obtain ⟨e, rfl, hform, hcrc⟩ := entry_of_pack hws
        have hle := e.u64s_le
        have hknown : e.u64s = extentEntryU64sKnown type := by
          have hsized := e.sized
          rw [extentEntryU64s, hform] at hsized
          split_ifs at hsized
          exact (Option.some.inj hsized).symm
        have hval := h.wf.val_length
        have hu64s := h.wf.u64s_eq
        have hnowrap : (k.u64s + e.u64s) % 2 ^ 8 = k.u64s + e.u64s := by
          rw [bkeyExtentValU64sMax] at hmax
          rw [bkeyU64s] at hu64s
          exact Nat.mod_eq_of_lt (by omega)
        have hlt : k.u64s + e.u64s < 2 ^ 8 := by
          rw [← hnowrap]
          exact Nat.mod_lt _ (by decide)
        let k₁ : MemKey := { k with
          mem := k.val ++ e.words ++ k.mem.drop (k.valU64s + e.u64s)
          u64s := k.u64s + e.u64s }
        have hwrite : writeWords k.mem k.valU64s e.words = some k₁.mem := by
          rw [writeWords, e.length_words, if_pos (by omega)]
          rfl
        have hhead : k₁.mem[k.valU64s]? = some e.head := by
          rw [← hval]
          simp [k₁, Entry.words]
        have hnew : k₁.u64s = bkeyU64s + (k.val ++ e.words).length := by
          rw [List.length_append, e.length_words]
          simp only [k₁]
          omega
        obtain ⟨hwf, hvalue⟩ := MemKey.wf_of_mem (k := k₁) rfl hnew hlt
        have hval₁ : k₁.valU64s = k.valU64s + e.u64s := by
          rw [← hwf.val_length, hvalue, List.length_append, e.length_words, hval]
        have hsized : extentEntryU64s e.head = some e.u64s := e.sized
        rw [Option.bind_some, hwrite, Option.bind_some, hhead, Option.bind_some, hsized,
          Option.bind_some, hnowrap]
        by_cases hfull : k₁.valU64s ≤ bkeyExtentValU64sMax
        · refine .inr ⟨k₁, e, if_pos hfull, hcrc, ⟨hwf, h.notStripe, ?_, ?_⟩, ⟨rfl, rfl, rfl, ?_⟩,
            hval₁, rfl, ?_⟩
          · have htype : k₁.type = k.type := rfl
            exact ptrs_of_type htype h.notStripe h.ptrs
          · rw [hvalue, h.val, entryWords_append, entryWords_cons, entryWords_nil, List.append_nil,
              List.append_assoc]
          · simp only [k₁, List.length_append, List.length_drop, e.length_words, hval]
            omega
          · rw [crc_of_pack hws hform hcrc, happ]
            rw [hval₁, hknown] at hfull
            exact ⟨fun hfits => ⟨hfits.1, hfits.2, hfull⟩, fun hfits => ⟨hfits.1, hfits.2.1⟩⟩
        · refine .inl ⟨if_neg hfull, fun hfits => hfull ?_⟩
          rw [hval₁, hknown]
          exact (happ.mp hfits).2.2

end AppendCrc

/-! ### The new pointer -/

/-- The entries up to the first crc that says the same, all of them if there is none. -/
def frontOfCrc (size : ℕ) (crc : CrcUnpacked) : List Entry → List Entry
  | [] => []
  | e :: es => if e.isCrc && e.crc size = crc then [e] else e :: frontOfCrc size crc es

/-- The entries that the new pointer goes behind. -/
def appendFront (size : ℕ) (crc : CrcUnpacked) (es : List Entry) : List Entry :=
  if crc = crcNull size then [] else frontOfCrc size crc es

/-- Whether a stripe pointer or the end comes before the next pointer. -/
def stripeNotNeeded : List Entry → Bool
  | [] => true
  | e :: es => if e.isStripePtr then true else if e.isPtr then false else stripeNotNeeded es

/-- The stripe pointer that is pending in front of the new pointer. -/
def pendingStripe (size : ℕ) (crc : CrcUnpacked) (es : List Entry) : Option UInt64 :=
  (pendingAfter size (crcNull size) none (appendFront size crc es)).2

/-- The crc of a pointer is there or can be appended. -/
def CrcReady (k : MemKey) (es : List Entry) (crc : CrcUnpacked) : Prop :=
  crc = crcNull k.size ∨ (∃ e ∈ es, e.isCrc = true ∧ e.crc k.size = crc) ∨ CrcAppendable k crc

/-- When a pointer can be appended: the word of its stripe pointer has nothing but its type, its
crc is there or can be appended, and no stripe pointer is pending that another pointer needs, or
that the new one would take for its own. -/
structure Appendable (k : MemKey) (es : List Entry) (p : PtrDecoded) : Prop where
  ec : p.ec = none ∨ p.ec = some stripePtrWord
  crc : CrcReady k es p.crc
  pending : pendingStripe k.size p.crc es = none ∨
    (p.ec.isSome = true ∧
      stripeNotNeeded (es.drop (appendFront k.size p.crc es).length) = true)

theorem insertIdx_length {α : Type*} (l l' : List α) (a : α) :
    (l ++ l').insertIdx l.length a = l ++ a :: l' := by
  induction l with
  | nil => rfl
  | cons b l ih => rw [List.cons_append, List.length_cons, List.insertIdx_succ_cons, ih]; rfl

theorem or_one_of_isPtr {w : UInt64} (h : extentEntryIsPtr w = true) : w ||| 1 = w := by
  have hbit : w.toNat.testBit 0 = true := by
    have hsized : extentEntryU64s w = some 1 := by
      have htype : extentEntryType w = extentEntryPtr := by simpa [extentEntryIsPtr] using h
      rw [extentEntryU64s, htype]
      rfl
    exact testBit_of_isPtr (e := ⟨w, [], hsized⟩) h
  apply UInt64.toNat_inj.mp
  rw [UInt64.toNat_or]
  refine Nat.eq_of_testBit_eq fun i => ?_
  rw [Nat.testBit_or]
  cases i with
  | zero => simp [hbit]
  | succ i =>
    have hone : (1 : UInt64).toNat.testBit (i + 1) = false := Nat.testBit_lt_two_pow (by
      change 1 < _
      exact Nat.one_lt_two_pow (Nat.succ_ne_zero i))
    rw [hone, Bool.or_false]

section Append

variable {k : MemKey} {hd : List UInt64} {es front back : List Entry} {p : PtrDecoded}

/-- The stripe pointer of a new pointer. -/
def stripeEntries (p : PtrDecoded) : List Entry :=
  match p.ec with
  | none => []
  | some _ => [stripePtrEntry]

/-- The pointer and its stripe pointer are put in behind some entries. -/
theorem insertPtr_at (h : k.HasEntries hd (front ++ back)) {ptr : Entry}
    (hptr : ptr.words = [p.ptr ||| 1]) (hroom : k.valU64s + 2 ≤ k.mem.length)
    (hlt : k.u64s + 2 < 2 ^ 8) :
    ∃ k', (do
        let k ← extentEntryInsert k (hd.length + (entryWords front).length) [p.ptr ||| 1]
        match p.ec with
        | none => some k
        | some _ =>
          extentEntryInsert k (hd.length + (entryWords front).length) [stripePtrWord]) = some k' ∧
      k'.HasEntries hd (front ++ stripeEntries p ++ ptr :: back) ∧ k.Keeps k' := by
  have hone : ptr.u64s = 1 := by
    rw [← ptr.length_words, hptr]
    rfl
  obtain ⟨k₁, hins, h₁, hkeeps, hu64s⟩ := h.insert (e := ptr) (by omega) (by omega)
  rw [hptr] at hins
  rw [Option.bind_eq_bind, hins, Option.bind_some]
  cases hec : p.ec with
  | none =>
    refine ⟨k₁, rfl, ?_, hkeeps⟩
    rw [stripeEntries, hec, List.append_nil]
    exact h₁
  | some w =>
    have hstripe : stripePtrEntry.words = [stripePtrWord] := by decide
    have hsize : stripePtrEntry.u64s = 1 := by decide
    have hval₁ : k₁.valU64s = k.valU64s + 1 := by
      rw [h₁.wf.valU64s_eq, h.wf.valU64s_eq, hu64s, hone]
      have hle := h.wf.le
      omega
    have hroom₁ := hkeeps.room
    obtain ⟨k', hins', h', hkeeps', -⟩ := h₁.insert (e := stripePtrEntry) (by omega) (by omega)
    rw [hstripe] at hins'
    refine ⟨k', hins', ?_, hkeeps.trans hkeeps'⟩
    rw [stripeEntries, hec, List.append_assoc]
    exact h'

/-- The pending stripe pointer matters to a pointer that no other one comes before. -/
theorem decodeEntries_pending_iff (size : ℕ) (crc : CrcUnpacked) (ec : Option UInt64)
    (es : List Entry) : decodeEntries size crc none es = decodeEntries size crc ec es ↔
      ec = none ∨ stripeNotNeeded es = true := by
  induction es generalizing crc with
  | nil => simp [decodeEntries, stripeNotNeeded]
  | cons e es ih =>
    rw [decodeEntries, decodeEntries, stripeNotNeeded]
    by_cases hptr : e.isPtr = true
    · have hec : ¬e.isStripePtr = true := by simp [Entry.isStripePtr_of_isPtr hptr]
      rw [if_pos hptr, if_pos hptr, if_neg hec, if_pos hptr]
      simp [eq_comm]
    · rw [if_neg hptr, if_neg hptr]
      by_cases hcrc : e.isCrc = true
      · have hec : ¬e.isStripePtr = true := by simp [Entry.isStripePtr_of_isCrc hcrc]
        rw [if_pos hcrc, if_pos hcrc, if_neg hec, if_neg hptr]
        exact ih _
      · rw [if_neg hcrc, if_neg hcrc]
        by_cases hec : e.isStripePtr = true
        · rw [if_pos hec, if_pos hec, if_pos hec]
          simp
        · rw [if_neg hec, if_neg hec, if_neg hec, if_neg hptr]
          exact ih _

/-- The decoded pointers with a new one behind some entries. -/
theorem decodedPtrs_insert_iff (size : ℕ) {ptr : Entry} (hptr : ptr.isPtr = true)
    (hhead : ptr.head = p.ptr) (front back : List Entry) :
    decodedPtrs size (front ++ stripeEntries p ++ ptr :: back) =
        (decodedPtrs size (front ++ back)).insertIdx (ptrCount front) p ↔
      (pendingAfter size (crcNull size) none front).1 = p.crc ∧
        (p.ec = none ∨ p.ec = some stripePtrWord) ∧
        ((pendingAfter size (crcNull size) none front).2 = none ∨
          (p.ec.isSome = true ∧ stripeNotNeeded back = true)) := by
  obtain ⟨pcrc, pptr, pec⟩ := p
  simp only at hhead
  have hold : (decodedPtrs size (front ++ back)).insertIdx (ptrCount front) ⟨pcrc, pptr, pec⟩ =
      decodeEntries size (crcNull size) none front ++ ⟨pcrc, pptr, pec⟩ ::
        decodeEntries size (pendingAfter size (crcNull size) none front).1
          (pendingAfter size (crcNull size) none front).2 back := by
    rw [decodedPtrs, decodeEntries_append,
      ← length_decodeEntries size (crcNull size) none front, insertIdx_length]
  rw [hold, decodedPtrs, List.append_assoc, decodeEntries_append, List.append_cancel_left_eq]
  generalize pendingAfter size (crcNull size) none front = pending
  cases pec with
  | none =>
    simp only [stripeEntries, List.nil_append, decodeEntries, hptr, if_true, List.cons.injEq,
      PtrDecoded.mk.injEq, hhead, true_and, decodeEntries_pending_iff, Option.isSome_none,
      Bool.false_eq_true, false_and, or_false, true_or]
    exact ⟨fun hall => ⟨hall.1.1, hall.1.2⟩, fun hall => ⟨⟨hall.1, hall.2⟩, .inl hall.2⟩⟩
  | some w =>
    have hstripe : stripePtrEntry.isPtr = false ∧ stripePtrEntry.isCrc = false ∧
        stripePtrEntry.isStripePtr = true := by decide
    have hword : stripePtrEntry.head = stripePtrWord := by decide
    simp only [stripeEntries, List.cons_append, List.nil_append, decodeEntries, hstripe.1,
      hstripe.2.1, hstripe.2.2, Bool.false_eq_true, if_false, if_true, hptr, hword,
      List.cons.injEq, PtrDecoded.mk.injEq, hhead, true_and, decodeEntries_pending_iff,
      Option.isSome_some, reduceCtorEq, false_or, Option.some.injEq, eq_comm (a := stripePtrWord)]
    exact and_assoc

/-- Entries that no crc of says the same are all in front. -/
theorem frontOfCrc_none {size : ℕ} {crc : CrcUnpacked} {es : List Entry}
    (h : ∀ e ∈ es, e.isCrc = true → e.crc size ≠ crc) : frontOfCrc size crc es = es := by
  induction es with
  | nil => rfl
  | cons e es ih =>
    obtain ⟨he, hes⟩ := List.forall_mem_cons.mp h
    have hno : ¬(e.isCrc && decide (e.crc size = crc)) = true := by simpa using he
    rw [frontOfCrc, if_neg hno, ih hes]

theorem frontOfCrc_some {size : ℕ} {crc : CrcUnpacked} {front back : List Entry} {e : Entry}
    (h : ∀ e ∈ front, e.isCrc = true → e.crc size ≠ crc) (hcrc : e.isCrc = true)
    (hsame : e.crc size = crc) : frontOfCrc size crc (front ++ e :: back) = front ++ [e] := by
  induction front with
  | nil =>
    have hyes : (e.isCrc && decide (e.crc size = crc)) = true := by simp [hcrc, hsame]
    rw [List.nil_append, frontOfCrc, if_pos hyes, List.nil_append]
  | cons x front ih =>
    obtain ⟨hx, hfront⟩ := List.forall_mem_cons.mp h
    have hno : ¬(x.isCrc && decide (x.crc size = crc)) = true := by simpa using hx
    rw [List.cons_append, frontOfCrc, if_neg hno, ih hfront, List.cons_append]

/-- The place of a new pointer: some entries in front of it have its crc pending, if that is
ready. -/
structure Place (k : MemKey) (hd : List UInt64) (es : List Entry) (crc : CrcUnpacked)
    (k₁ : MemKey) (front back : List Entry) : Prop where
  entries : k₁.HasEntries hd (front ++ back)
  keeps : k.Keeps k₁
  room : k₁.valU64s + 2 ≤ k₁.mem.length
  lt : k₁.u64s + 2 < 2 ^ 8
  decoded : decodedPtrs k.size (front ++ back) = decodedPtrs k.size es
  count : ptrCount front = ptrCount (appendFront k.size crc es)
  stripe : (pendingAfter k.size (crcNull k.size) none front).2 = pendingStripe k.size crc es
  back : back = es.drop (appendFront k.size crc es).length
  crc : (pendingAfter k.size (crcNull k.size) none front).1 = crc ↔ CrcReady k es crc

theorem appendPlace_cases (h : k.HasEntries hd es) (crc : CrcUnpacked)
    (hroom : k.valU64s + 5 ≤ k.mem.length) (hmax : k.valU64s ≤ bkeyExtentValU64sMax) :
    (appendPlace k crc = none ∧ ¬CrcReady k es crc) ∨
    ∃ k₁ front back, appendPlace k crc = some (k₁, hd.length + (entryWords front).length) ∧
      Place k hd es crc k₁ front back := by
  have hu64s := h.wf.u64s_eq
  rw [h.wf.val_length] at hu64s
  have hlt : k.u64s + 5 < 2 ^ 8 := by
    rw [bkeyExtentValU64sMax] at hmax
    rw [bkeyU64s] at hu64s
    omega
  rw [appendPlace, h.ptrs, Option.bind_eq_bind, Option.bind_some]
  by_cases hnull : crc = crcNull k.size
  · have hfront : appendFront k.size crc es = [] := if_pos hnull
    refine .inr ⟨k, [], es, if_pos hnull, h, .refl k, by omega, by omega, rfl, ?_, ?_, ?_, ?_⟩
    · rw [hfront]
    · rw [pendingStripe, hfront]
    · rw [hfront]
      rfl
    · exact ⟨fun hcrc => .inl hcrc.symm, fun _ => hnull.symm⟩
  · have hfront : appendFront k.size crc es = frontOfCrc k.size crc es := if_neg hnull
    simp only [if_neg hnull, h.valU64s]
    rcases bkeyFindCrc_at k.size crc h.length_lt h.mem with
      ⟨hnone, hall⟩ | ⟨front, e, back, rfl, hcrc, hsame, hall, hfind⟩
    · -- no crc says the same
      have hready : CrcReady k es crc ↔ CrcAppendable k crc := by
        constructor
        · rintro (heq | ⟨e, he, hcrc, hsame⟩ | happ)
          · exact absurd heq hnull
          · exact absurd hsame (hall e he hcrc)
          · exact happ
        · exact fun happ => .inr (.inr happ)
      simp only [hnone, Option.bind_eq_bind, Option.bind_some]
      rcases h.appendCrc crc (by omega) hmax with
        ⟨hfail, hno⟩ | ⟨k₁, e, happ, hcrc, h₁, hkeeps, hval₁, hu64s₁, hiff⟩
      · exact .inl ⟨by rw [hfail]; rfl, fun hr => hno (hready.mp hr)⟩
      · have hle := e.u64s_le
        have hroom₁ := hkeeps.room
        have hptr : ¬e.isPtr = true := fun hptr => by
          rw [Entry.isCrc_of_isPtr hptr] at hcrc
          cases hcrc
        have hcount : ptrCount (es ++ [e]) = ptrCount es := by simp [ptrCount, hptr]
        refine .inr ⟨k₁, es ++ [e], [], ?_, by rw [List.append_nil]; exact h₁, hkeeps, by omega,
          by omega, ?_, ?_, ?_, ?_, ?_⟩
        · rw [happ, Option.bind_some, h₁.valU64s]
        · rw [List.append_nil, decodedPtrs, decodeEntries_append, decodeEntries, if_neg hptr,
            if_pos hcrc, decodeEntries, List.append_nil]
          rfl
        · rw [hfront, frontOfCrc_none hall, hcount]
        · rw [pendingStripe, hfront, frontOfCrc_none hall, pendingAfter_append, pendingAfter,
            if_neg hptr, if_pos hcrc]
          rfl
        · rw [hfront, frontOfCrc_none hall, List.drop_length]
        · rw [hready, ← hiff, pendingAfter_append, pendingAfter, if_neg hptr, if_pos hcrc]
          rfl
    · have hptr : ¬e.isPtr = true := fun hptr => by
        rw [Entry.isCrc_of_isPtr hptr] at hcrc
        cases hcrc
      have hsplit : front ++ e :: back = (front ++ [e]) ++ back := by simp
      have hwords : (entryWords (front ++ [e])).length =
          (entryWords front).length + e.u64s := by
        rw [entryWords_append, entryWords_cons, entryWords_nil, List.append_nil,
          List.length_append, e.length_words]
      have hat : k.mem = (hd ++ entryWords front) ++ e.words ++
          (entryWords back ++ k.mem.drop k.valU64s) := by
        nth_rewrite 1 [h.mem]
        rw [entryWords_append, entryWords_cons]
        simp only [List.append_assoc]
      have hnext := extentEntryNext_at hat
      rw [List.length_append] at hnext
      refine .inr ⟨k, front ++ [e], back, ?_, by rw [← hsplit]; exact h, .refl k, by omega,
        by omega, by rw [← hsplit], ?_, ?_, ?_, ?_⟩
      · simp only [hfind, Option.bind_eq_bind, Option.bind_some, hnext, hwords, Nat.add_assoc]
      · rw [hfront, frontOfCrc_some hall hcrc hsame]
      · rw [pendingStripe, hfront, frontOfCrc_some hall hcrc hsame]
      · rw [hfront, frontOfCrc_some hall hcrc hsame, hsplit, List.drop_left]
      · rw [pendingAfter_append, pendingAfter, if_neg hptr, if_pos hcrc]
        exact ⟨fun _ => .inr (.inl ⟨e, by simp, hcrc, hsame⟩), fun _ => hsame⟩

/-- Appending a decoded pointer gives the old decoded pointers with the new one behind those in
front of its place, exactly when it is appendable. -/
theorem bch2ExtentPtrDecodedAppend_iff (h : k.HasEntries hd es)
    (hroom : k.valU64s + 5 ≤ k.mem.length) (hmax : k.valU64s ≤ bkeyExtentValU64sMax)
    (hptr : extentEntryIsPtr p.ptr = true) :
    (∃ k' old, bkeyPtrsDecode k = some old ∧ bch2ExtentPtrDecodedAppend k p = some k' ∧
      bkeyPtrsDecode k' =
        some (old.insertIdx (ptrCount (appendFront k.size p.crc es)) p)) ↔
      Appendable k es p := by
  have hsized : extentEntryU64s p.ptr = some 1 := by
    have htype : extentEntryType p.ptr = extentEntryPtr := by simpa [extentEntryIsPtr] using hptr
    rw [extentEntryU64s, htype]
    rfl
  let ptr : Entry := ⟨p.ptr, [], hsized⟩
  have hwords : ptr.words = [p.ptr ||| 1] := by
    rw [or_one_of_isPtr hptr]
    rfl
  rcases appendPlace_cases h p.crc hroom hmax with
    ⟨hnone, hno⟩ | ⟨k₁, front, back, hplace, hp⟩
  · constructor
    · rintro ⟨k', old, -, happ, -⟩
      rw [bch2ExtentPtrDecodedAppend, hnone] at happ
      cases happ
    · exact fun happ => absurd happ.crc hno
  · obtain ⟨k', hrun, h', hkeeps'⟩ := insertPtr_at hp.entries hwords hp.room hp.lt
    have happ : bch2ExtentPtrDecodedAppend k p = some k' := by
      rw [bch2ExtentPtrDecodedAppend, hplace, Option.bind_eq_bind, Option.bind_some]
      exact hrun
    have hnew : bkeyPtrsDecode k' =
        some (decodedPtrs k.size (front ++ stripeEntries p ++ ptr :: back)) := by
      rw [bkeyPtrsDecode_eq h', hkeeps'.size, hp.keeps.size]
    have hiff := @decodedPtrs_insert_iff p k.size ptr hptr rfl front back
    rw [hp.decoded, hp.count, hp.crc, hp.stripe, hp.back] at hiff
    constructor
    · rintro ⟨k'', old, hold, happ', hdec⟩
      obtain rfl := Option.some.inj (happ.symm.trans happ')
      obtain rfl := Option.some.inj ((bkeyPtrsDecode_eq h).symm.trans hold)
      rw [hnew, hp.back, Option.some.injEq, hiff] at hdec
      exact ⟨hdec.2.1, hdec.1, hdec.2.2⟩
    · intro hok
      refine ⟨k', _, bkeyPtrsDecode_eq h, happ, ?_⟩
      rw [hnew, hp.back, Option.some.injEq, hiff]
      exact ⟨hok.crc, hok.ec, hok.pending⟩

end Append

/-- An extent without entries that has room for five words. -/
def roomyExtent : MemKey := { emptyExtent with mem := [0, 0, 0, 0, 0] }

theorem roomyExtent_hasEntries : roomyExtent.HasEntries [] [] :=
  ⟨⟨by decide, by decide, by decide⟩, by decide, by decide, by decide⟩

/-- A pointer with the second block of a stripe. -/
def blockPtr : PtrDecoded := ⟨crcNull 8, 1, some (2 ^ 4 + 2 ^ 5)⟩

/-- The block of the stripe is lost. -/
theorem bch2ExtentPtrDecodedAppend_blockPtr : roomyExtent.HasEntries [] [] ∧
    ¬∃ k' old, bkeyPtrsDecode roomyExtent = some old ∧
      bch2ExtentPtrDecodedAppend roomyExtent blockPtr = some k' ∧
      bkeyPtrsDecode k' =
        some (old.insertIdx (ptrCount (appendFront roomyExtent.size blockPtr.crc [])) blockPtr) := by
  refine ⟨roomyExtent_hasEntries, ?_⟩
  rintro ⟨k', old, hold, happ, hdec⟩
  have hempty : bkeyPtrsDecode roomyExtent = some [] := by decide
  have hrun : bch2ExtentPtrDecodedAppend roomyExtent blockPtr =
      some { roomyExtent with mem := [2 ^ 4, 1, 0, 0, 0], u64s := 7 } := by decide
  obtain rfl := Option.some.inj (hempty.symm.trans hold)
  obtain rfl := Option.some.inj (hrun.symm.trans happ)
  revert hdec
  decide

/-- A pointer without a stripe. -/
theorem bch2ExtentPtrDecodedAppend_plainPtr :
    ∃ k' old, bkeyPtrsDecode roomyExtent = some old ∧
      bch2ExtentPtrDecodedAppend roomyExtent ⟨crcNull 8, 1, none⟩ = some k' ∧
      bkeyPtrsDecode k' = some (old.insertIdx 0 ⟨crcNull 8, 1, none⟩) :=
  (bch2ExtentPtrDecodedAppend_iff (p := ⟨crcNull 8, 1, none⟩) roomyExtent_hasEntries (by decide)
    (by decide) (by decide)).mpr ⟨.inl rfl, .inl rfl, .inl rfl⟩

end Subvol

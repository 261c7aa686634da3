import Subvol.Value.Decode

/-!
# Dropping pointers

Model of `bch2_bkey_drop_ptr_noerror`, which takes a pointer out of a value together with its
stripe pointer and with the crcs that no pointer is left for, and of the loops that drop the
pointers of a mask or of a device.

## Main definitions

* `extentEntryPrev`, `bch2BkeyDropPtrNoerror`, `bch2BkeyDropPtrsMask`,
  `bch2BkeyDropDeviceNoerror`.
* `dropPtrEntries`: dropping a pointer from a list of entries.
* `keepUnmasked`: a list without the places of a mask.

## Main results

* `bch2BkeyDropPtrNoerror_spec`, `bch2BkeyDropPtrsMask_spec`, `bch2BkeyDropDeviceNoerror_spec`.
* `bch2BkeyDropPtrs_decoded`: what is left are the other decoded pointers.
-/

namespace Subvol

open Lib

/-! ### The functions -/

/-- The loop of `extent_entry_prev`: go on from `i` up to the entry in front of `entry`. -/
def prevWalk (mem : List UInt64) (entry : ℕ) : ℕ → ℕ → Option ℕ
  | 0, _ => none
  | n + 1, i => do
    let next ← extentEntryNext mem i
    if next ≠ entry then prevWalk mem entry n next else some i

/-- `extent_entry_prev`: the entry in front of the one at an offset, null for the first one. -/
def extentEntryPrev (mem : List UInt64) (start entry : ℕ) : Option (Option ℕ) :=
  if start = entry then some none
  else (prevWalk mem entry (mem.length + 1) start).map some

/-- The first loop of `bch2_bkey_drop_ptr_noerror`: whether a crc or the end comes before the next
pointer. -/
def dropCrcScan (mem : List UInt64) (stop : ℕ) : ℕ → ℕ → Option Bool
  | 0, _ => none
  | n + 1, next =>
    if next = stop then some true
    else do
      let w ← mem[next]?
      if extentEntryIsCrc w then some true
      else if extentEntryIsPtr w then some false
      else do
        let next ← extentEntryNext mem next
        dropCrcScan mem stop n next

/-- The second loop: back to the pointer before, dropping what is not needed any more. -/
def dropBack (start : ℕ) (dropCrc : Bool) : ℕ → MemKey → Option ℕ → Option MemKey
  | _, k, none => some k
  | 0, _, some _ => none
  | n + 1, k, some entry => do
    let w ← k.mem[entry]?
    if extentEntryIsPtr w then some k
    else do
      let k ← if extentEntryIsCrc w && dropCrc || extentEntryIsStripePtr w then
          extentEntryDrop k entry
        else some k
      let prev ← extentEntryPrev k.mem start entry
      dropBack start dropCrc n k prev

/-- `BCH_SB_MEMBER_INVALID`. -/
def bchSbMemberInvalid : ℕ := 255

/-- `SET_BCH_EXTENT_PTR_DEV`. -/
def setBchExtentPtrDev (ptr : UInt64) (dev : ℕ) : UInt64 :=
  UInt64.ofBitVec (setField 48 8 (dev % 2 ^ 8) ptr.toBitVec)

/-- `bch2_bkey_drop_ptr_noerror` of the pointer at an offset. -/
def bch2BkeyDropPtrNoerror (k : MemKey) (ptr : ℕ) : Option MemKey := do
  let w ← k.mem[ptr]?
  if k.type = keyTypeStripe then
    some { k with mem := k.mem.set ptr (setBchExtentPtrDev w bchSbMemberInvalid) }
  else do
    let (start, stop) ← k.ptrs
    if start ≤ ptr ∧ ptr < stop ∧ w.toNat.testBit 0 then do
      let next ← extentEntryNext k.mem ptr
      let dropCrc ← dropCrcScan k.mem stop (k.mem.length + 1) next
      let k ← extentEntryDrop k ptr
      let prev ← extentEntryPrev k.mem start ptr
      dropBack start dropCrc (k.mem.length + 1) k prev
    else none

/-- The inner loop of `bch2_bkey_drop_ptrs_mask`: the pointer of an index. -/
def findPtrIndex (mem : List UInt64) (stop drop : ℕ) : ℕ → ℕ → ℕ → Option (Option ℕ)
  | 0, _, _ => none
  | n + 1, index, entry =>
    if entry < stop then do
      let w ← mem[entry]?
      let next ← extentEntryNextSafe mem entry stop
      if extentEntryIsPtr w then
        if index = drop then some (some entry) else findPtrIndex mem stop drop n (index + 1) next
      else findPtrIndex mem stop drop n index next
    else some none

/-- One turn of `bch2_bkey_drop_ptrs_mask`: drop the pointer of an index, if there is one. -/
def dropPtrIndex (k : MemKey) (drop : ℕ) : Option MemKey :=
  match k.ptrs with
  | none => some k
  | some (start, stop) => do
    match ← findPtrIndex k.mem stop drop (k.mem.length + 1) 0 start with
    | none => some k
    | some ptr => bch2BkeyDropPtrNoerror k ptr

/-- `bch2_bkey_drop_ptrs_mask`, from the highest bit of the mask down. A mask of 32 bits is empty
after as many turns. -/
def dropPtrsMask : ℕ → MemKey → ℕ → Option MemKey
  | n, k, ptrs =>
    if ptrs = 0 then some k
    else match n with
      | 0 => none
      | n + 1 => do
        let k ← dropPtrIndex k ptrs.log2
        dropPtrsMask n k (ptrs ^^^ 2 ^ ptrs.log2)

@[inherit_doc dropPtrsMask]
def bch2BkeyDropPtrsMask (k : MemKey) (ptrs : ℕ) : Option MemKey := dropPtrsMask 32 k ptrs

/-- The inner loop of `bch2_bkey_drop_device_noerror`: the first pointer of a device. -/
def findPtrDev (mem : List UInt64) (stop dev : ℕ) : ℕ → ℕ → Option (Option ℕ)
  | 0, _ => none
  | n + 1, entry =>
    if entry < stop then do
      let w ← mem[entry]?
      let next ← extentEntryNextSafe mem entry stop
      if extentEntryIsPtr w && bchExtentPtrDev w == dev then some (some entry)
      else findPtrDev mem stop dev n next
    else some none

/-- The outer loop, which starts again behind every pointer dropped. -/
def dropDevice (dev : ℕ) : ℕ → MemKey → Option MemKey
  | 0, _ => none
  | n + 1, k =>
    match k.ptrs with
    | none => some k
    | some (start, stop) => do
      match ← findPtrDev k.mem stop dev (k.mem.length + 1) start with
      | none => some k
      | some ptr => do
        let k ← bch2BkeyDropPtrNoerror k ptr
        dropDevice dev n k

/-- `bch2_bkey_drop_device_noerror`. -/
def bch2BkeyDropDeviceNoerror (k : MemKey) (dev : ℕ) : Option MemKey :=
  dropDevice dev (k.mem.length + 1) k

/-! ### Entries -/

/-- Whether a crc or the end comes before the next pointer. -/
def crcNotNeeded : List Entry → Bool
  | [] => true
  | e :: es => if e.isCrc then true else if e.isPtr then false else crcNotNeeded es

/-- What is left of the entries in front of a dropped pointer, the last one first. -/
def cleanBack (dropCrc : Bool) : List Entry → List Entry
  | [] => []
  | e :: es =>
    if e.isPtr then e :: es
    else if e.isCrc && dropCrc || e.isStripePtr then cleanBack dropCrc es
    else e :: cleanBack dropCrc es

/-- The entries without the pointer between `pre` and `post`. -/
def dropPtrEntries (pre post : List Entry) : List Entry :=
  (cleanBack (crcNotNeeded post) pre.reverse).reverse ++ post

/-! ### The walks -/

/-- The length of words in front of an entry. -/
theorem prevWalk_at {mem : List UInt64} {p : List Entry} {e : Entry} {pre post : List UInt64}
    {n : ℕ} (hn : p.length < n) (hmem : mem = pre ++ entryWords p ++ e.words ++ post) :
    prevWalk mem (pre.length + (entryWords p).length + e.u64s) n pre.length =
      some (pre.length + (entryWords p).length) := by
  induction p generalizing pre n with
  | nil =>
    obtain ⟨n, rfl⟩ : ∃ n', n = n' + 1 := ⟨n - 1, by rw [List.length_nil] at hn; omega⟩
    have hat : mem = pre ++ e.words ++ post := by simpa using hmem
    rw [prevWalk, extentEntryNext_at hat]
    simp
  | cons x p ih =>
    obtain ⟨n, rfl⟩ : ∃ n', n = n' + 1 := ⟨n - 1, by omega⟩
    have hat : mem = pre ++ x.words ++ (entryWords p ++ e.words ++ post) := by
      rw [hmem, entryWords_cons]
      simp only [List.append_assoc]
    have hrest : mem = (pre ++ x.words) ++ entryWords p ++ e.words ++ post := by
      rw [hat]
      simp only [List.append_assoc]
    have hlen : (pre ++ x.words).length = pre.length + x.u64s := by
      rw [List.length_append, x.length_words]
    have hwords : (entryWords (x :: p)).length = x.u64s + (entryWords p).length := by
      rw [entryWords_cons, List.length_append, x.length_words]
    have hpos : 0 < e.u64s := Nat.succ_pos _
    have hcount : p.length < n := Nat.lt_of_succ_lt_succ hn
    have hgo := ih hcount hrest
    rw [hlen] at hgo
    rw [prevWalk, extentEntryNext_at hat, Option.bind_eq_bind, Option.bind_some,
      if_pos (by omega), hwords, ← Nat.add_assoc, hgo]

/-- The entry before the place behind some entries, given the last one first. -/
def prevOf (start : ℕ) : List Entry → Option ℕ
  | [] => none
  | _ :: rev => some (start + (entryWords rev.reverse).length)

theorem extentEntryPrev_at {mem : List UInt64} (rev : List Entry) {hd post : List UInt64}
    (hmem : mem = hd ++ entryWords rev.reverse ++ post) :
    extentEntryPrev mem hd.length (hd.length + (entryWords rev.reverse).length) =
      some (prevOf hd.length rev) := by
  cases rev with
  | nil => simp [extentEntryPrev, prevOf]
  | cons e rev =>
    have hwords : entryWords (e :: rev).reverse = entryWords rev.reverse ++ e.words := by
      rw [List.reverse_cons, entryWords_append, entryWords_cons, entryWords_nil, List.append_nil]
    have hlen : (entryWords (e :: rev).reverse).length =
        (entryWords rev.reverse).length + e.u64s := by
      rw [hwords, List.length_append, e.length_words]
    have hat : mem = hd ++ entryWords rev.reverse ++ e.words ++ post := by
      rw [hmem, hwords]
      simp only [List.append_assoc]
    have hcount : rev.reverse.length < mem.length + 1 := by
      have hle := MemKey.HasEntries.length_le rev.reverse
      rw [hat]
      simp only [List.length_append]
      omega
    have hpos : 0 < e.u64s := Nat.succ_pos _
    rw [extentEntryPrev, if_neg (by omega), hlen, ← Nat.add_assoc, prevWalk_at hcount hat]
    rfl

theorem dropCrcScan_at {mem : List UInt64} {es : List Entry} {pre post : List UInt64} {n : ℕ}
    (hn : es.length < n) (hmem : mem = pre ++ entryWords es ++ post) :
    dropCrcScan mem (pre.length + (entryWords es).length) n pre.length =
      some (crcNotNeeded es) := by
  induction es generalizing pre n with
  | nil =>
    obtain ⟨n, rfl⟩ : ∃ n', n = n' + 1 := ⟨n - 1, by rw [List.length_nil] at hn; omega⟩
    simp [dropCrcScan, crcNotNeeded]
  | cons e es ih =>
    obtain ⟨n, rfl⟩ : ∃ n', n = n' + 1 := ⟨n - 1, by omega⟩
    obtain ⟨hat, hrest, hword, hstop, hlt⟩ := entryWords_cons_at hmem
    have hcount : es.length < n := Nat.lt_of_succ_lt_succ hn
    have hgo := ih hcount hrest
    rw [List.length_append, e.length_words] at hgo hstop hlt
    rw [dropCrcScan, if_neg (by omega), hword, Option.bind_eq_bind, Option.bind_some,
      crcNotNeeded, extentEntryNext_at hat, Option.bind_eq_bind, Option.bind_some, hstop, hgo]
    change (if e.isCrc = true then _ else if e.isPtr = true then _ else _) = _
    split_ifs <;> rfl

/-! ### Dropping in memory -/

/-- Where the entries of a key start goes by its type. -/
theorem ptrs_of_type {k k' : MemKey} {start : ℕ} (htype : k'.type = k.type)
    (hstripe : k.type ≠ keyTypeStripe) (h : k.ptrs = some (start, k.valU64s)) :
    k'.ptrs = some (start, k'.valU64s) := by
  rw [MemKey.ptrs] at h ⊢
  rw [htype]
  split_ifs at h ⊢ with hv2 hother
  · rw [(Prod.mk.inj (Option.some.inj h)).1]
  · rw [(Prod.mk.inj (Option.some.inj h)).1]

section Drop

variable {k : MemKey} {hd : List UInt64} {pre post rev : List Entry} {e : Entry}

/-- An entry is left out of the list. -/
theorem MemKey.HasEntries.drop (h : k.HasEntries hd (pre ++ e :: post)) :
    ∃ k', extentEntryDrop k (hd.length + (entryWords pre).length) = some k' ∧
      k'.HasEntries hd (pre ++ post) ∧ k.Keeps k' := by
  have hval : k.val = (hd ++ entryWords pre) ++ e.words ++ entryWords post := by
    rw [h.val, entryWords_append, entryWords_cons]
    simp only [List.append_assoc]
  obtain ⟨k', hdrop, hleaves⟩ := extentEntryDrop_spec h.wf h.notStripe hval
  rw [List.length_append] at hdrop
  refine ⟨k', hdrop, ⟨hleaves.wf, ?_, ?_, ?_⟩, hleaves.keeps⟩
  · rw [hleaves.keeps.type]
    exact h.notStripe
  · exact ptrs_of_type hleaves.keeps.type h.notStripe h.ptrs
  · rw [hleaves.val, entryWords_append, List.append_assoc]

/-- Back to the pointer before, with the entries in front given the last one first. -/
theorem dropBack_at (dropCrc : Bool) {n : ℕ} (hn : rev.length ≤ n)
    (h : k.HasEntries hd (rev.reverse ++ post)) :
    ∃ k', dropBack hd.length dropCrc n k (prevOf hd.length rev) = some k' ∧
      k'.HasEntries hd ((cleanBack dropCrc rev).reverse ++ post) ∧ k.Keeps k' := by
  induction rev generalizing n k post with
  | nil => exact ⟨k, by cases n <;> rfl, h, .refl k⟩
  | cons e rev ih =>
    obtain ⟨n, rfl⟩ : ∃ n', n = n' + 1 := ⟨n - 1, by rw [List.length_cons] at hn; omega⟩
    have hcount : rev.length ≤ n := Nat.le_of_succ_le_succ hn
    have h' : k.HasEntries hd (rev.reverse ++ e :: post) := by
      rw [List.reverse_cons, List.append_assoc] at h
      exact h
    have hword : k.mem[hd.length + (entryWords rev.reverse).length]? = some e.head := by
      rw [h'.mem, entryWords_append, entryWords_cons, ← List.length_append]
      simp [Entry.words]
    have hprev : ∀ {k₁ : MemKey} {post₁ : List Entry}, k₁.HasEntries hd (rev.reverse ++ post₁) →
        extentEntryPrev k₁.mem hd.length (hd.length + (entryWords rev.reverse).length) =
          some (prevOf hd.length rev) := by
      intro k₁ post₁ h₁
      refine @extentEntryPrev_at _ rev _ (entryWords post₁ ++ k₁.mem.drop k₁.valU64s) ?_
      nth_rewrite 1 [h₁.mem]
      rw [entryWords_append]
      simp only [List.append_assoc]
    rw [prevOf, dropBack, hword, Option.bind_eq_bind, Option.bind_some, cleanBack]
    by_cases hptr : e.isPtr = true
    · have hptr' : extentEntryIsPtr e.head = true := hptr
      rw [if_pos hptr', if_pos hptr]
      exact ⟨k, rfl, h, .refl k⟩
    · have hptr' : ¬extentEntryIsPtr e.head = true := hptr
      rw [if_neg hptr', if_neg hptr]
      by_cases hgone : (e.isCrc && dropCrc || e.isStripePtr) = true
      · have hgone' : (extentEntryIsCrc e.head && dropCrc || extentEntryIsStripePtr e.head) =
            true := hgone
        obtain ⟨k₁, hdrop, h₁, hkeeps⟩ := h'.drop
        obtain ⟨k', hback, hleft, hkeeps'⟩ := ih hcount h₁
        refine ⟨k', ?_, ?_, hkeeps.trans hkeeps'⟩
        · rw [if_pos hgone', hdrop, Option.bind_eq_bind, Option.bind_some]
          beta_reduce
          rw [hprev h₁]
          exact hback
        · rw [if_pos hgone]
          exact hleft
      · have hgone' : ¬(extentEntryIsCrc e.head && dropCrc || extentEntryIsStripePtr e.head) =
            true := hgone
        obtain ⟨k', hback, hleft, hkeeps'⟩ := ih hcount h'
        refine ⟨k', ?_, ?_, hkeeps'⟩
        · rw [if_neg hgone', Option.bind_eq_bind, Option.bind_some]
          beta_reduce
          rw [hprev h']
          exact hback
        · rw [if_neg hgone, List.reverse_cons, List.append_assoc]
          exact hleft

/-- A pointer has the lowest bit set. -/
theorem testBit_of_isPtr (h : e.isPtr = true) : e.head.toNat.testBit 0 = true := by
  have htype : extentEntryType e.head = 0 := by
    simpa [Entry.isPtr, extentEntryIsPtr, extentEntryPtr] using h
  rw [extentEntryType] at htype
  cases hfind : (List.range 64).find? (fun i => e.head.toNat.testBit i) with
  | none =>
    rw [hfind] at htype
    cases htype
  | some i =>
    rw [hfind, Option.getD_some] at htype
    have hbit := List.find?_some hfind
    rw [htype] at hbit
    exact hbit

/-- Dropping a pointer in memory is dropping it from the entries. -/
theorem bch2BkeyDropPtrNoerror_spec (h : k.HasEntries hd (pre ++ e :: post))
    (hptr : e.isPtr = true) :
    ∃ k', bch2BkeyDropPtrNoerror k (hd.length + (entryWords pre).length) = some k' ∧
      k'.HasEntries hd (dropPtrEntries pre post) ∧ k.Keeps k' := by
  have hmem : k.mem = (hd ++ entryWords pre) ++ e.words ++
      (entryWords post ++ k.mem.drop k.valU64s) := by
    nth_rewrite 1 [h.mem]
    rw [entryWords_append, entryWords_cons]
    simp only [List.append_assoc]
  have hrest : k.mem = ((hd ++ entryWords pre) ++ e.words) ++ entryWords post ++
      k.mem.drop k.valU64s := by
    nth_rewrite 1 [hmem]
    simp only [List.append_assoc]
  have hlen : (hd ++ entryWords pre).length = hd.length + (entryWords pre).length :=
    List.length_append
  have hlen' : ((hd ++ entryWords pre) ++ e.words).length =
      hd.length + (entryWords pre).length + e.u64s := by
    rw [List.length_append, hlen, e.length_words]
  have hword : k.mem[hd.length + (entryWords pre).length]? = some e.head := by
    rw [← hlen, hmem]
    simp [Entry.words]
  have hstop : k.valU64s =
      hd.length + (entryWords pre).length + e.u64s + (entryWords post).length := by
    rw [h.valU64s, entryWords_append, entryWords_cons, List.length_append, List.length_append,
      e.length_words]
    omega
  have hpos : 0 < e.u64s := Nat.succ_pos _
  have hnext := extentEntryNext_at hmem
  have hcount : post.length < k.mem.length + 1 := by
    have hlt := h.length_lt
    rw [List.length_append, List.length_cons] at hlt
    omega
  have hscan := dropCrcScan_at hcount hrest
  rw [hlen] at hnext
  rw [hlen'] at hscan
  obtain ⟨k₁, hdrop, h₁, hkeeps⟩ := h.drop
  have hprev : extentEntryPrev k₁.mem hd.length (hd.length + (entryWords pre).length) =
      some (prevOf hd.length pre.reverse) := by
    have hat : k₁.mem = hd ++ entryWords pre.reverse.reverse ++
        (entryWords post ++ k₁.mem.drop k₁.valU64s) := by
      nth_rewrite 1 [h₁.mem]
      rw [entryWords_append, List.reverse_reverse]
      simp only [List.append_assoc]
    have hgo := extentEntryPrev_at pre.reverse hat
    rwa [List.reverse_reverse] at hgo
  have hroom : pre.reverse.length ≤ k₁.mem.length + 1 := by
    have hlt := h₁.length_lt
    rw [List.length_append] at hlt
    rw [List.length_reverse]
    omega
  have h₁' : k₁.HasEntries hd (pre.reverse.reverse ++ post) := by
    rw [List.reverse_reverse]
    exact h₁
  obtain ⟨k', hback, hleft, hkeeps'⟩ := dropBack_at (crcNotNeeded post) hroom h₁'
  refine ⟨k', ?_, hleft, hkeeps.trans hkeeps'⟩
  rw [bch2BkeyDropPtrNoerror, hword, Option.bind_eq_bind, Option.bind_some, if_neg h.notStripe,
    h.ptrs, Option.bind_eq_bind, Option.bind_some]
  change (if _ then _ else _) = _
  rw [if_pos ⟨by omega, by omega, testBit_of_isPtr hptr⟩, hnext, Option.bind_eq_bind,
    Option.bind_some, hstop, hscan, Option.bind_eq_bind, Option.bind_some, hdrop,
    Option.bind_eq_bind, Option.bind_some, hprev, Option.bind_eq_bind, Option.bind_some]
  exact hback

end Drop

/-! ### The decoded pointers of entries -/

section Decoded

variable (size : ℕ)

/-- The crc and the stripe pointer that are pending behind entries. -/
def pendingAfter : CrcUnpacked → Option UInt64 → List Entry → CrcUnpacked × Option UInt64
  | crc, ec, [] => (crc, ec)
  | crc, ec, e :: es =>
    if e.isPtr then pendingAfter crc none es
    else if e.isCrc then pendingAfter (e.crc size) ec es
    else if e.isStripePtr then pendingAfter crc (some e.head) es
    else pendingAfter crc ec es

theorem decodeEntries_append (crc : CrcUnpacked) (ec : Option UInt64) (es es' : List Entry) :
    decodeEntries size crc ec (es ++ es') = decodeEntries size crc ec es ++
      decodeEntries size (pendingAfter size crc ec es).1 (pendingAfter size crc ec es).2 es' := by
  induction es generalizing crc ec with
  | nil => rfl
  | cons e es ih =>
    rw [List.cons_append, decodeEntries, decodeEntries, pendingAfter]
    split_ifs
    · rw [ih, List.cons_append]
    · exact ih _ _
    · exact ih _ _
    · exact ih _ _

theorem pendingAfter_append (crc : CrcUnpacked) (ec : Option UInt64) (es es' : List Entry) :
    pendingAfter size crc ec (es ++ es') =
      pendingAfter size (pendingAfter size crc ec es).1 (pendingAfter size crc ec es).2 es' := by
  induction es generalizing crc ec with
  | nil => rfl
  | cons e es ih =>
    rw [List.cons_append, pendingAfter, pendingAfter]
    split_ifs
    · exact ih _ _
    · exact ih _ _
    · exact ih _ _
    · exact ih _ _

/-- The number of pointers of entries. -/
def ptrCount (es : List Entry) : ℕ := (es.filter Entry.isPtr).length

theorem length_decodeEntries (crc : CrcUnpacked) (ec : Option UInt64) (es : List Entry) :
    (decodeEntries size crc ec es).length = ptrCount es := by
  induction es generalizing crc ec with
  | nil => rfl
  | cons e es ih =>
    rw [decodeEntries, ptrCount, List.filter_cons]
    split_ifs
    · rw [List.length_cons, List.length_cons, ih]
      rfl
    · exact ih _ _
    · exact ih _ _
    · exact ih _ _

/-- A decoded pointer is one of the entries. -/
theorem mem_decodeEntries {crc : CrcUnpacked} {ec : Option UInt64} {es : List Entry}
    {d : PtrDecoded} (hd : d ∈ decodeEntries size crc ec es) :
    ∃ e ∈ es, e.isPtr = true ∧ d.ptr = e.head := by
  induction es generalizing crc ec with
  | nil => cases hd
  | cons e es ih =>
    have hrest : ∀ {crc ec}, d ∈ decodeEntries size crc ec es →
        ∃ e' ∈ e :: es, e'.isPtr = true ∧ d.ptr = e'.head := by
      intro crc ec hd
      obtain ⟨e', he', hptr⟩ := ih hd
      exact ⟨e', List.mem_cons_of_mem _ he', hptr⟩
    rw [decodeEntries] at hd
    split_ifs at hd with hptr
    · rcases List.mem_cons.mp hd with rfl | hd
      · exact ⟨e, List.mem_cons_self .., hptr, rfl⟩
      · exact hrest hd
    · exact hrest hd
    · exact hrest hd
    · exact hrest hd

/-- A crc that no pointer is left for does not matter. -/
theorem decodeEntries_of_crcNotNeeded {es : List Entry} (h : crcNotNeeded es = true)
    (crc crc' : CrcUnpacked) (ec : Option UInt64) :
    decodeEntries size crc ec es = decodeEntries size crc' ec es := by
  induction es generalizing ec with
  | nil => rfl
  | cons e es ih =>
    rw [crcNotNeeded] at h
    rw [decodeEntries, decodeEntries]
    split_ifs at h with hcrc hptr
    · have hptr : ¬e.isPtr = true := fun hptr => by
        rw [Entry.isCrc_of_isPtr hptr] at hcrc
        cases hcrc
      rw [if_neg hptr, if_neg hptr, if_pos hcrc, if_pos hcrc]
    · rw [if_neg hptr, if_neg hptr, if_neg hcrc, if_neg hcrc, ih h, ih h]

/-- Taking out what the dropped pointer needed alone leaves the pointers before it, and nothing
but a crc pending behind them. -/
theorem decodeEntries_cleanBack (crc : CrcUnpacked) (dropCrc : Bool) (rev : List Entry) :
    decodeEntries size crc none (cleanBack dropCrc rev).reverse =
        decodeEntries size crc none rev.reverse ∧
      (pendingAfter size crc none (cleanBack dropCrc rev).reverse).2 = none ∧
      (dropCrc = false → (pendingAfter size crc none (cleanBack dropCrc rev).reverse).1 =
        (pendingAfter size crc none rev.reverse).1) := by
  induction rev with
  | nil => exact ⟨rfl, rfl, fun _ => rfl⟩
  | cons e rev ih =>
    obtain ⟨hsame, hnone, hcrc⟩ := ih
    rw [cleanBack]
    split_ifs with hptr hgone
    · refine ⟨rfl, ?_, fun _ => rfl⟩
      rw [List.reverse_cons, pendingAfter_append, pendingAfter, if_pos hptr]
      rfl
    · refine ⟨?_, hnone, fun hkeep => ?_⟩
      · rw [hsame, List.reverse_cons, decodeEntries_append, decodeEntries, if_neg hptr]
        split_ifs <;> simp [decodeEntries]
      · -- what goes is a stripe pointer
        have hec : e.isStripePtr = true := by simpa [hkeep] using hgone
        have hnot : ¬e.isCrc = true := fun hc => by
          rw [Entry.isStripePtr_of_isCrc hc] at hec
          cases hec
        rw [hcrc hkeep, List.reverse_cons, pendingAfter_append, pendingAfter, if_neg hptr,
          if_neg hnot, if_pos hec]
        rfl
    · have hec : ¬e.isStripePtr = true := fun hec => hgone (by simp [hec])
      rw [List.reverse_cons, List.reverse_cons, decodeEntries_append, decodeEntries_append,
        pendingAfter_append, pendingAfter_append, hsame]
      simp only [decodeEntries, pendingAfter, if_neg hptr, if_neg hec]
      refine ⟨by simp, ?_, fun hkeep => ?_⟩
      · split_ifs <;> exact hnone
      · split_ifs
        · rfl
        · exact hcrc hkeep

/-- Dropping a pointer from the entries drops it from the decoded pointers. -/
theorem decodedPtrs_dropPtrEntries {pre post : List Entry} {e : Entry} (hptr : e.isPtr = true) :
    decodedPtrs size (dropPtrEntries pre post) =
      (decodedPtrs size (pre ++ e :: post)).eraseIdx (ptrCount pre) := by
  obtain ⟨hsame, hnone, hcrc⟩ :=
    decodeEntries_cleanBack size (crcNull size) (crcNotNeeded post) pre.reverse
  rw [List.reverse_reverse] at hsame hcrc
  have hpost : decodeEntries size
      (pendingAfter size (crcNull size) none (cleanBack (crcNotNeeded post) pre.reverse).reverse).1
        none post =
      decodeEntries size (pendingAfter size (crcNull size) none pre).1 none post := by
    cases hneed : crcNotNeeded post with
    | true => exact decodeEntries_of_crcNotNeeded size hneed _ _ _
    | false =>
      rw [hneed] at hcrc
      rw [hcrc rfl]
  rw [decodedPtrs, decodedPtrs, dropPtrEntries, decodeEntries_append, decodeEntries_append, hsame,
    hnone, hpost, decodeEntries, if_pos hptr,
    ← length_decodeEntries size (crcNull size) none pre,
    List.eraseIdx_append_of_length_le le_rfl, Nat.sub_self, List.eraseIdx_cons_zero]

end Decoded

/-! ### The loops -/

section Loops

variable {k : MemKey} {hd : List UInt64} {es : List Entry}

/-- The pointer of an index, among entries that start with some index. -/
theorem findPtrIndex_at {mem pre post : List UInt64} {n index drop : ℕ} (hn : es.length < n)
    (hindex : index ≤ drop) (hmem : mem = pre ++ entryWords es ++ post) :
    (findPtrIndex mem (pre.length + (entryWords es).length) drop n index pre.length = some none ∧
      index + ptrCount es ≤ drop) ∨
    ∃ front e back, es = front ++ e :: back ∧ e.isPtr = true ∧ index + ptrCount front = drop ∧
      findPtrIndex mem (pre.length + (entryWords es).length) drop n index pre.length =
        some (some (pre.length + (entryWords front).length)) := by
  induction es generalizing pre n index with
  | nil =>
    obtain ⟨n, rfl⟩ : ∃ n', n = n' + 1 := ⟨n - 1, by rw [List.length_nil] at hn; omega⟩
    exact .inl ⟨by simp [findPtrIndex], hindex⟩
  | cons e es ih =>
    obtain ⟨n, rfl⟩ : ∃ n', n = n' + 1 := ⟨n - 1, by omega⟩
    have hcount : es.length < n := Nat.lt_of_succ_lt_succ hn
    obtain ⟨hat, hrest, hword, hstop, hlt⟩ := entryWords_cons_at hmem
    have hnext := extentEntryNextSafe_at hat ((pre ++ e.words).length + (entryWords es).length)
    have hfront : ∀ front, (pre ++ e.words).length + (entryWords front).length =
        pre.length + (entryWords (e :: front)).length := by
      intro front
      rw [entryWords_cons, List.length_append, List.length_append, Nat.add_assoc]
    rw [hstop, findPtrIndex, if_pos hlt, hword, Option.bind_eq_bind, Option.bind_some, hnext,
      Option.bind_eq_bind, Option.bind_some]
    by_cases hptr : e.isPtr = true
    · have hptr' : extentEntryIsPtr e.head = true := hptr
      have hptrs : ∀ l, ptrCount (e :: l) = ptrCount l + 1 := fun l => by simp [ptrCount, hptr]
      rw [if_pos hptr', hptrs]
      by_cases hhere : index = drop
      · rw [if_pos hhere]
        exact .inr ⟨[], e, es, rfl, hptr, by simpa [ptrCount] using hhere, by simp⟩
      · rw [if_neg hhere]
        rcases @ih _ _ (index + 1) hcount (by omega) hrest with
          ⟨hnone, hle⟩ | ⟨front, e', back, rfl, hptr', hsum, hfind⟩
        · exact .inl ⟨hnone, by omega⟩
        · refine .inr ⟨e :: front, e', back, rfl, hptr', by rw [hptrs]; omega, ?_⟩
          rw [hfind, hfront]
    · have hptr' : ¬extentEntryIsPtr e.head = true := hptr
      have hptrs : ∀ l, ptrCount (e :: l) = ptrCount l := fun l => by simp [ptrCount, hptr]
      rw [if_neg hptr', hptrs]
      rcases ih hcount hindex hrest with
        ⟨hnone, hle⟩ | ⟨front, e', back, rfl, hptr', hsum, hfind⟩
      · exact .inl ⟨hnone, hle⟩
      · refine .inr ⟨e :: front, e', back, rfl, hptr', by rw [hptrs]; exact hsum, ?_⟩
        rw [hfind, hfront]

/-- A pointer of a device, or none. -/
theorem findPtrDev_at {mem pre post : List UInt64} {n dev : ℕ} (hn : es.length < n)
    (hmem : mem = pre ++ entryWords es ++ post) :
    (findPtrDev mem (pre.length + (entryWords es).length) dev n pre.length = some none ∧
      ∀ e ∈ es, e.isPtr = true → bchExtentPtrDev e.head ≠ dev) ∨
    ∃ front e back, es = front ++ e :: back ∧ e.isPtr = true ∧ bchExtentPtrDev e.head = dev ∧
      findPtrDev mem (pre.length + (entryWords es).length) dev n pre.length =
        some (some (pre.length + (entryWords front).length)) := by
  induction es generalizing pre n with
  | nil =>
    obtain ⟨n, rfl⟩ : ∃ n', n = n' + 1 := ⟨n - 1, by rw [List.length_nil] at hn; omega⟩
    exact .inl ⟨by simp [findPtrDev], by simp⟩
  | cons e es ih =>
    obtain ⟨n, rfl⟩ : ∃ n', n = n' + 1 := ⟨n - 1, by omega⟩
    have hcount : es.length < n := Nat.lt_of_succ_lt_succ hn
    obtain ⟨hat, hrest, hword, hstop, hlt⟩ := entryWords_cons_at hmem
    have hnext := extentEntryNextSafe_at hat ((pre ++ e.words).length + (entryWords es).length)
    rw [hstop, findPtrDev, if_pos hlt, hword, Option.bind_eq_bind, Option.bind_some, hnext,
      Option.bind_eq_bind, Option.bind_some]
    by_cases hdev : (e.isPtr && bchExtentPtrDev e.head == dev) = true
    · have hdev' : (extentEntryIsPtr e.head && bchExtentPtrDev e.head == dev) = true := hdev
      rw [if_pos hdev']
      simp only [Bool.and_eq_true, beq_iff_eq] at hdev
      exact .inr ⟨[], e, es, rfl, hdev.1, hdev.2, by simp⟩
    · have hdev' : ¬(extentEntryIsPtr e.head && bchExtentPtrDev e.head == dev) = true := hdev
      rw [if_neg hdev']
      simp only [Bool.and_eq_true, beq_iff_eq, not_and] at hdev
      rcases ih hcount hrest with ⟨hnone, hall⟩ | ⟨front, e', back, rfl, hptr', hhere, hfind⟩
      · refine .inl ⟨hnone, fun e' he' => ?_⟩
        rcases List.mem_cons.mp he' with rfl | he'
        · exact hdev
        · exact hall e' he'
      · refine .inr ⟨e :: front, e', back, rfl, hptr', hhere, ?_⟩
        rw [hfind, entryWords_cons, List.length_append, List.length_append, Nat.add_assoc]

/-- One turn over a mask drops the pointer of the index. -/
theorem dropPtrIndex_spec (h : k.HasEntries hd es) (drop : ℕ) :
    ∃ k' es', dropPtrIndex k drop = some k' ∧ k'.HasEntries hd es' ∧ k.Keeps k' ∧
      decodedPtrs k.size es' = (decodedPtrs k.size es).eraseIdx drop := by
  rw [dropPtrIndex, h.ptrs, h.valU64s]
  rcases findPtrIndex_at h.length_lt (Nat.zero_le drop) h.mem with
    ⟨hnone, hle⟩ | ⟨front, e, back, rfl, hptr, hsum, hfind⟩
  · refine ⟨k, es, ?_, h, .refl k, ?_⟩
    · simp only [hnone, Option.bind_eq_bind, Option.bind_some]
    · rw [List.eraseIdx_of_length_le]
      rw [decodedPtrs, length_decodeEntries]
      omega
  · obtain ⟨k', hdrop, h', hkeeps⟩ := bch2BkeyDropPtrNoerror_spec h hptr
    refine ⟨k', _, ?_, h', hkeeps, ?_⟩
    · simp only [hfind, Option.bind_eq_bind, Option.bind_some, hdrop]
    · rw [decodedPtrs_dropPtrEntries k.size hptr, ← hsum, Nat.zero_add]

end Loops

/-- A list without the places of a mask, the first place being `n`. -/
def keepFrom {α : Type*} (mask : ℕ) : ℕ → List α → List α
  | _, [] => []
  | n, a :: l => if mask.testBit n then keepFrom mask (n + 1) l else a :: keepFrom mask (n + 1) l

/-- A list without the places of a mask. -/
def keepUnmasked {α : Type*} (mask : ℕ) (l : List α) : List α := keepFrom mask 0 l

theorem keepFrom_of_clear {α : Type*} {mask n : ℕ} (h : ∀ i ≥ n, mask.testBit i = false)
    (l : List α) : keepFrom mask n l = l := by
  induction l generalizing n with
  | nil => rfl
  | cons a l ih =>
    rw [keepFrom, h n le_rfl, if_neg Bool.false_ne_true, ih fun i hi => h i (by omega)]

/-- The place of the highest bit may go first. -/
theorem keepFrom_highest {α : Type*} {mask d n : ℕ} (hd : mask.testBit d = true)
    (hhigh : ∀ i > d, mask.testBit i = false) (hn : n ≤ d) (l : List α) :
    keepFrom (mask ^^^ 2 ^ d) n (l.eraseIdx (d - n)) = keepFrom mask n l := by
  induction l generalizing n with
  | nil => rfl
  | cons a l ih =>
    have hbit : ∀ i, (mask ^^^ 2 ^ d).testBit i = (mask.testBit i ^^ decide (d = i)) := by
      intro i
      rw [Nat.testBit_xor, Nat.testBit_two_pow]
    rcases Nat.lt_or_eq_of_le hn with hlt | rfl
    · obtain ⟨m, hm⟩ : ∃ m, d - n = m + 1 := ⟨d - n - 1, by omega⟩
      have hstep := ih (n := n + 1) hlt
      have hm' : d - (n + 1) = m := by omega
      rw [hm'] at hstep
      rw [hm, List.eraseIdx_cons_succ, keepFrom, keepFrom, hstep, hbit]
      simp [Nat.ne_of_gt hlt]
    · rw [Nat.sub_self, List.eraseIdx_cons_zero, keepFrom, if_pos hd]
      rw [keepFrom_of_clear hhigh, keepFrom_of_clear]
      intro i hi
      rw [hbit]
      rcases Nat.lt_or_eq_of_le hi with hlt | rfl
      · rw [hhigh i hlt]
        simp [Nat.ne_of_lt hlt]
      · simp [hd]

section Runs

variable {k : MemKey} {hd : List UInt64} {es : List Entry}

theorem testBit_log2 {mask : ℕ} (h : mask ≠ 0) : mask.testBit mask.log2 = true := by
  have hle := Nat.log2_self_le h
  have hlt := Nat.lt_log2_self (n := mask)
  have hone : mask / 2 ^ mask.log2 = 1 :=
    Nat.div_eq_of_lt_le (by omega) (by rw [pow_succ] at hlt; omega)
  rw [Nat.testBit_eq_decide_div_mod_eq, hone]
  rfl

theorem testBit_above_log2 {mask i : ℕ} (hi : mask.log2 < i) : mask.testBit i = false :=
  Nat.testBit_lt_two_pow (Nat.lt_log2_self.trans_le (Nat.pow_le_pow_right Nat.two_pos hi))

/-- A turn clears the highest bit of the mask. -/
theorem xor_log2_lt {mask n : ℕ} (h : mask ≠ 0) (hn : mask < 2 ^ (n + 1)) :
    mask ^^^ 2 ^ mask.log2 < 2 ^ n := by
  have hlog : mask.log2 < n + 1 := (Nat.log2_lt h).mpr hn
  have hlt : mask ^^^ 2 ^ mask.log2 < 2 ^ mask.log2 := by
    refine Nat.lt_pow_two_of_testBit _ fun i hi => ?_
    rw [Nat.testBit_xor, Nat.testBit_two_pow]
    rcases Nat.lt_or_eq_of_le hi with hlt | rfl
    · rw [testBit_above_log2 hlt]
      simp [Nat.ne_of_lt hlt]
    · simp [testBit_log2 h]
  exact hlt.trans_le (Nat.pow_le_pow_right Nat.two_pos (by omega))

theorem dropPtrsMask_spec {n : ℕ} (h : k.HasEntries hd es) {mask : ℕ} (hmask : mask < 2 ^ n) :
    ∃ k' es', dropPtrsMask n k mask = some k' ∧ k'.HasEntries hd es' ∧ k.Keeps k' ∧
      decodedPtrs k.size es' = keepUnmasked mask (decodedPtrs k.size es) := by
  induction n generalizing k es mask with
  | zero =>
    obtain rfl : mask = 0 := by omega
    refine ⟨k, es, by rw [dropPtrsMask, if_pos rfl], h, .refl k, ?_⟩
    exact (keepFrom_of_clear (fun i _ => Nat.zero_testBit i) _).symm
  | succ n ih =>
    by_cases hzero : mask = 0
    · refine ⟨k, es, by rw [dropPtrsMask, if_pos hzero], h, .refl k, ?_⟩
      rw [hzero]
      exact (keepFrom_of_clear (fun i _ => Nat.zero_testBit i) _).symm
    · obtain ⟨k₁, es₁, hturn, h₁, hkeeps, hdec⟩ := dropPtrIndex_spec h mask.log2
      obtain ⟨k', es', hrun, h', hkeeps', hdec'⟩ := ih h₁ (xor_log2_lt hzero hmask)
      refine ⟨k', es', ?_, h', hkeeps.trans hkeeps', ?_⟩
      · rw [dropPtrsMask, if_neg hzero]
        simp only [hturn, Option.bind_eq_bind, Option.bind_some]
        exact hrun
      · rw [hkeeps.size] at hdec'
        rw [hdec', hdec, keepUnmasked, keepUnmasked]
        exact keepFrom_highest (testBit_log2 hzero) (fun i hi => testBit_above_log2 hi)
          (Nat.zero_le _) _

theorem bch2BkeyDropPtrsMask_spec (h : k.HasEntries hd es) {mask : ℕ} (hmask : mask < 2 ^ 32) :
    ∃ k' es', bch2BkeyDropPtrsMask k mask = some k' ∧ k'.HasEntries hd es' ∧ k.Keeps k' ∧
      decodedPtrs k.size es' = keepUnmasked mask (decodedPtrs k.size es) :=
  dropPtrsMask_spec h hmask

/-- The decoded pointers that are not on a device. -/
def notOnDev (dev : ℕ) (ptrs : List PtrDecoded) : List PtrDecoded :=
  ptrs.filter fun d => bchExtentPtrDev d.ptr ≠ dev

/-- Every turn over a device drops one pointer of it. -/
theorem dropDevice_spec (dev : ℕ) {n : ℕ} (h : k.HasEntries hd es)
    (hn : (decodedPtrs k.size es).length < n) :
    ∃ k' es', dropDevice dev n k = some k' ∧ k'.HasEntries hd es' ∧ k.Keeps k' ∧
      decodedPtrs k.size es' = notOnDev dev (decodedPtrs k.size es) := by
  induction n generalizing k es with
  | zero => omega
  | succ n ih =>
    rw [dropDevice, h.ptrs, h.valU64s]
    rcases @findPtrDev_at _ _ _ _ _ dev h.length_lt h.mem with
      ⟨hnone, hall⟩ | ⟨front, e, back, rfl, hptr, hdev, hfind⟩
    · refine ⟨k, es, ?_, h, .refl k, ?_⟩
      · simp only [hnone, Option.bind_eq_bind, Option.bind_some]
      · refine (List.filter_eq_self.mpr fun d hd => ?_).symm
        obtain ⟨e, he, hptr, hhead⟩ := mem_decodeEntries k.size hd
        rw [hhead]
        exact decide_eq_true (hall e he hptr)
    · obtain ⟨k₁, hdrop, h₁, hkeeps⟩ := bch2BkeyDropPtrNoerror_spec h hptr
      have hdec := @decodedPtrs_dropPtrEntries k.size front back _ hptr
      obtain ⟨crc, ec, hsplit⟩ : ∃ crc ec, decodedPtrs k.size (front ++ e :: back) =
          decodedPtrs k.size front ++ ⟨crc, e.head, ec⟩ ::
            decodeEntries k.size crc none back := by
        refine ⟨(pendingAfter k.size (crcNull k.size) none front).1,
          (pendingAfter k.size (crcNull k.size) none front).2, ?_⟩
        rw [decodedPtrs, decodeEntries_append, decodeEntries, if_pos hptr]
        rfl
      have hcount : ptrCount front = (decodedPtrs k.size front).length :=
        (length_decodeEntries ..).symm
      have herase : decodedPtrs k.size (dropPtrEntries front back) =
          decodedPtrs k.size front ++ decodeEntries k.size crc none back := by
        rw [hdec, hsplit, hcount, List.eraseIdx_append_of_length_le le_rfl, Nat.sub_self,
          List.eraseIdx_cons_zero]
      have hless : (decodedPtrs k₁.size (dropPtrEntries front back)).length < n := by
        rw [hsplit] at hn
        rw [hkeeps.size, herase]
        simp only [List.length_append, List.length_cons] at hn ⊢
        omega
      obtain ⟨k', es', hrun, h', hkeeps', hdec'⟩ := ih h₁ hless
      refine ⟨k', es', ?_, h', hkeeps.trans hkeeps', ?_⟩
      · simp only [hfind, Option.bind_eq_bind, Option.bind_some, hdrop]
        exact hrun
      · rw [hkeeps.size] at hdec'
        rw [hdec', herase, hsplit, notOnDev, notOnDev, List.filter_append, List.filter_append,
          List.filter_cons_of_neg (by simpa using hdev)]

theorem bch2BkeyDropDeviceNoerror_spec (h : k.HasEntries hd es) (dev : ℕ) :
    ∃ k' es', bch2BkeyDropDeviceNoerror k dev = some k' ∧ k'.HasEntries hd es' ∧ k.Keeps k' ∧
      decodedPtrs k.size es' = notOnDev dev (decodedPtrs k.size es) := by
  refine dropDevice_spec dev h ?_
  have hlt := h.length_lt
  have hle : (decodedPtrs k.size es).length ≤ es.length := by
    rw [decodedPtrs, length_decodeEntries]
    exact List.length_filter_le _ _
  omega

/-- Dropping a pointer, the pointers of a mask or those of a device from a key leaves the other
decoded pointers, with their crcs and stripe pointers and in their order. -/
theorem bch2BkeyDropPtrs_decoded (h : k.HasEntries hd es) :
    ∃ old, bkeyPtrsDecode k = some old ∧
      (∀ pre e post, es = pre ++ e :: post → e.isPtr = true →
        ∃ k', bch2BkeyDropPtrNoerror k (hd.length + (entryWords pre).length) = some k' ∧
          (∃ es', k'.HasEntries hd es') ∧
          bkeyPtrsDecode k' = some (old.eraseIdx (ptrCount pre))) ∧
      (∀ mask < 2 ^ 32, ∃ k', bch2BkeyDropPtrsMask k mask = some k' ∧
        (∃ es', k'.HasEntries hd es') ∧ bkeyPtrsDecode k' = some (keepUnmasked mask old)) ∧
      ∀ dev, ∃ k', bch2BkeyDropDeviceNoerror k dev = some k' ∧
        (∃ es', k'.HasEntries hd es') ∧ bkeyPtrsDecode k' = some (notOnDev dev old) := by
  refine ⟨_, bkeyPtrsDecode_eq h, ?_, ?_, ?_⟩
  · rintro pre e post rfl hptr
    obtain ⟨k', hdrop, h', hkeeps⟩ := bch2BkeyDropPtrNoerror_spec h hptr
    refine ⟨k', hdrop, ⟨_, h'⟩, ?_⟩
    rw [bkeyPtrsDecode_eq h', hkeeps.size, decodedPtrs_dropPtrEntries k.size hptr]
  · intro mask hmask
    obtain ⟨k', es', hdrop, h', hkeeps, hdec⟩ := bch2BkeyDropPtrsMask_spec h hmask
    refine ⟨k', hdrop, ⟨es', h'⟩, ?_⟩
    rw [bkeyPtrsDecode_eq h', hkeeps.size, hdec]
  · intro dev
    obtain ⟨k', es', hdrop, h', hkeeps, hdec⟩ := bch2BkeyDropDeviceNoerror_spec h dev
    refine ⟨k', hdrop, ⟨es', h'⟩, ?_⟩
    rw [bkeyPtrsDecode_eq h', hkeeps.size, hdec]

end Runs

/-- A stripe pointer. -/
def stripePtrEntry : Entry := ⟨2 ^ 4, [], by decide⟩

/-- A crc and a stripe pointer in front of two pointers. -/
def stripedKey : MemKey := { crcPtrKey with
  u64s := 10
  mem := entryWords [crc64Entry, stripePtrEntry, ptrEntry, ptrEntry] }

/-- The second pointer keeps its crc when the first one is dropped. -/
theorem bch2BkeyDropPtrs_stripedKey : ∃ old k', bkeyPtrsDecode stripedKey = some old ∧
    bch2BkeyDropPtrsMask stripedKey 1 = some k' ∧
      bkeyPtrsDecode k' = some (keepUnmasked 1 old) := by
  have h : stripedKey.HasEntries [] [crc64Entry, stripePtrEntry, ptrEntry, ptrEntry] :=
    ⟨⟨by decide, by decide, by decide⟩, by decide, by decide, by decide⟩
  obtain ⟨old, hold, -, hmask, -⟩ := bch2BkeyDropPtrs_decoded h
  obtain ⟨k', hdrop, -, hdec⟩ := hmask 1 (by decide)
  exact ⟨old, k', hold, hdrop, hdec⟩

end Subvol

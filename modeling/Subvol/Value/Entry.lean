import Mathlib.Algebra.BigOperators.Group.List.Basic
import Mathlib.Data.Nat.Bits
import Mathlib.Data.UInt
import Subvol.Btree.Key
import Subvol.Lib.Words

/-!
# Entries of extent values

The value of an extent key is a row of entries of one to three words. The lowest bit that is set
in the first word of an entry is its type. Model of the walk over entries and of the functions
that take one out of the middle of a value.

A key in memory is its header and the words from its value on: what a function leaves behind the
end of a value is still there when it reads on. An access past the memory is a failure, like a
failed assertion.

## Main definitions

* `MemKey`, `MemKey.val`, `MemKey.WF`: a key in memory.
* `Entry`: an entry whose type says how many words it has.
* `extentEntryDrop`, `bch2BkeyExtentEntryDrop`.

## Main results

* `extentEntryDrop_spec`: what leaving an entry out does.
* `extentEntryDrops_agree_iff`: when the three functions that leave an entry out agree.
-/

namespace Subvol

open Lib

/-! ### Keys in memory -/

/-- A key in memory: what is read of its header, and the words of memory from its value on. -/
structure MemKey where
  p : Bpos
  type : ℕ
  size : ℕ
  u64s : ℕ
  mem : List UInt64
deriving DecidableEq, Repr

namespace MemKey

/-- `bkey_val_u64s`. -/
def valU64s (k : MemKey) : ℕ := (k.u64s + 2 ^ 32 - bkeyU64s) % 2 ^ 32

/-- The words of the value. -/
def val (k : MemKey) : List UInt64 := k.mem.take k.valU64s

/-- A key whose value is in its memory. -/
structure WF (k : MemKey) : Prop where
  le : bkeyU64s ≤ k.u64s
  lt : k.u64s < 2 ^ 8
  fits : k.u64s - bkeyU64s ≤ k.mem.length

/-- Nothing but the value and its size has changed. -/
structure Keeps (k k' : MemKey) : Prop where
  p : k'.p = k.p
  type : k'.type = k.type
  size : k'.size = k.size
  room : k'.mem.length = k.mem.length

theorem Keeps.refl (k : MemKey) : Keeps k k := ⟨rfl, rfl, rfl, rfl⟩

theorem Keeps.trans {k k' k'' : MemKey} (h : Keeps k k') (h' : Keeps k' k'') : Keeps k k'' :=
  ⟨h'.p.trans h.p, h'.type.trans h.type, h'.size.trans h.size, h'.room.trans h.room⟩

variable {k : MemKey}

theorem WF.valU64s_eq (h : k.WF) : k.valU64s = k.u64s - bkeyU64s := by
  have hle := h.le
  have hlt := h.lt
  rw [valU64s]
  rw [bkeyU64s] at *
  omega

theorem WF.val_length (h : k.WF) : k.val.length = k.valU64s := by
  rw [val, List.length_take, h.valU64s_eq]
  exact Nat.min_eq_left h.fits

theorem WF.u64s_eq (h : k.WF) : k.u64s = bkeyU64s + k.val.length := by
  have hle := h.le
  rw [h.val_length, h.valU64s_eq]
  omega

/-- A key whose memory starts with a value of its size. -/
theorem wf_of_mem {value rest : List UInt64} (hmem : k.mem = value ++ rest)
    (hu64s : k.u64s = bkeyU64s + value.length) (hlt : k.u64s < 2 ^ 8) :
    k.WF ∧ k.val = value := by
  have hwf : k.WF := by
    refine ⟨by omega, hlt, ?_⟩
    rw [hmem, List.length_append]
    omega
  refine ⟨hwf, ?_⟩
  rw [val, hwf.valU64s_eq, hu64s, Nat.add_sub_cancel_left, hmem, List.take_left]

/-- The memory of a key is its value and what lies behind. -/
theorem mem_eq (k : MemKey) : k.mem = k.val ++ k.mem.drop k.valU64s :=
  (List.take_append_drop ..).symm

end MemKey

/-! ### The types of entries -/

/-- `BCH_EXTENT_ENTRY_ptr`. -/
def extentEntryPtr : ℕ := 0

/-- `BCH_EXTENT_ENTRY_crc32`. -/
def extentEntryCrc32 : ℕ := 1

/-- `BCH_EXTENT_ENTRY_crc64`. -/
def extentEntryCrc64 : ℕ := 2

/-- `BCH_EXTENT_ENTRY_crc128`. -/
def extentEntryCrc128 : ℕ := 3

/-- `BCH_EXTENT_ENTRY_stripe_ptr`. -/
def extentEntryStripePtr : ℕ := 4

/-- `BCH_EXTENT_ENTRY_MAX`. -/
def extentEntryMax : ℕ := 9

/-- `extent_entry_type`: the lowest bit that is set in the first word of an entry. -/
def extentEntryType (w : UInt64) : ℕ :=
  ((List.range 64).find? fun i => w.toNat.testBit i).getD (2 ^ 32 - 1)

/-- `extent_entry_is_ptr`. -/
def extentEntryIsPtr (w : UInt64) : Bool := extentEntryType w == extentEntryPtr

/-- `extent_entry_is_stripe_ptr`. -/
def extentEntryIsStripePtr (w : UInt64) : Bool := extentEntryType w == extentEntryStripePtr

/-- `extent_entry_is_crc`. -/
def extentEntryIsCrc (w : UInt64) : Bool :=
  extentEntryType w == extentEntryCrc32 || extentEntryType w == extentEntryCrc64 ||
    extentEntryType w == extentEntryCrc128

/-- `extent_entry_u64s_known`. -/
def extentEntryU64sKnown (type : ℕ) : ℕ :=
  if type = extentEntryCrc64 then 2
  else if type = extentEntryCrc128 then 3
  else if type < extentEntryMax then 1
  else 0

/-- `extent_entry_u64s`. -/
def extentEntryU64s (w : UInt64) : Option ℕ :=
  if extentEntryType w < extentEntryMax then some (extentEntryU64sKnown (extentEntryType w))
  else none

/-- `extent_entry_next` of the entry at an offset. -/
def extentEntryNext (mem : List UInt64) (entry : ℕ) : Option ℕ := do
  let w ← mem[entry]?
  let u64s ← extentEntryU64s w
  some (entry + u64s)

theorem extentEntryU64s_bounds {w : UInt64} {n : ℕ} (h : extentEntryU64s w = some n) :
    1 ≤ n ∧ n ≤ 3 := by
  rw [extentEntryU64s] at h
  split_ifs at h with hknown
  rw [← Option.some.inj h, extentEntryU64sKnown]
  split_ifs <;> omega

/-- An entry of a value: the type in its first word says how many words there are. -/
structure Entry where
  head : UInt64
  tail : List UInt64
  sized : extentEntryU64s head = some (tail.length + 1)

namespace Entry

/-- The words of an entry. -/
def words (e : Entry) : List UInt64 := e.head :: e.tail

/-- The number of words. -/
def u64s (e : Entry) : ℕ := e.tail.length + 1

theorem length_words (e : Entry) : e.words.length = e.u64s := rfl

theorem u64s_le (e : Entry) : e.u64s ≤ 3 := (extentEntryU64s_bounds e.sized).2

end Entry

/-- The words of entries, one after the other. -/
def entryWords (es : List Entry) : List UInt64 := es.flatMap Entry.words

@[simp] theorem entryWords_nil : entryWords [] = [] := rfl

@[simp] theorem entryWords_cons (e : Entry) (es : List Entry) :
    entryWords (e :: es) = e.words ++ entryWords es := rfl

@[simp] theorem entryWords_append (es es' : List Entry) :
    entryWords (es ++ es') = entryWords es ++ entryWords es' := List.flatMap_append

/-- The walk from an entry goes to the end of its words. -/
theorem extentEntryNext_at {mem pre post : List UInt64} {e : Entry}
    (h : mem = pre ++ e.words ++ post) :
    extentEntryNext mem pre.length = some (pre.length + e.u64s) := by
  have hat : mem[pre.length]? = some e.head := by simp [h, Entry.words]
  simp [extentEntryNext, hat, e.sized, Entry.u64s]

/-- Where the first of some entries is in memory, and where the others are. -/
theorem entryWords_cons_at {mem pre post : List UInt64} {e : Entry} {es : List Entry}
    (h : mem = pre ++ entryWords (e :: es) ++ post) :
    mem = pre ++ e.words ++ (entryWords es ++ post) ∧
      mem = (pre ++ e.words) ++ entryWords es ++ post ∧
      mem[pre.length]? = some e.head ∧
      pre.length + (entryWords (e :: es)).length =
        (pre ++ e.words).length + (entryWords es).length ∧
      pre.length < (pre ++ e.words).length + (entryWords es).length := by
  have hat : mem = pre ++ e.words ++ (entryWords es ++ post) := by
    rw [h, entryWords_cons]
    simp only [List.append_assoc]
  refine ⟨hat, ?_, ?_, ?_, ?_⟩
  · rw [hat]
    simp only [List.append_assoc]
  · simp [hat, Entry.words]
  · rw [entryWords_cons, List.length_append, List.length_append, Nat.add_assoc]
  · rw [List.length_append, e.length_words, Entry.u64s]
    omega

/-! ### Leaving an entry out -/

/-- `wrapping_sub` on `u8`. -/
def wrappingSub8 (a b : ℕ) : ℕ := (a + 2 ^ 8 - b % 2 ^ 8) % 2 ^ 8

theorem wrappingSub8_eq {a b : ℕ} (ha : a < 2 ^ 8) (hb : b ≤ a) : wrappingSub8 a b = a - b := by
  rw [wrappingSub8]
  omega

/-- Move what lies behind the entry at an offset over it. -/
def moveTail (k : MemKey) (entry next : ℕ) : Option (List UInt64) :=
  if next ≤ k.valU64s then some (copyWords k.mem next entry (k.valU64s - next)) else none

/-- `extent_entry_drop` of the entry at an offset. -/
def extentEntryDrop (k : MemKey) (entry : ℕ) : Option MemKey := do
  let next ← extentEntryNext k.mem entry
  if k.type = keyTypeStripe then none
  else do
    let mem ← moveTail k entry next
    some { k with mem := mem, u64s := wrappingSub8 k.u64s (next - entry) }

/-- `bch2_bkey_extent_entry_drop`: the size is read once the tail has been moved. -/
def bch2BkeyExtentEntryDrop (k : MemKey) (entry : ℕ) : Option MemKey := do
  let next ← extentEntryNext k.mem entry
  let mem ← moveTail k entry next
  let w ← mem[entry]?
  let u64s ← extentEntryU64s w
  some { k with mem := mem, u64s := wrappingSub8 k.u64s u64s }

/-- `bch2_bkey_extent_entry_drop_s`, which does the same through a `bkey_s`. -/
def bch2BkeyExtentEntryDropS (k : MemKey) (entry : ℕ) : Option MemKey := do
  let next ← extentEntryNext k.mem entry
  let mem ← moveTail k entry next
  let w ← mem[entry]?
  let u64s ← extentEntryU64s w
  some { k with mem := mem, u64s := wrappingSub8 k.u64s u64s }

/-- What is to be when an entry is left out. -/
structure LeavesOut (k : MemKey) (pre : List UInt64) (e : Entry) (post : List UInt64)
    (k' : MemKey) : Prop where
  keeps : k.Keeps k'
  wf : k'.WF
  val : k'.val = pre ++ post
  u64s : k'.u64s + e.u64s = k.u64s

section Drop

variable {k : MemKey} {pre post : List UInt64} {e : Entry}

theorem moveTail_at (hk : k.WF) (hval : k.val = pre ++ e.words ++ post) :
    moveTail k pre.length (pre.length + e.u64s) =
      some (pre ++ post ++ k.mem.drop (pre.length + post.length)) := by
  have hlen : k.valU64s = pre.length + e.u64s + post.length := by
    rw [← hk.val_length, hval, List.length_append, List.length_append, e.length_words]
  have hmem : k.mem = pre ++ e.words ++ post ++ k.mem.drop k.valU64s := by
    rw [← hval]
    exact k.mem_eq
  have hcount : k.valU64s - (pre.length + e.u64s) = post.length := by omega
  rw [moveTail, if_pos (by omega), hcount, hmem, ← e.length_words, copyWords_down]

theorem drop_wf (hk : k.WF) (hval : k.val = pre ++ e.words ++ post) :
    LeavesOut k pre e post { k with
      mem := pre ++ post ++ k.mem.drop (pre.length + post.length)
      u64s := k.u64s - e.u64s } := by
  have hu64s := hk.u64s_eq
  have hlt := hk.lt
  have hfits := hk.fits
  have hlen : k.val.length = pre.length + e.u64s + post.length := by
    rw [hval, List.length_append, List.length_append, e.length_words]
  have hroom : (pre ++ post ++ k.mem.drop (pre.length + post.length)).length = k.mem.length := by
    simp only [List.length_append, List.length_drop]
    omega
  have hnew : k.u64s - e.u64s = bkeyU64s + (pre ++ post).length := by
    rw [List.length_append]
    omega
  obtain ⟨hwf, hpost⟩ := MemKey.wf_of_mem (k := { k with
    mem := pre ++ post ++ k.mem.drop (pre.length + post.length)
    u64s := k.u64s - e.u64s }) rfl hnew (by simp only; omega)
  exact ⟨⟨rfl, rfl, rfl, hroom⟩, hwf, hpost, by simp only; omega⟩

/-- `extent_entry_drop` leaves out the entry. -/
theorem extentEntryDrop_spec (hk : k.WF) (htype : k.type ≠ keyTypeStripe)
    (hval : k.val = pre ++ e.words ++ post) :
    ∃ k', extentEntryDrop k pre.length = some k' ∧ LeavesOut k pre e post k' := by
  have hmem : k.mem = pre ++ e.words ++ (post ++ k.mem.drop k.valU64s) := by
    rw [← List.append_assoc, ← hval]
    exact k.mem_eq
  have hle : e.u64s ≤ k.u64s := by
    have hu64s := hk.u64s_eq
    rw [hval, List.length_append, List.length_append, e.length_words] at hu64s
    omega
  refine ⟨_, ?_, drop_wf hk hval⟩
  rw [extentEntryDrop, extentEntryNext_at hmem, Option.bind_eq_bind, Option.bind_some,
    if_neg htype, moveTail_at hk hval, Option.bind_eq_bind, Option.bind_some,
    Nat.add_sub_cancel_left, wrappingSub8_eq hk.lt hle]

/-- A function takes the entry behind `pre` out of a value. -/
def DropsEntry (f : MemKey → ℕ → Option MemKey) (k : MemKey) (pre : List UInt64) (e : Entry)
    (post : List UInt64) : Prop :=
  ∃ k', f k pre.length = some k' ∧ LeavesOut k pre e post k'

/-- The word at the place of the entry once the tail has been moved: the first word of the next
entry, and of the entry itself when it was the last one. -/
theorem word_after_move (hval : k.val = pre ++ e.words ++ post) :
    (pre ++ post ++ k.mem.drop (pre.length + post.length))[pre.length]? =
      some (post.head?.getD e.head) := by
  cases post with
  | nil =>
    have hmem : k.mem = pre ++ (e.words ++ k.mem.drop k.valU64s) := by
      rw [← List.append_assoc, ← List.append_nil (pre ++ e.words), ← hval]
      exact k.mem_eq
    rw [hmem]
    simp [Entry.words]
  | cons w post => simp

/-- What `bch2_bkey_extent_entry_drop` does goes by the size of the entry behind. -/
theorem bch2BkeyExtentEntryDrop_eq (hk : k.WF) (hval : k.val = pre ++ e.words ++ post) :
    bch2BkeyExtentEntryDrop k pre.length =
      (extentEntryU64s (post.head?.getD e.head)).map fun u64s => { k with
        mem := pre ++ post ++ k.mem.drop (pre.length + post.length)
        u64s := wrappingSub8 k.u64s u64s } := by
  have hmem : k.mem = pre ++ e.words ++ (post ++ k.mem.drop k.valU64s) := by
    rw [← List.append_assoc, ← hval]
    exact k.mem_eq
  rw [bch2BkeyExtentEntryDrop, extentEntryNext_at hmem, Option.bind_eq_bind, Option.bind_some,
    moveTail_at hk hval, Option.bind_eq_bind, Option.bind_some, word_after_move hval,
    Option.bind_eq_bind, Option.bind_some]
  cases extentEntryU64s (post.head?.getD e.head) <;> rfl

theorem bch2BkeyExtentEntryDropS_eq (k : MemKey) (entry : ℕ) :
    bch2BkeyExtentEntryDropS k entry = bch2BkeyExtentEntryDrop k entry := rfl

/-- The functions that read the size behind the move take out the entry, and agree with
`extent_entry_drop`, exactly when nothing follows the entry or an entry of its own size. -/
theorem extentEntryDrops_agree_iff (hk : k.WF) (htype : k.type ≠ keyTypeStripe)
    (hval : k.val = pre ++ e.words ++ post) :
    (DropsEntry bch2BkeyExtentEntryDrop k pre e post ∧
      DropsEntry bch2BkeyExtentEntryDropS k pre e post ∧
      bch2BkeyExtentEntryDrop k pre.length = extentEntryDrop k pre.length ∧
      bch2BkeyExtentEntryDropS k pre.length = extentEntryDrop k pre.length) ↔
    ∀ w, post.head? = some w → extentEntryU64s w = some e.u64s := by
  have hle : e.u64s + bkeyU64s ≤ k.u64s := by
    have hu64s := hk.u64s_eq
    rw [hval, List.length_append, List.length_append, e.length_words] at hu64s
    omega
  have hdrop := bch2BkeyExtentEntryDrop_eq hk hval
  constructor
  · rintro ⟨⟨k', hk', hleaves⟩, -⟩ w hw
    rw [hdrop, hw, Option.getD_some] at hk'
    obtain ⟨n, hn, rfl⟩ := Option.map_eq_some_iff.mp hk'
    have hbounds := extentEntryU64s_bounds hn
    have hu64s := hleaves.u64s
    have hpos : 1 ≤ e.u64s := Nat.succ_le_succ (Nat.zero_le _)
    rw [wrappingSub8_eq hk.lt (by rw [bkeyU64s] at hle; omega)] at hu64s
    change k.u64s - n + e.u64s = k.u64s at hu64s
    rw [hn, Option.some.injEq]
    rw [bkeyU64s] at hle
    omega
  · intro hsize
    have hnext : extentEntryU64s (post.head?.getD e.head) = some e.u64s := by
      cases hpost : post.head? with
      | none => exact e.sized
      | some w => exact hsize w hpost
    obtain ⟨k', hk', hleaves⟩ := extentEntryDrop_spec hk htype hval
    have hsame : bch2BkeyExtentEntryDrop k pre.length = extentEntryDrop k pre.length := by
      have hmem : k.mem = pre ++ e.words ++ (post ++ k.mem.drop k.valU64s) := by
        rw [← List.append_assoc, ← hval]
        exact k.mem_eq
      rw [hdrop, hnext, extentEntryDrop, extentEntryNext_at hmem, Option.bind_eq_bind,
        Option.bind_some, if_neg htype, moveTail_at hk hval, Option.bind_eq_bind,
        Option.bind_some, Nat.add_sub_cancel_left]
      rfl
    have hdrops : DropsEntry bch2BkeyExtentEntryDrop k pre e post :=
      ⟨k', hsame.trans hk', hleaves⟩
    exact ⟨hdrops, hdrops, hsame, hsame⟩

end Drop

/-- A crc entry of two words. -/
def crc64Entry : Entry := ⟨2 ^ 2, [0], by decide⟩

/-- A pointer. -/
def ptrEntry : Entry := ⟨1, [], by decide⟩

/-- An extent with a crc of two words in front of a pointer. -/
def crcPtrKey : MemKey where
  p := ⟨1, 8, 0⟩
  type := keyTypeExtent
  size := 8
  u64s := 8
  mem := crc64Entry.words ++ ptrEntry.words

/-- Once the crc is gone, the key still has a word too many. -/
theorem extentEntryDrop_crcPtrKey : crcPtrKey.WF ∧ crcPtrKey.type ≠ keyTypeStripe ∧
    crcPtrKey.val = [] ++ crc64Entry.words ++ ptrEntry.words ∧
      ¬DropsEntry bch2BkeyExtentEntryDrop crcPtrKey [] crc64Entry ptrEntry.words := by
  refine ⟨⟨by decide, by decide, by decide⟩, by decide, by decide, ?_⟩
  rintro ⟨k', hk', hleaves⟩
  have hrun : bch2BkeyExtentEntryDrop crcPtrKey 0 =
      some { crcPtrKey with mem := [1, 0, 1], u64s := 7 } := by decide
  rw [List.length_nil, hrun, Option.some.injEq] at hk'
  have hu64s := hleaves.u64s
  rw [← hk'] at hu64s
  exact absurd hu64s (by decide)

/-- A pointer in front of another one. -/
theorem extentEntryDrops_agree_ptrs :
    DropsEntry bch2BkeyExtentEntryDrop
      { crcPtrKey with u64s := 7, mem := ptrEntry.words ++ ptrEntry.words } [] ptrEntry
      ptrEntry.words := by
  have hwf : MemKey.WF { crcPtrKey with u64s := 7, mem := ptrEntry.words ++ ptrEntry.words } :=
    ⟨by decide, by decide, by decide⟩
  refine ((extentEntryDrops_agree_iff hwf (by decide) (by decide)).mpr ?_).1
  intro w hw
  rw [← Option.some.inj hw]
  decide

end Subvol

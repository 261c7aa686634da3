import Mathlib.Algebra.BigOperators.Group.List.Basic
import Subvol.Btree.Pack
import Subvol.Journal.Types
import Subvol.Lib.Words

/-!
# Entries of btree keys at recovery

Before keys are replayed, the early pass over a record goes through every entry of btree keys. It
cuts the entry off at the first place where no key can be, and takes keys out that are in another
format than the current one. What becomes free at the end of the entry is made empty entries. The
later passes walk over the keys that are left.

The early pass takes every size but zero for a key that fits, the later ones want a whole `bkey`.
They agree on the entries whose remaining keys have no fewer words than a `bkey`.

## Main definitions

* `journalEntryBtreeKeysValidate`: the check of one entry.
* `payloadKeys`, `currentKeys`: the keys of the longest prefix that splits, and those that are kept.
* `jsetEntries`, `earlyPass`: the walk over the entries of a record.
* `entryKeysWalk`: the walk of the later passes over the keys of an entry.

## Main results

* `splits_payloadKeys`, `Splits.isPrefix`: the keys of a payload are the longest row of keys that
  its front splits into.
* `journalEntryBtreeKeysValidate_image`: what is left of an entry.
* `jsetEntries_shrunk`: which entries a record has then.
* `journalEntryBtreeKeysValidate_iff`: when the later passes take all that is left.
-/

namespace Subvol

open Lib

/-! ### Header words -/

/-- `jset_u64s`: an entry has a header word. -/
def jsetU64s (payloadU64s : ℕ) : ℕ := 1 + payloadU64s

/-- `(*key).k.u64s`, the first byte of a `bkey`. -/
def keyWordU64s (w : UInt64) : ℕ := field 0 8 w.toNat

/-- `(*key).k.format`, the second byte of a `bkey`. -/
def keyWordFormat (w : UInt64) : ℕ := field 8 8 w.toNat

/-- The header word of an entry with another `u64s`. -/
def withEntryU64s (w : UInt64) (n : ℕ) : UInt64 :=
  UInt64.ofBitVec (setField 0 16 (n % 2 ^ 16) w.toBitVec)

theorem entryU64s_lt (w : UInt64) : entryU64s w < 2 ^ 16 := Nat.mod_lt _ (by decide)

theorem entryU64s_eq_field (w : UInt64) : entryU64s w = field 0 16 w.toBitVec.toNat := by
  rw [entryU64s, field, Nat.pow_zero, Nat.div_one, UInt64.toNat_toBitVec]

theorem entryType_eq_field (w : UInt64) : entryType w = field 32 8 w.toBitVec.toNat := rfl

theorem entryU64s_withEntryU64s {n : ℕ} (w : UInt64) (hn : n < 2 ^ 16) :
    entryU64s (withEntryU64s w n) = n := by
  rw [entryU64s_eq_field, withEntryU64s, UInt64.toBitVec_ofBitVec,
    field_setField_self (by decide) (Nat.mod_lt _ (by decide)), Nat.mod_eq_of_lt hn]

theorem entryType_withEntryU64s (w : UInt64) (n : ℕ) :
    entryType (withEntryU64s w n) = entryType w := by
  rw [entryType_eq_field, withEntryU64s, UInt64.toBitVec_ofBitVec,
    field_setField_of_disjoint (.inr (by decide)) (by decide) (Nat.mod_lt _ (by decide)),
    ← entryType_eq_field]

/-- Only the last `u64s` that was written counts. -/
theorem withEntryU64s_withEntryU64s (w : UInt64) (n m : ℕ) :
    withEntryU64s (withEntryU64s w n) m = withEntryU64s w m := by
  rw [withEntryU64s, withEntryU64s, withEntryU64s, UInt64.toBitVec_ofBitVec,
    setField_setField (Nat.mod_lt _ (by decide)) (Nat.mod_lt _ (by decide))]

/-- Writing the `u64s` that is there changes nothing. -/
theorem withEntryU64s_self (w : UInt64) : withEntryU64s w (entryU64s w) = w := by
  rw [withEntryU64s, Nat.mod_eq_of_lt (entryU64s_lt w), entryU64s_eq_field,
    setField_field, UInt64.ofBitVec_toBitVec]

/-! ### The check of an entry -/

/-- `journal_entry_null_range`: empty entries, one after the other, from `entry` to `stop`. The
first argument bounds their number. -/
def journalEntryNullRange : ℕ → List UInt64 → ℕ → ℕ → Option (List UInt64)
  | 0, _, _, _ => none
  | fuel + 1, mem, entry, stop =>
    if entry = stop then some mem
    else do
      let mem ← writeWords mem entry [0]
      journalEntryNullRange fuel mem (entry + jsetU64s 0) stop

/-- Write `u64s` of an entry and make empty entries of what lies behind its payload. -/
def shrinkEntry (n : ℕ) (mem : List UInt64) (entry u64s stop : ℕ) : Option (List UInt64) := do
  let w ← mem[entry]?
  let mem ← writeWords mem entry [withEntryU64s w u64s]
  journalEntryNullRange n mem (entry + jsetU64s u64s) stop

/-- The loop of `journal_entry_btree_keys_validate`, for the key at an offset. -/
def validateKeys (n entry : ℕ) : ℕ → List UInt64 → ℕ → Option (List UInt64)
  | 0, _, _ => none
  | fuel + 1, mem, key => do
    let header ← mem[entry]?
    let start := entry + 1
    let stop := start + entryU64s header
    if stop ≤ key then some mem
    else if stop - key < bkeyU64s then shrinkEntry n mem entry (key - start) stop
    else do
      let w ← mem[key]?
      let keyU64s := keyWordU64s w
      if keyU64s = 0 ∨ stop < key + keyU64s then shrinkEntry n mem entry (key - start) stop
      else if keyWordFormat w ≠ keyFormatCurrent.toNat then do
        let next := key + keyU64s
        if mem.length < stop then none
        else do
          let mem ← shrinkEntry n (copyWords mem next key (stop - next)) entry
            (entryU64s header - keyU64s) stop
          validateKeys n entry fuel mem key
      else validateKeys n entry fuel mem (key + keyU64s)

/-- `journal_entry_btree_keys_validate` of the entry at an offset. The first argument bounds the
turns of both loops. -/
def journalEntryBtreeKeysValidate (n : ℕ) (mem : List UInt64) (entry : ℕ) :
    Option (List UInt64) :=
  validateKeys n entry n mem (entry + 1)

/-! ### The passes over a record -/

/-- The entries that the overlay and the replay pass of `bch2_journal_replay` visit from an offset
on, each with its place; `none` where a pass fails. The second argument bounds their number. -/
def jsetEntries (stop : ℕ) : ℕ → List UInt64 → ℕ → Option (List (ℕ × List UInt64))
  | 0, _, _ => none
  | fuel + 1, mem, offset =>
    if stop ≤ offset then some []
    else do
      let w ← mem[offset]?
      let actual := jsetU64s (entryU64s w)
      if actual = 0 ∨ stop < offset + actual then none
      else do
        let later ← jsetEntries stop fuel mem (offset + actual)
        some ((offset, (mem.drop offset).take actual) :: later)

/-- The early pass of `bch2_journal_replay`: the entries it visits, and the words it leaves. What it
does at an entry that is not one of btree keys is `other`. -/
def earlyPass (n : ℕ) (other : List UInt64 → ℕ → Option (List UInt64)) (stop : ℕ) :
    ℕ → List UInt64 → ℕ → Option (List (ℕ × List UInt64) × List UInt64)
  | 0, _, _ => none
  | fuel + 1, mem, offset =>
    if stop ≤ offset then some ([], mem)
    else do
      let w ← mem[offset]?
      -- the length is read before the entry is checked
      let actual := jsetU64s (entryU64s w)
      if actual = 0 ∨ stop < offset + actual then none
      else do
        let checked ← if entryType w = jsetEntryBtreeKeys
          then journalEntryBtreeKeysValidate n mem offset else other mem offset
        let (later, left) ← earlyPass n other stop fuel checked (offset + actual)
        some ((offset, (mem.drop offset).take actual) :: later, left)

/-- The loop of the overlay and the replay pass over the keys of the entry at an offset, where `f`
is what the pass does with a key. -/
def entryKeysWalk {σ : Type} (f : σ → List UInt64 → Except ℤ σ) (mem : List UInt64)
    (offset : ℕ) : ℕ → ℕ → σ → Option (Except ℤ σ)
  | 0, _, _ => none
  | fuel + 1, keyOffset, s => do
    let header ← mem[offset]?
    if entryU64s header ≤ keyOffset then some (.ok s)
    else
      let remaining := entryU64s header - keyOffset
      if remaining < bkeyU64s then some (.error (-3))
      else do
        let w ← mem[offset + 1 + keyOffset]?
        let keyU64s := keyWordU64s w
        if keyU64s < bkeyU64s ∨ remaining < keyU64s then some (.error (-3))
        else match f s ((mem.drop (offset + 1 + keyOffset)).take keyU64s) with
          | .error ret => some (.error ret)
          | .ok s => entryKeysWalk f mem offset fuel (keyOffset + keyU64s) s

/-! ### The keys of a payload -/

/-- What `journal_entry_btree_keys_validate` takes for a key at the front of some words. -/
def startsWithKey (ws : List UInt64) : Bool :=
  match ws with
  | [] => false
  | w :: _ => bkeyU64s ≤ ws.length && keyWordU64s w ≠ 0 && keyWordU64s w ≤ ws.length

/-- The number of words of the key at the front. -/
def frontU64s : List UInt64 → ℕ
  | [] => 0
  | w :: _ => keyWordU64s w

/-- The format of the key at the front. -/
def frontFormat : List UInt64 → ℕ
  | [] => 0
  | w :: _ => keyWordFormat w

/-- The keys of the longest prefix of a payload that splits into keys. The first argument bounds
their number. -/
def splitKeys : ℕ → List UInt64 → List (List UInt64)
  | 0, _ => []
  | fuel + 1, ws =>
    if startsWithKey ws then ws.take (frontU64s ws) :: splitKeys fuel (ws.drop (frontU64s ws))
    else []

/-- The keys of a payload. -/
def payloadKeys (ws : List UInt64) : List (List UInt64) := splitKeys ws.length ws

/-- The keys of a payload that are in the current format. -/
def currentKeys (ws : List UInt64) : List (List UInt64) :=
  (payloadKeys ws).filter fun key => frontFormat key = keyFormatCurrent.toNat

theorem frontU64s_of_startsWithKey {ws : List UInt64} (h : startsWithKey ws = true) :
    0 < frontU64s ws ∧ frontU64s ws ≤ ws.length ∧ bkeyU64s ≤ ws.length := by
  cases ws with
  | nil => simp [startsWithKey] at h
  | cons w ws =>
    simp only [startsWithKey, Bool.and_eq_true, decide_eq_true_eq] at h
    exact ⟨Nat.pos_of_ne_zero h.1.2, h.2, h.1.1⟩

theorem splitKeys_cons {fuel : ℕ} {ws : List UInt64} (h : startsWithKey ws = true) :
    splitKeys (fuel + 1) ws = ws.take (frontU64s ws) :: splitKeys fuel (ws.drop (frontU64s ws)) :=
  if_pos h

/-- Every bound that is at least the length gives all keys. -/
theorem splitKeys_eq {fuel : ℕ} {ws : List UInt64} (hfuel : ws.length ≤ fuel) :
    splitKeys fuel ws = payloadKeys ws := by
  rw [payloadKeys]
  generalize hn : ws.length = n at hfuel ⊢
  have hle : ws.length ≤ n := hn.le
  clear hn
  induction fuel generalizing ws n with
  | zero =>
    obtain rfl : n = 0 := by omega
    rfl
  | succ fuel ih =>
    cases hkey : startsWithKey ws with
    | false =>
      cases n with
      | zero => rw [splitKeys, splitKeys, hkey, if_neg Bool.false_ne_true]
      | succ n => rw [splitKeys, splitKeys, hkey, if_neg Bool.false_ne_true,
          if_neg Bool.false_ne_true]
    | true =>
      obtain ⟨hpos, hfits, -⟩ := frontU64s_of_startsWithKey hkey
      cases n with
      | zero => omega
      | succ n =>
        have hlen : (ws.drop (frontU64s ws)).length ≤ n := by
          rw [List.length_drop]
          omega
        rw [splitKeys_cons hkey, splitKeys_cons hkey, ih n (by omega) hlen]

theorem payloadKeys_of_not {ws : List UInt64} (h : startsWithKey ws = false) :
    payloadKeys ws = [] := by
  rw [payloadKeys]
  cases ws.length with
  | zero => rfl
  | succ n => rw [splitKeys, h, if_neg Bool.false_ne_true]

theorem payloadKeys_append {key rest : List UInt64} (h : startsWithKey (key ++ rest) = true)
    (hkey : frontU64s (key ++ rest) = key.length) :
    payloadKeys (key ++ rest) = key :: payloadKeys rest := by
  obtain ⟨hpos, hfits, -⟩ := frontU64s_of_startsWithKey h
  have hlen : (key ++ rest).length = (key.length - 1 + rest.length) + 1 := by
    rw [List.length_append]
    omega
  rw [payloadKeys, hlen, splitKeys_cons h, hkey, List.take_left, List.drop_left,
    splitKeys_eq (Nat.le_add_left ..)]

/-- A payload whose front splits into the given keys. -/
inductive Splits : List UInt64 → List (List UInt64) → Prop
  | nil (ws : List UInt64) : Splits ws []
  | cons {key rest : List UInt64} {keys : List (List UInt64)}
      (hstart : startsWithKey (key ++ rest) = true)
      (hkey : frontU64s (key ++ rest) = key.length) (hrest : Splits rest keys) :
      Splits (key ++ rest) (key :: keys)

/-- The words at the front that a key begins and the rest. -/
theorem exists_frontKey {ws : List UInt64} (h : startsWithKey ws = true) :
    ∃ key rest, ws = key ++ rest ∧ frontU64s (key ++ rest) = key.length ∧ 0 < key.length := by
  obtain ⟨hpos, hfits, -⟩ := frontU64s_of_startsWithKey h
  have hlen : (ws.take (frontU64s ws)).length = frontU64s ws := List.length_take_of_le hfits
  refine ⟨ws.take (frontU64s ws), ws.drop (frontU64s ws), (List.take_append_drop ..).symm, ?_,
    ?_⟩
  · rw [List.take_append_drop, hlen]
  · omega

/-- The keys of a payload split its front. -/
theorem splits_payloadKeys (ws : List UInt64) : Splits ws (payloadKeys ws) := by
  induction hn : ws.length using Nat.strong_induction_on generalizing ws with
  | _ n ih =>
    cases hstart : startsWithKey ws with
    | false =>
      rw [payloadKeys_of_not hstart]
      exact .nil ws
    | true =>
      obtain ⟨key, rest, rfl, hkey, hpos⟩ := exists_frontKey hstart
      rw [List.length_append] at hn
      rw [payloadKeys_append hstart hkey]
      exact .cons hstart hkey (ih rest.length (by omega) rest rfl)

/-- No way to split the front of a payload goes on behind its keys. -/
theorem Splits.isPrefix {ws : List UInt64} {keys : List (List UInt64)} (h : Splits ws keys) :
    keys <+: payloadKeys ws := by
  induction h with
  | nil ws => exact List.nil_prefix
  | cons hstart hkey _ ih =>
    rw [payloadKeys_append hstart hkey]
    exact (List.prefix_cons_inj _).mpr ih

/-! ### What the check leaves -/

/-- A piece of a record: what stands before an entry, its header with the length of the payload,
the payload, empty entries, and what stands behind them. -/
def entryImage (pre : List UInt64) (w : UInt64) (body : List UInt64) (empty : ℕ)
    (rest : List UInt64) : List UInt64 :=
  pre ++ withEntryU64s w body.length :: (body ++ (List.replicate empty 0 ++ rest))

theorem journalEntryNullRange_at {n : ℕ} (a r : List UInt64) {junk : List UInt64}
    (hn : junk.length < n) :
    journalEntryNullRange n (a ++ (junk ++ r)) a.length (a.length + junk.length) =
      some (a ++ (List.replicate junk.length 0 ++ r)) := by
  induction junk generalizing n a with
  | nil =>
    cases n with
    | zero => cases hn
    | succ n => simp [journalEntryNullRange]
  | cons x junk ih =>
    cases n with
    | zero => cases hn
    | succ n =>
      have hne : ¬a.length = a.length + (x :: junk).length := by
        rw [List.length_cons]
        omega
      have hword : writeWords (a ++ (x :: junk ++ r)) a.length [0] =
          some ((a ++ [0]) ++ (junk ++ r)) := by
        have hsplit : a ++ (x :: junk ++ r) = a ++ [x] ++ (junk ++ r) := by simp
        have hone : [(0 : UInt64)].length = [x].length := rfl
        rw [hsplit, writeWords_over _ _ hone]
      have hnext : a.length + jsetU64s 0 = (a ++ [0]).length := by
        rw [List.length_append]
        rfl
      have hstop : a.length + (x :: junk).length = (a ++ [0]).length + junk.length := by
        rw [List.length_append, List.length_cons, List.length_singleton]
        omega
      have hrange := ih (a ++ [0]) (Nat.lt_of_succ_lt_succ hn)
      rw [journalEntryNullRange, if_neg hne, hword, Option.bind_eq_bind, Option.bind_some, hnext,
        hstop, hrange, List.length_cons, List.replicate_succ]
      simp

/-- The payload is cut to its front, and empty entries take the place of the rest. -/
theorem shrinkEntry_at {n m z : ℕ} {w : UInt64} {pre body junk rest : List UInt64}
    (hn : junk.length < n) :
    shrinkEntry n (pre ++ withEntryU64s w m :: (body ++ (junk ++ (List.replicate z 0 ++ rest))))
        pre.length body.length (pre.length + 1 + (body.length + junk.length)) =
      some (entryImage pre w body (junk.length + z) rest) := by
  let front := pre ++ withEntryU64s w body.length :: body
  have hword : writeWords
      (pre ++ withEntryU64s w m :: (body ++ (junk ++ (List.replicate z 0 ++ rest)))) pre.length
        [withEntryU64s (withEntryU64s w m) body.length] =
      some (front ++ (junk ++ (List.replicate z 0 ++ rest))) := by
    have hsplit : pre ++ withEntryU64s w m :: (body ++ (junk ++ (List.replicate z 0 ++ rest))) =
        pre ++ [withEntryU64s w m] ++ (body ++ (junk ++ (List.replicate z 0 ++ rest))) := by simp
    rw [hsplit, withEntryU64s_withEntryU64s]
    have hone : [withEntryU64s w body.length].length = [withEntryU64s w m].length := rfl
    rw [writeWords_over _ _ hone]
    simp [front]
  have hheader : (pre ++ withEntryU64s w m :: (body ++ (junk ++ (List.replicate z 0 ++ rest))))[
      pre.length]? = some (withEntryU64s w m) := by simp
  have hfirst : pre.length + jsetU64s body.length = front.length := by
    simp only [front, jsetU64s, List.length_append, List.length_cons]
    omega
  have hstop : pre.length + 1 + (body.length + junk.length) = front.length + junk.length := by
    simp only [front, List.length_append, List.length_cons]
    omega
  rw [shrinkEntry, hheader, Option.bind_eq_bind, Option.bind_some, hword, Option.bind_eq_bind,
    Option.bind_some, hfirst, hstop, journalEntryNullRange_at front _ hn, entryImage,
    List.replicate_add]
  simp only [front, List.append_assoc, List.cons_append]

theorem currentKeys_of_not {ws : List UInt64} (h : startsWithKey ws = false) :
    currentKeys ws = [] := by
  rw [currentKeys, payloadKeys_of_not h, List.filter_nil]

theorem frontFormat_append {key rest : List UInt64} (hpos : 0 < key.length) :
    frontFormat (key ++ rest) = frontFormat key := by
  cases key with
  | nil => cases hpos
  | cons w key => rfl

theorem currentKeys_append {key rest : List UInt64} (hstart : startsWithKey (key ++ rest) = true)
    (hkey : frontU64s (key ++ rest) = key.length) :
    currentKeys (key ++ rest) =
      if frontFormat key = keyFormatCurrent.toNat then key :: currentKeys rest
      else currentKeys rest := by
  rw [currentKeys, payloadKeys_append hstart hkey, List.filter_cons]
  by_cases hformat : frontFormat key = keyFormatCurrent.toNat
  · rw [if_pos (decide_eq_true hformat), if_pos hformat, currentKeys]
  · rw [if_neg (by simpa using hformat), if_neg hformat, currentKeys]

theorem length_currentKeys_le (ws : List UInt64) : (currentKeys ws).flatten.length ≤ ws.length := by
  induction hn : ws.length using Nat.strong_induction_on generalizing ws with
  | _ n ih =>
    cases hstart : startsWithKey ws with
    | false =>
      rw [currentKeys_of_not hstart]
      exact Nat.zero_le _
    | true =>
      obtain ⟨key, rest, rfl, hkey, hpos⟩ := exists_frontKey hstart
      rw [List.length_append] at hn
      have hrest := ih rest.length (by omega) rest rfl
      rw [currentKeys_append hstart hkey]
      split_ifs with hformat
      · rw [List.flatten_cons, List.length_append]
        omega
      · omega

/-- The first word of an entry in its image. -/
theorem getElem?_entryImage (pre : List UInt64) (w : UInt64) (body : List UInt64) (z : ℕ)
    (rest : List UInt64) :
    (entryImage pre w body z rest)[pre.length]? = some (withEntryU64s w body.length) := by
  simp [entryImage]

/-- The word of an entry in its image where the check has come to. -/
theorem getElem?_entryImage_todo (pre : List UInt64) (w x : UInt64) (done todo : List UInt64)
    (z : ℕ) (rest : List UInt64) :
    (entryImage pre w (done ++ x :: todo) z rest)[pre.length + 1 + done.length]? = some x := by
  have hsplit : entryImage pre w (done ++ x :: todo) z rest =
      (pre ++ withEntryU64s w (done ++ x :: todo).length :: done) ++
        x :: (todo ++ (List.replicate z 0 ++ rest)) := by simp [entryImage]
  have hlen : pre.length + 1 + done.length =
      (pre ++ withEntryU64s w (done ++ x :: todo).length :: done).length := by
    rw [List.length_append, List.length_cons]
    omega
  rw [hsplit, hlen]
  simp

/-- One turn of the loop at words that no key begins: the payload ends here. -/
theorem validateKeys_of_not {n fuel z : ℕ} {w : UInt64} {pre done todo rest : List UInt64}
    (hn : todo.length < n) (hlt : done.length + todo.length < 2 ^ 16)
    (hstart : startsWithKey todo = false) :
    validateKeys n pre.length (fuel + 1) (entryImage pre w (done ++ todo) z rest)
        (pre.length + 1 + done.length) =
      some (entryImage pre w done (todo.length + z) rest) := by
  have hheader := getElem?_entryImage pre w (done ++ todo) z rest
  have hu64s : entryU64s (withEntryU64s w (done ++ todo).length) = done.length + todo.length := by
    rw [List.length_append, entryU64s_withEntryU64s w hlt]
  have hshrink : shrinkEntry n (entryImage pre w (done ++ todo) z rest) pre.length
      (pre.length + 1 + done.length - (pre.length + 1))
      (pre.length + 1 + (done.length + todo.length)) =
        some (entryImage pre w done (todo.length + z) rest) := by
    rw [Nat.add_sub_cancel_left, entryImage, List.append_assoc]
    exact shrinkEntry_at hn
  rw [validateKeys, hheader, Option.bind_eq_bind, Option.bind_some]
  simp only [hu64s]
  cases todo with
  | nil =>
    rw [if_pos (by simp), List.append_nil]
    simp
  | cons x todo =>
    rw [List.length_cons] at hshrink ⊢
    rw [if_neg (by omega)]
    by_cases hshort : pre.length + 1 + (done.length + (todo.length + 1)) -
        (pre.length + 1 + done.length) < bkeyU64s
    · rw [if_pos hshort, hshrink]
    · have hword := getElem?_entryImage_todo pre w x done todo z rest
      rw [if_neg hshort, hword, Option.bind_eq_bind, Option.bind_some, if_pos, hshrink]
      simp only [startsWithKey, List.length_cons, Bool.and_eq_false_iff,
        decide_eq_false_iff_not] at hstart
      rcases hstart with (hless | hzero) | hlong
      · omega
      · exact .inl (not_not.mp hzero)
      · right
        omega

/-- One turn of the loop at a key: it is passed over, or taken out of the payload. -/
theorem validateKeys_of_key {n fuel z : ℕ} {w : UInt64} {pre done key todo rest : List UInt64}
    (hn : key.length < n) (hlt : done.length + (key.length + todo.length) < 2 ^ 16)
    (hstart : startsWithKey (key ++ todo) = true)
    (hkey : frontU64s (key ++ todo) = key.length) :
    validateKeys n pre.length (fuel + 1) (entryImage pre w (done ++ (key ++ todo)) z rest)
        (pre.length + 1 + done.length) =
      if frontFormat key = keyFormatCurrent.toNat then
        validateKeys n pre.length fuel (entryImage pre w (done ++ key ++ todo) z rest)
          (pre.length + 1 + (done ++ key).length)
      else
        validateKeys n pre.length fuel (entryImage pre w (done ++ todo) (key.length + z) rest)
          (pre.length + 1 + done.length) := by
  obtain ⟨hpos, -, hwhole⟩ := frontU64s_of_startsWithKey hstart
  rw [hkey] at hpos
  rw [List.length_append] at hwhole
  have hheader := getElem?_entryImage pre w (done ++ (key ++ todo)) z rest
  have hu64s : entryU64s (withEntryU64s w (done ++ (key ++ todo)).length) =
      done.length + (key.length + todo.length) := by
    rw [List.length_append, List.length_append, entryU64s_withEntryU64s w hlt]
  obtain ⟨x, key', rfl⟩ : ∃ x key', key = x :: key' := List.exists_cons_of_length_pos hpos
  have hword := getElem?_entryImage_todo pre w x done (key' ++ todo) z rest
  rw [← List.cons_append] at hword
  generalize hkeyeq : x :: key' = key at *
  have hxu64s : keyWordU64s x = key.length := by
    rw [← hkey, ← hkeyeq]
    rfl
  have hxformat : keyWordFormat x = frontFormat key := by
    rw [← hkeyeq]
    rfl
  have hover : ¬pre.length + 1 + (done.length + (key.length + todo.length)) ≤
      pre.length + 1 + done.length := by omega
  have hlong : ¬pre.length + 1 + (done.length + (key.length + todo.length)) -
      (pre.length + 1 + done.length) < bkeyU64s := by omega
  have hfits : ¬(key.length = 0 ∨ pre.length + 1 + (done.length + (key.length + todo.length)) <
      pre.length + 1 + done.length + key.length) := by omega
  rw [validateKeys, hheader, Option.bind_eq_bind, Option.bind_some]
  simp only [hu64s]
  rw [if_neg hover, if_neg hlong, hword, Option.bind_eq_bind, Option.bind_some]
  simp only [hxu64s, hxformat]
  rw [if_neg hfits]
  by_cases hformat : frontFormat key = keyFormatCurrent.toNat
  · have hnext : pre.length + 1 + (done ++ key).length =
        pre.length + 1 + done.length + key.length := by
      rw [List.length_append]
      omega
    rw [if_neg (not_not.mpr hformat), if_pos hformat, hnext, List.append_assoc done]
  · -- what lies behind the key is moved over it, its words become empty entries
    let header := withEntryU64s w (done ++ (key ++ todo)).length
    obtain ⟨junk, hjunk, hmoved⟩ := @copyWords_close _ (pre ++ header :: done) key todo
      (List.replicate z 0 ++ rest)
    have himage : entryImage pre w (done ++ (key ++ todo)) z rest =
        pre ++ header :: done ++ key ++ todo ++ (List.replicate z 0 ++ rest) := by
      simp [entryImage, header]
    have hfront : (pre ++ header :: done).length = pre.length + 1 + done.length := by
      rw [List.length_append, List.length_cons]
      omega
    have hroom : ¬(entryImage pre w (done ++ (key ++ todo)) z rest).length <
        pre.length + 1 + (done.length + (key.length + todo.length)) := by
      rw [himage]
      simp only [List.length_append, List.length_cons]
      omega
    have hcount : pre.length + 1 + (done.length + (key.length + todo.length)) -
        (pre.length + 1 + done.length + key.length) = todo.length := by omega
    have hleft : done.length + (key.length + todo.length) - key.length =
        (done ++ todo).length := by
      rw [List.length_append]
      omega
    have hstop : pre.length + 1 + (done.length + (key.length + todo.length)) =
        pre.length + 1 + ((done ++ todo).length + junk.length) := by
      rw [List.length_append]
      omega
    have hshape : pre ++ header :: done ++ todo ++ junk ++ (List.replicate z 0 ++ rest) =
        pre ++ header :: ((done ++ todo) ++ (junk ++ (List.replicate z 0 ++ rest))) := by simp
    rw [if_pos hformat, if_neg hroom, if_neg hformat, hcount, hleft, himage, ← hfront, hmoved,
      hshape, hstop, shrinkEntry_at (by omega), hjunk]
    rfl

/-- What the check makes of an entry, from the key it has come to. -/
theorem validateKeys_image {n fuel z : ℕ} {w : UInt64} {pre done todo rest : List UInt64}
    (hfuel : todo.length < fuel) (hn : todo.length < n)
    (hlt : done.length + todo.length < 2 ^ 16) :
    validateKeys n pre.length fuel (entryImage pre w (done ++ todo) z rest)
        (pre.length + 1 + done.length) =
      some (entryImage pre w (done ++ (currentKeys todo).flatten)
        (z + (todo.length - (currentKeys todo).flatten.length)) rest) := by
  induction fuel generalizing done todo z with
  | zero => cases hfuel
  | succ fuel ih =>
    cases hstart : startsWithKey todo with
    | false =>
      rw [validateKeys_of_not hn hlt hstart, currentKeys_of_not hstart, List.flatten_nil,
        List.append_nil, List.length_nil, Nat.sub_zero, Nat.add_comm]
    | true =>
      obtain ⟨key, todo, rfl, hkey, hpos⟩ := exists_frontKey hstart
      have hle := length_currentKeys_le todo
      rw [List.length_append] at hfuel hn hlt
      have hboth : (key ++ todo).length = key.length + todo.length := List.length_append
      rw [validateKeys_of_key (by omega) hlt hstart hkey, currentKeys_append hstart hkey, hboth]
      split_ifs with hformat
      · have hdone : (done ++ key).length + todo.length < 2 ^ 16 := by
          rw [List.length_append]
          omega
        have hempty : key.length + todo.length - (key :: currentKeys todo).flatten.length =
            todo.length - (currentKeys todo).flatten.length := by
          rw [List.flatten_cons, List.length_append]
          omega
        rw [ih (by omega) (by omega) hdone, hempty, List.flatten_cons, List.append_assoc]
      · have hempty : key.length + z + (todo.length - (currentKeys todo).flatten.length) =
            z + (key.length + todo.length - (currentKeys todo).flatten.length) := by omega
        rw [ih (by omega) (by omega) (by omega), hempty]

/-- What the check makes of an entry: the kept keys, and empty entries in place of the others. -/
theorem journalEntryBtreeKeysValidate_image {n : ℕ} {w : UInt64}
    {pre payload rest : List UInt64} (hw : entryU64s w = payload.length)
    (hn : payload.length < n) :
    journalEntryBtreeKeysValidate n (pre ++ w :: (payload ++ rest)) pre.length =
      some (entryImage pre w (currentKeys payload).flatten
        (payload.length - (currentKeys payload).flatten.length) rest) := by
  have himage : pre ++ w :: (payload ++ rest) = entryImage pre w ([] ++ payload) 0 rest := by
    rw [entryImage, List.nil_append, ← hw, withEntryU64s_self]
    simp
  have hlt := entryU64s_lt w
  have hrun := @validateKeys_image n n 0 w pre [] payload rest hn hn (by
    rw [List.length_nil]
    omega)
  rw [List.nil_append] at hrun
  rw [journalEntryBtreeKeysValidate, himage]
  rw [Nat.zero_add] at hrun
  exact hrun

/-! ### The passes afterwards -/

/-- Empty entries from an offset on, as a pass visits them. -/
def emptyEntries (offset n : ℕ) : List (ℕ × List UInt64) :=
  (List.range' offset n).map fun i => (i, [0])

/-- Every bound that is at least the number of words gives the same entries. -/
theorem jsetEntries_fuel {stop fuel fuel' offset : ℕ} {mem : List UInt64}
    (h : stop - offset < fuel) (h' : stop - offset < fuel') :
    jsetEntries stop fuel mem offset = jsetEntries stop fuel' mem offset := by
  induction fuel generalizing fuel' offset with
  | zero => cases h
  | succ fuel ih =>
    cases fuel' with
    | zero => cases h'
    | succ fuel' =>
      by_cases hstop : stop ≤ offset
      · rw [jsetEntries, jsetEntries, if_pos hstop, if_pos hstop]
      · rw [jsetEntries, jsetEntries, if_neg hstop, if_neg hstop]
        cases mem[offset]? with
        | none => rfl
        | some w =>
          have hpos : 0 < jsetU64s (entryU64s w) := by
            rw [jsetU64s]
            omega
          have hlater := @ih fuel' (offset + jsetU64s (entryU64s w)) (by omega) (by omega)
          simp only [Option.bind_eq_bind, Option.bind_some, hlater]

/-- The entries from an offset on depend on the words from there on alone. -/
theorem jsetEntries_append (stop fuel i : ℕ) {a b : List UInt64} (r : List UInt64)
    (hlen : a.length = b.length) :
    jsetEntries stop fuel (a ++ r) (a.length + i) =
      jsetEntries stop fuel (b ++ r) (a.length + i) := by
  induction fuel generalizing i with
  | zero => rfl
  | succ fuel ih =>
    have hword : (a ++ r)[a.length + i]? = (b ++ r)[a.length + i]? := by
      rw [List.getElem?_append_right (Nat.le_add_right ..), hlen,
        List.getElem?_append_right (Nat.le_add_right ..)]
    have hdrop : (a ++ r).drop (a.length + i) = (b ++ r).drop (a.length + i) := by
      rw [← List.drop_drop, List.drop_left, hlen, ← List.drop_drop, List.drop_left]
    rw [jsetEntries, jsetEntries, hword, hdrop]
    simp only [Nat.add_assoc, ih]

/-- A pass goes over empty entries one after the other. -/
theorem jsetEntries_empty {stop fuel n : ℕ} {a r : List UInt64} (hstop : a.length + n ≤ stop) :
    jsetEntries stop (fuel + n) (a ++ (List.replicate n 0 ++ r)) a.length =
      (jsetEntries stop fuel (a ++ (List.replicate n 0 ++ r)) (a.length + n)).map
        (emptyEntries a.length n ++ ·) := by
  induction n generalizing a with
  | zero => simp [emptyEntries]
  | succ n ih =>
    have hshape : a ++ (List.replicate (n + 1) 0 ++ r) =
        (a ++ [0]) ++ (List.replicate n 0 ++ r) := by
      rw [List.replicate_succ]
      simp
    have hnext : a.length + 1 = (a ++ [(0 : UInt64)]).length := by
      rw [List.length_append]
      rfl
    have hlater := @ih (a ++ [0]) (by omega)
    have hword : (a ++ (List.replicate (n + 1) 0 ++ r))[a.length]? = some 0 := by
      rw [List.replicate_succ]
      simp
    have hentry : ((a ++ (List.replicate (n + 1) 0 ++ r)).drop a.length).take 1 = [0] := by
      rw [List.drop_left, List.replicate_succ]
      rfl
    have hactual : jsetU64s (entryU64s 0) = 1 := by decide
    have hinside : ¬(1 = 0 ∨ stop < a.length + 1) := by omega
    have hempty : emptyEntries a.length (n + 1) =
        (a.length, [0]) :: emptyEntries (a.length + 1) n := by
      rw [emptyEntries, List.range'_succ]
      rfl
    rw [← Nat.add_assoc, jsetEntries, if_neg (by omega), hword, Option.bind_eq_bind,
      Option.bind_some, hactual, if_neg hinside, hentry, hempty, hshape, hnext, hlater]
    have hend : a.length + (n + 1) = (a ++ [(0 : UInt64)]).length + n := by omega
    rw [hend]
    cases jsetEntries stop fuel (a ++ [0] ++ (List.replicate n 0 ++ r))
      ((a ++ [0]).length + n) with
    | none => rfl
    | some later => rfl

/-- The later passes visit the entry with what is left of its payload, the empty entries, and then
what stood behind the entry before. -/
theorem jsetEntries_shrunk {stop fuel z : ℕ} {w : UInt64} {pre body rest : List UInt64}
    (hlt : body.length < 2 ^ 16) (hstop : pre.length + 1 + (body.length + z) ≤ stop)
    (hfuel : stop < fuel) :
    jsetEntries stop fuel (entryImage pre w body z rest) pre.length =
      (jsetEntries stop fuel (entryImage pre w body z rest)
        (pre.length + 1 + (body.length + z))).map fun later =>
          (pre.length, withEntryU64s w body.length :: body) ::
            (emptyEntries (pre.length + 1 + body.length) z ++ later) := by
  let front := pre ++ withEntryU64s w body.length :: body
  have hfront : front.length = pre.length + 1 + body.length := by
    simp only [front, List.length_append, List.length_cons]
    omega
  have himage : entryImage pre w body z rest = front ++ (List.replicate z 0 ++ rest) := by
    simp [entryImage, front]
  have hactual : jsetU64s (entryU64s (withEntryU64s w body.length)) = 1 + body.length := by
    rw [entryU64s_withEntryU64s w hlt, jsetU64s]
  have hinside : ¬(1 + body.length = 0 ∨ stop < pre.length + (1 + body.length)) := by omega
  have hentry : ((entryImage pre w body z rest).drop pre.length).take (1 + body.length) =
      withEntryU64s w body.length :: body := by
    rw [entryImage, List.drop_left, Nat.add_comm, List.take_succ_cons, List.take_left]
  have hrest : jsetEntries stop (fuel - 1) (entryImage pre w body z rest)
      (pre.length + (1 + body.length)) =
        (jsetEntries stop fuel (entryImage pre w body z rest)
          (pre.length + 1 + (body.length + z))).map
            (emptyEntries (pre.length + 1 + body.length) z ++ ·) := by
    have hat : pre.length + (1 + body.length) = front.length := by omega
    have hend : pre.length + 1 + (body.length + z) = front.length + z := by omega
    rw [hat, hend, ← hfront, himage,
      @jsetEntries_fuel stop (fuel - 1) (fuel + z) front.length _ (by omega) (by omega),
      jsetEntries_empty (by omega)]
  obtain ⟨fuel, rfl⟩ : ∃ k, fuel = k + 1 := Nat.exists_eq_succ_of_ne_zero (by omega)
  rw [jsetEntries, if_neg (by omega), getElem?_entryImage, Option.bind_eq_bind, Option.bind_some,
    hactual, if_neg hinside, hentry]
  rw [Nat.add_sub_cancel] at hrest
  rw [hrest]
  cases jsetEntries stop (fuel + 1) (entryImage pre w body z rest)
    (pre.length + 1 + (body.length + z)) with
  | none => rfl
  | some later => rfl

/-- The early pass goes on where the entry ended before it was checked. -/
theorem earlyPass_keys {n stop fuel : ℕ} {other : List UInt64 → ℕ → Option (List UInt64)}
    {w : UInt64} {pre payload rest mem : List UInt64} (htype : entryType w = jsetEntryBtreeKeys)
    (hw : entryU64s w = payload.length) (hstop : pre.length + 1 + payload.length ≤ stop)
    (hmem : journalEntryBtreeKeysValidate n (pre ++ w :: (payload ++ rest)) pre.length =
      some mem) :
    earlyPass n other stop (fuel + 1) (pre ++ w :: (payload ++ rest)) pre.length =
      (earlyPass n other stop fuel mem (pre.length + 1 + payload.length)).map
        fun later => ((pre.length, w :: payload) :: later.1, later.2) := by
  have hword : (pre ++ w :: (payload ++ rest))[pre.length]? = some w := by simp
  have hactual : jsetU64s (entryU64s w) = 1 + payload.length := by rw [hw, jsetU64s]
  have hinside : ¬(1 + payload.length = 0 ∨ stop < pre.length + (1 + payload.length)) := by omega
  have hentry : ((pre ++ w :: (payload ++ rest)).drop pre.length).take (1 + payload.length) =
      w :: payload := by
    rw [List.drop_left, Nat.add_comm, List.take_succ_cons, List.take_left]
  rw [earlyPass, if_neg (by omega), hword, Option.bind_eq_bind, Option.bind_some, hactual,
    if_neg hinside, if_pos htype, hmem, Option.bind_eq_bind, Option.bind_some, hentry,
    Nat.add_assoc]
  dsimp only
  cases earlyPass n other stop fuel mem (pre.length + (1 + payload.length)) with
  | none => rfl
  | some later => rfl

/-! ### The keys afterwards -/

theorem Splits.mem {ws key : List UInt64} {keys : List (List UInt64)} (h : Splits ws keys)
    (hmem : key ∈ keys) : frontU64s key = key.length ∧ 0 < key.length := by
  induction h with
  | nil ws => cases hmem
  | @cons key' rest keys hstart hkey _ ih =>
    rcases List.mem_cons.mp hmem with rfl | hlater
    · have hpos := (frontU64s_of_startsWithKey hstart).1
      rw [hkey] at hpos
      obtain ⟨x, key', rfl⟩ := List.exists_cons_of_length_pos hpos
      exact ⟨hkey, hpos⟩
    · exact ih hlater

theorem mem_currentKeys {ws key : List UInt64} (h : key ∈ currentKeys ws) :
    frontU64s key = key.length ∧ 0 < key.length :=
  (splits_payloadKeys ws).mem (List.mem_of_mem_filter h)

section KeysWalk

variable {σ : Type} {f : σ → List UInt64 → Except ℤ σ} {w : UInt64} {pre done r : List UInt64}
  {keys : List (List UInt64)}

theorem entryKeysWalk_nil {fuel : ℕ} (hw : entryU64s w = done.length) (s : σ) :
    entryKeysWalk f (pre ++ w :: (done ++ r)) pre.length (fuel + 1) done.length s =
      some (.ok s) := by
  have hword : (pre ++ w :: (done ++ r))[pre.length]? = some w := by simp
  rw [entryKeysWalk, hword, Option.bind_eq_bind, Option.bind_some, if_pos hw.le]

/-- One turn of the walk, at a key. -/
theorem entryKeysWalk_cons {fuel : ℕ} {key todo : List UInt64}
    (hw : entryU64s w = done.length + (key.length + todo.length))
    (hkey : frontU64s key = key.length) (hpos : 0 < key.length) (s : σ) :
    entryKeysWalk f (pre ++ w :: (done ++ (key ++ todo) ++ r)) pre.length (fuel + 1)
        done.length s =
      if key.length < bkeyU64s then some (.error (-3))
      else match f s key with
        | .error ret => some (.error ret)
        | .ok s => entryKeysWalk f (pre ++ w :: ((done ++ key) ++ todo ++ r)) pre.length fuel
            (done ++ key).length s := by
  have hword : (pre ++ w :: (done ++ (key ++ todo) ++ r))[pre.length]? = some w := by simp
  obtain ⟨x, key', rfl⟩ := List.exists_cons_of_length_pos hpos
  let front := pre ++ w :: done
  have hfront : pre.length + 1 + done.length = front.length := by
    simp only [front, List.length_append, List.length_cons]
    omega
  have hshape : pre ++ w :: (done ++ (x :: key' ++ todo) ++ r) =
      front ++ (x :: key' ++ (todo ++ r)) := by simp [front]
  have hfirst : (pre ++ w :: (done ++ (x :: key' ++ todo) ++ r))[
      pre.length + 1 + done.length]? = some x := by
    rw [hshape, hfront]
    simp
  have hcopy : ((pre ++ w :: (done ++ (x :: key' ++ todo) ++ r)).drop
      (pre.length + 1 + done.length)).take (x :: key').length = x :: key' := by
    rw [hshape, hfront, List.drop_left, List.take_left]
  have hxu64s : keyWordU64s x = (x :: key').length := hkey
  have hrem : done.length + ((x :: key').length + todo.length) - done.length =
      (x :: key').length + todo.length := Nat.add_sub_cancel_left ..
  have hnext : (done ++ x :: key').length = done.length + (x :: key').length :=
    List.length_append
  rw [entryKeysWalk, hword, Option.bind_eq_bind, Option.bind_some, hw,
    if_neg (by omega)]
  simp only [hrem]
  by_cases hshort : (x :: key').length < bkeyU64s
  · rw [if_pos hshort]
    by_cases hless : (x :: key').length + todo.length < bkeyU64s
    · rw [if_pos hless]
    · rw [if_neg hless, hfirst, Option.bind_some, hxu64s, if_pos (.inl hshort)]
  · have hfits : ¬((x :: key').length < bkeyU64s ∨
        (x :: key').length + todo.length < (x :: key').length) := by omega
    rw [if_neg hshort, if_neg (by omega), hfirst, Option.bind_some, hxu64s, if_neg hfits, hcopy,
      hnext, List.append_assoc done (x :: key') todo]

/-- The walk hands the keys of the payload on, one after the other. -/
theorem entryKeysWalk_keys {fuel : ℕ}
    (hkeys : ∀ key ∈ keys, frontU64s key = key.length ∧ 0 < key.length)
    (hlong : ∀ key ∈ keys, bkeyU64s ≤ key.length)
    (hw : entryU64s w = done.length + keys.flatten.length) (hfuel : keys.flatten.length < fuel)
    (s : σ) :
    entryKeysWalk f (pre ++ w :: (done ++ keys.flatten ++ r)) pre.length fuel done.length s =
      some (keys.foldlM f s) := by
  induction keys generalizing done fuel s with
  | nil =>
    obtain ⟨fuel, rfl⟩ : ∃ k, fuel = k + 1 := Nat.exists_eq_succ_of_ne_zero (by omega)
    rw [List.flatten_nil, List.append_nil]
    exact entryKeysWalk_nil hw s
  | cons key keys ih =>
    obtain ⟨hkey, hpos⟩ := hkeys key List.mem_cons_self
    have hsize := hlong key List.mem_cons_self
    rw [List.flatten_cons, List.length_append] at hw hfuel
    obtain ⟨fuel, rfl⟩ : ∃ k, fuel = k + 1 := Nat.exists_eq_succ_of_ne_zero (by omega)
    rw [List.flatten_cons, entryKeysWalk_cons hw hkey hpos, if_neg (by omega), List.foldlM_cons]
    cases f s key with
    | error ret => rfl
    | ok s =>
      have hdone : entryU64s w = (done ++ key).length + keys.flatten.length := by
        rw [hw, List.length_append, Nat.add_assoc]
      exact ih (fun k hk => hkeys k (List.mem_cons_of_mem _ hk))
        (fun k hk => hlong k (List.mem_cons_of_mem _ hk)) hdone (by omega) s

/-- A key with fewer words than a `bkey` ends the walk. -/
theorem entryKeysWalk_short {fuel : ℕ}
    (hkeys : ∀ key ∈ keys, frontU64s key = key.length ∧ 0 < key.length)
    (hshort : ∃ key ∈ keys, key.length < bkeyU64s)
    (hw : entryU64s w = done.length + keys.flatten.length) (hfuel : keys.flatten.length < fuel)
    (s : σ) :
    entryKeysWalk (fun s _ => .ok s) (pre ++ w :: (done ++ keys.flatten ++ r)) pre.length fuel
      done.length s = some (.error (-3)) := by
  induction keys generalizing done fuel s with
  | nil =>
    obtain ⟨key, hkey, -⟩ := hshort
    cases hkey
  | cons key keys ih =>
    obtain ⟨hkey, hpos⟩ := hkeys key List.mem_cons_self
    rw [List.flatten_cons, List.length_append] at hw hfuel
    obtain ⟨fuel, rfl⟩ : ∃ k, fuel = k + 1 := Nat.exists_eq_succ_of_ne_zero (by omega)
    rw [List.flatten_cons, entryKeysWalk_cons hw hkey hpos]
    by_cases hthis : key.length < bkeyU64s
    · rw [if_pos hthis]
    · have hdone : entryU64s w = (done ++ key).length + keys.flatten.length := by
        rw [hw, List.length_append, Nat.add_assoc]
      obtain ⟨k, hk, hless⟩ := hshort
      have hlater : k ∈ keys := by
        rcases List.mem_cons.mp hk with rfl | hlater
        · exact absurd hless hthis
        · exact hlater
      rw [if_neg hthis]
      exact ih (fun k hk => hkeys k (List.mem_cons_of_mem _ hk)) ⟨k, hlater, hless⟩ hdone
        (by omega) s

theorem foldlM_ne_error {ret : ℤ} (hf : ∀ s key, f s key ≠ .error ret) (s : σ) :
    keys.foldlM f s ≠ .error ret := by
  induction keys generalizing s with
  | nil => exact fun h => nomatch h
  | cons key keys ih =>
    rw [List.foldlM_cons]
    cases hkey : f s key with
    | error ret' =>
      intro h
      exact hf s key (hkey.trans h)
    | ok s => exact ih s

end KeysWalk

/-! ### The check and the passes together -/

/-- What the check of an entry is to leave: in the record the kept keys of its payload and then
empty entries up to where it ended, in each pass the same later entries, and in the later passes no
key that a walk refuses with `-3` on its own. -/
structure EntryChecked (w : UInt64) (pre payload rest mem : List UInt64) : Prop where
  words : mem = entryImage pre w (currentKeys payload).flatten
    (payload.length - (currentKeys payload).flatten.length) rest
  header : ∃ x, mem[pre.length]? = some x ∧ entryType x = jsetEntryBtreeKeys ∧
    entryU64s x = (currentKeys payload).flatten.length
  early : ∀ (n stop fuel : ℕ) (other : List UInt64 → ℕ → Option (List UInt64)),
    payload.length < n → pre.length + 1 + payload.length ≤ stop →
      earlyPass n other stop (fuel + 1) (pre ++ w :: (payload ++ rest)) pre.length =
        (earlyPass n other stop fuel mem (pre.length + 1 + payload.length)).map
          fun later => ((pre.length, w :: payload) :: later.1, later.2)
  later : ∀ stop fuel : ℕ, pre.length + 1 + payload.length ≤ stop → stop < fuel →
    jsetEntries stop fuel mem pre.length =
      (jsetEntries stop fuel (pre ++ w :: (payload ++ rest))
        (pre.length + 1 + payload.length)).map fun later =>
          (pre.length, withEntryU64s w (currentKeys payload).flatten.length ::
              (currentKeys payload).flatten) ::
            (emptyEntries (pre.length + 1 + (currentKeys payload).flatten.length)
              (payload.length - (currentKeys payload).flatten.length) ++ later)
  keys : ∀ {σ : Type} (f : σ → List UInt64 → Except ℤ σ), (∀ s key, f s key ≠ .error (-3)) →
    ∀ (s : σ) (fuel : ℕ), payload.length < fuel →
      ∃ ret, entryKeysWalk f mem pre.length fuel 0 s = some ret ∧ ret ≠ .error (-3)
  empty : ∀ i < payload.length - (currentKeys payload).flatten.length,
    ∀ {σ : Type} (f : σ → List UInt64 → Except ℤ σ) (s : σ) (fuel : ℕ),
      entryKeysWalk f mem (pre.length + 1 + (currentKeys payload).flatten.length + i)
        (fuel + 1) 0 s = some (.ok s)

section Checked

variable {w : UInt64} {pre payload rest : List UInt64}

/-- The later passes go on behind the entry with the entries that were there. -/
theorem jsetEntries_checked {stop fuel : ℕ} (hw : entryU64s w = payload.length)
    (hstop : pre.length + 1 + payload.length ≤ stop) (hfuel : stop < fuel) :
    jsetEntries stop fuel (entryImage pre w (currentKeys payload).flatten
        (payload.length - (currentKeys payload).flatten.length) rest) pre.length =
      (jsetEntries stop fuel (pre ++ w :: (payload ++ rest))
        (pre.length + 1 + payload.length)).map fun later =>
          (pre.length, withEntryU64s w (currentKeys payload).flatten.length ::
              (currentKeys payload).flatten) ::
            (emptyEntries (pre.length + 1 + (currentKeys payload).flatten.length)
              (payload.length - (currentKeys payload).flatten.length) ++ later) := by
  have hle := length_currentKeys_le payload
  have hlt := entryU64s_lt w
  generalize hkept : (currentKeys payload).flatten = kept at *
  have hsum : kept.length + (payload.length - kept.length) = payload.length := by omega
  let front := pre ++ withEntryU64s w kept.length :: (kept ++
    List.replicate (payload.length - kept.length) 0)
  have himage : entryImage pre w kept (payload.length - kept.length) rest = front ++ rest := by
    simp [entryImage, front]
  have hrecord : pre ++ w :: (payload ++ rest) = (pre ++ w :: payload) ++ rest := by simp
  have hfront : front.length = (pre ++ w :: payload).length := by
    simp only [front, List.length_append, List.length_cons, List.length_replicate]
    omega
  have hend : pre.length + 1 + payload.length = front.length + 0 := by
    rw [hfront, List.length_append, List.length_cons]
    omega
  rw [jsetEntries_shrunk (by omega) (by omega) hfuel, hsum, himage, hrecord, hend,
    jsetEntries_append stop fuel 0 rest hfront]

theorem entryKeysWalk_empty {z i : ℕ} {body : List UInt64} (hi : i < z) {σ : Type}
    (f : σ → List UInt64 → Except ℤ σ) (s : σ) (fuel : ℕ) :
    entryKeysWalk f (entryImage pre w body z rest) (pre.length + 1 + body.length + i) (fuel + 1) 0
      s = some (.ok s) := by
  have hshape : entryImage pre w body z rest =
      (pre ++ withEntryU64s w body.length :: body) ++ (List.replicate z 0 ++ rest) := by
    simp [entryImage]
  have hlen : pre.length + 1 + body.length =
      (pre ++ withEntryU64s w body.length :: body).length := by
    rw [List.length_append, List.length_cons]
    omega
  have hword : (entryImage pre w body z rest)[pre.length + 1 + body.length + i]? = some 0 := by
    rw [hshape, hlen, List.getElem?_append_right (Nat.le_add_right ..), Nat.add_sub_cancel_left,
      List.getElem?_append_left (by simpa using hi), List.getElem?_replicate, if_pos hi]
  rw [entryKeysWalk, hword]
  rfl

/-- The walk over the keys that the check has kept. -/
theorem entryKeysWalk_checked {z fuel : ℕ} {keys : List (List UInt64)} {σ : Type}
    (f : σ → List UInt64 → Except ℤ σ)
    (hkeys : ∀ key ∈ keys, frontU64s key = key.length ∧ 0 < key.length)
    (hlong : ∀ key ∈ keys, bkeyU64s ≤ key.length) (hlt : keys.flatten.length < 2 ^ 16)
    (hfuel : keys.flatten.length < fuel) (s : σ) :
    entryKeysWalk f (entryImage pre w keys.flatten z rest) pre.length fuel 0 s =
      some (keys.foldlM f s) := by
  have hw : entryU64s (withEntryU64s w keys.flatten.length) =
      ([] : List UInt64).length + keys.flatten.length := by
    rw [entryU64s_withEntryU64s w hlt, List.length_nil, Nat.zero_add]
  exact @entryKeysWalk_keys _ f _ pre [] (List.replicate z 0 ++ rest) keys fuel hkeys hlong hw
    hfuel s

/-- Where the later passes refuse no key, every key that is kept has the words of a `bkey`. -/
theorem EntryChecked.long {mem : List UInt64} (h : EntryChecked w pre payload rest mem)
    (hw : entryU64s w = payload.length) : ∀ key ∈ currentKeys payload, bkeyU64s ≤ key.length := by
  intro key hkey
  by_contra hshort
  have hle := length_currentKeys_le payload
  have hlt := entryU64s_lt w
  -- a pass that takes every key finds the short one
  obtain ⟨ret, hret, hne⟩ := h.keys (fun (s : Unit) _ => .ok s) (fun _ _ h => nomatch h) ()
    (payload.length + 1) (Nat.lt_succ_self _)
  have hu64s : entryU64s (withEntryU64s w (currentKeys payload).flatten.length) =
      ([] : List UInt64).length + (currentKeys payload).flatten.length := by
    rw [entryU64s_withEntryU64s w (by omega), List.length_nil, Nat.zero_add]
  have hwalk := @entryKeysWalk_short Unit _ pre []
    (List.replicate (payload.length - (currentKeys payload).flatten.length) 0 ++ rest)
    (currentKeys payload) (payload.length + 1) (fun _ => mem_currentKeys)
    ⟨key, hkey, not_le.mp hshort⟩ hu64s (by omega) ()
  rw [h.words] at hret
  exact hne (Option.some.inj (hret.symm.trans hwalk))

/-- A record in which an entry of btree keys has been checked is as it is to be exactly when every
key that is kept has the words of a `bkey`. -/
theorem journalEntryBtreeKeysValidate_iff {n : ℕ} (htype : entryType w = jsetEntryBtreeKeys)
    (hw : entryU64s w = payload.length) (hn : payload.length < n) :
    (∃ mem, journalEntryBtreeKeysValidate n (pre ++ w :: (payload ++ rest)) pre.length =
        some mem ∧ EntryChecked w pre payload rest mem) ↔
      ∀ key ∈ currentKeys payload, bkeyU64s ≤ key.length := by
  have hrun : ∀ m, payload.length < m →
      journalEntryBtreeKeysValidate m (pre ++ w :: (payload ++ rest)) pre.length = _ :=
    fun m hm => journalEntryBtreeKeysValidate_image hw hm
  have hle := length_currentKeys_le payload
  have hlt := entryU64s_lt w
  constructor
  · rintro ⟨mem, hmem, hchecked⟩
    exact hchecked.long hw
  · intro hlong
    refine ⟨_, hrun n hn, rfl, ?_, ?_, ?_, ?_, ?_⟩
    · refine ⟨_, getElem?_entryImage .., ?_, ?_⟩
      · rw [entryType_withEntryU64s, htype]
      · exact entryU64s_withEntryU64s w (by omega)
    · intro n stop fuel other hn hstop
      exact earlyPass_keys htype hw hstop (hrun n hn)
    · intro stop fuel hstop hfuel
      exact jsetEntries_checked hw hstop hfuel
    · intro σ f hf s fuel hfuel
      refine ⟨(currentKeys payload).foldlM f s, ?_, foldlM_ne_error hf s⟩
      exact entryKeysWalk_checked f (fun _ => mem_currentKeys) hlong (by omega) (by omega) s
    · intro i hi σ f s fuel
      exact entryKeysWalk_empty hi f s fuel

/-- A payload with a key in an older format, one in the current format and two words that are no
key. -/
theorem journalEntryBtreeKeysValidate_twoKeys :
    ∃ mem, journalEntryBtreeKeysValidate 13
        ([7] ++ 12 :: ([5, 1, 2, 3, 4, 0x105, 5, 6, 7, 8, 0, 0] ++ [9])) 1 = some mem ∧
      EntryChecked 12 [7] [5, 1, 2, 3, 4, 0x105, 5, 6, 7, 8, 0, 0] [9] mem :=
  (journalEntryBtreeKeysValidate_iff (by decide) (by decide) (by decide)).mpr (by decide)

/-- A key of one word in the current format is kept, and the later passes refuse it. -/
theorem journalEntryBtreeKeysValidate_shortKey :
    journalEntryBtreeKeysValidate 6 [5, 0x101, 0, 0, 0, 0] 0 = some [1, 0x101, 0, 0, 0, 0] ∧
      entryKeysWalk (fun (s : Unit) _ => .ok s) [1, 0x101, 0, 0, 0, 0] 0 6 0 () =
        some (.error (-3)) ∧
      ¬∃ mem, journalEntryBtreeKeysValidate 6 ([] ++ 5 :: ([0x101, 0, 0, 0, 0] ++ [])) 0 =
          some mem ∧ EntryChecked 5 [] [0x101, 0, 0, 0, 0] [] mem := by
  refine ⟨by decide, by rfl, ?_⟩
  rintro ⟨mem, -, hchecked⟩
  have hlong := hchecked.long (by decide) [0x101] (by decide)
  exact absurd hlong (by decide)

end Checked

end Subvol

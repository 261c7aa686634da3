import Mathlib.Data.List.Forall2
import Subvol.Btree.Transform

/-!
# Repacking a node

`bch2_sort_repack` writes the keys of a node, in the order of an iterator over it, behind the keys
of a set in another format. A key that does not fit that format is written unpacked.

## Main definitions

* `KeyWords.inFormat`, `NodeKey`: the format a key of a node is read in, and what it stands for.
* `repackKey`, `bch2SortRepack`: one key, and all of them.
* `SameKey`, `KeysAt`: what a key becomes, and keys one after another.

## Main results

* `repackKey_spec`: a key becomes the same key, with its bit `needs_whiteout` cleared.
* `bch2SortRepack_spec`: so does every key that is not filtered.
-/

namespace Subvol

open Lib

/-! ### Repacking -/

/-- `btree_nr_keys`, for the first set. -/
structure BtreeNrKeys where
  liveU64s : ℕ := 0
  bsetU64s : ℕ := 0
  packedKeys : ℕ := 0
  unpackedKeys : ℕ := 0

/-- `btree_keys_account_key`, for a key that is added to the first set. -/
def btreeKeysAccountKey (nr : BtreeNrKeys) (k : KeyWords) : BtreeNrKeys where
  liveU64s := (nr.liveU64s + k.u64s.toNat) % 2 ^ 16
  bsetU64s := (nr.bsetU64s + k.u64s.toNat) % 2 ^ 16
  packedKeys := if k.packed then (nr.packedKeys + 1) % 2 ^ 16 else nr.packedKeys
  unpackedKeys := if k.packed then nr.unpackedKeys else (nr.unpackedKeys + 1) % 2 ^ 16

/-- The body of the loop of `bch2_sort_repack`: the words from the place of the next key on. -/
def repackKey (srcF outF : BkeyFormat) (out input : KeyWords) : Option KeyWords := do
  let out ← (if outF = srcF then some (out.copyFrom 0 input 0 input.u64s.toNat)
    else do
      let inF := if input.packed then srcF else bkeyFormatCurrent
      let (fits, out) ← KeyWords.bch2BkeyTransform outF out inF input
      if fits then some (out.setByte 8 (out.format &&& 0x80 ||| keyFormatLocalBtree))
      else KeyWords.bch2BkeyUnpack srcF out input)
  some (out.setByte 8 (out.format &&& 0x7f))

/-- The words of the keys of a set, and how many there are. -/
structure RepackState where
  off : ℕ
  mem : KeyWords
  nr : BtreeNrKeys := {}

/-- The loop of `bch2_sort_repack` over the keys that `bch2_btree_node_iter_next_all` returns. -/
def repackLoop (srcF outF : BkeyFormat) (filterWhiteouts : Bool) :
    RepackState → List KeyWords → Option RepackState
  | s, [] => some s
  | s, input :: rest =>
    if filterWhiteouts ∧ input.type = 0 then repackLoop srcF outF filterWhiteouts s rest
    else
      match repackKey srcF outF (fun i => s.mem (s.off + i)) input with
      | none => none
      | some out => repackLoop srcF outF filterWhiteouts
        { off := s.off + out.u64s.toNat
          mem := fun i => if i < s.off then s.mem i else out (i - s.off)
          nr := btreeKeysAccountKey s.nr out } rest

/-- `bch2_sort_repack`: the words of the set, `u64s` of it and the counts. -/
def bch2SortRepack (dstU64s : ℕ) (dst : KeyWords) (srcF outF : BkeyFormat) (inputs : List KeyWords)
    (filterWhiteouts : Bool) : Option (KeyWords × ℕ × BtreeNrKeys) :=
  (repackLoop srcF outF filterWhiteouts { off := dstU64s, mem := dst } inputs).map fun s =>
    (s.mem, s.off % 2 ^ 16, s.nr)

/-! ### Keys of a node -/

/-- The format that a key of a node is read in. -/
def KeyWords.inFormat (f : PackFormat) (words : KeyWords) : PackFormat :=
  if words.packed then f else currentFormat

/-- The words of a key in a node, and the key they stand for. -/
def NodeKey (f : PackFormat) (words : KeyWords) (k : BkeyHead) : Prop :=
  ReadIn (words.inFormat f) words k

theorem packed_of_local {words : KeyWords} (h : words.format &&& 0x7f = keyFormatLocalBtree) :
    words.packed = true := by
  rw [KeyWords.packed, h]
  rfl

theorem packed_of_current {words : KeyWords} (h : words.format &&& 0x7f = keyFormatCurrent) :
    words.packed = false := by
  rw [KeyWords.packed, h]
  rfl

theorem NodeKey.cases {f : PackFormat} {words : KeyWords} {k : BkeyHead} (h : NodeKey f words k) :
    (words.packed = true ∧ words.inFormat f = f ∧
        words.format &&& 0x7f = keyFormatLocalBtree ∧ f.keyU64s ≤ words.u64s.toNat ∧
        words.u64s.toNat - f.keyU64s + bkeyU64s ≤ 255 ∧
        KeyWords.bch2BkeyUnpackKey f.toBkeyFormat words = some k) ∨
      (words.packed = false ∧ words.inFormat f = currentFormat ∧
        words.format &&& 0x7f = keyFormatCurrent ∧ bkeyU64s ≤ words.u64s.toNat ∧
        k = words.head) := by
  rw [NodeKey] at h
  cases h with
  | packed hformat hle hlen hunpack =>
    have hpacked := packed_of_local hformat
    have hf : words.inFormat f = f := by rw [KeyWords.inFormat, if_pos hpacked]
    rw [hf] at hle hlen hunpack
    exact Or.inl ⟨hpacked, hf, hformat, hle, hlen, hunpack⟩
  | unpacked hf hformat hle hhead =>
    exact Or.inr ⟨packed_of_current hformat, hf, hformat, hle, hhead⟩

/-! ### The format byte -/

/-- Only the format of an unpacked key changes with its byte. -/
theorem head_setByte (words : KeyWords) (v : UInt8) :
    (words.setByte 8 v).head = { words.head with format := v } := by
  have hother {off len : ℕ} (hdis : FieldsDisjoint 8 8 off len) (hfit : off + len ≤ 64) :=
    KeyWords.field_setByte_of_disjoint words hdis hfit v
  have hself := @KeyWords.field_setByte_self words 8 (by decide) v
  have hnext (i : ℕ) : words.setByte 8 v (i + 1) = words (i + 1) := Function.update_of_ne (by omega) ..
  rw [KeyWords.head, KeyWords.head, KeyWords.u64s, KeyWords.format, KeyWords.type, KeyWords.pos,
    hself, hother (.inl (by decide)) (by decide), hother (.inr (by decide)) (by decide),
    hother (.inr (by decide)) (by decide), hother (.inr (by decide)) (by decide), hnext, hnext,
    hnext, hnext, UInt8.ofNat_toNat]
  rfl

theorem u64s_setByte (words : KeyWords) (v : UInt8) : (words.setByte 8 v).u64s = words.u64s := by
  rw [KeyWords.u64s, KeyWords.u64s,
    KeyWords.field_setByte_of_disjoint words (.inl (by decide)) (by decide)]

theorem type_setByte (words : KeyWords) (v : UInt8) : (words.setByte 8 v).type = words.type := by
  rw [KeyWords.type, KeyWords.type,
    KeyWords.field_setByte_of_disjoint words (.inr (by decide)) (by decide)]

theorem format_setByte (words : KeyWords) (v : UInt8) : (words.setByte 8 v).format = v := by
  rw [KeyWords.format, KeyWords.field_setByte_self words (by decide), UInt8.ofNat_toNat]

theorem value_congr {words words' : KeyWords} {n : ℕ} (hlen : words'.u64s = words.u64s)
    (h : ∀ i, n ≤ i → i < words.u64s.toNat → words' i = words i) :
    words'.value n = words.value n := by
  rw [KeyWords.value, KeyWords.value, hlen]
  refine List.map_congr_left fun i hi => h (n + i) (Nat.le_add_right n i) ?_
  have := List.mem_range.mp hi
  omega

/-- The value of a key is behind its format byte. -/
theorem value_setByte (words : KeyWords) (v : UInt8) {n : ℕ} (hn : 1 ≤ n) :
    (words.setByte 8 v).value n = words.value n :=
  value_congr (u64s_setByte words v) fun i hi _ => Function.update_of_ne (by omega) ..

/-- The key changes with the format byte of its packed form. -/
theorem PackedAs.setFormat {f : PackFormat} {k : BkeyHead} {words : KeyWords}
    (h : PackedAs f k words) {v b : UInt8} (hv : v = b &&& 0x80) :
    PackedAs f { k with format := b } (words.setByte 8 v) := by
  have hroom := f.room
  rw [keyPackedBitsStart] at hroom
  refine ⟨?_, ?_, ?_, ?_⟩
  · rw [u64s_setByte]
    exact h.u64s
  · rw [format_setByte]
    exact hv
  · rw [type_setByte]
    exact h.type
  · rw [KeyWords.wordsNat_setByte _ (by decide) f.keyU64s_pos (by omega)]
    exact h.fields

theorem head_congr {words words' : KeyWords} (h : ∀ i < 5, words' i = words i) :
    words'.head = words.head := by
  rw [KeyWords.head, KeyWords.head, KeyWords.u64s, KeyWords.u64s, KeyWords.format, KeyWords.format,
    KeyWords.type, KeyWords.type, KeyWords.pos, KeyWords.pos, h 0 (by decide), h 1 (by decide),
    h 2 (by decide), h 3 (by decide), h 4 (by decide)]

/-! ### One key -/

/-- The key without the bit `needs_whiteout`; the byte of padding is left out. -/
def BkeyHead.cleared (k : BkeyHead) : BkeyHead := { k with format := k.format &&& 0x7f, pad := 0 }

/-- A key of a node, and the same key with the same value in a set of another format. -/
def SameKey (srcF outF : PackFormat) (input out : KeyWords) : Prop :=
  ∃ k k', NodeKey srcF input k ∧ NodeKey outF out k' ∧ { k' with pad := 0 } = k.cleared ∧
    out.value (out.inFormat outF).keyU64s = input.value (input.inFormat srcF).keyU64s

theorem clear_bit (b : UInt8) : b &&& 0x7f &&& 0x80 = 0 ∧
    b &&& 0x80 &&& 0x7f = 0 ∧ (b &&& 0x80 ||| keyFormatLocalBtree) &&& 0x7f = 0 := by
  have hall : ∀ i : Fin 256, UInt8.ofNat i &&& 0x7f &&& 0x80 = 0 ∧
      UInt8.ofNat i &&& 0x80 &&& 0x7f = 0 ∧
        (UInt8.ofNat i &&& 0x80 ||| keyFormatLocalBtree) &&& 0x7f = 0 := by
    decide +kernel
  have hb := hall ⟨b.toNat, b.toNat_lt⟩
  simpa using hb

/-- A packed key of a set, with its bit cleared. -/
theorem nodeKey_of_packedAs {f : PackFormat} {k : BkeyHead} {words : KeyWords}
    (h : PackedAs f k words) (hfit : ∀ x ∈ f.fields.zip k.fieldValues, fieldFits x.1 x.2 = true)
    (hcurrent : k.format &&& 0x7f = keyFormatCurrent) (hu64s : 5 ≤ k.u64s.toNat)
    (hformat : words.format &&& 0x7f = 0) :
    (words.setByte 8 (words.format &&& 0x7f)).inFormat f = f ∧
      NodeKey f (words.setByte 8 (words.format &&& 0x7f)) k.cleared := by
  have hle5 := f.keyU64s_le
  have hk := k.u64s.toNat_lt
  have hlen := h.u64s
  rw [bkeyU64s] at hlen
  have hbits := (clear_bit k.format).1
  have hout := h.setFormat (v := words.format &&& 0x7f) (b := k.format &&& 0x7f)
    (hformat.trans hbits.symm)
  have hlocal : (words.setByte 8 (words.format &&& 0x7f)).format &&& 0x7f = keyFormatLocalBtree := by
    rw [format_setByte, hformat]
    rfl
  have hunpack := hout.unpack hfit (by dsimp only; rw [UInt8.and_assoc]; exact hcurrent) hu64s
  have hf : (words.setByte 8 (words.format &&& 0x7f)).inFormat f = f := by
    rw [KeyWords.inFormat, if_pos (packed_of_local hlocal)]
  refine ⟨hf, ?_⟩
  rw [NodeKey, hf]
  refine ReadIn.packed hlocal ?_ ?_ hunpack
  · rw [u64s_setByte]
    omega
  · rw [u64s_setByte, bkeyU64s]
    omega

/-- An unpacked key of a set, with its bit cleared. -/
theorem nodeKey_of_unpacked {words : KeyWords} (f : PackFormat)
    (hformat : words.format &&& 0x7f = keyFormatCurrent) (hle : bkeyU64s ≤ words.u64s.toNat) :
    (words.setByte 8 (words.format &&& 0x7f)).inFormat f = currentFormat ∧
      NodeKey f (words.setByte 8 (words.format &&& 0x7f))
        { words.head with format := words.format &&& 0x7f } := by
  have hcurrent : (words.setByte 8 (words.format &&& 0x7f)).format &&& 0x7f = keyFormatCurrent := by
    rw [format_setByte, UInt8.and_assoc]
    exact hformat
  have hf : (words.setByte 8 (words.format &&& 0x7f)).inFormat f = currentFormat := by
    rw [KeyWords.inFormat, packed_of_current hcurrent, if_neg Bool.false_ne_true]
  refine ⟨hf, ReadIn.unpacked hf hcurrent ?_ (head_setByte words _).symm⟩
  rw [u64s_setByte]
  exact hle

theorem agree_header {words input : KeyWords} (hpos : 0 < input.u64s.toNat)
    (h : ∀ i < input.u64s.toNat, words i = input i) :
    words.u64s = input.u64s ∧ words.format = input.format := by
  rw [KeyWords.u64s, KeyWords.format, KeyWords.format, h 0 hpos]
  exact ⟨rfl, rfl⟩

/-- A copy of an unpacked key is that key in any format. -/
theorem sameKey_copy_unpacked {srcF : PackFormat} (outF : PackFormat) {words input : KeyWords}
    {k : BkeyHead} (hkey : NodeKey srcF input k) (hunpacked : input.packed = false)
    (h : ∀ i < input.u64s.toNat, words i = input i) :
    SameKey srcF outF input (words.setByte 8 (words.format &&& 0x7f)) := by
  rcases hkey.cases with ⟨hpacked, -⟩ | ⟨-, hin, hformat, hle, hhead⟩
  · rw [hunpacked] at hpacked
    exact absurd hpacked Bool.false_ne_true
  have hlt : 0 < input.u64s.toNat := Nat.lt_of_lt_of_le (by decide) hle
  obtain ⟨hu64s, hformat'⟩ := agree_header hlt h
  have hsame : words.head = input.head := head_congr fun i hi => h i (Nat.lt_of_lt_of_le hi hle)
  obtain ⟨hout, hnode⟩ := nodeKey_of_unpacked outF (hformat'.symm ▸ hformat) (hu64s.symm ▸ hle)
  refine ⟨k, _, hkey, hnode, ?_, ?_⟩
  · rw [hhead, hsame, hformat', BkeyHead.cleared]
    rfl
  · rw [hout, hin, value_setByte _ _ (by decide)]
    exact value_congr hu64s fun i _ hi => h i hi

/-- A copy of a packed key is that key in the same format. -/
theorem sameKey_copy_packed {f : PackFormat} {words input : KeyWords} {k : BkeyHead}
    (hkey : NodeKey f input k) (hpacked : input.packed = true)
    (h : ∀ i < input.u64s.toNat, words i = input i) :
    SameKey f f input (words.setByte 8 (words.format &&& 0x7f)) := by
  rcases hkey.cases with ⟨-, hin, hformat, hle, hlen, hunpack⟩ | ⟨hunpacked, -⟩
  swap
  · rw [hpacked] at hunpacked
    exact absurd hunpacked.symm Bool.false_ne_true
  have hlt : 0 < input.u64s.toNat := Nat.lt_of_lt_of_le f.keyU64s_pos hle
  obtain ⟨hu64s, hformat'⟩ := agree_header hlt h
  obtain ⟨k', has, hcurrent, hu64s', hfit⟩ := exists_packedAs f hformat hle hlen
  rw [has.unpack hfit hcurrent hu64s'] at hunpack
  obtain rfl := Option.some.inj hunpack
  have hhas := has.congr fun i hi => h i (Nat.lt_of_lt_of_le hi hle)
  obtain ⟨hout, hnode⟩ :=
    nodeKey_of_packedAs hhas hfit hcurrent hu64s' (hformat'.symm ▸ hformat)
  refine ⟨_, _, hkey, hnode, rfl, ?_⟩
  rw [hout, hin, value_setByte _ _ f.keyU64s_pos]
  exact value_congr hu64s fun i _ hi => h i hi

/-- A packed key that does not fit is unpacked over what was written before. -/
theorem sameKey_unpack {srcF : PackFormat} (outF : PackFormat) {input : KeyWords} {k : BkeyHead}
    (hkey : NodeKey srcF input k) (out : KeyWords) : ∃ words,
      KeyWords.bch2BkeyUnpack srcF.toBkeyFormat out input = some words ∧
      SameKey srcF outF input (words.setByte 8 (words.format &&& 0x7f)) := by
  rcases hkey.cases with ⟨hpacked, hin, hformat, hle, hlen, hunpack⟩ | ⟨hunpacked, hin, -, hle, -⟩
  · have hspec := hkey.spec
    rw [hin] at hspec
    have hu64s := hspec.u64s
    have hkeyU64s : input.bkeypKeyU64s srcF.toBkeyFormat = srcF.keyU64s := if_pos hpacked
    refine ⟨_, by rw [KeyWords.bch2BkeyUnpack, if_pos hpacked, hunpack, KeyWords.bkeypValU64s,
      hkeyU64s, if_pos hle]; rfl, ?_⟩
    set words := (out.setHead k).copyFrom bkeyU64s input srcF.keyU64s
      (input.u64s.toNat - srcF.keyU64s) with hwords
    have hhead : words.head = k := by
      rw [← head_setHead out k]
      exact head_congr fun i hi => copyFrom_of_lt hi
    have hfmt : words.format = k.format := congrArg BkeyHead.format hhead
    have hlength : words.u64s = k.u64s := congrArg BkeyHead.u64s hhead
    obtain ⟨hout, hnode⟩ := @nodeKey_of_unpacked words outF
      (hfmt.symm ▸ hspec.current) (by rw [hlength]; omega)
    refine ⟨k, _, hkey, hnode, ?_, ?_⟩
    · rw [hhead, hfmt, BkeyHead.cleared]
    · rw [hout, hin, value_setByte _ _ (by decide), hwords]
      refine value_copyFrom ?_ ?_
      · rw [← hwords, hlength]
        omega
      · omega
  · have hkeyU64s : input.bkeypKeyU64s srcF.toBkeyFormat = bkeyU64s :=
      if_neg (by rw [hunpacked]; exact Bool.false_ne_true)
    refine ⟨_, by rw [KeyWords.bch2BkeyUnpack, if_neg (by rw [hunpacked]; exact Bool.false_ne_true),
      KeyWords.bkeypValU64s, hkeyU64s, if_pos hle]; rfl, ?_⟩
    refine sameKey_copy_unpacked outF hkey hunpacked fun i hi => ?_
    rcases Nat.lt_or_ge i bkeyU64s with hlow | hhigh
    · rw [copyFrom_of_lt hlow, ← Nat.zero_add i, copyFrom_inside hlow]
    · obtain ⟨j, rfl⟩ := Nat.exists_eq_add_of_le hhigh
      exact copyFrom_inside (by omega)

/-- A key becomes the same key, with its bit `needs_whiteout` cleared. -/
theorem repackKey_spec {srcF : PackFormat} (outF : PackFormat) (out : KeyWords) {input : KeyWords}
    {k : BkeyHead} (hkey : NodeKey srcF input k) : ∃ words,
      repackKey srcF.toBkeyFormat outF.toBkeyFormat out input = some words ∧
      SameKey srcF outF input words := by
  rw [repackKey]
  by_cases hsame : outF.toBkeyFormat = srcF.toBkeyFormat
  · -- The key is copied as it is.
    rw [if_pos hsame]
    refine ⟨_, rfl, ?_⟩
    have hcopy : ∀ i < input.u64s.toNat, out.copyFrom 0 input 0 input.u64s.toNat i = input i := by
      intro i hi
      have hinside := @copyFrom_inside out input 0 0 _ _ hi
      rwa [Nat.zero_add] at hinside
    cases hpacked : input.packed with
    | false => exact sameKey_copy_unpacked outF hkey hpacked hcopy
    | true =>
      have hf : outF = srcF := by
        cases outF
        cases srcF
        cases hsame
        rfl
      subst hf
      exact sameKey_copy_packed hkey hpacked hcopy
  · rw [if_neg hsame]
    have hin : (if input.packed then srcF.toBkeyFormat else bkeyFormatCurrent) =
        (input.inFormat srcF).toBkeyFormat := by
      rw [KeyWords.inFormat]
      split_ifs <;> rfl
    obtain ⟨ok, words, hwords, -, hok⟩ := bch2BkeyTransform_spec (input.inFormat srcF) outF out
      input hkey
    rw [hin]
    dsimp only
    rw [hwords]
    simp only [Option.bind_eq_bind, Option.bind_some]
    cases ok with
    | true =>
      obtain ⟨-, -, hvalue, has, hfit⟩ := hok rfl
      have hspec := hkey.spec
      have hu64s := hspec.u64s
      have hlong : 5 ≤ k.u64s.toNat := hu64s.symm ▸ Nat.le_add_left ..
      have hbyte : (words.setByte 8 (words.format &&& 0x80 ||| keyFormatLocalBtree)).format &&&
          0x7f = 0 := by
        rw [format_setByte]
        exact (clear_bit _).2.2
      have hmark := has.setFormat (v := words.format &&& 0x80 ||| keyFormatLocalBtree)
        (b := k.format) (by rw [has.format, UInt8.and_assoc]; exact UInt8.or_zero)
      obtain ⟨hout, hnode⟩ := nodeKey_of_packedAs hmark hfit hspec.current hlong hbyte
      refine ⟨_, rfl, k, _, hkey, hnode, rfl, ?_⟩
      rw [hout, value_setByte _ _ outF.keyU64s_pos, value_setByte _ _ outF.keyU64s_pos, hvalue]
    | false =>
      obtain ⟨words', hunpack, hsameKey⟩ := sameKey_unpack outF hkey words
      rw [if_neg Bool.false_ne_true, hunpack, Option.bind_some]
      exact ⟨_, rfl, hsameKey⟩

/-! ### All keys -/

/-- Keys that lie one after another from a place on. -/
def KeysAt (mem : KeyWords) : ℕ → List KeyWords → Prop
  | _, [] => True
  | off, out :: rest =>
    (∀ i < out.u64s.toNat, mem (off + i) = out i) ∧ KeysAt mem (off + out.u64s.toNat) rest

/-- The keys that are not filtered. -/
def keptInputs (filterWhiteouts : Bool) (inputs : List KeyWords) : List KeyWords :=
  inputs.filter fun input => !(filterWhiteouts && input.type == 0)

theorem repackLoop_spec {srcF : PackFormat} (outF : PackFormat) (filterWhiteouts : Bool)
    (s : RepackState) {inputs : List KeyWords} (h : ∀ input ∈ inputs, ∃ k, NodeKey srcF input k) :
    ∃ s' outs, repackLoop srcF.toBkeyFormat outF.toBkeyFormat filterWhiteouts s inputs = some s' ∧
      List.Forall₂ (SameKey srcF outF) (keptInputs filterWhiteouts inputs) outs ∧
      KeysAt s'.mem s.off outs ∧ s'.off = s.off + (outs.map fun out => out.u64s.toNat).sum ∧
      ∀ i < s.off, s'.mem i = s.mem i := by
  induction inputs generalizing s with
  | nil => exact ⟨s, [], rfl, List.Forall₂.nil, trivial, rfl, fun _ _ => rfl⟩
  | cons input rest ih =>
    have hrest : ∀ input ∈ rest, ∃ k, NodeKey srcF input k :=
      fun input hi => h input (List.mem_cons_of_mem _ hi)
    rw [repackLoop]
    by_cases hfilter : filterWhiteouts = true ∧ input.type = 0
    · rw [if_pos hfilter]
      have hkept : keptInputs filterWhiteouts (input :: rest) = keptInputs filterWhiteouts rest := by
        simp [keptInputs, hfilter]
      rw [hkept]
      exact ih s hrest
    · rw [if_neg hfilter]
      have hkept : keptInputs filterWhiteouts (input :: rest) =
          input :: keptInputs filterWhiteouts rest := by
        rw [keptInputs, List.filter_cons_of_pos]
        · rfl
        · cases filterWhiteouts with
          | false => simp
          | true => simpa using hfilter
      obtain ⟨k, hk⟩ := h input List.mem_cons_self
      obtain ⟨out, hout, hsame⟩ := repackKey_spec outF (fun i => s.mem (s.off + i)) hk
      rw [hout]
      dsimp only
      obtain ⟨s', outs, hloop, hkeys, hat, hoff, hbelow⟩ := ih
        ⟨s.off + out.u64s.toNat, fun i => if i < s.off then s.mem i else out (i - s.off),
          btreeKeysAccountKey s.nr out⟩ hrest
      rw [hkept]
      refine ⟨s', out :: outs, hloop, List.Forall₂.cons hsame hkeys, ⟨fun i hi => ?_, hat⟩, ?_,
        fun i hi => ?_⟩
      · rw [hbelow (s.off + i) (Nat.add_lt_add_left hi _)]
        dsimp only
        rw [if_neg (by omega), Nat.add_sub_cancel_left]
      · rw [hoff, List.map_cons, List.sum_cons, Nat.add_assoc]
      · rw [hbelow i (Nat.lt_of_lt_of_le hi (Nat.le_add_right ..))]
        exact if_pos hi

/-- A key is transformed exactly when it could be packed in the other format, and then to the same
key with the same value; and when a node is repacked, every key that is not filtered becomes the
same key with the same value and its bit `needs_whiteout` cleared, in the order of the keys. -/
theorem bkeyTransform_sortRepack :
    (∀ (inF outF : PackFormat) (out input : KeyWords) (k : BkeyHead), ReadIn inF input k →
      ∃ ok words, KeyWords.bch2BkeyTransform outF.toBkeyFormat out inF.toBkeyFormat input =
          some (ok, words) ∧
        (ok = true ↔ ∃ packed, KeyWords.bch2BkeyPackKey out k outF.toBkeyFormat = .ok packed) ∧
        (ok = true →
          KeyWords.bch2BkeyUnpackKey outF.toBkeyFormat words = some { k with pad := 0 } ∧
          words.value outF.keyU64s = input.value inF.keyU64s)) ∧
    ∀ (srcF outF : PackFormat) (dstU64s : ℕ) (dst : KeyWords) (inputs : List KeyWords)
      (filterWhiteouts : Bool), (∀ input ∈ inputs, ∃ k, NodeKey srcF input k) →
      ∃ mem nr outs, bch2SortRepack dstU64s dst srcF.toBkeyFormat outF.toBkeyFormat inputs
          filterWhiteouts =
            some (mem, (dstU64s + (outs.map fun out => out.u64s.toNat).sum) % 2 ^ 16, nr) ∧
        List.Forall₂ (SameKey srcF outF) (keptInputs filterWhiteouts inputs) outs ∧
        KeysAt mem dstU64s outs ∧ ∀ i < dstU64s, mem i = dst i := by
  constructor
  · intro inF outF out input k h
    obtain ⟨ok, words, hwords, hiff, hok⟩ := bch2BkeyTransform_spec inF outF out input h
    refine ⟨ok, words, hwords, hiff, fun htrue => ?_⟩
    obtain ⟨-, hunpack, hvalue, -, -⟩ := hok htrue
    exact ⟨hunpack, hvalue⟩
  · intro srcF outF dstU64s dst inputs filterWhiteouts h
    obtain ⟨s', outs, hloop, hkeys, hat, hoff, hbelow⟩ :=
      repackLoop_spec outF filterWhiteouts { off := dstU64s, mem := dst } h
    refine ⟨s'.mem, s'.nr, outs, ?_, hkeys, hat, hbelow⟩
    rw [bch2SortRepack, hloop, Option.map_some, hoff]

end Subvol

import Mathlib.Algebra.BigOperators.Group.List.Basic
import Subvol.Sb.Field

/-!
# Resizing the fields of a superblock

A superblock whose fields lie one after another stays one under every run of calls that resize and
delete fields. A call changes the field that it names and no other.

## Main definitions

* `SbField`, `SbTiled`: the fields of a superblock, one after another.
* `FieldsResized`: what a field that is resized becomes, and that the others stay.
* `SbCall`, `sbCall`, `SbRun`: the calls, one after another.

## Main results

* `fieldGetId_some`, `fieldGetId_none`: the first field of a type is found.
* `bch2SbFieldResizeAt_field`, `bch2SbFieldResizeAt_none`: a field is resized, or added.
* `sbRun_fields`: every run keeps the fields, but for the calls.
-/

namespace Subvol

open Lib

/-! ### Fields -/

/-- `bch_sb_field`, with the words behind the first. -/
structure SbField where
  type : ℕ
  data : List (BitVec 64)
  type_lt : type < 2 ^ 32
  length_lt : data.length + 1 < 2 ^ 32

namespace SbField

/-- The length of a field, with the first word. -/
def u64s (f : SbField) : ℕ := f.data.length + 1

def words (f : SbField) : List (BitVec 64) := fieldHeader f.type f.u64s :: f.data

theorem u64s_lt (f : SbField) : f.u64s < 2 ^ 32 := f.length_lt

theorem u64s_pos (f : SbField) : 0 < f.u64s := Nat.succ_pos _

@[simp] theorem length_words (f : SbField) : f.words.length = f.u64s := rfl

end SbField

theorem fieldHeader_toNat {type u64s : ℕ} (ht : type < 2 ^ 32) (hu : u64s < 2 ^ 32) :
    fieldU64s (fieldHeader type u64s) = u64s ∧ fieldType (fieldHeader type u64s) = type := by
  have hval : (fieldHeader type u64s).toNat = type * 2 ^ 32 + u64s := by
    rw [fieldHeader, BitVec.toNat_ofNat]
    exact Nat.mod_eq_of_lt (by omega)
  rw [fieldU64s, fieldType, hval]
  omega

theorem SbField.header (f : SbField) :
    fieldU64s (fieldHeader f.type f.u64s) = f.u64s ∧
      fieldType (fieldHeader f.type f.u64s) = f.type :=
  fieldHeader_toNat f.type_lt f.length_lt

/-- The fields lie one after another and fill the variable part, which is in the buffer. -/
structure SbTiled (sb : SbHandle) (fields : List SbField) : Prop where
  words : sb.words.readAt 0 sb.u64s = fields.flatMap SbField.words
  u64s_lt : sb.u64s < 2 ^ 32
  room : vstructBytes sb.u64s ≤ sb.bufferSize

theorem u64s_eq_sum {sb : SbHandle} {fields : List SbField} (h : SbTiled sb fields) :
    sb.u64s = (fields.flatMap SbField.words).length := by
  rw [← h.words, Image.length_readAt]

/-! ### Finding a field -/

/-- The first word of a field that is read. -/
theorem SbField.readAt_header {words : Image (BitVec 64)} {off : ℕ} {f : SbField}
    (h : words.readAt off f.u64s = f.words) :
    words off = fieldHeader f.type f.u64s ∧ words.readAt (off + 1) f.data.length = f.data := by
  rw [SbField.u64s, Image.readAt_succ] at h
  exact List.cons.inj h

/-- The search goes past a field of another type. -/
theorem fieldGetId_step {words : Image (BitVec 64)} {type off last : ℕ} {f : SbField}
    (h : words.readAt off f.u64s = f.words) (hlast : off < last) (hne : f.type ≠ type) :
    fieldGetId words last type off = fieldGetId words last type (off + f.u64s) := by
  obtain ⟨hu64s, htype⟩ := f.header
  have hpos : f.u64s ≠ 0 := Nat.succ_ne_zero _
  rw [fieldGetId, if_pos hlast, (SbField.readAt_header h).1, htype, hu64s, if_neg hne, if_neg hpos]

/-- Where no field has the type, none is found. -/
theorem fieldGetId_none {words : Image (BitVec 64)} {type off : ℕ} {fields : List SbField}
    (h : words.readAt off (fields.flatMap SbField.words).length = fields.flatMap SbField.words)
    (hne : ∀ f ∈ fields, f.type ≠ type) :
    fieldGetId words (off + (fields.flatMap SbField.words).length) type off = some none := by
  induction fields generalizing off with
  | nil => rw [fieldGetId, if_neg (by simp)]
  | cons f rest ih =>
    rw [List.flatMap_cons, List.length_append, SbField.length_words] at h ⊢
    obtain ⟨hf, hrest⟩ := words.readAt_of_append h rfl
    have hpos : 0 < f.u64s := Nat.succ_pos _
    rw [fieldGetId_step hf (by omega) (hne f List.mem_cons_self), ← Nat.add_assoc]
    exact ih hrest fun g hg => hne g (List.mem_cons_of_mem _ hg)

/-- The first field of the type is found. -/
theorem fieldGetId_some {words : Image (BitVec 64)} {off last : ℕ} {before : List SbField}
    {f : SbField} (h : words.readAt off (before.flatMap SbField.words ++ f.words).length =
      before.flatMap SbField.words ++ f.words)
    (hlast : off + (before.flatMap SbField.words).length + f.u64s ≤ last)
    (hne : ∀ g ∈ before, g.type ≠ f.type) :
    fieldGetId words last f.type off =
      some (some (off + (before.flatMap SbField.words).length)) := by
  have hpos : 0 < f.u64s := Nat.succ_pos _
  induction before generalizing off with
  | nil =>
    rw [List.flatMap_nil, List.nil_append, SbField.length_words] at h
    rw [List.flatMap_nil, List.length_nil, Nat.add_zero] at hlast ⊢
    rw [fieldGetId, if_pos (by omega), (SbField.readAt_header h).1, if_pos f.header.2]
  | cons g before ih =>
    rw [List.flatMap_cons, List.append_assoc, List.length_append, SbField.length_words] at h
    rw [List.flatMap_cons, List.length_append, SbField.length_words] at hlast ⊢
    obtain ⟨hg, hrest⟩ := words.readAt_of_append h rfl
    rw [fieldGetId_step hg (by omega) (hne g List.mem_cons_self), ← Nat.add_assoc]
    exact ih hrest (by omega) fun g hg => hne g (List.mem_cons_of_mem _ hg)

/-- Either no field has the type or there is a first one. -/
theorem exists_first (fields : List SbField) (type : ℕ) :
    (∀ f ∈ fields, f.type ≠ type) ∨ ∃ before f after, fields = before ++ f :: after ∧
      f.type = type ∧ ∀ g ∈ before, g.type ≠ type := by
  induction fields with
  | nil => exact Or.inl (by simp)
  | cons f rest ih =>
    by_cases hf : f.type = type
    · exact Or.inr ⟨[], f, rest, rfl, hf, by simp⟩
    · rcases ih with hnone | ⟨before, g, after, rfl, hg, hbefore⟩
      · exact Or.inl (by simpa [hf] using hnone)
      · exact Or.inr ⟨f :: before, g, after, rfl, hg, by simpa [hf] using hbefore⟩

/-! ### Fields in a superblock -/

section Parts

variable {sb : SbHandle} {before after : List SbField} {f : SbField}
  (h : SbTiled sb (before ++ f :: after))
include h

/-- The words of the fields before one, of the field, and of those behind it. -/
theorem tiled_parts :
    sb.u64s = (before.flatMap SbField.words).length + f.u64s +
        (after.flatMap SbField.words).length ∧
      sb.words.readAt 0 (before.flatMap SbField.words).length = before.flatMap SbField.words ∧
      sb.words.readAt (before.flatMap SbField.words).length f.u64s = f.words ∧
      sb.words.readAt ((before.flatMap SbField.words).length + f.u64s)
        (after.flatMap SbField.words).length = after.flatMap SbField.words := by
  have hsum := u64s_eq_sum h
  have hwords := h.words
  rw [List.flatMap_append, List.flatMap_cons] at hwords hsum
  rw [List.length_append, List.length_append, SbField.length_words] at hsum
  rw [hsum] at hwords
  obtain ⟨hbefore, hrest⟩ := sb.words.readAt_of_append hwords rfl
  rw [Nat.zero_add] at hrest
  obtain ⟨hfield, hafter⟩ := sb.words.readAt_of_append hrest rfl
  exact ⟨by omega, hbefore, hfield, hafter⟩

theorem oldU64s_first : oldU64s sb (some (before.flatMap SbField.words).length) = f.u64s := by
  obtain ⟨-, -, hfield, -⟩ := tiled_parts h
  rw [oldU64s, (SbField.readAt_header hfield).1, f.header.1]

/-- The first field of a type is found. -/
theorem bch2SbFieldGetId_first (hbefore : ∀ g ∈ before, g.type ≠ f.type) :
    bch2SbFieldGetId sb f.type = some (some (before.flatMap SbField.words).length) := by
  have hsum := u64s_eq_sum h
  have hwords := h.words
  rw [List.flatMap_append, List.flatMap_cons, ← List.append_assoc] at hwords hsum
  rw [hsum, List.length_append] at hwords
  have hlast : 0 + (before.flatMap SbField.words).length + f.u64s ≤ sb.u64s := by
    rw [hsum, List.length_append, List.length_append, SbField.length_words]
    omega
  have hfound := fieldGetId_some (sb.words.readAt_of_append hwords rfl).1 hlast hbefore
  rw [Nat.zero_add] at hfound
  exact hfound

end Parts

/-- A type that no field has is not found. -/
theorem bch2SbFieldGetId_absent {sb : SbHandle} {fields : List SbField} (h : SbTiled sb fields)
    {type : ℕ} (hnone : ∀ f ∈ fields, f.type ≠ type) : bch2SbFieldGetId sb type = some none := by
  have hsum := u64s_eq_sum h
  have hwords := h.words
  rw [hsum] at hwords
  have hfind := fieldGetId_none hwords hnone
  rw [Nat.zero_add] at hfind
  rw [bch2SbFieldGetId, hsum, hfind]

/-- The search finds the first field of its type. -/
theorem exists_bch2SbFieldGetId {sb : SbHandle} {fields : List SbField} (h : SbTiled sb fields)
    (type : ℕ) : ∃ field, bch2SbFieldGetId sb type = some field := by
  rcases exists_first fields type with hnone | ⟨before, f, after, rfl, rfl, hbefore⟩
  · exact ⟨_, bch2SbFieldGetId_absent h hnone⟩
  · exact ⟨_, bch2SbFieldGetId_first h hbefore⟩

/-- Superblocks of the same fields agree about what is found. -/
theorem SbTiled.getId_congr {sb sb' : SbHandle} {fields : List SbField} (h : SbTiled sb fields)
    (h' : SbTiled sb' fields) {type : ℕ} {field : Option ℕ}
    (hget : bch2SbFieldGetId sb type = some field) :
    bch2SbFieldGetId sb' type = some field ∧ oldU64s sb' field = oldU64s sb field := by
  rcases exists_first fields type with hnone | ⟨before, f, after, rfl, rfl, hbefore⟩
  · rw [bch2SbFieldGetId_absent h hnone] at hget
    obtain rfl := Option.some.inj hget
    exact ⟨bch2SbFieldGetId_absent h' hnone, rfl⟩
  · rw [bch2SbFieldGetId_first h hbefore] at hget
    obtain rfl := Option.some.inj hget
    exact ⟨bch2SbFieldGetId_first h' hbefore, by rw [oldU64s_first h', oldU64s_first h]⟩

/-! ### Resizing a field -/

/-- The first words of the data, with zeros behind them. -/
def resizeData (data : List (BitVec 64)) (n : ℕ) : List (BitVec 64) :=
  data.take n ++ List.replicate (n - data.length) 0

theorem length_resizeData (data : List (BitVec 64)) (n : ℕ) : (resizeData data n).length = n := by
  rw [resizeData, List.length_append, List.length_take, List.length_replicate]
  omega

/-- A field with another length. -/
def SbField.resize (f : SbField) (u64s : ℕ) (hpos : 0 < u64s) (hlt : u64s < 2 ^ 32) : SbField where
  type := f.type
  data := resizeData f.data (u64s - 1)
  type_lt := f.type_lt
  length_lt := by
    rw [length_resizeData]
    omega

theorem SbField.u64s_resize (f : SbField) {u64s : ℕ} (hpos : 0 < u64s) (hlt : u64s < 2 ^ 32) :
    (f.resize u64s hpos hlt).u64s = u64s := by
  rw [SbField.u64s, SbField.resize, length_resizeData]
  omega

/-- The words of a field and of those behind it, before and behind its resizing. -/
theorem resizeWords_spec {words : Image (BitVec 64)} {i n u64s : ℕ} {f : SbField}
    (hf : words.readAt i f.u64s = f.words) (hpos : 0 < u64s) (hlt : u64s < 2 ^ 32) :
    let src := i + f.u64s
    let dst := i + u64s
    let header := setFieldU64s words i u64s
    let moved := header.writeAt dst (header.readAt src n)
    let result := if dst > src then zeroWords moved src (dst - src) else moved
    result.readAt 0 i = words.readAt 0 i ∧
      result.readAt i u64s = (f.resize u64s hpos hlt).words ∧
      result.readAt dst n = words.readAt src n := by
  intro src dst header moved result
  obtain ⟨hhead, hdata⟩ := SbField.readAt_header hf
  have hsrc : src = i + 1 + f.data.length := by
    simp only [src, SbField.u64s]
    omega
  have hdst : dst = i + u64s := rfl
  have hheader : header = words.writeAt i [fieldHeader f.type u64s] := by
    simp only [header, setFieldU64s, hhead, f.header.2]
  -- What each write leaves alone.
  have hkeepHeader {off m : ℕ} (h : i + 1 ≤ off ∨ off + m ≤ i) :
      header.readAt off m = words.readAt off m := by
    rw [hheader]
    exact words.readAt_writeAt_disjoint _ h
  have hkeepMoved {off m : ℕ} (h : off + m ≤ dst) : moved.readAt off m = header.readAt off m :=
    header.readAt_writeAt_disjoint _ (Or.inr h)
  have hkeepResult {off m : ℕ} (h : dst ≤ off ∨ off + m ≤ src) :
      result.readAt off m = moved.readAt off m := by
    simp only [result]
    split_ifs with hgrow
    · refine moved.readAt_writeAt_disjoint _ ?_
      rw [List.length_replicate]
      omega
    · rfl
  refine ⟨?_, ?_, ?_⟩
  · rw [hkeepResult (Or.inr (by omega)), hkeepMoved (by omega), hkeepHeader (Or.inr (by omega))]
  · -- The first word, the words that stay, and the zeros.
    have hfirst : result.readAt i 1 = [fieldHeader f.type u64s] := by
      rw [hkeepResult (Or.inr (by omega)), hkeepMoved (by omega), hheader]
      exact words.readAt_writeAt_self i [fieldHeader f.type u64s]
    have hstay : result.readAt (i + 1) (min (u64s - 1) f.data.length) =
        f.data.take (u64s - 1) := by
      rw [hkeepResult (Or.inr (by omega)), hkeepMoved (by omega), hkeepHeader (Or.inl le_rfl)]
      have hinside := @Image.readAt_inside _ words (i + 1) 0
        (min (u64s - 1) f.data.length) f.data.length (by omega)
      rw [Nat.add_zero, hdata, List.drop_zero] at hinside
      rw [hinside, List.take_eq_take_iff]
      omega
    have hzero : result.readAt (i + 1 + min (u64s - 1) f.data.length)
        (u64s - 1 - f.data.length) = List.replicate (u64s - 1 - f.data.length) 0 := by
      rcases Nat.lt_or_ge src dst with hgrow | hshrink
      · have hat : i + 1 + min (u64s - 1) f.data.length = src := by omega
        have hlen : u64s - 1 - f.data.length = dst - src := by omega
        have hself := moved.readAt_writeAt_self src (List.replicate (dst - src) 0)
        rw [List.length_replicate] at hself
        rw [hat, hlen]
        simp only [result, if_pos hgrow]
        exact hself
      · have hlen : u64s - 1 - f.data.length = 0 := by omega
        rw [hlen]
        rfl
    have hsplit : u64s = 1 + (min (u64s - 1) f.data.length + (u64s - 1 - f.data.length)) := by
      omega
    rw [SbField.words, f.u64s_resize]
    conv_lhs => rw [hsplit]
    rw [Image.readAt_add, Image.readAt_add, hfirst, hstay, hzero]
    rfl
  · rw [hkeepResult (Or.inl le_rfl)]
    have hself := header.readAt_writeAt_self dst (header.readAt src n)
    rw [Image.length_readAt] at hself
    rw [hself, hkeepHeader (Or.inl (by omega))]

/-- The length of a superblock with a field resized. -/
theorem resized_sum {a b c : ℕ} (hc : c ≤ a) (hc' : c < 2 ^ 32) (h : a - c + b < 2 ^ 32) :
    (a + b + (2 ^ 32 - c)) % 2 ^ 32 = a - c + b := by
  have hsum : a + b + (2 ^ 32 - c) = a - c + b + 2 ^ 32 := by omega
  rw [hsum, Nat.add_mod_right, Nat.mod_eq_of_lt h]

section ResizeAt

variable {sb : SbHandle} {before after : List SbField} {f : SbField}
  (h : SbTiled sb (before ++ f :: after)) {u64s : ℕ}
include h

/-- A field is resized, or deleted. -/
theorem bch2SbFieldResizeAt_field (hu : u64s < 2 ^ 32) (hnew : sb.u64s - f.u64s + u64s < 2 ^ 32)
    (hroom : vstructBytes (sb.u64s - f.u64s + u64s) ≤ sb.bufferSize) :
    (u64s = 0 ∧ ∃ sb', bch2SbFieldResizeAt sb (some (before.flatMap SbField.words).length) u64s =
        some (none, sb') ∧ SbTiled sb' (before ++ after)) ∨
      ∃ hpos sb', bch2SbFieldResizeAt sb (some (before.flatMap SbField.words).length) u64s =
        some (some (before.flatMap SbField.words).length, sb') ∧
        SbTiled sb' (before ++ f.resize u64s hpos hu :: after) := by
  obtain ⟨hsum, hbefore, hfield, hafter⟩ := tiled_parts h
  have hold := oldU64s_first h
  have htotal := resized_sum (by omega) f.u64s_lt hnew
  have hrest : sb.u64s - ((before.flatMap SbField.words).length + f.u64s) =
      (after.flatMap SbField.words).length := by omega
  simp only [bch2SbFieldResizeAt, hold, htotal, if_pos hroom, hrest]
  rcases Nat.eq_zero_or_pos u64s with rfl | hpos
  · -- What lies behind is moved down over the field.
    have hnot : ¬(before.flatMap SbField.words).length >
        (before.flatMap SbField.words).length + f.u64s := by omega
    refine Or.inl ⟨rfl, _, rfl, ?_⟩
    refine ⟨?_, hnew, hroom⟩
    simp only [ne_eq, not_true_eq_false, if_false, Nat.add_zero, if_neg hnot]
    have hparts : sb.u64s - f.u64s = (before.flatMap SbField.words).length +
        (after.flatMap SbField.words).length := by omega
    rw [hparts, List.flatMap_append, Image.readAt_add, Nat.zero_add, hafter,
      Image.readAt_writeAt_self, Image.readAt_writeAt_disjoint _ _ (Or.inr (by omega)), hbefore]
  · refine Or.inr ⟨hpos, _, by rw [if_pos hpos.ne'], ?_⟩
    refine ⟨?_, hnew, hroom⟩
    obtain ⟨hlow, hmid, hhigh⟩ := resizeWords_spec (n := (after.flatMap SbField.words).length)
      hfield hpos hu
    have hparts : sb.u64s - f.u64s + u64s = (before.flatMap SbField.words).length + u64s +
        (after.flatMap SbField.words).length := by omega
    dsimp only
    rw [if_pos hpos.ne', hparts, Image.readAt_add, Image.readAt_add, Nat.zero_add, Nat.zero_add,
      hlow, hmid, hhigh, hbefore, hafter, List.flatMap_append, List.flatMap_cons,
      List.append_assoc]

end ResizeAt

/-- No field is resized to nothing. -/
theorem bch2SbFieldResizeAt_nothing {sb : SbHandle} (hlt : sb.u64s < 2 ^ 32)
    (hroom : vstructBytes sb.u64s ≤ sb.bufferSize) :
    bch2SbFieldResizeAt sb none 0 = some (none, sb) := by
  have htotal : (sb.u64s + 0 + (2 ^ 32 - oldU64s sb none)) % 2 ^ 32 = sb.u64s := by
    rw [oldU64s, Nat.add_zero, Nat.sub_zero, Nat.add_mod_right, Nat.mod_eq_of_lt hlt]
  simp only [bch2SbFieldResizeAt, htotal, if_pos hroom, if_true]

/-- A field of zeros. -/
def zeroField (type u64s : ℕ) (ht : type < 2 ^ 32) (hpos : 0 < u64s) (hu : u64s < 2 ^ 32) :
    SbField where
  type := type
  data := List.replicate (u64s - 1) 0
  type_lt := ht
  length_lt := by
    rw [List.length_replicate]
    omega

theorem u64s_zeroField {type u64s : ℕ} (ht : type < 2 ^ 32) (hpos : 0 < u64s) (hu : u64s < 2 ^ 32) :
    (zeroField type u64s ht hpos hu).u64s = u64s := by
  rw [SbField.u64s, zeroField, List.length_replicate]
  omega

/-- The first word of a field is written. -/
theorem writeAt_header (words : Image (BitVec 64)) (i : ℕ) (w : BitVec 64) :
    words.writeAt i [w] i = w :=
  @Image.writeAt_of_mem _ words i 0 [w] Nat.one_pos

theorem setFieldU64s_eq {words : Image (BitVec 64)} {i type u64s : ℕ} (n : ℕ)
    (h : words i = fieldHeader type u64s) (ht : type < 2 ^ 32) (hu : u64s < 2 ^ 32) :
    setFieldU64s words i n = words.writeAt i [fieldHeader type n] := by
  rw [setFieldU64s, h, (fieldHeader_toNat ht hu).2]

theorem setFieldType_eq {words : Image (BitVec 64)} {i type u64s : ℕ} (type' : ℕ)
    (h : words i = fieldHeader type u64s) (ht : type < 2 ^ 32) (hu : u64s < 2 ^ 32) :
    setFieldType words i type' = words.writeAt i [fieldHeader type' u64s] := by
  rw [setFieldType, h, (fieldHeader_toNat ht hu).1]

/-- A field of zeros is added behind the others, with the type that is set afterwards. -/
theorem bch2SbFieldResizeAt_none {sb : SbHandle} {fields : List SbField} (h : SbTiled sb fields)
    {type u64s : ℕ} (ht : type < 2 ^ 32) (hpos : 0 < u64s) (hu : u64s < 2 ^ 32)
    (hnew : sb.u64s + u64s < 2 ^ 32) (hroom : vstructBytes (sb.u64s + u64s) ≤ sb.bufferSize) :
    ∃ sb', bch2SbFieldResizeAt sb none u64s = some (some sb.u64s, sb') ∧
      SbTiled { sb' with words := setFieldType sb'.words sb.u64s type }
        (fields ++ [zeroField type u64s ht hpos hu]) := by
  have htotal : (sb.u64s + u64s + (2 ^ 32 - 0)) % 2 ^ 32 = sb.u64s + u64s :=
    resized_sum (Nat.zero_le _) (by decide) hnew
  obtain ⟨d, rfl⟩ : ∃ d, u64s = d + 1 := ⟨u64s - 1, by omega⟩
  set last := sb.u64s with hlast
  have hzeros :
      (zeroWords sb.words last (d + 1)).readAt last (d + 1) = List.replicate (d + 1) 0 := by
    have hself := sb.words.readAt_writeAt_self last (List.replicate (d + 1) 0)
    rwa [List.length_replicate] at hself
  rw [Image.readAt_succ, List.replicate_succ] at hzeros
  obtain ⟨hfirst, hdata⟩ := List.cons.inj hzeros
  -- The first word is written three times.
  have hwords : setFieldType (setFieldType (setFieldU64s (zeroWords sb.words last (d + 1)) last
      (d + 1)) last 0) last type =
      (((zeroWords sb.words last (d + 1)).writeAt last [fieldHeader 0 (d + 1)]).writeAt last
        [fieldHeader 0 (d + 1)]).writeAt last [fieldHeader type (d + 1)] := by
    have hzero : (0 : ℕ) < 2 ^ 32 := by decide
    rw [@setFieldU64s_eq _ last 0 0 _ hfirst hzero hzero,
      @setFieldType_eq _ last 0 (d + 1) _ (writeAt_header ..) hzero hu,
      @setFieldType_eq _ last 0 (d + 1) _ (writeAt_header ..) hzero hu]
  rw [bch2SbFieldResizeAt, oldU64s]
  dsimp only
  rw [← hlast, htotal, if_pos hroom, if_neg hpos.ne']
  refine ⟨_, rfl, ?_⟩
  refine ⟨?_, hnew, hroom⟩
  dsimp only
  have hkeep (words : Image (BitVec 64)) (w : BitVec 64) {off n : ℕ}
      (hdis : last + 1 ≤ off ∨ off + n ≤ last) :
      (words.writeAt last [w]).readAt off n = words.readAt off n :=
    words.readAt_writeAt_disjoint _ hdis
  rw [hwords, Image.readAt_add, Nat.zero_add, Image.readAt_succ, writeAt_header,
    hkeep _ _ (Or.inl le_rfl), hkeep _ _ (Or.inl le_rfl), hkeep _ _ (Or.inl le_rfl), hdata,
    hkeep _ _ (Or.inr (by omega)), hkeep _ _ (Or.inr (by omega)), hkeep _ _ (Or.inr (by omega)),
    zeroWords, Image.readAt_writeAt_disjoint _ _ (Or.inr (by omega)), h.words, List.flatMap_append,
    List.flatMap_singleton, SbField.words, u64s_zeroField]
  rfl

/-! ### The calls -/

/-- The variable part of a superblock and its flags, without the buffer. -/
structure SameSb (sb sb' : SbHandle) : Prop where
  u64s : sb'.u64s = sb.u64s
  words : sb'.words.readAt 0 sb.u64s = sb.words.readAt 0 sb.u64s
  sbMaxSizeBits : sb'.sbMaxSizeBits = sb.sbMaxSizeBits
  haveLayout : sb'.haveLayout = sb.haveLayout
  fsSb : sb'.fsSb = sb.fsSb

/-- The buffer may grow, and what is in it stays. -/
theorem bch2SbRealloc_ok {sb sb' : SbHandle} {u64s : ℕ} {alloc : Bool}
    (hroom : vstructBytes sb.u64s ≤ sb.bufferSize)
    (h : bch2SbRealloc sb u64s alloc = .ok sb') :
    SameSb sb sb' ∧ vstructBytes u64s ≤ sb'.bufferSize ∧ sb.bufferSize ≤ sb'.bufferSize := by
  have hle := le_nextPowerOfTwo (vstructBytes u64s)
  simp only [bch2SbRealloc] at h
  split_ifs at h with hbig
  · obtain rfl := Except.ok.inj h
    exact ⟨⟨rfl, rfl, rfl, rfl, rfl⟩, hle.trans hbig, le_rfl⟩
  · obtain rfl := Except.ok.inj h
    refine ⟨⟨rfl, List.map_congr_left fun i hi => ?_, rfl, rfl, rfl⟩, hle, by dsimp only; omega⟩
    have hi' := List.mem_range.mp hi
    dsimp only
    rw [vstructBytes] at hroom
    rw [Nat.zero_add, vstructBytes, if_pos (by omega)]

theorem SameSb.tiled {sb sb' : SbHandle} {fields : List SbField} (h : SameSb sb sb')
    (ht : SbTiled sb fields) (hsize : sb.bufferSize ≤ sb'.bufferSize) : SbTiled sb' fields := by
  refine ⟨?_, h.u64s ▸ ht.u64s_lt, h.u64s ▸ ht.room.trans hsize⟩
  rw [h.u64s, h.words, ht.words]

/-- What a call that resizes the first field of a type leaves of the fields. -/
inductive FieldsResized (type u64s : ℕ) : List SbField → List SbField → Prop
  /-- There is no such field, and none is asked for. -/
  | kept {fields : List SbField} (hnone : ∀ f ∈ fields, f.type ≠ type) (hzero : u64s = 0) :
    FieldsResized type u64s fields fields
  /-- There is none, so one of zeros is added behind the others. -/
  | added {fields : List SbField} {g : SbField} (hnone : ∀ f ∈ fields, f.type ≠ type)
      (hpos : 0 < u64s) (htype : g.type = type) (hdata : g.data = List.replicate (u64s - 1) 0) :
    FieldsResized type u64s fields (fields ++ [g])
  /-- It keeps its first words, with zeros behind them. -/
  | resized {before after : List SbField} {f g : SbField} (hbefore : ∀ h ∈ before, h.type ≠ type)
      (hf : f.type = type) (hpos : 0 < u64s) (htype : g.type = type)
      (hdata : g.data = resizeData f.data (u64s - 1)) :
    FieldsResized type u64s (before ++ f :: after) (before ++ g :: after)
  /-- It is deleted. -/
  | deleted {before after : List SbField} {f : SbField} (hbefore : ∀ h ∈ before, h.type ≠ type)
      (hf : f.type = type) (hzero : u64s = 0) :
    FieldsResized type u64s (before ++ f :: after) (before ++ after)

/-- The new length of the superblock fits in 32 bits. -/
def ResizeFits (sb : SbHandle) (type u64s : ℕ) : Prop :=
  ∀ field, bch2SbFieldGetId sb type = some field →
    (sb.u64s : ℤ) - oldU64s sb field + u64s < 2 ^ 32

/-- The buffer cannot grow, or fields may not be resized here. -/
def ResizeRefused (sb : SbHandle) (type u64s : ℕ) (alloc : Bool) : Prop :=
  sb.fsSb = true ∨ ∃ field e, bch2SbFieldGetId sb type = some field ∧
    bch2SbRealloc sb (resizedU64s sb field u64s) alloc = .error e

/-- The type of a field that is there is written again. -/
theorem setFieldType_self {sb : SbHandle} {before after : List SbField} {f : SbField}
    (h : SbTiled sb (before ++ f :: after)) :
    setFieldType sb.words (before.flatMap SbField.words).length f.type = sb.words := by
  obtain ⟨-, -, hfield, -⟩ := tiled_parts h
  have hhead := (SbField.readAt_header hfield).1
  rw [setFieldType_eq f.type hhead f.type_lt f.u64s_lt, ← hhead]
  funext i
  rcases Nat.lt_trichotomy i (before.flatMap SbField.words).length with hlt | rfl | hgt
  · exact sb.words.writeAt_of_lt _ hlt
  · exact writeAt_header ..
  · exact sb.words.writeAt_of_ge _ hgt

/-- Once the buffer has room, the field is resized. -/
theorem resizeAt_tiled {sb : SbHandle} {fields : List SbField} (h : SbTiled sb fields)
    {type u64s : ℕ} (ht : type < 2 ^ 32) (hu : u64s < 2 ^ 32) {field : Option ℕ}
    (hget : bch2SbFieldGetId sb type = some field)
    (hfits : (sb.u64s : ℤ) - oldU64s sb field + u64s < 2 ^ 32)
    (hroom : vstructBytes (resizedU64s sb field u64s) ≤ sb.bufferSize) :
    ∃ field' sb' fields',
      (match bch2SbFieldResizeAt sb field u64s with
        | none => none
        | some (none, sb) => some (none, sb)
        | some (some i, sb) => some (some i, { sb with words := setFieldType sb.words i type })) =
        some (field', sb') ∧ SbTiled sb' fields' ∧ FieldsResized type u64s fields fields' := by
  rcases exists_first fields type with hnone | ⟨before, f, after, rfl, rfl, hbefore⟩
  · rw [bch2SbFieldGetId_absent h hnone] at hget
    obtain rfl := Option.some.inj hget
    have hnew : sb.u64s + u64s < 2 ^ 32 := by
      rw [oldU64s] at hfits
      omega
    have hresized : resizedU64s sb none u64s = sb.u64s + u64s := by
      rw [resizedU64s, oldU64s]
      omega
    rw [hresized] at hroom
    rcases Nat.eq_zero_or_pos u64s with rfl | hpos
    · rw [bch2SbFieldResizeAt_nothing h.u64s_lt h.room]
      exact ⟨none, sb, fields, rfl, h, .kept hnone rfl⟩
    · obtain ⟨sb', hat, htiled⟩ := bch2SbFieldResizeAt_none h ht hpos hu hnew hroom
      rw [hat]
      exact ⟨_, _, _, rfl, htiled, .added hnone hpos rfl rfl⟩
  · rw [bch2SbFieldGetId_first h hbefore] at hget
    obtain rfl := Option.some.inj hget
    have hsum := (tiled_parts h).1
    have hlt := h.u64s_lt
    rw [oldU64s_first h] at hfits
    have hnew : sb.u64s - f.u64s + u64s < 2 ^ 32 := by omega
    have hresized : resizedU64s sb (some (before.flatMap SbField.words).length) u64s =
        sb.u64s - f.u64s + u64s := by
      rw [resizedU64s, oldU64s_first h]
      omega
    rw [hresized] at hroom
    rcases bch2SbFieldResizeAt_field h hu hnew hroom with
      ⟨rfl, sb', hat, htiled⟩ | ⟨hpos, sb', hat, htiled⟩
    · rw [hat]
      exact ⟨_, _, _, rfl, htiled, .deleted hbefore rfl rfl⟩
    · have hself :
          setFieldType sb'.words (before.flatMap SbField.words).length f.type = sb'.words :=
        setFieldType_self (f := f.resize u64s hpos hu) htiled
      rw [hat]
      dsimp only
      rw [hself]
      exact ⟨_, sb', _, rfl, htiled, .resized hbefore rfl hpos rfl rfl⟩

/-- A call to resize a field is refused, or resizes it. -/
theorem bch2SbFieldResizeId_cases {sb : SbHandle} {fields : List SbField} (h : SbTiled sb fields)
    (type u64s : UInt32) (alloc : Bool) (hfits : ResizeFits sb type.toNat u64s.toNat) :
    (ResizeRefused sb type.toNat u64s.toNat alloc ∧ ∃ sb',
        bch2SbFieldResizeId sb type.toNat u64s.toNat alloc = some (none, sb') ∧ SameSb sb sb' ∧
        SbTiled sb' fields) ∨
      ¬ResizeRefused sb type.toNat u64s.toNat alloc ∧ ∃ field sb' fields',
        bch2SbFieldResizeId sb type.toNat u64s.toNat alloc = some (field, sb') ∧
        SbTiled sb' fields' ∧ FieldsResized type.toNat u64s.toNat fields fields' := by
  obtain ⟨field, hfield⟩ := exists_bch2SbFieldGetId h type.toNat
  rw [bch2SbFieldResizeId, hfield]
  dsimp only
  rcases halloc : bch2SbRealloc sb (resizedU64s sb field u64s.toNat) alloc with e | sb₁
  · exact Or.inl ⟨Or.inr ⟨field, e, hfield, halloc⟩, sb, rfl, ⟨rfl, rfl, rfl, rfl, rfl⟩, h⟩
  obtain ⟨hsame, hroom, hsize⟩ := bch2SbRealloc_ok h.room halloc
  have htiled := hsame.tiled h hsize
  dsimp only
  by_cases hfs : sb₁.fsSb = true
  · rw [if_pos hfs]
    exact Or.inl ⟨Or.inl (hsame.fsSb ▸ hfs), sb₁, rfl, hsame, htiled⟩
  rw [if_neg hfs]
  refine Or.inr ⟨?_, ?_⟩
  · rintro (hflag | ⟨field', e, hfield', herr⟩)
    · exact hfs (hsame.fsSb ▸ hflag)
    · rw [hfield] at hfield'
      obtain rfl := Option.some.inj hfield'
      rw [halloc] at herr
      exact nomatch herr
  · -- The search in the buffer that has grown finds the same field.
    obtain ⟨hfield₁, hold⟩ := h.getId_congr htiled hfield
    have hnew := hfits field hfield
    rw [← hsame.u64s, ← hold] at hnew
    have hresized : resizedU64s sb₁ field u64s.toNat = resizedU64s sb field u64s.toNat := by
      rw [resizedU64s, resizedU64s, hold, hsame.u64s]
    rw [hfield₁]
    exact resizeAt_tiled htiled type.toNat_lt u64s.toNat_lt hfield₁ hnew (hresized ▸ hroom)

/-! ### Runs -/

/-- The calls, with what the allocator answers. -/
inductive SbCall
  | resize (type u64s : UInt32) (alloc : Bool)
  | getMinsize (type u64s : UInt32) (alloc : Bool)
  | delete (type : UInt32)

/-- A call: the field that it returns, and the superblock. -/
def sbCall (sb : SbHandle) : SbCall → Option (Option ℕ × SbHandle)
  | .resize type u64s alloc => bch2SbFieldResizeId sb type.toNat u64s.toNat alloc
  | .getMinsize type u64s alloc => bch2SbFieldGetMinsizeId sb type.toNat u64s.toNat alloc
  | .delete type => (bch2SbFieldDelete sb type.toNat).map fun sb => (none, sb)

/-- The first field of the type is not too short. -/
def LongEnough (fields : List SbField) (type u64s : ℕ) : Prop :=
  ∃ before f after, fields = before ++ f :: after ∧ f.type = type ∧
    (∀ g ∈ before, g.type ≠ type) ∧ u64s ≤ f.u64s

namespace SbCall

/-- The new length of the superblock fits in 32 bits. -/
def Fits (sb : SbHandle) : SbCall → Prop
  | resize type u64s _ => ResizeFits sb type.toNat u64s.toNat
  | getMinsize type u64s _ => ∀ field, bch2SbFieldGetId sb type.toNat = some field →
      oldU64s sb field ≤ u64s.toNat → (sb.u64s : ℤ) - oldU64s sb field + u64s.toNat < 2 ^ 32
  | delete _ => True

/-- The call needs a resizing that is refused. -/
def Refused (sb : SbHandle) (fields : List SbField) : SbCall → Prop
  | resize type u64s alloc => ResizeRefused sb type.toNat u64s.toNat alloc
  | getMinsize type u64s alloc => ¬LongEnough fields type.toNat u64s.toNat ∧
      ResizeRefused sb type.toNat u64s.toNat alloc
  | delete _ => False

/-- What the call leaves of the fields. -/
def Changes : SbCall → List SbField → List SbField → Prop
  | resize type u64s _, fields, fields' => FieldsResized type.toNat u64s.toNat fields fields'
  | getMinsize type u64s _, fields, fields' =>
      LongEnough fields type.toNat u64s.toNat ∧ fields' = fields ∨
        ¬LongEnough fields type.toNat u64s.toNat ∧
          FieldsResized type.toNat u64s.toNat fields fields'
  | delete type, fields, fields' => FieldsResized type.toNat 0 fields fields'

end SbCall

/-- A call is refused and the superblock stays, or the call changes the field that it names. -/
def CallKeeps (sb : SbHandle) (fields : List SbField) (c : SbCall) : Prop :=
  ∃ field sb', sbCall sb c = some (field, sb') ∧
    (c.Refused sb fields ∧ SameSb sb sb' ∧ SbTiled sb' fields ∨
      ¬c.Refused sb fields ∧ ∃ fields', SbTiled sb' fields' ∧ c.Changes fields fields')

section Calls

variable {sb : SbHandle} {fields : List SbField} (h : SbTiled sb fields)
include h

theorem sbCall_resize (type u64s : UInt32) (alloc : Bool)
    (hfits : ResizeFits sb type.toNat u64s.toNat) :
    CallKeeps sb fields (.resize type u64s alloc) := by
  rcases bch2SbFieldResizeId_cases h type u64s alloc hfits with
    ⟨href, sb', hcall, hsame, htiled⟩ | ⟨hok, field, sb', fields', hcall, htiled, hchange⟩
  · exact ⟨none, sb', hcall, Or.inl ⟨href, hsame, htiled⟩⟩
  · exact ⟨field, sb', hcall, Or.inr ⟨hok, fields', htiled, hchange⟩⟩

/-- Whether the field that is found is long enough. -/
theorem longEnough_iff {type u64s : ℕ} {field : Option ℕ}
    (hget : bch2SbFieldGetId sb type = some field) :
    LongEnough fields type u64s ↔ ∃ i, field = some i ∧ u64s ≤ oldU64s sb field := by
  constructor
  · rintro ⟨before, f, after, rfl, rfl, hbefore, hle⟩
    rw [bch2SbFieldGetId_first h hbefore] at hget
    obtain rfl := Option.some.inj hget
    exact ⟨_, rfl, by rwa [oldU64s_first h]⟩
  · rintro ⟨i, rfl, hle⟩
    rcases exists_first fields type with hnone | ⟨before, f, after, rfl, rfl, hbefore⟩
    · rw [bch2SbFieldGetId_absent h hnone] at hget
      exact nomatch Option.some.inj hget
    · rw [bch2SbFieldGetId_first h hbefore] at hget
      obtain rfl := Option.some.inj (Option.some.inj hget)
      exact ⟨before, f, after, rfl, rfl, hbefore, by rwa [oldU64s_first h] at hle⟩

theorem sbCall_getMinsize (type u64s : UInt32) (alloc : Bool)
    (hfits : SbCall.Fits sb (.getMinsize type u64s alloc)) :
    CallKeeps sb fields (.getMinsize type u64s alloc) := by
  obtain ⟨field, hget⟩ := exists_bch2SbFieldGetId h type.toNat
  have hlong := @longEnough_iff _ _ h _ u64s.toNat _ hget
  by_cases hkeep : LongEnough fields type.toNat u64s.toNat
  · -- The field is returned as it is.
    obtain ⟨i, rfl, hle⟩ := hlong.mp hkeep
    have hnot : ¬fieldU64s (sb.words i) < u64s.toNat := by
      rw [oldU64s] at hle
      omega
    refine ⟨some i, sb, ?_, Or.inr ⟨fun href => href.1 hkeep, fields, h, Or.inl ⟨hkeep, rfl⟩⟩⟩
    rw [sbCall, bch2SbFieldGetMinsizeId, hget]
    exact if_neg hnot
  · have hshort : oldU64s sb field ≤ u64s.toNat := by
      rcases field with _ | i
      · exact Nat.zero_le _
      · by_contra hlt
        exact hkeep (hlong.mpr ⟨i, rfl, by omega⟩)
    have hcall : sbCall sb (.getMinsize type u64s alloc) =
        sbCall sb (.resize type u64s alloc) := by
      rw [sbCall, sbCall, bch2SbFieldGetMinsizeId, hget]
      rcases field with _ | i
      · rfl
      · have hlt : fieldU64s (sb.words i) < u64s.toNat := by
          by_contra hge
          exact hkeep (hlong.mpr ⟨i, rfl, Nat.le_of_not_lt hge⟩)
        exact if_pos hlt
    have hresize : ResizeFits sb type.toNat u64s.toNat := by
      intro field' hget'
      rw [hget] at hget'
      obtain rfl := Option.some.inj hget'
      exact hfits field hget hshort
    obtain ⟨field', sb', heq, hres⟩ := sbCall_resize h type u64s alloc hresize
    refine ⟨field', sb', hcall.trans heq, ?_⟩
    rcases hres with ⟨href, hsame, htiled⟩ | ⟨hok, fields', htiled, hchange⟩
    · exact Or.inl ⟨⟨hkeep, href⟩, hsame, htiled⟩
    · exact Or.inr ⟨fun href => hok href.2, fields', htiled, Or.inr ⟨hkeep, hchange⟩⟩

theorem sbCall_delete (type : UInt32) : CallKeeps sb fields (.delete type) := by
  rcases exists_first fields type.toNat with hnone | ⟨before, f, after, rfl, hf, hbefore⟩
  · refine ⟨none, sb, ?_, Or.inr ⟨fun href => href, fields, h, .kept hnone rfl⟩⟩
    rw [sbCall, bch2SbFieldDelete, bch2SbFieldGetId_absent h hnone]
    rfl
  · rw [← hf] at hbefore
    have hlt := h.u64s_lt
    have hroom := h.room
    rw [vstructBytes] at hroom
    have hsum := (tiled_parts h).1
    obtain ⟨-, sb', hat, htiled⟩ | ⟨hpos, -⟩ := bch2SbFieldResizeAt_field h
      (by decide : 0 < 2 ^ 32) (by omega) (by rw [vstructBytes]; omega)
    · refine ⟨none, sb', ?_, Or.inr ⟨fun href => href, _, htiled, .deleted (hf ▸ hbefore) hf rfl⟩⟩
      rw [sbCall, bch2SbFieldDelete, ← hf, bch2SbFieldGetId_first h hbefore]
      dsimp only
      rw [hat]
      rfl
    · exact absurd hpos (Nat.lt_irrefl 0)

/-- What a call does. -/
theorem sbCall_keeps (c : SbCall) (hfits : c.Fits sb) : CallKeeps sb fields c :=
  match c, hfits with
  | .resize type u64s alloc, hfits => sbCall_resize h type u64s alloc hfits
  | .getMinsize type u64s alloc, hfits => sbCall_getMinsize h type u64s alloc hfits
  | .delete type, _ => sbCall_delete h type

end Calls

/-- The calls one after another, each of lengths that fit. -/
inductive SbRun (sb₀ : SbHandle) : SbHandle → Prop
  | start : SbRun sb₀ sb₀
  | call {sb sb' : SbHandle} (c : SbCall) (field : Option ℕ) (run : SbRun sb₀ sb)
    (hfits : c.Fits sb) (hcall : sbCall sb c = some (field, sb')) : SbRun sb₀ sb'

/-- After every run the fields fill the superblock, the calls have made them what they are, and the
next call changes the field that it names only, or is refused and changes nothing. -/
theorem sbRun_fields {sb₀ sb : SbHandle} {fields₀ : List SbField} (h₀ : SbTiled sb₀ fields₀)
    (hrun : SbRun sb₀ sb) :
    ∃ fields, SbTiled sb fields ∧
      Relation.ReflTransGen (fun old new => ∃ c : SbCall, c.Changes old new) fields₀ fields ∧
      ∀ c : SbCall, c.Fits sb → CallKeeps sb fields c := by
  suffices hreach : ∃ fields, SbTiled sb fields ∧
      Relation.ReflTransGen (fun old new => ∃ c : SbCall, c.Changes old new) fields₀ fields by
    obtain ⟨fields, htiled, hsteps⟩ := hreach
    exact ⟨fields, htiled, hsteps, sbCall_keeps htiled⟩
  induction hrun with
  | start => exact ⟨fields₀, h₀, .refl⟩
  | call c field run hfits hcall ih =>
    obtain ⟨fields, htiled, hsteps⟩ := ih
    obtain ⟨field', sb'', heq, hres⟩ := sbCall_keeps htiled c hfits
    rw [hcall] at heq
    obtain ⟨rfl, rfl⟩ := Prod.mk.inj (Option.some.inj heq)
    rcases hres with ⟨-, -, hkeep⟩ | ⟨-, fields', hnew, hchange⟩
    · exact ⟨fields, hkeep, hsteps⟩
    · exact ⟨fields', hnew, hsteps.tail ⟨c, hchange⟩⟩

/-- A superblock without fields, in a buffer of 1024 bytes. -/
def emptySb : SbHandle where
  u64s := 0
  sbMaxSizeBits := 3
  words := fun _ => 0
  bufferSize := 1024
  haveLayout := true
  fsSb := false

theorem emptySb_tiled : SbTiled emptySb [] := ⟨rfl, by decide, by decide⟩

/-- A field of four words is asked for. -/
theorem sbRun_fields_asked :
    ∃ sb, SbRun emptySb sb ∧ (∃ field, sbCall emptySb (.resize 1 4 true) = some (field, sb)) ∧
      ∃ fields, SbTiled sb fields ∧
        Relation.ReflTransGen (fun old new => ∃ c : SbCall, c.Changes old new) [] fields ∧
        ∀ c : SbCall, c.Fits sb → CallKeeps sb fields c := by
  have hfits : SbCall.Fits emptySb (.resize 1 4 true) := by
    intro field _
    have hfour : (4 : UInt32).toNat = 4 := rfl
    have hempty : emptySb.u64s = 0 := rfl
    rw [hfour, hempty]
    omega
  obtain ⟨field, sb, hcall, -⟩ := sbCall_keeps emptySb_tiled _ hfits
  have hrun : SbRun emptySb sb := .call _ field .start hfits hcall
  exact ⟨sb, hrun, ⟨field, hcall⟩, sbRun_fields emptySb_tiled hrun⟩

end Subvol

import Mathlib.Data.List.Forall2
import Subvol.Btree.PackPos

/-!
# The format of a node

`bch2_bkey_format_done` builds a format from the least and the greatest value that each field of
the keys and positions of a node has: a field gets the bits for its values and the least of them as
its offset. Bits that are left over in the last word then widen fields to whole bytes.

## Main definitions

* `FormatCall`, `formatState`: keys and positions are added.
* `FieldRange`: a field of a format that holds all values from `lo` to `hi`.

## Main results

* `roundFields_spec`: widening keeps what the fields hold and uses the bits that are left.
* `bch2BkeyFormatDone_packs`: the format is accepted, and packs all that was added.
-/

namespace Subvol

open Lib

/-! ### Adding keys -/

/-- `bkey`, as `bch2_bkey_pack_key` takes it. -/
structure UnpackedKey extends BkeyHead where
  current : format &&& 0x7f = keyFormatCurrent
  u64s_le : bkeyU64s ≤ u64s.toNat

/-- A call that adds a key or a position. -/
inductive FormatCall
  | key (k : UnpackedKey)
  | pos (p : Bpos)

/-- The values that a call adds to the first fields. -/
def FormatCall.values : FormatCall → List ℕ
  | .key k => k.fieldValues
  | .pos p => [p.inode, p.offset, p.snapshot]

/-- The state behind some calls. -/
def formatState (calls : List FormatCall) : BkeyFormatState :=
  calls.foldl (fun state call => bkeyFormatAdd state call.values) bch2BkeyFormatInit

/-! ### The values of a field -/

/-- A field of a format that does not overflow and holds all values from `lo` to `hi`. -/
structure FieldRange (unpackedBits lo hi : ℕ) (f : ℕ × ℕ) : Prop where
  bits_le : f.1 ≤ unpackedBits
  full : f.1 = unpackedBits → f.2 = 0
  room : f.2 + 2 ^ f.1 ≤ 2 ^ unpackedBits
  le : f.2 ≤ lo
  lt : hi < f.2 + 2 ^ f.1

theorem FieldRange.fits {u lo hi v : ℕ} {f : ℕ × ℕ} (h : FieldRange u lo hi f) (hlo : lo ≤ v)
    (hhi : v ≤ hi) : fieldFits f v = true := by
  have hle := h.le
  have hlt := h.lt
  rw [fieldFits, decide_eq_true_eq]
  omega

/-- A field is set to bits that are enough for its values. -/
theorem setFormatField_range {u bits offset lo hi : ℕ} (hle : offset ≤ lo)
    (hlt : hi < offset + 2 ^ bits) (hhi : hi < 2 ^ u) :
    FieldRange u lo hi (setFormatField u bits offset) := by
  have hpos := Nat.two_pow_pos u
  rw [setFormatField]
  rcases Nat.lt_or_ge bits u with hless | hge
  · have hpow : 2 ^ bits ≤ 2 ^ u := Nat.pow_le_pow_right Nat.two_pos hless.le
    rw [Nat.min_eq_left hless.le, if_neg hless.ne]
    refine ⟨hless.le, fun heq => absurd heq hless.ne, ?_, ?_, ?_⟩
    · dsimp only
      omega
    · dsimp only
      omega
    · dsimp only
      omega
  · rw [Nat.min_eq_right hge, if_pos rfl]
    refine ⟨le_rfl, fun _ => rfl, ?_, Nat.zero_le lo, ?_⟩
    · dsimp only
      omega
    · dsimp only
      omega

/-- More bits hold the same values. -/
theorem FieldRange.widen {u lo hi extra : ℕ} {f : ℕ × ℕ} (h : FieldRange u lo hi f)
    (hhi : hi < 2 ^ u) : FieldRange u lo hi (setFormatField u (f.1 + extra) f.2) := by
  have hpow : 2 ^ f.1 ≤ 2 ^ (f.1 + extra) := Nat.pow_le_pow_right Nat.two_pos (Nat.le_add_right ..)
  have hlt := h.lt
  exact setFormatField_range h.le (by omega) hhi

/-- A field with the range of its values and the bits that it has in an unpacked key. -/
structure FieldSpec where
  unpackedBits : ℕ
  lo : ℕ
  hi : ℕ
  hi_lt : hi < 2 ^ unpackedBits

/-- Widening keeps what the fields hold and uses the bits that are left. -/
theorem roundFields_spec {specs : List FieldSpec} {fields : List (ℕ × ℕ)} (left : ℕ)
    (h : List.Forall₂ (fun s f => FieldRange s.unpackedBits s.lo s.hi f) specs fields) :
    List.Forall₂ (fun s f => FieldRange s.unpackedBits s.lo s.hi f) specs
        (roundFields left ((specs.map FieldSpec.unpackedBits).zip fields)) ∧
      fieldBits (roundFields left ((specs.map FieldSpec.unpackedBits).zip fields)) ≤
        fieldBits fields + left := by
  induction h generalizing left with
  | nil => exact ⟨List.Forall₂.nil, Nat.zero_le _⟩
  | @cons s f specs fields hf hrest ih =>
    rw [List.map_cons, List.zip_cons_cons, roundFields]
    split_ifs with hextra
    · obtain ⟨hrange, hbits⟩ := ih (left - ((f.1 + 7) / 8 * 8 - f.1))
      refine ⟨List.Forall₂.cons (hf.widen s.hi_lt) hrange, ?_⟩
      have hle : (setFormatField s.unpackedBits (f.1 + ((f.1 + 7) / 8 * 8 - f.1)) f.2).1 ≤
          f.1 + ((f.1 + 7) / 8 * 8 - f.1) := Nat.min_le_left ..
      rw [fieldBits_cons, fieldBits_cons]
      omega
    · obtain ⟨hrange, hbits⟩ := ih left
      refine ⟨List.Forall₂.cons hf hrange, ?_⟩
      rw [fieldBits_cons, fieldBits_cons]
      omega

/-! ### The values that were added -/

/-- Every value is between the least and the greatest one of its field. -/
def Covers (state : BkeyFormatState) (vs : List ℕ) : Prop :=
  ∀ (i v : ℕ), vs[i]? = some v → ∃ f : ℕ × ℕ, state[i]? = some f ∧ f.1 ≤ v ∧ v ≤ f.2

/-- There are as many fields as a key has, and each value fits into its field. -/
structure StateBounded (state : BkeyFormatState) : Prop where
  length : state.length = 6
  lt : ∀ (i : ℕ) (f : ℕ × ℕ), state[i]? = some f → f.2 < 2 ^ PackFormat.unpackedBits i

theorem bkeyFormatAdd_getElem? (state : BkeyFormatState) (vs : List ℕ) (i : ℕ) :
    (bkeyFormatAdd state vs)[i]? = state[i]?.map fun f =>
      match vs[i]? with
      | some v => (min f.1 v, max f.2 v)
      | none => f := by
  unfold bkeyFormatAdd
  exact List.getElem?_mapIdx

theorem Covers.add {state : BkeyFormatState} {vs : List ℕ} (h : Covers state vs) (ws : List ℕ) :
    Covers (bkeyFormatAdd state ws) vs := by
  intro i v hv
  obtain ⟨f, hf, hle, hge⟩ := h i v hv
  rw [bkeyFormatAdd_getElem?, hf, Option.map_some]
  refine ⟨_, rfl, ?_⟩
  split
  · exact ⟨(min_le_left ..).trans hle, hge.trans (le_max_left ..)⟩
  · exact ⟨hle, hge⟩

theorem covers_add {state : BkeyFormatState} {vs : List ℕ} (h : vs.length ≤ state.length) :
    Covers (bkeyFormatAdd state vs) vs := by
  intro i v hv
  obtain ⟨hi, -⟩ := List.getElem?_eq_some_iff.mp hv
  rw [bkeyFormatAdd_getElem?, List.getElem?_eq_getElem (hi.trans_le h), hv, Option.map_some]
  exact ⟨_, rfl, min_le_right .., le_max_right ..⟩

theorem FormatCall.values_lt (call : FormatCall) {i v : ℕ} (h : call.values[i]? = some v) :
    i < 6 ∧ v < 2 ^ PackFormat.unpackedBits i := by
  cases call with
  | key k =>
    match i, h with
    | 0, h => exact ⟨by decide, Option.some.inj h ▸ k.p.inode.isLt⟩
    | 1, h => exact ⟨by decide, Option.some.inj h ▸ k.p.offset.isLt⟩
    | 2, h => exact ⟨by decide, Option.some.inj h ▸ k.p.snapshot.isLt⟩
    | 3, h => exact ⟨by decide, Option.some.inj h ▸ k.size.isLt⟩
    | 4, h => exact ⟨by decide, Option.some.inj h ▸ k.versionHi.isLt⟩
    | 5, h => exact ⟨by decide, Option.some.inj h ▸ k.versionLo.isLt⟩
  | pos p =>
    match i, h with
    | 0, h => exact ⟨by decide, Option.some.inj h ▸ p.inode.isLt⟩
    | 1, h => exact ⟨by decide, Option.some.inj h ▸ p.offset.isLt⟩
    | 2, h => exact ⟨by decide, Option.some.inj h ▸ p.snapshot.isLt⟩

theorem FormatCall.length_values_le (call : FormatCall) : call.values.length ≤ 6 := by
  cases call with
  | key k => exact le_rfl
  | pos p => exact (by decide : 3 ≤ 6)

theorem StateBounded.add {state : BkeyFormatState} (h : StateBounded state) (call : FormatCall) :
    StateBounded (bkeyFormatAdd state call.values) := by
  refine ⟨by rw [bkeyFormatAdd, List.length_mapIdx, h.length], fun i f hf => ?_⟩
  rw [bkeyFormatAdd_getElem?] at hf
  obtain ⟨g, hg, rfl⟩ := Option.map_eq_some_iff.mp hf
  split
  · next v hv => exact max_lt (h.lt i g hg) (call.values_lt hv).2
  · exact h.lt i g hg

/-- The values of every call are covered, and stay so. -/
theorem foldl_covers {state : BkeyFormatState} (calls : List FormatCall) (h : StateBounded state) :
    StateBounded (calls.foldl (fun state call => bkeyFormatAdd state call.values) state) ∧
      (∀ vs, Covers state vs →
        Covers (calls.foldl (fun state call => bkeyFormatAdd state call.values) state) vs) ∧
      ∀ call ∈ calls,
        Covers (calls.foldl (fun state call => bkeyFormatAdd state call.values) state)
          call.values := by
  induction calls generalizing state with
  | nil => exact ⟨h, fun _ hvs => hvs, by simp⟩
  | cons call calls ih =>
    rw [List.foldl_cons]
    obtain ⟨hbounded, hkeep, hall⟩ := ih (h.add call)
    refine ⟨hbounded, fun vs hvs => hkeep vs (hvs.add _), fun c hc => ?_⟩
    rcases List.mem_cons.mp hc with rfl | hc
    · exact hkeep _ (covers_add (h.length ▸ c.length_values_le))
    · exact hall c hc

theorem stateBounded_init : StateBounded bch2BkeyFormatInit := by
  refine ⟨rfl, fun i f hf => ?_⟩
  have hzero : ∀ j : ℕ, bch2BkeyFormatInit[j]? = some f → f.2 = 0 := by
    intro j hj
    have hmem := List.mem_of_getElem? hj
    simp only [bch2BkeyFormatInit, List.replicate, List.set, List.mem_cons, List.not_mem_nil,
      or_false] at hmem
    rcases hmem with rfl | rfl | rfl | rfl | rfl | rfl <;> rfl
  rw [hzero i hf]
  exact Nat.two_pow_pos _

/-! ### The format -/

/-- The fields of a state with the ranges of their values. -/
theorem exists_specs {state : BkeyFormatState} (h : StateBounded state) :
    ∃ specs : List FieldSpec, specs.map FieldSpec.unpackedBits =
        bkeyFormatCurrent.fields.map Prod.fst ∧
      List.Forall₂ (fun s f => s.lo = min f.1 f.2 ∧ s.hi = f.2) specs state := by
  match state, h.length with
  | [f₀, f₁, f₂, f₃, f₄, f₅], _ =>
    refine ⟨[⟨64, min f₀.1 f₀.2, f₀.2, h.lt 0 f₀ rfl⟩, ⟨64, min f₁.1 f₁.2, f₁.2, h.lt 1 f₁ rfl⟩,
      ⟨32, min f₂.1 f₂.2, f₂.2, h.lt 2 f₂ rfl⟩, ⟨32, min f₃.1 f₃.2, f₃.2, h.lt 3 f₃ rfl⟩,
      ⟨32, min f₄.1 f₄.2, f₄.2, h.lt 4 f₄ rfl⟩, ⟨64, min f₅.1 f₅.2, f₅.2, h.lt 5 f₅ rfl⟩], rfl, ?_⟩
    simp

/-- The fields before they are widened. -/
def tightFields (specs : List FieldSpec) : List (ℕ × ℕ) :=
  specs.map fun s => setFormatField s.unpackedBits (bitsOf (s.hi - s.lo)) s.lo

theorem tightFields_range (specs : List FieldSpec) :
    List.Forall₂ (fun s f => FieldRange s.unpackedBits s.lo s.hi f) specs (tightFields specs) := by
  rw [tightFields, List.forall₂_map_right_iff, List.forall₂_same]
  intro s _
  have hbits := (bitsOf_le_iff (s.hi - s.lo) _).mp le_rfl
  exact setFormatField_range le_rfl (by omega) s.hi_lt

theorem fieldBits_tightFields_le (specs : List FieldSpec) :
    fieldBits (tightFields specs) ≤ (specs.map FieldSpec.unpackedBits).sum := by
  induction specs with
  | nil => exact le_rfl
  | cons s specs ih =>
    have hhead : (setFormatField s.unpackedBits (bitsOf (s.hi - s.lo)) s.lo).1 ≤ s.unpackedBits :=
      Nat.min_le_right ..
    rw [tightFields, List.map_cons, fieldBits_cons, List.map_cons, List.sum_cons]
    exact Nat.add_le_add hhead ih

/-- The format of a state, by the ranges of its values. -/
theorem bch2BkeyFormatDone_eq {state : BkeyFormatState} {specs : List FieldSpec}
    (hbits : specs.map FieldSpec.unpackedBits = bkeyFormatCurrent.fields.map Prod.fst)
    (h : List.Forall₂ (fun s f => s.lo = min f.1 f.2 ∧ s.hi = f.2) specs state) :
    bch2BkeyFormatDone state =
      let bits := keyPackedBitsStart + fieldBits (tightFields specs)
      ⟨(bits + 63) / 64, roundFields ((bits + 63) / 64 * 64 - bits)
        ((specs.map FieldSpec.unpackedBits).zip (tightFields specs))⟩ := by
  have hfields : (((bkeyFormatCurrent.fields.map Prod.fst).zip state).map fun f =>
      setFormatField f.1 (bitsOf (f.2.2 - min f.2.1 f.2.2)) (min f.2.1 f.2.2)) =
        tightFields specs := by
    rw [← hbits, tightFields]
    clear hbits
    induction h with
    | nil => rfl
    | @cons s f specs state hf _ ih =>
      rw [List.map_cons, List.zip_cons_cons, List.map_cons, List.map_cons, ih, hf.1, hf.2]
  rw [bch2BkeyFormatDone]
  dsimp only
  rw [hfields, hbits]
  rfl

/-- A field that holds its values does not overflow. -/
theorem not_overflows {f : BkeyFormat} {i lo hi : ℕ}
    (h : FieldRange (PackFormat.unpackedBits i) lo hi (f.fields.getD i (0, 0))) :
    bch2BkeyFormatFieldOverflows f i = false := by
  have hle := h.bits_le
  have hfull := h.full
  have hroom := h.room
  have hpos := Nat.two_pow_pos (f.fields.getD i (0, 0)).1
  have hle64 := PackFormat.unpackedBits_le i
  have hpow : 2 ^ PackFormat.unpackedBits i ≤ 2 ^ 64 := Nat.pow_le_pow_right Nat.two_pos hle64
  rw [PackFormat.unpackedBits] at hle hfull hroom hpow
  rw [bch2BkeyFormatFieldOverflows]
  generalize f.fields.getD i (0, 0) = g at hle hfull hroom hpos ⊢
  generalize bkeyFormatCurrent.fields.getD i (0, 0) = u at hle hfull hroom hpow ⊢
  obtain ⟨bits, offset⟩ := g
  obtain ⟨unpacked, z⟩ := u
  dsimp only at hle hfull hroom hpos hpow ⊢
  rw [if_neg (by omega), if_neg (fun hboth => hboth.2 (hfull hboth.1)), decide_eq_false_iff_not,
    bitsMask_eq, bitsMask_eq, Nat.and_two_pow_sub_one_eq_mod, Nat.mod_eq_of_lt (by omega),
    Nat.mod_eq_of_lt (by omega)]
  omega

theorem getD_range {specs : List FieldSpec} {fields : List (ℕ × ℕ)}
    (h : List.Forall₂ (fun s f => FieldRange s.unpackedBits s.lo s.hi f) specs fields)
    (hunpacked : specs.map FieldSpec.unpackedBits = bkeyFormatCurrent.fields.map Prod.fst) {i : ℕ}
    (hi : i < specs.length) : ∃ s, specs[i]? = some s ∧
      FieldRange (PackFormat.unpackedBits i) s.lo s.hi (fields.getD i (0, 0)) := by
  have hi' : i < fields.length := h.length_eq ▸ hi
  have hsame : specs[i].unpackedBits = PackFormat.unpackedBits i := by
    have hget := congrArg (·[i]?) hunpacked
    simp only [List.getElem?_map, List.getElem?_eq_getElem hi, Option.map_some] at hget
    obtain ⟨g, hg, heq⟩ := Option.map_eq_some_iff.mp hget.symm
    rw [PackFormat.unpackedBits, List.getD_eq_getElem?_getD, hg]
    exact heq.symm
  refine ⟨specs[i], List.getElem?_eq_getElem hi, ?_⟩
  rw [← hsame, List.getD_eq_getElem _ _ hi']
  exact h.get hi hi'

/-- The format of a state is accepted, and its fields hold the values. -/
theorem bch2BkeyFormatDone_range {state : BkeyFormatState} (h : StateBounded state) :
    ∃ (f : PackFormat) (specs : List FieldSpec), f.toBkeyFormat = bch2BkeyFormatDone state ∧
      List.Forall₂ (fun s f => s.lo = min f.1 f.2 ∧ s.hi = f.2) specs state ∧
      List.Forall₂ (fun s f => FieldRange s.unpackedBits s.lo s.hi f) specs f.fields := by
  obtain ⟨specs, hunpacked, hstate⟩ := exists_specs h
  have heq := bch2BkeyFormatDone_eq hunpacked hstate
  have hsum := fieldBits_tightFields_le specs
  rw [hunpacked] at hsum
  have hcurrent : (bkeyFormatCurrent.fields.map Prod.fst).sum = 288 := rfl
  have hstart : keyPackedBitsStart = 24 := rfl
  obtain ⟨hrange, hround⟩ := roundFields_spec
    ((keyPackedBitsStart + fieldBits (tightFields specs) + 63) / 64 * 64 -
      (keyPackedBitsStart + fieldBits (tightFields specs))) (tightFields_range specs)
  have hlen : specs.length = 6 := by rw [hstate.length_eq, h.length]
  obtain ⟨f, hf⟩ : ∃ f, f = bch2BkeyFormatDone state := ⟨_, rfl⟩
  rw [← hf] at heq ⊢
  have hwords := congrArg BkeyFormat.keyU64s heq
  have hfields := congrArg BkeyFormat.fields heq
  dsimp only at hwords hfields
  rw [← hfields] at hrange hround
  refine ⟨⟨f, ?_, ?_, ?_, fun i hi => ?_, ?_⟩, specs, rfl, hstate, hrange⟩
  · exact hrange.length_eq ▸ hlen
  · omega
  · omega
  · obtain ⟨s, -, hs⟩ := getD_range hrange hunpacked (hlen ▸ hi)
    exact not_overflows hs
  · omega

/-- Values that were added fit the format. -/
theorem fits_of_covers {state : BkeyFormatState} {specs : List FieldSpec}
    {fields : List (ℕ × ℕ)} {vs : List ℕ}
    (hstate : List.Forall₂ (fun s f => s.lo = min f.1 f.2 ∧ s.hi = f.2) specs state)
    (hrange : List.Forall₂ (fun s f => FieldRange s.unpackedBits s.lo s.hi f) specs fields)
    (h : Covers state vs) : ∀ x ∈ fields.zip vs, fieldFits x.1 x.2 = true := by
  intro x hx
  obtain ⟨i, hi, rfl⟩ := List.mem_iff_getElem.mp hx
  rw [List.length_zip, Nat.lt_min] at hi
  have hspec : i < specs.length := hrange.length_eq ▸ hi.1
  obtain ⟨f, hf, hle, hge⟩ := h i vs[i] (List.getElem?_eq_getElem hi.2)
  obtain ⟨hs, rfl⟩ := List.getElem?_eq_some_iff.mp hf
  have hlohi := hstate.get hspec hs
  have hfield := hrange.get hspec hi.1
  rw [List.getElem_zip]
  refine hfield.fits ?_ ?_
  · exact hlohi.1.le.trans ((min_le_left ..).trans hle)
  · exact hge.trans hlohi.2.ge

/-- The format that is built for some keys and positions has one to five words and room for its
fields and the header, none of its fields overflows, and it packs every one of them. -/
theorem bch2BkeyFormatDone_packs (calls : List FormatCall) :
    let f := bch2BkeyFormatDone (formatState calls)
    f.fields.length = 6 ∧ 1 ≤ f.keyU64s ∧ f.keyU64s ≤ 5 ∧
      24 + (f.fields.map Prod.fst).sum ≤ 64 * f.keyU64s ∧
      (∀ i < 6, bch2BkeyFormatFieldOverflows f i = false) ∧
      ∀ out, (∀ k, .key k ∈ calls →
          ∃ words, KeyWords.bch2BkeyPackKey out k.toBkeyHead f = .ok words) ∧
        ∀ p, .pos p ∈ calls → ∃ words, KeyWords.bch2BkeyPackPos out p f = .ok words := by
  intro f
  obtain ⟨hbounded, -, hcovers⟩ := foldl_covers calls stateBounded_init
  obtain ⟨g, specs, hg, hstate, hrange⟩ := bch2BkeyFormatDone_range hbounded
  obtain hf : f = g.toBkeyFormat := hg.symm
  rw [hf]
  refine ⟨g.nrFields, g.keyU64s_pos, g.keyU64s_le, g.room, g.overflows, fun out => ⟨?_, ?_⟩⟩
  · intro k hk
    have hfits := fits_of_covers hstate hrange (hcovers _ hk)
    have hle := g.keyU64s_le
    have hu64s := k.u64s.toNat_lt
    rcases bch2BkeyPackKey_cases g k.toBkeyHead out k.current (by rw [bkeyU64s]; omega) with
      ⟨-, words, hwords, -⟩ | ⟨hmis, -⟩
    · exact ⟨words, hwords⟩
    · exact absurd hfits hmis
  · intro p hp
    rcases bch2BkeyPackPos_cases g out p with ⟨words, hwords, -⟩ | ⟨hmis, -⟩
    · exact ⟨words, hwords⟩
    · exact absurd (fits_of_covers hstate hrange (hcovers _ hp)) hmis

end Subvol

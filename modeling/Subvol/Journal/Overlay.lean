import Mathlib.Logic.Relation
import Subvol.Journal.Keys

/-!
# Lookups in the overlay of journal keys

A lookup goes through the array from an index on and skips the runs of overwritten keys as a whole.
The array is sorted and the ranges are the runs (`JournalKeys.Ok`), so what it returns is the least
or the greatest key that is not overwritten, and a lookup can go on where the last one stopped.

## Main definitions

* `bch2JournalKeysPeekMax`, `bch2JournalKeysPeekSlot`, `bch2JournalKeysPeekPrevMin`.
* `LeastLive`, `GreatestLive`, `ExactLive`: what a lookup is to return.
* `PeekCursor`: the bounds and the index of a lookup that goes on from the ones before it.
* `KeysStep`, `KeysRun`: the sequences of calls.

## Main results

* `peekMaxLoop_spec`, `peekPrevLoop_spec`: what the loops find.
* `journal_keys_overlay`: every sequence of calls.
-/

namespace Subvol

open Lib

/-! ### Lookups -/

/-- Whether a key is of the given tree and level and lies between two positions. -/
def JournalKey.within (key : JournalKey) (btreeId level : Fin 256) (lo hi : Bpos) : Bool :=
  key.inTree btreeId level && decide (lo ≤ key.k.p ∧ key.k.p ≤ hi)

/-- The loop of `bch2_journal_keys_peek_max` from `idx` on: the key found and the index it stops at.
The first argument bounds the rounds. -/
def peekMaxLoop (keys : JournalKeys) (btreeId level : Fin 256) (pos endPos : Bpos) :
    ℕ → ℕ → Option JournalKey × ℕ
  | 0, idx => (none, idx)
  | fuel + 1, idx =>
    match keys.data[idx]? with
    | none => (none, idx)
    | some key =>
      if key.within btreeId level pos endPos then
        if key.overwritten then
          let range := key.overwrittenRange
          if range ≠ 0 ∧ range < keys.overwrites.length then
            peekMaxLoop keys btreeId level pos endPos fuel (rangeAt keys.overwrites range).2
          else peekMaxLoop keys btreeId level pos endPos fuel (idx + 1)
        else (some key, idx)
      else peekMaxLoop keys btreeId level pos endPos fuel (idx + 1)

/-- `bch2_journal_keys_peek_max`: the key and the new value of `idx`; `none` is a failed assertion. -/
def bch2JournalKeysPeekMax (keys : JournalKeys) (btreeId level : Fin 256) (pos endPos : Bpos)
    (idx : ℕ) : Option (Option JournalKey × ℕ) :=
  if idx ≤ keys.data.length then
    some (peekMaxLoop keys btreeId level pos endPos (keys.data.length + 1) idx)
  else none

/-- `bch2_journal_keys_peek_slot`. -/
def bch2JournalKeysPeekSlot (keys : JournalKeys) (btreeId level : Fin 256) (pos : Bpos) :
    Option JournalKey := do
  let (key, _) ← bch2JournalKeysPeekMax keys btreeId level pos pos 0
  let key ← key
  if key.k.p = pos then some key else none

/-- The loop of `bch2_journal_keys_peek_prev_min` below `cursor`. -/
def peekPrevLoop (keys : JournalKeys) (btreeId level : Fin 256) (pos endPos : Bpos) :
    ℕ → ℕ → Option JournalKey × ℕ
  | 0, _ => (none, 0)
  | _ + 1, 0 => (none, 0)
  | fuel + 1, cursor + 1 =>
    match keys.data[cursor]? with
    | none => (none, 0)
    | some key =>
      if key.within btreeId level endPos pos then
        if key.overwritten then
          let range := key.overwrittenRange
          if range ≠ 0 ∧ range < keys.overwrites.length then
            peekPrevLoop keys btreeId level pos endPos fuel (rangeAt keys.overwrites range).1
          else peekPrevLoop keys btreeId level pos endPos fuel cursor
        else (some key, cursor)
      else peekPrevLoop keys btreeId level pos endPos fuel cursor

/-- `bch2_journal_keys_peek_prev_min`. -/
def bch2JournalKeysPeekPrevMin (keys : JournalKeys) (btreeId level : Fin 256) (pos endPos : Bpos)
    (idx : ℕ) : Option (Option JournalKey × ℕ) :=
  if idx ≤ keys.data.length then
    let cursor := if idx = 0 then keys.data.length else min (idx + 1) keys.data.length
    some (peekPrevLoop keys btreeId level pos endPos (keys.data.length + 1) cursor)
  else none

/-! ### What the loops find -/

section Loops

variable {keys : JournalKeys} {btreeId level : Fin 256} {lo hi : Bpos}

/-- No key between two indices is to be found: those within the bounds are overwritten. -/
def NoneLive (keys : JournalKeys) (btreeId level : Fin 256) (lo hi : Bpos) (a b : ℕ) : Prop :=
  ∀ k x, a ≤ k → k < b → keys.data[k]? = some x → x.within btreeId level lo hi = true →
    x.overwritten = true

theorem NoneLive.trans {a b c : ℕ} (h₁ : NoneLive keys btreeId level lo hi a b)
    (h₂ : NoneLive keys btreeId level lo hi b c) : NoneLive keys btreeId level lo hi a c := by
  intro k x ha hc
  rcases Nat.lt_or_ge k b with hk | hk
  · exact h₁ k x ha hk
  · exact h₂ k x hk hc

/-- A key outside the bounds is not to be found. -/
theorem noneLive_outside {i : ℕ} {key : JournalKey} (hget : keys.data[i]? = some key)
    (hout : ¬key.within btreeId level lo hi = true) :
    NoneLive keys btreeId level lo hi i (i + 1) := by
  intro k x ha hb hx hin
  obtain rfl : k = i := by omega
  rw [hget] at hx
  cases hx
  exact absurd hin hout

/-- The run of an overwritten key, as the lookups read it. -/
theorem JournalKeys.Ok.range (h : keys.Ok) {i : ℕ} {key : JournalKey}
    (hget : keys.data[i]? = some key) (hover : key.overwritten = true) :
    ∃ s e, rangeAt keys.overwrites key.overwrittenRange = (s, e) ∧
      (key.overwrittenRange ≠ 0 ∧ key.overwrittenRange < keys.overwrites.length) ∧
      s ≤ i ∧ i < e ∧ IsRun (marksOf JournalKey.mark keys.data) (key.btreeId, key.level) s e := by
  have hmark : marksOf JournalKey.mark keys.data i = some (key.btreeId, key.level) := by
    rw [marksOf, hget, Option.bind_some]
    exact JournalKey.mark_eq_some.mpr ⟨hover, rfl⟩
  have hlabel : labelsOf JournalKey.overwrittenRange keys.data i = key.overwrittenRange := by
    rw [labelsOf, hget]
    rfl
  obtain ⟨s, e, hs, he, hrun⟩ := rangeRun_of_mark h hmark
  rw [hlabel] at hrun
  exact ⟨s, e, rangeAt_of_row hrun.row,
    ⟨hrun.ne_zero, (List.getElem?_eq_some_iff.mp hrun.row).1⟩, hs, he, hrun.run⟩

/-- A run holds no key to be found. -/
theorem noneLive_run {c : Fin 256 × Fin 256} {s e : ℕ}
    (h : IsRun (marksOf JournalKey.mark keys.data) c s e) :
    NoneLive keys btreeId level lo hi s e := by
  intro k x hs he hx _
  have hmark := h.marked k hs he
  rw [marksOf, hx, Option.bind_some] at hmark
  exact (JournalKey.mark_eq_some.mp hmark).1

theorem run_end_le {c : Fin 256 × Fin 256} {s e : ℕ}
    (h : IsRun (marksOf JournalKey.mark keys.data) c s e) : e ≤ keys.data.length := by
  have hlt := h.lt
  have hlast : e - 1 < keys.data.length := lt_length_of_mark (by
    rw [h.marked (e - 1) (by omega) (by omega)]
    exact Option.some_ne_none c)
  omega

/-- What a lookup to the back finds from `idx` on. -/
inductive FoundUp (keys : JournalKeys) (btreeId level : Fin 256) (lo hi : Bpos) (idx : ℕ) :
    Option JournalKey × ℕ → Prop
  | found {key : JournalKey} {i : ℕ} (hle : idx ≤ i) (hget : keys.data[i]? = some key)
      (hin : key.within btreeId level lo hi = true) (hlive : key.overwritten = false)
      (hskip : NoneLive keys btreeId level lo hi idx i) :
      FoundUp keys btreeId level lo hi idx (some key, i)
  | null (hskip : NoneLive keys btreeId level lo hi idx keys.data.length) :
      FoundUp keys btreeId level lo hi idx (none, keys.data.length)

theorem FoundUp.skip {idx idx' : ℕ} {out : Option JournalKey × ℕ} (hle : idx ≤ idx')
    (hskip : NoneLive keys btreeId level lo hi idx idx')
    (h : FoundUp keys btreeId level lo hi idx' out) :
    FoundUp keys btreeId level lo hi idx out := by
  cases h with
  | found hle' hget hin hlive hskip' =>
    exact .found (hle.trans hle') hget hin hlive (hskip.trans hskip')
  | null hskip' => exact .null (hskip.trans hskip')

theorem peekMaxLoop_spec (h : keys.Ok) {fuel idx : ℕ} (hidx : idx ≤ keys.data.length)
    (hfuel : keys.data.length < fuel + idx) :
    FoundUp keys btreeId level lo hi idx (peekMaxLoop keys btreeId level lo hi fuel idx) := by
  induction fuel generalizing idx with
  | zero => omega
  | succ fuel ih =>
    rw [peekMaxLoop]
    cases hget : keys.data[idx]? with
    | none =>
      obtain rfl : idx = keys.data.length :=
        Nat.le_antisymm hidx (List.getElem?_eq_none_iff.mp hget)
      exact .null fun k x ha hb => absurd ha (Nat.not_le.mpr hb)
    | some key =>
      obtain ⟨hlt, -⟩ := List.getElem?_eq_some_iff.mp hget
      dsimp only
      split_ifs with hin hover hrange
      · obtain ⟨s, e, hat, -, hs, he, hrun⟩ := h.range hget hover
        rw [hat]
        refine (ih (run_end_le hrun) (by omega)).skip he.le ?_
        exact fun k x ha hb => noneLive_run hrun k x (hs.trans ha) hb
      · obtain ⟨s, e, -, hvalid, -⟩ := h.range hget hover
        exact absurd hvalid hrange
      · exact .found le_rfl hget hin (Bool.not_eq_true _ ▸ hover)
          fun k x ha hb => absurd ha (Nat.not_le.mpr hb)
      · exact (ih hlt (by omega)).skip (Nat.le_succ idx) (noneLive_outside hget hin)

/-- What a lookup to the front finds below `cursor`. -/
inductive FoundDown (keys : JournalKeys) (btreeId level : Fin 256) (lo hi : Bpos) (cursor : ℕ) :
    Option JournalKey × ℕ → Prop
  | found {key : JournalKey} {i : ℕ} (hlt : i < cursor) (hget : keys.data[i]? = some key)
      (hin : key.within btreeId level lo hi = true) (hlive : key.overwritten = false)
      (hskip : NoneLive keys btreeId level lo hi (i + 1) cursor) :
      FoundDown keys btreeId level lo hi cursor (some key, i)
  | null (hskip : NoneLive keys btreeId level lo hi 0 cursor) :
      FoundDown keys btreeId level lo hi cursor (none, 0)

theorem FoundDown.skip {cursor cursor' : ℕ} {out : Option JournalKey × ℕ} (hle : cursor' ≤ cursor)
    (hskip : NoneLive keys btreeId level lo hi cursor' cursor)
    (h : FoundDown keys btreeId level lo hi cursor' out) :
    FoundDown keys btreeId level lo hi cursor out := by
  cases h with
  | found hlt hget hin hlive hskip' =>
    exact .found (hlt.trans_le hle) hget hin hlive (hskip'.trans hskip)
  | null hskip' => exact .null (hskip'.trans hskip)

theorem peekPrevLoop_spec (h : keys.Ok) {fuel cursor : ℕ} (hcursor : cursor ≤ keys.data.length)
    (hfuel : cursor < fuel) :
    FoundDown keys btreeId level lo hi cursor
      (peekPrevLoop keys btreeId level hi lo fuel cursor) := by
  induction fuel generalizing cursor with
  | zero => omega
  | succ fuel ih =>
    cases cursor with
    | zero => exact .null fun k x _ hb => absurd hb (Nat.not_lt_zero k)
    | succ cursor =>
      obtain ⟨key, hget⟩ : ∃ key, keys.data[cursor]? = some key :=
        ⟨_, List.getElem?_eq_getElem hcursor⟩
      rw [peekPrevLoop, hget]
      dsimp only
      split_ifs with hin hover hrange
      · obtain ⟨s, e, hat, -, hs, he, hrun⟩ := h.range hget hover
        rw [hat]
        refine (ih (by dsimp only; omega) (by dsimp only; omega)).skip (by dsimp only; omega) ?_
        exact fun k x ha hb => noneLive_run hrun k x ha (by omega)
      · obtain ⟨s, e, -, hvalid, -⟩ := h.range hget hover
        exact absurd hvalid hrange
      · exact .found (Nat.lt_succ_self cursor) hget hin (Bool.not_eq_true _ ▸ hover)
          fun k x ha hb => absurd ha (Nat.not_le.mpr hb)
      · exact (ih (by omega) (by omega)).skip (Nat.le_succ cursor) (noneLive_outside hget hin)

end Loops

/-! ### What a lookup returns -/

section Lookups

variable {keys : JournalKeys} {btreeId level : Fin 256} {lo hi : Bpos}

/-- The least key within the bounds that is not overwritten. -/
def LeastLive (keys : JournalKeys) (btreeId level : Fin 256) (lo hi : Bpos) :
    Option JournalKey → Prop
  | none => ∀ x ∈ keys.data, x.within btreeId level lo hi = true → x.overwritten = true
  | some key => (key ∈ keys.data ∧ key.within btreeId level lo hi = true ∧ key.overwritten = false) ∧
    ∀ x ∈ keys.data, x.within btreeId level lo hi = true → x.overwritten = false → key.k.p ≤ x.k.p

/-- The greatest key within the bounds that is not overwritten. -/
def GreatestLive (keys : JournalKeys) (btreeId level : Fin 256) (lo hi : Bpos) :
    Option JournalKey → Prop
  | none => ∀ x ∈ keys.data, x.within btreeId level lo hi = true → x.overwritten = true
  | some key => (key ∈ keys.data ∧ key.within btreeId level lo hi = true ∧ key.overwritten = false) ∧
    ∀ x ∈ keys.data, x.within btreeId level lo hi = true → x.overwritten = false → x.k.p ≤ key.k.p

/-- The key at a position, if it is not overwritten. -/
def ExactLive (keys : JournalKeys) (btreeId level : Fin 256) (pos : Bpos) : Option JournalKey → Prop
  | none => ∀ x ∈ keys.data, x.isAt btreeId level pos = true → x.overwritten = true
  | some key => key ∈ keys.data ∧ key.isAt btreeId level pos = true ∧ key.overwritten = false

theorem within_iff {key : JournalKey} : key.within btreeId level lo hi = true ↔
    (key.btreeId = btreeId ∧ key.level = level) ∧ lo ≤ key.k.p ∧ key.k.p ≤ hi := by
  rw [JournalKey.within, Bool.and_eq_true, JournalKey.inTree, decide_eq_true_eq, decide_eq_true_eq]

/-- In the array the keys of one tree and level are in the order of their positions. -/
theorem JournalKeys.Ok.pos_lt (h : keys.Ok) {i k : ℕ} {x y : JournalKey} (hik : i < k)
    (hx : keys.data[i]? = some x) (hy : keys.data[k]? = some y)
    (htree : x.btreeId = y.btreeId ∧ x.level = y.level) : x.k.p < y.k.p := by
  obtain ⟨hi, rfl⟩ := List.getElem?_eq_some_iff.mp hx
  obtain ⟨hk, rfl⟩ := List.getElem?_eq_some_iff.mp hy
  have hslot := List.pairwise_iff_getElem.mp h.sorted i k hi hk hik
  rw [JournalKey.slot, JournalKey.slot, Prod.Lex.toLex_lt_toLex, htree.1, htree.2] at hslot
  have hinner := hslot.resolve_left (lt_irrefl _)
  rw [Prod.Lex.toLex_lt_toLex] at hinner
  exact (hinner.2.resolve_left (lt_irrefl _)).2

/-- A lookup to the back that has missed nothing returns the least key. -/
theorem FoundUp.leastLive (h : keys.Ok) {idx : ℕ} {out : Option JournalKey × ℕ}
    (hfound : FoundUp keys btreeId level lo hi idx out)
    (hmissed : NoneLive keys btreeId level lo hi 0 idx) :
    LeastLive keys btreeId level lo hi out.1 := by
  cases hfound with
  | @found key i hle hget hin hlive hskip =>
    refine ⟨⟨List.mem_of_getElem? hget, hin, hlive⟩, fun x hx hxin hxlive => ?_⟩
    obtain ⟨k, hk⟩ := List.mem_iff_getElem?.mp hx
    have hik : i ≤ k := by
      by_contra hlt
      have hover := hmissed.trans hskip k x (Nat.zero_le k) (Nat.not_le.mp hlt) hk hxin
      rw [hxlive] at hover
      cases hover
    rcases hik.eq_or_lt with rfl | hlt
    · rw [hget] at hk
      cases hk
      exact le_rfl
    · have hxtree := (within_iff.mp hxin).1
      have htree := (within_iff.mp hin).1
      exact (h.pos_lt hlt hget hk ⟨htree.1.trans hxtree.1.symm, htree.2.trans hxtree.2.symm⟩).le
  | null hskip =>
    intro x hx hxin
    obtain ⟨k, hk⟩ := List.mem_iff_getElem?.mp hx
    exact hmissed.trans hskip k x (Nat.zero_le k) (List.getElem?_eq_some_iff.mp hk).1 hk hxin

theorem FoundDown.greatestLive (h : keys.Ok) {out : Option JournalKey × ℕ}
    (hfound : FoundDown keys btreeId level lo hi keys.data.length out) :
    GreatestLive keys btreeId level lo hi out.1 := by
  cases hfound with
  | @found key i hlt hget hin hlive hskip =>
    refine ⟨⟨List.mem_of_getElem? hget, hin, hlive⟩, fun x hx hxin hxlive => ?_⟩
    obtain ⟨k, hk⟩ := List.mem_iff_getElem?.mp hx
    have hklt := (List.getElem?_eq_some_iff.mp hk).1
    have hik : k ≤ i := by
      by_contra hgt
      have hover := hskip k x (Nat.not_le.mp hgt) hklt hk hxin
      rw [hxlive] at hover
      cases hover
    rcases hik.eq_or_lt with rfl | hlt'
    · rw [hget] at hk
      cases hk
      exact le_rfl
    · have hxtree := (within_iff.mp hxin).1
      have htree := (within_iff.mp hin).1
      exact (h.pos_lt hlt' hk hget ⟨hxtree.1.trans htree.1.symm, hxtree.2.trans htree.2.symm⟩).le
  | null hskip =>
    intro x hx hxin
    obtain ⟨k, hk⟩ := List.mem_iff_getElem?.mp hx
    exact hskip k x (Nat.zero_le k) (List.getElem?_eq_some_iff.mp hk).1 hk hxin

/-- The bounds and the index of a lookup: the first one starts at zero, and each further one goes on
with the index returned and a position that is no smaller. Behind the last key a lookup goes on with
no larger end. -/
inductive PeekCursor (keys : JournalKeys) (btreeId level : Fin 256) : Bpos → Bpos → ℕ → Prop
  | start (pos endPos : Bpos) : PeekCursor keys btreeId level pos endPos 0
  | next {pos endPos pos' endPos' : Bpos} {idx idx' : ℕ} {key : JournalKey}
      (hprev : PeekCursor keys btreeId level pos endPos idx)
      (hpeek : bch2JournalKeysPeekMax keys btreeId level pos endPos idx = some (some key, idx'))
      (hpos : pos ≤ pos') : PeekCursor keys btreeId level pos' endPos' idx'
  | null {pos endPos pos' endPos' : Bpos} {idx idx' : ℕ}
      (hprev : PeekCursor keys btreeId level pos endPos idx)
      (hpeek : bch2JournalKeysPeekMax keys btreeId level pos endPos idx = some (none, idx'))
      (hpos : pos ≤ pos') (hend : endPos' ≤ endPos) :
      PeekCursor keys btreeId level pos' endPos' idx'

theorem foundUp_of_peek (h : keys.Ok) {idx : ℕ} {out : Option JournalKey × ℕ}
    (hpeek : bch2JournalKeysPeekMax keys btreeId level lo hi idx = some out) :
    FoundUp keys btreeId level lo hi idx out := by
  rw [bch2JournalKeysPeekMax] at hpeek
  split_ifs at hpeek with hidx
  cases hpeek
  exact peekMaxLoop_spec h hidx (by omega)

/-- A lookup that goes on has missed no key. -/
theorem PeekCursor.noneLive (h : keys.Ok) {idx : ℕ}
    (hcursor : PeekCursor keys btreeId level lo hi idx) :
    idx ≤ keys.data.length ∧ NoneLive keys btreeId level lo hi 0 idx := by
  induction hcursor with
  | start => exact ⟨Nat.zero_le _, fun k x _ hb => absurd hb (Nat.not_lt_zero k)⟩
  | next _ hpeek hpos ih =>
    cases foundUp_of_peek h hpeek with
    | found hle hget hin hlive hskip =>
      refine ⟨(List.getElem?_eq_some_iff.mp hget).1.le, fun k x _ hb hx hxin => ?_⟩
      -- a key before the one found is below it, so it was within the bounds then
      obtain ⟨htree, -, hkend⟩ := within_iff.mp hin
      obtain ⟨hxtree, hxpos, -⟩ := within_iff.mp hxin
      have hbelow := h.pos_lt hb hx hget
        ⟨hxtree.1.trans htree.1.symm, hxtree.2.trans htree.2.symm⟩
      exact ih.2.trans hskip k x (Nat.zero_le k) hb hx
        (within_iff.mpr ⟨hxtree, hpos.trans hxpos, hbelow.le.trans hkend⟩)
  | null _ hpeek hpos hend ih =>
    cases foundUp_of_peek h hpeek with
    | null hskip =>
      refine ⟨le_rfl, fun k x _ hb hx hxin => ?_⟩
      obtain ⟨hxtree, hxpos, hxend⟩ := within_iff.mp hxin
      exact ih.2.trans hskip k x (Nat.zero_le k) hb hx
        (within_iff.mpr ⟨hxtree, hpos.trans hxpos, hxend.trans hend⟩)

/-- A lookup, the first one or one that goes on, returns the least key. -/
theorem PeekCursor.leastLive (h : keys.Ok) {idx : ℕ}
    (hcursor : PeekCursor keys btreeId level lo hi idx) :
    ∃ out, bch2JournalKeysPeekMax keys btreeId level lo hi idx = some out ∧
      LeastLive keys btreeId level lo hi out.1 := by
  obtain ⟨hidx, hmissed⟩ := hcursor.noneLive h
  have hpeek : bch2JournalKeysPeekMax keys btreeId level lo hi idx =
      some (peekMaxLoop keys btreeId level lo hi (keys.data.length + 1) idx) := if_pos hidx
  exact ⟨_, hpeek, (foundUp_of_peek h hpeek).leastLive h hmissed⟩

theorem peekPrevMin_greatestLive (h : keys.Ok) :
    ∃ out, bch2JournalKeysPeekPrevMin keys btreeId level hi lo 0 = some out ∧
      GreatestLive keys btreeId level lo hi out.1 :=
  ⟨_, if_pos (Nat.zero_le _), (peekPrevLoop_spec h le_rfl (Nat.lt_succ_self _)).greatestLive h⟩

theorem within_self_iff {key : JournalKey} {pos : Bpos} :
    key.within btreeId level pos pos = true ↔ key.isAt btreeId level pos = true := by
  rw [within_iff, JournalKey.isAt, decide_eq_true_eq]
  constructor
  · rintro ⟨⟨hid, hlevel⟩, hlo, hhi⟩
    exact ⟨hid, hlevel, le_antisymm hhi hlo⟩
  · rintro ⟨hid, hlevel, rfl⟩
    exact ⟨⟨hid, hlevel⟩, le_rfl, le_rfl⟩

theorem journalPeekSlot_eq {btreeId level : Fin 256} {pos : Bpos} {found : Option JournalKey} {idx : ℕ}
    (hpeek : bch2JournalKeysPeekMax keys btreeId level pos pos 0 = some (found, idx)) :
    bch2JournalKeysPeekSlot keys btreeId level pos =
      found.bind fun key => if key.k.p = pos then some key else none := by
  rw [bch2JournalKeysPeekSlot, hpeek, Option.bind_eq_bind, Option.bind_some]
  rfl

theorem peekSlot_exactLive (h : keys.Ok) (btreeId level : Fin 256) (pos : Bpos) :
    ExactLive keys btreeId level pos (bch2JournalKeysPeekSlot keys btreeId level pos) := by
  have hstart : PeekCursor keys btreeId level pos pos 0 := .start pos pos
  obtain ⟨⟨found, idx⟩, hpeek, hleast⟩ := hstart.leastLive h
  rw [journalPeekSlot_eq hpeek]
  cases found with
  | none => exact fun x hx hat => hleast x hx (within_self_iff.mpr hat)
  | some key =>
    obtain ⟨hmem, hin, hlive⟩ := hleast.1
    have hat := within_self_iff.mp hin
    have hpos : key.k.p = pos := (of_decide_eq_true hat).2.2
    rw [Option.bind_some, if_pos hpos]
    exact ⟨hmem, hat, hlive⟩

end Lookups

/-! ### Every sequence of calls -/

/-- The calls that change the array. -/
inductive KeysStep : JournalKeys → JournalKeys → Prop
  | insert (keys : JournalKeys) (btreeId level : Fin 256) (k : Bkey) :
      KeysStep keys (bch2JournalKeyInsert keys btreeId level k)
  | sort (keys : JournalKeys) : KeysStep keys (journalKeysSort keys)
  | checkOrOverwrite (keys : JournalKeys) (btreeId level : Fin 256) (pos : Bpos) (check : Bool) :
      KeysStep keys (bch2JournalKeyCheckOrOverwrite keys btreeId level pos check)

/-- The sequences of calls. -/
abbrev KeysRun : JournalKeys → JournalKeys → Prop := Relation.ReflTransGen KeysStep

theorem KeysStep.ok {keys keys' : JournalKeys} (hstep : KeysStep keys keys') (h : keys.Ok) :
    keys'.Ok := by
  cases hstep with
  | insert btreeId level k => exact h.insert btreeId level k
  | sort => exact journalKeysSort_ok h.nodup
  | checkOrOverwrite btreeId level pos check => exact h.checkOrOverwrite btreeId level pos check

theorem KeysRun.ok {keys keys' : JournalKeys} (hrun : KeysRun keys keys') (h : keys.Ok) :
    keys'.Ok := by
  induction hrun with
  | refl => exact h
  | tail _ hstep ih => exact hstep.ok ih

/-- After every sequence of calls the array is strictly sorted by tree, level and position, the range
of an overwritten key is the maximal run of overwritten keys of its tree and level around it, and the
lookups return the least, greatest and exact key that is not overwritten, also when they go on. -/
theorem journal_keys_overlay {keys : JournalKeys} (hrun : KeysRun {} keys) :
    (keys.data.Pairwise fun l r => l.slot < r.slot) ∧
    (∀ i key, keys.data[i]? = some key → key.overwritten = true →
      ∃ s e, keys.overwrites[key.overwrittenRange]? = some (s, e) ∧ s ≤ i ∧ i < e ∧
        IsRun (marksOf JournalKey.mark keys.data) (key.btreeId, key.level) s e) ∧
    (∀ btreeId level pos endPos idx, PeekCursor keys btreeId level pos endPos idx →
      ∃ out, bch2JournalKeysPeekMax keys btreeId level pos endPos idx = some out ∧
        LeastLive keys btreeId level pos endPos out.1) ∧
    (∀ btreeId level pos endPos,
      ∃ out, bch2JournalKeysPeekPrevMin keys btreeId level pos endPos 0 = some out ∧
        GreatestLive keys btreeId level endPos pos out.1) ∧
    ∀ btreeId level pos,
      ExactLive keys btreeId level pos (bch2JournalKeysPeekSlot keys btreeId level pos) := by
  have h : keys.Ok := KeysRun.ok hrun JournalKeys.ok_empty
  refine ⟨h.sorted, ?_, fun _ _ _ _ _ hcursor => hcursor.leastLive h,
    fun _ _ _ _ => peekPrevMin_greatestLive h, peekSlot_exactLive h⟩
  intro i key hget hover
  obtain ⟨s, e, hat, ⟨-, hlt⟩, hs, he, hrun⟩ := h.range hget hover
  refine ⟨s, e, ?_, hs, he, hrun⟩
  rw [← hat, rangeAt, List.getD_eq_getElem?_getD, List.getElem?_eq_getElem hlt, Option.getD_some]

/-- A key at an offset. -/
def overlayKey (offset : Fin (2 ^ 64)) : Bkey := { p := ⟨1, offset, 0⟩, type := 1, val := [] }

/-- Two keys of one tree, the first of them overwritten. -/
def twoJournalKeys : JournalKeys :=
  bch2JournalKeyCheckOrOverwrite
    (bch2JournalKeyInsert (bch2JournalKeyInsert {} 1 0 (overlayKey 16)) 1 0 (overlayKey 8))
    1 0 (overlayKey 8).p false

theorem journal_keys_overlay_two :
    KeysRun {} twoJournalKeys ∧
    ∃ out, bch2JournalKeysPeekMax twoJournalKeys 1 0 (overlayKey 8).p (overlayKey 16).p 0 = some out ∧
      LeastLive twoJournalKeys 1 0 (overlayKey 8).p (overlayKey 16).p out.1 := by
  have hrun : KeysRun {} twoJournalKeys :=
    .tail (.tail (.single (.insert _ _ _ _)) (.insert _ _ _ _)) (.checkOrOverwrite _ _ _ _ _)
  exact ⟨hrun, (journal_keys_overlay hrun).2.2.1 1 0 _ _ 0 (.start _ _)⟩

end Subvol

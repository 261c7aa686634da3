import Subvol.Iter.Prev
import Subvol.Iter.Forward

/-!
# Backward iteration

A backward iterator that filters snapshots meets the keys of a slot from the largest snapshot down,
so it meets the key it should return last. It goes on to the slot before as soon as it has met a key
of another snapshot, keeps one inherited key at a time, and gives it back only when a key of the
snapshot itself follows further down. Where every key seen is the first one it meets at its slot,
and an inherited one is followed in this way, iteration is complete and returns.

## Main definitions

* `InheritedReached`, `PrevClear`: the contents over which backward iteration is complete.
* `PrevTurn`: what the filter does with a key.
* `EnumeratesBackward`.

## Main results

* `prevFilterKey_turn`: the turn at a key.
* `prev_returns`: one call finds the last key seen.
* `backward_iteration`: a run of calls.
-/

namespace Subvol

open Lib

/-! ### Clear contents -/

/-- An inherited key that a backward iterator comes back to: it does not begin at the slot of the
key, nothing but a whiteout of the snapshot itself is at the slot behind it, and a key of the
snapshot itself follows before any other key of an ancestor. -/
structure InheritedReached (parent : ℕ → ℕ) (t : Btree) (s : Fin (2 ^ 32)) (lo start : Bpos)
    (v : Bkey) : Prop where
  slot : v.p.slot < start.slot
  behind : ∀ k, t.Live k → k.p.slot = v.p.slot + 1 → k.p.snapshot = s ∧ k.whiteout = true
  follows : ∃ e, VisibleAt parent t s e ∧ e.whiteout = false ∧ e.p.snapshot = s ∧
    lo.slot ≤ e.p.slot ∧ e.p.slot < v.p.slot ∧
    ∀ k, t.Live k → Ancestor parent s k.p.snapshot → e.p.slot < k.p.slot → v.p.slot ≤ k.p.slot

/-- Contents between two slots over which backward iteration from a position is complete. -/
structure PrevClear (parent : ℕ → ℕ) (t : Btree) (s : Fin (2 ^ 32)) (lo start : Bpos) : Prop where
  /-- The test for an ancestor asserts that no snapshot is `0`. -/
  nonzero : ∀ k, t.Live k → lo.slot ≤ k.p.slot → k.p ≤ start → k.p.snapshot ≠ 0
  /-- A key seen is the first one met at its slot. -/
  top : ∀ v, VisibleAt parent t s v → v.whiteout = false → lo.slot ≤ v.p.slot →
    v.p.slot < start.slot → ∀ k, t.Live k → k.p.slot = v.p.slot → k.p ≤ v.p
  inherited : ∀ v, VisibleAt parent t s v → v.whiteout = false → lo.slot ≤ v.p.slot →
    v.p.slot ≤ start.slot → v.p.snapshot ≠ s → InheritedReached parent t s lo start v
  /-- An inherited key met first is seen, unless it is a whiteout. -/
  hidden : ∀ k, t.Live k → Ancestor parent s k.p.snapshot → k.whiteout = false →
    lo.slot ≤ k.p.slot → k.p.slot < start.slot →
    (∀ k', t.Live k' → k'.p.slot = k.p.slot → k'.p ≤ k.p) → VisibleAt parent t s k
  /-- There is no slot before the first one to go on to. -/
  zero : lo.slot = 0 → ∀ k, t.Live k → k.p.slot = 0 → k.p ≤ start →
    k.p.snapshot = s ∧ k.whiteout = false

/-! ### The turn at a key -/

/-- What the filter does with a key. It goes on from the slot before, at the snapshot itself or, after
a whiteout of the snapshot itself, at the largest one. -/
inductive PrevTurn (parent : ℕ → ℕ) (s : Fin (2 ^ 32)) (origin : Bpos) (x : PrevState) (k : Bkey) :
    Option (Turn PrevState (BtreeIter × Peek)) → Prop
  | unrelated (q : Bpos) (hanc : ¬Ancestor parent s k.p.snapshot) (hslot : q.slot + 1 = k.p.slot)
      (hsnap : q.snapshot = s) :
      PrevTurn parent s origin x k (some (.next ⟨{ x.iter with pos := q }, x.saved⟩))
  | inherited (q : Bpos) (hanc : Ancestor parent s k.p.snapshot) (hne : k.p.snapshot ≠ s)
      (hslot : q.slot + 1 = k.p.slot) (hsnap : q.snapshot = s) :
      PrevTurn parent s origin x k
        (some (.next ⟨{ x.iter with pos := q }, if k.whiteout then none else some k⟩))
  | whiteout (q : Bpos) (hown : k.p.snapshot = s) (hw : k.whiteout = true)
      (hslot : q.slot + 1 = k.p.slot) (hsnap : q.snapshot = Fin.last _) :
      PrevTurn parent s origin x k (some (.next ⟨{ x.iter with pos := q }, x.saved⟩))
  | own (hown : k.p.snapshot = s) (hdata : k.whiteout = false) (hsaved : x.saved = none) :
      PrevTurn parent s origin x k (some (.done (x.iter, .key k)))
  | saved (v : Bkey) (hown : k.p.snapshot = s) (hdata : k.whiteout = false)
      (hsaved : x.saved = some v) (hlt : k.p < origin) :
      PrevTurn parent s origin x k (some (.done ({ x.iter with k := v }, .key v)))
  | late (v : Bkey) (hown : k.p.snapshot = s) (hdata : k.whiteout = false)
      (hsaved : x.saved = some v) (hge : origin ≤ k.p) :
      PrevTurn parent s origin x k (some (.done (x.iter, .key k)))

section Prev

variable {keys : List SnapshotKey} {table : SnapshotTable} {t : Btree} {s : Fin (2 ^ 32)}
  {stop : Bpos} {fuel : ℕ}

/-- The turn at a key that is not at the first slot of all, unless it is one to return. -/
theorem prevFilterKey_turn (hwf : SnapshotKeysWf keys) (htab : TableOf keys keys table) (hs : s ≠ 0)
    (hfuel : searchTurns ≤ fuel) {origin : Bpos} (horigin : origin.snapshot = s) {x : PrevState}
    {k : Bkey} (hstop : stop.slot ≤ k.p.slot) (hne : k.p.snapshot ≠ 0)
    (hzero : k.p.slot = 0 → k.p.snapshot = s ∧ k.whiteout = false) :
    PrevTurn (keyParent keys) s origin x k
      (prevFilterKey fuel table stop origin x k (some k)) := by
  have hs' : (s : ℕ) ≠ 0 := fun h => hs (Fin.ext h)
  have hne' : (k.p.snapshot : ℕ) ≠ 0 := fun h => hne (Fin.ext h)
  have hbig : (k.p.snapshot : ℕ) < fuel :=
    k.p.snapshot.isLt.trans_le (le_trans (by rw [searchTurns]; omega) hfuel)
  obtain ⟨r, hr, hiff⟩ := isAncestor_spec hwf htab (Nat.le_sub_one_of_lt s.isLt) hs' hne' hbig
  rw [prevFilterKey, if_neg fun h => absurd (bkeyLt_iff.mp h) (not_lt.mpr hstop), horigin, hr,
    Option.bind_eq_bind, Option.bind_some]
  -- the slot before
  have hprev (h : ¬(k.p.snapshot = s ∧ k.whiteout = false)) :
      ∃ q, bposNosnapPredecessor k.p = some q ∧ q.slot + 1 = k.p.slot := by
    obtain ⟨q, hq, hslot, -⟩ := bposNosnapPredecessor_eq_some fun h' => h (hzero h')
    exact ⟨q, hq, hslot⟩
  by_cases hanc : Ancestor (keyParent keys) s k.p.snapshot
  · rw [hiff.mpr hanc, Bool.not_true, if_neg Bool.false_ne_true]
    by_cases hown : k.p.snapshot = s
    · rw [if_neg (not_not.mpr hown)]
      by_cases hw : k.whiteout = true
      · obtain ⟨q, hq, hslot⟩ := hprev (by simp [hw])
        rw [if_pos hw, hq, Option.bind_eq_bind, Option.bind_some]
        exact .whiteout (q.withSnapshot (Fin.last _)) hown hw hslot rfl
      · have hdata : k.whiteout = false := by simpa using hw
        rw [if_neg hw]
        cases hsaved : x.saved with
        | none => exact .own hown hdata hsaved
        | some v =>
          dsimp only
          by_cases hlt : k.p < origin
          · rw [if_pos hlt]
            exact .saved v hown hdata hsaved hlt
          · rw [if_neg hlt]
            exact .late v hown hdata hsaved (not_lt.mp hlt)
    · obtain ⟨q, hq, hslot⟩ := hprev fun h => hown h.1
      rw [if_pos hown, hq, Option.bind_eq_bind, Option.bind_some]
      exact .inherited (q.withSnapshot s) hanc hown hslot rfl
  · have hr' : r = false := by simpa using fun h => hanc (hiff.mp h)
    have hown : k.p.snapshot ≠ s := fun h => hanc (h ▸ .refl)
    obtain ⟨q, hq, hslot⟩ := hprev fun h => hown h.1
    rw [hr', Bool.not_false, if_pos rfl, hq, Option.bind_eq_bind, Option.bind_some]
    exact .unrelated (q.withSnapshot s) hanc hslot rfl

/-! ### One call -/

/-- A key other than a whiteout that the snapshot sees from the slot of the end on. -/
structure Wanted (parent : ℕ → ℕ) (t : Btree) (s : Fin (2 ^ 32)) (lo : Bpos) (v : Bkey) :
    Prop where
  seen : VisibleAt parent t s v
  data : v.whiteout = false
  slot : lo.slot ≤ v.p.slot

/-- What holds between the turns of a call that began at `origin`: every key still wanted up to the
slot of the iterator is before it. Without a key kept, none further up is wanted; a key kept is the
last one wanted, and the key of the snapshot itself that follows it is still ahead. -/
structure PrevInv (parent : ℕ → ℕ) (t : Btree) (s : Fin (2 ^ 32)) (lo origin q : Bpos)
    (saved : Option Bkey) : Prop where
  le : q ≤ origin
  entry : q.snapshot = s ∨ q.snapshot = Fin.last _
  covers : ∀ v, Wanted parent t s lo v → v.p.slot ≤ q.slot → v.p ≤ q
  unsaved : saved = none → ∀ v, Wanted parent t s lo v → v.p.slot ≤ origin.slot →
    v.p.slot ≤ q.slot
  kept : ∀ v, saved = some v → Wanted parent t s lo v ∧ v.p.slot ≤ origin.slot ∧
    q.slot < v.p.slot ∧ (∀ v', Wanted parent t s lo v' → v'.p.slot ≤ origin.slot →
      v'.p.slot ≤ v.p.slot) ∧
    ∃ e, Wanted parent t s lo e ∧ e.p.snapshot = s ∧ e.p.slot ≤ q.slot ∧
      ∀ k, t.Live k → Ancestor parent s k.p.snapshot → e.p.slot < k.p.slot → v.p.slot ≤ k.p.slot

/-- What a call from a position comes to: the last key wanted up to its slot, or none. -/
def PrevResult (parent : ℕ → ℕ) (t : Btree) (s : Fin (2 ^ 32)) (lo origin : Bpos)
    (x : BtreeIter × Peek) : Prop :=
  (x.2 = .null ∧ ∀ v, Wanted parent t s lo v → origin.slot < v.p.slot) ∨
  ∃ v, Wanted parent t s lo v ∧ v.p.slot ≤ origin.slot ∧
    (∀ v', Wanted parent t s lo v' → v'.p.slot ≤ origin.slot → v'.p.slot ≤ v.p.slot) ∧
    Filtering s x.1 ∧ x.1.k = v ∧ x.2 = .key v

variable {parent : ℕ → ℕ} {lo start origin q : Bpos} {k : Bkey} {saved : Option Bkey}

/-- A key wanted that is not the one met lies at a slot before it. -/
theorem PrevClear.slot_lt (hv : t.Valid) (hup : Rising parent)
    (hclear : PrevClear parent t s lo start) (hstart : start.snapshot = s)
    (horigin : origin ≤ start) (hinv : PrevInv parent t s lo origin q saved)
    (hk : t.LastUpTo q k) {v : Bkey} (hw : Wanted parent t s lo v) (hslot : v.p.slot ≤ q.slot)
    (hne : v ≠ k) : v.p.slot < k.p.slot := by
  have hle := hk.last v hw.seen.live (hinv.covers v hw hslot)
  refine lt_of_le_of_ne (Bpos.slot_mono hle) fun heq => hne (hv.live_eq hw.seen.live hk.live ?_)
  refine le_antisymm hle ?_
  have hqs : q ≤ start := hinv.le.trans horigin
  rcases (hslot.trans (Bpos.slot_mono hqs)).lt_or_eq with hlt | hlast
  · exact hclear.top v hw.seen hw.data hw.slot hlt k hk.live heq.symm
  · -- at the slot of the iterator only snapshots up to its own are met
    have hks : k.p.snapshot ≤ s := by
      rcases Bpos.le_iff_slot.mp (hk.le.trans hqs) with hlt | ⟨-, hle'⟩
      · exact absurd (heq.symm.trans hlast) hlt.ne
      · exact hstart ▸ hle'
    exact Bpos.le_iff_slot.mpr (.inr ⟨heq.symm, hks.trans (hw.seen.ancestor.le hup)⟩)

/-- An inherited key wanted is not at the slot before a key met, unless that is a whiteout of the
snapshot itself. -/
theorem PrevClear.own_of_next (hclear : PrevClear parent t s lo start)
    (hk : t.Live k) (hks : k.p.slot ≤ start.slot) (hother : ¬(k.p.snapshot = s ∧ k.whiteout = true))
    {v : Bkey} (hw : Wanted parent t s lo v) (hslot : v.p.slot + 1 = k.p.slot) :
    v.p.snapshot = s := by
  by_contra hne
  have hreach := hclear.inherited v hw.seen hw.data hw.slot (by omega) hne
  exact hother (hreach.behind k hk hslot.symm)

/-- The iterator at the snapshot itself in a slot where no inherited key is wanted. -/
theorem covers_of_own (hq : q.snapshot = s)
    (hown : ∀ v, Wanted parent t s lo v → v.p.slot = q.slot → v.p.snapshot = s) :
    ∀ v, Wanted parent t s lo v → v.p.slot ≤ q.slot → v.p ≤ q := by
  intro v hw hslot
  rcases hslot.lt_or_eq with hlt | heq
  · exact Bpos.le_iff_slot.mpr (.inl hlt)
  · exact Bpos.le_iff_slot.mpr (.inr ⟨heq, (hown v hw heq).trans hq.symm |>.le⟩)

/-- What the iterator meets, and where the keys wanted lie then. -/
theorem PrevInv.next (hclear : PrevClear parent t s lo start)
    (horigin : origin ≤ start) (hinv : PrevInv parent t s lo origin q saved)
    (hk : t.LastUpTo q k) (hbelow : ∀ v, Wanted parent t s lo v → v.p.slot ≤ q.slot →
      v.p.slot < k.p.slot) {q' : Bpos} (hslot : q'.slot + 1 = k.p.slot)
    (hentry : (q'.snapshot = s ∧ ¬(k.p.snapshot = s ∧ k.whiteout = true)) ∨
      q'.snapshot = Fin.last _) : PrevInv parent t s lo origin q' saved := by
  have hkq := Bpos.slot_mono hk.le
  have hqo := Bpos.slot_mono hinv.le
  have hos := Bpos.slot_mono horigin
  refine ⟨Bpos.le_iff_slot.mpr (.inl (by omega)), ?_, ?_, fun hsaved v hw hle => ?_,
    fun v hsaved => ?_⟩
  · rcases hentry with ⟨hsnap, -⟩ | hsnap
    · exact .inl hsnap
    · exact .inr hsnap
  · rcases hentry with ⟨hsnap, hother⟩ | hsnap
    · refine covers_of_own hsnap fun v hw heq => ?_
      exact hclear.own_of_next hk.live (by omega) hother hw (by omega)
    · intro v hw hle
      rcases hle.lt_or_eq with hlt | heq
      · exact Bpos.le_iff_slot.mpr (.inl hlt)
      · exact Bpos.le_iff_slot.mpr (.inr ⟨heq, hsnap ▸ Fin.le_last _⟩)
  · have := hbelow v hw (hinv.unsaved hsaved v hw hle)
    omega
  · obtain ⟨hw, hle, hlt, hlast, e, he, hes, heq, hbetween⟩ := hinv.kept v hsaved
    have := hbelow e he heq
    exact ⟨hw, hle, by omega, hlast, e, he, hes, by omega, hbetween⟩

/-- An inherited key is met with no other one kept. -/
theorem PrevInv.not_kept (hv : t.Valid) (hup : Rising parent)
    (hclear : PrevClear parent t s lo start) (hstart : start.snapshot = s)
    (horigin : origin ≤ start) (hinv : PrevInv parent t s lo origin q saved)
    (hk : t.LastUpTo q k) (hanc : Ancestor parent s k.p.snapshot) (hne : k.p.snapshot ≠ s) :
    saved = none := by
  cases hsaved : saved with
  | none => rfl
  | some v =>
    obtain ⟨-, -, hlt, -, e, he, hes, heq, hbetween⟩ := hinv.kept v hsaved
    have hke : e ≠ k := fun h => hne (h ▸ hes)
    have hle := hbetween k hk.live hanc
      (hclear.slot_lt hv hup hstart horigin hinv hk he heq hke)
    have := Bpos.slot_mono hk.le
    omega

/-- An inherited key met that is not a whiteout is wanted, and the iterator keeps it. -/
theorem PrevInv.keep (hv : t.Valid) (hup : Rising parent)
    (hclear : PrevClear parent t s lo start) (hstart : start.snapshot = s)
    (horigin : origin ≤ start) (hinv : PrevInv parent t s lo origin q none)
    (hk : t.LastUpTo q k) (hslot : lo.slot ≤ k.p.slot) (hanc : Ancestor parent s k.p.snapshot)
    (hne : k.p.snapshot ≠ s) (hdata : k.whiteout = false) {q' : Bpos}
    (hq' : q'.slot + 1 = k.p.slot) (hsnap : q'.snapshot = s) :
    PrevInv parent t s lo origin q' (some k) := by
  have hqs : q ≤ start := hinv.le.trans horigin
  have hkq := Bpos.slot_mono hk.le
  have hqo := Bpos.slot_mono hinv.le
  have hos := Bpos.slot_mono horigin
  have habove : s < k.p.snapshot := lt_of_le_of_ne (hanc.le hup) hne.symm
  -- its slot is entered from behind, at the largest snapshot
  have htop : ∀ k', t.Live k' → k'.p.slot = k.p.slot → k'.p ≤ k.p := by
    intro k' hk' heq
    refine hk.last k' hk' (Bpos.le_iff_slot.mpr ?_)
    rcases hkq.lt_or_eq with hlt | hsame
    · exact .inl (heq.trans_lt hlt)
    · refine .inr ⟨heq.trans hsame, ?_⟩
      rcases hinv.entry with hlow | hhigh
      · rcases Bpos.le_iff_slot.mp hk.le with hlt | ⟨-, hle⟩
        · exact absurd hsame hlt.ne
        · exact absurd (hlow ▸ hle) (not_le.mpr habove)
      · exact hhigh ▸ Fin.le_last _
  have hstop : k.p.slot < start.slot := by
    rcases Bpos.le_iff_slot.mp (hk.le.trans hqs) with hlt | ⟨-, hle⟩
    · exact hlt
    · exact absurd (hstart ▸ hle) (not_le.mpr habove)
  have hseen := hclear.hidden k hk.live hanc hdata hslot hstop htop
  have hw : Wanted parent t s lo k := ⟨hseen, hdata, hslot⟩
  obtain ⟨e, heseen, hedata, hes, helo, helt, hbetween⟩ :=
    (hclear.inherited k hseen hdata hslot hstop.le hne).follows
  refine ⟨Bpos.le_iff_slot.mpr (.inl (by omega)), .inl hsnap, ?_, (fun h => nomatch h), ?_⟩
  · refine covers_of_own hsnap fun v hwv heq => ?_
    exact hclear.own_of_next hk.live hstop.le (fun h => hne h.1) hwv (by omega)
  · intro v hv'
    obtain rfl := Option.some.inj hv'
    refine ⟨hw, by omega, by omega, fun v' hw' hle => ?_,
      e, ⟨heseen, hedata, helo⟩, hes, by omega, hbetween⟩
    by_cases hvk : v' = k
    · rw [hvk]
    · exact (hclear.slot_lt hv hup hstart horigin hinv hk hw'
        (hinv.unsaved rfl v' hw' hle) hvk).le

/-- A call returns the last key wanted up to its slot. -/
theorem prev_returns (hwf : SnapshotKeysWf keys) (htab : TableOf keys keys table) (hv : t.Valid)
    (hs : s ≠ 0) (hfuel : searchTurns ≤ fuel)
    (hclear : PrevClear (keyParent keys) t s lo start) (hstart : start.snapshot = s)
    (horigin : origin ≤ start) (hsnap : origin.snapshot = s) {turns : ℕ} :
    ∀ {x : PrevState}, Filtering s x.iter →
      PrevInv (keyParent keys) t s lo origin x.iter.pos x.saved → x.iter.pos.toNat < turns →
      ∃ y, loop (prevFilterStep fuel table t lo origin) turns x = some y ∧
        PrevResult (keyParent keys) t s lo origin y := by
  have hup := hwf.rising
  induction turns with
  | zero => exact fun _ _ hturns => absurd hturns (Nat.not_lt_zero _)
  | succ turns ih =>
    intro x hiter hinv hturns
    rcases peekPrevMin_spec hv hiter.isExtents table hfuel with
      ⟨iter', k', hpeek, hnone⟩ | ⟨k, hk, hslot, hpeek⟩
    · -- nothing is left, so nothing is wanted and nothing is kept
      have hstep : prevFilterStep fuel table t lo origin x = some (.done (iter', .null)) := by
        rw [prevFilterStep, hpeek, Option.bind_eq_bind, Option.bind_some]
      have hgone : ∀ v, Wanted (keyParent keys) t s lo v → ¬v.p.slot ≤ x.iter.pos.slot := by
        intro v hw hle
        exact absurd (hnone v hw.seen.live (hinv.covers v hw hle)) (not_lt.mpr hw.slot)
      refine ⟨_, loop_succ_done hstep turns, .inl ⟨rfl, fun v hw => ?_⟩⟩
      cases hsaved : x.saved with
      | none => exact not_le.mp fun hle => hgone v hw (hinv.unsaved hsaved v hw hle)
      | some v₀ =>
        obtain ⟨-, -, -, -, e, he, -, heq, -⟩ := hinv.kept v₀ hsaved
        exact absurd heq (hgone e he)
    have hqs : x.iter.pos ≤ start := hinv.le.trans horigin
    have hks : k.p ≤ start := hk.le.trans hqs
    have hslots := Bpos.slot_mono hk.le
    -- a turn that goes on does so from the slot before
    have hnext : ∀ (q' : Bpos) (saved : Option Bkey), q'.slot + 1 = k.p.slot →
        PrevInv (keyParent keys) t s lo origin q' saved →
        prevFilterStep fuel table t lo origin x =
          some (.next ⟨{ x.iter with pos := q', k := k }, saved⟩) →
        ∃ y, loop (prevFilterStep fuel table t lo origin) (turns + 1) x = some y ∧
          PrevResult (keyParent keys) t s lo origin y := by
      intro q' saved hq' hinv' hstep
      have hlt : q' < x.iter.pos := Bpos.lt_iff_slot.mpr (.inl (by omega))
      rw [Bpos.lt_iff_toNat] at hlt
      obtain ⟨y, hy, hres⟩ := ih (x := ⟨{ x.iter with pos := q', k := k }, saved⟩)
        (hiter.moved q' k) hinv' (by dsimp only; omega)
      exact ⟨y, (loop_succ_next hstep turns).trans hy, hres⟩
    have hturn := prevFilterKey_turn (k := k)
      (x := { x with iter := { x.iter with pos := k.p.withSnapshot x.iter.snapshot, k := k } })
      hwf htab hs hfuel hsnap hslot (hclear.nonzero k hk.live hslot hks)
      fun h0 => hclear.zero (by omega) k hk.live h0 hks
    have hbelow : (k.whiteout = true ∨ ¬VisibleAt (keyParent keys) t s k) →
        ∀ v, Wanted (keyParent keys) t s lo v → v.p.slot ≤ x.iter.pos.slot →
          v.p.slot < k.p.slot := by
      intro hother v hw hle
      refine hclear.slot_lt hv hup hstart horigin hinv hk hw hle ?_
      rintro rfl
      rcases hother with hother | hother
      · rw [hw.data] at hother
        cases hother
      · exact hother hw.seen
    generalize hstep : prevFilterKey fuel table lo origin
      { x with iter := { x.iter with pos := k.p.withSnapshot x.iter.snapshot, k := k } } k
      (some k) = turn at hturn
    have hstep' : prevFilterStep fuel table t lo origin x = turn := by
      rw [prevFilterStep, hpeek, Option.bind_eq_bind, Option.bind_some]
      exact hstep
    cases hturn with
    | unrelated q' hanc hq' hq's =>
      have hown : k.p.snapshot ≠ s := fun h => hanc (h ▸ .refl)
      refine hnext q' x.saved hq' (hinv.next hclear horigin hk
        (hbelow (.inr fun hseen => hanc hseen.ancestor)) hq' ?_) hstep'
      exact .inl ⟨hq's, fun h => hown h.1⟩
    | inherited q' hanc hne hq' hq's =>
      have hsaved := hinv.not_kept hv hup hclear hstart horigin hk hanc hne
      rw [hsaved] at hinv
      by_cases hw : k.whiteout = true
      · rw [if_pos hw] at hstep'
        refine hnext q' none hq' (hinv.next hclear horigin hk (hbelow (.inl hw)) hq' ?_) hstep'
        exact .inl ⟨hq's, fun h => hne h.1⟩
      · rw [if_neg hw] at hstep'
        exact hnext q' (some k) hq' (hinv.keep hv hup hclear hstart horigin hk hslot hanc hne
          (by simpa using hw) hq' hq's) hstep'
    | whiteout q' hown hw hq' hq's =>
      exact hnext q' x.saved hq' (hinv.next hclear horigin hk (hbelow (.inl hw)) hq'
        (.inr hq's)) hstep'
    | own hown hdata hsaved =>
      have hw : Wanted (keyParent keys) t s lo k := ⟨hown ▸ visibleAt_self hk.live, hdata, hslot⟩
      refine ⟨_, loop_succ_done hstep' turns, .inr ⟨k, hw,
        hslots.trans (Bpos.slot_mono hinv.le), fun v hwv hle => ?_, hiter.moved _ k, rfl, rfl⟩⟩
      by_cases hvk : v = k
      · rw [hvk]
      · exact (hclear.slot_lt hv hup hstart horigin hinv hk hwv
          (hinv.unsaved hsaved v hwv hle) hvk).le
    | saved v hown hdata hsaved hlt =>
      obtain ⟨hw, hle, -, hlast, -⟩ := hinv.kept v hsaved
      exact ⟨_, loop_succ_done hstep' turns, .inr ⟨v, hw, hle, hlast, hiter.moved _ v, rfl, rfl⟩⟩
    | late v hown hdata hsaved hge =>
      obtain ⟨-, hle, hlt, -⟩ := hinv.kept v hsaved
      have hge' := Bpos.slot_mono hge
      exact absurd hslots (by omega)

/-! ### A run of calls -/

/-- The step backwards of an iterator that has returned a key: it ends at the first slot, and
otherwise is at the one before. -/
theorem rewind_cases {iter : BtreeIter} (hiter : Filtering s iter) :
    (iter.k.p.slot = 0 ∧ ∃ iter', bch2BtreeIterRewind iter = some (iter', false)) ∨
    ∃ iter', bch2BtreeIterRewind iter = some (iter', true) ∧ Filtering s iter' ∧
      iter'.pos.slot + 1 = iter.k.p.slot ∧ iter'.pos.snapshot = s := by
  have hmin : bkeyEq iter.k.p posMin ↔ iter.k.p.slot = 0 := bkeyEq_iff
  rw [bch2BtreeIterRewind, hiter.isExtents, if_neg Bool.false_ne_true]
  by_cases hzero : iter.k.p.slot = 0
  · rw [if_pos (hmin.mpr hzero)]
    exact .inl ⟨hzero, _, rfl⟩
  · obtain ⟨q, hq, hslot, -⟩ := bposNosnapPredecessor_eq_some hzero
    rw [if_neg fun h => hzero (hmin.mp h), if_neg Bool.false_ne_true, hq, Option.map_some]
    exact .inr ⟨_, rfl, ⟨hiter.isExtents, hiter.filterSnapshots, hiter.nofilterWhiteouts,
      hiter.snapshot⟩, hslot, hiter.snapshot⟩

/-- A run of calls gives the keys wanted up to the slot of the iterator, from the last to the
first. -/
theorem forEachPrev_returns (hwf : SnapshotKeysWf keys) (htab : TableOf keys keys table)
    (hv : t.Valid) (hs : s ≠ 0) (hfuel : searchTurns ≤ fuel)
    (hclear : PrevClear (keyParent keys) t s lo start) (hstart : start.snapshot = s) {turns : ℕ} :
    ∀ {iter : BtreeIter} {acc : List Bkey}, Filtering s iter → iter.pos.snapshot = s →
      iter.pos ≤ start →
      (∀ v, Wanted (keyParent keys) t s lo v → v.p.slot = iter.pos.slot → v.p.snapshot = s) →
      iter.pos.slot < turns →
      ∃ ks, loop (forEachPrevStep fuel table t lo) turns (iter, acc) = some (acc ++ ks) ∧
        ks.Pairwise (fun k k' => k'.p.slot < k.p.slot) ∧
        ∀ v, v ∈ ks ↔ Wanted (keyParent keys) t s lo v ∧ v.p.slot ≤ iter.pos.slot := by
  have hup := hwf.rising
  induction turns with
  | zero => exact fun _ _ _ _ hturns => absurd hturns (Nat.not_lt_zero _)
  | succ turns ih =>
    intro iter acc hiter hsnap hle hown hturns
    have hinv : PrevInv (keyParent keys) t s lo iter.pos iter.pos none :=
      ⟨le_rfl, .inl hsnap, covers_of_own hsnap hown, fun _ _ _ h => h, by simp⟩
    have henough : iter.pos.toNat < fuel := by
      have := iter.pos.toNat_le
      rw [searchTurns] at hfuel
      omega
    obtain ⟨y, hcall, hres⟩ := prev_returns (x := ⟨iter, none⟩) hwf htab hv hs hfuel hclear hstart
      hle hsnap hiter hinv henough
    have hpeek : bch2BtreeIterPeekPrevMin fuel table t iter lo = some y := hcall
    rcases hres with ⟨hnull, hnone⟩ | ⟨v, hw, hslot, hlast, hiter', hk, hkey⟩
    · have hstep : forEachPrevStep fuel table t lo (iter, acc) = some (.done acc) := by
        rw [forEachPrevStep, hpeek, Option.bind_eq_bind, Option.bind_some, hnull]
      refine ⟨[], by rw [loop_succ_done hstep, List.append_nil], List.Pairwise.nil, fun v => ?_⟩
      refine iff_of_false (by simp) fun h => ?_
      exact absurd (hnone v h.1) (not_lt.mpr h.2)
    · -- the key found comes first, and the rest lies before its slot
      have hcons : ∀ {ks : List Bkey}, (∀ v', v' ∈ ks ↔ Wanted (keyParent keys) t s lo v' ∧
          v'.p.slot < v.p.slot) → ∀ v', v' ∈ v :: ks ↔
          Wanted (keyParent keys) t s lo v' ∧ v'.p.slot ≤ iter.pos.slot := by
        intro ks hks v'
        rw [List.mem_cons, hks]
        constructor
        · rintro (rfl | ⟨hw', hlt⟩)
          · exact ⟨hw, hslot⟩
          · exact ⟨hw', hlt.le.trans hslot⟩
        · rintro ⟨hw', hle'⟩
          rcases (hlast v' hw' hle').lt_or_eq with hlt | heq
          · exact .inr ⟨hw', hlt⟩
          · exact .inl (hw'.seen.unique hv hup hw.seen heq)
      rcases rewind_cases hiter' with ⟨hzero, iter'', hrew⟩ | ⟨iter'', hrew, hiter'', hslot', hs'⟩
      · have hstep : forEachPrevStep fuel table t lo (iter, acc) = some (.done (acc ++ [v])) := by
          rw [forEachPrevStep, hpeek, Option.bind_eq_bind, Option.bind_some, hkey]
          dsimp only
          rw [hrew, Option.bind_eq_bind, Option.bind_some, if_neg Bool.false_ne_true]
        refine ⟨[v], loop_succ_done hstep turns, List.pairwise_singleton _ _, hcons fun v' => ?_⟩
        rw [hk] at hzero
        exact iff_of_false (by simp) fun h => by omega
      · have hstep : forEachPrevStep fuel table t lo (iter, acc) =
            some (.next (iter'', acc ++ [v])) := by
          rw [forEachPrevStep, hpeek, Option.bind_eq_bind, Option.bind_some, hkey]
          dsimp only
          rw [hrew, Option.bind_eq_bind, Option.bind_some, if_pos rfl]
        rw [hk] at hslot'
        have hslots := Bpos.slot_mono hle
        obtain ⟨ks, hks, hsorted, hmem⟩ := ih hiter'' hs'
          (Bpos.le_iff_slot.mpr (.inl (by omega)))
          (fun v' hw' heq => hclear.own_of_next hw.seen.live (by omega)
            (fun h => by rw [hw.data] at h; cases h.2) hw' (by omega)) (by omega)
        refine ⟨v :: ks, ?_, List.pairwise_cons.mpr ⟨fun v' hv' => ?_, hsorted⟩,
          hcons fun v' => ?_⟩
        · rw [loop_succ_next hstep, hks, List.append_assoc, List.singleton_append]
        · have := ((hmem v').mp hv').2
          omega
        · rw [hmem, show v'.p.slot ≤ iter''.pos.slot ↔ v'.p.slot < v.p.slot by omega]

end Prev

/-! ### Complete iterations backwards -/

/-- Under enough turns, the keys that a new iterator enumerates backwards from its position down to
an end are those its snapshot sees there, in reverse order. -/
def EnumeratesBackward (parent : ℕ → ℕ) (table : SnapshotTable) (t : Btree) (start lo : Bpos) :
    Prop :=
  ∃ ks, VisibleRange parent t start.snapshot lo start ks ∧ ∃ n, ∀ fuel, n ≤ fuel →
    forEachPrevKey fuel table t (bch2TransIterInit start false) lo = some ks.reverse

section Iteration

variable {keys : List SnapshotKey} {table : SnapshotTable} {t : Btree} {start lo : Bpos}

theorem enumeratesBackward_of_clear (hwf : SnapshotKeysWf keys) (htab : TableOf keys keys table)
    (hv : t.Valid) (hs : start.snapshot ≠ 0)
    (hclear : PrevClear (keyParent keys) t start.snapshot lo start) :
    EnumeratesBackward (keyParent keys) table t start lo := by
  have hrun : ∀ fuel, searchTurns ≤ fuel → ∃ ks,
      forEachPrevKey fuel table t (bch2TransIterInit start false) lo = some ks ∧
        VisibleRange (keyParent keys) t start.snapshot lo start ks.reverse := by
    intro fuel hfuel
    have hturns : (bch2TransIterInit start false).pos.slot < fuel := by
      have := start.slot_le
      rw [searchTurns] at hfuel
      exact lt_of_le_of_lt this (by omega)
    have hown : ∀ v, Wanted (keyParent keys) t start.snapshot lo v → v.p.slot = start.slot →
        v.p.snapshot = start.snapshot := by
      intro v hw heq
      by_contra hne
      exact (hclear.inherited v hw.seen hw.data hw.slot heq.le hne).slot.ne heq
    obtain ⟨ks, hks, hsorted, hmem⟩ := forEachPrev_returns hwf htab hv hs hfuel hclear
      rfl (filtering_init start) rfl le_rfl hown hturns
    refine ⟨ks, hks, List.pairwise_reverse.mpr hsorted, fun k => ?_⟩
    rw [List.mem_reverse, hmem]
    constructor
    · rintro ⟨hw, hle⟩
      exact ⟨hw.seen, hw.data, hw.slot, hle⟩
    · rintro ⟨hseen, hdata, hlo, hle⟩
      exact ⟨⟨hseen, hdata, hlo⟩, hle⟩
  obtain ⟨ks, -, hks⟩ := hrun searchTurns le_rfl
  refine ⟨ks.reverse, hks, searchTurns, fun fuel hfuel => ?_⟩
  obtain ⟨ks', hrun', hks'⟩ := hrun fuel hfuel
  rw [hrun', hks.unique hks', List.reverse_reverse]

/-- The filter ends with a key only at a key of the snapshot itself. -/
theorem prevFilterKey_own {fuel : ℕ} {stop origin : Bpos} {x : PrevState} {k v : Bkey}
    {pathKey : Option Bkey} {iter' : BtreeIter}
    (h : prevFilterKey fuel table stop origin x k pathKey = some (.done (iter', .key v))) :
    k.p.snapshot = origin.snapshot := by
  by_contra hne
  rw [prevFilterKey] at h
  by_cases hlt : bkeyLt k.p stop
  · rw [if_pos hlt] at h
    cases h
  rw [if_neg hlt] at h
  obtain ⟨r, -, h⟩ := Option.bind_eq_some_iff.mp h
  cases r with
  | false =>
    rw [Bool.not_false, if_pos rfl] at h
    obtain ⟨q, -, h⟩ := Option.bind_eq_some_iff.mp h
    cases h
  | true =>
    rw [Bool.not_true, if_neg Bool.false_ne_true, if_pos hne] at h
    obtain ⟨q, -, h⟩ := Option.bind_eq_some_iff.mp h
    cases h

/-- When the filter goes on, only the position of the iterator and the key kept have changed. -/
theorem prevFilterKey_next {fuel : ℕ} {stop origin : Bpos} {x x' : PrevState} {k : Bkey}
    {pathKey : Option Bkey}
    (h : prevFilterKey fuel table stop origin x k pathKey = some (.next x')) :
    ∃ q, x'.iter = { x.iter with pos := q } := by
  rw [prevFilterKey] at h
  by_cases hlt : bkeyLt k.p stop
  · rw [if_pos hlt] at h
    cases h
  rw [if_neg hlt] at h
  obtain ⟨r, -, h⟩ := Option.bind_eq_some_iff.mp h
  cases r with
  | false =>
    rw [Bool.not_false, if_pos rfl] at h
    obtain ⟨q, -, h⟩ := Option.bind_eq_some_iff.mp h
    cases h
    exact ⟨_, rfl⟩
  | true =>
    rw [Bool.not_true, if_neg Bool.false_ne_true] at h
    by_cases hne : k.p.snapshot ≠ origin.snapshot
    · rw [if_pos hne] at h
      obtain ⟨q, -, h⟩ := Option.bind_eq_some_iff.mp h
      cases h
      exact ⟨_, rfl⟩
    rw [if_neg hne] at h
    by_cases hw : k.whiteout = true
    · rw [if_pos hw] at h
      obtain ⟨q, -, h⟩ := Option.bind_eq_some_iff.mp h
      cases h
      exact ⟨_, rfl⟩
    rw [if_neg hw] at h
    cases hsaved : x.saved with
    | none =>
      rw [hsaved] at h
      cases h
    | some v =>
      rw [hsaved] at h
      dsimp only at h
      split_ifs at h <;> cases h

/-- A call returns a key only if one of the snapshot itself lies up to its position. -/
theorem prev_key_own (hv : t.Valid) {fuel : ℕ} (hfuel : searchTurns ≤ fuel) {s : Fin (2 ^ 32)}
    {origin : Bpos} {turns : ℕ} {iter' : BtreeIter} {v : Bkey} :
    ∀ {x : PrevState}, Filtering s x.iter →
      loop (prevFilterStep fuel table t lo origin) turns x = some (iter', .key v) →
      ∃ k, t.Live k ∧ k.p.snapshot = origin.snapshot ∧ lo.slot ≤ k.p.slot := by
  induction turns with
  | zero => exact fun _ hrun => nomatch hrun
  | succ turns ih =>
    intro x hiter hrun
    rcases peekPrevMin_spec hv hiter.isExtents table hfuel with
      ⟨iter₁, k', hpeek, -⟩ | ⟨k, hk, hslot, hpeek⟩
    · have hstep : prevFilterStep fuel table t lo origin x = some (.done (iter₁, .null)) := by
        rw [prevFilterStep, hpeek, Option.bind_eq_bind, Option.bind_some]
      rw [loop_succ_done hstep] at hrun
      cases hrun
    · have hstep : prevFilterStep fuel table t lo origin x = prevFilterKey fuel table lo origin
          { x with iter := { x.iter with pos := k.p.withSnapshot x.iter.snapshot, k := k } } k
          (some k) := by
        rw [prevFilterStep, hpeek, Option.bind_eq_bind, Option.bind_some]
      cases hturn : prevFilterStep fuel table t lo origin x with
      | none =>
        rw [loop_none hturn] at hrun
        cases hrun
      | some turn =>
        cases turn with
        | next x' =>
          rw [loop_succ_next hturn] at hrun
          obtain ⟨q, hq⟩ := prevFilterKey_next (hstep.symm.trans hturn)
          have hiter' : Filtering s x'.iter := hq ▸ hiter.moved q k
          exact ih hiter' hrun
        | done y =>
          rw [loop_succ_done hturn] at hrun
          obtain rfl := Option.some.inj hrun
          exact ⟨k, hk.live, prevFilterKey_own (hstep.symm.trans hturn), hslot⟩

/-- Something is enumerated backwards only if the snapshot has a key of its own. -/
theorem own_of_enumeratesBackward (hv : t.Valid)
    (h : EnumeratesBackward (keyParent keys) table t start lo) {v : Bkey}
    (hw : Wanted (keyParent keys) t start.snapshot lo v) (hslot : v.p.slot ≤ start.slot) :
    ∃ k, t.Live k ∧ k.p.snapshot = start.snapshot ∧ lo.slot ≤ k.p.slot := by
  obtain ⟨ks, hks, n, hn⟩ := h
  have hrun := hn (max n searchTurns) (Nat.le_max_left ..)
  have hfuel : searchTurns ≤ max n searchTurns := Nat.le_max_right ..
  have hne : ks.reverse ≠ [] := by
    intro hnil
    have hmem := (hks.mem v).mpr ⟨hw.seen, hw.data, hw.slot, hslot⟩
    rw [List.reverse_eq_nil_iff.mp hnil] at hmem
    cases hmem
  cases hpeek : bch2BtreeIterPeekPrevMin (max n searchTurns) table t
      (bch2TransIterInit start false) lo with
  | none =>
    have hstep : forEachPrevStep (max n searchTurns) table t lo
        (bch2TransIterInit start false, []) = none := by
      rw [forEachPrevStep, hpeek, Option.bind_eq_bind, Option.bind_none]
    rw [forEachPrevKey, loop_none hstep] at hrun
    cases hrun
  | some y =>
    obtain ⟨iter', ret⟩ := y
    cases ret with
    | key k' =>
      rw [bch2BtreeIterPeekPrevMin] at hpeek
      exact prev_key_own hv hfuel (filtering_init start) hpeek
    | null =>
      have hstep : forEachPrevStep (max n searchTurns) table t lo
          (bch2TransIterInit start false, []) = some (.done []) := by
        rw [forEachPrevStep, hpeek, Option.bind_eq_bind, Option.bind_some]
      obtain ⟨m, hm⟩ := Nat.exists_eq_succ_of_ne_zero
        (Nat.ne_zero_of_lt (lt_of_lt_of_le (by decide : 0 < searchTurns) hfuel))
      rw [forEachPrevKey] at hrun
      have hdone := loop_succ_done hstep m
      rw [← Nat.succ_eq_add_one, ← hm, hrun] at hdone
      exact absurd (Option.some.inj hdone) hne
    | err e =>
      have hstep : forEachPrevStep (max n searchTurns) table t lo
          (bch2TransIterInit start false, []) = none := by
        rw [forEachPrevStep, hpeek, Option.bind_eq_bind, Option.bind_some]
      rw [forEachPrevKey, loop_none hstep] at hrun
      cases hrun

end Iteration

/-! ### A key of the snapshot itself -/

/-- A key of the child snapshot. -/
def ownKey : Bkey := { p := childPos 1, type := 25, val := [] }

theorem ownKey_live {k : Bkey} (hk : (leafTree [ownKey]).Live k) : k = ownKey :=
  List.mem_singleton.mp hk.1

theorem ownKey_visible :
    VisibleAt (keyParent twoSnapshots) (leafTree [ownKey]) (childPos 1).snapshot ownKey :=
  visibleAt_self (k := ownKey) ⟨List.mem_singleton_self _, rfl⟩

theorem ownKey_prevClear : PrevClear (keyParent twoSnapshots) (leafTree [ownKey])
    (childPos 1).snapshot posMin (childPos 2) where
  nonzero := by
    intro k hk _ _
    rw [ownKey_live hk]
    decide
  top := by
    intro v hv _ _ _ k hk _
    rw [ownKey_live hk, ownKey_live hv.live]
  inherited := by
    intro v hv _ _ _ hne
    rw [ownKey_live hv.live] at hne
    exact absurd rfl hne
  hidden := by
    intro k hk _ _ _ _ _
    rw [ownKey_live hk]
    exact ownKey_visible
  zero := by
    intro _ k hk hslot
    rw [ownKey_live hk] at hslot
    exact absurd hslot (by decide +kernel)

end Subvol

import Subvol.Journal.Recover

/-!
# The durable journal

The invariant of the journal device: `DurableInv` relates an image to the history of records
that have been written to it. Whatever the newest of them declares needed is still there, and the
bucket after the current one holds nothing of it, so that zeroing that bucket is harmless.

## Main definitions

* `DurableInv`: the invariant.
* `liveRecords`: the records of a history that its newest one declares needed.

## Main results

* `DurableInv.append`, `DurableInv.zero`, `DurableInv.enter`: the three kinds of journal writes
  keep it.
* `DurableInv.readable`: such an image can be read back.
-/

namespace Subvol

open Lib

/-! ### The log in ring order -/

section RingLog

variable {n cur : ℕ} {bk : ℕ → List Jset}

theorem mem_ringLog {r : Jset} : r ∈ ringLog n cur bk ↔ ∃ i < n, r ∈ bk i := by
  simp only [ringLog, List.mem_flatMap, Ring.mem_order]

/-- The part of the walk behind its first bucket does not meet that bucket. -/
private theorem flatMap_tail_update (hn : 0 < n) (rs : List Jset) :
    (Ring.order n cur).tail.flatMap (Function.update bk (Ring.next n cur) rs) =
      (Ring.order n cur).tail.flatMap bk := by
  apply List.flatMap_congr
  intro i hi
  have hnodup := Ring.nodup_order (n := n) (c := cur)
  rw [Ring.order_eq_cons hn] at hnodup
  apply Function.update_of_ne
  rintro rfl
  exact (List.nodup_cons.mp hnodup).1 hi

theorem ringLog_eq_append (bk : ℕ → List Jset) (hn : 0 < n) :
    ringLog n cur bk = bk (Ring.next n cur) ++ (Ring.order n cur).tail.flatMap bk := by
  rw [ringLog, Ring.order_eq_cons hn, List.flatMap_cons, List.tail_cons]

/-- A record added to the current bucket is added to the end of the log. -/
theorem ringLog_append (hc : cur < n) (r : Jset) :
    ringLog n cur (Function.update bk cur (bk cur ++ [r])) = ringLog n cur bk ++ [r] := by
  have hnodup := Ring.nodup_order (n := n) (c := cur)
  rw [Ring.order_eq_concat hc] at hnodup
  have hinit : (Ring.order n cur).dropLast.flatMap (Function.update bk cur (bk cur ++ [r])) =
      (Ring.order n cur).dropLast.flatMap bk := by
    apply List.flatMap_congr
    intro i hi
    apply Function.update_of_ne
    rintro rfl
    exact List.disjoint_of_nodup_append hnodup hi (List.mem_singleton_self _)
  simp only [ringLog]
  rw [Ring.order_eq_concat hc, List.flatMap_append, List.flatMap_append, hinit,
    List.flatMap_singleton, List.flatMap_singleton, Function.update_self, List.append_assoc]

/-- Emptying the bucket after the current one takes its records off the start of the log. -/
theorem ringLog_zero (cur : ℕ) (bk : ℕ → List Jset) (hn : 0 < n) : ringLog n cur bk = bk (Ring.next n cur) ++
    ringLog n cur (Function.update bk (Ring.next n cur) []) := by
  rw [ringLog_eq_append bk hn, ringLog_eq_append (Function.update _ _ _) hn,
    Function.update_self, List.nil_append, flatMap_tail_update hn]

/-- A record put into the empty bucket after the current one ends the log of that bucket. -/
theorem ringLog_enter (hn : 0 < n) (r : Jset) (hempty : bk (Ring.next n cur) = []) :
    ringLog n (Ring.next n cur) (Function.update bk (Ring.next n cur) [r]) =
      ringLog n cur bk ++ [r] := by
  rw [ringLog, Ring.order_next hn, List.flatMap_append, List.flatMap_singleton,
    Function.update_self, flatMap_tail_update hn, ringLog_eq_append bk hn, hempty, List.nil_append]

end RingLog

/-! ### The invariant -/

variable (g : JournalGeometry)

/-- The image holds the end of the history `hist` in its buckets `bk`, the newest record at the
end of bucket `cur`; it still holds every record of the history that the newest one declares
needed, and none of these is in the bucket after `cur`. The last record of a bucket has its
highest sequence. Unless the sequence numbers are used up, the history is consecutive. -/
structure DurableInv (img : Image UInt64) (hist : List Jset) (bk : ℕ → List Jset) (cur : ℕ) :
    Prop where
  layout : Layout g img bk
  cur_lt : cur < g.nr
  suffix : ringLog g.nr cur bk <:+ hist
  newest : (bk cur).getLast? = hist.getLast?
  bounded : ∀ i < g.nr, ∀ r ∈ bk i, r.seq ≤ lastSeqOf 0 (bk i)
  sound : ∀ r ∈ hist, r.Sound ∧ 0 < r.lastSeq
  top : ∀ nw ∈ hist.getLast?, ∀ r ∈ hist, r.seq ≤ nw.seq
  cover : ∀ nw ∈ hist.getLast?, ∀ s, 0 < s → s ≤ nw.seq → ∃ r ∈ hist, r.seq = s
  kept : ∀ nw ∈ hist.getLast?, ∀ r ∈ hist, nw.lastSeq ≤ r.seq → ∃ i < g.nr, r ∈ bk i
  next_old : ∀ nw ∈ hist.getLast?, Ring.next g.nr cur ≠ cur →
    ∀ r ∈ bk (Ring.next g.nr cur), r.seq < nw.lastSeq
  chain : (∀ r ∈ hist, r.seq < journalSeqMax) → Consecutive Jset.seq hist

/-- A history with a record in it has a newest record. -/
private theorem exists_newest {hist : List Jset} {x : Jset} (hx : x ∈ hist) :
    ∃ nw, hist.getLast? = some nw := by
  cases hlast : hist.getLast? with
  | none =>
    rw [List.getLast?_eq_none_iff.mp hlast] at hx
    cases hx
  | some nw => exact ⟨nw, rfl⟩

/-- The record `r` may follow the history: its sequence and `last_seq` are not below those of the
newest record, and its sequence is the next one unless the numbers are used up. -/
structure Follows (hist : List Jset) (r : Jset) : Prop where
  sound : r.Sound
  lastSeq_pos : 0 < r.lastSeq
  first : hist = [] → r.seq = 1
  seq_le : ∀ nw ∈ hist.getLast?, nw.seq ≤ r.seq
  seq_next : ∀ nw ∈ hist.getLast?, nw.seq < journalSeqMax → r.seq = nw.seq + 1
  lastSeq_le : ∀ nw ∈ hist.getLast?, nw.lastSeq ≤ r.lastSeq

namespace Follows

variable {hist : List Jset} {r : Jset}

/-- The history with the new record covers every sequence up to it. -/
theorem cover (h : Follows hist r)
    (hcover : ∀ nw ∈ hist.getLast?, ∀ s, 0 < s → s ≤ nw.seq → ∃ x ∈ hist, x.seq = s) :
    ∀ s, 0 < s → s ≤ r.seq → ∃ x ∈ hist ++ [r], x.seq = s := by
  intro s hs hle
  have hr : r ∈ hist ++ [r] := List.mem_append_right _ (List.mem_singleton_self _)
  cases hlast : hist.getLast? with
  | none =>
    have hfirst := h.first (List.getLast?_eq_none_iff.mp hlast)
    exact ⟨r, hr, by omega⟩
  | some nw =>
    by_cases hnw : s ≤ nw.seq
    · obtain ⟨x, hx, hxs⟩ := hcover nw hlast s hs hnw
      exact ⟨x, List.mem_append_left _ hx, hxs⟩
    · -- a sequence above the newest is the one of `r`
      have hmax : nw.seq < journalSeqMax := by
        have := h.sound.seq_le
        omega
      have := h.seq_next nw hlast hmax
      exact ⟨r, hr, by omega⟩

theorem top (h : Follows hist r) (htop : ∀ nw ∈ hist.getLast?, ∀ x ∈ hist, x.seq ≤ nw.seq) :
    ∀ x ∈ hist ++ [r], x.seq ≤ r.seq := by
  intro x hx
  rcases List.mem_append.mp hx with hx | hx
  · obtain ⟨nw, hnw⟩ := exists_newest hx
    exact (htop nw hnw x hx).trans (h.seq_le nw hnw)
  · rw [List.mem_singleton.mp hx]

end Follows

namespace DurableInv

variable {g} {img : Image UInt64} {hist : List Jset} {bk : ℕ → List Jset} {cur : ℕ}

theorem nr_pos (h : DurableInv g img hist bk cur) : 0 < g.nr :=
  lt_of_le_of_lt (Nat.zero_le _) h.cur_lt

theorem stored (h : DurableInv g img hist bk cur) : ∀ i < g.nr, ∀ r ∈ bk i, r ∈ hist :=
  fun i hi _ hr => h.suffix.mem (mem_ringLog.mpr ⟨i, hi, hr⟩)

/-- Without a history nothing is stored. -/
theorem stored_nil (h : DurableInv g img [] bk cur) {i : ℕ} (hi : i < g.nr) : bk i = [] := by
  apply List.eq_nil_iff_forall_not_mem.mpr
  intro r hr
  cases h.stored i hi r hr

/-- The end of the log is the newest record. -/
theorem getLast?_ringLog (h : DurableInv g img hist bk cur) :
    (ringLog g.nr cur bk).getLast? = hist.getLast? := by
  cases hlast : hist.getLast? with
  | none =>
    rw [List.getLast?_eq_none_iff] at hlast ⊢
    subst hlast
    apply List.eq_nil_iff_forall_not_mem.mpr
    intro r hr
    obtain ⟨i, hi, hr⟩ := mem_ringLog.mp hr
    cases h.stored i hi r hr
  | some nw =>
    rw [ringLog, Ring.order_eq_concat h.cur_lt, List.flatMap_append, List.flatMap_singleton,
      List.getLast?_append, h.newest, hlast]
    rfl

/-- The history prolonged by a record `r` that ends up at the end of bucket `cur'`, everything
stored before being kept: what is left to show for any write of a record. -/
private theorem prolong (h : DurableInv g img hist bk cur) {r : Jset} (hr : Follows hist r)
    {img' : Image UInt64} {bk' : ℕ → List Jset} {cur' : ℕ} (hlayout : Layout g img' bk')
    (hcur : cur' < g.nr) (hnew : (bk' cur').getLast? = some r)
    (hkept : ∀ i < g.nr, ∀ x ∈ bk i, x ∈ bk' i) (hother : ∀ i < g.nr, i ≠ cur' → bk' i = bk i)
    (hold : Ring.next g.nr cur' ≠ cur' → ∀ x ∈ bk' (Ring.next g.nr cur'), x.seq < r.lastSeq)
    (hlog : ringLog g.nr cur' bk' = ringLog g.nr cur bk ++ [r]) :
    DurableInv g img' (hist ++ [r]) bk' cur' := by
  have hlast : (hist ++ [r]).getLast? = some r := List.getLast?_concat
  have htop := hr.top h.top
  have hsuffix : ringLog g.nr cur' bk' <:+ hist ++ [r] := by
    rw [hlog]
    exact (List.suffix_append_inj_of_length_eq rfl).mpr ⟨h.suffix, rfl⟩
  refine ⟨hlayout, hcur, hsuffix, hnew.trans hlast.symm, ?_, ?_, ?_, ?_, ?_, ?_, ?_⟩
  · intro i hi x hx
    by_cases hic : i = cur'
    · subst hic
      rw [lastSeqOf, hnew]
      exact htop x (hsuffix.mem (mem_ringLog.mpr ⟨i, hi, hx⟩))
    · rw [hother i hi hic] at hx ⊢
      exact h.bounded i hi x hx
  · intro x hx
    rcases List.mem_append.mp hx with hx | hx
    · exact h.sound x hx
    · rw [List.mem_singleton.mp hx]
      exact ⟨hr.sound, hr.lastSeq_pos⟩
  · intro nw hnw
    cases hlast.symm.trans hnw
    exact htop
  · intro nw hnw
    cases hlast.symm.trans hnw
    exact hr.cover h.cover
  · intro nw hnw x hx hle
    cases hlast.symm.trans hnw
    rcases List.mem_append.mp hx with hx | hx
    · obtain ⟨nw, hnw⟩ := exists_newest hx
      obtain ⟨i, hi, hxi⟩ := h.kept nw hnw x hx ((hr.lastSeq_le nw hnw).trans hle)
      exact ⟨i, hi, hkept i hi x hxi⟩
    · rw [List.mem_singleton.mp hx]
      exact ⟨cur', hcur, List.mem_of_getLast? hnew⟩
  · intro nw hnw
    cases hlast.symm.trans hnw
    exact hold
  · intro hmax
    have hbelow : ∀ x ∈ hist, x.seq < journalSeqMax :=
      fun x hx => hmax x (List.mem_append_left _ hx)
    apply (h.chain hbelow).concat
    intro y hy
    exact (hr.seq_next y hy (hbelow y (List.mem_of_getLast? hy))).symm

/-- A record written behind the newest one. -/
theorem append (h : DurableInv g img hist bk cur) {r : Jset} (hr : Follows hist r)
    (hfit : usedSectors g (bk cur) + g.writeSectors r.words.length ≤ g.bucketSize) :
    DurableInv g
      (img.writeAt (g.bucketStart cur + usedSectors g (bk cur) * sectorU64s) (diskWords g r))
      (hist ++ [r]) (Function.update bk cur (bk cur ++ [r])) cur := by
  apply h.prolong hr (h.layout.append h.cur_lt hfit) h.cur_lt
  · rw [Function.update_self, List.getLast?_concat]
  · intro i hi x hx
    by_cases hic : i = cur
    · subst hic
      rw [Function.update_self]
      exact List.mem_append_left _ hx
    · rwa [Function.update_of_ne hic]
  · exact fun i _ hic => Function.update_of_ne hic _ _
  · intro hne x hx
    rw [Function.update_of_ne hne] at hx
    obtain ⟨nw, hnw⟩ := exists_newest (h.stored _ (Ring.next_lt h.nr_pos) x hx)
    exact lt_of_lt_of_le (h.next_old nw hnw hne x hx) (hr.lastSeq_le nw hnw)
  · exact ringLog_append h.cur_lt r

/-- The bucket after the current one zeroed. -/
theorem zero (h : DurableInv g img hist bk cur) (hne : Ring.next g.nr cur ≠ cur) :
    DurableInv g
      (img.writeAt (g.bucketStart (Ring.next g.nr cur)) (List.replicate g.bucketU64s 0))
      hist (Function.update bk (Ring.next g.nr cur) []) cur := by
  have hlt : Ring.next g.nr cur < g.nr := Ring.next_lt h.nr_pos
  have hlog := ringLog_zero cur bk h.nr_pos
  refine ⟨h.layout.zero hlt, h.cur_lt, ?_, ?_, ?_, h.sound, h.top, h.cover, ?_, ?_, h.chain⟩
  · exact (List.suffix_append _ _).trans (hlog ▸ h.suffix)
  · rw [Function.update_of_ne hne.symm]
    exact h.newest
  · intro i hi x hx
    by_cases hin : i = Ring.next g.nr cur
    · rw [hin, Function.update_self] at hx
      cases hx
    · rw [Function.update_of_ne hin] at hx ⊢
      exact h.bounded i hi x hx
  · intro nw hnw x hx hle
    obtain ⟨i, hi, hxi⟩ := h.kept nw hnw x hx hle
    refine ⟨i, hi, ?_⟩
    -- a record still needed is not in the bucket that was zeroed
    have hin : i ≠ Ring.next g.nr cur := by
      rintro rfl
      have := h.next_old nw hnw hne x hxi
      omega
    rwa [Function.update_of_ne hin]
  · intro nw hnw _ x hx
    rw [Function.update_self] at hx
    cases hx

/-- A record written at the start of the empty bucket after the current one. The bucket behind
that one must hold nothing the record still declares needed. -/
theorem enter (h : DurableInv g img hist bk cur) {r : Jset} (hr : Follows hist r)
    (hempty : bk (Ring.next g.nr cur) = [])
    (hfit : g.writeSectors r.words.length ≤ g.bucketSize)
    (hold : ∀ x ∈ bk (Ring.next g.nr (Ring.next g.nr cur)), x.seq < r.lastSeq) :
    DurableInv g (img.writeAt (g.bucketStart (Ring.next g.nr cur)) (diskWords g r))
      (hist ++ [r]) (Function.update bk (Ring.next g.nr cur) [r]) (Ring.next g.nr cur) := by
  have hlt : Ring.next g.nr cur < g.nr := Ring.next_lt h.nr_pos
  have hlayout := h.layout.append (r := r) hlt
    (by rw [hempty, usedSectors_nil, Nat.zero_add]; exact hfit)
  rw [hempty, usedSectors_nil, Nat.zero_mul, Nat.add_zero, List.nil_append] at hlayout
  apply h.prolong hr hlayout hlt
  · rw [Function.update_self]
    rfl
  · intro i hi x hx
    by_cases hin : i = Ring.next g.nr cur
    · rw [hin, hempty] at hx
      cases hx
    · rwa [Function.update_of_ne hin]
  · exact fun i _ hin => Function.update_of_ne hin _ _
  · intro hne x hx
    rw [Function.update_of_ne hne] at hx
    exact hold x hx
  · exact ringLog_enter h.nr_pos r hempty

/-- An image with the same journal buckets. -/
theorem congr (h : DurableInv g img hist bk cur) {img' : Image UInt64}
    (hread : ∀ i < g.nr, img'.readAt (g.bucketStart i) g.bucketU64s =
      img.readAt (g.bucketStart i) g.bucketU64s) : DurableInv g img' hist bk cur :=
  { h with layout := ⟨fun i hi => (hread i hi).trans (h.layout.words i hi), h.layout.fits⟩ }

/-- A write outside the journal buckets. -/
theorem outside (h : DurableInv g img hist bk cur) {off : ℕ} {ws : List UInt64}
    (hout : ∀ i < g.nr, off + ws.length ≤ g.bucketStart i ∨ g.bucketStart i + g.bucketU64s ≤ off) :
    DurableInv g (img.writeAt off ws) hist bk cur :=
  { h with layout := h.layout.outside hout }

/-- An image with this invariant can be read back while sequence numbers are left. -/
theorem readable (h : DurableInv g img hist bk cur) (hmax : ∀ r ∈ hist, r.seq < journalSeqMax) :
    Readable g img bk cur where
  layout := h.layout
  cur_lt := h.cur_lt
  sound i hi r hr := (h.sound r (h.stored i hi r hr)).1
  chain := by
    obtain ⟨pre, hpre⟩ := h.suffix
    have hchain := h.chain hmax
    rw [← hpre] at hchain
    exact hchain.right_of_append
  newest := h.getLast?_ringLog.trans h.newest.symm
  reaches nw hnw := by
    rw [h.newest] at hnw
    obtain ⟨hsound, hpos⟩ := h.sound nw (List.mem_of_getLast? hnw)
    obtain ⟨r, hr, hseq⟩ := h.cover nw hnw nw.lastSeq hpos hsound.lastSeq_le
    exact ⟨r, mem_ringLog.mpr (h.kept nw hnw r hr hseq.ge), hseq.le⟩

end DurableInv

/-! ### The live records -/

/-- The records of a history in the window `[last_seq, seq]` of the newest one. -/
def liveRecords (hist : List Jset) : List Jset :=
  match hist.getLast? with
  | some nw => hist.filter fun r => nw.lastSeq ≤ r.seq ∧ r.seq ≤ nw.seq
  | none => []

theorem mem_liveRecords {hist : List Jset} {r : Jset} : r ∈ liveRecords hist ↔
    r ∈ hist ∧ ∃ nw ∈ hist.getLast?, nw.lastSeq ≤ r.seq ∧ r.seq ≤ nw.seq := by
  unfold liveRecords
  split <;> simp [*]

/-- What the log of the image holds of the window is everything the history has in it. -/
theorem DurableInv.windowRecords_eq {g : JournalGeometry} {img : Image UInt64} {hist : List Jset}
    {bk : ℕ → List Jset} {cur : ℕ} (h : DurableInv g img hist bk cur)
    (hmax : ∀ r ∈ hist, r.seq < journalSeqMax) {nw : Jset} (hnw : hist.getLast? = some nw) :
    windowRecords (ringLog g.nr cur bk) nw = liveRecords hist := by
  obtain ⟨pre, hpre⟩ := h.suffix
  have hlt := (h.chain hmax).pairwise_lt
  rw [← hpre, List.pairwise_append] at hlt
  -- a record in front of the log is not needed, or it would be in the log as well
  have hgone : pre.filter (fun r => decide (nw.lastSeq ≤ r.seq ∧ r.seq ≤ nw.seq)) = [] := by
    apply List.filter_eq_nil_iff.mpr
    intro r hr hwin
    simp only [decide_eq_true_eq] at hwin
    have hmem : r ∈ hist := hpre ▸ List.mem_append_left _ hr
    have hlog : r ∈ ringLog g.nr cur bk := mem_ringLog.mpr (h.kept nw hnw r hmem hwin.1)
    exact lt_irrefl _ (hlt.2.2 r hr r hlog)
  have hlive : liveRecords hist =
      hist.filter fun r => decide (nw.lastSeq ≤ r.seq ∧ r.seq ≤ nw.seq) := by
    simp only [liveRecords, hnw]
  rw [hlive, ← hpre, List.filter_append, hgone, List.nil_append, windowRecords]
  apply List.filter_congr
  intro r hr
  have htop := h.top nw hnw r (h.suffix.mem hr)
  simp only [htop, and_true]

end Subvol

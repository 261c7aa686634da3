import Subvol.Journal.Layout
import Subvol.Lib.Numbered

/-!
# What a read of the journal returns

On an image whose buckets hold a log of consecutive records, `bch2_journal_read` succeeds: it
returns the records of the window `[last_seq, newest]` of the newest record and installs the
writer behind that record.

The log of an image is read off its buckets in ring order from the bucket after the current one
round to the current one, which holds the newest record.

## Main definitions

* `ringLog`: the records of all buckets in ring order.
* `Readable`: the image holds a log that reaches back to the `last_seq` of its newest record.

## Main results

* `Readable.bch2JournalRead_nil`, `Readable.bch2JournalRead_cons`: the read of an empty and of a
  non-empty log.
-/

namespace Subvol

open Lib

variable (g : JournalGeometry)

/-- The records of all buckets in ring order, the current bucket last. -/
def ringLog (n cur : ℕ) (bk : ℕ → List Jset) : List Jset := (Ring.order n cur).flatMap bk

/-- The entries the reader finds, in ring order. -/
def ringEntries (cur : ℕ) (bk : ℕ → List Jset) : List FoundEntry :=
  (Ring.order g.nr cur).flatMap fun i => foundEntries g i 0 (bk i)

/-- The image holds in its buckets a log of consecutive records that ends in bucket `cur` and
reaches back to the `last_seq` of its newest record. -/
structure Readable (img : Image UInt64) (bk : ℕ → List Jset) (cur : ℕ) : Prop where
  layout : Layout g img bk
  cur_lt : cur < g.nr
  sound : ∀ i < g.nr, ∀ r ∈ bk i, r.Sound
  chain : Consecutive Jset.seq (ringLog g.nr cur bk)
  newest : (ringLog g.nr cur bk).getLast? = (bk cur).getLast?
  reaches : ∀ nw, (bk cur).getLast? = some nw → ∃ r ∈ ringLog g.nr cur bk, r.seq ≤ nw.lastSeq

/-! ### The entries found -/

theorem foundEntries_map_seq (bucket offset : ℕ) (rs : List Jset) :
    (foundEntries g bucket offset rs).map FoundEntry.seq = rs.map Jset.seq := by
  induction rs generalizing offset with
  | nil => rfl
  | cons r rs ih => simp [foundEntries, ih]

theorem foundEntries_map_record (bucket offset : ℕ) (rs : List Jset) :
    (foundEntries g bucket offset rs).map FoundEntry.record = rs.map (readRecord g) := by
  induction rs generalizing offset with
  | nil => rfl
  | cons r rs ih => simp [foundEntries, ih]

theorem foundEntries_seq_eq {bucket offset : ℕ} {rs : List Jset} :
    ∀ e ∈ foundEntries g bucket offset rs, e.seq = e.record.seq := by
  induction rs generalizing offset with
  | nil => intro e he; cases he
  | cons r rs ih =>
    intro e he
    rcases List.mem_cons.mp he with rfl | he
    · rfl
    · exact ih e he

/-- The last entry found in a bucket is its last record, and ends where the used sectors end. -/
theorem foundEntries_getLast? (bucket s : ℕ) (rs : List Jset) :
    (foundEntries g bucket (s * sectorU64s) rs).getLast? =
      rs.getLast?.map fun r => ⟨r.seq, bucket, s + usedSectors g rs, readRecord g r⟩ := by
  induction rs generalizing s with
  | nil => rfl
  | cons r rs ih =>
    have hoff : s * sectorU64s + g.writeU64s r.words.length =
        (s + g.writeSectors r.words.length) * sectorU64s := by
      rw [g.writeU64s_eq, Nat.add_mul]
    have hused : usedSectors g (r :: rs) = g.writeSectors r.words.length + usedSectors g rs := rfl
    rw [foundEntries, hoff, List.getLast?_cons, List.getLast?_cons, ih, hused]
    cases hrs : rs.getLast? with
    | none =>
      rw [List.getLast?_eq_none_iff] at hrs
      subst hrs
      simp [sectorU64s]
    | some x => simp [Nat.add_assoc]

theorem ringEntries_map_seq (cur : ℕ) (bk : ℕ → List Jset) :
    (ringEntries g cur bk).map FoundEntry.seq = (ringLog g.nr cur bk).map Jset.seq := by
  simp only [ringEntries, ringLog, List.map_flatMap, foundEntries_map_seq]

theorem ringEntries_map_record (cur : ℕ) (bk : ℕ → List Jset) :
    (ringEntries g cur bk).map FoundEntry.record = (ringLog g.nr cur bk).map (readRecord g) := by
  simp only [ringEntries, ringLog, List.map_flatMap, foundEntries_map_record]

/-- Scanning buckets that all hold records returns all of them. -/
theorem scanBuckets_eq {img : Image UInt64} {bk : ℕ → List Jset} (is : List ℕ)
    (h : ∀ i ∈ is, scanBucketOf g img i = .ok (foundEntries g i 0 (bk i), lastSeqOf 0 (bk i))) :
    scanBuckets g img is = .ok (is.flatMap fun i => foundEntries g i 0 (bk i),
      is.map fun i => lastSeqOf 0 (bk i)) := by
  induction is with
  | nil => rfl
  | cons i is ih =>
    rw [scanBuckets, h i (List.mem_cons_self ..), ih fun k hk => h k (List.mem_cons_of_mem _ hk)]
    rfl

/-! ### The checks on the sorted entries -/

theorem dupMismatch_eq_false {l : List FoundEntry} (h : l.Pairwise fun a b => a.seq < b.seq) :
    dupMismatch l = false := by
  induction l with
  | nil => rfl
  | cons a l ih =>
    cases l with
    | nil => rfl
    | cons b l =>
      have hab : a.seq < b.seq := (List.pairwise_cons.mp h).1 b (List.mem_cons_self ..)
      rw [dupMismatch, ih (List.pairwise_cons.mp h).2]
      simp [Nat.ne_of_lt hab]

theorem dedupSeq_eq_self {l : List FoundEntry} (h : l.Pairwise fun a b => a.seq < b.seq) :
    dedupSeq l = l := by
  induction l with
  | nil => rfl
  | cons a l ih =>
    rw [dedupSeq, ih (List.pairwise_cons.mp h).2]
    cases l with
    | nil => rfl
    | cons b l =>
      have hab : a.seq < b.seq := (List.pairwise_cons.mp h).1 b (List.mem_cons_self ..)
      simp [Nat.ne_of_lt hab]

/-- Entries that count up to `replayEnd` from at most `expected` have no gap in the window. The
entries before `lastSeq` are skipped, so what is expected is the higher of `lastSeq` and the
first sequence. -/
theorem windowContiguous_of_consecutive {l : List FoundEntry} (lastSeq : ℕ) {replayEnd first : ℕ}
    (hchain : Consecutive FoundEntry.seq l) (hfirst : ∀ e ∈ l.head?, e.seq = first)
    (hlast : first + l.length = replayEnd + 1) (hle : lastSeq ≤ replayEnd + 1) :
    windowContiguous lastSeq replayEnd (max lastSeq first) l = true := by
  induction l generalizing first with
  | nil =>
    simp only [List.length_nil, Nat.add_zero] at hlast
    simp only [windowContiguous, decide_eq_true_eq]
    omega
  | cons e l ih =>
    have he : e.seq = first := hfirst e rfl
    simp only [List.length_cons] at hlast
    have hnext : ∀ x ∈ l.head?, x.seq = first + 1 := by
      intro x hx
      have := (List.isChain_cons.mp hchain).1 x hx
      omega
    have hrec := ih hchain.tail hnext (by omega)
    rw [windowContiguous]
    split_ifs with hskip hne
    · have : max lastSeq first = max lastSeq (first + 1) := by omega
      rwa [this]
    · omega
    · have : max lastSeq first + 1 = max lastSeq (first + 1) := by omega
      rwa [this]

/-! ### The read -/

namespace Readable

variable {g} {img : Image UInt64} {bk : ℕ → List Jset} {cur : ℕ}

theorem pairwise_lt (h : Readable g img bk cur) :
    (ringEntries g cur bk).Pairwise fun a b => a.seq < b.seq := by
  have hlt := h.chain.pairwise_lt
  have hmap : ((ringLog g.nr cur bk).map Jset.seq).Pairwise (· < ·) := List.pairwise_map.mpr hlt
  rw [← ringEntries_map_seq] at hmap
  exact List.pairwise_map.mp hmap

theorem scanBuckets (h : Readable g img bk cur) :
    scanBuckets g img (List.range g.nr) =
      .ok ((List.range g.nr).flatMap fun i => foundEntries g i 0 (bk i),
        (List.range g.nr).map fun i => lastSeqOf 0 (bk i)) := by
  apply scanBuckets_eq
  intro i hi
  have hi' : i < g.nr := List.mem_range.mp hi
  apply h.layout.scanBucketOf hi' (h.sound i hi')
  have hlog := (List.pairwise_flatMap.mp h.chain.pairwise_lt).1 i (Ring.mem_order.mpr hi')
  exact hlog.imp le_of_lt

/-- Sorting what the scan found gives the log. -/
theorem mergeSort_found :
    Readable g img bk cur →
    (((List.range g.nr).flatMap fun i => foundEntries g i 0 (bk i)).mergeSort fun a b =>
      a.seq ≤ b.seq) = ringEntries g cur bk := by
  intro h
  apply mergeSort_eq_of_perm _ h.pairwise_lt
  exact (Ring.order_perm.symm).flatMap_right _

/-- The newest entry is the newest record, at the end of the used sectors of its bucket. -/
theorem getLast?_ringEntries (h : Readable g img bk cur) :
    (ringEntries g cur bk).getLast? = (bk cur).getLast?.map fun r =>
      ⟨r.seq, cur, usedSectors g (bk cur), readRecord g r⟩ := by
  have hfound := foundEntries_getLast? g cur 0 (bk cur)
  rw [Nat.zero_mul, Nat.zero_add] at hfound
  cases hlast : (bk cur).getLast? with
  | none =>
    -- the log is empty, and so are the entries
    have hlog : ringLog g.nr cur bk = [] := by
      rw [← List.getLast?_eq_none_iff, h.newest, hlast]
    have hmap := ringEntries_map_seq g cur bk
    rw [hlog, List.map_nil, List.map_eq_nil_iff] at hmap
    rw [hmap]
    rfl
  | some nw =>
    rw [hlast] at hfound
    rw [ringEntries, Ring.order_eq_concat h.cur_lt, List.flatMap_append, List.flatMap_singleton,
      List.getLast?_append, hfound]
    rfl

end Readable

/-! ### The window of the newest record -/

/-- The records of the window of the newest record `nw`. -/
def windowRecords (log : List Jset) (nw : Jset) : List Jset :=
  log.filter fun r => nw.lastSeq ≤ r.seq

namespace Readable

variable {g} {img : Image UInt64} {bk : ℕ → List Jset} {cur : ℕ}

theorem chain_entries (h : Readable g img bk cur) :
    Consecutive FoundEntry.seq (ringEntries g cur bk) := by
  have hmap : Consecutive id ((ringEntries g cur bk).map FoundEntry.seq) := by
    rw [ringEntries_map_seq]
    exact Consecutive.map h.chain
  exact (List.isChain_map _).mp hmap

/-- The sequence of every record of the log is at most that of the newest. -/
theorem seq_le_newest (h : Readable g img bk cur) {nw : Jset} (hnw : (bk cur).getLast? = some nw) :
    ∀ r ∈ ringLog g.nr cur bk, r.seq ≤ nw.seq := by
  intro r hr
  obtain ⟨init, hinit⟩ := List.getLast?_eq_some_iff.mp (h.newest.trans hnw)
  have hlt := h.chain.pairwise_lt
  rw [hinit] at hr hlt
  rcases List.mem_append.mp hr with hr | hr
  · exact le_of_lt ((List.pairwise_append.mp hlt).2.2 r hr nw (List.mem_singleton_self _))
  · rw [List.mem_singleton.mp hr]

/-- `last_seq`, `replay_end` and `clean` are those of the newest record. -/
theorem flushWindow (h : Readable g img bk cur) {nw : Jset} (hnw : (bk cur).getLast? = some nw) :
    flushWindow (ringEntries g cur bk) =
      (nw.lastSeq, nw.seq, readClean (readRecord g nw) nw.seq nw.lastSeq) := by
  have hlast := h.getLast?_ringEntries
  rw [hnw, Option.map_some] at hlast
  have hflags : (!(readRecord g nw).noFlush) = true := by
    have : (readRecord g nw).noFlush = bchCsumXxhash.testBit 5 := rfl
    rw [this]
    decide
  have hsound : nw.Sound := h.sound cur h.cur_lt nw (List.mem_of_getLast? hnw)
  have hmin : min nw.lastSeq nw.seq = nw.lastSeq := min_eq_left hsound.lastSeq_le
  have hfind := find?_reverse_of_getLast? (p := fun e : FoundEntry => !e.record.noFlush) hlast hflags
  have hrec : (readRecord g nw).lastSeq = nw.lastSeq := rfl
  simp only [Subvol.flushWindow, hfind, hrec, hmin]

/-- The window of the newest record has no gap. -/
theorem windowContiguous (h : Readable g img bk cur) {nw : Jset}
    (hnw : (bk cur).getLast? = some nw) :
    windowContiguous nw.lastSeq nw.seq nw.lastSeq (ringEntries g cur bk) = true := by
  have hlast := h.getLast?_ringEntries
  rw [hnw, Option.map_some] at hlast
  have hsound : nw.Sound := h.sound cur h.cur_lt nw (List.mem_of_getLast? hnw)
  -- the first entry is not behind `last_seq`
  obtain ⟨first, hfirst⟩ : ∃ e, (ringEntries g cur bk).head? = some e := by
    cases hhead : (ringEntries g cur bk).head? with
    | none =>
      rw [List.head?_eq_none_iff] at hhead
      rw [hhead] at hlast
      cases hlast
    | some e => exact ⟨e, rfl⟩
  have hlen := h.chain_entries.head_add_length hfirst hlast
  have hle : first.seq ≤ nw.lastSeq := by
    obtain ⟨r, hr, hrle⟩ := h.reaches nw hnw
    have hmem : r.seq ∈ (ringEntries g cur bk).map FoundEntry.seq := by
      rw [ringEntries_map_seq]
      exact List.mem_map_of_mem hr
    obtain ⟨e, he, heq⟩ := List.mem_map.mp hmem
    obtain ⟨tail, htail⟩ : ∃ t, ringEntries g cur bk = first :: t := by
      cases hl : ringEntries g cur bk with
      | nil =>
        rw [hl] at hfirst
        cases hfirst
      | cons a t =>
        rw [hl] at hfirst
        cases hfirst
        exact ⟨t, rfl⟩
    have hlt := h.pairwise_lt
    rw [htail] at he hlt
    rcases List.mem_cons.mp he with rfl | he
    · omega
    · have := (List.pairwise_cons.mp hlt).1 e he
      omega
  have hhead : ∀ e ∈ (ringEntries g cur bk).head?, e.seq = first.seq := by
    intro e he
    rw [hfirst] at he
    cases he
    rfl
  have hwin := windowContiguous_of_consecutive nw.lastSeq h.chain_entries hhead hlen
    (hsound.lastSeq_le.trans (Nat.le_succ _))
  rwa [max_eq_left hle] at hwin

/-- The entries of the window are the records of the window. -/
theorem window_records (h : Readable g img bk cur) {nw : Jset}
    (hnw : (bk cur).getLast? = some nw) :
    ((ringEntries g cur bk).filter fun e => nw.lastSeq ≤ e.seq ∧ e.seq ≤ nw.seq).map
        FoundEntry.record = (windowRecords (ringLog g.nr cur bk) nw).map (readRecord g) := by
  have hseq : ∀ e ∈ ringEntries g cur bk, e.seq = e.record.seq := by
    intro e he
    obtain ⟨i, -, he⟩ := List.mem_flatMap.mp he
    exact foundEntries_seq_eq g e he
  have hle := h.seq_le_newest hnw
  calc ((ringEntries g cur bk).filter fun e => nw.lastSeq ≤ e.seq ∧ e.seq ≤ nw.seq).map
        FoundEntry.record
      = ((ringEntries g cur bk).filter ((fun r : Jset =>
          decide (nw.lastSeq ≤ r.seq ∧ r.seq ≤ nw.seq)) ∘ FoundEntry.record)).map
          FoundEntry.record := by
        congr 1
        apply List.filter_congr
        intro e he
        simp only [Function.comp_apply, hseq e he]
    _ = ((ringEntries g cur bk).map FoundEntry.record).filter fun r =>
          decide (nw.lastSeq ≤ r.seq ∧ r.seq ≤ nw.seq) := by rw [List.filter_map]
    _ = (windowRecords (ringLog g.nr cur bk) nw).map (readRecord g) := by
        rw [ringEntries_map_record, List.filter_map, windowRecords]
        congr 1
        apply List.filter_congr
        intro r hr
        have hrec : (readRecord g r).seq = r.seq := rfl
        simp only [Function.comp_apply, hrec, hle r hr, and_true]

/-- A read of an empty journal succeeds, with nothing to replay and the first bucket current. -/
theorem bch2JournalRead_nil (h : Readable g img bk cur) (hnil : (bk cur).getLast? = none)
    (j : Journal) :
    bch2JournalRead g img j = .ok (readInstall g j []
      (readDevice g ((List.range g.nr).map fun i => lastSeqOf 0 (bk i)) none 1) 1 1,
      { curSeq := 1 }) := by
  have hlast := h.getLast?_ringEntries
  rw [hnil, Option.map_none, List.getLast?_eq_none_iff] at hlast
  have hsort := h.mergeSort_found
  rw [hlast] at hsort
  simp only [bch2JournalRead, h.scanBuckets, hsort]
  rfl

/-- A read of a journal with records returns the window of the newest one and goes on behind
it. -/
theorem bch2JournalRead_cons (h : Readable g img bk cur) {nw : Jset}
    (hnw : (bk cur).getLast? = some nw) (hpos : 0 < nw.lastSeq) (j : Journal) :
    bch2JournalRead g img j = .ok (readInstall g j
        ((windowRecords (ringLog g.nr cur bk) nw).map (readRecord g))
        (readDevice g ((List.range g.nr).map fun i => lastSeqOf 0 (bk i))
          (some ⟨nw.seq, cur, usedSectors g (bk cur), readRecord g nw⟩) nw.lastSeq)
        nw.lastSeq (nw.seq + 1),
      ⟨nw.lastSeq, nw.seq, nw.seq + 1, readClean (readRecord g nw) nw.seq nw.lastSeq⟩) := by
  have hlast := h.getLast?_ringEntries
  rw [hnw, Option.map_some] at hlast
  have hne : nw.lastSeq ≠ 0 := Nat.ne_of_gt hpos
  simp only [bch2JournalRead, h.scanBuckets, h.mergeSort_found]
  simp only [readSorted, dupMismatch_eq_false h.pairwise_lt,
    Bool.false_eq_true, if_false, dedupSeq_eq_self h.pairwise_lt, hlast, Option.map_some,
    Option.getD_some, h.flushWindow hnw, h.windowContiguous hnw, Bool.true_eq_false, and_false,
    hne, ne_eq, not_false_eq_true, if_true, h.window_records hnw]

end Readable

end Subvol

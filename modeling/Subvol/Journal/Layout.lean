import Mathlib.Algebra.BigOperators.Group.List.Basic
import Mathlib.Algebra.Order.Group.Nat
import Mathlib.Data.List.GetD
import Mathlib.Tactic.Ring
import Subvol.Journal.Read

/-!
# Records in buckets

What a device image looks like when its journal buckets hold given records: each bucket is the
records one after another, padded to whole blocks, and zero behind the last one. The lemmas say
how the writes of a flush change the records, and that the scan of `bch2_journal_read` finds
exactly them.

## Main definitions

* `Jset.Sound`: the header of a flushed record agrees with its payload.
* `usedSectors`, `bucketWords`, `paddedBucket`: the words of a bucket.
* `Layout`: the image holds given records in every bucket.
* `readRecord`, `foundEntries`: what the scan returns for a record and for a bucket.

## Main results

* `Layout.append`, `Layout.zero`, `Layout.outside`: the effect of the three kinds of writes.
* `scanBucket_paddedBucket`: the scan of a bucket returns its records.
-/

namespace Subvol

open Lib

variable (g : JournalGeometry)

/-! ### Sizes -/

namespace JournalGeometry

theorem nr_pos : 0 < g.nr := List.length_pos_of_ne_nil g.buckets_ne

theorem blockSectors_pos : 0 < g.blockSectors := lt_of_lt_of_le Nat.one_pos (le_max_right _ _)

theorem blockU64s_pos : 0 < g.blockU64s := Nat.mul_pos g.blockSectors_pos (by decide)

theorem le_writeU64s (n : ℕ) : n ≤ g.writeU64s n := by
  have hpos := g.blockU64s_pos
  have hdiv := Nat.div_add_mod (n + g.blockU64s - 1) g.blockU64s
  have hmod := Nat.mod_lt (n + g.blockU64s - 1) hpos
  have hcomm : g.writeU64s n = g.blockU64s * ((n + g.blockU64s - 1) / g.blockU64s) := by
    rw [writeU64s, Nat.mul_comm]
  omega

theorem writeU64s_eq (n : ℕ) : g.writeU64s n = g.writeSectors n * sectorU64s := by
  have hdvd : sectorU64s ∣ g.writeU64s n :=
    Dvd.dvd.mul_left (Dvd.intro_left g.blockSectors rfl) _
  exact (Nat.div_mul_cancel hdvd).symm

/-- A record that fits a bucket has a length the header can hold. -/
theorem lt_of_writeSectors_le {n : ℕ} (h : g.writeSectors n ≤ g.bucketSize) : n < 2 ^ 32 := by
  have h₁ := g.le_writeU64s n
  rw [g.writeU64s_eq] at h₁
  have h₂ : g.writeSectors n * sectorU64s ≤ g.bucketSize * sectorU64s := Nat.mul_le_mul_right _ h
  have h₃ := g.bucketSize_lt
  simp only [sectorU64s] at h₁ h₂
  omega

theorem diskMagic_ne_zero : g.diskMagic ≠ 0 := by
  intro h
  apply g.uuidLo_ne
  have : g.uuidLo ^^^ jsetMagic ^^^ jsetMagic = 0 ^^^ jsetMagic := congrArg (· ^^^ jsetMagic) h
  simpa [UInt64.xor_assoc] using this

/-- Different journal buckets lie in different places. -/
theorem bucketStart_disjoint {i k : ℕ} (hi : i < g.nr) (hk : k < g.nr) (hne : i ≠ k) :
    g.bucketStart i + g.bucketU64s ≤ g.bucketStart k ∨
      g.bucketStart k + g.bucketU64s ≤ g.bucketStart i := by
  have hb : g.buckets.getD i 0 ≠ g.buckets.getD k 0 := by
    rw [List.getD_eq_getElem _ _ hi, List.getD_eq_getElem _ _ hk]
    exact fun heq => hne ((List.Nodup.getElem_inj_iff g.buckets_nodup).mp heq)
  unfold bucketStart
  rcases Nat.lt_or_gt_of_ne hb with hlt | hlt
  · left
    calc g.buckets.getD i 0 * g.bucketU64s + g.bucketU64s
        = (g.buckets.getD i 0 + 1) * g.bucketU64s := by ring
      _ ≤ g.buckets.getD k 0 * g.bucketU64s := Nat.mul_le_mul_right _ hlt
  · right
    calc g.buckets.getD k 0 * g.bucketU64s + g.bucketU64s
        = (g.buckets.getD k 0 + 1) * g.bucketU64s := by ring
      _ ≤ g.buckets.getD i 0 * g.bucketU64s := Nat.mul_le_mul_right _ hlt

/-- Every journal bucket lies inside the device file. -/
theorem bucketStart_inside {i : ℕ} (hi : i < g.nr) :
    g.bucketStart i + g.bucketU64s ≤ g.fileSectors * sectorU64s := by
  have hmem : g.buckets.getD i 0 ∈ g.buckets := by
    rw [List.getD_eq_getElem _ _ hi]
    exact List.getElem_mem hi
  calc g.bucketStart i + g.bucketU64s
      = (g.buckets.getD i 0 + 1) * g.bucketSize * sectorU64s := by
        unfold bucketStart bucketU64s
        ring
    _ ≤ g.fileSectors * sectorU64s := Nat.mul_le_mul_right _ (g.buckets_inside _ hmem)

end JournalGeometry

/-! ### Records -/

/-- The header of a flushed record agrees with its payload and with the bounds of the reader. -/
structure Jset.Sound (r : Jset) : Prop where
  u64s_eq : r.u64s = r.payload.length
  length_lt : r.words.length < 2 ^ 32
  seq_pos : 0 < r.seq
  seq_le : r.seq ≤ journalSeqMax
  lastSeq_le : r.lastSeq ≤ r.seq

theorem length_words (r : Jset) : r.words.length = jsetHeaderU64s + r.payload.length := by
  simp [Jset.words, Jset.header, jsetHeaderU64s]
  omega

@[simp] theorem diskRecord_payload (r : Jset) : (diskRecord g r).payload = r.payload := rfl

@[simp] theorem diskRecord_seq (r : Jset) : (diskRecord g r).seq = r.seq := rfl

@[simp] theorem diskRecord_lastSeq (r : Jset) : (diskRecord g r).lastSeq = r.lastSeq := rfl

@[simp] theorem diskRecord_u64s (r : Jset) : (diskRecord g r).u64s = r.u64s := rfl

@[simp] theorem diskRecord_header (r : Jset) : (diskRecord g r).header = diskHeader g r := rfl

theorem diskRecord_csum (r : Jset) :
    (diskRecord g r).csum = bch2Checksum (diskHeader g r ++ r.payload) := rfl

theorem length_words_diskRecord (r : Jset) : (diskRecord g r).words.length = r.words.length := by
  rw [length_words, length_words, diskRecord_payload]

theorem length_diskWords (r : Jset) : (diskWords g r).length = g.writeU64s r.words.length := by
  have := g.le_writeU64s r.words.length
  simp only [diskWords, List.length_append, length_words_diskRecord, List.length_replicate]
  omega

/-- The sectors that records take. -/
def usedSectors (rs : List Jset) : ℕ := (rs.map fun r => g.writeSectors r.words.length).sum

/-- The words of records stored one after another. -/
def bucketWords (rs : List Jset) : List UInt64 := rs.flatMap (diskWords g)

/-- The words of a bucket that holds the given records and nothing else. -/
def paddedBucket (rs : List Jset) : List UInt64 :=
  bucketWords g rs ++ List.replicate (g.bucketU64s - usedSectors g rs * sectorU64s) 0

@[simp] theorem usedSectors_nil : usedSectors g [] = 0 := rfl

theorem usedSectors_append (rs rs' : List Jset) :
    usedSectors g (rs ++ rs') = usedSectors g rs + usedSectors g rs' := by
  simp [usedSectors]

theorem usedSectors_singleton (r : Jset) :
    usedSectors g [r] = g.writeSectors r.words.length := by
  simp [usedSectors]

theorem length_bucketWords (rs : List Jset) :
    (bucketWords g rs).length = usedSectors g rs * sectorU64s := by
  induction rs with
  | nil => simp [bucketWords]
  | cons r rs ih =>
    have hcons : bucketWords g (r :: rs) = diskWords g r ++ bucketWords g rs := rfl
    have hused : usedSectors g (r :: rs) = g.writeSectors r.words.length + usedSectors g rs := rfl
    rw [hcons, List.length_append, ih, length_diskWords, hused, Nat.add_mul, g.writeU64s_eq]

theorem bucketWords_append (rs rs' : List Jset) :
    bucketWords g (rs ++ rs') = bucketWords g rs ++ bucketWords g rs' :=
  List.flatMap_append

/-! ### Images -/

/-- The image holds the records `bk i` in journal bucket `i`, for every `i`. -/
structure Layout (img : Image UInt64) (bk : ℕ → List Jset) : Prop where
  words : ∀ i < g.nr, img.readAt (g.bucketStart i) g.bucketU64s = paddedBucket g (bk i)
  fits : ∀ i < g.nr, usedSectors g (bk i) ≤ g.bucketSize

/-- A freshly formatted journal: every journal bucket is zero. -/
def Formatted (img : Image UInt64) : Prop :=
  ∀ i < g.nr, img.readAt (g.bucketStart i) g.bucketU64s = List.replicate g.bucketU64s 0

theorem Formatted.layout {img : Image UInt64} (h : Formatted g img) :
    Layout g img fun _ => [] where
  words i hi := by
    rw [h i hi]
    simp [paddedBucket, bucketWords]
  fits i hi := by simp

namespace Layout

variable {g} {img : Image UInt64} {bk : ℕ → List Jset}

/-- A write that stays inside bucket `c` and leaves it in the form of a bucket of records. -/
private theorem update {c off : ℕ} {ws : List UInt64} {rs : List Jset} (h : Layout g img bk)
    (hc : c < g.nr) (hin : off + ws.length ≤ g.bucketU64s)
    (hwords : (img.writeAt (g.bucketStart c + off) ws).readAt (g.bucketStart c) g.bucketU64s =
      paddedBucket g rs) (hfits : usedSectors g rs ≤ g.bucketSize) :
    Layout g (img.writeAt (g.bucketStart c + off) ws) (Function.update bk c rs) where
  words i hi := by
    by_cases hic : i = c
    · subst hic
      rw [Function.update_self]
      exact hwords
    · rw [Function.update_of_ne hic, ← h.words i hi]
      apply Image.readAt_writeAt_disjoint
      rcases g.bucketStart_disjoint hi hc hic with hd | hd <;> omega
  fits i hi := by
    by_cases hic : i = c
    · subst hic
      rw [Function.update_self]
      exact hfits
    · rw [Function.update_of_ne hic]
      exact h.fits i hi

/-- Zeroing a bucket removes its records. -/
theorem zero (h : Layout g img bk) {c : ℕ} (hc : c < g.nr) :
    Layout g (img.writeAt (g.bucketStart c) (List.replicate g.bucketU64s 0))
      (Function.update bk c []) := by
  have hlen : (List.replicate g.bucketU64s (0 : UInt64)).length = g.bucketU64s := by simp
  have hwords : (img.writeAt (g.bucketStart c + 0) (List.replicate g.bucketU64s 0)).readAt
      (g.bucketStart c) g.bucketU64s = paddedBucket g [] := by
    rw [Image.readAt_writeAt_inside _ _ (by rw [hlen, Nat.zero_add])]
    simp [paddedBucket, bucketWords]
  exact h.update hc (by simp) hwords (by simp)

/-- The words of a bucket once `ws` is stored behind its records. -/
theorem readAt_behind (h : Layout g img bk) {c : ℕ} (hc : c < g.nr) (ws : List UInt64)
    (hfit : usedSectors g (bk c) * sectorU64s + ws.length ≤ g.bucketU64s) :
    (img.writeAt (g.bucketStart c + usedSectors g (bk c) * sectorU64s) ws).readAt
        (g.bucketStart c) g.bucketU64s =
      bucketWords g (bk c) ++ ws ++ List.replicate
        (g.bucketU64s - (usedSectors g (bk c) * sectorU64s + ws.length)) 0 := by
  rw [Image.readAt_writeAt_inside _ _ hfit, h.words c hc, paddedBucket]
  have hlen := length_bucketWords g (bk c)
  congr 1
  · rw [← hlen, List.take_left]
  · rw [← hlen, List.drop_length_add_append, List.drop_replicate, hlen]
    congr 1
    omega

/-- Writing a record behind the records of a bucket adds it to them. -/
theorem append (h : Layout g img bk) {c : ℕ} {r : Jset} (hc : c < g.nr)
    (hfit : usedSectors g (bk c) + g.writeSectors r.words.length ≤ g.bucketSize) :
    Layout g (img.writeAt (g.bucketStart c + usedSectors g (bk c) * sectorU64s) (diskWords g r))
      (Function.update bk c (bk c ++ [r])) := by
  have hused : usedSectors g (bk c ++ [r]) =
      usedSectors g (bk c) + g.writeSectors r.words.length := by
    rw [usedSectors_append, usedSectors_singleton]
  have hsum : usedSectors g (bk c) * sectorU64s + (diskWords g r).length =
      usedSectors g (bk c ++ [r]) * sectorU64s := by
    rw [hused, Nat.add_mul, length_diskWords, g.writeU64s_eq]
  have hle : usedSectors g (bk c ++ [r]) * sectorU64s ≤ g.bucketU64s :=
    Nat.mul_le_mul_right _ (hused ▸ hfit)
  apply h.update hc (by omega) _ (hused ▸ hfit)
  rw [h.readAt_behind hc _ (by omega), hsum, paddedBucket, bucketWords_append]
  congr 2
  simp [bucketWords]

/-- A write outside the journal buckets leaves the records alone. -/
theorem outside (h : Layout g img bk) {off : ℕ} {ws : List UInt64}
    (hout : ∀ i < g.nr, off + ws.length ≤ g.bucketStart i ∨ g.bucketStart i + g.bucketU64s ≤ off) :
    Layout g (img.writeAt off ws) bk where
  words i hi := by
    rw [← h.words i hi]
    apply Image.readAt_writeAt_disjoint
    exact hout i hi
  fits := h.fits

end Layout

/-- Journal bucket `i` of the device holds the record `r` from sector `s` on, word for word. -/
def StoredAt (img : Image UInt64) (i s : ℕ) (r : Jset) : Prop :=
  s + g.writeSectors r.words.length ≤ g.bucketSize ∧
    img.readAt (g.bucketStart i + s * sectorU64s) (g.writeU64s r.words.length) = diskWords g r

/-- The device holds the record `r` in some journal bucket. -/
def OnDevice (img : Image UInt64) (r : Jset) : Prop := ∃ i < g.nr, ∃ s, StoredAt g img i s r

section Stored

variable {g} {img : Image UInt64} {bk : ℕ → List Jset}

/-- Where a record of a bucket is stored: the records before it come first. -/
theorem Layout.storedAt (h : Layout g img bk) {i : ℕ} (hi : i < g.nr) {pre post : List Jset}
    {r : Jset} (hsplit : bk i = pre ++ r :: post) : StoredAt g img i (usedSectors g pre) r := by
  have hused : usedSectors g (bk i) = usedSectors g pre +
      (g.writeSectors r.words.length + usedSectors g post) := by
    rw [hsplit, ← List.singleton_append, usedSectors_append, usedSectors_append,
      usedSectors_singleton]
  have hfits := h.fits i hi
  refine ⟨by omega, ?_⟩
  have hin : usedSectors g pre * sectorU64s + g.writeU64s r.words.length ≤ g.bucketU64s := by
    rw [g.writeU64s_eq, ← Nat.add_mul]
    exact Nat.mul_le_mul_right _ (by omega)
  have hwords : paddedBucket g (bk i) = bucketWords g pre ++ (diskWords g r ++
      (bucketWords g post ++
        List.replicate (g.bucketU64s - usedSectors g (bk i) * sectorU64s) 0)) := by
    rw [paddedBucket, hsplit, ← List.singleton_append, bucketWords_append, bucketWords_append]
    simp [bucketWords]
  rw [Image.readAt_inside _ hin, h.words i hi, hwords, ← length_bucketWords, List.drop_left,
    ← length_diskWords, List.take_left]

theorem Layout.onDevice (h : Layout g img bk) {i : ℕ} (hi : i < g.nr) {r : Jset}
    (hr : r ∈ bk i) : OnDevice g img r := by
  obtain ⟨pre, post, hsplit⟩ := List.append_of_mem hr
  exact ⟨i, hi, _, h.storedAt hi hsplit⟩

/-- A write elsewhere leaves a stored record alone. -/
theorem StoredAt.writeAt {i s off : ℕ} {r : Jset} {ws : List UInt64} (h : StoredAt g img i s r)
    (hout : off + ws.length ≤ g.bucketStart i + s * sectorU64s ∨
      g.bucketStart i + (s + g.writeSectors r.words.length) * sectorU64s ≤ off) :
    StoredAt g (img.writeAt off ws) i s r := by
  refine ⟨h.1, ?_⟩
  rw [← h.2]
  apply Image.readAt_writeAt_disjoint
  rw [g.writeU64s_eq]
  rw [Nat.add_mul] at hout
  omega

end Stored

/-! ### The scan -/

/-- What the reader makes of a record: the record on the device with the magic number of a
record in memory. -/
def readRecord (r : Jset) : Jset := { diskRecord g r with magic := jsetMagic }

/-- What the scan of a bucket returns for records that start at word `offset`. -/
def foundEntries (bucket : ℕ) : ℕ → List Jset → List FoundEntry
  | _, [] => []
  | offset, r :: rs =>
    let size := g.writeU64s r.words.length
    ⟨r.seq, bucket, (offset + size) / sectorU64s, readRecord g r⟩ ::
      foundEntries bucket (offset + size) rs

/-- The sequence of the last record, or the one before them. -/
def lastSeqOf (maxSeq : ℕ) (rs : List Jset) : ℕ := (rs.getLast?.map Jset.seq).getD maxSeq

/-- Words that start with the header of the stored record `r` and go on with `body`. -/
def headedWords (r : Jset) (body : List UInt64) : List UInt64 :=
  (diskRecord g r).csum.lo :: (diskRecord g r).csum.hi :: (diskHeader g r ++ body)

theorem length_headedWords (r : Jset) (body : List UInt64) :
    (headedWords g r body).length = jsetHeaderU64s + body.length := by
  simp [headedWords, diskHeader, jsetHeaderU64s]
  omega

/-- The blocks of a record go on behind the header with the payload and the padding. -/
theorem diskWords_append_eq (r : Jset) (tail : List UInt64) :
    diskWords g r ++ tail = headedWords g r (r.payload ++
      (List.replicate (g.writeU64s r.words.length - r.words.length) 0 ++ tail)) := by
  simp only [diskWords, headedWords, Jset.words, diskRecord_header, diskRecord_payload,
    List.cons_append, List.append_assoc]

/-- The record that the reader decodes from the header of `r` followed by `body`. -/
def headedRecord (r : Jset) (body : List UInt64) : Jset :=
  { diskRecord g r with payload := body.take r.u64s }

@[simp] theorem headedRecord_seq (r : Jset) (body : List UInt64) :
    (headedRecord g r body).seq = r.seq := rfl

@[simp] theorem headedRecord_u64s (r : Jset) (body : List UInt64) :
    (headedRecord g r body).u64s = r.u64s := rfl

@[simp] theorem headedRecord_csum (r : Jset) (body : List UInt64) :
    (headedRecord g r body).csum = (diskRecord g r).csum := rfl

/-- A header decodes to its record, with the payload that follows it. -/
theorem decodeJset_headedWords {r : Jset} (hr : r.Sound) (body : List UInt64) :
    decodeJset (headedWords g r body) = headedRecord g r body := by
  have hlen := hr.length_lt
  rw [length_words, ← hr.u64s_eq] at hlen
  have hseq : r.seq < 2 ^ 64 := lt_of_le_of_lt hr.seq_le (by decide)
  have hlast : r.lastSeq < 2 ^ 64 := lt_of_le_of_lt hr.lastSeq_le hseq
  have hmod : (UInt64.ofNat r.u64s).toNat % 2 ^ 32 = r.u64s := by
    rw [UInt64.toNat_ofNat_of_lt' (lt_trans (b := 2 ^ 32) (by omega) (by decide))]
    exact Nat.mod_eq_of_lt (by omega)
  have hversion : (UInt64.ofNat (metadataVersionCurrent + bchCsumXxhash * 2 ^ 32)).toNat % 2 ^ 32 =
      metadataVersionCurrent := by decide
  have hflags : (UInt64.ofNat (metadataVersionCurrent + bchCsumXxhash * 2 ^ 32)).toNat / 2 ^ 32 =
      bchCsumXxhash := by decide
  simp only [decodeJset, headedWords, headedRecord, diskRecord, diskHeader, jsetHeaderU64s,
    List.cons_append, List.nil_append, List.getD_cons_zero, List.getD_cons_succ,
    List.drop_succ_cons, List.drop_zero, hversion, hflags, hmod,
    UInt64.toNat_ofNat_of_lt' hseq, UInt64.toNat_ofNat_of_lt' hlast]

/-- The header of a stored record passes the checks of the reader. -/
theorem headerInvalid_headedRecord {r : Jset} (hr : r.Sound) (body : List UInt64) (room : ℕ)
    (hroom : jsetHeaderU64s + r.u64s ≤ room) :
    headerInvalid (headedRecord g r body) room = false := by
  have hflags : bchCsumXxhash % 16 = bchCsumXxhash ∧ bchCsumXxhash.testBit 4 = false := by decide
  have hpos := hr.seq_pos
  have hle := hr.seq_le
  simp only [headerInvalid, headedRecord, diskRecord, hflags.1, hflags.2, decide_eq_false_iff_not,
    ne_eq, not_true_eq_false, false_or, Bool.false_eq_true]
  omega

/-- The scan at the header of a stored record whose blocks are there: the checksum of what
follows decides whether the record is taken. -/
theorem scanBucket_headedWords {r : Jset} (hr : r.Sound) {body : List UInt64}
    {bucket fuel offset maxSeq : ℕ} (hseq : maxSeq ≤ r.seq)
    (hroom : g.writeU64s r.words.length ≤ (headedWords g r body).length) :
    scanBucket g bucket (fuel + 1) offset maxSeq (headedWords g r body) =
      if (diskRecord g r).csum ≠ bch2Checksum (diskHeader g r ++ body.take r.u64s) then
        .error (-6)
      else
        (scanBucket g bucket fuel (offset + g.writeU64s r.words.length) r.seq
          ((headedWords g r body).drop (g.writeU64s r.words.length))).bind fun p =>
            .ok (⟨r.seq, bucket, (offset + g.writeU64s r.words.length) / sectorU64s,
              { headedRecord g r body with magic := jsetMagic }⟩ :: p.1, p.2) := by
  have hwords : r.words.length = jsetHeaderU64s + r.u64s := by
    rw [length_words, hr.u64s_eq]
  have hle := g.le_writeU64s r.words.length
  have hmagic : (headedWords g r body).getD 2 0 = g.diskMagic := rfl
  have hshort : ¬((headedWords g r body).length < jsetHeaderU64s ∨
      (headedWords g r body).getD 2 0 ≠ g.diskMagic) := by
    rw [hmagic]
    simp only [ne_eq, not_true_eq_false, or_false, not_lt]
    omega
  have hvalid := headerInvalid_headedRecord g hr body (headedWords g r body).length (by omega)
  have hcover : ((headedWords g r body).drop 2).take (5 + r.u64s) =
      diskHeader g r ++ body.take r.u64s := by
    have hlen : (diskHeader g r).length = 5 := rfl
    rw [headedWords, List.drop_succ_cons, List.drop_succ_cons, List.drop_zero, ← hlen,
      List.take_length_add_append]
  rw [scanBucket, if_neg hshort]
  simp only [decodeJset_headedWords g hr, hvalid, Bool.false_eq_true, if_false, headedRecord_seq,
    headedRecord_u64s, headedRecord_csum, ← hwords, Nat.not_lt.mpr hseq, Nat.not_lt.mpr hroom,
    hcover]
  rfl

/-- The scan takes a record that is stored whole and goes on behind it. -/
theorem scanBucket_diskWords {r : Jset} (hr : r.Sound) {tail : List UInt64}
    {bucket fuel offset maxSeq : ℕ} (hseq : maxSeq ≤ r.seq) :
    scanBucket g bucket (fuel + 1) offset maxSeq (diskWords g r ++ tail) =
      (scanBucket g bucket fuel (offset + g.writeU64s r.words.length) r.seq tail).bind fun p =>
        .ok (⟨r.seq, bucket, (offset + g.writeU64s r.words.length) / sectorU64s,
          readRecord g r⟩ :: p.1, p.2) := by
  have hroom : g.writeU64s r.words.length ≤ (diskWords g r ++ tail).length := by
    rw [List.length_append, length_diskWords]
    omega
  have htake : (r.payload ++ (List.replicate (g.writeU64s r.words.length - r.words.length) 0 ++
      tail)).take r.u64s = r.payload := by
    rw [hr.u64s_eq, List.take_left]
  have hdrop : (diskWords g r ++ tail).drop (g.writeU64s r.words.length) = tail := by
    rw [← length_diskWords, List.drop_left]
  rw [diskWords_append_eq] at hroom hdrop ⊢
  rw [scanBucket_headedWords g hr hseq hroom, htake, hdrop, if_neg (not_not.mpr (diskRecord_csum g r))]
  simp only [headedRecord, readRecord, htake, diskRecord_payload]

/-- The scan ends at zeros. -/
theorem scanBucket_zeros (bucket fuel offset maxSeq n : ℕ) :
    scanBucket g bucket fuel offset maxSeq (List.replicate n 0) = .ok ([], maxSeq) := by
  cases fuel with
  | zero => rfl
  | succ fuel =>
    rw [scanBucket, if_pos]
    have hzero : (List.replicate n (0 : UInt64)).getD 2 0 = 0 := by
      rw [List.getD_eq_getElem?_getD, List.getElem?_replicate]
      split_ifs <;> rfl
    rw [hzero]
    exact Or.inr g.diskMagic_ne_zero.symm

theorem lastSeqOf_cons (maxSeq : ℕ) (r : Jset) (rs : List Jset) :
    lastSeqOf r.seq rs = lastSeqOf maxSeq (r :: rs) := by
  cases hrs : rs.getLast? with
  | none =>
    rw [List.getLast?_eq_none_iff] at hrs
    subst hrs
    rfl
  | some x => simp [lastSeqOf, List.getLast?_cons, hrs]

/-- The scan of a bucket of records in order of their sequences returns them all. -/
theorem scanBucket_bucketWords {rs : List Jset} (hsound : ∀ r ∈ rs, r.Sound)
    (hsorted : rs.Pairwise fun a b => a.seq ≤ b.seq) {bucket fuel offset maxSeq n : ℕ}
    (hmax : ∀ r ∈ rs, maxSeq ≤ r.seq) (hfuel : rs.length ≤ fuel) :
    scanBucket g bucket fuel offset maxSeq (bucketWords g rs ++ List.replicate n 0) =
      .ok (foundEntries g bucket offset rs, lastSeqOf maxSeq rs) := by
  induction rs generalizing fuel offset maxSeq with
  | nil => exact scanBucket_zeros g bucket fuel offset maxSeq n
  | cons r rs ih =>
    obtain ⟨fuel, rfl⟩ : ∃ m, fuel = m + 1 := ⟨fuel - 1, by simp at hfuel; omega⟩
    have hcons : bucketWords g (r :: rs) ++ List.replicate n 0 =
        diskWords g r ++ (bucketWords g rs ++ List.replicate n 0) := by
      simp [bucketWords]
    obtain ⟨hle, hrest⟩ := List.pairwise_cons.mp hsorted
    rw [hcons, scanBucket_diskWords g (hsound r (List.mem_cons_self ..))
      (hmax r (List.mem_cons_self ..))]
    simp only [ih (fun x hx => hsound x (List.mem_cons_of_mem _ hx)) hrest hle
      (by simpa using hfuel), lastSeqOf_cons maxSeq]
    rfl

theorem length_le_usedSectors (rs : List Jset) : rs.length ≤ usedSectors g rs := by
  induction rs with
  | nil => exact le_rfl
  | cons r rs ih =>
    have hpos : 0 < g.writeSectors r.words.length := by
      have h₁ := g.le_writeU64s r.words.length
      rw [length_words, g.writeU64s_eq] at h₁
      rcases Nat.eq_zero_or_pos (g.writeSectors (jsetHeaderU64s + r.payload.length)) with h | h
      · rw [h] at h₁
        simp [jsetHeaderU64s] at h₁
      · rwa [length_words]
    have hused : usedSectors g (r :: rs) = g.writeSectors r.words.length + usedSectors g rs := rfl
    rw [List.length_cons, hused]
    omega

/-- The scan of a journal bucket of an image returns its records. -/
theorem Layout.scanBucketOf {g : JournalGeometry} {img : Image UInt64} {bk : ℕ → List Jset}
    (h : Layout g img bk) {i : ℕ} (hi : i < g.nr) (hsound : ∀ r ∈ bk i, r.Sound)
    (hsorted : (bk i).Pairwise fun a b => a.seq ≤ b.seq) :
    scanBucketOf g img i = .ok (foundEntries g i 0 (bk i), lastSeqOf 0 (bk i)) := by
  have hfuel : (bk i).length ≤ g.bucketU64s :=
    calc (bk i).length ≤ usedSectors g (bk i) := length_le_usedSectors g _
      _ ≤ g.bucketSize := h.fits i hi
      _ ≤ g.bucketU64s := Nat.le_mul_of_pos_right _ (by decide)
  rw [Subvol.scanBucketOf, if_neg (Nat.not_lt.mpr (g.bucketStart_inside hi)), h.words i hi]
  exact scanBucket_bucketWords g hsound hsorted (fun _ _ => Nat.zero_le _) hfuel

end Subvol

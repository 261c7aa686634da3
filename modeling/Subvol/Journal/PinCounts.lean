import Mathlib.Data.Set.Card
import Subvol.Journal.Run

/-!
# The counts of the pin fifo

The count of a sequence in the pin fifo stands for the pins at that sequence, for the open entry and
for a replay that has not come to it. The functions change the count, the lists and the pins' own
sequence one by one, with callbacks in between; `Journal.Counted` says that they agree, and every
step of a run keeps it.

## Main definitions

* `JournalEntryPinList.Counts`, `JournalPinFifo.Counts`, `Journal.Counted`.
* `Journal.Initial`: a journal before its first pin.
* `PinRun`: the runs of a journal, on a device or without one.

## Main results

* `JournalPinFifo.Counts.release`, `JournalPinFifo.Counts.hold`, `JournalPinFifo.Counts.rotate`: the
  parts of the operations.
* `PinRunStep.counted`: one step of a run.
* `journal_pin_counts`: a whole run.
-/

namespace Subvol

open Lib

variable {g : JournalGeometry}

/-! ### One sequence -/

/-- The pins on the lists of a sequence, of every type, flushed or not. -/
def JournalEntryPinList.addrs (p : JournalEntryPinList) : List ℕ :=
  p.unflushed.map Prod.snd ++ p.flushed

/-- The lists of the sequence `s` hold the pins at `s`, each of them once, and the count is their
number with one more for the open entry `seq` and one for the replay. -/
structure JournalEntryPinList.Counts (pins : ℕ → ℕ) (seq s : ℕ) (p : JournalEntryPinList) :
    Prop where
  nodup : p.addrs.Nodup
  mem : ∀ a, a ∈ p.addrs ↔ pins a = s
  count : p.count = p.addrs.length + (if s = seq then 1 else 0) + p.unreplayed.toNat

theorem filter_ne_eq_erase {l : List ℕ} (h : l.Nodup) (a : ℕ) :
    (l.filter fun b => b ≠ a) = l.erase a := by
  rw [h.erase_eq_filter]
  refine List.filter_congr fun b _ => ?_
  rw [decide_not]
  rfl

namespace JournalEntryPinList

variable {pins : ℕ → ℕ} {seq s addr : ℕ} {p : JournalEntryPinList}

theorem addrs_remove (p : JournalEntryPinList) (addr : ℕ) :
    (p.remove addr).addrs = p.addrs.filter fun a => a ≠ addr := by
  rw [addrs, addrs, remove, List.filter_append, List.filter_map]
  rfl

theorem Counts.length_eq (h : p.Counts pins seq s) : {a | pins a = s}.ncard = p.addrs.length := by
  have hset : {a | pins a = s} = (p.addrs.toFinset : Set ℕ) := by
    ext a
    simp [h.mem]
  rw [hset, Set.ncard_coe_finset, List.toFinset_card_of_nodup h.nodup]

/-- The lists of a sequence do not change when a pin goes from one other sequence to another. -/
theorem Counts.of_ne (h : p.Counts pins seq s) {t : ℕ} (hold : pins addr ≠ s) (hnew : t ≠ s) :
    p.Counts (Function.update pins addr t) seq s where
  nodup := h.nodup
  mem a := by
    rw [h.mem]
    by_cases ha : a = addr
    · rw [ha, Function.update_self]
      exact iff_of_false hold hnew
    · rw [Function.update_of_ne ha]
  count := h.count

theorem Counts.remove (h : p.Counts pins seq s) (hs : 0 < s) (hpin : pins addr = s) :
    (p.remove addr).Counts (Function.update pins addr 0) seq s where
  nodup := by
    rw [addrs_remove]
    exact h.nodup.filter _
  mem a := by
    rw [addrs_remove, List.mem_filter, h.mem, decide_eq_true_iff]
    by_cases ha : a = addr
    · rw [ha, Function.update_self]
      exact iff_of_false (fun hmem => hmem.2 rfl) hs.ne
    · rw [Function.update_of_ne ha]
      exact and_iff_left ha
  count := by
    have hmem : addr ∈ p.addrs := (h.mem addr).mpr hpin
    have hpos := List.length_pos_of_mem hmem
    have hcount := h.count
    rw [addrs_remove, filter_ne_eq_erase h.nodup, List.length_erase_of_mem hmem]
    change p.count - 1 = _ + _ + p.unreplayed.toNat
    omega

/-- A sequence that a pin is at is counted. -/
theorem Counts.count_ne_zero (h : p.Counts pins seq s) (hpin : pins addr = s) : p.count ≠ 0 := by
  have := List.length_pos_of_mem ((h.mem addr).mpr hpin)
  have := h.count
  omega

theorem Counts.hold (h : p.Counts pins seq s) (hs : 0 < s) (hpin : pins addr = 0)
    (type : JournalPinType) :
    ({ p with count := p.count + 1, unflushed := p.unflushed ++ [(type, addr)] } :
      JournalEntryPinList).Counts (Function.update pins addr s) seq s := by
  have hperm : ({ p with count := p.count + 1, unflushed := p.unflushed ++ [(type, addr)] } :
      JournalEntryPinList).addrs.Perm (addr :: p.addrs) := by
    rw [addrs, addrs, List.map_append]
    exact (List.perm_append_comm.append_right _)
  have hnot : addr ∉ p.addrs := by
    rw [h.mem, hpin]
    exact hs.ne
  refine ⟨hperm.nodup_iff.mpr (List.nodup_cons.mpr ⟨hnot, h.nodup⟩), fun a => ?_, ?_⟩
  · rw [hperm.mem_iff, List.mem_cons, h.mem]
    by_cases ha : a = addr
    · rw [ha, Function.update_self]
      exact iff_of_true (.inl rfl) rfl
    · rw [Function.update_of_ne ha]
      exact or_iff_right ha
  · have hcount := h.count
    rw [hperm.length_eq, List.length_cons]
    change p.count + 1 = _ + _ + p.unreplayed.toNat
    omega

/-- A pin that is filed as flushed stays on the lists of its sequence. -/
theorem Counts.flushed (h : p.Counts pins seq s) (hpin : pins addr = s) :
    ({ p with
        unflushed := p.unflushed.filter fun q => q.2 ≠ addr
        flushed := if addr ∈ p.flushed then p.flushed else p.flushed ++ [addr] } :
      JournalEntryPinList).Counts pins seq s := by
  have hmem : addr ∈ p.addrs := (h.mem addr).mpr hpin
  have hmap : (p.unflushed.filter fun q => q.2 ≠ addr).map Prod.snd =
      (p.unflushed.map Prod.snd).filter fun a => a ≠ addr := by
    rw [List.filter_map]
    rfl
  have hperm : ({ p with
      unflushed := p.unflushed.filter fun q => q.2 ≠ addr
      flushed := if addr ∈ p.flushed then p.flushed else p.flushed ++ [addr] } :
        JournalEntryPinList).addrs.Perm p.addrs := by
    rw [addrs, addrs, hmap]
    have hnodup : (p.unflushed.map Prod.snd).Nodup := (List.nodup_append.mp h.nodup).1
    by_cases hf : addr ∈ p.flushed
    · -- a pin filed as flushed already is not on the other lists
      have hnot : addr ∉ p.unflushed.map Prod.snd := fun hu =>
        (List.nodup_append.mp h.nodup).2.2 addr hu addr hf rfl
      rw [if_pos hf, List.filter_eq_self.mpr]
      exact fun a ha => decide_eq_true (ne_of_mem_of_not_mem ha hnot)
    · have hu : addr ∈ p.unflushed.map Prod.snd := (List.mem_append.mp hmem).resolve_right hf
      rw [if_neg hf]
      rw [filter_ne_eq_erase hnodup]
      have hcons := List.perm_cons_erase hu
      refine List.Perm.trans ?_ (hcons.symm.append_right p.flushed)
      rw [← List.append_assoc]
      exact List.perm_append_singleton ..
  refine ⟨hperm.nodup_iff.mpr h.nodup, fun a => hperm.mem_iff.trans (h.mem a), ?_⟩
  rw [hperm.length_eq]
  exact h.count

end JournalEntryPinList

/-! ### The fifo -/

/-- The fifo ends with the open entry `seq`, its lists count the pins, and every active pin is at a
sequence of the fifo. -/
structure JournalPinFifo.Counts (pins : ℕ → ℕ) (seq : ℕ) (fifo : JournalPinFifo) : Prop where
  front_pos : 0 < fifo.front
  length : fifo.front + fifo.lists.length = seq + 1
  lists : ∀ (i : ℕ) (p : JournalEntryPinList), fifo.lists[i]? = some p →
    p.Counts pins seq (fifo.front + i)
  active : ∀ a, pins a ≠ 0 → fifo.front ≤ pins a ∧ pins a ≤ seq

/-- The source asserts that a pin is set to a sequence of the fifo. -/
theorem pinHold_range {fifo fifo' : JournalPinFifo} {s addr : ℕ} {type : JournalPinType}
    (h : pinHold fifo s addr type = some fifo') :
    fifo.front ≤ s ∧ s < fifo.front + fifo.lists.length := by
  rw [pinHold] at h
  split at h
  · next p hp =>
    split_ifs at h with hfront
    have hlt := (List.getElem?_eq_some_iff.mp hp).1
    exact ⟨hfront, by omega⟩
  · cases h

namespace JournalPinFifo.Counts

variable {pins : ℕ → ℕ} {seq s addr : ℕ} {fifo fifo' : JournalPinFifo}

/-- The lists of a sequence of the fifo. -/
theorem getElem? (h : fifo.Counts pins seq) (hfront : fifo.front ≤ s) (hseq : s ≤ seq) :
    ∃ p, fifo.lists[s - fifo.front]? = some p ∧ p.Counts pins seq s := by
  have hlt : s - fifo.front < fifo.lists.length := by
    have := h.length
    omega
  refine ⟨_, List.getElem?_eq_getElem hlt, ?_⟩
  have hcounts := h.lists _ _ (List.getElem?_eq_getElem hlt)
  rwa [Nat.add_sub_cancel' hfront] at hcounts

/-- One list of the fifo and the pins change together. -/
theorem set (h : fifo.Counts pins seq) {pins' : ℕ → ℕ} {p : JournalEntryPinList}
    (hfront : fifo.front ≤ s) (hp : p.Counts pins' seq s)
    (hother : ∀ t, fifo.front ≤ t → t ≠ s → ∀ q : JournalEntryPinList,
      q.Counts pins seq t → q.Counts pins' seq t)
    (hactive : ∀ a, pins' a ≠ 0 → fifo.front ≤ pins' a ∧ pins' a ≤ seq) :
    ({ fifo with lists := fifo.lists.set (s - fifo.front) p } : JournalPinFifo).Counts pins'
      seq where
  front_pos := h.front_pos
  length := by
    rw [List.length_set]
    exact h.length
  lists i q hq := by
    rw [List.getElem?_set] at hq
    by_cases hi : s - fifo.front = i
    · rw [if_pos hi] at hq
      split_ifs at hq
      cases hq
      rw [← hi, Nat.add_sub_cancel' hfront]
      exact hp
    · rw [if_neg hi] at hq
      exact hother _ (Nat.le_add_right ..) (by omega) q (h.lists i q hq)
  active := hactive

/-- A pin is released from its sequence, and the assertions hold. -/
theorem release (h : fifo.Counts pins seq) (hpin : pins addr = s) (hs : s ≠ 0) :
    ∃ fifo', pinRelease fifo s addr = some fifo' ∧
      fifo'.Counts (Function.update pins addr 0) seq := by
  obtain ⟨hfront, hseq⟩ := h.active addr (by rwa [hpin])
  rw [hpin] at hfront hseq
  obtain ⟨p, hp, hcounts⟩ := h.getElem? hfront hseq
  refine ⟨{ fifo with lists := fifo.lists.set (s - fifo.front) (p.remove addr) }, ?_, ?_⟩
  · rw [pinRelease, hp]
    dsimp only
    rw [if_pos ⟨hfront, hcounts.count_ne_zero hpin⟩]
  · refine h.set hfront (hcounts.remove (Nat.pos_of_ne_zero hs) hpin) ?_ ?_
    · intro t ht hne q hq
      have hpos := h.front_pos
      exact hq.of_ne (by rw [hpin]; exact hne.symm) (by omega)
    · intro a ha
      by_cases haddr : a = addr
      · rw [haddr, Function.update_self] at ha
        exact absurd rfl ha
      · rw [Function.update_of_ne haddr] at ha ⊢
        exact h.active a ha

/-- A pin that is not active is set to a sequence of the fifo. -/
theorem hold (h : fifo.Counts pins seq) (hpin : pins addr = 0) (type : JournalPinType)
    (hfront : fifo.front ≤ s) (hseq : s ≤ seq) :
    ∃ fifo', pinHold fifo s addr type = some fifo' ∧
      fifo'.Counts (Function.update pins addr s) seq := by
  obtain ⟨p, hp, hcounts⟩ := h.getElem? hfront hseq
  have hpos := h.front_pos
  refine ⟨_, ?_, h.set hfront (hcounts.hold (by omega) hpin type) ?_ ?_⟩
  · rw [pinHold, hp]
    dsimp only
    rw [if_pos hfront]
  · intro t ht hne q hq
    exact hq.of_ne (by omega) hne.symm
  · intro a ha
    by_cases haddr : a = addr
    · rw [haddr, Function.update_self]
      exact ⟨hfront, hseq⟩
    · rw [Function.update_of_ne haddr] at ha ⊢
      exact h.active a ha

theorem flushed (h : fifo.Counts pins seq) (hpin : pins addr = s) :
    (markFlushed fifo s addr).Counts pins seq := by
  rw [markFlushed]
  split_ifs with hfront
  · refine ⟨h.front_pos, by simpa using h.length, fun i q hq => ?_, h.active⟩
    rw [List.getElem?_modify] at hq
    obtain ⟨p, hp, rfl⟩ := Option.map_eq_some_iff.mp hq
    by_cases hi : s - fifo.front = i
    · rw [if_pos hi]
      refine (h.lists i p hp).flushed ?_
      rw [hpin]
      omega
    · rw [if_neg hi]
      exact h.lists i p hp
  · exact h

/-- A sequence at the front that nothing refers to is popped. -/
theorem tail {front : ℕ} {p : JournalEntryPinList} {rest : List JournalEntryPinList}
    (h : (⟨front, p :: rest⟩ : JournalPinFifo).Counts pins seq) (hp : p.count = 0) :
    (⟨front + 1, rest⟩ : JournalPinFifo).Counts pins seq where
  front_pos := Nat.succ_pos front
  length := by
    have := h.length
    rw [List.length_cons] at this
    change front + 1 + rest.length = seq + 1
    change front + (rest.length + 1) = seq + 1 at this
    omega
  lists i q hq := by
    have hcounts := h.lists (i + 1) q (by rwa [List.getElem?_cons_succ])
    rwa [Nat.add_comm i 1, ← Nat.add_assoc] at hcounts
  active a ha := by
    obtain ⟨hfront, hseq⟩ := h.active a ha
    refine ⟨lt_of_le_of_ne hfront fun heq => ?_, hseq⟩
    have hcounts := h.lists 0 p (List.getElem?_cons_zero ..)
    exact hcounts.count_ne_zero heq.symm hp

theorem popPins (seqOndisk : ℕ) {front : ℕ} {lists : List JournalEntryPinList}
    (h : (⟨front, lists⟩ : JournalPinFifo).Counts pins seq) :
    (popPins seqOndisk front lists).Counts pins seq := by
  induction lists generalizing front with
  | nil => exact h
  | cons p rest ih =>
    rw [Subvol.popPins]
    split_ifs with hpop
    · exact ih (h.tail hpop.2)
    · exact h

/-- The replay gives up the references it holds, and the assertion holds. -/
theorem replayed (stop : ℕ) {front : ℕ} {lists : List JournalEntryPinList}
    (h : ∀ (i : ℕ) (p : JournalEntryPinList), lists[i]? = some p → p.Counts pins seq (front + i)) :
    ∃ lists', putReplayed stop front lists = some lists' ∧
      ∀ (i : ℕ) (p : JournalEntryPinList), lists'[i]? = some p →
        p.Counts pins seq (front + i) := by
  induction lists generalizing front with
  | nil => exact ⟨[], rfl, h⟩
  | cons p rest ih =>
    have htail : ∀ (i : ℕ) (q : JournalEntryPinList), rest[i]? = some q →
        q.Counts pins seq (front + 1 + i) := by
      intro i q hq
      have hcounts := h (i + 1) q (by rwa [List.getElem?_cons_succ])
      rwa [Nat.add_comm i 1, ← Nat.add_assoc] at hcounts
    obtain ⟨rest', hrest, hcounts⟩ := ih htail
    have hp : p.Counts pins seq front := h 0 p (List.getElem?_cons_zero ..)
    have hcons : ∀ q : JournalEntryPinList, q.Counts pins seq front →
        ∀ (i : ℕ) (r : JournalEntryPinList), (q :: rest')[i]? = some r →
          r.Counts pins seq (front + i) := by
      intro q hq i r hr
      cases i with
      | zero =>
        cases hr
        exact hq
      | succ i =>
        have := hcounts i r hr
        rwa [Nat.add_assoc, Nat.add_comm 1 i] at this
    rw [putReplayed, hrest, Option.bind_eq_bind, Option.bind_some]
    split_ifs with hput hzero
    · -- the replay is one of the references counted
      have hcount := hp.count
      rw [hput.2, Bool.toNat_true] at hcount
      omega
    · refine ⟨_, rfl, hcons _ ⟨hp.nodup, hp.mem, ?_⟩⟩
      have hcount := hp.count
      rw [hput.2, Bool.toNat_true] at hcount
      change p.count - 1 = p.addrs.length + _ + 0
      omega
    · exact ⟨_, rfl, hcons p hp⟩

/-- The next entry is opened, and the assertions hold. -/
theorem rotate (h : fifo.Counts pins seq) (hfront : fifo.front ≤ seq) :
    ∃ fifo', rotatePins fifo seq = some fifo' ∧ fifo'.Counts pins (seq + 1) := by
  obtain ⟨p, hp, hcounts⟩ := h.getElem? hfront le_rfl
  have hlt := (List.getElem?_eq_some_iff.mp hp).1
  have hlen := h.length
  have hcount := hcounts.count
  rw [if_pos rfl] at hcount
  refine ⟨⟨fifo.front, (fifo.lists ++ [({ count := 1 } : JournalEntryPinList)]).set
    (seq - fifo.front) { p with count := p.count - 1 }⟩, ?_, h.front_pos, ?_, fun i q hq => ?_, fun a ha => ?_⟩
  · rw [rotatePins, if_neg (by rw [hlen]; exact fun hne => hne rfl)]
    dsimp only
    rw [List.getElem?_append_left hlt, hp]
    dsimp only
    rw [if_neg (by omega)]
  · simp only [List.length_set, List.length_append, List.length_singleton]
    omega
  · show q.Counts pins (seq + 1) (fifo.front + i)
    rw [List.getElem?_set] at hq
    by_cases hi : seq - fifo.front = i
    · rw [if_pos hi] at hq
      split_ifs at hq
      cases hq
      have hs : fifo.front + i = seq := by omega
      rw [hs]
      refine ⟨hcounts.nodup, hcounts.mem, ?_⟩
      rw [if_neg (by omega)]
      change p.count - 1 = p.addrs.length + 0 + p.unreplayed.toNat
      omega
    · rw [if_neg hi] at hq
      by_cases hilt : i < fifo.lists.length
      · rw [List.getElem?_append_left hilt] at hq
        have hq' := h.lists i q hq
        refine ⟨hq'.nodup, hq'.mem, ?_⟩
        have hcount' := hq'.count
        rw [if_neg (by omega)] at hcount' ⊢
        exact hcount'
      · -- the lists of the new entry
        have hlast := (List.getElem?_eq_some_iff.mp hq).1
        rw [List.length_append, List.length_singleton] at hlast
        have hie : i = fifo.lists.length := by omega
        rw [hie, List.getElem?_concat_length] at hq
        cases hq
        refine ⟨List.nodup_nil, fun a => ?_, by rw [if_pos (by rw [hie]; omega)]; rfl⟩
        refine iff_of_false List.not_mem_nil fun ha => ?_
        have := (h.active a (by omega)).2
        omega
  · obtain ⟨h₁, h₂⟩ := h.active a ha
    exact ⟨h₁, h₂.trans (Nat.le_succ _)⟩

end JournalPinFifo.Counts

/-! ### The journal -/

/-- The fifo covers `[last_seq, seq]` and counts the pins, and the open entry is not on disk. -/
structure Journal.Counted (j : Journal) : Prop where
  fifo : j.pin.Counts j.pins j.seq
  front_eq : j.pin.front = j.lastSeq
  front_le : j.pin.front ≤ j.seq
  ondisk_next : j.seqOndisk + 1 = j.seq

/-- A step after which the pins are counted, and `last_seq` has not gone back. -/
structure CountStep (j j' : Journal) : Prop where
  counted : j'.Counted
  lastSeq_le : j.lastSeq ≤ j'.lastSeq

theorem CountStep.refl {j : Journal} (h : j.Counted) : CountStep j j := ⟨h, le_rfl⟩

theorem CountStep.trans {a b c : Journal} (h₁ : CountStep a b) (h₂ : CountStep b c) :
    CountStep a c :=
  ⟨h₂.counted, h₁.lastSeq_le.trans h₂.lastSeq_le⟩

namespace Journal.Counted

variable {j j' : Journal} {fn : PinFlushFn} {fuel : ℕ}

theorem congr (h : j.Counted) (hpin : j'.pin = j.pin) (hpins : j'.pins = j.pins)
    (hseq : j'.seq = j.seq) (hlast : j'.lastSeq = j.lastSeq)
    (hondisk : j'.seqOndisk = j.seqOndisk) : CountStep j j' := by
  refine ⟨⟨?_, ?_, ?_, ?_⟩, hlast.ge⟩
  · rw [hpin, hpins, hseq]
    exact h.fifo
  · rw [hpin, hlast]
    exact h.front_eq
  · rw [hpin, hseq]
    exact h.front_le
  · rw [hondisk, hseq]
    exact h.ondisk_next

theorem spaceFrame (h : j.Counted) (hf : SpaceFrame j j') : CountStep j j' :=
  h.congr hf.pin hf.pins hf.seq hf.lastSeq hf.seqOndisk

theorem spaceAvailable (h : j.Counted) :
    CountStep j (bch2JournalDoDiscards (bch2JournalSpaceAvailable g j)) :=
  h.spaceFrame ((bch2JournalSpaceAvailable_frame g j).trans (bch2JournalDoDiscards_frame _))

theorem updateLastSeq (h : j.Counted) : CountStep j (bch2JournalUpdateLastSeq g j) := by
  have hmid : CountStep j { j with
      pin := popPins j.seqOndisk j.pin.front j.pin.lists
      lastSeq := (popPins j.seqOndisk j.pin.front j.pin.lists).front } := by
    refine ⟨⟨h.fifo.popPins _, rfl, ?_, h.ondisk_next⟩, ?_⟩
    · exact popPins_front_le _ _ _ _ h.front_le h.ondisk_next.le
    · exact h.front_eq.ge.trans (le_popPins_front ..)
  unfold bch2JournalUpdateLastSeq
  dsimp only
  split_ifs
  · exact hmid.trans hmid.counted.spaceAvailable
  · exact hmid

/-- The pins and the fifo change together. -/
theorem withPin (h : j.Counted) {pin : JournalPinFifo} {pins : ℕ → ℕ} (addr : ℕ)
    (hfront : pin.front = j.pin.front) (hcounts : pin.Counts pins j.seq) :
    CountStep j { noteDropped j addr with pin := pin, pins := pins } := by
  obtain ⟨hf, -⟩ := noteDropped_frame j addr
  refine ⟨⟨?_, ?_, ?_, ?_⟩, hf.lastSeq.ge⟩
  · change pin.Counts pins (noteDropped j addr).seq
    rw [hf.seq]
    exact hcounts
  · exact hfront.trans (h.front_eq.trans hf.lastSeq.symm)
  · exact hfront.trans_le (h.front_le.trans_eq hf.seq.symm)
  · exact (congrArg (· + 1) hf.seqOndisk).trans (h.ondisk_next.trans hf.seq.symm)

/-- A pin can always be dropped. -/
theorem pinDrop (h : j.Counted) (addr : ℕ) :
    ∃ j', bch2JournalPinDrop g j addr = some j' ∧ CountStep j j' := by
  by_cases hzero : j.pins addr = 0
  · exact ⟨j, by rw [bch2JournalPinDrop, if_pos hzero], .refl h⟩
  · obtain ⟨pin, hpin, hcounts⟩ := h.fifo.release rfl hzero
    have hset := h.withPin addr (pinRelease_extent hpin).1 hcounts
    refine ⟨_, ?_, hset.trans (hset.counted.updateLastSeq (g := g))⟩
    rw [bch2JournalPinDrop, if_neg hzero, hpin, Option.bind_eq_bind, Option.bind_some]
    dsimp only
    rw [(noteDropped_frame j addr).1.pins]

/-- The fifo and the pins after a pin is set, for a sequence of the fifo. -/
theorem pinSet_of_hold (h : j.Counted) {seq addr : ℕ} {type : JournalPinType}
    (hhold : ∀ fifo pins, fifo.front = j.pin.front → fifo.Counts pins j.seq → pins addr = 0 →
      ∃ fifo', pinHold fifo seq addr type = some fifo' ∧
        fifo'.Counts (Function.update pins addr seq) j.seq) :
    ∃ j', bch2JournalPinSet g j seq addr type = some j' ∧ CountStep j j' := by
  by_cases hzero : j.pins addr = 0
  · obtain ⟨pin, hpin, hcounts⟩ := hhold _ _ rfl h.fifo hzero
    refine ⟨_, by rw [bch2JournalPinSet, if_neg (not_not.mpr hzero), hpin]; rfl, ?_⟩
    exact ⟨⟨hcounts, (pinHold_extent hpin).1.trans h.front_eq,
      (pinHold_extent hpin).1.trans_le h.front_le, h.ondisk_next⟩, le_rfl⟩
  · obtain ⟨pin₁, hrel, hcounts₁⟩ := h.fifo.release rfl hzero
    obtain ⟨pin₂, hpin₂, hcounts₂⟩ := hhold _ _ (pinRelease_extent hrel).1 hcounts₁
      (Function.update_self ..)
    rw [Function.update_idem] at hcounts₂
    have hfront := (pinHold_extent hpin₂).1.trans (pinRelease_extent hrel).1
    have hset := h.withPin addr hfront hcounts₂
    refine ⟨_, ?_, hset.trans (hset.counted.updateLastSeq (g := g))⟩
    have hpin : (noteDropped j addr).pin = j.pin := (noteDropped_frame j addr).1.pin
    rw [bch2JournalPinSet, if_pos hzero]
    dsimp only
    rw [hpin, hrel, Option.bind_eq_bind, Option.bind_some, hpin₂, Option.bind_some,
      (noteDropped_frame j addr).1.pins]

/-- A pin can be set to every sequence of the fifo. -/
theorem pinSet (h : j.Counted) {seq : ℕ} (addr : ℕ) (type : JournalPinType)
    (hfront : j.lastSeq ≤ seq) (hseq : seq ≤ j.seq) :
    ∃ j', bch2JournalPinSet g j seq addr type = some j' ∧ CountStep j j' := by
  refine h.pinSet_of_hold fun fifo pins heq hcounts hpin => hcounts.hold hpin type ?_ hseq
  rw [heq, h.front_eq]
  exact hfront

theorem of_pinSet (h : j.Counted) {seq addr : ℕ} {type : JournalPinType}
    (hstep : bch2JournalPinSet g j seq addr type = some j') : CountStep j j' := by
  have hrange : j.pin.front ≤ seq ∧ seq < j.pin.front + j.pin.lists.length := by
    unfold bch2JournalPinSet at hstep
    dsimp only at hstep
    split_ifs at hstep
    · simp only [Option.bind_eq_bind, Option.bind_eq_some_iff] at hstep
      obtain ⟨pin₁, hrel, pin₂, hhold, -⟩ := hstep
      rw [(noteDropped_frame j addr).1.pin] at hrel
      obtain ⟨hfront, hlen⟩ := pinRelease_extent hrel
      rw [← hfront, ← hlen]
      exact pinHold_range hhold
    · simp only [Option.bind_eq_bind, Option.bind_eq_some_iff] at hstep
      obtain ⟨pin, hhold, -⟩ := hstep
      exact pinHold_range hhold
  have hlen := h.fifo.length
  obtain ⟨j₁, hset, hcount⟩ := h.pinSet (g := g) addr type (h.front_eq ▸ hrange.1) (by omega)
  rw [hset] at hstep
  cases hstep
  exact hcount

theorem pinAdd (h : j.Counted) {seq addr : ℕ} {type : JournalPinType}
    (hstep : bch2JournalPinAdd g j seq addr type = some j') : CountStep j j' := by
  unfold bch2JournalPinAdd at hstep
  split_ifs at hstep
  · exact h.of_pinSet hstep
  · cases hstep
    exact .refl h

theorem pinUpdate (h : j.Counted) {seq addr : ℕ} {type : JournalPinType}
    (hstep : bch2JournalPinUpdate g j seq addr type = some j') : CountStep j j' := by
  unfold bch2JournalPinUpdate at hstep
  split_ifs at hstep
  · exact h.of_pinSet hstep
  · cases hstep
    exact .refl h

theorem of_pinDrop (h : j.Counted) {addr : ℕ} (hstep : bch2JournalPinDrop g j addr = some j') :
    CountStep j j' := by
  obtain ⟨j₁, hdrop, hcount⟩ := h.pinDrop (g := g) addr
  rw [hdrop] at hstep
  cases hstep
  exact hcount

theorem replayPinsPut (h : j.Counted) (seq : ℕ) :
    ∃ j', bch2JournalReplayPinsPut g j seq = some j' ∧ CountStep j j' := by
  obtain ⟨lists, hput, hcounts⟩ :=
    JournalPinFifo.Counts.replayed (min seq j.seq) h.fifo.lists
  have hset : CountStep j { j with pin := { j.pin with lists := lists } } := by
    refine ⟨⟨⟨h.fifo.front_pos, ?_, hcounts, h.fifo.active⟩, h.front_eq, h.front_le,
      h.ondisk_next⟩, le_rfl⟩
    exact (congrArg (j.pin.front + ·) (putReplayed_length hput)).trans h.fifo.length
  refine ⟨_, ?_, hset.trans (hset.counted.updateLastSeq (g := g))⟩
  rw [bch2JournalReplayPinsPut, hput, Option.bind_eq_bind, Option.bind_some]

/-- The loops over pins keep the counts. -/
theorem pinRel : PinRel g fun j j' => j.Counted → CountStep j j' where
  refl _ := .refl
  trans h₁ h₂ h := (h₁ h).trans (h₂ (h₁ h).counted)
  op {j j' op} hop h := by
    cases op with
    | set seq addr type => exact h.of_pinSet hop
    | add seq addr type => exact h.pinAdd hop
    | update seq addr type => exact h.pinUpdate hop
    | drop addr => exact h.of_pinDrop hop
  flushed {j seq addr} hpin h := by
    obtain ⟨hfront, -⟩ := markFlushed_extent j.pin seq addr
    exact ⟨⟨h.fifo.flushed hpin, hfront.trans h.front_eq, hfront.trans_le h.front_le,
      h.ondisk_next⟩, le_rfl⟩
  bookkeeping j _ _ _ _ _ h := h.congr rfl rfl rfl rfl rfl

/-! ### Flushes -/

theorem openNext (h : j.Counted) (r : Jset) :
    ∃ pin, rotatePins j.pin j.seq = some pin ∧ CountStep j (openNext j r pin) := by
  obtain ⟨pin, hpin, hcounts⟩ := h.fifo.rotate h.front_le
  have hfront := (rotatePins_extent hpin).1
  exact ⟨pin, hpin, ⟨⟨hcounts, hfront.trans h.front_eq,
    hfront.trans_le (h.front_le.trans (Nat.le_succ _)), rfl⟩, le_rfl⟩⟩

theorem flushPublish (h : j.Counted) {r : Jset} {ret : ℤ}
    (hstep : flushPublish g fn fuel j r = some (ret, j')) : CountStep j j' := by
  unfold Subvol.flushPublish at hstep
  dsimp only at hstep
  have hclosed : CountStep j { j with closed := j.closed ++ [r] } := h.congr rfl rfl rfl rfl rfl
  split_ifs at hstep
  · cases hstep
    exact hclosed
  · cases hstep
    exact hclosed
  · simp only [Option.bind_eq_bind, Option.bind_eq_some_iff, Option.some.injEq,
      Prod.mk.injEq] at hstep
    obtain ⟨pin, hpin, j₁, hsettle, -, rfl⟩ := hstep
    obtain ⟨pin', hpin', hopen⟩ := hclosed.counted.openNext r
    obtain rfl : pin = pin' := Option.some.inj (hpin.symm.trans hpin')
    have hopened := hclosed.trans hopen
    exact hopened.trans (pinRel.flushSettle (fun _ h => h.updateLastSeq)
      (fun _ h => h.spaceAvailable) (fun _ h => h.congr rfl rfl rfl rfl rfl) hsettle
      hopened.counted)

theorem flushFinish (h : j.Counted) {r : Jset} {ret : ℤ} {device : JournalDevice}
    {writes : List DeviceWrite} (hret : (flushFinish g fn fuel j r ret device writes).ret ≠ none) :
    CountStep j (flushFinish g fn fuel j r ret device writes).journal := by
  have hdevice : CountStep j { j with device := device } := h.congr rfl rfl rfl rfl rfl
  unfold Subvol.flushFinish at hret ⊢
  dsimp only at hret ⊢
  split_ifs at hret ⊢
  · exact hdevice
  · split at hret
    · next heq =>
      exact hdevice.trans (hdevice.counted.flushPublish heq)
    · exact absurd rfl hret

/-- `bch2_journal_flush` keeps the counts, whatever it returns. -/
theorem flush (h : j.Counted) {io : FlushIo} {roots : List UInt64}
    (hret : (bch2JournalFlush g io fn fuel roots j).ret ≠ none) :
    CountStep j (bch2JournalFlush g io fn fuel roots j).journal := by
  unfold bch2JournalFlush at hret ⊢
  dsimp only at hret ⊢
  split_ifs at hret ⊢
  · exact .refl h
  · exact .refl h
  · exact h.congr rfl rfl rfl rfl rfl
  · exact h.flushFinish hret
  · exact h.flushFinish hret

end Journal.Counted

/-! ### Runs -/

/-- A step of a journal: an operation, or a flush that ends. -/
inductive PinRunStep (g : JournalGeometry) : Journal → Journal → Prop
  | op {j j' : Journal} (hop : JournalOp g j j') : PinRunStep g j j'
  | flush {j : Journal} (io : FlushIo) (fn : PinFlushFn) (fuel : ℕ) (roots : List UInt64)
      (hret : (bch2JournalFlush g io fn fuel roots j).ret ≠ none) :
      PinRunStep g j (bch2JournalFlush g io fn fuel roots j).journal

/-- The runs of a journal. -/
abbrev PinRun (g : JournalGeometry) : Journal → Journal → Prop :=
  Relation.ReflTransGen (PinRunStep g)

theorem JournalOp.counted {j j' : Journal} (hop : JournalOp g j j') (h : j.Counted) :
    CountStep j j' := by
  cases hop with
  | resGet hres =>
    unfold journalResGetFast at hres
    dsimp only at hres
    split_ifs at hres
    cases hres
    exact h.congr rfl rfl rfl rfl rfl
  | resWrite offset ws => exact h.congr rfl rfl rfl rfl rfl
  | resPut res hseq => exact h.congr rfl rfl rfl rfl rfl
  | pinSet hp => exact h.of_pinSet hp
  | pinAdd hp => exact h.pinAdd hp
  | pinUpdate hp => exact h.pinUpdate hp
  | pinDrop hp => exact h.of_pinDrop hp
  | replayPinsPut hp =>
    obtain ⟨j₁, hput, hcount⟩ := h.replayPinsPut (g := g) _
    rw [hput] at hp
    cases hp
    exact hcount
  | flushPins hp => exact Journal.Counted.pinRel.bch2JournalFlushPins hp h
  | reclaim hp => exact Journal.Counted.pinRel.journalReclaim hp h
  | updateLastSeq => exact h.updateLastSeq
  | updateLastSeqOndisk last =>
    unfold bch2JournalUpdateLastSeqOndisk
    split_ifs
    · exact .refl h
    · have hset : CountStep j { j with lastSeqOndisk := last } := h.congr rfl rfl rfl rfl rfl
      exact hset.trans hset.counted.spaceAvailable
    · exact .refl h
  | injectWriteError count => exact h.congr rfl rfl rfl rfl rfl
  | retainClosed seq => exact h.congr rfl rfl rfl rfl rfl

theorem PinRunStep.counted {j j' : Journal} (hstep : PinRunStep g j j') (h : j.Counted) :
    CountStep j j' := by
  cases hstep with
  | op hop => exact hop.counted h
  | flush io fn fuel roots hret => exact h.flush hret

theorem PinRun.counted {j j' : Journal} (hrun : PinRun g j j') (h : j.Counted) :
    CountStep j j' := by
  induction hrun with
  | refl => exact .refl h
  | tail _ hstep ih => exact ih.trans (hstep.counted ih.counted)

/-! ### The first state -/

/-- A journal without pins: the sequences before the open entry wait for their replay. -/
structure Journal.Initial (j : Journal) : Prop where
  pins : ∀ a, j.pins a = 0
  pin : j.pin = replayPins j.lastSeq j.seq
  lastSeq_pos : 0 < j.lastSeq
  lastSeq_le : j.lastSeq ≤ j.seq
  ondisk_next : j.seqOndisk + 1 = j.seq

theorem Journal.initial_default : Journal.default.Initial :=
  ⟨fun _ => rfl, rfl, Nat.one_pos, le_rfl, rfl⟩

theorem dedupSeq_sublist (l : List FoundEntry) : (dedupSeq l).Sublist l := by
  induction l with
  | nil => exact List.Sublist.slnil
  | cons a rest ih =>
    rw [dedupSeq]
    split
    · exact (List.nil_sublist rest).cons_cons a
    · next b rest' heq =>
      rw [heq] at ih
      split_ifs
      · exact ((List.sublist_cons_self b rest').trans ih).cons_cons a
      · exact ih.cons_cons a

/-- The window that is read begins at a sequence before the open entry. -/
theorem flushWindow_le {found : List FoundEntry}
    (hsorted : found.Pairwise fun a b => a.seq ≤ b.seq) (hne : (flushWindow found).1 ≠ 0) :
    (flushWindow found).1 ≤ (found.getLast?.map fun e => e.seq + 1).getD 1 := by
  unfold flushWindow at hne ⊢
  split at hne
  · next e he =>
    have hmem : e ∈ found := List.mem_reverse.mp (List.mem_of_find?_eq_some he)
    have hlast := List.getLast?_eq_getLast_of_ne_nil (List.ne_nil_of_mem hmem)
    revert hlast
    generalize found.getLast (List.ne_nil_of_mem hmem) = last
    intro hlast
    obtain ⟨before, rfl⟩ := List.getLast?_eq_some_iff.mp hlast
    rw [hlast]
    change min e.record.lastSeq e.seq ≤ last.seq + 1
    rcases List.mem_append.mp hmem with hb | hl
    · have hle := (List.pairwise_append.mp hsorted).2.2 e hb last (List.mem_singleton_self _)
      omega
    · rw [List.mem_singleton.mp hl]
      omega
  · exact absurd rfl hne

theorem readInstall_initial {j : Journal} (hpins : ∀ a, j.pins a = 0) {records : List Jset}
    {device : JournalDevice} {pinFront curSeq : ℕ} (hpos : 0 < pinFront) (hle : pinFront ≤ curSeq) :
    (readInstall g j records device pinFront curSeq).Initial := by
  have hf := readInstall_spaceFrame (g := g) j records device pinFront curSeq
  refine ⟨fun a => ?_, ?_, ?_, ?_, ?_⟩
  · rw [hf.pins]
    exact hpins a
  · rw [hf.pin, hf.lastSeq, hf.seq]
    rfl
  · rw [hf.lastSeq]
    exact hpos
  · rw [hf.lastSeq, hf.seq]
    exact hle
  · rw [hf.seqOndisk, hf.seq]
    exact Nat.sub_add_cancel (hpos.trans_le hle)

/-- A journal that is read from a device starts without pins. -/
theorem Journal.initial_read {img : Image UInt64} {j₀ j : Journal} {info : JournalStartInfo}
    (hpins : ∀ a, j₀.pins a = 0) (hread : bch2JournalRead g img j₀ = .ok (j, info)) :
    j.Initial := by
  unfold bch2JournalRead at hread
  split at hread
  · cases hread
  · next found bucketSeq _ =>
    have hsorted : (found.mergeSort fun a b => a.seq ≤ b.seq).Pairwise fun a b => a.seq ≤ b.seq := by
      refine (List.pairwise_mergeSort ?_ ?_ found).imp fun h => of_decide_eq_true h
      · intro a b c hab hbc
        simp only [decide_eq_true_eq] at hab hbc ⊢
        exact hab.trans hbc
      · intro a b
        simp only [Bool.or_eq_true, decide_eq_true_eq]
        exact le_total a.seq b.seq
    revert hread hsorted
    generalize (found.mergeSort fun a b => a.seq ≤ b.seq) = sorted
    intro hread hsorted
    unfold readSorted at hread
    dsimp only at hread
    split_ifs at hread with hdup hgap hfront
    · cases hread
      exact readInstall_initial hpins (Nat.pos_of_ne_zero hfront)
        (flushWindow_le (hsorted.sublist (dedupSeq_sublist _)) hfront)
    · cases hread
      refine readInstall_initial hpins ?_ le_rfl
      cases (dedupSeq sorted).getLast? with
      | none => exact Nat.one_pos
      | some e => exact Nat.succ_pos e.seq

theorem Journal.Initial.counted {j : Journal} (h : j.Initial) : j.Counted := by
  have hle := h.lastSeq_le
  have hpos := h.lastSeq_pos
  refine ⟨⟨?_, ?_, ?_, fun a ha => absurd (h.pins a) ha⟩, ?_, ?_, h.ondisk_next⟩
  · rw [h.pin]
    exact h.lastSeq_pos
  · rw [h.pin]
    simp only [replayPins, List.length_append, List.length_replicate, List.length_singleton]
    omega
  · intro i p hp
    rw [h.pin] at hp ⊢
    change p.Counts j.pins j.seq (j.lastSeq + i)
    have hnone : ∀ a, a ∈ ([] : List ℕ) ↔ j.pins a = j.lastSeq + i := by
      intro a
      rw [h.pins a]
      exact iff_of_false List.not_mem_nil (by omega)
    change (List.replicate (j.seq - j.lastSeq) ({ count := 1, unreplayed := true } :
      JournalEntryPinList) ++ [{ count := 1 }])[i]? = some p at hp
    by_cases hi : i < j.seq - j.lastSeq
    · rw [List.getElem?_append_left (by rwa [List.length_replicate]),
        List.getElem?_replicate_of_lt hi] at hp
      cases hp
      exact ⟨List.nodup_nil, hnone, by rw [if_neg (by omega)]; rfl⟩
    · have hlen := (List.getElem?_eq_some_iff.mp hp).1
      rw [List.length_append, List.length_replicate, List.length_singleton] at hlen
      rw [List.getElem?_append_right (by rw [List.length_replicate]; omega),
        List.length_replicate] at hp
      have hzero : i - (j.seq - j.lastSeq) = 0 := by omega
      rw [hzero] at hp
      cases hp
      exact ⟨List.nodup_nil, hnone, by rw [if_pos (by omega)]; rfl⟩
  · rw [h.pin]
    rfl
  · rw [h.pin]
    exact h.lastSeq_le

/-! ### The counts in every state -/

/-- The number of lists of the fifo that a pin is on. -/
def Journal.onLists (j : Journal) (addr : ℕ) : ℕ :=
  (j.pin.lists.flatMap JournalEntryPinList.addrs).count addr

theorem JournalPinFifo.Counts.count_flatMap {pins : ℕ → ℕ} {seq front : ℕ}
    {lists : List JournalEntryPinList}
    (h : ∀ (i : ℕ) (p : JournalEntryPinList), lists[i]? = some p → p.Counts pins seq (front + i))
    (a : ℕ) : (lists.flatMap JournalEntryPinList.addrs).count a =
      if front ≤ pins a ∧ pins a < front + lists.length then 1 else 0 := by
  induction lists generalizing front with
  | nil =>
    rw [if_neg (by rw [List.length_nil]; omega)]
    rfl
  | cons p rest ih =>
    have hp : p.Counts pins seq front := h 0 p (List.getElem?_cons_zero ..)
    have htail : ∀ (i : ℕ) (q : JournalEntryPinList), rest[i]? = some q →
        q.Counts pins seq (front + 1 + i) := by
      intro i q hq
      have hcounts := h (i + 1) q (by rwa [List.getElem?_cons_succ])
      rwa [Nat.add_comm i 1, ← Nat.add_assoc] at hcounts
    rw [List.flatMap_cons, List.count_append, ih htail, List.length_cons]
    by_cases ha : pins a = front
    · rw [List.count_eq_one_of_mem hp.nodup ((hp.mem a).mpr ha), if_neg (by omega),
        if_pos (by omega)]
    · rw [List.count_eq_zero_of_not_mem fun hmem => ha ((hp.mem a).mp hmem), Nat.zero_add]
      exact if_congr (by omega) rfl rfl

theorem Journal.Counted.onLists {j : Journal} (h : j.Counted) (addr : ℕ) :
    j.onLists addr = if j.pins addr = 0 then 0 else 1 := by
  rw [Journal.onLists, JournalPinFifo.Counts.count_flatMap h.fifo.lists, h.fifo.length]
  have hpos := h.fifo.front_pos
  by_cases hzero : j.pins addr = 0
  · rw [if_pos hzero, if_neg (by omega)]
  · obtain ⟨hfront, hseq⟩ := h.fifo.active addr hzero
    rw [if_neg hzero, if_pos ⟨hfront, by omega⟩]

/-- In every state of a run from a journal without pins the fifo covers `[last_seq, seq]`; the count
of a sequence is the number of pins at it, with the references of the open entry and of the replay;
`last_seq` is not above a pin or the open entry, and no step takes it back; every active pin is on
one list, that of its sequence, and no other pin is on any; and no assertion of the pin functions
fails for a sequence of the fifo. -/
theorem journal_pin_counts {j₀ j : Journal} (hinit : j₀.Initial) (hrun : PinRun g j₀ j) :
    (j.pin.front = j.lastSeq ∧ j.pin.front + j.pin.lists.length = j.seq + 1) ∧
    (∀ s, j.lastSeq ≤ s → s ≤ j.seq → ∃ p, j.pin.lists[s - j.lastSeq]? = some p ∧
      p.count = {a | j.pins a = s}.ncard + (if s = j.seq then 1 else 0) + p.unreplayed.toNat ∧
      ∀ a, a ∈ p.addrs ↔ j.pins a = s) ∧
    (j.lastSeq ≤ j.seq ∧ ∀ a, j.pins a ≠ 0 → j.lastSeq ≤ j.pins a ∧ j.pins a ≤ j.seq) ∧
    (∀ j', PinRun g j j' → j.lastSeq ≤ j'.lastSeq) ∧
    (∀ a, j.onLists a = if j.pins a = 0 then 0 else 1) ∧
    (∀ a, (bch2JournalPinDrop g j a).isSome = true) ∧
    (∀ s a type, j.lastSeq ≤ s → s ≤ j.seq → (bch2JournalPinSet g j s a type).isSome = true) := by
  have h := (hrun.counted hinit.counted).counted
  refine ⟨⟨h.front_eq, h.fifo.length⟩, fun s hlast hseq => ?_, ⟨h.front_eq ▸ h.front_le, fun a ha => ?_⟩,
    fun j' hrun' => (hrun'.counted h).lastSeq_le, h.onLists, fun a => ?_, fun s a type hlast hseq => ?_⟩
  · obtain ⟨p, hp, hcounts⟩ := h.fifo.getElem? (h.front_eq.trans_le hlast) hseq
    rw [h.front_eq] at hp
    refine ⟨p, hp, ?_, hcounts.mem⟩
    rw [hcounts.length_eq]
    exact hcounts.count
  · rw [← h.front_eq]
    exact h.fifo.active a ha
  · obtain ⟨j', hdrop, -⟩ := h.pinDrop (g := g) a
    rw [hdrop]
    rfl
  · obtain ⟨j', hset, -⟩ := h.pinSet (g := g) a type hlast hseq
    rw [hset]
    rfl

/-- The journal with one pin at its first sequence. -/
def onePinJournal : Journal :=
  { Journal.default with
    pin := ⟨1, [{ count := 2, unflushed := [(.other, 7)] }]⟩
    pins := Function.update (fun _ => 0) 7 1 }

theorem journal_pin_counts_one :
    bch2JournalPinSet smallGeometry Journal.default 1 7 .other = some onePinJournal ∧
    onePinJournal.onLists 7 = 1 ∧ {a | onePinJournal.pins a = 1}.ncard + 1 = 2 := by
  have hset : bch2JournalPinSet smallGeometry Journal.default 1 7 .other = some onePinJournal := rfl
  have hrun : PinRun smallGeometry Journal.default onePinJournal := .single (.op (.pinSet hset))
  obtain ⟨-, hcount, -, -, hlists, -⟩ := journal_pin_counts Journal.initial_default hrun
  obtain ⟨p, hp, hcount, -⟩ := hcount 1 le_rfl le_rfl
  obtain rfl : p = { count := 2, unflushed := [(.other, 7)] } := (Option.some.inj hp).symm
  exact ⟨hset, hlists 7, hcount.symm⟩

end Subvol

import Subvol.Lib.LittleEndian

/-!
# The Jenkins hash

Model of `jhash.rs`: the hash of a key of bytes, that of a key of words, and those of one to three
words. A table hashes its keys as words where their length allows it (`rhashtable_init`); on a
little-endian machine that is the hash of their bytes.

## Main definitions

* `jhash`, `jhash2`, `jhash1Word`, `jhash2Words`, `jhash3Words`.
* `rhashtableHash`: the hash that a table chooses.

## Main results

* `rhashtable_hash_bytes`: the choice does not change the hash.
* `jhash_few_words`: the hashes of one to three words.
-/

namespace Subvol

open Lib

/-- `JHASH_INITVAL`. -/
def jhashInitval : UInt32 := 0xdeadbeef

/-- `u32::rotate_left` for the rotations used, `0 < r < 32`. -/
def rotateLeft32 (x r : UInt32) : UInt32 := (x <<< r) ||| (x >>> (32 - r))

/-- The three words of the hash. -/
structure JhashAbc where
  a : UInt32
  b : UInt32
  c : UInt32
deriving DecidableEq, Repr

/-- `__jhash_mix`. -/
def jhashMix (s : JhashAbc) : JhashAbc :=
  let ⟨a, b, c⟩ := s
  let a := (a - c) ^^^ rotateLeft32 c 4
  let c := c + b
  let b := (b - a) ^^^ rotateLeft32 a 6
  let a := a + c
  let c := (c - b) ^^^ rotateLeft32 b 8
  let b := b + a
  let a := (a - c) ^^^ rotateLeft32 c 16
  let c := c + b
  let b := (b - a) ^^^ rotateLeft32 a 19
  let a := a + c
  let c := (c - b) ^^^ rotateLeft32 b 4
  let b := b + a
  ⟨a, b, c⟩

/-- `__jhash_final`. -/
def jhashFinal (s : JhashAbc) : JhashAbc :=
  let ⟨a, b, c⟩ := s
  let c := (c ^^^ b) - rotateLeft32 b 14
  let a := (a ^^^ c) - rotateLeft32 c 11
  let b := (b ^^^ a) - rotateLeft32 a 25
  let c := (c ^^^ b) - rotateLeft32 b 16
  let a := (a ^^^ c) - rotateLeft32 c 4
  let b := (b ^^^ a) - rotateLeft32 a 14
  let c := (c ^^^ b) - rotateLeft32 b 24
  ⟨a, b, c⟩

/-! ### Keys of bytes -/

/-- `u32::from_ne_bytes`, on a little-endian machine. -/
def u32FromNeBytes (bytes : List UInt8) : UInt32 := UInt32.ofNat (natOfBytes bytes)

/-- The loop of `jhash`: twelve bytes a turn while there are more. -/
def jhashBlocks (s : JhashAbc) (k : List UInt8) : JhashAbc × List UInt8 :=
  if 12 < k.length then
    jhashBlocks
      (jhashMix ⟨s.a + u32FromNeBytes (k.take 4), s.b + u32FromNeBytes ((k.drop 4).take 4),
        s.c + u32FromNeBytes ((k.drop 8).take 4)⟩)
      (k.drop 12)
  else (s, k)
termination_by k.length
decreasing_by rw [List.length_drop]; omega

/-- A byte of the rest is added in its place, if the rest is long enough. -/
def jhashAdd (k : List UInt8) (i : ℕ) (shift x : UInt32) : UInt32 :=
  if i + 1 ≤ k.length then x + ((k.getD i 0).toUInt32 <<< shift) else x

/-- Four of the comparisons of `jhash`, the ones that add to one word. -/
def jhashAddWord (k : List UInt8) (i : ℕ) (x : UInt32) : UInt32 :=
  let x := jhashAdd k (i + 3) 24 x
  let x := jhashAdd k (i + 2) 16 x
  let x := jhashAdd k (i + 1) 8 x
  jhashAdd k i 0 x

/-- `jhash`, of a key that has `length` bytes. -/
def jhash (key : List UInt8) (initval : UInt32) : UInt32 :=
  let a := jhashInitval + UInt32.ofNat key.length + initval
  let (s, k) := jhashBlocks ⟨a, a, a⟩ key
  let c := jhashAddWord k 8 s.c
  let b := jhashAddWord k 4 s.b
  let a := jhashAddWord k 0 s.a
  if 1 ≤ k.length then (jhashFinal ⟨a, b, c⟩).c else c

/-! ### Keys of words -/

/-- The loop of `jhash2`: three words a turn while there are more. -/
def jhash2Blocks : JhashAbc → List UInt32 → JhashAbc × List UInt32
  | s, k0 :: k1 :: k2 :: k3 :: rest =>
    jhash2Blocks (jhashMix ⟨s.a + k0, s.b + k1, s.c + k2⟩) (k3 :: rest)
  | s, k => (s, k)

/-- `jhash2`, of a key that has `length` words. -/
def jhash2 (key : List UInt32) (initval : UInt32) : UInt32 :=
  let a := jhashInitval + (UInt32.ofNat key.length <<< 2) + initval
  let (s, k) := jhash2Blocks ⟨a, a, a⟩ key
  let c := if 3 ≤ k.length then s.c + k.getD 2 0 else s.c
  let b := if 2 ≤ k.length then s.b + k.getD 1 0 else s.b
  if 1 ≤ k.length then (jhashFinal ⟨s.a + k.getD 0 0, b, c⟩).c else c

/-- `__jhash_nwords`. -/
def jhashNwords (a b c initval : UInt32) : UInt32 :=
  (jhashFinal ⟨a + initval, b + initval, c + initval⟩).c

/-- `jhash_3words`. -/
def jhash3Words (a b c initval : UInt32) : UInt32 :=
  jhashNwords a b c (initval + jhashInitval + ((3 : UInt32) <<< 2))

/-- `jhash_2words`. -/
def jhash2Words (a b initval : UInt32) : UInt32 :=
  jhashNwords a b 0 (initval + jhashInitval + ((2 : UInt32) <<< 2))

/-- `jhash_1word`. -/
def jhash1Word (a initval : UInt32) : UInt32 :=
  jhashNwords a 0 0 (initval + jhashInitval + ((1 : UInt32) <<< 2))

/-- A key read as words, as a pointer to it is cast. -/
def keyWords : List UInt8 → List UInt32
  | b0 :: b1 :: b2 :: b3 :: rest => u32FromNeBytes [b0, b1, b2, b3] :: keyWords rest
  | _ => []

/-- The hash that `rhashtable_init` chooses for keys of a length: `rhashtable_jhash2` where it is a
multiple of four, else `jhash`. -/
def rhashtableHash (keyLen : ℕ) (key : List UInt8) (seed : UInt32) : UInt32 :=
  if keyLen &&& 3 = 0 then jhash2 ((keyWords key).take (keyLen / 4)) seed
  else jhash (key.take keyLen) seed

-- A vector of the source's tests.
example : jhash2 [0x10203040, 0x20406080, 0x306090c0, 0x4080c100, 0x50a0f140] 0x2468ace0 =
    0x9d469ecc := by
  decide

/-! ### Words are four bytes -/

theorem byte_shiftLeft (b : UInt8) {n : ℕ} (hn : n ≤ 24) :
    b.toUInt32 <<< UInt32.ofNat n = UInt32.ofNat (b.toNat * 2 ^ n) := by
  refine UInt32.toNat_inj.mp ?_
  rw [UInt32.toNat_shiftLeft, UInt8.toNat_toUInt32, UInt32.toNat_ofNat', UInt32.toNat_ofNat',
    Nat.shiftLeft_eq, Nat.mod_mod_of_dvd n (by decide : 32 ∣ 2 ^ 32),
    Nat.mod_eq_of_lt (by omega : n < 32)]

theorem add_bytes (x : UInt32) (b0 b1 b2 b3 : UInt8) :
    x + (b3.toUInt32 <<< 24) + (b2.toUInt32 <<< 16) + (b1.toUInt32 <<< 8) + (b0.toUInt32 <<< 0) =
      x + u32FromNeBytes [b0, b1, b2, b3] := by
  have h0 := byte_shiftLeft b0 (by decide : 0 ≤ 24)
  have h1 := byte_shiftLeft b1 (by decide : 8 ≤ 24)
  have h2 := byte_shiftLeft b2 (by decide : 16 ≤ 24)
  have h3 := byte_shiftLeft b3 (by decide : 24 ≤ 24)
  have hsum : natOfBytes [b0, b1, b2, b3] =
      b3.toNat * 2 ^ 24 + b2.toNat * 2 ^ 16 + b1.toNat * 2 ^ 8 + b0.toNat * 2 ^ 0 := by
    simp only [natOfBytes]
    omega
  rw [u32FromNeBytes, hsum, UInt32.ofNat_add, UInt32.ofNat_add, UInt32.ofNat_add, ← h0, ← h1,
    ← h2, ← h3, UInt32.add_assoc, UInt32.add_assoc, UInt32.add_assoc, UInt32.add_assoc,
    UInt32.add_assoc]
  rfl

theorem jhashAdd_drop (k : List UInt8) (i j : ℕ) (shift x : UInt32) :
    jhashAdd k (i + j) shift x = jhashAdd (k.drop i) j shift x := by
  rw [jhashAdd, jhashAdd, List.length_drop]
  by_cases h : i + j + 1 ≤ k.length
  · rw [if_pos h, if_pos (by omega), List.getD_eq_getElem?_getD, List.getD_eq_getElem?_getD,
      List.getElem?_drop]
  · rw [if_neg h, if_neg (by omega)]

theorem keyWords_nil : keyWords [] = [] := rfl

theorem keyWords_cons {k : List UInt8} (h : 4 ≤ k.length) :
    keyWords k = u32FromNeBytes (k.take 4) :: keyWords (k.drop 4) := by
  match k, h with
  | b0 :: b1 :: b2 :: b3 :: rest, _ => rfl

theorem take_keyWords (n : ℕ) (k : List UInt8) (h : 4 * n ≤ k.length) :
    (keyWords k).take n = keyWords (k.take (4 * n)) := by
  induction n generalizing k with
  | zero => rfl
  | succ n ih =>
    rw [keyWords_cons (by omega), List.take_succ_cons, ih _ (by rw [List.length_drop]; omega),
      keyWords_cons (k := k.take (4 * (n + 1))) (by rw [List.length_take]; omega), List.take_take,
      List.drop_take, Nat.min_eq_left (by omega), Nat.mul_succ, Nat.add_sub_cancel]

theorem length_keyWords {k : List UInt8} {n : ℕ} (hlen : k.length = 4 * n) :
    (keyWords k).length = n := by
  induction n generalizing k with
  | zero => rw [List.length_eq_zero_iff.mp hlen, keyWords_nil, List.length_nil]
  | succ n ih =>
    have hrest : (k.drop 4).length = 4 * n := by
      rw [List.length_drop]
      omega
    rw [keyWords_cons (by omega), List.length_cons, ih hrest]

theorem getD_keyWords {k : List UInt8} {n i : ℕ} (hlen : k.length = 4 * n) (hi : i < n) :
    (keyWords k).getD i 0 = u32FromNeBytes ((k.drop (4 * i)).take 4) := by
  induction i generalizing k n with
  | zero => rw [keyWords_cons (by omega), List.getD_cons_zero, Nat.mul_zero, List.drop_zero]
  | succ i ih =>
    have hrest : (k.drop 4).length = 4 * (n - 1) := by rw [List.length_drop]; omega
    rw [keyWords_cons (by omega), List.getD_cons_succ, ih hrest (by omega), List.drop_drop,
      Nat.mul_succ, Nat.add_comm]

/-- Four comparisons add a word, if it is there. -/
theorem jhashAddWord_eq {k : List UInt8} {n i : ℕ} (hlen : k.length = 4 * n) (x : UInt32) :
    jhashAddWord k (4 * i) x =
      if i + 1 ≤ n then x + (keyWords k).getD i 0 else x := by
  have hdrop : jhashAddWord k (4 * i) x = jhashAddWord (k.drop (4 * i)) 0 x := by
    simp only [jhashAddWord, ← jhashAdd_drop, Nat.add_zero, Nat.zero_add]
  have hlen' : (k.drop (4 * i)).length = 4 * n - 4 * i := by rw [List.length_drop, hlen]
  rw [hdrop]
  by_cases h : i + 1 ≤ n
  · rw [if_pos h, getD_keyWords hlen h]
    generalize k.drop (4 * i) = d at hlen'
    match d, (by omega : 4 ≤ d.length) with
    | b0 :: b1 :: b2 :: b3 :: rest, _ =>
      rw [List.take_succ_cons, List.take_succ_cons, List.take_succ_cons, List.take_succ_cons,
        List.take_zero, ← add_bytes]
      simp [jhashAddWord, jhashAdd]
  · have hnil : k.drop (4 * i) = [] := List.length_eq_zero_iff.mp (by omega)
    rw [if_neg h, hnil]
    rfl

theorem jhash2Blocks_short (s : JhashAbc) {k : List UInt32} (h : k.length ≤ 3) :
    jhash2Blocks s k = (s, k) := by
  match k, h with
  | [], _ | [_], _ | [_, _], _ | [_, _, _], _ => rfl

/-- The loops take the same words. -/
theorem jhash2Blocks_keyWords (s : JhashAbc) {k : List UInt8} {n : ℕ} (hlen : k.length = 4 * n) :
    jhash2Blocks s (keyWords k) = ((jhashBlocks s k).1, keyWords (jhashBlocks s k).2) ∧
      ∃ m ≤ 3, (jhashBlocks s k).2.length = 4 * m := by
  induction n using Nat.strong_induction_on generalizing s k with
  | _ n ih =>
    rw [jhashBlocks]
    by_cases h : 12 < k.length
    · have hrest : (k.drop 12).length = 4 * (n - 3) := by
        rw [List.length_drop]
        omega
      have h1 := keyWords_cons (k := k.drop 4) (by rw [List.length_drop]; omega)
      have h2 := keyWords_cons (k := k.drop 8) (by rw [List.length_drop]; omega)
      have h3 := keyWords_cons (k := k.drop 12) (by omega)
      rw [List.drop_drop] at h1 h2
      rw [if_pos h, keyWords_cons (by omega), h1, h2, h3, jhash2Blocks, ← h3]
      exact ih (n - 3) (by omega) _ hrest
    · rw [if_neg h]
      have hshort : (keyWords k).length ≤ 3 := by
        rw [length_keyWords hlen]
        omega
      exact ⟨jhash2Blocks_short s hshort, n, by omega, hlen⟩

/-- The hash of the words of a key is that of its bytes. -/
theorem jhash2_keyWords {key : List UInt8} {n : ℕ} (hlen : key.length = 4 * n) (initval : UInt32) :
    jhash2 (keyWords key) initval = jhash key initval := by
  have hstart : UInt32.ofNat n <<< 2 = UInt32.ofNat (4 * n) := by
    refine UInt32.toNat_inj.mp ?_
    rw [UInt32.toNat_shiftLeft, UInt32.toNat_ofNat', UInt32.toNat_ofNat', Nat.shiftLeft_eq]
    change n % 2 ^ 32 * 2 ^ 2 % 2 ^ 32 = 4 * n % 2 ^ 32
    omega
  rw [jhash2, jhash, length_keyWords hlen, hstart, hlen]
  dsimp only
  generalize jhashInitval + UInt32.ofNat (4 * n) + initval = a
  obtain ⟨hblocks, m, hm, hrest⟩ := jhash2Blocks_keyWords ⟨a, a, a⟩ hlen
  rw [hblocks]
  generalize jhashBlocks ⟨a, a, a⟩ key = r at hrest
  obtain ⟨s, k⟩ := r
  dsimp only at hrest ⊢
  have hc : jhashAddWord k 8 s.c = _ := jhashAddWord_eq (i := 2) hrest s.c
  have hb : jhashAddWord k 4 s.b = _ := jhashAddWord_eq (i := 1) hrest s.b
  have ha : jhashAddWord k 0 s.a = _ := jhashAddWord_eq (i := 0) hrest s.a
  rw [hc, hb, ha, length_keyWords hrest, hrest]
  by_cases h : 1 ≤ m
  · rw [if_pos h, if_pos h, if_pos (by omega : 1 ≤ 4 * m)]
  · rw [if_neg h, if_neg (by omega : ¬1 ≤ 4 * m)]

/-- The hash that a table chooses is that of the bytes of a key, for every length. -/
theorem rhashtable_hash_bytes (keyLen : ℕ) (key : List UInt8) (h : keyLen ≤ key.length)
    (seed : UInt32) : rhashtableHash keyLen key seed = jhash (key.take keyLen) seed := by
  have hand : keyLen &&& 3 = keyLen % 4 := Nat.and_two_pow_sub_one_eq_mod keyLen 2
  rw [rhashtableHash, hand]
  by_cases hwords : keyLen % 4 = 0
  · have hlen : (key.take keyLen).length = 4 * (keyLen / 4) := by
      rw [List.length_take]
      omega
    rw [if_pos hwords, ← jhash2_keyWords hlen, take_keyWords _ _ (by omega),
      Nat.mul_div_cancel' (Nat.dvd_of_mod_eq_zero hwords)]
  · rw [if_neg hwords]

theorem rhashtable_hash_bytes_words :
    rhashtableHash 8 [0x44, 0x33, 0x22, 0x11, 0x88, 0x77, 0x66, 0x55, 0xff] 7 =
      jhash [0x44, 0x33, 0x22, 0x11, 0x88, 0x77, 0x66, 0x55] 7 :=
  rhashtable_hash_bytes 8 [0x44, 0x33, 0x22, 0x11, 0x88, 0x77, 0x66, 0x55, 0xff] (by decide) 7

/-- The hashes of one to three words are those of keys of so many words. -/
theorem jhash_few_words (a b c initval : UInt32) :
    jhash3Words a b c initval = jhash2 [a, b, c] initval ∧
      jhash2Words a b initval = jhash2 [a, b] initval ∧
      jhash1Word a initval = jhash2 [a] initval := by
  have hswap (x y : UInt32) : initval + x + y = x + y + initval := by
    rw [UInt32.add_assoc, UInt32.add_comm]
  refine ⟨?_, ?_, ?_⟩
  · rw [jhash3Words, jhashNwords, hswap, UInt32.add_comm a, UInt32.add_comm b, UInt32.add_comm c]
    rfl
  · rw [jhash2Words, jhashNwords, hswap, UInt32.add_comm a, UInt32.add_comm b, UInt32.zero_add]
    rfl
  · rw [jhash1Word, jhashNwords, hswap, UInt32.add_comm a, UInt32.zero_add]
    rfl

end Subvol

import CppExperiments.Hash.Sha1
import Mathlib.Order.Bounds.Defs

/-!
# The two compressions agree

The 32-bit words of the new `sha1` are the bitsets of the old one: `UInt32.toBitVec` commutes
with the schedule, with each round and with the printing of the digest.
-/

namespace CppExperiments.Hash

@[simp] lemma Old.add_eq (x y : BitVec 32) : Old.add x y = x + y := rfl

lemma toBitVec_rotateLeft_one (x : UInt32) : (rotateLeft x 1).toBitVec = Old.rotateLeft x.toBitVec 1 := rfl

lemma toBitVec_rotateLeft_five (x : UInt32) : (rotateLeft x 5).toBitVec = Old.rotateLeft x.toBitVec 5 := rfl

lemma toBitVec_rotateLeft_thirty (x : UInt32) :
    (rotateLeft x 30).toBitVec = Old.rotateLeft x.toBitVec 30 := rfl

lemma toBitVec_getD (word : List UInt32) (j : Nat) :
    (word.getD j 0).toBitVec = (word.map UInt32.toBitVec).getD j 0 := by
  rw [show (0 : BitVec 32) = (0 : UInt32).toBitVec from rfl, List.getD_map]

lemma map_expandWords (word : List UInt32) :
    (expandWords word).map UInt32.toBitVec = Old.expandWords (word.map UInt32.toBitVec) := by
  unfold expandWords Old.expandWords
  refine (List.foldl_hom (List.map UInt32.toBitVec) ?_).symm
  intro word j
  simp only [List.map_append, List.map_cons, List.map_nil, toBitVec_rotateLeft_one, UInt32.toBitVec_xor,
    toBitVec_getD]

lemma map_sha1Round (word : List UInt32) (r : Regs UInt32) (j : Nat) :
    (sha1Round word r j).map UInt32.toBitVec =
      Old.sha1Round (word.map UInt32.toBitVec) (r.map UInt32.toBitVec) j := by
  unfold sha1Round Old.sha1Round
  by_cases h20 : j < 20
  · simp only [h20, if_true, Regs.map, UInt32.toBitVec_add, toBitVec_rotateLeft_five,
      toBitVec_rotateLeft_thirty, toBitVec_getD, Old.add_eq]
    rfl
  by_cases h40 : j < 40
  · simp only [h20, h40, if_true, if_false, Regs.map, UInt32.toBitVec_add, toBitVec_rotateLeft_five,
      toBitVec_rotateLeft_thirty, toBitVec_getD, Old.add_eq]
    rfl
  by_cases h60 : j < 60
  · simp only [h20, h40, h60, if_true, if_false, Regs.map, UInt32.toBitVec_add, toBitVec_rotateLeft_five,
      toBitVec_rotateLeft_thirty, toBitVec_getD, Old.add_eq]
    rfl
  · simp only [h20, h40, h60, if_false, Regs.map, UInt32.toBitVec_add, toBitVec_rotateLeft_five,
      toBitVec_rotateLeft_thirty, toBitVec_getD, Old.add_eq]
    rfl

def chunkBitWords (chunk : Vector UInt8 64) : List (BitVec 32) :=
  Old.expandWords ((List.range 16).map (fun j => (chunkWord chunk j).toBitVec))

lemma map_sha1Chunk (h : Regs UInt32) (chunk : Vector UInt8 64) :
    (sha1Chunk h chunk).map UInt32.toBitVec = Old.sha1Chunk (h.map UInt32.toBitVec) (chunkBitWords chunk) := by
  have hword : (expandWords ((List.range 16).map (chunkWord chunk))).map UInt32.toBitVec = chunkBitWords chunk := by
    rw [map_expandWords, List.map_map]
    rfl
  have hrounds : (List.range 80).foldl (Old.sha1Round (chunkBitWords chunk)) (h.map UInt32.toBitVec) =
      ((List.range 80).foldl (sha1Round (expandWords ((List.range 16).map (chunkWord chunk)))) h).map
        UInt32.toBitVec :=
    List.foldl_hom (Regs.map UInt32.toBitVec) (fun r j => by rw [map_sha1Round, hword])
  unfold sha1Chunk Old.sha1Chunk
  rw [hrounds]
  rfl

theorem foldl_sha1Chunk (chunks : List (Vector UInt8 64)) (h : Regs UInt32) :
    (chunks.foldl sha1Chunk h).map UInt32.toBitVec =
      (chunks.map chunkBitWords).foldl Old.sha1Chunk (h.map UInt32.toBitVec) := by
  induction chunks generalizing h with
  | nil => rfl
  | cons chunk chunks ih => rw [List.foldl_cons, ih, map_sha1Chunk, List.map_cons, List.foldl_cons]

/-! ## Words read from bits -/

lemma Old.getLsbD_chunkWord (bits : List Bool) (i j m : Nat) (hm : m < 32) :
    (Old.chunkWord bits i j).getLsbD m = bits.getD (i * 512 + j * 32 + (31 - m)) false := by
  have hfold : ∀ n ≤ 32, ((List.range n).foldl
      (fun w k => if bits.getD (i * 512 + j * 32 + k) false then w ||| 1#32 <<< (31 - k) else w) 0#32).getLsbD m =
      (decide (31 - m < n) && bits.getD (i * 512 + j * 32 + (31 - m)) false) := by
    intro n hn
    induction n with
    | zero => simp
    | succ n ih =>
      rw [List.range_succ, List.foldl_append, List.foldl_cons, List.foldl_nil]
      by_cases hm' : 31 - m = n
      · subst hm'
        have hm31 : 31 - (31 - m) = m := by omega
        cases hb : bits.getD (i * 512 + j * 32 + (31 - m)) false
        · rw [if_neg (by simp), ih (by omega), hb]
          simp
        · rw [if_pos rfl, hm31, BitVec.getLsbD_or]
          simp [hm]
      · have hone : (1#32 <<< (31 - n)).getLsbD m = false := by
          have : m ≠ 31 - n := by omega
          simp [hm]
          omega
        have hlt : decide (31 - m < n + 1) = decide (31 - m < n) := by
          apply decide_eq_decide.mpr
          omega
        rw [hlt, ← ih (by omega)]
        split
        · rw [BitVec.getLsbD_or, hone, Bool.or_false]
        · rfl
  have h := hfold 32 (le_refl _)
  rwa [decide_eq_true (by omega), Bool.true_and] at h

lemma getLsbD_byte_shift (b : UInt8) (q m : Nat) (hm : m < 32) :
    (b.toBitVec.setWidth 32 <<< (8 * q)).getLsbD m = (decide (m / 8 = q) && b.toNat.testBit (m % 8)) := by
  rw [BitVec.getLsbD_shiftLeft, BitVec.getLsbD_setWidth, decide_eq_true hm]
  by_cases hlow : m < 8 * q
  · have hne : m / 8 ≠ q := by omega
    simp [hlow, hne]
  by_cases heq : m / 8 = q
  · have hsub : m - 8 * q = m % 8 := by omega
    have hlt : m % 8 < 32 := by omega
    rw [hsub, decide_eq_false hlow, decide_eq_true hlt, decide_eq_true heq]
    simp only [Bool.not_false, Bool.and_true, Bool.true_and]
    rfl
  · have hbit : b.toBitVec.getLsbD (m - 8 * q) = false := BitVec.getLsbD_of_ge _ _ (by omega)
    simp [hbit, heq]

lemma chunkWord_getLsbD (chunk : Vector UInt8 64) (j m : Nat) (hm : m < 32) :
    (chunkWord chunk j).toBitVec.getLsbD m =
      (chunk.toList.getD (j * 4 + (31 - m) / 8) 0).toNat.testBit (7 - (31 - m) % 8) := by
  have hword : (chunkWord chunk j).toBitVec =
      (chunk.toList.getD (j * 4 + 0) 0).toBitVec.setWidth 32 <<< (8 * 3) |||
      (chunk.toList.getD (j * 4 + 1) 0).toBitVec.setWidth 32 <<< (8 * 2) |||
      (chunk.toList.getD (j * 4 + 2) 0).toBitVec.setWidth 32 <<< (8 * 1) |||
      (chunk.toList.getD (j * 4 + 3) 0).toBitVec.setWidth 32 <<< (8 * 0) := rfl
  have hbit : 7 - (31 - m) % 8 = m % 8 := by omega
  rw [hword]
  simp only [BitVec.getLsbD_or, getLsbD_byte_shift _ _ m hm, hbit]
  obtain h | h | h | h : m / 8 = 0 ∨ m / 8 = 1 ∨ m / 8 = 2 ∨ m / 8 = 3 := by omega
  · have hq : (31 - m) / 8 = 3 := by omega
    rw [hq]
    simp [h]
  · have hq : (31 - m) / 8 = 2 := by omega
    rw [hq]
    simp [h]
  · have hq : (31 - m) / 8 = 1 := by omega
    rw [hq]
    simp [h]
  · have hq : (31 - m) / 8 = 0 := by omega
    rw [hq]
    simp [h]

lemma flatMap_getD (chunks : List (Vector UInt8 64)) (i q : Nat) (hq : q < 64) (hi : i < chunks.length) :
    (chunks.flatMap Vector.toList).getD (64 * i + q) 0 = chunks[i].toList.getD q 0 := by
  induction chunks generalizing i with
  | nil => simp at hi
  | cons chunk chunks ih =>
    rw [List.flatMap_cons]
    cases i with
    | zero => rw [Nat.mul_zero, Nat.zero_add, List.getD_append _ _ _ _ (by simpa using hq)]; rfl
    | succ i =>
      have hidx : 64 * (i + 1) + q - chunk.toList.length = 64 * i + q := by simp; omega
      rw [List.getD_append_right _ _ _ _ (by simp; omega), hidx, ih i (by simpa using hi)]
      rfl

lemma length_flatMap_toList (chunks : List (Vector UInt8 64)) :
    (chunks.flatMap Vector.toList).length = 64 * chunks.length := by
  induction chunks with
  | nil => rfl
  | cons chunk chunks ih =>
    simp only [List.flatMap_cons, List.length_append, ih, Vector.length_toList, List.length_cons]
    ring

/-- The old version reads from the bits of a concatenation of chunks the words that the new
version reads from each chunk. -/
theorem Old.words_bitsOf (chunks : List (Vector UInt8 64)) :
    Old.words (bitsOf (chunks.flatMap Vector.toList)) = chunks.map chunkBitWords := by
  have hlen : (bitsOf (chunks.flatMap Vector.toList)).length / 512 = chunks.length := by
    rw [length_bitsOf, length_flatMap_toList]
    omega
  rw [Old.words, hlen]
  apply List.ext_getElem (by simp)
  intro i hi _
  have hic : i < chunks.length := by simpa using hi
  simp only [List.getElem_map, List.getElem_range, chunkBitWords]
  congr 1
  apply List.map_congr_left
  intro j hj
  have hj16 : j < 16 := by simpa using hj
  apply BitVec.eq_of_getLsbD_eq
  intro m hm
  have hpos : i * 512 + j * 32 + (31 - m) = 8 * (64 * i + (j * 4 + (31 - m) / 8)) + (31 - m) % 8 := by omega
  rw [Old.getLsbD_chunkWord _ _ _ _ hm, chunkWord_getLsbD _ _ _ hm, hpos,
    bitsOf_getD _ _ _ (by omega) (by rw [length_flatMap_toList]; omega), flatMap_getD _ _ _ (by omega) hic]

/-! ## The digest -/

def hexDigits (w n : Nat) : Bytes := (List.range w).reverse.map (fun i => x2c ((n >>> (i * 4)) &&& 0xF))

lemma hexDigits_succ (w n : Nat) : hexDigits (w + 1) n = hexDigits w (n / 16) ++ [x2c (n % 16)] := by
  have hshift : ∀ i, (n / 16) >>> (i * 4) = n >>> ((i + 1) * 4) := by
    intro i
    rw [show (16 : Nat) = 2 ^ 4 from rfl, ← Nat.shiftRight_eq_div_pow, ← Nat.shiftRight_add]
    congr 1
    ring
  have hlast : n &&& 0xF = n % 16 := Nat.and_two_pow_sub_one_eq_mod n 4
  rw [hexDigits, hexDigits, List.range_succ_eq_map, List.reverse_cons]
  simp [Function.comp_def, hshift, hlast]

lemma hexDigits_zero (w : Nat) : hexDigits w 0 = List.replicate w char0 := by
  induction w with
  | zero => rfl
  | succ w ih => rw [hexDigits_succ, Nat.zero_div, ih, List.replicate_succ']; rfl

lemma Old.hexPadded_eq (w n : Nat) (hn : n < 16 ^ (w + 1)) : Old.hexPadded (w + 1) n = hexDigits (w + 1) n := by
  induction w generalizing n with
  | zero =>
    have hlt : n < 16 := by simpa using hn
    rw [hexDigits_succ, Nat.div_eq_of_lt hlt, Nat.mod_eq_of_lt hlt, hexPadded, hexNumeral, dif_pos hlt]
    rfl
  | succ w ih =>
    by_cases hlt : n < 16
    · rw [hexDigits_succ, Nat.div_eq_of_lt hlt, Nat.mod_eq_of_lt hlt, hexPadded, hexNumeral, dif_pos hlt,
        hexDigits_zero]
      rfl
    · have hdiv : n / 16 < 16 ^ (w + 1) := by
        rw [Nat.div_lt_iff_lt_mul (by norm_num), ← Nat.pow_succ]
        exact hn
      rw [hexDigits_succ, ← ih _ hdiv, hexPadded, hexPadded, hexNumeral, dif_neg hlt, List.length_append,
        List.length_singleton, Nat.add_sub_add_right, List.append_assoc]

lemma x2s_eq (val : UInt32) : x2s val 8 = hexDigits 8 val.toNat := by
  have hstrip : ∀ out : Bytes, List.replicate (out.length - (out.dropWhile (· == char0)).length) char0 ++
      out.dropWhile (· == char0) = out := by
    intro out
    induction out with
    | nil => rfl
    | cons ch out ih =>
      by_cases hch : ch = char0
      · have hle : (out.dropWhile (· == char0)).length ≤ out.length := (List.dropWhile_suffix _).length_le
        rw [List.dropWhile_cons_of_pos (by simpa using hch), List.length_cons, Nat.succ_sub hle,
          List.replicate_succ, List.cons_append, ih, hch]
      · simp [List.dropWhile_cons_of_neg, hch]
  have hlen : (hexDigits 8 val.toNat).length = 8 := by simp [hexDigits]
  have hx2s : x2s val 8 = List.replicate (8 - (trimZeros (hexDigits 8 val.toNat)).length) char0 ++
      trimZeros (hexDigits 8 val.toNat) := rfl
  rw [hx2s, trimZeros]
  split
  · next hall =>
    have hrep : hexDigits 8 val.toNat = List.replicate 8 char0 :=
      List.eq_replicate_iff.mpr ⟨hlen, by simpa using hall⟩
    rw [hrep]
    rfl
  · have h := hstrip (hexDigits 8 val.toNat)
    rwa [hlen] at h

lemma digestText_eq (h : Regs UInt32) : digestText h = Old.digestText (h.map UInt32.toBitVec) := by
  have hpart : ∀ x : UInt32, x2s x 8 = Old.hexPadded 8 x.toBitVec.toNat := by
    intro x
    rw [x2s_eq, Old.hexPadded_eq 7 _ (lt_of_lt_of_eq x.toBitVec.isLt (by norm_num))]
    rfl
  simp [digestText, Old.digestText, Regs.map, hpart]

lemma digestBytes_eq (h : Regs UInt32) : digestBytes h = Old.digestBytes (h.map UInt32.toBitVec) := rfl

end CppExperiments.Hash

/-!
## Padding: the two versions of SHA-1 against the specification

`padded` is the message as SHA-1 pads it. The old version builds its bits for every message;
the feeder of the new version yields it exactly when the length, modulo 64, is less than 56 or
equal to 63.
-/

namespace CppExperiments.Hash

/-- The number of zero bytes between `0x80` and the length, for a message of `n` bytes. -/
def zeroCount (n : Nat) : Nat := (119 - n % 64) % 64

theorem zeroCount_isLeast (n : Nat) : IsLeast {z | (n + 1 + z) % 64 = 56} (zeroCount n) := by
  constructor
  · change (n + 1 + zeroCount n) % 64 = 56
    unfold zeroCount
    omega
  · intro z hz
    have hz' : (n + 1 + z) % 64 = 56 := hz
    unfold zeroCount
    omega

/-- The padded message: `0x80`, zeros up to 56 bytes modulo 64 and the bit length. -/
def padded (msg : Bytes) : Bytes :=
  msg ++ [0x80] ++ zeros (zeroCount msg.length) ++ beBytes 8 (8 * msg.length)

lemma lenField_eq {msg : Bytes} (h : 8 * msg.length < 2 ^ 64) : Fill.lenField msg = beBytes 8 (8 * msg.length) := by
  rw [Fill.lenField, Nat.mul_comm, Nat.mod_eq_of_lt h]

/-- The feeder yields the padded message unless the length field has to move to a chunk of
its own after the zeros have been written. -/
theorem fed_eq_padded_iff (msg : Bytes) (h : 8 * msg.length < 2 ^ 64) :
    (Sha1BlockFeeder.ofBytes msg).fed = padded msg ↔ msg.length % 64 < 56 ∨ msg.length % 64 = 63 := by
  have hfed := Sha1BlockFeeder.fed_copyBytes msg 0 (Nat.zero_le _) rfl
  rw [List.drop_zero, lenField_eq h] at hfed
  rw [Sha1BlockFeeder.ofBytes, hfed, Sha1BlockFeeder.feedPad, padded, zeroCount]
  by_cases hshort : msg.length % 64 < 56
  · have hz : (119 - msg.length % 64) % 64 = 55 - msg.length % 64 := by omega
    simp [hshort, hz]
  by_cases hfull : msg.length % 64 = 63
  · simp [hfull]
  · have hz : (119 - msg.length % 64) % 64 = (63 - msg.length % 64) + 56 := by omega
    have hlen : ofBeBytes (beBytes 8 (8 * msg.length)) ≠ 0 := by
      rw [ofBeBytes_beBytes, Nat.mod_eq_of_lt (lt_of_lt_of_eq h (by norm_num))]
      omega
    refine iff_of_false ?_ (by omega)
    intro heq
    simp only [hshort, hfull, if_false, hz, zeros_add, List.append_assoc, List.append_cancel_left_eq,
      List.cons_append, List.nil_append, List.cons.injEq, true_and] at heq
    have hfront : beBytes 8 (8 * msg.length) = zeros 8 := by
      have htake := congrArg (List.take 8) heq
      rwa [List.take_left' (length_beBytes ..)] at htake
    exact hlen (by rw [hfront]; rfl)

lemma messageBits_eq (raw : Bytes) : Old.messageBits raw = bitsOf raw := by
  have hbit : ∀ n i : Nat, decide ((n >>> i) &&& 1 = 1) = n.testBit i := by
    intro n i
    rw [Nat.testBit, Nat.and_comm, Nat.one_and_eq_mod_two]
    rcases Nat.mod_two_eq_zero_or_one (n >>> i) with h | h <;> simp [h]
  simp only [Old.messageBits, bitsOf, hbit]
  rfl

theorem bitString_eq (raw : Bytes) : Old.bitString raw = bitsOf (padded raw) := by
  have hzeros : (if (8 * raw.length + 1) % 512 ≤ 448 then 448 - (8 * raw.length + 1) % 512
      else (448 + 512) - (8 * raw.length + 1) % 512) = 7 + 8 * zeroCount raw.length := by
    unfold zeroCount
    split <;> omega
  have hbits : ∀ i ∈ (List.range 64).reverse,
      (BitVec.ofNat 64 (8 * raw.length)).getLsbD i = (8 * raw.length).testBit i := by
    intro i hi
    rw [BitVec.getLsbD_ofNat, decide_eq_true (by simpa using hi), Bool.true_and]
  have h80 : bitsOf [0x80] = true :: List.replicate 7 false := rfl
  unfold Old.bitString padded
  simp only [messageBits_eq, List.length_append, length_bitsOf, List.length_singleton, hzeros]
  rw [List.map_congr_left hbits, bitsOf_append, bitsOf_append, bitsOf_append, bitsOf_beBytes, bitsOf_zeros, h80,
    List.replicate_add]
  simp

theorem sha1_eq_of_fed {msg : Bytes} (hfed : (Sha1BlockFeeder.ofBytes msg).fed = padded msg)
    (asBytes : Bool) : sha1 msg asBytes = Old.sha1 msg asBytes := by
  have hregs : (sha1Regs msg).map UInt32.toBitVec = Old.sha1Regs msg := by
    rw [sha1Regs, foldl_sha1Chunk, Old.sha1Regs, bitString_eq msg, ← hfed, Sha1BlockFeeder.fed,
      Old.words_bitsOf]
    rfl
  rw [sha1, Old.sha1, digestBytes_eq, digestText_eq, hregs]

/-- The new version feeds the padded message, the old one builds its bits, and the digests are
the same in both output formats. -/
def PadsAlike (msg : Bytes) : Prop :=
  (Sha1BlockFeeder.ofBytes msg).fed = padded msg ∧ Old.bitString msg = bitsOf (padded msg) ∧
    ∀ asBytes, sha1 msg asBytes = Old.sha1 msg asBytes

/-- The two versions of SHA-1 pad alike exactly on the messages whose length, modulo 64, is
not between 56 and 62. -/
theorem padsAlike_iff (msg : Bytes) (h : 8 * msg.length < 2 ^ 64) :
    PadsAlike msg ↔ msg.length % 64 < 56 ∨ msg.length % 64 = 63 := by
  rw [← fed_eq_padded_iff msg h]
  exact ⟨fun hp => hp.1, fun hfed => ⟨hfed, bitString_eq msg, sha1_eq_of_fed hfed⟩⟩

theorem padsAlike_iff_abc : PadsAlike [0x61, 0x62, 0x63] ↔ 3 % 64 < 56 ∨ 3 % 64 = 63 :=
  padsAlike_iff [0x61, 0x62, 0x63] (by decide)

/-- On 56 zero bytes the length field stands at the front of the second chunk. -/
theorem not_padsAlike_56 : ¬ ∀ msg : Bytes, 8 * msg.length < 2 ^ 64 → PadsAlike msg := by
  intro hall
  have hlen : 8 * (zeros 56).length < 2 ^ 64 := by decide
  have hmod := (fed_eq_padded_iff (zeros 56) hlen).mp (hall (zeros 56) hlen).1
  simp at hmod

end CppExperiments.Hash

/-!
## Digests of closed texts

The compression on natural numbers, where a digest is evaluated. The words are expanded with the last one in front.
-/

namespace CppExperiments.Hash.OnNat

def rotateLeft (b shift : Nat) : Nat := b <<< shift % 2 ^ 32 ||| b >>> (32 - shift)

def nextWord (words : List Nat) : Nat :=
  rotateLeft (words.getD 2 0 ^^^ words.getD 7 0 ^^^ words.getD 13 0 ^^^ words.getD 15 0) 1

def expandWords : Nat → List Nat → List Nat
  | 0, words => words
  | n + 1, words => expandWords n (nextWord words :: words)

def sha1Round (word : List Nat) (r : Regs Nat) (j : Nat) : Regs Nat :=
  let (k, f) : Nat × Nat :=
    if j < 20 then (0x5A827999, (r.b &&& r.c) ||| ((2 ^ 32 - 1 - r.b) &&& r.d))
    else if j < 40 then (0x6ED9EBA1, r.b ^^^ r.c ^^^ r.d)
    else if j < 60 then (0x8F1BBCDC, (r.b &&& r.c) ||| (r.b &&& r.d) ||| (r.c &&& r.d))
    else (0xCA62C1D6, r.b ^^^ r.c ^^^ r.d)
  let temp := ((((rotateLeft r.a 5 + f) % 2 ^ 32 + r.e) % 2 ^ 32 + k) % 2 ^ 32 + word.getD j 0) % 2 ^ 32
  ⟨temp, r.a, rotateLeft r.b 30, r.c, r.d⟩

def sha1Chunk (h : Regs Nat) (words : List Nat) : Regs Nat :=
  let word := (expandWords 64 words.reverse).reverse
  let r := (List.range 80).foldl (sha1Round word) h
  ⟨(h.a + r.a) % 2 ^ 32, (h.b + r.b) % 2 ^ 32, (h.c + r.c) % 2 ^ 32, (h.d + r.d) % 2 ^ 32, (h.e + r.e) % 2 ^ 32⟩

/-- A message with what the feeder appends to it. -/
def fed (raw : Bytes) : Bytes :=
  raw ++ (Sha1BlockFeeder.feedPad raw.length).1 ++ Fill.lenField raw ++ (Sha1BlockFeeder.feedPad raw.length).2

def word (b₀ b₁ b₂ b₃ : UInt8) : Nat :=
  b₀.toNat <<< 24 % 2 ^ 32 ||| b₁.toNat <<< 16 % 2 ^ 32 ||| b₂.toNat <<< 8 % 2 ^ 32 ||| b₃.toNat

def words : Bytes → List Nat
  | b₀ :: b₁ :: b₂ :: b₃ :: rest => word b₀ b₁ b₂ b₃ :: words rest
  | _ => []

def sha1Regs (raw : Bytes) : Regs Nat :=
  ((List.range ((fed raw).length / 64)).map fun i => words (((fed raw).drop (64 * i)).take 64)).foldl sha1Chunk
    (sha1Init.map UInt32.toNat)

lemma toNat_rotateLeft_one (x : UInt32) : (Hash.rotateLeft x 1).toNat = rotateLeft x.toNat 1 := rfl

lemma toNat_rotateLeft_five (x : UInt32) : (Hash.rotateLeft x 5).toNat = rotateLeft x.toNat 5 := rfl

lemma toNat_rotateLeft_thirty (x : UInt32) : (Hash.rotateLeft x 30).toNat = rotateLeft x.toNat 30 := rfl

lemma toNat_getD (word : List UInt32) (j : Nat) : (word.getD j 0).toNat = (word.map UInt32.toNat).getD j 0 := by
  rw [show (0 : Nat) = (0 : UInt32).toNat from rfl, List.getD_map]

lemma nextWord_reverse (word : List UInt32) (h : 16 ≤ word.length) :
    nextWord (word.map UInt32.toNat).reverse = (Hash.rotateLeft (word.getD (word.length - 3) 0 ^^^
      word.getD (word.length - 8) 0 ^^^ word.getD (word.length - 14) 0 ^^^ word.getD (word.length - 16) 0) 1).toNat := by
  have hget : ∀ i < 16, (word.map UInt32.toNat).reverse.getD i 0 = (word.getD (word.length - (i + 1)) 0).toNat := by
    intro i hi
    have hlt : i < (word.map UInt32.toNat).length := by
      rw [List.length_map]
      omega
    have hsub : word.length - 1 - i = word.length - (i + 1) := by omega
    rw [List.getD_reverse i hlt, toNat_getD, List.length_map, hsub]
  rw [nextWord, hget 2 (by decide), hget 7 (by decide), hget 13 (by decide), hget 15 (by decide), ← UInt32.toNat_xor,
    ← UInt32.toNat_xor, ← UInt32.toNat_xor, toNat_rotateLeft_one]

lemma expandWords_reverse (n : Nat) (word : List UInt32) (h : 16 ≤ word.length) :
    (expandWords n (word.map UInt32.toNat).reverse).reverse =
      ((List.range' word.length n).foldl (fun word j => word ++ [Hash.rotateLeft
        (word.getD (j - 3) 0 ^^^ word.getD (j - 8) 0 ^^^ word.getD (j - 14) 0 ^^^ word.getD (j - 16) 0) 1]) word).map
          UInt32.toNat := by
  induction n generalizing word with
  | zero =>
    rw [expandWords, List.reverse_reverse]
    rfl
  | succ n ih =>
    have hnext := ih (word ++ [Hash.rotateLeft (word.getD (word.length - 3) 0 ^^^ word.getD (word.length - 8) 0 ^^^
      word.getD (word.length - 14) 0 ^^^ word.getD (word.length - 16) 0) 1]) (by rw [List.length_append]; omega)
    rw [List.map_append, List.reverse_append, List.length_append] at hnext
    rw [expandWords, nextWord_reverse word h, List.range'_succ, List.foldl_cons]
    exact hnext

lemma map_sha1Round (word : List UInt32) (r : Regs UInt32) (j : Nat) :
    (Hash.sha1Round word r j).map UInt32.toNat = sha1Round (word.map UInt32.toNat) (r.map UInt32.toNat) j := by
  unfold Hash.sha1Round sha1Round
  by_cases h20 : j < 20
  · simp only [h20, if_true, Regs.map, UInt32.toNat_add, UInt32.toNat_or, UInt32.toNat_and, UInt32.toNat_not,
      toNat_rotateLeft_five, toNat_rotateLeft_thirty, toNat_getD]
    rfl
  by_cases h40 : j < 40
  · simp only [h20, h40, if_true, if_false, Regs.map, UInt32.toNat_add, toNat_rotateLeft_five,
      toNat_rotateLeft_thirty, toNat_getD]
    rfl
  by_cases h60 : j < 60
  · simp only [h20, h40, h60, if_true, if_false, Regs.map, UInt32.toNat_add, toNat_rotateLeft_five,
      toNat_rotateLeft_thirty, toNat_getD]
    rfl
  · simp only [h20, h40, h60, if_false, Regs.map, UInt32.toNat_add, toNat_rotateLeft_five,
      toNat_rotateLeft_thirty, toNat_getD]
    rfl

lemma map_sha1Chunk (h : Regs UInt32) (chunk : Vector UInt8 64) :
    (Hash.sha1Chunk h chunk).map UInt32.toNat =
      sha1Chunk (h.map UInt32.toNat) ((List.range 16).map fun j => (chunkWord chunk j).toNat) := by
  have hword : (expandWords 64 ((List.range 16).map fun j => (chunkWord chunk j).toNat).reverse).reverse =
      (Hash.expandWords ((List.range 16).map (chunkWord chunk))).map UInt32.toNat := by
    have hreverse := expandWords_reverse 64 ((List.range 16).map (chunkWord chunk))
      (by rw [List.length_map, List.length_range])
    rw [List.map_map, List.length_map, List.length_range] at hreverse
    exact hreverse
  have hrounds : (List.range 80).foldl (sha1Round ((Hash.expandWords ((List.range 16).map (chunkWord chunk))).map
      UInt32.toNat)) (h.map UInt32.toNat) =
        ((List.range 80).foldl (Hash.sha1Round (Hash.expandWords ((List.range 16).map (chunkWord chunk)))) h).map
          UInt32.toNat :=
    List.foldl_hom (Regs.map UInt32.toNat) (fun r j => (map_sha1Round _ r j).symm)
  unfold Hash.sha1Chunk sha1Chunk
  dsimp only
  rw [hword, hrounds]
  simp only [Regs.map, UInt32.toNat_add]

lemma map_toNat_injective : Function.Injective (Regs.map UInt32.toNat) := by
  rintro ⟨a, b, c, d, e⟩ ⟨a', b', c', d', e'⟩ h
  obtain ⟨ha, hb, hc, hd, he⟩ := Regs.mk.inj h
  obtain rfl := UInt32.toNat_inj.1 ha
  obtain rfl := UInt32.toNat_inj.1 hb
  obtain rfl := UInt32.toNat_inj.1 hc
  obtain rfl := UInt32.toNat_inj.1 hd
  obtain rfl := UInt32.toNat_inj.1 he
  rfl

lemma toNat_chunkWord (chunk : Vector UInt8 64) (j : Nat) :
    (chunkWord chunk j).toNat = word (chunk.toList.getD (j * 4 + 0) 0) (chunk.toList.getD (j * 4 + 1) 0)
      (chunk.toList.getD (j * 4 + 2) 0) (chunk.toList.getD (j * 4 + 3) 0) := by
  rw [chunkWord, word, UInt32.toNat_or, UInt32.toNat_or, UInt32.toNat_or, UInt32.toNat_shiftLeft, UInt32.toNat_shiftLeft,
    UInt32.toNat_shiftLeft, UInt32.toNat_shiftLeft]
  have hsmall : ∀ b : UInt8, b.toNat <<< 0 % 2 ^ 32 = b.toNat := fun b =>
    Nat.mod_eq_of_lt (b.toNat_lt.trans (by decide))
  exact congrArg (_ ||| ·) (hsmall _)

lemma words_eq (n : Nat) (bytes : Bytes) (h : bytes.length = 4 * n) : words bytes = (List.range n).map fun j =>
    word (bytes.getD (j * 4 + 0) 0) (bytes.getD (j * 4 + 1) 0) (bytes.getD (j * 4 + 2) 0) (bytes.getD (j * 4 + 3) 0) := by
  induction n generalizing bytes with
  | zero =>
    obtain rfl := List.length_eq_zero_iff.1 h
    rfl
  | succ n ih =>
    match bytes, h with
    | b₀ :: b₁ :: b₂ :: b₃ :: rest, h =>
      have hrest : rest.length = 4 * n := Nat.add_right_cancel (m := 4) h
      rw [words, ih rest hrest, List.range_succ_eq_map, List.map_cons, List.map_map]
      refine congrArg (List.cons _) (List.map_congr_left fun j _ => ?_)
      have hsucc : Nat.succ j * 4 = j * 4 + 4 := Nat.succ_mul j 4
      rw [Function.comp_apply, hsucc]
      rfl

/-- The words of the chunks that are fed. -/
lemma map_words (chunks : List (Vector UInt8 64)) :
    ((List.range chunks.length).map fun i => words (((chunks.flatMap Vector.toList).drop (64 * i)).take 64)) =
      chunks.map fun chunk => (List.range 16).map fun j => (chunkWord chunk j).toNat := by
  induction chunks with
  | nil => rfl
  | cons chunk chunks ih =>
    have hlength : chunk.toList.length = 64 := Vector.length_toList
    rw [List.length_cons, List.range_succ_eq_map, List.map_cons, List.map_cons, List.map_map, List.flatMap_cons, ← ih]
    congr 1
    · rw [Nat.mul_zero, List.drop_zero, List.take_left' hlength, words_eq 16 _ hlength]
      exact List.map_congr_left fun j _ => (toNat_chunkWord chunk j).symm
    · refine List.map_congr_left fun i _ => ?_
      have hsucc : 64 * Nat.succ i = chunk.toList.length + 64 * i := by
        rw [hlength, Nat.mul_succ, Nat.add_comm]
      rw [Function.comp_apply, hsucc, List.drop_length_add_append]

/-- The registers that are evaluated are the ones of the digest. -/
theorem sha1Regs_eq {raw : Bytes} {r : Regs UInt32} (h : sha1Regs raw = r.map UInt32.toNat) : Hash.sha1Regs raw = r := by
  have hfed : fed raw = (Sha1BlockFeeder.ofBytes raw).blocks.flatMap Vector.toList := by
    have hcopy := Sha1BlockFeeder.fed_copyBytes raw 0 (Nat.zero_le _) rfl
    rw [List.drop_zero] at hcopy
    exact hcopy.symm
  have hlength : (fed raw).length / 64 = (Sha1BlockFeeder.ofBytes raw).blocks.length := by
    rw [hfed, length_flatMap_toList, Nat.mul_div_cancel_left _ (by decide)]
  apply map_toNat_injective
  rw [← h, sha1Regs, Hash.sha1Regs, hlength, hfed, map_words, List.foldl_map]
  exact (List.foldl_hom (Regs.map UInt32.toNat) fun r chunk => (map_sha1Chunk r chunk).symm).symm

end CppExperiments.Hash.OnNat

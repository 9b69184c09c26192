import CppExperiments.Csv.Lines
import CppExperiments.Lib.Words

/-!
# A spell checker

The Bloom filter, the file it is kept in, how it is built from a dictionary, and the loop that checks a text.
-/

namespace CppExperiments.Spellcheck

structure BloomFilter where
  M : Int32
  K : Int32
  bitset : List Bool
  deriving DecidableEq

def fnvOffset : UInt64 := 14695981039346656037

def fnvPrime : UInt64 := 1099511628211

/-- A `char` as a number of 64 bits. -/
def charU64 (ch : UInt8) : UInt64 := if ch < 128 then ch.toUInt64 else ch.toUInt64 + 0xFFFFFFFFFFFFFF00

def fnv1 (word : Bytes) : UInt64 := word.foldl (fun hash ch => (hash * fnvPrime) ^^^ charU64 ch) fnvOffset

def fnv1a (word : Bytes) : UInt64 := word.foldl (fun hash ch => (hash ^^^ charU64 ch) * fnvPrime) fnvOffset

/-- An int as a number of 64 bits. -/
def intU64 (x : Int32) : UInt64 := UInt64.ofInt x.toInt

/-- The positions of a word. -/
def generateHashes (M K : Int32) (word : Bytes) : List Nat :=
  (List.range K.toInt.toNat).map fun i => ((fnv1 word + UInt64.ofNat i * fnv1a word) % intU64 M).toNat

namespace BloomFilter

def init (M K : Int32) : BloomFilter := ⟨M, K, List.replicate (intU64 M).toNat false⟩

def insert (bf : BloomFilter) (word : Bytes) : BloomFilter :=
  { bf with bitset := (generateHashes bf.M bf.K word).foldl (fun bits pos => bits.set pos true) bf.bitset }

def check (bf : BloomFilter) (word : Bytes) : Bool :=
  (generateHashes bf.M bf.K word).all fun pos => bf.bitset.getD pos false

/-- The filter of these sizes with some words. The program takes the sizes from the number of the words. -/
def ofWords (M K : Int32) (words : List Bytes) : BloomFilter := words.foldl insert (init M K)

end BloomFilter

/-! ## The file -/

/-- The float 0.1. -/
def version : Bytes := [0xCD, 0xCC, 0xCC, 0x3D]

def intBytes (x : Int32) : Bytes := leBytes 4 x.toUInt32.toNat

def intOf (bs : Bytes) : Int32 := (UInt32.ofNat (ofLeBytes bs)).toInt32

/-- The bytes of some bits behind those that are in the buffer already. -/
def pack (bitbuffer : UInt8) (bitsProcessed : Nat) : List Bool → Bytes
  | [] => if bitsProcessed ≠ 0 then [bitbuffer <<< UInt8.ofNat (8 - bitsProcessed)] else []
  | bit :: bits =>
    if bitsProcessed + 1 = 8 then (bitbuffer <<< 1 ||| bit.toUInt8) :: pack 0 0 bits
    else pack (bitbuffer <<< 1 ||| bit.toUInt8) (bitsProcessed + 1) bits

def dump (bf : BloomFilter) : Bytes :=
  ascii "BLOOM" ++ version ++ intBytes bf.M ++ intBytes bf.K ++
    pack 0 0 ((List.range (intU64 bf.M).toNat).map fun i => bf.bitset.getD i false)

/-- The bits of a byte from these on, up to the last one of all. -/
def unpackByte (M : Int32) (bitbuffer : UInt8) : List Nat → Int × List Bool → Int × List Bool
  | [], s => s
  | i :: is, s =>
    if s.1 + 1 = M.toInt then (s.1 + 1, s.2 ++ [bitbuffer.toNat.testBit i])
    else unpackByte M bitbuffer is (s.1 + 1, s.2 ++ [bitbuffer.toNat.testBit i])

def unpack (M : Int32) (bytes : Bytes) : List Bool :=
  (bytes.foldl (fun s bitbuffer => unpackByte M bitbuffer (List.range 8).reverse s) (0, [])).2

/-- The filter in a file; `none` where the program exits, or where the file ends within the sizes. The header is
compared as a string with what stands behind its array in memory. -/
def load (behind file : Bytes) : Option BloomFilter :=
  if (file.take 5 ++ behind).takeWhile (· != 0) ≠ ascii "BLOOM" ∧ (file.drop 5).take 4 ≠ version then none
  else if file.length < 17 then none
  else
    some {
      M := intOf ((file.drop 9).take 4)
      K := intOf ((file.drop 13).take 4)
      bitset := unpack (intOf ((file.drop 9).take 4)) (file.drop 17) }

/-! ## Words -/

/-- The words of a dictionary, as they are spelled; the lower case that is made of them is not used. `none` where a line
without a character has its last one taken away. -/
def readWords (is : Bytes) : Option (List Bytes) :=
  match _h : Csv.getline is with
  | none => some []
  | some (buffer, rest) =>
    if buffer = [] then none
    else (readWords rest).map fun words =>
      if buffer.dropLast ≠ [] ∧ buffer.dropLast.any isSpace = false then buffer.dropLast :: words else words
  termination_by is.length
  decreasing_by exact Csv.length_rest_of_getline _h

def build (M K : Int32) (text : Bytes) : Option Bytes :=
  (readWords text).map fun words => dump (BloomFilter.ofWords M K words)

def isPunct (b : UInt8) : Bool :=
  decide (33 ≤ b ∧ b ≤ 47) || decide (58 ≤ b ∧ b ≤ 64) || decide (91 ≤ b ∧ b ≤ 96) || decide (123 ≤ b ∧ b ≤ 126)

/-- A word as it is looked for. -/
def normal (buffer : Bytes) : Bytes := (buffer.filter (!isPunct ·)).map toLower

/-- The words that the loop reports. -/
def misspelt (bf : BloomFilter) (text : Bytes) : List Bytes :=
  (wordsOf text).filter fun buffer => !bf.check (normal buffer)

end CppExperiments.Spellcheck

/-!
## Words of a dictionary that are found again

The bits of a filter come back from its file. A word is found where its lower case has the positions of words that
were inserted, and these are inserted as they are spelled.
-/

namespace CppExperiments.Spellcheck

variable {bits : List Bool} {bitbuffer : UInt8} {M K : Int32} {n i pos : Nat} {bytes word : Bytes} {words : List Bytes}
  {bf : BloomFilter}

/-! ## Bits -/

/-- The bits that were put into a byte, the last one at its low end. -/
def lowBits (n : Nat) (bitbuffer : UInt8) : List Bool := (List.range n).reverse.map fun i => bitbuffer.toNat.testBit i

lemma toNat_shift (hn : n < 8) (h : bitbuffer.toNat < 2 ^ n) (bit : Bool) :
    (bitbuffer <<< 1 ||| bit.toUInt8).toNat = 2 * bitbuffer.toNat + bit.toNat := by
  have hpow : 2 ^ n ≤ 2 ^ 7 := Nat.pow_le_pow_right (by decide) (by omega)
  have hshift : (bitbuffer <<< 1).toNat = 2 ^ 1 * bitbuffer.toNat := by
    rw [UInt8.toNat_shiftLeft, Nat.shiftLeft_eq, Nat.mod_eq_of_lt]
    · exact Nat.mul_comm ..
    · have hone : (1 : UInt8).toNat % 8 = 1 := rfl
      rw [hone]
      omega
  have hbit : bit.toUInt8.toNat = bit.toNat := by cases bit <;> rfl
  rw [UInt8.toNat_or, hshift, hbit, ← Nat.two_pow_add_eq_or_of_lt (by cases bit <;> decide), Nat.pow_one]

lemma lowBits_shift (hn : n < 8) (h : bitbuffer.toNat < 2 ^ n) (bit : Bool) :
    lowBits (n + 1) (bitbuffer <<< 1 ||| bit.toUInt8) = lowBits n bitbuffer ++ [bit] := by
  rw [lowBits, toNat_shift hn h, List.range_succ_eq_map, List.reverse_cons, List.map_append, ← List.map_reverse,
    List.map_map, List.map_singleton, lowBits]
  congr 1
  · refine List.map_congr_left fun i _ => ?_
    rw [Function.comp_apply, Nat.testBit_succ]
    congr 1
    cases bit <;> simp only [Bool.toNat_false, Bool.toNat_true] <;> omega
  · cases bit <;> simp

lemma bitsOfByte_shift (hn : n ≤ 8) (h : bitbuffer.toNat < 2 ^ n) (hpos : 0 < n) :
    bitsOfByte (bitbuffer <<< UInt8.ofNat (8 - n)) = lowBits n bitbuffer ++ List.replicate (8 - n) false := by
  have hshift : (bitbuffer <<< UInt8.ofNat (8 - n)).toNat = bitbuffer.toNat <<< (8 - n) := by
    have hmod : (UInt8.ofNat (8 - n)).toNat % 8 = 8 - n := by
      rw [UInt8.toNat_ofNat']
      omega
    have hlt : bitbuffer.toNat * 2 ^ (8 - n) < 2 ^ 8 := by
      calc bitbuffer.toNat * 2 ^ (8 - n) < 2 ^ n * 2 ^ (8 - n) := Nat.mul_lt_mul_of_pos_right h (Nat.two_pow_pos _)
        _ = 2 ^ 8 := by rw [← Nat.pow_add, Nat.add_sub_cancel' hn]
    rw [UInt8.toNat_shiftLeft, hmod, Nat.shiftLeft_eq, Nat.mod_eq_of_lt hlt]
  have hrange : List.range 8 = List.range (8 - n) ++ (List.range n).map (8 - n + ·) := by
    rw [← List.range_add, Nat.sub_add_cancel hn]
  rw [bitsOfByte, hshift, hrange, List.reverse_append, List.map_append, ← List.map_reverse, List.map_map, lowBits]
  congr 1
  · refine List.map_congr_left fun i _ => ?_
    rw [Function.comp_apply, Nat.testBit_shiftLeft, decide_eq_true (Nat.le_add_right _ _), Bool.true_and,
      Nat.add_sub_cancel_left]
  · refine List.eq_replicate_iff.2 ⟨by simp, fun b hb => ?_⟩
    obtain ⟨i, hi, rfl⟩ := List.mem_map.1 hb
    rw [List.mem_reverse, List.mem_range] at hi
    rw [Nat.testBit_shiftLeft, decide_eq_false (by omega), Bool.false_and]

/-- The bits are in the bytes, and fewer than eight behind them. -/
lemma bitsOf_pack (hn : n < 8) (h : bitbuffer.toNat < 2 ^ n) (bits : List Bool) :
    ∃ pad < 8, bitsOf (pack bitbuffer n bits) = lowBits n bitbuffer ++ bits ++ List.replicate pad false := by
  induction bits generalizing n bitbuffer with
  | nil =>
    rw [pack]
    by_cases hzero : n = 0
    · refine ⟨0, by decide, ?_⟩
      rw [if_neg (not_not.2 hzero), hzero]
      rfl
    · refine ⟨8 - n, by omega, ?_⟩
      rw [if_pos hzero, bitsOf_cons, bitsOfByte_shift hn.le h (Nat.pos_of_ne_zero hzero), bitsOf_nil, List.append_nil,
        List.append_nil]
  | cons bit bits ih =>
    have hlt : (bitbuffer <<< 1 ||| bit.toUInt8).toNat < 2 ^ (n + 1) := by
      have hbit := bit.toNat_lt
      rw [toNat_shift hn h, Nat.pow_succ]
      omega
    rw [pack]
    by_cases hfull : n + 1 = 8
    · obtain ⟨pad, hpad, hbits⟩ := @ih 0 0 (by decide) (by decide)
      refine ⟨pad, hpad, ?_⟩
      have hbyte : bitsOfByte (bitbuffer <<< 1 ||| bit.toUInt8) = lowBits n bitbuffer ++ [bit] := by
        rw [← lowBits_shift hn h, hfull]
        rfl
      rw [if_pos hfull, bitsOf_cons, hbits, hbyte, List.append_assoc, List.append_assoc, List.append_assoc]
      rfl
    · obtain ⟨pad, hpad, hbits⟩ := ih (by omega) hlt
      refine ⟨pad, hpad, ?_⟩
      rw [if_neg hfull, hbits, lowBits_shift hn h, List.append_assoc (lowBits n bitbuffer)]
      rfl

lemma unpackByte_eq (bitbuffer : UInt8) (left : Nat) (hleft : 0 < left) (is : List Nat) (s : Int × List Bool)
    (hs : s.1 + left = M.toInt) : unpackByte M bitbuffer is s =
      (s.1 + (min is.length left : Nat), s.2 ++ (is.map fun i => bitbuffer.toNat.testBit i).take left) := by
  induction is generalizing left s with
  | nil => simp [unpackByte]
  | cons i is ih =>
    obtain ⟨left, rfl⟩ := Nat.exists_eq_add_of_le' hleft
    rw [unpackByte]
    by_cases hlast : s.1 + 1 = M.toInt
    · obtain rfl : left = 0 := by omega
      rw [if_pos hlast]
      simp
    · rw [if_neg hlast, ih left (by omega) _ (by dsimp only; omega)]
      dsimp only
      rw [List.length_cons, List.map_cons, List.take_succ_cons, ← List.append_cons, Nat.add_min_add_right]
      congr 1
      push_cast
      ring

/-- As many bits as the filter has are read, where the last of them is in the last byte. -/
lemma foldl_unpackByte (left : Nat) (s : Int × List Bool) (hs : s.1 + left = M.toInt) (hle : left ≤ 8 * bytes.length)
    (hlt : bytes ≠ [] → 8 * (bytes.length - 1) < left) :
    (bytes.foldl (fun s bitbuffer => unpackByte M bitbuffer (List.range 8).reverse s) s).2 =
      s.2 ++ (bitsOf bytes).take left := by
  induction bytes generalizing left s with
  | nil => simp
  | cons bitbuffer bytes ih =>
    rw [List.length_cons] at hle hlt
    have hlt := hlt (List.cons_ne_nil _ _)
    rw [List.foldl_cons, unpackByte_eq bitbuffer left (by omega) _ _ hs, List.length_reverse, List.length_range]
    have hbits : ((List.range 8).reverse.map fun i => bitbuffer.toNat.testBit i) = bitsOfByte bitbuffer := rfl
    rw [hbits, ih (left - 8) _ (by dsimp only; omega) (by omega) (fun hne => ?_), bitsOf_cons,
      List.append_assoc, List.take_append, length_bitsOfByte]
    have := List.length_pos_iff.2 hne
    omega

lemma unpack_pack (h : (bits.length : Int) = M.toInt) : unpack M (pack 0 0 bits) = bits := by
  obtain ⟨pad, hpad, hbits⟩ := bitsOf_pack (n := 0) (by decide) (show (0 : UInt8).toNat < 2 ^ 0 by decide) bits
  have hlow : lowBits 0 0 = [] := rfl
  rw [hlow, List.nil_append] at hbits
  have hlen := congrArg List.length hbits
  rw [length_bitsOf, List.length_append, List.length_replicate] at hlen
  rw [unpack, foldl_unpackByte bits.length _ (by simpa using h) (by omega) (fun hne => ?_), hbits,
    List.nil_append, List.take_left' rfl]
  have := List.length_pos_iff.2 hne
  omega

/-! ## The file -/

lemma intOf_intBytes (x : Int32) : intOf (intBytes x) = x := by
  have hlt := x.toUInt32.toNat_lt
  rw [intOf, intBytes, ofLeBytes_leBytes, Nat.mod_eq_of_lt (lt_of_lt_of_eq hlt (by norm_num)), UInt32.ofNat_toNat]
  rfl

lemma length_intBytes (x : Int32) : (intBytes x).length = 4 := length_leBytes ..

lemma toNat_intU64 (hM : 1 ≤ M) : ((intU64 M).toNat : Int) = M.toInt := by
  have hpos := Int32.le_iff_toInt_le.1 hM
  have hlt := Int32.toInt_lt M
  rw [Int32.toInt_one] at hpos
  rw [intU64, UInt64.ofInt, UInt64.toNat_ofNat']
  omega

lemma map_getD_range (bits : List Bool) : ((List.range bits.length).map fun i => bits.getD i false) = bits := by
  refine List.ext_getElem (by rw [List.length_map, List.length_range]) fun i h h' => ?_
  rw [List.getElem_map, List.getElem_range, List.getD_eq_getElem _ _ h']

/-- A filter is loaded as it was dumped. -/
lemma load_dump (behind : Bytes) (hM : 1 ≤ bf.M) (hlength : bf.bitset.length = (intU64 bf.M).toNat) :
    load behind (dump bf) = some bf := by
  have hsize : (bf.bitset.length : Int) = bf.M.toInt := by rw [hlength, toNat_intU64 hM]
  obtain ⟨packed, hpacked⟩ : ∃ packed, packed = pack 0 0 bf.bitset := ⟨_, rfl⟩
  have hdump : dump bf = ascii "BLOOM" ++ (version ++ (intBytes bf.M ++ (intBytes bf.K ++ packed))) := by
    rw [dump, ← hlength, map_getD_range, ← hpacked]
    simp only [List.append_assoc]
  have hheader : (ascii "BLOOM").length = 5 := rfl
  have hversion : version.length = 4 := rfl
  have hM4 := length_intBytes bf.M
  have hK4 := length_intBytes bf.K
  have h5 : (dump bf).drop 5 = version ++ (intBytes bf.M ++ (intBytes bf.K ++ packed)) := by
    rw [hdump, List.drop_left' hheader]
  have h9 : (dump bf).drop 9 = intBytes bf.M ++ (intBytes bf.K ++ packed) := by
    rw [show 9 = 5 + 4 from rfl, ← List.drop_drop, h5, List.drop_left' hversion]
  have h13 : (dump bf).drop 13 = intBytes bf.K ++ packed := by
    rw [show 13 = 9 + 4 from rfl, ← List.drop_drop, h9, List.drop_left' hM4]
  have h17 : (dump bf).drop 17 = packed := by
    rw [show 17 = 13 + 4 from rfl, ← List.drop_drop, h13, List.drop_left' hK4]
  have hlen : ¬ (dump bf).length < 17 := by
    rw [hdump]
    simp only [List.length_append, hheader, hversion, hM4, hK4]
    omega
  rw [load, if_neg fun h => h.2 (by rw [h5, List.take_left' hversion]), if_neg hlen, h9, h13, h17,
    List.take_left' hM4, List.take_left' hK4, intOf_intBytes, intOf_intBytes, hpacked, unpack_pack hsize]

/-! ## The filter -/

lemma getD_foldl_set (positions : List Nat) (bits : List Bool) (pos : Nat) :
    (positions.foldl (fun bits pos => bits.set pos true) bits).getD pos false = true ↔
      bits.getD pos false = true ∨ pos < bits.length ∧ pos ∈ positions := by
  induction positions generalizing bits with
  | nil => simp
  | cons first positions ih =>
    rw [List.foldl_cons, ih, List.length_set, List.mem_cons, List.getD_eq_getElem?_getD, List.getElem?_set,
      List.getD_eq_getElem?_getD]
    by_cases heq : first = pos
    · subst heq
      by_cases hlt : first < bits.length
      · simp [hlt]
      · rw [if_pos rfl, if_neg hlt, List.getElem?_eq_none (Nat.not_lt.1 hlt)]
        simp [hlt]
    · rw [if_neg heq]
      have hne : pos ≠ first := fun h => heq h.symm
      simp only [hne, false_or]

/-- What inserting some words comes to. -/
lemma foldl_insert (words : List Bytes) (bf : BloomFilter) :
    (words.foldl BloomFilter.insert bf).M = bf.M ∧ (words.foldl BloomFilter.insert bf).K = bf.K ∧
      (words.foldl BloomFilter.insert bf).bitset.length = bf.bitset.length ∧
      ∀ pos, (words.foldl BloomFilter.insert bf).bitset.getD pos false = true ↔
        bf.bitset.getD pos false = true ∨ pos < bf.bitset.length ∧ ∃ w ∈ words, pos ∈ generateHashes bf.M bf.K w := by
  induction words generalizing bf with
  | nil => exact ⟨rfl, rfl, rfl, fun pos => by simp⟩
  | cons word words ih =>
    have hlen : (bf.insert word).bitset.length = bf.bitset.length := by
      rw [BloomFilter.insert]
      dsimp only
      generalize generateHashes bf.M bf.K word = positions
      generalize bf.bitset = bits
      induction positions generalizing bits with
      | nil => rfl
      | cons first positions ih => rw [List.foldl_cons, ih, List.length_set]
    obtain ⟨hM, hK, hlength, hset⟩ := ih (bf.insert word)
    refine ⟨hM, hK, hlength.trans hlen, fun pos => ?_⟩
    have hinsert : (bf.insert word).bitset.getD pos false = true ↔
        bf.bitset.getD pos false = true ∨ pos < bf.bitset.length ∧ pos ∈ generateHashes bf.M bf.K word :=
      getD_foldl_set _ _ pos
    rw [List.foldl_cons, hset, hinsert, hlen, List.exists_mem_cons_iff]
    have hsizes : (bf.insert word).M = bf.M ∧ (bf.insert word).K = bf.K := ⟨rfl, rfl⟩
    rw [hsizes.1, hsizes.2, or_assoc, ← and_or_left]

lemma lt_of_mem_generateHashes (hM : 1 ≤ M) (h : pos ∈ generateHashes M K word) : pos < (intU64 M).toNat := by
  obtain ⟨i, -, rfl⟩ := List.mem_map.1 h
  have hsize := toNat_intU64 hM
  have hpos := Int32.le_iff_toInt_le.1 hM
  rw [Int32.toInt_one] at hpos
  rw [UInt64.toNat_mod]
  exact Nat.mod_lt _ (by omega)

/-- A word is found where all its positions are positions of inserted words. -/
lemma check_ofWords (hM : 1 ≤ M) (words : List Bytes) (word : Bytes) :
    (BloomFilter.ofWords M K words).check word = true ↔
      ∀ pos ∈ generateHashes M K word, ∃ w ∈ words, pos ∈ generateHashes M K w := by
  obtain ⟨hM', hK', -, hset⟩ := foldl_insert words (BloomFilter.init M K)
  rw [BloomFilter.ofWords, BloomFilter.check, hM', hK', List.all_eq_true]
  refine forall₂_congr fun pos hpos => ?_
  have hempty : (BloomFilter.init M K).bitset.getD pos false = false := by
    rw [BloomFilter.init, List.getD_eq_getElem?_getD, List.getElem?_replicate]
    split <;> rfl
  have hlt : pos < (BloomFilter.init M K).bitset.length := by
    rw [BloomFilter.init, List.length_replicate]
    exact lt_of_mem_generateHashes hM hpos
  rw [hset, hempty, and_iff_right hlt, or_iff_right Bool.false_ne_true]
  rfl

lemma load_dump_ofWords (behind : Bytes) (hM : 1 ≤ M) (words : List Bytes) :
    load behind (dump (BloomFilter.ofWords M K words)) = some (BloomFilter.ofWords M K words) := by
  obtain ⟨hM', -, hlength, -⟩ := foldl_insert words (BloomFilter.init M K)
  refine load_dump behind (by rw [BloomFilter.ofWords, hM']; exact hM) ?_
  rw [BloomFilter.ofWords, hlength, hM']
  exact List.length_replicate

/-! ## Dictionaries -/

/-- A word of letters. -/
def IsWord (word : Bytes) : Prop := word ≠ [] ∧ ∀ b ∈ word, 97 ≤ toLower b ∧ toLower b ≤ 122

/-- The words one in a line. -/
def dictionary (words : List Bytes) : Bytes := words.flatMap (· ++ crlf)

lemma toNat_of_letter {b : UInt8} (h : 97 ≤ toLower b ∧ toLower b ≤ 122) :
    65 ≤ b.toNat ∧ b.toNat ≤ 90 ∨ 97 ≤ b.toNat ∧ b.toNat ≤ 122 := by
  rw [toLower] at h
  by_cases hupper : 65 ≤ b ∧ b ≤ 90
  · exact .inl ⟨UInt8.le_iff_toNat_le.1 hupper.1, UInt8.le_iff_toNat_le.1 hupper.2⟩
  · rw [if_neg hupper] at h
    exact .inr ⟨UInt8.le_iff_toNat_le.1 h.1, UInt8.le_iff_toNat_le.1 h.2⟩

/-- A letter is no white space and no punctuation. -/
lemma letter {b : UInt8} (h : 97 ≤ toLower b ∧ toLower b ≤ 122) : isSpace b = false ∧ isPunct b = false := by
  have hnat := toNat_of_letter h
  have hb : b = UInt8.ofNat b.toNat := UInt8.ofNat_toNat.symm
  generalize b.toNat = n at hnat hb
  rw [hb]
  rcases hnat with ⟨hle, hge⟩ | ⟨hle, hge⟩
  · interval_cases n <;> exact ⟨rfl, rfl⟩
  · interval_cases n <;> exact ⟨rfl, rfl⟩

lemma IsWord.not_mem_break (h : IsWord word) : 10 ∉ word ++ [13] := by
  intro hmem
  rcases List.mem_append.1 hmem with hmem | hmem
  · exact absurd (letter (h.2 10 hmem)).1 (by decide)
  · exact absurd (List.mem_singleton.1 hmem) (by decide)

lemma IsWord.any_isSpace (h : IsWord word) : word.any isSpace = false := by
  rw [List.any_eq_false]
  exact fun b hb => by rw [(letter (h.2 b hb)).1]; exact Bool.false_ne_true

lemma readWords_dictionary (h : ∀ w ∈ words, IsWord w) : readWords (dictionary words) = some words := by
  induction words with
  | nil => rw [dictionary, List.flatMap_nil, readWords]; rfl
  | cons word words ih =>
    rw [List.forall_mem_cons] at h
    have hline : dictionary (word :: words) = (word ++ [13]) ++ 10 :: dictionary words := by
      rw [dictionary, List.flatMap_cons, crlf, List.append_assoc, List.append_assoc]
      rfl
    have hlast : (word ++ [13]).dropLast = word := List.dropLast_concat
    rw [hline, readWords, Csv.getline_append h.1.not_mem_break]
    dsimp only
    rw [if_neg (by simp), ih h.2, Option.map_some, hlast, if_pos ⟨h.1.1, h.1.any_isSpace⟩]

lemma isWord_of_lower {buffer : Bytes} (h : IsWord word) (heq : lower buffer = lower word) : IsWord buffer := by
  refine ⟨fun hnil => h.1 ?_, fun b hb => ?_⟩
  · rw [hnil] at heq
    exact List.map_eq_nil_iff.1 heq.symm
  · have hmem : toLower b ∈ lower word := heq ▸ List.mem_map_of_mem hb
    obtain ⟨b', hb', hlower⟩ := List.mem_map.1 hmem
    rw [← hlower]
    exact h.2 b' hb'

lemma normal_of_isWord (h : IsWord word) : normal word = lower word := by
  rw [normal, List.filter_eq_self.2 fun b hb => by rw [(letter (h.2 b hb)).2]; rfl]
  rfl

/-! ## Words that are found -/

/-- The loop reports no word of the dictionary, however it is written. -/
def Accepts (bf : BloomFilter) (words : List Bytes) : Prop :=
  ∀ text, ∀ buffer ∈ misspelt bf text, ∀ w ∈ words, lower buffer ≠ lower w

lemma accepts_iff_check (h : ∀ w ∈ words, IsWord w) :
    Accepts bf words ↔ ∀ w ∈ words, bf.check (lower w) = true := by
  constructor
  · intro haccepts w hw
    have hword := h w hw
    by_contra hcheck
    have hmem : w ∈ misspelt bf w := by
      rw [misspelt, wordsOf_self hword.1 fun b hb => (letter (hword.2 b hb)).1, List.mem_filter, normal_of_isWord hword]
      exact ⟨List.mem_singleton_self w, by rw [Bool.eq_false_of_not_eq_true hcheck]; rfl⟩
    exact haccepts w w hmem w hw rfl
  · intro hcheck text buffer hbuffer w hw heq
    rw [misspelt, List.mem_filter, normal_of_isWord (isWord_of_lower (h w hw) heq), heq, hcheck w hw] at hbuffer
    exact absurd hbuffer.2 Bool.false_ne_true

/-- The filter is kept bit by bit in its file. The checker accepts all words of the dictionary exactly if every position
of the lower case of one is a position of one as it is spelled. -/
theorem accepts_iff (behind : Bytes) (hM : 1 ≤ M) (h : ∀ w ∈ words, IsWord w) :
    (∃ bf, (build M K (dictionary words)).bind (load behind) = some bf ∧ bf = BloomFilter.ofWords M K words ∧
      Accepts bf words) ↔
      ∀ w ∈ words, ∀ pos ∈ generateHashes M K (lower w), ∃ w' ∈ words, pos ∈ generateHashes M K w' := by
  have hload : (build M K (dictionary words)).bind (load behind) = some (BloomFilter.ofWords M K words) := by
    rw [build, readWords_dictionary h, Option.map_some, Option.bind_some, load_dump_ofWords behind hM]
  rw [hload]
  constructor
  · rintro ⟨bf, -, rfl, haccepts⟩ w hw
    exact (check_ofWords hM words (lower w)).1 ((accepts_iff_check h).1 haccepts w hw)
  · intro hpositions
    exact ⟨_, rfl, rfl, (accepts_iff_check h).2 fun w hw => (check_ofWords hM words (lower w)).2 (hpositions w hw)⟩

/-- The words of a dictionary in lower case are all found. -/
theorem accepts_of_lower (behind : Bytes) (hM : 1 ≤ M) (h : ∀ w ∈ words, IsWord w) (hlower : ∀ w ∈ words, lower w = w) :
    ∃ bf, (build M K (dictionary words)).bind (load behind) = some bf ∧ Accepts bf words := by
  have hload : (build M K (dictionary words)).bind (load behind) = some (BloomFilter.ofWords M K words) := by
    rw [build, readWords_dictionary h, Option.map_some, Option.bind_some, load_dump_ofWords behind hM]
  refine ⟨_, hload, (accepts_iff_check h).2 fun w hw => (check_ofWords hM words (lower w)).2 fun pos hpos => ?_⟩
  exact ⟨w, hw, hlower w hw ▸ hpos⟩

/-- A word that is also there in lower case. -/
theorem accepts_iff_cats :
    ∃ bf, (build 9 6 (dictionary [ascii "cat", ascii "Cat", ascii "dog"])).bind (load []) = some bf ∧
    bf = BloomFilter.ofWords 9 6 [ascii "cat", ascii "Cat", ascii "dog"] ∧
      Accepts bf [ascii "cat", ascii "Cat", ascii "dog"] := by
  have hwords : ∀ w ∈ [ascii "cat", ascii "Cat", ascii "dog"], IsWord w := by
    unfold IsWord
    decide +kernel
  have hlower : ∀ w ∈ [ascii "cat", ascii "Cat", ascii "dog"], lower w ∈ [ascii "cat", ascii "Cat", ascii "dog"] := by
    decide +kernel
  exact (accepts_iff [] (by decide) hwords).2 fun w hw pos hpos => ⟨lower w, hlower w hw, hpos⟩

/-- A dictionary of the word A, with the sizes that the program chooses for one word. -/
theorem not_accepts_capital : ¬ ∀ (M K : Int32) (words : List Bytes) (behind : Bytes), 1 ≤ M → 1 ≤ K → words ≠ [] →
    (∀ w ∈ words, IsWord w) → ∃ bf, (build M K (dictionary words)).bind (load behind) = some bf ∧
      bf = BloomFilter.ofWords M K words ∧ Accepts bf words := by
  intro h
  have hword : ∀ w ∈ [ascii "A"], IsWord w := by unfold IsWord; decide +kernel
  obtain ⟨bf, -, rfl, haccepts⟩ := h 9 6 [ascii "A"] [] (by decide) (by decide) (by decide) hword
  have hcheck := (accepts_iff_check hword).1 haccepts (ascii "A") (List.mem_singleton_self _)
  exact absurd hcheck (by decide +kernel)

end CppExperiments.Spellcheck

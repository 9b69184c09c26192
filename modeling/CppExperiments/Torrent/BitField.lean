import CppExperiments.Torrent.Downloader
import Mathlib.Data.List.DropRight
import Mathlib.Tactic.IntervalCases

/-!
# Bit fields

The pieces of a bit field are written back as the bit field, up to zero bytes at its end.
-/

namespace CppExperiments.Torrent

variable {b c : Bytes} {i j : Nat} {haves : List Nat}

/-- The bit of a piece is set. -/
def setBit (bitField : Bytes) (have' : Nat) : Bytes :=
  bitField.modify (have' / 8) (· ||| UInt8.ofNat (1 <<< (7 - have' % 8)))

/-- The set is gone through in the order of the list. -/
def writeBitField (haves : List Nat) : Bytes :=
  if haves = [] then [] else haves.foldl setBit (zeros (haves.foldl max 0 / 8 + 1))

/-- The byte string without the zero bytes at its end. -/
def trimZeros (b : Bytes) : Bytes := b.rdropWhile (· = 0)

/-- A bit of a byte string, with zero bytes behind its end. -/
def bitAt (b : Bytes) (i : Nat) : Bool := (b.getD (i / 8) 0).toNat.testBit (7 - i % 8)

/-! ## Bits -/

lemma bitAt_of_length_le (h : b.length ≤ i / 8) : bitAt b i = false := by
  rw [bitAt, List.getD_eq_default _ _ h]
  exact Nat.zero_testBit _

lemma lt_length_of_bitAt (h : bitAt b i = true) : i / 8 < b.length := by
  by_contra hle
  rw [bitAt_of_length_le (Nat.not_lt.1 hle)] at h
  exact Bool.false_ne_true h

lemma getElem?_bitsOf : (bitsOf b)[i]? = some true ↔ bitAt b i = true := by
  by_cases h : i / 8 < b.length
  · have hlt : i < (bitsOf b).length := by
      rw [length_bitsOf]
      omega
    have hbit := bitsOf_getD b (i / 8) (i % 8) (Nat.mod_lt _ (by decide)) h
    rw [Nat.div_add_mod, List.getD_eq_getElem _ _ hlt] at hbit
    rw [List.getElem?_eq_getElem hlt, Option.some.injEq, hbit, bitAt]
  · rw [bitAt_of_length_le (Nat.not_lt.1 h), List.getElem?_eq_none]
    · exact iff_of_false nofun nofun
    · rw [length_bitsOf]
      omega

lemma mem_readBitField : i ∈ readBitField b ↔ ∃ j, bitAt b j = true ∧ j % 2 ^ 32 = i := by
  rw [readBitField, List.mem_toFinset, List.mem_filterMap]
  constructor
  · rintro ⟨⟨bit, j⟩, hmem, hif⟩
    rw [List.mem_zipIdx_iff_getElem?] at hmem
    cases bit with
    | false => exact absurd hif nofun
    | true => exact ⟨j, getElem?_bitsOf.1 hmem, Option.some.inj hif⟩
  · rintro ⟨j, hbit, rfl⟩
    exact ⟨(true, j), List.mem_zipIdx_iff_getElem?.2 (getElem?_bitsOf.2 hbit), rfl⟩

/-- Byte strings of one length with the same bits are the same. -/
lemma ext_bitAt (hlength : b.length = c.length) (h : ∀ i, bitAt b i = bitAt c i) : b = c := by
  refine List.ext_getElem hlength fun n hb hc => ?_
  refine UInt8.toNat_inj.1 (Nat.eq_of_testBit_eq fun k => ?_)
  by_cases hk : k < 8
  · have hbit := h (8 * n + (7 - k))
    have hdiv : (8 * n + (7 - k)) / 8 = n := by omega
    have hmod : 7 - (8 * n + (7 - k)) % 8 = k := by omega
    rwa [bitAt, bitAt, hdiv, hmod, List.getD_eq_getElem _ _ hb, List.getD_eq_getElem _ _ hc] at hbit
  · have hpow : 2 ^ 8 ≤ 2 ^ k := Nat.pow_le_pow_right (by decide) (Nat.not_lt.1 hk)
    rw [Nat.testBit_lt_two_pow ((UInt8.toNat_lt _).trans_le hpow), Nat.testBit_lt_two_pow
      ((UInt8.toNat_lt _).trans_le hpow)]

lemma testBit_or_bit (byte : UInt8) {k m : Nat} (hk : k < 8) :
    (byte ||| UInt8.ofNat (1 <<< k)).toNat.testBit m = (byte.toNat.testBit m || decide (m = k)) := by
  have hpow : (UInt8.ofNat (1 <<< k)).toNat = 2 ^ k := by
    interval_cases k <;> rfl
  rw [UInt8.toNat_or, Nat.testBit_or, hpow, Nat.testBit_two_pow]
  exact congrArg _ (decide_eq_decide.2 eq_comm)

@[simp] lemma length_setBit (b : Bytes) (i : Nat) : (setBit b i).length = b.length := List.length_modify ..

lemma bitAt_setBit (h : i / 8 < b.length) : bitAt (setBit b i) j = (bitAt b j || decide (j = i)) := by
  rw [bitAt, bitAt, setBit, List.getD_eq_getElem?_getD, List.getElem?_modify, List.getD_eq_getElem?_getD]
  by_cases hdiv : i / 8 = j / 8
  · rw [← hdiv, List.getElem?_eq_getElem h, Option.map_eq_map, Option.map_some, Option.getD_some, Option.getD_some,
      if_pos rfl, testBit_or_bit _ (by omega)]
    refine congrArg _ (decide_eq_decide.2 ?_)
    omega
  · simp only [if_neg hdiv, Option.map_eq_map, Option.map_id']
    rw [decide_eq_false fun heq : j = i => hdiv (heq ▸ rfl), Bool.or_false]

lemma bitAt_foldl_setBit (h : ∀ i ∈ haves, i / 8 < b.length) :
    (haves.foldl setBit b).length = b.length ∧
      ∀ j, bitAt (haves.foldl setBit b) j = (bitAt b j || decide (j ∈ haves)) := by
  induction haves generalizing b with
  | nil => exact ⟨rfl, fun j => (Bool.or_false _).symm⟩
  | cons i haves ih =>
    rw [List.forall_mem_cons] at h
    obtain ⟨hlength, hbit⟩ := ih fun j hj => (length_setBit b i).symm ▸ h.2 j hj
    rw [List.foldl_cons]
    refine ⟨hlength.trans (length_setBit b i), fun j => ?_⟩
    rw [hbit, bitAt_setBit h.1, Bool.or_assoc]
    refine congrArg _ ?_
    rw [← Bool.decide_or]
    exact decide_eq_decide.2 List.mem_cons.symm

lemma le_foldl_max (haves : List Nat) (n : Nat) : n ≤ haves.foldl max n ∧ (∀ i ∈ haves, i ≤ haves.foldl max n) ∧
    (haves.foldl max n = n ∨ haves.foldl max n ∈ haves) := by
  induction haves generalizing n with
  | nil => exact ⟨le_refl n, nofun, Or.inl rfl⟩
  | cons i haves ih =>
    obtain ⟨hle, hall, hmem⟩ := ih (max n i)
    refine ⟨(le_max_left n i).trans hle, List.forall_mem_cons.2 ⟨(le_max_right n i).trans hle, hall⟩, ?_⟩
    rw [List.foldl_cons, List.mem_cons]
    rcases hmem with h | h
    · exact (max_choice n i).imp h.trans fun h' => Or.inl (h.trans h')
    · exact Or.inr (Or.inr h)

lemma bitAt_zeros (n : Nat) : bitAt (zeros n) j = false := by
  have hzero : (zeros n).getD (j / 8) 0 = 0 := by
    rw [List.getD_eq_getElem?_getD, zeros, List.getElem?_replicate]
    split_ifs <;> rfl
  rw [bitAt, hzero]
  exact Nat.zero_testBit _

lemma bitAt_writeBitField (haves : List Nat) (j : Nat) : bitAt (writeBitField haves) j = decide (j ∈ haves) := by
  rw [writeBitField]
  by_cases hnil : haves = []
  · rw [if_pos hnil, bitAt_of_length_le (Nat.zero_le _), hnil]
    exact (decide_eq_false List.not_mem_nil).symm
  · have hlength : ∀ i ∈ haves, i / 8 < (zeros (haves.foldl max 0 / 8 + 1)).length := by
      intro i hi
      have := (le_foldl_max haves 0).2.1 i hi
      rw [length_zeros]
      omega
    rw [if_neg hnil, (bitAt_foldl_setBit hlength).2, bitAt_zeros]
    rfl

lemma length_writeBitField (h : haves ≠ []) : (writeBitField haves).length = haves.foldl max 0 / 8 + 1 := by
  have hlength : ∀ i ∈ haves, i / 8 < (zeros (haves.foldl max 0 / 8 + 1)).length := by
    intro i hi
    have := (le_foldl_max haves 0).2.1 i hi
    rw [length_zeros]
    omega
  rw [writeBitField, if_neg h, (bitAt_foldl_setBit hlength).1, length_zeros]

/-! ## Round trips -/

lemma readBitField_writeBitField {S : Finset Nat} (hS : ∀ i ∈ S, i < 2 ^ 32) (h : haves.toFinset = S) :
    readBitField (writeBitField haves) = S := by
  have hmem : ∀ j, j ∈ haves ↔ j ∈ S := fun j => by rw [← h, List.mem_toFinset]
  ext i
  rw [mem_readBitField]
  constructor
  · rintro ⟨j, hbit, rfl⟩
    rw [bitAt_writeBitField, decide_eq_true_eq, hmem] at hbit
    rwa [Nat.mod_eq_of_lt (hS j hbit)]
  · intro hi
    refine ⟨i, ?_, Nat.mod_eq_of_lt (hS i hi)⟩
    rw [bitAt_writeBitField, decide_eq_true_eq, hmem]
    exact hi

lemma exists_trimZeros (b : Bytes) : ∃ n, b = trimZeros b ++ zeros n := by
  induction b using List.reverseRecOn with
  | nil => exact ⟨0, rfl⟩
  | append_singleton b byte ih =>
    rw [trimZeros]
    by_cases hbyte : byte = 0
    · obtain ⟨n, hn⟩ := ih
      refine ⟨n + 1, ?_⟩
      rw [List.rdropWhile_concat_pos (fun x : UInt8 => decide (x = 0)) b byte (decide_eq_true hbyte), zeros_add,
        ← List.append_assoc, hbyte]
      exact congrArg (· ++ [0]) hn
    · refine ⟨0, ?_⟩
      rw [List.rdropWhile_concat_neg _ _ _ (by simpa using hbyte)]
      exact (List.append_nil _).symm

lemma bitAt_trimZeros (b : Bytes) (i : Nat) : bitAt (trimZeros b) i = bitAt b i := by
  obtain ⟨n, hn⟩ := exists_trimZeros b
  conv_rhs => rw [hn]
  by_cases h : i / 8 < (trimZeros b).length
  · rw [bitAt, bitAt, List.getD_append _ _ _ _ h]
  · rw [bitAt_of_length_le (Nat.not_lt.1 h), bitAt, List.getD_append_right _ _ _ _ (Nat.not_lt.1 h)]
    have hzero : (zeros n).getD (i / 8 - (trimZeros b).length) 0 = 0 := by
      rw [List.getD_eq_getElem?_getD, zeros, List.getElem?_replicate]
      split_ifs <;> rfl
    rw [hzero]
    exact (Nat.zero_testBit _).symm

/-- The last byte that is left has a bit. -/
lemma exists_bitAt_last (h : trimZeros b ≠ []) : ∃ i, i / 8 + 1 = (trimZeros b).length ∧ bitAt b i = true := by
  have hlast := List.rdropWhile_last_not (fun byte : UInt8 => decide (byte = 0)) b h
  have hne : ((trimZeros b).getLast h).toNat ≠ 0 := by
    intro hzero
    exact hlast (decide_eq_true (UInt8.toNat_inj.1 hzero))
  obtain ⟨k, hk⟩ := Nat.exists_testBit_of_ne_zero hne
  have hlt : k < 8 := by
    by_contra hle
    have hpow : 2 ^ 8 ≤ 2 ^ k := Nat.pow_le_pow_right (by decide) (Nat.not_lt.1 hle)
    rw [Nat.testBit_lt_two_pow ((UInt8.toNat_lt _).trans_le hpow)] at hk
    exact Bool.false_ne_true hk
  have hpos := List.length_pos_iff.2 h
  refine ⟨8 * ((trimZeros b).length - 1) + (7 - k), by omega, ?_⟩
  rw [← bitAt_trimZeros, bitAt]
  have hdiv : (8 * ((trimZeros b).length - 1) + (7 - k)) / 8 = (trimZeros b).length - 1 := by omega
  have hmod : 7 - (8 * ((trimZeros b).length - 1) + (7 - k)) % 8 = k := by omega
  rw [hdiv, hmod, List.getD_eq_getElem _ _ (by omega), ← List.getLast_eq_getElem h]
  exact hk

/-- The bits of a byte string are below a maximum, and one is in its last byte. -/
lemma foldl_max_div {n : Nat} (hlt : ∀ i ∈ haves, i / 8 < n) (hlast : ∃ i ∈ haves, i / 8 + 1 = n) :
    haves.foldl max 0 / 8 + 1 = n := by
  obtain ⟨-, hle, hmem⟩ := le_foldl_max haves 0
  obtain ⟨i, hi, hin⟩ := hlast
  have hi' := hle i hi
  rcases hmem with h | h
  · omega
  · have := hlt _ h
    omega

lemma writeBitField_readBitField (h : haves.toFinset = readBitField b) (hb : (trimZeros b).length ≤ 2 ^ 29) :
    writeBitField haves = trimZeros b := by
  have hsmall : ∀ i, bitAt b i = true → i < 2 ^ 32 := by
    intro i hi
    rw [← bitAt_trimZeros] at hi
    have := lt_length_of_bitAt hi
    omega
  have hmem : ∀ j, j ∈ haves ↔ bitAt b j = true := by
    intro j
    rw [← List.mem_toFinset, h, mem_readBitField]
    constructor
    · rintro ⟨i, hi, rfl⟩
      rwa [Nat.mod_eq_of_lt (hsmall i hi)]
    · exact fun hj => ⟨j, hj, Nat.mod_eq_of_lt (hsmall j hj)⟩
  refine ext_bitAt ?_ fun i => ?_
  · by_cases hnil : trimZeros b = []
    · have hempty : haves = [] := by
        refine List.eq_nil_iff_forall_not_mem.2 fun j hj => ?_
        have hbit := (hmem j).1 hj
        rw [← bitAt_trimZeros, hnil] at hbit
        exact absurd (lt_length_of_bitAt hbit) (Nat.not_lt_zero _)
      rw [hnil, hempty]
      rfl
    · obtain ⟨i, hi, hbit⟩ := exists_bitAt_last hnil
      have hi' := (hmem i).2 hbit
      have hne : haves ≠ [] := List.ne_nil_of_mem hi'
      rw [length_writeBitField hne]
      refine foldl_max_div (fun j hj => ?_) ⟨i, hi', hi⟩
      have hj' := (hmem j).1 hj
      rw [← bitAt_trimZeros] at hj'
      exact lt_length_of_bitAt hj'
  · rw [bitAt_writeBitField, bitAt_trimZeros]
    cases hbit : bitAt b i with
    | true => exact decide_eq_true ((hmem i).2 hbit)
    | false => exact decide_eq_false fun hi => Bool.false_ne_true (hbit.symm.trans ((hmem i).1 hi))

/-- A set of pieces is read as it was written. A byte string is written as it was read, without the zero bytes at its
end, if and only if what is left has no bit whose index does not fit 32 bits. -/
theorem bitField_round_trips :
    (∀ (S : Finset Nat) (haves : List Nat), (∀ i ∈ S, i < 2 ^ 32) → haves.toFinset = S →
      readBitField (writeBitField haves) = S) ∧
    ∀ (b : Bytes) (haves : List Nat), haves.toFinset = readBitField b →
      (writeBitField haves = trimZeros b ↔ (trimZeros b).length ≤ 2 ^ 29) := by
  refine ⟨fun S haves hS h => readBitField_writeBitField hS h, fun b haves h => ⟨fun heq => ?_,
    writeBitField_readBitField h⟩⟩
  rw [← heq]
  by_cases hne : haves = []
  · rw [hne]
    exact Nat.zero_le _
  · rw [length_writeBitField hne]
    have hsmall : ∀ i ∈ haves, i < 2 ^ 32 := by
      intro i hi
      rw [← List.mem_toFinset, h, mem_readBitField] at hi
      obtain ⟨j, -, rfl⟩ := hi
      exact Nat.mod_lt _ (by decide)
    rcases (le_foldl_max haves 0).2.2 with hmax | hmax
    · omega
    · have := hsmall _ hmax
      omega

theorem bitField_round_trips_pieces : readBitField (writeBitField [9, 1]) = {1, 9} ∧
    (writeBitField [9, 1] = trimZeros [64, 64, 0] ↔ (trimZeros [64, 64, 0]).length ≤ 2 ^ 29) :=
  ⟨bitField_round_trips.1 {1, 9} [9, 1] (by decide) (by decide),
    bitField_round_trips.2 [64, 64, 0] [9, 1] (by decide +kernel)⟩

lemma bitAt_single (n j : Nat) : bitAt (zeros n ++ [128]) j = decide (j = 8 * n) := by
  rw [bitAt]
  by_cases hlt : j / 8 < (zeros n).length
  · rw [List.getD_append _ _ _ _ hlt, ← bitAt, bitAt_zeros]
    rw [length_zeros] at hlt
    exact (decide_eq_false (by omega)).symm
  · rw [List.getD_append_right _ _ _ _ (Nat.not_lt.1 hlt)]
    rw [length_zeros] at hlt ⊢
    by_cases hzero : j / 8 - n = 0
    · rw [hzero]
      have hbits : ∀ r < 8, Nat.testBit 128 (7 - r) = decide (r = 0) := by decide
      refine (hbits (j % 8) (Nat.mod_lt _ (by decide))).trans (decide_eq_decide.2 ?_)
      omega
    · rw [List.getD_eq_default _ _ (by simp only [List.length_singleton]; omega)]
      refine (Nat.zero_testBit _).trans (decide_eq_false ?_).symm
      omega

/-- One bit behind those with an index of 32 bits is read as the first one. -/
theorem bitField_long : ([0] : List Nat).toFinset = readBitField (zeros (2 ^ 29) ++ [128]) ∧
    writeBitField [0] ≠ trimZeros (zeros (2 ^ 29) ++ [128]) := by
  have hread : ∀ n, readBitField (zeros n ++ [128]) = {8 * n % 2 ^ 32} := by
    intro n
    ext i
    rw [mem_readBitField, Finset.mem_singleton]
    constructor
    · rintro ⟨j, hj, rfl⟩
      rw [bitAt_single, decide_eq_true_eq] at hj
      rw [hj]
    · rintro rfl
      exact ⟨8 * n, by rw [bitAt_single]; exact decide_eq_true rfl, rfl⟩
  have htrim : ∀ n, trimZeros (zeros n ++ [128]) = zeros n ++ [128] := fun n =>
    List.rdropWhile_concat_neg (fun x : UInt8 => decide (x = 0)) (zeros n) 128 (by decide)
  refine ⟨?_, fun heq => ?_⟩
  · rw [hread]
    rfl
  · have hlength := congrArg List.length heq
    rw [htrim, length_writeBitField (by decide), List.length_append, length_zeros] at hlength
    exact absurd hlength (by decide)

end CppExperiments.Torrent

import CppExperiments.Lib.Bytes

/-!
# The CRC-32 of `hashutil`

The shift is linear and injective, so a message is told from one that differs from it in a burst of four bytes.
-/

namespace CppExperiments.Hash.CRC32

def POLY : BitVec 32 := 0xedb88320#32

def start : BitVec 32 := 0xFFFFFFFF#32

/-- One turn of the loop over the bits. -/
def shift (crc : BitVec 32) : BitVec 32 := if crc.getLsbD 0 then (crc >>> 1) ^^^ POLY else crc >>> 1

def update (crc : BitVec 32) (data : Bytes) : BitVec 32 :=
  data.foldl (fun crc ch => shift^[8] (crc ^^^ BitVec.ofNat 32 ch.toNat)) crc

def value (crc : BitVec 32) : BitVec 32 := crc ^^^ 0xFFFFFFFF#32

/-- The check value of CRC-32: that of the nine digits. -/
example : value (update start [49, 50, 51, 52, 53, 54, 55, 56, 57]) = 0xcbf43926#32 := by decide +kernel

variable {a b crc : BitVec 32} {data data₁ data₂ : Bytes}

/-! ## The shift -/

lemma shift_xor (a b : BitVec 32) : shift (a ^^^ b) = shift a ^^^ shift b := by
  rw [shift, shift, shift, BitVec.getLsbD_xor, BitVec.ushiftRight_xor_distrib]
  cases a.getLsbD 0 <;> cases b.getLsbD 0
  · rfl
  · exact BitVec.xor_assoc _ _ _
  · exact (BitVec.xor_assoc _ _ _).trans ((congrArg _ (BitVec.xor_comm _ _)).trans (BitVec.xor_assoc _ _ _).symm)
  · have hcancel : ∀ x y p : BitVec 32, x ^^^ y = x ^^^ p ^^^ (y ^^^ p) := by
      intro x y p
      rw [BitVec.xor_comm y p, BitVec.xor_assoc x p, ← BitVec.xor_assoc p p y, BitVec.xor_self, BitVec.zero_xor]
    exact hcancel _ _ _

/-- The lowest bit is moved into the highest one. -/
lemma shift_injective : Function.Injective shift := by
  have hzero : ∀ x, shift x = 0 → x = 0 := by
    intro x hx
    rw [shift] at hx
    cases hbit : x.getLsbD 0 with
    | true =>
      rw [if_pos hbit] at hx
      have htop := congrArg (·.getLsbD 31) hx
      simp only [BitVec.getLsbD_xor, BitVec.getLsbD_ushiftRight] at htop
      rw [BitVec.getLsbD_of_ge x (1 + 31) (by decide)] at htop
      exact absurd htop (by decide)
    | false =>
      rw [if_neg (by rw [hbit]; exact Bool.false_ne_true)] at hx
      apply BitVec.eq_of_getLsbD_eq
      intro i hi
      cases i with
      | zero => rw [hbit]; rfl
      | succ i =>
        have hnext := congrArg (·.getLsbD i) hx
        simp only [BitVec.getLsbD_ushiftRight] at hnext
        rw [Nat.add_comm, hnext]
        exact (BitVec.getLsbD_zero).trans BitVec.getLsbD_zero.symm
  intro x y hxy
  have h := hzero (x ^^^ y) (by rw [shift_xor, hxy, BitVec.xor_self]; rfl)
  exact BitVec.xor_eq_zero_iff.1 h

lemma iterate_shift_xor (n : Nat) (a b : BitVec 32) : shift^[n] (a ^^^ b) = shift^[n] a ^^^ shift^[n] b := by
  induction n generalizing a b with
  | zero => rfl
  | succ n ih => rw [Function.iterate_succ_apply, Function.iterate_succ_apply, Function.iterate_succ_apply, shift_xor,
      ih]

/-- What is far enough to the left only moves to the right. -/
lemma iterate_shift_shiftLeft {n k : Nat} (h : a.toNat < 2 ^ (32 - k)) (hk : k ≤ 32) (hn : n ≤ k) :
    shift^[n] (a <<< k) = a <<< (k - n) := by
  induction n with
  | zero => rfl
  | succ n ih =>
    have hlow : (a <<< (k - n)).getLsbD 0 = false := by
      rw [BitVec.getLsbD_shiftLeft]
      simp only [decide_eq_true (show 0 < k - n by omega), Bool.not_true, Bool.and_false, Bool.false_and]
    rw [Function.iterate_succ_apply', ih (by omega), shift, if_neg (by rw [hlow]; exact Bool.false_ne_true)]
    apply BitVec.eq_of_getLsbD_eq
    intro i hi
    rw [BitVec.getLsbD_ushiftRight, BitVec.getLsbD_shiftLeft, BitVec.getLsbD_shiftLeft]
    by_cases hlast : i = 31
    · have hzero : a.getLsbD (i - (k - (n + 1))) = false := by
        refine Nat.testBit_lt_two_pow (h.trans_le (Nat.pow_le_pow_right (by decide) ?_))
        omega
      rw [hzero, decide_eq_false (show ¬ 1 + i < 32 by omega), Bool.and_false, Bool.false_and, Bool.false_and]
    · have hsub : 1 + i - (k - n) = i - (k - (n + 1)) := by omega
      have hlt : (1 + i < k - n) = (i < k - (n + 1)) := propext (by omega)
      simp only [hsub, hlt, decide_eq_true hi, decide_eq_true (show 1 + i < 32 by omega)]

/-! ## Bursts -/

lemma update_cons (crc : BitVec 32) (ch : UInt8) (data : Bytes) :
    update crc (ch :: data) = update (shift^[8] (crc ^^^ BitVec.ofNat 32 ch.toNat)) data := rfl

lemma update_append (crc : BitVec 32) (data₁ data₂ : Bytes) :
    update crc (data₁ ++ data₂) = update (update crc data₁) data₂ := List.foldl_append

/-- The same bytes keep different remainders apart. -/
lemma update_injective (data : Bytes) : Function.Injective (update · data) := by
  induction data with
  | nil => exact fun _ _ h => h
  | cons ch data ih =>
    intro a b h
    have hshift := shift_injective.iterate 8 (ih h)
    have hxor := congrArg (· ^^^ BitVec.ofNat 32 ch.toNat) hshift
    simpa only [BitVec.xor_assoc, BitVec.xor_self, BitVec.xor_zero] using hxor

/-- Up to four bytes as a word, the lowest byte first. -/
def word (data : Bytes) : BitVec 32 := BitVec.ofNat 32 (ofLeBytes data)

lemma word_cons (ch : UInt8) (data : Bytes) : word (ch :: data) = BitVec.ofNat 32 ch.toNat ^^^ word data <<< 8 := by
  apply BitVec.eq_of_getLsbD_eq
  intro i hi
  have hlt : ch.toNat < 2 ^ 8 := ch.toNat_lt
  rw [BitVec.getLsbD_xor, BitVec.getLsbD_shiftLeft, word, word, BitVec.getLsbD_ofNat, BitVec.getLsbD_ofNat,
    BitVec.getLsbD_ofNat, ofLeBytes, Nat.add_comm, show (256 : Nat) = 2 ^ 8 from rfl,
    Nat.testBit_two_pow_mul_add _ hlt, decide_eq_true hi]
  by_cases h8 : i < 8
  · simp [h8]
  · have hch : ch.toNat.testBit i = false :=
      Nat.testBit_lt_two_pow (hlt.trans_le (Nat.pow_le_pow_right (by decide) (Nat.not_lt.1 h8)))
    simp [h8, hch, show i - 8 < 32 by omega]

lemma toNat_word (h : data.length ≤ 4) : (word data).toNat = ofLeBytes data := by
  refine Nat.mod_eq_of_lt ((ofLeBytes_lt data).trans_le ?_)
  exact (Nat.pow_le_pow_right (by decide) h).trans (by decide)

/-- The remainder after up to four bytes. -/
lemma update_eq (crc : BitVec 32) (h : data.length ≤ 4) :
    update crc data = shift^[8 * data.length] (crc ^^^ word data) := by
  induction data generalizing crc with
  | nil => exact (BitVec.xor_zero).symm
  | cons ch data ih =>
    rw [List.length_cons] at h
    have hword : (word data).toNat < 2 ^ (32 - 8) := by
      rw [toNat_word (by omega)]
      exact (ofLeBytes_lt data).trans_le ((Nat.pow_le_pow_right (by decide) (show data.length ≤ 3 by omega)).trans
        (by decide))
    have hmove := iterate_shift_shiftLeft hword (show 8 ≤ 32 by decide) (le_refl 8)
    rw [Nat.sub_self, BitVec.shiftLeft_zero] at hmove
    rw [update_cons, ih _ (by omega), word_cons, List.length_cons, Nat.mul_succ, Function.iterate_add_apply,
      ← BitVec.xor_assoc, iterate_shift_xor 8 (crc ^^^ BitVec.ofNat 32 ch.toNat), hmove]

lemma ofLeBytes_injective (hlength : data₁.length = data₂.length) (h : ofLeBytes data₁ = ofLeBytes data₂) :
    data₁ = data₂ := by
  induction data₁ generalizing data₂ with
  | nil => exact (List.eq_nil_of_length_eq_zero hlength.symm).symm
  | cons b bs ih =>
    cases data₂ with
    | nil => exact absurd hlength (Nat.succ_ne_zero _)
    | cons c cs =>
      rw [ofLeBytes, ofLeBytes] at h
      have hb := b.toNat_lt
      have hc := c.toNat_lt
      rw [ih (Nat.succ.inj hlength) (by omega), UInt8.toNat_inj.1 (show b.toNat = c.toNat by omega)]

/-- Messages that differ in up to four consecutive bytes only have different values. -/
theorem value_ne_of_burst (crc : BitVec 32) (before after : Bytes) (hlength : data₁.length = data₂.length)
    (hfour : data₁.length ≤ 4) (hne : data₁ ≠ data₂) :
    value (update crc (before ++ data₁ ++ after)) ≠ value (update crc (before ++ data₂ ++ after)) := by
  intro h
  have hxor := congrArg (· ^^^ 0xFFFFFFFF#32) h
  simp only [value, BitVec.xor_assoc, BitVec.xor_self, BitVec.xor_zero] at hxor
  rw [update_append, update_append, update_append, update_append] at hxor
  have hfour' : data₂.length ≤ 4 := hlength ▸ hfour
  have hburst : update (update crc before) data₁ = update (update crc before) data₂ := update_injective after hxor
  rw [update_eq _ hfour, update_eq _ hfour', hlength] at hburst
  have hword := shift_injective.iterate _ hburst
  refine hne (ofLeBytes_injective hlength ?_)
  rw [← toNat_word hfour, ← toNat_word hfour']
  have hcancel := congrArg (update crc before ^^^ ·) hword
  simp only [← BitVec.xor_assoc, BitVec.xor_self, BitVec.zero_xor] at hcancel
  rw [hcancel]

end CppExperiments.Hash.CRC32

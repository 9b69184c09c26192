import CppExperiments.BI.BigInt
import CppExperiments.Lib.Numerals

/-!
# Sums, differences and products

What the operations on limbs do to the numbers that the limbs stand for, and that nothing overflows
on the way.
-/

namespace CppExperiments.BI

open Nat

/-- Limbs below the base. -/
def Bounded (l : Limbs) : Prop := ∀ d ∈ l, d < BASE

/-- The number that limbs stand for. -/
abbrev val (l : Limbs) : Nat := ofDigits BASE l

/-- The limbs of a number. -/
abbrev limbs (n : Nat) : Limbs := digits BASE n

lemma one_lt_base : 1 < BASE := by decide

variable {d1 d2 l : Limbs} {m n : Nat}

lemma bounded_limbs (n : Nat) : Bounded (limbs n) := fun _ hd => digits_lt_base one_lt_base hd

lemma clean_eq (h : Bounded l) : clean l = limbs (val l) := rdropWhile_zero one_lt_base h

@[simp] lemma val_limbs (n : Nat) : val (limbs n) = n := ofDigits_digits BASE n

@[simp] lemma clean_limbs (n : Nat) : clean (limbs n) = limbs n := by rw [clean_eq (bounded_limbs n), val_limbs]

@[simp] lemma val_zeros (k : Nat) : val (List.replicate k 0) = 0 := ofDigits_replicate_zero

lemma Bounded.tail (h : Bounded l) : Bounded l.tail := fun d hd => h d (List.mem_of_mem_tail hd)

lemma Bounded.headD (h : Bounded l) : l.headD 0 < BASE := by
  cases l with
  | nil => decide
  | cons x l => exact h x (List.mem_cons_self ..)

lemma val_eq (l : Limbs) : val l = l.headD 0 + BASE * val l.tail := by
  cases l with
  | nil => rfl
  | cons x l => rw [val, ofDigits_cons]; rfl

lemma val_lt (h : Bounded l) : val l < BASE ^ l.length := ofDigits_lt one_lt_base h

/-- The order of numbers as the source encodes it. -/
def order (m n : Nat) : Int := if m < n then -1 else if m > n then 1 else 0

lemma order_add_mul {x y : Nat} (hx : x < BASE) (hy : y < BASE) : order (x + BASE * m) (y + BASE * n) =
    if order m n = 0 then if x < y then -1 else if x > y then 1 else 0 else order m n := by
  simp only [order, gt_iff_lt, add_mul_lt_iff hx hy, add_mul_lt_iff hy hx]
  split_ifs <;> omega

lemma absCompareLoop_eq (h1 : Bounded d1) (h2 : Bounded d2) (hlen : d1.length = d2.length) :
    absCompareLoop d1 d2 = order (val d1) (val d2) := by
  induction d1 generalizing d2 with
  | nil =>
    obtain rfl : d2 = [] := List.length_eq_zero_iff.1 hlen.symm
    rfl
  | cons x d1 ih =>
    cases d2 with
    | nil => cases hlen
    | cons y d2 =>
      have hx : x < BASE := h1.headD
      have hy : y < BASE := h2.headD
      rw [absCompareLoop, @ih d2 h1.tail h2.tail (by simpa using hlen), val_eq (x :: d1), val_eq (y :: d2)]
      exact (order_add_mul hx hy).symm

lemma absCompare_limbs (m n : Nat) : absCompare (limbs m) (limbs n) = order m n := by
  rw [absCompare]
  by_cases hlt : (limbs m).length < (limbs n).length
  · rw [if_pos hlt, order, if_pos (lt_of_length_digits_lt hlt)]
  · rw [if_neg hlt]
    by_cases hgt : (limbs m).length > (limbs n).length
    · have hnm := lt_of_length_digits_lt hgt
      rw [if_pos hgt, order, if_neg (by omega), if_pos hnm]
    · rw [if_neg hgt, absCompareLoop_eq (bounded_limbs m) (bounded_limbs n) (by omega), val_limbs, val_limbs]

lemma length_limbs_eq_zero : (limbs n).length = 0 ↔ n = 0 := by
  rw [List.length_eq_zero_iff, digits_eq_nil_iff_eq_zero]

lemma limbs_cons (h : n ≠ 0) : limbs n = n % BASE :: limbs (n / BASE) := digits_eq_cons_digits_div one_lt_base h

lemma bounded_cons {x : Nat} (hx : x < BASE) (hl : Bounded l) : Bounded (x :: l) := List.forall_mem_cons.2 ⟨hx, hl⟩

lemma fits_of_lt (h : n < 2 ^ 28) : Fits n := by
  have hbase : BASE = 10000 := rfl
  refine ⟨by omega, ?_, ?_⟩
  · rw [hbase]
    omega
  · rw [hbase]
    omega

/-- Addition with a carry, on the limbs of numbers. -/
lemma add_carry (m n : Nat) {carry : Nat} (hcarry : carry ≤ 1) :
    add (limbs m) (limbs n) carry = .ok (limbs (m + n + carry)) := by
  induction hsum : m + n + carry using Nat.strong_induction_on generalizing m n carry with
  | _ total ih =>
    have hbase : BASE = 10000 := rfl
    rw [add]
    by_cases hdone : (limbs m).length = 0 ∧ (limbs n).length = 0 ∧ carry = 0
    · rw [length_limbs_eq_zero, length_limbs_eq_zero] at hdone
      obtain rfl : total = 0 := by omega
      simp [hdone]
    · have htotal : total ≠ 0 := by
        rw [length_limbs_eq_zero, length_limbs_eq_zero] at hdone
        omega
      rw [dif_neg hdone, headD_digits one_lt_base, headD_digits one_lt_base, tail_digits one_lt_base,
        tail_digits one_lt_base]
      have hm := Nat.div_add_mod m 10000
      have hn := Nat.div_add_mod n 10000
      have hdigit : total % BASE = (m % BASE + n % BASE + carry) % BASE := by
        rw [hbase]
        omega
      have hcarried : total / BASE = m / BASE + n / BASE + (m % BASE + n % BASE + carry) / BASE := by
        rw [hbase]
        omega
      have hless : total / BASE < total := Nat.div_lt_self (Nat.pos_of_ne_zero htotal) one_lt_base
      have hrest := ih (total / BASE) hless (m / BASE) (n / BASE) (by rw [hbase]; omega) hcarried.symm
      rw [if_pos (fits_of_lt (by rw [hbase]; omega)), hrest, limbs_cons htotal, hdigit]
      rfl

theorem add_limbs (m n : Nat) : add (limbs m) (limbs n) 0 = .ok (limbs (m + n)) := add_carry m n (Nat.zero_le 1)

/-- Subtraction with a borrow; one is left over exactly if the difference is negative. -/
lemma subLoop_spec (h1 : Bounded d1) (h2 : Bounded d2) (hlen : d2.length ≤ d1.length) {carry : Nat}
    (hcarry : carry ≤ 1) :
    ∃ res out, subLoop d1 d2 carry = .ok res ∧ res.length = d1.length ∧ Bounded res ∧ out ≤ 1 ∧
      val res + val d2 + carry = val d1 + out * BASE ^ d1.length := by
  induction d1 generalizing d2 carry with
  | nil =>
    obtain rfl : d2 = [] := List.length_eq_zero_iff.1 (Nat.le_zero.1 hlen)
    exact ⟨[], carry, rfl, rfl, h1, hcarry, by simp⟩
  | cons left d1 ih =>
    have hbase : BASE = 10000 := rfl
    have hleft : left < BASE := h1.headD
    have hright := h2.headD
    -- the borrow for the limbs above, and the limb
    obtain ⟨out, hle, limb, hlimb, hvalue⟩ : ∃ out ≤ 1, ∃ limb < BASE, limb + d2.headD 0 + carry =
      left + out * BASE := by
      by_cases hneg : left < d2.headD 0 + carry
      · exact ⟨1, le_rfl, left + BASE - d2.headD 0 - carry, by omega, by omega⟩
      · exact ⟨0, Nat.zero_le 1, left - d2.headD 0 - carry, by omega, by omega⟩
    obtain ⟨res, last, hres, hreslen, hbounded, hlast, hval⟩ :=
      ih h1.tail h2.tail (by simp at hlen ⊢; omega) hle
    have hborrow : (if (left - d2.headD 0 - carry : Int) ≥ 0 then 0 else 1) = (out : Int) := by
      rw [hbase] at hvalue hlimb
      split_ifs <;> omega
    have hpushed : (if (left - d2.headD 0 - carry : Int) ≥ 0 then (left - d2.headD 0 - carry : Int) else
        left - d2.headD 0 - carry + BASE) = limb := by
      rw [hbase] at hvalue hlimb ⊢
      split_ifs <;> omega
    refine ⟨limb :: res, last, ?_, by simp [hreslen], bounded_cons hlimb hbounded, hlast, ?_⟩
    · rw [subLoop, hpushed, hborrow, if_pos (by rw [hbase] at hlimb hleft hright; omega), hres]
      rfl
    · have hpow : last * BASE ^ (left :: d1).length = BASE * (last * BASE ^ d1.length) := by
        rw [List.length_cons, pow_succ]
        ring
      have hscaled := congrArg (BASE * ·) hval
      simp only [Nat.mul_add] at hscaled
      rw [val_eq (limb :: res), val_eq (left :: d1), val_eq d2, hpow, List.headD_cons, List.tail_cons, List.headD_cons,
        List.tail_cons]
      linarith

lemma sub_of_subLoop {res : Limbs} (h : subLoop d1 d2 (0 : Nat) = .ok res) (hbounded : Bounded res) :
    sub d1 d2 = .ok (limbs (val res)) := by
  rw [sub, ← Nat.cast_zero, h, ← clean_eq hbounded]
  rfl

/-- A difference that is not negative is exact. -/
theorem sub_eq (h1 : Bounded d1) (h2 : Bounded d2) (hlen : d2.length ≤ d1.length) (hle : val d2 ≤ val d1) :
    sub d1 d2 = .ok (limbs (val d1 - val d2)) := by
  obtain ⟨res, out, hres, hreslen, hbounded, hout, hval⟩ := subLoop_spec h1 h2 hlen (Nat.zero_le 1)
  have hlt := val_lt hbounded
  rw [hreslen] at hlt
  obtain rfl | rfl : out = 0 ∨ out = 1 := by omega
  · rw [sub_of_subLoop hres hbounded]
    congr 2
    omega
  · omega

/-- A negative difference comes out as its complement. -/
theorem sub_of_lt (h1 : Bounded d1) (h2 : Bounded d2) (hlen : d2.length ≤ d1.length) (hlt : val d1 < val d2) :
    sub d1 d2 = .ok (limbs (val d1 + BASE ^ d1.length - val d2)) := by
  obtain ⟨res, out, hres, hreslen, hbounded, hout, hval⟩ := subLoop_spec h1 h2 hlen (Nat.zero_le 1)
  obtain rfl | rfl : out = 0 ∨ out = 1 := by omega
  · omega
  · rw [sub_of_subLoop hres hbounded]
    congr 2
    omega

theorem sub_limbs (h : n ≤ m) : sub (limbs m) (limbs n) = .ok (limbs (m - n)) := by
  have hsub := sub_eq (bounded_limbs m) (bounded_limbs n) (le_length_digits_le BASE n m h) (by simpa using h)
  rwa [val_limbs, val_limbs] at hsub

/-- One row of the multiplication adds a multiple to what stands in the vector, if the sum has room there. -/
lemma multiplyRow_spec {factor : Nat} (hfactor : factor < BASE) (h2 : Bounded d2) (hl : Bounded l)
    (hlen : d2.length ≤ l.length) {carry : Nat} (hcarry : carry < BASE)
    (hroom : val l + factor * val d2 + carry < BASE ^ l.length) :
    ∃ res, multiplyRow factor d2 carry l = .ok res ∧ res.length = l.length ∧ Bounded res ∧
      val res = val l + factor * val d2 + carry := by
  induction l generalizing d2 carry with
  | nil =>
    obtain rfl : d2 = [] := List.length_eq_zero_iff.1 (Nat.le_zero.1 hlen)
    obtain rfl : carry = 0 := by simpa using hroom
    exact ⟨[], by simp [multiplyRow], rfl, hl, by simp⟩
  | cons limb l ih =>
    rw [multiplyRow]
    by_cases hdone : d2.length = 0 ∧ carry = 0
    · obtain ⟨hempty, rfl⟩ := hdone
      obtain rfl := List.length_eq_zero_iff.1 hempty
      exact ⟨limb :: l, by simp, rfl, hl, by simp⟩
    · have hbase : BASE = 10000 := rfl
      have hlimb : limb < BASE := hl.headD
      have hright := h2.headD
      obtain ⟨prod, hprod⟩ : ∃ prod, limb + factor * d2.headD 0 + carry = prod := ⟨_, rfl⟩
      have hmul : factor * d2.headD 0 ≤ 9999 * 9999 := Nat.mul_le_mul (by omega) (by omega)
      have hsplit := Nat.div_add_mod prod BASE
      have hall : val (limb :: l) + factor * val d2 + carry =
          prod % BASE + BASE * (val l + factor * val d2.tail + prod / BASE) := by
        rw [val_eq (limb :: l), val_eq d2, List.headD_cons, List.tail_cons]
        linarith
      have hroom' : val l + factor * val d2.tail + prod / BASE < BASE ^ l.length := by
        rw [hall, List.length_cons, pow_succ, Nat.mul_comm _ BASE] at hroom
        exact Nat.lt_of_mul_lt_mul_left (lt_of_le_of_lt (Nat.le_add_left _ _) hroom)
      have hfits : prod < 10000 * 10000 := by omega
      obtain ⟨res, hres, hreslen, hbounded, hval⟩ :=
        ih h2.tail hl.tail (by simp at hlen ⊢; omega) (by rw [hbase]; omega) hroom'
      have hdigit : prod % BASE < BASE := Nat.mod_lt _ (by decide)
      refine ⟨prod % BASE :: res, ?_, by simp [hreslen], bounded_cons hdigit hbounded, ?_⟩
      · rw [if_neg hdone]
        simp only [hprod]
        rw [if_pos (fits_of_lt (by omega)), hres]
        rfl
      · rw [hall, val_eq (_ :: res), List.headD_cons, List.tail_cons, hval]

lemma multiplyRows_spec (h1 : Bounded d1) (h2 : Bounded d2) (hl : Bounded l) (hlen : d1.length + d2.length ≤ l.length)
    (hroom : val l + val d1 * val d2 < BASE ^ l.length) :
    ∃ res, multiplyRows d2 d1 l = .ok res ∧ Bounded res ∧ val res = val l + val d1 * val d2 := by
  induction d1 generalizing l with
  | nil => exact ⟨l, rfl, hl, by simp⟩
  | cons factor d1 ih =>
    have hsplit : val (factor :: d1) * val d2 = factor * val d2 + BASE * (val d1 * val d2) := by
      rw [val_eq (factor :: d1), List.headD_cons, List.tail_cons]
      ring
    have hfactor : factor < BASE := h1.headD
    have hfirst : val l + factor * val d2 + 0 < BASE ^ l.length := by omega
    obtain ⟨row, hrow, hrowlen, hbounded, hval⟩ :=
      multiplyRow_spec hfactor h2 hl (by simp at hlen; omega) (by decide) hfirst
    cases row with
    | nil =>
      rw [List.length_cons] at hlen
      rw [List.length_nil] at hrowlen
      omega
    | cons limb row =>
      have hvalue : limb + BASE * (val row + val d1 * val d2) = val l + val (factor :: d1) * val d2 := by
        rw [hsplit, ← Nat.add_assoc, ← Nat.add_zero (factor * val d2), ← Nat.add_assoc, ← hval, val_eq (limb :: row),
          List.headD_cons, List.tail_cons]
        ring
      have hroom' : val row + val d1 * val d2 < BASE ^ row.length := by
        rw [← hvalue, ← hrowlen, List.length_cons, pow_succ, Nat.mul_comm _ BASE] at hroom
        exact Nat.lt_of_mul_lt_mul_left (lt_of_le_of_lt (Nat.le_add_left _ _) hroom)
      obtain ⟨res, hres, hbounded', hval'⟩ :=
        @ih row h1.tail hbounded.tail (by rw [← hrowlen] at hlen; simp at hlen; omega) hroom'
      refine ⟨limb :: res, ?_, bounded_cons hbounded.headD hbounded', ?_⟩
      · rw [multiplyRows, hrow]
        change (do let rest ← multiplyRows d2 d1 row; pure ([limb] ++ rest)) = _
        rw [hres]
        rfl
      · rw [val_eq (limb :: res), List.headD_cons, List.tail_cons, hval', hvalue]

theorem multiply_eq (h1 : Bounded d1) (h2 : Bounded d2) : multiply d1 d2 = .ok (limbs (val d1 * val d2)) := by
  have hzeros : Bounded (List.replicate (d1.length + d2.length) 0) := fun d hd => by
    rw [List.eq_of_mem_replicate hd]
    decide
  have hroom : val d1 * val d2 < BASE ^ (d1.length + d2.length) := by
    rw [pow_add]
    exact Nat.mul_lt_mul'' (val_lt h1) (val_lt h2)
  obtain ⟨res, hres, hbounded, hval⟩ := multiplyRows_spec h1 h2 hzeros (by simp)
    (by rw [val_zeros, List.length_replicate, Nat.zero_add]; exact hroom)
  rw [val_zeros, Nat.zero_add] at hval
  rw [multiply, hres, ← hval]
  change Except.ok (clean (clean res)) = _
  rw [clean_eq hbounded, clean_limbs]

namespace BigInt

/-- Limbs below the base, and no zero at the top. -/
def Canonical (x : BigInt) : Prop := Bounded x.data ∧ ∀ h : x.data ≠ [], x.data.getLast h ≠ 0

def abs (x : BigInt) : Nat := val x.data

/-- The integer that is denoted. -/
def toInt (x : BigInt) : Int := if x.negative then -(x.abs : Int) else x.abs

variable {x y : BigInt}

lemma Canonical.data (h : x.Canonical) : x.data = limbs x.abs := eq_digits one_lt_base h.1 h.2

lemma canonical_limbs (n : Nat) (negative : Bool) : Canonical ⟨limbs n, negative⟩ := by
  refine ⟨bounded_limbs n, fun h => ?_⟩
  have hn : n ≠ 0 := digits_ne_nil_iff_ne_zero.1 (show limbs n ≠ [] from h)
  exact getLast_digit_ne_zero BASE hn

@[simp] lemma toInt_limbs (n : Nat) (negative : Bool) :
    toInt ⟨limbs n, negative⟩ = if negative then -(n : Int) else n := by
  rw [toInt, abs, val_limbs]

/-- Canonical numbers are made of a number and a sign. -/
lemma Canonical.exists_eq (h : x.Canonical) : ∃ n s, x = ⟨limbs n, s⟩ := ⟨x.abs, x.negative, by rw [← h.data]⟩

/-- The difference of the absolute values, with the sign of the larger one. -/
lemma difference_eq (m n : Nat) (s t : Bool) :
    (if order m n = 0 then .ok zero
      else do
        let data ← sub (if order m n = 1 then limbs m else limbs n) (if order m n = 1 then limbs n else limbs m)
        return ⟨data, if order m n = 1 then s else t⟩ : Except Fault BigInt) =
      .ok (if m = n then zero else if n < m then ⟨limbs (m - n), s⟩ else ⟨limbs (n - m), t⟩) := by
  rcases Nat.lt_trichotomy m n with hlt | rfl | hgt
  · have horder : order m n = -1 := if_pos hlt
    rw [horder, if_neg (by decide), if_neg (by decide), if_neg (by decide), if_neg (by decide), sub_limbs hlt.le,
      if_neg hlt.ne,
      if_neg (by omega)]
    rfl
  · simp [order]
  · have horder : order m n = 1 := by rw [order, if_neg (by omega), if_pos hgt]
    rw [horder, if_neg (by decide), if_pos rfl, if_pos rfl, if_pos rfl, sub_limbs hgt.le, if_neg hgt.ne', if_pos hgt]
    rfl

lemma opAdd_limbs (m n : Nat) (s t : Bool) : opAdd ⟨limbs m, s⟩ ⟨limbs n, t⟩ =
    .ok (if s = t then ⟨limbs (m + n), s⟩
      else if m = n then zero else if n < m then ⟨limbs (m - n), s⟩ else ⟨limbs (n - m), t⟩) := by
  rw [opAdd]
  by_cases hst : s = t
  · rw [if_pos hst, if_pos hst, add_limbs]
    rfl
  · rw [if_neg hst, if_neg hst]
    simp only [absCompare_limbs]
    exact difference_eq m n s t

lemma opSub_limbs (m n : Nat) (s t : Bool) : opSub ⟨limbs m, s⟩ ⟨limbs n, t⟩ =
    .ok (if s ≠ t then ⟨limbs (m + n), s⟩
      else if m = n then zero else if n < m then ⟨limbs (m - n), s⟩ else ⟨limbs (n - m), !t⟩) := by
  rw [opSub]
  by_cases hst : s ≠ t
  · rw [if_pos hst, if_pos hst, add_limbs]
    rfl
  · rw [if_neg hst, if_neg hst]
    simp only [absCompare_limbs]
    exact difference_eq m n s (!t)

lemma opMul_limbs (m n : Nat) (s t : Bool) :
    opMul ⟨limbs m, s⟩ ⟨limbs n, t⟩ = .ok ⟨limbs (m * n), s ^^ t⟩ := by
  rw [opMul, multiply_eq (bounded_limbs m) (bounded_limbs n), val_limbs, val_limbs]
  rfl

/-- Nothing overflows, the result is canonical, and it is the one that is wanted. -/
def Exact (result : Except Fault BigInt) (z : Int) : Prop := ∃ r, result = .ok r ∧ r.Canonical ∧ r.toInt = z

lemma canonical_zero : Canonical zero := ⟨by simp [zero, Bounded], fun h => absurd rfl h⟩

lemma toInt_zero : toInt zero = 0 := rfl

theorem exact_opAdd (hx : x.Canonical) (hy : y.Canonical) : Exact (x.opAdd y) (x.toInt + y.toInt) := by
  obtain ⟨m, s, rfl⟩ := hx.exists_eq
  obtain ⟨n, t, rfl⟩ := hy.exists_eq
  refine ⟨_, opAdd_limbs m n s t, ?_, ?_⟩
  · split_ifs
    · exact canonical_limbs _ _
    · exact canonical_zero
    · exact canonical_limbs _ _
    · exact canonical_limbs _ _
  · cases s <;> cases t <;> split_ifs <;> simp_all [toInt_zero] <;> omega

theorem exact_opSub (hx : x.Canonical) (hy : y.Canonical) : Exact (x.opSub y) (x.toInt - y.toInt) := by
  obtain ⟨m, s, rfl⟩ := hx.exists_eq
  obtain ⟨n, t, rfl⟩ := hy.exists_eq
  refine ⟨_, opSub_limbs m n s t, ?_, ?_⟩
  · split_ifs
    · exact canonical_limbs _ _
    · exact canonical_zero
    · exact canonical_limbs _ _
    · exact canonical_limbs _ _
  · cases s <;> cases t <;> split_ifs <;> simp_all [toInt_zero] <;> omega

theorem exact_opMul (hx : x.Canonical) (hy : y.Canonical) : Exact (x.opMul y) (x.toInt * y.toInt) := by
  obtain ⟨m, s, rfl⟩ := hx.exists_eq
  obtain ⟨n, t, rfl⟩ := hy.exists_eq
  refine ⟨_, opMul_limbs m n s t, canonical_limbs _ _, ?_⟩
  cases s <;> cases t <;> simp

theorem exact_opNeg (hx : x.Canonical) : Exact (.ok x.opNeg) (-x.toInt) := by
  obtain ⟨m, s, rfl⟩ := hx.exists_eq
  refine ⟨_, rfl, canonical_limbs m (!s), ?_⟩
  rw [opNeg, toInt_limbs, toInt_limbs]
  cases s <;> simp

/-- Sums, differences, negations and products are exact, canonical, and free of overflow. -/
theorem arithmetic_exact (hx : x.Canonical) (hy : y.Canonical) :
    Exact (x.opAdd y) (x.toInt + y.toInt) ∧ Exact (x.opSub y) (x.toInt - y.toInt) ∧
      Exact (.ok x.opNeg) (-x.toInt) ∧ Exact (x.opMul y) (x.toInt * y.toInt) :=
  ⟨exact_opAdd hx hy, exact_opSub hx hy, exact_opNeg hx, exact_opMul hx hy⟩

/-- With a carry in each of them. -/
theorem arithmetic_exact_carries :
    let x : BigInt := ⟨[9999, 9999], false⟩
    let y : BigInt := ⟨[1], true⟩
    Exact (x.opAdd y) (x.toInt + y.toInt) ∧ Exact (x.opSub y) (x.toInt - y.toInt) ∧
      Exact (.ok x.opNeg) (-x.toInt) ∧ Exact (x.opMul y) (x.toInt * y.toInt) :=
  arithmetic_exact ⟨by unfold Bounded; decide, by decide⟩ ⟨by unfold Bounded; decide, by decide⟩

end BigInt

end CppExperiments.BI

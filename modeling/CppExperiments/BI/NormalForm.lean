import CppExperiments.BI.Division

/-!
# Normal form

Which constructors and operators restore the form on which the comparisons rest, and that the comparisons
agree with the integers on it.
-/

namespace CppExperiments.BI

open Nat

/-! ## Constructors -/

variable {str bs : Bytes} {acc pow : Nat} {data : Limbs}

/-- The piece, its power of ten, and the limbs make up the number read so far. -/
lemma stringLoop_spec (h : bs.all isDigit = true) :
    ∃ acc data, stringLoop str bs = .ok (acc, 10 ^ (bs.length % 4), data) ∧
    acc < 10 ^ (bs.length % 4) ∧ Bounded data ∧ data.length = bs.length / 4 ∧
      val data + BASE ^ (bs.length / 4) * acc = digitsValue bs := by
  induction bs with
  | nil => exact ⟨0, [], rfl, by simp, by simp [Bounded], rfl, by simp [digitsValue]⟩
  | cons ch bs ih =>
    rw [List.all_cons, Bool.and_eq_true] at h
    obtain ⟨acc, data, hloop, hacc, hbounded, hlen, hval⟩ := ih h.2
    have hdigit := digit_le_nine h.1
    obtain ⟨d, hd⟩ : ∃ d, ch.toNat - 48 = d := ⟨_, rfl⟩
    rw [hd] at hdigit
    have hpow : 10 ^ bs.length = BASE ^ (bs.length / 4) * 10 ^ (bs.length % 4) := by
      rw [show BASE = 10 ^ 4 from rfl, ← pow_mul, ← pow_add, Nat.div_add_mod]
    have hvalue : digitsValue (ch :: bs) =
        val data + BASE ^ (bs.length / 4) * (acc + 10 ^ (bs.length % 4) * d) := by
      rw [digitsValue_cons, hd, hpow, ← hval]
      ring
    obtain ⟨j, hj⟩ : ∃ j, bs.length % 4 = j := ⟨_, rfl⟩
    obtain ⟨piece, hpiece⟩ : ∃ piece, acc + 10 ^ j * d = piece := ⟨_, rfl⟩
    have hj4 : j < 4 := by omega
    have hless : piece < 10 ^ (j + 1) := by
      have hle : 10 ^ j * d ≤ 10 ^ j * 9 := Nat.mul_le_mul_left _ hdigit
      rw [hj] at hacc
      rw [pow_succ]
      omega
    have hpowle : 10 ^ (j + 1) ≤ 10 ^ 4 := Nat.pow_le_pow_right (by decide) hj4
    have hstep : stringLoop str (ch :: bs) = .ok
        (if 10 ^ (j + 1) = BASE then (0, 1, data ++ [piece]) else (piece, 10 ^ (j + 1), data)) := by
      rw [stringLoop, hloop]
      change (if isDigit ch then _ else _) = _
      rw [if_pos h.1, hd, hj, hpiece, ← pow_succ, Nat.mod_eq_of_lt (by omega), Nat.mod_eq_of_lt (by omega)]
      rfl
    rw [hj, hpiece] at hvalue
    by_cases hfull : j = 3
    · subst hfull
      have hquot : (ch :: bs).length / 4 = bs.length / 4 + 1 := by
        rw [List.length_cons]
        omega
      have hrem : (ch :: bs).length % 4 = 0 := by
        rw [List.length_cons]
        omega
      rw [hquot, hrem]
      refine ⟨0, data ++ [piece], hstep, Nat.one_pos, ?_, by simp [hlen], ?_⟩
      · intro x hx
        rcases List.mem_append.1 hx with hx | hx
        · exact hbounded x hx
        · rw [List.mem_singleton.1 hx]
          exact hless
      · rw [hvalue, val, ofDigits_append, ofDigits_singleton, hlen, Nat.mul_zero, Nat.add_zero]
    · have hquot : (ch :: bs).length / 4 = bs.length / 4 := by
        rw [List.length_cons]
        omega
      have hrem : (ch :: bs).length % 4 = j + 1 := by
        rw [List.length_cons]
        omega
      have hne : 10 ^ (j + 1) ≠ BASE := by
        have hlt : 10 ^ (j + 1) < 10 ^ 4 := Nat.pow_lt_pow_right (by decide) (by omega)
        exact hlt.ne
      rw [hquot, hrem]
      exact ⟨piece, data, by rw [hstep, if_neg hne], hless, hbounded, hlen, hvalue.symm⟩

lemma stringLoop_invalid (h : bs.all isDigit = false) : ∃ what, stringLoop str bs = .error (.runtime_error what) := by
  induction bs with
  | nil => cases h
  | cons ch bs ih =>
    rw [stringLoop]
    by_cases hrest : bs.all isDigit = true
    · obtain ⟨acc, data, hloop, -⟩ := @stringLoop_spec str bs hrest
      have hch : ¬ isDigit ch = true := by
        rw [List.all_cons, hrest, Bool.and_true] at h
        rw [h]
        exact Bool.false_ne_true
      rw [hloop]
      exact ⟨_, if_neg hch⟩
    · obtain ⟨what, hwhat⟩ := ih (by simpa using hrest)
      exact ⟨what, by rw [hwhat]; rfl⟩

namespace BigInt

/-- A value comes out in normal form, or an exception; nothing else happens. -/
def Restored : Except Fault BigInt → Prop
  | .ok x => x.Normal
  | .error (.runtime_error _) => True
  | .error _ => False

/-- With a full group of four digits, the groups are not headed by zeros; and a zero has no minus sign. -/
def StringSafe (str : Bytes) : Prop :=
  (unsigned str).all isDigit = true →
    ((unsigned str).length / 4 = 0 ∨ BASE ^ ((unsigned str).length / 4 - 1) ≤ digitsValue (unsigned str)) ∧
      (str.head? = some 45 → digitsValue (unsigned str) ≠ 0)

theorem restored_ofString : Restored (ofString str) ↔ StringSafe str := by
  by_cases h : (unsigned str).all isDigit = true
  · obtain ⟨acc, data, hloop, hacc, hbounded, hlen, hval⟩ := @stringLoop_spec (unsigned str) (unsigned str) h
    have hstring : ofString str =
        .ok ⟨if acc = 0 then data else data ++ [acc], decide (str.head? = some 45)⟩ := by
      rw [ofString, hloop]
      rfl
    have hsign : ∀ l : Limbs, val l = digitsValue (unsigned str) →
        (((abs ⟨l, decide (str.head? = some 45)⟩ = 0) → decide (str.head? = some 45) = false) ↔
          (str.head? = some 45 → digitsValue (unsigned str) ≠ 0)) := by
      intro l hl
      rw [abs, hl, decide_eq_false_iff_not]
      tauto
    rw [hstring]
    by_cases hzero : acc = 0
    · rw [hzero, Nat.mul_zero, Nat.add_zero] at hval
      rw [if_pos hzero]
      have htop := getLast_ne_zero_iff one_lt_base hbounded
      rw [← List.length_eq_zero_iff, hlen] at htop
      constructor
      · rintro ⟨⟨-, hcanonical⟩, hs⟩ -
        refine ⟨?_, (hsign data hval).1 hs⟩
        rw [← hval]
        exact htop.1 hcanonical
      · intro hsafe
        obtain ⟨hgroups, hs⟩ := hsafe h
        rw [← hval] at hgroups
        exact ⟨⟨hbounded, htop.2 hgroups⟩, (hsign data hval).2 hs⟩
    · rw [if_neg hzero]
      have hall : val (data ++ [acc]) = digitsValue (unsigned str) := by
        rw [val, ofDigits_append, ofDigits_singleton, hlen, hval]
      have hpiece : acc < BASE := by
        have hpow : 10 ^ ((unsigned str).length % 4) ≤ 10 ^ 4 :=
          Nat.pow_le_pow_right (by decide) (Nat.le_of_lt (Nat.mod_lt _ (by decide)))
        exact lt_of_lt_of_le hacc hpow
      have hgroups : BASE ^ ((unsigned str).length / 4 - 1) ≤ digitsValue (unsigned str) := by
        have hmul := Nat.le_mul_of_pos_right (BASE ^ ((unsigned str).length / 4)) (Nat.pos_of_ne_zero hzero)
        have hpow : BASE ^ ((unsigned str).length / 4 - 1) ≤ BASE ^ ((unsigned str).length / 4) :=
          Nat.pow_le_pow_right (by decide) (Nat.sub_le _ _)
        omega
      have hcanonical : Canonical ⟨data ++ [acc], decide (str.head? = some 45)⟩ := by
        refine ⟨?_, fun _ => by rwa [List.getLast_concat]⟩
        intro x hx
        rcases List.mem_append.1 hx with hx | hx
        · exact hbounded x hx
        · rwa [List.mem_singleton.1 hx]
      constructor
      · rintro ⟨-, hs⟩ -
        exact ⟨Or.inr hgroups, (hsign _ hall).1 hs⟩
      · intro hsafe
        exact ⟨hcanonical, (hsign _ hall).2 (hsafe h).2⟩
  · obtain ⟨what, hwhat⟩ := @stringLoop_invalid (unsigned str) (unsigned str) (by simpa using h)
    have hstring : ofString str = .error (.runtime_error what) := by
      rw [ofString, hwhat]
      rfl
    rw [hstring]
    exact ⟨fun _ hdigits => absurd hdigits h, fun _ => trivial⟩

/-- The loop of the constructor from an integer writes the limbs of a number. -/
lemma integralLoop_eq (n : Nat) : integralLoop n = limbs n := by
  induction n using Nat.strong_induction_on with
  | _ n ih =>
    rw [integralLoop]
    by_cases hn : n = 0
    · simp [hn]
    · have hmod : (((n : Int).tmod BASE) % 2 ^ 16).toNat = n % BASE := by
        have hlt : n % BASE < BASE := Nat.mod_lt n (by decide)
        rw [← Int.ofNat_tmod]
        have hbase : BASE = 10000 := rfl
        omega
      rw [if_neg (by omega), hmod, ← Int.ofNat_tdiv, ih _ (Nat.div_lt_self (Nat.pos_of_ne_zero hn) one_lt_base),
        limbs_cons hn]

lemma convert_of_le {t : IntegralType} {z : Int} (h0 : 0 ≤ z) (h : z ≤ t.greatest) : t.convert z = z := by
  unfold IntegralType.convert IntegralType.greatest at *
  cases t <;> simp only [IntegralType.signed, IntegralType.bits, if_true, Bool.false_eq_true, if_false] at *
  case unsignedChar | unsignedShort => omega
  all_goals
    rw [Int.bmod_eq_of_le] <;> omega

lemma abs_le_greatest {t : IntegralType} {z : Int} (hlow : t.least ≤ z) (hhigh : z ≤ t.greatest)
    (h : t.signed = true → z ≠ t.least) : |z| ≤ t.greatest := by
  refine abs_le.2 ⟨?_, hhigh⟩
  unfold IntegralType.least at h hlow
  unfold IntegralType.greatest at hhigh ⊢
  by_cases hs : t.signed = true
  · rw [if_pos hs] at hlow hhigh ⊢
    have hne := h hs
    rw [if_pos hs] at hne
    omega
  · rw [if_neg hs] at hlow hhigh ⊢
    omega

lemma not_bounded_integralLoop : ¬ Bounded (integralLoop (-128)) ∧ ¬ Bounded (integralLoop (-32768)) := by
  constructor
  · rw [integralLoop]
    intro h
    exact absurd (h 65408 (by simp [BASE])) (by decide)
  · rw [integralLoop]
    intro h
    exact absurd (h 62768 (by simp [BASE])) (by decide)

theorem restored_ofIntegral {t : IntegralType} (num : t.Value) :
    Restored (ofIntegral t num) ↔ (t.signed = true → num.1 ≠ t.least) := by
  by_cases hsafe : t.signed = true → num.1 ≠ t.least
  · have hvalue : t.convert |num.1| = (num.1.natAbs : Int) := by
      rw [convert_of_le (abs_nonneg _) (abs_le_greatest num.2.1 num.2.2 hsafe), Int.natCast_natAbs]
    have hwide : ¬ (32 ≤ t.bits ∧ num.1 = t.least) := by
      rintro ⟨hbits, heq⟩
      refine hsafe ?_ heq
      cases t <;> first | rfl | exact absurd hbits (by decide)
    rw [ofIntegral, if_neg hwide, hvalue, integralLoop_eq]
    refine ⟨fun _ => hsafe, fun _ => normal_limbs fun hn => ?_⟩
    rw [Int.natAbs_eq_zero.1 hn]
    rfl
  · refine ⟨fun h => absurd h ?_, fun h => absurd h hsafe⟩
    push Not at hsafe
    obtain ⟨hsigned, hleast⟩ := hsafe
    have hneg : num.1 < 0 := by
      rw [hleast, IntegralType.least, if_pos hsigned]
      exact neg_neg_of_pos (pow_pos (by decide) _)
    by_cases hwide : 32 ≤ t.bits
    · rw [ofIntegral, if_pos ⟨hwide, hleast⟩]
      exact id
    · rw [ofIntegral, if_neg (fun hand => hwide hand.1), hleast]
      rintro ⟨⟨hbounded, -⟩, -⟩
      cases t with
      | signedChar => exact not_bounded_integralLoop.1 hbounded
      | short => exact not_bounded_integralLoop.2 hbounded
      | int | long => exact hwide (by decide)
      | unsignedChar | unsignedShort => cases hsigned

/-! ## Operators -/

variable {x y : BigInt} {m n b : Nat} {s t : Bool}

lemma normal_limbs_iff : Normal ⟨limbs n, s⟩ ↔ (n = 0 → s = false) :=
  ⟨fun h hn => h.sign (by rw [abs, val_limbs, hn]), normal_limbs⟩

lemma normal_zero : Normal zero := ⟨canonical_zero, fun _ => rfl⟩

theorem restored_opNeg (hx : x.Normal) : Restored (.ok x.opNeg) ↔ x.abs ≠ 0 := by
  obtain ⟨n, s, rfl, hs⟩ := hx.exists_eq
  change Normal ⟨limbs n, !s⟩ ↔ _
  rw [normal_limbs_iff, abs, val_limbs]
  cases s with
  | false => simp
  | true => simpa using hs

theorem restored_opAdd (hx : x.Normal) (hy : y.Normal) : Restored (x.opAdd y) := by
  obtain ⟨m, s, rfl, hs⟩ := hx.exists_eq
  obtain ⟨n, t, rfl, ht⟩ := hy.exists_eq
  rw [opAdd_limbs]
  change Normal _
  split_ifs
  · exact normal_limbs fun h => hs (by omega)
  · exact normal_zero
  · exact normal_limbs fun h => absurd h (by omega)
  · exact normal_limbs fun h => absurd h (by omega)

theorem restored_opSub (hx : x.Normal) (hy : y.Normal) : Restored (x.opSub y) := by
  obtain ⟨m, s, rfl, hs⟩ := hx.exists_eq
  obtain ⟨n, t, rfl, ht⟩ := hy.exists_eq
  rw [opSub_limbs]
  change Normal _
  split_ifs
  · exact normal_limbs fun h => hs (by omega)
  · exact normal_zero
  · exact normal_limbs fun h => absurd h (by omega)
  · exact normal_limbs fun h => absurd h (by omega)

theorem restored_opMul (hx : x.Normal) (hy : y.Normal) :
    Restored (x.opMul y) ↔ (x.abs * y.abs = 0 → x.negative = y.negative) := by
  obtain ⟨m, s, rfl, hs⟩ := hx.exists_eq
  obtain ⟨n, t, rfl, ht⟩ := hy.exists_eq
  rw [opMul_limbs]
  change Normal _ ↔ _
  rw [normal_limbs_iff, abs, abs, val_limbs, val_limbs]
  cases s <;> cases t <;> simp

lemma restored_divisionByZero : Restored (.error divisionByZero) := trivial

theorem restored_opDiv (hx : x.Normal) (hy : y.Normal) : Restored (x.opDiv y) := by
  obtain ⟨n, s, rfl, hs⟩ := hx.exists_eq
  obtain ⟨b, t, rfl, ht⟩ := hy.exists_eq
  by_cases hb : b = 0
  · rw [opDiv, empty_limbs, decide_eq_true hb]
    exact restored_divisionByZero
  · by_cases hgap : Gap b (limbs n)
    · obtain ⟨q, v, hq, -, hdiv, -⟩ := opDiv_opMod_of_gap hb hgap s t
      rw [hdiv]
      exact normal_limbs fun h => absurd h hq
    · rw [opDiv_limbs hb hgap]
      change Normal _
      split_ifs with hlt
      · exact normal_zero
      · refine normal_limbs fun h => absurd ((Nat.div_eq_zero_iff).1 h) ?_
        omega

theorem restored_opMod (hx : x.Normal) (hy : y.Normal) : Restored (x.opMod y) ↔
    (x.negative = true → x.abs ≠ y.abs → y.abs ∣ x.abs → Gap y.abs x.data) := by
  obtain ⟨n, s, rfl, hs⟩ := hx.exists_eq
  obtain ⟨b, t, rfl, ht⟩ := hy.exists_eq
  rw [abs, abs, val_limbs, val_limbs]
  by_cases hb : b = 0
  · rw [opMod, empty_limbs, decide_eq_true hb]
    refine iff_of_true restored_divisionByZero fun _ hne hdvd => absurd ?_ hne
    rw [hb] at hdvd ⊢
    exact Nat.zero_dvd.1 hdvd
  · by_cases hgap : Gap b (limbs n)
    · obtain ⟨q, v, -, hv, -, hmod⟩ := opDiv_opMod_of_gap hb hgap s t
      rw [hmod]
      exact iff_of_true (normal_limbs fun h => absurd h (by omega)) fun _ _ _ => hgap
    · rw [opMod_limbs hb hgap]
      by_cases heq : n = b
      · rw [if_pos heq]
        exact iff_of_true normal_zero fun _ hne => absurd heq hne
      · rw [if_neg heq]
        change Normal _ ↔ _
        rw [normal_limbs_iff, Nat.dvd_iff_mod_eq_zero]
        cases s with
        | false => simp
        | true => simp [heq, hgap]

/-! ## Comparisons -/

/-- On normal forms the order of the integers is found. -/
lemma compare_eq (hx : x.Normal) (hy : y.Normal) :
    compare x y = if x.toInt < y.toInt then -1 else if y.toInt < x.toInt then 1 else 0 := by
  obtain ⟨m, s, rfl, hs⟩ := hx.exists_eq
  obtain ⟨n, t, rfl, ht⟩ := hy.exists_eq
  rw [compare, toInt_limbs, toInt_limbs]
  simp only [absCompare_limbs, order, gt_iff_lt]
  cases s <;> cases t
  · simp only [ne_eq, not_true_eq_false, if_false, or_true, if_true, Bool.false_eq_true, Nat.cast_lt]
  · have hn : n ≠ 0 := fun h => absurd (ht h) (by decide)
    simp only [ne_eq, Bool.false_eq_true, not_false_eq_true, if_true, if_false]
    rw [if_neg (by omega), if_pos (by omega)]
  · have hm : m ≠ 0 := fun h => absurd (hs h) (by decide)
    simp only [ne_eq, Bool.true_eq_false, not_false_eq_true, Bool.false_eq_true, if_true, if_false]
    rw [if_pos (by omega)]
  · simp only [ne_eq, not_true_eq_false, if_false, Bool.true_eq_false, or_false, if_true, neg_lt_neg_iff, Nat.cast_lt]
    rcases Nat.lt_trichotomy m n with hlt | rfl | hgt
    · simp [hlt, hlt.not_gt]
    · simp
    · simp [hgt, hgt.not_gt]

/-- The comparisons say what the integers say. -/
structure Agree (x y : BigInt) : Prop where
  eq : x.opEq y = decide (x.toInt = y.toInt)
  lt : x.opLt y = decide (x.toInt < y.toInt)
  le : x.opLe y = decide (x.toInt ≤ y.toInt)
  gt : x.opGt y = decide (x.toInt > y.toInt)
  ge : x.opGe y = decide (x.toInt ≥ y.toInt)

theorem agree_of_normal (hx : x.Normal) (hy : y.Normal) : Agree x y := by
  have hcompare := compare_eq hx hy
  constructor
  · rw [opEq, hcompare]
    split_ifs <;> simp <;> omega
  · rw [opLt, hcompare]
    split_ifs <;> simp <;> omega
  · rw [opLe, hcompare]
    split_ifs <;> simp <;> omega
  · rw [opGt, hcompare]
    split_ifs <;> simp <;> omega
  · rw [opGe, hcompare]
    split_ifs <;> simp <;> omega

end BigInt

/-! ## Expressions -/

inductive Operator where
  | add
  | sub
  | mul
  | div
  | mod
  deriving DecidableEq

/-- What a program builds with the public constructors and operators. -/
inductive Expr where
  | default
  | string (str : Bytes)
  | integral (t : IntegralType) (num : t.Value)
  | minus (x : Expr)
  | plus (x : Expr)
  | binary (op : Operator) (x y : Expr)

def Operator.apply : Operator → BigInt → BigInt → Except Fault BigInt
  | add => BigInt.opAdd
  | sub => BigInt.opSub
  | mul => BigInt.opMul
  | div => BigInt.opDiv
  | mod => BigInt.opMod

/-- A product that is zero has operands of one sign; a negative number is not a multiple of the divisor, unless of the
same size or across a gap. -/
def Operator.Safe (op : Operator) (a b : BigInt) : Prop :=
  match op with
  | mul => a.abs * b.abs = 0 → a.negative = b.negative
  | mod => a.negative = true → a.abs ≠ b.abs → b.abs ∣ a.abs → Gap b.abs a.data
  | _ => True

namespace Expr

def eval : Expr → Except Fault BigInt
  | default => .ok BigInt.zero
  | string str => BigInt.ofString str
  | integral t num => BigInt.ofIntegral t num
  | minus x => do
    let a ← x.eval
    return a.opNeg
  | plus x => do
    let a ← x.eval
    return a.opPos
  | binary op x y => do
    let a ← x.eval
    let b ← y.eval
    op.apply a b

def subexpressions : Expr → List Expr
  | minus x => minus x :: x.subexpressions
  | plus x => plus x :: x.subexpressions
  | binary op x y => binary op x y :: (x.subexpressions ++ y.subexpressions)
  | e => [e]

/-- Every value on the way is in normal form. -/
def Sound (e : Expr) : Prop := ∀ f ∈ e.subexpressions, BigInt.Restored f.eval

/-- What the last constructor or operator finds, so that it restores the normal form. -/
def Safe : Expr → Prop
  | default => True
  | string str => BigInt.StringSafe str
  | integral t num => t.signed = true → num.1 ≠ t.least
  | minus x => ∀ a, x.eval = .ok a → a.abs ≠ 0
  | plus _ => True
  | binary op x y => ∀ a b, x.eval = .ok a → y.eval = .ok b → op.Safe a b

def Careful (e : Expr) : Prop := ∀ f ∈ e.subexpressions, f.Safe

variable {e x y : Expr} {a b : BigInt} {op : Operator}

lemma self_mem (e : Expr) : e ∈ e.subexpressions := by
  cases e <;> simp [subexpressions]

lemma Sound.restored (h : x.Sound) : BigInt.Restored x.eval := h x (self_mem x)

/-- A sound expression has a value in normal form, or throws. -/
lemma Sound.cases (h : x.Sound) : (∃ a, x.eval = .ok a ∧ a.Normal) ∨ ∃ what, x.eval = .error (.runtime_error what) := by
  have hrestored := h.restored
  cases heval : x.eval with
  | ok a =>
    rw [heval] at hrestored
    exact Or.inl ⟨a, rfl, hrestored⟩
  | error fault =>
    rw [heval] at hrestored
    cases fault with
    | runtime_error what => exact Or.inr ⟨what, rfl⟩
    | overflow | outOfRange | uninitialized => exact hrestored.elim

lemma restored_apply (ha : a.Normal) (hb : b.Normal) : BigInt.Restored (op.apply a b) ↔ op.Safe a b := by
  cases op with
  | add => exact iff_of_true (BigInt.restored_opAdd ha hb) trivial
  | sub => exact iff_of_true (BigInt.restored_opSub ha hb) trivial
  | mul => exact BigInt.restored_opMul ha hb
  | div => exact iff_of_true (BigInt.restored_opDiv ha hb) trivial
  | mod => exact BigInt.restored_opMod ha hb

lemma restored_minus (hx : x.Sound) : BigInt.Restored (minus x).eval ↔ (minus x).Safe := by
  obtain ⟨a, heval, ha⟩ | ⟨what, heval⟩ := hx.cases
  · rw [eval, Safe, heval]
    refine (BigInt.restored_opNeg ha).trans ⟨fun h a' ha' => ?_, fun h => h a rfl⟩
    rwa [← Except.ok.inj ha']
  · rw [eval, Safe, heval]
    exact iff_of_true trivial fun _ h => nomatch h

lemma restored_plus (hx : x.Sound) : BigInt.Restored (plus x).eval ↔ (plus x).Safe := by
  obtain ⟨a, heval, ha⟩ | ⟨what, heval⟩ := hx.cases
  · rw [eval, heval]
    exact iff_of_true (show a.opPos.Normal from ha) trivial
  · rw [eval, heval]
    exact iff_of_true trivial trivial

lemma restored_binary (hx : x.Sound) (hy : y.Sound) :
    BigInt.Restored (binary op x y).eval ↔ (binary op x y).Safe := by
  obtain ⟨a, hxeval, ha⟩ | ⟨what, hxeval⟩ := hx.cases
  · obtain ⟨b, hyeval, hb⟩ | ⟨what, hyeval⟩ := hy.cases
    · rw [eval, Safe, hxeval, hyeval]
      refine (restored_apply ha hb).trans ⟨fun h a' b' ha' hb' => ?_, fun h => h a b rfl rfl⟩
      rwa [← Except.ok.inj ha', ← Except.ok.inj hb']
    · rw [eval, Safe, hxeval, hyeval]
      exact iff_of_true trivial fun _ _ _ h => nomatch h
  · rw [eval, Safe, hxeval]
    exact iff_of_true trivial fun _ _ h => nomatch h

/-- One constructor or operator on top of sound operands. -/
lemma sound_iff_careful (e : Expr) : e.Sound ↔ e.Careful := by
  induction e with
  | default => simp [Sound, Careful, subexpressions, eval, Safe, BigInt.Restored, BigInt.normal_zero]
  | string str => simp [Sound, Careful, subexpressions, eval, Safe, BigInt.restored_ofString]
  | integral t num => simp [Sound, Careful, subexpressions, eval, Safe, BigInt.restored_ofIntegral]
  | minus x ih =>
    have hs : (minus x).Sound ↔ BigInt.Restored (minus x).eval ∧ x.Sound := List.forall_mem_cons
    have hc : (minus x).Careful ↔ (minus x).Safe ∧ x.Careful := List.forall_mem_cons
    rw [hs, hc, ← ih]
    exact and_congr_left restored_minus
  | plus x ih =>
    have hs : (plus x).Sound ↔ BigInt.Restored (plus x).eval ∧ x.Sound := List.forall_mem_cons
    have hc : (plus x).Careful ↔ (plus x).Safe ∧ x.Careful := List.forall_mem_cons
    rw [hs, hc, ← ih]
    exact and_congr_left restored_plus
  | binary op x y ihx ihy =>
    have hs : (binary op x y).Sound ↔ BigInt.Restored (binary op x y).eval ∧ x.Sound ∧ y.Sound :=
      List.forall_mem_cons.trans (and_congr_right fun _ => List.forall_mem_append)
    have hc : (binary op x y).Careful ↔ (binary op x y).Safe ∧ x.Careful ∧ y.Careful :=
      List.forall_mem_cons.trans (and_congr_right fun _ => List.forall_mem_append)
    rw [hs, hc, ← ihx, ← ihy]
    exact and_congr_left fun h => restored_binary h.1 h.2

/-- The comparisons of two values are those of the integers they denote. -/
def Ordered (e e' : Expr) : Prop := ∀ a b, e.eval = .ok a → e'.eval = .ok b → BigInt.Agree a b

lemma ordered_of_sound {e e' : Expr} (h : e.Sound) (h' : e'.Sound) : Ordered e e' := by
  intro a b ha hb
  have hnormal := h.restored
  have hnormal' := h'.restored
  rw [ha] at hnormal
  rw [hb] at hnormal'
  exact BigInt.agree_of_normal hnormal hnormal'

/-- Normal forms everywhere, and the right comparisons, exactly if every constructor and operator finds what it can
handle. -/
theorem sound_ordered_iff (e e' : Expr) : (e.Sound ∧ e'.Sound ∧ Ordered e e') ↔ e.Careful ∧ e'.Careful := by
  rw [← sound_iff_careful, ← sound_iff_careful]
  exact ⟨fun h => ⟨h.1, h.2.1⟩, fun h => ⟨h.1, h.2, ordered_of_sound h.1 h.2⟩⟩

/-- Four zeros are not zero. -/
theorem not_sound_ordered_zeros :
    ¬ (Sound (string (ascii "0000")) ∧ Sound (string (ascii "0")) ∧
      Ordered (string (ascii "0000")) (string (ascii "0"))) := by
  rintro ⟨-, -, hordered⟩
  have heq := (hordered ⟨[0], false⟩ ⟨[], false⟩ (by rfl) (by rfl)).eq
  exact absurd heq (by decide)

end Expr

end CppExperiments.BI

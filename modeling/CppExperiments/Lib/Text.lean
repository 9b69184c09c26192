import CppExperiments.Lib.Bytes
import Mathlib.Data.List.TakeWhile
import Mathlib.Tactic.IntervalCases
import Mathlib.Tactic.Ring

/-!
# Text as bytes

ASCII literals, decimal numerals and character classes on byte strings.
-/

namespace CppExperiments

/-- The bytes of an ASCII literal. -/
def ascii (s : String) : Bytes := s.toList.map (fun ch => UInt8.ofNat ch.toNat)

/-- The bytes of a literal that is spelled character by character. -/
lemma ascii_eq {s : String} {l : List Char} (h : s = String.ofList l) : ascii s = l.map fun ch => UInt8.ofNat ch.toNat := by
  rw [ascii, h, String.toList_ofList]

lemma ascii_append (s t : String) : ascii (s ++ t) = ascii s ++ ascii t := by
  rw [ascii, String.toList_append, List.map_append, ascii, ascii]

/-- The bytes that end a line on the wire. -/
def crlf : Bytes := [13, 10]

/-- The decimal numeral of a natural number. -/
def decimal (n : Nat) : Bytes := (Nat.toDigits 10 n).map (fun ch => UInt8.ofNat ch.toNat)

/-- The decimal numeral of an integer. -/
def decimalInt : Int → Bytes
  | .ofNat n => decimal n
  | .negSucc n => 45 :: decimal (n + 1)

def isDigit (b : UInt8) : Bool := decide (48 ≤ b ∧ b ≤ 57)

def isHexDigit (b : UInt8) : Bool := isDigit b || decide (65 ≤ b ∧ b ≤ 70) || decide (97 ≤ b ∧ b ≤ 102)

/-- The value of a string of digits. -/
def digitsValue (bs : Bytes) : Nat := bs.foldl (fun acc b => 10 * acc + (b.toNat - 48)) 0

/-- The value of the digits at the front, if there is one. -/
def digitPrefix (bs : Bytes) : Option Nat :=
  if bs.takeWhile isDigit = [] then none else some (digitsValue (bs.takeWhile isDigit))

/-- The value of the integer at the front: a minus sign or none, and digits. -/
def signedPrefix (bs : Bytes) : Option Int :=
  if bs.head? = some 45 then (digitPrefix bs.tail).map (fun n : Nat => - (n : Int))
  else (digitPrefix bs).map (fun n : Nat => (n : Int))

/-- The value of a text that is an integer as a whole. -/
def numeral (bs : Bytes) : Option Int :=
  if bs.head? = some 45 then
    if bs.tail ≠ [] ∧ bs.tail.all isDigit then some (- (digitsValue bs.tail : Int)) else none
  else if bs ≠ [] ∧ bs.all isDigit then some (digitsValue bs) else none

/-- The integers of a 64-bit `long`. -/
def InLong (z : Int) : Prop := -2 ^ 63 ≤ z ∧ z < 2 ^ 63

instance (z : Int) : Decidable (InLong z) := by
  unfold InLong
  infer_instance

/-- `std::isspace` on one byte. -/
def isSpace (b : UInt8) : Bool := b == 32 || decide (9 ≤ b ∧ b ≤ 13)

/-- The value of the integer at the front, behind white space: a sign or none, and digits. -/
def integerPrefix (bs : Bytes) : Option Int :=
  let bs := bs.dropWhile isSpace
  if bs.head? = some 43 then (digitPrefix bs.tail).map (fun n : Nat => (n : Int)) else signedPrefix bs

/-- `std::stoll`; `none` where it throws. -/
def stoll (bs : Bytes) : Option Int := (integerPrefix bs).filter (fun z => InLong z)

/-- `std::stoull`, which negates a number with a minus sign; `none` where it throws. -/
def stoull (bs : Bytes) : Option Nat :=
  ((integerPrefix bs).filter (fun z => z.natAbs < 2 ^ 64)).map (fun z => (z % 2 ^ 64).toNat)

/-- `std::tolower` on one byte. -/
def toLower (b : UInt8) : UInt8 := if 65 ≤ b ∧ b ≤ 90 then b + 32 else b

def lower (bs : Bytes) : Bytes := bs.map toLower

lemma toNat_of_isHexDigit {b : UInt8} (h : isHexDigit b = true) : 48 ≤ b.toNat ∧ b.toNat ≤ 57 ∨
    65 ≤ b.toNat ∧ b.toNat ≤ 70 ∨ 97 ≤ b.toNat ∧ b.toNat ≤ 102 := by
  rw [isHexDigit, isDigit, Bool.or_eq_true, Bool.or_eq_true, decide_eq_true_eq, decide_eq_true_eq, decide_eq_true_eq,
    or_assoc] at h
  exact h

lemma takeWhile_isDigit {bs : Bytes} (h : bs.all isDigit = true) : bs.takeWhile isDigit = bs :=
  List.takeWhile_eq_self_iff.2 (List.all_eq_true.1 h)

lemma foldl_digits (bs : Bytes) (acc : Nat) :
    bs.foldl (fun acc b => 10 * acc + (b.toNat - 48)) acc = acc * 10 ^ bs.length + digitsValue bs := by
  induction bs generalizing acc with
  | nil => simp [digitsValue]
  | cons b bs ih =>
    rw [digitsValue, List.foldl_cons, List.foldl_cons, ih, ih, List.length_cons, pow_succ]
    ring

lemma digitsValue_cons (b : UInt8) (bs : Bytes) :
    digitsValue (b :: bs) = (b.toNat - 48) * 10 ^ bs.length + digitsValue bs := by
  rw [digitsValue, List.foldl_cons, Nat.mul_zero, Nat.zero_add, foldl_digits]

lemma digit_le_nine {b : UInt8} (h : isDigit b = true) : b.toNat - 48 ≤ 9 := by
  have hle : b ≤ 57 := (of_decide_eq_true h).2
  have : b.toNat ≤ 57 := hle
  omega

lemma digitPrefix_of_all {bs : Bytes} (h : bs.all isDigit = true) (hne : bs ≠ []) :
    digitPrefix bs = some (digitsValue bs) := by
  rw [digitPrefix, takeWhile_isDigit h, if_neg hne]

lemma decimal_ne_nil (n : Nat) : decimal n ≠ [] := by simp [decimal, Nat.toDigits_ne_nil]

lemma digitChar_toNat {d : Nat} (h : d < 10) : (Nat.digitChar d).toNat = 48 + d := by
  interval_cases d <;> rfl

lemma decimal_eq (n : Nat) :
    decimal n = (if n < 10 then [] else decimal (n / 10)) ++ [UInt8.ofNat (48 + n % 10)] := by
  have hchar := digitChar_toNat (Nat.mod_lt n (by decide : 0 < 10))
  by_cases hn : n < 10
  · rw [Nat.mod_eq_of_lt hn] at hchar ⊢
    rw [decimal, Nat.toDigits_of_lt_base hn, if_pos hn, List.map_singleton, hchar]
    rfl
  · rw [decimal, Nat.toDigits_of_base_le (by decide) (not_lt.1 hn), if_neg hn, List.map_append, List.map_singleton,
      hchar]
    rfl

lemma isDigit_ofNat {d : Nat} (h : d < 10) : isDigit (UInt8.ofNat (48 + d)) = true := by
  interval_cases d <;> rfl

lemma isDigit_decimal (n : Nat) : (decimal n).all isDigit = true := by
  induction n using Nat.strong_induction_on with
  | _ n ih =>
    have hd := isDigit_ofNat (Nat.mod_lt n (by decide : 0 < 10))
    rw [decimal_eq, List.all_append, List.all_cons, hd]
    by_cases hn : n < 10
    · rw [if_pos hn]
      rfl
    · rw [if_neg hn, ih (n / 10) (by omega)]
      rfl

theorem digitsValue_decimal (n : Nat) : digitsValue (decimal n) = n := by
  induction n using Nat.strong_induction_on with
  | _ n ih =>
    have hmod := Nat.mod_lt n (by decide : 0 < 10)
    have hd : (UInt8.ofNat (48 + n % 10)).toNat - 48 = n % 10 := by
      rw [UInt8.toNat_ofNat', Nat.mod_eq_of_lt (by omega)]
      omega
    rw [decimal_eq, digitsValue, List.foldl_append]
    by_cases hn : n < 10
    · rw [if_pos hn, List.foldl_nil, List.foldl_cons, List.foldl_nil, hd]
      omega
    · have hih := ih (n / 10) (by omega)
      rw [digitsValue] at hih
      rw [if_neg hn, hih, List.foldl_cons, List.foldl_nil, hd]
      omega

lemma digitPrefix_decimal (n : Nat) : digitPrefix (decimal n) = some n := by
  rw [digitPrefix_of_all (isDigit_decimal n) (decimal_ne_nil n), digitsValue_decimal]

/-- A numeral consists of digits only. -/
lemma not_mem_decimal {b : UInt8} (hb : isDigit b = false) (n : Nat) : b ∉ decimal n := by
  intro hm
  have hd := List.all_eq_true.1 (isDigit_decimal n) b hm
  rw [hb] at hd
  cases hd

/-- The characters of a numeral. -/
lemma of_mem_decimalInt {z : Int} {b : UInt8} (h : b ∈ decimalInt z) : b = 45 ∨ isDigit b = true := by
  cases z with
  | ofNat n => exact .inr (List.all_eq_true.1 (isDigit_decimal n) b h)
  | negSucc n =>
    rcases List.mem_cons.1 h with h | h
    · exact .inl h
    · exact .inr (List.all_eq_true.1 (isDigit_decimal _) b h)

lemma notMem_decimalInt {z : Int} {b : UInt8} (hb : b ≠ 45 ∧ isDigit b = false) : b ∉ decimalInt z := by
  intro h
  rcases of_mem_decimalInt h with rfl | hdigit
  · exact hb.1 rfl
  · exact Bool.noConfusion (hdigit.symm.trans hb.2)

/-- On a text that is an integer as a whole, the integer at the front is the whole text. -/
theorem signedPrefix_of_numeral {bs : Bytes} {z : Int} (h : numeral bs = some z) :
    signedPrefix bs = some z := by
  unfold numeral at h
  unfold signedPrefix
  by_cases hsign : bs.head? = some 45
  · rw [if_pos hsign] at h ⊢
    by_cases hd : bs.tail ≠ [] ∧ bs.tail.all isDigit = true
    · rw [if_pos hd] at h
      rw [digitPrefix_of_all hd.2 hd.1]
      simpa using h
    · rw [if_neg hd] at h
      cases h
  · rw [if_neg hsign] at h ⊢
    by_cases hd : bs ≠ [] ∧ bs.all isDigit = true
    · rw [if_pos hd] at h
      rw [digitPrefix_of_all hd.2 hd.1]
      simpa using h
    · rw [if_neg hd] at h
      cases h

lemma head?_decimal (n : Nat) : ∃ b, (decimal n).head? = some b ∧ isDigit b = true := by
  cases h : decimal n with
  | nil => exact absurd h (decimal_ne_nil n)
  | cons b bs =>
    have hd := List.all_eq_true.1 (isDigit_decimal n) b (by rw [h]; exact List.mem_cons_self)
    exact ⟨b, rfl, hd⟩

lemma dropWhile_of_head {b : UInt8} {bs : Bytes} (h : bs.head? = some b) (hb : isSpace b = false) :
    bs.dropWhile isSpace = bs := by
  cases bs with
  | nil => rfl
  | cons c bs =>
    obtain rfl : c = b := by simpa using h
    rw [List.dropWhile_cons_of_neg (by simp [hb])]

lemma not_isSpace_of_isDigit {b : UInt8} (h : isDigit b = true) : isSpace b = false ∧ b ≠ 43 ∧ b ≠ 45 := by
  have hge : 48 ≤ b := (of_decide_eq_true h).1
  have hge' : 48 ≤ b.toNat := hge
  refine ⟨?_, ?_, ?_⟩
  · have h32 : b ≠ 32 := by
      rintro rfl
      exact absurd hge' (by decide)
    have h13 : ¬ b ≤ 13 := fun hle => by
      have hle' : b.toNat ≤ 13 := hle
      omega
    simp [isSpace, h32, h13]
  · rintro rfl
    exact absurd hge' (by decide)
  · rintro rfl
    exact absurd hge' (by decide)

lemma integerPrefix_decimal (n : Nat) : integerPrefix (decimal n) = some (n : Int) := by
  obtain ⟨b, hb, hdigit⟩ := head?_decimal n
  obtain ⟨hspace, hplus, hminus⟩ := not_isSpace_of_isDigit hdigit
  rw [integerPrefix, dropWhile_of_head hb hspace]
  simp only [hb, Option.some.injEq, hplus, if_false]
  rw [signedPrefix, hb, if_neg (by simpa using hminus), digitPrefix_decimal]
  rfl

lemma integerPrefix_decimalInt (z : Int) : integerPrefix (decimalInt z) = some z := by
  cases z with
  | ofNat n => exact integerPrefix_decimal n
  | negSucc n =>
    have hdrop : (45 :: decimal (n + 1)).dropWhile isSpace = 45 :: decimal (n + 1) := dropWhile_of_head rfl rfl
    have hsign : ¬ (45 :: decimal (n + 1)).head? = some 43 := by
      rw [List.head?_cons]
      decide
    rw [decimalInt, integerPrefix, hdrop]
    rw [if_neg hsign, signedPrefix, List.head?_cons, if_pos rfl, List.tail_cons, digitPrefix_decimal]
    rfl

lemma stoull_decimal {n : Nat} (h : n < 2 ^ 64) : stoull (decimal n) = some n := by
  have hmod : ((n : Int) % 2 ^ 64).toNat = n := by omega
  rw [stoull, integerPrefix_decimal, Option.filter_some, if_pos (by simpa using h), Option.map_some, hmod]

end CppExperiments

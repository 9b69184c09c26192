import CppExperiments.Lib.Text
import Mathlib.Data.List.DropRight
import Mathlib.Data.Nat.Digits.Lemmas
import Mathlib.Tactic.Ring

/-!
# Positional numerals

Digit lists, lowest digit first, with or without zeros at the top: stripping them, taking a list
apart, and comparing from the top.
-/

namespace CppExperiments

open Nat

variable {b d e m n k : Nat} {l l' : List Nat}

lemma headD_digits (hb : 1 < b) (n : Nat) : (digits b n).headD 0 = n % b := by
  by_cases hn : n = 0
  · simp [hn]
  · rw [digits_eq_cons_digits_div hb hn]
    rfl

lemma tail_digits (hb : 1 < b) (n : Nat) : (digits b n).tail = digits b (n / b) := by
  by_cases hn : n = 0
  · simp [hn]
  · rw [digits_eq_cons_digits_div hb hn]
    rfl

/-- Without the zeros at the top a numeral is the canonical one. -/
theorem rdropWhile_zero (hb : 1 < b) (hl : ∀ d ∈ l, d < b) :
    l.rdropWhile (· = 0) = digits b (ofDigits b l) := by
  induction l using List.reverseRecOn with
  | nil => simp [List.rdropWhile]
  | append_singleton l d ih =>
    by_cases hd : d = 0
    · rw [List.rdropWhile_concat_pos _ _ _ (by simpa using hd), hd, ofDigits_append_zero]
      exact ih fun x hx => hl x (List.mem_append_left _ hx)
    · rw [List.rdropWhile_concat_neg _ _ _ (by simpa using hd), digits_ofDigits b hb _ hl]
      intro h
      rwa [List.getLast_concat]

lemma eq_digits (hb : 1 < b) (hl : ∀ d ∈ l, d < b) (htop : ∀ h : l ≠ [], l.getLast h ≠ 0) :
    l = digits b (ofDigits b l) := (digits_ofDigits b hb l hl htop).symm

/-- There is no zero at the top exactly if the number needs all its digits. -/
lemma getLast_ne_zero_iff (hb : 1 < b) (hl : ∀ d ∈ l, d < b) :
    (∀ h : l ≠ [], l.getLast h ≠ 0) ↔ l = [] ∨ b ^ (l.length - 1) ≤ ofDigits b l := by
  induction l using List.reverseRecOn with
  | nil => simp
  | append_singleton l d _ =>
    have hlt := ofDigits_lt_base_pow_length hb fun x hx => hl x (List.mem_append_left _ hx)
    rw [ofDigits_append, ofDigits_singleton, List.length_append, List.length_singleton, Nat.add_sub_cancel]
    constructor
    · intro htop
      have hd : d ≠ 0 := by simpa using htop (List.concat_ne_nil d l)
      exact Or.inr (le_add_left (Nat.le_mul_of_pos_right _ (Nat.pos_of_ne_zero hd)))
    · rintro (hnil | hle) h
      · exact absurd hnil (List.concat_ne_nil d l)
      · rw [List.getLast_concat]
        rintro rfl
        omega

/-- A numeral with a digit above another is larger if it is longer. -/
lemma lt_of_length_digits_lt (h : (digits b m).length < (digits b n).length) : m < n := by
  by_contra hle
  exact absurd (le_length_digits_le b n m (by omega)) (by omega)

/-- Of two numerals the higher digits decide first. -/
lemma add_mul_lt_iff (hd : d < b) (he : e < b) : d + b * m < e + b * n ↔ m < n ∨ m = n ∧ d < e := by
  constructor
  · intro h
    rcases Nat.lt_trichotomy m n with hlt | heq | hgt
    · exact Or.inl hlt
    · subst heq
      exact Or.inr ⟨rfl, by omega⟩
    · have hle : b * (n + 1) ≤ b * m := Nat.mul_le_mul_left b hgt
      rw [Nat.mul_succ] at hle
      omega
  · rintro (hlt | ⟨rfl, hde⟩)
    · have hle : b * (m + 1) ≤ b * n := Nat.mul_le_mul_left b hlt
      rw [Nat.mul_succ] at hle
      omega
    · omega

lemma ofDigits_take_drop (b k : Nat) (l : List Nat) (hk : k ≤ l.length) :
    ofDigits b l = ofDigits b (l.take k) + b ^ k * ofDigits b (l.drop k) := by
  conv_lhs => rw [← List.take_append_drop k l, ofDigits_append, List.length_take, Nat.min_eq_left hk]

lemma ofDigits_lt (hb : 1 < b) (hl : ∀ d ∈ l, d < b) : ofDigits b l < b ^ l.length :=
  ofDigits_lt_base_pow_length hb hl

end CppExperiments

/-!
## Octal numerals

Numbers as octal digits, padded to a width, and back.
-/

namespace CppExperiments

def isOctal (b : UInt8) : Bool := decide (48 ≤ b ∧ b ≤ 55)

def octal (n : Nat) : Bytes := (Nat.toDigits 8 n).map (fun ch => UInt8.ofNat ch.toNat)

/-- Zeros are put in front up to the width. -/
def octalPadded (width n : Nat) : Bytes := List.replicate (width - (octal n).length) 48 ++ octal n

def octalValue (bs : Bytes) : Nat := bs.foldl (fun acc b => 8 * acc + (b.toNat - 48)) 0

variable {k n width : Nat} {rest : Bytes}

lemma length_octal_le_iff (hk : 0 < k) : (octal n).length ≤ k ↔ n < 8 ^ k := by
  rw [octal, List.length_map, Nat.length_toDigits_le_iff (by decide) hk]

lemma octal_ne_nil (n : Nat) : octal n ≠ [] := by simp [octal, Nat.toDigits_ne_nil]

lemma octal_eq (n : Nat) : octal n = (if n < 8 then [] else octal (n / 8)) ++ [UInt8.ofNat (48 + n % 8)] := by
  have hmod := Nat.mod_lt n (by decide : 0 < 8)
  have hchar := digitChar_toNat (by omega : n % 8 < 10)
  by_cases hn : n < 8
  · rw [Nat.mod_eq_of_lt hn] at hchar ⊢
    rw [octal, Nat.toDigits_of_lt_base hn, if_pos hn, List.map_singleton, hchar]
    rfl
  · rw [octal, Nat.toDigits_of_base_le (by decide) (not_lt.1 hn), if_neg hn, List.map_append, List.map_singleton, hchar]
    rfl

lemma toNat_octalDigit (n : Nat) : (UInt8.ofNat (48 + n % 8)).toNat = 48 + n % 8 := by
  rw [UInt8.toNat_ofNat', Nat.mod_eq_of_lt (by omega)]

lemma isOctal_octal (n : Nat) : ∀ b ∈ octal n, isOctal b = true := by
  induction n using Nat.strong_induction_on with
  | _ n ih =>
    have hdigit : isOctal (UInt8.ofNat (48 + n % 8)) = true := by
      refine decide_eq_true ⟨UInt8.le_iff_toNat_le.2 ?_, UInt8.le_iff_toNat_le.2 ?_⟩
      · rw [toNat_octalDigit]
        exact Nat.le_add_right 48 _
      · rw [toNat_octalDigit]
        have hmod := Nat.mod_lt n (by decide : 0 < 8)
        exact Nat.add_le_add_left (Nat.le_of_lt_succ hmod) 48
    rw [octal_eq]
    intro b hb
    rcases List.mem_append.1 hb with hb | hb
    · by_cases hn : n < 8
      · rw [if_pos hn] at hb
        exact absurd hb List.not_mem_nil
      · rw [if_neg hn] at hb
        exact ih (n / 8) (by omega) b hb
    · rw [List.mem_singleton.1 hb, hdigit]

lemma octalValue_octal (n : Nat) : octalValue (octal n) = n := by
  induction n using Nat.strong_induction_on with
  | _ n ih =>
    have hdigit : (UInt8.ofNat (48 + n % 8)).toNat - 48 = n % 8 := by
      rw [toNat_octalDigit, Nat.add_sub_cancel_left]
    rw [octal_eq, octalValue, List.foldl_append]
    by_cases hn : n < 8
    · rw [if_pos hn, List.foldl_nil, List.foldl_cons, List.foldl_nil, hdigit]
      omega
    · have hih := ih (n / 8) (by omega)
      rw [octalValue] at hih
      rw [if_neg hn, hih, List.foldl_cons, List.foldl_nil, hdigit]
      omega

lemma isOctal_octalPadded (width n : Nat) : ∀ b ∈ octalPadded width n, isOctal b = true := by
  intro b hb
  rcases List.mem_append.1 hb with hb | hb
  · rw [List.eq_of_mem_replicate hb]
    rfl
  · exact isOctal_octal n b hb

lemma octalValue_octalPadded (width n : Nat) : octalValue (octalPadded width n) = n := by
  have hzeros : ∀ k, (List.replicate k (48 : UInt8)).foldl (fun acc b => 8 * acc + (b.toNat - 48)) 0 = 0 := fun k => by
    induction k with
    | zero => rfl
    | succ k ih =>
      rw [List.replicate_succ, List.foldl_cons]
      exact ih
  rw [octalPadded, octalValue, List.foldl_append, hzeros]
  exact octalValue_octal n

lemma octalPadded_ne_nil (width n : Nat) : octalPadded width n ≠ [] :=
  List.append_ne_nil_of_right_ne_nil _ (octal_ne_nil n)

lemma length_octalPadded_le (hk : 0 < k) (hwidth : width ≤ k) (hn : n < 8 ^ k) : (octalPadded width n).length ≤ k := by
  have hle := (length_octal_le_iff hk).2 hn
  rw [octalPadded, List.length_append, List.length_replicate]
  omega

lemma length_octalPadded (hwidth : 0 < width) (hn : n < 8 ^ width) : (octalPadded width n).length = width := by
  have hle := (length_octal_le_iff hwidth).2 hn
  rw [octalPadded, List.length_append, List.length_replicate]
  omega

lemma takeWhile_octalPadded (hrest : ∀ b, rest.head? = some b → isOctal b = false) :
    (octalPadded width n ++ rest).takeWhile isOctal = octalPadded width n := by
  rw [List.takeWhile_append_of_pos (isOctal_octalPadded width n)]
  cases rest with
  | nil => rw [List.takeWhile_nil, List.append_nil]
  | cons b rest => rw [List.takeWhile_cons_of_neg (by rw [hrest b rfl]; decide), List.append_nil]

end CppExperiments

import CppExperiments.BI.NormalForm

/-!
# Numerals

What is printed of a number that was read: its numeral without zeros in front.
-/

namespace CppExperiments.BI

open Nat

/-! ## The code -/

/-- The digits of a limb, lowest first, in a text of so many zeros. -/
def limbText : Nat → Nat → Except Fault Bytes
  | 0, num => if num = 0 then .ok [] else .error .outOfRange
  | size + 1, num => do
    let rest ← limbText size (num / 10)
    return UInt8.ofNat (48 + num % 10) :: rest

/-- `operator std::string` -/
def BigInt.toText (x : BigInt) : Except Fault Bytes :=
  if x.empty then .ok (ascii "0")
  else do
    let texts ← x.data.mapM (limbText 4)
    let result := texts.flatten.rdropWhile (· = 48)
    return (if x.negative then result ++ [45] else result).reverse

/-! ## Digits -/

variable {l : Limbs} {n num size : Nat} {digits : Bytes}

/-- The digits of a number, lowest first, and zeros behind them. -/
def lowDigits : Nat → Nat → List Nat
  | 0, _ => []
  | size + 1, num => num % 10 :: lowDigits size (num / 10)

def digitText (d : Nat) : UInt8 := UInt8.ofNat (48 + d)

lemma limbText_eq (h : num < 10 ^ size) : limbText size num = .ok ((lowDigits size num).map digitText) := by
  induction size generalizing num with
  | zero =>
    rw [pow_zero, Nat.lt_one_iff] at h
    rw [limbText, if_pos h]
    rfl
  | succ size ih =>
    have hdiv : num / 10 < 10 ^ size := by
      rw [Nat.div_lt_iff_lt_mul (by decide), ← pow_succ]
      exact h
    rw [limbText, ih hdiv]
    rfl

lemma lowDigits_lt (size num : Nat) : ∀ d ∈ lowDigits size num, d < 10 := by
  induction size generalizing num with
  | zero => exact fun d hd => absurd hd List.not_mem_nil
  | succ size ih => exact List.forall_mem_cons.2 ⟨Nat.mod_lt _ (by decide), ih _⟩

lemma length_lowDigits (size num : Nat) : (lowDigits size num).length = size := by
  induction size generalizing num with
  | zero => rfl
  | succ size ih => rw [lowDigits, List.length_cons, ih]

lemma ofDigits_lowDigits (h : num < 10 ^ size) : ofDigits 10 (lowDigits size num) = num := by
  induction size generalizing num with
  | zero =>
    rw [pow_zero, Nat.lt_one_iff] at h
    rw [h]
    rfl
  | succ size ih =>
    have hdiv : num / 10 < 10 ^ size := by
      rw [Nat.div_lt_iff_lt_mul (by decide), ← pow_succ]
      exact h
    rw [lowDigits, ofDigits_cons, ih hdiv]
    exact Nat.mod_add_div num 10

/-- The digits of all limbs. -/
lemma ofDigits_flatMap (h : Bounded l) : ofDigits 10 (l.flatMap (lowDigits 4)) = val l := by
  induction l with
  | nil => rfl
  | cons num l ih =>
    have hnum : num < 10 ^ 4 := h num List.mem_cons_self
    rw [List.flatMap_cons, ofDigits_append, length_lowDigits, ofDigits_lowDigits hnum,
      ih fun d hd => h d (List.mem_cons_of_mem num hd)]
    rfl

lemma mapM_limbText (h : Bounded l) : l.mapM (limbText 4) = .ok (l.map fun num => (lowDigits 4 num).map digitText) := by
  induction l with
  | nil => rfl
  | cons num l ih =>
    have hnum : num < 10 ^ 4 := h num List.mem_cons_self
    rw [List.mapM_cons, limbText_eq hnum, ih fun d hd => h d (List.mem_cons_of_mem num hd)]
    rfl

lemma digitText_eq_iff {d : Nat} (hd : d < 10) : digitText d = 48 ↔ d = 0 := by
  rw [digitText, ← UInt8.toNat_inj, UInt8.toNat_ofNat', Nat.mod_eq_of_lt (by omega)]
  change 48 + d = 48 ↔ d = 0
  omega

/-- The numeral of a number that is not zero. -/
lemma decimal_eq_digits (hn : n ≠ 0) : decimal n = ((Nat.digits 10 n).map digitText).reverse := by
  induction n using Nat.strong_induction_on with
  | _ n ih =>
    rw [decimal_eq, Nat.digits_eq_cons_digits_div (by decide) hn, List.map_cons, List.reverse_cons]
    by_cases hlt : n < 10
    · rw [if_pos hlt, Nat.div_eq_of_lt hlt, Nat.digits_zero]
      rfl
    · rw [if_neg hlt, ih (n / 10) (Nat.div_lt_self (by omega) (by decide)) (by omega)]
      rfl

lemma rdropWhile_digitText {ds : List Nat} (h : ∀ d ∈ ds, d < 10) :
    (ds.map digitText).rdropWhile (· = 48) = (ds.rdropWhile (· = 0)).map digitText := by
  induction ds using List.reverseRecOn with
  | nil => rfl
  | append_singleton ds d ih =>
    have hd := digitText_eq_iff (h d (List.mem_append_right ds (List.mem_singleton_self d)))
    rw [List.map_append, List.map_singleton, List.rdropWhile_concat, List.rdropWhile_concat]
    by_cases hzero : d = 0
    · rw [if_pos (decide_eq_true (hd.2 hzero)), if_pos (decide_eq_true hzero)]
      exact ih fun d' hd' => h d' (List.mem_append_left _ hd')
    · rw [if_neg (by simpa using hd.not.2 hzero), if_neg (by simpa using hzero), List.map_append, List.map_singleton]

/-- Zeros at the top are dropped, and what is left is the numeral. -/
lemma reverse_rdropWhile (h : Bounded l) (hl : val l ≠ 0) :
    (((l.map fun num => (lowDigits 4 num).map digitText).flatten).rdropWhile (· = 48)).reverse = decimal (val l) := by
  have hall : ∀ d ∈ l.flatMap (lowDigits 4), d < 10 := by
    intro d hd
    obtain ⟨num, -, hd⟩ := List.mem_flatMap.1 hd
    exact lowDigits_lt 4 num d hd
  have hflatten : (l.map fun num => (lowDigits 4 num).map digitText).flatten =
    (l.flatMap (lowDigits 4)).map digitText := by
    rw [List.map_flatMap, List.flatMap_def]
  rw [hflatten, rdropWhile_digitText hall, rdropWhile_zero (by decide) hall, ofDigits_flatMap h, decimal_eq_digits hl]

/-! ## Numbers -/

namespace BigInt

variable {x : BigInt}

lemma empty_iff (x : BigInt) : x.empty = true ↔ x.abs = 0 := by
  rw [empty, List.all_eq_true, abs]
  induction x.data with
  | nil => exact ⟨fun _ => rfl, fun _ d hd => absurd hd List.not_mem_nil⟩
  | cons num l ih =>
    have hbase : BASE ≠ 0 := by decide
    have hval : val (num :: l) = 0 ↔ num = 0 ∧ val l = 0 := by
      change num + BASE * val l = 0 ↔ _
      rw [Nat.add_eq_zero_iff, Nat.mul_eq_zero, or_iff_right hbase]
    rw [List.forall_mem_cons, ih, hval, decide_eq_true_iff, Nat.not_lt, Nat.le_zero]

/-- A number is printed as the numeral of its value, whatever its limbs at the top and its sign. -/
theorem toText_eq (h : Bounded x.data) : x.toText = .ok (decimalInt x.toInt) := by
  rw [toText]
  by_cases hempty : x.empty = true
  · have hzero : x.toInt = 0 := by
      rw [toInt, (empty_iff x).1 hempty]
      exact ite_self _
    rw [if_pos hempty, hzero]
    rfl
  · have habs : val x.data ≠ 0 := fun hzero => hempty ((empty_iff x).2 hzero)
    rw [if_neg hempty, mapM_limbText h]
    change Except.ok _ = _
    rw [toInt, abs]
    by_cases hnegative : x.negative = true
    · obtain ⟨n, hn⟩ := Nat.exists_eq_succ_of_ne_zero habs
      have hint : -(val x.data : Int) = Int.negSucc n := by rw [hn]; rfl
      rw [if_pos hnegative, if_pos hnegative, List.reverse_concat, reverse_rdropWhile h habs, hint, hn]
      rfl
    · rw [if_neg hnegative, if_neg hnegative, reverse_rdropWhile h habs]
      rfl

/-- What is read of a text of digits. -/
lemma exists_ofString {str : Bytes} (h : (unsigned str).all isDigit = true) :
    ∃ x, ofString str = .ok x ∧ Bounded x.data ∧
    x.abs = digitsValue (unsigned str) ∧ x.negative = decide (str.head? = some 45) := by
  obtain ⟨acc, data, hloop, hacc, hbounded, hlen, hval⟩ := @stringLoop_spec (unsigned str) (unsigned str) h
  have hpow : 10 ^ ((unsigned str).length % 4) ≤ BASE :=
    Nat.pow_le_pow_right (by decide) (Nat.le_of_lt (Nat.mod_lt _ (by decide)))
  refine ⟨⟨if acc = 0 then data else data ++ [acc], decide (str.head? = some 45)⟩, by
    rw [ofString, hloop]; rfl, ?_, ?_, rfl⟩
  · dsimp only
    by_cases hzero : acc = 0
    · rw [if_pos hzero]
      exact hbounded
    · rw [if_neg hzero]
      exact List.forall_mem_append.2 ⟨hbounded, List.forall_mem_singleton.2 (lt_of_lt_of_le hacc hpow)⟩
  · rw [abs]
    dsimp only
    by_cases hzero : acc = 0
    · rw [if_pos hzero, ← hval, hzero, Nat.mul_zero, Nat.add_zero]
    · rw [if_neg hzero, val, ofDigits_append, ofDigits_singleton, hlen, hval]

/-- A sign or none and digits are printed as the numeral of their value. -/
theorem toText_ofString {sign digits : Bytes} (hsign : sign = [] ∨ sign = [43] ∨ sign = [45]) (hne : digits ≠ [])
    (hdigits : digits.all isDigit = true) : (ofString (sign ++ digits) >>= toText) =
      .ok (decimalInt (if sign = [45] then -(digitsValue digits : Int) else digitsValue digits)) := by
  have hhead : digits.head? ≠ some 45 ∧ digits.head? ≠ some 43 := by
    cases digits with
    | nil => exact absurd rfl hne
    | cons b digits =>
      rw [List.all_cons, Bool.and_eq_true] at hdigits
      refine ⟨fun heq => ?_, fun heq => ?_⟩
      · obtain rfl := Option.some.inj heq
        exact absurd hdigits.1 (by decide)
      · obtain rfl := Option.some.inj heq
        exact absurd hdigits.1 (by decide)
  have hunsigned : unsigned (sign ++ digits) = digits := by
    rw [unsigned]
    rcases hsign with rfl | rfl | rfl
    · exact if_neg (not_or.2 hhead)
    · rfl
    · rfl
  have hminus : (sign ++ digits).head? = some 45 ↔ sign = [45] := by
    rcases hsign with rfl | rfl | rfl
    · exact ⟨fun heq => absurd heq hhead.1, nofun⟩
    · exact ⟨nofun, nofun⟩
    · exact ⟨fun _ => rfl, fun _ => rfl⟩
  obtain ⟨x, hx, hbounded, habs, hnegative⟩ := @exists_ofString (sign ++ digits) (by rw [hunsigned]; exact hdigits)
  rw [hunsigned] at habs
  rw [hx]
  refine (toText_eq hbounded).trans ?_
  rw [toInt, habs, hnegative]
  simp only [decide_eq_true_iff, hminus]

theorem toText_ofString_zeros : (ofString ([45] ++ ascii "00012030") >>= toText) =
    .ok (decimalInt (if ([45] : Bytes) = [45] then -(digitsValue (ascii "00012030") : Int) else digitsValue (ascii "00012030"))) :=
  toText_ofString (Or.inr (Or.inr rfl)) (by decide) (by decide)

end BigInt

end CppExperiments.BI

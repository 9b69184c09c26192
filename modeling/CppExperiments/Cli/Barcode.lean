import CppExperiments.Lib.Code128
import Mathlib.Data.List.Basic
import Mathlib.Data.UInt

/-!
# Barcodes

The encoder of Code 128 barcodes: the table of a dynamic program for what is left of the message, and the loop that goes
through the message with it.
-/

namespace CppExperiments.Barcode

/-- `std::numeric_limits<int>::max()` -/
def INF : Nat := 2 ^ 31 - 1

def patterns : List String :=
  ["11011001100", "11001101100", "11001100110", "10010011000", "10010001100", "10001001100", "10011001000",
    "10011000100", "10001100100", "11001001000", "11001000100", "11000100100", "10110011100", "10011011100",
    "10011001110", "10111001100", "10011101100", "10011100110", "11001110010", "11001011100", "11001001110",
    "11011100100", "11001110100", "11101101110", "11101001100", "11100101100", "11100100110", "11101100100",
    "11100110100", "11100110010", "11011011000", "11011000110", "11000110110", "10100011000", "10001011000",
    "10001000110", "10110001000", "10001101000", "10001100010", "11010001000", "11000101000", "11000100010",
    "10110111000", "10110001110", "10001101110", "10111011000", "10111000110", "10001110110", "11101110110",
    "11010001110", "11000101110", "11011101000", "11011100010", "11011101110", "11101011000", "11101000110",
    "11100010110", "11101101000", "11101100010", "11100011010", "11101111010", "11001000010", "11110001010",
    "10100110000", "10100001100", "10010110000", "10010000110", "10000101100", "10000100110", "10110010000",
    "10110000100", "10011010000", "10011000010", "10000110100", "10000110010", "11000010010", "11001010000",
    "11110111010", "11000010100", "10001111010", "10100111100", "10010111100", "10010011110", "10111100100",
    "10011110100", "10011110010", "11110100100", "11110010100", "11110010010", "11011011110", "11011110110",
    "11110110110", "10101111000", "10100011110", "10001011110", "10111101000", "10111100010", "11110101000",
    "11110100010", "10111011110", "10111101110", "11101011110", "11110101110", "11010000100", "11010010000",
    "11010011100", "1100011101011"]

/-- The characters from `lo` on. -/
def charsFrom (lo count : Nat) : List (List Char) := (List.range count).map fun i => [Char.ofNat (lo + i)]

/-- The string for the null character is empty, since a literal ends there. -/
def Code128AChars : List (List Char) :=
  charsFrom 0x20 64 ++ [[]] ++ charsFrom 0x01 31 ++
    ["FNC 3".toList, "FNC 2".toList, "Shift B".toList, "Code C".toList, "Code B".toList, "FNC 4".toList,
      "FNC 1".toList]

def Code128BChars : List (List Char) :=
  charsFrom 0x20 96 ++
    ["FNC 3".toList, "FNC 2".toList, "Shift A".toList, "Code C".toList, "FNC 4".toList, "Code A".toList,
      "FNC 1".toList]

def Code128CChars : List (List Char) :=
  ((List.range 100).map fun i => [Char.ofNat (0x30 + i / 10), Char.ofNat (0x30 + i % 10)]) ++
    ["Code B".toList, "Code A".toList, "FNC 1".toList]

def START_A : Nat := 103

def START_B : Nat := 104

def START_C : Nat := 105

def STOP : Nat := 106

/-- A map from the texts to their positions, which are different texts. -/
def find? (chars : List (List Char)) (key : List Char) : Option Nat := chars.idxOf? key

/-- `operator[]`, which makes a missing entry with the position zero. No later lookup can tell. -/
def ordinal (chars : List (List Char)) (key : List Char) : Nat := (find? chars key).getD 0

/-- The states of the dynamic program in the order of their numbers. -/
inductive Enc where
  | A
  | B
  | C
  | shiftB
  | shiftA
  deriving DecidableEq, Repr

abbrev Row := Enc → Nat

/-- The character is in code set A; `next` is the row after it. -/
def Row.inA (next row : Row) : Row
  | .shiftA => min (row .shiftA) (2 + next .B)
  | .A => min (row .A) (1 + next .A)
  | .B => min (min (row .B) (2 + next .A)) (2 + next .shiftA)
  | .C => min (row .C) (2 + next .A)
  | .shiftB => row .shiftB

/-- The character is in code set B. -/
def Row.inB (next row : Row) : Row
  | .shiftB => min (row .shiftB) (2 + next .A)
  | .A => min (min (row .A) (2 + next .B)) (2 + next .shiftB)
  | .B => min (row .B) (1 + next .B)
  | .C => min (row .C) (2 + next .B)
  | .shiftA => row .shiftA

/-- The character and the one after it are digits; `next` is the row after both. -/
def Row.digits (next row : Row) : Row
  | .A => min (row .A) (2 + next .C)
  | .B => min (row .B) (2 + next .C)
  | .C => min (row .C) (1 + next .C)
  | .shiftB => row .shiftB
  | .shiftA => row .shiftA

/-- The row of a character from those after it. -/
def entry (ch : Char) (rest : List Char) (next next2 : Row) : Row :=
  let row : Row := fun _ => INF
  let row := if (find? Code128AChars [ch]).isSome then Row.inA next row else row
  let row := if (find? Code128BChars [ch]).isSome then Row.inB next row else row
  if ch.isDigit && rest.head?.any Char.isDigit then Row.digits next2 row else row

/-- The rows for what is left of the message, from each of its characters on and at its end. -/
def dp : List Char → List Row
  | [] => [fun _ => 0]
  | ch :: rest =>
    let rows := dp rest
    entry ch rest (rows.getD 0 fun _ => INF) (rows.getD 1 fun _ => INF) :: rows

/-- `std::min_element` -/
def minElement (row : Row) : Enc :=
  [Enc.B, .C, .shiftB, .shiftA].foldl (fun best enc => if row enc < row best then enc else best) .A

/-- The state of the loop. At first the encoding has no meaning. -/
structure Emission where
  enc : Enc := .shiftB
  idx : Nat := 0
  checkSum : UInt64 := 0
  checkPos : UInt64 := 1
  result : List Bool := []

def insertBits (bits : String) (result : List Bool) : List Bool := result ++ bits.toList.map (· == '1')

def pattern (ord : Nat) : String := patterns.getD ord ""

def changeOrShiftOrd (idx : Nat) (enc pos : Enc) : Nat :=
  if idx = 0 then (if pos = .A then START_A else if pos = .B then START_B else START_C)
  else if pos = .shiftB ∨ pos = .shiftA then
    (if pos = .shiftB then ordinal Code128AChars "Shift B".toList else ordinal Code128BChars "Shift A".toList)
  else if enc = .A then
    (if pos = .B then ordinal Code128AChars "Code B".toList else ordinal Code128AChars "Code C".toList)
  else if enc = .B then
    (if pos = .A then ordinal Code128BChars "Code A".toList else ordinal Code128BChars "Code C".toList)
  else if pos = .A then ordinal Code128CChars "Code A".toList else ordinal Code128BChars "Code B".toList

/-- Behind the end of the message is a null character. -/
def tokenOrd (pos : Enc) (ch : Char) (rest : List Char) : Nat :=
  if pos = .A ∨ pos = .shiftB then ordinal Code128AChars [ch]
  else if pos = .B ∨ pos = .shiftA then ordinal Code128BChars [ch]
  else ordinal Code128CChars [ch, rest.headD '\x00']

def Emission.change (s : Emission) (pos : Enc) : Emission :=
  if s.enc ≠ pos then
    let ord := changeOrShiftOrd s.idx s.enc pos
    { s with
      checkSum := s.checkSum + (if s.idx = 0 then UInt64.ofNat ord else s.checkPos * UInt64.ofNat ord)
      checkPos := if s.idx = 0 then s.checkPos else s.checkPos + 1
      result := insertBits (pattern ord) s.result }
  else s

def Emission.token (s : Emission) (pos : Enc) (ch : Char) (rest : List Char) : Emission :=
  let ord := tokenOrd pos ch rest
  { s with
    enc := if pos ≠ .shiftB ∧ pos ≠ .shiftA then pos else s.enc
    idx := s.idx + (if pos = .C then 2 else 1)
    checkSum := s.checkSum + s.checkPos * UInt64.ofNat ord
    checkPos := s.checkPos + 1
    result := insertBits (pattern ord) s.result }

/-- The current encoding where it is as good as any, else the first of the best. -/
def choosePos (s : Emission) (row : Row) : Enc :=
  if 0 < s.idx ∧ row (minElement row) = row s.enc then s.enc else minElement row

/-- The loop over what is left of the message, with no result where a character is not supported. -/
def emit : List Char → List Row → Emission → Option Emission
  | [], _, s => some s
  | ch :: rest, rows, s =>
    let row := rows.getD 0 fun _ => INF
    let pos := choosePos s row
    if row (minElement row) = INF then none
    else
      let s := (s.change pos).token pos ch rest
      if pos = .C then
        match rest with
        | [] => some s
        | _ :: rest => emit rest (rows.drop 2) s
      else emit rest (rows.drop 1) s

/-- The bars, with no result where the program exits with an error. -/
def encode (message : List Char) : Option (List Bool) := do
  let s ← emit message (dp message) {}
  some (insertBits (pattern STOP) (insertBits (pattern (s.checkSum % 103).toNat) s.result))

end CppExperiments.Barcode

/-!
## The code sets of a barcode

The sets that take the fewest symbols, by the digits ahead, and where these are fewer than four, by the next character
that is in one of the sets A and B only.
-/

namespace CppExperiments.Barcode

open Code128 (CodeSet Meaning meaning decode weighted checksum bars)

variable {e p : CodeSet} {ch : Char} {rest msg : List Char} {slip : Nat}

/-- The program knows the character of the set A. -/
def InA (ch : Char) : Prop := 0 < ch.toNat ∧ ch.toNat < 96

def InB (ch : Char) : Prop := 32 ≤ ch.toNat ∧ ch.toNat < 128

instance : DecidablePred InA := fun _ => inferInstanceAs (Decidable (_ ∧ _))

instance : DecidablePred InB := fun _ => inferInstanceAs (Decidable (_ ∧ _))

def Supported (ch : Char) : Prop := InA ch ∨ InB ch

/-! ## The tables -/

lemma insertBits_pattern {ord : Nat} (h : ord < 107) (result : List Bool) :
    insertBits (pattern ord) result = result ++ bars ord := by
  have hbars : (patterns.map fun p => p.toList.map (· == '1')) = (List.range 107).map bars := by
    have hpatterns : patterns = Code128.widthNumbers.map fun widths =>
        String.ofList ((Code128.modules true widths).map fun bit => if bit = true then '1' else '0') := rfl
    have hbit : (fun bit : Bool => (if bit = true then '1' else '0') == '1') = id := by
      funext bit
      cases bit <;> rfl
    rw [Code128.map_bars_eq, hpatterns, List.map_map]
    refine List.map_congr_left fun widths _ => ?_
    rw [Function.comp_apply, String.toList_ofList, List.map_map, Function.comp_def, hbit, List.map_id]
  have hlt : ord < patterns.length := h
  have hord := congrArg (fun l => l[ord]?) hbars
  rw [List.getElem?_map, List.getElem?_map, List.getElem?_range h, List.getElem?_eq_getElem hlt, Option.map_some,
    Option.map_some] at hord
  rw [insertBits, pattern, List.getD_eq_getElem?_getD, List.getElem?_eq_getElem hlt, Option.getD_some,
    Option.some.inj hord]

lemma ofNat_toNat_lt {n : Nat} (h : ch.toNat < n) : ∃ i : Fin n, ch = Char.ofNat i :=
  ⟨⟨ch.toNat, h⟩, (Char.ofNat_toNat ch).symm⟩

lemma toNat_eq_iff {n : Nat} (hn : n < 128) : ch.toNat = n ↔ ch = Char.ofNat n := by
  have hall : ∀ n < 128, (Char.ofNat n).toNat = n := by decide +kernel
  constructor
  · rintro rfl
    rw [Char.ofNat_toNat]
  · rintro rfl
    exact hall n hn

lemma idxOf?_append {l₁ l₂ : List (List Char)} {key : List Char} :
    (l₁ ++ l₂).idxOf? key = (l₁.idxOf? key).or ((l₂.idxOf? key).map (· + l₁.length)) := by
  unfold List.idxOf?
  rw [List.findIdx?_append]

lemma idxOf?_charsFrom {lo count : Nat} (hle : lo + count ≤ 128) (ch : Char) :
    (charsFrom lo count).idxOf? [ch] =
      if lo ≤ ch.toNat ∧ ch.toNat < lo + count then some (ch.toNat - lo) else none := by
  induction count with
  | zero => rw [if_neg (by omega), charsFrom, List.range_zero, List.map_nil, List.idxOf?_nil]
  | succ count ih =>
    have hconcat : charsFrom lo (count + 1) = charsFrom lo count ++ [[Char.ofNat (lo + count)]] := by
      rw [charsFrom, List.range_succ, List.map_append]
      rfl
    have hlength : (charsFrom lo count).length = count := by rw [charsFrom, List.length_map, List.length_range]
    rw [hconcat, idxOf?_append, ih (by omega), hlength, List.idxOf?_singleton]
    by_cases hlast : ch.toNat = lo + count
    · have heq : ([Char.ofNat (lo + count)] == [ch]) = true := by
        rw [(toNat_eq_iff (by omega)).1 hlast, beq_self_eq_true]
      rw [heq, if_neg (by omega), if_pos rfl, if_pos (by omega), Option.none_or, Option.map_some, hlast]
      congr 1
      omega
    · have hne : ([Char.ofNat (lo + count)] == [ch]) = false := by
        rw [beq_eq_false_iff_ne]
        intro heq
        exact hlast ((toNat_eq_iff (by omega)).2 (List.cons.inj heq).1.symm)
      rw [hne, if_neg Bool.false_ne_true, Option.map_none, Option.or_none]
      by_cases hin : lo ≤ ch.toNat ∧ ch.toNat < lo + count
      · rw [if_pos hin, if_pos ⟨hin.1, by omega⟩]
      · rw [if_neg hin, if_neg (by omega)]

/-- The names of the commands are no single characters. -/
lemma idxOf?_eq_none (ch : Char) {keys : List (List Char)} (hkeys : ∀ key ∈ keys, key.length ≠ 1) :
    keys.idxOf? [ch] = none := by
  rw [List.idxOf?_eq_none_iff]
  exact fun hmem => hkeys _ hmem rfl

def ordA (ch : Char) : Nat := if ch.toNat < 32 then ch.toNat + 64 else ch.toNat - 32

def ordB (ch : Char) : Nat := ch.toNat - 32

lemma find?_A (ch : Char) : find? Code128AChars [ch] = if InA ch then some (ordA ch) else none := by
  have hrest := idxOf?_eq_none ch (show ∀ key ∈ ["FNC 3".toList, "FNC 2".toList, "Shift B".toList,
    "Code C".toList, "Code B".toList, "FNC 4".toList, "FNC 1".toList], key.length ≠ 1 by decide +kernel)
  have hlength : (charsFrom 0x20 64 ++ [[]]).length = 65 := by
    rw [List.length_append, charsFrom, List.length_map, List.length_range]
    rfl
  have hnil : [[]].idxOf? [ch] = none := idxOf?_eq_none ch (by simp)
  rw [find?, Code128AChars, idxOf?_append, idxOf?_append, idxOf?_append, hrest, hnil, hlength,
    idxOf?_charsFrom (by decide), idxOf?_charsFrom (by decide), Option.map_none, Option.map_none, Option.or_none,
    Option.or_none]
  by_cases hlow : ch.toNat < 32
  · rw [if_neg (by omega), Option.none_or]
    by_cases hpos : 0 < ch.toNat
    · rw [if_pos (by omega), if_pos ⟨hpos, by omega⟩, ordA, if_pos hlow, Option.map_some]
      congr 1
      omega
    · rw [if_neg (by omega), if_neg fun hin : InA ch => hpos hin.1]
      rfl
  · by_cases hhigh : ch.toNat < 96
    · have hin : InA ch := ⟨by omega, hhigh⟩
      rw [if_pos (by omega), if_pos hin, ordA, if_neg hlow, Option.some_or]
    · rw [if_neg (by omega), if_neg (by omega), if_neg fun hin : InA ch => hhigh hin.2]
      rfl

lemma find?_B (ch : Char) : find? Code128BChars [ch] = if InB ch then some (ordB ch) else none := by
  have hrest := idxOf?_eq_none ch (show ∀ key ∈ ["FNC 3".toList, "FNC 2".toList, "Shift A".toList,
    "Code C".toList, "FNC 4".toList, "Code A".toList, "FNC 1".toList], key.length ≠ 1 by decide +kernel)
  rw [find?, Code128BChars, idxOf?_append, hrest, idxOf?_charsFrom (by decide), Option.map_none, Option.or_none]
  rfl

def ordC (c d : Char) : Nat := (c.toNat - 48) * 10 + (d.toNat - 48)

lemma isDigit_iff (ch : Char) : ch.isDigit = true ↔ 48 ≤ ch.toNat ∧ ch.toNat < 58 := by
  rw [Char.isDigit, Bool.and_eq_true, decide_eq_true_eq, decide_eq_true_eq, ge_iff_le,
    UInt32.le_iff_toNat_le, UInt32.le_iff_toNat_le]
  exact and_congr_right fun _ => Nat.lt_succ_iff.symm

lemma ordinal_C {c d : Char} (hc : c.isDigit = true) (hd : d.isDigit = true) :
    ordinal Code128CChars [c, d] = ordC c d := by
  rw [isDigit_iff] at hc hd
  have hlt : ordC c d < 100 := by
    unfold ordC
    omega
  have hkey : ∀ j < 100, [Char.ofNat (0x30 + j / 10), Char.ofNat (0x30 + j % 10)] = [c, d] ↔ j = ordC c d := by
    intro j hj
    rw [List.cons_eq_cons, List.cons_eq_cons, and_iff_left rfl, eq_comm, ← toNat_eq_iff (by omega),
      @eq_comm _ _ d, ← toNat_eq_iff (by omega), ordC]
    omega
  have hfind : ((List.range 100).map fun i => [Char.ofNat (0x30 + i / 10), Char.ofNat (0x30 + i % 10)]).idxOf? [c, d] =
      some (ordC c d) := by
    rw [List.idxOf?_eq_some_iff]
    refine ⟨by rwa [List.length_map, List.length_range], ?_, ?_⟩
    · rw [List.getElem_map, List.getElem_range]
      exact (hkey _ hlt).2 rfl
    · intro j hj
      rw [List.getElem_map, List.getElem_range, hkey j (by omega)]
      omega
  rw [ordinal, find?, Code128CChars, idxOf?_append, hfind, Option.some_or, Option.getD_some]

/-! ## What is ahead -/

def leadingDigits : List Char → Nat
  | [] => 0
  | ch :: rest => if ch.isDigit then leadingDigits rest + 1 else 0

def afterDigits (msg : List Char) : List Char := msg.dropWhile Char.isDigit

/-- The set of the next character that is in one of the sets A and B only, as far as there are not four digits before
it. -/
def leaning : List Char → Option CodeSet
  | [] => none
  | ch :: rest =>
    if 4 ≤ leadingDigits (ch :: rest) then none
    else if ¬ InB ch then some .A
    else if ¬ InA ch then some .B
    else leaning rest

/-- The digits ahead are better written in pairs: at least four of them, or an even number at the end. -/
def Paired (msg : List Char) : Prop :=
  if afterDigits msg = [] then 2 ≤ leadingDigits msg ∧ leadingDigits msg % 2 = 0 else 4 ≤ leadingDigits msg

instance : DecidablePred Paired := fun _ => inferInstanceAs (Decidable (ite _ _ _))

/-- No set is better for what is ahead. -/
def Stays : CodeSet → List Char → Prop
  | .A, msg => ¬ Paired msg ∧ leaning msg ≠ some .B
  | .B, msg => ¬ Paired msg ∧ leaning msg ≠ some .A
  | .C, msg => 2 ≤ leadingDigits msg

instance : ∀ set, DecidablePred (Stays set)
  | .A, _ => inferInstanceAs (Decidable (_ ∧ _))
  | .B, _ => inferInstanceAs (Decidable (_ ∧ _))
  | .C, _ => inferInstanceAs (Decidable (_ ≤ _))

def best (msg : List Char) : CodeSet := if Paired msg then .C else (leaning msg).getD .A

def choose (set : CodeSet) (msg : List Char) : CodeSet := if Stays set msg then set else best msg

def ord : CodeSet → Char → List Char → Nat
  | .A, ch, _ => ordA ch
  | .B, ch, _ => ordB ch
  | .C, ch, rest => ordC ch (rest.headD '\x00')

/-- The symbol for another set, with what is written for the set B after the set C. -/
def change (slip : Nat) : CodeSet → CodeSet → List Nat
  | .A, .B => [100]
  | .A, .C => [99]
  | .B, .A => [101]
  | .B, .C => [99]
  | .C, .A => [101]
  | .C, .B => [slip]
  | _, _ => []

/-- The symbols of a message from a set on. -/
def written (slip : Nat) : CodeSet → List Char → List Nat
  | _, [] => []
  | set, ch :: rest =>
    let next := choose set (ch :: rest)
    change slip set next ++ ord next ch rest ::
      if next = .C then
        match rest with
        | [] => []
        | _ :: rest => written slip .C rest
      else written slip next rest

lemma leadingDigits_of_digit (rest : List Char) (h : ch.isDigit = true) :
    leadingDigits (ch :: rest) = leadingDigits rest + 1 :=
  if_pos h

lemma leadingDigits_of_not (rest : List Char) (h : ¬ ch.isDigit = true) : leadingDigits (ch :: rest) = 0 := if_neg h

lemma afterDigits_of_digit (rest : List Char) (h : ch.isDigit = true) : afterDigits (ch :: rest) = afterDigits rest :=
  List.dropWhile_cons_of_pos h

lemma afterDigits_of_not (h : ¬ ch.isDigit = true) : afterDigits (ch :: rest) = ch :: rest :=
  List.dropWhile_cons_of_neg h

lemma both_of_digit (h : ch.isDigit = true) : InA ch ∧ InB ch := by
  have := (isDigit_iff ch).1 h
  unfold InA InB
  omega

/-- Digits do not count for one of the sets. -/
lemma leaning_of_digit (h : ch.isDigit = true) :
    leaning (ch :: rest) = if 4 ≤ leadingDigits (ch :: rest) then none else leaning rest := by
  rw [leaning, if_neg (not_not.2 (both_of_digit h).2), if_neg (not_not.2 (both_of_digit h).1)]

lemma leaning_of_not (h : ¬ ch.isDigit = true) : leaning (ch :: rest) =
    if ¬ InB ch then some .A else if ¬ InA ch then some .B else leaning rest := by
  rw [leaning, leadingDigits_of_not _ h]
  exact if_neg (by decide)

/-- At the end there are only digits ahead, which are in both sets. -/
lemma leaning_of_end (h : afterDigits msg = []) : leaning msg = none := by
  induction msg with
  | nil => rfl
  | cons ch rest ih =>
    by_cases hch : ch.isDigit = true
    · rw [leaning_of_digit hch]
      by_cases hfour : 4 ≤ leadingDigits (ch :: rest)
      · rw [if_pos hfour]
      · rw [if_neg hfour]
        exact ih (by rwa [afterDigits_of_digit _ hch] at h)
    · rw [afterDigits_of_not hch] at h
      exact absurd h (List.cons_ne_nil _ _)

lemma leaning_afterDigits (h : leadingDigits msg < 4) : leaning msg = leaning (afterDigits msg) := by
  induction msg with
  | nil => rfl
  | cons ch rest ih =>
    by_cases hch : ch.isDigit = true
    · rw [leaning_of_digit hch, if_neg (Nat.not_le.2 h), afterDigits_of_digit _ hch]
      rw [leadingDigits_of_digit _ hch] at h
      exact ih (by omega)
    · rw [afterDigits_of_not hch]

lemma leaning_of_four (h : 4 ≤ leadingDigits msg) : leaning msg = none := by
  cases msg with
  | nil => rfl
  | cons ch rest =>
    rw [leaning]
    exact if_pos h

lemma leaning_ne_C (msg : List Char) : leaning msg ≠ some .C := by
  induction msg with
  | nil => nofun
  | cons ch rest ih =>
    rw [leaning]
    by_cases hfour : 4 ≤ leadingDigits (ch :: rest)
    · rw [if_pos hfour]
      nofun
    · rw [if_neg hfour]
      by_cases hB : ¬ InB ch
      · rw [if_pos hB]
        nofun
      · rw [if_neg hB]
        by_cases hA : ¬ InA ch
        · rw [if_pos hA]
          nofun
        · rw [if_neg hA]
          exact ih

lemma paired_of_end (h : afterDigits msg = []) : Paired msg ↔ 2 ≤ leadingDigits msg ∧ leadingDigits msg % 2 = 0 := by
  rw [Paired, if_pos h]

lemma paired_of_not_end (h : afterDigits msg ≠ []) : Paired msg ↔ 4 ≤ leadingDigits msg := by
  rw [Paired, if_neg h]

lemma two_le_of_paired (h : Paired msg) : 2 ≤ leadingDigits msg := by
  by_cases hend : afterDigits msg = []
  · exact ((paired_of_end hend).1 h).1
  · have := (paired_of_not_end hend).1 h
    omega

lemma best_of_paired (h : Paired msg) : best msg = .C := if_pos h

lemma best_of_not_paired (h : ¬ Paired msg) : best msg = (leaning msg).getD .A := if_neg h

lemma stays_best (msg : List Char) : Stays (best msg) msg := by
  by_cases hpaired : Paired msg
  · rw [best_of_paired hpaired]
    exact two_le_of_paired hpaired
  · rw [best_of_not_paired hpaired]
    cases hlean : leaning msg with
    | none => exact ⟨hpaired, by rw [hlean]; nofun⟩
    | some set =>
      cases set with
      | A => exact ⟨hpaired, by rw [hlean]; nofun⟩
      | B => exact ⟨hpaired, by rw [hlean]; nofun⟩
      | C => exact absurd hlean (leaning_ne_C msg)

lemma choose_of_stays (h : Stays e msg) : choose e msg = e := if_pos h

lemma choose_of_not (h : ¬ Stays e msg) : choose e msg = best msg := if_neg h

lemma stays_choose (e : CodeSet) (msg : List Char) : Stays (choose e msg) msg := by
  by_cases h : Stays e msg
  · rwa [choose_of_stays h]
  · rw [choose_of_not h]
    exact stays_best msg

lemma choose_choose (e : CodeSet) (msg : List Char) : choose (choose e msg) msg = choose e msg :=
  choose_of_stays (stays_choose e msg)

lemma change_self (slip : Nat) (e : CodeSet) : change slip e e = [] := by
  cases e <;> rfl

lemma length_change (slip : Nat) (h : e ≠ p) : (change slip e p).length = 1 := by
  cases e <;> cases p <;> first | rfl | exact absurd rfl h

lemma written_cons (slip : Nat) (e : CodeSet) (ch : Char) (rest : List Char) : written slip e (ch :: rest) =
    change slip e (choose e (ch :: rest)) ++ ord (choose e (ch :: rest)) ch rest ::
      (if choose e (ch :: rest) = .C then written slip .C (rest.drop 1)
      else written slip (choose e (ch :: rest)) rest) := by
  cases rest <;> rfl

lemma written_pair (slip : Nat) {c d : Char} (h : 2 ≤ leadingDigits (c :: d :: rest)) :
    written slip .C (c :: d :: rest) = ordC c d :: written slip .C rest := by
  have hchoose : choose .C (c :: d :: rest) = .C := choose_of_stays h
  rw [written_cons, hchoose, change_self]
  rfl

lemma written_stays (slip : Nat) (hne : e ≠ .C) (h : Stays e (ch :: rest)) :
    written slip e (ch :: rest) = ord e ch rest :: written slip e rest := by
  rw [written_cons, choose_of_stays h, change_self, List.nil_append, if_neg hne]

/-- Another set is chosen as if the message began there. -/
lemma written_not (slip : Nat) (h : ¬ Stays e msg) (hne : msg ≠ []) :
    written slip e msg = change slip e (best msg) ++ written slip (best msg) msg := by
  cases msg with
  | nil => exact absurd rfl hne
  | cons ch rest =>
    rw [written_cons, written_cons, choose_of_not h, choose_of_stays (stays_best _), change_self, List.nil_append]

lemma message_induction {P : List Char → Prop} (nil : P [])
    (cons : ∀ ch rest, (∀ msg, msg.length ≤ rest.length → P msg) → P (ch :: rest)) (msg : List Char) : P msg := by
  induction hlength : msg.length using Nat.strong_induction_on generalizing msg with
  | _ n ih =>
    cases msg with
    | nil => exact nil
    | cons ch rest =>
      refine cons ch rest fun msg hle => ih msg.length ?_ msg rfl
      rw [← hlength, List.length_cons]
      omega

/-- Digits ahead, at least two of them, are the first two characters. -/
lemma exists_digits (h : 2 ≤ leadingDigits msg) :
    ∃ c d rest, msg = c :: d :: rest ∧ c.isDigit = true ∧ d.isDigit = true := by
  cases msg with
  | nil => exact absurd h (by decide)
  | cons c rest =>
    by_cases hc : c.isDigit = true
    · rw [leadingDigits_of_digit _ hc] at h
      cases rest with
      | nil => exact absurd h (by decide)
      | cons d rest =>
        by_cases hd : d.isDigit = true
        · exact ⟨c, d, rest, rfl, hc, hd⟩
        · rw [leadingDigits_of_not _ hd] at h
          exact absurd h (by decide)
    · rw [leadingDigits_of_not _ hc] at h
      exact absurd h (by decide)

/-! ## How many symbols it takes -/

/-- How many symbols a message takes from a set on. -/
def count (set : CodeSet) (msg : List Char) : Nat := (written 100 set msg).length

lemma length_written (slip : Nat) (e : CodeSet) (msg : List Char) : (written slip e msg).length = count e msg := by
  rw [count]
  induction msg using message_induction generalizing e with
  | nil => rfl
  | cons ch rest ih =>
    have hstay : ∀ p, Stays p (ch :: rest) →
        (written slip p (ch :: rest)).length = (written 100 p (ch :: rest)).length := by
      intro p hp
      by_cases hC : p = .C
      · subst hC
        obtain ⟨c, d, rest', heq, -, -⟩ := exists_digits hp
        rw [heq] at hp ⊢
        rw [written_pair slip hp, written_pair 100 hp, List.length_cons, List.length_cons, ih rest' ?_ .C]
        rw [(List.cons.inj heq).2, List.length_cons]
        omega
      · rw [written_stays slip hC hp, written_stays 100 hC hp, List.length_cons, List.length_cons,
          ih rest (le_refl _) p]
    by_cases h : Stays e (ch :: rest)
    · exact hstay e h
    · have hne : e ≠ best (ch :: rest) := fun heq => h (heq ▸ stays_best _)
      rw [written_not slip h (List.cons_ne_nil _ _), written_not 100 h (List.cons_ne_nil _ _), List.length_append,
        List.length_append, length_change slip hne, length_change 100 hne, hstay _ (stays_best _)]

lemma count_nil (e : CodeSet) : count e [] = 0 := rfl

lemma count_pair {c d : Char} (h : 2 ≤ leadingDigits (c :: d :: rest)) :
    count .C (c :: d :: rest) = count .C rest + 1 := by
  rw [count, written_pair 100 h]
  rfl

lemma count_stays (hne : e ≠ .C) (h : Stays e (ch :: rest)) : count e (ch :: rest) = count e rest + 1 := by
  rw [count, written_stays 100 hne h]
  rfl

lemma count_not (h : ¬ Stays e msg) (hne : msg ≠ []) : count e msg = count (best msg) msg + 1 := by
  have hbest : e ≠ best msg := fun heq => h (heq ▸ stays_best _)
  rw [count, written_not 100 h hne, List.length_append, length_change 100 hbest, Nat.add_comm]
  rfl

/-- The numbers of symbols for digits at the end. -/
lemma count_of_end (h : afterDigits msg = []) :
    count .C msg = (if leadingDigits msg % 2 = 0 then leadingDigits msg / 2 else (leadingDigits msg + 3) / 2) ∧
      ∀ e, e ≠ .C → count e msg = (if leadingDigits msg ≤ 1 then leadingDigits msg
        else if leadingDigits msg % 2 = 0 then leadingDigits msg / 2 + 1 else (leadingDigits msg + 3) / 2) := by
  induction msg using message_induction with
  | nil => exact ⟨rfl, fun e _ => rfl⟩
  | cons ch rest ih =>
    have hch : ch.isDigit = true := by
      by_contra hch
      rw [afterDigits_of_not hch] at h
      exact absurd h (List.cons_ne_nil _ _)
    rw [afterDigits_of_digit _ hch] at h
    have hk := leadingDigits_of_digit rest hch
    have hlean : leaning (ch :: rest) = none := leaning_of_end (by rwa [afterDigits_of_digit _ hch])
    have hpaired := paired_of_end ((afterDigits_of_digit rest hch).trans h)
    obtain ⟨-, hrest⟩ := ih rest (le_refl _) h
    have hnotC : ∀ e, e ≠ .C → ¬ Paired (ch :: rest) → count e (ch :: rest) = count e rest + 1 := by
      intro e he hnot
      refine count_stays he ?_
      cases e with
      | A => exact ⟨hnot, by rw [hlean]; nofun⟩
      | B => exact ⟨hnot, by rw [hlean]; nofun⟩
      | C => exact absurd rfl he
    have hC : count .C (ch :: rest) = (if leadingDigits (ch :: rest) % 2 = 0 then leadingDigits (ch :: rest) / 2
        else (leadingDigits (ch :: rest) + 3) / 2) := by
      by_cases htwo : 2 ≤ leadingDigits (ch :: rest)
      · obtain ⟨c, d, rest', heq, -, hd⟩ := exists_digits htwo
        obtain ⟨rfl, rfl⟩ := List.cons.inj heq
        rw [afterDigits_of_digit _ hd] at h
        obtain ⟨hrest', -⟩ := ih rest' (by rw [List.length_cons]; omega) h
        have hk' := leadingDigits_of_digit rest' hd
        rw [count_pair htwo, hrest']
        split_ifs <;> omega
      · have hnot : ¬ Paired (ch :: rest) := fun hp => htwo (two_le_of_paired hp)
        have hbest : best (ch :: rest) = .A := by
          rw [best_of_not_paired hnot, hlean]
          rfl
        rw [count_not (show ¬ Stays .C (ch :: rest) from htwo) (List.cons_ne_nil _ _), hbest, hnotC .A nofun hnot,
          hrest .A nofun]
        split_ifs <;> omega
    refine ⟨hC, fun e he => ?_⟩
    by_cases hp : Paired (ch :: rest)
    · have hnot : ¬ Stays e (ch :: rest) := by
        cases e with
        | A => exact fun hs => hs.1 hp
        | B => exact fun hs => hs.1 hp
        | C => exact absurd rfl he
      rw [count_not hnot (List.cons_ne_nil _ _), best_of_paired hp, hC]
      have := hpaired.1 hp
      split_ifs <;> omega
    · rw [hnotC e he hp, hrest e he]
      rw [hpaired] at hp
      split_ifs <;> omega

def other : CodeSet → CodeSet
  | .A => .B
  | .B => .A
  | .C => .C

lemma stays_iff (he : e ≠ .C) : Stays e msg ↔ ¬ Paired msg ∧ leaning msg ≠ some (other e) := by
  cases e with
  | A => exact Iff.rfl
  | B => exact Iff.rfl
  | C => exact absurd rfl he

/-- Where the digits are not paired, the set is A or B. -/
lemma best_ne_C (hp : ¬ Paired msg) : best msg ≠ .C ∧ leaning msg ≠ some (other (best msg)) := by
  rw [best_of_not_paired hp]
  cases hlean : leaning msg with
  | none => exact ⟨nofun, nofun⟩
  | some set =>
    cases set with
    | A => exact ⟨nofun, nofun⟩
    | B => exact ⟨nofun, nofun⟩
    | C => exact absurd hlean (leaning_ne_C msg)

/-- Where the next character in one set only is of the other set, that set is chosen. -/
lemma count_of_leaning (he : e ≠ .C) (hp : ¬ Paired (ch :: rest)) (h : leaning (ch :: rest) = some (other e)) :
    count e (ch :: rest) = count (other e) rest + 2 := by
  have hne : other e ≠ .C := by
    cases e with
    | A => nofun
    | B => nofun
    | C => exact absurd rfl he
  have hnot : ¬ Stays e (ch :: rest) := fun hs => ((stays_iff he).1 hs).2 h
  have hbest : best (ch :: rest) = other e := by
    rw [best_of_not_paired hp, h]
    rfl
  have hstays := stays_best (ch :: rest)
  rw [hbest] at hstays
  rw [count_not hnot (List.cons_ne_nil _ _), hbest, count_stays hne hstays]

/-- The numbers of symbols for digits before something else. -/
lemma count_of_not_end (h : afterDigits msg ≠ []) :
    count .C msg = count .C (afterDigits msg) + (leadingDigits msg + 1) / 2 ∧
      ∀ e, e ≠ .C →
        (4 ≤ leadingDigits msg → count e msg = count .C (afterDigits msg) + (leadingDigits msg + 1) / 2 + 1) ∧
        (leadingDigits msg < 4 → count e msg + 1 = count .C (afterDigits msg) + leadingDigits msg +
          if leaning msg = some (other e) then 1 else 0) := by
  induction msg using message_induction with
  | nil => exact absurd rfl h
  | cons ch rest ih =>
    by_cases hch : ch.isDigit = true
    · have hend := afterDigits_of_digit rest hch
      have hk := leadingDigits_of_digit rest hch
      have hpaired := paired_of_not_end h
      obtain ⟨-, hrest⟩ := ih rest (le_refl _) (by rwa [hend] at h)
      have hlean : leadingDigits (ch :: rest) < 4 → leaning (ch :: rest) = leaning rest := by
        intro hfour
        rw [leaning_of_digit hch, if_neg (Nat.not_le.2 hfour)]
      have hC : count .C (ch :: rest) = count .C (afterDigits (ch :: rest)) + (leadingDigits (ch :: rest) + 1) / 2 := by
        by_cases htwo : 2 ≤ leadingDigits (ch :: rest)
        · obtain ⟨c, d, rest', heq, -, hd⟩ := exists_digits htwo
          obtain ⟨rfl, rfl⟩ := List.cons.inj heq
          have hend' := afterDigits_of_digit rest' hd
          have hk' := leadingDigits_of_digit rest' hd
          obtain ⟨hrest', -⟩ := ih rest' (by rw [List.length_cons]; omega) (by rwa [hend, hend'] at h)
          rw [count_pair htwo, hrest', hend, hend']
          omega
        · have hnot : ¬ Paired (ch :: rest) := fun hp => htwo (two_le_of_paired hp)
          obtain ⟨hne, hlean'⟩ := best_ne_C hnot
          rw [count_not (show ¬ Stays .C (ch :: rest) from htwo) (List.cons_ne_nil _ _),
            count_stays hne ((stays_iff hne).2 ⟨hnot, hlean'⟩), hend]
          have hcount := (hrest _ hne).2 (by omega)
          rw [← hlean (by omega), if_neg hlean'] at hcount
          omega
      refine ⟨hC, fun e he => ⟨fun hfour => ?_, fun hfour => ?_⟩⟩
      · have hp : Paired (ch :: rest) := hpaired.2 hfour
        have hnot : ¬ Stays e (ch :: rest) := fun hs => ((stays_iff he).1 hs).1 hp
        rw [count_not hnot (List.cons_ne_nil _ _), best_of_paired hp, hC]
      · have hp : ¬ Paired (ch :: rest) := fun hp => Nat.not_le.2 hfour (hpaired.1 hp)
        by_cases hother : leaning (ch :: rest) = some (other e)
        · have hne : other e ≠ .C ∧ other (other e) = e ∧ other e ≠ e := by
            cases e with
            | A => exact ⟨nofun, rfl, nofun⟩
            | B => exact ⟨nofun, rfl, nofun⟩
            | C => exact absurd rfl he
          have hcount := (hrest _ hne.1).2 (by omega)
          rw [hlean hfour] at hother
          rw [hother, hne.2.1, if_neg fun heq => hne.2.2 (Option.some.inj heq)] at hcount
          rw [count_of_leaning he hp (by rw [hlean hfour, hother]), if_pos (by rw [hlean hfour, hother]), hend]
          omega
        · have hcount := (hrest e he).2 (by omega)
          rw [hlean hfour] at hother
          rw [if_neg hother] at hcount
          rw [count_stays he ((stays_iff he).2 ⟨hp, by rwa [hlean hfour]⟩), if_neg (by rwa [hlean hfour]), hend]
          omega
    · have hk := leadingDigits_of_not rest hch
      have hnotC : ¬ Stays .C (ch :: rest) := by
        change ¬ 2 ≤ leadingDigits (ch :: rest)
        omega
      have hp : ¬ Paired (ch :: rest) := fun hp => hnotC (two_le_of_paired hp)
      rw [afterDigits_of_not hch, hk]
      refine ⟨rfl, fun e he => ⟨fun hfour => absurd hfour (by decide), fun _ => ?_⟩⟩
      rw [count_not hnotC (List.cons_ne_nil _ _), best_of_not_paired hp]
      by_cases hother : leaning (ch :: rest) = some (other e)
      · have hbest : (leaning (ch :: rest)).getD .A = other e := by
          rw [hother]
          rfl
        have hnot : ¬ Stays e (ch :: rest) := fun hs => ((stays_iff he).1 hs).2 hother
        rw [if_pos hother, count_not hnot (List.cons_ne_nil _ _), best_of_not_paired hp]
      · rw [if_neg hother]
        refine congrArg (· + 1) ?_
        -- both sets are as good as each other where no character ahead is in one of them only
        have hsame : leaning (ch :: rest) = none → count .A (ch :: rest) = count .B (ch :: rest) := by
          intro hnone
          have hA : Stays .A (ch :: rest) := ⟨hp, by rw [hnone]; nofun⟩
          have hB : Stays .B (ch :: rest) := ⟨hp, by rw [hnone]; nofun⟩
          rw [count_stays (e := .A) nofun hA, count_stays (e := .B) nofun hB]
          have hrestnone : leaning rest = none := by
            rw [leaning_of_not hch] at hnone
            by_cases hB : ¬ InB ch
            · rw [if_pos hB] at hnone
              exact absurd hnone nofun
            · rw [if_neg hB] at hnone
              by_cases hA : ¬ InA ch
              · rw [if_pos hA] at hnone
                exact absurd hnone nofun
              · rwa [if_neg hA] at hnone
          by_cases hrest : afterDigits rest = []
          · rw [(count_of_end hrest).2 .A nofun, (count_of_end hrest).2 .B nofun]
          · obtain ⟨-, hcount⟩ := ih rest (le_refl _) hrest
            have hA := hcount .A nofun
            have hB := hcount .B nofun
            rw [hrestnone, if_neg nofun] at hA hB
            omega
        cases hlean : leaning (ch :: rest) with
        | none =>
          cases e with
          | A => rfl
          | B => exact (hsame hlean).symm
          | C => exact absurd rfl he
        | some set =>
          cases set with
          | A =>
            cases e with
            | A => rfl
            | B => exact absurd hlean hother
            | C => exact absurd rfl he
          | B =>
            cases e with
            | A => exact absurd hlean hother
            | B => rfl
            | C => exact absurd rfl he
          | C => exact absurd hlean (leaning_ne_C _)

/-- Sets that are as good as any are equally good. -/
lemma count_of_stays (h : Stays e msg) : count e msg = count (best msg) msg := by
  by_cases hp : Paired msg
  · by_cases he : e = .C
    · rw [he, best_of_paired hp]
    · exact absurd hp ((stays_iff he).1 h).1
  · obtain ⟨hne, hlean⟩ := best_ne_C hp
    by_cases hend : afterDigits msg = []
    · obtain ⟨hC, hcount⟩ := count_of_end hend
      rw [paired_of_end hend] at hp
      rw [hcount _ hne]
      by_cases he : e = .C
      · subst he
        have htwo : 2 ≤ leadingDigits msg := h
        rw [hC]
        split_ifs <;> omega
      · rw [hcount e he]
    · obtain ⟨hC, hcount⟩ := count_of_not_end hend
      rw [paired_of_not_end hend, Nat.not_le] at hp
      have hbest := (hcount _ hne).2 hp
      rw [if_neg hlean] at hbest
      by_cases he : e = .C
      · subst he
        have htwo : 2 ≤ leadingDigits msg := h
        omega
      · have hcount' := (hcount e he).2 hp
        rw [if_neg ((stays_iff he).1 h).2] at hcount'
        omega

lemma count_best_le (e : CodeSet) (msg : List Char) :
    count (best msg) msg ≤ count e msg ∧ count e msg ≤ count (best msg) msg + 1 := by
  by_cases h : Stays e msg
  · rw [count_of_stays h]
    omega
  · cases msg with
    | nil => exact ⟨le_refl _, Nat.zero_le _⟩
    | cons ch rest =>
      rw [count_not h (List.cons_ne_nil _ _)]
      omega

/-- The program knows the character of the set. -/
def In : CodeSet → Char → Prop
  | .A => InA
  | .B => InB
  | .C => fun _ => False

/-- Writing the next character in a set does not take less than the best way. -/
lemma count_le_of_in (hin : In e ch) : count e (ch :: rest) ≤ count e rest + 1 := by
  have he : e ≠ .C := by
    rintro rfl
    exact hin
  by_cases h : Stays e (ch :: rest)
  · rw [count_stays he h]
  · rw [stays_iff he, not_and_or, not_not, not_not] at h
    by_cases hp : Paired (ch :: rest)
    · have hch : ch.isDigit = true := by
        by_contra hch
        have := two_le_of_paired hp
        rw [leadingDigits_of_not _ hch] at this
        exact absurd this (by decide)
      have hk := leadingDigits_of_digit rest hch
      have hafter := afterDigits_of_digit rest hch
      by_cases hend : afterDigits rest = []
      · have hp' := (paired_of_end (hafter.trans hend)).1 hp
        rw [(count_of_end (hafter.trans hend)).2 e he, (count_of_end hend).2 e he]
        split_ifs <;> omega
      · have hend' : afterDigits (ch :: rest) ≠ [] := by rwa [hafter]
        have hp' := (paired_of_not_end hend').1 hp
        rw [((count_of_not_end hend').2 e he).1 hp', hafter]
        by_cases hfour : 4 ≤ leadingDigits rest
        · rw [((count_of_not_end hend).2 e he).1 hfour]
          omega
        · have hcount := ((count_of_not_end hend).2 e he).2 (by omega)
          omega
    · have hother := h.resolve_left hp
      have hrest : leaning rest = some (other e) := by
        rw [leaning] at hother
        by_cases hfour : 4 ≤ leadingDigits (ch :: rest)
        · rw [if_pos hfour] at hother
          exact absurd hother nofun
        · rw [if_neg hfour] at hother
          cases e with
          | A =>
            by_cases hB : ¬ InB ch
            · rw [if_pos hB] at hother
              exact absurd hother nofun
            · rwa [if_neg hB, if_neg (not_not.2 (show InA ch from hin))] at hother
          | B =>
            rw [if_neg (not_not.2 (show InB ch from hin))] at hother
            by_cases hA : ¬ InA ch
            · rw [if_pos hA] at hother
              exact absurd hother nofun
            · rwa [if_neg hA] at hother
          | C => exact absurd rfl he
      have hend : afterDigits rest ≠ [] := by
        intro hend
        rw [leaning_of_end hend] at hrest
        exact absurd hrest nofun
      have hfour : leadingDigits rest < 4 := by
        by_contra hfour
        rw [leaning_of_four (Nat.not_lt.1 hfour)] at hrest
        exact absurd hrest nofun
      have hne : other e ≠ .C ∧ other (other e) ≠ other e := by
        cases e with
        | A => exact ⟨nofun, nofun⟩
        | B => exact ⟨nofun, nofun⟩
        | C => exact absurd rfl he
      have hcount := ((count_of_not_end hend).2 e he).2 hfour
      have hcount' := ((count_of_not_end hend).2 _ hne.1).2 hfour
      rw [if_pos hrest] at hcount
      rw [hrest, if_neg fun heq => hne.2 (Option.some.inj heq).symm] at hcount'
      rw [count_of_leaning he hp hother]
      omega

/-- A set that is chosen has the next character. -/
lemma in_of_stays (hch : Supported ch) (he : e ≠ .C) (h : Stays e (ch :: rest)) : In e ch := by
  obtain ⟨-, hlean⟩ := (stays_iff he).1 h
  by_contra hin
  have hboth : ¬ (InA ch ∧ InB ch) := by
    cases e with
    | A => exact fun hboth => hin hboth.1
    | B => exact fun hboth => hin hboth.2
    | C => exact absurd rfl he
  rw [leaning_of_not fun hdigit => hboth (both_of_digit hdigit)] at hlean
  cases e with
  | A =>
    have hB : InB ch := hch.resolve_left hin
    rw [if_neg (not_not.2 hB)] at hlean
    exact hlean (if_pos hin)
  | B => exact hlean (if_pos hin)
  | C => exact absurd rfl he

lemma digits_of_stays (h : Stays .C (ch :: rest)) : ∃ d rest', rest = d :: rest' ∧ ch.isDigit = true ∧
    d.isDigit = true := by
  obtain ⟨c, d, rest', heq, hc, hd⟩ := exists_digits h
  obtain ⟨rfl, rfl⟩ := List.cons.inj heq
  exact ⟨d, rest', rfl, hc, hd⟩

end CppExperiments.Barcode

import CppExperiments.Cli.Barcode

/-!
# Barcodes and their scanners

The table of the encoder has the numbers of symbols that are needed, so it takes the sets that need the fewest. What it
writes is read as the message unless it goes from the set C to the set B.
-/

namespace CppExperiments.Barcode

open Code128 (CodeSet Meaning meaning decode weighted checksum bars)

variable {e p : CodeSet} {ch : Char} {rest msg : List Char} {slip : Nat}

/-! ## The table -/

def row (msg : List Char) : Row := (dp msg).getD 0 fun _ => INF

lemma dp_ne_nil (msg : List Char) : dp msg = row msg :: (dp msg).drop 1 := by
  cases msg <;> rfl

/-- The row of a character, by the sets that have it. -/
lemma row_cons (ch : Char) (rest : List Char) : row (ch :: rest) =
    (if ch.isDigit && rest.head?.any Char.isDigit then Row.digits (row (rest.drop 1)) else id)
      ((if InB ch then Row.inB (row rest) else id) ((if InA ch then Row.inA (row rest) else id) fun _ => INF)) := by
  have hA : ∀ r, (if (find? Code128AChars [ch]).isSome then Row.inA (row rest) r else r) =
      (if InA ch then Row.inA (row rest) else id) r := by
    intro r
    rw [find?_A]
    by_cases h : InA ch
    · rw [if_pos h, if_pos h]
      rfl
    · rw [if_neg h, if_neg h]
      rfl
  have hB : ∀ r, (if (find? Code128BChars [ch]).isSome then Row.inB (row rest) r else r) =
      (if InB ch then Row.inB (row rest) else id) r := by
    intro r
    rw [find?_B]
    by_cases h : InB ch
    · rw [if_pos h, if_pos h]
      rfl
    · rw [if_neg h, if_neg h]
      rfl
  have hentry : row (ch :: rest) = entry ch rest (row rest) ((dp rest).getD 1 fun _ => INF) := rfl
  rw [hentry, entry]
  rw [hA, hB]
  by_cases hpair : (ch.isDigit && rest.head?.any Char.isDigit) = true
  · rw [if_pos hpair, if_pos hpair]
    cases rest with
    | nil =>
      rw [Bool.and_eq_true] at hpair
      exact absurd hpair.2 Bool.false_ne_true
    | cons d rest => rfl
  · rw [if_neg hpair, if_neg hpair]
    rfl

/-- The table has the numbers of symbols, as far as they do not pass the maximum. The shifts are never better. -/
structure Counted (msg : List Char) (row : Row) : Prop where
  A : row .A = min INF (count .A msg)
  B : row .B = min INF (count .B msg)
  C : row .C = min INF (count .C msg)
  shiftB : row .B ≤ row .shiftB
  shiftA : row .A ≤ row .shiftA

lemma count_le_add_one (e p : CodeSet) (msg : List Char) : count e msg ≤ count p msg + 1 :=
  (count_best_le e msg).2.trans (Nat.add_le_add_right (count_best_le p msg).1 1)

/-- The first symbol is that of a set that has the character, or of a pair of digits. -/
lemma count_cons (rest : List Char) (hch : Supported ch) (e : CodeSet) :
    (∃ p, In p ch ∧ count e (ch :: rest) = count p rest + (if e = p then 1 else 2)) ∨
      ∃ d rest', rest = d :: rest' ∧ ch.isDigit = true ∧ d.isDigit = true ∧
        count e (ch :: rest) = count .C rest' + (if e = .C then 1 else 2) := by
  have hstays : ∀ p, Stays p (ch :: rest) → (In p ch ∧ count p (ch :: rest) = count p rest + 1) ∨
      p = .C ∧ ∃ d rest', rest = d :: rest' ∧ ch.isDigit = true ∧ d.isDigit = true ∧
        count .C (ch :: rest) = count .C rest' + 1 := by
    intro p hp
    by_cases hC : p = .C
    · subst hC
      obtain ⟨d, rest', rfl, hc, hd⟩ := digits_of_stays hp
      exact Or.inr ⟨rfl, d, rest', rfl, hc, hd, count_pair hp⟩
    · exact Or.inl ⟨in_of_stays hch hC hp, count_stays hC hp⟩
  by_cases h : Stays e (ch :: rest)
  · rcases hstays e h with ⟨hin, hcount⟩ | ⟨rfl, d, rest', hrest, hc, hd, hcount⟩
    · exact Or.inl ⟨e, hin, by rw [if_pos rfl, hcount]⟩
    · exact Or.inr ⟨d, rest', hrest, hc, hd, by rw [if_pos rfl, hcount]⟩
  · have hne : e ≠ best (ch :: rest) := fun heq => h (heq ▸ stays_best _)
    rw [count_not h (List.cons_ne_nil _ _)]
    rcases hstays _ (stays_best (ch :: rest)) with ⟨hin, hcount⟩ | ⟨hbest, d, rest', hrest, hc, hd, hcount⟩
    · exact Or.inl ⟨_, hin, by rw [if_neg hne, hcount]⟩
    · exact Or.inr ⟨d, rest', hrest, hc, hd, by rw [hbest] at hne ⊢; rw [if_neg hne, hcount]⟩

/-- Each way to go on takes at least as many symbols, and one takes as many. -/
lemma count_ways (rest : List Char) (hch : Supported ch) (e : CodeSet) :
    (InA ch → count e (ch :: rest) ≤ count .A rest + (if e = .A then 1 else 2)) ∧
      (InB ch → count e (ch :: rest) ≤ count .B rest + (if e = .B then 1 else 2)) ∧
      ((ch.isDigit && rest.head?.any Char.isDigit) = true →
        count e (ch :: rest) ≤ count .C (rest.drop 1) + (if e = .C then 1 else 2)) ∧
      (InA ch ∧ count e (ch :: rest) = count .A rest + (if e = .A then 1 else 2) ∨
        InB ch ∧ count e (ch :: rest) = count .B rest + (if e = .B then 1 else 2) ∨
        (ch.isDigit && rest.head?.any Char.isDigit) = true ∧
          count e (ch :: rest) = count .C (rest.drop 1) + (if e = .C then 1 else 2)) := by
  have hle : ∀ p n, count p (ch :: rest) ≤ n + 1 → count e (ch :: rest) ≤ n + (if e = p then 1 else 2) := by
    intro p n h
    by_cases heq : e = p
    · rwa [if_pos heq, heq]
    · have := count_le_add_one e p (ch :: rest)
      rw [if_neg heq]
      omega
  refine ⟨fun hA => hle .A _ (count_le_of_in (e := .A) hA), fun hB => hle .B _ (count_le_of_in (e := .B) hB),
    fun hpair => hle .C _ ?_, ?_⟩
  · rw [Bool.and_eq_true] at hpair
    cases rest with
    | nil => exact absurd hpair.2 Bool.false_ne_true
    | cons d rest =>
      have htwo : 2 ≤ leadingDigits (ch :: d :: rest) := by
        rw [leadingDigits_of_digit _ hpair.1, leadingDigits_of_digit _ hpair.2]
        omega
      rw [count_pair htwo]
      exact le_refl _
  · rcases count_cons rest hch e with ⟨p, hin, hcount⟩ | ⟨d, rest', rfl, hc, hd, hcount⟩
    · cases p with
      | A => exact Or.inl ⟨hin, hcount⟩
      | B => exact Or.inr (Or.inl ⟨hin, hcount⟩)
      | C => exact absurd hin id
    · exact Or.inr (Or.inr ⟨by rw [hc, List.head?_cons, Option.any_some, hd]; rfl, hcount⟩)

/-- What the row of a character has for a set, by the numbers of symbols for what is after it. -/
lemma min_count {n a b c : Nat} {inA inB pair : Prop} {ka kb kc : Nat} (hA : inA → n ≤ a + ka) (hB : inB → n ≤ b + kb)
    (hpair : pair → n ≤ c + kc) (h : inA ∧ n = a + ka ∨ inB ∧ n = b + kb ∨ pair ∧ n = c + kc) [Decidable inA]
    [Decidable inB] [Decidable pair] :
    min INF n = min (min (if inA then min INF (ka + min INF a) else INF)
      (if inB then min INF (kb + min INF b) else INF))
      (if pair then min INF (kc + min INF c) else INF) := by
  split_ifs <;>
    simp only [*, true_implies, false_implies, true_and, false_and, false_or, or_false] at hA hB hpair h <;>
    omega

section

variable {next next2 : Row} {inA inB pair : Prop} [Decidable inA] [Decidable inB] [Decidable pair]

/-- The row of a character from those after it. -/
def filled (next next2 : Row) (inA inB pair : Prop) [Decidable inA] [Decidable inB] [Decidable pair] : Row :=
  (if pair then Row.digits next2 else id)
    ((if inB then Row.inB next else id) ((if inA then Row.inA next else id) fun _ => INF))

lemma filled_A (h : next .B ≤ next .shiftB) : filled next next2 inA inB pair .A =
    min (min (if inA then min INF (1 + next .A) else INF) (if inB then min INF (2 + next .B) else INF))
      (if pair then min INF (2 + next2 .C) else INF) := by
  unfold filled
  split_ifs <;> simp only [Row.inA, Row.inB, Row.digits, id] <;> omega

lemma filled_B (h : next .A ≤ next .shiftA) : filled next next2 inA inB pair .B =
    min (min (if inA then min INF (2 + next .A) else INF) (if inB then min INF (1 + next .B) else INF))
      (if pair then min INF (2 + next2 .C) else INF) := by
  unfold filled
  split_ifs <;> simp only [Row.inA, Row.inB, Row.digits, id] <;> omega

lemma filled_C : filled next next2 inA inB pair .C =
    min (min (if inA then min INF (2 + next .A) else INF) (if inB then min INF (2 + next .B) else INF))
      (if pair then min INF (1 + next2 .C) else INF) := by
  unfold filled
  split_ifs <;> simp only [Row.inA, Row.inB, Row.digits, id] <;> omega

lemma filled_shiftB (h : next .B ≤ next .A + 1) :
    filled next next2 inA inB pair .B ≤ filled next next2 inA inB pair .shiftB := by
  unfold filled
  split_ifs <;> simp only [Row.inA, Row.inB, Row.digits, id] <;> omega

lemma filled_shiftA (h : next .A ≤ next .B + 1) :
    filled next next2 inA inB pair .A ≤ filled next next2 inA inB pair .shiftA := by
  unfold filled
  split_ifs <;> simp only [Row.inA, Row.inB, Row.digits, id] <;> omega

end

lemma counted (hmsg : ∀ ch ∈ msg, Supported ch) : Counted msg (row msg) := by
  induction msg using message_induction with
  | nil => exact ⟨rfl, rfl, rfl, le_refl _, le_refl _⟩
  | cons ch rest ih =>
    rw [List.forall_mem_cons] at hmsg
    have hrest := ih rest (le_refl _) hmsg.2
    have hpair := ih (rest.drop 1) (by rw [List.length_drop]; omega) fun c hc => hmsg.2 c (List.mem_of_mem_drop hc)
    have hAB := count_le_add_one .A .B rest
    have hBA := count_le_add_one .B .A rest
    have hways := fun e => count_ways rest hmsg.1 e
    have hrow : row (ch :: rest) = filled (row rest) (row (rest.drop 1)) (InA ch) (InB ch)
        ((ch.isDigit && rest.head?.any Char.isDigit) = true) := row_cons ch rest
    rw [hrow]
    refine ⟨?_, ?_, ?_, filled_shiftB ?_, filled_shiftA ?_⟩
    · obtain ⟨hA, hB, hC, h⟩ := hways .A
      rw [filled_A hrest.shiftB, hrest.A, hrest.B, hpair.C]
      exact (min_count hA hB hC h).symm
    · obtain ⟨hA, hB, hC, h⟩ := hways .B
      rw [filled_B hrest.shiftA, hrest.A, hrest.B, hpair.C]
      exact (min_count hA hB hC h).symm
    · obtain ⟨hA, hB, hC, h⟩ := hways .C
      rw [filled_C, hrest.A, hrest.B, hpair.C]
      exact (min_count hA hB hC h).symm
    · rw [hrest.A, hrest.B]
      omega
    · rw [hrest.A, hrest.B]
      omega

/-- A character that the program does not know leaves no way. -/
lemma row_of_not_supported (h : ∃ ch ∈ msg, ¬ Supported ch) (enc : Enc) : row msg enc = INF := by
  induction msg using message_induction generalizing enc with
  | nil => exact absurd h nofun
  | cons ch rest ih =>
    have hrow : row (ch :: rest) = filled (row rest) (row (rest.drop 1)) (InA ch) (InB ch)
        ((ch.isDigit && rest.head?.any Char.isDigit) = true) := row_cons ch rest
    by_cases hch : Supported ch
    · have hrest : ∃ c ∈ rest, ¬ Supported c := by
        obtain ⟨c, hc, hnot⟩ := h
        rcases List.mem_cons.1 hc with rfl | hc
        · exact absurd hch hnot
        · exact ⟨c, hc, hnot⟩
      have hnext := fun enc => ih rest (le_refl _) hrest enc
      have hpair : (ch.isDigit && rest.head?.any Char.isDigit) = true → ∀ enc, row (rest.drop 1) enc = INF := by
        intro hpair
        refine fun enc => ih _ (by rw [List.length_drop]; omega) ?_ enc
        rw [Bool.and_eq_true] at hpair
        cases rest with
        | nil => exact absurd hpair.2 Bool.false_ne_true
        | cons d rest =>
          obtain ⟨c, hc, hnot⟩ := hrest
          rcases List.mem_cons.1 hc with rfl | hc
          · exact absurd (Or.inl (both_of_digit hpair.2).1) hnot
          · exact ⟨c, hc, hnot⟩
      rw [hrow, filled]
      by_cases hpos : (ch.isDigit && rest.head?.any Char.isDigit) = true
      · have h2 := hpair hpos
        split_ifs <;> cases enc <;> simp only [Row.inA, Row.inB, Row.digits, id, hnext, h2] <;> omega
      · rw [if_neg hpos]
        split_ifs <;> cases enc <;> simp only [Row.inA, Row.inB, id, hnext] <;> omega
    · have hboth : ¬ (ch.isDigit && rest.head?.any Char.isDigit) = true := fun hpair =>
        hch (Or.inl (both_of_digit (Bool.and_eq_true _ _ ▸ hpair).1).1)
      rw [hrow, filled, if_neg hboth, if_neg fun hB => hch (Or.inr hB), if_neg fun hA => hch (Or.inl hA)]
      rfl

/-! ## The choice -/

def toEnc : CodeSet → Enc
  | .A => .A
  | .B => .B
  | .C => .C

lemma best_eq (msg : List Char) : best msg = if Stays .A msg then .A else if Stays .B msg then .B else .C := by
  by_cases hp : Paired msg
  · rw [best_of_paired hp, if_neg fun h => h.1 hp, if_neg fun h => h.1 hp]
  · rw [best_of_not_paired hp]
    cases hlean : leaning msg with
    | none => exact (if_pos ⟨hp, by rw [hlean]; nofun⟩).symm
    | some set =>
      cases set with
      | A => exact (if_pos ⟨hp, by rw [hlean]; nofun⟩).symm
      | B =>
        rw [if_neg fun h => h.2 hlean]
        exact (if_pos ⟨hp, by rw [hlean]; nofun⟩).symm
      | C => exact absurd hlean (leaning_ne_C msg)

variable {row : Row}

/-- The first of the best states, where the shifts are not better. -/
lemma minElement_eq (hB : row .B ≤ row .shiftB) (hA : row .A ≤ row .shiftA) : minElement row =
    if row .A ≤ row .B ∧ row .A ≤ row .C then .A else if row .B ≤ row .C then .B else .C := by
  simp only [minElement, List.foldl_cons, List.foldl_nil]
  split_ifs <;> first | rfl | (exfalso; omega)

/-- What a row has for a set. -/
lemma counted_eq (h : Counted msg row) (hlt : count (best msg) msg < INF) (hne : msg ≠ []) (e : CodeSet) :
    row (toEnc e) = count (best msg) msg + if Stays e msg then 0 else 1 := by
  have hrow : row (toEnc e) = min INF (count e msg) := by
    cases e with
    | A => exact h.A
    | B => exact h.B
    | C => exact h.C
  rw [hrow]
  by_cases hs : Stays e msg
  · rw [if_pos hs, count_of_stays hs]
    omega
  · rw [if_neg hs, count_not hs hne]
    omega

lemma minElement_of_counted (h : Counted msg row) (hlt : count (best msg) msg < INF) (hne : msg ≠ []) :
    minElement row = toEnc (best msg) := by
  have hA : row .A = _ := counted_eq h hlt hne .A
  have hB : row .B = _ := counted_eq h hlt hne .B
  have hC : row .C = _ := counted_eq h hlt hne .C
  rw [minElement_eq h.shiftB h.shiftA]
  have hbest := best_eq msg
  by_cases hsA : Stays .A msg
  · rw [if_pos hsA] at hbest hA
    rw [if_pos (by omega), hbest]
    rfl
  · rw [if_neg hsA] at hbest hA
    by_cases hsB : Stays .B msg
    · rw [if_pos hsB] at hbest hB
      rw [if_neg (by omega), if_pos (by omega), hbest]
      rfl
    · rw [if_neg hsB] at hbest hB
      have hsC : Stays .C msg := hbest ▸ stays_best msg
      rw [if_pos hsC] at hC
      rw [if_neg (by omega), if_neg (by omega), hbest]
      rfl

lemma minElement_value (h : Counted msg row) (hlt : count (best msg) msg < INF) (hne : msg ≠ []) :
    row (minElement row) = count (best msg) msg := by
  rw [minElement_of_counted h hlt hne, counted_eq h hlt hne, if_pos (stays_best msg)]
  exact Nat.add_zero _

/-- Where the numbers of symbols do not fit, the program gives up. -/
lemma minElement_of_le (h : Counted msg row) (hle : INF ≤ count (best msg) msg) : row (minElement row) = INF := by
  have hA := (count_best_le .A msg).1
  have hB := (count_best_le .B msg).1
  have hC := (count_best_le .C msg).1
  have := h.A
  have := h.B
  have := h.C
  rw [minElement_eq h.shiftB h.shiftA]
  split_ifs <;> omega

lemma choosePos_eq {s : Emission} (h : Counted msg row) (hlt : count (best msg) msg < INF) (hne : msg ≠ [])
    (hidx : 0 < s.idx) (henc : s.enc = toEnc e) : choosePos s row = toEnc (choose e msg) := by
  rw [choosePos, minElement_value h hlt hne, minElement_of_counted h hlt hne, henc, counted_eq h hlt hne]
  by_cases hs : Stays e msg
  · rw [if_pos hs, choose_of_stays hs]
    exact if_pos ⟨hidx, rfl⟩
  · rw [if_neg hs, choose_of_not hs]
    refine if_neg fun hand => ?_
    have := hand.2
    omega

lemma choosePos_first {s : Emission} (h : Counted msg row) (hlt : count (best msg) msg < INF) (hne : msg ≠ [])
    (hidx : s.idx = 0) : choosePos s row = toEnc (best msg) := by
  rw [choosePos, minElement_of_counted h hlt hne]
  refine if_neg fun hand => ?_
  have := hand.1
  omega

/-! ## The loop -/

lemma tokenOrd_eq (hch : Supported ch) (h : Stays p (ch :: rest)) : tokenOrd (toEnc p) ch rest = ord p ch rest := by
  cases p with
  | A =>
    have hin : InA ch := in_of_stays (e := .A) hch (fun heq => by cases heq) h
    change ordinal Code128AChars [ch] = ordA ch
    rw [ordinal, find?_A, if_pos hin]
    rfl
  | B =>
    have hin : InB ch := in_of_stays (e := .B) hch (fun heq => by cases heq) h
    change ordinal Code128BChars [ch] = ordB ch
    rw [ordinal, find?_B, if_pos hin]
    rfl
  | C =>
    obtain ⟨d, rest', rfl, hc, hd⟩ := digits_of_stays h
    exact ordinal_C hc hd

lemma changeOrShiftOrd_eq {idx : Nat} (hidx : 0 < idx) (hne : e ≠ p) :
    change 0 e p = [changeOrShiftOrd idx (toEnc e) (toEnc p)] := by
  have hzero : idx ≠ 0 := Nat.pos_iff_ne_zero.1 hidx
  have hlabels : ordinal Code128AChars "Code B".toList = 100 ∧ ordinal Code128AChars "Code C".toList = 99 ∧
      ordinal Code128BChars "Code A".toList = 101 ∧ ordinal Code128BChars "Code C".toList = 99 ∧
      ordinal Code128CChars "Code A".toList = 101 ∧ ordinal Code128BChars "Code B".toList = 0 := by decide +kernel
  obtain ⟨h1, h2, h3, h4, h5, h6⟩ := hlabels
  rw [changeOrShiftOrd, if_neg hzero]
  cases e <;> cases p <;>
    simp only [toEnc, change, reduceCtorEq, or_self, if_true, if_false, h1, h2, h3, h4, h5, h6, ne_eq,
      not_true_eq_false] at hne ⊢

lemma changeOrShiftOrd_first (enc : Enc) (p : CodeSet) : changeOrShiftOrd 0 enc (toEnc p) = p.start := by
  cases p <;> rfl

lemma ord_lt (hch : Supported ch) (h : Stays p (ch :: rest)) : ord p ch rest < 103 := by
  cases p with
  | A =>
    have hin : InA ch := in_of_stays (e := .A) hch (fun heq => by cases heq) h
    unfold InA at hin
    rw [ord, ordA]
    split_ifs <;> omega
  | B =>
    have hin : InB ch := in_of_stays (e := .B) hch (fun heq => by cases heq) h
    unfold InB at hin
    rw [ord, ordB]
    omega
  | C =>
    obtain ⟨d, rest', rfl, hc, hd⟩ := digits_of_stays h
    rw [isDigit_iff] at hc hd
    change ordC ch d < 103
    rw [ordC]
    omega

lemma change_lt (hslip : slip < 103) (e p : CodeSet) : ∀ v ∈ change slip e p, v < 103 := by
  cases e <;> cases p <;> simp [change, hslip]

lemma weighted_append (n : Nat) (l₁ l₂ : List Nat) :
    weighted n (l₁ ++ l₂) = weighted n l₁ + weighted (n + l₁.length) l₂ := by
  induction l₁ generalizing n with
  | nil => exact (Nat.zero_add _).symm
  | cons v l₁ ih =>
    rw [List.cons_append, Code128.weighted_cons, Code128.weighted_cons, ih, List.length_cons, Nat.add_assoc (n * v),
      Nat.add_assoc n, Nat.add_comm 1]

/-- The loop is in a set, and has written symbols with a sum; the next is the one with the number `n`. -/
structure Written (s : Emission) (e : CodeSet) (result : List Bool) (sum n : Nat) : Prop where
  enc : s.enc = toEnc e
  result : s.result = result
  checkSum : s.checkSum = UInt64.ofNat sum
  checkPos : s.checkPos = UInt64.ofNat n

variable {s : Emission} {result : List Bool} {sum n : Nat}

lemma written_change (h : Written s e result sum n) (hidx : 0 < s.idx) (p : CodeSet) :
    Written { s.change (toEnc p) with enc := toEnc p } p (result ++ (change 0 e p).flatMap bars)
      (sum + weighted n (change 0 e p)) (n + (change 0 e p).length) := by
  by_cases hne : e = p
  · subst hne
    have hsame : s.change (toEnc e) = s := if_neg (not_not.2 h.enc)
    rw [hsame, change_self]
    refine ⟨rfl, ?_, h.checkSum, h.checkPos⟩
    rw [List.flatMap_nil, List.append_nil]
    exact h.result
  · have henc : s.enc ≠ toEnc p := by
      rw [h.enc]
      cases e <;> cases p <;> first | exact absurd rfl hne | nofun
    have hlist := changeOrShiftOrd_eq hidx hne
    have hlt := change_lt (show 0 < 103 by decide) e p _ (hlist ▸ List.mem_singleton_self _)
    have hzero : s.idx ≠ 0 := Nat.pos_iff_ne_zero.1 hidx
    rw [Emission.change, if_pos henc, hlist, ← h.enc]
    rw [← h.enc] at hlt
    refine ⟨rfl, ?_, ?_, ?_⟩
    · dsimp only
      rw [insertBits_pattern (by omega), h.result, List.flatMap_singleton]
    · dsimp only
      rw [if_neg hzero, h.checkSum, h.checkPos, ← UInt64.ofNat_mul, ← UInt64.ofNat_add]
      rfl
    · dsimp only
      rw [if_neg hzero, h.checkPos]
      exact (UInt64.ofNat_add n 1).symm

lemma written_token (h : Written { s with enc := toEnc p } p result sum n) (hch : Supported ch)
    (hs : Stays p (ch :: rest)) :
    Written (s.token (toEnc p) ch rest) p (result ++ bars (ord p ch rest)) (sum + n * ord p ch rest) (n + 1) := by
  have hlt := ord_lt hch hs
  rw [Emission.token, tokenOrd_eq hch hs]
  refine ⟨?_, ?_, ?_, ?_⟩
  · cases p <;> rfl
  · dsimp only
    rw [insertBits_pattern (by omega), show s.result = result from h.result]
  · dsimp only
    rw [show s.checkSum = UInt64.ofNat sum from h.checkSum, show s.checkPos = UInt64.ofNat n from h.checkPos,
      ← UInt64.ofNat_mul, ← UInt64.ofNat_add]
  · dsimp only
    rw [show s.checkPos = UInt64.ofNat n from h.checkPos]
    exact (UInt64.ofNat_add n 1).symm

lemma idx_token (s : Emission) (pos : Enc) (ch : Char) (rest : List Char) : 0 < (s.token pos ch rest).idx := by
  rw [Emission.token]
  dsimp only
  split_ifs <;> omega

lemma toEnc_ne_C (h : p ≠ .C) : toEnc p ≠ .C := by
  cases p with
  | A => nofun
  | B => nofun
  | C => exact absurd rfl h

lemma emit_cons (ch : Char) (rest : List Char) (s : Emission) : emit (ch :: rest) (dp (ch :: rest)) s =
    if Barcode.row (ch :: rest) (minElement (Barcode.row (ch :: rest))) = INF then none
    else if choosePos s (Barcode.row (ch :: rest)) = .C then
      emit (rest.drop 1) ((dp rest).drop 1) ((s.change .C).token .C ch rest)
    else emit rest (dp rest) ((s.change (choosePos s (Barcode.row (ch :: rest)))).token
      (choosePos s (Barcode.row (ch :: rest))) ch rest) := by
  have hemit : emit (ch :: rest) (dp (ch :: rest)) s =
      if Barcode.row (ch :: rest) (minElement (Barcode.row (ch :: rest))) = INF then none
      else if choosePos s (Barcode.row (ch :: rest)) = .C then
        emit (rest.drop 1) ((dp rest).drop 1) ((s.change (choosePos s (Barcode.row (ch :: rest)))).token
          (choosePos s (Barcode.row (ch :: rest))) ch rest)
      else emit rest (dp rest) ((s.change (choosePos s (Barcode.row (ch :: rest)))).token
        (choosePos s (Barcode.row (ch :: rest))) ch rest) := by
    cases rest <;> rfl
  rw [hemit]
  by_cases hC : choosePos s (Barcode.row (ch :: rest)) = .C
  · rw [if_pos hC, if_pos hC, hC]
  · rw [if_neg hC, if_neg hC]

/-- After its first symbol the loop writes what is written from the set on. -/
lemma emit_written (hmsg : ∀ ch ∈ msg, Supported ch) (hlt : count (best msg) msg < INF)
    (h : Written s e result sum n) (hidx : 0 < s.idx) : ∃ s', emit msg (dp msg) s = some s' ∧
      s'.result = result ++ (written 0 e msg).flatMap bars ∧
      s'.checkSum = UInt64.ofNat (sum + weighted n (written 0 e msg)) := by
  induction msg using message_induction generalizing s e result sum n with
  | nil => exact ⟨s, rfl, by rw [h.result]; exact (List.append_nil _).symm, h.checkSum⟩
  | cons ch rest ih =>
    have hcons : ch :: rest ≠ [] := List.cons_ne_nil _ _
    have hcounted := counted hmsg
    have hval := minElement_value hcounted hlt hcons
    have hpos := choosePos_eq hcounted hlt hcons hidx h.enc
    have hstays := stays_choose e (ch :: rest)
    have hcount := count_of_stays hstays
    rw [emit_cons, if_neg (by omega), hpos, written_cons]
    rw [List.forall_mem_cons] at hmsg
    set p := choose e (ch :: rest) with hp
    have hstep := written_token (written_change h hidx p) hmsg.1 hstays
    rw [List.flatMap_append, List.flatMap_cons, weighted_append, Code128.weighted_cons]
    by_cases hC : p = .C
    · rw [hC] at hstep hstays hcount ⊢
      obtain ⟨d, rest', rfl, hc, hd⟩ := digits_of_stays hstays
      rw [count_pair hstays] at hcount
      have hle := (count_best_le .C rest').1
      obtain ⟨s', hs', hresult, hsum⟩ := ih rest' (by rw [List.length_cons]; omega)
        (fun c hc => hmsg.2 c (List.mem_cons_of_mem d hc)) (by omega) hstep (idx_token _ _ _ _)
      refine ⟨s', hs', ?_, ?_⟩
      · rw [hresult, List.append_assoc, List.append_assoc]
        rfl
      · rw [hsum, Nat.add_assoc, Nat.add_assoc]
        rfl
    · rw [count_stays hC hstays] at hcount
      have hle := (count_best_le p rest).1
      rw [if_neg (toEnc_ne_C hC), if_neg hC]
      obtain ⟨s', hs', hresult, hsum⟩ := ih rest (le_refl _) hmsg.2 (by omega) hstep (idx_token _ _ _ _)
      refine ⟨s', hs', ?_, ?_⟩
      · rw [hresult, List.append_assoc, List.append_assoc]
      · rw [hsum, Nat.add_assoc, Nat.add_assoc]

/-- The first symbol is the start symbol. -/
lemma written_first (p : CodeSet) :
    Written { ({} : Emission).change (toEnc p) with enc := toEnc p } p (bars p.start) p.start 1 := by
  have hne : (Enc.shiftB : Enc) ≠ toEnc p := by
    cases p <;> nofun
  have hlt := Code128.start_lt p
  rw [Emission.change, if_pos hne, changeOrShiftOrd_first]
  refine ⟨rfl, ?_, ?_, rfl⟩
  · dsimp only
    rw [insertBits_pattern hlt]
    rfl
  · dsimp only
    rw [if_pos rfl, UInt64.zero_add]

/-- The bars of a message: those of the set that it begins with, what is written from there on, the check symbol as far
as its sum fits, and the stop symbol. -/
theorem encode_eq (hmsg : ∀ ch ∈ msg, Supported ch) (hlt : count (best msg) msg < INF) (hne : msg ≠ []) :
    encode msg = some (((best msg).start :: (written 0 (best msg) msg ++
      [checksum (best msg) (written 0 (best msg) msg) % 2 ^ 64 % 103, Code128.stop])).flatMap bars) := by
  cases msg with
  | nil => exact absurd rfl hne
  | cons ch rest =>
    have hcounted := counted hmsg
    have hval := minElement_value hcounted hlt hne
    have hstays := stays_best (ch :: rest)
    have hcount := count_of_stays hstays
    have hpos := choosePos_first (s := {}) hcounted hlt hne rfl
    rw [List.forall_mem_cons] at hmsg
    have hfirst : ∃ s', emit (ch :: rest) (dp (ch :: rest)) {} = some s' ∧
        s'.result = bars (best (ch :: rest)).start ++ (written 0 (best (ch :: rest)) (ch :: rest)).flatMap bars ∧
        s'.checkSum = UInt64.ofNat (checksum (best (ch :: rest)) (written 0 (best (ch :: rest)) (ch :: rest))) := by
      rw [emit_cons, if_neg (by omega), hpos, checksum]
      have hstep := written_token (written_first (best (ch :: rest))) hmsg.1 hstays
      by_cases hC : best (ch :: rest) = .C
      · rw [hC] at hstep hstays hcount hlt ⊢
        obtain ⟨d, rest', rfl, hc, hd⟩ := digits_of_stays hstays
        rw [count_pair hstays] at hcount hlt
        have hle := (count_best_le .C rest').1
        obtain ⟨s', hs', hresult, hsum⟩ := emit_written (fun c hc => hmsg.2 c (List.mem_cons_of_mem d hc)) (by omega)
          hstep (idx_token _ _ _ _)
        rw [written_pair 0 hstays, List.flatMap_cons, Code128.weighted_cons]
        refine ⟨s', hs', ?_, ?_⟩
        · rw [hresult, List.append_assoc]
          rfl
        · rw [hsum, Nat.add_assoc]
          rfl
      · rw [count_stays hC hstays] at hcount hlt
        have hle := (count_best_le (best (ch :: rest)) rest).1
        obtain ⟨s', hs', hresult, hsum⟩ := emit_written hmsg.2 (by omega) hstep (idx_token _ _ _ _)
        rw [if_neg (toEnc_ne_C hC), written_stays 0 hC hstays, List.flatMap_cons, Code128.weighted_cons]
        refine ⟨s', hs', ?_, ?_⟩
        · rw [hresult, List.append_assoc]
        · rw [hsum, Nat.add_assoc]
    obtain ⟨s', hs', hresult, hsum⟩ := hfirst
    have hsym : (s'.checkSum % 103).toNat =
        checksum (best (ch :: rest)) (written 0 (best (ch :: rest)) (ch :: rest)) % 2 ^ 64 % 103 := by
      rw [hsum, UInt64.toNat_mod, UInt64.toNat_ofNat']
      rfl
    have hencode : encode (ch :: rest) = some (insertBits (pattern STOP)
        (insertBits (pattern (s'.checkSum % 103).toNat) s'.result)) := by
      rw [encode, hs']
      rfl
    rw [hencode, hsym, insertBits_pattern (by decide), insertBits_pattern (by omega), hresult, List.flatMap_cons,
      List.flatMap_append, List.append_assoc, List.append_assoc]
    rfl

/-- Where the program does not know a character, or the numbers of symbols do not fit, it gives up. -/
theorem encode_eq_none (h : (∃ ch ∈ msg, ¬ Supported ch) ∨ INF ≤ count (best msg) msg ∧ ∀ ch ∈ msg, Supported ch) :
    encode msg = none := by
  cases msg with
  | nil =>
    rcases h with ⟨ch, hch, -⟩ | ⟨hle, -⟩
    · exact absurd hch List.not_mem_nil
    · exact absurd hle (by decide)
  | cons ch rest =>
    have hrow : Barcode.row (ch :: rest) (minElement (Barcode.row (ch :: rest))) = INF := by
      rcases h with h | ⟨hle, hmsg⟩
      · exact row_of_not_supported h _
      · exact minElement_of_le (counted hmsg) hle
    rw [encode, emit_cons, if_pos hrow]
    rfl

/-! ## What a scanner reads -/

lemma meaning_ord (hch : Supported ch) (hp : p ≠ .C) (h : Stays p (ch :: rest)) :
    meaning p (ord p ch rest) = .text [ch] := by
  cases p with
  | A =>
    have hin : InA ch := in_of_stays (e := .A) hch nofun h
    have hall : ∀ i : Fin 96, meaning .A (ordA (Char.ofNat i)) = .text [Char.ofNat i] := by decide +kernel
    obtain ⟨i, rfl⟩ := ofNat_toNat_lt hin.2
    exact hall i
  | B =>
    have hin : InB ch := in_of_stays (e := .B) hch nofun h
    have hall : ∀ i : Fin 128, 32 ≤ (Char.ofNat i).toNat → meaning .B (ordB (Char.ofNat i)) = .text [Char.ofNat i] := by
      decide +kernel
    obtain ⟨i, rfl⟩ := ofNat_toNat_lt hin.2
    exact hall i hin.1
  | C => exact absurd rfl hp

lemma meaning_ordC {c d : Char} (hc : c.isDigit = true) (hd : d.isDigit = true) :
    meaning .C (ordC c d) = .text [c, d] := by
  have hall : ∀ i j : Fin 58, (Char.ofNat i).isDigit = true → (Char.ofNat j).isDigit = true →
      meaning .C (ordC (Char.ofNat i) (Char.ofNat j)) = .text [Char.ofNat i, Char.ofNat j] := by decide +kernel
  obtain ⟨i, rfl⟩ := ofNat_toNat_lt ((isDigit_iff c).1 hc).2
  obtain ⟨j, rfl⟩ := ofNat_toNat_lt ((isDigit_iff d).1 hd).2
  exact hall i j hc hd

lemma decode_change (vs : List Nat) (h : ¬ (e = .C ∧ p = .B)) : decode e (change slip e p ++ vs) = decode p vs := by
  cases e <;> cases p <;> first | rfl | exact absurd ⟨rfl, rfl⟩ h

/-- After four digits or more, the next character in one of the sets A and B only is of the set B, as far as there are
not four digits before it. -/
def Slips (msg : List Char) : Prop :=
  ∃ ahead, ahead <:+ msg ∧ 4 ≤ leadingDigits ahead ∧ leaning (afterDigits ahead) = some .B

lemma slips_cons (ch : Char) (rest : List Char) : Slips (ch :: rest) ↔
    (4 ≤ leadingDigits (ch :: rest) ∧ leaning (afterDigits (ch :: rest)) = some .B) ∨ Slips rest := by
  constructor
  · rintro ⟨ahead, hsuffix, h⟩
    rcases List.suffix_cons_iff.1 hsuffix with rfl | hsuffix
    · exact Or.inl h
    · exact Or.inr ⟨ahead, hsuffix, h⟩
  · rintro (h | ⟨ahead, hsuffix, h⟩)
    · exact ⟨_, List.suffix_refl _, h⟩
    · exact ⟨ahead, List.suffix_cons_iff.2 (Or.inr hsuffix), h⟩

lemma not_slips_nil : ¬ Slips [] := by
  rintro ⟨ahead, hsuffix, h, -⟩
  rw [List.suffix_nil.1 hsuffix] at h
  exact absurd h (by decide)

/-- From the set C on the digits ahead are enough. -/
def SlipsFrom (e : CodeSet) (msg : List Char) : Prop :=
  (e = .C ∧ leaning (afterDigits msg) = some .B) ∨ Slips msg

lemma slipsFrom_pair {c d : Char} (hc : c.isDigit = true) (hd : d.isDigit = true)
    (h : choose e (c :: d :: rest) = .C) : SlipsFrom e (c :: d :: rest) ↔ SlipsFrom .C rest := by
  have hkc := leadingDigits_of_digit (d :: rest) hc
  have hkd := leadingDigits_of_digit rest hd
  rw [SlipsFrom, SlipsFrom, slips_cons, slips_cons, afterDigits_of_digit _ hc, afterDigits_of_digit _ hd]
  have hpaired : e ≠ .C → leaning (afterDigits rest) = some .B → 4 ≤ leadingDigits (c :: d :: rest) := by
    intro he hlean
    have hp : Paired (c :: d :: rest) := by
      by_contra hp
      by_cases hs : Stays e (c :: d :: rest)
      · rw [choose_of_stays hs] at h
        exact he h
      · rw [choose_of_not hs] at h
        exact (best_ne_C hp).1 h
    refine (paired_of_not_end fun hend => ?_).1 hp
    rw [afterDigits_of_digit _ hc, afterDigits_of_digit _ hd] at hend
    rw [hend] at hlean
    exact absurd hlean nofun
  by_cases he : e = .C <;> tauto

lemma slipsFrom_one (h : choose e (ch :: rest) = p) (hp : p ≠ .C) :
    SlipsFrom e (ch :: rest) ↔ (e = .C ∧ p = .B) ∨ SlipsFrom p rest := by
  rw [SlipsFrom, SlipsFrom, slips_cons]
  have hnotC : ¬ (p = .C ∧ leaning (afterDigits rest) = some .B) := fun hand => hp hand.1
  have hnotPaired : ¬ Paired (ch :: rest) := by
    intro hpaired
    have hstays := stays_choose e (ch :: rest)
    rw [h] at hstays
    exact ((stays_iff hp).1 hstays).1 hpaired
  have hfour : ¬ (4 ≤ leadingDigits (ch :: rest) ∧ leaning (afterDigits (ch :: rest)) = some .B) := by
    rintro ⟨hfour, hlean⟩
    refine hnotPaired ((paired_of_not_end fun hend => ?_).2 hfour)
    rw [hend] at hlean
    exact absurd hlean nofun
  have hbest : e = .C → (leaning (afterDigits (ch :: rest)) = some .B ↔ p = .B) := by
    rintro rfl
    have hnot : ¬ Stays .C (ch :: rest) := by
      intro hs
      rw [choose_of_stays hs] at h
      exact hp h.symm
    have hlt : ¬ 2 ≤ leadingDigits (ch :: rest) := hnot
    rw [← leaning_afterDigits (by omega), ← h, choose_of_not hnot, best_of_not_paired hnotPaired]
    cases leaning (ch :: rest) with
    | none => exact iff_of_false nofun nofun
    | some set => exact ⟨fun heq => Option.some.inj heq, fun heq => congrArg some heq⟩
  tauto

/-- What the program writes is read as the message where it does not go from the set C to the set B. -/
theorem decode_written (hmsg : ∀ ch ∈ msg, Supported ch) (e : CodeSet) :
    decode e (written 0 e msg) = some msg ↔ ¬ SlipsFrom e msg := by
  induction msg using message_induction generalizing e with
  | nil => exact iff_of_true rfl fun h => h.elim (fun h => absurd h.2 nofun) not_slips_nil
  | cons ch rest ih =>
    have hstays := stays_choose e (ch :: rest)
    rw [written_cons]
    rw [List.forall_mem_cons] at hmsg
    by_cases hC : choose e (ch :: rest) = .C
    · have hslip : ¬ (e = .C ∧ choose e (ch :: rest) = .B) := by
        rw [hC]
        exact fun h => nomatch h.2
      rw [decode_change _ hslip, if_pos hC]
      rw [hC] at hstays ⊢
      obtain ⟨d, rest', rfl, hc, hd⟩ := digits_of_stays hstays
      have htext : decode .C (ordC ch d :: written 0 .C rest') = some ([ch, d] ++ rest') ↔
          decode .C (written 0 .C rest') = some rest' := Code128.decode_text_eq_some (meaning_ordC hc hd)
      rw [slipsFrom_pair hc hd hC, ← ih rest' (by rw [List.length_cons]; omega)
        fun c hc => hmsg.2 c (List.mem_cons_of_mem d hc), ← htext]
      rfl
    · rw [slipsFrom_one rfl hC, if_neg hC]
      by_cases hslip : e = .C ∧ choose e (ch :: rest) = .B
      · refine iff_of_false (fun hdecode => ?_) (not_not.2 (Or.inl hslip))
        have hnot : ¬ Stays .C (ch :: rest) := by
          intro hs
          rw [hslip.1, choose_of_stays hs] at hC
          exact hC rfl
        rw [hslip.2, hslip.1] at hdecode
        -- the symbol is a pair of zeros for the scanner
        have hzeros : meaning .C 0 = .text ['0', '0'] := by decide
        change decode .C (0 :: _) = _ at hdecode
        rw [Code128.decode_text hzeros, Option.map_eq_some_iff] at hdecode
        obtain ⟨text, -, heq⟩ := hdecode
        refine hnot ?_
        change 2 ≤ leadingDigits (ch :: rest)
        rw [← heq]
        exact Nat.le_add_left 2 (leadingDigits text)
      · have htext : decode (choose e (ch :: rest)) (ord (choose e (ch :: rest)) ch rest ::
            written 0 (choose e (ch :: rest)) rest) = some ([ch] ++ rest) ↔
            decode (choose e (ch :: rest)) (written 0 (choose e (ch :: rest)) rest) = some rest :=
          Code128.decode_text_eq_some (meaning_ord hmsg.1 hC hstays)
        rw [decode_change _ hslip, or_iff_right hslip, ← ih rest (le_refl _) hmsg.2, ← htext]
        rfl

/-- Where the set B does not come after the set C, it does not matter what is written for it. -/
lemma written_eq_of_not_slips (hmsg : ∀ ch ∈ msg, Supported ch) (h : ¬ SlipsFrom e msg) (slip : Nat) :
    written slip e msg = written 0 e msg := by
  induction msg using message_induction generalizing e with
  | nil => rfl
  | cons ch rest ih =>
    have hstays := stays_choose e (ch :: rest)
    rw [List.forall_mem_cons] at hmsg
    have hchange : ¬ (e = .C ∧ choose e (ch :: rest) = .B) →
        change slip e (choose e (ch :: rest)) = change 0 e (choose e (ch :: rest)) := by
      intro hslip
      cases e <;> cases hp : choose _ (ch :: rest) <;> first | rfl | exact absurd ⟨rfl, hp⟩ hslip
    rw [written_cons, written_cons]
    by_cases hC : choose e (ch :: rest) = .C
    · have hslip : ¬ (e = .C ∧ choose e (ch :: rest) = .B) := by
        rw [hC]
        exact fun h => nomatch h.2
      rw [hchange hslip, if_pos hC, if_pos hC]
      rw [hC] at hstays
      obtain ⟨d, rest', rfl, hc, hd⟩ := digits_of_stays hstays
      rw [slipsFrom_pair hc hd hC] at h
      have hrest := ih rest' (by rw [List.length_cons]; omega) (fun c hc => hmsg.2 c (List.mem_cons_of_mem d hc)) h
      rw [List.drop_one, List.tail_cons, hrest]
    · rw [slipsFrom_one rfl hC, not_or] at h
      rw [hchange h.1, if_neg hC, if_neg hC, ih rest (le_refl _) hmsg.2 h.2]

lemma written_lt (hslip : slip < 103) (hmsg : ∀ ch ∈ msg, Supported ch) (e : CodeSet) :
    ∀ v ∈ written slip e msg, v < 103 := by
  induction msg using message_induction generalizing e with
  | nil => nofun
  | cons ch rest ih =>
    have hstays := stays_choose e (ch :: rest)
    rw [List.forall_mem_cons] at hmsg
    rw [written_cons, List.forall_mem_append, List.forall_mem_cons]
    refine ⟨change_lt hslip _ _, ord_lt hmsg.1 hstays, ?_⟩
    by_cases hC : choose e (ch :: rest) = .C
    · rw [if_pos hC]
      exact ih (rest.drop 1) (by rw [List.length_drop]; omega) (fun c hc => hmsg.2 c (List.mem_of_mem_drop hc)) .C
    · rw [if_neg hC]
      exact ih rest (le_refl _) hmsg.2 _

lemma slipsFrom_best (msg : List Char) : SlipsFrom (best msg) msg ↔ Slips msg := by
  refine or_iff_right_of_imp fun h => ⟨msg, List.suffix_refl msg, ?_, h.2⟩
  have hpaired : Paired msg := by
    by_contra hp
    exact (best_ne_C hp).1 h.1
  refine (paired_of_not_end fun hend => ?_).1 hpaired
  rw [hend] at h
  exact absurd h.2 nofun

/-- The symbols of a message, as they are written without a slip, are fewer than the maximum of the table, and their
sum fits 64 bits. -/
def Fits (msg : List Char) : Prop :=
  count (best msg) msg < INF ∧ checksum (best msg) (written 100 (best msg) msg) < 2 ^ 64

/-- The remainder is right where the sum fits. -/
lemma mod_check {sum size : Nat} (hsize : Nat.Coprime 103 size) (h : sum < 103 * size) :
    sum % size % 103 = sum % 103 ↔ sum < size := by
  constructor
  · intro hmod
    have hdvd : 103 ∣ sum - sum % size := (Nat.modEq_iff_dvd' (Nat.mod_le _ _)).1 hmod
    have hsub : sum - sum % size = size * (sum / size) := by
      have := Nat.div_add_mod sum size
      omega
    rw [hsub] at hdvd
    have hdiv : 103 ∣ sum / size := hsize.dvd_of_dvd_mul_left hdvd
    have hlt : sum / size < 103 := by
      rw [Nat.mul_comm] at h
      exact Nat.div_lt_of_lt_mul h
    have hpos : 0 < size := Nat.pos_of_ne_zero fun h0 => absurd hsize (by rw [h0]; decide)
    exact Nat.lt_of_div_eq_zero hpos (Nat.eq_zero_of_dvd_of_lt hdiv hlt)
  · intro hlt
    rw [Nat.mod_eq_of_lt hlt]

lemma checksum_lt (hmsg : ∀ ch ∈ msg, Supported ch) (hlt : count e msg < INF) :
    checksum p (written 0 e msg) < 103 * 2 ^ 64 := by
  have hle : ∀ v ∈ written 0 e msg, v ≤ 102 := fun v hv => Nat.lt_succ_iff.1 (written_lt (by decide) hmsg e v hv)
  have hweighted := Code128.weighted_le (n := 1) hle
  rw [length_written] at hweighted
  have hstart := Code128.start_lt p
  have hcount : count e msg ≤ 2 ^ 31 := by
    unfold INF at hlt
    omega
  have hbound : 102 * count e msg * (1 + count e msg) ≤ 102 * 2 ^ 31 * (1 + 2 ^ 31) := by gcongr
  rw [checksum]
  omega

/-- The message is read from the bars if and only if it is not empty, has no null character, is nowhere written in the
set B after the set C, and is not too long. -/
theorem encode_reads_iff (msg : List Char) (h : ∀ ch ∈ msg, CodeSet.A.Has ch ∨ CodeSet.B.Has ch) :
    (∃ bits, encode msg = some bits ∧ Code128.Reads bits msg) ↔
      msg ≠ [] ∧ '\x00' ∉ msg ∧ ¬ Slips msg ∧ Fits msg := by
  by_cases hne : msg = []
  · subst hne
    refine iff_of_false ?_ fun hand => hand.1 rfl
    rintro ⟨bits, hbits, start, data, hdata, heq, -⟩
    have hempty : encode [] = some ([0, 106].flatMap bars) := by decide +kernel
    rw [hempty] at hbits
    have hsymbols := Code128.flatMap_bars_injective (show ∀ a ∈ [0, 106], a < 107 by decide) ?_
      ((Option.some.inj hbits).trans heq)
    · have hlength := congrArg List.length hsymbols
      simp only [List.length_cons, List.length_append, List.length_nil] at hlength
      omega
    · simp only [List.forall_mem_cons, List.forall_mem_append]
      exact ⟨Code128.start_lt start, fun v hv => (hdata v hv).trans (by decide), Code128.check_lt _ _, by decide, nofun⟩
  by_cases hnul : '\x00' ∈ msg
  · refine iff_of_false ?_ fun hand => hand.2.1 hnul
    rintro ⟨bits, hbits, -⟩
    rw [encode_eq_none (Or.inl ⟨_, hnul, by unfold Supported; decide⟩)] at hbits
    exact absurd hbits nofun
  have hmsg : ∀ ch ∈ msg, Supported ch := by
    intro ch hch
    have hlt : ch.toNat < 128 := (h ch hch).elim Code128.toNat_lt_of_has Code128.toNat_lt_of_has
    have hzero : ch.toNat ≠ 0 := by
      intro hzero
      have heq : ch = '\x00' := by rw [← Char.ofNat_toNat ch, hzero]
      exact hnul (heq ▸ hch)
    unfold Supported InA InB
    omega
  by_cases hlt : count (best msg) msg < INF
  · have hencode := encode_eq hmsg hlt hne
    have hslips := slipsFrom_best msg
    have hsym : checksum (best msg) (written 0 (best msg) msg) % 2 ^ 64 % 103 < 107 := by omega
    have hdata := written_lt (show 0 < 103 by decide) hmsg (best msg)
    have hread := Code128.reads_iff (best msg) msg hdata hsym
    rw [hencode]
    constructor
    · rintro ⟨bits, hbits, hreads⟩
      rw [← Option.some.inj hbits, hread, decode_written hmsg, hslips] at hreads
      refine ⟨hne, hnul, hreads.2, hlt, ?_⟩
      rw [written_eq_of_not_slips hmsg (mt hslips.1 hreads.2)]
      exact (mod_check (by decide) (checksum_lt hmsg hlt)).1 hreads.1
    · rintro ⟨-, -, hnot, -, hsum⟩
      rw [written_eq_of_not_slips hmsg (mt hslips.1 hnot)] at hsum
      refine ⟨_, rfl, hread.2 ⟨(mod_check (by decide) (checksum_lt hmsg hlt)).2 hsum, ?_⟩⟩
      rw [decode_written hmsg, hslips]
      exact hnot
  · refine iff_of_false ?_ fun hand => hlt hand.2.2.2.1
    rintro ⟨bits, hbits, -⟩
    rw [encode_eq_none (Or.inr ⟨Nat.not_lt.1 hlt, hmsg⟩)] at hbits
    exact absurd hbits nofun

theorem encode_reads_iff_letters : (∃ bits, encode ['A', 'b'] = some bits ∧ Code128.Reads bits ['A', 'b']) ↔
    ['A', 'b'] ≠ [] ∧ '\x00' ∉ ['A', 'b'] ∧ ¬ Slips ['A', 'b'] ∧ Fits ['A', 'b'] := by
  refine encode_reads_iff ['A', 'b'] ?_
  simp only [List.forall_mem_cons]
  exact ⟨Or.inl ⟨33, by decide, by decide⟩, Or.inr ⟨66, by decide, by decide⟩, nofun⟩

/-- Four digits and a lower case letter. -/
theorem encode_reads_failing : ¬ ∀ msg : List Char, (∀ ch ∈ msg, CodeSet.A.Has ch ∨ CodeSet.B.Has ch) →
    ∃ bits, encode msg = some bits ∧ Code128.Reads bits msg := by
  intro hall
  have hsets : ∀ ch ∈ ['1', '2', '3', '4', 'a'], CodeSet.A.Has ch ∨ CodeSet.B.Has ch := by
    simp only [List.forall_mem_cons]
    exact ⟨Or.inr ⟨17, by decide, by decide⟩, Or.inr ⟨18, by decide, by decide⟩, Or.inr ⟨19, by decide, by decide⟩,
      Or.inr ⟨20, by decide, by decide⟩, Or.inr ⟨65, by decide, by decide⟩, nofun⟩
  obtain ⟨bits, hbits, hreads⟩ := hall _ hsets
  have hencode : encode ['1', '2', '3', '4', 'a'] =
      some ((CodeSet.C.start :: ([12, 34, 0, 65] ++ [33, Code128.stop])).flatMap bars) := by decide +kernel
  rw [hencode] at hbits
  rw [← Option.some.inj hbits, Code128.reads_iff _ _ (by decide) (by decide)] at hreads
  exact absurd hreads.2 (by decide)

end CppExperiments.Barcode

import CppExperiments.Lib.Calls
import CppExperiments.Lib.Words

/-!
# Adjacent lines that match

The comparison of lines as it is configured, the queue of the lines of a run, and what is written for it.
-/

namespace CppExperiments

/-- What is undefined: a sum of ints that overflows, a range whose end is in front of its begin, a character outside of
a string, and the front of a queue that is empty. -/
inductive Uniq.Fault where
  | overflow
  | invalidRange
  | outOfString
  | emptyQueue
  deriving DecidableEq

structure Uniq where
  countFlag : Bool := false
  repeatFlag : Bool := false
  uniqueFlag : Bool := false
  ignoreCase : Bool := false
  allRepeated : Bool := false
  zeroTerminated : Bool := false
  compareCharsCnt : Int32 := -1
  skipCharsCnt : Int32 := 0
  skipFieldsCnt : Int32 := 0

namespace Uniq

/-- A size as an int of 32 bits. -/
def intOf (n : Nat) : Int := (n : Int).bmod (2 ^ 32)

variable (u : Uniq)

/-- What `main` refuses. -/
def refused : Option Bytes :=
  if u.allRepeated = true ∧ u.countFlag = true then
    some (ascii ("cuniq: printing all duplicated lines and repeat counts is meaningless.\n" ++
      "Try 'cuniq --help' for more information.\n"))
  else none

def delim : UInt8 := if u.zeroTerminated = true then 0 else 10

/-- What is left behind some words; nothing where there are not as many. -/
def skipWords : Nat → Bytes → Bytes
  | 0, str => str
  | i + 1, str =>
    match nextWord str with
    | none => []
    | some (_, rest) => skipWords i rest

def tokenizeAndSkipWhitespace (str : Bytes) : Bytes :=
  (skipWords u.skipFieldsCnt.toInt.toNat str).takeWhile (· != u.delim)

def cmpChars (ch1 ch2 : UInt8) : Bool :=
  if u.ignoreCase = true then toLower ch1 == toLower ch2 else ch1 == ch2

/-- The loop of `std::equal`. -/
def equal (str1 str2 : Bytes) : Nat → Nat → Except Fault Bool
  | 0, _ => .ok true
  | n + 1, pos =>
    match str1[pos]?, str2[pos]? with
    | some ch1, some ch2 => if u.cmpChars ch1 ch2 = true then equal str1 str2 n (pos + 1) else .ok false
    | _, _ => .error .outOfString

/-- The size of a string without the characters that are skipped. -/
def sizeBehind (str : Bytes) : Except Fault Int :=
  if intOf str.length - u.skipCharsCnt.toInt < -2 ^ 31 then .error .overflow
  else .ok (max 0 (intOf str.length - u.skipCharsCnt.toInt))

def matchSized (str1 str2 : Bytes) (str1Size str2Size : Int) : Except Fault Bool :=
  if u.compareCharsCnt = -1 ∧ str1Size ≠ str2Size then .ok false
  else if u.compareCharsCnt ≠ -1 ∧ min str1Size u.compareCharsCnt.toInt ≠ min str2Size u.compareCharsCnt.toInt then
    .ok false
  else
    let boundedCompareChars := if u.compareCharsCnt = -1 then str1Size else min str1Size u.compareCharsCnt.toInt
    if boundedCompareChars < 0 then .error .invalidRange
    else u.equal str1 str2 boundedCompareChars.toNat u.skipCharsCnt.toInt.toNat

def stringMatch (str1 str2 : Bytes) : Except Fault Bool := do
  let str1Size ← u.sizeBehind (u.tokenizeAndSkipWhitespace str1)
  let str2Size ← u.sizeBehind (u.tokenizeAndSkipWhitespace str2)
  u.matchSized (u.tokenizeAndSkipWhitespace str1) (u.tokenizeAndSkipWhitespace str2) str1Size str2Size

/-- One line stands for the run. -/
def selects (linesCount : Nat) : Bool :=
  (!u.repeatFlag || decide (1 < linesCount)) && (!u.uniqueFlag || linesCount == 1)

def printAndClear (lines : List Bytes) : Except Fault Bytes :=
  if u.allRepeated = true then
    .ok (if 1 < lines.length then lines.flatMap fun line => line ++ [u.delim] else [])
  else if u.selects lines.length = true then
    match lines with
    | [] => .error .emptyQueue
    | line :: _ =>
      .ok ((if u.countFlag = true then List.replicate 6 32 ++ decimal
        lines.length ++ [32] else []) ++ line ++ [u.delim])
  else .ok []

/-- The lines of a text up to their delimiters. -/
def getlines (delim : UInt8) (text : Bytes) : List Bytes :=
  if _h : text = [] then []
  else text.takeWhile (· != delim) :: getlines delim (text.dropWhile (· != delim)).tail
  termination_by text.length
  decreasing_by
    have := (List.dropWhile_suffix (· != delim) (l := text)).length_le
    have := List.length_pos_of_ne_nil _h
    rw [List.length_tail]
    omega

/-- One round of the loop, with the queue and what has been written. -/
def takeLine (s : List Bytes × Bytes) (line : Bytes) : Except Fault (List Bytes × Bytes) :=
  match s.1 with
  | [] => .ok ([line], s.2)
  | front :: queue => do
    if (← u.stringMatch line front) = true then .ok (front :: queue ++ [line], s.2)
    else
      let written ← u.printAndClear (front :: queue)
      .ok ([line], s.2 ++ written)

def execute (text : Bytes) : Except Fault Bytes := do
  let s ← (getlines u.delim text).foldlM u.takeLine ([], [])
  let written ← u.printAndClear s.1
  .ok (s.2 ++ written)

/-! ## What it is for -/

def canonical (ch : UInt8) : UInt8 := if u.ignoreCase = true then toLower ch else ch

/-- What of a line is compared. -/
def key (line : Bytes) : Bytes :=
  let str := (skipWords u.skipFieldsCnt.toInt.toNat line).drop u.skipCharsCnt.toInt.toNat
  (if u.compareCharsCnt = -1 then str else str.take u.compareCharsCnt.toInt.toNat).map u.canonical

def like (front line : Bytes) : Bool := u.key line == u.key front

/-- What is written for a run of one or more lines. -/
def written (run : List Bytes) : Bytes :=
  if u.allRepeated = true then if 1 < run.length then run.flatMap fun line => line ++ [u.delim] else []
  else if u.selects run.length = true then
    (if u.countFlag = true then List.replicate 6 32 ++ decimal run.length ++ [32] else []) ++ run.headD [] ++ [u.delim]
  else []

def specified (text : Bytes) : Bytes := (runsOf u.like (getlines u.delim text)).flatMap u.written

end Uniq

end CppExperiments

/-!
## What is written for the runs of lines
-/

namespace CppExperiments.Uniq

variable {u : Uniq} {str str1 str2 line front text : Bytes} {lines queue : List Bytes} {b : UInt8} {n pos : Nat}

/-! ## Comparing -/

lemma intOf_eq (h : n < 2 ^ 31) : intOf n = n := by
  unfold intOf
  rw [Int.bmod_def]
  omega

lemma cmpChars_eq (ch1 ch2 : UInt8) : u.cmpChars ch1 ch2 = (u.canonical ch1 == u.canonical ch2) := by
  rw [cmpChars, canonical, canonical]
  split <;> rfl

/-- The loop compares two parts of the strings that are there. -/
lemma equal_eq (h1 : n ≤ str1.length - pos) (h2 : n ≤ str2.length - pos) : u.equal str1 str2 n pos =
    .ok (((str1.drop pos).take n).map u.canonical == ((str2.drop pos).take n).map u.canonical) := by
  induction n generalizing pos with
  | zero => rw [equal, List.take_zero, List.take_zero]; rfl
  | succ n ih =>
    have hlt1 : pos < str1.length := by omega
    have hlt2 : pos < str2.length := by omega
    rw [equal, List.getElem?_eq_getElem hlt1, List.getElem?_eq_getElem hlt2, List.drop_eq_getElem_cons hlt1,
      List.drop_eq_getElem_cons hlt2, List.take_succ_cons, List.take_succ_cons, List.map_cons, List.map_cons]
    dsimp only
    rw [cmpChars_eq, List.cons_beq_cons]
    by_cases hch : (u.canonical str1[pos] == u.canonical str2[pos]) = true
    · rw [if_pos hch, hch, Bool.true_and, ih (by omega) (by omega)]
    · rw [if_neg hch, Bool.eq_false_of_not_eq_true hch, Bool.false_and]

/-- The part of a token that is compared. -/
def compared (u : Uniq) (str : Bytes) : Bytes :=
  if u.compareCharsCnt = -1 then str.drop u.skipCharsCnt.toInt.toNat
  else (str.drop u.skipCharsCnt.toInt.toNat).take u.compareCharsCnt.toInt.toNat

lemma sizeBehind_eq (hskip : 0 ≤ u.skipCharsCnt.toInt) (h : str.length < 2 ^ 31) :
    u.sizeBehind str = .ok ((str.length - u.skipCharsCnt.toInt.toNat : Nat) : Int) := by
  have hlt := Int32.toInt_lt u.skipCharsCnt
  rw [sizeBehind, intOf_eq h, if_neg (by omega)]
  congr 1
  omega

lemma compareCharsCnt_cases (h : -1 ≤ u.compareCharsCnt.toInt) :
    u.compareCharsCnt = -1 ∨ u.compareCharsCnt ≠ -1 ∧ 0 ≤ u.compareCharsCnt.toInt := by
  by_cases hone : u.compareCharsCnt = -1
  · exact .inl hone
  · refine .inr ⟨hone, ?_⟩
    have hne : u.compareCharsCnt.toInt ≠ -1 := fun heq => hone (Int32.toInt_inj.1 heq)
    omega

lemma beq_of_length_ne (h : str1.length ≠ str2.length) :
    (str1.map u.canonical == str2.map u.canonical) = false := by
  rw [beq_eq_false_iff_ne]
  intro heq
  have := congrArg List.length heq
  rw [List.length_map, List.length_map] at this
  exact h this

lemma matchSized_eq (hlimit : -1 ≤ u.compareCharsCnt.toInt) (str1 str2 : Bytes) :
    u.matchSized str1 str2 (str1.length - u.skipCharsCnt.toInt.toNat : Nat)
      (str2.length - u.skipCharsCnt.toInt.toNat : Nat) =
      .ok ((u.compared str1).map u.canonical == (u.compared str2).map u.canonical) := by
  obtain ⟨k, hk⟩ : ∃ k, k = u.skipCharsCnt.toInt.toNat := ⟨_, rfl⟩
  rw [matchSized, ← hk]
  rcases compareCharsCnt_cases hlimit with hone | ⟨hone, hpos⟩
  · have hcompared : ∀ str, u.compared str = str.drop k := fun str => by rw [compared, if_pos hone, hk]
    rw [hcompared, hcompared]
    by_cases hsize : str1.length - k = str2.length - k
    · rw [if_neg fun h => h.2 (congrArg Nat.cast hsize), if_neg fun h => h.1 hone]
      dsimp only
      rw [if_pos hone, if_neg (by omega), Int.toNat_natCast, equal_eq (Nat.le_refl _) hsize.le,
        List.take_of_length_le (List.length_drop ..).le,
          List.take_of_length_le (by rw [List.length_drop]; exact hsize.ge)]
    · rw [if_pos ⟨hone, fun h => hsize (Int.ofNat_inj.1 h)⟩, beq_of_length_ne]
      rwa [List.length_drop, List.length_drop]
  · obtain ⟨c, hc⟩ : ∃ c, c = u.compareCharsCnt.toInt.toNat := ⟨_, rfl⟩
    have hcast : u.compareCharsCnt.toInt = (c : Int) := by omega
    have hcompared : ∀ str, u.compared str = (str.drop k).take c := fun str => by rw [compared, if_neg hone, hk, hc]
    rw [hcompared, hcompared, if_neg fun h => hone h.1, hcast]
    by_cases hsize : min (str1.length - k) c = min (str2.length - k) c
    · rw [if_neg fun h => h.2 (by omega)]
      dsimp only
      have hbounded : (min ((str1.length - k : Nat) : Int) c).toNat = min (str1.length - k) c := by omega
      rw [if_neg hone, if_neg (by omega), hbounded, equal_eq (Nat.min_le_left _ _) (by omega)]
      have htake1 : (str1.drop k).take (min (str1.length - k) c) = (str1.drop k).take c := by
        rw [← List.length_drop, Nat.min_comm, ← List.take_eq_take_min]
      have htake2 : (str2.drop k).take (min (str1.length - k) c) = (str2.drop k).take c := by
        rw [hsize, ← List.length_drop, Nat.min_comm, ← List.take_eq_take_min]
      rw [htake1, htake2]
    · rw [if_pos ⟨hone, by omega⟩, beq_of_length_ne]
      rw [List.length_take, List.length_take, List.length_drop, List.length_drop]
      omega

/-! ## Lines -/

lemma not_mem_getlines (delim : UInt8) (text : Bytes) : ∀ line ∈ getlines delim text, delim ∉ line := by
  induction hsize : text.length using Nat.strongRecOn generalizing text with
  | ind size ih =>
    intro line hline
    rw [getlines] at hline
    by_cases hnil : text = []
    · rw [dif_pos hnil] at hline
      cases hline
    · rw [dif_neg hnil] at hline
      rcases List.mem_cons.1 hline with rfl | hline
      · intro hmem
        exact absurd (List.mem_takeWhile_imp hmem) (by simp)
      · have := (List.dropWhile_suffix (· != delim) (l := text)).length_le
        have := List.length_pos_of_ne_nil hnil
        exact ih _ (by rw [List.length_tail]; omega) _ rfl line hline

lemma skipWords_suffix (n : Nat) (str : Bytes) : skipWords n str <:+ str := by
  induction n generalizing str with
  | zero => exact List.suffix_refl str
  | succ n ih =>
    rw [skipWords]
    cases hnext : nextWord str with
    | none => exact List.nil_suffix
    | some p =>
      obtain ⟨word, rest⟩ := p
      exact (ih rest).trans (suffix_of_nextWord hnext)

lemma tokenize_eq (h : u.delim ∉ str) :
    u.tokenizeAndSkipWhitespace str = skipWords u.skipFieldsCnt.toInt.toNat str := by
  rw [tokenizeAndSkipWhitespace, List.takeWhile_eq_self_iff]
  intro b hb
  rw [bne_iff_ne]
  rintro rfl
  exact h ((skipWords_suffix _ _).subset hb)

lemma key_eq (line : Bytes) :
    u.key line = (u.compared (skipWords u.skipFieldsCnt.toInt.toNat line)).map u.canonical := rfl

/-- Lines whose tokens fit an int are compared as it is configured. -/
lemma stringMatch_eq (hskip : 0 ≤ u.skipCharsCnt.toInt) (hlimit : -1 ≤ u.compareCharsCnt.toInt)
    (hline : u.delim ∉ line) (hfront : u.delim ∉ front) (hline31 : (u.tokenizeAndSkipWhitespace line).length < 2 ^ 31)
    (hfront31 : (u.tokenizeAndSkipWhitespace front).length < 2 ^ 31) :
    u.stringMatch line front = .ok (u.like front line) := by
  rw [stringMatch, sizeBehind_eq hskip hline31, ok_bind, sizeBehind_eq hskip hfront31, ok_bind, matchSized_eq hlimit,
    tokenize_eq hline, tokenize_eq hfront, like, key_eq, key_eq]

/-! ## The loop -/

lemma printAndClear_cons (front : Bytes) (queue : List Bytes) :
    u.printAndClear (front :: queue) = .ok (u.written (front :: queue)) := by
  rw [printAndClear, written]
  by_cases hall : u.allRepeated = true
  · rw [if_pos hall, if_pos hall]
  · rw [if_neg hall, if_neg hall]
    by_cases hselects : u.selects (front :: queue).length = true
    · rw [if_pos hselects, if_pos hselects]
      rfl
    · rw [if_neg hselects, if_neg hselects]

/-- Nothing has to be written where there are no lines. -/
def Silent (u : Uniq) : Prop := u.allRepeated = true ∨ u.repeatFlag = true ∨ u.uniqueFlag = true

lemma printAndClear_nil (h : u.Silent) : u.printAndClear [] = .ok [] := by
  rw [printAndClear]
  by_cases hall : u.allRepeated = true
  · rw [if_pos hall]
    rfl
  · have hselects : u.selects ([] : List Bytes).length = false := by
      rw [selects]
      rcases h.resolve_left hall with h | h
      · rw [h]
        rfl
      · rw [h]
        exact Bool.and_false _
    rw [if_neg hall, if_neg (by rw [hselects]; exact Bool.false_ne_true)]

lemma printAndClear_nil_error (h : ¬ u.Silent) : u.printAndClear [] = .error .emptyQueue := by
  rw [Silent, not_or, not_or] at h
  have hselects : u.selects ([] : List Bytes).length = true := by
    rw [selects, Bool.eq_false_of_not_eq_true h.2.1, Bool.eq_false_of_not_eq_true h.2.2]
    rfl
  rw [printAndClear, if_neg h.1, if_pos hselects]

/-- All lines that are compared fit an int. -/
def Fits (u : Uniq) (lines : List Bytes) : Prop := ∀ line ∈ lines, (u.tokenizeAndSkipWhitespace line).length < 2 ^ 31

/-- The loop from a queue on that is not empty. -/
lemma foldlM_takeLine (hskip : 0 ≤ u.skipCharsCnt.toInt) (hlimit : -1 ≤ u.compareCharsCnt.toInt)
    (hlines : ∀ line ∈ front :: lines, u.delim ∉ line) (hfits : u.Fits (front :: lines)) (queue : List Bytes)
    (out : Bytes) : (lines.foldlM u.takeLine (front :: queue, out) >>= fun s => do
      let written ← u.printAndClear s.1
      .ok (s.2 ++ written)) = .ok (out ++ writtenFrom u.like u.written front queue lines) := by
  induction lines generalizing front queue out with
  | nil =>
    rw [List.foldlM_nil, writtenFrom_nil]
    change (u.printAndClear (front :: queue) >>= fun written => Except.ok (out ++ written)) = _
    rw [printAndClear_cons, ok_bind]
  | cons line lines ih =>
    rw [Fits, List.forall_mem_cons, List.forall_mem_cons] at hfits
    rw [List.forall_mem_cons, List.forall_mem_cons] at hlines
    have hmatch := stringMatch_eq hskip hlimit hlines.2.1 hlines.1 hfits.2.1 hfits.1
    rw [List.foldlM_cons, takeLine]
    dsimp only
    rw [hmatch, ok_bind]
    by_cases hlike : u.like front line = true
    · rw [if_pos hlike, ok_bind, writtenFrom_cons_of_like u.written hlike]
      exact ih (List.forall_mem_cons.2 ⟨hlines.1, hlines.2.2⟩) (List.forall_mem_cons.2 ⟨hfits.1, hfits.2.2⟩) _ _
    · rw [if_neg hlike, printAndClear_cons, ok_bind, ok_bind,
        writtenFrom_cons_of_not_like u.written (Bool.eq_false_of_not_eq_true hlike), ← List.append_assoc]
      exact ih (List.forall_mem_cons.2 hlines.2) (List.forall_mem_cons.2 hfits.2) [] _

/-- A limit below -1 makes a range whose end is in front of its begin. -/
lemma stringMatch_error (hlimit : u.compareCharsCnt.toInt < -1) (line front : Bytes) :
    ∃ fault, u.stringMatch line front = .error fault := by
  have hne : u.compareCharsCnt ≠ -1 := by
    intro heq
    rw [heq] at hlimit
    exact absurd hlimit (by decide)
  rw [stringMatch, sizeBehind, sizeBehind]
  by_cases h1 : intOf (u.tokenizeAndSkipWhitespace line).length - u.skipCharsCnt.toInt < -2 ^ 31
  · exact ⟨.overflow, by rw [if_pos h1, error_bind]⟩
  · by_cases h2 : intOf (u.tokenizeAndSkipWhitespace front).length - u.skipCharsCnt.toInt < -2 ^ 31
    · exact ⟨.overflow, by rw [if_neg h1, ok_bind, if_pos h2, error_bind]⟩
    · refine ⟨.invalidRange, ?_⟩
      rw [if_neg h1, ok_bind, if_neg h2, ok_bind, matchSized, if_neg fun h => hne h.1,
        if_neg fun h => h.2 (by omega)]
      dsimp only
      rw [if_neg hne, if_pos (by omega)]

/-! ## What is written -/

/-- Nothing undefined is met, and what is written is what the runs of lines say. -/
def Meets (u : Uniq) (text : Bytes) : Prop := u.execute text = .ok (u.specified text)

/-- There is a line, or the flags ask for no line of an empty run. -/
def Started (u : Uniq) (text : Bytes) : Prop := getlines u.delim text ≠ [] ∨ u.Silent

/-- The limit is none or a number of characters, or there is nothing to compare. -/
def Limited (u : Uniq) (text : Bytes) : Prop :=
  -1 ≤ u.compareCharsCnt.toInt ∨ (getlines u.delim text).length ≤ 1

/-- What is compared of a line fits an int, or there is nothing to compare. -/
def Sized (u : Uniq) (text : Bytes) : Prop :=
  u.Fits (getlines u.delim text) ∨ (getlines u.delim text).length ≤ 1

lemma execute_of_nil (h : getlines u.delim text = []) : u.execute text = u.printAndClear [] >>= fun written =>
    .ok written := by
  rw [execute, h, List.foldlM_nil]
  rfl

lemma specified_of_nil (h : getlines u.delim text = []) : u.specified text = [] := by
  rw [specified, h, runsOf, List.flatMap_nil]

lemma meets_of_single (h : getlines u.delim text = [line]) : u.Meets text := by
  have hstep : u.takeLine ([], []) line = .ok ([line], []) := rfl
  rw [Meets, execute, specified, h, List.foldlM_cons, hstep, ok_bind, List.foldlM_nil]
  change (u.printAndClear [line] >>= fun written => Except.ok ([] ++ written)) = _
  rw [printAndClear_cons, ok_bind, runsOf_cons, List.takeWhile_nil, List.dropWhile_nil, runsOf, List.flatMap_cons,
    List.flatMap_nil, List.append_nil, List.nil_append]

/-- Whatever is within the bounds of the code is written as it is specified. A text without lines for which a line has
to be written, and a negative limit, are not. -/
theorem execute_meets (hskip : 0 ≤ u.skipCharsCnt.toInt) (text : Bytes) :
    (u.Started text ∧ u.Limited text ∧ u.Sized text → u.Meets text) ∧
      (u.Meets text → u.Started text ∧ u.Limited text) := by
  constructor
  · rintro ⟨hstarted, hlimited, hsized⟩
    cases hlines : getlines u.delim text with
    | nil =>
      rw [Meets, execute_of_nil hlines, printAndClear_nil (hstarted.resolve_left (not_not.2 hlines)), ok_bind,
        specified_of_nil hlines]
    | cons front lines =>
      cases lines with
      | nil => exact meets_of_single hlines
      | cons line lines =>
        have hmany : ¬ (getlines u.delim text).length ≤ 1 := by
          rw [hlines, List.length_cons, List.length_cons]
          omega
        have hdelim := not_mem_getlines u.delim text
        have hfits := hsized.resolve_right hmany
        have hstep : u.takeLine ([], []) front = .ok ([front], []) := rfl
        rw [hlines] at hdelim hfits
        rw [Meets, execute, specified, hlines, List.foldlM_cons, hstep, ok_bind,
          foldlM_takeLine hskip (hlimited.resolve_right hmany) hdelim hfits, writtenFrom_start, List.nil_append]
  · intro hmeets
    constructor
    · by_contra hnot
      rw [Started, not_or, not_not] at hnot
      rw [Meets, execute_of_nil hnot.1, printAndClear_nil_error hnot.2] at hmeets
      cases hmeets
    · by_contra hnot
      rw [Limited, not_or] at hnot
      obtain ⟨hlimit, hmany⟩ := hnot
      cases hlines : getlines u.delim text with
      | nil => exact hmany (by rw [hlines]; exact Nat.zero_le 1)
      | cons front lines =>
        cases lines with
        | nil => exact hmany (by rw [hlines]; exact Nat.le_refl 1)
        | cons line lines =>
          obtain ⟨fault, hfault⟩ := stringMatch_error (u := u) (by omega) line front
          have hstep : u.takeLine ([], []) front = .ok ([front], []) := rfl
          have hnext : u.takeLine ([front], []) line = .error fault := by
            rw [takeLine]
            dsimp only
            rw [hfault, error_bind]
          rw [Meets, execute, hlines, List.foldlM_cons, hstep, ok_bind, List.foldlM_cons, hnext, error_bind,
            error_bind] at hmeets
          cases hmeets

/-- Counted lines, of which two characters are compared behind a field, whatever their case. -/
theorem execute_meets_counted :
    ({ countFlag := true, ignoreCase := true, compareCharsCnt := 3, skipFieldsCnt := 1 } : Uniq).Meets
      (ascii "1 ab\n2 ABC\n3 b\n") :=
  (execute_meets (by decide) _).1 ⟨.inl (by decide +kernel), .inl (by decide), .inl (by unfold Fits; decide +kernel)⟩

/-- Without flags and without input the front of an empty queue is read. -/
theorem not_meets_of_empty : ¬ ∀ (u : Uniq) (text : Bytes), u.refused = none → 0 ≤ u.skipCharsCnt.toInt →
    0 ≤ u.skipFieldsCnt.toInt → u.Meets text := by
  intro h
  have hmeets := h {} [] rfl (by decide) (by decide)
  have hnil : getlines ({} : Uniq).delim [] = [] := by rw [getlines, dif_pos rfl]
  rw [Meets, execute_of_nil hnil, printAndClear_nil_error (by unfold Silent; decide)] at hmeets
  cases hmeets

end CppExperiments.Uniq

import CppExperiments.Cgit.Utils
import CppExperiments.Lib.Calls
import CppExperiments.Lib.Fuel

/-!
# Hex dumps

The dump of a file with the parameters that `main` admits, and when it comes to an end. What an addition of two ints
gives where their sum is no int is left open.
-/

namespace CppExperiments.Xxd

open Hash

inductive Fault where
  | running
  deriving DecidableEq

/-- What was read from the command line. -/
structure Params where
  littleEndian : Bool := false
  binary : Bool := false
  plain : Bool := false
  decimalOffset : Bool := false
  group : Option Int32 := none
  length : Option Int32 := none
  offset : Option Int32 := none
  columns : Option Int32 := none

/-- The arguments of `binary2Hex`; `main` passes no negative group and no negative columns. -/
structure Args where
  binaryMode : Bool
  littleEndian : Bool
  plainMode : Bool
  decimalOffset : Bool
  offset : Int32
  endPos : Int32
  group : Nat
  columns : Nat

/-- A line under way. -/
structure Line where
  dump : Bytes := []
  text : Bytes := []
  count : Nat := 0

def isPrint (b : UInt8) : Bool := decide (32 ≤ b ∧ b ≤ 126)

/-- `std::bitset<8>` as text. -/
def bits (ch : UInt8) : Bytes := (List.range 8).reverse.map fun i => if ch.toNat.testBit i then 49 else 48

def reprChar (ch : UInt8) (binaryMode : Bool) : Bytes :=
  if binaryMode = true then bits ch else Old.hexPadded 2 ch.toNat

def powerOfTwo (group : Nat) : Bool := decide (0 < group ∧ group &&& (group - 1) = 0)

/-- A text to the right of zeros. -/
def setw (width : Nat) (text : Bytes) : Bytes := List.replicate (width - text.length) 48 ++ text

def seekg (file : Bytes) (pos : Int32) : Bytes := if pos.toInt < 0 then [] else file.drop pos.toInt.toNat

namespace Args

variable (a : Args)

def push (acc : List Bytes) (cell : Bytes) : List Bytes :=
  if a.binaryMode = true ∨ a.littleEndian = false then acc ++ [cell] else cell :: acc

def blank : Bytes := List.replicate (if a.binaryMode = true then 8 else 2) 32

def char (ch : UInt8) : Bytes := if a.plainMode = true then [] else [if isPrint ch = true then ch else 46]

def showOffset (offset : Int32) : Bytes :=
  if a.decimalOffset = true then setw 8 (decimalInt offset.toInt) else Old.hexPadded 8 offset.toUInt32.toNat

def showLine (offset : Int32) (l : Line) : Bytes :=
  if a.plainMode = true then l.dump ++ [10]
  else a.showOffset offset ++ ascii ": " ++ l.dump ++ List.replicate (if a.littleEndian = true then 2 else 1) 32 ++
    l.text ++ [10]

/-- The fill of a group that stopped prematurely, with `room` left in the line. -/
def fillGroup : Nat → List Bytes × Nat → List Bytes × Nat
  | 0, s => s
  | room + 1, s => if s.1.length < a.group then fillGroup room (a.push s.1 a.blank, s.2 + 1) else s

end Args

section

variable (overflow : Int → Int32) (a : Args)

def plus (x : Int32) (y : Int) : Int32 :=
  if -2 ^ 31 ≤ x.toInt + y ∧ x.toInt + y < 2 ^ 31 then Int32.ofInt (x.toInt + y) else overflow (x.toInt + y)

/-- Neither is there a limit, nor has it been reached. -/
def Within (offset : Int32) (count : Nat) : Prop := a.endPos = -1 ∨ plus overflow offset count < a.endPos

instance (offset : Int32) (count : Nat) : Decidable (Within overflow a offset count) := by
  unfold Within
  infer_instance

def readGroup (offset : Int32) : List Bytes → Line → Bytes → List Bytes × Line × Bytes
  | acc, l, [] => (acc, l, [])
  | acc, l, ch :: rest =>
    if acc.length < a.group ∧ l.count < a.columns ∧ Within overflow a offset l.count then
      readGroup offset (a.push acc (reprChar ch a.binaryMode))
        { l with text := l.text ++ a.char ch, count := l.count + 1 } rest
    else (acc, l, ch :: rest)

/-- One group of a line. -/
def dumpGroup (offset : Int32) (l : Line) (rest : Bytes) : Line × Bytes :=
  let r := readGroup overflow a offset [] l rest
  let filled := a.fillGroup (a.columns - r.2.1.count) (r.1, r.2.1.count)
  ({ r.2.1 with dump := r.2.1.dump ++ filled.1.flatten ++ [32], count := filled.2 }, r.2.2)

def dumpLine (offset : Int32) : Nat → Line × Bytes → Except Fault (Line × Bytes)
  | 0, _ => .error .running
  | n + 1, s =>
    if s.1.count < a.columns then dumpLine offset n (dumpGroup overflow a offset s.1 s.2) else .ok s

/-- Where the dump goes on behind a line, if it does. -/
def nextOffset (offset : Int32) : Option Int32 :=
  let offset := plus overflow offset a.columns
  if a.endPos ≠ -1 ∧ a.endPos ≤ offset then none else some offset

def dumpLines : Nat → Int32 → Bytes → Bytes → Except Fault Bytes
  | 0, _, _, _ => .error .running
  | n + 1, offset, rest, oss =>
    if rest = [] then .ok oss
    else do
      let s ← dumpLine overflow a offset n ({}, rest)
      match nextOffset overflow a offset with
      | none => .ok (oss ++ a.showLine offset s.1)
      | some next => dumpLines n next s.2 (oss ++ a.showLine offset s.1)

def binary2Hex (n : Nat) (file : Bytes) : Except Fault Bytes :=
  dumpLines overflow a n a.offset (seekg file a.offset) []

namespace Params

variable (p : Params)

def offsetOf : Int32 := p.offset.getD 0

def endPosOf : Int32 :=
  match p.length with
  | none => -1
  | some length => plus overflow p.offsetOf length.toInt

def groupOf : Int32 := p.group.getD (if p.binary = true then 1 else if p.littleEndian = true then 4 else 2)

def columnsOf : Int32 := p.columns.getD (if p.binary = true then 6 else 16)

/-- A plain dump resets all but the offset and the length. -/
def chosen : Args where
  binaryMode := p.binary && !p.plain
  littleEndian := p.littleEndian && !p.plain
  plainMode := p.plain
  decimalOffset := p.decimalOffset
  offset := p.offsetOf
  endPos := p.endPosOf overflow
  group := if p.plain = true then 30 else p.groupOf.toInt.toNat
  columns := if p.plain = true then 30 else p.columnsOf.toInt.toNat

/-- The arguments that `main` passes on, or the message that it exits with. -/
def args : Except Bytes Args :=
  if p.offsetOf < 0 ∨ p.groupOf < 0 ∨ p.columnsOf < 0 then
    .error (ascii "cxxd: negative parameters are not supported: (-s=" ++ decimalInt p.offsetOf.toInt ++ ascii ", -g=" ++
      decimalInt p.groupOf.toInt ++ ascii ", -c=" ++ decimalInt p.columnsOf.toInt ++ ascii ").\n")
  else if (p.chosen overflow).littleEndian = true ∧ powerOfTwo (p.chosen overflow).group = false then
    .error (ascii "cxxd: number of octets per group must be a power of 2 with -e.\n")
  else .ok (p.chosen overflow)

end Params

end

/-! ## How a line goes on -/

section

variable {overflow : Int → Int32} {a : Args} {offset : Int32}

lemma plus_zero (x : Int32) : plus overflow x 0 = x := by
  have hle := Int32.le_toInt x
  have hlt := Int32.toInt_lt x
  rw [plus, Int.add_zero, if_pos ⟨hle, hlt⟩, Int32.ofInt_toInt]

lemma Args.length_push (acc : List Bytes) (cell : Bytes) : (a.push acc cell).length = acc.length + 1 := by
  rw [push]
  split
  · rw [List.length_append, List.length_singleton]
  · rw [List.length_cons]

/-- The fill ends with the group or with the line. -/
lemma Args.fillGroup_count (a : Args) (room : Nat) (s : List Bytes × Nat) :
    s.2 ≤ (a.fillGroup room s).2 ∧ (a.fillGroup room s).2 ≤ s.2 + room ∧
      (s.1.length < a.group → 0 < room → s.2 < (a.fillGroup room s).2) := by
  induction room generalizing s with
  | zero => exact ⟨Nat.le_refl _, Nat.le_refl _, fun _ h => absurd h (Nat.lt_irrefl 0)⟩
  | succ room ih =>
    rw [fillGroup]
    by_cases hs : s.1.length < a.group
    · obtain ⟨hle, hroom, -⟩ := ih (a.push s.1 a.blank, s.2 + 1)
      rw [if_pos hs]
      dsimp only at hle hroom
      exact ⟨by omega, by omega, fun _ _ => by omega⟩
    · rw [if_neg hs]
      exact ⟨Nat.le_refl _, Nat.le_add_right _ _, fun h _ => absurd h hs⟩

lemma readGroup_spec (overflow : Int → Int32) (a : Args) (offset : Int32) (acc : List Bytes) (l : Line) (rest : Bytes) :
    let r := readGroup overflow a offset acc l rest
    r.1.length + l.count = acc.length + r.2.1.count ∧ r.2.2.length + r.2.1.count = rest.length + l.count ∧
      l.count ≤ r.2.1.count ∧ (l.count ≤ a.columns → r.2.1.count ≤ a.columns) := by
  induction rest generalizing acc l with
  | nil => exact ⟨rfl, rfl, Nat.le_refl _, id⟩
  | cons ch rest ih =>
    rw [readGroup]
    by_cases h : acc.length < a.group ∧ l.count < a.columns ∧ Within overflow a offset l.count
    · obtain ⟨hacc, hrest, hle, hcolumns⟩ := ih (a.push acc (reprChar ch a.binaryMode))
        { l with text := l.text ++ a.char ch, count := l.count + 1 }
      rw [if_pos h]
      rw [Args.length_push] at hacc
      dsimp only at hacc hrest hle hcolumns ⊢
      rw [List.length_cons]
      exact ⟨by omega, by omega, by omega, fun _ => hcolumns h.2.1⟩
    · rw [if_neg h]
      exact ⟨rfl, rfl, Nat.le_refl _, id⟩

/-- Every group takes up a part of the line, and reads no more than that. -/
lemma dumpGroup_count (overflow : Int → Int32) (offset : Int32) (l : Line) (rest : Bytes) (hl : l.count ≤ a.columns) :
    let s := dumpGroup overflow a offset l rest
    l.count ≤ s.1.count ∧ s.1.count ≤ a.columns ∧ s.2.length ≤ rest.length ∧
      (0 < a.group → l.count < a.columns → l.count < s.1.count) := by
  obtain ⟨hacc, hrest, hle, hcolumns⟩ := readGroup_spec overflow a offset [] l rest
  have hcolumns := hcolumns hl
  obtain ⟨hfill, hroom, hlt⟩ := Args.fillGroup_count a
    (a.columns - (readGroup overflow a offset [] l rest).2.1.count)
    ((readGroup overflow a offset [] l rest).1, (readGroup overflow a offset [] l rest).2.1.count)
  rw [List.length_nil, Nat.zero_add] at hacc
  dsimp only [dumpGroup] at hfill hroom hlt ⊢
  refine ⟨by omega, by omega, by omega, fun hgroup hl => ?_⟩
  by_cases hread : (readGroup overflow a offset [] l rest).2.1.count = l.count
  · have := hlt (by omega) (by omega)
    omega
  · omega

lemma rest_dumpGroup_lt {rest : Bytes} {l : Line} (hgroup : 0 < a.group) (hl : l.count < a.columns)
    (hwithin : Within overflow a offset l.count) (hrest : rest ≠ []) :
    (dumpGroup overflow a offset l rest).2.length < rest.length := by
  obtain ⟨ch, rest, rfl⟩ := List.exists_cons_of_ne_nil hrest
  have hread : readGroup overflow a offset [] l (ch :: rest) =
      readGroup overflow a offset (a.push [] (reprChar ch a.binaryMode))
        { l with text := l.text ++ a.char ch, count := l.count + 1 } rest := by
    rw [readGroup, if_pos ⟨hgroup, hl, hwithin⟩]
  obtain ⟨-, hlen, hle, -⟩ := readGroup_spec overflow a offset
    (a.push [] (reprChar ch a.binaryMode)) { l with text := l.text ++ a.char ch, count := l.count + 1 } rest
  dsimp only [dumpGroup] at hlen hle ⊢
  rw [hread, List.length_cons]
  omega

lemma comes_dumpLine (overflow : Int → Int32) (offset : Int32) (hgroup : 0 < a.group) {s : Line × Bytes}
    (hs : s.1.count ≤ a.columns) :
    ∃ s', Comes .running (fun n => dumpLine overflow a offset n s) (.ok s') ∧ s'.2.length ≤ s.2.length ∧
      (s.1.count < a.columns → Within overflow a offset s.1.count → s.2 ≠ [] → s'.2.length < s.2.length) := by
  induction hroom : a.columns - s.1.count using Nat.strongRecOn generalizing s with
  | ind room ih =>
    by_cases hlt : s.1.count < a.columns
    · obtain ⟨hle, hcolumns, hrest, hcount⟩ := dumpGroup_count overflow offset s.1 s.2 hs
      have hcount := hcount hgroup hlt
      obtain ⟨s', hcomes, hs', -⟩ := ih _ (by omega) hcolumns rfl
      refine ⟨s', .of_succ rfl (fun n => if_pos hlt) hcomes, hs'.trans hrest, fun _ hwithin hne => ?_⟩
      exact Nat.lt_of_le_of_lt hs' (rest_dumpGroup_lt hgroup hlt hwithin hne)
    · exact ⟨s, .of_succ rfl (fun n => if_neg hlt) (comes_const _), Nat.le_refl _, fun h => absurd h hlt⟩

lemma dumpLines_nil (n : Nat) (oss : Bytes) : dumpLines overflow a (n + 1) offset [] oss = .ok oss := if_pos rfl

lemma dumpLines_of_ne {rest : Bytes} (h : rest ≠ []) (n : Nat) (oss : Bytes) :
    dumpLines overflow a (n + 1) offset rest oss = (dumpLine overflow a offset n ({}, rest) >>= fun s =>
      match nextOffset overflow a offset with
      | none => .ok (oss ++ a.showLine offset s.1)
      | some next => dumpLines overflow a n next s.2 (oss ++ a.showLine offset s.1)) := if_neg h

end

/-! ## When a dump ends -/

section

variable {overflow : Int → Int32} {a : Args} {offset : Int32}

/-- The limit is in front of what would be read next. -/
def Beyond (a : Args) (offset : Int32) : Prop := a.endPos ≠ -1 ∧ a.endPos ≤ offset

lemma within_zero_iff : Within overflow a offset 0 ↔ ¬ Beyond a offset := by
  rw [Within, Beyond, Nat.cast_zero, plus_zero, not_and_or, not_not, Int32.not_le]

instance (a : Args) (offset : Int32) : Decidable (Beyond a offset) := by
  unfold Beyond
  infer_instance

lemma nextOffset_eq : nextOffset overflow a offset =
    if Beyond a (plus overflow offset a.columns) then none else some (plus overflow offset a.columns) := rfl

/-- A line that reads nothing is the last one, or the next line reads something. -/
lemma halts_dumpLines (hgroup : 0 < a.group) (hcolumns : 0 < a.columns) (rest oss : Bytes) :
    Halts .running fun n => dumpLines overflow a n offset rest oss := by
  induction hsize : 2 * rest.length + (if Beyond a offset then 1 else 0) using Nat.strongRecOn
    generalizing offset rest oss with
  | ind size ih =>
    by_cases hrest : rest = []
    · rw [hrest]
      exact ⟨.ok oss, nofun, .of_succ rfl (fun n => dumpLines_nil n oss) (comes_const _)⟩
    · obtain ⟨s, hcomes, hle, hlt⟩ := comes_dumpLine overflow offset hgroup
        (s := ({}, rest)) (Nat.zero_le _)
      have hnext : Halts Fault.running fun n => match nextOffset overflow a offset with
          | none => .ok (oss ++ a.showLine offset s.1)
          | some next => dumpLines overflow a n next s.2 (oss ++ a.showLine offset s.1) := by
        rw [nextOffset_eq]
        by_cases hend : Beyond a (plus overflow offset a.columns)
        · rw [if_pos hend]
          exact halts_const nofun
        · rw [if_neg hend]
          refine ih _ ?_ s.2 _ rfl
          rw [if_neg hend, ← hsize]
          by_cases hbeyond : Beyond a offset
          · rw [if_pos hbeyond]
            dsimp only at hle
            omega
          · have := hlt hcolumns (within_zero_iff.2 hbeyond) hrest
            dsimp only at this
            omega
      obtain ⟨r, hr, hnext⟩ := hnext
      exact ⟨r, hr, .of_succ rfl (fun n => dumpLines_of_ne hrest n oss) (hcomes.bind hnext)⟩

lemma dumpGroup_count_of_zero (hgroup : a.group = 0) (l : Line) (rest : Bytes) :
    (dumpGroup overflow a offset l rest).1.count = l.count := by
  have hread : readGroup overflow a offset [] l rest = ([], l, rest) := by
    cases rest with
    | nil => rfl
    | cons ch rest => rw [readGroup, if_neg (by simp [hgroup])]
  have hfill : ∀ room, a.fillGroup room ([], l.count) = ([], l.count) := by
    intro room
    cases room with
    | zero => rfl
    | succ room => rw [Args.fillGroup, if_neg (by simp [hgroup])]
  rw [dumpGroup, hread]
  dsimp only
  rw [hfill]

/-- Without room in a group a line never fills up. -/
lemma never_dumpLine (hgroup : a.group = 0) {s : Line × Bytes} (hs : s.1.count < a.columns) :
    Never .running fun n => dumpLine overflow a offset n s := by
  refine never_of_rounds (dumpLine overflow a offset) (fun s => s.1.count < a.columns) (fun _ => rfl) ?_ hs
  intro s hs
  refine ⟨dumpGroup overflow a offset s.1 s.2, ?_, fun n => if_pos hs⟩
  rw [dumpGroup_count_of_zero hgroup]
  exact hs

lemma dumpLine_of_full (hcolumns : a.columns = 0) (s : Line × Bytes) (n : Nat) :
    dumpLine overflow a offset (n + 1) s = .ok s := if_neg (by omega)

/-- Without columns every round of the dump is the same. -/
lemma halts_dumpLines_iff_of_full (hcolumns : a.columns = 0) {rest : Bytes} (hrest : rest ≠ []) (oss : Bytes) :
    (Halts .running fun n => dumpLines overflow a n offset rest oss) ↔ Beyond a offset := by
  have hcomes : Comes .running (fun n => dumpLine overflow a offset n ({}, rest)) (.ok ({}, rest)) :=
    .of_succ rfl (dumpLine_of_full hcolumns _) (comes_const _)
  have hoffset : plus overflow offset a.columns = offset := by rw [hcolumns, Nat.cast_zero, plus_zero]
  by_cases hbeyond : Beyond a offset
  · refine iff_of_true ⟨.ok (oss ++ a.showLine offset {}), nofun,
      .of_succ rfl (fun n => dumpLines_of_ne hrest n oss) (hcomes.bind ?_)⟩ hbeyond
    rw [nextOffset_eq, hoffset, if_pos hbeyond]
    exact comes_const _
  · refine iff_of_false (not_halts_of_never fun n => ?_) hbeyond
    induction n generalizing oss with
    | zero => rfl
    | succ n ih =>
      rw [dumpLines_of_ne hrest, nextOffset_eq, hoffset, if_neg hbeyond]
      rcases hcomes.before n with hline | hline
      · rw [hline, error_bind]
      · rw [hline, ok_bind]
        exact ih _

lemma never_dumpLines (hgroup : a.group = 0) (hcolumns : 0 < a.columns) {rest : Bytes} (hrest : rest ≠ [])
    (oss : Bytes) : Never .running fun n => dumpLines overflow a n offset rest oss := by
  intro n
  cases n with
  | zero => rfl
  | succ n =>
    have hline : dumpLine overflow a offset n ({}, rest) = .error .running :=
      never_dumpLine hgroup (s := ({}, rest)) hcolumns n
    dsimp only
    rw [dumpLines_of_ne hrest, hline, error_bind]

lemma halts_dumpLines_iff (rest oss : Bytes) : (Halts .running fun n => dumpLines overflow a n offset rest oss) ↔
    rest = [] ∨ (0 < a.group ∧ 0 < a.columns) ∨ a.columns = 0 ∧ Beyond a offset := by
  by_cases hrest : rest = []
  · rw [hrest]
    exact iff_of_true ⟨.ok oss, nofun, .of_succ rfl (fun n => dumpLines_nil n oss) (comes_const _)⟩ (.inl rfl)
  · rw [or_iff_right hrest]
    by_cases hcolumns : a.columns = 0
    · rw [halts_dumpLines_iff_of_full hcolumns hrest, hcolumns]
      simp
    · have hpos := Nat.pos_of_ne_zero hcolumns
      by_cases hgroup : a.group = 0
      · refine iff_of_false (not_halts_of_never (never_dumpLines hgroup hpos hrest oss)) ?_
        rintro (h | h)
        · exact absurd hgroup (Nat.ne_of_gt h.1)
        · exact hcolumns h.1
      · have hgroup := Nat.pos_of_ne_zero hgroup
        exact iff_of_true (halts_dumpLines hgroup hpos rest oss) (.inl ⟨hgroup, hpos⟩)

lemma offset_of_args {p : Params} (h : p.args overflow = .ok a) : 0 ≤ a.offset.toInt := by
  rw [Params.args] at h
  by_cases hneg : p.offsetOf < 0 ∨ p.groupOf < 0 ∨ p.columnsOf < 0
  · rw [if_pos hneg] at h
    cases h
  · rw [if_neg hneg] at h
    by_cases hpower : (p.chosen overflow).littleEndian = true ∧ powerOfTwo (p.chosen overflow).group = false
    · rw [if_pos hpower] at h
      cases h
    · rw [if_neg hpower] at h
      obtain rfl := Except.ok.inj h
      exact Int32.le_iff_toInt_le.1 (Int32.not_lt.1 (not_or.1 hneg).1)

lemma Params.args_default (overflow : Int → Int32) :
    ({} : Params).args overflow = .ok (({} : Params).chosen overflow) := by
  rw [args, if_neg (by decide), if_neg (by rintro ⟨h, -⟩; exact absurd h Bool.false_ne_true)]

/-- Of the arguments that `main` admits, a group of none and a line of none are the ones without an end. -/
theorem halts_binary2Hex_iff {p : Params} (h : p.args overflow = .ok a) (file : Bytes) :
    (Halts .running fun n => binary2Hex overflow a n file) ↔
      file.length ≤ a.offset.toInt.toNat ∨ (0 < a.group ∧ 0 < a.columns) ∨ a.columns = 0 ∧ Beyond a a.offset := by
  unfold binary2Hex
  rw [halts_dumpLines_iff, seekg, if_neg (Int.not_lt.2 (offset_of_args h)), List.drop_eq_nil_iff]

/-- Groups of four in lines of six, little endian, with a length and an offset. -/
theorem halts_binary2Hex_groups :
    ∃ a, ({ littleEndian := true, group := some 4, columns := some 6, length := some 7, offset := some 2 } :
      Params).args Int32.ofInt = .ok a ∧
        Halts .running fun n => binary2Hex Int32.ofInt a n (ascii "some more bytes") :=
  ⟨_, rfl, (halts_binary2Hex_iff
    (p := { littleEndian := true, group := some 4, columns := some 6, length := some 7, offset := some 2 })
    rfl _).2 (.inr (.inl ⟨by decide, by decide⟩))⟩

/-- With a group of none a dump of one byte does not end. -/
theorem not_halts_of_group_zero : ¬ ∀ (overflow : Int → Int32) (p : Params) (a : Args) (file : Bytes),
    p.args overflow = .ok a → Halts .running fun n => binary2Hex overflow a n file := by
  intro h
  have hhalts := h Int32.ofInt { group := some 0 } _ [65] rfl
  exact not_halts_of_never (never_dumpLines rfl (by decide) (by decide) []) hhalts

end

end CppExperiments.Xxd

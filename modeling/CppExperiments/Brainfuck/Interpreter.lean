import CppExperiments.Lib.Bytes
import CppExperiments.Lib.Loops
import CppExperiments.Lib.Steps
import Mathlib.Data.Fin.Basic
import Mathlib.Logic.Function.Basic

/-!
# The memory of a Brainfuck program

Cells, pointer, input and output, and what the eight commands do to them.
-/

namespace CppExperiments.Brainfuck

def MEMORY_SIZE : Nat := 30000

instance : NeZero MEMORY_SIZE := ⟨by decide⟩

structure Machine where
  memory : Fin MEMORY_SIZE → UInt8
  ptr : Fin MEMORY_SIZE
  input : Bytes
  output : Bytes

/-- `%` of the language rounds to zero; this one does not. -/
def mod (val modulus : Int) : Int := (val.tmod modulus + modulus).tmod modulus

lemma mod_eq (val : Int) {modulus : Int} (h : 0 < modulus) : mod val modulus = val % modulus := by
  have hlow : -modulus < val.tmod modulus := by
    have := Int.tmod_lt_of_pos (-val) h
    rw [Int.neg_tmod] at this
    omega
  rw [mod, Int.tmod_eq_emod_of_nonneg (by omega), Int.add_emod_right, Int.tmod_def, sub_eq_add_neg, ← mul_neg,
    Int.add_mul_emod_self_left]

/-- The place at a distance from a pointer, around the ends of the memory. -/
def place (ptr : Fin MEMORY_SIZE) (shift : Int) : Fin MEMORY_SIZE :=
  Fin.ofNat MEMORY_SIZE (mod (ptr + shift) MEMORY_SIZE).toNat

lemma val_place (ptr : Fin MEMORY_SIZE) (shift : Int) :
    ((place ptr shift).val : Int) = (ptr + shift) % MEMORY_SIZE := by
  have hpos : (0 : Int) < MEMORY_SIZE := by decide
  have hlow := Int.emod_nonneg (ptr + shift) hpos.ne'
  have hhigh := Int.emod_lt_of_pos (ptr + shift) hpos
  rw [place, mod_eq _ hpos, Fin.val_ofNat, Nat.mod_eq_of_lt (by omega), Int.toNat_of_nonneg hlow]

lemma place_eq_iff {ptr ptr' : Fin MEMORY_SIZE} {shift shift' : Int} :
    place ptr shift = place ptr' shift' ↔ (ptr + shift) % MEMORY_SIZE = (ptr' + shift') % (MEMORY_SIZE : Int) := by
  rw [← val_place, ← val_place, Fin.ext_iff, Nat.cast_inj]

@[simp] lemma place_zero (ptr : Fin MEMORY_SIZE) : place ptr 0 = ptr := by
  have hval := val_place ptr 0
  have hlt := ptr.isLt
  rw [Int.add_zero, Int.emod_eq_of_lt (by omega) (by omega)] at hval
  exact Fin.ext (Int.ofNat.inj hval)

lemma place_place (ptr : Fin MEMORY_SIZE) (shift shift' : Int) :
    place (place ptr shift) shift' = place ptr (shift + shift') := by
  rw [place_eq_iff, val_place, Int.emod_add_emod, Int.add_assoc]

namespace Machine

variable (m : Machine)

/-- Zeroed memory and pointer 0. -/
def start (input : Bytes) : Machine := ⟨fun _ => 0, 0, input, []⟩

def cell : UInt8 := m.memory m.ptr

def put (val : UInt8) : Machine := { m with memory := Function.update m.memory m.ptr val }

def putchar : Machine := { m with output := m.output ++ [m.cell] }

/-- At the end of the input `EOF`, which is -1, is stored. -/
def getchar : Machine :=
  match m.input with
  | [] => m.put 255
  | ch :: rest => { m with input := rest }.put ch

def move (shift : Int) : Machine := { m with ptr := place m.ptr shift }

/-- Adding to the cell at a distance. -/
def addAt (shift : Int) (val : UInt8) : Machine :=
  { m with memory := Function.update m.memory (place m.ptr shift) (m.memory (place m.ptr shift) + val) }

/-- The condition under which a loop goes on. -/
abbrev NonZero : Prop := m.cell ≠ 0

variable {m}

@[simp] lemma cell_put (val : UInt8) : (m.put val).cell = val := by simp [cell, put]

@[simp] lemma put_put (val val' : UInt8) : (m.put val).put val' = m.put val' := by simp [put]

lemma put_cell : m.put m.cell = m := by simp [put, cell]

lemma put_eq_self {val : UInt8} (h : m.cell = val) : m.put val = m := by rw [← h, put_cell]

lemma move_move (shift shift' : Int) : (m.move shift).move shift' = m.move (shift + shift') := by
  rw [move, move, move, place_place]

end Machine

end CppExperiments.Brainfuck

/-!
## The interpreter

`validateCode` and `interpretCode`. Code that is accepted is the text of a program with loops, and a
run of the interpreter that ends does what the program does.
-/

namespace CppExperiments.Brainfuck

/-- The loop of `validateCode`; an error is the message that is printed. -/
def validateFrom : List Char → Nat → Nat → List (Nat × Nat) → Except String Unit
  | [], _, _, [] => .ok ()
  | [], _, _, (line, char) :: _ =>
    .error ("Error: Unclosed bracket in line " ++ toString line ++ " char " ++ toString char ++ "\n")
  | ch :: rest, i, lineNo, loopStk =>
    if ch = '\n' then validateFrom rest (i + 1) (lineNo + 1) loopStk
    else if ch = '[' then validateFrom rest (i + 1) lineNo ((lineNo, i + 1) :: loopStk)
    else if ch = ']' then
      match loopStk with
      | [] =>
        .error ("Error: Unexpected closing bracket in line " ++ toString lineNo ++ " char " ++ toString (i + 1) ++ "\n")
      | _ :: loopStk => validateFrom rest (i + 1) lineNo loopStk
    else validateFrom rest (i + 1) lineNo loopStk

def validateCode (code : List Char) : Except String Unit := validateFrom code 0 1 []

/-- The commands other than brackets; all other characters are comments. -/
def execute (m : Machine) : Char → Machine
  | '+' => m.put (if m.cell = 255 then 0 else m.cell + 1)
  | '-' => m.put (if m.cell = 0 then 255 else m.cell - 1)
  | '>' => { m with ptr := Fin.ofNat MEMORY_SIZE (if m.ptr.val = MEMORY_SIZE - 1 then 0 else m.ptr.val + 1) }
  | '<' => { m with ptr := Fin.ofNat MEMORY_SIZE (if m.ptr.val = 0 then MEMORY_SIZE - 1 else m.ptr.val - 1) }
  | '.' => m.putchar
  | ',' => m.getchar
  | _ => m

structure Interpreter where
  pos : Nat
  loopStk : List Nat
  machine : Machine

/-- The search for the bracket that closes a loop, in the characters behind `pos`; `none` where the code throws, or
`openBrackets` would be more than an `int` can be. -/
def skipLoop : List Char → Nat → Nat → Option Nat
  | _, 0, pos => some pos
  | [], _ + 1, _ => none
  | ch :: rest, openBrackets + 1, pos =>
    if ch = ']' then skipLoop rest openBrackets (pos + 1)
    else if ch = '[' then
      if openBrackets + 2 < 2 ^ 31 then skipLoop rest (openBrackets + 2) (pos + 1) else none
    else skipLoop rest (openBrackets + 1) (pos + 1)

/-- One turn of the loop of `interpretCode`; nothing behind the end of the code. -/
def interpretStep (code : List Char) (s : Interpreter) : Option Interpreter := do
  let ch ← code[s.pos]?
  if ch = '[' then
    if s.machine.cell ≠ 0 then return ⟨s.pos + 1, s.pos :: s.loopStk, s.machine⟩
    else
      let pos ← skipLoop (code.drop (s.pos + 1)) 1 s.pos
      return ⟨pos + 1, s.loopStk, s.machine⟩
  else if ch = ']' then
    match s.loopStk with
    | [] => none
    | top :: loopStk =>
      if s.machine.cell = 0 then return ⟨s.pos + 1, loopStk, s.machine⟩
      else return ⟨top + 1, top :: loopStk, s.machine⟩
  else return ⟨s.pos + 1, s.loopStk, execute s.machine ch⟩

/-- `interpretCode` comes to the end of the code. -/
def Interprets (code : List Char) (m m' : Machine) : Prop :=
  ∃ s, Reaches (interpretStep code) ⟨0, [], m⟩ s ∧ code.length ≤ s.pos ∧ s.machine = m'

/-- A character that is no bracket. -/
abbrev Command := { ch : Char // ch ≠ '[' ∧ ch ≠ ']' }

def text : Prog Command → List Char
  | .nil => []
  | .snoc p ch => text p ++ [ch.val]
  | .loop p body => text p ++ '[' :: (text body ++ [']'])

/-- What a program means. -/
def Means (p : Prog Command) : Machine → Machine → Prop :=
  p.Exec Machine.NonZero (fun ch m m' => m' = execute m ch.val)

/-- The programs whose loops are still open, outermost last, and the one being read. -/
def openText (open_ : List (Prog Command)) (p : Prog Command) : List Char :=
  open_.reverse.flatMap (fun q => text q ++ ['[']) ++ text p

variable {code rest : List Char} {p body : Prog Command} {m : Machine} {loopStk : List Nat} {n pos top : Nat}

lemma exists_text_of_validateFrom {i lineNo : Nat} {stk : List (Nat × Nat)} (open_ : List (Prog Command))
    (hlen : stk.length = open_.length) (h : validateFrom code i lineNo stk = .ok ()) (p : Prog Command) :
    ∃ q, text q = openText open_ p ++ code := by
  induction code generalizing i lineNo stk open_ p with
  | nil =>
    cases stk with
    | cons top stk => simp [validateFrom] at h
    | nil =>
      obtain rfl : open_ = [] := List.length_eq_zero_iff.1 hlen.symm
      exact ⟨p, by simp [openText]⟩
  | cons ch rest ih =>
    have hplain : ∀ hch : ch ≠ '[' ∧ ch ≠ ']', openText open_ p ++ ch :: rest =
        openText open_ (.snoc p ⟨ch, hch⟩) ++ rest := fun _ => by simp [openText, text]
    unfold validateFrom at h
    by_cases hline : ch = '\n'
    · rw [if_pos hline] at h
      rw [hplain (by simp [hline])]
      exact ih open_ hlen h _
    · rw [if_neg hline] at h
      by_cases hopen : ch = '['
      · rw [if_pos hopen] at h
        obtain ⟨q, hq⟩ := ih (p :: open_) (by simp [hlen]) h .nil
        exact ⟨q, by rw [hq, hopen]; simp [openText, text]⟩
      · rw [if_neg hopen] at h
        by_cases hclose : ch = ']'
        · rw [if_pos hclose] at h
          cases stk with
          | nil => cases h
          | cons top stk =>
            cases open_ with
            | nil => cases hlen
            | cons q open_ =>
              obtain ⟨r, hr⟩ := ih open_ (by simpa using hlen) h (.loop q p)
              exact ⟨r, by rw [hr, hclose]; simp [openText, text]⟩
        · rw [if_neg hclose] at h
          rw [hplain ⟨hopen, hclose⟩]
          exact ih open_ hlen h _

/-- Accepted code is the text of a program. -/
theorem exists_text_of_validateCode (h : validateCode code = .ok ()) : ∃ p, text p = code := by
  obtain ⟨p, hp⟩ := exists_text_of_validateFrom [] rfl h .nil
  exact ⟨p, by simpa [openText, text] using hp⟩

lemma skipLoop_text (p : Prog Command) {rest : List Char} {n pos j : Nat}
    (h : skipLoop (text p ++ rest) (n + 1) pos = some j) :
    skipLoop rest (n + 1) (pos + (text p).length) = some j := by
  induction p generalizing rest n pos with
  | nil => exact h
  | snoc p ch ih =>
    rw [text, List.append_assoc] at h
    have hch := ih h
    rw [List.singleton_append, skipLoop, if_neg ch.property.2, if_neg ch.property.1] at hch
    rwa [text, List.length_append, List.length_singleton, ← Nat.add_assoc]
  | loop p body ih ihbody =>
    rw [text, List.append_assoc] at h
    have hopen := ih h
    rw [List.cons_append, List.append_assoc, skipLoop, if_neg (by decide), if_pos rfl] at hopen
    split at hopen
    · have hclose := ihbody hopen
      rw [List.singleton_append, skipLoop, if_pos rfl] at hclose
      rw [← hclose, text, List.length_append, List.length_cons, List.length_append, List.length_singleton]
      congr 1
      omega
    · cases hopen

lemma step_command {ch : Char} (hch : ch ≠ '[' ∧ ch ≠ ']') (h : code.drop pos = ch :: rest) :
    interpretStep code ⟨pos, loopStk, m⟩ = some ⟨pos + 1, loopStk, execute m ch⟩ := by
  simp [interpretStep, getElem?_of_drop h, hch]

lemma step_enter (h : code.drop pos = '[' :: rest) (hcell : m.cell ≠ 0) :
    interpretStep code ⟨pos, loopStk, m⟩ = some ⟨pos + 1, pos :: loopStk, m⟩ := by
  simp [interpretStep, getElem?_of_drop h, hcell]

lemma step_skip {s' : Interpreter} (h : code.drop pos = '[' :: (text body ++ ']' :: rest)) (hcell : m.cell = 0)
    (hstep : interpretStep code ⟨pos, loopStk, m⟩ = some s') :
    s' = ⟨pos + (text body).length + 2, loopStk, m⟩ := by
  simp only [interpretStep, getElem?_of_drop h, Option.bind_eq_bind, Option.bind_some, if_pos, hcell, ne_eq,
    not_true_eq_false, if_false, drop_succ h] at hstep
  obtain ⟨j, hskip, hs⟩ := Option.bind_eq_some_iff.1 hstep
  have hclose := skipLoop_text body hskip
  rw [skipLoop, if_pos rfl, skipLoop] at hclose
  obtain rfl := Option.some.inj hclose
  exact (Option.some.inj hs).symm

lemma step_leave (h : code.drop pos = ']' :: rest) (hcell : m.cell = 0) :
    interpretStep code ⟨pos, top :: loopStk, m⟩ = some ⟨pos + 1, loopStk, m⟩ := by
  simp [interpretStep, getElem?_of_drop h, hcell]

lemma step_back (h : code.drop pos = ']' :: rest) (hcell : m.cell ≠ 0) :
    interpretStep code ⟨pos, top :: loopStk, m⟩ = some ⟨top + 1, top :: loopStk, m⟩ := by
  simp [interpretStep, getElem?_of_drop h, hcell]

lemma step_end {s : Interpreter} (h : code.length ≤ s.pos) : interpretStep code s = none := by
  simp [interpretStep, List.getElem?_eq_none h]

/-- Before the end of the code there is a step left to make. -/
lemma exists_succ_of_run {fin : Interpreter} (h : code.drop pos ≠ []) (hfin : code.length ≤ fin.pos)
    (hrun : after (interpretStep code) n ⟨pos, loopStk, m⟩ = some fin) : ∃ k, n = k + 1 := by
  cases n with
  | zero =>
    obtain rfl := Option.some.inj hrun
    exact absurd (List.drop_eq_nil_of_le hfin) h
  | succ k => exact ⟨k, rfl⟩

/-- A loop that the interpreter comes to the end behind. -/
lemma while_of_run {fin : Interpreter}
    (hbody : ∀ n pos loopStk m rest, code.drop pos = text body ++ rest →
      after (interpretStep code) n ⟨pos, loopStk, m⟩ = some fin → ∃ k ≤ n, ∃ m', Means body m m' ∧
        after (interpretStep code) k ⟨pos + (text body).length, loopStk, m'⟩ = some fin)
    (hfin : code.length ≤ fin.pos) (hcode : code.drop pos = '[' :: (text body ++ ']' :: rest))
    (hrun : after (interpretStep code) n ⟨pos, loopStk, m⟩ = some fin) :
    ∃ k ≤ n, ∃ m', While Machine.NonZero (Means body) m m' ∧
      after (interpretStep code) k ⟨pos + (text body).length + 2, loopStk, m'⟩ = some fin := by
  induction n using Nat.strong_induction_on generalizing m with
  | _ n ih =>
    obtain ⟨n, rfl⟩ := exists_succ_of_run (List.ne_nil_of_length_pos (by rw [hcode]; simp)) hfin hrun
    by_cases hcell : m.cell = 0
    · rw [after] at hrun
      obtain ⟨s', hstep, hrun⟩ := Option.bind_eq_some_iff.1 hrun
      obtain rfl := step_skip hcode hcell hstep
      exact ⟨n, Nat.le_succ n, m, While.stop (by simpa using hcell), hrun⟩
    · rw [after, step_enter hcode hcell, Option.bind_some] at hrun
      have hin := drop_succ hcode
      obtain ⟨k, hk, m₁, hmeans, hrun₁⟩ := hbody n _ _ _ _ hin hrun
      have hclose := drop_add hin
      obtain ⟨k, rfl⟩ := exists_succ_of_run (List.ne_nil_of_length_pos (by rw [hclose]; simp)) hfin hrun₁
      by_cases hcell₁ : m₁.cell = 0
      · rw [after, step_leave hclose hcell₁, Option.bind_some] at hrun₁
        refine ⟨k, by omega, m₁, While.again hcell hmeans (While.stop (by simpa using hcell₁)), ?_⟩
        rw [← hrun₁]
        congr 2
        omega
      · rw [after, step_back hclose hcell₁, Option.bind_some] at hrun₁
        have hagain : after (interpretStep code) (k + 1) ⟨pos, loopStk, m₁⟩ = some fin := by
          rw [after, step_enter hcode hcell₁, Option.bind_some, hrun₁]
        obtain ⟨j, hj, m', hwhile, hrest⟩ := ih (k + 1) (by omega) hagain
        exact ⟨j, by omega, m', While.again hcell hmeans hwhile, hrest⟩

lemma means_of_run {fin : Interpreter} (p : Prog Command) (hfin : code.length ≤ fin.pos) :
    ∀ n pos loopStk m rest, code.drop pos = text p ++ rest →
      after (interpretStep code) n ⟨pos, loopStk, m⟩ = some fin → ∃ k ≤ n, ∃ m', Means p m m' ∧
        after (interpretStep code) k ⟨pos + (text p).length, loopStk, m'⟩ = some fin := by
  induction p with
  | nil =>
    intro n pos loopStk m rest _ hrun
    exact ⟨n, le_rfl, m, rfl, hrun⟩
  | snoc p ch ih =>
    intro n pos loopStk m rest hcode hrun
    rw [text, List.append_assoc, List.singleton_append] at hcode
    obtain ⟨k, hk, m₁, hmeans, hrun₁⟩ := ih n pos loopStk m _ hcode hrun
    have hch := drop_add hcode
    obtain ⟨k, rfl⟩ := exists_succ_of_run (List.ne_nil_of_length_pos (by rw [hch]; simp)) hfin hrun₁
    rw [after, step_command ch.property hch, Option.bind_some] at hrun₁
    refine ⟨k, by omega, execute m₁ ch.val, ⟨m₁, hmeans, rfl⟩, ?_⟩
    rwa [text, List.length_append, List.length_singleton, ← Nat.add_assoc]
  | loop p body ih ihbody =>
    intro n pos loopStk m rest hcode hrun
    rw [text, List.append_assoc, List.cons_append, List.append_assoc, List.singleton_append] at hcode
    obtain ⟨k, hk, m₁, hmeans, hrun₁⟩ := ih n pos loopStk m _ hcode hrun
    obtain ⟨j, hj, m', hwhile, hrest⟩ := while_of_run ihbody hfin (drop_add hcode) hrun₁
    refine ⟨j, by omega, m', ⟨m₁, hmeans, hwhile⟩, ?_⟩
    rw [← hrest]
    congr 2
    simp only [text, List.length_append, List.length_cons, List.length_nil]
    omega

/-- What the interpreter does to the machine is what the program means. -/
theorem means_of_interprets {m' : Machine} (h : Interprets (text p) m m') : Means p m m' := by
  obtain ⟨fin, ⟨n, hrun⟩, hfin, rfl⟩ := h
  obtain ⟨k, -, m', hmeans, hrest⟩ := means_of_run p hfin n 0 [] m [] (List.append_nil _).symm hrun
  cases k with
  | zero =>
    obtain rfl := Option.some.inj hrest
    exact hmeans
  | succ k =>
    rw [after, step_end (by simp)] at hrest
    cases hrest

end CppExperiments.Brainfuck

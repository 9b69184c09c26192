import CppExperiments.Brainfuck.Correctness
import CppExperiments.Brainfuck.Jumps

/-!
# Bytecode as a C program

What `transpileByteCode` writes, what the lines of the C program do, and that they do what
`executeByteCode` does, but for sums that leave the range of a cell modulo 255 and reads at the end of
the input.
-/

namespace CppExperiments.Brainfuck

def TRANSPILED_C_HEADERS : String :=
  "// Autogenerated, compile with: \"gcc <file.c> -O2 -o <file.out>\"\n" ++
  "#include <stddef.h>\n" ++
  "#include <stdint.h>\n" ++
  "#include <stdio.h>\n" ++
  "\n" ++
  "#define MEMORY_SIZE 30000\n" ++
  "#define MOD(a, b) (((a) % (b) + (b)) % (b))\n" ++
  "\n" ++
  "uint8_t memory[MEMORY_SIZE] = \x7b0\x7d;\n" ++
  "size_t ptr = 0;\n" ++
  "\n" ++
  "static inline void  CLEAR() \x7b memory[ptr] = 0; \x7d\n" ++
  "static inline void OUTPUT() \x7b putchar(memory[ptr]); \x7d\n" ++
  "static inline void  INPUT() \x7b int ch = getchar(); if (ch != EOF) memory[ptr] = (uint8_t) ch; \x7d\n" ++
  "\n" ++
  "void SHIFTPTR(long shift) \x7b \n" ++
  "    long ptr_ = (long) ptr + shift;\n" ++
  "    if (ptr_ >= MEMORY_SIZE) ptr_ -= MEMORY_SIZE;\n" ++
  "    else if (ptr_ < 0) ptr_ += MEMORY_SIZE;\n" ++
  "    ptr = (size_t) ptr_;\n" ++
  "\x7d\n" ++
  "\n" ++
  "void UPDATEVAL(long shift) \x7b \n" ++
  "    long val = (long) memory[ptr] + shift;\n" ++
  "    if (val > 255) val -= 256;\n" ++
  "    else if (val < 0) val += 256;\n" ++
  "    memory[ptr] = (uint8_t) val;\n" ++
  "\x7d\n" ++
  "\n" ++
  "void SHIFTPTR_ZERO(long shift) \x7b \n" ++
  "    while(memory[ptr] != 0) \x7b\n" ++
  "        long ptr_ = (long) ptr + shift;\n" ++
  "        if (ptr_ >= MEMORY_SIZE) ptr_ -= MEMORY_SIZE;\n" ++
  "        else if (ptr_ < 0) ptr_ += MEMORY_SIZE;\n" ++
  "        ptr = (size_t) ptr_;\n" ++
  "    \x7d\n" ++
  "\x7d\n" ++
  "\n" ++
  "void UPDATE_BY_CURR(long shift, long factor) \x7b \n" ++
  "    long ptr_ = (long) ptr + shift;\n" ++
  "    if (ptr_ >= MEMORY_SIZE) ptr_ -= MEMORY_SIZE;\n" ++
  "    else if (ptr_ < 0) ptr_ += MEMORY_SIZE;\n" ++
  "    size_t copyTo = (size_t) ptr_;\n" ++
  "    memory[copyTo] = (uint8_t) MOD((long) memory[copyTo] + factor * memory[ptr], 255);\n" ++
  "\x7d\n" ++
  "\n" ++
  "int main() \x7b\n" ++
  "    // Inserted dynamically from compiled brainfuck instructions\n"

def TRANSPILED_C_FOOTERS : String :=
  "\n" ++
  "    return 0;\n" ++
  "\x7d\n"

/-- A line of `main`. -/
inductive CLine where
  | SHIFTPTR (shift : Int) | UPDATEVAL (shift : Int) | CLEAR | OUTPUT | INPUT
  | SHIFTPTR_ZERO (shift : Int) | UPDATE_BY_CURR (shift factor : Int) | whileMemory | closeBrace
  deriving DecidableEq

def CLine.text : CLine → String
  | SHIFTPTR shift => "SHIFTPTR(" ++ toString shift ++ ");"
  | UPDATEVAL shift => "UPDATEVAL(" ++ toString shift ++ ");"
  | CLEAR => "CLEAR();"
  | OUTPUT => "OUTPUT();"
  | INPUT => "INPUT();"
  | SHIFTPTR_ZERO shift => "SHIFTPTR_ZERO(" ++ toString shift ++ ");"
  | UPDATE_BY_CURR shift factor => "UPDATE_BY_CURR(" ++ toString shift ++ "," ++ toString factor ++ ");"
  | whileMemory => "while (memory[ptr]) \x7b"
  | closeBrace => "\x7d"

def Instruction.line (i : Instruction) : CLine :=
  match i.opcode with
  | .SHIFTPTR => .SHIFTPTR i.val1
  | .UPDATEVAL => .UPDATEVAL i.val1
  | .CLEAR => .CLEAR
  | .OUTPUT => .OUTPUT
  | .INPUT => .INPUT
  | .SHIFTPTR_ZERO => .SHIFTPTR_ZERO i.val1
  | .UPDATE_BY_CURR => .UPDATE_BY_CURR i.val1 i.val2
  | .LSTART => .whileMemory
  | .LEND => .closeBrace

/-- The loop of `transpileByteCode`. -/
def transpileLines : List Instruction → Nat → String
  | [], _ => ""
  | i :: rest, nestingLevel =>
    "".pushn '\t' nestingLevel ++ i.line.text ++ "\n" ++
      transpileLines rest (match i.opcode with
        | .LSTART => nestingLevel + 1
        | .LEND => nestingLevel - 1
        | _ => nestingLevel)

def transpileByteCode (instructions : List Instruction) : String :=
  TRANSPILED_C_HEADERS ++ transpileLines instructions 1 ++ TRANSPILED_C_FOOTERS

/-! ## What the C program does -/

def MOD (a b : Int) : Int := (a.tmod b + b).tmod b

/-- The pointer that the helper functions move; none if it leaves the memory after all. -/
def shifted (ptr : Fin MEMORY_SIZE) (shift : Int) : Option (Fin MEMORY_SIZE) :=
  let ptr_ : Int := ptr + shift
  let ptr_ := if ptr_ ≥ MEMORY_SIZE then ptr_ - MEMORY_SIZE else if ptr_ < 0 then ptr_ + MEMORY_SIZE else ptr_
  if h : 0 ≤ ptr_ ∧ ptr_.toNat < MEMORY_SIZE then some ⟨ptr_.toNat, h.2⟩ else none

def updated (cell : UInt8) (shift : Int) : UInt8 :=
  let val : Int := cell.toNat + shift
  UInt8.ofInt (if val > 255 then val - 256 else if val < 0 then val + 256 else val)

/-- The line of the brace that closes the loop, among the lines behind. -/
def closing : List CLine → Nat → Nat → Option Nat
  | [], _, _ => none
  | line :: rest, depth, pos =>
    if line = .whileMemory then closing rest (depth + 1) (pos + 1)
    else if line = .closeBrace then
      match depth with
      | 0 => some pos
      | depth + 1 => closing rest depth (pos + 1)
    else closing rest depth (pos + 1)

/-- The line of the loop that a brace closes, among the lines in front, the last one first. -/
def opening : List CLine → Nat → Option Nat
  | [], _ => none
  | line :: rest, depth =>
    if line = .closeBrace then opening rest (depth + 1)
    else if line = .whileMemory then
      match depth with
      | 0 => some rest.length
      | depth + 1 => opening rest depth
    else opening rest depth

/-- One line of `main`, of the inner loop in the case of SHIFTPTR_ZERO. At a closing brace the condition of the
loop is looked at again. -/
def cStep (lines : List CLine) (s : Executor) : Option Executor := do
  let line ← lines[s.pos]?
  let m := s.machine
  match line with
  | .SHIFTPTR shift =>
    let ptr ← shifted m.ptr shift
    return ⟨s.pos + 1, { m with ptr := ptr }⟩
  | .UPDATEVAL shift => return ⟨s.pos + 1, m.put (updated m.cell shift)⟩
  | .CLEAR => return ⟨s.pos + 1, m.put 0⟩
  | .OUTPUT => return ⟨s.pos + 1, m.putchar⟩
  | .INPUT =>
    match m.input with
    | [] => return ⟨s.pos + 1, m⟩
    | ch :: rest => return ⟨s.pos + 1, { m with input := rest }.put ch⟩
  | .SHIFTPTR_ZERO shift =>
    if m.cell ≠ 0 then
      let ptr ← shifted m.ptr shift
      return ⟨s.pos, { m with ptr := ptr }⟩
    else return ⟨s.pos + 1, m⟩
  | .UPDATE_BY_CURR shift factor =>
    let copyTo ← shifted m.ptr shift
    let val := MOD ((m.memory copyTo).toNat + factor * m.cell.toNat) 255
    return ⟨s.pos + 1, { m with memory := Function.update m.memory copyTo (UInt8.ofInt val) }⟩
  | .whileMemory =>
    if m.cell ≠ 0 then return ⟨s.pos + 1, m⟩
    else
      let close ← closing (lines.drop (s.pos + 1)) 0 (s.pos + 1)
      return ⟨close + 1, m⟩
  | .closeBrace =>
    let start ← opening (lines.take s.pos).reverse 0
    if m.cell ≠ 0 then return ⟨start + 1, m⟩ else return ⟨s.pos + 1, m⟩

/-- What can be seen of a program. -/
def observed (s : Executor) : Bytes × (Fin MEMORY_SIZE → UInt8) × Fin MEMORY_SIZE :=
  (s.machine.output, s.machine.memory, s.machine.ptr)

/-- Step by step the C program and the bytecode have the same output, memory and pointer. -/
def SameBehaviour (instructions : List Instruction) (input : Bytes) : Prop :=
  ∀ n, (after (cStep (instructions.map Instruction.line)) n ⟨0, Machine.start input⟩).map observed =
    (after (executeStep instructions) n ⟨0, Machine.start input⟩).map observed

/-- Sums that stay within 0 and 254, and no read at the end of the input unless into a cell that holds 255. -/
def Exact (i : Instruction) (m : Machine) : Prop :=
  match i.opcode with
  | .UPDATEVAL => 0 ≤ m.cell.toNat + i.val1 ∧ m.cell.toNat + i.val1 < 255
  | .INPUT => m.input = [] → m.cell = 255
  | _ => True

variable {instructions front rest a b inner : List Instruction} {i : Instruction} {m : Machine} {pos k depth : Nat}
  {shift : Int}
  {ptr : Fin MEMORY_SIZE} {order : Iteration} {p body : Prog Instruction}

lemma shifted_eq (hlow : -(MEMORY_SIZE : Int) < shift) (hhigh : shift < MEMORY_SIZE) :
    shifted ptr shift = some (place ptr shift) := by
  have hsize : (MEMORY_SIZE : Int) = 30000 := rfl
  have hlt := ptr.isLt
  have hval := val_place ptr shift
  have hwrap : (if (ptr : Int) + shift ≥ MEMORY_SIZE then (ptr : Int) + shift - MEMORY_SIZE
      else if (ptr : Int) + shift < 0 then ptr + shift + MEMORY_SIZE else ptr + shift) = place ptr shift := by
    rw [hval]
    simp only [hsize]
    split_ifs <;> omega
  rw [shifted]
  simp only [hwrap]
  exact dif_pos ⟨by omega, by rw [Int.toNat_natCast]; exact (place ptr shift).isLt⟩

lemma shifted_written (ptr : Fin MEMORY_SIZE) (shift : Int) :
    shifted ptr (shift.tmod MEMORY_SIZE) = some (place ptr (shift.tmod MEMORY_SIZE)) := by
  have hpos : (0 : Int) < MEMORY_SIZE := by decide
  have hlow := Int.tmod_lt_of_pos (-shift) hpos
  rw [Int.neg_tmod] at hlow
  exact shifted_eq (by omega) (Int.tmod_lt_of_pos shift hpos)

/-- Sums as a cell that wraps once, and modulo 255. -/
lemma updated_eq_iff (cell : UInt8) (shift : Int) : updated cell (shift.tmod 255) =
    UInt8.ofInt (mod (cell.toNat + shift.tmod 255) 255) ↔
      0 ≤ cell.toNat + shift.tmod 255 ∧ cell.toNat + shift.tmod 255 < 255 := by
  have hlow := Int.tmod_lt_of_pos (-shift) (show (0 : Int) < 255 by decide)
  rw [Int.neg_tmod] at hlow
  have hhigh := Int.tmod_lt_of_pos shift (show (0 : Int) < 255 by decide)
  have hcell := cell.toNat_lt
  have hinj : ∀ x y : Int, 0 ≤ x → x < 256 → 0 ≤ y → y < 256 → (UInt8.ofInt x = UInt8.ofInt y ↔ x = y) := by
    intro x y hx hx' hy hy'
    refine ⟨fun heq => ?_, fun heq => by rw [heq]⟩
    have hnat := congrArg UInt8.toNat heq
    rw [UInt8.ofInt, UInt8.ofInt, UInt8.toNat_ofNat', UInt8.toNat_ofNat'] at hnat
    omega
  rw [updated, mod_eq _ (by decide), hinj]
  · split_ifs <;> omega
  · split_ifs <;> omega
  · split_ifs <;> omega
  · omega
  · omega

/-- No jumps outside of the loops. -/
def NoJumps : Prog Instruction → Prop
  | .nil => True
  | .snoc p i => NoJumps p ∧ i.opcode ≠ .LSTART ∧ i.opcode ≠ .LEND
  | .loop p body => NoJumps p ∧ NoJumps body

lemma noJumps_append (hp : NoJumps p) (hl : Plain rest) : NoJumps (p.append rest) := by
  induction rest generalizing p with
  | nil => exact hp
  | cons i rest ih =>
    exact @ih (p.snoc i) ⟨hp, hl i (List.mem_cons_self ..)⟩ fun j hj => hl j (List.mem_cons_of_mem _ hj)

lemma noJumps_mergeInto {opcode : OPCODE} (hp : NoJumps p) (hop : opcode ≠ .LSTART ∧ opcode ≠ .LEND) (val : Int) :
    NoJumps (mergeInto p opcode val) := by
  cases p with
  | nil => exact ⟨hp, hop⟩
  | loop q body => exact ⟨hp, hop⟩
  | snoc q i =>
    rw [mergeInto]
    by_cases hi : i.opcode = opcode
    · rw [if_pos hi]
      exact hp
    · rw [if_neg hi]
      exact ⟨hp, hop⟩

lemma noJumps_emit (order : Iteration) (p : Prog Command) : NoJumps (emit order p) := by
  induction p with
  | nil => trivial
  | snoc p ch ih =>
    rw [emit, emitCommand]
    split_ifs <;> first | exact noJumps_mergeInto ih (by simp) _ | exact ⟨ih, by simp⟩ | exact ih
  | loop p body ih ihbody =>
    rw [emit, close]
    cases hl : (emit order body).straight.bind (rewritten order) with
    | none => exact ⟨ih, ihbody⟩
    | some l =>
      obtain ⟨straight, -, hl⟩ := Option.bind_eq_some_iff.1 hl
      exact noJumps_append ih (plain_rewritten hl)

/-- The line that is made of an instruction as it is written. -/
def writtenLine (i : Instruction) : CLine := i.written.line

lemma writtenLine_eq_whileMemory : writtenLine i = .whileMemory ↔ i.opcode = .LSTART := by
  obtain ⟨opcode, val1, val2⟩ := i
  cases opcode <;> simp [writtenLine, Instruction.written, Instruction.line]

lemma writtenLine_eq_closeBrace : writtenLine i = .closeBrace ↔ i.opcode = .LEND := by
  obtain ⟨opcode, val1, val2⟩ := i
  cases opcode <;> simp [writtenLine, Instruction.written, Instruction.line]

/-- The lines of a program leave the depth as it is. -/
lemma closing_flatten (hp : NoJumps p) (lines : List CLine) (depth pos : Nat) :
    closing ((flatten k p).map writtenLine ++ lines) depth pos = closing lines depth (pos + (flatten k p).length) := by
  induction p generalizing lines depth pos k with
  | nil => rfl
  | snoc p i ih =>
    rw [flatten, List.map_append, List.append_assoc, ih hp.1]
    simp [closing, writtenLine_eq_whileMemory, writtenLine_eq_closeBrace, hp.2, Nat.add_assoc]
  | loop p body ih ihbody =>
    simp only [flatten, List.map_append, List.map_cons, List.append_assoc, List.cons_append, ih hp.1]
    simp [closing, writtenLine_eq_whileMemory, writtenLine_eq_closeBrace, ihbody hp.2, Nat.add_assoc, Nat.add_comm,
      Nat.add_left_comm]

lemma opening_flatten (hp : NoJumps p) (lines : List CLine) (depth : Nat) :
    opening (((flatten k p).map writtenLine).reverse ++ lines) depth = opening lines depth := by
  induction p generalizing lines depth k with
  | nil => rfl
  | snoc p i ih =>
    simp [flatten, opening, writtenLine_eq_whileMemory, writtenLine_eq_closeBrace, hp.2, ih hp.1]
  | loop p body ih ihbody =>
    simp only [flatten, List.map_append, List.map_cons, List.reverse_append, List.reverse_cons, List.append_assoc]
    simp [opening, writtenLine_eq_whileMemory, writtenLine_eq_closeBrace, ih hp.1, ihbody hp.2]

/-- The braces are where the jumps lead. -/
def Braced (before : List Instruction) (i : Instruction) (behind : List Instruction) : Prop :=
  (i.opcode = .LSTART → closing (behind.map writtenLine) 0 (before.length + 1) = some i.val1.toNat) ∧
    (i.opcode = .LEND → opening (before.map writtenLine).reverse 0 = some i.val1.toNat)

lemma braced_of_noJump (h : i.opcode ≠ .LSTART ∧ i.opcode ≠ .LEND) : Braced a i b :=
  ⟨fun hi => absurd hi h.1, fun hi => absurd hi h.2⟩

/-- A place in two lists one behind the other. -/
lemma split_append {x y : List Instruction} (h : x ++ y = a ++ i :: b) :
    (∃ b', x = a ++ i :: b' ∧ b = b' ++ y) ∨ ∃ a', a = x ++ a' ∧ y = a' ++ i :: b := by
  rcases List.append_eq_append_iff.1 h with hright | ⟨c, hx, hc⟩
  · exact Or.inr hright
  · cases c with
    | nil => exact Or.inr ⟨[], by rw [List.append_nil, hx, List.append_nil], hc.symm⟩
    | cons j c =>
      obtain ⟨rfl, rfl⟩ := List.cons.inj hc
      exact Or.inl ⟨c, hx, rfl⟩

lemma singleton_split {j : Instruction} (h : [j] = a ++ i :: b) : a = [] ∧ j = i ∧ b = [] := by
  cases a with
  | nil =>
    obtain ⟨rfl, rfl⟩ := List.cons.inj h
    exact ⟨rfl, rfl, rfl⟩
  | cons x a => simp at h

/-- In flat code the braces are where the jumps lead. -/
lemma braced_flatten (hp : NoJumps p) (hk : front.length = k) (h : flatten k p = a ++ i :: b) :
    Braced (front ++ a) i (b ++ rest) := by
  induction p generalizing front rest a b k with
  | nil => simp [flatten] at h
  | snoc p j ih =>
    rcases split_append h with ⟨b', hin, rfl⟩ | ⟨a', rfl, hlast⟩
    · rw [List.append_assoc]
      exact ih hp.1 hk hin
    · obtain ⟨rfl, rfl, rfl⟩ := singleton_split hlast
      exact braced_of_noJump hp.2
  | loop p body ih ihbody =>
    rcases split_append h with ⟨b', hin, rfl⟩ | ⟨a', rfl, hloop⟩
    · rw [List.append_assoc]
      exact ih hp.1 hk hin
    · cases a' with
      | nil =>
        -- the opening line of the loop
        obtain ⟨rfl, rfl⟩ := List.cons.inj hloop
        refine ⟨fun _ => ?_, fun heq => by cases heq⟩
        rw [List.append_assoc, List.map_append, closing_flatten hp.2]
        simp [closing, writtenLine, Instruction.written, Instruction.line, hk]
        omega
      | cons start a' =>
        obtain ⟨rfl, hinner⟩ := List.cons.inj hloop
        rcases split_append hinner with ⟨b', hin, rfl⟩ | ⟨a'', rfl, hlast⟩
        · have hbody := @ihbody (front ++ (flatten k p ++ [⟨.LSTART, (k + (flatten k p).length + 1 +
            (flatten (k + (flatten k p).length + 1) body).length : Nat), 0⟩]))
            ([⟨.LEND, (k + (flatten k p).length : Nat), 0⟩] ++ rest) a' b' _ hp.2 (by simp [hk, Nat.add_assoc]) hin
          simpa using hbody
        · -- its closing brace
          obtain ⟨rfl, rfl, rfl⟩ := singleton_split hlast
          refine ⟨fun heq => (by cases heq), fun _ => ?_⟩
          rw [← List.append_assoc, List.map_append, List.reverse_append, List.append_nil, List.map_cons,
            List.reverse_cons, List.append_assoc, opening_flatten hp.2]
          simp [opening, writtenLine, Instruction.written, Instruction.line, hk]
          omega

abbrev byteCode (order : Iteration) (p : Prog Command) : List Instruction :=
  (flatten 0 (emit order p)).map Instruction.written

lemma map_line_byteCode (p : Prog Command) :
    (byteCode order p).map Instruction.line = (flatten 0 (emit order p)).map writtenLine := by
  rw [List.map_map]
  rfl

lemma cStep_end {lines : List CLine} {s : Executor} (h : lines.length ≤ s.pos) : cStep lines s = none := by
  simp [cStep, List.getElem?_eq_none h]

/-- An instruction at a position, the line made of it, and where its brace leads. -/
lemma line_at {c : Prog Command} (h : (flatten 0 (emit order c))[pos]? = some i) :
    (byteCode order c)[pos]? = some i.written ∧ ((byteCode order c).map Instruction.line)[pos]? = some (writtenLine i) ∧
      (i.opcode = .LSTART → closing (((byteCode order c).map Instruction.line).drop (pos + 1)) 0 (pos + 1) =
        some i.val1.toNat) ∧
      (i.opcode = .LEND → opening (((byteCode order c).map Instruction.line).take pos).reverse 0 =
        some i.val1.toNat) := by
  obtain ⟨hpos, hi⟩ := List.getElem?_eq_some_iff.1 h
  have hsplit : flatten 0 (emit order c) = (flatten 0 (emit order c)).take pos ++ i :: (flatten 0 (emit order c)).drop
    (pos + 1) := by
    rw [← hi, List.getElem_cons_drop, List.take_append_drop]
  have hbraced := @braced_flatten [] [] _ _ i 0 (emit order c) (noJumps_emit order c) rfl hsplit
  rw [List.nil_append, List.append_nil, Braced, List.length_take_of_le hpos.le, List.map_take, List.map_drop,
    ← map_line_byteCode] at hbraced
  refine ⟨written_at h, ?_, hbraced⟩
  rw [map_line_byteCode, List.getElem?_map, h, Option.map_some]

/-- Where the condition holds a line does what the instruction does. -/
lemma cStep_eq {c : Prog Command} {s : Executor}
    (hexact : ∀ i, (byteCode order c)[s.pos]? = some i → Exact i s.machine) :
    cStep ((byteCode order c).map Instruction.line) s = executeStep (byteCode order c) s := by
  obtain ⟨pos, m⟩ := s
  cases hi : (flatten 0 (emit order c))[pos]? with
  | none =>
    have hend := List.getElem?_eq_none_iff.1 hi
    rw [executeStep_end (by simpa using hend), cStep_end (by simpa using hend)]
  | some i =>
    obtain ⟨hat, hline, hclosing, hopening⟩ := line_at hi
    have hthis := hexact _ hat
    generalize (byteCode order c).map Instruction.line = lines at *
    generalize byteCode order c = instructions at *
    obtain ⟨opcode, val1, val2⟩ := i
    cases opcode with
    | UPDATEVAL =>
      have hval := (updated_eq_iff m.cell val1).2 hthis
      simp [cStep, executeStep, hline, hat, writtenLine, Instruction.written, Instruction.line, hval]
    | INPUT =>
      cases hin : m.input with
      | nil =>
        have hput : m.put 255 = m := Machine.put_eq_self (hthis hin)
        simp [cStep, executeStep, hline, hat, writtenLine, Instruction.written, Instruction.line, hin,
          Machine.getchar, hput]
      | cons ch rest =>
        simp [cStep, executeStep, hline, hat, writtenLine, Instruction.written, Instruction.line, hin, Machine.getchar]
    | LSTART =>
      have hclose := hclosing rfl
      by_cases hcell : m.cell = 0
      · simp [cStep, executeStep, hline, hat, writtenLine, Instruction.written, Instruction.line, hcell, hclose]
      · simp [cStep, executeStep, hline, hat, writtenLine, Instruction.written, Instruction.line, hcell]
    | LEND =>
      have hopen := hopening rfl
      by_cases hcell : m.cell = 0
      · simp [cStep, executeStep, hline, hat, writtenLine, Instruction.written, Instruction.line, hcell, hopen]
      · simp [cStep, executeStep, hline, hat, writtenLine, Instruction.written, Instruction.line, hcell, hopen]
    | SHIFTPTR =>
      simp [cStep, executeStep, hline, hat, writtenLine, Instruction.written, Instruction.line, shifted_written,
        Machine.move]
    | SHIFTPTR_ZERO =>
      simp [cStep, executeStep, hline, hat, writtenLine, Instruction.written, Instruction.line, shifted_written,
        Machine.move]
    | UPDATE_BY_CURR =>
      simp [cStep, executeStep, hline, hat, writtenLine, Instruction.written, Instruction.line, shifted_written,
        MOD, mod]
    | _ => simp [cStep, executeStep, hline, hat, writtenLine, Instruction.written, Instruction.line]

/-- Where it does not hold the current cell is seen to differ. -/
lemma observed_ne {c : Prog Command} {s : Executor}
    (hexact : ¬ ∀ i, (byteCode order c)[s.pos]? = some i → Exact i s.machine) :
    (cStep ((byteCode order c).map Instruction.line) s).map observed ≠
      (executeStep (byteCode order c) s).map observed := by
  obtain ⟨pos, m⟩ := s
  simp only [Classical.not_forall] at hexact
  obtain ⟨j, hj, hexact⟩ := hexact
  rw [List.getElem?_map] at hj
  obtain ⟨i, hi, rfl⟩ := Option.map_eq_some_iff.1 hj
  obtain ⟨hat, hline, -⟩ := line_at hi
  intro heq
  have hcell := congrArg (Option.map fun o => o.2.1 m.ptr) heq
  generalize (byteCode order c).map Instruction.line = lines at *
  generalize byteCode order c = instructions at *
  obtain ⟨opcode, val1, val2⟩ := i
  cases opcode with
  | UPDATEVAL =>
    refine hexact ((updated_eq_iff m.cell val1).1 ?_)
    simpa [cStep, executeStep, hline, hat, writtenLine, Instruction.written, Instruction.line, observed, Machine.put]
      using hcell
  | INPUT =>
    refine hexact fun hin => ?_
    simpa [cStep, executeStep, hline, hat, writtenLine, Instruction.written, Instruction.line, hin, observed,
      Machine.getchar, Machine.put, Machine.cell] using hcell
  | _ => exact hexact trivial

/-- The C program does what the bytecode does just if no sum leaves the range in which both count alike and
nothing is read at the end of the input. -/
theorem sameBehaviour_iff {code : List Char} (h : compileFile order code = some instructions) (input : Bytes) :
    SameBehaviour instructions input ↔ ∀ s, Reaches (executeStep instructions) ⟨0, Machine.start input⟩ s →
      ∀ i, instructions[s.pos]? = some i → Exact i s.machine := by
  cases hvalid : validateCode code with
  | error message => simp [compileFile, compile, hvalid] at h
  | ok =>
    obtain ⟨c, rfl⟩ := exists_text_of_validateCode hvalid
    rw [compileFile, compile_text hvalid] at h
    obtain rfl : byteCode order c = instructions := Option.some.inj h
    exact forall_after_iff (fun s hs => cStep_eq hs) (fun s hs => observed_ne hs)

theorem sameBehaviour_iff_inc : SameBehaviour [⟨.INPUT, 1, 0⟩, ⟨.UPDATEVAL, 1, 0⟩, ⟨.OUTPUT, 1, 0⟩] [3] ↔
    ∀ s, Reaches (executeStep [⟨.INPUT, 1, 0⟩, ⟨.UPDATEVAL, 1, 0⟩, ⟨.OUTPUT, 1, 0⟩]) ⟨0, Machine.start [3]⟩ s →
      ∀ i, [⟨.INPUT, 1, 0⟩, ⟨.UPDATEVAL, 1, 0⟩, ⟨.OUTPUT, 1, 0⟩][s.pos]? = some i → Exact i s.machine :=
  @sameBehaviour_iff _ inOrder [',', '+', '.'] rfl [3]

/-- Reading 254, adding one and printing gives 0 and 255. -/
theorem not_sameBehaviour_inc : ¬ ∀ instructions, compileFile inOrder [',', '+', '.'] = some instructions →
    SameBehaviour instructions [254] := by
  intro h
  have hview := h _ rfl 3
  have hout := congrArg (Option.map fun o => o.1) hview
  exact absurd hout (by decide)

end CppExperiments.Brainfuck

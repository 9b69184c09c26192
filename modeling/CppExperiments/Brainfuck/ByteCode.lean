import CppExperiments.Brainfuck.Interpreter
import Mathlib.Data.List.AList

/-!
# Bytecode

`compileFile` and `executeByteCode`. The order in which the hash map of a distribution loop is iterated
is a parameter.
-/

namespace CppExperiments.Brainfuck

inductive OPCODE where
  | UPDATEVAL | SHIFTPTR | OUTPUT | INPUT | LSTART | LEND
  | CLEAR | SHIFTPTR_ZERO | UPDATE_BY_CURR
  deriving DecidableEq

structure Instruction where
  opcode : OPCODE
  val1 : Int
  val2 : Int
  deriving DecidableEq

/-- The order in which the hash map made from the body of a loop is iterated. -/
def Iteration := { order : List Instruction → List (Int × Int) → List (Int × Int) // ∀ body l, (order body l).Perm l }

/-- The loop of `validateSimpleDistributionLoop`: where the pointer stands, and what has been added where. -/
def distributes : List Instruction → Int → AList (fun _ : Int => Int) → Option (Int × AList (fun _ : Int => Int))
  | [], shift, distributeTo => some (shift, distributeTo)
  | i :: rest, shift, distributeTo =>
    match i.opcode with
    | .SHIFTPTR => distributes rest (shift + i.val1) distributeTo
    | .UPDATEVAL => distributes rest shift (distributeTo.insert shift ((distributeTo.lookup shift).getD 0 + i.val1))
    | _ => none

/-- What a loop with this body distributes, if it is simple. -/
def validateSimpleDistributionLoop (body : List Instruction) : Option (AList (fun _ : Int => Int)) := do
  let (shift, distributeTo) ← distributes body 0 ∅
  if shift = 0 ∧ (distributeTo.lookup 0).getD 0 = -1 then return distributeTo else none

def pairs (distributeTo : AList (fun _ : Int => Int)) : List (Int × Int) :=
  distributeTo.entries.map fun kv => (kv.1, kv.2)

/-- The instructions that replace a distribution loop. -/
def updates (order : Iteration) (body : List Instruction) (distributeTo : AList (fun _ : Int => Int)) :
    List Instruction :=
  ((order.val body (pairs distributeTo)).filter fun kv => kv.2 ≠ 0 ∧ kv.1 ≠ 0).map
    (fun kv => ⟨.UPDATE_BY_CURR, kv.1, kv.2⟩) ++ [⟨.CLEAR, 1, 0⟩]

structure Compiler where
  stk : List Nat
  instructions : List Instruction

namespace Compiler

/-- A run of equal commands is one instruction. -/
def merge (instructions : List Instruction) (currOpCode : OPCODE) (shiftVal : Int) : List Instruction :=
  match instructions.getLast? with
  | some back =>
    if back.opcode = currOpCode then instructions.dropLast ++ [{ back with val1 := back.val1 + shiftVal }]
    else instructions ++ [⟨currOpCode, shiftVal, 0⟩]
  | none => [⟨currOpCode, shiftVal, 0⟩]

/-- The loop from `loopStartPos` to the end of the instructions is closed, and rewritten if it is of a known kind.
The third case reads an instruction that has just been popped, and still stands in the memory of the vector. -/
def closeLoop (order : Iteration) (loopStartPos : Nat) (instructions : List Instruction) : List Instruction :=
  let loopEndPos := instructions.length
  let instructions := instructions.modify loopStartPos (fun i => { i with val1 := loopEndPos }) ++
    [⟨.LEND, loopStartPos, 0⟩]
  let first := instructions[loopStartPos + 1]?
  if loopEndPos - loopStartPos = 2 ∧ first.map Instruction.opcode = some .UPDATEVAL then
    instructions.dropLast.dropLast.dropLast ++ [⟨.CLEAR, 1, 0⟩]
  else if loopEndPos - loopStartPos = 2 ∧ first.map Instruction.opcode = some .SHIFTPTR then
    instructions.dropLast.dropLast.dropLast ++ [⟨.SHIFTPTR_ZERO, (first.map Instruction.val1).getD 0, 0⟩]
  else
    let body := (instructions.take loopEndPos).drop (loopStartPos + 1)
    match validateSimpleDistributionLoop body with
    | some distributeTo => instructions.take loopStartPos ++ updates order body distributeTo
    | none => instructions

/-- One character; nothing for a closing bracket without an opening one. -/
def next (order : Iteration) (c : Compiler) (ch : Char) : Option Compiler :=
  if ch = '+' ∨ ch = '-' ∨ ch = '>' ∨ ch = '<' then
    let shiftVal := if ch = '+' ∨ ch = '>' then 1 else -1
    let currOpCode : OPCODE := if ch = '+' ∨ ch = '-' then .UPDATEVAL else .SHIFTPTR
    some { c with instructions := merge c.instructions currOpCode shiftVal }
  else if ch = '.' ∨ ch = ',' then
    let currOpCode : OPCODE := if ch = '.' then .OUTPUT else .INPUT
    some { c with instructions := c.instructions ++ [⟨currOpCode, 1, 0⟩] }
  else if ch = '[' then some ⟨c.instructions.length :: c.stk, c.instructions ++ [⟨.LSTART, -1, 0⟩]⟩
  else if ch = ']' then
    match c.stk with
    | [] => none
    | loopStartPos :: stk => some ⟨stk, closeLoop order loopStartPos c.instructions⟩
  else some c

end Compiler

/-- The instructions that `compileFile` has before it writes them; none if the code is not valid. -/
def compile (order : Iteration) (code : List Char) : Option (List Instruction) :=
  match validateCode code with
  | .error _ => none
  | .ok () => do
    let c ← code.foldlM (Compiler.next order) ⟨[], []⟩
    return c.instructions

def Instruction.written (i : Instruction) : Instruction :=
  match i.opcode with
  | .SHIFTPTR | .SHIFTPTR_ZERO | .UPDATE_BY_CURR => { i with val1 := i.val1.tmod MEMORY_SIZE }
  | .UPDATEVAL => { i with val1 := i.val1.tmod 255 }
  | _ => i

def compileFile (order : Iteration) (code : List Char) : Option (List Instruction) := do
  let instructions ← compile order code
  return instructions.map Instruction.written

structure Executor where
  pos : Nat
  machine : Machine

/-- One turn of the loop of `executeByteCode`, of the inner loop in the case of SHIFTPTR_ZERO. -/
def executeStep (instructions : List Instruction) (s : Executor) : Option Executor := do
  let i ← instructions[s.pos]?
  let m := s.machine
  match i.opcode with
  | .UPDATEVAL => return ⟨s.pos + 1, m.put (UInt8.ofInt (mod (m.cell.toNat + i.val1) 255))⟩
  | .SHIFTPTR => return ⟨s.pos + 1, m.move i.val1⟩
  | .INPUT => return ⟨s.pos + 1, m.getchar⟩
  | .OUTPUT => return ⟨s.pos + 1, m.putchar⟩
  | .LSTART => return ⟨(if m.cell = 0 then i.val1.toNat else s.pos) + 1, m⟩
  | .LEND => return ⟨(if m.cell = 0 then s.pos else i.val1.toNat) + 1, m⟩
  | .CLEAR => return ⟨s.pos + 1, m.put 0⟩
  | .SHIFTPTR_ZERO => if m.cell ≠ 0 then return ⟨s.pos, m.move i.val1⟩ else return ⟨s.pos + 1, m⟩
  | .UPDATE_BY_CURR =>
    let copyTo := place m.ptr i.val1
    let updatedVal := mod ((m.memory copyTo).toNat + i.val2 * m.cell.toNat) 255
    return ⟨s.pos + 1, { m with memory := Function.update m.memory copyTo (UInt8.ofInt updatedVal) }⟩

/-- `executeByteCode` comes to the end of the instructions. -/
def Executes (instructions : List Instruction) (m m' : Machine) : Prop :=
  ∃ s, Reaches (executeStep instructions) ⟨0, m⟩ s ∧ instructions.length ≤ s.pos ∧ s.machine = m'

end CppExperiments.Brainfuck

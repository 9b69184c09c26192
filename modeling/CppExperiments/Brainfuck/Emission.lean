import CppExperiments.Brainfuck.ByteCode

/-!
# What the compiler emits

The bytecode of a program with loops, before jump targets: a program with loops again, of instructions.
The one pass of `compileFile` with its stack makes the flat form of it.
-/

namespace CppExperiments.Brainfuck

/-- The instructions from position `k` on, with the targets of the jumps. -/
def flatten : Nat → Prog Instruction → List Instruction
  | _, .nil => []
  | k, .snoc p i => flatten k p ++ [i]
  | k, .loop p body =>
    let start := k + (flatten k p).length
    let inner := flatten (start + 1) body
    flatten k p ++ ⟨.LSTART, (start + 1 + inner.length : Nat), 0⟩ :: (inner ++ [⟨.LEND, start, 0⟩])

def mergeInto (p : Prog Instruction) (opcode : OPCODE) (val : Int) : Prog Instruction :=
  match p with
  | .snoc q i => if i.opcode = opcode then .snoc q { i with val1 := i.val1 + val } else .snoc p ⟨opcode, val, 0⟩
  | p => .snoc p ⟨opcode, val, 0⟩

/-- What a loop with this body is rewritten to. -/
def rewritten (order : Iteration) (body : List Instruction) : Option (List Instruction) :=
  if body.map Instruction.opcode = [.UPDATEVAL] then some [⟨.CLEAR, 1, 0⟩]
  else if body.map Instruction.opcode = [.SHIFTPTR] then
    some [⟨.SHIFTPTR_ZERO, (body.head?.map Instruction.val1).getD 0, 0⟩]
  else (validateSimpleDistributionLoop body).map (updates order body)

def close (order : Iteration) (p body : Prog Instruction) : Prog Instruction :=
  match body.straight.bind (rewritten order) with
  | some l => p.append l
  | none => .loop p body

def emitCommand (p : Prog Instruction) (ch : Command) : Prog Instruction :=
  if ch.val = '+' ∨ ch.val = '-' ∨ ch.val = '>' ∨ ch.val = '<' then
    mergeInto p (if ch.val = '+' ∨ ch.val = '-' then .UPDATEVAL else .SHIFTPTR)
      (if ch.val = '+' ∨ ch.val = '>' then 1 else -1)
  else if ch.val = '.' ∨ ch.val = ',' then .snoc p ⟨if ch.val = '.' then .OUTPUT else .INPUT, 1, 0⟩
  else p

def emit (order : Iteration) : Prog Command → Prog Instruction
  | .nil => .nil
  | .snoc p ch => emitCommand (emit order p) ch
  | .loop p body => close order (emit order p) (emit order body)

variable {order : Iteration} {instructions body l : List Instruction} {p q : Prog Instruction} {k : Nat} {val : Int}

/-- Nothing that follows is merged into the last of these instructions. -/
def Fixed (instructions : List Instruction) : Prop :=
  ∀ i, instructions.getLast? = some i → i.opcode ≠ .UPDATEVAL ∧ i.opcode ≠ .SHIFTPTR

lemma merge_of_getLast {i : Instruction} {opcode : OPCODE} (h : instructions.getLast? = some i)
    (hi : i.opcode ≠ opcode) : Compiler.merge instructions opcode val = instructions ++ [⟨opcode, val, 0⟩] := by
  simp [Compiler.merge, h, hi]

lemma merge_flatten (hfixed : Fixed instructions) {opcode : OPCODE} (hop : opcode = .UPDATEVAL ∨ opcode = .SHIFTPTR)
    (p : Prog Instruction) : Compiler.merge (instructions ++ flatten k p) opcode val =
      instructions ++ flatten k (mergeInto p opcode val) := by
  cases p with
  | nil =>
    rw [mergeInto, flatten, flatten, flatten, List.append_nil, List.nil_append]
    · cases hlast : instructions.getLast? with
      | none =>
        rw [List.getLast?_eq_none_iff.1 hlast]
        rfl
      | some i =>
        obtain ⟨hval, hptr⟩ := hfixed i hlast
        refine merge_of_getLast hlast ?_
        rcases hop with rfl | rfl
        · exact hval
        · exact hptr
    · simp
  | snoc q i =>
    by_cases hi : i.opcode = opcode
    · simp [Compiler.merge, mergeInto, flatten, hi, ← List.append_assoc]
    · rw [merge_of_getLast (i := i) (by simp [flatten]) hi]
      simp [mergeInto, hi, flatten]
  | loop q body =>
    have hend : OPCODE.LEND ≠ opcode := by rcases hop with rfl | rfl <;> simp
    have hlast : (instructions ++ flatten k (q.loop body)).getLast? =
        some ⟨.LEND, (k + (flatten k q).length : Nat), 0⟩ := by
      rw [flatten, ← List.cons_append, ← List.append_assoc, ← List.append_assoc, List.getLast?_concat]
    rw [merge_of_getLast hlast hend]
    simp [mergeInto, flatten]

lemma flatten_append (l : List Instruction) (p : Prog Instruction) : flatten k (p.append l) = flatten k p ++ l := by
  induction l generalizing p with
  | nil => simp [Prog.append]
  | cons i l ih =>
    change flatten k ((p.snoc i).append l) = _
    rw [ih, flatten, List.append_assoc, List.singleton_append]

lemma flatten_of_straight (h : p.straight = some l) : flatten k p = l := by
  induction p generalizing l with
  | nil => exact Option.some.inj h
  | loop p body => cases h
  | snoc p i ih =>
    cases hp : p.straight with
    | none => simp [Prog.straight, hp] at h
    | some l' =>
      rw [Prog.straight, hp] at h
      rw [flatten, ih hp]
      exact Option.some.inj h

lemma lstart_of_not_straight (h : p.straight = none) : ∃ i ∈ flatten k p, i.opcode = .LSTART := by
  induction p with
  | nil => cases h
  | loop p body => exact ⟨_, List.mem_append_right _ (List.mem_cons_self ..), rfl⟩
  | snoc p i ih =>
    obtain ⟨j, hj, hop⟩ := ih (by simpa [Prog.straight] using h)
    exact ⟨j, by rw [flatten]; exact List.mem_append_left _ hj, hop⟩

lemma distributes_eq_none (h : ∃ i ∈ body, i.opcode = .LSTART) (shift : Int)
    (distributeTo : AList (fun _ : Int => Int)) :
    distributes body shift distributeTo = none := by
  induction body generalizing shift distributeTo with
  | nil => simp at h
  | cons j rest ih =>
    by_cases hj : j.opcode = .LSTART
    · simp [distributes, hj]
    · have hrest : ∃ i ∈ rest, i.opcode = .LSTART := by simpa [hj] using h
      rw [distributes]
      cases j.opcode <;> simp [ih hrest]

lemma rewritten_eq_none (h : ∃ i ∈ body, i.opcode = .LSTART) : rewritten order body = none := by
  have hmem : OPCODE.LSTART ∈ body.map Instruction.opcode := by simpa using h
  rw [rewritten, if_neg (fun heq => by simp [heq] at hmem), if_neg (fun heq => by simp [heq] at hmem),
    validateSimpleDistributionLoop, distributes_eq_none h]
  rfl

lemma modify_length (front back : List Instruction) (i : Instruction) (f : Instruction → Instruction) :
    (front ++ i :: back).modify front.length f = front ++ f i :: back := by
  induction front with
  | nil => rfl
  | cons j front ih => rw [List.cons_append, List.length_cons, List.modify_succ_cons, ih, List.cons_append]

variable {i j : Instruction}

/-- How `closeLoop` finds out that a loop has one instruction, and which. -/
lemma onlyOp_iff {opcode : OPCODE} :
    (instructions.length + 1 + body.length - instructions.length = 2 ∧
      (instructions ++ i :: (body ++ [j]))[instructions.length + 1]?.map Instruction.opcode = some opcode) ↔
      body.map Instruction.opcode = [opcode] := by
  rw [List.getElem?_append_right (Nat.le_succ _), Nat.succ_sub (le_refl _), Nat.sub_self]
  cases body with
  | nil => simp
  | cons a rest =>
    cases rest with
    | nil =>
      have htwo : instructions.length + 1 + 1 - instructions.length = 2 := by omega
      simp [htwo]
    | cons b rest =>
      have htwo : ¬ instructions.length + 1 + (rest.length + 1 + 1) - instructions.length = 2 := by omega
      simp [htwo]

lemma inside_eq : ((instructions ++ i :: (body ++ [j])).take (instructions.length + 1 + body.length)).drop
    (instructions.length + 1) = body := by
  have hlen : instructions.length + 1 + body.length = (instructions ++ i :: body).length := by
    simp
    omega
  have hsplit : instructions ++ i :: body = (instructions ++ [i]) ++ body := by simp
  rw [← List.cons_append, ← List.append_assoc, hlen, List.take_left, hsplit]
  exact List.drop_left' (by simp)

/-- Closing a loop rewrites the instructions since it was opened, or sets the targets of its jumps. -/
lemma closeLoop_eq (order : Iteration) (instructions body : List Instruction) (i : Instruction) :
    Compiler.closeLoop order instructions.length (instructions ++ i :: body) =
      instructions ++ (rewritten order body).getD
        ({ i with val1 := (instructions.length + 1 + body.length : Nat) } ::
          (body ++ [⟨.LEND, instructions.length, 0⟩])) := by
  have hlen : (instructions ++ i :: body).length = instructions.length + 1 + body.length := by
    simp
    omega
  rw [Compiler.closeLoop, rewritten, modify_length, hlen]
  simp only [List.append_assoc, List.cons_append, onlyOp_iff, inside_eq, List.take_left]
  by_cases hval : body.map Instruction.opcode = [.UPDATEVAL]
  · obtain ⟨j, rfl, hj⟩ := List.map_eq_singleton_iff.1 hval
    simp [hj]
  · rw [if_neg hval, if_neg hval]
    by_cases hptr : body.map Instruction.opcode = [.SHIFTPTR]
    · obtain ⟨j, rfl, hj⟩ := List.map_eq_singleton_iff.1 hptr
      simp [hj]
    · rw [if_neg hptr, if_neg hptr]
      cases validateSimpleDistributionLoop body <;> simp

lemma fixed_nil : Fixed [] := by
  intro i hi
  cases hi

lemma fixed_lstart (instructions : List Instruction) : Fixed (instructions ++ [⟨.LSTART, -1, 0⟩]) := by
  intro i hi
  rw [List.getLast?_concat] at hi
  obtain rfl := Option.some.inj hi
  simp

lemma closeLoop_flatten (order : Iteration) (instructions : List Instruction) (p body : Prog Instruction) :
    Compiler.closeLoop order (instructions ++ flatten instructions.length p).length
      (instructions ++ flatten instructions.length p ++
        ⟨.LSTART, -1, 0⟩ :: flatten ((instructions ++ flatten instructions.length p).length + 1) body) =
      instructions ++ flatten instructions.length (close order p body) := by
  rw [closeLoop_eq, close]
  cases hbody : body.straight with
  | none =>
    rw [rewritten_eq_none (lstart_of_not_straight hbody), Option.bind_none, flatten]
    simp
  | some l =>
    rw [flatten_of_straight hbody, Option.bind_some]
    cases hl : rewritten order l with
    | none =>
      simp only [flatten, flatten_of_straight hbody]
      simp
    | some l' => simp [flatten_append]

lemma next_command (hfixed : Fixed instructions) (stk : List Nat) (p : Prog Instruction) (ch : Command) :
    Compiler.next order ⟨stk, instructions ++ flatten k p⟩ ch.val =
      some ⟨stk, instructions ++ flatten k (emitCommand p ch)⟩ := by
  rw [Compiler.next, emitCommand]
  by_cases hmerged : ch.val = '+' ∨ ch.val = '-' ∨ ch.val = '>' ∨ ch.val = '<'
  · have hop : ∀ c : Prop, [Decidable c] → (if c then OPCODE.UPDATEVAL else .SHIFTPTR) = .UPDATEVAL ∨
        (if c then OPCODE.UPDATEVAL else .SHIFTPTR) = .SHIFTPTR := by
      intro c _
      split <;> simp
    rw [if_pos hmerged, if_pos hmerged]
    dsimp only
    rw [merge_flatten hfixed (hop _)]
  · rw [if_neg hmerged, if_neg hmerged]
    by_cases hio : ch.val = '.' ∨ ch.val = ','
    · rw [if_pos hio, if_pos hio, flatten, ← List.append_assoc]
    · rw [if_neg hio, if_neg hio, if_neg ch.property.1, if_neg ch.property.2]

lemma next_open (c : Compiler) : Compiler.next order c '[' =
    some ⟨c.instructions.length :: c.stk, c.instructions ++ [⟨.LSTART, -1, 0⟩]⟩ := by
  simp [Compiler.next]

lemma next_close (start : Nat) (stk : List Nat) (instructions : List Instruction) :
    Compiler.next order ⟨start :: stk, instructions⟩ ']' = some ⟨stk, Compiler.closeLoop order start instructions⟩ := by
  simp [Compiler.next]

lemma foldlM_text (hfixed : Fixed instructions) (stk : List Nat) (p : Prog Command) :
    (text p).foldlM (Compiler.next order) ⟨stk, instructions⟩ =
      some ⟨stk, instructions ++ flatten instructions.length (emit order p)⟩ := by
  induction p generalizing instructions stk with
  | nil => simp [text, emit, flatten]
  | snoc p ch ih =>
    rw [text, List.foldlM_append, ih hfixed]
    simp [next_command hfixed, emit]
  | loop p body ih ihbody =>
    have hclose := closeLoop_flatten order instructions (emit order p) (emit order body)
    rw [text, List.foldlM_append, ih hfixed, emit, ← hclose]
    generalize instructions ++ flatten instructions.length (emit order p) = front
    have hin := ihbody (fixed_lstart front) (front.length :: stk)
    rw [List.length_append, List.length_singleton, List.append_assoc, List.singleton_append] at hin
    simp [next_open, next_close, hin]

/-- The compiler makes the flat form of what the program is rewritten to. -/
theorem compile_text {p : Prog Command} (h : validateCode (text p) = .ok ()) :
    compile order (text p) = some (flatten 0 (emit order p)) := by
  rw [compile, h]
  simp [foldlM_text fixed_nil]

end CppExperiments.Brainfuck

import CppExperiments.Brainfuck.Rewriting

/-!
# Interpreter and bytecode

Where the bytecode counts cells modulo 255 instead of 256, and where an update changes the cell that it
reads, it goes astray. A run without such steps does what the interpreter does.
-/

namespace CppExperiments.Brainfuck

/-- Before the step the instruction, as compiled, is not about to go astray: the sum has the same rest modulo 255
and 256, and an update by the current cell leaves that cell alone unless it is zero. -/
def Clean (i : Instruction) (m : Machine) : Prop :=
  match i.opcode with
  | .UPDATEVAL => (m.cell.toNat + i.val1) % 65280 < 255
  | .UPDATE_BY_CURR =>
    (place m.ptr i.val1 = m.ptr → m.cell = 0) ∧
      ((m.memory (place m.ptr i.val1)).toNat + i.val2 * m.cell.toNat) % 65280 < 255
  | _ => True

def Unclean (instructions : List Instruction) (s : Executor) : Prop :=
  ∃ i, instructions[s.pos]? = some i ∧ ¬ Clean i s.machine

instance (i : Instruction) (m : Machine) : Decidable (Clean i m) := by
  unfold Clean
  cases i.opcode <;> infer_instance

/-- No step of the bytecode goes astray. -/
def CleanRun (order : Iteration) (code : List Char) (input : Bytes) : Prop :=
  ∀ instructions, compile order code = some instructions → ∀ s,
    Reaches (executeStep (instructions.map Instruction.written)) ⟨0, Machine.start input⟩ s → ¬ Unclean instructions s

/-- The file as it is read again: its header of nine letters is compared as a text, which goes on to a zero, so `behind`,
the byte that lies behind the buffer, is compared as well; `none` where the file is taken for corrupted. -/
def readByteCodeFile (behind : UInt8) (instructions : List Instruction) : Option (List Instruction) :=
  if behind = 0 then some instructions else none

/-- When the interpreter ends, the bytecode ends with the same output, memory and pointer. -/
def Agrees (order : Iteration) (behind : UInt8) (code : List Char) (input : Bytes) : Prop :=
  ∃ instructions, (compileFile order code).bind (readByteCodeFile behind) = some instructions ∧
    ∀ m, Interprets code (Machine.start input) m →
    ∃ m', Executes instructions (Machine.start input) m' ∧ m'.output = m.output ∧ m'.memory = m.memory ∧ m'.ptr = m.ptr

variable {order : Iteration} {instructions rest : List Instruction} {i : Instruction} {m m' : Machine} {pos : Nat}

lemma tmod_emod (val : Int) (n : Int) : val.tmod n % n = val % n := by
  rw [Int.tmod_def, sub_eq_add_neg, ← mul_neg, Int.add_mul_emod_self_left]

lemma place_tmod (ptr : Fin MEMORY_SIZE) (shift : Int) : place ptr (shift.tmod MEMORY_SIZE) = place ptr shift := by
  rw [place_eq_iff, Int.add_emod, tmod_emod, ← Int.add_emod]

lemma ofInt_toNat (val : UInt8) : UInt8.ofInt val.toNat = val := by
  rw [UInt8.ofInt]
  have hlt : val.toNat < 256 := val.toNat_lt
  have hval : ((val.toNat : Int) % 2 ^ 8).toNat = val.toNat := by omega
  rw [hval, UInt8.ofNat_toNat]

lemma ofInt_mod {x : Int} (h : x % 65280 < 255) : UInt8.ofInt (mod x 255) = UInt8.ofInt x := by
  have hrest : x % 255 % 2 ^ 8 = x % 2 ^ 8 := by omega
  rw [mod_eq _ (by decide), UInt8.ofInt, hrest, UInt8.ofInt]

/-- The turns of `executeByteCode` in bytecode as it is written. -/
abbrev step (instructions : List Instruction) : Executor → Option Executor :=
  executeStep (instructions.map Instruction.written)

lemma written_at (h : instructions[pos]? = some i) : (instructions.map Instruction.written)[pos]? = some i.written := by
  rw [List.getElem?_map, h, Option.map_some]

lemma move_tmod (shift : Int) : m.move (shift.tmod MEMORY_SIZE) = m.move shift := by
  rw [Machine.move, Machine.move, place_tmod]

/-- A step that does not go astray does what the instruction is for. -/
lemma step_of_does (h : instructions[pos]? = some i) (hi : i.opcode ≠ .SHIFTPTR_ZERO) (hclean : Clean i m)
    (hdoes : Does i m m') : step instructions ⟨pos, m⟩ = some ⟨pos + 1, m'⟩ := by
  have hat := written_at h
  obtain ⟨opcode, val1, val2⟩ := i
  cases opcode with
  | UPDATEVAL =>
    simp only [Does, Clean] at hdoes hclean
    have hrest : ((m.cell.toNat : Int) + val1.tmod 255) % 255 = (m.cell.toNat + val1) % 255 := by
      rw [Int.add_emod, tmod_emod, ← Int.add_emod]
    have hval : UInt8.ofInt (mod (m.cell.toNat + val1.tmod 255) 255) = m.cell + UInt8.ofInt val1 := by
      rw [mod_eq _ (by decide), hrest, ← mod_eq _ (by decide), ofInt_mod hclean, UInt8.ofInt_add, ofInt_toNat]
    simp [executeStep, hat, Instruction.written, hdoes, hval]
  | UPDATE_BY_CURR =>
    simp only [Does, Clean] at hdoes hclean
    have hother : ¬ (place m.ptr val1 = m.ptr ∧ m.NonZero) := fun hself => hself.2 (hclean.1 hself.1)
    have hval := ofInt_mod hclean.2
    rw [UInt8.ofInt_add, UInt8.ofInt_mul, ofInt_toNat, ofInt_toNat] at hval
    simp [executeStep, hat, Instruction.written, place_tmod, hdoes.resolve_left hother, Machine.addAt, hval]
  | SHIFTPTR =>
    simp only [Does] at hdoes
    simp [executeStep, hat, Instruction.written, hdoes, move_tmod]
  | SHIFTPTR_ZERO => exact absurd rfl hi
  | LSTART => exact absurd hdoes id
  | LEND => exact absurd hdoes id
  | _ =>
    simp only [Does] at hdoes
    simp [executeStep, hat, Instruction.written, hdoes]

lemma executeStep_end {s : Executor} (h : instructions.length ≤ s.pos) : executeStep instructions s = none := by
  simp [executeStep, List.getElem?_eq_none h]

lemma leads_search {s t : Machine} (h : instructions[pos]? = some i) (hi : i.opcode = .SHIFTPTR_ZERO)
    (hwhile : While Machine.NonZero (fun m m' => m' = m.move i.val1) s t) :
    Leads (step instructions) (Unclean instructions) ⟨pos, s⟩ ⟨pos + 1, t⟩ := by
  have hat := written_at h
  induction hwhile with
  | stop hs =>
    refine Leads.head ?_ (Leads.refl _)
    simp [executeStep, hat, Instruction.written, hi, not_not.1 hs]
  | again hs hR _ ih =>
    refine Leads.head ?_ ih
    simp only [executeStep, hat, Instruction.written, hi, Option.bind_eq_bind, Option.bind_some, move_tmod, hR]
    exact if_pos hs

lemma leads_of_does (h : instructions[pos]? = some i) (hdoes : Does i m m') :
    Leads (step instructions) (Unclean instructions) ⟨pos, m⟩ ⟨pos + 1, m'⟩ := by
  by_cases hi : i.opcode = .SHIFTPTR_ZERO
  · simp only [Does, hi] at hdoes
    exact leads_search h hi hdoes
  · by_cases hclean : Clean i m
    · exact Leads.head (step_of_does h hi hclean hdoes) (Leads.refl _)
    · exact Leads.of_bad ⟨i, h, hclean⟩

lemma step_lstart {target : Nat} (h : instructions[pos]? = some ⟨.LSTART, target, 0⟩) :
    step instructions ⟨pos, m⟩ = some ⟨(if m.cell = 0 then target else pos) + 1, m⟩ := by
  simp [executeStep, written_at h, Instruction.written]

lemma step_lend {target : Nat} (h : instructions[pos]? = some ⟨.LEND, target, 0⟩) :
    step instructions ⟨pos, m⟩ = some ⟨(if m.cell = 0 then pos else target) + 1, m⟩ := by
  simp [executeStep, written_at h, Instruction.written]

/-- A loop that is left in the end, from the first instruction of its body. -/
lemma leads_loop {start close : Nat} {R : Machine → Machine → Prop}
    (hbody : ∀ m m', R m m' → Leads (step instructions) (Unclean instructions) ⟨start + 1, m⟩ ⟨close, m'⟩)
    (hclose : instructions[close]? = some ⟨.LEND, start, 0⟩) (hloop : While Machine.NonZero R m m') (hm : m.NonZero) :
    Leads (step instructions) (Unclean instructions) ⟨start + 1, m⟩ ⟨close + 1, m'⟩ := by
  induction hloop with
  | stop hs => exact absurd hm hs
  | @again s t u hs hR hrest ih =>
    refine (hbody s t hR).trans ?_
    by_cases ht : t.cell = 0
    · obtain rfl : t = u := by
        cases hrest with
        | stop _ => rfl
        | again hguard _ _ => exact absurd ht hguard
      exact Leads.head (by rw [step_lend hclose, if_pos ht]) (Leads.refl _)
    · exact Leads.head (by rw [step_lend hclose, if_neg ht]) (ih ht)

/-- Flat code does what the program with loops is for. -/
theorem leads_flatten (p : Prog Instruction) (hcode : instructions.drop pos = flatten pos p ++ rest)
    (h : Intends p m m') : Leads (step instructions) (Unclean instructions) ⟨pos, m⟩
      ⟨pos + (flatten pos p).length, m'⟩ := by
  induction p generalizing pos rest m m' with
  | nil =>
    obtain rfl : m = m' := h
    exact Leads.refl _
  | snoc p i ih =>
    obtain ⟨m₁, hp, hdoes⟩ := h
    rw [flatten, List.append_assoc] at hcode
    rw [flatten, List.length_append, List.length_singleton, ← Nat.add_assoc]
    exact (ih hcode hp).trans (leads_of_does (getElem?_of_drop (drop_add hcode)) hdoes)
  | loop p body ih ihbody =>
    obtain ⟨m₁, hp, hloop⟩ := h
    rw [flatten, List.append_assoc, List.cons_append, List.append_assoc] at hcode
    have hstart := drop_add hcode
    have hinner := drop_succ hstart
    have hclose := getElem?_of_drop (drop_add hinner)
    have hlen : pos + (flatten pos (p.loop body)).length =
        pos + (flatten pos p).length + 1 + (flatten (pos + (flatten pos p).length + 1) body).length + 1 := by
      simp only [flatten, List.length_append, List.length_cons, List.length_nil]
      omega
    rw [hlen]
    refine (ih hcode hp).trans ?_
    by_cases hm : m₁.cell = 0
    · obtain rfl : m₁ = m' := by
        cases hloop with
        | stop _ => rfl
        | again hguard _ _ => exact absurd hm hguard
      exact Leads.head (by rw [step_lstart (getElem?_of_drop hstart), if_pos hm]) (Leads.refl _)
    · exact Leads.head (by rw [step_lstart (getElem?_of_drop hstart), if_neg hm])
        (leads_loop (fun s t hst => ihbody hinner hst) hclose hloop hm)

/-- In a run without a step that goes astray the bytecode does what the interpreter does. -/
theorem agrees_of_cleanRun (order : Iteration) {behind : UInt8} {code : List Char} {input : Bytes}
    (hbehind : behind = 0) (hvalid : validateCode code = .ok ()) (hclean : CleanRun order code input) :
    Agrees order behind code input := by
  obtain ⟨p, rfl⟩ := exists_text_of_validateCode hvalid
  have hcompile : compile order (text p) = _ := compile_text hvalid
  refine ⟨(flatten 0 (emit order p)).map Instruction.written, ?_, fun m hm => ?_⟩
  · rw [compileFile, hcompile, hbehind]
    rfl
  have hcode : (flatten 0 (emit order p)).drop 0 = flatten 0 (emit order p) ++ [] := by simp
  have hleads := leads_flatten (emit order p) hcode (intends_emit order (means_of_interprets hm))
  refine ⟨m, ⟨_, hleads.reaches (hclean _ hcompile), ?_, rfl⟩, rfl, rfl, rfl⟩
  simp

/-- The maps are iterated as they are built. -/
def inOrder : Iteration := ⟨fun _ l => l, fun _ l => List.Perm.refl l⟩

/-- One is added to a cell that holds 254. -/
theorem not_agrees_inc : ¬ Agrees inOrder 0 [',', '+', '.'] [254] := by
  rintro ⟨instructions, hcompile, hall⟩
  obtain rfl : [⟨.INPUT, 1, 0⟩, ⟨.UPDATEVAL, 1, 0⟩, ⟨.OUTPUT, 1, 0⟩] = instructions := Option.some.inj hcompile
  obtain ⟨m', ⟨s, hs, hend, rfl⟩, hout, -⟩ := hall _ ⟨_, ⟨3, rfl⟩, le_rfl, rfl⟩
  obtain rfl := hs.halted_unique (executeStep_end hend) ⟨3, rfl⟩ rfl
  exact absurd hout (by decide)

/-- The bytecode of a distribution loop. -/
def addingByteCode : List Instruction :=
  [⟨.INPUT, 1, 0⟩, ⟨.UPDATE_BY_CURR, 1, 1⟩, ⟨.CLEAR, 1, 0⟩, ⟨.SHIFTPTR, 1, 0⟩, ⟨.OUTPUT, 1, 0⟩]

/-- Adding the input to the next cell. -/
theorem agrees_adding : Agrees inOrder 0 [',', '[', '-', '>', '+', '<', ']', '>', '.'] [3] := by
  apply agrees_of_cleanRun inOrder rfl rfl
  intro instructions hcompile s hs
  obtain rfl : addingByteCode = instructions := Option.some.inj hcompile
  obtain ⟨k, hk, hafter⟩ := hs.exists_after (n := 5) rfl rfl
  rintro ⟨i, hi, hbad⟩
  have hall : ∀ k ≤ 5, (after (step addingByteCode) k ⟨0, Machine.start [3]⟩).all (fun s =>
      addingByteCode[s.pos]?.all fun i => decide (Clean i s.machine)) = true := by decide
  have hclean := hall k hk
  rw [hafter, Option.all_some, hi, Option.all_some] at hclean
  exact hbad (of_decide_eq_true hclean)

end CppExperiments.Brainfuck

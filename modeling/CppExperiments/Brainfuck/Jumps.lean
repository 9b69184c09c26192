import CppExperiments.Brainfuck.Emission

/-!
# Jump targets

After every character that `compileFile` has read, the brackets that are still open are those on its
stack, and the jumps of all other loops lead to each other, whatever has been rewritten so far.
-/

namespace CppExperiments.Brainfuck

/-- There is such an instruction at `k`, with this target. -/
def At (instructions : List Instruction) (opcode : OPCODE) (k : Nat) (target : Int) : Prop :=
  ∃ i, instructions[k]? = some i ∧ i.opcode = opcode ∧ i.val1 = target

/-- The loops in a list of instructions, of which those on the stack are still open. -/
structure Matched (stk : List Nat) (instructions : List Instruction) : Prop where
  sorted : stk.Pairwise (· > ·)
  opened : ∀ k, k ∈ stk ↔ At instructions .LSTART k (-1)
  starts : ∀ k target, At instructions .LSTART k target → k ∉ stk →
    ∃ e : Nat, target = e ∧ k < e ∧ e < instructions.length
  ends : ∀ e target, At instructions .LEND e target → ∃ k : Nat, target = k ∧ k < e
  inverse : ∀ k e : Nat, At instructions .LSTART k e ↔ At instructions .LEND e k
  nested : ∀ k e k' e' : Nat, At instructions .LSTART k e → At instructions .LSTART k' e' → k < k' → k' < e → e' < e
  around : ∀ k e k' : Nat, At instructions .LSTART k e → k' ∈ stk → k < k' → e < k'

/-- No jumps. -/
def Plain (instructions : List Instruction) : Prop :=
  ∀ i ∈ instructions, i.opcode ≠ .LSTART ∧ i.opcode ≠ .LEND

abbrev IsJump (opcode : OPCODE) : Prop := opcode = .LSTART ∨ opcode = .LEND

variable {order : Iteration} {instructions instructions' front body : List Instruction} {stk : List Nat}
  {opcode : OPCODE} {k e : Nat} {target target' : Int} {i : Instruction}

lemma At.lt_length (h : At instructions opcode k target) : k < instructions.length := by
  obtain ⟨i, hi, -⟩ := h
  exact (List.getElem?_eq_some_iff.1 hi).1

lemma At.target_unique (h : At instructions opcode k target) (h' : At instructions opcode k target') :
    target = target' := by
  obtain ⟨i, hi, -, rfl⟩ := h
  obtain ⟨j, hj, -, rfl⟩ := h'
  rw [hi] at hj
  rw [Option.some.inj hj]

lemma at_append_plain (hplain : Plain body) (hop : IsJump opcode) :
    At (front ++ body) opcode k target ↔ At front opcode k target := by
  by_cases hk : k < front.length
  · rw [At, At, List.getElem?_append_left hk]
  · rw [At, At, List.getElem?_append_right (Nat.le_of_not_lt hk), List.getElem?_eq_none (Nat.le_of_not_lt hk)]
    constructor
    · rintro ⟨i, hi, rfl, -⟩
      have hno := hplain i (List.mem_of_getElem? hi)
      exact absurd hop (not_or.2 hno)
    · rintro ⟨i, hi, -⟩
      cases hi

lemma at_append_left (h : k < front.length) :
    At (front ++ body) opcode k target ↔ At front opcode k target := by
  rw [At, At, List.getElem?_append_left h]

/-- Only the jumps matter. -/
lemma Matched.congr (h : Matched stk instructions)
    (hat : ∀ opcode k target, IsJump opcode → (At instructions' opcode k target ↔ At instructions opcode k target)) :
    Matched stk instructions' := by
  have hstart : ∀ k target, At instructions' .LSTART k target ↔ At instructions .LSTART k target :=
    fun k target => hat .LSTART k target (Or.inl rfl)
  have hend : ∀ k target, At instructions' .LEND k target ↔ At instructions .LEND k target :=
    fun k target => hat .LEND k target (Or.inr rfl)
  refine ⟨h.sorted, fun k => by rw [hstart]; exact h.opened k, fun k target hk hstk => ?_, fun e target he => ?_,
    fun k e => by rw [hstart, hend]; exact h.inverse k e, fun k e k' e' hk hk' => ?_, fun k e k' hk => ?_⟩
  · rw [hstart] at hk
    obtain ⟨e, rfl, hlt, -⟩ := h.starts k target hk hstk
    exact ⟨e, rfl, hlt, ((hend e k).2 ((h.inverse k e).1 hk)).lt_length⟩
  · exact h.ends e target ((hend e target).1 he)
  · exact h.nested k e k' e' ((hstart k e).1 hk) ((hstart k' e').1 hk')
  · exact h.around k e k' ((hstart k e).1 hk)

lemma Matched.append_plain (h : Matched stk instructions) (hplain : Plain body) :
    Matched stk (instructions ++ body) :=
  h.congr fun _ _ _ hop => at_append_plain hplain hop

lemma plain_singleton (h : i.opcode ≠ .LSTART ∧ i.opcode ≠ .LEND) : Plain [i] := by
  intro j hj
  rw [List.mem_singleton.1 hj]
  exact h

lemma Matched.merge (h : Matched stk instructions) (hop : opcode ≠ .LSTART ∧ opcode ≠ .LEND) (val : Int) :
    Matched stk (Compiler.merge instructions opcode val) := by
  rw [Compiler.merge]
  cases hlast : instructions.getLast? with
  | none =>
    obtain rfl := List.getLast?_eq_none_iff.1 hlast
    exact h.append_plain (plain_singleton hop)
  | some back =>
    dsimp only
    by_cases hback : back.opcode = opcode
    · obtain ⟨front, rfl⟩ := List.getLast?_eq_some_iff.1 hlast
      have hplain : ∀ val, Plain [{ back with val1 := val }] := fun val => plain_singleton (by rw [hback]; exact hop)
      rw [if_pos hback, List.dropLast_concat]
      refine h.congr fun opcode k target hjump => ?_
      rw [at_append_plain (hplain _) hjump, at_append_plain (hplain back.val1) hjump]
    · rw [if_neg hback]
      exact h.append_plain (plain_singleton hop)

lemma at_concat : At (front ++ [i]) opcode k target ↔
    At front opcode k target ∨ k = front.length ∧ i.opcode = opcode ∧ i.val1 = target := by
  rcases Nat.lt_trichotomy k front.length with hlt | rfl | hgt
  · simp [At, List.getElem?_append_left hlt, hlt.ne]
  · simp [At]
  · have hnone : (front ++ [i])[k]? = none := List.getElem?_eq_none (by rw [List.length_append]; exact hgt)
    simp [At, hnone, hgt.le, hgt.ne']

/-- A loop is opened. -/
lemma Matched.open (h : Matched stk instructions) :
    Matched (instructions.length :: stk) (instructions ++ [⟨.LSTART, -1, 0⟩]) := by
  have hlt : ∀ k ∈ stk, k < instructions.length := fun k hk => ((h.opened k).1 hk).lt_length
  have hstart : ∀ k (e : Nat), At (instructions ++ [⟨.LSTART, -1, 0⟩]) .LSTART k e ↔ At instructions .LSTART k e := by
    intro k e
    rw [at_concat]
    refine or_iff_left fun hnew => ?_
    have hval : (-1 : Int) = e := hnew.2.2
    omega
  have hend : ∀ k target, At (instructions ++ [⟨.LSTART, -1, 0⟩]) .LEND k target ↔ At instructions .LEND k target := by
    intro k target
    rw [at_concat]
    exact or_iff_left fun hnew => nomatch hnew.2.1
  refine ⟨List.pairwise_cons.2 ⟨hlt, h.sorted⟩, fun k => ?_, fun k target hk hstk => ?_, fun e target he => ?_,
    fun k e => by rw [hstart, hend]; exact h.inverse k e, fun k e k' e' hk hk' => ?_, fun k e k' hk hk' hlt => ?_⟩
  · rw [at_concat, List.mem_cons, h.opened, or_comm]
    simp
  · rw [List.mem_cons, not_or] at hstk
    obtain ⟨e, rfl, hke, he⟩ := h.starts k target ((at_concat.1 hk).resolve_right fun hnew => hstk.1 hnew.1) hstk.2
    exact ⟨e, rfl, hke, by rw [List.length_append]; omega⟩
  · exact h.ends e target ((hend e target).1 he)
  · exact h.nested k e k' e' ((hstart k e).1 hk) ((hstart k' e').1 hk')
  · rw [hstart] at hk
    rcases List.mem_cons.1 hk' with rfl | hmem
    · exact ((h.inverse k e).1 hk).lt_length
    · exact h.around k e k' hk hmem hlt

lemma at_middle {j : Instruction} : At (front ++ j :: body) opcode k target ↔
    k = front.length ∧ j.opcode = opcode ∧ j.val1 = target ∨ k ≠ front.length ∧
      At (front ++ i :: body) opcode k target := by
  rcases Nat.lt_trichotomy k front.length with hlt | rfl | hgt
  · simp [At, List.getElem?_append_left hlt, hlt.ne]
  · simp [At]
  · obtain ⟨n, rfl⟩ := Nat.exists_eq_add_of_lt hgt
    have hafter : ∀ j : Instruction, (front ++ j :: body)[front.length + n + 1]? = body[n]? := by
      intro j
      rw [List.getElem?_append_right (by omega), Nat.add_assoc, Nat.add_sub_cancel_left, List.getElem?_cons_succ]
    simp only [At, hafter]
    grind

/-- The stack holds smaller and smaller positions. -/
lemma Matched.lt_top {top : Nat} (h : Matched (top :: stk) instructions) (hk : k ∈ stk) : k < top :=
  (List.pairwise_cons.1 h.sorted).1 k hk

/-- A loop is closed, and its jumps get their targets. -/
lemma Matched.close (h : Matched (front.length :: stk) (front ++ i :: body)) :
    Matched stk (front ++ { i with val1 := (front.length + 1 + body.length : Nat) } ::
      (body ++ [⟨.LEND, front.length, 0⟩])) := by
  have hlen : (front ++ i :: body).length = front.length + 1 + body.length := by
    rw [List.length_append, List.length_cons]
    omega
  obtain ⟨i', hi', hi, hval⟩ := (h.opened front.length).1 (List.mem_cons_self ..)
  obtain rfl : i = i' := by simpa using hi'
  have hnot : ∀ {k e : Nat}, At (front ++ i :: body) .LSTART k e → k ≠ front.length := by
    rintro k e hk rfl
    have hval := hk.target_unique ((h.opened front.length).1 (List.mem_cons_self ..))
    omega
  have hsplit : front ++ { i with val1 := (front.length + 1 + body.length : Nat) } :: (body ++ [⟨.LEND, front.length,
    0⟩]) =
      (front ++ { i with val1 := (front.length + 1 + body.length : Nat) } :: body) ++ [⟨.LEND, front.length, 0⟩] := by
    simp
  have hmiddle : (front ++ { i with val1 := (front.length + 1 + body.length : Nat) } :: body).length =
      front.length + 1 + body.length := by
    rw [List.length_append, List.length_cons]
    omega
  have hstart : ∀ k target, At (front ++ { i with val1 := (front.length + 1 + body.length : Nat) } ::
      (body ++ [⟨.LEND, front.length, 0⟩])) .LSTART k target ↔
        k = front.length ∧ (front.length + 1 + body.length : Nat) = target ∨
          k ≠ front.length ∧ At (front ++ i :: body) .LSTART k target := by
    intro k target
    rw [hsplit, at_concat, at_middle (i := i)]
    simp [hi]
  have hend : ∀ e target, At (front ++ { i with val1 := (front.length + 1 + body.length : Nat) } ::
      (body ++ [⟨.LEND, front.length, 0⟩])) .LEND e target ↔
        e = front.length + 1 + body.length ∧ (front.length : Int) = target ∨
          At (front ++ i :: body) .LEND e target := by
    intro e target
    rw [hsplit, at_concat, at_middle (i := i), hmiddle]
    simp only [hi, reduceCtorEq, false_and, and_false, false_or, true_and]
    rw [or_comm]
    refine or_congr_right (and_iff_right_of_imp ?_)
    rintro ⟨j, hj, hop, -⟩ rfl
    rw [hi'] at hj
    rw [← Option.some.inj hj, hi] at hop
    cases hop
  refine ⟨h.sorted.of_cons, fun k => ?_, fun k target hk hstk => ?_, fun e target he => ?_, fun k e => ?_,
    fun k e k' e' hk hk' hlt hlt' => ?_, fun k e k' hk hk' hlt => ?_⟩
  · rw [hstart, ← h.opened, List.mem_cons]
    have hlt := @Matched.lt_top _ _ k _ h
    have hpos : ((front.length + 1 + body.length : Nat) : Int) ≠ -1 := by omega
    grind
  · rw [List.length_append, List.length_cons, List.length_append]
    rcases (hstart k target).1 hk with ⟨rfl, rfl⟩ | ⟨hne, hold⟩
    · exact ⟨_, rfl, by omega, by simp; omega⟩
    · obtain ⟨e, rfl, hke, he⟩ := h.starts k target hold (by simp [hne, hstk])
      exact ⟨e, rfl, hke, by rw [hlen] at he; omega⟩
  · rcases (hend e target).1 he with ⟨rfl, rfl⟩ | hold
    · exact ⟨front.length, rfl, by omega⟩
    · exact h.ends e target hold
  · rw [hstart, hend, ← h.inverse]
    have hne := @hnot k e
    grind
  · rcases (hstart k e).1 hk with ⟨rfl, he⟩ | ⟨hne, hold⟩
    · obtain rfl := Int.ofNat.inj he
      rcases (hstart k' e').1 hk' with ⟨rfl, -⟩ | ⟨-, hold'⟩
      · exact absurd hlt (Nat.lt_irrefl _)
      · rw [← hlen]
        exact ((h.inverse k' e').1 hold').lt_length
    · rcases (hstart k' e').1 hk' with ⟨rfl, -⟩ | ⟨-, hold'⟩
      · have hout := h.around k e front.length hold (List.mem_cons_self ..) hlt
        omega
      · exact h.nested k e k' e' hold hold' hlt hlt'
  · rcases (hstart k e).1 hk with ⟨rfl, -⟩ | ⟨hne, hold⟩
    · have hbelow := h.lt_top hk'
      omega
    · exact h.around k e k' hold (List.mem_cons_of_mem _ hk') hlt

/-- A loop is replaced by instructions that do not jump. -/
lemma Matched.replace (h : Matched (front.length :: stk) (front ++ i :: body)) {l : List Instruction}
    (hplain : Plain l) :
    Matched stk (front ++ l) := by
  have hat : ∀ opcode k target, IsJump opcode → (At (front ++ l) opcode k target ↔
      At (front ++ i :: body) opcode k target ∧ k < front.length) := by
    intro opcode k target hop
    rw [at_append_plain hplain hop]
    by_cases hk : k < front.length
    · rw [at_append_left hk]
      exact (and_iff_left hk).symm
    · exact ⟨fun hin => absurd hin.lt_length hk, fun hin => absurd hin.2 hk⟩
  have hstart : ∀ k target, _ := fun k target => hat .LSTART k target (Or.inl rfl)
  have hend : ∀ e target, _ := fun e target => hat .LEND e target (Or.inr rfl)
  have htop := List.mem_cons_self (a := front.length) (l := stk)
  have hbefore : ∀ {k e : Nat}, At (front ++ i :: body) .LSTART k e → k < front.length → e < front.length :=
    fun hk hlt => h.around _ _ _ hk htop hlt
  refine ⟨h.sorted.of_cons, fun k => ?_, fun k target hk hstk => ?_, fun e target he => ?_, fun k e => ?_,
    fun k e k' e' hk hk' => ?_, fun k e k' hk hk' => ?_⟩
  · rw [hstart, ← h.opened, List.mem_cons]
    have hlt := @Matched.lt_top _ _ k _ h
    grind
  · obtain ⟨hold, hlt⟩ := (hstart k target).1 hk
    obtain ⟨e, rfl, hke, -⟩ := h.starts k target hold (by simp [hlt.ne, hstk])
    exact ⟨e, rfl, hke, by rw [List.length_append]; exact Nat.lt_add_right _ (hbefore hold hlt)⟩
  · exact h.ends e target ((hend e target).1 he).1
  · rw [hstart, hend, ← h.inverse]
    refine ⟨fun hk => ⟨hk.1, hbefore hk.1 hk.2⟩, fun he => ⟨he.1, ?_⟩⟩
    obtain ⟨k', hk', hlt⟩ := h.ends e k ((h.inverse k e).1 he.1)
    have heq := Int.ofNat.inj hk'
    omega
  · exact h.nested k e k' e' ((hstart k e).1 hk).1 ((hstart k' e').1 hk').1
  · exact h.around k e k' ((hstart k e).1 hk).1 (List.mem_cons_of_mem _ hk')

lemma plain_rewritten {l : List Instruction} (h : rewritten order body = some l) : Plain l := by
  rw [rewritten] at h
  by_cases hval : body.map Instruction.opcode = [.UPDATEVAL]
  · rw [if_pos hval] at h
    obtain rfl := Option.some.inj h
    exact plain_singleton (by simp)
  · rw [if_neg hval] at h
    by_cases hptr : body.map Instruction.opcode = [.SHIFTPTR]
    · rw [if_pos hptr] at h
      obtain rfl := Option.some.inj h
      exact plain_singleton (by simp)
    · rw [if_neg hptr] at h
      obtain ⟨distributeTo, -, rfl⟩ := Option.map_eq_some_iff.1 h
      intro i hi
      rw [updates, List.mem_append, List.mem_map, List.mem_singleton] at hi
      rcases hi with ⟨kv, -, rfl⟩ | rfl
      · simp
      · simp

/-- Whatever becomes of a loop when it is closed. -/
lemma Matched.closeLoop {loopStartPos : Nat} (h : Matched (loopStartPos :: stk) instructions) :
    Matched stk (Compiler.closeLoop order loopStartPos instructions) := by
  have hlt := ((h.opened loopStartPos).1 (List.mem_cons_self ..)).lt_length
  have hsplit : instructions.take loopStartPos ++ instructions[loopStartPos] :: instructions.drop (loopStartPos + 1) =
      instructions := by rw [List.getElem_cons_drop, List.take_append_drop]
  have hlen : (instructions.take loopStartPos).length = loopStartPos := List.length_take_of_le hlt.le
  generalize instructions.take loopStartPos = front at hsplit hlen
  generalize instructions.drop (loopStartPos + 1) = body at hsplit
  generalize instructions[loopStartPos] = i at hsplit
  subst hsplit hlen
  rw [closeLoop_eq]
  cases hl : rewritten order body with
  | none => exact h.close
  | some l => exact h.replace (plain_rewritten hl)

/-- One character. -/
lemma Matched.next {c c' : Compiler} {ch : Char} (h : Matched c.stk c.instructions)
    (hnext : Compiler.next order c ch = some c') : Matched c'.stk c'.instructions := by
  rw [Compiler.next] at hnext
  by_cases hmerged : ch = '+' ∨ ch = '-' ∨ ch = '>' ∨ ch = '<'
  · rw [if_pos hmerged] at hnext
    obtain rfl := Option.some.inj hnext
    refine h.merge ?_ _
    by_cases hop : ch = '+' ∨ ch = '-'
    · rw [if_pos hop]
      simp
    · rw [if_neg hop]
      simp
  · rw [if_neg hmerged] at hnext
    by_cases hio : ch = '.' ∨ ch = ','
    · rw [if_pos hio] at hnext
      obtain rfl := Option.some.inj hnext
      refine h.append_plain (plain_singleton ?_)
      by_cases hop : ch = '.'
      · simp [hop]
      · simp [hop]
    · rw [if_neg hio] at hnext
      by_cases hopen : ch = '['
      · rw [if_pos hopen] at hnext
        obtain rfl := Option.some.inj hnext
        exact h.open
      · rw [if_neg hopen] at hnext
        by_cases hclose : ch = ']'
        · rw [if_pos hclose] at hnext
          cases hstk : c.stk with
          | nil => simp [hstk] at hnext
          | cons loopStartPos stk =>
            rw [hstk] at h hnext
            obtain rfl := Option.some.inj hnext
            exact h.closeLoop
        · rw [if_neg hclose] at hnext
          obtain rfl := Option.some.inj hnext
          exact h

lemma Matched.foldlM {c c' : Compiler} {code : List Char} (h : Matched c.stk c.instructions)
    (hfold : code.foldlM (Compiler.next order) c = some c') : Matched c'.stk c'.instructions := by
  induction code generalizing c with
  | nil =>
    obtain rfl := Option.some.inj hfold
    exact h
  | cons ch rest ih =>
    rw [List.foldlM_cons] at hfold
    obtain ⟨c₁, hnext, hrest⟩ := Option.bind_eq_some_iff.1 hfold
    exact ih (h.next hnext) hrest

lemma matched_nil : Matched [] [] := by
  have hnone : ∀ opcode k target, ¬ At [] opcode k target := fun opcode k target h =>
    absurd h.lt_length (Nat.not_lt_zero k)
  exact ⟨List.Pairwise.nil, fun k => by simp [hnone], fun k target hk => absurd hk (hnone _ _ _),
    fun e target he => absurd he (hnone _ _ _), fun k e => by simp [hnone], fun k e k' e' hk => absurd hk (hnone _ _ _),
    fun k e k' hk => absurd hk (hnone _ _ _)⟩

lemma opcode_written (i : Instruction) : i.written.opcode = i.opcode := by
  obtain ⟨opcode, val1, val2⟩ := i
  cases opcode <;> rfl

lemma at_written (hop : IsJump opcode) : At (instructions.map Instruction.written) opcode k target ↔
    At instructions opcode k target := by
  have hsame : ∀ i : Instruction, i.opcode = opcode → i.written = i := by
    rintro i rfl
    rcases hop with hi | hi
    · simp [Instruction.written, hi]
    · simp [Instruction.written, hi]
  simp only [At, List.getElem?_map, Option.map_eq_some_iff]
  constructor
  · rintro ⟨j, ⟨i, hi, rfl⟩, hj, hval⟩
    rw [opcode_written] at hj
    rw [hsame i hj] at hval
    exact ⟨i, hi, hj, hval⟩
  · rintro ⟨i, hi, hj, hval⟩
    exact ⟨i, ⟨i, hi, hsame i hj⟩, hj, hval⟩

/-- After every prefix of accepted code, and in the bytecode made of all of it, the jumps are matched. -/
theorem matched_compileFile (order : Iteration) {code : List Char} (h : validateCode code = .ok ()) :
    (∀ front, front <+: code → ∃ c, front.foldlM (Compiler.next order) ⟨[], []⟩ = some c ∧
      Matched c.stk c.instructions) ∧
      ∃ instructions, compileFile order code = some instructions ∧ Matched [] instructions := by
  obtain ⟨p, rfl⟩ := exists_text_of_validateCode h
  have hall := @foldlM_text order [] fixed_nil [] p
  constructor
  · rintro front ⟨rest, heq⟩
    rw [← heq, List.foldlM_append] at hall
    obtain ⟨c, hc, -⟩ := Option.bind_eq_some_iff.1 hall
    exact ⟨c, hc, matched_nil.foldlM hc⟩
  · refine ⟨_, by rw [compileFile, compile_text h]; rfl, ?_⟩
    exact (matched_nil.foldlM hall).congr fun _ _ _ hop => at_written hop

/-- A clear, a search and a distribution inside a loop. -/
def nestedCode : List Char := ['+', '[', '>', '[', '-', ']', '<', '[', '>', ']', '[', '-', '>', '+', '<', ']', ']']

theorem matched_nestedCode : (∀ front, front <+: nestedCode → ∃ c,
    front.foldlM (Compiler.next ⟨fun _ l => l, fun _ l => List.Perm.refl l⟩) ⟨[], []⟩ = some c ∧
      Matched c.stk c.instructions) ∧ ∃ instructions,
        compileFile ⟨fun _ l => l, fun _ l => List.Perm.refl l⟩ nestedCode = some instructions ∧
          Matched [] instructions :=
  matched_compileFile _ rfl

end CppExperiments.Brainfuck

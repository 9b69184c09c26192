import CppExperiments.Brainfuck.Interpreter

/-!
# The brackets around a position

What `validateCode` accepts, and what `interpretCode` has on its stack: in accepted code, the opening
brackets that are not closed in front of the position. So there is always one to read where one is read.
-/

namespace CppExperiments.Brainfuck

/-- As many closing brackets as opening ones, and nowhere more of them so far. -/
def Balanced (code : List Char) : Prop :=
  code.count ']' = code.count '[' ∧ ∀ n, (code.take n).count ']' ≤ (code.take n).count '['

/-- The bracket at `i` is opened in front of the position and not closed there. -/
def Encloses (code : List Char) (pos i : Nat) : Prop :=
  i < pos ∧ code[i]? = some '[' ∧
    ∀ j ≤ pos, ((code.take j).drop (i + 1)).count ']' ≤ ((code.take j).drop (i + 1)).count '['

/-- In a loop at `i` some position has 2^31 brackets around it that are opened from `i` on. -/
def TooDeep (code : List Char) (i : Nat) : Prop :=
  ∃ pos, Encloses code pos i ∧ ((code.take pos).drop i).count ']' + 2 ^ 31 ≤ ((code.take pos).drop i).count '['

/-- A loop is skipped in which more brackets are open at once than can be counted. -/
def Overflows (code : List Char) (s : Interpreter) : Prop :=
  code[s.pos]? = some '[' ∧ s.machine.cell = 0 ∧ TooDeep code s.pos

/-- In every state of the run the stack holds the brackets around the position, the innermost one on top, and before the
end of the code there is a next turn. -/
def StackRight (code : List Char) (m : Machine) : Prop :=
  ∀ s, Reaches (interpretStep code) ⟨0, [], m⟩ s → s.loopStk.Pairwise (· > ·) ∧
    (∀ i, i ∈ s.loopStk ↔ Encloses code s.pos i) ∧ (s.pos < code.length → ∃ s', interpretStep code s = some s')

/-- The brackets in front of a position that are not closed, the last one first. -/
def unclosed (code : List Char) : Nat → List Nat
  | 0 => []
  | pos + 1 =>
    if code[pos]? = some '[' then pos :: unclosed code pos
    else if code[pos]? = some ']' then (unclosed code pos).tail
    else unclosed code pos

variable {code rest : List Char} {pos i j n q : Nat} {stk : List Nat} {s s' : Interpreter}

lemma validateFrom_iff (code : List Char) (i lineNo : Nat) (stk : List (Nat × Nat)) :
    validateFrom code i lineNo stk = .ok () ↔ code.count ']' = stk.length + code.count '[' ∧
      ∀ n, (code.take n).count ']' ≤ stk.length + (code.take n).count '[' := by
  induction code generalizing i lineNo stk with
  | nil => cases stk <;> simp [validateFrom]
  | cons ch rest ih =>
    unfold validateFrom
    rw [← Nat.and_forall_add_one]
    by_cases hline : ch = '\n'
    · subst hline
      simp [ih]
    · rw [if_neg hline]
      by_cases hopen : ch = '['
      · subst hopen
        simp [ih, Nat.add_assoc, Nat.add_comm 1]
      · rw [if_neg hopen]
        by_cases hclose : ch = ']'
        · subst hclose
          rw [if_pos rfl]
          cases stk with
          | nil =>
            refine ⟨fun h => (by cases h), fun h => ?_⟩
            have hfirst := h.2.2 0
            simp at hfirst
          | cons top stk =>
            simp [ih]
            grind
        · simp [ih, hopen, hclose]

theorem validateCode_iff : validateCode code = .ok () ↔ Balanced code := by
  rw [validateCode, validateFrom_iff, Balanced]
  simp

lemma unclosed_open (h : code[pos]? = some '[') : unclosed code (pos + 1) = pos :: unclosed code pos := by
  rw [unclosed, if_pos h]

lemma unclosed_close (h : code[pos]? = some ']') : unclosed code (pos + 1) = (unclosed code pos).tail := by
  rw [unclosed, if_neg (by simp [h]), if_pos h]

lemma unclosed_other (hopen : code[pos]? ≠ some '[') (hclose : code[pos]? ≠ some ']') :
    unclosed code (pos + 1) = unclosed code pos := by
  rw [unclosed, if_neg hopen, if_neg hclose]

lemma count_take_succ (ch : Char) : (code.take (pos + 1)).count ch =
    (code.take pos).count ch + if code[pos]? = some ch then 1 else 0 := by
  rw [List.take_add_one, List.count_append]
  cases code[pos]? with
  | none => rfl
  | some b => simp [List.count_singleton]

lemma length_unclosed (h : Balanced code) (pos : Nat) :
    (unclosed code pos).length + (code.take pos).count ']' = (code.take pos).count '[' := by
  induction pos with
  | zero => rfl
  | succ pos ih =>
    have hle := h.2 (pos + 1)
    rw [count_take_succ, count_take_succ] at hle ⊢
    by_cases hopen : code[pos]? = some '['
    · rw [unclosed_open hopen, if_pos hopen, if_neg (by simp [hopen]), List.length_cons]
      omega
    · rw [if_neg hopen] at hle ⊢
      by_cases hclose : code[pos]? = some ']'
      · rw [if_pos hclose] at hle ⊢
        rw [unclosed_close hclose, List.length_tail]
        omega
      · rw [unclosed_other hopen hclose, if_neg hclose]
        exact ih

lemma unclosed_end (h : Balanced code) (hpos : code.length ≤ pos) : unclosed code pos = [] := by
  have hlen := length_unclosed h pos
  rw [List.take_of_length_le hpos, h.1] at hlen
  exact List.length_eq_zero_iff.1 (by omega)

lemma mem_unclosed_succ (h : i ∈ unclosed code (pos + 1)) : i = pos ∧ code[pos]? = some '[' ∨ i ∈ unclosed code pos := by
  by_cases hopen : code[pos]? = some '['
  · rw [unclosed_open hopen, List.mem_cons] at h
    exact h.imp_left fun heq => ⟨heq, hopen⟩
  · right
    by_cases hclose : code[pos]? = some ']'
    · rw [unclosed_close hclose] at h
      exact List.mem_of_mem_tail h
    · rwa [unclosed_other hopen hclose] at h

lemma of_mem_unclosed (h : i ∈ unclosed code pos) : i < pos ∧ code[i]? = some '[' := by
  induction pos with
  | zero => cases h
  | succ pos ih =>
    rcases mem_unclosed_succ h with ⟨rfl, hopen⟩ | hmem
    · exact ⟨Nat.lt_succ_self i, hopen⟩
    · exact ⟨Nat.lt_succ_of_lt (ih hmem).1, (ih hmem).2⟩

/-- What is not closed now was not closed before. -/
lemma mem_unclosed_of_le (hj : i < j) (hle : j ≤ pos) (h : i ∈ unclosed code pos) : i ∈ unclosed code j := by
  induction hle with
  | refl => exact h
  | @step pos hle ih =>
    rcases mem_unclosed_succ h with ⟨rfl, -⟩ | hmem
    · exact absurd hle (Nat.not_le_of_lt hj)
    · exact ih hmem

lemma sorted_unclosed (code : List Char) (pos : Nat) : (unclosed code pos).Pairwise (· > ·) := by
  induction pos with
  | zero => exact List.Pairwise.nil
  | succ pos ih =>
    by_cases hopen : code[pos]? = some '['
    · rw [unclosed_open hopen]
      exact List.pairwise_cons.2 ⟨fun i hi => (of_mem_unclosed hi).1, ih⟩
    · by_cases hclose : code[pos]? = some ']'
      · rw [unclosed_close hclose]
        exact ih.sublist (List.tail_sublist _)
      · rwa [unclosed_other hopen hclose]

/-- Below an open bracket lie those that were open when it was opened. -/
lemma suffix_unclosed (h : i ∈ unclosed code pos) : i :: unclosed code i <:+ unclosed code pos := by
  induction pos with
  | zero => cases h
  | succ pos ih =>
    by_cases hopen : code[pos]? = some '['
    · rw [unclosed_open hopen] at h ⊢
      rcases List.mem_cons.1 h with rfl | hmem
      · exact List.suffix_refl _
      · exact (ih hmem).trans (List.suffix_cons _ _)
    · by_cases hclose : code[pos]? = some ']'
      · rw [unclosed_close hclose] at h ⊢
        have hsuffix := ih (List.mem_of_mem_tail h)
        cases hstk : unclosed code pos with
        | nil => simp [hstk] at h
        | cons top stk =>
          rw [hstk] at h hsuffix
          rcases List.suffix_cons_iff.1 hsuffix with heq | hbelow
          · obtain ⟨rfl, rfl⟩ := List.cons.inj heq
            exact absurd (of_mem_unclosed h).1 (Nat.lt_irrefl i)
          · exact hbelow
      · rw [unclosed_other hopen hclose] at h ⊢
        exact ih h

lemma unclosed_of_cons (h : unclosed code pos = i :: stk) : unclosed code (i + 1) = i :: stk := by
  have hmem : i ∈ unclosed code pos := by rw [h]; exact List.mem_cons_self ..
  have hsuffix := suffix_unclosed hmem
  have hsorted := sorted_unclosed code pos
  rw [unclosed_open (of_mem_unclosed hmem).2]
  rw [h] at hsuffix hsorted
  rcases List.suffix_cons_iff.1 hsuffix with heq | hbelow
  · exact heq
  · have hlt := (List.pairwise_cons.1 hsorted).1 i (hbelow.subset (List.mem_cons_self ..))
    exact absurd hlt (Nat.lt_irrefl i)

lemma count_segment (ch : Char) (hle : i ≤ j) : (code.take j).count ch =
    (code.take i).count ch + ((code.take j).drop i).count ch := by
  have hsplit := List.take_append_drop i (code.take j)
  rw [List.take_take, Nat.min_eq_left hle] at hsplit
  rw [← List.count_append, hsplit]

/-- The brackets that are not closed are those around the position. -/
theorem mem_unclosed_iff (hbal : Balanced code) : i ∈ unclosed code pos ↔ Encloses code pos i := by
  have hdepth : ∀ j, i < j → (((code.take j).drop (i + 1)).count ']' ≤ ((code.take j).drop (i + 1)).count '[' ↔
      (unclosed code (i + 1)).length ≤ (unclosed code j).length) := by
    intro j hj
    have hclosed := @count_segment code (i + 1) j ']' hj
    have hopened := @count_segment code (i + 1) j '[' hj
    have hfirst := length_unclosed hbal (i + 1)
    have hlast := length_unclosed hbal j
    omega
  constructor
  · intro h
    obtain ⟨hlt, hopen⟩ := of_mem_unclosed h
    refine ⟨hlt, hopen, fun j hle => ?_⟩
    by_cases hj : i < j
    · rw [hdepth j hj, unclosed_open hopen]
      exact (suffix_unclosed (mem_unclosed_of_le hj hle h)).length_le
    · rw [List.drop_eq_nil_of_le (by simp; omega)]
      exact Nat.le_refl _
  · rintro ⟨hlt, hopen, hseg⟩
    have hsuffix : ∀ j, i + 1 ≤ j → j ≤ pos → i :: unclosed code i <:+ unclosed code j := by
      intro j hj
      induction j, hj using Nat.le_induction with
      | base => exact fun _ => ⟨[], (unclosed_open hopen).symm⟩
      | succ j hj ih =>
        intro hle
        obtain ⟨extra, hextra⟩ := ih (Nat.le_of_succ_le hle)
        by_cases hopen' : code[j]? = some '['
        · rw [unclosed_open hopen', ← hextra]
          exact ⟨j :: extra, rfl⟩
        · by_cases hclose : code[j]? = some ']'
          · have hlen := (hdepth (j + 1) (by omega)).1 (hseg (j + 1) hle)
            rw [unclosed_open hopen, unclosed_close hclose, ← hextra] at hlen
            rw [unclosed_close hclose, ← hextra]
            cases extra with
            | nil => simp at hlen
            | cons top extra => exact ⟨extra, rfl⟩
          · rw [unclosed_other hopen' hclose]
            exact ⟨extra, hextra⟩
    exact (hsuffix pos hlt le_rfl).subset (List.mem_cons_self ..)

lemma tooDeep_iff (hbal : Balanced code) : TooDeep code i ↔
    ∃ pos, i ∈ unclosed code pos ∧ (unclosed code i).length + 2 ^ 31 ≤ (unclosed code pos).length := by
  refine exists_congr fun pos => ?_
  rw [← mem_unclosed_iff hbal]
  refine and_congr_right fun hmem => ?_
  have hlt := (of_mem_unclosed hmem).1
  have hclosed := @count_segment code i pos ']' hlt.le
  have hopened := @count_segment code i pos '[' hlt.le
  have hfirst := length_unclosed hbal i
  have hlast := length_unclosed hbal pos
  have hle := hbal.2 pos
  omega

variable {up : List Nat}

/-- The skip ends where as many brackets are open as before the loop. -/
lemma exists_skipLoop (hbal : Balanced code) (hdeep : ¬ TooDeep code pos) (hrest : code.drop (q + 1) = rest)
    (hstk : unclosed code (q + 1) = up ++ pos :: unclosed code pos) :
    ∃ j, skipLoop rest (up.length + 1) q = some j ∧ unclosed code (j + 1) = unclosed code pos := by
  induction rest generalizing q up with
  | nil =>
    rw [unclosed_end hbal (List.drop_eq_nil_iff.1 hrest)] at hstk
    exact absurd (List.append_eq_nil_iff.1 hstk.symm).2 (List.cons_ne_nil _ _)
  | cons ch rest ih =>
    have hat := getElem?_of_drop hrest
    have hnext := drop_succ hrest
    rw [skipLoop]
    by_cases hclose : ch = ']'
    · subst hclose
      rw [if_pos rfl]
      have htail := unclosed_close hat
      rw [hstk] at htail
      cases up with
      | nil => exact ⟨q + 1, by rw [List.length_nil, skipLoop], htail⟩
      | cons top up => exact ih hnext htail
    · rw [if_neg hclose]
      by_cases hopen : ch = '['
      · subst hopen
        have hmore : unclosed code (q + 1 + 1) = (q + 1) :: up ++ pos :: unclosed code pos := by
          rw [unclosed_open hat, hstk, List.cons_append]
        have hcount : up.length + 2 < 2 ^ 31 := by
          by_contra hge
          refine hdeep ((tooDeep_iff hbal).2 ⟨q + 1 + 1, ?_, ?_⟩)
          · rw [hmore]
            exact List.mem_append_right _ (List.mem_cons_self ..)
          · rw [hmore, List.length_append, List.length_cons, List.length_cons]
            omega
        rw [if_pos rfl, if_pos hcount]
        exact ih hnext hmore
      · rw [if_neg hopen]
        exact ih hnext (by rw [unclosed_other (by simp [hat, hopen]) (by simp [hat, hclose]), hstk])

/-- Where too many brackets are open the count overflows. -/
lemma skipLoop_eq_none (hrest : code.drop (q + 1) = rest)
    (hstk : unclosed code (q + 1) = up ++ pos :: unclosed code pos) (hcount : up.length + 1 < 2 ^ 31) (hq : q + 1 ≤ j)
    (hmem : pos ∈ unclosed code j) (hdeep : (unclosed code pos).length + 2 ^ 31 ≤ (unclosed code j).length) :
    skipLoop rest (up.length + 1) q = none := by
  induction rest generalizing q up with
  | nil => rw [skipLoop]
  | cons ch rest ih =>
    have hat := getElem?_of_drop hrest
    have hnext := drop_succ hrest
    have hj : q + 1 + 1 ≤ j := by
      refine Nat.lt_of_le_of_ne hq fun heq => ?_
      rw [← heq, hstk, List.length_append, List.length_cons] at hdeep
      omega
    rw [skipLoop]
    by_cases hclose : ch = ']'
    · subst hclose
      rw [if_pos rfl]
      have htail := unclosed_close hat
      rw [hstk] at htail
      cases up with
      | nil =>
        have hlt : pos < q + 1 := (of_mem_unclosed (show pos ∈ unclosed code (q + 1) by
          rw [hstk]
          exact List.mem_cons_self ..)).1
        have hin := mem_unclosed_of_le (Nat.lt_succ_of_lt hlt) hj hmem
        rw [htail] at hin
        exact absurd (of_mem_unclosed hin).1 (Nat.lt_irrefl pos)
      | cons top up => exact ih hnext htail (Nat.lt_of_succ_lt hcount) hj
    · rw [if_neg hclose]
      by_cases hopen : ch = '['
      · subst hopen
        rw [if_pos rfl]
        by_cases hmore : up.length + 2 < 2 ^ 31
        · rw [if_pos hmore]
          exact @ih (q + 1) ((q + 1) :: up) hnext (by rw [unclosed_open hat, hstk, List.cons_append]) hmore hj
        · rw [if_neg hmore]
      · rw [if_neg hopen]
        exact ih hnext (by rw [unclosed_other (by simp [hat, hopen]) (by simp [hat, hclose]), hstk]) hcount hj

/-- One turn of the interpreter, with the stack that belongs to its position. -/
lemma exists_interpretStep (hbal : Balanced code) (hpos : s.pos < code.length) (hs : s.loopStk = unclosed code s.pos)
    (hcount : ¬ Overflows code s) : ∃ s', interpretStep code s = some s' ∧ s'.loopStk = unclosed code s'.pos := by
  obtain ⟨pos, stk, m⟩ := s
  dsimp only at hpos hs
  subst hs
  have hdrop := List.drop_eq_getElem_cons hpos
  have hat := getElem?_of_drop hdrop
  by_cases hopen : code[pos] = '['
  · rw [hopen] at hdrop hat
    by_cases hcell : m.cell = 0
    · obtain ⟨j, hskip, hj⟩ := @exists_skipLoop code _ pos pos [] hbal (fun hdeep => hcount ⟨hat, hcell, hdeep⟩) rfl
        (unclosed_open hat)
      refine ⟨⟨j + 1, unclosed code pos, m⟩, ?_, hj.symm⟩
      simp only [List.length_nil, Nat.zero_add] at hskip
      simp [interpretStep, hat, hcell, hskip]
    · exact ⟨_, step_enter hdrop hcell, (unclosed_open hat).symm⟩
  · by_cases hclose : code[pos] = ']'
    · rw [hclose] at hdrop hat
      have hlen := length_unclosed hbal (pos + 1)
      have hle := hbal.2 (pos + 1)
      rw [unclosed_close hat] at hlen
      cases hstk : unclosed code pos with
      | nil =>
        have hbefore := length_unclosed hbal pos
        rw [count_take_succ, count_take_succ, if_pos hat, if_neg (by simp [hat])] at hle
        rw [hstk, List.length_nil] at hbefore
        omega
      | cons top stk =>
        by_cases hcell : m.cell = 0
        · exact ⟨_, step_leave hdrop hcell, by rw [unclosed_close hat, hstk]; rfl⟩
        · exact ⟨_, step_back hdrop hcell, (unclosed_of_cons hstk).symm⟩
    · refine ⟨_, step_command ⟨hopen, hclose⟩ hdrop, ?_⟩
      exact (unclosed_other (by rw [hat]; simpa using hopen) (by rw [hat]; simpa using hclose)).symm

lemma interpretStep_of_overflows (hbal : Balanced code) (h : Overflows code s) : interpretStep code s = none := by
  obtain ⟨pos, stk, m⟩ := s
  obtain ⟨hat, hcell, hdeep⟩ := h
  dsimp only at hat hcell hdeep
  obtain ⟨j, hmem, hlong⟩ := (tooDeep_iff hbal).1 hdeep
  have hskip := @skipLoop_eq_none code _ pos j pos [] rfl (unclosed_open hat) (by decide)
    (of_mem_unclosed hmem).1 hmem hlong
  simp only [List.length_nil, Nat.zero_add] at hskip
  simp [interpretStep, hat, hcell, hskip]

lemma loopStk_of_reaches (hbal : Balanced code) {m : Machine} (h : Reaches (interpretStep code) ⟨0, [], m⟩ s) :
    s.loopStk = unclosed code s.pos := by
  refine h.preserves (fun s => s.loopStk = unclosed code s.pos) (fun s s' hs hstep => ?_) rfl
  have hpos : s.pos < code.length := by
    by_contra hend
    rw [step_end (Nat.le_of_not_lt hend)] at hstep
    cases hstep
  have hcount : ¬ Overflows code s := by
    intro hover
    rw [interpretStep_of_overflows hbal hover] at hstep
    cases hstep
  obtain ⟨t, ht, hstk⟩ := exists_interpretStep hbal hpos hs hcount
  rw [ht] at hstep
  obtain rfl := Option.some.inj hstep
  exact hstk

lemma stackRight_iff (hbal : Balanced code) (m : Machine) : StackRight code m ↔
    ∀ s, Reaches (interpretStep code) ⟨0, [], m⟩ s → ¬ Overflows code s := by
  constructor
  · intro hright s hs hover
    obtain ⟨s', hstep⟩ := (hright s hs).2.2 (List.getElem?_eq_some_iff.1 hover.1).1
    rw [interpretStep_of_overflows hbal hover] at hstep
    cases hstep
  · intro hcount s hs
    have hstk := loopStk_of_reaches hbal hs
    refine ⟨by rw [hstk]; exact sorted_unclosed code s.pos, fun i => by rw [hstk]; exact mem_unclosed_iff hbal,
      fun hpos => ?_⟩
    obtain ⟨s', hstep, -⟩ := exists_interpretStep hbal hpos hstk (hcount s hs)
    exact ⟨s', hstep⟩

/-- What is accepted is balanced, and run without ever missing a bracket exactly if no loop is skipped in which too many
brackets are open. -/
theorem loopStk_iff (code : List Char) : (validateCode code = .ok () ↔ Balanced code) ∧
    (validateCode code = .ok () → ∀ m, StackRight code m ↔
      ∀ s, Reaches (interpretStep code) ⟨0, [], m⟩ s → ¬ Overflows code s) :=
  ⟨validateCode_iff, fun h => stackRight_iff (validateCode_iff.1 h)⟩

/-! ### Loops in loops -/

/-- So many loops, each the body of the one around it. -/
def nest (n : Nat) : List Char := List.replicate n '[' ++ List.replicate n ']'

lemma take_nest (h : j ≤ n) : (nest n).take j = List.replicate j '[' := by
  rw [nest, List.take_append_of_le_length (by rwa [List.length_replicate]), List.take_replicate, Nat.min_eq_left h]

lemma balanced_nest (n : Nat) : Balanced (nest n) := by
  refine ⟨?_, fun j => ?_⟩
  · rw [nest, List.count_append, List.count_append, List.count_replicate_self, List.count_replicate_self,
      List.count_replicate, List.count_replicate, if_neg (by decide), if_neg (by decide), Nat.add_comm]
  · rw [nest, List.take_append, List.take_replicate, List.take_replicate, List.count_append, List.count_append,
      List.count_replicate_self, List.count_replicate_self, List.count_replicate, List.count_replicate,
      if_neg (by decide), if_neg (by decide), List.length_replicate]
    omega

lemma tooDeep_nest (h : 2 ^ 31 ≤ n) : TooDeep (nest n) 0 := by
  have hpos : 0 < n := (Nat.two_pow_pos 31).trans_le h
  refine ⟨n, ⟨hpos, ?_, fun j hj => ?_⟩, ?_⟩
  · rw [nest, List.getElem?_append_left (by rwa [List.length_replicate]), List.getElem?_replicate, if_pos hpos]
  · rw [take_nest hj, List.drop_replicate, List.count_replicate, if_neg (by decide)]
    exact Nat.zero_le _
  · rwa [take_nest le_rfl, List.drop_zero, List.count_replicate, if_neg (by decide), Nat.zero_add,
      List.count_replicate_self]

/-- The skip of 2^31 loops in each other counts more brackets than an `int` can. -/
theorem not_stackRight_nest : validateCode (nest (2 ^ 31)) = .ok () ∧
    ¬ StackRight (nest (2 ^ 31)) (Machine.start []) := by
  have hbal := balanced_nest (2 ^ 31)
  have hdeep := tooDeep_nest (le_refl (2 ^ 31))
  obtain ⟨pos, ⟨-, hopen, -⟩, -⟩ := tooDeep_nest (le_refl (2 ^ 31))
  exact ⟨validateCode_iff.2 hbal, fun hright =>
    (stackRight_iff hbal _).1 hright ⟨0, [], Machine.start []⟩ ⟨0, rfl⟩ ⟨hopen, rfl, hdeep⟩⟩

end CppExperiments.Brainfuck

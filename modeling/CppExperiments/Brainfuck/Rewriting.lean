import CppExperiments.Brainfuck.Emission
import Mathlib.Algebra.BigOperators.Group.List.Basic

/-!
# The rewrites keep the meaning

What the instructions are for, with cells that count modulo 256, and that every rewrite of the compiler
keeps what the program means: merged runs, cleared cells, searches for a zero and distribution loops.
-/

namespace CppExperiments.Brainfuck

/-- What an instruction is for. An update from the current cell onto itself may do anything. -/
def Does (i : Instruction) (m m' : Machine) : Prop :=
  match i.opcode with
  | .UPDATEVAL => m' = m.put (m.cell + UInt8.ofInt i.val1)
  | .SHIFTPTR => m' = m.move i.val1
  | .OUTPUT => m' = m.putchar
  | .INPUT => m' = m.getchar
  | .LSTART | .LEND => False
  | .CLEAR => m' = m.put 0
  | .SHIFTPTR_ZERO => While Machine.NonZero (fun m m' => m' = m.move i.val1) m m'
  | .UPDATE_BY_CURR =>
    place m.ptr i.val1 = m.ptr ∧ m.NonZero ∨ m' = m.addAt i.val1 (UInt8.ofInt i.val2 * m.cell)

/-- What bytecode is for. -/
def Intends (p : Prog Instruction) : Machine → Machine → Prop := p.Exec Machine.NonZero Does

variable {m m' m₁ : Machine} {p body : Prog Instruction} {i : Instruction} {val : Int}

lemma execute_inc : execute m '+' = m.put (m.cell + UInt8.ofInt 1) := by
  by_cases h : m.cell = 255
  · simp [execute, h]
  · simp [execute, h]

lemma execute_dec : execute m '-' = m.put (m.cell + UInt8.ofInt (-1)) := by
  by_cases h : m.cell = 0
  · rw [execute, if_pos h, h]
    rfl
  · rw [execute, if_neg h, UInt8.sub_eq_add_neg, UInt8.ofInt_neg_one]

lemma execute_right : execute m '>' = m.move 1 := by
  have hsize : MEMORY_SIZE = 30000 := rfl
  have hlt := m.ptr.isLt
  have hval : ((place m.ptr 1).val : Int) = (m.ptr + 1) % 30000 := val_place m.ptr 1
  have hnext : Fin.ofNat MEMORY_SIZE (if m.ptr.val = MEMORY_SIZE - 1 then 0 else m.ptr.val + 1) = place m.ptr 1 := by
    rw [Fin.ext_iff, Fin.val_ofNat, Nat.mod_eq_of_lt (by split <;> omega)]
    split <;> omega
  rw [execute, hnext, Machine.move]

lemma execute_left : execute m '<' = m.move (-1) := by
  have hsize : MEMORY_SIZE = 30000 := rfl
  have hlt := m.ptr.isLt
  have hval : ((place m.ptr (-1)).val : Int) = (m.ptr + -1) % 30000 := val_place m.ptr (-1)
  have hnext : Fin.ofNat MEMORY_SIZE (if m.ptr.val = 0 then MEMORY_SIZE - 1 else m.ptr.val - 1) = place m.ptr (-1) := by
    rw [Fin.ext_iff, Fin.val_ofNat, Nat.mod_eq_of_lt (by split <;> omega)]
    split <;> omega
  rw [execute, hnext, Machine.move]

lemma intends_mergeInto {opcode : OPCODE} (hop : opcode = .UPDATEVAL ∨ opcode = .SHIFTPTR) (h : Intends p m m₁)
    (hdoes : Does ⟨opcode, val, 0⟩ m₁ m') : Intends (mergeInto p opcode val) m m' := by
  cases p with
  | nil => exact ⟨m₁, h, hdoes⟩
  | loop q body => exact ⟨m₁, h, hdoes⟩
  | snoc q i =>
    rw [mergeInto]
    by_cases hi : i.opcode = opcode
    · rw [if_pos hi]
      obtain ⟨m₀, hq, hdoes₀⟩ := h
      refine ⟨m₀, hq, ?_⟩
      rcases hop with rfl | rfl
      · simp only [Does, hi] at hdoes hdoes₀ ⊢
        rw [hdoes, hdoes₀, Machine.cell_put, Machine.put_put, UInt8.ofInt_add, UInt8.add_assoc]
      · simp only [Does, hi] at hdoes hdoes₀ ⊢
        rw [hdoes, hdoes₀, Machine.move_move]
    · rw [if_neg hi]
      exact ⟨m₁, h, hdoes⟩

lemma intends_emitCommand (h : Intends p m m₁) (ch : Command) : Intends (emitCommand p ch) m (execute m₁ ch.val) := by
  rw [emitCommand]
  by_cases hinc : ch.val = '+'
  · simpa [hinc] using intends_mergeInto (Or.inl rfl) h execute_inc
  · by_cases hdec : ch.val = '-'
    · simpa [hdec] using intends_mergeInto (Or.inl rfl) h execute_dec
    · by_cases hright : ch.val = '>'
      · simpa [hright] using intends_mergeInto (Or.inr rfl) h execute_right
      · by_cases hleft : ch.val = '<'
        · simpa [hleft] using intends_mergeInto (Or.inr rfl) h execute_left
        · rw [if_neg (by simp [hinc, hdec, hright, hleft])]
          by_cases hout : ch.val = '.'
          · rw [if_pos (Or.inl hout), if_pos hout, hout]
            exact ⟨m₁, h, rfl⟩
          · by_cases hin : ch.val = ','
            · rw [if_pos (Or.inr hin), if_neg hout, hin]
              exact ⟨m₁, h, rfl⟩
            · have hnone : execute m₁ ch.val = m₁ := by
                unfold execute
                split <;> simp_all
              rw [if_neg (by simp [hout, hin]), hnone]
              exact h

/-- A loop that only changes the current cell ends with a zero in it. -/
lemma put_of_while (hi : i.opcode = .UPDATEVAL) (h : While Machine.NonZero (Prog.ExecList Does [i]) m m') :
    m' = m.put 0 := by
  have hcell : m'.cell = 0 := not_not.1 h.exit
  have hput := h.preserves (fun _ => True) (fun m => m.put 0) (fun s t _ _ hR => by
    obtain ⟨r, hdoes, rfl⟩ := hR
    simp only [Does, hi] at hdoes
    exact ⟨trivial, by rw [hdoes, Machine.put_put]⟩) trivial
  rw [← hput, Machine.put_eq_self hcell]

/-- A loop that only moves the pointer is a search. -/
lemma search_of_while (hi : i.opcode = .SHIFTPTR) (h : While Machine.NonZero (Prog.ExecList Does [i]) m m') :
    Does ⟨.SHIFTPTR_ZERO, i.val1, 0⟩ m m' := by
  refine h.mono fun s t hR => ?_
  obtain ⟨r, hdoes, rfl⟩ := hR
  simpa only [Does, hi] using hdoes

end CppExperiments.Brainfuck

/-!
## Distribution loops

A loop that takes one off the current cell and adds fixed amounts elsewhere is the same as multiplying
and clearing, in whatever order, as long as no amount goes to the current cell.
-/

namespace CppExperiments.Brainfuck

/-- What a place gets from a list of amounts at distances from a pointer. -/
def share (ptr : Fin MEMORY_SIZE) (l : List (Int × Int)) (q : Fin MEMORY_SIZE) : Int :=
  (l.map fun kv => if place ptr kv.1 = q then kv.2 else 0).sum

/-- What the updates by the current cell make of the memory. -/
def spread (m : Machine) (l : List (Int × Int)) : Machine :=
  { m with memory := fun q => m.memory q + UInt8.ofInt (share m.ptr l q) * m.cell }

variable {m m' : Machine} {ptr q : Fin MEMORY_SIZE} {l l' : List (Int × Int)} {shift shift' val : Int}
  {body : List Instruction} {d d' : AList (fun _ : Int => Int)} {order : Iteration}

@[simp] lemma ofInt_zero : UInt8.ofInt 0 = 0 := rfl

lemma share_cons (kv : Int × Int) : share ptr (kv :: l) q = (if place ptr kv.1 = q then kv.2 else 0) + share ptr l q :=
  rfl

lemma share_perm (h : l.Perm l') : share ptr l q = share ptr l' q := (h.map _).sum_eq

lemma share_eq_zero (h : ∀ kv ∈ l, kv.2 = 0 ∨ place ptr kv.1 ≠ q) : share ptr l q = 0 := by
  apply List.sum_eq_zero
  intro x hx
  obtain ⟨kv, hkv, rfl⟩ := List.mem_map.1 hx
  rcases h kv hkv with hzero | hne
  · rw [hzero, ite_self]
  · rw [if_neg hne]

/-- The entry of one distance, and those of the others. -/
lemma share_erase (d : AList (fun _ : Int => Int)) (shift : Int) : share ptr (pairs d) q =
    (if place ptr shift = q then (d.lookup shift).getD 0 else 0) + share ptr (pairs (d.erase shift)) q := by
  obtain ⟨entries, hnodup⟩ := d
  change share ptr (entries.map _) q =
    (if place ptr shift = q then (entries.dlookup shift).getD 0 else 0) + share ptr ((entries.kerase shift).map _) q
  clear hnodup
  induction entries with
  | nil => simp [share]
  | cons kv entries ih =>
    obtain ⟨k, v⟩ := kv
    by_cases hk : shift = k
    · subst hk
      have herase : List.kerase shift ((⟨shift, v⟩ : Sigma fun _ : Int => Int) :: entries) = entries :=
        List.kerase_cons_eq rfl
      rw [List.dlookup_cons_eq, herase, List.map_cons, share_cons]
      rfl
    · rw [List.dlookup_cons_ne _ _ hk, List.kerase_cons_ne hk, List.map_cons, List.map_cons, share_cons, share_cons, ih]
      omega

lemma share_insert (d : AList (fun _ : Int => Int)) (shift val : Int) :
    share ptr (pairs (d.insert shift ((d.lookup shift).getD 0 + val))) q =
      share ptr (pairs d) q + if place ptr shift = q then val else 0 := by
  change share ptr ((shift, (d.lookup shift).getD 0 + val) :: pairs (d.erase shift)) q = _
  rw [share_cons, share_erase d shift]
  split <;> omega

lemma mem_pairs_erase {kv : Int × Int} (h : kv ∈ pairs (d.erase shift)) : kv ∈ pairs d ∧ kv.1 ≠ shift := by
  obtain ⟨⟨k, v⟩, he, rfl⟩ := List.mem_map.1 h
  refine ⟨List.mem_map_of_mem ((List.kerase_sublist shift d.entries).subset he), ?_⟩
  rintro rfl
  exact List.notMem_keys_kerase k d.nodupKeys (List.mem_keys_of_mem he)

/-- What a straight run of additions and moves makes of the memory and the pointer. -/
lemma exec_distributes {mem : Fin MEMORY_SIZE → UInt8} (hscan : distributes body shift d = some (shift', d'))
    (hptr : m.ptr = place ptr shift) (hmem : ∀ q, m.memory q = mem q + UInt8.ofInt (share ptr (pairs d) q))
    (h : Prog.ExecList Does body m m') :
    m' = { m with ptr := place ptr shift', memory := fun q => mem q + UInt8.ofInt (share ptr (pairs d') q) } := by
  induction body generalizing m shift d with
  | nil =>
    obtain ⟨rfl, rfl⟩ := Prod.mk.inj (Option.some.inj hscan)
    obtain rfl : m = m' := h
    rw [← hptr, ← funext hmem]
  | cons i rest ih =>
    obtain ⟨m₁, hdoes, hrest⟩ := h
    cases hop : i.opcode with
    | UPDATEVAL =>
      simp only [distributes, Does, hop] at hscan hdoes
      subst hdoes
      refine @ih (m.put (m.cell + UInt8.ofInt i.val1)) _ _ hscan hptr (fun q => ?_) hrest
      rw [share_insert, UInt8.ofInt_add, ← UInt8.add_assoc, ← hmem, ← hptr]
      by_cases hq : m.ptr = q
      · subst hq
        rw [if_pos rfl]
        exact Function.update_self _ _ _
      · rw [if_neg hq, ofInt_zero, UInt8.add_zero]
        exact Function.update_of_ne (Ne.symm hq) _ _
    | SHIFTPTR =>
      simp only [distributes, Does, hop] at hscan hdoes
      subst hdoes
      exact @ih (m.move i.val1) _ _ hscan (by rw [Machine.move, hptr, place_place]) hmem hrest
    | _ => simp [distributes, hop] at hscan

def updateBy (kv : Int × Int) : Instruction := ⟨.UPDATE_BY_CURR, kv.1, kv.2⟩

/-- Updates that leave the current cell alone can be made in any order. -/
lemma exec_updates (h : ∀ kv ∈ l, place m.ptr kv.1 ≠ m.ptr) : Prog.ExecList Does (l.map updateBy) m (spread m l) := by
  induction l generalizing m with
  | nil => simp [Prog.ExecList, spread, share]
  | cons kv l ih =>
    rw [List.forall_mem_cons] at h
    have hcell : (m.addAt kv.1 (UInt8.ofInt kv.2 * m.cell)).cell = m.cell :=
      Function.update_of_ne h.1.symm _ _
    refine ⟨m.addAt kv.1 (UInt8.ofInt kv.2 * m.cell), Or.inr rfl, ?_⟩
    have hrest := @ih (m.addAt kv.1 (UInt8.ofInt kv.2 * m.cell)) h.2
    convert hrest using 1
    rw [spread, spread, hcell]
    simp only [Machine.addAt, share_cons]
    congr 1
    funext q
    by_cases hq : place m.ptr kv.1 = q
    · subst hq
      simp [UInt8.add_mul, UInt8.add_assoc]
    · simp [Function.update_of_ne (Ne.symm hq), hq]

lemma addAt_zero : m.addAt shift 0 = m := by simp [Machine.addAt]

lemma exec_updates_zero (h : m.cell = 0) (l : List (Int × Int)) : Prog.ExecList Does (l.map updateBy) m m := by
  induction l with
  | nil => rfl
  | cons kv l ih => exact ⟨m, Or.inr (by rw [h, UInt8.mul_zero, addAt_zero]), ih⟩

lemma exec_updates_self (hself : ∃ kv ∈ l, place m.ptr kv.1 = m.ptr) (hm : m.NonZero) (hm' : m'.cell = 0) :
    Prog.ExecList Does (l.map updateBy) m m' := by
  induction l generalizing m with
  | nil => simp at hself
  | cons kv l ih =>
    by_cases hkv : place m.ptr kv.1 = m.ptr
    · exact ⟨m', Or.inl ⟨hkv, hm⟩, exec_updates_zero hm' l⟩
    · have hcell : (m.addAt kv.1 (UInt8.ofInt kv.2 * m.cell)).cell = m.cell := Function.update_of_ne (Ne.symm hkv) _ _
      have hrest : ∃ kv ∈ l, place m.ptr kv.1 = m.ptr := by simpa [hkv] using hself
      refine ⟨m.addAt kv.1 (UInt8.ofInt kv.2 * m.cell), Or.inr rfl, ih hrest ?_⟩
      rw [Machine.NonZero, hcell]
      exact hm

/-- One turn of a simple distribution loop. -/
lemma turn_of_validate (hd : validateSimpleDistributionLoop body = some d) (h : Prog.ExecList Does body m m') :
    (d.lookup 0).getD 0 = -1 ∧
      m' = { m with memory := fun q => m.memory q + UInt8.ofInt (share m.ptr (pairs d) q) } := by
  unfold validateSimpleDistributionLoop at hd
  cases hscan : distributes body 0 ∅ with
  | none => simp [hscan] at hd
  | some scanned =>
    obtain ⟨shift, d'⟩ := scanned
    by_cases hok : shift = 0 ∧ (d'.lookup 0).getD 0 = -1
    · obtain rfl : d' = d := by simpa [hscan, hok] using hd
      have hstart : ∀ q, m.memory q = m.memory q + UInt8.ofInt (share m.ptr (pairs ∅) q) := by simp [share, pairs]
      have hend := exec_distributes hscan (place_zero m.ptr).symm hstart h
      rw [hok.1, place_zero] at hend
      exact ⟨hok.2, hend⟩
    · simp [hscan, hok] at hd

/-- The amounts that the compiler keeps. -/
def kept (order : Iteration) (body : List Instruction) (d : AList (fun _ : Int => Int)) : List (Int × Int) :=
  (order.val body (pairs d)).filter fun kv => kv.2 ≠ 0 ∧ kv.1 ≠ 0

lemma mem_kept {kv : Int × Int} : kv ∈ kept order body d ↔ kv ∈ pairs d ∧ kv.2 ≠ 0 ∧ kv.1 ≠ 0 := by
  rw [kept, List.mem_filter, (order.property body (pairs d)).mem_iff]
  simp

lemma share_filter {P : Int × Int → Prop} [DecidablePred P] (h : ∀ kv ∈ l, ¬ P kv → kv.2 = 0 ∨ place ptr kv.1 ≠ q) :
    share ptr (l.filter P) q = share ptr l q := by
  induction l with
  | nil => rfl
  | cons kv l ih =>
    rw [List.forall_mem_cons] at h
    by_cases hP : P kv
    · rw [List.filter_cons_of_pos (by simpa using hP), share_cons, share_cons, ih h.2]
    · rw [List.filter_cons_of_neg (by simpa using hP), share_cons, ih h.2]
      have hzero : (if place ptr kv.1 = q then kv.2 else 0) = 0 := by
        rcases h.1 hP with hval | hne
        · rw [hval, ite_self]
        · rw [if_neg hne]
      rw [hzero, Int.zero_add]

lemma share_kept (hq : q ≠ ptr) : share ptr (kept order body d) q = share ptr (pairs d) q := by
  rw [kept, share_filter, share_perm (order.property body (pairs d))]
  intro kv _ hkv
  by_cases hval : kv.2 = 0
  · exact Or.inl hval
  · have hshift : kv.1 = 0 := by
      by_contra hne
      exact hkv ⟨hval, hne⟩
    right
    rw [hshift, place_zero]
    exact hq.symm

/-- If none of the amounts kept goes to the current cell, it only loses one. -/
lemma share_self (hone : (d.lookup 0).getD 0 = -1) (hother : ∀ kv ∈ kept order body d, place ptr kv.1 ≠ ptr) :
    share ptr (pairs d) ptr = -1 := by
  rw [share_erase d 0, place_zero, if_pos rfl, hone, share_eq_zero]
  · rfl
  · intro kv hkv
    obtain ⟨hmem, hshift⟩ := mem_pairs_erase hkv
    by_cases hval : kv.2 = 0
    · exact Or.inl hval
    · exact Or.inr (hother kv (mem_kept.2 ⟨hmem, hval, hshift⟩))

/-- What one turn of the loop takes from the current cell the updates would have distributed. -/
lemma spread_turn (hone : (d.lookup 0).getD 0 = -1) (hother : ∀ kv ∈ kept order body d, place m.ptr kv.1 ≠ m.ptr) :
    (spread { m with memory := fun q => m.memory q + UInt8.ofInt (share m.ptr (pairs d) q) } (kept order body d)).put
      0 =
      (spread m (kept order body d)).put 0 := by
  have hcell : ({ m with memory := fun q => m.memory q + UInt8.ofInt (share m.ptr (pairs d) q) } : Machine).cell =
      m.cell + -1 := by
    change m.memory m.ptr + UInt8.ofInt (share m.ptr (pairs d) m.ptr) = _
    rw [share_self hone hother, UInt8.ofInt_neg_one, Machine.cell]
  simp only [spread, Machine.put]
  congr 1
  funext q
  by_cases hq : q = m.ptr
  · rw [hq, Function.update_self, Function.update_self]
  · rw [Function.update_of_ne hq, Function.update_of_ne hq, share_kept hq, hcell]
    grind

/-- A simple distribution loop does what the updates and the clearing do that replace it. -/
theorem updates_of_while (hd : validateSimpleDistributionLoop body = some d)
    (h : While Machine.NonZero (Prog.ExecList Does body) m m') : Prog.ExecList Does (updates order body d) m m' := by
  have hzero : m'.cell = 0 := not_not.1 h.exit
  have hclear : Prog.ExecList Does [⟨.CLEAR, 1, 0⟩] m' m' := ⟨m', (Machine.put_eq_self hzero).symm, rfl⟩
  by_cases hm : m.NonZero
  · by_cases hself : ∃ kv ∈ kept order body d, place m.ptr kv.1 = m.ptr
    · exact Prog.execList_append.2 ⟨m', exec_updates_self hself hm hzero, hclear⟩
    · have hother : ∀ kv ∈ kept order body d, place m.ptr kv.1 ≠ m.ptr := fun kv hkv heq => hself ⟨kv, hkv, heq⟩
      have hend : (spread m' (kept order body d)).put 0 = (spread m (kept order body d)).put 0 := by
        refine h.preserves (fun s => s.ptr = m.ptr) (fun s => (spread s (kept order body d)).put 0) ?_ rfl
        rintro s t hs - hR
        obtain ⟨hone, rfl⟩ := turn_of_validate hd hR
        exact ⟨hs, spread_turn hone (by rwa [hs])⟩
      have hsame : (spread m' (kept order body d)).put 0 = m' := by
        simp [spread, hzero, Machine.put_eq_self hzero]
      rw [hsame] at hend
      exact Prog.execList_append.2 ⟨_, exec_updates hother, m', hend, rfl⟩
  · obtain rfl : m = m' := by
      cases h with
      | stop _ => rfl
      | again hguard _ _ => exact absurd hguard hm
    exact Prog.execList_append.2 ⟨m, exec_updates_zero hzero _, hclear⟩

/-- Closing a loop keeps what the program means. -/
lemma intends_close {p q : Prog Instruction} {m₁ : Machine} (h : Intends p m m₁)
    (hloop : While Machine.NonZero (Intends q) m₁ m') : Intends (close order p q) m m' := by
  rw [close]
  cases hq : q.straight with
  | none => exact ⟨m₁, h, hloop⟩
  | some body =>
    have hbody : While Machine.NonZero (Prog.ExecList Does body) m₁ m' :=
      hloop.mono fun s t hst => (Prog.exec_of_straight hq).1 hst
    rw [Option.bind_some, rewritten]
    by_cases hval : body.map Instruction.opcode = [.UPDATEVAL]
    · obtain ⟨i, rfl, hi⟩ := List.map_eq_singleton_iff.1 hval
      rw [if_pos hval]
      exact Prog.exec_append.2 ⟨m₁, h, m', put_of_while hi hbody, rfl⟩
    · rw [if_neg hval]
      by_cases hptr : body.map Instruction.opcode = [.SHIFTPTR]
      · obtain ⟨i, rfl, hi⟩ := List.map_eq_singleton_iff.1 hptr
        rw [if_pos hptr]
        exact Prog.exec_append.2 ⟨m₁, h, m', search_of_while hi hbody, rfl⟩
      · rw [if_neg hptr]
        cases hd : validateSimpleDistributionLoop body with
        | none => exact ⟨m₁, h, hloop⟩
        | some d => exact Prog.exec_append.2 ⟨m₁, h, updates_of_while hd hbody⟩

/-- What a program means the bytecode emitted for it is for. -/
theorem intends_emit (order : Iteration) {p : Prog Command} (h : Means p m m') : Intends (emit order p) m m' := by
  induction p generalizing m m' with
  | nil => exact h
  | snoc p ch ih =>
    obtain ⟨m₁, hp, rfl⟩ := h
    exact intends_emitCommand (ih hp) ch
  | loop p body ih ihbody =>
    obtain ⟨m₁, hp, hloop⟩ := h
    exact intends_close (ih hp) (hloop.mono fun s t hst => ihbody hst)

end CppExperiments.Brainfuck

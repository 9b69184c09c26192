import CppExperiments.Lib.Bytes
import CppExperiments.Lib.Calls
import CppExperiments.Lib.Backtracking
import CppExperiments.Lib.Fuel
import CppExperiments.Lib.Text
import Mathlib.Data.List.FinRange
import Mathlib.Data.List.Nodup
import Mathlib.Logic.Function.Basic

/-!
# Sudoku

The board, the candidates of a cell, the recursion that fills the board, and how a board is read from a file.
-/

namespace CppExperiments.Sudoku

inductive Fault where
  | running
  | outOfRange
  deriving DecidableEq

abbrev Cell := Fin 9 × Fin 9

abbrev Board := Cell → UInt8

/-- The mark of an empty cell. -/
def dot : UInt8 := 46

/-- The game; `γ` is the state of the random generator. -/
structure Game (γ : Type) where
  board : Board
  random_gen : γ
  solutions : List Board

/-- The cell of two indices, where they are within the board. -/
def cell (row col : Nat) : Option Cell := if h : row < 9 ∧ col < 9 then some (⟨row, h.1⟩, ⟨col, h.2⟩) else none

/-- A `char` as `std::size_t`. -/
def sizeT (ch : UInt8) : Nat := if ch.toNat < 128 then ch.toNat else ch.toNat + (2 ^ 64 - 256)

/-- The three indices of a box. -/
def boxRange (x : Fin 9) : List (Fin 9) :=
  (List.finRange 9).filter fun i => decide (x.val / 3 * 3 ≤ i.val ∧ i.val < x.val / 3 * 3 + 3)

/-- The cells that are looked at for the candidates of a cell. -/
def looked (c : Cell) : List Cell :=
  (List.finRange 9).map (fun j => (c.1, j)) ++ (List.finRange 9).map (fun i => (i, c.2)) ++
    (boxRange c.1).flatMap fun i => (boxRange c.2).map fun j => (i, j)

/-- The digit in a cell is no candidate. -/
def exclude (board : Board) (candidates : List Bool) (c : Cell) : Except Fault (List Bool) :=
  if board c ≠ dot then
    if (sizeT (board c) + (2 ^ 64 - 49)) % 2 ^ 64 < candidates.length then
      .ok (candidates.set ((sizeT (board c) + (2 ^ 64 - 49)) % 2 ^ 64) false)
    else .error .outOfRange
  else .ok candidates

def getCandidates (board : Board) (c : Cell) : Except Fault (List Nat) := do
  let candidates ← (looked c).foldlM (exclude board) (List.replicate 9 true)
  .ok ((List.range 9).filter fun idx => candidates.getD idx false)

def digit (i : Nat) : UInt8 := UInt8.ofNat (i + 1 + 48)

section

variable {γ : Type} (shuffle : List Nat → γ → List Nat × γ)

/-- One candidate after the other is put into the cell. -/
def tryAll (randomized : Bool) (c : Cell) (next : Game γ → Except Fault (Bool × Game γ)) :
    List Nat → Game γ → Except Fault (Bool × Game γ)
  | [], s => .ok (false, s)
  | i :: candidates, s => do
    let r ← next { s with board := Function.update s.board c (digit i) }
    if r.1 = true ∧ randomized = true then .ok (true, r.2)
    else tryAll randomized c next candidates { r.2 with board := Function.update r.2.board c dot }

def order (randomized : Bool) (candidates : List Nat) (s : Game γ) : List Nat × Game γ :=
  if randomized = true then
    ((shuffle candidates s.random_gen).1, { s with random_gen := (shuffle candidates s.random_gen).2 })
  else (candidates, s)

def backtrack : Nat → Nat → Nat → Bool → Game γ → Except Fault (Bool × Game γ)
  | 0, _, _, _, _ => .error .running
  | n + 1, row, col, randomized, s =>
    if row = 9 then .ok (true, { s with solutions := s.solutions ++ [s.board] })
    else if col = 9 then backtrack n (row + 1) 0 randomized s
    else
      match cell row col with
      | none => .error .outOfRange
      | some c =>
        if s.board c ≠ dot then backtrack n row (col + 1) randomized s
        else do
          let candidates ← getCandidates s.board c
          let r := order shuffle randomized candidates s
          tryAll randomized c (backtrack n row (col + 1) randomized) r.1 r.2

end

/-! ## Reading -/

def isBoardChar (ch : UInt8) : Bool := isDigit ch || ch == dot

/-- The loop over the characters of a file; what is no digit and no dot is passed over. -/
def readLoop : Bytes → Board → Nat → Nat → Except Fault (Board × Nat × Nat)
  | [], grid, row, col => .ok (grid, row, col)
  | ch :: text, grid, row, col =>
    if isSpace ch = true then readLoop text grid row col
    else if isBoardChar ch = true ∧ row = 9 then .ok (grid, row, col + 1)
    else if isBoardChar ch = true then
      match cell row col with
      | none => .error .outOfRange
      | some c =>
        if col + 1 = 9 then readLoop text (Function.update grid c ch) (row + 1) 0
        else readLoop text (Function.update grid c ch) row (col + 1)
    else if col = 9 then readLoop text grid (row + 1) 0
    else readLoop text grid row col

/-- The board in a file; the program exits where there is none. The grid is not initialized. -/
def read (grid : Board) (text : Bytes) : Except Fault (Option Board) := do
  let r ← readLoop text grid 0 0
  .ok (if r.2.1 = 9 ∧ r.2.2 = 0 then some r.1 else none)

end CppExperiments.Sudoku

/-!
## The solutions of a Sudoku

The recursion lists the fillings of the empty cells. What is given it does not check.
-/

namespace CppExperiments.Sudoku

open Filling (Free Extends Consistent Valid)

/-- The cells are in one row, in one column or in one box. -/
def Sees (c c' : Cell) : Prop :=
  c.1 = c'.1 ∨ c.2 = c'.2 ∨ (c.1.val / 3 = c'.1.val / 3 ∧ c.2.val / 3 = c'.2.val / 3)

/-- The digits from one to nine. -/
def IsValue (ch : UInt8) : Prop := 49 ≤ ch.toNat ∧ ch.toNat ≤ 57

/-- The order in which the cells are filled. -/
def Before (c c' : Cell) : Prop := c.1 < c'.1 ∨ c.1 = c'.1 ∧ c.2 < c'.2

/-- In front of the cell all the empty ones can be filled. -/
def Reached (board : Board) (c : Cell) : Prop :=
  ∃ f, Extends Sees IsValue dot board f ∧ ∀ c', Before c' c → f c' ≠ dot

/-- Something that is no digit from one to nine is among what the cell sees. -/
def Misled (board : Board) (c : Cell) : Prop := ∃ z, Sees c z ∧ board z ≠ dot ∧ ¬ IsValue (board z)

/-- No empty cell that sees something other than a digit from one to nine is reached. -/
def Safe (board : Board) : Prop := ∀ c, board c = dot → Misled board c → ¬ Reached board c

variable {board grid : Board} {c c' z : Cell} {ch : UInt8} {candidates : List Bool} {i j d : Nat}

lemma sees_symm (c c' : Cell) (h : Sees c c') : Sees c' c := by
  rcases h with h | h | h
  · exact .inl h.symm
  · exact .inr (.inl h.symm)
  · exact .inr (.inr ⟨h.1.symm, h.2.symm⟩)

lemma IsValue.ne_dot (h : IsValue ch) : ch ≠ dot := by
  rintro rfl
  exact absurd h.1 (by decide)

/-! ## Candidates -/

lemma mem_boxRange {x y : Fin 9} : y ∈ boxRange x ↔ x.val / 3 = y.val / 3 := by
  rw [boxRange, List.mem_filter, decide_eq_true_eq]
  have := List.mem_finRange y
  constructor
  · rintro ⟨-, h⟩
    omega
  · intro h
    exact ⟨this, by omega⟩

lemma mem_looked : z ∈ looked c ↔ Sees c z := by
  obtain ⟨row, col⟩ := c
  obtain ⟨row', col'⟩ := z
  rw [looked, List.mem_append, List.mem_append, Sees]
  simp only [List.mem_map, List.mem_finRange, true_and, List.mem_flatMap, mem_boxRange, Prod.mk.injEq, or_assoc,
    exists_eq_right_right, exists_and_left, exists_eq_left, exists_eq, and_true]

/-- The index of a character among the candidates. -/
lemma index_lt_iff (ch : UInt8) : (sizeT ch + (2 ^ 64 - 49)) % 2 ^ 64 < 9 ↔ IsValue ch := by
  have := ch.toNat_lt
  rw [sizeT, IsValue]
  split <;> omega

lemma digit_index (h : IsValue ch) : digit ((sizeT ch + (2 ^ 64 - 49)) % 2 ^ 64) = ch := by
  have hsize : sizeT ch = ch.toNat := if_pos (by have := h.2; omega)
  have hindex : (ch.toNat + (2 ^ 64 - 49)) % 2 ^ 64 + 1 + 48 = ch.toNat := by
    have := h.1
    have := h.2
    omega
  rw [digit, hsize, hindex, UInt8.ofNat_toNat]

lemma toNat_digit (hd : d < 9) : (digit d).toNat = d + 49 := by
  rw [digit, UInt8.toNat_ofNat']
  omega

lemma isValue_digit (hd : d < 9) : IsValue (digit d) := by
  rw [IsValue, toNat_digit hd]
  omega

lemma index_digit (hd : d < 9) : (sizeT (digit d) + (2 ^ 64 - 49)) % 2 ^ 64 = d := by
  have hsize : sizeT (digit d) = d + 49 := by
    rw [sizeT, toNat_digit hd, if_pos (by omega)]
  rw [hsize]
  omega

lemma exists_digit (h : IsValue ch) : ∃ d < 9, ch = digit d :=
  ⟨_, (index_lt_iff ch).2 h, (digit_index h).symm⟩

lemma digit_injective {e : Nat} (hd : d < 9) (he : e < 9) (h : digit d = digit e) : d = e := by
  rw [← index_digit hd, h, index_digit he]

lemma exclude_dot (h : board c = dot) (candidates : List Bool) : exclude board candidates c = .ok candidates :=
  if_neg (not_not.2 h)

/-- What is left of the candidates behind some cells. -/
lemma foldlM_exclude {cells : List Cell} (hlength : candidates.length = 9)
    (h : ∀ z ∈ cells, board z ≠ dot → IsValue (board z)) :
    ∃ left : List Bool, cells.foldlM (exclude board) candidates = .ok left ∧ left.length = 9 ∧
      ∀ d < 9, (left.getD d false = true ↔ candidates.getD d false = true ∧ ∀ z ∈ cells, board z ≠ digit d) := by
  induction cells generalizing candidates with
  | nil => exact ⟨candidates, rfl, hlength, fun d _ => by simp⟩
  | cons z cells ih =>
    rw [List.forall_mem_cons] at h
    by_cases hz : board z = dot
    · obtain ⟨left, hleft, hlength', hmem⟩ := ih hlength h.2
      refine ⟨left, ?_, hlength', fun d hd => ?_⟩
      · rw [List.foldlM_cons, exclude_dot hz, ok_bind, hleft]
      · have hne : board z ≠ digit d := fun heq => (isValue_digit hd).ne_dot (heq.symm.trans hz)
        rw [hmem d hd, List.forall_mem_cons, and_iff_right hne]
    · have hlt := (index_lt_iff (board z)).2 (h.1 hz)
      obtain ⟨idx, hidx⟩ : ∃ idx, idx = (sizeT (board z) + (2 ^ 64 - 49)) % 2 ^ 64 := ⟨_, rfl⟩
      have hexclude : exclude board candidates z = .ok (candidates.set idx false) := by
        rw [exclude, if_pos hz, hlength, if_pos hlt, hidx]
      have hat : board z = digit idx := by rw [hidx, digit_index (h.1 hz)]
      rw [← hidx] at hlt
      obtain ⟨left, hleft, hlength', hmem⟩ := @ih (candidates.set idx false) (by rw [List.length_set, hlength]) h.2
      refine ⟨left, ?_, hlength', fun d hd => ?_⟩
      · rw [List.foldlM_cons, hexclude, ok_bind, hleft]
      · have hset : (candidates.set idx false).getD d false = true ↔ candidates.getD d false = true ∧ idx ≠ d := by
          rw [List.getD_eq_getElem?_getD, List.getD_eq_getElem?_getD, List.getElem?_set]
          by_cases heq : idx = d
          · rw [if_pos heq]
            split <;> simp [heq]
          · rw [if_neg heq]
            simp [heq]
        have hdigit : board z ≠ digit d ↔ idx ≠ d := by
          rw [hat]
          exact not_congr ⟨digit_injective hlt hd, fun heq => heq ▸ rfl⟩
        rw [hmem d hd, hset, List.forall_mem_cons, hdigit, and_assoc]

lemma foldlM_exclude_error {cells : List Cell} (hlength : candidates.length = 9)
    (h : ∃ z ∈ cells, board z ≠ dot ∧ ¬ IsValue (board z)) :
    cells.foldlM (exclude board) candidates = .error .outOfRange := by
  induction cells generalizing candidates with
  | nil => exact absurd h (by simp)
  | cons z cells ih =>
    by_cases hz : board z = dot
    · obtain ⟨z', hz', hne, hvalue⟩ := h
      rcases List.mem_cons.1 hz' with rfl | hz'
      · exact absurd hz hne
      · rw [List.foldlM_cons, exclude_dot hz, ok_bind, ih hlength ⟨z', hz', hne, hvalue⟩]
    · by_cases hvalue : IsValue (board z)
      · obtain ⟨z', hz', hne, hvalue'⟩ := h
        have hexclude : exclude board candidates z =
            .ok (candidates.set ((sizeT (board z) + (2 ^ 64 - 49)) % 2 ^ 64) false) := by
          rw [exclude, if_pos hz, hlength, if_pos ((index_lt_iff (board z)).2 hvalue)]
        rcases List.mem_cons.1 hz' with rfl | hz'
        · exact absurd hvalue hvalue'
        · rw [List.foldlM_cons, hexclude, ok_bind, ih (by rw [List.length_set, hlength]) ⟨z', hz', hne, hvalue'⟩]
      · rw [List.foldlM_cons, exclude, if_pos hz, hlength, if_neg fun hlt => hvalue ((index_lt_iff (board z)).1 hlt),
          error_bind]

/-- The candidates of a cell, in ascending order. -/
lemma getCandidates_ok (h : ¬ Misled board c) : ∃ ds, getCandidates board c = .ok ds ∧ ds.Nodup ∧
    ∀ d, d ∈ ds ↔ d < 9 ∧ ∀ z, Sees c z → board z ≠ digit d := by
  have hvalues : ∀ z ∈ looked c, board z ≠ dot → IsValue (board z) := by
    intro z hz hne
    by_contra hvalue
    exact h ⟨z, mem_looked.1 hz, hne, hvalue⟩
  obtain ⟨left, hleft, -, hmem⟩ := foldlM_exclude (List.length_replicate (n := 9) (a := true)) hvalues
  refine ⟨_, by rw [getCandidates, hleft, ok_bind], List.nodup_range.filter _, fun d => ?_⟩
  rw [List.mem_filter, List.mem_range]
  refine and_congr_right fun hd => ?_
  rw [hmem d hd]
  have hfull : (List.replicate 9 true).getD d false = true := by
    rw [List.getD_eq_getElem?_getD, List.getElem?_replicate, if_pos hd, Option.getD_some]
  rw [and_iff_right hfull]
  exact forall_congr' fun z => by rw [mem_looked]

lemma getCandidates_error (h : Misled board c) : getCandidates board c = .error .outOfRange := by
  obtain ⟨z, hsees, hz⟩ := h
  rw [getCandidates, foldlM_exclude_error List.length_replicate ⟨z, mem_looked.2 hsees, hz⟩, error_bind]

/-! ## One cell -/

/-- Everything in front of the cell is filled. -/
def FilledUpTo (board : Board) (c : Cell) : Prop := ∀ c', Before c' c → board c' ≠ dot

lemma before_of_not (hc : FilledUpTo board c) (hdot : board c' = dot) (hne : c' ≠ c) : Before c c' := by
  have hnot : ¬ Before c' c := fun h => hc c' h hdot
  rw [Before] at hnot ⊢
  rcases lt_trichotomy c.1 c'.1 with h | h | h
  · exact .inl h
  · rcases lt_trichotomy c.2 c'.2 with h' | h' | h'
    · exact .inr ⟨h, h'⟩
    · exact absurd (Prod.ext h h').symm hne
    · exact absurd (.inr ⟨h.symm, h'⟩) hnot
  · exact absurd (.inl h) hnot

lemma free_digit (hd : d < 9) (h : ∀ z, Sees c z → board z ≠ digit d) : Free Sees IsValue board c (digit d) :=
  ⟨isValue_digit hd, fun z hsees _ => h z hsees⟩

/-- A filling puts a digit into the next cell that is among its candidates. -/
lemma extends_iff_exists {f : Board} (hc : board c = dot) (hf : f c ≠ dot) : Extends Sees IsValue dot board f ↔
    ∃ d < 9, (∀ z, Sees c z → board z ≠ digit d) ∧ Extends Sees IsValue dot (Function.update board c (digit d)) f := by
  constructor
  · intro h
    have hfree := h.free_given hc hf
    obtain ⟨d, hd, heq⟩ := exists_digit hfree.1
    refine ⟨d, hd, fun z hsees hz => ?_, heq ▸ h.update⟩
    by_cases hne : z = c
    · exact (isValue_digit hd).ne_dot (hz.symm.trans (hne ▸ hc))
    · exact hfree.2 z hsees hne (hz.trans heq.symm)
  · rintro ⟨d, hd, hfree, h⟩
    exact h.of_update sees_symm (isValue_digit hd).ne_dot (free_digit hd hfree) hc

lemma Misled.of_update (hd : d < 9) (h : Misled (Function.update board c' (digit d)) c) : Misled board c := by
  obtain ⟨z, hsees, hz, hvalue⟩ := h
  by_cases hne : z = c'
  · rw [hne, Function.update_self] at hvalue
    exact absurd (isValue_digit hd) hvalue
  · rw [Function.update_of_ne hne] at hz hvalue
    exact ⟨z, hsees, hz, hvalue⟩

lemma Misled.update (hc : board c' = dot) (h : Misled board c) : Misled (Function.update board c' (digit d)) c := by
  obtain ⟨z, hsees, hz, hvalue⟩ := h
  have hne : z ≠ c' := fun heq => hz (heq ▸ hc)
  exact ⟨z, hsees, by rwa [Function.update_of_ne hne], by rwa [Function.update_of_ne hne]⟩

lemma Safe.not_misled (h : Safe board) (hc : board c = dot) (hfilled : FilledUpTo board c) : ¬ Misled board c :=
  fun hmisled => h c hc hmisled ⟨board, Filling.extends_refl board, hfilled⟩

lemma safe_iff (hc : board c = dot) (hfilled : FilledUpTo board c) (hmisled : ¬ Misled board c) : Safe board ↔
    ∀ d < 9, (∀ z, Sees c z → board z ≠ digit d) → Safe (Function.update board c (digit d)) := by
  constructor
  · rintro h d hd hfree c' hc' hmisled' ⟨f, hf, hbefore⟩
    have hne : c' ≠ c := by
      rintro rfl
      rw [Function.update_self] at hc'
      exact (isValue_digit hd).ne_dot hc'
    rw [Function.update_of_ne hne] at hc'
    exact h c' hc' (hmisled'.of_update hd)
      ⟨f, hf.of_update sees_symm (isValue_digit hd).ne_dot (free_digit hd hfree) hc, hbefore⟩
  · rintro h c' hc' hmisled' ⟨f, hf, hbefore⟩
    have hne : c' ≠ c := fun heq => hmisled (heq ▸ hmisled')
    obtain ⟨d, hd, hfree, hf'⟩ := (extends_iff_exists hc (hbefore c (before_of_not hfilled hc' hne))).1 hf
    refine h d hd hfree c' ?_ (hmisled'.update hc) ⟨f, hf', hbefore⟩
    rwa [Function.update_of_ne hne]

/-! ## The recursion -/

/-- The boards are those in which all empty cells are filled. -/
structure Lists (board : Board) (solutions : List Board) : Prop where
  nodup : solutions.Nodup
  mem : ∀ g, g ∈ solutions ↔ Extends Sees IsValue dot board g ∧ ∀ c, g c ≠ dot

section

variable {γ : Type} {gen : γ} {call : Nat → Game γ → Except Fault (Bool × Game γ)}
  {shuffle : List Nat → γ → List Nat × γ}

/-- A call that adds all solutions of the board, or leaves the array of the candidates. -/
structure Enumerates (call : Nat → Game γ → Except Fault (Bool × Game γ)) (board : Board) : Prop where
  safe : Safe board → ∃ found, Lists board found ∧ ∀ gen sols, ∃ r,
    Comes .running (fun n => call n ⟨board, gen, sols⟩) (.ok (r, ⟨board, gen, sols ++ found⟩))
  misled : ¬ Safe board → ∀ gen sols, Comes .running (fun n => call n ⟨board, gen, sols⟩) (.error .outOfRange)

lemma lists_of_full (h : ∀ c, board c ≠ dot) : Lists board [board] := by
  refine ⟨List.nodup_singleton board, fun g => ?_⟩
  rw [List.mem_singleton]
  constructor
  · rintro rfl
    exact ⟨Filling.extends_refl g, h⟩
  · exact fun hg => hg.1.eq_of_full h

lemma tryAll_cons (next : Game γ → Except Fault (Bool × Game γ)) (d : Nat) (ds : List Nat) (s : Game γ) :
    tryAll false c next (d :: ds) s = next { s with board := Function.update s.board c (digit d) } >>= fun r =>
      tryAll false c next ds { r.2 with board := Function.update r.2.board c dot } := by
  rw [tryAll]
  congr 1
  funext r
  rw [if_neg fun h => Bool.false_ne_true h.2]

lemma update_back (hc : board c = dot) (ch : UInt8) :
    Function.update (Function.update board c ch) c dot = board := by
  rw [Function.update_idem, ← hc, Function.update_eq_self]

/-- One digit after the other has its solutions added. -/
lemma comes_tryAll (hc : board c = dot) {ds : List Nat} (hnodup : ds.Nodup) (hlt : ∀ d ∈ ds, d < 9)
    (hcall : ∀ d ∈ ds, Enumerates call (Function.update board c (digit d)))
    (hsafe : ∀ d ∈ ds, Safe (Function.update board c (digit d))) :
    ∃ found : List Board, found.Nodup ∧
      (∀ g, g ∈ found ↔ ∃ d ∈ ds, Extends Sees IsValue dot (Function.update board c (digit d)) g ∧ ∀ c, g c ≠ dot) ∧
      ∀ gen sols, Comes .running (fun n => tryAll false c (call n) ds ⟨board, gen, sols⟩)
        (.ok (false, ⟨board, gen, sols ++ found⟩)) := by
  induction ds with
  | nil =>
    refine ⟨[], List.nodup_nil, by simp, fun gen sols => ?_⟩
    rw [List.append_nil]
    exact comes_const _
  | cons d ds ih =>
    rw [List.forall_mem_cons] at hlt hcall hsafe
    rw [List.nodup_cons] at hnodup
    obtain ⟨first, hfirst, hcomes⟩ := hcall.1.safe hsafe.1
    obtain ⟨found, hfound, hmem, hcomes'⟩ := ih hnodup.2 hlt.2 hcall.2 hsafe.2
    have hat : ∀ {e g}, e < 9 → Extends Sees IsValue dot (Function.update board c (digit e)) g → g c = digit e := by
      intro e g he hg
      have := hg.given c
      rw [Function.update_self] at this
      exact this (isValue_digit he).ne_dot
    refine ⟨first ++ found, ?_, fun g => ?_, fun gen sols => ?_⟩
    · refine List.Nodup.append hfirst.nodup hfound fun g hg hg' => ?_
      obtain ⟨e, he, hext, -⟩ := (hmem g).1 hg'
      have heq := (hat hlt.1 ((hfirst.mem g).1 hg).1).symm.trans (hat (hlt.2 e he) hext)
      exact hnodup.1 (digit_injective hlt.1 (hlt.2 e he) heq ▸ he)
    · rw [List.mem_append, hfirst.mem, hmem, List.exists_mem_cons_iff]
    · obtain ⟨r, hr⟩ := hcomes gen sols
      simp only [tryAll_cons]
      refine hr.bind ?_
      rw [update_back hc, ← List.append_assoc]
      exact hcomes' gen (sols ++ first)

lemma comes_tryAll_error (hc : board c = dot) {ds : List Nat}
    (hcall : ∀ d ∈ ds, Enumerates call (Function.update board c (digit d)))
    (hnot : ∃ d ∈ ds, ¬ Safe (Function.update board c (digit d))) (gen : γ) (sols : List Board) :
    Comes .running (fun n => tryAll false c (call n) ds ⟨board, gen, sols⟩) (.error .outOfRange) := by
  induction ds generalizing sols with
  | nil => exact absurd hnot (by simp)
  | cons d ds ih =>
    rw [List.forall_mem_cons] at hcall
    by_cases hsafe : Safe (Function.update board c (digit d))
    · rw [List.exists_mem_cons_iff, or_iff_right (not_not.2 hsafe)] at hnot
      obtain ⟨first, -, hcomes⟩ := hcall.1.safe hsafe
      obtain ⟨r, hr⟩ := hcomes gen sols
      simp only [tryAll_cons]
      refine hr.bind ?_
      rw [update_back hc]
      exact ih hcall.2 hnot (sols ++ first)
    · simp only [tryAll_cons]
      exact (hcall.1.misled hsafe gen sols).bind_error

/-- The step for an empty cell. -/
lemma Enumerates.of_cell (hc : board c = dot) (hfilled : FilledUpTo board c)
    (hcall : ∀ d < 9, Enumerates call (Function.update board c (digit d))) :
    Enumerates (fun n s => getCandidates s.board c >>= fun candidates => tryAll false c (call n) candidates s)
      board := by
  by_cases hmisled : Misled board c
  · refine ⟨fun hsafe => absurd hmisled (hsafe.not_misled hc hfilled), fun _ gen sols => ?_⟩
    dsimp only
    rw [getCandidates_error hmisled]
    exact comes_const _
  · obtain ⟨ds, hds, hnodup, hmem⟩ := getCandidates_ok hmisled
    have hlt : ∀ d ∈ ds, d < 9 := fun d hd => ((hmem d).1 hd).1
    have hsafe : Safe board ↔ ∀ d ∈ ds, Safe (Function.update board c (digit d)) := by
      rw [safe_iff hc hfilled hmisled]
      exact ⟨fun h d hd => h d (hlt d hd) ((hmem d).1 hd).2, fun h d hd hfree => h d ((hmem d).2 ⟨hd, hfree⟩)⟩
    refine ⟨fun h => ?_, fun h gen sols => ?_⟩
    · obtain ⟨found, hfound, hfills, hcomes⟩ := comes_tryAll hc hnodup hlt (fun d hd => hcall d (hlt d hd)) (hsafe.1 h)
      refine ⟨found, ⟨hfound, fun g => ?_⟩, fun gen sols => ⟨false, ?_⟩⟩
      · rw [hfills]
        constructor
        · rintro ⟨d, hd, hext, hfull⟩
          exact ⟨(extends_iff_exists hc (hfull c)).2 ⟨d, hlt d hd, ((hmem d).1 hd).2, hext⟩, hfull⟩
        · rintro ⟨hext, hfull⟩
          obtain ⟨d, hd, hfree, hext⟩ := (extends_iff_exists hc (hfull c)).1 hext
          exact ⟨d, (hmem d).2 ⟨hd, hfree⟩, hext, hfull⟩
      · dsimp only
        rw [hds]
        exact hcomes gen sols
    · dsimp only
      rw [hds]
      refine comes_tryAll_error hc (fun d hd => hcall d (hlt d hd)) ?_ gen sols
      by_contra hnone
      exact h (hsafe.2 fun d hd => by_contra fun hd' => hnone ⟨d, hd, hd'⟩)

lemma Enumerates.of_succ {call' : Nat → Game γ → Except Fault (Bool × Game γ)} (hzero : ∀ s, call 0 s = .error .running)
    (hsucc : ∀ n gen sols, call (n + 1) ⟨board, gen, sols⟩ = call' n ⟨board, gen, sols⟩) (h : Enumerates call' board) :
    Enumerates call board := by
  constructor
  · intro hsafe
    obtain ⟨found, hlists, hcomes⟩ := h.safe hsafe
    refine ⟨found, hlists, fun gen sols => ?_⟩
    obtain ⟨r, hr⟩ := hcomes gen sols
    exact ⟨r, .of_succ (hzero _) (fun n => hsucc n gen sols) hr⟩
  · exact fun hsafe gen sols => .of_succ (hzero _) (fun n => hsucc n gen sols) (h.misled hsafe gen sols)

lemma cell_eq {row col : Nat} (hrow : row < 9) (hcol : col < 9) :
    ∃ c : Cell, cell row col = some c ∧ c.1.val = row ∧ c.2.val = col :=
  ⟨_, dif_pos ⟨hrow, hcol⟩, rfl, rfl⟩

/-- In front of the indices all cells have this. -/
def AllTo (P : UInt8 → Prop) (board : Board) (row col : Nat) : Prop :=
  ∀ c : Cell, c.1.val < row ∨ c.1.val = row ∧ c.2.val < col → P (board c)

lemma AllTo.next {P : UInt8 → Prop} {row col : Nat} (h : AllTo P board row col) (hrow : c.1.val = row)
    (hcol : c.2.val = col) (hch : P ch) : AllTo P (Function.update board c ch) row (col + 1) := by
  intro c' hc'
  by_cases hne : c' = c
  · rwa [hne, Function.update_self]
  · rw [Function.update_of_ne hne]
    refine h c' ?_
    rcases hc' with hlt | ⟨heq, hlt⟩
    · exact .inl hlt
    · have hcol' : c'.2.val ≠ col := fun hcol' =>
        hne (Prod.ext (Fin.ext (heq.trans hrow.symm)) (Fin.ext (hcol'.trans hcol.symm)))
      exact .inr ⟨heq, by omega⟩

lemma AllTo.newline {P : UInt8 → Prop} {row : Nat} (h : AllTo P board row 9) : AllTo P board (row + 1) 0 :=
  fun c hc => h c (by omega)

lemma AllTo.filledUpTo {row col : Nat} (h : AllTo (· ≠ dot) board row col) (hrow : c.1.val = row)
    (hcol : c.2.val = col) : FilledUpTo board c := by
  intro c' hbefore
  refine h c' ?_
  rcases hbefore with hlt | ⟨heq, hlt⟩
  · exact .inl (hrow ▸ hlt)
  · exact .inr ⟨by rw [heq, hrow], hcol ▸ hlt⟩

/-- From the indices on the recursion adds all solutions. -/
lemma enumerates_backtrack (shuffle : List Nat → γ → List Nat × γ) {row col : Nat} (hrow : row ≤ 9) (hcol : col ≤ 9)
    (hend : row = 9 → col = 0) (hfilled : AllTo (· ≠ dot) board row col) :
    Enumerates (fun n => backtrack shuffle n row col false) board := by
  induction hleft : (9 - row) * 10 + (9 - col) using Nat.strongRecOn generalizing row col board with
  | ind left ih =>
    by_cases hrow9 : row = 9
    · have hfull : ∀ c, board c ≠ dot := fun c => hfilled c (.inl (by omega))
      refine ⟨fun _ => ⟨[board], lists_of_full hfull, fun gen sols => ⟨true, ?_⟩⟩, fun hsafe => ?_⟩
      · exact .of_succ rfl (fun n => if_pos hrow9) (comes_const _)
      · exact absurd (fun c hc => absurd hc (hfull c)) hsafe
    · by_cases hcol9 : col = 9
      · have hnext := ih ((9 - (row + 1)) * 10 + (9 - 0)) (by omega) (by omega) (Nat.zero_le 9) (fun _ => rfl)
          ((hcol9 ▸ hfilled).newline) rfl
        refine hnext.of_succ (fun s => rfl) fun n gen sols => ?_
        rw [backtrack, if_neg hrow9, if_pos hcol9]
      · obtain ⟨c, hc, hc1, hc2⟩ := cell_eq (by omega : row < 9) (by omega : col < 9)
        by_cases hdot : board c = dot
        · have hcell := Enumerates.of_cell hdot (hfilled.filledUpTo hc1 hc2) fun d hd =>
            ih ((9 - row) * 10 + (9 - (col + 1))) (by omega) hrow (by omega) (fun h => absurd h hrow9)
              (hfilled.next hc1 hc2 (isValue_digit hd).ne_dot) rfl
          refine hcell.of_succ (fun s => rfl) fun n gen sols => ?_
          dsimp only
          rw [backtrack, if_neg hrow9, if_neg hcol9, hc]
          dsimp only
          rw [if_neg (not_not.2 hdot)]
          rfl
        · have hnext := ih ((9 - row) * 10 + (9 - (col + 1))) (by omega) hrow (by omega) (fun h => absurd h hrow9)
            (by have := hfilled.next hc1 hc2 hdot; rwa [Function.update_eq_self] at this) rfl
          refine hnext.of_succ (fun s => rfl) fun n gen sols => ?_
          rw [backtrack, if_neg hrow9, if_neg hcol9, hc]
          dsimp only
          rw [if_pos hdot]

/-! ## Boards that are read -/

lemma readLoop_ok {text : Bytes} {row col row' col' : Nat} (hcol : col < 9)
    (hread : AllTo (isBoardChar · = true) board row col) (h : readLoop text board row col = .ok (grid, row', col'))
    (hrow' : row' = 9) (hcol' : col' = 0) : AllTo (isBoardChar · = true) grid 9 0 := by
  induction text generalizing board row col with
  | nil =>
    obtain ⟨rfl, hend⟩ := Prod.mk.inj (Except.ok.inj h)
    obtain ⟨rfl, rfl⟩ := Prod.mk.inj hend
    exact hrow' ▸ hcol' ▸ hread
  | cons ch text ih =>
    rw [readLoop] at h
    by_cases hspace : isSpace ch = true
    · rw [if_pos hspace] at h
      exact ih hcol hread h
    · rw [if_neg hspace] at h
      by_cases hch : isBoardChar ch = true
      · by_cases hrow : row = 9
        · rw [if_pos ⟨hch, hrow⟩] at h
          obtain ⟨-, hend⟩ := Prod.mk.inj (Except.ok.inj h)
          have := (Prod.mk.inj hend).2
          omega
        · rw [if_neg fun hboth => hrow hboth.2, if_pos hch] at h
          cases hc : cell row col with
          | none =>
            rw [hc] at h
            cases h
          | some c =>
            rw [hc] at h
            dsimp only at h
            have hat : c.1.val = row ∧ c.2.val = col := by
              rw [cell] at hc
              split at hc
              · obtain rfl := Option.some.inj hc
                exact ⟨rfl, rfl⟩
              · cases hc
            have hnext := hread.next hat.1 hat.2 hch
            by_cases hlast : col + 1 = 9
            · rw [if_pos hlast] at h
              exact ih (by omega) ((hlast ▸ hnext).newline) h
            · rw [if_neg hlast] at h
              exact ih (by omega) hnext h
      · rw [if_neg fun hboth => hch hboth.1, if_neg hch, if_neg (by omega)] at h
        exact ih hcol hread h

/-- A board that is accepted has digits and dots only. -/
lemma isBoardChar_of_read {init : Board} {text : Bytes} (h : read init text = .ok (some board)) (c : Cell) :
    isBoardChar (board c) = true := by
  obtain ⟨r, hr, hend⟩ := bind_eq_ok h
  have hend := Except.ok.inj hend
  by_cases hfull : r.2.1 = 9 ∧ r.2.2 = 0
  · rw [if_pos hfull] at hend
    obtain rfl := Option.some.inj hend
    exact readLoop_ok (by omega) (fun c hc => by omega) hr hfull.1 hfull.2 c (.inl (by omega))
  · rw [if_neg hfull] at hend
    cases hend

/-! ## What the recursion finds -/

/-- All empty cells can be filled. -/
def Fillable (board : Board) : Prop := ∃ f, Extends Sees IsValue dot board f ∧ ∀ c, f c ≠ dot

/-- No empty cell that sees a zero is reached. -/
def ZerosUnreached (board : Board) : Prop := ∀ c z, board c = dot → Sees c z → board z = 48 → ¬ Reached board c

/-- The valid grids with what is given, each of them once, and nothing else. -/
def Solved (board : Board) (found : List Board) : Prop :=
  found.Nodup ∧ ∀ g, g ∈ found ↔ (∀ c, board c ≠ dot → g c = board c) ∧ Valid Sees IsValue g

lemma eq_zero_of_isBoardChar (hch : isBoardChar ch = true) (hdot : ch ≠ dot) (hvalue : ¬ IsValue ch) : ch = 48 := by
  rw [isBoardChar, isDigit, Bool.or_eq_true, decide_eq_true_eq, beq_iff_eq, or_iff_left hdot] at hch
  have hle := UInt8.le_iff_toNat_le.1 hch.1
  have hge := UInt8.le_iff_toNat_le.1 hch.2
  have h48 : (48 : UInt8).toNat = 48 := rfl
  have h57 : (57 : UInt8).toNat = 57 := rfl
  rw [IsValue] at hvalue
  refine UInt8.toNat_inj.1 ?_
  omega

lemma safe_iff_zerosUnreached (hchars : ∀ c, isBoardChar (board c) = true) : Safe board ↔ ZerosUnreached board := by
  constructor
  · intro h c z hc hsees hz
    exact h c hc ⟨z, hsees, by rw [hz]; decide, by rw [hz, IsValue]; decide⟩
  · rintro h c hc ⟨z, hsees, hz, hvalue⟩
    exact h c z hc hsees (eq_zero_of_isBoardChar (hchars z) hz hvalue)

lemma safe_of_consistent (h : Consistent Sees IsValue dot board) : Safe board := by
  rintro c - ⟨z, -, hz, hvalue⟩
  exact absurd (h z hz).1 hvalue

lemma lists_solved_iff {found : List Board} (h : Lists board found) :
    Solved board found ↔ Consistent Sees IsValue dot board ∨ ¬ Fillable board := by
  constructor
  · intro hsolved
    by_contra hnot
    rw [not_or, not_not] at hnot
    obtain ⟨f, hf, hfull⟩ := hnot.2
    obtain ⟨hgiven, hvalid⟩ := (hsolved.2 f).1 ((h.mem f).2 ⟨hf, hfull⟩)
    exact hnot.1 (hvalid.consistent hgiven)
  · intro hor
    refine ⟨h.nodup, fun g => ?_⟩
    rw [h.mem]
    constructor
    · rintro ⟨hg, hfull⟩
      have hconsistent := hor.resolve_right (not_not.2 ⟨g, hg, hfull⟩)
      exact ⟨hg.given, hconsistent.valid hg hfull sees_symm⟩
    · rintro ⟨hgiven, hvalid⟩
      exact ⟨hvalid.extends hgiven, fun c => (hvalid c).1.ne_dot⟩

lemma enumerates_start (shuffle : List Nat → γ → List Nat × γ) (board : Board) :
    Enumerates (fun n => backtrack shuffle n 0 0 false) board :=
  enumerates_backtrack shuffle (Nat.zero_le 9) (Nat.zero_le 9) (fun h => by omega) fun c hc => by omega

/-- The solutions are listed and the board is as before where the givens agree with each other, and else where no empty
cell is misled by a zero and they leave no way to fill the board. -/
theorem backtrack_solves_iff {init : Board} {text : Bytes} (h : read init text = .ok (some board))
    (shuffle : List Nat → γ → List Nat × γ) (gen : γ) :
    (∃ r s, Comes .running (fun n => backtrack shuffle n 0 0 false ⟨board, gen, []⟩) (.ok (r, s)) ∧
      Solved board s.solutions ∧ s.board = board) ↔
      Consistent Sees IsValue dot board ∨ ZerosUnreached board ∧ ¬ Fillable board := by
  have hsafe := safe_iff_zerosUnreached (isBoardChar_of_read h)
  have hcalls := enumerates_start shuffle board
  constructor
  · rintro ⟨r, s, hcomes, hsolved, hboard⟩
    by_cases hs : Safe board
    · obtain ⟨found, hlists, hfound⟩ := hcalls.safe hs
      obtain ⟨r', hr'⟩ := hfound gen []
      obtain ⟨-, rfl⟩ := Prod.mk.inj (Except.ok.inj (hcomes.unique hr'))
      exact ((lists_solved_iff hlists).1 hsolved).imp_right fun hnone => ⟨hsafe.1 hs, hnone⟩
    · exact absurd (hcomes.unique (hcalls.misled hs gen [])) nofun
  · intro hor
    have hs : Safe board := hor.elim safe_of_consistent fun hnone => hsafe.2 hnone.1
    obtain ⟨found, hlists, hfound⟩ := hcalls.safe hs
    obtain ⟨r, hr⟩ := hfound gen []
    exact ⟨r, _, hr, (lists_solved_iff hlists).2 (hor.imp_right And.right), rfl⟩

end

/-- Three digits, and 78 cells that are empty. -/
def givensText : Bytes := ascii "53..7...." ++ List.replicate 72 46

def givens : Board := fun c => if c = (0, 0) then 53 else if c = (0, 1) then 51 else if c = (0, 4) then 55 else dot

lemma read_givens : read (fun _ => 0) givensText = .ok (some givens) := by
  have hread : ∃ board, read (fun _ => 0) givensText = .ok (some board) ∧ ∀ i j : Fin 9, board (i, j) = givens (i, j) :=
    ⟨_, rfl, by decide +kernel⟩
  obtain ⟨board, hread, hboard⟩ := hread
  obtain rfl : board = givens := funext fun c => hboard c.1 c.2
  exact hread

lemma consistent_givens : Consistent Sees IsValue dot givens := by
  intro c hc
  have hgiven : c = (0, 0) ∨ c = (0, 1) ∨ c = (0, 4) := by
    by_contra hnot
    rw [not_or, not_or] at hnot
    rw [givens, if_neg hnot.1, if_neg hnot.2.1, if_neg hnot.2.2] at hc
    exact hc rfl
  rcases hgiven with rfl | rfl | rfl
  all_goals
    refine ⟨by unfold IsValue; decide, fun c' _ hne => ?_⟩
    rw [givens]
    simp only [if_neg hne]
    split_ifs <;> decide

/-- Three digits that agree with each other are solved. -/
theorem backtrack_solves_iff_givens :
    ∃ r s, Comes .running (fun n => backtrack (fun l (gen : Unit) => (l, gen)) n 0 0 false ⟨givens, (), []⟩)
      (.ok (r, s)) ∧ Solved givens s.solutions ∧ s.board = givens :=
  (backtrack_solves_iff read_givens _ ()).2 (.inl consistent_givens)

/-- A zero, and 80 cells that are empty. -/
def zeroText : Bytes := 48 :: List.replicate 80 46

lemma read_zeroText :
    ∃ board, read (fun _ => 0) zeroText = .ok (some board) ∧ board (0, 0) = 48 ∧ board (0, 1) = dot :=
  ⟨_, rfl, rfl, rfl⟩

/-- Next to the zero the candidates of the first empty cell are marked outside of their array. -/
theorem not_solves_of_zero : ¬ ∀ (init : Board) (text : Bytes) (board : Board), read init text = .ok (some board) →
    ∃ r s, Comes .running (fun n => backtrack (fun l (gen : Unit) => (l, gen)) n 0 0 false ⟨board, (), []⟩)
      (.ok (r, s)) ∧ Solved board s.solutions ∧ s.board = board := by
  intro h
  obtain ⟨board, hread, hzero, hdot⟩ := read_zeroText
  obtain ⟨r, s, hcomes, -⟩ := h _ _ board hread
  have hsafe : ¬ Safe board := by
    refine fun hs => hs (0, 1) hdot ⟨(0, 0), .inl rfl, by rw [hzero]; decide, by rw [hzero, IsValue]; decide⟩ ?_
    refine ⟨board, Filling.extends_refl board, fun c hc => ?_⟩
    have hfirst : c = (0, 0) := by
      rcases hc with hlt | ⟨heq, hlt⟩
      · exact absurd hlt (Fin.not_lt_zero _)
      · exact Prod.ext heq (Fin.ext (Nat.lt_one_iff.1 hlt))
    rw [hfirst, hzero]
    decide
  exact absurd (hcomes.unique ((enumerates_start _ board).misled hsafe () [])) nofun

end CppExperiments.Sudoku

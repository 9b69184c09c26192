import CppExperiments.Lib.Backtracking
import CppExperiments.Lib.Skyline
import Mathlib.Data.Fintype.Prod
import Mathlib.Data.List.FinRange
import Mathlib.Logic.Function.Basic

/-!
# Skyscrapers

The grid with the candidates of its cells, and the recursion that fills it. The candidates of a cell are an unordered
set, which goes through its elements in whatever order it has them.
-/

namespace CppExperiments.Skyscrapers

open Skyline (pushGreater pushOver)

/-- `std::unordered_set<int>` -/
structure UnorderedSet (σ : Type) where
  empty : σ
  insert : Int → σ → σ
  erase : Int → σ → σ
  elements : σ → List Int
  nodup : ∀ s, (elements s).Nodup
  mem_empty : ∀ v, v ∉ elements empty
  mem_insert : ∀ v w s, v ∈ elements (insert w s) ↔ v = w ∨ v ∈ elements s
  mem_erase : ∀ v w s, v ∈ elements (erase w s) ↔ v ≠ w ∧ v ∈ elements s

abbrev Cell (N : Nat) := Fin N × Fin N

abbrev Grid (N : Nat) := Cell N → Int

/-- The hints of the top, the right, the bottom and the left side. -/
abbrev Hints (N : Nat) := Fin 4 → Fin N → Nat

instance neZero_sides : NeZero 4 := ⟨by decide⟩

inductive Axis where
  | row
  | col

variable {σ : Type} {N : Nat}

def line (grid : Grid N) (idx : Fin N) : Axis → Fin N → Int
  | .row, i => grid (idx, i)
  | .col, i => grid (i, idx)

/-- The sizes of the two stacks. -/
def computeHintActuals (grid : Grid N) (idx : Fin N) (flag : Axis) : Nat × Nat :=
  (((List.ofFn (line grid idx flag)).foldl pushGreater []).length,
    ((List.ofFn (line grid idx flag)).foldl pushOver []).length)

/-- The integers that a loop runs through which ends with `hi`. -/
def upTo (lo hi : Int) : List Int := (List.range (hi + 1 - lo).toNat).map fun (i : Nat) => lo + i

/-- What is in the column and the row of a cell, and what is too high for one of the hints. -/
def invalidCandidates (grid : Grid N) (hints : Hints N) (c : Cell N) : List Int :=
  ((List.finRange N).map fun i => grid (i, c.2)).filter (· ≠ 0) ++
    ((List.finRange N).map fun j => grid (c.1, j)).filter (· ≠ 0) ++
    upTo ((N : Int) - (hints 0 c.2 : Int) + 2 + (c.1 : Nat)) N ++
    upTo ((N : Int) - (hints 1 c.1 : Int) + 2 + (N - (c.2 : Nat))) N ++
    upTo ((N : Int) - (hints 2 c.2 : Int) + 2 + (N - (c.1 : Nat))) N ++
    upTo ((N : Int) - (hints 3 c.1 : Int) + 2 + (c.2 : Nat)) N

variable (S : UnorderedSet σ)

def generateCandidates (grid : Grid N) (hints : Hints N) (c : Cell N) : σ :=
  if grid c = 0 then
    ((upTo 1 N).filter fun v => v ∉ invalidCandidates grid hints c).foldl (fun s v => S.insert v s) S.empty
  else S.empty

structure Puzzle (N : Nat) (σ : Type) where
  grid : Grid N
  candidates : Cell N → σ

def cells (N : Nat) : List (Cell N) :=
  (List.finRange N).flatMap fun row => (List.finRange N).map fun col => (row, col)

/-- The first of the empty cells with the fewest candidates and how many it has, as far as the loop has come; `none`
where an empty cell has no candidates. -/
def minCandidates (s : Puzzle N σ) : List (Cell N) → Option (Nat × Cell N) → Option (Option (Nat × Cell N))
  | [], best => some best
  | c :: cs, best =>
    if s.grid c = 0 ∧ (S.elements (s.candidates c)).length = 0 then none
    else if s.grid c = 0 ∧ best.all (fun b => (S.elements (s.candidates c)).length < b.1) then
      minCandidates s cs (some ((S.elements (s.candidates c)).length, c))
    else minCandidates s cs best

/-- What the loops over a column and a row have come to. -/
structure Sweep (N : Nat) (σ : Type) where
  candidates : Cell N → σ
  removed : List (Cell N) := []
  filled : Nat := 0
  allCellsHaveCandidates : Bool := true

def Sweep.visit (grid : Grid N) (candidate : Int) (t : Sweep N σ) (c : Cell N) : Sweep N σ :=
  if grid c ≠ 0 then { t with filled := t.filled + 1 }
  else if candidate ∈ S.elements (t.candidates c) then
    { t with
      candidates := Function.update t.candidates c (S.erase candidate (t.candidates c))
      removed := t.removed ++ [c]
      allCellsHaveCandidates :=
        t.allCellsHaveCandidates && !(S.elements (S.erase candidate (t.candidates c))).isEmpty }
  else t

def hintOkay (expected actual : Nat) : Bool := expected = 0 || actual = expected

/-- The candidate is put into the cell. The cells that lost it, and whether to go on from there. -/
def place (hints : Hints N) (c : Cell N) (candidate : Int) (s : Puzzle N σ) : Puzzle N σ × List (Cell N) × Bool :=
  let grid := Function.update s.grid c candidate
  let down := ((List.finRange N).map fun i => (i, c.2)).foldl (Sweep.visit S grid candidate)
    { candidates := s.candidates }
  let right := ((List.finRange N).map fun j => (c.1, j)).foldl (Sweep.visit S grid candidate)
    { down with filled := 0 }
  let rowHint := computeHintActuals grid c.1 .row
  let colHint := computeHintActuals grid c.2 .col
  let rowHintOkay := if right.filled = N then hintOkay (hints 3 c.1) rowHint.1 && hintOkay (hints 1 c.1) rowHint.2
    else true
  let colHintOkay := if down.filled = N then hintOkay (hints 0 c.2) colHint.1 && hintOkay (hints 2 c.2) colHint.2
    else true
  (⟨grid, right.candidates⟩, right.removed, right.allCellsHaveCandidates && rowHintOkay && colHintOkay)

/-- The cell is empty again, and the others have the candidate back. -/
def revert (c : Cell N) (candidate : Int) (removed : List (Cell N)) (s : Puzzle N σ) : Puzzle N σ where
  grid := Function.update s.grid c 0
  candidates := removed.foldl (fun cand c => Function.update cand c (S.insert candidate (cand c))) s.candidates

/-- The loop over the candidates of a cell. -/
def tryAll (hints : Hints N) (c : Cell N) (next : Puzzle N σ → Option (Bool × Puzzle N σ)) :
    List Int → Puzzle N σ → Option (Bool × Puzzle N σ)
  | [], s => some (false, s)
  | candidate :: rest, s => do
    let (placed, removed, okay) := place S hints c candidate s
    let (found, s) ← if okay then next placed else some (false, placed)
    if found then some (true, s) else tryAll hints c next rest (revert S c candidate removed s)

/-- The first argument bounds the depth of the recursion, with no result where it is too small. -/
def backtrackSolve (hints : Hints N) : Nat → Puzzle N σ → Option (Bool × Puzzle N σ)
  | 0, _ => none
  | n + 1, s =>
    match minCandidates S s (cells N) none with
    | none => some (false, s)
    | some none => some (true, s)
    | some (some (_, c)) => tryAll S hints c (backtrackSolve hints n) (S.elements (s.candidates c)) s

/-- No recursion is deeper than there are cells. -/
def solve (grid : Grid N) (hints : Hints N) : Option (Bool × Puzzle N σ) :=
  backtrackSolve S hints (N * N + 1) ⟨grid, generateCandidates S grid hints⟩

end CppExperiments.Skyscrapers

/-!
## Completed skyscrapers

A grid is completed to a Latin square that meets the hints, whenever it can be. What is taken from the candidates is in
no completion, and what is undone is undone exactly.
-/

namespace CppExperiments.Skyscrapers

open Filling (Free Consistent Valid)
open Skyline (fromFirst fromLast)

variable {σ : Type} {N : Nat} {S : UnorderedSet σ} {hints : Hints N} {grid f : Grid N} {c d : Cell N} {v : Int}
  {s s' : Puzzle N σ} {axis : Axis} {idx : Fin N}

/-- The cells are in one row or in one column. -/
def Sees (c d : Cell N) : Prop := c.1 = d.1 ∨ c.2 = d.2

def IsHeight (N : Nat) (v : Int) : Prop := 1 ≤ v ∧ v ≤ N

/-- The hints at the two ends of a line; zero is no hint. -/
def lineHints (hints : Hints N) (idx : Fin N) : Axis → Nat × Nat
  | .row => (hints 3 idx, hints 1 idx)
  | .col => (hints 0 idx, hints 2 idx)

/-- As many buildings are seen from the two ends of a line as the hints say. -/
def Meets (hints : Hints N) (grid : Grid N) (idx : Fin N) (axis : Axis) : Prop :=
  ((lineHints hints idx axis).1 = 0 ∨ fromFirst (line grid idx axis) = (lineHints hints idx axis).1) ∧
    ((lineHints hints idx axis).2 = 0 ∨ fromLast (line grid idx axis) = (lineHints hints idx axis).2)

/-- A Latin square of the heights that meets the hints and has what is given. -/
structure Completion (hints : Hints N) (grid f : Grid N) : Prop where
  latin : Valid Sees (IsHeight N) f
  meets : ∀ idx axis, Meets hints f idx axis
  given : ∀ c, grid c ≠ 0 → f c = grid c

lemma sees_symm (c d : Cell N) (h : Sees c d) : Sees d c := h.imp Eq.symm Eq.symm

lemma IsHeight.ne_zero (h : IsHeight N v) : v ≠ 0 := by
  have := h.1
  omega

/-! ## Lines -/

lemma line_injective (h : ∀ i, line grid idx axis i ≠ 0) (hgrid : Consistent Sees (IsHeight N) 0 grid) :
    Function.Injective (line grid idx axis) := by
  intro i j hij
  by_contra hne
  cases axis with
  | row => exact (hgrid (idx, i) (h i)).2 (idx, j) (Or.inl rfl) (fun heq => hne (congrArg Prod.snd heq).symm) hij.symm
  | col => exact (hgrid (i, idx) (h i)).2 (j, idx) (Or.inr rfl) (fun heq => hne (congrArg Prod.fst heq).symm) hij.symm

lemma computeHintActuals_eq (h : Function.Injective (line grid idx axis)) :
    computeHintActuals grid idx axis = (fromFirst (line grid idx axis), fromLast (line grid idx axis)) := by
  rw [computeHintActuals, Skyline.length_pushGreater, Skyline.length_pushOver h]

lemma hintOkay_iff {expected actual : Nat} : hintOkay expected actual = true ↔ expected = 0 ∨ actual = expected := by
  rw [hintOkay, Bool.or_eq_true, decide_eq_true_eq, decide_eq_true_eq]

lemma hintsOkay_iff (h : Function.Injective (line grid idx axis)) :
    (hintOkay (lineHints hints idx axis).1 (computeHintActuals grid idx axis).1 &&
      hintOkay (lineHints hints idx axis).2 (computeHintActuals grid idx axis).2) = true ↔
    Meets hints grid idx axis := by
  rw [Bool.and_eq_true, hintOkay_iff, hintOkay_iff, computeHintActuals_eq h]
  rfl

/-! ## Candidates -/

lemma mem_upTo {lo hi : Int} : v ∈ upTo lo hi ↔ lo ≤ v ∧ v ≤ hi := by
  rw [upTo, List.mem_map]
  constructor
  · rintro ⟨i, hi, rfl⟩
    rw [List.mem_range] at hi
    omega
  · rintro ⟨hlo, hhi⟩
    refine ⟨(v - lo).toNat, ?_, ?_⟩
    · rw [List.mem_range]
      omega
    · omega

lemma mem_foldl_insert {vs : List Int} {t : σ} :
    v ∈ S.elements (vs.foldl (fun t v => S.insert v t) t) ↔ v ∈ vs ∨ v ∈ S.elements t := by
  induction vs generalizing t with
  | nil => simp
  | cons w vs ih =>
    rw [List.foldl_cons, ih, S.mem_insert, List.mem_cons, ← or_assoc, or_comm (a := v ∈ vs)]

lemma mem_generateCandidates (hc : grid c = 0) :
    v ∈ S.elements (generateCandidates S grid hints c) ↔ IsHeight N v ∧ v ∉ invalidCandidates grid hints c := by
  rw [generateCandidates, if_pos hc, mem_foldl_insert, List.mem_filter, mem_upTo, decide_eq_true_eq]
  exact or_iff_left (S.mem_empty v)

/-- A candidate is in no cell of the row or the column. -/
lemma free_of_mem (hc : grid c = 0) (hv : v ∈ S.elements (generateCandidates S grid hints c)) :
    Free Sees (IsHeight N) grid c v := by
  obtain ⟨hheight, hinvalid⟩ := (mem_generateCandidates hc).1 hv
  simp only [invalidCandidates, List.mem_append, not_or] at hinvalid
  obtain ⟨⟨⟨⟨⟨hcol, hrow⟩, -⟩, -⟩, -⟩, -⟩ := hinvalid
  refine ⟨hheight, fun d hsees _ heq => ?_⟩
  have hne : decide (v ≠ 0) = true := decide_eq_true hheight.ne_zero
  rcases hsees with h | h
  · refine hrow (List.mem_filter.2 ⟨List.mem_map.2 ⟨d.2, List.mem_finRange _, ?_⟩, hne⟩)
    rw [h]
    exact heq
  · refine hcol (List.mem_filter.2 ⟨List.mem_map.2 ⟨d.1, List.mem_finRange _, ?_⟩, hne⟩)
    rw [h]
    exact heq

lemma Valid.line_injective (h : Valid Sees (IsHeight N) f) (idx : Fin N) (axis : Axis) :
    Function.Injective (line f idx axis) := by
  refine Skyscrapers.line_injective (fun i => ?_) fun c _ => h c
  cases axis with
  | row => exact (h (idx, i)).1.ne_zero
  | col => exact (h (i, idx)).1.ne_zero

/-- A value that a hint excludes hides too much. -/
lemma lt_of_seen {hint seen : Nat} {lo k : Int} (hmeets : hint = 0 ∨ seen = hint)
    (hseen : (seen : Int) ≤ k + 1 + (N - v)) (hlo : N - hint + 2 + k ≤ lo) :
    ¬ (lo ≤ v ∧ v ≤ N) := by
  rcases hmeets with h | h <;> omega

/-- No completion has what a hint excludes. -/
theorem Completion.mem_generateCandidates (h : Completion hints grid f) (hc : grid c = 0) :
    f c ∈ S.elements (generateCandidates S grid hints c) := by
  have hheight := (h.latin c).1
  have hle : ∀ idx axis i, line f idx axis i ≤ N := by
    intro idx axis i
    cases axis with
    | row => exact (h.latin (idx, i)).1.2
    | col => exact (h.latin (i, idx)).1.2
  obtain ⟨hleft, hright⟩ := h.meets c.1 .row
  obtain ⟨htop, hbottom⟩ := h.meets c.2 .col
  have hfromLeft := Skyline.fromFirst_le (Valid.line_injective h.latin c.1 .row) (hle c.1 .row) c.2
  have hfromRight := Skyline.fromLast_le (Valid.line_injective h.latin c.1 .row) (hle c.1 .row) c.2
  have hfromTop := Skyline.fromFirst_le (Valid.line_injective h.latin c.2 .col) (hle c.2 .col) c.1
  have hfromBottom := Skyline.fromLast_le (Valid.line_injective h.latin c.2 .col) (hle c.2 .col) c.1
  have hrow : line f c.1 .row c.2 = f c := rfl
  have hcol : line f c.2 .col c.1 = f c := rfl
  rw [hrow] at hfromLeft hfromRight
  rw [hcol] at hfromTop hfromBottom
  have := c.1.isLt
  have := c.2.isLt
  refine (Skyscrapers.mem_generateCandidates hc).2 ⟨hheight, ?_⟩
  simp only [invalidCandidates, List.mem_append, not_or, mem_upTo]
  refine ⟨⟨⟨⟨⟨?_, ?_⟩, ?_⟩, ?_⟩, ?_⟩, ?_⟩
  · intro hmem
    obtain ⟨hmem, hne⟩ := List.mem_filter.1 hmem
    obtain ⟨i, -, hi⟩ := List.mem_map.1 hmem
    have hgiven : grid (i, c.2) ≠ 0 := hi ▸ of_decide_eq_true hne
    refine (h.latin c).2 (i, c.2) (Or.inr rfl) (fun heq => hgiven (heq ▸ hc)) ?_
    rw [h.given _ hgiven, hi]
  · intro hmem
    obtain ⟨hmem, hne⟩ := List.mem_filter.1 hmem
    obtain ⟨j, -, hj⟩ := List.mem_map.1 hmem
    have hgiven : grid (c.1, j) ≠ 0 := hj ▸ of_decide_eq_true hne
    refine (h.latin c).2 (c.1, j) (Or.inl rfl) (fun heq => hgiven (heq ▸ hc)) ?_
    rw [h.given _ hgiven, hj]
  · exact lt_of_seen htop hfromTop (le_refl _)
  · exact lt_of_seen (k := N - 1 - c.2) hright (by omega) (by simp only [lineHints]; omega)
  · exact lt_of_seen (k := N - 1 - c.1) hbottom (by omega) (by simp only [lineHints]; omega)
  · exact lt_of_seen hleft hfromLeft (le_refl _)

/-! ## One candidate -/

/-- The cell is empty and has the candidate, which a sweep takes from it. -/
def Affected (S : UnorderedSet σ) (grid : Grid N) (v : Int) (candidates : Cell N → σ) (d : Cell N) : Prop :=
  grid d = 0 ∧ v ∈ S.elements (candidates d)

/-- A sweep over some cells. -/
structure Swept (S : UnorderedSet σ) (grid : Grid N) (v : Int) (L : List (Cell N)) (t t' : Sweep N σ) : Prop where
  erased : ∀ d ∈ L, Affected S grid v t.candidates d → t'.candidates d = S.erase v (t.candidates d)
  kept : ∀ d, ¬ (d ∈ L ∧ Affected S grid v t.candidates d) → t'.candidates d = t.candidates d
  removed : ∀ d, d ∈ t'.removed ↔ d ∈ t.removed ∨ d ∈ L ∧ Affected S grid v t.candidates d
  filled : t'.filled = t.filled + (L.filter (grid · ≠ 0)).length
  okay : t'.allCellsHaveCandidates = true ↔ t.allCellsHaveCandidates = true ∧
    ∀ d ∈ L, Affected S grid v t.candidates d → S.elements (S.erase v (t.candidates d)) ≠ []

lemma swept_nil (t : Sweep N σ) : Swept S grid v [] t t :=
  ⟨nofun, fun _ _ => rfl, by simp, rfl, by simp⟩

lemma swept_visit (t : Sweep N σ) (e : Cell N) : Swept S grid v [e] t (Sweep.visit S grid v t e) := by
  by_cases hempty : grid e = 0
  · by_cases hmem : v ∈ S.elements (t.candidates e)
    · rw [Sweep.visit, if_neg (not_not.2 hempty), if_pos hmem]
      refine ⟨fun d hd _ => ?_, fun d hd => ?_, fun d => ?_, ?_, ?_⟩
      · obtain rfl := List.mem_singleton.1 hd
        exact Function.update_self _ _ _
      · refine Function.update_of_ne (fun heq => hd ?_) _ _
        rw [heq]
        exact ⟨List.mem_cons_self, hempty, hmem⟩
      · rw [List.mem_append, List.mem_singleton]
        exact or_congr_right ⟨fun heq => ⟨heq, heq ▸ ⟨hempty, hmem⟩⟩, And.left⟩
      · simp [hempty]
      · rw [Bool.and_eq_true, List.forall_mem_singleton, Bool.not_eq_true', List.isEmpty_eq_false_iff]
        exact and_congr_right fun _ => ⟨fun h _ => h, fun h => h ⟨hempty, hmem⟩⟩
    · have hnot : ∀ d ∈ [e], ¬ Affected S grid v t.candidates d := by
        intro d hd haff
        obtain rfl := List.mem_singleton.1 hd
        exact hmem haff.2
      rw [Sweep.visit, if_neg (not_not.2 hempty), if_neg hmem]
      refine ⟨fun d hd haff => absurd haff (hnot d hd), fun _ _ => rfl, fun d => ?_, ?_, ?_⟩
      · exact (or_iff_left fun h => hnot d h.1 h.2).symm
      · simp [hempty]
      · exact (and_iff_left fun d hd haff => absurd haff (hnot d hd)).symm
  · have hnot : ∀ d ∈ [e], ¬ Affected S grid v t.candidates d := by
      intro d hd haff
      obtain rfl := List.mem_singleton.1 hd
      exact hempty haff.1
    rw [Sweep.visit, if_pos hempty]
    refine ⟨fun d hd haff => absurd haff (hnot d hd), fun _ _ => rfl, fun d => ?_, ?_, ?_⟩
    · exact (or_iff_left fun h => hnot d h.1 h.2).symm
    · simp [hempty]
    · exact (and_iff_left fun d hd haff => absurd haff (hnot d hd)).symm

lemma Swept.trans {L₁ L₂ : List (Cell N)} {t t₁ t₂ : Sweep N σ} (h₁ : Swept S grid v L₁ t t₁)
    (h₂ : Swept S grid v L₂ t₁ t₂) (hdisj : ∀ d ∈ L₂, d ∉ L₁) : Swept S grid v (L₁ ++ L₂) t t₂ := by
  have hsame : ∀ d ∈ L₂, t₁.candidates d = t.candidates d := fun d hd => h₁.kept d fun h => hdisj d hd h.1
  have haff : ∀ d ∈ L₂, (Affected S grid v t₁.candidates d ↔ Affected S grid v t.candidates d) := by
    intro d hd
    rw [Affected, Affected, hsame d hd]
  refine ⟨fun d hd h => ?_, fun d hd => ?_, fun d => ?_, ?_, ?_⟩
  · rcases List.mem_append.1 hd with hd | hd
    · rw [h₂.kept d fun h' => hdisj d h'.1 hd, h₁.erased d hd h]
    · rw [h₂.erased d hd ((haff d hd).2 h), hsame d hd]
  · rw [List.mem_append] at hd
    have hfirst := h₁.kept d fun h => hd ⟨Or.inl h.1, h.2⟩
    rw [h₂.kept d fun h => hd ⟨Or.inr h.1, (haff d h.1).1 h.2⟩, hfirst]
  · rw [h₂.removed, h₁.removed, List.mem_append, or_and_right, or_assoc]
    exact or_congr_right (or_congr_right (and_congr_right fun hd => haff d hd))
  · rw [h₂.filled, h₁.filled, List.filter_append, List.length_append, Nat.add_assoc]
  · rw [h₂.okay, h₁.okay, List.forall_mem_append, and_assoc]
    refine and_congr_right fun _ => and_congr_right fun _ => ?_
    refine forall_congr' fun d => forall_congr' fun hd => ?_
    rw [haff d hd, hsame d hd]

lemma swept_foldl (grid : Grid N) (v : Int) {L : List (Cell N)} (hnodup : L.Nodup) (t : Sweep N σ) :
    Swept S grid v L t (L.foldl (Sweep.visit S grid v) t) := by
  induction L generalizing t with
  | nil => exact swept_nil t
  | cons e L ih =>
    rw [List.nodup_cons] at hnodup
    refine (swept_visit t e).trans (ih hnodup.2 _) fun d hd hmem => hnodup.1 ?_
    exact List.mem_singleton.1 hmem ▸ hd

lemma mem_column {e : Cell N} : e ∈ (List.finRange N).map (fun i => (i, c.2)) ↔ e.2 = c.2 := by
  rw [List.mem_map]
  constructor
  · rintro ⟨i, -, rfl⟩
    rfl
  · exact fun h => ⟨e.1, List.mem_finRange _, Prod.ext rfl h.symm⟩

lemma mem_row {e : Cell N} : e ∈ (List.finRange N).map (fun j => (c.1, j)) ↔ e.1 = c.1 := by
  rw [List.mem_map]
  constructor
  · rintro ⟨j, -, rfl⟩
    rfl
  · exact fun h => ⟨e.2, List.mem_finRange _, Prod.ext h.symm rfl⟩

/-- A line is full if as many of its cells are filled as it has. -/
lemma length_filter_line {g : Fin N → Cell N} : (((List.finRange N).map g).filter (grid · ≠ 0)).length = N ↔
    ∀ i, grid (g i) ≠ 0 := by
  have hlength : ((List.finRange N).map g).length = N := by
    rw [List.length_map, List.length_finRange]
  have h := List.length_filter_eq_length_iff (l := (List.finRange N).map g) (p := fun d => grid d ≠ 0)
  rw [hlength] at h
  rw [h, List.forall_mem_map]
  exact ⟨fun hall i => of_decide_eq_true (hall i (List.mem_finRange i)), fun hall i _ => decide_eq_true (hall i)⟩

/-- What it means to put a candidate into an empty cell. -/
structure Placed (S : UnorderedSet σ) (hints : Hints N) (c : Cell N) (v : Int) (s : Puzzle N σ)
    (r : Puzzle N σ × List (Cell N) × Bool) : Prop where
  grid : r.1.grid = Function.update s.grid c v
  erased : ∀ d, Sees c d → d ≠ c → Affected S s.grid v s.candidates d → r.1.candidates d = S.erase v (s.candidates d)
  kept : ∀ d, ¬ (Sees c d ∧ d ≠ c ∧ Affected S s.grid v s.candidates d) → r.1.candidates d = s.candidates d
  removed : ∀ d, d ∈ r.2.1 ↔ Sees c d ∧ d ≠ c ∧ Affected S s.grid v s.candidates d
  okay : Consistent Sees (IsHeight N) 0 (Function.update s.grid c v) → (r.2.2 = true ↔
    (∀ d, Sees c d → d ≠ c → Affected S s.grid v s.candidates d → S.elements (S.erase v (s.candidates d)) ≠ []) ∧
    ((∀ j, Function.update s.grid c v (c.1, j) ≠ 0) → Meets hints (Function.update s.grid c v) c.1 .row) ∧
    ((∀ i, Function.update s.grid c v (i, c.2) ≠ 0) → Meets hints (Function.update s.grid c v) c.2 .col))

lemma affected_update (hv : v ≠ 0) (candidates : Cell N → σ) :
    Affected S (Function.update s.grid c v) v candidates d ↔ d ≠ c ∧ Affected S s.grid v candidates d := by
  rw [Affected, Affected]
  by_cases hd : d = c
  · rw [hd, Function.update_self]
    exact iff_of_false (fun h => hv h.1) fun h => h.1 rfl
  · rw [Function.update_of_ne hd]
    exact (and_iff_right hd).symm

/-- The test of the hints of a line, which is made when it is full. -/
lemma hints_iff {filled : Nat} {g : Fin N → Cell N} (hgrid : Consistent Sees (IsHeight N) 0 grid)
    (hline : ∀ i, line grid idx axis i = grid (g i))
    (hfilled : filled = 0 + (((List.finRange N).map g).filter (grid · ≠ 0)).length) :
    (if filled = N then hintOkay (lineHints hints idx axis).1 (computeHintActuals grid idx axis).1 &&
      hintOkay (lineHints hints idx axis).2 (computeHintActuals grid idx axis).2 else true) = true ↔
    ((∀ i, grid (g i) ≠ 0) → Meets hints grid idx axis) := by
  have hfull : filled = N ↔ ∀ i, grid (g i) ≠ 0 := by
    rw [hfilled, Nat.zero_add, length_filter_line]
  by_cases h : filled = N
  · have hinj := line_injective (fun i => hline i ▸ hfull.1 h i) hgrid
    rw [if_pos h, hintsOkay_iff hinj]
    exact ⟨fun hmeets _ => hmeets, fun hmeets => hmeets (hfull.1 h)⟩
  · rw [if_neg h]
    exact iff_of_true rfl fun hall => absurd (hfull.2 hall) h

lemma placed (S : UnorderedSet σ) (hints : Hints N) (c : Cell N) (s : Puzzle N σ) (hv : v ≠ 0) :
    Placed S hints c v s (place S hints c v s) := by
  have hcolumn : ((List.finRange N).map fun i => (i, c.2)).Nodup :=
    (List.nodup_finRange N).map fun i j hij => congrArg Prod.fst hij
  have hrow : ((List.finRange N).map fun j => (c.1, j)).Nodup :=
    (List.nodup_finRange N).map fun i j hij => congrArg Prod.snd hij
  have hdown := swept_foldl (S := S) (Function.update s.grid c v) v hcolumn { candidates := s.candidates }
  set down := ((List.finRange N).map fun i => (i, c.2)).foldl (Sweep.visit S (Function.update s.grid c v) v)
    { candidates := s.candidates } with hdowneq
  have hright := swept_foldl (S := S) (Function.update s.grid c v) v hrow { down with filled := 0 }
  set right := ((List.finRange N).map fun j => (c.1, j)).foldl (Sweep.visit S (Function.update s.grid c v) v)
    { down with filled := 0 } with hrighteq
  have hplace : place S hints c v s = (⟨Function.update s.grid c v, right.candidates⟩, right.removed,
      right.allCellsHaveCandidates &&
        (if right.filled = N then
          hintOkay (lineHints hints c.1 .row).1 (computeHintActuals (Function.update s.grid c v) c.1 .row).1 &&
          hintOkay (lineHints hints c.1 .row).2 (computeHintActuals (Function.update s.grid c v) c.1 .row).2
        else true) &&
        (if down.filled = N then
          hintOkay (lineHints hints c.2 .col).1 (computeHintActuals (Function.update s.grid c v) c.2 .col).1 &&
          hintOkay (lineHints hints c.2 .col).2 (computeHintActuals (Function.update s.grid c v) c.2 .col).2
        else true)) := rfl
  have haff := fun d => affected_update (S := S) (s := s) (c := c) (d := d) hv s.candidates
  -- the two sweeps meet in the cell itself, which is not empty
  have hsame : ∀ d, d.1 = c.1 → down.candidates d = s.candidates d := by
    intro d hd
    refine hdown.kept d fun h => ((haff d).1 h.2).1 (Prod.ext hd ?_)
    exact mem_column.1 h.1
  have haff' : ∀ d, d.1 = c.1 → (Affected S (Function.update s.grid c v) v down.candidates d ↔
      d ≠ c ∧ Affected S s.grid v s.candidates d) := by
    intro d hd
    rw [← haff d, Affected, Affected, hsame d hd]
  have herased : ∀ d, Sees c d → d ≠ c → Affected S s.grid v s.candidates d →
      right.candidates d = S.erase v (s.candidates d) := by
    intro d hsees hne h
    by_cases hd : d.1 = c.1
    · rw [hright.erased d (mem_row.2 hd) ((haff' d hd).2 ⟨hne, h⟩), hsame d hd]
    · have hcol : d.2 = c.2 := (hsees.resolve_left fun heq => hd heq.symm).symm
      rw [hright.kept d fun h' => hd (mem_row.1 h'.1)]
      exact hdown.erased d (mem_column.2 hcol) ((haff d).2 ⟨hne, h⟩)
  have hkept : ∀ d, ¬ (Sees c d ∧ d ≠ c ∧ Affected S s.grid v s.candidates d) →
      right.candidates d = s.candidates d := by
    intro d h
    by_cases hd : d.1 = c.1
    · rw [hright.kept d fun h' => h ⟨Or.inl hd.symm, (haff' d hd).1 h'.2⟩]
      exact hsame d hd
    · rw [hright.kept d fun h' => hd (mem_row.1 h'.1)]
      exact hdown.kept d fun h' => h ⟨Or.inr (mem_column.1 h'.1).symm, (haff d).1 h'.2⟩
  have hremoved : ∀ d, d ∈ right.removed ↔ Sees c d ∧ d ≠ c ∧ Affected S s.grid v s.candidates d := by
    intro d
    have hdown' : d ∈ down.removed ↔ d.2 = c.2 ∧ d ≠ c ∧ Affected S s.grid v s.candidates d := by
      rw [hdown.removed, mem_column, haff]
      exact or_iff_right List.not_mem_nil
    rw [hright.removed, hdown', mem_row, and_congr_right (haff' d), ← or_and_right, or_comm, Sees, eq_comm,
      eq_comm (a := d.2)]
  have hokay : right.allCellsHaveCandidates = true ↔
      ∀ d, Sees c d → d ≠ c → Affected S s.grid v s.candidates d → S.elements (S.erase v (s.candidates d)) ≠ [] := by
    have hdown' := hdown.okay
    rw [and_iff_right rfl] at hdown'
    rw [hright.okay, hdown']
    constructor
    · rintro ⟨hcol, hrow⟩ d hsees hne h
      by_cases hd : d.1 = c.1
      · rw [← hsame d hd]
        exact hrow d (mem_row.2 hd) ((haff' d hd).2 ⟨hne, h⟩)
      · exact hcol d (mem_column.2 (hsees.resolve_left fun heq => hd heq.symm).symm) ((haff d).2 ⟨hne, h⟩)
    · refine fun hall => ⟨fun d hd h => ?_, fun d hd h => ?_⟩
      · exact hall d (Or.inr (mem_column.1 hd).symm) ((haff d).1 h).1 ((haff d).1 h).2
      · have hd' := mem_row.1 hd
        have h' := (haff' d hd').1 h
        change S.elements (S.erase v (down.candidates d)) ≠ []
        rw [hsame d hd']
        exact hall d (Or.inl hd'.symm) h'.1 h'.2
  rw [hplace]
  refine ⟨rfl, herased, hkept, hremoved, fun hgrid => ?_⟩
  dsimp only
  rw [Bool.and_eq_true, Bool.and_eq_true, hokay, and_assoc,
    hints_iff (g := fun j => (c.1, j)) hgrid (fun _ => rfl) hright.filled,
    hints_iff (g := fun i => (i, c.2)) hgrid (fun _ => rfl) hdown.filled]

/-! ## What the recursion keeps -/

/-- Nothing is wrong so far: the candidates can stand in their cells, and the full lines meet their hints. -/
structure Sound (S : UnorderedSet σ) (hints : Hints N) (s : Puzzle N σ) : Prop where
  consistent : Consistent Sees (IsHeight N) 0 s.grid
  candidates : ∀ c, s.grid c = 0 → ∀ v ∈ S.elements (s.candidates c), Free Sees (IsHeight N) s.grid c v
  rows : ∀ row, (∀ j, s.grid (row, j) ≠ 0) → Meets hints s.grid row .row
  cols : ∀ col, (∀ i, s.grid (i, col) ≠ 0) → Meets hints s.grid col .col

/-- The completion can still be reached. -/
structure Keeps (S : UnorderedSet σ) (hints : Hints N) (s : Puzzle N σ) (f : Grid N) : Prop where
  completion : Completion hints s.grid f
  mem : ∀ c, s.grid c = 0 → f c ∈ S.elements (s.candidates c)

/-- The grid and the sets of candidates are as before, and those of filled cells have not been touched. -/
structure Undone (S : UnorderedSet σ) (s s' : Puzzle N σ) : Prop where
  grid : s'.grid = s.grid
  mem : ∀ c v, v ∈ S.elements (s'.candidates c) ↔ v ∈ S.elements (s.candidates c)
  filled : ∀ c, s.grid c ≠ 0 → s'.candidates c = s.candidates c

lemma Undone.refl (s : Puzzle N σ) : Undone S s s := ⟨rfl, fun _ _ => Iff.rfl, fun _ _ => rfl⟩

lemma Undone.trans {s₁ s₂ s₃ : Puzzle N σ} (h : Undone S s₁ s₂) (h' : Undone S s₂ s₃) : Undone S s₁ s₃ :=
  ⟨h'.grid.trans h.grid, fun c v => (h'.mem c v).trans (h.mem c v),
    fun c hc => (h'.filled c (by rwa [h.grid])).trans (h.filled c hc)⟩

lemma Sound.of_undone (h : Sound S hints s) (hundone : Undone S s s') : Sound S hints s' := by
  refine ⟨?_, fun c hc v hv => ?_, ?_, ?_⟩
  · rw [hundone.grid]
    exact h.consistent
  · rw [hundone.grid] at hc ⊢
    exact h.candidates c hc v ((hundone.mem c v).1 hv)
  · rw [hundone.grid]
    exact h.rows
  · rw [hundone.grid]
    exact h.cols

lemma Keeps.of_undone (h : Keeps S hints s f) (hundone : Undone S s s') : Keeps S hints s' f := by
  refine ⟨?_, fun c hc => (hundone.mem c (f c)).2 (h.mem c ?_)⟩
  · rw [hundone.grid]
    exact h.completion
  · rwa [← hundone.grid]

lemma meets_congr (h : line grid idx axis = line f idx axis) : Meets hints grid idx axis ↔ Meets hints f idx axis := by
  rw [Meets, Meets, h]

/-- After a candidate that passes the tests nothing is wrong either. -/
lemma Sound.place (h : Sound S hints s) (hc : s.grid c = 0) (hv : v ∈ S.elements (s.candidates c))
    (hokay : (place S hints c v s).2.2 = true) : Sound S hints (place S hints c v s).1 := by
  have hfree := h.candidates c hc v hv
  have hplaced := placed S hints c s hfree.1.ne_zero
  have hconsistent := h.consistent.update sees_symm hfree
  obtain ⟨-, hrow, hcol⟩ := (hplaced.okay hconsistent).1 hokay
  refine ⟨?_, fun d hd w hw => ?_, fun row hfull => ?_, fun col hfull => ?_⟩
  · rw [hplaced.grid]
    exact hconsistent
  · rw [hplaced.grid] at hd ⊢
    have hdc : d ≠ c := by
      rintro rfl
      rw [Function.update_self] at hd
      exact hfree.1.ne_zero hd
    rw [Function.update_of_ne hdc] at hd
    have hw' : w ∈ S.elements (s.candidates d) ∧ (Sees c d → w ≠ v) := by
      by_cases haff : Sees c d ∧ d ≠ c ∧ Affected S s.grid v s.candidates d
      · rw [hplaced.erased d haff.1 haff.2.1 haff.2.2, S.mem_erase] at hw
        exact ⟨hw.2, fun _ => hw.1⟩
      · rw [hplaced.kept d haff] at hw
        exact ⟨hw, fun hsees heq => haff ⟨hsees, hdc, hd, heq ▸ hw⟩⟩
    have hfree' := h.candidates d hd w hw'.1
    refine ⟨hfree'.1, fun e hsees hne => ?_⟩
    by_cases hec : e = c
    · rw [hec, Function.update_self]
      exact fun heq => hw'.2 (sees_symm _ _ (hec ▸ hsees)) heq.symm
    · rw [Function.update_of_ne hec]
      exact hfree'.2 e hsees hne
  · rw [hplaced.grid] at hfull ⊢
    by_cases hrow' : row = c.1
    · subst hrow'
      exact hrow hfull
    · have hsame : ∀ j, Function.update s.grid c v (row, j) = s.grid (row, j) := fun j =>
        Function.update_of_ne (fun heq => hrow' (congrArg Prod.fst heq)) _ _
      refine (meets_congr (funext hsame)).2 (h.rows row fun j => ?_)
      rw [← hsame j]
      exact hfull j
  · rw [hplaced.grid] at hfull ⊢
    by_cases hcol' : col = c.2
    · subst hcol'
      exact hcol hfull
    · have hsame : ∀ i, Function.update s.grid c v (i, col) = s.grid (i, col) := fun i =>
        Function.update_of_ne (fun heq => hcol' (congrArg Prod.snd heq)) _ _
      refine (meets_congr (funext hsame)).2 (h.cols col fun i => ?_)
      rw [← hsame i]
      exact hfull i

/-- The value of a completion passes the tests, and leaves the completion among the candidates. -/
theorem Keeps.place (h : Keeps S hints s f) (hc : s.grid c = 0) :
    (Skyscrapers.place S hints c (f c) s).2.2 = true ∧ Keeps S hints (Skyscrapers.place S hints c (f c) s).1 f := by
  have hlatin := h.completion.latin
  have hplaced := placed S hints c s (hlatin c).1.ne_zero
  have hgiven : ∀ d, Function.update s.grid c (f c) d ≠ 0 → f d = Function.update s.grid c (f c) d := by
    intro d hd
    by_cases hdc : d = c
    · rw [hdc, Function.update_self]
    · rw [Function.update_of_ne hdc] at hd ⊢
      exact h.completion.given d hd
  have hother : ∀ d, Sees c d → d ≠ c → f d ≠ f c := fun d hsees hne => (hlatin c).2 d hsees hne
  refine ⟨(hplaced.okay (hlatin.consistent hgiven)).2 ⟨fun d hsees hne haff hnil => ?_, fun hfull => ?_,
    fun hfull => ?_⟩,
    ⟨?_, h.completion.meets, ?_⟩, fun d hd => ?_⟩
  · have hmem := (S.mem_erase (f d) (f c) (s.candidates d)).2 ⟨hother d hsees hne, h.mem d haff.1⟩
    rw [hnil] at hmem
    exact List.not_mem_nil hmem
  · have hline : line (Function.update s.grid c (f c)) c.1 .row = line f c.1 .row :=
      funext fun j => (hgiven _ (hfull j)).symm
    exact (meets_congr hline).2 (h.completion.meets c.1 .row)
  · have hline : line (Function.update s.grid c (f c)) c.2 .col = line f c.2 .col :=
      funext fun i => (hgiven _ (hfull i)).symm
    exact (meets_congr hline).2 (h.completion.meets c.2 .col)
  · exact hlatin
  · rw [hplaced.grid]
    exact hgiven
  · rw [hplaced.grid] at hd
    have hdc : d ≠ c := by
      rintro rfl
      rw [Function.update_self] at hd
      exact (hlatin d).1.ne_zero hd
    rw [Function.update_of_ne hdc] at hd
    by_cases haff : Sees c d ∧ d ≠ c ∧ Affected S s.grid (f c) s.candidates d
    · rw [hplaced.erased d haff.1 haff.2.1 haff.2.2, S.mem_erase]
      exact ⟨hother d haff.1 hdc, h.mem d hd⟩
    · rw [hplaced.kept d haff]
      exact h.mem d hd

/-! ## What is undone -/

lemma mem_foldl_insert_back {R : List (Cell N)} {candidates : Cell N → σ} {w : Int} :
    w ∈ S.elements (R.foldl (fun cand c => Function.update cand c (S.insert v (cand c))) candidates d) ↔
      (d ∈ R ∧ w = v) ∨ w ∈ S.elements (candidates d) := by
  induction R generalizing candidates with
  | nil => simp
  | cons e R ih =>
    rw [List.foldl_cons, ih, List.mem_cons]
    by_cases hd : d = e
    · rw [hd, Function.update_self, S.mem_insert]
      tauto
    · rw [Function.update_of_ne hd]
      tauto

lemma foldl_insert_back_of_notMem {R : List (Cell N)} {candidates : Cell N → σ} (hd : d ∉ R) :
    R.foldl (fun cand c => Function.update cand c (S.insert v (cand c))) candidates d = candidates d := by
  induction R generalizing candidates with
  | nil => rfl
  | cons e R ih =>
    rw [List.mem_cons, not_or] at hd
    rw [List.foldl_cons, ih hd.2, Function.update_of_ne hd.1]

/-- A candidate that is taken out again leaves everything as it was. The set that is iterated has not been touched. -/
lemma undone_revert {s₂ : Puzzle N σ} (hc : s.grid c = 0) (hv : v ≠ 0)
    (h : Undone S (place S hints c v s).1 s₂) :
    Undone S s (revert S c v (place S hints c v s).2.1 s₂) ∧
      (revert S c v (place S hints c v s).2.1 s₂).candidates c = s.candidates c := by
  have hplaced := placed S hints c s hv
  have huntouched : ∀ d, d = c ∨ s.grid d ≠ 0 →
      (revert S c v (place S hints c v s).2.1 s₂).candidates d = s.candidates d := by
    intro d hd
    have hnot : ¬ (Sees c d ∧ d ≠ c ∧ Affected S s.grid v s.candidates d) := fun haff =>
      hd.elim haff.2.1 fun hne => hne haff.2.2.1
    have hfilled : (place S hints c v s).1.grid d ≠ 0 := by
      rw [hplaced.grid]
      rcases hd with rfl | hd
      · rwa [Function.update_self]
      · rwa [Function.update_of_ne fun heq : d = c => hd (heq ▸ hc)]
    rw [revert]
    dsimp only
    rw [foldl_insert_back_of_notMem fun hmem => hnot ((hplaced.removed d).1 hmem), h.filled d hfilled,
      hplaced.kept d hnot]
  refine ⟨⟨?_, fun d w => ?_, fun d hd => huntouched d (Or.inr hd)⟩, huntouched c (Or.inl rfl)⟩
  · rw [revert, h.grid, hplaced.grid, Function.update_idem, ← hc, Function.update_eq_self]
  · rw [revert]
    dsimp only
    rw [mem_foldl_insert_back, h.mem]
    by_cases haff : Sees c d ∧ d ≠ c ∧ Affected S s.grid v s.candidates d
    · rw [and_iff_right ((hplaced.removed d).2 haff), hplaced.erased d haff.1 haff.2.1 haff.2.2, S.mem_erase]
      constructor
      · rintro (rfl | hw)
        · exact haff.2.2.2
        · exact hw.2
      · exact fun hw => (eq_or_ne w v).imp id fun hne => ⟨hne, hw⟩
    · rw [hplaced.kept d haff]
      exact or_iff_right fun hmem => haff ((hplaced.removed d).1 hmem.1)

/-! ## The recursion -/

def emptyCells (grid : Grid N) : Finset (Cell N) := {c | grid c = 0}

lemma emptyCells_update (hc : grid c = 0) (hv : v ≠ 0) :
    (emptyCells (Function.update grid c v)).card + 1 = (emptyCells grid).card := by
  have herase : emptyCells (Function.update grid c v) = (emptyCells grid).erase c := by
    ext d
    simp only [emptyCells, Finset.mem_filter, Finset.mem_univ, true_and, Finset.mem_erase]
    by_cases hd : d = c
    · rw [hd, Function.update_self]
      exact iff_of_false hv fun h => h.1 rfl
    · rw [Function.update_of_ne hd]
      exact (and_iff_right hd).symm
  rw [herase]
  exact Finset.card_erase_add_one (Finset.mem_filter.2 ⟨Finset.mem_univ c, hc⟩)

/-- The grid is completed, or everything is as before and no completion has had these candidates in the cell. -/
def Answers (S : UnorderedSet σ) (hints : Hints N) (excluded : Grid N → Prop) (s : Puzzle N σ)
    (r : Option (Bool × Puzzle N σ)) : Prop :=
  (∃ s', r = some (true, s') ∧ Completion hints s.grid s'.grid) ∨
    ∃ s', r = some (false, s') ∧ Undone S s s' ∧ ∀ f, Keeps S hints s f → ¬ excluded f

lemma Completion.of_update (h : Completion hints (Function.update grid c v) f) (hc : grid c = 0) :
    Completion hints grid f := by
  refine ⟨h.latin, h.meets, fun d hd => ?_⟩
  have hdc : d ≠ c := fun heq => hd (heq ▸ hc)
  have hgiven := h.given d
  rw [Function.update_of_ne hdc] at hgiven
  exact hgiven hd

/-- The loop over the candidates, where the next call is right about what it is called with. -/
lemma answers_tryAll {next : Puzzle N σ → Option (Bool × Puzzle N σ)} {k : Nat}
    (hnext : ∀ s, Sound S hints s → (emptyCells s.grid).card ≤ k → Answers S hints (fun _ => True) s (next s))
    {vs : List Int} (h : Sound S hints s) (hc : s.grid c = 0) (hcard : (emptyCells s.grid).card ≤ k + 1)
    (hvs : ∀ v ∈ vs, v ∈ S.elements (s.candidates c)) :
    Answers S hints (fun f => f c ∈ vs) s (tryAll S hints c next vs s) := by
  induction vs generalizing s with
  | nil => exact Or.inr ⟨s, rfl, Undone.refl s, fun f _ hmem => List.not_mem_nil hmem⟩
  | cons v vs ih =>
    rw [List.forall_mem_cons] at hvs
    have hv := (h.candidates c hc v hvs.1).1.ne_zero
    have hgrid := (placed S hints c s hv).grid
    -- what the loop does after a candidate that does not lead to a completion
    have hback : ∀ s₂, Undone S (place S hints c v s).1 s₂ →
        (∀ f, Keeps S hints s f → f c ≠ v) →
        Answers S hints (fun f => f c ∈ v :: vs) s
          (tryAll S hints c next vs (revert S c v (place S hints c v s).2.1 s₂)) := by
      intro s₂ hundone hnone
      obtain ⟨hundone, -⟩ := undone_revert hc hv hundone
      have hih := ih (h.of_undone hundone) (by rw [hundone.grid, hc]) (by rwa [hundone.grid])
        fun w hw => (hundone.mem c w).2 (hvs.2 w hw)
      rcases hih with ⟨s', hs', hcomp⟩ | ⟨s', hs', hundone', hkeeps⟩
      · rw [hundone.grid] at hcomp
        exact Or.inl ⟨s', hs', hcomp⟩
      · refine Or.inr ⟨s', hs', hundone.trans hundone', fun f hf hmem => ?_⟩
        rcases List.mem_cons.1 hmem with heq | hmem
        · exact hnone f hf heq
        · exact hkeeps f (hf.of_undone hundone) hmem
    rw [tryAll]
    cases hokay : (place S hints c v s).2.2 with
    | false =>
      have hstep := hback _ (Undone.refl _) fun f hf heq => by
        have := (hf.place hc).1
        rw [heq, hokay] at this
        exact Bool.false_ne_true this
      simp only [hokay, Bool.false_eq_true, if_false, Option.bind_eq_bind, Option.bind_some]
      exact hstep
    | true =>
      have hcard' : (emptyCells (place S hints c v s).1.grid).card ≤ k := by
        have := emptyCells_update hc hv
        rw [hgrid]
        omega
      simp only [hokay, if_true]
      rcases hnext _ (h.place hc hvs.1 hokay) hcard' with ⟨s', hs', hcomp⟩ | ⟨s₂, hs₂, hundone, hkeeps⟩
      · rw [hgrid] at hcomp
        simp only [hs', Option.bind_eq_bind, Option.bind_some, if_true]
        exact Or.inl ⟨s', rfl, hcomp.of_update hc⟩
      · simp only [hs₂, Option.bind_eq_bind, Option.bind_some, Bool.false_eq_true, if_false]
        refine hback s₂ hundone fun f hf heq => hkeeps f ?_ trivial
        exact heq ▸ (hf.place hc).2

lemma mem_cells (c : Cell N) : c ∈ cells N :=
  List.mem_flatMap.2 ⟨c.1, List.mem_finRange _, List.mem_map.2 ⟨c.2, List.mem_finRange _, rfl⟩⟩

/-- What the search for a cell says about the cells it goes through. -/
def Found (S : UnorderedSet σ) (s : Puzzle N σ) (cs : List (Cell N)) (best : Option (Nat × Cell N)) :
    Option (Option (Nat × Cell N)) → Prop
  | none => ∃ c ∈ cs, s.grid c = 0 ∧ S.elements (s.candidates c) = []
  | some none => best = none ∧ ∀ c ∈ cs, s.grid c ≠ 0
  | some (some b) => best = some b ∨ b.2 ∈ cs ∧ s.grid b.2 = 0

lemma Found.cons {cs : List (Cell N)} {best : Option (Nat × Cell N)} {r : Option (Option (Nat × Cell N))}
    (h : Found S s cs best r) (hc : best = none → s.grid c ≠ 0) : Found S s (c :: cs) best r := by
  match r, h with
  | none, ⟨d, hd, hempty⟩ => exact ⟨d, List.mem_cons_of_mem c hd, hempty⟩
  | some none, ⟨hbest, hfull⟩ => exact ⟨hbest, List.forall_mem_cons.2 ⟨hc hbest, hfull⟩⟩
  | some (some b), h => exact h.imp id fun h => ⟨List.mem_cons_of_mem c h.1, h.2⟩

lemma found_minCandidates (S : UnorderedSet σ) (s : Puzzle N σ) (cs : List (Cell N)) (best : Option (Nat × Cell N)) :
    Found S s cs best (minCandidates S s cs best) := by
  induction cs generalizing best with
  | nil =>
    rw [minCandidates]
    cases best with
    | none => exact ⟨rfl, nofun⟩
    | some b => exact Or.inl rfl
  | cons c cs ih =>
    rw [minCandidates]
    by_cases hnone : s.grid c = 0 ∧ (S.elements (s.candidates c)).length = 0
    · rw [if_pos hnone]
      exact ⟨c, List.mem_cons_self, hnone.1, List.length_eq_zero_iff.1 hnone.2⟩
    · rw [if_neg hnone]
      by_cases hless : s.grid c = 0 ∧ best.all (fun b => (S.elements (s.candidates c)).length < b.1)
      · rw [if_pos hless]
        have h := ih (some ((S.elements (s.candidates c)).length, c))
        match minCandidates S s cs (some ((S.elements (s.candidates c)).length, c)), h with
        | none, ⟨d, hd, hempty⟩ => exact ⟨d, List.mem_cons_of_mem c hd, hempty⟩
        | some none, h => exact absurd h.1 (Option.some_ne_none _)
        | some (some b), h =>
          refine Or.inr ?_
          rcases h with h | h
          · obtain rfl := Option.some.inj h
            exact ⟨List.mem_cons_self, hless.1⟩
          · exact ⟨List.mem_cons_of_mem c h.1, h.2⟩
      · rw [if_neg hless]
        refine (ih best).cons ?_
        rintro rfl hempty
        exact hless ⟨hempty, rfl⟩

/-- A full grid in which nothing is wrong is completed. -/
lemma Sound.completion (h : Sound S hints s) (hfull : ∀ c, s.grid c ≠ 0) : Completion hints s.grid s.grid := by
  refine ⟨fun c => h.consistent c (hfull c), fun idx axis => ?_, fun _ _ => rfl⟩
  cases axis with
  | row => exact h.rows idx fun j => hfull _
  | col => exact h.cols idx fun i => hfull _

lemma answers_backtrackSolve {n : Nat} (h : Sound S hints s) (hcard : (emptyCells s.grid).card < n) :
    Answers S hints (fun _ => True) s (backtrackSolve S hints n s) := by
  induction n generalizing s with
  | zero => exact absurd hcard (Nat.not_lt_zero _)
  | succ n ih =>
    rw [backtrackSolve]
    have hfound := found_minCandidates S s (cells N) none
    match minCandidates S s (cells N) none, hfound with
    | none, ⟨c, _, hempty, hnil⟩ =>
      refine Or.inr ⟨s, rfl, Undone.refl s, fun f hf _ => ?_⟩
      have hmem := hf.mem c hempty
      rw [hnil] at hmem
      exact List.not_mem_nil hmem
    | some none, hfull => exact Or.inl ⟨s, rfl, h.completion fun c => hfull.2 c (mem_cells c)⟩
    | some (some (k, c)), hfound =>
      have hempty : s.grid c = 0 := (hfound.resolve_left nofun).2
      have hpos : 0 < (emptyCells s.grid).card :=
        Finset.card_pos.2 ⟨c, Finset.mem_filter.2 ⟨Finset.mem_univ c, hempty⟩⟩
      have htry := answers_tryAll (k := (emptyCells s.grid).card - 1)
        (fun s' hs' hcard' => ih hs' (by omega)) h hempty (by omega) fun v hv => hv
      rcases htry with hdone | ⟨s', hs', hundone, hnone⟩
      · exact Or.inl hdone
      · exact Or.inr ⟨s', hs', hundone, fun f hf _ => hnone f hf (hf.mem c hempty)⟩

/-! ## The given grid -/

lemma Completion.meets_of_full (h : Completion hints grid f) (hline : ∀ i, line grid idx axis i ≠ 0) :
    Meets hints grid idx axis := by
  refine (meets_congr (funext fun i => ?_)).2 (h.meets idx axis)
  cases axis with
  | row => exact (h.given _ (hline i)).symm
  | col => exact (h.given _ (hline i)).symm

lemma sound_generateCandidates (h : Completion hints grid f) :
    Sound S hints ⟨grid, generateCandidates S grid hints⟩ :=
  ⟨h.latin.consistent h.given, fun _ hc _ hv => free_of_mem hc hv, fun _ hfull => h.meets_of_full hfull,
    fun _ hfull => h.meets_of_full hfull⟩

lemma keeps_generateCandidates (h : Completion hints grid f) :
    Keeps S hints ⟨grid, generateCandidates S grid hints⟩ f :=
  ⟨h, fun _ hc => h.mem_generateCandidates hc⟩

lemma card_emptyCells_lt (grid : Grid N) : (emptyCells grid).card < N * N + 1 := by
  have h := Finset.card_le_univ (emptyCells grid)
  rw [Fintype.card_prod, Fintype.card_fin] at h
  omega

/-- A grid that has a completion is completed, with what is given as it was. Neither the candidates that the hints
exclude nor those that are taken from the cells on the way are in a completion. -/
theorem solve_completes (S : UnorderedSet σ) (hints : Hints N) (grid : Grid N) (h : ∃ f, Completion hints grid f) :
    (∃ s, solve S grid hints = some (true, s) ∧ Completion hints grid s.grid) ∧
    (∀ f, Completion hints grid f → Keeps S hints ⟨grid, generateCandidates S grid hints⟩ f) ∧
    ∀ s f c, Keeps S hints s f → s.grid c = 0 →
      (place S hints c (f c) s).2.2 = true ∧ Keeps S hints (place S hints c (f c) s).1 f := by
  obtain ⟨f, hf⟩ := h
  refine ⟨?_, fun f hf => keeps_generateCandidates hf, fun s f c hkeeps hc => hkeeps.place hc⟩
  rcases answers_backtrackSolve (S := S) (sound_generateCandidates hf) (card_emptyCells_lt grid) with
    hdone | ⟨s, -, -, hnone⟩
  · exact hdone
  · exact absurd trivial (hnone f (keeps_generateCandidates hf))

/-- A set as a list, which is gone through in the order of the last insertion first. -/
def recentFirst : UnorderedSet {vs : List Int // vs.Nodup} where
  empty := ⟨[], List.nodup_nil⟩
  insert v s := ⟨s.1.insert v, s.2.insert⟩
  erase v s := ⟨s.1.erase v, s.2.erase v⟩
  elements s := s.1
  nodup s := s.2
  mem_empty _ := List.not_mem_nil
  mem_insert _ _ _ := List.mem_insert_iff
  mem_erase _ _ s := s.2.mem_erase_iff

theorem solve_completes_square : ∃ s, solve recentFirst (fun c : Cell 2 => if c = (1, 1) then 1 else 0)
    (fun side i => if side = 0 ∧ i = 0 then 2 else 0) = some (true, s) ∧
    Completion (fun side i => if side = 0 ∧ i = 0 then 2 else 0) (fun c => if c = (1, 1) then 1 else 0) s.grid := by
  refine (solve_completes recentFirst _ _ ⟨fun c => if c.1 = c.2 then 1 else 2, fun c => ⟨?_, ?_⟩, ?_, ?_⟩).1
  · revert c
    unfold IsHeight
    decide
  · revert c
    unfold Sees
    decide
  · rintro idx (_ | _) <;> revert idx <;> unfold Meets <;> decide
  · decide

end CppExperiments.Skyscrapers

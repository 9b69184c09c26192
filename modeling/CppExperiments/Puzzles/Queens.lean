import CppExperiments.Lib.Backtracking
import Mathlib.Data.Finset.Card
import Mathlib.Data.List.Dedup
import Mathlib.Data.List.Pairwise

/-!
# The queens puzzle

A board with a region for each cell, and the search for a queen in every row.
-/

namespace CppExperiments.Puzzles

structure QueensSolver where
  nQueens : Nat
  grid : List (List Nat)
  cols : Finset Nat
  regions : Finset Nat
  solution : List (List Bool)

/-- A cell of a board. -/
def cellD {α : Type} (board : List (List α)) (row col : Nat) (default : α) : α := (board.getD row []).getD col default

def setCell {α : Type} (board : List (List α)) (row col : Nat) (a : α) : List (List α) :=
  board.modify row fun cells => cells.set col a

namespace QueensSolver

def region (q : QueensSolver) (row col : Nat) : Nat := cellD q.grid row col 0

def queen (q : QueensSolver) (row col : Nat) : Bool := cellD q.solution row col false

/-- The constructor, with the grid of an image; `none` where it throws. -/
def ofGrid (nQueens : Nat) (grid : List (List Nat)) : Option QueensSolver :=
  if grid = [] ∨ grid.length ≠ (grid.headD []).length then none
  else
    let regions := grid.flatten.toFinset
    if regions.card ≠ nQueens then none
    else some {
      nQueens := nQueens
      grid := grid
      cols := Finset.range nQueens
      regions := regions
      solution := List.replicate nQueens (List.replicate nQueens false) }

def checkNeighbours (q : QueensSolver) (row col : Nat) : Bool :=
  ([-1, 0, 1] : List Int).any fun dr => ([-1, 0, 1] : List Int).any fun dc =>
    let cRow := (row : Int) + dr
    let cCol := (col : Int) + dc
    if (dr = 0 ∧ dc = 0) ∨ cRow < 0 ∨ cCol < 0 ∨ q.nQueens ≤ cRow ∨ q.nQueens ≤ cCol then false
    else q.queen cRow.toNat cCol.toNat

def check (q : QueensSolver) (row col : Nat) : Bool :=
  if q.nQueens ≤ row ∨ q.nQueens ≤ col then false
  else if col ∉ q.cols then false
  else if q.region row col ∉ q.regions then false
  else if q.checkNeighbours row col = true then false
  else true

def set (q : QueensSolver) (row col : Nat) : QueensSolver :=
  { q with solution := setCell q.solution row col true, cols := q.cols.erase col, regions :=
    q.regions.erase (q.region row col) }

def unset (q : QueensSolver) (row col : Nat) : QueensSolver :=
  { q with
    solution := setCell q.solution row col false
    cols := insert col q.cols
    regions := insert (q.region row col) q.regions }

/-- At most this many rounds of the loop over the stack; `none` where they are too few. -/
def solveLoop : Nat → QueensSolver → List (Nat × Nat) → Option (Bool × QueensSolver)
  | 0, _, _ => none
  | _ + 1, q, [] => some (false, q)
  | n + 1, q, (row, col) :: stk =>
    if row = q.nQueens then some (true, q)
    else if col = q.nQueens then
      match stk with
      | [] => solveLoop n q []
      | (row, col) :: stk => solveLoop n (q.unset row col) ((row, col + 1) :: stk)
    else if q.check row col = true then solveLoop n (q.set row col) ((row + 1, 0) :: (row, col) :: stk)
    else solveLoop n q ((row, col + 1) :: stk)

def solve (q : QueensSolver) (n : Nat) : Option (Bool × QueensSolver) := solveLoop n q [(0, 0)]

end QueensSolver

/-- The cells touch each other, at a side or a corner. -/
def Adjacent (row col row' col' : Nat) : Prop :=
  (row, col) ≠ (row', col') ∧ row ≤ row' + 1 ∧ row' ≤ row + 1 ∧ col ≤ col' + 1 ∧ col' ≤ col + 1

/-- One queen in each row, in each column and in each region, and no two that touch each other. -/
structure Placement (N : Nat) (grid : List (List Nat)) (queen : Nat → Nat → Prop) : Prop where
  rows : ∀ row < N, ∃! col, col < N ∧ queen row col
  cols : ∀ col < N, ∃! row, row < N ∧ queen row col
  regions : ∀ g ∈ grid.flatten, ∃! p : Nat × Nat, p.1 < N ∧ p.2 < N ∧ queen p.1 p.2 ∧ cellD grid p.1 p.2 0 = g
  apart : ∀ row < N, ∀ col < N, ∀ row' < N, ∀ col' < N, queen row col → queen row' col' → ¬ Adjacent row col row' col'

/-- The search comes to an end, with success just if there is a placement, and then with one. -/
def Solves (N : Nat) (grid : List (List Nat)) (q : QueensSolver) : Prop :=
  ∃ k found q', (∀ n ≥ k, q.solve n = some (found, q')) ∧
    (found = true ↔ ∃ queen, Placement N grid queen) ∧
    (found = true → Placement N grid fun row col => q'.queen row col = true)

example : ((QueensSolver.ofGrid 4 [[0, 0, 1, 1], [0, 0, 1, 1], [2, 2, 3, 3], [2, 2, 3, 3]]).bind fun q =>
    q.solve 200).map
    (fun r => (r.1, r.2.solution)) =
      some (true, [[false, true, false, false], [false, false, false, true], [true, false, false, false],
      [false, false, true, false]]) := by decide +kernel

end CppExperiments.Puzzles

/-!
## Placements that are found

The search over the stack makes the choices of a backtracking search, one for each row, and the choices that fit are
the placements.
-/

namespace CppExperiments.Puzzles

open Backtracking (Fits Sound)

variable {α : Type} {board : List (List α)} {a b : α} {row col row' col' N n k c d : Nat} {grid : List (List Nat)}
  {q : QueensSolver}
  {ds full : List Nat} {p p' : Nat × Nat} {queen : Nat → Nat → Prop}

/-! ## Boards -/

lemma setCell_setCell (board : List (List α)) (row col : Nat) (a b : α) :
    setCell (setCell board row col a) row col b = setCell board row col b := by
  rw [setCell, setCell, setCell, List.modify_modify_eq]
  congr 1
  funext cells
  exact List.set_set a

lemma cellD_eq (board : List (List α)) (row col : Nat) (a : α) :
    cellD board row col a = (((board[row]?).getD [])[col]?).getD a := rfl

lemma setCell_eq_self (h : cellD board row col a = a) : setCell board row col a = board := by
  have hcells : ∀ cells, board[row]? = some cells → cells.set col a = cells := by
    intro cells hrow
    rw [cellD_eq, hrow, Option.getD_some] at h
    by_cases hcol : col < cells.length
    · rw [List.getElem?_eq_getElem hcol, Option.getD_some] at h
      rw [← h, List.set_getElem_self]
    · exact List.set_eq_of_length_le (Nat.not_lt.1 hcol)
  refine List.ext_getElem? fun i => ?_
  rw [setCell, List.getElem?_modify, Option.map_eq_map]
  by_cases hi : row = i
  · subst hi
    cases hrow : board[row]? with
    | none => rfl
    | some cells => rw [Option.map_some, if_pos rfl, hcells cells hrow]
  · cases board[i]? with
    | none => rfl
    | some cells => rw [Option.map_some, if_neg hi]

/-- Every row has as many cells as there are rows. -/
def Square (N : Nat) (board : List (List α)) : Prop := board.length = N ∧ ∀ cells ∈ board, cells.length = N

lemma Square.setCell (h : Square N board) (row col : Nat) (a : α) : Square N (setCell board row col a) := by
  refine ⟨(List.length_modify ..).trans h.1, fun cells hcells => ?_⟩
  obtain ⟨i, hi⟩ := List.mem_iff_getElem?.1 hcells
  rw [Puzzles.setCell, List.getElem?_modify] at hi
  obtain ⟨cells', hrow, heq⟩ := Option.map_eq_some_iff.1 hi
  have hlength := h.2 cells' (List.mem_of_getElem? hrow)
  rw [← heq]
  split
  · rw [List.length_set, hlength]
  · exact hlength

lemma Square.cellD_setCell (h : Square N board) (hrow : row < N) (hcol : col < N) (row' col' : Nat) (a b : α) :
    cellD (Puzzles.setCell board row col a) row' col' b = if row = row' ∧
      col = col' then a else cellD board row' col' b := by
  rw [cellD_eq, cellD_eq, Puzzles.setCell, List.getElem?_modify, Option.map_eq_map]
  by_cases hrows : row = row'
  · subst hrows
    have hlt : row < board.length := lt_of_lt_of_eq hrow h.1.symm
    have hget : board[row]? = some board[row] := List.getElem?_eq_getElem hlt
    have hlength := h.2 _ (List.getElem_mem hlt)
    rw [hget, Option.map_some, if_pos rfl, Option.getD_some, Option.getD_some, List.getElem?_set]
    by_cases hcols : col = col'
    · rw [if_pos hcols, if_pos (by rw [hlength]; exact hcol), if_pos ⟨rfl, hcols⟩, Option.getD_some]
    · rw [if_neg hcols, if_neg (fun h => hcols h.2)]
  · rw [if_neg (fun h => hrows h.1)]
    cases board[row']? with
    | none => rfl
    | some cells => rw [Option.map_some, if_neg hrows]

/-! ## Queens that are placed -/

/-- The cells of queens in the rows from the first one on, the last one first. -/
def cells : List Nat → List (Nat × Nat)
  | [] => []
  | d :: ds => (ds.length, d) :: cells ds

namespace QueensSolver

/-- The solver with these queens on its board. -/
def placed (q : QueensSolver) : List Nat → QueensSolver
  | [] => q
  | d :: ds => (q.placed ds).set ds.length d

/-- Another queen can be placed. -/
def free (q : QueensSolver) (ds : List Nat) (c : Nat) : Bool := (q.placed ds).check ds.length c

/-- The solver at the start. -/
structure Ready (q : QueensSolver) (N : Nat) : Prop where
  nQueens : q.nQueens = N
  cols : q.cols = Finset.range N
  regions : ∀ row < N, ∀ col < N, q.region row col ∈ q.regions
  flatten : ∀ g, g ∈ q.regions ↔ g ∈ q.grid.flatten
  card : q.regions.card = N
  square : Square N q.solution
  empty : ∀ row col, q.queen row col = false

lemma grid_placed (q : QueensSolver) (ds : List Nat) : (q.placed ds).grid = q.grid := by
  induction ds with
  | nil => rfl
  | cons d ds ih => exact ih

lemma region_placed (q : QueensSolver) (ds : List Nat) (row col : Nat) :
    (q.placed ds).region row col = q.region row col := by
  rw [region, grid_placed, region]

lemma nQueens_placed (q : QueensSolver) (ds : List Nat) : (q.placed ds).nQueens = q.nQueens := by
  induction ds with
  | nil => rfl
  | cons d ds ih => exact ih

lemma mem_cols_placed : c ∈ (q.placed ds).cols ↔ c ∈ q.cols ∧ c ∉ ds := by
  induction ds with
  | nil => exact ⟨fun h => ⟨h, List.not_mem_nil⟩, fun h => h.1⟩
  | cons d ds ih =>
    rw [placed, set, Finset.mem_erase, ih, List.mem_cons, not_or]
    tauto

lemma mem_regions_placed {g : Nat} :
    g ∈ (q.placed ds).regions ↔ g ∈ q.regions ∧ ∀ p ∈ cells ds, q.region p.1 p.2 ≠ g := by
  induction ds with
  | nil => exact ⟨fun h => ⟨h, nofun⟩, fun h => h.1⟩
  | cons d ds ih =>
    rw [placed, set, Finset.mem_erase, ih, region_placed, cells, List.forall_mem_cons, ne_comm]
    tauto

lemma check_eq_true_iff (q : QueensSolver) (row col : Nat) : q.check row col = true ↔
    row < q.nQueens ∧ col < q.nQueens ∧ col ∈ q.cols ∧ q.region row col ∈ q.regions ∧ q.checkNeighbours row col =
      false := by
  rw [check]
  split
  · exact iff_of_false Bool.false_ne_true (by omega)
  · split
    · exact iff_of_false Bool.false_ne_true (by tauto)
    · split
      · exact iff_of_false Bool.false_ne_true (by tauto)
      · split
        · rename_i h
          exact iff_of_false Bool.false_ne_true fun hall => Bool.false_ne_true (hall.2.2.2.2.symm.trans h)
        · rename_i hrange hcols hregions hneighbours
          refine iff_of_true rfl ⟨by omega, by omega, not_not.1 hcols, not_not.1 hregions, Bool.eq_false_iff.2 hneighbours⟩

/-- A queen on one of the cells around this one. -/
lemma checkNeighbours_iff (q : QueensSolver) (row col : Nat) : q.checkNeighbours row col = true ↔
    ∃ row' col', row' < q.nQueens ∧ col' < q.nQueens ∧ Adjacent row col row' col' ∧ q.queen row' col' = true := by
  rw [checkNeighbours, List.any_eq_true]
  constructor
  · rintro ⟨dr, hdr, h⟩
    obtain ⟨dc, hdc, h⟩ := List.any_eq_true.1 h
    dsimp only at h
    split at h
    · exact absurd h Bool.false_ne_true
    · rename_i hcell
      simp only [List.mem_cons, List.not_mem_nil, or_false] at hdr hdc
      refine ⟨_, _, ?_, ?_, ⟨?_, ?_⟩, h⟩
      · omega
      · omega
      · rw [Ne, Prod.mk.injEq]
        omega
      · omega
  · rintro ⟨row', col', hrow, hcol, ⟨hne, hnear⟩, hqueen⟩
    rw [Ne, Prod.mk.injEq] at hne
    refine ⟨(row' : Int) - row, ?_, List.any_eq_true.2 ⟨(col' : Int) - col, ?_, ?_⟩⟩
    · simp only [List.mem_cons, List.not_mem_nil, or_false]
      omega
    · simp only [List.mem_cons, List.not_mem_nil, or_false]
      omega
    · have hr : (row : Int) + ((row' : Int) - row) = row' := by omega
      have hc : (col : Int) + ((col' : Int) - col) = col' := by omega
      dsimp only
      rw [if_neg (by omega), hr, hc]
      exact hqueen

/-! ## Choices that fit -/

lemma lt_of_free (hq : q.Ready N) (h : q.free ds c = true) : ds.length < N ∧ c < N := by
  have hcheck := (check_eq_true_iff _ _ _).1 h
  rw [nQueens_placed, hq.nQueens] at hcheck
  exact ⟨hcheck.1, hcheck.2.1⟩

lemma lt_of_mem_cells (hq : q.Ready N) (h : Fits q.free ds) (hp : p ∈ cells ds) :
    p.1 < ds.length ∧ p.1 < N ∧ p.2 < N := by
  induction ds with
  | nil => cases hp
  | cons d ds ih =>
    rcases List.mem_cons.1 hp with rfl | hp
    · have hlt := lt_of_free hq h.1
      exact ⟨Nat.lt_succ_self _, hlt.1, hlt.2⟩
    · have hlt := ih h.2 hp
      exact ⟨hlt.1.trans (Nat.lt_succ_self _), hlt.2⟩

lemma square_placed (hq : q.Ready N) (ds : List Nat) : Square N (q.placed ds).solution := by
  induction ds with
  | nil => exact hq.square
  | cons d ds ih => exact ih.setCell ds.length d true

/-- The board shows the queens that are placed. -/
lemma queen_placed (hq : q.Ready N) (h : Fits q.free ds) (row col : Nat) :
    (q.placed ds).queen row col = true ↔ (row, col) ∈ cells ds := by
  induction ds with
  | nil =>
    rw [placed, hq.empty]
    exact iff_of_false Bool.false_ne_true List.not_mem_nil
  | cons d ds ih =>
    have hlt := lt_of_free hq h.1
    have hset : (q.placed (d :: ds)).queen row col = if ds.length = row ∧
      d = col then true else (q.placed ds).queen row col :=
      (square_placed hq ds).cellD_setCell hlt.1 hlt.2 row col true false
    rw [hset, cells, List.mem_cons, Prod.mk.injEq, eq_comm (a := row), eq_comm (a := col)]
    by_cases hcell : ds.length = row ∧ d = col
    · rw [if_pos hcell]
      exact iff_of_true rfl (.inl hcell)
    · rw [if_neg hcell, or_iff_right hcell]
      exact ih h.2

/-- A queen can be placed if its column and its region are free and no queen is next to it. -/
lemma free_iff (hq : q.Ready N) (h : Fits q.free ds) : q.free ds c = true ↔ ds.length < N ∧ c < N ∧ c ∉ ds ∧
    (∀ p ∈ cells ds, q.region p.1 p.2 ≠ q.region ds.length c) ∧ ∀ p ∈ cells ds, ¬ Adjacent ds.length c p.1 p.2 := by
  have hneighbours : (q.placed ds).checkNeighbours ds.length c = false ↔ ∀ p ∈ cells ds,
    ¬ Adjacent ds.length c p.1 p.2 := by
    rw [Bool.eq_false_iff, Ne, checkNeighbours_iff, nQueens_placed, hq.nQueens]
    constructor
    · intro hnone p hp hadjacent
      have hlt := lt_of_mem_cells hq h hp
      exact hnone ⟨p.1, p.2, hlt.2.1, hlt.2.2, hadjacent, (queen_placed hq h p.1 p.2).2 hp⟩
    · rintro hnone ⟨row, col, -, -, hadjacent, hqueen⟩
      exact hnone (row, col) ((queen_placed hq h row col).1 hqueen) hadjacent
  rw [free, check_eq_true_iff, mem_cols_placed, mem_regions_placed, hneighbours, region_placed, nQueens_placed,
    hq.nQueens, hq.cols,
    Finset.mem_range]
  constructor
  · rintro ⟨hrow, hcol, ⟨-, hcols⟩, ⟨-, hregions⟩, hnone⟩
    exact ⟨hrow, hcol, hcols, hregions, hnone⟩
  · rintro ⟨hrow, hcol, hcols, hregions, hnone⟩
    exact ⟨hrow, hcol, ⟨hcol, hcols⟩, ⟨hq.regions _ hrow _ hcol, hregions⟩, hnone⟩

/-- A queen that is taken off leaves everything as it was. -/
lemma unset_placed (hq : q.Ready N) (h : Fits q.free (d :: ds)) :
    (q.placed (d :: ds)).unset ds.length d = q.placed ds := by
  have hcheck := (check_eq_true_iff _ _ _).1 h.1
  have hqueen : cellD (q.placed ds).solution ds.length d false = false := by
    refine Bool.eq_false_iff.2 fun hqueen => ?_
    exact Nat.lt_irrefl _ (lt_of_mem_cells hq h.2 ((queen_placed hq h.2 ds.length d).1 hqueen)).1
  have hcols : insert d ((q.placed ds).cols.erase d) = (q.placed ds).cols := Finset.insert_erase hcheck.2.2.1
  have hregions : insert ((q.placed ds).region ds.length d)
    ((q.placed ds).regions.erase ((q.placed ds).region ds.length d)) =
      (q.placed ds).regions := Finset.insert_erase hcheck.2.2.2.1
  have hsolution : setCell (setCell (q.placed ds).solution ds.length d true) ds.length d false =
    (q.placed ds).solution := by
    rw [setCell_setCell, setCell_eq_self hqueen]
  have hregion : (q.placed (d :: ds)).region ds.length d = (q.placed ds).region ds.length d := rfl
  rw [unset, hregion, placed, set]
  dsimp only
  rw [hcols, hregions, hsolution]

/-! ## The loop -/

lemma solveLoop_cons (n : Nat) (q : QueensSolver) (row col : Nat) (stk : List (Nat × Nat)) :
    solveLoop (n + 1) q ((row, col) :: stk) =
      if row = q.nQueens then some (true, q)
      else if col = q.nQueens then
        match stk with
        | [] => solveLoop n q []
        | (row, col) :: stk => solveLoop n (q.unset row col) ((row, col + 1) :: stk)
      else if q.check row col = true then solveLoop n (q.set row col) ((row + 1, 0) :: (row, col) :: stk)
      else solveLoop n q ((row, col + 1) :: stk) := rfl

/-- The choices are made row by row, with the cells of their queens on the stack. -/
lemma solveLoop_next (hq : q.Ready N) {s s' : List Nat × Nat} (h : Sound N N q.free s)
    (hnext : Backtracking.next N N q.free s = some s') (n : Nat) :
    solveLoop (n + 1) (q.placed s.1) ((s.1.length, s.2) :: cells s.1) =
      solveLoop n (q.placed s'.1) ((s'.1.length, s'.2) :: cells s'.1) := by
  obtain ⟨ds, c⟩ := s
  have hN : (q.placed ds).nQueens = N := (nQueens_placed q ds).trans hq.nQueens
  by_cases hfull : ds.length = N
  · rw [Backtracking.next, if_pos hfull] at hnext
    cases hnext
  · by_cases hc : c = N
    · cases ds with
      | nil =>
        rw [Backtracking.next, if_neg hfull, if_pos hc, Backtracking.giveUp] at hnext
        cases hnext
      | cons d ds =>
        rw [hc, Backtracking.next_giveUp hfull] at hnext
        obtain rfl := Option.some.inj hnext
        rw [solveLoop_cons, if_neg (by rw [hN]; exact hfull), if_pos (by rw [hN]; exact hc), cells]
        dsimp only
        rw [unset_placed hq h.fits]
    · by_cases hfree : (q.placed ds).check ds.length c = true
      · rw [Backtracking.next_choose hfull hc hfree] at hnext
        obtain rfl := Option.some.inj hnext
        rw [solveLoop_cons, if_neg (by rw [hN]; exact hfull), if_neg (by rw [hN]; exact hc), if_pos hfree]
        rfl
      · rw [Backtracking.next_retry hfull hc hfree] at hnext
        obtain rfl := Option.some.inj hnext
        rw [solveLoop_cons, if_neg (by rw [hN]; exact hfull), if_neg (by rw [hN]; exact hc), if_neg hfree]

lemma solveLoop_after (hq : q.Ready N) {s s' : List Nat × Nat} (h : Sound N N q.free s)
    (hafter : after (Backtracking.next N N q.free) k s = some s') (n : Nat) :
    solveLoop (k + n) (q.placed s.1) ((s.1.length, s.2) :: cells s.1) =
      solveLoop n (q.placed s'.1) ((s'.1.length, s'.2) :: cells s'.1) := by
  induction k generalizing s with
  | zero =>
    obtain rfl := Option.some.inj hafter
    rw [Nat.zero_add]
  | succ k ih =>
    obtain ⟨t, ht, hrest⟩ := Option.bind_eq_some_iff.1 hafter
    rw [Nat.succ_add, solveLoop_next hq h ht, ih (h.next (fun _ _ hfree => (lt_of_free hq hfree).2) ht) hrest]

/-- The loop ends with all queens placed, or with none where they do not all fit. -/
lemma solve_cases (hq : q.Ready N) (hN : 0 < N) :
    (∃ full, Fits q.free full ∧ full.length = N ∧ ∃ k, ∀ n ≥ k, q.solve n = some (true, q.placed full)) ∨
      (∀ full, full.length = N → ¬ Fits q.free full) ∧ ∃ k, ∀ n ≥ k, q.solve n = some (false, q) := by
  have hsound : Sound N N q.free ([], 0) := ⟨trivial, Nat.zero_le N, Nat.zero_le N⟩
  rcases @Backtracking.search N N q.free (fun _ _ hfree => (lt_of_free hq hfree).2) hN with
    ⟨full, hfits, hlength, k, hk⟩ | ⟨⟨k, hk⟩, hnone⟩
  · refine .inl ⟨full, hfits, hlength, k + 1, fun n hn => ?_⟩
    obtain ⟨m, rfl⟩ := Nat.exists_eq_add_of_le hn
    have hrun := solveLoop_after hq hsound hk (m + 1)
    rw [solve, show k + 1 + m = k + (m + 1) by omega]
    refine hrun.trans ?_
    rw [solveLoop_cons, if_pos (by rw [nQueens_placed, hq.nQueens]; exact hlength)]
  · refine .inr ⟨hnone, k + 2, fun n hn => ?_⟩
    obtain ⟨m, rfl⟩ := Nat.exists_eq_add_of_le hn
    have hrun := solveLoop_after hq hsound hk (m + 2)
    rw [solve, show k + 2 + m = k + (m + 2) by omega]
    refine hrun.trans ?_
    have hzero : ([] : List Nat).length ≠ (q.placed []).nQueens := by
      rw [nQueens_placed, hq.nQueens]
      exact Nat.ne_of_lt hN
    rw [cells, solveLoop_cons, if_neg hzero, if_pos (by rw [nQueens_placed, hq.nQueens])]
    rfl

/-! ## Placements -/

lemma map_snd_cells (ds : List Nat) : (cells ds).map Prod.snd = ds := by
  induction ds with
  | nil => rfl
  | cons d ds ih => rw [cells, List.map_cons, ih]

lemma exists_mem_cells (h : row < ds.length) : ∃ col, (row, col) ∈ cells ds := by
  induction ds with
  | nil => cases h
  | cons d ds ih =>
    rcases Nat.lt_succ_iff_lt_or_eq.1 h with hlt | rfl
    · obtain ⟨col, hcol⟩ := ih hlt
      exact ⟨col, List.mem_cons_of_mem _ hcol⟩
    · exact ⟨d, List.mem_cons_self⟩

/-- Two queens are in different rows, columns and regions and do not touch each other. -/
def Peaceful (q : QueensSolver) (p p' : Nat × Nat) : Prop :=
  p.1 ≠ p'.1 ∧ p.2 ≠ p'.2 ∧ q.region p.1 p.2 ≠ q.region p'.1 p'.2 ∧ ¬ Adjacent p.1 p.2 p'.1 p'.2

lemma adjacent_comm : Adjacent row col row' col' ↔ Adjacent row' col' row col := by
  rw [Adjacent, Adjacent, ne_comm]
  tauto

instance (q : QueensSolver) : Std.Symm q.Peaceful where
  symm _ _ h := ⟨h.1.symm, h.2.1.symm, h.2.2.1.symm, fun hadjacent => h.2.2.2 (adjacent_comm.1 hadjacent)⟩

lemma pairwise_peaceful (hq : q.Ready N) (h : Fits q.free ds) : (cells ds).Pairwise q.Peaceful := by
  induction ds with
  | nil => exact .nil
  | cons d ds ih =>
    obtain ⟨-, -, hcol, hregion, hapart⟩ := (free_iff hq h.2).1 h.1
    refine List.pairwise_cons.2 ⟨fun p hp => ⟨?_, ?_, (hregion p hp).symm, hapart p hp⟩, ih h.2⟩
    · exact (Nat.ne_of_lt (lt_of_mem_cells hq h.2 hp).1).symm
    · intro heq
      have hmem := List.mem_map_of_mem (f := Prod.snd) hp
      rw [map_snd_cells] at hmem
      have heq : p.2 = d := Eq.symm heq
      exact hcol (heq ▸ hmem)

lemma peaceful_of_mem (hq : q.Ready N) (h : Fits q.free ds) (hp : p ∈ cells ds) (hp' : p' ∈ cells ds) (hne : p ≠ p') :
    q.Peaceful p p' :=
  (pairwise_peaceful hq h).forall hp hp' hne

/-- As many different things as there are of them are all of them. -/
lemma mem_of_nodup {l : List Nat} {s : Finset Nat} (hl : l.Nodup) (hsub : ∀ a ∈ l, a ∈ s) (hcard : s.card ≤ l.length)
    {a : Nat} (ha : a ∈ s) :
    a ∈ l := by
  have heq : l.toFinset = s := Finset.eq_of_subset_of_card_le (fun a ha => hsub a (List.mem_toFinset.1 ha))
    (by rwa [List.toFinset_card_of_nodup hl])
  exact List.mem_toFinset.1 (heq ▸ ha)

lemma length_cells (ds : List Nat) : (cells ds).length = ds.length := by
  have hlength := congrArg List.length (map_snd_cells ds)
  rwa [List.length_map] at hlength

/-- Choices that fit in all rows are a placement. -/
lemma placement_of_fits (hq : q.Ready N) (h : Fits q.free full) (hlength : full.length = N) :
    Placement N q.grid fun row col => (row, col) ∈ cells full := by
  have hunique : ∀ p ∈ cells full, ∀ p' ∈ cells full, ¬ q.Peaceful p p' → p = p' := fun p hp p' hp' hnot =>
    by_contra fun hne => hnot (peaceful_of_mem hq h hp hp' hne)
  have hdistinct : ∀ f : Nat × Nat → Nat, (∀ p p', q.Peaceful p p' → f p ≠ f p') → ((cells full).map f).Nodup :=
    fun f hf =>
    List.pairwise_map.2 ((pairwise_peaceful hq h).imp fun hpeace => hf _ _ hpeace)
  constructor
  · intro row hrow
    obtain ⟨col, hcol⟩ := exists_mem_cells (hlength ▸ hrow)
    refine ⟨col, ⟨(lt_of_mem_cells hq h hcol).2.2, hcol⟩, fun col' hcol' => ?_⟩
    exact (Prod.mk.inj (hunique _ hcol'.2 _ hcol fun hpeace => hpeace.1 rfl)).2
  · intro col hcol
    have hmem : col ∈ (cells full).map Prod.snd :=
      mem_of_nodup (hdistinct _ fun p p' hpeace => hpeace.2.1) (fun a ha => by
        obtain ⟨p, hp, rfl⟩ := List.mem_map.1 ha
        exact Finset.mem_range.2 (lt_of_mem_cells hq h hp).2.2)
        (by rw [List.length_map, length_cells, hlength, Finset.card_range]) (Finset.mem_range.2 hcol)
    obtain ⟨p, hp, rfl⟩ := List.mem_map.1 hmem
    refine ⟨p.1, ⟨(lt_of_mem_cells hq h hp).2.1, hp⟩, fun row' hrow' => ?_⟩
    exact (Prod.mk.inj (hunique _ hrow'.2 _ hp fun hpeace => hpeace.2.1 rfl)).1
  · intro g hg
    have hmem : g ∈ (cells full).map fun p => q.region p.1 p.2 :=
      mem_of_nodup (hdistinct _ fun p p' hpeace => hpeace.2.2.1) (fun a ha => by
        obtain ⟨p, hp, rfl⟩ := List.mem_map.1 ha
        have hlt := lt_of_mem_cells hq h hp
        exact hq.regions _ hlt.2.1 _ hlt.2.2)
        (by rw [List.length_map, length_cells, hlength, hq.card]) ((hq.flatten g).2 hg)
    obtain ⟨p, hp, rfl⟩ := List.mem_map.1 hmem
    have hlt := lt_of_mem_cells hq h hp
    refine ⟨p, ⟨hlt.2.1, hlt.2.2, hp, rfl⟩, fun p' hp' => ?_⟩
    exact hunique _ hp'.2.2.1 _ hp fun hpeace => hpeace.2.2.1 hp'.2.2.2
  · intro row _ col _ row' _ col' _ hp hp' hadjacent
    exact (peaceful_of_mem hq h hp hp' hadjacent.1).2.2.2 hadjacent

/-- The queens of a placement are choices that fit, one row after the other. -/
lemma fits_of_placement (hq : q.Ready N) (h : Placement N q.grid queen) (hk : k ≤ N) :
    ∃ ds, ds.length = k ∧ Fits q.free ds ∧ ∀ p ∈ cells ds, queen p.1 p.2 := by
  induction k with
  | zero => exact ⟨[], rfl, trivial, nofun⟩
  | succ k ih =>
    obtain ⟨ds, rfl, hfits, hqueens⟩ := ih (Nat.le_of_succ_le hk)
    obtain ⟨c, ⟨hc, hqueen⟩, -⟩ := h.rows ds.length hk
    have hne : ∀ p ∈ cells ds, p.1 ≠ ds.length := fun p hp => Nat.ne_of_lt (lt_of_mem_cells hq hfits hp).1
    refine ⟨c :: ds, rfl, ⟨(free_iff hq hfits).2 ⟨hk, hc, fun hmem => ?_, fun p hp hregion => ?_,
      fun p hp hadjacent => ?_⟩, hfits⟩,
      List.forall_mem_cons.2 ⟨hqueen, hqueens⟩⟩
    · rw [← map_snd_cells ds] at hmem
      obtain ⟨p, hp, rfl⟩ := List.mem_map.1 hmem
      exact hne p hp ((h.cols p.2 hc).unique ⟨(lt_of_mem_cells hq hfits hp).2.1, hqueens p hp⟩ ⟨hk, hqueen⟩)
    · have hlt := lt_of_mem_cells hq hfits hp
      have hmem : q.region ds.length c ∈ q.grid.flatten := (hq.flatten _).1 (hq.regions _ hk _ hc)
      have hsame : p = (ds.length, c) := (h.regions _ hmem).unique ⟨hlt.2.1, hlt.2.2, hqueens p hp, hregion⟩
        ⟨hk, hc, hqueen, rfl⟩
      exact hne p hp (congrArg Prod.fst hsame)
    · have hlt := lt_of_mem_cells hq hfits hp
      exact h.apart _ hk _ hc _ hlt.2.1 _ hlt.2.2 hqueen (hqueens p hp) hadjacent

/-! ## The solver of a grid -/

lemma ready_ofGrid (hN : 1 ≤ N) (hrows : grid.length = N) (hcols : ∀ cells ∈ grid, cells.length = N)
    (hregions : grid.flatten.toFinset.card = N) : ∃ q, ofGrid N grid = some q ∧ q.Ready N ∧ q.grid = grid := by
  have hne : grid ≠ [] := fun h => by
    rw [h, List.length_nil] at hrows
    omega
  obtain ⟨first, rest, rfl⟩ := List.exists_cons_of_ne_nil hne
  have hfirst : first.length = N := hcols first List.mem_cons_self
  have hdimensions : ¬ (first :: rest = [] ∨ (first :: rest).length ≠ ((first :: rest).headD []).length) := by
    rw [not_or, not_not, hrows]
    exact ⟨hne, hfirst.symm⟩
  refine ⟨_, by rw [ofGrid, if_neg hdimensions]; exact if_neg (not_not.2 hregions), ⟨rfl, rfl,
    fun row hrow col hcol => ?_,
    fun g => List.mem_toFinset, hregions, ⟨List.length_replicate, fun cells hcells => ?_⟩, fun row col => ?_⟩, rfl⟩
  · have hget : row < (first :: rest).length := hrows ▸ hrow
    have hmem := List.getElem_mem hget
    have hcol : col < ((first :: rest)[row]).length := (hcols _ hmem).symm ▸ hcol
    refine List.mem_toFinset.2 (List.mem_flatten.2 ⟨_, hmem, ?_⟩)
    rw [region, cellD_eq, List.getElem?_eq_getElem hget, Option.getD_some, List.getElem?_eq_getElem hcol,
      Option.getD_some]
    exact List.getElem_mem hcol
  · rw [List.eq_of_mem_replicate hcells, List.length_replicate]
  · rw [queen, cellD_eq, List.getElem?_replicate]
    split
    · rw [Option.getD_some, List.getElem?_replicate]
      split <;> rfl
    · rfl

/-- The search ends, with success exactly if there is a placement, and then with one. -/
theorem solves_of_regions (hN : 1 ≤ N) (hrows : grid.length = N) (hcols : ∀ cells ∈ grid, cells.length = N)
    (hregions : grid.flatten.toFinset.card = N) : ∃ q, ofGrid N grid = some q ∧ Solves N grid q := by
  obtain ⟨q, hgrid, hq, rfl⟩ := ready_ofGrid hN hrows hcols hregions
  refine ⟨q, hgrid, ?_⟩
  rcases solve_cases hq hN with ⟨full, hfits, hlength, k, hk⟩ | ⟨hnone, k, hk⟩
  · have hplacement := placement_of_fits hq hfits hlength
    have hboard : (fun row col => (q.placed full).queen row col = true) = fun row col => (row, col) ∈ cells full := by
      funext row col
      exact propext (queen_placed hq hfits row col)
    refine ⟨k, true, q.placed full, hk, iff_of_true rfl ⟨_, hplacement⟩, fun _ => ?_⟩
    rw [hboard]
    exact hplacement
  · refine ⟨k, false, q, hk, iff_of_false Bool.false_ne_true ?_, fun h => absurd h Bool.false_ne_true⟩
    rintro ⟨queen, hplacement⟩
    obtain ⟨full, hlength, hfits, -⟩ := fits_of_placement hq hplacement le_rfl
    exact hnone full hlength hfits

theorem solves_of_regions_four : ∃ q, ofGrid 4 [[0, 0, 1, 1], [0, 0, 1, 1], [2, 2, 3, 3], [2, 2, 3, 3]] = some q ∧
    Solves 4 [[0, 0, 1, 1], [0, 0, 1, 1], [2, 2, 3, 3], [2, 2, 3, 3]] q :=
  solves_of_regions (by decide) rfl (by decide) (by decide)

end QueensSolver

end CppExperiments.Puzzles

import Mathlib.Data.List.Basic
import Mathlib.Tactic.Ring

/-!
# Grids

The cells of a grid by row and column, and the words that can be read from a cell on in a straight line.
-/

namespace CppExperiments.Grid

variable {α : Type} {grid grid' : List (List α)} {w : List α} {a b : α} {x y x' y' dx dy : Int} {k : Nat}

/-- The cell in the row and the column, where there is one. -/
def cell (grid : List (List α)) (x y : Int) : Option α :=
  if 0 ≤ x ∧ 0 ≤ y then (grid[x.toNat]?).bind fun row => row[y.toNat]? else none

def putCell (grid : List (List α)) (x y : Int) (a : α) :
    List (List α) := grid.modify x.toNat fun row => row.set y.toNat a

/-- All rows are as long as the first. -/
def Rectangular (grid : List (List α)) : Prop := ∀ row ∈ grid, row.length = (grid.headD []).length

/-- The letters of the word stand in the cells from this one on, each a step further than the one before. -/
def Reads (grid : List (List α)) (w : List α) (x y dx dy : Int) : Prop :=
  ∀ k < w.length, cell grid (x + k * dx) (y + k * dy) = w[k]?

/-! ## Cells -/

lemma cell_eq (hx : 0 ≤ x) (hy : 0 ≤ y) : cell grid x y = (grid[x.toNat]?).bind fun row => row[y.toNat]? :=
    if_pos ⟨hx, hy⟩

lemma nonneg_of_cell (h : cell grid x y = some a) : 0 ≤ x ∧ 0 ≤ y := by
  by_contra hneg
  rw [cell, if_neg hneg] at h
  cases h

lemma exists_row_of_cell (h : cell grid x y = some a) : ∃ row, grid[x.toNat]? = some row ∧ row[y.toNat]? = some a := by
  obtain ⟨hx, hy⟩ := nonneg_of_cell h
  rw [cell_eq hx hy] at h
  exact Option.bind_eq_some_iff.1 h

lemma exists_mem_of_cell (h : cell grid x y = some a) : ∃ row ∈ grid, a ∈ row := by
  obtain ⟨row, hrow, ha⟩ := exists_row_of_cell h
  exact ⟨row, List.mem_of_getElem? hrow, List.mem_of_getElem? ha⟩

lemma Rectangular.lt_of_cell (h : Rectangular grid) (hcell : cell grid x y = some a) :
    x < grid.length ∧ y < (grid.headD []).length := by
  obtain ⟨row, hrow, ha⟩ := exists_row_of_cell hcell
  obtain ⟨hx, -⟩ := List.getElem?_eq_some_iff.1 hrow
  obtain ⟨hy, -⟩ := List.getElem?_eq_some_iff.1 ha
  rw [h row (List.mem_of_getElem? hrow)] at hy
  omega

lemma Rectangular.exists_cell (h : Rectangular grid) (hx : 0 ≤ x) (hy : 0 ≤ y) (hrow : x < grid.length)
    (hcol : y < (grid.headD []).length) : ∃ a, cell grid x y = some a := by
  have hlt : x.toNat < grid.length := by omega
  have hlt' : y.toNat < grid[x.toNat].length := by
    rw [h _ (List.getElem_mem hlt)]
    omega
  refine ⟨grid[x.toNat][y.toNat], ?_⟩
  rw [cell_eq hx hy, List.getElem?_eq_getElem hlt, Option.bind_some, List.getElem?_eq_getElem hlt']

lemma cell_putCell (hx : 0 ≤ x) (hy : 0 ≤ y) (a : α) (x' y' : Int) :
    cell (putCell grid x y a) x' y' = if x' = x ∧ y' = y then (cell grid x y).map fun _ => a else cell grid x' y' := by
  by_cases hpos : 0 ≤ x' ∧ 0 ≤ y'
  · obtain ⟨hx', hy'⟩ := hpos
    rw [cell_eq hx' hy', cell_eq hx hy, cell_eq hx' hy', putCell, List.getElem?_modify, Option.map_eq_map]
    by_cases hrow : x' = x
    · subst hrow
      cases grid[x'.toNat]? with
      | none => rw [Option.map_none, Option.bind_none, Option.bind_none, Option.map_none, ite_self]
      | some row =>
        rw [Option.map_some, Option.bind_some, Option.bind_some, Option.bind_some, if_pos rfl, List.getElem?_set]
        by_cases hcol : y' = y
        · subst hcol
          have hself : x' = x' ∧ y' = y' := ⟨rfl, rfl⟩
          rw [if_pos rfl, if_pos hself]
          by_cases hlt : y'.toNat < row.length
          · rw [if_pos hlt, List.getElem?_eq_getElem hlt, Option.map_some]
          · rw [if_neg hlt, List.getElem?_eq_none (Nat.not_lt.1 hlt), Option.map_none]
        · have hne : y.toNat ≠ y'.toNat := by omega
          rw [if_neg hne, if_neg fun h => hcol h.2]
    · have hne : x.toNat ≠ x'.toNat := by omega
      rw [if_neg fun h => hrow h.1]
      cases grid[x'.toNat]? with
      | none => rw [Option.map_none]
      | some row => rw [Option.map_some, if_neg hne]
  · have hother : ¬ (x' = x ∧ y' = y) := by
      rintro ⟨rfl, rfl⟩
      exact hpos ⟨hx, hy⟩
    rw [cell, if_neg hpos, if_neg hother, cell, if_neg hpos]

lemma length_putCell (grid : List (List α)) (x y : Int) (a : α) :
    (putCell grid x y a).map List.length = grid.map List.length := by
  refine List.ext_getElem? fun i => ?_
  rw [List.getElem?_map, List.getElem?_map, putCell, List.getElem?_modify, Option.map_eq_map, Option.map_map]
  congr 1
  funext row
  rw [Function.comp_apply]
  split
  · rw [List.length_set]
  · rfl

/-- Grids of the same shape are told apart by their cells. -/
lemma eq_of_cell (hshape : grid.map List.length = grid'.map List.length)
    (hcells : ∀ x y, cell grid x y = cell grid' x y) : grid = grid' := by
  refine List.ext_getElem? fun i => ?_
  have hrow := congrArg (·[i]?) hshape
  simp only [List.getElem?_map] at hrow
  cases hi : grid[i]? with
  | none =>
    rw [hi, Option.map_none] at hrow
    exact (Option.map_eq_none_iff.1 hrow.symm).symm
  | some row =>
    rw [hi, Option.map_some] at hrow
    obtain ⟨row', hi', hlength⟩ := Option.map_eq_some_iff.1 hrow.symm
    rw [hi']
    refine congrArg some (List.ext_getElem? fun j => ?_)
    have hcell := hcells i j
    rwa [cell_eq (Int.natCast_nonneg i) (Int.natCast_nonneg j), cell_eq (Int.natCast_nonneg i) (Int.natCast_nonneg j),
      Int.toNat_natCast, Int.toNat_natCast, hi, hi'] at hcell

lemma length_of_shape (h : grid'.map List.length = grid.map List.length) : grid'.length = grid.length := by
  simpa only [List.length_map] using congrArg List.length h

lemma width_of_shape (h : grid'.map List.length = grid.map List.length) :
    (grid'.headD []).length = (grid.headD []).length := by
  cases grid with
  | nil => rw [List.map_eq_nil_iff.1 h]
  | cons row grid =>
    cases grid' with
    | nil => cases h
    | cons row' grid' => exact (List.cons.inj h).1

lemma Rectangular.of_shape (hrect : Rectangular grid) (h : grid'.map List.length = grid.map List.length) :
    Rectangular grid' := by
  intro row hrow
  have hmem : row.length ∈ grid.map List.length := h ▸ List.mem_map_of_mem hrow
  obtain ⟨row', hrow', hlength⟩ := List.mem_map.1 hmem
  rw [← hlength, hrect row' hrow', width_of_shape h]

/-- Some cells have new values, one after the other. -/
structure Written (pos : Nat → Int × Int) (value : Nat → Option α) (m : Nat) (grid grid' : List (List α)) : Prop where
  at_pos : ∀ k < m, cell grid' (pos k).1 (pos k).2 = value k
  off : ∀ x y, (∀ k < m, pos k ≠ (x, y)) → cell grid' x y = cell grid x y
  shape : grid'.map List.length = grid.map List.length

lemma written_zero (pos : Nat → Int × Int) (value : Nat → Option α) (grid : List (List α)) :
    Written pos value 0 grid grid :=
  ⟨fun k hk => absurd hk (Nat.not_lt_zero k), fun _ _ _ => rfl, rfl⟩

section

variable {pos : Nat → Int × Int} {value : Nat → Option α} {m : Nat}

lemma Written.cell_next (h : Written pos value m grid grid') (hpos : Function.Injective pos) :
    cell grid' (pos m).1 (pos m).2 = cell grid (pos m).1 (pos m).2 :=
  h.off _ _ fun _ hk heq => absurd (hpos heq) (Nat.ne_of_lt hk)

lemma Written.keep (h : Written pos value m grid grid') (hpos : Function.Injective pos)
    (hvalue : cell grid (pos m).1 (pos m).2 = value m) : Written pos value (m + 1) grid grid' := by
  refine ⟨fun k hk => ?_, fun x y hoff => h.off x y fun k hk => hoff k (Nat.lt_succ_of_lt hk), h.shape⟩
  rcases Nat.lt_succ_iff_lt_or_eq.1 hk with hlt | rfl
  · exact h.at_pos k hlt
  · exact (h.cell_next hpos).trans hvalue

lemma Written.put (h : Written pos value m grid grid') (hpos : Function.Injective pos)
    (hcell : cell grid (pos m).1 (pos m).2 ≠ none) (hvalue : value m = some a) :
    Written pos value (m + 1) grid (putCell grid' (pos m).1 (pos m).2 a) := by
  obtain ⟨b, hb⟩ := Option.ne_none_iff_exists'.1 hcell
  obtain ⟨hx, hy⟩ := nonneg_of_cell hb
  refine ⟨fun k hk => ?_, fun x y hoff => ?_, (length_putCell grid' _ _ a).trans h.shape⟩
  · rw [cell_putCell hx hy]
    rcases Nat.lt_succ_iff_lt_or_eq.1 hk with hlt | rfl
    · have hne : ¬ ((pos k).1 = (pos m).1 ∧ (pos k).2 = (pos m).2) := fun heq =>
        absurd (hpos (Prod.ext heq.1 heq.2)) (Nat.ne_of_lt hlt)
      rw [if_neg hne]
      exact h.at_pos k hlt
    · rw [if_pos ⟨rfl, rfl⟩, h.cell_next hpos, hb, Option.map_some, hvalue]
  · have hne : ¬ (x = (pos m).1 ∧ y = (pos m).2) := fun heq =>
      hoff m (Nat.lt_succ_self m) (Prod.ext heq.1.symm heq.2.symm)
    rw [cell_putCell hx hy, if_neg hne]
    exact h.off x y fun k hk => hoff k (Nat.lt_succ_of_lt hk)

end

/-- What is written back cell by cell is as it was. -/
lemma Written.eq_of_back {pos : Nat → Int × Int} {value value' : Nat → Option α} {m : Nat} {grid'' : List (List α)}
    (h : Written pos value m grid grid') (hback : Written pos value' m grid' grid'')
    (hvalue : ∀ k < m, value' k = cell grid (pos k).1 (pos k).2) : grid'' = grid := by
  refine eq_of_cell (hback.shape.trans h.shape) fun x y => ?_
  by_cases hon : ∃ k < m, pos k = (x, y)
  · obtain ⟨k, hk, hpos⟩ := hon
    have hcell := (hback.at_pos k hk).trans (hvalue k hk)
    rwa [hpos] at hcell
  · have hoff : ∀ k < m, pos k ≠ (x, y) := fun k hk heq => hon ⟨k, hk, heq⟩
    exact (hback.off x y hoff).trans (h.off x y hoff)

/-! ## Words -/

lemma reads_nil : Reads grid [] x y dx dy := fun _ hk => absurd hk (Nat.not_lt_zero _)

lemma add_succ_mul (k : Nat) (z dz : Int) : z + ((k + 1 : Nat) : Int) * dz = z + dz + k * dz := by
  push_cast
  ring

/-- What holds of the letters along a line, letter by letter. -/
lemma forall_along_cons {P : Option α → Option α → Prop} :
    (∀ k < (a :: w).length, P (cell grid (x + k * dx) (y + k * dy)) (a :: w)[k]?) ↔
      P (cell grid x y) (some a) ∧ ∀ k < w.length, P (cell grid (x + dx + k * dx) (y + dy + k * dy)) w[k]? := by
  constructor
  · intro h
    refine ⟨?_, fun k hk => ?_⟩
    · simpa using h 0 (Nat.zero_lt_succ _)
    · rw [← add_succ_mul, ← add_succ_mul]
      exact h (k + 1) (Nat.succ_lt_succ hk)
  · rintro ⟨hcell, hrest⟩ k hk
    cases k with
    | zero => simpa using hcell
    | succ k =>
      rw [add_succ_mul, add_succ_mul]
      exact hrest k (Nat.lt_of_succ_lt_succ hk)

lemma reads_cons : Reads grid (a :: w) x y dx dy ↔ cell grid x y = some a ∧ Reads grid w (x + dx) (y + dy) dx dy :=
  forall_along_cons (P := Eq)

lemma Reads.concat (h : Reads grid w x y dx dy) (hcell : cell grid (x + w.length * dx) (y + w.length * dy) = some a) :
    Reads grid (w ++ [a]) x y dx dy := by
  intro k hk
  rw [List.length_append, List.length_singleton] at hk
  rcases Nat.lt_or_eq_of_le (Nat.le_of_lt_succ hk) with hlt | rfl
  · rw [List.getElem?_append_left hlt]
    exact h k hlt
  · rw [List.getElem?_concat_length]
    exact hcell

/-- A word that can be read has its last letter in the grid. -/
lemma Reads.cell_last (h : Reads grid (a :: w) x y dx dy) :
    ∃ b, cell grid (x + w.length * dx) (y + w.length * dy) = some b :=
  ⟨(a :: w)[w.length], (h w.length (Nat.lt_succ_self _)).trans (List.getElem?_eq_getElem _)⟩

end CppExperiments.Grid

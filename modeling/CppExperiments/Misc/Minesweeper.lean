import CppExperiments.Lib.Flooding
import Mathlib.Data.Finset.Card
import Mathlib.Data.Finset.Image
import Mathlib.Data.Fintype.Prod
import Mathlib.Data.List.Perm.Basic
import Mathlib.Data.List.Range
import Mathlib.Logic.Function.Basic

/-!
# Minesweeper

The board and what a click does to it. A click on an empty cell reveals cells breadth-first; a cell is marked when it
is put into the queue.
-/

namespace CppExperiments.Misc.Minesweeper

/-- `EMPTY`, `ONE` and so on are counts. -/
inductive CellType where
  | mine
  | count (mines : Nat)
  deriving DecidableEq

inductive CellStatus where
  | hidden
  | flagged
  | revealed
  deriving DecidableEq

inductive GameStatus where
  | inProgress
  | won
  | lost
  deriving DecidableEq

abbrev Position (rows cols : Nat) := Fin rows × Fin cols

structure Game (rows cols : Nat) where
  safeCells : Int32
  gameStatus : GameStatus := .inProgress
  grid : Position rows cols → CellStatus × CellType

def DIRS : List (Int × Int) := [(-1, -1), (-1, 0), (-1, 1), (0, -1), (0, 1), (1, -1), (1, 0), (1, 1)]

/-- Cells beyond the border are in no set of mines. -/
def countMines (i j : Nat) (mines : List (Int × Int)) : Nat :=
  DIRS.countP fun (di, dj) => ((i : Int) + di, (j : Int) + dj) ∈ mines

/-- The cells before they are shuffled. -/
def allCells (rows cols : Nat) : List (Int × Int) :=
  (List.range rows).flatMap fun (i : Nat) => (List.range cols).map fun (j : Nat) => ((i : Int), (j : Int))

/-- The constructor, given the shuffled cells; `none` where there are not as many cells as mines. -/
def construct (rows cols : Nat) (cells : List (Int × Int)) (mineCount : Int) : Option (Game rows cols) :=
  if 0 ≤ mineCount ∧ mineCount ≤ cells.length then
    let mines := cells.take mineCount.toNat
    some {
      safeCells := Int32.ofNat (rows * cols) - Int32.ofInt mineCount
      grid := fun (i, j) =>
        if ((i : Int), (j : Int)) ∈ mines then (.hidden, .mine) else (.hidden, .count (countMines i j mines)) }
  else none

variable {rows cols : Nat}

/-- The cell at these coordinates, if there is one. -/
def inside (rows cols : Nat) (x y : Int) : Option (Position rows cols) :=
  if h : (0 ≤ x ∧ x < rows) ∧ 0 ≤ y ∧ y < cols then
    some (⟨x.toNat, (Int.toNat_lt h.1.1).2 h.1.2⟩, ⟨y.toNat, (Int.toNat_lt h.2.1).2 h.2.2⟩)
  else none

namespace Game

def status (g : Game rows cols) (c : Position rows cols) : CellStatus := (g.grid c).1

def type (g : Game rows cols) (c : Position rows cols) : CellType := (g.grid c).2

def setStatus (g : Game rows cols) (c : Position rows cols) (s : CellStatus) : Game rows cols :=
  { g with grid := Function.update g.grid c (s, g.type c) }

def reveal (g : Game rows cols) (c : Position rows cols) : Game rows cols :=
  { g.setStatus c .revealed with safeCells := g.safeCells - 1 }

/-- A neighbour that is met in the search. -/
def visit (s : Game rows cols × List (Position rows cols)) (c : Position rows cols) :
    Game rows cols × List (Position rows cols) :=
  if s.1.status c ≠ .revealed ∧ s.1.type c ≠ .mine then
    (s.1.reveal c, if s.1.type c = .count 0 then s.2 ++ [c] else s.2)
  else s

/-- The cells in these directions. -/
def visitAlong (c : Position rows cols) (dirs : List (Int × Int)) (s : Game rows cols × List (Position rows cols)) :
    Game rows cols × List (Position rows cols) :=
  dirs.foldl (fun s (dx, dy) =>
    match inside rows cols (c.1 + dx) (c.2 + dy) with
    | none => s
    | some c => visit s c) s

/-- The cell from the front of the queue, with what is left of it. -/
def expand (s : Game rows cols × List (Position rows cols)) (c : Position rows cols) :
    Game rows cols × List (Position rows cols) :=
  visitAlong c DIRS s

lemma grid_setStatus (g : Game rows cols) (c : Position rows cols) (s : CellStatus) :
    (g.setStatus c s).grid = Function.update g.grid c (s, g.type c) := rfl

@[simp] lemma type_setStatus (g : Game rows cols) (c d : Position rows cols) (s : CellStatus) :
    (g.setStatus c s).type d = g.type d := by
  by_cases hd : d = c
  · rw [hd, type, grid_setStatus, Function.update_self]
  · rw [type, grid_setStatus, Function.update_of_ne hd, type]

lemma status_setStatus (g : Game rows cols) (c d : Position rows cols) (s : CellStatus) :
    (g.setStatus c s).status d = if d = c then s else g.status d := by
  by_cases hd : d = c
  · rw [if_pos hd, hd, status, grid_setStatus, Function.update_self]
  · rw [if_neg hd, status, grid_setStatus, Function.update_of_ne hd, status]

@[simp] lemma type_reveal (g : Game rows cols) (c d : Position rows cols) : (g.reveal c).type d = g.type d :=
  type_setStatus g c d .revealed

lemma status_reveal (g : Game rows cols) (c d : Position rows cols) :
    (g.reveal c).status d = if d = c then .revealed else g.status d :=
  status_setStatus g c d .revealed

def unrevealed (g : Game rows cols) : Finset (Position rows cols) := {c | g.status c ≠ .revealed}

lemma unrevealed_reveal (g : Game rows cols) (c : Position rows cols) :
    (g.reveal c).unrevealed = g.unrevealed.erase c := by
  ext d
  simp only [unrevealed, Finset.mem_filter, Finset.mem_univ, true_and, Finset.mem_erase, status_reveal]
  by_cases hd : d = c
  · rw [if_pos hd]
    exact iff_of_false (fun hne => hne rfl) fun hne => hne.1 hd
  · rw [if_neg hd]
    exact ⟨fun h => ⟨hd, h⟩, And.right⟩

lemma card_visit (s : Game rows cols × List (Position rows cols)) (c : Position rows cols) :
    (visit s c).1.unrevealed.card + (visit s c).2.length ≤ s.1.unrevealed.card + s.2.length := by
  rw [visit]
  split
  · rename_i h
    have hmem : c ∈ s.1.unrevealed := Finset.mem_filter.2 ⟨Finset.mem_univ c, h.1⟩
    have hcard := Finset.card_erase_add_one hmem
    dsimp only
    rw [unrevealed_reveal]
    split
    · rw [List.length_append, List.length_singleton]
      omega
    · omega
  · exact Nat.le_refl _

lemma card_expand (s : Game rows cols × List (Position rows cols)) (c : Position rows cols) :
    (expand s c).1.unrevealed.card + (expand s c).2.length ≤ s.1.unrevealed.card + s.2.length := by
  rw [expand, visitAlong]
  induction DIRS generalizing s with
  | nil => exact Nat.le_refl _
  | cons d dirs ih =>
    rw [List.foldl_cons]
    refine (ih _).trans ?_
    obtain ⟨dx, dy⟩ := d
    dsimp only
    cases inside rows cols (c.1 + dx) (c.2 + dy) with
    | none => exact Nat.le_refl _
    | some c => exact card_visit s c

/-- The loop of the search, which goes on while the queue is not empty. -/
def flood (g : Game rows cols) : List (Position rows cols) → Game rows cols
  | [] => g
  | c :: queue => flood (expand (g, queue) c).1 (expand (g, queue) c).2
termination_by queue => g.unrevealed.card + queue.length
decreasing_by
  have := card_expand (g, queue) c
  rw [List.length_cons]
  exact Nat.lt_succ_of_le this

/-- The branches for a click on a cell of the board. -/
def click (g : Game rows cols) (c : Position rows cols) (leftClicked rightClicked : Bool) : Game rows cols :=
  if rightClicked ∧ g.status c ≠ .revealed then
    g.setStatus c (if g.status c = .hidden then .flagged else .hidden)
  else if leftClicked ∧ g.status c = .hidden then
    match g.type c with
    | .mine => { g with gameStatus := .lost }
    | .count 0 => flood (g.reveal c) [c]
    | .count (_ + 1) => g.reveal c
  else g

def onMouseEvent (g : Game rows cols) (row col : Nat) (leftClicked rightClicked clickReleased : Bool) :
    Game rows cols :=
  if h : (row < rows ∧ col < cols) ∧ clickReleased then
    let g := g.click (⟨row, h.1.1⟩, ⟨col, h.1.2⟩) leftClicked rightClicked
    if g.safeCells = 0 then { g with gameStatus := .won } else g
  else g

end Game

end CppExperiments.Misc.Minesweeper

/-!
## What clicks reveal

The cells that are revealed are closed: next to an empty one every cell is revealed. That is why a search may pass over
the empty cells that were revealed before it.
-/

namespace CppExperiments.Misc.Minesweeper

variable {rows cols : Nat} {c d : Position rows cols} {g : Game rows cols} {types : Position rows cols → CellType}
  {s : Game rows cols × List (Position rows cols)} {queue : List (Position rows cols)}

/-- Different cells whose coordinates differ by one at most. -/
def Neighbours (c d : Position rows cols) : Prop :=
  d ≠ c ∧ ((d.1 : Int) - c.1).natAbs ≤ 1 ∧ ((d.2 : Int) - c.2).natAbs ≤ 1

lemma inside_eq_some {x y : Int} : inside rows cols x y = some d ↔ x = d.1 ∧ y = d.2 := by
  obtain ⟨⟨i, hi⟩, ⟨j, hj⟩⟩ := d
  unfold inside
  split
  · rw [Option.some.injEq, Prod.mk.injEq, Fin.mk.injEq, Fin.mk.injEq]
    constructor
    · rintro ⟨hx, hy⟩
      constructor <;> dsimp only <;> omega
    · rintro ⟨hx, hy⟩
      dsimp only at hx hy
      constructor <;> omega
  · rename_i h
    refine iff_of_false (Option.some_ne_none _).symm fun hxy => h ?_
    obtain ⟨hx, hy⟩ := hxy
    dsimp only at hx hy
    omega

lemma mem_DIRS {x y : Int} : (x, y) ∈ DIRS ↔ (x, y) ≠ (0, 0) ∧ x.natAbs ≤ 1 ∧ y.natAbs ≤ 1 := by
  constructor
  · have hall : ∀ d ∈ DIRS, d ≠ (0, 0) ∧ d.1.natAbs ≤ 1 ∧ d.2.natAbs ≤ 1 := by decide
    exact hall (x, y)
  · rintro ⟨hne, hx, hy⟩
    have hx' : x = -1 ∨ x = 0 ∨ x = 1 := by omega
    have hy' : y = -1 ∨ y = 0 ∨ y = 1 := by omega
    rcases hx' with rfl | rfl | rfl <;> rcases hy' with rfl | rfl | rfl <;> first | exact absurd rfl hne | decide

/-- The neighbours are the cells that are met in some direction. -/
lemma neighbours_iff : Neighbours c d ↔ ∃ dir ∈ DIRS, inside rows cols (c.1 + dir.1) (c.2 + dir.2) = some d := by
  constructor
  · rintro ⟨hne, hx, hy⟩
    refine ⟨((d.1 : Int) - c.1, (d.2 : Int) - c.2), mem_DIRS.2 ⟨fun heq => hne ?_, hx, hy⟩, inside_eq_some.2 ?_⟩
    · rw [Prod.mk.injEq] at heq
      exact Prod.ext (Fin.ext (by omega)) (Fin.ext (by omega))
    · constructor <;> dsimp only <;> omega
  · rintro ⟨⟨x, y⟩, hdir, hd⟩
    obtain ⟨hne, hx, hy⟩ := mem_DIRS.1 hdir
    obtain ⟨hx', hy'⟩ := inside_eq_some.1 hd
    dsimp only at hx' hy'
    refine ⟨fun heq => hne ?_, by omega, by omega⟩
    rw [heq] at hx' hy'
    exact Prod.ext (by omega) (by omega)

namespace Game

def revealed (g : Game rows cols) : Set (Position rows cols) := {c | g.status c = .revealed}

/-- The cells without a mine that are not revealed. -/
def remaining (g : Game rows cols) : Finset (Position rows cols) := {c | g.type c ≠ .mine ∧ g.status c ≠ .revealed}

lemma mem_remaining : c ∈ g.remaining ↔ g.type c ≠ .mine ∧ g.status c ≠ .revealed := by
  simp only [remaining, Finset.mem_filter, Finset.mem_univ, true_and]

lemma revealed_reveal (g : Game rows cols) (c : Position rows cols) : (g.reveal c).revealed = insert c g.revealed := by
  ext d
  change (g.reveal c).status d = .revealed ↔ d = c ∨ g.status d = .revealed
  rw [status_reveal]
  by_cases hd : d = c
  · rw [if_pos hd]
    exact iff_of_true rfl (Or.inl hd)
  · rw [if_neg hd]
    exact (or_iff_right hd).symm

lemma remaining_reveal (g : Game rows cols) (c : Position rows cols) :
    (g.reveal c).remaining = g.remaining.erase c := by
  ext d
  rw [Finset.mem_erase, mem_remaining, mem_remaining, type_reveal, status_reveal]
  by_cases hd : d = c
  · rw [if_pos hd]
    exact iff_of_false (fun h => h.2 rfl) fun h => h.1 hd
  · rw [if_neg hd]
    exact ⟨fun h => ⟨hd, h⟩, And.right⟩

/-- A game on a board with these types. -/
structure Consistent (types : Position rows cols → CellType) (g : Game rows cols) : Prop where
  type : ∀ c, g.type c = types c
  counted : g.safeCells = Int32.ofNat g.remaining.card
  mine : ∀ c, types c = .mine → g.status c ≠ .revealed

lemma Consistent.reveal (h : g.Consistent types) (hstatus : g.status c ≠ .revealed) (htype : types c ≠ .mine) :
    (g.reveal c).Consistent types where
  type d := (type_reveal g c d).trans (h.type d)
  counted := by
    have hcard := Finset.card_erase_add_one (mem_remaining.2 ⟨(h.type c).symm ▸ htype, hstatus⟩)
    have hcount : (g.reveal c).safeCells = g.safeCells - 1 := rfl
    rw [hcount, h.counted, remaining_reveal, ← hcard, Int32.ofNat_add]
    exact Int32.add_sub_cancel _ _
  mine d hd := by
    rw [status_reveal, if_neg fun heq : d = c => htype (heq ▸ hd)]
    exact h.mine d hd

/-- The cells are marked from `start` on, in a game on this board. -/
def Searching (types : Position rows cols → CellType) (old : Set (Position rows cols)) (start : Position rows cols)
    (current : Option (Position rows cols)) (s : Game rows cols × List (Position rows cols)) : Prop :=
  s.1.Consistent types ∧
    Flooding Neighbours (fun c => types c = .count 0) old start current s.2 s.1.revealed

variable {old : Set (Position rows cols)} {start a : Position rows cols}

lemma visit_spec (h : Searching types old start (some a) s) (hnext : Neighbours a c) :
    Searching types old start (some a) (visit s c) ∧ s.1.revealed ⊆ (visit s c).1.revealed ∧
      (types c ≠ .mine → c ∈ (visit s c).1.revealed) := by
  obtain ⟨hcons, hflood⟩ := h
  rw [visit, hcons.type]
  by_cases hnew : s.1.status c ≠ .revealed ∧ types c ≠ .mine
  · rw [if_pos hnew]
    refine ⟨⟨hcons.reveal hnew.1 hnew.2, ?_⟩, ?_, fun _ => ?_⟩
    · rw [revealed_reveal]
      by_cases hopen : types c = .count 0
      · rw [if_pos hopen]
        exact hflood.push hnext hopen
      · rw [if_neg hopen]
        exact hflood.mark hnext hopen
    · rw [revealed_reveal]
      exact Set.subset_insert c _
    · rw [revealed_reveal]
      exact Set.mem_insert c _
  · rw [if_neg hnew]
    refine ⟨⟨hcons, hflood⟩, subset_rfl, fun hmine => ?_⟩
    by_contra hc
    exact hnew ⟨hc, hmine⟩

lemma visitAlong_spec (hsafe : ∀ d, Neighbours a d → types d ≠ .mine) {dirs : List (Int × Int)} (hdirs : dirs ⊆ DIRS)
    (h : Searching types old start (some a) s) :
    Searching types old start (some a) (visitAlong a dirs s) ∧ s.1.revealed ⊆ (visitAlong a dirs s).1.revealed ∧
      ∀ dir ∈ dirs, ∀ d, inside rows cols (a.1 + dir.1) (a.2 + dir.2) = some d →
        d ∈ (visitAlong a dirs s).1.revealed := by
  induction dirs generalizing s with
  | nil => exact ⟨h, subset_rfl, fun dir hdir => absurd hdir List.not_mem_nil⟩
  | cons dir dirs ih =>
    rw [List.cons_subset] at hdirs
    obtain ⟨dx, dy⟩ := dir
    rw [visitAlong, List.foldl_cons]
    dsimp only
    cases hc : inside rows cols (a.1 + dx) (a.2 + dy) with
    | none =>
      obtain ⟨hsearch, hmono, hall⟩ := ih hdirs.2 h
      refine ⟨hsearch, hmono, fun dir hdir d hd => ?_⟩
      rcases List.mem_cons.1 hdir with rfl | hdir
      · exact absurd (hc.symm.trans hd).symm (Option.some_ne_none d)
      · exact hall dir hdir d hd
    | some c =>
      have hnext : Neighbours a c := neighbours_iff.2 ⟨(dx, dy), hdirs.1, hc⟩
      obtain ⟨hvisit, hkept, hin⟩ := visit_spec h hnext
      obtain ⟨hsearch, hmono, hall⟩ := ih hdirs.2 hvisit
      refine ⟨hsearch, hkept.trans hmono, fun dir hdir d hd => ?_⟩
      rcases List.mem_cons.1 hdir with rfl | hdir
      · obtain rfl := Option.some.inj (hc.symm.trans hd)
        exact hmono (hin (hsafe c hnext))
      · exact hall dir hdir d hd

lemma expand_spec (hsafe : ∀ d, Neighbours a d → types d ≠ .mine) (h : Searching types old start (some a) s) :
    Searching types old start none (expand s a) := by
  obtain ⟨⟨hcons, hflood⟩, -, hall⟩ := visitAlong_spec hsafe (List.Subset.refl DIRS) h
  refine ⟨hcons, hflood.finish fun d hd => ?_⟩
  obtain ⟨dir, hdir, hd⟩ := neighbours_iff.1 hd
  exact hall dir hdir d hd

/-- The whole search, where no mine lies next to an empty cell. -/
lemma flood_spec (hsafe : ∀ c d, types c = .count 0 → Neighbours c d → types d ≠ .mine)
    (hopen : types start = .count 0) (h : Searching types old start none (g, queue)) :
    Searching types old start none (flood g queue, []) := by
  induction g, queue using flood.induct with
  | case1 g =>
    rw [flood]
    exact h
  | case2 g c queue ih =>
    rw [flood]
    have hregion := h.2.queued c (Or.inl List.mem_cons_self)
    have hc := opens_of_mem_region (by exact hopen) hregion
    exact ih (expand_spec (fun d => hsafe c d hc) ⟨h.1, h.2.pop⟩)

/-- What holds of a game after any clicks on a board. -/
structure Sound (types : Position rows cols → CellType) (g : Game rows cols) : Prop extends g.Consistent types where
  closed : Closed Neighbours (fun c => types c = .count 0) g.revealed

/-- A click on an empty cell that is hidden reveals its region with the border. -/
lemma click_empty (hsafe : ∀ c d, types c = .count 0 → Neighbours c d → types d ≠ .mine) (h : g.Sound types)
    (hstatus : g.status c = .hidden) (hopen : types c = .count 0) :
    (g.click c true false).Sound types ∧ ∀ d, d ∈ (g.click c true false).revealed ↔
      d ∈ g.revealed ∨ d ∈ Flooded Neighbours (fun c => types c = .count 0) c := by
  have hclick : g.click c true false = flood (g.reveal c) [c] := by
    rw [click, if_neg fun hright => Bool.false_ne_true hright.1, if_pos ⟨rfl, hstatus⟩, h.type, hopen]
  have hnew : g.status c ≠ .revealed := by
    rw [hstatus]
    exact CellStatus.noConfusion
  have hinit : Searching types g.revealed c none (g.reveal c, [c]) := by
    refine ⟨h.reveal hnew fun hmine => CellType.noConfusion (hopen.symm.trans hmine), ?_⟩
    rw [revealed_reveal]
    exact Flooding.init h.closed
  obtain ⟨hcons, hflood⟩ := flood_spec hsafe hopen hinit
  rw [hclick]
  exact ⟨⟨hcons, hflood.closed_of_nil⟩, fun d => hflood.mem_iff hopen⟩

/-- What does not reveal anything. -/
lemma Sound.of_status {g' : Game rows cols} (h : g.Sound types) (htype : ∀ c, g'.type c = g.type c)
    (hstatus : ∀ c, g'.status c = .revealed ↔ g.status c = .revealed) (hcount : g'.safeCells = g.safeCells) :
    g'.Sound types := by
  have hremaining : g'.remaining = g.remaining := by
    ext d
    rw [mem_remaining, mem_remaining, htype]
    exact and_congr_right fun _ => not_congr (hstatus d)
  have hrevealed : g'.revealed = g.revealed := Set.ext hstatus
  refine ⟨⟨fun c => (htype c).trans (h.type c), ?_, fun c hc hr => h.mine c hc ((hstatus c).1 hr)⟩, ?_⟩
  · rw [hcount, hremaining]
    exact h.counted
  · rw [hrevealed]
    exact h.closed

theorem Sound.click (hsafe : ∀ c d, types c = .count 0 → Neighbours c d → types d ≠ .mine) (h : g.Sound types)
    (c : Position rows cols) (left right : Bool) : (g.click c left right).Sound types := by
  by_cases hright : right = true ∧ g.status c ≠ .revealed
  · rw [Game.click, if_pos hright]
    refine h.of_status (fun d => type_setStatus g c d _) (fun d => ?_) rfl
    rw [status_setStatus]
    by_cases hd : d = c
    · rw [if_pos hd, hd]
      refine iff_of_false (fun heq => ?_) hright.2
      split at heq
      · exact CellStatus.noConfusion heq
      · exact CellStatus.noConfusion heq
    · rw [if_neg hd]
  · by_cases hleft : left = true ∧ g.status c = .hidden
    · obtain ⟨rfl, hhidden⟩ := hleft
      have hnew : g.status c ≠ .revealed := by
        rw [hhidden]
        exact CellStatus.noConfusion
      obtain rfl : right = false := Bool.eq_false_iff.2 fun heq => hright ⟨heq, hnew⟩
      cases htype : types c with
      | mine =>
        rw [Game.click, if_neg hright, if_pos ⟨rfl, hhidden⟩, h.type, htype]
        exact h.of_status (fun _ => rfl) (fun _ => Iff.rfl) rfl
      | count n =>
        cases n with
        | zero => exact (click_empty hsafe h hhidden htype).1
        | succ n =>
          rw [Game.click, if_neg hright, if_pos ⟨rfl, hhidden⟩, h.type, htype]
          refine ⟨h.reveal hnew fun hmine => CellType.noConfusion (htype.symm.trans hmine), ?_⟩
          rw [revealed_reveal]
          intro d hd hopen e he
          rcases hd with rfl | hd
          · exact absurd (CellType.count.inj (htype.symm.trans hopen)) (Nat.succ_ne_zero n)
          · exact Set.mem_insert_of_mem c (h.closed d hd hopen e he)
    · rw [Game.click, if_neg hright, if_neg hleft]
      exact h

/-- An event on the board is a click, which may end the game; other events do nothing. -/
lemma onMouseEvent_cases (g : Game rows cols) (row col : Nat) (left right released : Bool) :
    (g.onMouseEvent row col left right released = g ∧ ¬ ((row < rows ∧ col < cols) ∧ released = true)) ∨
    ∃ (c : Position rows cols) (status : GameStatus), c.1 = row ∧ c.2 = col ∧ released = true ∧
      g.onMouseEvent row col left right released = { g.click c left right with gameStatus := status } := by
  unfold onMouseEvent
  split
  · rename_i h
    refine Or.inr ⟨(⟨row, h.1.1⟩, ⟨col, h.1.2⟩), ?_⟩
    dsimp only
    split
    · exact ⟨.won, rfl, rfl, h.2, rfl⟩
    · exact ⟨_, rfl, rfl, h.2, rfl⟩
  · rename_i h
    exact Or.inl ⟨rfl, h⟩

theorem Sound.onMouseEvent (hsafe : ∀ c d, types c = .count 0 → Neighbours c d → types d ≠ .mine)
    (h : g.Sound types) (row col : Nat) (left right released : Bool) :
    (g.onMouseEvent row col left right released).Sound types := by
  rcases onMouseEvent_cases g row col left right released with ⟨heq, -⟩ | ⟨c, status, -, -, -, heq⟩
  · rwa [heq]
  · rw [heq]
    exact (h.click hsafe c left right).of_status (fun _ => rfl) (fun _ => Iff.rfl) rfl

end Game

/-! ## The board -/

/-- The types that the constructor gives to the cells. -/
def board (rows cols : Nat) (mines : List (Int × Int)) (c : Position rows cols) : CellType :=
  if ((c.1 : Int), (c.2 : Int)) ∈ mines then .mine else .count (countMines c.1 c.2 mines)

variable {cells mines : List (Int × Int)} {mineCount : Int}

lemma board_eq_mine : board rows cols mines c = .mine ↔ ((c.1 : Int), (c.2 : Int)) ∈ mines := by
  rw [board]
  split
  · exact iff_of_true rfl ‹_›
  · exact iff_of_false CellType.noConfusion ‹_›

/-- No mine lies next to an empty cell. -/
lemma ne_mine_of_empty (hc : board rows cols mines c = .count 0) (hd : Neighbours c d) :
    board rows cols mines d ≠ .mine := by
  rw [board] at hc
  split at hc
  · exact CellType.noConfusion hc
  · obtain ⟨dir, hdir, hinside⟩ := neighbours_iff.1 hd
    have hnone := List.countP_eq_zero.1 (CellType.count.inj hc) dir hdir
    obtain ⟨hx, hy⟩ := inside_eq_some.1 hinside
    rw [decide_eq_true_eq, hx, hy] at hnone
    exact fun hmine => hnone (board_eq_mine.1 hmine)

lemma mem_allCells {x y : Int} : (x, y) ∈ allCells rows cols ↔ ∃ c : Position rows cols, x = c.1 ∧ y = c.2 := by
  simp only [allCells, List.mem_flatMap, List.mem_range, List.mem_map, Prod.mk.injEq]
  constructor
  · rintro ⟨i, hi, j, hj, rfl, rfl⟩
    exact ⟨(⟨i, hi⟩, ⟨j, hj⟩), rfl, rfl⟩
  · rintro ⟨⟨i, j⟩, rfl, rfl⟩
    exact ⟨i, i.2, j, j.2, rfl, rfl⟩

lemma nodup_allCells (rows cols : Nat) : (allCells rows cols).Nodup := by
  rw [allCells, List.nodup_flatMap]
  refine ⟨fun i _ => List.nodup_range.map fun j k hjk => ?_, List.nodup_range.imp fun {i k} hik => ?_⟩
  · exact Int.ofNat_inj.1 (congrArg Prod.snd hjk)
  · intro x hx hx'
    obtain ⟨j, -, rfl⟩ := List.mem_map.1 hx
    obtain ⟨j', -, heq⟩ := List.mem_map.1 hx'
    exact hik (Int.ofNat_inj.1 (congrArg Prod.fst heq)).symm

/-- There are as many cells with a mine as mines. -/
lemma card_mines (hnodup : mines.Nodup) (hsub : mines ⊆ allCells rows cols) :
    Finset.card {c : Position rows cols | ((c.1 : Int), (c.2 : Int)) ∈ mines} = mines.length := by
  have hinj : Function.Injective fun c : Position rows cols => ((c.1 : Int), (c.2 : Int)) := by
    intro c d hcd
    obtain ⟨hfst, hsnd⟩ := Prod.mk.inj hcd
    exact Prod.ext (Fin.ext (Int.ofNat_inj.1 hfst)) (Fin.ext (Int.ofNat_inj.1 hsnd))
  rw [← List.toFinset_card_of_nodup hnodup, ← Finset.card_image_of_injective _ hinj]
  congr 1
  ext ⟨x, y⟩
  rw [List.mem_toFinset, Finset.mem_image]
  constructor
  · rintro ⟨c, hc, heq⟩
    exact heq ▸ (Finset.mem_filter.1 hc).2
  · intro hxy
    obtain ⟨c, rfl, rfl⟩ := mem_allCells.1 (hsub hxy)
    exact ⟨c, Finset.mem_filter.2 ⟨Finset.mem_univ c, hxy⟩, rfl⟩

namespace Game

/-- The constructor hides all cells and counts those without a mine. -/
lemma construct_eq (hstart : construct rows cols cells mineCount = some g) :
    (0 ≤ mineCount ∧ mineCount ≤ cells.length) ∧ g.safeCells = Int32.ofNat (rows * cols) - Int32.ofInt mineCount ∧
      ∀ c, g.status c = .hidden ∧ g.type c = board rows cols (cells.take mineCount.toNat) c := by
  rw [construct] at hstart
  split at hstart
  · rename_i hcount
    obtain rfl := Option.some.inj hstart
    refine ⟨hcount, rfl, fun c => ?_⟩
    by_cases hmine : ((c.1 : Int), (c.2 : Int)) ∈ cells.take mineCount.toNat
    · simp only [status, type, board, if_pos hmine, and_self]
    · simp only [status, type, board, if_neg hmine, and_self]
  · exact absurd hstart.symm (Option.some_ne_none g)

/-- The game before the first click. -/
theorem sound_construct (hshuffled : cells.Perm (allCells rows cols))
    (hstart : construct rows cols cells mineCount = some g) :
    g.Sound (board rows cols (cells.take mineCount.toNat)) := by
  obtain ⟨hcount, hsafe, hcells⟩ := construct_eq hstart
  have hhidden : ∀ c, g.status c ≠ .revealed := fun c hc => CellStatus.noConfusion ((hcells c).1.symm.trans hc)
  refine ⟨⟨fun c => (hcells c).2, ?_, fun c _ => hhidden c⟩, fun c hc => absurd hc (hhidden c)⟩
  have hnodup : (cells.take mineCount.toNat).Nodup :=
    (hshuffled.nodup_iff.2 (nodup_allCells rows cols)).sublist (List.take_sublist _ _)
  have hmines := card_mines hnodup fun x hx => hshuffled.subset (List.take_subset _ _ hx)
  have hlength : (cells.take mineCount.toNat).length = mineCount.toNat := by
    rw [List.length_take]
    omega
  have hremaining : g.remaining =
      ({c | ¬ ((c.1 : Int), (c.2 : Int)) ∈ cells.take mineCount.toNat} : Finset (Position rows cols)) := by
    ext c
    rw [mem_remaining, (hcells c).2, Finset.mem_filter]
    exact ⟨fun h => ⟨Finset.mem_univ c, fun hc => h.1 (board_eq_mine.2 hc)⟩,
      fun h => ⟨fun hc => h.2 (board_eq_mine.1 hc), hhidden c⟩⟩
  have htotal := Finset.card_filter_add_card_filter_not (s := Finset.univ)
    (p := fun c : Position rows cols => ((c.1 : Int), (c.2 : Int)) ∈ cells.take mineCount.toNat)
  rw [hmines, hlength, ← hremaining, Finset.card_univ, Fintype.card_prod, Fintype.card_fin, Fintype.card_fin] at htotal
  rw [hsafe, ← htotal, Int32.ofNat_add, Int32.add_comm, ← Int32.ofInt_eq_ofNat (n := mineCount.toNat),
    Int.toNat_of_nonneg hcount.1, Int32.add_sub_cancel]

/-- A click is where and with which button, and whether the button was released. -/
structure MouseEvent where
  row : Nat
  col : Nat
  leftClicked : Bool
  rightClicked : Bool
  clickReleased : Bool

def play (g : Game rows cols) (events : List MouseEvent) : Game rows cols :=
  events.foldl (fun g e => g.onMouseEvent e.row e.col e.leftClicked e.rightClicked e.clickReleased) g

theorem Sound.play (hsafe : ∀ c d, types c = .count 0 → Neighbours c d → types d ≠ .mine) (h : g.Sound types)
    (events : List MouseEvent) : (g.play events).Sound types := by
  induction events generalizing g with
  | nil => exact h
  | cons e events ih => exact ih (h.onMouseEvent hsafe _ _ _ _ _)

/-- After any clicks on a board `safeCells` counts the cells without a mine that are not revealed, as an `int`; no mine
is revealed, every neighbour of an empty cell that is revealed is revealed, and a left click on an empty cell that is
hidden reveals what is not revealed yet of its region and the border. -/
theorem play_reveals (hshuffled : cells.Perm (allCells rows cols))
    (hstart : construct rows cols cells mineCount = some g) (events : List MouseEvent) :
    (g.play events).safeCells = Int32.ofNat (g.play events).remaining.card ∧
    (rows * cols < 2 ^ 31 → (g.play events).safeCells.toInt = (g.play events).remaining.card) ∧
    (∀ c : Position rows cols, ((c.1 : Int), (c.2 : Int)) ∈ cells.take mineCount.toNat →
      (g.play events).status c ≠ .revealed) ∧
    (∀ c d, (g.play events).status c = .revealed → (g.play events).type c = .count 0 → Neighbours c d →
      (g.play events).status d = .revealed) ∧
    ∀ c, (g.play events).status c = .hidden → (g.play events).type c = .count 0 → ∀ d,
      (((g.play events).onMouseEvent c.1 c.2 true false true).status d = .revealed ∧
        (g.play events).status d ≠ .revealed) ↔
      ((g.play events).status d ≠ .revealed ∧ d ∈ Flooded Neighbours (fun c => (g.play events).type c = .count 0)
        c) := by
  have hsafe : ∀ c d : Position rows cols, board rows cols (cells.take mineCount.toNat) c = .count 0 →
      Neighbours c d → board rows cols (cells.take mineCount.toNat) d ≠ .mine := fun c d => ne_mine_of_empty
  have h := (sound_construct hshuffled hstart).play hsafe events
  refine ⟨h.counted, fun hsize => ?_, fun c hc => h.mine c (board_eq_mine.2 hc), fun c d hc hempty hd => ?_,
    fun c hc hempty d => ?_⟩
  · have hcard := Finset.card_le_univ (g.play events).remaining
    rw [Fintype.card_prod, Fintype.card_fin, Fintype.card_fin] at hcard
    rw [h.counted, Int32.toInt_ofNat_of_lt (lt_of_le_of_lt hcard hsize)]
  · exact h.closed c hc ((h.type c).symm.trans hempty) d hd
  · obtain ⟨-, hiff⟩ := click_empty hsafe h hc ((h.type c).symm.trans hempty)
    have htypes : (fun c => (g.play events).type c = .count 0) =
        fun c => board rows cols (cells.take mineCount.toNat) c = .count 0 := by
      funext c
      rw [h.type]
    rcases onMouseEvent_cases (g.play events) c.1 c.2 true false true with ⟨-, hno⟩ | ⟨c', status, hrow, hcol, -, heq⟩
    · exact absurd ⟨⟨c.1.2, c.2.2⟩, rfl⟩ hno
    · obtain rfl : c' = c := Prod.ext (Fin.ext hrow) (Fin.ext hcol)
      rw [heq, htypes, and_comm]
      refine and_congr_right fun hnew => ?_
      exact (hiff d).trans (or_iff_right hnew)

theorem play_reveals_corner : ∃ g : Game 2 3, construct 2 3 (allCells 2 3).reverse 1 = some g ∧
    (g.play [⟨0, 1, false, true, true⟩, ⟨0, 0, true, false, true⟩]).safeCells =
      Int32.ofNat (g.play [⟨0, 1, false, true, true⟩, ⟨0, 0, true, false, true⟩]).remaining.card ∧
    (g.play [⟨0, 1, false, true, true⟩, ⟨0, 0, true, false, true⟩]).status (1, 2) ≠ .revealed := by
  have hstart : construct 2 3 (allCells 2 3).reverse 1 = some _ := rfl
  have h := play_reveals (List.reverse_perm _) hstart [⟨0, 1, false, true, true⟩, ⟨0, 0, true, false, true⟩]
  exact ⟨_, hstart, h.1, h.2.2.1 (1, 2) (by decide)⟩

end Game

end CppExperiments.Misc.Minesweeper

import CppExperiments.Lib.Fuel
import CppExperiments.Lib.Grid
import CppExperiments.Puzzles.Trie
import Mathlib.Data.Finset.Basic
import Mathlib.Data.List.Sort

/-!
# Word searches

The search for words in a grid along the trie of the words, and the placing of words in a grid with backtracking.
-/

namespace CppExperiments.Puzzles

open Grid

/-- A size as an int of 32 bits. -/
@[irreducible]
def toInt (n : Nat) : Int := (n : Int).bmod (2 ^ 32)

/-- The mark of a free cell. -/
def star : UInt8 := 42

def dirs : List (Int × Int) := [(-1, -1), (-1, 0), (-1, 1), (0, -1), (0, 1), (1, -1), (1, 0), (1, 1)]

def isValid (grid : List Bytes) (i j : Int) : Bool :=
  decide (0 ≤ i ∧ 0 ≤ j ∧ i < toInt grid.length ∧ j < toInt (grid.headD []).length)

def bound (d : Int) (size : Nat) : Int := if d = 0 then intMax else if d < 0 then 0 else toInt size

def maxDist (grid : List Bytes) (x y dx dy : Int) : Nat :=
  min (x - bound dx grid.length).natAbs (y - bound dy (grid.headD []).length).natAbs + 1

def readCell (grid : List Bytes) (x y : Int) : Except Fault UInt8 :=
  match cell grid x y with
  | none => .error .outside
  | some ch => .ok ch

def writeCell (grid : List Bytes) (x y : Int) (ch : UInt8) : Except Fault (List Bytes) :=
  if cell grid x y = none then .error .outside else .ok (putCell grid x y ch)

/-- The cells of a grid in the order of the loops. -/
def cellsOf (grid : List Bytes) : List (Nat × Nat) :=
  (List.range grid.length).flatMap fun i => (List.range (grid.headD []).length).map fun j => (i, j)

/-- The directions from every cell. -/
def starts (grid : List Bytes) : List ((Nat × Nat) × (Int × Int)) := (cellsOf grid).flatMap fun c => dirs.map fun d =>
    (c, d)

structure WordSearch where
  grid : List Bytes
  words : List Bytes

/-! ## The search -/

/-- The pointer to the child for a letter. -/
def Trie.child (t : Trie) (curr : Bytes) (ch : UInt8) : Except Fault (Option TrieNode) :=
  if t curr = none then .error .freed else if Trie.ord ch < 26 then .ok (t (curr ++ [ch])) else .error .outside

structure Search where
  trie : Trie
  visited : Finset (Int × Int)
  found : Finset Bytes

/-- The end of a word was reached. -/
def Search.report (s : Search) (grid : List Bytes) (path : List (Int × Int)) : Except Fault Search := do
  let acc ← path.mapM fun p => readCell grid p.1 p.2
  let (_, trie) ← s.trie.erase acc
  .ok { trie := trie, visited := s.visited ∪ path.toFinset, found := insert acc s.found }

/-- At most this many rounds of the loop along a direction. -/
def walk (grid : List Bytes) (dx dy : Int) : Nat → Search → Bytes → List (Int × Int) → Int → Int → Except Fault Search
  | 0, _, _, _, _, _ => .error .running
  | n + 1, s, curr, path, x, y =>
    if isValid grid x y = true then do
      let ch ← readCell grid x y
      match ← s.trie.child curr ch with
      | none => .ok s
      | some node =>
        if maxDist grid x y dx dy < node.minDist then .ok s
        else do
          let s ← if node.isEnd = true then s.report grid (path ++ [(x, y)]) else .ok s
          walk grid dx dy n s (curr ++ [ch]) (path ++ [(x, y)]) (x + dx) (y + dy)
    else .ok s

/-- The cells that no word was found on are marked. -/
def markUnvisited (grid : List Bytes) (visited : Finset (Int × Int)) : Except Fault (List Bytes) :=
  (cellsOf grid).foldlM (fun grid c => if (toInt c.1, toInt c.2) ∈ visited then .ok grid else writeCell grid c.1 c.2
    star) grid

def WordSearch.solve (ws : WordSearch) (n : Nat) : Except Fault (Finset Bytes × WordSearch) := do
  let root ← Trie.init ws.words
  let s ← (starts ws.grid).foldlM
    (fun s start => walk ws.grid start.2.1 start.2.2 n s [] [] (toInt start.1.1) (toInt start.1.2))
    { trie := root, visited := ∅, found := ∅ }
  let grid ← markUnvisited ws.grid s.visited
  .ok (s.found, { ws with grid := grid })

/-! ## The generator -/

structure Candidate where
  overlaps : Int
  rand : Int
  row : Int
  col : Int
  dirX : Int
  dirY : Int
  deriving DecidableEq

/-- The order of the candidates. -/
def orderCandidate (c1 c2 : Candidate) : Bool :=
  decide (c1.overlaps < c2.overlaps ∨ c1.overlaps = c2.overlaps ∧ c2.rand < c1.rand)

instance : Std.Total fun c1 c2 => orderCandidate c2 c1 = false where
  total c1 c2 := by
    simp only [orderCandidate, decide_eq_false_iff_not]
    omega

instance : IsTrans Candidate fun c1 c2 => orderCandidate c2 c1 = false where
  trans c1 c2 c3 h h' := by
    simp only [orderCandidate, decide_eq_false_iff_not] at h h' ⊢
    omega

/-- A sort that may leave candidates of the same rank in any order. -/
structure CandidateSort where
  sort : List Candidate → List Candidate
  perm : ∀ candidates, (sort candidates).Perm candidates
  sorted : ∀ candidates, (sort candidates).Pairwise fun c1 c2 => orderCandidate c2 c1 = false

/-- A sort that keeps the order of candidates of the same rank. -/
def CandidateSort.stable : CandidateSort where
  sort candidates := candidates.insertionSort fun c1 c2 => orderCandidate c2 c1 = false
  perm candidates := List.perm_insertionSort _ candidates
  sorted candidates := List.pairwise_insertionSort _ candidates

/-- The overlaps of a word along a direction; nothing where another letter stands in its way. -/
def scan (grid : List Bytes) (dx dy : Int) : Bytes → Int → Int → Int → Except Fault (Option Int)
  | [], _, _, overlaps => .ok (some overlaps)
  | ch :: rest, x, y, overlaps =>
    if isValid grid x y = true then do
      let gridCh ← readCell grid x y
      if gridCh ≠ star ∧ gridCh ≠ ch then .ok none
      else scan grid dx dy rest (x + dx) (y + dy) (if gridCh ≠ star then overlaps + 1 else overlaps)
    else .ok (some overlaps)

/-- The overlaps of a word from a start on, where it is short enough. -/
def overlapsAt (grid : List Bytes) (word : Bytes) (start : (Nat × Nat) × (Int × Int)) : Except Fault (Option Int) :=
  let x := toInt start.1.1
  let y := toInt start.1.2
  if isValid grid x y = true ∧ word.length < maxDist grid x y start.2.1 start.2.2 then
    scan grid start.2.1 start.2.2 word x y 0
  else .ok none

section

variable {γ : Type} (sorting : CandidateSort) (randInt : γ → Int × γ)

def addCandidate (grid : List Bytes) (word : Bytes) (s : List Candidate × γ) (start : (Nat × Nat) × (Int × Int)) :
    Except Fault (List Candidate × γ) := do
  match ← overlapsAt grid word start with
  | none => .ok s
  | some overlaps =>
    let (rand, gen) := randInt s.2
    .ok (s.1 ++ [{
      overlaps := overlaps
      rand := rand
      row := toInt start.1.1
      col := toInt start.1.2
      dirX := start.2.1
      dirY := start.2.2 }], gen)

def generateCandidates (grid : List Bytes) (word : Bytes) (gen : γ) : Except Fault (List Candidate × γ) := do
  let (result, gen) ← (starts grid).foldlM (addCandidate randInt grid word) ([], gen)
  .ok (sorting.sort result, gen)

def Candidate.x (c : Candidate) (idx : Nat) : Int := c.row + idx * c.dirX

def Candidate.y (c : Candidate) (idx : Nat) : Int := c.col + idx * c.dirY

/-- The places of the letters of a word. -/
def indices (word : Bytes) : List Nat := List.range (toInt word.length).toNat

/-- A letter is written, and its place is told where the letter stood before. -/
def insertLetter (word : Bytes) (c : Candidate) (s : List Bytes × Finset Nat) (idx : Nat) :
    Except Fault (List Bytes × Finset Nat) := do
  let gridCh ← readCell s.1 (c.x idx) (c.y idx)
  let grid ← writeCell s.1 (c.x idx) (c.y idx) (word.getD idx 0)
  .ok (grid, if gridCh = word.getD idx 0 then insert idx s.2 else s.2)

def insertWord (grid : List Bytes) (word : Bytes) (c : Candidate) : Except Fault (List Bytes × Finset Nat) :=
  (indices word).foldlM (insertLetter word c) (grid, ∅)

def removeLetter (c : Candidate) (overlaps : Finset Nat) (grid : List Bytes) (idx : Nat) : Except Fault (List Bytes) :=
  if idx ∈ overlaps then .ok grid else writeCell grid (c.x idx) (c.y idx) star

def removeWord (grid : List Bytes) (word : Bytes) (c : Candidate) (overlaps : Finset Nat) : Except Fault (List Bytes) :=
  (indices word).foldlM (removeLetter c overlaps) grid

/-- The generator with the words that are still to be placed, the next one last. -/
structure Generation (γ : Type) where
  grid : List Bytes
  words : List Bytes
  gen : γ

def tryCandidates (generate : Generation γ → Except Fault (Bool × Generation γ)) (word : Bytes) :
    List Candidate → Generation γ → Except Fault (Bool × Generation γ)
  | [], s => .ok (false, { s with words := s.words ++ [word] })
  | c :: candidates, s => do
    let (grid, overlaps) ← insertWord s.grid word c
    let (done, s) ← generate { s with grid := grid }
    if done = true then .ok (true, s)
    else do
      let grid ← removeWord s.grid word c overlaps
      tryCandidates generate word candidates { s with grid := grid }

/-- With calls of this depth at most. -/
def backtrackGenerate (threshold : Int) : Nat → Generation γ → Except Fault (Bool × Generation γ)
  | 0, _ => .error .running
  | n + 1, s =>
    match s.words.getLast? with
    | none => .ok (true, s)
    | some word => do
      let (allCandidates, gen) ← generateCandidates sorting randInt s.grid word s.gen
      let taken := min threshold (toInt allCandidates.length)
      let s := { s with words := s.words.dropLast, gen := gen }
      if taken < 0 then .error .length
      else tryCandidates (backtrackGenerate threshold n) word (allCandidates.take taken.toNat) s

end

/-! ## Cells and coordinates -/

variable {grid : List Bytes} {x y dx dy : Int} {ch : UInt8} {n : Nat}

/-- The word stands in the grid along a straight line. -/
def Readable (grid : List Bytes) (w : Bytes) : Prop := ∃ x y, ∃ d ∈ dirs, Reads grid w x y d.1 d.2

lemma toInt_le (n : Nat) : toInt n ≤ n := by
  unfold toInt
  rw [Int.bmod_def]
  split <;> omega

lemma toInt_eq (h : n ≤ intMax) : toInt n = n := by
  have hlt : (n : Int) < 2 ^ 31 := by
    rw [intMax] at h
    omega
  unfold toInt
  exact Int.bmod_eq_of_le (by omega) (by omega)

lemma isValid_iff : isValid grid x y = true ↔ 0 ≤ x ∧ 0 ≤ y ∧ x < toInt grid.length ∧
    y < toInt (grid.headD []).length :=
  decide_eq_true_iff

lemma exists_cell_of_isValid (h : Rectangular grid) (hvalid : isValid grid x y = true) :
    ∃ ch, cell grid x y = some ch := by
  obtain ⟨hx, hy, hrow, hcol⟩ := isValid_iff.1 hvalid
  exact h.exists_cell hx hy (hrow.trans_le (toInt_le _)) (hcol.trans_le (toInt_le _))

lemma mem_dirs (h : (dx, dy) ∈ dirs) :
    (dx = -1 ∨ dx = 0 ∨ dx = 1) ∧ (dy = -1 ∨ dy = 0 ∨ dy = 1) ∧ (dx ≠ 0 ∨ dy ≠ 0) := by
  simp only [dirs, List.mem_cons, Prod.mk.injEq, List.not_mem_nil, or_false] at h
  omega

lemma readCell_eq (h : cell grid x y = some ch) : readCell grid x y = .ok ch := by
  rw [readCell, h]

lemma writeCell_eq (h : cell grid x y ≠ none) (ch : UInt8) :
    writeCell grid x y ch = .ok (putCell grid x y ch) := if_neg h

lemma mem_cellsOf {c : Nat × Nat} : c ∈ cellsOf grid ↔ c.1 < grid.length ∧ c.2 < (grid.headD []).length := by
  rw [cellsOf, List.mem_flatMap]
  constructor
  · rintro ⟨i, hi, hc⟩
    obtain ⟨j, hj, rfl⟩ := List.mem_map.1 hc
    exact ⟨List.mem_range.1 hi, List.mem_range.1 hj⟩
  · rintro ⟨hi, hj⟩
    exact ⟨c.1, List.mem_range.2 hi, List.mem_map.2 ⟨c.2, List.mem_range.2 hj, rfl⟩⟩

lemma mem_starts {start : (Nat × Nat) × (Int × Int)} :
    start ∈ starts grid ↔ start.1 ∈ cellsOf grid ∧ start.2 ∈ dirs := by
  rw [starts, List.mem_flatMap]
  constructor
  · rintro ⟨c, hc, hstart⟩
    obtain ⟨d, hd, rfl⟩ := List.mem_map.1 hstart
    exact ⟨hc, hd⟩
  · rintro ⟨hc, hd⟩
    exact ⟨start.1, hc, List.mem_map.2 ⟨start.2, hd, rfl⟩⟩

end CppExperiments.Puzzles

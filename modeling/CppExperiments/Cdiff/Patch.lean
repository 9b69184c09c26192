import CppExperiments.Lib.Sorted
import CppExperiments.Lib.Text

/-!
# Patches

The hunks of the default format between two lists of lines, and what they make of a list of lines.
-/

namespace CppExperiments.Cdiff

abbrev Line := Bytes

/-! ## The code -/

/-- The cells of the next row, from what was in the row before it and from the last cell on. -/
def gridRow (sentence1 : Line) : List Line → List Nat → Nat → List Nat
  | sentence2 :: sentences2, diag :: up :: prev, left =>
    let cell := if sentence1 = sentence2 then 1 + diag else max up left
    cell :: gridRow sentence1 sentences2 (up :: prev) cell
  | _, _, _ => []

def computeLCSGrid (sentences1 sentences2 : List Line) : List (List Nat) :=
  sentences1.scanl (fun row sentence1 => 0 :: gridRow sentence1 sentences2 row 0)
    (List.replicate (sentences2.length + 1) 0)

/-- The cell in a row and a column of a grid. -/
def cellAt (dp : List (List Nat)) (i j : Nat) : Nat := (dp.getD i []).getD j 0

/-- The lines that are removed behind line `i` of the first file, and those that stand behind line `j` of the second. -/
structure Hunk where
  i : Nat
  j : Nat
  f1Patch : List Line
  f2Patch : List Line

inductive Kind where
  | a
  | d
  | c
  deriving DecidableEq

namespace Hunk

variable (h : Hunk)

def first : Nat := if h.f1Patch = [] then h.i else h.i + 1

def last : Nat := h.i + h.f1Patch.length

def kind : Kind := if h.f1Patch.length = 0 then .a else if h.f2Patch.length = 0 then .d else .c

/-- The hunk from the second file to the first. -/
def reversed : Hunk := ⟨h.j, h.i, h.f2Patch, h.f1Patch⟩

def range : Bytes := decimal h.first ++ if 1 < h.f1Patch.length then ascii "," ++ decimal h.last else []

def letter : Kind → Bytes
  | .a => ascii "a"
  | .d => ascii "d"
  | .c => ascii "c"

def defaultPatchText : Bytes :=
  (h.range ++ letter h.kind ++ h.reversed.range ++ [10] ++
    (h.f1Patch.flatMap fun t => ascii "< " ++ t ++ [10]) ++
    (if h.f1Patch ≠ [] ∧ h.f2Patch ≠ [] then ascii "---\n" else []) ++
    h.f2Patch.flatMap fun t => ascii "> " ++ t ++ [10]).dropLast

end Hunk

/-- The hunk that was collected, if there are lines in it. -/
def flush (i j : Nat) (f1Patch f2Patch : List Line) (deltas : List Hunk) : List Hunk :=
  if f1Patch ≠ [] ∨ f2Patch ≠ [] then deltas ++ [⟨i, j, f1Patch, f2Patch⟩] else deltas

/-- The way back through the grid, with the hunk that is being collected and those in front of it. -/
def backtrack (dp : List (List Nat)) (sentences1 sentences2 : List Line) (i j : Nat) (f1Patch f2Patch : List Line)
    (deltas : List Hunk) : List Hunk :=
  if _h : 0 < i ∨ 0 < j then
    if _h : 0 < i ∧ 0 < j ∧ sentences1[i - 1]? = sentences2[j - 1]? then
      backtrack dp sentences1 sentences2 (i - 1) (j - 1) [] [] (flush i j f1Patch f2Patch deltas)
    else if _h : j = 0 ∨ 0 < i ∧ cellAt dp i (j - 1) < cellAt dp (i - 1) j then
      backtrack dp sentences1 sentences2 (i - 1) j (sentences1.getD (i - 1) [] :: f1Patch) f2Patch deltas
    else backtrack dp sentences1 sentences2 i (j - 1) f1Patch (sentences2.getD (j - 1) [] :: f2Patch) deltas
  else flush i j f1Patch f2Patch deltas
termination_by i + j

def hunks (sentences1 sentences2 : List Line) : List Hunk :=
  (backtrack (computeLCSGrid sentences1 sentences2) sentences1 sentences2 sentences1.length sentences2.length [] []
    []).reverse

def defaultDiff (sentences1 sentences2 : List Line) : Bytes :=
  ((hunks sentences1 sentences2).flatMap fun h => h.defaultPatchText ++ [10]).dropLast

end CppExperiments.Cdiff

/-!
## Unified patches

The lines of both files with their signs, those of them that are shown around changes, and the text of the hunks.
-/

namespace CppExperiments.Cdiff

/-- A line with its sign, and how many lines of the two files are in front of it. -/
structure Delta where
  i : Nat
  j : Nat
  text : Line

namespace Delta

def changed (delta : Delta) : Bool := delta.text.head? != some 32

end Delta

/-- The way back through the grid, with the deltas in front of which it goes on. -/
def unifiedDeltas (dp : List (List Nat)) (sentences1 sentences2 : List Line) (i j : Nat) (deltas : List Delta) :
    List Delta :=
  if _h : 0 < i ∨ 0 < j then
    if _h : 0 < i ∧ 0 < j ∧ sentences1[i - 1]? = sentences2[j - 1]? then
      unifiedDeltas dp sentences1 sentences2 (i - 1) (j - 1)
        (⟨i - 1, j - 1, 32 :: sentences1.getD (i - 1) []⟩ :: deltas)
    else if _h : j = 0 ∨ 0 < i ∧ cellAt dp i (j - 1) < cellAt dp (i - 1) j then
      unifiedDeltas dp sentences1 sentences2 (i - 1) j (⟨i - 1, j, 45 :: sentences1.getD (i - 1) []⟩ :: deltas)
    else unifiedDeltas dp sentences1 sentences2 i (j - 1) (⟨i, j - 1, 43 :: sentences2.getD (j - 1) []⟩ :: deltas)
  else deltas
termination_by i + j

def changedAt (deltas : List Delta) (k : Nat) : Bool := deltas[k]?.any Delta.changed

/-- Whether deltas are displayed, for so many of them from `i` on. -/
def toDisplay (deltas : List Delta) (context : Nat) : Nat → Nat → Nat → List Bool
  | 0, _, _ => []
  | n + 1, i, changesWithinContext =>
    let entered := if i + context < deltas.length ∧ changedAt deltas (i + context) then changesWithinContext +
      1 else changesWithinContext
    let changes := if context < i ∧ changedAt deltas (i - context - 1) then entered - 1 else entered
    decide (changes ≠ 0) :: toDisplay deltas context n (i + 1) changes

/-- The header and the lines of a hunk, if there are lines in it. -/
def unifiedHunk (istart jstart : Nat) (ilen jlen : Int) (acc : Bytes) : Bytes :=
  if acc ≠ [] then
    ascii "@@ -" ++ decimal (istart + 1) ++ ascii "," ++ decimalInt ilen ++ ascii " +" ++ decimal (jstart + 1) ++ ascii "," ++
      decimalInt jlen ++ ascii " @@\n" ++ acc
  else []

/-- The loop over the deltas; `none` where it reads one behind the last. -/
def unifiedLoop (deltas : List (Delta × Bool)) : Option Bytes :=
  if _h : deltas = [] then some []
  else
    match _h : deltas.dropWhile (fun d => !d.2) with
    | [] => none
    | first :: more =>
      let shown := first :: more.takeWhile fun d => d.2
      let last := shown.getLastD first
      let ilen : Int := last.1.i - first.1.i + 1
      let jlen : Int := last.1.j - first.1.j + 1
      let acc := shown.flatMap fun d => d.1.text ++ [10]
      if more.dropWhile (fun d => d.2) = [] then
        some (unifiedHunk first.1.i first.1.j (ilen - 1) (jlen - 1) acc.dropLast.dropLast)
      else (unifiedLoop (more.dropWhile fun d => d.2)).map (unifiedHunk first.1.i first.1.j ilen jlen acc ++ ·)
termination_by deltas.length
decreasing_by
  have hskip := (List.dropWhile_suffix (fun d : Delta × Bool => !d.2) (l := deltas)).length_le
  have hshown := (List.dropWhile_suffix (fun d : Delta × Bool => d.2) (l := more)).length_le
  rw [_h, List.length_cons] at hskip
  omega

def unifiedPatchText (deltas : List Delta) (context : Nat) : Option Bytes :=
  let changesWithinContext := (deltas.take (min context deltas.length)).countP Delta.changed
  (unifiedLoop (deltas.zip (toDisplay deltas context deltas.length 0 changesWithinContext))).map List.dropLast

/-- The text of the hunks; `none` where it reads outside of the deltas. -/
def unifiedDiff (sentences1 sentences2 : List Line) : Option Bytes :=
  unifiedPatchText (unifiedDeltas (computeLCSGrid sentences1 sentences2) sentences1 sentences2 sentences1.length
    sentences2.length
    [⟨sentences1.length, sentences2.length, ascii " "⟩]) 3

end CppExperiments.Cdiff

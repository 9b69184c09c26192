import CppExperiments.Lib.Text
import Mathlib.Data.List.Infix

/-!
# CSV files

The lines of a file, the rows that a reader makes of them, and how a row is written.
-/

namespace CppExperiments.Csv

/-! ## Reading -/

/-- `std::getline`, with what stands behind the line; `none` at the end of the file. -/
def getline (is : Bytes) : Option (Bytes × Bytes) :=
  if is = [] then none else some (is.takeWhile (· != 10), (is.dropWhile (· != 10)).tail)

lemma getline_append {line : Bytes} (hline : 10 ∉ line) (rest : Bytes) :
    getline (line ++ 10 :: rest) = some (line, rest) := by
  have hall : ∀ b ∈ line, (b != 10) = true := fun b hb => bne_iff_ne.2 fun heq => hline (heq ▸ hb)
  rw [getline, if_neg (by simp), List.takeWhile_append_of_pos hall, List.dropWhile_append_of_pos hall]
  simp

lemma length_rest_of_getline {is line rest : Bytes} (h : getline is = some (line, rest)) :
    rest.length < is.length := by
  rw [getline] at h
  by_cases hnil : is = []
  · rw [if_pos hnil] at h
    cases h
  · rw [if_neg hnil] at h
    obtain ⟨-, rfl⟩ := Prod.mk.inj (Option.some.inj h)
    have hlength := (List.dropWhile_suffix (· != 10) (l := is)).length_le
    have hpos := List.length_pos_of_ne_nil hnil
    rw [List.length_tail]
    omega

/-- One carriage return is taken off the end of a line. -/
def dropReturn (line : Bytes) : Bytes := if line.getLast? = some 13 then line.dropLast else line

def safeGetline (is : Bytes) : Option (Bytes × Bytes) := (getline is).map fun p => (dropReturn p.1, p.2)

/-- The walk over the rest of a line behind the character `prev`; `none` where the line is not valid. -/
def parseLoop (delim quoteChar : UInt8) (prev : Option UInt8) (insideStr : Bool) (acc : Bytes) (result : List Bytes) :
    Bytes → Option (List Bytes)
  | [] => some (if insideStr = true then [] else result ++ [acc])
  | ch :: line =>
    if insideStr = false ∧ ch = delim then parseLoop delim quoteChar (some ch) insideStr [] (result ++ [acc]) line
    else if insideStr = false ∧ ch = quoteChar ∧ prev.all (· == delim) = true then
      parseLoop delim quoteChar (some ch) true acc result line
    else if insideStr = true ∧ ch = quoteChar then
      match line with
      | [] => parseLoop delim quoteChar (some ch) false acc result []
      | next :: rest =>
        if next ≠ delim ∧ next ≠ quoteChar then none
        else if next = quoteChar then parseLoop delim quoteChar (some next) insideStr (acc ++ [quoteChar]) result rest
        else parseLoop delim quoteChar (some ch) false acc result (next :: rest)
    else parseLoop delim quoteChar (some ch) insideStr (acc ++ [ch]) result line

/-- The fields of a line; none of a line that is incomplete. -/
def parseCSVLine (line : Bytes) (delim quoteChar : UInt8) : Option (List Bytes) :=
  parseLoop delim quoteChar none false [] [] line

structure CSVRecord where
  serialized : Bytes := []
  records : List Bytes := []

/-- A reader, with what it has still to read. -/
structure CSVReader where
  cols : Nat := 0
  csvStream : Bytes
  currentRow : CSVRecord := {}

namespace CSVReader

/-- At most `n` rounds of the loop that puts lines together; `none` where it throws. -/
def lineLoop (r : CSVReader) : Nat → Bytes → Option CSVReader
  | 0, _ => some r
  | n + 1, line =>
    match safeGetline r.csvStream with
    | none => some r
    | some (acc, rest) => do
      let line := line ++ acc
      let row ← parseCSVLine line 44 34
      if row = [] then lineLoop { r with csvStream := rest } n (line ++ [10])
      else if 0 < r.cols ∧ row.length ≠ r.cols then none
      else some { cols := row.length, csvStream := rest, currentRow := ⟨line, row⟩ }

def nextCSVLine (r : CSVReader) : Option (CSVReader × Bool) := do
  let r ← { r with currentRow := {} }.lineLoop (r.csvStream.length + 1) []
  some (r, decide (r.currentRow.serialized ≠ []))

/-- The rows of at most `n` steps of an iterator, up to the end, and the reader behind them. -/
def iterate : Nat → CSVReader → Option (List CSVRecord × CSVReader)
  | 0, r => some ([], r)
  | n + 1, r => do
    let (r, found) ← r.nextCSVLine
    if found = false then some ([], r)
    else (iterate n r).map fun p => (r.currentRow :: p.1, p.2)

end CSVReader

/-- All the rows of a file, with what has not been read of it when the iterator is at its end; each row takes
something. -/
def readFile (text : Bytes) : Option (List (List Bytes) × Bytes) :=
  (CSVReader.iterate (text.length + 1) { csvStream := text }).map fun p => (p.1.map CSVRecord.records, p.2.csvStream)

/-! ## Writing -/

def isSpecial (delim ch : UInt8) : Bool := ch == 34 || ch == delim || ch == 10 || ch == 13 || ch == 12

/-- Every quote is written twice. -/
def doubled (field : Bytes) : Bytes := field.flatMap fun ch => if ch = 34 then [34, ch] else [ch]

def writeCSVField (field : Bytes) (delim : UInt8) : Bytes :=
  if field.any (isSpecial delim) = true then 34 :: doubled field ++ [34] else doubled field

def writeCSVLine (row : List Bytes) (delim : UInt8) : Bytes :=
  (row.flatMap fun field => writeCSVField field delim ++ [44]).dropLast

/-- The file of these rows. -/
def fileOf (rows : List (List Bytes)) : Bytes := rows.flatMap fun row => writeCSVLine row 44 ++ [10]

end CppExperiments.Csv

import CppExperiments.Csv.Lines
import Mathlib.Data.Finset.Dedup
import Mathlib.Data.Finset.Filter
import Mathlib.Data.Finset.SDiff
import Mathlib.Data.List.AList

/-!
# Splitting a CSV file

The strategies that choose a bucket for each row, and the buffers and files through which the rows go.
-/

namespace CppExperiments.Csv

/-! ## Strategies -/

/-- A strategy with its state; a row has a bucket, and there are buckets to be pruned. -/
structure SplitStrategy where
  State : Type
  getBucket : State → CSVRecord → Option (State × Nat × List Nat)

/-- The bucket that is filled, and the rows or bytes in it. -/
structure Filling where
  currBucket : Nat := 0
  filled : Nat := 0

/-- A bucket that is full is pruned and the next is taken, before a row of the given weight goes into it. -/
def Filling.getBucket (limit weight : Nat) (s : Filling) : Filling × Nat × List Nat :=
  if limit ≤ s.filled then (⟨s.currBucket + 1, weight⟩, s.currBucket + 1, [s.currBucket])
  else (⟨s.currBucket, s.filled + weight⟩, s.currBucket, [])

def RecordCountStrategy (maxCounts : Nat) : SplitStrategy where
  State := Filling
  getBucket s _ := some (s.getBucket maxCounts 1)

def CSVRecord.memory (row : CSVRecord) : Nat := row.serialized.length + 1

/-- The product is of 64 bits. -/
def SplitSizeStrategy (maxSize : Nat) : SplitStrategy where
  State := Filling
  getBucket s row := some (s.getBucket (maxSize * 1024 * 1024 % 2 ^ 64) row.memory)

/-- `row[colIdx]` throws where there is no such column. -/
def HashColumnStrategy (hasher : Bytes → Nat) (colIdx bucketSize : Nat) : SplitStrategy where
  State := Unit
  getBucket _ row := (row.records[colIdx]?).map fun field => ((), hasher field % bucketSize, [])

structure Groups where
  field2BucketMapping : AList fun _ : Bytes => Nat := ∅
  bucketCounts : AList fun _ : Nat => Nat := ∅
  currBucket : Nat := 0

namespace Groups

/-- The count of a bucket, which is 0 at first. -/
def count (s : Groups) (bucket : Nat) : Nat := (s.bucketCounts.lookup bucket).getD 0

/-- A new field goes into a bucket. -/
def add (s : Groups) (field : Bytes) (bucket : Nat) : Groups where
  field2BucketMapping := s.field2BucketMapping.insert field bucket
  bucketCounts := s.bucketCounts.insert bucket (s.count bucket + 1)
  currBucket := bucket

def getBucket (groupSize : Nat) (s : Groups) (field : Bytes) : Groups × Nat :=
  match s.field2BucketMapping.lookup field with
  | some bucket => (s, bucket)
  | none =>
    if s.count s.currBucket < groupSize then (s.add field s.currBucket, s.currBucket)
    else (s.add field (s.currBucket + 1), s.currBucket + 1)

end Groups

def GroupColumnStrategy (colIdx groupSize : Nat) : SplitStrategy where
  State := Groups
  getBucket s row := (row.records[colIdx]?).map fun field =>
    ((s.getBucket groupSize field).1, (s.getBucket groupSize field).2, [])

/-! ## Files -/

/-- What becomes of the files: whether that of a bucket can be opened for writing while those of others are open, and
which rows still come when it has been opened and so been emptied. These are the same, unless it is the input file. -/
structure Disk where
  opens : Finset Nat → Nat → Bool
  left : Nat → List CSVRecord → List CSVRecord

/-- The handles, each open or not, the contents of the files, the buffers, and the files that have been opened, in
turn. -/
structure CSVSplit where
  CSVHeader : Bytes
  outputHandles : AList fun _ : Nat => Bool := ∅
  files : AList fun _ : Nat => Bytes := ∅
  buffers : AList fun _ : Nat => Bytes := ∅
  opened : List Nat := []

namespace CSVSplit

def buffer (s : CSVSplit) (bucket : Nat) : Bytes := (s.buffers.lookup bucket).getD []

/-- `outputHandles[bucket] << text`; nothing comes of it where no file has been opened. -/
def write (s : CSVSplit) (bucket : Nat) (text : Bytes) : CSVSplit :=
  match s.outputHandles.lookup bucket with
  | some true => { s with files := s.files.insert bucket ((s.files.lookup bucket).getD [] ++ text) }
  | some false => s
  | none => { s with outputHandles := s.outputHandles.insert bucket false }

/-- The buckets whose files are open. -/
def openBuckets (s : CSVSplit) : Finset Nat :=
  s.outputHandles.keys.toFinset.filter fun bucket => s.outputHandles.lookup bucket = some true

/-- A file is opened, and what was in it is gone; a handle without a file stays if it does not open. -/
def openFile (disk : Disk) (s : CSVSplit) (bucket : Nat) : CSVSplit :=
  if disk.opens s.openBuckets bucket then
    { s with
      outputHandles := s.outputHandles.insert bucket true
      files := s.files.insert bucket []
      opened := s.opened ++ [bucket] }
  else { s with outputHandles := s.outputHandles.insert bucket false }

def flushBuffer (s : CSVSplit) (bucket : Nat) : CSVSplit :=
  let s := { s with buffers := s.buffers.insert bucket (s.buffer bucket) }
  if 0 < (s.buffer bucket).length then
    let s := s.write bucket (s.buffer bucket)
    { s with buffers := s.buffers.insert bucket [] }
  else s

def prune (s : CSVSplit) (bucket : Nat) : CSVSplit :=
  let s := s.flushBuffer bucket
  { s with buffers := s.buffers.erase bucket, outputHandles := s.outputHandles.erase bucket }

/-- A row that is not the header. -/
def addRow (disk : Disk) (s : CSVSplit) (row : CSVRecord) (bucket : Nat) : CSVSplit :=
  let s := if s.outputHandles.lookup bucket = none then
    (s.openFile disk bucket).write bucket (s.CSVHeader ++ [10]) else s
  let s := { s with buffers := s.buffers.insert bucket (s.buffer bucket ++ row.serialized ++ [10]) }
  if 1024 * 1024 ≤ (s.buffer bucket).length then s.flushBuffer bucket else s

/-- A row, and the buckets that are pruned behind it, the last first. -/
def splitRow (disk : Disk) (s : CSVSplit) (row : CSVRecord) (bucket : Nat) (pruneBuckets : List Nat) : CSVSplit :=
  pruneBuckets.reverse.foldl prune (s.addRow disk row bucket)

/-- The loop over the rows, with at most `n` of them. -/
def splitRows (disk : Disk) (strategy : SplitStrategy) :
    Nat → CSVSplit → strategy.State → List CSVRecord → Option CSVSplit
  | _, s, _, [] => some s
  | 0, _, _, _ :: _ => none
  | n + 1, s, state, row :: rows => do
    let (state, bucket, pruneBuckets) ← strategy.getBucket state row
    let emptied := s.outputHandles.lookup bucket = none ∧ disk.opens s.openBuckets bucket = true
    splitRows disk strategy n (s.splitRow disk row bucket pruneBuckets) state
      (if emptied then disk.left bucket rows else rows)

/-- All the records of a file, of which the first is not looked at; `order` is the order in which a hash map is gone
through. -/
def splitFile (disk : Disk) (order : List Nat → List Nat) (strategy : SplitStrategy) (n : Nat) (state : strategy.State)
    (CSVHeader : Bytes) (records : List CSVRecord) : Option CSVSplit :=
  (splitRows disk strategy n { CSVHeader := CSVHeader } state records.tail).map fun s =>
    (order s.buffers.keys).foldl flushBuffer s

end CSVSplit

/-! ## The command line -/

inductive Mode where
  | rows (count : Nat)
  | size (megabytes : Nat)
  | hash (colIdx buckets : Nat)
  | group (colIdx groupSize : Nat)

namespace Mode

/-- What `main` admits, for a file of so many columns. -/
def Admits (columns : Nat) : Mode → Prop
  | rows count => count < 2 ^ 64
  | size megabytes => megabytes < 2 ^ 64
  | hash colIdx buckets => colIdx < columns ∧ 0 < buckets ∧ buckets < 2 ^ 64
  | group colIdx groupSize => colIdx < columns ∧ 0 < groupSize ∧ groupSize < 2 ^ 64

def strategy (hasher : Bytes → Nat) : Mode → SplitStrategy
  | rows count => RecordCountStrategy count
  | size megabytes => SplitSizeStrategy megabytes
  | hash colIdx buckets => HashColumnStrategy hasher colIdx buckets
  | group colIdx groupSize => GroupColumnStrategy colIdx groupSize

/-- The strategy before the first row. -/
def state (hasher : Bytes → Nat) : (mode : Mode) → (mode.strategy hasher).State
  | rows _ | size _ => ({} : Filling)
  | hash _ _ => ()
  | group _ _ => ({} : Groups)

def splitFile (disk : Disk) (hasher : Bytes → Nat) (order : List Nat → List Nat) (n : Nat) (CSVHeader : Bytes)
    (records : List CSVRecord) (mode : Mode) : Option CSVSplit :=
  CSVSplit.splitFile disk order (mode.strategy hasher) n (mode.state hasher) CSVHeader records

end Mode

end CppExperiments.Csv

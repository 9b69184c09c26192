import CppExperiments.Lib.Tiling
import CppExperiments.Torrent.Downloader

/-!
# The disk writer

The queue of pieces to write, the temporary file that the writer thread fills from it, and the split
of that file into the files of the torrent. Input and output succeed.
-/

namespace CppExperiments.Torrent

structure FileStruct where
  path : Bytes
  size : Nat
  deriving DecidableEq

structure DiskWriter where
  tasks : List (Nat × Bytes)
  tempFile : Bytes

/-- The downloader schedules a piece, or the writer thread writes the first one of the queue. -/
inductive WriterStep where
  | schedule (offset : Nat) (piece : Bytes)
  | write

namespace DiskWriter

/-- A fresh temporary file, made by putting a byte at its end. -/
def start (totalSize : Nat) : DiskWriter := ⟨[], zeros totalSize⟩

def write (file : Bytes) (task : Nat × Bytes) : Bytes := writeAt 0 file task.1 task.2

def step (MAX_QUEUE : Nat) (w : DiskWriter) : WriterStep → Option DiskWriter
  | .schedule offset piece =>
    if w.tasks.length < MAX_QUEUE then some { w with tasks := w.tasks ++ [(offset, piece)] } else none
  | .write =>
    match w.tasks with
    | [] => none
    | task :: rest => some ⟨rest, write w.tempFile task⟩

def run (MAX_QUEUE : Nat) : List WriterStep → DiskWriter → Option DiskWriter
  | [], w => some w
  | s :: steps, w => do
    let w ← step MAX_QUEUE w s
    run MAX_QUEUE steps w

/-- The writer thread stops only after it has emptied the queue. -/
def join (w : DiskWriter) : DiskWriter := ⟨[], w.tasks.foldl write w.tempFile⟩

/-- Success, what was copied behind what was there, and what is left of the source. -/
def chunkCopy (chunkSize : Nat) (source destination : Bytes) (size : Nat) : Bool × Bytes × Bytes :=
  if _hsize : size = 0 then (true, destination, source)
  else
    let toRead := if size > chunkSize then chunkSize else size
    let bytesRead := (source.take toRead).length
    if _hread : bytesRead = 0 then (false, destination, source)
    else chunkCopy chunkSize (source.drop toRead) (destination ++ source.take toRead) (size - bytesRead)
  termination_by size
  decreasing_by exact Nat.sub_lt (Nat.pos_of_ne_zero _hsize) (Nat.pos_of_ne_zero _hread)

/-- The loop of `finish`, with 5 MiB chunks: success, and the files made with their contents. -/
def splitFiles (source : Bytes) : List FileStruct → Bool × List (Bytes × Bytes)
  | [] => (true, [])
  | file :: rest =>
    match chunkCopy (5 * 1024 * 1024) source [] file.size with
    | (false, contents, _) => (false, [(file.path, contents)])
    | (true, contents, source) =>
      let (status, more) := splitFiles source rest
      (status, (file.path, contents) :: more)

def finish (w : DiskWriter) (files : List FileStruct) (status : Bool) : Bool × List (Bytes × Bytes) :=
  if status then splitFiles w.join.tempFile files else (false, [])

/-- The pieces scheduled in a run, in order. -/
def scheduled (steps : List WriterStep) : List (Nat × Bytes) :=
  steps.filterMap fun
    | .schedule offset piece => some (offset, piece)
    | .write => none

variable {w w' : DiskWriter} {MAX_QUEUE : Nat}

/-- However scheduling and writing interleave, in the end the pieces are written in the order in which they were
scheduled. -/
theorem run_join {steps : List WriterStep} (h : run MAX_QUEUE steps w = some w') :
    w'.join.tempFile = (w.tasks ++ scheduled steps).foldl write w.tempFile := by
  induction steps generalizing w with
  | nil =>
    obtain rfl : w = w' := Option.some.inj h
    simp [join, scheduled]
  | cons s steps ih =>
    cases hstep : step MAX_QUEUE w s with
    | none => simp [run, hstep] at h
    | some w₁ =>
      rw [ih (by simpa [run, hstep] using h)]
      cases s with
      | schedule offset piece =>
        obtain ⟨-, rfl⟩ := by simpa [step] using hstep
        simp [scheduled]
      | write =>
        cases htasks : w.tasks with
        | nil => simp [step, htasks] at hstep
        | cons task rest =>
          obtain rfl : ⟨rest, write w.tempFile task⟩ = w₁ := by simpa [step, htasks] using hstep
          simp [scheduled]

theorem chunkCopy_eq {chunkSize size : Nat} {source destination : Bytes} (hchunk : 0 < chunkSize)
    (h : size ≤ source.length) :
    chunkCopy chunkSize source destination size = (true, destination ++ source.take size, source.drop size) := by
  induction size using Nat.strong_induction_on generalizing source destination with
  | _ size ih =>
    rw [chunkCopy]
    by_cases hsize : size = 0
    · simp [hsize]
    · obtain ⟨toRead, htoRead, hpos, hle⟩ : ∃ n, (if size > chunkSize then chunkSize else size) = n ∧ 0 < n ∧
        n ≤ size :=
        ⟨_, rfl, by split <;> omega, by split <;> omega⟩
      have hread : (source.take toRead).length = toRead := by
        rw [List.length_take]
        omega
      simp only [htoRead, hread, dif_neg hsize, dif_neg hpos.ne']
      rw [ih (size - toRead) (by omega) (by rw [List.length_drop]; omega), List.append_assoc, List.drop_drop]
      have hsplit : source.take size = source.take toRead ++ (source.drop toRead).take (size - toRead) := by
        conv_lhs => rw [show size = toRead + (size - toRead) by omega, List.take_add]
      rw [hsplit]
      congr 3
      omega

/-- A file that is long enough is split into consecutive parts of the sizes asked for. -/
theorem splitFiles_eq {files : List FileStruct} {source : Bytes} (h : (files.map FileStruct.size).sum ≤ source.length) :
    splitFiles source files = (true, (files.map FileStruct.path).zip (cut (files.map FileStruct.size) source)) := by
  induction files generalizing source with
  | nil => rfl
  | cons file rest ih =>
    rw [List.map_cons, List.sum_cons] at h
    have hrest := @ih (source.drop file.size) (by rw [List.length_drop]; omega)
    rw [splitFiles, chunkCopy_eq (by decide) (by omega)]
    simp [hrest, cut]

end DiskWriter

end CppExperiments.Torrent

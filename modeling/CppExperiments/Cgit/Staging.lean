import CppExperiments.Cgit.WriteTree

/-!
# Adding and removing

The index file of a work tree, with the objects and the files beside it, as paths are added to the index and removed
from it.
-/

namespace CppExperiments.Cgit

/-! ## Files -/

/-- What is in a file, whether it can be opened, and what `stat` tells of it. -/
structure File where
  contents : Bytes
  readable : Bool
  ctime : GitTimeStamp
  mtime : GitTimeStamp
  dev : UInt32
  inode : UInt32
  uid : UInt32
  gid : UInt32
  fsize : UInt32

/-- What a stream on the file reads: nothing if it cannot be opened. -/
def File.read (file : File) : Bytes := if file.readable then file.contents else []

/-- The files of the system: what a path leads to, and `fs::remove`, with `none` where that throws. -/
structure FileSystem (σ : Type) where
  find : σ → Bytes → Option File
  remove : σ → Bytes → Option σ

/-- The absolute path by which a file was given, and its path in the work tree. -/
structure PathPair where
  absPath : Bytes
  relPath : Bytes
  relative : Relative relPath

structure Repository (σ : Type) where
  indexFile : Option Bytes
  store : Store
  files : σ

/-- How a command ends: with an index, because a path is not in the index, or by any other throw. -/
inductive Outcome where
  | done (index : GitIndex)
  | missing
  | failed

namespace Repository

variable {σ : Type} (fs : FileSystem σ) (workTree : Bytes)

/-! ## Removing -/

/-- The set of absolute paths. -/
def absPaths (paths : List PathPair) : List Bytes :=
  paths.foldl (fun absPaths p => if absPaths.any (Path.same p.absPath) then absPaths else p.absPath :: absPaths) []

/-- The entries that are kept, the paths of the others, and the absolute paths that no entry has. -/
structure Sweep where
  entries : List GitIndexEntry
  toDelete : List Bytes
  absPaths : List Bytes

/-- The loop of `rm` over the entries. -/
def sweep : List GitIndexEntry → List Bytes → Sweep
  | [], absPaths => ⟨[], [], absPaths⟩
  | entry :: entries, absPaths =>
    let fullPath := Path.append workTree entry.name
    if absPaths.any (Path.same fullPath) then
      let r := sweep entries (absPaths.filter fun path => !Path.same fullPath path)
      { r with toDelete := fullPath :: r.toDelete }
    else
      let r := sweep entries absPaths
      { r with entries := entry :: r.entries }

/-- The files after all paths are removed, or those that there are when one cannot be removed. -/
def removeAll : σ → List Bytes → σ × Bool
  | files, [] => (files, true)
  | files, path :: paths =>
    match fs.remove files path with
    | none => (files, false)
    | some files => removeAll files paths

def rm (repo : Repository σ) (paths : List PathPair) (delete_ skipMissing : Bool) : Repository σ × Outcome :=
  match GitIndex.readFromFile repo.indexFile with
  | none => (repo, .failed)
  | some index =>
    let r := sweep workTree index.entries (absPaths paths)
    if r.absPaths ≠ [] ∧ skipMissing = false then (repo, .missing)
    else
      let (files, removed) := if delete_ then removeAll fs repo.files r.toDelete else (repo.files, true)
      let index := { index with entries := r.entries }
      match removed, index.writeToFile with
      | true, some raw => ({ repo with indexFile := some raw, files := files }, .done index)
      | _, _ => ({ repo with files := files }, .failed)

/-! ## Adding -/

/-- The name of a blob. -/
def blobSha (contents : Bytes) : Bytes := Hash.sha1 (withHeader (ascii "blob") contents) false

def newEntry (file : File) (sha name : Bytes) : GitIndexEntry where
  ctime := file.ctime
  mtime := file.mtime
  dev := file.dev
  inode := file.inode
  modeType := 8
  modePerms := 0o644
  uid := file.uid
  gid := file.gid
  fsize := file.fsize
  sha := sha
  flagStage := 0
  assumeValid := false
  name := name

/-- The loop of `add` over the paths: a blob is written of what is read of the file, and `none` where `stat` fails.
-/
def stage (files : σ) : List PathPair → Store → List GitIndexEntry → Store × Option (List GitIndexEntry)
  | [], store, entries => (store, some entries)
  | p :: paths, store, entries =>
    let file := fs.find files p.absPath
    let (sha, store) := writeObject (ascii "blob") ((file.map File.read).getD []) store
    match file with
    | none => (store, none)
    | some file => stage files paths store (entries ++ [newEntry file sha p.relPath])

def add (repo : Repository σ) (paths : List PathPair) : Repository σ × Outcome :=
  match rm fs workTree repo paths false true with
  | (repo, .done index) =>
    let (store, staged) := stage fs repo.files paths repo.store index.entries
    match staged with
    | none => ({ repo with store := store }, .failed)
    | some entries =>
      let index := { index with entries := entries }
      match index.writeToFile with
      | none => ({ repo with store := store }, .failed)
      | some raw => ({ repo with store := store, indexFile := some raw }, .done index)
  | r => r

/-! ## Runs -/

inductive Command (σ : Type) where
  | add (paths : List PathPair)
  | rm (paths : List PathPair) (delete_ skipMissing : Bool)
  | edit (files : σ)

def step (repo : Repository σ) : Command σ → Repository σ
  | .add paths => (add fs workTree repo paths).1
  | .rm paths delete_ skipMissing => (rm fs workTree repo paths delete_ skipMissing).1
  | .edit files => { repo with files := files }

/-- What every name was added with last, if it was not removed since. -/
abbrev Tracked := Bytes → Option Bytes

def track (repo : Repository σ) (tracked : Tracked) : Command σ → Tracked
  | .add paths => fun name =>
    match paths.find? fun p => p.relPath = name with
    | some p => (fs.find repo.files p.absPath).map File.contents
    | none => tracked name
  | .rm paths delete_ skipMissing =>
    match (rm fs workTree repo paths delete_ skipMissing).2 with
    | .done _ => fun name =>
      if ∃ p ∈ paths, Path.same p.absPath (Path.append workTree name) then none else tracked name
    | _ => tracked
  | .edit _ => tracked

/-- The index file has one entry for each name that is tracked, with the name of the blob of its contents, and no
other. -/
def Follows (repo : Repository σ) (tracked : Tracked) : Prop :=
  ∃ index, GitIndex.readFromFile repo.indexFile = some index ∧ (index.entries.map GitIndexEntry.name).Nodup ∧
    ∀ name sha, (∃ e ∈ index.entries, e.name = name ∧ e.sha = sha) ↔ ∃ contents ∈ tracked name, sha = blobSha contents

/-- What an addition needs: no name twice, every file there and readable, names and numbers of entries that the index
file can hold, and for the entries that are there already the absolute paths that belong to their names. -/
structure Addable (repo : Repository σ) (paths : List PathPair) : Prop where
  distinct : (paths.map PathPair.relPath).Nodup
  found : ∀ p ∈ paths, (fs.find repo.files p.absPath).isSome
  readable : ∀ p ∈ paths, ∀ file ∈ fs.find repo.files p.absPath, file.readable = true
  short : ∀ p ∈ paths, p.relPath.length < rawNameSize
  placed : ∀ index, GitIndex.readFromFile repo.indexFile = some index → ∀ e ∈ index.entries, ∀ p ∈ paths,
    p.relPath = e.name ↔ Path.same p.absPath (Path.append workTree e.name)
  count : ∀ index, GitIndex.readFromFile repo.indexFile = some index → index.entries.length + paths.length < 2 ^ 32

def Allowed (repo : Repository σ) : Command σ → Prop
  | .add paths => Addable fs workTree repo paths
  | _ => True

/-- The repository and what is tracked after a run. -/
def run : Repository σ → Tracked → List (Command σ) → Repository σ × Tracked
  | repo, tracked, [] => (repo, tracked)
  | repo, tracked, c :: commands => run (step fs workTree repo c) (track fs workTree repo tracked c) commands

/-- All commands of a run are allowed. -/
def AllAllowed : Repository σ → List (Command σ) → Prop
  | _, [] => True
  | repo, c :: commands => Allowed fs workTree repo c ∧ AllAllowed (step fs workTree repo c) commands

end Repository

end CppExperiments.Cgit

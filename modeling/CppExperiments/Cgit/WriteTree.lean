import CppExperiments.Cgit.Index
import CppExperiments.Cgit.Tree

/-!
# The index as trees

The directories of an index, built by going up from every entry to the first directory that is there already, and the
trees that are written of them from below.
-/

namespace CppExperiments.Cgit

/-! ## Modes -/

/-- `std::format` in base 8, with zeros in front. -/
def octal (width n : Nat) : Bytes :=
  let digits := (Nat.toDigits 8 n).map fun ch => UInt8.ofNat ch.toNat
  List.replicate (width - digits.length) 48 ++ digits

namespace GitIndexEntry

def modeStr (entry : GitIndexEntry) : Bytes := octal 2 entry.modeType.toNat ++ octal 4 entry.modePerms.toNat

/-- What a tree holds of the entry, under its full path. -/
def leaf (entry : GitIndexEntry) : GitLeaf := ⟨entry.modeStr, entry.name, entry.sha⟩

end GitIndexEntry

/-! ## The directories -/

/-- The directories, each with its children. Neither has two that are the same path. -/
abbrev Directories := List (Bytes × List Bytes)

namespace Directories

def find (dirs : Directories) (path : Bytes) : Option (List Bytes) :=
  (dirs.find? fun dir => Path.same dir.1 path).map Prod.snd

/-- `directoryTree[parent].emplace(curr)` -/
def emplace (parent curr : Bytes) : Directories → Directories
  | [] => [(parent, [curr])]
  | (path, children) :: dirs =>
    if Path.same path parent then
      (path, if children.any (Path.same · curr) then children else children ++ [curr]) :: dirs
    else (path, children) :: emplace parent curr dirs

/-- Up the parents until one is there already. -/
def climb (dirs : Directories) (curr : Bytes) : Directories :=
  if _h : curr ≠ [] ∧ ¬ Path.same curr (Path.parentPath curr) then
    let parent := Path.parentPath curr
    let parentAlreadyExists := (dirs.find parent).isSome
    let dirs := dirs.emplace parent curr
    if parentAlreadyExists then dirs else climb dirs parent
  else dirs
termination_by curr.length
decreasing_by
  apply Path.length_parentPath_lt
  intro heq
  rw [heq] at _h
  exact _h.2 (Path.same_refl curr)

end Directories

def directoryTree (entries : List GitIndexEntry) : Directories :=
  entries.foldl (fun dirs entry => dirs.climb entry.name) []

/-! ## The trees -/

/-- An order in which the children of every directory are iterated. -/
structure IterationOrder where
  iterate : Bytes → List Bytes → List Bytes
  perm : ∀ path children, (iterate path children).Perm children

/-- The leaf of a path, and the store with the trees below it, which are at most `n` deep; `none` where the code
throws. -/
def backtrack (order : IterationOrder) (entries : List GitIndexEntry) (dirs : Directories) :
    Nat → Store → Bytes → Option (GitLeaf × Store)
  | 0, _, _ => none
  | n + 1, store, curr =>
    match dirs.find curr with
    | none => do
      let entry ← entries.find? fun entry => entry.name = curr
      return (⟨entry.modeStr, Path.filename curr, entry.sha⟩, store)
    | some children => do
      let (leaves, store) ← (order.iterate curr children).foldlM (fun (leaves, store) child => do
        let (leaf, store) ← backtrack order entries dirs n store child
        return (leaves ++ [leaf], store)) ([], store)
      let data ← GitTree.serialize leaves
      let (sha, store) := writeObject (ascii "tree") data store
      return (⟨ascii "040000", Path.filename curr, sha⟩, store)

/-- The name of the tree of the index, and the store with all trees that are written for it. -/
def writeIndexAsTree (order : IterationOrder) (n : Nat) (store : Store) (file : Option Bytes) :
    Option (Bytes × Store) := do
  let index ← GitIndex.readFromFile file
  let (leaf, store) ← backtrack order index.entries (directoryTree index.entries) n store []
  return (leaf.sha, store)

/-! ## The index of a work tree -/

/-- A path of names that are joined by single slashes, without zero bytes. -/
def Relative (path : Bytes) : Prop := (0 : UInt8) ∉ path ∧ ∃ cs, cs ≠ [] ∧ Path.Names cs ∧ path = Path.joined cs

/-- An index file whose entries are different files, none of them where another one has a directory. -/
structure StagedIndex where
  file : Option Bytes
  index : GitIndex
  read : GitIndex.readFromFile file = some index
  nonempty : index.entries ≠ []
  relative : ∀ e ∈ index.entries, Relative e.name
  nodup : (index.entries.map GitIndexEntry.name).Nodup
  apart : ∀ e ∈ index.entries, ∀ e' ∈ index.entries, ¬ e.name ++ [47] <+: e'.name

/-- The tree of the index is written, and flattened it is the entries of the index, each once. -/
def StagedIndex.Flattened (i : StagedIndex) (order : IterationOrder) (store : Store) : Prop :=
  ∃ n sha store', (∀ m ≥ n, writeIndexAsTree order m store i.file = some (sha, store')) ∧
    (store'.CollisionFree → ∃ leaves, (∀ m ≥ n, flatten store' m sha = some leaves) ∧
      leaves.Perm (i.index.entries.map GitIndexEntry.leaf))

end CppExperiments.Cgit

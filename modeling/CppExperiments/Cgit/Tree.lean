import CppExperiments.Cgit.Commit
import CppExperiments.Cgit.Utils
import CppExperiments.Hash.Sha1
import CppExperiments.Lib.RelativePath

/-!
# Trees

Tree objects as they are written and read, the store in which an object has its hash for a name, and the paths of a
tree with all its subtrees.
-/

namespace CppExperiments.Cgit

structure GitLeaf where
  mode : Bytes
  path : Bytes
  sha : Bytes

namespace GitLeaf

/-- `none` where `sha2Binary` throws. -/
def serialize (leaf : GitLeaf) : Option Bytes := do
  let shaBin ← sha2Binary leaf.sha
  return leaf.mode ++ 32 :: leaf.path ++ 0 :: shaBin

/-- A path as it is compared. -/
def modPath (leaf : GitLeaf) : Bytes := if ascii "10" <+: leaf.mode then leaf.path else leaf.path ++ [47]

/-- `pathCompare` with a negative result. -/
def less (l1 l2 : GitLeaf) : Bool := decide (l1.modPath < l2.modPath)

end GitLeaf

namespace GitTree

inductive State where
  | START
  | MODE_DONE
  | PATH_DONE
  deriving DecidableEq

/-- The rest of a tree with the state and what was collected of the leaf; `none` where the code throws. -/
def parse (state : State) (acc mode path : Bytes) (data : List GitLeaf) : Bytes → Option (List GitLeaf)
  | [] => some data
  | ch :: raw =>
    if (state = .START ∧ ch ≠ 32) ∨ (state = .MODE_DONE ∧ ch ≠ 0) then parse state (acc ++ [ch]) mode path data raw
    else
      match state with
      | .START => parse .MODE_DONE [] (if acc.length = 5 then 48 :: acc else acc) path data raw
      | .MODE_DONE => parse .PATH_DONE [] mode acc data raw
      | .PATH_DONE =>
        if raw.length < 19 then none
        else parse .START [] [] [] (data ++ [⟨mode, path, binary2Sha (ch :: raw.take 19)⟩]) (raw.drop 19)
termination_by raw => raw.length
decreasing_by
  all_goals
    simp only [List.length_cons, List.length_drop]
    omega

def deserialize (raw : Bytes) : Option (List GitLeaf) := parse .START [] [] [] [] raw

/-- The leaves in the order of their paths. -/
def sorted (data : List GitLeaf) : List GitLeaf := data.mergeSort fun l1 l2 => !l2.less l1

def serialize (data : List GitLeaf) : Option Bytes := do
  let leaves ← (sorted data).mapM GitLeaf.serialize
  return leaves.flatten

end GitTree

/-! ## Objects -/

/-- The names and the texts of the objects, the last one written in front. -/
abbrev Store := List (Bytes × Bytes)

/-- Objects of one name are the same. -/
def Store.CollisionFree (store : Store) : Prop := ∀ o ∈ store, ∀ o' ∈ store, o.1 = o'.1 → o = o'

/-- An object with its header. The size is of 64 bits. -/
def withHeader (fmt data : Bytes) : Bytes := fmt ++ 32 :: decimal (data.length % 2 ^ 64) ++ 0 :: data

/-- The object is written and gets its name. -/
def writeObject (fmt data : Bytes) (store : Store) : Bytes × Store :=
  let serialized := withHeader fmt data
  let objectHash := Hash.sha1 serialized false
  (objectHash, (objectHash, serialized) :: store)

/-- The format and the data of an object; `none` where the code throws. -/
def readObject (raw : Bytes) : Option (Bytes × Bytes) :=
  let fmt := raw.takeWhile (· ≠ 32)
  match raw.drop fmt.length with
  | [] => none
  | _ :: rest => do
    let digits := rest.takeWhile (· ≠ 0)
    let size ← stoull digits
    match rest.drop digits.length with
    | [] => if size = raw.length % 2 ^ 64 then some (fmt, raw) else none
    | _ :: data => if size = data.length % 2 ^ 64 then some (fmt, data) else none

/-- `findObject` for a tree by its full name: tags and commits are followed, at most `n` of them. -/
def findTree (store : Store) : Nat → Bytes → Option Bytes
  | 0, _ => none
  | n + 1, sha => do
    let raw ← store.lookup sha
    if raw.takeWhile (· ≠ 32) = ascii "tree" then some sha
    else
      let (fmt, data) ← readObject raw
      let commit ← GitCommit.deserialize 0 sha data fmt
      let key ← if fmt = ascii "tag" then some (ascii "object")
        else if fmt = ascii "commit" then some (ascii "tree") else none
      let values ← commit.data.lookup key
      let sha ← values.head?
      findTree store n sha

/-- The leaves of a tree object. -/
def readTree (store : Store) (sha : Bytes) : Option (List GitLeaf) := do
  let raw ← store.lookup sha
  let (fmt, data) ← readObject raw
  if fmt = ascii "tree" then GitTree.deserialize data else none

/-! ## All paths of a tree -/

/-- The trees that are still to be read with their paths, and the leaves that were found under their full paths. -/
structure Walk where
  stk : List (Bytes × Bytes)
  head : List GitLeaf

/-- The mode of a directory. -/
def IsTree (mode : Bytes) : Prop := ascii "04" <+: mode

instance (mode : Bytes) : Decidable (IsTree mode) := inferInstanceAs (Decidable (_ <+: _))

namespace Walk

def visit (pre : Bytes) (w : Walk) (leaf : GitLeaf) : Walk :=
  let fullPath := Path.append pre leaf.path
  if IsTree leaf.mode then { w with stk := (leaf.sha, fullPath) :: w.stk }
  else { w with head := w.head ++ [{ leaf with path := fullPath }] }

/-- The loop of `getStatus` over the stack, with at most `n` trees; `none` where it throws. -/
def run (store : Store) : Nat → Walk → Option (List GitLeaf)
  | _, ⟨[], head⟩ => some head
  | 0, _ => none
  | n + 1, ⟨(ref, pre) :: stk, head⟩ => do
    let sha ← findTree store (n + 1) ref
    let tree ← readTree store sha
    run store n (tree.foldl (visit pre) ⟨stk, head⟩)

end Walk

/-- All leaves below a tree. -/
def flatten (store : Store) (n : Nat) (sha : Bytes) : Option (List GitLeaf) := Walk.run store n ⟨[(sha, [])], []⟩

end CppExperiments.Cgit

import CppExperiments.Cgit.Tree

/-!
# The directory of a repository

Loose objects and packs, loose and packed refs, and how a name becomes the name of an object.
-/

namespace CppExperiments.Cgit

/-- Why a call does not return: it throws, or its loops take more rounds than it was given. -/
inductive Stop where
  | threw
  | running
  deriving DecidableEq

abbrev Call := Except Stop

/-- With rounds enough a call ends like this. -/
def Ends {α : Type} (call : Nat → Call α) (r : Call α) : Prop := ∃ k, ∀ n ≥ k, call n = r

/-- `none` is where the code throws. -/
def orThrow {α : Type} : Option α → Call α
  | some a => .ok a
  | none => .error .threw

/-! ## Packs -/

/-- A pack and its index: the names in their order, what the bytes behind them are if they are read as one more name,
and what is extracted for the number of a name. -/
structure Pack where
  shas : List Bytes
  behind : Bytes
  object : Nat → Option Bytes
  names : ∀ sha ∈ shas, IsSha sha
  sorted : shas.Pairwise (· < ·)

namespace Pack

def shaAt (pack : Pack) (i : Nat) : Bytes := pack.shas.getD i pack.behind

/-- The first byte of a name. -/
def firstByte (sha : Bytes) : Nat := ((stoi16 (sha.take 2)).getD 0).toNat

/-- How many names have a first byte that is not greater. -/
def fanout (pack : Pack) (hexInt : Nat) : Nat := pack.shas.countP fun sha => firstByte sha ≤ hexInt

end Pack

/-- The index file of a pack: the names, and the twenty bytes from every offset on, in digits. -/
structure PackIndex where
  pack : Pack
  bytesAt : Nat → Bytes
  table : ∀ i ≤ pack.shas.length, bytesAt (1032 + i * 20) = pack.shaAt i

namespace PackIndex

/-- Offsets are computed in 32 bits. -/
def offset (i : Nat) : Nat := (8 + 256 * 4 + i * 20) % 2 ^ 32

/-- The binary search, in which both bounds are looked at, with the offsets it reads at. -/
def getPackIdxOffsetStart (index : PackIndex) (part : Bytes) (start stop : Nat) : Nat × List Nat :=
  if _h : start ≤ stop then
    let mid := start + (stop - start) / 2
    if ¬ (index.bytesAt (offset mid)).take part.length < part then
      if _h' : start = mid then (start, [offset mid])
      else
        let found := index.getPackIdxOffsetStart part start (mid - 1)
        (found.1, offset mid :: found.2)
    else
      let found := index.getPackIdxOffsetStart part (mid + 1) stop
      (found.1, offset mid :: found.2)
  else (start, [])
termination_by stop + 1 - start

/-- Names that begin with `part`, up to the first that does not, and `curr` included; with the offsets that are read at,
from `pos` on. -/
def matchesFrom (index : PackIndex) (part : Bytes) (curr startOffset pos : Nat) : List (Bytes × Nat) × List Nat :=
  if _h : startOffset ≤ curr then
    if part <+: index.bytesAt pos then
      let found := index.matchesFrom part curr (startOffset + 1) (pos + 20)
      ((index.bytesAt pos, startOffset) :: found.1, pos :: found.2)
    else ([], [pos])
  else ([], [])
termination_by curr + 1 - startOffset

/-- Names with their numbers, and the offsets that were read at; `none` where the code throws. -/
def getHashMatchFromIndex (index : PackIndex) (part : Bytes) : Option (List (Bytes × Nat) × List Nat) :=
  if part.length < 2 then none
  else do
    let hexInt ← stoi16 (part.take 2)
    let curr := index.pack.fanout hexInt.toNat
    let prev := if 0 < hexInt then index.pack.fanout (hexInt.toNat - 1) else 0
    if prev < curr then
      let (startOffset, searched) := index.getPackIdxOffsetStart part prev curr
      let (found, walked) := index.matchesFrom part curr startOffset (offset startOffset)
      return (found, searched ++ walked)
    else return ([], [])

end PackIndex

/-! ## The directory -/

/-- The loose objects, the packs, what is in the regular file at a path and how `fs::relative` writes the path, and the
packed refs. -/
structure GitDir where
  objects : Store
  packs : List PackIndex
  files : Bytes → Option Bytes
  relative : Bytes → Bytes
  packedRefs : Bytes → Option Bytes

namespace GitDir

def getPackedRef (dir : GitDir) (key : Bytes) : Bytes := (dir.packedRefs key).getD []

/-- Refs to refs are followed, at most `n` of them. An empty file has no character to be removed. -/
def refResolve (dir : GitDir) : Nat → Bytes → Call Bytes
  | 0, _ => .error .running
  | n + 1, path =>
    match dir.files path with
    | none => .ok (dir.getPackedRef (dir.relative path))
    | some text =>
      if text = [] then .error .threw
      else
        let currRef := text.dropLast
        if ascii "ref: " <+: currRef then dir.refResolve n (currRef.drop 5) else .ok currRef

/-! ## Objects -/

/-- The entries of all packs that match. -/
def packMatches (dir : GitDir) (part : Bytes) : Option (List (Pack × Bytes × Nat)) :=
  (dir.packs.mapM fun index : PackIndex => (index.getHashMatchFromIndex part).map fun found =>
    found.1.map (Prod.mk index.pack)).map List.flatten

/-- `GitPack::refResolve` -/
def packRefResolve (dir : GitDir) (part : Bytes) : Option (List Bytes) :=
  (dir.packMatches part).map fun found => found.map fun m => m.2.1

/-- `GitPack::extract`, which throws unless there is one match. -/
def extract (dir : GitDir) (objectHash : Bytes) : Option Bytes := do
  match ← dir.packMatches objectHash with
  | [(pack, _, offset)] => pack.object offset
  | _ => none

/-- The text of an object, with its header. -/
def readRaw (dir : GitDir) (objectHash : Bytes) : Option Bytes :=
  match dir.objects.lookup objectHash with
  | some raw => some raw
  | none => do
    let found ← dir.packRefResolve objectHash
    if found = [] then none else dir.extract objectHash

def readObjectType (dir : GitDir) (objectHash : Bytes) : Option Bytes :=
  (dir.readRaw objectHash).map fun raw => raw.takeWhile (· ≠ 32)

/-- `readObject` cast to one of the formats; a tag can also be cast to a commit. The clock is at `now`. -/
def readAs (dir : GitDir) (now : Int) (fmts : List Bytes) (objectHash : Bytes) : Option GitCommit := do
  let raw ← dir.readRaw objectHash
  let (fmt, data) ← readObject raw
  if fmt ∈ fmts then GitCommit.deserialize now objectHash data fmt else none

def readTag (dir : GitDir) (now : Int) : Bytes → Option GitCommit := dir.readAs now [ascii "tag"]

def readCommit (dir : GitDir) (now : Int) : Bytes → Option GitCommit := dir.readAs now [ascii "commit", ascii "tag"]

/-- `get(key)`, with nothing if there is no such key. -/
def headers (c : GitCommit) (key : Bytes) : List Bytes := (c.data.lookup key).getD []

/-! ## Names -/

/-- From 4 to 40 hexadecimal digits. -/
def IsHash (name : Bytes) : Prop := 4 ≤ name.length ∧ name.length ≤ 40 ∧ name.all fun b => isHexDigit b

instance (name : Bytes) : Decidable (IsHash name) := by
  unfold IsHash
  infer_instance

/-- The files of loose objects whose names begin with `part`. -/
def looseMatches (dir : GitDir) (part : Bytes) : List Bytes :=
  (dir.objects.map Prod.fst).dedup.filter fun sha => part <+: sha

def candidates (dir : GitDir) (n : Nat) (name : Bytes) : Call (List Bytes) :=
  if name = ascii "HEAD" then do
    let head ← dir.refResolve n (ascii "HEAD")
    return [head]
  else do
    let packed ← if IsHash name then orThrow (dir.packRefResolve (lower name)) else .ok []
    let asTag ← dir.refResolve n (ascii "refs/tags/" ++ name)
    let asBranch ← dir.refResolve n (ascii "refs/heads/" ++ name)
    return (if IsHash name then dir.looseMatches (lower name) ++ packed else []) ++ (if asTag ≠
      [] then [asTag] else []) ++
      if asBranch ≠ [] then [asBranch] else []

/-- The loop that follows an object to one of the format, at most `n` objects. -/
def peel (dir : GitDir) (now : Int) (fmt : Bytes) (follow : Bool) : Nat → Bytes → Call Bytes
  | 0, _ => .error .running
  | n + 1, sha => do
    let objFmt ← orThrow (dir.readObjectType sha)
    if objFmt = fmt then .ok sha
    else if follow = false then .ok []
    else if objFmt = ascii "tag" then do
      let tag ← orThrow (dir.readTag now sha)
      let next ← orThrow (headers tag (ascii "object")).head?
      dir.peel now fmt follow n next
    else if objFmt = ascii "commit" ∨ fmt = ascii "tree" then do
      let commit ← orThrow (dir.readCommit now sha)
      let next ← orThrow (headers commit (ascii "tree")).head?
      dir.peel now fmt follow n next
    else .ok []

def findObject (dir : GitDir) (now : Int) (n : Nat) (name fmt : Bytes) (follow : Bool) : Call Bytes := do
  match ← dir.candidates n name with
  | [sha] => if fmt = [] then .ok sha else dir.peel now fmt follow n sha
  | _ => .error .threw

end GitDir

end CppExperiments.Cgit

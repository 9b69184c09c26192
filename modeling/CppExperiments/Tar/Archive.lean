import CppExperiments.Lib.Path
import CppExperiments.Tar.Header
import Mathlib.Data.List.Sort

/-!
# Tar archives

Files, directories and symbolic links that are added to an archive, and the members that are read of one.
-/

namespace CppExperiments.Tar

/-! ## Files -/

/-- A text of the system: no zero byte is in it. -/
abbrev CText := { s : Bytes // 0 ∉ s }

abbrev FileName := { c : Bytes // Path.Name c ∧ 0 ∉ c }

/-- What the system holds of a file besides its kind: seconds since 1970, and the names of its user and its group. -/
structure Attributes where
  mode : Nat
  uid : Nat
  gid : Nat
  mtime : Int
  uname : CText
  gname : CText

/-- A directory has its files in the order in which they are iterated over. -/
inductive Tree where
  | regular (attributes : Attributes) (content : Bytes)
  | symlink (attributes : Attributes) (target : CText)
  | directory (attributes : Attributes) (files : List (FileName × Tree))

namespace Tree

def attributes : Tree → Attributes
  | regular a _ => a
  | symlink a _ => a
  | directory a _ => a

def content : Tree → Bytes
  | regular _ content => content
  | _ => []

def target : Tree → Bytes
  | symlink _ target => target.1
  | _ => []

def ftype : Tree → FileType
  | regular _ _ => .NORMAL
  | symlink _ _ => .SYMLINK
  | directory _ _ => .DIRECTORY

end Tree

structure FileStat where
  mode : Nat
  uid : Nat
  gid : Nat
  size : Nat
  mtime : Int
  ftype : FileType
  linkName : Bytes
  uname : Bytes
  gname : Bytes

/-- `none` where the time in nanoseconds overflows. -/
def stat (tree : Tree) : Option FileStat :=
  let st := tree.attributes
  if st.mtime * 10 ^ 9 < -2 ^ 63 ∨ 2 ^ 63 ≤ st.mtime * 10 ^ 9 then none
  else some {
    mode := st.mode &&& 0o777
    uid := st.uid
    gid := st.gid
    size := tree.content.length
    mtime := st.mtime * 10 ^ 9
    ftype := tree.ftype
    linkName := tree.target
    uname := st.uname.1
    gname := st.gname.1 }

def TarInfo.readFile (fpath : Bytes) (tree : Tree) : Option TarInfo := do
  let (fpathLeft, fpathRight) ← splitPathUSTAR fpath
  let st ← stat tree
  some {
    fname := fpathRight
    mode := st.mode
    uid := st.uid
    gid := st.gid
    blockOffset := 0
    size := st.size
    mtime := st.mtime
    ftype := st.ftype
    linkName := st.linkName
    ustar := true
    uname := st.uname
    gname := st.gname
    fprefix := fpathLeft }

/-- `size` bytes of the source, a chunk at a time; `none` where it throws. -/
def chunkCopy (source : Bytes) (size chunkSize : Nat) : Option Bytes :=
  if _ : size = 0 then some []
  else
    let toRead := if chunkSize < size then chunkSize else size
    let buffer := source.take toRead
    if _ : buffer = [] then none
    else (chunkCopy (source.drop toRead) (size - buffer.length) chunkSize).map (buffer ++ ·)
  termination_by size
  decreasing_by exact Nat.sub_lt (Nat.pos_of_ne_zero ‹¬ size = 0›) (List.length_pos_of_ne_nil ‹_›)

/-! ## Writing -/

/-- The last character of an empty name is not defined. -/
def closeName (header : TarInfo) : Option TarInfo :=
  if header.ftype = .DIRECTORY then
    match header.fname.getLast? with
    | none => none
    | some ch => some (if ch ≠ 47 then { header with fname := header.fname ++ [47] } else header)
  else some header

/-- The entry of one path, with the content of a file. -/
def addEntry (file sourcePath arcname : Bytes) (tree : Tree) : Option Bytes := do
  let (aleft, aright) ← splitPathUSTAR arcname
  let header ← TarInfo.readFile sourcePath tree
  let header := { header with blockOffset := file.length + 512 }
  let header := if arcname ≠ [] then { header with fprefix := aleft, fname := aright } else header
  let header ← closeName header
  let headerStr ← header.writeHeader
  let file := file ++ headerStr.take 512
  if header.ftype = .NORMAL then do
    let copied ← chunkCopy tree.content header.size (1024 * 1024 * 5)
    let padBytes := if header.size % 512 ≠ 0 then 512 - header.size % 512 else 0
    some (file ++ copied ++ List.replicate padBytes 0)
  else some file

/-- The paths of a directory's files differ in the last component. -/
def sortFiles (files : List (FileName × Tree)) :
    List (FileName × Tree) := files.insertionSort fun f f' => f.1.1 ≤ f'.1.1

lemma mem_sortFiles {files : List (FileName × Tree)} {f : FileName × Tree} : f ∈ sortFiles files ↔ f ∈ files :=
  List.mem_insertionSort _

lemma sizeOf_lt_directory {a : Attributes} {files : List (FileName × Tree)} {f : FileName × Tree}
    (h : f ∈ sortFiles files) :
    sizeOf f.2 < sizeOf (Tree.directory a files) := by
  have hfiles := List.sizeOf_lt_of_mem (mem_sortFiles.1 h)
  obtain ⟨name, next⟩ := f
  rw [Prod.mk.sizeOf_spec] at hfiles
  rw [Tree.directory.sizeOf_spec]
  dsimp only
  omega

/-- Where the files of a directory are in the archive, if the directory has a name there. -/
def nextArcPath (arcname : Bytes) (name : FileName) : Bytes := if arcname = [] then [] else Path.append arcname name.1

/-- There is a file at every path that is added; `none` where it throws. -/
def add (file sourcePath arcname : Bytes) : Tree → Option Bytes
  | .directory a files => do
    let file ← addEntry file sourcePath arcname (.directory a files)
    (sortFiles files).attach.foldlM (fun file next =>
      add file (Path.append sourcePath next.1.1.1) (nextArcPath arcname next.1.1) next.1.2) file
  | tree => addEntry file sourcePath arcname tree
  termination_by tree => sizeOf tree
  decreasing_by exact sizeOf_lt_directory next.2

/-- A call of `add`. -/
structure Added where
  sourcePath : CText
  nonempty : sourcePath.1 ≠ []
  arcname : Bytes
  tree : Tree

/-- The file after these calls and the destructor. -/
def finished (adds : List Added) : Option Bytes := do
  let file ← adds.foldlM (fun file call => add file call.sourcePath.1 call.arcname call.tree) []
  some (file ++ List.replicate 1024 0)

/-! ## Reading -/

def isZeroBlock (block : Bytes) : Bool := block.all (· == 0)

/-- The members from a position on; `uninitialised` is what stands in the memory of each. -/
def getMembersFrom (uninitialised : Nat → Bool) (file : Bytes) (pos : Nat) : Option (List TarInfo) :=
  if file.length < pos + 512 then none
  else if isZeroBlock (field file pos 512) = true then
    if file.length < pos + 1024 ∨ isZeroBlock (field file (pos + 512) 512) = false then none else some []
  else do
    let offset := pos + 512
    let member ← TarInfo.readHeader (uninitialised offset) (field file pos 512) offset
    let fSize := if member.size % 512 ≠ 0 then member.size + (512 - member.size % 512) else member.size
    let members ← getMembersFrom uninitialised file (offset + fSize)
    some (member :: members)
  termination_by file.length - pos

/-- `none` where it throws. -/
def getMembers (uninitialised : Nat → Bool) (file : Bytes) :
    Option (List TarInfo) := getMembersFrom uninitialised file 0

end CppExperiments.Tar

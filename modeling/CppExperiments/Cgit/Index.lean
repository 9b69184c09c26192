import CppExperiments.Cgit.Utils
import CppExperiments.Lib.Input

/-!
# The index

The index file as it is written, with every entry padded to a multiple of eight bytes, and as it is read.
-/

namespace CppExperiments.Cgit

open Reading

structure GitTimeStamp where
  seconds : UInt32
  nanoseconds : UInt32

structure GitIndexEntry where
  ctime : GitTimeStamp
  mtime : GitTimeStamp
  dev : UInt32
  inode : UInt32
  modeType : UInt16
  modePerms : UInt16
  uid : UInt32
  gid : UInt32
  fsize : UInt32
  sha : Bytes
  flagStage : UInt16
  assumeValid : Bool
  name : Bytes

structure GitIndex where
  version : UInt32 := 2
  entries : List GitIndexEntry := []

/-! ## Writing -/

/-- `writeBigEndian` of an `unsigned int`. -/
def writeUInt (val : UInt32) : Bytes := beBytes 4 val.toNat

/-- `writeBigEndian` of an `unsigned short`. -/
def writeUShort (val : UInt16) : Bytes := beBytes 2 val.toNat

/-- Zeros up to a multiple of eight bytes behind the header of 12. -/
def padCount (pos : Nat) : Nat := (8 - (pos - 12) % 8) % 8

namespace GitIndexEntry

def mode (entry : GitIndexEntry) : UInt32 := entry.modeType.toUInt32 <<< 12 ||| entry.modePerms.toUInt32

def nameLength (entry : GitIndexEntry) : UInt16 :=
  if 0xFFF ≤ entry.name.length then 0xFFF else UInt16.ofNat entry.name.length

def flag (entry : GitIndexEntry) : UInt16 :=
  (if entry.assumeValid then (1 : UInt16) <<< 15 else 0) ||| entry.flagStage ||| entry.nameLength

/-- An entry behind what is written of the file; `none` where `sha2Binary` throws. -/
def write (ofs : Bytes) (entry : GitIndexEntry) : Option Bytes := do
  let shaBin ← sha2Binary entry.sha
  let ofs := ofs ++ writeUInt entry.ctime.seconds ++ writeUInt entry.ctime.nanoseconds ++
    writeUInt entry.mtime.seconds ++ writeUInt entry.mtime.nanoseconds ++
    writeUInt entry.dev ++ writeUInt entry.inode ++
    writeUInt entry.mode ++ writeUInt entry.uid ++ writeUInt entry.gid ++ writeUInt entry.fsize ++
    shaBin ++ writeUShort entry.flag ++ entry.name ++ [0]
  return ofs ++ zeros (padCount ofs.length)

end GitIndexEntry

/-- The bytes of the file. -/
def GitIndex.writeToFile (index : GitIndex) : Option Bytes :=
  let count := UInt32.ofNat index.entries.length
  index.entries.foldlM GitIndexEntry.write (ascii "DIRC" ++ writeUInt index.version ++ writeUInt count)

/-! ## Reading -/

/-- `readBigEndian` of an `unsigned int`. From a file that ends before the code goes on with an indeterminate value. -/
def readUInt : Reading UInt32 := UInt32.ofNat <$> bigEndian 4

/-- `readBigEndian` of an `unsigned short`. -/
def readUShort : Reading UInt16 := UInt16.ofNat <$> bigEndian 2

/-- `char rawName[0xFF + 1]` -/
def rawNameSize : Nat := 0xFF + 1

/-- The name, with a zero behind it; `none` where the code leaves the buffer, or never finds the zero it looks for. A
file that ends before leaves zeros in the buffer. -/
def readName (nameLength : Nat) : Reading Bytes := fun s =>
  let rawName := s.rest.take (nameLength + 1)
  let s : Input := ⟨s.pos + rawName.length, s.rest.drop rawName.length⟩
  if rawNameSize < rawName.length ∨ rawNameSize < nameLength then none
  else
    let name := (rawName ++ zeros (rawNameSize - rawName.length)).take nameLength
    if nameLength = 0xFF then
      let more := s.rest.takeWhile (· ≠ 0)
      if more.length < s.rest.length then
        some (name ++ more, ⟨s.pos + (more.length + 1), s.rest.drop (more.length + 1)⟩)
      else none
    else some (name, s)

def readEntry : Reading GitIndexEntry := do
  let ctimes ← readUInt
  let ctimens ← readUInt
  let mtimes ← readUInt
  let mtimens ← readUInt
  let dev ← readUInt
  let inode ← readUInt
  seek 2
  let mode ← readUShort
  let uid ← readUInt
  let gid ← readUInt
  let fsize ← readUInt
  let shaBin ← read 20
  let flags ← readUShort
  let name ← readName (flags &&& 0xFFF).toNat
  let pos ← tell
  seek (padCount pos)
  return { ctime := ⟨ctimes, ctimens⟩, mtime := ⟨mtimes, mtimens⟩, dev := dev, inode := inode
           modeType := mode >>> 12, modePerms := mode &&& 0x1FF, uid := uid, gid := gid, fsize := fsize
           sha := binary2Sha shaBin, flagStage := flags &&& 0x3000, assumeValid := flags &&& 0x8000 ≠ 0, name := name }

def readIndex : Reading GitIndex := do
  let signature ← read 4
  let version ← readUInt
  let count ← readUInt
  if signature = ascii "DIRC" ∧ version = 2 then
    let entries ← readEntry.times count.toNat
    return ⟨version, entries⟩
  else failure

/-- A file that is not there is an empty index; `none` where the code throws or what it does is undefined. -/
def GitIndex.readFromFile : Option Bytes → Option GitIndex
  | none => some {}
  | some raw => (readIndex ⟨0, raw⟩).map Prod.fst

/-! ## The entries of an index -/

/-- The bit fields have their width, and the object its name. -/
structure GitIndexEntry.Sized (entry : GitIndexEntry) : Prop where
  modeType : entry.modeType < 16
  modePerms : entry.modePerms < 512
  sha : IsSha entry.sha
  flagStage : entry.flagStage &&& 0x3000 = entry.flagStage

/-- An entry for a path. -/
structure GitIndexEntry.Proper (entry : GitIndexEntry) : Prop extends entry.Sized where
  name_ne_nil : entry.name ≠ []
  zero_notMem : (0 : UInt8) ∉ entry.name

abbrev ProperEntry := {entry : GitIndexEntry // entry.Proper}

def GitIndex.ofEntries (entries : List ProperEntry) : GitIndex := { entries := entries.map Subtype.val }

/-- The file that is written of the entries is read as these entries, and the code stays within its buffers. -/
def Restored (entries : List ProperEntry) : Prop :=
  ∃ raw, (GitIndex.ofEntries entries).writeToFile = some raw ∧
    GitIndex.readFromFile (some raw) = some (GitIndex.ofEntries entries)

end CppExperiments.Cgit

import CppExperiments.Cgit.GitDir
import CppExperiments.Cgit.Pack
import CppExperiments.Lib.Stream

/-!
# The files of packs

`GitPack::extract` on index and pack files of any content, with at most a number of rounds for every loop.
What a buffer holds that a read does not fill is a parameter, and so is the inflater.
-/

namespace CppExperiments.Cgit

/-- An inflater: what it makes of one more chunk, and whether it has come to the end; `none` is an error. -/
structure Zlib where
  State : Type
  start : State
  inflate : State → Bytes → Option (State × Bytes × Bool)

/-- The contents of the index files, of the pack file next to each, and of buffers before something is read into them.
-/
structure PackDir where
  indexes : List Bytes
  packFile : Nat → Bytes
  buffer : Stream → Bytes

namespace PackDir

variable (dir : PackDir)

def readBigEndian (s : Stream) (size : Nat) : Nat × Stream :=
  ((s.fill ((dir.buffer s).take size) size).foldl (fun val b => val * 256 + b.toNat) 0, s.read size)

def verifyHeader (s : Stream) (expectedHeader : Bytes) (expectedVersion : Nat) : Bool × Stream :=
  let header := s.block 4
  let s := s.read 4
  if header = expectedHeader then
    let (version, s) := dir.readBigEndian s 4
    (decide (version = expectedVersion), s)
  else (false, s)

/-- The name in a buffer of twenty bytes. -/
def readSha (s : Stream) : Bytes := binary2Sha (s.fill ((dir.buffer s).take 20) 20)

def getPackIdxOffsetStart (part : Bytes) : Nat → UInt32 → UInt32 → Stream → Call (UInt32 × Stream)
  | 0, _, _, _ => .error .running
  | n + 1, start, stop, s =>
    if start ≤ stop then
      let mid := start + (stop - start) / 2
      let s := s.seekg (8 + 256 * 4 + mid * 20 : UInt32).toNat
      let sha := dir.readSha s
      let s := s.read 20
      if ¬ sha.take part.length < part then
        if start = mid then .ok (start, s) else getPackIdxOffsetStart part n start (mid - 1) s
      else getPackIdxOffsetStart part n (mid + 1) stop s
    else .ok (start, s)

def matchesFrom (part : Bytes) (curr : UInt32) : Nat → UInt32 → Stream → List (Bytes × UInt32) →
    Call (List (Bytes × UInt32))
  | 0, _, _, _ => .error .running
  | n + 1, startOffset, s, found =>
    if startOffset ≤ curr then
      let sha := dir.readSha s
      if part <+: sha then matchesFrom part curr n (startOffset + 1) (s.read 20) (found ++ [(sha, startOffset)])
      else .ok found
    else .ok found

/-- The ends of the bucket of a first byte and of the one before it. -/
def bucket (index : Stream) (hexInt : Int) : UInt32 × UInt32 × Stream :=
  let (curr, s) := dir.readBigEndian (index.seekg (8 + hexInt * 4)) 4
  if 0 < hexInt then
    let (prev, s) := dir.readBigEndian (s.seekg (8 + (hexInt - 1) * 4)) 4
    (UInt32.ofNat curr, UInt32.ofNat prev, s)
  else (UInt32.ofNat curr, 0, s)

def getHashMatchFromIndex (n : Nat) (part : Bytes) (index : Bytes) : Call (List (Bytes × UInt32)) :=
  if part.length < 2 then .error .threw
  else
    let (valid, s) := dir.verifyHeader (.start index) [0xff, 0x74, 0x4f, 0x63] 2
    if valid then do
      let hexInt ← orThrow (stoi16 (part.take 2))
      let (curr, prev, s) := dir.bucket s hexInt
      if 0 < curr - prev then
        let (startOffset, s) ← dir.getPackIdxOffsetStart part n prev curr s
        dir.matchesFrom part curr n startOffset (s.seekg (8 + 256 * 4 + startOffset * 20 : UInt32).toNat) []
      else .ok []
    else .error .threw

/-- The offset that stands in an index for a number of a name. -/
def offsetAt (index : Bytes) (offset : UInt32) : UInt64 :=
  let (total, s) := dir.readBigEndian ((Stream.start index).seekg (8 + 255 * 4)) 4
  let total := UInt32.ofNat total
  let (r1, s) := dir.readBigEndian (s.seekg (1032 + total * 24 + offset * 4 : UInt32).toNat) 4
  let r1 := UInt32.ofNat r1
  if r1 &&& 0x80000000 = 0 then r1.toUInt64
  else
    let r1 := r1 &&& 0x7fffffff
    UInt64.ofNat (dir.readBigEndian (s.seekg (1032 + total * 28 + r1 * 8 : UInt32).toNat) 8).1

/-- The number of the only index that has a match, and the offset there. -/
def getPackFileOffset (n : Nat) (objectHash : Bytes) : Call (Nat × UInt64) := do
  let found ← dir.indexes.zipIdx.mapM fun index : Bytes × Nat => do
    let found ← dir.getHashMatchFromIndex n objectHash index.1
    return found.map fun entry : Bytes × UInt32 => (index, entry.2)
  match found.flatten with
  | [(index, offset)] => return (index.2, dir.offsetAt index.1 offset)
  | _ => .error .threw

/-- Type, length and shift after one more byte. The result of a shift by more than 31 is undefined. -/
def headerByte (byte : BitVec 32) (type length shift : Nat) : Nat × Nat × Nat :=
  if type = 0 then ((byte.sshiftRight 4 &&& 7).toNat, (byte &&& 15).toNat, 4)
  else (type, length ||| shiftInt (byte &&& 127).toNat shift, shift + 7)

/-- The type and the length in front of an object. -/
def headerLoop : Nat → Nat × Nat × Nat → Stream → Call (Nat × Nat × Stream)
  | 0, _, _ => .error .running
  | n + 1, (type, length, shift), s =>
    let (byte, s) := s.get
    let (type, length, shift) := headerByte byte type length shift
    if byte &&& 128 ≠ 0 then headerLoop n (type, length, shift) s else .ok (type, length, s)

def relOffsetByte (byte : BitVec 32) (relOffset : UInt64) : UInt64 :=
  (relOffset <<< 7) ||| UInt64.ofNat (byte &&& 127).toNat

def relOffsetLoop : Nat → UInt64 → Stream → Call (UInt64 × Stream)
  | 0, _, _ => .error .running
  | n + 1, relOffset, s =>
    let (byte, s) := s.get
    let relOffset := relOffsetByte byte relOffset
    if byte &&& 128 = 0 then .ok (relOffset, s) else relOffsetLoop n (relOffset + 1) s

/-- `std::streamoff` of an offset. -/
def streamoff (offset : UInt64) : Int := if offset.toNat < 2 ^ 63 then offset.toNat else offset.toNat - 2 ^ 64

/-- Type, offset and size of an object in the chain, the last one first. -/
abbrev DeltaChain := List (Nat × UInt32 × UInt32)

def push (deltaChain : DeltaChain) (type length : Nat) (s : Stream) : DeltaChain :=
  (type, UInt32.ofInt s.tellg, UInt32.ofNat length) :: deltaChain

/-- The objects from an offset on, up to one that is no delta. -/
def chainLoop (n : Nat) : Nat → UInt64 → Stream → DeltaChain → Call (DeltaChain × Stream)
  | 0, _, _, _ => .error .running
  | m + 1, offset, s, deltaChain => do
    let (type, length, s) ← headerLoop n (0, 0, 0) (s.seekg (streamoff offset))
    if 1 ≤ type ∧ type ≤ 4 then return (push deltaChain type length s, s)
    else if type = 6 then
      let (relOffset, s) ← relOffsetLoop n 0 s
      chainLoop n m (offset - relOffset) s (push deltaChain 0 length s)
    else if type = 7 then
      let sha := dir.readSha s
      let s := s.read 20
      let (_, offset) ← dir.getPackFileOffset n sha
      chainLoop n m offset s (push deltaChain 0 length s)
    else .error .threw

def zdecompress (z : Zlib) : Nat → z.State → Bytes → Stream → Call (Bytes × Stream)
  | 0, _, _, _ => .error .running
  | n + 1, state, decompressed, s =>
    let chunk := s.block 4096
    let s := s.read 4096
    if chunk = [] then .ok (decompressed, s)
    else
      match z.inflate state chunk with
      | none => .error .threw
      | some (state, out, done) =>
        if done then .ok (decompressed ++ out, s) else zdecompress z n state (decompressed ++ out) s

/-- The base and then the deltas; the type is that of the base. -/
def resolveChain (z : Zlib) (n : Nat) : DeltaChain → Nat → Bytes → Stream → Call (Nat × Bytes)
  | [], baseType, result, _ => .ok (baseType, result)
  | (type, offset, size) :: rest, baseType, result, s => do
    let (decompressed, s) ← zdecompress z n z.start [] (s.seekg offset.toNat)
    let result ← orThrow (resolve result ⟨type, size.toNat, decompressed⟩)
    resolveChain z n rest (if type = 0 then baseType else type) result s

def fmt (baseType : Nat) : Bytes :=
  if baseType = 1 then ascii "commit"
  else if baseType = 2 then ascii "tree"
  else if baseType = 3 then ascii "blob"
  else ascii "tag"

def extract (z : Zlib) (n : Nat) (objectHash : Bytes) : Call Bytes := do
  let (packFile, offset) ← dir.getPackFileOffset n objectHash
  let (valid, s) := dir.verifyHeader (.start (dir.packFile packFile)) (ascii "PACK") 2
  if valid then
    let (deltaChain, s) ← dir.chainLoop n n offset s []
    let (baseType, result) ← resolveChain z n deltaChain 0 [] s
    return fmt baseType ++ [32] ++ decimal result.length ++ [0] ++ result
  else .error .threw

end PackDir

end CppExperiments.Cgit

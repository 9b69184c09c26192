import CppExperiments.Lib.Fields
import CppExperiments.Lib.Numerals

/-!
# Tar headers

The header block of an archive's entry, as it is written and read.
-/

namespace CppExperiments.Tar

inductive FileType where
  | NORMAL
  | SYMLINK
  | DIRECTORY
  deriving DecidableEq

/-! ## Numbers and strings -/

/-- The number of `w` bits at the front of a field; `none` where there is none, or where it does not fit. -/
def parseOInt (w : Nat) (str : Bytes) : Option Nat :=
  let digits := str.takeWhile isOctal
  if digits = [] ∨ 2 ^ w ≤ octalValue digits then none else some (octalValue digits)

def writeOInt (PAD val : Nat) : Bytes := octalPadded PAD val

/-- `none` where it throws. -/
def writeStr (N : Nat) (dest src : Bytes) (offset : Nat) : Option Bytes :=
  if dest.length < offset + N then none else some (put dest offset (src.take N))

def rstrip (str : Bytes) : Bytes := str.takeWhile (· != 0)

/-- Down from the character before position `n`: the last split that fits. -/
def splitFrom (path : Bytes) : Nat → Option (Bytes × Bytes)
  | 0 => none
  | i + 1 =>
    if path[i]? = some 47 ∧ path.length - i - 1 ≤ 100 ∧
      i ≤ 155 then some (path.take i, path.drop (i + 1)) else splitFrom path i

/-- Prefix and name; `none` where it throws. -/
def splitPathUSTAR (path : Bytes) : Option (Bytes × Bytes) :=
  if 255 < path.length then none
  else if path.length ≤ 100 then some ([], path)
  else splitFrom path path.length

/-! ## Headers -/

/-- The time is in nanoseconds since 1970. -/
structure TarInfo where
  fname : Bytes
  mode : Nat
  uid : Nat
  gid : Nat
  blockOffset : Nat
  size : Nat
  mtime : Int
  ftype : FileType
  linkName : Bytes
  ustar : Bool
  uname : Bytes
  gname : Bytes
  fprefix : Bytes
  deriving DecidableEq

/-- The characters that are summed up: the field of the checksum counts as spaces. -/
def summed (header : Bytes) : Bytes := (List.range 512).map fun i => if 148 ≤ i ∧ i < 156 then 32 else header.getD i 0

def unsignedSum (header : Bytes) : Nat := (summed header).foldl (fun sum ch => (sum + ch.toNat) % 2 ^ 16) 0

def signedSum (header : Bytes) : Int := (summed header).foldl (fun sum ch => sum + (ch.toNat : Int).bmod 256) 0

/-- Seconds, towards zero, as 64 bits without a sign. -/
def secondsOf (mtime : Int) : Nat := (mtime.tdiv (10 ^ 9) % 2 ^ 64).toNat

def typeFlag : FileType → UInt8
  | .NORMAL => 48
  | .SYMLINK => 50
  | .DIRECTORY => 53

namespace TarInfo

def fullPath (t : TarInfo) : Bytes :=
  (if t.fprefix ≠ [] then rstrip t.fprefix ++ [47] else []) ++ rstrip t.fname

def writeHeader (t : TarInfo) : Option Bytes := do
  let header := List.replicate 512 0
  let header ← writeStr 100 header t.fname 0
  let header := put header 100 (writeOInt 7 t.mode)
  let header := put header 108 (writeOInt 7 t.uid)
  let header := put header 116 (writeOInt 7 t.gid)
  let header := put header 124 (writeOInt 11 t.size)
  let header := put header 136 (writeOInt 11 (secondsOf t.mtime))
  let header := put header 155 [32]
  let header := put header 156 [typeFlag t.ftype]
  let header ← writeStr 100 header t.linkName 157
  let header ← if t.ustar = true then do
      let header ← writeStr 5 header (ascii "ustar") 257
      let header ← writeStr 2 header (ascii "00") 263
      let header ← writeStr 32 header t.uname 265
      let header ← writeStr 32 header t.gname 297
      writeStr 155 header t.fprefix 345
    else some header
  some (put header 148 (writeOInt 6 (unsignedSum header)))

/-- `ustar` is not initialised where the format is an older one; `none` where it throws. -/
def readHeader (uninitialised : Bool) (header : Bytes) (blockOffset : Nat) : Option TarInfo := do
  if header.length ≠ 512 then none
  else
    let checkSum ← parseOInt 32 (field header 148 6)
    if checkSum ≠ unsignedSum header ∧ (checkSum : Int) ≠ signedSum header % 2 ^ 32 then none
    else
      let mode ← parseOInt 32 (field header 100 8)
      let uid ← parseOInt 32 (field header 108 8)
      let gid ← parseOInt 32 (field header 116 8)
      let size ← parseOInt 64 (field header 124 12)
      let mts ← parseOInt 64 (field header 136 12)
      let ftype ← match field header 156 1 with
        | [48] => some .NORMAL
        | [50] => some .SYMLINK
        | [53] => some .DIRECTORY
        | _ => none
      let isUstar := decide (field header 257 5 = ascii "ustar")
      if isUstar = true ∧ field header 263 2 ≠ ascii "00" then none
      else some {
        fname := rstrip (field header 0 100)
        mode := mode
        uid := uid
        gid := gid
        blockOffset := blockOffset
        size := size
        mtime := (mts : Int).bmod (2 ^ 64) * 10 ^ 9
        ftype := ftype
        linkName := rstrip (field header 157 100)
        ustar := isUstar || uninitialised
        uname := if isUstar = true then rstrip (field header 265 32) else []
        gname := if isUstar = true then rstrip (field header 297 32) else []
        fprefix := if isUstar = true then rstrip (field header 345 155) else [] }

/-- The type that is written is read. -/
lemma bind_typeFlag (ftype : FileType) (f : FileType → Option TarInfo) :
    (match [typeFlag ftype] with
      | [48] => some FileType.NORMAL >>= f
      | [50] => some FileType.SYMLINK >>= f
      | [53] => some FileType.DIRECTORY >>= f
      | _ => none >>= f) = f ftype := by
  cases ftype <;> rfl

end TarInfo

end CppExperiments.Tar

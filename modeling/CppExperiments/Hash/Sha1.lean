import CppExperiments.Hash.Sha1Feeder

/-!
# SHA-1 of `cryptography/hashlib.hpp`

`sha1` folds the compression of each chunk that the block feeder yields into the five
chaining words, and prints them in text or as bytes.
-/

namespace CppExperiments.Hash

def rotateLeft (b shift : UInt32) : UInt32 :=
  let shift := shift &&& 31
  (b <<< shift) ||| (b >>> (32 - shift))

/-- Five 32-bit words: the chaining values `h0..h4` and the working variables `a..e`. -/
structure Regs (α : Type) where
  a : α
  b : α
  c : α
  d : α
  e : α
  deriving DecidableEq, Repr

def Regs.map {α β : Type} (f : α → β) (r : Regs α) : Regs β := ⟨f r.a, f r.b, f r.c, f r.d, f r.e⟩

def sha1Init : Regs UInt32 := ⟨0x67452301, 0xefcdab89, 0x98badcfe, 0x10325476, 0xc3d2e1f0⟩

def chunkWord (chunk : Vector UInt8 64) (j : Nat) : UInt32 :=
  (chunk.toList.getD (j * 4 + 0) 0).toUInt32 <<< 24 |||
  (chunk.toList.getD (j * 4 + 1) 0).toUInt32 <<< 16 |||
  (chunk.toList.getD (j * 4 + 2) 0).toUInt32 <<< 8 |||
  (chunk.toList.getD (j * 4 + 3) 0).toUInt32 <<< 0

def expandWords (word : List UInt32) : List UInt32 :=
  (List.range' 16 64).foldl (fun word j => word ++ [rotateLeft
    (word.getD (j - 3) 0 ^^^ word.getD (j - 8) 0 ^^^ word.getD (j - 14) 0 ^^^ word.getD (j - 16) 0) 1]) word

def sha1Round (word : List UInt32) (r : Regs UInt32) (j : Nat) : Regs UInt32 :=
  let (k, f) : UInt32 × UInt32 :=
    if j < 20 then (0x5A827999, (r.b &&& r.c) ||| (~~~r.b &&& r.d))
    else if j < 40 then (0x6ED9EBA1, r.b ^^^ r.c ^^^ r.d)
    else if j < 60 then (0x8F1BBCDC, (r.b &&& r.c) ||| (r.b &&& r.d) ||| (r.c &&& r.d))
    else (0xCA62C1D6, r.b ^^^ r.c ^^^ r.d)
  let temp := rotateLeft r.a 5 + f + r.e + k + word.getD j 0
  ⟨temp, r.a, rotateLeft r.b 30, r.c, r.d⟩

def sha1Chunk (h : Regs UInt32) (chunk : Vector UInt8 64) : Regs UInt32 :=
  let word := expandWords ((List.range 16).map (chunkWord chunk))
  let r := (List.range 80).foldl (sha1Round word) h
  ⟨h.a + r.a, h.b + r.b, h.c + r.c, h.d + r.d, h.e + r.e⟩

def x2c (val : Nat) : UInt8 :=
  ("0123456789abcdef".toList.map (fun ch => UInt8.ofNat ch.toNat)).getD val 0

def char0 : UInt8 := 48

def trimZeros (out : Bytes) : Bytes :=
  if out.all (· == char0) then [char0] else out.dropWhile (· == char0)

/-- `x2s` at `uint32_t`, where `hexDigits` is 8. -/
def x2s (val : UInt32) (minWidth : Nat) : Bytes :=
  let minWidth := if minWidth < 8 then 8 else minWidth
  let out := (List.range 8).reverse.map (fun i => x2c ((val.toNat >>> (i * 4)) &&& 0xF))
  let out := trimZeros out
  List.replicate (minWidth - out.length) char0 ++ out

def digestText (h : Regs UInt32) : Bytes :=
  x2s h.a 8 ++ x2s h.b 8 ++ x2s h.c 8 ++ x2s h.d 8 ++ x2s h.e 8

def digestBytes (h : Regs UInt32) : Bytes :=
  [h.a, h.b, h.c, h.d, h.e].flatMap (fun part =>
    (List.range 4).reverse.map (fun i => UInt8.ofNat ((part.toNat >>> (i * 8)) &&& 0xFF)))

def sha1Regs (raw : Bytes) : Regs UInt32 :=
  (Sha1BlockFeeder.ofBytes raw).blocks.foldl sha1Chunk sha1Init

def sha1 (raw : Bytes) (asBytes : Bool) : Bytes :=
  if asBytes then digestBytes (sha1Regs raw) else digestText (sha1Regs raw)

lemma length_sha1 (raw : Bytes) : (sha1 raw true).length = 20 := by
  simp [sha1, digestBytes]

end CppExperiments.Hash

/-!
## SHA-1 of `cryptography/hashlib-old.hpp`

The older `sha1` works on a vector of bits and on `std::bitset`s. A `std::bitset<w>` is a
`BitVec w`; the five words are the `Regs` of the new version.
-/

namespace CppExperiments.Hash.Old

/-- `operator+` on bitsets: the sum of the two values, cut to the width. -/
def add (b1 b2 : BitVec 32) : BitVec 32 := BitVec.ofNat 32 (b1.toNat + b2.toNat)

def rotateLeft (b : BitVec 32) (shift : Nat) : BitVec 32 :=
  let shift := shift % 32
  (b <<< shift) ||| (b >>> (32 - shift))

def sha1Init : Regs (BitVec 32) :=
  ⟨0b01100111010001010010001100000001#32, 0b11101111110011011010101110001001#32,
    0b10011000101110101101110011111110#32, 0b00010000001100100101010001110110#32,
    0b11000011110100101110000111110000#32⟩

def messageBits (raw : Bytes) : List Bool :=
  raw.flatMap (fun ch => (List.range 8).reverse.map (fun bit => decide ((ch.toNat >>> bit) &&& 1 = 1)))

def bitString (raw : Bytes) : List Bool :=
  let bits := messageBits raw
  let bitStrLen := bits.length
  let bits := bits ++ [true]
  let padUntil448 := bits.length % 512
  let padUntil448 := if padUntil448 ≤ 448 then 448 - padUntil448 else (448 + 512) - padUntil448
  let bits := bits ++ List.replicate padUntil448 false
  bits ++ (List.range 64).reverse.map (fun i => (BitVec.ofNat 64 bitStrLen).getLsbD i)

def chunkWord (bits : List Bool) (i j : Nat) : BitVec 32 :=
  (List.range 32).foldl
    (fun w k => if bits.getD (i * 512 + j * 32 + k) false then w ||| 1#32 <<< (31 - k) else w) 0#32

def expandWords (word : List (BitVec 32)) : List (BitVec 32) :=
  (List.range' 16 64).foldl (fun word i => word ++ [rotateLeft
    (word.getD (i - 3) 0 ^^^ word.getD (i - 8) 0 ^^^ word.getD (i - 14) 0 ^^^ word.getD (i - 16) 0) 1]) word

def words (bits : List Bool) : List (List (BitVec 32)) :=
  (List.range (bits.length / 512)).map (fun i => expandWords ((List.range 16).map (chunkWord bits i)))

def sha1Round (word : List (BitVec 32)) (r : Regs (BitVec 32)) (j : Nat) : Regs (BitVec 32) :=
  let (k, f) : BitVec 32 × BitVec 32 :=
    if j < 20 then (0b01011010100000100111100110011001#32, (r.b &&& r.c) ||| (~~~r.b &&& r.d))
    else if j < 40 then (0b01101110110110011110101110100001#32, r.b ^^^ r.c ^^^ r.d)
    else if j < 60 then (0b10001111000110111011110011011100#32, (r.b &&& r.c) ||| (r.b &&& r.d) ||| (r.c &&& r.d))
    else (0b11001010011000101100000111010110#32, r.b ^^^ r.c ^^^ r.d)
  let temp := add (add (add (add (rotateLeft r.a 5) f) r.e) k) (word.getD j 0)
  ⟨temp, r.a, rotateLeft r.b 30, r.c, r.d⟩

def sha1Chunk (h : Regs (BitVec 32)) (word : List (BitVec 32)) : Regs (BitVec 32) :=
  let r := (List.range 80).foldl (sha1Round word) h
  ⟨add h.a r.a, add h.b r.b, add h.c r.c, add h.d r.d, add h.e r.e⟩

def sha1Regs (raw : Bytes) : Regs (BitVec 32) := (words (bitString raw)).foldl sha1Chunk sha1Init

/-- What a stream with `std::hex` prints for a number: its hexadecimal numeral. -/
def hexNumeral (n : Nat) : Bytes :=
  if _h : n < 16 then [x2c n] else hexNumeral (n / 16) ++ [x2c (n % 16)]

/-- A number printed with `std::setfill('0')` and `std::setw(width)`. -/
def hexPadded (width n : Nat) : Bytes :=
  List.replicate (width - (hexNumeral n).length) char0 ++ hexNumeral n

def digestText (h : Regs (BitVec 32)) : Bytes :=
  [h.a, h.b, h.c, h.d, h.e].flatMap (fun part => hexPadded 8 part.toNat)

def digestBytes (h : Regs (BitVec 32)) : Bytes :=
  [h.a, h.b, h.c, h.d, h.e].flatMap (fun part =>
    (List.range 4).reverse.map (fun i => UInt8.ofNat ((part.toNat >>> (i * 8)) &&& 0xFF)))

def sha1 (raw : Bytes) (asBytes : Bool) : Bytes :=
  if asBytes then digestBytes (sha1Regs raw) else digestText (sha1Regs raw)

end CppExperiments.Hash.Old

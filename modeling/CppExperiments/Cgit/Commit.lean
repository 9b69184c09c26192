import CppExperiments.Lib.Text
import Mathlib.Data.List.Count

/-!
# Commits and tags

The text of a commit or a tag as a character machine reads it into an ordered map of headers, and as it is printed from
the map.
-/

namespace CppExperiments.Cgit

/-! ## The ordered map -/

/-- The keys in the order in which they were inserted, each with its values. -/
abbrev Headers := List (Bytes × List Bytes)

/-- `data[key]` is changed; a key that is not there is inserted at the end. -/
def alter (key : Bytes) (f : List Bytes → List Bytes) : Headers → Headers
  | [] => [(key, f [])]
  | (k, values) :: data => if k = key then (k, f values) :: data else (k, values) :: alter key f data

/-- `back() += t` -/
def extendBack (t : Bytes) : List Bytes → List Bytes
  | [] => []
  | [value] => [value ++ t]
  | value :: values => value :: extendBack t values

/-! ## Reading -/

inductive State where
  | START
  | KEY_DONE
  | MULTILINE_VAL
  | BODY_START
  deriving DecidableEq

structure Reader where
  state : State
  acc : Bytes
  key : Bytes
  data : Headers

namespace Reader

def start : Reader := ⟨.START, [], [], []⟩

/-- One character; `none` where the code throws. -/
def feed (r : Reader) (ch : UInt8) : Option Reader :=
  if r.state = .BODY_START ∨ (ch ≠ 32 ∧ ch ≠ 10) ∨ (ch = 32 ∧ r.state ≠ .START) then
    some { r with acc := r.acc ++ [ch] }
  else if ch = 32 then
    if r.acc ≠ [] then some { r with state := .KEY_DONE, key := r.acc, acc := [] }
    else if r.data ≠ [] then some { r with state := .MULTILINE_VAL }
    else none
  else
    match r.state with
    | .START => some { r with state := .BODY_START, key := [] }
    | .KEY_DONE => some { r with data := alter r.key (· ++ [r.acc]) r.data, acc := [], state := .START }
    | .MULTILINE_VAL => some { r with data := alter r.key (extendBack (10 :: r.acc)) r.data }
    | .BODY_START => some r

end Reader

/-- `std::string::npos` -/
def npos : Nat := 2 ^ 64 - 1

/-- The last `ch` that does not stand behind `pos`. -/
def rfind (ch : UInt8) (s : Bytes) (pos : Nat) : Nat :=
  ((List.range (min (pos + 1) s.length)).reverse.find? fun i => s[i]? == some ch).getD npos

/-- The number between the last two spaces, with the space behind it. The positions are of 64 bits. -/
def timestamp (committerMsg : Bytes) : Bytes :=
  let tzStartPos := rfind 32 committerMsg npos
  let tsStartPos := rfind 32 committerMsg ((tzStartPos + (2 ^ 64 - 1)) % 2 ^ 64)
  (committerMsg.drop ((tsStartPos + 1) % 2 ^ 64)).take ((tzStartPos + (2 ^ 64 - tsStartPos)) % 2 ^ 64)

/-- A line feed at the end is removed. -/
def dropNewline (acc : Bytes) : Bytes := if acc.getLast? = some 10 then acc.dropLast else acc

/-- `system_clock::from_time_t`: the nanoseconds of so many seconds, in 64 bits. -/
def fromTimeT (seconds : Int) : Int := (seconds * 1000000000).bmod (2 ^ 64)

/-- A tag is a commit of another format. The time is in nanoseconds. -/
structure GitCommit where
  sha : Bytes
  fmt : Bytes
  data : Headers
  commitUTC : Int

namespace GitCommit

/-- The time of the first committer, or that of the clock. -/
def commitTime (now : Int) : Option (List Bytes) → Option Int
  | none => some now
  | some values => values.head?.bind fun committerMsg => (stoll (timestamp committerMsg)).map fromTimeT

/-- The constructor at the time `now`; `none` where it throws. -/
def deserialize (now : Int) (sha raw fmt : Bytes) : Option GitCommit := do
  let r ← raw.foldlM Reader.feed Reader.start
  let data := alter [] (fun _ => [dropNewline r.acc]) r.data
  let commitUTC ← commitTime now (data.lookup (ascii "committer"))
  return ⟨sha, fmt, data, commitUTC⟩

/-- A value behind its key; the lines of the value but the first have a space in front. -/
def printValue (key value : Bytes) : Bytes :=
  key ++ 32 :: value.flatMap (fun ch => if ch ≠ 10 then [ch] else [10, 32]) ++ [10]

def printHeaders (data : Headers) : Bytes :=
  data.flatMap fun header => if header.1 ≠ [] then header.2.flatMap (printValue header.1) else []

def serialize (c : GitCommit) : Option Bytes := do
  let body ← (← c.data.lookup []).head?
  return printHeaders c.data ++ 10 :: body

end GitCommit

/-! ## The format -/

/-- A value: its first line, and those that continue it. -/
abbrev Value := Bytes × List Bytes

/-- What git writes: headers, those of one key in adjacent lines, and a message. -/
structure ObjectText where
  headers : List (Bytes × List Value)
  message : Bytes
  keys : ∀ h ∈ headers, h.1 ≠ [] ∧ (32 : UInt8) ∉ h.1 ∧ (10 : UInt8) ∉ h.1
  values : ∀ h ∈ headers, h.2 ≠ []
  lines : ∀ h ∈ headers, ∀ v ∈ h.2, (10 : UInt8) ∉ v.1 ∧ ∀ line ∈ v.2, (10 : UInt8) ∉ line
  nodup : (headers.map Prod.fst).Nodup

/-- The lines of a value. -/
def valueText (key : Bytes) (v : Value) : Bytes :=
  key ++ 32 :: v.1 ++ 10 :: v.2.flatMap fun line => 32 :: line ++ [10]

def headersText (headers : List (Bytes × List Value)) : Bytes :=
  headers.flatMap fun h => h.2.flatMap (valueText h.1)

namespace ObjectText

def raw (o : ObjectText) : Bytes := headersText o.headers ++ 10 :: o.message

/-- The text is printed again as it was read. -/
def Restored (o : ObjectText) (now : Int) (sha fmt : Bytes) : Prop :=
  ∃ c, GitCommit.deserialize now sha o.raw fmt = some c ∧ c.serialize = some o.raw

/-- No value has more than one line. -/
def Plain (o : ObjectText) : Prop := ∀ h ∈ o.headers, ∀ v ∈ h.2, v.2 = []

/-- The first committer line, if there is one, has a time that can be read. -/
def Timed (o : ObjectText) : Prop :=
  ∀ values ∈ o.headers.lookup (ascii "committer"), ∀ v ∈ values.head?, (stoll (timestamp v.1)).isSome

end ObjectText

end CppExperiments.Cgit

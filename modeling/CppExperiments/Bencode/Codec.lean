import CppExperiments.Json.Parser
import CppExperiments.Lib.Search
import CppExperiments.Lib.Steps

/-!
# Bencode

The encoder, a recursion over the tree, and the decoder, a loop over the text with a stack of unfinished nodes.
-/

namespace CppExperiments.Bencode

open Json

/-! ## The encoder -/

/-- A string with its length in front. -/
def lengthPrefixed (s : Bytes) : Bytes := decimal s.length ++ 58 :: s

/-- Only strings and integers can be encoded. -/
def encodeSimple : Simple → Option Bytes
  | .str s => some (lengthPrefixed s)
  | .int v => some (105 :: decimalInt v.toInt ++ [101])
  | .null | .double _ | .bool _ => none

/-- The key is printed if there is one. -/
def encodeKey (skipKey : Bool) (key : Bytes) : Bytes := if key ≠ [] ∧ skipKey = false then lengthPrefixed key else []

/-- The members of an object in the order in which they are printed, each with its key. -/
def inOrder (sortKeys : Bool) (members : List (Bytes × Bytes)) : List (Bytes × Bytes) :=
  if sortKeys then members.mergeSort (fun m m' => decide (m.1 ≤ m'.1)) else members

mutual

/-- `none` where the code throws. -/
def encode (sortKeys skipKey : Bool) : Node → Option Bytes
  | .value key v => do
    let body ← encodeSimple v
    return encodeKey skipKey key ++ body
  | .array key values => do
    let items ← encodeEach sortKeys true values
    return encodeKey skipKey key ++ 108 :: (items.map Prod.snd).flatten ++ [101]
  | .object key values => do
    let members ← encodeEach sortKeys false values
    return encodeKey skipKey key ++ 100 :: ((inOrder sortKeys members).map Prod.snd).flatten ++ [101]

/-- The nodes with their keys. -/
def encodeEach (sortKeys skipKey : Bool) : List Node → Option (List (Bytes × Bytes))
  | [] => some []
  | node :: nodes => do
    let text ← encode sortKeys skipKey node
    let rest ← encodeEach sortKeys skipKey nodes
    return (node.key, text) :: rest

end

/-! ## The decoder -/

/-- The position in the text and the stack, its top first. -/
structure Decoder where
  idx : Nat
  stk : List Node

/-- A turn of the loop goes on, returns a node, or throws. -/
inductive Turn where
  | on (d : Decoder)
  | returns (node : Node)
  | throws

/-- The end of every turn that goes on. -/
def next (idx : Nat) : Option (List Node) → Turn
  | some stk => .on ⟨(idx + 1) % 2 ^ 64, stk⟩
  | none => .throws

/-- The position of the next `ch`. -/
def findFrom (ch : UInt8) (encoded : Bytes) (idx : Nat) : Option Nat := (find [ch] (encoded.drop idx)).map (idx + ·)

def substr (encoded : Bytes) (pos count : Nat) : Bytes := (encoded.drop pos).take count

def topIsObject : List Node → Bool
  | .object _ _ :: _ => true
  | _ => false

/-- A node is put into the container on top. -/
def pushToTop (node : Node) : List Node → Option (List Node)
  | .object key values :: rest => some (.object key (Node.place values node) :: rest)
  | .array key values :: rest => some (.array key (values ++ [node]) :: rest)
  | .value _ _ :: _ | [] => none

def extract_Push_to_ancestor : List Node → Option (List Node)
  | prev :: rest => pushToTop prev rest
  | [] => none

def pop_Setval_Extract_Push (val : Simple) : List Node → Option (List Node)
  | .value key .null :: rest =>
    if rest ≠ [] then extract_Push_to_ancestor (.value key val :: rest) else some [.value key val]
  | _ => none

/-- The stack after an integer. -/
def insertInt (val : Int64) : List Node → Option (List Node)
  | [] => some [.value [] (.int val)]
  | .array key values :: rest => some (.array key (values ++ [.value [] (.int val)]) :: rest)
  | .object key values :: rest => pop_Setval_Extract_Push (.int val) (.object key values :: rest)
  | .value key v :: rest => pop_Setval_Extract_Push (.int val) (.value key v :: rest)

/-- The stack after a string, which is a key if the top is an object. -/
def insertStr (str : Bytes) : List Node → Option (List Node)
  | [] => some [.value [] (.str str)]
  | .object key values :: rest => some (.value str .null :: .object key values :: rest)
  | .array key values :: rest => some (.array key (values ++ [.value [] (.str str)]) :: rest)
  | .value key v :: rest => pop_Setval_Extract_Push (.str str) (.value key v :: rest)

/-- The stack after an end marker that is not the last character: `prev` was on top of `rest`. -/
def close (prev : Node) : List Node → Option (List Node)
  | .value key _ :: rest =>
    if rest ≠ [] then extract_Push_to_ancestor (prev.setKey key :: rest) else some [prev.setKey key]
  | .array key values :: rest => pushToTop prev (.array key values :: rest)
  | .object key values :: rest => pushToTop prev (.object key values :: rest)
  | [] => none

/-- The turn at an integer. The text handed to `std::stoll` does not end where the integer does. -/
def turnInt (encoded : Bytes) (d : Decoder) : Turn :=
  match findFrom 101 encoded d.idx with
  | none => .throws
  | some endP =>
    if topIsObject d.stk then .throws
    else
      match stoll (substr encoded (d.idx + 1) endP) with
      | none => .throws
      | some val => next endP (insertInt (Int64.ofInt val) d.stk)

/-- The turn at a string. The sums are of 64 bits. -/
def turnStr (encoded : Bytes) (d : Decoder) : Turn :=
  match findFrom 58 encoded d.idx with
  | none => .throws
  | some numEndP =>
    match stoull (substr encoded d.idx numEndP) with
    | none => .throws
    | some strLen =>
      if (numEndP + 1 + strLen) % 2 ^ 64 > encoded.length then .throws
      else next ((numEndP + strLen) % 2 ^ 64) (insertStr (substr encoded (numEndP + 1) strLen) d.stk)

/-- The turn at an end marker. -/
def turnEnd (encoded : Bytes) (d : Decoder) : Turn :=
  let N := encoded.length
  if d.stk = [] ∨ (d.idx + 1 = N ∧ d.stk.length ≠ 1) ∨ (d.stk.length = 1 ∧ d.idx + 1 < N) then .throws
  else
    match d.stk with
    | [] => .throws
    | prev :: rest => if d.idx + 1 = N ∧ rest = [] then .returns prev else next d.idx (close prev rest)

/-- One turn of the loop; at the end of the text, what comes after it. -/
def turn (encoded : Bytes) (ignoreSpaces : Bool) (d : Decoder) : Turn :=
  match encoded[d.idx]? with
  | none =>
    match d.stk with
    | [node] => .returns node
    | _ => .throws
  | some ch =>
    if (ch = 100 ∨ ch = 108) ∧ topIsObject d.stk then .throws
    else if ch = 100 then next d.idx (some (.object [] [] :: d.stk))
    else if ch = 108 then next d.idx (some (.array [] [] :: d.stk))
    else if ch = 105 then turnInt encoded d
    else if isDigit ch then turnStr encoded d
    else if ch = 101 then turnEnd encoded d
    else if isSpace ch = false ∨ ignoreSpaces = false then .throws
    else next d.idx (some d.stk)

def step (encoded : Bytes) (ignoreSpaces : Bool) (d : Decoder) : Option Decoder :=
  match turn encoded ignoreSpaces d with
  | .on d' => some d'
  | .returns _ | .throws => none

def start : Decoder := ⟨0, []⟩

/-- The loop comes to a turn that returns the node. -/
def Returns (encoded : Bytes) (ignoreSpaces : Bool) (node : Node) : Prop :=
  ∃ d, Reaches (step encoded ignoreSpaces) start d ∧ turn encoded ignoreSpaces d = .returns node

/-- The loop comes to a turn that throws. -/
def Throws (encoded : Bytes) (ignoreSpaces : Bool) : Prop :=
  ∃ d, Reaches (step encoded ignoreSpaces) start d ∧ turn encoded ignoreSpaces d = .throws

end CppExperiments.Bencode

import CppExperiments.Lib.Text

/-!
# JSON nodes

The tree type that the parsers share. Every node carries the key it has in its parent; an element of an array and a
root have the empty one. Pointers are not shared between trees, so that a node is a value.
-/

namespace CppExperiments.Json

/-- `JSONSimpleType`; a `double` is given by its bits. -/
inductive Simple where
  | str (s : Bytes)
  | null
  | int (v : Int64)
  | double (bits : UInt64)
  | bool (b : Bool)
  deriving DecidableEq

inductive Node where
  | value (key : Bytes) (value : Simple)
  | array (key : Bytes) (values : List Node)
  | object (key : Bytes) (values : List Node)

namespace Node

instance : Inhabited Node := ⟨value [] .null⟩

def key : Node → Bytes
  | value key _ | array key _ | object key _ => key

def setKey (k : Bytes) : Node → Node
  | value _ v => value k v
  | array _ values => array k values
  | object _ values => object k values

@[simp] lemma key_setKey (k : Bytes) (n : Node) : (n.setKey k).key = k := by cases n <;> rfl

@[simp] lemma setKey_setKey (k k' : Bytes) (n : Node) : (n.setKey k').setKey k = n.setKey k := by cases n <;> rfl

lemma setKey_key (n : Node) : n.setKey n.key = n := by cases n <;> rfl

/-- `operator[]` of a handle with a key; `at` throws where there is no node. -/
def get (k : Bytes) : Node → Option Node
  | object _ values => values.find? fun n => n.key == k
  | value _ _ | array _ _ => none

/-- What a handle is iterated over. -/
def children : Node → List Node
  | value _ _ => []
  | array _ values | object _ values => values

/-- The elements of an array; the cast throws for another node. -/
def elements : Node → Option (List Node)
  | array _ values => some values
  | value _ _ | object _ _ => none

/-- `to<std::string>` -/
def toStr : Node → Option Bytes
  | value _ (.str s) => some s
  | _ => none

/-- `to<std::int64_t>` -/
def toInt : Node → Option Int64
  | value _ (.int v) => some v
  | _ => none

/-- `to` of a handle, which has a default where there is no node. -/
def readOr {α : Type} (default : α) (read : Node → Option α) : Option Node → Option α
  | some node => read node
  | none => some default

/-- `push` of an object: a node of the same key is replaced. -/
def place (values : List Node) (node : Node) : List Node :=
  match values.findIdx? (fun n => n.key == node.key) with
  | some i => values.set i node
  | none => values ++ [node]

lemma place_of_notMem {values : List Node} {node : Node} (h : node.key ∉ values.map key) :
    place values node = values ++ [node] := by
  have hnone : values.findIdx? (fun n => n.key == node.key) = none := by
    rw [List.findIdx?_eq_none_iff]
    intro n hn
    rw [beq_eq_false_iff_ne]
    exact fun hkey => h (List.mem_map.2 ⟨n, hn, hkey⟩)
  rw [place, hnone]

/-- Nodes of different keys are all kept, in their order. -/
theorem foldl_place {values front : List Node} (h : ((front ++ values).map key).Nodup) :
    values.foldl place front = front ++ values := by
  induction values generalizing front with
  | nil => simp
  | cons n values ih =>
    have hnew : n.key ∉ front.map key := by
      rw [List.map_append, List.map_cons, List.nodup_append] at h
      exact fun hmem => h.2.2 n.key hmem n.key List.mem_cons_self rfl
    rw [List.foldl_cons, place_of_notMem hnew, ih (by simpa using h), List.append_assoc, List.singleton_append]

end Node

end CppExperiments.Json

/-!
## The JSON parser

One loop over the text collects tokens on a stack, and a closing bracket makes a node of those above its opening one.
Commas and colons are only counted; the counts are compared at the end.
-/

namespace CppExperiments.Json

/-! ## Numbers -/

/-- Values and numerals of floating-point numbers: `std::stod`, which throws where the value is out of range,
`std::strtod` and `std::to_string`. -/
structure Floats where
  stod : Bytes → Option UInt64
  strtod : Bytes → UInt64
  to_string : UInt64 → Bytes

def skipSign (bs : Bytes) : Bytes := if bs.head? = some 43 ∨ bs.head? = some 45 then bs.tail else bs

/-- Behind digits with a point among them or not; `none` without a digit. -/
def mantissaRest (digit : UInt8 → Bool) (bs : Bytes) : Option Bytes :=
  let rest := bs.dropWhile digit
  if rest.head? = some 46 then
    if rest ≠ bs ∨ rest.tail.head?.any digit = true then some (rest.tail.dropWhile digit) else none
  else if rest ≠ bs then some rest
  else none

/-- Behind an exponent, if there is one with a digit. -/
def exponentRest (marks : List UInt8) (bs : Bytes) : Bytes :=
  match bs with
  | mark :: rest => if mark ∈ marks ∧ (skipSign rest).head?.any isDigit = true then (skipSign
      rest).dropWhile isDigit else bs
  | [] => []

/-- Behind `(` and `)` with letters, digits and underscores between them, if this is what comes. -/
def parenthesizedRest (bs : Bytes) : Bytes :=
  let inside := bs.tail.dropWhile fun b => isDigit b || decide (97 ≤ toLower b ∧ toLower b ≤ 122) || b == 95
  if bs.head? = some 40 ∧ inside.head? = some 41 then inside.tail else bs

/-- What `std::strtod` leaves of a text. -/
def strtodRest (token : Bytes) : Bytes :=
  let bs := skipSign (token.dropWhile isSpace)
  if lower (bs.take 8) = ascii "infinity" then bs.drop 8
  else if lower (bs.take 3) = ascii "inf" then bs.drop 3
  else if lower (bs.take 3) = ascii "nan" then parenthesizedRest (bs.drop 3)
  else
    match (if lower (bs.take 2) = ascii "0x" then mantissaRest isHexDigit (bs.drop 2) else none) with
    | some rest => exponentRest [112, 80] rest
    | none =>
      match mantissaRest isDigit bs with
      | some rest => exponentRest [101, 69] rest
      | none => token

/-! ## Scalars -/

/-- A digit `0` in front of another digit, at the first digit. -/
def leadingZeros (tok : Bytes) : Bool :=
  match tok.dropWhile fun b => !isDigit b with
  | first :: second :: _ => first == 48 && isDigit second
  | _ => false

/-- `none` where the code throws. -/
def simple_parse (F : Floats) (token : Bytes) : Option Simple :=
  let digitCount := token.countP isDigit
  let dotPos := token.idxOf? 46
  if token = ascii "null" then some .null
  else if token = ascii "true" ∨ token = ascii "false" then some (.bool (token = ascii "true"))
  else if token.head? = some 34 ∧ token.getLast? = some 34 then
    if 9 ∈ token ∨ 10 ∈ token then none else some (.str token.tail.dropLast)
  else if digitCount = token.length ∨ digitCount + 1 = token.length ∧ token.head? = some 45 then
    if leadingZeros token then none else (stoll token).map fun v => .int (Int64.ofInt v)
  else if (digitCount + 1 = token.length ∧ dotPos ≠ none ∧ dotPos ≠ some 0 ∨
      digitCount + 2 = token.length ∧ dotPos ≠ none ∧ token.head? = some 45 ∧ dotPos ≠ some 1) ∧
      dotPos ≠ some (token.length - 1) then
    if leadingZeros token then none else (F.stod token).map .double
  else if 101 ∈ token ∨ 69 ∈ token then
    -- the text ends for `strtod` at the first character 0
    if (strtodRest token).headD 0 = 0 ∧ leadingZeros token = false then some (.double (F.strtod token)) else none
  else none

/-! ## The loop -/

inductive Token where
  | text (s : Bytes)
  | node (n : Node)

/-- The variables of the loop; the tops of the stacks come first. -/
structure Loading where
  validateStk : List (UInt8 × Nat) := []
  tokens : List Token := []
  acc : Bytes := []
  processingString : Bool := false
  currCharEscaped : Bool := false
  commas : Nat := 0
  commasExpected : Nat := 0
  colons : Nat := 0
  colonsExpected : Nat := 0

/-- The characters that separate tokens: braces, brackets, comma and colon. -/
def splChars : List UInt8 := [123, 125, 91, 93, 44, 58]

/-- What may follow a backslash: a quote, a backslash, a slash and the letters b, f, n, r, t, u. -/
def validEscapes : List UInt8 := [34, 92, 47, 98, 102, 110, 114, 116, 117]

def nodeOf (F : Floats) : Token → Option Node
  | .node n => some n
  | .text s => (simple_parse F s).map (.value [])

/-- The key that a token is read as. -/
def keyOf : Token → Option Bytes
  | .node _ => none
  | .text key =>
    if key.head? ≠ some 34 ∨ key.getLast? ≠ some 34 ∨ 9 ∈ key ∨ 10 ∈ key then none else some key.tail.dropLast

/-- The values above `startPos`, in front of those that are there already, and the tokens that are left. Where keys are
asked for, a key is taken from the stack for every value, wherever it is. -/
def collect (F : Floats) (keyed : Bool) (startPos : Nat) : List Token → List Node → Option (List Node × List Token)
  | [], values => some (values, [])
  | valMixed :: tokens, values =>
    if tokens.length + 1 ≤ startPos then some (values, valMixed :: tokens)
    else
      match keyed, tokens with
      | false, tokens => do
        let node ← nodeOf F valMixed
        collect F keyed startPos tokens (node.setKey [] :: values)
      | true, [] => none
      | true, keyTok :: tokens => do
        let node ← nodeOf F valMixed
        let key ← keyOf keyTok
        collect F keyed startPos tokens (node.setKey key :: values)

/-- The object or the array of values; keys of an object must be different. -/
def container (keyed : Bool) (values : List Node) : Option Node :=
  if keyed then if (values.map Node.key).Nodup then some (.object [] values) else none else some (.array [] values)

namespace Loading

/-- The text of a bare token is over. -/
def flush (s : Loading) : Loading := if s.acc = [] then s else { s with tokens := .text s.acc :: s.tokens, acc := [] }

/-- Everything from a quote to the next one that is not escaped becomes one token. -/
def demarcate (s : Loading) (ch : UInt8) : Loading :=
  let acc := s.acc ++ [ch]
  if ch = 34 ∧ s.currCharEscaped = false then
    if s.processingString then { s with processingString := false, tokens := .text acc :: s.tokens, acc := [] }
    else { s with processingString := true, acc := acc }
  else { s with acc := acc }

def trackEscape (s : Loading) (ch : UInt8) : Option Loading :=
  if ch = 92 then some { s with currCharEscaped := !s.currCharEscaped }
  else if s.currCharEscaped then if ch ∈ validEscapes then some { s with currCharEscaped := false } else none
  else some s

/-- The bracket that `ch` closes. -/
def opening (ch : UInt8) : UInt8 := if ch = 125 then 123 else 91

/-- A closing bracket. -/
def close (F : Floats) (s : Loading) (ch : UInt8) : Option Loading :=
  match s.validateStk with
  | [] => none
  | (prevCh, startPos) :: validateStk =>
    if prevCh ≠ opening ch then none
    else do
      let (values, tokens) ← collect F (prevCh == 123) startPos s.tokens []
      let node ← container (prevCh == 123) values
      return { s with
        validateStk := validateStk
        tokens := .node node :: tokens
        commasExpected := s.commasExpected + (values.length - 1)
        colonsExpected := s.colonsExpected + if prevCh = 123 then values.length else 0 }

def readOther (F : Floats) (s : Loading) (ch : UInt8) : Option Loading :=
  if ch ∉ splChars then some { s with acc := s.acc ++ [ch] }
  else
    let s := s.flush
    if ch = 123 ∨ ch = 91 then some { s with validateStk := (ch, s.tokens.length) :: s.validateStk }
    else if ch = 125 ∨ ch = 93 then s.close F ch
    else if ch = 44 then some { s with commas := s.commas + 1 }
    else some { s with colons := s.colons + 1 }

def step (F : Floats) (s : Loading) (ch : UInt8) : Option Loading :=
  if ch = 34 ∨ s.processingString = true then (s.demarcate ch).trackEscape ch
  else if isSpace ch then some s
  else s.readOther F ch

def run (F : Floats) (s : Loading) (text : Bytes) : Option Loading := text.foldlM (step F) s

/-- The node at the end; `none` where the code throws. Brackets that are still open do not matter. -/
def result (s : Loading) : Option Node :=
  if s.commasExpected = s.commas ∧ s.colonsExpected = s.colons ∧ s.acc = [] then
    match s.tokens with
    | [.node n] => some n
    | _ => none
  else none

end Loading

def loads (F : Floats) (raw : Bytes) : Option Node := (Loading.run F {} raw).bind Loading.result

end CppExperiments.Json

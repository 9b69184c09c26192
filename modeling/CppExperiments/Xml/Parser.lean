import CppExperiments.Lib.Text
import CppExperiments.Lib.Trimming

/-!
# XML trees

Nodes, and how they are written with one indented line for each part of an element.
-/

namespace CppExperiments.Xml

inductive NodeType where
  | CDATA
  | TEXT
  | NODE
  | PI
  deriving DecidableEq

inductive XMLNode where
  | mk (name : Bytes) (type : NodeType) (attrs : List (Bytes × Bytes)) (text : Option Bytes) (children : List XMLNode)

namespace XMLNode

def name : XMLNode → Bytes
  | mk name _ _ _ _ => name

def type : XMLNode → NodeType
  | mk _ type _ _ _ => type

def addChild : XMLNode → XMLNode → XMLNode
  | mk name type attrs text children, child => mk name type attrs text (children ++ [child])

def TextNode (text : Bytes) : XMLNode := mk [] .TEXT [] (some text) []

def CDataNode (text : Bytes) : XMLNode := mk [] .CDATA [] (some text) []

/-- A space, the key and the value in quotes. -/
def attrString (kv : Bytes × Bytes) : Bytes := [32] ++ kv.1 ++ ascii "=\"" ++ kv.2 ++ [34]

mutual

def toString (level : Nat) : XMLNode → Bytes
  | mk _ .CDATA _ text _ => ascii "<![CDATA[" ++ text.getD [] ++ ascii "]]>"
  | mk _ .TEXT _ text _ => text.getD []
  | mk name .PI attrs _ _ => ascii "<?" ++ name ++ attrs.flatMap attrString ++ ascii "?>"
  | mk name .NODE attrs text children =>
    let nlIndent := [10] ++ List.replicate level 9
    [60] ++ name ++ attrs.flatMap attrString ++
      if children.isEmpty = true ∧ text.isNone = true then ascii "/>"
      else [62] ++ (text.elim [] fun text => nlIndent ++ [9] ++ text) ++ childrenString level children ++
        nlIndent ++ ascii "</" ++ name ++ [62]

def childrenString (level : Nat) : List XMLNode → Bytes
  | [] => []
  | child :: children => [10] ++ List.replicate level 9 ++ [9] ++ toString (level +
      1) child ++ childrenString level children

end

end XMLNode

structure XMLDeclaration where
  version : Bytes
  encoding : Bytes
  standalone : Bytes

def XMLDeclaration.toString (dec : XMLDeclaration) : Bytes :=
  ascii "<?xml version=\"" ++ dec.version ++ ascii "\" encoding=\"" ++ dec.encoding ++ ascii "\" standalone=\"" ++ dec.standalone ++
    ascii "\"?>"

/-- Without an element in a text there is no root. -/
structure XMLTree where
  xmlDeclaration : Option XMLDeclaration
  root : Option XMLNode

/-- `operator<<` for a tree with this root. -/
def XMLTree.print (xmlDeclaration : Option XMLDeclaration) (root : XMLNode) : Bytes :=
  (xmlDeclaration.elim [] fun dec => dec.toString ++ [10]) ++ (root.toString 0 ++ [10])

end CppExperiments.Xml

/-!
## The XML parser

A loop over the characters of a document, with the characters since the last token and a stack of the elements that are
open.
-/

namespace CppExperiments.Xml

/-! ## Names and attributes -/

def isAlpha (b : UInt8) : Bool := decide (97 ≤ toLower b ∧ toLower b ≤ 122)

/-- A letter, a digit, `-` or `_`. -/
def isKeyChar (b : UInt8) : Bool := isAlpha b || isDigit b || b == 45 || b == 95

/-- Namespace, key and what is behind them; `none` where it throws. -/
def extractKey (sv : Bytes) : Option (Bytes × Bytes × Bytes) :=
  match sv with
  | [] => none
  | front :: _ =>
    if isAlpha front = false then none
    else
      let i := (sv.takeWhile isKeyChar).length
      match sv.drop i with
      | [] => some ([], sv, [])
      | ch :: rest =>
        if isSpace ch = true ∨ ch = 61 then some ([], sv.take i, (ch :: rest).dropWhile isSpace)
        else if ch = 58 then
          let key := rest.takeWhile isKeyChar
          if key = [] then none else some (sv.take i, key, (rest.drop key.length).dropWhile isSpace)
        else none

/-- The value in quotes and what is behind it; `none` where it throws. -/
def extractValue : Bytes → Option (Bytes × Bytes)
  | [] => none
  | quote :: rest =>
    if quote ≠ 39 ∧ quote ≠ 34 then none
    else
      let result := rest.takeWhile (· != quote)
      if result.length = rest.length then none else some (result, (rest.drop (result.length + 1)).dropWhile isSpace)

/-- A key with its namespace. -/
def qualified (ns key : Bytes) : Bytes := if ns = [] then key else ns ++ [58] ++ key

lemma length_extractKey {sv ns key rest : Bytes} (h : extractKey sv = some (ns, key, rest)) :
    rest.length < sv.length := by
  cases sv with
  | nil => cases h
  | cons front sv =>
    rw [extractKey] at h
    by_cases halpha : isAlpha front = false
    · rw [if_pos halpha] at h
      cases h
    · rw [if_neg halpha] at h
      have hkey : isKeyChar front = true := by rw [isKeyChar, Bool.eq_true_of_not_eq_false halpha]; rfl
      have hdrop : ((front :: sv).drop ((front :: sv).takeWhile isKeyChar).length).length < (front :: sv).length := by
        rw [List.takeWhile_cons_of_pos hkey, List.length_drop, List.length_cons, List.length_cons]
        omega
      dsimp only at h
      generalize (front :: sv).drop ((front :: sv).takeWhile isKeyChar).length = behind at h hdrop
      cases behind with
      | nil =>
        obtain ⟨-, -, rfl⟩ := Option.some.inj h
        exact hdrop
      | cons ch behind =>
        dsimp only at h
        split at h
        · obtain ⟨-, -, rfl⟩ := Option.some.inj h
          exact lt_of_le_of_lt (List.dropWhile_suffix _).length_le hdrop
        · split at h
          · split at h
            · cases h
            · obtain ⟨-, -, rfl⟩ := Option.some.inj h
              have hle := (List.dropWhile_suffix isSpace
                (l := behind.drop (behind.takeWhile isKeyChar).length)).length_le
              rw [List.length_drop] at hle
              rw [List.length_cons] at hdrop
              omega
          · cases h

lemma length_extractValue {sv value rest : Bytes} (h : extractValue sv = some (value, rest)) :
    rest.length ≤ sv.length := by
  cases sv with
  | nil => cases h
  | cons quote sv =>
    rw [extractValue] at h
    split at h
    · cases h
    · dsimp only at h
      split at h
      · cases h
      · obtain ⟨-, rfl⟩ := Option.some.inj h
        have hle := (List.dropWhile_suffix isSpace (l := sv.drop ((sv.takeWhile (· != quote)).length + 1))).length_le
        rw [List.length_drop] at hle
        rw [List.length_cons]
        omega

/-- The attributes up to the end; `none` where it throws. -/
def extractAttrs (sv : Bytes) (attrs : List (Bytes × Bytes)) : Option (List (Bytes × Bytes)) :=
  if sv = [] then some attrs
  else
    match _ : extractKey sv with
    | none => none
    | some (ns, key, rest) =>
      let attrKey := qualified ns key
      if rest.length ≤ 2 ∨ attrKey ∈ attrs.map Prod.fst ∨ rest.head? ≠ some 61 then none
      else
        match _ : extractValue (rest.tail.dropWhile isSpace) with
        | none => none
        | some (attrVal, rest') => extractAttrs rest' (attrs ++ [(attrKey, attrVal)])
  termination_by sv.length
  decreasing_by
    have hle := length_extractValue ‹_›
    have htail := (List.dropWhile_suffix isSpace (l := rest.tail)).length_le
    have hlt := length_extractKey ‹_›
    rw [List.length_tail] at htail
    omega

/-- Name and attributes; `none` where it throws. -/
def extractNodeInfo (sv : Bytes) : Option (Bytes × List (Bytes × Bytes)) := do
  let (ns, key, rest) ← extractKey sv
  let attrs ← extractAttrs rest []
  some (qualified ns key, attrs)

/-! ## Documents -/

inductive State where
  | START
  | COMMENT
  | PI
  | CDATA
  | NODE
  deriving DecidableEq

inductive Mode where
  | SELF_CLOSING
  | OPEN
  | CLOSE

/-- The variables of `parse`; `insideStr` is zero outside of quotes. -/
structure Parsing where
  root : Option XMLNode
  xmlDec : Option XMLDeclaration
  stk : List XMLNode
  acc : Bytes
  state : State
  insideStr : UInt8

namespace Parsing

def start : Parsing where
  root := none
  xmlDec := none
  stk := []
  acc := []
  state := .START
  insideStr := 0

/-- A child of the element on top of the stack; `none` where there is none. -/
def addChild (s : Parsing) (child : XMLNode) : Option Parsing :=
  match s.stk with
  | [] => none
  | top :: stk => some { s with stk := top.addChild child :: stk }

/-- The text in front of a tag; `none` where it throws. -/
def addText (preserveSpace : Bool) (s : Parsing) (acc : Bytes) : Option Parsing :=
  let trimmed := trimBy isSpace acc
  if trimmed ≠ [] ∧ s.stk = [] then none
  else if (preserveSpace = true ∧ acc ≠ []) ∧ s.stk ≠ [] then s.addChild (.TextNode acc)
  else if (preserveSpace = false ∧ trimmed ≠ []) ∧ s.stk ≠ [] then s.addChild (.TextNode trimmed)
  else some s

/-- What is between the first `n` and the last `m` characters, if there are so many. -/
def between (acc : Bytes) (n m : Nat) :
    Option Bytes := if acc.length < n + m then none else some ((acc.drop n).take (acc.length - n - m))

/-- `value_or` of `attrs.extract`, which reads an erased node where the key is there: that has no value. -/
def extracted (attrs : List (Bytes × Bytes)) (key value : Bytes) :
    Option Bytes := if key ∈ attrs.map Prod.fst then none else some value

/-- The end of a processing instruction; `none` where it throws. -/
def endPI (s : Parsing) : Option Parsing := do
  let content ← between s.acc 2 2
  let (name, attrs) ← extractNodeInfo content
  if name = ascii "xml" then
    let version ← extracted attrs (ascii "version") (ascii "1.0")
    let encoding ← extracted attrs (ascii "encoding") (ascii "UTF-8")
    let standalone ← extracted attrs (ascii "standalone") (ascii "yes")
    if s.stk ≠ [] ∨ attrs ≠ [] then none else some { s with xmlDec := some ⟨version, encoding, standalone⟩ }
  else s.addChild (.mk name .PI attrs none [])

def modeOf (acc : Bytes) : Mode :=
  if 2 ≤ acc.length ∧ acc[acc.length - 2]? = some 47 then .SELF_CLOSING
  else if 2 ≤ acc.length ∧ acc[1]? = some 47 then .CLOSE
  else .OPEN

/-- The end of a tag; `none` where it throws. -/
def endNode (s : Parsing) : Option Parsing :=
  match modeOf s.acc with
  | .SELF_CLOSING => do
    let content ← between s.acc 1 2
    let (name, attrs) ← extractNodeInfo content
    s.addChild (.mk name .NODE attrs none [])
  | .CLOSE => do
    let content ← between s.acc 2 1
    let (name, attrs) ← extractNodeInfo content
    match s.stk with
    | [] => none
    | top :: stk =>
      if attrs = [] ∧ name = top.name then
        match stk with
        | [] => some { s with root := some top, stk := [] }
        | parent :: stk => some { s with root := some top, stk := parent.addChild top :: stk }
      else none
  | .OPEN => do
    let content ← between s.acc 1 1
    let (name, attrs) ← extractNodeInfo content
    some { s with stk := .mk name .NODE attrs none [] :: s.stk }

/-- Back to the text between tokens. -/
def restart (s : Parsing) : Parsing := { s with state := .START, acc := [] }

def isTagStart (acc : Bytes) : Bool :=
  decide (2 ≤ acc.length) && acc[0]? == some 60 && (acc[1]?.any isAlpha || acc[1]? == some 47)

/-- One character; `none` where it throws. -/
def step (preserveSpace : Bool) (s : Parsing) (ch : UInt8) : Option Parsing :=
  let acc := s.acc ++ [ch]
  let s' := { s with acc := acc }
  if s.state = .START ∧ ch = 60 then (s.addText preserveSpace s.acc).map fun s => { s with acc := [60] }
  else if s.state = .START ∧ acc = ascii "<!--" then some { s' with state := .COMMENT }
  else if s.state = .START ∧ acc = ascii "<?" then some { s' with state := .PI }
  else if s.state = .START ∧ acc = ascii "<!DOCTYPE" then none
  else if s.state = .START ∧ acc = ascii "<![CDATA[" then some { s' with state := .CDATA }
  else if s.state = .START ∧ isTagStart acc = true then some { s' with state := .NODE }
  else if (s.state = .PI ∨ s.state = .NODE) ∧ (ch = 34 ∨ ch = 39) then
    some { s' with insideStr := if s.insideStr = 0 then ch else 0 }
  else if s.state = .COMMENT ∧ ascii "-->" <:+ acc then some s'.restart
  else if s.state = .CDATA ∧ ascii "]]>" <:+ acc then (s'.addChild (.CDataNode acc)).map restart
  else if (s.state = .PI ∧ s.insideStr = 0) ∧ ascii "?>" <:+ acc then s'.endPI.map restart
  else if (s.state = .NODE ∧ s.insideStr = 0) ∧ ascii ">" <:+ acc then s'.endNode.map restart
  else some s'

/-- The document from its first tag on, which ends outside of all tags; `none` where it throws. -/
def parseTags (preserveSpace : Bool) (raw : Bytes) : Option Parsing := do
  let s ← raw.foldlM (step preserveSpace) start
  if s.state ≠ .START ∨ s.acc ≠ [] then none else some s

/-- White space, and the tags; `none` where it throws. -/
def parseDocument (preserveSpace : Bool) : Bytes → Option Parsing
  | [] => some start
  | ch :: raw =>
    if isSpace ch = false ∧ ch ≠ 60 then none
    else if ch = 60 then parseTags preserveSpace (ch :: raw)
    else parseDocument preserveSpace raw

end Parsing

/-- `none` where it throws. -/
def XMLTree.parse (raw : Bytes) (preserveSpace : Bool) : Option XMLTree := do
  let s ← Parsing.parseDocument preserveSpace raw
  if s.stk ≠ [] then none else some ⟨s.xmlDec, s.root⟩

end CppExperiments.Xml

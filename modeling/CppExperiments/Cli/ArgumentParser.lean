import CppExperiments.Lib.Calls
import CppExperiments.Lib.Text
import Mathlib.Data.List.Nodup

/-!
# Arguments

A parser reads a command line from the left. Whether a token is a value is told by the token before it, by its first
characters, and by whether a value stood behind an equals sign.
-/

namespace CppExperiments.Argparse

inductive ArgType where
  | positional
  | named
  | both
  deriving DecidableEq

/-- The values of an argument that is a flag or a string. -/
inductive Value where
  | bool (b : Bool)
  | string (s : Bytes)
  deriving DecidableEq

/-- An argument, of which a string is empty if it has no default. -/
structure Argument where
  name : Bytes
  type : ArgType := .both
  required : Bool := false
  valueSet : Bool := false
  defaultValueSet : Bool := false
  aliasName : Bytes := []
  value : Value := .string []
  implicitValue : Option Value := none
  validator : Option (Value → Bool) := none

/-- What a program ends with: an error that is thrown, also by the map of the arguments, or the help text. -/
inductive Exit where
  | error (text : Bytes)
  | outOfRange
  | help
  deriving DecidableEq

abbrev Result (α : Type) := Except Exit α

def fail {α : Type} (text : String) (subject : Bytes) : Result α :=
  .error (.error (ascii "Argparse Error: " ++ ascii text ++ subject))

namespace Argument

/-- The constructor of an argument, which checks its name. -/
def make (name : Bytes) (type : ArgType) : Result Argument :=
  if name = [] then fail "Argument name cannot be empty" []
  else if name.head? = some 45 then
    fail "Parameter names must not start with a hypen, consider explicitly setting the argtype instead." []
  else if 61 ∈ name then fail "Invalid parameter name: " name
  else pure { name := name, type := type }

/-- The flag that asks for the help text. -/
def asHelp (arg : Argument) (helpAliasName : Bytes) : Argument :=
  { arg with
    aliasName := helpAliasName
    value := .bool false
    defaultValueSet := true
    implicitValue := some (.bool true) }

def parse : Value → Bytes → Value
  | .bool _, val => .bool (decide (val ≠ [] ∧ val ≠ ascii "0" ∧ val ≠ ascii "false"))
  | .string _, val => .string val

def setTo (arg : Argument) (val : Bytes) : Argument := { arg with value := parse arg.value val, valueSet := true }

/-- `Argument::set` without a value. -/
def setImplicit (arg : Argument) : Result Argument :=
  match arg.implicitValue with
  | none => fail "No implicit value set: " arg.name
  | some val => pure { arg with value := val, valueSet := true }

def getBool (arg : Argument) : Result Bool :=
  if ¬ arg.valueSet ∧ ¬ arg.defaultValueSet then fail "Argument '" (arg.name ++ ascii "' was not set")
  else
    match arg.value with
    | .bool b => pure b
    | .string _ => fail "Type mismatch (get): " arg.name

/-- `Argument::ok`, whose validator throws. -/
def ok (arg : Argument) : Result Bool :=
  if arg.validator.all (· arg.value) then pure (!arg.required || arg.valueSet || arg.defaultValueSet)
  else .error (.error (ascii "Argparse Validation Error: Invalid value passed to '" ++ arg.name ++ ascii "'"))

end Argument

/-- A parser without subcommands, with its arguments in the order in which they were added. -/
structure ArgumentParser where
  helpArgName : Bytes
  allArgs : List Argument

/-- The loop of `splitArg` behind the equals sign; `none` where a quote is left open or another sign comes. -/
def splitValue (prevCh insideQuote : UInt8) (value : Bytes) : Bytes → Option Bytes
  | [] => if insideQuote = 0 then some value else none
  | ch :: arg =>
    if insideQuote = 0 ∧ ch = 61 then none
    else if insideQuote = 0 ∧ (ch = 39 ∨ ch = 34) then splitValue ch ch value arg
    else if insideQuote = ch ∧ prevCh ≠ 92 then splitValue ch 0 value arg
    else if prevCh = 92 ∧ ch = insideQuote then splitValue ch insideQuote (value.dropLast ++ [ch]) arg
    else splitValue ch insideQuote (value ++ [ch]) arg

def splitArg (arg : Bytes) : Result (Bytes × Bytes) :=
  if 61 ∈ arg then
    match splitValue 0 0 [] (arg.dropWhile (· ≠ 61)).tail with
    | none => fail "Invalid argument passed: " arg
    | some value => pure (arg.takeWhile (· ≠ 61), value)
  else pure (arg, [])

/-- A token that is not taken as the value of the one before it. -/
def isFlag (ip1 : Bytes) : Bool :=
  (ascii "--").isPrefixOf ip1 ||
    match ip1 with
    | [45, ch] => !isDigit ch
    | _ => false

/-- An argument is changed where it is. -/
def modify (args : List Argument) (name : Bytes) (f : Argument → Argument) : List Argument :=
  args.map fun arg => if arg.name = name then f arg else arg

/-- An argument is set to its implicit value. -/
def setImplicitly (args : List Argument) (arg : Argument) : Result (List Argument) := do
  let set ← arg.setImplicit
  pure (modify args arg.name fun _ => set)

def findNamed (args : List Argument) (name : Bytes) : Option Argument :=
  args.find? fun arg => arg.name = name ∧ arg.type ≠ .positional

def findAliased (args : List Argument) (name : Bytes) : Option Argument :=
  args.find? fun arg => arg.aliasName = name ∧ arg.aliasName ≠ []

def positionalArgs (args : List Argument) : List Argument := args.filter fun arg => arg.type ≠ .named

/-- The first of the positional arguments from here on that is not set. -/
def skipSet (args : List Argument) (position : Nat) : Nat :=
  position + (((positionalArgs args).drop position).takeWhile Argument.valueSet).length

namespace ArgumentParser

/-- The constructor of a parser, whose first argument is the help flag. -/
def make (helpArgName helpAliasName : Bytes) : Result ArgumentParser :=
  if helpArgName = [] then fail "Help Argument name cannot be empty" []
  else do
    let help ← Argument.make helpArgName .named
    pure ⟨helpArgName, [help.asHelp helpAliasName]⟩

def addArgument (p : ArgumentParser) (arg : Argument) : Result ArgumentParser :=
  if arg.name ∈ p.allArgs.map Argument.name then fail "Duplicate argument with name: " arg.name
  else pure { p with allArgs := p.allArgs ++ [arg] }

/-- An alias is given to one argument only. -/
def updateReferences (p : ArgumentParser) : Result Unit :=
  p.allArgs.foldlM (fun seen arg =>
    if arg.aliasName = [] then pure seen
    else if arg.aliasName ∈ seen then fail "Duplicate argument with alias: " arg.aliasName
    else pure (arg.aliasName :: seen)) [] >>= fun _ => pure ()

/-- After each token the help text may be asked for. -/
def checkHelp (p : ArgumentParser) (args : List Argument) : Result Unit :=
  match args.find? fun arg => arg.name = p.helpArgName with
  | none => .error .outOfRange
  | some arg => do
    let help ← arg.getBool
    if help then .error .help else pure ()

/-- The first argument that has no value. -/
def check : List Argument → Result Unit
  | [] => pure ()
  | arg :: args => do
    let ok ← arg.ok
    if ok then check args else fail "Missing value for argument: " arg.name

/-- The loop of `_parseArgs`, from one token on. -/
def parseFrom (p : ArgumentParser) (args : List Argument) (position : Nat) (explicitPositionalArgMarker : Bool) :
    List Bytes → Result (List Argument)
  | [] => pure args
  | arg :: rest =>
    if arg = ascii "--" then do
      p.checkHelp args
      p.parseFrom args position true rest
    else if ¬ explicitPositionalArgMarker ∧ (ascii "--").isPrefixOf arg then do
      let (name, value) ← splitArg (arg.drop 2)
      match findNamed args name with
      | none => fail "Unknown named argument passed: " name
      | some found =>
        if value ≠ [] then do
          let args := modify args found.name (·.setTo value)
          p.checkHelp args
          p.parseFrom args position false rest
        else
          match rest with
          | [] => do
            let args ← setImplicitly args found
            p.checkHelp args
            p.parseFrom args position false []
          | ip1 :: after =>
            if isFlag ip1 then do
              let args ← setImplicitly args found
              p.checkHelp args
              p.parseFrom args position false (ip1 :: after)
            else do
              let args := modify args found.name (·.setTo ip1)
              p.checkHelp args
              p.parseFrom args position false after
    else if ¬ explicitPositionalArgMarker ∧ arg.head? = some 45 then
      match findAliased args arg.tail with
      | none => fail "Unknown aliased argument passed: " arg.tail
      | some found =>
        match rest with
        | [] => do
          let args ← setImplicitly args found
          p.checkHelp args
          p.parseFrom args position false []
        | ip1 :: after =>
          if isFlag ip1 then do
            let args ← setImplicitly args found
            p.checkHelp args
            p.parseFrom args position false (ip1 :: after)
          else do
            let args := modify args found.name (·.setTo ip1)
            p.checkHelp args
            p.parseFrom args position false after
    else
      match (positionalArgs args)[skipSet args position]? with
      | none => fail "Unknown positional argument passed: " arg
      | some found => do
        let args' := modify args found.name (·.setTo arg)
        p.checkHelp args'
        p.parseFrom args' (skipSet args position + 1) true rest

/-- `parseArgs`, on what stands behind the name of the program. -/
def parseArgs (p : ArgumentParser) (argv : List Bytes) : Result (List Argument) := do
  p.updateReferences
  let args ← p.parseFrom p.allArgs 0 false argv
  check args
  pure args

end ArgumentParser

/-! ## One token -/

variable {p : ArgumentParser} {args : List Argument} {arg found : Argument} {f : Argument → Argument} {position : Nat}
  {name token ip1 : Bytes} {rest : List Bytes} {marker : Bool}

lemma mem_modify_of_ne (harg : arg ∈ args) (hne : arg.name ≠ name) : arg ∈ modify args name f :=
  List.mem_map.2 ⟨arg, harg, if_neg hne⟩

lemma modify_names (hf : ∀ arg, (f arg).name = arg.name) :
    (modify args name f).map Argument.name = args.map Argument.name := by
  rw [modify, List.map_map]
  refine List.map_congr_left fun arg _ => ?_
  rw [Function.comp_apply]
  by_cases h : arg.name = name
  · rw [if_pos h, hf]
  · rw [if_neg h]

lemma getElem?_takeWhile {α : Type} {q : α → Bool} {l : List α} {x : α} (h : l[(l.takeWhile q).length]? = some x) :
    q x = false := by
  induction l with
  | nil => exact nomatch h
  | cons y l ih =>
    by_cases hy : q y = true
    · rw [List.takeWhile_cons_of_pos hy] at h
      exact ih h
    · rw [List.takeWhile_cons_of_neg hy] at h
      obtain rfl := Option.some.inj h
      exact Bool.eq_false_iff.2 hy

/-- The positional argument that is set next is not set yet. -/
lemma skipSet_unset (h : (positionalArgs args)[skipSet args position]? = some found) :
    found ∈ args ∧ found.valueSet = false := by
  refine ⟨List.mem_of_mem_filter (List.mem_of_getElem? h),
    getElem?_takeWhile (l := (positionalArgs args).drop position) ?_⟩
  rw [List.getElem?_drop]
  exact h

namespace ArgumentParser

lemma parseFrom_marker : p.parseFrom args position marker (ascii "--" :: rest) =
    p.checkHelp args >>= fun _ => p.parseFrom args position true rest := by
  rw [parseFrom, if_pos rfl]

lemma parseFrom_positional (htoken : token ≠ ascii "--") (hmarker : marker = true ∨ token.head? ≠ some 45) :
    p.parseFrom args position marker (token :: rest) = match (positionalArgs args)[skipSet args position]? with
      | none => fail "Unknown positional argument passed: " token
      | some found => p.checkHelp (modify args found.name (·.setTo token)) >>= fun _ =>
        p.parseFrom (modify args found.name (·.setTo token)) (skipSet args position + 1) true rest := by
  have hnamed : ¬ (¬ marker = true ∧ (ascii "--").isPrefixOf token = true) := by
    rintro ⟨hno, hdash⟩
    obtain ⟨after, rfl⟩ := List.isPrefixOf_iff_prefix.1 hdash
    exact hmarker.elim hno fun h => h rfl
  have haliased : ¬ (¬ marker = true ∧ token.head? = some 45) := fun h => hmarker.elim h.1 fun hne => hne h.2
  cases rest <;> rw [parseFrom, if_neg htoken, if_neg hnamed, if_neg haliased]

/-- Behind the marker no argument that is set is changed. -/
lemma mem_of_parseFrom_true {args' : List Argument} (hnames : (args.map Argument.name).Nodup) (harg : arg ∈ args)
    (hset : arg.valueSet = true) (hparse : p.parseFrom args position true rest = .ok args') : arg ∈ args' := by
  induction rest generalizing args position with
  | nil =>
    obtain rfl : args = args' := Except.ok.inj hparse
    exact harg
  | cons token rest ih =>
    by_cases htoken : token = ascii "--"
    · subst htoken
      rw [parseFrom_marker] at hparse
      obtain ⟨_, _, hparse⟩ := bind_eq_ok hparse
      exact ih hnames harg hparse
    · rw [parseFrom_positional htoken (.inl rfl)] at hparse
      cases hfound : (positionalArgs args)[skipSet args position]? with
      | none =>
        rw [hfound] at hparse
        exact nomatch hparse
      | some found =>
        rw [hfound] at hparse
        obtain ⟨_, _, hparse⟩ := bind_eq_ok hparse
        obtain ⟨hmem, hunset⟩ := skipSet_unset hfound
        have hne : arg.name ≠ found.name := fun heq => by
          rw [List.inj_on_of_nodup_map hnames harg hmem heq, hunset] at hset
          exact Bool.noConfusion hset
        exact ih (by rwa [modify_names (f := (·.setTo token)) fun _ => rfl]) (mem_modify_of_ne harg hne) hparse

end ArgumentParser

end CppExperiments.Argparse

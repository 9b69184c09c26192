import CppExperiments.Cli.ArgumentParser
import Mathlib.Data.List.Induction

/-!
# Command lines

A command line gives some arguments by their names or aliases, and the first ones of the others by their positions. It
is read back, but for an empty value behind an equals sign.
-/

namespace CppExperiments.Argparse

/-- What the functions that build a parser see to, for arguments that are strings and the help flag. -/
structure Declared (p : ArgumentParser) : Prop where
  names : (p.allArgs.map Argument.name).Nodup
  named : ∀ arg ∈ p.allArgs, arg.name ≠ [] ∧ arg.name.head? ≠ some 45 ∧ 61 ∉ arg.name
  aliases : ((p.allArgs.map Argument.aliasName).filter (· ≠ [])).Nodup
  fresh : ∀ arg ∈ p.allArgs, arg.valueSet = false
  help : ∃ arg ∈ p.allArgs, arg.name = p.helpArgName ∧ arg.type = .named ∧ arg.value = .bool false ∧
    arg.defaultValueSet = true
  strings : ∀ arg ∈ p.allArgs, arg.name ≠ p.helpArgName → ∃ s, arg.value = .string s

/-- How an argument is given: `--name=value`, `--name value` or `-alias value`. -/
inductive Form where
  | inline
  | separate
  | aliased
  deriving DecidableEq

structure Assignment where
  arg : Argument
  form : Form
  value : Bytes

def Assignment.tokens (a : Assignment) : List Bytes :=
  match a.form with
  | .inline => [ascii "--" ++ a.arg.name ++ 61 :: a.value]
  | .separate => [ascii "--" ++ a.arg.name, a.value]
  | .aliased => [45 :: a.arg.aliasName, a.value]

/-- What stands on a command line behind some assignments. -/
def line (as : List Assignment) (ps : List Bytes) : List Bytes := as.flatMap Assignment.tokens ++ ascii "--" :: ps

/-- The positional arguments that are not given by name. -/
def remaining (p : ArgumentParser) (as : List Assignment) : List Argument :=
  (positionalArgs p.allArgs).filter fun arg => arg.name ∉ as.map (·.arg.name)

/-- What is given, by the names of the arguments. -/
def values (p : ArgumentParser) (as : List Assignment) (ps : List Bytes) : List (Bytes × Bytes) :=
  as.map (fun a => (a.arg.name, a.value)) ++ ((remaining p as).map Argument.name).zip ps

/-- One more argument is given a value. -/
def give (σ : Bytes → Option Value) (kv : Bytes × Bytes) : Bytes → Option Value :=
  Function.update σ kv.1 (some (.string kv.2))

/-- What arguments of these names hold when values have been given. -/
def given (values : List (Bytes × Bytes)) : Bytes → Option Value := values.foldl give fun _ => none

/-- The value that is given to an argument, or its default. -/
def expected (σ : Bytes → Option Value) (arg : Argument) : Value := (σ arg.name).getD arg.value

/-- Assignments and positional values that a command line can be made of. -/
structure Assignable (p : ArgumentParser) (as : List Assignment) (ps : List Bytes) : Prop where
  known : ∀ a ∈ as, a.arg ∈ p.allArgs ∧ a.arg.name ≠ p.helpArgName ∧ a.arg.type ≠ .positional
  once : (as.map (·.arg.name)).Nodup
  plain : ∀ a ∈ as, ∀ b ∈ a.value, b ≠ 39 ∧ b ≠ 34 ∧ b ≠ 92 ∧ b ≠ 61 ∧ b ≠ 0
  separate : ∀ a ∈ as, a.form ≠ .inline → a.value.head? ≠ some 45
  aliased : ∀ a ∈ as, a.form = .aliased → a.arg.aliasName ≠ []
  fits : ps.length ≤ (remaining p as).length
  unmarked : ascii "--" ∉ ps
  covers : ∀ arg ∈ p.allArgs, arg.required = true → arg.defaultValueSet = true ∨ given (values p as ps) arg.name ≠ none
  valid : ∀ arg ∈ p.allArgs, arg.validator.all (· (expected (given (values p as ps)) arg)) = true

/-- The command line is accepted, and every argument holds what it is given or else its default. -/
def ReadBack (p : ArgumentParser) (as : List Assignment) (ps : List Bytes) : Prop :=
  ∃ args, p.parseArgs (line as ps) = .ok args ∧ args.map (fun arg => (arg.name, arg.value)) =
    p.allArgs.map fun arg => (arg.name, expected (given (values p as ps)) arg)

/-- Where the value behind an equals sign is empty, the argument is implicitly so and a flag comes next. -/
def Kept : List Assignment → Prop
  | [] => True
  | a :: as => (a.form = .inline → a.value = [] → a.arg.implicitValue = some (.string []) ∧
      ∀ token ∈ (line as []).head?, isFlag token = true) ∧ Kept as

/-- An argument that has been given a value, or has not. -/
def assigned (σ : Bytes → Option Value) (arg : Argument) : Argument :=
  match σ arg.name with
  | none => arg
  | some val => { arg with value := val, valueSet := true }

variable {p : ArgumentParser} {as : List Assignment} {a : Assignment} {ps rest : List Bytes} {σ : Bytes → Option Value}
  {arg : Argument} {name token v : Bytes} {val : Value} {f : Argument → Argument}

@[simp] lemma assigned_name : (assigned σ arg).name = arg.name := by
  rw [assigned]
  cases σ arg.name <;> rfl

@[simp] lemma assigned_type : (assigned σ arg).type = arg.type := by
  rw [assigned]
  cases σ arg.name <;> rfl

@[simp] lemma assigned_aliasName : (assigned σ arg).aliasName = arg.aliasName := by
  rw [assigned]
  cases σ arg.name <;> rfl

@[simp] lemma assigned_implicitValue : (assigned σ arg).implicitValue = arg.implicitValue := by
  rw [assigned]
  cases σ arg.name <;> rfl

lemma assigned_value : (assigned σ arg).value = expected σ arg := by
  rw [assigned, expected]
  cases σ arg.name <;> rfl

lemma assigned_of_none (h : σ arg.name = none) : assigned σ arg = arg := by
  rw [assigned, h]

lemma assigned_update_self : assigned (Function.update σ arg.name (some val)) arg =
    { arg with value := val, valueSet := true } := by
  rw [assigned, Function.update_self]

lemma assigned_update_ne (h : arg.name ≠ name) : assigned (Function.update σ name (some val)) arg = assigned σ arg := by
  rw [assigned, assigned, Function.update_of_ne h]

/-- An argument that has not been given a value is given one. -/
lemma modify_assigned (hf : ∀ arg ∈ p.allArgs, arg.name = name → f (assigned σ arg) =
    { arg with value := val, valueSet := true }) :
    modify (p.allArgs.map (assigned σ)) name f = p.allArgs.map (assigned (Function.update σ name (some val))) := by
  rw [modify, List.map_map]
  refine List.map_congr_left fun arg harg => ?_
  rw [Function.comp_apply, assigned_name]
  by_cases h : arg.name = name
  · rw [if_pos h, hf arg harg h, ← h, assigned_update_self]
  · rw [if_neg h, assigned_update_ne h]

lemma find?_map_assigned {q : Argument → Bool} (hq : ∀ arg, q (assigned σ arg) = q arg) {args : List Argument} :
    (args.map (assigned σ)).find? q = (args.find? q).map (assigned σ) := by
  rw [List.find?_map]
  congr 2
  funext arg
  exact hq arg

lemma find?_eq_some {α : Type} {q : α → Bool} {l : List α} {x : α} (hx : x ∈ l) (hqx : q x = true)
    (hunique : ∀ y ∈ l, q y = true → y = x) : l.find? q = some x := by
  cases hfind : l.find? q with
  | none => exact absurd hqx (List.find?_eq_none.1 hfind x hx)
  | some y => rw [hunique y (List.mem_of_find?_eq_some hfind) (List.find?_some hfind)]

lemma named_of_make {type : ArgType} (h : Argument.make name type = .ok arg) :
    name ≠ [] ∧ name.head? ≠ some 45 ∧ 61 ∉ name := by
  rw [Argument.make] at h
  by_cases hne : name = []
  · rw [if_pos hne] at h
    exact nomatch h
  · rw [if_neg hne] at h
    by_cases hhead : name.head? = some 45
    · rw [if_pos hhead] at h
      exact nomatch h
    · rw [if_neg hhead] at h
      by_cases hequals : 61 ∈ name
      · rw [if_pos hequals] at h
        exact nomatch h
      · exact ⟨hne, hhead, hequals⟩

/-- A parser is declared when it is constructed. -/
lemma declared_make (helpArgName helpAliasName : Bytes) (h : ArgumentParser.make helpArgName helpAliasName = .ok p) :
    Declared p := by
  rw [ArgumentParser.make] at h
  by_cases hempty : helpArgName = []
  · rw [if_pos hempty] at h
    exact nomatch h
  · rw [if_neg hempty] at h
    obtain ⟨help, hhelp, h⟩ := bind_eq_ok h
    have hname : help.name = helpArgName ∧ help.type = .named ∧ help.valueSet = false := by
      obtain ⟨hne, hhead, hequals⟩ := named_of_make hhelp
      rw [Argument.make, if_neg hne, if_neg hhead, if_neg hequals] at hhelp
      obtain rfl := Except.ok.inj hhelp
      exact ⟨rfl, rfl, rfl⟩
    obtain rfl := Except.ok.inj h
    refine ⟨List.nodup_singleton _, fun arg harg => ?_, (List.nodup_singleton _).filter _, fun arg harg => ?_,
      ⟨_, List.mem_singleton_self _, hname.1, hname.2.1, rfl, rfl⟩, fun arg harg hne => ?_⟩
    · obtain rfl := List.mem_singleton.1 harg
      change help.name ≠ [] ∧ help.name.head? ≠ some 45 ∧ 61 ∉ help.name
      rw [hname.1]
      exact named_of_make hhelp
    · obtain rfl := List.mem_singleton.1 harg
      exact hname.2.2
    · rw [List.mem_singleton.1 harg] at hne
      exact absurd hname.1 hne

namespace Declared

/-- A parser stays declared when an argument is added that is a string, with an alias of its own. -/
lemma addArgument (hp : Declared p) (arg : Argument) {p' : ArgumentParser} {arg₀ : Argument}
    (h : p.addArgument arg = .ok p')
    (hname : Argument.make arg.name arg.type = .ok arg₀)
    (halias : arg.aliasName = [] ∨ arg.aliasName ∉ p.allArgs.map Argument.aliasName) (hfresh : arg.valueSet = false)
    (hstring : ∃ s, arg.value = .string s) : Declared p' := by
  rw [ArgumentParser.addArgument] at h
  by_cases hdup : arg.name ∈ p.allArgs.map Argument.name
  · rw [if_pos hdup] at h
    exact nomatch h
  · rw [if_neg hdup] at h
    obtain rfl := Except.ok.inj h
    obtain ⟨help, hmem, hhelp⟩ := hp.help
    have hall : ∀ {P : Argument → Prop}, (∀ x ∈ p.allArgs, P x) → P arg → ∀ x ∈ p.allArgs ++ [arg], P x :=
      fun hold hnew x hx => (List.mem_append.1 hx).elim (hold x) fun hx => List.mem_singleton.1 hx ▸ hnew
    refine ⟨?_, hall hp.named (named_of_make hname), ?_, hall hp.fresh hfresh,
      ⟨help, List.mem_append_left _ hmem, hhelp⟩,
      hall hp.strings fun _ => hstring⟩
    · rw [List.map_append, List.map_singleton, ← List.concat_eq_append]
      exact hp.names.concat hdup
    · rw [List.map_append, List.map_singleton, List.filter_append]
      rcases halias with halias | halias
      · rw [List.filter_cons_of_neg (by simp [halias]), List.filter_nil, List.append_nil]
        exact hp.aliases
      · rw [List.nodup_append]
        refine ⟨hp.aliases, (List.nodup_singleton _).filter _, fun a ha b hb heq => halias ?_⟩
        rw [← List.mem_singleton.1 (List.mem_of_mem_filter hb), ← heq]
        exact List.mem_of_mem_filter ha

lemma findNamed_eq (hp : Declared p) (harg : arg ∈ p.allArgs) (htype : arg.type ≠ .positional) :
    findNamed (p.allArgs.map (assigned σ)) arg.name = some (assigned σ arg) := by
  have hfind : p.allArgs.find? (fun x => x.name = arg.name ∧ x.type ≠ .positional) = some arg := by
    refine find?_eq_some harg (decide_eq_true ⟨rfl, htype⟩) fun y hy hqy => ?_
    exact List.inj_on_of_nodup_map hp.names hy harg (of_decide_eq_true hqy).1
  rw [findNamed, find?_map_assigned, hfind, Option.map_some]
  intro x
  rw [assigned_name, assigned_type]

lemma findAliased_eq (hp : Declared p) (harg : arg ∈ p.allArgs) (halias : arg.aliasName ≠ []) :
    findAliased (p.allArgs.map (assigned σ)) arg.aliasName = some (assigned σ arg) := by
  have hnodup : ((p.allArgs.filter fun x => x.aliasName ≠ []).map Argument.aliasName).Nodup := by
    have h := hp.aliases
    rwa [List.filter_map] at h
  have hmem : ∀ {x}, x ∈ p.allArgs → x.aliasName ≠ [] → x ∈ p.allArgs.filter fun x => x.aliasName ≠ [] :=
    fun hx hne => List.mem_filter.2 ⟨hx, decide_eq_true hne⟩
  have hfind : p.allArgs.find? (fun x => x.aliasName = arg.aliasName ∧ x.aliasName ≠ []) = some arg := by
    refine find?_eq_some harg (decide_eq_true ⟨rfl, halias⟩) fun y hy hqy => ?_
    obtain ⟨heq, hne⟩ := of_decide_eq_true hqy
    exact List.inj_on_of_nodup_map hnodup (hmem hy hne) (hmem harg halias) heq
  rw [findAliased, find?_map_assigned, hfind, Option.map_some]
  intro x
  rw [assigned_aliasName]

/-- The help text is asked for by nothing but the flag. -/
lemma checkHelp_eq (hp : Declared p) (hhelp : σ p.helpArgName = none) :
    p.checkHelp (p.allArgs.map (assigned σ)) = .ok () := by
  obtain ⟨arg, harg, hname, -, hvalue, hdefault⟩ := hp.help
  have hfind : p.allArgs.find? (fun x => x.name = p.helpArgName) = some arg := by
    refine find?_eq_some harg (decide_eq_true hname) fun y hy hqy => ?_
    exact List.inj_on_of_nodup_map hp.names hy harg ((of_decide_eq_true hqy).trans hname.symm)
  have hassigned : assigned σ arg = arg := assigned_of_none (hname.symm ▸ hhelp)
  rw [ArgumentParser.checkHelp, find?_map_assigned fun x => by rw [assigned_name], hfind, Option.map_some, hassigned]
  simp [Argument.getBool, hdefault, hvalue]
  rfl

end Declared

/-! ## One assignment -/

lemma splitValue_plain {prevCh : UInt8} {acc : Bytes}
    (hv : ∀ b ∈ v, b ≠ 39 ∧ b ≠ 34 ∧ b ≠ 92 ∧ b ≠ 61 ∧ b ≠ 0) : splitValue prevCh 0 acc v = some (acc ++ v) := by
  induction v generalizing prevCh acc with
  | nil => rw [splitValue, if_pos rfl, List.append_nil]
  | cons b v ih =>
    obtain ⟨hsingle, hdouble, -, hequals, hzero⟩ := hv b List.mem_cons_self
    rw [splitValue, if_neg fun h => hequals h.2, if_neg fun h => h.2.elim hsingle hdouble,
      if_neg fun h => hzero h.1.symm,
      if_neg fun h => hzero h.2, ih fun c hc => hv c (List.mem_cons_of_mem _ hc), List.append_assoc,
        List.singleton_append]

lemma splitArg_inline (hname : 61 ∉ name) (hv : ∀ b ∈ v, b ≠ 39 ∧ b ≠ 34 ∧ b ≠ 92 ∧ b ≠ 61 ∧ b ≠ 0) :
    splitArg (name ++ 61 :: v) = .ok (name, v) := by
  have hall : ∀ b ∈ name, decide (b ≠ 61) = true := fun b hb => decide_eq_true fun heq => hname (heq ▸ hb)
  have htake : (name ++ 61 :: v).takeWhile (· ≠ 61) = name := by
    rw [List.takeWhile_append_of_pos hall, List.takeWhile_cons_of_neg (by simp), List.append_nil]
  have hdrop : (name ++ 61 :: v).dropWhile (· ≠ 61) = 61 :: v := by
    rw [List.dropWhile_append_of_pos hall, List.dropWhile_cons_of_neg (by simp)]
  rw [splitArg, if_pos (List.mem_append_right _ List.mem_cons_self), hdrop, List.tail_cons, splitValue_plain hv, htake]
  rfl

lemma splitArg_name (hname : 61 ∉ name) : splitArg name = .ok (name, []) := by
  rw [splitArg, if_neg hname]
  rfl

lemma dashes_append (name : Bytes) : (ascii "--" ++ name).drop 2 = name := rfl

lemma isPrefixOf_dashes (name : Bytes) : (ascii "--").isPrefixOf (ascii "--" ++ name) = true :=
  List.isPrefixOf_iff_prefix.2 (List.prefix_append _ _)

lemma dashes_append_ne (hname : name ≠ []) : ascii "--" ++ name ≠ ascii "--" := fun h =>
  hname (List.append_right_eq_self.1 h)

/-- What becomes of the value that stands behind an equals sign, before a token. -/
lemma Declared.parse_inline (hp : Declared p) (harg : arg ∈ p.allArgs) (htype : arg.type ≠ .positional)
    (hv : ∀ b ∈ v, b ≠ 39 ∧ b ≠ 34 ∧ b ≠ 92 ∧ b ≠ 61 ∧ b ≠ 0) :
    p.parseFrom (p.allArgs.map (assigned σ)) 0 false ((ascii "--" ++ arg.name ++ 61 :: v) :: token :: rest) =
      if v ≠ [] then
        let args := modify (p.allArgs.map (assigned σ)) arg.name (·.setTo v)
        p.checkHelp args >>= fun _ => p.parseFrom args 0 false (token :: rest)
      else if isFlag token then setImplicitly (p.allArgs.map (assigned σ)) (assigned σ arg) >>= fun args =>
        p.checkHelp args >>= fun _ => p.parseFrom args 0 false (token :: rest)
      else
        let args := modify (p.allArgs.map (assigned σ)) arg.name (·.setTo token)
        p.checkHelp args >>= fun _ => p.parseFrom args 0 false rest := by
  obtain ⟨hne, -, hequals⟩ := hp.named arg harg
  rw [List.append_assoc, ArgumentParser.parseFrom, if_neg (dashes_append_ne (List.append_ne_nil_of_left_ne_nil hne _)),
    if_pos ⟨Bool.false_ne_true, isPrefixOf_dashes _⟩, dashes_append, splitArg_inline hequals hv, ok_bind]
  simp only [hp.findNamed_eq harg htype, assigned_name]

lemma Declared.parse_separate (hp : Declared p) (harg : arg ∈ p.allArgs) (htype : arg.type ≠ .positional)
    (hv : isFlag v = false) :
    p.parseFrom (p.allArgs.map (assigned σ)) 0 false ((ascii "--" ++ arg.name) :: v :: rest) =
      (let args := modify (p.allArgs.map (assigned σ)) arg.name (·.setTo v)
      p.checkHelp args >>= fun _ => p.parseFrom args 0 false rest) := by
  obtain ⟨hne, -, hequals⟩ := hp.named arg harg
  rw [ArgumentParser.parseFrom, if_neg (dashes_append_ne hne), if_pos ⟨Bool.false_ne_true, isPrefixOf_dashes _⟩,
    dashes_append, splitArg_name hequals, ok_bind]
  simp only [hp.findNamed_eq harg htype, assigned_name, ne_eq, not_true_eq_false, if_false, hv, Bool.false_eq_true]

lemma Declared.parse_aliased (hp : Declared p) (harg : arg ∈ p.allArgs) (halias : arg.aliasName ≠ [])
    (hdash : arg.aliasName.head? ≠ some 45) (hv : isFlag v = false) :
    p.parseFrom (p.allArgs.map (assigned σ)) 0 false ((45 :: arg.aliasName) :: v :: rest) =
      (let args := modify (p.allArgs.map (assigned σ)) arg.name (·.setTo v)
      p.checkHelp args >>= fun _ => p.parseFrom args 0 false rest) := by
  have hmarker : 45 :: arg.aliasName ≠ ascii "--" := fun h => hdash (by rw [(List.cons.inj h).2]; rfl)
  have hnamed : ¬ (¬ false = true ∧ (ascii "--").isPrefixOf (45 :: arg.aliasName) = true) := by
    rintro ⟨-, h⟩
    obtain ⟨after, h⟩ := List.isPrefixOf_iff_prefix.1 h
    exact hdash (by rw [← (List.cons.inj h).2]; rfl)
  rw [ArgumentParser.parseFrom, if_neg hmarker, if_neg hnamed, if_pos ⟨Bool.false_ne_true, rfl⟩]
  simp only [List.tail_cons, hp.findAliased_eq harg halias, assigned_name, hv, Bool.false_eq_true, if_false]

lemma isFlag_of_head (hv : v.head? ≠ some 45) : isFlag v = false := by
  unfold isFlag
  rw [Bool.or_eq_false_iff]
  constructor
  · refine Bool.eq_false_iff.2 fun h => ?_
    obtain ⟨after, rfl⟩ := List.isPrefixOf_iff_prefix.1 h
    exact hv rfl
  · split
    · exact absurd rfl hv
    · rfl

/-- An argument that is given, in tokens that are not taken for others. -/
structure Assignment.Tokenized (p : ArgumentParser) (a : Assignment) : Prop where
  mem : a.arg ∈ p.allArgs
  notHelp : a.arg.name ≠ p.helpArgName
  type : a.arg.type ≠ .positional
  plain : ∀ b ∈ a.value, b ≠ 39 ∧ b ≠ 34 ∧ b ≠ 92 ∧ b ≠ 61 ∧ b ≠ 0
  separate : a.form ≠ .inline → a.value.head? ≠ some 45
  aliased : a.form = .aliased → a.arg.aliasName ≠ [] ∧ a.arg.aliasName.head? ≠ some 45

namespace Declared

lemma eq_of_name (hp : Declared p) {x : Argument} (hx : x ∈ p.allArgs) (harg : arg ∈ p.allArgs)
    (h : x.name = arg.name) :
    x = arg := List.inj_on_of_nodup_map hp.names hx harg h

lemma setTo_eq (hp : Declared p) (harg : arg ∈ p.allArgs) (hne : arg.name ≠ p.helpArgName) (hσ : σ arg.name = none) :
    modify (p.allArgs.map (assigned σ)) arg.name (·.setTo v) =
      p.allArgs.map (assigned (Function.update σ arg.name (some (.string v)))) := by
  refine modify_assigned fun x hx hname => ?_
  obtain rfl := hp.eq_of_name hx harg hname
  obtain ⟨s, hs⟩ := hp.strings x hx hne
  rw [assigned_of_none hσ, Argument.setTo, hs, Argument.parse]

lemma setImplicitly_eq (hp : Declared p) (harg : arg ∈ p.allArgs) (hσ : σ arg.name = none)
    (hval : arg.implicitValue = some val) : setImplicitly (p.allArgs.map (assigned σ)) (assigned σ arg) =
      .ok (p.allArgs.map (assigned (Function.update σ arg.name (some val)))) := by
  rw [assigned_of_none hσ, setImplicitly, Argument.setImplicit, hval]
  refine congrArg Except.ok (modify_assigned fun x hx hname => ?_)
  rw [hp.eq_of_name hx harg hname, hval]

lemma update_help (hne : arg.name ≠ p.helpArgName) (hhelp : σ p.helpArgName = none) (o : Option Value) :
    Function.update σ arg.name o p.helpArgName = none := by
  rw [Function.update_of_ne hne.symm, hhelp]

/-- What is read of an assignment that stands before a token. -/
lemma parse_tokens (hp : Declared p) (ha : a.Tokenized p) (hσ : σ a.arg.name = none) (hhelp : σ p.helpArgName = none) :
    p.parseFrom (p.allArgs.map (assigned σ)) 0 false (a.tokens ++ token :: rest) =
      if a.form = .inline ∧ a.value = [] then
        if isFlag token then
          match a.arg.implicitValue with
          | none => fail "No implicit value set: " a.arg.name
          | some val => p.parseFrom (p.allArgs.map (assigned (Function.update σ a.arg.name (some val)))) 0 false
              (token :: rest)
        else p.parseFrom (p.allArgs.map (assigned (Function.update σ a.arg.name (some (.string token))))) 0 false rest
      else p.parseFrom (p.allArgs.map (assigned (Function.update σ a.arg.name (some (.string a.value))))) 0 false
          (token :: rest) := by
  have hcheck : ∀ val, p.checkHelp (p.allArgs.map (assigned (Function.update σ a.arg.name (some val)))) = .ok () :=
    fun val => hp.checkHelp_eq (update_help ha.notHelp hhelp _)
  have hgive : ∀ v, modify (p.allArgs.map (assigned σ)) a.arg.name (·.setTo v) =
      p.allArgs.map (assigned (Function.update σ a.arg.name (some (.string v)))) := fun v =>
    hp.setTo_eq ha.mem ha.notHelp hσ
  cases hform : a.form with
  | inline =>
    rw [Assignment.tokens, hform]
    simp only [List.singleton_append, true_and]
    rw [hp.parse_inline ha.mem ha.type ha.plain]
    by_cases hv : a.value = []
    · rw [if_neg (not_not.2 hv), if_pos hv]
      by_cases hflag : isFlag token = true
      · rw [if_pos hflag, if_pos hflag]
        cases hval : a.arg.implicitValue with
        | none =>
          rw [assigned_of_none hσ, setImplicitly, Argument.setImplicit, hval]
          rfl
        | some val => rw [hp.setImplicitly_eq ha.mem hσ hval, ok_bind, hcheck, ok_bind]
      · rw [if_neg hflag, if_neg hflag]
        simp only [hgive, hcheck, ok_bind]
    · rw [if_pos hv, if_neg hv]
      simp only [hgive, hcheck, ok_bind]
  | separate =>
    have hv : isFlag a.value = false := isFlag_of_head (ha.separate (by rw [hform]; exact nofun))
    rw [Assignment.tokens, hform, if_neg fun h => nomatch h.1]
    simp only [List.cons_append, List.nil_append]
    rw [hp.parse_separate ha.mem ha.type hv]
    simp only [hgive, hcheck, ok_bind]
  | aliased =>
    have hv : isFlag a.value = false := isFlag_of_head (ha.separate (by rw [hform]; exact nofun))
    obtain ⟨halias, hdash⟩ := ha.aliased hform
    rw [Assignment.tokens, hform, if_neg fun h => nomatch h.1]
    simp only [List.cons_append, List.nil_append]
    rw [hp.parse_aliased ha.mem halias hdash hv]
    simp only [hgive, hcheck, ok_bind]

end Declared

/-! ## Lines that are read back -/

lemma line_eq_cons (as : List Assignment) (ps : List Bytes) :
    ∃ token rest, line as ps = token :: rest ∧ (line as []).head? = some token := by
  cases as with
  | nil => exact ⟨_, _, rfl, rfl⟩
  | cons a as =>
    obtain ⟨arg, form, value⟩ := a
    cases form <;> exact ⟨_, _, rfl, rfl⟩

lemma line_cons : line (a :: as) ps = a.tokens ++ line as ps := by
  rw [line, List.flatMap_cons, List.append_assoc, line]

lemma isFlag_dashes (after : Bytes) : isFlag (ascii "--" ++ after) = true := by
  unfold isFlag
  rw [isPrefixOf_dashes, Bool.true_or]

/-- The named part of a line, where every assignment is kept. -/
lemma Declared.parse_named (ps : List Bytes) (hp : Declared p) (htokens : ∀ a ∈ as, a.Tokenized p) (hkept : Kept as)
    (hσ : ∀ a ∈ as, σ a.arg.name = none) (honce : (as.map (·.arg.name)).Nodup) (hhelp : σ p.helpArgName = none) :
    p.parseFrom (p.allArgs.map (assigned σ)) 0 false (line as ps) =
      p.parseFrom (p.allArgs.map (assigned ((as.map fun a => (a.arg.name, a.value)).foldl give σ))) 0 true ps := by
  induction as generalizing σ with
  | nil =>
    change p.parseFrom _ 0 false (ascii "--" :: ps) = _
    rw [ArgumentParser.parseFrom_marker, hp.checkHelp_eq hhelp, ok_bind]
    rfl
  | cons a as ih =>
    rw [List.map_cons, List.nodup_cons] at honce
    have ha := htokens a List.mem_cons_self
    have hσa := hσ a List.mem_cons_self
    have hfresh : ∀ b ∈ as, Function.update σ a.arg.name (some (.string a.value)) b.arg.name = none := by
      intro b hb
      have hne : b.arg.name ≠ a.arg.name := fun heq => honce.1 (heq ▸ List.mem_map_of_mem (f := (·.arg.name)) hb)
      rw [Function.update_of_ne hne, hσ b (List.mem_cons_of_mem _ hb)]
    have hnext := ih (fun b hb => htokens b (List.mem_cons_of_mem _ hb)) hkept.2 hfresh honce.2
      (update_help ha.notHelp hhelp _)
    rw [List.map_cons, List.foldl_cons, give, ← hnext, line_cons]
    obtain ⟨token, rest, hline, hhead⟩ := line_eq_cons as ps
    rw [hline, hp.parse_tokens ha hσa hhelp]
    by_cases hempty : a.form = .inline ∧ a.value = []
    · obtain ⟨himplicit, hflag⟩ := hkept.1 hempty.1 hempty.2
      rw [if_pos hempty, if_pos (hflag token hhead), himplicit, hempty.2]
    · rw [if_neg hempty]

/-- Positional arguments from one on, those that are not given by name, are given these values. -/
lemma Declared.parse_positional (hp : Declared p) (before after : List Argument)
    (hargs : positionalArgs p.allArgs = before ++ after) (hunmarked : ascii "--" ∉ ps)
    (hfits : ps.length ≤ (after.filter fun arg => (σ arg.name).isNone).length) (hhelp : σ p.helpArgName = none) :
    p.parseFrom (p.allArgs.map (assigned σ)) before.length true ps =
      .ok (p.allArgs.map (assigned ((((after.filter fun arg => (σ arg.name).isNone).map Argument.name).zip ps).foldl
        give σ))) := by
  induction ps generalizing σ before after with
  | nil =>
    rw [List.zip_nil_right, List.foldl_nil, ArgumentParser.parseFrom]
    rfl
  | cons token ps ih =>
    rw [List.mem_cons, not_or] at hunmarked
    obtain ⟨found, left, hleft⟩ := List.exists_cons_of_length_pos (Nat.lt_of_lt_of_le (Nat.succ_pos ps.length) hfits)
    obtain ⟨set, later, rfl, hset, hfound, hlater⟩ := List.filter_eq_cons_iff.1 hleft
    have hmem : ∀ {x}, x ∈ before ++ (set ++ found :: later) → x ∈ p.allArgs ∧ x.type ≠ .named := fun hx => by
      rw [← hargs] at hx
      exact ⟨List.mem_of_mem_filter hx, of_decide_eq_true (List.mem_filter.1 hx).2⟩
    obtain ⟨harg, htype⟩ := hmem (List.mem_append_right before (List.mem_append_right set List.mem_cons_self))
    have hσ : σ found.name = none := Option.isNone_iff_eq_none.1 hfound
    have hne : found.name ≠ p.helpArgName := fun heq => by
      obtain ⟨help, hmemHelp, hname, hnamed, -⟩ := hp.help
      exact htype (hp.eq_of_name harg hmemHelp (heq.trans hname.symm) ▸ hnamed)
    have hassigned : positionalArgs (p.allArgs.map (assigned σ)) =
        (before.map (assigned σ) ++ set.map (assigned σ)) ++ assigned σ found :: later.map (assigned σ) := by
      rw [positionalArgs, List.filter_map, ← List.map_append, ← List.map_cons, ← List.map_append, List.append_assoc,
        ← hargs]
      exact congrArg _ (List.filter_congr fun x _ => by rw [Function.comp_apply, assigned_type])
    have hskip : skipSet (p.allArgs.map (assigned σ)) before.length =
        (before.map (assigned σ) ++ set.map (assigned σ)).length := by
      have hvalueSet : ∀ x ∈ set.map (assigned σ), x.valueSet = true := by
        intro x hx
        obtain ⟨y, hy, rfl⟩ := List.mem_map.1 hx
        obtain ⟨val, hval⟩ := Option.ne_none_iff_exists'.1 fun h =>
          hset y hy (Option.isNone_iff_eq_none.2 h)
        rw [assigned, hval]
      have hunset : ¬ (assigned σ found).valueSet = true := by
        rw [assigned_of_none hσ, hp.fresh found harg]
        exact Bool.false_ne_true
      rw [skipSet, hassigned, List.append_assoc, List.drop_left' (by rw [List.length_map]),
        List.takeWhile_append_of_pos hvalueSet, List.takeWhile_cons_of_neg hunset, List.append_nil, List.length_append,
        List.length_map, List.length_map]
    have hnames : ((before ++ set ++ [found]) ++ later).map Argument.name |>.Nodup := by
      have hsub : (positionalArgs p.allArgs).map Argument.name |>.Nodup := hp.names.sublist (List.filter_sublist.map _)
      rw [hargs] at hsub
      simpa only [List.append_assoc, List.singleton_append] using hsub
    have hfilter : (later.filter fun arg => (Function.update σ found.name (some (.string token)) arg.name).isNone) =
      left := by
      rw [← hlater]
      refine List.filter_congr fun x hx => ?_
      have hxne : x.name ≠ found.name := fun heq => by
        rw [List.map_append, List.nodup_append] at hnames
        exact hnames.2.2 found.name (List.mem_map_of_mem (List.mem_append_right _ List.mem_cons_self)) x.name
          (List.mem_map_of_mem hx) heq.symm
      rw [Function.update_of_ne hxne]
    have hargs' : positionalArgs p.allArgs = (before ++ set ++ [found]) ++ later := by
      rw [hargs]
      simp only [List.append_assoc, List.singleton_append]
    have hlength : (before.map (assigned σ) ++ set.map (assigned σ)).length + 1 =
      (before ++ set ++ [found]).length := by
      simp only [List.length_append, List.length_map, List.length_singleton]
    rw [hleft, List.length_cons, List.length_cons] at hfits
    rw [ArgumentParser.parseFrom_positional (fun heq => hunmarked.1 heq.symm) (.inl rfl), hskip, hassigned,
      List.getElem?_append_right (Nat.le_refl _), Nat.sub_self, List.getElem?_cons_zero]
    simp only [assigned_name, hp.setTo_eq harg hne hσ, hp.checkHelp_eq (update_help hne hhelp _), ok_bind, hlength]
    rw [ih _ _ hargs' hunmarked.2 (by rw [hfilter]; omega) (update_help hne hhelp _), hfilter, hleft, List.map_cons,
      List.zip_cons_cons, List.foldl_cons, give]

lemma given_append (values values' : List (Bytes × Bytes)) : given (values ++ values') =
    values'.foldl give (given values) := by
  rw [given, List.foldl_append, given]

lemma given_eq_none_iff (values : List (Bytes × Bytes)) : given values name = none ↔ name ∉ values.map Prod.fst := by
  induction values using List.reverseRecOn with
  | nil => exact iff_of_true rfl List.not_mem_nil
  | append_singleton values kv ih =>
    rw [given_append, List.foldl_cons, List.foldl_nil, give, List.map_append, List.map_singleton, List.mem_append,
      List.mem_singleton, not_or]
    by_cases h : name = kv.1
    · rw [h, Function.update_self]
      exact iff_of_false (Option.some_ne_none _) fun hnot => hnot.2 rfl
    · rw [Function.update_of_ne h, ih]
      exact (and_iff_left h).symm

namespace Declared

lemma assigned_empty (p : ArgumentParser) : p.allArgs.map (assigned fun _ => none) = p.allArgs :=
  (List.map_congr_left fun _ _ => rfl).trans (List.map_id _)

/-- The whole line is read, where every assignment is kept. -/
lemma parse_line (hp : Declared p) (hl : Assignable p as ps) (htokens : ∀ a ∈ as, a.Tokenized p) (hkept : Kept as) :
    p.parseFrom p.allArgs 0 false (line as ps) = .ok (p.allArgs.map (assigned (given (values p as ps)))) := by
  have hremaining : ((positionalArgs p.allArgs).filter fun arg =>
      (given (as.map fun a => (a.arg.name, a.value)) arg.name).isNone) = remaining p as := by
    refine List.filter_congr fun x _ => ?_
    rw [Bool.eq_iff_iff, Option.isNone_iff_eq_none, given_eq_none_iff, decide_eq_true_iff, List.map_map]
    rfl
  have hhelp : given (as.map fun a => (a.arg.name, a.value)) p.helpArgName = none := by
    rw [given_eq_none_iff, List.map_map]
    intro hmem
    obtain ⟨a, ha, heq⟩ := List.mem_map.1 hmem
    exact (htokens a ha).notHelp heq
  have hnamed := hp.parse_named ps (σ := fun _ => none) htokens hkept (fun _ _ => rfl) hl.once rfl
  rw [assigned_empty] at hnamed
  have hpositional := hp.parse_positional [] (positionalArgs p.allArgs) rfl hl.unmarked
    (by rw [hremaining]; exact hl.fits) hhelp
  rw [hremaining, ← given_append] at hpositional
  exact hnamed.trans hpositional

lemma updateReferences_eq (hp : Declared p) : p.updateReferences = .ok () := by
  have hfold : ∀ (args : List Argument) (seen : List Bytes),
      ((args.map Argument.aliasName).filter (· ≠ [])).Nodup →
      (∀ arg ∈ args, arg.aliasName ≠ [] → arg.aliasName ∉ seen) → ∃ seen' : List Bytes, args.foldlM (fun seen arg =>
        if arg.aliasName = [] then pure seen
        else if arg.aliasName ∈ seen then fail "Duplicate argument with alias: " arg.aliasName
        else pure (arg.aliasName :: seen)) seen = (.ok seen' : Result (List Bytes)) := by
    intro args
    induction args with
    | nil => exact fun seen _ _ => ⟨seen, rfl⟩
    | cons arg args ih =>
      intro seen hnodup hseen
      rw [List.foldlM_cons]
      by_cases hempty : arg.aliasName = []
      · rw [List.map_cons, List.filter_cons_of_neg (by simp [hempty])] at hnodup
        rw [if_pos hempty]
        exact ih seen hnodup fun x hx => hseen x (List.mem_cons_of_mem _ hx)
      · rw [List.map_cons, List.filter_cons_of_pos (by simp [hempty]), List.nodup_cons] at hnodup
        rw [if_neg hempty, if_neg (hseen arg List.mem_cons_self hempty)]
        refine ih _ hnodup.2 fun x hx hne => ?_
        rw [List.mem_cons, not_or]
        refine ⟨fun heq => hnodup.1 ?_, hseen x (List.mem_cons_of_mem _ hx) hne⟩
        exact List.mem_filter.2 ⟨List.mem_map.2 ⟨x, hx, heq⟩, decide_eq_true hempty⟩
  obtain ⟨seen, hseen⟩ := hfold p.allArgs [] hp.aliases fun _ _ _ => List.not_mem_nil
  rw [ArgumentParser.updateReferences, hseen]
  rfl

end Declared

lemma check_eq {args : List Argument} (hok : ∀ arg ∈ args, arg.validator.all (· arg.value) = true ∧
    (arg.required = true → arg.defaultValueSet = true ∨ arg.valueSet = true)) : ArgumentParser.check args = .ok () := by
  induction args with
  | nil => rfl
  | cons arg args ih =>
    obtain ⟨hvalid, hrequired⟩ := hok arg List.mem_cons_self
    have hset : (!arg.required || arg.valueSet || arg.defaultValueSet) = true := by
      rw [Bool.or_assoc, Bool.or_eq_true, Bool.not_eq_true', Bool.or_eq_true]
      cases hr : arg.required with
      | false => exact .inl rfl
      | true => exact .inr (hrequired hr).symm
    rw [ArgumentParser.check, Argument.ok, if_pos hvalid]
    change (if (!arg.required || arg.valueSet || arg.defaultValueSet) = true then ArgumentParser.check args else _) = _
    rw [if_pos hset]
    exact ih fun x hx => hok x (List.mem_cons_of_mem _ hx)

lemma Declared.readBack_of_kept (hp : Declared p) (hl : Assignable p as ps) (htokens : ∀ a ∈ as, a.Tokenized p)
    (hkept : Kept as) : ReadBack p as ps := by
  refine ⟨p.allArgs.map (assigned (given (values p as ps))), ?_, ?_⟩
  · rw [ArgumentParser.parseArgs, hp.updateReferences_eq, ok_bind, hp.parse_line hl htokens hkept, ok_bind, check_eq]
    · rfl
    · intro x hx
      obtain ⟨arg, harg, rfl⟩ := List.mem_map.1 hx
      have hvalidator : (assigned (given (values p as ps)) arg).validator = arg.validator := by
        rw [assigned]
        cases given (values p as ps) arg.name <;> rfl
      rw [hvalidator, assigned_value]
      refine ⟨hl.valid arg harg, fun hrequired => ?_⟩
      have hcovers := hl.covers arg harg
      rw [assigned] at hrequired ⊢
      cases hgiven : given (values p as ps) arg.name with
      | none =>
        rw [hgiven] at hrequired
        exact (hcovers hrequired).imp_right fun h => absurd hgiven h
      | some val => exact .inr rfl
  · rw [List.map_map]
    refine List.map_congr_left fun arg _ => ?_
    rw [Function.comp_apply, assigned_name, assigned_value]

/-! ## Lines that are not read back -/

lemma token_of_line {as : List Assignment} (hline : line as ps = token :: rest) : token.head? = some 45 := by
  cases as with
  | nil =>
    obtain ⟨rfl, -⟩ := List.cons.inj hline
    rfl
  | cons a as =>
    obtain ⟨arg, form, value⟩ := a
    cases form <;> obtain ⟨rfl, -⟩ := List.cons.inj hline <;> rfl

/-- A token that is not taken for a flag is an alias, before its value. -/
lemma value_of_line (htokens : ∀ a ∈ as, a.Tokenized p) (hline : line as ps = token :: rest)
    (hflag : isFlag token = false) : ∃ v rest', rest = v :: rest' ∧ v.head? ≠ some 45 := by
  have hdashes : ∀ after : Bytes, token ≠ ascii "--" ++ after := fun after heq => by
    rw [heq, isFlag_dashes] at hflag
    exact Bool.noConfusion hflag
  cases as with
  | nil => exact absurd (List.cons.inj hline).1.symm (hdashes [])
  | cons a as =>
    have ha := htokens a List.mem_cons_self
    obtain ⟨arg, form, value⟩ := a
    cases form with
    | inline => exact absurd (List.cons.inj hline).1.symm (hdashes _)
    | separate => exact absurd (List.cons.inj hline).1.symm (hdashes _)
    | aliased => exact ⟨value, _, (List.cons.inj hline).2.symm, ha.separate nofun⟩

namespace Declared

lemma names_assigned (hp : Declared p) : ((p.allArgs.map (assigned σ)).map Argument.name).Nodup := by
  rw [List.map_map]
  exact (List.map_congr_left fun arg _ => assigned_name).symm ▸ hp.names

/-- Once a token has been taken as a value, what is set stays so. -/
lemma mem_of_value (hp : Declared p) {args : List Argument} (hv : v.head? ≠ some 45) (harg : arg ∈ p.allArgs)
    (hσ : σ arg.name = some val) (hparse : p.parseFrom (p.allArgs.map (assigned σ)) 0 false (v :: rest) = .ok args) :
    { arg with value := val, valueSet := true } ∈ args := by
  have hmarker : v ≠ ascii "--" := by
    rintro rfl
    exact hv rfl
  have hassigned : assigned σ arg = { arg with value := val, valueSet := true } := by rw [assigned, hσ]
  rw [ArgumentParser.parseFrom_positional hmarker (.inr hv), ← ArgumentParser.parseFrom_positional hmarker (.inl rfl)]
    at hparse
  exact ArgumentParser.mem_of_parseFrom_true hp.names_assigned (hassigned ▸ List.mem_map_of_mem harg) rfl hparse

/-- An argument that is set and not named again stays as it is. -/
lemma mem_of_named (hp : Declared p) {args : List Argument} (htokens : ∀ a ∈ as, a.Tokenized p)
    (hfresh : ∀ a ∈ as, σ a.arg.name = none) (honce : (as.map (·.arg.name)).Nodup) (hhelp : σ p.helpArgName = none)
    (harg : arg ∈ p.allArgs) (hσ : σ arg.name = some val) (hparse : p.parseFrom (p.allArgs.map (assigned σ)) 0 false
      (line as ps) = .ok args) : { arg with value := val, valueSet := true } ∈ args := by
  induction as generalizing σ with
  | nil =>
    have hassigned : assigned σ arg = { arg with value := val, valueSet := true } := by rw [assigned, hσ]
    rw [line, List.flatMap_nil, List.nil_append, ArgumentParser.parseFrom_marker] at hparse
    obtain ⟨_, _, hparse⟩ := bind_eq_ok hparse
    exact ArgumentParser.mem_of_parseFrom_true hp.names_assigned (hassigned ▸ List.mem_map_of_mem harg) rfl hparse
  | cons a as ih =>
    rw [List.map_cons, List.nodup_cons] at honce
    have ha := htokens a List.mem_cons_self
    have hσa := hfresh a List.mem_cons_self
    have htokens' : ∀ b ∈ as, b.Tokenized p := fun b hb => htokens b (List.mem_cons_of_mem _ hb)
    have hfresh' : ∀ o, ∀ b ∈ as, Function.update σ a.arg.name o b.arg.name = none := by
      intro o b hb
      have hne : b.arg.name ≠ a.arg.name := fun heq => honce.1 (heq ▸ List.mem_map_of_mem (f := (·.arg.name)) hb)
      rw [Function.update_of_ne hne, hfresh b (List.mem_cons_of_mem _ hb)]
    have hσ' : ∀ o, Function.update σ a.arg.name o arg.name = some val := fun o => by
      have hne : arg.name ≠ a.arg.name := fun heq => by
        rw [heq, hσa] at hσ
        exact nomatch hσ
      rw [Function.update_of_ne hne, hσ]
    obtain ⟨token, rest, hline, -⟩ := line_eq_cons as ps
    rw [line_cons, hline, hp.parse_tokens ha hσa hhelp] at hparse
    by_cases hempty : a.form = .inline ∧ a.value = []
    · rw [if_pos hempty] at hparse
      by_cases hflag : isFlag token = true
      · rw [if_pos hflag] at hparse
        cases hval : a.arg.implicitValue with
        | none =>
          rw [hval] at hparse
          exact nomatch hparse
        | some val' =>
          rw [hval, ← hline] at hparse
          exact ih htokens' (hfresh' _) honce.2 (update_help ha.notHelp hhelp _) (hσ' _) hparse
      · rw [if_neg hflag] at hparse
        obtain ⟨v, rest', rfl, hv⟩ := value_of_line htokens' hline (Bool.eq_false_iff.2 hflag)
        exact hp.mem_of_value hv harg (hσ' _) hparse
    · rw [if_neg hempty, ← hline] at hparse
      exact ih htokens' (hfresh' _) honce.2 (update_help ha.notHelp hhelp _) (hσ' _) hparse

/-- Where an assignment is not kept, an argument holds something else. -/
lemma exists_of_not_kept (hp : Declared p) {args : List Argument} (htokens : ∀ a ∈ as, a.Tokenized p)
    (hkept : ¬ Kept as)
    (hfresh : ∀ a ∈ as, σ a.arg.name = none) (honce : (as.map (·.arg.name)).Nodup) (hhelp : σ p.helpArgName = none)
    (hparse : p.parseFrom (p.allArgs.map (assigned σ)) 0 false (line as ps) = .ok args) :
    ∃ a ∈ as, ∃ val ≠ .string a.value, { a.arg with value := val, valueSet := true } ∈ args := by
  induction as generalizing σ with
  | nil => exact absurd trivial hkept
  | cons a as ih =>
    rw [List.map_cons, List.nodup_cons] at honce
    have ha := htokens a List.mem_cons_self
    have hσa := hfresh a List.mem_cons_self
    have htokens' : ∀ b ∈ as, b.Tokenized p := fun b hb => htokens b (List.mem_cons_of_mem _ hb)
    have hfresh' : ∀ o, ∀ b ∈ as, Function.update σ a.arg.name o b.arg.name = none := by
      intro o b hb
      have hne : b.arg.name ≠ a.arg.name := fun heq => honce.1 (heq ▸ List.mem_map_of_mem (f := (·.arg.name)) hb)
      rw [Function.update_of_ne hne, hfresh b (List.mem_cons_of_mem _ hb)]
    have hgoes : ∀ o, ¬ Kept as → p.parseFrom (p.allArgs.map (assigned (Function.update σ a.arg.name o))) 0 false
        (line as ps) = .ok args → ∃ b ∈ a :: as, ∃ val ≠ .string b.value,
          { b.arg with value := val, valueSet := true } ∈ args := by
      intro o hkept' hparse'
      obtain ⟨b, hb, hval⟩ := ih htokens' hkept' (hfresh' o) honce.2 (update_help ha.notHelp hhelp _) hparse'
      exact ⟨b, List.mem_cons_of_mem _ hb, hval⟩
    obtain ⟨token, rest, hline, hhead⟩ := line_eq_cons as ps
    rw [line_cons, hline, hp.parse_tokens ha hσa hhelp] at hparse
    by_cases hempty : a.form = .inline ∧ a.value = []
    · rw [if_pos hempty] at hparse
      by_cases hflag : isFlag token = true
      · rw [if_pos hflag] at hparse
        cases hval : a.arg.implicitValue with
        | none =>
          rw [hval] at hparse
          exact nomatch hparse
        | some val =>
          rw [hval, ← hline] at hparse
          by_cases heq : val = .string []
          · refine hgoes _ (fun hkept' => hkept ⟨fun _ _ => ⟨by rw [hval, heq], fun t ht => ?_⟩, hkept'⟩) hparse
            obtain rfl := Option.some.inj (hhead.symm.trans ht)
            exact hflag
          · exact ⟨a, List.mem_cons_self, val, hempty.2 ▸ heq, hp.mem_of_named htokens' (hfresh' _) honce.2
              (update_help ha.notHelp hhelp _) ha.mem (Function.update_self ..) hparse⟩
      · rw [if_neg hflag] at hparse
        obtain ⟨v, rest', rfl, hv⟩ := value_of_line htokens' hline (Bool.eq_false_iff.2 hflag)
        refine ⟨a, List.mem_cons_self, .string token, ?_, hp.mem_of_value hv ha.mem (Function.update_self ..) hparse⟩
        rw [hempty.2]
        intro heq
        have hdash := token_of_line hline
        rw [Value.string.inj heq] at hdash
        exact nomatch hdash
    · rw [if_neg hempty, ← hline] at hparse
      exact hgoes _ (fun hkept' => hkept ⟨fun hform hvalue => absurd ⟨hform, hvalue⟩ hempty, hkept'⟩) hparse

end Declared

lemma given_of_mem {values : List (Bytes × Bytes)} (hnodup : (values.map Prod.fst).Nodup) (hmem : (name, v) ∈ values) :
    given values name = some (.string v) := by
  induction values using List.reverseRecOn with
  | nil => exact absurd hmem List.not_mem_nil
  | append_singleton values kv ih =>
    rw [List.map_append, List.map_singleton, List.nodup_append] at hnodup
    rw [given_append, List.foldl_cons, List.foldl_nil, give]
    rcases List.mem_append.1 hmem with hmem | hmem
    · have hne : name ≠ kv.1 := hnodup.2.2 name (List.mem_map_of_mem hmem) kv.1 (List.mem_singleton_self _)
      rw [Function.update_of_ne hne, ih hnodup.1 hmem]
    · obtain rfl := List.mem_singleton.1 hmem
      rw [Function.update_self]

lemma map_fst_zip_sublist {α β : Type} (l : List α) (l' : List β) : ((l.zip l').map Prod.fst).Sublist l := by
  induction l generalizing l' with
  | nil => exact List.Sublist.refl []
  | cons x l ih =>
    cases l' with
    | nil => exact List.nil_sublist _
    | cons y l' => exact (ih l').cons_cons x

lemma Assignable.given_eq (hp : Declared p) (hl : Assignable p as ps) (ha : a ∈ as) :
    given (values p as ps) a.arg.name = some (.string a.value) := by
  have hkeys := map_fst_zip_sublist ((remaining p as).map Argument.name) ps
  refine given_of_mem ?_ (List.mem_append_left _ (List.mem_map.2 ⟨a, ha, rfl⟩))
  rw [values, List.map_append, List.map_map, List.nodup_append]
  refine ⟨hl.once, (hp.names.sublist ?_).sublist hkeys, fun n hn m hm heq => ?_⟩
  · exact (List.filter_sublist.trans List.filter_sublist).map _
  · obtain ⟨x, hx, rfl⟩ := List.mem_map.1 (hkeys.subset hm)
    exact of_decide_eq_true (List.mem_filter.1 hx).2 (heq ▸ hn)

/-- Where no alias that is given starts with a hyphen, a line is read back just if every assignment is kept. -/
theorem readBack_iff (hp : Declared p) (hl : Assignable p as ps)
    (hdash : ∀ a ∈ as, a.form = .aliased → a.arg.aliasName.head? ≠ some 45) : ReadBack p as ps ↔ Kept as := by
  have htokens : ∀ a ∈ as, a.Tokenized p := fun a ha => by
    obtain ⟨hmem, hne, htype⟩ := hl.known a ha
    exact ⟨hmem, hne, htype, hl.plain a ha, hl.separate a ha, fun hform => ⟨hl.aliased a ha hform, hdash a ha hform⟩⟩
  refine ⟨fun ⟨args, hparse, hargs⟩ => ?_, hp.readBack_of_kept hl htokens⟩
  by_contra hkept
  obtain ⟨_, -, hparse⟩ := bind_eq_ok hparse
  obtain ⟨args', hparse', hparse⟩ := bind_eq_ok hparse
  obtain ⟨_, -, hparse⟩ := bind_eq_ok hparse
  obtain rfl : args' = args := Except.ok.inj hparse
  rw [← Declared.assigned_empty] at hparse'
  obtain ⟨a, ha, val, hne, hmem⟩ := hp.exists_of_not_kept htokens hkept (fun _ _ => rfl) hl.once rfl hparse'
  have hpair : (a.arg.name, val) ∈ args'.map fun arg => (arg.name, arg.value) := List.mem_map_of_mem hmem
  rw [hargs] at hpair
  obtain ⟨x, -, hx⟩ := List.mem_map.1 hpair
  obtain ⟨hname, hvalue⟩ := Prod.mk.inj hx
  rw [expected, hname, hl.given_eq hp ha] at hvalue
  exact hne hvalue.symm

theorem readBack_iff_alias : ReadBack ⟨ascii "help", [({ name := ascii "help", type := .named } : Argument).asHelp
    (ascii "h"), { name := ascii "name", aliasName := ascii "n" }, { name := ascii "file", type := .positional }]⟩
    [⟨{ name := ascii "name", aliasName := ascii "n" }, .aliased, ascii "a b"⟩] [ascii "-"] := by
  have hp : Declared ⟨ascii "help", [({ name := ascii "help", type := .named } : Argument).asHelp (ascii "h")]⟩ :=
    declared_make (ascii "help") (ascii "h") rfl
  have hp' : Declared ⟨ascii "help", [({ name := ascii "help", type := .named } : Argument).asHelp (ascii "h"),
      { name := ascii "name", aliasName := ascii "n" }]⟩ :=
    hp.addArgument { name := ascii "name", aliasName := ascii "n" } rfl rfl (.inr (by decide)) rfl ⟨[], rfl⟩
  have hl : Assignable ⟨ascii "help", [({ name := ascii "help", type := .named } : Argument).asHelp (ascii "h"),
      { name := ascii "name", aliasName := ascii "n" }, { name := ascii "file", type := .positional }]⟩
      [⟨{ name := ascii "name", aliasName := ascii "n" }, .aliased, ascii "a b"⟩] [ascii "-"] := by
    refine ⟨?_, by decide, by decide +kernel, by decide, by decide, by decide, by decide, ?_, ?_⟩
    · intro a ha
      obtain rfl := List.mem_singleton.1 ha
      exact ⟨List.mem_cons_of_mem _ List.mem_cons_self, by decide, nofun⟩
    · intro arg harg hrequired
      simp only [List.mem_cons, List.not_mem_nil, or_false] at harg
      rcases harg with rfl | rfl | rfl <;> exact nomatch hrequired
    · intro arg harg
      simp only [List.mem_cons, List.not_mem_nil, or_false] at harg
      rcases harg with rfl | rfl | rfl <;> rfl
  exact (readBack_iff (hp'.addArgument { name := ascii "file", type := .positional } rfl rfl (.inl rfl) rfl ⟨[], rfl⟩) hl
    (by decide)).2 ⟨nofun, trivial⟩

/-- An empty value behind an equals sign is not told from none. -/
theorem readBack_failing : ¬ ∀ (p : ArgumentParser) (as : List Assignment) (ps : List Bytes), Declared p →
    Assignable p as ps → ReadBack p as ps := by
  intro h
  have hp : Declared ⟨ascii "help", [({ name := ascii "help", type := .named } : Argument).asHelp (ascii "h")]⟩ :=
    declared_make (ascii "help") (ascii "h") rfl
  have hp' : Declared ⟨ascii "help", [({ name := ascii "help", type := .named } : Argument).asHelp (ascii "h"),
      { name := ascii "name" }]⟩ := hp.addArgument { name := ascii "name" } rfl rfl (.inl rfl) rfl ⟨[], rfl⟩
  have hl : Assignable ⟨ascii "help", [({ name := ascii "help", type := .named } : Argument).asHelp (ascii "h"),
      { name := ascii "name" }]⟩ [⟨{ name := ascii "name" }, .inline, []⟩] [] := by
    refine ⟨?_, by decide, by decide +kernel, by decide, by decide, by decide, by decide, ?_, ?_⟩
    · intro a ha
      obtain rfl := List.mem_singleton.1 ha
      exact ⟨List.mem_cons_of_mem _ List.mem_cons_self, by decide, nofun⟩
    · intro arg harg hrequired
      simp only [List.mem_cons, List.not_mem_nil, or_false] at harg
      rcases harg with rfl | rfl <;> exact nomatch hrequired
    · intro arg harg
      simp only [List.mem_cons, List.not_mem_nil, or_false] at harg
      rcases harg with rfl | rfl <;> rfl
  obtain ⟨args, hparse, -⟩ := h _ _ [] hp' hl
  have herror : (ArgumentParser.parseArgs ⟨ascii "help", [({ name := ascii "help", type := .named } : Argument).asHelp
      (ascii "h"), { name := ascii "name" }]⟩ [ascii "--name=", ascii "--"]).toBool = false := by decide +kernel
  exact nomatch herror.symm.trans (congrArg Except.toBool hparse)

end CppExperiments.Argparse

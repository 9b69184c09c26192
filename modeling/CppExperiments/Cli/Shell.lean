import CppExperiments.Lib.Path
import CppExperiments.Lib.Text

/-!
# Shell

A line is split into words, the words are parsed into the commands of a pipe, and the first word of each command is
looked up. The only command without a word is the one that a pipe at the end of the line opens.
-/

namespace CppExperiments

open CppExperiments.Path (append)

namespace Shell

/-- What `split` keeps while it reads a line. -/
structure Scan where
  insideString : UInt8
  prevCh : UInt8
  acc : Bytes
  splits : List Bytes

def isQuote (ch : UInt8) : Bool := ch == 39 || ch == 34 || ch == 96

/-- The words, with one more if there is one. -/
def Scan.pushed (s : Scan) : List Bytes := if s.acc = [] then s.splits else s.splits ++ [s.acc]

/-- `pop_back`, which an empty string does not have. -/
def popBack (acc : Bytes) : Option Bytes := if acc = [] then none else some acc.dropLast

/-- One character of `split`. -/
def Scan.step (s : Scan) (ch : UInt8) : Option Scan :=
  if s.prevCh ≠ 92 ∧ isQuote ch then
    if s.insideString = 0 then some { s with insideString := ch, prevCh := ch }
    else if s.insideString = ch then some { s with insideString := 0, prevCh := ch }
    else some { s with acc := s.acc ++ [ch], prevCh := ch }
  else if s.insideString ≠ 0 ∨ ¬ isSpace ch then
    if s.insideString = 0 ∧ s.prevCh = 92 then
      (popBack s.acc).map fun acc => { s with acc := acc ++ [ch], prevCh := ch }
    else some { s with acc := s.acc ++ [ch], prevCh := ch }
  else some { s with acc := [], splits := s.pushed, prevCh := ch }

/-- `Shell::split`; `none` where it pops from an empty accumulator. -/
def split (line : Bytes) : Option (List Bytes) := (line.foldlM Scan.step ⟨0, 0, [], []⟩).map Scan.pushed

end Shell

/-- What a shell looks words up in. -/
structure Shell where
  homeDirectory : Bytes
  commands : Bytes → Option Bytes
  shellCommands : Bytes → Bool

namespace Shell

/-- What becomes of a command: it is not found, it is one of the shell's own, or a binary is run. -/
inductive Dispatch where
  | notFound (cmd : Bytes)
  | builtin (cmds : List Bytes)
  | binary (path : Bytes) (cmds : List Bytes)
deriving DecidableEq

variable {sh : Shell} {s t : Scan} {ch : UInt8} {line word piece : Bytes} {prev : Option Bytes}
  {words splits cmds : List Bytes} {result : List (List Bytes)}

/-- A word, with the home directory for a tilde. -/
def expand (sh : Shell) (piece : Bytes) : Bytes :=
  if piece = ascii "~" then sh.homeDirectory
  else if piece.take 2 = ascii "~/" then append sh.homeDirectory (piece.drop 2) else piece

/-- Whether the previous word ends with a semicolon; `none` where it has no last character. -/
def endsCommand : Option Bytes → Option Bool
  | none => some false
  | some previous => previous.getLast?.map (· == 59)

/-- `result.back().push_back(word)`. -/
def addWord (result : List (List Bytes)) (word : Bytes) : List (List Bytes) :=
  result.dropLast ++ [result.getLast?.getD [] ++ [word]]

/-- The loop of `Shell::parseSplits`, behind a word. -/
def parseFrom (sh : Shell) (result : List (List Bytes)) (prev : Option Bytes) :
    List Bytes → Option (List (List Bytes))
  | [] => some result
  | piece :: splits =>
    if piece = ascii "|" then
      if result ≠ [] ∧ result.getLast? ≠ some [] then sh.parseFrom (result ++ [[]]) (some piece) splits
      else some []
    else if piece = ascii "&&" ∨ piece = ascii "||" then some []
    else (endsCommand prev).bind fun ends =>
      if ends then some [] else sh.parseFrom (addWord result (sh.expand piece)) (some piece) splits

/-- `Shell::parseSplits`; `none` where it reads the last character of an empty word. -/
def parseSplits (sh : Shell) (splits : List Bytes) : Option (List (List Bytes)) := sh.parseFrom [] none splits

/-- `Shell::execute`, up to what the system does; `none` where there is no first word. -/
def execute (sh : Shell) (cmds : List Bytes) : Option Dispatch :=
  cmds.head?.map fun cmd =>
    if sh.shellCommands cmd then .builtin cmds
    else
      match sh.commands cmd with
      | some path => .binary path cmds
      | none => .notFound cmd

/-- `Shell::executePipe`, where every child is forked. -/
def executePipe (sh : Shell) (cmds : List (List Bytes)) : Option (List Dispatch) := cmds.mapM sh.execute

/-- One round of `Shell::run` on the commands that were parsed. -/
def dispatch (sh : Shell) (cmdsList : List (List Bytes)) : Option (List Dispatch) :=
  match cmdsList with
  | [] => some []
  | [cmds] => (sh.execute cmds).map ([·])
  | cmdsList => sh.executePipe cmdsList

/-- One round of `Shell::run` on a line. -/
def run (sh : Shell) (line : Bytes) : Option (List Dispatch) :=
  ((split line).bind sh.parseSplits).bind sh.dispatch

/-- Behind a backslash there is a character to pop, and no word is empty. -/
structure Scan.Sound (s : Scan) : Prop where
  popped : s.prevCh = 92 → s.acc ≠ []
  words : ∀ word ∈ s.splits, word ≠ []

lemma Scan.Sound.pushed (hs : s.Sound) : ∀ word ∈ s.pushed, word ≠ [] := by
  intro word hword
  by_cases hacc : s.acc = []
  · rw [Scan.pushed, if_pos hacc] at hword
    exact hs.words word hword
  · rw [Scan.pushed, if_neg hacc, List.mem_append, List.mem_singleton] at hword
    rcases hword with hword | rfl
    · exact hs.words word hword
    · exact hacc

lemma isQuote_ne (hch : isQuote ch = true) : ch ≠ 92 := by
  rintro rfl
  exact Bool.noConfusion hch

lemma isSpace_ne (hch : isSpace ch = true) : ch ≠ 92 := by
  rintro rfl
  exact Bool.noConfusion hch

lemma Scan.Sound.step (hs : s.Sound) (ch : UInt8) : ∃ t, s.step ch = some t ∧ t.Sound := by
  rw [Scan.step]
  by_cases hquote : s.prevCh ≠ 92 ∧ isQuote ch = true
  · rw [if_pos hquote]
    have hpopped : ch = 92 → ∀ acc : Bytes, acc ≠ [] := fun hch => absurd hch (isQuote_ne hquote.2)
    by_cases hinside : s.insideString = 0
    · rw [if_pos hinside]
      exact ⟨_, rfl, fun hch => hpopped hch _, hs.words⟩
    · rw [if_neg hinside]
      by_cases hclosed : s.insideString = ch
      · rw [if_pos hclosed]
        exact ⟨_, rfl, fun hch => hpopped hch _, hs.words⟩
      · rw [if_neg hclosed]
        exact ⟨_, rfl, fun hch => hpopped hch _, hs.words⟩
  · rw [if_neg hquote]
    by_cases hword : s.insideString ≠ 0 ∨ ¬ isSpace ch = true
    · rw [if_pos hword]
      by_cases hescaped : s.insideString = 0 ∧ s.prevCh = 92
      · rw [if_pos hescaped, popBack, if_neg (hs.popped hescaped.2)]
        exact ⟨_, rfl, fun _ => List.append_ne_nil_of_right_ne_nil _ (List.cons_ne_nil _ _), hs.words⟩
      · rw [if_neg hescaped]
        exact ⟨_, rfl, fun _ => List.append_ne_nil_of_right_ne_nil _ (List.cons_ne_nil _ _), hs.words⟩
    · rw [if_neg hword]
      have hspace : isSpace ch = true := not_not.1 (not_or.1 hword).2
      exact ⟨_, rfl, fun hch => absurd hch (isSpace_ne hspace), hs.pushed⟩

lemma Scan.Sound.foldlM (hs : s.Sound) (line : Bytes) : ∃ t, line.foldlM Scan.step s = some t ∧ t.Sound := by
  induction line generalizing s with
  | nil => exact ⟨s, rfl, hs⟩
  | cons ch line ih =>
    obtain ⟨t, hstep, ht⟩ := hs.step ch
    rw [List.foldlM_cons, hstep]
    exact ih ht

/-- Every line is split, into words that are not empty. -/
theorem exists_split (line : Bytes) : ∃ words, split line = some words ∧ ∀ word ∈ words, word ≠ [] := by
  have hs : Scan.Sound ⟨0, 0, [], []⟩ := ⟨fun h => absurd h (by decide), nofun⟩
  obtain ⟨t, hfold, ht⟩ := hs.foldlM line
  exact ⟨t.pushed, by rw [split, hfold, Option.map_some], ht.pushed⟩

example : split (ascii "ls -l \"a b\" | wc") = some [ascii "ls", ascii "-l", ascii "a b", ascii "|", ascii "wc"] := by
  decide +kernel

/-- A word that `parseSplits` refuses behind another one. -/
def Refuses (prev : Option Bytes) (piece : Bytes) : Prop :=
  if piece = ascii "|" then prev = none ∨ prev = some (ascii "|")
  else piece = ascii "&&" ∨ piece = ascii "||" ∨ ∃ previous ∈ prev, previous.getLast? = some 59

/-- Behind a word, one of these is refused. -/
def Refused (prev : Option Bytes) : List Bytes → Prop
  | [] => False
  | piece :: splits => Refuses prev piece ∨ Refused (some piece) splits

/-- What has been parsed behind a word: all commands hold a word, but for the one that a pipe opens. -/
inductive Parsed : Option Bytes → List (List Bytes) → Prop where
  | start : Parsed none []
  | command {previous : Bytes} {result : List (List Bytes)} : previous ≠ [] → previous ≠ ascii "|" → result ≠ [] →
      [] ∉ result → Parsed (some previous) result
  | pipe {result : List (List Bytes)} : result ≠ [] → [] ∉ result → Parsed (some (ascii "|")) (result ++ [[]])

lemma Parsed.pipe_iff (h : Parsed prev result) :
    result ≠ [] ∧ result.getLast? ≠ some [] ↔ ¬ (prev = none ∨ prev = some (ascii "|")) := by
  cases h with
  | start => exact iff_of_false (fun h => h.1 rfl) fun h => h (.inl rfl)
  | command hne hpipe hresult hwords =>
    refine iff_of_true ⟨hresult, fun hlast => hwords (List.mem_of_getLast? hlast)⟩ (fun h => ?_)
    rcases h with h | h
    · exact nomatch h
    · exact hpipe (Option.some.inj h)
  | pipe hresult hwords =>
    exact iff_of_false (fun h => h.2 List.getLast?_concat) fun h => h (.inr rfl)

lemma Parsed.opens (h : Parsed prev result) (hpipe : result ≠ [] ∧ result.getLast? ≠ some []) :
    Parsed (some (ascii "|")) (result ++ [[]]) := by
  refine .pipe hpipe.1 ?_
  cases h with
  | start => exact List.not_mem_nil
  | command hne hprev hresult hwords => exact hwords
  | pipe hresult hwords => exact absurd List.getLast?_concat hpipe.2

lemma addWord_concat (result : List (List Bytes)) (cmds : List Bytes) (word : Bytes) :
    addWord (result ++ [cmds]) word = result ++ [cmds ++ [word]] := by
  rw [addWord, List.dropLast_concat, List.getLast?_concat, Option.getD_some]

lemma not_mem_addWord (hresult : [] ∉ result.dropLast) : [] ∉ addWord result word := by
  rw [addWord, List.mem_append, List.mem_singleton, not_or]
  exact ⟨hresult, fun h => List.append_ne_nil_of_right_ne_nil _ (List.cons_ne_nil _ _) h.symm⟩

lemma Parsed.adds (h : Parsed prev result) (hpiece : piece ≠ []) (hpipe : piece ≠ ascii "|") :
    Parsed (some piece) (addWord result word) := by
  refine .command hpiece hpipe (List.append_ne_nil_of_right_ne_nil _ (List.cons_ne_nil _ _)) (not_mem_addWord ?_)
  cases h with
  | start => exact List.not_mem_nil
  | command hne hprev hresult hwords => exact fun hmem => hwords (List.dropLast_subset _ hmem)
  | pipe hresult hwords => rwa [List.dropLast_concat]

lemma Parsed.endsCommand (h : Parsed prev result) :
    ∃ ends, endsCommand prev = some ends ∧ (ends = true ↔ ∃ previous ∈ prev, previous.getLast? = some 59) := by
  have hlast : ∀ previous : Bytes, previous ≠ [] → ∃ ends, Shell.endsCommand (some previous) = some ends ∧
      (ends = true ↔ ∃ p ∈ some previous, p.getLast? = some 59) := by
    intro previous hne
    refine ⟨previous.getLast hne == 59, ?_, ?_⟩
    · rw [Shell.endsCommand, List.getLast?_eq_some_getLast hne, Option.map_some]
    · rw [beq_iff_eq]
      refine ⟨fun heq => ⟨previous, rfl, by rw [List.getLast?_eq_some_getLast hne, heq]⟩, fun ⟨p, hp, heq⟩ => ?_⟩
      obtain rfl := Option.some.inj hp
      rw [List.getLast?_eq_some_getLast hne] at heq
      exact Option.some.inj heq
  cases h with
  | start => exact ⟨false, rfl, nofun, fun ⟨_, h, _⟩ => nomatch h⟩
  | command hne _ _ _ => exact hlast _ hne
  | pipe _ _ => exact hlast _ (by decide)

/-- The words are parsed to no commands where one is refused, and otherwise as the invariant says. -/
lemma Parsed.parseFrom (sh : Shell) (h : Parsed prev result) (hsplits : ∀ word ∈ splits, word ≠ []) :
    ∃ cmds, sh.parseFrom result prev splits = some cmds ∧ (Refused prev splits → cmds = []) ∧
      (¬ Refused prev splits → Parsed (splits.getLast?.or prev) cmds) := by
  induction splits generalizing prev result with
  | nil => exact ⟨result, rfl, nofun, fun _ => h⟩
  | cons piece splits ih =>
    have hlast : (piece :: splits).getLast?.or prev = splits.getLast?.or (some piece) := by
      rw [List.getLast?_cons]
      cases splits.getLast? <;> rfl
    have hgoes : ∀ {next : List (List Bytes)}, ¬ Refuses prev piece → Parsed (some piece) next →
        ∃ cmds, sh.parseFrom next (some piece) splits = some cmds ∧ (Refused prev (piece :: splits) → cmds = []) ∧
          (¬ Refused prev (piece :: splits) → Parsed ((piece :: splits).getLast?.or prev) cmds) := by
      intro next hrefuses hnext
      have hiff : Refused prev (piece :: splits) ↔ Refused (some piece) splits := or_iff_right hrefuses
      rw [hiff, hlast]
      exact ih hnext fun word hword => hsplits word (List.mem_cons_of_mem _ hword)
    have hstops : Refuses prev piece → ∃ cmds : List (List Bytes), some [] = some cmds ∧
        (Refused prev (piece :: splits) → cmds = []) ∧
          (¬ Refused prev (piece :: splits) → Parsed ((piece :: splits).getLast?.or prev) cmds) :=
      fun hrefuses => ⟨[], rfl, fun _ => rfl, fun hnot => absurd (.inl hrefuses) hnot⟩
    rw [Shell.parseFrom]
    by_cases hpipe : piece = ascii "|"
    · have hiff : Refuses prev piece ↔ ¬ (result ≠ [] ∧ result.getLast? ≠ some []) := by
        rw [h.pipe_iff, not_not, Refuses, if_pos hpipe]
      rw [if_pos hpipe]
      by_cases hcommand : result ≠ [] ∧ result.getLast? ≠ some []
      · rw [if_pos hcommand]
        exact hgoes (fun hrefuses => hiff.1 hrefuses hcommand) (hpipe ▸ h.opens hcommand)
      · rw [if_neg hcommand]
        exact hstops (hiff.2 hcommand)
    · rw [if_neg hpipe]
      obtain ⟨ends, hends, hiff⟩ := h.endsCommand
      by_cases hseveral : piece = ascii "&&" ∨ piece = ascii "||"
      · rw [if_pos hseveral]
        refine hstops ?_
        rw [Refuses, if_neg hpipe, ← or_assoc]
        exact .inl hseveral
      · have hrefuses : Refuses prev piece ↔ ends = true := by
          rw [Refuses, if_neg hpipe, ← or_assoc, or_iff_right hseveral, hiff]
        rw [if_neg hseveral, hends, Option.bind_some]
        by_cases hend : ends = true
        · rw [if_pos hend]
          exact hstops (hrefuses.2 hend)
        · rw [if_neg hend]
          exact hgoes (fun h => hend (hrefuses.1 h)) (h.adds (hsplits piece (List.mem_cons_self ..)) hpipe)

lemma Parsed.nil_not_mem_iff (h : Parsed prev result) : [] ∉ result ↔ prev ≠ some (ascii "|") := by
  cases h with
  | start => exact iff_of_true List.not_mem_nil nofun
  | command hne hpipe hresult hwords => exact iff_of_true hwords fun h => hpipe (Option.some.inj h)
  | pipe hresult hwords => exact iff_of_false (fun h => h (List.mem_append_right _ (List.mem_singleton_self _))) (· rfl)

/-- There is a command without a word just if no word is refused and the last one is a pipe. -/
lemma parseSplits_iff (sh : Shell) (hwords : ∀ word ∈ words, word ≠ []) :
    ∃ cmdsList, sh.parseSplits words = some cmdsList ∧
      ([] ∉ cmdsList ↔ (words.getLast? = some (ascii "|") → Refused none words)) := by
  obtain ⟨cmdsList, hparse, hrefused, hparsed⟩ := Parsed.start.parseFrom sh hwords
  refine ⟨cmdsList, hparse, ?_⟩
  by_cases h : Refused none words
  · rw [hrefused h]
    exact iff_of_true List.not_mem_nil fun _ => h
  · rw [(hparsed h).nil_not_mem_iff, Option.or_none]
    exact ⟨fun hne hlast => absurd hlast hne, fun himp hlast => h (himp hlast)⟩

lemma execute_isSome_iff : (sh.execute cmds).isSome ↔ cmds ≠ [] := by
  rw [execute, Option.isSome_map, List.isSome_head?]

lemma executePipe_isSome_iff : (sh.executePipe result).isSome ↔ [] ∉ result := by
  induction result with
  | nil => exact iff_of_true rfl List.not_mem_nil
  | cons cmds result ih =>
    have hiff : ([] : List Bytes) = cmds ↔ ¬ (sh.execute cmds).isSome := by rw [execute_isSome_iff, not_not, eq_comm]
    rw [executePipe, List.mapM_cons, List.mem_cons, not_or, ← ih, executePipe, hiff, not_not]
    cases sh.execute cmds with
    | none => exact iff_of_false nofun fun h => nomatch h.1
    | some _ => cases result.mapM sh.execute <;> simp

lemma dispatch_isSome_iff : (sh.dispatch result).isSome ↔ [] ∉ result := by
  match result with
  | [] => exact iff_of_true rfl List.not_mem_nil
  | [cmds] => rw [dispatch, Option.isSome_map, execute_isSome_iff, List.mem_singleton, ne_comm]
  | cmds :: cmds' :: result => exact executePipe_isSome_iff

/-- Every line is split into words that are not empty, and no command is without a word where one is refused or the
last word is not a pipe, and only there. -/
theorem commands_iff (sh : Shell) (line : Bytes) :
    ∃ words cmdsList, split line = some words ∧ [] ∉ words ∧ sh.parseSplits words = some cmdsList ∧
      ([] ∉ cmdsList ∧ (sh.run line).isSome ↔ (words.getLast? = some (ascii "|") → Refused none words)) := by
  obtain ⟨words, hsplit, hwords⟩ := exists_split line
  obtain ⟨cmdsList, hparse, hiff⟩ := sh.parseSplits_iff hwords
  refine ⟨words, cmdsList, hsplit, fun hnil => hwords [] hnil rfl, hparse, ?_⟩
  rw [run, hsplit, Option.bind_some, hparse, Option.bind_some, dispatch_isSome_iff, and_self_iff, hiff]

/-- A pipe at the end of a line opens a command whose first word is looked up. -/
theorem commands_failing : ¬ ∀ (sh : Shell) (line : Bytes), ∃ words cmdsList, split line = some words ∧ [] ∉ words ∧
    sh.parseSplits words = some cmdsList ∧ [] ∉ cmdsList ∧ (sh.run line).isSome := by
  intro h
  obtain ⟨words, cmdsList, _, _, _, _, hrun⟩ := h ⟨[], fun _ => none, fun _ => false⟩ (ascii "ls |")
  exact absurd hrun (by decide +kernel)

end Shell

end CppExperiments

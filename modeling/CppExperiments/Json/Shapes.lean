import CppExperiments.Json.Parser

/-!
# Laid out texts

Texts whose brackets, commas and colons stand as in JSON, with any tokens between them and any white space around, and
what the parser makes of them.
-/

namespace CppExperiments.Json

/-! ## Lexemes -/

inductive Lexeme where
  | mark (ch : UInt8)
  | word (w : Bytes)
  | str (body : Bytes)
  deriving DecidableEq

/-- What may stand in a string: no quote ends it, and every escape is one that is known. -/
def Inside : Bool → Bytes → Bool
  | escaped, [] => !escaped
  | true, b :: bs => decide (b ∈ validEscapes) && Inside false bs
  | false, b :: bs => b != 34 && Inside (b == 92) bs

/-- The characters of bare tokens. -/
def Plain (b : UInt8) : Prop := b ≠ 34 ∧ isSpace b = false ∧ b ∉ splChars

instance (b : UInt8) : Decidable (Plain b) := by
  unfold Plain
  infer_instance

namespace Lexeme

def bytes : Lexeme → Bytes
  | mark ch => [ch]
  | word w => w
  | str body => 34 :: body ++ [34]

/-- The tokens that are no marks. -/
def IsScalar : Lexeme → Prop
  | mark _ => False
  | word w => w ≠ [] ∧ ∀ b ∈ w, Plain b
  | str body => Inside false body = true

def Ok (l : Lexeme) : Prop := l.IsScalar ∨ ∃ ch ∈ splChars, l = mark ch

end Lexeme

/-- A text of lexemes with blanks around them. -/
inductive Layout (blank : UInt8 → Bool) : List Lexeme → Bytes → Prop where
  | nil {w : Bytes} : (∀ b ∈ w, blank b = true) → Layout blank [] w
  | cons {w : Bytes} {l : Lexeme} {ls : List Lexeme} {rest : Bytes} : (∀ b ∈ w, blank b = true) → Layout blank ls rest →
      Layout blank (l :: ls) (w ++ (l.bytes ++ rest))

/-! ## The parser on lexemes -/

namespace Loading

variable {F : Floats} {s s' : Loading} {l : Lexeme} {ls : List Lexeme} {text body w : Bytes} {ch : UInt8} {tok : Token}

/-- The loop is not inside of a string. -/
structure Between (s : Loading) : Prop where
  string : s.processingString = false
  escaped : s.currCharEscaped = false

lemma run_cons (F : Floats) (s : Loading) (ch : UInt8) (text : Bytes) :
    run F s (ch :: text) = (step F s ch).bind fun s => run F s text := rfl

lemma run_append (F : Floats) (s : Loading) (text text' : Bytes) :
    run F s (text ++ text') = (run F s text).bind fun s => run F s text' := List.foldlM_append

lemma processingString_flush (s : Loading) : s.flush.processingString = s.processingString := by
  rw [flush]
  split <;> rfl

lemma currCharEscaped_flush (s : Loading) : s.flush.currCharEscaped = s.currCharEscaped := by
  rw [flush]
  split <;> rfl

lemma acc_flush (s : Loading) : s.flush.acc = [] := by
  rw [flush]
  split
  · assumption
  · rfl

lemma flush_of_acc (h : s.acc = []) : s.flush = s := if_pos h

lemma between_flush_iff : s.flush.Between ↔ s.Between := by
  constructor
  · intro h
    exact ⟨processingString_flush s ▸ h.string, currCharEscaped_flush s ▸ h.escaped⟩
  · intro h
    exact ⟨(processingString_flush s).trans h.string, (currCharEscaped_flush s).trans h.escaped⟩

lemma step_of_ne (hs : s.Between) (h : ch ≠ 34) : step F s ch = if isSpace ch then some s else s.readOther F ch := by
  rw [step, if_neg (by simp [h, hs.string])]

/-- White space does not matter outside of strings. -/
lemma run_blank (hs : s.Between) (hw : ∀ b ∈ w, isSpace b = true) : run F s w = some s := by
  induction w with
  | nil => rfl
  | cons b w ih =>
    rw [List.forall_mem_cons] at hw
    have hne : b ≠ 34 := by
      rintro rfl
      exact absurd hw.1 (by decide)
    rw [run_cons, step_of_ne hs hne, if_pos hw.1, Option.bind_some, ih hw.2]

lemma run_word (hs : s.Between) (hw : ∀ b ∈ w, Plain b) : run F s w = some { s with acc := s.acc ++ w } := by
  induction w generalizing s with
  | nil =>
    rw [List.append_nil]
    rfl
  | cons b w ih =>
    rw [List.forall_mem_cons] at hw
    obtain ⟨hne, hspace, hspl⟩ := hw.1
    rw [run_cons, step_of_ne hs hne, hspace, if_neg (by decide), readOther, if_pos hspl, Option.bind_some,
      ih (s := { s with acc := s.acc ++ [b] }) ⟨hs.string, hs.escaped⟩ hw.2]
    dsimp only
    rw [List.append_assoc, List.singleton_append]

lemma demarcate_inside (h : ch ≠ 34 ∨ s.currCharEscaped = true) : s.demarcate ch = { s with acc := s.acc ++ [ch] } := by
  rw [demarcate, if_neg]
  rintro ⟨rfl, hescaped⟩
  rcases h with h | h
  · exact h rfl
  · exact Bool.noConfusion (h.symm.trans hescaped)

lemma trackEscape_escaped (hs : s.currCharEscaped = true) (h : ch ∈ validEscapes) :
    s.trackEscape ch = some { s with currCharEscaped := false } := by
  rw [trackEscape]
  by_cases hch : ch = 92
  · rw [if_pos hch, hs, Bool.not_true]
  · rw [if_neg hch, if_pos hs, if_pos h]

lemma trackEscape_unescaped (ch : UInt8) (hs : s.currCharEscaped = false) :
    s.trackEscape ch = some { s with currCharEscaped := ch == 92 } := by
  rw [trackEscape]
  by_cases hch : ch = 92
  · rw [if_pos hch, hs, Bool.not_false, beq_iff_eq.2 hch]
  · rw [if_neg hch, hs, if_neg (by decide), beq_eq_false_iff_ne.2 hch, ← hs]

lemma run_inside (hs : s.processingString = true) (h : Inside s.currCharEscaped body = true) :
    run F s body = some { s with acc := s.acc ++ body, currCharEscaped := false } := by
  induction body generalizing s with
  | nil =>
    rw [Inside, Bool.not_eq_true'] at h
    rw [List.append_nil, ← h]
    rfl
  | cons b body ih =>
    have hstep : ∃ e, step F s b = some { s with acc := s.acc ++ [b], currCharEscaped := e } ∧ Inside e body =
      true := by
      rw [step, if_pos (.inr hs)]
      cases hescaped : s.currCharEscaped with
      | true =>
        rw [hescaped, Inside, Bool.and_eq_true, decide_eq_true_eq] at h
        refine ⟨false, ?_, h.2⟩
        rw [demarcate_inside (.inr hescaped)]
        exact trackEscape_escaped (s := { s with acc := s.acc ++ [b] }) hescaped h.1
      | false =>
        rw [hescaped, Inside, Bool.and_eq_true, bne_iff_ne] at h
        refine ⟨b == 92, ?_, h.2⟩
        rw [demarcate_inside (.inl h.1)]
        exact trackEscape_unescaped (s := { s with acc := s.acc ++ [b] }) b hescaped
    obtain ⟨e, hstep, hrest⟩ := hstep
    rw [run_cons, hstep, Option.bind_some,
      ih (s := { s with acc := s.acc ++ [b], currCharEscaped := e }) hs hrest]
    dsimp only
    rw [List.append_assoc, List.singleton_append]

lemma step_open (hs : s.Between) : step F s 34 = some { s with processingString := true, acc := s.acc ++ [34] } := by
  have hstep := trackEscape_unescaped (s := { s with processingString := true, acc := s.acc ++ [34] }) 34 hs.escaped
  rw [step, if_pos (.inl rfl), demarcate, if_pos ⟨rfl, hs.escaped⟩, hs.string, if_neg (by decide), hstep]
  dsimp only
  rw [hs.escaped]
  rfl

lemma step_close (hs : s.processingString = true) (hescaped : s.currCharEscaped = false) :
    step F s 34 =
      some { s with processingString := false, tokens := .text (s.acc ++ [34]) :: s.tokens, acc := [] } := by
  have hstep := trackEscape_unescaped
    (s := { s with processingString := false, tokens := .text (s.acc ++ [34]) :: s.tokens, acc := [] }) 34 hescaped
  rw [step, if_pos (.inl rfl), demarcate, if_pos ⟨rfl, hescaped⟩, hs, if_pos rfl, hstep]
  dsimp only
  rw [hescaped]
  rfl

lemma run_str (hs : s.Between) (h : Inside false body = true) : run F s (34 :: body ++ [34]) =
    some { s with tokens := .text (s.acc ++ (34 :: body ++ [34])) :: s.tokens, acc := [] } := by
  have hinside : Inside s.currCharEscaped body = true := hs.escaped ▸ h
  have hrun := run_inside (F := F) (s := { s with processingString := true, acc := s.acc ++ [34] }) rfl hinside
  have hclose := step_close (F := F)
    (s := { s with processingString := true, acc := s.acc ++ [34] ++ body, currCharEscaped := false }) rfl rfl
  rw [List.cons_append, run_cons, step_open hs, Option.bind_some, run_append, hrun, Option.bind_some, run_cons, hclose,
    Option.bind_some]
  cases s
  cases hs.string
  cases hs.escaped
  dsimp only
  rw [List.append_assoc, List.append_assoc, List.singleton_append]
  rfl

/-- A token that is no mark waits in front of the stack, or is on it. -/
lemma run_scalar (hs : s.Between) (hacc : s.acc = []) (h : l.IsScalar) :
    ∃ s', run F s l.bytes = some s' ∧ s'.flush = { s with tokens := .text l.bytes :: s.tokens } := by
  cases l with
  | mark ch => exact absurd h id
  | word w =>
    rw [Lexeme.bytes, run_word hs h.2, hacc, List.nil_append]
    refine ⟨_, rfl, (if_neg h.1).trans ?_⟩
    rw [← hacc]
  | str body =>
    refine ⟨_, run_str hs h, ?_⟩
    rw [hacc, List.nil_append, flush, if_pos rfl]
    cases s
    cases hacc
    rfl

/-- The parser on a list of lexemes. -/
def feed (F : Floats) (s : Loading) (ls : List Lexeme) : Option Loading := ls.foldlM (fun s l => run F s l.bytes) s

lemma feed_cons (F : Floats) (s : Loading) (l : Lexeme) (ls : List Lexeme) :
    feed F s (l :: ls) = (run F s l.bytes).bind fun s => feed F s ls := rfl

lemma feed_append (F : Floats) (s : Loading) (ls ls' : List Lexeme) :
    feed F s (ls ++ ls') = (feed F s ls).bind fun s => feed F s ls' := List.foldlM_append

lemma run_mark (hs : s.Between) (hch : ch ∈ splChars) : run F s [ch] = s.readOther F ch := by
  have hspl : ∀ ch ∈ splChars, ch ≠ 34 ∧ isSpace ch = false := forall_mem_of_all rfl
  obtain ⟨hne, hspace⟩ := hspl ch hch
  rw [run_cons, step_of_ne hs hne, hspace, if_neg (by decide)]
  exact Option.bind_fun_some _

lemma between_close (hs : s.Between) (h : s.close F ch = some s') : s'.Between := by
  rw [close] at h
  split at h
  · cases h
  · dsimp only at h
    split at h
    · cases h
    · obtain ⟨_, _, h⟩ := Option.bind_eq_some_iff.1 h
      obtain ⟨_, _, h⟩ := Option.bind_eq_some_iff.1 h
      obtain rfl := Option.some.inj h
      exact ⟨hs.string, hs.escaped⟩

lemma between_readOther (hs : s.Between) (h : s.readOther F ch = some s') : s'.Between := by
  have hflush := between_flush_iff.2 hs
  rw [readOther] at h
  split at h
  · obtain rfl := Option.some.inj h
    exact ⟨hs.string, hs.escaped⟩
  · dsimp only at h
    split at h
    · obtain rfl := Option.some.inj h
      exact ⟨hflush.string, hflush.escaped⟩
    · split at h
      · exact between_close hflush h
      · split at h
        all_goals
          obtain rfl := Option.some.inj h
          exact ⟨hflush.string, hflush.escaped⟩

lemma Between.run (hs : s.Between) (hl : l.Ok) (hrun : run F s l.bytes = some s') : s'.Between := by
  rcases hl with hl | ⟨ch, hch, rfl⟩
  · cases l with
    | mark ch => exact absurd hl id
    | word w =>
      rw [Lexeme.bytes, run_word hs hl.2] at hrun
      obtain rfl := Option.some.inj hrun
      exact ⟨hs.string, hs.escaped⟩
    | str body =>
      rw [Lexeme.bytes, run_str hs hl] at hrun
      obtain rfl := Option.some.inj hrun
      exact ⟨hs.string, hs.escaped⟩
  · rw [Lexeme.bytes, run_mark hs hch] at hrun
    exact between_readOther hs hrun

/-- Blanks do not matter. -/
lemma run_layout (hs : s.Between) (hls : ∀ l ∈ ls, l.Ok) (h : Layout isSpace ls text) : run F s text = feed F s ls := by
  induction h generalizing s with
  | nil hw => exact run_blank hs hw
  | @cons w l ls rest hw _ ih =>
    rw [List.forall_mem_cons] at hls
    rw [run_append, run_blank hs hw, Option.bind_some, run_append, feed_cons]
    cases hrun : run F s l.bytes with
    | none => rfl
    | some s' => exact ih (hs.run hls.1 hrun) hls.2

end Loading

/-! ## Shapes -/

/-- Tokens in brackets. As in a node every part carries the key that it has if it is in an object. -/
inductive Shape where
  | scalar (key l : Lexeme)
  | array (key : Lexeme) (items : List Shape)
  | object (key : Lexeme) (items : List Shape)

namespace Shape

def key : Shape → Lexeme
  | scalar key _ | array key _ | object key _ => key

def IsContainer : Shape → Prop
  | scalar _ _ => False
  | array _ _ | object _ _ => True

/-- The key in front of a member of an object. -/
def keyLexemes (keyed : Bool) (key : Lexeme) : List Lexeme := if keyed then [key, .mark 58] else []

mutual

/-- The lexemes without the key. -/
def lexemes : Shape → List Lexeme
  | scalar _ l => [l]
  | array _ items => .mark 91 :: lexemesEach false true items ++ [.mark 93]
  | object _ items => .mark 123 :: lexemesEach true true items ++ [.mark 125]

def lexemesEach (keyed first : Bool) : List Shape → List Lexeme
  | [] => []
  | sh :: items =>
    (if first then [] else [.mark 44]) ++ keyLexemes keyed sh.key ++ lexemes sh ++ lexemesEach keyed false items

end

/-- What a value becomes with its key. -/
def memberNode (keyed : Bool) (keyTok : Token) (value : Option Node) : Option Node :=
  value.bind fun n => (if keyed then keyOf keyTok else some []).map fun key => n.setKey key

mutual

/-- What the parser makes of a shape. -/
def node (F : Floats) : Shape → Option Node
  | scalar _ l => nodeOf F (.text l.bytes)
  | array _ items => (nodeEach F false items).bind (container false)
  | object _ items => (nodeEach F true items).bind (container true)

def nodeEach (F : Floats) (keyed : Bool) : List Shape → Option (List Node)
  | [] => some []
  | sh :: items => do
    let n ← memberNode keyed (.text sh.key.bytes) (node F sh)
    let rest ← nodeEach F keyed items
    return n :: rest

end

mutual

/-- All scalars satisfy `P`, and all keys of objects `K`. -/
def All (P K : Lexeme → Prop) : Shape → Prop
  | scalar _ l => P l
  | array _ items => AllEach P K false items
  | object _ items => AllEach P K true items

def AllEach (P K : Lexeme → Prop) (keyed : Bool) : List Shape → Prop
  | [] => True
  | sh :: items => (keyed = true → K sh.key) ∧ All P K sh ∧ AllEach P K keyed items

end

/-- The parts of a shape come before it. -/
@[elab_as_elim]
theorem byParts {P : Shape → Prop} (scalar : ∀ key l, P (scalar key l))
    (array : ∀ key items, (∀ sh ∈ items, P sh) → P (array key items))
    (object : ∀ key items, (∀ sh ∈ items, P sh) → P (object key items)) : ∀ sh, P sh
  | .scalar key l => scalar key l
  | .array key items => array key items fun sh _ => byParts scalar array object sh
  | .object key items => object key items fun sh _ => byParts scalar array object sh

variable {F : Floats} {P K P' K' : Lexeme → Prop} {keyed first : Bool} {items : List Shape} {sh : Shape}

lemma allEach_iff : AllEach P K keyed items ↔ ∀ sh ∈ items, (keyed = true → K sh.key) ∧ sh.All P K := by
  induction items with
  | nil => simp [AllEach]
  | cons sh items ih => rw [AllEach, ih, List.forall_mem_cons, and_assoc]

lemma All.mono (h : sh.All P K) (hP : ∀ l, P l → P' l) (hK : ∀ l, K l → K' l) : sh.All P' K' := by
  induction sh using byParts with
  | scalar key l => exact hP l h
  | array key items ih | object key items ih =>
    rw [All, allEach_iff] at h ⊢
    exact fun sh hsh => ⟨fun hkeyed => hK _ ((h sh hsh).1 hkeyed), ih sh hsh (h sh hsh).2⟩

lemma ok_lexemesEach (h : ∀ sh ∈ items, (keyed = true → sh.key.IsScalar) ∧ ∀ l ∈ sh.lexemes, l.Ok) :
    ∀ l ∈ lexemesEach keyed first items, l.Ok := by
  induction items generalizing first with
  | nil => simp [lexemesEach]
  | cons sh items ih =>
    rw [List.forall_mem_cons] at h
    have hkey : ∀ l ∈ keyLexemes keyed sh.key, l.Ok := by
      intro l hl
      rw [keyLexemes] at hl
      split at hl
      · rename_i hkeyed
        rcases List.mem_pair.1 hl with rfl | rfl
        · exact .inl (h.1.1 hkeyed)
        · exact .inr ⟨58, by decide, rfl⟩
      · cases hl
    have hcomma : ∀ l ∈ (if first then [] else [.mark 44] : List Lexeme), l.Ok := by
      intro l hl
      split at hl
      · cases hl
      · exact .inr ⟨44, by decide, List.mem_singleton.1 hl⟩
    intro l hl
    rw [lexemesEach, List.mem_append, List.mem_append, List.mem_append] at hl
    rcases hl with ((hl | hl) | hl) | hl
    · exact hcomma l hl
    · exact hkey l hl
    · exact h.1.2 l hl
    · exact ih h.2 l hl

lemma ok_lexemes (h : sh.All Lexeme.IsScalar Lexeme.IsScalar) : ∀ l ∈ sh.lexemes, l.Ok := by
  have hbrackets : ∀ {ls : List Lexeme} {ch ch' : UInt8}, (∀ l ∈ ls, l.Ok) → ch ∈ splChars → ch' ∈ splChars →
      ∀ l ∈ .mark ch :: ls ++ [.mark ch'], l.Ok := by
    intro ls ch ch' hls hch hch' l hl
    rw [List.cons_append, List.mem_cons, List.mem_append, List.mem_singleton] at hl
    rcases hl with rfl | hl | rfl
    · exact .inr ⟨ch, hch, rfl⟩
    · exact hls l hl
    · exact .inr ⟨ch', hch', rfl⟩
  induction sh using byParts with
  | scalar key l =>
    intro l' hl'
    rw [lexemes, List.mem_singleton] at hl'
    exact .inl (hl' ▸ h)
  | array key items ih | object key items ih =>
    rw [All, allEach_iff] at h
    exact hbrackets (ok_lexemesEach fun sh hsh => ⟨(h sh hsh).1, ih sh hsh (h sh hsh).2⟩) (by decide) (by decide)

end Shape

end CppExperiments.Json

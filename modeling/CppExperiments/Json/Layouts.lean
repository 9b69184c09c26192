import CppExperiments.Json.Shapes

/-!
# Loading laid out texts

The stack of tokens and the counts along a shape: what the parser returns for a text that is laid out.
-/

namespace CppExperiments.Json

namespace Loading

variable {F : Floats} {s s' : Loading} {l : Lexeme} {ls : List Lexeme} {ch : UInt8} {tok keyTok : Token} {n m : Nat}
  {keyed first : Bool} {startPos : Nat} {toks base : List Token} {front values : List Node} {items : List Shape}
    {sh : Shape}
  {node : Node} {key : Bytes}

/-! ## Taking values from the stack -/

/-- The values that are taken from a stack down to its base; `none` if one of the tokens above is no value or no key. -/
def Stacked (F : Floats) (keyed : Bool) (base toks : List Token) (front : Option (List Node)) : Prop :=
  ∀ values, collect F keyed base.length toks values = front.map fun vs => (vs ++ values, base)

lemma collect_of_le (h : toks.length ≤ startPos) (values : List Node) :
    collect F keyed startPos toks values = some (values, toks) := by
  cases toks with
  | nil => rfl
  | cons tok toks =>
    unfold collect
    exact if_pos h

lemma stacked_base (F : Floats) (keyed : Bool) (base : List Token) : Stacked F keyed base base (some []) :=
  fun values => collect_of_le (Nat.le_refl _) values

/-- The tokens of a member. -/
def memberTokens (keyed : Bool) (keyTok tok : Token) : List Token := if keyed then [tok, keyTok] else [tok]

lemma Stacked.push {front : Option (List Node)} (h : Stacked F keyed base toks front) (hle : base.length ≤ toks.length)
    (keyTok tok : Token) : Stacked F keyed base (memberTokens keyed keyTok tok ++ toks)
      (front.bind fun vs => (Shape.memberNode keyed keyTok (nodeOf F tok)).map fun n => vs ++ [n]) := by
  intro values
  cases keyed with
  | false =>
    rw [memberTokens, if_neg (by decide), List.singleton_append, collect, if_neg (by omega), Shape.memberNode]
    cases nodeOf F tok with
    | none => cases front <;> rfl
    | some node =>
      refine (h _).trans ?_
      cases front <;> simp
  | true =>
    rw [memberTokens, if_pos rfl, List.cons_append, List.singleton_append, collect,
      if_neg (by rw [List.length_cons]; omega), Shape.memberNode]
    cases nodeOf F tok with
    | none => cases front <;> rfl
    | some node =>
      cases hkey : keyOf keyTok with
      | none => cases front <;> simp
      | some key =>
        refine Eq.trans ?_ ((h (node.setKey key :: values)).trans ?_)
        · simp
        · cases front <;> simp

/-! ## Counts -/

/-- A state with other tokens and higher counts. -/
def raise (s : Loading) (toks : List Token) (commas commasExpected colons colonsExpected : Nat) : Loading :=
  { s with
    tokens := toks
    acc := []
    commas := s.commas + commas
    commasExpected := s.commasExpected + commasExpected
    colons := s.colons + colons
    colonsExpected := s.colonsExpected + colonsExpected }

lemma raise_raise (s : Loading) (toks toks' : List Token) (a b c d a' b' c' d' : Nat) :
    (s.raise toks a b c d).raise toks' a' b' c' d' = s.raise toks' (a + a') (b + b') (c + c') (d + d') := by
  rw [raise, raise, raise]
  dsimp only
  rw [Nat.add_assoc, Nat.add_assoc, Nat.add_assoc, Nat.add_assoc]

lemma raise_tokens (h : s.acc = []) : s.raise s.tokens 0 0 0 0 = s := by
  cases s
  cases h
  rfl

lemma Between.raise (h : s.Between) (toks : List Token) (a b c d : Nat) : (s.raise toks a b c d).Between :=
  ⟨h.string, h.escaped⟩

/-- The lexemes come to one token and to counts that are right, or the parser throws and there is no value. -/
def Pushes (F : Floats) (s : Loading) (ls : List Lexeme) (value : Option Node) : Prop :=
  (feed F s ls = none ∧ value = none) ∨
    ∃ s' tok n m, feed F s ls = some s' ∧ s'.flush = s.raise (tok :: s.tokens) n n m m ∧ nodeOf F tok = value

/-- The same, with a node as the token. -/
def PushesNode (F : Floats) (s : Loading) (ls : List Lexeme) (value : Option Node) : Prop :=
  (feed F s ls = none ∧ value = none) ∨
    ∃ node n m, feed F s ls = some (s.raise (.node node :: s.tokens) n n m m) ∧ value = some node

lemma PushesNode.pushes {value : Option Node} (h : PushesNode F s ls value) : Pushes F s ls value := by
  rcases h with h | ⟨node, n, m, hfeed, rfl⟩
  · exact .inl h
  · exact .inr ⟨_, .node node, n, m, hfeed, flush_of_acc rfl, rfl⟩

lemma pushes_scalar (hs : s.Between) (hacc : s.acc = []) (h : l.IsScalar) :
    Pushes F s [l] (nodeOf F (.text l.bytes)) := by
  obtain ⟨s', hrun, hflush⟩ := run_scalar (F := F) hs hacc h
  refine .inr ⟨s', _, 0, 0, ?_, hflush.trans ?_, rfl⟩
  · rw [feed_cons, hrun]
    rfl
  · rw [raise, ← hacc]
    rfl

/-! ## Marks -/

lemma run_comma (hs : s.Between) : run F s [44] = some (s.flush.raise s.flush.tokens 1 0 0 0) := by
  rw [run_mark hs (by decide), readOther, if_neg (by decide), raise, ← acc_flush s]
  rfl

lemma run_colon (hs : s.Between) : run F s [58] = some (s.flush.raise s.flush.tokens 0 0 1 0) := by
  rw [run_mark hs (by decide), readOther, if_neg (by decide), raise, ← acc_flush s]
  rfl

lemma feed_key (hs : s.Between) (hacc : s.acc = []) {key : Lexeme} (h : key.IsScalar) :
    feed F s [key, .mark 58] = some (s.raise (.text key.bytes :: s.tokens) 0 0 1 0) := by
  obtain ⟨s', hrun, hflush⟩ := run_scalar (F := F) hs hacc h
  have hs' : s'.Between := hs.run (.inl h) hrun
  rw [feed_cons, hrun, Option.bind_some, feed_cons, Lexeme.bytes, run_colon hs', hflush]
  rfl

/-! ## Shapes -/

lemma feed_separator (hs : s.Between) (hacc : first = true → s.acc = []) :
    feed F s (if first then [] else [.mark 44]) =
      some (s.flush.raise s.flush.tokens (if first then 0 else 1) 0 0 0) := by
  cases first with
  | false =>
    rw [if_neg (by decide), feed_cons, Lexeme.bytes, run_comma hs]
    rfl
  | true =>
    rw [flush_of_acc (hacc rfl), if_pos rfl, if_pos rfl, raise_tokens (hacc rfl)]
    rfl

lemma feed_keyLexemes (hs : s.Between) (hacc : s.acc = []) {key : Lexeme} (h : keyed = true → key.IsScalar) :
    feed F s (Shape.keyLexemes keyed key) = some (s.raise (if keyed then .text key.bytes :: s.tokens else s.tokens) 0 0
      (if keyed then 1 else 0) 0) := by
  cases keyed with
  | false =>
    rw [Shape.keyLexemes, if_neg (by decide), if_neg (by decide), if_neg (by decide), raise_tokens hacc]
    rfl
  | true => exact feed_key hs hacc (h rfl)

/-- The items of a container are on the stack, above what was there, with as many separators as there should be. -/
lemma feed_each (hall : ∀ sh ∈ items, (keyed = true → sh.key.IsScalar) ∧
      ∀ s : Loading, s.Between → s.acc = [] → Pushes F s sh.lexemes (sh.node F))
    (hs : s.Between) (hacc : first = true → s.acc = []) {front : Option (List Node)}
    (hstacked : Stacked F keyed base s.flush.tokens front) (hle : base.length ≤ s.flush.tokens.length) :
    (feed F s (Shape.lexemesEach keyed first items) = none ∧ Shape.nodeEach F keyed items = none) ∨
      ∃ s' toks n m, feed F s (Shape.lexemesEach keyed first items) = some s' ∧
        s'.flush = s.flush.raise toks (n + (items.length - if first then 1 else 0)) n
          (m + if keyed then items.length else 0) m ∧
        Stacked F keyed base toks (front.bind fun vs => (Shape.nodeEach F keyed items).map (vs ++ ·)) := by
  induction items generalizing s first front with
  | nil =>
    refine .inr ⟨s, s.flush.tokens, 0, 0, rfl, ?_, ?_⟩
    · rw [List.length_nil, Nat.zero_sub, ite_self, raise_tokens (acc_flush s)]
    · rw [Shape.nodeEach]
      cases front <;> simpa using hstacked
  | cons sh items ih =>
    rw [List.forall_mem_cons] at hall
    obtain ⟨⟨hkey, hvalue⟩, hrest⟩ := hall
    have hflush := between_flush_iff.2 hs
    have hs₁ := hflush.raise s.flush.tokens (if first then 0 else 1) 0 0 0
    have hkeys := feed_keyLexemes (F := F) hs₁ rfl hkey
    rw [Shape.lexemesEach, feed_append, feed_append, feed_append, feed_separator hs hacc, Option.bind_some, hkeys,
      Option.bind_some, raise_raise]
    rcases hvalue _ (hflush.raise _ _ _ _ _) rfl with ⟨hnone, hnode⟩ | ⟨s', tok, n, m, hfeed, hs', hnode⟩
    · rw [hnone, Shape.nodeEach, hnode]
      exact .inl ⟨rfl, rfl⟩
    · have hs'₁ : s'.Between := between_flush_iff.1 (hs' ▸ (hflush.raise _ _ _ _ _).raise _ _ _ _ _)
      rw [hfeed, Option.bind_some]
      have htoks : s'.flush.tokens = memberTokens keyed (.text sh.key.bytes) tok ++ s.flush.tokens := by
        rw [hs']
        cases keyed <;> rfl
      have hstacked' : Stacked F keyed base s'.flush.tokens
          (front.bind fun vs => (Shape.memberNode keyed (.text sh.key.bytes) (sh.node F)).map fun n => vs ++ [n]) := by
        rw [htoks, ← hnode]
        exact hstacked.push hle _ _
      have hle' : base.length ≤ s'.flush.tokens.length := by
        rw [htoks, List.length_append]
        omega
      rcases ih hrest hs'₁ (fun hfirst => absurd hfirst Bool.false_ne_true) hstacked' hle' with ⟨hnone, hnode'⟩ | ⟨s'', toks, n',
        m', hfeed', hs'', hstacked''⟩
      · rw [Shape.nodeEach, hnode']
        refine .inl ⟨hnone, ?_⟩
        cases Shape.memberNode keyed (.text sh.key.bytes) (sh.node F) <;> rfl
      · refine .inr ⟨s'', toks, n + n', m + m', hfeed', ?_, ?_⟩
        · rw [hs'', hs', raise_raise, raise_raise, List.length_cons]
          congr 1
          · cases first
            · simp
              omega
            · simp
              omega
          · omega
          · cases keyed
            · simp
            · simp
              omega
          · omega
        · rw [Shape.nodeEach]
          cases hmember : Shape.memberNode keyed (.text sh.key.bytes) (sh.node F) with
          | none => cases front <;> simpa [hmember] using hstacked''
          | some node =>
            cases hitems : Shape.nodeEach F keyed items with
            | none => cases front <;> simpa [hmember, hitems] using hstacked''
            | some values => cases front <;> simpa [hmember, hitems] using hstacked''

lemma run_open (hs : s.Between) (hch : ch = 123 ∨ ch = 91) :
    run F s [ch] = some { s.flush with validateStk := (ch, s.flush.tokens.length) :: s.flush.validateStk } := by
  have hspl : ch ∈ splChars := by rcases hch with rfl | rfl <;> decide
  rw [run_mark hs hspl, readOther, if_neg (not_not_intro hspl)]
  exact if_pos hch

lemma run_close (hs : s.Between) (hch : ch = 125 ∨ ch = 93) : run F s [ch] = s.flush.close F ch := by
  have hspl : ch ∈ splChars ∧ ¬ (ch = 123 ∨ ch = 91) := by rcases hch with rfl | rfl <;> decide
  rw [run_mark hs hspl.1, readOther, if_neg (not_not_intro hspl.1)]
  exact (if_neg hspl.2).trans (if_pos hch)

lemma close_eq {validateStk : List (UInt8 × Nat)} (hstk : s.validateStk = (opening ch, base.length) :: validateStk)
    {front : Option (List Node)} (hstacked : Stacked F (opening ch == 123) base s.tokens front) :
    s.close F ch = front.bind fun values => (container (opening ch == 123) values).map fun node => { s with
      validateStk := validateStk
      tokens := .node node :: base
      commasExpected := s.commasExpected + (values.length - 1)
      colonsExpected := s.colonsExpected + if opening ch = 123 then values.length else 0 } := by
  rw [close, hstk]
  dsimp only
  rw [if_neg (not_not_intro rfl), hstacked]
  cases front with
  | none => rfl
  | some values =>
    rw [Option.map_some, Option.bind_eq_bind, Option.bind_some, Option.bind_some, List.append_nil]
    cases container (opening ch == 123) values <;> rfl

lemma length_nodeEach (h : Shape.nodeEach F keyed items = some values) : values.length = items.length := by
  induction items generalizing values with
  | nil =>
    obtain rfl := Option.some.inj h
    rfl
  | cons sh items ih =>
    obtain ⟨n, _, h⟩ := Option.bind_eq_some_iff.1 h
    obtain ⟨rest, hrest, h⟩ := Option.bind_eq_some_iff.1 h
    obtain rfl := Option.some.inj h
    rw [List.length_cons, List.length_cons, ih hrest]

lemma pushesNode_container (ch : UInt8) (hall : ∀ sh ∈ items, ((opening ch == 123) = true → sh.key.IsScalar) ∧
      ∀ s : Loading, s.Between → s.acc = [] → Pushes F s sh.lexemes (sh.node F))
    (hch : ch = 125 ∨ ch = 93) (hs : s.Between) (hacc : s.acc = []) :
    PushesNode F s (.mark (opening ch) :: Shape.lexemesEach (opening ch == 123) true items ++ [.mark ch])
      ((Shape.nodeEach F (opening ch == 123) items).bind (container (opening ch == 123))) := by
  have hopening : opening ch = 123 ∨ opening ch = 91 := by rcases hch with rfl | rfl <;> decide
  let s₁ : Loading := { s with validateStk := (opening ch, s.tokens.length) :: s.validateStk }
  have hopen : run F s [opening ch] = some s₁ := by rw [run_open hs hopening, flush_of_acc hacc]
  have hs₁ : s₁.Between := ⟨hs.string, hs.escaped⟩
  have hflush₁ : s₁.flush = s₁ := flush_of_acc hacc
  have hstacked₁ : Stacked F (opening ch == 123) s.tokens s₁.flush.tokens (some []) := by
    rw [hflush₁]
    exact stacked_base F _ _
  have heach := feed_each hall hs₁ (fun _ : true = true => hacc) hstacked₁ (by rw [hflush₁])
  rw [PushesNode, List.cons_append, feed_cons, Lexeme.bytes, hopen, Option.bind_some, feed_append]
  rcases heach with ⟨hfeed, hnode⟩ | ⟨s₂, toks, n, m, hfeed, hflush₂, hstacked₂⟩
  · rw [hfeed, hnode]
    exact .inl ⟨rfl, rfl⟩
  · have hs₂ : s₂.Between := between_flush_iff.1 (hflush₂ ▸ (between_flush_iff.2 hs₁).raise _ _ _ _ _)
    have hstacked₂ : Stacked F (opening ch == 123) s.tokens s₂.flush.tokens
      (Shape.nodeEach F (opening ch == 123) items) := by
      rw [hflush₂]
      simpa [raise] using hstacked₂
    have hstk₂ : s₂.flush.validateStk = (opening ch, s.tokens.length) :: s.validateStk := by rw [hflush₂, hflush₁]; rfl
    rw [hfeed, Option.bind_some, feed_cons, Lexeme.bytes, run_close hs₂ hch, close_eq hstk₂ hstacked₂]
    cases hvalues : Shape.nodeEach F (opening ch == 123) items with
    | none => exact .inl ⟨rfl, rfl⟩
    | some values =>
      rw [Option.bind_some, Option.bind_some]
      cases container (opening ch == 123) values with
      | none => exact .inl ⟨rfl, rfl⟩
      | some node =>
        rw [Option.map_some, Option.bind_some]
        have hlength := length_nodeEach hvalues
        refine .inr ⟨node, n + (items.length - 1), m + if opening ch = 123 then items.length else 0, ?_, rfl⟩
        rw [hlength, hflush₂, hflush₁]
        simp [feed, raise, s₁, Nat.add_assoc]

/-- A shape comes to one token, wherever it stands. -/
theorem pushes_lexemes (h : sh.All Lexeme.IsScalar Lexeme.IsScalar) (hs : s.Between) (hacc : s.acc = []) :
    Pushes F s sh.lexemes (sh.node F) ∧ (sh.IsContainer → PushesNode F s sh.lexemes (sh.node F)) := by
  induction sh using Shape.byParts generalizing s with
  | scalar key l => exact ⟨pushes_scalar hs hacc h, fun hsh => absurd hsh id⟩
  | array key items ih =>
    rw [Shape.All, Shape.allEach_iff] at h
    have hnode := pushesNode_container (F := F) 93
      (fun sh hsh => ⟨(h sh hsh).1, fun s hs hacc => (ih sh hsh (h sh hsh).2 hs hacc).1⟩) (.inr rfl) hs hacc
    exact ⟨hnode.pushes, fun _ => hnode⟩
  | object key items ih =>
    rw [Shape.All, Shape.allEach_iff] at h
    have hnode := pushesNode_container (F := F) 125
      (fun sh hsh => ⟨(h sh hsh).1, fun s hs hacc => (ih sh hsh (h sh hsh).2 hs hacc).1⟩) (.inl rfl) hs hacc
    exact ⟨hnode.pushes, fun _ => hnode⟩

end Loading

/-- Of a laid out text with brackets around it the parser returns the value of its shape, or throws if there is none. -/
theorem loads_layout {F : Floats} {sh : Shape} {text : Bytes} (h : sh.All Lexeme.IsScalar Lexeme.IsScalar)
    (hsh : sh.IsContainer)
    (htext : Layout isSpace sh.lexemes text) : loads F text = sh.node F := by
  have hs : ({} : Loading).Between := ⟨rfl, rfl⟩
  rw [loads, Loading.run_layout hs (Shape.ok_lexemes h) htext]
  rcases (Loading.pushes_lexemes (F := F) h hs rfl).2 hsh with ⟨hfeed, hnode⟩ | ⟨node, n, m, hfeed, hnode⟩
  · rw [hfeed, hnode]
    rfl
  · rw [hfeed, hnode, Option.bind_some, Loading.result, if_pos ⟨rfl, rfl, rfl⟩]
    rfl

end CppExperiments.Json

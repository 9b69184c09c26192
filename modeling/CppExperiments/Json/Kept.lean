import CppExperiments.Json.Dumps
import Mathlib.Data.ENat.Basic
import Mathlib.Tactic.Abel

/-!
# What the parser keeps

Strings come into the tree as they stand in the text: escapes are checked and not undone. So every backslash of the text
is found again in the tree, if it has no floating-point number.
-/

namespace CppExperiments.Json

/-! ## Weights -/

def backslashes (bs : Bytes) : ℕ∞ := (bs.count 92 : ℕ)

@[simp] lemma backslashes_nil : backslashes [] = 0 := rfl

lemma backslashes_append (bs bs' : Bytes) : backslashes (bs ++ bs') = backslashes bs + backslashes bs' := by
  rw [backslashes, List.count_append, Nat.cast_add]
  rfl

/-- The backslashes of a value. The token of a floating-point number is lost, so that it counts as heavier than all. -/
def Simple.weight : Simple → ℕ∞
  | .str s => backslashes s
  | .double _ => ⊤
  | .null | .int _ | .bool _ => 0

namespace Node

mutual

/-- The backslashes of the keys and values of a tree. -/
def weight : Node → ℕ∞
  | value key v => backslashes key + v.weight
  | array key values | object key values => backslashes key + weightEach values

def weightEach : List Node → ℕ∞
  | [] => 0
  | n :: values => weight n + weightEach values

end

/-- Trees that the parser makes. -/
inductive Kept : Node → Prop where
  | value {key : Bytes} {v : Simple} : (∀ s, v = .str s → KeptBody s) → Kept (.value key v)
  | array {key : Bytes} {values : List Node} : (∀ n ∈ values, n.key = []) → (∀ n ∈ values, Kept n) →
      Kept (.array key values)
  | object {key : Bytes} {values : List Node} : (values.map Node.key).Nodup → (∀ n ∈ values, KeptBody n.key) →
      (∀ n ∈ values, Kept n) → Kept (.object key values)

lemma Kept.setKey {n : Node} (h : n.Kept) (key : Bytes) : (n.setKey key).Kept := by
  cases h with
  | value h => exact .value h
  | array hkeys h => exact .array hkeys h
  | object hnodup hkeys h => exact .object hnodup hkeys h

lemma Kept.tree {n : Node} (h : n.Kept) (hn : n.Floatless) : n.Tree KeptBody := by
  induction h with
  | @value key v h =>
    cases v with
    | str s => exact .str (h s rfl)
    | null => exact .null
    | int v => exact .int
    | double bits => exact absurd List.mem_cons_self (hn bits)
    | bool b => exact .bool
  | array hkeys _ ih => exact .array hkeys fun n hmem => ih n hmem fun bits hbits => hn bits (mem_leavesEach hmem hbits)
  | object hnodup hkeys _ ih =>
    exact .object hnodup hkeys fun n hmem => ih n hmem fun bits hbits => hn bits (mem_leavesEach hmem hbits)

lemma weight_setKey {n : Node} (h : n.key = []) (key : Bytes) : (n.setKey key).weight = backslashes key + n.weight := by
  cases n with
  | value k v | array k values | object k values =>
    obtain rfl : k = [] := h
    rw [setKey, weight, weight, backslashes_nil, zero_add]

end Node

/-! ## Tokens -/

/-- Tokens that the parser has on its stack. One that begins with a quote is a string as a whole. -/
inductive Token.Kept : Token → Prop where
  | text {t : Bytes} : (t.head? = some 34 → ∃ body, t = 34 :: body ++ [34] ∧ Inside false body = true) → Kept (.text t)
  | node {n : Node} : n.key = [] → n.IsContainer → n.Kept → Kept (.node n)

def Token.weight : Token → ℕ∞
  | .text t => backslashes t
  | .node n => n.weight

/-- The weight of all tokens. -/
def weightOf (tokens : List Token) : ℕ∞ := (tokens.map Token.weight).sum

variable {F : Floats} {tok keyTok : Token} {tokens tokens' : List Token} {values values' : List Node} {n : Node}
  {t key : Bytes} {v : Simple} {keyed : Bool} {startPos : Nat}

lemma backslashes_quoted (body : Bytes) : backslashes (34 :: body ++ [34]) = backslashes body := by
  rw [backslashes, List.cons_append, List.count_cons_of_ne (by decide), List.count_append]
  rfl

/-- Digits and signs. -/
lemma count_eq_zero_of_digits (h : t.countP isDigit = t.length ∨ t.countP isDigit + 1 = t.length ∧ t.head? = some 45) :
    t.count 92 = 0 := by
  rw [List.count_eq_zero]
  intro hmem
  rcases h with h | ⟨h, hhead⟩
  · exact absurd (List.countP_eq_length.1 h 92 hmem) (by decide)
  · cases t with
    | nil => cases hmem
    | cons b t =>
      obtain rfl : b = 45 := Option.some.inj hhead
      rw [List.countP_cons_of_neg (by decide), List.length_cons, Nat.add_right_cancel_iff] at h
      rcases List.mem_cons.1 hmem with hb | hmem
      · exact absurd hb (by decide)
      · exact absurd (List.countP_eq_length.1 h 92 hmem) (by decide)

/-- What a value is made of: a word without backslashes, or the inside of a string. -/
lemma simple_parse_kept (ht : t.head? = some 34 → ∃ body, t = 34 :: body ++ [34] ∧ Inside false body = true)
    (h : simple_parse F t = some v) : (∀ s, v = .str s → KeptBody s) ∧ backslashes t ≤ v.weight := by
  have hword : ∀ v' : Simple, some v' = some v → (∀ s, v' ≠ .str s) → t.count 92 = 0 →
      (∀ s, v = .str s → KeptBody s) ∧ backslashes t ≤ v.weight := by
    rintro v' hv' hne hcount
    obtain rfl := Option.some.inj hv'
    refine ⟨fun s hs => absurd hs (hne s), ?_⟩
    rw [backslashes, hcount]
    exact zero_le
  have hdouble : ∀ bits : UInt64, some (Simple.double bits) = some v →
      (∀ s, v = .str s → KeptBody s) ∧ backslashes t ≤ v.weight := by
    rintro bits hbits
    obtain rfl := Option.some.inj hbits
    exact ⟨fun s => nofun, le_top⟩
  unfold simple_parse at h
  dsimp only at h
  split at h
  · rename_i heq
    exact hword _ h (fun s => nofun) (heq ▸ rfl)
  · split at h
    · rename_i heq
      refine hword _ h (fun s => nofun) ?_
      rcases heq with rfl | rfl <;> rfl
    · split at h
      · rename_i hquotes
        split at h
        · cases h
        · rename_i hblank
          obtain ⟨body, rfl, hinside⟩ := ht hquotes.1
          rw [inner_quoted] at h
          obtain rfl := Option.some.inj h
          rw [backslashes_quoted]
          refine ⟨?_, le_refl _⟩
          rintro s hs
          cases hs
          rw [not_or] at hblank
          exact ⟨hinside, fun hmem => hblank.1 (by simp [hmem]), fun hmem => hblank.2 (by simp [hmem])⟩
      · split at h
        · rename_i hdigits
          split at h
          · cases h
          · obtain ⟨z, -, hz⟩ := Option.map_eq_some_iff.1 h
            exact hword _ (congrArg some hz) (fun s => nofun) (count_eq_zero_of_digits hdigits)
        · split at h
          · split at h
            · cases h
            · obtain ⟨bits, _, hbits⟩ := Option.map_eq_some_iff.1 h
              exact hdouble bits (congrArg some hbits)
          · split at h
            · split at h
              · exact hdouble _ h
              · cases h
            · cases h

lemma keyOf_kept (hkey : keyTok.Kept) (h : keyOf keyTok = some key) :
    KeptBody key ∧ backslashes key = keyTok.weight := by
  cases hkey with
  | node _ _ _ => cases h
  | @text t ht =>
    rw [keyOf] at h
    split at h
    · cases h
    · rename_i hnot
      rw [not_or, not_or, not_or, not_ne_iff] at hnot
      obtain ⟨hhead, -, htab, hnewline⟩ := hnot
      obtain ⟨body, rfl, hinside⟩ := ht hhead
      rw [inner_quoted] at h
      obtain rfl := Option.some.inj h
      refine ⟨⟨hinside, fun hmem => htab (by simp [hmem]), fun hmem => hnewline (by simp [hmem])⟩, ?_⟩
      rw [Token.weight, backslashes_quoted]

lemma nodeOf_kept (htok : tok.Kept) (h : nodeOf F tok = some n) : n.key = [] ∧ n.Kept ∧ tok.weight ≤ n.weight := by
  cases htok with
  | node hkey _ hn =>
    obtain rfl := Option.some.inj h
    exact ⟨hkey, hn, le_refl _⟩
  | text ht =>
    obtain ⟨v, hv, rfl⟩ := Option.map_eq_some_iff.1 h
    obtain ⟨hstr, hle⟩ := simple_parse_kept ht hv
    refine ⟨rfl, .value hstr, ?_⟩
    rw [Token.weight, Node.weight, backslashes_nil, zero_add]
    exact hle

/-! ## The loop -/

/-- Items of a container, which have keys in an object only. -/
def Node.Member (keyed : Bool) (n : Node) : Prop := n.Kept ∧ if keyed then KeptBody n.key else n.key = []

lemma weightOf_cons (tok : Token) (tokens : List Token) : weightOf (tok :: tokens) = tok.weight + weightOf tokens := by
  rw [weightOf, List.map_cons, List.sum_cons]
  rfl

lemma collect_kept (htokens : ∀ tok ∈ tokens, tok.Kept) (hvalues : ∀ n ∈ values, n.Member keyed)
    (h : collect F keyed startPos tokens values = some (values', tokens')) :
    (∀ n ∈ values', n.Member keyed) ∧ (∀ tok ∈ tokens', tok.Kept) ∧
      weightOf tokens + Node.weightEach values ≤ weightOf tokens' + Node.weightEach values' := by
  fun_induction collect F keyed startPos tokens values with
  | case1 values | case2 values =>
    cases h
    exact ⟨hvalues, htokens, le_refl _⟩
  | case3 valMixed values tokens hkeyed hlt ih =>
    subst hkeyed
    obtain ⟨n, hn, h⟩ := Option.bind_eq_some_iff.1 h
    rw [List.forall_mem_cons] at htokens
    obtain ⟨hkey, hkept, hweight⟩ := nodeOf_kept htokens.1 hn
    obtain ⟨hvalues', htokens', hsum⟩ := ih n htokens.2
      (List.forall_mem_cons.2 ⟨⟨hkept.setKey [], Node.key_setKey [] n⟩, hvalues⟩) h
    refine ⟨hvalues', htokens', le_trans ?_ hsum⟩
    rw [weightOf_cons, Node.weightEach, Node.weight_setKey hkey, backslashes_nil, zero_add, add_right_comm,
      add_comm (weightOf tokens)]
    gcongr
  | case4 => cases h
  | case5 valMixed values keyTok tokens hkeyed hlt ih =>
    subst hkeyed
    obtain ⟨n, hn, h⟩ := Option.bind_eq_some_iff.1 h
    obtain ⟨key, hkeyOf, h⟩ := Option.bind_eq_some_iff.1 h
    rw [List.forall_mem_cons, List.forall_mem_cons] at htokens
    obtain ⟨hkey, hkept, hweight⟩ := nodeOf_kept htokens.1 hn
    obtain ⟨hbody, hkeyWeight⟩ := keyOf_kept htokens.2.1 hkeyOf
    have hmember : (n.setKey key).Member true := by
      refine ⟨hkept.setKey key, ?_⟩
      rw [Node.key_setKey]
      exact hbody
    obtain ⟨hvalues', htokens', hsum⟩ := ih n key htokens.2.2 (List.forall_mem_cons.2 ⟨hmember, hvalues⟩) h
    refine ⟨hvalues', htokens', le_trans ?_ hsum⟩
    rw [weightOf_cons, weightOf_cons, Node.weightEach, Node.weight_setKey hkey, hkeyWeight]
    calc
      valMixed.weight + (keyTok.weight + weightOf tokens) + Node.weightEach values
        ≤ n.weight + (keyTok.weight + weightOf tokens) + Node.weightEach values := by gcongr
      _ = weightOf tokens + (keyTok.weight + n.weight + Node.weightEach values) := by abel

/-- The node of a closing bracket. -/
lemma container_kept (hvalues : ∀ n ∈ values, n.Member keyed) (h : container keyed values = some n) :
    Token.Kept (.node n) ∧ n.weight = Node.weightEach values := by
  cases keyed with
  | false =>
    obtain rfl := Option.some.inj h
    refine ⟨.node rfl trivial (.array (fun n hn => ?_) fun n hn => (hvalues n hn).1), ?_⟩
    · simpa using (hvalues n hn).2
    · rw [Node.weight, backslashes_nil, zero_add]
  | true =>
    rw [container, if_pos rfl] at h
    split at h
    · rename_i hnodup
      obtain rfl := Option.some.inj h
      refine ⟨.node rfl trivial (.object hnodup (fun n hn => ?_) fun n hn => (hvalues n hn).1), ?_⟩
      · simpa using (hvalues n hn).2
      · rw [Node.weight, backslashes_nil, zero_add]
    · cases h

namespace Loading

variable {s s' : Loading} {text : Bytes} {ch : UInt8}

/-- The state of the loop behind `text`. Inside of a string `acc` has its beginning. -/
structure Kept (text : Bytes) (s : Loading) : Prop where
  tokens : ∀ tok ∈ s.tokens, tok.Kept
  weight : backslashes text ≤ weightOf s.tokens + backslashes s.acc
  outside : s.processingString = false → s.currCharEscaped = false ∧ s.acc.head? ≠ some 34
  inside : s.processingString = true → s.acc ≠ [] ∧ (s.acc.head? = some 34 →
    ∃ body, s.acc = 34 :: body ∧ ∀ rest, Inside false (body ++ rest) = Inside s.currCharEscaped rest)

lemma Kept.flush (h : s.Kept text) (hs : s.processingString = false) : s.flush.Kept text := by
  have hflushed := processingString_flush s
  obtain ⟨hescaped, hacc⟩ := h.outside hs
  rw [Loading.flush] at hflushed ⊢
  split
  · exact h
  · refine ⟨List.forall_mem_cons.2 ⟨.text fun hhead => absurd hhead hacc, h.tokens⟩, ?_, fun _ => ⟨hescaped, fun hhead => by cases hhead⟩, ?_⟩
    · refine h.weight.trans_eq ?_
      rw [weightOf_cons, Token.weight, backslashes_nil, add_zero, add_comm]
    · intro hs'
      exact Bool.noConfusion (hs.symm.trans hs')

/-- A closing bracket takes its tokens to one node. -/
lemma Kept.close (h : s.Kept text) (hstep : s.close F ch = some s') :
    s'.Kept text := by
  rw [Loading.close] at hstep
  split at hstep
  · cases hstep
  · dsimp only at hstep
    split at hstep
    · cases hstep
    · obtain ⟨⟨values, tokens⟩, hcollect, hstep⟩ := Option.bind_eq_some_iff.1 hstep
      obtain ⟨node, hnode, hstep⟩ := Option.bind_eq_some_iff.1 hstep
      obtain rfl := Option.some.inj hstep
      obtain ⟨hvalues, htokens, hsum⟩ := collect_kept h.tokens (fun n hn => by cases hn) hcollect
      obtain ⟨hkept, hweight⟩ := container_kept hvalues hnode
      refine ⟨List.forall_mem_cons.2 ⟨hkept, htokens⟩, ?_, h.outside, h.inside⟩
      dsimp only
      rw [weightOf_cons, Token.weight, hweight, add_comm (Node.weightEach values)]
      rw [Node.weightEach, add_zero] at hsum
      exact h.weight.trans (by gcongr)

lemma Kept.readOther (h : s.Kept text) (hs : s.processingString = false) (hch : ch ≠ 34)
    (hstep : s.readOther F ch = some s') : s'.Kept (text ++ [ch]) := by
  rw [Loading.readOther] at hstep
  split at hstep
  · obtain rfl := Option.some.inj hstep
    refine ⟨h.tokens, ?_, fun _ => ⟨(h.outside hs).1, ?_⟩, fun hs' => Bool.noConfusion (hs.symm.trans hs')⟩
    · dsimp only
      rw [backslashes_append, backslashes_append, ← add_assoc]
      exact add_le_add_left h.weight _
    · dsimp only
      cases hacc : s.acc with
      | nil => simpa using hch
      | cons b acc =>
        have hhead := (h.outside hs).2
        rw [hacc] at hhead
        exact hhead
  · rename_i hspl
    have hnone : backslashes (text ++ [ch]) = backslashes text := by
      have hne : ch ≠ 92 := by
        rintro rfl
        exact hspl (by decide)
      rw [backslashes, List.count_append,
        List.count_eq_zero.2 (List.not_mem_cons_of_ne_of_not_mem hne.symm List.not_mem_nil),
        add_zero]
      rfl
    have hflush := h.flush hs
    have hread : ∀ s' : Loading, s'.Kept text → s'.Kept (text ++ [ch]) := fun s' hs' =>
      ⟨hs'.tokens, hnone.trans_le hs'.weight, hs'.outside, hs'.inside⟩
    apply hread
    dsimp only at hstep
    split at hstep
    · obtain rfl := Option.some.inj hstep
      exact ⟨hflush.tokens, hflush.weight, hflush.outside, hflush.inside⟩
    · split at hstep
      · exact hflush.close hstep
      · split at hstep
        all_goals
          obtain rfl := Option.some.inj hstep
          exact ⟨hflush.tokens, hflush.weight, hflush.outside, hflush.inside⟩

/-- One more character of a string. -/
lemma inside_of_trackEscape (hch : ch ≠ 34 ∨ s.currCharEscaped = true) (hstep : s.trackEscape ch = some s') :
    s' = { s with currCharEscaped := s'.currCharEscaped } ∧
      ∀ rest, Inside s.currCharEscaped (ch :: rest) = Inside s'.currCharEscaped rest := by
  cases hescaped : s.currCharEscaped with
  | false =>
    rw [trackEscape_unescaped ch hescaped] at hstep
    obtain rfl := Option.some.inj hstep
    refine ⟨rfl, fun rest => ?_⟩
    rcases hch with hch | hch
    · rw [Inside, bne_iff_ne.2 hch, Bool.true_and]
    · exact Bool.noConfusion (hescaped.symm.trans hch)
  | true =>
    by_cases hvalid : ch ∈ validEscapes
    · rw [trackEscape_escaped hescaped hvalid] at hstep
      obtain rfl := Option.some.inj hstep
      exact ⟨rfl, fun rest => by rw [Inside, decide_eq_true hvalid, Bool.true_and]⟩
    · have hne : ch ≠ 92 := by
        rintro rfl
        exact hvalid (by decide)
      rw [trackEscape, if_neg hne, if_pos hescaped, if_neg hvalid] at hstep
      cases hstep

lemma Kept.string (h : s.Kept text) (hch : ch = 34 ∨ s.processingString = true)
    (hstep : Loading.step F s ch = some s') : s'.Kept (text ++ [ch]) := by
  have hweight : backslashes (text ++ [ch]) ≤ weightOf s.tokens + backslashes (s.acc ++ [ch]) := by
    rw [backslashes_append, backslashes_append, ← add_assoc]
    exact add_le_add_left h.weight _
  by_cases hquote : ch = 34 ∧ s.currCharEscaped = false
  · obtain ⟨rfl, hescaped⟩ := hquote
    cases hs : s.processingString with
    | true =>
      obtain ⟨hne, hinside⟩ := h.inside hs
      rw [step_close hs hescaped] at hstep
      obtain rfl := Option.some.inj hstep
      refine ⟨List.forall_mem_cons.2 ⟨.text fun hhead => ?_, h.tokens⟩, ?_, fun _ => ⟨hescaped, fun hhead => by cases hhead⟩,
        fun hin => by cases hin⟩
      · rw [List.head?_append_of_ne_nil _ hne] at hhead
        obtain ⟨body, hacc, hbody⟩ := hinside hhead
        refine ⟨body, by rw [hacc], ?_⟩
        rw [← List.append_nil body, hbody, Inside, hescaped, Bool.not_false]
      · dsimp only
        rw [weightOf_cons, Token.weight, backslashes_nil, add_zero, add_comm]
        exact hweight
    | false =>
      rw [step_open ⟨hs, hescaped⟩] at hstep
      obtain rfl := Option.some.inj hstep
      refine ⟨h.tokens, hweight, fun hout => (by cases hout), fun _ => ⟨by simp, fun hhead => ?_⟩⟩
      dsimp only at hhead ⊢
      cases hacc : s.acc with
      | nil => exact ⟨[], rfl, fun rest => by rw [hescaped, List.nil_append]⟩
      | cons b acc =>
        have hne := (h.outside hs).2
        rw [hacc] at hhead hne
        exact absurd hhead hne
  · have hin : ch ≠ 34 ∨ s.currCharEscaped = true := by
      rw [not_and_or, Bool.not_eq_false] at hquote
      exact hquote
    have hs : s.processingString = true := by
      cases hs : s.processingString with
      | true => rfl
      | false =>
        rcases hch with hch | hch
        · exact absurd ⟨hch, (h.outside hs).1⟩ hquote
        · exact hs.symm.trans hch
    obtain ⟨hne, hinside⟩ := h.inside hs
    rw [Loading.step, if_pos hch, demarcate_inside hin] at hstep
    obtain ⟨hs', hbody'⟩ := inside_of_trackEscape (s := { s with acc := s.acc ++ [ch] }) hin hstep
    rw [hs']
    refine ⟨h.tokens, hweight, fun hout => Bool.noConfusion (hs.symm.trans hout), fun _ => ⟨by simp, fun hhead => ?_⟩⟩
    dsimp only at hhead ⊢
    rw [List.head?_append_of_ne_nil _ hne] at hhead
    obtain ⟨body, hacc, hbody⟩ := hinside hhead
    refine ⟨body ++ [ch], by rw [hacc, List.cons_append], fun rest => ?_⟩
    rw [List.append_assoc, List.singleton_append, hbody, ← hbody']

lemma Kept.step (h : s.Kept text) (hstep : step F s ch = some s') : s'.Kept (text ++ [ch]) := by
  by_cases hch : ch = 34 ∨ s.processingString = true
  · exact h.string hch hstep
  · rw [Loading.step, if_neg hch] at hstep
    rw [not_or, Bool.not_eq_true] at hch
    split at hstep
    · rename_i hspace
      obtain rfl := Option.some.inj hstep
      have hne : ch ≠ 92 := by
        rintro rfl
        exact absurd hspace (by decide)
      refine ⟨h.tokens, le_trans (le_of_eq ?_) h.weight, h.outside, h.inside⟩
      rw [backslashes, List.count_append,
        List.count_eq_zero.2 (List.not_mem_cons_of_ne_of_not_mem hne.symm List.not_mem_nil),
        add_zero]
      rfl
    · exact h.readOther hch.2 hch.1 hstep

lemma Kept.run {more : Bytes} (h : s.Kept text) (hrun : run F s more = some s') : s'.Kept (text ++ more) := by
  induction more generalizing s text with
  | nil =>
    obtain rfl := Option.some.inj hrun
    rw [List.append_nil]
    exact h
  | cons ch more ih =>
    obtain ⟨s₁, hstep, hrun⟩ := Option.bind_eq_some_iff.1 hrun
    rw [← List.singleton_append, ← List.append_assoc]
    exact ih (h.step hstep) hrun

lemma kept_nil : ({} : Loading).Kept [] where
  tokens := fun tok htok => by cases htok
  weight := zero_le
  outside := fun _ => ⟨rfl, nofun⟩
  inside := nofun

end Loading

/-- Every tree that is loaded is a root with sound strings, and it has all the backslashes of the text. -/
theorem kept_of_loads {text : Bytes} (h : loads F text = some n) :
    n.key = [] ∧ n.IsContainer ∧ n.Kept ∧ backslashes text ≤ n.weight := by
  obtain ⟨s, hrun, hresult⟩ := Option.bind_eq_some_iff.1 h
  have hkept := Loading.kept_nil.run hrun
  rw [Loading.result] at hresult
  split at hresult
  · rename_i hcounts
    split at hresult
    · rename_i node htokens
      obtain rfl := Option.some.inj hresult
      have hnode := hkept.tokens (.node node) (by rw [htokens]; exact List.mem_cons_self)
      have hweight := hkept.weight
      rw [htokens, hcounts.2.2, weightOf_cons, backslashes_nil, add_zero, weightOf, List.map_nil, List.sum_nil,
        add_zero,
        List.nil_append] at hweight
      cases hnode with
      | node hkey hcontainer hnode => exact ⟨hkey, hcontainer, hnode, hweight⟩
    · cases hresult
  · cases hresult

end CppExperiments.Json

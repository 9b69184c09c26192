import CppExperiments.Lib.Text

/-!
# Escaped strings

How the characters of a string are escaped and unescaped, and which of them do not come back.
-/

namespace CppExperiments.Json

def hexDigits : Bytes := ascii "0123456789ABCDEF"

def escapeChar (ch : UInt8) : Bytes :=
  if ch = 34 then [92, 34]
  else if ch = 92 then [92, 92]
  else if ch = 10 then [92, 110]
  else if ch = 13 then [92, 114]
  else if ch = 9 then [92, 116]
  else if ch = 8 then [92, 98]
  else if ch = 12 then [92, 102]
  else if ch < 32 then ascii "\\u00" ++ [hexDigits.getD (ch.toNat / 16) 0, hexDigits.getD (ch.toNat % 16) 0]
  else [ch]

def jsonEscape (s : Bytes) : Bytes := s.flatMap escapeChar

def hex (c : UInt8) : Nat :=
  if 48 ≤ c ∧ c ≤ 57 then c.toNat - 48
  else if 65 ≤ c ∧ c ≤ 70 then c.toNat - 65 + 10
  else if 97 ≤ c ∧ c ≤ 102 then c.toNat - 97 + 10
  else 0

/-- The character of a code, if it has seven bits. -/
def unescapeCode (code : Bytes) : Bytes :=
  let v := code.foldl (fun v ch => v * 16 + hex ch) 0
  if v < 128 then [UInt8.ofNat v] else []

def jsonUnescape : Bytes → Bytes
  | [] => []
  | [ch] => [ch]
  | ch :: next :: s =>
    if ch = 92 then
      if next = 110 then 10 :: jsonUnescape s
      else if next = 114 then 13 :: jsonUnescape s
      else if next = 116 then 9 :: jsonUnescape s
      else if next = 34 then 34 :: jsonUnescape s
      else if next = 92 then 92 :: jsonUnescape s
      else if next = 117 then
        if 4 ≤ s.length then unescapeCode (s.take 4) ++ jsonUnescape (s.drop 4) else jsonUnescape s
      else next :: jsonUnescape s
    else ch :: jsonUnescape (next :: s)
  termination_by s => s.length
  decreasing_by all_goals simp only [List.length_cons, List.length_drop]; omega

/-- Every quote is escaped; `escaped` if there is a backslash in front that is not itself escaped. -/
def quotesEscaped (escaped : Bool) : Bytes → Bool
  | [] => true
  | ch :: s => if escaped = true then quotesEscaped false s else ch != 34 && quotesEscaped (ch == 92) s

/-- What is unescaped is the string, and in between there is no raw control character and no quote that is not escaped.
-/
structure EscapesBack (s : Bytes) : Prop where
  back : jsonUnescape (jsonEscape s) = s
  controls : ∀ ch ∈ jsonEscape s, ¬ ch < 32
  quotes : quotesEscaped false (jsonEscape s) = true

/-- What becomes of a character. -/
def unescaped (ch : UInt8) : UInt8 := if ch = 8 then 98 else if ch = 12 then 102 else ch

variable {s : Bytes} {ch : UInt8}

/-! ## One character -/

lemma jsonUnescape_cons (h : ch ≠ 92) (s : Bytes) : jsonUnescape (ch :: s) = ch :: jsonUnescape s := by
  cases s with
  | nil => rw [jsonUnescape, jsonUnescape]
  | cons next s => rw [jsonUnescape, if_neg h]

/-- The two digits of a control character are read back. -/
lemma unescapeCode_hexDigits (h : ch < 32) :
    unescapeCode [48, 48, hexDigits.getD (ch.toNat / 16) 0, hexDigits.getD (ch.toNat % 16) 0] = [ch] := by
  have hcodes : ∀ n < 32, unescapeCode [48, 48, hexDigits.getD (n / 16) 0, hexDigits.getD (n % 16) 0] =
    [UInt8.ofNat n] := by
    decide
  rw [hcodes ch.toNat h, UInt8.ofNat_toNat]

/-- The characters with an escape of their own. -/
def named : List (UInt8 × UInt8) := [(34, 34), (92, 92), (10, 110), (13, 114), (9, 116), (8, 98), (12, 102)]

lemma escapeChar_cases (ch : UInt8) :
    (∃ next, (ch, next) ∈ named ∧ escapeChar ch = [92, next]) ∨
      (ch < 32 ∧ ch ≠ 8 ∧ ch ≠ 12 ∧
        escapeChar ch = [92, 117, 48, 48, hexDigits.getD (ch.toNat / 16) 0, hexDigits.getD (ch.toNat % 16) 0]) ∨
      (¬ ch < 32 ∧ ch ≠ 34 ∧ ch ≠ 92 ∧ escapeChar ch = [ch]) := by
  rw [escapeChar]
  by_cases hnamed : ch ∈ named.map Prod.fst
  · refine .inl ?_
    simp only [named, List.map_cons, List.map_nil, List.mem_cons, List.not_mem_nil, or_false] at hnamed
    rcases hnamed with rfl | rfl | rfl | rfl | rfl | rfl | rfl
    all_goals exact ⟨_, by decide, rfl⟩
  · simp only [named, List.map_cons, List.map_nil, List.mem_cons, List.not_mem_nil, or_false, not_or] at hnamed
    obtain ⟨hquote, hbackslash, hfeed, hreturn, htab, hback, hform⟩ := hnamed
    rw [if_neg hquote, if_neg hbackslash, if_neg hfeed, if_neg hreturn, if_neg htab, if_neg hback, if_neg hform]
    by_cases hcontrol : ch < 32
    · rw [if_pos hcontrol]
      exact .inr (.inl ⟨hcontrol, hback, hform, rfl⟩)
    · rw [if_neg hcontrol]
      exact .inr (.inr ⟨hcontrol, hquote, hbackslash, rfl⟩)

lemma jsonUnescape_escapeChar_append (ch : UInt8) (t : Bytes) :
    jsonUnescape (escapeChar ch ++ t) = unescaped ch :: jsonUnescape t := by
  rcases escapeChar_cases ch with ⟨next, hnamed, heq⟩ | ⟨hcontrol, hback, hform, heq⟩ | ⟨hcontrol, hquote, hbackslash,
    heq⟩
  · rw [heq, List.cons_append, List.singleton_append, jsonUnescape]
    simp only [named, List.mem_cons, Prod.mk.injEq, List.not_mem_nil, or_false] at hnamed
    rcases hnamed with ⟨rfl, rfl⟩ | ⟨rfl, rfl⟩ | ⟨rfl, rfl⟩ | ⟨rfl, rfl⟩ | ⟨rfl, rfl⟩ | ⟨rfl, rfl⟩ | ⟨rfl, rfl⟩
    all_goals rfl
  · have hcode := unescapeCode_hexDigits hcontrol
    rw [heq, List.cons_append, List.cons_append, jsonUnescape, unescaped, if_neg hback, if_neg hform]
    exact congrArg (· ++ jsonUnescape t) hcode
  · have hsame : unescaped ch = ch := by
      rw [unescaped, if_neg (fun h => hcontrol (by rw [h]; decide)), if_neg (fun h => hcontrol (by rw [h]; decide))]
    rw [heq, List.singleton_append, jsonUnescape_cons hbackslash, hsame]

lemma controls_escapeChar (ch : UInt8) : ∀ b ∈ escapeChar ch, ¬ b < 32 := by
  rcases escapeChar_cases ch with ⟨next, hnamed, heq⟩ | ⟨hcontrol, -, -, heq⟩ | ⟨hcontrol, -, -, heq⟩
  · rw [heq]
    simp only [named, List.mem_cons, Prod.mk.injEq, List.not_mem_nil, or_false] at hnamed
    rcases hnamed with ⟨-, rfl⟩ | ⟨-, rfl⟩ | ⟨-, rfl⟩ | ⟨-, rfl⟩ | ⟨-, rfl⟩ | ⟨-, rfl⟩ | ⟨-, rfl⟩
    all_goals decide +kernel
  · have hdigit : ∀ n < 16, ¬ hexDigits.getD n 0 < 32 := by decide
    have hch : ch.toNat < 32 := hcontrol
    rw [heq]
    intro b hb
    simp only [List.mem_cons, List.not_mem_nil, or_false] at hb
    rcases hb with rfl | rfl | rfl | rfl | rfl | rfl
    · decide
    · decide
    · decide
    · decide
    · exact hdigit _ (by omega)
    · exact hdigit _ (by omega)
  · rw [heq]
    intro b hb
    rw [List.mem_singleton.1 hb]
    exact hcontrol

lemma quotesEscaped_cons (hquote : ch ≠ 34) (hbackslash : ch ≠ 92) (s : Bytes) :
    quotesEscaped false (ch :: s) = quotesEscaped false s := by
  rw [quotesEscaped, if_neg (by decide), bne_iff_ne.2 hquote, beq_eq_false_iff_ne.2 hbackslash, Bool.true_and]

lemma quotesEscaped_escapeChar_append (ch : UInt8) (t : Bytes) :
    quotesEscaped false (escapeChar ch ++ t) = quotesEscaped false t := by
  rcases escapeChar_cases ch with ⟨next, -, heq⟩ | ⟨hcontrol, -, -, heq⟩ | ⟨-, hquote, hbackslash, heq⟩
  · rw [heq]
    rfl
  · have hdigit : ∀ n < 16, hexDigits.getD n 0 ≠ 34 ∧ hexDigits.getD n 0 ≠ 92 := by decide
    have hch : ch.toNat < 32 := hcontrol
    have hhigh := hdigit (ch.toNat / 16) (by omega)
    have hlow := hdigit (ch.toNat % 16) (by omega)
    rw [heq]
    exact (quotesEscaped_cons hhigh.1 hhigh.2 _).trans (quotesEscaped_cons hlow.1 hlow.2 t)
  · rw [heq, List.singleton_append, quotesEscaped_cons hquote hbackslash]

/-! ## Strings -/

lemma jsonUnescape_jsonEscape (s : Bytes) : jsonUnescape (jsonEscape s) = s.map unescaped := by
  induction s with
  | nil => rw [jsonEscape, List.flatMap_nil, jsonUnescape, List.map_nil]
  | cons ch s ih => rw [jsonEscape, List.flatMap_cons, jsonUnescape_escapeChar_append, List.map_cons, ← ih, jsonEscape]

lemma quotesEscaped_jsonEscape (s : Bytes) : quotesEscaped false (jsonEscape s) = true := by
  induction s with
  | nil => rfl
  | cons ch s ih => rw [jsonEscape, List.flatMap_cons, quotesEscaped_escapeChar_append, ← jsonEscape, ih]

lemma unescaped_eq_self_iff : unescaped ch = ch ↔ ch ≠ 8 ∧ ch ≠ 12 := by
  rw [unescaped]
  by_cases hback : ch = 8
  · rw [if_pos hback, hback]
    decide
  · rw [if_neg hback]
    by_cases hform : ch = 12
    · rw [if_pos hform, hform]
      decide
    · rw [if_neg hform]
      exact iff_of_true rfl ⟨hback, hform⟩

/-- A string comes back as it was exactly when there is no backspace and no form feed in it. -/
theorem escapesBack_iff (s : Bytes) : EscapesBack s ↔ 8 ∉ s ∧ 12 ∉ s := by
  have hback : jsonUnescape (jsonEscape s) = s ↔ 8 ∉ s ∧ 12 ∉ s := by
    have hmap := List.map_inj_left (l := s) (f := unescaped) (g := id)
    rw [List.map_id] at hmap
    rw [jsonUnescape_jsonEscape, hmap]
    constructor
    · intro h
      exact ⟨fun hmem => absurd (h 8 hmem) (by decide), fun hmem => absurd (h 12 hmem) (by decide)⟩
    · rintro ⟨hback, hform⟩ ch hch
      exact unescaped_eq_self_iff.2 ⟨fun heq => hback (heq ▸ hch), fun heq => hform (heq ▸ hch)⟩
  refine ⟨fun h => hback.1 h.back, fun h => ⟨hback.2 h, fun ch hch => ?_, quotesEscaped_jsonEscape s⟩⟩
  obtain ⟨b, -, hb⟩ := List.mem_flatMap.1 hch
  exact controls_escapeChar b ch hb

/-- A backspace comes back as a letter. -/
theorem not_escapesBack_backspace : ¬ EscapesBack [8] := by
  intro h
  have hback : jsonUnescape (jsonEscape [8]) = [98] := jsonUnescape_jsonEscape [8]
  exact absurd (hback.symm.trans h.back) (by decide)

end CppExperiments.Json

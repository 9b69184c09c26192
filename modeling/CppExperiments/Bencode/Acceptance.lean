import CppExperiments.Bencode.Reading

/-!
# The progress of the decoder

The turns of the loop that go on, each with what it needs. The position grows from turn to turn, as long as no length
of a string takes it around.
-/

namespace CppExperiments.Bencode

open Json

variable {encoded : Bytes} {ign : Bool} {d d' : Decoder} {idx : Nat} {stk stk' : List Node}

/-- A string begins at `idx`: where its length ends, and what it is. -/
def Declares (encoded : Bytes) (idx numEndP strLen : Nat) : Prop :=
  encoded[idx]?.any isDigit = true ∧ findFrom 58 encoded idx = some numEndP ∧
    stoull (substr encoded idx numEndP) = some strLen

/-- A turn that goes on. -/
inductive Moves (encoded : Bytes) (ign : Bool) : Decoder → Decoder → Prop where
  | list {idx : Nat} {stk : List Node} : encoded[idx]? = some 108 → topIsObject stk = false →
      Moves encoded ign ⟨idx, stk⟩ ⟨idx + 1, .array [] [] :: stk⟩
  | dict {idx : Nat} {stk : List Node} : encoded[idx]? = some 100 → topIsObject stk = false →
      Moves encoded ign ⟨idx, stk⟩ ⟨idx + 1, .object [] [] :: stk⟩
  | int {idx endP : Nat} {stk stk' : List Node} {val : Int} : encoded[idx]? = some 105 → topIsObject stk = false →
      findFrom 101 encoded idx = some endP → stoll (substr encoded (idx + 1) endP) = some val →
      insertInt (Int64.ofInt val) stk = some stk' → Moves encoded ign ⟨idx, stk⟩ ⟨endP + 1, stk'⟩
  | str {idx numEndP strLen : Nat} {stk stk' : List Node} : Declares encoded idx numEndP strLen →
      (numEndP + 1 + strLen) % 2 ^ 64 ≤ encoded.length →
      insertStr (substr encoded (numEndP + 1) strLen) stk = some stk' →
      Moves encoded ign ⟨idx, stk⟩ ⟨(numEndP + 1 + strLen) % 2 ^ 64, stk'⟩
  | close {idx : Nat} {prev : Node} {rest stk' : List Node} : encoded[idx]? = some 101 → idx + 1 < encoded.length →
      close prev rest = some stk' → Moves encoded ign ⟨idx, prev :: rest⟩ ⟨idx + 1, stk'⟩
  | space {idx : Nat} {ch : UInt8} {stk : List Node} : encoded[idx]? = some ch → isSpace ch = true → ign = true →
      Moves encoded ign ⟨idx, stk⟩ ⟨idx + 1, stk⟩

lemma findFrom_eq_some {ch : UInt8} {p : Nat} (h : findFrom ch encoded idx = some p) :
    ∃ front rest, encoded.drop idx = front ++ ch :: rest ∧ ch ∉ front ∧ p = idx + front.length := by
  obtain ⟨i, hi, rfl⟩ := Option.map_eq_some_iff.1 h
  obtain ⟨front, rest, hdrop, hfront, rfl⟩ := eq_append_of_find hi
  exact ⟨front, rest, hdrop, hfront, rfl⟩

lemma findFrom_lt {ch : UInt8} {p : Nat} (h : findFrom ch encoded idx = some p) : idx ≤ p ∧ p < encoded.length := by
  obtain ⟨front, rest, hdrop, -, rfl⟩ := findFrom_eq_some h
  exact ⟨Nat.le_add_right _ _, lt_length_of_drop hdrop⟩

lemma next_eq_on {o : Option (List Node)} (h : next idx o = .on d) :
    ∃ stk, o = some stk ∧ d = ⟨(idx + 1) % 2 ^ 64, stk⟩ := by
  cases o with
  | none => cases h
  | some stk => exact ⟨stk, rfl, (Turn.on.inj h).symm⟩

lemma next_eq_on_of_lt {o : Option (List Node)} (hlen : encoded.length < 2 ^ 64) (hidx : idx < encoded.length)
    (h : next idx o = .on d) : ∃ stk, o = some stk ∧ d = ⟨idx + 1, stk⟩ := by
  obtain ⟨stk, ho, hd⟩ := next_eq_on h
  rw [Nat.mod_eq_of_lt (by omega)] at hd
  exact ⟨stk, ho, hd⟩

lemma moves_int (hlen : encoded.length < 2 ^ 64) (hch : encoded[d.idx]? = some 105) (h : turnInt encoded d = .on d') :
    Moves encoded ign d d' := by
  rw [turnInt] at h
  cases hfind : findFrom 101 encoded d.idx with
  | none => simp [hfind] at h
  | some endP =>
    simp only [hfind] at h
    by_cases hstk : topIsObject d.stk
    · rw [if_pos hstk] at h
      cases h
    · rw [if_neg hstk] at h
      cases hval : stoll (substr encoded (d.idx + 1) endP) with
      | none => simp [hval] at h
      | some val =>
        simp only [hval] at h
        obtain ⟨stk', hinsert, rfl⟩ := next_eq_on_of_lt hlen (findFrom_lt hfind).2 h
        exact .int hch (Bool.eq_false_iff.2 hstk) hfind hval hinsert

lemma moves_str (hdigit : encoded[d.idx]?.any isDigit = true) (h : turnStr encoded d = .on d') :
    Moves encoded ign d d' := by
  rw [turnStr] at h
  cases hfind : findFrom 58 encoded d.idx with
  | none => simp [hfind] at h
  | some numEndP =>
    simp only [hfind] at h
    cases hval : stoull (substr encoded d.idx numEndP) with
    | none => simp [hval] at h
    | some strLen =>
      simp only [hval] at h
      by_cases hle : (numEndP + 1 + strLen) % 2 ^ 64 > encoded.length
      · rw [if_pos hle] at h
        cases h
      · rw [if_neg hle] at h
        obtain ⟨stk', hinsert, rfl⟩ := next_eq_on h
        rw [show ((numEndP + strLen) % 2 ^ 64 + 1) % 2 ^ 64 = (numEndP + 1 + strLen) % 2 ^ 64 by omega]
        exact .str ⟨hdigit, hfind, hval⟩ (not_lt.1 hle) hinsert

lemma moves_end (hlen : encoded.length < 2 ^ 64) (hch : encoded[d.idx]? = some 101) (h : turnEnd encoded d = .on d') :
    Moves encoded ign d d' := by
  obtain ⟨idx, stk⟩ := d
  have hidx := (List.getElem?_eq_some_iff.1 hch).1
  cases stk with
  | nil => simp [turnEnd] at h
  | cons prev rest =>
    simp only [turnEnd] at h
    split at h
    · cases h
    · rename_i hgo
      split at h
      · cases h
      · obtain ⟨stk', hclose, rfl⟩ := next_eq_on_of_lt hlen hidx h
        refine .close hch ?_ hclose
        by_contra hlast
        have hidx : idx < encoded.length := hidx
        have hlast : idx + 1 = encoded.length := by omega
        simp_all

/-- The turns that go on are the moves. -/
theorem moves_of_step (hlen : encoded.length < 2 ^ 64) (h : step encoded ign d = some d') : Moves encoded ign d d' := by
  have hturn : turn encoded ign d = .on d' := by
    rw [step] at h
    cases hturn : turn encoded ign d with
    | on d'' =>
      rw [hturn] at h
      rw [Option.some.inj h]
    | returns | throws =>
      rw [hturn] at h
      cases h
  cases hch : encoded[d.idx]? with
  | none =>
    simp only [turn, hch] at hturn
    split at hturn <;> cases hturn
  | some ch =>
    have hidx := (List.getElem?_eq_some_iff.1 hch).1
    simp only [turn, hch] at hturn
    split at hturn
    · cases hturn
    rename_i hopen
    split at hturn
    · rename_i hd
      subst hd
      obtain ⟨stk', hstk, rfl⟩ := next_eq_on_of_lt hlen hidx hturn
      rw [← Option.some.inj hstk]
      exact .dict hch (by simpa using hopen)
    split at hturn
    · rename_i hl
      subst hl
      obtain ⟨stk', hstk, rfl⟩ := next_eq_on_of_lt hlen hidx hturn
      rw [← Option.some.inj hstk]
      exact .list hch (by simpa using hopen)
    split at hturn
    · rename_i hi
      subst hi
      exact moves_int hlen hch hturn
    split at hturn
    · rename_i hdigit
      exact moves_str (by rw [hch]; exact hdigit) hturn
    split at hturn
    · rename_i he
      subst he
      exact moves_end hlen hch hturn
    split at hturn
    · cases hturn
    · rename_i hspace
      obtain ⟨stk', hstk, rfl⟩ := next_eq_on_of_lt hlen hidx hturn
      rw [← Option.some.inj hstk]
      rw [not_or] at hspace
      exact .space hch (by simpa using hspace.1) (by simpa using hspace.2)

/-! ## Progress -/

/-- The loop comes to an end, and before every turn the position is within the text and behind where it was. -/
def Progresses (encoded : Bytes) (ign : Bool) : Prop :=
  (∃ d, Reaches (step encoded ign) start d ∧ step encoded ign d = none) ∧
    ∀ d, Reaches (step encoded ign) start d →
      d.idx ≤ encoded.length ∧ ∀ d', step encoded ign d = some d' → d.idx < d'.idx

/-- A string is taken whose length brings the position around to where it has been. -/
def TurnsBack (encoded : Bytes) (d : Decoder) : Prop :=
  ∃ numEndP strLen, Declares encoded d.idx numEndP strLen ∧ 2 ^ 64 ≤ numEndP + 1 + strLen ∧
    numEndP + 1 + strLen ≤ 2 ^ 64 + d.idx ∧ (insertStr (substr encoded (numEndP + 1) strLen) d.stk).isSome

/-- No turn of the loop turns back. -/
def Straight (encoded : Bytes) (ign : Bool) : Prop :=
  ∀ d, Reaches (step encoded ign) start d → ¬ TurnsBack encoded d

lemma stoull_lt {t : Bytes} {n : Nat} (h : stoull t = some n) : n < 2 ^ 64 := by
  obtain ⟨z, -, rfl⟩ := Option.map_eq_some_iff.1 h
  omega

lemma Declares.lt {numEndP strLen : Nat} (h : Declares encoded idx numEndP strLen) :
    idx ≤ numEndP ∧ numEndP < encoded.length ∧ strLen < 2 ^ 64 :=
  ⟨(findFrom_lt h.2.1).1, (findFrom_lt h.2.1).2, stoull_lt h.2.2⟩

/-- One turn. -/
lemma Moves.lt (hlen : encoded.length < 2 ^ 64) (h : Moves encoded ign d d') (hback : ¬ TurnsBack encoded d) :
    d.idx < d'.idx ∧ d'.idx ≤ encoded.length := by
  cases h with
  | list hch | dict hch | space hch =>
    have hidx := (List.getElem?_eq_some_iff.1 hch).1
    exact ⟨Nat.lt_succ_self _, hidx⟩
  | int _ _ hfind =>
    have hend := findFrom_lt hfind
    exact ⟨Nat.lt_succ_of_le hend.1, hend.2⟩
  | close hch hlt => exact ⟨Nat.lt_succ_self _, hlt.le⟩
  | @str idx numEndP strLen stk stk' hdeclares hle hinsert =>
    obtain ⟨hidx, hend, hstr⟩ := hdeclares.lt
    refine ⟨?_, hle⟩
    by_contra hnot
    have hnot : ¬ idx < (numEndP + 1 + strLen) % 2 ^ 64 := hnot
    have hwrap : 2 ^ 64 ≤ numEndP + 1 + strLen := by omega
    have hback' : numEndP + 1 + strLen ≤ 2 ^ 64 + idx := by omega
    exact hback ⟨numEndP, strLen, hdeclares, hwrap, hback', by rw [hinsert]; rfl⟩

/-- A turn at a string that turns back goes on. -/
lemma TurnsBack.exists_step (ign : Bool) (h : TurnsBack encoded d) :
    ∃ d', step encoded ign d = some d' ∧ d'.idx ≤ d.idx := by
  obtain ⟨idx, stk⟩ := d
  obtain ⟨numEndP, strLen, hdeclares, hge, hle, hinsert⟩ := h
  obtain ⟨-, hend, hstr⟩ := hdeclares.lt
  obtain ⟨hdigit, hfind, hval⟩ := hdeclares
  obtain ⟨stk', hstk⟩ := Option.isSome_iff_exists.1 hinsert
  obtain ⟨ch, hch, hdigit⟩ := (Option.any_eq_true _ _).1 hdigit
  have hle : numEndP + 1 + strLen ≤ 2 ^ 64 + idx := hle
  refine ⟨⟨((numEndP + strLen) % 2 ^ 64 + 1) % 2 ^ 64, stk'⟩, ?_, ?_⟩
  · rw [step, turn_digit ign stk hch hdigit]
    simp only [turnStr, hfind, hval, hstk]
    have hidx := (List.getElem?_eq_some_iff.1 hch).1
    rw [if_neg (by omega)]
    rfl
  · show ((numEndP + strLen) % 2 ^ 64 + 1) % 2 ^ 64 ≤ idx
    omega

/-- The decoder makes progress exactly if it never turns back. -/
theorem progresses_iff (hlen : encoded.length < 2 ^ 64) : Progresses encoded ign ↔ Straight encoded ign := by
  constructor
  · rintro ⟨-, hall⟩ d hd hback
    obtain ⟨d', hstep, hle⟩ := hback.exists_step ign
    exact absurd ((hall d hd).2 d' hstep) (not_lt.2 hle)
  · intro hstraight
    have hmoves : ∀ d d', Reaches (step encoded ign) start d → step encoded ign d = some d' →
        d.idx < d'.idx ∧ d'.idx ≤ encoded.length :=
      fun d d' hd hstep => (moves_of_step hlen hstep).lt hlen (hstraight d hd)
    have hbound : ∀ d, Reaches (step encoded ign) start d → d.idx ≤ encoded.length := by
      intro d hd
      rcases hd.eq_or_last with rfl | ⟨d', hd', hstep⟩
      · exact Nat.zero_le _
      · exact (hmoves d' d hd' hstep).2
    have hgrows := fun d d' hd hstep => (hmoves d d' hd hstep).1
    exact ⟨exists_halted Decoder.idx hbound hgrows, fun d hd => ⟨hbound d hd, fun d' => hgrows d d' hd⟩⟩

section Lengths

theorem progresses_iff_list : Progresses (ascii "l2:abe") true ↔ Straight (ascii "l2:abe") true :=
  progresses_iff (by decide)

/-- A list of a string of 2 ^ 64 - 21 bytes is read for ever. -/
theorem not_progresses_listOfString : ¬ ∀ encoded ign, encoded.length < 2 ^ 64 → Progresses encoded ign := by
  intro h
  have hall := (h (ascii "l18446744073709551595:") false (by decide)).2
  have hreach : Reaches (step (ascii "l18446744073709551595:") false) start ⟨1, [.array [] []]⟩ := ⟨1, rfl⟩
  have hstep : step (ascii "l18446744073709551595:") false ⟨1, [.array [] []]⟩ =
      some ⟨1, [.array [] [.value [] (.str [])]]⟩ := by rfl
  exact absurd ((hall _ hreach).2 _ hstep) (Nat.lt_irrefl 1)

end Lengths

end CppExperiments.Bencode

/-!
## What the decoder accepts

The well-formed texts, and the texts on which the decoder returns, which are more: an integer may have anything behind
its digits, an end marker stands for a value, the last container may be left open, and a string or an integer in front
of a container is dropped.
-/

namespace CppExperiments.Bencode

open Json

/-! ## Well-formed texts -/

/-- A string with its length in front. -/
def StringText (t : Bytes) : Prop :=
  ∃ digits content, t = digits ++ 58 :: content ∧ digits ≠ [] ∧ digits.all isDigit = true ∧
    digitsValue digits = content.length

/-- The texts of values. -/
inductive WellFormed : Bytes → Prop where
  | int {t : Bytes} : (numeral t).isSome = true → WellFormed (105 :: t ++ [101])
  | str {t : Bytes} : StringText t → WellFormed t
  | list {items : List Bytes} : (∀ t ∈ items, WellFormed t) → WellFormed (108 :: items.flatten ++ [101])
  | dict {entries : List (Bytes × Bytes)} : (∀ e ∈ entries, StringText e.1) → (∀ e ∈ entries, WellFormed e.2) →
      WellFormed (100 :: entries.flatMap (fun e => e.1 ++ e.2) ++ [101])

/-- The decoder returns on the well-formed texts, and throws on the others. -/
def Decides (s : Bytes) : Prop :=
  ((∃ node, Returns s false node) ↔ WellFormed s) ∧ (¬ WellFormed s → Throws s false)

/-! ## Tolerated texts -/

/-- A string or an integer. -/
inductive AtomText : Bytes → Prop where
  | int {t : Bytes} {v : Int64} : IntText t v → AtomText (105 :: t ++ [101])
  | str {t content : Bytes} : LenText t content.length → AtomText (t ++ 58 :: content)

/-- The members of a list or a dictionary, with the character that opens it. -/
inductive Members : UInt8 → Bytes → Prop where
  | items {items : List (Bytes × Node)} : (∀ x ∈ items, Item [] x.1 x.2) → Members 108 (items.flatMap Prod.fst)
  | entries {entries : List Entry} : (∀ e ∈ entries, LenText e.lenText e.key.length) →
      (∀ e ∈ entries, ¬ e.Dangling → Item e.key e.text e.node) → Members 100 (entries.flatMap Entry.bytes)

/-- No members, or a string or an integer as the last one. -/
inductive Unfinished : UInt8 → Bytes → Prop where
  | none {b : UInt8} : Members b [] → Unfinished b []
  | item {m t : Bytes} : Members 108 m → AtomText t → Unfinished 108 (m ++ t)
  | entry {m lenText key t : Bytes} : Members 100 m → LenText lenText key.length → AtomText t →
      Unfinished 100 (m ++ (lenText ++ 58 :: key ++ t))

/-- The texts on which the decoder returns. -/
inductive Tolerated : Bytes → Prop where
  | atom {t : Bytes} : AtomText t → Tolerated t
  | atomEnd {t : Bytes} : AtomText t → Tolerated (t ++ [101])
  | closed {b : UInt8} {m : Bytes} : Members b m → Tolerated (b :: m ++ [101])
  | unclosed {b : UInt8} {m : Bytes} : Unfinished b m → Tolerated (b :: m)
  | reopened {t m m' : Bytes} {b : UInt8} : AtomText t → Members b m → Members b m' →
      Tolerated (t ++ (b :: m ++ [101]) ++ m' ++ [101])
  | reopenedUnclosed {t m m' : Bytes} {b : UInt8} : AtomText t → Members b m → Unfinished b m' → m' ≠ [] →
      Tolerated (t ++ (b :: m ++ [101]) ++ m')

variable {s t x m : Bytes} {b : UInt8} {stk stk' : List Node} {c c' node : Node} {v : Int64} {encoded : Bytes}
  {d d' : Decoder}

lemma AtomText.item (h : AtomText t) (k : Bytes) : ∃ node, Item k t node ∧ Atom node := by
  cases h with
  | @int t v ht => exact ⟨.value k (.int v), .int ht, by simp [Atom]⟩
  | @str t content ht => exact ⟨.value k (.str content), .str ht, by simp [Atom]⟩

lemma Item.members (h : Item [] t node) : Members 108 t := by
  have hsingle : Members 108 ([(t, node)].flatMap Prod.fst) := .items (by simpa using h)
  rwa [List.flatMap_singleton] at hsingle

lemma members_entry {e : Entry} (hkey : LenText e.lenText e.key.length)
    (hitem : ¬ e.Dangling → Item e.key e.text e.node) : Members 100 e.bytes := by
  have hsingle : Members 100 ([e].flatMap Entry.bytes) := .entries (by simpa using hkey) (by simpa using hitem)
  rwa [List.flatMap_singleton] at hsingle

lemma Members.append (h : Members b m) (hx : Members b x) : Members b (m ++ x) := by
  cases h with
  | items h =>
    cases hx with
    | items hx =>
      rw [← List.flatMap_append]
      exact .items fun y hy => (List.mem_append.1 hy).elim (h y) (hx y)
  | entries hkeys hitems =>
    cases hx with
    | entries hkeys' hitems' =>
      rw [← List.flatMap_append]
      exact .entries (fun e he => (List.mem_append.1 he).elim (hkeys e) (hkeys' e))
        fun e he => (List.mem_append.1 he).elim (hitems e) (hitems' e)

lemma Members.item (h : Members b m) (k : Bytes) : ∃ node, Item k (b :: m ++ [101]) node := by
  cases h with
  | items h => exact ⟨_, .list h⟩
  | entries hkeys hitems => exact ⟨_, .dict hkeys hitems⟩

lemma Members.nil (h : Members b m) : Members b [] := by
  cases h with
  | items => exact @Members.items [] (by simp)
  | entries => exact @Members.entries [] (by simp) (by simp)

/-! ## The stack and the text behind it -/

/-- The character that opens a container. -/
def opening : Node → UInt8
  | .array _ _ => 108
  | .object _ _ => 100
  | .value _ _ => 0

/-- What the stack stands for: the text that has been read. -/
inductive Pending : List Node → Bytes → Prop where
  | nil : Pending [] []
  | atom {k t : Bytes} {v : Simple} : v ≠ .null → AtomText t → Pending [.value k v] t
  | container {c : Node} {stk : List Node} {t m : Bytes} : Pending stk t → topIsObject stk = false →
      Members (opening c) m →
      Pending (c :: stk) (t ++ opening c :: m)
  | key {ko key lenText t : Bytes} {values stk : List Node} : Pending (.object ko values :: stk) t →
      LenText lenText key.length →
      Pending (.value key .null :: .object ko values :: stk) (t ++ (lenText ++ 58 :: key))
  | reopened {c : Node} {t m m' : Bytes} : AtomText t → Members (opening c) m → Members (opening c) m' →
      Pending [c] (t ++ (opening c :: m ++ [101]) ++ m')

lemma not_members_zero : ¬ Members 0 m := by
  intro h
  cases h

/-- Members are added to the container on top. -/
lemma Pending.append (h : Pending (c :: stk) t) (hx : Members (opening c) x) (hc : opening c' = opening c) :
    Pending (c' :: stk) (t ++ x) := by
  cases h with
  | atom | key => exact absurd hx not_members_zero
  | @container _ _ t m hstk htop hm =>
    have hgrown := Pending.container hstk htop (hc.symm ▸ hm.append hx : Members (opening c') (m ++ x))
    rw [hc] at hgrown
    rwa [List.append_assoc, List.cons_append]
  | @reopened _ t m m' ht hm hm' =>
    have hgrown := Pending.reopened ht (hc.symm ▸ hm : Members (opening c') m)
      (hc.symm ▸ hm'.append hx : Members (opening c') (m' ++ x))
    rw [hc] at hgrown
    rwa [List.append_assoc]

/-- What is on top of the stack. -/
lemma Pending.top (h : Pending stk t) : stk = [] ∨ (∃ k v, stk = [.value k v] ∧ v ≠ .null ∧ AtomText t) ∨
    (∃ k values rest, stk = .array k values :: rest) ∨ (∃ k values rest, stk = .object k values :: rest) ∨
    ∃ key ko values rest, stk = .value key .null :: .object ko values :: rest := by
  cases h with
  | nil => exact Or.inl rfl
  | atom hv ht => exact Or.inr (Or.inl ⟨_, _, rfl, hv, ht⟩)
  | @container c _ _ _ _ _ hm | @reopened c _ _ _ _ hm =>
    cases c with
    | value => exact absurd hm not_members_zero
    | array => exact Or.inr (Or.inr (Or.inl ⟨_, _, _, rfl⟩))
    | object => exact Or.inr (Or.inr (Or.inr (Or.inl ⟨_, _, _, rfl⟩)))
  | key => exact Or.inr (Or.inr (Or.inr (Or.inr ⟨_, _, _, _, rfl⟩)))

/-- A value goes into the list on top, or stands for the key on top. -/
inductive Slots : List Node → List Node → Prop where
  | array {k : Bytes} {values values' stk : List Node} : Slots (.array k values :: stk) (.array k values' :: stk)
  | entry {key ko : Bytes} {values values' stk : List Node} :
      Slots (.value key .null :: .object ko values :: stk) (.object ko values' :: stk)

lemma Pending.insertInt (h : Pending stk t) (hinsert : insertInt v stk = some stk') :
    stk = [] ∧ stk' = [.value [] (.int v)] ∨ Slots stk stk' := by
  rcases h.top with rfl | ⟨k, val, rfl, hval, -⟩ | ⟨k, values, rest, rfl⟩ | ⟨k, values, rest, rfl⟩ |
    ⟨key, ko, values, rest, rfl⟩
  · exact Or.inl ⟨rfl, (Option.some.inj hinsert).symm⟩
  · cases val <;> first | exact absurd rfl hval | cases hinsert
  · obtain rfl := Option.some.inj hinsert
    exact Or.inr .array
  · cases hinsert
  · obtain rfl := Option.some.inj hinsert
    exact Or.inr .entry

lemma Pending.insertStr {content : Bytes} (h : Pending stk t) (hinsert : insertStr content stk = some stk') :
    stk = [] ∧ stk' = [.value [] (.str content)] ∨ Slots stk stk' ∨
      ∃ ko values rest, stk = .object ko values :: rest ∧ stk' = .value content .null :: .object ko values :: rest := by
  rcases h.top with rfl | ⟨k, val, rfl, hval, -⟩ | ⟨k, values, rest, rfl⟩ | ⟨k, values, rest, rfl⟩ |
    ⟨key, ko, values, rest, rfl⟩
  · exact Or.inl ⟨rfl, (Option.some.inj hinsert).symm⟩
  · cases val <;> first | exact absurd rfl hval | cases hinsert
  · obtain rfl := Option.some.inj hinsert
    exact Or.inr (Or.inl .array)
  · exact Or.inr (Or.inr ⟨k, values, rest, rfl, (Option.some.inj hinsert).symm⟩)
  · obtain rfl := Option.some.inj hinsert
    exact Or.inr (Or.inl .entry)

lemma Pending.close {prev : Node} (h : Pending stk t) (htop : topIsObject stk = false)
    (hclose : close prev stk = some stk') :
    (∃ k v, stk = [.value k v] ∧ stk' = [prev.setKey k] ∧ AtomText t) ∨ Slots stk stk' := by
  rcases h.top with rfl | ⟨k, val, rfl, -, ht⟩ | ⟨k, values, rest, rfl⟩ | ⟨k, values, rest, rfl⟩ |
    ⟨key, ko, values, rest, rfl⟩
  · cases hclose
  · exact Or.inl ⟨k, val, rfl, (Option.some.inj hclose).symm, ht⟩
  · obtain rfl := Option.some.inj hclose
    exact Or.inr .array
  · cases htop
  · obtain rfl := Option.some.inj hclose
    exact Or.inr .entry

/-- A value is read where it belongs. -/
lemma Pending.slots (h : Pending stk t) (hslots : Slots stk stk') (hx : ∀ k, ∃ node, Item k x node) :
    Pending stk' (t ++ x) := by
  cases hslots with
  | array =>
    obtain ⟨node, hitem⟩ := hx []
    exact h.append hitem.members rfl
  | @entry key =>
    cases h with
    | container _ _ hm => exact absurd hm not_members_zero
    | @key _ _ lenText t _ _ hobject hkey =>
      obtain ⟨node, hitem⟩ := hx key
      have hentry := @members_entry ⟨lenText, key, x, node⟩ hkey fun _ => hitem
      rw [List.append_assoc]
      exact hobject.append hentry rfl

/-- An end marker is read that closes a container, or stands for a value. -/
lemma Pending.closed {prev : Node} (h : Pending (prev :: stk) t) (hclose : Bencode.close prev stk = some stk') :
    Pending stk' (t ++ [101]) := by
  cases h with
  | atom | reopened => cases hclose
  | @key ko key lenText t _ _ hobject hkey =>
    obtain rfl := Option.some.inj hclose
    have hentry := @members_entry ⟨lenText, key, [101], .value key .null⟩ hkey fun hnot => absurd ⟨rfl, rfl⟩ hnot
    rw [List.append_assoc]
    exact hobject.append hentry rfl
  | @container c _ t m hstk htop hm =>
    have hitem := hm.item
    rw [List.append_assoc]
    rcases hstk.close htop hclose with ⟨k, v, rfl, rfl, ht⟩ | hslots
    · have hopening : opening (prev.setKey k) = opening prev := by cases prev <;> rfl
      rw [← hopening] at hm ⊢
      have hreopened := Pending.reopened ht hm hm.nil
      rwa [List.append_nil] at hreopened
    · exact hstk.slots hslots hitem

/-- A turn that goes on, as what it takes from the text. -/
inductive Consumes : List Node → Bytes → List Node → Prop where
  | list {stk : List Node} : topIsObject stk = false → Consumes stk [108] (.array [] [] :: stk)
  | dict {stk : List Node} : topIsObject stk = false → Consumes stk [100] (.object [] [] :: stk)
  | int {stk stk' : List Node} {t : Bytes} {v : Int64} : IntText t v → insertInt v stk = some stk' →
      Consumes stk (105 :: t ++ [101]) stk'
  | str {stk stk' : List Node} {t content : Bytes} : LenText t content.length → insertStr content stk = some stk' →
      Consumes stk (t ++ 58 :: content) stk'
  | close {stk stk' : List Node} {prev : Node} : close prev stk = some stk' → Consumes (prev :: stk) [101] stk'

lemma Pending.eq_nil (h : Pending [] t) : t = [] := by
  cases h
  rfl

lemma Pending.consumes (h : Pending stk t) (hconsumes : Consumes stk x stk') : Pending stk' (t ++ x) := by
  cases hconsumes with
  | list htop => exact .container h htop (@Members.items [] (by simp))
  | dict htop => exact .container h htop (@Members.entries [] (by simp) (by simp))
  | @int _ _ x v hx hinsert =>
    rcases h.insertInt hinsert with ⟨rfl, rfl⟩ | hslots
    · rw [h.eq_nil]
      exact .atom (by simp) (.int hx)
    · exact h.slots hslots fun k => ⟨_, .int hx⟩
  | @str _ _ x content hx hinsert =>
    rcases h.insertStr hinsert with ⟨rfl, rfl⟩ | hslots | ⟨ko, values, rest, rfl, rfl⟩
    · rw [h.eq_nil]
      exact .atom (by simp) (.str hx)
    · exact h.slots hslots fun k => ⟨_, .str hx⟩
    · exact .key h hx
  | close hclose => exact h.closed hclose

/-! ## The end of the text -/

/-- The container on top is left open. -/
lemma Pending.unclosed (h : Pending [c] t) (hc : opening c ≠ 0) (hne : x ≠ [])
    (hx : ∀ m, Members (opening c) m → Unfinished (opening c) (m ++ x)) : Tolerated (t ++ x) := by
  cases h with
  | atom => exact absurd rfl hc
  | @container _ _ t m hstk _ hm =>
    rw [hstk.eq_nil, List.nil_append]
    exact .unclosed (hx m hm)
  | @reopened _ t m m' ht hm hm' =>
    rw [List.append_assoc]
    exact .reopenedUnclosed ht hm (hx m' hm') (List.append_ne_nil_of_right_ne_nil _ hne)

lemma AtomText.ne_nil (h : AtomText t) : t ≠ [] := by
  obtain ⟨node, hitem, -⟩ := h.item []
  exact hitem.ne_nil

lemma Pending.tolerated_of_slots (h : Pending stk t) (hslots : Slots stk [node]) (hx : AtomText x) :
    Tolerated (t ++ x) := by
  cases hslots with
  | array => exact h.unclosed (by simp [opening]) hx.ne_nil fun m hm => .item hm hx
  | @entry key =>
    cases h with
    | container _ _ hm => exact absurd hm not_members_zero
    | @key _ _ lenText t _ _ hobject hkey =>
      rw [List.append_assoc]
      refine hobject.unclosed (by simp [opening]) (List.append_ne_nil_of_right_ne_nil _ hx.ne_nil) fun m hm => ?_
      exact .entry hm hkey hx

/-- The text ends with a turn that goes on. -/
lemma Pending.tolerated_of_consumes (h : Pending stk t) (hconsumes : Consumes stk x [node]) (hgoes : x ≠ [101]) :
    Tolerated (t ++ x) := by
  cases hconsumes with
  | list =>
    rw [h.eq_nil]
    exact .unclosed (.none (@Members.items [] (by simp)))
  | dict =>
    rw [h.eq_nil]
    exact .unclosed (.none (@Members.entries [] (by simp) (by simp)))
  | @int _ _ x v hx hinsert =>
    rcases h.insertInt hinsert with ⟨rfl, -⟩ | hslots
    · rw [h.eq_nil]
      exact .atom (.int hx)
    · exact h.tolerated_of_slots hslots (.int hx)
  | @str _ _ x content hx hinsert =>
    rcases h.insertStr hinsert with ⟨rfl, -⟩ | hslots | ⟨ko, values, rest, rfl, hstk⟩
    · rw [h.eq_nil]
      exact .atom (.str hx)
    · exact h.tolerated_of_slots hslots (.str hx)
    · cases hstk
  | close => exact absurd rfl hgoes

/-- The text ends with the end marker at which the decoder returns. -/
lemma Pending.tolerated_of_end (h : Pending [node] t) : Tolerated (t ++ [101]) := by
  cases h with
  | atom _ ht => exact .atomEnd ht
  | @container _ _ t m hstk _ hm =>
    rw [hstk.eq_nil, List.nil_append]
    exact .closed hm
  | reopened ht hm hm' => exact .reopened ht hm hm'

/-- A string is taken though the sum of its position and its length is none of 64 bits. -/
def Wraps (encoded : Bytes) (d : Decoder) : Prop :=
  ∃ numEndP strLen, Declares encoded d.idx numEndP strLen ∧ 2 ^ 64 ≤ numEndP + 1 + strLen ∧
    numEndP + 1 + strLen ≤ 2 ^ 64 + encoded.length ∧
    (insertStr (substr encoded (numEndP + 1) strLen) d.stk).isSome

/-- No turn of the loop wraps around. -/
def Unwrapped (encoded : Bytes) : Prop := ∀ d, Reaches (step encoded false) start d → ¬ Wraps encoded d

lemma Declares.lenText {idx numEndP strLen : Nat} (h : Declares encoded idx numEndP strLen)
    (hle : numEndP + 1 + strLen ≤ encoded.length) : ∃ l content rest, encoded.drop idx = l ++ 58 :: (content ++ rest) ∧
      numEndP = idx + l.length ∧ strLen = content.length ∧ LenText l content.length ∧
      substr encoded (numEndP + 1) strLen = content := by
  obtain ⟨hdigit, hfind, hval⟩ := h
  obtain ⟨l, rest, hdrop, hcolon, rfl⟩ := findFrom_eq_some hfind
  rw [stoull_substr hdrop] at hval
  have hrest : encoded.drop (idx + l.length + 1) = rest := drop_succ (drop_add hdrop)
  have hlen : (rest.take strLen).length = strLen := by
    rw [← hrest, List.length_take, List.length_drop]
    omega
  have hhead : l.head?.any isDigit = true := by
    cases l with
    | nil =>
      rw [getElem?_of_drop hdrop] at hdigit
      cases hdigit
    | cons ch l =>
      rw [getElem?_of_drop hdrop] at hdigit
      exact hdigit
  refine ⟨l, rest.take strLen, rest.drop strLen, by rw [List.take_append_drop, hdrop], rfl, hlen.symm, ?_, ?_⟩
  · exact ⟨hhead, hcolon, by rw [hlen, hval]⟩
  · rw [substr, hrest]

lemma exists_drop {idx : Nat} (h : encoded[idx]? = some b) : ∃ rest, encoded.drop idx = b :: rest := by
  obtain ⟨hlt, rfl⟩ := List.getElem?_eq_some_iff.1 h
  exact ⟨_, List.drop_eq_getElem_cons hlt⟩

/-- A turn takes its text, and something follows a container that is closed. -/
lemma Moves.consumes (h : Moves encoded false d d') (hwrap : ¬ Wraps encoded d) : ∃ x rest,
    encoded.drop d.idx = x ++ rest ∧ d'.idx = d.idx + x.length ∧ Consumes d.stk x d'.stk ∧ (x = [101] → rest ≠ []) := by
  cases h with
  | list hch htop =>
    obtain ⟨rest, hdrop⟩ := exists_drop hch
    exact ⟨[108], rest, hdrop, rfl, .list htop, fun h => absurd h (by decide)⟩
  | dict hch htop =>
    obtain ⟨rest, hdrop⟩ := exists_drop hch
    exact ⟨[100], rest, hdrop, rfl, .dict htop, fun h => absurd h (by decide)⟩
  | @int idx endP stk stk' val hch htop hfind hval hinsert =>
    obtain ⟨front, rest, hdrop, hend, rfl⟩ := findFrom_eq_some hfind
    obtain ⟨t, rfl⟩ : ∃ t, front = 105 :: t := by
      cases front with
      | nil =>
        rw [getElem?_of_drop hdrop] at hch
        exact absurd hch (by decide)
      | cons ch t =>
        rw [getElem?_of_drop hdrop] at hch
        rw [Option.some.inj hch]
        exact ⟨t, rfl⟩
    rw [List.length_cons, stoll_substr hdrop] at hval
    refine ⟨105 :: t ++ [101], rest, by simp [hdrop], by simp; omega, .int ⟨?_, ?_⟩ hinsert, by simp⟩
    · exact fun hmem => hend (List.mem_cons_of_mem _ hmem)
    · rw [hval]
      rfl
  | @str idx numEndP strLen stk stk' hdeclares hle hinsert =>
    have hsum : numEndP + 1 + strLen < 2 ^ 64 := by
      by_contra hge
      have hlt := hdeclares.lt
      exact hwrap ⟨numEndP, strLen, hdeclares, not_lt.1 hge, by omega, by rw [hinsert]; rfl⟩
    rw [Nat.mod_eq_of_lt hsum] at hle
    obtain ⟨l, content, rest, hdrop, rfl, rfl, hl, hsub⟩ := hdeclares.lenText hle
    rw [hsub] at hinsert
    refine ⟨l ++ 58 :: content, rest, by simp [hdrop], ?_, .str hl hinsert, fun h => ?_⟩
    · show (idx + l.length + 1 + content.length) % 2 ^ 64 = idx + _
      rw [Nat.mod_eq_of_lt hsum, List.length_append, List.length_cons]
      omega
    · have hmem : (58 : UInt8) ∈ [101] := h ▸ List.mem_append_right l List.mem_cons_self
      exact absurd hmem (by decide)
  | close hch hlt hclose =>
    obtain ⟨rest, hdrop⟩ := exists_drop hch
    refine ⟨[101], rest, hdrop, rfl, .close hclose, fun _ => ?_⟩
    rintro rfl
    have hend := congrArg List.length hdrop
    rw [List.length_drop, List.length_singleton] at hend
    have hlt' := hlt
    omega
  | space _ _ hign => cases hign

lemma take_consumed {idx : Nat} {x rest : Bytes} (h : encoded.drop idx = x ++ rest) :
    encoded.take (idx + x.length) = encoded.take idx ++ x := by
  rw [List.take_add, h, List.take_left]

/-- What the stack stands for, wherever the loop comes. -/
theorem pending_of_reaches (hlen : encoded.length < 2 ^ 64) (hwrap : Unwrapped encoded)
    (h : Reaches (step encoded false) start d) : Pending d.stk (encoded.take d.idx) := by
  refine h.invariant (fun d => Pending d.stk (encoded.take d.idx)) .nil ?_
  intro d d' hd hpending hstep
  obtain ⟨x, rest, hdrop, hidx, hconsumes, -⟩ := (moves_of_step hlen hstep).consumes (hwrap d hd)
  rw [hidx, take_consumed hdrop]
  exact hpending.consumes hconsumes

lemma next_ne_returns {idx : Nat} {o : Option (List Node)} : next idx o ≠ .returns node := by
  cases o <;> exact fun h => by cases h

lemma turnInt_ne_returns : turnInt encoded d ≠ .returns node := by
  rw [turnInt]
  split
  · exact fun h => by cases h
  · split
    · exact fun h => by cases h
    · split
      · exact fun h => by cases h
      · exact next_ne_returns

lemma turnStr_ne_returns : turnStr encoded d ≠ .returns node := by
  rw [turnStr]
  split
  · exact fun h => by cases h
  · split
    · exact fun h => by cases h
    · split
      · exact fun h => by cases h
      · exact next_ne_returns

lemma turnEnd_returns (h : turnEnd encoded d = .returns node) : d.stk = [node] ∧ d.idx + 1 = encoded.length := by
  obtain ⟨idx, stk⟩ := d
  cases stk with
  | nil => simp [turnEnd] at h
  | cons prev rest =>
    simp only [turnEnd] at h
    split at h
    · cases h
    · split at h
      · rename_i hlast
        cases h
        exact ⟨by rw [hlast.2], hlast.1⟩
      · exact absurd h next_ne_returns

/-- The turns that return. -/
lemma returns_cases {idx : Nat} (h : turn encoded false ⟨idx, stk⟩ = .returns node) :
    stk = [node] ∧ (encoded.length ≤ idx ∨ encoded.drop idx = [101]) := by
  cases hch : encoded[idx]? with
  | none =>
    simp only [turn, hch] at h
    split at h
    · cases h
      exact ⟨rfl, Or.inl (List.getElem?_eq_none_iff.1 hch)⟩
    · cases h
  | some ch =>
    simp only [turn, hch] at h
    split at h
    · cases h
    split at h
    · cases h
    split at h
    · cases h
    split at h
    · exact absurd h turnInt_ne_returns
    split at h
    · exact absurd h turnStr_ne_returns
    split at h
    · rename_i he
      subst he
      obtain ⟨hstk, hlast⟩ := turnEnd_returns h
      obtain ⟨rest, hdrop⟩ := exists_drop hch
      have hend := congrArg List.length hdrop
      rw [List.length_drop, List.length_cons] at hend
      have hlast : idx + 1 = encoded.length := hlast
      obtain rfl : rest = [] := List.eq_nil_of_length_eq_zero (by omega)
      exact ⟨hstk, Or.inr hdrop⟩
    split at h <;> cases h

/-- The texts on which the decoder returns are tolerated. -/
theorem Returns.tolerated (hlen : encoded.length < 2 ^ 64) (hwrap : Unwrapped encoded)
    (h : Returns encoded false node) : Tolerated encoded := by
  obtain ⟨⟨idx, stk⟩, hreach, hturn⟩ := h
  obtain ⟨rfl, hend | hend⟩ := returns_cases hturn
  · rcases hreach.eq_or_last with heq | ⟨d, hd, hstep⟩
    · cases heq
    · obtain ⟨x, rest, hdrop, hidx, hconsumes, hclose⟩ := (moves_of_step hlen hstep).consumes (hwrap d hd)
      have hlast := congrArg List.length hdrop
      rw [List.length_drop, List.length_append] at hlast
      have hidx : idx = d.idx + x.length := hidx
      obtain rfl : rest = [] := List.eq_nil_of_length_eq_zero (by omega)
      have htolerated := (pending_of_reaches hlen hwrap hd).tolerated_of_consumes hconsumes fun h => hclose h rfl
      rwa [← take_consumed hdrop, ← hidx, List.take_of_length_le hend] at htolerated
  · have htolerated := (pending_of_reaches hlen hwrap hreach).tolerated_of_end
    rwa [← hend, List.take_append_drop] at htolerated

/-! ## Reading tolerated texts -/

/-- An open container. -/
def openWith (b : UInt8) (values : List Node) : Node := if b = 100 then .object [] values else .array [] values

variable {idx : Nat} {rest m' : Bytes}

lemma Members.char (h : Members b m) : b = 108 ∨ b = 100 := by
  cases h with
  | items => exact Or.inl rfl
  | entries => exact Or.inr rfl

lemma reaches_open (hlen : encoded.length < 2 ^ 64) (hb : b = 108 ∨ b = 100) (htop : topIsObject stk = false)
    (h : encoded.drop idx = b :: rest) :
    Reaches (step encoded false) ⟨idx, stk⟩ ⟨idx + 1, openWith b [] :: stk⟩ := by
  rcases hb with rfl | rfl
  · exact Reaches.head (step_of_turn hlen (turn_list false h htop) (lt_length_of_cons h)) (Reaches.refl _)
  · exact Reaches.head (step_of_turn hlen (turn_dict false h htop) (lt_length_of_cons h)) (Reaches.refl _)

/-- Members are read into an open container. -/
lemma Members.fills (stk values : List Node) (hlen : encoded.length < 2 ^ 64) (h : Members b m)
    (hdrop : encoded.drop idx = m ++ rest) (hrest : rest ≠ []) : ∃ values',
      Reaches (step encoded false) ⟨idx, openWith b values :: stk⟩
      ⟨idx + m.length, openWith b values' :: stk⟩ := by
  cases h with
  | items h =>
    exact ⟨_, reaches_items (fun x hx => ⟨(h x hx).key, (h x hx).ne_nil⟩) (fun x hx => (h x hx).advances hlen) hdrop
      (Or.inl hrest)⟩
  | entries hkeys hitems =>
    exact ⟨_, reaches_entries hlen (fun e he => ⟨hkeys e he, Entry.node_key (hitems e he)⟩)
      (fun e he hd => (hitems e he hd).advances hlen) hdrop (Or.inl hrest)⟩

lemma Unfinished.fills (stk values : List Node) (hlen : encoded.length < 2 ^ 64) (h : Unfinished b m)
    (hdrop : encoded.drop idx = m ++ rest) : ∃ values', Reaches (step encoded false) ⟨idx, openWith b values :: stk⟩
      ⟨idx + m.length, openWith b values' :: stk⟩ := by
  cases h with
  | none => exact ⟨values, Reaches.refl _⟩
  | @item m t hm ht =>
    obtain ⟨node, hitem, hatom⟩ := ht.item []
    rw [List.append_assoc] at hdrop
    obtain ⟨values', hfill⟩ := hm.fills stk values hlen hdrop (List.append_ne_nil_of_left_ne_nil ht.ne_nil _)
    have hlast := @Item.advances encoded t false [] node hlen hitem (idx + m.length) _ _ rest (drop_add hdrop)
      (Or.inr hatom) (@Takes.array node [] values' stk hitem.key)
    rw [List.length_append, ← Nat.add_assoc]
    exact ⟨_, hfill.trans hlast⟩
  | @entry m l key t hm hkey ht =>
    obtain ⟨node, hitem, hatom⟩ := ht.item key
    rw [List.append_assoc] at hdrop
    obtain ⟨values', hfill⟩ := hm.fills stk values hlen hdrop (by simp)
    have hlast := @reaches_entry encoded rest false (idx + m.length) stk hlen ⟨l, key, t, node⟩ hkey hitem.key
      (fun _ => hitem.advances hlen) [] values' (drop_add hdrop) (Or.inr hatom)
    rw [List.length_append, ← Nat.add_assoc]
    exact ⟨_, hfill.trans hlast⟩

lemma Returns.of_open (hreach : Reaches (step encoded false) start ⟨idx, [node]⟩)
    (h : encoded.drop idx = []) : Returns encoded false node := by
  refine ⟨_, hreach, ?_⟩
  rw [turn, List.getElem?_eq_none (List.drop_eq_nil_iff.1 h)]

lemma Unfinished.char (h : Unfinished b m) : b = 108 ∨ b = 100 := by
  cases h with
  | none h => exact h.char
  | item h | entry h => exact h.char

/-- A container is left open. -/
lemma Unfinished.returns (hlen : (b :: m).length < 2 ^ 64) (h : Unfinished b m) :
    ∃ node, Returns (b :: m) false node := by
  have hzero : (b :: m).drop 0 = b :: m := rfl
  have hopen := reaches_open hlen h.char (rfl : topIsObject [] = false) hzero
  have hdrop : (b :: m).drop 1 = m ++ [] := by rw [List.drop_one, List.tail_cons, List.append_nil]
  obtain ⟨values, hfill⟩ := h.fills [] [] hlen hdrop
  exact ⟨_, .of_open (hopen.trans hfill) (drop_add hdrop)⟩

lemma close_openWith {k : Bytes} {v : Simple} (hk : k = []) (values : List Node) :
    close (openWith b values) [.value k v] = some [openWith b values] := by
  rw [close, if_neg (by simp), hk, openWith]
  split <;> rfl

/-- A container takes the place of a string or an integer, and stays open. -/
lemma reaches_reopened (hlen : encoded.length < 2 ^ 64) (ht : AtomText t) (hm : Members b m)
    (h : encoded = t ++ (b :: m ++ [101]) ++ rest) (hrest : rest ≠ []) : ∃ values,
    Reaches (step encoded false) start ⟨(t ++ (b :: m ++ [101])).length, [openWith b values]⟩ := by
  obtain ⟨node, hitem, hatom⟩ := ht.item []
  obtain ⟨k, v, rfl⟩ : ∃ k v, node = .value k v := by
    cases node with
    | value k v => exact ⟨k, v, rfl⟩
    | array | object => exact hatom.elim
  have hk : k = [] := hitem.key
  have hatom := @reaches_atom encoded t _ false _ hlen hitem hatom (h.trans (List.append_assoc _ _ _))
  have hdrop : encoded.drop t.length = b :: (m ++ ([101] ++ rest)) := by
    rw [h, List.append_assoc, List.drop_left]
    simp
  have hopen := reaches_open hlen hm.char (rfl : topIsObject [.value k v] = false) hdrop
  have hdrop' := drop_succ hdrop
  obtain ⟨values, hfill⟩ := hm.fills [.value k v] [] hlen hdrop' (by simp)
  have hmark : encoded.drop (t.length + 1 + m.length) = 101 :: rest := drop_add hdrop'
  have hturn := turn_close false (openWith b values) hmark hrest (List.cons_ne_nil (.value k v) [])
  rw [close_openWith hk] at hturn
  have hclose := Reaches.head (step_of_turn hlen hturn (lt_length_of_cons hmark)) (Reaches.refl _)
  have hidx : (t ++ (b :: m ++ [101])).length = t.length + 1 + m.length + 1 := by
    rw [List.length_append, List.length_append, List.length_cons, List.length_singleton]
    omega
  refine ⟨values, ?_⟩
  rw [hidx]
  exact ((hatom.trans hopen).trans hfill).trans hclose

/-- The decoder returns on the tolerated texts. -/
theorem Tolerated.returns (hlen : encoded.length < 2 ^ 64) (h : Tolerated encoded) :
    ∃ node, Returns encoded false node := by
  cases h with
  | atom ht =>
    obtain ⟨node, hitem, -⟩ := ht.item []
    exact ⟨node, hitem.returns hlen⟩
  | @atomEnd t ht =>
    obtain ⟨node, hitem, hatom⟩ := ht.item []
    exact ⟨node, returns_of_last (reaches_atom hlen hitem hatom rfl) List.drop_left⟩
  | closed hm =>
    obtain ⟨node, hitem⟩ := hm.item []
    exact ⟨node, hitem.returns hlen⟩
  | unclosed hm => exact hm.returns hlen
  | @reopened t m m' b ht hm hm' =>
    have hassoc : t ++ (b :: m ++ [101]) ++ m' ++ [101] = t ++ (b :: m ++ [101]) ++ (m' ++ [101]) :=
      List.append_assoc _ _ _
    obtain ⟨values, hreach⟩ := reaches_reopened hlen ht hm hassoc (by simp)
    have hdrop : (t ++ (b :: m ++ [101]) ++ m' ++ [101]).drop (t ++ (b :: m ++ [101])).length = m' ++ [101] := by
      rw [hassoc, List.drop_left]
    obtain ⟨values', hfill⟩ := hm'.fills [] values hlen hdrop (by simp)
    exact ⟨_, returns_of_last (hreach.trans hfill) (drop_add hdrop)⟩
  | @reopenedUnclosed t m m' b ht hm hm' hne =>
    obtain ⟨values, hreach⟩ := reaches_reopened hlen ht hm rfl hne
    have hdrop : (t ++ (b :: m ++ [101]) ++ m').drop (t ++ (b :: m ++ [101])).length = m' ++ [] := by
      rw [List.drop_left, List.append_nil]
    obtain ⟨values', hfill⟩ := hm'.fills [] values hlen hdrop
    exact ⟨_, .of_open (hreach.trans hfill) (drop_add hdrop)⟩

theorem returns_iff (hlen : encoded.length < 2 ^ 64) (hwrap : Unwrapped encoded) :
    (∃ node, Returns encoded false node) ↔ Tolerated encoded :=
  ⟨fun ⟨_, h⟩ => h.tolerated hlen hwrap, fun h => h.returns hlen⟩

/-! ## Decision -/

lemma Unwrapped.straight (hwrap : Unwrapped encoded) : Straight encoded false := by
  rintro d hd ⟨numEndP, strLen, hdeclares, hge, hle, hinsert⟩
  have hlt := hdeclares.lt
  exact hwrap d hd ⟨numEndP, strLen, hdeclares, hge, by omega, hinsert⟩

lemma returns_or_throws (h : ∃ d, Reaches (step encoded false) start d ∧ step encoded false d = none) :
    (∃ node, Returns encoded false node) ∨ Throws encoded false := by
  obtain ⟨d, hd, hhalt⟩ := h
  cases hturn : turn encoded false d with
  | on d' =>
    rw [step, hturn] at hhalt
    cases hhalt
  | returns node => exact Or.inl ⟨node, d, hd, hturn⟩
  | throws => exact Or.inr ⟨d, hd, hturn⟩

/-- The decoder decides a text exactly if it is tolerated and well-formed, or neither. -/
theorem decides_iff (hlen : encoded.length < 2 ^ 64) (hwrap : Unwrapped encoded) :
    Decides encoded ↔ (Tolerated encoded ↔ WellFormed encoded) := by
  rw [Decides, returns_iff hlen hwrap]
  constructor
  · exact fun h => h.1
  · intro h
    refine ⟨h, fun hnot => ?_⟩
    have hhalts := ((progresses_iff hlen).2 hwrap.straight).1
    rcases returns_or_throws hhalts with hreturns | hthrows
    · exact absurd (h.1 ((returns_iff hlen hwrap).1 hreturns)) hnot
    · exact hthrows

section Integers

/-- Without a colon nothing wraps around. -/
lemma unwrapped_of_not_mem (h : (58 : UInt8) ∉ encoded) : Unwrapped encoded := by
  rintro d - ⟨numEndP, strLen, ⟨-, hfind, -⟩, -⟩
  obtain ⟨front, rest, hdrop, -⟩ := findFrom_eq_some hfind
  have hmem : (58 : UInt8) ∈ encoded.drop d.idx := hdrop ▸ List.mem_append_right front List.mem_cons_self
  exact h (List.mem_of_mem_drop hmem)

theorem decides_iff_integer : Decides (ascii "i5e") ↔ (Tolerated (ascii "i5e") ↔ WellFormed (ascii "i5e")) :=
  decides_iff (by decide) (unwrapped_of_not_mem (by decide))

/-- An end marker behind an integer is taken for that of a container. -/
theorem not_decides_integerEnd : ¬ ∀ s, s.length < 2 ^ 64 → Decides s := by
  intro h
  have hreturns : Returns (ascii "i5ee") false (.value [] (.int 5)) := ⟨⟨3, _⟩, ⟨1, rfl⟩, rfl⟩
  have hformed : WellFormed (ascii "i5ee") := (h (ascii "i5ee") (by decide)).1.1 ⟨_, hreturns⟩
  generalize hs : ascii "i5ee" = s at hformed
  cases hformed with
  | @int t ht =>
    have ht' : t = [53, 101] := List.append_cancel_right (List.cons_inj_right 105 |>.1 hs.symm)
    rw [ht'] at ht
    exact absurd ht (by decide)
  | str hstr =>
    obtain ⟨digits, content, rfl, -⟩ := hstr
    have hmem : (58 : UInt8) ∈ ascii "i5ee" := hs ▸ List.mem_append_right digits List.mem_cons_self
    exact absurd hmem (by decide)
  | list => exact absurd (List.cons.inj hs).1 (by decide)
  | dict => exact absurd (List.cons.inj hs).1 (by decide)

end Integers

end CppExperiments.Bencode

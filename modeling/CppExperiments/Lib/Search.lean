import CppExperiments.Lib.Text
import Mathlib.Data.List.Infix

/-!
# Searching texts

The first occurrence of a text in another, and the number of occurrences found one behind the other.
-/

namespace CppExperiments

/-- The position of the first occurrence of `sub`. -/
def find (sub : Bytes) : Bytes → Option Nat
  | [] => if sub = [] then some 0 else none
  | b :: bs => if sub <+: b :: bs then some 0 else (find sub bs).map (· + 1)

/-- The search for the next occurrence goes on behind the one found; every round uses up a byte. -/
def countFrom (sub : Bytes) : Nat → Bytes → Nat
  | 0, _ => 0
  | rounds + 1, bs =>
    match find sub bs with
    | none => 0
    | some i => countFrom sub rounds (bs.drop (i + sub.length)) + 1

def countSubstring (str sub : Bytes) : Nat := if sub = [] then 0 else countFrom sub str.length str

variable {sub bs cs : Bytes} {b : UInt8} {i m n : Nat}

lemma find_of_start (hne : sub ≠ []) (h : sub <+: bs) : find sub bs = some 0 := by
  cases bs with
  | nil => exact absurd (List.prefix_nil.1 h) hne
  | cons b bs => rw [find, if_pos h]

lemma find_cons (h : ¬ sub <+: b :: bs) : find sub (b :: bs) = (find sub bs).map (· + 1) := by
  rw [find, if_neg h]

lemma find_nil (hne : sub ≠ []) : find sub [] = none := by rw [find, if_neg hne]

/-- Where a text is found, it stands. -/
theorem prefix_drop_of_find (h : find sub bs = some i) : sub <+: bs.drop i := by
  induction bs generalizing i with
  | nil =>
    by_cases hs : sub = []
    · rw [hs]
      exact List.nil_prefix
    · rw [find_nil hs] at h
      cases h
  | cons b bs ih =>
    by_cases hp : sub <+: b :: bs
    · rw [find, if_pos hp] at h
      cases h
      exact hp
    · rw [find_cons hp] at h
      obtain ⟨j, hj, rfl⟩ := Option.map_eq_some_iff.1 h
      exact ih hj

lemma add_length_le_of_find (h : find sub bs = some i) (hne : sub ≠ []) : i + sub.length ≤ bs.length := by
  have hle := (prefix_drop_of_find h).length_le
  rw [List.length_drop] at hle
  have hpos := List.length_pos_iff.2 hne
  omega

/-- A text is not found where one of its bytes does not occur. -/
lemma find_eq_none (hb : b ∈ sub) (h : b ∉ bs) : find sub bs = none := by
  induction bs with
  | nil => exact find_nil (List.ne_nil_of_mem hb)
  | cons c bs ih =>
    have hp : ¬ sub <+: c :: bs := fun hp => h (hp.subset hb)
    rw [find_cons hp, ih (fun hm => h (List.mem_cons_of_mem c hm))]
    rfl

/-- The first occurrence, behind bytes that its first byte is not among. -/
lemma find_append (h : b ∉ bs) (cs : Bytes) : find (b :: sub) (bs ++ (b :: sub) ++ cs) = some bs.length := by
  induction bs with
  | nil => exact find_of_start (List.cons_ne_nil b sub) (List.prefix_append _ _)
  | cons c bs ih =>
    have hc : b ≠ c := fun hbc => h (hbc ▸ List.mem_cons_self)
    have hp : ¬ b :: sub <+: c :: (bs ++ (b :: sub) ++ cs) := by
      intro hp
      exact hc (List.cons_prefix_cons.1 hp).1
    rw [List.cons_append, List.cons_append, find_cons hp, ih (fun hm => h (List.mem_cons_of_mem c hm))]
    rfl

/-- Bytes in front that the text does not start with move it on. -/
lemma find_skip (h : b ∉ bs) (cs : Bytes) : find (b :: sub) (bs ++ cs) = (find (b :: sub) cs).map (· + bs.length) := by
  induction bs with
  | nil => cases hcs : find (b :: sub) cs <;> exact hcs
  | cons c bs ih =>
    have hp : ¬ b :: sub <+: c :: (bs ++ cs) := fun hp =>
      h ((List.cons_prefix_cons.1 hp).1 ▸ List.mem_cons_self)
    rw [List.cons_append, find_cons hp, ih (fun hm => h (List.mem_cons_of_mem c hm)), Option.map_map]
    rfl

/-- Bytes at which no occurrence begins move the first one on. -/
lemma find_skip_of_ne (h : ∀ j < bs.length, ¬ sub <+: (bs ++ cs).drop j) :
    find sub (bs ++ cs) = (find sub cs).map (· + bs.length) := by
  induction bs with
  | nil => cases hcs : find sub cs <;> exact hcs
  | cons c bs ih =>
    have hbs : ∀ j < bs.length, ¬ sub <+: (bs ++ cs).drop j := fun j hj => h (j + 1) (Nat.succ_lt_succ hj)
    have hc : ¬ sub <+: c :: (bs ++ cs) := h 0 (Nat.succ_pos _)
    rw [List.cons_append, find_cons hc, ih hbs, Option.map_map]
    rfl

/-- Nothing stands before the first occurrence. -/
lemma le_of_find (h : find sub bs = some i) {j : Nat} (hj : sub <+: bs.drop j) : i ≤ j := by
  induction bs generalizing i j with
  | nil =>
    rw [List.drop_nil, List.prefix_nil] at hj
    rw [find, if_pos hj] at h
    cases h
    exact Nat.zero_le j
  | cons b bs ih =>
    by_cases hp : sub <+: b :: bs
    · rw [find, if_pos hp] at h
      cases h
      exact Nat.zero_le j
    · rw [find_cons hp] at h
      obtain ⟨i', hi', rfl⟩ := Option.map_eq_some_iff.1 h
      cases j with
      | zero => exact absurd hj hp
      | succ j => exact Nat.succ_le_succ (ih hi' hj)

/-- What comes behind does not change the first occurrence. -/
lemma find_append_right (h : find sub bs = some i) (cs : Bytes) : find sub (bs ++ cs) = some i := by
  induction bs generalizing i with
  | nil =>
    by_cases hs : sub = []
    · subst hs
      rw [← h]
      cases cs <;> rfl
    · rw [find_nil hs] at h
      cases h
  | cons b bs ih =>
    by_cases hp : sub <+: b :: bs
    · rw [find, if_pos hp] at h
      have hp' : sub <+: b :: (bs ++ cs) := hp.trans (List.prefix_append (b :: bs) cs)
      rw [List.cons_append, find, if_pos hp', h]
    · rw [find_cons hp] at h
      obtain ⟨j, hj, rfl⟩ := Option.map_eq_some_iff.1 h
      have hlen := prefix_drop_of_find hj
      have hp' : ¬ sub <+: b :: (bs ++ cs) := by
        intro hp'
        have hle := hlen.length_le
        rw [List.length_drop] at hle
        exact hp (List.prefix_of_prefix_length_le hp' (List.prefix_append (b :: bs) cs)
          (by rw [List.length_cons]; omega))
      rw [List.cons_append, find_cons hp', ih hj]
      rfl

/-- What stands in front of the first occurrence of a byte. -/
lemma eq_append_of_find (h : find [b] bs = some i) :
    ∃ front rest, bs = front ++ b :: rest ∧ b ∉ front ∧ i = front.length := by
  induction bs generalizing i with
  | nil =>
    rw [find_nil (List.cons_ne_nil b [])] at h
    cases h
  | cons c bs ih =>
    by_cases hc : b = c
    · rw [find_of_start (List.cons_ne_nil b []) (by simp [hc])] at h
      exact ⟨[], bs, by rw [hc, List.nil_append], List.not_mem_nil, (Option.some.inj h).symm⟩
    · rw [find_cons (by simp [hc])] at h
      obtain ⟨j, hj, rfl⟩ := Option.map_eq_some_iff.1 h
      obtain ⟨front, rest, rfl, hfront, rfl⟩ := ih hj
      exact ⟨c :: front, rest, rfl, by simp [hc, hfront], rfl⟩

lemma countFrom_eq (hne : sub ≠ []) (hm : bs.length ≤ m) (hn : bs.length ≤ n) :
    countFrom sub m bs = countFrom sub n bs := by
  induction m generalizing bs n with
  | zero =>
    have hbs : bs = [] := List.eq_nil_of_length_eq_zero (by omega)
    cases n with
    | zero => rfl
    | succ n => simp [countFrom, hbs, find_nil hne]
  | succ m ih =>
    cases n with
    | zero =>
      have hbs : bs = [] := List.eq_nil_of_length_eq_zero (by omega)
      simp [countFrom, hbs, find_nil hne]
    | succ n =>
      rw [countFrom, countFrom]
      cases hf : find sub bs with
      | none => rfl
      | some i =>
        have hlen : (bs.drop (i + sub.length)).length < bs.length := by
          have hle := add_length_le_of_find hf hne
          have hpos := List.length_pos_iff.2 hne
          rw [List.length_drop]
          omega
        simp only
        rw [ih (by omega) (show _ ≤ n by omega)]

lemma countSubstring_nil (sub : Bytes) : countSubstring [] sub = 0 := by
  simp [countSubstring, countFrom]

lemma countSubstring_of_start (hne : sub ≠ []) (h : sub <+: bs) :
    countSubstring bs sub = countSubstring (bs.drop sub.length) sub + 1 := by
  have hpos := List.length_pos_iff.2 hne
  have hle := h.length_le
  rw [countSubstring, if_neg hne, countSubstring, if_neg hne,
    countFrom_eq hne le_rfl (show bs.length ≤ bs.length - 1 + 1 by omega), countFrom, find_of_start hne h]
  have hlen : (bs.drop sub.length).length ≤ bs.length - 1 := by
    rw [List.length_drop]
    omega
  simp only [Nat.zero_add]
  rw [countFrom_eq hne hlen le_rfl]

lemma countSubstring_cons (hne : sub ≠ []) (h : ¬ sub <+: b :: bs) :
    countSubstring (b :: bs) sub = countSubstring bs sub := by
  rw [countSubstring, if_neg hne, countSubstring, if_neg hne, List.length_cons, countFrom, find_cons h]
  cases hf : find sub bs with
  | none =>
    cases bs with
    | nil => rfl
    | cons c bs => simp only [List.length_cons, countFrom, hf, Option.map_none]
  | some i =>
    have hle := add_length_le_of_find hf hne
    have hpos := List.length_pos_iff.2 hne
    rw [countFrom_eq hne (le_rfl : bs.length ≤ _) (show bs.length ≤ bs.length - 1 + 1 by omega), countFrom, hf]
    simp only [Option.map_some, show i + 1 + sub.length = i + sub.length + 1 by omega, List.drop_succ_cons]
    have hlen : (bs.drop (i + sub.length)).length ≤ bs.length - 1 := by
      rw [List.length_drop]
      omega
    rw [countFrom_eq hne (hlen.trans (Nat.sub_le _ _)) hlen]

/-- A single byte is counted as often as it occurs. -/
theorem countSubstring_singleton (bs : Bytes) (b : UInt8) : countSubstring bs [b] = bs.count b := by
  induction bs with
  | nil => exact countSubstring_nil [b]
  | cons c bs ih =>
    by_cases hc : b = c
    · subst hc
      rw [countSubstring_of_start (List.cons_ne_nil b []) (by simp), List.count_cons_self, ← ih]
      rfl
    · rw [countSubstring_cons (List.cons_ne_nil b []) (by simp [hc]), ih, List.count_cons_of_ne (Ne.symm hc)]

section Pair

variable {x y : UInt8}

lemma pair_prefix_iff {c d : UInt8} : [x, y] <+: c :: d :: bs ↔ x = c ∧ y = d := by
  simp [List.cons_prefix_cons]

lemma countPair_single (x y b : UInt8) : countSubstring [b] [x, y] = 0 := by
  have hp : ¬ [x, y] <+: [b] := fun hp => absurd hp.length_le (by simp)
  rw [countSubstring_cons (List.cons_ne_nil x _) hp, countSubstring_nil]

lemma countPair_pos (bs : Bytes) : countSubstring (x :: y :: bs) [x, y] = countSubstring bs [x, y] + 1 :=
  countSubstring_of_start (List.cons_ne_nil x _) (pair_prefix_iff.2 ⟨rfl, rfl⟩)

lemma countPair_neg {c d : UInt8} (h : ¬ (x = c ∧ y = d)) (bs : Bytes) :
    countSubstring (c :: d :: bs) [x, y] = countSubstring (d :: bs) [x, y] :=
  countSubstring_cons (List.cons_ne_nil x _) (fun hp => h (pair_prefix_iff.1 hp))

/-- Bytes behind a text take away no occurrence. -/
theorem countPair_le_append (x y : UInt8) : ∀ bs cs : Bytes,
    countSubstring bs [x, y] ≤ countSubstring (bs ++ cs) [x, y]
  | [], cs => by simp [countSubstring_nil]
  | [c], cs => by simp [countPair_single]
  | c :: d :: bs, cs => by
    by_cases h : x = c ∧ y = d
    · have ih := countPair_le_append x y bs cs
      rw [← h.1, ← h.2, List.cons_append, List.cons_append, countPair_pos, countPair_pos]
      omega
    · have ih := countPair_le_append x y (d :: bs) cs
      rwa [List.cons_append, List.cons_append, countPair_neg h, countPair_neg h]

/-- Two different bytes occur as a pair in two texts and between them as often as in each. -/
theorem countPair_append (hxy : x ≠ y) : ∀ bs cs : Bytes,
    countSubstring (bs ++ x :: y :: cs) [x, y] = countSubstring bs [x, y] + countSubstring cs [x, y] + 1
  | [], cs => by rw [List.nil_append, countPair_pos, countSubstring_nil, Nat.zero_add]
  | [c], cs => by
    have h : ¬ (x = c ∧ y = x) := fun h => hxy h.2.symm
    rw [List.singleton_append, countPair_neg h, countPair_pos, countPair_single, Nat.zero_add]
  | c :: d :: bs, cs => by
    by_cases h : x = c ∧ y = d
    · have ih := countPair_append hxy bs cs
      rw [← h.1, ← h.2, List.cons_append, List.cons_append, countPair_pos, countPair_pos]
      omega
    · have ih := countPair_append hxy (d :: bs) cs
      rwa [List.cons_append, List.cons_append, countPair_neg h, countPair_neg h]

/-- The first byte of the pair alone makes no occurrence. -/
theorem countPair_concat (hxy : x ≠ y) : ∀ bs : Bytes,
    countSubstring (bs ++ [x]) [x, y] = countSubstring bs [x, y]
  | [] => by rw [List.nil_append, countPair_single, countSubstring_nil]
  | [c] => by
    have h : ¬ (x = c ∧ y = x) := fun h => hxy h.2.symm
    rw [List.singleton_append, countPair_neg h, countPair_single, countPair_single]
  | c :: d :: bs => by
    by_cases h : x = c ∧ y = d
    · have ih := countPair_concat hxy bs
      rw [← h.1, ← h.2, List.cons_append, List.cons_append, countPair_pos, countPair_pos, ih]
    · have ih := countPair_concat hxy (d :: bs)
      rwa [List.cons_append, List.cons_append, countPair_neg h, countPair_neg h]

theorem countPair_eq_zero_iff (hxy : x ≠ y) : countSubstring bs [x, y] = 0 ↔ ¬ [x, y] <:+: bs := by
  constructor
  · rintro h ⟨pre, post, rfl⟩
    rw [List.append_assoc, List.cons_append, List.cons_append, List.nil_append, countPair_append hxy] at h
    omega
  · intro h
    induction bs with
    | nil => exact countSubstring_nil _
    | cons c bs ih =>
      have hp : ¬ [x, y] <+: c :: bs := fun hp => h hp.isInfix
      rw [countSubstring_cons (List.cons_ne_nil x _) hp]
      exact ih (fun hi => h (hi.trans (List.suffix_cons c bs).isInfix))

end Pair

end CppExperiments

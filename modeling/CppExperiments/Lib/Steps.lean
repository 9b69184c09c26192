import Mathlib.Data.Option.Basic
import Mathlib.Tactic.Cases

/-!
# Machines that take steps

A deterministic machine is a partial step function. What it reaches, what it reaches unless it comes
through a bad state, and why the state it halts in is unique.
-/

namespace CppExperiments

variable {α : Type*} {step : α → Option α} {bad : α → Prop} {a b c : α} {k n : Nat}

def after (step : α → Option α) : Nat → α → Option α
  | 0, a => some a
  | n + 1, a => (step a).bind (after step n)

def Reaches (step : α → Option α) (a b : α) : Prop := ∃ n, after step n a = some b

/-- The machine reaches `b`, unless it comes through a bad state. -/
def Leads (step : α → Option α) (bad : α → Prop) (a b : α) : Prop :=
  Reaches step a b ∨ ∃ c, Reaches step a c ∧ bad c

lemma after_add (step : α → Option α) (k n : Nat) (a : α) :
    after step (k + n) a = (after step k a).bind (after step n) := by
  induction k generalizing a with
  | zero => simp [after]
  | succ k ih =>
    rw [Nat.succ_add, after, after, Option.bind_assoc]
    congr 1
    funext b
    exact ih b

namespace Reaches

lemma refl (a : α) : Reaches step a a := ⟨0, rfl⟩

lemma head (h : step a = some b) (hb : Reaches step b c) : Reaches step a c := by
  obtain ⟨n, hn⟩ := hb
  exact ⟨n + 1, by rw [after, h, Option.bind_some, hn]⟩

lemma trans (h : Reaches step a b) (hb : Reaches step b c) : Reaches step a c := by
  obtain ⟨k, hk⟩ := h
  obtain ⟨n, hn⟩ := hb
  exact ⟨k + n, by rw [after_add, hk, Option.bind_some, hn]⟩

/-- What is reached is the start or comes by a last step. -/
lemma eq_or_last (h : Reaches step a b) : a = b ∨ ∃ c, Reaches step a c ∧ step c = some b := by
  obtain ⟨n, hn⟩ := h
  cases n with
  | zero => exact Or.inl (Option.some.inj hn)
  | succ n =>
    rw [after_add] at hn
    obtain ⟨c, hc, hlast⟩ := Option.bind_eq_some_iff.1 hn
    rw [after, Option.bind_eq_some_iff] at hlast
    obtain ⟨b', hstep, hb'⟩ := hlast
    obtain rfl := Option.some.inj hb'
    exact Or.inr ⟨c, ⟨n, hc⟩, hstep⟩

/-- What every step keeps holds wherever the machine comes. -/
lemma preserves (P : α → Prop) (hP : ∀ a b, P a → step a = some b → P b) (h : Reaches step a b) (ha : P a) : P b := by
  obtain ⟨n, hn⟩ := h
  induction n generalizing a with
  | zero =>
    obtain rfl : a = b := Option.some.inj hn
    exact ha
  | succ n ih =>
    cases hstep : step a with
    | none => simp [after, hstep] at hn
    | some c =>
      rw [after, hstep, Option.bind_some] at hn
      exact ih (hP a c ha hstep) hn

/-- What the start has, and what every step from a reached state keeps. -/
lemma invariant (P : α → Prop) (h : Reaches step a b) (ha : P a)
    (hP : ∀ b c, Reaches step a b → P b → step b = some c → P c) : P b := by
  have hboth : Reaches step a b ∧ P b := by
    refine h.preserves (fun b => Reaches step a b ∧ P b) ?_ ⟨refl a, ha⟩
    rintro b c ⟨hb, hPb⟩ hstep
    exact ⟨hb.trans (head hstep (refl c)), hP b c hb hPb hstep⟩
  exact hboth.2

end Reaches

namespace Leads

lemma refl (a : α) : Leads step bad a a := Or.inl (Reaches.refl a)

lemma of_bad (h : bad a) : Leads step bad a b := Or.inr ⟨a, Reaches.refl a, h⟩

lemma trans (h : Leads step bad a b) (hb : Leads step bad b c) : Leads step bad a c := by
  rcases h with hab | hbad
  · rcases hb with hbc | ⟨d, hbd, hd⟩
    · exact Or.inl (hab.trans hbc)
    · exact Or.inr ⟨d, hab.trans hbd, hd⟩
  · exact Or.inr hbad

lemma head (h : step a = some b) (hb : Leads step bad b c) : Leads step bad a c :=
  trans (Or.inl (Reaches.head h (Reaches.refl b))) hb

/-- A run without bad states reaches what it leads to. -/
lemma reaches (h : Leads step bad a b) (hgood : ∀ c, Reaches step a c → ¬ bad c) : Reaches step a b := by
  rcases h with hab | ⟨c, hac, hc⟩
  · exact hab
  · exact absurd hc (hgood c hac)

end Leads

/-- Whatever a halting run comes through lies on the way to where it halts. -/
lemma after_of_halted (hb : after step n a = some b) (hhalt : step b = none) (hc : after step k a = some c) :
    k ≤ n ∧ after step (n - k) c = some b := by
  induction k generalizing a n with
  | zero =>
    obtain rfl : a = c := Option.some.inj hc
    exact ⟨Nat.zero_le n, hb⟩
  | succ k ih =>
    cases hstep : step a with
    | none => simp [after, hstep] at hc
    | some d =>
      rw [after, hstep, Option.bind_some] at hc
      cases n with
      | zero =>
        obtain rfl : a = b := Option.some.inj hb
        rw [hhalt] at hstep
        cases hstep
      | succ n =>
        rw [after, hstep, Option.bind_some] at hb
        obtain ⟨hle, hrest⟩ := ih hb hc
        exact ⟨Nat.succ_le_succ hle, by rwa [Nat.add_sub_add_right]⟩

lemma Reaches.exists_after (hc : Reaches step a c) (hb : after step n a = some b) (hhalt : step b = none) :
    ∃ k ≤ n, after step k a = some c := by
  obtain ⟨k, hk⟩ := hc
  exact ⟨k, (after_of_halted hb hhalt hk).1, hk⟩

/-- There is one state in which a machine can halt. -/
theorem Reaches.halted_unique (hb : Reaches step a b) (hbhalt : step b = none) (hc : Reaches step a c)
    (hchalt : step c = none) : b = c := by
  obtain ⟨n, hn⟩ := hb
  obtain ⟨k, hk⟩ := hc
  obtain ⟨hle, hrest⟩ := after_of_halted hn hbhalt hk
  cases hsub : n - k with
  | zero =>
    rw [hsub] at hrest
    exact (Option.some.inj hrest).symm
  | succ j =>
    rw [hsub, after, hchalt] at hrest
    cases hrest

/-- A machine halts if every step adds to something that is bounded. -/
theorem exists_halted (measure : α → Nat) {bound : Nat} (hbound : ∀ b, Reaches step a b → measure b ≤ bound)
    (hgrows : ∀ b c, Reaches step a b → step b = some c → measure b < measure c) :
    ∃ b, Reaches step a b ∧ step b = none := by
  induction hleft : bound - measure a using Nat.strongRecOn generalizing a with
  | ind left ih =>
    cases hstep : step a with
    | none => exact ⟨a, Reaches.refl a, hstep⟩
    | some c =>
      have hc := Reaches.head hstep (Reaches.refl c)
      have hgrow := hgrows a c (Reaches.refl a) hstep
      have hle := hbound c hc
      obtain ⟨b, hb, hhalt⟩ := ih (bound - measure c) (by omega) (fun b hb => hbound b (hc.trans hb))
        (fun b d hb => hgrows b d (hc.trans hb)) rfl
      exact ⟨b, hc.trans hb, hhalt⟩

/-! ## Two machines side by side -/

variable {β : Type*} {step' : α → Option α} {P : α → Prop} {observed : α → β}

/-- Machines that make the same step from every good state stay together up to the first state that is not. -/
lemma after_eq_of_good (hsame : ∀ b, P b → step' b = step b)
    (hgood : ∀ k < n, ∀ b, after step k a = some b → P b) : after step' n a = after step n a := by
  induction n with
  | zero => rfl
  | succ n ih =>
    have hn := ih fun k hk => hgood k (Nat.lt_succ_of_lt hk)
    rw [after_add, after_add, hn]
    cases hb : after step n a with
    | none => rfl
    | some b => rw [Option.bind_some, Option.bind_some, after, after, hsame b (hgood n (Nat.lt_succ_self n) b hb)]; rfl

/-- Where the steps from bad states are seen to differ, two runs look the same just if all states are good. -/
theorem forall_after_iff (hsame : ∀ b, P b → step' b = step b)
    (hdiff : ∀ b, ¬ P b → (step' b).map observed ≠ (step b).map observed) :
    (∀ n, (after step' n a).map observed = (after step n a).map observed) ↔ ∀ b, Reaches step a b → P b := by
  constructor
  · intro hview
    have hall : ∀ n b, after step n a = some b → P b := by
      intro n
      induction n using Nat.strongRecOn with
      | ind n ih =>
        intro b hb
        by_contra hbad
        have hnow := after_eq_of_good hsame ih
        have hnext := hview (n + 1)
        rw [after_add, after_add, hnow, hb, Option.bind_some, Option.bind_some, after, after] at hnext
        exact hdiff b hbad (by simpa [after] using hnext)
    rintro b ⟨n, hn⟩
    exact hall n b hn
  · intro hgood n
    rw [after_eq_of_good hsame fun k _ b hb => hgood b ⟨k, hb⟩]

/-! ## What a machine finds at its position in the code -/

variable {code front rest : List α} {pos : Nat}

lemma getElem?_of_drop (h : code.drop pos = a :: rest) : code[pos]? = some a := by
  have hhead := @List.getElem?_drop _ code pos 0
  rwa [h, Nat.add_zero, List.getElem?_cons_zero, eq_comm] at hhead

lemma drop_add (h : code.drop pos = front ++ rest) : code.drop (pos + front.length) = rest := by
  rw [← List.drop_drop, h, List.drop_left]

lemma drop_succ (h : code.drop pos = a :: rest) : code.drop (pos + 1) = rest := by
  rw [← List.drop_drop, h, List.drop_one, List.tail_cons]

end CppExperiments

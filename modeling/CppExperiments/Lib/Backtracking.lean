import CppExperiments.Lib.Steps
import Mathlib.Data.List.Induction
import Mathlib.Logic.Function.Basic
import Mathlib.Order.Basic

/-!
# Backtracking

Choices are made one after another, each the first that is free. A choice behind which nothing is found is given up for
the next one.
-/

namespace CppExperiments.Backtracking

/-- The last choice is given up for the next one. -/
def giveUp : List Nat → Option (List Nat × Nat)
  | [] => none
  | d :: chosen => some (chosen, d + 1)

/-- The choices made, the last one first, and the one that is tried. The `N` choices are all made, or there is nothing
left to try where no more than the first `M` of each can be. -/
def next (N M : Nat) (free : List Nat → Nat → Bool) (s : List Nat × Nat) : Option (List Nat × Nat) :=
  if s.1.length = N then none
  else if s.2 = M then giveUp s.1
  else if free s.1 s.2 = true then some (s.2 :: s.1, 0)
  else some (s.1, s.2 + 1)

/-- Every choice was free when it was made. -/
def Fits (free : List Nat → Nat → Bool) : List Nat → Prop
  | [] => True
  | c :: chosen => free chosen c = true ∧ Fits free chosen

variable {N M : Nat} {free : List Nat → Nat → Bool} {chosen full front : List Nat} {c d : Nat} {s s' : List Nat × Nat}

lemma Fits.of_append (h : Fits free (front ++ chosen)) : Fits free chosen := by
  induction front with
  | nil => exact h
  | cons d front ih => exact ih h.2

lemma next_retry (hlength : chosen.length ≠ N) (hc : c ≠ M) (hfree : ¬ free chosen c = true) :
    next N M free (chosen, c) = some (chosen, c + 1) := by
  rw [next, if_neg hlength, if_neg hc, if_neg hfree]

lemma next_choose (hlength : chosen.length ≠ N) (hc : c ≠ M) (hfree : free chosen c = true) :
    next N M free (chosen, c) = some (c :: chosen, 0) := by
  rw [next, if_neg hlength, if_neg hc, if_pos hfree]

lemma next_giveUp (hlength : chosen.length + 1 ≠ N) : next N M free (d :: chosen, M) = some (chosen, d + 1) := by
  rw [next, if_neg (by rwa [List.length_cons]), if_pos rfl, giveUp]

/-- What the choices and the one that is tried keep. -/
structure Sound (N M : Nat) (free : List Nat → Nat → Bool) (s : List Nat × Nat) : Prop where
  fits : Fits free s.1
  length : s.1.length ≤ N
  le : s.2 ≤ M

lemma Sound.next (h : Sound N M free s) (hM : ∀ chosen c, free chosen c = true → c < M)
    (hnext : next N M free s = some s') :
    Sound N M free s' := by
  obtain ⟨chosen, c⟩ := s
  obtain ⟨hfits, hlength, hle⟩ := h
  dsimp only at hfits hlength hle
  by_cases hfull : chosen.length = N
  · rw [Backtracking.next, if_pos hfull] at hnext
    cases hnext
  · by_cases hc : c = M
    · cases chosen with
      | nil =>
        rw [Backtracking.next, if_neg hfull, if_pos hc, giveUp] at hnext
        cases hnext
      | cons d chosen =>
        rw [hc, next_giveUp hfull] at hnext
        obtain rfl := Option.some.inj hnext
        exact ⟨hfits.2, Nat.le_of_succ_le hlength, hM chosen d hfits.1⟩
    · by_cases hfree : free chosen c = true
      · rw [next_choose hfull hc hfree] at hnext
        obtain rfl := Option.some.inj hnext
        exact ⟨⟨hfree, hfits⟩, Nat.lt_of_le_of_ne hlength hfull, Nat.zero_le M⟩
      · rw [next_retry hfull hc hfree] at hnext
        obtain rfl := Option.some.inj hnext
        exact ⟨hfits, hlength, Nat.lt_of_le_of_ne hle hc⟩

/-- From some choices on, the first way of making all of them is found, or they are all tried in vain. -/
lemma explore (hM : ∀ chosen c, free chosen c = true → c < M) (hfits : Fits free chosen) (hlength : chosen.length < N)
    (hc : c ≤ M) :
    (∃ full, Fits free full ∧ full.length = N ∧ Reaches (next N M free) (chosen, c) (full, 0)) ∨
      Reaches (next N M free) (chosen, c) (chosen, M) ∧
        ∀ front d, c ≤ d → (front ++ d :: chosen).length = N → ¬ Fits free (front ++ d :: chosen) := by
  -- First on the number of choices that are still to be made, then on the number of those left to try.
  induction hdepth : N - chosen.length generalizing chosen c with
  | zero => omega
  | succ k ihdepth =>
    induction hleft : M - c generalizing c with
    | zero =>
      obtain rfl : c = M := by omega
      refine .inr ⟨.refl _, fun front d hd _ hfits' => ?_⟩
      exact absurd (hM chosen d hfits'.of_append.1) (Nat.not_lt.2 hd)
    | succ m ihleft =>
      have hne : c ≠ M := by omega
      by_cases hfree : free chosen c = true
      · have hchoose := next_choose (Nat.ne_of_lt hlength) hne hfree
        by_cases hlast : chosen.length + 1 = N
        · exact .inl ⟨c :: chosen, ⟨hfree, hfits⟩, hlast, .head hchoose (.refl _)⟩
        · have hdeeper := @ihdepth (c :: chosen) 0 ⟨hfree, hfits⟩ (by rw [List.length_cons]; omega) (Nat.zero_le M)
            (by rw [List.length_cons]; omega)
          rcases hdeeper with ⟨full, hfull, hN, hreaches⟩ | ⟨hreaches, hnone⟩
          · exact .inl ⟨full, hfull, hN, .head hchoose hreaches⟩
          · have hback : Reaches (next N M free) (chosen, c) (chosen, c + 1) :=
              .head hchoose (hreaches.trans (.head (next_giveUp hlast) (.refl _)))
            rcases @ihleft (c + 1) (by omega) (by omega) with ⟨full, hfull, hN, hreaches'⟩ | ⟨hreaches', hnone'⟩
            · exact .inl ⟨full, hfull, hN, hback.trans hreaches'⟩
            · refine .inr ⟨hback.trans hreaches', fun front d hd hN hfits' => ?_⟩
              rcases Nat.eq_or_lt_of_le hd with rfl | hlt
              · cases front using List.reverseRecOn with
                | nil => exact hlast hN
                | append_singleton front e =>
                  rw [List.append_assoc, List.singleton_append] at hN hfits'
                  exact hnone front e (Nat.zero_le e) hN hfits'
              · exact hnone' front d hlt hN hfits'
      · have hretry := next_retry (Nat.ne_of_lt hlength) hne hfree
        rcases @ihleft (c + 1) (by omega) (by omega) with ⟨full, hfull, hN, hreaches⟩ | ⟨hreaches, hnone⟩
        · exact .inl ⟨full, hfull, hN, .head hretry hreaches⟩
        · refine .inr ⟨.head hretry hreaches, fun front d hd hN hfits' => ?_⟩
          rcases Nat.eq_or_lt_of_le hd with rfl | hlt
          · exact hfree hfits'.of_append.1
          · exact hnone front d hlt hN hfits'

/-- All choices are made if that can be done, and else none is left to try. -/
theorem search (hM : ∀ chosen c, free chosen c = true → c < M) (hN : 0 < N) :
    (∃ full, Fits free full ∧ full.length = N ∧ Reaches (next N M free) ([], 0) (full, 0)) ∨
      Reaches (next N M free) ([], 0) ([], M) ∧ ∀ full, full.length = N → ¬ Fits free full := by
  rcases @explore N M free [] 0 hM trivial hN (Nat.zero_le M) with hfound | ⟨hreaches, hnone⟩
  · exact .inl hfound
  · refine .inr ⟨hreaches, fun full hlength hfits => ?_⟩
    cases full using List.reverseRecOn with
    | nil => exact (Nat.ne_of_lt hN) hlength
    | append_singleton front d => exact hnone front d (Nat.zero_le d) hlength hfits

end CppExperiments.Backtracking

/-!
## Filling cells

Cells that see each other are filled with different values, next to those that are given. What is given is taken as it
is.
-/

namespace CppExperiments.Filling

variable {ι β : Type} {sees : ι → ι → Prop} {val : β → Prop} {empty : β} {b f : ι → β} {c : ι} {v : β}

/-- The value can stand in the cell beside what stands there already. -/
def Free (sees : ι → ι → Prop) (val : β → Prop) (b : ι → β) (c : ι) (v : β) : Prop :=
  val v ∧ ∀ c', sees c c' → c' ≠ c → b c' ≠ v

/-- Some of the empty cells are filled, each with a value that no cell has which it sees. -/
structure Extends (sees : ι → ι → Prop) (val : β → Prop) (empty : β) (b f : ι → β) : Prop where
  given : ∀ c, b c ≠ empty → f c = b c
  free : ∀ c, b c = empty → f c ≠ empty → Free sees val f c (f c)

/-- What is given has values, and different ones where cells see each other. -/
def Consistent (sees : ι → ι → Prop) (val : β → Prop) (empty : β) (b : ι → β) : Prop :=
  ∀ c, b c ≠ empty → Free sees val b c (b c)

def Valid (sees : ι → ι → Prop) (val : β → Prop) (b : ι → β) : Prop := ∀ c, Free sees val b c (b c)

lemma extends_refl (b : ι → β) : Extends sees val empty b b := ⟨fun _ _ => rfl, fun _ hc hf => absurd hc hf⟩

lemma Extends.free_given (h : Extends sees val empty b f) (hc : b c = empty) (hf : f c ≠ empty) :
    Free sees val b c (f c) := by
  refine ⟨(h.free c hc hf).1, fun c' hsees hne heq => ?_⟩
  by_cases hc' : b c' = empty
  · exact hf (heq.symm.trans hc')
  · exact (h.free c hc hf).2 c' hsees hne ((h.given c' hc').trans heq)

lemma Extends.eq_of_full (h : Extends sees val empty b f) (hb : ∀ c, b c ≠ empty) : f = b := funext fun c =>
  h.given c (hb c)

section

variable [DecidableEq ι]

lemma Extends.update (h : Extends sees val empty b f) :
    Extends sees val empty (Function.update b c (f c)) f := by
  refine ⟨fun c' hc' => ?_, fun c' hc' hf => ?_⟩
  · by_cases hne : c' = c
    · rw [hne, Function.update_self]
    · rw [Function.update_of_ne hne] at hc' ⊢
      exact h.given c' hc'
  · by_cases hne : c' = c
    · rw [hne, Function.update_self] at hc'
      exact absurd hc' (hne ▸ hf)
    · rw [Function.update_of_ne hne] at hc'
      exact h.free c' hc' hf

lemma Extends.of_update (hsymm : ∀ c c', sees c c' → sees c' c) (hv : v ≠ empty) (hfree : Free sees val b c v)
    (hc : b c = empty) (h : Extends sees val empty (Function.update b c v) f) : Extends sees val empty b f := by
  have hat : f c = v := by
    have := h.given c
    rw [Function.update_self] at this
    exact this hv
  refine ⟨fun c' hc' => ?_, fun c' hc' hf => ?_⟩
  · have hne : c' ≠ c := fun heq => hc' (heq ▸ hc)
    have := h.given c'
    rw [Function.update_of_ne hne] at this
    exact this hc'
  · by_cases hne : c' = c
    · rw [hne, hat]
      refine ⟨hfree.1, fun c'' hsees hne' heq => ?_⟩
      by_cases hc'' : b c'' = empty
      · have := (h.free c'' (by rw [Function.update_of_ne hne', hc'']) (heq ▸ hv)).2 c (hsymm _ _ hsees) hne'.symm
        exact this (hat.trans heq.symm)
      · have := h.given c''
        rw [Function.update_of_ne hne'] at this
        exact hfree.2 c'' hsees hne' ((this hc'').symm.trans heq)
    · exact h.free c' (by rw [Function.update_of_ne hne, hc']) hf

lemma Consistent.update (hsymm : ∀ c c', sees c c' → sees c' c) (h : Consistent sees val empty b)
    (hfree : Free sees val b c v) : Consistent sees val empty (Function.update b c v) := by
  intro d hd
  by_cases hdc : d = c
  · rw [hdc, Function.update_self]
    refine ⟨hfree.1, fun c' hsees hne => ?_⟩
    rw [Function.update_of_ne hne]
    exact hfree.2 c' hsees hne
  · rw [Function.update_of_ne hdc] at hd ⊢
    refine ⟨(h d hd).1, fun c' hsees hne => ?_⟩
    by_cases hc' : c' = c
    · rw [hc', Function.update_self]
      exact fun heq => hfree.2 d (hsymm _ _ (hc' ▸ hsees)) hdc heq.symm
    · rw [Function.update_of_ne hc']
      exact (h d hd).2 c' hsees hne

end

/-! ## Grids that are full -/

lemma Consistent.valid (h : Consistent sees val empty b) (hf : Extends sees val empty b f) (hfull : ∀ c, f c ≠ empty)
    (hsymm : ∀ c c', sees c c' → sees c' c) : Valid sees val f := by
  intro c
  by_cases hc : b c = empty
  · exact hf.free c hc (hfull c)
  · have hat := hf.given c hc
    refine ⟨hat ▸ (h c hc).1, fun c' hsees hne heq => ?_⟩
    by_cases hc' : b c' = empty
    · exact (hf.free c' hc' (hfull c')).2 c (hsymm _ _ hsees) hne.symm heq.symm
    · exact (h c hc).2 c' hsees hne (((hf.given c' hc').symm.trans heq).trans hat)

lemma Valid.extends (h : Valid sees val f) (hgiven : ∀ c, b c ≠ empty → f c = b c) : Extends sees val empty b f :=
  ⟨hgiven, fun c _ _ => h c⟩

lemma Valid.consistent (h : Valid sees val f) (hgiven : ∀ c, b c ≠ empty → f c = b c) :
    Consistent sees val empty b := by
  intro c hc
  refine ⟨hgiven c hc ▸ (h c).1, fun c' hsees hne heq => ?_⟩
  exact (h c).2 c' hsees hne ((hgiven c' (heq ▸ hc)).trans (heq.trans (hgiven c hc).symm))

end CppExperiments.Filling

import Mathlib.Data.List.Induction
import Mathlib.Order.Lattice

/-!
# The latest write

Writes that carry an instant, and deletions, are read in some order. A write replaces the one before if it
is later, a deletion removes whatever there is. Which write is left at the end. Everything here is
over arbitrary values and linearly ordered instants.
-/

namespace CppExperiments.Latest

variable {ν τ : Type*}

/-- A write of a value at an instant, or a deletion. -/
inductive Mark (ν τ : Type*) where
  | put (value : ν) (instant : τ)
  | del

/-- The list is empty or ends in a deletion. -/
def Cleared (l : List (Mark ν τ)) : Prop := ∀ m, l.getLast? = some m → m = .del

variable [LinearOrder τ] {l l' pre post : List (Mark ν τ)} {m : Mark ν τ} {v v' : ν} {t t' : τ}

/-- What is there after one more mark; of two writes at one instant the first stays. -/
def absorb : Option (ν × τ) → Mark ν τ → Option (ν × τ)
  | _, .del => none
  | none, .put v t => some (v, t)
  | some (v, t), .put v' t' => if t < t' then some (v', t') else some (v, t)

def latest (l : List (Mark ν τ)) : Option (ν × τ) := l.foldl absorb none

/-- The write is there, nothing after it is later or a deletion, and what comes before it, back to the last deletion,
is earlier. -/
def Prevails (l : List (Mark ν τ)) (v : ν) (t : τ) : Prop :=
  ∃ old pre post, l = old ++ pre ++ .put v t :: post ∧ Cleared old ∧
    (∀ m ∈ pre, ∃ v' t', m = .put v' t' ∧ t' < t) ∧ ∀ m ∈ post, ∃ v' t', m = .put v' t' ∧ t' ≤ t

@[simp] lemma latest_nil : latest ([] : List (Mark ν τ)) = none := rfl

lemma latest_concat (l : List (Mark ν τ)) (m : Mark ν τ) : latest (l ++ [m]) = absorb (latest l) m := by
  rw [latest, List.foldl_append]
  rfl

lemma absorb_put_ne_none (p : Option (ν × τ)) (v : ν) (t : τ) : absorb p (.put v t) ≠ none := by
  rcases p with - | ⟨v0, t0⟩
  · exact Option.some_ne_none _
  · rw [absorb]
    split_ifs <;> exact Option.some_ne_none _

theorem latest_eq_none_iff : latest l = none ↔ Cleared l := by
  induction l using List.reverseRecOn with
  | nil => simp [Cleared]
  | append_singleton l m _ =>
    have hlast : Cleared (l ++ [m]) ↔ m = .del := by simp [Cleared]
    rw [latest_concat, hlast]
    cases m with
    | put v t => simp [absorb_put_ne_none]
    | del => simp [absorb]

/-- Marks that are earlier leave nothing, or something earlier. -/
lemma foldl_earlier (h : ∀ m ∈ pre, ∃ v' t', m = Mark.put v' t' ∧ t' < t) :
    ∀ p : Option (ν × τ), (∀ v' t', p = some (v', t') → t' < t) →
      ∀ v' t', pre.foldl absorb p = some (v', t') → t' < t := by
  induction pre with
  | nil => exact fun p hp => hp
  | cons m pre ih =>
    intro p hp
    refine ih (fun m' hm' => h m' (List.mem_cons_of_mem _ hm')) _ ?_
    obtain ⟨v1, t1, rfl, ht1⟩ := h m (List.mem_cons_self ..)
    intro v' t' heq
    rcases p with - | ⟨v0, t0⟩
    · cases heq
      exact ht1
    · rw [absorb] at heq
      by_cases hlt : t0 < t1
      · rw [if_pos hlt] at heq
        cases heq
        exact ht1
      · rw [if_neg hlt] at heq
        cases heq
        exact hp _ _ rfl

/-- Marks that are not later change nothing. -/
lemma foldl_not_later (h : ∀ m ∈ post, ∃ v' t', m = Mark.put v' t' ∧ t' ≤ t) :
    post.foldl absorb (some (v, t)) = some (v, t) := by
  induction post with
  | nil => rfl
  | cons m post ih =>
    obtain ⟨v1, t1, rfl, ht1⟩ := h m (List.mem_cons_self ..)
    rw [List.foldl_cons, absorb, if_neg (not_lt.2 ht1)]
    exact ih fun m' hm' => h m' (List.mem_cons_of_mem _ hm')

lemma latest_of_prevails (h : Prevails l v t) : latest l = some (v, t) := by
  obtain ⟨old, pre, post, rfl, hold, hpre, hpost⟩ := h
  rw [latest, List.foldl_append, List.foldl_append]
  change (Mark.put v t :: post).foldl absorb (pre.foldl absorb (latest old)) = _
  rw [latest_eq_none_iff.2 hold, List.foldl_cons]
  have hearlier := foldl_earlier hpre none (by simp)
  have hput : absorb (pre.foldl absorb none) (.put v t) = some (v, t) := by
    rcases hfold : pre.foldl absorb none with - | ⟨v0, t0⟩
    · rfl
    · rw [absorb, if_pos (hearlier _ _ hfold)]
  rw [hput]
  exact foldl_not_later hpost

lemma prevails_of_latest (h : latest l = some (v, t)) : Prevails l v t := by
  induction l using List.reverseRecOn generalizing v t with
  | nil => cases h
  | append_singleton l m ih =>
    rw [latest_concat] at h
    cases m with
    | del => cases h
    | put v1 t1 =>
      rcases hl : latest l with - | ⟨v0, t0⟩
      · rw [hl] at h
        cases h
        exact ⟨l, [], [], by simp, latest_eq_none_iff.1 hl, by simp, by simp⟩
      · obtain ⟨old, pre, post, rfl, hold, hpre, hpost⟩ := ih hl
        rw [hl, absorb] at h
        by_cases hlt : t0 < t1
        · rw [if_pos hlt] at h
          cases h
          refine ⟨old, pre ++ .put v0 t0 :: post, [], by simp, hold, fun m hm => ?_, by simp⟩
          rcases List.mem_append.1 hm with hm | hm
          · obtain ⟨v', t', rfl, ht'⟩ := hpre m hm
            exact ⟨v', t', rfl, ht'.trans hlt⟩
          · rcases List.mem_cons.1 hm with rfl | hm
            · exact ⟨v0, t0, rfl, hlt⟩
            · obtain ⟨v', t', rfl, ht'⟩ := hpost m hm
              exact ⟨v', t', rfl, ht'.trans_lt hlt⟩
        · rw [if_neg hlt] at h
          cases h
          refine ⟨old, pre, post ++ [.put v1 t1], by simp, hold, hpre, fun m hm => ?_⟩
          rcases List.mem_append.1 hm with hm | hm
          · exact hpost m hm
          · rw [List.mem_singleton.1 hm]
            exact ⟨v1, t1, rfl, not_lt.1 hlt⟩

/-- The write that is left at the end. -/
theorem latest_eq_some_iff : latest l = some (v, t) ↔ Prevails l v t := ⟨prevails_of_latest, latest_of_prevails⟩

end CppExperiments.Latest

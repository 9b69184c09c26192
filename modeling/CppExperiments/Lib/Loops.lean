import Mathlib.Logic.Function.Basic
import Mathlib.Logic.Relation

/-!
# Loops of rounds

A loop that goes on with another value, returns or throws in every round, and what it comes to if it is given rounds
enough.
-/

namespace CppExperiments

variable {α β γ : Type*}

/-- The loop comes to an end: `none` where it throws. -/
inductive Concludes (step : α → Option (β ⊕ α)) : α → Option β → Prop where
  | throws {a : α} : step a = none → Concludes step a none
  | returns {a : α} {b : β} : step a = some (.inl b) → Concludes step a (some b)
  | again {a a' : α} {r : Option β} : step a = some (.inr a') → Concludes step a' r → Concludes step a r

lemma Concludes.unique {step : α → Option (β ⊕ α)} {a : α} {r r' : Option β} (h : Concludes step a r)
    (h' : Concludes step a r') : r = r' := by
  induction h with
  | throws hstep =>
    cases h' with
    | throws _ => rfl
    | returns hstep' => cases hstep.symm.trans hstep'
    | again hstep' _ => cases hstep.symm.trans hstep'
  | returns hstep =>
    cases h' with
    | throws hstep' => cases hstep.symm.trans hstep'
    | returns hstep' =>
      cases hstep.symm.trans hstep'
      rfl
    | again hstep' _ => cases hstep.symm.trans hstep'
  | again hstep _ ih =>
    cases h' with
    | throws hstep' => cases hstep.symm.trans hstep'
    | returns hstep' => cases hstep.symm.trans hstep'
    | again hstep' hends' =>
      cases hstep.symm.trans hstep'
      exact ih hends'

/-- The loop with at most a number of rounds. -/
structure Looping (step : α → Option (β ⊕ α)) (running : γ) (out : Option β → γ) (run : Nat → α → γ) : Prop where
  injective : Function.Injective out
  ended : ∀ r, out r ≠ running
  zero : ∀ a, run 0 a = running
  succ : ∀ n a, run (n + 1) a = match step a with
    | none => out none
    | some (.inl b) => out (some b)
    | some (.inr a') => run n a'

namespace Looping

variable {step : α → Option (β ⊕ α)} {running : γ} {out : Option β → γ} {run : Nat → α → γ} {a : α} {r : Option β}

/-- Any number of rounds either is too small or shows the end of the loop. -/
lemma cases (h : Looping step running out run) (n : Nat) (a : α) :
    run n a = running ∨ ∃ r, run n a = out r ∧ Concludes step a r := by
  induction n generalizing a with
  | zero => exact Or.inl (h.zero a)
  | succ n ih =>
    rw [h.succ]
    cases hstep : step a with
    | none => exact Or.inr ⟨none, rfl, .throws hstep⟩
    | some next =>
      cases next with
      | inl b => exact Or.inr ⟨some b, rfl, .returns hstep⟩
      | inr a' =>
        rcases ih a' with hrun | ⟨r, hrun, hends⟩
        · exact Or.inl hrun
        · exact Or.inr ⟨r, hrun, .again hstep hends⟩

lemma exists_of_concludes (h : Looping step running out run) (hends : Concludes step a r) :
    ∃ k, ∀ n ≥ k, run n a = out r := by
  induction hends with
  | throws hstep =>
    refine ⟨1, fun n hn => ?_⟩
    obtain ⟨m, rfl⟩ := Nat.exists_eq_add_of_le' hn
    rw [h.succ, hstep]
  | returns hstep =>
    refine ⟨1, fun n hn => ?_⟩
    obtain ⟨m, rfl⟩ := Nat.exists_eq_add_of_le' hn
    rw [h.succ, hstep]
  | again hstep _ ih =>
    obtain ⟨k, hk⟩ := ih
    refine ⟨k + 1, fun n hn => ?_⟩
    obtain ⟨m, rfl⟩ := Nat.exists_eq_add_of_le' (Nat.le_of_add_left_le hn)
    rw [h.succ, hstep]
    exact hk m (Nat.le_of_add_le_add_right hn)

/-- With rounds enough the loop ends as its rounds lead on. -/
theorem ends_iff (h : Looping step running out run) : (∃ k, ∀ n ≥ k, run n a = out r) ↔ Concludes step a r := by
  refine ⟨fun hend => ?_, h.exists_of_concludes⟩
  obtain ⟨k, hk⟩ := hend
  have hrun := hk k (Nat.le_refl k)
  rcases h.cases k a with hrun' | ⟨r', hrun', hends⟩
  · exact absurd (hrun.symm.trans hrun') (h.ended r)
  · rwa [h.injective (hrun.symm.trans hrun')]

end Looping

end CppExperiments

/-!
## Programs of actions and loops

Programs over any set of actions, with loops under one fixed guard, and what they do as a relation
between states. They grow at the end, as a one-pass compiler makes them.
-/

namespace CppExperiments

variable {ι κ σ β : Type*}

inductive Prog (ι : Type*) where
  | nil
  | snoc (init : Prog ι) (i : ι)
  | loop (init body : Prog ι)

/-- Repeating a step as long as the guard holds. -/
inductive While (guard : σ → Prop) (R : σ → σ → Prop) : σ → σ → Prop where
  | stop {s : σ} : ¬ guard s → While guard R s s
  | again {s t u : σ} : guard s → R s t → While guard R t u → While guard R s u

namespace While

variable {guard : σ → Prop} {R S : σ → σ → Prop} {s t : σ}

lemma exit (h : While guard R s t) : ¬ guard t := by
  induction h with
  | stop hs => exact hs
  | again _ _ _ ih => exact ih

lemma mono (hRS : ∀ s t, R s t → S s t) (h : While guard R s t) : While guard S s t := by
  induction h with
  | stop hs => exact stop hs
  | again hs hR _ ih => exact again hs (hRS _ _ hR) ih

/-- What no turn of a loop changes, as long as an invariant holds, the whole loop does not change. -/
lemma preserves (I : σ → Prop) (f : σ → β) (hf : ∀ s t, I s → guard s → R s t → I t ∧ f t = f s) (hs : I s)
    (h : While guard R s t) : f t = f s := by
  induction h with
  | stop _ => rfl
  | again hguard hR _ ih =>
    obtain ⟨ht, heq⟩ := hf _ _ hs hguard hR
    rw [ih ht, heq]

end While

namespace Prog

def Exec (guard : σ → Prop) (act : ι → σ → σ → Prop) : Prog ι → σ → σ → Prop
  | nil => Eq
  | snoc p i => Relation.Comp (p.Exec guard act) (act i)
  | loop p body => Relation.Comp (p.Exec guard act) (While guard (body.Exec guard act))

/-- The actions of a program without loops. -/
def straight : Prog ι → Option (List ι)
  | nil => some []
  | snoc p i => p.straight.map (· ++ [i])
  | loop _ _ => none

def append (p : Prog ι) (l : List ι) : Prog ι := l.foldl snoc p

/-- One action after the other. -/
def ExecList (act : ι → σ → σ → Prop) : List ι → σ → σ → Prop
  | [] => Eq
  | i :: l => Relation.Comp (act i) (ExecList act l)

variable {guard : σ → Prop} {act : ι → σ → σ → Prop} {p : Prog ι} {l : List ι} {s t u : σ}

lemma execList_append {l' : List ι} : ExecList act (l ++ l') s u ↔ ∃ t, ExecList act l s t ∧ ExecList act l' t u := by
  induction l generalizing s with
  | nil => simp [ExecList]
  | cons i l ih =>
    constructor
    · rintro ⟨r, hi, hrest⟩
      obtain ⟨t, hl, hl'⟩ := ih.1 hrest
      exact ⟨t, ⟨r, hi, hl⟩, hl'⟩
    · rintro ⟨t, ⟨r, hi, hl⟩, hl'⟩
      exact ⟨r, hi, ih.2 ⟨t, hl, hl'⟩⟩

lemma exec_append : (p.append l).Exec guard act s u ↔ ∃ t, p.Exec guard act s t ∧ ExecList act l t u := by
  induction l generalizing p with
  | nil => simp [append, ExecList]
  | cons i l ih =>
    change ((p.snoc i).append l).Exec guard act s u ↔ _
    rw [ih]
    constructor
    · rintro ⟨t, ⟨r, hp, hi⟩, hl⟩
      exact ⟨r, hp, t, hi, hl⟩
    · rintro ⟨r, hp, t, hi, hl⟩
      exact ⟨t, ⟨r, hp, hi⟩, hl⟩

lemma eq_append_of_straight (h : p.straight = some l) : p = nil.append l := by
  induction p generalizing l with
  | nil =>
    obtain rfl : [] = l := Option.some.inj h
    rfl
  | loop p body => cases h
  | snoc p i ih =>
    cases hp : p.straight with
    | none => simp [straight, hp] at h
    | some l' =>
      obtain rfl : l' ++ [i] = l := by simpa [straight, hp] using h
      rw [append, List.foldl_append]
      change p.snoc i = (nil.append l').snoc i
      rw [← ih hp]

/-- A program without loops does one action after the other. -/
lemma exec_of_straight (h : p.straight = some l) : p.Exec guard act s t ↔ ExecList act l s t := by
  rw [eq_append_of_straight h, exec_append]
  simp [Exec]

end Prog

end CppExperiments

import Mathlib.Data.List.Basic

/-!
# Runs on a list of events

A system that takes one event after the other, or none where the event cannot happen. What holds in all the states
that a run visits, given what every event of it finds.
-/

namespace CppExperiments

variable {σ ε : Type*} {step : σ → ε → Option σ} {C : σ → ε → Prop} {Q : ε → Prop} {I P : σ → Prop} {s : σ}
  {events : List ε}

/-- The states that a run visits, up to its end or the event that cannot happen. -/
def visits (step : σ → ε → Option σ) : σ → List ε → List σ
  | s, [] => [s]
  | s, e :: events =>
    s :: match step s e with
      | none => []
      | some s' => visits step s' events

/-- Every event that happens in the run finds a state that it is allowed in. -/
def Along (step : σ → ε → Option σ) (C : σ → ε → Prop) : σ → List ε → Prop
  | _, [] => True
  | s, e :: events =>
    match step s e with
    | none => True
    | some s' => C s e ∧ Along step C s' events

/-- Every event of the run satisfies `P`, also the one that cannot happen. -/
def Throughout (step : σ → ε → Option σ) (P : σ → ε → Prop) : σ → List ε → Prop
  | _, [] => True
  | s, e :: events =>
    P s e ∧ match step s e with
      | none => True
      | some s' => Throughout step P s' events

instance decidableThroughout [∀ s e, Decidable (C s e)] : ∀ s events, Decidable (Throughout step C s events)
  | _, [] => isTrue trivial
  | s, e :: events =>
    have : Decidable (match step s e with | none => True | some s' => Throughout step C s' events) :=
      match step s e with
      | none => isTrue trivial
      | some s' => decidableThroughout s' events
    inferInstanceAs (Decidable (C s e ∧ _))

lemma mem_visits (step : σ → ε → Option σ) (s : σ) (events : List ε) : s ∈ visits step s events := by
  cases events with
  | nil => exact List.mem_singleton_self s
  | cons e events => exact List.mem_cons_self

/-- What every allowed event keeps holds in all the states of a run of allowed events. -/
theorem forall_visits (hgood : ∀ s e s', I s → C s e → step s e = some s' → I s') (h : I s)
    (halong : Along step C s events) : ∀ t ∈ visits step s events, I t := by
  induction events generalizing s with
  | nil =>
    intro t ht
    rwa [List.mem_singleton.1 ht]
  | cons e events ih =>
    rw [visits, List.forall_mem_cons]
    refine ⟨h, ?_⟩
    cases hstep : step s e with
    | none => exact fun t ht => absurd ht List.not_mem_nil
    | some s' =>
      rw [Along, hstep] at halong
      exact ih (hgood s e s' h halong.1 hstep) halong.2

lemma Throughout.and {R : σ → ε → Prop} (h : Throughout step C s events) (h' : Throughout step R s events) :
    Throughout step (fun s e => C s e ∧ R s e) s events := by
  induction events generalizing s with
  | nil => trivial
  | cons e events ih =>
    rw [Throughout] at h h' ⊢
    refine ⟨⟨h.1, h'.1⟩, ?_⟩
    cases hstep : step s e with
    | none => trivial
    | some s' =>
      rw [hstep] at h h'
      exact ih h.2 h'.2

/-- What an invariant entails of every allowed event holds throughout a run of allowed events. -/
theorem throughout_of_inv {R : σ → ε → Prop} (hR : ∀ s e, I s → C s e → R s e)
    (hgood : ∀ s e s', I s → C s e → step s e = some s' → I s') (h : I s) (hC : Throughout step C s events) :
    Throughout step R s events := by
  induction events generalizing s with
  | nil => trivial
  | cons e events ih =>
    rw [Throughout] at hC ⊢
    refine ⟨hR s e h hC.1, ?_⟩
    cases hstep : step s e with
    | none => trivial
    | some s' =>
      rw [hstep] at hC
      exact ih (hgood s e s' h hC.1 hstep) hC.2

/-- A run goes through to its end exactly if every event of it can happen where it comes. -/
theorem isSome_foldlM_iff (h : ∀ s e, (step s e).isSome = true ↔ C s e) :
    (events.foldlM step s).isSome = true ↔ Throughout step C s events := by
  induction events generalizing s with
  | nil => exact iff_of_true rfl trivial
  | cons e events ih =>
    rw [List.foldlM_cons, Throughout, ← h]
    cases hstep : step s e with
    | none => exact iff_of_false nofun fun hboth => Bool.noConfusion hboth.1
    | some s' => exact ih.trans (and_iff_right rfl).symm

/-- If the allowed events of a kind keep an invariant and the others break what it entails, then that holds in all
the states of a run of such events exactly if all of them are allowed. -/
theorem forall_visits_iff (hP : ∀ s, I s → P s) (hgood : ∀ s e s', Q e → I s → C s e → step s e = some s' → I s')
    (hbad : ∀ s e s', Q e → I s → ¬ C s e → step s e = some s' → ¬ P s') (hQ : ∀ e ∈ events, Q e) (h : I s) :
    (∀ t ∈ visits step s events, P t) ↔ Along step C s events := by
  induction events generalizing s with
  | nil => simpa [visits, Along] using hP s h
  | cons e events ih =>
    rw [List.forall_mem_cons] at hQ
    rw [visits, Along, List.forall_mem_cons]
    cases hstep : step s e with
    | none => simpa using hP s h
    | some s' =>
      by_cases hC : C s e
      · rw [ih hQ.2 (hgood s e s' hQ.1 h hC hstep)]
        exact and_congr_left fun _ => iff_of_true (hP s h) hC
      · have hnot := hbad s e s' hQ.1 h hC hstep
        refine iff_of_false (fun hall => hnot (hall.2 s' (mem_visits step s' events))) fun hall => hC hall.1

end CppExperiments

import Mathlib

/-!
# Two-sided ledgers

One side records which items are requested, the other which party is expected to deliver each.
A ledger is balanced when every requested item is expected of exactly one party and every
item expected of a party is requested. Items can be handed out, settled one by one, or returned
all at once; forgetting them on one side only unbalances the ledger.
-/

namespace CppExperiments

structure Ledger (β ι : Type*) where
  requested : Set β
  held : ι → Set β

namespace Ledger

variable {β ι : Type*} {l l' : Ledger β ι} {i : ι} {b : β} {s : Set β}

structure Balanced (l : Ledger β ι) : Prop where
  holder : ∀ b ∈ l.requested, ∃! i, b ∈ l.held i
  requested : ∀ i, ∀ b ∈ l.held i, b ∈ l.requested

lemma Balanced.unique (h : l.Balanced) {j : ι} (hi : b ∈ l.held i) (hj : b ∈ l.held j) : i = j :=
  (h.holder b (h.requested i b hi)).unique hi hj

/-- Half of the balance: what is expected of a party is requested, and expected of no other. -/
structure Covered (l : Ledger β ι) : Prop where
  requested : ∀ i, ∀ b ∈ l.held i, b ∈ l.requested
  unique : ∀ b i j, b ∈ l.held i → b ∈ l.held j → i = j

lemma Balanced.covered (h : l.Balanced) : l.Covered := ⟨h.requested, fun _ _ _ => h.unique⟩

/-- Items may be forgotten on the side of the parties. -/
theorem Covered.mono {r : Set β} {held held' : ι → Set β} (h : Covered ⟨r, held⟩) (hle : ∀ i, held' i ⊆ held i) :
    Covered ⟨r, held'⟩ :=
  ⟨fun i b hb => h.requested i b (hle i hb), fun b i j hi hj => h.unique b i j (hle i hi) (hle j hj)⟩

/-- A requested item that nobody is expected to deliver unbalances the ledger. -/
theorem not_balanced (hb : b ∈ l.requested) (hnone : ∀ i, b ∉ l.held i) : ¬ l.Balanced := by
  intro h
  obtain ⟨i, hi, -⟩ := h.holder b hb
  exact hnone i hi

variable [DecidableEq ι]

/-- A party is asked for the items of `s`. -/
def take (l : Ledger β ι) (i : ι) (s : Set β) : Ledger β ι :=
  ⟨l.requested ∪ s, Function.update l.held i (l.held i ∪ s)⟩

/-- The items of `s` that a party holds are taken off both sides. -/
def drop (l : Ledger β ι) (i : ι) (s : Set β) : Ledger β ι :=
  ⟨l.requested \ s, Function.update l.held i (l.held i \ s)⟩

theorem Balanced.take (h : l.Balanced) (i : ι) (hs : Disjoint l.requested s) : (l.take i s).Balanced := by
  have hfresh : ∀ b ∈ s, ∀ j, b ∉ l.held j :=
    fun b hb j hj => Set.disjoint_left.1 hs (h.requested j b hj) hb
  constructor
  · rintro b (hb | hb)
    · obtain ⟨j, hj, hunique⟩ := h.holder b hb
      refine ⟨j, ?_, ?_⟩
      · by_cases hji : j = i
        · subst hji
          simpa [Ledger.take] using Or.inl hj
        · simpa [Ledger.take, hji] using hj
      · intro j' hj'
        by_cases hji : j' = i
        · subst hji
          simp only [Ledger.take, Function.update_self, Set.mem_union] at hj'
          rcases hj' with hj' | hj'
          · exact hunique j' hj'
          · exact absurd hj (hfresh b hj' j)
        · exact hunique j' (by simpa [Ledger.take, hji] using hj')
    · refine ⟨i, by simpa [Ledger.take] using Or.inr hb, ?_⟩
      intro j hj
      by_contra hji
      exact hfresh b hb j (by simpa [Ledger.take, hji] using hj)
  · intro j b hj
    by_cases hji : j = i
    · subst hji
      simp only [Ledger.take, Function.update_self, Set.mem_union] at hj
      exact hj.imp_left (h.requested j b)
    · exact Or.inl (h.requested j b (by simpa [Ledger.take, hji] using hj))

theorem Balanced.drop (h : l.Balanced) (hs : s ⊆ l.held i) : (l.drop i s).Balanced := by
  constructor
  · rintro b ⟨hb, hbs⟩
    obtain ⟨j, hj, hunique⟩ := h.holder b hb
    refine ⟨j, ?_, ?_⟩
    · by_cases hji : j = i
      · subst hji
        simpa [Ledger.drop] using And.intro hj hbs
      · simpa [Ledger.drop, hji] using hj
    · intro j' hj'
      by_cases hji : j' = i
      · subst hji
        simp only [Ledger.drop, Function.update_self] at hj'
        exact hunique j' hj'.1
      · exact hunique j' (by simpa [Ledger.drop, hji] using hj')
  · intro j b hj
    by_cases hji : j = i
    · subst hji
      simp only [Ledger.drop, Function.update_self] at hj
      exact ⟨h.requested j b hj.1, hj.2⟩
    · have hjb : b ∈ l.held j := by simpa [Ledger.drop, hji] using hj
      exact ⟨h.requested j b hjb, fun hbs => hji (h.unique hjb (hs hbs))⟩

theorem Covered.take (h : l.Covered) (i : ι) (hs : Disjoint l.requested s) : (l.take i s).Covered := by
  have hcases : ∀ b j, b ∈ (l.take i s).held j → b ∈ l.held j ∨ j = i ∧ b ∈ s := by
    intro b j hj
    by_cases hji : j = i
    · subst hji
      simp only [Ledger.take, Function.update_self, Set.mem_union] at hj
      exact hj.imp_right fun hb => ⟨rfl, hb⟩
    · exact Or.inl (by simpa [Ledger.take, hji] using hj)
  constructor
  · intro j b hj
    exact (hcases b j hj).imp (h.requested j b) And.right
  · intro b j j' hj hj'
    have hfresh : ∀ k, b ∈ l.held k → b ∉ s := fun k hk => Set.disjoint_left.1 hs (h.requested k b hk)
    rcases hcases b j hj with hj | ⟨rfl, hb⟩
    · rcases hcases b j' hj' with hj' | ⟨-, hb⟩
      · exact h.unique b j j' hj hj'
      · exact absurd hb (hfresh j hj)
    · rcases hcases b j' hj' with hj' | ⟨rfl, -⟩
      · exact absurd hb (hfresh j' hj')
      · rfl

theorem Covered.drop (h : l.Covered) (hs : s ⊆ l.held i) : (l.drop i s).Covered := by
  have hsub : ∀ j, (l.drop i s).held j ⊆ l.held j := by
    intro j b hb
    by_cases hji : j = i
    · subst hji
      simp only [Ledger.drop, Function.update_self] at hb
      exact hb.1
    · simpa [Ledger.drop, hji] using hb
  constructor
  · intro j b hj
    refine ⟨h.requested j b (hsub j hj), fun hb => ?_⟩
    obtain rfl := h.unique b j i (hsub j hj) (hs hb)
    simp only [Ledger.drop, Function.update_self] at hj
    exact hj.2 hb
  · exact fun b j j' hj hj' => h.unique b j j' (hsub j hj) (hsub j' hj')

end Ledger

end CppExperiments

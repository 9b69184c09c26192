import Mathlib.Data.List.AList
import Mathlib.Tactic.Cases

/-!
# Mutually inverse tables

Two tables of which each leads back from the other, and the operations on both that keep this.
-/

namespace CppExperiments

variable {α β : Type*} [DecidableEq α] [DecidableEq β]

def Inverse (t : AList fun _ : α => β) (t' : AList fun _ : β => α) : Prop :=
  ∀ a b, t.lookup a = some b ↔ t'.lookup b = some a

namespace Inverse

variable {t : AList fun _ : α => β} {t' : AList fun _ : β => α} {a : α} {b : β}

lemma empty : Inverse (∅ : AList fun _ : α => β) ∅ := fun a b => by
  rw [AList.lookup_empty, AList.lookup_empty]
  exact ⟨fun h => (nomatch h), fun h => (nomatch h)⟩

lemma lookup_eq_none (h : Inverse t t') (hb : ∀ a, t.lookup a ≠ some b) : t'.lookup b = none :=
  Option.eq_none_iff_forall_ne_some.2 fun a ha => hb a ((h a b).2 ha)

/-- A pair of which neither side is in use. -/
theorem insert (h : Inverse t t') (ha : t.lookup a = none) (hb : t'.lookup b = none) :
    Inverse (t.insert a b) (t'.insert b a) := by
  intro x y
  by_cases hx : x = a
  · subst hx
    by_cases hy : y = b
    · subst hy
      rw [AList.lookup_insert, AList.lookup_insert]
      exact ⟨fun _ => rfl, fun _ => rfl⟩
    · rw [AList.lookup_insert, AList.lookup_insert_ne hy, ← h, ha]
      exact ⟨fun heq => absurd (Option.some.inj heq).symm hy, fun heq => (nomatch heq)⟩
  · by_cases hy : y = b
    · subst hy
      rw [AList.lookup_insert, AList.lookup_insert_ne hx, h, hb]
      exact ⟨fun heq => (nomatch heq), fun heq => absurd (Option.some.inj heq).symm hx⟩
    · rw [AList.lookup_insert_ne hx, AList.lookup_insert_ne hy]
      exact h x y

/-- A pair that is taken out of both. -/
theorem erase (h : Inverse t t') (hb : t'.lookup b = some a) : Inverse (t.erase a) (t'.erase b) := by
  intro x y
  have ha := (h a b).2 hb
  by_cases hx : x = a
  · subst hx
    by_cases hy : y = b
    · subst hy
      rw [AList.lookup_erase, AList.lookup_erase]
      exact ⟨fun heq => (nomatch heq), fun heq => (nomatch heq)⟩
    · rw [AList.lookup_erase, AList.lookup_erase_ne hy, ← h, ha]
      exact ⟨fun heq => (nomatch heq), fun heq => absurd (Option.some.inj heq).symm hy⟩
  · by_cases hy : y = b
    · subst hy
      rw [AList.lookup_erase, AList.lookup_erase_ne hx, h, hb]
      exact ⟨fun heq => absurd (Option.some.inj heq).symm hx, fun heq => (nomatch heq)⟩
    · rw [AList.lookup_erase_ne hx, AList.lookup_erase_ne hy]
      exact h x y

end Inverse

end CppExperiments

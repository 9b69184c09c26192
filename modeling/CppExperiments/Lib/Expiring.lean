import Mathlib.Order.Lattice
import Mathlib.Logic.Function.Basic
import Mathlib.Data.Option.Basic

/-!
# Maps whose entries expire

A map from keys to values that may carry an expiry. At an instant `now` an entry whose expiry
is before `now` cannot be told from an absent one; two maps are alike at `now` when they have
the same live entries. Everything here is over arbitrary keys, values and linearly ordered
instants.
-/

namespace CppExperiments.Expiring

variable {κ ν τ : Type*} [LinearOrder τ]

/-- An entry: a value with an optional expiry. -/
abbrev Entry (ν τ : Type*) := ν × Option τ

/-- An expiry that lies before `now`. -/
def Past (now : τ) : Option τ → Prop
  | none => False
  | some e => e < now

instance (now : τ) : DecidablePred (Past now) := fun e => by
  cases e <;> unfold Past <;> infer_instance

/-- The entry of a key, if it is live at `now`. -/
def live (now : τ) (m : κ → Option (Entry ν τ)) (k : κ) : Option (Entry ν τ) :=
  (m k).filter (fun p => ¬ Past now p.2)

/-- The two maps have the same live entries at `now`. -/
def Alike (now : τ) (m m' : κ → Option (Entry ν τ)) : Prop := ∀ k, live now m k = live now m' k

lemma Past.mono {now now' : τ} (h : now ≤ now') {e : Option τ} (he : Past now e) : Past now' e := by
  cases e with
  | none => exact he
  | some e => exact lt_of_lt_of_le he h

lemma live_eq_some_iff {now : τ} {m : κ → Option (Entry ν τ)} {k : κ} {p : Entry ν τ} :
    live now m k = some p ↔ m k = some p ∧ ¬ Past now p.2 := by
  simp [live, Option.filter_eq_some_iff]

lemma live_eq_none_iff {now : τ} {m : κ → Option (Entry ν τ)} {k : κ} :
    live now m k = none ↔ ∀ p, m k = some p → Past now p.2 := by
  simp [live, Option.filter_eq_none_iff]

/-- What is live later was live before. -/
lemma live_later {now now' : τ} (h : now ≤ now') (m : κ → Option (Entry ν τ)) (k : κ) :
    live now' m k = (live now m k).filter (fun p => ¬ Past now' p.2) := by
  unfold live
  rw [Option.filter_filter]
  congr 1
  funext p
  by_cases hp : Past now p.2
  · simp [hp, hp.mono h]
  · simp [hp]

namespace Alike

variable {now now' : τ} {m m' m'' : κ → Option (Entry ν τ)}

lemma refl (now : τ) (m : κ → Option (Entry ν τ)) : Alike now m m := fun _ => rfl

lemma symm (h : Alike now m m') : Alike now m' m := fun k => (h k).symm

lemma trans (h : Alike now m m') (h' : Alike now m' m'') : Alike now m m'' := fun k => (h k).trans (h' k)

/-- Maps that are alike stay alike as time passes. -/
theorem mono (h : Alike now m m') (hle : now ≤ now') : Alike now' m m' := by
  intro k
  rw [live_later hle, live_later hle, h k]

variable [DecidableEq κ]

/-- The same write keeps two maps alike. -/
theorem update (h : Alike now m m') (k : κ) (p : Option (Entry ν τ)) :
    Alike now (Function.update m k p) (Function.update m' k p) := by
  intro k'
  by_cases hk : k' = k
  · simp [live, hk]
  · simpa [live, hk] using h k'

/-- Dropping an entry that is not live changes nothing. -/
theorem drop (now : τ) (m : κ → Option (Entry ν τ)) {k : κ} (hk : live now m k = none) :
    Alike now (Function.update m k none) m := by
  intro k'
  by_cases hkk : k' = k
  · rw [hkk, hk]
    simp [live]
  · simp [live, hkk]

end Alike

end CppExperiments.Expiring

import Mathlib.Data.List.Nodup

/-!
# The keys used last

What a cache of bounded capacity that evicts the key used longest ago has to hold: the last of all distinct
keys that have been used, in the order of their last use. A key that does not fit when the capacity changes is
forgotten.
-/

namespace CppExperiments

/-- All distinct keys that have been used, the one used last at the end. -/
structure Recency (κ : Type*) where
  recent : List κ
  nodup : recent.Nodup
  capacity : Nat
  pos : 0 < capacity
  hits : Nat
  misses : Nat

namespace Recency

variable {κ : Type*} {r : Recency κ} {k : κ}

def start {capacity : Nat} (h : 0 < capacity) : Recency κ := ⟨[], List.nodup_nil, capacity, h, 0, 0⟩

/-- The keys for which there is room. -/
def held (r : Recency κ) : List κ := r.recent.drop (r.recent.length - r.capacity)

lemma held_start {capacity : Nat} (h : 0 < capacity) : (start h : Recency κ).held = [] := List.drop_nil

/-- The keys that are held stay, as far as they fit. -/
def resize (r : Recency κ) (capacity : Nat) (h : 0 < capacity) : Recency κ :=
  { r with
    recent := r.held.drop (r.held.length - capacity)
    nodup := r.nodup.sublist ((List.drop_sublist _ _).trans (List.drop_sublist _ _))
    capacity := capacity
    pos := h }

theorem length_held (r : Recency κ) : r.held.length = min r.capacity r.recent.length := by
  rw [held, List.length_drop]
  omega

lemma nodup_held (r : Recency κ) : r.held.Nodup := r.nodup.sublist (List.drop_sublist _ _)

/-- The keys that are held, behind those that are not. -/
lemma exists_front (r : Recency κ) : ∃ front, r.recent = front ++ r.held ∧
    front.length = r.recent.length - r.capacity := by
  refine ⟨r.recent.take (r.recent.length - r.capacity), (List.take_append_drop _ _).symm, ?_⟩
  rw [List.length_take]
  omega

lemma held_resize {capacity : Nat} (h : 0 < capacity) :
    (r.resize capacity h).held = r.held.drop (r.held.length - capacity) := by
  have hlen : (r.held.drop (r.held.length - capacity)).length - capacity = 0 := by
    rw [List.length_drop]
    omega
  rw [held, resize]
  dsimp only
  rw [hlen, List.drop_zero]

variable [DecidableEq κ]

/-- A key is used. -/
def use (r : Recency κ) (k : κ) : Recency κ :=
  { r with
    recent := r.recent.filter (· ≠ k) ++ [k]
    nodup := by
      rw [List.nodup_append]
      refine ⟨r.nodup.filter _, List.nodup_singleton k, fun a ha b hb heq => ?_⟩
      obtain rfl := List.mem_singleton.1 hb
      exact of_decide_eq_true (List.mem_filter.1 ha).2 heq
    hits := if k ∈ r.held then r.hits + 1 else r.hits
    misses := if k ∈ r.held then r.misses else r.misses + 1 }

lemma mem_recent_use {x : κ} : x ∈ (r.use k).recent ↔ x ∈ r.recent ∨ x = k := by
  rw [use]
  by_cases hx : x = k
  · simp [hx]
  · simp [hx]

lemma filter_ne_of_notMem {l : List κ} (h : k ∉ l) : l.filter (· ≠ k) = l :=
  List.filter_eq_self.2 fun _ hx => decide_eq_true fun heq => h (heq ▸ hx)

lemma length_filter_ne {l : List κ} (hl : l.Nodup) (h : k ∈ l) : (l.filter (· ≠ k)).length + 1 = l.length := by
  have herase : l.filter (· ≠ k) = l.erase k := by
    rw [hl.erase_eq_filter]
    refine List.filter_congr fun x _ => ?_
    by_cases hx : x = k
    · simp [hx]
    · simp [hx]
  rw [herase, List.length_erase_of_mem h]
  have hpos := List.length_pos_of_mem h
  omega

/-- A key that is held goes to the end. -/
theorem held_use_of_mem (h : k ∈ r.held) : (r.use k).held = r.held.filter (· ≠ k) ++ [k] := by
  obtain ⟨front, hrecent, hfront⟩ := r.exists_front
  have hnodup := r.nodup
  rw [hrecent] at hnodup
  have hnot : k ∉ front := fun hmem => (List.nodup_append.1 hnodup).2.2 k hmem k h rfl
  have hlen := length_filter_ne r.nodup_held h
  have hrecent' : (r.use k).recent = front ++ (r.held.filter (· ≠ k) ++ [k]) := by
    rw [use]
    dsimp only
    rw [hrecent, List.filter_append, filter_ne_of_notMem hnot, List.append_assoc]
  have hdrop : (r.use k).recent.length - (r.use k).capacity = front.length := by
    rw [hrecent', hfront, hrecent]
    simp only [List.length_append, List.length_singleton, hlen]
    rfl
  rw [held, hdrop, hrecent', List.drop_left]

/-- A key that is not held is added, and the first one is given up if there is no room for it. -/
theorem held_use_of_notMem (h : k ∉ r.held) :
    (r.use k).held = (r.held ++ [k]).drop (r.held.length + 1 - r.capacity) := by
  obtain ⟨front, hrecent, hfront⟩ := r.exists_front
  have hpos := r.pos
  have hheld := r.length_held
  have hall : r.recent.length = front.length + r.held.length := by rw [hrecent, List.length_append]
  have hrecent' : (r.use k).recent = front.filter (· ≠ k) ++ (r.held ++ [k]) := by
    rw [use]
    dsimp only
    rw [hrecent, List.filter_append, filter_ne_of_notMem h, List.append_assoc]
  have hdrop : (r.use k).recent.length - (r.use k).capacity =
      (front.filter (· ≠ k)).length + (r.held.length + 1 - r.capacity) := by
    have hlen : (r.use k).recent.length = (front.filter (· ≠ k)).length + (r.held.length + 1) := by
      rw [hrecent', List.length_append, List.length_append, List.length_singleton]
    change (r.use k).recent.length - r.capacity = _
    by_cases hmem : k ∈ front
    · have hone := length_filter_ne (r.nodup.sublist (hrecent ▸ List.sublist_append_left front _)) hmem
      omega
    · rw [filter_ne_of_notMem hmem] at hlen ⊢
      omega
  rw [held, hdrop, hrecent', ← List.drop_drop, List.drop_left]

end Recency

end CppExperiments

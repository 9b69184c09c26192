import Mathlib.Data.List.Nodup

/-!
# Maps in the order of insertion

Association lists of distinct keys that keep the order in which their keys came.
-/

namespace CppExperiments.InsertionOrder

variable {κ ν : Type*} {l : List (κ × ν)} {k k' : κ} {v v' : ν} {f : ν → ν}

/-- No key twice. -/
def Distinct (l : List (κ × ν)) : Prop := (l.map Prod.fst).Nodup

lemma Distinct.eq_of_mem (h : Distinct l) (hv : (k, v) ∈ l) (hv' : (k, v') ∈ l) : v = v' := by
  have hp := List.inj_on_of_nodup_map h hv hv' rfl
  exact (Prod.mk.inj hp).2

lemma Distinct.append_new (h : Distinct l) (hk : k ∉ l.map Prod.fst) (v : ν) : Distinct (l ++ [(k, v)]) := by
  rw [Distinct, List.map_append, List.nodup_append]
  refine ⟨h, List.nodup_singleton _, fun a ha b hb heq => ?_⟩
  obtain rfl := List.mem_singleton.1 hb
  exact hk (heq ▸ ha)

variable [DecidableEq κ]

def find (l : List (κ × ν)) (k : κ) : Option ν := (l.find? fun p => p.1 = k).map Prod.snd

/-- The value of a key is changed where it is. -/
def modify (l : List (κ × ν)) (k : κ) (f : ν → ν) : List (κ × ν) := l.map fun p => if p.1 = k then (p.1, f p.2) else p

def remove (l : List (κ × ν)) (k : κ) : List (κ × ν) := l.filter fun p => p.1 ≠ k

/-- The value of a key is set where it is, or at the end if it is new. -/
def set (l : List (κ × ν)) (k : κ) (v : ν) : List (κ × ν) :=
  if (find l k).isSome then modify l k fun _ => v else l ++ [(k, v)]

/-- The key goes to the end. -/
def moveToEnd (l : List (κ × ν)) (k : κ) (v : ν) : List (κ × ν) := remove l k ++ [(k, v)]

lemma find_eq_none_iff : find l k = none ↔ k ∉ l.map Prod.fst := by
  rw [find, Option.map_eq_none_iff, List.find?_eq_none, List.mem_map, not_exists]
  refine forall_congr' fun p => ?_
  rw [decide_eq_true_iff, not_and]

lemma isSome_find_iff : (find l k).isSome ↔ k ∈ l.map Prod.fst := by
  rw [← not_iff_not, ← find_eq_none_iff, Bool.not_eq_true, Option.isSome_eq_false_iff, Option.isNone_iff_eq_none]

lemma mem_of_find (h : find l k = some v) : (k, v) ∈ l := by
  obtain ⟨p, hp, rfl⟩ := Option.map_eq_some_iff.1 h
  have hk := List.find?_some hp
  obtain rfl : p.1 = k := of_decide_eq_true hk
  exact List.mem_of_find?_eq_some hp

lemma Distinct.find_eq_some_iff (h : Distinct l) : find l k = some v ↔ (k, v) ∈ l := by
  refine ⟨mem_of_find, fun hmem => ?_⟩
  cases hfind : find l k with
  | none => exact absurd (List.mem_map_of_mem hmem) (find_eq_none_iff.1 hfind)
  | some v' => rw [h.eq_of_mem hmem (mem_of_find hfind)]

lemma map_fst_modify (l : List (κ × ν)) (k : κ) (f : ν → ν) : (modify l k f).map Prod.fst = l.map Prod.fst := by
  rw [modify, List.map_map]
  refine List.map_congr_left fun p _ => ?_
  rw [Function.comp_apply]
  split <;> rfl

lemma mem_modify : (k', v') ∈ modify l k f ↔ (k' ≠ k ∧ (k', v') ∈ l) ∨ (k' = k ∧ ∃ v, (k, v) ∈ l ∧ v' = f v) := by
  rw [modify, List.mem_map]
  constructor
  · rintro ⟨⟨a, b⟩, hmem, heq⟩
    by_cases ha : a = k
    · rw [if_pos ha] at heq
      obtain ⟨rfl, rfl⟩ := Prod.mk.inj heq
      exact .inr ⟨ha, b, ha ▸ hmem, rfl⟩
    · rw [if_neg ha] at heq
      obtain ⟨rfl, rfl⟩ := Prod.mk.inj heq
      exact .inl ⟨ha, hmem⟩
  · rintro (⟨hne, hmem⟩ | ⟨rfl, v, hmem, rfl⟩)
    · exact ⟨_, hmem, if_neg hne⟩
    · exact ⟨_, hmem, if_pos rfl⟩

/-- The key that came last is changed there. -/
lemma modify_append_new (h : k ∉ l.map Prod.fst) (v : ν) (f : ν → ν) :
    modify (l ++ [(k, v)]) k f = l ++ [(k, f v)] := by
  have hne : ∀ p ∈ l, p.1 ≠ k := fun p hp hk => h (List.mem_map.2 ⟨p, hp, hk⟩)
  have hid : l.map (fun p => if p.1 = k then (p.1, f p.2) else p) = l := by
    rw [List.map_congr_left fun p hp => if_neg (hne p hp), List.map_id']
  rw [modify, List.map_append, hid, List.map_singleton, if_pos rfl]

lemma mem_remove {p : κ × ν} : p ∈ remove l k ↔ p ∈ l ∧ p.1 ≠ k := by
  rw [remove, List.mem_filter, decide_eq_true_iff]

lemma Distinct.remove (h : Distinct l) (k : κ) : Distinct (remove l k) := h.sublist (List.filter_sublist.map _)

lemma remove_of_notMem (h : k ∉ l.map Prod.fst) : InsertionOrder.remove l k = l := by
  rw [InsertionOrder.remove, List.filter_eq_self]
  exact fun p hp => decide_eq_true fun hk => h (hk ▸ List.mem_map_of_mem hp)

lemma moveToEnd_of_notMem (h : k ∉ l.map Prod.fst) (v : ν) : moveToEnd l k v = l ++ [(k, v)] := by
  rw [moveToEnd, remove_of_notMem h]

lemma set_of_mem (h : k ∈ l.map Prod.fst) (v : ν) : set l k v = modify l k fun _ => v := if_pos (isSome_find_iff.2 h)

lemma set_of_notMem (h : k ∉ l.map Prod.fst) (v : ν) : set l k v = l ++ [(k, v)] :=
  if_neg fun hsome => h (isSome_find_iff.1 hsome)

lemma Distinct.set (h : Distinct l) (k : κ) (v : ν) : Distinct (set l k v) := by
  by_cases hk : k ∈ l.map Prod.fst
  · rw [set_of_mem hk, Distinct, map_fst_modify]
    exact h
  · rw [set_of_notMem hk]
    exact h.append_new hk v

lemma mem_of_mem_set {p : κ × ν} (h : p ∈ set l k v) : p ∈ l ∨ p = (k, v) := by
  by_cases hk : k ∈ l.map Prod.fst
  · rw [set_of_mem hk] at h
    rcases mem_modify.1 h with ⟨-, hmem⟩ | ⟨hkey, _, -, hvalue⟩
    · exact .inl hmem
    · exact .inr (Prod.ext hkey hvalue)
  · rw [set_of_notMem hk] at h
    exact (List.mem_append.1 h).imp_right List.mem_singleton.1

/-- The key that came last is set there. -/
lemma set_append_new (h : k ∉ l.map Prod.fst) (v v' : ν) : set (l ++ [(k, v)]) k v' = l ++ [(k, v')] := by
  rw [set_of_mem (List.mem_map.2 ⟨(k, v), List.mem_append_right _ List.mem_cons_self, rfl⟩), modify_append_new h]

lemma find_append_new (h : k ∉ l.map Prod.fst) (v : ν) : find (l ++ [(k, v)]) k = some v := by
  have hnone := find_eq_none_iff.2 h
  rw [find, Option.map_eq_none_iff] at hnone
  rw [find, List.find?_append, hnone, Option.none_or, List.find?_singleton, if_pos (decide_eq_true rfl),
    Option.map_some]

end CppExperiments.InsertionOrder

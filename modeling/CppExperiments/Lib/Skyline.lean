import Mathlib.Data.Fintype.Fin
import Mathlib.Data.Int.Interval
import Mathlib.Data.List.OfFn
import Mathlib.Order.Interval.Finset.Fin

/-!
# Skylines

A building in a row is seen from one end if all buildings on the way to it are lower. Two stacks count what is seen
from either end, as the row is gone through once from its beginning.
-/

namespace CppExperiments.Skyline

variable {α : Type*} [LinearOrder α] {n : Nat} {f : Fin n → α} {stk : List α} {x y : α}

/-- How many are seen from the beginning of the row. -/
def fromFirst (f : Fin n → α) : Nat := Finset.card {i | ∀ j < i, f j < f i}

/-- How many are seen from the end of the row. -/
def fromLast (f : Fin n → α) : Nat := Finset.card {i | ∀ j > i, f j < f i}

/-- A value is pushed if it is greater than the one on top. -/
def pushGreater (stk : List α) (x : α) : List α :=
  match stk with
  | [] => [x]
  | top :: stk => if top < x then x :: top :: stk else top :: stk

/-- The values on top that are less are popped. -/
def popLess (x : α) : List α → List α
  | [] => []
  | top :: stk => if top < x then popLess x stk else top :: stk

def pushOver (stk : List α) (x : α) : List α := x :: popLess x stk

/-! ## The stacks -/

lemma pushGreater_of_lt (h : ∀ t ∈ stk.head?, t < x) : pushGreater stk x = x :: stk := by
  cases stk with
  | nil => rfl
  | cons top stk => exact if_pos (h top rfl)

lemma pushGreater_of_le {t : α} (ht : t ∈ stk.head?) (hle : ¬ t < x) : pushGreater stk x = stk := by
  cases stk with
  | nil => exact absurd ht.symm (Option.some_ne_none t)
  | cons top stk =>
    obtain rfl := Option.some.inj ht
    exact if_neg hle

/-- What is pushed is greater than what came before and than the top at the beginning. -/
lemma length_foldl_pushGreater (stk : List α) (f : Fin n → α) :
    ((List.ofFn f).foldl pushGreater stk).length =
      stk.length + Finset.card {i | (∀ t ∈ stk.head?, t < f i) ∧ ∀ j < i, f j < f i} := by
  induction n generalizing stk with
  | zero => rfl
  | succ n ih =>
    rw [List.ofFn_succ, List.foldl_cons, ih, Fin.card_filter_univ_succ]
    have hrest : ∀ i : Fin n, (∀ j < i.succ, f j < f i.succ) ↔
        f 0 < f i.succ ∧ ∀ j < i, f j.succ < f i.succ := by
      intro i
      rw [Fin.forall_fin_succ]
      simp only [Fin.succ_pos, true_imp_iff, Fin.succ_lt_succ_iff]
    simp only [hrest]
    by_cases hpush : ∀ t ∈ stk.head?, t < f 0
    · have hfirst : (∀ t ∈ stk.head?, t < f 0) ∧ ∀ j < 0, f j < f 0 :=
        ⟨hpush, fun j hj => absurd hj (Fin.not_lt_zero j)⟩
      have hseen : ∀ i : Fin n, ((∀ t ∈ (f 0 :: stk).head?, t < f i.succ) ∧ ∀ j < i, f j.succ < f i.succ) ↔
          (∀ t ∈ stk.head?, t < f i.succ) ∧ f 0 < f i.succ ∧ ∀ j < i, f j.succ < f i.succ := by
        intro i
        constructor
        · rintro ⟨htop, hbefore⟩
          exact ⟨fun t ht => (hpush t ht).trans (htop _ rfl), htop _ rfl, hbefore⟩
        · rintro ⟨-, htop, hbefore⟩
          exact ⟨fun t ht => Option.some.inj ht ▸ htop, hbefore⟩
      rw [if_pos hfirst, pushGreater_of_lt hpush, List.length_cons]
      simp only [hseen]
      omega
    · have hfirst : ¬ ((∀ t ∈ stk.head?, t < f 0) ∧ ∀ j < 0, f j < f 0) := fun h => hpush h.1
      obtain ⟨t, hle⟩ := not_forall.1 hpush
      obtain ⟨ht, hle⟩ := Classical.not_imp.1 hle
      have hseen : ∀ i : Fin n, ((∀ t ∈ stk.head?, t < f i.succ) ∧ ∀ j < i, f j.succ < f i.succ) ↔
          (∀ t ∈ stk.head?, t < f i.succ) ∧ f 0 < f i.succ ∧ ∀ j < i, f j.succ < f i.succ := by
        intro i
        refine and_congr_right fun htop => ?_
        rw [and_iff_right (lt_of_le_of_lt (not_lt.1 hle) (htop t ht))]
      rw [if_neg hfirst, pushGreater_of_le ht hle]
      simp only [hseen]

theorem length_pushGreater (f : Fin n → α) : ((List.ofFn f).foldl pushGreater []).length = fromFirst f := by
  rw [length_foldl_pushGreater, List.length_nil, Nat.zero_add, fromFirst]
  congr 1
  refine Finset.filter_congr fun i _ => and_iff_right fun t ht => ?_
  exact absurd (Option.mem_def.1 ht).symm (Option.some_ne_none t)

lemma popLess_eq_filter (hsorted : stk.Pairwise (· ≤ ·)) : popLess x stk = stk.filter (x ≤ ·) := by
  induction stk with
  | nil => rfl
  | cons top stk ih =>
    rw [List.pairwise_cons] at hsorted
    by_cases htop : top < x
    · rw [popLess, if_pos htop, ih hsorted.2, List.filter_cons_of_neg]
      rw [decide_eq_true_eq]
      exact not_le.2 htop
    · have hall : ∀ y ∈ top :: stk, decide (x ≤ y) = true := by
        intro y hy
        rw [decide_eq_true_eq]
        rcases List.mem_cons.1 hy with rfl | hy
        · exact not_lt.1 htop
        · exact (not_lt.1 htop).trans (hsorted.1 y hy)
      rw [popLess, if_neg htop, List.filter_eq_self.2 hall]

/-- What is left of the stack at the end, and what is pushed, has nothing greater behind it. -/
lemma length_foldl_pushOver (hsorted : stk.Pairwise (· ≤ ·)) (f : Fin n → α) :
    ((List.ofFn f).foldl pushOver stk).length =
      (stk.filter fun t => decide (∀ j, f j ≤ t)).length + Finset.card {i | ∀ j > i, f j ≤ f i} := by
  induction n generalizing stk with
  | zero => simp
  | succ n ih =>
    have hsorted' : (pushOver stk (f 0)).Pairwise (· ≤ ·) := by
      rw [pushOver, popLess_eq_filter hsorted, List.pairwise_cons]
      exact ⟨fun y hy => of_decide_eq_true (List.mem_filter.1 hy).2, hsorted.filter _⟩
    rw [List.ofFn_succ, List.foldl_cons, ih hsorted', Fin.card_filter_univ_succ]
    have hfirst : (∀ j > 0, f j ≤ f 0) ↔ ∀ j : Fin n, f j.succ ≤ f 0 := by
      rw [Fin.forall_fin_succ]
      simp only [gt_iff_lt, lt_irrefl, false_imp_iff, true_and, Fin.succ_pos, true_imp_iff]
    have hrest : ∀ i : Fin n, (∀ j > i.succ, f j ≤ f i.succ) ↔ ∀ j > i, f j.succ ≤ f i.succ := by
      intro i
      rw [Fin.forall_fin_succ]
      simp only [gt_iff_lt, Fin.not_lt_zero, false_imp_iff, true_and, Fin.succ_lt_succ_iff]
    have hkept : (stk.filter (f 0 ≤ ·)).filter (fun t => decide (∀ j : Fin n, f j.succ ≤ t)) =
        stk.filter fun t => decide (∀ j, f j ≤ t) := by
      rw [List.filter_filter]
      congr 1
      funext t
      rw [← Bool.decide_and, decide_eq_decide, and_comm]
      exact (Fin.forall_fin_succ (P := fun j => f j ≤ t)).symm
    simp only [hrest, hfirst]
    rw [pushOver, popLess_eq_filter hsorted, List.filter_cons, hkept]
    split
    · rename_i h
      rw [if_pos (of_decide_eq_true h), List.length_cons]
      omega
    · rename_i h
      rw [decide_eq_true_eq] at h
      rw [if_neg h]

/-- In a row without equal values the second stack holds what is seen from the end. -/
theorem length_pushOver (hf : Function.Injective f) : ((List.ofFn f).foldl pushOver []).length = fromLast f := by
  rw [length_foldl_pushOver List.Pairwise.nil, List.filter_nil, List.length_nil, Nat.zero_add, fromLast]
  congr 1
  ext i
  simp only [Finset.mem_filter, Finset.mem_univ, true_and]
  exact forall_congr' fun j => forall_congr' fun hj => (lt_iff_le_and_ne.trans
    (and_iff_left fun heq => (ne_of_gt hj) (hf heq))).symm

/-! ## How much is seen -/

/-- What is seen lies in front of a building, is that building, or is higher. -/
lemma card_seen_le (before : Fin n → Fin n → Prop) [DecidableRel before] {f : Fin n → Int} (hf : Function.Injective f)
    {N : Int} (hN : ∀ i, f i ≤ N) (htotal : ∀ i j, before i j ∨ i = j ∨ before j i) (r : Fin n) :
    ((Finset.card {i | ∀ j, before j i → f j < f i} : Nat) : Int) ≤ Finset.card {i | before i r} + 1 + (N - f r) := by
  have hsub : ({i | ∀ j, before j i → f j < f i} : Finset (Fin n)) ⊆
      ({i | before i r} : Finset (Fin n)) ∪ {r} ∪ ({i | f r < f i} : Finset (Fin n)) := by
    intro i hi
    simp only [Finset.mem_union, Finset.mem_filter, Finset.mem_univ, true_and, Finset.mem_singleton] at hi ⊢
    rcases htotal i r with h | h | h
    · exact Or.inl (Or.inl h)
    · exact Or.inl (Or.inr h)
    · exact Or.inr (hi r h)
  have hhigher : (Finset.card {i | f r < f i} : Nat) ≤ (Finset.Ioc (f r) N).card := by
    refine Finset.card_le_card_of_injOn f (fun i hi => ?_) hf.injOn
    exact Finset.mem_coe.2 (Finset.mem_Ioc.2 ⟨(Finset.mem_filter.1 hi).2, hN i⟩)
  rw [Int.card_Ioc] at hhigher
  have hcard := (Finset.card_le_card hsub).trans ((Finset.card_union_le _ _).trans
    (Nat.add_le_add_right (Finset.card_union_le _ _) _))
  have := hN r
  rw [Finset.card_singleton] at hcard
  omega

theorem fromFirst_le {f : Fin n → Int} (hf : Function.Injective f) {N : Int} (hN : ∀ i, f i ≤ N) (r : Fin n) :
    (fromFirst f : Int) ≤ r + 1 + (N - f r) := by
  have h := card_seen_le (· < ·) hf hN lt_trichotomy r
  rwa [Finset.filter_gt_eq_Iio, Fin.card_Iio] at h

theorem fromLast_le {f : Fin n → Int} (hf : Function.Injective f) {N : Int} (hN : ∀ i, f i ≤ N) (r : Fin n) :
    (fromLast f : Int) ≤ n - r + (N - f r) := by
  have h := card_seen_le (· > ·) hf hN (fun i j => (lt_trichotomy j i).imp id (Or.imp Eq.symm id)) r
  have hlast : (Finset.card {i | i > r} : Nat) = n - 1 - r := by
    rw [← Fin.card_Ioi, ← Finset.filter_lt_eq_Ioi]
  rw [hlast] at h
  have := r.isLt
  have hle : (fromLast f : Int) ≤ (n - 1 - r : Nat) + 1 + (N - f r) := h
  omega

end CppExperiments.Skyline

import Mathlib.Data.List.Basic
import Mathlib.Order.Bounds.Defs

/-!
# Sorted lists

The beginnings of lists in the lexical order, and where the elements end that are small enough.
-/

namespace CppExperiments

variable {α : Type*}

section Beginnings

variable [LT α] [Std.Asymm (· < · : α → α → Prop)] [Std.Trichotomous (· < · : α → α → Prop)] {as bs : List α} {k : Nat}

lemma take_le_take (h : as ≤ bs) (k : Nat) : as.take k ≤ bs.take k := by
  induction k generalizing as bs with
  | zero => exact List.le_refl _
  | succ k ih =>
    cases as with
    | nil => exact List.nil_le _
    | cons a as =>
      cases bs with
      | nil => exact absurd h (List.not_le.2 (List.nil_lt_cons a as))
      | cons b bs =>
        rw [List.take_succ_cons, List.take_succ_cons, List.cons_le_cons_iff]
        rcases List.cons_le_cons_iff.1 h with hlt | ⟨heq, hle⟩
        · exact Or.inl hlt
        · exact Or.inr ⟨heq, ih hle⟩

lemma lt_of_take_lt_take (h : as.take k < bs.take k) : as < bs := by
  by_contra hnot
  exact List.not_le.2 h (take_le_take (List.not_lt.1 hnot) k)

/-- A beginning that is smaller than that of a longer list makes the list smaller. -/
lemma take_lt_of_take_lt (hk : k ≤ bs.length) (h : as.take k < bs.take k) : as.take bs.length < bs := by
  apply @lt_of_take_lt_take _ _ _ _ _ _ k
  rwa [List.take_take, Nat.min_eq_left hk]

lemma lt_take_of_lt_take (hk : k ≤ bs.length) (h : bs.take k < as.take k) : bs < as.take bs.length := by
  apply @lt_of_take_lt_take _ _ _ _ _ _ k
  rwa [List.take_take, Nat.min_eq_left hk]

end Beginnings

/-- The elements of a sorted list that are small enough are the first ones. -/
lemma getElem_iff_lt_countP {p : α → Bool} {l : List α} (h : l.Pairwise fun a b => p b = true → p a = true) {i : Nat}
    (hi : i < l.length) : p l[i] = true ↔ i < l.countP p := by
  induction l generalizing i with
  | nil => exact absurd hi (Nat.not_lt_zero i)
  | cons a l ih =>
    rw [List.pairwise_cons] at h
    by_cases ha : p a = true
    · rw [List.countP_cons_of_pos ha]
      cases i with
      | zero => exact iff_of_true ha (Nat.succ_pos _)
      | succ i => rw [List.getElem_cons_succ, ih h.2, Nat.succ_lt_succ_iff]
    · have hzero : l.countP p = 0 := List.countP_eq_zero.2 fun b hb hpb => ha (h.1 b hb hpb)
      rw [List.countP_cons_of_neg ha, hzero]
      refine iff_of_false ?_ (Nat.not_lt_zero i)
      cases i with
      | zero => exact ha
      | succ i => exact fun hpi => ha (h.1 _ (List.getElem_mem _) hpi)

end CppExperiments

/-!
## Longest common subsequences

How the length of a longest common subsequence grows with the last elements of two lists.
-/

namespace CppExperiments

open scoped List

variable {α : Type*} {xs ys zs : List α} {a b : α} {m n : Nat}

/-- There is a common subsequence of this length. -/
def Common (xs ys : List α) (n : Nat) : Prop := ∃ zs, zs <+ xs ∧ zs <+ ys ∧ zs.length = n

/-- The length of a longest common subsequence. -/
def Longest (xs ys : List α) (n : Nat) : Prop := IsGreatest {n | Common xs ys n} n

lemma Common.append {xs' ys' : List α} (h : Common xs ys n) (h' : Common xs' ys' m) :
    Common (xs ++ xs') (ys ++ ys') (n + m) := by
  obtain ⟨zs, hxs, hys, rfl⟩ := h
  obtain ⟨zs', hxs', hys', rfl⟩ := h'
  exact ⟨zs ++ zs', hxs.append hxs', hys.append hys', List.length_append⟩

lemma sublist_concat_cases (h : zs <+ xs ++ [a]) : zs <+ xs ∨ ∃ zs', zs = zs' ++ [a] ∧ zs' <+ xs := by
  obtain ⟨zs', rear, rfl, hzs', hrear⟩ := List.sublist_append_iff.1 h
  rcases List.sublist_singleton.1 hrear with rfl | rfl
  · exact Or.inl (by rwa [List.append_nil])
  · exact Or.inr ⟨zs', rfl, hzs'⟩

lemma longest_nil_left (ys : List α) : Longest [] ys 0 := by
  refine ⟨⟨[], List.Sublist.refl [], List.nil_sublist ys, rfl⟩, ?_⟩
  rintro n ⟨zs, hzs, -, rfl⟩
  exact Nat.le_of_eq (congrArg List.length (List.sublist_nil.1 hzs))

lemma longest_nil_right (xs : List α) : Longest xs [] 0 := by
  refine ⟨⟨[], List.nil_sublist xs, List.Sublist.refl [], rfl⟩, ?_⟩
  rintro n ⟨zs, -, hzs, rfl⟩
  exact Nat.le_of_eq (congrArg List.length (List.sublist_nil.1 hzs))

lemma Longest.concat (h : Longest xs ys n) (a : α) : Longest (xs ++ [a]) (ys ++ [a]) (1 + n) := by
  constructor
  · rw [Nat.add_comm]
    exact h.1.append ⟨[a], List.Sublist.refl [a], List.Sublist.refl [a], rfl⟩
  · rintro _ ⟨zs, hxs, hys, rfl⟩
    rcases sublist_concat_cases hys with hin | ⟨front, rfl, hfront⟩
    · rcases sublist_concat_cases hxs with hin' | ⟨front, rfl, hfront⟩
      · have hle := h.2 ⟨zs, hin', hin, rfl⟩
        omega
      · have hle := h.2 ⟨front, hfront, (List.sublist_append_left front [a]).trans hin, rfl⟩
        rw [List.length_append, List.length_singleton]
        omega
    · have hle := h.2 ⟨front, (List.append_sublist_append_right [a]).1 hxs, hfront, rfl⟩
      rw [List.length_append, List.length_singleton]
      omega

lemma Longest.concat_of_ne (hup : Longest xs (ys ++ [b]) m) (hleft : Longest (xs ++ [a]) ys n) (hne : a ≠ b) :
    Longest (xs ++ [a]) (ys ++ [b]) (max m n) := by
  constructor
  · rcases Nat.le_total m n with hle | hle
    · rw [Nat.max_eq_right hle]
      obtain ⟨zs, hxs, hys, hlen⟩ := hleft.1
      exact ⟨zs, hxs, hys.trans (List.sublist_append_left ys [b]), hlen⟩
    · rw [Nat.max_eq_left hle]
      obtain ⟨zs, hxs, hys, hlen⟩ := hup.1
      exact ⟨zs, hxs.trans (List.sublist_append_left xs [a]), hys, hlen⟩
  · rintro _ ⟨zs, hxs, hys, rfl⟩
    rcases sublist_concat_cases hxs with hin | ⟨front, rfl, -⟩
    · exact Nat.le_trans (hup.2 ⟨zs, hin, hys, rfl⟩) (Nat.le_max_left m n)
    · rcases sublist_concat_cases hys with hin | ⟨front', heq, -⟩
      · exact Nat.le_trans (hleft.2 ⟨_, hxs, hin, rfl⟩) (Nat.le_max_right m n)
      · exact absurd (List.singleton_inj.1 (List.append_inj_right' heq rfl)) hne

end CppExperiments

import Mathlib.Data.List.Basic
import Mathlib.Order.Lattice
import Mathlib.Tactic.Cases

/-!
# Lists in buckets

The part of a list that goes to one bucket, when each of its members is sent to a bucket of its own.
-/

namespace CppExperiments

variable {κ α : Type*}

/-- The members of the list that are sent to `k`, in their order. -/
def bucketOf [DecidableEq κ] (ks : List κ) (l : List α) (k : κ) : List α :=
  ((ks.zip l).filter fun p => p.1 = k).map Prod.snd

variable {ks : List κ} {l : List α} {k k' : κ} {a : α}

lemma bucketOf_cons [DecidableEq κ] (k' : κ) (ks : List κ) (a : α) (l : List α) (k : κ) :
    bucketOf (k' :: ks) (a :: l) k = (if k' = k then [a] else []) ++ bucketOf ks l k := by
  by_cases hk : k' = k
  · rw [if_pos hk, bucketOf, List.zip_cons_cons, List.filter_cons_of_pos (by simpa using hk)]
    rfl
  · rw [if_neg hk, bucketOf, List.zip_cons_cons, List.filter_cons_of_neg (by simpa using hk)]
    rfl

lemma bucketOf_eq_nil [DecidableEq κ] (hk : k ∉ ks) : bucketOf ks l k = [] := by
  rw [bucketOf, List.map_eq_nil_iff, List.filter_eq_nil_iff]
  exact fun p hp heq => hk (of_decide_eq_true heq ▸ (List.of_mem_zip hp).1)

lemma bucketOf_concat [DecidableEq κ] (hlength : ks.length = l.length) (k' : κ) (a : α) (k : κ) :
    bucketOf (ks ++ [k']) (l ++ [a]) k = bucketOf ks l k ++ if k' = k then [a] else [] := by
  rw [bucketOf, List.zip_append hlength, List.filter_append, List.map_append]
  refine congrArg _ ?_
  by_cases hk : k' = k
  · simp [hk]
  · simp [hk]

lemma mem_bucketOf_iff [DecidableEq κ] : a ∈ bucketOf ks l k ↔ (k, a) ∈ ks.zip l := by
  rw [bucketOf, List.mem_map]
  constructor
  · rintro ⟨⟨k', a'⟩, hmem, rfl⟩
    obtain ⟨hzip, hk⟩ := List.mem_filter.1 hmem
    obtain rfl := of_decide_eq_true hk
    exact hzip
  · exact fun h => ⟨(k, a), List.mem_filter.2 ⟨h, decide_eq_true rfl⟩, rfl⟩

/-- The least bucket of buckets in order holds the front of the list. -/
lemma bucketOf_least [LinearOrder κ] (hlength : ks.length = l.length) (hsorted : ks.Pairwise (· ≤ ·))
    (hleast : ∀ k' ∈ ks, k ≤ k') :
    ∃ ks' l', ks'.length = l'.length ∧ l = bucketOf ks l k ++ l' ∧ ks'.Pairwise (· ≤ ·) ∧
      (∀ k' ∈ ks', k' ∈ ks ∧ k < k') ∧
      ∀ k', k < k' → bucketOf ks l k' = bucketOf ks' l' k' := by
  induction ks generalizing l with
  | nil =>
    obtain rfl := List.eq_nil_of_length_eq_zero hlength.symm
    exact ⟨[], [], rfl, rfl, .nil, fun k' hk' => absurd hk' List.not_mem_nil, fun k' _ => rfl⟩
  | cons k₀ ks ih =>
    cases l with
    | nil => cases hlength
    | cons a l =>
      rw [List.pairwise_cons] at hsorted
      by_cases hk : k₀ = k
      · obtain ⟨ks', l', hlength', hl, hsorted', hmem, hrest⟩ := ih (Nat.succ.inj hlength) hsorted.2
          fun k' hk' => hleast k' (List.mem_cons_of_mem k₀ hk')
        refine ⟨ks', l', hlength', ?_, hsorted',
          fun k' hk' => ⟨List.mem_cons_of_mem k₀ (hmem k' hk').1, (hmem k' hk').2⟩,
          fun k' hk' => ?_⟩
        · rw [bucketOf_cons, if_pos hk, List.append_assoc, ← hl, List.singleton_append]
        · rw [bucketOf_cons, if_neg (fun heq => absurd (hk.symm.trans heq) (ne_of_lt hk')), List.nil_append]
          exact hrest k' hk'
      · have hlt : k < k₀ := lt_of_le_of_ne (hleast k₀ List.mem_cons_self) (Ne.symm hk)
        have hall : ∀ k' ∈ k₀ :: ks, k < k' :=
          List.forall_mem_cons.2 ⟨hlt, fun k' hk' => lt_of_lt_of_le hlt (hsorted.1 k' hk')⟩
        refine ⟨k₀ :: ks, a :: l, hlength, ?_, List.pairwise_cons.2 hsorted, fun k' hk' => ⟨hk', hall k' hk'⟩,
          fun k' _ => rfl⟩
        rw [bucketOf_eq_nil fun hmem => absurd (hall k hmem) (lt_irrefl k), List.nil_append]

/-- Buckets that are filled one after another hold the list, taken in their order. -/
theorem flatMap_bucketOf [LinearOrder κ] {order : List κ} (hlength : ks.length = l.length)
    (hsorted : ks.Pairwise (· ≤ ·))
    (horder : order.Pairwise (· < ·)) (hmem : ∀ k ∈ ks, k ∈ order) : order.flatMap (bucketOf ks l) = l := by
  induction order generalizing ks l with
  | nil =>
    have hks : ks = [] := List.eq_nil_iff_forall_not_mem.2 fun k hk => absurd (hmem k hk) List.not_mem_nil
    rw [hks] at hlength
    exact (List.eq_nil_of_length_eq_zero hlength.symm).symm
  | cons k order ih =>
    rw [List.pairwise_cons] at horder
    have hleast : ∀ k' ∈ ks, k ≤ k' := fun k' hk' => (List.mem_cons.1 (hmem k' hk')).elim (fun heq => ge_of_eq heq)
      fun hin => le_of_lt (horder.1 k' hin)
    obtain ⟨ks', l', hlength', hl, hsorted', hmem', hrest⟩ := bucketOf_least hlength hsorted hleast
    have htail : order.flatMap (bucketOf ks l) = order.flatMap (bucketOf ks' l') :=
      List.flatMap_congr fun k' hk' => hrest k' (horder.1 k' hk')
    rw [List.flatMap_cons, htail, ih hlength' hsorted' horder.2 fun k' hk' => ?_]
    · exact hl.symm
    · obtain ⟨hin, hlt⟩ := hmem' k' hk'
      exact (List.mem_cons.1 (hmem k' hin)).resolve_left (ne_of_gt hlt)

end CppExperiments

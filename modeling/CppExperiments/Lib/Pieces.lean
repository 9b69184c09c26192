import CppExperiments.Lib.Bytes
import Mathlib.Data.List.Basic

/-!
# Texts in pieces

Where the pieces of a text end, and needs that are met one by one: each takes the first offer that is large enough.
-/

namespace CppExperiments

variable {α : Type*}

/-- Where pieces end that begin at `q`. -/
def cuts (q : Nat) : List (List α) → List Nat
  | [] => []
  | piece :: pieces => (q + piece.length) :: cuts (q + piece.length) pieces

/-- Every need is met by an offer of its own, in their order. -/
def Met : List Nat → List Nat → Prop
  | [], _ => True
  | _ :: _, [] => False
  | need :: needs, offer :: offers => if need ≤ offer then Met needs offers else Met (need :: needs) offers

variable {pieces : List (List α)} {q c : Nat} {needs offers : List Nat}

lemma lt_of_mem_cuts (hpieces : ∀ piece ∈ pieces, piece ≠ []) (hc : c ∈ cuts q pieces) : q < c := by
  induction pieces generalizing q with
  | nil => cases hc
  | cons piece pieces ih =>
    rw [List.forall_mem_cons] at hpieces
    have hpos := List.length_pos_of_ne_nil hpieces.1
    rcases List.mem_cons.1 hc with rfl | hc
    · omega
    · have hlt := ih hpieces.2 hc
      omega

lemma le_of_mem_cuts (hc : c ∈ cuts q pieces) : q ≤ c := by
  induction pieces generalizing q with
  | nil => cases hc
  | cons piece pieces ih =>
    rcases List.mem_cons.1 hc with rfl | hc
    · exact Nat.le_add_right q _
    · exact (Nat.le_add_right q _).trans (ih hc)

lemma pairwise_cuts (q : Nat) (pieces : List (List α)) : (cuts q pieces).Pairwise (· ≤ ·) := by
  induction pieces generalizing q with
  | nil => exact List.Pairwise.nil
  | cons piece pieces ih => exact List.pairwise_cons.2 ⟨fun c hc => le_of_mem_cuts hc, ih _⟩

lemma met_nil (offers : List Nat) : Met [] offers := by cases offers <;> trivial

/-- Needs are met exactly if there are, for each of them, enough offers for it and all behind it. -/
theorem met_iff (hneeds : needs.Pairwise (· ≤ ·)) (hoffers : offers.Pairwise (· ≤ ·)) :
    Met needs offers ↔ ∀ front need rest, needs = front ++ need :: rest → rest.length < offers.countP (need ≤ ·) := by
  induction offers generalizing needs with
  | nil =>
    cases needs with
    | nil => exact iff_of_true trivial fun front need rest h => absurd h.symm (by simp)
    | cons need needs => exact iff_of_false id fun h => absurd (h [] need needs rfl) (Nat.not_lt_zero _)
  | cons offer offers ih =>
    rw [List.pairwise_cons] at hoffers
    cases needs with
    | nil => exact iff_of_true trivial fun front need rest h => absurd h.symm (by simp)
    | cons need needs =>
      rw [List.pairwise_cons] at hneeds
      by_cases hle : need ≤ offer
      · have hall : ∀ need' ≤ offer, offers.countP (need' ≤ ·) = offers.length := fun need' hle' =>
          List.countP_eq_length.2 fun o ho => decide_eq_true (hle'.trans (hoffers.1 o ho))
        rw [Met, if_pos hle, ih hneeds.2 hoffers.2]
        constructor
        · intro h front need' rest heq
          rw [List.countP_cons]
          cases front with
          | nil =>
            obtain ⟨rfl, rfl⟩ := List.cons.inj heq
            rw [hall need hle, if_pos (decide_eq_true hle)]
            cases needs with
            | nil => exact Nat.succ_pos _
            | cons first needs =>
              have hlt := (h [] first needs rfl).trans_le (List.countP_le_length)
              rw [List.length_cons]
              omega
          | cons first front =>
            have hlt := h front need' rest (List.cons.inj heq).2
            omega
        · intro h front need' rest heq
          have hlt := h (need :: front) need' rest (by rw [heq, List.cons_append])
          rw [List.countP_cons] at hlt
          by_cases hle' : need' ≤ offer
          · have hfirst := h [] need needs rfl
            rw [List.countP_cons, hall need hle, if_pos (decide_eq_true hle), heq, List.length_append,
              List.length_cons] at hfirst
            rw [hall need' hle']
            omega
          · rwa [if_neg (by simpa using hle')] at hlt
      · rw [Met, if_neg hle, ih (List.pairwise_cons.2 hneeds) hoffers.2]
        refine forall_congr' fun front => forall_congr' fun need' => forall_congr' fun rest =>
          imp_congr_right fun heq => ?_
        have hlarge : need ≤ need' := by
          cases front with
          | nil => exact (List.cons.inj heq).1.le
          | cons first front =>
            exact hneeds.1 need' ((List.cons.inj heq).2 ▸ List.mem_append_right front List.mem_cons_self)
        rw [List.countP_cons_of_neg]
        rw [decide_eq_true_iff]
        omega

end CppExperiments

import Mathlib.Data.List.DropRight
import Mathlib.Tactic.Cases

/-!
# Trimming

Lists without certain elements at their ends, and the first element of a kind.
-/

namespace CppExperiments

variable {α : Type*} {p f : α → Bool} {l r ws : List α} {a : α} {i : Nat}

/-- What is left when both ends are taken off. -/
def trimBy (p : α → Bool) (l : List α) : List α := (l.rdropWhile p).dropWhile p

/-- There is nothing to take off at the ends. -/
structure Trimmed (p : α → Bool) (l : List α) : Prop where
  head : ∀ a ∈ l.head?, p a = false
  last : ∀ a ∈ l.getLast?, p a = false

lemma dropWhile_eq_self_iff_head : l.dropWhile p = l ↔ ∀ a ∈ l.head?, p a = false := by
  cases l with
  | nil => exact iff_of_true rfl nofun
  | cons b l =>
    by_cases hb : p b = true
    · refine iff_of_false (fun heq => ?_) (fun h => ?_)
      · have hlength := (List.dropWhile_suffix p (l := l)).length_le
        rw [List.dropWhile_cons_of_pos hb] at heq
        rw [heq, List.length_cons] at hlength
        omega
      · rw [h b rfl] at hb
        exact Bool.noConfusion hb
    · rw [List.dropWhile_cons_of_neg hb]
      exact iff_of_true rfl fun a ha => by
        obtain rfl := Option.some.inj ha
        exact Bool.eq_false_iff.2 hb

lemma rdropWhile_eq_self_iff_last : l.rdropWhile p = l ↔ ∀ a ∈ l.getLast?, p a = false := by
  rw [List.rdropWhile, List.reverse_eq_iff, dropWhile_eq_self_iff_head, List.head?_reverse]

lemma dropWhile_append_of_self {xs ys : List α} (hys : ys.dropWhile p = ys) :
    (xs ++ ys).dropWhile p = xs.dropWhile p ++ ys := by
  induction xs with
  | nil => exact hys
  | cons x xs ih =>
    by_cases hx : p x = true
    · rw [List.cons_append, List.dropWhile_cons_of_pos hx, List.dropWhile_cons_of_pos hx, ih]
    · rw [List.cons_append, List.dropWhile_cons_of_neg hx, List.dropWhile_cons_of_neg hx, List.cons_append]

lemma rdropWhile_append_of_self {xs ys : List α} (hxs : xs.rdropWhile p = xs) :
    (xs ++ ys).rdropWhile p = xs ++ ys.rdropWhile p := by
  have hrev : xs.reverse.dropWhile p = xs.reverse := by
    rw [List.rdropWhile] at hxs
    exact List.reverse_eq_iff.1 hxs
  rw [List.rdropWhile, List.reverse_append, dropWhile_append_of_self hrev, List.reverse_append, List.reverse_reverse]
  rfl

lemma Trimmed.nil : Trimmed p [] := ⟨nofun, nofun⟩

lemma Trimmed.trimBy (h : Trimmed p l) : trimBy p l = l := by
  rw [CppExperiments.trimBy, rdropWhile_eq_self_iff_last.2 h.last, dropWhile_eq_self_iff_head.2 h.head]

lemma exists_trimBy (p : α → Bool) (l : List α) :
    ∃ ws ws', l = ws ++ (trimBy p l ++ ws') ∧ (∀ a ∈ ws, p a = true) ∧ ∀ a ∈ ws', p a = true := by
  refine ⟨(l.rdropWhile p).takeWhile p, l.rtakeWhile p, ?_, fun a ha => List.mem_takeWhile_imp ha,
    fun a ha => List.mem_rtakeWhile_imp ha⟩
  rw [trimBy, ← List.append_assoc, List.takeWhile_append_dropWhile, List.rdropWhile_append_rtakeWhile]

lemma Trimmed.of_trimBy (p : α → Bool) (l : List α) : Trimmed p (CppExperiments.trimBy p l) := by
  have hlast : ∀ l : List α, ∀ a ∈ (l.dropWhile p).getLast?, a ∈ l.getLast? := fun l a ha => by
    rw [← List.takeWhile_append_dropWhile (p := p) (l := l), List.getLast?_append, ha]
    rfl
  constructor
  · exact dropWhile_eq_self_iff_head.1 (List.dropWhile_idempotent p _)
  · intro a ha
    exact rdropWhile_eq_self_iff_last.1 (List.rdropWhile_idempotent p l) a (hlast _ a ha)

/-- The ends are taken off, and nothing else. -/
theorem Trimmed.trimBy_append (h : Trimmed p l) {ws' : List α} (hws : ∀ a ∈ ws, p a = true)
    (hws' : ∀ a ∈ ws', p a = true) :
    CppExperiments.trimBy p (ws ++ (l ++ ws')) = l := by
  have hrev : ∀ l : List α, (l ++ ws').rdropWhile p = l.rdropWhile p := fun l => by
    rw [List.rdropWhile, List.reverse_append, List.dropWhile_append_of_pos fun a ha => hws' a (List.mem_reverse.1 ha),
      List.rdropWhile]
  rw [CppExperiments.trimBy, ← List.append_assoc, hrev]
  cases l using List.reverseRecOn with
  | nil => rw [List.append_nil, List.rdropWhile_eq_nil_iff.2 hws, List.dropWhile_nil]
  | append_singleton l a =>
    have ha : p a = false := h.last a List.getLast?_concat
    rw [← List.append_assoc, List.rdropWhile_concat_neg p _ a (by rw [ha]; decide), List.append_assoc,
      List.dropWhile_append_of_pos hws,
      dropWhile_eq_self_iff_head.2 h.head]

lemma trimBy_append_cons (hws : ∀ b ∈ ws, p b = true) (ha : p a = false) :
    trimBy p (ws ++ a :: l) = a :: l.rdropWhile p := by
  have hself : (ws ++ [a]).rdropWhile p = ws ++ [a] := List.rdropWhile_concat_neg p ws a (by rw [ha]; decide)
  rw [trimBy, List.append_cons, rdropWhile_append_of_self hself, List.append_assoc, List.dropWhile_append_of_pos hws,
    List.singleton_append,
    List.dropWhile_cons_of_neg (by rw [ha]; decide)]

lemma trimBy_concat (ha : p a = false) : trimBy p (l ++ [a]) = l.dropWhile p ++ [a] := by
  have hself : [a].dropWhile p = [a] := List.dropWhile_cons_of_neg (by rw [ha]; decide)
  rw [trimBy, List.rdropWhile_concat_neg p l a (by rw [ha]; decide), dropWhile_append_of_self hself]

lemma trimBy_ne_nil (ha : a ∈ l) (hpa : p a = false) : trimBy p l ≠ [] := by
  intro hnil
  obtain ⟨ws, ws', heq, hws, hws'⟩ := exists_trimBy p l
  rw [hnil, List.nil_append] at heq
  rw [heq] at ha
  rcases List.mem_append.1 ha with ha | ha
  · exact absurd (hws a ha) (by rw [hpa]; decide)
  · exact absurd (hws' a ha) (by rw [hpa]; decide)

lemma mem_of_mem_trimBy (h : a ∈ trimBy p l) : a ∈ l :=
  (List.rdropWhile_prefix p l).subset ((List.dropWhile_suffix p).subset h)

/-! ## The first of a kind -/

lemma findIdx?_append_cons (h : ∀ b ∈ l, f b = false) (ha : f a = true) : (l ++ a :: r).findIdx? f = some l.length := by
  rw [List.findIdx?_append, List.findIdx?_eq_none_iff.2 h, Option.none_or, List.findIdx?_cons, if_pos ha,
    Option.map_some,
    Nat.zero_add]

lemma exists_of_findIdx? (h : l.findIdx? f = some i) :
    ∃ l₁ a l₂, l = l₁ ++ a :: l₂ ∧ l₁.length = i ∧ (∀ b ∈ l₁, f b = false) ∧ f a = true := by
  obtain ⟨hlt, ha, hbefore⟩ := List.findIdx?_eq_some_iff_getElem.1 h
  refine ⟨l.take i, l[i], l.drop (i + 1), ?_, List.length_take_of_le hlt.le, fun b hb => ?_, ha⟩
  · rw [List.getElem_cons_drop, List.take_append_drop]
  · obtain ⟨j, hj, rfl⟩ := List.mem_take_iff_getElem.1 hb
    exact Bool.eq_false_iff.2 (hbefore j (by omega))

end CppExperiments

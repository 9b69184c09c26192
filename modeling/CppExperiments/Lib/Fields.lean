import Mathlib.Algebra.Ring.Nat
import Mathlib.Data.List.Basic
import Mathlib.Tactic.Cases

/-!
# Fields of fixed width

A text that is cut into fields, what is written over a part of it, and what is read from a part of it.
-/

namespace CppExperiments

variable {α : Type*}

/-- A part is written over what stands at the offset. -/
def put (l : List α) (offset : Nat) (part : List α) : List α := l.take offset ++ part ++ l.drop (offset + part.length)

def field (l : List α) (offset n : Nat) : List α := (l.drop offset).take n

/-- A part with the filling behind it, up to a width. -/
def padded (z : α) (n : Nat) (part : List α) : List α := part ++ List.replicate (n - part.length) z

variable {z : α} {l part : List α} {fields : List (List α)} {offset i k n : Nat}

lemma length_put (h : offset + part.length ≤ l.length) : (put l offset part).length = l.length := by
  rw [put, List.length_append, List.length_append, List.length_take, List.length_drop]
  omega

lemma length_padded (h : part.length ≤ n) : (padded z n part).length = n := by
  rw [padded, List.length_append, List.length_replicate]
  omega

lemma padded_nil (z : α) (n : Nat) : padded z n [] = List.replicate n z := rfl

/-- What stands outside the part is left. -/
lemma getElem?_put_of_outside (h : offset + part.length ≤ l.length) (hi : i < offset ∨ offset + part.length ≤ i) :
    (put l offset part)[i]? = l[i]? := by
  rw [put]
  rcases hi with hi | hi
  · rw [List.append_assoc, List.getElem?_append_left (by rw [List.length_take]; omega), List.getElem?_take_of_lt hi]
  · have hlength : (l.take offset ++ part).length = offset + part.length := by
      rw [List.length_append, List.length_take]
      omega
    rw [List.getElem?_append_right (by rw [hlength]; exact hi), hlength, List.getElem?_drop, Nat.add_sub_cancel' hi]

lemma flatten_eq_of_getElem? (h : fields[k]? = some l) :
    fields.flatten = (fields.take k).flatten ++ (l ++ (fields.drop (k + 1)).flatten) := by
  obtain ⟨hlt, hget⟩ := List.getElem?_eq_some_iff.1 h
  have hdrop := List.drop_eq_getElem_cons hlt
  rw [hget] at hdrop
  rw [← List.flatten_cons, ← hdrop, ← List.flatten_append, List.take_append_drop]

/-- A field that has only its filling is written. -/
theorem put_flatten (h : fields[k]? = some (List.replicate n z)) (hoffset : offset = (fields.take k).flatten.length)
    (hpart : part.length ≤ n) : put fields.flatten offset part = (fields.set k (padded z n part)).flatten := by
  have hlt := (List.getElem?_eq_some_iff.1 h).1
  rw [flatten_eq_of_getElem? h, hoffset, put, List.take_left, ← List.drop_drop, List.drop_left,
    List.drop_append_of_le_length (by rw [List.length_replicate]; exact hpart), List.drop_replicate,
    List.set_eq_take_append_cons_drop, if_pos hlt, List.flatten_append, List.flatten_cons, padded, List.append_assoc,
      List.append_assoc]

/-- A field is read. -/
theorem field_flatten (h : fields[k]? = some l) (hoffset : offset = (fields.take k).flatten.length)
    (hn : n = l.length) :
    field fields.flatten offset n = l := by
  rw [flatten_eq_of_getElem? h, hoffset, hn, field, List.drop_left, List.take_left]

lemma field_take (h : n ≤ k) : field l offset n = (field l offset k).take n := by
  rw [field, field, List.take_take, Nat.min_eq_left h]

lemma flatten_map_replicate (z : α) (widths : List Nat) :
    (widths.map fun n => List.replicate n z).flatten = List.replicate widths.sum z := by
  induction widths with
  | nil => rfl
  | cons n widths ih => rw [List.map_cons, List.flatten_cons, ih, List.sum_cons, List.replicate_add]

end CppExperiments

import CppExperiments.Lib.Text
import Mathlib.Data.List.Basic

/-!
# Words between white space

What `operator>>` takes from a text into a string, once and again and again.
-/

namespace CppExperiments

/-- The next word and what stands behind it; `none` where there is nothing but white space. -/
def nextWord (text : Bytes) : Option (Bytes × Bytes) :=
  let text := text.dropWhile isSpace
  if text = [] then none else some (text.takeWhile (!isSpace ·), text.dropWhile (!isSpace ·))

variable {text word rest : Bytes}

lemma length_of_nextWord (h : nextWord text = some (word, rest)) : rest.length < text.length := by
  rw [nextWord] at h
  by_cases hnil : text.dropWhile isSpace = []
  · rw [if_pos hnil] at h
    cases h
  · rw [if_neg hnil] at h
    obtain ⟨-, rfl⟩ := Prod.mk.inj (Option.some.inj h)
    obtain ⟨b, bs, hcons⟩ := List.exists_cons_of_ne_nil hnil
    have hb : isSpace b = false := by
      have := List.head_dropWhile_not isSpace hnil
      simpa only [hcons, List.head_cons, Bool.not_eq_true] using this
    have hle := (List.dropWhile_suffix isSpace (l := text)).length_le
    have hrest := (List.dropWhile_suffix (!isSpace ·) (l := bs)).length_le
    rw [hcons, List.length_cons] at hle
    rw [hcons, List.dropWhile_cons_of_pos (by rw [hb]; rfl)]
    omega

lemma suffix_of_nextWord (h : nextWord text = some (word, rest)) : rest <:+ text := by
  rw [nextWord] at h
  by_cases hnil : text.dropWhile isSpace = []
  · rw [if_pos hnil] at h
    cases h
  · rw [if_neg hnil] at h
    obtain ⟨-, rfl⟩ := Prod.mk.inj (Option.some.inj h)
    exact (List.dropWhile_suffix _).trans (List.dropWhile_suffix _)

def wordsOf (text : Bytes) : List Bytes :=
  match _h : nextWord text with
  | none => []
  | some (word, rest) => word :: wordsOf rest
  termination_by text.length
  decreasing_by exact length_of_nextWord _h

lemma nextWord_self (hne : word ≠ []) (h : ∀ b ∈ word, isSpace b = false) : nextWord word = some (word, []) := by
  obtain ⟨b, bs, rfl⟩ := List.exists_cons_of_ne_nil hne
  have hb := h b List.mem_cons_self
  have hall : ∀ ch ∈ b :: bs, (!isSpace ch) = true := fun ch hch => by rw [h ch hch]; rfl
  have hdrop : (b :: bs).dropWhile isSpace = b :: bs := List.dropWhile_cons_of_neg (by simp [hb])
  rw [nextWord, hdrop, if_neg hne, List.takeWhile_eq_self_iff.2 hall, List.dropWhile_eq_nil_iff.2 hall]

lemma wordsOf_self (hne : word ≠ []) (h : ∀ b ∈ word, isSpace b = false) : wordsOf word = [word] := by
  rw [wordsOf, nextWord_self hne h]
  dsimp only
  rw [wordsOf]
  rfl

end CppExperiments

/-!
## Runs of elements that are like their first

A list falls into runs, each as long as its elements are like its first one.
-/

namespace CppExperiments

variable {α β : Type} {like : α → α → Bool}

def runsOf (like : α → α → Bool) : List α → List (List α)
  | [] => []
  | a :: l => (a :: l.takeWhile (like a)) :: runsOf like (l.dropWhile (like a))
  termination_by l => l.length
  decreasing_by
    have := (List.dropWhile_suffix (like a) (l := l)).length_le
    rw [List.length_cons]
    omega

lemma runsOf_cons (a : α) (l : List α) : runsOf like (a :: l) =
    (a :: l.takeWhile (like a)) :: runsOf like (l.dropWhile (like a)) := by rw [runsOf]

/-- What is written for the runs, with the first elements of the first run waiting. -/
def writtenFrom (like : α → α → Bool) (write : List α → List β) (a : α) (queue l : List α) : List β :=
  write (a :: queue ++ l.takeWhile (like a)) ++ (runsOf like (l.dropWhile (like a))).flatMap write

lemma writtenFrom_nil (write : List α → List β) (a : α) (queue : List α) :
    writtenFrom like write a queue [] = write (a :: queue) := by
  rw [writtenFrom, List.takeWhile_nil, List.dropWhile_nil, runsOf, List.flatMap_nil, List.append_nil, List.append_nil]

lemma writtenFrom_cons_of_like (write : List α → List β) {a b : α} (h : like a b = true) (queue l : List α) :
    writtenFrom like write a queue (b :: l) = writtenFrom like write a (queue ++ [b]) l := by
  rw [writtenFrom, List.takeWhile_cons_of_pos h, List.dropWhile_cons_of_pos h, writtenFrom]
  simp only [List.cons_append, List.append_assoc, List.nil_append]

lemma writtenFrom_cons_of_not_like (write : List α → List β) {a b : α} (h : like a b = false) (queue l : List α) :
    writtenFrom like write a queue (b :: l) = write (a :: queue) ++ writtenFrom like write b [] l := by
  have hneg : ¬ like a b = true := by rw [h]; exact Bool.false_ne_true
  rw [writtenFrom, List.takeWhile_cons_of_neg hneg, List.dropWhile_cons_of_neg hneg, runsOf_cons, List.flatMap_cons,
    List.append_nil, writtenFrom]
  rfl

lemma writtenFrom_start (write : List α → List β) (a : α) (l : List α) :
    writtenFrom like write a [] l = (runsOf like (a :: l)).flatMap write := by
  rw [writtenFrom, runsOf_cons, List.flatMap_cons]
  rfl

end CppExperiments

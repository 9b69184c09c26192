import Mathlib.Data.List.Basic
import Mathlib.Logic.Basic

/-!
# Programs that call

Programs that go on with the answers to what they call, and what they come to when a function answers.
-/

namespace CppExperiments

inductive Calling (ι ν : Type*) where
  | ret (v : ν)
  | call (i : ι) (rest : ν → Calling ι ν)

namespace Calling

variable {ι ν : Type*}

/-- The value of a program whose calls are answered by a function. -/
def eval (f : ι → ν) : Calling ι ν → ν
  | ret v => v
  | call i rest => eval f (rest (f i))

/-- All the calls of a program that are made when a function answers. -/
def AllCalls (f : ι → ν) (P : ι → Prop) : Calling ι ν → Prop
  | ret _ => True
  | call i rest => P i ∧ AllCalls f P (rest (f i))

lemma AllCalls.mono {f : ι → ν} {P Q : ι → Prop} {p : Calling ι ν} (h : p.AllCalls f P) (hPQ : ∀ i, P i → Q i) :
    p.AllCalls f Q := by
  induction p with
  | ret v => trivial
  | call i rest ih => exact ⟨hPQ i h.1, ih (f i) h.2⟩

end Calling

end CppExperiments

/-!
## Calls that may fail

What a call that succeeds has done, alone and in a loop over a list.
-/

namespace CppExperiments

variable {ε α β : Type} {f : α → β → Except ε α} {l : List β} {a a' : α}

lemma ok_bind {α β : Type} (a : α) (f : α → Except ε β) : (Except.ok a >>= f) = f a := rfl

lemma error_bind {α β : Type} (e : ε) (f : α → Except ε β) : (Except.error e >>= f) = .error e := rfl

lemma bind_eq_ok {x : Except ε α} {f : α → Except ε β} {b : β} (h : x >>= f = .ok b) :
    ∃ a, x = .ok a ∧ f a = .ok b := by
  cases x with
  | error e => exact absurd h nofun
  | ok a => exact ⟨a, rfl, h⟩

/-- What every call adds to what holds of the elements that are done. -/
lemma foldlM_done {P : List β → α → Prop} (hstep : ∀ done, ∀ b ∈ l, ∀ a a', P done a → f a b = .ok a' →
    P (done ++ [b]) a')
    (ha : P [] a) (h : l.foldlM f a = .ok a') : P l a' := by
  have hrun : ∀ (todo done : List β) (a : α), (∀ b ∈ todo, b ∈ l) → P done a → todo.foldlM f a = .ok a' →
    P (done ++ todo) a' := by
    intro todo
    induction todo with
    | nil =>
      intro done a _ ha h
      obtain rfl := Except.ok.inj h
      rwa [List.append_nil]
    | cons b todo ih =>
      intro done a hmem ha h
      rw [List.foldlM_cons] at h
      obtain ⟨a₁, hb, h⟩ := bind_eq_ok h
      rw [List.append_cons]
      exact ih (done ++ [b]) a₁ (fun c hc => hmem c (List.mem_cons_of_mem b hc))
        (hstep done b (hmem b List.mem_cons_self) a a₁ ha hb) h
  exact hrun l [] a (fun _ hb => hb) ha h

lemma foldlM_invariant {P : α → Prop} (hstep : ∀ a b a', P a → f a b = .ok a' → P a') (ha : P a)
    (h : l.foldlM f a = .ok a') :
    P a' :=
  foldlM_done (P := fun _ => P) (fun _ b _ a a' => hstep a b a') ha h

/-- A loop succeeds when every call does and keeps what the next one needs. -/
lemma exists_foldlM_ok {P : α → Prop} (hstep : ∀ b ∈ l, ∀ a, P a → ∃ a', f a b = .ok a' ∧ P a') (ha : P a) :
    ∃ a', l.foldlM f a = .ok a' := by
  induction l generalizing a with
  | nil => exact ⟨a, rfl⟩
  | cons b l ih =>
    obtain ⟨a₁, hb, ha₁⟩ := hstep b List.mem_cons_self a ha
    rw [List.foldlM_cons, hb]
    exact ih (fun c hc => hstep c (List.mem_cons_of_mem b hc)) ha₁

lemma foldlM_range_succ {f : α → Nat → Except ε α} {m : Nat} (h : (List.range m).foldlM f a = .ok a') :
    (List.range (m + 1)).foldlM f a = f a' m := by
  rw [List.range_succ, List.foldlM_append, h]
  change (f a' m >>= pure) = f a' m
  exact bind_pure (f a' m)

end CppExperiments

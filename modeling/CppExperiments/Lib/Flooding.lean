import Mathlib.Data.Set.Insert
import Mathlib.Logic.Relation

/-!
# Flooding

Vertices are marked from a start on: what is open is queued when it is marked, and its successors are marked when it
is taken from the queue. Vertices that were marked before are not queued again, which is safe as long as the successors
of the open ones among them are marked too.
-/

namespace CppExperiments

variable {α : Type*} {next : α → α → Prop} {opens : α → Prop} {old marked : Set α} {start a b : α} {queue : List α}
  {current : Option α}

/-- The open vertices that are reached from the start through open vertices. -/
def Region (next : α → α → Prop) (opens : α → Prop) (start : α) : Set α :=
  {a | Relation.ReflTransGen (fun a b => next a b ∧ opens b) start a}

/-- The region and its border. -/
def Flooded (next : α → α → Prop) (opens : α → Prop) (start : α) : Set α :=
  {b | ∃ a ∈ Region next opens start, b = a ∨ next a b}

/-- Every successor of an open vertex is marked. -/
def Closed (next : α → α → Prop) (opens : α → Prop) (marked : Set α) : Prop :=
  ∀ a ∈ marked, opens a → ∀ b, next a b → b ∈ marked

/-- What has been marked on the way. The successors of `current` are being marked, if there is such a vertex. -/
structure Flooding (next : α → α → Prop) (opens : α → Prop) (old : Set α) (start : α) (current : Option α)
    (queue : List α) (marked : Set α) : Prop where
  kept : old ⊆ marked
  started : start ∈ marked
  queued : ∀ a, a ∈ queue ∨ current = some a → a ∈ Region next opens start
  sound : ∀ a ∈ marked, a ∈ old ∨ a ∈ Flooded next opens start
  closed : ∀ a ∈ marked, opens a → a ∈ queue ∨ current = some a ∨ ∀ b, next a b → b ∈ marked

lemma region_subset_flooded (ha : a ∈ Region next opens start) : a ∈ Flooded next opens start := ⟨a, ha, Or.inl rfl⟩

lemma opens_of_mem_region (hopen : opens start) (ha : a ∈ Region next opens start) : opens a := by
  have ha' : Relation.ReflTransGen (fun a b => next a b ∧ opens b) start a := ha
  cases ha' with
  | refl => exact hopen
  | tail _ hstep => exact hstep.2

namespace Flooding

lemma init (hclosed : Closed next opens old) : Flooding next opens old start none [start] (insert start old) where
  kept := Set.subset_insert start old
  started := Set.mem_insert start old
  queued a ha := by
    rcases ha with ha | ha
    · exact List.mem_singleton.1 ha ▸ Relation.ReflTransGen.refl
    · exact absurd ha.symm (Option.some_ne_none a)
  sound a ha := by
    rcases ha with rfl | ha
    · exact Or.inr (region_subset_flooded Relation.ReflTransGen.refl)
    · exact Or.inl ha
  closed a ha hopen := by
    rcases ha with rfl | ha
    · exact Or.inl List.mem_cons_self
    · exact Or.inr (Or.inr fun b hb => Set.mem_insert_of_mem start (hclosed a ha hopen b hb))

lemma pop (h : Flooding next opens old start none (a :: queue) marked) :
    Flooding next opens old start (some a) queue marked where
  kept := h.kept
  started := h.started
  queued b hb := by
    rcases hb with hb | hb
    · exact h.queued b (Or.inl (List.mem_cons_of_mem a hb))
    · exact h.queued b (Or.inl (Option.some.inj hb ▸ List.mem_cons_self))
  sound := h.sound
  closed b hb hopen := by
    rcases h.closed b hb hopen with hmem | hnone | hall
    · rcases List.mem_cons.1 hmem with rfl | hmem
      · exact Or.inr (Or.inl rfl)
      · exact Or.inl hmem
    · exact absurd hnone.symm (Option.some_ne_none b)
    · exact Or.inr (Or.inr hall)

/-- A successor is marked that does not lead on. -/
lemma mark (h : Flooding next opens old start (some a) queue marked) (hnext : next a b) (hopen : ¬ opens b) :
    Flooding next opens old start (some a) queue (insert b marked) where
  kept := h.kept.trans (Set.subset_insert b marked)
  started := Set.mem_insert_of_mem b h.started
  queued := h.queued
  sound c hc := by
    rcases hc with rfl | hc
    · exact Or.inr ⟨a, h.queued a (Or.inr rfl), Or.inr hnext⟩
    · exact h.sound c hc
  closed c hc hc' := by
    rcases hc with rfl | hc
    · exact absurd hc' hopen
    · rcases h.closed c hc hc' with hmem | hcur | hall
      · exact Or.inl hmem
      · exact Or.inr (Or.inl hcur)
      · exact Or.inr (Or.inr fun d hd => Set.mem_insert_of_mem b (hall d hd))

/-- An open successor is marked and queued. -/
lemma push (h : Flooding next opens old start (some a) queue marked) (hnext : next a b) (hopen : opens b) :
    Flooding next opens old start (some a) (queue ++ [b]) (insert b marked) where
  kept := h.kept.trans (Set.subset_insert b marked)
  started := Set.mem_insert_of_mem b h.started
  queued c hc := by
    rcases hc with hc | hc
    · rcases List.mem_append.1 hc with hc | hc
      · exact h.queued c (Or.inl hc)
      · exact List.mem_singleton.1 hc ▸ Relation.ReflTransGen.tail (h.queued a (Or.inr rfl)) ⟨hnext, hopen⟩
    · exact h.queued c (Or.inr hc)
  sound c hc := by
    rcases hc with rfl | hc
    · exact Or.inr ⟨a, h.queued a (Or.inr rfl), Or.inr hnext⟩
    · exact h.sound c hc
  closed c hc hc' := by
    rcases hc with rfl | hc
    · exact Or.inl (List.mem_append_right _ List.mem_cons_self)
    · rcases h.closed c hc hc' with hmem | hcur | hall
      · exact Or.inl (List.mem_append_left _ hmem)
      · exact Or.inr (Or.inl hcur)
      · exact Or.inr (Or.inr fun d hd => Set.mem_insert_of_mem b (hall d hd))

/-- All successors of the current vertex are marked. -/
lemma finish (h : Flooding next opens old start (some a) queue marked) (hall : ∀ b, next a b → b ∈ marked) :
    Flooding next opens old start none queue marked where
  kept := h.kept
  started := h.started
  queued b hb := by
    rcases hb with hb | hb
    · exact h.queued b (Or.inl hb)
    · exact absurd hb.symm (Option.some_ne_none b)
  sound := h.sound
  closed b hb hopen := by
    rcases h.closed b hb hopen with hmem | hcur | hall'
    · exact Or.inl hmem
    · exact Or.inr (Or.inr (Option.some.inj hcur ▸ hall))
    · exact Or.inr (Or.inr hall')

lemma closed_of_nil (h : Flooding next opens old start none [] marked) : Closed next opens marked := by
  intro a ha hopen
  rcases h.closed a ha hopen with hmem | hcur | hall
  · exact absurd hmem List.not_mem_nil
  · exact absurd hcur.symm (Option.some_ne_none a)
  · exact hall

/-- When nothing is queued any more, the region and its border are marked and nothing else is new. -/
theorem mem_iff (h : Flooding next opens old start none [] marked) (hopen : opens start) :
    b ∈ marked ↔ b ∈ old ∨ b ∈ Flooded next opens start := by
  refine ⟨h.sound b, fun hb => ?_⟩
  have hregion : ∀ a ∈ Region next opens start, a ∈ marked := by
    intro a ha
    induction ha with
    | refl => exact h.started
    | tail hpath hstep ih => exact h.closed_of_nil _ ih (opens_of_mem_region hopen hpath) _ hstep.1
  rcases hb with hb | ⟨a, ha, rfl | hnext⟩
  · exact h.kept hb
  · exact hregion _ ha
  · exact h.closed_of_nil a (hregion a ha) (opens_of_mem_region hopen ha) b hnext

end Flooding

end CppExperiments

import Mathlib.Data.List.Nodup
import Mathlib.Logic.Equiv.Basic

/-!
# Linked nodes

A heap gives the node at an address, and none where nothing is allocated. The cells of a list are the addresses and
values of its nodes, from its head to the node whose pointer is null. Lists own their nodes when no two of them share
one and every node of the heap is on one of them.
-/

namespace CppExperiments.Linked

structure Node (α β : Type*) where
  value : β
  next : Option α := none
  deriving DecidableEq

variable {α β ι : Type*} {h h' : α → Option (Node α β)} {p q r : Option α} {a b : α} {v w : β}
  {cells cells' cells₁ cells₂ : List (α × β)}

/-- The cells from one pointer on, and the pointer behind the last. -/
def Segment (h : α → Option (Node α β)) : Option α → List (α × β) → Option α → Prop
  | p, [], q => p = q
  | p, (a, v) :: cells, q => p = some a ∧ ∃ r, h a = some ⟨v, r⟩ ∧ Segment h r cells q

def Chain (h : α → Option (Node α β)) (p : Option α) (cells : List (α × β)) : Prop := Segment h p cells none

def addresses (cells : List (α × β)) : List α := cells.map Prod.fst

@[simp] lemma addresses_nil : addresses ([] : List (α × β)) = [] := rfl

@[simp] lemma addresses_cons : addresses ((a, v) :: cells) = a :: addresses cells := rfl

@[simp] lemma addresses_append : addresses (cells₁ ++ cells₂) = addresses cells₁ ++ addresses cells₂ :=
  List.map_append

lemma segment_append : Segment h p (cells₁ ++ cells₂) q ↔ ∃ r, Segment h p cells₁ r ∧ Segment h r cells₂ q := by
  induction cells₁ generalizing p with
  | nil =>
    constructor
    · exact fun hseg => ⟨p, rfl, hseg⟩
    · rintro ⟨r, rfl, hseg⟩
      exact hseg
  | cons c cells₁ ih =>
    obtain ⟨a, v⟩ := c
    constructor
    · rintro ⟨hp, s, ha, hseg⟩
      obtain ⟨r, h₁, h₂⟩ := ih.1 hseg
      exact ⟨r, ⟨hp, s, ha, h₁⟩, h₂⟩
    · rintro ⟨r, ⟨hp, s, ha, h₁⟩, h₂⟩
      exact ⟨hp, s, ha, ih.2 ⟨r, h₁, h₂⟩⟩

lemma Segment.congr (hseg : Segment h p cells q) (heq : ∀ a ∈ addresses cells, h' a = h a) :
    Segment h' p cells q := by
  induction cells generalizing p with
  | nil => exact hseg
  | cons c cells ih =>
    obtain ⟨a, v⟩ := c
    obtain ⟨hp, r, ha, hrest⟩ := hseg
    refine ⟨hp, r, ?_, ih hrest fun b hb => heq b (List.mem_cons_of_mem _ hb)⟩
    rw [heq a List.mem_cons_self, ha]

lemma Segment.ne_none (hseg : Segment h p cells q) (ha : a ∈ addresses cells) : h a ≠ none := by
  induction cells generalizing p with
  | nil => exact absurd ha List.not_mem_nil
  | cons c cells ih =>
    obtain ⟨b, v⟩ := c
    obtain ⟨-, r, hb, hrest⟩ := hseg
    rcases List.mem_cons.1 ha with heq | ha
    · rw [heq, hb]
      exact Option.some_ne_none _
    · exact ih hrest ha

/-- From a pointer on there is at most one list of cells. -/
theorem Chain.unique (hc : Chain h p cells) (hc' : Chain h p cells') : cells = cells' := by
  induction cells generalizing p cells' with
  | nil =>
    cases cells' with
    | nil => rfl
    | cons c cells' => exact absurd (hc.symm.trans hc'.1) (Option.some_ne_none _).symm
  | cons c cells ih =>
    obtain ⟨a, v⟩ := c
    obtain ⟨rfl, r, ha, hrest⟩ := hc
    cases cells' with
    | nil => exact absurd hc' (Option.some_ne_none a)
    | cons c' cells' =>
      obtain ⟨b, w⟩ := c'
      obtain ⟨hb, r', hb', hrest'⟩ := hc'
      obtain rfl := Option.some.inj hb
      obtain ⟨rfl, rfl⟩ := Node.mk.inj (Option.some.inj (ha.symm.trans hb'))
      rw [ih hrest hrest']

/-- A chain that ends does not come back to a node. -/
theorem Chain.nodup (hc : Chain h p cells) : (addresses cells).Nodup := by
  induction cells generalizing p with
  | nil => exact List.nodup_nil
  | cons c cells ih =>
    obtain ⟨a, v⟩ := c
    have hc' := hc
    obtain ⟨rfl, r, ha, hrest⟩ := hc'
    refine List.nodup_cons.2 ⟨fun hmem => ?_, ih hrest⟩
    obtain ⟨⟨a', w⟩, hmem', rfl⟩ := List.mem_map.1 hmem
    obtain ⟨cells₁, cells₂, heq⟩ := List.append_of_mem hmem'
    rw [heq] at hrest
    obtain ⟨s, -, hs⟩ := segment_append.1 hrest
    obtain rfl := hs.1
    have := congrArg List.length (Chain.unique hc hs)
    rw [heq] at this
    simp only [List.length_cons, List.length_append] at this
    omega

section

variable [DecidableEq α]

/-! ## Nodes that are linked and unlinked -/

lemma Segment.update_of_notMem (hseg : Segment h p cells q) (ha : a ∉ addresses cells) (n : Option (Node α β)) :
    Segment (Function.update h a n) p cells q :=
  hseg.congr fun b hb => Function.update_of_ne (fun heq : b = a => ha (heq ▸ hb)) _ _

/-- A new node in front of what follows it. -/
lemma Chain.push (hc : Chain h p cells) (ha : a ∉ addresses cells) :
    Chain (Function.update h a (some ⟨v, p⟩)) (some a) ((a, v) :: cells) :=
  ⟨rfl, p, Function.update_self _ _ _, hc.update_of_notMem ha _⟩

/-- The pointer of a node of a segment is turned to what follows somewhere else. -/
lemma Segment.relink (hseg : Segment h p (cells ++ [(a, v)]) q) (hnodup : (addresses (cells ++ [(a, v)])).Nodup) :
    Segment (Function.update h a (some ⟨v, r⟩)) p (cells ++ [(a, v)]) r := by
  obtain ⟨s, h₁, rfl, -⟩ := segment_append.1 hseg
  rw [addresses_append, List.nodup_append] at hnodup
  have ha : a ∉ addresses cells := fun hmem => hnodup.2.2 a hmem a List.mem_cons_self rfl
  exact segment_append.2 ⟨some a, h₁.update_of_notMem ha _, rfl, r, Function.update_self _ _ _, rfl⟩

end

/-! ## Lists that own their nodes -/

structure Owned (h : α → Option (Node α β)) (heads : ι → Option α) (cells : ι → List (α × β)) : Prop where
  chain : ∀ i, Chain h (heads i) (cells i)
  disjoint : ∀ i j, i ≠ j → List.Disjoint (addresses (cells i)) (addresses (cells j))
  owned : ∀ a, h a ≠ none → ∃ i, a ∈ addresses (cells i)

namespace Owned

variable {heads : ι → Option α} {cells : ι → List (α × β)} {c : List (α × β)} {i j : ι}

lemma empty : Owned (fun _ => none) (fun _ => none) fun _ : ι => ([] : List (α × β)) :=
  ⟨fun _ => rfl, fun _ _ _ => List.disjoint_nil_left _, fun _ ha => absurd rfl ha⟩

lemma index_unique (hown : Owned h heads cells) (hi : a ∈ addresses (cells i)) (hj : a ∈ addresses (cells j)) :
    i = j := by
  by_contra hne
  exact hown.disjoint i j hne hi hj

variable [DecidableEq ι]

/-- One list has other nodes: those that it keeps, and new ones. The nodes that it gives up are freed. -/
theorem update (hown : Owned h heads cells) (hc : Chain h' p c)
    (hframe : ∀ a, a ∉ addresses (cells i) → a ∉ addresses c → h' a = h a)
    (hnew : ∀ a ∈ addresses c, a ∈ addresses (cells i) ∨ h a = none)
    (hgone : ∀ a ∈ addresses (cells i), a ∉ addresses c → h' a = none) :
    Owned h' (Function.update heads i p) (Function.update cells i c) := by
  have hother : ∀ j, j ≠ i → ∀ a ∈ addresses (cells j), a ∉ addresses (cells i) ∧ a ∉ addresses c := by
    intro j hj a ha
    have hi : a ∉ addresses (cells i) := fun hi => hj (hown.index_unique ha hi)
    refine ⟨hi, fun hmem => ?_⟩
    exact (hown.chain j).ne_none ha ((hnew a hmem).resolve_left hi)
  refine ⟨fun j => ?_, fun j k hjk => ?_, fun a ha => ?_⟩
  · by_cases hj : j = i
    · rw [hj, Function.update_self, Function.update_self]
      exact hc
    · rw [Function.update_of_ne hj, Function.update_of_ne hj]
      exact (hown.chain j).congr fun a ha => hframe a (hother j hj a ha).1 (hother j hj a ha).2
  · by_cases hj : j = i
    · have hk : k ≠ i := fun hk => hjk (hj.trans hk.symm)
      rw [hj, Function.update_self, Function.update_of_ne hk]
      exact fun a ha hak => (hother k hk a hak).2 ha
    · by_cases hk : k = i
      · rw [hk, Function.update_self, Function.update_of_ne hj]
        exact fun a haj ha => (hother j hj a haj).2 ha
      · rw [Function.update_of_ne hj, Function.update_of_ne hk]
        exact hown.disjoint j k hjk
  · by_cases hmem : a ∈ addresses c
    · refine ⟨i, ?_⟩
      rwa [Function.update_self]
    · have hi : a ∉ addresses (cells i) := fun hi => ha (hgone a hi hmem)
      obtain ⟨j, hj⟩ := hown.owned a (hframe a hi hmem ▸ ha)
      have hne : j ≠ i := fun heq => hi (heq ▸ hj)
      refine ⟨j, ?_⟩
      rwa [Function.update_of_ne hne]

omit [DecidableEq ι] in
/-- The nodes stay where they are, and the lists change places. -/
theorem permute (hown : Owned h heads cells) (σ : Equiv.Perm ι) : Owned h (heads ∘ σ) (cells ∘ σ) := by
  refine ⟨fun i => hown.chain (σ i), fun i j hij => hown.disjoint _ _ (σ.injective.ne hij), fun a ha => ?_⟩
  obtain ⟨i, hi⟩ := hown.owned a ha
  refine ⟨σ.symm i, ?_⟩
  rwa [Function.comp_apply, Equiv.apply_symm_apply]

end Owned

end CppExperiments.Linked

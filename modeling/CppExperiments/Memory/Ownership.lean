import CppExperiments.Memory.ForwardList
import Mathlib.Data.Fintype.Card
import Mathlib.Data.List.InsertIdx

/-!
# Lists that own their nodes

Each operation gives one list other nodes, or makes lists change places. The nodes of the heap stay divided among the
lists, and what the allocator was asked for at an address is allocations and deallocations in turn.
-/

namespace CppExperiments.Memory

open Linked

variable {T ι γ : Type} {alloc : Allocator T} {m m' : Heap T} {a : Address} {value : T} {head p : Option Address}
  {l : ForwardList} {cells old new : List (Address × T)} {xs : List T}

namespace Heap

def eventsAt (m : Heap T) (a : Address) : List Event :=
  m.events.filter fun e => e = .allocate a ∨ e = .deallocate a

/-- What is allocated at an address is freed once before anything else is allocated there, unless it is still in use. -/
def Accounted (m : Heap T) : Prop :=
  ∀ a, ∃ k, m.eventsAt a = (List.replicate k [Event.allocate a, .deallocate a]).flatten ++
    if m.nodes a = none then [] else [.allocate a]

lemma accounted_empty : ({} : Heap T).Accounted := fun _ => ⟨0, rfl⟩

lemma Accounted.of_nodes (h : m.Accounted) (hnodes : ∀ a, m'.nodes a = none ↔ m.nodes a = none)
    (hevents : m'.events = m.events) : m'.Accounted := by
  intro a
  obtain ⟨k, hk⟩ := h a
  refine ⟨k, ?_⟩
  simp only [eventsAt, hevents, hnodes a]
  exact hk

lemma Accounted.refuse (h : m.Accounted) : ({ m with events := m.events ++ [.refuse] } : Heap T).Accounted := by
  intro a
  obtain ⟨k, hk⟩ := h a
  refine ⟨k, ?_⟩
  simpa [eventsAt] using hk

lemma Accounted.allocate (h : m.Accounted) (ha : m.nodes a = none) (n : Node T) :
    (⟨Function.update m.nodes a (some n), m.events ++ [.allocate a]⟩ : Heap T).Accounted := by
  intro b
  obtain ⟨k, hk⟩ := h b
  refine ⟨k, ?_⟩
  by_cases hb : b = a
  · subst hb
    rw [if_pos ha, List.append_nil] at hk
    simp [eventsAt, ← hk]
  · have hne : a ≠ b := fun heq => hb heq.symm
    simpa [eventsAt, Function.update_of_ne hb, hne] using hk

lemma Accounted.deallocate (h : m.Accounted) (ha : m.nodes a ≠ none) :
    (⟨Function.update m.nodes a none, m.events ++ [.deallocate a]⟩ : Heap T).Accounted := by
  intro b
  obtain ⟨k, hk⟩ := h b
  by_cases hb : b = a
  · subst hb
    rw [if_neg ha] at hk
    refine ⟨k + 1, ?_⟩
    rw [if_pos (Function.update_self _ _ _), List.append_nil, List.replicate_succ', List.flatten_append]
    simp only [eventsAt] at hk ⊢
    rw [List.filter_append, hk]
    simp
  · have hne : a ≠ b := fun heq => hb heq.symm
    refine ⟨k, ?_⟩
    simpa [eventsAt, Function.update_of_ne hb, hne] using hk

/-- An allocation fails, or it gives an address that is free, for a node that is then constructed. -/
lemma allocate_cases (alloc : Allocator T) (m : Heap T) (value : T) :
    (∃ m', m.allocate alloc = (none, m') ∧ m'.nodes = m.nodes ∧ (m.Accounted → m'.Accounted)) ∨
    ∃ a m', m.allocate alloc = (some a, m') ∧ m'.nodes = m.nodes ∧ m.nodes a = none ∧
      ∀ nodes, m.Accounted → (∀ b, nodes b = none ↔ Function.update m.nodes a (some ⟨value, none⟩) b = none) →
        ({ m' with nodes := nodes } : Heap T).Accounted := by
  unfold allocate
  cases hgrant : alloc.grant m with
  | none => exact Or.inl ⟨_, rfl, rfl, Accounted.refuse⟩
  | some a =>
    have ha := alloc.fresh m a hgrant
    refine Or.inr ⟨a, _, rfl, rfl, ha, fun nodes hm hnodes => ?_⟩
    exact (hm.allocate ha ⟨value, none⟩).of_nodes hnodes rfl

end Heap

/-! ## One list -/

/-- A list whose cells were the old ones has the new ones, and nothing else has changed. -/
structure Replaced (m m' : Heap T) (head : Option Address) (old new : List (Address × T)) : Prop where
  chain : Chain m'.nodes head new
  frame : ∀ a, a ∉ addresses old → a ∉ addresses new → m'.nodes a = m.nodes a
  fresh : ∀ a ∈ addresses new, a ∈ addresses old ∨ m.nodes a = none
  gone : ∀ a ∈ addresses old, a ∉ addresses new → m'.nodes a = none
  accounted : m.Accounted → m'.Accounted

lemma Replaced.refl (hc : Chain m.nodes head cells) : Replaced m m head cells cells :=
  ⟨hc, fun _ _ _ => rfl, fun _ ha => Or.inl ha, fun _ ha hna => absurd ha hna, id⟩

namespace ForwardList

lemma clearLoop_spec (hc : Chain m.nodes p cells) :
    ∃ m', clearLoop m p = some m' ∧ (m.Accounted → m'.Accounted) ∧
      ∀ a, m'.nodes a = if a ∈ addresses cells then none else m.nodes a := by
  induction cells generalizing p m with
  | nil =>
    obtain rfl : p = none := hc
    refine ⟨m, by rw [clearLoop], id, fun a => ?_⟩
    rw [addresses_nil, if_neg List.not_mem_nil]
  | cons c cells ih =>
    have hnodup := hc.nodup
    obtain ⟨b, v⟩ := c
    obtain ⟨rfl, r, hb, hrest⟩ := hc
    rw [addresses_cons, List.nodup_cons] at hnodup
    obtain ⟨m', hm', hacc, hnodes⟩ := ih
      (m := ⟨Function.update m.nodes b none, m.events ++ [.deallocate b]⟩) (hrest.update_of_notMem hnodup.1 none)
    have hnext : m.next (some b) = some r := by
      rw [Heap.next, Option.bind_some, hb]
      rfl
    have hfree : m.deallocate b = some ⟨Function.update m.nodes b none, m.events ++ [.deallocate b]⟩ := by
      rw [Heap.deallocate, hb]
      rfl
    refine ⟨m', ?_, fun h => hacc (h.deallocate (by rw [hb]; exact Option.some_ne_none _)), fun a => ?_⟩
    · rw [clearLoop, hnext]
      simp only [Option.bind_eq_bind, Option.bind_some]
      split
      · rename_i hnone
        exact absurd (hnone.symm.trans hfree) (Option.some_ne_none _).symm
      · rename_i m₁ hm₁
        obtain rfl := Option.some.inj (hm₁.symm.trans hfree)
        exact hm'
    · rw [hnodes, addresses_cons]
      by_cases ha : a ∈ addresses cells
      · rw [if_pos ha, if_pos (List.mem_cons_of_mem _ ha)]
      · rw [if_neg ha]
        change Function.update m.nodes b none a = _
        by_cases hab : a = b
        · rw [hab, Function.update_self, if_pos List.mem_cons_self]
        · rw [Function.update_of_ne hab, if_neg]
          exact fun hmem => (List.mem_cons.1 hmem).elim hab ha

theorem clear_spec (hc : Chain m.nodes l.head cells) :
    ∃ m', clear m l = some ({}, m') ∧ Replaced m m' none cells [] ∧
      ∀ a, a ∉ addresses cells → m'.nodes a = m.nodes a := by
  obtain ⟨m', hm', hacc, hnodes⟩ := clearLoop_spec hc
  have hframe : ∀ a, a ∉ addresses cells → m'.nodes a = m.nodes a := by
    intro a ha
    rw [hnodes, if_neg ha]
  refine ⟨m', ?_, ⟨rfl, fun a ha _ => hframe a ha, fun a ha => absurd ha List.not_mem_nil, fun a ha _ => ?_, hacc⟩,
    hframe⟩
  · rw [clear, hm']
    rfl
  · rw [hnodes, if_pos ha]

end ForwardList

/-! ## Lists that are built -/

/-- From the iterator on the values are read, whatever happens to nodes that are not among the source. -/
structure Reads (it : InputIterator T γ) (source : List Address)
    (R : (Address → Option (Node T)) → γ → List T → Prop) : Prop where
  congr : ∀ nodes nodes' curr xs, (∀ a ∈ source, nodes' a = nodes a) → R nodes curr xs → R nodes' curr xs
  done : ∀ (m : Heap T) curr, R m.nodes curr [] → it.atEnd curr = true
  more : ∀ (m : Heap T) curr x xs, R m.nodes curr (x :: xs) → it.atEnd curr = false ∧ it.deref m curr = some x ∧
    ∃ curr', it.advance m curr = some curr' ∧ R m.nodes curr' xs

lemma reads_values : Reads (valueIterator : InputIterator T _) [] fun _ curr xs => curr = xs := by
  refine ⟨fun _ _ _ _ _ h => h, fun _ curr h => by rw [h]; rfl, fun _ curr x xs h => ?_⟩
  rw [h]
  exact ⟨rfl, rfl, xs, rfl, rfl⟩

lemma reads_list (source : List Address) : Reads (listIterator : InputIterator T _) source fun nodes curr xs =>
    ∃ cells, Chain nodes curr cells ∧ addresses cells ⊆ source ∧ cells.map Prod.snd = xs := by
  refine ⟨fun nodes nodes' curr xs heq => ?_, fun m curr => ?_, fun m curr x xs => ?_⟩
  · rintro ⟨cells, hc, hsub, hxs⟩
    exact ⟨cells, hc.congr fun a ha => heq a (hsub ha), hsub, hxs⟩
  · rintro ⟨cells, hc, -, hxs⟩
    obtain rfl := List.map_eq_nil_iff.1 hxs
    obtain rfl : curr = none := hc
    rfl
  · rintro ⟨_ | ⟨⟨a, v⟩, cells⟩, hc, hsub, hxs⟩
    · exact absurd hxs (List.cons_ne_nil _ _).symm
    obtain ⟨rfl, r, ha, hrest⟩ := hc
    obtain ⟨rfl, hxs'⟩ := List.cons.inj hxs
    refine ⟨rfl, ?_, r, ?_, cells, hrest, fun b hb => hsub (List.mem_cons_of_mem _ hb), hxs'⟩
    · simp only [listIterator, Option.bind_some, ha, Option.map_some]
    · simp only [listIterator, Heap.next, Option.bind_some, ha, Option.map_some]

namespace ForwardList

variable {it : InputIterator T γ} {source : List Address} {R : (Address → Option (Node T)) → γ → List T → Prop}
  {curr : γ} {tail : Address} {v : T}

/-- The heap after a node is hung behind the tail. -/
lemma linkNext_spec {x : T} (hreads : Reads it source R) (hR : R m.nodes curr (x :: xs))
    (htail : m.nodes tail = some ⟨v, none⟩) (htails : tail ∉ source) (has : a ∉ source) :
    ∃ curr', it.linkNext m tail a curr = some (⟨Function.update
      (Function.update m.nodes tail (some ⟨v, some a⟩)) a (some ⟨x, none⟩), m.events⟩, curr') ∧
      R (Function.update (Function.update m.nodes tail (some ⟨v, some a⟩)) a (some ⟨x, none⟩)) curr' xs := by
  have hset : m.setNext tail (some a) = some { m with nodes := Function.update m.nodes tail (some ⟨v, some a⟩) } := by
    rw [Heap.setNext, htail]
    rfl
  have htail' : ∀ b ∈ source, Function.update m.nodes tail (some ⟨v, some a⟩) b = m.nodes b := by
    intro b hb
    exact Function.update_of_ne (fun heq : b = tail => htails (heq ▸ hb)) _ _
  have hnew : ∀ b ∈ source, Function.update (Function.update m.nodes tail (some ⟨v, some a⟩)) a
      (some ⟨x, none⟩) b = m.nodes b := by
    intro b hb
    rw [Function.update_of_ne fun heq : b = a => has (heq ▸ hb), htail' b hb]
  obtain ⟨-, hderef, -⟩ := hreads.more { m with nodes := Function.update m.nodes tail (some ⟨v, some a⟩) } curr x xs
    (hreads.congr _ _ _ _ htail' hR)
  obtain ⟨-, -, curr', hadvance, hR'⟩ := hreads.more ⟨Function.update
    (Function.update m.nodes tail (some ⟨v, some a⟩)) a (some ⟨x, none⟩), m.events⟩ curr x xs
    (hreads.congr _ _ _ _ hnew hR)
  refine ⟨curr', ?_, hR'⟩
  simp only [InputIterator.linkNext, hset, Option.bind_eq_bind, Option.bind_some, hderef, Heap.construct, hadvance]
  rfl

/-- What the constructor leaves: nodes with the values behind those that were built, or nothing of what it built. -/
inductive Appended (m m' : Heap T) (size : UInt64) (built : List (Address × T)) (xs : List T) :
    Outcome ForwardList → Prop
  | returns {l : ForwardList} {c : List (Address × T)} (chain : Chain m'.nodes l.head (built ++ c))
      (values : c.map Prod.snd = xs) (counted : l.nElems = size + UInt64.ofNat xs.length)
      (fresh : ∀ a ∈ addresses c, m.nodes a = none)
      (frame : ∀ a, a ∉ addresses (built ++ c) → m'.nodes a = m.nodes a) : Appended m m' size built xs (.returns l)
  | throws (nodes : ∀ a, m'.nodes a = if a ∈ addresses built then none else m.nodes a) :
      Appended m m' size built xs .throws

lemma Appended.of_linked {x : T} {size : UInt64} {built : List (Address × T)} {m₁ : Heap T} {r : Outcome ForwardList}
    (h : Appended m₁ m' (size + 1) (built ++ [(a, x)]) xs r) (ha : m.nodes a = none)
    (hframe : ∀ b, b ∉ addresses built → b ≠ a → m₁.nodes b = m.nodes b)
    (hfree : ∀ b, m₁.nodes b = none → m.nodes b = none) : Appended m m' size built (x :: xs) r := by
  cases h with
  | @returns l c hchain hvalues hcounted hfresh hsame =>
    rw [List.append_assoc, List.singleton_append] at hchain hsame
    refine .returns hchain ?_ ?_ ?_ fun b hb => ?_
    · rw [List.map_cons, hvalues]
    · rw [hcounted, List.length_cons, UInt64.ofNat_add, UInt64.add_assoc, UInt64.add_comm (UInt64.ofNat xs.length)]
      rfl
    · intro b hb
      rcases List.mem_cons.1 hb with rfl | hb
      · exact ha
      · exact hfree b (hfresh b hb)
    · have hb' := hb
      rw [addresses_append, List.mem_append, not_or, addresses_cons, List.mem_cons, not_or] at hb'
      rw [hsame b hb, hframe b hb'.1 hb'.2.1]
  | throws hnodes =>
    refine .throws fun b => ?_
    rw [hnodes, addresses_append]
    by_cases hb : b ∈ addresses built
    · rw [if_pos hb, if_pos (List.mem_append_left _ hb)]
    · rw [if_neg hb]
      by_cases hba : b = a
      · have hmem : a ∈ addresses built ++ addresses [(a, x)] := List.mem_append_right _ List.mem_cons_self
        rw [hba, ha, if_pos hmem]
      · rw [if_neg, hframe b hb hba]
        exact fun hmem => (List.mem_append.1 hmem).elim hb fun hmem => hba (List.mem_singleton.1 hmem)

variable (alloc) in
lemma appendLoop_spec (hreads : Reads it source R) (hlive : ∀ b ∈ source, m.nodes b ≠ none)
    (hR : R m.nodes curr xs) (hc : Chain m.nodes l.head (cells ++ [(tail, v)]))
    (hsep : ∀ b ∈ addresses (cells ++ [(tail, v)]), b ∉ source) :
    ∃ r m', appendLoop alloc it m l tail curr = some (r, m') ∧ (m.Accounted → m'.Accounted) ∧
      Appended m m' l.nElems (cells ++ [(tail, v)]) xs r := by
  induction xs generalizing m l tail curr cells v with
  | nil =>
    refine ⟨.returns l, m, ?_, id, .returns (c := []) ?_ rfl (UInt64.add_zero _).symm
      (fun b hb => absurd hb List.not_mem_nil) fun _ _ => rfl⟩
    · rw [appendLoop, if_pos (hreads.done m curr hR)]
    · rwa [List.append_nil]
  | cons x xs ih =>
    have hnot : ¬ it.atEnd curr = true := by
      rw [(hreads.more m curr x xs hR).1]
      exact Bool.false_ne_true
    rw [appendLoop, if_neg hnot]
    rcases m.allocate_cases alloc x with ⟨m₁, hm₁, hnodes, hacc⟩ | ⟨a, m₁, hm₁, hnodes, ha, hacc⟩
    · rw [← hnodes] at hc
      obtain ⟨m₂, hm₂, hacc₂, hnodes₂⟩ := clearLoop_spec hc
      refine ⟨.throws, m₂, ?_, fun h => hacc₂ (hacc h), .throws fun b => hnodes₂ b ▸ hnodes ▸ rfl⟩
      split
      · rename_i m₃ hm₃
        obtain rfl := (Prod.mk.inj (hm₃.symm.trans hm₁)).2
        rw [clear, hm₂]
        rfl
      · rename_i b m₃ hm₃
        exact absurd (Prod.mk.inj (hm₃.symm.trans hm₁)).1 (Option.some_ne_none b)
    · have hnodup := hc.nodup
      obtain ⟨r, hseg, rfl, q, htail, rfl⟩ := segment_append.1 hc
      have hne : a ∉ addresses (cells ++ [(tail, v)]) := fun hmem => hc.ne_none hmem ha
      have has : a ∉ source := fun hmem => hlive a hmem ha
      rw [← hnodes] at hR htail ha
      obtain ⟨curr', hlink, hR'⟩ := linkNext_spec hreads hR htail
        (hsep tail (by simp)) has
      have hrelinked := Segment.relink (r := some a) hc hnodup
      have hc' : Chain (Function.update (Function.update m.nodes tail (some ⟨v, some a⟩)) a (some ⟨x, none⟩)) l.head
          (cells ++ [(tail, v)] ++ [(a, x)]) :=
        segment_append.2 ⟨some a, hrelinked.update_of_notMem hne _, rfl, none, Function.update_self _ _ _, rfl⟩
      rw [hnodes] at hlink hR'
      rw [hnodes] at ha htail
      have hframe : ∀ b, b ≠ tail → b ≠ a → Function.update (Function.update m.nodes tail (some ⟨v, some a⟩)) a
          (some ⟨x, none⟩) b = m.nodes b := by
        intro b hbt hba
        rw [Function.update_of_ne hba, Function.update_of_ne hbt]
      have hfree : ∀ b, Function.update (Function.update m.nodes tail (some ⟨v, some a⟩)) a (some ⟨x, none⟩) b = none ↔
          Function.update m.nodes a (some ⟨x, none⟩) b = none := by
        intro b
        by_cases hba : b = a
        · rw [hba, Function.update_self, Function.update_self]
        · rw [Function.update_of_ne hba, Function.update_of_ne hba]
          by_cases hbt : b = tail
          · rw [hbt, Function.update_self, htail]
            exact iff_of_false (Option.some_ne_none _) (Option.some_ne_none _)
          · rw [Function.update_of_ne hbt]
      have hfree' : ∀ b, Function.update (Function.update m.nodes tail (some ⟨v, some a⟩)) a
          (some ⟨x, none⟩) b = none → m.nodes b = none := by
        intro b hb
        by_cases hba : b = a
        · rw [hba]
          exact ha
        · have := (hfree b).1 hb
          rwa [Function.update_of_ne hba] at this
      have hsep' : ∀ b ∈ addresses (cells ++ [(tail, v)] ++ [(a, x)]), b ∉ source := by
        intro b hb hbs
        rw [addresses_append] at hb
        rcases List.mem_append.1 hb with hb | hb
        · exact hsep b hb hbs
        · rw [List.mem_singleton.1 hb] at hbs
          exact has hbs
      obtain ⟨r, m₂, hm₂, hacc₂, happ⟩ := ih (m := ⟨_, m₁.events⟩) (l := { l with nElems := l.nElems + 1 })
        (fun b hb hnone => hlive b hb (hfree' b hnone)) hR' hc' hsep'
      refine ⟨r, m₂, ?_, fun h => hacc₂ (hacc _ h hfree), happ.of_linked ha (fun b hb hba => ?_) hfree'⟩
      · split
        · rename_i m₃ hm₃
          exact absurd (Prod.mk.inj (hm₃.symm.trans hm₁)).1.symm (Option.some_ne_none a)
        · rename_i b m₃ hm₃
          obtain ⟨hab, rfl⟩ := Prod.mk.inj (hm₃.symm.trans hm₁)
          obtain rfl := Option.some.inj hab
          split
          · rename_i hnone
            exact absurd (hnone.symm.trans hlink) (Option.some_ne_none _).symm
          · rename_i m₄ c hm₄
            obtain ⟨rfl, rfl⟩ := Prod.mk.inj (Option.some.inj (hm₄.symm.trans hlink))
            exact hm₂
      · refine hframe b (fun hbt => hb ?_) hba
        rw [hbt, addresses_append]
        exact List.mem_append_right _ List.mem_cons_self

variable (alloc) in
theorem fromIterators_spec (hreads : Reads it source R) (hlive : ∀ b ∈ source, m.nodes b ≠ none)
    (hR : R m.nodes curr xs) :
    ∃ r m', fromIterators alloc it m curr = some (r, m') ∧ (m.Accounted → m'.Accounted) ∧
      Appended m m' 0 [] xs r := by
  cases xs with
  | nil =>
    refine ⟨.returns {}, m, ?_, id, .returns (c := []) rfl rfl rfl (fun b hb => absurd hb List.not_mem_nil)
      fun _ _ => rfl⟩
    rw [fromIterators, if_pos (hreads.done m curr hR)]
  | cons x xs =>
    have hnot : ¬ it.atEnd curr = true := by
      rw [(hreads.more m curr x xs hR).1]
      exact Bool.false_ne_true
    rw [fromIterators, if_neg hnot]
    rcases m.allocate_cases alloc x with ⟨m₁, hm₁, hnodes, hacc⟩ | ⟨a, m₁, hm₁, hnodes, ha, hacc⟩
    · rw [hm₁]
      refine ⟨.throws, m₁, ?_, hacc, .throws fun b => ?_⟩
      · simp only [clear, clearLoop]
        rfl
      · rw [hnodes, addresses_nil, if_neg List.not_mem_nil]
    · rw [hm₁]
      have has : a ∉ source := fun hmem => hlive a hmem ha
      have hkept : ∀ b ∈ source, Function.update m.nodes a (some ⟨x, none⟩) b = m.nodes b := fun b hb =>
        Function.update_of_ne (fun heq : b = a => has (heq ▸ hb)) _ _
      obtain ⟨-, hderef, -⟩ := hreads.more m₁ curr x xs (hnodes ▸ hR)
      obtain ⟨-, -, curr', hadvance, hR'⟩ := hreads.more ⟨Function.update m.nodes a (some ⟨x, none⟩), m₁.events⟩
        curr x xs (hreads.congr _ _ _ _ hkept hR)
      have hc : Chain (Function.update m.nodes a (some ⟨x, none⟩)) (some a) ([] ++ [(a, x)]) :=
        ⟨rfl, none, Function.update_self _ _ _, rfl⟩
      obtain ⟨r, m₂, hm₂, hacc₂, happ⟩ := appendLoop_spec alloc (l := ⟨some a, 1⟩)
        (m := ⟨Function.update m.nodes a (some ⟨x, none⟩), m₁.events⟩) hreads
        (fun b hb hnone => hlive b hb ((hkept b hb).symm.trans hnone)) hR' hc fun b hb => List.mem_singleton.1 hb ▸ has
      refine ⟨r, m₂, ?_, fun h => hacc₂ (hacc _ h fun _ => Iff.rfl), happ.of_linked ha ?_ ?_⟩
      · simp only [hderef, Option.bind_eq_bind, Option.bind_some, Heap.construct, hnodes, hadvance, hm₂]
      · intro b _ hba
        exact Function.update_of_ne hba _ _
      · intro b hb
        by_cases hba : b = a
        · rw [hba]
          exact ha
        · change Function.update m.nodes a _ b = none at hb
          rwa [Function.update_of_ne hba] at hb

/-! ## Nodes that are linked and unlinked -/

lemma setNext_eq {nodes : Address → Option (Node T)} {events : List Event} {q : Option Address}
    (ha : nodes a = some ⟨v, p⟩) :
    (⟨nodes, events⟩ : Heap T).setNext a q = some ⟨Function.update nodes a (some ⟨v, q⟩), events⟩ := by
  simp only [Heap.setNext, ha, Option.map_some]

lemma next_eq (ha : m.nodes a = some ⟨v, p⟩) : m.next (some a) = some p := by
  rw [Heap.next, Option.bind_some, ha]
  rfl

lemma deallocate_eq {nodes : Address → Option (Node T)} {events : List Event} (ha : nodes a = some ⟨v, p⟩) :
    (⟨nodes, events⟩ : Heap T).deallocate a = some ⟨Function.update nodes a none, events ++ [.deallocate a]⟩ := by
  simp only [Heap.deallocate, ha, Option.map_some]

theorem pushFront_spec (alloc : Allocator T) (hc : Chain m.nodes l.head cells) (value : T) :
    ∃ r m', pushFront alloc m l value = some (r, m') ∧ (m.Accounted → m'.Accounted) ∧
      ((r = .throws ∧ m'.nodes = m.nodes) ∨
        ∃ a l', r = .returns l' ∧ l'.nElems = l.nElems + 1 ∧ Replaced m m' l'.head cells ((a, value) :: cells)) := by
  rw [pushFront]
  rcases m.allocate_cases alloc value with ⟨m₁, hm₁, hnodes, hacc⟩ | ⟨a, m₁, hm₁, hnodes, ha, hacc⟩
  · rw [hm₁]
    exact ⟨.throws, m₁, rfl, hacc, Or.inl ⟨rfl, hnodes⟩⟩
  · rw [hm₁]
    have hself : Function.update m.nodes a (some ⟨value, none⟩) a = some ⟨value, none⟩ := Function.update_self _ _ _
    have hne : a ∉ addresses cells := fun hmem => hc.ne_none hmem ha
    have hacc' : m.Accounted → (⟨Function.update m.nodes a (some ⟨value, l.head⟩), m₁.events⟩ : Heap T).Accounted := by
      refine fun h => hacc _ h fun b => ?_
      by_cases hba : b = a
      · rw [hba, Function.update_self, Function.update_self]
        exact iff_of_false (Option.some_ne_none _) (Option.some_ne_none _)
      · rw [Function.update_of_ne hba, Function.update_of_ne hba]
    refine ⟨.returns ⟨some a, l.nElems + 1⟩, ⟨Function.update m.nodes a (some ⟨value, l.head⟩), m₁.events⟩, ?_, hacc',
      Or.inr ⟨a, _, rfl, rfl, hc.push hne, fun b _ hb => ?_, fun b hb => ?_, fun b hb hnb => ?_, hacc'⟩⟩
    · simp only [Heap.construct, hnodes, setNext_eq hself, Option.bind_eq_bind, Option.bind_some,
        Function.update_idem]
      rfl
    · exact Function.update_of_ne (fun hba : b = a => hb (hba ▸ List.mem_cons_self)) _ _
    · rcases List.mem_cons.1 hb with rfl | hb
      · exact Or.inr ha
      · exact Or.inl hb
    · exact absurd (List.mem_cons_of_mem _ hb) hnb

theorem popFront_spec (hc : Chain m.nodes l.head cells) :
    ∃ l' m', popFront m l = some (l', m') ∧ Replaced m m' l'.head cells cells.tail ∧
      l'.nElems = if cells = [] then l.nElems else l.nElems - 1 := by
  cases cells with
  | nil =>
    have hhead : l.head = none := hc
    refine ⟨l, m, by rw [popFront, hhead], ?_, rfl⟩
    rw [hhead]
    exact Replaced.refl rfl
  | cons c cells =>
    have hnodup := hc.nodup
    obtain ⟨a, v⟩ := c
    obtain ⟨hhead, r, ha, hrest⟩ := hc
    rw [addresses_cons, List.nodup_cons] at hnodup
    refine ⟨⟨r, l.nElems - 1⟩, ⟨Function.update m.nodes a none, m.events ++ [.deallocate a]⟩, ?_,
      ⟨hrest.update_of_notMem hnodup.1 none, fun b hb _ => ?_, fun b hb => Or.inl (List.mem_cons_of_mem _ hb),
        fun b hb hnb => ?_, fun h => h.deallocate (by rw [ha]; exact Option.some_ne_none _)⟩, rfl⟩
    · rw [popFront, hhead]
      simp only [next_eq ha, deallocate_eq ha, Option.bind_eq_bind, Option.bind_some]
      rfl
    · exact Function.update_of_ne (fun hba : b = a => hb (hba ▸ List.mem_cons_self)) _ _
    · obtain rfl := (List.mem_cons.1 hb).resolve_right hnb
      exact Function.update_self _ _ _

lemma iteratorAt_eq {q : Option Address} (hseg : Segment m.nodes p cells q) :
    iteratorAt m cells.length p = some q := by
  induction cells generalizing p with
  | nil =>
    obtain rfl : p = q := hseg
    rfl
  | cons c cells ih =>
    obtain ⟨a, v⟩ := c
    obtain ⟨rfl, r, ha, hrest⟩ := hseg
    rw [List.length_cons, iteratorAt, next_eq ha, Option.bind_some]
    exact ih hrest

variable {before rest : List (Address × T)} {b : Address} {w : T}

theorem insertAfter_spec (alloc : Allocator T) (hc : Chain m.nodes l.head (before ++ (a, v) :: rest)) (value : T) :
    ∃ r m', insertAfter alloc m l (some a) value = some (r, m') ∧ (m.Accounted → m'.Accounted) ∧
      ((r = .throws ∧ m'.nodes = m.nodes) ∨
        ∃ b, r = .returns ({ l with nElems := l.nElems + 1 }, some b) ∧
          Replaced m m' l.head (before ++ (a, v) :: rest) (before ++ (a, v) :: (b, value) :: rest)) := by
  rw [insertAfter]
  rcases m.allocate_cases alloc value with ⟨m₁, hm₁, hnodes, hacc⟩ | ⟨b, m₁, hm₁, hnodes, hb, hacc⟩
  · rw [hm₁]
    exact ⟨.throws, m₁, rfl, hacc, Or.inl ⟨rfl, hnodes⟩⟩
  · rw [hm₁]
    have hnodup := hc.nodup
    have hnew : b ∉ addresses (before ++ (a, v) :: rest) := fun hmem => hc.ne_none hmem hb
    obtain ⟨_, hbefore, rfl, r, ha, hrest⟩ := segment_append.1 hc
    rw [addresses_append, addresses_cons, List.nodup_append, List.nodup_cons] at hnodup
    rw [addresses_append, addresses_cons, List.mem_append, List.mem_cons, not_or, not_or] at hnew
    obtain ⟨hnb, hba, hnr⟩ := hnew
    have hab : a ≠ b := fun heq => hba heq.symm
    have hat : Function.update m.nodes b (some ⟨value, none⟩) a = some ⟨v, r⟩ := by
      rw [Function.update_of_ne hab, ha]
    have hnext : (⟨Function.update m.nodes b (some ⟨value, none⟩), m₁.events⟩ : Heap T).next (some a) = some r :=
      next_eq hat
    have hself : Function.update (Function.update m.nodes b (some ⟨value, none⟩)) a (some ⟨v, some b⟩) b =
        some ⟨value, none⟩ := by
      rw [Function.update_of_ne hba, Function.update_self]
    generalize hnodes' : Function.update (Function.update (Function.update m.nodes b (some ⟨value, none⟩)) a
      (some ⟨v, some b⟩)) b (some ⟨value, r⟩) = nodes'
    have hnodesb : nodes' b = some ⟨value, r⟩ := by
      rw [← hnodes', Function.update_self]
    have hnodesa : nodes' a = some ⟨v, some b⟩ := by
      rw [← hnodes', Function.update_of_ne hab, Function.update_self]
    have hother : ∀ d, d ≠ a → d ≠ b → nodes' d = m.nodes d := by
      intro d hda hdb
      rw [← hnodes', Function.update_of_ne hdb, Function.update_of_ne hda, Function.update_of_ne hdb]
    have hbefore' : Segment nodes' l.head before (some a) := hbefore.congr fun d hd => hother d
      (fun heq => hnodup.2.2 d hd a List.mem_cons_self heq) fun heq => hnb (heq ▸ hd)
    have hrest' : Segment nodes' r rest none := hrest.congr fun d hd => hother d
      (fun heq => hnodup.2.1.1 (heq ▸ hd)) fun heq => hnr (heq ▸ hd)
    have hacc' : m.Accounted → (⟨nodes', m₁.events⟩ : Heap T).Accounted := by
      refine fun h => hacc _ h fun d => ?_
      by_cases hdb : d = b
      · rw [hdb, Function.update_self, hnodesb]
        exact iff_of_false (Option.some_ne_none _) (Option.some_ne_none _)
      · rw [Function.update_of_ne hdb]
        by_cases hda : d = a
        · rw [hda, hnodesa, ha]
          exact iff_of_false (Option.some_ne_none _) (Option.some_ne_none _)
        · rw [hother d hda hdb]
    have hsub : ∀ d, d ∈ addresses (before ++ (a, v) :: (b, value) :: rest) ↔
        d = b ∨ d ∈ addresses (before ++ (a, v) :: rest) := by
      intro d
      simp only [addresses_append, addresses_cons, List.mem_append, List.mem_cons]
      tauto
    refine ⟨_, ⟨nodes', m₁.events⟩, ?_, hacc',
      Or.inr ⟨b, rfl, ?_, fun d hd hd' => ?_, fun d hd => ?_, fun d hd hd' => ?_,
      hacc'⟩⟩
    · simp only [Heap.construct, hnodes, hnext, setNext_eq hat, setNext_eq hself, Option.bind_eq_bind,
        Option.bind_some, hnodes']
      rfl
    · exact segment_append.2 ⟨some a, hbefore', rfl, some b, hnodesa, rfl, r, hnodesb, hrest'⟩
    · rw [hsub, not_or] at hd'
      refine hother d (fun heq => hd ?_) hd'.1
      rw [heq, addresses_append]
      exact List.mem_append_right _ List.mem_cons_self
    · rcases (hsub d).1 hd with rfl | hd
      · exact Or.inr hb
      · exact Or.inl hd
    · exact absurd ((hsub d).2 (Or.inr hd)) hd'

/-- `erase_after` of a position that has a node behind it. -/
theorem eraseAfter_spec {d : Address} (hc : Chain m.nodes l.head (before ++ (a, v) :: (d, w) :: rest)) :
    ∃ m' q, eraseAfter m l (some a) = some (({ l with nElems := l.nElems - 1 }, q), m') ∧
      Replaced m m' l.head (before ++ (a, v) :: (d, w) :: rest) (before ++ (a, v) :: rest) := by
  have hnodup := hc.nodup
  obtain ⟨_, hbefore, rfl, _, ha, rfl, r, hd, hrest⟩ := segment_append.1 hc
  simp only [addresses_append, addresses_cons, List.nodup_append, List.nodup_cons, List.mem_cons, not_or] at hnodup
  obtain ⟨-, ⟨⟨had, har⟩, hdr, -⟩, hdisj⟩ := hnodup
  have hda : d ≠ a := fun heq => had heq.symm
  have hat : Function.update m.nodes a (some ⟨v, r⟩) d = some ⟨w, r⟩ := by
    rw [Function.update_of_ne hda, hd]
  generalize hnodes' : Function.update (Function.update m.nodes a (some ⟨v, r⟩)) d none = nodes'
  have hnodesd : nodes' d = none := by
    rw [← hnodes', Function.update_self]
  have hnodesa : nodes' a = some ⟨v, r⟩ := by
    rw [← hnodes', Function.update_of_ne had, Function.update_self]
  have hother : ∀ b, b ≠ a → b ≠ d → nodes' b = m.nodes b := by
    intro b hba hbd
    rw [← hnodes', Function.update_of_ne hbd, Function.update_of_ne hba]
  have hbefore' : Segment nodes' l.head before (some a) := hbefore.congr fun b hb => hother b
    (fun heq => hdisj b hb a (Or.inl rfl) heq) fun heq => hdisj b hb d (Or.inr (Or.inl rfl)) heq
  have hrest' : Segment nodes' r rest none := hrest.congr fun b hb => hother b
    (fun heq => har (heq ▸ hb)) fun heq => hdr (heq ▸ hb)
  have hset : (⟨Function.update m.nodes a (some ⟨v, r⟩), m.events⟩ : Heap T).nodes d ≠ none := by
    change Function.update m.nodes a (some ⟨v, r⟩) d ≠ none
    rw [hat]
    exact Option.some_ne_none _
  have hacc : m.Accounted → (⟨nodes', m.events ++ [.deallocate d]⟩ : Heap T).Accounted := by
    intro h
    have hset' : (⟨Function.update m.nodes a (some ⟨v, r⟩), m.events⟩ : Heap T).Accounted := by
      refine h.of_nodes (fun b => ?_) rfl
      change Function.update m.nodes a (some ⟨v, r⟩) b = none ↔ _
      by_cases hba : b = a
      · rw [hba, Function.update_self, ha]
        exact iff_of_false (Option.some_ne_none _) (Option.some_ne_none _)
      · rw [Function.update_of_ne hba]
    rw [← hnodes']
    exact hset'.deallocate hset
  have hsub : ∀ b, b ∈ addresses (before ++ (a, v) :: (d, w) :: rest) ↔
      b = d ∨ b ∈ addresses (before ++ (a, v) :: rest) := by
    intro b
    simp only [addresses_append, addresses_cons, List.mem_append, List.mem_cons]
    tauto
  refine ⟨⟨nodes', m.events ++ [.deallocate d]⟩, r, ?_, ?_, fun b hb hb' => ?_,
    fun b hb => Or.inl ((hsub b).2 (Or.inr hb)),
    fun b hb hb' => ?_, hacc⟩
  · simp only [eraseAfter, next_eq ha, next_eq hd, setNext_eq ha, deallocate_eq hat, Option.bind_eq_bind,
      Option.bind_some, hnodes']
    rfl
  · exact segment_append.2 ⟨some a, hbefore', rfl, r, hnodesa, hrest'⟩
  · rw [hsub, not_or] at hb
    refine hother b (fun heq => hb' ?_) hb.1
    rw [heq, addresses_append]
    exact List.mem_append_right _ List.mem_cons_self
  · obtain rfl := ((hsub b).1 hb).resolve_right hb'
    exact hnodesd

/-- `erase_after` of a position that has no node behind it. -/
lemma eraseAfter_of_last (ha : ∀ a, p = some a → ∃ v, m.nodes a = some ⟨v, none⟩) :
    eraseAfter m l p = some ((l, none), m) := by
  cases p with
  | none => rfl
  | some a =>
    obtain ⟨v, hv⟩ := ha a rfl
    simp only [eraseAfter, next_eq hv, Option.bind_eq_bind, Option.bind_some]
    rfl

end ForwardList

end CppExperiments.Memory

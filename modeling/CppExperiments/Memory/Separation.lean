import CppExperiments.Memory.Ownership

/-!
# Separate lists

Any number of lists beside the lists that they stand for. Every operation that is called on lists and positions that
there are ends without a fault, and leaves the lists with nodes of their own.
-/

namespace CppExperiments.Memory

open Linked

variable {T ι : Type} {alloc : Allocator T} {m m' : Heap T} {i j other : ι} {l : ForwardList} {pos : Nat} {value : T}
  {xs values : List T}

/-- What the lists stand for, with `none` for one that is not constructed. -/
abbrev Contents (ι T : Type) := ι → Option (List T)

namespace Op

/-- Lists are constructed once and used while they are there; positions are in the list, and the one behind the last
element is `end()`. -/
def Legal (c : Contents ι T) : Op ι T → Prop
  | .construct i | .constructFrom i _ => c i = none
  | .copyConstruct i other | .moveConstruct i other => c i = none ∧ c other ≠ none
  | .destroy i | .pushFront i _ | .popFront i | .clear i => c i ≠ none
  | .insertAfter i pos _ => ∃ xs, c i = some xs ∧ pos < xs.length
  | .eraseAfter i pos => ∃ xs, c i = some xs ∧ pos ≤ xs.length
  | .copyAssign i other | .moveAssign i other | .swap i other => c i ≠ none ∧ c other ≠ none

variable [DecidableEq ι]

/-- What an operation does that does not throw. -/
def apply (c : Contents ι T) : Op ι T → Contents ι T
  | .construct i | .clear i => Function.update c i (some [])
  | .constructFrom i values => Function.update c i (some values)
  | .copyConstruct i other | .copyAssign i other => Function.update c i (c other)
  | .moveConstruct i other | .moveAssign i other => Function.update (Function.update c other (some [])) i (c other)
  | .destroy i => Function.update c i none
  | .pushFront i value => Function.update c i ((c i).map (value :: ·))
  | .popFront i => Function.update c i ((c i).map List.tail)
  | .insertAfter i pos value => Function.update c i ((c i).map (·.insertIdx (pos + 1) value))
  | .eraseAfter i pos => Function.update c i ((c i).map (·.eraseIdx (pos + 1)))
  | .swap i j => Function.update (Function.update c i (c j)) j (c i)

/-- An operation that throws does nothing. -/
def after (c : Contents ι T) (op : Op ι T) : Outcome Unit → Contents ι T
  | .returns _ => op.apply c
  | .throws => c

end Op

def State.heads (s : State ι T) (i : ι) : Option Address := (s.lists i).bind (·.head)

/-- Lists with these cells stand for the contents. -/
structure Represents (s : State ι T) (c : Contents ι T) (cells : ι → List (Address × T)) : Prop where
  owned : Owned s.heap.nodes s.heads cells
  sizes : ∀ i, (s.lists i).map (·.nElems) = (c i).map fun xs => UInt64.ofNat xs.length
  values : ∀ i, (cells i).map Prod.snd = (c i).getD []
  accounted : s.heap.Accounted

namespace Represents

variable {s : State ι T} {c : Contents ι T} {cells : ι → List (Address × T)} {new : List (Address × T)}

lemma list (h : Represents s c cells) (hc : c i = some xs) :
    ∃ l, s.lists i = some l ∧ l.nElems = UInt64.ofNat xs.length ∧ Chain s.heap.nodes l.head (cells i) ∧
      (cells i).map Prod.snd = xs := by
  have hsize := h.sizes i
  have hvalues := h.values i
  rw [hc] at hsize hvalues
  obtain ⟨l, hl, hcount⟩ := Option.map_eq_some_iff.1 hsize
  have hchain := h.owned.chain i
  rw [State.heads, hl] at hchain
  exact ⟨l, hl, hcount, hchain, hvalues⟩

lemma unconstructed (h : Represents s c cells) (hc : c i = none) : s.lists i = none ∧ cells i = [] := by
  have hsize := h.sizes i
  have hvalues := h.values i
  rw [hc] at hsize hvalues
  exact ⟨Option.map_eq_none_iff.1 hsize, List.map_eq_nil_iff.1 hvalues⟩

lemma unchanged (h : Represents s c cells) (hnodes : m'.nodes = s.heap.nodes)
    (hacc : s.heap.Accounted → m'.Accounted) : Represents { s with heap := m' } c cells :=
  ⟨hnodes.symm ▸ h.owned, h.sizes, h.values, hacc h.accounted⟩

variable [DecidableEq ι]

lemma update (h : Represents s c cells) (l : Option ForwardList) (ys : Option (List T))
    (hrep : Replaced s.heap m' (l.bind (·.head)) (cells i) new)
    (hsize : l.map (·.nElems) = ys.map fun xs => UInt64.ofNat xs.length) (hvalues : new.map Prod.snd = ys.getD []) :
    Represents (({ s with heap := m' } : State ι T).set i l) (Function.update c i ys)
      (Function.update cells i new) := by
  have hlists : (({ s with heap := m' } : State ι T).set i l).lists = Function.update s.lists i l := rfl
  have hheads : (({ s with heap := m' } : State ι T).set i l).heads = Function.update s.heads i (l.bind (·.head)) := by
    funext j
    by_cases hj : j = i
    · rw [hj, Function.update_self, State.heads, hlists, Function.update_self]
    · rw [Function.update_of_ne hj, State.heads, hlists, Function.update_of_ne hj, State.heads]
  refine ⟨?_, fun j => ?_, fun j => ?_, hrep.accounted h.accounted⟩
  · rw [hheads]
    exact h.owned.update hrep.chain hrep.frame hrep.fresh hrep.gone
  · by_cases hj : j = i
    · rw [hj, hlists, Function.update_self, Function.update_self, hsize]
    · rw [hlists, Function.update_of_ne hj, Function.update_of_ne hj]
      exact h.sizes j
  · by_cases hj : j = i
    · rw [hj, Function.update_self, Function.update_self, hvalues]
    · rw [Function.update_of_ne hj, Function.update_of_ne hj]
      exact h.values j

omit [DecidableEq ι] in
lemma permute (h : Represents s c cells) (σ : Equiv.Perm ι) :
    Represents { s with lists := s.lists ∘ σ } (c ∘ σ) (cells ∘ σ) :=
  ⟨h.owned.permute σ, fun i => h.sizes (σ i), fun i => h.values (σ i), h.accounted⟩

/-- Two lists change places. -/
lemma swap (h : Represents s c cells) (i j : ι) :
    Represents ((s.set i (s.lists j)).set j (s.lists i)) (Function.update (Function.update c i (c j)) j (c i))
      (cells ∘ Equiv.swap j i) := by
  have := h.permute (Equiv.swap j i)
  rw [Equiv.comp_swap_eq_update, Equiv.comp_swap_eq_update] at this
  exact this

end Represents

/-! ## Every operation -/

/-- The operation does not fault, and does to the lists what it does to the contents, or nothing where it throws. -/
def Simulated [DecidableEq ι] (alloc : Allocator T) (s : State ι T) (c : Contents ι T) (op : Op ι T) : Prop :=
  ∃ s' r cells, s.step alloc op = some (s', r) ∧ Represents s' (op.after c r) cells

section

variable [DecidableEq ι] {s : State ι T} {c : Contents ι T} {cells : ι → List (Address × T)}

omit [DecidableEq ι] in
lemma State.unconstructed_eq (hi : s.lists i = none) : s.unconstructed i = some () := by
  rw [State.unconstructed, hi]
  rfl

lemma simulated_construct (h : Represents s c cells) (hi : c i = none) : Simulated alloc s c (.construct i) := by
  obtain ⟨hnone, hcells⟩ := h.unconstructed hi
  have hrep : Replaced s.heap s.heap none (cells i) [] := by
    rw [hcells]
    exact Replaced.refl rfl
  refine ⟨_, .returns (), _, ?_, h.update (some {}) (some []) hrep rfl rfl⟩
  simp only [State.step, State.unconstructed_eq hnone]
  rfl

/-- What a constructor leaves is a new list, or what there was before. -/
lemma Represents.appended {r : Outcome ForwardList} (h : Represents s c cells)
    (hacc : s.heap.Accounted → m'.Accounted) (happ : ForwardList.Appended s.heap m' 0 [] xs r) (hcells : cells i = []) :
    ∃ cells, Represents (s.finish i (r, m')).1
      (match (s.finish i (r, m')).2 with | .returns _ => Function.update c i (some xs) | .throws => c) cells := by
  cases happ with
  | @returns l new hchain hvalues hcounted hfresh hframe =>
    refine ⟨_, h.update (some l) (some xs) ?_ ?_ hvalues⟩
    · rw [hcells]
      exact ⟨hchain, fun a _ ha => hframe a ha, fun a ha => Or.inr (hfresh a ha),
        fun a ha => absurd ha List.not_mem_nil, hacc⟩
    · rw [Option.map_some, hcounted, UInt64.zero_add]
      rfl
  | throws hnodes =>
    refine ⟨_, h.unchanged (funext fun a => ?_) hacc⟩
    rw [hnodes, addresses_nil, if_neg List.not_mem_nil]

lemma simulated_constructFrom (h : Represents s c cells) (hi : c i = none) :
    Simulated alloc s c (.constructFrom i values) := by
  obtain ⟨hnone, hcells⟩ := h.unconstructed hi
  obtain ⟨r, m', hm', hacc, happ⟩ := ForwardList.fromIterators_spec alloc (m := s.heap) reads_values
    (fun b hb => absurd hb List.not_mem_nil) (show values = values from rfl)
  obtain ⟨cells', h'⟩ := h.appended (i := i) hacc happ hcells
  refine ⟨_, _, cells', ?_, h'⟩
  simp only [State.step, State.unconstructed_eq hnone, hm', Option.bind_eq_bind, Option.bind_some]
  rfl

omit [DecidableEq ι] in
variable (alloc) in
lemma Represents.copy (h : Represents s c cells) (hother : c other = some xs) :
    ∃ l r m', s.lists other = some l ∧ ForwardList.copy alloc s.heap l = some (r, m') ∧
      (s.heap.Accounted → m'.Accounted) ∧ ForwardList.Appended s.heap m' 0 [] xs r := by
  obtain ⟨l, hl, -, hchain, hvalues⟩ := h.list hother
  obtain ⟨r, m', hm', hacc, happ⟩ := ForwardList.fromIterators_spec alloc (reads_list (addresses (cells other)))
    (fun b hb => hchain.ne_none hb) ⟨cells other, hchain, List.Subset.refl _, hvalues⟩
  exact ⟨l, r, m', hl, hm', hacc, happ⟩

lemma simulated_copyConstruct (h : Represents s c cells) (hi : c i = none) (hother : c other = some xs) :
    Simulated alloc s c (.copyConstruct i other) := by
  obtain ⟨hnone, hcells⟩ := h.unconstructed hi
  obtain ⟨l, r, m', hl, hm', hacc, happ⟩ := h.copy alloc hother
  obtain ⟨cells', h'⟩ := h.appended (i := i) hacc happ hcells
  rw [← hother] at h'
  refine ⟨_, _, cells', ?_, h'⟩
  simp only [State.step, State.unconstructed_eq hnone, hl, hm', Option.bind_eq_bind, Option.bind_some]
  rfl

/-- A list without nodes takes those of another list, which is left with none. -/
lemma Represents.moved (h : Represents s c cells) (hne : other ≠ i) (hl : s.lists other = some l)
    (hrep : Replaced s.heap m' none (cells i) []) :
    ∃ cells, Represents ((({ s with heap := m' } : State ι T).set other (some {})).set i (some l))
      (Function.update (Function.update c other (some [])) i (c other)) cells := by
  have hswap := (h.update (some {}) (some []) hrep rfl rfl).swap other i
  have hcomm : ∀ {β : Type} (f : ι → β) (x y : β),
    Function.update (Function.update (Function.update f i x) other x) i y =
      Function.update (Function.update f other x) i y := by
    intro β f x y
    rw [Function.update_comm hne.symm, Function.update_idem]
  refine ⟨Function.update cells i [] ∘ Equiv.swap i other, ?_⟩
  simp only [State.set, Function.update_self, Function.update_of_ne hne, hl, hcomm] at hswap ⊢
  exact hswap

lemma simulated_moveConstruct (h : Represents s c cells) (hi : c i = none) (hother : c other = some xs) :
    Simulated alloc s c (.moveConstruct i other) := by
  obtain ⟨hnone, hcells⟩ := h.unconstructed hi
  obtain ⟨l, hl, -⟩ := h.list hother
  have hne : other ≠ i := fun heq => Option.some_ne_none xs (hother.symm.trans (heq ▸ hi))
  have hrep : Replaced s.heap s.heap none (cells i) [] := by
    rw [hcells]
    exact Replaced.refl rfl
  obtain ⟨cells', h'⟩ := h.moved hne hl hrep
  refine ⟨_, .returns (), cells', ?_, h'⟩
  simp only [State.step, State.unconstructed_eq hnone, hl, Option.bind_eq_bind, Option.bind_some]
  rfl

lemma simulated_destroy (h : Represents s c cells) (hi : c i = some xs) : Simulated alloc s c (.destroy i) := by
  obtain ⟨l, hl, -, hchain, -⟩ := h.list hi
  obtain ⟨m', hm', hrep, -⟩ := ForwardList.clear_spec hchain
  refine ⟨_, .returns (), _, ?_, h.update none none hrep rfl rfl⟩
  simp only [State.step, hl, hm', Option.bind_eq_bind, Option.bind_some]
  rfl

lemma simulated_clear (h : Represents s c cells) (hi : c i = some xs) : Simulated alloc s c (.clear i) := by
  obtain ⟨l, hl, -, hchain, -⟩ := h.list hi
  obtain ⟨m', hm', hrep, -⟩ := ForwardList.clear_spec hchain
  refine ⟨_, .returns (), _, ?_, h.update (some {}) (some []) hrep rfl rfl⟩
  simp only [State.step, hl, hm', Option.bind_eq_bind, Option.bind_some]
  rfl

lemma ofNat_succ (n : Nat) : UInt64.ofNat n + 1 = UInt64.ofNat (n + 1) := by
  rw [UInt64.ofNat_add]
  rfl

lemma simulated_pushFront (h : Represents s c cells) (hi : c i = some xs) :
    Simulated alloc s c (.pushFront i value) := by
  obtain ⟨l, hl, hcount, hchain, hvalues⟩ := h.list hi
  obtain ⟨r, m', hm', hacc, ⟨rfl, hnodes⟩ | ⟨a, l', rfl, hcount', hrep⟩⟩ :=
    ForwardList.pushFront_spec alloc hchain value
  · refine ⟨_, .throws, _, ?_, h.unchanged hnodes hacc⟩
    simp only [State.step, hl, hm', Option.bind_eq_bind, Option.bind_some]
    rfl
  · refine ⟨_, .returns (), _, ?_, h.update (some l') ((c i).map (value :: ·)) hrep ?_ ?_⟩
    · simp only [State.step, hl, hm', Option.bind_eq_bind, Option.bind_some]
      rfl
    · rw [hi, Option.map_some, hcount', hcount, ofNat_succ]
      rfl
    · rw [hi, List.map_cons, hvalues]
      rfl

lemma ofNat_pred (n : Nat) : UInt64.ofNat (n + 1) - 1 = UInt64.ofNat n := by
  rw [← ofNat_succ, UInt64.add_sub_cancel]

lemma simulated_popFront (h : Represents s c cells) (hi : c i = some xs) : Simulated alloc s c (.popFront i) := by
  obtain ⟨l, hl, hcount, hchain, hvalues⟩ := h.list hi
  obtain ⟨l', m', hm', hrep, hcount'⟩ := ForwardList.popFront_spec hchain
  refine ⟨_, .returns (), _, ?_, h.update (some l') ((c i).map List.tail) hrep ?_ ?_⟩
  · simp only [State.step, hl, hm', Option.bind_eq_bind, Option.bind_some]
    rfl
  · rw [hi, Option.map_some, hcount', hcount, ← hvalues]
    cases cells i with
    | nil => rfl
    | cons c cells =>
      rw [if_neg (List.cons_ne_nil _ _), List.map_cons, List.length_cons, ofNat_pred]
      rfl
  · rw [hi, ← hvalues, List.map_tail]
    rfl

lemma exists_split {β : Type} {l : List β} (hpos : pos < l.length) :
    ∃ before x rest, l = before ++ x :: rest ∧ before.length = pos := by
  refine ⟨l.take pos, l[pos], l.drop (pos + 1), ?_, List.length_take_of_le hpos.le⟩
  rw [← List.drop_eq_getElem_cons hpos, List.take_append_drop]

lemma insertIdx_append (before rest : List T) (v value : T) :
    (before ++ v :: rest).insertIdx (before.length + 1) value = before ++ v :: value :: rest := by
  induction before with
  | nil => rfl
  | cons x before ih =>
    rw [List.cons_append, List.length_cons, List.insertIdx_succ_cons, ih, List.cons_append]

lemma eraseIdx_append (before rest : List T) (v w : T) :
    (before ++ v :: w :: rest).eraseIdx (before.length + 1) = before ++ v :: rest := by
  induction before with
  | nil => rfl
  | cons x before ih =>
    rw [List.cons_append, List.length_cons, List.eraseIdx_cons_succ, ih, List.cons_append]

lemma simulated_insertAfter (h : Represents s c cells) (hi : c i = some xs) (hpos : pos < xs.length) :
    Simulated alloc s c (.insertAfter i pos value) := by
  obtain ⟨l, hl, hcount, hchain, hvalues⟩ := h.list hi
  rw [← hvalues, List.length_map] at hpos
  obtain ⟨before, ⟨a, v⟩, rest, hcells, hbefore⟩ := exists_split hpos
  rw [hcells] at hchain hvalues
  have hat : iteratorAt s.heap pos l.head = some (some a) := by
    obtain ⟨_, hseg, rfl, -⟩ := segment_append.1 hchain
    rw [← hbefore]
    exact ForwardList.iteratorAt_eq hseg
  obtain ⟨r, m', hm', hacc, ⟨rfl, hnodes⟩ | ⟨b, rfl, hrep⟩⟩ := ForwardList.insertAfter_spec alloc hchain value
  · refine ⟨_, .throws, _, ?_, h.unchanged hnodes hacc⟩
    simp only [State.step, hl, hat, hm', Option.bind_eq_bind, Option.bind_some]
    rfl
  · rw [← hcells] at hrep
    refine ⟨_, .returns (), _, ?_, h.update (some { l with nElems := l.nElems + 1 })
      ((c i).map (·.insertIdx (pos + 1) value)) hrep ?_ ?_⟩
    · simp only [State.step, hl, hat, hm', Option.bind_eq_bind, Option.bind_some]
      rfl
    · have hlen : (before.map Prod.snd).length = before.length := List.length_map _
      rw [hi, Option.map_some, Option.map_some, Option.map_some, hcount, ← hvalues, List.map_append, List.map_cons,
        ← hbefore, ← hlen, insertIdx_append, ofNat_succ]
      simp only [List.length_append, List.length_cons, Nat.add_assoc]
    · have hlen : (before.map Prod.snd).length = before.length := List.length_map _
      rw [hi, Option.map_some, Option.getD_some, ← hvalues, List.map_append, List.map_append, List.map_cons,
        List.map_cons, List.map_cons, ← hbefore, ← hlen, insertIdx_append]

lemma simulated_eraseAfter (h : Represents s c cells) (hi : c i = some xs) (hpos : pos ≤ xs.length) :
    Simulated alloc s c (.eraseAfter i pos) := by
  obtain ⟨l, hl, hcount, hchain, hvalues⟩ := h.list hi
  by_cases hlast : xs.length ≤ pos + 1
  · have hat : ∃ p, iteratorAt s.heap pos l.head = some p ∧ ∀ a, p = some a → ∃ v, s.heap.nodes a = some ⟨v, none⟩ := by
      rw [← hvalues, List.length_map] at hpos hlast
      by_cases heq : pos = (cells i).length
      · refine ⟨none, ?_, fun a ha => absurd ha.symm (Option.some_ne_none a)⟩
        rw [heq]
        exact ForwardList.iteratorAt_eq hchain
      · obtain ⟨before, ⟨a, v⟩, rest, hcells, hbefore⟩ := exists_split (lt_of_le_of_ne hpos heq)
        rw [hcells, List.length_append, List.length_cons] at hlast
        obtain rfl : rest = [] := List.length_eq_zero_iff.1 (by omega)
        rw [hcells] at hchain
        obtain ⟨_, hseg, rfl, q, ha, rfl⟩ := segment_append.1 hchain
        refine ⟨some a, ?_, fun b hb => ⟨v, Option.some.inj hb ▸ ha⟩⟩
        rw [← hbefore]
        exact ForwardList.iteratorAt_eq hseg
    obtain ⟨p, hp, hlast'⟩ := hat
    have hsame : (Op.eraseAfter i pos).apply c = c := by
      rw [Op.apply, hi, Option.map_some, List.eraseIdx_of_length_le hlast, ← hi, Function.update_eq_self]
    refine ⟨_, .returns (), cells, ?_, hsame.symm ▸ h⟩
    simp only [State.step, hl, hp, ForwardList.eraseAfter_of_last hlast', Option.bind_eq_bind, Option.bind_some]
    rw [State.finish, State.set, ← hl, Function.update_eq_self]
    rfl
  · rw [← hvalues, List.length_map, not_le] at hlast
    obtain ⟨before, ⟨a, v⟩, rest, hcells, hbefore⟩ := exists_split (Nat.lt_of_succ_lt hlast)
    rw [hcells, List.length_append, List.length_cons] at hlast
    obtain ⟨⟨d, w⟩, rest, rfl⟩ := List.exists_cons_of_length_pos (l := rest) (by omega)
    rw [hcells] at hchain hvalues
    have hat : iteratorAt s.heap pos l.head = some (some a) := by
      obtain ⟨_, hseg, rfl, -⟩ := segment_append.1 hchain
      rw [← hbefore]
      exact ForwardList.iteratorAt_eq hseg
    obtain ⟨m', q, hm', hrep⟩ := ForwardList.eraseAfter_spec hchain
    have hlen : (before.map Prod.snd).length = before.length := List.length_map _
    rw [← hcells] at hrep
    refine ⟨_, .returns (), _, ?_, h.update (some { l with nElems := l.nElems - 1 })
      ((c i).map (·.eraseIdx (pos + 1))) hrep ?_ ?_⟩
    · simp only [State.step, hl, hat, hm', Option.bind_eq_bind, Option.bind_some]
      rfl
    · rw [hi, Option.map_some, Option.map_some, Option.map_some, hcount, ← hvalues, List.map_append, List.map_cons,
        List.map_cons, ← hbefore, ← hlen, eraseIdx_append]
      simp only [List.length_append, List.length_cons, ← Nat.add_assoc, ofNat_pred]
    · rw [hi, Option.map_some, Option.getD_some, ← hvalues, List.map_append, List.map_append, List.map_cons,
        List.map_cons, List.map_cons, ← hbefore, ← hlen, eraseIdx_append]

lemma simulated_copyAssign {ys : List T} (h : Represents s c cells) (hi : c i = some ys) (hother : c other = some xs) :
    Simulated alloc s c (.copyAssign i other) := by
  obtain ⟨old, hold, -, hchain, -⟩ := h.list hi
  obtain ⟨l, r, m', hl, hm', hacc, happ⟩ := h.copy alloc hother
  cases happ with
  | throws hnodes =>
    have hsame : m'.nodes = s.heap.nodes := funext fun a => by
      rw [hnodes, addresses_nil, if_neg List.not_mem_nil]
    refine ⟨_, .throws, cells, ?_, h.unchanged hsame hacc⟩
    simp only [State.step, hold, hl, hm', Option.bind_eq_bind, Option.bind_some]
    rfl
  | @returns temp new hnew hvalues hcounted hfresh hframe =>
    have hkept : ∀ a ∈ addresses (cells i), a ∉ addresses new := fun a ha hmem =>
      hchain.ne_none ha (hfresh a hmem)
    have hchain' : Chain m'.nodes old.head (cells i) := hchain.congr fun a ha => hframe a (hkept a ha)
    obtain ⟨m₂, hm₂, hclear, hframe₂⟩ := ForwardList.clear_spec hchain'
    have hrep : Replaced s.heap m₂ temp.head (cells i) new :=
      ⟨hnew.congr fun a ha => hframe₂ a fun hmem => hkept a hmem ha,
        fun a ha ha' => (hframe₂ a ha).trans (hframe a ha'), fun a ha => Or.inr (hfresh a ha),
        fun a ha _ => hclear.gone a ha List.not_mem_nil, fun hs => hclear.accounted (hacc hs)⟩
    refine ⟨_, .returns (), _, ?_, h.update (some temp) (c other) hrep ?_ ?_⟩
    · simp only [State.step, hold, hl, hm', hm₂, Option.bind_eq_bind, Option.bind_some]
      rfl
    · rw [hother, Option.map_some, hcounted, UInt64.zero_add]
      rfl
    · rw [hother, hvalues]
      rfl

lemma simulated_moveAssign {ys : List T} (h : Represents s c cells) (hi : c i = some ys) (hother : c other = some xs) :
    Simulated alloc s c (.moveAssign i other) := by
  obtain ⟨old, hold, -, hchain, -⟩ := h.list hi
  obtain ⟨l, hl, -⟩ := h.list hother
  by_cases hne : other = i
  · -- the list takes its own nodes out and back in
    subst hne
    have hsame : (Op.moveAssign other other).apply c = c := by
      rw [Op.apply, Function.update_idem, Function.update_eq_self]
    refine ⟨_, .returns (), cells, ?_, hsame.symm ▸ h⟩
    have hback : Function.update s.lists other (some l) = s.lists := by
      rw [← hl, Function.update_eq_self]
    simp only [State.step, hl, ForwardList.move, State.set, Function.update_self, ForwardList.clear,
      ForwardList.clearLoop, State.finish, Function.update_idem, hback, Option.bind_eq_bind, Option.bind_some,
      Option.map_some]
    rfl
  · obtain ⟨m', hm', hrep, -⟩ := ForwardList.clear_spec hchain
    obtain ⟨cells', h'⟩ := h.moved hne hl hrep
    refine ⟨_, .returns (), cells', ?_, h'⟩
    have hold' : (s.set other (some {})).lists i = some old :=
      (Function.update_of_ne (Ne.symm hne) _ _).trans hold
    have hheap : (s.set other (some {})).heap = s.heap := rfl
    simp only [State.step, hl, ForwardList.move, hold', hheap, hm', Option.bind_eq_bind, Option.bind_some]
    rfl

lemma simulated_swap {ys : List T} (h : Represents s c cells) (hi : c i = some ys) (hj : c j = some xs) :
    Simulated alloc s c (.swap i j) := by
  obtain ⟨l₁, hl₁, -⟩ := h.list hi
  obtain ⟨l₂, hl₂, -⟩ := h.list hj
  refine ⟨_, .returns (), _, ?_, h.swap i j⟩
  simp only [State.step, hl₁, hl₂, Option.bind_eq_bind, Option.bind_some]
  rfl

/-- An operation that is called on lists and positions that there are. -/
theorem simulated (alloc : Allocator T) {op : Op ι T} (h : Represents s c cells) (hlegal : op.Legal c) :
    Simulated alloc s c op := by
  cases op with
  | construct i => exact simulated_construct h hlegal
  | constructFrom i values => exact simulated_constructFrom h hlegal
  | copyConstruct i other =>
    obtain ⟨xs, hxs⟩ := Option.ne_none_iff_exists'.1 hlegal.2
    exact simulated_copyConstruct h hlegal.1 hxs
  | moveConstruct i other =>
    obtain ⟨xs, hxs⟩ := Option.ne_none_iff_exists'.1 hlegal.2
    exact simulated_moveConstruct h hlegal.1 hxs
  | destroy i =>
    obtain ⟨xs, hxs⟩ := Option.ne_none_iff_exists'.1 hlegal
    exact simulated_destroy h hxs
  | pushFront i value =>
    obtain ⟨xs, hxs⟩ := Option.ne_none_iff_exists'.1 hlegal
    exact simulated_pushFront h hxs
  | popFront i =>
    obtain ⟨xs, hxs⟩ := Option.ne_none_iff_exists'.1 hlegal
    exact simulated_popFront h hxs
  | insertAfter i pos value =>
    obtain ⟨xs, hxs, hpos⟩ := hlegal
    exact simulated_insertAfter h hxs hpos
  | eraseAfter i pos =>
    obtain ⟨xs, hxs, hpos⟩ := hlegal
    exact simulated_eraseAfter h hxs hpos
  | clear i =>
    obtain ⟨xs, hxs⟩ := Option.ne_none_iff_exists'.1 hlegal
    exact simulated_clear h hxs
  | copyAssign i other =>
    obtain ⟨ys, hys⟩ := Option.ne_none_iff_exists'.1 hlegal.1
    obtain ⟨xs, hxs⟩ := Option.ne_none_iff_exists'.1 hlegal.2
    exact simulated_copyAssign h hys hxs
  | moveAssign i other =>
    obtain ⟨ys, hys⟩ := Option.ne_none_iff_exists'.1 hlegal.1
    obtain ⟨xs, hxs⟩ := Option.ne_none_iff_exists'.1 hlegal.2
    exact simulated_moveAssign h hys hxs
  | swap i j =>
    obtain ⟨ys, hys⟩ := Option.ne_none_iff_exists'.1 hlegal.1
    obtain ⟨xs, hxs⟩ := Option.ne_none_iff_exists'.1 hlegal.2
    exact simulated_swap h hys hxs

end

/-! ## Runs -/

section

variable [DecidableEq ι] {ops : List (Op ι T)} {s : State ι T} {c : Contents ι T}

/-- The operations were called one after the other; what one does that throws is as if it had not been called. -/
inductive Runs (alloc : Allocator T) : List (Op ι T) → State ι T → Contents ι T → Prop
  | nil : Runs alloc [] {} fun _ => none
  | snoc {ops : List (Op ι T)} {s s' : State ι T} {c : Contents ι T} {r : Outcome Unit} (op : Op ι T)
      (run : Runs alloc ops s c) (legal : op.Legal c) (step : s.step alloc op = some (s', r)) :
      Runs alloc (ops ++ [op]) s' (op.after c r)

omit [DecidableEq ι] in
lemma represents_empty : Represents ({} : State ι T) (fun _ => none) fun _ => [] :=
  ⟨Owned.empty, fun _ => rfl, fun _ => rfl, Heap.accounted_empty⟩

theorem Runs.represents (h : Runs alloc ops s c) : ∃ cells, Represents s c cells := by
  induction h with
  | nil => exact ⟨_, represents_empty⟩
  | snoc op _ hlegal hstep ih =>
    obtain ⟨cells, hcells⟩ := ih
    obtain ⟨s', r, cells', hstep', h'⟩ := simulated alloc hcells hlegal
    obtain ⟨rfl, rfl⟩ := Prod.mk.inj (Option.some.inj (hstep.symm.trans hstep'))
    exact ⟨cells', h'⟩

omit [DecidableEq ι] in
/-- There are not as many addresses as a counter could count, so that no counter wraps. -/
lemma Represents.toNat_nElems {cells : ι → List (Address × T)} (h : Represents s c cells) (hl : s.lists i = some l) :
    l.nElems.toNat = (cells i).length ∧ c i = some ((cells i).map Prod.snd) := by
  have hne : c i ≠ none := fun hnone => Option.some_ne_none l (hl.symm.trans (h.unconstructed hnone).1)
  obtain ⟨xs, hxs⟩ := Option.ne_none_iff_exists'.1 hne
  obtain ⟨l', hl', hcount, hchain, hvalues⟩ := h.list hxs
  obtain rfl := Option.some.inj (hl.symm.trans hl')
  refine ⟨?_, by rw [hvalues, hxs]⟩
  have hbound := hchain.nodup.length_le_card
  rw [addresses, List.length_map, Fintype.card_fin] at hbound
  rw [hcount, ← hvalues, List.length_map, UInt64.toNat_ofNat_of_lt']
  exact lt_of_le_of_lt hbound (Nat.sub_lt (Nat.two_pow_pos 64) Nat.one_pos)

/-- After any run the lists have chains of nodes that end, each without a node of another and as long as it counts, with
what a list has there that the same operations were done to. No further operation faults. When the lists are all
empty, then at every address what was allocated was freed, once and before the next allocation. -/
theorem runs_separate (hrun : Runs alloc ops s c) :
    (∃ cells : ι → List (Address × T),
      (∀ i, Chain s.heap.nodes (s.heads i) (cells i)) ∧ (∀ i, (addresses (cells i)).Nodup) ∧
      (∀ i j, i ≠ j → List.Disjoint (addresses (cells i)) (addresses (cells j))) ∧
      ∀ i l, s.lists i = some l → l.nElems.toNat = (cells i).length ∧ c i = some ((cells i).map Prod.snd)) ∧
    (∀ i, s.lists i = none ↔ c i = none) ∧ (∀ op, op.Legal c → s.step alloc op ≠ none) ∧
    ((∀ i xs, c i = some xs → xs = []) → ∀ a, s.heap.nodes a = none ∧
      ∃ k, s.heap.eventsAt a = (List.replicate k [Event.allocate a, .deallocate a]).flatten) := by
  obtain ⟨cells, h⟩ := hrun.represents
  refine ⟨⟨cells, h.owned.chain, fun i => (h.owned.chain i).nodup, h.owned.disjoint, fun i l hl => h.toNat_nElems hl⟩,
    fun i => ?_, fun op hlegal hnone => ?_, fun hempty a => ?_⟩
  · rw [← Option.map_eq_none_iff, h.sizes i, Option.map_eq_none_iff]
  · obtain ⟨s', r, -, hstep, -⟩ := simulated alloc h hlegal
    exact Option.some_ne_none _ (hstep.symm.trans hnone)
  · have hcells : ∀ i, cells i = [] := by
      intro i
      have hvalues := h.values i
      cases hc : c i with
      | none => exact (h.unconstructed hc).2
      | some xs =>
        rw [hc, hempty i xs hc] at hvalues
        exact List.map_eq_nil_iff.1 hvalues
    have ha : s.heap.nodes a = none := by
      by_contra hne
      obtain ⟨i, hi⟩ := h.owned.owned a hne
      rw [hcells i] at hi
      exact List.not_mem_nil hi
    obtain ⟨k, hk⟩ := h.accounted a
    rw [if_pos ha, List.append_nil] at hk
    exact ⟨ha, k, hk⟩

end

/-- Each allocation takes the next address, as long as it is free. -/
def nextAllocator : Allocator T where
  grant m :=
    let a : Address := ⟨m.events.length % (2 ^ 64 - 1), Nat.mod_lt _ (by decide)⟩
    if (m.nodes a).isNone then some a else none
  fresh m a h := by
    simp only [Option.ite_none_right_eq_some] at h
    obtain ⟨hnone, ha⟩ := h
    obtain rfl := Option.some.inj ha
    exact Option.isNone_iff_eq_none.1 hnone

theorem runs_separate_swapped : ∃ (s : State Nat Nat) (c : Contents Nat Nat),
    Runs nextAllocator ([] ++ [Op.construct 0] ++ [Op.pushFront 0 5] ++ [Op.insertAfter 0 0 6] ++ [Op.construct 1] ++
      [Op.swap 0 1] ++ [Op.eraseAfter 1 0] ++ [Op.popFront 1]) s c ∧
    ∀ a, s.heap.nodes a = none ∧
      ∃ k, s.heap.eventsAt a = (List.replicate k [Event.allocate a, .deallocate a]).flatten := by
  have h₁ := Runs.snoc (.construct 0) (Runs.nil : Runs nextAllocator [] ({} : State Nat Nat) _) rfl rfl
  have h₂ := h₁.snoc (.pushFront 0 5) (Option.some_ne_none _) rfl
  have h₃ := h₂.snoc (.insertAfter 0 0 6) ⟨[5], rfl, by decide⟩ rfl
  have h₄ := h₃.snoc (.construct 1) rfl rfl
  have h₅ := h₄.snoc (.swap 0 1) ⟨Option.some_ne_none _, Option.some_ne_none _⟩ rfl
  have h₆ := h₅.snoc (.eraseAfter 1 0) ⟨[5, 6], rfl, by decide⟩ rfl
  have h₇ := h₆.snoc (.popFront 1) (Option.some_ne_none _) rfl
  refine ⟨_, _, h₇, (runs_separate h₇).2.2.2 fun i xs hxs => ?_⟩
  match i, hxs with
  | 0, hxs => exact (Option.some.inj hxs).symm
  | 1, hxs => exact (Option.some.inj hxs).symm
  | i + 2, hxs => exact absurd hxs.symm (Option.some_ne_none xs)

end CppExperiments.Memory

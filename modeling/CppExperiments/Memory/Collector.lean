import CppExperiments.Lib.Counted
import Mathlib.Algebra.Order.Group.Multiset
import Mathlib.Data.Finset.Basic
import Mathlib.Data.Finset.SDiff
import Mathlib.Data.List.Chain

/-!
# Collected objects

Handles that share a counter, and mark the object for the collector when the last of them goes. The collector deletes
what is marked under its lock, so that no handle in a deleted object may be the last one of its object.
-/

namespace CppExperiments.Memory.Collector

/-- `counting_ptr_base`: the address of an object, zero for none, and of a counter. -/
structure CountingPtr where
  ptr : Nat := 0
  count : Option Nat := none
  deriving DecidableEq

/-- A handle, and the managed object that it is in, if any. -/
structure Handle where
  place : Option Nat
  value : CountingPtr
  deriving DecidableEq

/-- The living handles in the order of their construction, the counters of 32 bits on the heap, the collector, what has
been constructed, and what has been deleted. -/
structure State where
  handles : List Handle := []
  counters : Nat → Option ℤ := fun _ => none
  memory : Finset Nat := ∅
  collectibles : Finset Nat := ∅
  locked : Bool := false
  created : List Nat := []
  deleted : List Nat := []

/-- What a program does with handles. `GCNew` names the addresses of an object and a counter, and the handles that the
object is constructed with are then constructed in it; a collection names the order in which the set is traversed. -/
inductive Op where
  | new (object count : Nat)
  | copy (other : Nat) (place : Option Nat)
  | move (other : Nat) (place : Option Nat)
  | copyAssign (this other : Nat)
  | moveAssign (this other : Nat)
  | swap (this other : Nat)
  | destroy (this : Nat)
  | collect (order : List Nat)

namespace State

variable {s t : State} {v w : CountingPtr} {vs ws : Multiset CountingPtr} {h : Handle} {op : Op}
  {ops collects : List Op}
  {i j o c : Nat} {place : Option Nat} {order : List Nat} {n : ℤ}

/-- `GC::mark`; `none` where the thread holds the lock. -/
def mark (s : State) (ptr : Nat) : Option State :=
  if s.locked then none else some { s with collectibles := insert ptr s.collectibles }

/-- `~counting_ptr_base`; `none` where the counter is gone, or the lock is held. -/
def drop (s : State) (this : CountingPtr) : Option State :=
  match this.count with
  | none => some s
  | some c => (s.counters c).bind fun n =>
    if n = 1 then (s.mark this.ptr).map fun s => { s with counters := Function.update s.counters c none }
    else some { s with counters := Function.update s.counters c (some ((n - 1).bmod (2 ^ 32))) }

/-- The copy constructor, up to the handle itself; `none` where the counter is gone. -/
def copied (s : State) (other : CountingPtr) : Option State :=
  match other.count with
  | none => some s
  | some c => (s.counters c).map fun n =>
      { s with counters := Function.update s.counters c (some ((n + 1).bmod (2 ^ 32))) }

/-- An object is erased from the memory: its handles go, the last one first, and then the object does. -/
def erase (s : State) (object : Nat) : Option State :=
  if object ∈ s.memory then
    let fields := (s.handles.filter fun h => h.place = some object).map Handle.value
    (fields.reverse.foldlM drop { s with handles := s.handles.filter fun h => h.place ≠ some object }).map fun s =>
      { s with memory := s.memory.erase object, deleted := s.deleted ++ [object] }
  else some s

/-- `GC::collect`; `none` where the thread holds the lock. -/
def collect (s : State) (order : List Nat) : Option State :=
  if s.locked then none
  else (order.foldlM erase { s with locked := true }).map fun s => { s with locked := false, collectibles := ∅ }

/-- A handle that is constructed. -/
def push (s : State) (place : Option Nat) (value : CountingPtr) : State :=
  { s with handles := s.handles ++ [⟨place, value⟩] }

/-- A handle gets another value where it is. -/
def put (s : State) (i : Nat) (value : CountingPtr) : State :=
  { s with handles := s.handles.modify i fun h => { h with value := value } }

def value? (s : State) (i : Nat) : Option CountingPtr := s.handles[i]?.map Handle.value

/-- One operation; `none` where a handle or its counter is not there, or the lock is taken twice. -/
def step (s : State) : Op → Option State
  | .new object c => some ({ s with
      counters := Function.update s.counters c (some 1)
      memory := insert object s.memory
      created := s.created ++ [object] } |>.push none ⟨object, some c⟩)
  | .copy j place => (s.value? j).bind fun other => (s.copied other).map fun s => s.push place other
  | .move j place => (s.value? j).map fun other => (s.put j {}).push place other
  | .copyAssign i j => (s.value? j).bind fun other => (s.value? i).bind fun this => (s.copied other).bind fun s =>
      (s.put i other).drop this
  | .moveAssign i j => (s.value? j).bind fun other => ((s.put j {}).value? i).bind fun this =>
      ((s.put j {}).put i other).drop this
  | .swap i j => (s.value? j).bind fun other => (s.value? i).map fun this => (s.put i other).put j this
  | .destroy i => (s.value? i).bind fun this => drop { s with handles := s.handles.eraseIdx i } this
  | .collect order => s.collect order

/-- What a program can do: new objects and counters are allocated where there are none, handles are constructed in
objects that are there, those that are named are there, and a collection traverses the whole set. -/
def Possible (s : State) : Op → Prop
  | .new object c => object ≠ 0 ∧ object ∉ s.memory ∧ s.counters c = none
  | .copy j place | .move j place => j < s.handles.length ∧ ∀ o ∈ place, o ∈ s.memory
  | .copyAssign i j | .moveAssign i j | .swap i j => i < s.handles.length ∧ j < s.handles.length
  | .destroy i => i < s.handles.length
  | .collect order => order.Nodup ∧ order.toFinset = s.collectibles

/-- Every object that a collected one holds a handle to has a handle that is in no collected object. -/
def Keeps (s : State) : Op → Prop
  | .collect _ => ∀ h ∈ s.handles, (∃ o ∈ s.collectibles, h.place = some o) → h.value.ptr ≠ 0 →
      ∃ h' ∈ s.handles, h'.value.ptr = h.value.ptr ∧ ∀ o ∈ s.collectibles, h'.place ≠ some o
  | _ => True

/-- No object has as many handles as a counter has values. -/
def Few (s : State) (_ : Op) : Prop := ∀ o ≠ 0, s.handles.countP (fun h => h.value.ptr = o) < 2 ^ 32

/-- A condition is met by one operation after the other. -/
def Along (P : State → Op → Prop) (s : State) : List Op → Prop
  | [] => True
  | op :: ops => P s op ∧ ∀ t, s.step op = some t → Along P t ops

/-- A managed object holds a handle to another one. -/
def Holds (s : State) (o p : Nat) : Prop := ∃ h ∈ s.handles, h.place = some o ∧ h.value.ptr = p

/-- Managed objects of which each holds a handle to the next. -/
def Chain (s : State) (chain : List Nat) : Prop := chain.IsChain s.Holds ∧ ∀ o ∈ chain, o ∈ s.memory

/-- The lock is not held, an object with a handle has not been deleted and its counter is the number of its handles in
32 bits, and every object has been deleted once for each time that it was constructed, but for those that are there now. -/
structure Sound (s : State) : Prop where
  unlocked : s.locked = false
  alive : ∀ h ∈ s.handles, h.value.ptr ≠ 0 → h.value.ptr ∈ s.memory
  counted : ∀ h ∈ s.handles, ∀ c, h.value.count = some c → s.counters c =
    some ((s.handles.countP (fun h' => h'.value.ptr = h.value.ptr) : ℤ).bmod (2 ^ 32))
  present : ∀ o ∈ s.memory, s.deleted.count o + 1 = s.created.count o
  gone : ∀ o, o ∉ s.memory → s.deleted.count o = s.created.count o

/-! ## Handles in any place -/

structure Shares (vs : Multiset CountingPtr) (s : State) : Prop where
  counted : CountedMod (2 ^ 32) CountingPtr.count s.counters vs
  kinds : ∀ v ∈ vs, v = {} ∨ v.count ≠ none ∧ v.ptr ∈ s.memory
  same : ∀ v ∈ vs, ∀ w ∈ vs, v.count = w.count ↔ v.ptr = w.ptr
  zero : 0 ∉ s.memory
  collectible : ∀ o, o ∈ s.collectibles ↔ o ∈ s.memory ∧ ∀ v ∈ vs, v.ptr ≠ o
  unlocked : s.locked = false
  present : ∀ o ∈ s.memory, s.deleted.count o + 1 = s.created.count o
  gone : ∀ o, o ∉ s.memory → s.deleted.count o = s.created.count o

/-- No counter is shared by more handles than it has values. -/
def Fits (vs : Multiset CountingPtr) : Prop := ∀ c, CppExperiments.shares CountingPtr.count vs c ≤ 2 ^ 32

lemma Fits.mono (h : Fits vs) (hle : ws ≤ vs) : Fits ws := fun c => (Multiset.countP_le_of_le _ hle).trans (h c)

namespace Shares

lemma with_handles (hs : Shares vs s) (handles : List Handle) : Shares vs { s with handles := handles } :=
  ⟨hs.counted, hs.kinds, hs.same, hs.zero, hs.collectible, hs.unlocked, hs.present, hs.gone⟩

lemma count_eq_none_iff (hs : Shares vs s) (hv : v ∈ vs) : v.count = none ↔ v = {} := by
  rcases hs.kinds v hv with rfl | ⟨hne, _⟩
  · exact iff_of_true rfl rfl
  · exact iff_of_false hne fun heq => hne (congrArg CountingPtr.count heq)

lemma ptr_ne (hs : Shares vs s) (ho : o ∈ s.memory) : ({} : CountingPtr).ptr ≠ o := by
  rintro rfl
  exact hs.zero ho

lemma same_null (hs : Shares vs s) (hv : v ∈ vs) :
    (v.count = ({} : CountingPtr).count ↔ v.ptr = ({} : CountingPtr).ptr) := by
  rcases hs.kinds v hv with rfl | ⟨hne, hmem⟩
  · exact iff_of_true rfl rfl
  · exact iff_of_false hne fun heq => hs.ptr_ne hmem heq.symm

lemma cons_null (hs : Shares vs s) : Shares ({} ::ₘ vs) s where
  counted := hs.counted.cons_null rfl
  kinds := by
    rw [Multiset.forall_mem_cons]
    exact ⟨.inl rfl, hs.kinds⟩
  same := by
    simp only [Multiset.forall_mem_cons]
    refine ⟨⟨trivial, fun w hw => ?_⟩, fun v hv => ⟨hs.same_null hv, hs.same v hv⟩⟩
    rw [eq_comm, hs.same_null hw, eq_comm]
  zero := hs.zero
  collectible o := by
    rw [hs.collectible, Multiset.forall_mem_cons]
    exact and_congr_right fun ho => (and_iff_right (hs.ptr_ne ho)).symm
  unlocked := hs.unlocked
  present := hs.present
  gone := hs.gone

/-- One more handle like another one shares its counter. -/
lemma copied (hs : Shares vs s) (hv : v ∈ vs) :
    ∃ t, s.copied v = some t ∧ Shares (v ::ₘ vs) t ∧ t.handles = s.handles ∧ t.memory = s.memory := by
  cases hc : v.count with
  | none =>
    obtain rfl := (hs.count_eq_none_iff hv).1 hc
    exact ⟨s, rfl, hs.cons_null, rfl, rfl⟩
  | some c =>
    obtain ⟨n, hn⟩ := Option.ne_none_iff_exists'.1 fun hnone => hs.counted.eq_none_iff.1 hnone _ hv hc
    refine ⟨{ s with counters := Function.update s.counters c (some ((n + 1).bmod (2 ^ 32))) }, ?_,
      ⟨hs.counted.cons_shared hn hc, ?_, ?_,
      hs.zero, fun o => ?_, hs.unlocked, hs.present, hs.gone⟩, rfl, rfl⟩
    · simp only [State.copied, hc, hn, Option.map_some]
    · rw [Multiset.forall_mem_cons]
      exact ⟨hs.kinds v hv, hs.kinds⟩
    · simp only [Multiset.forall_mem_cons]
      exact ⟨⟨trivial, hs.same v hv⟩, fun w hw => ⟨hs.same w hw v hv, hs.same w hw⟩⟩
    · rw [hs.collectible, Multiset.forall_mem_cons]
      exact and_congr_right fun _ => (and_iff_right_of_imp fun hall => hall v hv).symm

/-- A handle goes, and marks its object if it was the last one. -/
lemma drop (hs : Shares (v ::ₘ vs) s) (hfits : Fits (v ::ₘ vs)) :
    ∃ t, s.drop v = some t ∧ Shares vs t ∧ t.handles = s.handles ∧ t.memory = s.memory := by
  have hmem : v ∈ v ::ₘ vs := Multiset.mem_cons_self _ _
  have hsub : ∀ {w}, w ∈ vs → w ∈ v ::ₘ vs := fun hw => Multiset.mem_cons_of_mem hw
  have hkinds : ∀ w ∈ vs, w = {} ∨ w.count ≠ none ∧ w.ptr ∈ s.memory := fun w hw => hs.kinds w (hsub hw)
  have hsame : ∀ w ∈ vs, ∀ w' ∈ vs, w.count = w'.count ↔ w.ptr = w'.ptr := fun w hw w' hw' =>
    hs.same w (hsub hw) w' (hsub hw')
  have hcollectible := hs.collectible
  simp only [Multiset.forall_mem_cons] at hcollectible
  cases hc : v.count with
  | none =>
    obtain rfl := (hs.count_eq_none_iff hmem).1 hc
    refine ⟨s, rfl, ⟨hs.counted.of_cons_null rfl, hkinds, hsame, hs.zero, fun o => ?_, hs.unlocked, hs.present,
      hs.gone⟩, rfl, rfl⟩
    rw [hcollectible]
    exact and_congr_right fun ho => and_iff_right (hs.ptr_ne ho)
  | some c =>
    obtain ⟨n, hn, hiff, hcounted⟩ := hs.counted.release hc (by decide) (hfits c)
    have hlast : n = 1 ↔ ∀ w ∈ vs, w.ptr ≠ v.ptr := by
      rw [hiff]
      refine forall₂_congr fun w hw => not_congr ?_
      rw [← hc, hs.same w (hsub hw) v hmem]
    have halive : v.ptr ∈ s.memory := ((hs.kinds v hmem).resolve_left fun heq => by
      rw [heq] at hc
      exact nomatch hc).2
    simp only [State.drop, hc, hn, Option.bind_some]
    by_cases hone : n = 1
    · rw [if_pos hone, State.mark, if_neg (by rw [hs.unlocked]; exact Bool.false_ne_true), Option.map_some]
      rw [if_pos hone] at hcounted
      refine ⟨_, rfl, ⟨hcounted, hkinds, hsame, hs.zero, fun o => ?_, hs.unlocked, hs.present, hs.gone⟩, rfl, rfl⟩
      change o ∈ insert v.ptr s.collectibles ↔ o ∈ s.memory ∧ ∀ w ∈ vs, w.ptr ≠ o
      rw [Finset.mem_insert, hcollectible]
      constructor
      · rintro (rfl | ⟨ho, -, hall⟩)
        · exact ⟨halive, hlast.1 hone⟩
        · exact ⟨ho, hall⟩
      · rintro ⟨ho, hall⟩
        by_cases heq : v.ptr = o
        · exact .inl heq.symm
        · exact .inr ⟨ho, heq, hall⟩
    · rw [if_neg hone]
      rw [if_neg hone] at hcounted
      refine ⟨_, rfl, ⟨hcounted, hkinds, hsame, hs.zero, fun o => ?_, hs.unlocked, hs.present, hs.gone⟩, rfl, rfl⟩
      change o ∈ s.collectibles ↔ o ∈ s.memory ∧ ∀ w ∈ vs, w.ptr ≠ o
      rw [hcollectible]
      refine and_congr_right fun _ => and_iff_right_of_imp fun hall heq => hone (hlast.2 fun w hw => ?_)
      rw [heq]
      exact hall w hw

/-- A new object has one handle with a counter of its own. -/
lemma new (hs : Shares vs s) (hzero : o ≠ 0) (ho : o ∉ s.memory) (hc : s.counters c = none) :
    Shares (⟨o, some c⟩ ::ₘ vs) { s with
      counters := Function.update s.counters c (some 1)
      memory := insert o s.memory
      created := s.created ++ [o] } where
  counted := hs.counted.cons_fresh hc rfl
  kinds := by
    rw [Multiset.forall_mem_cons]
    refine ⟨.inr ⟨Option.some_ne_none _, Finset.mem_insert_self _ _⟩, fun v hv => (hs.kinds v hv).imp_right fun h => ?_⟩
    exact ⟨h.1, Finset.mem_insert_of_mem h.2⟩
  same := by
    have hne : ∀ v ∈ vs, (v.count = some c ↔ v.ptr = o) := fun v hv => by
      refine iff_of_false (hs.counted.eq_none_iff.1 hc v hv) fun heq => ?_
      rcases hs.kinds v hv with rfl | ⟨-, hmem⟩
      · exact hzero heq.symm
      · exact ho (heq ▸ hmem)
    simp only [Multiset.forall_mem_cons]
    refine ⟨⟨trivial, fun v hv => ?_⟩, fun v hv => ⟨hne v hv, hs.same v hv⟩⟩
    rw [eq_comm, hne v hv, eq_comm]
  zero hmem := (Finset.mem_insert.1 hmem).elim (fun heq => hzero heq.symm) hs.zero
  collectible p := by
    change p ∈ s.collectibles ↔ p ∈ insert o s.memory ∧ _
    rw [hs.collectible, Multiset.forall_mem_cons, Finset.mem_insert]
    constructor
    · rintro ⟨hp, hall⟩
      refine ⟨.inr hp, ?_, hall⟩
      rintro rfl
      exact ho hp
    · rintro ⟨hp, hne, hall⟩
      exact ⟨hp.resolve_left fun heq => hne heq.symm, hall⟩
  unlocked := hs.unlocked
  present p hp := by
    change s.deleted.count p + 1 = (s.created ++ [o]).count p
    rw [List.count_append, List.count_singleton]
    by_cases hpo : o = p
    · rw [if_pos (beq_iff_eq.2 hpo), hs.gone p (hpo ▸ ho)]
    · rw [if_neg fun h => hpo (beq_iff_eq.1 h), add_zero, hs.present p]
      exact (Finset.mem_insert.1 hp).resolve_left fun heq => hpo heq.symm
  gone p hp := by
    change s.deleted.count p = (s.created ++ [o]).count p
    have hpo : ¬ o = p := fun heq => hp (heq ▸ Finset.mem_insert_self _ _)
    rw [List.count_append, List.count_singleton, if_neg fun h => hpo (beq_iff_eq.1 h), add_zero, hs.gone p]
    exact fun hmem => hp (Finset.mem_insert_of_mem hmem)

end Shares

/-! ## Collections -/

variable {vl : List CountingPtr} {hl : List Handle}

/-- Handles that are not the last ones of their objects go while the lock is held. -/
lemma foldlM_drop (hn : CountedMod (2 ^ 32) CountingPtr.count s.counters ((vl : Multiset CountingPtr) + vs))
    (hfits : Fits ((vl : Multiset CountingPtr) + vs))
    (hkeep : ∀ v ∈ vl, ∀ c, v.count = some c → ∃ w ∈ vs, w.count = some c) :
    ∃ counters, vl.foldlM State.drop s = some { s with counters := counters } ∧
      CountedMod (2 ^ 32) CountingPtr.count counters vs := by
  induction vl generalizing s with
  | nil => exact ⟨s.counters, rfl, by rwa [Multiset.coe_nil, zero_add] at hn⟩
  | cons v vl ih =>
    have htail : ∀ w ∈ vl, ∀ c, w.count = some c → ∃ w ∈ vs, w.count = some c := fun w hw =>
      hkeep w (List.mem_cons_of_mem _ hw)
    rw [← Multiset.cons_coe, Multiset.cons_add] at hn hfits
    have hfits' := hfits.mono (Multiset.le_cons_self _ v)
    rw [List.foldlM_cons]
    cases hc : v.count with
    | none =>
      have hdrop : s.drop v = some s := by rw [State.drop, hc]
      rw [hdrop]
      exact ih (hn.of_cons_null hc) hfits' htail
    | some c =>
      obtain ⟨n, hcn, hiff, hcounted⟩ := hn.release hc (by decide) (hfits c)
      obtain ⟨w, hw, hwc⟩ := hkeep v List.mem_cons_self c hc
      have hone : n ≠ 1 := fun heq => hiff.1 heq w (Multiset.mem_add.2 (.inr hw)) hwc
      rw [if_neg hone] at hcounted
      have hdrop : s.drop v = some { s with
          counters := Function.update s.counters c (some ((n - 1).bmod (2 ^ 32))) } := by
        simp only [State.drop, hc, hcn, Option.bind_some]
        rw [if_neg hone]
      rw [hdrop]
      exact ih (s := { s with counters := Function.update s.counters c (some ((n - 1).bmod (2 ^ 32))) }) hcounted hfits' htail

/-- The handles in an object that goes are not the last ones of theirs. -/
lemma erase_eq (ho : o ∈ s.memory)
    (hn : CountedMod (2 ^ 32) CountingPtr.count s.counters (s.handles.map Handle.value : Multiset CountingPtr))
    (hfits : Fits (s.handles.map Handle.value))
    (hkeep : ∀ h ∈ s.handles, h.place = some o → ∀ c, h.value.count = some c →
      ∃ h' ∈ s.handles, h'.place ≠ some o ∧ h'.value.count = some c) :
    ∃ counters, s.erase o = some { s with
        handles := s.handles.filter fun h => h.place ≠ some o
        counters := counters
        memory := s.memory.erase o
        deleted := s.deleted ++ [o] } ∧
      CountedMod (2 ^ 32) CountingPtr.count counters
        ((s.handles.filter fun h => h.place ≠ some o).map Handle.value : Multiset CountingPtr) := by
  have hsplit : (((s.handles.filter fun h => h.place = some o).map Handle.value).reverse : Multiset CountingPtr) +
      ((s.handles.filter fun h => h.place ≠ some o).map Handle.value : Multiset CountingPtr) =
      (s.handles.map Handle.value : Multiset CountingPtr) := by
    rw [Multiset.coe_reverse, Multiset.coe_add, ← List.map_append, Multiset.coe_eq_coe]
    refine List.Perm.map _ ?_
    simpa only [decide_not] using List.filter_append_perm (fun h : Handle => decide (h.place = some o)) s.handles
  have hkept : ∀ v ∈ ((s.handles.filter fun h => h.place = some o).map Handle.value).reverse, ∀ c, v.count = some c →
      ∃ w ∈ ((s.handles.filter fun h => h.place ≠ some o).map Handle.value : Multiset CountingPtr),
        w.count = some c := by
    intro v hv c hc
    rw [List.mem_reverse] at hv
    obtain ⟨h, hh, rfl⟩ := List.mem_map.1 hv
    obtain ⟨hh, hplace⟩ := List.mem_filter.1 hh
    obtain ⟨h', hh', hplace', hc'⟩ := hkeep h hh (of_decide_eq_true hplace) c hc
    exact ⟨h'.value, List.mem_map_of_mem (List.mem_filter.2 ⟨hh', decide_eq_true hplace'⟩), hc'⟩
  obtain ⟨counters, hdrop, hcounted⟩ := foldlM_drop
    (s := { s with handles := s.handles.filter fun h => h.place ≠ some o }) (hsplit ▸ hn) (hsplit ▸ hfits) hkept
  refine ⟨counters, ?_, hcounted⟩
  rw [erase, if_pos ho]
  simp only [hdrop, Option.map_some]

/-- What is left when these objects are gone. -/
lemma foldlM_erase (hnodup : order.Nodup) (ho : ∀ o ∈ order, o ∈ s.memory)
    (hn : CountedMod (2 ^ 32) CountingPtr.count s.counters (s.handles.map Handle.value : Multiset CountingPtr))
    (hfits : Fits (s.handles.map Handle.value))
    (hkeep : ∀ h ∈ s.handles, (∃ o ∈ order, h.place = some o) → ∀ c, h.value.count = some c →
      ∃ h' ∈ s.handles, (∀ o ∈ order, h'.place ≠ some o) ∧ h'.value.count = some c) :
    ∃ counters, order.foldlM erase s = some { s with
        handles := s.handles.filter fun h => ∀ o ∈ order, h.place ≠ some o
        counters := counters
        memory := s.memory \ order.toFinset
        deleted := s.deleted ++ order } ∧
      CountedMod (2 ^ 32) CountingPtr.count counters
        ((s.handles.filter fun h => ∀ o ∈ order, h.place ≠ some o).map Handle.value : Multiset CountingPtr) := by
  induction order generalizing s with
  | nil =>
    refine ⟨s.counters, ?_, ?_⟩
    · simp
    · simpa using hn
  | cons o order ih =>
    rw [List.nodup_cons] at hnodup
    obtain ⟨counters, herase, hcounted⟩ := erase_eq (ho o List.mem_cons_self) hn hfits fun h hh hplace c hc => by
      obtain ⟨h', hh', hplace', hc'⟩ := hkeep h hh ⟨o, List.mem_cons_self, hplace⟩ c hc
      exact ⟨h', hh', hplace' o List.mem_cons_self, hc'⟩
    have hfilter : (s.handles.filter fun h => h.place ≠ some o).filter (fun h => ∀ p ∈ order, h.place ≠ some p) =
        s.handles.filter fun h => ∀ p ∈ o :: order, h.place ≠ some p := by
      rw [List.filter_filter]
      refine List.filter_congr fun h _ => ?_
      simp only [List.forall_mem_cons, Bool.decide_and, Bool.and_comm]
    have hmemory : s.memory \ (o :: order).toFinset = s.memory.erase o \ order.toFinset := by
      rw [List.toFinset_cons, Finset.sdiff_insert, Finset.erase_sdiff_comm]
    have hkept : ∀ h ∈ s.handles.filter fun h => h.place ≠ some o, (∃ p ∈ order, h.place = some p) →
        ∀ c, h.value.count = some c → ∃ h' ∈ s.handles.filter fun h => h.place ≠ some o,
          (∀ p ∈ order, h'.place ≠ some p) ∧ h'.value.count = some c := by
      intro h hh ⟨p, hp, hplace⟩ c hc
      obtain ⟨h', hh', hplace', hc'⟩ := hkeep h (List.mem_of_mem_filter hh) ⟨p, List.mem_cons_of_mem _ hp, hplace⟩ c hc
      refine ⟨h', List.mem_filter.2 ⟨hh', decide_eq_true (hplace' o List.mem_cons_self)⟩, fun q hq => ?_, hc'⟩
      exact hplace' q (List.mem_cons_of_mem _ hq)
    obtain ⟨counters', hfold, hcounted'⟩ := ih hnodup.2 (s := { s with
        handles := s.handles.filter fun h => h.place ≠ some o
        counters := counters
        memory := s.memory.erase o
        deleted := s.deleted ++ [o] })
      (fun p hp => Finset.mem_erase.2 ⟨fun heq => hnodup.1 (heq ▸ hp), ho p (List.mem_cons_of_mem _ hp)⟩) hcounted
      (hfits.mono (Multiset.coe_le.2 (List.filter_sublist.map Handle.value).subperm)) hkept
    refine ⟨counters', ?_, hfilter ▸ hcounted'⟩
    rw [List.foldlM_cons, herase]
    refine hfold.trans ?_
    simp only [hfilter, hmemory, List.append_assoc, List.singleton_append]

/-- The invariant of a whole run. -/
structure Inv (s : State) : Prop where
  shares : Shares (s.handles.map Handle.value) s
  places : ∀ o, some o ∈ s.handles.map Handle.place → o ∈ s.memory

/-- The handles of an object are those that share its counter. -/
lemma Inv.shares_eq (hs : s.Inv) (hh : h ∈ s.handles) (hc : h.value.count = some c) :
    CppExperiments.shares CountingPtr.count (s.handles.map Handle.value) c =
      s.handles.countP fun h' => h'.value.ptr = h.value.ptr := by
  rw [CppExperiments.shares, Multiset.coe_countP, List.countP_map]
  refine List.countP_congr fun h' hh' => ?_
  rw [decide_eq_true_iff, Function.comp_apply, decide_eq_true_iff, ← hc]
  exact hs.shares.same _ (List.mem_map_of_mem hh') _ (List.mem_map_of_mem hh)

lemma Inv.shares_lt (hs : s.Inv) (hfew : s.Few op) (c : Nat) :
    CppExperiments.shares CountingPtr.count (s.handles.map Handle.value) c < 2 ^ 32 := by
  by_cases hz : CppExperiments.shares CountingPtr.count (s.handles.map Handle.value : Multiset CountingPtr) c = 0
  · rw [hz]
    exact Nat.two_pow_pos 32
  · obtain ⟨v, hv, hc⟩ := shares_ne_zero_iff.1 hz
    obtain ⟨h, hh, rfl⟩ := List.mem_map.1 hv
    rw [hs.shares_eq hh hc]
    refine hfew _ fun heq => ?_
    rcases hs.shares.kinds h.value hv with hnull | ⟨-, hmem⟩
    · rw [hnull] at hc
      cases hc
    · exact hs.shares.zero (heq ▸ hmem)

lemma Inv.fits (hs : s.Inv) (hfew : s.Few op) : Fits (s.handles.map Handle.value) := fun c => (hs.shares_lt hfew c).le

lemma Inv.fits_cons (hs : s.Inv) (hfew : s.Few op) (v : CountingPtr) :
    Fits (v ::ₘ (s.handles.map Handle.value : Multiset CountingPtr)) :=
  fun c => (shares_cons_le v).trans (hs.shares_lt hfew c)

lemma Inv.collect (hs : s.Inv) (hfew : s.Few (.collect order)) (hposs : s.Possible (.collect order))
    (hkeep : s.Keeps (.collect order)) :
    ∃ t, s.collect order = some t ∧ t.Inv ∧ ∀ o ∈ t.memory, ∃ h ∈ t.handles, h.value.ptr = o := by
  obtain ⟨hnodup, horder⟩ := hposs
  have hmem : ∀ o, o ∈ order ↔ o ∈ s.collectibles := fun o => by rw [← horder, List.mem_toFinset]
  have halive : ∀ o ∈ order, o ∈ s.memory := fun o ho => ((hs.shares.collectible o).1 ((hmem o).1 ho)).1
  have hvalue : ∀ h ∈ s.handles, h.value ∈ (s.handles.map Handle.value : Multiset CountingPtr) := fun h hh =>
    List.mem_map_of_mem hh
  have hkeep' : ∀ h ∈ s.handles, (∃ o ∈ order, h.place = some o) → h.value.ptr ≠ 0 →
      ∃ h' ∈ s.handles, h'.value.ptr = h.value.ptr ∧ ∀ o ∈ order, h'.place ≠ some o := by
    intro h hh ⟨o, ho, hplace⟩ hne
    obtain ⟨h', hh', hptr, hplace'⟩ := hkeep h hh ⟨o, (hmem o).1 ho, hplace⟩ hne
    exact ⟨h', hh', hptr, fun p hp => hplace' p ((hmem p).1 hp)⟩
  have hlast : ∀ h ∈ s.handles, (∃ o ∈ order, h.place = some o) → ∀ c, h.value.count = some c →
      ∃ h' ∈ s.handles, (∀ o ∈ order, h'.place ≠ some o) ∧ h'.value.count = some c := by
    intro h hh hplace c hc
    have hne : h.value.ptr ≠ 0 := by
      rcases hs.shares.kinds _ (hvalue h hh) with heq | ⟨-, hptr⟩
      · rw [heq] at hc
        exact nomatch hc
      · exact fun heq => hs.shares.zero (heq ▸ hptr)
    obtain ⟨h', hh', hptr, hplace'⟩ := hkeep' h hh hplace hne
    exact ⟨h', hh', hplace', by rw [← hc, hs.shares.same _ (hvalue h' hh') _ (hvalue h hh), hptr]⟩
  obtain ⟨counters, hfold, hcounted⟩ :=
    foldlM_erase (s := { s with locked := true }) hnodup halive hs.shares.counted
      (hs.fits hfew) hlast
  have hleft : ∀ {h}, h ∈ s.handles.filter (fun h => ∀ o ∈ order, h.place ≠ some o) → h ∈ s.handles := fun hh =>
    List.mem_of_mem_filter hh
  have hsub : ∀ {v}, v ∈ ((s.handles.filter fun h => ∀ o ∈ order, h.place ≠ some o).map Handle.value :
      Multiset CountingPtr) → v ∈ (s.handles.map Handle.value : Multiset CountingPtr) := by
    intro v hv
    obtain ⟨h, hh, rfl⟩ := List.mem_map.1 hv
    exact hvalue h (hleft hh)
  have hheld : ∀ o ∈ s.memory \ order.toFinset,
      ∃ h ∈ s.handles.filter (fun h => ∀ o ∈ order, h.place ≠ some o), h.value.ptr = o := by
    intro o ho
    obtain ⟨ho, hnot⟩ := Finset.mem_sdiff.1 ho
    rw [horder, hs.shares.collectible] at hnot
    push Not at hnot
    obtain ⟨v, hv, rfl⟩ := hnot ho
    obtain ⟨h, hh, rfl⟩ := List.mem_map.1 hv
    by_cases hplace : ∃ o ∈ order, h.place = some o
    · obtain ⟨h', hh', hptr, hplace'⟩ := hkeep' h hh hplace fun heq => hs.shares.zero (heq ▸ ho)
      exact ⟨h', List.mem_filter.2 ⟨hh', decide_eq_true hplace'⟩, hptr⟩
    · push Not at hplace
      exact ⟨h, List.mem_filter.2 ⟨hh, decide_eq_true hplace⟩, rfl⟩
  refine ⟨{ s with
      handles := s.handles.filter fun h => ∀ o ∈ order, h.place ≠ some o
      counters := counters
      memory := s.memory \ order.toFinset
      deleted := s.deleted ++ order
      locked := false
      collectibles := ∅ }, ?_, ⟨⟨hcounted, fun v hv => ?_, fun v hv w hw => hs.shares.same v (hsub hv) w (hsub hw),
    fun hzero => hs.shares.zero (Finset.mem_sdiff.1 hzero).1, fun o => ?_, rfl, fun o ho => ?_, fun o ho => ?_⟩,
    fun o ho => ?_⟩, hheld⟩
  · rw [State.collect, if_neg (by rw [hs.shares.unlocked]; exact Bool.false_ne_true), hfold]
    rfl
  · refine (hs.shares.kinds v (hsub hv)).imp_right fun ⟨hne, hptr⟩ => ⟨hne, Finset.mem_sdiff.2 ⟨hptr, fun hmem' => ?_⟩⟩
    rw [horder, hs.shares.collectible] at hmem'
    exact hmem'.2 v (hsub hv) rfl
  · refine iff_of_false (Finset.notMem_empty o) fun ⟨ho, hall⟩ => ?_
    obtain ⟨h, hh, hptr⟩ := hheld o ho
    exact hall h.value (List.mem_map_of_mem hh) hptr
  · obtain ⟨ho, hnot⟩ := Finset.mem_sdiff.1 ho
    change (s.deleted ++ order).count o + 1 = s.created.count o
    rw [List.count_append, List.count_eq_zero_of_not_mem fun hmem' => hnot (List.mem_toFinset.2 hmem'), add_zero,
      hs.shares.present o ho]
  · change (s.deleted ++ order).count o = s.created.count o
    rw [List.count_append]
    by_cases hin : o ∈ order
    · rw [List.count_eq_one_of_mem hnodup hin, hs.shares.present o (halive o hin)]
    · have hgone : o ∉ s.memory := fun hmem' =>
        ho (Finset.mem_sdiff.2 ⟨hmem', fun h => hin (List.mem_toFinset.1 h)⟩)
      rw [List.count_eq_zero_of_not_mem hin, add_zero, hs.shares.gone o hgone]
  · obtain ⟨h, hh, ho⟩ := List.mem_map.1 ho
    refine Finset.mem_sdiff.2 ⟨hs.places o (List.mem_map.2 ⟨h, hleft hh, ho⟩), fun hin => ?_⟩
    exact of_decide_eq_true (List.mem_filter.1 hh).2 o (List.mem_toFinset.1 hin) ho

/-! ## Runs -/

lemma map_modify {β : Type} {f : Handle → Handle} {g : Handle → β} {b : β} (hfg : ∀ h, g (f h) = b) :
    (hl.modify i f).map g = (hl.map g).set i b := by
  induction hl generalizing i with
  | nil => simp
  | cons h hl ih => cases i <;> simp [hfg, ih]

lemma put_values (s : State) (i : Nat) (v : CountingPtr) :
    (s.put i v).handles.map Handle.value = (s.handles.map Handle.value).set i v := map_modify fun _ => rfl

lemma put_places (s : State) (i : Nat) (v : CountingPtr) :
    (s.put i v).handles.map Handle.place = s.handles.map Handle.place := by
  have hmodify : ∀ (l : List Handle) (i : Nat),
      (l.modify i fun h => { h with value := v }).map Handle.place = l.map Handle.place := by
    intro l
    induction l with
    | nil => simp
    | cons h l ih => rintro (_ | i) <;> simp [ih]
  exact hmodify s.handles i

lemma value?_eq (s : State) (i : Nat) : s.value? i = (s.handles.map Handle.value)[i]? := List.getElem?_map.symm

lemma exists_value? (hi : i < s.handles.length) : ∃ v, s.value? i = some v :=
  ⟨_, by rw [value?_eq, List.getElem?_eq_getElem (by rwa [List.length_map])]⟩

lemma Shares.push (hs : Shares (v ::ₘ (s.handles.map Handle.value : Multiset CountingPtr)) s)
    (hplaces : ∀ o, some o ∈ s.handles.map Handle.place → o ∈ s.memory) (hplace : ∀ o ∈ place, o ∈ s.memory) :
    (s.push place v).Inv where
  shares := by
    rw [State.push, List.map_append, List.map_singleton, coe_concat]
    exact hs.with_handles _
  places o ho := by
    rw [State.push, List.map_append, List.map_singleton, List.mem_append, List.mem_singleton] at ho
    exact ho.elim (hplaces o) fun heq => hplace o heq.symm

/-- A handle gets another value, and what it was goes. -/
lemma Shares.assign (hs : Shares (v ::ₘ (s.handles.map Handle.value : Multiset CountingPtr)) s)
    (hfits : Fits (v ::ₘ (s.handles.map Handle.value : Multiset CountingPtr)))
    (hplaces : ∀ o, some o ∈ s.handles.map Handle.place → o ∈ s.memory) (hi : s.value? i = some w) :
    ∃ t, (s.put i v).drop w = some t ∧ t.Inv := by
  rw [value?_eq] at hi
  rw [← coe_set_cons hi, ← put_values] at hs hfits
  obtain ⟨t, hdrop, ht, hhandles, hmemory⟩ := (hs.with_handles (s.put i v).handles).drop hfits
  refine ⟨t, hdrop, by rwa [hhandles], fun o ho => ?_⟩
  rw [hhandles, put_places] at ho
  rw [hmemory]
  exact hplaces o ho

/-- The handle that is moved from is left without an object. -/
lemma Inv.moved (hs : s.Inv) (hj : s.value? j = some v) :
    Shares (v ::ₘ ((s.put j {}).handles.map Handle.value : Multiset CountingPtr)) (s.put j {}) := by
  rw [value?_eq] at hj
  rw [put_values, coe_set_cons hj]
  exact hs.shares.cons_null.with_handles _

lemma Inv.put_places (hs : s.Inv) (v : CountingPtr) :
    ∀ o, some o ∈ (s.put j v).handles.map Handle.place → o ∈ (s.put j v).memory := by
  rw [State.put_places]
  exact hs.places

theorem Inv.step (hs : s.Inv) (hfew : s.Few op) (hposs : s.Possible op) (hkeep : s.Keeps op) :
    ∃ t, s.step op = some t ∧ t.Inv := by
  cases op with
  | new o c =>
    refine ⟨_, rfl, Shares.push (hs.shares.new hposs.1 hposs.2.1 hposs.2.2) (fun p hp => ?_) nofun⟩
    exact Finset.mem_insert_of_mem (hs.places p hp)
  | copy j place =>
    obtain ⟨other, hj⟩ := exists_value? hposs.1
    obtain ⟨t, hcopied, ht, hhandles, hmemory⟩ := hs.shares.copied (List.mem_of_getElem? (value?_eq s j ▸ hj))
    refine ⟨t.push place other, ?_, Shares.push (by rwa [hhandles]) (fun o ho => ?_) fun o ho => ?_⟩
    · simp only [State.step, hj, hcopied, Option.bind_some, Option.map_some]
    · rw [hhandles] at ho
      exact hmemory ▸ hs.places o ho
    · exact hmemory ▸ hposs.2 o ho
  | move j place =>
    obtain ⟨other, hj⟩ := exists_value? hposs.1
    refine ⟨(s.put j {}).push place other, ?_, (hs.moved hj).push (hs.put_places {}) hposs.2⟩
    simp only [State.step, hj, Option.map_some]
  | copyAssign i j =>
    obtain ⟨other, hj⟩ := exists_value? hposs.2
    obtain ⟨this, hi⟩ := exists_value? hposs.1
    obtain ⟨t, hcopied, ht, hhandles, hmemory⟩ := hs.shares.copied (List.mem_of_getElem? (value?_eq s j ▸ hj))
    simp only [State.step, hj, hi, hcopied, Option.bind_some]
    refine Shares.assign (by rwa [hhandles]) (by rw [hhandles]; exact hs.fits_cons hfew other) (fun o ho => ?_) ?_
    · rw [hhandles] at ho
      exact hmemory ▸ hs.places o ho
    · rwa [value?, hhandles]
  | moveAssign i j =>
    obtain ⟨other, hj⟩ := exists_value? hposs.2
    have hlength : (s.put j {}).handles.length = s.handles.length := List.length_modify ..
    obtain ⟨this, hi⟩ := exists_value? (hlength.symm ▸ hposs.1)
    simp only [State.step, hj, hi, Option.bind_some]
    refine (hs.moved hj).assign ?_ (hs.put_places {}) hi
    rw [put_values, coe_set_cons (value?_eq s j ▸ hj)]
    exact hs.fits_cons hfew {}
  | swap i j =>
    obtain ⟨other, hj⟩ := exists_value? hposs.2
    obtain ⟨this, hi⟩ := exists_value? hposs.1
    refine ⟨(s.put i other).put j this, ?_, ?_, ?_⟩
    · simp only [State.step, hj, hi, Option.bind_some, Option.map_some]
    · rw [value?_eq] at hi hj
      have hj' : ((s.handles.map Handle.value).set i other)[j]? = some other := by
        by_cases hij : i = j
        · rw [hij, List.getElem?_set_self (by rw [List.length_map]; exact hposs.2)]
        · rw [List.getElem?_set_ne hij, hj]
      have hcoe : (((s.handles.map Handle.value).set i other).set j this : Multiset CountingPtr) =
          s.handles.map Handle.value := by
        rw [← Multiset.cons_inj_right other, coe_set_cons hj', coe_set_cons hi]
      rw [put_values, put_values, hcoe]
      exact hs.shares.with_handles _
    · rw [State.put_places]
      exact hs.put_places other
  | destroy i =>
    obtain ⟨this, hi⟩ := exists_value? hposs
    have hcons := coe_eraseIdx_cons (value?_eq s i ▸ hi)
    obtain ⟨t, hdrop, ht, hhandles, hmemory⟩ :=
      ((hcons.symm ▸ hs.shares).with_handles (s.handles.eraseIdx i)).drop (hcons.symm ▸ hs.fits hfew)
    refine ⟨t, ?_, ?_, fun o ho => ?_⟩
    · simp only [State.step, hi, Option.bind_some, hdrop]
    · rwa [hhandles, ← List.eraseIdx_map]
    · rw [hhandles] at ho
      rw [hmemory]
      exact hs.places o (((List.eraseIdx_sublist _ _).map _).subset ho)
  | collect order =>
    obtain ⟨t, hcollect, ht, -⟩ := hs.collect hfew hposs hkeep
    exact ⟨t, hcollect, ht⟩

theorem Inv.sound (hs : s.Inv) : s.Sound where
  unlocked := hs.shares.unlocked
  alive h hh hne :=
    ((hs.shares.kinds h.value (List.mem_map_of_mem hh)).resolve_left fun heq => hne (congrArg CountingPtr.ptr heq)).2
  counted h hh c hc := by
    have hmem : h.value ∈ (s.handles.map Handle.value : Multiset CountingPtr) := List.mem_map_of_mem hh
    rw [hs.shares.counted.eq_some hmem hc, hs.shares_eq hh hc]
  present := hs.shares.present
  gone := hs.shares.gone

lemma inv_empty : ({} : State).Inv where
  shares := ⟨⟨_, counted_zero, fun _ => rfl⟩, nofun, nofun, Finset.notMem_empty 0,
    fun o => iff_of_false (Finset.notMem_empty o) fun h =>
    Finset.notMem_empty o h.1, rfl, nofun, fun _ _ => rfl⟩
  places := nofun

lemma Inv.run (hs : s.Inv) (hfew : Along Few s ops) (hposs : Along Possible s ops) (hkeep : Along Keeps s ops) :
    ∃ t, ops.foldlM State.step s = some t ∧ t.Inv := by
  induction ops generalizing s with
  | nil => exact ⟨s, rfl, hs⟩
  | cons op ops ih =>
    obtain ⟨t, hstep, ht⟩ := hs.step hfew.1 hposs.1 hkeep.1
    rw [List.foldlM_cons, hstep]
    exact ih ht (hfew.2 t hstep) (hposs.2 t hstep) (hkeep.2 t hstep)

lemma Inv.collections (hs : s.Inv) (hfew : Along Few s collects) (hposs : Along Possible s collects)
    (hkeep : Along Keeps s collects)
    (hcollects : ∀ op ∈ collects, ∃ order, op = .collect order) : ∃ t, collects.foldlM State.step s = some t ∧ t.Inv ∧
      (collects ≠ [] → ∀ o ∈ t.memory, ∃ h ∈ t.handles, h.value.ptr = o) := by
  induction collects generalizing s with
  | nil => exact ⟨s, rfl, hs, fun h => absurd rfl h⟩
  | cons op collects ih =>
    obtain ⟨order, rfl⟩ := hcollects op List.mem_cons_self
    obtain ⟨t, hstep, ht, hheld⟩ := hs.collect hfew.1 hposs.1 hkeep.1
    obtain ⟨u, hfold, hu, hheld'⟩ := ih ht (hfew.2 t hstep) (hposs.2 t hstep) (hkeep.2 t hstep) fun op hop =>
      hcollects op (List.mem_cons_of_mem _ hop)
    refine ⟨u, ?_, hu, fun _ => ?_⟩
    · rw [List.foldlM_cons]
      exact (congrArg (· >>= _) hstep).trans hfold
    · by_cases hnil : collects = []
      · subst hnil
        obtain rfl := Option.some.inj hfold
        exact hheld
      · exact hheld' hnil

lemma along_append {P : State → Op → Prop} {ops' : List Op} (h : Along P s (ops ++ ops')) :
    Along P s ops ∧ ∀ t, ops.foldlM step s = some t → Along P t ops' := by
  induction ops generalizing s with
  | nil =>
    refine ⟨trivial, fun t ht => ?_⟩
    obtain rfl := Option.some.inj ht
    exact h
  | cons op ops ih =>
    refine ⟨⟨h.1, fun t ht => (ih (h.2 t ht)).1⟩, fun t ht => ?_⟩
    rw [List.foldlM_cons] at ht
    obtain ⟨u, hu, hfold⟩ := Option.bind_eq_some_iff.1 ht
    exact (ih (h.2 u hu)).2 t hfold

lemma few_of_length (h : s.handles.length < 2 ^ 32) : s.Few op := fun _ _ => List.countP_le_length.trans_lt h

def Acyclic (s : State) : Prop := ∀ o, ¬ Relation.TransGen s.Holds o o

lemma acyclic_of_lt (hlt : ∀ h ∈ s.handles, ∀ o ∈ h.place, h.value.ptr < o) : s.Acyclic := by
  intro o ho
  have hgt : Relation.TransGen (fun o p : Nat => p < o) o o :=
    Relation.TransGen.mono (fun o p ⟨h, hh, hplace, hptr⟩ => hptr ▸ hlt h hh o hplace) o o ho
  rw [Relation.transGen_eq_self] at hgt
  exact lt_irrefl o hgt

end State

end CppExperiments.Memory.Collector

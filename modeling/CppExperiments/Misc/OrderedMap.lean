import CppExperiments.Lib.InsertionOrder
import CppExperiments.Lib.Runs
import Mathlib.Logic.Function.Basic

/-!
# The ordered map

A list whose nodes have addresses, and beside it a hash map from keys to the iterators of the list.
-/

namespace CppExperiments.Misc

/-- A node of a list, which an iterator names by its address. -/
structure Node (κ ν : Type) where
  addr : Nat
  key : κ
  val : ν
  deriving DecidableEq

structure OrderedMap (κ ν : Type) where
  lookup : List (κ × Nat) := []
  data : List (Node κ ν) := []

/-- What an operation returns; `nullopt` also stands for no result. -/
inductive Result (ν : Type) where
  | nullopt
  | bool (b : Bool)
  | value (v : ν)
  | throws
  deriving DecidableEq

inductive Op (κ ν : Type) where
  | insert (key : κ) (value : ν)
  | emplace (key : κ) (value : ν)
  | erase (key : κ)
  | touch (key : κ)
  /-- `operator[]`, with what is written through the reference it returns -/
  | index (key : κ) (write : ν → ν)
  | extract (key : κ)

namespace OrderedMap

variable {κ ν : Type} [DecidableEq κ]

/-- `lookup.emplace`: a key that is there keeps its iterator. -/
def emplaceLookup (lookup : List (κ × Nat)) (key : κ) (it : Nat) : List (κ × Nat) :=
  if (InsertionOrder.find lookup key).isSome then lookup else lookup ++ [(key, it)]

/-- The iterator of a key, and none for the end. -/
def find (m : OrderedMap κ ν) (key : κ) : Option Nat := InsertionOrder.find m.lookup key

/-- The node of an iterator; `none` where it is none of this list. -/
def deref (m : OrderedMap κ ν) (it : Nat) : Option (Node κ ν) := m.data.find? fun n => n.addr = it

/-- `data.emplace_back` into a node at `next`, and `lookup.emplace`. -/
def append (m : OrderedMap κ ν) (next : Nat) (key : κ) (value : ν) : OrderedMap κ ν where
  lookup := emplaceLookup m.lookup key next
  data := m.data ++ [⟨next, key, value⟩]

/-- `it->second` is written. -/
def write (m : OrderedMap κ ν) (it : Nat) (f : ν → ν) : OrderedMap κ ν :=
  { m with data := m.data.map fun n => if n.addr = it then { n with val := f n.val } else n }

/-- `data.erase(it)` -/
def eraseNode (data : List (Node κ ν)) (it : Nat) : List (Node κ ν) := data.filter fun n => n.addr ≠ it

/-- `erase` of a key that was found. -/
def removeAt (m : OrderedMap κ ν) (key : κ) (it : Nat) : OrderedMap κ ν where
  lookup := InsertionOrder.remove m.lookup key
  data := eraseNode m.data it

/-- The map, the next free address and the result after an operation; `none` where an iterator is used that is not
valid. -/
def apply [Inhabited ν] (m : OrderedMap κ ν) (next : Nat) : Op κ ν → Option (OrderedMap κ ν × Nat × Result ν)
  | .insert key value =>
    match m.find key with
    | some it => (m.deref it).map fun _ => (m.write it fun _ => value, next, .nullopt)
    | none => some (m.append next key value, next + 1, .nullopt)
  | .emplace key value =>
    match m.find key with
    | some it => (m.deref it).map fun _ => ((m.removeAt key it).append next key value, next + 1, .value value)
    | none => some (m.append next key value, next + 1, .value value)
  | .erase key =>
    match m.find key with
    | some it => (m.deref it).map fun _ => (m.removeAt key it, next, .bool true)
    | none => some (m, next, .bool false)
  | .touch key =>
    match m.find key with
    | some it => (m.deref it).map fun n =>
      ({ lookup := InsertionOrder.set m.lookup key next
         data := eraseNode (m.data ++ [⟨next, key, n.val⟩]) it }, next + 1, .value n.val)
    | none => some (m, next, .throws)
  | .index key f =>
    match m.find key with
    | some it => (m.deref it).map fun n => (m.write it f, next, .value (f n.val))
    | none => some ((m.append next key default).write next f, next + 1, .value (f default))
  -- the iterator is read out of the node of `lookup` that was erased just before
  | .extract key => if (m.find key).isSome then none else some (m, next, .nullopt)

/-- The elements of another list written over the nodes of a list, and into new nodes behind them. -/
def assignNodes (next : Nat) : List (Node κ ν) → List (Node κ ν) → List (Node κ ν)
  | _, [] => []
  | [], n :: nodes => { n with addr := next } :: assignNodes (next + 1) [] nodes
  | old :: olds, n :: nodes => { n with addr := old.addr } :: assignNodes next olds nodes

/-- `lookup.emplace(it->first, it)` for every element. -/
def emplaceAll (lookup : List (κ × Nat)) (data : List (Node κ ν)) : List (κ × Nat) :=
  data.foldl (fun lookup n => emplaceLookup lookup n.key n.addr) lookup

/-- Copy assignment from another map, and with a map that has nothing the copy constructor. -/
def assign (m : OrderedMap κ ν) (next : Nat) (other : OrderedMap κ ν) : OrderedMap κ ν :=
  let data := assignNodes next m.data other.data
  { lookup := emplaceAll m.lookup data, data := data }

end OrderedMap

/-! ## Several maps -/

/-- The variables, and an address from which on all are free. -/
structure World (κ ν : Type) where
  maps : Nat → OrderedMap κ ν
  next : Nat

inductive Event (κ ν : Type) where
  | on (i : Nat) (op : Op κ ν)
  | copyConstruct (i j : Nat)
  | copyAssign (i j : Nat)
  | moveAssign (i j : Nat)

namespace World

variable {κ ν : Type} [DecidableEq κ]

def init : World κ ν := ⟨fun _ => {}, 0⟩

/-- `none` where the behaviour is undefined, or the library leaves it open. -/
def step [Inhabited ν] (w : World κ ν) : Event κ ν → Option (World κ ν × Result ν)
  | .on i op =>
    ((w.maps i).apply w.next op).map fun (m, next, result) => (⟨Function.update w.maps i m, next⟩, result)
  | .copyConstruct i j =>
    some (⟨Function.update w.maps i (OrderedMap.assign {} w.next (w.maps j)), w.next + (w.maps j).data.length⟩,
      .nullopt)
  | .copyAssign i j =>
    -- a list assigned to itself stays as it is
    let m := if i = j then { w.maps i with lookup := OrderedMap.emplaceAll (w.maps i).lookup (w.maps i).data }
      else (w.maps i).assign w.next (w.maps j)
    some (⟨Function.update w.maps i m, w.next + (w.maps j).data.length⟩, .nullopt)
  | .moveAssign i j =>
    if i = j then none else some (⟨Function.update (Function.update w.maps i (w.maps j)) j {}, w.next⟩, .nullopt)

end World

end CppExperiments.Misc

/-!
## The contents of ordered maps

A map whose iterators are those of its own elements does what a map in the order of insertion does, and stays such a
map.
-/

namespace CppExperiments.Misc

/-! ## The reference -/

namespace Reference

variable {κ ν : Type} [DecidableEq κ]

open InsertionOrder

def apply [Inhabited ν] (l : List (κ × ν)) : Op κ ν → List (κ × ν) × Result ν
  | .insert key value => (set l key value, .nullopt)
  | .emplace key value => (moveToEnd l key value, .value value)
  | .erase key => (remove l key, .bool (InsertionOrder.find l key).isSome)
  | .touch key =>
    match InsertionOrder.find l key with
    | some value => (moveToEnd l key value, .value value)
    | none => (l, .throws)
  | .index key f =>
    match InsertionOrder.find l key with
    | some value => (InsertionOrder.modify l key f, .value (f value))
    | none => (l ++ [(key, f default)], .value (f default))
  | .extract key =>
    match InsertionOrder.find l key with
    | some value => (remove l key, .value value)
    | none => (l, .nullopt)

/-- The variables after an event. What is moved from is empty. -/
def step [Inhabited ν] (maps : Nat → List (κ × ν)) : Event κ ν → (Nat → List (κ × ν)) × Result ν
  | .on i op => (Function.update maps i (apply (maps i) op).1, (apply (maps i) op).2)
  | .copyConstruct i j | .copyAssign i j => (Function.update maps i (maps j), .nullopt)
  | .moveAssign i j => (Function.update (Function.update maps i (maps j)) j [], .nullopt)

end Reference

namespace OrderedMap

open InsertionOrder

/-- The lookup has one iterator for every element, to the element of that key, and no other. -/
structure Good (m : OrderedMap κ ν) : Prop where
  addrs : (m.data.map Node.addr).Nodup
  keys : (m.data.map Node.key).Nodup
  distinct : Distinct m.lookup
  mem : ∀ key it, (key, it) ∈ m.lookup ↔ ∃ n ∈ m.data, n.key = key ∧ n.addr = it

lemma good_empty {κ ν : Type} : ({} : OrderedMap κ ν).Good := ⟨List.nodup_nil, List.nodup_nil, List.nodup_nil, by simp⟩

/-- The elements in their order. -/
def contents (m : OrderedMap κ ν) : List (κ × ν) := m.data.map fun n => (n.key, n.val)

variable {κ ν : Type} {m : OrderedMap κ ν} {key : κ} {it next : Nat} {n : Node κ ν} {f : ν → ν} {value : ν}

lemma map_fst_contents (m : OrderedMap κ ν) : m.contents.map Prod.fst = m.data.map Node.key := List.map_map

lemma Good.distinct_contents (h : m.Good) : Distinct m.contents := by
  rw [Distinct, map_fst_contents]
  exact h.keys

lemma map_addr_write (m : OrderedMap κ ν) (it : Nat) (f : ν → ν) :
    (m.write it f).data.map Node.addr = m.data.map Node.addr := by
  rw [write, List.map_map]
  refine List.map_congr_left fun n _ => ?_
  rw [Function.comp_apply]
  split <;> rfl

lemma map_key_write (m : OrderedMap κ ν) (it : Nat) (f : ν → ν) :
    (m.write it f).data.map Node.key = m.data.map Node.key := by
  rw [write, List.map_map]
  refine List.map_congr_left fun n _ => ?_
  rw [Function.comp_apply]
  split <;> rfl

lemma Good.write (h : m.Good) (it : Nat) (f : ν → ν) : (m.write it f).Good where
  addrs := by
    rw [map_addr_write]
    exact h.addrs
  keys := by
    rw [map_key_write]
    exact h.keys
  distinct := h.distinct
  mem := by
    intro key it'
    have hmap : ∀ n : Node κ ν, (if n.addr = it then { n with val := f n.val } else n).key = n.key ∧
        (if n.addr = it then { n with val := f n.val } else n).addr = n.addr := fun n => by split <;> exact ⟨rfl, rfl⟩
    rw [OrderedMap.write, h.mem]
    constructor
    · rintro ⟨n, hn, rfl, rfl⟩
      exact ⟨_, List.mem_map_of_mem hn, hmap n⟩
    · rintro ⟨n', hn', rfl, rfl⟩
      obtain ⟨n, hn, rfl⟩ := List.mem_map.1 hn'
      exact ⟨n, hn, (hmap n).1.symm, (hmap n).2.symm⟩

/-- The addresses of a map are below `next`. -/
def Below (next : Nat) (m : OrderedMap κ ν) : Prop := ∀ n ∈ m.data, n.addr < next

/-- Every element has an address of `m` or a new one. -/
def From (m : OrderedMap κ ν) (next : Nat) (m' : OrderedMap κ ν) : Prop :=
  ∀ n ∈ m'.data, n.addr ∈ m.data.map Node.addr ∨ next ≤ n.addr

lemma Below.notMem (h : Below next m) : next ∉ m.data.map Node.addr := by
  intro hmem
  obtain ⟨n, hn, haddr⟩ := List.mem_map.1 hmem
  exact absurd (h n hn) (by omega)

lemma Below.write (h : Below next m) (it : Nat) (f : ν → ν) : Below next (m.write it f) := by
  intro n hn
  obtain ⟨n', hn', haddr⟩ := List.mem_map.1 (map_addr_write m it f ▸ List.mem_map_of_mem hn)
  exact haddr ▸ h n' hn'

lemma from_write (m : OrderedMap κ ν) (next it : Nat) (f : ν → ν) : From m next (m.write it f) := fun _ hn =>
  .inl (map_addr_write m it f ▸ List.mem_map_of_mem hn)

lemma From.trans {m' m'' : OrderedMap κ ν} (h : From m next m') (h' : From m' next m'') : From m next m'' := by
  intro n hn
  rcases h' n hn with hmem | hle
  · obtain ⟨n', hn', haddr⟩ := List.mem_map.1 hmem
    exact haddr ▸ h n' hn'
  · exact .inr hle

lemma Good.deref_of_mem (h : m.Good) (hn : n ∈ m.data) : m.deref n.addr = some n := by
  cases hderef : m.deref n.addr with
  | none =>
    have hnot := List.find?_eq_none.1 hderef n hn
    exact absurd (decide_eq_true rfl) hnot
  | some n' =>
    have haddr : n'.addr = n.addr := by simpa using List.find?_some hderef
    rw [List.inj_on_of_nodup_map h.addrs (List.mem_of_find?_eq_some hderef) hn haddr]

variable [DecidableEq κ]

lemma Good.find_eq_none_iff (h : m.Good) : m.find key = none ↔ key ∉ m.data.map Node.key := by
  rw [OrderedMap.find, InsertionOrder.find_eq_none_iff, not_iff_not, List.mem_map, List.mem_map]
  constructor
  · rintro ⟨⟨_, it⟩, hmem, rfl⟩
    obtain ⟨n, hn, hkey, -⟩ := (h.mem _ _).1 hmem
    exact ⟨n, hn, hkey⟩
  · rintro ⟨n, hn, rfl⟩
    exact ⟨(n.key, n.addr), (h.mem _ _).2 ⟨n, hn, rfl, rfl⟩, rfl⟩

/-- The iterator that is found is that of the element. -/
lemma Good.exists_node (h : m.Good) (hfind : m.find key = some it) :
    ∃ n ∈ m.data, n.key = key ∧ n.addr = it ∧ m.deref it = some n ∧ InsertionOrder.find m.contents key =
      some n.val := by
  obtain ⟨n, hn, rfl, rfl⟩ := (h.mem _ _).1 (mem_of_find hfind)
  exact ⟨n, hn, rfl, rfl, h.deref_of_mem hn, h.distinct_contents.find_eq_some_iff.2 (List.mem_map_of_mem hn)⟩

/-! ## Single changes -/

lemma contents_write (hn : n ∈ m.data) (haddrs : (m.data.map Node.addr).Nodup) (hkeys : (m.data.map Node.key).Nodup) :
    (m.write n.addr f).contents = InsertionOrder.modify m.contents n.key f := by
  rw [contents, contents, write, InsertionOrder.modify, List.map_map, List.map_map]
  refine List.map_congr_left fun n' hn' => ?_
  rw [Function.comp_apply, Function.comp_apply]
  by_cases haddr : n'.addr = n.addr
  · obtain rfl := List.inj_on_of_nodup_map haddrs hn' hn haddr
    rw [if_pos rfl, if_pos rfl]
  · have hkey : n'.key ≠ n.key := fun hkey => haddr (by rw [List.inj_on_of_nodup_map hkeys hn' hn hkey])
    rw [if_neg haddr, if_neg hkey]

lemma Good.eraseNode_eq (h : m.Good) (hn : n ∈ m.data) :
    eraseNode m.data n.addr = m.data.filter fun n' => n'.key ≠ n.key := by
  refine List.filter_congr fun n' hn' => ?_
  rw [decide_eq_decide, not_iff_not]
  constructor
  · intro haddr
    rw [List.inj_on_of_nodup_map h.addrs hn' hn haddr]
  · intro hkey
    rw [List.inj_on_of_nodup_map h.keys hn' hn hkey]

lemma Good.contents_removeAt (h : m.Good) (hn : n ∈ m.data) :
    (m.removeAt n.key n.addr).contents = remove m.contents n.key := by
  rw [contents, removeAt]
  dsimp only
  rw [h.eraseNode_eq hn, contents, remove, List.filter_map]
  rfl

lemma Good.removeAt (h : m.Good) (hn : n ∈ m.data) : (m.removeAt n.key n.addr).Good where
  addrs := h.addrs.sublist (List.filter_sublist.map _)
  keys := h.keys.sublist (List.filter_sublist.map _)
  distinct := h.distinct.remove _
  mem := by
    intro key it
    rw [OrderedMap.removeAt, h.eraseNode_eq hn]
    dsimp only
    rw [mem_remove, h.mem]
    simp only [List.mem_filter, decide_eq_true_eq]
    constructor
    · rintro ⟨⟨n', hn', rfl, rfl⟩, hne⟩
      exact ⟨n', ⟨hn', hne⟩, rfl, rfl⟩
    · rintro ⟨n', ⟨hn', hne⟩, rfl, rfl⟩
      exact ⟨⟨n', hn', rfl, rfl⟩, hne⟩

lemma Good.notMem_lookup (h : m.Good) (hkey : key ∉ m.data.map Node.key) : key ∉ m.lookup.map Prod.fst := by
  rw [← InsertionOrder.find_eq_none_iff]
  exact h.find_eq_none_iff.2 hkey

lemma contents_append (m : OrderedMap κ ν) (next : Nat) (key : κ) (value : ν) :
    (m.append next key value).contents = m.contents ++ [(key, value)] := by
  rw [contents, append, List.map_append]
  rfl

lemma Good.append (h : m.Good) (hkey : key ∉ m.data.map Node.key) (hnext : next ∉ m.data.map Node.addr) (value : ν) :
    (m.append next key value).Good where
  addrs := by
    rw [OrderedMap.append, List.map_append]
    refine List.nodup_append.2 ⟨h.addrs, List.nodup_singleton _, fun a ha b hb heq => ?_⟩
    obtain rfl := List.mem_singleton.1 hb
    exact hnext (heq ▸ ha)
  keys := by
    rw [OrderedMap.append, List.map_append]
    refine List.nodup_append.2 ⟨h.keys, List.nodup_singleton _, fun a ha b hb heq => ?_⟩
    obtain rfl := List.mem_singleton.1 hb
    exact hkey (heq ▸ ha)
  distinct := by
    rw [OrderedMap.append, emplaceLookup, if_neg fun hsome => h.notMem_lookup hkey (isSome_find_iff.1 hsome)]
    exact h.distinct.append_new (h.notMem_lookup hkey) _
  mem := by
    intro key' it
    rw [OrderedMap.append, emplaceLookup, if_neg fun hsome => h.notMem_lookup hkey (isSome_find_iff.1 hsome)]
    simp only [List.mem_append, List.mem_singleton, or_and_right, exists_or, exists_eq_left, Prod.mk.injEq]
    exact or_congr (h.mem key' it) ⟨fun heq => ⟨heq.1.symm, heq.2.symm⟩, fun heq => ⟨heq.1.symm, heq.2.symm⟩⟩

/-! ## Operations -/

lemma Good.find_contents_eq_none (h : m.Good) (hfind : m.find key = none) :
    InsertionOrder.find m.contents key = none := by
  rw [InsertionOrder.find_eq_none_iff, map_fst_contents]
  exact h.find_eq_none_iff.1 hfind

lemma Below.append (h : Below next m) (key : κ) (value : ν) : Below (next + 1) (m.append next key value) := by
  intro n hn
  rcases List.mem_append.1 hn with hn | hn
  · exact Nat.lt_succ_of_lt (h n hn)
  · obtain rfl := List.mem_singleton.1 hn
    exact Nat.lt_succ_self _

lemma from_append (m : OrderedMap κ ν) (next : Nat) (key : κ) (value : ν) : From m next (m.append next key value) := by
  intro n hn
  rcases List.mem_append.1 hn with hn | hn
  · exact .inl (List.mem_map_of_mem hn)
  · obtain rfl := List.mem_singleton.1 hn
    exact .inr (Nat.le_refl _)

lemma Below.removeAt (h : Below next m) (key : κ) (it : Nat) : Below next (m.removeAt key it) :=
  fun n hn => h n (List.mem_filter.1 hn).1

lemma from_removeAt (m : OrderedMap κ ν) (next : Nat) (key : κ) (it : Nat) : From m next (m.removeAt key it) :=
  fun _ hn => .inl (List.mem_map_of_mem (List.mem_filter.1 hn).1)

lemma Good.notMem_removeAt (h : m.Good) (hn : n ∈ m.data) : n.key ∉ (m.removeAt n.key n.addr).data.map Node.key := by
  rw [OrderedMap.removeAt, h.eraseNode_eq hn]
  intro hmem
  obtain ⟨n', hn', hkey⟩ := List.mem_map.1 hmem
  exact of_decide_eq_true (List.mem_filter.1 hn').2 hkey

/-- A key that is not there goes to the end. -/
lemma refines_append (h : m.Good) (hbelow : Below next m) (hfind : m.find key = none) (value : ν) :
    (m.append next key value).Good ∧ (m.append next key value).contents = InsertionOrder.set m.contents key value ∧
      (m.append next key value).contents = moveToEnd m.contents key value := by
  have hkey := h.find_eq_none_iff.1 hfind
  have hcontents : key ∉ m.contents.map Prod.fst := by rwa [map_fst_contents]
  refine ⟨h.append hkey hbelow.notMem value, ?_, ?_⟩
  · rw [contents_append, set_of_notMem hcontents]
  · rw [contents_append, moveToEnd_of_notMem hcontents]

/-- The iterator of a key is set where the key is. -/
lemma set_lookup (h : m.Good) (hn : n ∈ m.data) (next : Nat) :
    Distinct (InsertionOrder.set m.lookup n.key next) ∧
      ∀ key it, (key, it) ∈ InsertionOrder.set m.lookup n.key next ↔
        (key ≠ n.key ∧ (key, it) ∈ m.lookup) ∨ (key = n.key ∧ it = next) := by
  have hmem : (n.key, n.addr) ∈ m.lookup := (h.mem _ _).2 ⟨n, hn, rfl, rfl⟩
  rw [set_of_mem (List.mem_map_of_mem hmem)]
  refine ⟨by rw [Distinct, map_fst_modify]; exact h.distinct, fun key it => ?_⟩
  rw [mem_modify]
  refine or_congr_right (and_congr_right fun _ => ⟨?_, fun heq => ⟨_, hmem, heq⟩⟩)
  rintro ⟨_, _, heq⟩
  exact heq

variable [Inhabited ν]

/-- What an operation does well: the map is good again, its addresses are its own or new, and contents and result are
those of the reference. -/
structure Refines (m : OrderedMap κ ν) (next : Nat) (op : Op κ ν) (m' : OrderedMap κ ν) (next' : Nat) : Prop where
  apply : m.apply next op = some (m', next', (Reference.apply m.contents op).2)
  good : m'.Good
  contents : m'.contents = (Reference.apply m.contents op).1
  below : Below next' m'
  le : next ≤ next'
  addrs : From m next m'

lemma exists_insert (h : m.Good) (hbelow : Below next m) (key : κ) (value : ν) :
    ∃ m' next', Refines m next (.insert key value) m' next' := by
  cases hfind : m.find key with
  | none =>
    obtain ⟨hgood, hset, -⟩ := refines_append h hbelow hfind value
    exact ⟨_, _, by rw [apply, hfind]; rfl, hgood, hset, hbelow.append _ _, Nat.le_succ _, from_append _ _ _ _⟩
  | some it =>
    obtain ⟨n, hn, rfl, rfl, hderef, hvalue⟩ := h.exists_node hfind
    refine ⟨_, _, by rw [apply, hfind]; dsimp only; rw [hderef]; rfl, h.write _ _, ?_, hbelow.write _ _, Nat.le_refl _,
      from_write _ _ _ _⟩
    rw [contents_write hn h.addrs h.keys, Reference.apply, set_of_mem]
    rw [map_fst_contents]
    exact List.mem_map_of_mem hn

lemma exists_emplace (h : m.Good) (hbelow : Below next m) (key : κ) (value : ν) :
    ∃ m' next', Refines m next (.emplace key value) m' next' := by
  cases hfind : m.find key with
  | none =>
    obtain ⟨hgood, -, hmove⟩ := refines_append h hbelow hfind value
    exact ⟨_, _, by rw [apply, hfind]; rfl, hgood, hmove, hbelow.append _ _, Nat.le_succ _, from_append _ _ _ _⟩
  | some it =>
    obtain ⟨n, hn, rfl, rfl, hderef, hvalue⟩ := h.exists_node hfind
    have hnone := (h.removeAt hn).find_eq_none_iff.2 (h.notMem_removeAt hn)
    obtain ⟨hgood, -, -⟩ := refines_append (h.removeAt hn) (hbelow.removeAt _ _) hnone value
    refine ⟨_, _, by rw [apply, hfind]; dsimp only; rw [hderef]; rfl, hgood, ?_, (hbelow.removeAt _
      _).append _ _, Nat.le_succ _,
      (from_removeAt _ _ _ _).trans (from_append _ _ _ _)⟩
    rw [contents_append, h.contents_removeAt hn]
    rfl

lemma exists_erase (h : m.Good) (hbelow : Below next m) (key : κ) :
    ∃ m' next', Refines m next (.erase key) m' next' := by
  cases hfind : m.find key with
  | none =>
    have hnone := h.find_contents_eq_none hfind
    refine ⟨m, next, ?_, h, ?_, hbelow, Nat.le_refl _, fun n hn => .inl (List.mem_map_of_mem hn)⟩
    · rw [apply, hfind, Reference.apply, hnone]
      rfl
    · rw [Reference.apply, remove_of_notMem (InsertionOrder.find_eq_none_iff.1 hnone)]
  | some it =>
    obtain ⟨n, hn, rfl, rfl, hderef, hvalue⟩ := h.exists_node hfind
    refine ⟨_, _, ?_, h.removeAt hn, h.contents_removeAt hn, hbelow.removeAt _ _, Nat.le_refl _, from_removeAt _ _ _ _⟩
    rw [apply, hfind]
    dsimp only
    rw [hderef, Reference.apply, hvalue]
    rfl

lemma exists_index (h : m.Good) (hbelow : Below next m) (key : κ) (f : ν → ν) :
    ∃ m' next', Refines m next (.index key f) m' next' := by
  cases hfind : m.find key with
  | none =>
    have hnone := h.find_contents_eq_none hfind
    obtain ⟨hgood, -, -⟩ := refines_append h hbelow hfind default
    have hnew : (⟨next, key, default⟩ : Node κ ν) ∈ (m.append next key default).data :=
      List.mem_append_right _ (List.mem_singleton_self _)
    refine ⟨(m.append next key default).write next f, next + 1, ?_, hgood.write next f, ?_,
      (hbelow.append _ _).write _ _,
      Nat.le_succ _, (from_append _ _ _ _).trans (from_write _ _ _ _)⟩
    · rw [apply, hfind, Reference.apply, hnone]
    · rw [Reference.apply, hnone]
      refine (contents_write hnew hgood.addrs hgood.keys).trans ?_
      rw [contents_append, modify_append_new (InsertionOrder.find_eq_none_iff.1 hnone)]
  | some it =>
    obtain ⟨n, hn, rfl, rfl, hderef, hvalue⟩ := h.exists_node hfind
    refine ⟨m.write n.addr f, next, ?_, h.write _ _, ?_, hbelow.write _ _, Nat.le_refl _, from_write _ _ _ _⟩
    · rw [apply, hfind]
      dsimp only
      rw [hderef, Reference.apply, hvalue]
      rfl
    · rw [contents_write hn h.addrs h.keys, Reference.apply, hvalue]

lemma exists_touch (h : m.Good) (hbelow : Below next m) (key : κ) :
    ∃ m' next', Refines m next (.touch key) m' next' := by
  cases hfind : m.find key with
  | none =>
    have hnone := h.find_contents_eq_none hfind
    refine ⟨m, next, ?_, h, ?_, hbelow, Nat.le_refl _, fun n hn => .inl (List.mem_map_of_mem hn)⟩
    · rw [apply, hfind, Reference.apply, hnone]
    · rw [Reference.apply, hnone]
  | some it =>
    obtain ⟨n, hn, rfl, rfl, hderef, hvalue⟩ := h.exists_node hfind
    have hnone := (h.removeAt hn).find_eq_none_iff.2 (h.notMem_removeAt hn)
    obtain ⟨hgood, -, -⟩ := refines_append (h.removeAt hn) (hbelow.removeAt _ _) hnone n.val
    have hne : next ≠ n.addr := fun heq => absurd (hbelow n hn) (by omega)
    -- the new node stands behind the others, as if it came after the old one was erased
    have hdata : eraseNode (m.data ++ [⟨next, n.key, n.val⟩]) n.addr =
        ((m.removeAt n.key n.addr).append next n.key n.val).data := by
      have hlast : [(⟨next, n.key, n.val⟩ : Node κ ν)].filter (fun n' => n'.addr ≠ n.addr) = [⟨next, n.key, n.val⟩] :=
        List.filter_cons_of_pos (decide_eq_true hne)
      rw [eraseNode, List.filter_append, hlast]
      rfl
    obtain ⟨hdistinct, hmem⟩ := set_lookup h hn next
    refine ⟨⟨InsertionOrder.set m.lookup n.key next, eraseNode (m.data ++ [⟨next, n.key, n.val⟩]) n.addr⟩, next + 1, ?_,
      ⟨?_, ?_, hdistinct, fun key it => ?_⟩, ?_, ?_, Nat.le_succ _, ?_⟩
    · rw [apply, hfind]
      dsimp only
      rw [hderef, Reference.apply, hvalue]
      rfl
    · rw [hdata]
      exact hgood.addrs
    · rw [hdata]
      exact hgood.keys
    · have hlookup : ((m.removeAt n.key n.addr).append next n.key n.val).lookup =
        remove m.lookup n.key ++ [(n.key, next)] :=
        if_neg fun hsome => (h.removeAt hn).notMem_lookup (h.notMem_removeAt hn) (isSome_find_iff.1 hsome)
      rw [hmem, hdata, ← hgood.mem, hlookup, List.mem_append, mem_remove, List.mem_singleton, Prod.mk.injEq, and_comm]
    · rw [OrderedMap.contents, hdata, Reference.apply, hvalue]
      refine (contents_append _ _ _ _).trans ?_
      rw [h.contents_removeAt hn]
      rfl
    · rw [Below, hdata]
      exact (hbelow.removeAt _ _).append _ _
    · rw [From, hdata]
      exact (from_removeAt _ _ _ _).trans (from_append _ _ _ _)

/-- No operation but the extraction of a key that is there goes wrong. -/
def Safe (m : OrderedMap κ ν) : Op κ ν → Prop
  | .extract key => m.find key = none
  | _ => True

instance decidableSafe (m : OrderedMap κ ν) : ∀ op, Decidable (m.Safe op)
  | .extract key => inferInstanceAs (Decidable (m.find key = none))
  | .insert _ _ | .emplace _ _ | .erase _ | .touch _ | .index _ _ => isTrue trivial

/-- One operation. -/
theorem exists_apply (h : m.Good) (hbelow : Below next m) {op : Op κ ν} (hop : m.Safe op) :
    ∃ m' next', Refines m next op m' next' := by
  cases op with
  | insert key value => exact exists_insert h hbelow key value
  | emplace key value => exact exists_emplace h hbelow key value
  | erase key => exact exists_erase h hbelow key
  | touch key => exact exists_touch h hbelow key
  | index key f => exact exists_index h hbelow key f
  | extract key =>
    have hfind : m.find key = none := hop
    have hnone := h.find_contents_eq_none hfind
    refine ⟨m, next, ?_, h, ?_, hbelow, Nat.le_refl _, fun n hn => .inl (List.mem_map_of_mem hn)⟩
    · rw [apply, hfind, Reference.apply, hnone]
      rfl
    · rw [Reference.apply, hnone]

end OrderedMap

end CppExperiments.Misc

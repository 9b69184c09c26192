import CppExperiments.Lib.Linked
import Mathlib.Data.Fintype.Card
import Mathlib.Data.Set.Card
import Mathlib.Logic.Function.Basic

/-!
# The forward list

Lists of nodes in a heap that an allocator hands out. An operation returns, or it throws where the allocator has no
memory left; where it follows a null pointer, or touches or frees a node that is not allocated, there is no result.
-/

namespace CppExperiments.Memory

/-- The addresses of a 64-bit machine without the null pointer. -/
abbrev Address := Fin (2 ^ 64 - 1)

abbrev Node (T : Type) := Linked.Node Address T

/-- What the allocator was asked for, in order. -/
inductive Event where
  | allocate (addr : Address)
  | refuse
  | deallocate (addr : Address)
  deriving DecidableEq

structure Heap (T : Type) where
  nodes : Address → Option (Node T) := fun _ => none
  events : List Event := []

/-- What the allocator answers may depend on all that happened; it hands out no address that is in use. -/
structure Allocator (T : Type) where
  grant : Heap T → Option Address
  fresh : ∀ m a, grant m = some a → m.nodes a = none

variable {T ι γ : Type}

namespace Heap

/-- `allocate`; `none` where `std::bad_alloc` is thrown. -/
def allocate (alloc : Allocator T) (m : Heap T) : Option Address × Heap T :=
  match alloc.grant m with
  | none => (none, { m with events := m.events ++ [.refuse] })
  | some a => (some a, { m with events := m.events ++ [.allocate a] })

def construct (m : Heap T) (a : Address) (value : T) : Heap T :=
  { m with nodes := Function.update m.nodes a (some ⟨value, none⟩) }

/-- `destroy` and `deallocate` -/
def deallocate (m : Heap T) (a : Address) : Option (Heap T) :=
  (m.nodes a).map fun _ => ⟨Function.update m.nodes a none, m.events ++ [.deallocate a]⟩

/-- `ptr->next` of a pointer that may be null. -/
def next (m : Heap T) (ptr : Option Address) : Option (Option Address) :=
  (ptr.bind m.nodes).map (·.next)

/-- `node->next` is written. -/
def setNext (m : Heap T) (node : Address) (next : Option Address) : Option (Heap T) :=
  (m.nodes node).map fun n => { m with nodes := Function.update m.nodes node (some { n with next := next }) }

lemma ncard_deallocate {m m' : Heap T} {a : Address} (hm : m.deallocate a = some m') :
    {b | m'.nodes b ≠ none}.ncard < {b | m.nodes b ≠ none}.ncard := by
  obtain ⟨n, hn, rfl⟩ := Option.map_eq_some_iff.1 hm
  refine Set.ncard_lt_ncard (Set.ssubset_iff_exists.2 ⟨fun b hb => ?_, a, ?_, ?_⟩) (Set.toFinite _)
  · change Function.update m.nodes a none b ≠ none at hb
    by_cases hab : b = a
    · rw [hab, Function.update_self] at hb
      exact absurd rfl hb
    · rwa [Function.update_of_ne hab] at hb
  · change m.nodes a ≠ none
    rw [hn]
    exact Option.some_ne_none n
  · exact fun hne => hne (Function.update_self _ _ _)

end Heap

structure ForwardList where
  head : Option Address := none
  nElems : UInt64 := 0
  deriving DecidableEq

/-- How an operation ends that does not fault. -/
inductive Outcome (α : Type) where
  | returns (a : α)
  | throws
  deriving DecidableEq

/-- An input iterator into what a constructor copies. -/
structure InputIterator (T γ : Type) where
  atEnd : γ → Bool
  deref : Heap T → γ → Option T
  advance : Heap T → γ → Option γ

/-- An iterator of an initializer list, by what it has in front of it. -/
def valueIterator : InputIterator T (List T) where
  atEnd := List.isEmpty
  deref _ values := values.head?
  advance _ values := values.tail?

/-- An iterator of a list, by its pointer; that of `end()` is null. -/
def listIterator : InputIterator T (Option Address) where
  atEnd := Option.isNone
  deref m curr := (curr.bind m.nodes).map (·.value)
  advance := Heap.next

/-- The next node is hung behind the tail, and the iterator goes on. -/
def InputIterator.linkNext (it : InputIterator T γ) (m : Heap T) (tail a : Address) (curr : γ) :
    Option (Heap T × γ) := do
  let m ← m.setNext tail (some a)
  let value ← it.deref m curr
  let m := m.construct a value
  let curr ← it.advance m curr
  return (m, curr)

lemma InputIterator.ncard_linkNext {it : InputIterator T γ} {m m' : Heap T} {tail a : Address} {curr curr' : γ}
    (ha : m.nodes a = none) (hm : it.linkNext m tail a curr = some (m', curr')) :
    {b | m'.nodes b = none}.ncard < {b | m.nodes b = none}.ncard := by
  obtain ⟨m₁, hm₁, hm⟩ := Option.bind_eq_some_iff.1 hm
  obtain ⟨value, -, hm⟩ := Option.bind_eq_some_iff.1 hm
  obtain ⟨c, -, hm⟩ := Option.bind_eq_some_iff.1 hm
  obtain ⟨rfl, -⟩ := Prod.mk.inj (Option.some.inj hm)
  obtain ⟨n, hn, rfl⟩ := Option.map_eq_some_iff.1 hm₁
  refine Set.ncard_lt_ncard (Set.ssubset_iff_exists.2 ⟨fun b hb => ?_, a, ha, fun hnone => ?_⟩) (Set.toFinite _)
  · change Function.update (Function.update m.nodes tail _) a _ b = none at hb
    by_cases hba : b = a
    · rw [hba]
      exact ha
    · rw [Function.update_of_ne hba] at hb
      by_cases hbt : b = tail
      · rw [hbt, Function.update_self] at hb
        exact absurd hb (Option.some_ne_none _)
      · rwa [Function.update_of_ne hbt] at hb
  · change Function.update (Function.update m.nodes tail _) a _ a = none at hnone
    rw [Function.update_self] at hnone
    exact Option.some_ne_none _ hnone

namespace ForwardList

/-- The loop of `clear`, which goes on while there is a head. -/
def clearLoop (m : Heap T) : Option Address → Option (Heap T)
  | none => some m
  | some head => do
    let next ← m.next (some head)
    match _hm : m.deallocate head with
    | none => none
    | some m => clearLoop m next
termination_by {a | m.nodes a ≠ none}.ncard
decreasing_by exact Heap.ncard_deallocate _hm

def clear (m : Heap T) (l : ForwardList) : Option (ForwardList × Heap T) :=
  (clearLoop m l.head).map fun m => ({}, m)

/-- The loop of the constructor, which ends with what was built cleared where the allocator refuses. -/
def appendLoop (alloc : Allocator T) (it : InputIterator T γ) (m : Heap T) (l : ForwardList) (tail : Address)
    (curr : γ) : Option (Outcome ForwardList × Heap T) :=
  if it.atEnd curr then some (.returns l, m)
  else
    match _ha : m.allocate alloc with
    | (none, m) => (clear m l).map fun (_, m) => (.throws, m)
    | (some a, m₁) =>
      match _hm : it.linkNext m₁ tail a curr with
      | none => none
      | some (m₂, curr) => appendLoop alloc it m₂ { l with nElems := l.nElems + 1 } a curr
termination_by {a | m.nodes a = none}.ncard
decreasing_by
  have hgrant := _ha
  unfold Heap.allocate at hgrant
  split at hgrant
  · exact absurd (congrArg Prod.fst hgrant).symm (Option.some_ne_none a)
  · rename_i b hb
    obtain ⟨hab, rfl⟩ := Prod.mk.inj hgrant
    obtain rfl := Option.some.inj hab
    have hfresh := alloc.fresh _ _ hb
    have hlt := InputIterator.ncard_linkNext (by exact hfresh) _hm
    exact hlt

/-- The constructor from two iterators. -/
def fromIterators (alloc : Allocator T) (it : InputIterator T γ) (m : Heap T) (b : γ) :
    Option (Outcome ForwardList × Heap T) :=
  if it.atEnd b then some (.returns {}, m)
  else
    match m.allocate alloc with
    | (none, m) => (clear m {}).map fun (_, m) => (.throws, m)
    | (some a, m) => do
      let value ← it.deref m b
      let m := m.construct a value
      let b ← it.advance m b
      appendLoop alloc it m ⟨some a, 1⟩ a b

/-- The copy constructor. -/
def copy (alloc : Allocator T) (m : Heap T) (other : ForwardList) : Option (Outcome ForwardList × Heap T) :=
  fromIterators alloc listIterator m other.head

/-- The new list of the move constructor, and what is left of the other. -/
def move (other : ForwardList) : ForwardList × ForwardList := (other, {})

def pushFront (alloc : Allocator T) (m : Heap T) (l : ForwardList) (value : T) :
    Option (Outcome ForwardList × Heap T) :=
  match m.allocate alloc with
  | (none, m) => some (.throws, m)
  | (some node, m) => do
    let m ← (m.construct node value).setNext node l.head
    return (.returns ⟨some node, l.nElems + 1⟩, m)

def popFront (m : Heap T) (l : ForwardList) : Option (ForwardList × Heap T) :=
  match l.head with
  | none => some (l, m)
  | some node => do
    let next ← m.next (some node)
    let m ← m.deallocate node
    return (⟨next, l.nElems - 1⟩, m)

/-- The list and the iterator that `insert_after` returns. -/
def insertAfter (alloc : Allocator T) (m : Heap T) (l : ForwardList) (pos : Option Address) (value : T) :
    Option (Outcome (ForwardList × Option Address) × Heap T) :=
  match m.allocate alloc with
  | (none, m) => some (.throws, m)
  | (some node, m) => do
    let m := m.construct node value
    let curr ← pos
    let next ← m.next (some curr)
    let m ← m.setNext curr (some node)
    let m ← m.setNext node next
    return (.returns ({ l with nElems := l.nElems + 1 }, some node), m)

/-- The list and the iterator that `erase_after` returns. -/
def eraseAfter (m : Heap T) (l : ForwardList) (pos : Option Address) :
    Option ((ForwardList × Option Address) × Heap T) :=
  match pos with
  | none => some ((l, none), m)
  | some node => do
    match ← m.next (some node) with
    | none => return ((l, none), m)
    | some toDel =>
      let next ← m.next (some toDel)
      let m ← m.setNext node next
      let m ← m.deallocate toDel
      return (({ l with nElems := l.nElems - 1 }, next), m)

end ForwardList

/-! ## Several lists -/

/-- The heap and the variables, with `none` for one that is not constructed. -/
structure State (ι T : Type) where
  heap : Heap T := {}
  lists : ι → Option ForwardList := fun _ => none

/-- A position is given by how often the iterator of `begin()` is incremented for it. -/
inductive Op (ι T : Type) where
  | construct (i : ι)
  | constructFrom (i : ι) (values : List T)
  | copyConstruct (i other : ι)
  | moveConstruct (i other : ι)
  | destroy (i : ι)
  | pushFront (i : ι) (value : T)
  | popFront (i : ι)
  | insertAfter (i : ι) (pos : Nat) (value : T)
  | eraseAfter (i : ι) (pos : Nat)
  | clear (i : ι)
  | copyAssign (i other : ι)
  | moveAssign (i other : ι)
  | swap (i j : ι)

/-- `std::next` -/
def iteratorAt (m : Heap T) : Nat → Option Address → Option (Option Address)
  | 0, curr => some curr
  | n + 1, curr => (m.next curr).bind (iteratorAt m n)

namespace State

variable [DecidableEq ι]

def set (s : State ι T) (i : ι) (l : Option ForwardList) : State ι T :=
  { s with lists := Function.update s.lists i l }

/-- The heap and the variable after an operation on one list; an operation that throws leaves the variable. -/
def finish (s : State ι T) (i : ι) : Outcome ForwardList × Heap T → State ι T × Outcome Unit
  | (.returns l, m) => (({ s with heap := m } : State ι T).set i (some l), .returns ())
  | (.throws, m) => ({ s with heap := m }, .throws)

/-- A constructor is called on a variable that is not constructed. -/
def unconstructed (s : State ι T) (i : ι) : Option Unit := if (s.lists i).isNone then some () else none

def step (alloc : Allocator T) (s : State ι T) : Op ι T → Option (State ι T × Outcome Unit)
  | .construct i => do
    s.unconstructed i
    return s.finish i (.returns {}, s.heap)
  | .constructFrom i values => do
    s.unconstructed i
    return s.finish i (← ForwardList.fromIterators alloc valueIterator s.heap values)
  | .copyConstruct i other => do
    s.unconstructed i
    let other ← s.lists other
    return s.finish i (← ForwardList.copy alloc s.heap other)
  | .moveConstruct i other => do
    s.unconstructed i
    let (l, rest) := ForwardList.move (← s.lists other)
    return ((s.set other (some rest)).set i (some l), .returns ())
  | .destroy i => do
    let (_, m) ← (← s.lists i).clear s.heap
    return (({ s with heap := m } : State ι T).set i none, .returns ())
  | .pushFront i value => do
    return s.finish i (← (← s.lists i).pushFront alloc s.heap value)
  | .popFront i => do
    let (l, m) ← (← s.lists i).popFront s.heap
    return s.finish i (.returns l, m)
  | .insertAfter i pos value => do
    let l ← s.lists i
    let pos ← iteratorAt s.heap pos l.head
    match ← l.insertAfter alloc s.heap pos value with
    | (.returns (l, _), m) => return s.finish i (.returns l, m)
    | (.throws, m) => return s.finish i (.throws, m)
  | .eraseAfter i pos => do
    let l ← s.lists i
    let pos ← iteratorAt s.heap pos l.head
    let ((l, _), m) ← l.eraseAfter s.heap pos
    return s.finish i (.returns l, m)
  | .clear i => do
    let (l, m) ← (← s.lists i).clear s.heap
    return s.finish i (.returns l, m)
  -- a temporary copy takes the place of the list, and is destroyed with what the list had
  | .copyAssign i other => do
    let l ← s.lists i
    match ← ForwardList.copy alloc s.heap (← s.lists other) with
    | (.throws, m) => return s.finish i (.throws, m)
    | (.returns temp, m) =>
      let (_, m) ← l.clear m
      return s.finish i (.returns temp, m)
  -- `*this` is read after the temporary list is made, as it may be the other list
  | .moveAssign i other => do
    let (temp, rest) := ForwardList.move (← s.lists other)
    let s := s.set other (some rest)
    let l ← s.lists i
    let (_, m) ← l.clear s.heap
    return s.finish i (.returns temp, m)
  | .swap i j => do
    let l₁ ← s.lists i
    let l₂ ← s.lists j
    return ((s.set i (some l₂)).set j (some l₁), .returns ())

end State

end CppExperiments.Memory

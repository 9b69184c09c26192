import CppExperiments.Lib.Calls
import CppExperiments.Misc.OrderedMap

/-!
# The memo table

A cache of a bounded number of results, the one used last at its end, under the hash of the arguments. The function may
call the cache again.
-/

namespace CppExperiments.Misc

/-- `DefaultHash` of the arguments with their hashes. -/
def DefaultHash (hashes : List UInt64) : UInt64 :=
  hashes.foldl (fun (seed h : UInt64) => seed ^^^
    (h + (0x9e3779b9 : UInt64) + (seed <<< (6 : UInt64)) + (seed >>> (2 : UInt64)))) 0

/-- What a cache is built with. The arguments of a call are passed in some way to `hashFunc`, which takes them by
value, and are then passed on to `func`: of an argument that is no lvalue there may be only what a move leaves. -/
structure CacheFunctions (μ κ ν : Type) where
  hashFunc : κ → UInt64
  func : κ → Calling (μ × κ) ν
  passedOn : μ → κ → κ

structure Cache (ν : Type) where
  cache : OrderedMap UInt64 ν := {}
  next : Nat := 0
  hits : Nat := 0
  miss : Nat := 0
  capacity : Nat := 128

namespace Cache

variable {μ κ ν : Type} [Inhabited ν]

/-- Elements are taken from the front until `capacity` of them are left; `none` where an iterator is not valid. -/
def ensureCapacity (capacity : Nat) : Nat → OrderedMap UInt64 ν → Option (OrderedMap UInt64 ν)
  | 0, m => some m
  | n + 1, m =>
    if m.data.length ≤ capacity then some m
    else
      match m.data with
      | [] => some m
      | first :: _ => do
        let (m, _) ← m.apply 0 (.erase first.key)
        ensureCapacity capacity n m

/-- A missing value is inserted, and read back through the reference to it. -/
def insert (s : Cache ν) (key : UInt64) (v : ν) : Option (Cache ν × ν) := do
  let (m, next, _) ← s.cache.apply s.next (.emplace key v)
  let m ← ensureCapacity s.capacity m.data.length m
  let inserted ← m.deref s.next
  return ({ s with cache := m, next := next }, inserted.val)

/-- `touch` of a key that was found. -/
def touch (s : Cache ν) (key : UInt64) : Option (Cache ν × ν) := do
  let (m, next, result) ← s.cache.apply s.next (.touch key)
  match result with
  | .value v => some ({ s with cache := m, next := next }, v)
  | _ => none

/-- A program with all its calls of the cache, at most `n` one after or in the other. -/
def exec (c : CacheFunctions μ κ ν) : Nat → Cache ν → Calling (μ × κ) ν → Option (Cache ν × ν)
  | _, s, .ret v => some (s, v)
  | 0, _, .call _ _ => none
  | n + 1, s, .call (mode, keys) rest => do
    let key := c.hashFunc keys
    match s.cache.find key with
    | none => do
      let (s, v) ← exec c n { s with miss := s.miss + 1 } (c.func (c.passedOn mode keys))
      let (s, v) ← s.insert key v
      exec c n s (rest v)
    | some _ => do
      let (s, v) ← touch { s with hits := s.hits + 1 } key
      exec c n s (rest v)

/-- What is done with a cache from outside. -/
inductive Action (μ κ : Type) where
  | call (mode : μ) (keys : κ)
  | resize (capacity : Nat)

/-- An action with its result; a capacity of 0 is refused. -/
def act (c : CacheFunctions μ κ ν) (n : Nat) (s : Cache ν) : Action μ κ → Option (Cache ν × Option ν)
  | .call mode keys => (exec c n s (.call (mode, keys) .ret)).map fun (s, v) => (s, some v)
  | .resize capacity =>
    if capacity = 0 then some (s, none)
    else (ensureCapacity capacity s.cache.data.length s.cache).map fun m =>
      ({ s with capacity := capacity, cache := m }, none)

/-- The results of a sequence of actions. -/
def actions (c : CacheFunctions μ κ ν) (n : Nat) (s : Cache ν) : List (Action μ κ) → Option (List (Option ν))
  | [] => some []
  | a :: as => do
    let (s, result) ← act c n s a
    let results ← actions c n s as
    return result :: results

/-- What the actions should return. -/
def expected (f : κ → ν) : Action μ κ → Option ν
  | .call _ keys => some (f keys)
  | .resize _ => none

end Cache

end CppExperiments.Misc

/-!
## What calls of the cache return

When every call of a cache returns the value of the function at its own arguments.
-/

namespace CppExperiments.Misc

open OrderedMap

namespace Cache

variable {μ κ ν : Type} {m : OrderedMap UInt64 ν} {s s' : Cache ν} {c : CacheFunctions μ κ ν} {f : κ → ν}
  {key : UInt64} {v : ν} {n : Nat}

/-! ## The table -/

/-- The table is good, and there is room in it. -/
structure Valid (s : Cache ν) : Prop where
  good : s.cache.Good
  below : Below s.next s.cache
  pos : 0 < s.capacity

lemma valid_start {capacity : Nat} (h : 0 < capacity) : ({ capacity := capacity } : Cache ν).Valid :=
  ⟨good_empty, fun _ hn => (by cases hn), h⟩

lemma mem_contents_of_drop {m' : OrderedMap UInt64 ν} {k : Nat} (hdata : m'.data = m.data.drop k) :
    ∀ p ∈ m'.contents, p ∈ m.contents := by
  intro p hp
  rw [contents, hdata] at hp
  obtain ⟨n, hn, rfl⟩ := List.mem_map.1 hp
  exact List.mem_map_of_mem (List.mem_of_mem_drop hn)

variable [Inhabited ν]

lemma apply_erase_first (h : m.Good) {first : Node UInt64 ν} {rest : List (Node UInt64 ν)}
    (hdata : m.data = first :: rest)
    (next : Nat) : m.apply next (.erase first.key) = some (m.removeAt first.key first.addr, next, .bool true) ∧
      (m.removeAt first.key first.addr).data = rest := by
  have hfirst : first ∈ m.data := hdata ▸ List.mem_cons_self
  have hfind : m.find first.key = some first.addr :=
    h.distinct.find_eq_some_iff.2 ((h.mem _ _).2 ⟨first, hfirst, rfl, rfl⟩)
  constructor
  · rw [apply, hfind]
    dsimp only
    rw [h.deref_of_mem hfirst]
    rfl
  · have haddrs := h.addrs
    rw [hdata, List.map_cons, List.nodup_cons] at haddrs
    have hrest : ∀ n ∈ rest, decide (n.addr ≠ first.addr) = true := fun n hn =>
      decide_eq_true fun heq => haddrs.1 (heq ▸ List.mem_map_of_mem hn)
    rw [OrderedMap.removeAt, eraseNode, hdata, List.filter_cons_of_neg (by simp), List.filter_eq_self.2 hrest]

/-- The last elements stay. -/
lemma exists_ensureCapacity (h : m.Good) (capacity : Nat) (hn : m.data.length ≤ n) :
    ∃ m', ensureCapacity capacity n m = some m' ∧ m'.Good ∧ m'.data = m.data.drop (m.data.length - capacity) := by
  induction n generalizing m with
  | zero =>
    have hnil : m.data = [] := List.length_eq_zero_iff.1 (Nat.le_zero.1 hn)
    exact ⟨m, rfl, h, by rw [hnil, List.drop_nil]⟩
  | succ n ih =>
    rw [ensureCapacity]
    by_cases hfits : m.data.length ≤ capacity
    · rw [if_pos hfits, Nat.sub_eq_zero_of_le hfits]
      exact ⟨m, rfl, h, rfl⟩
    · rw [if_neg hfits]
      cases hdata : m.data with
      | nil =>
        rw [hdata] at hfits
        exact absurd (Nat.zero_le _) hfits
      | cons first rest =>
        obtain ⟨happly, hrest⟩ := apply_erase_first h hdata 0
        rw [hdata, List.length_cons] at hn hfits
        have hgood : (m.removeAt first.key first.addr).Good := h.removeAt (hdata ▸ List.mem_cons_self)
        obtain ⟨m', hm', hgood', hdata'⟩ := ih hgood (by rw [hrest]; omega)
        have hsub : (first :: rest).length - capacity = rest.length - capacity + 1 := by
          rw [List.length_cons]
          omega
        dsimp only
        refine ⟨m', ?_, hgood', ?_⟩
        · rw [happly, Option.bind_eq_bind, Option.bind_some]
          exact hm'
        · rw [hdata', hrest, hsub, List.drop_succ_cons]

lemma exists_emplace (h : m.Good) (next : Nat) (key : UInt64) (v : ν) :
    ∃ front : OrderedMap UInt64 ν, m.apply next (.emplace key v) = some (front.append next key v, next + 1, .value v) ∧
      front.Good ∧ key ∉ front.data.map Node.key ∧ (∀ n ∈ front.data, n ∈ m.data) ∧
        (m.find key = none → front = m) := by
  cases hfind : m.find key with
  | none =>
    refine ⟨m, ?_, h, h.find_eq_none_iff.1 hfind, fun n hn => hn, fun _ => rfl⟩
    rw [apply, hfind]
  | some it =>
    obtain ⟨n, hn, rfl, rfl, hderef, -⟩ := h.exists_node hfind
    refine ⟨m.removeAt n.key n.addr, ?_, h.removeAt hn, h.notMem_removeAt hn, fun n' hn' => (List.mem_filter.1 hn').1,
      fun hnone => by cases hnone⟩
    rw [apply, hfind]
    dsimp only
    rw [hderef]
    rfl

/-- The value is inserted behind what is there, and the last elements stay. -/
lemma insert_eq (h : s.Valid) (key : UInt64) (v : ν) :
    ∃ front m : OrderedMap UInt64 ν, (∀ n ∈ front.data, n ∈ s.cache.data) ∧
      (s.cache.find key = none → front = s.cache) ∧
      s.insert key v = some ({ s with cache := m, next := s.next + 1 }, v) ∧
      ({ s with cache := m, next := s.next + 1 } : Cache ν).Valid ∧
      m.data = (front.data ++ [(⟨s.next, key, v⟩ : Node UInt64 ν)]).drop (front.data.length + 1 - s.capacity) ∧
      (⟨s.next, key, v⟩ : Node UInt64 ν) ∈ m.data := by
  obtain ⟨front, happly, hfront, hkey, hsub, hsame⟩ := exists_emplace h.good s.next key v
  have hbelow : Below s.next front := fun n hn => h.below n (hsub n hn)
  obtain ⟨m, hm, hgood, hdata⟩ := exists_ensureCapacity (hfront.append hkey hbelow.notMem v) s.capacity (Nat.le_refl _)
  have happend : (front.append s.next key v).data = front.data ++ [⟨s.next, key, v⟩] := rfl
  rw [happend, List.length_append, List.length_singleton] at hdata
  have hmem : (⟨s.next, key, v⟩ : Node UInt64 ν) ∈ m.data := by
    have hpos := h.pos
    rw [hdata, List.drop_append_of_le_length (by omega)]
    exact List.mem_append_right _ (List.mem_singleton_self _)
  refine ⟨front, m, hsub, hsame, ?_, ⟨hgood, fun n hn => ?_, h.pos⟩, hdata, hmem⟩
  · rw [insert, happly, Option.bind_eq_bind, Option.bind_some]
    dsimp only
    rw [hm, Option.bind_eq_bind, Option.bind_some, hgood.deref_of_mem hmem]
    rfl
  · rw [hdata] at hn
    rcases List.mem_append.1 (List.mem_of_mem_drop hn) with hn | hn
    · exact Nat.lt_succ_of_lt (hbelow n hn)
    · rw [List.mem_singleton.1 hn]
      exact Nat.lt_succ_self _

/-- An inserted value is there, and the others are values that were there. -/
lemma exists_insert (h : s.Valid) (key : UInt64) (v : ν) :
    ∃ s', s.insert key v = some (s', v) ∧ s'.Valid ∧ (key, v) ∈ s'.cache.contents ∧
      ∀ p ∈ s'.cache.contents, p ∈ s.cache.contents ∨ p = (key, v) := by
  obtain ⟨front, m, hsub, -, hinsert, hvalid, hdata, hmem⟩ := insert_eq h key v
  refine ⟨_, hinsert, hvalid, List.mem_map_of_mem hmem, fun p hp => ?_⟩
  obtain ⟨n, hn, rfl⟩ := List.mem_map.1 hp
  dsimp only at hn
  rw [hdata] at hn
  rcases List.mem_append.1 (List.mem_of_mem_drop hn) with hn | hn
  · exact .inl (List.mem_map_of_mem (hsub n hn))
  · rw [List.mem_singleton.1 hn]
    exact .inr rfl

/-- A value that is touched goes to the end. -/
lemma touch_eq (h : s.Valid) (hmem : (key, v) ∈ s.cache.contents) :
    ∃ m next, s.touch key = some ({ s with cache := m, next := next }, v) ∧
      ({ s with cache := m, next := next } : Cache ν).Valid ∧
      m.contents = InsertionOrder.moveToEnd s.cache.contents key v := by
  have hvalue := h.good.distinct_contents.find_eq_some_iff.2 hmem
  obtain ⟨m, next, hrefines⟩ := OrderedMap.exists_touch h.good h.below key
  have happly := hrefines.apply
  have hcontents := hrefines.contents
  rw [Reference.apply, hvalue] at happly hcontents
  refine ⟨m, next, ?_, ⟨hrefines.good, hrefines.below, h.pos⟩, hcontents⟩
  rw [touch, happly]
  rfl

/-- A value that is touched stays as it is. -/
lemma exists_touch (h : s.Valid) (hfind : s.cache.find key ≠ none) :
    ∃ s' v, s.touch key = some (s', v) ∧ s'.Valid ∧ (key, v) ∈ s.cache.contents ∧ (key, v) ∈ s'.cache.contents ∧
      ∀ p ∈ s'.cache.contents, p ∈ s.cache.contents := by
  obtain ⟨it, hit⟩ := Option.ne_none_iff_exists'.1 hfind
  obtain ⟨n, hn, rfl, -⟩ := h.good.exists_node hit
  have hmem : (n.key, n.val) ∈ s.cache.contents := List.mem_map_of_mem hn
  obtain ⟨m, next, htouch, hvalid, hcontents⟩ := touch_eq h hmem
  refine ⟨_, n.val, htouch, hvalid, hmem, ?_, fun p hp => ?_⟩
  · dsimp only
    rw [hcontents]
    exact List.mem_append_right _ (List.mem_singleton_self _)
  · dsimp only at hp
    rw [hcontents] at hp
    rcases List.mem_append.1 hp with hp | hp
    · exact (InsertionOrder.mem_remove.1 hp).1
    · rwa [List.mem_singleton.1 hp]

/-! ## Calls that return the right values -/

/-- All values of the table are right for all arguments of their hash. -/
def Right (c : CacheFunctions μ κ ν) (f : κ → ν) (s : Cache ν) : Prop :=
  ∀ keys v, (c.hashFunc keys, v) ∈ s.cache.contents → v = f keys

/-- The function, given these arguments, ends with the right value, whatever the table has. -/
def Computed (c : CacheFunctions μ κ ν) (f : κ → ν) (keys : κ) : Prop :=
  ∀ s : Cache ν, s.Valid → Right c f s →
    ∃ N s', (∀ n ≥ N, exec c n s (c.func keys) = some (s', f keys)) ∧ s'.Valid ∧ Right c f s'

/-- Arguments that are right when they are passed on. -/
def PassedRight (c : CacheFunctions μ κ ν) (f : κ → ν) (i : μ × κ) : Prop :=
  Computed c f (c.passedOn i.1 i.2) ∧ f (c.passedOn i.1 i.2) = f i.2

lemma exec_ret (n : Nat) (s : Cache ν) (v : ν) : exec c n s (.ret v) = some (s, v) := by
  cases n <;> rfl

lemma exec_miss {i : μ × κ} (rest : ν → Calling (μ × κ) ν) (hfind : s.cache.find (c.hashFunc i.2) = none) (n : Nat) :
    exec c (n + 1) s (.call i rest) = (exec c n { s with miss := s.miss + 1 } (c.func (c.passedOn i.1 i.2))).bind
      fun r =>
      (r.1.insert (c.hashFunc i.2) r.2).bind fun r => exec c n r.1 (rest r.2) := by
  rw [exec, hfind]
  rfl

lemma exec_hit {i : μ × κ} (rest : ν → Calling (μ × κ) ν) (hfind : s.cache.find (c.hashFunc i.2) ≠ none) (n : Nat) :
    exec c (n + 1) s (.call i rest) = (touch { s with hits := s.hits + 1 } (c.hashFunc i.2)).bind fun r =>
      exec c n r.1 (rest r.2) := by
  obtain ⟨it, hit⟩ := Option.ne_none_iff_exists'.1 hfind
  rw [exec, hit]
  rfl

/-- A program whose calls are right when they are passed on comes to its value. -/
lemma exists_exec (hhash : ∀ x y, c.hashFunc x = c.hashFunc y → f x = f y) {p : Calling (μ × κ) ν}
    (hcalls : p.AllCalls (fun i => f i.2) (PassedRight c f)) (h : s.Valid) (hright : Right c f s) :
    ∃ N s', (∀ n ≥ N, exec c n s p = some (s', p.eval fun i => f i.2)) ∧ s'.Valid ∧ Right c f s' := by
  induction p generalizing s with
  | ret v => exact ⟨0, s, fun n _ => by rw [exec_ret, Calling.eval], h, hright⟩
  | call i rest ih =>
    obtain ⟨⟨hcomputed, hpassed⟩, hrest⟩ := hcalls
    cases hfind : s.cache.find (c.hashFunc i.2) with
    | none =>
      obtain ⟨N, s₁, hexec, hvalid, hright₁⟩ := hcomputed { s with miss := s.miss + 1 } ⟨h.good, h.below, h.pos⟩ hright
      obtain ⟨s₂, hinsert, hvalid₂, -, hmem⟩ := exists_insert hvalid (c.hashFunc i.2) (f i.2)
      have hright₂ : Right c f s₂ := by
        intro keys v hv
        rcases hmem _ hv with hold | hnew
        · exact hright₁ keys v hold
        · obtain ⟨hkey, rfl⟩ := Prod.mk.inj hnew
          exact (hhash _ _ hkey).symm
      obtain ⟨M, s₃, hexec', hvalid₃, hright₃⟩ := ih (f i.2) hrest hvalid₂ hright₂
      refine ⟨max N M + 1, s₃, fun n hn => ?_, hvalid₃, hright₃⟩
      obtain ⟨k, rfl⟩ := Nat.exists_eq_add_of_le' (Nat.le_trans (Nat.le_add_left 1 _) hn)
      rw [exec_miss rest hfind, hexec k (by omega), Option.bind_some, hpassed, hinsert, Option.bind_some,
        hexec' k (by omega),
        Calling.eval]
    | some it =>
      have hne : s.cache.find (c.hashFunc i.2) ≠ none := by
        rw [hfind]
        exact Option.some_ne_none it
      obtain ⟨s₁, v, htouch, hvalid, hv, -, hmem⟩ := exists_touch (s := { s with hits := s.hits + 1 })
        ⟨h.good, h.below, h.pos⟩ hne
      obtain rfl := hright i.2 v hv
      obtain ⟨M, s₂, hexec, hvalid₂, hright₂⟩ := ih (f i.2) hrest hvalid fun keys v hv => hright keys v (hmem _ hv)
      refine ⟨M + 1, s₂, fun n hn => ?_, hvalid₂, hright₂⟩
      obtain ⟨k, rfl⟩ := Nat.exists_eq_add_of_le' (Nat.le_trans (Nat.le_add_left 1 _) hn)
      rw [exec_hit rest hne, htouch, Option.bind_some, hexec k (by omega), Calling.eval]

/-! ## What any call leaves -/

lemma valid_exec {p : Calling (μ × κ) ν} (hexec : exec c n s p = some (s', v)) (h : s.Valid) : s'.Valid := by
  induction n generalizing s s' p v with
  | zero =>
    cases p with
    | ret w =>
      rw [exec_ret] at hexec
      obtain ⟨rfl, -⟩ := Prod.mk.inj (Option.some.inj hexec)
      exact h
    | call i rest => cases hexec
  | succ n ih =>
    cases p with
    | ret w =>
      rw [exec_ret] at hexec
      obtain ⟨rfl, -⟩ := Prod.mk.inj (Option.some.inj hexec)
      exact h
    | call i rest =>
      by_cases hfind : s.cache.find (c.hashFunc i.2) = none
      · rw [exec_miss rest hfind] at hexec
        obtain ⟨⟨s₁, w⟩, hfunc, hexec⟩ := Option.bind_eq_some_iff.1 hexec
        obtain ⟨s₂, hinsert, hvalid, -⟩ := exists_insert (ih hfunc ⟨h.good, h.below, h.pos⟩) (c.hashFunc i.2) w
        rw [hinsert, Option.bind_some] at hexec
        exact ih hexec hvalid
      · rw [exec_hit rest hfind] at hexec
        obtain ⟨s₁, w, htouch, hvalid, -⟩ :=
          exists_touch (s := { s with hits := s.hits + 1 }) ⟨h.good, h.below, h.pos⟩ hfind
        rw [htouch, Option.bind_some] at hexec
        exact ih hexec hvalid

/-- A call leaves its value in the table. -/
lemma mem_of_call {i : μ × κ} (hexec : exec c n s (.call i .ret) = some (s', v)) (h : s.Valid) :
    (c.hashFunc i.2, v) ∈ s'.cache.contents := by
  cases n with
  | zero => cases hexec
  | succ n =>
    by_cases hfind : s.cache.find (c.hashFunc i.2) = none
    · rw [exec_miss _ hfind] at hexec
      obtain ⟨⟨s₁, w⟩, hfunc, hexec⟩ := Option.bind_eq_some_iff.1 hexec
      obtain ⟨s₂, hinsert, -, hmem, -⟩ := exists_insert (valid_exec hfunc ⟨h.good, h.below, h.pos⟩) (c.hashFunc i.2) w
      rw [hinsert, Option.bind_some, exec_ret] at hexec
      obtain ⟨rfl, rfl⟩ := Prod.mk.inj (Option.some.inj hexec)
      exact hmem
    · rw [exec_hit _ hfind] at hexec
      obtain ⟨s₁, w, htouch, -, -, hmem, -⟩ :=
        exists_touch (s := { s with hits := s.hits + 1 }) ⟨h.good, h.below, h.pos⟩ hfind
      rw [htouch, Option.bind_some, exec_ret] at hexec
      obtain ⟨rfl, rfl⟩ := Prod.mk.inj (Option.some.inj hexec)
      exact hmem

/-- A call whose hash is in the table returns what the table has. -/
lemma eq_of_hit {i : μ × κ} {w : ν} (hexec : exec c n s (.call i .ret) = some (s', v)) (h : s.Valid)
    (hmem : (c.hashFunc i.2, w) ∈ s.cache.contents) : v = w := by
  have hfind : s.cache.find (c.hashFunc i.2) ≠ none := by
    rw [Ne, h.good.find_eq_none_iff, not_not, ← map_fst_contents]
    exact List.mem_map_of_mem hmem
  cases n with
  | zero => cases hexec
  | succ n =>
    rw [exec_hit _ hfind] at hexec
    obtain ⟨s₁, v', htouch, -, hv', -⟩ :=
      exists_touch (s := { s with hits := s.hits + 1 }) ⟨h.good, h.below, h.pos⟩ hfind
    rw [htouch, Option.bind_some, exec_ret] at hexec
    obtain ⟨-, rfl⟩ := Prod.mk.inj (Option.some.inj hexec)
    exact h.good.distinct_contents.eq_of_mem hv' hmem

/-! ## Sequences of actions -/

/-- With enough steps every call of every sequence returns the value at its own arguments. -/
def AllRight (c : CacheFunctions μ κ ν) (f : κ → ν) : Prop :=
  ∀ capacity > 0, ∀ as : List (Action μ κ), ∃ N, ∀ n ≥ N,
    actions c n { capacity := capacity } as = some (as.map (expected f))

lemma exists_actions (hhash : ∀ x y, c.hashFunc x = c.hashFunc y → f x = f y) (hpassed : ∀ i, PassedRight c f i)
    (h : s.Valid) (hright : Right c f s) (as : List (Action μ κ)) :
    ∃ N, ∀ n ≥ N, actions c n s as = some (as.map (expected f)) := by
  induction as generalizing s with
  | nil => exact ⟨0, fun n _ => rfl⟩
  | cons a as ih =>
    cases a with
    | call mode keys =>
      obtain ⟨N, s₁, hexec, hvalid, hright₁⟩ :=
        exists_exec (p := .call (mode, keys) .ret) hhash ⟨hpassed _, trivial⟩ h hright
      obtain ⟨M, hrest⟩ := ih hvalid hright₁
      refine ⟨max N M, fun n hn => ?_⟩
      have hact : act c n s (.call mode keys) = some (s₁, some (f keys)) := by
        rw [act, hexec n (by omega)]
        rfl
      rw [actions, hact, Option.bind_eq_bind, Option.bind_some]
      dsimp only
      rw [hrest n (by omega)]
      rfl
    | resize capacity =>
      by_cases hcapacity : capacity = 0
      · obtain ⟨M, hrest⟩ := ih h hright
        refine ⟨M, fun n hn => ?_⟩
        rw [actions, act, if_pos hcapacity, Option.bind_eq_bind, Option.bind_some]
        dsimp only
        rw [hrest n hn]
        rfl
      · obtain ⟨m, hm, hgood, hdata⟩ := exists_ensureCapacity h.good capacity (Nat.le_refl _)
        have hbelow : Below s.next m := fun n hn => by
          rw [hdata] at hn
          exact h.below n (List.mem_of_mem_drop hn)
        have hvalid : ({ s with capacity := capacity, cache := m } : Cache ν).Valid :=
          ⟨hgood, hbelow, Nat.pos_of_ne_zero hcapacity⟩
        obtain ⟨M, hrest⟩ := ih hvalid fun keys v hv => hright keys v (mem_contents_of_drop hdata _ hv)
        refine ⟨M, fun n hn => ?_⟩
        rw [actions, act, if_neg hcapacity, hm, Option.bind_eq_bind, Option.map_some, Option.bind_some]
        dsimp only
        rw [hrest n hn]
        rfl

/-- The function comes to its values if all that it calls is right when it is passed on. -/
lemma computed_of_calls (hhash : ∀ x y, c.hashFunc x = c.hashFunc y → f x = f y)
    (hfunc : ∀ x, (c.func x).eval (fun i => f i.2) = f x) {x : κ}
    (hcalls : (c.func x).AllCalls (fun i => f i.2) (PassedRight c f)) : Computed c f x := by
  intro s h hright
  obtain ⟨N, s', hexec, hrest⟩ := exists_exec hhash hcalls h hright
  rw [hfunc] at hexec
  exact ⟨N, s', hexec, hrest⟩

/-- A call that is followed by others. -/
lemma exists_of_actions {mode : μ} {keys : κ} {as : List (Action μ κ)} {results : List (Option ν)}
    (h : actions c n s (.call mode keys :: as) = some (some v :: results)) :
    ∃ s', exec c n s (.call (mode, keys) .ret) = some (s', v) ∧ actions c n s' as = some results := by
  obtain ⟨⟨s₁, r⟩, hact, hrun⟩ := Option.bind_eq_some_iff.1 h
  obtain ⟨results', hrest, hresults⟩ := Option.bind_eq_some_iff.1 hrun
  obtain ⟨⟨s₂, w⟩, hexec, hpair⟩ := Option.map_eq_some_iff.1 hact
  obtain ⟨rfl, rfl⟩ := Prod.mk.inj hpair
  obtain ⟨hw, rfl⟩ := List.cons_eq_cons.1 (Option.some.inj hresults)
  obtain rfl := Option.some.inj hw
  exact ⟨s₂, hexec, hrest⟩

/-- Of two calls the second one finds what the first one left, if their hashes are the same. -/
lemma eq_of_hash [Inhabited μ] (hall : AllRight c f) {x y : κ} (hxy : c.hashFunc x = c.hashFunc y) : f x = f y := by
  obtain ⟨N, hN⟩ := hall 1 Nat.one_pos [.call default x, .call default y]
  have hstart : ({ capacity := 1 } : Cache ν).Valid := valid_start Nat.one_pos
  obtain ⟨s₁, hexec, hrest⟩ := exists_of_actions (hN N (Nat.le_refl N))
  obtain ⟨s₂, hexec', -⟩ := exists_of_actions hrest
  have hmem := mem_of_call hexec hstart
  rw [hxy] at hmem
  exact (eq_of_hit (i := (default, y)) hexec' (valid_exec hexec hstart) hmem).symm

/-- A single call of an empty cache returns the value at what is passed on. -/
lemma eq_of_passed (hall : AllRight c f) {i : μ × κ} (h : Computed c f (c.passedOn i.1 i.2)) :
    f (c.passedOn i.1 i.2) = f i.2 := by
  obtain ⟨N, hN⟩ := hall 1 Nat.one_pos [.call i.1 i.2]
  have hright : Right c f ({ capacity := 1, miss := 1 } : Cache ν) := fun _ _ hv => (by cases hv)
  obtain ⟨M, s₁, hfunc, hvalid, -⟩ :=
    h { capacity := 1, miss := 1 } ⟨good_empty, fun _ hn => (by cases hn), Nat.one_pos⟩ hright
  obtain ⟨s₂, hexec, -⟩ := exists_of_actions (hN (max N M + 1) (by omega))
  obtain ⟨s₃, hinsert, -⟩ := exists_insert hvalid (c.hashFunc i.2) (f (c.passedOn i.1 i.2))
  rw [exec_miss (i := (i.1, i.2)) _ rfl, hfunc _ (by omega), Option.bind_some, hinsert, Option.bind_some, exec_ret] at hexec
  exact (Prod.mk.inj (Option.some.inj hexec)).2

/-- All calls return the values at their own arguments exactly if arguments of one hash have one value, and what is
passed on to the function has the value of the arguments. -/
theorem allRight_iff [Inhabited μ] (c : CacheFunctions μ κ ν) (f : κ → ν)
    (hfunc : ∀ x, (c.func x).eval (fun i => f i.2) = f x)
    (rel : κ → κ → Prop) (hrel : WellFounded rel)
    (hcalls : ∀ x, (c.func x).AllCalls (fun i => f i.2) fun i => rel (c.passedOn i.1 i.2) x) :
    AllRight c f ↔ (∀ x y, c.hashFunc x = c.hashFunc y → f x = f y) ∧ ∀ mode x, f (c.passedOn mode x) = f x := by
  constructor
  · intro hall
    have hhash : ∀ x y, c.hashFunc x = c.hashFunc y → f x = f y := fun x y => eq_of_hash hall
    have hcomputed : ∀ x, Computed c f x := fun x => by
      induction x using hrel.induction with
      | _ x ih =>
        refine computed_of_calls hhash hfunc ((hcalls x).mono fun i hi => ?_)
        exact ⟨ih _ hi, eq_of_passed hall (ih _ hi)⟩
    exact ⟨hhash, fun mode x => eq_of_passed (i := (mode, x)) hall (hcomputed _)⟩
  · rintro ⟨hhash, hpassed⟩
    have hcomputed : ∀ x, Computed c f x := fun x => by
      induction x using hrel.induction with
      | _ x ih =>
        exact computed_of_calls hhash hfunc ((hcalls x).mono fun i hi => ⟨ih _ hi, hpassed i.1 i.2⟩)
    exact fun capacity hcapacity as => exists_actions hhash (fun i => ⟨hcomputed _, hpassed i.1 i.2⟩)
      (valid_start hcapacity)
      (fun _ _ hv => (by cases hv)) as

/-! ### Fixed functions -/

/-- Twice a number, computed from twice the number before, under the number itself. -/
def twice : CacheFunctions Unit (Fin 100) Nat where
  hashFunc x := x.val.toUInt64
  func x := if x = 0 then .ret 0 else .call ((), x - 1) fun v => .ret (v + 2)
  passedOn _ x := x

lemma func_twice (x : Fin 100) : twice.func x = if x = 0 then .ret 0 else .call ((), x - 1) fun v => .ret (v + 2) := rfl

theorem allRight_twice : AllRight twice fun x => 2 * x.val := by
  have hpred : ∀ x : Fin 100, x ≠ 0 → (x - 1).val + 1 = x.val := by decide
  have hhash : ∀ x y : Fin 100, x.val.toUInt64 = y.val.toUInt64 → x = y := by
    intro x y hxy
    have hnat : x.val % 2 ^ 64 = y.val % 2 ^ 64 := congrArg UInt64.toNat hxy
    rw [Nat.mod_eq_of_lt (by omega), Nat.mod_eq_of_lt (by omega)] at hnat
    exact Fin.ext hnat
  refine (allRight_iff twice _ (fun x => ?_) (fun y x => y.val < x.val) (measure Fin.val).wf fun x => ?_).2
    ⟨fun x y hxy => congrArg (fun z : Fin 100 => 2 * z.val) (hhash x y hxy), fun _ _ => rfl⟩
  · by_cases hx : x = 0
    · rw [func_twice, if_pos hx, hx]
      rfl
    · have heq := hpred x hx
      rw [func_twice, if_neg hx, Calling.eval, Calling.eval]
      dsimp only
      omega
  · by_cases hx : x = 0
    · rw [func_twice, if_pos hx]
      trivial
    · have heq := hpred x hx
      have hlt : (x - 1).val < x.val := by omega
      rw [func_twice, if_neg hx]
      exact ⟨hlt, trivial⟩

/-- The first of two numbers under the default hash; the hash of a number is the number. -/
def firstOf : CacheFunctions Unit (UInt64 × UInt64) UInt64 where
  hashFunc x := DefaultHash [x.1, x.2]
  func x := .ret x.1
  passedOn _ x := x

theorem not_allRight_firstOf : ¬ AllRight firstOf Prod.fst := by
  intro hall
  have hhash : firstOf.hashFunc (0, 0) = firstOf.hashFunc (1, 0xffffffffffffffbd) := by decide
  exact absurd (eq_of_hash hall hhash) (by decide)

end Cache

end CppExperiments.Misc

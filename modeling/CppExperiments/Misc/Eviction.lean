import CppExperiments.Lib.Recency
import CppExperiments.Misc.Memoization

/-!
# Which results a cache holds

A cache of a function that does not call it holds the results for the arguments used last, as long as the
function gets the arguments that are asked for.
-/

namespace CppExperiments.Misc

open OrderedMap

namespace Cache

variable {μ κ ν : Type} {c : CacheFunctions μ κ ν} {f : κ → ν} {s s' : Cache ν} {r : Recency κ} {mode : μ} {keys : κ}
  {n : Nat}

/-- The cache holds the values for what has to be held, in that order, and counts as it should. -/
structure Follows (c : CacheFunctions μ κ ν) (f : κ → ν) (s : Cache ν) (r : Recency κ) : Prop where
  contents : s.cache.contents = r.held.map fun keys => (c.hashFunc keys, f keys)
  size : s.cache.contents.length = min r.capacity r.recent.length
  hits : s.hits = r.hits
  miss : s.miss = r.misses
  capacity : s.capacity = r.capacity

lemma Follows.of_contents (hcontents : s.cache.contents = r.held.map fun keys => (c.hashFunc keys, f keys))
    (hhits : s.hits = r.hits) (hmiss : s.miss = r.misses) (hcapacity : s.capacity = r.capacity) : Follows c f s r :=
  ⟨hcontents, by rw [hcontents, List.length_map, r.length_held], hhits, hmiss, hcapacity⟩

/-- The arguments are among those of the actions. -/
def Used (as : List (Action μ κ)) (keys : κ) : Prop := ∃ mode, .call mode keys ∈ as

/-- The cache after a sequence of actions. -/
def run [Inhabited ν] (c : CacheFunctions μ κ ν) (n : Nat) (s : Cache ν) (as : List (Action μ κ)) : Option (Cache ν) :=
  as.foldlM (fun s a => (act c n s a).map Prod.fst) s

variable [DecidableEq κ]

/-- What an action does to the keys that have to be held. -/
def reference (r : Recency κ) : Action μ κ → Recency κ
  | .call _ keys => r.use keys
  | .resize capacity => if h : 0 < capacity then r.resize capacity h else r

/-- The function gets arguments of the same value, wherever it is called. -/
def PassedOn (c : CacheFunctions μ κ ν) (f : κ → ν) (r : Recency κ) (as : List (Action μ κ)) : Prop :=
  ∀ front mode keys, front ++ [.call mode keys] <+: as → keys ∉ (front.foldl reference r).held →
    f (c.passedOn mode keys) = f keys

lemma map_filter_ne {l : List κ} (hinj : ∀ x ∈ l, c.hashFunc x = c.hashFunc keys → x = keys) :
    InsertionOrder.remove (l.map fun x => (c.hashFunc x, f x)) (c.hashFunc keys) =
      (l.filter (· ≠ keys)).map fun x => (c.hashFunc x, f x) := by
  rw [InsertionOrder.remove, List.filter_map]
  congr 1
  refine List.filter_congr fun x hx => ?_
  rw [Function.comp_apply, decide_eq_decide, not_iff_not]
  exact ⟨hinj x hx, fun heq => by rw [heq]⟩

variable [Inhabited ν]

/-- A call that hits. -/
lemma exists_hit (mode : μ) (n : Nat) (hs : Follows c f s r) (hvalid : s.Valid)
    (hinj : ∀ x ∈ r.held, c.hashFunc x = c.hashFunc keys → x = keys) (hheld : keys ∈ r.held) :
    ∃ s', (act c (n + 1) s (.call mode keys)).map Prod.fst = some s' ∧ s'.Valid ∧ Follows c f s' (r.use keys) := by
  have hmem : (c.hashFunc keys, f keys) ∈ s.cache.contents := by
    rw [hs.contents]
    exact List.mem_map_of_mem hheld
  have hfind : s.cache.find (c.hashFunc keys) ≠ none := by
    rw [Ne, hvalid.good.find_eq_none_iff, not_not, ← map_fst_contents]
    exact List.mem_map_of_mem hmem
  obtain ⟨m, next, htouch, hvalid', hcontents⟩ :=
    @touch_eq ν { s with hits := s.hits + 1 } _ _ _ ⟨hvalid.good, hvalid.below, hvalid.pos⟩ hmem
  have hexec := exec_hit (i := (mode, keys)) Calling.ret hfind n
  rw [htouch, Option.bind_some, exec_ret] at hexec
  refine ⟨_, by rw [act, hexec]; rfl, hvalid', .of_contents ?_ ?_ ?_ hs.capacity⟩
  · dsimp only at hcontents ⊢
    rw [hcontents, InsertionOrder.moveToEnd, hs.contents, map_filter_ne hinj, r.held_use_of_mem hheld, List.map_append]
    rfl
  · exact (congrArg Nat.succ hs.hits).trans (if_pos hheld).symm
  · exact hs.miss.trans (if_pos hheld).symm

/-- A call that misses, whatever the function then gets. -/
lemma exists_miss (mode : μ) (n : Nat) (hfunc : ∀ x, c.func x = .ret (f x)) (hs : Follows c f s r) (hvalid : s.Valid)
    (hinj : ∀ x ∈ r.held, c.hashFunc x = c.hashFunc keys → x = keys) (hheld : keys ∉ r.held) :
    ∃ s', (act c (n + 1) s (.call mode keys)).map Prod.fst = some s' ∧ s'.Valid ∧
      (Follows c f s' (r.use keys) ↔ f (c.passedOn mode keys) = f keys) := by
  have hfind : s.cache.find (c.hashFunc keys) = none := by
    rw [hvalid.good.find_eq_none_iff, ← map_fst_contents, hs.contents, List.map_map]
    intro hmem
    obtain ⟨x, hx, hhash⟩ := List.mem_map.1 hmem
    exact hheld (hinj x hx hhash ▸ hx)
  obtain ⟨front, m, -, hsame, hinsert, hvalid', hdata, -⟩ :=
    @insert_eq ν { s with miss := s.miss + 1 } _ ⟨hvalid.good, hvalid.below, hvalid.pos⟩ (c.hashFunc keys)
      (f (c.passedOn mode keys))
  obtain rfl := hsame hfind
  have hexec := exec_miss (i := (mode, keys)) Calling.ret hfind n
  rw [hfunc, exec_ret, Option.bind_some, hinsert, Option.bind_some, exec_ret] at hexec
  have hcontents : m.contents = ((r.held.map fun keys => (c.hashFunc keys, f keys)) ++
      [(c.hashFunc keys, f (c.passedOn mode keys))]).drop (r.held.length + 1 - r.capacity) := by
    have hlen : s.cache.data.length = r.held.length := by
      rw [← List.length_map (f := fun n : Node UInt64 ν => (n.key, n.val)), ← OrderedMap.contents, hs.contents,
        List.length_map]
    rw [OrderedMap.contents, hdata, List.map_drop, List.map_append, ← OrderedMap.contents, hs.contents, hlen,
      hs.capacity]
    rfl
  have hroom : r.held.length + 1 - r.capacity ≤ r.held.length := by
    have hpos := r.pos
    omega
  refine ⟨_, by rw [act, hexec]; rfl, hvalid', fun hfollows => ?_, fun hvalue => .of_contents ?_ ?_ ?_ hs.capacity⟩
  · have hsame := hfollows.contents
    dsimp only at hsame
    rw [hcontents, r.held_use_of_notMem hheld, List.map_drop, List.map_append,
      List.drop_append_of_le_length (by rwa [List.length_map]),
      List.drop_append_of_le_length (by rwa [List.length_map])] at hsame
    have hlast := List.append_cancel_left hsame
    simpa using hlast
  · dsimp only
    rw [hcontents, hvalue, r.held_use_of_notMem hheld, List.map_drop, List.map_append]
    rfl
  · exact hs.hits.trans (if_neg hheld).symm
  · exact (congrArg Nat.succ hs.miss).trans (if_neg hheld).symm

lemma exists_resize (hs : Follows c f s r) (hvalid : s.Valid) (capacity : Nat) :
    ∃ s', (act c n s (.resize capacity)).map Prod.fst = some s' ∧ s'.Valid ∧
      Follows c f s' (reference r (.resize capacity : Action μ κ)) := by
  by_cases hcapacity : capacity = 0
  · refine ⟨s, by rw [act, if_pos hcapacity]; rfl, hvalid, ?_⟩
    rw [reference, dif_neg (by omega)]
    exact hs
  · obtain ⟨m, hm, hgood, hdata⟩ := exists_ensureCapacity hvalid.good capacity (Nat.le_refl _)
    have hpos := Nat.pos_of_ne_zero hcapacity
    have hbelow : Below s.next m := fun n hn => by
      rw [hdata] at hn
      exact hvalid.below n (List.mem_of_mem_drop hn)
    refine ⟨{ s with capacity := capacity, cache := m }, by rw [act, if_neg hcapacity, hm]; rfl, ⟨hgood, hbelow,
      hpos⟩, ?_⟩
    rw [reference, dif_pos hpos]
    refine .of_contents ?_ hs.hits hs.miss rfl
    have hlen := congrArg List.length hs.contents
    rw [OrderedMap.contents, List.length_map, List.length_map] at hlen
    dsimp only
    rw [OrderedMap.contents, hdata, List.map_drop, ← OrderedMap.contents, hs.contents, hlen, r.held_resize hpos,
      List.map_drop]

lemma mem_recent_reference {a : Action μ κ} {x : κ} (hx : x ∈ (reference r a).recent) : x ∈ r.recent ∨ Used [a] x := by
  cases a with
  | call mode keys =>
    exact (Recency.mem_recent_use.1 hx).imp_right fun heq => ⟨mode, by rw [heq]; exact List.mem_singleton_self _⟩
  | resize capacity =>
    left
    rw [reference] at hx
    by_cases hpos : 0 < capacity
    · rw [dif_pos hpos] at hx
      exact List.mem_of_mem_drop (List.mem_of_mem_drop hx)
    · rwa [dif_neg hpos] at hx

omit [Inhabited ν] in
lemma passedOn_cons {a : Action μ κ} {as : List (Action μ κ)} : PassedOn c f r (a :: as) ↔
    (∀ mode keys, a = .call mode keys → keys ∉ r.held → f (c.passedOn mode keys) = f keys) ∧
      PassedOn c f (reference r a) as := by
  constructor
  · refine fun h => ⟨fun mode keys ha hheld => ?_, fun front mode keys hfront hheld => ?_⟩
    · exact h [] mode keys ⟨as, by rw [ha]; rfl⟩ hheld
    · exact h (a :: front) mode keys (List.cons_prefix_cons.2 ⟨rfl, hfront⟩) hheld
  · rintro ⟨hfirst, hrest⟩ front mode keys hfront hheld
    cases front with
    | nil => exact hfirst mode keys (List.cons_prefix_cons.1 hfront).1.symm hheld
    | cons b front =>
      obtain ⟨rfl, htail⟩ := List.cons_prefix_cons.1 hfront
      exact hrest front mode keys htail hheld

/-- After every prefix of the actions the cache follows. -/
def AllFollow (c : CacheFunctions μ κ ν) (f : κ → ν) (n : Nat) (s : Cache ν) (r : Recency κ)
    (as : List (Action μ κ)) : Prop :=
  ∀ front, front <+: as → ∃ s', run c (n + 1) s front = some s' ∧ Follows c f s' (front.foldl reference r)

lemma AllFollow.now {as : List (Action μ κ)} (h : AllFollow c f n s r as) : Follows c f s r := by
  obtain ⟨s', hrun, hs'⟩ := h [] List.nil_prefix
  obtain rfl := Option.some.inj hrun
  exact hs'

lemma allFollow_cons {a : Action μ κ} {as : List (Action μ κ)} (hs : Follows c f s r)
    (hact : (act c (n + 1) s a).map Prod.fst = some s') :
    AllFollow c f n s r (a :: as) ↔ AllFollow c f n s' (reference r a) as := by
  have hrun : ∀ front, run c (n + 1) s (a :: front) = run c (n + 1) s' front := fun front => by
    rw [run, List.foldlM_cons, hact]
    rfl
  constructor
  · intro h front hfront
    have hcons := h (a :: front) (List.cons_prefix_cons.2 ⟨rfl, hfront⟩)
    rwa [hrun] at hcons
  · intro h front hfront
    cases front with
    | nil => exact ⟨s, rfl, hs⟩
    | cons b front =>
      obtain ⟨rfl, htail⟩ := List.cons_prefix_cons.1 hfront
      rw [hrun]
      exact h front htail

/-- From a state that follows, all states follow just if the function gets the right arguments. -/
lemma allFollow_iff (hfunc : ∀ x, c.func x = .ret (f x)) (as : List (Action μ κ)) (hs : Follows c f s r)
    (hvalid : s.Valid)
    (hinj : ∀ x y, x ∈ r.recent ∨ Used as x → y ∈ r.recent ∨ Used as y → c.hashFunc x = c.hashFunc y → x = y) :
    AllFollow c f n s r as ↔ PassedOn c f r as := by
  induction as generalizing s r with
  | nil =>
    constructor
    · rintro - front mode keys hfront
      simp at hfront
    · rintro - front hfront
      obtain rfl := List.prefix_nil.1 hfront
      exact ⟨s, rfl, hs⟩
  | cons a as ih =>
    have hmono : ∀ x, x ∈ (reference r a).recent ∨ Used as x → x ∈ r.recent ∨ Used (a :: as) x := by
      rintro x (hx | ⟨mode, hx⟩)
      · rcases mem_recent_reference hx with hold | ⟨mode, hx⟩
        · exact Or.inl hold
        · exact Or.inr ⟨mode, List.mem_cons.2 (Or.inl (List.mem_singleton.1 hx))⟩
      · exact Or.inr ⟨mode, List.mem_cons_of_mem _ hx⟩
    have hrest : ∀ s' : Cache ν, s'.Valid → Follows c f s' (reference r a) →
        (AllFollow c f n s' (reference r a) as ↔ PassedOn c f (reference r a) as) :=
      fun s' hvalid' hs' => ih hs' hvalid' fun x y hx hy => hinj x y (hmono x hx) (hmono y hy)
    rw [passedOn_cons]
    cases a with
    | resize capacity =>
      obtain ⟨s', hact, hvalid', hs'⟩ := exists_resize (n := n + 1) (μ := μ) (c := c) hs hvalid capacity
      rw [allFollow_cons hs hact, hrest s' hvalid' hs']
      exact (and_iff_right nofun).symm
    | call mode keys =>
      have hinj' : ∀ x ∈ r.held, c.hashFunc x = c.hashFunc keys → x = keys := fun x hx =>
        hinj x keys (Or.inl (List.mem_of_mem_drop hx)) (Or.inr ⟨mode, List.mem_cons_self ..⟩)
      by_cases hheld : keys ∈ r.held
      · obtain ⟨s', hact, hvalid', hs'⟩ := exists_hit mode n hs hvalid hinj' hheld
        rw [allFollow_cons hs hact, hrest s' hvalid' hs']
        refine (and_iff_right ?_).symm
        rintro mode' keys' heq hnot
        obtain ⟨-, rfl⟩ := Action.call.inj heq
        exact absurd hheld hnot
      · obtain ⟨s', hact, hvalid', hs'⟩ := exists_miss mode n hfunc hs hvalid hinj' hheld
        rw [allFollow_cons hs hact]
        by_cases hvalue : f (c.passedOn mode keys) = f keys
        · rw [hrest s' hvalid' (hs'.2 hvalue)]
          refine (and_iff_right ?_).symm
          rintro mode' keys' heq -
          obtain ⟨rfl, rfl⟩ := Action.call.inj heq
          exact hvalue
        · exact ⟨fun h => absurd (hs'.1 h.now) hvalue, fun h => absurd (h.1 mode keys rfl hheld) hvalue⟩

/-- After every prefix of a sequence of calls and resizes a cache holds and counts what it should, just if every call
that is to miss passes on to the function arguments of the same value. -/
theorem follows_iff (hfunc : ∀ x, c.func x = .ret (f x)) {capacity : Nat} (hcapacity : 0 < capacity)
    (as : List (Action μ κ))
    (hinj : ∀ x y, Used as x → Used as y → c.hashFunc x = c.hashFunc y → x = y) (n : Nat) :
    (∀ front, front <+: as → ∃ s', run c (n + 1) { capacity := capacity } front = some s' ∧
      Follows c f s' (front.foldl reference (.start hcapacity))) ↔ PassedOn c f (.start hcapacity) as := by
  refine allFollow_iff hfunc as (.of_contents (by rw [Recency.held_start]; rfl) rfl rfl rfl) (valid_start hcapacity)
    fun x y hx hy => hinj x y ?_ ?_
  · exact hx.resolve_left List.not_mem_nil
  · exact hy.resolve_left List.not_mem_nil

/-- A function of numbers under the number itself. -/
def plain (f : UInt64 → UInt64) : CacheFunctions Unit UInt64 UInt64 where
  hashFunc x := x
  func x := .ret (f x)
  passedOn _ x := x

theorem follows_plain : (∀ front, front <+: [.call () 1, .call () 2, .call () 1, .resize 1, .call () 2] → ∃ s',
    run (plain fun x => x + x) 1 { capacity := 2 } front = some s' ∧ Follows (plain fun x => x + x) (fun x => x + x) s'
      (front.foldl reference (.start (by decide : 0 < 2)))) ↔
    PassedOn (plain fun x => x + x) (fun x => x + x) (.start (by decide : 0 < 2))
      [.call () 1, .call () 2, .call () 1, .resize 1, .call () 2] :=
  follows_iff (fun _ => rfl) (by decide) _ (fun _ _ _ _ heq => heq) 0

/-- The length of a text. A temporary text is moved into the parameter of `hashFunc`, and is empty then. -/
def lengthOf : CacheFunctions Bool (List Char) Nat where
  hashFunc x := x.length.toUInt64
  func x := .ret x.length
  passedOn temporary x := if temporary then [] else x

/-- A temporary text of three characters. -/
theorem not_follows_lengthOf : ¬ ∀ front, front <+: [.call true ['a', 'b', 'c']] → ∃ s',
    run lengthOf 1 { capacity := 128 } front = some s' ∧ Follows lengthOf List.length s'
      (front.foldl reference (.start (by decide : 0 < 128))) := by
  intro h
  obtain ⟨s', hrun, hs'⟩ := h _ (List.prefix_refl _)
  have hcontents := hs'.contents
  obtain rfl := Option.some.inj hrun
  exact absurd hcontents (by decide)

end Cache

end CppExperiments.Misc

import CppExperiments.Misc.OrderedMap

/-!
# Runs of ordered maps

Copies and moves between variables, and what the variables hold after any run.
-/

namespace CppExperiments.Misc

open InsertionOrder

namespace OrderedMap

variable {κ ν : Type} {m other : OrderedMap κ ν} {next : Nat} {olds news : List (Node κ ν)}

/-! ## Copies -/

lemma map_contents_assignNodes (next : Nat) (olds news : List (Node κ ν)) :
    (assignNodes next olds news).map (fun n => (n.key, n.val)) = news.map fun n => (n.key, n.val) := by
  induction news generalizing olds next with
  | nil => cases olds <;> rfl
  | cons n news ih =>
    cases olds with
    | nil => rw [assignNodes, List.map_cons, List.map_cons, ih]
    | cons o olds => rw [assignNodes, List.map_cons, List.map_cons, ih]

lemma map_key_assignNodes (next : Nat) (olds news : List (Node κ ν)) :
    (assignNodes next olds news).map Node.key = news.map Node.key := by
  have hkeys := congrArg (List.map Prod.fst) (map_contents_assignNodes next olds news)
  rwa [List.map_map, List.map_map] at hkeys

/-- The nodes keep their addresses, and those behind them get new ones. -/
lemma map_addr_assignNodes (next : Nat) (olds news : List (Node κ ν)) :
    (assignNodes next olds news).map Node.addr =
      (olds.map Node.addr).take news.length ++ List.range' next (news.length - olds.length) := by
  induction news generalizing olds next with
  | nil => cases olds <;> simp [assignNodes]
  | cons n news ih =>
    cases olds with
    | nil =>
      rw [assignNodes, List.map_cons, ih]
      simp [List.range'_succ]
    | cons o olds =>
      rw [assignNodes, List.map_cons, ih]
      simp

lemma mem_assignNodes {n : Node κ ν} (hn : n ∈ assignNodes next olds news) :
    n.addr ∈ olds.map Node.addr ∨ (next ≤ n.addr ∧ n.addr < next + news.length) := by
  have hmem := map_addr_assignNodes next olds news ▸ List.mem_map_of_mem (f := Node.addr) hn
  rcases List.mem_append.1 hmem with h | h
  · exact .inl (List.mem_of_mem_take h)
  · obtain ⟨hle, hlt⟩ := List.mem_range'_1.1 h
    exact .inr ⟨hle, by omega⟩

lemma nodup_assignNodes (haddrs : (olds.map Node.addr).Nodup) (hbelow : ∀ n ∈ olds, n.addr < next) :
    ((assignNodes next olds news).map Node.addr).Nodup := by
  rw [map_addr_assignNodes]
  refine List.nodup_append.2 ⟨haddrs.sublist (List.take_sublist _ _), List.nodup_range', fun a ha b hb heq => ?_⟩
  obtain ⟨n, hn, rfl⟩ := List.mem_map.1 (List.mem_of_mem_take ha)
  have hle := (List.mem_range'_1.1 hb).1
  exact absurd (hbelow n hn) (by omega)

/-- Where the old keys are the first of the new ones, every old node has its key again. -/
lemma exists_assignNodes (hpre : olds.map Node.key <+: news.map Node.key) :
    ∀ o ∈ olds, ∃ n ∈ assignNodes next olds news, n.key = o.key ∧ n.addr = o.addr := by
  induction olds generalizing news with
  | nil => simp
  | cons o olds ih =>
    cases news with
    | nil => simp at hpre
    | cons n news =>
      rw [List.map_cons, List.map_cons, List.cons_prefix_cons] at hpre
      rw [assignNodes, List.forall_mem_cons]
      refine ⟨⟨_, List.mem_cons_self, hpre.1.symm, rfl⟩, fun o' ho' => ?_⟩
      obtain ⟨n', hn', heq⟩ := ih hpre.2 o' ho'
      exact ⟨n', List.mem_cons_of_mem _ hn', heq⟩

/-- And only there. -/
lemma isPrefix_of_exists (haddrs : (olds.map Node.addr).Nodup) (hbelow : ∀ n ∈ olds, n.addr < next)
    (h : ∀ o ∈ olds, ∃ n ∈ assignNodes next olds news, n.key = o.key ∧ n.addr = o.addr) :
    olds.map Node.key <+: news.map Node.key := by
  induction olds generalizing news with
  | nil => exact List.nil_prefix
  | cons o olds ih =>
    rw [List.map_cons, List.nodup_cons] at haddrs
    rw [List.forall_mem_cons] at hbelow h
    cases news with
    | nil =>
      obtain ⟨n, hn, -⟩ := h.1
      cases hn
    | cons n news =>
      rw [assignNodes] at h
      obtain ⟨⟨n', hn', hkey, haddr⟩, hrest⟩ := h
      rw [List.map_cons, List.map_cons, List.cons_prefix_cons]
      constructor
      · rcases List.mem_cons.1 hn' with rfl | hn'
        · exact hkey.symm
        · rcases mem_assignNodes hn' with hmem | ⟨hle, -⟩
          · exact absurd (haddr ▸ hmem) haddrs.1
          · exact absurd hbelow.1 (by omega)
      · refine ih haddrs.2 hbelow.2 fun o' ho' => ?_
        obtain ⟨n'', hn'', hkey', haddr'⟩ := hrest o' ho'
        rcases List.mem_cons.1 hn'' with rfl | hn''
        · exact absurd (List.mem_map.2 ⟨o', ho', haddr'.symm⟩) haddrs.1
        · exact ⟨n'', hn'', hkey', haddr'⟩

variable [DecidableEq κ]

/-! ## The lookup of a copy -/

lemma mem_emplaceLookup {lookup : List (κ × Nat)} {key key' : κ} {it it' : Nat} :
    (key', it') ∈ emplaceLookup lookup key it ↔
      (key', it') ∈ lookup ∨ (key ∉ lookup.map Prod.fst ∧ key' = key ∧ it' = it) := by
  rw [emplaceLookup]
  by_cases h : key ∈ lookup.map Prod.fst
  · rw [if_pos (isSome_find_iff.2 h)]
    exact ⟨.inl, fun hor => hor.elim id fun hnot => absurd h hnot.1⟩
  · rw [if_neg fun hsome => h (isSome_find_iff.1 hsome), List.mem_append, List.mem_singleton, Prod.mk.injEq]
    exact or_congr_right (and_iff_right h).symm

lemma distinct_emplaceLookup {lookup : List (κ × Nat)} (h : Distinct lookup) (key : κ) (it : Nat) :
    Distinct (emplaceLookup lookup key it) := by
  rw [emplaceLookup]
  by_cases hkey : key ∈ lookup.map Prod.fst
  · rw [if_pos (isSome_find_iff.2 hkey)]
    exact h
  · rw [if_neg fun hsome => hkey (isSome_find_iff.1 hsome)]
    exact h.append_new hkey it

lemma distinct_emplaceAll {lookup : List (κ × Nat)} (h : Distinct lookup) (data : List (Node κ ν)) :
    Distinct (emplaceAll lookup data) := by
  induction data generalizing lookup with
  | nil => exact h
  | cons n data ih => exact ih (distinct_emplaceLookup h n.key n.addr)

/-- The lookup keeps what it has, and gets the elements of the other keys. -/
lemma mem_emplaceAll {lookup : List (κ × Nat)} {data : List (Node κ ν)} (hkeys : (data.map Node.key).Nodup) {key : κ}
    {it : Nat} :
    (key, it) ∈ emplaceAll lookup data ↔
      (key, it) ∈ lookup ∨ (key ∉ lookup.map Prod.fst ∧ ∃ n ∈ data, n.key = key ∧ n.addr = it) := by
  induction data generalizing lookup with
  | nil => simp [emplaceAll]
  | cons n data ih =>
    rw [List.map_cons, List.nodup_cons] at hkeys
    have hcons : emplaceAll lookup (n :: data) = emplaceAll (emplaceLookup lookup n.key n.addr) data := rfl
    have hfst : key ∈ (emplaceLookup lookup n.key n.addr).map Prod.fst ↔ key ∈ lookup.map Prod.fst ∨ key = n.key := by
      rw [emplaceLookup]
      by_cases hmem : n.key ∈ lookup.map Prod.fst
      · rw [if_pos (isSome_find_iff.2 hmem)]
        exact ⟨.inl, fun hor => hor.elim id fun heq => heq ▸ hmem⟩
      · rw [if_neg fun hsome => hmem (isSome_find_iff.1 hsome), List.map_append, List.mem_append, List.map_singleton,
          List.mem_singleton]
    rw [hcons, ih hkeys.2, mem_emplaceLookup, hfst, List.exists_mem_cons_iff]
    by_cases hkey : key = n.key
    · subst hkey
      have hnone : ¬ ∃ x ∈ data, x.key = n.key ∧ x.addr = it := by
        rintro ⟨x, hx, hxkey, -⟩
        exact hkeys.1 (List.mem_map.2 ⟨x, hx, hxkey⟩)
      rw [and_iff_right rfl, or_iff_left fun h => hnone h.2, or_iff_left hnone]
      exact or_congr_right (and_congr_right fun _ => ⟨fun heq => ⟨rfl, heq.symm⟩, fun heq => heq.2.symm⟩)
    · simp only [hkey, Ne.symm hkey, false_and, and_false, or_false, false_or]

lemma contents_assign (m : OrderedMap κ ν) (next : Nat) (other : OrderedMap κ ν) :
    (m.assign next other).contents = other.contents := map_contents_assignNodes _ _ _

lemma below_assign (h : Below next m) (other : OrderedMap κ ν) :
    Below (next + other.data.length) (m.assign next other) := by
  intro n hn
  rcases mem_assignNodes hn with hmem | ⟨-, hlt⟩
  · obtain ⟨o, ho, haddr⟩ := List.mem_map.1 hmem
    exact haddr ▸ Nat.lt_add_right _ (h o ho)
  · exact hlt

lemma from_assign (m : OrderedMap κ ν) (next : Nat) (other : OrderedMap κ ν) : From m next (m.assign next other) :=
  fun _ hn => (mem_assignNodes hn).imp id And.left

/-- An assignment over a map makes a good one exactly if the keys of that map are the first keys of the other. -/
theorem good_assign_iff (h : m.Good) (hbelow : Below next m) (hother : other.Good) :
    (m.assign next other).Good ↔ m.data.map Node.key <+: other.data.map Node.key := by
  have hkeys : ((assignNodes next m.data other.data).map Node.key).Nodup := by
    rw [map_key_assignNodes]
    exact hother.keys
  constructor
  · intro hgood
    refine isPrefix_of_exists h.addrs hbelow fun o ho => ?_
    have hmem : (o.key, o.addr) ∈ (m.assign next other).lookup :=
      (mem_emplaceAll hkeys).2 (.inl ((h.mem _ _).2 ⟨o, ho, rfl, rfl⟩))
    exact (hgood.mem _ _).1 hmem
  · intro hpre
    have hold : ∀ key it, (key, it) ∈ m.lookup → ∃ n ∈ assignNodes next m.data other.data, n.key = key ∧
      n.addr = it := by
      intro key it hmem
      obtain ⟨o, ho, rfl, rfl⟩ := (h.mem _ _).1 hmem
      exact exists_assignNodes hpre o ho
    refine ⟨nodup_assignNodes h.addrs hbelow, hkeys, distinct_emplaceAll h.distinct _, fun key it => ?_⟩
    rw [assign, mem_emplaceAll hkeys]
    constructor
    · rintro (hmem | ⟨-, hn⟩)
      · exact hold key it hmem
      · exact hn
    · rintro ⟨n, hn, rfl, rfl⟩
      by_cases hkey : n.key ∈ m.lookup.map Prod.fst
      · obtain ⟨⟨key, it⟩, hmem, heq⟩ := List.mem_map.1 hkey
        obtain ⟨n', hn', hkey', haddr'⟩ := hold key it hmem
        obtain rfl := List.inj_on_of_nodup_map hkeys hn' hn (hkey'.trans heq)
        exact .inl (hkey' ▸ haddr' ▸ hmem)
      · exact .inr ⟨hkey, n, hn, rfl, rfl⟩

/-- A map assigned to itself keeps its lookup. -/
lemma emplaceAll_self (h : m.Good) : emplaceAll m.lookup m.data = m.lookup := by
  have hfix : ∀ data : List (Node κ ν), (∀ n ∈ data, n ∈ m.data) → emplaceAll m.lookup data = m.lookup := by
    intro data hdata
    induction data with
    | nil => rfl
    | cons n data ih =>
      rw [List.forall_mem_cons] at hdata
      have hmem : n.key ∈ m.lookup.map Prod.fst := List.mem_map.2 ⟨_, (h.mem _ _).2 ⟨n, hdata.1, rfl, rfl⟩, rfl⟩
      have hcons : emplaceAll m.lookup (n :: data) = emplaceAll (emplaceLookup m.lookup n.key n.addr) data := rfl
      rw [hcons, emplaceLookup, if_pos (isSome_find_iff.2 hmem), ih hdata.2]
  exact hfix m.data fun _ hn => hn

end OrderedMap

/-! ## Events -/

namespace World

open OrderedMap

variable {κ ν : Type} {w : World κ ν}

/-- All maps are good, and no two of them share an element. -/
structure Good (w : World κ ν) : Prop where
  good : ∀ i, (w.maps i).Good
  below : ∀ i, Below w.next (w.maps i)
  apart : ∀ i j, i ≠ j → ∀ n ∈ (w.maps i).data, ∀ n' ∈ (w.maps j).data, n.addr ≠ n'.addr

/-- What the variables hold. -/
def contents (w : World κ ν) : Nat → List (κ × ν) := fun i => (w.maps i).contents

lemma contents_update (w : World κ ν) (i : Nat) (m : OrderedMap κ ν) (next : Nat) :
    contents ⟨Function.update w.maps i m, next⟩ = Function.update w.contents i m.contents := by
  funext j
  rw [contents]
  dsimp only
  by_cases h : j = i
  · rw [h, Function.update_self, Function.update_self]
  · rw [Function.update_of_ne h, Function.update_of_ne h, contents]

/-- One map is replaced by a good one of its own and of new elements. -/
lemma Good.update (h : w.Good) {i next' : Nat} {m : OrderedMap κ ν} (hgood : m.Good) (hbelow : Below next' m)
    (hle : w.next ≤ next') (hfrom : From (w.maps i) w.next m) : Good ⟨Function.update w.maps i m, next'⟩ := by
  have hnew : ∀ j, j ≠ i → ∀ n ∈ m.data, ∀ n' ∈ (w.maps j).data, n.addr ≠ n'.addr := by
    intro j hj n hn n' hn' haddr
    rcases hfrom n hn with hmem | hge
    · obtain ⟨o, ho, hoaddr⟩ := List.mem_map.1 hmem
      exact h.apart i j (Ne.symm hj) o ho n' hn' (hoaddr.trans haddr)
    · exact absurd (h.below j n' hn') (by omega)
  refine ⟨fun j => ?_, fun j => ?_, fun j k hjk n hn n' hn' => ?_⟩
  · dsimp only
    by_cases hj : j = i
    · rwa [hj, Function.update_self]
    · rw [Function.update_of_ne hj]
      exact h.good j
  · dsimp only
    by_cases hj : j = i
    · rwa [hj, Function.update_self]
    · rw [Function.update_of_ne hj]
      exact fun n hn => Nat.lt_of_lt_of_le (h.below j n hn) hle
  · dsimp only at hn hn'
    by_cases hj : j = i
    · have hk : k ≠ i := fun hk => hjk (hj.trans hk.symm)
      rw [hj, Function.update_self] at hn
      rw [Function.update_of_ne hk] at hn'
      exact hnew k hk n hn n' hn'
    · rw [Function.update_of_ne hj] at hn
      by_cases hk : k = i
      · rw [hk, Function.update_self] at hn'
        exact Ne.symm (hnew j hj n' hn' n hn)
      · rw [Function.update_of_ne hk] at hn'
        exact h.apart j k hjk n hn n' hn'

lemma good_init : (init : World κ ν).Good :=
    ⟨fun _ => good_empty, fun _ _ hn => (by cases hn), fun _ _ _ _ hn => (by cases hn)⟩

/-- A move takes the elements from one variable to another. -/
lemma Good.move (h : w.Good) (i j : Nat) :
    Good ⟨Function.update (Function.update w.maps i (w.maps j)) j {}, w.next⟩ := by
  -- every element is one that another variable, or the same one, had before
  obtain ⟨source, hsource, hinj⟩ : ∃ source : Nat → Nat,
      (∀ k, k ≠ j → Function.update (Function.update w.maps i (w.maps j)) j {} k = w.maps (source k)) ∧
        ∀ k l, k ≠ j → l ≠ j → k ≠ l → source k ≠ source l := by
    refine ⟨fun k => if k = i then j else k, fun k hk => ?_, fun k l hk hl hkl => ?_⟩
    · rw [Function.update_of_ne hk]
      dsimp only
      by_cases hki : k = i
      · rw [if_pos hki, hki, Function.update_self]
      · rw [if_neg hki, Function.update_of_ne hki]
    · dsimp only
      split <;> split <;> omega
  have hempty : Function.update (Function.update w.maps i (w.maps j)) j {} j = {} := Function.update_self ..
  refine ⟨fun k => ?_, fun k => ?_, fun k l hkl n hn n' hn' => ?_⟩
  · dsimp only
    by_cases hk : k = j
    · rw [hk, hempty]
      exact good_empty
    · rw [hsource k hk]
      exact h.good _
  · dsimp only
    by_cases hk : k = j
    · rw [hk, hempty]
      intro n hn
      cases hn
    · rw [hsource k hk]
      exact h.below _
  · dsimp only at hn hn'
    by_cases hk : k = j
    · rw [hk, hempty] at hn
      cases hn
    · by_cases hl : l = j
      · rw [hl, hempty] at hn'
        cases hn'
      · rw [hsource k hk] at hn
        rw [hsource l hl] at hn'
        exact h.apart _ _ (hinj k l hk hl hkl) n hn n' hn'

variable [DecidableEq κ]

/-- What is asked of an event: a key that is extracted is not there, a map is assigned to itself or over the first keys
of the other, and moved from another one. -/
def Safe (w : World κ ν) : Event κ ν → Prop
  | .on i op => (w.maps i).Safe op
  | .copyConstruct _ _ => True
  | .copyAssign i j => i = j ∨ (w.maps i).data.map Node.key <+: (w.maps j).data.map Node.key
  | .moveAssign i j => i ≠ j

instance decidableSafe (w : World κ ν) : ∀ e, Decidable (w.Safe e)
  | .on i op => inferInstanceAs (Decidable ((w.maps i).Safe op))
  | .copyConstruct _ _ => isTrue trivial
  | .copyAssign i j => inferInstanceAs (Decidable
      (i = j ∨ (w.maps i).data.map Node.key <+: (w.maps j).data.map Node.key))
  | .moveAssign i j => inferInstanceAs (Decidable (i ≠ j))

variable [Inhabited ν]

/-- One event. -/
theorem exists_step (h : w.Good) {e : Event κ ν} (he : w.Safe e) :
    ∃ w', w.step e = some (w', (Reference.step w.contents e).2) ∧ w'.Good ∧ w'.contents =
      (Reference.step w.contents e).1 := by
  cases e with
  | on i op =>
    obtain ⟨m', next', hrefines⟩ := exists_apply (h.good i) (h.below i) he
    refine ⟨_, ?_, h.update hrefines.good hrefines.below hrefines.le hrefines.addrs, ?_⟩
    · rw [step, hrefines.apply]
      rfl
    · rw [contents_update, hrefines.contents]
      rfl
  | copyConstruct i j =>
    have hbelow : Below w.next ({} : OrderedMap κ ν) := fun _ hn => (by cases hn)
    have hgood := (good_assign_iff good_empty hbelow (h.good j)).2 List.nil_prefix
    refine ⟨_, rfl, h.update hgood (below_assign hbelow _) (Nat.le_add_right _ _) fun n hn => ?_, ?_⟩
    · rcases mem_assignNodes hn with hmem | ⟨hle, -⟩
      · cases hmem
      · exact .inr hle
    · rw [contents_update, contents_assign]
      rfl
  | copyAssign i j =>
    by_cases hij : i = j
    · subst hij
      have hself : { w.maps i with lookup := emplaceAll (w.maps i).lookup (w.maps i).data } = w.maps i := by
        rw [emplaceAll_self (h.good i)]
      refine ⟨_, by rw [step, if_pos rfl, hself]; rfl, h.update (h.good i) (fun n hn => Nat.lt_add_right _
        (h.below i n hn))
        (Nat.le_add_right _ _) fun n hn => .inl (List.mem_map_of_mem hn), ?_⟩
      rw [contents_update]
      rfl
    · have hgood := (good_assign_iff (h.good i) (h.below i) (h.good j)).2 (he.resolve_left hij)
      refine ⟨_, by rw [step, if_neg hij]; rfl, h.update hgood (below_assign (h.below i) _) (Nat.le_add_right _ _)
        (from_assign _ _ _), ?_⟩
      rw [contents_update, contents_assign]
      rfl
  | moveAssign i j =>
    refine ⟨_, by rw [step, if_neg he]; rfl, h.move i j, ?_⟩
    have hmove : (⟨Function.update (Function.update w.maps i (w.maps j)) j {}, w.next⟩ : World κ ν).contents =
        Function.update (Function.update w.contents i (w.maps j).contents) j [] := by
      rw [← contents_update w i (w.maps j) w.next]
      exact contents_update ⟨Function.update w.maps i (w.maps j), w.next⟩ j {} w.next
    exact hmove

/-! ## Runs -/

/-- The variables after a run and the results of its events. -/
def run (w : World κ ν) : List (Event κ ν) → Option (World κ ν × List (Result ν))
  | [] => some (w, [])
  | e :: events => do
    let (w, result) ← w.step e
    let (w, results) ← run w events
    return (w, result :: results)

/-- Every event of a run is safe where it happens. -/
def AllSafe (w : World κ ν) (events : List (Event κ ν)) : Prop :=
  Throughout (fun w e => (step w e).map Prod.fst) Safe w events

instance (w : World κ ν) (events : List (Event κ ν)) : Decidable (w.AllSafe events) :=
  inferInstanceAs (Decidable (Throughout _ _ _ _))

end World

/-- The run of the reference. -/
def Reference.run {κ ν : Type} [DecidableEq κ] [Inhabited ν] (maps : Nat → List (κ × ν)) :
    List (Event κ ν) → (Nat → List (κ × ν)) × List (Result ν)
  | [] => (maps, [])
  | e :: events =>
    let (maps, result) := Reference.step maps e
    let (maps, results) := Reference.run maps events
    (maps, result :: results)

namespace World

variable {κ ν : Type} [DecidableEq κ] [Inhabited ν] {w : World κ ν}

lemma exists_run (h : w.Good) (events : List (Event κ ν)) (hall : w.AllSafe events) :
    ∃ w' results, w.run events = some (w', results) ∧ w'.Good ∧ Reference.run w.contents events =
      (w'.contents, results) := by
  induction events generalizing w with
  | nil => exact ⟨w, [], rfl, h, rfl⟩
  | cons e events ih =>
    obtain ⟨he, hrest⟩ := hall
    obtain ⟨w', hstep, hgood, hcontents⟩ := exists_step h he
    dsimp only at hrest
    rw [hstep] at hrest
    obtain ⟨w'', results, hrun, hgood', href⟩ := ih hgood hrest
    refine ⟨w'', (Reference.step w.contents e).2 :: results, ?_, hgood', ?_⟩
    · rw [run, hstep, Option.bind_eq_bind, Option.bind_some]
      dsimp only
      rw [hrun]
      rfl
    · rw [Reference.run]
      generalize Reference.step w.contents e = r at hcontents
      obtain ⟨maps, result⟩ := r
      obtain rfl : w'.contents = maps := hcontents
      dsimp only
      rw [href]

/-- An assignment over a map, two maps with one key in common, a key that goes to the end, a move. -/
def severalMaps : List (Event Nat Nat) :=
  [.on 0 (.insert 1 10), .copyConstruct 1 0, .on 1 (.emplace 2 20), .copyAssign 0 1, .on 0 (.touch 1),
    .on 0 (.index 3 (· + 5)), .on 1 (.erase 1), .on 1 (.extract 1), .moveAssign 2 0]

/-- A map with one key assigned over a map with another one. -/
def overwritten : List (Event Nat Nat) := [.on 0 (.insert 1 10), .on 1 (.insert 2 20), .copyAssign 0 1]

end World

end CppExperiments.Misc

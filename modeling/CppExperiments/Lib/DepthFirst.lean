import Mathlib.Data.List.Nodup
import Mathlib.Data.Set.Card
import Mathlib.Logic.Relation
import Mathlib.Tactic.Cases

/-!
# Depth-first search with a bound on the depth

Vertices are marked when they are pushed, with the depth of the path by which they were found. A vertex may be cut off
although a shorter path leads to it, but then as many vertices as the bound lie before it.
-/

namespace CppExperiments

variable {α : Type*}

/-- The vertices on the stack, all that were marked, and those that were taken from the stack. -/
structure DepthFirst (α : Type*) where
  stk : List (α × Nat)
  marked : List (α × Nat)
  done : List (α × Nat)

namespace DepthFirst

/-- A successor of a vertex at depth `d`, which is followed if `opens d`. -/
def push [DecidableEq α] (opens : Nat → Prop) [DecidablePred opens] (d : Nat) (w : DepthFirst α) (b : α) :
    DepthFirst α :=
  if opens d ∧ b ∉ w.marked.map Prod.fst then
    { w with stk := (b, d + 1) :: w.stk, marked := (b, d + 1) :: w.marked }
  else
    w

/-- The vertex on top of the stack is expanded. -/
def expand [DecidableEq α] (next : α → List α) (opens : Nat → Prop) [DecidablePred opens] (v : α × Nat)
    (w : DepthFirst α) :
    DepthFirst α :=
  (next v.1).foldl (push opens v.2) { w with done := w.done ++ [v] }

def Step (next : α → List α) (a b : α) : Prop := b ∈ next a

/-- The state of a search from `start`. The successors of `current` are being pushed, if there is such a vertex. -/
structure Searched (next : α → List α) (opens : Nat → Prop) (start : α) (current : Option α) (w : DepthFirst α) :
    Prop where
  marked : (w.done ++ w.stk).Perm w.marked
  nodup : (w.marked.map Prod.fst).Nodup
  found : ∀ v ∈ w.marked, v = (start, 1) ∨ ∃ u ∈ w.done, v.1 ∈ next u.1 ∧ v.2 = u.2 + 1
  start : start ∈ w.marked.map Prod.fst
  closed : ∀ u ∈ w.done, some u.1 ≠ current → opens u.2 → ∀ b ∈ next u.1, b ∈ w.marked.map Prod.fst

variable {next : α → List α} {opens : Nat → Prop} {start : α} {w : DepthFirst α} {v : α × Nat} {b : α}
  {current : Option α}

section Pushing

variable [DecidableEq α] [DecidablePred opens]

lemma push_done (d : Nat) (w : DepthFirst α) (b : α) : (push opens d w b).done = w.done := by
  rw [push]
  split <;> rfl

lemma done_expand (v : α × Nat) (w : DepthFirst α) : (expand next opens v w).done = w.done ++ [v] := by
  have hdone : ∀ (bs : List α) (w : DepthFirst α), (bs.foldl (push opens v.2) w).done = w.done := by
    intro bs
    induction bs with
    | nil => exact fun w => rfl
    | cons b bs ih => exact fun w => (ih _).trans (push_done v.2 w b)
  rw [expand, hdone]

lemma mem_marked_push {x : α} (d : Nat) (b : α) (h : x ∈ w.marked.map Prod.fst) :
    x ∈ (push opens d w b).marked.map Prod.fst := by
  rw [push]
  split
  · exact List.mem_cons_of_mem _ h
  · exact h

lemma Searched.push (h : w.Searched next opens start current) (hv : v ∈ w.done) (hb : b ∈ next v.1) :
    (push opens v.2 w b).Searched next opens start current := by
  rw [DepthFirst.push]
  split
  · rename_i hnew
    refine ⟨?_, List.nodup_cons.2 ⟨hnew.2, h.nodup⟩, ?_, List.mem_cons_of_mem _ h.start, ?_⟩
    · exact List.perm_middle.trans (h.marked.cons _)
    · intro u hu
      rcases List.mem_cons.1 hu with rfl | hu
      · exact .inr ⟨v, hv, hb, rfl⟩
      · exact h.found u hu
    · exact fun u hu hne hopens b hb => List.mem_cons_of_mem _ (h.closed u hu hne hopens b hb)
  · exact h

/-- All successors are marked, unless the depth is too great. -/
lemma Searched.foldl_push {bs : List α} (h : w.Searched next opens start current) (hv : v ∈ w.done)
    (hbs : ∀ b ∈ bs, b ∈ next v.1) : (bs.foldl (DepthFirst.push opens v.2) w).Searched next opens start current ∧
      (bs.foldl (DepthFirst.push opens v.2) w).done = w.done ∧
      (∀ x ∈ w.marked.map Prod.fst, x ∈ (bs.foldl (DepthFirst.push opens v.2) w).marked.map Prod.fst) ∧
      (opens v.2 → ∀ b ∈ bs, b ∈ (bs.foldl (DepthFirst.push opens v.2) w).marked.map Prod.fst) := by
  induction bs generalizing w with
  | nil => exact ⟨h, rfl, fun x hx => hx, fun _ b hb => by cases hb⟩
  | cons b bs ih =>
    rw [List.forall_mem_cons] at hbs
    have hdone : (DepthFirst.push opens v.2 w b).done = w.done := push_done v.2 w b
    obtain ⟨hsearched, hdone', hmono, hall⟩ := ih (h.push hv hbs.1) (hdone ▸ hv) hbs.2
    refine ⟨hsearched, hdone'.trans hdone, fun x hx => hmono x (mem_marked_push v.2 b hx), fun hopens x hx => ?_⟩
    rcases List.mem_cons.1 hx with rfl | hx
    · refine hmono x ?_
      by_cases hmarked : x ∈ w.marked.map Prod.fst
      · exact mem_marked_push v.2 x hmarked
      · rw [DepthFirst.push, if_pos ⟨hopens, hmarked⟩]
        exact List.mem_cons_self
    · exact hall hopens x hx

lemma Searched.expand {stk : List (α × Nat)} (h : w.Searched next opens start none) (hstk : w.stk = v :: stk) :
    (DepthFirst.expand next opens v { w with stk := stk }).Searched next opens start none := by
  have hmid : Searched next opens start (some v.1) { w with stk := stk, done := w.done ++ [v] } := by
    have hmarked := h.marked
    rw [hstk] at hmarked
    refine ⟨?_, h.nodup, ?_, h.start, ?_⟩
    · rw [List.append_assoc, List.singleton_append]
      exact hmarked
    · intro u hu
      rcases h.found u hu with rfl | ⟨u', hu', hnext⟩
      · exact .inl rfl
      · exact .inr ⟨u', List.mem_append_left _ hu', hnext⟩
    · intro u hu hne
      rcases List.mem_append.1 hu with hu | hu
      · exact h.closed u hu nofun
      · rw [List.mem_singleton.1 hu] at hne
        exact absurd rfl hne
  obtain ⟨hsearched, -, -, hall⟩ := hmid.foldl_push (v := v) (List.mem_append_right _ List.mem_cons_self)
    (fun b hb => hb)
  refine ⟨hsearched.marked, hsearched.nodup, hsearched.found, hsearched.start, fun u hu _ hopens => ?_⟩
  by_cases hu' : u.1 = v.1
  · have heq : u = v := by
      have hinj := List.inj_on_of_nodup_map hsearched.nodup
      have hmem : ∀ u, u ∈ (DepthFirst.expand next opens v { w with stk := stk }).done → u ∈ _ :=
        fun u hu => hsearched.marked.subset (List.mem_append_left _ hu)
      refine hinj (hmem u hu) (hmem v ?_) hu'
      rw [done_expand]
      exact List.mem_append_right _ List.mem_cons_self
    exact heq ▸ hall (heq ▸ hopens)
  · exact hsearched.closed u hu (fun h => hu' (Option.some.inj h)) hopens

end Pushing

/-! ## The end of a search -/

/-- A marked vertex lies behind as many others as its depth says, itself included. -/
lemma Searched.exists_path (h : w.Searched next opens start none) (hv : v ∈ w.marked) :
    ∃ path : List α, path.length = v.2 ∧ path.Nodup ∧ ∀ a ∈ path, (∃ d ≤ v.2, (a, d) ∈ w.marked) ∧
      Relation.ReflTransGen (Step next) start a ∧ Relation.ReflTransGen (Step next) a v.1 := by
  obtain ⟨x, d⟩ := v
  induction d using Nat.strong_induction_on generalizing x with
  | _ d ih =>
    rcases h.found (x, d) hv with heq | ⟨u, hu, hnext, hdepth⟩
    · obtain ⟨rfl, rfl⟩ := Prod.mk.inj heq
      refine ⟨[x], rfl, List.nodup_singleton x, fun a ha => ?_⟩
      obtain rfl := List.mem_singleton.1 ha
      exact ⟨⟨1, le_refl 1, hv⟩, .refl, .refl⟩
    · dsimp only at hnext hdepth
      have humarked := h.marked.subset (List.mem_append_left _ hu)
      obtain ⟨path, hlength, hnodup, hpath⟩ := ih u.2 (by omega) u.1 humarked
      dsimp only at hlength hpath
      have hnew : x ∉ path := by
        intro hmem
        obtain ⟨⟨d', hle, hmarked⟩, -⟩ := hpath x hmem
        have heq := List.inj_on_of_nodup_map h.nodup hmarked hv rfl
        have hd : d' = d := congrArg Prod.snd heq
        omega
      refine ⟨path ++ [x], ?_, ?_, fun a ha => ?_⟩
      · rw [List.length_append, hlength, List.length_singleton, hdepth]
      · exact List.nodup_append.2 ⟨hnodup, List.nodup_singleton x, fun a ha b hb heq =>
          hnew (List.mem_singleton.1 hb ▸ heq ▸ ha)⟩
      · have hstart : Relation.ReflTransGen (Step next) start u.1 := by
          cases path with
          | nil =>
            have hpos : u.2 ≠ 0 := by
              rcases h.found u humarked with rfl | ⟨u', -, -, hu'⟩
              · exact Nat.one_ne_zero
              · omega
            exact absurd hlength.symm hpos
          | cons a path =>
            obtain ⟨-, hfrom, hto⟩ := hpath a List.mem_cons_self
            exact hfrom.trans hto
        rcases List.mem_append.1 ha with ha | ha
        · obtain ⟨⟨d', hle, hmarked⟩, hfrom, hto⟩ := hpath a ha
          exact ⟨⟨d', by omega, hmarked⟩, hfrom, hto.tail hnext⟩
        · obtain rfl := List.mem_singleton.1 ha
          exact ⟨⟨d, le_refl d, hv⟩, hstart.tail hnext, .refl⟩

lemma Searched.reached (h : w.Searched next opens start none) (hv : v ∈ w.marked) :
    Relation.ReflTransGen (Step next) start v.1 := by
  obtain ⟨path, hlength, -, hpath⟩ := h.exists_path hv
  cases path with
  | nil =>
    have hpos : v.2 ≠ 0 := by
      rcases h.found v hv with rfl | ⟨u, -, -, hu⟩
      · exact Nat.one_ne_zero
      · omega
    exact absurd hlength.symm hpos
  | cons a path =>
    obtain ⟨-, hfrom, hto⟩ := hpath a List.mem_cons_self
    exact hfrom.trans hto

/-- What was not marked lies behind a vertex at a depth that is too great. -/
lemma Searched.marked_or_cut (h : w.Searched next opens start none) (hstk : w.stk = []) {x : α}
    (hx : Relation.ReflTransGen (Step next) start x) :
    x ∈ w.marked.map Prod.fst ∨ ∃ u ∈ w.done, ¬ opens u.2 ∧ Relation.ReflTransGen (Step next) u.1 x := by
  induction hx with
  | refl => exact .inl h.start
  | @tail b c _ hstep ih =>
    rcases ih with hb | ⟨u, hu, hopens, hpath⟩
    · obtain ⟨u, hu, rfl⟩ := List.mem_map.1 hb
      have hdone : u ∈ w.done := by
        have hmem := h.marked.symm.subset hu
        rwa [hstk, List.append_nil] at hmem
      by_cases hopens : opens u.2
      · exact .inl (h.closed u hdone nofun hopens c hstep)
      · exact .inr ⟨u, hdone, hopens, .single hstep⟩
    · exact .inr ⟨u, hu, hopens, hpath.tail hstep⟩

/-- At most `n` vertices are taken from the stack. -/
def run [DecidableEq α] (next : α → List α) (opens : Nat → Prop) [DecidablePred opens] :
    Nat → DepthFirst α → Option (List (α × Nat))
  | _, ⟨[], _, done⟩ => some done
  | 0, ⟨_ :: _, _, _⟩ => none
  | n + 1, ⟨v :: stk, marked, done⟩ => run next opens n (expand next opens v ⟨stk, marked, done⟩)

lemma mem_of_run [DecidableEq α] [DecidablePred opens] {n : Nat} {done : List (α × Nat)}
    (h : run next opens n w = some done) : ∀ v ∈ w.done, v ∈ done := by
  fun_induction run next opens n w with
  | case1 n marked done' =>
    obtain rfl := Option.some.inj h
    exact fun v hv => hv
  | case2 => cases h
  | case3 n v stk marked done' ih =>
    intro u hu
    refine ih h u ?_
    rw [done_expand]
    exact List.mem_append_left _ hu

def init (start : α) : DepthFirst α := ⟨[(start, 1)], [(start, 1)], []⟩

/-- What a search finds: different vertices that can be reached, and for every other one a path to it that is too long.
-/
structure Found (next : α → List α) (opens : Nat → Prop) (start : α) (found : List α) : Prop where
  nodup : found.Nodup
  reached : ∀ x ∈ found, Relation.ReflTransGen (Step next) start x
  cut : ∀ x, Relation.ReflTransGen (Step next) start x → x ∉ found →
    ∃ path : List α, path.Nodup ∧ ¬ opens path.length ∧ ∀ a ∈ path, a ∈ found ∧ Relation.ReflTransGen (Step next) a x

lemma searched_init (start : α) : (init start).Searched next opens start none where
  marked := .refl _
  nodup := List.nodup_singleton start
  found := fun _ hv => .inl (List.mem_singleton.1 hv)
  start := List.mem_singleton_self start
  closed := fun _ hu => absurd hu List.not_mem_nil

lemma Searched.found_of_nil (h : w.Searched next opens start none) (hstk : w.stk = []) :
    Found next opens start (w.done.map Prod.fst) := by
  have hperm := h.marked
  rw [hstk, List.append_nil] at hperm
  have hnames := hperm.map Prod.fst
  refine ⟨hnames.nodup_iff.2 h.nodup, fun x hx => ?_, fun x hx hnot => ?_⟩
  · obtain ⟨v, hv, rfl⟩ := List.mem_map.1 hx
    exact h.reached (hperm.subset hv)
  · rcases h.marked_or_cut hstk hx with hmarked | ⟨u, hu, hopens, hpath⟩
    · exact absurd (hnames.symm.subset hmarked) hnot
    · obtain ⟨path, hlength, hnodup, hbefore⟩ := h.exists_path (hperm.subset hu)
      refine ⟨path, hnodup, hlength ▸ hopens, fun a ha => ?_⟩
      obtain ⟨⟨d, -, hmarked⟩, -, hto⟩ := hbefore a ha
      exact ⟨hnames.symm.subset (List.mem_map_of_mem hmarked), hto.trans hpath⟩

lemma Searched.length_le [DecidableEq α] (h : w.Searched next opens start none)
    (hfin : {x | Relation.ReflTransGen (Step next) start x}.Finite) :
    w.done.length + w.stk.length ≤ {x | Relation.ReflTransGen (Step next) start x}.ncard := by
  have hsub : ((w.marked.map Prod.fst).toFinset : Set α) ⊆ {x | Relation.ReflTransGen (Step next) start x} := by
    intro x hx
    obtain ⟨v, hv, rfl⟩ := List.mem_map.1 (List.mem_toFinset.1 hx)
    exact h.reached hv
  have hcard := Set.ncard_le_ncard hsub hfin
  rwa [Set.ncard_coe_finset, List.toFinset_card_of_nodup h.nodup, List.length_map, ← h.marked.length_eq,
    List.length_append] at hcard

/-- Where finitely many vertices can be reached, the search ends. -/
theorem exists_run [DecidableEq α] (next : α → List α) (opens : Nat → Prop) [DecidablePred opens] (start : α)
    (hfin : {x | Relation.ReflTransGen (Step next) start x}.Finite) :
    ∃ done : List (α × Nat), Found next opens start (done.map Prod.fst) ∧
      ∀ n, {x | Relation.ReflTransGen (Step next) start x}.ncard ≤ n → run next opens n (init start) = some done := by
  have hrun : ∀ (k : Nat) (w : DepthFirst α), w.Searched next opens start none →
      {x | Relation.ReflTransGen (Step next) start x}.ncard ≤ k + w.done.length → ∃ done : List (α × Nat),
        Found next opens start (done.map Prod.fst) ∧ ∀ n ≥ k, run next opens n w = some done := by
    intro k
    induction k with
    | zero =>
      intro w hw hk
      have hle := hw.length_le hfin
      have hstk : w.stk = [] := List.eq_nil_of_length_eq_zero (by omega)
      refine ⟨w.done, hw.found_of_nil hstk, fun n _ => ?_⟩
      obtain ⟨stk, marked, done⟩ := w
      obtain rfl : stk = [] := hstk
      cases n <;> rfl
    | succ k ih =>
      intro w hw hk
      cases hstk : w.stk with
      | nil =>
        refine ⟨w.done, hw.found_of_nil hstk, fun n _ => ?_⟩
        obtain ⟨stk, marked, done⟩ := w
        obtain rfl : stk = [] := hstk
        cases n <;> rfl
      | cons v stk =>
        have hexpand := hw.expand hstk
        have hlength : (expand next opens v { w with stk := stk }).done.length = w.done.length + 1 := by
          rw [done_expand, List.length_append, List.length_singleton]
        obtain ⟨done, hfound, hrun⟩ := ih _ hexpand (by omega)
        refine ⟨done, hfound, fun n hn => ?_⟩
        obtain ⟨m, rfl⟩ : ∃ m, n = m + 1 := ⟨n - 1, by omega⟩
        obtain ⟨stk', marked, done'⟩ := w
        obtain rfl : stk' = v :: stk := hstk
        exact hrun m (by omega)
  obtain ⟨done, hfound, hrun⟩ := hrun _ (init start) (searched_init start) (le_refl _)
  exact ⟨done, hfound, hrun⟩

end DepthFirst

end CppExperiments

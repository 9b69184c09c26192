import CppExperiments.Lib.Counted
import Mathlib.Tactic.Cases

/-!
# Shared pointers

Handles that share a counter, and pass the object to its deleter when the last of them goes. If no allocation of a
counter fails, every object is passed to its deleter once for each time it was given to a handle that is gone.
-/

namespace CppExperiments.Memory.Shared

/-- `shared_ptr_base`: an object, the address of a counter and a function object that may be empty. -/
structure SharedPtr (α δ : Type) where
  data : Option α := none
  cnt : Option Nat := none
  deleter : Option δ := none
  deriving DecidableEq

/-- The living handles in the order of their construction, the counters on the heap, what has been given to a
constructor, and what deleters have been called with. -/
structure State (α δ : Type) where
  handles : List (SharedPtr α δ) := []
  counters : Nat → Option ℤ := fun _ => none
  managed : List (α × δ) := []
  passed : List (Option α × δ) := []

/-- What a program does with handles: a construction names the address that it is granted for a counter, if any, and
everything else the handles that it is done with. -/
inductive Op (α δ : Type) where
  | default
  | construct (data : α) (deleter : δ) (grant : Option Nat)
  | copy (other : Nat)
  | move (other : Nat)
  | copyAssign (this other : Nat)
  | moveAssign (this other : Nat)
  | swap (this other : Nat)
  | destroy (this : Nat)

variable {α δ : Type} {left : δ → Option δ} {s s' : State α δ} {h h' : SharedPtr α δ} {hs : Multiset (SharedPtr α δ)}
  {op : Op α δ} {ops : List (Op α δ)} {a : α} {d : δ} {c i : Nat} {n : ℤ}

/-- A handle that another one has been constructed from by a move, where `left` is what a function object holds that
was moved from. -/
def SharedPtr.moved (left : δ → Option δ) (h : SharedPtr α δ) : SharedPtr α δ := ⟨none, none, h.deleter.bind left⟩

namespace State

/-- `~shared_ptr_base`; `none` where the counter is gone or the function object is empty. -/
def drop (s : State α δ) (this : SharedPtr α δ) : Option (State α δ) :=
  match this.cnt with
  | none => some s
  | some c => (s.counters c).bind fun n =>
    if n = 1 then this.deleter.map fun d =>
      { s with counters := Function.update s.counters c none, passed := s.passed ++ [(this.data, d)] }
    else some { s with counters := Function.update s.counters c (some (n - 1)) }

/-- The copy constructor, up to the handle itself, which is equal to the other one; `none` where the counter is gone. -/
def copied (s : State α δ) (other : SharedPtr α δ) : Option (State α δ) :=
  match other.cnt with
  | none => some s
  | some c => (s.counters c).map fun n => { s with counters := Function.update s.counters c (some (n + 1)) }

/-- The constructor from a pointer and a deleter, whose parameter has been moved from when the counter is allocated. -/
def construct (left : δ → Option δ) (s : State α δ) (data : α) (deleter : δ) : Option Nat → State α δ
  | some c => { s with
      handles := s.handles ++ [⟨some data, some c, some deleter⟩]
      counters := Function.update s.counters c (some 1)
      managed := s.managed ++ [(data, deleter)] }
  | none => { s with
      managed := s.managed ++ [(data, deleter)]
      passed := s.passed ++ (left deleter).toList.map fun d => (some data, d) }

/-- One operation; `none` where a handle is not there or its counter or function is not. -/
def step (left : δ → Option δ) (s : State α δ) : Op α δ → Option (State α δ)
  | .default => some { s with handles := s.handles ++ [{}] }
  | .construct data deleter grant => some (s.construct left data deleter grant)
  | .copy j => s.handles[j]?.bind fun other => (s.copied other).map fun s =>
      { s with handles := s.handles ++ [other] }
  | .move j => s.handles[j]?.map fun other =>
      { s with handles := s.handles.set j (other.moved left) ++ [other] }
  | .copyAssign i j => s.handles[j]?.bind fun other => s.handles[i]?.bind fun this => (s.copied other).bind fun s =>
      drop { s with handles := s.handles.set i other } this
  | .moveAssign i j => s.handles[j]?.bind fun other =>
      let handles := s.handles.set j (other.moved left)
      handles[i]?.bind fun this => drop { s with handles := handles.set i other } this
  | .swap i j => s.handles[j]?.bind fun other => s.handles[i]?.map fun this =>
      { s with handles := (s.handles.set i other).set j this }
  | .destroy i => s.handles[i]?.bind fun this => drop { s with handles := s.handles.eraseIdx i } this

/-- What a program can do: a pointer that it gives to a constructor is fresh, a counter is allocated where there is
none, and the handles that it names are there. -/
def Possible (s : State α δ) : Op α δ → Prop
  | .default => True
  | .construct data _ grant => (∀ h ∈ s.handles, h.data ≠ some data) ∧ ∀ c ∈ grant, s.counters c = none
  | .copy j | .move j | .destroy j => j < s.handles.length
  | .copyAssign i j | .moveAssign i j | .swap i j => i < s.handles.length ∧ j < s.handles.length

/-- A program can do one operation after the other. -/
def Sequence (left : δ → Option δ) (s : State α δ) : List (Op α δ) → Prop
  | [] => True
  | op :: ops => s.Possible op ∧ ∀ s', s.step left op = some s' → Sequence left s' ops

/-- An object is held by one of the handles, which would pass it to this deleter. -/
def Holds (hs : Multiset (SharedPtr α δ)) (a : α) (d : δ) : Prop := ∃ h ∈ hs, h.data = some a ∧ h.deleter = some d

/-- A handle that shares nothing. -/
def Null (h : SharedPtr α δ) : Prop := h.cnt = none ∧ h.data = none

lemma holds_cons : Holds (h ::ₘ hs) a d ↔ (h.data = some a ∧ h.deleter = some d) ∨ Holds hs a d := by
  simp only [Holds, Multiset.mem_cons, or_and_right, exists_or, exists_eq_left]

lemma holds_cons_null (hnull : Null h) : Holds (h ::ₘ hs) a d ↔ Holds hs a d := by
  rw [holds_cons, hnull.2]
  exact or_iff_right fun h => nomatch h.1

lemma holds_cons_mem (hmem : h ∈ hs) : Holds (h ::ₘ hs) a d ↔ Holds hs a d := by
  rw [holds_cons]
  exact or_iff_right_of_imp fun heq => ⟨h, hmem, heq⟩

variable [DecidableEq α] [DecidableEq δ]

/-- What the handles have been given is passed to its deleter or held. -/
structure Accounts (hs : Multiset (SharedPtr α δ)) (managed : List (α × δ)) (passed : List (Option α × δ)) : Prop where
  held : ∀ a d, Holds hs a d → passed.count (some a, d) + 1 = managed.count (a, d)
  gone : ∀ a d, ¬ Holds hs a d → passed.count (some a, d) = managed.count (a, d)
  null : ∀ d, (none, d) ∉ passed

/-- Handles in any place share counters and objects alike. -/
structure Shares (hs : Multiset (SharedPtr α δ)) (s : State α δ) : Prop where
  counted : Counted SharedPtr.cnt s.counters hs
  kinds : ∀ h ∈ hs, Null h ∨ ∃ a c d, h = ⟨some a, some c, some d⟩
  same : ∀ h ∈ hs, ∀ h' ∈ hs, h.cnt = h'.cnt → h.cnt ≠ none → h = h'
  apart : ∀ h ∈ hs, ∀ h' ∈ hs, h.data = h'.data → h.data ≠ none → h.cnt = h'.cnt
  accounts : Accounts hs s.managed s.passed

/-- Each counter is the number of handles that share it, and what the handles have been given is passed to its deleter
or held. -/
structure Sound (s : State α δ) : Prop where
  counters : ∀ c n, s.counters c = some n → n = s.handles.countP (fun h => h.cnt = some c) ∧ 0 < n
  live : ∀ h ∈ s.handles, ∀ c, h.cnt = some c → s.counters c ≠ none
  accounts : Accounts (s.handles : Multiset (SharedPtr α δ)) s.managed s.passed

lemma Accounts.congr {hs' : Multiset (SharedPtr α δ)} {managed : List (α × δ)} {passed : List (Option α × δ)}
    (h : Accounts hs managed passed) (hiff : ∀ a d, Holds hs' a d ↔ Holds hs a d) : Accounts hs' managed passed :=
  ⟨fun a d hh => h.held a d ((hiff a d).1 hh), fun a d hh => h.gone a d fun hh' => hh ((hiff a d).2 hh'), h.null⟩

namespace Shares

lemma with_handles (h : Shares hs s) (handles : List (SharedPtr α δ)) : Shares hs { s with handles := handles } :=
  ⟨h.counted, h.kinds, h.same, h.apart, h.accounts⟩

lemma cons_null (h : Shares hs s) (hnull : Null h') : Shares (h' ::ₘ hs) s where
  counted := h.counted.cons_null hnull.1
  kinds := by
    rw [Multiset.forall_mem_cons]
    exact ⟨.inl hnull, h.kinds⟩
  same x hx y hy heq hne := by
    have hmem : ∀ z ∈ h' ::ₘ hs, z.cnt ≠ none → z ∈ hs := fun z hz hzne =>
      (Multiset.mem_cons.1 hz).resolve_left fun hzh => hzne (hzh ▸ hnull.1)
    exact h.same x (hmem x hx hne) y (hmem y hy (heq ▸ hne)) heq hne
  apart x hx y hy heq hne := by
    have hmem : ∀ z ∈ h' ::ₘ hs, z.data ≠ none → z ∈ hs := fun z hz hzne =>
      (Multiset.mem_cons.1 hz).resolve_left fun hzh => hzne (hzh ▸ hnull.2)
    exact h.apart x (hmem x hx hne) y (hmem y hy (heq ▸ hne)) heq hne
  accounts := h.accounts.congr fun _ _ => holds_cons_null hnull

/-- One more handle like another one shares its counter. -/
lemma copied (h : Shares hs s) (hmem : h' ∈ hs) :
    ∃ t, s.copied h' = some t ∧ Shares (h' ::ₘ hs) t ∧ t.handles = s.handles := by
  rcases h.kinds h' hmem with hnull | ⟨a, c, d, rfl⟩
  · refine ⟨s, ?_, h.cons_null hnull, rfl⟩
    rw [State.copied, hnull.1]
  · obtain ⟨n, hn⟩ := Option.ne_none_iff_exists'.1 fun hnone => h.counted.eq_none_iff.1 hnone _ hmem rfl
    refine ⟨{ s with counters := Function.update s.counters c (some (n + 1)) }, ?_, ⟨?_, ?_, ?_, ?_, ?_⟩, rfl⟩
    · simp only [State.copied, hn, Option.map_some]
    · exact h.counted.cons_shared hn rfl
    · rw [Multiset.forall_mem_cons]
      exact ⟨h.kinds _ hmem, h.kinds⟩
    · simp only [Multiset.forall_mem_cons]
      exact ⟨⟨fun _ _ => trivial, h.same _ hmem⟩, fun x hx => ⟨h.same x hx _ hmem, h.same x hx⟩⟩
    · simp only [Multiset.forall_mem_cons]
      exact ⟨⟨fun _ _ => trivial, h.apart _ hmem⟩, fun x hx => ⟨h.apart x hx _ hmem, h.apart x hx⟩⟩
    · exact h.accounts.congr fun _ _ => holds_cons_mem hmem

/-- The first handle of a fresh object has a counter of its own. -/
lemma fresh (h : Shares hs s) (hdata : ∀ h ∈ hs, h.data ≠ some a) (hc : s.counters c = none) :
    Shares (⟨some a, some c, some d⟩ ::ₘ hs)
      { s with counters := Function.update s.counters c (some 1), managed := s.managed ++ [(a, d)] } where
  counted := h.counted.cons_fresh hc rfl
  kinds := by
    rw [Multiset.forall_mem_cons]
    exact ⟨.inr ⟨a, c, d, rfl⟩, h.kinds⟩
  same := by
    have hcnt := h.counted.eq_none_iff.1 hc
    simp only [Multiset.forall_mem_cons]
    exact ⟨⟨fun _ _ => trivial, fun y hy heq => absurd heq.symm (hcnt y hy)⟩,
      fun x hx => ⟨fun heq => absurd heq (hcnt x hx), h.same x hx⟩⟩
  apart := by
    simp only [Multiset.forall_mem_cons]
    exact ⟨⟨fun _ _ => trivial, fun y hy heq => absurd heq.symm (hdata y hy)⟩,
      fun x hx => ⟨fun heq => absurd heq (hdata x hx), h.apart x hx⟩⟩
  accounts := by
    have hnot : ∀ b e, a = b → ¬ Holds hs b e := fun b e hab ⟨y, hy, hyd, _⟩ => hdata y hy (hab ▸ hyd)
    refine ⟨fun b e hb => ?_, fun b e hb => ?_, h.accounts.null⟩
    · rw [List.count_append, List.count_singleton]
      by_cases heq : (a, d) = (b, e)
      · rw [if_pos (beq_iff_eq.2 heq), h.accounts.gone b e (hnot b e (congrArg Prod.fst heq))]
      · rw [holds_cons] at hb
        have hold : Holds hs b e := hb.resolve_left fun hh =>
          heq (Prod.ext (Option.some.inj hh.1) (Option.some.inj hh.2))
        rw [if_neg fun hh => heq (beq_iff_eq.1 hh), h.accounts.held b e hold, add_zero]
    · rw [holds_cons, not_or] at hb
      have hne : ¬ (a, d) = (b, e) := fun heq =>
        hb.1 ⟨congrArg some (congrArg Prod.fst heq), congrArg some (congrArg Prod.snd heq)⟩
      rw [List.count_append, List.count_singleton, if_neg fun hh => hne (beq_iff_eq.1 hh), h.accounts.gone b e hb.2,
        add_zero]

/-- The last handle of an object passes it to its deleter. -/
lemma accounts_last (h : Shares (⟨some a, some c, some d⟩ ::ₘ hs) s) (hlast : ∀ h' ∈ hs, h'.cnt ≠ some c) :
    Accounts hs s.managed (s.passed ++ [(some a, d)]) := by
  have hnot : ∀ e, ¬ Holds hs a e := fun e ⟨y, hy, hyd, _⟩ =>
    hlast y hy (h.apart _ (Multiset.mem_cons_of_mem hy) _ (Multiset.mem_cons_self _ _) hyd
      (by rw [hyd]; exact Option.some_ne_none _))
  have hcount : ∀ b e, (s.passed ++ [(some a, d)]).count (some b, e) =
      s.passed.count (some b, e) + if (a, d) = (b, e) then 1 else 0 := by
    intro b e
    rw [List.count_append, List.count_singleton]
    simp only [beq_iff_eq, Prod.mk.injEq, Option.some.injEq]
  refine ⟨fun b e hb => ?_, fun b e hb => ?_, fun e hmem => ?_⟩
  · have hne : ¬ (a, d) = (b, e) := by
      rintro heq
      obtain ⟨rfl, rfl⟩ := Prod.mk.inj heq
      exact hnot d hb
    rw [hcount, if_neg hne, add_zero, h.accounts.held b e (holds_cons.2 (.inr hb))]
  · rw [hcount]
    by_cases heq : (a, d) = (b, e)
    · obtain ⟨rfl, rfl⟩ := Prod.mk.inj heq
      rw [if_pos rfl, h.accounts.held a d (holds_cons.2 (.inl ⟨rfl, rfl⟩))]
    · rw [if_neg heq, add_zero, h.accounts.gone b e]
      rw [holds_cons, not_or]
      exact ⟨fun hh => heq (Prod.ext (Option.some.inj hh.1) (Option.some.inj hh.2)), hb⟩
  · rcases List.mem_append.1 hmem with hmem | hmem
    · exact h.accounts.null e hmem
    · exact nomatch congrArg Prod.fst (List.mem_singleton.1 hmem)

/-- A handle goes, and its object with it if it was the last one. -/
lemma drop (h : Shares (h' ::ₘ hs) s) : ∃ t, s.drop h' = some t ∧ Shares hs t ∧ t.handles = s.handles := by
  have hsub : ∀ {y}, y ∈ hs → y ∈ h' ::ₘ hs := fun hy => Multiset.mem_cons_of_mem hy
  have hkinds : ∀ y ∈ hs, Null y ∨ ∃ a c d, y = ⟨some a, some c, some d⟩ := fun y hy => h.kinds y (hsub hy)
  have hsame : ∀ x ∈ hs, ∀ y ∈ hs, x.cnt = y.cnt → x.cnt ≠ none → x = y :=
    fun x hx y hy => h.same x (hsub hx) y (hsub hy)
  have hapart : ∀ x ∈ hs, ∀ y ∈ hs, x.data = y.data → x.data ≠ none → x.cnt = y.cnt :=
    fun x hx y hy => h.apart x (hsub hx) y (hsub hy)
  rcases h.kinds h' (Multiset.mem_cons_self _ _) with hnull | ⟨a, c, d, rfl⟩
  · refine ⟨s, ?_, ⟨h.counted.of_cons_null hnull.1, hkinds, hsame, hapart, ?_⟩, rfl⟩
    · rw [State.drop, hnull.1]
    · exact h.accounts.congr fun _ _ => (holds_cons_null hnull).symm
  · obtain ⟨n, hn, hiff, hcounted⟩ := h.counted.release rfl
    simp only [State.drop, hn, Option.bind_some]
    by_cases hone : n = 1
    · rw [if_pos hone]
      rw [if_pos hone] at hcounted
      exact ⟨_, rfl, ⟨hcounted, hkinds, hsame, hapart, h.accounts_last (hiff.1 hone)⟩, rfl⟩
    · rw [if_neg hone]
      rw [if_neg hone] at hcounted
      have hmem : (⟨some a, some c, some d⟩ : SharedPtr α δ) ∈ hs := by
        obtain ⟨y, hy⟩ := not_forall.1 fun hall => hone (hiff.2 hall)
        obtain ⟨hy, hyc⟩ := Classical.not_imp.1 hy
        rw [not_not] at hyc
        rw [h.same _ (Multiset.mem_cons_self _ _) y (hsub hy) hyc.symm (Option.some_ne_none _)]
        exact hy
      exact ⟨_, rfl, ⟨hcounted, hkinds, hsame, hapart, h.accounts.congr fun _ _ => (holds_cons_mem hmem).symm⟩, rfl⟩

end Shares

end State

lemma SharedPtr.moved_null (left : δ → Option δ) (h : SharedPtr α δ) : State.Null (h.moved left) := ⟨rfl, rfl⟩

/-- The allocation of a counter, where there is one, succeeds. -/
def Op.Granted : Op α δ → Prop
  | .construct _ _ grant => grant ≠ none
  | _ => True

namespace State

variable [DecidableEq α] [DecidableEq δ]

lemma Shares.moveAssign {handles : List (SharedPtr α δ)} {this other : SharedPtr α δ}
    (h : Shares (other ::ₘ (handles : Multiset (SharedPtr α δ))) s) (hi : handles[i]? = some this) :
    ∃ t, State.drop { s with handles := handles.set i other } this = some t ∧ Shares t.handles t := by
  have hcons : this ::ₘ (handles.set i other : Multiset (SharedPtr α δ)) = other ::ₘ handles := coe_set_cons hi other
  obtain ⟨t, hdrop, ht, hhandles⟩ := ((hcons ▸ h).with_handles (handles.set i other)).drop
  exact ⟨t, hdrop, hhandles ▸ ht⟩

theorem Shares.step (left : δ → Option δ) (h : Shares s.handles s) (hposs : s.Possible op) (hgrant : op.Granted) :
    ∃ t, s.step left op = some t ∧ Shares t.handles t := by
  have hget : ∀ {l : List (SharedPtr α δ)} {i}, i < l.length → ∃ x, l[i]? = some x := fun hi =>
    ⟨_, List.getElem?_eq_getElem hi⟩
  have hmoved : ∀ {j other}, s.handles[j]? = some other →
      Shares (other ::ₘ (s.handles.set j (other.moved left) : Multiset (SharedPtr α δ))) s := by
    intro j other hj
    rw [coe_set_cons hj]
    exact h.cons_null (other.moved_null left)
  cases op with
  | default =>
    refine ⟨_, rfl, ?_⟩
    rw [coe_concat]
    exact (h.cons_null ⟨rfl, rfl⟩).with_handles _
  | construct data deleter grant =>
    obtain ⟨c, rfl⟩ := Option.ne_none_iff_exists'.1 hgrant
    refine ⟨_, rfl, ?_⟩
    rw [construct, coe_concat]
    exact (h.fresh hposs.1 (hposs.2 c rfl)).with_handles _
  | copy j =>
    obtain ⟨other, hj⟩ := hget hposs
    obtain ⟨t, hcopied, ht, hhandles⟩ := h.copied (List.mem_of_getElem? hj)
    refine ⟨{ t with handles := t.handles ++ [other] }, ?_, ?_⟩
    · simp only [State.step, hj, hcopied, Option.bind_some, Option.map_some]
    · rw [coe_concat, hhandles]
      exact ht.with_handles _
  | move j =>
    obtain ⟨other, hj⟩ := hget hposs
    refine ⟨{ s with handles := s.handles.set j (other.moved left) ++ [other] }, ?_, ?_⟩
    · simp only [State.step, hj, Option.map_some]
    · rw [coe_concat]
      exact (hmoved hj).with_handles _
  | copyAssign i j =>
    obtain ⟨other, hj⟩ := hget hposs.2
    obtain ⟨this, hi⟩ := hget hposs.1
    obtain ⟨t, hcopied, ht, hhandles⟩ := h.copied (List.mem_of_getElem? hj)
    simp only [State.step, hj, hi, hcopied, Option.bind_some, hhandles]
    exact ht.moveAssign hi
  | moveAssign i j =>
    obtain ⟨other, hj⟩ := hget hposs.2
    obtain ⟨this, hi⟩ := hget (List.length_set (i := j) (a := other.moved left) ▸ hposs.1)
    simp only [State.step, hj, hi, Option.bind_some]
    exact (hmoved hj).moveAssign hi
  | swap i j =>
    obtain ⟨other, hj⟩ := hget hposs.2
    obtain ⟨this, hi⟩ := hget hposs.1
    refine ⟨{ s with handles := (s.handles.set i other).set j this }, ?_, ?_⟩
    · simp only [State.step, hj, hi, Option.bind_some, Option.map_some]
    · have hj' : (s.handles.set i other)[j]? = some other := by
        by_cases hij : i = j
        · rw [hij, List.getElem?_set_self hposs.2]
        · rw [List.getElem?_set_ne hij, hj]
      have hcoe : ((s.handles.set i other).set j this : Multiset (SharedPtr α δ)) = s.handles := by
        rw [← Multiset.cons_inj_right other, coe_set_cons hj', coe_set_cons hi]
      rw [hcoe]
      exact h.with_handles _
  | destroy i =>
    obtain ⟨this, hi⟩ := hget hposs
    have hcons := coe_eraseIdx_cons hi
    obtain ⟨t, hdrop, ht, hhandles⟩ := ((hcons.symm ▸ h).with_handles (s.handles.eraseIdx i)).drop
    refine ⟨t, ?_, hhandles ▸ ht⟩
    simp only [State.step, hi, Option.bind_some, hdrop]

theorem Shares.sound (h : Shares s.handles s) : s.Sound where
  counters c n hn := by
    obtain ⟨heq, hex⟩ := h.counted.eq_some_iff.1 hn
    refine ⟨by rw [heq, shares, Multiset.coe_countP], ?_⟩
    have hpos := Nat.pos_of_ne_zero (shares_ne_zero_iff.2 hex)
    omega
  live x hx c hc hnone := h.counted.eq_none_iff.1 hnone x (Multiset.mem_coe.2 hx) hc
  accounts := h.accounts

lemma shares_empty : Shares (({} : State α δ).handles : Multiset (SharedPtr α δ)) {} where
  counted := counted_zero
  kinds := nofun
  same := nofun
  apart := nofun
  accounts := ⟨fun _ _ ⟨_, h, _⟩ => absurd h (Multiset.notMem_zero _), fun _ _ _ => rfl, fun _ => List.not_mem_nil⟩

lemma Shares.run (h : Shares s.handles s) (hseq : Sequence left s ops) (hgrant : ∀ op ∈ ops, op.Granted) :
    ∃ t, ops.foldlM (State.step left) s = some t ∧ Shares t.handles t := by
  induction ops generalizing s with
  | nil => exact ⟨s, rfl, h⟩
  | cons op ops ih =>
    obtain ⟨t, hstep, ht⟩ := h.step left hseq.1 (hgrant op List.mem_cons_self)
    rw [List.foldlM_cons, hstep]
    exact ih ht (hseq.2 t hstep) fun op hop => hgrant op (List.mem_cons_of_mem _ hop)

/-- If no allocation of a counter fails, every sequence of operations comes to its end, each counter is then the number
of handles that share it, and every object is passed to its deleter once for each time that it was given to a handle,
but for the one that holds it now. -/
theorem run_sound (left : δ → Option δ) (ops : List (Op α δ)) (hseq : Sequence left {} ops)
    (hgrant : ∀ op ∈ ops, op.Granted) : ∃ t, ops.foldlM (State.step left) {} = some t ∧ t.Sound := by
  obtain ⟨t, hrun, ht⟩ := Shares.run shares_empty hseq hgrant
  exact ⟨t, hrun, ht.sound⟩

theorem run_sound_assigned : ∃ t, [Op.construct 7 1 (some 0), .copy 0, .copyAssign 0 0, .moveAssign 0 1, .destroy 1,
    .destroy 0].foldlM (State.step (fun _ : Nat => none)) ({} : State Nat Nat) = some t ∧ t.Sound := by
  refine run_sound (fun _ => none) _ ⟨⟨nofun, fun _ _ => rfl⟩, fun s hs => ?_⟩ (by simp [Op.Granted])
  obtain rfl := Option.some.inj hs
  refine ⟨Nat.one_pos, fun s hs => ?_⟩
  obtain rfl := Option.some.inj hs
  refine ⟨⟨Nat.two_pos, Nat.two_pos⟩, fun s hs => ?_⟩
  obtain rfl := Option.some.inj hs
  refine ⟨⟨Nat.two_pos, Nat.one_lt_two⟩, fun s hs => ?_⟩
  obtain rfl := Option.some.inj hs
  refine ⟨Nat.one_lt_two, fun s hs => ?_⟩
  obtain rfl := Option.some.inj hs
  exact ⟨Nat.one_pos, fun s hs => trivial⟩

/-- Where a function object is empty once it has been moved from, a constructor that gets no counter does not pass the
object to its deleter. -/
theorem run_failing : ¬ ∀ ops : List (Op Nat Nat), Sequence (fun _ => none) {} ops →
    ∃ t, ops.foldlM (State.step fun _ => none) {} = some t ∧ t.Sound := by
  intro h
  obtain ⟨t, hrun, hsound⟩ := h [.construct 7 1 none] ⟨⟨nofun, nofun⟩, fun _ _ => trivial⟩
  obtain rfl := Option.some.inj hrun
  have hgone := hsound.accounts.gone 7 1 fun ⟨x, hx, _⟩ => absurd hx (Multiset.notMem_zero _)
  exact absurd hgone (by decide)

end State

end CppExperiments.Memory.Shared

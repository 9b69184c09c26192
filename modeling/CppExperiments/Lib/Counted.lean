import Mathlib.Data.Multiset.Count
import Mathlib.Logic.Function.Basic
import Mathlib.Algebra.Order.Ring.Int

/-!
# Counted references

Handles share cells, and each cell holds the number of handles that share it. Counting up for one more handle and down
for one less keeps the numbers right, and the number is one before the last handle goes.
-/

namespace CppExperiments

variable {H C : Type*} [DecidableEq C] {cell : H → Option C} {counters : C → Option ℤ} {hs hs' : Multiset H} {h : H}
  {c : C} {n : ℤ}

/-- How many handles share a cell. -/
def shares (cell : H → Option C) (hs : Multiset H) (c : C) : ℕ := hs.countP fun h => cell h = some c

/-- A cell is there if it is shared, and holds the number of handles that share it. -/
def Counted (cell : H → Option C) (counters : C → Option ℤ) (hs : Multiset H) : Prop :=
  ∀ c, counters c = if shares cell hs c = 0 then none else some (shares cell hs c : ℤ)

lemma shares_cons_self (hc : cell h = some c) : shares cell (h ::ₘ hs) c = shares cell hs c + 1 :=
  Multiset.countP_cons_of_pos (p := fun h => cell h = some c) hs hc

lemma shares_cons_ne (hc : cell h ≠ some c) : shares cell (h ::ₘ hs) c = shares cell hs c :=
  Multiset.countP_cons_of_neg (p := fun h => cell h = some c) hs hc

lemma shares_ne_zero_iff : shares cell hs c ≠ 0 ↔ ∃ h ∈ hs, cell h = some c := by
  rw [← Nat.pos_iff_ne_zero, shares, Multiset.countP_pos]

lemma counted_zero : Counted cell (fun _ => none) 0 := fun _ => rfl

namespace Counted

lemma eq_none_iff (hn : Counted cell counters hs) : counters c = none ↔ ∀ h ∈ hs, cell h ≠ some c := by
  rw [hn c]
  by_cases hz : shares cell hs c = 0
  · rw [if_pos hz]
    exact iff_of_true rfl fun h hmem hc => shares_ne_zero_iff.2 ⟨h, hmem, hc⟩ hz
  · rw [if_neg hz]
    obtain ⟨h, hmem, hc⟩ := shares_ne_zero_iff.1 hz
    exact iff_of_false (Option.some_ne_none _) fun hall => hall h hmem hc

lemma eq_some_iff (hn : Counted cell counters hs) :
    counters c = some n ↔ n = shares cell hs c ∧ ∃ h ∈ hs, cell h = some c := by
  rw [hn c, ← shares_ne_zero_iff]
  by_cases hz : shares cell hs c = 0
  · rw [if_pos hz]
    exact iff_of_false nofun fun h => h.2 hz
  · rw [if_neg hz, Option.some.injEq, eq_comm]
    exact (and_iff_left hz).symm

lemma cons_null (hn : Counted cell counters hs) (hc : cell h = none) : Counted cell counters (h ::ₘ hs) := by
  intro c
  rw [shares_cons_ne (by rw [hc]; exact nofun), hn c]

lemma of_cons_null (hn : Counted cell counters (h ::ₘ hs)) (hc : cell h = none) : Counted cell counters hs := by
  intro c
  rw [hn c, shares_cons_ne (by rw [hc]; exact nofun)]

private lemma update_of_shares {o : Option ℤ}
    (hself : o = if shares cell hs' c = 0 then none else some (shares cell hs' c : ℤ))
    (hne : ∀ b, b ≠ c → counters b = if shares cell hs' b = 0 then none else some (shares cell hs' b : ℤ)) :
    Counted cell (Function.update counters c o) hs' := by
  intro b
  by_cases hb : b = c
  · subst hb
    rw [Function.update_self, hself]
  · rw [Function.update_of_ne hb, hne b hb]

omit [DecidableEq C] in
private lemma ne_of_cell {b : C} (hc : cell h = some c) (hb : b ≠ c) : cell h ≠ some b := by
  rw [hc]
  exact fun heq => hb (Option.some.inj heq).symm

/-- A cell that was not there is shared by one handle. -/
lemma cons_fresh (hn : Counted cell counters hs) (hfresh : counters c = none) (hc : cell h = some c) :
    Counted cell (Function.update counters c (some 1)) (h ::ₘ hs) := by
  have hz : shares cell hs c = 0 := by
    by_contra hz
    rw [hn c, if_neg hz] at hfresh
    exact Option.some_ne_none _ hfresh
  refine update_of_shares ?_ fun b hb => ?_
  · rw [shares_cons_self hc, hz]
    rfl
  · rw [shares_cons_ne (ne_of_cell hc hb), hn b]

/-- One more handle shares a cell. -/
lemma cons_shared (hn : Counted cell counters hs) (hcell : counters c = some n) (hc : cell h = some c) :
    Counted cell (Function.update counters c (some (n + 1))) (h ::ₘ hs) := by
  refine update_of_shares ?_ fun b hb => ?_
  · rw [shares_cons_self hc, if_neg (Nat.succ_ne_zero _), (hn.eq_some_iff.1 hcell).1]
    rfl
  · rw [shares_cons_ne (ne_of_cell hc hb), hn b]

/-- A handle goes; it is the last one of its cell if the number was one. -/
lemma release (hn : Counted cell counters (h ::ₘ hs)) (hc : cell h = some c) :
    ∃ n, counters c = some n ∧ (n = 1 ↔ ∀ h' ∈ hs, cell h' ≠ some c) ∧
      Counted cell (Function.update counters c (if n = 1 then none else some (n - 1))) hs := by
  have hiff : ((shares cell hs c + 1 : ℕ) : ℤ) = 1 ↔ shares cell hs c = 0 := by omega
  refine ⟨(shares cell hs c + 1 : ℕ), ?_, ?_, update_of_shares ?_ fun b hb => ?_⟩
  · rw [hn c, shares_cons_self hc, if_neg (Nat.succ_ne_zero _)]
  · rw [hiff, ← not_iff_not, ← ne_eq, shares_ne_zero_iff]
    push Not
    exact Iff.rfl
  · by_cases hz : shares cell hs c = 0
    · rw [if_pos (hiff.2 hz), if_pos hz]
    · rw [if_neg fun h => hz (hiff.1 h), if_neg hz]
      push_cast
      rw [add_sub_cancel_right]
  · rw [hn b, shares_cons_ne (ne_of_cell hc hb)]

end Counted

/-! ## Numbers of a width -/

lemma shares_le_cons (h : H) : shares cell hs c ≤ shares cell (h ::ₘ hs) c :=
  Multiset.countP_le_of_le _ (Multiset.le_cons_self hs h)

lemma shares_cons_le (h : H) : shares cell (h ::ₘ hs) c ≤ shares cell hs c + 1 := by
  by_cases hc : cell h = some c
  · rw [shares_cons_self hc]
  · rw [shares_cons_ne hc]
    exact Nat.le_succ _

/-- The cells hold the numbers of handles up to a multiple of `m`. -/
def CountedMod (m : ℕ) (cell : H → Option C) (counters : C → Option ℤ) (hs : Multiset H) : Prop :=
  ∃ exact, Counted cell exact hs ∧ ∀ c, counters c = (exact c).map fun n => n.bmod m

namespace CountedMod

variable {m : ℕ}

lemma eq_none_iff (hn : CountedMod m cell counters hs) : counters c = none ↔ ∀ h ∈ hs, cell h ≠ some c := by
  obtain ⟨exact, hexact, hmap⟩ := hn
  rw [hmap, Option.map_eq_none_iff, hexact.eq_none_iff]

lemma eq_some (hn : CountedMod m cell counters hs) (hmem : h ∈ hs) (hc : cell h = some c) :
    counters c = some ((shares cell hs c : ℤ).bmod m) := by
  obtain ⟨exact, hexact, hmap⟩ := hn
  rw [hmap, hexact.eq_some_iff.2 ⟨rfl, h, hmem, hc⟩, Option.map_some]

lemma cons_null (hn : CountedMod m cell counters hs) (hc : cell h = none) : CountedMod m cell counters (h ::ₘ hs) := by
  obtain ⟨exact, hexact, hmap⟩ := hn
  exact ⟨exact, hexact.cons_null hc, hmap⟩

lemma of_cons_null (hn : CountedMod m cell counters (h ::ₘ hs)) (hc : cell h = none) :
    CountedMod m cell counters hs := by
  obtain ⟨exact, hexact, hmap⟩ := hn
  exact ⟨exact, hexact.of_cons_null hc, hmap⟩

private lemma map_update {exact : C → Option ℤ} (hmap : ∀ c, counters c = (exact c).map fun n => n.bmod m)
    (o : Option ℤ) (b : C) :
    Function.update counters c (o.map fun n => n.bmod m) b = (Function.update exact c o b).map fun n => n.bmod m := by
  by_cases hb : b = c
  · rw [hb, Function.update_self, Function.update_self]
  · rw [Function.update_of_ne hb, Function.update_of_ne hb, hmap]

lemma cons_fresh (hn : CountedMod m cell counters hs) (hfresh : counters c = none) (hc : cell h = some c) :
    CountedMod m cell (Function.update counters c (some ((1 : ℤ).bmod m))) (h ::ₘ hs) := by
  obtain ⟨exact, hexact, hmap⟩ := hn
  rw [hmap, Option.map_eq_none_iff] at hfresh
  exact ⟨_, hexact.cons_fresh hfresh hc, map_update hmap (some 1)⟩

lemma cons_shared (hn : CountedMod m cell counters hs) (hcell : counters c = some n) (hc : cell h = some c) :
    CountedMod m cell (Function.update counters c (some ((n + 1).bmod m))) (h ::ₘ hs) := by
  obtain ⟨exact, hexact, hmap⟩ := hn
  rw [hmap, Option.map_eq_some_iff] at hcell
  obtain ⟨k, hk, rfl⟩ := hcell
  rw [Int.bmod_add_bmod]
  exact ⟨_, hexact.cons_shared hk hc, map_update hmap (some (k + 1))⟩

/-- Of at most `m` handles one is the last of its cell if the number was one. -/
lemma release (hn : CountedMod m cell counters (h ::ₘ hs)) (hc : cell h = some c) (hm : 2 < m)
    (hfits : shares cell (h ::ₘ hs) c ≤ m) :
    ∃ n, counters c = some n ∧ (n = 1 ↔ ∀ h' ∈ hs, cell h' ≠ some c) ∧
      CountedMod m cell (Function.update counters c (if n = 1 then none else some ((n - 1).bmod m))) hs := by
  obtain ⟨exact, hexact, hmap⟩ := hn
  obtain ⟨k, hk, hiff, hcounted⟩ := hexact.release hc
  have hone : k.bmod m = 1 ↔ k = 1 := by
    have hshares := (hexact.eq_some_iff.1 hk).1
    have hpos := shares_ne_zero_iff.2 ⟨h, Multiset.mem_cons_self h hs, hc⟩
    rw [Int.bmod_eq_iff (by omega)]
    constructor
    · rintro ⟨-, -, hdvd⟩
      obtain ⟨j, hj⟩ := hdvd
      have hj' : j = 0 := by
        by_contra hne
        rcases Int.lt_or_gt_of_ne hne with hneg | hpos
        · have := Int.mul_le_mul_of_nonneg_left (show j ≤ -1 by omega) (show (0 : ℤ) ≤ m by omega)
          omega
        · have := Int.mul_le_mul_of_nonneg_left (show 1 ≤ j by omega) (show (0 : ℤ) ≤ m by omega)
          omega
      rw [hj', mul_zero] at hj
      omega
    · rintro rfl
      exact ⟨by omega, by omega, 0, by omega⟩
  refine ⟨k.bmod m, by rw [hmap, hk, Option.map_some], hone.trans hiff, ?_⟩
  refine ⟨_, hcounted, fun b => ?_⟩
  rw [← map_update hmap]
  by_cases hlast : k = 1
  · rw [if_pos (hone.2 hlast), if_pos hlast, Option.map_none]
  · rw [if_neg (mt hone.1 hlast), if_neg hlast, Option.map_some, Int.bmod_sub_bmod]

end CountedMod

/-! ## Handles in a list -/

lemma coe_eraseIdx_cons {l : List H} {i : ℕ} (hi : l[i]? = some h) : h ::ₘ (l.eraseIdx i : Multiset H) = l := by
  obtain ⟨hlt, rfl⟩ := List.getElem?_eq_some_iff.1 hi
  exact Multiset.coe_eq_coe.2 (List.getElem_cons_eraseIdx_perm hlt)

lemma coe_set_cons {l : List H} {i : ℕ} (hi : l[i]? = some h) (h' : H) :
    h ::ₘ (l.set i h' : Multiset H) = h' ::ₘ (l : Multiset H) := by
  have hi' : (l.set i h')[i]? = some h' := by
    rw [List.getElem?_set_self (List.getElem?_eq_some_iff.1 hi).1]
  rw [← coe_eraseIdx_cons hi', ← coe_eraseIdx_cons hi, List.eraseIdx_set_eq, Multiset.cons_swap]

lemma coe_concat {l : List H} : ((l ++ [h] : List H) : Multiset H) = h ::ₘ (l : Multiset H) :=
  Multiset.coe_eq_coe.2 List.perm_append_comm

end CppExperiments

import CppExperiments.BI.Arithmetic

/-!
# Division

The long division compares by the number of limbs first, so zeros that pile up on top of the remainder
can make it look too large. When that happens, and that the division is right otherwise.
-/

namespace CppExperiments.BI

open Nat

variable {L r quotient higher d2 : Limbs} {a b k m n p q v : Nat}

lemma absCompare_of_length_lt {d1 : Limbs} (h : d1.length < d2.length) : absCompare d1 d2 = -1 := if_pos h

lemma absCompare_of_length_gt {d1 : Limbs} (h : d2.length < d1.length) : absCompare d1 d2 = 1 := by
  rw [absCompare, if_neg (by omega), if_pos h]

lemma absCompare_of_length_eq {d1 : Limbs} (h1 : Bounded d1) (h2 : Bounded d2) (h : d1.length = d2.length) :
    absCompare d1 d2 = order (val d1) (val d2) := by
  rw [absCompare, if_neg (by omega), if_neg (by omega), absCompareLoop_eq h1 h2 h]

lemma order_le_zero : order m n ≤ 0 ↔ m ≤ n := by
  unfold order
  split_ifs <;> omega

lemma order_eq_neg_one : order m n = -1 ↔ m < n := by
  unfold order
  split_ifs <;> simp <;> omega

lemma order_eq_zero : order m n = 0 ↔ m = n := by
  unfold order
  split_ifs <;> simp <;> omega

/-- The binary search finds the last limb whose product does not look larger than the remainder. -/
lemma search_eq (hq : q ≤ 9999) (hcmp : ∀ m ≤ 9999, absCompare (limbs (b * m)) r ≤ 0 ↔ m ≤ q) {low high : Nat}
    {best : Option (Nat × Limbs)} (hlow : low ≤ q + 1) (hle : q ≤ high) (hhigh : high ≤ 9999)
    (hbest : low = q + 1 → best = some (q, limbs (b * q))) :
    search (limbs b) r low high best = .ok (some (q, limbs (b * q))) := by
  induction hn : high + 1 - low using Nat.strong_induction_on generalizing low high best with
  | _ n ih =>
    rw [search]
    by_cases hloop : low ≤ high
    · obtain ⟨mid, hmid, hmidlow, hmidhigh⟩ : ∃ mid, (low + high) / 2 = mid ∧ low ≤ mid ∧ mid ≤ high :=
        ⟨_, rfl, by omega, by omega⟩
      have hbounded : Bounded [mid] := bounded_cons (lt_of_le_of_lt (by omega : mid ≤ 9999) (by decide))
        (by simp [Bounded])
      have hprod : multiply (limbs b) [mid] = .ok (limbs (b * mid)) := by
        rw [multiply_eq (bounded_limbs b) hbounded, val_limbs]
        simp
      simp only [if_pos hloop, hmid, hprod]
      by_cases hfits : mid ≤ q
      · rw [if_pos ((hcmp mid (by omega)).2 hfits)]
        exact ih _ (by omega) (by omega) hle hhigh (fun heq => by rw [show mid = q by omega]) rfl
      · rw [if_neg (fun hc => hfits ((hcmp mid (by omega)).1 hc)), if_neg (by omega)]
        exact ih _ (by omega) hlow (by omega) (by omega) hbest rfl
    · rw [if_neg hloop, hbest (by omega)]

lemma divLoop_less (h : divLoop d2 higher = .ok (quotient, r)) (hcmp : absCompare (a :: r) d2 = -1) :
    divLoop d2 (a :: higher) = .ok (0 :: quotient, a :: r) := by
  rw [divLoop, h]
  change (if absCompare (a :: r) d2 = -1 then _ else _) = _
  rw [if_pos hcmp]
  rfl

lemma divLoop_found {prod r' : Limbs} (h : divLoop d2 higher = .ok (quotient, r)) (hcmp : absCompare (a :: r) d2 ≠ -1)
    (hsearch : search d2 (a :: r) 0 9999 none = .ok (some (q, prod))) (hsub : sub (a :: r) prod = .ok r') :
    divLoop d2 (a :: higher) = .ok (q :: quotient, r') := by
  rw [divLoop, h]
  change (if absCompare (a :: r) d2 = -1 then _ else _) = _
  rw [if_neg hcmp, hsearch]
  change (do let remainder ← sub (a :: r) prod; pure (q :: quotient, remainder)) = _
  rw [hsub]
  rfl

/-! ## One limb at a time -/

/-- The number of limbs of the divisor. -/
abbrev width (b : Nat) : Nat := (limbs b).length

lemma lt_pow_width (b : Nat) : b < BASE ^ width b := lt_base_pow_length_digits one_lt_base

lemma pow_width_le (hb : b ≠ 0) : BASE ^ width b ≤ BASE * b := base_pow_length_digits_le BASE b one_lt_base hb

lemma pow_le_of_lt_width (hb : b ≠ 0) (hk : k < width b) : BASE ^ k ≤ b := by
  have hpow := pow_width_le hb
  have hle : BASE ^ (k + 1) ≤ BASE ^ width b := Nat.pow_le_pow_right (by decide) hk
  rw [pow_succ, Nat.mul_comm] at hle
  exact Nat.le_of_mul_le_mul_left (hle.trans hpow) (by decide)

lemma width_pos (hb : b ≠ 0) : 0 < width b := List.length_pos_iff.2 (digits_ne_nil_iff_ne_zero.2 hb)

/-- The last multiple of the divisor with as many limbs is this multiple. -/
def top (b : Nat) : Nat := (BASE ^ width b - 1) / b

lemma top_le (hb : b ≠ 0) : top b ≤ 9999 := by
  have hpow := pow_width_le hb
  have hpos := Nat.pos_of_ne_zero hb
  have hbase : BASE = 10000 := rfl
  rw [hbase] at hpow
  have hlt : BASE ^ width b - 1 < b * 10000 := by
    rw [hbase]
    omega
  have := Nat.div_lt_of_lt_mul hlt
  rw [top]
  omega

lemma top_pos (hb : b ≠ 0) : 0 < top b := Nat.div_pos (by have := lt_pow_width b; omega) (Nat.pos_of_ne_zero hb)

lemma top_mul_lt (b : Nat) : top b * b < BASE ^ width b := by
  have hle : top b * b ≤ BASE ^ width b - 1 := Nat.div_mul_le_self _ _
  have hpos : 0 < BASE ^ width b := Nat.pow_pos (by decide)
  omega

/-- A remainder without zeros at the top is compared and divided as it should be. -/
lemma divLoop_exact (hb : b ≠ 0) (h : divLoop (limbs b) higher = .ok (quotient, r)) (hr : a :: r = limbs v)
    (hv : v < BASE * b) : ∃ r', divLoop (limbs b) (a :: higher) = .ok (v / b :: quotient, r') ∧ r' = limbs (v % b) := by
  by_cases hless : v < b
  · have hcmp : absCompare (a :: r) (limbs b) = -1 := by rw [hr, absCompare_limbs, order_eq_neg_one.2 hless]
    exact ⟨a :: r, by rw [divLoop_less h hcmp, Nat.div_eq_of_lt hless], by rw [hr, Nat.mod_eq_of_lt hless]⟩
  · have hpos := Nat.pos_of_ne_zero hb
    have hcmp : absCompare (a :: r) (limbs b) ≠ -1 := by rwa [hr, absCompare_limbs, Ne, order_eq_neg_one]
    have hq : v / b ≤ 9999 := Nat.le_of_lt_succ (Nat.div_lt_of_lt_mul (by rwa [Nat.mul_comm]))
    have hsearch : search (limbs b) (a :: r) 0 9999 none = .ok (some (v / b, limbs (b * (v / b)))) := by
      refine search_eq hq (fun m _ => ?_) (Nat.zero_le _) hq le_rfl (fun h => absurd h (Nat.succ_ne_zero _).symm)
      rw [hr, absCompare_limbs, order_le_zero, Nat.le_div_iff_mul_le hpos, Nat.mul_comm]
    have hsub : sub (a :: r) (limbs (b * (v / b))) = .ok (limbs (v % b)) := by
      rw [hr, sub_limbs (Nat.mul_div_le v b), Nat.mod_eq_sub]
    exact ⟨_, divLoop_found h hcmp hsearch hsub, rfl⟩

/-- A remainder that has grown too large stays too large. -/
lemma divLoop_astray (h : divLoop (limbs b) higher = .ok (quotient, limbs v)) (ha : a < BASE)
    (hv : BASE ^ width b ≤ v) : ∃ w, BASE ^ width b ≤ w ∧
      divLoop (limbs b) (a :: higher) = .ok (9999 :: quotient, limbs w) := by
  have hbase : BASE = 10000 := rfl
  have hlt := lt_pow_width b
  have hpos : 0 < BASE ^ width b := Nat.pow_pos (by decide)
  have hcons : a :: limbs v = limbs (a + BASE * v) := (digits_add BASE one_lt_base a v ha (Or.inr (by omega))).symm
  have hless : ∀ m ≤ 9999, b * m ≤ a + BASE * v := by
    intro m hm
    have := Nat.mul_le_mul hlt.le hm
    rw [hbase]
    omega
  have hcmp : absCompare (a :: limbs v) (limbs b) ≠ -1 := by
    rw [hcons, absCompare_limbs, Ne, order_eq_neg_one]
    have := hless 1 (by decide)
    omega
  have hsearch : search (limbs b) (a :: limbs v) 0 9999 none = .ok (some (9999, limbs (b * 9999))) := by
    refine search_eq le_rfl (fun m hm => ?_) (by omega) le_rfl le_rfl (by omega)
    rw [hcons, absCompare_limbs, order_le_zero]
    exact ⟨fun _ => hm, fun _ => hless m hm⟩
  have hsub : sub (a :: limbs v) (limbs (b * 9999)) = .ok (limbs (a + BASE * v - b * 9999)) := by
    rw [hcons, sub_limbs (hless 9999 le_rfl)]
  refine ⟨_, ?_, divLoop_found h hcmp hsearch hsub⟩
  rw [hbase] at hv hlt ⊢
  omega

/-- A remainder with one limb more than the divisor and a zero at the top: the search finds the top multiple, whatever
the remainder is. -/
lemma divLoop_padded (hb : b ≠ 0) (h : divLoop (limbs b) higher = .ok (quotient, r)) (hr : Bounded (a :: r))
    (hlen : (a :: r).length = width b + 1) (hv : val (a :: r) < BASE ^ width b) :
    divLoop (limbs b) (a :: higher) = .ok (top b :: quotient,
      limbs (if top b * b ≤ val (a :: r) then val (a :: r) - top b * b
        else val (a :: r) + BASE ^ (width b + 1) - top b * b)) := by
  have hpos := Nat.pos_of_ne_zero hb
  have hcmp : absCompare (a :: r) (limbs b) ≠ -1 := by
    rw [absCompare_of_length_gt (by rw [hlen]; exact Nat.lt_succ_self _)]
    decide
  have hsearch : search (limbs b) (a :: r) 0 9999 none = .ok (some (top b, limbs (b * top b))) := by
    refine search_eq (top_le hb) (fun m _ => ?_) (Nat.zero_le _) (top_le hb) le_rfl
      (fun h => absurd h (Nat.succ_ne_zero _).symm)
    rw [top, Nat.le_div_iff_mul_le hpos, Nat.mul_comm m b]
    have hwidth := digits_length_le_iff one_lt_base (b * m) (k := width b)
    by_cases hshort : (limbs (b * m)).length ≤ width b
    · have hlt := hwidth.1 hshort
      rw [absCompare_of_length_lt (by rw [hlen]; omega)]
      exact ⟨fun _ => by omega, fun _ => by decide⟩
    · have hge : ¬ b * m < BASE ^ width b := fun hlt => hshort (hwidth.2 hlt)
      have hnot : ¬ b * m ≤ BASE ^ width b - 1 := by omega
      have hcmp : absCompare (limbs (b * m)) (a :: r) = 1 := by
        by_cases heq : (limbs (b * m)).length = (a :: r).length
        · rw [absCompare_of_length_eq (bounded_limbs _) hr heq, val_limbs, order, if_neg (by omega), if_pos (by omega)]
        · exact absCompare_of_length_gt (by omega)
      rw [hcmp]
      exact ⟨fun hle => absurd hle (by decide), fun hle => absurd hle hnot⟩
  have htop := top_mul_lt b
  have hshort : (limbs (b * top b)).length ≤ (a :: r).length := by
    rw [hlen, Nat.mul_comm]
    exact Nat.le_succ_of_le ((digits_length_le_iff one_lt_base _).2 htop)
  by_cases hle : top b * b ≤ val (a :: r)
  · rw [if_pos hle, divLoop_found h hcmp hsearch
      (sub_eq hr (bounded_limbs _) hshort (by rw [val_limbs, Nat.mul_comm]; exact hle)),
      val_limbs, Nat.mul_comm b]
  · have hlt : val (a :: r) < val (limbs (b * top b)) := by
      rw [val_limbs, Nat.mul_comm]
      omega
    rw [if_neg hle, divLoop_found h hcmp hsearch (sub_of_lt hr (bounded_limbs _) hshort hlt), val_limbs, Nat.mul_comm b,
      hlen]

/-! ## The whole division -/

/-- A zero limb, and above it a multiple of the divisor. -/
def ZeroUnder (b p : Nat) (L : Limbs) : Prop := L[p]? = some 0 ∧ b ∣ val (L.drop (p + 1))

/-- Somewhere there is a zero limb, above it a multiple of the divisor, and below it as many limbs as the divisor has
that are less than the last multiple of the divisor with so many limbs. -/
def Gap (b : Nat) (L : Limbs) : Prop :=
  ∃ j, ZeroUnder b (width b) (L.drop j) ∧ val ((L.drop j).take (width b)) < top b * b

/-- The remainder is the right one, without zeros at the top. -/
def Tidy (b : Nat) (L r : Limbs) : Prop := r = limbs (val L % b) ∧ ∀ p < width b, ¬ ZeroUnder b p L

/-- The remainder is the right one, and the limbs from the highest zero limb under a multiple down. -/
def Padded (b : Nat) (L r : Limbs) : Prop :=
  ∃ p < width b, ZeroUnder b p L ∧ (∀ p' < width b, ZeroUnder b p' L → p' ≤ p) ∧ r = L.take (p + 1)

def OnTrack (b : Nat) (L quotient r : Limbs) : Prop := val quotient = val L / b ∧ (Tidy b L r ∨ Padded b L r)

def Astray (b : Nat) (quotient r : Limbs) : Prop := val quotient ≠ 0 ∧ ∃ v, BASE ^ width b ≤ v ∧ r = limbs v

@[simp] lemma zeroUnder_succ : ZeroUnder b (p + 1) (a :: L) ↔ ZeroUnder b p L := by
  simp [ZeroUnder]

lemma zeroUnder_zero : ZeroUnder b 0 (a :: L) ↔ a = 0 ∧ b ∣ val L := by
  simp [ZeroUnder]

lemma gap_cons : Gap b (a :: L) ↔
    ZeroUnder b (width b) (a :: L) ∧ val ((a :: L).take (width b)) < top b * b ∨ Gap b L := by
  constructor
  · rintro ⟨j, hj⟩
    cases j with
    | zero => exact Or.inl hj
    | succ j => exact Or.inr ⟨j, hj⟩
  · rintro (h | ⟨j, hj⟩)
    · exact ⟨0, h⟩
    · exact ⟨j + 1, hj⟩

lemma not_gap_nil : ¬ Gap b [] := by
  rintro ⟨j, ⟨hzero, -⟩, -⟩
  simp at hzero

lemma Bounded.take (h : Bounded L) (k : Nat) : Bounded (L.take k) := fun d hd => h d (List.mem_of_mem_take hd)

lemma Bounded.drop (h : Bounded L) (k : Nat) : Bounded (L.drop k) := fun d hd => h d (List.mem_of_mem_drop hd)

lemma val_take_lt (h : Bounded L) (k : Nat) : val (L.take k) < BASE ^ k :=
  lt_of_lt_of_le (val_lt (h.take k)) (Nat.pow_le_pow_right (by decide) (List.length_take_le k L))

lemma val_take_add (L : Limbs) (k p : Nat) (hk : k ≤ L.length) :
    val (L.take (k + p)) = val (L.take k) + BASE ^ k * val ((L.drop k).take p) := by
  rw [List.take_add, val, ofDigits_append, List.length_take, Nat.min_eq_left hk]

/-- Under a multiple, the zero limb and the limbs below it are the remainder. -/
lemma ZeroUnder.mod (hb : b ≠ 0) (hL : Bounded L) (h : ZeroUnder b p L) (hp : p < width b) :
    val (L.take (p + 1)) < BASE ^ p ∧ val (L.take (p + 1)) = val L % b ∧ p < L.length := by
  obtain ⟨hzero, hdvd⟩ := h
  obtain ⟨hlen, hget⟩ := List.getElem?_eq_some_iff.1 hzero
  have htake : val (L.take (p + 1)) = val (L.take p) := by
    rw [val_take_add L p 1 hlen.le, List.drop_eq_getElem_cons hlen, hget]
    simp
  have hlt := val_take_lt hL p
  have hle := pow_le_of_lt_width hb hp
  refine ⟨by rw [htake]; exact hlt, ?_, hlen⟩
  have hsplit : val L = val (L.take (p + 1)) + BASE ^ (p + 1) * val (L.drop (p + 1)) :=
    ofDigits_take_drop BASE (p + 1) L hlen
  obtain ⟨c, hc⟩ := hdvd
  rw [hsplit, hc, Nat.mul_left_comm, Nat.add_mul_mod_self_left, Nat.mod_eq_of_lt (by omega)]

/-- The limb that is added goes below the remainder. -/
lemma cons_div_mod (hb : b ≠ 0) (a : Nat) (L : Limbs) :
    val (a :: L) / b = (a + BASE * (val L % b)) / b + BASE * (val L / b) ∧
      val (a :: L) % b = (a + BASE * (val L % b)) % b := by
  have hsplit := Nat.div_add_mod (val L) b
  have hvalue : val (a :: L) = a + BASE * (val L % b) + b * (BASE * (val L / b)) := by
    rw [val_eq (a :: L), List.headD_cons, List.tail_cons]
    conv_lhs => rw [← hsplit]
    ring
  rw [hvalue, Nat.add_mul_div_left _ _ (Nat.pos_of_ne_zero hb), Nat.add_mul_mod_self_left]
  exact ⟨rfl, rfl⟩

lemma val_cons_quotient (hq : val quotient = val L / b) (k : Nat) :
    val (k :: quotient) = k + BASE * (val L / b) := by
  rw [val_eq (k :: quotient), List.headD_cons, List.tail_cons, hq]

/-- What one limb can lead to. -/
def Next (b : Nat) (L : Limbs) : Prop :=
  ∃ quotient r, divLoop (limbs b) L = .ok (quotient, r) ∧ Bounded quotient ∧
    (¬ Gap b L ∧ OnTrack b L quotient r ∨ Gap b L ∧ Astray b quotient r)

lemma next_of_tidy (hb : b ≠ 0) (h : divLoop (limbs b) L = .ok (quotient, r)) (hquot : Bounded quotient) (ha : a < BASE)
    (hgap : ¬ Gap b L) (hq : val quotient = val L / b) (htidy : Tidy b L r) : Next b (a :: L) := by
  obtain ⟨rfl, hnone⟩ := htidy
  have hwidth := width_pos hb
  have hpos := Nat.pos_of_ne_zero hb
  obtain ⟨hdiv, hmod⟩ := cons_div_mod hb a L
  have hgap' : ¬ Gap b (a :: L) := by
    rw [gap_cons]
    rintro (⟨hzero, -⟩ | hgap')
    · obtain ⟨w, hw⟩ := Nat.exists_eq_add_of_lt hwidth
      rw [hw, Nat.zero_add, zeroUnder_succ] at hzero
      exact hnone w (by omega) hzero
    · exact hgap hgap'
  by_cases hzero : ZeroUnder b 0 (a :: L)
  · -- the first zero on an empty remainder
    obtain ⟨rfl, hdvd⟩ := zeroUnder_zero.1 hzero
    have hrem : val L % b = 0 := Nat.mod_eq_zero_of_dvd hdvd
    rw [hrem] at h hdiv hmod
    have hcmp : absCompare [0] (limbs b) = -1 := by
      by_cases hone : 1 < width b
      · exact absCompare_of_length_lt hone
      · have hlen : [0].length = (limbs b).length := by
          change 1 = width b
          omega
        rw [absCompare_of_length_eq (bounded_cons (by decide) (by simp [Bounded])) (bounded_limbs b) hlen, val_limbs,
          order_eq_neg_one]
        simpa using hpos
    refine ⟨0 :: quotient, [0], divLoop_less (by simpa using h) hcmp, bounded_cons (by decide) hquot,
      Or.inl ⟨hgap', ?_, Or.inr ⟨0, hwidth, hzero, fun p' hp' hz => ?_, rfl⟩⟩⟩
    · rw [val_cons_quotient hq, hdiv]
      simp
    · cases p' with
      | zero => exact le_rfl
      | succ p' => exact absurd (zeroUnder_succ.1 hz) (hnone p' (by omega))
  · obtain ⟨v, hv⟩ : ∃ v, a + BASE * (val L % b) = v := ⟨_, rfl⟩
    rw [hv] at hdiv hmod
    have hlt := Nat.mod_lt (val L) hpos
    have hcons : a :: limbs (val L % b) = limbs v := by
      rw [← hv]
      refine (digits_add BASE one_lt_base a (val L % b) ha ?_).symm
      by_contra hboth
      push Not at hboth
      exact hzero (zeroUnder_zero.2 ⟨hboth.1, Nat.dvd_of_mod_eq_zero hboth.2⟩)
    have hbound : v < BASE * b := by
      have hle : BASE * (val L % b + 1) ≤ BASE * b := Nat.mul_le_mul_left BASE hlt
      rw [Nat.mul_succ] at hle
      omega
    obtain ⟨r', hstep, hr'⟩ := divLoop_exact hb h hcons hbound
    refine ⟨_, r', hstep, bounded_cons ?_ hquot, Or.inl ⟨hgap', ?_, Or.inl ⟨?_, ?_⟩⟩⟩
    · exact Nat.div_lt_of_lt_mul (by rwa [Nat.mul_comm])
    · rw [val_cons_quotient hq, hdiv]
    · rw [hr', hmod]
    · intro p hp hz
      cases p with
      | zero => exact hzero hz
      | succ p => exact hnone p (by omega) (zeroUnder_succ.1 hz)

/-- Under a multiple, the quotient ends in a zero. -/
lemma ZeroUnder.dvd_div (hb : b ≠ 0) (hL : Bounded L) (h : ZeroUnder b p L) (hp : p < width b) : BASE ∣ val L / b := by
  obtain ⟨hlt, -, hlen⟩ := h.mod hb hL hp
  have hle := pow_le_of_lt_width hb hp
  obtain ⟨c, hc⟩ := h.2
  have hsplit : val L = val (L.take (p + 1)) + BASE ^ (p + 1) * val (L.drop (p + 1)) :=
    ofDigits_take_drop BASE (p + 1) L hlen
  rw [hsplit, hc, Nat.mul_left_comm, Nat.add_mul_div_left _ _ (Nat.pos_of_ne_zero hb), Nat.div_eq_of_lt (by omega),
    Nat.zero_add, pow_succ, Nat.mul_comm _ BASE, Nat.mul_assoc]
  exact Nat.dvd_mul_right _ _

/-- While the padded remainder is shorter than the divisor, it only grows. -/
lemma next_of_padded_short (hb : b ≠ 0) (h : divLoop (limbs b) L = .ok (quotient, L.take (p + 1)))
    (hquot : Bounded quotient) (ha : a < BASE) (hL : Bounded L) (hgap : ¬ Gap b L) (hq : val quotient = val L / b)
    (hp : p + 1 < width b) (hzero : ZeroUnder b p L) (hmax : ∀ p' < width b, ZeroUnder b p' L → p' ≤ p) :
    Next b (a :: L) := by
  obtain ⟨hlt, hrem, hlen⟩ := hzero.mod hb hL (by omega)
  obtain ⟨hdiv, hmod⟩ := cons_div_mod hb a L
  have hle := pow_le_of_lt_width hb hp
  have hsmall : a + BASE * val (L.take (p + 1)) < BASE ^ (p + 1) := by
    have hmul : BASE * (val (L.take (p + 1)) + 1) ≤ BASE * BASE ^ p := Nat.mul_le_mul_left BASE hlt
    rw [Nat.mul_succ] at hmul
    rw [pow_succ, Nat.mul_comm _ BASE]
    omega
  have hrlen : (a :: L.take (p + 1)).length = p + 2 := by
    rw [List.length_cons, List.length_take, Nat.min_eq_left hlen]
  have hcmp : absCompare (a :: L.take (p + 1)) (limbs b) = -1 := by
    by_cases hshort : p + 2 < width b
    · exact absCompare_of_length_lt (by rw [hrlen]; exact hshort)
    · have heq : (a :: L.take (p + 1)).length = (limbs b).length := by
        rw [hrlen]
        change p + 2 = width b
        omega
      rw [absCompare_of_length_eq (bounded_cons ha (hL.take _)) (bounded_limbs b) heq, val_limbs, order_eq_neg_one,
        val_eq (_ :: _), List.headD_cons, List.tail_cons]
      omega
  refine ⟨_, _, divLoop_less h hcmp, bounded_cons (by decide) hquot, Or.inl ⟨?_, ?_, Or.inr ⟨p + 1, hp, ?_, ?_, rfl⟩⟩⟩
  · rw [gap_cons]
    rintro (⟨hfull, -⟩ | hgap')
    · obtain ⟨w, hw⟩ := Nat.exists_eq_add_of_lt (Nat.zero_lt_of_lt hp)
      rw [Nat.zero_add] at hw
      rw [hw, zeroUnder_succ] at hfull
      have := hmax w (by omega) hfull
      omega
    · exact hgap hgap'
  · rw [val_cons_quotient hq, hdiv, ← hrem, Nat.div_eq_of_lt (hsmall.trans_le hle)]
  · exact zeroUnder_succ.2 hzero
  · intro p' hp' hz
    cases p' with
    | zero => exact Nat.zero_le _
    | succ p' => exact Nat.succ_le_succ (hmax p' (by omega) (zeroUnder_succ.1 hz))

/-- When it is as long, the next limb decides whether the division goes wrong. -/
lemma next_of_padded_full (hb : b ≠ 0) (h : divLoop (limbs b) L = .ok (quotient, L.take (p + 1)))
    (hquot : Bounded quotient) (ha : a < BASE) (hL : Bounded L) (hgap : ¬ Gap b L) (hq : val quotient = val L / b)
    (hp : p + 1 = width b) (hzero : ZeroUnder b p L) : Next b (a :: L) := by
  obtain ⟨hlt, hrem, hlen⟩ := hzero.mod hb hL (by omega)
  obtain ⟨hdiv, hmod⟩ := cons_div_mod hb a L
  have hpos := Nat.pos_of_ne_zero hb
  have hbase : BASE = 10000 := rfl
  have htoplt := top_mul_lt b
  have htop := top_le hb
  have htoppos := top_pos hb
  have hval : val (a :: L.take (p + 1)) = a + BASE * val (L.take (p + 1)) := by
    rw [val_eq (_ :: _), List.headD_cons, List.tail_cons]
  have hsmall : val (a :: L.take (p + 1)) < BASE ^ width b := by
    have hmul : BASE * (val (L.take (p + 1)) + 1) ≤ BASE * BASE ^ p := Nat.mul_le_mul_left BASE hlt
    rw [Nat.mul_succ] at hmul
    rw [hval, ← hp, pow_succ, Nat.mul_comm _ BASE]
    omega
  have hrlen : (a :: L.take (p + 1)).length = width b + 1 := by
    rw [List.length_cons, List.length_take, Nat.min_eq_left hlen]
    omega
  have hfull : ZeroUnder b (width b) (a :: L) := by
    rw [← hp]
    exact zeroUnder_succ.2 hzero
  -- the limb at the top is zero
  have hbelow : val ((a :: L).take (width b)) = val (a :: L.take (p + 1)) := by
    have htake : a :: L.take (p + 1) = (a :: L).take (width b + 1) := by rw [← hp, List.take_succ_cons]
    have hget : (a :: L)[width b]? = some 0 := hfull.1
    rw [htake, List.take_add_one, hget, Option.toList_some, val, val, ofDigits_append_zero]
  have hstep := divLoop_padded hb h (bounded_cons ha (hL.take _)) hrlen hsmall
  refine ⟨_, _, hstep, bounded_cons (by omega) hquot, ?_⟩
  by_cases hle : top b * b ≤ val (a :: L.take (p + 1))
  · left
    rw [if_pos hle]
    have hquotient : val (a :: L.take (p + 1)) / b = top b := by
      refine le_antisymm (Nat.div_le_div_right (by omega)) ((Nat.le_div_iff_mul_le hpos).2 hle)
    have hsplit : b * top b + val (a :: L.take (p + 1)) % b = val (a :: L.take (p + 1)) := by
      rw [← hquotient]
      exact Nat.div_add_mod _ _
    rw [← hrem, ← hval] at hdiv hmod
    refine ⟨?_, ?_, Or.inl ⟨?_, ?_⟩⟩
    · rw [gap_cons]
      rintro (⟨-, hless⟩ | hgap')
      · omega
      · exact hgap hgap'
    · rw [val_cons_quotient hq, hdiv, hquotient]
    · rw [hmod]
      congr 1
      rw [Nat.mul_comm] at hsplit
      omega
    · -- the last limb of the quotient is not zero
      intro p' hp' hz
      have hdvd := hz.dvd_div hb (bounded_cons ha hL) hp'
      rw [hdiv, hquotient, Nat.dvd_add_left (Nat.dvd_mul_right _ _)] at hdvd
      have := Nat.le_of_dvd htoppos hdvd
      omega
  · right
    rw [if_neg hle]
    refine ⟨gap_cons.2 (Or.inl ⟨hfull, by omega⟩), ?_, _, ?_, rfl⟩
    · rw [val_cons_quotient hq]
      omega
    · rw [pow_succ, hbase] at *
      omega

lemma next_of_astray (h : divLoop (limbs b) L = .ok (quotient, r)) (hquot : Bounded quotient) (ha : a < BASE)
    (hgap : Gap b L) (hastray : Astray b quotient r) : Next b (a :: L) := by
  obtain ⟨-, v, hv, rfl⟩ := hastray
  obtain ⟨w, hw, hstep⟩ := divLoop_astray h ha hv
  refine ⟨_, _, hstep, bounded_cons (by decide) hquot, Or.inr ⟨gap_cons.2 (Or.inr hgap), ?_, w, hw, rfl⟩⟩
  rw [val_eq (_ :: _), List.headD_cons]
  omega

/-- The loop is on track as long as there is no gap, and astray from the first one on. -/
theorem divLoop_spec (hb : b ≠ 0) (hL : Bounded L) : Next b L := by
  induction L with
  | nil =>
    refine ⟨[], [], rfl, hL, Or.inl ⟨not_gap_nil, by simp, Or.inl ⟨by simp, fun p _ hz => ?_⟩⟩⟩
    simpa using hz.1
  | cons a L ih =>
    have ha : a < BASE := hL.headD
    obtain ⟨quotient, r, h, hquot, ⟨hgap, hq, htidy | ⟨p, hp, hzero, hmax, rfl⟩⟩ | ⟨hgap, hastray⟩⟩ := ih hL.tail
    · exact next_of_tidy hb h hquot ha hgap hq htidy
    · by_cases hshort : p + 1 < width b
      · exact next_of_padded_short hb h hquot ha hL.tail hgap hq hshort hzero hmax
      · exact next_of_padded_full hb h hquot ha hL.tail hgap hq (by omega) hzero
    · exact next_of_astray h hquot ha hgap hastray

lemma Padded.remainder (hb : b ≠ 0) (hL : Bounded L) (h : Padded b L r) : Bounded r ∧ val r = val L % b := by
  obtain ⟨p, hp, hzero, -, rfl⟩ := h
  exact ⟨hL.take _, (hzero.mod hb hL hp).2.1⟩

/-- Without a gap the division is right. -/
theorem div_of_not_gap (hb : b ≠ 0) (hL : Bounded L) (hgap : ¬ Gap b L) :
    div L (limbs b) = .ok (limbs (val L / b), limbs (val L % b)) := by
  obtain ⟨quotient, r, h, hquot, ⟨-, hq, hr⟩ | ⟨hgap', -⟩⟩ := divLoop_spec hb hL
  · have hclean : clean r = limbs (val L % b) := by
      rcases hr with ⟨rfl, -⟩ | hpadded
      · exact clean_limbs _
      · obtain ⟨hbounded, hval⟩ := hpadded.remainder hb hL
        rw [clean_eq hbounded, hval]
    rw [div, if_neg (width_pos hb).ne', h, ← hclean, ← hq, ← clean_eq hquot]
    rfl
  · exact absurd hgap' hgap

/-- With a gap the remainder is not less than the divisor. -/
theorem div_of_gap (hb : b ≠ 0) (hL : Bounded L) (hgap : Gap b L) :
    ∃ q v, div L (limbs b) = .ok (limbs q, limbs v) ∧ q ≠ 0 ∧ b < v := by
  obtain ⟨quotient, r, h, hquot, ⟨hgap', -⟩ | ⟨-, hq, v, hv, rfl⟩⟩ := divLoop_spec hb hL
  · exact absurd hgap hgap'
  · refine ⟨val quotient, v, ?_, hq, lt_of_lt_of_le (lt_pow_width b) hv⟩
    rw [div, if_neg (width_pos hb).ne', h, ← clean_eq hquot]
    change Except.ok (clean quotient, clean (limbs v)) = _
    rw [clean_limbs]

lemma width_lt_of_gap (hgap : Gap b L) : width b < L.length := by
  obtain ⟨j, ⟨hget, -⟩, -⟩ := hgap
  obtain ⟨hlen, -⟩ := List.getElem?_eq_some_iff.1 hget
  rw [List.length_drop] at hlen
  omega

lemma lt_of_gap (hgap : Gap b (limbs n)) : b < n := lt_of_length_digits_lt (width_lt_of_gap hgap)

namespace BigInt

/-- Canonical, and zero is not negative. -/
structure Normal (x : BigInt) : Prop where
  canonical : x.Canonical
  sign : x.abs = 0 → x.negative = false

variable {x y : BigInt} {s t : Bool}

lemma Normal.exists_eq (h : x.Normal) : ∃ n s, x = ⟨limbs n, s⟩ ∧ (n = 0 → s = false) :=
  ⟨x.abs, x.negative, by rw [← h.canonical.data], h.sign⟩

lemma normal_limbs (h : n = 0 → s = false) : Normal ⟨limbs n, s⟩ :=
  ⟨canonical_limbs n s, fun hn => h (by rwa [abs, val_limbs] at hn)⟩

lemma empty_limbs : empty ⟨limbs n, s⟩ = decide (n = 0) := by
  by_cases hn : n = 0
  · simp [hn, empty]
  · rw [decide_eq_false hn, empty, List.all_eq_false]
    have hne : limbs n ≠ [] := digits_ne_nil_iff_ne_zero.2 hn
    refine ⟨(limbs n).getLast hne, List.getLast_mem hne, ?_⟩
    have htop := getLast_digit_ne_zero BASE hn
    rw [decide_eq_true_iff, not_not]
    exact Nat.pos_of_ne_zero htop

lemma limbs_one : limbs 1 = [1] := by simp [limbs, BASE]

lemma opDiv_eq (hb : b ≠ 0) : opDiv ⟨limbs n, s⟩ ⟨limbs b, t⟩ =
    if n = b then .ok ⟨[1], s ^^ t⟩ else if n < b then .ok zero
    else do
      let (quotient, _) ← div (limbs n) (limbs b)
      return ⟨quotient, s ^^ t⟩ := by
  rw [opDiv, empty_limbs, decide_eq_false hb]
  simp only [absCompare_limbs, order_eq_zero, order_eq_neg_one, Bool.false_eq_true, if_false]

lemma opMod_eq (hb : b ≠ 0) : opMod ⟨limbs n, s⟩ ⟨limbs b, t⟩ =
    if n = b then .ok zero else if n < b then .ok ⟨limbs n, s⟩
    else do
      let (_, remainder) ← div (limbs n) (limbs b)
      return ⟨remainder, s⟩ := by
  rw [opMod, empty_limbs, decide_eq_false hb]
  simp only [absCompare_limbs, order_eq_zero, order_eq_neg_one, Bool.false_eq_true, if_false]

lemma opDiv_limbs (hb : b ≠ 0) (hgap : ¬ Gap b (limbs n)) : opDiv ⟨limbs n, s⟩ ⟨limbs b, t⟩ =
    .ok (if n < b then zero else ⟨limbs (n / b), s ^^ t⟩) := by
  rw [opDiv_eq hb]
  rcases Nat.lt_trichotomy n b with hlt | rfl | hgt
  · rw [if_neg hlt.ne, if_pos hlt, if_pos hlt]
  · rw [if_pos rfl, if_neg (Nat.lt_irrefl n), Nat.div_self (Nat.pos_of_ne_zero hb), limbs_one]
  · rw [if_neg hgt.ne', if_neg hgt.not_gt, if_neg hgt.not_gt, div_of_not_gap hb (bounded_limbs n) hgap, val_limbs]
    rfl

lemma opMod_limbs (hb : b ≠ 0) (hgap : ¬ Gap b (limbs n)) : opMod ⟨limbs n, s⟩ ⟨limbs b, t⟩ =
    .ok (if n = b then zero else ⟨limbs (n % b), s⟩) := by
  rw [opMod_eq hb]
  rcases Nat.lt_trichotomy n b with hlt | rfl | hgt
  · rw [if_neg hlt.ne, if_pos hlt, if_neg hlt.ne, Nat.mod_eq_of_lt hlt]
  · rw [if_pos rfl, if_pos rfl]
  · rw [if_neg hgt.ne', if_neg hgt.not_gt, if_neg hgt.ne', div_of_not_gap hb (bounded_limbs n) hgap, val_limbs]
    rfl

/-- Across a gap quotient and remainder are canonical, but not the right ones. -/
lemma opDiv_opMod_of_gap (hb : b ≠ 0) (hgap : Gap b (limbs n)) (s t : Bool) : ∃ q v, q ≠ 0 ∧ b < v ∧
    opDiv ⟨limbs n, s⟩ ⟨limbs b, t⟩ = .ok ⟨limbs q, s ^^ t⟩ ∧
      opMod ⟨limbs n, s⟩ ⟨limbs b, t⟩ = .ok ⟨limbs v, s⟩ := by
  obtain ⟨q, v, hdiv, hq, hv⟩ := div_of_gap hb (bounded_limbs n) hgap
  have hgt := lt_of_gap hgap
  refine ⟨q, v, hq, hv, ?_, ?_⟩
  · rw [opDiv_eq hb, if_neg hgt.ne', if_neg hgt.not_gt, hdiv]
    rfl
  · rw [opMod_eq hb, if_neg hgt.ne', if_neg hgt.not_gt, hdiv]
    rfl

/-- Quotient times divisor plus remainder is the dividend, and the remainder is small and signed like it. -/
def Divides (x y : BigInt) : Prop :=
  ∃ q r p, x.opDiv y = .ok q ∧ x.opMod y = .ok r ∧ q.opMul y = .ok p ∧ p.opAdd r = .ok x ∧ r.abs < y.abs ∧
    (r.abs = 0 ∨ r.negative = x.negative)

lemma not_divides_of_gap (hx : x.Canonical) (hy : y.Canonical) (hb : y.abs ≠ 0) (hgap : Gap y.abs x.data) :
    ¬ Divides x y := by
  obtain ⟨n, s, rfl⟩ := hx.exists_eq
  obtain ⟨b, t, rfl⟩ := hy.exists_eq
  rw [abs, val_limbs] at hb hgap
  obtain ⟨q, v, -, hv, -, hmod⟩ := opDiv_opMod_of_gap hb hgap s t
  rintro ⟨q, r, p, -, hr, -, -, hless, -⟩
  obtain rfl : ⟨limbs v, s⟩ = r := Except.ok.inj (hmod.symm.trans hr)
  rw [abs, abs, val_limbs, val_limbs] at hless
  omega

/-- The product is the dividend less the remainder, so the sum is the dividend. -/
lemma opAdd_product (hb : b ≠ 0) (hle : b ≤ n) (s t : Bool) :
    opAdd ⟨limbs (n / b * b), s ^^ t ^^ t⟩ (if n = b then zero else ⟨limbs (n % b), s⟩) = .ok ⟨limbs n, s⟩ := by
  have hsplit := Nat.div_add_mod n b
  rw [Nat.mul_comm] at hsplit
  have hsign : (s ^^ t ^^ t) = s := by cases s <;> cases t <;> rfl
  rw [hsign]
  by_cases heq : n = b
  · subst heq
    have hzero : zero = ⟨limbs 0, false⟩ := rfl
    rw [if_pos rfl, hzero, opAdd_limbs, Nat.div_self (Nat.pos_of_ne_zero hb), Nat.one_mul, if_neg hb,
      if_pos (Nat.pos_of_ne_zero hb)]
    simp
  · rw [if_neg heq, opAdd_limbs, if_pos rfl, hsplit]

lemma divides_of_not_gap (hx : x.Normal) (hy : y.Canonical) (hb : y.abs ≠ 0) (hgap : ¬ Gap y.abs x.data) :
    Divides x y := by
  obtain ⟨n, s, rfl, hs⟩ := hx.exists_eq
  obtain ⟨b, t, rfl⟩ := hy.exists_eq
  rw [abs, val_limbs] at hb hgap
  have hpos := Nat.pos_of_ne_zero hb
  have hdiv := @opDiv_limbs b n s t hb hgap
  have hmod := @opMod_limbs b n s t hb hgap
  by_cases hlt : n < b
  · have hzero : zero = ⟨limbs 0, false⟩ := rfl
    rw [if_pos hlt] at hdiv
    rw [if_neg hlt.ne, Nat.mod_eq_of_lt hlt] at hmod
    refine ⟨_, _, _, hdiv, hmod, opMul_limbs 0 b false t, ?_, ?_, Or.inr rfl⟩
    · rw [opAdd_limbs, Nat.zero_mul, Nat.zero_add, if_neg (Nat.not_lt_zero n), Nat.sub_zero]
      by_cases hn : n = 0
      · subst hn
        rw [hs rfl]
        cases t <;> rfl
      · have hne : ¬ 0 = n := fun h => hn h.symm
        rw [if_neg hne]
        cases s <;> cases t <;> rfl
    · rwa [abs, abs, val_limbs, val_limbs]
  · rw [if_neg hlt] at hdiv
    refine ⟨_, _, _, hdiv, hmod, opMul_limbs (n / b) b (s ^^ t) t, opAdd_product hb (by omega) s t, ?_, ?_⟩
    · by_cases heq : n = b
      · rw [if_pos heq]
        simpa [abs, zero] using hpos
      · rw [if_neg heq, abs, abs, val_limbs, val_limbs]
        exact Nat.mod_lt n hpos
    · by_cases heq : n = b
      · exact Or.inl (by rw [if_pos heq]; rfl)
      · exact Or.inr (by rw [if_neg heq])

/-- Division and remainder fit together exactly if the dividend has no gap. -/
theorem divides_iff (hx : x.Normal) (hy : y.Normal) (hb : y.abs ≠ 0) : Divides x y ↔ ¬ Gap y.abs x.data :=
  ⟨fun h hgap => not_divides_of_gap hx.canonical hy.canonical hb hgap h, divides_of_not_gap hx hy.canonical hb⟩

/-- -10020003 by 17. -/
theorem divides_iff_seventeen :
    Divides ⟨[3, 1002], true⟩ ⟨[17], false⟩ ↔ ¬ Gap (abs ⟨[17], false⟩) [3, 1002] :=
  @divides_iff ⟨[3, 1002], true⟩ ⟨[17], false⟩ ⟨⟨by unfold Bounded; decide, by decide⟩, by decide⟩
    ⟨⟨by unfold Bounded; decide, by decide⟩, by decide⟩ (by decide)

/-- A hundred million by one. -/
theorem not_divides_hundredMillion :
    Normal ⟨[0, 0, 1], false⟩ ∧ Normal ⟨[1], false⟩ ∧ abs ⟨[1], false⟩ ≠ 0 ∧
      ¬ Divides ⟨[0, 0, 1], false⟩ ⟨[1], false⟩ := by
  have hx : Normal ⟨[0, 0, 1], false⟩ := ⟨⟨by unfold Bounded; decide, by decide⟩, by decide⟩
  have hy : Normal ⟨[1], false⟩ := ⟨⟨by unfold Bounded; decide, by decide⟩, by decide⟩
  have hwidth : width 1 = 1 := by rw [width, limbs_one, List.length_singleton]
  refine ⟨hx, hy, by decide, not_divides_of_gap hx.canonical hy.canonical (by decide) ⟨0, ⟨?_, ?_⟩, ?_⟩⟩
  · simp [abs, hwidth]
  · simp [abs]
  · simp [abs, hwidth, top, BASE]

end BigInt

end CppExperiments.BI

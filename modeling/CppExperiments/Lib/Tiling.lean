import Mathlib.Data.List.Basic
import Mathlib.Tactic.Ring

/-!
# Lists in tiles

A list cut into tiles of one size, written back tile by tile in any order, and cut into parts of
given lengths.
-/

namespace CppExperiments

variable {α : Type*}

/-- The `i`-th stretch of `s` elements; the last one may be shorter. -/
def tile (l : List α) (s i : Nat) : List α := (l.drop (i * s)).take s

/-- Overwriting at an offset; what lies between the end and the offset is filled up. -/
def writeAt (fill : α) (l : List α) (offset : Nat) (part : List α) : List α :=
  (l ++ List.replicate (offset - l.length) fill).take offset ++ part ++ l.drop (offset + part.length)

/-- Consecutive parts of given lengths. -/
def cut : List Nat → List α → List (List α)
  | [], _ => []
  | n :: ns, l => l.take n :: cut ns (l.drop n)

variable {l l' : List α} {s i x : Nat}

lemma length_tile (l : List α) (s i : Nat) : (tile l s i).length = min ((i + 1) * s) l.length - i * s := by
  have hsucc : (i + 1) * s = i * s + s := by ring
  rw [tile, List.length_take, List.length_drop, hsucc]
  omega

lemma tile_before {j : Nat} (h : i < j) : i * s + (tile l s i).length ≤ j * s := by
  have hle : (i + 1) * s ≤ j * s := Nat.mul_le_mul_right s h
  have hsucc : (i + 1) * s = i * s + s := by ring
  have hlen := length_tile l s i
  omega

/-- A position lies in a tile exactly if it is the tile that the division yields. -/
lemma mem_tile_iff (hs : 0 < s) : i * s ≤ x ∧ x < i * s + (tile l s i).length ↔ x < l.length ∧ x / s = i := by
  have hsucc : (i + 1) * s = i * s + s := by ring
  rw [length_tile, Nat.div_eq_iff hs, hsucc]
  omega

lemma getElem?_tile (hx : i * s ≤ x) (hx' : x < i * s + s) : (tile l s i)[x - i * s]? = l[x]? := by
  rw [tile, List.getElem?_take_of_lt (by omega), List.getElem?_drop]
  congr 1
  omega

/-- The tiles of blocks of one size put together are the blocks. -/
lemma tile_flatMap {f : Nat → List α} (hf : ∀ i, (f i).length = s) {n : Nat} (hi : i < n) :
    tile ((List.range n).flatMap f) s i = f i := by
  induction n generalizing i f with
  | zero => omega
  | succ n ih =>
    rw [List.range_succ_eq_map, List.flatMap_cons, List.flatMap_map]
    cases i with
    | zero => rw [tile, Nat.zero_mul, List.drop_zero, List.take_left' (hf 0)]
    | succ i =>
      have hsucc : (i + 1) * s = (f 0).length + i * s := by
        rw [hf]
        ring
      have hrest := ih (f := fun j => f (j + 1)) (fun j => hf (j + 1)) (Nat.lt_of_succ_lt_succ hi)
      rw [← hrest, tile, hsucc, ← List.drop_drop, List.drop_left]
      rfl

lemma length_writeAt (fill : α) {offset : Nat} {part : List α} (h : offset + part.length ≤ l.length) :
    (writeAt fill l offset part).length = l.length := by
  simp only [writeAt, List.length_append, List.length_take, List.length_replicate, List.length_drop]
  omega

lemma getElem?_writeAt (fill : α) {offset : Nat} {part : List α} (h : offset + part.length ≤ l.length) (x : Nat) :
    (writeAt fill l offset part)[x]? =
      if offset ≤ x ∧ x < offset + part.length then part[x - offset]? else l[x]? := by
  have hzero : offset - l.length = 0 := by omega
  have hlen : (l.take offset).length = offset := by
    rw [List.length_take]
    omega
  rw [writeAt, hzero, List.replicate_zero, List.append_nil, List.append_assoc]
  by_cases h1 : offset ≤ x
  · rw [List.getElem?_append_right (by omega), hlen]
    by_cases h2 : x < offset + part.length
    · rw [if_pos ⟨h1, h2⟩, List.getElem?_append_left (by omega)]
    · rw [if_neg (fun h => h2 h.2), List.getElem?_append_right (by omega), List.getElem?_drop]
      congr 1
      omega
  · rw [if_neg (fun h => h1 h.1), List.getElem?_append_left (by omega), List.getElem?_take_of_lt (by omega)]

lemma getElem?_tile_eq (l : List α) (s i j : Nat) : (tile l s i)[j]? = if j < s then l[i * s + j]? else none := by
  rw [tile, List.getElem?_take, List.getElem?_drop]

/-- Overwriting one tile by as many elements leaves the other tiles as they are. -/
theorem tile_writeAt (fill : α) {part : List α} (hi : i * s ≤ l.length) (hpart : part.length = (tile l s i).length)
    (k : Nat) : tile (writeAt fill l (i * s) part) s k = if k = i then part else tile l s k := by
  have hsucc : (i + 1) * s = i * s + s := by ring
  have hlen := length_tile l s i
  have hfit : i * s + part.length ≤ l.length := by omega
  apply List.ext_getElem?
  intro j
  rw [getElem?_tile_eq, getElem?_writeAt fill hfit]
  by_cases hk : k = i
  · subst hk
    rw [if_pos rfl, Nat.add_sub_cancel_left]
    by_cases hj : j < part.length
    · rw [if_pos (by omega), if_pos (by omega)]
    · rw [if_neg (show ¬ (k * s ≤ k * s + j ∧ k * s + j < k * s + part.length) by omega),
        List.getElem?_eq_none (not_lt.1 hj)]
      split
      · exact List.getElem?_eq_none (by omega)
      · rfl
  · rw [if_neg hk, getElem?_tile_eq]
    by_cases hj : j < s
    · have hout : ¬ (i * s ≤ k * s + j ∧ k * s + j < i * s + part.length) := by
        intro hin
        have hdiv := ((mem_tile_iff (l := l) (by omega)).1 (hpart ▸ hin)).2
        rw [Nat.mul_comm, Nat.mul_add_div (by omega), Nat.div_eq_of_lt hj] at hdiv
        exact hk hdiv
      rw [if_neg hout]
    · rw [if_neg hj, if_neg hj]

lemma tile_flatMap_range (l : List α) (s n : Nat) : (List.range n).flatMap (tile l s) = l.take (n * s) := by
  induction n with
  | zero => simp
  | succ n ih =>
    rw [List.range_succ, List.flatMap_append, List.flatMap_singleton, ih, tile, Nat.succ_mul, List.take_add]

/-- A list is its tiles, one after the other. -/
theorem flatMap_tile {n : Nat} (h : l.length ≤ n * s) : (List.range n).flatMap (tile l s) = l := by
  rw [tile_flatMap_range, List.take_of_length_le h]

/-- Writing tiles of a list into one of the same length puts them where they belong. -/
lemma getElem?_writeTiles (fill : α) (hs : 0 < s) {order : List Nat} (horder : ∀ i ∈ order, i * s < l.length)
    (hl : l'.length = l.length) (x : Nat) :
    (order.foldl (fun f i => writeAt fill f (i * s) (tile l s i)) l')[x]? =
      if x / s ∈ order then l[x]? else l'[x]? := by
  induction order generalizing l' with
  | nil => simp
  | cons i rest ih =>
    rw [List.forall_mem_cons] at horder
    have hsucc : (i + 1) * s = i * s + s := by ring
    have hlen := length_tile l s i
    have hfit : i * s + (tile l s i).length ≤ l'.length := by omega
    rw [List.foldl_cons, ih horder.2 ((length_writeAt fill hfit).trans hl), getElem?_writeAt fill hfit]
    by_cases hrest : x / s ∈ rest
    · rw [if_pos hrest, if_pos (List.mem_cons_of_mem _ hrest)]
    · rw [if_neg hrest]
      by_cases hin : x < l.length ∧ x / s = i
      · have hrange := (mem_tile_iff (l := l) hs).2 hin
        rw [if_pos hrange, if_pos (by rw [hin.2]; exact List.mem_cons_self ..)]
        exact getElem?_tile hrange.1 (by omega)
      · rw [if_neg ((mem_tile_iff hs).not.2 hin)]
        by_cases hdiv : x / s = i
        · have hout : l.length ≤ x := by
            by_contra hlt
            exact hin ⟨by omega, hdiv⟩
          rw [List.getElem?_eq_none (by omega), List.getElem?_eq_none hout]
          simp
        · rw [if_neg (by simp [hdiv, hrest])]

/-- A list is restored from its tiles, written in any order. -/
theorem writeTiles_eq (fill : α) (hs : 0 < s) {order : List Nat} (horder : ∀ i, i ∈ order ↔ i * s < l.length)
    (hl : l'.length = l.length) : order.foldl (fun f i => writeAt fill f (i * s) (tile l s i)) l' = l := by
  apply List.ext_getElem?
  intro x
  rw [getElem?_writeTiles fill hs (fun i => (horder i).1) hl x]
  by_cases hx : x < l.length
  · have hle : x / s * s ≤ x := Nat.div_mul_le_self x s
    rw [if_pos ((horder _).2 (by omega))]
  · rw [List.getElem?_eq_none (by omega), List.getElem?_eq_none (by omega)]
    simp

lemma length_cut (ns : List Nat) (l : List α) : (cut ns l).length = ns.length := by
  induction ns generalizing l with
  | nil => rfl
  | cons n ns ih => simp [cut, ih]

/-- The `k`-th part starts where the parts before it end. -/
theorem getElem?_cut (ns : List Nat) (l : List α) (k : Nat) :
    (cut ns l)[k]? = ns[k]?.map (fun n => (l.drop (ns.take k).sum).take n) := by
  induction ns generalizing l k with
  | nil => simp [cut]
  | cons n ns ih =>
    cases k with
    | zero => simp [cut]
    | succ k => simp [cut, ih, List.drop_drop]

/-! ## Parts by a property -/

/-- A list falls into the parts of the keys, if no element has two of them. -/
theorem filter_any_perm {κ : Type*} {R : κ → α → Bool} {ks : List κ} (hks : ks.Nodup)
    (h : ∀ a ∈ l, ∀ k ∈ ks, ∀ k' ∈ ks, R k a = true → R k' a = true → k = k') :
    (l.filter fun a => ks.any (R · a)).Perm (ks.flatMap fun k => l.filter (R k)) := by
  induction ks with
  | nil => simp
  | cons k ks ih =>
    rw [List.nodup_cons] at hks
    have ih := ih hks.2 fun a ha k hk k' hk' => h a ha k (List.mem_cons_of_mem _ hk) k' (List.mem_cons_of_mem _ hk')
    have hfirst : (l.filter fun a => (k :: ks).any (R · a)).filter (R k) = l.filter (R k) := by
      rw [List.filter_filter]
      refine List.filter_congr fun a _ => ?_
      rw [List.any_cons, Bool.and_or_distrib_left, Bool.and_self]
      cases R k a <;> simp
    have hrest : (l.filter fun a => (k :: ks).any (R · a)).filter (fun a => !R k a) =
        l.filter fun a => ks.any (R · a) := by
      rw [List.filter_filter]
      refine List.filter_congr fun a ha => ?_
      rw [List.any_cons]
      cases hk : R k a with
      | false => simp
      | true =>
        have hnone : ks.any (R · a) = false := by
          rw [List.any_eq_false]
          intro k' hk' hR
          exact hks.1 (h a ha k List.mem_cons_self k' (List.mem_cons_of_mem _ hk') hk hR ▸ hk')
        rw [hnone]
        rfl
    have hsplit := List.filter_append_perm (R k) (l.filter fun a => (k :: ks).any (R · a))
    rw [hfirst, hrest] at hsplit
    rw [List.flatMap_cons]
    exact hsplit.symm.trans (ih.append_left _)

/-! ## Work on every tile that can fail -/

lemma mapM_eq_some {β : Type*} {f : α → Option β} {g : α → β} (h : ∀ a ∈ l, f a = some (g a)) :
    l.mapM f = some (l.map g) := by
  induction l with
  | nil => rfl
  | cons a l ih =>
    rw [List.forall_mem_cons] at h
    rw [List.mapM_cons, h.1, ih h.2]
    rfl

lemma mapM_eq_none {β : Type*} {f : α → Option β} {a : α} (ha : a ∈ l) (h : f a = none) :
    l.mapM f = none := by
  induction l with
  | nil => cases ha
  | cons b l ih =>
    rw [List.mapM_cons]
    rcases List.mem_cons.1 ha with rfl | hl
    · rw [h]
      rfl
    · rw [ih hl]
      cases f b <;> rfl

lemma exists_of_mem_mapM {β : Type*} {f : α → Option β} {bs : List β} {b : β} (h : l.mapM f = some bs) (hb : b ∈ bs) :
    ∃ a ∈ l, f a = some b := by
  induction l generalizing bs with
  | nil =>
    obtain rfl := Option.some.inj h
    cases hb
  | cons a l ih =>
    rw [List.mapM_cons] at h
    obtain ⟨b', hb', h⟩ := Option.bind_eq_some_iff.1 h
    obtain ⟨bs', hbs', h⟩ := Option.bind_eq_some_iff.1 h
    obtain rfl := Option.some.inj h
    rcases List.mem_cons.1 hb with rfl | hb
    · exact ⟨a, List.mem_cons_self, hb'⟩
    · obtain ⟨a', ha', hf⟩ := ih hbs' hb
      exact ⟨a', List.mem_cons_of_mem a ha', hf⟩

end CppExperiments

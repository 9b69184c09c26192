import Mathlib.Data.List.Nodup
import Mathlib.Tactic.Ring

/-!
# Code 128

The symbols of a Code 128 barcode, their bars, and the text that a sequence of them stands for.
-/

namespace CppExperiments.Code128

inductive CodeSet where
  | A
  | B
  | C
  deriving DecidableEq, Repr

/-- What a symbol stands for between the start symbol and the check symbol. A shift is for one symbol. -/
inductive Meaning where
  | text (chars : List Char)
  | code (set : CodeSet)
  | shift (set : CodeSet)
  | function
  deriving DecidableEq, Repr

def digit (n : Nat) : Char := Char.ofNat (48 + n)

def meaning : CodeSet → Nat → Meaning
  | .A, v =>
    if v < 64 then .text [Char.ofNat (v + 32)]
    else if v < 96 then .text [Char.ofNat (v - 64)]
    else if v = 98 then .shift .B
    else if v = 99 then .code .C
    else if v = 100 then .code .B
    else .function
  | .B, v =>
    if v < 96 then .text [Char.ofNat (v + 32)]
    else if v = 98 then .shift .A
    else if v = 99 then .code .C
    else if v = 101 then .code .A
    else .function
  | .C, v =>
    if v < 100 then .text [digit (v / 10), digit (v % 10)]
    else if v = 100 then .code .B
    else if v = 101 then .code .A
    else .function

def CodeSet.Has (set : CodeSet) (ch : Char) : Prop := ∃ v < 103, meaning set v = .text [ch]

/-- The text of some symbols, of which none is a function symbol. -/
def decode : CodeSet → List Nat → Option (List Char)
  | _, [] => some []
  | set, v :: vs =>
    match meaning set v with
    | .text chars => (decode set vs).map (chars ++ ·)
    | .code set => decode set vs
    | .shift other =>
      match vs with
      | [] => none
      | w :: ws =>
        match meaning other w with
        | .text chars => (decode set ws).map (chars ++ ·)
        | _ => none
    | .function => none

def CodeSet.start : CodeSet → Nat
  | .A => 103
  | .B => 104
  | .C => 105

def stop : Nat := 106

/-- The sum of the symbols, the first of them weighted with `n`, the next with `n + 1` and so on. -/
def weighted : Nat → List Nat → Nat
  | _, [] => 0
  | n, v :: vs => n * v + weighted (n + 1) vs

/-- What the check symbol is taken from. -/
def checksum (start : CodeSet) (data : List Nat) : Nat := start.start + weighted 1 data

def check (start : CodeSet) (data : List Nat) : Nat := checksum start data % 103

/-- The widths of the bars and of the spaces between them. -/
def widths : List String :=
  ["212222", "222122", "222221", "121223", "121322", "131222", "122213", "122312", "132212", "221213", "221312",
    "231212", "112232", "122132", "122231", "113222", "123122", "123221", "223211", "221132", "221231", "213212",
    "223112", "312131", "311222", "321122", "321221", "312212", "322112", "322211", "212123", "212321", "232121",
    "111323", "131123", "131321", "112313", "132113", "132311", "211313", "231113", "231311", "112133", "112331",
    "132131", "113123", "113321", "133121", "313121", "211331", "231131", "213113", "213311", "213131", "311123",
    "311321", "331121", "312113", "312311", "332111", "314111", "221411", "431111", "111224", "111422", "121124",
    "121421", "141122", "141221", "112214", "112412", "122114", "122411", "142112", "142211", "241211", "221114",
    "413111", "241112", "134111", "111242", "121142", "121241", "114212", "124112", "124211", "411212", "421112",
    "421211", "212141", "214121", "412121", "111143", "111341", "131141", "114113", "114311", "411113", "411311",
    "113141", "114131", "311141", "411131", "211412", "211214", "211232", "2331112"]

/-- Bars and spaces in turn. -/
def modules (bar : Bool) : List Nat → List Bool
  | [] => []
  | width :: rest => List.replicate width bar ++ modules (!bar) rest

def bars (symbol : Nat) : List Bool := modules true ((widths.getD symbol "").toList.map fun ch => ch.toNat - 48)

/-- The bars are those of a start symbol, the data, the check symbol and the stop symbol, and the data is the text. -/
def Reads (bits : List Bool) (text : List Char) : Prop :=
  ∃ start data, (∀ v ∈ data, v < 103) ∧
    bits = (start.start :: (data ++ [check start data, stop])).flatMap bars ∧ decode start data = some text

/-! ## Bars -/

section

variable {α β : Type} {f : α → List β} {p : α → Prop}

/-- Words none of which begins another are told apart however they are joined. -/
lemma flatMap_injective (hne : ∀ a, p a → f a ≠ []) (hcode : ∀ a b x y, p a → p b → f a ++ x = f b ++ y → a = b)
    {l₁ l₂ : List α} (h₁ : ∀ a ∈ l₁, p a) (h₂ : ∀ a ∈ l₂, p a) (h : l₁.flatMap f = l₂.flatMap f) : l₁ = l₂ := by
  induction l₁ generalizing l₂ with
  | nil =>
    cases l₂ with
    | nil => rfl
    | cons b l₂ =>
      rw [List.flatMap_nil, List.flatMap_cons] at h
      exact absurd (List.append_eq_nil_iff.1 h.symm).1 (hne b (h₂ b List.mem_cons_self))
  | cons a l₁ ih =>
    cases l₂ with
    | nil =>
      rw [List.flatMap_nil, List.flatMap_cons] at h
      exact absurd (List.append_eq_nil_iff.1 h).1 (hne a (h₁ a List.mem_cons_self))
    | cons b l₂ =>
      rw [List.forall_mem_cons] at h₁ h₂
      rw [List.flatMap_cons, List.flatMap_cons] at h
      obtain rfl := hcode a b _ _ h₁.1 h₂.1 h
      rw [ih h₁.2 h₂.2 (List.append_cancel_left h)]

end

/-- The bars as the digits of a number. -/
def barsNumber (bits : List Bool) : Nat := bits.foldl (fun n bit => 2 * n + bit.toNat) 0

lemma map_bars : (List.range 107).map bars =
    widths.map fun w => modules true (w.toList.map fun ch => ch.toNat - 48) := by
  apply List.ext_getElem
  · rw [List.length_map, List.length_map]
    rfl
  · intro i h₁ h₂
    rw [List.length_map] at h₂
    rw [List.getElem_map, List.getElem_map, List.getElem_range, bars, List.getD_eq_getElem?_getD,
      List.getElem?_eq_getElem h₂, Option.getD_some]

/-- The widths as numbers. -/
def widthNumbers : List (List Nat) :=
  [[2, 1, 2, 2, 2, 2], [2, 2, 2, 1, 2, 2], [2, 2, 2, 2, 2, 1], [1, 2, 1, 2, 2, 3], [1, 2, 1, 3, 2, 2],
    [1, 3, 1, 2, 2, 2], [1, 2, 2, 2, 1, 3], [1, 2, 2, 3, 1, 2], [1, 3, 2, 2, 1, 2], [2, 2, 1, 2, 1, 3],
    [2, 2, 1, 3, 1, 2], [2, 3, 1, 2, 1, 2], [1, 1, 2, 2, 3, 2], [1, 2, 2, 1, 3, 2], [1, 2, 2, 2, 3, 1],
    [1, 1, 3, 2, 2, 2], [1, 2, 3, 1, 2, 2], [1, 2, 3, 2, 2, 1], [2, 2, 3, 2, 1, 1], [2, 2, 1, 1, 3, 2],
    [2, 2, 1, 2, 3, 1], [2, 1, 3, 2, 1, 2], [2, 2, 3, 1, 1, 2], [3, 1, 2, 1, 3, 1], [3, 1, 1, 2, 2, 2],
    [3, 2, 1, 1, 2, 2], [3, 2, 1, 2, 2, 1], [3, 1, 2, 2, 1, 2], [3, 2, 2, 1, 1, 2], [3, 2, 2, 2, 1, 1],
    [2, 1, 2, 1, 2, 3], [2, 1, 2, 3, 2, 1], [2, 3, 2, 1, 2, 1], [1, 1, 1, 3, 2, 3], [1, 3, 1, 1, 2, 3],
    [1, 3, 1, 3, 2, 1], [1, 1, 2, 3, 1, 3], [1, 3, 2, 1, 1, 3], [1, 3, 2, 3, 1, 1], [2, 1, 1, 3, 1, 3],
    [2, 3, 1, 1, 1, 3], [2, 3, 1, 3, 1, 1], [1, 1, 2, 1, 3, 3], [1, 1, 2, 3, 3, 1], [1, 3, 2, 1, 3, 1],
    [1, 1, 3, 1, 2, 3], [1, 1, 3, 3, 2, 1], [1, 3, 3, 1, 2, 1], [3, 1, 3, 1, 2, 1], [2, 1, 1, 3, 3, 1],
    [2, 3, 1, 1, 3, 1], [2, 1, 3, 1, 1, 3], [2, 1, 3, 3, 1, 1], [2, 1, 3, 1, 3, 1], [3, 1, 1, 1, 2, 3],
    [3, 1, 1, 3, 2, 1], [3, 3, 1, 1, 2, 1], [3, 1, 2, 1, 1, 3], [3, 1, 2, 3, 1, 1], [3, 3, 2, 1, 1, 1],
    [3, 1, 4, 1, 1, 1], [2, 2, 1, 4, 1, 1], [4, 3, 1, 1, 1, 1], [1, 1, 1, 2, 2, 4], [1, 1, 1, 4, 2, 2],
    [1, 2, 1, 1, 2, 4], [1, 2, 1, 4, 2, 1], [1, 4, 1, 1, 2, 2], [1, 4, 1, 2, 2, 1], [1, 1, 2, 2, 1, 4],
    [1, 1, 2, 4, 1, 2], [1, 2, 2, 1, 1, 4], [1, 2, 2, 4, 1, 1], [1, 4, 2, 1, 1, 2], [1, 4, 2, 2, 1, 1],
    [2, 4, 1, 2, 1, 1], [2, 2, 1, 1, 1, 4], [4, 1, 3, 1, 1, 1], [2, 4, 1, 1, 1, 2], [1, 3, 4, 1, 1, 1],
    [1, 1, 1, 2, 4, 2], [1, 2, 1, 1, 4, 2], [1, 2, 1, 2, 4, 1], [1, 1, 4, 2, 1, 2], [1, 2, 4, 1, 1, 2],
    [1, 2, 4, 2, 1, 1], [4, 1, 1, 2, 1, 2], [4, 2, 1, 1, 1, 2], [4, 2, 1, 2, 1, 1], [2, 1, 2, 1, 4, 1],
    [2, 1, 4, 1, 2, 1], [4, 1, 2, 1, 2, 1], [1, 1, 1, 1, 4, 3], [1, 1, 1, 3, 4, 1], [1, 3, 1, 1, 4, 1],
    [1, 1, 4, 1, 1, 3], [1, 1, 4, 3, 1, 1], [4, 1, 1, 1, 1, 3], [4, 1, 1, 3, 1, 1], [1, 1, 3, 1, 4, 1],
    [1, 1, 4, 1, 3, 1], [3, 1, 1, 1, 4, 1], [4, 1, 1, 1, 3, 1], [2, 1, 1, 4, 1, 2], [2, 1, 1, 2, 1, 4],
    [2, 1, 1, 2, 3, 2], [2, 3, 3, 1, 1, 1, 2]]

lemma map_bars_eq : (List.range 107).map bars = widthNumbers.map (modules true) := by
  rw [map_bars]
  unfold widths
  simp only [List.map_cons, List.map_nil, String.reduceToList]
  rfl

lemma nodup_barsNumber : ((List.range 107).map fun a => barsNumber ((bars a).take 11)).Nodup := by
  have hmap : ((List.range 107).map fun a => barsNumber ((bars a).take 11)) =
      ((List.range 107).map bars).map fun bits => barsNumber (bits.take 11) := by
    rw [List.map_map]
    rfl
  rw [hmap, map_bars_eq]
  decide +kernel

lemma take_bars (a : Nat) (ha : a < 107) (b : Nat) (hb : b < 107) (h : (bars a).take 11 = (bars b).take 11) :
    a = b := by
  have hinj := List.inj_on_of_nodup_map nodup_barsNumber
  apply hinj (List.mem_range.2 ha) (List.mem_range.2 hb)
  rw [h]

lemma le_length_bars (a : Nat) (ha : a < 107) : 11 ≤ (bars a).length := by
  have hall : ∀ bits ∈ (List.range 107).map bars, 11 ≤ bits.length := by
    rw [map_bars_eq]
    decide +kernel
  exact hall _ (List.mem_map_of_mem (List.mem_range.2 ha))

lemma flatMap_bars_injective {l₁ l₂ : List Nat} (h₁ : ∀ a ∈ l₁, a < 107) (h₂ : ∀ a ∈ l₂, a < 107)
    (h : l₁.flatMap bars = l₂.flatMap bars) : l₁ = l₂ := by
  refine flatMap_injective (p := (· < 107)) (fun a ha hnil => ?_) (fun a b x y ha hb heq => ?_) h₁ h₂ h
  · have := le_length_bars a ha
    rw [hnil] at this
    exact absurd this (by decide)
  · refine take_bars a ha b hb ?_
    have := congrArg (List.take 11) heq
    rwa [List.take_append_of_le_length (le_length_bars a ha),
      List.take_append_of_le_length (le_length_bars b hb)] at this

lemma check_lt (start : CodeSet) (data : List Nat) : check start data < 107 :=
  (Nat.mod_lt _ (by decide)).trans (by decide)

lemma start_lt (set : CodeSet) : set.start < 107 := by
  cases set <;> decide

lemma start_injective {s t : CodeSet} (h : s.start = t.start) : s = t := by
  cases s <;> cases t <;> first | rfl | exact absurd h (by decide)

/-- A sequence of symbols is read in one way only. -/
theorem reads_iff (start : CodeSet) (text : List Char) {data : List Nat} {sym : Nat} (hdata : ∀ v ∈ data, v < 103)
    (hsym : sym < 107) :
    Reads ((start.start :: (data ++ [sym, stop])).flatMap bars) text ↔
      sym = check start data ∧ decode start data = some text := by
  constructor
  · rintro ⟨start', data', hdata', hbits, hdecode⟩
    have hlt : ∀ v ∈ data, v < 107 := fun v hv => (hdata v hv).trans (by decide)
    have hlt' : ∀ v ∈ data', v < 107 := fun v hv => (hdata' v hv).trans (by decide)
    have h := flatMap_bars_injective ?_ ?_ hbits
    · rw [List.cons.injEq] at h
      obtain rfl := start_injective h.1
      obtain ⟨rfl, hcheck⟩ := List.append_inj' h.2 rfl
      exact ⟨(List.cons.inj hcheck).1, hdecode⟩
    · simp only [List.forall_mem_cons, List.forall_mem_append]
      exact ⟨start_lt start, hlt, hsym, by decide, nofun⟩
    · simp only [List.forall_mem_cons, List.forall_mem_append]
      exact ⟨start_lt start', hlt', check_lt _ _, by decide, nofun⟩
  · rintro ⟨rfl, hdecode⟩
    exact ⟨start, data, hdata, rfl, hdecode⟩

/-! ## Text -/

lemma toNat_lt_of_has {set : CodeSet} {ch : Char} (h : set.Has ch) : ch.toNat < 128 := by
  have hall : ∀ v < 103, (∀ c, meaning .A v = .text [c] → c.toNat < 128) ∧
      ∀ c, meaning .B v = .text [c] → c.toNat < 128 := by
    have hascii : ∀ n < 128, (Char.ofNat n).toNat < 128 := by decide +kernel
    refine fun v hv => ⟨fun c hc => ?_, fun c hc => ?_⟩
    · simp only [meaning] at hc
      split_ifs at hc with h₁ h₂
      · obtain rfl := (List.cons.inj (Meaning.text.inj hc)).1
        exact hascii _ (by omega)
      · obtain rfl := (List.cons.inj (Meaning.text.inj hc)).1
        exact hascii _ (by omega)
    · simp only [meaning] at hc
      split_ifs at hc with h₁
      obtain rfl := (List.cons.inj (Meaning.text.inj hc)).1
      exact hascii _ (by omega)
  obtain ⟨v, hv, hmeaning⟩ := h
  cases set with
  | A => exact (hall v hv).1 ch hmeaning
  | B => exact (hall v hv).2 ch hmeaning
  | C =>
    simp only [meaning] at hmeaning
    split_ifs at hmeaning
    exact absurd (List.cons.inj (Meaning.text.inj hmeaning)).2 (List.cons_ne_nil _ _)

variable {set other : CodeSet} {v : Nat} {vs : List Nat} {chars text : List Char}

lemma decode_text (h : meaning set v = .text chars) : decode set (v :: vs) = (decode set vs).map (chars ++ ·) := by
  rw [decode, h]

/-- After a text comes what the other symbols stand for. -/
lemma decode_text_eq_some (h : meaning set v = .text chars) :
    decode set (v :: vs) = some (chars ++ text) ↔ decode set vs = some text := by
  rw [decode_text h, Option.map_eq_some_iff]
  constructor
  · rintro ⟨rest, hrest, heq⟩
    rw [hrest, List.append_cancel_left heq]
  · exact fun hrest => ⟨text, hrest, rfl⟩

lemma weighted_cons (n v : Nat) (vs : List Nat) : weighted n (v :: vs) = n * v + weighted (n + 1) vs := rfl

lemma weighted_le {n b : Nat} (hvs : ∀ v ∈ vs, v ≤ b) : weighted n vs ≤ b * vs.length * (n + vs.length) := by
  induction vs generalizing n with
  | nil => exact Nat.zero_le _
  | cons v vs ih =>
    rw [List.forall_mem_cons] at hvs
    have hfirst : n * v ≤ b * (n + (vs.length + 1)) := by
      rw [Nat.mul_comm b]
      exact Nat.mul_le_mul (Nat.le_add_right _ _) hvs.1
    calc weighted n (v :: vs) = n * v + weighted (n + 1) vs := rfl
      _ ≤ b * (n + (vs.length + 1)) + b * vs.length * (n + 1 + vs.length) := Nat.add_le_add hfirst (ih hvs.2)
      _ = b * (vs.length + 1) * (n + (vs.length + 1)) := by ring

end CppExperiments.Code128

import CppExperiments.Cli.Xxd
import CppExperiments.Csv.Lines
import CppExperiments.Lib.Search

/-!
# Hex dumps read back

A file is made again from its dump: by the width of the hexadecimal columns, which the first line tells.
-/

namespace CppExperiments.Xxd

open Hash Cgit

/-- What `operator>>` reads from the two characters, and zero where it fails. -/
def reprHex (first second : UInt8) : UInt8 := UInt8.ofNat (((stoi16 [first, second]).getD 0) % 256).toNat

def isAlnum (b : UInt8) : Bool := isDigit b || decide (97 ≤ toLower b ∧ toLower b ≤ 122)

/-- What has been read back: the digit that waits for the second one, and the bytes. -/
structure Reversed where
  hexChar : Option UInt8 := none
  oss : Bytes := []

namespace Reversed

def take (s : Reversed) (ch : UInt8) : Reversed :=
  if isSpace ch = true then s
  else
    match s.hexChar with
    | none => { s with hexChar := some ch }
    | some first => ⟨none, s.oss ++ [reprHex first ch]⟩

/-- The lines of a dump, of which `width` characters behind the offset are digits. -/
def lines (width : Nat) (s : Reversed) (is : Bytes) : Reversed :=
  match _h : Csv.getline is with
  | none => s
  | some (buffer, rest) =>
    if 10 ≤ buffer.length then lines width (((buffer.drop 10).take width).foldl take s) rest else s
  termination_by is.length
  decreasing_by exact Csv.length_rest_of_getline _h

end Reversed

def isPlain (buffer : Bytes) : Bool := buffer.all fun ch => isSpace ch || isAlnum ch

/-- The number of characters between the offset and the first two blanks, as an unsigned number of 64 bits. -/
def hexWidth (buffer : Bytes) : Nat := ((find [32, 32] buffer).getD (2 ^ 64 - 1) + (2 ^ 64 - 10)) % 2 ^ 64

def hex2Binary (file : Bytes) : Bytes :=
  let buffer := ((Csv.getline file).map Prod.fst).getD []
  if isPlain buffer = true then (file.foldl Reversed.take {}).oss
  else (Reversed.lines (hexWidth buffer) {} file).oss

/-! ## Digits and blanks -/

section

variable {bs cs : Bytes} {b : UInt8}

/-- The digits of a text. -/
def digits (bs : Bytes) : Bytes := bs.filter fun b => !isSpace b

def hexText (bs : Bytes) : Bytes := bs.flatMap fun ch => Old.hexPadded 2 ch.toNat

lemma digits_append : digits (bs ++ cs) = digits bs ++ digits cs := List.filter_append ..

lemma hexText_append : hexText (bs ++ cs) = hexText bs ++ hexText cs := List.flatMap_append

lemma digits_of_blank (h : ∀ b ∈ bs, b = 32) : digits bs = [] := by
  rw [digits, List.filter_eq_nil_iff]
  intro b hb
  rw [h b hb]
  decide

lemma not_isSpace_x2c (d : Fin 16) : isSpace (x2c d) = false := by
  revert d
  decide

lemma isLowerHex_hexText (hb : b ∈ hexText bs) : isLowerHex b = true := by
  obtain ⟨ch, -, hb⟩ := List.mem_flatMap.1 hb
  have hlt := ch.toNat_lt
  rw [hexPadded_two _ hlt, List.mem_cons, List.mem_singleton] at hb
  rcases hb with rfl | rfl
  · exact isLowerHex_x2c ⟨ch.toNat / 16, by omega⟩
  · exact isLowerHex_x2c ⟨ch.toNat % 16, by omega⟩

lemma not_isSpace_of_isLowerHex (h : isLowerHex b = true) : isSpace b = false := by
  obtain ⟨d, rfl⟩ := exists_x2c h
  exact not_isSpace_x2c d

lemma digits_hexText (bs : Bytes) : digits (hexText bs) = hexText bs := by
  rw [digits, List.filter_eq_self]
  intro b hb
  rw [not_isSpace_of_isLowerHex (isLowerHex_hexText hb)]
  rfl

lemma length_hexText (bs : Bytes) : (hexText bs).length = 2 * bs.length := by
  induction bs with
  | nil => rfl
  | cons ch bs ih =>
    rw [hexText, List.flatMap_cons, List.length_append, hexPadded_two _ ch.toNat_lt, List.length_cons, ← hexText, ih]
    simp only [List.length_cons, List.length_nil]
    omega

/-! ## Reading digits back -/

lemma foldl_take_digits (s : Reversed) (bs : Bytes) : (digits bs).foldl Reversed.take s = bs.foldl Reversed.take s := by
  induction bs generalizing s with
  | nil => rfl
  | cons b bs ih =>
    by_cases hb : isSpace b = true
    · have htake : s.take b = s := if_pos hb
      rw [digits, List.filter_cons_of_neg (by simp [hb]), ← digits, ih, List.foldl_cons, htake]
    · rw [digits, List.filter_cons_of_pos (by simp [hb]), ← digits, List.foldl_cons, ih, List.foldl_cons]

lemma reprHex_x2c (ch : UInt8) : reprHex (x2c (ch.toNat / 16)) (x2c (ch.toNat % 16)) = ch := by
  have hlt := ch.toNat_lt
  have hread := stoi16_x2c ⟨ch.toNat / 16, by omega⟩ ⟨ch.toNat % 16, by omega⟩
  dsimp only at hread
  rw [reprHex, hread, Option.getD_some, Nat.div_add_mod]
  have hmod : (((ch.toNat : Nat) : Int) % 256).toNat = ch.toNat := by omega
  rw [hmod, UInt8.ofNat_toNat]

lemma take_first {ch : UInt8} (h : isSpace ch = false) (oss : Bytes) :
    Reversed.take ⟨none, oss⟩ ch = ⟨some ch, oss⟩ := by
  rw [Reversed.take, h, if_neg Bool.false_ne_true]

lemma take_second {ch : UInt8} (h : isSpace ch = false) (first : UInt8) (oss : Bytes) :
    Reversed.take ⟨some first, oss⟩ ch = ⟨none, oss ++ [reprHex first ch]⟩ := by
  rw [Reversed.take, h, if_neg Bool.false_ne_true]

lemma foldl_take_hexText (oss bs : Bytes) : (hexText bs).foldl Reversed.take ⟨none, oss⟩ = ⟨none, oss ++ bs⟩ := by
  induction bs generalizing oss with
  | nil => rw [List.append_nil]; rfl
  | cons ch bs ih =>
    have hlt := ch.toNat_lt
    have hhigh : isSpace (x2c (ch.toNat / 16)) = false := not_isSpace_x2c ⟨ch.toNat / 16, by omega⟩
    have hlow : isSpace (x2c (ch.toNat % 16)) = false := not_isSpace_x2c ⟨ch.toNat % 16, by omega⟩
    have htwo : (Old.hexPadded 2 ch.toNat).foldl Reversed.take ⟨none, oss⟩ = ⟨none, oss ++ [ch]⟩ := by
      rw [hexPadded_two _ hlt, List.foldl_cons, List.foldl_cons, List.foldl_nil, take_first hhigh, take_second hlow,
        reprHex_x2c]
    rw [hexText, List.flatMap_cons, List.foldl_append, htwo, ← hexText, ih, ← List.append_cons]

/-- Whatever blanks stand between the digits. -/
lemma foldl_take_of_digits {text : Bytes} (h : digits text = hexText bs) (oss : Bytes) :
    text.foldl Reversed.take ⟨none, oss⟩ = ⟨none, oss ++ bs⟩ := by
  rw [← foldl_take_digits, h, foldl_take_hexText]

end

/-! ## The columns of a line -/

section

variable {group n k : Nat} {rest : Bytes}

/-- The part of a line for the next `k` bytes, or blanks where there are no more. -/
def cells (k : Nat) (rest : Bytes) : Bytes := hexText (rest.take k) ++ List.replicate (2 * (k - rest.length)) 32

/-- The groups of a line for the next `n` bytes. -/
def layout (group n : Nat) (rest : Bytes) : Bytes :=
  if _h : group = 0 ∨ n = 0 then []
  else cells (min group n) rest ++ [32] ++ layout group (n - group) (rest.drop group)
  termination_by n

lemma layout_zero (group : Nat) (rest : Bytes) : layout group 0 rest = [] := by
  rw [layout, dif_pos (.inr rfl)]

lemma layout_of_pos (hgroup : 0 < group) (hn : 0 < n) (rest : Bytes) :
    layout group n rest = cells (min group n) rest ++ [32] ++ layout group (n - group) (rest.drop group) := by
  rw [layout, dif_neg (by omega)]

lemma layout_min (hgroup : 0 < group) (hn : 0 < n) (rest : Bytes) : layout group n rest =
    cells (min group n) rest ++ [32] ++ layout group (n - min group n) (rest.drop (min group n)) := by
  rw [layout_of_pos hgroup hn]
  by_cases hle : group ≤ n
  · rw [Nat.min_eq_left hle]
  · rw [Nat.min_eq_right (by omega), Nat.sub_eq_zero_of_le (by omega), Nat.sub_self, layout_zero, layout_zero]

lemma length_cells (k : Nat) (rest : Bytes) : (cells k rest).length = 2 * k := by
  rw [cells, List.length_append, length_hexText, List.length_take, List.length_replicate]
  omega

lemma digits_cells (k : Nat) (rest : Bytes) : digits (cells k rest) = hexText (rest.take k) := by
  rw [cells, digits_append, digits_hexText, digits_of_blank fun b hb => List.eq_of_mem_replicate hb, List.append_nil]

/-- The columns are as wide for any bytes. -/
lemma length_layout (hgroup : 0 < group) (n : Nat) (rest rest' : Bytes) :
    (layout group n rest).length = (layout group n rest').length := by
  induction n using Nat.strongRecOn generalizing rest rest' with
  | ind n ih =>
    by_cases hn : n = 0
    · rw [hn, layout_zero, layout_zero]
    · have hn := Nat.pos_of_ne_zero hn
      rw [layout_of_pos hgroup hn, layout_of_pos hgroup hn, List.length_append, List.length_append, List.length_append,
        List.length_append, length_cells, length_cells, ih (n - group) (by omega) _ (rest'.drop group)]

lemma take_groups (group n : Nat) (rest : Bytes) :
    rest.take (min group n) ++ (rest.drop group).take (n - group) = rest.take n := by
  by_cases hle : group ≤ n
  · rw [Nat.min_eq_left hle, ← List.take_add, Nat.add_sub_cancel' hle]
  · rw [Nat.min_eq_right (by omega), Nat.sub_eq_zero_of_le (by omega), List.take_zero, List.append_nil]

lemma digits_layout (hgroup : 0 < group) (n : Nat) (rest : Bytes) :
    digits (layout group n rest) = hexText (rest.take n) := by
  induction n using Nat.strongRecOn generalizing rest with
  | ind n ih =>
    by_cases hn : n = 0
    · rw [hn, layout_zero, List.take_zero]
      rfl
    · have hn := Nat.pos_of_ne_zero hn
      have hblank : digits [32] = [] := rfl
      rw [layout_of_pos hgroup hn, digits_append, digits_append, digits_cells, ih (n - group) (by omega), hblank,
        List.append_nil, ← hexText_append, take_groups]

lemma layout_blank (hgroup : 0 < group) (n : Nat) : ∀ b ∈ layout group n [], b = 32 := by
  induction n using Nat.strongRecOn with
  | ind n ih =>
    intro b hb
    by_cases hn : n = 0
    · rw [hn, layout_zero] at hb
      cases hb
    · rw [layout_of_pos hgroup (Nat.pos_of_ne_zero hn), List.drop_nil, List.append_assoc, List.mem_append,
        List.mem_append, List.mem_singleton, cells, List.take_nil, hexText, List.flatMap_nil, List.nil_append] at hb
      rcases hb with hb | hb | hb
      · exact List.eq_of_mem_replicate hb
      · exact hb
      · exact ih (n - group) (by omega) b hb

/-- The columns end in a blank. -/
lemma exists_layout (hgroup : 0 < group) (hn : 0 < n) (rest : Bytes) : ∃ dump, layout group n rest = dump ++ [32] := by
  induction n using Nat.strongRecOn generalizing rest with
  | ind n ih =>
    by_cases hle : n ≤ group
    · refine ⟨cells (min group n) rest, ?_⟩
      rw [layout_of_pos hgroup hn, Nat.sub_eq_zero_of_le hle, layout_zero, List.append_nil]
    · obtain ⟨dump, hdump⟩ := ih (n - group) (by omega) (by omega) (rest.drop group)
      refine ⟨cells (min group n) rest ++ [32] ++ dump, ?_⟩
      rw [layout_of_pos hgroup hn, hdump]
      simp only [List.append_assoc]

lemma exists_layout_cons (hgroup : 0 < group) (hn : 0 < n) (hrest : rest ≠ []) :
    ∃ b dump, layout group n rest = b :: dump ∧ isSpace b = false := by
  obtain ⟨ch, rest, rfl⟩ := List.exists_cons_of_ne_nil hrest
  obtain ⟨k, hk⟩ : ∃ k, min group n = k + 1 := ⟨min group n - 1, by omega⟩
  have hlt := ch.toNat_lt
  rw [layout_of_pos hgroup hn, cells, hk, List.take_succ_cons, hexText, List.flatMap_cons, hexPadded_two _ hlt]
  exact ⟨_, _, rfl, not_isSpace_x2c ⟨ch.toNat / 16, by omega⟩⟩

/-! ## The end of the columns -/

lemma find_blanks_behind {word rest : Bytes} (h : ∀ b ∈ word, isSpace b = false) :
    find [32, 32] (word ++ rest) = (find [32, 32] rest).map (· + word.length) := by
  induction word with
  | nil => simp
  | cons b word ih =>
    rw [List.forall_mem_cons] at h
    have hb : ¬ [32, 32] <+: b :: (word ++ rest) := fun hp => by
      obtain rfl := (List.cons_prefix_cons.1 hp).1
      exact absurd h.1 (by decide)
    rw [List.cons_append, find_cons hb, ih h.2, Option.map_map, List.length_cons]
    rfl

lemma find_blanks_single {b : UInt8} (hb : isSpace b = false) (rest : Bytes) :
    find [32, 32] (32 :: b :: rest) = (find [32, 32] (b :: rest)).map (· + 1) := by
  refine find_cons fun hp => ?_
  obtain rfl := (List.cons_prefix_cons.1 (List.cons_prefix_cons.1 hp).2).1
  exact absurd hb (by decide)

lemma find_blanks_of_all {blanks : Bytes} (h : ∀ b ∈ blanks, b = 32) (hlen : 2 ≤ blanks.length) (rest : Bytes) :
    find [32, 32] (blanks ++ rest) = some 0 := by
  refine find_of_start (List.cons_ne_nil _ _) ?_
  rw [List.eq_replicate_of_mem h, ← Nat.sub_add_cancel hlen, Nat.add_comm, List.replicate_add, List.append_assoc]
  exact List.prefix_append _ _

lemma isSpace_of_mem_hexText {bs : Bytes} : ∀ b ∈ hexText bs, isSpace b = false :=
  fun _ hb => not_isSpace_of_isLowerHex (isLowerHex_hexText hb)

/-- The first two blanks of a line are behind all its digits, and where the line is full they are its last ones. -/
lemma find_layout (hgroup : 0 < group) (hn : 0 < n) (hrest : rest ≠ []) (text : Bytes) :
    ∃ e, find [32, 32] (layout group n rest ++ 32 :: text) = some e ∧ e < (layout group n rest).length ∧
      digits ((layout group n rest).take e) = hexText (rest.take n) ∧
      (n ≤ rest.length → e + 1 = (layout group n rest).length) := by
  induction n using Nat.strongRecOn generalizing rest with
  | ind n ih =>
    have hword : ∀ b ∈ hexText (rest.take (min group n)), isSpace b = false := isSpace_of_mem_hexText
    by_cases hlast : n ≤ group ∨ rest.length ≤ group
    · have htail : ∀ b ∈ layout group (n - group) (rest.drop group), b = 32 := by
        rcases hlast with hlast | hlast
        · rw [Nat.sub_eq_zero_of_le hlast, layout_zero]
          exact fun b hb => absurd hb List.not_mem_nil
        · rw [List.drop_eq_nil_of_le hlast]
          exact layout_blank hgroup _
      have htake : rest.take (min group n) = rest.take n := by
        rcases hlast with hlast | hlast
        · rw [Nat.min_eq_right hlast]
        · rw [← take_groups group n rest, List.drop_eq_nil_of_le hlast, List.take_nil, List.append_nil]
      obtain ⟨blanks, hblanks⟩ : ∃ blanks, blanks =
          List.replicate (2 * (min group n - rest.length)) 32 ++ [32] ++ layout group (n - group) (rest.drop group) :=
        ⟨_, rfl⟩
      have hlayout : layout group n rest = hexText (rest.take (min group n)) ++ blanks := by
        rw [layout_of_pos hgroup hn, cells, hblanks]
        simp only [List.append_assoc]
      have hall : ∀ b ∈ blanks, b = 32 := by
        intro b hb
        rw [hblanks, List.append_assoc, List.mem_append, List.mem_append, List.mem_singleton] at hb
        rcases hb with hb | hb | hb
        · exact List.eq_of_mem_replicate hb
        · exact hb
        · exact htail b hb
      have hpos : 0 < blanks.length := by
        rw [hblanks, List.length_append, List.length_append, List.length_singleton]
        omega
      have hfind : find [32, 32] (blanks ++ 32 :: text) = some 0 := by
        rw [List.append_cons]
        refine find_blanks_of_all (fun b hb => ?_) (by rw [List.length_append, List.length_singleton]; omega) text
        rcases List.mem_append.1 hb with hb | hb
        · exact hall b hb
        · exact List.mem_singleton.1 hb
      refine ⟨(hexText (rest.take (min group n))).length, ?_, ?_, ?_, fun hle => ?_⟩
      · rw [hlayout, List.append_assoc, find_blanks_behind hword, hfind, Option.map_some, Nat.zero_add]
      · rw [hlayout, List.length_append]
        omega
      · rw [hlayout, List.take_left, digits_hexText, htake]
      · have hn : n ≤ group := by omega
        rw [hlayout, List.length_append, hblanks, Nat.sub_eq_zero_of_le hn, layout_zero,
          Nat.sub_eq_zero_of_le (by omega : min group n ≤ rest.length)]
        rfl
    · have hmin : min group n = group := Nat.min_eq_left (by omega)
      have hdrop : rest.drop group ≠ [] := by
        rw [ne_eq, List.drop_eq_nil_iff]
        omega
      have hlayout : layout group n rest =
          hexText (rest.take group) ++ 32 :: layout group (n - group) (rest.drop group) := by
        rw [layout_of_pos hgroup hn, hmin, cells, Nat.sub_eq_zero_of_le (by omega), Nat.mul_zero, List.replicate_zero,
          List.append_nil, ← List.append_cons]
      obtain ⟨e, hfind, hlt, hdigits, hfull⟩ := ih (n - group) (by omega) (by omega) hdrop
      obtain ⟨b, dump, hcons, hb⟩ := exists_layout_cons hgroup (by omega : 0 < n - group) hdrop
      rw [hmin] at hword
      refine ⟨e + 1 + (hexText (rest.take group)).length, ?_, ?_, ?_, fun hle => ?_⟩
      · rw [hcons, List.cons_append] at hfind
        rw [hlayout, hcons, List.append_assoc, find_blanks_behind hword, List.cons_append, List.cons_append,
          find_blanks_single hb, hfind]
        rfl
      · rw [hlayout, List.length_append, List.length_cons]
        omega
      · rw [hlayout, Nat.add_comm, List.take_length_add_append, List.take_succ_cons, digits_append, digits_hexText,
          ← take_groups group n rest, hmin]
        have hcons : digits (32 :: (layout group (n - group) (rest.drop group)).take e) =
            digits ((layout group (n - group) (rest.drop group)).take e) := rfl
        rw [hcons, hdigits, hexText_append]
      · have := hfull (by rw [List.length_drop]; omega)
        rw [hlayout, List.length_append, List.length_cons]
        omega

end

/-! ## The lines of a dump -/

section

variable {overflow : Int → Int32} {group columns : Nat} {plainMode : Bool} {offset : Int32} {rest text : Bytes}

/-- A big-endian dump with hexadecimal offsets and without a limit. -/
def hexArgs (plainMode : Bool) (group columns : Nat) : Args :=
  { binaryMode := false
    littleEndian := false
    plainMode := plainMode
    decimalOffset := false
    offset := 0
    endPos := -1
    group := group
    columns := columns }

variable (overflow group columns plainMode offset) in
lemma readGroup_hexArgs (acc : List Bytes) (l : Line) (rest : Bytes) :
    readGroup overflow (hexArgs plainMode group columns) offset acc l rest =
      (acc ++ (rest.take (min (group - acc.length) (columns - l.count))).map (fun ch => Old.hexPadded 2 ch.toNat),
        { l with
          text := l.text ++ (rest.take (min (group - acc.length) (columns - l.count))).flatMap
            (hexArgs plainMode group columns).char
          count := l.count + min (min (group - acc.length) (columns - l.count)) rest.length },
        rest.drop (min (group - acc.length) (columns - l.count))) := by
  induction rest generalizing acc l with
  | nil => simp [readGroup]
  | cons ch rest ih =>
    rw [readGroup]
    by_cases h : acc.length < group ∧ l.count < columns
    · obtain ⟨k, hk⟩ : ∃ k, min (group - acc.length) (columns - l.count) = k + 1 :=
        ⟨min (group - acc.length) (columns - l.count) - 1, by omega⟩
      have hpush : (hexArgs plainMode group columns).push acc (reprChar ch false) =
        acc ++ [Old.hexPadded 2 ch.toNat] := rfl
      have hsmall : min (group - (acc ++ [Old.hexPadded 2 ch.toNat]).length) (columns - (l.count + 1)) = k := by
        rw [List.length_append, List.length_singleton]
        omega
      rw [if_pos ⟨h.1, h.2, .inl rfl⟩]
      change readGroup _ _ _ ((hexArgs plainMode group columns).push acc (reprChar ch false)) _ _ = _
      rw [hpush, ih, hk, hsmall, List.take_succ_cons, List.drop_succ_cons, List.map_cons, List.flatMap_cons,
        List.length_cons, ← List.append_cons, List.append_assoc, Nat.add_min_add_right, Nat.add_assoc, Nat.add_comm 1]
    · have hk : min (group - acc.length) (columns - l.count) = 0 := by omega
      rw [if_neg fun hc => h ⟨hc.1, hc.2.1⟩, hk]
      simp

lemma fillGroup_hexArgs (room : Nat) (s : List Bytes × Nat) :
    (hexArgs plainMode group columns).fillGroup room s =
      (s.1 ++ List.replicate (min (group - s.1.length) room) [32, 32], s.2 + min (group - s.1.length) room) := by
  induction room generalizing s with
  | zero => simp [Args.fillGroup]
  | succ room ih =>
    rw [Args.fillGroup]
    by_cases h : s.1.length < (hexArgs plainMode group columns).group
    · have hlt : s.1.length < group := h
      obtain ⟨k, hk⟩ : ∃ k, min (group - s.1.length) (room + 1) = k + 1 :=
        ⟨min (group - s.1.length) (room + 1) - 1, by omega⟩
      have hpush : (hexArgs plainMode group columns).push s.1 (hexArgs plainMode group columns).blank =
        s.1 ++ [[32, 32]] := rfl
      have hsmall : min (group - (s.1 ++ [[(32 : UInt8), 32]]).length) room = k := by
        rw [List.length_append, List.length_singleton]
        omega
      rw [if_pos h, hpush, ih, hk, hsmall, List.replicate_succ, ← List.append_cons, Nat.add_assoc, Nat.add_comm 1]
    · have hle : group ≤ s.1.length := Nat.not_lt.1 h
      rw [if_neg h, Nat.sub_eq_zero_of_le hle, Nat.zero_min]
      simp

lemma flatten_cells (k : Nat) (rest : Bytes) :
    ((rest.take k).map (fun ch : UInt8 => Old.hexPadded 2 ch.toNat) ++ List.replicate (k - rest.length)
      [32, 32]).flatten =
      cells k rest := by
  have hblanks : ∀ j : Nat, (List.replicate j [(32 : UInt8), 32]).flatten = List.replicate (2 * j) 32 := by
    intro j
    induction j with
    | zero => rfl
    | succ j ih =>
      rw [List.replicate_succ, List.flatten_cons, ih, Nat.mul_succ, Nat.add_comm, List.replicate_add]
      rfl
  rw [List.flatten_append, hblanks, cells, hexText, List.flatMap_def]

variable (overflow group columns plainMode offset) in
/-- The next group of a line. -/
lemma dumpGroup_hexArgs (l : Line) (rest : Bytes) :
    dumpGroup overflow (hexArgs plainMode group columns) offset l rest =
      ({ dump := l.dump ++ cells (min group (columns - l.count)) rest ++ [32]
         text := l.text ++ (rest.take (min group (columns - l.count))).flatMap (hexArgs plainMode group columns).char
         count := l.count + min group (columns - l.count) }, rest.drop (min group (columns - l.count))) := by
  obtain ⟨k, hk⟩ : ∃ k, k = min group (columns - l.count) := ⟨_, rfl⟩
  have hread := readGroup_hexArgs overflow group columns plainMode offset [] l rest
  rw [List.length_nil, Nat.sub_zero, List.nil_append, ← hk] at hread
  have hfill : min (group - min k rest.length) (columns - (l.count + min k rest.length)) = k - rest.length := by omega
  have hcolumns : (hexArgs plainMode group columns).columns = columns := rfl
  have hcount : l.count + min k rest.length + (k - rest.length) = l.count + k := by omega
  rw [dumpGroup, hread]
  dsimp only
  rw [fillGroup_hexArgs, hcolumns]
  dsimp only
  rw [List.length_map, List.length_take, hfill, flatten_cells, ← hk, hcount]

/-- What a line says of the next bytes. -/
def lineOf (plainMode : Bool) (group columns : Nat) (rest : Bytes) : Line where
  dump := layout group columns rest
  text := (rest.take columns).flatMap (hexArgs plainMode group columns).char
  count := columns

variable (overflow plainMode offset) in
lemma comes_dumpLine_hexArgs (hgroup : 0 < group) {n : Nat} {l : Line} (hl : l.count + n = columns) (rest : Bytes) :
    Comes .running (fun k => dumpLine overflow (hexArgs plainMode group columns) offset k (l, rest))
      (.ok ({ dump := l.dump ++ layout group n rest
              text := l.text ++ (rest.take n).flatMap (hexArgs plainMode group columns).char
              count := columns }, rest.drop n)) := by
  induction n using Nat.strongRecOn generalizing l rest with
  | ind n ih =>
    by_cases hn : n = 0
    · obtain rfl := hn
      have hl : l.count = columns := hl
      refine .of_succ rfl (fun k => ?_) (comes_const _)
      rw [layout_zero, List.take_zero, List.drop_zero, List.flatMap_nil, List.append_nil, List.append_nil, ← hl]
      exact if_neg (Nat.lt_irrefl l.count)
    · have hroom : columns - l.count = n := by omega
      have hgroupEq := dumpGroup_hexArgs overflow group columns plainMode offset l rest
      rw [hroom] at hgroupEq
      have hnext := ih (n - min group n) (by omega)
        (l := (dumpGroup overflow (hexArgs plainMode group columns) offset l rest).1)
        (by rw [hgroupEq]; dsimp only; omega) (rest.drop (min group n))
      have hmin : min group n + (n - min group n) = n := Nat.add_sub_cancel' (Nat.min_le_right group n)
      rw [hgroupEq] at hnext
      dsimp only at hnext
      rw [List.drop_drop, hmin, List.append_assoc l.text, ← List.flatMap_append, ← List.take_add, hmin,
        List.append_assoc,
        List.append_assoc, ← layout_min hgroup (Nat.pos_of_ne_zero hn)] at hnext
      refine .of_succ rfl (fun k => ?_) hnext
      have hlt : l.count < (hexArgs plainMode group columns).columns := by
        change l.count < columns
        omega
      rw [dumpLine, if_pos hlt]
      dsimp only
      rw [hgroupEq, List.append_assoc]

/-- The text of the dump, line by line. -/
inductive Dumped (overflow : Int → Int32) (plainMode : Bool) (group columns : Nat) : Int32 → Bytes → Bytes → Prop
  | nil (offset : Int32) : Dumped overflow plainMode group columns offset [] []
  | line {offset : Int32} {rest text : Bytes} : rest ≠ [] →
    Dumped overflow plainMode group columns (plus overflow offset columns) (rest.drop columns) text →
    Dumped overflow plainMode group columns offset rest
      ((hexArgs plainMode group columns).showLine offset (lineOf plainMode group columns rest) ++ text)

variable (overflow plainMode) in
lemma exists_dumped (hgroup : 0 < group) (hcolumns : 0 < columns) (offset : Int32) (rest : Bytes) :
    ∃ text, Dumped overflow plainMode group columns offset rest text ∧ ∀ oss, Comes .running
      (fun n => dumpLines overflow (hexArgs plainMode group columns) n offset rest oss) (.ok (oss ++ text)) := by
  induction hsize : rest.length using Nat.strongRecOn generalizing offset rest with
  | ind size ih =>
    by_cases hrest : rest = []
    · rw [hrest]
      refine ⟨[], .nil offset, fun oss => .of_succ rfl (fun n => dumpLines_nil n oss) ?_⟩
      rw [List.append_nil]
      exact comes_const _
    · have hlt : (rest.drop columns).length < size := by
        have := List.length_pos_iff.2 hrest
        rw [List.length_drop]
        omega
      obtain ⟨text, hdumped, hcomes⟩ := ih _ hlt (plus overflow offset columns) (rest.drop columns) rfl
      refine ⟨_, .line hrest hdumped, fun oss => .of_succ rfl (fun n => dumpLines_of_ne hrest n oss) ?_⟩
      have hline := comes_dumpLine_hexArgs overflow plainMode offset hgroup
        (l := {}) (Nat.zero_add columns) rest
      rw [← List.append_assoc]
      exact hline.bind (hcomes _)

/-! ## The round trip -/

lemma showLine_plain (l : Line) : (hexArgs true group columns).showLine offset l = l.dump ++ [10] := rfl

lemma digits_dumped_plain (hgroup : 0 < group) (h : Dumped overflow true group columns offset rest text) :
    digits text = hexText rest := by
  induction h with
  | nil offset => rfl
  | line hrest _ ih =>
    rename_i rest text _
    have hbreak : digits [10] = [] := rfl
    rw [showLine_plain, digits_append, digits_append, lineOf, digits_layout hgroup, ih, hbreak, List.append_nil,
      ← hexText_append, List.take_append_drop]

/-- The front of a line. -/
def front (offset : Int32) : Bytes := Old.hexPadded 8 offset.toUInt32.toNat ++ ascii ": "

lemma isLowerHex_offset : ∀ b ∈ Old.hexPadded 8 offset.toUInt32.toNat, isLowerHex b = true := by
  rw [Old.hexPadded_eq 7 _ offset.toUInt32.toNat_lt, hexDigits]
  intro b hb
  obtain ⟨i, -, rfl⟩ := List.mem_map.1 hb
  have hlast : (offset.toUInt32.toNat >>> (i * 4)) &&& 0xF < 16 := Nat.lt_succ_of_le Nat.and_le_right
  exact isLowerHex_x2c ⟨_, hlast⟩

lemma length_front (offset : Int32) : (front offset).length = 10 := by
  rw [front, Old.hexPadded_eq 7 _ offset.toUInt32.toNat_lt, hexDigits, List.length_append, List.length_map,
    List.length_reverse, List.length_range]
  rfl

lemma showLine_normal (l : Line) : (hexArgs false group columns).showLine offset l =
    (front offset ++ (l.dump ++ 32 :: l.text)) ++ [10] := by
  have hshow : (hexArgs false group columns).showLine offset l =
    front offset ++ l.dump ++ [32] ++ l.text ++ [10] := rfl
  rw [hshow]
  simp only [List.append_assoc, List.cons_append, List.nil_append]

lemma not_mem_of_isLowerHex {bs : Bytes} (h : ∀ b ∈ bs, isLowerHex b = true) : (10 : UInt8) ∉ bs :=
  fun hb => absurd (h 10 hb) (by decide)

lemma break_not_mem_char (ch : UInt8) : 10 ∉ (hexArgs plainMode group columns).char ch := by
  rw [Args.char]
  split
  · exact List.not_mem_nil
  · rw [List.mem_singleton]
    intro heq
    by_cases hch : isPrint ch = true
    · rw [if_pos hch] at heq
      rw [← heq] at hch
      exact absurd hch (by decide)
    · rw [if_neg hch] at heq
      exact absurd heq (by decide)

lemma mem_layout {b : UInt8} (hgroup : 0 < group) {n : Nat} (hb : b ∈ layout group n rest) :
    b = 32 ∨ isLowerHex b = true := by
  induction n using Nat.strongRecOn generalizing rest with
  | ind n ih =>
    by_cases hn : n = 0
    · rw [hn, layout_zero] at hb
      cases hb
    · rw [layout_of_pos hgroup (Nat.pos_of_ne_zero hn), List.mem_append, List.mem_append, List.mem_singleton, cells,
        List.mem_append] at hb
      rcases hb with ((hb | hb) | hb) | hb
      · exact .inr (isLowerHex_hexText hb)
      · exact .inl (List.eq_of_mem_replicate hb)
      · exact .inl hb
      · exact ih (n - group) (by omega) hb

/-- What stands in a line that ends with a line break. -/
def content (group columns : Nat) (offset : Int32) (rest : Bytes) : Bytes :=
  front offset ++ (layout group columns rest ++ 32 :: (lineOf false group columns rest).text)

lemma break_not_mem_content (hgroup : 0 < group) : 10 ∉ content group columns offset rest := by
  rw [content, front]
  simp only [List.mem_append, List.mem_cons, not_or]
  refine ⟨⟨not_mem_of_isLowerHex isLowerHex_offset, by decide⟩, fun hb => ?_, by decide, fun hb => ?_⟩
  · rcases mem_layout hgroup hb with hb | hb
    · exact absurd hb (by decide)
    · exact absurd hb (by decide)
  · obtain ⟨ch, -, hch⟩ := List.mem_flatMap.1 hb
    exact break_not_mem_char ch hch

lemma length_content_ge : 10 ≤ (content group columns offset rest).length := by
  rw [content, List.length_append, length_front]
  exact Nat.le_add_right 10 _

lemma take_drop_content {e : Nat} (he : e < (layout group columns rest).length) :
    ((content group columns offset rest).drop 10).take e = (layout group columns rest).take e := by
  rw [content, List.drop_left' (length_front offset), List.take_append_of_le_length he.le]

lemma lines_nil (width : Nat) (s : Reversed) : Reversed.lines width s [] = s := by
  rw [Reversed.lines]
  rfl

/-- A line of the dump gives back its bytes if all its digits are within the width. -/
lemma lines_content (hgroup : 0 < group) {e : Nat} (he : e < (layout group columns rest).length)
    (hdigits : digits ((layout group columns rest).take e) = hexText (rest.take columns)) (oss text : Bytes) :
    Reversed.lines e ⟨none, oss⟩ (content group columns offset rest ++ 10 :: text) =
      Reversed.lines e ⟨none, oss ++ rest.take columns⟩ text := by
  conv_lhs => rw [Reversed.lines]
  rw [Csv.getline_append (break_not_mem_content hgroup)]
  dsimp only
  rw [if_pos length_content_ge, take_drop_content he, foldl_take_of_digits hdigits]

lemma Dumped.of_line (hrest : rest ≠ []) (h : Dumped overflow false group columns offset rest text) :
    ∃ text', text = content group columns offset rest ++ 10 :: text' ∧
      Dumped overflow false group columns (plus overflow offset columns) (rest.drop columns) text' := by
  cases h with
  | nil => exact absurd rfl hrest
  | line _ h => exact ⟨_, by rw [showLine_normal, ← List.append_cons]; rfl, h⟩

/-- The lines behind a full line have their digits where it has. -/
lemma lines_dumped (hgroup : 0 < group) (hcolumns : 0 < columns) {e : Nat}
    (he : ∀ rest, e + 1 = (layout group columns rest).length)
    (h : Dumped overflow false group columns offset rest text) (oss : Bytes) :
    Reversed.lines e ⟨none, oss⟩ text = ⟨none, oss ++ rest⟩ := by
  induction hsize : rest.length using Nat.strongRecOn generalizing offset rest text oss with
  | ind size ih =>
    by_cases hrest : rest = []
    · obtain rfl := hrest
      cases h with
      | nil => rw [lines_nil, List.append_nil]
      | line hne => exact absurd rfl hne
    · obtain ⟨text, rfl, hnext⟩ := h.of_line hrest
      obtain ⟨dump, hdump⟩ := exists_layout hgroup hcolumns rest
      have hlen : dump.length = e := by
        have := he rest
        rw [hdump, List.length_append, List.length_singleton] at this
        omega
      have hdigits : digits ((layout group columns rest).take e) = hexText (rest.take columns) := by
        have hblank : digits [32] = [] := rfl
        rw [← digits_layout hgroup, hdump, List.take_left' hlen, digits_append, hblank, List.append_nil]
      have hlt : (rest.drop columns).length < size := by
        have := List.length_pos_iff.2 hrest
        rw [List.length_drop]
        omega
      rw [lines_content hgroup (by have := he rest; omega) hdigits, ih _ hlt hnext _ rfl, List.append_assoc,
        List.take_append_drop]

lemma length_layout_le (hgroup : 0 < group) (n : Nat) (rest : Bytes) : (layout group n rest).length ≤ 3 * n := by
  induction n using Nat.strongRecOn generalizing rest with
  | ind n ih =>
    by_cases hn : n = 0
    · rw [hn, layout_zero]
      exact Nat.le_refl 0
    · have := ih (n - group) (by omega) (rest.drop group)
      rw [layout_of_pos hgroup (Nat.pos_of_ne_zero hn), List.length_append, List.length_append, length_cells,
        List.length_singleton]
      omega

variable (offset) in
/-- The offset has no two blanks one behind the other, nor does it end in one. -/
lemma find_content {e : Nat} (hfind : find [32, 32] (layout group columns rest ++
    32 :: (lineOf false group columns rest).text) = some e) (hgroup : 0 < group) (hcolumns : 0 < columns)
    (hrest : rest ≠ []) : find [32, 32] (content group columns offset rest) = some (e + 10) := by
  obtain ⟨b, dump, hcons, hb⟩ := exists_layout_cons hgroup hcolumns hrest
  have hword : ∀ b ∈ Old.hexPadded 8 offset.toUInt32.toNat ++ [58], isSpace b = false := by
    intro b hb
    rcases List.mem_append.1 hb with hb | hb
    · exact not_isSpace_of_isLowerHex (isLowerHex_offset b hb)
    · rw [List.mem_singleton.1 hb]
      rfl
  have hlen := length_front offset
  have hfront : front offset = (Old.hexPadded 8 offset.toUInt32.toNat ++ [58]) ++ [32] := by
    rw [List.append_assoc]
    rfl
  rw [hfront, List.length_append, List.length_singleton] at hlen
  rw [hcons, List.cons_append] at hfind
  rw [content, hfront, List.append_assoc, find_blanks_behind hword, hcons, List.cons_append, List.nil_append,
    List.cons_append,
    find_blanks_single hb, hfind, Option.map_some, Option.map_some]
  congr 1
  omega

lemma hexWidth_content {e : Nat} (hfind : find [32, 32] (content group columns offset rest) = some (e + 10))
    (he : e < 2 ^ 64) : hexWidth (content group columns offset rest) = e := by
  rw [hexWidth, hfind, Option.getD_some]
  omega

lemma isPlain_content : isPlain (content group columns offset rest) = false := by
  have hcolon : 58 ∈ content group columns offset rest := by
    rw [content, front]
    simp [ascii]
  rw [isPlain, List.all_eq_false]
  exact ⟨58, hcolon, by decide⟩

lemma hex2Binary_of_normal (hgroup : 0 < group) (hcolumns : 0 < columns) (hsize : columns < 2 ^ 31)
    (h : Dumped overflow false group columns offset rest text) : hex2Binary text = rest := by
  by_cases hrest : rest = []
  · obtain rfl := hrest
    cases h with
    | nil => rfl
    | line hne => exact absurd rfl hne
  · obtain ⟨text, rfl, hnext⟩ := h.of_line hrest
    obtain ⟨e, hfind, hlt, hdigits, hfull⟩ := find_layout hgroup hcolumns hrest (lineOf false group columns rest).text
    have hle := length_layout_le hgroup columns rest
    have hwidth := hexWidth_content (find_content offset hfind hgroup hcolumns hrest) (by omega)
    rw [hex2Binary, Csv.getline_append (break_not_mem_content hgroup), Option.map_some, Option.getD_some]
    dsimp only
    rw [if_neg (by rw [isPlain_content]; exact Bool.false_ne_true), hwidth, lines_content hgroup hlt hdigits]
    by_cases hmore : columns ≤ rest.length
    · rw [lines_dumped hgroup hcolumns (fun rest' => ?_) hnext, List.nil_append, List.take_append_drop]
      rw [hfull hmore]
      exact length_layout hgroup columns rest rest'
    · have hnil : rest.drop columns = [] := List.drop_eq_nil_of_le (by omega)
      rw [hnil] at hnext
      cases hnext with
      | nil => rw [lines_nil, List.nil_append, List.take_of_length_le (by omega)]
      | line hne => exact absurd rfl hne

lemma isAlnum_of_isLowerHex {b : UInt8} (h : isLowerHex b = true) : isAlnum b = true := by
  obtain ⟨d, rfl⟩ := exists_x2c h
  revert d
  decide

lemma hex2Binary_of_plain (hgroup : 0 < group) (h : Dumped overflow true group columns offset rest text) :
    hex2Binary text = rest := by
  have hplain : isPlain (((Csv.getline text).map Prod.fst).getD []) = true := by
    cases h with
    | nil => rfl
    | line hrest h =>
      rename_i text
      have hbreak : 10 ∉ layout group columns rest := fun hb => by
        rcases mem_layout hgroup hb with hb | hb
        · exact absurd hb (by decide)
        · exact absurd hb (by decide)
      rw [showLine_plain, ← List.append_cons, lineOf, Csv.getline_append hbreak, Option.map_some, Option.getD_some,
        isPlain, List.all_eq_true]
      intro b hb
      rcases mem_layout hgroup hb with rfl | hb
      · rfl
      · rw [isAlnum_of_isLowerHex hb, Bool.or_true]
  have hdigits := digits_dumped_plain hgroup h
  rw [hex2Binary, if_pos hplain]
  have hread := foldl_take_of_digits hdigits []
  rw [List.nil_append] at hread
  exact congrArg Reversed.oss hread

/-- A file is read back from its dump. -/
theorem hex2Binary_binary2Hex (overflow : Int → Int32) (plainMode : Bool) (group columns : Int32) (hgroup : 1 ≤ group)
    (hcolumns : 1 ≤ columns) (file : Bytes) : ∃ dump, Comes .running (fun n =>
      binary2Hex overflow (hexArgs plainMode group.toInt.toNat columns.toInt.toNat) n file) (.ok dump) ∧
      hex2Binary dump = file := by
  have hgroup : 0 < group.toInt.toNat := by
    have := Int32.le_iff_toInt_le.1 hgroup
    rw [Int32.toInt_one] at this
    omega
  have hcolumns : 0 < columns.toInt.toNat := by
    have := Int32.le_iff_toInt_le.1 hcolumns
    rw [Int32.toInt_one] at this
    omega
  have hsize : columns.toInt.toNat < 2 ^ 31 := by
    have := Int32.toInt_lt columns
    omega
  obtain ⟨dump, hdumped, hcomes⟩ := exists_dumped overflow plainMode hgroup hcolumns 0 file
  refine ⟨dump, hcomes [], ?_⟩
  cases plainMode with
  | false => exact hex2Binary_of_normal hgroup hcolumns hsize hdumped
  | true => exact hex2Binary_of_plain hgroup hdumped

theorem hex2Binary_binary2Hex_two : ∃ dump, Comes .running (fun n =>
    binary2Hex Int32.ofInt (hexArgs false (2 : Int32).toInt.toNat (16 : Int32).toInt.toNat) n [65, 32]) (.ok dump) ∧
    hex2Binary dump = [65, 32] :=
  hex2Binary_binary2Hex Int32.ofInt false 2 16 (by decide) (by decide) [65, 32]

end

end CppExperiments.Xxd

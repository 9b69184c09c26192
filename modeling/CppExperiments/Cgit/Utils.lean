import CppExperiments.Hash.Sha1Compress
import CppExperiments.Lib.Text
import CppExperiments.Lib.Tiling

/-!
# Hexadecimal names of objects

The name of an object is in text 40 digits, and in the files of git 20 bytes.
-/

namespace CppExperiments.Cgit

open Hash

/-- A digit of `binary2Sha`. -/
def isLowerHex (b : UInt8) : Bool := isDigit b || decide (97 ≤ b ∧ b ≤ 102)

/-- The value of a hexadecimal digit of either case. -/
def hexValue (b : UInt8) : Option Nat :=
  if isDigit b then some (b.toNat - 48)
  else if 97 ≤ toLower b ∧ toLower b ≤ 102 then some ((toLower b).toNat - 87)
  else none

/-- The value of the hexadecimal digits at the front, if there is one. -/
def hexPrefix (bs : Bytes) : Option Nat :=
  match (bs.map hexValue).takeWhile Option.isSome with
  | [] => none
  | values => some (values.reduceOption.foldl (fun acc d => 16 * acc + d) 0)

/-- `std::stoi` in base 16 on two characters at most; `none` where it throws. -/
def stoi16 (bs : Bytes) : Option Int :=
  let bs := bs.dropWhile isSpace
  if bs.head? = some 45 then (hexPrefix bs.tail).map fun n : Nat => -(n : Int)
  else if bs.head? = some 43 then (hexPrefix bs.tail).map fun n : Nat => (n : Int)
  else (hexPrefix bs).map fun n : Nat => (n : Int)

/-- `none` where a pair of digits is missing or is no number. -/
def sha2Binary (sha : Bytes) : Option Bytes :=
  (List.range 20).mapM fun i => (stoi16 ((sha.drop (i * 2)).take 2)).map fun z => UInt8.ofNat (z % 256).toNat

def binary2Sha (binSha : Bytes) : Bytes := binSha.flatMap fun ch => Old.hexPadded 2 ch.toNat

/-- The text of an object's name. -/
def IsSha (sha : Bytes) : Prop := sha.length = 40 ∧ sha.all isLowerHex

variable {sha binSha : Bytes} {b : UInt8}

lemma exists_x2c (h : isLowerHex b) : ∃ d : Fin 16, b = x2c d := by
  have hb : (48 ≤ b.toNat ∧ b.toNat ≤ 57) ∨ 97 ≤ b.toNat ∧ b.toNat ≤ 102 := by
    rcases Bool.or_eq_true_iff.1 h with h | h
    · exact .inl (of_decide_eq_true h)
    · exact .inr (of_decide_eq_true h)
  rw [← UInt8.ofNat_toNat (x := b)]
  generalize b.toNat = m at hb
  rcases hb with ⟨hlow, hhigh⟩ | ⟨hlow, hhigh⟩ <;> interval_cases m <;> decide

lemma isLowerHex_x2c (d : Fin 16) : isLowerHex (x2c d) := by
  revert d
  decide

lemma stoi16_x2c (c d : Fin 16) : stoi16 [x2c c, x2c d] = some ((16 * c.val + d.val : Nat) : Int) := by
  revert c d
  decide

lemma hexPadded_two (n : Nat) (h : n < 256) : Old.hexPadded 2 n = [x2c (n / 16), x2c (n % 16)] := by
  have hdiv : n / 16 < 16 := by omega
  rw [Old.hexPadded_eq 1 n h, hexDigits_succ, hexDigits_succ, Nat.mod_eq_of_lt hdiv]
  rfl

/-- Two digits are read as the byte that is printed as these two. -/
lemma hexPadded_stoi16 {c : Bytes} (hlength : c.length = 2) (h : c.all isLowerHex) :
    ∃ b, (stoi16 c).map (fun z => UInt8.ofNat (z % 256).toNat) = some b ∧ Old.hexPadded 2 b.toNat = c := by
  obtain ⟨x, y, rfl⟩ := List.length_eq_two.1 hlength
  rw [List.all_cons, List.all_cons, Bool.and_eq_true, Bool.and_eq_true] at h
  obtain ⟨d, rfl⟩ := exists_x2c h.1
  obtain ⟨e, rfl⟩ := exists_x2c h.2.1
  have hlt : 16 * d.val + e.val < 256 := by omega
  have hmod : ((16 * d.val + e.val : Nat) : Int) % 256 = (16 * d.val + e.val : Nat) := by omega
  refine ⟨UInt8.ofNat (16 * d.val + e.val), ?_, ?_⟩
  · rw [stoi16_x2c, Option.map_some, hmod, Int.toNat_natCast]
  · have hdiv : (16 * d.val + e.val) / 16 = d := by omega
    have hlast : (16 * d.val + e.val) % 16 = e := by omega
    rw [UInt8.toNat_ofNat', Nat.mod_eq_of_lt hlt, hexPadded_two _ hlt, hdiv, hlast]

/-- A name of text is 20 bytes from which it is printed again. -/
theorem exists_sha2Binary (h : IsSha sha) :
    ∃ binSha, sha2Binary sha = some binSha ∧ binSha.length = 20 ∧ binary2Sha binSha = sha := by
  have hpair : ∀ i, ∃ b : UInt8, i < 20 → (stoi16 (tile sha 2 i)).map (fun z => UInt8.ofNat (z % 256).toNat) = some b ∧
      Old.hexPadded 2 b.toNat = tile sha 2 i := by
    intro i
    by_cases hi : i < 20
    · have hlength : (tile sha 2 i).length = 2 := by
        rw [length_tile, h.1]
        omega
      have hall : (tile sha 2 i).all isLowerHex := List.all_eq_true.2 fun ch hch =>
        List.all_eq_true.1 h.2 ch (List.mem_of_mem_drop (List.mem_of_mem_take hch))
      obtain ⟨b, hb⟩ := hexPadded_stoi16 hlength hall
      exact ⟨b, fun _ => hb⟩
    · exact ⟨0, fun hlt => absurd hlt hi⟩
  choose f hf using hpair
  refine ⟨(List.range 20).map f, mapM_eq_some fun i hi => (hf i (List.mem_range.1 hi)).1, ?_, ?_⟩
  · rw [List.length_map, List.length_range]
  · have hflat : (List.range 20).flatMap (fun i => Old.hexPadded 2 (f i).toNat) =
      (List.range 20).flatMap (tile sha 2) :=
      List.flatMap_congr fun i hi => (hf i (List.mem_range.1 hi)).2
    rw [binary2Sha, List.flatMap_map, hflat, flatMap_tile h.1.le]

lemma isSha_binary2Sha (h : binSha.length = 20) : IsSha (binary2Sha binSha) := by
  have hpair : ∀ ch : UInt8, Old.hexPadded 2 ch.toNat = [x2c (ch.toNat / 16), x2c (ch.toNat % 16)] :=
    fun ch => hexPadded_two _ ch.toNat_lt
  constructor
  · rw [binary2Sha, List.length_flatMap]
    simp [hpair, h]
  · rw [List.all_eq_true]
    intro ch hch
    obtain ⟨b, -, hb⟩ := List.mem_flatMap.1 hch
    have hlt := b.toNat_lt
    rw [hpair, List.mem_cons, List.mem_singleton] at hb
    rcases hb with rfl | rfl
    · exact isLowerHex_x2c ⟨b.toNat / 16, by omega⟩
    · exact isLowerHex_x2c ⟨b.toNat % 16, by omega⟩

lemma x2c_injective {c d : Fin 16} (h : x2c c = x2c d) : c = d := by
  revert c d
  decide

lemma binary2Sha_cons (b : UInt8) (binSha : Bytes) :
    binary2Sha (b :: binSha) = x2c (b.toNat / 16) :: x2c (b.toNat % 16) :: binary2Sha binSha := by
  rw [binary2Sha, List.flatMap_cons, hexPadded_two _ b.toNat_lt]
  rfl

lemma binary2Sha_injective {binSha' : Bytes} (h : binary2Sha binSha = binary2Sha binSha') : binSha = binSha' := by
  induction binSha generalizing binSha' with
  | nil =>
    cases binSha' with
    | nil => rfl
    | cons b' binSha' =>
      rw [binary2Sha_cons] at h
      cases h
  | cons b binSha ih =>
    cases binSha' with
    | nil =>
      rw [binary2Sha_cons] at h
      cases h
    | cons b' binSha' =>
      have hb := b.toNat_lt
      have hb' := b'.toNat_lt
      rw [binary2Sha_cons, binary2Sha_cons] at h
      obtain ⟨hhigh, hlow, htail⟩ := List.cons_eq_cons.1 h |>.imp_right List.cons_eq_cons.1
      have hdiv : b.toNat / 16 = b'.toNat / 16 :=
        congrArg Fin.val (@x2c_injective ⟨b.toNat / 16, by omega⟩ ⟨b'.toNat / 16, by omega⟩ hhigh)
      have hmod : b.toNat % 16 = b'.toNat % 16 :=
        congrArg Fin.val (@x2c_injective ⟨b.toNat % 16, by omega⟩ ⟨b'.toNat % 16, by omega⟩ hlow)
      have hnat : b.toNat = b'.toNat := by omega
      rw [UInt8.toNat.inj hnat, ih htail]

/-- 20 bytes are read from the name that is printed of them. -/
theorem sha2Binary_binary2Sha (h : binSha.length = 20) : sha2Binary (binary2Sha binSha) = some binSha := by
  obtain ⟨binSha', heq, -, hprint⟩ := exists_sha2Binary (isSha_binary2Sha h)
  rw [heq, binary2Sha_injective hprint]

end CppExperiments.Cgit

import CppExperiments.Tar.Layout
import Mathlib.Algebra.Order.BigOperators.Group.List

/-!
# The checksum of a header

Which headers pass the test of the checksum, and where the sum of 16 bits is not the sum of the bytes.
-/

namespace CppExperiments.Tar

/-- Why a header is not read. -/
inductive HeaderError where
  | size (n : Nat)
  | intRead (str : Bytes)
  | checksum
  | fileType (type : UInt8)
  | ustarVersion (version : Bytes)
  deriving DecidableEq

def parseOIntOrThrow (w : Nat) (str : Bytes) : Except HeaderError Nat :=
  match parseOInt w str with
  | none => .error (.intRead str)
  | some v => .ok v

def fileTypeOrThrow : Bytes → Except HeaderError FileType
  | [48] => .ok .NORMAL
  | [50] => .ok .SYMLINK
  | [53] => .ok .DIRECTORY
  | type => .error (.fileType (type.headD 0))

/-- `readHeader`, with what it throws. -/
def TarInfo.readHeaderOrThrow (uninitialised : Bool) (header : Bytes) (blockOffset : Nat) :
    Except HeaderError TarInfo := do
  if header.length ≠ 512 then .error (.size header.length)
  else
    let checkSum ← parseOIntOrThrow 32 (field header 148 6)
    if checkSum ≠ unsignedSum header ∧ (checkSum : Int) ≠ signedSum header % 2 ^ 32 then .error .checksum
    else
      let mode ← parseOIntOrThrow 32 (field header 100 8)
      let uid ← parseOIntOrThrow 32 (field header 108 8)
      let gid ← parseOIntOrThrow 32 (field header 116 8)
      let size ← parseOIntOrThrow 64 (field header 124 12)
      let mts ← parseOIntOrThrow 64 (field header 136 12)
      let ftype ← fileTypeOrThrow (field header 156 1)
      let isUstar := decide (field header 257 5 = ascii "ustar")
      if isUstar = true ∧ field header 263 2 ≠ ascii "00" then .error (.ustarVersion (field header 263 2))
      else .ok {
        fname := rstrip (field header 0 100)
        mode := mode
        uid := uid
        gid := gid
        blockOffset := blockOffset
        size := size
        mtime := (mts : Int).bmod (2 ^ 64) * 10 ^ 9
        ftype := ftype
        linkName := rstrip (field header 157 100)
        ustar := isUstar || uninitialised
        uname := if isUstar = true then rstrip (field header 265 32) else []
        gname := if isUstar = true then rstrip (field header 297 32) else []
        fprefix := if isUstar = true then rstrip (field header 345 155) else [] }

/-- The sum of the bytes as they are with a sign, without a bound. -/
def exactSignedSum (header : Bytes) : Int := ((summed header).map fun ch => (ch.toNat : Int).bmod 256).sum

/-- The header is not thrown away for its checksum. -/
def PassesChecksum (header : Bytes) : Prop :=
  ∀ uninitialised blockOffset, TarInfo.readHeaderOrThrow uninitialised header blockOffset ≠ .error .checksum

variable {header : Bytes} {checkSum : Nat}

/-- What is read is the same, with or without what it throws. -/
lemma toOption_parseOIntOrThrow_bind (w : Nat) (str : Bytes) {α : Type} {f : Nat → Except HeaderError α}
    {g : Nat → Option α} (h : ∀ n, (f n).toOption = g n) :
    (parseOIntOrThrow w str >>= f).toOption = parseOInt w str >>= g := by
  rw [parseOIntOrThrow]
  cases parseOInt w str with
  | none => rfl
  | some v => exact h v

lemma toOption_fileTypeOrThrow_bind (type : Bytes) {α : Type} {f : FileType → Except HeaderError α}
    {g : FileType → Option α}
    (h : ∀ ftype, (f ftype).toOption = g ftype) :
    (fileTypeOrThrow type >>= f).toOption =
      match type with
      | [48] => some .NORMAL >>= g
      | [50] => some .SYMLINK >>= g
      | [53] => some .DIRECTORY >>= g
      | _ => none >>= g := by
  rw [fileTypeOrThrow.eq_def]
  split
  · exact h _
  · exact h _
  · exact h _
  · rfl

/-- What is thrown aside both readers are the same. -/
theorem toOption_readHeaderOrThrow (uninitialised : Bool) (header : Bytes) (blockOffset : Nat) :
    (TarInfo.readHeaderOrThrow uninitialised header blockOffset).toOption =
      TarInfo.readHeader uninitialised header blockOffset := by
  rw [TarInfo.readHeaderOrThrow, TarInfo.readHeader]
  by_cases hsize : header.length ≠ 512
  · rw [if_pos hsize, if_pos hsize]
    rfl
  · rw [if_neg hsize, if_neg hsize]
    refine toOption_parseOIntOrThrow_bind 32 _ fun checkSum => ?_
    by_cases hcheck : checkSum ≠ unsignedSum header ∧ (checkSum : Int) ≠ signedSum header % 2 ^ 32
    · rw [if_pos hcheck, if_pos hcheck]
      rfl
    · rw [if_neg hcheck, if_neg hcheck]
      refine toOption_parseOIntOrThrow_bind 32 _ fun mode => ?_
      refine toOption_parseOIntOrThrow_bind 32 _ fun uid => ?_
      refine toOption_parseOIntOrThrow_bind 32 _ fun gid => ?_
      refine toOption_parseOIntOrThrow_bind 64 _ fun size => ?_
      refine toOption_parseOIntOrThrow_bind 64 _ fun mts => ?_
      refine toOption_fileTypeOrThrow_bind _ fun ftype => ?_
      dsimp only
      by_cases hversion : decide (field header 257 5 = ascii "ustar") = true ∧ field header 263 2 ≠ ascii "00"
      · rw [if_pos hversion, if_pos hversion]
        rfl
      · rw [if_neg hversion, if_neg hversion]
        rfl

lemma parseOIntOrThrow_bind_ne (w : Nat) (str : Bytes) {α : Type} {f : Nat → Except HeaderError α}
    (h : ∀ n, f n ≠ .error .checksum) :
    (parseOIntOrThrow w str >>= f) ≠ .error .checksum := by
  rw [parseOIntOrThrow]
  cases parseOInt w str with
  | none => exact nofun
  | some v => exact h v

lemma fileTypeOrThrow_bind_ne (type : Bytes) {α : Type} {f : FileType → Except HeaderError α}
    (h : ∀ ftype, f ftype ≠ .error .checksum) :
    (fileTypeOrThrow type >>= f) ≠ .error .checksum := by
  rw [fileTypeOrThrow.eq_def]
  split
  · exact h _
  · exact h _
  · exact h _
  · exact nofun

/-- The stored value is compared with a sum of 16 bits, and with the signed sum as 32 bits without a sign. -/
lemma passesChecksum_iff (hsize : header.length = 512) (hparse : parseOInt 32 (field header 148 6) = some checkSum) :
    PassesChecksum header ↔ checkSum = unsignedSum header ∨ (checkSum : Int) = signedSum header % 2 ^ 32 := by
  have hread : parseOIntOrThrow 32 (field header 148 6) = .ok checkSum := by
    rw [parseOIntOrThrow, hparse]
  constructor
  · intro h
    by_contra hcheck
    refine h false 0 ?_
    rw [TarInfo.readHeaderOrThrow, if_neg (not_not.2 hsize), hread]
    exact if_pos (not_or.1 hcheck)
  · intro hcheck uninitialised blockOffset
    have hpass : ¬ (checkSum ≠ unsignedSum header ∧ (checkSum : Int) ≠ signedSum header % 2 ^ 32) := fun hnot =>
      hcheck.elim hnot.1 hnot.2
    rw [TarInfo.readHeaderOrThrow, if_neg (not_not.2 hsize), hread]
    refine (if_neg hpass).trans_ne ?_
    refine parseOIntOrThrow_bind_ne 32 _ fun mode => ?_
    refine parseOIntOrThrow_bind_ne 32 _ fun uid => ?_
    refine parseOIntOrThrow_bind_ne 32 _ fun gid => ?_
    refine parseOIntOrThrow_bind_ne 64 _ fun size => ?_
    refine parseOIntOrThrow_bind_ne 64 _ fun mts => ?_
    refine fileTypeOrThrow_bind_ne _ fun ftype => ?_
    dsimp only
    split
    · exact nofun
    · exact nofun

/-- The reader of the archive has no member for a header that is thrown away for its checksum. -/
theorem readHeader_eq_none_of_not_passesChecksum (hsize : header.length = 512)
    (hparse : parseOInt 32 (field header 148 6) = some checkSum) (h : ¬ PassesChecksum header)
    (uninitialised : Bool) (blockOffset : Nat) : TarInfo.readHeader uninitialised header blockOffset = none := by
  rw [passesChecksum_iff hsize hparse, not_or] at h
  have hread : parseOIntOrThrow 32 (field header 148 6) = .ok checkSum := by
    rw [parseOIntOrThrow, hparse]
  rw [← toOption_readHeaderOrThrow, TarInfo.readHeaderOrThrow, if_neg (not_not.2 hsize), hread]
  exact congrArg Except.toOption (if_pos h)

/-! ## Sums -/

lemma octalValue_lt {bs : Bytes} (h : ∀ b ∈ bs, isOctal b = true) : octalValue bs < 8 ^ bs.length := by
  have hfold : ∀ acc, bs.foldl (fun acc b => 8 * acc + (b.toNat - 48)) acc < (acc + 1) * 8 ^ bs.length := by
    induction bs with
    | nil => exact fun acc => by rw [List.length_nil, Nat.pow_zero, Nat.mul_one]; exact Nat.lt_succ_self acc
    | cons b bs ih =>
      intro acc
      rw [List.forall_mem_cons] at h
      have hb : b.toNat ≤ 55 := UInt8.le_iff_toNat_le.1 (of_decide_eq_true h.1).2
      calc (b :: bs).foldl (fun acc b => 8 * acc + (b.toNat - 48)) acc
          < (8 * acc + (b.toNat - 48) + 1) * 8 ^ bs.length := ih h.2 _
        _ ≤ (8 * (acc + 1)) * 8 ^ bs.length := Nat.mul_le_mul_right _ (by omega)
        _ = (acc + 1) * 8 ^ (b :: bs).length := by rw [List.length_cons, Nat.pow_succ]; ring
  exact lt_of_lt_of_eq (hfold 0) (Nat.one_mul _)

/-- Six digits are read. -/
lemma checkSum_lt (hparse : parseOInt 32 (field header 148 6) = some checkSum) : checkSum < 2 ^ 18 := by
  rw [parseOInt] at hparse
  by_cases hbad : (field header 148 6).takeWhile isOctal = [] ∨
    2 ^ 32 ≤ octalValue ((field header 148 6).takeWhile isOctal)
  · rw [if_pos hbad] at hparse
    cases hparse
  · rw [if_neg hbad] at hparse
    have hlength : ((field header 148 6).takeWhile isOctal).length ≤ 6 :=
      (List.takeWhile_sublist _).length_le.trans (List.length_take_le _ _)
    calc checkSum = octalValue ((field header 148 6).takeWhile isOctal) := (Option.some.inj hparse).symm
      _ < 8 ^ ((field header 148 6).takeWhile isOctal).length := octalValue_lt fun b hb => List.mem_takeWhile_imp hb
      _ ≤ 8 ^ 6 := Nat.pow_le_pow_right (by decide) hlength

lemma length_summed (header : Bytes) : (summed header).length = 512 := by
  rw [summed, List.length_map, List.length_range]

lemma exactSum_lt (header : Bytes) : exactSum header < 2 ^ 17 := by
  have h := List.sum_le_card_nsmul ((summed header).map UInt8.toNat) 255 fun n hn => by
    obtain ⟨b, -, rfl⟩ := List.mem_map.1 hn
    exact Nat.le_of_lt_succ (UInt8.toNat_lt b)
  rw [List.length_map, length_summed] at h
  exact lt_of_le_of_lt h (by decide)

lemma signedSum_eq (header : Bytes) : signedSum header = exactSignedSum header := by
  have h : ∀ (bs : Bytes) (acc : Int), bs.foldl (fun sum ch => sum + (ch.toNat : Int).bmod 256) acc =
      acc + (bs.map fun ch => (ch.toNat : Int).bmod 256).sum := by
    intro bs
    induction bs with
    | nil => exact fun acc => (Int.add_zero acc).symm
    | cons b bs ih =>
      intro acc
      rw [List.foldl_cons, ih, List.map_cons, List.sum_cons, Int.add_assoc]
  rw [signedSum, h, Int.zero_add, exactSignedSum]

lemma exactSignedSum_bounds (header : Bytes) : -2 ^ 16 ≤ exactSignedSum header ∧ exactSignedSum header < 2 ^ 16 := by
  have hle := List.sum_le_card_nsmul ((summed header).map fun ch => (ch.toNat : Int).bmod 256) 127 fun n hn => by
    obtain ⟨b, -, rfl⟩ := List.mem_map.1 hn
    exact Int.le_of_lt_add_one (Int.bmod_lt (by decide))
  have hge := List.card_nsmul_le_sum ((summed header).map fun ch => (ch.toNat : Int).bmod 256) (-128) fun n hn => by
    obtain ⟨b, -, rfl⟩ := List.mem_map.1 hn
    exact Int.le_bmod (by decide)
  rw [List.length_map, length_summed] at hle hge
  exact ⟨hge, lt_of_le_of_lt hle (by decide)⟩

/-- The test is the one of the exact sums unless the sum has more than 16 bits and the stored value is that sum, or the
sum less what 16 bits do not hold. -/
theorem passesChecksum_iff_exact_iff (hsize : header.length = 512) (hparse : parseOInt 32 (field header 148 6) =
    some checkSum) :
    (PassesChecksum header ↔ checkSum = exactSum header ∨ (checkSum : Int) = exactSignedSum header) ↔
      exactSum header < 2 ^ 16 ∨
        checkSum ≠ exactSum header ∧ (checkSum + 2 ^ 16 = exactSum header → (checkSum : Int) =
          exactSignedSum header) := by
  have hsum := exactSum_lt header
  have hsigned := exactSignedSum_bounds header
  have hstored := checkSum_lt hparse
  rw [passesChecksum_iff hsize hparse, unsignedSum_eq, signedSum_eq]
  omega

/-- All bytes 255, but for the checksum, which is the sum of the others with eight spaces. -/
def highBytes : Bytes := List.replicate 148 255 ++ (ascii "373410" ++ [0, 32] ++ List.replicate 356 255)

lemma length_highBytes : highBytes.length = 512 := by
  rw [highBytes, List.length_append, List.length_append, List.length_append, List.length_replicate,
    List.length_replicate]
  rfl

lemma summed_append {front checksum rear : Bytes} (hfront : front.length = 148) (hchecksum : checksum.length = 8)
    (hrear : rear.length = 356) :
    summed (front ++ (checksum ++ rear)) = front ++ (List.replicate 8 32 ++ rear) := by
  apply List.ext_getElem?
  intro i
  rw [summed, List.getElem?_map, List.getElem?_append, List.getElem?_append, List.length_replicate, hfront]
  by_cases hi : i < 512
  · rw [List.getElem?_range hi, Option.map_some, List.getD_eq_getElem?_getD, List.getElem?_append,
      List.getElem?_append, hfront, hchecksum]
    by_cases h₁ : i < 148
    · rw [if_neg (by omega), if_pos h₁, if_pos h₁, List.getElem?_eq_getElem (by omega), Option.getD_some]
    · rw [if_neg h₁, if_neg h₁]
      by_cases h₂ : i < 156
      · rw [if_pos ⟨by omega, h₂⟩, if_pos (by omega), List.getElem?_replicate, if_pos (by omega)]
      · rw [if_neg (by omega), if_neg (by omega), if_neg (by omega), List.getElem?_eq_getElem (by omega),
          Option.getD_some]
  · rw [List.getElem?_eq_none (by rw [List.length_range]; omega), if_neg (by omega), if_neg (by omega),
      List.getElem?_eq_none (by omega)]
    rfl

lemma exactSum_highBytes : exactSum highBytes = 128776 := by
  rw [exactSum, highBytes, summed_append List.length_replicate rfl List.length_replicate]
  simp only [List.map_append, List.map_replicate, List.sum_append, List.sum_replicate]
  rfl

lemma exactSignedSum_highBytes : exactSignedSum highBytes = -248 := by
  rw [exactSignedSum, highBytes, summed_append List.length_replicate rfl List.length_replicate]
  simp only [List.map_append, List.map_replicate, List.sum_append, List.sum_replicate]
  decide +kernel

theorem passesChecksum_iff_exact_iff_highBytes :
    (PassesChecksum highBytes ↔ 128776 = exactSum highBytes ∨ ((128776 : Nat) : Int) = exactSignedSum highBytes) ↔
      exactSum highBytes < 2 ^ 16 ∨
        128776 ≠ exactSum highBytes ∧ (128776 + 2 ^ 16 = exactSum highBytes → ((128776 : Nat) : Int) =
          exactSignedSum highBytes) :=
  passesChecksum_iff_exact_iff length_highBytes (by decide)

/-- The header stores its exact sum and is refused. -/
theorem not_passesChecksum_highBytes :
    highBytes.length = 512 ∧ parseOInt 32 (field highBytes 148 6) = some (exactSum highBytes) ∧
    ¬ PassesChecksum highBytes := by
  have hparse : parseOInt 32 (field highBytes 148 6) = some (exactSum highBytes) := by
    rw [exactSum_highBytes]
    decide
  refine ⟨length_highBytes, hparse, fun h => ?_⟩
  rw [passesChecksum_iff length_highBytes hparse, unsignedSum_eq, signedSum_eq, exactSignedSum_highBytes,
    exactSum_highBytes] at h
  omega

end CppExperiments.Tar

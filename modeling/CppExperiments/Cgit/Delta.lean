import CppExperiments.Cgit.Pack
import Mathlib.Tactic.IntervalCases

/-!
# Deltas of git

What the format of packs assigns to a delta, and when the code restores it.
-/

namespace CppExperiments.Cgit

/-! ## Numbers of seven bits a byte -/

/-- A number with its lowest seven bits first. -/
def varint (n : Nat) : Bytes :=
  if n < 128 then [UInt8.ofNat n] else UInt8.ofNat (128 + n % 128) :: varint (n / 128)

/-- The lowest 32 bits with the last of them as sign, in 64 bits. -/
def signExtend (n : Nat) : Nat := shiftInt n 0

variable {n r shift byte : Nat} {rest : Bytes}

lemma signExtend_of_lt (h : n < 2 ^ 31) : signExtend n = n := by
  rw [signExtend, shiftInt, pow_zero, mul_one, Nat.mod_eq_of_lt (by omega), if_pos h]

/-- A number that needs the sign is read as a larger one. -/
lemma signExtend_ne (h : 2 ^ 31 ≤ n) (hlt : n < 2 ^ 35) : signExtend n ≠ n := by
  rw [signExtend, shiftInt, pow_zero, mul_one]
  split <;> omega

lemma signExtend_mod (n : Nat) : signExtend n % 2 ^ 32 = n % 2 ^ 32 := by
  rw [signExtend, shiftInt, pow_zero, mul_one]
  split <;> omega

/-- Bits below the shift do not meet those above. -/
lemma or_shiftInt (hr : r < 2 ^ shift) (hshift : shift < 32) :
    r ||| shiftInt byte shift = signExtend (r + byte * 2 ^ shift) := by
  have hor : ∀ a, r ||| 2 ^ shift * a = r + 2 ^ shift * a := fun a => by
    rw [Nat.or_comm, ← Nat.two_pow_add_eq_or_of_lt hr, Nat.add_comm]
  have hword : 2 ^ 32 = 2 ^ shift * 2 ^ (32 - shift) := by
    rw [← pow_add]
    congr 1
    omega
  have hsign : 2 ^ 31 = 2 ^ shift * 2 ^ (31 - shift) := by
    rw [← pow_add]
    congr 1
    omega
  have hhigh : 2 ^ 64 - 2 ^ 32 = 2 ^ shift * (2 ^ (32 - shift) * (2 ^ 32 - 1)) := by
    rw [← mul_assoc, ← hword]
    rfl
  obtain ⟨c, hc⟩ : ∃ c, byte % 2 ^ (32 - shift) = c := ⟨_, rfl⟩
  have hbits : byte * 2 ^ shift % 2 ^ 32 = 2 ^ shift * c := by
    rw [hword, mul_comm byte, Nat.mul_mod_mul_left, hc]
  have hlt : r + 2 ^ shift * c < 2 ^ 32 := by
    have hle : 2 ^ shift * (c + 1) ≤ 2 ^ 32 := by
      rw [hword]
      exact Nat.mul_le_mul_left _ (hc ▸ Nat.mod_lt _ (Nat.two_pow_pos _))
    rw [Nat.mul_add, Nat.mul_one] at hle
    omega
  have hsum : (r + byte * 2 ^ shift) % 2 ^ 32 = r + 2 ^ shift * c := by
    rw [← hbits, ← Nat.add_mod_mod, hbits, Nat.mod_eq_of_lt hlt]
  rw [signExtend, shiftInt, shiftInt, pow_zero, mul_one, hbits, hsum]
  by_cases h : c < 2 ^ (31 - shift)
  · have hle : 2 ^ shift * (c + 1) ≤ 2 ^ 31 := by
      rw [hsign]
      exact Nat.mul_le_mul_left _ h
    rw [Nat.mul_add, Nat.mul_one] at hle
    rw [if_pos (by omega), if_pos (by omega), hor]
  · have hle : 2 ^ 31 ≤ 2 ^ shift * c := by
      rw [hsign]
      exact Nat.mul_le_mul_left _ (Nat.not_lt.1 h)
    rw [if_neg (by omega), if_neg (by omega), hhigh, ← Nat.mul_add, hor, Nat.mul_add, Nat.add_assoc]

lemma varint_of_lt (h : n < 128) : varint n = [UInt8.ofNat n] := by rw [varint, if_pos h]

lemma varint_of_le (h : 128 ≤ n) : varint n = UInt8.ofNat (128 + n % 128) :: varint (n / 128) := by
  rw [varint, if_neg (Nat.not_lt.2 h)]

lemma readVarLenInt_of_le (h : 32 ≤ shift) : readVarLenInt r shift (varint n ++ rest) = none := by
  by_cases hn : n < 128
  · rw [varint_of_lt hn, List.singleton_append, readVarLenInt, if_pos h]
  · rw [varint_of_le (Nat.not_lt.1 hn), List.cons_append, readVarLenInt, if_pos h]

lemma readVarLenInt_of_lt (hn : n < 128) (hr : r < 2 ^ shift) (hshift : shift < 32) :
    readVarLenInt r shift (varint n ++ rest) = some (signExtend (r + n * 2 ^ shift), rest) := by
  have hbyte : (UInt8.ofNat n).toNat = n := by
    rw [UInt8.toNat_ofNat', Nat.mod_eq_of_lt (by omega)]
  rw [varint_of_lt hn, List.singleton_append, readVarLenInt, if_neg (Nat.not_le.2 hshift), hbyte, Nat.mod_eq_of_lt hn,
    or_shiftInt hr hshift]
  exact if_pos hn

lemma readVarLenInt_of_more (hn : 128 ≤ n) (hr : r < 2 ^ shift) (hshift : shift < 32) :
    readVarLenInt r shift (varint n ++ rest) =
      readVarLenInt (signExtend (r + n % 128 * 2 ^ shift)) (shift + 7) (varint (n / 128) ++ rest) := by
  have hbyte : (UInt8.ofNat (128 + n % 128)).toNat = 128 + n % 128 := by
    rw [UInt8.toNat_ofNat', Nat.mod_eq_of_lt (by omega)]
  have hmod : (128 + n % 128) % 128 = n % 128 := by omega
  rw [varint_of_le hn, List.cons_append, readVarLenInt, if_neg (Nat.not_le.2 hshift), hbyte, hmod,
    or_shiftInt hr hshift]
  exact if_neg (by omega)

/-- A number is read up to 35 bits, and then the last of 32 bits is its sign. -/
lemma readVarLenInt_eq {j : Nat} (hshift : shift + 7 * j = 28) (hr : r < 2 ^ shift) :
    readVarLenInt r shift (varint n ++ rest) =
      if r + n * 2 ^ shift < 2 ^ 35 then some (signExtend (r + n * 2 ^ shift), rest) else none := by
  induction j generalizing r n shift with
  | zero =>
    obtain rfl : shift = 28 := by omega
    by_cases hn : n < 128
    · rw [readVarLenInt_of_lt hn hr (by omega), if_pos (by omega)]
    · rw [readVarLenInt_of_more (Nat.not_lt.1 hn) hr (by omega), readVarLenInt_of_le (by omega), if_neg (by omega)]
  | succ j ih =>
    have hpow : 2 ^ (shift + 7) = 128 * 2 ^ shift := by
      rw [pow_add, mul_comm]
      rfl
    have hle : 2 ^ (shift + 7) ≤ 2 ^ 28 := Nat.pow_le_pow_right (by decide) (by omega)
    by_cases hn : n < 128
    · have hmul : n * 2 ^ shift ≤ 127 * 2 ^ shift := Nat.mul_le_mul_right _ (by omega)
      rw [readVarLenInt_of_lt hn hr (by omega), if_pos (by omega)]
    · have hmul : n % 128 * 2 ^ shift ≤ 127 * 2 ^ shift := Nat.mul_le_mul_right _ (by omega)
      have hsum : r + n % 128 * 2 ^ shift + n / 128 * 2 ^ (shift + 7) = r + n * 2 ^ shift := by
        have hdiv : n * 2 ^ shift = (n % 128 + 128 * (n / 128)) * 2 ^ shift := by rw [Nat.mod_add_div]
        rw [hdiv, hpow]
        ring
      rw [readVarLenInt_of_more (Nat.not_lt.1 hn) hr (by omega), signExtend_of_lt (by omega),
        ih (by omega) (by omega), hsum]

theorem readVarLenInt_varint (n : Nat) (rest : Bytes) :
    readVarLenInt 0 0 (varint n ++ rest) = if n < 2 ^ 35 then some (signExtend n, rest) else none := by
  have heq := @readVarLenInt_eq n 0 0 rest 4 rfl (by decide)
  rw [pow_zero, mul_one, Nat.zero_add] at heq
  exact heq

/-! ## Instructions -/

def partValue (part : Option UInt8) : Nat := (part.map UInt8.toNat).getD 0

/-- The bytes of an offset and a size, of which any may be left out as zero. -/
structure Copy where
  offset0 : Option UInt8
  offset1 : Option UInt8
  offset2 : Option UInt8
  offset3 : Option UInt8
  size0 : Option UInt8
  size1 : Option UInt8
  size2 : Option UInt8

namespace Copy

def offset (c : Copy) : Nat :=
  partValue c.offset0 + partValue c.offset1 * 2 ^ 8 + partValue c.offset2 * 2 ^ 16 + partValue c.offset3 * 2 ^ 24

def size (c : Copy) : Nat :=
  let size := partValue c.size0 + partValue c.size1 * 2 ^ 8 + partValue c.size2 * 2 ^ 16
  if size = 0 then 2 ^ 16 else size

/-- The first byte for the bytes that are present. -/
def opOf (o₀ o₁ o₂ o₃ s₀ s₁ s₂ : Bool) : UInt8 :=
  128 + o₀.toUInt8 + 2 * o₁.toUInt8 + 4 * o₂.toUInt8 + 8 * o₃.toUInt8 + 16 * s₀.toUInt8 + 32 * s₁.toUInt8 +
    64 * s₂.toUInt8

def op (c : Copy) : UInt8 :=
  opOf c.offset0.isSome c.offset1.isSome c.offset2.isSome c.offset3.isSome c.size0.isSome c.size1.isSome c.size2.isSome

def text (c : Copy) : Bytes :=
  c.op :: (c.offset0.toList ++ (c.offset1.toList ++ (c.offset2.toList ++ (c.offset3.toList ++
    (c.size0.toList ++ (c.size1.toList ++ c.size2.toList))))))

lemma testBit_opOf (o₀ o₁ o₂ o₃ s₀ s₁ s₂ : Bool) :
    let op := (opOf o₀ o₁ o₂ o₃ s₀ s₁ s₂).toNat
    op.testBit 0 = o₀ ∧ op.testBit 1 = o₁ ∧ op.testBit 2 = o₂ ∧ op.testBit 3 = o₃ ∧ op.testBit 4 = s₀ ∧ op.testBit 5 =
      s₁ ∧
      op.testBit 6 = s₂ ∧ op.testBit 7 = true := by
  revert o₀ o₁ o₂ o₃ s₀ s₁ s₂
  decide

lemma partValue_lt (part : Option UInt8) : partValue part < 2 ^ 8 := by
  cases part with
  | none => decide
  | some b => exact b.toNat_lt

lemma popPart_eq {op : UInt8} {bit value : Nat} {part : Option UInt8} (h : op.toNat.testBit bit = part.isSome)
    (hvalue : value < 2 ^ shift) (hshift : shift < 32) (hsum : value + partValue part * 2 ^ shift < 2 ^ 31) :
    popPart op bit shift value (part.toList ++ rest) = some (value + partValue part * 2 ^ shift, rest) := by
  cases part with
  | none =>
    have hbit : ¬ op.toNat.testBit bit = true := by simp [h]
    have hzero : partValue none = 0 := rfl
    rw [hzero, zero_mul, add_zero]
    exact if_neg hbit
  | some b =>
    have hor : value ||| shiftInt b.toNat shift = value + partValue (some b) * 2 ^ shift :=
      (or_shiftInt hvalue hshift).trans (signExtend_of_lt hsum)
    rw [← hor]
    exact if_pos h

/-- A copy within a base whose length is no negative `int`. -/
theorem instruction_copy {base : Bytes} (c : Copy) (hwithin : c.offset + c.size ≤ base.length)
    (hbase : base.length < 2 ^ 31) :
    instruction base c.op (c.text.tail ++ rest) = some ((base.drop c.offset).take c.size, rest) := by
  obtain ⟨b₀, b₁, b₂, b₃, b₄, b₅, b₆, b₇⟩ :=
    testBit_opOf c.offset0.isSome c.offset1.isSome c.offset2.isSome c.offset3.isSome
    c.size0.isSome c.size1.isSome c.size2.isSome
  have h₀ := partValue_lt c.offset0
  have h₁ := partValue_lt c.offset1
  have h₂ := partValue_lt c.offset2
  have h₄ := partValue_lt c.size0
  have h₅ := partValue_lt c.size1
  have h₆ := partValue_lt c.size2
  have hoffset : c.offset < 2 ^ 31 := by omega
  have htext : c.text.tail ++ rest = c.offset0.toList ++ (c.offset1.toList ++ (c.offset2.toList ++ (c.offset3.toList ++
      (c.size0.toList ++ (c.size1.toList ++ (c.size2.toList ++ rest)))))) := by
    simp only [text, List.tail_cons, List.append_assoc]
  rw [offset] at hoffset
  rw [instruction, op, if_pos b₇, copy, htext, popPart_eq b₀ (by omega) (by omega) (by omega)]
  simp only [Option.bind_eq_bind, Option.bind_some, Nat.zero_add, pow_zero, mul_one]
  rw [popPart_eq b₁ (by omega) (by omega) (by omega), Option.bind_some]
  dsimp only
  rw [popPart_eq b₂ (by omega) (by omega) (by omega), Option.bind_some]
  dsimp only
  rw [popPart_eq b₃ (by omega) (by omega) (by omega), Option.bind_some]
  dsimp only
  rw [popPart_eq b₄ (by omega) (by omega) (by omega), Option.bind_some]
  simp only [Nat.zero_add, pow_zero, mul_one]
  rw [popPart_eq b₅ (by omega) (by omega) (by omega), Option.bind_some]
  dsimp only
  rw [popPart_eq b₆ (by omega) (by omega) (by omega), Option.bind_some]
  exact if_pos (by rw [offset] at hwithin; omega)

end Copy

inductive Instruction where
  | copy (c : Copy)
  | insert (data : Bytes)

namespace Instruction

/-- Copies lie within the base, and an insertion has a length of seven bits. -/
def WithinBase (base : Bytes) : Instruction → Prop
  | copy c => c.offset + c.size ≤ base.length
  | insert data => 1 ≤ data.length ∧ data.length ≤ 127

def text : Instruction → Bytes
  | copy c => c.text
  | insert data => UInt8.ofNat data.length :: data

/-- What the format assigns to an instruction. -/
def piece (base : Bytes) : Instruction → Bytes
  | copy c => (base.drop c.offset).take c.size
  | insert data => data

end Instruction

/-- A delta with its base. -/
structure Delta where
  base : Bytes
  instrs : List Instruction
  within : ∀ i ∈ instrs, i.WithinBase base

namespace Delta

/-- What the format assigns to a delta. -/
def target (d : Delta) : Bytes := d.instrs.flatMap (Instruction.piece d.base)

def text (d : Delta) : Bytes := varint d.base.length ++ (varint d.target.length ++ d.instrs.flatMap Instruction.text)

/-- The delta as a link of a chain, with its size in an `unsigned int`. -/
def link (d : Delta) : DeltaLink := ⟨0, d.text.length % 2 ^ 32, d.text⟩

end Delta

variable {base result : Bytes} {i : Instruction} {d : Delta}

lemma exists_text (h : i.WithinBase base) (hbase : base.length < 2 ^ 31) :
    ∃ op t, i.text = op :: t ∧ ∀ rest, instruction base op (t ++ rest) = some (i.piece base, rest) := by
  cases i with
  | copy c => exact ⟨c.op, _, rfl, fun rest => c.instruction_copy h hbase⟩
  | insert data =>
    obtain ⟨hpos, hle⟩ : 1 ≤ data.length ∧ data.length ≤ 127 := h
    have hnat : (UInt8.ofNat data.length).toNat = data.length := by
      rw [UInt8.toNat_ofNat', Nat.mod_eq_of_lt (by omega)]
    have hbit : ¬ data.length.testBit 7 = true := by
      rw [Nat.testBit_eq_decide_div_mod_eq, decide_eq_true_iff]
      omega
    refine ⟨_, _, rfl, fun rest => ?_⟩
    rw [instruction, hnat, if_neg hbit, if_pos (by simp), List.take_left' rfl, List.drop_left' rfl]
    rfl

lemma instructions_flatMap {instrs : List Instruction} (h : ∀ i ∈ instrs, i.WithinBase base)
    (hbase : base.length < 2 ^ 31)
    (result : Bytes) : instructions base (instrs.flatMap Instruction.text).length result
      (instrs.flatMap Instruction.text) =
      some (result ++ instrs.flatMap (Instruction.piece base)) := by
  induction instrs generalizing result with
  | nil => rw [List.flatMap_nil, instructions, List.flatMap_nil, List.append_nil]
  | cons i instrs ih =>
    rw [List.forall_mem_cons] at h
    obtain ⟨op, t, htext, hread⟩ := exists_text h.1 hbase
    rw [List.flatMap_cons, List.flatMap_cons, htext, List.cons_append, List.length_cons, instructions, hread,
      Option.bind_eq_bind, Option.bind_some]
    dsimp only
    rw [instructions_eq (by rw [List.length_append]; omega), ih h.2, List.append_assoc]

namespace Delta

/-- The size of a long base is not read as it was written. -/
lemma resolve_of_le_base (h : 2 ^ 31 ≤ d.base.length) : resolve d.base d.link = none := by
  rw [resolve, link]
  split
  · rfl
  · rw [if_pos rfl, text, readVarLenInt_varint]
    by_cases hlong : d.base.length < 2 ^ 35
    · rw [if_pos hlong, Option.bind_eq_bind, Option.bind_some]
      exact Option.bind_eq_none_iff.2 fun _ _ => if_neg (Ne.symm (signExtend_ne h hlong))
    · rw [if_neg hlong]
      rfl

lemma resolve_of_lt_base (h : d.base.length < 2 ^ 31) (htext : d.text.length < 2 ^ 32) :
    resolve d.base d.link = if d.target.length < 2 ^ 32 then some d.target else none := by
  have hsize : ¬ d.text.length % 2 ^ 32 ≠ d.text.length := not_not.2 (Nat.mod_eq_of_lt htext)
  rw [resolve, link, if_neg hsize, if_pos rfl, text, readVarLenInt_varint, if_pos (by omega), Option.bind_eq_bind,
    Option.bind_some]
  dsimp only
  rw [readVarLenInt_varint]
  by_cases hlong : d.target.length < 2 ^ 35
  · rw [if_pos hlong, Option.bind_some]
    dsimp only
    rw [if_pos (signExtend_of_lt h).symm, instructions_flatMap d.within h, List.nil_append, signExtend_mod, ← target,
      Option.filter_some]
    refine if_congr ?_ rfl rfl
    rw [decide_eq_true_iff]
    omega
  · rw [if_neg hlong, if_neg (by omega)]
    rfl

/-- A delta is restored exactly if the base is shorter than 2^31, and the target and the delta itself are shorter than
2^32. -/
theorem resolve_iff (d : Delta) : resolve d.base d.link = some d.target ↔
    d.base.length < 2 ^ 31 ∧ d.target.length < 2 ^ 32 ∧ d.text.length < 2 ^ 32 := by
  by_cases htext : d.text.length < 2 ^ 32
  · by_cases hbase : d.base.length < 2 ^ 31
    · rw [resolve_of_lt_base hbase htext]
      by_cases htarget : d.target.length < 2 ^ 32
      · rw [if_pos htarget]
        exact iff_of_true rfl ⟨hbase, htarget, htext⟩
      · rw [if_neg htarget]
        exact iff_of_false (fun h => by cases h) fun h => htarget h.2.1
    · rw [resolve_of_le_base (Nat.not_lt.1 hbase)]
      exact iff_of_false (fun h => by cases h) fun h => hbase h.1
  · have hsize : d.text.length % 2 ^ 32 ≠ d.text.length := by omega
    rw [resolve, link, if_pos hsize]
    exact iff_of_false (fun h => by cases h) fun h => htext h.2.2

/-- One byte appended to a base of 2^31 bytes. -/
def longBase : Delta := ⟨List.replicate (2 ^ 31) 0, [.insert [0]], by
  intro i hi
  obtain rfl := List.mem_singleton.1 hi
  exact ⟨le_refl _, by decide⟩⟩

theorem resolve_longBase : resolve longBase.base longBase.link ≠ some longBase.target := by
  have hlength : longBase.base.length = 2 ^ 31 := List.length_replicate
  rw [resolve_of_le_base hlength.ge]
  exact fun h => by cases h

end Delta

/-! ## Chains -/

/-- Deltas of which each has for its base the target of the one before. -/
def Chained (base : Bytes) : List Delta → Prop
  | [] => True
  | d :: ds => d.base = base ∧ Chained d.target ds

lemma foldlM_chain {ds : List Delta} (hchain : Chained base ds) (hbase : base.length < 2 ^ 31)
    (h : ∀ d ∈ ds, d.target.length < 2 ^ 31 ∧ d.text.length < 2 ^ 32) :
    (ds.map Delta.link).foldlM resolve base = some ((ds.map Delta.target).getLastD base) := by
  induction ds generalizing base with
  | nil => rfl
  | cons d ds ih =>
    obtain ⟨rfl, hrest⟩ := hchain
    rw [List.forall_mem_cons] at h
    rw [List.map_cons, List.foldlM_cons, Delta.resolve_of_lt_base hbase h.1.2, if_pos (h.1.1.trans (by decide)),
      Option.bind_eq_bind, Option.bind_some, ih hrest h.1.1 h.2, List.map_cons, List.getLastD_cons]

/-- A chain of objects shorter than 2^31 is restored to its last target. -/
theorem extract_chain {type : Nat} (htype : type ≠ 0) {ds : List Delta} (hchain : Chained base ds)
    (hbase : base.length < 2 ^ 31) (h : ∀ d ∈ ds, d.target.length < 2 ^ 31 ∧ d.text.length < 2 ^ 32) :
    extract (⟨type, base.length, base⟩ :: ds.map Delta.link) = some ((ds.map Delta.target).getLastD base) := by
  rw [extract, List.foldlM_cons, resolve, if_neg (not_not.2 rfl), if_neg htype, Option.bind_eq_bind, Option.bind_some,
    foldlM_chain hchain hbase h]

end CppExperiments.Cgit

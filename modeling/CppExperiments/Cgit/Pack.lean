import CppExperiments.Lib.Bytes

/-!
# Objects of a pack

The deltas of a pack and the objects that are restored from them.
-/

namespace CppExperiments.Cgit

/-! ## The code -/

/-- A byte shifted as an `int` and then widened to 64 bits, with its sign. -/
def shiftInt (byte shift : Nat) : Nat :=
  let bits := byte * 2 ^ shift % 2 ^ 32
  if bits < 2 ^ 31 then bits else bits + (2 ^ 64 - 2 ^ 32)

/-- The number from what was read of it on, and the rest; `none` where the bytes end or the shift is undefined. -/
def readVarLenInt (result shift : Nat) : Bytes → Option (Nat × Bytes)
  | [] => none
  | byte :: sv =>
    if 32 ≤ shift then none
    else
      let result := result ||| shiftInt (byte.toNat % 128) shift
      if byte.toNat < 128 then some (result, sv) else readVarLenInt result (shift + 7) sv

/-- One more byte of an offset or a size if the bit of the instruction is set; `none` where the bytes end. -/
def popPart (op : UInt8) (bit shift : Nat) (value : Nat) (dsv : Bytes) : Option (Nat × Bytes) :=
  if op.toNat.testBit bit then
    match dsv with
    | [] => none
    | front :: dsv => some (value ||| shiftInt front.toNat shift, dsv)
  else some (value, dsv)

/-- What a copy appends, and the rest; `none` where the bytes end or the offset is behind the end of the base. -/
def copy (baseObj : Bytes) (op : UInt8) (dsv : Bytes) : Option (Bytes × Bytes) := do
  let (copyOffset, dsv) ← popPart op 0 0 0 dsv
  let (copyOffset, dsv) ← popPart op 1 8 copyOffset dsv
  let (copyOffset, dsv) ← popPart op 2 16 copyOffset dsv
  let (copyOffset, dsv) ← popPart op 3 24 copyOffset dsv
  let (copySize, dsv) ← popPart op 4 0 0 dsv
  let (copySize, dsv) ← popPart op 5 8 copySize dsv
  let (copySize, dsv) ← popPart op 6 16 copySize dsv
  let copySize := if copySize = 0 then 0x10000 else copySize
  if copyOffset ≤ baseObj.length then some ((baseObj.drop copyOffset).take copySize, dsv) else none

/-- What an instruction appends, and the rest. -/
def instruction (baseObj : Bytes) (op : UInt8) (dsv : Bytes) : Option (Bytes × Bytes) :=
  if op.toNat.testBit 7 then copy baseObj op dsv
  else if op.toNat ≤ dsv.length then some (dsv.take op.toNat, dsv.drop op.toNat)
  else none

lemma popPart_length {op : UInt8} {bit shift value value' : Nat} {dsv dsv' : Bytes}
    (h : popPart op bit shift value dsv = some (value', dsv')) : dsv'.length ≤ dsv.length := by
  unfold popPart at h
  split at h
  · cases dsv with
    | nil => cases h
    | cons front dsv =>
      cases h
      exact Nat.le_succ _
  · cases h
    exact le_refl _

lemma instruction_length {baseObj piece dsv dsv' : Bytes} {op : UInt8}
    (h : instruction baseObj op dsv = some (piece, dsv')) : dsv'.length ≤ dsv.length := by
  rw [instruction] at h
  split at h
  · obtain ⟨⟨_, _⟩, h0, h⟩ := Option.bind_eq_some_iff.1 h
    obtain ⟨⟨_, _⟩, h1, h⟩ := Option.bind_eq_some_iff.1 h
    obtain ⟨⟨_, _⟩, h2, h⟩ := Option.bind_eq_some_iff.1 h
    obtain ⟨⟨_, _⟩, h3, h⟩ := Option.bind_eq_some_iff.1 h
    obtain ⟨⟨_, _⟩, h4, h⟩ := Option.bind_eq_some_iff.1 h
    obtain ⟨⟨_, _⟩, h5, h⟩ := Option.bind_eq_some_iff.1 h
    obtain ⟨⟨_, _⟩, h6, h⟩ := Option.bind_eq_some_iff.1 h
    have hle := (popPart_length h1).trans (popPart_length h0)
    have hle' := (popPart_length h3).trans ((popPart_length h2).trans hle)
    have hle'' := (popPart_length h5).trans ((popPart_length h4).trans hle')
    dsimp only at h
    split at h
    · cases h
      exact (popPart_length h6).trans hle''
    · cases h
  · split at h
    · cases h
      rw [List.length_drop]
      exact Nat.sub_le _ _
    · cases h

/-- The loop over at most `n` instructions. -/
def instructions (baseObj : Bytes) : Nat → Bytes → Bytes → Option Bytes
  | _, result, [] => some result
  | 0, _, _ :: _ => none
  | n + 1, result, op :: dsv => do
    let (piece, dsv) ← instruction baseObj op dsv
    instructions baseObj n (result ++ piece) dsv

/-- An instruction has one byte at least, so that there are not more of them than bytes. -/
lemma instructions_eq {baseObj result dsv : Bytes} {n : Nat} (h : dsv.length ≤ n) :
    instructions baseObj n result dsv = instructions baseObj dsv.length result dsv := by
  induction n using Nat.strongRecOn generalizing result dsv with
  | ind n ih =>
    cases dsv with
    | nil => rw [instructions, instructions]
    | cons op dsv =>
      cases n with
      | zero => cases h
      | succ n =>
        rw [List.length_cons] at h ⊢
        rw [instructions, instructions]
        refine Option.bind_congr fun ⟨piece, dsv'⟩ hinstruction => ?_
        have hle := instruction_length hinstruction
        dsimp only
        rw [ih n (Nat.lt_succ_self n) (by omega), ih dsv.length (by omega) hle]

/-- A link of the chain: the type, the size from its header and the text. -/
structure DeltaLink where
  type : Nat
  size : Nat
  decompressed : Bytes

/-- The object after one more link; `none` where the code throws. -/
def resolve (result : Bytes) (link : DeltaLink) : Option Bytes :=
  if link.size ≠ link.decompressed.length then none
  else if link.type = 0 then do
    let (sourceLen, dsv) ← readVarLenInt 0 0 link.decompressed
    let (size, dsv) ← readVarLenInt 0 0 dsv
    if result.length = sourceLen then
      (instructions result dsv.length [] dsv).filter fun dest => dest.length = size % 2 ^ 32
    else none
  else some link.decompressed

/-- The object at the end of the chain. -/
def extract (deltaChain : List DeltaLink) : Option Bytes := deltaChain.foldlM resolve []

end CppExperiments.Cgit

import CppExperiments.Lib.Bytes

/-!
# The block feeder of `cryptography/hashlib.hpp`

`Sha1BlockFeeder` cuts a message into the padded 64-byte chunks that `sha1` consumes. This
file embeds `nextBlock` and computes, for every message, the chunks that it yields.
-/

namespace CppExperiments.Hash

inductive FeederState
  | copyBytes
  | add80
  | zeroPad
  | writeLen
  | finished
  deriving DecidableEq, Repr

structure Sha1BlockFeeder where
  bytes : Bytes
  pos : Nat
  state : FeederState

/-- The chunk under construction in `nextBlock`, with its locals and the member `state`. -/
structure Fill where
  chunk : Vector UInt8 64
  filledChars : Nat
  state : FeederState

namespace Fill

def put (x : Fill) (b : UInt8) : Fill :=
  { x with chunk := x.chunk.setIfInBounds x.filledChars b, filledChars := x.filledChars + 1 }

def copyBytes (bytes : Bytes) (pos : Nat) (x : Fill) : Fill :=
  if x.state = .copyBytes then
    let filledChars := if pos + 64 ≤ bytes.length then 64 else bytes.length - pos
    { chunk := Vector.ofFn (fun i => if i.val < filledChars then bytes.getD (pos + i) 0 else x.chunk[i])
      filledChars := filledChars
      state := if bytes.length ≤ pos + filledChars then .add80 else .copyBytes }
  else x

def add80 (x : Fill) : Fill :=
  if x.filledChars < 64 ∧ x.state = .add80 then { x.put 0x80 with state := .zeroPad } else x

def zeroPad (x : Fill) : Fill :=
  if x.filledChars < 64 ∧ x.state = .zeroPad then
    { x with filledChars := if x.filledChars ≤ 56 then 56 else 64, state := .writeLen }
  else x

def writeLen (bytes : Bytes) (x : Fill) : Fill :=
  if x.filledChars < 64 ∧ x.state = .writeLen then
    let bitLen := bytes.length * 8 % 2 ^ 64
    let x := (List.range 8).reverse.foldl (fun x i => x.put (UInt8.ofNat (bitLen >>> (i * 8)))) x
    { x with state := .finished }
  else x

end Fill

namespace Sha1BlockFeeder

def ofBytes (bytes : Bytes) : Sha1BlockFeeder := ⟨bytes, 0, .copyBytes⟩

/-- `Sha1BlockFeeder::nextBlock`; `none` is the return value `false`. -/
def nextBlock (f : Sha1BlockFeeder) : Option (Vector UInt8 64 × Sha1BlockFeeder) :=
  if f.state = .finished then none
  else
    let x : Fill := ⟨Vector.replicate 64 0, 0, f.state⟩
    let x := (((x.copyBytes f.bytes f.pos).add80).zeroPad).writeLen f.bytes
    some (x.chunk, { f with pos := f.pos + x.filledChars, state := x.state })

end Sha1BlockFeeder

/-- The first `pre.length` characters of the chunk are `pre` and the others are still zero. -/
structure Fill.Holds (x : Fill) (pre : Bytes) : Prop where
  chunk : x.chunk.toList = pre ++ zeros (64 - pre.length)
  filledChars : x.filledChars = pre.length
  length_le : pre.length ≤ 64

namespace Fill

lemma holds_init (state : FeederState) : Holds ⟨Vector.replicate 64 0, 0, state⟩ [] :=
  ⟨by simp [zeros], rfl, by simp⟩

lemma Holds.put {x : Fill} {pre : Bytes} (h : x.Holds pre) (hlt : pre.length < 64) (b : UInt8) :
    (x.put b).Holds (pre ++ [b]) := by
  refine ⟨?_, by simp [Fill.put, h.filledChars], by simp; omega⟩
  have hz : 64 - pre.length = (64 - (pre.length + 1)) + 1 := by omega
  rw [Fill.put, Vector.toList_setIfInBounds, h.chunk, h.filledChars,
    List.set_append_right _ _ (le_refl _), Nat.sub_self, List.length_append, List.length_singleton,
    hz, zeros, List.replicate_succ, List.set_cons_zero, List.append_assoc, zeros]
  rfl

lemma Holds.skip {x : Fill} {pre : Bytes} (h : x.Holds pre) {n : Nat} (hn : pre.length ≤ n)
    (hn64 : n ≤ 64) (state : FeederState) :
    Holds { x with filledChars := n, state := state } (pre ++ zeros (n - pre.length)) := by
  have hlen : pre.length + (n - pre.length) = n := by omega
  refine ⟨?_, by simp [hlen], by simp [hlen, hn64]⟩
  have hz : 64 - pre.length = (n - pre.length) + (64 - n) := by omega
  rw [h.chunk, hz, zeros_add, List.append_assoc, List.length_append, length_zeros, hlen]

lemma Holds.state {x : Fill} {pre : Bytes} (h : x.Holds pre) (state : FeederState) :
    Holds { x with state := state } pre := ⟨h.chunk, h.filledChars, h.length_le⟩

lemma Holds.foldl_put {x : Fill} {pre : Bytes} (h : x.Holds pre) (bs : Bytes)
    (hle : pre.length + bs.length ≤ 64) :
    (bs.foldl Fill.put x).Holds (pre ++ bs) ∧ (bs.foldl Fill.put x).state = x.state := by
  induction bs generalizing x pre with
  | nil => simpa using h
  | cons b bs ih =>
    have hb : pre.length + (bs.length + 1) ≤ 64 := by simpa using hle
    have hput := ih (h.put (by omega) b) (by simp; omega)
    rwa [List.append_assoc] at hput

lemma holds_copyBytes {x : Fill} (h : x.Holds []) (hs : x.state = .copyBytes) (bytes : Bytes) (pos : Nat) :
    (x.copyBytes bytes pos).Holds ((bytes.drop pos).take 64) ∧
      (x.copyBytes bytes pos).state = if bytes.length - pos ≤ 64 then .add80 else .copyBytes := by
  have hlen : ((bytes.drop pos).take 64).length =
      if pos + 64 ≤ bytes.length then 64 else bytes.length - pos := by
    rw [List.length_take, List.length_drop]
    split <;> omega
  refine ⟨⟨?_, ?_, by rw [hlen]; split <;> omega⟩, ?_⟩
  · rw [Fill.copyBytes, if_pos hs]
    apply List.ext_getElem
    · simp only [Vector.length_toList, List.length_append, length_zeros, hlen]
      split <;> omega
    · intro i hi _
      have hi64 : i < 64 := by simpa using hi
      have hx : x.chunk.toList = zeros 64 := h.chunk
      have hzero : x.chunk[i] = 0 := by
        have hil : i < x.chunk.toList.length := by simpa using hi64
        have hget : x.chunk.toList[i] = 0 := by simp only [hx, zeros, List.getElem_replicate]
        rwa [Vector.getElem_toList] at hget
      simp only [Vector.toList_ofFn, List.getElem_ofFn, ← hlen]
      by_cases hin : i < ((bytes.drop pos).take 64).length
      · have hb : pos + i < bytes.length := by
          simp only [List.length_take, List.length_drop] at hin
          omega
        rw [if_pos hin, List.getElem_append_left hin, List.getElem_take, List.getElem_drop]
        simp [List.getD_eq_getElem?_getD, hb]
      · rw [if_neg hin, List.getElem_append_right (by omega)]
        simp [zeros, hzero]
  · rw [Fill.copyBytes, if_pos hs, hlen]
  · rw [Fill.copyBytes, if_pos hs]
    dsimp only
    congr 1
    apply propext
    split <;> omega

lemma copyBytes_of_ne {x : Fill} (hs : x.state ≠ .copyBytes) (bytes : Bytes) (pos : Nat) :
    x.copyBytes bytes pos = x := if_neg hs

lemma holds_add80 {x : Fill} {pre : Bytes} (h : x.Holds pre) (hlt : pre.length < 64) (hs : x.state = .add80) :
    x.add80.Holds (pre ++ [0x80]) ∧ x.add80.state = .zeroPad := by
  rw [Fill.add80, if_pos ⟨h.filledChars ▸ hlt, hs⟩]
  exact ⟨(h.put hlt 0x80).state _, rfl⟩

lemma holds_zeroPad {x : Fill} {pre : Bytes} (h : x.Holds pre) (hlt : pre.length < 64) (hs : x.state = .zeroPad) :
    x.zeroPad.Holds (pre ++ zeros ((if pre.length ≤ 56 then 56 else 64) - pre.length)) ∧
      x.zeroPad.state = .writeLen := by
  rw [Fill.zeroPad, if_pos ⟨h.filledChars ▸ hlt, hs⟩, h.filledChars]
  exact ⟨h.skip (by split <;> omega) (by split <;> omega) _, rfl⟩

def lenField (bytes : Bytes) : Bytes := beBytes 8 (bytes.length * 8 % 2 ^ 64)

lemma holds_writeLen {x : Fill} {pre : Bytes} (h : x.Holds pre) (hle : pre.length ≤ 56)
    (hs : x.state = .writeLen) (bytes : Bytes) :
    (x.writeLen bytes).Holds (pre ++ lenField bytes) ∧ (x.writeLen bytes).state = .finished := by
  have hlt : x.filledChars < 64 := by rw [h.filledChars]; omega
  rw [Fill.writeLen, if_pos ⟨hlt, hs⟩]
  refine ⟨Holds.state ?_ _, rfl⟩
  rw [lenField, beBytes_eq_map_shift, ← List.foldl_map (g := Fill.put)]
  exact (h.foldl_put _ (by simp; omega)).1

lemma add80_of_ne {x : Fill} (hs : x.state ≠ .add80) : x.add80 = x := if_neg (fun h => hs h.2)

lemma zeroPad_of_ne {x : Fill} (hs : x.state ≠ .zeroPad) : x.zeroPad = x := if_neg (fun h => hs h.2)

lemma Holds.add80_full {x : Fill} {pre : Bytes} (h : x.Holds pre) (hf : pre.length = 64) : x.add80 = x :=
  if_neg (fun hx => absurd hx.1 (by rw [h.filledChars]; omega))

lemma Holds.zeroPad_full {x : Fill} {pre : Bytes} (h : x.Holds pre) (hf : pre.length = 64) : x.zeroPad = x :=
  if_neg (fun hx => absurd hx.1 (by rw [h.filledChars]; omega))

lemma Holds.writeLen_full {x : Fill} {pre : Bytes} (h : x.Holds pre) (hf : pre.length = 64) (bytes : Bytes) :
    x.writeLen bytes = x :=
  if_neg (fun hx => absurd hx.1 (by rw [h.filledChars]; omega))

end Fill

namespace Sha1BlockFeeder

open Fill

/-- The feeder `f` yields a chunk with the characters `out` and becomes `f'`. -/
def Yields (f : Sha1BlockFeeder) (out : Bytes) (f' : Sha1BlockFeeder) : Prop :=
  ∃ chunk, f.nextBlock = some (chunk, f') ∧ chunk.toList = out

lemma yields_of_holds (bytes : Bytes) (pos : Nat) (state : FeederState) {state' : FeederState}
    (hne : state ≠ .finished) {x : Fill} {pre : Bytes}
    (hx : ((((Fill.copyBytes bytes pos ⟨Vector.replicate 64 0, 0, state⟩).add80).zeroPad).writeLen bytes) = x)
    (h : x.Holds pre) (hs : x.state = state') :
    Yields ⟨bytes, pos, state⟩ (pre ++ zeros (64 - pre.length)) ⟨bytes, pos + pre.length, state'⟩ := by
  refine ⟨x.chunk, ?_, h.chunk⟩
  rw [nextBlock, if_neg hne]
  dsimp only
  rw [hx, h.filledChars, hs]

lemma yields_of_full (bytes : Bytes) (pos : Nat) (state : FeederState) {state' : FeederState}
    (hne : state ≠ .finished) {x : Fill} {pre : Bytes}
    (hx : ((((Fill.copyBytes bytes pos ⟨Vector.replicate 64 0, 0, state⟩).add80).zeroPad).writeLen bytes) = x)
    (h : x.Holds pre) (hs : x.state = state') (h64 : pre.length = 64) :
    Yields ⟨bytes, pos, state⟩ pre ⟨bytes, pos + 64, state'⟩ := by
  have hy := yields_of_holds bytes pos state hne hx h hs
  have hz : zeros (64 - pre.length) = [] := by rw [h64]; rfl
  rwa [hz, List.append_nil, h64] at hy

lemma stages_short (bytes : Bytes) {pre : Bytes} {x : Fill} (h : x.Holds pre) (hs : x.state = .add80)
    (hlt : pre.length < 56) :
    (((x.add80).zeroPad).writeLen bytes).Holds (pre ++ 0x80 :: zeros (55 - pre.length) ++ lenField bytes) ∧
      (((x.add80).zeroPad).writeLen bytes).state = .finished := by
  obtain ⟨h80, hs80⟩ := holds_add80 h (by omega) hs
  obtain ⟨hz, hsz⟩ := holds_zeroPad h80 (by simp; omega) hs80
  have hlen : (if (pre ++ [0x80]).length ≤ 56 then 56 else 64) - (pre ++ [0x80]).length = 55 - pre.length := by
    rw [if_pos (by simp; omega)]
    simp
  rw [hlen, List.append_assoc, List.singleton_append] at hz
  exact holds_writeLen hz (by simp; omega) hsz bytes

lemma yields_copy {bytes : Bytes} {pos : Nat} (h : 64 < bytes.length - pos) :
    Yields ⟨bytes, pos, .copyBytes⟩ ((bytes.drop pos).take 64) ⟨bytes, pos + 64, .copyBytes⟩ := by
  obtain ⟨hc, hs⟩ := holds_copyBytes (holds_init .copyBytes) rfl bytes pos
  have hlen : ((bytes.drop pos).take 64).length = 64 := by simp; omega
  rw [if_neg (by omega)] at hs
  exact yields_of_full bytes pos .copyBytes (by decide) (by
    rw [hc.add80_full hlen, hc.zeroPad_full hlen, hc.writeLen_full hlen]) hc hs hlen

lemma yields_copy_last {bytes : Bytes} {pos : Nat} (h : bytes.length - pos = 64) :
    Yields ⟨bytes, pos, .copyBytes⟩ (bytes.drop pos) ⟨bytes, pos + 64, .add80⟩ := by
  obtain ⟨hc, hs⟩ := holds_copyBytes (holds_init .copyBytes) rfl bytes pos
  have hlen : ((bytes.drop pos).take 64).length = 64 := by simp; omega
  rw [if_pos (by omega)] at hs
  have hy := yields_of_full bytes pos .copyBytes (by decide) (by
    rw [hc.add80_full hlen, hc.zeroPad_full hlen, hc.writeLen_full hlen]) hc hs hlen
  rwa [List.take_of_length_le (by simp; omega)] at hy

lemma yields_copy_short {bytes : Bytes} {pos : Nat} (h : bytes.length - pos < 56) :
    Yields ⟨bytes, pos, .copyBytes⟩
      (bytes.drop pos ++ 0x80 :: zeros (55 - (bytes.length - pos)) ++ lenField bytes)
      ⟨bytes, pos + 64, .finished⟩ := by
  obtain ⟨hc, hs⟩ := holds_copyBytes (holds_init .copyBytes) rfl bytes pos
  rw [if_pos (by omega)] at hs
  rw [List.take_of_length_le (by simp; omega)] at hc
  have hlen : (bytes.drop pos).length = bytes.length - pos := List.length_drop
  obtain ⟨hf, hsf⟩ := stages_short bytes hc hs (by omega)
  rw [hlen] at hf
  exact yields_of_full bytes pos .copyBytes (by decide) rfl hf hsf (by simp [lenField]; omega)

/-- With 56 to 62 characters left there is no room for the length, and the chunk is filled with zeros. -/
lemma yields_copy_spill {bytes : Bytes} {pos : Nat} (h56 : 56 ≤ bytes.length - pos) (h62 : bytes.length - pos ≤ 62) :
    Yields ⟨bytes, pos, .copyBytes⟩ (bytes.drop pos ++ 0x80 :: zeros (63 - (bytes.length - pos)))
      ⟨bytes, pos + 64, .writeLen⟩ := by
  obtain ⟨hc, hs⟩ := holds_copyBytes (holds_init .copyBytes) rfl bytes pos
  rw [if_pos (by omega)] at hs
  rw [List.take_of_length_le (by simp; omega)] at hc
  have hlen : (bytes.drop pos).length = bytes.length - pos := List.length_drop
  obtain ⟨h80, hs80⟩ := holds_add80 hc (by omega) hs
  obtain ⟨hz, hsz⟩ := holds_zeroPad h80 (by simp; omega) hs80
  have hpad : (if (bytes.drop pos ++ [0x80]).length ≤ 56 then 56 else 64) - (bytes.drop pos ++ [0x80]).length =
      63 - (bytes.length - pos) := by
    rw [if_neg (by simp; omega)]
    simp
  rw [hpad, List.append_assoc, List.singleton_append] at hz
  have h64 : (bytes.drop pos ++ 0x80 :: zeros (63 - (bytes.length - pos))).length = 64 := by
    simp
    omega
  exact yields_of_full bytes pos .copyBytes (by decide) (hz.writeLen_full h64 bytes) hz hsz h64

lemma yields_copy_full {bytes : Bytes} {pos : Nat} (h : bytes.length - pos = 63) :
    Yields ⟨bytes, pos, .copyBytes⟩ (bytes.drop pos ++ [0x80]) ⟨bytes, pos + 64, .zeroPad⟩ := by
  obtain ⟨hc, hs⟩ := holds_copyBytes (holds_init .copyBytes) rfl bytes pos
  rw [if_pos (by omega)] at hs
  rw [List.take_of_length_le (by simp; omega)] at hc
  have hlen : (bytes.drop pos).length = bytes.length - pos := List.length_drop
  obtain ⟨h80, hs80⟩ := holds_add80 hc (by omega) hs
  have h64 : (bytes.drop pos ++ [0x80]).length = 64 := by simp; omega
  exact yields_of_full bytes pos .copyBytes (by decide) (by rw [h80.zeroPad_full h64, h80.writeLen_full h64]) h80 hs80
    h64

lemma yields_add80 (bytes : Bytes) (pos : Nat) :
    Yields ⟨bytes, pos, .add80⟩ (0x80 :: zeros 55 ++ lenField bytes) ⟨bytes, pos + 64, .finished⟩ := by
  obtain ⟨hf, hsf⟩ := stages_short bytes (holds_init .add80) rfl (by simp)
  exact yields_of_full bytes pos .add80 (by decide) (by rw [copyBytes_of_ne (by simp)]) hf hsf (by simp [lenField])

lemma yields_zeroPad (bytes : Bytes) (pos : Nat) :
    Yields ⟨bytes, pos, .zeroPad⟩ (zeros 56 ++ lenField bytes) ⟨bytes, pos + 64, .finished⟩ := by
  obtain ⟨hz, hsz⟩ := holds_zeroPad (holds_init .zeroPad) (by simp) rfl
  obtain ⟨hf, hsf⟩ := holds_writeLen hz (by simp) hsz bytes
  exact yields_of_full bytes pos .zeroPad (by decide) (by rw [copyBytes_of_ne (by simp), add80_of_ne (by simp)])
    hf hsf (by simp [lenField])

/-- A feeder that comes to the length with an empty chunk writes it at the front. -/
lemma yields_writeLen (bytes : Bytes) (pos : Nat) :
    Yields ⟨bytes, pos, .writeLen⟩ (lenField bytes ++ zeros 56) ⟨bytes, pos + 8, .finished⟩ := by
  obtain ⟨hf, hsf⟩ := holds_writeLen (holds_init .writeLen) (by simp) rfl bytes
  rw [List.nil_append] at hf
  have hlen : (lenField bytes).length = 8 := length_beBytes ..
  have hy := yields_of_holds bytes pos .writeLen (by decide) (by
    rw [copyBytes_of_ne (by simp), add80_of_ne (by simp), zeroPad_of_ne (by simp)]) hf hsf
  rwa [hlen] at hy

def remaining (f : Sha1BlockFeeder) : Nat :=
  match f.state with
  | .copyBytes => f.bytes.length - f.pos + 4
  | .add80 => 3
  | .zeroPad => 2
  | .writeLen => 1
  | .finished => 0

lemma remaining_of_yields {f f' g : Sha1BlockFeeder} {out : Bytes} {chunk : Vector UInt8 64}
    (hy : f.Yields out g) (h : f.nextBlock = some (chunk, f')) (hlt : g.remaining < f.remaining) :
    f'.remaining < f.remaining := by
  obtain ⟨_, hg, -⟩ := hy
  rw [h] at hg
  obtain ⟨-, rfl⟩ := Prod.mk.inj (Option.some.inj hg)
  exact hlt

lemma remaining_nextBlock {f f' : Sha1BlockFeeder} {chunk : Vector UInt8 64}
    (h : f.nextBlock = some (chunk, f')) : f'.remaining < f.remaining := by
  obtain ⟨bytes, pos, state⟩ := f
  cases state with
  | copyBytes =>
    by_cases hmore : 64 < bytes.length - pos
    · exact remaining_of_yields (yields_copy hmore) h (by simp only [remaining]; omega)
    by_cases hlast : bytes.length - pos = 64
    · exact remaining_of_yields (yields_copy_last hlast) h (by simp only [remaining]; omega)
    by_cases hfull : bytes.length - pos = 63
    · exact remaining_of_yields (yields_copy_full hfull) h (by simp only [remaining]; omega)
    by_cases hshort : bytes.length - pos < 56
    · exact remaining_of_yields (yields_copy_short hshort) h (by simp only [remaining]; omega)
    · exact remaining_of_yields (yields_copy_spill (by omega) (by omega)) h (by simp only [remaining]; omega)
  | add80 => exact remaining_of_yields (yields_add80 bytes pos) h (by simp [remaining])
  | zeroPad => exact remaining_of_yields (yields_zeroPad bytes pos) h (by simp [remaining])
  | writeLen => exact remaining_of_yields (yields_writeLen bytes pos) h (by simp [remaining])
  | finished => simp [nextBlock] at h

/-- The chunks that `nextBlock` yields until it returns `false`. -/
def blocks (f : Sha1BlockFeeder) : List (Vector UInt8 64) :=
  match _h : f.nextBlock with
  | none => []
  | some (chunk, f') => chunk :: blocks f'
termination_by f.remaining
decreasing_by exact remaining_nextBlock _h

def fed (f : Sha1BlockFeeder) : Bytes := f.blocks.flatMap Vector.toList

lemma fed_finished (bytes : Bytes) (pos : Nat) : fed ⟨bytes, pos, .finished⟩ = [] := by
  rw [fed, blocks]
  rfl

lemma Yields.fed_eq {f f' : Sha1BlockFeeder} {out : Bytes} (h : f.Yields out f') : f.fed = out ++ f'.fed := by
  obtain ⟨chunk, hnext, rfl⟩ := h
  rw [fed, blocks]
  split
  · simp_all
  · simp_all [fed]

lemma fed_add80 (bytes : Bytes) (pos : Nat) :
    fed ⟨bytes, pos, .add80⟩ = 0x80 :: zeros 55 ++ lenField bytes := by
  rw [(yields_add80 bytes pos).fed_eq, fed_finished, List.append_nil]

lemma fed_zeroPad (bytes : Bytes) (pos : Nat) : fed ⟨bytes, pos, .zeroPad⟩ = zeros 56 ++ lenField bytes := by
  rw [(yields_zeroPad bytes pos).fed_eq, fed_finished, List.append_nil]

lemma fed_writeLen (bytes : Bytes) (pos : Nat) : fed ⟨bytes, pos, .writeLen⟩ = lenField bytes ++ zeros 56 := by
  rw [(yields_writeLen bytes pos).fed_eq, fed_finished, List.append_nil]

/-- What the feeder appends to a message of length `n` before the length field, and what it
appends after it. -/
def feedPad (n : Nat) : Bytes × Bytes :=
  if n % 64 < 56 then (0x80 :: zeros (55 - n % 64), [])
  else if n % 64 = 63 then (0x80 :: zeros 56, [])
  else (0x80 :: zeros (63 - n % 64), zeros 56)

theorem fed_copyBytes (bytes : Bytes) (pos : Nat) (hle : pos ≤ bytes.length) (hpos : pos % 64 = 0) :
    fed ⟨bytes, pos, .copyBytes⟩ = bytes.drop pos ++ (feedPad bytes.length).1 ++ lenField bytes ++
      (feedPad bytes.length).2 := by
  induction hn : bytes.length - pos using Nat.strong_induction_on generalizing pos with
  | _ n ih =>
    by_cases hmore : 64 < bytes.length - pos
    · rw [(yields_copy hmore).fed_eq, ih (bytes.length - (pos + 64)) (by omega) (pos + 64) (by omega)
        (by omega) rfl, ← List.append_assoc, ← List.append_assoc, ← List.append_assoc, ← List.drop_drop,
        List.take_append_drop]
    by_cases hlast : bytes.length - pos = 64
    · have hmod : bytes.length % 64 = 0 := by omega
      rw [(yields_copy_last hlast).fed_eq, fed_add80, feedPad, if_pos (by omega), hmod, List.append_nil,
        List.append_assoc]
    by_cases hfull : bytes.length - pos = 63
    · have hmod : bytes.length % 64 = 63 := by omega
      rw [(yields_copy_full hfull).fed_eq, fed_zeroPad, feedPad, if_neg (by omega), if_pos hmod]
      simp
    by_cases hshort : bytes.length - pos < 56
    · have hmod : bytes.length - pos = bytes.length % 64 := by omega
      rw [(yields_copy_short hshort).fed_eq, fed_finished, feedPad, if_pos (by omega), hmod]
    · have hmod : bytes.length - pos = bytes.length % 64 := by omega
      rw [(yields_copy_spill (by omega) (by omega)).fed_eq, fed_writeLen, feedPad, if_neg (by omega),
        if_neg (by omega), hmod]
      simp

end Sha1BlockFeeder

end CppExperiments.Hash

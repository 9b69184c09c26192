import CppExperiments.Cgit.Delta
import CppExperiments.Cgit.IndexSearch
import CppExperiments.Lib.Numerals

/-!
# The links of a chain

What the first loop of `GitPack::extract` collects: positions and sizes are kept in 32 bits.
-/

namespace CppExperiments.Cgit

/-! ## Entries of a pack -/

/-- What an entry is; the way back to the base of a delta is in digits of seven bits, the first one in front. -/
inductive PackKind where
  | base (type : Fin 4)
  | ofsDelta (digit : Fin 128) (digits : List (Fin 128))
  | refDelta (name : Bytes)

/-- Bytes of seven bits, of which all but the last have the highest bit. -/
def continued (d : Fin 128) : List (Fin 128) → Bytes
  | [] => [UInt8.ofNat d]
  | d' :: ds => UInt8.ofNat (d + 128) :: continued d' ds

/-- The way back, of which a part has been read. -/
def relOffset (v : Nat) (d : Fin 128) : List (Fin 128) → Nat
  | [] => v * 128 + d
  | d' :: ds => relOffset (v * 128 + d + 1) d' ds

/-- The size has its lowest four bits in the first byte, and then seven bits a byte. -/
structure PackEntry where
  kind : PackKind
  low : Fin 16
  digits : List (Fin 128)

namespace PackEntry

def type (p : PackEntry) : Nat :=
  match p.kind with
  | .base type => type + 1
  | .ofsDelta _ _ => 6
  | .refDelta _ => 7

def size (p : PackEntry) : Nat := p.low + 16 * Nat.ofDigits 128 (p.digits.map Fin.val)

/-- The type and the size. -/
def header (p : PackEntry) : Bytes :=
  match p.digits with
  | [] => [UInt8.ofNat (p.type * 16 + p.low)]
  | d :: ds => UInt8.ofNat (128 + p.type * 16 + p.low) :: continued d ds

/-- What is between the size and the data. -/
def behind (p : PackEntry) : Bytes :=
  match p.kind with
  | .base _ => []
  | .ofsDelta d ds => continued d ds
  | .refDelta name => name

/-- The kind of a link: the type of a base, and 0 for deltas. -/
def linkType (p : PackEntry) : Nat :=
  match p.kind with
  | .base type => type + 1
  | _ => 0

end PackEntry

/-- The pack next to an index: at the offset of every name an entry stands, and the base of a delta is in the pack. -/
structure Stored (pair : PackPair) (entry : IndexEntry → PackEntry) : Prop where
  header : ascii "PACK" ++ beBytes 4 2 <+: pair.file
  length : pair.file.length < 2 ^ 63
  text : ∀ e ∈ pair.index.entries, (entry e).header ++ (entry e).behind <+: pair.file.drop e.offset
  name : ∀ e ∈ pair.index.entries, ∀ name, (entry e).kind = .refDelta name → name.length = 20
  earlier : ∀ e ∈ pair.index.entries, ∀ d ds, (entry e).kind = .ofsDelta d ds →
    0 < relOffset 0 d ds ∧ ∃ base ∈ pair.index.entries, base.offset + relOffset 0 d ds = e.offset
  same : ∀ e ∈ pair.index.entries, ∀ name, (entry e).kind = .refDelta name → ∃ base ∈ pair.index.entries,
    base.name = name

/-- The object that a delta is to be applied to. -/
def IsBase (entry : IndexEntry → PackEntry) (e base : IndexEntry) : Prop :=
  (∃ d ds, (entry e).kind = .ofsDelta d ds ∧ base.offset + relOffset 0 d ds = e.offset) ∨
    (entry e).kind = .refDelta base.name

/-- The entries from an object down to its base. -/
inductive Chain (pair : PackPair) (entry : IndexEntry → PackEntry) : IndexEntry → List IndexEntry → Prop where
  | base {e : IndexEntry} {type : Fin 4} (hkind : (entry e).kind = .base type) : Chain pair entry e [e]
  | delta {e base : IndexEntry} {es : List IndexEntry} (hbase : IsBase entry e base)
      (hmem : base ∈ pair.index.entries) (hes : Chain pair entry base es) : Chain pair entry e (e :: es)

lemma Chain.exists_cons {pair : PackPair} {entry : IndexEntry → PackEntry} {e : IndexEntry} {es : List IndexEntry}
    (h : Chain pair entry e es) : ∃ rest, es = e :: rest := by
  cases h with
  | base hkind => exact ⟨[], rfl⟩
  | delta hbase hmem hes => exact ⟨_, rfl⟩

/-- Where the data of an entry begins. -/
def dataPosition (entry : IndexEntry → PackEntry) (e : IndexEntry) : Nat :=
  e.offset + ((entry e).header ++ (entry e).behind).length

/-- The kind, the data position and the inflated size. -/
def link (entry : IndexEntry → PackEntry) (e : IndexEntry) : Nat × Nat × Nat :=
  ((entry e).linkType, dataPosition entry e, (entry e).size)

/-- The offset of the object is returned, and the links of its chain are collected, without a shift of which the result
is undefined. -/
def Collects (dir : PackDir) (number : Nat) (pair : PackPair) (entry : IndexEntry → PackEntry) (e : IndexEntry) :
    Prop :=
  Ends (fun n => dir.getPackFileOffset n e.sha) (.ok (number, .ofNat e.offset)) ∧
    ∃ es, Chain pair entry e es ∧ (∀ x ∈ es, (entry x).digits.length ≤ 4) ∧
      ∃ deltaChain s, Ends (fun n => dir.chainLoop n n (.ofNat e.offset)
        (dir.verifyHeader (.start pair.file) (ascii "PACK") 2).2 []) (.ok (deltaChain, s)) ∧
        deltaChain.reverse.map (fun l => (l.1, l.2.1.toNat, l.2.2.toNat)) = es.map (link entry)

variable {d : Fin 128} {ds : List (Fin 128)} {rest : Bytes} {type r shift v : Nat} {p : PackEntry}

/-! ## Bytes of seven bits -/

lemma byte_last (d : Fin 128) : BitVec.ofNat 32 (UInt8.ofNat d.val).toNat &&& 128 = 0 ∧
    (BitVec.ofNat 32 (UInt8.ofNat d.val).toNat &&& 127).toNat = d := by
  revert d
  decide +kernel

lemma byte_more (d : Fin 128) : BitVec.ofNat 32 (UInt8.ofNat (d.val + 128)).toNat &&& 128 ≠ 0 ∧
    (BitVec.ofNat 32 (UInt8.ofNat (d.val + 128)).toNat &&& 127).toNat = d := by
  revert d
  decide +kernel

lemma byte_first (type : Fin 8) (low : Fin 16) (more : Bool) :
    let byte := BitVec.ofNat 32 (UInt8.ofNat ((if more then 128 else 0) + type.val * 16 + low.val)).toNat
    (byte &&& 128 ≠ 0 ↔ more = true) ∧ (byte.sshiftRight 4 &&& 7).toNat = type ∧ (byte &&& 15).toNat = low := by
  revert type low more
  decide +kernel

section Bytewise

variable {σ : Type} {f : BitVec 32 → σ → σ} {g : σ → σ} {st : σ}

lemma bytewise_last (d : Fin 128) (rest : Bytes) : Stream.bytewise f g (continued d [] ++ rest) st =
    some (f (BitVec.ofNat 32 (UInt8.ofNat d.val).toNat) st, rest) := by
  rw [continued, List.singleton_append, Stream.bytewise, if_neg (not_not.2 (byte_last d).1)]

lemma bytewise_more (d d' : Fin 128) (ds : List (Fin 128)) (rest : Bytes) :
    Stream.bytewise f g (continued d (d' :: ds) ++ rest) st = Stream.bytewise f g (continued d' ds ++ rest)
      (g (f (BitVec.ofNat 32 (UInt8.ofNat (d.val + 128)).toNat) st)) := by
  rw [continued, List.cons_append, Stream.bytewise, if_pos (byte_more d).1]

end Bytewise

lemma headerStep_later (htype : type ≠ 0) (hr : r < 2 ^ shift) (hshift : shift < 32) {byte : BitVec 32} {n : Nat}
    (hbyte : (byte &&& 127).toNat = n) :
    PackDir.headerStep byte (type, r, shift) = (type, signExtend (r + n * 2 ^ shift), shift + 7) := by
  rw [PackDir.headerStep, PackDir.headerByte, if_neg htype, hbyte, or_shiftInt hr hshift]

/-- A size of up to 32 bits is read, but for its sign. -/
lemma bytewise_size (htype : type ≠ 0) (hr : r < 2 ^ shift) (hshift : shift + 7 * (ds.length + 1) ≤ 32) :
    ∃ length shift', Stream.bytewise PackDir.headerStep id (continued d ds ++ rest) (type, r, shift) =
      some ((type, length, shift'), rest) ∧
      length % 2 ^ 32 = r + 2 ^ shift * Nat.ofDigits 128 ((d :: ds).map Fin.val) := by
  have hd : d.val * 2 ^ shift ≤ 127 * 2 ^ shift := Nat.mul_le_mul_right _ (Nat.le_of_lt_succ d.isLt)
  have hpow : 2 ^ (shift + 7) = 128 * 2 ^ shift := by
    rw [pow_add, mul_comm]
    rfl
  have hle : 2 ^ (shift + 7) ≤ 2 ^ 32 := Nat.pow_le_pow_right (by decide) (by omega)
  induction ds generalizing d r shift with
  | nil =>
    refine ⟨signExtend (r + d.val * 2 ^ shift), shift + 7, ?_, ?_⟩
    · rw [bytewise_last, headerStep_later htype hr (by omega) (byte_last d).2]
    · rw [signExtend_mod, Nat.mod_eq_of_lt (by omega), List.map_singleton, Nat.ofDigits_singleton, mul_comm]
  | cons d' ds ih =>
    rw [List.length_cons] at hshift
    have hle' : 2 ^ (shift + 7) ≤ 2 ^ 25 := Nat.pow_le_pow_right (by decide) (by omega)
    have hd' : d'.val * 2 ^ (shift + 7) ≤ 127 * 2 ^ (shift + 7) :=
      Nat.mul_le_mul_right _ (Nat.le_of_lt_succ d'.isLt)
    have hpow' : 2 ^ (shift + 7 + 7) = 128 * 2 ^ (shift + 7) := by
      rw [pow_add, mul_comm]
      rfl
    obtain ⟨length, shift', hbytes, hlength⟩ :=
      @ih d' (r + d.val * 2 ^ shift) (shift + 7) (by omega) (by omega) hd' hpow'
      (Nat.pow_le_pow_right (by decide) (by omega))
    refine ⟨length, shift', ?_, ?_⟩
    · rw [bytewise_more, headerStep_later htype hr (by omega) (byte_more d).2, signExtend_of_lt (by omega)]
      exact hbytes
    · rw [hlength, List.map_cons (l := d' :: ds), Nat.ofDigits_cons, hpow]
      ring

namespace PackEntry

lemma type_cases (p : PackEntry) : 1 ≤ p.type ∧ p.type ≤ 4 ∨ p.type = 6 ∨ p.type = 7 := by
  rw [type]
  cases p.kind with
  | base t => exact .inl ⟨Nat.succ_le_succ (Nat.zero_le _), t.isLt⟩
  | ofsDelta => exact .inr (.inl rfl)
  | refDelta => exact .inr (.inr rfl)

lemma size_lt (p : PackEntry) (h : p.digits.length ≤ 4) : p.size < 2 ^ 32 := by
  have hlt := @ofDigits_lt 128 (p.digits.map Fin.val) (by decide) fun d hd => by
    obtain ⟨d, -, rfl⟩ := List.mem_map.1 hd
    exact d.isLt
  rw [List.length_map] at hlt
  have hle : 128 ^ p.digits.length ≤ 128 ^ 4 := Nat.pow_le_pow_right (by decide) h
  have hlow := p.low.isLt
  rw [size]
  omega

/-- The type and the size are read, but for the sign of the size. -/
lemma bytewise_header (p : PackEntry) (h : p.digits.length ≤ 4) (rest : Bytes) :
    ∃ length shift', Stream.bytewise PackDir.headerStep id (p.header ++ rest) (0, 0, 0) =
      some ((p.type, length, shift'), rest) ∧ length % 2 ^ 32 = p.size := by
  have htype : p.type < 8 := by
    have hcases := p.type_cases
    omega
  have hlow := p.low.isLt
  have hfirst : ∀ more : Bool, PackDir.headerStep
      (BitVec.ofNat 32 (UInt8.ofNat ((if more then 128 else 0) + p.type * 16 + p.low)).toNat) (0, 0, 0) =
        (p.type, p.low.val, 4) := by
    intro more
    obtain ⟨-, ht, hl⟩ := byte_first ⟨p.type, htype⟩ p.low more
    dsimp only at ht hl
    rw [PackDir.headerStep, PackDir.headerByte, if_pos rfl, ht, hl]
  cases hdigits : p.digits with
  | nil =>
    have hbit := (byte_first ⟨p.type, htype⟩ p.low false).1
    have hstep := hfirst false
    simp only [Bool.false_eq_true, if_false, Nat.zero_add, iff_false, not_not] at hbit hstep
    refine ⟨p.low, 4, ?_, ?_⟩
    · rw [header, hdigits]
      dsimp only
      rw [List.singleton_append, Stream.bytewise, if_neg (not_not.2 hbit), hstep]
    · rw [size, hdigits, List.map_nil, Nat.ofDigits_nil]
      omega
  | cons d ds =>
    have hbit := (byte_first ⟨p.type, htype⟩ p.low true).1
    have hstep := hfirst true
    simp only [if_true, iff_true] at hbit hstep
    rw [hdigits, List.length_cons] at h
    have hne : p.type ≠ 0 := by
      have hcases := p.type_cases
      omega
    obtain ⟨length, shift', hbytes, hlength⟩ := @bytewise_size d ds rest p.type p.low.val 4 hne hlow (by omega)
    refine ⟨length, shift', ?_, ?_⟩
    · rw [header, hdigits]
      dsimp only
      rw [List.cons_append, Stream.bytewise, if_pos hbit, hstep]
      exact hbytes
    · have hpow : 2 ^ 4 = 16 := rfl
      rw [hlength, size, hdigits, hpow]

end PackEntry

/-! ## The way back -/

lemma relOffsetByte_eq {byte : BitVec 32} {n v : Nat} (hbyte : (byte &&& 127).toNat = n) (hn : n < 128)
    (hlt : v * 128 + n < 2 ^ 64) : PackDir.relOffsetByte byte (.ofNat v) = .ofNat (v * 128 + n) := by
  have hor : v * 128 ||| n = v * 128 + n := by
    have hadd := Nat.two_pow_add_eq_or_of_lt (i := 7) hn v
    rw [mul_comm v]
    exact hadd.symm
  have hseven : UInt64.toNat 7 % 64 = 7 := rfl
  have hpow : 2 ^ 7 = 128 := rfl
  rw [PackDir.relOffsetByte, hbyte, ← UInt64.toNat_inj, UInt64.toNat_or, UInt64.toNat_shiftLeft, UInt64.toNat_ofNat',
    UInt64.toNat_ofNat', UInt64.toNat_ofNat', hseven, Nat.shiftLeft_eq, hpow, Nat.mod_eq_of_lt (a := v) (by omega),
    Nat.mod_eq_of_lt (a := n) (by omega), Nat.mod_eq_of_lt (a := v * 128) (by omega), hor, Nat.mod_eq_of_lt hlt]

lemma le_relOffset (v : Nat) (d : Fin 128) (ds : List (Fin 128)) : v * 128 + d ≤ relOffset v d ds := by
  induction ds generalizing v d with
  | nil => exact Nat.le_refl _
  | cons d' ds ih =>
    have hle := ih (v * 128 + d + 1) d'
    rw [relOffset]
    omega

/-- The way back is read if it fits. -/
lemma bytewise_relOffset (hlt : relOffset v d ds < 2 ^ 64) :
    Stream.bytewise PackDir.relOffsetByte (· + 1) (continued d ds ++ rest) (.ofNat v) =
      some (.ofNat (relOffset v d ds), rest) := by
  induction ds generalizing v d with
  | nil => rw [bytewise_last, relOffsetByte_eq (byte_last d).2 d.isLt hlt, relOffset]
  | cons d' ds ih =>
    rw [relOffset] at hlt ⊢
    have hle := le_relOffset (v * 128 + d + 1) d' ds
    rw [bytewise_more, relOffsetByte_eq (byte_more d).2 d.isLt (by omega), ← ih hlt,
      UInt64.ofNat_add (v * 128 + d) 1]
    rfl

/-! ## Rounds -/

section Rounds

variable {dir : PackDir} {file : Bytes} {pos offset : Nat} {deltaChain : PackDir.DeltaChain}

/-- With rounds enough the loop ends with this. -/
def LoopEnds (dir : PackDir) (offset : Nat) (s : Stream) (deltaChain : PackDir.DeltaChain)
    (r : Call (PackDir.DeltaChain × Stream)) : Prop :=
  ∃ k, ∀ n ≥ k, ∀ m ≥ k, dir.chainLoop n m (.ofNat offset) s deltaChain = r

lemma loopEnds_of_goesOn {call : Nat → Nat → Call (PackDir.DeltaChain × Stream)}
    {r : Call (PackDir.DeltaChain × Stream)} {s : Stream}
    (hon : GoesOn .running (fun n m => dir.chainLoop n (m + 1) (.ofNat offset) s deltaChain) call)
    (h : ∃ k, ∀ n ≥ k, ∀ m ≥ k, call n m = r) : LoopEnds dir offset s deltaChain r := by
  obtain ⟨k, hk⟩ := hon.enough
  obtain ⟨k', hk'⟩ := h
  refine ⟨max k k' + 1, fun n hn m hm => ?_⟩
  obtain ⟨m, rfl⟩ := Nat.exists_eq_add_of_le' (Nat.le_of_add_left_le hm)
  exact (hk n (by omega) m).trans (hk' n (by omega) m (by omega))

/-- A link in 32 bits. -/
def pushed (p : PackEntry) (position : Nat) : Nat × UInt32 × UInt32 := (p.linkType, .ofNat position, .ofNat p.size)

lemma ofNat_size {length : Nat} (h : length % 2 ^ 32 = p.size) : UInt32.ofNat length = .ofNat p.size := by
  rw [← UInt32.toNat_inj, UInt32.toNat_ofNat', UInt32.toNat_ofNat', h, ← h, Nat.mod_mod]

lemma toNat_ofNat_of_lt (h : offset < 2 ^ 63) : (UInt64.ofNat offset).toNat = offset := by
  rw [UInt64.toNat_ofNat', Nat.mod_eq_of_lt (by omega)]

/-- The position behind what has been read. -/
lemma position_eq {text after : Bytes} (hne : text ≠ []) (h : file.drop offset = text ++ after) :
    file.length - after.length = offset + text.length := by
  have hlength := congrArg List.length h
  have hpos := List.length_pos_iff.2 hne
  rw [List.length_drop, List.length_append] at hlength
  omega

lemma header_ne_nil (p : PackEntry) : p.header ≠ [] := by
  rw [PackEntry.header]
  cases p.digits with
  | nil => exact List.cons_ne_nil _ _
  | cons => exact List.cons_ne_nil _ _

lemma push_eq {length position : Nat} {type : Nat} (htype : type = p.linkType) (hlength : length % 2 ^ 32 = p.size) :
    PackDir.push deltaChain type length ⟨file, position, false⟩ = pushed p position :: deltaChain := by
  have hposition : UInt32.ofInt (position : Int) = .ofNat position := by
    have hmod : ((position : Int) % 2 ^ 32).toNat = position % 2 ^ 32 := by omega
    rw [UInt32.ofInt, hmod, ← UInt32.toNat_inj, UInt32.toNat_ofNat', UInt32.toNat_ofNat', Nat.mod_mod]
  rw [PackDir.push, ofNat_size hlength, htype, pushed, ← hposition]
  rfl

/-- A base ends the loop. -/
lemma loopEnds_base {t : Fin 4} (hkind : p.kind = .base t) (hdigits : p.digits.length ≤ 4) (hoffset : offset < 2 ^ 63)
    (htext : p.header ++ p.behind <+: file.drop offset) :
    LoopEnds dir offset ⟨file, pos, false⟩ deltaChain
      (.ok (pushed p (offset + (p.header ++ p.behind).length) :: deltaChain,
        ⟨file, offset + (p.header ++ p.behind).length, false⟩)) := by
  have hbehind : p.behind = [] := by rw [PackEntry.behind, hkind]
  obtain ⟨after, hafter⟩ := htext
  rw [hbehind, List.append_nil] at hafter ⊢
  obtain ⟨length, shift', hheader, hlength⟩ := p.bytewise_header hdigits after
  have hnat := toNat_ofNat_of_lt hoffset
  have htype : p.type = p.linkType ∧ 1 ≤ p.type ∧ p.type ≤ 4 := by
    rw [PackEntry.type, PackEntry.linkType, hkind]
    exact ⟨rfl, Nat.succ_le_succ (Nat.zero_le _), t.isLt⟩
  rw [hafter, ← hnat] at hheader
  have hon := @PackDir.goesOn_header dir file (.ofNat offset) pos deltaChain _ _ _ _ (by omega) hheader
  rw [position_eq (header_ne_nil p) hafter.symm] at hon
  simp only [if_pos htype.2, push_eq htype.1 hlength] at hon
  exact loopEnds_of_goesOn hon ⟨0, fun _ _ _ _ => rfl⟩

/-- A delta to an earlier entry goes on there. -/
lemma loopEnds_ofsDelta {base : Nat} {r : Call (PackDir.DeltaChain × Stream)} (hkind : p.kind = .ofsDelta d ds)
    (hdigits : p.digits.length ≤ 4) (hoffset : offset < 2 ^ 63)
    (htext : p.header ++ p.behind <+: file.drop offset) (hbase : base + relOffset 0 d ds = offset)
    (h : ∀ pos, LoopEnds dir base ⟨file, pos, false⟩
      (pushed p (offset + (p.header ++ p.behind).length) :: deltaChain) r) :
    LoopEnds dir offset ⟨file, pos, false⟩ deltaChain r := by
  have hbehind : p.behind = continued d ds := by rw [PackEntry.behind, hkind]
  obtain ⟨after, hafter⟩ := htext
  rw [hbehind] at hafter h
  obtain ⟨length, shift', hheader, hlength⟩ := p.bytewise_header hdigits (continued d ds ++ after)
  have hnat := toNat_ofNat_of_lt hoffset
  have htype : p.type = 6 ∧ p.linkType = 0 := by
    rw [PackEntry.type, PackEntry.linkType, hkind]
    exact ⟨rfl, rfl⟩
  rw [← List.append_assoc, hafter, ← hnat] at hheader
  have hon := @PackDir.goesOn_header dir file (.ofNat offset) pos deltaChain _ _ _ _ (by omega) hheader
  have hsplit : file.drop offset = p.header ++ (continued d ds ++ after) := by rw [← hafter, List.append_assoc]
  have hdrop : file.drop (offset + p.header.length) = continued d ds ++ after := by
    rw [← List.drop_drop, hsplit, List.drop_left' rfl]
  have hrel := @bytewise_relOffset d ds after 0 (by omega)
  rw [← hdrop] at hrel
  have hcomes := PackDir.relOffsetLoop_bytewise.comes (s := ⟨file, offset + p.header.length, false⟩) rfl hrel
  have hsub : UInt64.ofNat offset - UInt64.ofNat (relOffset 0 d ds) = .ofNat base := by
    rw [← hbase, UInt64.ofNat_add, UInt64.add_sub_cancel]
  rw [position_eq (header_ne_nil p) hsplit] at hon
  rw [position_eq (List.append_ne_nil_of_left_ne_nil (header_ne_nil p) _) hafter.symm] at hcomes
  simp only [htype.1, if_neg (by decide : ¬ (1 ≤ 6 ∧ 6 ≤ 4)), if_true] at hon
  refine loopEnds_of_goesOn (hon.trans hcomes.goesOn) ?_
  dsimp only
  rw [hsub, push_eq htype.2.symm hlength]
  exact h _

/-- A delta to a name goes on with what is found for it. -/
lemma goesOn_name (dir : PackDir) (pos : Nat) (deltaChain : PackDir.DeltaChain) {name : Bytes}
    (hkind : p.kind = .refDelta name) (hname : name.length = 20)
    (hdigits : p.digits.length ≤ 4) (hoffset : offset < 2 ^ 63) (htext : p.header ++ p.behind <+: file.drop offset) :
    GoesOn .running (fun n m => dir.chainLoop n (m + 1) (.ofNat offset) ⟨file, pos, false⟩ deltaChain)
      (fun n m => dir.getPackFileOffset n (binary2Sha name) >>= fun found =>
        dir.chainLoop n m found.2 ⟨file, offset + (p.header ++ p.behind).length, false⟩
          (pushed p (offset + (p.header ++ p.behind).length) :: deltaChain)) := by
  have hbehind : p.behind = name := by rw [PackEntry.behind, hkind]
  obtain ⟨after, hafter⟩ := htext
  rw [hbehind] at hafter ⊢
  obtain ⟨length, shift', hheader, hlength⟩ := p.bytewise_header hdigits (name ++ after)
  have hnat := toNat_ofNat_of_lt hoffset
  have htype : p.type = 7 ∧ p.linkType = 0 := by
    rw [PackEntry.type, PackEntry.linkType, hkind]
    exact ⟨rfl, rfl⟩
  rw [← List.append_assoc, hafter, ← hnat] at hheader
  have hon := @PackDir.goesOn_header dir file (.ofNat offset) pos deltaChain _ _ _ _ (by omega) hheader
  have hsplit : file.drop offset = p.header ++ (name ++ after) := by rw [← hafter, List.append_assoc]
  have hdrop : name <+: file.drop (offset + p.header.length) := by
    rw [← List.drop_drop, hsplit, List.drop_left' rfl]
    exact List.prefix_append _ _
  obtain ⟨hsha, hread⟩ := dir.readSha_of_prefix hname hdrop
  rw [position_eq (header_ne_nil p) hsplit] at hon
  simp only [htype.1, if_neg (by decide : ¬ (1 ≤ 7 ∧ 7 ≤ 4)), if_neg (by decide : ¬ 7 = 6), if_true, hsha, hread,
    push_eq htype.2.symm hlength] at hon
  rw [List.length_append, hname, ← Nat.add_assoc]
  exact hon

end Rounds

/-! ## Chains -/

section Chains

variable {before after : List PackPair} {pair : PackPair} {entry : IndexEntry → PackEntry}
  {e : IndexEntry} {es : List IndexEntry}

/-- The names of bases on a chain are found once. -/
def BasesFound (pairs : List PackPair) (entry : IndexEntry → PackEntry) (es : List IndexEntry) : Prop :=
  ∀ x ∈ es, ∀ name, (entry x).kind = .refDelta name → NoneOverread pairs (binary2Sha name)

/-- The positions that are computed for the named bases on a chain fit 32 bits. -/
def BasesReached (pairs : List PackPair) (pair : PackPair) (entry : IndexEntry → PackEntry) (es : List IndexEntry) :
    Prop :=
  ∀ x ∈ es, ∀ base ∈ pair.index.entries, (entry x).kind = .refDelta base.name → Reaches pairs pair base

/-- So do all that are computed for an object. -/
def Positioned (pairs : List PackPair) (pair : PackPair) (entry : IndexEntry → PackEntry) (e : IndexEntry) : Prop :=
  Reaches pairs pair e ∧ ∀ es, Chain pair entry e es → BasesReached pairs pair entry es

/-- A link in 32 bits. -/
def link32 (entry : IndexEntry → PackEntry) (e : IndexEntry) : Nat × UInt32 × UInt32 :=
  pushed (entry e) (dataPosition entry e)

/-- The links of a chain are collected if the names on it are found. -/
lemma loopEnds_chain (buffer : Stream → Bytes) (deltaChain : PackDir.DeltaChain)
    (hreached : BasesReached (before ++ pair :: after) pair entry es) (hdistinct : Distinct (before ++ pair :: after))
    (hstored : Stored pair entry) (hchain : Chain pair entry e es) (he : e ∈ pair.index.entries)
    (hdigits : ∀ x ∈ es, (entry x).digits.length ≤ 4) (hfound : BasesFound (before ++ pair :: after) entry es) :
    ∃ s, ∀ pos, LoopEnds (packDir buffer (before ++ pair :: after)) e.offset ⟨pair.file, pos, false⟩ deltaChain
      (.ok ((es.map (link32 entry)).reverse ++ deltaChain, s)) := by
  induction hchain generalizing deltaChain with
  | @base e t hkind =>
    exact ⟨_, fun pos => loopEnds_base hkind (hdigits e List.mem_cons_self) (pair.index.wellFormed e he).offset
      (hstored.text e he)⟩
  | @delta e base es hbase hmem hes ih =>
    have hdigits' := List.forall_mem_cons.1 hdigits
    have hoffset := (pair.index.wellFormed e he).offset
    have hreached' := List.forall_mem_cons.1 hreached
    obtain ⟨s, hs⟩ := @ih (link32 entry e :: deltaChain) hreached'.2 hmem hdigits'.2 fun x hx =>
      hfound x (List.mem_cons_of_mem _ hx)
    have hlinks : ((e :: es).map (link32 entry)).reverse ++ deltaChain =
        (es.map (link32 entry)).reverse ++ link32 entry e :: deltaChain := by
      rw [List.map_cons, List.reverse_cons, List.append_assoc, List.singleton_append]
    rw [hlinks]
    refine ⟨s, fun pos => ?_⟩
    rcases hbase with ⟨d, ds, hkind, hback⟩ | hkind
    · exact loopEnds_ofsDelta hkind hdigits'.1 hoffset (hstored.text e he) hback hs
    · have hon := goesOn_name (packDir buffer (before ++ pair :: after)) pos deltaChain hkind
        (pair.index.wellFormed base hmem).name hdigits'.1 hoffset (hstored.text e he)
      have hcomes := (comes_getPackFileOffset_iff buffer (hreached'.1 base hmem hkind) hdistinct hmem).2
        (hfound e List.mem_cons_self _ hkind)
      exact loopEnds_of_goesOn (hon.trans hcomes.goesOn) (hs _)

/-- At a name that is found twice the loop throws. -/
lemma loopEnds_threw (buffer : Stream → Bytes) (deltaChain : PackDir.DeltaChain)
    (hreached : BasesReached (before ++ pair :: after) pair entry es) (hdistinct : Distinct (before ++ pair :: after))
    (hstored : Stored pair entry) (hchain : Chain pair entry e es) (he : e ∈ pair.index.entries)
    (hdigits : ∀ x ∈ es, (entry x).digits.length ≤ 4) (hfound : ¬ BasesFound (before ++ pair :: after) entry es) :
    ∀ pos, LoopEnds (packDir buffer (before ++ pair :: after)) e.offset ⟨pair.file, pos, false⟩ deltaChain
      (.error .threw) := by
  induction hchain generalizing deltaChain with
  | @base e t hkind =>
    refine absurd (fun x hx name hname => ?_) hfound
    rw [List.mem_singleton.1 hx, hkind] at hname
    cases hname
  | @delta e base es hbase hmem hes ih =>
    have hdigits' := List.forall_mem_cons.1 hdigits
    have hreached' := List.forall_mem_cons.1 hreached
    have hoffset := (pair.index.wellFormed e he).offset
    intro pos
    rcases hbase with ⟨d, ds, hkind, hback⟩ | hkind
    · refine loopEnds_ofsDelta hkind hdigits'.1 hoffset (hstored.text e he) hback 
        (ih (link32 entry e :: deltaChain) hreached'.2 hmem hdigits'.2 fun h => hfound ?_)
      refine List.forall_mem_cons.2 ⟨fun name hname => ?_, h⟩
      rw [hkind] at hname
      cases hname
    · have hon := goesOn_name (packDir buffer (before ++ pair :: after)) pos deltaChain hkind
        (pair.index.wellFormed base hmem).name hdigits'.1 hoffset (hstored.text e he)
      by_cases hone : NoneOverread (before ++ pair :: after) base.sha
      · have hcomes := (comes_getPackFileOffset_iff buffer (hreached'.1 base hmem hkind) hdistinct hmem).2 hone
        refine loopEnds_of_goesOn (hon.trans hcomes.goesOn) 
          (ih (link32 entry e :: deltaChain) hreached'.2 hmem hdigits'.2 (fun h => hfound ?_) _)
        refine List.forall_mem_cons.2 ⟨fun name hname => ?_, h⟩
        rw [hkind, PackKind.refDelta.injEq] at hname
        rw [← hname]
        exact hone
      · have hcomes := comes_getPackFileOffset_threw buffer (hreached'.1 base hmem hkind).1
          (List.mem_append_right _ List.mem_cons_self) hmem hone
        exact loopEnds_of_goesOn (hon.trans hcomes.goesOn_error) ⟨0, fun _ _ _ _ => rfl⟩

/-- What must hold for the offset and the links to be right: no bytes behind names are taken for a name that is looked
up, the object has a base, and on the chain positions are below 2^32, and sizes of five bytes. -/
def Within (pairs : List PackPair) (pair : PackPair) (entry : IndexEntry → PackEntry) (e : IndexEntry) : Prop :=
  NoneOverread pairs e.sha ∧ ∃ es, Chain pair entry e es ∧ BasesFound pairs entry es ∧
    ∀ x ∈ es, dataPosition entry x < 2 ^ 32 ∧ (entry x).digits.length ≤ 4

lemma verifyHeader_pack (dir : PackDir) (hstored : Stored pair entry) :
    dir.verifyHeader (.start pair.file) (ascii "PACK") 2 = (true, ⟨pair.file, 8, false⟩) := by
  have hmagic : ascii "PACK" <+: pair.file.drop 0 := (List.prefix_append _ _).trans hstored.header
  have hversion : beBytes 4 2 <+: pair.file.drop 4 := by
    obtain ⟨rest, hrest⟩ := hstored.header
    rw [← hrest, List.append_assoc, List.drop_left' (by decide)]
    exact List.prefix_append _ _
  have hblock : (⟨pair.file, 0, false⟩ : Stream).block 4 = ascii "PACK" := PackDir.block_of_prefix hmagic
  have hread : (⟨pair.file, 0, false⟩ : Stream).read 4 = ⟨pair.file, 4, false⟩ := PackDir.read_of_prefix hmagic
  have hnumber := dir.readBigEndian_of_prefix hversion (by decide)
  rw [PackDir.verifyHeader, Stream.start]
  dsimp only
  rw [hblock, if_pos rfl, hread, hnumber]
  rfl

lemma link32_eq_iff : ((link32 entry e).1, (link32 entry e).2.1.toNat, (link32 entry e).2.2.toNat) = link entry e ↔
    dataPosition entry e < 2 ^ 32 ∧ (entry e).size < 2 ^ 32 := by
  rw [link32, pushed, link, Prod.mk.injEq, Prod.mk.injEq, UInt32.toNat_ofNat', UInt32.toNat_ofNat',
    eq_self_iff_true, true_and]
  exact and_congr (by omega) (by omega)

/-- Where the positions that are computed in the indexes fit 32 bits the links are collected within these bounds, and only
there. -/
theorem collects_iff (buffer : Stream → Bytes) (hdistinct : Distinct (before ++ pair :: after))
    (hstored : Stored pair entry) (he : e ∈ pair.index.entries) :
    (Positioned (before ++ pair :: after) pair entry e ∧ Within (before ++ pair :: after) pair entry e →
      Collects (packDir buffer (before ++ pair :: after)) before.length pair entry e) ∧
    (Collects (packDir buffer (before ++ pair :: after)) before.length pair entry e →
      Positioned (before ++ pair :: after) pair entry e → Within (before ++ pair :: after) pair entry e) := by
  have hstream := verifyHeader_pack (packDir buffer (before ++ pair :: after)) hstored
  constructor
  · rintro ⟨⟨hreaches, hreached⟩, hnone, es, hchain, hfound, hbounds⟩
    obtain ⟨s, hs⟩ := loopEnds_chain buffer [] (hreached es hchain) hdistinct hstored hchain he (fun x hx =>
      (hbounds x hx).2) hfound
    obtain ⟨k, hk⟩ := hs 8
    refine ⟨((comes_getPackFileOffset_iff buffer hreaches hdistinct he).2 hnone).enough, es, hchain,
      fun x hx => (hbounds x hx).2, (es.map (link32 entry)).reverse ++ [], s, ⟨k, fun n hn => ?_⟩, ?_⟩
    · rw [hstream]
      exact hk n hn n hn
    · rw [List.append_nil, List.reverse_reverse, List.map_map]
      refine List.map_congr_left fun x hx => ?_
      exact link32_eq_iff.2 ⟨(hbounds x hx).1, (entry x).size_lt (hbounds x hx).2⟩
  · rintro ⟨hoffset, es, hchain, hdigits, deltaChain, s, hloop, hlinks⟩ ⟨hreaches, hreached⟩
    rw [hstream] at hloop
    have hnone : NoneOverread (before ++ pair :: after) e.sha := by
      by_contra hover
      have hthrew := comes_getPackFileOffset_threw buffer hreaches.1 (List.mem_append_right _ List.mem_cons_self) he
        hover
      cases GitDir.Ends.unique hoffset hthrew.enough
    by_cases hfound : BasesFound (before ++ pair :: after) entry es
    · obtain ⟨s', hs⟩ := loopEnds_chain buffer [] (hreached es hchain) hdistinct hstored hchain he hdigits hfound
      obtain ⟨k, hk⟩ := hs 8
      have heq := GitDir.Ends.unique hloop ⟨k, fun n hn => hk n hn n hn⟩
      obtain ⟨rfl, -⟩ := Prod.mk.inj (Except.ok.inj heq)
      rw [List.append_nil, List.reverse_reverse, List.map_map] at hlinks
      refine ⟨hnone, es, hchain, hfound, fun x hx => ⟨?_, hdigits x hx⟩⟩
      exact (link32_eq_iff.1 (List.map_inj_left.1 hlinks x hx)).1
    · obtain ⟨k, hk⟩ := loopEnds_threw buffer [] (hreached es hchain) hdistinct hstored hchain he hdigits hfound 8
      cases GitDir.Ends.unique hloop ⟨k, fun n hn => hk n hn n hn⟩

end Chains

/-! ## Two objects with bytes between them -/

section Far

/-- The first object is at 12 and of one byte, with `n` bytes of data; the offset of the second stands in the second
table. -/
def farEntries (n : Nat) : List IndexEntry :=
  [⟨zeros 20, zeros 4, 12, none⟩, ⟨1 :: zeros 19, zeros 4, 13 + n, some 0⟩]

def farIndex (n : Nat) (h : 13 + n < 2 ^ 63) : IndexFile where
  entries := farEntries n
  offsets := [13 + n]
  trailer := zeros 40
  wellFormed := by
    refine List.forall_mem_cons.2 ⟨⟨rfl, rfl, (by decide : 12 < 2 ^ 63), fun _ => (by decide : 12 < 2 ^ 31), nofun⟩,
      List.forall_mem_singleton.2 ⟨rfl, rfl, h, nofun, fun k hk => ?_⟩⟩
    obtain rfl := Option.some.inj hk
    exact ⟨by decide, rfl⟩
  sorted := by
    have hlt : binary2Sha (zeros 20) < binary2Sha (1 :: zeros 19) := by decide +kernel
    exact List.pairwise_pair.2 hlt
  count := (by decide : 2 < 2 ^ 32)
  trailer_length := rfl

/-- An object of a blob of one byte. -/
def farEntry (_ : IndexEntry) : PackEntry := ⟨.base 2, 1, []⟩

def farFile (n : Nat) : Bytes := ascii "PACK" ++ beBytes 4 2 ++ (beBytes 4 2 ++ (0x31 :: (zeros n ++ [0x31])))

def farPair (n : Nat) (h : 13 + n < 2 ^ 63) : PackPair := ⟨farIndex n h, farFile n⟩

lemma drop_farFile (n : Nat) : (farFile n).drop 12 = 0x31 :: (zeros n ++ [0x31]) := by
  have hhead : (ascii "PACK" ++ beBytes 4 2 ++ beBytes 4 2).length = 12 := by decide
  rw [farFile, ← List.append_assoc, List.drop_left' hhead]

lemma length_farFile (n : Nat) : (farFile n).length = 14 + n := by
  have hhead : (ascii "PACK" ++ beBytes 4 2 ++ beBytes 4 2).length = 12 := by decide
  rw [farFile, ← List.append_assoc, List.length_append, hhead, List.length_cons, List.length_append, zeros,
    List.length_replicate, List.length_singleton]
  omega

lemma stored_farPair (n : Nat) (h : 14 + n < 2 ^ 63) : Stored (farPair n (by omega)) farEntry where
  header := List.prefix_append _ _
  length := (length_farFile n).trans_lt h
  text e he := by
    have htext : (farEntry e).header ++ (farEntry e).behind = [0x31] := rfl
    rw [htext]
    rcases List.mem_cons.1 he with rfl | he
    · exact ⟨zeros n ++ [0x31], (drop_farFile n).symm⟩
    · obtain rfl := List.mem_singleton.1 he
      have hdrop : (farFile n).drop (13 + n) = [0x31] := by
        have hpos : 13 + n = 12 + (1 + n) := by omega
        rw [hpos, ← List.drop_drop, drop_farFile, ← List.drop_drop, List.drop_one, List.tail_cons,
          List.drop_left' (length_zeros n)]
      exact ⟨[], hdrop.symm⟩
  name := nofun
  earlier := nofun
  same := nofun

lemma distinct_farPair (n : Nat) (h : 13 + n < 2 ^ 63) : Distinct ([] ++ farPair n h :: []) := by
  have hnodup : [zeros 20, 1 :: zeros 19].Nodup := by decide
  exact hnodup

lemma length_nearIndex : (farIndex 8 (by decide)).text.length < 2 ^ 32 := by
  rw [IndexFile.length_text]
  decide

/-- With eight bytes of data between them the second object is found and collected. -/
theorem collects_iff_near : Collects (packDir (fun _ => []) [farPair 8 (by decide)]) 0 (farPair 8 (by decide)) farEntry
    ⟨1 :: zeros 19, zeros 4, 21, some 0⟩ := by
  refine (@collects_iff [] [] (farPair 8 (by decide)) farEntry ⟨1 :: zeros 19, zeros 4, 21, some 0⟩ (fun _ => [])
    (distinct_farPair 8 _) (stored_farPair 8 (by decide)) (List.mem_cons_of_mem _ List.mem_cons_self)).1 ⟨⟨⟨?_, ?_⟩, ?_⟩, ?_, ?_⟩
  · exact List.forall_mem_singleton.2 (IndexFile.searchable_of_length length_nearIndex _)
  · exact IndexFile.addressable_of_length length_nearIndex _
  · intro es hchain x hx base hbase hkind
    cases hkind
  · refine List.forall_mem_singleton.2 fun hover => absurd hover.2.2 ?_
    decide +kernel
  · refine ⟨_, Chain.base rfl, ?_, ?_⟩
    · intro x hx name hname
      cases hname
    · exact List.forall_mem_singleton.2 ⟨by decide, by decide⟩

/-- With 4 GiB between them the position of the second object is lost. -/
theorem collects_failing : Distinct [farPair (2 ^ 32) (by decide)] ∧ Stored (farPair (2 ^ 32) (by decide)) farEntry ∧
    ⟨1 :: zeros 19, zeros 4, 13 + 2 ^ 32, some 0⟩ ∈ (farPair (2 ^ 32) (by decide)).index.entries ∧
      ¬ Collects (packDir (fun _ => []) [farPair (2 ^ 32) (by decide)]) 0 (farPair (2 ^ 32) (by decide)) farEntry
        ⟨1 :: zeros 19, zeros 4, 13 + 2 ^ 32, some 0⟩ := by
  refine ⟨distinct_farPair _ _, stored_farPair _ (by decide), List.mem_cons_of_mem _ List.mem_cons_self, ?_⟩
  rintro ⟨-, es, hchain, -, deltaChain, s, -, hlinks⟩
  obtain ⟨rest, rfl⟩ := hchain.exists_cons
  have hmem : link farEntry ⟨1 :: zeros 19, zeros 4, 13 + 2 ^ 32, some 0⟩ ∈
      deltaChain.reverse.map fun l => (l.1, l.2.1.toNat, l.2.2.toNat) := by
    rw [hlinks]
    exact List.mem_cons_self
  obtain ⟨l, -, hl⟩ := List.mem_map.1 hmem
  have hposition : l.2.1.toNat = 13 + 2 ^ 32 + 1 := congrArg (fun l => l.2.1) hl
  have hlt := l.2.1.toNat_lt
  omega

end Far

end CppExperiments.Cgit

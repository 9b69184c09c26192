import Mathlib.Data.List.Basic
import Mathlib.Data.Nat.Bitwise
import Mathlib.Tactic.Ring

/-!
# Byte strings

Byte strings with the fixed-width integer encodings that binary formats are built from.
`leBytes w n` and `beBytes w n` write the low `w` bytes of `n`, least and most significant
byte first; `bitsOf` reads a byte string as bits, most significant bit of each byte first.
-/

namespace CppExperiments

abbrev Bytes := List UInt8

instance lawfulBEqBytes : LawfulBEq Bytes := inferInstance

def zeros (n : Nat) : Bytes := List.replicate n 0

@[simp] lemma length_zeros (n : Nat) : (zeros n).length = n := List.length_replicate

lemma zeros_add (m n : Nat) : zeros (m + n) = zeros m ++ zeros n := List.replicate_add ..

def leBytes : Nat → Nat → Bytes
  | 0, _ => []
  | w + 1, n => UInt8.ofNat n :: leBytes w (n / 256)

def ofLeBytes : Bytes → Nat
  | [] => 0
  | b :: bs => b.toNat + 256 * ofLeBytes bs

def beBytes (w n : Nat) : Bytes := (leBytes w n).reverse

def ofBeBytes (bs : Bytes) : Nat := ofLeBytes bs.reverse

@[simp] lemma length_leBytes (w n : Nat) : (leBytes w n).length = w := by
  induction w generalizing n with
  | zero => rfl
  | succ w ih => simp [leBytes, ih]

@[simp] lemma length_beBytes (w n : Nat) : (beBytes w n).length = w := by simp [beBytes]

lemma leBytes_add (v w n : Nat) : leBytes (v + w) n = leBytes v n ++ leBytes w (n / 256 ^ v) := by
  induction v generalizing n with
  | zero => rw [Nat.zero_add, pow_zero, Nat.div_one, leBytes, List.nil_append]
  | succ v ih =>
    have hpow : 256 ^ (v + 1) = 256 * 256 ^ v := by ring
    rw [Nat.succ_add, leBytes, leBytes, ih, hpow, Nat.div_div_eq_div_mul, List.cons_append]

/-- The upper and the lower part of a number. -/
lemma beBytes_add (v w n : Nat) : beBytes (w + v) n = beBytes w (n / 256 ^ v) ++ beBytes v n := by
  rw [beBytes, Nat.add_comm, leBytes_add, List.reverse_append, beBytes, beBytes]

theorem ofLeBytes_leBytes (w n : Nat) : ofLeBytes (leBytes w n) = n % 256 ^ w := by
  induction w generalizing n with
  | zero => simp [leBytes, ofLeBytes, Nat.mod_one]
  | succ w ih =>
    have hpow : 256 ^ (w + 1) = 256 * 256 ^ w := by ring
    rw [leBytes, ofLeBytes, ih, UInt8.toNat_ofNat', hpow, Nat.mod_mul]

theorem ofBeBytes_beBytes (w n : Nat) : ofBeBytes (beBytes w n) = n % 256 ^ w := by
  rw [ofBeBytes, beBytes, List.reverse_reverse, ofLeBytes_leBytes]

lemma ofLeBytes_lt (bs : Bytes) : ofLeBytes bs < 256 ^ bs.length := by
  induction bs with
  | nil => exact Nat.one_pos
  | cons b bs ih =>
    have hb := b.toNat_lt
    have hpow : 256 ^ (bs.length + 1) = 256 * 256 ^ bs.length := by ring
    rw [ofLeBytes, List.length_cons, hpow]
    omega

lemma ofBeBytes_lt (bs : Bytes) : ofBeBytes bs < 256 ^ bs.length := by
  rw [ofBeBytes, ← List.length_reverse]
  exact ofLeBytes_lt bs.reverse

lemma leBytes_inj {w m n : Nat} (hm : m < 256 ^ w) (hn : n < 256 ^ w)
    (h : leBytes w m = leBytes w n) : m = n := by
  have h' := congrArg ofLeBytes h
  rwa [ofLeBytes_leBytes, ofLeBytes_leBytes, Nat.mod_eq_of_lt hm, Nat.mod_eq_of_lt hn] at h'

lemma beBytes_eq_map_shift (w n : Nat) :
    beBytes w n = (List.range w).reverse.map (fun i => UInt8.ofNat (n >>> (i * 8))) := by
  induction w generalizing n with
  | zero => rfl
  | succ w ih =>
    have hshift : ∀ i, (n / 256) >>> (i * 8) = n >>> ((i + 1) * 8) := by
      intro i
      rw [show (256 : Nat) = 2 ^ 8 from rfl, ← Nat.shiftRight_eq_div_pow, ← Nat.shiftRight_add]
      congr 1
      ring
    have ih' := ih (n / 256)
    rw [beBytes] at ih' ⊢
    rw [leBytes, List.reverse_cons, ih', List.range_succ_eq_map, List.reverse_cons]
    simp [hshift, Function.comp_def]

lemma length_le_flatMap {α : Type*} {f : α → Bytes} (h : ∀ a, 0 < (f a).length) (l : List α) :
    l.length ≤ (l.flatMap f).length := by
  induction l with
  | nil => exact le_rfl
  | cons a l ih =>
    have hpos := h a
    rw [List.flatMap_cons, List.length_append, List.length_cons]
    omega

def bitsOfByte (b : UInt8) : List Bool := (List.range 8).reverse.map (fun i => b.toNat.testBit i)

def bitsOf (bs : Bytes) : List Bool := bs.flatMap bitsOfByte

@[simp] lemma length_bitsOfByte (b : UInt8) : (bitsOfByte b).length = 8 := by simp [bitsOfByte]

@[simp] lemma bitsOf_nil : bitsOf [] = [] := rfl

lemma bitsOf_cons (b : UInt8) (bs : Bytes) : bitsOf (b :: bs) = bitsOfByte b ++ bitsOf bs := rfl

lemma bitsOf_append (bs cs : Bytes) : bitsOf (bs ++ cs) = bitsOf bs ++ bitsOf cs := by
  simp [bitsOf]

@[simp] lemma length_bitsOf (bs : Bytes) : (bitsOf bs).length = 8 * bs.length := by
  induction bs with
  | nil => rfl
  | cons b bs ih =>
    rw [bitsOf_cons, List.length_append, ih, length_bitsOfByte, List.length_cons]
    ring

lemma bitsOf_zeros (n : Nat) : bitsOf (zeros n) = List.replicate (8 * n) false := by
  induction n with
  | zero => rfl
  | succ n ih =>
    rw [Nat.add_comm, zeros_add, bitsOf_append, ih, Nat.mul_add, List.replicate_add]
    rfl

/-- Bit `8 * q + r` of a byte string is bit `7 - r` of its byte `q`. -/
lemma bitsOf_getD (bs : Bytes) (q r : Nat) (hr : r < 8) (hq : q < bs.length) :
    (bitsOf bs).getD (8 * q + r) false = (bs.getD q 0).toNat.testBit (7 - r) := by
  induction bs generalizing q with
  | nil => simp at hq
  | cons b bs ih =>
    rw [bitsOf_cons]
    cases q with
    | zero =>
      rw [List.getD_append _ _ _ _ (by simpa using hr)]
      simp [bitsOfByte, hr, List.getD_eq_getElem?_getD]
    | succ q =>
      rw [List.getD_append_right _ _ _ _ (by simp; omega), length_bitsOfByte]
      have hidx : 8 * (q + 1) + r - 8 = 8 * q + r := by omega
      rw [hidx, ih q (by simpa using hq), List.getD_cons_succ]

/-- The bits of a big-endian integer are its binary digits, most significant digit first. -/
theorem bitsOf_beBytes (w n : Nat) :
    bitsOf (beBytes w n) = (List.range (8 * w)).reverse.map (fun i => n.testBit i) := by
  induction w generalizing n with
  | zero => rfl
  | succ w ih =>
    have hhigh : ∀ i, (n / 256).testBit i = n.testBit (i + 8) := by
      intro i
      rw [show (256 : Nat) = 2 ^ 8 from rfl, ← Nat.shiftRight_eq_div_pow, Nat.testBit_shiftRight,
        Nat.add_comm]
    have hlow : bitsOfByte (UInt8.ofNat n) = (List.range 8).reverse.map (fun i => n.testBit i) := by
      unfold bitsOfByte
      apply List.map_congr_left
      intro i hi
      have hi8 : i < 8 := by simpa using hi
      rw [UInt8.toNat_ofNat', Nat.testBit_mod_two_pow, decide_eq_true hi8, Bool.true_and]
    have ih' := ih (n / 256)
    rw [beBytes] at ih' ⊢
    rw [leBytes, List.reverse_cons, bitsOf_append, ih', bitsOf_cons, bitsOf_nil, List.append_nil,
      hlow, show 8 * (w + 1) = 8 + 8 * w by ring, List.range_add, List.reverse_append,
      List.map_append, ← List.map_reverse, List.map_map]
    congr 1
    apply List.map_congr_left
    intro i _
    simp [hhigh, Nat.add_comm]

lemma forall_mem_of_all {p : UInt8 → Prop} [DecidablePred p] {l : Bytes} (h : l.all (fun b => decide (p b)) = true) :
    ∀ b ∈ l, p b :=
  fun b hb => of_decide_eq_true (List.all_eq_true.1 h b hb)

end CppExperiments

import CppExperiments.Lib.Text
import Mathlib.Data.List.DropRight

/-!
# Big integers

Limbs in base 10000, lowest first, and a sign. The arithmetic on limbs checks that every intermediate
value fits its type and that every index is inside its vector.
-/

namespace CppExperiments.BI

def BASE : Nat := 10000

abbrev Limbs := List Nat

inductive Fault where
  | overflow
  | outOfRange
  | uninitialized
  | runtime_error (what : Bytes)

/-- Zeros at the top are dropped. -/
def clean (data : Limbs) : Limbs := data.rdropWhile (· = 0)

/-- The loop of `absCompare`, from the top limb down. -/
def absCompareLoop : Limbs → Limbs → Int
  | x :: d1, y :: d2 =>
    if absCompareLoop d1 d2 = 0 then if x < y then -1 else if x > y then 1 else 0 else absCompareLoop d1 d2
  | _, _ => 0

def absCompare (d1 d2 : Limbs) : Int :=
  if d1.length < d2.length then -1 else if d1.length > d2.length then 1 else absCompareLoop d1 d2

/-- The sum and its two parts fit `int` and `unsigned short`. -/
def Fits (n : Nat) : Prop := n < 2 ^ 31 ∧ n % BASE < 2 ^ 16 ∧ n / BASE < 2 ^ 16

instance (n : Nat) : Decidable (Fits n) := by
  unfold Fits
  infer_instance

def add (d1 d2 : Limbs) (carry : Nat) : Except Fault Limbs :=
  if _hdone : d1.length = 0 ∧ d2.length = 0 ∧ carry = 0 then .ok []
  else
    let sum := d1.headD 0 + d2.headD 0 + carry
    if Fits sum then do
      let rest ← add d1.tail d2.tail (sum / BASE)
      return sum % BASE :: rest
    else .error .overflow
  termination_by (d1.length + d2.length, carry)
  decreasing_by
    cases d1 with
    | cons x d1 => exact Prod.Lex.left _ _ (by simp; omega)
    | nil =>
      cases d2 with
      | cons y d2 => exact Prod.Lex.left _ _ (by simp)
      | nil =>
        refine Prod.Lex.right _ ?_
        have hcarry : 0 < carry := by
          have : carry ≠ 0 := by simpa using _hdone
          omega
        simpa [sum] using Nat.div_lt_self hcarry (by decide : 1 < BASE)

/-- The loop of `sub`; what remains of a longer second operand is not looked at. -/
def subLoop : Limbs → Limbs → Int → Except Fault Limbs
  | [], _, _ => .ok []
  | left :: d1, d2, carry =>
    let diff : Int := left - d2.headD 0 - carry
    let limb := if diff ≥ 0 then diff else diff + BASE
    if -2 ^ 31 ≤ diff ∧ diff < 2 ^ 31 ∧ 0 ≤ limb ∧ limb < 2 ^ 16 then do
      let rest ← subLoop d1 d2.tail (if diff ≥ 0 then 0 else 1)
      return limb.toNat :: rest
    else .error .overflow

def sub (d1 d2 : Limbs) : Except Fault Limbs := do
  let tempData ← subLoop d1 d2 0
  return clean tempData

/-- The inner loop of `multiply`; `tempData` is the vector from index `i + j` on. -/
def multiplyRow (factor : Nat) (d2 : Limbs) (carry : Nat) (tempData : Limbs) : Except Fault Limbs :=
  if d2.length = 0 ∧ carry = 0 then .ok tempData
  else
    match tempData with
    | [] => .error .outOfRange
    | limb :: tempData =>
      let prod := limb + factor * d2.headD 0 + carry
      if Fits prod then do
        let rest ← multiplyRow factor d2.tail (prod / BASE) tempData
        return prod % BASE :: rest
      else .error .overflow

/-- The outer loop of `multiply`; `tempData` is the vector from index `i` on. -/
def multiplyRows (d2 : Limbs) : Limbs → Limbs → Except Fault Limbs
  | [], tempData => .ok tempData
  | factor :: d1, tempData => do
    let tempData ← multiplyRow factor d2 0 tempData
    let rest ← multiplyRows d2 d1 tempData.tail
    return tempData.take 1 ++ rest

/-- The zeros at the top are removed twice. -/
def multiply (d1 d2 : Limbs) : Except Fault Limbs := do
  let tempData ← multiplyRows d2 d1 (List.replicate (d1.length + d2.length) 0)
  return clean (clean tempData)

/-- The binary search for a limb of the quotient, with the best one so far and its product. -/
def search (d2 remainder : Limbs) (low high : Nat) (best : Option (Nat × Limbs)) :
    Except Fault (Option (Nat × Limbs)) :=
  if low ≤ high then
    let mid := (low + high) / 2
    match multiply d2 [mid] with
    | .error fault => .error fault
    | .ok temp =>
      if absCompare temp remainder ≤ 0 then search d2 remainder (mid + 1) high (some (mid, temp))
      else if mid = 0 then .error .overflow
      else search d2 remainder low (mid - 1) best
  else .ok best
  termination_by high + 1 - low

/-- The loop of `div`, over the limbs from the top down: the quotient and the remainder so far. -/
def divLoop (d2 : Limbs) : Limbs → Except Fault (Limbs × Limbs)
  | [] => .ok ([], [])
  | limb :: higher => do
    let (quotient, remainder) ← divLoop d2 higher
    let remainder := limb :: remainder
    if absCompare remainder d2 = -1 then return (0 :: quotient, remainder)
    else
      match ← search d2 remainder 0 9999 none with
      | none => .error .uninitialized
      | some (quot, prod) => do
        let remainder ← sub remainder prod
        return (quot :: quotient, remainder)

def divisionByZero : Fault := .runtime_error (ascii "Division by zero.")

def div (d1 d2 : Limbs) : Except Fault (Limbs × Limbs) :=
  if d2.length = 0 then .error divisionByZero
  else do
    let (quotient, remainder) ← divLoop d2 d1
    return (clean quotient, clean remainder)

structure BigInt where
  data : Limbs
  negative : Bool
  deriving DecidableEq

/-- The integral types for which the constructor compiles, by size and sign: `std::abs` has to take them. -/
inductive IntegralType where
  | signedChar
  | short
  | int
  | long
  | unsignedChar
  | unsignedShort
  deriving DecidableEq

namespace IntegralType

def bits : IntegralType → Nat
  | signedChar | unsignedChar => 8
  | short | unsignedShort => 16
  | int => 32
  | long => 64

def signed : IntegralType → Bool
  | unsignedChar | unsignedShort => false
  | _ => true

def least (t : IntegralType) : Int := if t.signed then -2 ^ (t.bits - 1) else 0

def greatest (t : IntegralType) : Int := if t.signed then 2 ^ (t.bits - 1) - 1 else 2 ^ t.bits - 1

/-- The conversion from a wider type. -/
def convert (t : IntegralType) (num : Int) : Int :=
  if t.signed then num.bmod (2 ^ t.bits) else num % 2 ^ t.bits

/-- The numbers of the type. -/
def Value (t : IntegralType) : Type := { num : Int // t.least ≤ num ∧ num ≤ t.greatest }

end IntegralType

/-- The loop of the constructor from an integer; a limb is cut to 16 bits. -/
def integralLoop (num : Int) : Limbs :=
  if num = 0 then [] else (num.tmod BASE % 2 ^ 16).toNat :: integralLoop (num.tdiv BASE)
  termination_by num.natAbs
  decreasing_by
    rw [Int.natAbs_tdiv]
    exact Nat.div_lt_self (Int.natAbs_pos.2 (by assumption)) (by decide)

/-- The loop of the constructor from a string, from the right: the piece and the power of ten so far, and the limbs
before it. -/
def stringLoop (str : Bytes) : Bytes → Except Fault (Nat × Nat × Limbs)
  | [] => .ok (0, 1, [])
  | ch :: rest => do
    let (acc, pow, data) ← stringLoop str rest
    if isDigit ch then
      let acc := (acc + pow * (ch.toNat - 48)) % 2 ^ 16
      let pow := pow * 10 % 2 ^ 16
      return if pow = BASE then (0, 1, data ++ [acc]) else (acc, pow, data)
    else .error (.runtime_error (ascii "Not a valid Big Int: " ++ str))

def compare (num1 num2 : BigInt) : Int :=
  if num1.negative ≠ num2.negative then if num1.negative then -1 else 1
  else
    let result := absCompare num1.data num2.data
    if result = 0 ∨ num1.negative = false then result else if result = -1 then 1 else -1

namespace BigInt

def empty (x : BigInt) : Bool := x.data.all (fun num => decide (¬ num > 0))

/-- The number zero. -/
def zero : BigInt := ⟨[], false⟩

/-- The absolute value of `int` and `long` is computed in the type itself, that of narrower types in `int`. -/
def ofIntegral (t : IntegralType) (num : t.Value) : Except Fault BigInt :=
  if 32 ≤ t.bits ∧ num.1 = t.least then .error .overflow
  else .ok ⟨integralLoop (t.convert |num.1|), decide (num.1 < 0)⟩

/-- The text after the sign. -/
def unsigned (str : Bytes) : Bytes := if str.head? = some 45 ∨ str.head? = some 43 then str.tail else str

def ofString (str : Bytes) : Except Fault BigInt := do
  let (acc, _, data) ← stringLoop (unsigned str) (unsigned str)
  return ⟨if acc = 0 then data else data ++ [acc], decide (str.head? = some 45)⟩

def opNeg (x : BigInt) : BigInt := ⟨x.data, !x.negative⟩

def opPos (x : BigInt) : BigInt := ⟨x.data, x.negative⟩

def opGt (x y : BigInt) : Bool := decide (compare x y = 1)
def opGe (x y : BigInt) : Bool := decide (compare x y ≥ 0)
def opEq (x y : BigInt) : Bool := decide (compare x y = 0)
def opLe (x y : BigInt) : Bool := decide (compare x y ≤ 0)
def opLt (x y : BigInt) : Bool := decide (compare x y = -1)

def opAdd (x y : BigInt) : Except Fault BigInt :=
  if x.negative = y.negative then do
    let data ← add x.data y.data 0
    return ⟨data, x.negative⟩
  else
    let cmp := absCompare x.data y.data
    if cmp = 0 then .ok zero
    else do
      let data ← sub (if cmp = 1 then x.data else y.data) (if cmp = 1 then y.data else x.data)
      return ⟨data, if cmp = 1 then x.negative else y.negative⟩

def opSub (x y : BigInt) : Except Fault BigInt :=
  if x.negative ≠ y.negative then do
    let data ← add x.data y.data 0
    return ⟨data, x.negative⟩
  else
    let cmp := absCompare x.data y.data
    if cmp = 0 then .ok zero
    else do
      let data ← sub (if cmp = 1 then x.data else y.data) (if cmp = 1 then y.data else x.data)
      return ⟨data, if cmp = 1 then x.negative else !y.negative⟩

def opMul (x y : BigInt) : Except Fault BigInt := do
  let data ← multiply x.data y.data
  return ⟨data, x.negative ^^ y.negative⟩

def opDiv (x y : BigInt) : Except Fault BigInt :=
  let cmp := absCompare x.data y.data
  let resNeg := x.negative ^^ y.negative
  if y.empty then .error divisionByZero
  else if cmp = 0 then .ok ⟨[1], resNeg⟩
  else if cmp = -1 then .ok zero
  else do
    let (quotient, _) ← div x.data y.data
    return ⟨quotient, resNeg⟩

def opMod (x y : BigInt) : Except Fault BigInt :=
  let cmp := absCompare x.data y.data
  if y.empty then .error divisionByZero
  else if cmp = 0 then .ok zero
  else if cmp = -1 then .ok ⟨x.data, x.negative⟩
  else do
    let (_, remainder) ← div x.data y.data
    return ⟨remainder, x.negative⟩

end BigInt

end CppExperiments.BI

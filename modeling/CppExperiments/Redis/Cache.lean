import CppExperiments.Lib.Expiring
import CppExperiments.Lib.Text
import Mathlib.Data.List.AList

/-!
# Redis nodes

The values the server stores and the replies it writes, in the wire format.
-/

namespace CppExperiments.Redis

def SEP : Bytes := crlf

/-- `VARIANT_NODE_TYPE`. -/
inductive VariantValue where
  | long (n : Int)
  | str (s : Bytes)
  | null
  deriving DecidableEq

/-- `serialized` is the text the node was read from, empty for a node built by a handler. -/
structure VariantRedisNode where
  value : VariantValue
  serialized : Bytes := []
  deriving DecidableEq

inductive RedisNode where
  | plain (message : Bytes) (isNotError : Bool)
  | variant (node : VariantRedisNode)
  | aggregate (values : List VariantRedisNode)
  deriving DecidableEq

namespace VariantRedisNode

def str (n : VariantRedisNode) : Bytes :=
  match n.value with
  | .long z => decimalInt z
  | .str s => s
  | .null => ascii "nil"

/-- The text is cached in `serialized`; as the value does not change afterwards, the model renders it anew. -/
def serialize (n : VariantRedisNode) : Bytes :=
  if n.serialized = [] then
    match n.value with
    | .long z => ascii ":" ++ decimalInt z ++ SEP
    | .str s => ascii "$" ++ decimal s.length ++ SEP ++ s ++ SEP
    | .null => ascii "$-1" ++ SEP
  else n.serialized

end VariantRedisNode

def VariantRedisNode.ofLong (z : Int) : VariantRedisNode := ⟨.long z, []⟩

def VariantRedisNode.ofStr (s : Bytes) : VariantRedisNode := ⟨.str s, []⟩

def VariantRedisNode.nil : VariantRedisNode := ⟨.null, []⟩

def RedisNode.serialize : RedisNode → Bytes
  | plain message isNotError => (if isNotError then ascii "+" else ascii "-") ++ message ++ SEP
  | variant n => n.serialize
  | aggregate vs => ascii "*" ++ decimal vs.length ++ SEP ++ vs.flatMap VariantRedisNode.serialize

def ok : Bytes := (RedisNode.plain (ascii "OK") true).serialize

def error (message : String) : Bytes := (RedisNode.plain (ascii message) false).serialize

def integer (z : Int) : Bytes := (VariantRedisNode.ofLong z).serialize

def allDigitsUnsigned (bs : Bytes) : Bool := bs.all isDigit

def allDigitsSigned (bs : Bytes) : Bool :=
  match bs with
  | [] => false
  | b :: rest => allDigitsUnsigned rest && (b == 45 || isDigit b)

/-- `std::stol` on a text without blanks and plus sign in front; `none` where it throws. -/
def stol (bs : Bytes) : Option Int := (signedPrefix bs).filter (fun z => InLong z)

/-- `std::stoul` on a text without blanks and sign in front; `none` where it throws. -/
def stoul (bs : Bytes) : Option Nat := (digitPrefix bs).filter (fun n => n < 2 ^ 64)

/-- `std::from_chars` for a `long`; `none` where it reports an error. -/
def fromChars (bs : Bytes) : Option Int := (signedPrefix bs).filter (fun z => InLong z)

/-- The signed-digit test lets the integers through, and the lone minus sign. -/
theorem allDigitsSigned_iff (bs : Bytes) : allDigitsSigned bs = true ↔ (numeral bs).isSome ∨ bs = [45] := by
  cases bs with
  | nil => simp [allDigitsSigned, numeral]
  | cons b rest =>
    by_cases hb : b = 45
    · subst hb
      by_cases hr : rest = []
      · simp [allDigitsSigned, allDigitsUnsigned, hr]
      · by_cases hd : rest.all isDigit = true
        · simp [allDigitsSigned, allDigitsUnsigned, numeral, hr, hd]
        · simp [allDigitsSigned, allDigitsUnsigned, numeral, hr, hd]
    · simp [allDigitsSigned, allDigitsUnsigned, numeral, hb, Option.isSome_iff_exists, and_comm]

end CppExperiments.Redis

/-!
## The cache of the Redis server

Values and expiries live in two maps. An expiry is looked at lazily, against a clock that is read
anew at every look; `tick` counts these readings, so that the readings of a whole run form
one sequence.
-/

namespace CppExperiments.Redis

open CppExperiments.Expiring

/-- How a command can fail to complete. -/
inductive Fault where
  | nullPointer
  | invalidArgument
  | outOfRange
  | overflow
  deriving DecidableEq

/-- What the handlers depend on besides their arguments: the readings of the clock, and for LRANGE, whose
second number is parsed up to an address computed from the first, the offset in the second number at which
that address falls, if it does. -/
structure Env where
  clock : Nat → Nat
  strayEnd : Bytes → Bytes → Option Nat
  mono : Monotone clock
  bound : ∀ i, clock i < 2 ^ 63

structure Cache where
  cache : AList (fun _ : Bytes => RedisNode)
  ttl : AList (fun _ : Bytes => Nat)
  tick : Nat

namespace Cache

def empty : Cache := ⟨∅, ∅, 0⟩

def existsKey (c : Cache) (key : Bytes) : Bool := (c.cache.lookup key).isSome

def timeSinceEpoch (env : Env) (c : Cache) : Nat × Cache := (env.clock c.tick, { c with tick := c.tick + 1 })

/-- The clock is read only where there is an expiry to compare it with. -/
def expired (env : Env) (c : Cache) (key : Bytes) : Bool × Cache :=
  match c.ttl.lookup key with
  | none => (false, c)
  | some e => (decide (e < (c.timeSinceEpoch env).1), (c.timeSinceEpoch env).2)

def erase (c : Cache) (key : Bytes) : Cache := { c with cache := c.cache.erase key, ttl := c.ttl.erase key }

def getValue (env : Env) (c : Cache) (key : Bytes) : Option RedisNode × Cache :=
  let (dead, c) := c.expired env key
  let c := if dead then c.erase key else c
  (c.cache.lookup key, c)

def setValue (c : Cache) (key : Bytes) (value : RedisNode) : Cache :=
  { c with cache := c.cache.insert key value }

/-- A 64-bit word read as a `long`. -/
def toLong (n : Nat) : Int := if n < 2 ^ 63 then n else n - 2 ^ 64

def getTTL (env : Env) (c : Cache) (key : Bytes) : Except Fault (Int × Cache) :=
  if c.existsKey key = false then .ok (-2, c)
  else
    let (dead, c) := c.expired env key
    if dead then .ok (-2, c)
    else
      match c.ttl.lookup key with
      | none => .ok (-1, c)
      | some e =>
        let (now, c) := c.timeSinceEpoch env
        if InLong (toLong e - toLong now) then .ok (toLong e - toLong now, c) else .error .overflow

def setTTLMSAt (c : Cache) (key : Bytes) (millisAt : Nat) : Cache := { c with ttl := c.ttl.insert key millisAt }

def setTTLSAt (c : Cache) (key : Bytes) (secondsAt : Nat) : Cache :=
  { c with ttl := c.ttl.insert key (secondsAt * 1000 % 2 ^ 64) }

def setTTLMS (env : Env) (c : Cache) (key : Bytes) (millis : Nat) : Cache :=
  let (now, c) := c.timeSinceEpoch env
  { c with ttl := c.ttl.insert key ((now + millis) % 2 ^ 64) }

def setTTLS (env : Env) (c : Cache) (key : Bytes) (seconds : Nat) : Cache :=
  let (now, c) := c.timeSinceEpoch env
  { c with ttl := c.ttl.insert key ((now + seconds * 1000 % 2 ^ 64) % 2 ^ 64) }

/-- The two maps as one: the value of a key, with its expiry. -/
def view (c : Cache) : Bytes → Option (Entry RedisNode Nat) :=
  fun k => (c.cache.lookup k).map (fun n => (n, c.ttl.lookup k))

/-- Every expiry belongs to a value. -/
def Tidy (c : Cache) : Prop := ∀ k, (c.cache.lookup k) = none → c.ttl.lookup k = none

/-- The expiry of the key lies before the next reading of the clock. -/
def Stale (env : Env) (c : Cache) (key : Bytes) : Prop := Past (env.clock c.tick) (c.ttl.lookup key)

instance (env : Env) (c : Cache) (key : Bytes) : Decidable (c.Stale env key) := by
  unfold Stale
  infer_instance

/-- The cache after `n` looks at the expiry of a key. -/
def checks (c : Cache) (key : Bytes) (n : Nat) : Cache :=
  { c with tick := c.tick + if (c.ttl.lookup key).isSome then n else 0 }

/-- The verdict on the expiry of the key does not change over the next `n` readings after the first. -/
def Steady (env : Env) (c : Cache) (key : Bytes) (n : Nat) : Prop :=
  ∀ e, c.ttl.lookup key = some e → e < env.clock c.tick ∨ env.clock (c.tick + n) ≤ e

variable {env : Env} {c : Cache} {k : Bytes} {n i : Nat}

@[simp] lemma cache_checks : (c.checks k n).cache = c.cache := rfl

@[simp] lemma ttl_checks : (c.checks k n).ttl = c.ttl := rfl

@[simp] lemma view_checks : (c.checks k n).view = c.view := rfl

@[simp] lemma checks_zero : c.checks k 0 = c := by simp [checks]

lemma checks_checks (i n : Nat) : (c.checks k i).checks k n = c.checks k (i + n) := by
  unfold checks
  cases c.ttl.lookup k with
  | none => simp
  | some e => simp [Nat.add_assoc]

lemma checks_of_none (h : c.ttl.lookup k = none) (n : Nat) : c.checks k n = c := by simp [checks, h]

lemma tick_checks {e : Nat} (h : c.ttl.lookup k = some e) (n : Nat) : (c.checks k n).tick = c.tick + n := by
  simp [checks, h]

lemma expired_eq (env : Env) (c : Cache) (k : Bytes) :
    c.expired env k = (decide (c.Stale env k), c.checks k 1) := by
  rcases Option.eq_none_or_eq_some (c.ttl.lookup k) with h | ⟨e, h⟩
  · simp [expired, Stale, checks, h, Past]
  · simp only [expired, Stale, checks, timeSinceEpoch, h, Past, Option.isSome_some, if_true]
    exact Prod.ext (decide_eq_decide.2 Iff.rfl) rfl

lemma getValue_of_stale (h : c.Stale env k) : c.getValue env k = (none, (c.checks k 1).erase k) := by
  simp [getValue, expired_eq, h, erase]

lemma getValue_of_not_stale (h : ¬ c.Stale env k) :
    c.getValue env k = (c.cache.lookup k, c.checks k 1) := by
  simp [getValue, expired_eq, h]

/-- Within a steady span every look at the expiry gives the verdict of the first. -/
lemma stale_checks_iff (h : c.Steady env k n) (hi : i ≤ n) :
    (c.checks k i).Stale env k ↔ c.Stale env k := by
  unfold Stale
  rw [ttl_checks]
  cases he : c.ttl.lookup k with
  | none => rfl
  | some e =>
    rw [tick_checks he]
    have hle : env.clock c.tick ≤ env.clock (c.tick + i) := env.mono (Nat.le_add_right _ _)
    have hle' : env.clock (c.tick + i) ≤ env.clock (c.tick + n) := env.mono (Nat.add_le_add_left hi _)
    change e < _ ↔ e < _
    rcases h e he with h1 | h2
    · exact ⟨fun _ => h1, fun _ => lt_of_lt_of_le h1 hle⟩
    · constructor
      · intro h1
        exact absurd h1 (not_lt.2 (hle'.trans h2))
      · intro h1
        exact lt_of_lt_of_le h1 hle

lemma setTTLS_eq (h : env.clock c.tick + n * 1000 < 2 ^ 64) :
    c.setTTLS env k n = ({ c with tick := c.tick + 1 } : Cache).setTTLMSAt k (env.clock c.tick + n * 1000) := by
  have hn : n * 1000 < 2 ^ 64 := by omega
  rw [setTTLS, setTTLMSAt, timeSinceEpoch]
  simp only [Nat.mod_eq_of_lt hn, Nat.mod_eq_of_lt h]

lemma setTTLMS_eq (h : env.clock c.tick + n < 2 ^ 64) :
    c.setTTLMS env k n = ({ c with tick := c.tick + 1 } : Cache).setTTLMSAt k (env.clock c.tick + n) := by
  rw [setTTLMS, setTTLMSAt, timeSinceEpoch]
  simp only [Nat.mod_eq_of_lt h]

lemma setTTLSAt_eq (h : n * 1000 < 2 ^ 64) : c.setTTLSAt k n = c.setTTLMSAt k (n * 1000) := by
  rw [setTTLSAt, setTTLMSAt, Nat.mod_eq_of_lt h]

lemma Tidy.ttl_none (h : c.Tidy) (hk : c.cache.lookup k = none) : c.ttl.lookup k = none := h k hk

lemma Tidy.checks (h : c.Tidy) : (c.checks k n).Tidy := h

lemma Tidy.setValue (h : c.Tidy) (v : RedisNode) : (c.setValue k v).Tidy := by
  intro k' hk'
  by_cases hkk : k' = k
  · subst hkk
    simp [Cache.setValue] at hk'
  · exact h k' (by simpa [Cache.setValue, AList.lookup_insert_ne hkk] using hk')

lemma Tidy.erase (h : c.Tidy) : (c.erase k).Tidy := by
  intro k' hk'
  by_cases hkk : k' = k
  · subst hkk
    simp [Cache.erase]
  · rw [Cache.erase, AList.lookup_erase_ne hkk] at hk'
    rw [Cache.erase, AList.lookup_erase_ne hkk]
    exact h k' hk'

lemma Tidy.setTTLMSAt (h : c.Tidy) (hk : (c.cache.lookup k).isSome) (e : Nat) : (c.setTTLMSAt k e).Tidy := by
  intro k' hk'
  by_cases hkk : k' = k
  · subst hkk
    rw [Cache.setTTLMSAt] at hk'
    simp [hk'] at hk
  · rw [Cache.setTTLMSAt, AList.lookup_insert_ne hkk]
    exact h k' hk'

lemma view_setValue (v : RedisNode) :
    (c.setValue k v).view = Function.update c.view k (some (v, c.ttl.lookup k)) := by
  funext k'
  by_cases hkk : k' = k
  · subst hkk
    simp [view, setValue]
  · simp [view, setValue, AList.lookup_insert_ne hkk, hkk]

lemma view_erase : (c.erase k).view = Function.update c.view k none := by
  funext k'
  by_cases hkk : k' = k
  · subst hkk
    simp [view, erase]
  · simp [view, erase, AList.lookup_erase_ne hkk, hkk]

lemma view_setTTLMSAt {v : RedisNode} (h : c.cache.lookup k = some v) (e : Nat) :
    (c.setTTLMSAt k e).view = Function.update c.view k (some (v, some e)) := by
  funext k'
  by_cases hkk : k' = k
  · subst hkk
    simp [view, setTTLMSAt, h]
  · simp [view, setTTLMSAt, AList.lookup_insert_ne hkk, hkk]

lemma view_eq_none (h : c.cache.lookup k = none) : c.view k = none := by simp [view, h]

lemma view_eq_some {v : RedisNode} (h : c.cache.lookup k = some v) : c.view k = some (v, c.ttl.lookup k) := by
  simp [view, h]

end Cache

end CppExperiments.Redis

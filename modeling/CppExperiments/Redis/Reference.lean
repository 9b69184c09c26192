import CppExperiments.Redis.CommandHandler

/-!
# The reference map

What the commands mean on a single map from keys to values with an optional expiry, at an instant
`now`: an entry whose expiry lies before `now` counts as absent. SET stores the expiry of its own
option and no other; the commands that alter a live value in place (INCR, DECR, LPUSH, RPUSH)
leave its expiry alone.
-/

namespace CppExperiments.Redis

open CppExperiments.Expiring

abbrev RefEntry := Entry RedisNode Nat

abbrev RefMap := Bytes → Option RefEntry

/-- The expiry options of SET. -/
inductive Expiry where
  | ex (seconds : Nat)
  | px (millis : Nat)
  | exat (secondsAt : Nat)
  | pxat (millisAt : Nat)

def Expiry.read (code : Bytes) (n : Nat) : Option Expiry :=
  if code = ascii "ex" then some (.ex n)
  else if code = ascii "px" then some (.px n)
  else if code = ascii "exat" then some (.exat n)
  else if code = ascii "pxat" then some (.pxat n)
  else none

def Expiry.instant (now : Nat) : Expiry → Nat
  | ex seconds => now + seconds * 1000
  | px millis => now + millis
  | exat secondsAt => secondsAt * 1000
  | pxat millisAt => millisAt

/-- What a command does to the one key it names. -/
inductive Op where
  | set (value : Bytes) (expiry : Option Expiry)
  | get
  | add (increment : Int)
  | push (elements : List Bytes) (pushBack : Bool)
  | llen
  | lrange (left right : Bytes)
  | ttl

inductive Command where
  | on (key : Bytes) (op : Op)
  | exist (keys : List Bytes)
  | del (keys : List Bytes)

/-- The arguments of a command that are well formed, and what they say. -/
inductive Written : List Bytes → Command → Prop where
  | set {name : Bytes} (h : lower name = ascii "set") (key value : Bytes) :
      Written [name, key, value] (.on key (.set value none))
  | setExpiry {name code text : Bytes} {e : Expiry} (h : lower name = ascii "set") (key value : Bytes)
      (hd : text ≠ [] ∧ text.all isDigit) (he : Expiry.read (lower code) (digitsValue text) = some e) :
      Written [name, key, value, code, text] (.on key (.set value (some e)))
  | get {name : Bytes} (h : lower name = ascii "get") (key : Bytes) : Written [name, key] (.on key .get)
  | exist {name : Bytes} (h : lower name = ascii "exists") (keys : List Bytes) :
      Written (name :: keys) (.exist keys)
  | del {name : Bytes} (h : lower name = ascii "del") (keys : List Bytes) : Written (name :: keys) (.del keys)
  | incr {name : Bytes} (h : lower name = ascii "incr") (key : Bytes) :
      Written [name, key] (.on key (.add 1))
  | decr {name : Bytes} (h : lower name = ascii "decr") (key : Bytes) :
      Written [name, key] (.on key (.add (-1)))
  | lpush {name : Bytes} (h : lower name = ascii "lpush") (key first : Bytes) (rest : List Bytes) :
      Written (name :: key :: first :: rest) (.on key (.push (first :: rest) false))
  | rpush {name : Bytes} (h : lower name = ascii "rpush") (key first : Bytes) (rest : List Bytes) :
      Written (name :: key :: first :: rest) (.on key (.push (first :: rest) true))
  | llen {name : Bytes} (h : lower name = ascii "llen") (key : Bytes) : Written [name, key] (.on key .llen)
  | lrange {name left right : Bytes} (h : lower name = ascii "lrange") (key : Bytes)
      (hl : (numeral left).isSome) (hr : (numeral right).isSome) :
      Written [name, key, left, right] (.on key (.lrange left right))
  | ttl {name : Bytes} (h : lower name = ascii "ttl") (key : Bytes) : Written [name, key] (.on key .ttl)

/-- The arguments of a request together with the command they are well formed as. -/
structure Request where
  args : List Bytes
  command : Command
  written : Written args command

/-- The 64-bit integer that a text stands for. -/
def integerOf (text : Bytes) : Option Int := (numeral text).filter (fun z => InLong z)

def number (z : Int) : RedisNode := .variant (.ofStr (decimalInt z))

/-- The elements from one index through another, a negative index counting from the end. -/
def slice (values : List VariantRedisNode) (left right : Int) : List VariantRedisNode :=
  (values.take (lrangeIndex values.length right + 1).toNat).drop (lrangeIndex values.length left).toNat

/-- The reply of an operation to the live entry of its key, and the entry it writes, if it writes one. -/
def Op.effect (now : Nat) : Op → Option RefEntry → Bytes × Option RefEntry
  | set value expiry, _ => (ok, some (.variant (.ofStr value), expiry.map (Expiry.instant now)))
  | get, none => (VariantRedisNode.nil.serialize, none)
  | get, some (v, _) => (v.serialize, none)
  | add increment, none => ((number increment).serialize, some (number increment, none))
  | add increment, some (.variant node, e) =>
    match integerOf node.str with
    | none => (error "value is not an integer or out of range", none)
    | some z =>
      if InLong (z + increment) then ((number (z + increment)).serialize, some (number (z + increment), e))
      else (error "value is not an integer or out of range", none)
  | add _, some _ => (error "value is not an integer", none)
  | push elements pushBack, none =>
    (integer elements.length, some (.aggregate (pushAll pushBack [] elements), none))
  | push elements pushBack, some (.aggregate vs, e) =>
    (integer elements.length, some (.aggregate (pushAll pushBack vs elements), e))
  | push _ _, some _ => (wrongType, none)
  | llen, none => (integer 0, none)
  | llen, some (.aggregate vs, _) => (integer vs.length, none)
  | llen, some _ => (wrongType, none)
  | lrange left right, p =>
    match integerOf left, integerOf right with
    | some l, some r =>
      match p with
      | none => ((RedisNode.aggregate []).serialize, none)
      | some (.aggregate vs, _) => ((RedisNode.aggregate (slice vs l r)).serialize, none)
      | some _ => (wrongType, none)
    | _, _ => (error "Value is not an integer or out of range", none)
  | ttl, none => (integer (-2), none)
  | ttl, some (_, none) => (integer (-1), none)
  | ttl, some (_, some e) => (integer ((e - now) / 1000 : Nat), none)

/-- The number of live keys among those erased, and the map that is left. -/
def delEach (now : Nat) : List Bytes → RefMap → Nat × RefMap
  | [], m => (0, m)
  | key :: rest, m =>
    let (result, m') := delEach now rest (Function.update m key none)
    (result + (live now m key).isSome.toNat, m')

def Command.exec (now : Nat) : Command → RefMap → Bytes × RefMap
  | on key op, m =>
    match op.effect now (live now m key) with
    | (reply, none) => (reply, m)
    | (reply, some p) => (reply, Function.update m key (some p))
  | exist keys, m => (integer (keys.countP (fun key => (live now m key).isSome)), m)
  | del keys, m => (integer (delEach now keys m).1, (delEach now keys m).2)

variable {now : Nat} {m m' : RefMap}

lemma Alike.delEach (keys : List Bytes) (h : Alike now m m') :
    (delEach now keys m).1 = (delEach now keys m').1 ∧ Alike now (delEach now keys m).2 (delEach now keys m').2 := by
  induction keys generalizing m m' with
  | nil => exact ⟨rfl, h⟩
  | cons key rest ih =>
    obtain ⟨h1, h2⟩ := ih (h.update key none)
    refine ⟨?_, h2⟩
    change (Redis.delEach now rest _).1 + _ = (Redis.delEach now rest _).1 + _
    rw [h1, h key]

/-- An expired entry cannot be told from an absent one: no reply and no live entry depends on it. -/
theorem Alike.exec (cmd : Command) (h : Alike now m m') :
    (cmd.exec now m).1 = (cmd.exec now m').1 ∧ Alike now (cmd.exec now m).2 (cmd.exec now m').2 := by
  cases cmd with
  | on key op =>
    simp only [Command.exec, h key]
    rcases op.effect now (live now m' key) with ⟨reply, _ | p⟩
    · exact ⟨rfl, h⟩
    · exact ⟨rfl, h.update key (some p)⟩
  | exist keys =>
    refine ⟨?_, h⟩
    change integer _ = integer _
    simp only [h _]
  | del keys =>
    obtain ⟨h1, h2⟩ := Alike.delEach keys h
    refine ⟨?_, h2⟩
    change integer _ = integer _
    rw [h1]

/-- The keys that a command may write. -/
def Command.writes : Command → List Bytes
  | on key (.set _ _) | on key (.add _) | on key (.push _ _) => [key]
  | on _ _ | exist _ => []
  | del keys => keys

lemma delEach_frame {key : Bytes} {keys : List Bytes} (h : key ∉ keys) (m : RefMap) :
    (delEach now keys m).2 key = m key := by
  induction keys generalizing m with
  | nil => rfl
  | cons k rest ih =>
    rw [List.mem_cons, not_or] at h
    change (delEach now rest _).2 key = m key
    rw [ih h.2, Function.update_of_ne h.1]

/-- What a write leaves under a key stays there until the next command that writes the key. -/
theorem Command.exec_frame (cmd : Command) {key : Bytes} (h : key ∉ cmd.writes) (m : RefMap) :
    (cmd.exec now m).2 key = m key := by
  cases cmd with
  | exist keys => rfl
  | del keys => exact delEach_frame h m
  | on k op =>
    have hread : ∀ p : Option RefEntry, key ≠ k ∨ (op.effect now p).2 = none := by
      intro p
      cases op with
      | set | add | push => exact Or.inl (by simpa [writes] using h)
      | get | llen | ttl => rcases p with _ | ⟨_ | _ | _, _ | _⟩ <;> exact Or.inr rfl
      | lrange left right =>
        right
        simp only [Op.effect]
        rcases integerOf left with _ | l
        · rfl
        · rcases integerOf right with _ | r
          · rfl
          · rcases p with _ | ⟨_ | _ | _, _⟩ <;> rfl
    have hk := hread (live now m k)
    simp only [Command.exec]
    generalize op.effect now (live now m k) = r at hk ⊢
    rcases r with ⟨reply, _ | p⟩
    · rfl
    · rcases hk with hne | hnone
      · exact Function.update_of_ne hne _ _
      · cases hnone

end CppExperiments.Redis

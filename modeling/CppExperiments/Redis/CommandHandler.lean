import CppExperiments.Redis.Cache

/-!
# The command handlers

Each handler takes the arguments, the command name first, and the cache, and returns the serialized
reply and the cache it leaves, or the fault that ends it. SAVE, BGSAVE and KEYS, which work on files and
regular expressions, are left out.
-/

namespace CppExperiments.Redis

abbrev Outcome := Except Fault (Bytes × Cache)

def handleCommandPing (args : List Bytes) (c : Cache) : Outcome :=
  match args with
  | [_] => .ok ((RedisNode.plain (ascii "PONG") true).serialize, c)
  | [_, text] => .ok ((VariantRedisNode.ofStr text).serialize, c)
  | _ => .ok (error "Wrong number of arguments for 'ping' command", c)

def handleCommandEcho (args : List Bytes) (c : Cache) : Outcome :=
  match args with
  | [_, text] => .ok ((VariantRedisNode.ofStr text).serialize, c)
  | _ => .ok (error "Wrong number of arguments for 'echo' command", c)

/-- The loop over the options of SET: it skips what is no option and stops at the first that is one. -/
def setOptions (env : Env) (key : Bytes) : List Bytes → Cache → Outcome
  | code :: expiry :: rest, c =>
    let expiryCode := lower code
    if ¬ (expiryCode = ascii "ex" ∨ expiryCode = ascii "exat" ∨ expiryCode = ascii "px" ∨ expiryCode = ascii "pxat") then
      setOptions env key (expiry :: rest) c
    else if allDigitsUnsigned expiry = false then .ok (error "Invalid syntax", c)
    else
      match stoul expiry with
      | none => .error .invalidArgument
      | some n =>
        if expiryCode = ascii "ex" then .ok (ok, c.setTTLS env key n)
        else if expiryCode = ascii "px" then .ok (ok, c.setTTLMS env key n)
        else if expiryCode = ascii "exat" then .ok (ok, c.setTTLSAt key n)
        else .ok (ok, c.setTTLMSAt key n)
  | _, c => .ok (ok, c)

def handleCommandSet (env : Env) (args : List Bytes) (c : Cache) : Outcome :=
  match args with
  | _ :: key :: value :: options =>
    setOptions env key options (c.setValue key (.variant (.ofStr value)))
  | _ => .ok (error "Wrong number of arguments for 'set' command", c)

def handleCommandGet (env : Env) (args : List Bytes) (c : Cache) : Outcome :=
  match args with
  | [_, key] =>
    match c.getValue env key with
    | (some value, c) => .ok (value.serialize, c)
    | (none, c) => .ok (VariantRedisNode.nil.serialize, c)
  | _ => .ok (error "Wrong number of arguments for 'get' command", c)

def handleCommandExists (args : List Bytes) (c : Cache) : Outcome :=
  .ok (integer ((args.drop 1).countP (fun arg => c.existsKey arg)), c)

/-- The loop of DEL: the number of live keys among those it erases. -/
def delKeys (env : Env) : List Bytes → Cache → Nat × Cache
  | [], c => (0, c)
  | arg :: rest, c =>
    if c.existsKey arg then
      let (dead, c) := c.expired env arg
      let (result, c) := delKeys env rest (c.erase arg)
      (result + (!dead).toNat, c)
    else delKeys env rest c

def handleCommandDel (env : Env) (args : List Bytes) (c : Cache) : Outcome :=
  let (result, c) := delKeys env (args.drop 1) c
  .ok (integer result, c)

/-- The value of a key, through the pointer that `getValue` returns. -/
def deref (env : Env) (key : Bytes) (c : Cache) : Except Fault (RedisNode × Cache) :=
  match c.getValue env key with
  | (some value, c) => .ok (value, c)
  | (none, _) => .error .nullPointer

/-- INCR and DECR write the new number and reply with what they read back. -/
def writeNumber (env : Env) (key : Bytes) (z : Int) (c : Cache) : Outcome := do
  let (value, c) ← deref env key (c.setValue key (.variant (.ofStr (decimalInt z))))
  return (value.serialize, c)

def handleCommandLAdd (env : Env) (args : List Bytes) (increment : Int) (c : Cache) : Outcome :=
  match args with
  | [_, key] =>
    if c.existsKey key = false then writeNumber env key increment c
    else
      let (dead, c) := c.expired env key
      if dead then writeNumber env key increment c
      else do
        let (value, c) ← deref env key c
        match value with
        | .variant _ =>
          let (value, c) ← deref env key c
          match value with
          | .variant node =>
            if allDigitsSigned node.str then
              match stol node.str with
              | none => .error .outOfRange
              | some z => if InLong (z + increment) then writeNumber env key (z + increment) c else .error .overflow
            else return (error "value is not an integer or out of range", c)
          | _ => .error .nullPointer
        | _ => return (error "value is not an integer", c)
  | _ => .ok (error "Wrong number of arguments for 'incr' command", c)

def handleCommandTTL (env : Env) (args : List Bytes) (c : Cache) : Outcome :=
  match args with
  | [_, key] => do
    let (ttlVal, c) ← c.getTTL env key
    return (integer (if ttlVal > 0 then ttlVal.tdiv 1000 else ttlVal), c)
  | _ => .ok (error "Wrong number of arguments for 'ttl' command", c)

def wrongType : Bytes := error "WRONGTYPE Operation against a key holding the wrong kind of value"

/-- An index of LRANGE, counted from the end when it is negative. -/
def lrangeIndex (size : Nat) (i : Int) : Int := if i < 0 then size + i else i

def lrangeLeft (size : Nat) (left : Int) : Int := max (lrangeIndex size left) 0

def lrangeRight (size : Nat) (right : Int) : Int := min (lrangeIndex size right) (size - 1)

/-- The loop of LRANGE over `count` indices from `curr` on; an index past the end is undefined behaviour. -/
def lrangeLoop (values : List VariantRedisNode) : Nat → Nat → Except Fault Bytes
  | 0, _ => .ok []
  | count + 1, curr =>
    match values[curr]? with
    | none => .error .outOfRange
    | some value => do
      let rest ← lrangeLoop values count (curr + 1)
      return value.serialize ++ rest

/-- A `long` as a `size_t`. -/
def toSize (z : Int) : Nat := if 0 ≤ z then z.toNat else (z + 2 ^ 64).toNat

def lrangeReply (values : List VariantRedisNode) (left right : Int) : Except Fault Bytes := do
  let left := lrangeLeft values.length left
  let right := lrangeRight values.length right
  let resultLen := toSize (if left ≤ right then right - left + 1 else 0)
  let elements ← lrangeLoop values (toSize right + 1 - toSize left) (toSize left)
  return ascii "*" ++ decimal resultLen ++ SEP ++ elements

/-- The text that the second `from_chars` of LRANGE parses: it is handed the start of the second
number and an end computed from the first. -/
def rightText (env : Env) (left right : Bytes) : Bytes :=
  match env.strayEnd left right with
  | none => right
  | some offset => right.take offset

/-- LRANGE and LLEN read a list alike: one reply where the key is absent or expired, an error where it
holds no list, and else a reply made from the elements. -/
def readList (env : Env) (key : Bytes) (absent : Bytes) (reply : List VariantRedisNode → Except Fault Bytes)
    (c : Cache) : Outcome :=
  if c.existsKey key = false then .ok (absent, c)
  else
    let (dead, c) := c.expired env key
    if dead then .ok (absent, c)
    else do
      let (value, c) ← deref env key c
      match value with
      | .aggregate _ =>
        let (value, c) ← deref env key c
        match value with
        | .aggregate values => return (← reply values, c)
        | _ => .error .nullPointer
      | _ => return (wrongType, c)

def handleCommandLRange (env : Env) (args : List Bytes) (c : Cache) : Outcome :=
  match args with
  | [_, key, leftText, right] =>
    match fromChars leftText, fromChars (rightText env leftText right) with
    | some left, some right =>
      readList env key (RedisNode.aggregate []).serialize (fun values => lrangeReply values left right) c
    | _, _ => .ok (error "Value is not an integer or out of range", c)
  | _ => .ok (error "ERR wrong number of arguments for command", c)

def pushAll (pushBack : Bool) (values : List VariantRedisNode) (args : List Bytes) : List VariantRedisNode :=
  args.foldl (fun vs arg => if pushBack then vs ++ [.ofStr arg] else .ofStr arg :: vs) values

/-- The insertions of LPUSH and RPUSH, through the pointer to the list. -/
def pushInto (env : Env) (pushBack : Bool) (key : Bytes) (elements : List Bytes) (c : Cache) : Outcome := do
  let (value, c) ← deref env key c
  match value with
  | .aggregate values =>
    return (integer elements.length, c.setValue key (.aggregate (pushAll pushBack values elements)))
  | _ => .error .nullPointer

def handleCommandPush (env : Env) (args : List Bytes) (pushBack : Bool) (c : Cache) : Outcome :=
  match args with
  | _ :: key :: first :: rest =>
    if c.existsKey key = false then
      pushInto env pushBack key (first :: rest) (c.setValue key (.aggregate []))
    else
      let (dead, c) := c.expired env key
      if dead then pushInto env pushBack key (first :: rest) (c.setValue key (.aggregate []))
      else do
        let (value, c) ← deref env key c
        match value with
        | .aggregate _ => pushInto env pushBack key (first :: rest) c
        | _ => return (wrongType, c)
  | _ => .ok (error "ERR wrong number of arguments for command", c)

def handleCommandLLen (env : Env) (args : List Bytes) (c : Cache) : Outcome :=
  match args with
  | [_, key] => readList env key (integer 0) (fun values => .ok (integer values.length)) c
  | _ => .ok (error "ERR wrong number of arguments for command", c)

/-- The dispatch of `handleRequest` on the arguments of a request. -/
def dispatch (env : Env) (args : List Bytes) (c : Cache) : Outcome :=
  match args with
  | [] => .error .outOfRange
  | name :: _ =>
    let command := lower name
    if command = ascii "ping" then handleCommandPing args c
    else if command = ascii "echo" then handleCommandEcho args c
    else if command = ascii "set" then handleCommandSet env args c
    else if command = ascii "get" then handleCommandGet env args c
    else if command = ascii "exists" then handleCommandExists args c
    else if command = ascii "del" then handleCommandDel env args c
    else if command = ascii "incr" then handleCommandLAdd env args 1 c
    else if command = ascii "decr" then handleCommandLAdd env args (-1) c
    else if command = ascii "ttl" then handleCommandTTL env args c
    else if command = ascii "lrange" then handleCommandLRange env args c
    else if command = ascii "lpush" then handleCommandPush env args false c
    else if command = ascii "rpush" then handleCommandPush env args true c
    else if command = ascii "llen" then handleCommandLLen env args c
    else .ok (error "Not supported", c)

/-- A request served. It takes place at an instant of its own also when no handler reads the clock. -/
def handleRequest (env : Env) (args : List Bytes) (c : Cache) : Outcome := do
  let (reply, c') ← dispatch env args c
  return (reply, { c' with tick := max c'.tick (c.tick + 1) })

end CppExperiments.Redis

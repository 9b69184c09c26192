import CppExperiments.Redis.Requests

/-!
# Requests that are served

For each handler, and for the requests on the wire, the states in which they complete.
-/

namespace CppExperiments.Redis

open CppExperiments.Expiring

/-- The expiry of the key has not passed at the `n`-th look after the next. -/
def Fresh (env : Env) (c : Cache) (key : Bytes) (n : Nat) : Prop :=
  ∀ e, c.ttl.lookup key = some e → env.clock (c.tick + n) ≤ e

/-- The expiry that SET finds among its options. -/
def firstExpiry : List Bytes → Option Bytes
  | code :: expiry :: rest =>
    if lower code = ascii "ex" ∨ lower code = ascii "exat" ∨ lower code = ascii "px" ∨ lower code = ascii "pxat" then
      some expiry
    else firstExpiry (expiry :: rest)
  | _ => none

/-- An expiry of digits only is a number that fits. -/
def SafeSet : List Bytes → Prop
  | _ :: _ :: _ :: options =>
    ∀ expiry, firstExpiry options = some expiry → allDigitsUnsigned expiry = true → (stoul expiry).isSome
  | _ => True

/-- The key of INCR and DECR does not expire while it is looked at, and its number and the new one fit. -/
def SafeAdd (env : Env) (c : Cache) (increment : Int) : List Bytes → Prop
  | [_, key] =>
    ∀ v, c.cache.lookup key = some v → Fresh env c key (addLooks (some v) - 1) ∧
      ∀ node, v = .variant node → allDigitsSigned node.str = true → ∃ z, stol node.str = some z ∧ InLong (z + increment)
  | _ => True

/-- The time to live fits. -/
def SafeTTL (env : Env) (c : Cache) : List Bytes → Prop
  | [_, key] =>
    c.existsKey key = true → ∀ e, c.ttl.lookup key = some e → env.clock c.tick ≤ e →
      InLong (Cache.toLong e - Cache.toLong (env.clock (c.tick + 1)))
  | _ => True

/-- A live key of LRANGE does not expire while it is looked at, and the right index does not fall in front of
the list. -/
def SafeLRange (env : Env) (c : Cache) : List Bytes → Prop
  | [_, key, left, right] =>
    ∀ l r, fromChars left = some l → fromChars (rightText env left right) = some r →
      ∀ v, c.cache.lookup key = some v → Fresh env c key 0 →
        Fresh env c key (listLooks (some v) - 1) ∧ ∀ vs, v = .aggregate vs → 0 ≤ lrangeRight vs.length r
  | _ => True

/-- The key of LPUSH and RPUSH does not expire while it is looked at. -/
def SafePush (env : Env) (c : Cache) : List Bytes → Prop
  | _ :: key :: _ :: _ => ∀ v, c.cache.lookup key = some v → Fresh env c key (listLooks (some v) - 1)
  | _ => True

/-- A live key of LLEN does not expire while it is looked at. -/
def SafeLLen (env : Env) (c : Cache) : List Bytes → Prop
  | [_, key] =>
    ∀ v, c.cache.lookup key = some v → Fresh env c key 0 → Fresh env c key (listLooks (some v) - 1)
  | _ => True

/-- A bulk string starts at the position: a dollar sign within the request, and a line with a length. -/
def BulkAt (request : Bytes) (pos : Nat) : Prop :=
  pos ≤ request.length ∧ request.getD pos 0 = 36 ∧ ∃ lenTokEnd, findSep request pos = some lenTokEnd ∧
    (request.getD (pos + 1) 0 = 45 ∨ (fromCharsSize (substr request (pos + 1) (lenTokEnd - (pos + 1)))).isSome)

/-- The position at which the bulk string that starts at `pos` announces its end, and what it stands for. -/
def bulkEnd (request : Bytes) (pos : Nat) : Nat :=
  if request.getD (pos + 1) 0 = 45 then request.length
  else
    let lenTokEnd := (findSep request pos).getD 0
    (lenTokEnd + 2 + (fromCharsSize (substr request (pos + 1) (lenTokEnd - (pos + 1)))).getD 0 + 2) % 2 ^ 64

def bulkToken (request : Bytes) (pos : Nat) : Bytes :=
  if request.getD (pos + 1) 0 = 45 then ascii "nil"
  else
    let lenTokEnd := (findSep request pos).getD 0
    substr request (lenTokEnd + 2) ((fromCharsSize (substr request (pos + 1) (lenTokEnd - (pos + 1)))).getD 0)

/-- Where the bulk strings of an array start, the first of them at `pos`. -/
def bulkStart (request : Bytes) (pos i : Nat) : Nat := (bulkEnd request)^[i] pos

/-- The array that a request announces: the position behind its header, and the number of its elements. -/
def announced (request : Bytes) : Option (Nat × Nat) :=
  if request.getD 0 0 = 42 ∧ request.getD 1 0 ≠ 45 then
    (findSep request 0).bind fun lenTokEnd =>
      (fromCharsSize (substr request 1 (lenTokEnd - 1))).map fun n => (lenTokEnd + 2, n)
  else none

/-- The commands that are served in a state. -/
structure SafeCommand (env : Env) (c : Cache) (args : List Bytes) (command : Bytes) : Prop where
  set : command = ascii "set" → SafeSet args
  incr : command = ascii "incr" → SafeAdd env c 1 args
  decr : command = ascii "decr" → SafeAdd env c (-1) args
  ttl : command = ascii "ttl" → SafeTTL env c args
  lrange : command = ascii "lrange" → SafeLRange env c args
  lpush : command = ascii "lpush" → SafePush env c args
  rpush : command = ascii "rpush" → SafePush env c args
  llen : command = ascii "llen" → SafeLLen env c args

/-- The requests that are served in a state. An integer fits. Of an array, every element announced is there
as a bulk string, and if the last one ends with the request, they are a command that is served. -/
structure SafeRequest (env : Env) (c : Cache) (request : Bytes) : Prop where
  number : ∀ tokEnd, request.getD 0 0 = 58 → findSep request 0 = some tokEnd →
    allDigitsSigned (substr request 1 (tokEnd - 1)) = true → (stol (substr request 1 (tokEnd - 1))).isSome
  elements : ∀ pos n, announced request = some (pos, n) → ∀ i < n, BulkAt request (bulkStart request pos i)
  command : ∀ pos n, announced request = some (pos, n) → bulkStart request pos n = request.length →
    ∃ name operands, (List.range n).map (fun i => bulkToken request (bulkStart request pos i)) = name :: operands ∧
      SafeCommand env c (name :: operands) (lower name)

section Completion

variable {ε α β : Type} {env : Env} {host : Host} {c : Cache} {key : Bytes} {args : List Bytes} {i n : Nat}
  {v : RedisNode}

def Completes (r : Except ε α) : Prop := ∃ a, r = .ok a

lemma completes_ok (a : α) : Completes (.ok a : Except ε α) := ⟨a, rfl⟩

lemma not_completes_error (e : ε) : ¬ Completes (.error e : Except ε α) := by
  rintro ⟨a, ha⟩
  cases ha

lemma completes_bind_ok {r : Except ε α} {a : α} (h : r = .ok a) (f : α → Except ε β) :
    Completes (r >>= f) ↔ Completes (f a) := by
  rw [h]
  rfl

lemma completes_bind_pure (r : Except ε α) (f : α → β) : Completes (do let a ← r; return f a) ↔ Completes r := by
  cases r with
  | error e => exact ⟨fun h => absurd h (not_completes_error e), fun h => absurd h (not_completes_error e)⟩
  | ok a => exact ⟨fun _ => completes_ok a, fun _ => completes_ok (f a)⟩

lemma not_completes_bind {r : Except ε α} {e : ε} (h : r = .error e) (f : α → Except ε β) : ¬ Completes (r >>= f) := by
  rw [h]
  exact not_completes_error e

lemma fresh_iff : Fresh env c key n ↔ ¬ (c.checks key n).Stale env key := by
  unfold Fresh Cache.Stale
  rw [Cache.ttl_checks]
  cases he : c.ttl.lookup key with
  | none => simp [Past]
  | some e => simp [Past, Cache.tick_checks he]

lemma fresh_zero_iff : Fresh env c key 0 ↔ ¬ c.Stale env key := by rw [fresh_iff, Cache.checks_zero]

lemma Fresh.mono (h : Fresh env c key n) (hi : i ≤ n) : Fresh env c key i := by
  intro e he
  exact (env.mono (Nat.add_le_add_left hi _)).trans (h e he)

lemma fresh_of_none (h : c.ttl.lookup key = none) (n : Nat) : Fresh env c key n := by
  intro e he
  rw [h] at he
  cases he

lemma deref_of_fresh (h : Fresh env c key i) (hl : c.cache.lookup key = some v) :
    deref env key (c.checks key i) = .ok (v, c.checks key (i + 1)) := by
  rw [deref_eq (fresh_iff.1 h) hl, Cache.checks_checks]

lemma deref_of_not_fresh (h : ¬ Fresh env c key i) : deref env key (c.checks key i) = .error .nullPointer := by
  rw [deref, Cache.getValue_of_stale (not_not.1 (fresh_iff.not.1 h))]

/-- The value that a handler has just put in is read back exactly if the key has not expired. -/
lemma completes_writeNumber (z : Int) : Completes (writeNumber env key z (c.checks key i)) ↔ Fresh env c key i := by
  have hset : (c.checks key i).setValue key (.variant (.ofStr (decimalInt z)))
      = (c.setValue key (.variant (.ofStr (decimalInt z)))).checks key i := rfl
  have hfresh : Fresh env (c.setValue key (.variant (.ofStr (decimalInt z)))) key i ↔ Fresh env c key i := Iff.rfl
  rw [writeNumber, hset]
  by_cases h : Fresh env c key i
  · have hd := deref_of_fresh (hfresh.2 h) (AList.lookup_insert c.cache : _ = some (.variant (.ofStr (decimalInt z))))
    rw [completes_bind_ok hd]
    exact ⟨fun _ => h, fun _ => completes_ok _⟩
  · have hd := deref_of_not_fresh (hfresh.not.2 h)
    exact ⟨fun hc => absurd hc (not_completes_bind hd _), fun h' => absurd h' h⟩

lemma stale_iff : c.Stale env key ↔ ¬ Fresh env c key 0 := by rw [fresh_zero_iff, not_not]

/-- INCR and DECR of a number that is there. -/
lemma completes_lAdd_variant {increment : Int} {node : VariantRedisNode}
    (hl : c.cache.lookup key = some (.variant node)) :
    Completes (do
      let (value, c) ← deref env key (c.checks key 2)
      match value with
      | .variant node =>
        if allDigitsSigned node.str then
          match stol node.str with
          | none => .error .outOfRange
          | some z => if InLong (z + increment) then writeNumber env key (z + increment) c else .error .overflow
        else return (error "value is not an integer or out of range", c)
      | _ => .error .nullPointer) ↔
    Fresh env c key (addLooks (some (.variant node)) - 1) ∧
      (allDigitsSigned node.str = true → ∃ z, stol node.str = some z ∧ InLong (z + increment)) := by
  by_cases h2 : Fresh env c key 2
  · rw [completes_bind_ok (deref_of_fresh h2 hl)]
    simp only [addLooks]
    by_cases hd : allDigitsSigned node.str = true
    · simp only [hd, if_true, forall_const]
      cases hz : stol node.str with
      | none => simp [not_completes_error]
      | some z =>
        by_cases hrange : InLong (z + increment)
        · simp [hrange, completes_writeNumber]
        · simp [hrange, not_completes_error]
    · simp only [hd, if_false, Bool.false_eq_true, false_imp_iff, and_true]
      exact ⟨fun _ => h2, fun _ => completes_ok _⟩
  · have hlooks : 2 ≤ addLooks (some (.variant node)) - 1 := by
      simp only [addLooks]
      split <;> omega
    exact ⟨fun hc => absurd hc (not_completes_bind (deref_of_not_fresh h2) _), fun h => absurd (h.1.mono hlooks) h2⟩

/-- INCR and DECR are served exactly in their safe states. -/
theorem completes_lAdd (ht : c.Tidy) (increment : Int) :
    Completes (handleCommandLAdd env args increment c) ↔ SafeAdd env c increment args := by
  unfold handleCommandLAdd SafeAdd
  split
  · rename_i key
    rcases Option.eq_none_or_eq_some (c.cache.lookup key) with hl | ⟨v, hl⟩
    · have hw : Completes (writeNumber env key increment (c.checks key 0)) :=
        (completes_writeNumber increment).2 (fresh_of_none (ht.ttl_none hl) 0)
      rw [Cache.checks_zero] at hw
      simpa [existsKey_of_none hl, hl] using hw
    · have hlooks : 1 ≤ addLooks (some v) - 1 := by
        unfold addLooks
        split
        · split <;> omega
        · omega
      simp only [existsKey_of_some hl, Bool.true_eq_false, if_false, Cache.expired_eq, hl, Option.some.injEq,
        forall_eq']
      by_cases h0 : Fresh env c key 0
      · simp only [stale_iff, h0, not_true, decide_false, Bool.false_eq_true, if_false]
        by_cases h1 : Fresh env c key 1
        · rw [completes_bind_ok (deref_of_fresh h1 hl)]
          cases v with
          | variant node =>
            refine (completes_lAdd_variant hl).trans ?_
            simp
          | aggregate vs => exact ⟨fun _ => ⟨h1, fun node hnode => by cases hnode⟩, fun _ => completes_ok _⟩
          | plain m b => exact ⟨fun _ => ⟨h1, fun node hnode => by cases hnode⟩, fun _ => completes_ok _⟩
        · exact ⟨fun hc => absurd hc (not_completes_bind (deref_of_not_fresh h1) _),
            fun h => absurd (h.1.mono hlooks) h1⟩
      · simp only [stale_iff, h0, not_false_eq_true, decide_true, if_true, completes_writeNumber]
        exact ⟨fun h => absurd (h.mono (Nat.zero_le 1)) h0, fun h => absurd (h.1.mono (Nat.zero_le _)) h0⟩
  · simp [completes_ok]

lemma listLooks_pos (v : RedisNode) : 1 ≤ listLooks (some v) - 1 := by
  unfold listLooks
  split <;> omega

/-- LRANGE and LLEN read a live key twice, and a list once more. -/
lemma completes_readList {absent : Bytes} {reply : List VariantRedisNode → Except Fault Bytes} :
    Completes (readList env key absent reply c) ↔ ∀ v, c.cache.lookup key = some v → Fresh env c key 0 →
      Fresh env c key (listLooks (some v) - 1) ∧ ∀ vs, v = .aggregate vs → Completes (reply vs) := by
  unfold readList
  cases hl : c.cache.lookup key with
  | none => simp [existsKey_of_none hl, completes_ok]
  | some v =>
    simp only [existsKey_of_some hl, Bool.true_eq_false, if_false, Cache.expired_eq, Option.some.injEq, forall_eq']
    by_cases h0 : Fresh env c key 0
    · simp only [stale_iff, h0, not_true, decide_false, Bool.false_eq_true, if_false, forall_const]
      by_cases h1 : Fresh env c key 1
      · rw [completes_bind_ok (deref_of_fresh h1 hl)]
        cases v with
        | aggregate vs =>
          simp only [RedisNode.aggregate.injEq, forall_eq']
          by_cases h2 : Fresh env c key 2
          · refine (completes_bind_ok (deref_of_fresh h2 hl) _).trans ?_
            simp only [completes_bind_pure]
            exact ⟨fun h => ⟨h2, h⟩, fun h => h.2⟩
          · exact ⟨fun hc => absurd hc (not_completes_bind (deref_of_not_fresh h2) _), fun h => absurd h.1 h2⟩
        | variant node => exact ⟨fun _ => ⟨h1, fun vs hvs => by cases hvs⟩, fun _ => completes_ok _⟩
        | plain m b => exact ⟨fun _ => ⟨h1, fun vs hvs => by cases hvs⟩, fun _ => completes_ok _⟩
      · exact ⟨fun hc => absurd hc (not_completes_bind (deref_of_not_fresh h1) _),
          fun h => absurd (h.1.mono (listLooks_pos v)) h1⟩
    · simp only [stale_iff, h0, not_false_eq_true, decide_true, if_true, false_imp_iff, iff_true]
      exact completes_ok _

/-- A loop with rounds left at the end of the list reads behind it. -/
lemma not_completes_lrangeLoop (values : List VariantRedisNode) {count curr : Nat} (hcount : 0 < count)
    (hout : values.length < curr + count) : ¬ Completes (lrangeLoop values count curr) := by
  induction count generalizing curr with
  | zero => omega
  | succ count ih =>
    rw [lrangeLoop]
    by_cases hcurr : curr < values.length
    · rw [List.getElem?_eq_getElem hcurr]
      simp only
      rw [completes_bind_pure]
      exact ih (by omega) (by omega)
    · rw [List.getElem?_eq_none (not_lt.1 hcurr)]
      exact not_completes_error _

/-- LRANGE stays within the list exactly if its right index does not fall in front of it. -/
lemma completes_lrangeReply (values : List VariantRedisNode) {left right : Int} (hleft : InLong left)
    (hright : InLong right) : Completes (lrangeReply values left right) ↔ 0 ≤ lrangeRight values.length right := by
  constructor
  · intro h
    by_contra hneg
    have hto : toSize (lrangeRight values.length right) = (lrangeRight values.length right + 2 ^ 64).toNat :=
      if_neg hneg
    have hfrom : toSize (lrangeLeft values.length left) = (lrangeLeft values.length left).toNat :=
      if_pos (le_max_right _ _)
    simp only [lrangeReply, hto, hfrom, completes_bind_pure] at h
    simp only [InLong, lrangeLeft, lrangeRight, lrangeIndex] at hleft hright hneg h
    refine not_completes_lrangeLoop values ?_ ?_ h
    · split at hneg <;> split <;> omega
    · split at hneg <;> split <;> omega
  · intro h
    rw [lrangeReply_eq values left h]
    exact completes_ok _

lemma inLong_fromChars {text : Bytes} {z : Int} (h : fromChars text = some z) : InLong z := by
  simpa using (Option.filter_eq_some_iff.1 h).2

theorem completes_lrange : Completes (handleCommandLRange env args c) ↔ SafeLRange env c args := by
  unfold handleCommandLRange SafeLRange
  split
  · rename_i key leftText right
    rcases Option.eq_none_or_eq_some (fromChars leftText) with hl | ⟨l, hl⟩
    · simp [hl, completes_ok]
    · rcases Option.eq_none_or_eq_some (fromChars (rightText env leftText right)) with hr | ⟨r, hr⟩
      · simp [hl, hr, completes_ok]
      · simp only [hl, hr, Option.some.injEq]
        rw [completes_readList]
        simp only [completes_lrangeReply _ (inLong_fromChars hl) (inLong_fromChars hr)]
        exact ⟨fun h l' r' _ hr' => hr' ▸ h, fun h => h l r rfl rfl⟩
  · simp [completes_ok]

theorem completes_llen : Completes (handleCommandLLen env args c) ↔ SafeLLen env c args := by
  unfold handleCommandLLen SafeLLen
  split
  · rename_i key
    rw [completes_readList]
    simp [completes_ok]
  · simp [completes_ok]

lemma completes_pushInto {pushBack : Bool} {elements : List Bytes} {vs : List VariantRedisNode}
    (hl : c.cache.lookup key = some (.aggregate vs)) :
    Completes (pushInto env pushBack key elements (c.checks key i)) ↔ Fresh env c key i := by
  unfold pushInto
  by_cases h : Fresh env c key i
  · rw [completes_bind_ok (deref_of_fresh h hl)]
    exact ⟨fun _ => h, fun _ => completes_ok _⟩
  · exact ⟨fun hc => absurd hc (not_completes_bind (deref_of_not_fresh h) _), fun h' => absurd h' h⟩

/-- LPUSH and RPUSH are served exactly in their safe states. -/
theorem completes_push (ht : c.Tidy) {pushBack : Bool} :
    Completes (handleCommandPush env args pushBack c) ↔ SafePush env c args := by
  unfold handleCommandPush SafePush
  split
  · rename_i key first rest
    have hnew : ∀ i, Completes (pushInto env pushBack key (first :: rest)
      ((c.setValue key (.aggregate [])).checks key i)) ↔
        Fresh env c key i := fun i => completes_pushInto (AList.lookup_insert _)
    rcases Option.eq_none_or_eq_some (c.cache.lookup key) with hl | ⟨v, hl⟩
    · have hw := (hnew 0).2 (fresh_of_none (ht.ttl_none hl) 0)
      rw [Cache.checks_zero] at hw
      simpa [existsKey_of_none hl, hl] using hw
    · simp only [existsKey_of_some hl, Bool.true_eq_false, if_false, Cache.expired_eq, hl, Option.some.injEq,
        forall_eq']
      by_cases h0 : Fresh env c key 0
      · simp only [stale_iff, h0, not_true, decide_false, Bool.false_eq_true, if_false]
        by_cases h1 : Fresh env c key 1
        · rw [completes_bind_ok (deref_of_fresh h1 hl)]
          cases v with
          | aggregate vs => exact completes_pushInto hl
          | variant node => exact ⟨fun _ => h1, fun _ => completes_ok _⟩
          | plain m b => exact ⟨fun _ => h1, fun _ => completes_ok _⟩
        · exact ⟨fun hc => absurd hc (not_completes_bind (deref_of_not_fresh h1) _),
            fun h => absurd (h.mono (listLooks_pos v)) h1⟩
      · simp only [stale_iff, h0, not_false_eq_true, decide_true, if_true]
        exact ⟨fun h => absurd (((hnew 1).1 h).mono (Nat.zero_le 1)) h0, fun h => absurd (h.mono (Nat.zero_le _)) h0⟩
  · simp [completes_ok]

theorem completes_ttl : Completes (handleCommandTTL env args c) ↔ SafeTTL env c args := by
  unfold handleCommandTTL SafeTTL
  split
  · rename_i key
    refine (completes_bind_pure _ _).trans ?_
    unfold Cache.getTTL
    by_cases hkey : c.existsKey key = true
    · simp only [hkey, Bool.true_eq_false, if_false, Cache.expired_eq, forall_const]
      cases he : c.ttl.lookup key with
      | none =>
        have hs : ¬ c.Stale env key := not_stale_of_none he
        simp [hs, he, completes_ok]
      | some e =>
        by_cases hs : c.Stale env key
        · have hpast : e < env.clock c.tick := by simpa [Cache.Stale, he, Past] using hs
          simp [hs, completes_ok, not_le.2 hpast]
        · have hnow : env.clock c.tick ≤ e := by simpa [Cache.Stale, he, Past] using hs
          simp only [hs, decide_false, Bool.false_eq_true, if_false, Cache.ttl_checks, he, Cache.timeSinceEpoch,
            Cache.tick_checks he, Option.some.injEq, forall_eq', hnow, forall_const]
          by_cases hrange : InLong (Cache.toLong e - Cache.toLong (env.clock (c.tick + 1)))
          · simp [hrange, completes_ok]
          · simp [hrange, not_completes_error]
    · simp [hkey, completes_ok]
  · simp [completes_ok]

lemma completes_setOptions {options : List Bytes} :
    Completes (setOptions env key options c) ↔
      ∀ expiry, firstExpiry options = some expiry → allDigitsUnsigned expiry = true → (stoul expiry).isSome := by
  induction options with
  | nil => simp [setOptions, firstExpiry, completes_ok]
  | cons code options ih =>
    cases options with
    | nil => simp [setOptions, firstExpiry, completes_ok]
    | cons expiry rest =>
      rw [setOptions, firstExpiry]
      by_cases hcode : lower code = ascii "ex" ∨ lower code = ascii "exat" ∨ lower code = ascii "px" ∨
          lower code = ascii "pxat"
      · rw [if_neg (not_not.2 hcode), if_pos hcode]
        simp only [Option.some.injEq, forall_eq']
        cases hd : allDigitsUnsigned expiry with
        | false => simp [completes_ok]
        | true =>
          cases hn : stoul expiry with
          | none => simp [not_completes_error]
          | some n =>
            simp only [Bool.true_eq_false, if_false, Option.isSome_some, imp_self, iff_true]
            split
            · exact completes_ok _
            · split
              · exact completes_ok _
              · split <;> exact completes_ok _
      · rw [if_pos hcode, if_neg hcode]
        exact ih

theorem completes_set : Completes (handleCommandSet env args c) ↔ SafeSet args := by
  unfold handleCommandSet SafeSet
  split
  · exact completes_setOptions
  · simp [completes_ok]

lemma completes_get : Completes (handleCommandGet env args c) := by
  unfold handleCommandGet
  split
  · split <;> exact completes_ok _
  · exact completes_ok _

lemma completes_ping : Completes (handleCommandPing args c) := by
  unfold handleCommandPing
  split <;> exact completes_ok _

lemma completes_echo : Completes (handleCommandEcho args c) := by
  unfold handleCommandEcho
  split <;> exact completes_ok _

lemma completes_save {background : Bool} : Completes (handleCommandSave env host args background c) := by
  unfold handleCommandSave
  split
  · exact completes_ok _
  · split <;> exact completes_ok _

lemma completes_keys : Completes (handleCommandKeys host args c) := by
  unfold handleCommandKeys
  split
  · split <;> exact completes_ok _
  · exact completes_ok _

lemma completes_ite {p : Prop} [Decidable p] {r r' : Except ε α} :
    Completes (if p then r else r') ↔ (p → Completes r) ∧ (¬ p → Completes r') := by
  by_cases hp : p
  · simp [hp]
  · simp [hp]

/-- The commands are served exactly in their safe states. -/
theorem completes_dispatch (ht : c.Tidy) (name : Bytes) (operands : List Bytes) :
    Completes (dispatch env (name :: operands) c) ↔ SafeCommand env c (name :: operands) (lower name) := by
  have hexists : Completes (handleCommandExists (name :: operands) c) := completes_ok _
  have hdel : Completes (handleCommandDel env (name :: operands) c) := completes_ok _
  simp only [dispatch, completes_ite, completes_ping, completes_echo, completes_set, completes_get, hexists, hdel,
    completes_lAdd ht, completes_ttl, completes_lrange, completes_push ht, completes_llen, completes_ok]
  constructor
  · intro h
    exact {
      set := fun hc => by simpa +decide [hc] using h
      incr := fun hc => by simpa +decide [hc] using h
      decr := fun hc => by simpa +decide [hc] using h
      ttl := fun hc => by simpa +decide [hc] using h
      lrange := fun hc => by simpa +decide [hc] using h
      lpush := fun hc => by simpa +decide [hc] using h
      rpush := fun hc => by simpa +decide [hc] using h
      llen := fun hc => by simpa +decide [hc] using h }
  · intro h
    simp only [imp_true_iff, true_and, and_true]
    exact fun _ _ => ⟨h.set, fun _ _ _ _ => ⟨h.incr, fun _ => ⟨h.decr, fun _ => ⟨h.ttl, fun _ => ⟨h.lrange,
      fun _ => ⟨h.lpush, fun _ => ⟨h.rpush, fun _ => h.llen⟩⟩⟩⟩⟩⟩⟩

/-- A command is served exactly if it has a name and is safe. -/
theorem completes_execute (ht : c.Tidy) :
    Completes (execute env host args c) ↔ ∃ name operands, args = name :: operands ∧
      SafeCommand env c args (lower name) := by
  cases args with
  | nil => simp [execute, not_completes_error]
  | cons name operands =>
    have hserved : Completes (handleRequest env (name :: operands) c) ↔
      SafeCommand env c (name :: operands) (lower name) := by
      rw [← completes_dispatch ht]
      exact completes_bind_pure _ _
    have hother : ∀ command, command = ascii "save" ∨ command = ascii "bgsave" ∨ command = ascii "keys" →
        SafeCommand env c (name :: operands) command := by
      rintro command (rfl | rfl | rfl) <;> constructor <;> intro h <;> exact absurd h (by decide)
    simp only [execute, completes_ite, completes_save, completes_keys, hserved, imp_true_iff, true_and]
    constructor
    · intro h
      refine ⟨name, operands, rfl, ?_⟩
      by_cases hfile : lower name = ascii "save" ∨ lower name = ascii "bgsave" ∨ lower name = ascii "keys"
      · exact hother _ hfile
      · rw [not_or, not_or] at hfile
        exact h hfile.1 hfile.2.1 hfile.2.2
    · rintro ⟨name', operands', heq, h⟩ _ _ _
      cases heq
      exact h

section Wire

variable {request : Bytes} {pos count : Nat}

/-- A bulk string is read exactly where one starts. -/
lemma deserializeBulkStr_of_bulkAt (h : BulkAt request pos) :
    ∃ node, deserializeBulkStr request pos = .ok (node, bulkEnd request pos) ∧ node.str = bulkToken request pos := by
  obtain ⟨hin, hdollar, lenTokEnd, hfind, hlen⟩ := h
  rw [deserializeBulkStr, if_neg (not_lt.2 hin), if_neg (not_not.2 hdollar), hfind, bulkEnd, bulkToken, hfind]
  simp only [Option.getD_some]
  by_cases hneg : request.getD (pos + 1) 0 = 45
  · simp only [hneg, if_true]
    exact ⟨.nil, rfl, rfl⟩
  · obtain ⟨n, hn⟩ := Option.isSome_iff_exists.1 (hlen.resolve_left hneg)
    simp only [hneg, if_false, hn, Option.getD_some]
    exact ⟨_, rfl, rfl⟩

lemma not_completes_bulkStr (h : ¬ BulkAt request pos) : ¬ Completes (deserializeBulkStr request pos) := by
  rw [deserializeBulkStr]
  split
  · exact not_completes_error _
  · split
    · exact not_completes_error _
    · split
      · exact not_completes_error _
      · rename_i hin hdollar _ lenTokEnd hfind
        have hlen : ¬ (request.getD (pos + 1) 0 = 45 ∨
            (fromCharsSize (substr request (pos + 1) (lenTokEnd - (pos + 1)))).isSome) := fun hlen =>
          h ⟨not_lt.1 hin, not_not.1 hdollar, lenTokEnd, hfind, hlen⟩
        rw [not_or] at hlen
        rw [if_neg hlen.1, Option.not_isSome_iff_eq_none.1 hlen.2]
        exact not_completes_error _

/-- The elements of an array are read exactly where they are all there. -/
theorem deserializeElements_of_bulkAt (h : ∀ i < count, BulkAt request (bulkStart request pos i)) :
    ∃ nodes, deserializeElements request count pos = .ok (nodes, bulkStart request pos count) ∧
      nodes.map VariantRedisNode.str =
        (List.range count).map (fun i => bulkToken request (bulkStart request pos i)) := by
  induction count generalizing pos with
  | zero => exact ⟨[], rfl, rfl⟩
  | succ count ih =>
    obtain ⟨node, hnode, hstr⟩ := deserializeBulkStr_of_bulkAt (h 0 (Nat.succ_pos count))
    obtain ⟨nodes, hnodes, hstrs⟩ := @ih (bulkEnd request pos) fun i hi => h (i + 1) (Nat.succ_lt_succ hi)
    refine ⟨node :: nodes, ?_, ?_⟩
    · rw [deserializeElements, show deserializeBulkStr request pos = _ from hnode]
      change (deserializeElements request count (bulkEnd request pos) >>= _) = _
      rw [hnodes]
      rfl
    · rw [List.range_succ_eq_map, List.map_cons, List.map_cons, List.map_map, hstr, hstrs]
      rfl

lemma not_completes_elements {i : Nat} (hi : i < count) (h : ¬ BulkAt request (bulkStart request pos i)) :
    ¬ Completes (deserializeElements request count pos) := by
  induction count generalizing pos i with
  | zero => omega
  | succ count ih =>
    rw [deserializeElements]
    by_cases hpos : BulkAt request pos
    · obtain ⟨node, hnode, _⟩ := deserializeBulkStr_of_bulkAt hpos
      refine (completes_bind_ok hnode _).not.2 ?_
      simp only
      rw [completes_bind_pure]
      cases i with
      | zero => exact absurd hpos h
      | succ i => exact ih (Nat.lt_of_succ_lt_succ hi) h
    · intro hc
      cases hnode : deserializeBulkStr request pos with
      | error e => exact not_completes_bind hnode _ hc
      | ok out => exact not_completes_bulkStr hpos ⟨out, hnode⟩

lemma completes_handleRequest :
    Completes (CommandHandler.handleRequest env host request c) ↔
      ∃ node, deserialize request = .ok node ∧
        ∀ nodes, node = .aggregate nodes → Completes (execute env host (nodes.map VariantRedisNode.str) c) := by
  rw [CommandHandler.handleRequest]
  cases deserialize request with
  | error a => simp [not_completes_error]
  | ok node =>
    cases node with
    | plain m b => simp [completes_ok]
    | variant n => simp [completes_ok]
    | aggregate nodes =>
      simp only [Except.ok.injEq, exists_eq_left', RedisNode.aggregate.injEq, forall_eq']
      cases execute env host (nodes.map VariantRedisNode.str) c with
      | error f => exact ⟨fun h => absurd h (not_completes_error _), fun h => absurd h (not_completes_error _)⟩
      | ok out => exact ⟨fun _ => completes_ok _, fun _ => completes_ok _⟩

/-- What is read as complete and starts with a dollar sign has a length line. -/
lemma length_of_complete {request recvd req : Bytes} (h : readRequest request recvd = (true, req))
    (hch : req.getD 0 0 = 36) : ∃ lenTokEnd, find SEP req = some lenTokEnd ∧
      (req.getD 1 0 = 45 ∨ (fromCharsSize (substr req 1 (lenTokEnd - 1))).isSome) := by
  have herror : recvError.getD 0 0 = 45 := by decide
  have hinvalid : invalidInp.getD 0 0 = 45 := by decide
  rw [readRequest] at h
  grind

lemma findSep_zero (bs : Bytes) : findSep bs 0 = find SEP bs := by
  rw [findSep, List.drop_zero]
  simp

lemma bulkAt_of_complete {request recvd req : Bytes} (h : readRequest request recvd = (true, req))
    (hch : req.getD 0 0 = 36) : BulkAt req 0 := by
  obtain ⟨lenTokEnd, hfind, hlen⟩ := length_of_complete h hch
  exact ⟨Nat.zero_le _, hch, lenTokEnd, by rw [findSep_zero, hfind], hlen⟩

lemma announced_of_ne (hch : request.getD 0 0 ≠ 42) : announced request = none := by
  rw [announced, if_neg (fun h => hch h.1)]

/-- What is no array is safe as soon as its integer fits. -/
lemma safeRequest_of_none (h : announced request = none)
    (hnumber : ∀ tokEnd, request.getD 0 0 = 58 → findSep request 0 = some tokEnd →
      allDigitsSigned (substr request 1 (tokEnd - 1)) = true → (stol (substr request 1 (tokEnd - 1))).isSome) :
    SafeRequest env c request where
  number := hnumber
  elements := fun pos n ha => by simp [h] at ha
  command := fun pos n ha => by simp [h] at ha

lemma completes_of_node {node : RedisNode} (h : deserialize request = .ok node)
    (hnode : ∀ nodes, node ≠ .aggregate nodes) :
    Completes (CommandHandler.handleRequest env host request c) :=
  completes_handleRequest.2 ⟨node, h, fun nodes heq => absurd heq (hnode nodes)⟩

/-- A line is served if the integer in it, should it be one, fits. -/
lemma completes_line (hch : request.getD 0 0 = 43 ∨ request.getD 0 0 = 45 ∨ request.getD 0 0 = 58) :
    Completes (CommandHandler.handleRequest env host request c) ↔ SafeRequest env c request := by
  have hnone : announced request = none := announced_of_ne (by rcases hch with h | h | h <;> rw [h] <;> decide)
  by_cases hsafe : ∀ tokEnd, request.getD 0 0 = 58 → findSep request 0 = some tokEnd →
      allDigitsSigned (substr request 1 (tokEnd - 1)) = true → (stol (substr request 1 (tokEnd - 1))).isSome
  · refine ⟨fun _ => safeRequest_of_none hnone hsafe, fun _ => ?_⟩
    have hnode : ∃ node, deserialize request = .ok node ∧ ∀ nodes, node ≠ .aggregate nodes := by
      rw [deserialize, if_pos hch]
      split
      · exact ⟨errNode, rfl, fun nodes heq => by cases heq⟩
      · rename_i tokEnd hfind
        simp only
        split
        · exact ⟨_, rfl, fun nodes heq => by cases heq⟩
        · split
          · exact ⟨_, rfl, fun nodes heq => by cases heq⟩
          · rename_i h43 h45
            have h58 : request.getD 0 0 = 58 := (hch.resolve_left h43).resolve_left h45
            split
            · rename_i hd
              obtain ⟨z, hz⟩ := Option.isSome_iff_exists.1 (hsafe tokEnd h58 hfind hd)
              rw [hz]
              exact ⟨_, rfl, fun nodes heq => by cases heq⟩
            · exact ⟨errNode, rfl, fun nodes heq => by cases heq⟩
    obtain ⟨node, hok, hne⟩ := hnode
    exact completes_of_node hok hne
  · refine ⟨fun hc => ?_, fun h => absurd h.number hsafe⟩
    push Not at hsafe
    obtain ⟨tokEnd, h58, hfind, hd, hstol⟩ := hsafe
    obtain ⟨node, hok, _⟩ := completes_handleRequest.1 hc
    have herror : deserialize request = .error (.fault .outOfRange) := by
      rw [deserialize, if_pos hch, hfind]
      simp only
      have hstol' : stol (substr request 1 (tokEnd - 1)) = none := by simpa using hstol
      rw [if_neg (by rw [h58]; decide), if_neg (by rw [h58]; decide), if_pos hd, hstol']
    rw [herror] at hok
    cases hok

lemma deserialize_of_announced {n : Nat} (h : announced request = some (pos, n)) :
    deserialize request = (do
      let (nodes, currPos) ← deserializeElements request n pos
      return if currPos = request.length then .aggregate nodes else errNode) := by
  rw [announced] at h
  split at h
  · rename_i hch
    obtain ⟨lenTokEnd, hfind, hn⟩ := Option.bind_eq_some_iff.1 h
    obtain ⟨m, hm, heq⟩ := Option.map_eq_some_iff.1 hn
    cases heq
    rw [deserialize, hch.1, if_neg (by decide), if_neg (by decide), if_pos rfl, hfind]
    simp only
    rw [if_neg hch.2, hm]
  · cases h

lemma deserialize_of_not_announced (hch : request.getD 0 0 = 42) (h : announced request = none) :
    ∃ node, deserialize request = .ok node ∧ ∀ nodes, node ≠ .aggregate nodes := by
  rw [deserialize, hch, if_neg (by decide), if_neg (by decide), if_pos rfl]
  split
  · exact ⟨errNode, rfl, fun nodes heq => by cases heq⟩
  · rename_i lenTokEnd hfind
    split
    · exact ⟨_, rfl, fun nodes heq => by cases heq⟩
    · rename_i hneg
      split
      · exact ⟨errNode, rfl, fun nodes heq => by cases heq⟩
      · rename_i n hn
        have hsome : announced request = some (lenTokEnd + 2, n) := by
          rw [announced, if_pos ⟨hch, hneg⟩, hfind, Option.bind_some, hn, Option.map_some]
        rw [hsome] at h
        cases h

/-- An array is served if its elements are there, and if they are a command that is served. -/
lemma completes_array (ht : c.Tidy) (hch : request.getD 0 0 = 42) :
    Completes (CommandHandler.handleRequest env host request c) ↔ SafeRequest env c request := by
  have hnumber : ∀ tokEnd, request.getD 0 0 = 58 → findSep request 0 = some tokEnd →
      allDigitsSigned (substr request 1 (tokEnd - 1)) = true → (stol (substr request 1 (tokEnd - 1))).isSome := by
    intro tokEnd h58
    rw [hch] at h58
    cases h58
  cases ha : announced request with
  | none =>
    obtain ⟨node, hok, hne⟩ := deserialize_of_not_announced hch ha
    exact ⟨fun _ => safeRequest_of_none ha hnumber, fun _ => completes_of_node hok hne⟩
  | some p =>
    obtain ⟨pos, n⟩ := p
    have hread := deserialize_of_announced ha
    by_cases helems : ∀ i < n, BulkAt request (bulkStart request pos i)
    · obtain ⟨nodes, hnodes, hstrs⟩ := deserializeElements_of_bulkAt helems
      have helements : ∀ pos' n', announced request = some (pos', n') → ∀ i < n',
        BulkAt request (bulkStart request pos' i) := by
        intro pos' n' ha'
        rw [ha] at ha'
        cases ha'
        exact helems
      rw [hnodes] at hread
      by_cases hend : bulkStart request pos n = request.length
      · have hok : deserialize request = .ok (.aggregate nodes) := by
          rw [hread]
          exact congrArg Except.ok (if_pos hend)
        rw [completes_handleRequest]
        simp only [hok, Except.ok.injEq, exists_eq_left', RedisNode.aggregate.injEq, forall_eq']
        rw [completes_execute ht, hstrs]
        constructor
        · rintro ⟨name, operands, hargs, hsafe⟩
          refine ⟨hnumber, helements, ?_⟩
          intro pos' n' ha' _
          rw [ha] at ha'
          cases ha'
          exact ⟨name, operands, hargs, hargs ▸ hsafe⟩
        · intro h
          obtain ⟨name, operands, hargs, hsafe⟩ := h.command pos n ha hend
          exact ⟨name, operands, hargs, hargs ▸ hsafe⟩
      · have hok : deserialize request = .ok errNode := by
          rw [hread]
          exact congrArg Except.ok (if_neg hend)
        refine ⟨fun _ => ⟨hnumber, helements, ?_⟩, fun _ => completes_of_node hok fun nodes heq => by cases heq⟩
        intro pos' n' ha' hend'
        rw [ha] at ha'
        cases ha'
        exact absurd hend' hend
    · refine ⟨fun hc => ?_, fun h => absurd (h.elements pos n ha) helems⟩
      push Not at helems
      obtain ⟨i, hi, hbulk⟩ := helems
      obtain ⟨node, hok, _⟩ := completes_handleRequest.1 hc
      have herror := not_completes_elements hi hbulk
      cases helts : deserializeElements request n pos with
      | error e =>
        rw [hread, helts] at hok
        cases hok
      | ok out => exact absurd ⟨out, helts⟩ herror

end Wire

end Completion

/-- In every state that is reached, what is read as a complete request is served exactly if it is safe. -/
theorem handleRequest_completes_iff {env : Env} {host : Host} {c : Cache} {request recvd req : Bytes}
    (hreach : Reachable env c) (hcomplete : readRequest request recvd = (true, req)) :
    (∃ out, CommandHandler.handleRequest env host req c = .ok out) ↔ SafeRequest env c req := by
  by_cases h42 : req.getD 0 0 = 42
  · exact completes_array hreach.tidy h42
  · by_cases hline : req.getD 0 0 = 43 ∨ req.getD 0 0 = 45 ∨ req.getD 0 0 = 58
    · exact completes_line hline
    · have hnumber : ∀ tokEnd, req.getD 0 0 = 58 → findSep req 0 = some tokEnd →
          allDigitsSigned (substr req 1 (tokEnd - 1)) = true → (stol (substr req 1 (tokEnd - 1))).isSome :=
        fun tokEnd h58 => absurd (Or.inr (Or.inr h58)) hline
      have hnode : ∃ node, deserialize req = .ok node ∧ ∀ nodes, node ≠ .aggregate nodes := by
        rw [deserialize, if_neg hline]
        by_cases h36 : req.getD 0 0 = 36
        · obtain ⟨node, hok, _⟩ := deserializeBulkStr_of_bulkAt (bulkAt_of_complete hcomplete h36)
          rw [if_pos h36, hok]
          refine ⟨if bulkEnd req 0 = req.length then .variant node else errNode, rfl, ?_⟩
          intro nodes heq
          split at heq <;> cases heq
        · rw [if_neg h36, if_neg h42]
          exact ⟨errNode, rfl, fun nodes heq => by cases heq⟩
      obtain ⟨node, hok, hne⟩ := hnode
      exact ⟨fun _ => safeRequest_of_none (announced_of_ne h42) hnumber, fun _ => completes_of_node hok hne⟩

/-- A machine with a file system and processes, where no pattern matches. -/
def bareHost : Host := ⟨true, true, fun _ => some fun _ => false⟩

theorem handleRequest_completes_iff_ping :
    (∃ out, CommandHandler.handleRequest standing bareHost (ascii "*1\r\n$4\r\nPING\r\n") Cache.empty = .ok out) ↔
      SafeRequest standing Cache.empty (ascii "*1\r\n$4\r\nPING\r\n") :=
  handleRequest_completes_iff Reachable.empty (show readRequest [] (ascii "*1\r\n$4\r\nPING\r\n") = _ by decide)

/-- The empty array is complete, and `args[0]` of it is read. -/
theorem not_served_emptyArray :
    Reachable standing Cache.empty ∧ readRequest [] (ascii "*0\r\n") = (true, ascii "*0\r\n") ∧
      CommandHandler.handleRequest standing bareHost (ascii "*0\r\n") Cache.empty = .error (.fault .outOfRange) :=
  ⟨Reachable.empty, by decide, rfl⟩

end CppExperiments.Redis

/-!
## Ranges of a list

What LRANGE replies for a list that is there, for any two indices.
-/

namespace CppExperiments.Redis

section Ranges

variable {env : Env} {c : Cache} {key absent name leftText rightText' : Bytes} {values : List VariantRedisNode}
  {l r : Int}

/-- A list that does not expire at any of the looks is read through. -/
lemma readList_of_fresh {reply : List VariantRedisNode → Except Fault Bytes}
    (hl : c.cache.lookup key = some (.aggregate values))
    (hfresh : Fresh env c key 2) :
    readList env key absent reply c = (reply values >>= fun text => .ok (text, c.checks key 3)) := by
  have hlive : Fresh env c key 0 := hfresh.mono (Nat.zero_le 2)
  rw [readList, if_neg (by simp [existsKey_of_some hl]), Cache.expired_eq]
  dsimp only
  rw [if_neg (by simp [stale_iff, hlive]), deref_of_fresh (hfresh.mono (Nat.le_succ 1)) hl]
  change (deref env key (c.checks key 2) >>= _) = _
  rw [deref_of_fresh hfresh hl]
  rfl

/-- The right index is not in front of the list exactly if it is clamped into it. -/
lemma lrangeRight_nonneg_iff (hne : values ≠ []) : 0 ≤ lrangeRight values.length r ↔ -(values.length : Int) ≤ r := by
  have hpos := List.length_pos_of_ne_nil hne
  rw [lrangeRight, lrangeIndex]
  split <;> omega

/-- The elements from one index through the other are replied, with their number in front, exactly if the list does not
expire during the request and the right index is not in front of it. -/
theorem lrange_exact_iff (hl : c.cache.lookup key = some (.aggregate values)) (hne : values ≠ [])
    (hlive : Fresh env c key 0)
    (hleft : fromChars leftText = some l) (hright : fromChars (rightText env leftText rightText') = some r) :
    (∃ c', handleCommandLRange env [name, key, leftText, rightText'] c =
        .ok ((RedisNode.aggregate (slice values l r)).serialize, c')) ↔
      Fresh env c key 2 ∧ -(values.length : Int) ≤ r := by
  have hcall : handleCommandLRange env [name, key, leftText, rightText'] c =
      readList env key (RedisNode.aggregate []).serialize (fun values => lrangeReply values l r) c := by
    rw [handleCommandLRange, hleft, hright]
  rw [hcall, ← lrangeRight_nonneg_iff hne]
  constructor
  · rintro ⟨c', hreply⟩
    obtain ⟨hfresh, hcompletes⟩ := completes_readList.1 ⟨_, hreply⟩ _ hl hlive
    exact ⟨hfresh, (completes_lrangeReply values (inLong_fromChars hleft) (inLong_fromChars hright)).1
      (hcompletes values rfl)⟩
  · rintro ⟨hfresh, hclamped⟩
    rw [readList_of_fresh hl hfresh, lrangeReply_eq values l hclamped]
    exact ⟨_, rfl⟩

/-- A list under the key `k`. -/
def listed (values : List VariantRedisNode) : Cache := ⟨AList.insert (ascii "k") (.aggregate values) ∅, ∅, 0⟩

lemma lookup_listed (values : List VariantRedisNode) :
    (listed values).cache.lookup (ascii "k") = some (.aggregate values) :=
  AList.lookup_insert _

lemma fresh_listed (values : List VariantRedisNode) (n : Nat) : Fresh standing (listed values) (ascii "k") n :=
  fresh_of_none (AList.lookup_empty _) n

/-- From the second element through the last one. -/
theorem lrange_exact_iff_fromSecond :
    ∃ c', handleCommandLRange standing [ascii "LRANGE", ascii "k", ascii "1", ascii "-1"]
      (listed [.ofStr (ascii "a"), .ofStr (ascii "b"), .ofStr (ascii "c")]) =
    .ok ((RedisNode.aggregate [.ofStr (ascii "b"), .ofStr (ascii "c")]).serialize, c') := by
  have hleft : fromChars (ascii "1") = some 1 := by decide
  have hright : fromChars (rightText standing (ascii "1") (ascii "-1")) = some (-1) := by decide
  exact (lrange_exact_iff (lookup_listed _) (List.cons_ne_nil _ _) (fresh_listed _ 0) hleft hright).2
    ⟨fresh_listed _ 2, by decide⟩

/-- A list of one element. -/
def oneElement : Cache := listed [.ofStr (ascii "a")]

/-- The right index is in front of the list. -/
theorem not_lrange_inFront :
    ¬ ∃ c', handleCommandLRange standing [ascii "LRANGE", ascii "k", ascii "0", ascii "-2"] oneElement =
    .ok ((RedisNode.aggregate (slice [.ofStr (ascii "a")] 0 (-2))).serialize, c') := by
  have hleft : fromChars (ascii "0") = some 0 := by decide
  have hright : fromChars (rightText standing (ascii "0") (ascii "-2")) = some (-2) := by decide
  rintro ⟨c', hreply⟩
  have hsafe := completes_lrange.1 ⟨_, hreply⟩ 0 (-2) hleft hright _ (lookup_listed _) (fresh_listed _ 0)
  exact absurd (hsafe.2 _ rfl) (by decide)

end Ranges

end CppExperiments.Redis

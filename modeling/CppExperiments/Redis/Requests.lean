import CppExperiments.Redis.Loading
import CppExperiments.Redis.Refinement

/-!
# Requests served

`CommandHandler::handleRequest` on the bytes of a request, and the states that a running server can reach:
in all of them an expiry belongs to a value.
-/

namespace CppExperiments.Redis

open CppExperiments.Expiring

/-- What the commands on files and patterns depend on: whether the dump can be written, whether a child
can be started, and what the regular expression of a pattern matches, if it is one. -/
structure Host where
  writable : Bool
  forks : Bool
  regex : Bytes → Option (Bytes → Bool)

def ispunct (b : UInt8) : Bool :=
  decide ((33 ≤ b ∧ b ≤ 47) ∨ (58 ≤ b ∧ b ≤ 64) ∨ (91 ≤ b ∧ b ≤ 96) ∨ (123 ≤ b ∧ b ≤ 126))

/-- One character of a pattern as a regular expression. -/
def regexOf (ch : UInt8) : Bytes :=
  if ch = 63 then ascii "."
  else if ch = 42 then ascii ".*"
  else if ch = 91 ∨ ch = 93 ∨ ch = 94 ∨ ch = 45 then [ch]
  else if ispunct ch then [92, ch]
  else [ch]

/-- BGSAVE leaves the saving to the child. -/
def handleCommandSave (env : Env) (host : Host) (args : List Bytes) (background : Bool) (c : Cache) : Outcome :=
  if args.length ≠ 1 then .ok (error "ERR wrong number of arguments for command", c)
  else if background then .ok (if host.forks then ok else error "Save failed", c)
  else .ok (if host.writable then ok else error "Save failed", (c.save env).2)

def handleCommandKeys (host : Host) (args : List Bytes) (c : Cache) : Outcome :=
  match args with
  | [_, pattern] =>
    match host.regex (pattern.flatMap regexOf) with
    | none => .ok ((RedisNode.plain (ascii "ERR invalid pattern: " ++ pattern) false).serialize, c)
    | some matching => .ok ((RedisNode.aggregate ((c.cache.keys.filter matching).map .ofStr)).serialize, c)
  | _ => .ok (error "ERR wrong number of arguments for command", c)

/-- A command with its arguments, `args[0]` being its name. -/
def execute (env : Env) (host : Host) (args : List Bytes) (c : Cache) : Outcome :=
  match args with
  | [] => .error .outOfRange
  | name :: _ =>
    if lower name = ascii "save" then handleCommandSave env host args false c
    else if lower name = ascii "bgsave" then handleCommandSave env host args true c
    else if lower name = ascii "keys" then handleCommandKeys host args c
    else handleRequest env args c

namespace CommandHandler

/-- What is no array is taken for a command of the name `missing`. -/
def handleRequest (env : Env) (host : Host) (request : Bytes) (c : Cache) : Except Abort (Bytes × Cache) :=
  match deserialize request with
  | .error a => .error a
  | .ok (.aggregate nodes) =>
    match execute env host (nodes.map VariantRedisNode.str) c with
    | .error f => .error (.fault f)
    | .ok out => .ok out
  | .ok _ => .ok (error "Not supported", c)

end CommandHandler

/-- The states of a running server: it starts with what it could load, and goes on as long as its requests
are served. -/
inductive Reachable (env : Env) : Cache → Prop where
  | empty : Reachable env Cache.empty
  | loaded {content : Bytes} {b : Bool} {c : Cache} : Cache.empty.load content = .ok (b, c) → Reachable env c
  | request {host : Host} {request reply : Bytes} {c c' : Cache} : Reachable env c →
      CommandHandler.handleRequest env host request c = .ok (reply, c') → Reachable env c'

section Tidiness

variable {α β : Type} {env : Env} {host : Host} {c : Cache} {key : Bytes} {args : List Bytes}

/-- What a computation leaves, if it completes, is tidy. -/
def Tidies (r : Except Fault (α × Cache)) : Prop := ∀ a c', r = .ok (a, c') → c'.Tidy

lemma tidies_ok {a : α} (h : c.Tidy) : Tidies (.ok (a, c)) := by
  intro a' c' heq
  cases heq
  exact h

lemma tidies_error (f : Fault) : Tidies (.error f : Except Fault (α × Cache)) := by
  intro a c' heq
  cases heq

lemma tidies_bind {r : Except Fault (α × Cache)} {f : α × Cache → Except Fault (β × Cache)} (hr : Tidies r)
    (hf : ∀ a c', c'.Tidy → Tidies (f (a, c'))) : Tidies (r >>= f) := by
  cases r with
  | error e => exact tidies_error e
  | ok p => exact hf p.1 p.2 (hr p.1 p.2 rfl)

lemma tidy_expired (env : Env) (key : Bytes) (h : c.Tidy) : (c.expired env key).2.Tidy := by
  rw [Cache.expired_eq]
  exact h.checks

lemma tidy_getValue (env : Env) (key : Bytes) (h : c.Tidy) : (c.getValue env key).2.Tidy := by
  by_cases hs : c.Stale env key
  · rw [Cache.getValue_of_stale hs]
    exact h.checks.erase
  · rw [Cache.getValue_of_not_stale hs]
    exact h.checks

lemma tidies_deref (h : c.Tidy) : Tidies (deref env key c) := by
  have hget := tidy_getValue env key h
  unfold deref
  generalize c.getValue env key = p at hget
  obtain ⟨v, c'⟩ := p
  cases v with
  | none => exact tidies_error _
  | some v => exact tidies_ok hget

lemma tidies_writeNumber (h : c.Tidy) (z : Int) : Tidies (writeNumber env key z c) :=
  tidies_bind (tidies_deref (h.setValue _)) fun _ _ => tidies_ok

lemma tidies_setOptions {options : List Bytes} (h : c.Tidy) (hkey : (c.cache.lookup key).isSome) :
    Tidies (setOptions env key options c) := by
  induction options with
  | nil => exact tidies_ok h
  | cons code options ih =>
    cases options with
    | nil => exact tidies_ok h
    | cons expiry rest =>
      rw [setOptions]
      by_cases hcode : ¬ (lower code = ascii "ex" ∨ lower code = ascii "exat" ∨ lower code = ascii "px" ∨
          lower code = ascii "pxat")
      · rw [if_pos hcode]
        exact ih
      · rw [if_neg hcode]
        by_cases hd : allDigitsUnsigned expiry = false
        · rw [if_pos hd]
          exact tidies_ok h
        · rw [if_neg hd]
          cases stoul expiry with
          | none => exact tidies_error _
          | some n =>
            have hset : ∀ (t e : Nat), ({ c with tick := t } : Cache).setTTLMSAt key e |>.Tidy := fun t e =>
              Cache.Tidy.setTTLMSAt (c := { c with tick := t }) h hkey e
            simp only
            split
            · exact tidies_ok (hset _ _)
            · split
              · exact tidies_ok (hset _ _)
              · split
                · exact tidies_ok (hset c.tick _)
                · exact tidies_ok (hset c.tick _)

lemma tidies_set (h : c.Tidy) : Tidies (handleCommandSet env args c) := by
  unfold handleCommandSet
  split
  · apply tidies_setOptions (h.setValue _)
    simp [Cache.setValue]
  · exact tidies_ok h

lemma tidies_get (h : c.Tidy) : Tidies (handleCommandGet env args c) := by
  unfold handleCommandGet
  split
  · rename_i key
    have hget := tidy_getValue env key h
    generalize c.getValue env key = p at hget
    obtain ⟨v, c'⟩ := p
    cases v with
    | none => exact tidies_ok hget
    | some v => exact tidies_ok hget
  · exact tidies_ok h

lemma tidy_delKeys {keys : List Bytes} (h : c.Tidy) : (delKeys env keys c).2.Tidy := by
  induction keys generalizing c with
  | nil => exact h
  | cons key keys ih =>
    rw [delKeys]
    split
    · exact ih (tidy_expired env key h).erase
    · exact ih h

lemma tidies_readList {absent : Bytes} {reply : List VariantRedisNode → Except Fault Bytes} (h : c.Tidy) :
    Tidies (readList env key absent reply c) := by
  unfold readList
  split
  · exact tidies_ok h
  · have he := tidy_expired env key h
    generalize c.expired env key = p at he
    obtain ⟨dead, c'⟩ := p
    simp only
    split
    · exact tidies_ok he
    · apply tidies_bind (tidies_deref he)
      intro v c' hc'
      cases v with
      | aggregate vs =>
        apply tidies_bind (tidies_deref hc')
        intro w c'' hc''
        cases w with
        | aggregate ws =>
          simp only
          cases reply ws with
          | error f => exact tidies_error f
          | ok text => exact tidies_ok hc''
        | plain m b => exact tidies_error _
        | variant n => exact tidies_error _
      | plain m b => exact tidies_ok hc'
      | variant n => exact tidies_ok hc'

lemma tidies_pushInto {pushBack : Bool} {elements : List Bytes} (h : c.Tidy) :
    Tidies (pushInto env pushBack key elements c) := by
  apply tidies_bind (tidies_deref h)
  intro v c' hc'
  cases v with
  | aggregate vs => exact tidies_ok (hc'.setValue _)
  | plain m b => exact tidies_error _
  | variant n => exact tidies_error _

lemma tidies_push {pushBack : Bool} (h : c.Tidy) : Tidies (handleCommandPush env args pushBack c) := by
  unfold handleCommandPush
  split
  · rename_i key first rest
    split
    · exact tidies_pushInto (h.setValue _)
    · have he := tidy_expired env key h
      generalize c.expired env key = p at he
      obtain ⟨dead, c'⟩ := p
      simp only
      split
      · exact tidies_pushInto (he.setValue _)
      · apply tidies_bind (tidies_deref he)
        intro v c' hc'
        cases v with
        | aggregate vs => exact tidies_pushInto hc'
        | plain m b => exact tidies_ok hc'
        | variant n => exact tidies_ok hc'
  · exact tidies_ok h

lemma tidies_lAdd {increment : Int} (h : c.Tidy) : Tidies (handleCommandLAdd env args increment c) := by
  unfold handleCommandLAdd
  split
  · rename_i key
    split
    · exact tidies_writeNumber h _
    · have he := tidy_expired env key h
      generalize c.expired env key = p at he
      obtain ⟨dead, c'⟩ := p
      simp only
      split
      · exact tidies_writeNumber he _
      · apply tidies_bind (tidies_deref he)
        intro v c' hc'
        cases v with
        | aggregate vs => exact tidies_ok hc'
        | plain m b => exact tidies_ok hc'
        | variant n =>
          apply tidies_bind (tidies_deref hc')
          intro w c'' hc''
          cases w with
          | aggregate ws => exact tidies_error _
          | plain m b => exact tidies_error _
          | variant n =>
            simp only
            split
            · split
              · exact tidies_error _
              · split
                · exact tidies_writeNumber hc'' _
                · exact tidies_error _
            · exact tidies_ok hc''
  · exact tidies_ok h

lemma tidies_getTTL (h : c.Tidy) : Tidies (c.getTTL env key) := by
  unfold Cache.getTTL
  split
  · exact tidies_ok h
  · have he := tidy_expired env key h
    generalize c.expired env key = p at he
    obtain ⟨dead, c'⟩ := p
    simp only
    split
    · exact tidies_ok he
    · split
      · exact tidies_ok he
      · split
        · exact tidies_ok he
        · exact tidies_error _

lemma tidies_ttl (h : c.Tidy) : Tidies (handleCommandTTL env args c) := by
  unfold handleCommandTTL
  split
  · exact tidies_bind (tidies_getTTL h) fun _ _ => tidies_ok
  · exact tidies_ok h

lemma tidies_del (h : c.Tidy) : Tidies (handleCommandDel env args c) := tidies_ok (tidy_delKeys h)

lemma tidies_lrange (h : c.Tidy) : Tidies (handleCommandLRange env args c) := by
  unfold handleCommandLRange
  split
  · split
    · exact tidies_readList h
    · exact tidies_ok h
  · exact tidies_ok h

lemma tidies_llen (h : c.Tidy) : Tidies (handleCommandLLen env args c) := by
  unfold handleCommandLLen
  split
  · exact tidies_readList h
  · exact tidies_ok h

lemma tidies_ping (h : c.Tidy) : Tidies (handleCommandPing args c) := by
  unfold handleCommandPing
  split <;> exact tidies_ok h

lemma tidies_echo (h : c.Tidy) : Tidies (handleCommandEcho args c) := by
  unfold handleCommandEcho
  split <;> exact tidies_ok h

lemma tidies_ite {p : Prop} [Decidable p] {r r' : Except Fault (α × Cache)} (hr : Tidies r) (hr' : Tidies r') :
    Tidies (if p then r else r') := by
  by_cases hp : p
  · rwa [if_pos hp]
  · rwa [if_neg hp]

/-- Every command leaves a tidy cache. -/
theorem tidies_dispatch (h : c.Tidy) : Tidies (dispatch env args c) := by
  cases args with
  | nil => exact tidies_error _
  | cons name operands =>
    exact tidies_ite (tidies_ping h) <| tidies_ite (tidies_echo h) <| tidies_ite (tidies_set h) <|
      tidies_ite (tidies_get h) <| tidies_ite (tidies_ok h) <| tidies_ite (tidies_del h) <| tidies_ite
        (tidies_lAdd h) <|
      tidies_ite (tidies_lAdd h) <| tidies_ite (tidies_ttl h) <| tidies_ite (tidies_lrange h) <|
      tidies_ite (tidies_push h) <| tidies_ite (tidies_push h) <| tidies_ite (tidies_llen h) (tidies_ok h)

lemma tidy_dropExpired {TS : Nat} {keys : List Bytes} (h : c.Tidy) : (c.dropExpired TS keys).Tidy := by
  induction keys generalizing c with
  | nil => exact h
  | cons key keys ih =>
    rw [Cache.dropExpired]
    by_cases hp : Past TS (c.ttl.lookup key)
    · rw [if_pos hp]
      exact ih h.erase
    · rw [if_neg hp]
      exact ih h

lemma tidies_save {background : Bool} (h : c.Tidy) : Tidies (handleCommandSave env host args background c) := by
  have hsaved : (c.save env).2.Tidy := tidy_dropExpired (c := { c with tick := c.tick + 1 }) h
  exact tidies_ite (tidies_ok h) (tidies_ite (tidies_ok h) (tidies_ok hsaved))

lemma tidies_keys (h : c.Tidy) : Tidies (handleCommandKeys host args c) := by
  unfold handleCommandKeys
  split
  · split
    · exact tidies_ok h
    · exact tidies_ok h
  · exact tidies_ok h

theorem tidies_execute (h : c.Tidy) : Tidies (execute env host args c) := by
  have hserved : Tidies (handleRequest env args c) := tidies_bind (tidies_dispatch h) fun _ _ hc' => tidies_ok hc'
  cases args with
  | nil => exact tidies_error _
  | cons name operands =>
    exact tidies_ite (tidies_save h) <| tidies_ite (tidies_save h) <| tidies_ite (tidies_keys h) hserved

end Tidiness

/-- Every state that is reached has an expiry only where it has a value. -/
theorem Reachable.tidy {env : Env} {c : Cache} (h : Reachable env c) : c.Tidy := by
  have hempty : Cache.empty.Tidy := fun _ _ => rfl
  induction h with
  | empty => exact hempty
  | loaded hload => exact tidy_load hempty hload
  | request _ hserved ih =>
    rw [CommandHandler.handleRequest] at hserved
    split at hserved
    · cases hserved
    · split at hserved
      · cases hserved
      · rename_i hexec
        cases hserved
        exact tidies_execute ih _ _ hexec
    · cases hserved
      exact ih

end CppExperiments.Redis

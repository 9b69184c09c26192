import CppExperiments.Redis.Reference

/-!
# The handlers against the reference map

When the server agrees with the reference map: which states make a command go wrong, what each
handler does in all others, and that a run that meets no such state gets the replies of the
reference. Each request is compared at the last reading of the clock that it makes.
-/

namespace CppExperiments.Redis

open CppExperiments.Expiring

variable {env : Env} {c c' : Cache} {k : Bytes} {n : Nat} {op : Op} {reply : Bytes} {v : RedisNode}

/-- The index of the last reading of a request, or of its own instant if it makes none. -/
def lastReading (c c' : Cache) : Nat := max c'.tick (c.tick + 1) - 1

/-- The handler completes with the reply of the reference, and leaves the map of the reference up to
expired entries. -/
def Serves (env : Env) (c : Cache) (cmd : Command) (out : Outcome) : Prop :=
  ∃ reply c', out = .ok (reply, c') ∧ c'.Tidy ∧
    reply = (cmd.exec (env.clock (lastReading c c')) c.view).1 ∧
    Alike (env.clock (lastReading c c')) c'.view (cmd.exec (env.clock (lastReading c c')) c.view).2

lemma clock_le_lastReading (env : Env) (c c' : Cache) : env.clock c.tick ≤ env.clock (lastReading c c') := by
  apply env.mono
  unfold lastReading
  omega

lemma live_of_absent (h : c.cache.lookup k = none) (now : Nat) : live now c.view k = none := by
  rw [live, Cache.view_eq_none h]
  rfl

lemma live_of_stale (h : c.Stale env k) (c' : Cache) :
    live (env.clock (lastReading c c')) c.view k = none := by
  rw [live_eq_none_iff]
  rintro ⟨v, e⟩ hp
  have he : c.ttl.lookup k = e := by
    unfold Cache.view at hp
    cases hl : c.cache.lookup k with
    | none => simp [hl] at hp
    | some w =>
      rw [hl] at hp
      exact (Prod.ext_iff.1 (Option.some.inj hp)).2
  rw [← he]
  exact Past.mono (clock_le_lastReading env c c') h

lemma live_of_checks (hn : 1 ≤ n) (hsteady : c.Steady env k (n - 1)) (hs : ¬ c.Stale env k)
    (hl : c.cache.lookup k = some v) (htick : c'.tick = (c.checks k n).tick) :
    live (env.clock (lastReading c c')) c.view k = some (v, c.ttl.lookup k) := by
  rw [live_eq_some_iff]
  refine ⟨Cache.view_eq_some hl, ?_⟩
  cases he : c.ttl.lookup k with
  | none => exact id
  | some e =>
    have hlast : lastReading c c' = c.tick + (n - 1) := by
      rw [lastReading, htick, Cache.tick_checks he]
      omega
    have hstale := (Cache.stale_checks_iff hsteady le_rfl).not.2 hs
    unfold Cache.Stale at hstale
    rwa [Cache.ttl_checks, he, Cache.tick_checks he, ← hlast] at hstale

lemma serves_of_read {p : Option RefEntry} (ht : c'.Tidy)
    (hlive : live (env.clock (lastReading c c')) c.view k = p)
    (hview : Alike (env.clock (lastReading c c')) c'.view c.view)
    (heffect : op.effect (env.clock (lastReading c c')) p = (reply, none)) :
    Serves env c (.on k op) (.ok (reply, c')) := by
  refine ⟨reply, c', rfl, ht, ?_, ?_⟩
  · rw [Command.exec, hlive, heffect]
  · rw [Command.exec, hlive, heffect]
    exact hview

lemma serves_of_write {p : Option RefEntry} {q : RefEntry} (ht : c'.Tidy)
    (hlive : live (env.clock (lastReading c c')) c.view k = p)
    (hview : c'.view = Function.update c.view k (some q))
    (heffect : op.effect (env.clock (lastReading c c')) p = (reply, some q)) :
    Serves env c (.on k op) (.ok (reply, c')) := by
  refine ⟨reply, c', rfl, ht, ?_, ?_⟩
  · rw [Command.exec, hlive, heffect]
  · rw [Command.exec, hlive, heffect, hview]
    exact Alike.refl _ _

lemma existsKey_of_none (h : c.cache.lookup k = none) : c.existsKey k = false := by simp [Cache.existsKey, h]

lemma existsKey_of_some (h : c.cache.lookup k = some v) : c.existsKey k = true := by simp [Cache.existsKey, h]

lemma not_stale_of_none (h : c.ttl.lookup k = none) : ¬ c.Stale env k := by
  rw [Cache.Stale, h]
  exact id

lemma isSome_live (hl : c.cache.lookup k = some v) (now : Nat) :
    (live now c.view k).isSome = !decide (Past now (c.ttl.lookup k)) := by
  rw [live, Cache.view_eq_some hl, Option.filter_some]
  by_cases hp : Past now (c.ttl.lookup k)
  · simp [hp]
  · simp [hp]

lemma deref_eq (hs : ¬ c.Stale env k) (hl : c.cache.lookup k = some v) :
    deref env k c = .ok (v, c.checks k 1) := by
  rw [deref, Cache.getValue_of_not_stale hs, hl]

lemma stale_setValue (w : RedisNode) : (c.setValue k w).Stale env k ↔ c.Stale env k := Iff.rfl

lemma checks_setValue (w : RedisNode) : (c.setValue k w).checks k n = (c.checks k n).setValue k w := rfl

lemma writeNumber_eq (hs : ¬ c.Stale env k) (z : Int) :
    writeNumber env k z c = .ok ((number z).serialize, (c.checks k 1).setValue k (number z)) := by
  have hl : (c.setValue k (number z)).cache.lookup k = some (number z) := AList.lookup_insert _
  have hd := deref_eq ((stale_setValue (number z)).not.2 hs) hl
  unfold writeNumber
  change (deref env k (c.setValue k (number z)) >>= _) = _
  rw [hd]
  rfl

/-- Once the expiry test has let the key through, the handlers read its value steadily. -/
lemma deref_checks (hsteady : c.Steady env k n) (hs : ¬ c.Stale env k) (hl : c.cache.lookup k = some v)
    {i : Nat} (hi : i ≤ n) : deref env k (c.checks k i) = .ok (v, c.checks k (i + 1)) := by
  rw [deref_eq ((Cache.stale_checks_iff hsteady hi).not.2 hs) hl, Cache.checks_checks]

theorem serves_get (name : Bytes) (ht : c.Tidy) : Serves env c (.on k .get) (handleCommandGet env [name, k] c) := by
  by_cases hs : c.Stale env k
  · have hrun : handleCommandGet env [name, k] c = .ok (VariantRedisNode.nil.serialize, (c.checks k 1).erase k) := by
      simp [handleCommandGet, Cache.getValue_of_stale hs]
    rw [hrun]
    have hlive := live_of_stale hs ((c.checks k 1).erase k)
    refine serves_of_read ht.checks.erase hlive ?_ rfl
    rw [Cache.view_erase, Cache.view_checks]
    exact Alike.drop _ _ hlive
  · cases hl : c.cache.lookup k with
    | none =>
      have hrun : handleCommandGet env [name, k] c = .ok (VariantRedisNode.nil.serialize, c.checks k 1) := by
        simp [handleCommandGet, Cache.getValue_of_not_stale hs, hl]
      rw [hrun]
      exact serves_of_read ht.checks (live_of_absent hl _) (Alike.refl _ _) rfl
    | some v =>
      have hrun : handleCommandGet env [name, k] c = .ok (v.serialize, c.checks k 1) := by
        simp [handleCommandGet, Cache.getValue_of_not_stale hs, hl]
      have hsteady : c.Steady env k (1 - 1) := fun e _ => lt_or_ge e _
      rw [hrun]
      exact serves_of_read ht.checks (live_of_checks le_rfl hsteady hs hl rfl) (Alike.refl _ _) rfl

theorem serves_set (name : Bytes) (ht : c.Tidy) (value : Bytes) (hsound : c.ttl.lookup k = none) :
    Serves env c (.on k (.set value none)) (handleCommandSet env [name, k, value] c) := by
  have htidy : (c.setValue k (.variant (.ofStr value))).Tidy := ht.setValue _
  refine serves_of_write htidy rfl ?_ rfl
  rw [Cache.view_setValue, hsound]
  rfl

/-- How often an expiry option reads the clock. -/
def Expiry.looks : Expiry → Nat
  | ex _ | px _ => 1
  | exat _ | pxat _ => 0

lemma setOptions_eq {code text : Bytes} {e : Expiry} (hd : text ≠ [] ∧ text.all isDigit)
    (he : Expiry.read (lower code) (digitsValue text) = some e) (hb : e.instant (env.clock c.tick) < 2 ^ 64) :
    setOptions env k [code, text] c =
      .ok (ok, ({ c with tick := c.tick + e.looks } : Cache).setTTLMSAt k (e.instant (env.clock c.tick))) := by
  have hpre := digitPrefix_of_all hd.2 hd.1
  have hdigits : allDigitsUnsigned text = true := hd.2
  generalize digitsValue text = n at he hpre
  have hstoul : n < 2 ^ 64 → stoul text = some n := by
    intro hn
    rw [stoul, hpre, Option.filter_some, if_pos (by simpa using hn)]
  unfold Expiry.read at he
  unfold setOptions
  by_cases h1 : lower code = ascii "ex"
  · rw [if_pos h1] at he
    cases he
    have hn : n < 2 ^ 64 := by simp only [Expiry.instant] at hb; omega
    simp only [h1, true_or, not_true, if_false, hdigits, Bool.true_eq_false, hstoul hn, if_true, Cache.setTTLS_eq hb]
    rfl
  rw [if_neg h1] at he
  by_cases h2 : lower code = ascii "px"
  · rw [if_pos h2] at he
    cases he
    have hn : n < 2 ^ 64 := by simp only [Expiry.instant] at hb; omega
    simp only [h2, true_or, or_true, not_true, if_false, hdigits, Bool.true_eq_false, hstoul hn, if_true,
      Cache.setTTLMS_eq hb]
    rfl
  rw [if_neg h2] at he
  by_cases h3 : lower code = ascii "exat"
  · rw [if_pos h3] at he
    cases he
    have hn : n < 2 ^ 64 := by simp only [Expiry.instant] at hb; omega
    simp only [h3, true_or, or_true, not_true, if_false, hdigits, Bool.true_eq_false, hstoul hn,
      if_true, Cache.setTTLSAt_eq hb]
    rfl
  rw [if_neg h3] at he
  by_cases h4 : lower code = ascii "pxat"
  · rw [if_pos h4] at he
    cases he
    simp only [h4, or_true, not_true, if_false, hdigits, Bool.true_eq_false, hstoul hb]
    rfl
  · rw [if_neg h4] at he
    cases he

theorem serves_setExpiry (name : Bytes) (ht : c.Tidy) (value : Bytes) {code text : Bytes} {e : Expiry}
    (hd : text ≠ [] ∧ text.all isDigit) (he : Expiry.read (lower code) (digitsValue text) = some e)
    (hsound : e.instant (env.clock c.tick) < 2 ^ 64) :
    Serves env c (.on k (.set value (some e))) (handleCommandSet env [name, k, value, code, text] c) := by
  have hrun := setOptions_eq (c := c.setValue k (.variant (.ofStr value))) (k := k) hd he hsound
  change Serves env c _ (setOptions env k [code, text] (c.setValue k (.variant (.ofStr value))))
  rw [hrun]
  have hvalue : (c.setValue k (.variant (.ofStr value))).cache.lookup k = some (.variant (.ofStr value)) :=
    AList.lookup_insert _
  have hlast : max (c.tick + e.looks) (c.tick + 1) - 1 = c.tick := by
    cases e <;> simp [Expiry.looks]
  refine serves_of_write (q := (.variant (.ofStr value), some (e.instant (env.clock c.tick)))) ?_ rfl ?_ ?_
  · exact Cache.Tidy.setTTLMSAt (ht.setValue _) (by rw [hvalue]; rfl) _
  · refine (Cache.view_setTTLMSAt hvalue _).trans ?_
    change Function.update (c.setValue k _).view k _ = _
    rw [Cache.view_setValue, Function.update_idem]
    rfl
  · change (ok, some (RedisNode.variant (.ofStr value),
      some (e.instant (env.clock (max (c.tick + e.looks) _ - 1))))) = _
    rw [hlast]

/-- How often a handler looks at the expiry of a live list, or of what it holds in its place. -/
def listLooks : Option RedisNode → Nat
  | some (.aggregate _) => 3
  | _ => 2

theorem serves_readList {absent : Bytes} {reply : List VariantRedisNode → Except Fault Bytes}
    (answer : List VariantRedisNode → Bytes) (ht : c.Tidy) (hsteady : c.Steady env k (listLooks (c.cache.lookup k) - 1))
    (habsent : ∀ now, op.effect now none = (absent, none))
    (hlist : ∀ now vs e, op.effect now (some (.aggregate vs, e)) = (answer vs, none))
    (hother : ∀ now v e, (∀ vs, v ≠ .aggregate vs) → op.effect now (some (v, e)) = (wrongType, none))
    (hreply : ¬ c.Stale env k → ∀ vs, c.cache.lookup k = some (.aggregate vs) → reply vs = .ok (answer vs)) :
    Serves env c (.on k op) (readList env k absent reply c) := by
  unfold readList
  cases hl : c.cache.lookup k with
  | none =>
    rw [if_pos (existsKey_of_none hl)]
    exact serves_of_read ht (live_of_absent hl _) (Alike.refl _ _) (habsent _)
  | some v =>
    rw [if_neg (by simp [existsKey_of_some hl]), Cache.expired_eq]
    by_cases hs : c.Stale env k
    · simp only [hs, decide_true, if_true]
      exact serves_of_read ht.checks (live_of_stale hs _) (Alike.refl _ _) (habsent _)
    · simp only [hs, decide_false, Bool.false_eq_true, if_false]
      rw [hl] at hsteady
      cases v with
      | aggregate vs =>
        rw [deref_checks hsteady hs hl (by simp [listLooks])]
        change Serves env c _ (deref env k (c.checks k 2) >>= _)
        rw [deref_checks hsteady hs hl (by simp [listLooks])]
        change Serves env c _ (reply vs >>= _)
        rw [hreply hs vs hl]
        exact serves_of_read ht.checks (live_of_checks (by simp [listLooks]) hsteady hs hl rfl) (Alike.refl _ _)
          (hlist _ _ _)
      | plain message isNotError =>
        rw [deref_checks hsteady hs hl (by simp [listLooks])]
        exact serves_of_read ht.checks (live_of_checks (by simp [listLooks]) hsteady hs hl rfl) (Alike.refl _ _)
          (hother _ _ _ (by simp))
      | variant node =>
        rw [deref_checks hsteady hs hl (by simp [listLooks])]
        exact serves_of_read ht.checks (live_of_checks (by simp [listLooks]) hsteady hs hl rfl) (Alike.refl _ _)
          (hother _ _ _ (by simp))

theorem serves_llen (name : Bytes) (ht : c.Tidy) (hsteady : c.Steady env k (listLooks (c.cache.lookup k) - 1)) :
    Serves env c (.on k .llen) (handleCommandLLen env [name, k] c) := by
  refine serves_readList (fun vs => integer vs.length) ht hsteady (fun _ => rfl) (fun _ _ _ => rfl) ?_
    (fun _ _ _ => rfl)
  rintro now (_ | _ | vs) e hv
  · rfl
  · rfl
  · exact absurd rfl (hv vs)

lemma lrangeLoop_eq (values : List VariantRedisNode) {count curr : Nat} (h : curr + count ≤ values.length) :
    lrangeLoop values count curr = .ok (((values.drop curr).take count).flatMap VariantRedisNode.serialize) := by
  induction count generalizing curr with
  | zero => simp [lrangeLoop]
  | succ count ih =>
    have hcurr : curr < values.length := by omega
    rw [lrangeLoop, List.getElem?_eq_getElem hcurr]
    simp only []
    rw [ih (by omega), List.drop_eq_getElem_cons hcurr, List.take_succ_cons, List.flatMap_cons]
    rfl

lemma lrangeIndex_toNat (values : List VariantRedisNode) {right : Int} (h : 0 ≤ lrangeRight values.length right) :
    values.take (lrangeIndex values.length right + 1).toNat =
      values.take ((lrangeRight values.length right).toNat + 1) := by
  unfold lrangeRight at h ⊢
  by_cases hle : lrangeIndex values.length right ≤ values.length - 1
  · congr 1
    omega
  · rw [List.take_of_length_le (by omega), List.take_of_length_le (by omega)]

/-- Where the right index does not fall in front of the list, LRANGE replies with the slice. -/
theorem lrangeReply_eq (values : List VariantRedisNode) (left : Int) {right : Int}
    (h : 0 ≤ lrangeRight values.length right) :
    lrangeReply values left right = .ok (RedisNode.aggregate (slice values left right)).serialize := by
  have hleft : toSize (lrangeLeft values.length left) = (lrangeIndex values.length left).toNat := by
    unfold toSize lrangeLeft
    rw [if_pos (le_max_right _ _)]
    omega
  have hright : toSize (lrangeRight values.length right) = (lrangeRight values.length right).toNat := if_pos h
  have hslice : slice values left right =
      (values.drop (lrangeIndex values.length left).toNat).take
        ((lrangeRight values.length right).toNat + 1 - (lrangeIndex values.length left).toNat) := by
    rw [slice, lrangeIndex_toNat values h, List.drop_take]
  have hbound : (lrangeRight values.length right).toNat < values.length := by
    unfold lrangeRight at h ⊢
    omega
  have hlength : toSize (if lrangeLeft values.length left ≤ lrangeRight values.length right then
      lrangeRight values.length right - lrangeLeft values.length left + 1 else 0) =
        (slice values left right).length := by
    rw [hslice, List.length_take, List.length_drop]
    unfold toSize lrangeLeft
    split <;> split <;> omega
  unfold lrangeReply
  simp only [hleft, hright, hlength]
  by_cases hcount : (lrangeRight values.length right).toNat + 1 ≤ (lrangeIndex values.length left).toNat
  · have hempty : slice values left right = [] := by simp [hslice, Nat.sub_eq_zero_of_le hcount]
    rw [Nat.sub_eq_zero_of_le hcount, hempty]
    simp [lrangeLoop, RedisNode.serialize]
  · rw [lrangeLoop_eq values (by omega), ← hslice]
    rfl

theorem serves_lrange (name : Bytes) (ht : c.Tidy) {left right : Bytes} (hl : (numeral left).isSome)
    (hr : (numeral right).isSome)
    (hsteady : c.Steady env k (listLooks (c.cache.lookup k) - 1))
    (htext : fromChars (rightText env left right) = fromChars right)
    (hsound : ¬ c.Stale env k → ∀ vs, c.cache.lookup k = some (.aggregate vs) →
      ∀ z, fromChars right = some z → 0 ≤ lrangeRight vs.length z) :
    Serves env c (.on k (.lrange left right)) (handleCommandLRange env [name, k, left, right] c) := by
  have hparse : ∀ {text : Bytes}, (numeral text).isSome → fromChars text = integerOf text := by
    intro text htext
    obtain ⟨z, hz⟩ := Option.isSome_iff_exists.1 htext
    rw [fromChars, integerOf, signedPrefix_of_numeral hz, hz]
  rw [hparse hr] at hsound
  simp only [handleCommandLRange, htext, hparse hl, hparse hr]
  cases hil : integerOf left with
  | none => exact serves_of_read ht rfl (Alike.refl _ _) (by simp [Op.effect, hil])
  | some l =>
    cases hir : integerOf right with
    | none => exact serves_of_read ht rfl (Alike.refl _ _) (by simp [Op.effect, hil, hir])
    | some r =>
      refine serves_readList (fun vs => (RedisNode.aggregate (slice vs l r)).serialize) ht hsteady ?_ ?_ ?_ ?_
      · intro now
        simp [Op.effect, hil, hir]
      · intro now vs e
        simp [Op.effect, hil, hir]
      · rintro now (_ | _ | vs) e hv
        · simp [Op.effect, hil, hir]
        · simp [Op.effect, hil, hir]
        · exact absurd rfl (hv vs)
      · intro hs vs hvs
        exact lrangeReply_eq vs l (hsound hs vs hvs r hir)

/-- How often INCR and DECR look at the expiry of a live key. -/
def addLooks : Option RedisNode → Nat
  | some (.variant node) => if allDigitsSigned node.str then 4 else 3
  | _ => 2

lemma integerOf_of_stol {text : Bytes} {z : Int} (hd : allDigitsSigned text = true) (h : stol text = some z) :
    integerOf text = some z := by
  rcases (allDigitsSigned_iff text).1 hd with hnum | hminus
  · obtain ⟨w, hw⟩ := Option.isSome_iff_exists.1 hnum
    rwa [stol, signedPrefix_of_numeral hw, ← hw] at h
  · rw [hminus] at h
    cases h

lemma integerOf_of_not_digits {text : Bytes} (hd : allDigitsSigned text = false) : integerOf text = none := by
  have hnum : ¬ (numeral text).isSome := by
    intro h
    have hd' := (allDigitsSigned_iff text).2 (Or.inl h)
    rw [hd] at hd'
    cases hd'
  rw [integerOf, Option.not_isSome_iff_eq_none.1 hnum]
  rfl

theorem serves_add (name : Bytes) (ht : c.Tidy) {increment : Int}
    (hsteady : c.Steady env k (addLooks (c.cache.lookup k) - 1))
    (hs : ¬ c.Stale env k)
    (hsound : ∀ node, c.cache.lookup k = some (.variant node) → allDigitsSigned node.str = true →
      ∃ z, stol node.str = some z ∧ InLong (z + increment)) :
    Serves env c (.on k (.add increment)) (handleCommandLAdd env [name, k] increment c) := by
  unfold handleCommandLAdd
  cases hl : c.cache.lookup k with
  | none =>
    simp only [existsKey_of_none hl, if_true, writeNumber_eq hs]
    have hnone := ht.ttl_none hl
    rw [Cache.checks_of_none hnone]
    refine serves_of_write (ht.setValue _) (live_of_absent hl _) ?_ rfl
    rw [Cache.view_setValue, hnone]
  | some v =>
    simp only [existsKey_of_some hl, Bool.true_eq_false, if_false, Cache.expired_eq, hs, decide_false,
      Bool.false_eq_true]
    rw [hl] at hsteady
    cases v with
    | aggregate vs =>
      rw [deref_checks hsteady hs hl (by simp [addLooks])]
      exact serves_of_read ht.checks (live_of_checks (by simp [addLooks]) hsteady hs hl rfl) (Alike.refl _ _) rfl
    | plain message isNotError =>
      rw [deref_checks hsteady hs hl (by simp [addLooks])]
      exact serves_of_read ht.checks (live_of_checks (by simp [addLooks]) hsteady hs hl rfl) (Alike.refl _ _) rfl
    | variant node =>
      have hlooks : 3 ≤ addLooks (some (.variant node)) := by
        simp only [addLooks]
        split <;> omega
      rw [deref_checks hsteady hs hl (by omega)]
      change Serves env c _ (deref env k (c.checks k 2) >>= _)
      rw [deref_checks hsteady hs hl (by omega)]
      simp only [bind, Except.bind]
      cases hd : allDigitsSigned node.str with
      | false =>
        have hlooks' : addLooks (some (.variant node)) = 3 := by simp [addLooks, hd]
        rw [hlooks'] at hsteady
        refine serves_of_read ht.checks (live_of_checks (by decide) hsteady hs hl rfl) (Alike.refl _ _) ?_
        simp [Op.effect, integerOf_of_not_digits hd]
      | true =>
        have hlooks' : addLooks (some (.variant node)) = 4 := by simp [addLooks, hd]
        rw [hlooks'] at hsteady
        obtain ⟨z, hz, hrange⟩ := hsound node hl hd
        have hs3 := (Cache.stale_checks_iff hsteady le_rfl).not.2 hs
        simp only [hz, hrange, if_true, writeNumber_eq hs3, Cache.checks_checks]
        refine serves_of_write (Cache.Tidy.setValue ht.checks _) (live_of_checks (by decide) hsteady hs hl rfl)
          (Cache.view_setValue _) ?_
        simp [Op.effect, integerOf_of_stol hd hz, hrange]

/-- The insertions find the list that the handler saw or made. -/
lemma pushInto_eq (hs : ¬ c.Stale env k) {vs : List VariantRedisNode} (hl : c.cache.lookup k = some (.aggregate vs))
    (pushBack : Bool) (elements : List Bytes) :
    pushInto env pushBack k elements c =
      .ok (integer elements.length, (c.checks k 1).setValue k (.aggregate (pushAll pushBack vs elements))) := by
  unfold pushInto
  rw [deref_eq hs hl]
  rfl

theorem serves_push (name : Bytes) (ht : c.Tidy) {first : Bytes} {rest : List Bytes} {pushBack : Bool}
    (hsteady : c.Steady env k (listLooks (c.cache.lookup k) - 1)) (hs : ¬ c.Stale env k) :
    Serves env c (.on k (.push (first :: rest) pushBack))
      (handleCommandPush env (name :: k :: first :: rest) pushBack c) := by
  unfold handleCommandPush
  cases hl : c.cache.lookup k with
  | none =>
    have hnone := ht.ttl_none hl
    have hs' : ¬ (c.setValue k (.aggregate [])).Stale env k := hs
    have hl' : (c.setValue k (.aggregate [])).cache.lookup k = some (.aggregate []) := AList.lookup_insert _
    simp only [existsKey_of_none hl, if_true, pushInto_eq hs' hl']
    rw [checks_setValue, Cache.checks_of_none hnone]
    refine serves_of_write (Cache.Tidy.setValue (ht.setValue _) _) (live_of_absent hl _) ?_ rfl
    have hnone' : (c.setValue k (.aggregate [])).ttl.lookup k = none := hnone
    rw [Cache.view_setValue, hnone', Cache.view_setValue, Function.update_idem]
  | some v =>
    simp only [existsKey_of_some hl, Bool.true_eq_false, if_false, Cache.expired_eq, hs, decide_false,
      Bool.false_eq_true]
    rw [hl] at hsteady
    cases v with
    | plain message isNotError =>
      rw [deref_checks hsteady hs hl (by simp [listLooks])]
      exact serves_of_read ht.checks (live_of_checks (by simp [listLooks]) hsteady hs hl rfl) (Alike.refl _ _) rfl
    | variant node =>
      rw [deref_checks hsteady hs hl (by simp [listLooks])]
      exact serves_of_read ht.checks (live_of_checks (by simp [listLooks]) hsteady hs hl rfl) (Alike.refl _ _) rfl
    | aggregate vs =>
      have hs2 := (Cache.stale_checks_iff (n := 2) hsteady le_rfl).not.2 hs
      rw [deref_checks hsteady hs hl (by simp [listLooks])]
      change Serves env c _ (pushInto env pushBack k (first :: rest) (c.checks k 2))
      rw [pushInto_eq hs2 hl, Cache.checks_checks]
      exact serves_of_write (Cache.Tidy.setValue ht.checks _)
        (live_of_checks (n := 3) (by decide) hsteady hs hl rfl) (Cache.view_setValue _) rfl

theorem serves_ttl (name : Bytes) (ht : c.Tidy) (hsteady : c.Steady env k (2 - 1))
    (hsound : ∀ e, c.ttl.lookup k = some e → e < 2 ^ 63) :
    Serves env c (.on k .ttl) (handleCommandTTL env [name, k] c) := by
  unfold handleCommandTTL Cache.getTTL
  cases hl : c.cache.lookup k with
  | none =>
    simp only [existsKey_of_none hl, if_true]
    exact serves_of_read ht (live_of_absent hl _) (Alike.refl _ _) rfl
  | some v =>
    simp only [existsKey_of_some hl, Bool.true_eq_false, if_false, Cache.expired_eq]
    by_cases hs : c.Stale env k
    · simp only [hs, decide_true, if_true]
      exact serves_of_read ht.checks (live_of_stale hs _) (Alike.refl _ _) rfl
    · simp only [hs, decide_false, Bool.false_eq_true, if_false, Cache.ttl_checks]
      cases he : c.ttl.lookup k with
      | none =>
        have hlive := live_of_checks (by decide) hsteady hs hl (Eq.refl (c.checks k 2).tick)
        rw [Cache.checks_of_none he] at hlive ⊢
        exact serves_of_read ht hlive (Alike.refl _ _) (by rw [he]; rfl)
      | some e =>
        have htick : (c.checks k 1).tick = c.tick + 1 := Cache.tick_checks he 1
        have hnext : ({ c.checks k 1 with tick := c.tick + 1 + 1 } : Cache) = c.checks k 2 := by
          simp [Cache.checks, he]
        have hlive := live_of_checks (by decide) hsteady hs hl (Eq.refl (c.checks k 2).tick)
        have hlast : lastReading c (c.checks k 2) = c.tick + 1 := by
          rw [lastReading, Cache.tick_checks he]
          omega
        have hle : env.clock (c.tick + 1) ≤ e := by
          rcases hsteady e he with h | h
          · exact absurd (by rw [Cache.Stale, he]; exact h) hs
          · exact h
        have hvalue : Cache.toLong e - Cache.toLong (env.clock (c.tick + 1)) =
            ((e - env.clock (c.tick + 1) : Nat) : Int) := by
          rw [Cache.toLong, Cache.toLong, if_pos (hsound e he), if_pos (env.bound _), Nat.cast_sub hle]
        have hrange : InLong ((e - env.clock (c.tick + 1) : Nat) : Int) := by
          have := hsound e he
          unfold InLong
          omega
        have hreply : (if ((e - env.clock (c.tick + 1) : Nat) : Int) > 0 then
            ((e - env.clock (c.tick + 1) : Nat) : Int).tdiv 1000 else ((e - env.clock (c.tick + 1) : Nat) : Int)) =
              (((e - env.clock (c.tick + 1)) / 1000 : Nat) : Int) := by
          split
          · rfl
          · omega
        simp only [Cache.timeSinceEpoch, htick, hnext, hvalue, hrange, if_true, bind, Except.bind, hreply]
        refine serves_of_read ht.checks hlive (Alike.refl _ _) ?_
        rw [he, hlast]
        rfl

theorem serves_exist (name : Bytes) (ht : c.Tidy) {keys : List Bytes} (hs : ∀ key ∈ keys, ¬ c.Stale env key) :
    Serves env c (.exist keys) (handleCommandExists (name :: keys) c) := by
  refine ⟨_, c, rfl, ht, ?_, Alike.refl _ _⟩
  have hlast : lastReading c c = c.tick := by simp [lastReading]
  change integer _ = integer _
  congr 2
  refine List.countP_congr fun key hkey => ?_
  rw [hlast]
  cases hl : c.cache.lookup key with
  | none => simp [existsKey_of_none hl, live_of_absent hl]
  | some v =>
    have hlive : live (env.clock c.tick) c.view key = some (v, c.ttl.lookup key) :=
      live_eq_some_iff.2 ⟨Cache.view_eq_some hl, hs key hkey⟩
    simp [existsKey_of_some hl, hlive]

/-- How often DEL looks at an expiry. -/
def delLooks : List Bytes → Cache → Nat
  | [], _ => 0
  | key :: rest, c =>
    if c.existsKey key then
      (if (c.ttl.lookup key).isSome then 1 else 0) + delLooks rest ((c.checks key 1).erase key)
    else delLooks rest c

/-- If no verdict changes up to the reading `N`, DEL counts and erases as it would at that reading. -/
lemma delKeys_eq (keys : List Bytes) {N : Nat} (ht : c.Tidy) (hN : c.tick + delLooks keys c ≤ N + 1)
    (hsteady : ∀ key ∈ keys, ∀ e, c.ttl.lookup key = some e → e < env.clock c.tick ∨ env.clock N ≤ e) :
    (delKeys env keys c).1 = (delEach (env.clock N) keys c.view).1 ∧
    (delKeys env keys c).2.view = (delEach (env.clock N) keys c.view).2 ∧
    (delKeys env keys c).2.tick = c.tick + delLooks keys c ∧ (delKeys env keys c).2.Tidy := by
  induction keys generalizing c with
  | nil => exact ⟨rfl, rfl, rfl, ht⟩
  | cons key rest ih =>
    rw [List.forall_mem_cons] at hsteady
    cases hl : c.cache.lookup key with
    | none =>
      have hrun : delKeys env (key :: rest) c = delKeys env rest c := by simp [delKeys, existsKey_of_none hl]
      have hlooks : delLooks (key :: rest) c = delLooks rest c := by simp [delLooks, existsKey_of_none hl]
      have hupdate : Function.update c.view key none = c.view :=
        Function.update_eq_self_iff.2 (Cache.view_eq_none hl).symm
      rw [hlooks] at hN ⊢
      rw [hrun]
      simpa [delEach, hupdate, live_of_absent hl] using ih ht hN hsteady.2
    | some v =>
      have hexists := existsKey_of_some hl
      have hlooks : delLooks (key :: rest) c =
          (if (c.ttl.lookup key).isSome then 1 else 0) + delLooks rest ((c.checks key 1).erase key) := by
        rw [delLooks, if_pos hexists]
      have htick : ((c.checks key 1).erase key).tick = c.tick + if (c.ttl.lookup key).isSome then 1 else 0 := rfl
      have hrest := ih (c := (c.checks key 1).erase key) ht.checks.erase (by omega) ?_
      · have hlive : (live (env.clock N) c.view key).isSome = !decide (c.Stale env key) := by
          rw [isSome_live hl]
          congr 1
          refine decide_eq_decide.2 ?_
          unfold Cache.Stale
          cases he : c.ttl.lookup key with
          | none => rfl
          | some e =>
            have hle : env.clock c.tick ≤ env.clock N := by
              simp only [hlooks, he, Option.isSome_some, if_true] at hN
              exact env.mono (by omega)
            change e < _ ↔ e < _
            rcases hsteady.1 e he with h | h
            · exact ⟨fun _ => h, fun _ => lt_of_lt_of_le h hle⟩
            · exact ⟨fun h' => absurd h (not_le.2 h'), fun h' => lt_of_lt_of_le h' hle⟩
        have hrun : delKeys env (key :: rest) c =
            ((delKeys env rest ((c.checks key 1).erase key)).1 + (!decide (c.Stale env key)).toNat,
              (delKeys env rest ((c.checks key 1).erase key)).2) := by
          rw [delKeys, if_pos hexists, Cache.expired_eq]
        rw [hrun, hlooks, delEach, hlive]
        rw [Cache.view_erase, Cache.view_checks, htick] at hrest
        refine ⟨by rw [hrest.1], hrest.2.1, by rw [hrest.2.2.1]; omega, hrest.2.2.2⟩
      · intro key' hkey' e he
        by_cases hkk : key' = key
        · subst hkk
          simp [Cache.erase] at he
        · rw [Cache.erase, AList.lookup_erase_ne hkk, Cache.ttl_checks] at he
          rcases hsteady.2 key' hkey' e he with h | h
          · exact Or.inl (lt_of_lt_of_le h (env.mono (by rw [htick]; omega)))
          · exact Or.inr h

theorem serves_del (name : Bytes) (ht : c.Tidy) {keys : List Bytes}
    (hsteady : ∀ key ∈ keys, c.Steady env key (delLooks keys c - 1)) :
    Serves env c (.del keys) (handleCommandDel env (name :: keys) c) := by
  obtain ⟨h1, h2, h3, h4⟩ := delKeys_eq keys (N := c.tick + (delLooks keys c - 1)) ht (by omega) hsteady
  have hlast : lastReading c (delKeys env keys c).2 = c.tick + (delLooks keys c - 1) := by
    rw [lastReading, h3]
    omega
  refine ⟨_, (delKeys env keys c).2, rfl, h4, ?_, ?_⟩
  · rw [hlast, Command.exec, ← h1]
    rfl
  · rw [hlast, Command.exec, ← h2]
    exact Alike.refl _ _

/-- What keeps an operation on a key away from the states in which its handler goes wrong: the key has no
expiry that SET would leave behind, no expired value that INCR, DECR or a push would write over, no
number that INCR or DECR cannot add to, no list that the right index of LRANGE falls in front of; the
expiry fits the words it is stored in; and it does not pass while the handler looks at it. -/
def Op.Sound (env : Env) (c : Cache) (key : Bytes) : Op → Prop
  | set _ none => c.ttl.lookup key = none
  | set _ (some e) => e.instant (env.clock c.tick) < 2 ^ 64
  | get => True
  | add increment =>
    c.Steady env key (addLooks (c.cache.lookup key) - 1) ∧ ¬ c.Stale env key ∧
      ∀ node, c.cache.lookup key = some (.variant node) → allDigitsSigned node.str = true →
        ∃ z, stol node.str = some z ∧ InLong (z + increment)
  | push _ _ => c.Steady env key (listLooks (c.cache.lookup key) - 1) ∧ ¬ c.Stale env key
  | llen => c.Steady env key (listLooks (c.cache.lookup key) - 1)
  | lrange left right =>
    c.Steady env key (listLooks (c.cache.lookup key) - 1) ∧
      fromChars (rightText env left right) = fromChars right ∧
      (¬ c.Stale env key → ∀ vs, c.cache.lookup key = some (.aggregate vs) →
        ∀ z, fromChars right = some z → 0 ≤ lrangeRight vs.length z)
  | ttl => c.Steady env key (2 - 1) ∧ ∀ e, c.ttl.lookup key = some e → e < 2 ^ 63

/-- EXISTS counts expired keys; DEL is right as long as no expiry passes while it looks at the keys. -/
def Command.Sound (env : Env) (c : Cache) : Command → Prop
  | on key op => op.Sound env c key
  | exist keys => ∀ key ∈ keys, ¬ c.Stale env key
  | del keys => ∀ key ∈ keys, c.Steady env key (delLooks keys c - 1)

/-- In a state that is sound for it, a command is served as the reference serves it. -/
theorem serves_dispatch {args : List Bytes} {cmd : Command} (hw : Written args cmd) (ht : c.Tidy)
    (hsound : cmd.Sound env c) : Serves env c cmd (dispatch env args c) := by
  cases hw with
  | @set name h key value =>
    simp only [dispatch, h]
    exact serves_set name ht value hsound
  | @setExpiry name code text e h key value hd he =>
    simp only [dispatch, h]
    exact serves_setExpiry name ht value hd he hsound
  | @get name h key =>
    simp only [dispatch, h]
    exact serves_get name ht
  | @exist name h keys =>
    simp only [dispatch, h]
    exact serves_exist name ht hsound
  | @del name h keys =>
    simp only [dispatch, h]
    exact serves_del name ht hsound
  | @incr name h key =>
    simp only [dispatch, h]
    exact serves_add name ht hsound.1 hsound.2.1 hsound.2.2
  | @decr name h key =>
    simp only [dispatch, h]
    exact serves_add name ht hsound.1 hsound.2.1 hsound.2.2
  | @lpush name h key first rest =>
    simp only [dispatch, h]
    exact serves_push name ht hsound.1 hsound.2
  | @rpush name h key first rest =>
    simp only [dispatch, h]
    exact serves_push name ht hsound.1 hsound.2
  | @llen name h key =>
    simp only [dispatch, h]
    exact serves_llen name ht hsound
  | @lrange name left right h key hl hr =>
    simp only [dispatch, h]
    exact serves_lrange name ht hl hr hsound.1 hsound.2.1 hsound.2.2
  | @ttl name h key =>
    simp only [dispatch, h]
    exact serves_ttl name ht hsound.1 hsound.2

/-- The server in step with the reference: the same live entries at the last reading of the clock. -/
structure InStep (env : Env) (c : Cache) (m : RefMap) : Prop where
  tidy : c.Tidy
  alike : Alike (env.clock (c.tick - 1)) c.view m

lemma inStep_empty (env : Env) : InStep env Cache.empty (fun _ => none) where
  tidy := fun _ _ => rfl
  alike := Alike.refl _ _

/-- One sound request: it completes, its reply is that of the reference, and server and reference stay
in step. -/
theorem InStep.request {m : RefMap} (h : InStep env c m) (r : Request) (hsound : r.command.Sound env c) :
    ∃ reply c', handleRequest env r.args c = .ok (reply, c') ∧
      reply = (r.command.exec (env.clock (c'.tick - 1)) m).1 ∧
      InStep env c' (r.command.exec (env.clock (c'.tick - 1)) m).2 := by
  obtain ⟨reply, c', hrun, htidy, hreply, hview⟩ := serves_dispatch r.written h.tidy hsound
  have hle : env.clock (c.tick - 1) ≤ env.clock (lastReading c c') :=
    (env.mono (Nat.sub_le _ _)).trans (clock_le_lastReading env c c')
  obtain ⟨hexec, hexec'⟩ := Alike.exec r.command (h.alike.mono hle)
  refine ⟨reply, { c' with tick := max c'.tick (c.tick + 1) }, ?_, ?_, htidy, ?_⟩
  · rw [handleRequest, hrun]
    rfl
  · rw [hreply, hexec]
    rfl
  · exact hview.trans hexec'

/-- Every request of the run completes with the reply of the reference map. -/
def Agrees (env : Env) : List Request → Cache → RefMap → Prop
  | [], _, _ => True
  | r :: rest, c, m =>
    match handleRequest env r.args c with
    | .error _ => False
    | .ok (reply, c') =>
      reply = (r.command.exec (env.clock (c'.tick - 1)) m).1 ∧
        Agrees env rest c' (r.command.exec (env.clock (c'.tick - 1)) m).2

instance decidableAgrees (env : Env) : ∀ run c m, Decidable (Agrees env run c m)
  | [], _, _ => isTrue trivial
  | r :: rest, c, m =>
    have : Decidable (match handleRequest env r.args c with
        | .error _ => False
        | .ok (reply, c') =>
          reply = (r.command.exec (env.clock (c'.tick - 1)) m).1 ∧
            Agrees env rest c' (r.command.exec (env.clock (c'.tick - 1)) m).2) :=
      match handleRequest env r.args c with
      | .error _ => isFalse id
      | .ok (_, c') =>
        have := decidableAgrees env rest c' (r.command.exec (env.clock (c'.tick - 1)) m).2
        inferInstance
    this

/-- Every request of the run finds a state that is sound for its command. -/
def SoundRun (env : Env) : List Request → Cache → Prop
  | [], _ => True
  | r :: rest, c =>
    r.command.Sound env c ∧
      match handleRequest env r.args c with
      | .error _ => True
      | .ok (_, c') => SoundRun env rest c'

theorem InStep.agrees {m : RefMap} (h : InStep env c m) {run : List Request} (hrun : SoundRun env run c) :
    Agrees env run c m := by
  induction run generalizing c m with
  | nil => trivial
  | cons r rest ih =>
    obtain ⟨reply, c', hdone, hreply, hstep⟩ := h.request r hrun.1
    have hrest := hrun.2
    unfold Agrees
    rw [hdone] at hrest ⊢
    exact ⟨hreply, ih hstep hrest⟩

/-- On a run of sound requests the server answers as the reference map does. -/
theorem agrees_of_soundRun (env : Env) (run : List Request) (h : SoundRun env run Cache.empty) :
    Agrees env run Cache.empty (fun _ => none) := (inStep_empty env).agrees h

/-- A clock that stands at the tenth millisecond. -/
def standing : Env where
  clock := fun _ => 10
  strayEnd := fun _ _ => none
  mono := fun _ _ _ => le_rfl
  bound := fun _ => by decide

def k₀ : Bytes := ascii "k"

def incrRun : List Request :=
  [⟨[ascii "SET", k₀, ascii "41", ascii "PX", ascii "5000"], .on k₀ (.set (ascii "41") (some (.px 5000))),
      .setExpiry rfl k₀ (ascii "41") (by decide) rfl⟩,
    ⟨[ascii "INCR", k₀], .on k₀ (.add 1), .incr rfl k₀⟩, ⟨[ascii "GET", k₀], .on k₀ .get, .get rfl k₀⟩]

theorem agrees_incrRun : Agrees standing incrRun Cache.empty (fun _ => none) := by
  refine agrees_of_soundRun standing incrRun (And.intro ?_ (And.intro ⟨?_, ?_, ?_⟩ (And.intro trivial trivial)))
  · exact (by decide : 10 + 5000 < 2 ^ 64)
  · rintro e he
    cases he
    decide
  · decide
  · rintro node hnode -
    cases hnode
    exact ⟨41, by decide, by decide⟩

/-- SET with an expiry that is over, SET without one, GET. -/
def overwriteRun : List Request :=
  [⟨[ascii "SET", k₀, ascii "a", ascii "PXAT", ascii "5"], .on k₀ (.set (ascii "a") (some (.pxat 5))),
      .setExpiry rfl k₀ (ascii "a") (by decide) rfl⟩,
    ⟨[ascii "SET", k₀, ascii "b"], .on k₀ (.set (ascii "b") none), .set rfl k₀ (ascii "b")⟩,
    ⟨[ascii "GET", k₀], .on k₀ .get, .get rfl k₀⟩]

/-- The old expiry survives the second SET, and takes its value away. -/
theorem not_agrees_overwrite : ¬ Agrees standing overwriteRun Cache.empty (fun _ => none) := by decide

end CppExperiments.Redis

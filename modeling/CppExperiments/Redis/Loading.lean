import CppExperiments.Redis.Dump

/-!
# Loading any file

What `Cache::load` does to the cache when the file is not one that `save` wrote.
-/

namespace CppExperiments.Redis

variable {α β : Type} {r : Except LoadFault α} {s : Bytes} {b b' type : UInt8} {count rounds : Nat}

/-- The loader comes to an end, and where it returns, what it returns satisfies `Q`. An exception thrown is
an end; the use of an uninitialized variable is not, as the program may do anything then. -/
def Ensures (r : Except LoadFault α) (Q : α → Prop) : Prop :=
  match r with
  | .ok a => Q a
  | .error .diverged => False
  | .error .indeterminate => False
  | .error .lengthError => True
  | .error (.aborted _) => True

lemma ensures_ok (a : α) (Q : α → Prop) : Ensures (.ok a) Q ↔ Q a := Iff.rfl

lemma ensures_bind (r : Except LoadFault α) (f : α → Except LoadFault β) (Q : β → Prop) :
    Ensures (r >>= f) Q ↔ Ensures r (fun a => Ensures (f a) Q) := by
  cases r with
  | ok a => rfl
  | error e => cases e <;> rfl

lemma Ensures.imp {Q Q' : α → Prop} (h : Ensures r Q) (himp : ∀ a, r = .ok a → Q a → Q' a) : Ensures r Q' := by
  cases r with
  | ok a => exact himp a rfl h
  | error e => cases e <;> exact h

lemma ensures_readEncodedString (s : Bytes) (Q : Bytes × Bytes → Prop) :
    Ensures (readEncodedString s) Q ↔ 8 ≤ s.length ∧ (lengthOf s < 2 ^ 63 → Q (payload s, behind s)) := by
  rw [readEncodedString]
  by_cases hcut : s.length < 8
  · rw [if_pos hcut]
    exact ⟨False.elim, fun h => absurd h.1 (not_le.2 hcut)⟩
  · rw [if_neg hcut]
    by_cases hlong : 2 ^ 63 ≤ lengthOf s
    · rw [if_pos hlong]
      exact ⟨fun _ => ⟨not_lt.1 hcut, fun h => absurd h (not_lt.2 hlong)⟩, fun _ => trivial⟩
    · rw [if_neg hlong]
      exact ⟨fun h => ⟨not_lt.1 hcut, fun _ => h⟩, fun h => h.2 (not_le.1 hlong)⟩

/-- Every entry has room for its two lengths, and the last one is followed by the end marker; behind an
entry that makes the loader throw nothing matters. -/
def EntriesSound : Nat → UInt8 → Bytes → Prop
  | 0, type, s => (get type s).1 = 255
  | count + 1, type, s =>
    let (_, type, s) := readMarker type s
    8 ≤ s.length ∧ (lengthOf s < 2 ^ 63 →
      8 ≤ (behind s).length ∧ (lengthOf (behind s) < 2 ^ 63 →
        (deserialize (payload (behind s))).isOk → EntriesSound count type (behind (behind s))))

/-- Where the selector and the size marker are there, the entries are sound, if there are any. -/
def DatabaseSound (nextByte : UInt8) (s : Bytes) : Prop :=
  nextByte = 254 →
    let (nextByte, s) := get nextByte s
    let (nextByte, s) := get nextByte s
    nextByte = 251 → lengthOf s = 0 ∨ EntriesSound (lengthOf s) nextByte ((s.drop 8).drop 8)

/-- The auxiliary fields have room for their lengths, up to one whose length is too large for a string, or up
to a marker that is there. -/
inductive AuxSound : UInt8 → Bytes → Prop where
  | marker {nextByte : UInt8} {s : Bytes} : nextByte ≠ 250 → DatabaseSound nextByte s → AuxSound nextByte s
  | longKey {s : Bytes} : 8 ≤ s.length → 2 ^ 63 ≤ lengthOf s → AuxSound 250 s
  | longValue {s : Bytes} : 8 ≤ s.length → lengthOf s < 2 ^ 63 → 8 ≤ (behind s).length → 2 ^ 63 ≤ lengthOf (behind s) →
      AuxSound 250 s
  | field {s : Bytes} : 8 ≤ s.length → lengthOf s < 2 ^ 63 → 8 ≤ (behind s).length → lengthOf (behind s) < 2 ^ 63 →
      AuxSound (get 250 (behind (behind s))).1 (get 250 (behind (behind s))).2 → AuxSound 250 s

/-- The file is another one from its header on, or it goes on behind the header soundly. -/
def Sound (content : Bytes) : Prop :=
  if content.take 9 = Cache.header then
    match content.drop 9 with
    | [] => False
    | nextByte :: s => AuxSound nextByte s
  else ¬ content <+: Cache.header

/-- The load comes to an end, and leaves the cache as it was if it returns false. -/
def Atomic (content : Bytes) (c : Cache) : Prop :=
  Ensures (c.load content) (fun p => p.1 = false → p.2 = c)

lemma length_behind_lt (h : 8 ≤ s.length) : (behind s).length < s.length := by
  rw [behind, List.length_drop, List.length_drop]
  omega

lemma length_get_le (b : UInt8) (s : Bytes) : (get b s).2.length ≤ s.length := by
  cases s with
  | nil => exact le_rfl
  | cons c s => exact Nat.le_succ _

/-- With as many rounds as there are bytes the loop over the auxiliary fields comes to an end. -/
theorem auxSound_iff (h : s.length < rounds) :
    AuxSound b s ↔ Ensures (auxFields rounds b s) (fun p => DatabaseSound p.1 p.2) := by
  induction rounds generalizing b s with
  | zero => omega
  | succ rounds ih =>
    by_cases hb : b = 250
    · subst hb
      have hrest : 8 ≤ s.length → 8 ≤ (behind s).length →
          (AuxSound (get 250 (behind (behind s))).1 (get 250 (behind (behind s))).2 ↔
            Ensures (auxFields rounds (get 250 (behind (behind s))).1 (get 250 (behind (behind s))).2)
              (fun p => DatabaseSound p.1 p.2)) := by
        intro hk hv
        have h1 := length_behind_lt hk
        have h2 := length_behind_lt hv
        have h3 := length_get_le 250 (behind (behind s))
        exact ih (by omega)
      rw [auxFields, if_pos rfl, ensures_bind, ensures_readEncodedString]
      simp only [ensures_bind, ensures_readEncodedString]
      constructor
      · intro hsound
        cases hsound with
        | marker hne _ => exact absurd rfl hne
        | longKey hk hlong => exact ⟨hk, fun hlt => absurd hlt (not_lt.2 hlong)⟩
        | longValue hk _ hv hlong => exact ⟨hk, fun _ => ⟨hv, fun hlt => absurd hlt (not_lt.2 hlong)⟩⟩
        | field hk _ hv _ hsound => exact ⟨hk, fun _ => ⟨hv, fun _ => (hrest hk hv).1 hsound⟩⟩
      · rintro ⟨hk, hvalue⟩
        by_cases hkey : lengthOf s < 2 ^ 63
        · obtain ⟨hv, hfields⟩ := hvalue hkey
          by_cases hlt : lengthOf (behind s) < 2 ^ 63
          · exact AuxSound.field hk hkey hv hlt ((hrest hk hv).2 (hfields hlt))
          · exact AuxSound.longValue hk hkey hv (not_lt.1 hlt)
        · exact AuxSound.longKey hk (not_lt.1 hkey)
    · rw [auxFields, if_neg hb, ensures_ok]
      constructor
      · intro hsound
        cases hsound with
        | marker _ hdb => exact hdb
        | longKey _ _ => exact absurd rfl hb
        | longValue _ _ _ _ => exact absurd rfl hb
        | field _ _ _ _ _ => exact absurd rfl hb
      · exact AuxSound.marker hb

lemma readEncodedString_ne_diverged (s : Bytes) : readEncodedString s ≠ .error .diverged := by
  rw [readEncodedString]
  split
  · simp
  · split <;> simp

lemma length_of_readEncodedString {p : Bytes × Bytes} (h : readEncodedString s = .ok p) : p.2.length < s.length := by
  rw [readEncodedString] at h
  by_cases hcut : s.length < 8
  · rw [if_pos hcut] at h
    cases h
  · rw [if_neg hcut] at h
    split at h
    · cases h
    · cases h
      exact length_behind_lt (not_lt.1 hcut)

/-- The bound on the rounds is never what ends a load. -/
theorem auxFields_ne_diverged (h : s.length < rounds) : auxFields rounds b s ≠ .error .diverged := by
  induction rounds generalizing b s with
  | zero => omega
  | succ rounds ih =>
    have hs := readEncodedString_ne_diverged s
    rw [auxFields]
    simp only [bind, Except.bind]
    split
    · cases hkey : readEncodedString s with
      | error f =>
        rw [hkey] at hs
        simpa using hs
      | ok p =>
        have hp := readEncodedString_ne_diverged p.2
        simp only
        cases hvalue : readEncodedString p.2 with
        | error f =>
          rw [hvalue] at hp
          simpa using hp
        | ok q =>
          have h1 := length_of_readEncodedString hkey
          have h2 := length_of_readEncodedString hvalue
          have h3 := length_get_le b q.2
          have hlt : (get b q.2).2.length < rounds := by omega
          exact ih hlt
    · simp

theorem entriesSound_iff (c : Cache) :
    EntriesSound count b s ↔ Ensures (readEntries count b s c) (fun p => (get p.1 p.2.1).1 = 255) := by
  induction count generalizing b s c with
  | zero => exact Iff.rfl
  | succ count ih =>
    rw [EntriesSound, readEntries]
    simp only [ensures_bind, ensures_readEncodedString]
    apply and_congr_right
    intro _
    apply imp_congr_right
    intro _
    apply and_congr_right
    intro _
    apply imp_congr_right
    intro _
    cases deserialize (payload (behind (readMarker b s).2.2)) with
    | error a => exact ⟨fun _ => trivial, fun _ h => absurd h (by simp [Except.isOk, Except.toBool])⟩
    | ok node => exact ⟨fun h => (ih _).1 (h rfl), fun h _ => (ih _).2 h⟩

lemma Cache.lookup_insert_isSome (c : Cache) (key : Bytes) (node : RedisNode) (t : Option Nat) :
    ((c.insert key node t).cache.lookup key).isSome := by
  cases t with
  | none => simp [Cache.insert, Cache.setValue]
  | some e => simp [Cache.insert, Cache.setValue, Cache.setTTLMSAt]

/-- Every entry that is read is put in. -/
lemma readEntries_inv {c : Cache} {out : UInt8 × Bytes × Cache} (h : readEntries (count + 1) b s c = .ok out) :
    ∃ type s' key node t, readEntries count type s' (c.insert key node t) = .ok out := by
  rw [readEntries] at h
  simp only [bind, Except.bind] at h
  cases hkey : readEncodedString (readMarker b s).2.2 with
  | error f => simp [hkey] at h
  | ok p =>
    cases hvalue : readEncodedString p.2 with
    | error f => simp [hkey, hvalue] at h
    | ok q =>
      cases hnode : deserialize q.1 with
      | error a => simp [hkey, hvalue, hnode] at h
      | ok node =>
        simp only [hkey, hvalue, hnode] at h
        exact ⟨_, _, _, _, _, h⟩

/-- Entries that have been read leave a cache that is not empty. -/
lemma readEntries_ne_empty {c c' : Cache} {s' : Bytes} (h : readEntries count b s c = .ok (b', s', c'))
    (hne : count ≠ 0 ∨ c.cache ≠ ∅) : c'.cache ≠ ∅ := by
  induction count generalizing b s c with
  | zero =>
    cases h
    exact hne.resolve_left (fun h => h rfl)
  | succ count ih =>
    obtain ⟨type, rest, key, node, t, hrest⟩ := readEntries_inv h
    apply ih hrest
    right
    intro hempty
    have hsome := c.lookup_insert_isSome key node t
    rw [hempty, AList.lookup_empty] at hsome
    cases hsome

lemma tidy_readEntries {c c' : Cache} {s' : Bytes} (hc : c.Tidy) (h : readEntries count b s c = .ok (b', s', c')) :
    c'.Tidy := by
  induction count generalizing b s c with
  | zero =>
    cases h
    exact hc
  | succ count ih =>
    obtain ⟨type, rest, key, node, t, hrest⟩ := readEntries_inv h
    exact ih (hc.insert node t) hrest

/-- What is loaded has an expiry only where it has a value. -/
theorem tidy_load {content : Bytes} {c c' : Cache} {ok : Bool} (hc : c.Tidy) (h : c.load content = .ok (ok, c')) :
    c'.Tidy := by
  rw [Cache.load] at h
  split at h
  · split at h
    · cases h
    · cases h
      exact hc
  · split at h
    · cases h
    · rename_i nextByte s _
      cases haux : auxFields (s.length + 1) nextByte s with
      | error f =>
        rw [haux] at h
        cases h
      | ok p =>
        rw [haux] at h
        change c.loadDatabase p.1 p.2 = _ at h
        rw [Cache.loadDatabase] at h
        split at h
        · cases h
          exact hc
        · simp only at h
          split at h
          · cases h
            exact hc
          · cases hread : readEntries (lengthOf (get (get p.1 p.2).1 (get p.1 p.2).2).2)
              (get (get p.1 p.2).1 (get p.1 p.2).2).1
                (((get (get p.1 p.2).1 (get p.1 p.2).2).2.drop 8).drop 8) c with
            | error f =>
              rw [hread] at h
              cases h
            | ok out =>
              rw [hread] at h
              cases h
              exact tidy_readEntries hc hread

lemma ensures_forall {ι : Type} [Nonempty ι] (r : Except LoadFault α) (Q : ι → α → Prop) :
    (∀ i, Ensures r (Q i)) ↔ Ensures r (fun a => ∀ i, Q i a) := by
  cases r with
  | ok a => rfl
  | error e => cases e <;> simp [Ensures]

instance : Nonempty Cache := ⟨Cache.empty⟩

/-- Without entries nothing is put in; with entries the end marker must be there. -/
lemma entriesSound_iff_atomic :
    (∀ c : Cache, Ensures (readEntries count b s c) (fun p => decide ((get p.1 p.2.1).1 = 255) = false → p.2.2 = c)) ↔
      count = 0 ∨ EntriesSound count b s := by
  constructor
  · intro h
    by_cases hcount : count = 0
    · exact Or.inl hcount
    · right
      apply (entriesSound_iff Cache.empty).2
      apply (h Cache.empty).imp
      rintro ⟨b', s', c'⟩ hread hend
      by_contra hne
      have hempty : c' = Cache.empty := hend (decide_eq_false hne)
      apply readEntries_ne_empty hread (Or.inl hcount)
      rw [hempty]
      rfl
  · rintro (hcount | hsound) c
    · subst hcount
      exact fun _ => rfl
    · apply ((entriesSound_iff c).1 hsound).imp
      rintro ⟨b', s', c'⟩ _ hend hne
      exact absurd hend (of_decide_eq_false hne)

lemma databaseSound_iff :
    DatabaseSound b s ↔ ∀ c : Cache, Ensures (c.loadDatabase b s) (fun p => p.1 = false → p.2 = c) := by
  simp only [DatabaseSound, Cache.loadDatabase]
  by_cases hselector : b = 254
  · by_cases hsize : (get (get b s).1 (get b s).2).1 = 251
    · simp only [hselector] at hsize ⊢
      simp only [hsize, ne_eq, not_true, if_false, ensures_bind, true_imp_iff]
      exact entriesSound_iff_atomic.symm
    · simp only [hselector] at hsize ⊢
      simp [hsize, ensures_ok]
  · simp [hselector, ensures_ok]

/-- Loading a file is atomic, whatever the cache, exactly if the file is sound. -/
theorem atomic_iff (content : Bytes) : (∀ c, Atomic content c) ↔ Sound content := by
  simp only [Atomic, Sound, Cache.load]
  by_cases htake : content.take 9 = Cache.header
  · simp only [htake, ne_eq, not_true, if_false, if_true]
    cases content.drop 9 with
    | nil => simp [Ensures]
    | cons b s =>
      simp only [ensures_bind]
      rw [ensures_forall, auxSound_iff (Nat.lt_succ_self s.length)]
      simp only [databaseSound_iff]
  · simp only [htake, ne_eq, not_false_eq_true, if_true, if_false]
    by_cases hp : content <+: Cache.header
    · simp [hp, Ensures]
    · simp [hp, Ensures]

/-- A dump of one entry that lacks its last byte. -/
def truncated : Bytes :=
  Cache.header ++ [254, 0, 251] ++ leBytes 8 1 ++ leBytes 8 0 ++ 86 :: (encodedString (ascii "k") ++
    encodedString (VariantRedisNode.ofStr (ascii "v")).serialize)

/-- It is refused, but its entry stays in the cache. -/
theorem not_atomic_truncated : ¬ Atomic truncated Cache.empty := by
  intro h
  have hload : (Cache.empty.load truncated).map (fun p => (p.1, p.2.cache.keys)) = .ok (false, [ascii "k"]) := by decide
  rw [Atomic] at h
  cases hr : Cache.empty.load truncated with
  | error f =>
    rw [hr] at hload
    cases hload
  | ok p =>
    rw [hr] at h hload
    have hpair : (p.1, p.2.cache.keys) = (false, [ascii "k"]) := Except.ok.inj hload
    have hkeys : p.2.cache.keys = [ascii "k"] := congrArg Prod.snd hpair
    rw [h (congrArg Prod.fst hpair)] at hkeys
    cases hkeys

end CppExperiments.Redis

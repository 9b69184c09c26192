import CppExperiments.Bitcask.Store
import CppExperiments.Lib.Latest

/-!
# Recovery

The cask files as logs of writes, and what a new instance makes of them: for every key the write that is
left over when the records are read in the order of the directory.
-/

namespace CppExperiments.Bitcask

open Latest

variable {casks : Casks} {keyDir : KeyDir} {s : Bitcask} {w : Write} {ws ws' : List Write} {k : Bytes}
  {id id' pos logSize fuel : Nat} {recs : Nat → List Write} {torn : Nat → Bytes} {calls : List (Write × Nat)}

/-! ## Files -/

lemma content_insert (casks : Casks) (id id' : Nat) (bytes : Bytes) :
    Casks.content (casks.insert id bytes) id' = if id' = id then bytes else casks.content id' := by
  by_cases h : id' = id
  · subst h
    simp [Casks.content]
  · simp [Casks.content, h, AList.lookup_insert_ne h]

@[simp] lemma content_openApp (casks : Casks) (id id' : Nat) : (casks.openApp id).content id' = casks.content id' := by
  rw [Casks.openApp, content_insert]
  split_ifs with h
  · rw [h]
  · rfl

lemma content_append (casks : Casks) (id id' : Nat) (bytes : Bytes) :
    (casks.append id bytes).content id' = casks.content id' ++ if id' = id then bytes else [] := by
  rw [Casks.append, content_insert]
  split_ifs with h
  · rw [h]
  · rw [List.append_nil]

@[simp] lemma content_ensureLogSizeLimits (casks : Casks) (id id' : Nat) :
    (casks.ensureLogSizeLimits logSize id).1.content id' = casks.content id' := by
  rw [Casks.ensureLogSizeLimits]
  split_ifs
  · exact content_openApp _ _ _
  · rfl

/-- Only the content matters for what is read. -/
lemma readValue_congr {casks casks' : Casks} {kdVal : KeyDirValue}
    (h : casks.content kdVal.id = casks'.content kdVal.id) : casks.readValue kdVal = casks'.readValue kdVal := by
  rw [Casks.readValue, Casks.readValue, h]

lemma readValue_eq {pre val post : Bytes} {tstamp : Nat} (h : casks.content id = pre ++ val ++ post) :
    casks.readValue ⟨id, val.length, pre.length, tstamp⟩ = val := by
  have hfound : ((pre ++ val ++ post).drop pre.length).take val.length = val := by simp
  rw [Casks.readValue, h]
  simp only [hfound, Nat.sub_self]
  exact List.append_nil val

/-! ## Writes and their records -/

def Write.key : Write → Bytes
  | set key _ _ => key
  | erase key => key

/-- The record of a write; it does not depend on its place. -/
def Write.entry : Write → FileEntry
  | set key value now => FileEntry.create now key value 0
  | erase key => FileEntry.tombstone key

def Write.record (w : Write) : Bytes := w.entry.write

/-- What recovery takes a write for: a set of nothing at the last instant looks like an erasure. -/
def Write.mark (w : Write) : Mark Bytes Nat :=
  if w.entry.isTombstone then .del else .put w.entry.val w.entry.tstamp

/-- Key and value have 32-bit lengths, and the value begins at a 32-bit offset. -/
def Write.Fits (fsz : Nat) : Write → Prop
  | set key value _ => key.length < 2 ^ 32 ∧ value.length < 2 ^ 32 ∧ fsz + 16 + key.length < 2 ^ 32
  | erase key => key.length < 2 ^ 32

instance (fsz : Nat) (w : Write) : Decidable (w.Fits fsz) := by
  cases w <;> unfold Write.Fits <;> infer_instance

def encode (ws : List Write) : Bytes := ws.flatMap Write.record

/-- The writes of a key. -/
def marks (k : Bytes) (ws : List Write) : List (Mark Bytes Nat) := (ws.filter (·.key = k)).map Write.mark

@[simp] lemma encode_nil : encode [] = [] := rfl

lemma encode_append (ws ws' : List Write) : encode (ws ++ ws') = encode ws ++ encode ws' := List.flatMap_append

lemma encode_cons (w : Write) (ws : List Write) : encode (w :: ws) = w.record ++ encode ws := List.flatMap_cons

lemma encode_singleton (w : Write) : encode [w] = w.record := by rw [encode_cons, encode_nil, List.append_nil]

lemma marks_append (k : Bytes) (ws ws' : List Write) : marks k (ws ++ ws') = marks k ws ++ marks k ws' := by
  rw [marks, List.filter_append, List.map_append]
  rfl

lemma marks_singleton (k : Bytes) (w : Write) : marks k [w] = if w.key = k then [w.mark] else [] := by
  by_cases h : w.key = k <;> simp [marks, h]

lemma Write.sized {fsz : Nat} (h : w.Fits fsz) : w.entry.Sized := by
  cases w with
  | set key value now => exact FileEntry.sized_create h.1 h.2.1
  | erase key => exact FileEntry.sized_tombstone h

lemma Write.entry_key (w : Write) : w.entry.key = w.key := by cases w <;> rfl

lemma record_write (w : Write) (s : Bitcask) : (s.write logSize w).disk.casks =
    ((s.disk.casks.append s.currId w.record).ensureLogSizeLimits logSize s.currId).1 := by
  cases w <;> rfl

/-- Every record begins where it fits. -/
def Located (ws : List Write) : Prop := ∀ pre w post, ws = pre ++ w :: post → w.Fits (encode pre).length

lemma located_nil : Located [] := by
  intro pre w post h
  cases pre <;> cases h

lemma located_concat (h : Located ws) (hw : w.Fits (encode ws).length) : Located (ws ++ [w]) := by
  intro pre w' post heq
  rcases List.eq_nil_or_concat post with rfl | ⟨post', last, rfl⟩
  · obtain ⟨rfl, heq'⟩ := List.append_inj' heq rfl
    cases heq'
    exact hw
  · rw [List.concat_eq_append, ← List.cons_append, ← List.append_assoc] at heq
    obtain ⟨rfl, -⟩ := List.append_inj' heq rfl
    exact h pre w' post' rfl

/-- Every file is a sequence of records, and a tail that ends the reading. -/
structure Log (casks : Casks) (recs : Nat → List Write) (torn : Nat → Bytes) : Prop where
  content : ∀ id, casks.content id = encode (recs id) ++ torn id
  located : ∀ id, Located (recs id)
  torn : ∀ id pos, FileEntry.read pos (torn id) = .eof

lemma Log.congr {casks' : Casks} (h : Log casks recs torn) (heq : ∀ id, casks'.content id = casks.content id) :
    Log casks' recs torn := ⟨fun id => (heq id).trans (h.content id), h.located, h.torn⟩

/-- A write adds its record to the log of the current file. -/
lemma Log.write (logSize : Nat) (h : Log s.disk.casks recs torn) (htorn : torn s.currId = [])
    (hfits : w.Fits (s.disk.casks.content s.currId).length) :
    Log (s.write logSize w).disk.casks (Function.update recs s.currId (recs s.currId ++ [w])) torn where
  content id := by
    rw [record_write, content_ensureLogSizeLimits, content_append, h.content]
    by_cases hid : id = s.currId
    · subst hid
      rw [if_pos rfl, Function.update_self, encode_append, encode_singleton, htorn, List.append_nil, List.append_nil]
    · rw [if_neg hid, Function.update_of_ne hid, List.append_nil]
  located id := by
    by_cases hid : id = s.currId
    · subst hid
      rw [Function.update_self]
      refine located_concat (h.located _) ?_
      rwa [h.content, htorn, List.append_nil] at hfits
    · rw [Function.update_of_ne hid]
      exact h.located id
  torn := h.torn

/-- Where the records of a run of writes go. -/
def placements (s : Bitcask) : List (Write × Nat) → List (Nat × Write)
  | [] => []
  | (w, logSize) :: rest => (s.currId, w) :: placements (s.write logSize w) rest

/-- Every write of the run fits. -/
def FitsRun (s : Bitcask) : List (Write × Nat) → Prop
  | [] => True
  | (w, logSize) :: rest => w.Fits (s.disk.casks.content s.currId).length ∧ FitsRun (s.write logSize w) rest

/-- The writes that went to a file. -/
def recordsOf (placed : List (Nat × Write)) (id : Nat) : List Write := (placed.filter (·.1 = id)).map Prod.snd

lemma recordsOf_cons (id : Nat) (p : Nat × Write) (placed : List (Nat × Write)) :
    recordsOf (p :: placed) id = (if p.1 = id then [p.2] else []) ++ recordsOf placed id := by
  by_cases h : p.1 = id <;> simp [recordsOf, h]

theorem Log.writes (h : Log s.disk.casks recs torn) (htorn : ∀ p ∈ placements s calls, torn p.1 = [])
    (hfits : FitsRun s calls) :
    Log (s.writes calls).disk.casks (fun id => recs id ++ recordsOf (placements s calls) id) torn := by
  induction calls generalizing s recs with
  | nil => simpa [placements, recordsOf, Bitcask.writes] using h
  | cons call rest ih =>
    obtain ⟨w, logSize⟩ := call
    have hstep := h.write logSize (htorn _ (List.mem_cons_self ..)) hfits.1
    have hrest := ih hstep (fun p hp => htorn p (List.mem_cons_of_mem _ hp)) hfits.2
    have hrecs : (fun id => recs id ++ recordsOf (placements s ((w, logSize) :: rest)) id) =
        fun id => Function.update recs s.currId (recs s.currId ++ [w]) id ++
          recordsOf (placements (s.write logSize w) rest) id := by
      funext id
      rw [placements, recordsOf_cons]
      by_cases hid : id = s.currId
      · subst hid
        simp
      · rw [if_neg (Ne.symm hid), Function.update_of_ne hid, List.nil_append]
    rw [hrecs]
    exact hrest

/-! ## Loading -/

/-- The key directory knows for every key the write that is left over from those read. -/
def Matches (casks : Casks) (keyDir : KeyDir) (ws : List Write) : Prop :=
  ∀ k, (keyDir.lookup k).map (fun kdVal => (casks.readValue kdVal, kdVal.tstamp)) = latest (marks k ws)

lemma matches_empty (casks : Casks) : Matches casks ∅ [] := fun _ => rfl

lemma lookup_absorb_of_ne (keyDir : KeyDir) (e : FileEntry) (h : k ≠ e.key) :
    (keyDir.absorb id e).lookup k = keyDir.lookup k := by
  rw [KeyDir.absorb]
  split_ifs
  · exact AList.lookup_erase_ne h
  · cases keyDir.lookup e.key with
    | none => exact AList.lookup_insert_ne h
    | some kdVal =>
      change (if kdVal.tstamp < e.tstamp then _ else _ : KeyDir).lookup k = _
      split_ifs
      · exact AList.lookup_insert_ne h
      · rfl

lemma lookup_absorb_self (id : Nat) (keyDir : KeyDir) (e : FileEntry) : (keyDir.absorb id e).lookup e.key =
    if e.isTombstone then none
    else
      match keyDir.lookup e.key with
      | none => some (e.kd id)
      | some kdVal => if kdVal.tstamp < e.tstamp then some (e.kd id) else some kdVal := by
  rw [KeyDir.absorb]
  split_ifs
  · exact AList.lookup_erase _ _
  · cases hlookup : keyDir.lookup e.key with
    | none => exact AList.lookup_insert _
    | some kdVal =>
      change (if kdVal.tstamp < e.tstamp then _ else _ : KeyDir).lookup e.key = if kdVal.tstamp < e.tstamp then _ else _
      split_ifs
      · exact AList.lookup_insert _
      · exact hlookup

/-- One record more is read. -/
lemma Matches.absorb (h : Matches casks keyDir ws) {e : FileEntry} (hkey : e.key = w.key)
    (htomb : e.isTombstone = w.entry.isTombstone) (htstamp : e.tstamp = w.entry.tstamp)
    (hval : casks.readValue (e.kd id) = w.entry.val) : Matches casks (keyDir.absorb id e) (ws ++ [w]) := by
  intro k
  rw [marks_append, marks_singleton]
  by_cases hk : w.key = k
  · subst hk
    rw [if_pos rfl, latest_concat, ← h w.key, ← hkey, lookup_absorb_self, htomb, Write.mark]
    by_cases hdel : w.entry.isTombstone = true
    · rw [if_pos hdel, if_pos hdel]
      cases keyDir.lookup e.key <;> rfl
    · rw [if_neg hdel, if_neg hdel, ← hval, ← htstamp]
      cases keyDir.lookup e.key with
      | none => rfl
      | some kdVal =>
        simp only [Option.map_some, Latest.absorb]
        by_cases hlt : kdVal.tstamp < e.tstamp
        · rw [if_pos hlt, if_pos hlt]
          rfl
        · rw [if_neg hlt, if_neg hlt]
          rfl
  · rw [if_neg hk, List.append_nil, ← h k, lookup_absorb_of_ne]
    rw [hkey]
    exact Ne.symm hk

/-- The value of a record stands where the reader takes it to begin. -/
lemma readValue_record {done todo : List Write} {tail : Bytes}
    (h : casks.content id = encode (done ++ w :: todo) ++ tail)
    (hfits : w.Fits (encode done).length) :
    casks.readValue ⟨id, w.entry.vsz, ((encode done).length + 16 + w.entry.key.length) % 2 ^ 32, w.entry.tstamp⟩ =
      w.entry.val := by
  cases w with
  | set key value now =>
    obtain ⟨hkey, hvalue, hpos⟩ := hfits
    have hplace : casks.content id = (encode done ++ (FileEntry.create now key value 0).header ++ key) ++ value ++
        (encode todo ++ tail) := by
      rw [h, encode_append, encode_cons]
      simp [Write.record, Write.entry, FileEntry.write, FileEntry.create]
    have hread := @readValue_eq casks id _ _ _ (now % 2 ^ 32) hplace
    have hlen : (encode done ++ (FileEntry.create now key value 0).header ++ key).length =
        ((encode done).length + 16 + key.length) % 2 ^ 32 := by
      rw [Nat.mod_eq_of_lt hpos]
      simp [Nat.add_assoc]
    rw [hlen] at hread
    change casks.readValue ⟨id, value.length % 2 ^ 32, _, _⟩ = value
    rw [Nat.mod_eq_of_lt hvalue]
    exact hread
  | erase key =>
    change casks.readValue ⟨id, 0, _, _⟩ = []
    simp [Casks.readValue, zeros]

lemma loadLoop_log {done todo : List Write} {tail : Bytes} (hcontent : casks.content id = encode (done ++ todo) ++ tail)
    (hlocated : Located (done ++ todo)) (htail : ∀ pos, FileEntry.read pos tail = .eof) (hfuel : todo.length < fuel)
    (h : Matches casks keyDir ws) : ∃ keyDir',
      loadLoop id fuel (encode done).length (encode todo ++ tail) keyDir = (keyDir', true) ∧
        Matches casks keyDir' (ws ++ todo) := by
  induction todo generalizing done keyDir ws fuel with
  | nil =>
    obtain ⟨fuel, rfl⟩ := Nat.exists_eq_add_of_lt hfuel
    refine ⟨keyDir, ?_, by rwa [List.append_nil]⟩
    rw [loadLoop, encode_nil, List.nil_append, htail]
  | cons w todo ih =>
    obtain ⟨fuel, rfl⟩ : ∃ n, fuel = n + 1 := ⟨fuel - 1, by omega⟩
    have hfits := hlocated done w todo rfl
    have hread : FileEntry.read (encode done).length (encode (w :: todo) ++ tail) = .entry
        { w.entry with vstart := ((encode done).length + 16 + w.entry.key.length) % 2 ^ 32 } (encode todo ++ tail) := by
      rw [encode_cons, List.append_assoc, Write.record, FileEntry.read_write (Write.sized hfits)]
    have hnext : (encode done).length + 16 + w.entry.ksz + w.entry.vsz = (encode (done ++ [w])).length := by
      have hsized := Write.sized hfits
      rw [encode_append, encode_singleton, List.length_append, Write.record, FileEntry.length_write, hsized.ksz,
        hsized.vsz]
      ring
    have hassoc : done ++ w :: todo = (done ++ [w]) ++ todo := by simp
    have habsorb : Matches casks (keyDir.absorb id { w.entry with
        vstart := ((encode done).length + 16 + w.entry.key.length) % 2 ^ 32 }) (ws ++ [w]) :=
      h.absorb w.entry_key rfl rfl (readValue_record hcontent hfits)
    rw [hassoc] at hcontent hlocated
    obtain ⟨keyDir', hloop, hmatches⟩ := ih hcontent hlocated (by simpa using hfuel) habsorb
    refine ⟨keyDir', ?_, by simpa using hmatches⟩
    rw [loadLoop, hread, ← hloop, ← hnext]

lemma length_le_encode (ws : List Write) : ws.length ≤ (encode ws).length := by
  refine length_le_flatMap (fun w => ?_) ws
  rw [Write.record, FileEntry.length_write]
  omega

lemma loadFromFile_log (logSize currId : Nat) (h : Log casks recs torn) (hm : Matches casks keyDir ws) :
    ∃ keyDir' currId', loadFromFile logSize id (casks.content id) keyDir currId = (keyDir', currId') ∧
      Matches casks keyDir' (ws ++ recs id) := by
  have hfuel : (recs id).length < (casks.content id).length + 1 := by
    have hle := length_le_encode (recs id)
    rw [h.content, List.length_append]
    omega
  obtain ⟨keyDir', hloop, hmatches⟩ :=
    @loadLoop_log casks keyDir ws id _ [] (recs id) (torn id) (h.content id) (h.located id) (h.torn id) hfuel hm
  rw [loadFromFile, h.content]
  rw [h.content] at hloop
  change loadLoop id _ 0 (encode (recs id) ++ torn id) keyDir = (keyDir', true) at hloop
  rw [hloop]
  exact ⟨_, _, rfl, hmatches⟩

lemma loadCasks_log (logSize : Nat) (h : Log casks recs torn) (order : List Nat) (currId : Nat)
    (hm : Matches casks keyDir ws) : ∃ keyDir' currId',
      loadCasks logSize casks order keyDir currId = (keyDir', currId') ∧
        Matches casks keyDir' (ws ++ order.flatMap recs) := by
  induction order generalizing keyDir currId ws with
  | nil => exact ⟨keyDir, currId, rfl, by simpa using hm⟩
  | cons id order ih =>
    obtain ⟨keyDir1, currId1, hfile, hm1⟩ := @loadFromFile_log casks keyDir ws id recs torn logSize currId h hm
    obtain ⟨keyDir2, currId2, hrest, hm2⟩ := ih currId1 hm1
    refine ⟨keyDir2, currId2, ?_, by simpa using hm2⟩
    rw [loadCasks, hfile, ← hrest]

/-- A new instance has for every key the value of the write that is left over. -/
theorem get_load (logSize : Nat) {disk : Directory} (h : Log disk.casks recs torn) (hhint : disk.hint = none)
    (order : List Nat) (k : Bytes) :
    (load logSize disk order).get k = (latest (marks k (order.flatMap recs))).map Prod.fst := by
  obtain ⟨keyDir, currId, hload, hm⟩ := loadCasks_log logSize h order 0 (matches_empty disk.casks)
  rw [List.nil_append] at hm
  have hget : (load logSize disk order).get k = (keyDir.lookup k).map disk.casks.readValue := by
    rw [load, hhint]
    simp only [hload]
    rw [get]
    exact congrArg (fun f => (keyDir.lookup k).map f) (funext fun _ => readValue_congr (content_openApp _ _ _))
  rw [hget, ← hm k, Option.map_map]
  rfl

/-! ## A run, and a new instance -/

/-- The value of the last set of a key, if no erasure follows it. -/
def lastValue (k : Bytes) (ws : List Write) : Option Bytes :=
  ws.foldl (fun last w =>
    match w with
    | .set key value _ => if key = k then some value else last
    | .erase key => if key = k then none else last) none

/-- What is left of a key when the writes are read in this order. -/
def LeftOver (read : List Write) (k : Bytes) : Option Bytes → Prop
  | none => Cleared (marks k read)
  | some v => ∃ t, Prevails (marks k read) v t

lemma leftOver_iff (read : List Write) (k : Bytes) (v : Option Bytes) :
    (latest (marks k read)).map Prod.fst = v ↔ LeftOver read k v := by
  cases v with
  | none => rw [Option.map_eq_none_iff, latest_eq_none_iff, LeftOver]
  | some v =>
    rw [Option.map_eq_some_iff, LeftOver]
    constructor
    · rintro ⟨⟨v', t⟩, hlatest, rfl⟩
      exact ⟨t, latest_eq_some_iff.1 hlatest⟩
    · rintro ⟨t, hprevails⟩
      exact ⟨(v, t), latest_eq_some_iff.2 hprevails, rfl⟩

lemma hint_writes (s : Bitcask) (calls : List (Write × Nat)) : (s.writes calls).disk.hint = s.disk.hint := by
  induction calls generalizing s with
  | nil => rfl
  | cons call rest ih =>
    rw [writes, ih]
    cases call.1 <;> rfl

lemma log_create : Log create.disk.casks (fun _ => []) (fun _ => []) where
  content id := by
    rw [create, load, content_openApp]
    rfl
  located _ := located_nil
  torn id pos := rfl

/-- After the run a new instance knows every key as the run has left it. -/
def Recovers (calls : List (Write × Nat)) (logSize : Nat) (order : List Nat) : Prop :=
  ∀ k, (load logSize (create.writes calls).disk order).get k = lastValue k (calls.map Prod.fst)

/-- The last write of a key has to be the one that is left over in the order of reading. -/
theorem recovers_iff (hfits : FitsRun create calls) (logSize : Nat) (order : List Nat) :
    Recovers calls logSize order ↔
      ∀ k, LeftOver (order.flatMap (recordsOf (placements create calls))) k (lastValue k (calls.map Prod.fst)) := by
  have hlog := log_create.writes (fun _ _ => rfl) hfits
  have hhint : (create.writes calls).disk.hint = none := hint_writes create calls
  refine forall_congr' fun k => ?_
  rw [get_load logSize hlog hhint order k]
  exact leftOver_iff _ k _

/-- Two files, the newer one read first. -/
theorem recovers_iff_twoFiles :
    Recovers [(.set [107] [97] 5, 10), (.set [107] [98] 6, 10)] 10 [1, 0] ↔
      ∀ k, LeftOver ([1, 0].flatMap (recordsOf
        (placements create [(.set [107] [97] 5, 10), (.set [107] [98] 6, 10)]))) k
        (lastValue k [.set [107] [97] 5, .set [107] [98] 6]) :=
  @recovers_iff [(.set [107] [97] 5, 10), (.set [107] [98] 6, 10)]
    ⟨by decide +kernel, by decide +kernel, trivial⟩ 10 [1, 0]

/-- Two sets of a key in one millisecond. -/
theorem not_recovers_sameInstant :
    [0].Perm (create.writes [(.set [107] [97] 5, 2000000000), (.set [107] [98] 5, 2000000000)]).disk.casks.keys ∧
      ¬ Recovers [(.set [107] [97] 5, 2000000000), (.set [107] [98] 5, 2000000000)] 2000000000 [0] := by
  refine ⟨by decide +kernel, fun h => ?_⟩
  exact absurd (h [107]) (by decide +kernel)

/-! ## A torn record -/

/-- The number of a cask file, as the extension of its name without the dot. -/
def IsId (idStr : Bytes) : Prop := idStr ≠ [] ∧ idStr.all isDigit ∧ digitsValue idStr < 2 ^ 32

instance (idStr : Bytes) : Decidable (IsId idStr) := by
  unfold IsId
  infer_instance

/-- `loadFromFile` for a file of any name, with what it returns. -/
def loadFromPath (logSize : Nat) (idStr bytes : Bytes) (keyDir : KeyDir) (currId : Nat) : Bool × KeyDir × Nat :=
  if IsId idStr then
    let (keyDir', status) := loadLoop (digitsValue idStr) (bytes.length + 1) 0 bytes keyDir
    (status, keyDir', if status = true then (loadFromFile logSize (digitsValue idStr) bytes keyDir
      currId).2 else currId)
  else (false, keyDir, currId)

/-- A key directory that has absorbed the records of a log one after the other, the first of them at `pos`. -/
def KeyDir.absorbLog (id : Nat) : Nat → List FileEntry → KeyDir → KeyDir
  | _, [], keyDir => keyDir
  | pos, e :: es, keyDir =>
    absorbLog id (pos + 16 + e.ksz + e.vsz) es (keyDir.absorb id { e with vstart := (pos + 16 + e.key.length) % 2 ^ 32 })

/-- Complete records are absorbed one after the other, whatever ends the file behind them. -/
lemma loadLoop_flatMap {es : List FileEntry} (h : ∀ e ∈ es, e.Sized) (id pos : Nat) (keyDir : KeyDir) {tail : Bytes}
    (htail : ∀ pos, FileEntry.read pos tail = .eof) {fuel : Nat} (hfuel : es.length < fuel) :
    loadLoop id fuel pos (es.flatMap FileEntry.write ++ tail) keyDir = (KeyDir.absorbLog id pos es keyDir, true) := by
  induction es generalizing pos keyDir fuel with
  | nil =>
    obtain ⟨fuel, rfl⟩ := Nat.exists_eq_add_of_lt hfuel
    rw [loadLoop, List.flatMap_nil, List.nil_append, htail]
    rfl
  | cons e es ih =>
    rw [List.forall_mem_cons] at h
    obtain ⟨fuel, rfl⟩ := Nat.exists_eq_add_of_lt hfuel
    rw [loadLoop, List.flatMap_cons, List.append_assoc, FileEntry.read_write h.1]
    refine ih h.2 _ _ ?_
    rw [List.length_cons]
    omega

lemma exists_loadFromPath (logSize : Nat) {idStr bytes : Bytes} {keyDir keyDir' : KeyDir} (hid : IsId idStr)
    (hloop : loadLoop (digitsValue idStr) (bytes.length + 1) 0 bytes keyDir = (keyDir', true)) (currId : Nat) :
    ∃ currId', loadFromPath logSize idStr bytes keyDir currId = (true, keyDir', currId') := by
  rw [loadFromPath, if_pos hid, hloop]
  exact ⟨_, rfl⟩

/-- Wherever a record is cut at the end of a log, the complete records are absorbed, and the load succeeds. -/
theorem loadFromPath_torn (logSize : Nat) {idStr : Bytes} (hid : IsId idStr) {es : List FileEntry}
    (hes : ∀ e ∈ es, e.Sized)
    {e : FileEntry} (he : e.Sized) {tail : Bytes} (hcut : tail <+: e.write) (hshort : tail.length < e.write.length)
      (keyDir : KeyDir)
    (currId : Nat) : ∃ keyDir' currId' currId'', keyDir' = KeyDir.absorbLog (digitsValue idStr) 0 es keyDir ∧
      loadFromPath logSize idStr (es.flatMap FileEntry.write ++ tail) keyDir currId = (true, keyDir', currId') ∧
        loadFromPath logSize idStr (es.flatMap FileEntry.write) keyDir currId = (true, keyDir', currId'') := by
  have hwrite : ∀ e : FileEntry, 0 < e.write.length := by
    intro e
    rw [FileEntry.length_write]
    omega
  have hle : es.length ≤ (es.flatMap FileEntry.write).length := length_le_flatMap hwrite es
  have htorn := loadLoop_flatMap hes (digitsValue idStr) 0 keyDir (fun pos => FileEntry.read_torn he hcut hshort)
    (show es.length < (es.flatMap FileEntry.write ++ tail).length + 1 by rw [List.length_append]; omega)
  have hwhole := @loadLoop_flatMap es hes (digitsValue idStr) 0 keyDir [] (fun _ => rfl) _ (Nat.lt_succ_of_le hle)
  rw [List.append_nil] at hwhole
  obtain ⟨currId', hleft⟩ := exists_loadFromPath logSize hid htorn currId
  obtain ⟨currId'', hright⟩ := exists_loadFromPath logSize hid hwhole currId
  exact ⟨_, currId', currId'', rfl, hleft, hright⟩

/-- The first 17 of the 18 bytes of a record, behind another one. -/
theorem loadFromPath_torn_set : ∃ keyDir' currId' currId'',
    keyDir' = KeyDir.absorbLog (digitsValue (ascii "0")) 0 [FileEntry.create 5 [106] [97] 0] ∅ ∧
    loadFromPath 1000 (ascii "0") ([FileEntry.create 5 [106] [97] 0].flatMap FileEntry.write ++
      (FileEntry.create 6 [107] [98] 18).write.take 17) ∅ 0 = (true, keyDir', currId') ∧
        loadFromPath 1000 (ascii "0") ([FileEntry.create 5 [106] [97] 0].flatMap FileEntry.write) ∅ 0 =
          (true, keyDir', currId'') :=
  loadFromPath_torn 1000 (by decide) (List.forall_mem_singleton.2 (FileEntry.sized_create (by decide) (by decide)))
    (FileEntry.sized_create (by decide) (by decide)) (List.take_prefix 17 _)
      (by rw [List.length_take, FileEntry.length_write]; decide) ∅ 0

/-- A directory of complete records, and at the end of the current file a record that is cut short. -/
structure Torn (casks : Casks) (curr : Nat) (recs : Nat → List Write) (tail : Bytes) : Prop where
  current : curr ∈ casks
  highest : ∀ id ∈ casks, id ≤ curr
  content : ∀ id, casks.content id = encode (recs id) ++ if id = curr then tail else []
  located : ∀ id, Located (recs id)
  tail : ∃ w : Write, w.entry.Sized ∧ tail <+: w.record ∧ tail.length < w.record.length

lemma Torn.log {curr : Nat} {tail : Bytes} (h : Torn casks curr recs tail) :
    Log casks recs (fun id => if id = curr then tail else []) where
  content := h.content
  located := h.located
  torn id pos := by
    obtain ⟨w, hsized, hcut, hshort⟩ := h.tail
    by_cases hid : id = curr
    · rw [if_pos hid]
      exact FileEntry.read_torn hsized hcut hshort
    · rw [if_neg hid]
      rfl

/-- Every set made through an instance on the directory is found by a further instance. -/
def KeepsSets (disk : Directory) (logSize : Nat) (order : List Nat) (calls : List (Write × Nat)) (logSize' : Nat)
    (order' : List Nat) : Prop :=
  ∀ k v now limit, (Write.set k v now, limit) ∈ calls →
    (load logSize' ((load logSize disk order).writes calls).disk order').get k = some v

/-- If there is no torn record, or none of the sets is appended to it, only the order of reading and the instants
matter. -/
theorem keepsSets_iff {disk : Directory} {curr : Nat} {tail : Bytes} (hdisk : Torn disk.casks curr recs tail)
    (hhint : disk.hint = none) {order : List Nat} (hfits : FitsRun (load logSize disk order) calls)
    (hplace : tail = [] ∨ ∀ p ∈ placements (load logSize disk order) calls, p.1 ≠ curr) (logSize' : Nat)
    (order' : List Nat) :
    KeepsSets disk logSize order calls logSize' order' ↔ ∀ k v now limit, (Write.set k v now, limit) ∈ calls →
      LeftOver (order'.flatMap fun id => recs id ++ recordsOf (placements (load logSize disk order) calls) id) k
        (some v) := by
  have hopen : Log (load logSize disk order).disk.casks recs (fun id => if id = curr then tail else []) :=
    hdisk.log.congr fun id => by rw [load, content_openApp]
  have htorn : ∀ p ∈ placements (load logSize disk order) calls, (if p.1 = curr then tail else []) = [] := by
    intro p hp
    rcases hplace with hempty | hother
    · rw [hempty, ite_self]
    · exact if_neg (hother p hp)
  have hlog := hopen.writes htorn hfits
  have hhint' : ((load logSize disk order).writes calls).disk.hint = none := by
    rw [hint_writes]
    exact hhint
  refine forall_congr' fun k => forall_congr' fun v => forall_congr' fun now => forall_congr' fun limit => ?_
  rw [get_load logSize' hlog hhint' order' k]
  exact imp_congr_right fun _ => leftOver_iff _ k _

/-- A directory with one file. -/
def oneFile (ws : List Write) (tail : Bytes) : Directory := ⟨Casks.append ∅ 0 (encode ws ++ tail), none⟩

lemma torn_oneFile {tail : Bytes} (hlocated : Located ws)
    (htail : ∃ w : Write, w.entry.Sized ∧ tail <+: w.record ∧ tail.length < w.record.length) :
    Torn (oneFile ws tail).casks 0 (fun id => if id = 0 then ws else []) tail where
  current := AList.mem_insert _ |>.2 (Or.inl rfl)
  highest id hid := by
    rcases (AList.mem_insert _).1 hid with rfl | hid
    · exact le_rfl
    · exact absurd hid (AList.notMem_empty id)
  content id := by
    rw [oneFile, content_append]
    by_cases hid : id = 0
    · rw [if_pos hid, if_pos hid, if_pos hid]
      rfl
    · rw [if_neg hid, if_neg hid, if_neg hid]
      rfl
  located id := by
    split_ifs
    · exact hlocated
    · intro pre w post h
      cases pre <;> cases h
  tail := htail

/-- One record on disk, and another key set. -/
theorem keepsSets_iff_twoKeys :
    KeepsSets (oneFile [.set [106] [97] 5] []) 1000 [0] [(.set [107] [98] 5, 1000)] 1000 [0] ↔
      ∀ k v now limit, (Write.set k v now, limit) ∈ [(Write.set [107] [98] 5, 1000)] →
        LeftOver ([0].flatMap fun id => (if id = 0 then [.set [106] [97] 5] else []) ++
          recordsOf (placements (load 1000 (oneFile [.set [106] [97] 5] []) [0]) [(.set [107] [98] 5, 1000)]) id) k
          (some v) :=
  @keepsSets_iff 1000 (fun id => if id = 0 then [.set [106] [97] 5] else []) [(.set [107] [98] 5, 1000)]
    (oneFile [.set [106] [97] 5] []) 0 []
    (torn_oneFile (@located_concat (.set [106] [97] 5) [] located_nil (by decide +kernel))
      ⟨.erase [], FileEntry.sized_tombstone (by decide), List.nil_prefix, by decide +kernel⟩)
    rfl [0] ⟨by decide +kernel, trivial⟩ (Or.inl rfl) 1000 [0]

/-- A record that lacks its last byte, and another key set behind it. -/
theorem not_keepsSets_torn :
    Torn (oneFile [] ((Write.set [106] [97] 5).record.take 17)).casks 0 (fun id => if id = 0 then [] else [])
        ((Write.set [106] [97] 5).record.take 17) ∧
      ¬ KeepsSets (oneFile [] ((Write.set [106] [97] 5).record.take 17)) 2000000000 [0]
        [(.set [107] [98] 6, 2000000000)] 2000000000 [0] := by
  constructor
  · refine torn_oneFile located_nil ⟨.set [106] [97] 5, ?_, ?_, ?_⟩
    · exact FileEntry.sized_create (by decide) (by decide)
    · exact List.take_prefix _ _
    · decide +kernel
  · intro h
    exact absurd (h [107] [98] 6 2000000000 (List.mem_singleton.2 rfl)) (by decide +kernel)

end CppExperiments.Bitcask

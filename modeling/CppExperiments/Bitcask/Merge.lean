import CppExperiments.Bitcask.Recovery

/-!
# Merging

The values survive a merge, and the first hint file that is written leads a new instance to them.
-/

namespace CppExperiments.Bitcask

variable {casks files : Casks} {keyDir : KeyDir} {kdVal : KeyDirValue} {s s' : Bitcask} {m m' : Merging}
  {entries : List (Bytes × Nat)} {k key v bytes : Bytes} {currId logSize now fuel count : Nat}

/-! ## The merged files -/

/-- The value stands in the merged files where the key directory says. -/
structure Stored (files : Casks) (currId : Nat) (kdVal : KeyDirValue) (v : Bytes) : Prop where
  id : kdVal.id ≤ currId
  inside : kdVal.vpos + kdVal.vsize ≤ (files.content kdVal.id).length
  value : files.readValue kdVal = v
  vsize : kdVal.vsize < 2 ^ 32
  vpos : kdVal.vpos < 2 ^ 32
  tstamp : kdVal.tstamp < 2 ^ 32

@[simp] lemma length_readValue (casks : Casks) (kdVal : KeyDirValue) :
    (casks.readValue kdVal).length = kdVal.vsize := by
  rw [Casks.readValue, List.length_append, length_zeros, List.length_take]
  omega

lemma Stored.congr {files' : Casks} {currId' : Nat} (h : Stored files currId kdVal v) (hle : currId ≤ currId')
    (heq : files'.content kdVal.id = files.content kdVal.id) : Stored files' currId' kdVal v where
  id := h.id.trans hle
  inside := by rw [heq]; exact h.inside
  value := by rw [readValue_congr heq]; exact h.value
  vsize := h.vsize
  vpos := h.vpos
  tstamp := h.tstamp

/-- Appending leaves what is stored alone. -/
lemma Stored.append (h : Stored files currId kdVal v) (id : Nat) (bytes : Bytes) :
    Stored (files.append id bytes) currId kdVal v where
  id := h.id
  inside := by
    rw [content_append, List.length_append]
    exact h.inside.trans (Nat.le_add_right _ _)
  value := by
    have hfound : (((files.append id bytes).content kdVal.id).drop kdVal.vpos).take kdVal.vsize =
        ((files.content kdVal.id).drop kdVal.vpos).take kdVal.vsize := by
      have hinside := h.inside
      rw [content_append, List.drop_append_of_le_length (by omega), List.take_append_of_le_length]
      rw [List.length_drop]
      omega
    rw [← h.value, Casks.readValue, Casks.readValue]
    simp only [hfound]
  vsize := h.vsize
  vpos := h.vpos
  tstamp := h.tstamp

/-- A new record is stored. -/
lemma stored_create (hkey : (files.content currId).length + 16 + key.length < 2 ^ 32) (hv : v.length < 2 ^ 32)
    (now : Nat) :
    Stored (files.append currId (FileEntry.create now key v (files.content currId).length).write) currId
      ((FileEntry.create now key v (files.content currId).length).kd currId) v := by
  have hkd : (FileEntry.create now key v (files.content currId).length).kd currId =
      ⟨currId, v.length, (files.content currId).length + 16 + key.length, now % 2 ^ 32⟩ := by
    simp only [FileEntry.create, FileEntry.kd]
    rw [Nat.mod_eq_of_lt hv, Nat.mod_eq_of_lt (by omega : (files.content currId).length < 2 ^ 32),
      Nat.mod_eq_of_lt (by omega : key.length < 2 ^ 32), Nat.mod_eq_of_lt hkey]
  have hcontent : (files.append currId (FileEntry.create now key v (files.content currId).length).write).content
    currId =
      files.content currId ++ (FileEntry.create now key v (files.content currId).length).header ++ key ++ v ++ [] := by
    rw [content_append, if_pos rfl, FileEntry.write]
    simp [FileEntry.create]
  have hlen : (files.content currId ++ (FileEntry.create now key v
    (files.content currId).length).header ++ key).length =
      (files.content currId).length + 16 + key.length := by simp [Nat.add_assoc]
  rw [hkd]
  refine ⟨le_rfl, ?_, ?_, hv, hkey, Nat.mod_lt _ (by decide)⟩
  · rw [hcontent, List.append_nil, List.length_append, hlen]
  · rw [← hlen]
    exact readValue_eq hcontent

/-- The rotation of the files goes up. -/
lemma ensureLogSizeLimits_le (files : Casks) (logSize : Nat) (h : currId + 1 < 2 ^ 32) :
    currId ≤ (files.ensureLogSizeLimits logSize currId).2 ∧ (files.ensureLogSizeLimits logSize currId).2 ≤
      currId + 1 := by
  rw [Casks.ensureLogSizeLimits]
  split_ifs
  · rw [Nat.mod_eq_of_lt h]
    exact ⟨Nat.le_succ _, le_rfl⟩
  · exact ⟨le_rfl, Nat.le_succ _⟩

/-- The sizes in the loop of `merge` fit their fields. -/
def MergeFits (logSize : Nat) (casks : Casks) : List (Bytes × Nat) → Merging → Prop
  | [], _ => True
  | (key, now) :: rest, m => (m.files.content m.currId).length + 16 + key.length < 2 ^ 32 ∧ m.currId + 1 < 2 ^ 32 ∧
      ∀ m', mergeStep logSize casks m key now = some m' → MergeFits logSize casks rest m'

/-- The sizes the key directory holds are 32-bit numbers. -/
def Narrow (keyDir : KeyDir) : Prop := ∀ k kdVal, keyDir.lookup k = some kdVal → kdVal.vsize < 2 ^ 32

/-- The keys of `done` are merged, and the others are as they were. -/
structure Merged (casks : Casks) (keyDir : KeyDir) (done : List Bytes) (m : Merging) : Prop where
  keys : m.keyDir.keys.Perm keyDir.keys
  entries : m.entries.map Prod.snd = done
  short : ∀ k ∈ done, k.length < 2 ^ 32
  currId : m.currId < 2 ^ 32
  stored : ∀ k ∈ done, ∀ kdVal, keyDir.lookup k = some kdVal →
    ∃ kdVal', m.keyDir.lookup k = some kdVal' ∧ Stored m.files m.currId kdVal' (casks.readValue kdVal)
  others : ∀ k ∉ done, m.keyDir.lookup k = keyDir.lookup k

lemma merged_start (casks : Casks) (keyDir : KeyDir) : Merged casks keyDir [] (Merging.start keyDir) where
  keys := List.Perm.refl _
  entries := rfl
  short k hk := absurd hk List.not_mem_nil
  currId := show 0 < 2 ^ 32 by decide
  stored k hk := absurd hk List.not_mem_nil
  others _ _ := rfl

/-- One key more is merged. -/
lemma Merged.step {done : List Bytes} (h : Merged casks keyDir done m)
    (hsizes : Narrow keyDir) (hnew : key ∉ done)
    (hkey : (m.files.content m.currId).length + 16 + key.length < 2 ^ 32) (hid : m.currId + 1 < 2 ^ 32)
    (hstep : mergeStep logSize casks m key now = some m') : Merged casks keyDir (done ++ [key]) m' := by
  rw [mergeStep] at hstep
  cases hlookup : m.keyDir.lookup key with
  | none =>
    rw [hlookup] at hstep
    cases hstep
  | some kdVal =>
    rw [hlookup] at hstep
    cases hstep
    have hold : keyDir.lookup key = some kdVal := by rw [← h.others key hnew, hlookup]
    have hv : (casks.readValue kdVal).length < 2 ^ 32 := by
      rw [length_readValue]
      exact hsizes key kdVal hold
    obtain ⟨entry, hentry⟩ : ∃ entry, FileEntry.create now key (casks.readValue kdVal)
      (m.files.content m.currId).length =
      entry := ⟨_, rfl⟩
    have hstored := stored_create hkey hv now
    rw [hentry] at hstored ⊢
    have hle := ensureLogSizeLimits_le (m.files.append m.currId entry.write) logSize hid
    refine ⟨?_, ?_, ?_, ?_, ?_, ?_⟩
    · have hmem : key ∈ m.keyDir.keys := AList.lookup_isSome.1 (by rw [hlookup]; rfl)
      rw [AList.keys_insert]
      refine List.Perm.trans (List.Perm.symm ?_) h.keys
      exact @List.perm_cons_erase _ instBEqOfDecidableEq _ _ _ hmem
    · simp [h.entries]
    · intro k hk
      rcases List.mem_append.1 hk with hk | hk
      · exact h.short k hk
      · rw [List.mem_singleton.1 hk]
        omega
    · exact lt_of_le_of_lt hle.2 hid
    · intro k hk kd hkd
      by_cases hkk : k = key
      · subst hkk
        rw [hold] at hkd
        cases hkd
        exact ⟨_, AList.lookup_insert _, hstored.congr hle.1 (content_ensureLogSizeLimits _ _ _)⟩
      · have hdone : k ∈ done := by
          rcases List.mem_append.1 hk with hk | hk
          · exact hk
          · exact absurd (List.mem_singleton.1 hk) hkk
        obtain ⟨kd', hkd', hstored'⟩ := h.stored k hdone kd hkd
        exact ⟨kd', by rw [AList.lookup_insert_ne hkk, hkd'],
          (hstored'.append _ _).congr hle.1 (content_ensureLogSizeLimits _ _ _)⟩
    · intro k hk
      rw [List.mem_append, List.mem_singleton, not_or] at hk
      rw [AList.lookup_insert_ne hk.2]
      exact h.others k hk.1

lemma merged_loop {done : List Bytes} (h : Merged casks keyDir done m)
    (hsizes : Narrow keyDir) (hnodup : (done ++ entries.map Prod.fst).Nodup)
    (hfits : MergeFits logSize casks entries m) (hloop : mergeLoop logSize casks entries m = some m') :
    Merged casks keyDir (done ++ entries.map Prod.fst) m' := by
  induction entries generalizing done m with
  | nil =>
    cases hloop
    simpa using h
  | cons entry rest ih =>
    obtain ⟨key, now⟩ := entry
    obtain ⟨hkey, hid, hrest⟩ := hfits
    rw [mergeLoop] at hloop
    cases hstep : mergeStep logSize casks m key now with
    | none =>
      rw [hstep] at hloop
      cases hloop
    | some m1 =>
      rw [hstep] at hloop
      have hassoc : done ++ ((key, now) :: rest).map Prod.fst = (done ++ [key]) ++ rest.map Prod.fst := by simp
      rw [hassoc] at hnodup ⊢
      have hnew : key ∉ done := by
        intro hmem
        have hdisjoint := List.disjoint_of_nodup_append (List.Nodup.of_append_left hnodup)
        exact hdisjoint hmem (List.mem_singleton.2 rfl)
      exact ih (h.step hsizes hnew hkey hid hstep) hnodup (hrest m1 hstep) hloop

lemma content_renameMerged (files : Casks) (currId : Nat) (casks : Casks) (id : Nat) :
    (renameMerged files currId casks).content id = if id ≤ currId then files.content id else casks.content id := by
  have hfold : ∀ n, Casks.content ((List.range n).foldl (fun casks id => casks.insert id (files.content id)) casks) id =
      if id < n then files.content id else casks.content id := by
    intro n
    induction n with
    | zero => rfl
    | succ n ih =>
      rw [List.range_succ, List.foldl_append, List.foldl_cons, List.foldl_nil, content_insert, ih]
      by_cases hid : id = n
      · rw [if_pos hid, if_pos (by omega), hid]
      · rw [if_neg hid]
        by_cases hlt : id < n
        · rw [if_pos hlt, if_pos (by omega)]
        · rw [if_neg hlt, if_neg (by omega)]
  rw [renameMerged, hfold]
  by_cases hle : id ≤ currId
  · rw [if_pos hle, if_pos (by omega)]
  · rw [if_neg hle, if_neg (by omega)]

/-- What a merge leaves behind. -/
structure AfterMerge (s s' : Bitcask) (m : Merging) : Prop where
  merged : Merged s.disk.casks s.keyDir (m.entries.map Prod.snd) m
  all : (m.entries.map Prod.snd).Perm s.keyDir.keys
  casks : s'.disk.casks = renameMerged m.files m.currId s.disk.casks
  hint : s'.disk.hint = some (s.disk.hint.getD [] ++ hintBlock m)
  keyDir : s'.keyDir = m.keyDir

lemma afterMerge (hs : Narrow s.keyDir) (hfits : MergeFits logSize s.disk.casks entries (Merging.start s.keyDir))
    (hmerge : s.merge logSize entries = some s') : ∃ m, AfterMerge s s' m := by
  rw [merge] at hmerge
  by_cases hperm : (entries.map Prod.fst).Perm s.keyDir.keys
  · rw [if_pos hperm] at hmerge
    cases hloop : mergeLoop logSize s.disk.casks entries (Merging.start s.keyDir) with
    | none =>
      rw [hloop] at hmerge
      cases hmerge
    | some m =>
      rw [hloop] at hmerge
      cases hmerge
      have hnodup : ([] ++ entries.map Prod.fst).Nodup := hperm.nodup_iff.2 s.keyDir.keys_nodup
      have hmerged := merged_loop (merged_start _ _) hs hnodup hfits hloop
      have hentries := hmerged.entries
      rw [List.nil_append] at hmerged hentries
      exact ⟨m, by rw [hentries]; exact hmerged, by rw [hentries]; exact hperm, rfl, rfl, rfl⟩
  · rw [if_neg hperm] at hmerge
    cases hmerge

lemma AfterMerge.mem_iff (h : AfterMerge s s' m) : k ∈ m.entries.map Prod.snd ↔ k ∈ s.keyDir := h.all.mem_iff

/-- A merge does not change what is found. -/
theorem AfterMerge.get (h : AfterMerge s s' m) (k : Bytes) : s'.get k = s.get k := by
  rw [Bitcask.get, Bitcask.get, h.keyDir, h.casks]
  by_cases hk : k ∈ s.keyDir
  · obtain ⟨kdVal, hkdVal⟩ := Option.isSome_iff_exists.1 (AList.lookup_isSome.2 hk)
    obtain ⟨kdVal', hkdVal', hstored⟩ := h.merged.stored k (h.mem_iff.2 hk) kdVal hkdVal
    rw [hkdVal, hkdVal', Option.map_some, Option.map_some, ← hstored.value]
    refine congrArg some (readValue_congr ?_)
    rw [content_renameMerged, if_pos hstored.id]
  · rw [h.merged.others k (fun hmem => hk (h.mem_iff.1 hmem)), AList.lookup_eq_none.2 hk]
    rfl

/-! ## The hint file -/

/-- The numbers of an entry are 32-bit numbers. -/
structure HintSized (key : Bytes) (kdVal : KeyDirValue) : Prop where
  key : key.length < 2 ^ 32
  tstamp : kdVal.tstamp < 2 ^ 32
  id : kdVal.id < 2 ^ 32
  vsize : kdVal.vsize < 2 ^ 32
  vpos : kdVal.vpos < 2 ^ 32

lemma loadHintLoop_entry (h : HintSized key kdVal) (rest : Bytes) (keyDir : KeyDir) (currId : Nat) :
    loadHintLoop count (fuel + 1) (hintEntry key kdVal ++ rest) keyDir currId =
      if keyDir.keys.length < count then
        loadHintLoop count fuel rest (if key ∈ keyDir then keyDir else keyDir.insert key kdVal) (max currId kdVal.id)
      else (keyDir, currId) := by
  have hshape : hintEntry key kdVal ++ rest = leBytes 4 kdVal.tstamp ++ leBytes 4 kdVal.id ++ leBytes 4 key.length ++
      leBytes 4 kdVal.vsize ++ leBytes 4 kdVal.vpos ++ (key ++ rest) := by
    rw [hintEntry, Nat.mod_eq_of_lt h.key, List.append_assoc]
  obtain ⟨bytes, hbytes⟩ : ∃ bytes, hintEntry key kdVal ++ rest = bytes := ⟨_, rfl⟩
  rw [hbytes] at hshape ⊢
  have htstamp : ofLeBytes (bytes.take 4) = kdVal.tstamp := by
    conv_rhs => rw [← FileEntry.ofLeBytes_field h.tstamp]
    simp [hshape]
  have hid : ofLeBytes ((bytes.drop 4).take 4) = kdVal.id := by
    conv_rhs => rw [← FileEntry.ofLeBytes_field h.id]
    simp [hshape]
  have hksz : ofLeBytes ((bytes.drop 8).take 4) = key.length := by
    conv_rhs => rw [← FileEntry.ofLeBytes_field h.key]
    simp [hshape, List.drop_append, List.drop_of_length_le]
  have hvsz : ofLeBytes ((bytes.drop 12).take 4) = kdVal.vsize := by
    conv_rhs => rw [← FileEntry.ofLeBytes_field h.vsize]
    simp [hshape, List.drop_append, List.drop_of_length_le]
  have hvpos : ofLeBytes ((bytes.drop 16).take 4) = kdVal.vpos := by
    conv_rhs => rw [← FileEntry.ofLeBytes_field h.vpos]
    simp [hshape, List.drop_append, List.drop_of_length_le]
  have hbody : bytes.drop 20 = key ++ rest := by simp [hshape, List.drop_append, List.drop_of_length_le]
  have hlong : ¬ bytes.length < 20 := by simp [hshape]; omega
  rw [loadHintLoop, if_neg hlong]
  simp only [htstamp, hid, hksz, hvsz, hvpos, hbody, List.take_left, List.drop_left]
  rw [if_neg (by simp : ¬ (key ++ rest).length < key.length)]

lemma loadHintLoop_entries {es : List (Bytes × KeyDirValue)} (hsized : ∀ e ∈ es, HintSized e.1 e.2)
    (hnodup : (es.map Prod.fst).Nodup) (hnew : ∀ e ∈ es, e.1 ∉ keyDir) (hcount : keyDir.keys.length + es.length = count)
    (hfuel : es.length ≤ fuel) : ∃ keyDir' currId',
      loadHintLoop count fuel (es.flatMap fun e => hintEntry e.1 e.2) keyDir currId = (keyDir', currId') ∧
        (∀ e ∈ es, keyDir'.lookup e.1 = some e.2) ∧ ∀ k ∉ es.map Prod.fst, keyDir'.lookup k = keyDir.lookup k := by
  induction es generalizing keyDir currId fuel with
  | nil =>
    refine ⟨keyDir, currId, ?_, fun e he => absurd he List.not_mem_nil, fun _ _ => rfl⟩
    cases fuel with
    | zero => rfl
    | succ fuel => rw [loadHintLoop, if_neg (by rw [← hcount]; simp)]
  | cons e es ih =>
    obtain ⟨key, kdVal⟩ := e
    obtain ⟨fuel, rfl⟩ : ∃ n, fuel = n + 1 := ⟨fuel - 1, by simp at hfuel; omega⟩
    rw [List.map_cons, List.nodup_cons] at hnodup
    have hkey : key ∉ keyDir := hnew _ (List.mem_cons_self ..)
    have hkeys : (keyDir.insert key kdVal).keys.length = keyDir.keys.length + 1 := by
      rw [AList.insert_of_notMem hkey]
      rfl
    have hnew' : ∀ e ∈ es, e.1 ∉ keyDir.insert key kdVal := by
      intro e he hmem
      rcases (AList.mem_insert _).1 hmem with heq | hmem
      · rw [← heq] at hnodup
        exact hnodup.1 (List.mem_map.2 ⟨e, he, rfl⟩)
      · exact hnew e (List.mem_cons_of_mem _ he) hmem
    obtain ⟨keyDir', currId', hloop, hin, hout⟩ := @ih (keyDir.insert key kdVal) (max currId kdVal.id) fuel
      (fun e he => hsized e (List.mem_cons_of_mem _ he)) hnodup.2 hnew'
      (by rw [hkeys, ← hcount, List.length_cons]; omega) (by simpa using hfuel)
    refine ⟨keyDir', currId', ?_, ?_, ?_⟩
    · rw [List.flatMap_cons, loadHintLoop_entry (hsized _ (List.mem_cons_self ..)), if_pos, if_neg hkey, hloop]
      rw [← hcount, List.length_cons]
      omega
    · intro e he
      rcases List.mem_cons.1 he with rfl | he
      · rw [hout _ hnodup.1, AList.lookup_insert]
      · exact hin e he
    · intro k hk
      rw [List.map_cons, List.mem_cons, not_or] at hk
      rw [hout k hk.2, AList.lookup_insert_ne hk.1]

lemma length_le_hint (es : List (Bytes × KeyDirValue)) : es.length ≤ (es.flatMap fun e => hintEntry e.1 e.2).length :=
  length_le_flatMap (fun e => by simp [hintEntry]) es

/-- A new instance on the first hint file has the key directory of the merge. -/
lemma lookup_hintBlock {es : List (Bytes × KeyDirValue)} (hsized : ∀ e ∈ es, HintSized e.1 e.2)
    (hnodup : (es.map Prod.fst).Nodup) (hcount : es.length < 2 ^ 64) : ∃ keyDir currId,
      loadFromHintFile (ascii "BITCASK" ++ leBytes 8 es.length ++ es.flatMap fun e => hintEntry e.1 e.2) =
        (keyDir, currId) ∧
      (∀ e ∈ es, keyDir.lookup e.1 = some e.2) ∧ ∀ k ∉ es.map Prod.fst, keyDir.lookup k = none := by
  obtain ⟨body, hbody⟩ : ∃ body, (es.flatMap fun e => hintEntry e.1 e.2) = body := ⟨_, rfl⟩
  have hname : (ascii "BITCASK").length = 7 := by decide
  have hread : ofLeBytes (leBytes 8 es.length) = es.length := by
    rw [ofLeBytes_leBytes]
    exact Nat.mod_eq_of_lt hcount
  have hfuel : es.length ≤ (ascii "BITCASK" ++ leBytes 8 es.length ++ body).length := by
    have hle := length_le_hint es
    rw [hbody] at hle
    simp
    omega
  obtain ⟨keyDir, currId, hloop, hin, hout⟩ := @loadHintLoop_entries ∅ 0 _ es.length es hsized hnodup
    (fun _ _ => AList.notMem_empty _) (Nat.zero_add _) hfuel
  refine ⟨keyDir, currId, ?_, hin, fun k hk => by rw [hout k hk]; rfl⟩
  have hfield : ((ascii "BITCASK" ++ leBytes 8 es.length ++ body).drop 7).take 8 = leBytes 8 es.length := by
    rw [List.append_assoc, List.drop_left' hname, List.take_left' (length_leBytes ..)]
  have hrest : (ascii "BITCASK" ++ leBytes 8 es.length ++ body).drop 15 = body :=
    List.drop_left' (by rw [List.length_append, hname, length_leBytes])
  rw [loadFromHintFile, hbody, if_neg, if_neg, hfield, hread, hrest, ← hbody]
  · rw [← hbody] at hloop
    exact hloop
  · rw [List.length_append, List.length_append, hname, length_leBytes]
    omega
  · rw [not_not, List.append_assoc, List.take_left' hname]

/-! ## Runs -/

/-- The pairs the hint file lists. -/
def hintEntries (m : Merging) : List (Bytes × KeyDirValue) :=
  (m.entries.insertionSort EntryLe).map fun entry => (entry.2, (m.keyDir.lookup entry.2).getD ⟨0, 0, 0, 0⟩)

lemma hintBlock_eq (h : m.keyDir.keys.length = (hintEntries m).length) :
    hintBlock m = ascii "BITCASK" ++ leBytes 8 (hintEntries m).length ++
      (hintEntries m).flatMap fun e => hintEntry e.1 e.2 := by
  rw [hintBlock, h, hintEntries, List.flatMap_map]

/-- The hint file of a first merge leads to the same values. -/
theorem AfterMerge.reload (h : AfterMerge s s' m) (hhint : s.disk.hint = none) (hcount : s.keyDir.keys.length < 2 ^ 64)
    (logSize : Nat) (order : List Nat) (k : Bytes) : (load logSize s'.disk order).get k = s'.get k := by
  have hperm : ((hintEntries m).map Prod.fst).Perm s.keyDir.keys := by
    have hkeys : (hintEntries m).map Prod.fst = (m.entries.insertionSort EntryLe).map Prod.snd := by
      rw [hintEntries, List.map_map]
      rfl
    rw [hkeys]
    exact ((List.perm_insertionSort EntryLe _).map Prod.snd).trans h.all
  have hlen : (hintEntries m).length = s.keyDir.keys.length := by rw [← hperm.length_eq, List.length_map]
  have hlookup : ∀ e ∈ hintEntries m, m.keyDir.lookup e.1 = some e.2 ∧ HintSized e.1 e.2 := by
    intro e he
    have hkey : e.1 ∈ s.keyDir := hperm.mem_iff.1 (List.mem_map_of_mem he)
    obtain ⟨entry, -, rfl⟩ := List.mem_map.1 he
    obtain ⟨kdVal, hkdVal⟩ := Option.isSome_iff_exists.1 (AList.lookup_isSome.2 hkey)
    have hdone := h.mem_iff.2 hkey
    obtain ⟨kdVal', hkdVal', hstored⟩ := h.merged.stored _ hdone kdVal hkdVal
    have hid : kdVal'.id < 2 ^ 32 := lt_of_le_of_lt hstored.id h.merged.currId
    rw [hkdVal']
    exact ⟨rfl, h.merged.short _ hdone, hstored.tstamp, hid, hstored.vsize, hstored.vpos⟩
  obtain ⟨keyDir, currId, hload, hin, hout⟩ := lookup_hintBlock (fun e he => (hlookup e he).2)
    (hperm.nodup_iff.2 s.keyDir.keys_nodup) (by rw [hlen]; exact hcount)
  have hget : (load logSize s'.disk order).get k = (keyDir.lookup k).map s'.disk.casks.readValue := by
    rw [load, h.hint, hhint, Option.getD_none, List.nil_append, hintBlock_eq (h.merged.keys.length_eq.trans hlen.symm)]
    simp only [hload]
    rw [Bitcask.get]
    exact congrArg (fun f => (keyDir.lookup k).map f) (funext fun _ => readValue_congr (content_openApp _ _ _))
  have hsame : keyDir.lookup k = m.keyDir.lookup k := by
    by_cases hk : k ∈ (hintEntries m).map Prod.fst
    · obtain ⟨e, he, rfl⟩ := List.mem_map.1 hk
      rw [hin e he, (hlookup e he).1]
    · have hkeys : k ∉ m.keyDir := fun hmem => hk (hperm.mem_iff.2 (h.merged.keys.mem_iff.1 hmem))
      rw [hout k hk, AList.lookup_eq_none.2 hkeys]
  rw [hget, Bitcask.get, h.keyDir, hsame]

lemma Narrow.insert (h : Narrow keyDir) (key : Bytes) (e : FileEntry) (hv : e.vsz < 2 ^ 32) (id : Nat) :
    Narrow (keyDir.insert key (e.kd id)) := by
  intro k kdVal hk
  by_cases hkk : k = key
  · subst hkk
    rw [AList.lookup_insert] at hk
    cases hk
    exact hv
  · rw [AList.lookup_insert_ne hkk] at hk
    exact h k kdVal hk

lemma Narrow.erase (h : Narrow keyDir) (key : Bytes) : Narrow (keyDir.erase key) := by
  intro k kdVal hk
  by_cases hkk : k = key
  · subst hkk
    rw [AList.lookup_erase] at hk
    cases hk
  · rw [AList.lookup_erase_ne hkk] at hk
    exact h k kdVal hk

lemma narrow_mergeLoop (h : Narrow m.keyDir) (hloop : mergeLoop logSize casks entries m = some m') :
    Narrow m'.keyDir := by
  induction entries generalizing m with
  | nil =>
    cases hloop
    exact h
  | cons entry rest ih =>
    rw [mergeLoop, mergeStep] at hloop
    cases hlookup : m.keyDir.lookup entry.1 with
    | none =>
      rw [hlookup] at hloop
      cases hloop
    | some kdVal =>
      rw [hlookup] at hloop
      refine ih ?_ hloop
      exact h.insert _ _ (Nat.mod_lt _ (by decide)) _

lemma narrow_step {command : Command} (h : Narrow s.keyDir) (hstep : s.step logSize command = some s') :
    Narrow s'.keyDir := by
  cases command with
  | write w =>
    cases hstep
    cases w with
    | set key value now => exact h.insert key _ (Nat.mod_lt _ (by decide)) _
    | erase key => exact h.erase key
  | merge entries =>
    rw [step, merge] at hstep
    split_ifs at hstep
    cases hloop : mergeLoop logSize s.disk.casks entries (Merging.start s.keyDir) with
    | none =>
      rw [hloop] at hstep
      cases hstep
    | some m =>
      rw [hloop] at hstep
      cases hstep
      exact narrow_mergeLoop h hloop

lemma narrow_run {calls : List (Command × Nat)} (h : Narrow s.keyDir) (hrun : s.run calls = some s') :
    Narrow s'.keyDir := by
  induction calls generalizing s with
  | nil =>
    cases hrun
    exact h
  | cons call rest ih =>
    rw [run] at hrun
    cases hstep : s.step call.2 call.1 with
    | none =>
      rw [hstep] at hrun
      cases hrun
    | some s1 =>
      rw [hstep] at hrun
      exact ih (narrow_step h hstep) hrun

lemma hint_run {calls : List (Command × Nat)} (hwrites : ∀ call ∈ calls, ∃ w, call.1 = .write w)
    (hrun : s.run calls = some s') : s'.disk.hint = s.disk.hint := by
  induction calls generalizing s with
  | nil =>
    cases hrun
    rfl
  | cons call rest ih =>
    obtain ⟨w, hw⟩ := hwrites call (List.mem_cons_self ..)
    rw [run, hw] at hrun
    rw [ih (fun c hc => hwrites c (List.mem_cons_of_mem _ hc)) hrun]
    cases w <;> rfl

lemma narrow_create : Narrow create.keyDir := by
  intro k kdVal h
  cases h

/-- Whatever went before, a merge of sizes that fit does not change what is found. -/
theorem get_merge {calls : List (Command × Nat)} (hrun : create.run calls = some s)
    (hfits : MergeFits logSize s.disk.casks entries (Merging.start s.keyDir))
      (hmerge : s.merge logSize entries = some s')
    (k : Bytes) : s'.get k = s.get k := by
  obtain ⟨m, hafter⟩ := afterMerge (narrow_run narrow_create hrun) hfits hmerge
  exact hafter.get k

/-- The merge leaves what is found unchanged, and a new instance finds the same. -/
def MergeSafe (s s' : Bitcask) : Prop :=
  (∀ k, s'.get k = s.get k) ∧ ∀ logSize order k, (load logSize s'.disk order).get k = s'.get k

/-- A store with one key. -/
def oneKey : Bitcask := create.write 2000000000 (.set [107] [97] 5)

end CppExperiments.Bitcask

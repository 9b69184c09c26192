import CppExperiments.Cgit.Entries
import CppExperiments.Cgit.Staging
import CppExperiments.Cgit.TreeText
import Mathlib.Data.List.Nodup

/-!
# The index of a run

What the index file holds after any run of additions and removals.
-/

namespace CppExperiments.Cgit

namespace Repository

variable {σ : Type} {fs : FileSystem σ} {workTree name name' path : Bytes} {paths : List PathPair}
  {entries : List GitIndexEntry}
  {repo : Repository σ} {e e' : GitIndexEntry} {abss : List Bytes}

/-! ## Paths -/

lemma same_append_iff (workTree : Bytes) (h : Relative name) (h' : Relative name') :
    Path.same (Path.append workTree name) (Path.append workTree name') = true ↔ name = name' := by
  obtain ⟨-, cs, hcs, hnames, rfl⟩ := h
  obtain ⟨-, ds, hds, hnames', rfl⟩ := h'
  rw [Path.same_append_joined hnames hnames' hcs hds]
  exact ⟨fun heq => by rw [heq], fun heq => Path.joined_inj hnames hnames' heq⟩

/-- A path is in the set if it was given in whatever spelling. -/
lemma any_absPaths (paths : List PathPair) (path : Bytes) :
    (absPaths paths).any (Path.same path) = true ↔ ∃ p ∈ paths, Path.same p.absPath path = true := by
  have hfold : ∀ abss : List Bytes, ((paths.foldl (fun abss p =>
      if abss.any (Path.same p.absPath) then abss else p.absPath :: abss) abss).any (Path.same path) = true ↔
        abss.any (Path.same path) = true ∨ ∃ p ∈ paths, Path.same p.absPath path = true) := by
    induction paths with
    | nil => exact fun abss => by simp
    | cons p paths ih =>
      intro abss
      rw [List.foldl_cons, ih, List.exists_mem_cons_iff, ← or_assoc]
      refine or_congr_left ?_
      by_cases hany : abss.any (Path.same p.absPath) = true
      · rw [if_pos hany]
        obtain ⟨q, hq, hsame⟩ := List.any_eq_true.1 hany
        refine ⟨.inl, ?_⟩
        rintro (h | h)
        · exact h
        · exact List.any_eq_true.2 ⟨q, hq, Path.same_trans (Path.same_symm h) hsame⟩
      · rw [if_neg hany, List.any_cons, Bool.or_eq_true, or_comm]
        exact or_congr_right ⟨Path.same_symm, Path.same_symm⟩
  rw [absPaths, hfold]
  simp

lemma mem_of_mem_absPaths (h : path ∈ absPaths paths) : ∃ p ∈ paths, path = p.absPath := by
  have hfold : ∀ abss : List Bytes, path ∈ paths.foldl (fun abss p =>
      if abss.any (Path.same p.absPath) then abss else p.absPath :: abss) abss →
        path ∈ abss ∨ ∃ p ∈ paths, path = p.absPath := by
    clear h
    induction paths with
    | nil => exact fun abss => .inl
    | cons p paths ih =>
      intro abss hmem
      rw [List.exists_mem_cons_iff]
      rw [List.foldl_cons] at hmem
      rcases ih _ hmem with h | h
      · split at h
        · exact .inl h
        · rcases List.mem_cons.1 h with h | h
          · exact .inr (.inl h)
          · exact .inl h
      · exact .inr (.inr h)
  rcases hfold [] h with h | h
  · cases h
  · exact h

/-! ## Removing -/

lemma entries_sweep (hrel : ∀ e ∈ entries, Relative e.name) (hnodup : (entries.map GitIndexEntry.name).Nodup)
    (abss : List Bytes) :
    (sweep workTree entries abss).entries =
      entries.filter fun e => !abss.any (Path.same (Path.append workTree e.name)) := by
  induction entries generalizing abss with
  | nil => rfl
  | cons e entries ih =>
    rw [List.forall_mem_cons] at hrel
    rw [List.map_cons, List.nodup_cons] at hnodup
    rw [sweep]
    by_cases hany : abss.any (Path.same (Path.append workTree e.name)) = true
    · rw [if_pos hany, List.filter_cons_of_neg (by simp [hany]), ih hrel.2 hnodup.2]
      refine List.filter_congr fun e' he' => congrArg (! ·) ?_
      rw [Bool.eq_iff_iff, List.any_filter]
      simp only [List.any_eq_true, Bool.and_eq_true, Bool.not_eq_true']
      constructor
      · rintro ⟨q, hq, -, hsame⟩
        exact ⟨q, hq, hsame⟩
      · rintro ⟨q, hq, hsame⟩
        refine ⟨q, hq, ?_, hsame⟩
        by_contra hne
        rw [Bool.not_eq_false] at hne
        have heq := (same_append_iff workTree hrel.1 (hrel.2 e' he')).1
          (Path.same_trans hne (Path.same_symm hsame))
        exact hnodup.1 (heq ▸ List.mem_map_of_mem he')
    · rw [if_neg hany, List.filter_cons_of_pos (by simp [hany])]
      exact congrArg (e :: ·) (ih hrel.2 hnodup.2 abss)

/-- An index file that the code reads as it wrote it, with one entry for a name. -/
structure Sound (file : Option Bytes) (entries : List GitIndexEntry) : Prop where
  read : GitIndex.readFromFile file = some { entries := entries }
  proper : ∀ e ∈ entries, e.Proper
  relative : ∀ e ∈ entries, Relative e.name
  short : ∀ e ∈ entries, e.name.length < rawNameSize
  nodup : (entries.map GitIndexEntry.name).Nodup
  count : entries.length < 2 ^ 32

lemma exists_read (hproper : ∀ e ∈ entries, e.Proper) (hshort : ∀ e ∈ entries, e.name.length < rawNameSize)
    (hcount : entries.length < 2 ^ 32) : ∃ raw, ({ entries := entries } : GitIndex).writeToFile = some raw ∧
      GitIndex.readFromFile (some raw) = some { entries := entries } := by
  have hval : (entries.attachWith _ hproper).map Subtype.val = entries := List.attachWith_map_subtype_val _
  have hname : ∀ e ∈ entries.attachWith _ hproper, e.val.name.length < rawNameSize := by
    intro e he
    exact hshort e.val (hval ▸ List.mem_map_of_mem he)
  obtain ⟨raw, hwrite, hread⟩ := restored_of_fits hname (by rwa [List.length_attachWith])
  rw [GitIndex.ofEntries, hval] at hwrite hread
  exact ⟨raw, hwrite, hread⟩

lemma exists_write (hproper : ∀ e ∈ entries, e.Proper) (hrel : ∀ e ∈ entries, Relative e.name)
    (hshort : ∀ e ∈ entries, e.name.length < rawNameSize) (hnodup : (entries.map GitIndexEntry.name).Nodup)
    (hcount : entries.length < 2 ^ 32) :
    ∃ raw, ({ entries := entries } : GitIndex).writeToFile = some raw ∧ Sound (some raw) entries := by
  obtain ⟨raw, hwrite, hread⟩ := exists_read hproper hshort hcount
  exact ⟨raw, hwrite, hread, hproper, hrel, hshort, hnodup, hcount⟩

/-- The entries that are not at any of the absolute paths. -/
def kept (workTree : Bytes) (entries : List GitIndexEntry) (paths : List PathPair) : List GitIndexEntry :=
  entries.filter fun e => !decide (∃ p ∈ paths, Path.same p.absPath (Path.append workTree e.name) = true)

lemma mem_kept : e ∈ kept workTree entries paths ↔
    e ∈ entries ∧ ¬ ∃ p ∈ paths, Path.same p.absPath (Path.append workTree e.name) = true := by
  rw [kept, List.mem_filter, Bool.not_eq_true', decide_eq_false_iff_not]

lemma Sound.sweep_eq {file : Option Bytes} (h : Sound file entries) (paths : List PathPair) :
    (sweep workTree entries (absPaths paths)).entries = kept workTree entries paths := by
  rw [entries_sweep h.relative h.nodup, kept]
  refine List.filter_congr fun e _ => congrArg (! ·) ?_
  rw [Bool.eq_iff_iff, any_absPaths, decide_eq_true_iff]

lemma Sound.exists_write_kept {file : Option Bytes} (h : Sound file entries) (workTree : Bytes)
    (paths : List PathPair) :
    ∃ raw, ({ entries := kept workTree entries paths } : GitIndex).writeToFile = some raw ∧
      Sound (some raw) (kept workTree entries paths) := by
  have hsub : (kept workTree entries paths).Sublist entries := List.filter_sublist
  exact exists_write (fun e he => h.proper e (hsub.subset he)) (fun e he => h.relative e (hsub.subset he))
    (fun e he => h.short e (hsub.subset he)) (h.nodup.sublist (hsub.map _)) (hsub.length_le.trans_lt h.count)

/-- A removal leaves the index file, or writes it without the entries at the absolute paths. -/
lemma rm_cases (fs : FileSystem σ) (workTree : Bytes) (h : Sound repo.indexFile entries) (paths : List PathPair)
    (delete_ skipMissing : Bool) :
    rm fs workTree repo paths delete_ skipMissing = (repo, .missing) ∨
      (∃ files, rm fs workTree repo paths delete_ skipMissing = ({ repo with files := files }, .failed)) ∨
      ∃ raw files, rm fs workTree repo paths delete_ skipMissing =
        ({ repo with indexFile := some raw, files := files }, .done { entries := kept workTree entries paths }) ∧
        Sound (some raw) (kept workTree entries paths) := by
  obtain ⟨raw, hwrite, hsound⟩ := h.exists_write_kept workTree paths
  rw [rm, h.read]
  dsimp only
  rw [h.sweep_eq]
  split
  · exact .inl rfl
  · generalize (if delete_ = true then removeAll fs repo.files _ else (repo.files, true)) = r
    obtain ⟨files, removed⟩ := r
    cases removed with
    | false => exact .inr (.inl ⟨files, rfl⟩)
    | true =>
      dsimp only
      rw [hwrite]
      exact .inr (.inr ⟨raw, files, rfl, hsound⟩)

/-- The removal with which an addition begins. -/
lemma exists_rm (fs : FileSystem σ) (workTree : Bytes) (h : Sound repo.indexFile entries) (paths : List PathPair) :
    ∃ raw, rm fs workTree repo paths false true =
      ({ repo with indexFile := some raw }, .done { entries := kept workTree entries paths }) ∧
      Sound (some raw) (kept workTree entries paths) := by
  obtain ⟨raw, hwrite, hsound⟩ := h.exists_write_kept workTree paths
  refine ⟨raw, ?_, hsound⟩
  rw [rm, h.read]
  dsimp only
  rw [h.sweep_eq, if_neg (by simp), if_neg (by simp)]
  dsimp only
  rw [hwrite]

/-- The absolute paths that remain are those that no entry has. -/
lemma mem_absPaths_sweep : path ∈ (sweep workTree entries abss).absPaths ↔
    path ∈ abss ∧ ∀ e ∈ entries, Path.same (Path.append workTree e.name) path = false := by
  induction entries generalizing abss with
  | nil => simp [sweep]
  | cons e entries ih =>
    rw [sweep, List.forall_mem_cons]
    by_cases hany : abss.any (Path.same (Path.append workTree e.name)) = true
    · rw [if_pos hany]
      dsimp only
      rw [ih, List.mem_filter, Bool.not_eq_true', and_assoc]
    · rw [if_neg hany]
      dsimp only
      rw [ih]
      refine and_congr_right fun hmem => (and_iff_right ?_).symm
      rw [List.any_eq_true, not_exists] at hany
      exact Bool.eq_false_iff.2 fun hsame => hany path ⟨hmem, hsame⟩

theorem rm_missing_iff (h : Sound repo.indexFile entries) (paths : List PathPair) (delete_ : Bool) :
    (rm fs workTree repo paths delete_ false).2 = .missing ↔
      ∃ p ∈ paths, ∀ e ∈ entries, Path.same (Path.append workTree e.name) p.absPath = false := by
  have hrest : (sweep workTree entries (absPaths paths)).absPaths ≠ [] ↔
      ∃ p ∈ paths, ∀ e ∈ entries, Path.same (Path.append workTree e.name) p.absPath = false := by
    constructor
    · intro hne
      obtain ⟨q, hq⟩ := List.exists_mem_of_ne_nil _ hne
      obtain ⟨hmem, hnone⟩ := mem_absPaths_sweep.1 hq
      obtain ⟨p, hp, rfl⟩ := mem_of_mem_absPaths hmem
      exact ⟨p, hp, hnone⟩
    · rintro ⟨p, hp, hnone⟩
      obtain ⟨q, hq, hsame⟩ := List.any_eq_true.1 ((any_absPaths paths p.absPath).2 ⟨p, hp, Path.same_refl _⟩)
      refine List.ne_nil_of_mem (mem_absPaths_sweep.2 ⟨hq, fun e he => ?_⟩)
      by_contra hfull
      rw [Bool.not_eq_false] at hfull
      have hcontra := Path.same_trans hfull (Path.same_symm hsame)
      rw [hnone e he] at hcontra
      cases hcontra
  rw [← hrest, rm, h.read]
  dsimp only
  by_cases hne : (sweep workTree entries (absPaths paths)).absPaths ≠ []
  · rw [if_pos ⟨hne, rfl⟩]
    exact iff_of_true rfl hne
  · rw [if_neg fun h => hne h.1]
    refine iff_of_false (fun h => ?_) hne
    split at h <;> cases h

/-- A removal that throws for a missing path changes nothing. -/
lemma rm_of_missing {delete_ skipMissing : Bool} (h : (rm fs workTree repo paths delete_ skipMissing).2 = .missing) :
    (rm fs workTree repo paths delete_ skipMissing).1 = repo := by
  rw [rm] at h ⊢
  cases hread : GitIndex.readFromFile repo.indexFile with
  | none => rfl
  | some index =>
    rw [hread] at h
    dsimp only at h ⊢
    by_cases hmissing : (sweep workTree index.entries (absPaths paths)).absPaths ≠ [] ∧ skipMissing = false
    · rw [if_pos hmissing]
    · rw [if_neg hmissing] at h
      split at h <;> cases h

/-! ## Adding -/

/-- The entry that is added for a path. -/
def added (fs : FileSystem σ) (files : σ) (p : PathPair) : Option GitIndexEntry :=
  (fs.find files p.absPath).map fun file => newEntry file (blobSha file.read) p.relPath

lemma exists_stage {files : σ} (hfound : ∀ p ∈ paths, (fs.find files p.absPath).isSome) (store : Store)
    (entries : List GitIndexEntry) :
    ∃ store', stage fs files paths store entries = (store', some (entries ++ paths.filterMap (added fs files))) := by
  induction paths generalizing store entries with
  | nil => exact ⟨store, by rw [stage, List.filterMap_nil, List.append_nil]⟩
  | cons p paths ih =>
    rw [List.forall_mem_cons] at hfound
    obtain ⟨file, hfile⟩ := Option.isSome_iff_exists.1 hfound.1
    have hadded : added fs files p = some (newEntry file (blobSha file.read) p.relPath) := by rw [added, hfile]; rfl
    obtain ⟨store', hstage⟩ := ih hfound.2 (writeObject (ascii "blob") file.read store).2
      (entries ++ [newEntry file (blobSha file.read) p.relPath])
    refine ⟨store', ?_⟩
    rw [List.append_assoc, List.singleton_append] at hstage
    rw [List.filterMap_cons_some hadded, ← hstage, stage, hfile]
    rfl

lemma map_name_added {files : σ} (hfound : ∀ p ∈ paths, (fs.find files p.absPath).isSome) :
    (paths.filterMap (added fs files)).map GitIndexEntry.name = paths.map PathPair.relPath := by
  induction paths with
  | nil => rfl
  | cons p paths ih =>
    rw [List.forall_mem_cons] at hfound
    obtain ⟨file, hfile⟩ := Option.isSome_iff_exists.1 hfound.1
    have hadded : added fs files p = some (newEntry file (blobSha file.read) p.relPath) := by rw [added, hfile]; rfl
    rw [List.filterMap_cons_some hadded, List.map_cons, List.map_cons, ih hfound.2]
    rfl

lemma mem_added {files : σ} : e ∈ paths.filterMap (added fs files) ↔
    ∃ p ∈ paths, ∃ file, fs.find files p.absPath = some file ∧ e = newEntry file (blobSha file.read) p.relPath := by
  rw [List.mem_filterMap]
  refine exists_congr fun p => and_congr_right fun _ => ?_
  rw [added, Option.map_eq_some_iff]
  exact exists_congr fun file => and_congr_right fun _ => eq_comm

lemma proper_newEntry (file : File) (contents : Bytes) {name : Bytes} (h : Relative name) :
    (newEntry file (blobSha contents) name).Proper := by
  obtain ⟨hzero, cs, hcs, hnames, rfl⟩ := h
  refine ⟨⟨?_, ?_, isSha_sha1 _, ?_⟩, fun hnil => ?_, hzero⟩
  · show (8 : UInt16) < 16
    decide
  · show (0o644 : UInt16) < 512
    decide
  · show (0 : UInt16) &&& 0x3000 = 0
    decide
  · have hcomponents := Path.components_joined hnames
    rw [show Path.joined cs = [] from hnil, Path.components_nil] at hcomponents
    exact hcs hcomponents.symm

lemma new_proper {files : σ} (hshort : ∀ p ∈ paths, p.relPath.length < rawNameSize)
    (he : e ∈ paths.filterMap (added fs files)) : e.Proper ∧ Relative e.name ∧ e.name.length < rawNameSize := by
  obtain ⟨p, hp, file, -, rfl⟩ := mem_added.1 he
  exact ⟨proper_newEntry file _ p.relative, p.relative, hshort p hp⟩

/-- An addition writes the entries at other paths, and behind them the new ones. -/
lemma exists_add (workTree : Bytes) (h : Sound repo.indexFile entries)
    (hfound : ∀ p ∈ paths, (fs.find repo.files p.absPath).isSome)
    (hshort : ∀ p ∈ paths, p.relPath.length < rawNameSize) (hcount : entries.length + paths.length < 2 ^ 32) :
    ∃ raw store, add fs workTree repo paths = ({ repo with indexFile := some raw, store := store },
      .done { entries := kept workTree entries paths ++ paths.filterMap (added fs repo.files) }) ∧
      GitIndex.readFromFile (some raw) =
        some { entries := kept workTree entries paths ++ paths.filterMap (added fs repo.files) } := by
  obtain ⟨raw, hrm, hsound⟩ := exists_rm fs workTree h paths
  obtain ⟨store, hstage⟩ := exists_stage hfound repo.store (kept workTree entries paths)
  have hlength : (paths.filterMap (added fs repo.files)).length ≤ paths.length := List.length_filterMap_le _ _
  have hkept : (kept workTree entries paths).length ≤ entries.length := List.length_filter_le _ _
  have hsum : (kept workTree entries paths ++ paths.filterMap (added fs repo.files)).length < 2 ^ 32 := by
    rw [List.length_append]
    omega
  obtain ⟨raw', hwrite, hread⟩ := exists_read
    (List.forall_mem_append.2 ⟨hsound.proper, fun e he => (new_proper hshort he).1⟩)
    (List.forall_mem_append.2 ⟨hsound.short, fun e he => (new_proper hshort he).2.2⟩) hsum
  refine ⟨raw', store, ?_, hread⟩
  rw [add, hrm]
  dsimp only
  rw [hstage]
  dsimp only
  rw [hwrite]

/-- The new entries have names that the others do not have. -/
lemma nodup_add (h : Sound repo.indexFile entries) (hadd : Addable fs workTree repo paths) :
    ((kept workTree entries paths ++ paths.filterMap (added fs repo.files)).map GitIndexEntry.name).Nodup := by
  have hkept : ((kept workTree entries paths).map GitIndexEntry.name).Nodup :=
    h.nodup.sublist (List.filter_sublist.map _)
  rw [List.map_append, map_name_added hadd.found]
  refine List.nodup_append.2 ⟨hkept, hadd.distinct, fun name hname name' hname' heq => ?_⟩
  obtain ⟨e, he, rfl⟩ := List.mem_map.1 hname
  obtain ⟨p, hp, rfl⟩ := List.mem_map.1 hname'
  obtain ⟨he, hnot⟩ := mem_kept.1 he
  exact hnot ⟨p, hp, (hadd.placed _ h.read e he p hp).1 heq.symm⟩

lemma sound_add {raw : Bytes} (h : Sound repo.indexFile entries) (hadd : Addable fs workTree repo paths)
    (hread : GitIndex.readFromFile (some raw) =
      some { entries := kept workTree entries paths ++ paths.filterMap (added fs repo.files) }) :
    Sound (some raw) (kept workTree entries paths ++ paths.filterMap (added fs repo.files)) where
  read := hread
  proper := List.forall_mem_append.2 ⟨fun e he => h.proper e (mem_kept.1 he).1,
    fun e he => (new_proper hadd.short he).1⟩
  relative := List.forall_mem_append.2 ⟨fun e he => h.relative e (mem_kept.1 he).1,
    fun e he => (new_proper hadd.short he).2.1⟩
  short := List.forall_mem_append.2 ⟨fun e he => h.short e (mem_kept.1 he).1,
    fun e he => (new_proper hadd.short he).2.2⟩
  nodup := nodup_add h hadd
  count := by
    have hlength : (paths.filterMap (added fs repo.files)).length ≤ paths.length := List.length_filterMap_le _ _
    have hkept : (kept workTree entries paths).length ≤ entries.length := List.length_filter_le _ _
    have hcount : entries.length + paths.length < 2 ^ 32 := hadd.count _ h.read
    rw [List.length_append]
    omega

/-! ## Runs -/

/-- The entries are what is tracked. -/
def Agrees (entries : List GitIndexEntry) (tracked : Tracked) : Prop :=
  ∀ name sha, (∃ e ∈ entries, e.name = name ∧ e.sha = sha) ↔ ∃ contents ∈ tracked name, sha = blobSha contents

variable {tracked : Tracked}

lemma agrees_add (h : Sound repo.indexFile entries) (hadd : Addable fs workTree repo paths)
    (hagrees : Agrees entries tracked) :
    Agrees (kept workTree entries paths ++ paths.filterMap (added fs repo.files))
      (track fs workTree repo tracked (.add paths)) := by
  intro name sha
  simp only [List.mem_append, or_and_right, exists_or]
  cases hfind : paths.find? fun p => p.relPath = name with
  | some p =>
    have hp := List.mem_of_find?_eq_some hfind
    have hname : p.relPath = name := by simpa using List.find?_some hfind
    obtain ⟨file, hfile⟩ := Option.isSome_iff_exists.1 (hadd.found p hp)
    have htrack : track fs workTree repo tracked (.add paths) name = some file.contents := by
      rw [track]
      dsimp only
      rw [hfind]
      dsimp only
      rw [hfile]
      rfl
    have hread : file.read = file.contents := if_pos (hadd.readable p hp file hfile)
    rw [htrack]
    constructor
    · rintro (⟨e, he, rfl, -⟩ | ⟨e, he, hename, rfl⟩)
      · obtain ⟨he, hnot⟩ := mem_kept.1 he
        exact absurd ⟨p, hp, (hadd.placed _ h.read e he p hp).1 hname⟩ hnot
      · obtain ⟨p', hp', file', hfile', rfl⟩ := mem_added.1 he
        obtain rfl : p' = p := List.inj_on_of_nodup_map hadd.distinct hp' hp (hename.trans hname.symm)
        obtain rfl := Option.some.inj (hfile.symm.trans hfile')
        exact ⟨file.contents, rfl, congrArg blobSha hread⟩
    · rintro ⟨contents, hcontents, rfl⟩
      obtain rfl : file.contents = contents := Option.some.inj hcontents
      exact .inr ⟨_, mem_added.2 ⟨p, hp, file, hfile, rfl⟩, hname, congrArg blobSha hread⟩
  | none =>
    have hnot : ∀ p ∈ paths, p.relPath ≠ name := fun p hp => by simpa using List.find?_eq_none.1 hfind p hp
    have htrack : track fs workTree repo tracked (.add paths) name = tracked name := by
      rw [track]
      dsimp only
      rw [hfind]
    rw [htrack, ← hagrees name sha]
    constructor
    · rintro (⟨e, he, hename⟩ | ⟨e, he, hename, -⟩)
      · exact ⟨e, (mem_kept.1 he).1, hename⟩
      · obtain ⟨p, hp, file, -, rfl⟩ := mem_added.1 he
        exact absurd hename (hnot p hp)
    · rintro ⟨e, he, rfl, hsha⟩
      refine .inl ⟨e, mem_kept.2 ⟨he, ?_⟩, rfl, hsha⟩
      rintro ⟨p, hp, hsame⟩
      exact hnot p hp ((hadd.placed _ h.read e he p hp).2 hsame)

lemma agrees_kept (hagrees : Agrees entries tracked) (paths : List PathPair) :
    Agrees (kept workTree entries paths) fun name =>
      if ∃ p ∈ paths, Path.same p.absPath (Path.append workTree name) then none else tracked name := by
  intro name sha
  dsimp only
  by_cases hpath : ∃ p ∈ paths, Path.same p.absPath (Path.append workTree name) = true
  · rw [if_pos hpath]
    refine iff_of_false ?_ (fun ⟨contents, hcontents, _⟩ => by cases hcontents)
    rintro ⟨e, he, rfl, -⟩
    exact (mem_kept.1 he).2 hpath
  · rw [if_neg hpath, ← hagrees name sha]
    constructor
    · rintro ⟨e, he, hname⟩
      exact ⟨e, (mem_kept.1 he).1, hname⟩
    · rintro ⟨e, he, rfl, hsha⟩
      exact ⟨e, mem_kept.2 ⟨he, hpath⟩, rfl, hsha⟩

/-- One command keeps the index what is tracked. -/
lemma exists_step (h : Sound repo.indexFile entries) (hagrees : Agrees entries tracked) (c : Command σ)
    (hc : Allowed fs workTree repo c) :
    ∃ entries', Sound (step fs workTree repo c).indexFile entries' ∧
      Agrees entries' (track fs workTree repo tracked c) := by
  cases c with
  | add paths =>
    obtain ⟨raw, store, hadd, hread⟩ := exists_add workTree h hc.found hc.short (hc.count _ h.read)
    refine ⟨_, ?_, agrees_add h hc hagrees⟩
    rw [step, hadd]
    exact sound_add h hc hread
  | rm paths delete_ skipMissing =>
    rcases rm_cases fs workTree h paths delete_ skipMissing with heq | ⟨files, heq⟩ | ⟨raw, files, heq, hsound⟩
    · refine ⟨entries, ?_, ?_⟩
      · rw [step, heq]
        exact h
      · rw [track, heq]
        exact hagrees
    · refine ⟨entries, ?_, ?_⟩
      · rw [step, heq]
        exact h
      · rw [track, heq]
        exact hagrees
    · refine ⟨kept workTree entries paths, ?_, ?_⟩
      · rw [step, heq]
        exact hsound
      · rw [track, heq]
        exact agrees_kept hagrees paths
  | edit files => exact ⟨entries, h, hagrees⟩

lemma exists_run (commands : List (Command σ)) (h : Sound repo.indexFile entries) (hagrees : Agrees entries tracked)
    (hall : AllAllowed fs workTree repo commands) :
    ∃ entries', Sound (run fs workTree repo tracked commands).1.indexFile entries' ∧
      Agrees entries' (run fs workTree repo tracked commands).2 := by
  induction commands generalizing repo tracked entries with
  | nil => exact ⟨entries, h, hagrees⟩
  | cons c commands ih =>
    obtain ⟨hc, hrest⟩ := hall
    obtain ⟨entries', h', hagrees'⟩ := exists_step h hagrees c hc
    exact ih h' hagrees' hrest

lemma sound_nil : Sound none [] where
  read := rfl
  proper := by simp
  relative := by simp
  short := by simp
  nodup := List.nodup_nil
  count := by decide

/-- From no index file on, after any run of allowed commands the index holds every tracked name once with the name of
its contents, and a removal that throws for a missing path changes nothing. -/
theorem run_follows (fs : FileSystem σ) (workTree : Bytes) (repo : Repository σ) (commands : List (Command σ))
    (hstart : repo.indexFile = none) (hall : AllAllowed fs workTree repo commands) :
    let after := run fs workTree repo (fun _ => none) commands
    Follows after.1 after.2 ∧ ∀ paths delete_ skipMissing, (rm fs workTree after.1 paths delete_ skipMissing).2 =
      .missing →
      (rm fs workTree after.1 paths delete_ skipMissing).1 = after.1 := by
  have hsound : Sound repo.indexFile [] := hstart ▸ sound_nil
  have hnone : Agrees [] fun _ => none := fun name sha => by simp
  obtain ⟨entries, h, hagrees⟩ := exists_run commands hsound hnone hall
  exact ⟨⟨_, h.read, h.nodup, hagrees⟩, fun paths delete_ skipMissing => rm_of_missing⟩

/-! ### Fixed runs -/

/-- Files by their paths. -/
def listedFiles : FileSystem (List (Bytes × File)) where
  find files path := files.lookup path
  remove files path := some (files.filter fun file => file.1 != path)

def emptyFile : File := ⟨[], true, ⟨0, 0⟩, ⟨0, 0⟩, 0, 0, 0, 0, 0⟩

/-- The file with one letter for its name in the root. -/
def letterPair (b : UInt8) (h : b ≠ 0 ∧ b ≠ 47) : PathPair where
  absPath := [47, b]
  relPath := [b]
  relative := by
    refine ⟨by simp [Ne.symm h.1], [[b]], List.cons_ne_nil _ _, fun c hc => ?_, (Path.joined_singleton [b]).symm⟩
    obtain rfl := List.mem_singleton.1 hc
    exact ⟨List.cons_ne_nil _ _, by simp [Ne.symm h.2]⟩

/-- The files `a` and `b` in a work tree without an index. -/
def lettersRepository : Repository (List (Bytes × File)) where
  indexFile := none
  store := []
  files := [([47, 97], emptyFile), ([47, 98], emptyFile)]

lemma isLetter_a : (97 : UInt8) ≠ 0 ∧ (97 : UInt8) ≠ 47 := by decide

lemma isLetter_b : (98 : UInt8) ≠ 0 ∧ (98 : UInt8) ≠ 47 := by decide

/-- Both files are added and the first one is removed. -/
def addRemove : List (Command (List (Bytes × File))) :=
  [.add [letterPair 97 isLetter_a, letterPair 98 isLetter_b], .rm [letterPair 97 isLetter_a] true false]

theorem run_follows_addRemove : Follows (run listedFiles [47] lettersRepository (fun _ => none) addRemove).1
    (run listedFiles [47] lettersRepository (fun _ => none) addRemove).2 := by
  refine (run_follows listedFiles [47] lettersRepository addRemove rfl ⟨?_, trivial, trivial⟩).1
  refine ⟨by decide, by decide, by decide, by decide, fun index hread => ?_, fun index hread => ?_⟩
  · obtain rfl := Option.some.inj hread
    exact fun e he => by cases he
  · obtain rfl := Option.some.inj hread
    decide

/-- One path twice. -/
def repeated : List PathPair := [letterPair 97 isLetter_a, letterPair 97 isLetter_a]

theorem not_follows_repeated : ¬ Follows (run listedFiles [47] lettersRepository (fun _ => none) [.add repeated]).1
    (run listedFiles [47] lettersRepository (fun _ => none) [.add repeated]).2 := by
  have hfound : ∀ p ∈ repeated, (listedFiles.find lettersRepository.files p.absPath).isSome := by decide
  have hnone : Sound lettersRepository.indexFile [] := sound_nil
  obtain ⟨raw, store, hadd, hread⟩ := exists_add [47] hnone hfound (by decide) (by decide)
  rw [Follows, run, run, step, hadd]
  rintro ⟨index, hindex, hnodup, -⟩
  rw [hread] at hindex
  obtain rfl := Option.some.inj hindex
  rw [List.map_append, map_name_added hfound] at hnodup
  exact absurd hnodup (by decide)

end Repository

end CppExperiments.Cgit

import CppExperiments.Cgit.Flattening
import CppExperiments.Cgit.Lookup
import CppExperiments.Ini.Parser

/-!
# New commits

The tree of the index, a commit of it with the commit in front, and the file in which the commit is noted: that of the
branch, or `HEAD` itself.
-/

namespace CppExperiments.Cgit

/-! ## The code -/

/-- What a commit depends on besides the repository: the order of the unordered containers, the text of the
configuration in the home directory, the clock, in seconds and in hours and minutes here and in UTC, and which files
can be opened for writing. -/
structure Setting where
  order : IterationOrder
  homeConfig : Bytes
  now : Int
  localTime : Int × Int
  utcTime : Int × Int
  opens : Bytes → Bool

namespace Setting

/-- `{:02}` -/
def twoDigits (n : Nat) : Bytes := List.replicate (2 - (decimal n).length) 48 ++ decimal n

def tz (e : Setting) : Bytes :=
  let offsetSeconds := (e.localTime.1 - e.utcTime.1) * 3600 + (e.localTime.2 - e.utcTime.2) * 60
  (if 0 ≤ offsetSeconds then [43] else [45]) ++ twoDigits (offsetSeconds.natAbs / 3600) ++ twoDigits
    (offsetSeconds.natAbs % 3600 / 60)

/-- `parser["user"][key]` -/
def userValue (parser : Ini.Parser) (key : Bytes) : Option Bytes :=
  (InsertionOrder.find parser (ascii "user")).bind fun s => InsertionOrder.find s (lower key)

/-- The name and the email of the user; `none` where the code throws. -/
def user (e : Setting) (config : Bytes) : Option (Bytes × Bytes) := do
  let parser ← (Ini.Parser.reads [] e.homeConfig false).toOption
  let parser ← (Ini.Parser.reads parser config true).toOption
  let name ← userValue parser (ascii "name")
  let email ← userValue parser (ascii "email")
  some (name, email)

def author (e : Setting) (user : Bytes × Bytes) : Bytes :=
  user.1 ++ ascii " <" ++ user.2 ++ ascii "> " ++ decimalInt e.now ++ ascii " " ++ e.tz

end Setting

def commitText (treeSha parentSha author message : Bytes) : Bytes :=
  ascii "tree " ++ treeSha ++ [10] ++ (if parentSha ≠ [] then ascii "parent " ++ parentSha ++ [10] else []) ++
    ascii "author " ++ author ++ [10] ++ ascii "committer " ++ author ++ [10, 10] ++ trimBy isSpace message ++ [10]

/-- The data of the commit object; `none` where the code throws. -/
def commitData (e : Setting) (config treeSha parentSha message : Bytes) : Option Bytes := do
  let user ← e.user config
  let commit ← GitCommit.deserialize e.now [] (commitText treeSha parentSha (e.author user) message) (ascii "commit")
  commit.serialize

namespace GitDir

def objectPath (sha : Bytes) : Bytes := ascii "objects/" ++ sha.take 2 ++ ascii "/" ++ sha.drop 2

/-- The objects that are written. Where a file cannot be opened, nothing is written, and nothing is said about it. -/
def save (dir : GitDir) (e : Setting) (written : Store) : GitDir :=
  { dir with objects := written.filter fun o => e.opens (objectPath o.1) || decide (o ∈ dir.objects) }

def write (dir : GitDir) (path text : Bytes) : GitDir :=
  { dir with files := fun path' => if path' = path then some text else dir.files path' }

/-- Whether the head is detached, and the branch if it is not; `none` where the code throws. -/
def getActiveBranch (dir : GitDir) : Option (Bool × Bytes) :=
  let headContents := (dir.files (ascii "HEAD")).getD []
  if ascii "ref: refs/heads/" <+: headContents then some (false, (headContents.drop 16).take (headContents.length - 17))
  else if headContents = [] then none
  else some (true, headContents.drop (headContents.length - 1))

/-- The commit, and the directory as it is left. What is written of the trees before one of them fails is left out. -/
def commit (e : Setting) (n : Nat) (dir : GitDir) (message : Bytes) : Call Unit × GitDir :=
  match writeIndexAsTree e.order n dir.objects (dir.files (ascii "index")) with
  | none => (.error .threw, dir)
  | some (treeSha, written) =>
    let dir := dir.save e written
    match dir.findObject e.now n (ascii "HEAD") [] true with
    | .error stop => (.error stop, dir)
    | .ok parentSha =>
      match commitData e ((dir.files (ascii "config")).getD []) treeSha parentSha message with
      | none => (.error .threw, dir)
      | some data =>
        let (commitSha, written) := writeObject (ascii "commit") data dir.objects
        let dir := dir.save e written
        match dir.getActiveBranch with
        | none => (.error .threw, dir)
        | some (isDetached, currentBranchDetails) =>
          let writePath := if isDetached = true then ascii "HEAD" else ascii "refs/heads/" ++ currentBranchDetails
          if e.opens writePath = true then (.ok (), dir.write writePath (commitSha ++ [10])) else (.error .threw, dir)

end GitDir

/-! ## What a commit does -/

/-- The head is a commit, or a branch. -/
inductive Head where
  | detached (commit : Bytes)
  | attached (branch : Bytes)

namespace Head

/-- The file `HEAD`. -/
def text : Head → Bytes
  | detached commit => commit ++ [10]
  | attached branch => ascii "ref: refs/heads/" ++ branch ++ [10]

/-- The file in which a new commit is noted. -/
def path : Head → Bytes
  | detached _ => ascii "HEAD"
  | attached branch => ascii "refs/heads/" ++ branch

/-- The head at a new commit. -/
def move (commit : Bytes) : Head → Head
  | detached _ => detached commit
  | attached branch => attached branch

end Head

/-- Names that are joined by slashes. -/
def RefName (path : Bytes) : Prop := ∃ cs, cs ≠ [] ∧ Path.Names cs ∧ path = Path.joined cs

namespace GitDir

/-- The head of a directory, and the commit there; a branch is loose, or packed only, or it has no commit. -/
structure At (dir : GitDir) (head : Head) (parent : Bytes) : Prop where
  file : dir.files (ascii "HEAD") = some head.text
  detached : ∀ commit, head = .detached commit → IsSha commit ∧ parent = commit
  attached : ∀ branch, head = .attached branch → RefName branch ∧
    ((dir.files head.path = some (parent ++ [10]) ∧ IsSha parent) ∨
      (dir.files head.path = none ∧ dir.getPackedRef (dir.relative head.path) = parent ∧ (parent = [] ∨ IsSha parent)))

/-- There is a new commit of the entries, with one parent or none, and nothing else has changed. -/
structure Advanced (dir dir' : GitDir) (now : Int) (head : Head) (parent : Bytes) (entries : List GitIndexEntry)
    (commitSha treeSha : Bytes) (c : GitCommit) : Prop where
  resolves : Ends (fun n => dir'.refResolve n (ascii "HEAD")) (.ok commitSha)
  file : dir'.files (ascii "HEAD") = some (head.move commitSha).text
  stored : dir'.readCommit now commitSha = some c
  tree : headers c (ascii "tree") = [treeSha]
  parents : headers c (ascii "parent") = if parent = [] then [] else [parent]
  flat : dir'.objects.CollisionFree → ∃ k leaves, leaves.Perm (entries.map GitIndexEntry.leaf) ∧
    ∀ m ≥ k, flatten dir'.objects m treeSha = some leaves
  others : ∀ path, RefName path → path ≠ ascii "HEAD" → path ≠ head.path →
    (∀ text, dir.files path = some text → ¬ ascii "ref: " <+: text) → ∀ n, dir'.refResolve n path = dir.refResolve n path

/-- With rounds enough a commit throws and leaves all refs, or there is a new one. -/
def Committed (e : Setting) (dir : GitDir) (message : Bytes) (head : Head) (parent : Bytes)
    (entries : List GitIndexEntry) : Prop :=
  ∃ r dir', (∃ k, ∀ n ≥ k, dir.commit e n message = (r, dir')) ∧
    ((r = .error .threw ∧ ∀ n path, dir'.refResolve n path = dir.refResolve n path) ∨
      (r = .ok () ∧ ∃ commitSha treeSha c, dir.Advanced dir' e.now head parent entries commitSha treeSha c))

end GitDir

/-! ## The text of a commit -/

section Text

variable {e : Setting} {now : Int} {sha fmt treeSha parentSha author message config data : Bytes} {c : GitCommit}

def commitHeaders (treeSha parentSha author : Bytes) : List (Bytes × List Value) :=
  (ascii "tree", [(treeSha, [])]) :: (if parentSha ≠ [] then [(ascii "parent", [(parentSha, [])])] else []) ++
    [(ascii "author", [(author, [])]), (ascii "committer", [(author, [])])]

lemma mem_commitHeaders {h : Bytes × List Value} (hh : h ∈ commitHeaders treeSha parentSha author) :
    h.1 ∈ [ascii "tree", ascii "parent", ascii "author", ascii "committer"] ∧
      ∃ line ∈ [treeSha, parentSha, author], h.2 = [(line, [])] := by
  rw [commitHeaders] at hh
  split at hh
  all_goals
    simp only [List.cons_append, List.nil_append, List.mem_cons, List.not_mem_nil, or_false] at hh
    rcases hh with rfl | hh
    · exact ⟨List.mem_cons_self, treeSha, List.mem_cons_self, rfl⟩
  · rcases hh with rfl | rfl | rfl
    · exact ⟨by simp, parentSha, by simp, rfl⟩
    · exact ⟨by simp, author, by simp, rfl⟩
    · exact ⟨by simp, author, by simp, rfl⟩
  · rcases hh with rfl | rfl
    · exact ⟨by simp, author, by simp, rfl⟩
    · exact ⟨by simp, author, by simp, rfl⟩

/-- The headers of a commit and a message are a text that git could write. -/
lemma exists_objectText (hlines : ∀ line ∈ [treeSha, parentSha, author], (10 : UInt8) ∉ line) (message : Bytes) :
    ∃ o : ObjectText, o.headers = commitHeaders treeSha parentSha author ∧ o.message = message ∧ o.Plain := by
  have hkeys : ∀ key ∈ [ascii "tree", ascii "parent", ascii "author", ascii "committer"],
      key ≠ [] ∧ (32 : UInt8) ∉ key ∧ (10 : UInt8) ∉ key := by decide
  refine ⟨⟨commitHeaders treeSha parentSha author, message, fun h hh => hkeys h.1 (mem_commitHeaders hh).1,
    fun h hh => ?_,
    fun h hh v hv => ?_, ?_⟩, rfl, rfl, fun h hh v hv => ?_⟩
  · obtain ⟨-, line, -, hvalues⟩ := mem_commitHeaders hh
    rw [hvalues]
    exact List.cons_ne_nil _ _
  · obtain ⟨-, line, hline, hvalues⟩ := mem_commitHeaders hh
    rw [hvalues, List.mem_singleton] at hv
    rw [hv]
    exact ⟨hlines line hline, by simp⟩
  · rw [commitHeaders]
    split
    · exact (by decide : [ascii "tree", ascii "parent", ascii "author", ascii "committer"].Nodup)
    · exact (by decide : [ascii "tree", ascii "author", ascii "committer"].Nodup)
  · obtain ⟨-, line, -, hvalues⟩ := mem_commitHeaders hh
    rw [hvalues, List.mem_singleton] at hv
    rw [hv]

lemma headersText_commitHeaders (treeSha parentSha author : Bytes) :
    headersText (commitHeaders treeSha parentSha author) =
    ascii "tree " ++ treeSha ++ [10] ++ (if parentSha ≠ [] then ascii "parent " ++ parentSha ++ [10] else []) ++
      ascii "author " ++ author ++ [10] ++ ascii "committer " ++ author ++ [10] := by
  have hvalue : ∀ key line : Bytes, valueText key (line, []) = key ++ [32] ++ line ++ [10] := by
    intro key line
    rw [valueText_single rfl]
    simp
  have htree : ascii "tree" ++ [32] = ascii "tree " := by decide
  have hparent : ascii "parent" ++ [32] = ascii "parent " := by decide
  have hauthor : ascii "author" ++ [32] = ascii "author " := by decide
  have hcommitter : ascii "committer" ++ [32] = ascii "committer " := by decide
  rw [commitHeaders, headersText]
  by_cases hnil : parentSha = []
  · rw [if_neg (not_not_intro hnil), if_neg (not_not_intro hnil)]
    simp only [List.append_nil, List.cons_append, List.nil_append, List.flatMap_cons, List.flatMap_nil, hvalue, htree,
      hauthor,
      hcommitter, List.append_assoc]
  · rw [if_pos hnil, if_pos hnil]
    simp only [List.append_nil, List.cons_append, List.nil_append, List.flatMap_cons, List.flatMap_nil, hvalue, htree,
      hparent,
      hauthor, hcommitter, List.append_assoc]

/-- The text is that of the headers and the message, with a line feed at the end. -/
lemma commitText_eq {o : ObjectText} (hheaders : o.headers = commitHeaders treeSha parentSha author)
    (hmessage : o.message = trimBy isSpace message ++ [10]) : commitText treeSha parentSha author message = o.raw := by
  rw [ObjectText.raw, hheaders, hmessage, headersText_commitHeaders, commitText]
  simp

lemma headers_of_deserialize {t key : Bytes} {r : Reader} (hread : Reads Reader.start t r)
    (hc : GitCommit.deserialize now sha t fmt = some c) (hkey : key ≠ []) : GitDir.headers c key =
      (r.data.lookup key).getD [] := by
  obtain ⟨r', hread', hc⟩ := Option.bind_eq_some_iff.1 hc
  obtain rfl := Option.some.inj (hread.symm.trans hread')
  obtain ⟨commitUTC, -, hc⟩ := Option.bind_eq_some_iff.1 hc
  obtain rfl := Option.some.inj hc
  rw [GitDir.headers, lookup_alter_of_ne hkey]

lemma lookup_commitHeaders (treeSha parentSha author : Bytes) :
    (((commitHeaders treeSha parentSha author).map fun h => (h.1, h.2.map Prod.fst)).lookup (ascii "tree")).getD [] =
        [treeSha] ∧
      (((commitHeaders treeSha parentSha author).map fun h => (h.1, h.2.map Prod.fst)).lookup (ascii "parent")).getD [] =
        if parentSha = [] then [] else [parentSha] := by
  rw [commitHeaders]
  by_cases hnil : parentSha = []
  · rw [if_neg (not_not_intro hnil), if_pos hnil]
    exact ⟨rfl, rfl⟩
  · rw [if_pos hnil, if_neg hnil]
    exact ⟨rfl, rfl⟩

/-- The commit object is read with the tree and the parent that were written. -/
lemma exists_deserialize_commitData (hlines : ∀ user ∈ e.user config, ∀ line ∈ [treeSha, parentSha, e.author user],
    (10 : UInt8) ∉ line)
    (hdata : commitData e config treeSha parentSha message = some data) (sha : Bytes) :
    ∃ c, GitCommit.deserialize e.now sha data (ascii "commit") = some c ∧ GitDir.headers c (ascii "tree") = [treeSha] ∧
      GitDir.headers c (ascii "parent") = if parentSha = [] then [] else [parentSha] := by
  obtain ⟨user, huser, hdata⟩ := Option.bind_eq_some_iff.1 hdata
  obtain ⟨commit, hcommit, hdata⟩ := Option.bind_eq_some_iff.1 hdata
  obtain ⟨o, hheaders, hmessage, hplain⟩ := exists_objectText (hlines user huser) (trimBy isSpace message ++ [10])
  obtain ⟨o', hheaders', hmessage', hplain'⟩ := exists_objectText (hlines user huser) (trimBy isSpace message)
  rw [commitText_eq hheaders hmessage] at hcommit
  have hread := o.reads_raw hplain
  have hread' := o'.reads_raw hplain'
  have hprint := printHeaders_plain (fun h hh => (o.keys h hh).1) (fun h hh v hv => (o.lines h hh v hv).1) hplain
  have hnewline : dropNewline (trimBy isSpace message ++ [10]) = trimBy isSpace message := by
    rw [dropNewline, List.getLast?_concat, if_pos rfl, List.dropLast_concat]
  rw [ObjectText.deserialize_eq_some hread hcommit, hprint, hmessage, hnewline] at hdata
  have hraw : data = o'.raw := by
    rw [← Option.some.inj hdata, ObjectText.raw, hheaders, hheaders', hmessage']
  have htime := (ObjectText.exists_deserialize_iff e.now [] (ascii "commit") hread).1 ⟨commit, hcommit⟩
  dsimp only at htime
  rw [hheaders, ← hheaders'] at htime
  obtain ⟨c, hc⟩ := (ObjectText.exists_deserialize_iff e.now sha (ascii "commit") hread').2 htime
  obtain ⟨htree, hparent⟩ := lookup_commitHeaders treeSha parentSha (e.author user)
  rw [← hheaders'] at htree hparent
  rw [hraw]
  exact ⟨c, hc, (headers_of_deserialize hread' hc (by decide)).trans htree,
    (headers_of_deserialize hread' hc (by decide)).trans hparent⟩

end Text

/-! ## The line of the author -/

lemma IsSha.notMem {sha : Bytes} {b : UInt8} (h : IsSha sha) (hb : isLowerHex b = false) : b ∉ sha := by
  intro hmem
  exact Bool.noConfusion (hb.symm.trans (List.all_eq_true.1 h.2 b hmem))

namespace Setting

variable {e : Setting} {user : Bytes × Bytes}

lemma notMem_twoDigits {b : UInt8} (hb : isDigit b = false) (n : Nat) : b ∉ twoDigits n := by
  rw [twoDigits, List.mem_append, not_or]
  refine ⟨fun hmem => ?_, not_mem_decimal hb n⟩
  rw [List.eq_of_mem_replicate hmem] at hb
  cases hb

lemma newline_notMem_tz (e : Setting) : (10 : UInt8) ∉ e.tz := by
  rw [tz, List.mem_append, List.mem_append, not_or, not_or]
  refine ⟨⟨?_, notMem_twoDigits (by decide) _⟩, notMem_twoDigits (by decide) _⟩
  split <;> decide

lemma newline_notMem_author (hname : (10 : UInt8) ∉ user.1) (hemail : (10 : UInt8) ∉ user.2) :
    (10 : UInt8) ∉ e.author user := by
  have hopen : (10 : UInt8) ∉ ascii " <" := by decide
  have hclose : (10 : UInt8) ∉ ascii "> " := by decide
  have hspace : (10 : UInt8) ∉ ascii " " := by decide
  rw [author]
  simp only [List.mem_append, not_or]
  exact ⟨⟨⟨⟨⟨⟨hname, hopen⟩, hemail⟩, hclose⟩, notMem_decimalInt (by decide)⟩, hspace⟩, e.newline_notMem_tz⟩

end Setting

/-! ## Refs -/

namespace GitDir

variable {e : Setting} {dir dir' : GitDir} {head : Head} {parent path writePath text : Bytes}

lemma save_eq (hopens : ∀ sha, e.opens (objectPath sha) = true) (dir : GitDir) (written : Store) :
    dir.save e written = { dir with objects := written } := by
  have hall : (written.filter fun o => e.opens (objectPath o.1) || decide (o ∈ dir.objects)) = written := by
    refine List.filter_eq_self.2 fun o _ => ?_
    rw [hopens, Bool.true_or]
  rw [save, hall]

/-- Refs do not depend on the objects. -/
lemma refResolve_objects (dir : GitDir) (written : Store) (n : Nat) (path : Bytes) :
    ({ dir with objects := written } : GitDir).refResolve n path = dir.refResolve n path := by
  induction n generalizing path with
  | zero => rfl
  | succ n ih =>
    rw [refResolve, refResolve]
    simp only [ih]
    rfl

lemma files_write (dir : GitDir) (path text : Bytes) : (dir.write path text).files path = some text := if_pos rfl

lemma files_write_of_ne (h : path ≠ writePath) : (dir.write writePath text).files path = dir.files path := if_neg h

/-- A ref that is not symbolic depends on its own file only. -/
lemma refResolve_write (hpath : path ≠ writePath)
    (hdirect : ∀ text, dir.files path = some text → ¬ ascii "ref: " <+: text) (n : Nat) :
    (dir.write writePath text).refResolve n path = dir.refResolve n path := by
  cases n with
  | zero => rfl
  | succ n =>
    rw [refResolve, refResolve, files_write_of_ne hpath]
    cases htext : dir.files path with
    | none => rfl
    | some text' =>
      have hnot : ¬ ascii "ref: " <+: text'.dropLast := fun hpre =>
        hdirect text' htext (hpre.trans (List.dropLast_prefix text'))
      dsimp only
      rw [if_neg hnot, if_neg hnot]

/-- A name is not the beginning of a reference. -/
lemma not_ref_of_isSha (h : IsSha path) : ¬ ascii "ref: " <+: path := by
  intro hpre
  have hmem : (114 : UInt8) ∈ path := hpre.subset (by decide)
  exact h.notMem (by decide) hmem

lemma getActiveBranch_detached {commit : Bytes}
    (hfile : dir.files (ascii "HEAD") = some (Head.detached commit).text) (h : IsSha commit) :
    ∃ details, dir.getActiveBranch = some (true, details) := by
  have hnot : ¬ ascii "ref: refs/heads/" <+: (Head.detached commit).text := by
    intro hpre
    have hmem : (114 : UInt8) ∈ commit ++ [10] := hpre.subset (by decide)
    rcases List.mem_append.1 hmem with hmem | hmem
    · exact h.notMem (by decide) hmem
    · exact absurd (List.mem_singleton.1 hmem) (by decide)
  have hne : (Head.detached commit).text ≠ [] := List.append_ne_nil_of_right_ne_nil _ (List.cons_ne_nil 10 [])
  rw [getActiveBranch, hfile, Option.getD_some, if_neg hnot, if_neg hne]
  exact ⟨_, rfl⟩

lemma getActiveBranch_attached {branch : Bytes} (hfile : dir.files (ascii "HEAD") = some (Head.attached branch).text) :
    dir.getActiveBranch = some (false, branch) := by
  have hlength : (ascii "ref: refs/heads/").length = 16 := rfl
  have htext : (Head.attached branch).text = ascii "ref: refs/heads/" ++ (branch ++ [10]) := List.append_assoc _ _ _
  have hsize : (ascii "ref: refs/heads/" ++ (branch ++ [10])).length - 17 = branch.length := by
    rw [List.length_append, List.length_append, hlength, List.length_singleton]
    omega
  rw [getActiveBranch, hfile, Option.getD_some, htext, if_pos (List.prefix_append _ _), List.drop_left' hlength,
    hsize, List.take_left]

namespace At

lemma isSha (h : dir.At head parent) : parent = [] ∨ IsSha parent := by
  cases head with
  | detached commit =>
    obtain ⟨hsha, rfl⟩ := h.detached commit rfl
    exact Or.inr hsha
  | attached branch =>
    obtain ⟨-, ⟨-, hsha⟩ | ⟨-, -, hparent⟩⟩ := h.attached branch rfl
    · exact Or.inr hsha
    · exact hparent

/-- The head resolves to the commit. -/
lemma resolves (h : dir.At head parent) : Ends (fun n => dir.refResolve n (ascii "HEAD")) (.ok parent) := by
  refine (looping_refResolve dir).exists_of_concludes (r := some parent) ?_
  cases head with
  | detached commit =>
    obtain ⟨hsha, rfl⟩ := h.detached commit rfl
    exact .returns (refStep_loose h.file (not_ref_of_isSha hsha))
  | attached branch =>
    obtain ⟨-, hbranch⟩ := h.attached branch rfl
    have hhead : dir.files (ascii "HEAD") = some (ascii "ref: " ++ (Head.attached branch).path ++ [10]) := h.file
    refine .again (refStep_symbolic hhead) (.returns ?_)
    rcases hbranch with ⟨hfile, hsha⟩ | ⟨hfile, hpacked, -⟩
    · exact refStep_loose hfile (not_ref_of_isSha hsha)
    · rw [refStep, hfile]
      dsimp only
      rw [hpacked]

/-- The file that is written is that of the head. -/
lemma getActiveBranch (h : dir.At head parent) :
    ∃ isDetached details, dir.getActiveBranch = some (isDetached, details) ∧
    (if isDetached = true then ascii "HEAD" else ascii "refs/heads/" ++ details) = head.path := by
  cases head with
  | detached commit =>
    obtain ⟨details, hactive⟩ := getActiveBranch_detached h.file (h.detached commit rfl).1
    exact ⟨true, details, hactive, rfl⟩
  | attached branch => exact ⟨false, branch, getActiveBranch_attached h.file, rfl⟩

/-- Objects do not move the head. -/
lemma objects (h : dir.At head parent) (written : Store) : ({ dir with objects := written } : GitDir).At head parent :=
  ⟨h.file, h.detached, h.attached⟩

/-- The head moves where its file is written. -/
lemma move {commitSha : Bytes} (h : dir.At head parent) (hsha : IsSha commitSha) :
    (dir.write head.path (commitSha ++ [10])).At (head.move commitSha) commitSha := by
  cases head with
  | detached commit =>
    refine ⟨files_write dir _ _, fun commit' heq => ?_, nofun⟩
    obtain rfl := Head.detached.inj heq
    exact ⟨hsha, rfl⟩
  | attached branch =>
    have hne : ascii "HEAD" ≠ (Head.attached branch).path := by
      intro heq
      have hhead : (ascii "HEAD").head? = (ascii "refs/heads/" ++ branch).head? := congrArg List.head? heq
      exact absurd hhead (by rw [List.head?_append_of_ne_nil _ (by decide)]; decide)
    refine ⟨(files_write_of_ne hne).trans h.file, nofun, fun branch' heq => ?_⟩
    obtain rfl := Head.attached.inj heq
    exact ⟨(h.attached branch rfl).1, Or.inl ⟨files_write dir _ _, hsha⟩⟩

end At

/-! ## The commit -/

variable {message treeSha data : Bytes} {i : StagedIndex} {c : GitCommit}

/-- What is written of a commit is found again. -/
lemma readCommit_written {store : Store} {now : Int} (hobjects : dir.objects = (writeObject (ascii "commit") data store).2)
    (hc : GitCommit.deserialize now (writeObject (ascii "commit") data store).1 data (ascii "commit") = some c) :
    dir.readCommit now (writeObject (ascii "commit") data store).1 = some c := by
  have hlookup : dir.objects.lookup (writeObject (ascii "commit") data store).1 =
      some (withHeader (ascii "commit") data) := by
    rw [hobjects, writeObject]
    exact List.lookup_cons_self
  have hspace : (32 : UInt8) ∉ ascii "commit" := by decide
  rw [readCommit, readAs, readRaw, hlookup]
  dsimp only
  rw [Option.bind_eq_bind, Option.bind_some, readObject_withHeader hspace, Option.bind_eq_bind, Option.bind_some]
  exact (if_pos List.mem_cons_self).trans hc

/-- The head at the new commit. -/
lemma At.advanced {now : Int} {written : Store} (hat : dir.At head parent)
    (hc : GitCommit.deserialize now (writeObject (ascii "commit") data written).1 data (ascii "commit") = some c)
    (htree : headers c (ascii "tree") = [treeSha])
    (hparent : headers c (ascii "parent") = if parent = [] then [] else [parent])
    (hflat : ∀ S : Store, S.CollisionFree → written ⊆ S →
      ∃ k leaves, leaves.Perm (i.index.entries.map GitIndexEntry.leaf) ∧ ∀ m ≥ k, flatten S m treeSha = some leaves) :
    dir.Advanced (({ dir with objects := (writeObject (ascii "commit") data written).2 } : GitDir).write head.path
      ((writeObject (ascii "commit") data written).1 ++ [10])) now head parent i.index.entries
      (writeObject (ascii "commit") data written).1 treeSha c := by
  have hmoved := (hat.objects (writeObject (ascii "commit") data written).2).move
    (isSha_sha1 (withHeader (ascii "commit") data))
  refine ⟨hmoved.resolves, hmoved.file, readCommit_written rfl hc, htree, hparent, fun hfree => ?_, ?_⟩
  · exact hflat _ hfree (List.subset_cons_self _ _)
  · intro path _ _ hpath hdirect n
    refine (refResolve_write hpath ?_ n).trans (refResolve_objects dir _ n path)
    exact hdirect

/-- The commit, once the tree is written. -/
lemma exists_commit_eq {e : Setting} (hopens : ∀ sha, e.opens (objectPath sha) = true) (hat : dir.At head parent)
    {written : Store} {k : Nat}
    (hwrites : ∀ n ≥ k, writeIndexAsTree e.order n dir.objects (dir.files (ascii "index")) = some (treeSha, written))
    (message : Bytes) :
    ∃ k', ∀ n ≥ k', dir.commit e n message =
      match commitData e ((dir.files (ascii "config")).getD []) treeSha parent message with
      | none => (.error .threw, { dir with objects := written })
      | some data =>
        if e.opens head.path = true then
          (.ok (), ({ dir with objects := (writeObject (ascii "commit") data written).2 } : GitDir).write head.path
            ((writeObject (ascii "commit") data written).1 ++ [10]))
        else (.error .threw, { dir with objects := (writeObject (ascii "commit") data written).2 }) := by
  obtain ⟨k', hresolves⟩ := hat.resolves
  refine ⟨max k k', fun n hn => ?_⟩
  have hwrite := hwrites n (le_of_max_le_left hn)
  have hfind : ({ dir with objects := written } : GitDir).findObject e.now n (ascii "HEAD") [] true = .ok parent := by
    have hresolve : dir.refResolve n (ascii "HEAD") = .ok parent := hresolves n (le_of_max_le_right hn)
    rw [findObject, candidates, if_pos rfl, refResolve_objects, hresolve]
    rfl
  rw [commit, hwrite]
  dsimp only
  rw [save_eq hopens, hfind]
  dsimp only
  cases hdata : commitData e ((dir.files (ascii "config")).getD []) treeSha parent message with
  | none => rfl
  | some data =>
    obtain ⟨isDetached, details, hactive, hpath⟩ :=
      (hat.objects (writeObject (ascii "commit") data written).2).getActiveBranch
    dsimp only
    rw [save_eq hopens, hactive]
    dsimp only
    rw [hpath]

/-- A commit of an index without the mode type of directories throws, or the head is at the commit. -/
theorem committed_of_no_trees (e : Setting) (dir : GitDir) (message : Bytes) (head : Head) (parent : Bytes)
    (i : StagedIndex)
    (hindex : dir.files (ascii "index") = i.file) (hat : dir.At head parent)
    (hmode : ∀ entry ∈ i.index.entries, entry.modeType ≠ 4)
    (hline : ∀ user ∈ e.user ((dir.files (ascii "config")).getD []), (10 : UInt8) ∉ user.1 ∧ (10 : UInt8) ∉ user.2)
    (hopens : ∀ sha, e.opens (objectPath sha) = true) : dir.Committed e message head parent i.index.entries := by
  obtain ⟨k, treeSha, written, hwrites, -, hsha, hflat⟩ := i.exists_tree e.order dir.objects hmode
  rw [← hindex] at hwrites
  obtain ⟨k', hrun⟩ := exists_commit_eq hopens hat hwrites message
  have hlines : ∀ user ∈ e.user ((dir.files (ascii "config")).getD []),
      ∀ line ∈ [treeSha, parent, e.author user], (10 : UInt8) ∉ line := by
    intro user huser line hmem
    simp only [List.mem_cons, List.not_mem_nil, or_false] at hmem
    rcases hmem with rfl | rfl | rfl
    · exact hsha.notMem (by decide)
    · rcases hat.isSha with rfl | hparent
      · exact List.not_mem_nil
      · exact hparent.notMem (by decide)
    · exact Setting.newline_notMem_author (hline user huser).1 (hline user huser).2
  cases hdata : commitData e ((dir.files (ascii "config")).getD []) treeSha parent message with
  | none =>
    rw [hdata] at hrun
    exact ⟨_, _, ⟨_, hrun⟩, Or.inl ⟨rfl, refResolve_objects dir written⟩⟩
  | some data =>
    rw [hdata] at hrun
    by_cases hopen : e.opens head.path = true
    · simp only [if_pos hopen] at hrun
      obtain ⟨c, hc, htree, hparent⟩ :=
        exists_deserialize_commitData hlines hdata (writeObject (ascii "commit") data written).1
      exact ⟨_, _, ⟨_, hrun⟩, Or.inr ⟨rfl, _, treeSha, c, hat.advanced hc htree hparent hflat⟩⟩
    · simp only [if_neg hopen] at hrun
      exact ⟨_, _, ⟨_, hrun⟩, Or.inl ⟨rfl, refResolve_objects dir _⟩⟩

/-! ## Fresh repositories -/

open StagedIndex

/-- A user at the beginning of time. -/
def someone : Setting := ⟨inOrder, ascii "[user]\nname=a\nemail=b\n", 0, (0, 0), (0, 0), fun _ => true⟩

/-- A repository with an index and no commits. -/
def fresh (i : StagedIndex) : GitDir where
  objects := []
  packs := []
  files path :=
    if path = ascii "HEAD" then some (Head.attached (ascii "main")).text
    else if path = ascii "index" then i.file else none
  relative path := path
  packedRefs _ := none

lemma at_fresh (i : StagedIndex) : (fresh i).At (.attached (ascii "main")) [] := by
  refine ⟨rfl, nofun, fun branch heq => ?_⟩
  obtain rfl := Head.attached.inj heq
  refine ⟨⟨[ascii "main"], by decide, by unfold Path.Names; decide, rfl⟩, Or.inr ⟨rfl, rfl, Or.inl rfl⟩⟩

theorem committed_twoFiles : (fresh twoFilesIndex).Committed someone (ascii "m") (.attached (ascii "main")) []
    twoFilesIndex.index.entries := by
  refine committed_of_no_trees someone (fresh twoFilesIndex) (ascii "m") _ [] twoFilesIndex rfl (at_fresh _)
    (by decide) ?_ fun _ => rfl
  intro user huser
  have hsome : someone.user [] = some (ascii "a", ascii "b") := rfl
  obtain rfl := Option.some.inj (hsome.symm.trans huser)
  exact ⟨by decide, by decide⟩

/-- The name of the tree of one entry with the mode type of a directory. -/
def oneDirectorySha : Bytes := ascii "da8aaba6f6f2b48e2f4ecdadbcdb7ba68e9e2c79"

def oneDirectoryCommit : Bytes :=
  ascii "tree da8aaba6f6f2b48e2f4ecdadbcdb7ba68e9e2c79\nauthor a <b> 0 +0000\ncommitter a <b> 0 +0000\n\nm"

lemma oneDirectoryCommit_eq : oneDirectoryCommit =
    [116, 114, 101, 101, 32, 100, 97, 56, 97, 97, 98, 97, 54, 102, 54, 102, 50, 98, 52, 56, 101, 50, 102, 52, 101, 99, 100,
      97, 100, 98, 99, 100, 98, 55, 98, 97, 54, 56, 101, 57, 101, 50, 99, 55, 57, 10, 97, 117, 116, 104, 111, 114, 32, 97,
      32, 60, 98, 62, 32, 48, 32, 43, 48, 48, 48, 48, 10, 99, 111, 109, 109, 105, 116, 116, 101, 114, 32, 97, 32, 60, 98, 62,
      32, 48, 32, 43, 48, 48, 48, 48, 10, 10, 109] := by
  rw [oneDirectoryCommit, ascii_eq rfl]
  rfl

lemma sha1Regs_oneDirectory : Hash.sha1Regs (withHeader (ascii "tree") (ascii "040644 a" ++ List.replicate 21 0)) =
    ⟨3666520998, 4143101070, 793693613, 3168500646, 2392730745⟩ := Hash.OnNat.sha1Regs_eq (by decide +kernel)

lemma sha1_oneDirectory :
    Hash.sha1 (withHeader (ascii "tree") (ascii "040644 a" ++ List.replicate 21 0)) false = oneDirectorySha := by
  rw [Hash.sha1, if_neg Bool.false_ne_true, sha1Regs_oneDirectory]
  rfl

lemma sha1Regs_oneDirectoryCommit : Hash.sha1Regs (withHeader (ascii "commit") oneDirectoryCommit) =
    ⟨2768237602, 875249341, 2711455804, 3165051909, 1595688837⟩ := by
  rw [oneDirectoryCommit_eq]
  exact Hash.OnNat.sha1Regs_eq (by decide +kernel)

lemma sha1_oneDirectoryCommit : Hash.sha1 (withHeader (ascii "commit") oneDirectoryCommit) false ≠ oneDirectorySha := by
  rw [Hash.sha1, if_neg Bool.false_ne_true, sha1Regs_oneDirectoryCommit]
  decide

lemma commitData_oneDirectory : commitData someone [] oneDirectorySha [] (ascii "m") = some oneDirectoryCommit := by
  rw [oneDirectoryCommit_eq]
  decide +kernel

/-- The objects of the commit have different names. -/
lemma collisionFree_oneDirectory {store : Store} (hstore : (writeObject (ascii "commit") oneDirectoryCommit
    (writeObject (ascii "tree") (ascii "040644 a" ++ List.replicate 21 0) []).2).2 = store) : store.CollisionFree := by
  have hne := sha1_oneDirectoryCommit
  rw [← sha1_oneDirectory] at hne
  subst hstore
  intro o ho o' ho' hname
  simp only [writeObject, List.mem_cons, List.not_mem_nil, or_false] at ho ho'
  rcases ho with rfl | rfl
  · rcases ho' with rfl | rfl
    · rfl
    · exact absurd hname hne
  · rcases ho' with rfl | rfl
    · exact absurd hname.symm hne
    · rfl

theorem not_committed_oneDirectory : (fresh oneDirectoryIndex).At (.attached (ascii "main")) [] ∧
    (fresh oneDirectoryIndex).files (ascii "index") = oneDirectoryIndex.file ∧
      ¬ (fresh oneDirectoryIndex).Committed someone (ascii "m") (.attached (ascii "main")) []
        oneDirectoryIndex.index.entries := by
  refine ⟨at_fresh _, rfl, ?_⟩
  rintro ⟨r, dir', ⟨k, hrun⟩, hcommitted⟩
  have hwrites : ∀ n ≥ 2, writeIndexAsTree someone.order n (fresh oneDirectoryIndex).objects
      ((fresh oneDirectoryIndex).files (ascii "index")) =
        some (oneDirectorySha, (writeObject (ascii "tree") (ascii "040644 a" ++ List.replicate 21 0) []).2) := by
    intro n hn
    obtain ⟨m, rfl⟩ := Nat.exists_eq_add_of_le' hn
    refine (writeIndexAsTree_oneDirectory m).trans ?_
    rw [← sha1_oneDirectory]
    rfl
  obtain ⟨k', hrun'⟩ := exists_commit_eq (fun _ => rfl) (at_fresh oneDirectoryIndex) hwrites (ascii "m")
  have hdata : commitData someone (((fresh oneDirectoryIndex).files (ascii "config")).getD []) oneDirectorySha []
      (ascii "m") = some oneDirectoryCommit := commitData_oneDirectory
  have hsame := (hrun _ (le_max_left k k')).symm.trans (hrun' _ (le_max_right k k'))
  rw [hdata] at hsame
  obtain ⟨hr, hdir⟩ := Prod.mk.inj hsame
  rcases hcommitted with ⟨hthrew, -⟩ | ⟨-, commitSha, treeSha, c, hadvanced⟩
  · cases hthrew.symm.trans hr
  · have hobjects : dir'.objects = (writeObject (ascii "commit") oneDirectoryCommit
        (writeObject (ascii "tree") (ascii "040644 a" ++ List.replicate 21 0) []).2).2 := by
      rw [hdir]
      rfl
    obtain ⟨m, leaves, hperm, hflat⟩ := hadvanced.flat (collisionFree_oneDirectory hobjects.symm)
    have hmem : (entryOf 4 [97]).leaf ∈ leaves := hperm.mem_iff.2 List.mem_cons_self
    have hnone : ∀ leaf ∈ ([] : List GitLeaf), ¬ IsTree leaf.mode := fun leaf hleaf => by cases hleaf
    exact Walk.not_isTree_of_run hnone (hflat m le_rfl) _ hmem (by decide)

end GitDir

end CppExperiments.Cgit

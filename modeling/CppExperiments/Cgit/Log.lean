import CppExperiments.Cgit.GitDir
import CppExperiments.Cgit.Restoring
import CppExperiments.Cgit.TreeText
import CppExperiments.Lib.DepthFirst
import CppExperiments.Lib.Trimming

/-!
# The log

The commits behind a commit, found by a walk that is cut off at a depth, and the newest of them in order.
-/

namespace CppExperiments.Cgit

/-! ## The code -/

structure LogWalk where
  stk : List (Bytes × Nat)
  visited : List Bytes
  logs : List GitCommit

namespace LogWalk

/-- One parent of a commit that was found at `depth`. -/
def push (maxCount : Int64) (depth : Nat) (w : LogWalk) (parent : Bytes) : LogWalk :=
  if (maxCount.toInt = -1 ∨ (depth : Int) < maxCount.toInt) ∧ parent ∉ w.visited then
    { w with visited := parent :: w.visited, stk := (parent, depth + 1) :: w.stk }
  else w

/-- The loop over the stack, with at most `n` commits. -/
def run (read : Bytes → Option GitCommit) (maxCount : Int64) : Nat → LogWalk → Call (List GitCommit)
  | _, ⟨[], _, logs⟩ => .ok logs
  | 0, ⟨_ :: _, _, _⟩ => .error .running
  | n + 1, ⟨(sha, depth) :: stk, visited, logs⟩ => do
    let commit ← orThrow (read sha)
    run read maxCount n ((GitDir.headers commit (ascii "parent")).foldl (push maxCount depth) ⟨stk, visited, logs ++ [commit]⟩)

end LogWalk

/-- A sort by the times of the commits, with any order of those that have the same one. -/
structure NewestFirst where
  sort : List GitCommit → List GitCommit
  perm : ∀ logs, (sort logs).Perm logs
  sorted : ∀ logs, (sort logs).Pairwise fun c1 c2 => c2.commitUTC ≤ c1.commitUTC

def logEntry (commit : GitCommit) : Option Bytes :=
  commit.serialize.map fun text => ascii "commit " ++ commit.sha ++ 10 :: text ++ [10, 10]

def logText (commits : List GitCommit) : Option Bytes :=
  (commits.mapM logEntry).map fun texts => trimBy isSpace texts.flatten

namespace GitDir

def getLog (order : NewestFirst) (dir : GitDir) (now : Int) (n : Nat) (commit : Bytes) (maxCount : Int64) :
    Call Bytes :=
  if maxCount.toInt = 0 then .ok []
  else do
    let head ← dir.refResolve n (ascii "HEAD")
    if head = [] then .error .threw
    else do
      let objectHash ← dir.findObject now n commit (ascii "commit") true
      let logs ← LogWalk.run (dir.readCommit now) maxCount n ⟨[(objectHash, 1)], [objectHash], []⟩
      let mc := min logs.length maxCount.toUInt64.toNat
      orThrow (logText ((order.sort logs).take mc))

end GitDir

/-! ## Histories -/

def parents (read : Bytes → Option GitCommit) (sha : Bytes) : List Bytes :=
  ((read sha).map fun commit => GitDir.headers commit (ascii "parent")).getD []

/-- `sha` is `start` or one of the commits behind it. -/
def Behind (read : Bytes → Option GitCommit) (start sha : Bytes) : Prop :=
  Relation.ReflTransGen (DepthFirst.Step (parents read)) start sha

/-- The seconds of the first committer. -/
def GitCommit.seconds (c : GitCommit) : Option Int :=
  (c.data.lookup (ascii "committer")).bind fun values => values.head?.bind fun msg => stoll (timestamp msg)

/-- The commits behind one can be read, and none of their parents is newer than its child. Their times in nanoseconds
fit into 64 bits, and there are as many as fit into a vector. -/
structure History (read : Bytes → Option GitCommit) (start : Bytes) : Prop where
  reads : ∀ sha, Behind read start sha → (read sha).isSome
  times : ∀ sha, Behind read start sha → ∀ parent ∈ parents read sha, ∀ c ∈ read sha, ∀ p ∈ read parent,
    p.commitUTC ≤ c.commitUTC
  bounded : ∀ sha, Behind read start sha → ∀ c ∈ read sha, ∀ t ∈ c.seconds, t.natAbs < 9223372037
  fits : {sha | Behind read start sha}.ncard < 2 ^ 64

/-- Different commits behind `start`, from the newest on, as many as there should be, and none that is left out is
newer. -/
structure Newest (read : Bytes → Option GitCommit) (start : Bytes) (maxCount : Int64) (printed : List GitCommit) :
    Prop where
  nodup : (printed.map GitCommit.sha).Nodup
  behind : ∀ c ∈ printed, Behind read start c.sha ∧ read c.sha = some c
  count : printed.length = if maxCount.toInt = -1 then {sha | Behind read start sha}.ncard
    else min maxCount.toInt.toNat {sha | Behind read start sha}.ncard
  sorted : printed.Pairwise fun c1 c2 => c2.commitUTC ≤ c1.commitUTC
  newest : ∀ sha, Behind read start sha → sha ∉ printed.map GitCommit.sha → ∀ c ∈ read sha, ∀ p ∈ printed,
    c.commitUTC ≤ p.commitUTC

/-! ## What can be read -/

namespace PackIndex

variable {index : PackIndex} {part : Bytes} {curr startOffset pos : Nat}

lemma prefix_of_mem_matchesFrom : ∀ m ∈ (index.matchesFrom part curr startOffset pos).1, part <+: m.1 ∧
    ∃ p < pos + 20 * (curr + 1 - startOffset), m.1 = index.bytesAt p := by
  fun_induction PackIndex.matchesFrom index part curr startOffset pos with
  | case1 startOffset pos hle hpre found ih =>
    refine List.forall_mem_cons.2 ⟨⟨hpre, pos, by omega, rfl⟩, fun m hm => ?_⟩
    obtain ⟨hpre', p, hp, heq⟩ := ih m hm
    exact ⟨hpre', p, by omega, heq⟩
  | case2 | case3 => exact fun m hm => absurd hm List.not_mem_nil

/-- The positions at which names are read in an index. -/
def reach (index : PackIndex) : Nat := 2 ^ 32 + 20 * (index.pack.shas.length + 1)

lemma prefix_of_mem {found : List (Bytes × Nat) × List Nat} (h : index.getHashMatchFromIndex part = some found) :
    ∀ m ∈ found.1, part <+: m.1 ∧ ∃ p < index.reach, m.1 = index.bytesAt p := by
  rw [getHashMatchFromIndex] at h
  split at h
  · cases h
  · obtain ⟨hexInt, _, h⟩ := Option.bind_eq_some_iff.1 h
    have hcurr : index.pack.fanout hexInt.toNat ≤ index.pack.shas.length := List.countP_le_length
    dsimp only at h
    generalize (if 0 < hexInt then index.pack.fanout (hexInt.toNat - 1) else 0) = prev at h
    by_cases hlt : prev < index.pack.fanout hexInt.toNat
    · rw [if_pos hlt] at h
      obtain rfl := Option.some.inj h
      intro m hm
      obtain ⟨hpre, p, hp, heq⟩ := prefix_of_mem_matchesFrom m hm
      have hoffset : ∀ i, offset i < 2 ^ 32 := fun i => Nat.mod_lt _ (Nat.two_pow_pos 32)
      refine ⟨hpre, p, hp.trans_le (Nat.add_le_add (hoffset _).le ?_), heq⟩
      omega
    · rw [if_neg hlt] at h
      obtain rfl := Option.some.inj h
      exact fun m hm => absurd hm List.not_mem_nil

end PackIndex

namespace GitDir

variable {dir : GitDir} {part sha raw : Bytes} {found : List (Pack × Bytes × Nat)} {now : Int} {fmts : List Bytes}
  {c : GitCommit}

lemma mem_packMatches (h : dir.packMatches part = some found) :
    ∀ m ∈ found, part <+: m.2.1 ∧ ∃ index ∈ dir.packs, ∃ p < index.reach, m.2.1 = index.bytesAt p := by
  obtain ⟨lists, hlists, rfl⟩ := Option.map_eq_some_iff.1 h
  intro m hm
  obtain ⟨l, hl, hm⟩ := List.mem_flatten.1 hm
  obtain ⟨index, hindex, hl'⟩ := exists_of_mem_mapM hlists hl
  obtain ⟨ms, hms, rfl⟩ := Option.map_eq_some_iff.1 hl'
  obtain ⟨m', hm', rfl⟩ := List.mem_map.1 hm
  obtain ⟨hpre, hat⟩ := PackIndex.prefix_of_mem hms m' hm'
  exact ⟨hpre, index, hindex, hat⟩

/-- The names and beginnings of names by which something can be read. -/
def readable (dir : GitDir) : List Bytes :=
  dir.objects.map Prod.fst ++ dir.packs.flatMap fun index =>
    ((List.range index.reach).map index.bytesAt).flatMap List.inits

lemma mem_readable (h : dir.readRaw sha = some raw) : sha ∈ dir.readable := by
  rw [readRaw] at h
  split at h
  · rename_i hlookup
    refine List.mem_append_left _ ?_
    obtain ⟨l₁, l₂, hobjects, -⟩ := List.lookup_eq_some_iff.1 hlookup
    rw [hobjects]
    simp
  · obtain ⟨names, hnames, h⟩ := Option.bind_eq_some_iff.1 h
    obtain ⟨found, hfound, rfl⟩ := Option.map_eq_some_iff.1 hnames
    split at h
    · cases h
    · rename_i hne
      obtain ⟨m, hm⟩ := List.exists_mem_of_ne_nil found (fun hnil => hne (by rw [hnil, List.map_nil]))
      obtain ⟨hpre, index, hindex, p, hp, hat⟩ := mem_packMatches hfound m hm
      refine List.mem_append_right _ (List.mem_flatMap.2 ⟨index, hindex, List.mem_flatMap.2 ⟨m.2.1, ?_, ?_⟩⟩)
      · exact List.mem_map.2 ⟨p, List.mem_range.2 hp, hat.symm⟩
      · exact List.mem_inits sha m.2.1 |>.2 hpre

lemma readRaw_of_readAs (h : dir.readAs now fmts sha = some c) : ∃ raw, dir.readRaw sha = some raw := by
  obtain ⟨raw, hraw, -⟩ := Option.bind_eq_some_iff.1 h
  exact ⟨raw, hraw⟩

end GitDir

/-- There are finitely many commits behind one, if all can be read. -/
lemma History.finite {dir : GitDir} {now : Int} {start : Bytes} (h : History (dir.readCommit now) start) :
    {sha | Behind (dir.readCommit now) start sha}.Finite := by
  refine dir.readable.finite_toSet.subset fun sha hsha => ?_
  obtain ⟨c, hc⟩ := Option.isSome_iff_exists.1 (h.reads sha hsha)
  obtain ⟨raw, hraw⟩ := GitDir.readRaw_of_readAs hc
  exact GitDir.mem_readable hraw

/-! ## The walk -/

section Walking

variable {read : Bytes → Option GitCommit} {start sha : Bytes} {maxCount : Int64}

/-- Whether the parents of a commit at this depth are visited. -/
def Admitted (maxCount : Int64) (depth : Nat) : Prop := maxCount.toInt = -1 ∨ (depth : Int) < maxCount.toInt

instance (maxCount : Int64) : DecidablePred (Admitted maxCount) := fun depth => by
  unfold Admitted
  infer_instance

/-- The commit of a name that can be read. -/
def commitOf (read : Bytes → Option GitCommit) (sha : Bytes) : GitCommit := (read sha).getD ⟨sha, [], [], 0⟩

lemma read_eq (h : (read sha).isSome) : read sha = some (commitOf read sha) := by
  obtain ⟨c, hc⟩ := Option.isSome_iff_exists.1 h
  rw [commitOf, hc, Option.getD_some]

/-- The walk that a search stands for. -/
def LogWalk.of (read : Bytes → Option GitCommit) (w : DepthFirst Bytes) : LogWalk :=
  ⟨w.stk, w.marked.map Prod.fst, w.done.map fun v => commitOf read v.1⟩

lemma push_of (maxCount : Int64) (depth : Nat) (w : DepthFirst Bytes) (parent : Bytes) :
    LogWalk.push maxCount depth (.of read w) parent =
      .of read (DepthFirst.push (Admitted maxCount) depth w parent) := by
  rw [LogWalk.push, DepthFirst.push]
  by_cases h : Admitted maxCount depth ∧ parent ∉ w.marked.map Prod.fst
  · rw [if_pos h]
    exact if_pos h
  · rw [if_neg h]
    exact if_neg h

lemma foldl_push_of (maxCount : Int64) (depth : Nat) (w : DepthFirst Bytes) (ps : List Bytes) :
    ps.foldl (LogWalk.push maxCount depth) (.of read w) =
      .of read (ps.foldl (DepthFirst.push (Admitted maxCount) depth) w) := by
  induction ps generalizing w with
  | nil => rfl
  | cons p ps ih => rw [List.foldl_cons, List.foldl_cons, push_of, ih]

/-- The walk is a depth-first search in which every commit is read. -/
lemma run_of {w : DepthFirst Bytes} {done : List (Bytes × Nat)} {n : Nat}
    (hrun : DepthFirst.run (parents read) (Admitted maxCount) n w = some done) (hdone : ∀ v ∈ done, (read v.1).isSome) :
    LogWalk.run read maxCount n (.of read w) = .ok (done.map fun v => commitOf read v.1) := by
  fun_induction DepthFirst.run (parents read) (Admitted maxCount) n w with
  | case1 n marked done' =>
    obtain rfl := Option.some.inj hrun
    cases n <;> rfl
  | case2 => cases hrun
  | case3 n v stk marked done' ih =>
    have hv : v ∈ done := by
      refine DepthFirst.mem_of_run hrun v ?_
      rw [DepthFirst.done_expand]
      exact List.mem_append_right _ List.mem_cons_self
    have hread := read_eq (hdone v hv)
    have hparents : parents read v.1 = GitDir.headers (commitOf read v.1) (ascii "parent") := by
      rw [parents, hread]
      rfl
    have hstate : LogWalk.of read ⟨stk, marked, done' ++ [v]⟩ =
        ⟨stk, marked.map Prod.fst, done'.map (fun v => commitOf read v.1) ++ [commitOf read v.1]⟩ := by
      rw [LogWalk.of, List.map_append, List.map_singleton]
    have hfold : (parents read v.1).foldl (LogWalk.push maxCount v.2) (.of read ⟨stk, marked, done' ++ [v]⟩) =
        .of read (DepthFirst.expand (parents read) (Admitted maxCount) v ⟨stk, marked, done'⟩) := foldl_push_of _ _ _ _
    rw [← ih hrun, ← hfold, hstate, hparents, LogWalk.of, LogWalk.run, hread]
    rfl

/-- The commits that the walk finds are all those behind `start`, or there are too many that are as new as any other. -/
structure Walked (read : Bytes → Option GitCommit) (start : Bytes) (maxCount : Int64) (logs : List GitCommit) :
    Prop where
  nodup : (logs.map GitCommit.sha).Nodup
  behind : ∀ c ∈ logs, Behind read start c.sha ∧ read c.sha = some c
  newer : ∀ sha, Behind read start sha → sha ∉ logs.map GitCommit.sha → maxCount.toInt ≠ -1 ∧
    ∃ path : List GitCommit, path.Nodup ∧ maxCount.toInt ≤ path.length ∧ path ⊆ logs ∧
      ∀ c ∈ read sha, ∀ p ∈ path, c.commitUTC ≤ p.commitUTC

lemma commitUTC_le (h : History read start) {sha' : Bytes} (hsha : Behind read start sha)
    (hpath : Behind read sha sha') :
    ∀ c ∈ read sha, ∀ c' ∈ read sha', c'.commitUTC ≤ c.commitUTC := by
  induction hpath with
  | refl =>
    intro c hc c' hc'
    obtain rfl := Option.mem_unique hc hc'
    exact le_refl _
  | @tail b d hb hstep ih =>
    intro c hc p hp
    obtain ⟨q, hq⟩ := Option.isSome_iff_exists.1 (h.reads b (hsha.trans hb))
    exact (h.times b (hsha.trans hb) d hstep q hq p hp).trans (ih c hc q hq)

/-- Every commit has the name by which it was read. -/
def Named (read : Bytes → Option GitCommit) : Prop := ∀ sha, ∀ c ∈ read sha, c.sha = sha

lemma sha_commitOf (hnamed : Named read) (h : (read sha).isSome) : (commitOf read sha).sha = sha :=
  hnamed sha _ (read_eq h)

lemma walked_of_found (hnamed : Named read) (h : History read start) {found : List Bytes}
    (hfound : DepthFirst.Found (parents read) (Admitted maxCount) start found) :
    Walked read start maxCount (found.map (commitOf read)) := by
  have hread : ∀ sha ∈ found, (read sha).isSome := fun sha hsha => h.reads sha (hfound.reached sha hsha)
  have hnames : ∀ names : List Bytes, names ⊆ found → (names.map (commitOf read)).map GitCommit.sha = names := by
    intro names hnames
    rw [List.map_map]
    exact (List.map_congr_left fun sha hsha => sha_commitOf hnamed (hread sha (hnames hsha))).trans (List.map_id names)
  have hfoundNames := hnames found (List.Subset.refl found)
  refine ⟨by rw [hfoundNames]; exact hfound.nodup, fun c hc => ?_, fun sha hsha hnot => ?_⟩
  · obtain ⟨sha, hsha, rfl⟩ := List.mem_map.1 hc
    rw [sha_commitOf hnamed (hread sha hsha)]
    exact ⟨hfound.reached sha hsha, read_eq (hread sha hsha)⟩
  · rw [hfoundNames] at hnot
    obtain ⟨path, hnodup, hopens, hpath⟩ := hfound.cut sha hsha hnot
    rw [Admitted, not_or, not_lt] at hopens
    have hsub : path ⊆ found := fun a ha => (hpath a ha).1
    refine ⟨hopens.1, path.map (commitOf read), ?_, ?_, List.map_subset _ hsub, fun c hc p hp => ?_⟩
    · exact List.Nodup.of_map GitCommit.sha (by rwa [hnames path hsub])
    · rw [List.length_map]
      exact hopens.2
    · obtain ⟨a, ha, rfl⟩ := List.mem_map.1 hp
      exact commitUTC_le h (hfound.reached a (hsub ha)) (hpath a ha).2 _ (read_eq (hread a (hsub ha))) c hc

lemma toNat_toUInt64 (m : Int64) : (m.toUInt64.toNat : Int) = if m.toInt < 0 then m.toInt + 2 ^ 64 else m.toInt := by
  have hint : m.toInt = m.toBitVec.toInt := rfl
  have hnat : m.toUInt64.toNat = m.toBitVec.toNat := rfl
  have hlt := m.toBitVec.isLt
  rw [hint, hnat, BitVec.toInt_eq_toNat_cond]
  split <;> split <;> omega

lemma Walked.length_le {logs : List GitCommit} (h : Walked read start maxCount logs)
    (hfin : {sha | Behind read start sha}.Finite) : logs.length ≤ {sha | Behind read start sha}.ncard := by
  have hsub : ((logs.map GitCommit.sha).toFinset : Set Bytes) ⊆ {sha | Behind read start sha} := by
    intro sha hsha
    obtain ⟨c, hc, rfl⟩ := List.mem_map.1 (List.mem_toFinset.1 hsha)
    exact (h.behind c hc).1
  have hcard := Set.ncard_le_ncard hsub hfin
  rwa [Set.ncard_coe_finset, List.toFinset_card_of_nodup h.nodup, List.length_map] at hcard

lemma Walked.length_eq {logs : List GitCommit} (h : Walked read start maxCount logs)
    (hall : ∀ sha, Behind read start sha → sha ∈ logs.map GitCommit.sha) :
    logs.length = {sha | Behind read start sha}.ncard := by
  have heq : {sha | Behind read start sha} = ((logs.map GitCommit.sha).toFinset : Set Bytes) := by
    ext sha
    rw [Set.mem_ofPred_eq, List.coe_toFinset, Set.mem_ofPred_eq]
    constructor
    · exact hall sha
    · intro hsha
      obtain ⟨c, hc, rfl⟩ := List.mem_map.1 hsha
      exact (h.behind c hc).1
  rw [heq, Set.ncard_coe_finset, List.toFinset_card_of_nodup h.nodup, List.length_map]

/-- So many commits are printed as there should be. -/
lemma Walked.count {logs : List GitCommit} (h : Walked read start maxCount logs)
    (hfin : {sha | Behind read start sha}.Finite) (hfits : {sha | Behind read start sha}.ncard < 2 ^ 64)
    (hmax : 1 ≤ maxCount.toInt ∨ maxCount.toInt = -1) :
    min logs.length maxCount.toUInt64.toNat = if maxCount.toInt = -1 then {sha | Behind read start sha}.ncard
      else min maxCount.toInt.toNat {sha | Behind read start sha}.ncard := by
  have hle := h.length_le hfin
  have hnat := toNat_toUInt64 maxCount
  by_cases hall : ∀ sha, Behind read start sha → sha ∈ logs.map GitCommit.sha
  · have hlength := h.length_eq hall
    split
    · rename_i hminus
      rw [hminus, if_pos (by decide)] at hnat
      omega
    · rw [if_neg (by omega)] at hnat
      omega
  · rw [not_forall] at hall
    obtain ⟨sha, hall⟩ := hall
    rw [Classical.not_imp] at hall
    obtain ⟨hminus, path, hnodup, hlength, hsub, -⟩ := h.newer sha hall.1 hall.2
    have hpath := (List.subperm_of_subset hnodup hsub).length_le
    rw [if_neg hminus]
    rw [if_neg (by omega)] at hnat
    omega

/-- The first ones of the sorted commits are the newest, as long as so many were found. -/
theorem newest_of_walked (order : NewestFirst) (hfin : {sha | Behind read start sha}.Finite)
    (hfits : {sha | Behind read start sha}.ncard < 2 ^ 64) (hmax : 1 ≤ maxCount.toInt ∨ maxCount.toInt = -1)
    {logs : List GitCommit} (h : Walked read start maxCount logs) :
    Newest read start maxCount ((order.sort logs).take (min logs.length maxCount.toUInt64.toNat)) := by
  have hcount := h.count hfin hfits hmax
  have hnat := toNat_toUInt64 maxCount
  have hperm := order.perm logs
  have hsorted := order.sorted logs
  generalize hk : min logs.length maxCount.toUInt64.toNat = k at hcount
  have hsplit := List.take_append_drop k (order.sort logs)
  generalize order.sort logs = sorted at hperm hsorted hsplit
  have hsub : sorted.take k ⊆ logs := fun c hc => hperm.subset (List.take_subset k sorted hc)
  have horder : ∀ p ∈ sorted.take k, ∀ c ∈ sorted.drop k, c.commitUTC ≤ p.commitUTC := by
    rw [← hsplit] at hsorted
    exact (List.pairwise_append.1 hsorted).2.2
  have hlength : (sorted.take k).length = k := by
    rw [List.length_take, hperm.length_eq]
    omega
  refine ⟨?_, fun c hc => h.behind c (hsub hc), hlength.trans hcount, hsorted.sublist (List.take_sublist k sorted), ?_⟩
  · exact ((hperm.map GitCommit.sha).nodup_iff.2 h.nodup).sublist ((List.take_sublist k sorted).map GitCommit.sha)
  · intro sha hsha hnot c hc p hp
    by_cases hmem : sha ∈ logs.map GitCommit.sha
    · obtain ⟨c', hc', rfl⟩ := List.mem_map.1 hmem
      obtain rfl := Option.mem_unique hc (h.behind c' hc').2
      have hin := hperm.symm.subset hc'
      rw [← hsplit] at hin
      rcases List.mem_append.1 hin with hin | hin
      · exact absurd (List.mem_map_of_mem hin) hnot
      · exact horder p hp c hin
    · obtain ⟨hminus, path, hnodup, hle, hpath, htimes⟩ := h.newer sha hsha hmem
      -- otherwise the whole path would be printed, and `p` besides it
      by_contra hlt
      rw [not_le] at hlt
      have hall : p :: path ⊆ sorted.take k := by
        refine List.cons_subset.2 ⟨hp, fun q hq => ?_⟩
        have hin := hperm.symm.subset (hpath hq)
        rw [← hsplit] at hin
        rcases List.mem_append.1 hin with hin | hin
        · exact hin
        · exact absurd ((htimes c hc q hq).trans (horder p hp q hin)) (not_le.2 hlt)
      have hnew : p ∉ path := fun hq => absurd (htimes c hc p hq) (not_le.2 hlt)
      have hcard := (List.subperm_of_subset (List.nodup_cons.2 ⟨hnew, hnodup⟩) hall).length_le
      rw [hlength, List.length_cons] at hcard
      rw [if_neg (by omega)] at hnat
      omega

end Walking

/-! ## The text -/

/-- The log of `maxCount` commits from `start` on is the text of the newest ones. -/
def GitDir.Logged (order : NewestFirst) (dir : GitDir) (now : Int) (commit start : Bytes) (maxCount : Int64) : Prop :=
  ∃ printed text, Newest (dir.readCommit now) start maxCount printed ∧ logText printed = some text ∧
    Ends (fun n => dir.getLog order now n commit maxCount) (.ok text)

lemma isSome_serialize {now : Int} {sha data fmt : Bytes} {c : GitCommit}
    (h : GitCommit.deserialize now sha data fmt = some c) :
    c.sha = sha ∧ c.serialize.isSome := by
  obtain ⟨r, -, h⟩ := Option.bind_eq_some_iff.1 h
  obtain ⟨commitUTC, -, h⟩ := Option.bind_eq_some_iff.1 h
  obtain rfl := Option.some.inj h
  refine ⟨rfl, ?_⟩
  rw [GitCommit.serialize, lookup_alter]
  rfl

lemma readAs_eq {dir : GitDir} {now : Int} {fmts : List Bytes} {sha : Bytes} {c : GitCommit}
    (h : dir.readAs now fmts sha = some c) : c.sha = sha ∧ c.serialize.isSome := by
  obtain ⟨raw, -, h⟩ := Option.bind_eq_some_iff.1 h
  obtain ⟨⟨fmt, data⟩, -, h⟩ := Option.bind_eq_some_iff.1 h
  dsimp only at h
  split at h
  · exact isSome_serialize h
  · cases h

lemma exists_logText {commits : List GitCommit} (h : ∀ c ∈ commits, c.serialize.isSome) :
    ∃ text, logText commits = some text := by
  have hentry : ∀ c ∈ commits, logEntry c = some ((logEntry c).getD []) := by
    intro c hc
    obtain ⟨text, htext⟩ := Option.isSome_iff_exists.1 (h c hc)
    rw [logEntry, htext]
    rfl
  rw [logText, mapM_eq_some hentry]
  exact ⟨_, rfl⟩

lemma commitUTC_of_deserialize {now t : Int} {sha data fmt : Bytes} {c : GitCommit}
    (h : GitCommit.deserialize now sha data fmt = some c) (ht : t ∈ c.seconds) (hbound : t.natAbs < 9223372037) :
    c.commitUTC = t * 1000000000 := by
  obtain ⟨r, -, h⟩ := Option.bind_eq_some_iff.1 h
  obtain ⟨commitUTC, htime, h⟩ := Option.bind_eq_some_iff.1 h
  obtain rfl := Option.some.inj h
  obtain ⟨values, hvalues, ht⟩ := Option.bind_eq_some_iff.1 ht
  obtain ⟨msg, hmsg, ht⟩ := Option.bind_eq_some_iff.1 ht
  change (alter [] (fun _ => [dropNewline r.acc]) r.data).lookup (ascii "committer") = some values at hvalues
  rw [hvalues, GitCommit.commitTime, hmsg, Option.bind_some, ht, Option.map_some] at htime
  rw [← Option.some.inj htime, fromTimeT, Int.bmod_eq_of_le] <;> omega

/-- Behind a start the times of the code are those of the texts. -/
theorem History.commitUTC_eq {dir : GitDir} {now t : Int} {start sha : Bytes} {c : GitCommit}
    (h : History (dir.readCommit now) start) (hsha : Behind (dir.readCommit now) start sha)
    (hc : dir.readCommit now sha = some c) (ht : t ∈ c.seconds) : c.commitUTC = t * 1000000000 := by
  have hbound := h.bounded sha hsha c hc t ht
  obtain ⟨raw, -, hc⟩ := Option.bind_eq_some_iff.1 hc
  obtain ⟨⟨fmt, data⟩, -, hc⟩ := Option.bind_eq_some_iff.1 hc
  dsimp only at hc
  split at hc
  · exact commitUTC_of_deserialize hc ht hbound
  · cases hc

/-- In a repository with commits the log has the newest commits, however the walk was cut off. -/
theorem GitDir.logged_of_head (order : NewestFirst) (dir : GitDir) (now : Int) {commit start head : Bytes}
    (maxCount : Int64) (hmax : 1 ≤ maxCount.toInt ∨ maxCount.toInt = -1)
    (hhead : Ends (fun n => dir.refResolve n (ascii "HEAD")) (.ok head)) (hne : head ≠ [])
    (hstart : Ends (fun n => dir.findObject now n commit (ascii "commit") true) (.ok start))
    (h : History (dir.readCommit now) start) : dir.Logged order now commit start maxCount := by
  have hnamed : Named (dir.readCommit now) := fun sha c hc => (readAs_eq hc).1
  obtain ⟨done, hfound, hrun⟩ := DepthFirst.exists_run (parents (dir.readCommit now)) (Admitted maxCount) start h.finite
  have hwalked := walked_of_found hnamed h hfound
  have hread : ∀ v ∈ done, (dir.readCommit now v.1).isSome := fun v hv =>
    h.reads v.1 (hfound.reached v.1 (List.mem_map_of_mem hv))
  have hlogs : (done.map Prod.fst).map (commitOf (dir.readCommit now)) = done.map fun v =>
    commitOf (dir.readCommit now) v.1 :=
    List.map_map
  have hnewest := newest_of_walked order h.finite h.fits hmax hwalked
  rw [hlogs] at hnewest
  obtain ⟨text, htext⟩ := exists_logText fun c hc => (readAs_eq (hnewest.behind c hc).2).2
  refine ⟨_, text, hnewest, htext, ?_⟩
  obtain ⟨k, hk⟩ := hhead
  obtain ⟨k', hk'⟩ := hstart
  refine ⟨max (max k k') {sha | Behind (dir.readCommit now) start sha}.ncard, fun n hn => ?_⟩
  have hzero : maxCount.toInt ≠ 0 := by omega
  have hwalk := run_of (hrun n ((le_max_right _ _).trans hn)) hread
  have hheadRun : dir.refResolve n (ascii "HEAD") = .ok head := hk n ((le_max_left _ _).trans ((le_max_left _ _).trans hn))
  have hstartRun : dir.findObject now n commit (ascii "commit") true = .ok start :=
    hk' n ((le_max_right _ _).trans ((le_max_left _ _).trans hn))
  have hinit : LogWalk.of (dir.readCommit now) (DepthFirst.init start) = ⟨[(start, 1)], [start], []⟩ := rfl
  rw [hinit] at hwalk
  calc
    dir.getLog order now n commit maxCount = (do
        let logs ← LogWalk.run (dir.readCommit now) maxCount n ⟨[(start, 1)], [start], []⟩
        orThrow (logText ((order.sort logs).take (min logs.length maxCount.toUInt64.toNat)))) := by
      rw [getLog, if_neg hzero, hheadRun]
      refine (if_neg hne).trans ?_
      rw [hstartRun]
      rfl
    _ = orThrow (some text) := by
      rw [hwalk, ← htext]
      rfl

section Examples

def byTime : NewestFirst where
  sort logs := logs.mergeSort fun c1 c2 => decide (c2.commitUTC ≤ c1.commitUTC)
  perm logs := List.mergeSort_perm logs _
  sorted logs := by
    have hsorted := @List.pairwise_mergeSort _ (fun c1 c2 : GitCommit => decide (c2.commitUTC ≤ c1.commitUTC))
      (by simp only [decide_eq_true_eq]; exact fun a b c hab hbc => hbc.trans hab)
      (by simp only [Bool.or_eq_true, decide_eq_true_eq]; exact fun a b => Int.le_total _ _) logs
    exact hsorted.imp fun h => of_decide_eq_true h

/-- Two loose commits, the first one the parent of the other, with the other one in a file for the ref `HEAD`, if there
is one. -/
def twoCommits (head : Option Bytes) : GitDir where
  objects := [(ascii "abcd", withHeader (ascii "commit") (ascii "parent abce\ncommitter c 2 +\n\n")),
    (ascii "abce", withHeader (ascii "commit") (ascii "committer c 1 +\n\n"))]
  packs := []
  files path := if path = ascii "HEAD" then head else none
  relative path := path
  packedRefs _ := none

def laterCommit : GitCommit :=
  ⟨ascii "abcd", ascii "commit",
    [(ascii "parent", [ascii "abce"]), (ascii "committer", [ascii "c 2 +"]), ([], [[]])], fromTimeT 2⟩

def earlierCommit : GitCommit :=
  ⟨ascii "abce", ascii "commit", [(ascii "committer", [ascii "c 1 +"]), ([], [[]])], fromTimeT 1⟩

variable {head : Option Bytes}

lemma readCommit_withHeader {dir : GitDir} {now : Int} {sha data : Bytes} {c : GitCommit}
    (hlookup : dir.objects.lookup sha = some (withHeader (ascii "commit") data))
    (hdata : GitCommit.deserialize now sha data (ascii "commit") = some c) : dir.readCommit now sha = some c := by
  rw [GitDir.readCommit, GitDir.readAs, GitDir.readRaw, hlookup, Option.bind_eq_bind, Option.bind_some,
    readObject_withHeader (by decide), Option.bind_eq_bind, Option.bind_some]
  exact (if_pos (by decide)).trans hdata

lemma readCommit_twoCommits : (twoCommits head).readCommit 0 (ascii "abcd") = some laterCommit ∧
    (twoCommits head).readCommit 0 (ascii "abce") = some earlierCommit :=
  ⟨readCommit_withHeader rfl rfl, readCommit_withHeader rfl rfl⟩

lemma parents_twoCommits : parents ((twoCommits head).readCommit 0) (ascii "abcd") = [ascii "abce"] ∧
    parents ((twoCommits head).readCommit 0) (ascii "abce") = [] := by
  rw [parents, parents, readCommit_twoCommits.1, readCommit_twoCommits.2]
  exact ⟨rfl, rfl⟩

lemma behind_twoCommits {sha : Bytes} (h : Behind ((twoCommits head).readCommit 0) (ascii "abcd") sha) :
    sha = ascii "abcd" ∨ sha = ascii "abce" := by
  induction h with
  | refl => exact .inl rfl
  | tail _ hstep ih =>
    rcases ih with rfl | rfl
    · rw [DepthFirst.Step, parents_twoCommits.1] at hstep
      exact .inr (List.mem_singleton.1 hstep)
    · rw [DepthFirst.Step, parents_twoCommits.2] at hstep
      cases hstep

lemma history_twoCommits (head : Option Bytes) : History ((twoCommits head).readCommit 0) (ascii "abcd") where
  reads sha hsha := by
    rcases behind_twoCommits hsha with rfl | rfl
    · rw [readCommit_twoCommits.1]
      rfl
    · rw [readCommit_twoCommits.2]
      rfl
  times sha hsha parent hparent c hc p hp := by
    rcases behind_twoCommits hsha with rfl | rfl
    · rw [parents_twoCommits.1, List.mem_singleton] at hparent
      subst hparent
      rw [readCommit_twoCommits.1] at hc
      rw [readCommit_twoCommits.2] at hp
      cases hc
      cases hp
      decide
    · rw [parents_twoCommits.2] at hparent
      cases hparent
  bounded sha hsha c hc t ht := by
    rcases behind_twoCommits hsha with rfl | rfl
    · rw [readCommit_twoCommits.1] at hc
      cases hc
      have hseconds : laterCommit.seconds = some 2 := by decide
      obtain rfl := Option.mem_unique hseconds ht
      decide
    · rw [readCommit_twoCommits.2] at hc
      cases hc
      have hseconds : earlierCommit.seconds = some 1 := by decide
      obtain rfl := Option.mem_unique hseconds ht
      decide
  fits := by
    have hsub : {sha | Behind ((twoCommits head).readCommit 0) (ascii "abcd") sha} ⊆ {ascii "abcd", ascii "abce"} :=
      fun sha hsha => behind_twoCommits hsha
    have hle := (Set.ncard_le_ncard hsub).trans (Set.ncard_insert_le _ _)
    rw [Set.ncard_singleton] at hle
    omega

theorem logged_twoCommits :
    (twoCommits (some (ascii "abcd\n"))).Logged byTime 0 (ascii "HEAD") (ascii "abcd") (-1) := by
  refine GitDir.logged_of_head byTime _ 0 (-1) (.inr rfl) ⟨1, fun n hn => ?_⟩
    (show ascii "abcd" ≠ [] by decide) ⟨1, fun n hn => ?_⟩ (history_twoCommits _)
  · obtain ⟨m, rfl⟩ : ∃ m, n = m + 1 := ⟨n - 1, by omega⟩
    rfl
  · obtain ⟨m, rfl⟩ : ∃ m, n = m + 1 := ⟨n - 1, by omega⟩
    rfl

/-- No log is written of the commits of another branch if there is none in `HEAD`. -/
theorem not_logged_unborn : ¬ ∀ (order : NewestFirst) (dir : GitDir) (now : Int) (commit start : Bytes)
    (maxCount : Int64),
    (1 ≤ maxCount.toInt ∨ maxCount.toInt = -1) →
    Ends (fun n => dir.findObject now n commit (ascii "commit") true) (.ok start) → History (dir.readCommit now) start →
    dir.Logged order now commit start maxCount := by
  intro h
  have hstart : Ends (fun n => (twoCommits none).findObject 0 n (ascii "abcd") (ascii "commit") true) (.ok (ascii "abcd")) := by
    refine ⟨1, fun n hn => ?_⟩
    obtain ⟨m, rfl⟩ : ∃ m, n = m + 1 := ⟨n - 1, by omega⟩
    rfl
  obtain ⟨printed, text, -, -, k, hk⟩ := h byTime (twoCommits none) 0 (ascii "abcd") (ascii "abcd") (-1) (.inr rfl) hstart
    (history_twoCommits none)
  have hthrows : (twoCommits none).getLog byTime 0 (k + 1) (ascii "abcd") (-1) = .error .threw := rfl
  exact absurd ((hk (k + 1) (Nat.le_succ k)).symm.trans hthrows) nofun

end Examples

end CppExperiments.Cgit

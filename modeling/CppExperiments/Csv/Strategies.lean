import CppExperiments.Csv.Splitting
import Mathlib.Data.Finset.Card
import Mathlib.Data.List.Dedup
import Mathlib.Data.List.Perm.Subperm

/-!
# The strategies of a split

None of the strategies returns to a bucket that it has pruned; what each does with the rows.
-/

namespace CppExperiments.Csv

variable {rows : List CSVRecord} {row : CSVRecord} {pruned : List Nat} {choices : List (Nat × List Nat)} {limit : Nat}
  {weight : CSVRecord → Nat} {hasher : Bytes → Nat} {colIdx n columns b b' : Nat} {field field' : Bytes}

lemma SplitStrategy.run_cons {strategy : SplitStrategy} {state state' state'' : strategy.State} {b : Nat}
    {bs : List Nat}
    (hget : strategy.getBucket state row = some (state', b, bs))
      (hrun : strategy.run state' rows = some (choices, state'')) :
    strategy.run state (row :: rows) = some ((b, bs) :: choices, state'') := by
  rw [run, hget, Option.bind_eq_bind, Option.bind_some]
  dsimp only
  rw [hrun]
  rfl

lemma SplitStrategy.length_of_run {strategy : SplitStrategy} {state state' : strategy.State}
    (h : strategy.run state rows = some (choices, state')) : choices.length = rows.length := by
  induction rows generalizing state choices with
  | nil =>
    obtain ⟨rfl, -⟩ := Prod.mk.inj (Option.some.inj h)
    rfl
  | cons row rows ih =>
    obtain ⟨⟨state₁, b, bs⟩, -, h⟩ := Option.bind_eq_some_iff.1 h
    obtain ⟨⟨choices', state₂⟩, hrun, heq⟩ := Option.bind_eq_some_iff.1 h
    obtain ⟨rfl, rfl⟩ := Prod.mk.inj (Option.some.inj heq)
    rw [List.length_cons, ih hrun, List.length_cons]

lemma noReturn_of_no_pruning (h : ∀ c ∈ choices, c.2 = []) : NoReturn [] choices := by
  induction choices with
  | nil => trivial
  | cons c choices ih =>
    rw [List.forall_mem_cons] at h
    refine ⟨List.not_mem_nil, ?_, ?_⟩
    · rw [h.1]
      exact List.not_mem_nil
    · rw [h.1]
      exact ih h.2

/-! ## One bucket after another -/

/-- What the strategies that fill one bucket after another have in common. -/
def fillingStrategy (limit : Nat) (weight : CSVRecord → Nat) : SplitStrategy where
  State := Filling
  getBucket s row := some (s.getBucket limit (weight row))

lemma Filling.getBucket_cases (s : Filling) (limit weight : Nat) :
    ∃ s' bs, s.getBucket limit weight = (s', s'.currBucket, bs) ∧
    s.currBucket ≤ s'.currBucket ∧ ∀ b ∈ bs, b < s'.currBucket := by
  rw [Filling.getBucket]
  split
  · exact ⟨_, _, rfl, Nat.le_succ _, fun b hb => by rw [List.mem_singleton.1 hb]; exact Nat.lt_succ_self _⟩
  · exact ⟨_, _, rfl, le_rfl, fun b hb => absurd hb List.not_mem_nil⟩

lemma pruned_nil (s : Filling) : ∀ b ∈ ([] : List Nat), b < s.currBucket := fun _ hb => absurd hb List.not_mem_nil

lemma filling_run (limit : Nat) (weight : CSVRecord → Nat) (s : Filling) (hpruned : ∀ b ∈ pruned, b < s.currBucket)
    (rows : List CSVRecord) :
    ∃ choices s', (fillingStrategy limit weight).run s rows = some (choices, s') ∧ NoReturn pruned choices ∧
      (choices.map Prod.fst).Pairwise (· ≤ ·) ∧ ∀ b ∈ choices.map Prod.fst, s.currBucket ≤ b := by
  induction rows generalizing s pruned with
  | nil => exact ⟨[], s, rfl, trivial, .nil, fun b hb => absurd hb List.not_mem_nil⟩
  | cons row rows ih =>
    obtain ⟨s₁, bs, hget, hle, hlt⟩ := s.getBucket_cases limit (weight row)
    have hpruned' : ∀ b ∈ pruned ++ bs, b < s₁.currBucket := fun b hb =>
      (List.mem_append.1 hb).elim (fun hin => Nat.lt_of_lt_of_le (hpruned b hin) hle) (hlt b)
    obtain ⟨choices, s', hrun, hreturn, hsorted, hmem⟩ := ih s₁ hpruned'
    refine ⟨(s₁.currBucket, bs) :: choices, s', SplitStrategy.run_cons (congrArg some hget) hrun, ⟨?_, ?_, hreturn⟩,
      ?_, ?_⟩
    · exact fun hin => absurd (hpruned' _ (List.mem_append_left bs hin)) (Nat.lt_irrefl _)
    · exact fun hin => absurd (hlt _ hin) (Nat.lt_irrefl _)
    · exact List.pairwise_cons.2 ⟨hmem, hsorted⟩
    · exact List.forall_mem_cons.2 ⟨hle, fun b hb => hle.trans (hmem b hb)⟩

/-! ## By the hash of a column -/

lemma hash_run (hasher : Bytes → Nat) (n : Nat) (hrows : ∀ row ∈ rows, colIdx < row.records.length) :
    ∃ choices, (HashColumnStrategy hasher colIdx n).run () rows = some (choices, ()) ∧ (∀ c ∈ choices, c.2 = []) ∧
      ∀ p ∈ (choices.map Prod.fst).zip rows, ∃ field, p.2.records[colIdx]? = some field ∧ some (hasher field % n) =
        some p.1 := by
  induction rows with
  | nil => exact ⟨[], rfl, fun c hc => absurd hc List.not_mem_nil, fun p hp => absurd hp List.not_mem_nil⟩
  | cons row rows ih =>
    rw [List.forall_mem_cons] at hrows
    obtain ⟨field, hfield⟩ : ∃ field, row.records[colIdx]? = some field := ⟨_, List.getElem?_eq_getElem hrows.1⟩
    obtain ⟨choices, hrun, hpruning, hall⟩ := ih hrows.2
    exact ⟨(hasher field % n, []) :: choices, SplitStrategy.run_cons (congrArg (Option.map _) hfield) hrun,
      List.forall_mem_cons.2 ⟨rfl, hpruning⟩, List.forall_mem_cons.2 ⟨⟨field, hfield, rfl⟩, hall⟩⟩

/-! ## By the groups of a column -/

namespace Groups

variable {s : Groups}

/-- The fields that share a bucket. -/
def members (s : Groups) (b : Nat) : List Bytes := (s.field2BucketMapping.entries.filter fun p => p.2 = b).map Sigma.fst

/-- The counts are right and within the bound, and nothing is behind the current bucket. -/
structure Inv (n : Nat) (s : Groups) : Prop where
  counts : ∀ b, (s.members b).length = s.count b
  bound : ∀ b, s.count b ≤ n
  fresh : ∀ b, s.currBucket < b → s.count b = 0

lemma inv_start (n : Nat) : ({} : Groups).Inv n := ⟨fun _ => rfl, fun _ => Nat.zero_le n, fun _ _ => rfl⟩

lemma mem_members (h : s.field2BucketMapping.lookup field = some b) : field ∈ s.members b :=
  List.mem_map.2 ⟨⟨field, b⟩, List.mem_filter.2 ⟨AList.mem_lookup_iff.1 h, decide_eq_true rfl⟩, rfl⟩

lemma count_add (s : Groups) (field : Bytes) (b b' : Nat) :
    (s.add field b).count b' = s.count b' + if b' = b then 1 else 0 := by
  by_cases hb : b' = b
  · rw [hb, if_pos rfl, count, add, AList.lookup_insert, Option.getD_some]
  · rw [if_neg hb, count, add, AList.lookup_insert_ne hb]
    rfl

lemma Inv.add (h : s.Inv n) (hnew : s.field2BucketMapping.lookup field = none) (hcount : s.count b < n)
    (hle : s.currBucket ≤ b) : (s.add field b).Inv n := by
  refine ⟨fun b' => ?_, fun b' => ?_, fun b' hb' => ?_⟩
  · rw [count_add, ← h.counts b', members, Groups.add, AList.entries_insert_of_notMem (AList.lookup_eq_none.1 hnew)]
    by_cases hb : b' = b
    · rw [if_pos hb, List.filter_cons_of_pos (by simpa using hb.symm)]
      rfl
    · rw [if_neg hb, List.filter_cons_of_neg (by simpa using Ne.symm hb)]
      rfl
  · rw [count_add]
    split
    · rw [‹b' = b›]
      exact hcount
    · exact h.bound b'
  · have hlt : b < b' := hb'
    rw [count_add, if_neg (Nat.ne_of_gt hlt), h.fresh b' (Nat.lt_of_le_of_lt hle hlt)]

/-- A field has its bucket from then on. -/
lemma Inv.getBucket (h : s.Inv n) (hn : 0 < n) (field : Bytes) : ∃ s' b, s.getBucket n field = (s', b) ∧ s'.Inv n ∧
    s'.field2BucketMapping.lookup field = some b ∧
    ∀ field' b', s.field2BucketMapping.lookup field' = some b' → s'.field2BucketMapping.lookup field' = some b' := by
  cases hlookup : s.field2BucketMapping.lookup field with
  | some b => exact ⟨s, b, by rw [Groups.getBucket, hlookup], h, hlookup, fun _ _ => id⟩
  | none =>
    have hkeep : ∀ b field' b', s.field2BucketMapping.lookup field' = some b' →
        (s.add field b).field2BucketMapping.lookup field' = some b' := fun b field' b' heq => by
      have hne : field' ≠ field := fun hf => by
        rw [hf, hlookup] at heq
        cases heq
      exact (AList.lookup_insert_ne hne).trans heq
    by_cases hcount : s.count s.currBucket < n
    · refine ⟨_, _, ?_, h.add hlookup hcount le_rfl, AList.lookup_insert _, hkeep _⟩
      rw [Groups.getBucket, hlookup]
      exact if_pos hcount
    · have hfresh : s.count (s.currBucket + 1) < n := by
        rw [h.fresh _ (Nat.lt_succ_self _)]
        exact hn
      refine ⟨_, _, ?_, h.add hlookup hfresh (Nat.le_succ _), AList.lookup_insert _, hkeep _⟩
      rw [Groups.getBucket, hlookup]
      exact if_neg hcount

end Groups

/-- All the rows by their groups: in the end every row is where its field is. -/
lemma group_run {s : Groups} (h : s.Inv n) (hn : 0 < n) (hrows : ∀ row ∈ rows, colIdx < row.records.length) :
    ∃ choices s', (GroupColumnStrategy colIdx n).run s rows = some (choices, s') ∧ s'.Inv n ∧
      (∀ c ∈ choices, c.2 = []) ∧
      (∀ field b, s.field2BucketMapping.lookup field = some b → s'.field2BucketMapping.lookup field = some b) ∧
      ∀ p ∈ (choices.map Prod.fst).zip rows, ∃ field, p.2.records[colIdx]? = some field ∧
        s'.field2BucketMapping.lookup field = some p.1 := by
  induction rows generalizing s with
  | nil => exact ⟨[], s, rfl, h, fun c hc => absurd hc List.not_mem_nil, fun _ _ => id,
      fun p hp => absurd hp List.not_mem_nil⟩
  | cons row rows ih =>
    rw [List.forall_mem_cons] at hrows
    obtain ⟨field, hfield⟩ : ∃ field, row.records[colIdx]? = some field := ⟨_, List.getElem?_eq_getElem hrows.1⟩
    obtain ⟨s₁, b, hget, hinv, hlookup, hkeep⟩ := h.getBucket hn field
    obtain ⟨choices, s', hrun, hinv', hpruning, hkeep', hall⟩ := ih hinv hrows.2
    refine ⟨(b, []) :: choices, s', ?_, hinv', List.forall_mem_cons.2 ⟨rfl, hpruning⟩,
      fun field' b' heq => hkeep' field' b' (hkeep field' b' heq),
        List.forall_mem_cons.2 ⟨⟨field, hfield, hkeep' field b hlookup⟩, hall⟩⟩
    refine SplitStrategy.run_cons ((congrArg (Option.map _) hfield).trans ?_) hrun
    rw [Option.map_some]
    exact congrArg (fun p : Groups × Nat => some (p.1, p.2, ([] : List Nat))) hget

/-! ## All of them -/

namespace Mode

/-- Rows with the same field in a column share a bucket. -/
def Together (colIdx : Nat) (rows : List CSVRecord) (buckets : List Nat) : Prop :=
  ∀ b b' row row', row ∈ bucketOf buckets rows b → row' ∈ bucketOf buckets rows b' →
    row.records[colIdx]? = row'.records[colIdx]? → b = b'

/-- What a mode promises of the buckets of the rows. -/
def Arranged (rows : List CSVRecord) (buckets : List Nat) : Mode → Prop
  | .rows _ | size _ => ∀ order : List Nat, order.Pairwise (· < ·) → (∀ b, b ∈ order ↔ b ∈ buckets) →
      order.flatMap (bucketOf buckets rows) = rows
  | hash colIdx _ => Together colIdx rows buckets
  | group colIdx groupSize => Together colIdx rows buckets ∧
      ∀ b, ((bucketOf buckets rows b).map fun row => row.records[colIdx]?).dedup.length ≤ groupSize

lemma together_of_assigned (assign : Bytes → Option Nat) {buckets : List Nat}
    (hall : ∀ p ∈ buckets.zip rows, ∃ field, p.2.records[colIdx]? = some field ∧ assign field = some p.1) :
    Together colIdx rows buckets := fun b b' row row' hrow hrow' heq => by
  obtain ⟨field, hfield, hassign⟩ := hall _ (mem_bucketOf_iff.1 hrow)
  obtain ⟨field', hfield', hassign'⟩ := hall _ (mem_bucketOf_iff.1 hrow')
  obtain rfl : field = field' := Option.some.inj (hfield.symm.trans (heq.trans hfield'))
  exact Option.some.inj (hassign.symm.trans hassign')

/-- What a mode is for: each row is in the file of the bucket that is chosen for it, and the buckets are arranged. -/
def Splits (disk : Disk) (hasher : Bytes → Nat) (order : List Nat → List Nat) (CSVHeader : Bytes) (header : CSVRecord)
    (rows : List CSVRecord) (mode : Mode) : Prop :=
  ∃ s choices state', (∀ n ≥ rows.length, mode.splitFile disk hasher order n CSVHeader (header :: rows) = some s) ∧
    (mode.strategy hasher).run (mode.state hasher) rows = some (choices, state') ∧
      SplitInto CSVHeader rows (choices.map Prod.fst) s ∧ mode.Arranged rows (choices.map Prod.fst)

/-- Every file that the rows need opens when it is needed. -/
def OpensAll (disk : Disk) (hasher : Bytes → Nat) (rows : List CSVRecord) (mode : Mode) : Prop :=
  ∀ choices state', (mode.strategy hasher).run (mode.state hasher) rows = some (choices, state') →
    AllOpen disk [] [] choices

lemma exists_filling (limit : Nat) (weight : CSVRecord → Nat) (rows : List CSVRecord) : ∃ choices state',
    (fillingStrategy limit weight).run ({} : Filling) rows = some (choices, state') ∧ NoReturn [] choices ∧
      ∀ order : List Nat, order.Pairwise (· < ·) → (∀ b, b ∈ order ↔ b ∈ choices.map Prod.fst) →
        order.flatMap (bucketOf (choices.map Prod.fst) rows) = rows := by
  obtain ⟨choices, s', hrun, hreturn, hsorted, -⟩ := filling_run limit weight {} (pruned_nil {}) rows
  have hlength : (choices.map Prod.fst).length = rows.length := by
    rw [List.length_map]
    exact SplitStrategy.length_of_run hrun
  exact ⟨choices, s', hrun, hreturn, fun order hlt hmem => flatMap_bucketOf hlength hsorted hlt fun b => (hmem b).2⟩

/-- The buckets of the rows, in any mode with parameters that are admitted. -/
lemma exists_choices (hasher : Bytes → Nat) {mode : Mode} (hmode : mode.Admits columns)
    (hrows : ∀ row ∈ rows, row.records.length = columns) : ∃ choices state',
      (mode.strategy hasher).run (mode.state hasher) rows = some (choices, state') ∧ NoReturn [] choices ∧
        mode.Arranged rows (choices.map Prod.fst) := by
  cases mode with
  | rows count => exact exists_filling count (fun _ => 1) rows
  | size megabytes => exact exists_filling (megabytes * 1024 * 1024 % 2 ^ 64) CSVRecord.memory rows
  | hash colIdx buckets =>
    have hcol : ∀ row ∈ rows, colIdx < row.records.length := fun row hrow => (hrows row hrow).symm ▸ hmode.1
    obtain ⟨choices, hrun, hpruning, hall⟩ := hash_run hasher buckets hcol
    exact ⟨choices, (), hrun, noReturn_of_no_pruning hpruning,
      together_of_assigned (fun field => some (hasher field % buckets)) hall⟩
  | group colIdx groupSize =>
    have hcol : ∀ row ∈ rows, colIdx < row.records.length := fun row hrow => (hrows row hrow).symm ▸ hmode.1
    obtain ⟨choices, s', hrun, hinv, hpruning, -, hall⟩ := group_run (Groups.inv_start groupSize) hmode.2.1 hcol
    refine ⟨choices, s', hrun, noReturn_of_no_pruning hpruning,
      together_of_assigned (s'.field2BucketMapping.lookup ·) hall, fun b => ?_⟩
    have hsub : ((bucketOf (choices.map Prod.fst) rows b).map fun row => row.records[colIdx]?).dedup ⊆
        (s'.members b).map some := by
      intro value hvalue
      obtain ⟨row, hrow, rfl⟩ := List.mem_map.1 (List.mem_dedup.1 hvalue)
      obtain ⟨field, hfield, hlookup⟩ := hall _ (mem_bucketOf_iff.1 hrow)
      exact List.mem_map.2 ⟨field, Groups.mem_members hlookup, hfield.symm⟩
    have hle := (List.subperm_of_subset (List.nodup_dedup _) hsub).length_le
    rw [List.length_map, hinv.counts] at hle
    exact hle.trans (hinv.bound b)

section AllModes

variable {disk : Disk} {order : List Nat → List Nat} {CSVHeader : Bytes} {header : CSVRecord} {mode : Mode}

lemma splits_of_opensAll (horder : ∀ bs, (order bs).Perm bs) (hinput : ∀ b rows, disk.left b rows = rows)
    (hmode : mode.Admits columns) (hrows : ∀ row ∈ rows, row.records.length = columns)
    (hopens : mode.OpensAll disk hasher rows) : mode.Splits disk hasher order CSVHeader header rows := by
  obtain ⟨choices, state', hrun, hreturn, harranged⟩ := exists_choices hasher hmode hrows
  obtain ⟨s, hsplit, hinto⟩ := (CSVSplit.splitFile_splitInto horder hinput CSVHeader header hrun hreturn).2
    (hopens choices state' hrun)
  exact ⟨s, choices, state', hsplit, hrun, hinto, harranged⟩

lemma opensAll_of_splits (horder : ∀ bs, (order bs).Perm bs) (hinput : ∀ b rows, disk.left b rows = rows)
    (hmode : mode.Admits columns) (hrows : ∀ row ∈ rows, row.records.length = columns)
    (hsplits : mode.Splits disk hasher order CSVHeader header rows) : mode.OpensAll disk hasher rows := by
  obtain ⟨choices, state', hrun, hreturn, -⟩ := exists_choices hasher hmode hrows
  obtain ⟨s, choices₁, state₁, hsplit, hrun₁, hinto, -⟩ := hsplits
  obtain ⟨rfl, rfl⟩ := Prod.mk.inj (Option.some.inj (hrun.symm.trans hrun₁))
  intro choices₂ state₂ hrun₂
  obtain ⟨rfl, rfl⟩ := Prod.mk.inj (Option.some.inj (hrun.symm.trans hrun₂))
  exact (CSVSplit.splitFile_splitInto horder hinput CSVHeader header hrun hreturn).1 ⟨s, hsplit, hinto⟩

/-- Every mode with any parameters that are admitted. -/
theorem splits_iff_opensAll (horder : ∀ bs, (order bs).Perm bs) (hinput : ∀ b rows, disk.left b rows = rows)
    (hmode : mode.Admits columns) (hrows : ∀ row ∈ rows, row.records.length = columns) :
    mode.Splits disk hasher order CSVHeader header rows ↔ mode.OpensAll disk hasher rows :=
  ⟨opensAll_of_splits horder hinput hmode hrows, splits_of_opensAll horder hinput hmode hrows⟩

end AllModes

section Limit

/-- A disk of which a process may have so many files open, none of them the input file. -/
def limited (count : Nat) : Disk := ⟨fun opened _ => decide (opened.card < count), fun _ rows => rows⟩

/-- Three rows with three values in the first column. -/
def threeRows : List CSVRecord :=
  [⟨ascii "1,x", [ascii "1", ascii "x"]⟩, ⟨ascii "2,y", [ascii "2", ascii "y"]⟩, ⟨ascii "3,x", [ascii "3", ascii "x"]⟩]

lemma length_of_mem_threeRows : ∀ row ∈ threeRows, row.records.length = 2 := by
  simp [threeRows]

theorem splits_iff_opensAll_grouped :
    (group 1 1).Splits (limited 3) (fun _ => 0) id (ascii "a,b") ⟨ascii "a,b", [ascii "a", ascii "b"]⟩ threeRows ↔
      (group 1 1).OpensAll (limited 3) (fun _ => 0) threeRows :=
  splits_iff_opensAll (fun _ => .refl _) (fun _ _ => rfl) (⟨by decide, by decide, by decide⟩ : (group 1 1).Admits 2)
    length_of_mem_threeRows

/-- The third file does not open. -/
theorem not_splits_limited : ¬ ∀ disk hasher order, (∀ bs : List Nat, (order bs).Perm bs) → ∀ CSVHeader header rows columns
    (mode : Mode), mode.Admits columns → (∀ row ∈ rows, row.records.length = columns) →
      mode.Splits disk hasher order CSVHeader header rows := by
  intro h
  have hmode : (group 0 1).Admits 2 := ⟨by decide, by decide, by decide⟩
  have hsplits := h (limited 2) (fun _ => 0) id (fun _ => .refl _) (ascii "a,b") ⟨ascii "a,b", [ascii "a", ascii "b"]⟩
    threeRows 2 (group 0 1) hmode length_of_mem_threeRows
  have hopens := opensAll_of_splits (fun _ => .refl _) (fun _ _ => rfl) hmode length_of_mem_threeRows hsplits
  exact absurd (hopens _ _ rfl).2.2.1 (by decide)

end Limit

end Mode

end CppExperiments.Csv

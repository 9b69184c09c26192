import CppExperiments.Csv.Split
import CppExperiments.Lib.Buckets

/-!
# What is in the files of a split

Whatever the strategy, each row is in the file of its bucket, in order and behind the header, as long as no bucket is
chosen again when it has been pruned.
-/

namespace CppExperiments.Csv

/-- The bytes of rows, each on a line. -/
def linesOf (rows : List CSVRecord) : Bytes := rows.flatMap fun row => row.serialized ++ [10]

/-- The buckets of the rows, with what is pruned behind each. -/
def SplitStrategy.run (strategy : SplitStrategy) :
    strategy.State → List CSVRecord → Option (List (Nat × List Nat) × strategy.State)
  | state, [] => some ([], state)
  | state, row :: rows => do
    let (state, bucket, pruneBuckets) ← strategy.getBucket state row
    let (choices, state) ← run strategy state rows
    some ((bucket, pruneBuckets) :: choices, state)

/-- A bucket that has been pruned is not chosen again. -/
def NoReturn : List Nat → List (Nat × List Nat) → Prop
  | _, [] => True
  | pruned, choice :: choices => choice.1 ∉ pruned ∧ choice.1 ∉ choice.2 ∧ NoReturn (pruned ++ choice.2) choices

/-- Every file that is needed next can be opened while those of the buckets that are not pruned are open. -/
def AllOpen (disk : Disk) : List Nat → List Nat → List (Nat × List Nat) → Prop
  | _, _, [] => True
  | buckets, pruned, choice :: choices =>
    (choice.1 ∈ buckets ∨ disk.opens (buckets.toFinset \ pruned.toFinset) choice.1 = true) ∧
      AllOpen disk (buckets ++ [choice.1]) (pruned ++ choice.2) choices

/-- Each row is in the file of its bucket, in order and behind the header, and each file is opened once. -/
structure SplitInto (CSVHeader : Bytes) (rows : List CSVRecord) (buckets : List Nat) (s : CSVSplit) : Prop where
  length : buckets.length = rows.length
  files : ∀ b, s.files.lookup b =
    if b ∈ buckets then some (CSVHeader ++ [10] ++ linesOf (bucketOf buckets rows b)) else none
  opened : s.opened.Nodup

variable {CSVHeader text : Bytes} {rows : List CSVRecord} {row : CSVRecord} {buckets pruned : List Nat}
  {s s' : CSVSplit}
  {b b' n : Nat} {disk : Disk} {strategy : SplitStrategy} {state state' : strategy.State} {choices : List (Nat × List Nat)}

namespace CSVSplit

/-- What has been written to a file, and what is still in its buffer. -/
def content (s : CSVSplit) (b : Nat) : Bytes := (s.files.lookup b).getD [] ++ s.buffer b

/-- The state when these rows have gone into these buckets, and the buckets `pruned` are done with. -/
structure Inv (CSVHeader : Bytes) (rows : List CSVRecord) (buckets pruned : List Nat) (s : CSVSplit) : Prop where
  length : buckets.length = rows.length
  header : s.CSVHeader = CSVHeader
  handles : ∀ b, s.outputHandles.lookup b = if b ∈ buckets ∧ b ∉ pruned then some true else none
  present : ∀ b, (s.files.lookup b).isSome = true ↔ b ∈ buckets
  content : ∀ b, s.content b = if b ∈ buckets then CSVHeader ++ [10] ++ linesOf (bucketOf buckets rows b) else []
  buffered : ∀ b, s.buffer b ≠ [] → b ∈ buckets ∧ b ∉ pruned
  opened : s.opened.Nodup ∧ ∀ b ∈ s.opened, b ∈ buckets

/-! ## Flushing -/

lemma buffer_insert (s : CSVSplit) (b : Nat) (text : Bytes) (b' : Nat) :
    buffer { s with buffers := s.buffers.insert b text } b' = if b' = b then text else s.buffer b' := by
  by_cases hb : b' = b
  · rw [if_pos hb, hb, buffer, AList.lookup_insert, Option.getD_some]
  · rw [if_neg hb, buffer, AList.lookup_insert_ne hb]
    rfl

/-- A flush moves what is in a buffer to its file, if the file is open. -/
structure Flushed (b : Nat) (s s' : CSVSplit) : Prop where
  header : s'.CSVHeader = s.CSVHeader
  handles : s'.outputHandles = s.outputHandles
  opened : s'.opened = s.opened
  buffer : ∀ b', s'.buffer b' = if b' = b then [] else s.buffer b'
  present : ∀ b', (s'.files.lookup b').isSome = (s.files.lookup b').isSome
  content : ∀ b', s'.content b' = s.content b'

lemma flushBuffer_flushed (h : s.buffer b ≠ [] → s.outputHandles.lookup b = some true ∧ (s.files.lookup b).isSome =
    true) :
    Flushed b s (s.flushBuffer b) := by
  have hbuffer := fun text => buffer_insert s b text
  rw [flushBuffer]
  by_cases hempty : s.buffer b = []
  · have hkeep : ∀ b', buffer { s with buffers := s.buffers.insert b (s.buffer b) } b' = s.buffer b' := fun b' => by
      rw [hbuffer]
      split
      · rw [‹b' = b›]
      · rfl
    dsimp only
    rw [if_neg (by rw [hkeep, hempty]; exact Nat.lt_irrefl 0)]
    refine ⟨rfl, rfl, rfl, fun b' => ?_, fun b' => rfl, fun b' => congrArg _ (hkeep b')⟩
    rw [hbuffer, hempty]
  · obtain ⟨hopen, hfile⟩ := h hempty
    have hself : buffer { s with buffers := s.buffers.insert b (s.buffer b) } b = s.buffer b := by
      rw [hbuffer, if_pos rfl]
    dsimp only
    rw [hself, if_pos (List.length_pos_iff.2 hempty), write]
    dsimp only
    rw [hopen]
    have hafter : ∀ b', buffer { s with
        files := s.files.insert b ((s.files.lookup b).getD [] ++ s.buffer b)
        buffers := (s.buffers.insert b (s.buffer b)).insert b [] } b' = if b' = b then [] else s.buffer b' :=
          fun b' => by
      rw [AList.insert_insert]
      exact hbuffer [] b'
    refine ⟨rfl, rfl, rfl, hafter, fun b' => ?_, fun b' => ?_⟩
    · by_cases hb : b' = b
      · rw [hb, AList.lookup_insert, hfile]
        rfl
      · rw [AList.lookup_insert_ne hb]
    · rw [content, hafter]
      by_cases hb : b' = b
      · rw [hb, if_pos rfl, AList.lookup_insert, List.append_nil]
        rfl
      · rw [if_neg hb, AList.lookup_insert_ne hb]
        rfl

namespace Inv

lemma start (CSVHeader : Bytes) : Inv CSVHeader [] [] [] { CSVHeader := CSVHeader } := by
  refine ⟨rfl, rfl, fun b => rfl, fun b => ?_, fun b => rfl, fun b h => absurd rfl h, .nil, fun b hb => (nomatch hb)⟩
  exact ⟨fun h => (nomatch h), fun h => (nomatch h)⟩

lemma congr {pruned' : List Nat} (h : Inv CSVHeader rows buckets pruned s) (hpruned : ∀ b, b ∈ pruned ↔ b ∈ pruned') :
    Inv CSVHeader rows buckets pruned' s := by
  refine ⟨h.length, h.header, fun b => ?_, h.present, h.content, fun b hb => ?_, h.opened⟩
  · exact (h.handles b).trans (if_congr (and_congr_right fun _ => not_congr (hpruned b)) rfl rfl)
  · exact (h.buffered b hb).imp_right fun hout hin => hout ((hpruned b).2 hin)

lemma open_of_buffered (h : Inv CSVHeader rows buckets pruned s) (hb : s.buffer b ≠ []) :
    s.outputHandles.lookup b = some true ∧ (s.files.lookup b).isSome = true :=
  ⟨by rw [h.handles, if_pos (h.buffered b hb)], (h.present b).2 (h.buffered b hb).1⟩

lemma flushed (h : Inv CSVHeader rows buckets pruned s) (hflush : Flushed b s s') :
    Inv CSVHeader rows buckets pruned s' := by
  refine ⟨h.length, hflush.header.trans h.header, fun b' => ?_, fun b' => ?_, fun b' => ?_, fun b' hb' => ?_, ?_⟩
  · rw [hflush.handles]
    exact h.handles b'
  · rw [hflush.present]
    exact h.present b'
  · rw [hflush.content]
    exact h.content b'
  · rw [hflush.buffer] at hb'
    refine h.buffered b' fun hempty => hb' ?_
    rw [hempty, ite_self]
  · rw [hflush.opened]
    exact h.opened

lemma flushBuffer (h : Inv CSVHeader rows buckets pruned s) (b : Nat) :
    Inv CSVHeader rows buckets pruned (s.flushBuffer b) :=
  h.flushed (flushBuffer_flushed h.open_of_buffered)

lemma prune (h : Inv CSVHeader rows buckets pruned s) (b : Nat) :
    Inv CSVHeader rows buckets (pruned ++ [b]) (s.prune b) := by
  have hflush := flushBuffer_flushed (h.open_of_buffered (b := b))
  have h' := h.flushed hflush
  have hbuffer : ∀ b', (s.prune b).buffer b' = (s.flushBuffer b).buffer b' := fun b' => by
    by_cases hb : b' = b
    · rw [hb, hflush.buffer, if_pos rfl, CSVSplit.prune, buffer, AList.lookup_erase, Option.getD_none]
    · rw [CSVSplit.prune, buffer, AList.lookup_erase_ne hb]
      rfl
  refine ⟨h'.length, h'.header, fun b' => ?_, h'.present, fun b' => ?_, fun b' hb' => ?_, h'.opened⟩
  · rw [CSVSplit.prune]
    dsimp only
    by_cases hb : b' = b
    · rw [hb, AList.lookup_erase, if_neg (fun hin => hin.2 (List.mem_append_right pruned (List.mem_singleton_self b)))]
    · rw [AList.lookup_erase_ne hb, h'.handles]
      refine if_congr (and_congr_right fun _ => not_congr ⟨List.mem_append_left _, fun hin => ?_⟩) rfl rfl
      exact (List.mem_append.1 hin).resolve_right fun heq => hb (List.mem_singleton.1 heq)
  · rw [← h'.content, CSVSplit.content, hbuffer]
    rfl
  · rw [hbuffer] at hb'
    obtain ⟨hin, hout⟩ := h'.buffered b' hb'
    refine ⟨hin, fun hmem => ?_⟩
    rcases List.mem_append.1 hmem with hmem | hmem
    · exact hout hmem
    · rw [List.mem_singleton.1 hmem, hflush.buffer, if_pos rfl] at hb'
      exact hb' rfl

lemma foldl_prune (h : Inv CSVHeader rows buckets pruned s) (bs : List Nat) :
    Inv CSVHeader rows buckets (pruned ++ bs) (bs.foldl CSVSplit.prune s) := by
  induction bs generalizing pruned s with
  | nil => rwa [List.append_nil]
  | cons b bs ih =>
    rw [List.append_cons]
    exact ih (h.prune b)

lemma openBuckets_eq (h : Inv CSVHeader rows buckets pruned s) :
    s.openBuckets = buckets.toFinset \ pruned.toFinset := by
  ext b
  rw [openBuckets, Finset.mem_filter, List.mem_toFinset, Finset.mem_sdiff, List.mem_toFinset, List.mem_toFinset,
    h.handles]
  by_cases hin : b ∈ buckets ∧ b ∉ pruned
  · rw [if_pos hin]
    refine iff_of_true ⟨?_, rfl⟩ hin
    have hsome : (s.outputHandles.lookup b).isSome = true := by
      rw [h.handles, if_pos hin]
      rfl
    exact AList.lookup_isSome.1 hsome
  · rw [if_neg hin]
    exact iff_of_false (fun hopen => by cases hopen.2) hin

/-- A file that is open for a row. -/
lemma opened_for (h : Inv CSVHeader rows buckets pruned s) (hb : b ∉ pruned)
    (hopens : b ∈ buckets ∨ disk.opens (buckets.toFinset \ pruned.toFinset) b = true) : ∃ s',
    s' = (if s.outputHandles.lookup b = none then (s.openFile disk b).write b (s.CSVHeader ++ [10]) else s) ∧
      s'.CSVHeader = CSVHeader ∧ s'.buffers = s.buffers ∧
      (∀ b', s'.outputHandles.lookup b' = if b' ∈ buckets ++ [b] ∧ b' ∉ pruned then some true else none) ∧
      (∀ b', (s'.files.lookup b').isSome = true ↔ b' ∈ buckets ++ [b]) ∧
      (∀ b', s'.content b' = if b' ∈ buckets ++ [b] then CSVHeader ++ [10] ++ linesOf
        (bucketOf buckets rows b') else []) ∧
      s'.opened.Nodup ∧ ∀ b' ∈ s'.opened, b' ∈ buckets ++ [b] := by
  refine ⟨_, rfl, ?_⟩
  by_cases hmem : b ∈ buckets
  · have hsame : ∀ b', b' ∈ buckets ++ [b] ↔ b' ∈ buckets := fun b' => by
      rw [List.mem_append, List.mem_singleton, or_iff_left_of_imp fun heq => heq ▸ hmem]
    rw [if_neg (by rw [h.handles, if_pos ⟨hmem, hb⟩]; exact Option.some_ne_none true)]
    refine ⟨h.header, rfl, fun b' => ?_, fun b' => (h.present b').trans (hsame b').symm, fun b' => ?_, h.opened.1,
      fun b' hb' => (hsame b').2 (h.opened.2 b' hb')⟩
    · exact (h.handles b').trans (if_congr (and_congr_left' (hsame b').symm) rfl rfl)
    · exact (h.content b').trans (if_congr (hsame b').symm rfl rfl)
  · have hfileOpen : s.openFile disk b = { s with
        outputHandles := s.outputHandles.insert b true
        files := s.files.insert b []
        opened := s.opened ++ [b] } := by
      rw [openFile, h.openBuckets_eq, if_pos (hopens.resolve_left hmem)]
    rw [hfileOpen]
    have hopen : (s.outputHandles.insert b true).lookup b = some true := AList.lookup_insert _
    rw [if_pos (by rw [h.handles, if_neg (fun hin => hmem hin.1)]), write, hopen]
    have hother : ∀ {b'}, b' ≠ b → (b' ∈ buckets ++ [b] ↔ b' ∈ buckets) := fun heq => by
      rw [List.mem_append, List.mem_singleton, or_iff_left heq]
    have hfile : ∀ {b'}, b' ≠ b → (s.files.insert b []).lookup b' = s.files.lookup b' := fun heq =>
      AList.lookup_insert_ne heq
    have hnone : s.buffer b = [] := not_not.1 fun hne => hmem (h.buffered b hne).1
    refine ⟨h.header, rfl, fun b' => ?_, fun b' => ?_, fun b' => ?_, ?_, fun b' hb' => ?_⟩
    · by_cases heq : b' = b
      · rw [heq, hopen, if_pos ⟨List.mem_append_right buckets (List.mem_singleton_self b), hb⟩]
      · exact (AList.lookup_insert_ne heq).trans
          ((h.handles b').trans (if_congr (and_congr_left' (hother heq).symm) rfl rfl))
    · by_cases heq : b' = b
      · rw [heq, AList.lookup_insert]
        exact iff_of_true rfl (List.mem_append_right buckets (List.mem_singleton_self b))
      · rw [AList.lookup_insert_ne heq, hfile heq]
        exact (h.present b').trans (hother heq).symm
    · by_cases heq : b' = b
      · have hblank : (s.files.insert b []).lookup b = some [] := AList.lookup_insert _
        rw [heq, if_pos (List.mem_append_right buckets (List.mem_singleton_self b)), bucketOf_eq_nil hmem,
          CSVSplit.content,
          AList.lookup_insert, hblank, h.header]
        exact congrArg _ hnone
      · rw [CSVSplit.content, AList.lookup_insert_ne heq, hfile heq]
        exact (h.content b').trans (if_congr (hother heq).symm rfl rfl)
    · exact h.opened.1.append (List.nodup_singleton b) fun b' hb' hin =>
        hmem (List.mem_singleton.1 hin ▸ h.opened.2 b' hb')
    · exact (List.mem_append.1 hb').elim (fun hin => List.mem_append_left _ (h.opened.2 b' hin))
        (List.mem_append_right _)

lemma linesOf_append (rows rows' : List CSVRecord) : linesOf (rows ++ rows') = linesOf rows ++ linesOf rows' :=
    List.flatMap_append

lemma addRow (h : Inv CSVHeader rows buckets pruned s) (hb : b ∉ pruned)
    (hopens : b ∈ buckets ∨ disk.opens (buckets.toFinset \ pruned.toFinset) b = true) (row : CSVRecord) :
    Inv CSVHeader (rows ++ [row]) (buckets ++ [b]) pruned (s.addRow disk row b) := by
  obtain ⟨s₁, hs₁, hheader, hbuffers, hhandles, hpresent, hcontent, hopened⟩ := h.opened_for hb hopens
  have hmem : b ∈ buckets ++ [b] := List.mem_append_right buckets (List.mem_singleton_self b)
  have hbuffer : ∀ b', s₁.buffer b' = s.buffer b' := fun b' => by rw [buffer, hbuffers, buffer]
  have hafter := fun b' => buffer_insert s₁ b (s₁.buffer b ++ row.serialized ++ [10]) b'
  have hrow : Inv CSVHeader (rows ++ [row]) (buckets ++ [b]) pruned
      { s₁ with buffers := s₁.buffers.insert b (s₁.buffer b ++ row.serialized ++ [10]) } := by
    refine ⟨?_, hheader, hhandles, hpresent, fun b' => ?_, fun b' hb' => ?_, hopened⟩
    · rw [List.length_append, List.length_append, h.length]
      rfl
    · have hold := hcontent b'
      rw [CSVSplit.content] at hold ⊢
      rw [hafter, bucketOf_concat h.length]
      by_cases heq : b' = b
      · subst heq
        rw [if_pos hmem] at hold
        rw [if_pos rfl, if_pos hmem, if_pos rfl, linesOf_append, ← List.append_assoc (CSVHeader ++ [10]), ← hold]
        simp only [linesOf, List.flatMap_singleton, List.append_assoc]
      · rw [if_neg heq, if_neg (Ne.symm heq), List.append_nil]
        exact hold
    · rw [hafter] at hb'
      by_cases heq : b' = b
      · exact ⟨heq ▸ hmem, heq ▸ hb⟩
      · rw [if_neg heq, hbuffer] at hb'
        exact (h.buffered b' hb').imp_left (List.mem_append_left [b])
  rw [CSVSplit.addRow, ← hs₁]
  split
  · exact hrow.flushBuffer b
  · exact hrow

lemma splitRow (h : Inv CSVHeader rows buckets pruned s) (hb : b ∉ pruned)
    (hopens : b ∈ buckets ∨ disk.opens (buckets.toFinset \ pruned.toFinset) b = true) (row : CSVRecord)
    (pruneBuckets : List Nat) :
    Inv CSVHeader (rows ++ [row]) (buckets ++ [b]) (pruned ++ pruneBuckets) (s.splitRow disk row b pruneBuckets) :=
  ((h.addRow hb hopens row).foldl_prune pruneBuckets.reverse).congr fun b' => by
    rw [List.mem_append, List.mem_append, List.mem_reverse]

/-- All the rows, if every file opens. -/
lemma splitRows (h : Inv CSVHeader rows buckets pruned s) {rows' : List CSVRecord}
    (hinput : ∀ b rows, disk.left b rows = rows) (hrun : strategy.run state rows' = some (choices, state'))
    (hreturn : NoReturn pruned choices) (hopens : AllOpen disk buckets pruned choices) :
    ∃ s' pruned', (∀ n ≥ rows'.length, CSVSplit.splitRows disk strategy n s state rows' = some s') ∧
      Inv CSVHeader (rows ++ rows') (buckets ++ choices.map Prod.fst) pruned' s' := by
  induction rows' generalizing rows buckets pruned s state choices with
  | nil =>
    obtain ⟨rfl, rfl⟩ := Prod.mk.inj (Option.some.inj hrun)
    rw [List.append_nil, List.map_nil, List.append_nil]
    exact ⟨s, pruned, fun n _ => by rw [CSVSplit.splitRows], h⟩
  | cons row rows' ih =>
    obtain ⟨⟨state₁, b, pruneBuckets⟩, hget, hrest⟩ := Option.bind_eq_some_iff.1 hrun
    obtain ⟨⟨choices', state₂⟩, hrun', heq⟩ := Option.bind_eq_some_iff.1 hrest
    obtain ⟨rfl, rfl⟩ := Prod.mk.inj (Option.some.inj heq)
    obtain ⟨s', pruned', hsplit, hinv⟩ :=
      ih (h.splitRow hreturn.1 hopens.1 row pruneBuckets) hrun' hreturn.2.2 hopens.2
    refine ⟨s', pruned', fun n hn => ?_, ?_⟩
    · obtain ⟨n, rfl⟩ := Nat.exists_eq_add_of_le' (Nat.one_le_of_lt hn)
      rw [CSVSplit.splitRows, hget, Option.bind_eq_bind, Option.bind_some]
      dsimp only
      rw [hinput, ite_self]
      exact hsplit n (Nat.le_of_succ_le_succ hn)
    · rwa [List.append_cons, List.map_cons, List.append_cons buckets]

/-- The flush at the end leaves nothing in the buffers of the list. -/
lemma foldl_flushBuffer (h : Inv CSVHeader rows buckets pruned s) (bs : List Nat) :
    Inv CSVHeader rows buckets pruned (bs.foldl CSVSplit.flushBuffer s) ∧
      ∀ b, b ∈ bs ∨ s.buffer b = [] → (bs.foldl CSVSplit.flushBuffer s).buffer b = [] := by
  induction bs generalizing s with
  | nil => exact ⟨h, fun b hb => hb.resolve_left List.not_mem_nil⟩
  | cons b' bs ih =>
    have hflush := flushBuffer_flushed (h.open_of_buffered (b := b'))
    obtain ⟨hinv, hempty⟩ := ih (h.flushed hflush)
    refine ⟨hinv, fun b hb => hempty b ?_⟩
    rw [hflush.buffer]
    rcases hb with hb | hb
    · rcases List.mem_cons.1 hb with heq | hb
      · exact .inr (if_pos heq)
      · exact .inl hb
    · exact .inr (by rw [hb, ite_self])

lemma splitInto (h : Inv CSVHeader rows buckets pruned s) (hempty : ∀ b, s.buffer b = []) :
    SplitInto CSVHeader rows buckets s := by
  refine ⟨h.length, fun b => ?_, h.opened.1⟩
  have hcontent := h.content b
  rw [CSVSplit.content, hempty, List.append_nil] at hcontent
  cases hfile : s.files.lookup b with
  | none =>
    have hmem : b ∉ buckets := fun hin => by
      have hsome := (h.present b).2 hin
      rw [hfile] at hsome
      cases hsome
    rw [if_neg hmem]
  | some text =>
    have hmem : b ∈ buckets := (h.present b).1 (by rw [hfile]; rfl)
    rw [hfile, Option.getD_some, if_pos hmem] at hcontent
    rw [if_pos hmem, hcontent]

end Inv

/-! ## A file that does not open -/

/-- The bucket has no file, and none will be opened for it: its handle stays until it is pruned. -/
structure Gone (b : Nat) (pruned : List Nat) (s : CSVSplit) : Prop where
  file : s.files.lookup b = none
  closed : s.outputHandles.lookup b ≠ some true
  pruned : s.outputHandles.lookup b = none → b ∈ pruned

namespace Gone

lemma write (h : Gone b pruned s) (b' : Nat) (text : Bytes) : Gone b pruned (s.write b' text) := by
  rw [CSVSplit.write]
  by_cases hb : b = b'
  · subst hb
    cases hhandle : s.outputHandles.lookup b with
    | none =>
      refine ⟨h.file, ?_, fun hnone => ?_⟩
      · dsimp only
        rw [AList.lookup_insert]
        exact fun heq => by cases heq
      · dsimp only at hnone
        rw [AList.lookup_insert] at hnone
        cases hnone
    | some isOpen =>
      cases isOpen with
      | false => exact h
      | true => exact absurd hhandle h.closed
  · cases s.outputHandles.lookup b' with
    | none =>
      have hsame : (s.outputHandles.insert b' false).lookup b = s.outputHandles.lookup b := AList.lookup_insert_ne hb
      exact ⟨h.file, by rw [hsame]; exact h.closed, by rw [hsame]; exact h.pruned⟩
    | some isOpen =>
      cases isOpen with
      | false => exact h
      | true => exact ⟨(AList.lookup_insert_ne hb).trans h.file, h.closed, h.pruned⟩

lemma with_buffers (h : Gone b pruned s) (buffers : AList fun _ : Nat => Bytes) :
    Gone b pruned { s with buffers := buffers } :=
  ⟨h.file, h.closed, h.pruned⟩

lemma flushBuffer (h : Gone b pruned s) (b' : Nat) : Gone b pruned (s.flushBuffer b') := by
  rw [CSVSplit.flushBuffer]
  dsimp only
  split
  · exact ((h.with_buffers _).write b' _).with_buffers _
  · exact h.with_buffers _

lemma foldl_flushBuffer (h : Gone b pruned s) (bs : List Nat) :
    Gone b pruned (bs.foldl CSVSplit.flushBuffer s) := by
  induction bs generalizing s with
  | nil => exact h
  | cons b' bs ih => exact ih (h.flushBuffer b')

lemma prune (h : Gone b pruned s) (b' : Nat) : Gone b (b' :: pruned) (s.prune b') := by
  have hflush := h.flushBuffer b'
  rw [CSVSplit.prune]
  by_cases hb : b = b'
  · subst hb
    have hnone : ((s.flushBuffer b).outputHandles.erase b).lookup b = none := AList.lookup_erase _ _
    exact ⟨hflush.file, by dsimp only; rw [hnone]; exact (fun heq => by cases heq), fun _ => List.mem_cons_self⟩
  · have hsame : ((s.flushBuffer b').outputHandles.erase b').lookup b = (s.flushBuffer b').outputHandles.lookup b :=
      AList.lookup_erase_ne hb
    refine ⟨hflush.file, by dsimp only; rw [hsame]; exact hflush.closed, fun hnone => ?_⟩
    dsimp only at hnone
    rw [hsame] at hnone
    exact List.mem_cons_of_mem _ (hflush.pruned hnone)

lemma mono {pruned' : List Nat} (h : Gone b pruned s) (hsub : pruned ⊆ pruned') : Gone b pruned' s :=
  ⟨h.file, h.closed, fun hnone => hsub (h.pruned hnone)⟩

lemma foldl_prune (h : Gone b pruned s) (bs : List Nat) : Gone b (pruned ++ bs) (bs.foldl CSVSplit.prune s) := by
  induction bs generalizing pruned s with
  | nil => rwa [List.append_nil]
  | cons b' bs ih =>
    refine (ih (h.prune b')).mono fun c hc => ?_
    rcases List.mem_append.1 hc with hc | hc
    · rcases List.mem_cons.1 hc with rfl | hc
      · exact List.mem_append_right _ List.mem_cons_self
      · exact List.mem_append_left _ hc
    · exact List.mem_append_right _ (List.mem_cons_of_mem _ hc)

lemma addRow (h : Gone b pruned s) (hb : b' ∉ pruned) (row : CSVRecord) : Gone b pruned (s.addRow disk row b') := by
  have hopened : Gone b pruned (if s.outputHandles.lookup b' = none then
      (s.openFile disk b').write b' (s.CSVHeader ++ [10]) else s) := by
    by_cases hnone : s.outputHandles.lookup b' = none
    · have hne : b ≠ b' := fun heq => hb (heq ▸ h.pruned (heq ▸ hnone))
      rw [if_pos hnone]
      refine Gone.write ?_ b' _
      rw [openFile]
      split
      · have hsame : (s.outputHandles.insert b' true).lookup b = s.outputHandles.lookup b := AList.lookup_insert_ne hne
        exact ⟨(AList.lookup_insert_ne hne).trans h.file, by rw [hsame]; exact h.closed, by rw [hsame]; exact h.pruned⟩
      · have hsame : (s.outputHandles.insert b' false).lookup b = s.outputHandles.lookup b := AList.lookup_insert_ne hne
        exact ⟨h.file, by rw [hsame]; exact h.closed, by rw [hsame]; exact h.pruned⟩
    · rwa [if_neg hnone]
  rw [CSVSplit.addRow]
  generalize (if s.outputHandles.lookup b' = none then (s.openFile disk b').write b' (s.CSVHeader ++ [10]) else s) = s₁
    at hopened
  split
  · exact (hopened.with_buffers _).flushBuffer b'
  · exact hopened.with_buffers _

lemma splitRow (h : Gone b pruned s) (hb : b' ∉ pruned) (row : CSVRecord) (pruneBuckets : List Nat) :
    Gone b (pruned ++ pruneBuckets) (s.splitRow disk row b' pruneBuckets) :=
  ((h.addRow hb row).foldl_prune pruneBuckets.reverse).mono fun c hc => by
    rwa [List.mem_append, List.mem_reverse, ← List.mem_append] at hc

lemma splitRows (h : Gone b pruned s) {rows' : List CSVRecord} (hinput : ∀ b rows, disk.left b rows = rows)
    (hrun : strategy.run state rows' = some (choices, state')) (hreturn : NoReturn pruned choices)
    (hsplit : CSVSplit.splitRows disk strategy n s state rows' = some s') : ∃ pruned', Gone b pruned' s' := by
  induction rows' generalizing pruned s state choices n with
  | nil =>
    rw [CSVSplit.splitRows] at hsplit
    exact ⟨pruned, Option.some.inj hsplit ▸ h⟩
  | cons row rows' ih =>
    obtain ⟨⟨state₁, b', pruneBuckets⟩, hget, hrest⟩ := Option.bind_eq_some_iff.1 hrun
    obtain ⟨⟨choices', state₂⟩, hrun', heq⟩ := Option.bind_eq_some_iff.1 hrest
    obtain ⟨rfl, rfl⟩ := Prod.mk.inj (Option.some.inj heq)
    cases n with
    | zero => cases hsplit
    | succ n =>
      rw [CSVSplit.splitRows, hget, Option.bind_eq_bind, Option.bind_some] at hsplit
      dsimp only at hsplit
      rw [hinput, ite_self] at hsplit
      exact ih (h.splitRow hreturn.1 row pruneBuckets) hrun' hreturn.2.2 hsplit

end Gone

/-- A row whose file does not open. -/
lemma Inv.gone (h : Inv CSVHeader rows buckets pruned s) (hnew : b ∉ buckets)
    (hcloses : ¬ disk.opens (buckets.toFinset \ pruned.toFinset) b = true) (row : CSVRecord) :
    Gone b pruned (s.addRow disk row b) := by
  have hfile : s.files.lookup b = none := by
    rw [← Option.not_isSome_iff_eq_none, h.present]
    exact hnew
  have hhandle : (s.outputHandles.insert b false).lookup b = some false := AList.lookup_insert _
  have hgone : Gone b pruned { s with outputHandles := s.outputHandles.insert b false } := by
    refine ⟨hfile, ?_, fun hnone => ?_⟩
    · rw [hhandle]
      exact fun heq => by cases heq
    · rw [hhandle] at hnone
      cases hnone
  have hopened : (if s.outputHandles.lookup b = none then (s.openFile disk b).write b (s.CSVHeader ++ [10]) else s) =
      { s with outputHandles := s.outputHandles.insert b false } := by
    rw [if_pos (by rw [h.handles, if_neg fun hin => hnew hin.1]), openFile, h.openBuckets_eq, if_neg hcloses,
      CSVSplit.write, hhandle]
  rw [CSVSplit.addRow, hopened]
  dsimp only
  split
  · exact (hgone.with_buffers _).flushBuffer b
  · exact hgone.with_buffers _

/-- If not every file opens there is a bucket of a row without a file. -/
lemma Inv.exists_gone (h : Inv CSVHeader rows buckets pruned s) {rows' : List CSVRecord}
    (hinput : ∀ b rows, disk.left b rows = rows) (hrun : strategy.run state rows' = some (choices, state'))
    (hreturn : NoReturn pruned choices) (hopens : ¬ AllOpen disk buckets pruned choices)
    (hsplit : CSVSplit.splitRows disk strategy n s state rows' = some s') :
    ∃ b ∈ choices.map Prod.fst, ∃ pruned', Gone b pruned' s' := by
  induction rows' generalizing rows buckets pruned s state choices n with
  | nil =>
    obtain ⟨rfl, rfl⟩ := Prod.mk.inj (Option.some.inj hrun)
    exact absurd trivial hopens
  | cons row rows' ih =>
    obtain ⟨⟨state₁, b, pruneBuckets⟩, hget, hrest⟩ := Option.bind_eq_some_iff.1 hrun
    obtain ⟨⟨choices', state₂⟩, hrun', heq⟩ := Option.bind_eq_some_iff.1 hrest
    obtain ⟨rfl, rfl⟩ := Prod.mk.inj (Option.some.inj heq)
    cases n with
    | zero => cases hsplit
    | succ n =>
      rw [CSVSplit.splitRows, hget, Option.bind_eq_bind, Option.bind_some] at hsplit
      dsimp only at hsplit
      rw [hinput, ite_self] at hsplit
      rw [List.map_cons]
      by_cases hopen : b ∈ buckets ∨ disk.opens (buckets.toFinset \ pruned.toFinset) b = true
      · have hrest' : ¬ AllOpen disk (buckets ++ [b]) (pruned ++ pruneBuckets) choices' := fun hall =>
          hopens ⟨hopen, hall⟩
        obtain ⟨b', hb', hgone⟩ := ih (h.splitRow hreturn.1 hopen row pruneBuckets) hrun' hreturn.2.2 hrest' hsplit
        exact ⟨b', List.mem_cons_of_mem _ hb', hgone⟩
      · rw [not_or] at hopen
        have hgone : Gone b (pruned ++ pruneBuckets) (s.splitRow disk row b pruneBuckets) :=
          ((h.gone hopen.1 hopen.2 row).foldl_prune pruneBuckets.reverse).mono fun c hc => by
            rwa [List.mem_append, List.mem_reverse, ← List.mem_append] at hc
        exact ⟨b, List.mem_cons_self, hgone.splitRows hinput hrun' hreturn.2.2 hsplit⟩

/-- A split by a strategy that does not return to what it has pruned: the rows are in the files of their buckets if and
only if every file opens. -/
theorem splitFile_splitInto {order : List Nat → List Nat} (horder : ∀ bs, (order bs).Perm bs)
    (hinput : ∀ b rows, disk.left b rows = rows) (CSVHeader : Bytes) (header : CSVRecord)
    (hrun : strategy.run state rows = some (choices, state')) (hreturn : NoReturn [] choices) :
    (∃ s, (∀ n ≥ rows.length, splitFile disk order strategy n state CSVHeader (header :: rows) = some s) ∧
      SplitInto CSVHeader rows (choices.map Prod.fst) s) ↔ AllOpen disk [] [] choices := by
  constructor
  · rintro ⟨s, hsplit, hinto⟩
    by_contra hopens
    obtain ⟨s', hsplit', rfl⟩ := Option.map_eq_some_iff.1 (hsplit rows.length (Nat.le_refl _))
    obtain ⟨b, hb, pruned, hgone⟩ := (Inv.start CSVHeader).exists_gone hinput hrun hreturn hopens hsplit'
    have hfile := hinto.files b
    rw [(hgone.foldl_flushBuffer _).file, if_pos hb] at hfile
    cases hfile
  · intro hopens
    obtain ⟨s, pruned, hsplit, hinv⟩ := (Inv.start CSVHeader).splitRows hinput hrun hreturn hopens
    obtain ⟨hinv, hempty⟩ := hinv.foldl_flushBuffer (order s.buffers.keys)
    refine ⟨_, fun n hn => ?_, hinv.splitInto fun b => hempty b ?_⟩
    · rw [splitFile, List.tail_cons, hsplit n hn]
      rfl
    · rw [(horder s.buffers.keys).mem_iff, ← AList.mem_keys]
      cases hlookup : s.buffers.lookup b with
      | none => exact .inr (by rw [buffer, hlookup, Option.getD_none])
      | some text => exact .inl (AList.lookup_isSome.1 (by rw [hlookup]; rfl))

end CSVSplit

end CppExperiments.Csv

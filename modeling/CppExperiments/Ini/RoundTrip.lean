import CppExperiments.Ini.Parser

/-!
# Reading back what was written

What is written of a parser is read line by line: a section's name, the first line of each value, and the lines behind
it.
-/

namespace CppExperiments.Ini

open InsertionOrder

/-- Between two lines, none of which is indented besides those of a value. -/
def standing (data : Parser) (currSectionName prevKey : Bytes) (emptyLines lineNo : Nat) : Reading where
  data := data
  currSectionName := currSectionName
  prevKey := prevKey
  line := []
  prevFirstNonSpace := 0
  emptyLines := emptyLines
  lineNo := lineNo

/-- The characters are read without an error. -/
def Runs (ignoreDuplicates : Bool) (raw : Bytes) (s s' : Reading) :
    Prop := raw.foldlM (Reading.readChar ignoreDuplicates) s = .ok s'

variable {p done : Parser} {s s' s'' : Reading} {o : Bytes × Bytes}
  {key line name raw raw' rest first value prevKey currSectionName : Bytes}
  {sec options : Section} {ignoreDuplicates : Bool} {emptyLines lineNo n : Nat}

lemma Runs.nil (s : Reading) : Runs ignoreDuplicates [] s s := rfl

lemma Runs.append (h : Runs ignoreDuplicates raw s s') (h' : Runs ignoreDuplicates raw' s' s'') :
    Runs ignoreDuplicates (raw ++ raw') s s'' := by
  rw [Runs, List.foldlM_append, h]
  exact h'

/-! ## Lines -/

lemma foldlM_text (hline : 10 ∉ line) (s : Reading) :
    line.foldlM (Reading.readChar ignoreDuplicates) s = .ok { s with line := s.line ++ line } := by
  induction line generalizing s with
  | nil =>
    rw [List.append_nil]
    rfl
  | cons ch line ih =>
    rw [List.mem_cons, not_or] at hline
    obtain ⟨hch, hline⟩ := hline
    rw [List.foldlM_cons, Reading.readChar, if_neg (Ne.symm hch)]
    refine (ih hline _).trans ?_
    rw [List.append_assoc]
    rfl

lemma bind_ok {ε α β : Type} (x : Except ε α) (f : α → β) : (x >>= fun a => .ok (f a)) = x.map f := by
  cases x <;> rfl

lemma foldlM_line (hline : 10 ∉ line) (data : Parser) (currSectionName prevKey : Bytes) (emptyLines lineNo : Nat) :
    (line ++ [10]).foldlM (Reading.readChar ignoreDuplicates)
      (standing data currSectionName prevKey emptyLines lineNo) =
      (Reading.readLine ignoreDuplicates
        { standing data currSectionName prevKey emptyLines lineNo with line := line }).map
        fun s => { s with line := [], lineNo := s.lineNo + 1 } := by
  rw [List.foldlM_append, foldlM_text hline]
  change (Reading.readChar ignoreDuplicates _ 10 >>= pure) = _
  rw [bind_pure, Reading.readChar, if_pos rfl]
  exact bind_ok _ _

lemma findFirstMatch_eq_none (h : ∀ ch ∈ line, isSpace ch = true) :
    (findFirstMatch line fun ch => !isSpace ch) = none :=
  List.findIdx?_eq_none_iff.2 fun ch hch => by rw [h ch hch]; rfl

lemma runs_blank (line : Bytes) (hline : 10 ∉ line) (hblank : ∀ ch ∈ line, isSpace ch = true) (data : Parser)
    (currSectionName prevKey : Bytes)
    (emptyLines lineNo : Nat) :
    Runs ignoreDuplicates (line ++ [10]) (standing data currSectionName prevKey emptyLines lineNo)
      (standing data currSectionName prevKey (emptyLines + 1) (lineNo + 1)) := by
  rw [Runs, foldlM_line hline, Reading.readLine]
  dsimp only
  rw [findFirstMatch_eq_none hblank]
  rfl

/-- Behind white space there is a character that starts no comment. -/
lemma readLine_content (ws : Bytes) {ch : UInt8} (hws : ∀ b ∈ ws, isSpace b = true) (hch : isSpace ch = false)
    (huncommented : ch ≠ 59 ∧ ch ≠ 35) (heq : s.line = ws ++ ch :: rest) :
    s.readLine ignoreDuplicates =
      (s.readContent ignoreDuplicates ws.length).map fun s => { s with emptyLines := 0 } := by
  have hfind : (findFirstMatch s.line fun ch => !isSpace ch) = some ws.length := by
    rw [heq]
    exact findIdx?_append_cons (fun b hb => by rw [hws b hb]; rfl) (by rw [hch]; rfl)
  have hcomment : ¬ Reading.isComment s.line ws.length = true := by
    rw [Reading.isComment, heq, List.drop_left, List.head?_cons, Bool.or_eq_true, beq_iff_eq,
      beq_iff_eq]
    exact not_or.2 ⟨fun h => huncommented.1 (Option.some.inj h), fun h => huncommented.2 (Option.some.inj h)⟩
  rw [Reading.readLine, hfind]
  dsimp only
  rw [if_neg hcomment]
  exact bind_ok _ _

lemma notMem_of_validateKey (h : validateKey key = true) : 10 ∉ key := fun hmem =>
  absurd (List.all_eq_true.1 h 10 hmem) (by decide)

/-! ## Sections -/

/-- A line with a section's name, which may be empty. -/
lemma readContent_bracketed (done : Parser) (currSectionName prevKey name : Bytes) (emptyLines lineNo : Nat) :
    Reading.readContent ignoreDuplicates
      { standing done currSectionName prevKey emptyLines lineNo with line := 91 :: (name ++ [93]) } 0 =
      if name = [] then .error (ascii "Line #: " ++ decimal lineNo ++ ascii " Error parsing line: " ++ ascii "[]")
      else Reading.startSection ignoreDuplicates
        { standing done currSectionName prevKey emptyLines lineNo with line := 91 :: (name ++ [93]) }
          (91 :: (name ++ [93])) := by
  have htrim : trim (91 :: (name ++ [93])) = 91 :: (name ++ [93]) := by
    rw [trim_eq]
    refine Trimmed.trimBy ⟨fun b hb => ?_, fun b hb => ?_⟩
    · obtain rfl := Option.some.inj hb
      rfl
    · rw [← List.cons_append, List.getLast?_concat] at hb
      obtain rfl := Option.some.inj hb
      rfl
  rw [Reading.readContent, if_neg (fun h => absurd h.1 (Nat.lt_irrefl 0))]
  dsimp only
  rw [htrim]
  by_cases hname : name = []
  · rw [if_pos hname, hname]
    rfl
  · have hlong : 3 ≤ (91 :: (name ++ [93])).length := by
      have hpos := List.length_pos_of_ne_nil hname
      rw [List.length_cons, List.length_append, List.length_singleton]
      omega
    have hlast : (91 :: (name ++ [93])).getLast? = some 93 := by rw [← List.cons_append, List.getLast?_concat]
    rw [if_neg hname, if_pos ⟨hlong, rfl, hlast⟩]

lemma runs_section (hname : name ≠ []) (hvalid : validateKey name = true) (hnew : name ∉ done.map Prod.fst)
    (currSectionName prevKey : Bytes) (emptyLines lineNo : Nat) :
    Runs ignoreDuplicates (91 :: (name ++ [93]) ++ [10]) (standing done currSectionName prevKey emptyLines lineNo)
      (standing (done ++ [(name, [])]) name [] 0 (lineNo + 1)) := by
  have hline : 10 ∉ 91 :: (name ++ [93]) := fun hmem => by
    rcases List.mem_cons.1 hmem with heq | hmem
    · exact absurd heq (by decide)
    · exact (List.mem_append.1 hmem).elim (notMem_of_validateKey hvalid) (by decide)
  have hsub : ((91 :: (name ++ [93])).drop 1).take ((91 :: (name ++ [93])).length - 2) = name := by
    rw [List.drop_succ_cons, List.drop_zero, List.length_cons, List.length_append, List.length_singleton]
    exact List.take_left
  have hfresh : Parser.hasSection done name = false := Bool.eq_false_iff.2 fun h => hnew (isSome_find_iff.1 h)
  have hstart : Reading.startSection ignoreDuplicates { standing done currSectionName prevKey emptyLines lineNo with
      line := 91 :: (name ++ [93]) } (91 :: (name ++ [93])) =
        .ok { standing (done ++ [(name, [])]) name [] emptyLines lineNo with
        line := 91 :: (name ++ [93]) } := by
    rw [Reading.startSection, hsub]
    dsimp only
    rw [if_neg (fun h => absurd (hfresh.symm.trans h.1) (by decide))]
    change (change done name _ >>= _) = _
    rw [change_of_valid _ _ hvalid, set_of_notMem hnew]
    rfl
  rw [Runs, foldlM_line hline, readLine_content [] (List.forall_mem_nil _) (by decide) (by decide) rfl, List.length_nil,
    readContent_bracketed, if_neg hname, hstart]
  rfl

/-- The section with an empty name is not read. -/
lemma not_runs_unnamed (done : Parser) (currSectionName prevKey : Bytes) (emptyLines lineNo : Nat) (rest : Bytes) :
    ¬ ∃ s, Runs ignoreDuplicates (91 :: ([] ++ [93]) ++ [10] ++ rest)
      (standing done currSectionName prevKey emptyLines lineNo) s := by
  rintro ⟨s, h⟩
  rw [Runs, List.foldlM_append, foldlM_line (by decide), readLine_content [] (List.forall_mem_nil _) (by decide)
    (by decide) rfl,
    List.length_nil, readContent_bracketed, if_pos rfl] at h
  exact absurd h nofun

/-! ## Options -/

/-- What is left of a line of a key and a value, and its parts. -/
lemma trim_option (hkey : Key key) (hfirst : FirstLine key first) : ∃ tail,
    trim (key ++ ascii " = " ++ first) = key ++ [32] ++ 61 :: tail ∧ trim tail = first ∧
      ¬ ((key ++ [32] ++ 61 :: tail).head? = some 91 ∧ (key ++ [32] ++ 61 :: tail).getLast? = some 93) := by
  obtain ⟨a, l, rfl⟩ := List.exists_cons_of_ne_nil hkey.ne_nil
  have ha : isSpace a = false := hkey.trimmed.head a rfl
  have hself : (l ++ [32, 61]).rdropWhile isSpace = l ++ [32, 61] := by
    rw [rdropWhile_eq_self_iff_last]
    intro b hb
    rw [List.getLast?_append_of_ne_nil _ (by decide)] at hb
    obtain rfl := Option.some.inj hb
    rfl
  have htrim : trim (a :: l ++ ascii " = " ++ first) = a :: l ++ [32] ++ 61 :: (32 :: first).rdropWhile isSpace := by
    have h := trimBy_append_cons (l := l ++ [32, 61] ++ 32 :: first) (List.forall_mem_nil _) ha
    rw [rdropWhile_append_of_self hself] at h
    rw [trim_eq, List.append_assoc, List.append_assoc]
    rw [List.append_assoc, List.append_assoc] at h
    exact h
  refine ⟨_, htrim, ?_, ?_⟩
  · have hspace : ∀ b ∈ ([32] : Bytes), isSpace b = true := forall_mem_of_all rfl
    have h := hfirst.trimmed.trimBy_append hspace (List.forall_mem_nil _)
    rw [List.append_nil, trimBy, List.singleton_append] at h
    rw [trim_eq, trimBy, List.rdropWhile_idempotent, h]
  · rintro ⟨hhead, hlast⟩
    refine hfirst.bracket ⟨hhead, ?_⟩
    cases first using List.reverseRecOn with
    | nil =>
      rw [List.getLast?_append_of_ne_nil _ (List.cons_ne_nil _ _)] at hlast
      exact absurd hlast (by decide)
    | append_singleton first e =>
      have he : isSpace e = false := hfirst.trimmed.last e List.getLast?_concat
      rw [← List.cons_append, List.rdropWhile_concat_neg _ _ _ (by rw [he]; decide), ← List.cons_append,
        ← List.append_assoc,
        List.getLast?_concat] at hlast
      rw [List.getLast?_concat, hlast]

/-- The line of a key that is new in the last section. -/
lemma runs_option (hkey : Key key) (hfirst : FirstLine key first) (hname : name ∉ done.map Prod.fst)
    (hvalid : validateKey name = true)
    (hnew : key ∉ sec.map Prod.fst) (prevKey : Bytes) (emptyLines lineNo : Nat) :
    Runs ignoreDuplicates (key ++ ascii " = " ++ first ++ [10]) (standing (done ++ [(name, sec)]) name prevKey emptyLines lineNo)
      (standing (done ++ [(name, sec ++ [(key, first)])]) name key 0 (lineNo + 1)) := by
  obtain ⟨tail, htrim, htail, hbracket⟩ := trim_option hkey hfirst
  obtain ⟨a, l, hcons⟩ := List.exists_cons_of_ne_nil hkey.ne_nil
  have htext : 10 ∉ key ++ ascii " = " ++ first := fun hmem => by
    rcases List.mem_append.1 hmem with hmem | hmem
    · exact (List.mem_append.1 hmem).elim (notMem_of_validateKey hkey.valid) (by decide)
    · exact hfirst.text hmem
  have ha : isSpace a = false := hkey.trimmed.head a (by rw [hcons]; rfl)
  have huncommented : a ≠ 59 ∧ a ≠ 35 := by
    have h := hkey.uncommented
    rw [Uncommented, hcons] at h
    exact ⟨fun heq => h.1 (congrArg some heq), fun heq => h.2 (congrArg some heq)⟩
  have hseperator : (findFirstMatch (key ++ [32] ++ 61 :: tail) fun ch => ch == 58 || ch == 61) =
    some (key ++ [32]).length := by
    refine findIdx?_append_cons (fun b hb => ?_) rfl
    rcases List.mem_append.1 hb with hb | hb
    · obtain ⟨hcolon, hequals⟩ := hkey.seperators b hb
      rw [beq_eq_false_iff_ne.2 hcolon, beq_eq_false_iff_ne.2 hequals]
      rfl
    · obtain rfl := List.mem_singleton.1 hb
      rfl
  have hkv : extractKV (key ++ [32] ++ 61 :: tail) (key ++ [32]).length = (key, first) := by
    have hspace : ∀ b ∈ ([32] : Bytes), isSpace b = true := forall_mem_of_all rfl
    have h := hkey.trimmed.trimBy_append (List.forall_mem_nil _) hspace
    rw [List.nil_append, ← trim_eq] at h
    rw [extractKV, List.take_left, h, List.append_cons _ 61 tail,
      List.drop_left' (by rw [List.length_append, List.length_singleton]), htail]
  have hsection := find_append_new hname sec
  have hhas : Parser.hasKey (done ++ [(name, sec)]) name key = false := by
    rw [Parser.hasKey, hsection, Option.map_some, Option.getD_some, Section.hasKey, hkey.lower, find_eq_none_iff.2 hnew]
    rfl
  have hcontent : ∀ s : Reading, s.line = key ++ ascii " = " ++ first → s.data = done ++ [(name, sec)] → s.currSectionName = name →
      s.prevFirstNonSpace = 0 → s.readContent ignoreDuplicates 0 =
        .ok { s with data := done ++ [(name, sec ++ [(key, first)])], prevKey := key, prevFirstNonSpace := 0 } := by
    intro s hline hdata hcurrent hindent
    obtain ⟨data, currSectionName, prevKey, line, prevFirstNonSpace, emptyLines, lineNo⟩ := s
    dsimp only at hline hdata hcurrent hindent
    subst hline hdata hcurrent hindent
    rw [Reading.readContent, if_neg (fun h => absurd h.1 (Nat.lt_irrefl 0))]
    dsimp only
    rw [htrim, if_neg (fun h => hbracket h.2), hseperator]
    dsimp only
    rw [if_pos (by rw [List.length_append, List.length_singleton]; exact Nat.succ_pos _), Reading.readOption, hkv]
    dsimp only
    rw [if_neg (fun h => absurd (hhas.symm.trans h.1) (by decide)), hsection, Option.getD_some, Section.change,
      hkey.lower,
      change_of_valid _ _ hkey.valid, set_of_notMem hnew]
    change (change (done ++ [(currSectionName, sec)]) currSectionName _ >>= _) = _
    rw [change_of_valid _ _ hvalid, set_append_new hname]
    rfl
  have hshape : key ++ ascii " = " ++ first = [] ++ a :: (l ++ ascii " = " ++ first) := by rw [hcons]; rfl
  rw [Runs, foldlM_line htext, readLine_content [] (List.forall_mem_nil _) ha huncommented hshape, List.length_nil,
    hcontent _ rfl rfl rfl rfl]
  rfl

/-- A line behind it. -/
lemma runs_continuation (hkey : Key key) (hline : Continuation line) (hname : name ∉ done.map Prod.fst)
    (hnew : key ∉ sec.map Prod.fst) (value : Bytes) (emptyLines lineNo : Nat) :
    Runs ignoreDuplicates (9 :: line ++ [10])
      (standing (done ++ [(name, sec ++ [(key, value)])]) name key emptyLines lineNo)
      (standing (done ++ [(name, sec ++ [(key, value ++ (List.replicate (emptyLines + 1) 10 ++ line))])]) name key 0
        (lineNo + 1)) := by
  obtain ⟨ch, l, rfl⟩ := List.exists_cons_of_ne_nil hline.ne_nil
  have htext : 10 ∉ 9 :: ch :: l := fun hmem => (List.mem_cons.1 hmem).elim (by decide) hline.text
  have htab : ∀ b ∈ ([9] : Bytes), isSpace b = true := forall_mem_of_all rfl
  have huncommented : ch ≠ 59 ∧ ch ≠ 35 :=
    ⟨fun h => hline.uncommented.1 (congrArg some h), fun h => hline.uncommented.2 (congrArg some h)⟩
  have htrim : trim (9 :: ch :: l) = ch :: l := by
    have h := hline.trimmed.trimBy_append htab (List.forall_mem_nil _)
    rwa [List.append_nil, ← trim_eq] at h
  have hsection := find_append_new hname (sec ++ [(key, value)])
  have hvalue := find_append_new hnew value
  have hhas : Parser.hasKey (done ++ [(name, sec ++ [(key, value)])]) name key = true := by
    rw [Parser.hasKey, hsection, Option.map_some, Option.getD_some, Section.hasKey, hkey.lower, hvalue]
    rfl
  rw [Runs, foldlM_line htext, readLine_content [9] htab (hline.trimmed.head ch rfl) huncommented rfl,
    Reading.readContent,
    if_pos ⟨Nat.zero_lt_one, hhas⟩]
  dsimp only
  rw [htrim, Reading.continueValue]
  change (Except.map _ (Except.map _
    (Section.change ((InsertionOrder.find (done ++ [(name, sec ++ [(key, value)])]) name).getD []) key _ >>= _))) = _
  rw [hsection, Option.getD_some, Section.change, hkey.lower, change_of_valid _ _ hkey.valid, hvalue,
    set_append_new hnew]
  change Except.ok { standing (InsertionOrder.set (done ++ [(name,
    sec ++ [(key, value)])]) name _) name key 0 (lineNo + 1) with line := [] } = _
  rw [set_append_new hname]
  rfl

/-! ## Dumps -/

lemma dumpValue_append (value value' : Bytes) :
    Parser.dumpValue (value ++ value') = Parser.dumpValue value ++ Parser.dumpValue value' :=
  List.flatMap_append

lemma dumpValue_of_notMem (h : 10 ∉ line) : Parser.dumpValue line = line := by
  have hsame : ∀ ch ∈ line, (if ch = 10 then [ch, 9] else [ch]) = [ch] := fun ch hch => if_neg fun heq : ch = 10 =>
    h (heq ▸ hch)
  rw [Parser.dumpValue, List.flatMap_congr hsame]
  exact List.flatMap_singleton' line

/-- The empty lines of a value, with the end of the line before and the tab of the line behind. -/
lemma dumpValue_replicate (n : Nat) :
    Parser.dumpValue (List.replicate (n + 1) 10) = 10 :: ((List.replicate n [9, 10]).flatten ++ [9]) := by
  induction n with
  | zero => rfl
  | succ n ih =>
    rw [List.replicate_succ, ← List.singleton_append, dumpValue_append, ih, List.replicate_succ, List.flatten_cons]
    rfl

lemma runs_blanks (data : Parser) (currSectionName prevKey : Bytes) (n lineNo : Nat) :
    Runs ignoreDuplicates (List.replicate n [9, 10]).flatten (standing data currSectionName prevKey 0 lineNo)
      (standing data currSectionName prevKey n (lineNo + n)) := by
  induction n with
  | zero => exact Runs.nil _
  | succ n ih =>
    rw [List.replicate_succ', List.flatten_append, List.flatten_singleton]
    exact ih.append (runs_blank [9] (by decide) (forall_mem_of_all rfl) data currSectionName prevKey n (lineNo + n))

/-- A key and its value, line by line. -/
lemma runs_entry (hkey : Key key) (hfirst : FirstLine key first) (hlines : Lines first value)
    (hname : name ∉ done.map Prod.fst)
    (hvalid : validateKey name = true) (hnew : key ∉ sec.map Prod.fst) (prevKey : Bytes) (emptyLines lineNo : Nat) :
    ∃ lineNo', Runs ignoreDuplicates (Parser.dumpOption (key, value))
      (standing (done ++ [(name, sec)]) name prevKey emptyLines lineNo)
      (standing (done ++ [(name, sec ++ [(key, value)])]) name key 0 lineNo') := by
  induction hlines with
  | first =>
    refine ⟨lineNo + 1, ?_⟩
    rw [Parser.dumpOption, dumpValue_of_notMem hfirst.text]
    exact runs_option hkey hfirst hname hvalid hnew prevKey emptyLines lineNo
  | @more value line hlines n hline ih =>
    obtain ⟨lineNo', hbefore⟩ := ih
    have hblank := @runs_blanks ignoreDuplicates (done ++ [(name, sec ++ [(key, value)])]) name key n lineNo'
    have hbehind := @runs_continuation done key line name sec ignoreDuplicates hkey hline hname hnew value n
      (lineNo' + n)
    refine ⟨lineNo' + n + 1, ?_⟩
    have htext : Parser.dumpOption (key, value ++ (List.replicate (n + 1) 10 ++ line)) =
        Parser.dumpOption (key, value) ++ ((List.replicate n [9, 10]).flatten ++ (9 :: line ++ [10])) := by
      rw [Parser.dumpOption, dumpValue_append, dumpValue_append, dumpValue_replicate, dumpValue_of_notMem hline.text,
        Parser.dumpOption]
      simp only [List.append_assoc, List.cons_append, List.nil_append]
    rw [htext]
    exact hbefore.append (hblank.append hbehind)

lemma runs_entries (hname : name ∉ done.map Prod.fst) (hvalid : validateKey name = true)
    (hdistinct : Distinct (sec ++ options))
    (hentries : ∀ o ∈ options, Entry o) (prevKey : Bytes) (emptyLines lineNo : Nat) :
    ∃ prevKey' emptyLines' lineNo', Runs ignoreDuplicates (options.flatMap Parser.dumpOption)
      (standing (done ++ [(name, sec)]) name prevKey emptyLines lineNo)
      (standing (done ++ [(name, sec ++ options)]) name prevKey' emptyLines' lineNo') := by
  induction options generalizing sec prevKey emptyLines lineNo with
  | nil => exact ⟨prevKey, emptyLines, lineNo, by rw [List.append_nil]; exact Runs.nil _⟩
  | cons o options ih =>
    obtain ⟨key, value⟩ := o
    obtain ⟨hkey, first, hfirst, hlines⟩ := hentries _ List.mem_cons_self
    have hnew : key ∉ sec.map Prod.fst := fun hmem => by
      rw [Distinct, List.map_append, List.map_cons] at hdistinct
      exact (List.nodup_append.1 hdistinct).2.2 _ hmem _ List.mem_cons_self rfl
    obtain ⟨lineNo₁, hentry⟩ := @runs_entry done key name first value sec ignoreDuplicates hkey hfirst hlines hname
      hvalid hnew prevKey
      emptyLines lineNo
    rw [List.append_cons] at hdistinct
    obtain ⟨prevKey', emptyLines', lineNo', hrest⟩ :=
      ih hdistinct (fun o ho => hentries o (List.mem_cons_of_mem _ ho)) key 0 lineNo₁
    refine ⟨prevKey', emptyLines', lineNo', ?_⟩
    rw [List.flatMap_cons, List.append_cons sec]
    exact hentry.append hrest

/-- The sections before one with an empty name are read back. -/
lemma runs_sections (hdistinct : Distinct (done ++ p)) (hwellFormed : p.WellFormed) (hnamed : [] ∉ p.map Prod.fst)
    (currSectionName prevKey : Bytes) (emptyLines lineNo : Nat) :
    ∃ currSectionName' prevKey' emptyLines' lineNo', Runs ignoreDuplicates p.dumps
      (standing done currSectionName prevKey emptyLines lineNo)
        (standing (done ++ p) currSectionName' prevKey' emptyLines' lineNo') := by
  induction p generalizing done currSectionName prevKey emptyLines lineNo with
  | nil => exact ⟨currSectionName, prevKey, emptyLines, lineNo, by rw [List.append_nil]; exact Runs.nil _⟩
  | cons s p ih =>
    obtain ⟨name, sec⟩ := s
    rw [List.map_cons, List.mem_cons, not_or] at hnamed
    have hvalid := hwellFormed.names _ List.mem_cons_self
    have hsec := hwellFormed.sections _ List.mem_cons_self
    have hnew : name ∉ done.map Prod.fst := fun hmem => by
      rw [Distinct, List.map_append, List.map_cons] at hdistinct
      exact (List.nodup_append.1 hdistinct).2.2 _ hmem _ List.mem_cons_self rfl
    have hstart := @runs_section done name ignoreDuplicates (Ne.symm hnamed.1) hvalid hnew currSectionName prevKey
      emptyLines lineNo
    obtain ⟨prevKey₁, emptyLines₁, lineNo₁, hentries⟩ :=
      @runs_entries done name [] sec ignoreDuplicates hnew hvalid hsec.distinct hsec.entries
      [] 0 (lineNo + 1)
    have hblank := @runs_blank ignoreDuplicates [] List.not_mem_nil (List.forall_mem_nil _)
      (done ++ [(name, sec)]) name prevKey₁ emptyLines₁
      lineNo₁
    rw [List.append_cons] at hdistinct
    have hrest : Parser.WellFormed p :=
      ⟨(List.nodup_cons.1 hwellFormed.distinct).2, fun s hs => hwellFormed.names s (List.mem_cons_of_mem _ hs),
      fun s hs => hwellFormed.sections s (List.mem_cons_of_mem _ hs)⟩
    obtain ⟨currSectionName', prevKey', emptyLines', lineNo', hruns⟩ :=
      ih hdistinct hrest hnamed.2 name prevKey₁ (emptyLines₁ + 1) (lineNo₁ + 1)
    refine ⟨currSectionName', prevKey', emptyLines', lineNo', ?_⟩
    rw [Parser.dumps, List.flatMap_cons, List.append_cons, Parser.dumpSection]
    exact ((hstart.append hentries).append hblank).append hruns

/-! ## Parsers -/

lemma not_reads_of_unnamed (h : p.WellFormed) (hunnamed : [] ∈ p.map Prod.fst) :
    Parser.reads [] p.dumps ignoreDuplicates ≠ .ok p := by
  intro hreads
  obtain ⟨s, hs, -⟩ := bind_eq_ok hreads
  obtain ⟨⟨name, sec⟩, hmem, hname⟩ := List.mem_map.1 hunnamed
  obtain rfl : name = [] := hname
  obtain ⟨before, after, rfl⟩ := List.append_of_mem hmem
  have hdistinct := h.distinct
  rw [Distinct, List.map_append, List.map_cons, List.nodup_append] at hdistinct
  have hbefore : Parser.WellFormed before := ⟨hdistinct.1, fun s hs => h.names s (List.mem_append_left _ hs),
    fun s hs => h.sections s (List.mem_append_left _ hs)⟩
  have hnamed : [] ∉ before.map Prod.fst := fun hmem => hdistinct.2.2 _ hmem _ List.mem_cons_self rfl
  obtain ⟨currSectionName, prevKey, emptyLines, lineNo, hruns⟩ :=
    @runs_sections before [] ignoreDuplicates hdistinct.1 hbefore hnamed [] [] 0 1
  have hdumps : Parser.dumps (before ++ ([], sec) :: after) =
      Parser.dumps before ++ (91 :: ([] ++ [93]) ++ [10] ++ (sec.flatMap Parser.dumpOption ++ [10] ++ Parser.dumps
        after)) := by
    rw [Parser.dumps, List.flatMap_append, List.flatMap_cons, Parser.dumpSection]
    simp only [List.append_assoc]
    rfl
  rw [hdumps, List.foldlM_append] at hs
  obtain ⟨s₁, hbefore, hrest⟩ := bind_eq_ok hs
  obtain rfl := Except.ok.inj (hruns.symm.trans hbefore)
  exact not_runs_unnamed _ _ _ _ _ _ ⟨s, hrest⟩

/-- What is written of a parser that has read its texts is read back as the same parser, just if none of its sections
has an empty name. -/
theorem reads_dumps_iff (h : p.Reached) (ignoreDuplicates : Bool) :
    Parser.reads [] p.dumps ignoreDuplicates = .ok p ↔ [] ∉ p.map Prod.fst := by
  have hwellFormed := h.wellFormed
  constructor
  · exact fun hreads hunnamed => not_reads_of_unnamed hwellFormed hunnamed hreads
  · intro hnamed
    obtain ⟨currSectionName, prevKey, emptyLines, lineNo, hruns⟩ :=
      @runs_sections p [] ignoreDuplicates hwellFormed.distinct hwellFormed
      hnamed [] [] 0 1
    rw [Parser.reads]
    change (p.dumps.foldlM _ (standing [] [] [] 0 1) >>= _) = _
    rw [hruns]
    rfl

/-- A section with a value of two lines. -/
def sample : Bytes := ascii "[a]\nK = x\n  y\n"

theorem reads_dumps_iff_sample : Parser.reads [] (Parser.dumps [(ascii "a", [(ascii "k", ascii "x\ny")])]) false =
    .ok [(ascii "a", [(ascii "k", ascii "x\ny")])] ↔ [] ∉ List.map Prod.fst [(ascii "a", [(ascii "k", ascii "x\ny")])] :=
  reads_dumps_iff ⟨[(sample, false)], by decide⟩ false

/-- A key before the first section. -/
theorem not_reads_dumps_unnamed : Parser.Reached [([], [(ascii "k", ascii "x")])] ∧
    Parser.reads [] (Parser.dumps [([], [(ascii "k", ascii "x")])]) false = .error (ascii "Line #: 1 Error parsing line: []") :=
  ⟨⟨[(ascii "k = x\n", false)], by decide⟩, by decide⟩

end CppExperiments.Ini

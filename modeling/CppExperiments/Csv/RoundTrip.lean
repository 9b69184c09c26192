import CppExperiments.Csv.Lines
import Mathlib.Tactic.Cases

/-!
# Rows that are written and read back

A row is read back as it was written, but for the carriage returns that stand before a line feed.
-/

namespace CppExperiments.Csv

/-- A field as it is read back. -/
def kept : Bytes → Bytes
  | [] => []
  | b :: bs => if b = 13 ∧ bs.head? = some 10 then kept bs else b :: kept bs

/-- What a reader puts together from lines. -/
def reading : Bytes → Bytes
  | [] => []
  | b :: bs => if b = 13 ∧ bs.head?.all (· == 10) = true then reading bs else b :: reading bs

/-- Up to each line feed the text is incomplete, and as a whole it is the row. -/
def Reads (prev : Option UInt8) (insideStr : Bool) (acc : Bytes) (result : List Bytes) (text : Bytes)
    (row : List Bytes) : Prop :=
  (∀ line rest, text = line ++ 10 :: rest → parseLoop 44 34 prev insideStr acc result (reading line) = some []) ∧
    parseLoop 44 34 prev insideStr acc result (reading text) = some row

variable {prev prev' : Option UInt8} {insideStr insideStr' : Bool} {b : UInt8} {acc acc' line text rest field : Bytes}
  {result result' row : List Bytes} {rows : List (List Bytes)} {n : Nat} {r : CSVReader}

/-! ## Carriage returns -/

lemma reading_eq_dropReturn (h : 10 ∉ line) : reading line = dropReturn line := by
  induction line with
  | nil => rfl
  | cons b bs ih =>
    rw [List.mem_cons, not_or] at h
    rw [reading, ih h.2]
    cases bs with
    | nil =>
      by_cases hb : b = 13
      · rw [hb]
        rfl
      · rw [if_neg (fun hcr => hb hcr.1), dropReturn, dropReturn, List.getLast?_singleton,
          if_neg (fun heq => hb (Option.some.inj heq))]
        rfl
    | cons c bs =>
      have hc : c ≠ 10 := fun heq => h.2 (heq ▸ List.mem_cons_self)
      have hnot : ¬ (b = 13 ∧ (c :: bs).head?.all (· == 10) = true) := fun hcr => hc (eq_of_beq hcr.2)
      rw [if_neg hnot, dropReturn, dropReturn, List.getLast?_cons_cons]
      by_cases hlast : (c :: bs).getLast? = some 13
      · rw [if_pos hlast, if_pos hlast, List.dropLast_cons_cons]
      · rw [if_neg hlast, if_neg hlast]

lemma reading_cons (hb : b ≠ 13) (text : Bytes) : reading (b :: text) = b :: reading text := by
  rw [reading, if_neg (fun h => hb h.1)]

lemma reading_append (line rest : Bytes) : reading (line ++ 10 :: rest) = reading line ++ 10 :: reading rest := by
  induction line with
  | nil =>
    rw [List.nil_append, reading_cons (by decide)]
    rfl
  | cons b bs ih =>
    have hhead : (bs ++ 10 :: rest).head?.all (· == 10) = bs.head?.all (· == 10) := by
      cases bs <;> rfl
    rw [List.cons_append, reading, reading, hhead, ih]
    split <;> rfl

lemma kept_of_notMem (h : 13 ∉ field) : kept field = field := by
  induction field with
  | nil => rfl
  | cons b bs ih =>
    rw [List.mem_cons, not_or] at h
    rw [kept, if_neg (fun hb => h.1 hb.1.symm), ih h.2]

lemma length_kept_le (field : Bytes) : (kept field).length ≤ field.length := by
  induction field with
  | nil => exact le_rfl
  | cons b bs ih =>
    rw [kept]
    split
    · exact ih.trans (Nat.le_succ _)
    · exact Nat.succ_le_succ ih

/-- A field is read back as it was exactly when no carriage return stands before a line feed. -/
lemma kept_eq_self_iff : kept field = field ↔ ¬ crlf <:+: field := by
  induction field with
  | nil => exact ⟨fun _ h => absurd (List.infix_nil.1 h) (by decide), fun _ => rfl⟩
  | cons b bs ih =>
    have hinside : crlf <:+: b :: bs ↔ (b = 13 ∧ bs.head? = some 10) ∨ crlf <:+: bs := by
      rw [List.infix_cons_iff]
      refine or_congr_left ?_
      cases bs with
      | nil => exact ⟨fun h => absurd h.length_le (by simp [crlf]), fun h => (nomatch h.2)⟩
      | cons c bs => simp [crlf, List.cons_prefix_cons, eq_comm]
    rw [kept, hinside, not_or, ← ih]
    by_cases hb : b = 13 ∧ bs.head? = some 10
    · rw [if_pos hb]
      refine ⟨fun h => ?_, fun h => absurd hb h.1⟩
      have hle := length_kept_le bs
      rw [h, List.length_cons] at hle
      omega
    · rw [if_neg hb, List.cons_inj_right]
      exact ⟨fun h => ⟨hb, h⟩, fun h => h.2⟩

/-! ## Characters -/

lemma parseLoop_nil (prev : Option UInt8) (insideStr : Bool) (acc : Bytes) (result : List Bytes) :
    parseLoop 44 34 prev insideStr acc result [] = some (if insideStr = true then [] else result ++ [acc]) := rfl

/-- Inside a quoted field it does not matter what stood before. -/
lemma parseLoop_inside (prev' : Option UInt8) :
    parseLoop 44 34 prev true acc result text = parseLoop 44 34 prev' true acc result text := by
  cases text with
  | nil => rfl
  | cons b bs =>
    rw [parseLoop.eq_def, parseLoop.eq_def 44 34 prev']
    simp

lemma Reads.inside (h : Reads prev true acc result text row) (prev' : Option UInt8) :
    Reads prev' true acc result text row :=
  ⟨fun line rest heq => (parseLoop_inside prev).trans (h.1 line rest heq), (parseLoop_inside prev).trans h.2⟩

/-- A character that changes the state in one way, whatever follows. -/
lemma Reads.cons (h : Reads prev' insideStr' acc' result' text row)
    (hstep : ∀ text, parseLoop 44 34 prev insideStr acc result (b :: text) =
      parseLoop 44 34 prev' insideStr' acc' result' text)
    (hreturn : ¬ (b = 13 ∧ text.head?.all (· == 10) = true)) (hfeed : b = 10 → insideStr = true) :
    Reads prev insideStr acc result (b :: text) row := by
  refine ⟨fun line rest heq => ?_, ?_⟩
  · cases line with
    | nil =>
      rw [reading, parseLoop_nil, if_pos (hfeed (List.cons.inj heq).1)]
    | cons c line =>
      rw [List.cons_append] at heq
      obtain ⟨rfl, rfl⟩ := List.cons.inj heq
      have hhead : (line ++ 10 :: rest).head?.all (· == 10) = line.head?.all (· == 10) := by
        cases line <;> rfl
      rw [hhead] at hreturn
      rw [reading, if_neg hreturn, hstep]
      exact h.1 line rest rfl
  · rw [reading, if_neg hreturn, hstep]
    exact h.2

/-- A carriage return at the end of a line is not there. -/
lemma Reads.dropReturn (h : Reads prev' true acc result text row) (hb : b = 13) (htext : text.head? = some 10) :
    Reads prev true acc result (b :: text) row := by
  have h := h.inside prev
  refine ⟨fun line rest heq => ?_, ?_⟩
  · cases line with
    | nil => rfl
    | cons c line =>
      rw [List.cons_append] at heq
      obtain ⟨rfl, rfl⟩ := List.cons.inj heq
      have hline : line.head?.all (· == 10) = true := by
        cases line with
        | nil => rfl
        | cons d line => exact beq_iff_eq.2 (Option.some.inj htext)
      rw [reading, if_pos ⟨hb, hline⟩]
      exact h.1 line rest rfl
  · rw [reading, if_pos ⟨hb, by rw [htext]; rfl⟩]
    exact h.2

lemma Reads.escape (h : Reads prev' true (acc ++ [34]) result text row) :
    Reads prev true acc result (34 :: 34 :: text) row := by
  have hstep : ∀ text, parseLoop 44 34 prev true acc result (34 :: 34 :: text) =
      parseLoop 44 34 (some 34) true (acc ++ [34]) result text := fun text => by
    rw [parseLoop.eq_def]
    simp
  have hquote := reading_cons (b := 34) (by decide)
  have h := h.inside (some 34)
  refine ⟨fun line rest heq => ?_, ?_⟩
  · rcases line with - | ⟨c, - | ⟨d, line⟩⟩
    · exact absurd (List.cons.inj heq).1 (by decide)
    · exact absurd (List.cons.inj (List.cons.inj heq).2).1 (by decide)
    · rw [List.cons_append, List.cons_append, List.cons.injEq, List.cons.injEq] at heq
      obtain ⟨rfl, rfl, heq⟩ := heq
      rw [hquote, hquote, hstep]
      exact h.1 line rest heq
  · rw [hquote, hquote, hstep]
    exact h.2

/-- Behind a field there is the end of the row or a comma. -/
def FieldEnd (text : Bytes) : Prop := text = [] ∨ ∃ rest, text = 44 :: rest

lemma Reads.close (h : Reads (some 34) false acc result text row) (hend : FieldEnd text) :
    Reads prev true acc result (34 :: text) row := by
  have hquote := reading_cons (b := 34) (by decide)
  have hcomma := reading_cons (b := 44) (by decide)
  have hstep : ∀ text, FieldEnd text → parseLoop 44 34 prev true acc result (34 :: text) =
      parseLoop 44 34 (some 34) false acc result text := by
    rintro text (rfl | ⟨rest, rfl⟩)
    · rw [parseLoop.eq_def]
      simp
    · rw [parseLoop.eq_def]
      simp
  refine ⟨fun line rest heq => ?_, ?_⟩
  · rcases line with - | ⟨c, line⟩
    · exact absurd (List.cons.inj heq).1 (by decide)
    · rw [List.cons_append] at heq
      obtain ⟨rfl, rfl⟩ := List.cons.inj heq
      rcases hend with hnil | ⟨rest', hcons⟩
      · exact absurd hnil (by simp)
      · rcases line with - | ⟨d, line⟩
        · exact absurd (List.cons.inj hcons).1 (by decide)
        · rw [List.cons_append] at hcons
          obtain ⟨rfl, -⟩ := List.cons.inj hcons
          have hline := h.1 (44 :: line) rest rfl
          rw [hcomma] at hline
          rw [hquote, hcomma, hstep _ (.inr ⟨_, rfl⟩), hline]
  · have hreading : FieldEnd (reading text) := by
      rcases hend with rfl | ⟨rest, rfl⟩
      · exact .inl rfl
      · exact .inr ⟨_, hcomma rest⟩
    rw [hquote, hstep _ hreading]
    exact h.2

/-! ## Fields -/

lemma doubled_cons (b : UInt8) (field : Bytes) :
    doubled (b :: field) = (if b = 34 then [34, b] else [b]) ++ doubled field := rfl

lemma doubled_of_notMem (h : 34 ∉ field) : doubled field = field := by
  induction field with
  | nil => rfl
  | cons b field ih =>
    rw [List.mem_cons, not_or] at h
    rw [doubled_cons, if_neg (fun hb => h.1 hb.symm), ih h.2, List.singleton_append]

lemma head?_doubled (field text : Bytes) :
    (doubled field ++ 34 :: text).head? = some 10 ↔ field.head? = some 10 := by
  cases field with
  | nil => simp [doubled]
  | cons c field =>
    rw [doubled_cons]
    by_cases hc : c = 34
    · simp [hc]
    · simp [hc]

/-- What is written between quotes. -/
lemma Reads.doubled (h : Reads prev true (acc ++ kept field) result (34 :: text) row) (prev' : Option UInt8) :
    Reads prev' true acc result (doubled field ++ 34 :: text) row := by
  induction field generalizing acc prev' with
  | nil =>
    rw [kept, List.append_nil] at h
    exact h.inside prev'
  | cons b field ih =>
    rw [doubled_cons]
    by_cases hb : b = 34
    · subst hb
      rw [kept, if_neg (fun h => absurd h.1 (by decide)), List.append_cons] at h
      exact (ih h none).escape
    · rw [if_neg hb, List.singleton_append, List.cons_append]
      by_cases hreturn : b = 13 ∧ field.head? = some 10
      · rw [kept, if_pos hreturn] at h
        exact (ih h none).dropReturn hreturn.1 ((head?_doubled field text).2 hreturn.2)
      · rw [kept, if_neg hreturn, List.append_cons] at h
        refine (ih h (some b)).cons (fun text => ?_) (fun hb' => hreturn ⟨hb'.1, ?_⟩) (fun _ => rfl)
        · rw [parseLoop.eq_def]
          simp [hb]
        · rw [← head?_doubled field text]
          cases hhead : (Csv.doubled field ++ 34 :: text).head? with
          | none => simp at hhead
          | some c =>
            rw [hhead] at hb'
            rw [eq_of_beq hb'.2]

/-- What is written as it is. -/
lemma Reads.plain (acc : Bytes) (h : ∀ prev, Reads prev false (acc ++ field) result text row)
    (hfield : ∀ b ∈ field, isSpecial 44 b = false) :
    Reads prev false acc result (field ++ text) row := by
  induction field generalizing acc prev with
  | nil =>
    rw [List.append_nil] at h
    exact h prev
  | cons b field ih =>
    rw [List.forall_mem_cons] at hfield
    simp only [isSpecial, Bool.or_eq_false_iff, beq_eq_false_iff_ne] at hfield
    obtain ⟨⟨⟨⟨⟨hquote, hcomma⟩, hfeed⟩, hreturn⟩, -⟩, hrest⟩ := hfield
    have hplain : Reads (some b) false (acc ++ [b]) result (field ++ text) row := by
      refine ih _ (fun prev => ?_) ?_
      · rw [List.append_assoc]
        exact h prev
      · simp only [isSpecial, Bool.or_eq_false_iff, beq_eq_false_iff_ne]
        exact hrest
    refine hplain.cons (fun text => ?_) (fun hb => hreturn hb.1) fun hb => absurd hb hfeed
    rw [parseLoop.eq_def]
    simp [hquote, hcomma]

lemma plain_of_not_special (h : ¬ field.any (isSpecial 44) = true) : ∀ b ∈ field, isSpecial 44 b = false := fun b hb =>
  Bool.eq_false_iff.2 fun hb' => h (List.any_eq_true.2 ⟨b, hb, hb'⟩)

/-- A field that is written, with or without quotes. -/
lemma reads_field (h : ∀ prev, Reads prev false (kept field) result text row) (hend : FieldEnd text)
    (hprev : prev.all (· == 44) = true) : Reads prev false [] result (writeCSVField field 44 ++ text) row := by
  rw [writeCSVField]
  by_cases hspecial : field.any (isSpecial 44) = true
  · rw [if_pos hspecial, List.append_assoc, List.cons_append, List.singleton_append]
    have hclose : Reads none true ([] ++ kept field) result (34 :: text) row := (h (some 34)).close hend
    refine (hclose.doubled (some 34)).cons (fun text => ?_) (fun h => ?_) (fun h => ?_)
    · rw [parseLoop.eq_def]
      simp [hprev]
    · exact absurd h.1 (by decide)
    · exact absurd h (by decide)
  · rw [if_neg hspecial]
    have hplain := plain_of_not_special hspecial
    have hdoubled : doubled field = field := doubled_of_notMem fun hmem => absurd (hplain 34 hmem) (by decide)
    have hkept : kept field = field := kept_of_notMem fun hmem => absurd (hplain 13 hmem) (by decide)
    rw [hdoubled]
    rw [hkept] at h
    exact Reads.plain [] h hplain

lemma writeCSVLine_singleton (field : Bytes) : writeCSVLine [field] 44 = writeCSVField field 44 := by
  rw [writeCSVLine, List.flatMap_singleton, List.dropLast_concat]

lemma writeCSVLine_cons_cons (field field' : Bytes) (row : List Bytes) :
    writeCSVLine (field :: field' :: row) 44 = writeCSVField field 44 ++ 44 :: writeCSVLine (field' :: row) 44 := by
  rw [writeCSVLine, List.flatMap_cons, List.dropLast_append_of_ne_nil (by simp), List.append_assoc,
    List.singleton_append]
  rfl

/-- A row that is written. -/
lemma reads_row (result : List Bytes) (field : Bytes) (row : List Bytes) (hprev : prev.all (· == 44) = true) :
    Reads prev false [] result (writeCSVLine (field :: row) 44) (result ++ (field :: row).map kept) := by
  induction row generalizing field prev result with
  | nil =>
    rw [writeCSVLine_singleton, ← List.append_nil (writeCSVField field 44)]
    exact reads_field (fun prev => ⟨fun line rest heq => absurd heq (by simp), rfl⟩) (.inl rfl) hprev
  | cons field' row ih =>
    rw [writeCSVLine_cons_cons]
    refine reads_field (fun prev => ?_) (.inr ⟨_, rfl⟩) hprev
    have hrow := ih (result ++ [kept field]) field' (rfl : (some (44 : UInt8)).all (· == 44) = true)
    rw [List.append_assoc] at hrow
    refine hrow.cons (fun text => ?_) (fun h => absurd h.1 (by decide)) (fun h => absurd h (by decide))
    rw [parseLoop.eq_def]
    simp

/-- A field that is not empty does not start with a carriage return when it is written. -/
lemma writeCSVField_start (field : Bytes) : field = [] ∨ ∃ b text, writeCSVField field 44 = b :: text ∧ b ≠ 13 := by
  rw [writeCSVField]
  by_cases hspecial : field.any (isSpecial 44) = true
  · rw [if_pos hspecial]
    exact .inr ⟨34, _, rfl, by decide⟩
  · rw [if_neg hspecial]
    have hplain := plain_of_not_special hspecial
    rw [doubled_of_notMem fun hmem => absurd (hplain 34 hmem) (by decide)]
    cases field with
    | nil => exact .inl rfl
    | cons b field => exact .inr ⟨b, field, rfl, fun hb => absurd (hplain b List.mem_cons_self) (by rw [hb]; decide)⟩

lemma reading_writeCSVLine_eq_nil_iff (hrow : row ≠ []) : reading (writeCSVLine row 44) = [] ↔ row = [[]] := by
  refine ⟨fun h => ?_, fun h => by rw [h]; rfl⟩
  have hstart : ∀ {b : UInt8} {text : Bytes}, b ≠ 13 → reading (b :: text) ≠ [] := fun hb heq => by
    rw [reading_cons hb] at heq
    cases heq
  obtain ⟨field, row, rfl⟩ := List.exists_cons_of_ne_nil hrow
  cases row with
  | nil =>
    rw [writeCSVLine_singleton] at h
    rcases writeCSVField_start field with rfl | ⟨b, text, hfield, hb⟩
    · rfl
    · rw [hfield] at h
      exact absurd h (hstart hb)
  | cons field' row =>
    rw [writeCSVLine_cons_cons] at h
    rcases writeCSVField_start field with rfl | ⟨b, text, hfield, hb⟩
    · exact absurd h (hstart (by decide))
    · rw [hfield] at h
      exact absurd h (hstart hb)

/-! ## Files -/

lemma safeGetline_append (hline : 10 ∉ line) (rest : Bytes) :
    safeGetline (line ++ 10 :: rest) = some (reading line, rest) := by
  rw [safeGetline, getline_append hline, Option.map_some, reading_eq_dropReturn hline]

namespace CSVReader

/-- The lines of one row. -/
lemma lineLoop_eq (text line : Bytes) (hstream : r.csvStream = text ++ 10 :: rest) (hn : text.length < n)
    (hpart : ∀ line' rest', text = line' ++ 10 :: rest' → parseCSVLine (line ++ reading line') 44 34 = some [])
    (hwhole : parseCSVLine (line ++ reading text) 44 34 = some row) (hrow : row ≠ [])
      (hcols : r.cols = 0 ∨ r.cols = row.length) :
    r.lineLoop n line = some ⟨row.length, rest, ⟨line ++ reading text, row⟩⟩ := by
  induction n generalizing r line text with
  | zero => omega
  | succ n ih =>
    rw [lineLoop, hstream]
    by_cases hfeed : 10 ∈ text
    · obtain ⟨line', text', rfl, hline'⟩ := List.eq_append_cons_of_mem hfeed
      rw [List.append_assoc, List.cons_append, safeGetline_append hline']
      dsimp only
      rw [hpart line' text' rfl, Option.bind_eq_bind, Option.bind_some, if_pos rfl]
      have hjoin : ∀ line'', line ++ reading (line' ++ 10 :: line'') =
        line ++ reading line' ++ [10] ++ reading line'' := fun line'' => by
        rw [reading_append, List.append_assoc, List.append_assoc, List.singleton_append]
      rw [hjoin] at hwhole
      rw [ih text' _ (r := { r with csvStream := text' ++ 10 :: rest }) rfl ?_ (fun line'' rest' heq => ?_) hwhole
        hcols, hjoin]
      · rw [List.length_append, List.length_cons] at hn
        omega
      · rw [← hjoin]
        exact hpart (line' ++ 10 :: line'') rest' (by rw [heq, List.append_assoc, List.cons_append])
    · rw [safeGetline_append hfeed]
      dsimp only
      rw [hwhole, Option.bind_eq_bind, Option.bind_some, if_neg hrow, if_neg (by omega)]

/-- One row of a file. -/
lemma nextCSVLine_eq (hstream : r.csvStream = writeCSVLine row 44 ++ 10 :: rest) (hrow : row ≠ [])
    (hcols : r.cols = 0 ∨ r.cols = row.length) :
    r.nextCSVLine = some (⟨row.length, rest, ⟨reading (writeCSVLine row 44), row.map kept⟩⟩, decide (row ≠ [[]])) := by
  obtain ⟨field, fields, rfl⟩ := List.exists_cons_of_ne_nil hrow
  obtain ⟨hpart, hwhole⟩ := reads_row [] field fields (rfl : (none : Option UInt8).all (· == 44) = true)
  have hloop := lineLoop_eq _ [] (r := { r with currentRow := {} }) (n := r.csvStream.length + 1) hstream
    (by rw [hstream, List.length_append]; omega) hpart hwhole (by simp)
      (by rw [List.nil_append, List.length_map]; exact hcols)
  rw [nextCSVLine, hloop, Option.bind_eq_bind, Option.bind_some]
  dsimp only
  rw [List.nil_append, List.nil_append, List.length_map,
    decide_eq_decide.2 (not_congr (reading_writeCSVLine_eq_nil_iff hrow))]

/-- The rows of a file, up to one that is read as no row at all. -/
lemma iterate_eq {cols : Nat} (hstream : r.csvStream = fileOf rows) (hn : rows.length < n) (hcols : 0 < cols)
    (hrows : ∀ row ∈ rows, row.length = cols) (hr : r.cols = 0 ∨ r.cols = cols) :
    ∃ records r', r.iterate n = some (records, r') ∧ records.map CSVRecord.records = (rows.takeWhile (· ≠ [[]])).map
      (List.map kept) ∧
      ((∀ row ∈ rows, row ≠ [[]]) → r'.csvStream = []) := by
  induction rows generalizing r n with
  | nil =>
    obtain ⟨n, rfl⟩ := Nat.exists_eq_succ_of_ne_zero (Nat.ne_of_gt hn)
    have hloop : nextCSVLine r = some ({ r with currentRow := {} }, false) := by
      rw [nextCSVLine, lineLoop, hstream]
      rfl
    refine ⟨[], { r with currentRow := {} }, ?_, rfl, fun _ => hstream⟩
    rw [iterate, hloop, Option.bind_eq_bind, Option.bind_some]
    exact if_pos rfl
  | cons row rows ih =>
    obtain ⟨n, rfl⟩ := Nat.exists_eq_succ_of_ne_zero (Nat.ne_of_gt (Nat.zero_lt_of_lt hn))
    rw [List.forall_mem_cons] at hrows
    have hne : row ≠ [] := fun heq => by
      rw [heq, List.length_nil] at hrows
      omega
    rw [fileOf, List.flatMap_cons, List.append_assoc, List.singleton_append] at hstream
    have hnext := nextCSVLine_eq hstream hne (by rw [hrows.1]; exact hr)
    by_cases hblank : row = [[]]
    · rw [decide_eq_false (not_not.2 hblank)] at hnext
      refine ⟨[], ⟨row.length, fileOf rows, ⟨reading (writeCSVLine row 44), row.map kept⟩⟩, ?_, ?_,
        fun hall => absurd hblank (hall row List.mem_cons_self)⟩
      · rw [iterate, hnext, Option.bind_eq_bind, Option.bind_some]
        exact if_pos rfl
      · rw [List.takeWhile_cons_of_neg (by simp [hblank])]
        rfl
    · rw [decide_eq_true hblank] at hnext
      obtain ⟨records, r', hiterate, hrecords, hrest⟩ :=
        ih (r := ⟨row.length, fileOf rows, ⟨reading (writeCSVLine row 44),
        row.map kept⟩⟩) (n := n) rfl (by rw [List.length_cons] at hn; omega) hrows.2 (.inr hrows.1)
      refine ⟨⟨reading (writeCSVLine row 44), row.map kept⟩ :: records, r', ?_, ?_, fun hall => ?_⟩
      · rw [iterate, hnext, Option.bind_eq_bind, Option.bind_some]
        exact (if_neg (by decide)).trans (congrArg _ hiterate)
      · rw [List.map_cons, hrecords, List.takeWhile_cons_of_pos (by simp [hblank]), List.map_cons]
      · exact hrest fun row' hrow' => hall row' (List.mem_cons_of_mem row hrow')

end CSVReader

lemma length_le_length_fileOf (rows : List (List Bytes)) : rows.length ≤ (fileOf rows).length :=
  length_le_flatMap (fun row => by rw [List.length_append]; exact Nat.succ_pos _) rows

lemma map_eq_self_iff {α : Type*} {f : α → α} {l : List α} : l.map f = l ↔ ∀ a ∈ l, f a = a := by
  have h := List.map_inj_left (l := l) (f := f) (g := id)
  rwa [List.map_id] at h

/-- The rows come back, to the end of the file, exactly when no row is a single empty field and no field has a carriage
return before a line feed. -/
theorem readFile_fileOf_iff {cols : Nat} (hcols : 0 < cols) (hrows : ∀ row ∈ rows, row.length = cols) :
    readFile (fileOf rows) = some (rows, []) ↔ ∀ row ∈ rows, row ≠ [[]] ∧ ∀ field ∈ row, ¬ crlf <:+: field := by
  obtain ⟨records, r', hiterate, hrecords, hrest⟩ := CSVReader.iterate_eq (r := { csvStream := fileOf rows }) rfl
    (Nat.lt_succ_of_le (length_le_length_fileOf rows)) hcols hrows (.inl rfl)
  have hread : readFile (fileOf rows) = some ((rows.takeWhile (· ≠ [[]])).map (List.map kept), r'.csvStream) := by
    rw [readFile, hiterate, Option.map_some, hrecords]
  rw [hread, Option.some_inj, Prod.mk.injEq]
  constructor
  · rintro ⟨heq, -⟩
    have hlength := congrArg List.length heq
    rw [List.length_map] at hlength
    have hall : rows.takeWhile (· ≠ [[]]) = rows := (List.takeWhile_prefix _).eq_of_length hlength
    rw [hall, map_eq_self_iff] at heq
    refine fun row hrow => ⟨of_decide_eq_true (List.takeWhile_eq_self_iff.1 hall row hrow), fun field hfield => ?_⟩
    exact kept_eq_self_iff.1 (map_eq_self_iff.1 (heq row hrow) field hfield)
  · intro h
    have hall : rows.takeWhile (· ≠ [[]]) = rows := List.takeWhile_eq_self_iff.2 fun row hrow =>
      decide_eq_true (h row hrow).1
    refine ⟨?_, hrest fun row hrow => (h row hrow).1⟩
    rw [hall, map_eq_self_iff]
    exact fun row hrow => map_eq_self_iff.2 fun field hfield => kept_eq_self_iff.2 ((h row hrow).2 field hfield)

theorem readFile_fileOf_quoted : readFile (fileOf [[ascii "a,\"b\"\n", []], [[], [13]]]) = some ([[ascii "a,\"b\"\n", []], [[], [13]]], []) ↔
    ∀ row ∈ [[ascii "a,\"b\"\n", []], [[], [13]]], row ≠ [[]] ∧ ∀ field ∈ row, ¬ crlf <:+: field :=
  readFile_fileOf_iff (by decide : 0 < 2) (by decide)

/-- The carriage return of a line end inside a field is lost, and a row of one empty field is taken for the end. -/
theorem readFile_fileOf_return : readFile (fileOf [[ascii "a\r\nb"]]) = some ([[ascii "a\nb"]], []) ∧
    readFile (fileOf [[ascii "a\r\nb"]]) ≠ some ([[ascii "a\r\nb"]], []) ∧
    readFile (fileOf [[[]], [ascii "a"]]) = some ([], ascii "a\n") := by
  decide

end CppExperiments.Csv

/-!
## One line that is written and parsed

A line that is not cut at its line feeds is parsed to the row that was written, carriage returns and all.
-/

namespace CppExperiments.Csv

variable {prev : Option UInt8} {acc text field : Bytes} {result row : List Bytes}

/-- Between the quotes each doubled quote is one quote again, up to the quote that closes the field. -/
lemma parseLoop_doubled (hend : FieldEnd text) :
    parseLoop 44 34 prev true acc result (doubled field ++ 34 :: text) =
      parseLoop 44 34 (some 34) false (acc ++ field) result text := by
  induction field generalizing prev acc with
  | nil =>
    rw [List.append_nil]
    rcases hend with rfl | ⟨rest, rfl⟩
    · rfl
    · exact parseLoop.eq_def _ _ _ _ _ _ _
  | cons b field ih =>
    rw [doubled_cons, List.append_cons acc b field, ← @ih (some b)]
    by_cases hb : b = 34
    · rw [if_pos hb, hb]
      exact parseLoop.eq_def _ _ _ _ _ _ _
    · rw [if_neg hb, List.append_assoc, List.singleton_append, parseLoop.eq_def]
      simp [hb]

/-- A character without a meaning of its own is taken as it is. -/
lemma parseLoop_plain (hfield : ∀ b ∈ field, isSpecial 44 b = false) :
    ∃ prev', parseLoop 44 34 prev false acc result (field ++ text) =
      parseLoop 44 34 prev' false (acc ++ field) result text := by
  induction field generalizing prev acc with
  | nil => exact ⟨prev, by rw [List.append_nil, List.nil_append]⟩
  | cons b field ih =>
    rw [List.forall_mem_cons] at hfield
    obtain ⟨prev', hrest⟩ := @ih (some b) (acc ++ [b]) hfield.2
    refine ⟨prev', ?_⟩
    have hb := hfield.1
    simp only [isSpecial, Bool.or_eq_false_iff, beq_eq_false_iff_ne] at hb
    obtain ⟨⟨⟨⟨hquote, hcomma⟩, -⟩, -⟩, -⟩ := hb
    rw [List.append_cons acc b field, ← hrest, List.cons_append, parseLoop.eq_def]
    simp [hquote, hcomma]

/-- A field that starts a line or stands behind a comma is put together in full. -/
lemma parseLoop_writeCSVField (field : Bytes) (result : List Bytes) (hend : FieldEnd text)
    (hprev : prev.all (· == 44) = true) :
    ∃ prev', parseLoop 44 34 prev false [] result (writeCSVField field 44 ++ text) =
      parseLoop 44 34 prev' false field result text := by
  rw [writeCSVField]
  by_cases hspecial : field.any (isSpecial 44) = true
  · refine ⟨some 34, ?_⟩
    have hopen : ∀ line, parseLoop 44 34 prev false [] result (34 :: line) = parseLoop 44 34 (some 34) true
      [] result line := by
      intro line
      rw [parseLoop.eq_def]
      simp [hprev]
    rw [if_pos hspecial, List.append_assoc, List.cons_append, List.singleton_append, hopen, parseLoop_doubled hend,
      List.nil_append]
  · have hplain := plain_of_not_special hspecial
    rw [if_neg hspecial, doubled_of_notMem fun hmem => absurd (hplain 34 hmem) (by decide)]
    exact parseLoop_plain hplain

lemma parseLoop_writeCSVLine (field : Bytes) (row : List Bytes) (hprev : prev.all (· == 44) = true) :
    parseLoop 44 34 prev false [] result (writeCSVLine (field :: row) 44) = some (result ++ field :: row) := by
  induction row generalizing field prev result with
  | nil =>
    obtain ⟨prev', hfield⟩ := parseLoop_writeCSVField field result (.inl rfl) hprev
    rw [writeCSVLine_singleton, ← List.append_nil (writeCSVField field 44), hfield]
    rfl
  | cons field' row ih =>
    obtain ⟨prev', hfield⟩ := parseLoop_writeCSVField field result
      (.inr ⟨writeCSVLine (field' :: row) 44, rfl⟩) hprev
    have hcomma : ∀ line, parseLoop 44 34 prev' false field result (44 :: line) =
        parseLoop 44 34 (some 44) false [] (result ++ [field]) line := by
      intro line
      rw [parseLoop.eq_def]
      simp
    rw [writeCSVLine_cons_cons, hfield, hcomma, ih field' rfl, List.append_assoc, List.singleton_append]

/-- What is written of a row is parsed to that row. -/
theorem parseCSVLine_writeCSVLine (hrow : row ≠ []) : parseCSVLine (writeCSVLine row 44) 44 34 = some row := by
  obtain ⟨field, row, rfl⟩ := List.exists_cons_of_ne_nil hrow
  exact parseLoop_writeCSVLine field row rfl

theorem parseCSVLine_writeCSVLine_quotes : parseCSVLine (writeCSVLine [ascii "\"a\",\"\r\n", [], ascii "b\"", [44]] 44) 44 34 =
    some [ascii "\"a\",\"\r\n", [], ascii "b\"", [44]] :=
  parseCSVLine_writeCSVLine (by decide)

end CppExperiments.Csv

import CppExperiments.Cgit.Commit

/-!
# What is printed of a commit that was read

A text whose values have one line each is read into its headers and its message. From a line on that continues a value
the reader finds nothing but that value; the line feeds that are printed then are one more than those that were read.
-/

namespace CppExperiments.Cgit

variable {key k t t' line : Bytes} {data : Headers} {f : List Bytes → List Bytes} {values : List Bytes} {ch : UInt8}
  {r r' r'' : Reader} {n : Nat}

/-! ## The ordered map -/

lemma alter_of_notMem (h : key ∉ data.map Prod.fst) : alter key f data = data ++ [(key, f [])] := by
  induction data with
  | nil => rfl
  | cons header data ih =>
    rw [List.map_cons, List.mem_cons, not_or] at h
    rw [alter, if_neg (Ne.symm h.1), ih h.2, List.cons_append]

lemma alter_concat (h : key ∉ data.map Prod.fst) :
    alter key f (data ++ [(key, values)]) = data ++ [(key, f values)] := by
  induction data with
  | nil => rw [List.nil_append, alter, if_pos rfl, List.nil_append]
  | cons header data ih =>
    rw [List.map_cons, List.mem_cons, not_or] at h
    rw [List.cons_append, alter, if_neg (Ne.symm h.1), ih h.2, List.cons_append]

lemma alter_ne_nil (key : Bytes) (f : List Bytes → List Bytes) (data : Headers) : alter key f data ≠ [] := by
  cases data with
  | nil => exact List.cons_ne_nil _ _
  | cons header data =>
    rw [alter]
    split <;> exact List.cons_ne_nil _ _

lemma lookup_alter (key : Bytes) (f : List Bytes → List Bytes) (data : Headers) :
    (alter key f data).lookup key = some (f ((data.lookup key).getD [])) := by
  induction data with
  | nil => simp [alter]
  | cons header data ih =>
    obtain ⟨k, values⟩ := header
    rw [alter]
    by_cases h : k = key
    · rw [if_pos h, h, List.lookup_cons_self, List.lookup_cons_self, Option.getD_some]
    · have hbeq : (key == k) = false := beq_eq_false_iff_ne.2 (Ne.symm h)
      rw [if_neg h, List.lookup_cons, List.lookup_cons, hbeq]
      exact ih

lemma lookup_append_of_notMem (h : key ∉ data.map Prod.fst) (values : List Bytes) :
    (data ++ [(key, values)]).lookup key = some values := by
  rw [← alter_of_notMem (f := fun _ => values) h, lookup_alter]

/-! ## Runs of the reader -/

/-- The reader goes over a text. -/
def Reads (r : Reader) (t : Bytes) (r' : Reader) : Prop := t.foldlM Reader.feed r = some r'

lemma Reads.nil (r : Reader) : Reads r [] r := rfl

lemma Reads.append (h : Reads r t r') (h' : Reads r' t' r'') : Reads r (t ++ t') r'' := by
  rw [Reads, List.foldlM_append, h]
  exact h'

lemma Reads.cons (h : r.feed ch = some r') (h' : Reads r' t r'') : Reads r (ch :: t) r'' := by
  rw [Reads, List.foldlM_cons, h]
  exact h'

/-- Characters that are put behind the others. -/
lemma reads_plain (h : ∀ ch ∈ t, r.state = .BODY_START ∨ (ch ≠ 32 ∧ ch ≠ 10) ∨ (ch = 32 ∧ r.state ≠ .START)) :
    Reads r t { r with acc := r.acc ++ t } := by
  induction t generalizing r with
  | nil =>
    rw [List.append_nil]
    exact .nil r
  | cons ch t ih =>
    rw [List.forall_mem_cons] at h
    refine .cons (if_pos h.1) ?_
    have hrest := @ih { r with acc := r.acc ++ [ch] } h.2
    rwa [List.append_assoc] at hrest

/-- The first line of a value. -/
lemma reads_line (hne : key ≠ []) (hspace : (32 : UInt8) ∉ key) (hkey : (10 : UInt8) ∉ key)
    (hline : (10 : UInt8) ∉ line) : Reads ⟨.START, [], k, data⟩ (key ++ 32 :: line ++ [10])
      ⟨.START, [], key, alter key (· ++ [line]) data⟩ := by
  have hkeyread : Reads ⟨.START, [], k, data⟩ key ⟨.START, key, k, data⟩ := by
    refine reads_plain fun ch hch => Or.inr (Or.inl ⟨?_, ?_⟩)
    · exact fun h => hspace (h ▸ hch)
    · exact fun h => hkey (h ▸ hch)
  have hlineread : Reads ⟨.KEY_DONE, [], key, data⟩ line ⟨.KEY_DONE, line, key, data⟩ := by
    refine reads_plain fun ch hch => Or.inr ?_
    have hnewline : ch ≠ 10 := fun h => hline (h ▸ hch)
    by_cases h : ch = 32
    · exact Or.inr ⟨h, by simp⟩
    · exact Or.inl ⟨h, hnewline⟩
  have hseparator : Reader.feed ⟨.START, key, k, data⟩ 32 = some ⟨.KEY_DONE, [], key, data⟩ := by
    rw [Reader.feed, if_neg (by simp), if_pos rfl, if_pos hne]
  have hend : Reader.feed ⟨.KEY_DONE, line, key, data⟩ 10 =
      some ⟨.START, [], key, alter key (· ++ [line]) data⟩ := by
    rw [Reader.feed, if_neg (by simp), if_neg (by simp)]
  exact (hkeyread.append (.cons hseparator hlineread)).append (.cons hend (.nil _))

/-- A reader in a value of more lines stays there. -/
lemma exists_reads_multiline (t : Bytes) (h : r.state = .MULTILINE_VAL) :
    ∃ r', Reads r t r' ∧ r'.state = .MULTILINE_VAL := by
  induction t generalizing r with
  | nil => exact ⟨r, .nil r, h⟩
  | cons ch t ih =>
    by_cases hch : ch = 10
    · have hfeed : r.feed ch = some { r with data := alter r.key (extendBack (10 :: r.acc)) r.data } := by
        rw [Reader.feed, if_neg (by simp [h, hch]), if_neg (by simp [hch]), h]
      obtain ⟨r', hreads, hstate⟩ := @ih { r with data := alter r.key (extendBack (10 :: r.acc)) r.data } h
      exact ⟨r', .cons hfeed hreads, hstate⟩
    · have hfeed : r.feed ch = some { r with acc := r.acc ++ [ch] } := by
        refine if_pos (Or.inr ?_)
        by_cases hspace : ch = 32
        · exact Or.inr ⟨hspace, by simp [h]⟩
        · exact Or.inl ⟨hspace, hch⟩
      obtain ⟨r', hreads, hstate⟩ := @ih { r with acc := r.acc ++ [ch] } h
      exact ⟨r', .cons hfeed hreads, hstate⟩

/-! ## Values of one line -/

variable {headers : List (Bytes × List Value)} {vs : List Value}

lemma valueText_single {v : Value} (h : v.2 = []) : valueText key v = key ++ 32 :: v.1 ++ [10] := by
  rw [valueText, h, List.flatMap_nil]

/-- More values of the key that was read last. -/
lemma reads_values (hne : key ≠ []) (hspace : (32 : UInt8) ∉ key) (hkey : (10 : UInt8) ∉ key)
    (hlines : ∀ v ∈ vs, (10 : UInt8) ∉ v.1) (hplain : ∀ v ∈ vs, v.2 = []) (hfresh : key ∉ data.map Prod.fst) :
    ∃ k', Reads ⟨.START, [], k, data ++ [(key, values)]⟩ (vs.flatMap (valueText key))
      ⟨.START, [], k', data ++ [(key, values ++ vs.map Prod.fst)]⟩ := by
  induction vs generalizing k values with
  | nil =>
    rw [List.map_nil, List.append_nil]
    exact ⟨k, .nil _⟩
  | cons v vs ih =>
    rw [List.forall_mem_cons] at hlines hplain
    have hfirst := @reads_line key k v.1 (data ++ [(key, values)]) hne hspace hkey hlines.1
    rw [alter_concat hfresh, ← valueText_single hplain.1] at hfirst
    obtain ⟨k', hrest⟩ := @ih key (values ++ [v.1]) hlines.2 hplain.2
    rw [List.append_assoc, List.singleton_append, ← List.map_cons] at hrest
    exact ⟨k', hfirst.append hrest⟩

/-- The headers, in their order. -/
lemma reads_headers (hkeys : ∀ h ∈ headers, h.1 ≠ [] ∧ (32 : UInt8) ∉ h.1 ∧ (10 : UInt8) ∉ h.1)
    (hvalues : ∀ h ∈ headers, h.2 ≠ []) (hlines : ∀ h ∈ headers, ∀ v ∈ h.2, (10 : UInt8) ∉ v.1)
    (hplain : ∀ h ∈ headers, ∀ v ∈ h.2, v.2 = []) (hnodup : (data.map Prod.fst ++ headers.map Prod.fst).Nodup) :
    ∃ k', Reads ⟨.START, [], k, data⟩ (headersText headers)
      ⟨.START, [], k', data ++ headers.map fun h => (h.1, h.2.map Prod.fst)⟩ := by
  induction headers generalizing k data with
  | nil =>
    rw [List.map_nil, List.append_nil]
    exact ⟨k, .nil _⟩
  | cons header headers ih =>
    obtain ⟨key, vs⟩ := header
    rw [List.forall_mem_cons] at hkeys hvalues hlines hplain
    obtain ⟨⟨hne, hspace, hkey⟩, hkeys⟩ := hkeys
    have hfresh : key ∉ data.map Prod.fst := by
      intro hmem
      rw [List.map_cons, List.nodup_append] at hnodup
      exact hnodup.2.2 key hmem key List.mem_cons_self rfl
    cases vs with
    | nil => exact absurd rfl hvalues.1
    | cons v vs =>
      have hlines' := hlines.1
      have hplain' := hplain.1
      rw [List.forall_mem_cons] at hlines' hplain'
      have hfirst := @reads_line key k v.1 data hne hspace hkey hlines'.1
      rw [alter_of_notMem hfresh, List.nil_append, ← valueText_single hplain'.1] at hfirst
      obtain ⟨k₁, hgroup⟩ := @reads_values key key data [v.1] vs hne hspace hkey hlines'.2 hplain'.2 hfresh
      rw [List.singleton_append, ← List.map_cons] at hgroup
      have hnodup' : ((data ++ [(key, (v :: vs).map Prod.fst)]).map Prod.fst ++ headers.map Prod.fst).Nodup := by
        rwa [List.map_append, List.map_singleton, List.append_assoc, List.singleton_append]
      obtain ⟨k₂, hrest⟩ := @ih k₁ _ hkeys hvalues.2 hlines.2 hplain.2 hnodup'
      rw [List.append_assoc, List.singleton_append] at hrest
      exact ⟨k₂, (hfirst.append hgroup).append hrest⟩

/-- The message is read as it is. -/
lemma reads_message (k message : Bytes) (data : Headers) :
    Reads ⟨.START, [], k, data⟩ (10 :: message) ⟨.BODY_START, message, [], data⟩ := by
  have hempty : Reader.feed ⟨.START, [], k, data⟩ 10 = some ⟨.BODY_START, [], [], data⟩ := by
    rw [Reader.feed, if_neg (by simp), if_neg (by decide)]
  exact .cons hempty (reads_plain fun ch _ => Or.inl rfl)

/-! ## Printing -/

lemma flatMap_escape (h : (10 : UInt8) ∉ t) : t.flatMap (fun ch => if ch ≠ 10 then [ch] else [10, 32]) = t := by
  have hsingle : ∀ ch ∈ t, (if ch ≠ 10 then [ch] else [10, 32]) = [ch] := by
    intro ch hch
    refine if_pos ?_
    rintro rfl
    exact h hch
  rw [List.flatMap_congr hsingle, List.flatMap_singleton']

lemma printValue_eq {v : Value} (hline : (10 : UInt8) ∉ v.1) (h : v.2 = []) :
    GitCommit.printValue key v.1 = valueText key v := by
  rw [GitCommit.printValue, flatMap_escape hline, valueText_single h]

lemma printHeaders_plain (hkeys : ∀ h ∈ headers, h.1 ≠ []) (hlines : ∀ h ∈ headers, ∀ v ∈ h.2, (10 : UInt8) ∉ v.1)
    (hplain : ∀ h ∈ headers, ∀ v ∈ h.2, v.2 = []) :
    GitCommit.printHeaders (headers.map fun h => (h.1, h.2.map Prod.fst)) = headersText headers := by
  rw [GitCommit.printHeaders, List.flatMap_map, headersText]
  refine List.flatMap_congr fun h hh => ?_
  rw [if_pos (hkeys h hh), List.flatMap_map]
  exact List.flatMap_congr fun v hv => printValue_eq (hlines h hh v hv) (hplain h hh v hv)

lemma printHeaders_alter_nil (f : List Bytes → List Bytes) (data : Headers) :
    GitCommit.printHeaders (alter [] f data) = GitCommit.printHeaders data := by
  induction data with
  | nil => rfl
  | cons header data ih =>
    rw [alter]
    split
    · rename_i hkey
      rw [GitCommit.printHeaders, GitCommit.printHeaders, List.flatMap_cons, List.flatMap_cons,
        if_neg (not_not.2 hkey), if_neg (not_not.2 hkey)]
    · rw [GitCommit.printHeaders, List.flatMap_cons, ← GitCommit.printHeaders, ih]
      rfl

/-- The message is behind the headers under the empty key. -/
lemma serialize_alter_nil (sha fmt body : Bytes) (data : Headers) (time : Int) :
    GitCommit.serialize ⟨sha, fmt, alter [] (fun _ => [body]) data, time⟩ =
      some (GitCommit.printHeaders data ++ 10 :: body) := by
  simp only [GitCommit.serialize, lookup_alter, printHeaders_alter_nil]
  rfl

lemma lookup_map_fst (key : Bytes) (headers : List (Bytes × List Value)) :
    (headers.map fun h => (h.1, h.2.map Prod.fst)).lookup key =
      (headers.lookup key).map fun vs => vs.map Prod.fst := by
  induction headers with
  | nil => rfl
  | cons header headers ih =>
    obtain ⟨k, vs⟩ := header
    rw [List.map_cons, List.lookup_cons, List.lookup_cons]
    cases key == k with
    | true => rfl
    | false => exact ih

lemma lookup_alter_of_ne (hne : k ≠ key) (f : List Bytes → List Bytes) (data : Headers) :
    (alter key f data).lookup k = data.lookup k := by
  have hbeq : (k == key) = false := beq_eq_false_iff_ne.2 hne
  induction data with
  | nil => rw [alter, List.lookup_cons, hbeq]
  | cons header data ih =>
    obtain ⟨k', values⟩ := header
    rw [alter]
    by_cases h : k' = key
    · rw [if_pos h, h, List.lookup_cons, List.lookup_cons, hbeq]
    · rw [if_neg h, List.lookup_cons, List.lookup_cons, ih]

lemma mem_of_lookup (h : headers.lookup key = some vs) : (key, vs) ∈ headers := by
  obtain ⟨front, rest, rfl, -⟩ := List.lookup_eq_some_iff.1 h
  exact List.mem_append_right front List.mem_cons_self

lemma dropNewline_eq_self_iff : dropNewline t = t ↔ t.getLast? ≠ some 10 := by
  rw [dropNewline]
  split
  · rename_i h
    have hne : t ≠ [] := by
      rintro rfl
      cases h
    have hpos := List.length_pos_iff.2 hne
    refine iff_of_false (fun heq => ?_) (fun hnot => hnot h)
    have hlen := congrArg List.length heq
    rw [List.length_dropLast] at hlen
    omega
  · rename_i h
    exact iff_of_true rfl h

namespace ObjectText

variable {o : ObjectText} {now : Int} {sha fmt : Bytes}

theorem reads_raw (h : o.Plain) : Reads Reader.start o.raw
    ⟨.BODY_START, o.message, [], o.headers.map fun h => (h.1, h.2.map Prod.fst)⟩ := by
  obtain ⟨k, hheaders⟩ := @reads_headers [] [] o.headers o.keys o.values (fun h hh v hv => (o.lines h hh v hv).1) h
    (by simpa using o.nodup)
  exact hheaders.append (reads_message k o.message _)

/-- What is read from a text, and what is printed then. -/
lemma deserialize_eq_some {c : GitCommit} (hread : Reads Reader.start t r)
    (hc : GitCommit.deserialize now sha t fmt = some c) :
    c.serialize = some (GitCommit.printHeaders r.data ++ 10 :: dropNewline r.acc) := by
  obtain ⟨r', hread', hc⟩ := Option.bind_eq_some_iff.1 hc
  obtain rfl := Option.some.inj (hread.symm.trans hread')
  obtain ⟨commitUTC, -, hc⟩ := Option.bind_eq_some_iff.1 hc
  obtain rfl := Option.some.inj hc
  exact serialize_alter_nil ..

lemma exists_deserialize_iff (now : Int) (sha fmt : Bytes) (hread : Reads Reader.start t r) :
    (∃ c, GitCommit.deserialize now sha t fmt = some c) ↔
    (GitCommit.commitTime now (r.data.lookup (ascii "committer"))).isSome := by
  have hne : ascii "committer" ≠ [] := by decide
  rw [← lookup_alter_of_ne hne fun _ => [dropNewline r.acc]]
  constructor
  · rintro ⟨c, hc⟩
    obtain ⟨r', hread', hc⟩ := Option.bind_eq_some_iff.1 hc
    obtain rfl := Option.some.inj (hread.symm.trans hread')
    obtain ⟨commitUTC, htime, -⟩ := Option.bind_eq_some_iff.1 hc
    exact Option.isSome_iff_exists.2 ⟨commitUTC, htime⟩
  · intro h
    obtain ⟨commitUTC, htime⟩ := Option.isSome_iff_exists.1 h
    exact ⟨⟨sha, fmt, alter [] (fun _ => [dropNewline r.acc]) r.data, commitUTC⟩,
      Option.bind_eq_some_iff.2 ⟨r, hread, Option.bind_eq_some_iff.2 ⟨commitUTC, htime, rfl⟩⟩⟩

lemma timed_iff (o : ObjectText) (now : Int) : o.Timed ↔ (GitCommit.commitTime now
    ((o.headers.map fun h => (h.1, h.2.map Prod.fst)).lookup (ascii "committer"))).isSome := by
  rw [lookup_map_fst, Timed]
  cases hvs : o.headers.lookup (ascii "committer") with
  | none => exact iff_of_true (fun values hvalues => by cases hvalues) rfl
  | some vs =>
    cases vs with
    | nil => exact absurd rfl (o.values _ (mem_of_lookup hvs))
    | cons v vs =>
      rw [Option.map_some, List.map_cons, GitCommit.commitTime, List.head?_cons, Option.bind_some, Option.isSome_map]
      constructor
      · exact fun h => h _ rfl v rfl
      · rintro h values hvalues v' hv'
        obtain rfl := Option.some.inj hvalues
        obtain rfl := Option.some.inj hv'
        exact h

/-- A text of values of one line is printed as it was read if its time is read and it does not end in a line feed. -/
theorem restored_iff_of_plain (h : o.Plain) :
    o.Restored now sha fmt ↔ o.message.getLast? ≠ some 10 ∧ o.Timed := by
  have hread := o.reads_raw h
  have hprint := printHeaders_plain (fun h hh => (o.keys h hh).1) (fun h hh v hv => (o.lines h hh v hv).1) h
  rw [timed_iff o now, ← exists_deserialize_iff now sha fmt hread, ← dropNewline_eq_self_iff]
  constructor
  · rintro ⟨c, hc, hserialize⟩
    rw [deserialize_eq_some hread hc, hprint] at hserialize
    have hmessage := List.append_cancel_left (Option.some.inj hserialize)
    exact ⟨(List.cons.inj hmessage).2, c, hc⟩
  · rintro ⟨hmessage, c, hc⟩
    refine ⟨c, hc, ?_⟩
    rw [deserialize_eq_some hread hc, hprint, hmessage, raw]

end ObjectText

/-! ## Values of more lines -/

lemma reads_values_single (hne : key ≠ []) (hspace : (32 : UInt8) ∉ key) (hkey : (10 : UInt8) ∉ key)
    (hlines : ∀ v ∈ vs, (10 : UInt8) ∉ v.1) (hplain : ∀ v ∈ vs, v.2 = []) :
    ∃ k' data', Reads ⟨.START, [], k, data⟩ (vs.flatMap (valueText key)) ⟨.START, [], k', data'⟩ := by
  induction vs generalizing k data with
  | nil => exact ⟨k, data, .nil _⟩
  | cons v vs ih =>
    rw [List.forall_mem_cons] at hlines hplain
    have hfirst := @reads_line key k v.1 data hne hspace hkey hlines.1
    rw [← valueText_single hplain.1] at hfirst
    obtain ⟨k', data', hrest⟩ := @ih key (alter key (· ++ [v.1]) data) hlines.2 hplain.2
    exact ⟨k', data', hfirst.append hrest⟩

/-- The reader comes into a value of more lines. -/
lemma reads_values_multiline (hne : key ≠ []) (hspace : (32 : UInt8) ∉ key) (hkey : (10 : UInt8) ∉ key)
    (hlines : ∀ v ∈ vs, (10 : UInt8) ∉ v.1) (hmore : ∃ v ∈ vs, v.2 ≠ []) :
    ∃ r', Reads ⟨.START, [], k, data⟩ (vs.flatMap (valueText key)) r' ∧ r'.state = .MULTILINE_VAL := by
  induction vs generalizing k data with
  | nil =>
    obtain ⟨v, hv, -⟩ := hmore
    cases hv
  | cons v vs ih =>
    rw [List.forall_mem_cons] at hlines
    have hfirst := @reads_line key k v.1 data hne hspace hkey hlines.1
    cases hv : v.2 with
    | nil =>
      have hmore' : ∃ v ∈ vs, v.2 ≠ [] := by
        obtain ⟨v', hv', hne'⟩ := hmore
        rcases List.mem_cons.1 hv' with rfl | hv'
        · exact absurd hv hne'
        · exact ⟨v', hv', hne'⟩
      rw [← valueText_single hv] at hfirst
      obtain ⟨r', hrest, hstate⟩ := @ih key (alter key (· ++ [v.1]) data) hlines.2 hmore'
      exact ⟨r', hfirst.append hrest, hstate⟩
    | cons line lines =>
      have hspace' : Reader.feed ⟨.START, [], key, alter key (· ++ [v.1]) data⟩ 32 =
          some ⟨.MULTILINE_VAL, [], key, alter key (· ++ [v.1]) data⟩ := by
        rw [Reader.feed, if_neg (by simp), if_pos rfl, if_neg (by simp), if_pos (alter_ne_nil _ _ _)]
      obtain ⟨r', hrest, hstate⟩ := @exists_reads_multiline ⟨.MULTILINE_VAL, [], key, alter key (· ++ [v.1]) data⟩
        (line ++ 10 :: (lines.flatMap (fun line => 32 :: line ++ [10]) ++ vs.flatMap (valueText key))) rfl
      have htext : (v :: vs).flatMap (valueText key) = key ++ 32 :: v.1 ++ [10] ++
          32 :: (line ++ 10 :: (lines.flatMap (fun line => 32 :: line ++ [10]) ++ vs.flatMap (valueText key))) := by
        simp [valueText, hv]
      rw [htext]
      exact ⟨r', hfirst.append (.cons hspace' hrest), hstate⟩

lemma reads_headers_multiline (hkeys : ∀ h ∈ headers, h.1 ≠ [] ∧ (32 : UInt8) ∉ h.1 ∧ (10 : UInt8) ∉ h.1)
    (hlines : ∀ h ∈ headers, ∀ v ∈ h.2, (10 : UInt8) ∉ v.1) (hmore : ∃ h ∈ headers, ∃ v ∈ h.2, v.2 ≠ []) :
    ∃ r', Reads ⟨.START, [], k, data⟩ (headersText headers) r' ∧ r'.state = .MULTILINE_VAL := by
  induction headers generalizing k data with
  | nil =>
    obtain ⟨h, hh, -⟩ := hmore
    cases hh
  | cons header headers ih =>
    obtain ⟨key, vs⟩ := header
    rw [List.forall_mem_cons] at hkeys hlines
    obtain ⟨⟨hne, hspace, hkey⟩, hkeys⟩ := hkeys
    by_cases hfirst : ∃ v ∈ vs, v.2 ≠ []
    · obtain ⟨r₁, hreads, hstate⟩ := @reads_values_multiline key k data vs hne hspace hkey hlines.1 hfirst
      obtain ⟨r₂, hrest, hstate'⟩ := exists_reads_multiline (headersText headers) hstate
      exact ⟨r₂, hreads.append hrest, hstate'⟩
    · have hplain : ∀ v ∈ vs, v.2 = [] := fun v hv => by_contra fun hne => hfirst ⟨v, hv, hne⟩
      obtain ⟨k', data', hreads⟩ := @reads_values_single key k data vs hne hspace hkey hlines.1 hplain
      have hmore' : ∃ h ∈ headers, ∃ v ∈ h.2, v.2 ≠ [] := by
        obtain ⟨h, hh, hv⟩ := hmore
        rcases List.mem_cons.1 hh with rfl | hh
        · exact absurd hv hfirst
        · exact ⟨h, hh, hv⟩
      obtain ⟨r', hrest, hstate⟩ := @ih k' data' hkeys hlines.2 hmore'
      exact ⟨r', hreads.append hrest, hstate⟩

/-! ## Line feeds -/

lemma count_escape (v : Bytes) : (v.flatMap fun ch => if ch ≠ 10 then [ch] else [10, 32]).count 10 = v.count 10 := by
  induction v with
  | nil => rfl
  | cons ch v ih =>
    rw [List.flatMap_cons, List.count_append, ih, List.count_cons]
    by_cases h : ch = 10
    · simp [h, Nat.add_comm]
    · simp [h]

lemma count_printValue (h : (10 : UInt8) ∉ key) (v : Bytes) :
    (GitCommit.printValue key v).count 10 = v.count 10 + 1 := by
  rw [GitCommit.printValue, List.count_append, List.count_append, List.count_cons, count_escape,
    List.count_eq_zero.2 h]
  simp

lemma count_printHeaders_alter (hne : key ≠ [])
    (h : ((f ((data.lookup key).getD [])).flatMap (GitCommit.printValue key)).count 10 =
      (((data.lookup key).getD []).flatMap (GitCommit.printValue key)).count 10 + n) :
    (GitCommit.printHeaders (alter key f data)).count 10 = (GitCommit.printHeaders data).count 10 + n := by
  induction data with
  | nil =>
    have hprint : GitCommit.printHeaders (alter key f []) = (f []).flatMap (GitCommit.printValue key) := by
      rw [alter, GitCommit.printHeaders, List.flatMap_singleton, if_pos hne]
    rw [hprint]
    exact h
  | cons header data ih =>
    obtain ⟨k, vs⟩ := header
    rw [alter]
    by_cases hk : k = key
    · subst hk
      rw [List.lookup_cons_self, Option.getD_some] at h
      rw [if_pos rfl, GitCommit.printHeaders, GitCommit.printHeaders, List.flatMap_cons, List.flatMap_cons,
        if_pos hne, if_pos hne, List.count_append, List.count_append, h]
      dsimp only
      omega
    · have hbeq : (key == k) = false := beq_eq_false_iff_ne.2 (Ne.symm hk)
      rw [List.lookup_cons, hbeq] at h
      have ih := ih h
      rw [GitCommit.printHeaders, GitCommit.printHeaders] at ih
      rw [if_neg hk, GitCommit.printHeaders, GitCommit.printHeaders, List.flatMap_cons, List.flatMap_cons,
        List.count_append, List.count_append, ih, Nat.add_assoc]

lemma count_extendBack (hkey : (10 : UInt8) ∉ key) (hline : (10 : UInt8) ∉ line) (hne : values ≠ []) :
    ((extendBack (10 :: line) values).flatMap (GitCommit.printValue key)).count 10 =
      (values.flatMap (GitCommit.printValue key)).count 10 + 1 := by
  induction values with
  | nil => exact absurd rfl hne
  | cons value values ih =>
    cases values with
    | nil =>
      rw [extendBack, List.flatMap_singleton, List.flatMap_singleton, count_printValue hkey, count_printValue hkey,
        List.count_append, List.count_cons_self, List.count_eq_zero.2 hline]
    | cons value' values =>
      rw [extendBack, List.flatMap_cons, List.flatMap_cons, List.count_append, List.count_append,
        ih (List.cons_ne_nil _ _), Nat.add_assoc]
      · exact List.cons_ne_nil _ _

lemma extendBack_ne_nil (h : values ≠ []) (t : Bytes) : extendBack t values ≠ [] := by
  cases values with
  | nil => exact absurd rfl h
  | cons value values => cases values <;> exact List.cons_ne_nil _ _

/-- What is known of the reader before the message: the line feeds that were read are those that will be printed. -/
structure Counted (t : Bytes) (r : Reader) : Prop where
  acc : (10 : UInt8) ∉ r.acc
  count : t.count 10 = (GitCommit.printHeaders r.data).count 10
  key : r.state = .KEY_DONE → r.key ≠ [] ∧ (10 : UInt8) ∉ r.key
  last : r.state = .MULTILINE_VAL ∨ r.state = .START ∧ r.data ≠ [] →
    r.key ≠ [] ∧ (10 : UInt8) ∉ r.key ∧ (r.data.lookup r.key).getD [] ≠ []

lemma counted_start : Counted [] Reader.start := by
  refine ⟨List.not_mem_nil, rfl, (fun h => by cases h), ?_⟩
  rintro (h | ⟨-, h⟩)
  · cases h
  · exact absurd rfl h

/-- A character that is not a line feed. -/
lemma Counted.feed_other (h : Counted t r) (hch : ch ≠ 10) (hfeed : r.feed ch = some r') : Counted (t ++ [ch]) r' := by
  have hcount : (t ++ [ch]).count 10 = t.count 10 := by
    rw [List.count_append, List.count_singleton, if_neg (by simpa using hch), Nat.add_zero]
  rw [Reader.feed] at hfeed
  split at hfeed
  · obtain rfl := Option.some.inj hfeed
    refine ⟨?_, hcount.trans h.count, h.key, h.last⟩
    simpa [List.mem_append, Ne.symm hch] using h.acc
  · rename_i hsep
    rw [not_or, not_or] at hsep
    have hspace : ch = 32 := by_contra fun hne => hsep.2.1 ⟨hne, hch⟩
    have hstate : r.state = .START := by_contra fun hne => hsep.2.2 ⟨hspace, hne⟩
    rw [if_pos hspace] at hfeed
    split at hfeed
    · rename_i hacc
      obtain rfl := Option.some.inj hfeed
      exact ⟨List.not_mem_nil, hcount.trans h.count, fun _ => ⟨hacc, h.acc⟩, by simp⟩
    · split at hfeed
      · rename_i hdata
        obtain rfl := Option.some.inj hfeed
        exact ⟨h.acc, hcount.trans h.count, by simp, fun _ => h.last (Or.inr ⟨hstate, hdata⟩)⟩
      · cases hfeed

/-- A line feed that is not the empty line. -/
lemma Counted.feed_newline (h : Counted t r) (hfeed : r.feed 10 = some r') (hstate : r'.state ≠ .BODY_START) :
    Counted (t ++ [10]) r' := by
  have hcount : (t ++ [10]).count 10 = t.count 10 + 1 := by simp
  obtain ⟨state, acc, key, data⟩ := r
  cases state with
  | START | BODY_START =>
    obtain rfl := Option.some.inj hfeed
    exact absurd rfl hstate
  | KEY_DONE =>
    obtain rfl := Option.some.inj hfeed
    obtain ⟨hne, hkey⟩ := h.key rfl
    refine ⟨List.not_mem_nil, ?_, (fun h => by cases h), fun _ => ⟨hne, hkey, ?_⟩⟩
    · rw [hcount, h.count]
      refine (count_printHeaders_alter hne ?_).symm
      rw [List.flatMap_append, List.count_append, List.flatMap_singleton, count_printValue hkey,
        List.count_eq_zero.2 h.acc]
    · rw [lookup_alter]
      exact List.append_ne_nil_of_right_ne_nil _ (List.cons_ne_nil _ _)
  | MULTILINE_VAL =>
    obtain rfl := Option.some.inj hfeed
    obtain ⟨hne, hkey, hvalues⟩ := h.last (Or.inl rfl)
    refine ⟨h.acc, ?_, (fun h => by cases h), fun _ => ⟨hne, hkey, ?_⟩⟩
    · rw [hcount, h.count]
      exact (count_printHeaders_alter hne (count_extendBack hkey h.acc hvalues)).symm
    · rw [lookup_alter]
      exact extendBack_ne_nil hvalues _

lemma state_of_reads_body (h : Reads r t r') (hstate : r.state = .BODY_START) : r'.state = .BODY_START := by
  have hplain := reads_plain (r := r) (t := t) fun ch _ => Or.inl hstate
  obtain rfl := Option.some.inj (h.symm.trans hplain)
  exact hstate

theorem Counted.reads (h : Counted t r) (hreads : Reads r t' r') (hstate : r'.state ≠ .BODY_START) :
    Counted (t ++ t') r' := by
  induction t' generalizing t r with
  | nil =>
    obtain rfl := Option.some.inj hreads
    rwa [List.append_nil]
  | cons ch t' ih =>
    obtain ⟨r₁, hfeed, hrest⟩ := Option.bind_eq_some_iff.1 hreads
    have hstate₁ : r₁.state ≠ .BODY_START := fun hbody => hstate (state_of_reads_body hrest hbody)
    have hcounted : Counted (t ++ [ch]) r₁ := by
      by_cases hch : ch = 10
      · subst hch
        exact h.feed_newline hfeed hstate₁
      · exact h.feed_other hch hfeed
    have hall := ih hcounted hrest
    rwa [List.append_assoc, List.singleton_append] at hall

/-! ## All texts -/

namespace ObjectText

variable {o : ObjectText} {now : Int} {sha fmt : Bytes}

/-- A text with a value of more lines is not printed as it was read. -/
theorem not_restored_of_not_plain (h : ¬ o.Plain) : ¬ o.Restored now sha fmt := by
  rintro ⟨c, hc, hserialize⟩
  have hmore : ∃ h ∈ o.headers, ∃ v ∈ h.2, v.2 ≠ [] := by
    simpa [Plain] using h
  obtain ⟨r, hreads, hstate⟩ := @reads_headers_multiline [] [] o.headers o.keys
    (fun h hh v hv => (o.lines h hh v hv).1) hmore
  obtain ⟨r', hrest, hstate'⟩ := exists_reads_multiline (10 :: o.message) hstate
  have hread : Reads Reader.start o.raw r' := hreads.append hrest
  have hcounted := counted_start.reads hread (by rw [hstate']; decide)
  rw [deserialize_eq_some hread hc] at hserialize
  have hcount := congrArg (List.count 10) (Option.some.inj hserialize)
  rw [List.nil_append] at hcounted
  rw [hcounted.count, List.count_append, List.count_cons_self] at hcount
  omega

/-- A text is printed as it was read exactly if its values have one line each, its message does not end in a line feed
and the time of its committer is read. -/
theorem restored_iff (o : ObjectText) (now : Int) (sha fmt : Bytes) :
    o.Restored now sha fmt ↔ o.Plain ∧ o.message.getLast? ≠ some 10 ∧ o.Timed := by
  by_cases h : o.Plain
  · rw [restored_iff_of_plain h]
    exact (and_iff_right h).symm
  · exact iff_of_false (not_restored_of_not_plain h) fun hall => h hall.1

section Message

/-- A commit with a message of one line. -/
def oneLine : ObjectText where
  headers := [(ascii "tree", [(ascii "4b825dc642cb6eb9a060e54bf8d69288fbee4904", [])])]
  message := ascii "m\n"
  keys := by decide
  values := by decide
  lines := by decide
  nodup := by decide

/-- The line feed at the end of the message is lost. -/
theorem not_restored_oneLine : ¬ ∀ (o : ObjectText) (now : Int) (sha fmt : Bytes), o.Restored now sha fmt := by
  intro h
  have hplain : oneLine.Plain := by
    rw [Plain]
    decide
  exact absurd ((restored_iff_of_plain hplain).1 (h oneLine 0 [] (ascii "commit"))).1 (by decide)

end Message

end ObjectText

end CppExperiments.Cgit

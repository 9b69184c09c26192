import CppExperiments.Lib.Calls
import CppExperiments.Lib.InsertionOrder
import CppExperiments.Lib.Text
import CppExperiments.Lib.Trimming

/-!
# INI files

The parser's sections in their order, how they are read from a text and how they are written.
-/

namespace CppExperiments.Ini

open InsertionOrder

/-- Keys, in lower case, and values. -/
abbrev Section := List (Bytes × Bytes)

/-- The names of the sections, as they are written, and the sections. -/
abbrev Parser := List (Bytes × Section)

/-! ## Sections and keys -/

/-- No line feed, no carriage return and no backspace. -/
def validateKey (key : Bytes) : Bool := key.all fun ch => !(ch == 10 || ch == 13 || ch == 8)

/-- `operator[]`, and what is done with the value there. -/
def change {ν : Type} [Inhabited ν] (data : List (Bytes × ν)) (key : Bytes) (f : ν → ν) :
    Except Bytes (List (Bytes × ν)) :=
  if validateKey key = false then .error (ascii "Key contains unsupported characters.")
  else .ok (InsertionOrder.set data key (f ((InsertionOrder.find data key).getD default)))

namespace Section

def change (s : Section) (key : Bytes) (f : Bytes → Bytes) : Except Bytes Section := Ini.change s (lower key) f

def hasKey (s : Section) (key : Bytes) : Bool := (InsertionOrder.find s (lower key)).isSome

end Section

namespace Parser

def hasSection (p : Parser) (sectionName : Bytes) : Bool := (InsertionOrder.find p sectionName).isSome

def hasKey (p : Parser) (sectionName key : Bytes) :
    Bool := ((InsertionOrder.find p sectionName).map fun s => s.hasKey key).getD false

end Parser

/-! ## Lines -/

def findFirstMatch (str : Bytes) (func : UInt8 → Bool) : Option Nat := str.findIdx? func

def trim (str : Bytes) : Bytes :=
  let str := str.rdropWhile isSpace
  match findFirstMatch str fun ch => !isSpace ch with
  | some firstNonSpacePos => str.drop firstNonSpacePos
  | none => []

def extractKV (line : Bytes) (splitPos : Nat) :
    Bytes × Bytes := (trim (line.take splitPos), trim (line.drop (splitPos + 1)))

/-- The variables of `reads`. -/
structure Reading where
  data : Parser
  currSectionName : Bytes
  prevKey : Bytes
  line : Bytes
  prevFirstNonSpace : Nat
  emptyLines : Nat
  lineNo : Nat

namespace Reading

/-- The line goes on with the value of the key before. -/
def continueValue (s : Reading) (line : Bytes) : Except Bytes Reading := do
  let changed ← Section.change ((InsertionOrder.find s.data s.currSectionName).getD []) s.prevKey fun value =>
    value ++ (List.replicate (s.emptyLines + 1) 10 ++ line)
  .ok { s with data := InsertionOrder.set s.data s.currSectionName changed }

def startSection (ignoreDuplicates : Bool) (s : Reading) (line : Bytes) : Except Bytes Reading := do
  let currSectionName := (line.drop 1).take (line.length - 2)
  if s.data.hasSection currSectionName = true ∧ ignoreDuplicates = false then
    .error (ascii "Line #: " ++ decimal s.lineNo ++ ascii ": Section '" ++ currSectionName ++ ascii "' already exists.")
  else
    let data ← change s.data currSectionName fun _ => []
    .ok { s with data := data, currSectionName := currSectionName, prevKey := [], prevFirstNonSpace := 0 }

def readOption (ignoreDuplicates : Bool) (s : Reading) (line : Bytes) (firstNonSpace firstKVSeperator : Nat) :
    Except Bytes Reading := do
  let (prevKey, value) := extractKV line firstKVSeperator
  if s.data.hasKey s.currSectionName prevKey = true ∧ ignoreDuplicates = false then
    .error (ascii "Line #: " ++ decimal s.lineNo ++ ascii ": Option '" ++ prevKey ++ ascii "' in section '" ++
      s.currSectionName ++ ascii "' already exists.")
  else
    let changed ← Section.change ((InsertionOrder.find s.data s.currSectionName).getD []) prevKey fun _ => value
    let data ← change s.data s.currSectionName fun _ => changed
    .ok { s with data := data, prevKey := prevKey, prevFirstNonSpace := firstNonSpace }

/-- A line that is neither blank nor a comment. -/
def readContent (ignoreDuplicates : Bool) (s : Reading) (firstNonSpace : Nat) : Except Bytes Reading :=
  let line := trim s.line
  if s.prevFirstNonSpace < firstNonSpace ∧ s.data.hasKey s.currSectionName s.prevKey = true then s.continueValue line
  else if 3 ≤ line.length ∧ line.head? = some 91 ∧ line.getLast? = some 93 then s.startSection ignoreDuplicates line
  else
    match findFirstMatch line fun ch => ch == 58 || ch == 61 with
    | some firstKVSeperator =>
      if 0 < firstKVSeperator then s.readOption ignoreDuplicates line firstNonSpace firstKVSeperator
      else .error (ascii "Line #: " ++ decimal s.lineNo ++ ascii " Error parsing line: " ++ line)
    | none => .error (ascii "Line #: " ++ decimal s.lineNo ++ ascii " Error parsing line: " ++ line)

def isComment (line : Bytes) (firstNonSpace : Nat) :
    Bool := (line.drop firstNonSpace).head? == some 59 || (line.drop firstNonSpace).head? == some 35

/-- The line is complete. -/
def readLine (ignoreDuplicates : Bool) (s : Reading) : Except Bytes Reading :=
  match findFirstMatch s.line fun ch => !isSpace ch with
  | none => .ok { s with emptyLines := s.emptyLines + 1 }
  | some firstNonSpace =>
    if isComment s.line firstNonSpace = true then .ok s
    else do
      let s ← s.readContent ignoreDuplicates firstNonSpace
      .ok { s with emptyLines := 0 }

def readChar (ignoreDuplicates : Bool) (s : Reading) (ch : UInt8) : Except Bytes Reading :=
  if ch = 10 then do
    let s ← s.readLine ignoreDuplicates
    .ok { s with line := [], lineNo := s.lineNo + 1 }
  else .ok { s with line := s.line ++ [ch] }

end Reading

namespace Parser

def start (p : Parser) : Reading where
  data := p
  currSectionName := []
  prevKey := []
  line := []
  prevFirstNonSpace := 0
  emptyLines := 0
  lineNo := 1

/-- What stands behind the last line feed is not read. -/
def reads (p : Parser) (raw : Bytes) (ignoreDuplicates : Bool) : Except Bytes Parser := do
  let s ← raw.foldlM (Reading.readChar ignoreDuplicates) p.start
  .ok s.data

def dumpValue (value : Bytes) : Bytes := value.flatMap fun ch => if ch = 10 then [ch, 9] else [ch]

def dumpOption (o : Bytes × Bytes) : Bytes := o.1 ++ ascii " = " ++ dumpValue o.2 ++ [10]

def dumpSection (s : Bytes × Section) : Bytes := [91] ++ s.1 ++ [93] ++ [10] ++ s.2.flatMap dumpOption ++ [10]

def dumps (p : Parser) : Bytes := p.flatMap dumpSection

end Parser

end CppExperiments.Ini

/-!
## What is read of INI files

The sections, keys and values of every parser that has read its texts.
-/

namespace CppExperiments.Ini

open InsertionOrder

/-- The first character is none of a comment. -/
def Uncommented (l : Bytes) : Prop := l.head? ≠ some 59 ∧ l.head? ≠ some 35

structure Key (key : Bytes) : Prop where
  lower : lower key = key
  ne_nil : key ≠ []
  trimmed : Trimmed isSpace key
  seperators : ∀ ch ∈ key, ch ≠ 58 ∧ ch ≠ 61
  valid : validateKey key = true
  uncommented : Uncommented key

/-- A line of a value behind the first one. -/
structure Continuation (line : Bytes) : Prop where
  ne_nil : line ≠ []
  trimmed : Trimmed isSpace line
  text : 10 ∉ line
  uncommented : Uncommented line

/-- The part of a value in the line of its key: with the key it does not look like a section. -/
structure FirstLine (key line : Bytes) : Prop where
  trimmed : Trimmed isSpace line
  text : 10 ∉ line
  bracket : ¬ (key.head? = some 91 ∧ line.getLast? = some 93)

/-- A first line, and lines behind it with empty ones between them. -/
inductive Lines (first : Bytes) : Bytes → Prop where
  | first : Lines first first
  | more {value line : Bytes} (h : Lines first value) (emptyLines : Nat) (hline : Continuation line) :
    Lines first (value ++ (List.replicate (emptyLines + 1) 10 ++ line))

/-- A key and its value. -/
structure Entry (o : Bytes × Bytes) : Prop where
  key : Key o.1
  value : ∃ first, FirstLine o.1 first ∧ Lines first o.2

namespace Section

structure WellFormed (s : Section) : Prop where
  distinct : Distinct s
  entries : ∀ o ∈ s, Entry o

end Section

namespace Parser

structure WellFormed (p : Parser) : Prop where
  distinct : Distinct p
  names : ∀ s ∈ p, validateKey s.1 = true
  sections : ∀ s ∈ p, Section.WellFormed s.2

/-- It has read texts, one after another. -/
def Reached (p : Parser) : Prop :=
  ∃ calls : List (Bytes × Bool), calls.foldlM (fun p call => reads p call.1 call.2) [] = .ok p

end Parser

variable {p : Parser} {s s' : Reading} {o : Bytes × Bytes} {key line name raw str value : Bytes} {sec : Section}
  {ignoreDuplicates : Bool} {firstNonSpace firstKVSeperator : Nat}

/-! ## Trimming -/

lemma trim_eq (str : Bytes) : trim str = trimBy isSpace str := by
  rw [trim, trimBy, findFirstMatch]
  cases hfind : (str.rdropWhile isSpace).findIdx? fun ch => !isSpace ch with
  | none =>
    have hall := List.findIdx?_eq_none_iff.1 hfind
    refine (List.dropWhile_eq_nil_iff.2 fun ch hch => ?_).symm
    simpa using hall ch hch
  | some i =>
    obtain ⟨l₁, ch, l₂, heq, rfl, hbefore, hch⟩ := exists_of_findIdx? hfind
    rw [heq]
    dsimp only
    rw [List.drop_left, List.dropWhile_append_of_pos fun b hb => by
      simpa using hbefore b hb, List.dropWhile_cons_of_neg (by simpa using hch)]

lemma toNat_toLower {b : UInt8} (h : 65 ≤ b ∧ b ≤ 90) : (toLower b).toNat = b.toNat + 32 := by
  have hle : b.toNat ≤ 90 := h.2
  rw [toLower, if_pos h, UInt8.toNat_add, Nat.mod_eq_of_lt]
  · rfl
  · exact Nat.lt_of_le_of_lt (Nat.add_le_add_right hle _) (by decide)

lemma isSpace_toLower (b : UInt8) : isSpace (toLower b) = isSpace b := by
  by_cases hupper : 65 ≤ b ∧ b ≤ 90
  · have hnot : ∀ c : UInt8, 65 ≤ c.toNat → isSpace c = false := fun c hc => by
      refine Bool.eq_false_iff.2 fun h => ?_
      rw [isSpace, Bool.or_eq_true, beq_iff_eq, decide_eq_true_iff] at h
      rcases h with rfl | ⟨-, hle⟩
      · exact absurd hc (by decide)
      · exact absurd (Nat.le_trans hc hle) (by decide)
    have hle : 65 ≤ b.toNat := hupper.1
    rw [hnot b hle, hnot (toLower b) (by rw [toNat_toLower hupper]; omega)]
  · rw [toLower, if_neg hupper]

/-- What is no letter is left, and nothing becomes it. -/
lemma toLower_eq_iff {b c : UInt8} (hc : c < 65 ∨ 90 < c ∧ c < 97) : toLower b = c ↔ b = c := by
  by_cases hupper : 65 ≤ b ∧ b ≤ 90
  · have hnat := toNat_toLower hupper
    have hle : 65 ≤ b.toNat := hupper.1
    have hle' : b.toNat ≤ 90 := hupper.2
    have hc : c.toNat < 65 ∨ 90 < c.toNat ∧ c.toNat < 97 := hc
    refine iff_of_false (fun h => ?_) (fun h => ?_)
    · rw [h] at hnat
      omega
    · rw [h] at hle hle'
      omega
  · rw [toLower, if_neg hupper]

lemma toLower_toLower (b : UInt8) : toLower (toLower b) = toLower b := by
  by_cases hupper : 65 ≤ b ∧ b ≤ 90
  · have hnat := toNat_toLower hupper
    have hle : 65 ≤ b.toNat := hupper.1
    rw [toLower, if_neg]
    rintro ⟨-, h⟩
    have h : (toLower b).toNat ≤ 90 := h
    omega
  · have hsame : toLower b = b := by rw [toLower, if_neg hupper]
    rw [hsame, hsame]

lemma lower_lower (key : Bytes) : lower (lower key) = lower key := by
  rw [lower, lower, List.map_map]
  exact List.map_congr_left fun b _ => toLower_toLower b

lemma trimmed_lower (h : Trimmed isSpace key) : Trimmed isSpace (lower key) := by
  constructor
  · intro a ha
    rw [lower, List.head?_map] at ha
    obtain ⟨b, hb, rfl⟩ := Option.map_eq_some_iff.1 ha
    rw [isSpace_toLower]
    exact h.head b hb
  · intro a ha
    rw [lower, List.getLast?_map] at ha
    obtain ⟨b, hb, rfl⟩ := Option.map_eq_some_iff.1 ha
    rw [isSpace_toLower]
    exact h.last b hb

lemma head?_lower_eq_iff {c : UInt8} (hc : c < 65 ∨ 90 < c ∧ c < 97) :
    (lower key).head? = some c ↔ key.head? = some c := by
  rw [lower, List.head?_map]
  cases key.head? with
  | none => exact iff_of_false nofun nofun
  | some b =>
    rw [Option.map_some, Option.some_inj, Option.some_inj]
    exact toLower_eq_iff hc

/-! ## Changes -/

lemma change_eq_ok {ν : Type} [Inhabited ν] {data data' : List (Bytes × ν)} {f : ν → ν}
    (h : change data key f = .ok data') :
    validateKey key = true ∧ data' = InsertionOrder.set data key (f ((InsertionOrder.find data key).getD default)) := by
  rw [change] at h
  by_cases hvalid : validateKey key = false
  · rw [if_pos hvalid] at h
    exact absurd h nofun
  · rw [if_neg hvalid] at h
    exact ⟨Bool.not_eq_false _ ▸ hvalid, (Except.ok.inj h).symm⟩

lemma change_of_valid {ν : Type} [Inhabited ν] (data : List (Bytes × ν)) (f : ν → ν) (h : validateKey key = true) :
    change data key f = .ok (InsertionOrder.set data key (f ((InsertionOrder.find data key).getD default))) :=
  if_neg (by rw [h]; decide)

lemma Section.WellFormed.set (h : sec.WellFormed) (ho : Entry o) :
    Section.WellFormed (InsertionOrder.set sec o.1 o.2) where
  distinct := h.distinct.set o.1 o.2
  entries o' ho' := by
    rcases mem_of_mem_set ho' with hmem | rfl
    · exact h.entries o' hmem
    · exact ho

lemma Section.WellFormed.nil : Section.WellFormed [] := ⟨List.nodup_nil, nofun⟩

lemma Parser.WellFormed.set (h : p.WellFormed) (hname : validateKey name = true) (hsec : sec.WellFormed) :
    Parser.WellFormed (InsertionOrder.set p name sec) where
  distinct := h.distinct.set name sec
  names s hs := by
    rcases mem_of_mem_set hs with hmem | rfl
    · exact h.names s hmem
    · exact hname
  sections s hs := by
    rcases mem_of_mem_set hs with hmem | rfl
    · exact h.sections s hmem
    · exact hsec

lemma Parser.WellFormed.find (h : p.WellFormed) (name : Bytes) :
    Section.WellFormed ((InsertionOrder.find p name).getD []) := by
  cases hfind : InsertionOrder.find p name with
  | none => exact .nil
  | some sec => exact h.sections (name, sec) (mem_of_find hfind)

/-! ## Lines -/

/-- A line that is neither blank nor a comment. -/
lemma continuation_trim (h : findFirstMatch line (fun ch => !isSpace ch) = some firstNonSpace)
    (hcomment : ¬ Reading.isComment line firstNonSpace = true) (htext : 10 ∉ line) : Continuation (trim line) := by
  obtain ⟨l₁, ch, l₂, rfl, rfl, hbefore, hch⟩ := exists_of_findIdx? h
  have hspace : isSpace ch = false := by simpa using hch
  have hbefore : ∀ b ∈ l₁, isSpace b = true := fun b hb => by simpa using hbefore b hb
  have heq : trim (l₁ ++ ch :: l₂) = ch :: l₂.rdropWhile isSpace :=
    (trim_eq _).trans (trimBy_append_cons hbefore hspace)
  rw [Reading.isComment, List.drop_left, List.head?_cons, Bool.or_eq_true, beq_iff_eq,
    beq_iff_eq, not_or] at hcomment
  refine ⟨?_, ?_, fun hmem => htext ?_, ?_⟩
  · rw [heq]
    exact List.cons_ne_nil _ _
  · rw [trim_eq]
    exact Trimmed.of_trimBy isSpace _
  · rw [trim_eq] at hmem
    exact mem_of_mem_trimBy hmem
  · rw [heq]
    exact hcomment

/-- A key and the first line of its value. -/
lemma entry_extractKV (hline : Continuation line) (hfind : findFirstMatch line (fun ch => ch == 58 || ch == 61) =
    some firstKVSeperator)
    (hpos : 0 < firstKVSeperator) (hsection : ¬ (3 ≤ line.length ∧ line.head? = some 91 ∧ line.getLast? = some 93))
    (hvalid : validateKey (lower (extractKV line firstKVSeperator).1) = true) :
    Entry (lower (extractKV line firstKVSeperator).1, (extractKV line firstKVSeperator).2) := by
  obtain ⟨l₁, ch, l₂, rfl, rfl, hbefore, hch⟩ := exists_of_findIdx? hfind
  obtain ⟨a, l₁, rfl⟩ := List.exists_cons_of_length_pos hpos
  have hkv : extractKV (a :: l₁ ++ ch :: l₂) (a :: l₁).length = (trimBy isSpace (a :: l₁), trimBy isSpace l₂) := by
    rw [extractKV, List.take_left, trim_eq, trim_eq, List.append_cons,
      List.drop_left' (by rw [List.length_append, List.length_singleton])]
  rw [hkv] at hvalid ⊢
  dsimp only at hvalid ⊢
  have ha : isSpace a = false := hline.trimmed.head a rfl
  have hkey : trimBy isSpace (a :: l₁) = a :: l₁.rdropWhile isSpace := trimBy_append_cons (List.forall_mem_nil _) ha
  have hne : ∀ b ∈ a :: l₁, b ≠ 58 ∧ b ≠ 61 := fun b hb => by
    have hb := hbefore b hb
    rwa [Bool.or_eq_false_iff, beq_eq_false_iff_ne, beq_eq_false_iff_ne] at hb
  refine ⟨⟨lower_lower _, ?_, trimmed_lower (Trimmed.of_trimBy isSpace _), fun b hb => ?_, hvalid, ?_⟩,
    _, ⟨Trimmed.of_trimBy isSpace _, fun hmem => ?_, ?_⟩, .first⟩
  · rw [hkey]
    exact List.cons_ne_nil _ _
  · obtain ⟨c, hc, rfl⟩ := List.mem_map.1 hb
    obtain ⟨hcolon, hequals⟩ := hne c (mem_of_mem_trimBy hc)
    exact ⟨fun heq => hcolon ((toLower_eq_iff (by decide)).1 heq),
      fun heq => hequals ((toLower_eq_iff (by decide)).1 heq)⟩
  · have huncommented := hline.uncommented
    rw [Uncommented, Ne, Ne, head?_lower_eq_iff (c := 59) (by decide), head?_lower_eq_iff (c := 35) (by decide), hkey]
    exact huncommented
  · exact hline.text (List.mem_append_right _ (List.mem_cons_of_mem ch (mem_of_mem_trimBy hmem)))
  · rintro ⟨hhead, hlast⟩
    rw [head?_lower_eq_iff (by decide), hkey] at hhead
    cases l₂ using List.reverseRecOn with
    | nil => exact absurd hlast (by decide)
    | append_singleton l₂ e =>
      have hend : (a :: l₁ ++ ch :: (l₂ ++ [e])).getLast? = some e := by
        rw [← List.cons_append, ← List.append_assoc, List.getLast?_concat]
      have he : isSpace e = false := hline.trimmed.last e hend
      rw [trimBy_concat he, List.getLast?_concat] at hlast
      refine hsection ⟨?_, hhead, hend.trans hlast⟩
      rw [List.length_append, List.length_cons, List.length_cons, List.length_append, List.length_singleton]
      omega

namespace Reading

/-- The parser is well-formed, and there is no line feed in the line. -/
structure Fine (s : Reading) : Prop where
  data : s.data.WellFormed
  line : 10 ∉ s.line

lemma wellFormed_continueValue (h : s.data.WellFormed) (hline : Continuation line)
    (hkey : s.data.hasKey s.currSectionName s.prevKey = true) (heq : s.continueValue line = .ok s') :
    s'.data.WellFormed ∧ s'.line = s.line := by
  obtain ⟨changed, hchange, heq⟩ := bind_eq_ok heq
  obtain rfl := Except.ok.inj heq
  obtain ⟨-, rfl⟩ := change_eq_ok hchange
  rw [Parser.hasKey] at hkey
  cases hfind : InsertionOrder.find s.data s.currSectionName with
  | none =>
    rw [hfind] at hkey
    exact Bool.noConfusion hkey
  | some sec =>
    rw [hfind, Option.map_some, Option.getD_some, Section.hasKey] at hkey
    obtain ⟨value, hvalue⟩ := Option.isSome_iff_exists.1 hkey
    have hmem := mem_of_find hfind
    have hsec := h.sections _ hmem
    obtain ⟨hentry, first, hfirst, hlines⟩ := hsec.entries _ (mem_of_find hvalue)
    rw [Option.getD_some, hvalue, Option.getD_some]
    exact ⟨h.set (h.names _ hmem) (hsec.set (o := (lower s.prevKey, _))
      ⟨hentry, first, hfirst, hlines.more s.emptyLines hline⟩), rfl⟩

lemma wellFormed_startSection (h : s.data.WellFormed) (heq : s.startSection ignoreDuplicates line = .ok s') :
    s'.data.WellFormed ∧ s'.line = s.line := by
  rw [startSection] at heq
  split at heq
  · exact absurd heq nofun
  · obtain ⟨data, hchange, heq⟩ := bind_eq_ok heq
    obtain rfl := Except.ok.inj heq
    obtain ⟨hvalid, rfl⟩ := change_eq_ok hchange
    exact ⟨h.set hvalid .nil, rfl⟩

lemma wellFormed_readOption (h : s.data.WellFormed) (hline : Continuation line)
    (hfind : findFirstMatch line (fun ch => ch == 58 || ch == 61) = some firstKVSeperator) (hpos : 0 < firstKVSeperator)
    (hsection : ¬ (3 ≤ line.length ∧ line.head? = some 91 ∧ line.getLast? = some 93))
    (heq : s.readOption ignoreDuplicates line firstNonSpace firstKVSeperator = .ok s') :
    s'.data.WellFormed ∧ s'.line = s.line := by
  rw [readOption] at heq
  dsimp only at heq
  split at heq
  · exact absurd heq nofun
  · obtain ⟨changed, hchanged, heq⟩ := bind_eq_ok heq
    obtain ⟨data, hchange, heq⟩ := bind_eq_ok heq
    obtain rfl := Except.ok.inj heq
    obtain ⟨hvalid, rfl⟩ := change_eq_ok hchange
    obtain ⟨hkey, rfl⟩ := change_eq_ok hchanged
    exact ⟨h.set hvalid ((h.find _).set (entry_extractKV hline hfind hpos hsection hkey)), rfl⟩

lemma wellFormed_readContent (h : s.data.WellFormed) (hline : Continuation (trim s.line))
    (heq : s.readContent ignoreDuplicates firstNonSpace = .ok s') : s'.data.WellFormed ∧ s'.line = s.line := by
  rw [readContent] at heq
  by_cases hcontinued : s.prevFirstNonSpace < firstNonSpace ∧ s.data.hasKey s.currSectionName s.prevKey = true
  · rw [if_pos hcontinued] at heq
    exact wellFormed_continueValue h hline hcontinued.2 heq
  · rw [if_neg hcontinued] at heq
    by_cases hsection : 3 ≤ (trim s.line).length ∧ (trim s.line).head? = some 91 ∧ (trim s.line).getLast? = some 93
    · rw [if_pos hsection] at heq
      exact wellFormed_startSection h heq
    · rw [if_neg hsection] at heq
      cases hfind : findFirstMatch (trim s.line) fun ch => ch == 58 || ch == 61 with
      | none =>
        rw [hfind] at heq
        exact absurd heq nofun
      | some firstKVSeperator =>
        rw [hfind] at heq
        dsimp only at heq
        split at heq
        · exact wellFormed_readOption h hline hfind ‹_› hsection heq
        · exact absurd heq nofun

lemma Fine.readLine (h : s.Fine) (heq : s.readLine ignoreDuplicates = .ok s') : s'.data.WellFormed := by
  rw [Reading.readLine] at heq
  cases hfind : findFirstMatch s.line fun ch => !isSpace ch with
  | none =>
    rw [hfind] at heq
    obtain rfl := Except.ok.inj heq
    exact h.data
  | some firstNonSpace =>
    rw [hfind] at heq
    dsimp only at heq
    by_cases hcomment : isComment s.line firstNonSpace = true
    · rw [if_pos hcomment] at heq
      obtain rfl := Except.ok.inj heq
      exact h.data
    · rw [if_neg hcomment] at heq
      obtain ⟨s₁, hcontent, heq⟩ := bind_eq_ok heq
      obtain rfl := Except.ok.inj heq
      exact (wellFormed_readContent h.data (continuation_trim hfind hcomment h.line) hcontent).1

lemma Fine.readChar (h : s.Fine) {ch : UInt8} (heq : s.readChar ignoreDuplicates ch = .ok s') : s'.Fine := by
  rw [Reading.readChar] at heq
  by_cases hch : ch = 10
  · rw [if_pos hch] at heq
    obtain ⟨s₁, hline, heq⟩ := bind_eq_ok heq
    obtain rfl := Except.ok.inj heq
    have hdata : s₁.data.WellFormed := h.readLine hline
    exact ⟨hdata, List.not_mem_nil⟩
  · rw [if_neg hch] at heq
    obtain rfl := Except.ok.inj heq
    refine ⟨h.data, fun hmem => ?_⟩
    rcases List.mem_append.1 hmem with hmem | hmem
    · exact h.line hmem
    · exact hch (List.mem_singleton.1 hmem).symm

end Reading

lemma Parser.WellFormed.reads (h : p.WellFormed) {p' : Parser} (heq : p.reads raw ignoreDuplicates = .ok p') :
    p'.WellFormed := by
  obtain ⟨s, hs, heq⟩ := bind_eq_ok heq
  obtain rfl := Except.ok.inj heq
  have hfine : s.Fine := foldlM_invariant (fun _ _ _ hs heq => hs.readChar heq) (⟨h, List.not_mem_nil⟩ : p.start.Fine)
    hs
  exact hfine.data

/-- Every parser that has read its texts is well-formed. -/
theorem Parser.Reached.wellFormed (h : p.Reached) : p.WellFormed := by
  obtain ⟨calls, hcalls⟩ := h
  have hempty : Parser.WellFormed [] := ⟨List.nodup_nil, List.forall_mem_nil _, List.forall_mem_nil _⟩
  exact foldlM_invariant (fun _ _ _ hp heq => Parser.WellFormed.reads hp heq) hempty hcalls

end CppExperiments.Ini

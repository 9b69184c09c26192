import CppExperiments.Lib.Fuel
import CppExperiments.Net.Completeness

/-!
# Responses put together from their chunks

A body of chunks is put together, and one that is cut off is read for ever.
-/

namespace CppExperiments.Net

/-! ## Reading from a string -/

/-- What is left of an `std::istringstream`. The mark of the end alone needs no field: `seekg` takes it away. -/
structure StringStream where
  rest : Bytes
  failed : Bool := false

/-- What is read as a number of 64 bits to the base 16: nothing but white space, no such number, or a number. -/
inductive Extracted where
  | blank
  | bad (value : Nat)
  | number (value : Nat) (rest : Bytes)

/-- The digits at the front of a text behind the sign and the base. -/
def extractedDigits (negative : Bool) (text : Bytes) : Extracted :=
  let digits := text.takeWhile isHexDigit
  if digits = [] then .bad 0
  else if 2 ^ 64 ≤ hexValue digits then .bad (2 ^ 64 - 1)
  else .number (if negative then (2 ^ 64 - hexValue digits) % 2 ^ 64 else hexValue digits) (text.drop digits.length)

def extracted (text : Bytes) : Extracted :=
  let text := text.dropWhile isSpace
  if text = [] then .blank
  else
    let unsigned := if text.head? = some 43 ∨ text.head? = some 45 then text.tail else text
    extractedDigits (text.head? == some 45) (if lower (unsigned.take 2) = ascii "0x" then unsigned.drop 2 else unsigned)

namespace StringStream

/-- `operator>>`; on a stream that has failed, or behind which there is nothing, the target keeps its value. -/
def extractHex (iss : StringStream) (target : Nat) : Nat × StringStream :=
  if iss.failed = true then (target, iss)
  else
    match extracted iss.rest with
    | .blank => (target, ⟨[], true⟩)
    | .bad value => (value, ⟨[], true⟩)
    | .number value rest => (value, ⟨rest, false⟩)

/-- `seekg` from the current position. -/
def seekg (iss : StringStream) (off : Nat) : StringStream :=
  if iss.failed = true then iss
  else if off ≤ iss.rest.length then { iss with rest := iss.rest.drop off }
  else { iss with failed := true }

/-- `read` into zeros. -/
def read (iss : StringStream) (n : Nat) : Bytes × StringStream :=
  if iss.failed = true then (List.replicate n 0, iss)
  else (iss.rest.take n ++ List.replicate (n - iss.rest.length) 0, ⟨iss.rest.drop n, decide (iss.rest.length < n)⟩)

end StringStream

inductive UnchunkError where
  | running
  | length
  deriving DecidableEq

/-- At most this many rounds; a string of more than `maxSize` bytes is not allocated. -/
def unchunkLoop (maxSize : Nat) : Nat → StringStream × Nat × Bytes → Except UnchunkError Bytes
  | 0, _ => .error .running
  | n + 1, (iss, chunkSize, res) =>
    let extraction := iss.extractHex chunkSize
    let chunkSize := extraction.1
    if maxSize < chunkSize then .error .length
    else
      let (acc, iss) := (extraction.2.seekg 2).read chunkSize
      if chunkSize ≠ 0 then unchunkLoop maxSize n (iss.seekg 2, chunkSize, res ++ acc) else .ok (res ++ acc)

def unchunk (maxSize n : Nat) (body : Bytes) :
    Except UnchunkError Bytes := unchunkLoop maxSize n ({ rest := body }, 0, [])

/-! ## Bodies -/

/-- The size in hexadecimal digits and nothing else in its line. -/
structure Chunk.Plain (c : Chunk) : Prop where
  ne_nil : c.sizeLine ≠ []
  digits : ∀ b ∈ c.sizeLine, isHexDigit b = true
  size : hexValue c.sizeLine = c.data.length

/-- The call comes to an end, and for chunks with an empty one behind them to their data. -/
structure Unchunks (maxSize : Nat) (body : Bytes) : Prop where
  halts : Halts .running fun n => unchunk maxSize n body
  data : ∀ (chunks : List Chunk) (last : Chunk) (rest : Bytes), (∀ c ∈ chunks, c.Plain ∧ c.data ≠ []) → last.Plain →
    last.data = [] →
    body = chunks.flatMap Chunk.text ++ last.text ++ rest →
    Comes .running (fun n => unchunk maxSize n body) (.ok (chunks.flatMap Chunk.data))

/-- Behind chunks that are there in full, with two bytes between the size and the data and two behind them, there is a
size of zero, a size too large, or something that is no size. -/
inductive Ends (maxSize : Nat) : Bytes → Prop where
  | bad {text : Bytes} {value : Nat} (h : extracted text = .bad value) : Ends maxSize text
  | zero {text rest : Bytes} (h : extracted text = .number 0 rest) : Ends maxSize text
  | large {text rest : Bytes} {value : Nat} (h : extracted text = .number value rest) (hlarge : maxSize < value) :
      Ends maxSize text
  | chunk {text rest : Bytes} {value : Nat} (h : extracted text = .number value rest) (hthere : value + 4 ≤ rest.length)
    (hends : Ends maxSize (rest.drop (value + 4))) : Ends maxSize text

variable {text rest res body : Bytes} {value chunkSize maxSize n : Nat} {iss iss' : StringStream} {c : Chunk}

/-- The stream has failed, or what is left of it does not end; the chunk before was not the last one. -/
structure GoingOn (maxSize : Nat) (s : StringStream × Nat × Bytes) : Prop where
  size : s.2.1 ≠ 0
  le : s.2.1 ≤ maxSize
  stream : s.1.failed = true ∨ ¬ Ends maxSize s.1.rest

/-! ## One round -/

lemma extractedDigits_bad {negative : Bool} (h : extractedDigits negative text = .bad value) :
    value = 0 ∨ value = 2 ^ 64 - 1 := by
  rw [extractedDigits] at h
  by_cases hnone : text.takeWhile isHexDigit = []
  · rw [if_pos hnone] at h
    exact .inl (Extracted.bad.inj h).symm
  · rw [if_neg hnone] at h
    by_cases hlarge : 2 ^ 64 ≤ hexValue (text.takeWhile isHexDigit)
    · rw [if_pos hlarge] at h
      exact .inr (Extracted.bad.inj h).symm
    · rw [if_neg hlarge] at h
      cases h

/-- The value of what is no number is zero, or too large. -/
lemma extracted_bad (h : extracted text = .bad value) : value = 0 ∨ value = 2 ^ 64 - 1 := by
  rw [extracted] at h
  by_cases hblank : text.dropWhile isSpace = []
  · rw [if_pos hblank] at h
    cases h
  · rw [if_neg hblank] at h
    exact extractedDigits_bad h

lemma extractedDigits_ne_blank (negative : Bool) (text : Bytes) : extractedDigits negative text ≠ .blank := by
  rw [extractedDigits]
  by_cases hnone : text.takeWhile isHexDigit = []
  · rw [if_pos hnone]
    exact nofun
  · rw [if_neg hnone]
    by_cases hlarge : 2 ^ 64 ≤ hexValue (text.takeWhile isHexDigit)
    · rw [if_pos hlarge]
      exact nofun
    · rw [if_neg hlarge]
      exact nofun

lemma extracted_eq_blank_iff : extracted text = .blank ↔ ∀ b ∈ text, isSpace b = true := by
  rw [← List.dropWhile_eq_nil_iff, extracted]
  by_cases hblank : text.dropWhile isSpace = []
  · rw [if_pos hblank]
    exact iff_of_true rfl hblank
  · rw [if_neg hblank]
    exact iff_of_false (extractedDigits_ne_blank _ _) hblank

/-- A round with a size of zero is the last one. -/
lemma unchunkLoop_zero (h : iss.extractHex chunkSize = (0, iss')) (n : Nat) (res : Bytes) :
    unchunkLoop maxSize (n + 1) (iss, chunkSize, res) = .ok res := by
  have hread : ∀ s : StringStream, (s.read 0).1 = [] := fun s => by
    rw [StringStream.read, Nat.zero_sub, List.take_zero]
    split <;> rfl
  rw [unchunkLoop, h]
  dsimp only
  rw [if_neg (Nat.not_lt_zero maxSize), hread, if_neg (not_not.2 rfl), List.append_nil]

lemma unchunkLoop_large (h : iss.extractHex chunkSize = (value, iss')) (hlarge : maxSize < value) (n : Nat)
    (res : Bytes) :
    unchunkLoop maxSize (n + 1) (iss, chunkSize, res) = .error .length := by
  rw [unchunkLoop, h]
  exact if_pos hlarge

/-- Any other round leads on to the next one. -/
lemma unchunkLoop_next (h : iss.extractHex chunkSize = (value, iss')) (hle : value ≤ maxSize) (hne : value ≠ 0)
    (n : Nat) (res : Bytes) :
    unchunkLoop maxSize (n + 1) (iss, chunkSize, res) =
      unchunkLoop maxSize n (((iss'.seekg 2).read value).2.seekg 2, value, res ++ ((iss'.seekg 2).read value).1) := by
  rw [unchunkLoop, h]
  dsimp only
  rw [if_neg (Nat.not_lt.2 hle), if_pos hne]

namespace StringStream

lemma seekg_of_failed (h : iss.failed = true) (off : Nat) : iss.seekg off = iss := if_pos h

lemma failed_read_of_failed (h : iss.failed = true) (n : Nat) : (iss.read n).2 = iss := by
  rw [read, if_pos h]

lemma seekg_of_le {off : Nat} (h : off ≤ text.length) : seekg ⟨text, false⟩ off = ⟨text.drop off, false⟩ := by
  rw [seekg, if_neg Bool.false_ne_true, if_pos h]

lemma failed_seekg_of_lt {off : Nat} (h : text.length < off) : (seekg ⟨text, false⟩ off).failed = true := by
  rw [seekg, if_neg Bool.false_ne_true, if_neg (Nat.not_le.2 h)]

lemma read_of_le (h : n ≤ text.length) : read ⟨text, false⟩ n = (text.take n, ⟨text.drop n, false⟩) := by
  rw [read, if_neg Bool.false_ne_true, Nat.sub_eq_zero_of_le h, List.replicate_zero, List.append_nil,
    decide_eq_false (Nat.not_lt.2 h)]

lemma failed_read_of_lt (h : text.length < n) : (read ⟨text, false⟩ n).2.failed = true := by
  rw [read, if_neg Bool.false_ne_true]
  exact decide_eq_true h

/-- The data with two bytes on both sides are read in full, or the stream fails. -/
lemma around (text : Bytes) (n : Nat) :
    (n + 4 ≤ text.length ∧ (seekg ⟨text, false⟩ 2).read n = ((text.drop 2).take n, ⟨text.drop (n + 2), false⟩) ∧
        ((seekg ⟨text, false⟩ 2).read n).2.seekg 2 = ⟨text.drop (n + 4), false⟩) ∨
      (text.length < n + 4 ∧ (((seekg ⟨text, false⟩ 2).read n).2.seekg 2).failed = true) := by
  by_cases htwo : 2 ≤ text.length
  · have hlength : (text.drop 2).length = text.length - 2 := List.length_drop
    rw [seekg_of_le htwo]
    by_cases hdata : n ≤ (text.drop 2).length
    · have hlength' : ((text.drop 2).drop n).length = text.length - 2 - n := by rw [List.length_drop, hlength]
      rw [read_of_le hdata]
      by_cases hrest : 2 ≤ ((text.drop 2).drop n).length
      · refine .inl ⟨by omega, ?_, ?_⟩
        · rw [List.drop_drop, Nat.add_comm 2 n]
        · rw [seekg_of_le hrest, List.drop_drop, List.drop_drop]
          congr 2
          omega
      · exact .inr ⟨by omega, failed_seekg_of_lt (Nat.not_le.1 hrest)⟩
    · have hfailed := failed_read_of_lt (Nat.not_le.1 hdata)
      rw [seekg_of_failed hfailed]
      exact .inr ⟨by omega, hfailed⟩
  · have hfailed := failed_seekg_of_lt (Nat.not_le.1 htwo)
    rw [failed_read_of_failed hfailed, seekg_of_failed hfailed]
    exact .inr ⟨by omega, hfailed⟩

end StringStream

lemma extractHex_of_failed (h : iss.failed = true) (target : Nat) : iss.extractHex target = (target, iss) := if_pos h

lemma extractHex_blank (h : extracted text = .blank) (target : Nat) :
    StringStream.extractHex ⟨text, false⟩ target = (target, ⟨[], true⟩) := by
  rw [StringStream.extractHex, if_neg Bool.false_ne_true, h]

lemma extractHex_bad (h : extracted text = .bad value) (target : Nat) :
    StringStream.extractHex ⟨text, false⟩ target = (value, ⟨[], true⟩) := by
  rw [StringStream.extractHex, if_neg Bool.false_ne_true, h]

lemma extractHex_number (h : extracted text = .number value rest) (target : Nat) :
    StringStream.extractHex ⟨text, false⟩ target = (value, ⟨rest, false⟩) := by
  rw [StringStream.extractHex, if_neg Bool.false_ne_true, h]

/-! ## The end -/

lemma Ends.halts (h : Ends maxSize text) (hmax : maxSize < 2 ^ 63) (chunkSize : Nat) (res : Bytes) :
    Halts .running fun n => unchunkLoop maxSize n (⟨text, false⟩, chunkSize, res) := by
  have hzero : ∀ s, unchunkLoop maxSize 0 s = .error .running := fun _ => rfl
  induction h generalizing chunkSize res with
  | bad h =>
    have hextract := extractHex_bad h chunkSize
    rcases extracted_bad h with rfl | rfl
    · exact ⟨.ok res, nofun, .of_succ (hzero _) (fun n => unchunkLoop_zero hextract n res) (comes_const _)⟩
    · have hlarge : maxSize < 2 ^ 64 - 1 := lt_trans hmax (by decide)
      exact ⟨.error .length, nofun, .of_succ (hzero _) (fun n => unchunkLoop_large hextract hlarge n res)
        (comes_const _)⟩
  | zero h =>
    have hextract := extractHex_number h chunkSize
    exact ⟨.ok res, nofun, .of_succ (hzero _) (fun n => unchunkLoop_zero hextract n res) (comes_const _)⟩
  | large h hlarge =>
    have hextract := extractHex_number h chunkSize
    exact ⟨.error .length, nofun, .of_succ (hzero _) (fun n => unchunkLoop_large hextract hlarge n res) (comes_const _)⟩
  | @chunk text rest value h hthere hends ih =>
    have hextract := extractHex_number h chunkSize
    by_cases hnone : value = 0
    · rw [hnone] at hextract
      exact ⟨.ok res, nofun, .of_succ (hzero _) (fun n => unchunkLoop_zero hextract n res) (comes_const _)⟩
    · by_cases hlarge : maxSize < value
      · exact ⟨.error .length, nofun, .of_succ (hzero _) (fun n => unchunkLoop_large hextract hlarge n res)
          (comes_const _)⟩
      · obtain ⟨r, hr, hcomes⟩ := ih value (res ++ (rest.drop 2).take value)
        refine ⟨r, hr, .of_succ (hzero _) (fun n => ?_) hcomes⟩
        rcases StringStream.around rest value with ⟨-, hread, hseek⟩ | ⟨hshort, -⟩
        · rw [unchunkLoop_next hextract (Nat.not_lt.1 hlarge) hnone, hseek, hread]
        · omega

/-- A round in front of what does not end leads on, with a size that is not zero. -/
lemma goingOn_of_not_ends (hends : ¬ Ends maxSize text) (hblank : extracted text ≠ .blank) (chunkSize : Nat)
    (res : Bytes) :
    ∃ s, GoingOn maxSize s ∧ ∀ n, unchunkLoop maxSize (n + 1) (⟨text, false⟩, chunkSize, res) =
      unchunkLoop maxSize n s := by
  cases hextracted : extracted text with
  | blank => exact absurd hextracted hblank
  | bad value => exact absurd (.bad hextracted) hends
  | number value rest =>
    have hne : value ≠ 0 := fun heq => hends (.zero (heq ▸ hextracted))
    have hle : value ≤ maxSize := Nat.not_lt.1 fun hlarge => hends (.large hextracted hlarge)
    refine ⟨_, ⟨hne, hle, ?_⟩, fun n => unchunkLoop_next (extractHex_number hextracted chunkSize) hle hne n res⟩
    rcases StringStream.around rest value with ⟨hthere, -, hseek⟩ | ⟨-, hfailed⟩
    · dsimp only
      rw [hseek]
      exact .inr fun hrest => hends (.chunk hextracted hthere hrest)
    · exact .inl hfailed

/-- A stream that has failed is read on and on. -/
lemma goingOn_of_failed (hne : chunkSize ≠ 0) (hle : chunkSize ≤ maxSize)
    (hextract : iss.extractHex chunkSize = (chunkSize, iss'))
    (hfailed : iss'.failed = true) (res : Bytes) :
    ∃ s, GoingOn maxSize s ∧ ∀ n, unchunkLoop maxSize (n + 1) (iss, chunkSize, res) = unchunkLoop maxSize n s := by
  refine ⟨(iss', chunkSize, res ++ (iss'.read chunkSize).1), ⟨hne, hle, .inl hfailed⟩, fun n => ?_⟩
  rw [unchunkLoop_next hextract hle hne, StringStream.seekg_of_failed hfailed,
    StringStream.failed_read_of_failed hfailed,
    StringStream.seekg_of_failed hfailed]

lemma GoingOn.round {s : StringStream × Nat × Bytes} (h : GoingOn maxSize s) :
    ∃ s', GoingOn maxSize s' ∧ ∀ n, unchunkLoop maxSize (n + 1) s = unchunkLoop maxSize n s' := by
  obtain ⟨⟨text, failed⟩, chunkSize, res⟩ := s
  cases failed with
  | true => exact goingOn_of_failed h.size h.le (extractHex_of_failed rfl chunkSize) rfl res
  | false =>
    have hends : ¬ Ends maxSize text := h.stream.resolve_left Bool.false_ne_true
    by_cases hblank : extracted text = .blank
    · exact goingOn_of_failed h.size h.le (extractHex_blank hblank chunkSize) rfl res
    · exact goingOn_of_not_ends hends hblank chunkSize res

lemma GoingOn.never {s : StringStream × Nat × Bytes} (h : GoingOn maxSize s) :
    Never .running fun n => unchunkLoop maxSize n s :=
  never_of_rounds (unchunkLoop maxSize) (GoingOn maxSize) (fun _ => rfl) (fun _ hs => hs.round) h

lemma halts_unchunk_iff (hmax : maxSize < 2 ^ 63) (body : Bytes) :
    (Halts .running fun n => unchunk maxSize n body) ↔ (∀ b ∈ body, isSpace b = true) ∨ Ends maxSize body := by
  rw [← extracted_eq_blank_iff]
  by_cases hblank : extracted body = .blank
  · have hextract := extractHex_blank hblank 0
    exact iff_of_true ⟨.ok [], nofun, .of_succ rfl (fun n => unchunkLoop_zero hextract n []) (comes_const _)⟩
      (.inl hblank)
  · rw [or_iff_right hblank]
    refine ⟨fun h => ?_, fun h => h.halts hmax 0 []⟩
    by_contra hends
    obtain ⟨s, hs, hround⟩ := goingOn_of_not_ends hends hblank 0 []
    have hnever : Never .running fun n => unchunk maxSize n body := by
      intro n
      cases n with
      | zero => rfl
      | succ n => exact (hround n).trans (hs.never n)
    exact not_halts_of_never hnever h

/-! ## Chunks -/

lemma crlf_append (text : Bytes) : crlf ++ text = 13 :: 10 :: text := rfl

lemma toLower_second_ne (h : c.Plain) (rest : Bytes) : lower ((c.sizeLine ++ (13 :: rest)).take 2) ≠ ascii "0x" := by
  obtain ⟨d, ds, hline⟩ := List.exists_cons_of_ne_nil h.ne_nil
  have hsecond : ∀ b, (ds ++ 13 :: rest).head? = some b → toLower b ≠ 120 := by
    intro b hb
    cases ds with
    | nil =>
      obtain rfl := Option.some.inj hb
      decide
    | cons e ds =>
      obtain rfl := Option.some.inj hb
      exact (not_isSpace_of_isHexDigit
        (h.digits e (by rw [hline]; exact List.mem_cons_of_mem _ List.mem_cons_self))).2.2.2
  rw [hline, List.cons_append]
  intro heq
  cases htail : ds ++ 13 :: rest with
  | nil => exact absurd htail (by simp)
  | cons e es =>
    rw [htail] at heq hsecond
    exact hsecond e rfl (List.cons.inj (List.cons.inj heq).2).1

lemma extracted_plain (h : c.Plain) (hsize : c.data.length < 2 ^ 64) (rest : Bytes) :
    extracted (c.text ++ rest) = .number c.data.length (13 :: 10 :: (c.data ++ 13 :: 10 :: rest)) := by
  have htext : c.text ++ rest = c.sizeLine ++ 13 :: 10 :: (c.data ++ 13 :: 10 :: rest) := by
    rw [Chunk.text, List.append_assoc, List.append_assoc, List.append_assoc, crlf_append, crlf_append]
  obtain ⟨d, ds, hline⟩ := List.exists_cons_of_ne_nil h.ne_nil
  have hd := not_isSpace_of_isHexDigit (h.digits d (by rw [hline]; exact List.mem_cons_self))
  have hhead : (c.sizeLine ++ 13 :: 10 :: (c.data ++ 13 :: 10 :: rest)).head? = some d := by
    rw [hline]
    rfl
  have hdrop : (c.sizeLine ++ 13 :: 10 :: (c.data ++ 13 :: 10 :: rest)).dropWhile isSpace =
      c.sizeLine ++ 13 :: 10 :: (c.data ++ 13 :: 10 :: rest) := by
    rw [hline, List.cons_append, List.dropWhile_cons_of_neg (by rw [hd.1]; exact Bool.false_ne_true)]
  have htake : (c.sizeLine ++ 13 :: 10 :: (c.data ++ 13 :: 10 :: rest)).takeWhile isHexDigit = c.sizeLine :=
    takeWhile_append_of_all h.digits fun b hb => by
      obtain rfl := Option.some.inj hb
      rfl
  have hunsigned : ¬ (some d = some 43 ∨ some d = some 45) := by
    rw [Option.some_inj, Option.some_inj, not_or]
    exact ⟨hd.2.1, hd.2.2.1⟩
  have hpositive : (some d == some 45) = false := by
    rw [beq_eq_false_iff_ne]
    exact fun heq => hd.2.2.1 (Option.some.inj heq)
  rw [htext, extracted, hdrop]
  dsimp only
  rw [if_neg (by simp), hhead, if_neg hunsigned, if_neg (toLower_second_ne h _), extractedDigits, htake,
    if_neg h.ne_nil, h.size,
    if_neg (Nat.not_le.2 hsize), List.drop_left, hpositive, if_neg Bool.false_ne_true]

lemma drop_around (data rest : Bytes) : (13 :: 10 :: (data ++ 13 :: 10 :: rest)).drop (data.length + 4) = rest := by
  have heq : 13 :: 10 :: (data ++ 13 :: 10 :: rest) = 13 :: 10 :: (data ++ [13, 10]) ++ rest := by simp
  rw [heq, List.drop_left' (by simp)]

/-- The data are put together up to the empty chunk. -/
lemma comes_chunks (hmax : maxSize < 2 ^ 63) (chunks : List Chunk) (last : Chunk) (rest : Bytes)
    (hchunks : ∀ c ∈ chunks, c.Plain ∧ c.data ≠ []) (hlast : last.Plain) (hnone : last.data = [])
    (hsize : (chunks.flatMap Chunk.text ++ last.text ++ rest).length ≤ maxSize) (chunkSize : Nat) (res : Bytes) :
    Comes .running (fun n => unchunkLoop maxSize n (⟨chunks.flatMap Chunk.text ++ last.text ++ rest, false⟩,
      chunkSize, res))
      (.ok (res ++ chunks.flatMap Chunk.data)) := by
  induction chunks generalizing chunkSize res with
  | nil =>
    have hextracted := extracted_plain hlast (by rw [hnone]; decide) rest
    rw [hnone] at hextracted
    rw [List.flatMap_nil, List.flatMap_nil, List.append_nil, List.nil_append]
    exact .of_succ rfl (fun n => unchunkLoop_zero (extractHex_number hextracted chunkSize) n res) (comes_const _)
  | cons c chunks ih =>
    rw [List.forall_mem_cons] at hchunks
    obtain ⟨⟨hplain, hdata⟩, hchunks⟩ := hchunks
    have htext : (c :: chunks).flatMap Chunk.text ++ last.text ++ rest =
      c.text ++ (chunks.flatMap Chunk.text ++ last.text ++ rest) := by
      rw [List.flatMap_cons, List.append_assoc, List.append_assoc, List.append_assoc]
    rw [htext, List.length_append] at hsize
    have hlength := length_chunk c
    have hextract := extractHex_number
      (extracted_plain hplain (by omega) (chunks.flatMap Chunk.text ++ last.text ++ rest)) chunkSize
    have hne : c.data.length ≠ 0 := fun h => hdata (List.length_eq_zero_iff.1 h)
    have hbehind : (13 :: 10 :: (c.data ++ 13 :: 10 :: (chunks.flatMap Chunk.text ++ last.text ++ rest))).drop
      (c.data.length + 4) =
        chunks.flatMap Chunk.text ++ last.text ++ rest := drop_around c.data _
    have hround : ∀ n, unchunkLoop maxSize (n + 1)
          (⟨c.text ++ (chunks.flatMap Chunk.text ++ last.text ++ rest), false⟩, chunkSize, res) =
        unchunkLoop maxSize n (⟨chunks.flatMap Chunk.text ++ last.text ++ rest, false⟩, c.data.length,
          res ++ c.data) := by
      intro n
      rw [unchunkLoop_next hextract (by omega) hne]
      rcases StringStream.around (13 :: 10 :: (c.data ++ 13 :: 10 :: (chunks.flatMap
        Chunk.text ++ last.text ++ rest))) c.data.length with
        ⟨-, hread, hseek⟩ | ⟨hshort, -⟩
      · have hdata : ((13 :: 10 :: (c.data ++ 13 :: 10 :: (chunks.flatMap Chunk.text ++ last.text ++ rest))).drop
          2).take c.data.length =
            c.data := List.take_left' rfl
        rw [hseek, hread, hbehind, hdata]
      · rw [List.length_cons, List.length_cons, List.length_append, List.length_cons, List.length_cons] at hshort
        omega
    have hcomes := ih hchunks (by omega) c.data.length (res ++ c.data)
    rw [List.append_assoc res] at hcomes
    rw [htext, List.flatMap_cons]
    exact .of_succ rfl hround hcomes

/-- The call comes to an end exactly for a blank body, or one with an end behind its chunks; from chunks with an empty
one behind them it puts the data together in any case. -/
theorem unchunks_iff (hmax : maxSize < 2 ^ 63) (hbody : body.length ≤ maxSize) :
    Unchunks maxSize body ↔ (∀ b ∈ body, isSpace b = true) ∨ Ends maxSize body := by
  rw [← halts_unchunk_iff hmax]
  refine ⟨fun h => h.halts, fun h => ⟨h, fun chunks last rest hchunks hlast hnone heq => ?_⟩⟩
  rw [heq] at hbody
  have hcomes := comes_chunks hmax chunks last rest hchunks hlast hnone hbody 0 []
  rw [List.nil_append, ← heq] at hcomes
  exact hcomes

theorem unchunks_iff_hello : Unchunks (2 ^ 62) (ascii "5\r\nhello\r\n0\r\n\r\n") ↔
    (∀ b ∈ ascii "5\r\nhello\r\n0\r\n\r\n", isSpace b = true) ∨ Ends (2 ^ 62) (ascii "5\r\nhello\r\n0\r\n\r\n") :=
  unchunks_iff (by decide) (by decide)

/-- Without the empty chunk the call does not come to an end. -/
theorem not_unchunks_cut : ¬ Unchunks (2 ^ 62) (ascii "5\r\nhello\r\n") := by
  intro h
  have hfirst : extracted (ascii "5\r\nhello\r\n") = .number 5 (ascii "\r\nhello\r\n") := rfl
  rcases (halts_unchunk_iff (by decide) _).1 h.halts with hblank | hends
  · exact absurd (hblank 53 (by decide)) (by decide)
  · cases hends with
    | bad h => cases hfirst.symm.trans h
    | zero h => cases hfirst.symm.trans h
    | large h hlarge =>
      cases hfirst.symm.trans h
      exact absurd hlarge (by decide)
    | chunk h hthere hends =>
      cases hfirst.symm.trans h
      have hblank : extracted ((ascii "\r\nhello\r\n").drop 9) = .blank := rfl
      cases hends with
      | bad h => cases hblank.symm.trans h
      | zero h => cases hblank.symm.trans h
      | large h hlarge => cases hblank.symm.trans h
      | chunk h hthere hends => cases hblank.symm.trans h

end CppExperiments.Net

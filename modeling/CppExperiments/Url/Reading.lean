import CppExperiments.Lib.Pieces
import CppExperiments.Net.Completeness
import CppExperiments.Url.Server

/-!
# Requests in pieces

When a request that comes in pieces is taken for complete exactly with its last one. What decides is the number that is
found in what has come when the headers are complete.
-/

namespace CppExperiments.Url

open Net (crlfcrlf Message headerBlock fieldLines)

/-- Every call but the last one says that there is more to come, and the buffer is what was sent. -/
def ReadInTime : List Bytes → Bytes → Int → Prop
  | [], _, _ => False
  | received :: reads, buffer, pendingBytes =>
    ∃ pendingBytes', readRequest received buffer pendingBytes =
      some (reads.isEmpty, buffer ++ received, pendingBytes') ∧
      (reads = [] ∨ ReadInTime reads (buffer ++ received) pendingBytes')

/-- The search in what has come at the first of these reads, when the `h` bytes of the headers are there, finds nothing
and it is the last read, or it finds the length `n` of the body. It can also find `k` where a later read, but none that
comes before it, ends with one byte more than `k` of the body, and the search is repeated with the next read. -/
def Settles (text : Bytes) (h n : Nat) : List Nat → Prop
  | [] => False
  | cut :: later =>
    match announced (text.take cut) with
    | .missing => later = []
    | .bad => False
    | .number k => k = n ∨ ((∀ c ∈ cut :: later, (c : Int) ≠ h + k) ∧ (∃ c ∈ cut :: later, (c : Int) = h + k + 1) ∧
        Settles text h n (later.filter fun c => decide ((h : Int) + k + 1 < c)))
  termination_by cuts => cuts.length
  decreasing_by
    rw [List.length_unattach]
    exact Nat.lt_succ_of_le ((List.length_filter_le _ _).trans_eq List.length_attach)

/-- The headers of a message with the start line. -/
def headLength (m : Message) : Nat := m.startLine.length + (headerBlock m.fields).length

/-- The length of the body is found when the headers are complete. -/
def FoundInTime (m : Message) (reads : List Bytes) : Prop :=
  Settles m.text (headLength m) m.body.text.length ((cuts 0 reads).filter fun c => decide (headLength m ≤ c))

/-! ## Cuts -/

variable {text buffer received : Bytes} {reads : List Bytes} {h n q c : Nat} {k pendingBytes : Int}

/-- With a number for the body, as it is kept. -/
def Settled (text : Bytes) (h n : Nat) (k : Int) : List Nat → Prop
  | [] => False
  | cut :: later => k = n ∨ ((∀ c ∈ cut :: later, (c : Int) ≠ h + k) ∧ (∃ c ∈ cut :: later, (c : Int) = h + k + 1) ∧
      Settles text h n (later.filter fun c => decide ((h : Int) + k + 1 < c)))

lemma settles_cons (text : Bytes) (h n cut : Nat) (later : List Nat) : Settles text h n (cut :: later) ↔
    match announced (text.take cut) with
    | .missing => later = []
    | .bad => False
    | .number k => Settled text h n k (cut :: later) := by
  rw [Settles]
  cases announced (text.take cut) <;> rfl

/-- Behind the cut after which the search is repeated. -/
lemma filter_cuts (hc : ∃ c ∈ q :: cuts q reads, (c : Int) = h + k + 1) (hreads : ∀ r ∈ reads, r ≠ []) :
    (q :: cuts q reads).filter (fun c : Nat => decide ((h : Int) + k + 1 < c)) =
      (cuts q reads).filter fun c : Nat => decide ((h : Int) + k + 1 < c) := by
  obtain ⟨c, hmem, hc⟩ := hc
  have hle : q ≤ c := by
    rcases List.mem_cons.1 hmem with rfl | hmem
    · exact Nat.le_refl c
    · exact (lt_of_mem_cuts hreads hmem).le
  rw [List.filter_cons_of_neg]
  rw [decide_eq_true_iff]
  omega

/-! ## Calls -/

section Calls

variable {rest : List Bytes}

/-- The calls behind one that leaves the number `k` for the body. -/
lemma settled_iff (hlength : text.length = h + n) (hq : h ≤ q) (hend : q + rest.flatten.length = text.length)
    (hreads : ∀ r ∈ rest, r ≠ [])
    (hsearch : ReadInTime rest buffer (-1) ↔ Settles text h n (cuts q rest))
    (hkept : ∀ k p : Int, p ≠ -1 → p + (q - h : Nat) = k →
      (ReadInTime rest buffer p ↔ Settled text h n k (cuts q rest))) :
    (∃ p, some (decide (k - (q - h : Nat) = 0), buffer, k - (q - h : Nat)) = some (rest.isEmpty, buffer, p) ∧
      (rest = [] ∨ ReadInTime rest buffer p)) ↔ Settled text h n k (q :: cuts q rest) := by
  cases rest with
  | nil =>
    rw [List.flatten_nil, List.length_nil] at hend
    have hfalse : ¬ Settles text h n
      ((cuts q ([] : List Bytes)).filter fun c : Nat => decide ((h : Int) + k + 1 < c)) := by
      rw [cuts, List.filter_nil, Settles]
      exact id
    rw [Settled]
    constructor
    · rintro ⟨p, heq, -⟩
      have hzero := of_decide_eq_true (Prod.mk.inj (Option.some.inj heq)).1
      exact Or.inl (by omega)
    · rintro (hk | hk)
      · exact ⟨_, by rw [decide_eq_true (by omega)]; rfl, Or.inl rfl⟩
      · exact absurd hk.2.2 hfalse
  | cons r rs =>
    have hpos := List.length_pos_of_ne_nil (hreads r List.mem_cons_self)
    rw [List.flatten_cons, List.length_append] at hend
    have hlater : ∀ c ∈ cuts q (r :: rs), q < c := fun c hc => lt_of_mem_cuts hreads hc
    have hcall : (∃ p, some (decide (k - (q - h : Nat) = 0), buffer, k - (q - h : Nat)) =
        some ((r :: rs).isEmpty, buffer, p) ∧ (r :: rs = [] ∨ ReadInTime (r :: rs) buffer p)) ↔
          k - (q - h : Nat) ≠ 0 ∧ ReadInTime (r :: rs) buffer (k - (q - h : Nat)) := by
      constructor
      · rintro ⟨p, heq, hrest⟩
        obtain ⟨hdone, hp⟩ := Prod.mk.inj (Option.some.inj heq)
        obtain ⟨-, rfl⟩ := Prod.mk.inj hp
        exact ⟨of_decide_eq_false hdone, hrest.resolve_left (List.cons_ne_nil r rs)⟩
      · rintro ⟨hzero, hrest⟩
        exact ⟨_, by rw [decide_eq_false hzero]; rfl, Or.inr hrest⟩
    rw [hcall, Settled, List.forall_mem_cons]
    by_cases hagain : k - (q - h : Nat) = -1
    · rw [hagain, hsearch]
      have hall : (cuts q (r :: rs)).filter (fun c : Nat => decide ((h : Int) + k + 1 < c)) = cuts q (r :: rs) := by
        rw [List.filter_eq_self]
        intro c hc
        have hlt := hlater c hc
        exact decide_eq_true (by omega)
      rw [hall]
      constructor
      · rintro ⟨-, hrest⟩
        refine Or.inr ⟨⟨by omega, fun c hc => ?_⟩, ⟨q, List.mem_cons_self, by omega⟩, hrest⟩
        have hlt := hlater c hc
        omega
      · rintro (hk | hk)
        · exact absurd hk (by omega)
        · exact ⟨by decide, hk.2.2⟩
    · rw [hkept k _ hagain (by omega)]
      have hnext : (∃ c ∈ q :: cuts q (r :: rs), (c : Int) = h + k + 1) ↔ ∃ c ∈ cuts q (r :: rs),
        (c : Int) = h + k + 1 := by
        refine ⟨?_, fun ⟨c, hmem, hc⟩ => ⟨c, List.mem_cons_of_mem q hmem, hc⟩⟩
        rintro ⟨c, hmem, hc⟩
        rcases List.mem_cons.1 hmem with rfl | hmem
        · omega
        · exact ⟨c, hmem, hc⟩
      rw [hnext]
      have hcuts : cuts q (r :: rs) = (q + r.length) :: cuts (q + r.length) rs := rfl
      rw [hcuts, Settled]
      constructor
      · rintro ⟨hzero, hk | ⟨hnone, hsome, hsettles⟩⟩
        · exact Or.inl hk
        · rw [← filter_cuts hsome fun x hx => hreads x (List.mem_cons_of_mem r hx)] at hsettles
          exact Or.inr ⟨⟨by omega, hnone⟩, hsome, hsettles⟩
      · rintro (hk | ⟨⟨hzero, hnone⟩, hsome, hsettles⟩)
        · exact ⟨by omega, Or.inl hk⟩
        · rw [filter_cuts hsome fun x hx => hreads x (List.mem_cons_of_mem r hx)] at hsettles
          exact ⟨by omega, Or.inr ⟨hnone, hsome, hsettles⟩⟩

/-- The calls, without a count of pending bytes and with one. -/
lemma readInTime_iff (hlength : text.length = h + n) {pos : Nat} (hpos : pos + 4 = h)
    (hearly : ∀ q < h, find crlfcrlf (text.take q) = none) (hfull : ∀ q, h ≤ q → find crlfcrlf (text.take q) = some pos)
    (hreads : ∀ r ∈ reads, r ≠ []) (hbuffer : buffer ++ reads.flatten = text) :
    (ReadInTime reads buffer (-1) ↔ Settles text h n ((cuts buffer.length reads).filter fun c => decide (h ≤ c))) ∧
      ∀ k p : Int, p ≠ -1 → h ≤ buffer.length → p + (buffer.length - h : Nat) = k →
        (ReadInTime reads buffer p ↔ Settled text h n k (cuts buffer.length reads)) := by
  induction reads generalizing buffer with
  | nil =>
    rw [cuts, List.filter_nil, Settles]
    exact ⟨Iff.rfl, fun _ _ _ _ _ => Iff.rfl⟩
  | cons received rest ih =>
    rw [List.forall_mem_cons] at hreads
    rw [List.flatten_cons, ← List.append_assoc] at hbuffer
    obtain ⟨hsearch, hkept⟩ := ih hreads.2 hbuffer
    have hq : (buffer ++ received).length = buffer.length + received.length := List.length_append
    have hend : (buffer ++ received).length + rest.flatten.length = text.length := by
      rw [← hbuffer]
      exact List.length_append.symm
    have htake : text.take (buffer ++ received).length = buffer ++ received := by rw [← hbuffer, List.take_left]
    have hlater : ∀ c ∈ cuts (buffer ++ received).length rest, (buffer ++ received).length < c :=
      fun c hc => lt_of_mem_cuts hreads.2 hc
    have hcuts : cuts buffer.length (received :: rest) =
        (buffer ++ received).length :: cuts (buffer ++ received).length rest := by rw [cuts, hq]
    have hall : ∀ q, h ≤ q → (∀ c ∈ cuts q rest, q < c) → (cuts q rest).filter (fun c => decide (h ≤ c)) =
      cuts q rest := by
      intro q hle hlt
      rw [List.filter_eq_self]
      intro c hc
      have hc := hlt c hc
      exact decide_eq_true (by omega)
    rw [hcuts]
    refine ⟨?_, fun k p hp hle hk => ?_⟩
    · by_cases hhead : h ≤ (buffer ++ received).length
      · have hfind := hfull _ hhead
        rw [htake] at hfind
        have hextra : (buffer ++ received).length - pos - 4 = (buffer ++ received).length - h := by omega
        rw [hall _ hhead hlater] at hsearch
        have hfilter : ((buffer ++ received).length :: cuts (buffer ++ received).length rest).filter
          (fun c => decide (h ≤ c)) =
            (buffer ++ received).length :: cuts (buffer ++ received).length rest := by
          rw [List.filter_cons_of_pos (by simpa using hhead), hall _ hhead hlater]
        rw [ReadInTime, readRequest_search hreads.1 hfind, hextra, hfilter, settles_cons, htake]
        cases announced (buffer ++ received) with
        | missing =>
          cases rest with
          | nil => exact iff_of_true ⟨-1, rfl, Or.inl rfl⟩ rfl
          | cons r rs =>
            refine iff_of_false ?_ (List.cons_ne_nil _ _)
            rintro ⟨p, heq, -⟩
            cases heq
        | bad =>
          refine iff_of_false ?_ id
          rintro ⟨p, heq, -⟩
          cases heq
        | number k => exact settled_iff hlength hhead hend hreads.2 hsearch fun k p hp hk => hkept k p hp hhead hk
      · have hfind := hearly _ (Nat.lt_of_not_le hhead)
        rw [htake] at hfind
        have hrest : rest ≠ [] := by
          rintro rfl
          rw [List.flatten_nil, List.length_nil] at hend
          omega
        rw [ReadInTime, readRequest_early hreads.1 hfind, List.filter_cons_of_neg (by simpa using hhead), ← hsearch]
        constructor
        · rintro ⟨p, heq, hp⟩
          obtain ⟨-, rfl⟩ := Prod.mk.inj (Prod.mk.inj (Option.some.inj heq)).2
          exact hp.resolve_left hrest
        · intro hread
          have hempty : rest.isEmpty = false := List.isEmpty_eq_false_iff.2 hrest
          exact ⟨-1, by rw [hempty], Or.inr hread⟩
    · rw [ReadInTime, readRequest_pending hreads.1 hp]
      have hleft : p - received.length = k - ((buffer ++ received).length - h : Nat) := by omega
      rw [hleft]
      have hhead : h ≤ (buffer ++ received).length := by omega
      rw [hall _ hhead hlater] at hsearch
      exact settled_iff hlength hhead hend hreads.2 hsearch fun k p hp hk => hkept k p hp hhead hk

end Calls

/-! ## Requests -/

variable {m : Message}

lemma find_head (hm : m.WellFormed) : find crlfcrlf (m.startLine ++ headerBlock m.fields) =
    some ((fieldLines m.fields).length + m.startLine.length) := by
  have hskip := @find_skip [10, 13, 10] _ _ hm.startLine (headerBlock m.fields)
  rw [crlfcrlf, hskip, ← crlfcrlf, Net.find_headerBlock hm.fields]
  rfl

/-- A request in pieces is taken for complete with its last one exactly if the length of its body is found when its
headers are complete. -/
theorem readInTime_iff_found (hm : m.WellFormed) (hreads : ∀ r ∈ reads, r ≠ []) (htext : reads.flatten = m.text) :
    ReadInTime reads [] (-1) ↔ FoundInTime m reads := by
  have hsplit : m.text = (m.startLine ++ headerBlock m.fields) ++ m.body.text := by rw [Message.text, List.append_assoc]
  have hhead : (m.startLine ++ headerBlock m.fields).length = headLength m := by rw [List.length_append, headLength]
  have hpos : (fieldLines m.fields).length + m.startLine.length + 4 = headLength m := by
    rw [headLength, Net.length_headerBlock]
    omega
  refine (readInTime_iff (h := headLength m) (n := m.body.text.length) ?_ hpos (fun q hq => ?_)
    (fun q hq => ?_) hreads htext).1
  · rw [hsplit, List.length_append, hhead]
  · rw [Option.eq_none_iff_forall_ne_some]
    intro i hi
    have hlong := add_length_le_of_find hi (by decide)
    have hfull := find_append_right hi (m.text.drop q)
    rw [List.take_append_drop, hsplit, find_append_right (find_head hm)] at hfull
    have heq := Option.some.inj hfull
    have hcrlf : crlfcrlf.length = 4 := rfl
    rw [hcrlf, List.length_take] at hlong
    omega
  · rw [hsplit, List.take_append, List.take_of_length_le (by omega)]
    exact find_append_right (find_head hm) _

section Examples

theorem readInTime_iff_found_posted : ReadInTime [Net.posted.text.take 20, Net.posted.text.drop 20] [] (-1) ↔
    FoundInTime Net.posted [Net.posted.text.take 20, Net.posted.text.drop 20] := by
  refine readInTime_iff_found Net.wellFormed_posted ?_ (by simp)
  simp only [List.forall_mem_cons, List.not_mem_nil, false_imp_iff, implies_true, and_true]
  exact ⟨by decide, by decide⟩

/-- A request with the field's name in small letters. -/
def postedSmall : Message where
  startLine := ascii "POST / HTTP/1.1"
  fields := [⟨ascii "content-length", ascii " 2"⟩]
  body := .length (ascii "ok")

lemma wellFormed_postedSmall : postedSmall.WellFormed := by
  have htwo : Net.IsLength (ascii " 2") 2 := ⟨[32], [50], [], rfl, forall_mem_of_all rfl, by decide, rfl, rfl⟩
  refine ⟨by decide, ?_, ⟨⟨_, List.mem_cons_self, by decide⟩, ?_⟩, by decide⟩
  · simp only [postedSmall, List.forall_mem_cons]
    exact ⟨Net.wellFormed_field (by decide) rfl (by decide) (by decide), by simp⟩
  · simp only [postedSmall, List.forall_mem_cons]
    exact ⟨⟨by decide, fun _ => htwo⟩, by simp⟩

/-- A field name in small letters is not found: the request is taken for complete before its body has come. -/
theorem not_readInTime_small : ¬ ∀ (m : Message) (reads : List Bytes), m.WellFormed → ¬ m.body.IsChunked →
    (m.fields.filter fun f => f.key == ascii "content-length").length ≤ 1 → (∀ r ∈ reads, r ≠ [] ∧ r.length ≤ 1024) →
    reads.flatten = m.text → ReadInTime reads [] (-1) := by
  intro h
  have hreads : ∀ r ∈ [postedSmall.startLine ++ headerBlock postedSmall.fields, ascii "ok"], r ≠ [] ∧ r.length ≤ 1024 := by
    simp only [List.forall_mem_cons, List.not_mem_nil, false_imp_iff, implies_true, and_true]
    exact ⟨⟨by decide, by decide⟩, by decide, by decide⟩
  obtain ⟨p, hread, -⟩ := h postedSmall _ wellFormed_postedSmall id (by decide) hreads rfl
  cases hread

end Examples

end CppExperiments.Url

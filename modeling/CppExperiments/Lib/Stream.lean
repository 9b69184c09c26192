import CppExperiments.Lib.Bytes
import CppExperiments.Lib.Fuel

/-!
# Input files

A file that is read byte by byte or in blocks, with the state in which reads and seeks do nothing any more.
-/

namespace CppExperiments

/-- An input file; it has failed once a read went over its end or a seek in front of it. -/
structure Stream where
  file : Bytes
  pos : Nat
  failed : Bool

namespace Stream

def start (file : Bytes) : Stream := ⟨file, 0, false⟩

def seekg (s : Stream) (off : Int) : Stream :=
  if s.failed then s
  else if off < 0 then { s with failed := true }
  else { s with pos := off.toNat }

/-- `get`, which gives -1 where there is no byte. -/
def get (s : Stream) : BitVec 32 × Stream :=
  if s.failed then (-1, s)
  else
    match s.file[s.pos]? with
    | some b => (BitVec.ofNat 32 b.toNat, { s with pos := s.pos + 1 })
    | none => (-1, { s with failed := true })

/-- The bytes of a block that are there. -/
def block (s : Stream) (n : Nat) : Bytes := if s.failed then [] else (s.file.drop s.pos).take n

def read (s : Stream) (n : Nat) : Stream :=
  { s with pos := s.pos + (s.block n).length, failed := s.failed || decide ((s.block n).length < n) }

/-- A buffer after a block was read into it. -/
def fill (s : Stream) (buffer : Bytes) (n : Nat) : Bytes := s.block n ++ buffer.drop (s.block n).length

def tellg (s : Stream) : Int := if s.failed then -1 else s.pos

/-- How many bytes can still be read. -/
def left (s : Stream) : Nat := if s.failed then 0 else s.file.length - s.pos

variable {s : Stream} {n : Nat} {b : UInt8}

lemma seekg_of_failed (h : s.failed = true) (off : Int) : s.seekg off = s := if_pos h

lemma seekg_nat (h : s.failed = false) (pos : Nat) : s.seekg pos = { s with pos := pos } := by
  rw [seekg, if_neg (by simp [h]), if_neg (by omega), Int.toNat_natCast]

lemma seekg_of_neg (h : s.failed = false) {off : Int} (hoff : off < 0) : s.seekg off = { s with failed := true } := by
  rw [seekg, if_neg (by simp [h]), if_pos hoff]

lemma get_of_failed (h : s.failed = true) : s.get = (-1, s) := if_pos h

lemma get_of_drop {rest : Bytes} (h : s.failed = false) (hdrop : s.file.drop s.pos = b :: rest) :
    s.get = (BitVec.ofNat 32 b.toNat, { s with pos := s.pos + 1 }) := by
  have hat : s.file[s.pos]? = some b := by
    have hhead := @List.getElem?_drop _ s.file s.pos 0
    rwa [hdrop, Nat.add_zero, List.getElem?_cons_zero, eq_comm] at hhead
  rw [get, if_neg (by simp [h]), hat]

lemma drop_pos_succ {rest : Bytes} (h : s.file.drop s.pos = b :: rest) : s.file.drop (s.pos + 1) = rest := by
  rw [← List.drop_drop, h, List.drop_one, List.tail_cons]

/-- At the end of the file a byte is missing from then on. -/
lemma get_of_end (h : s.failed = false) (hdrop : s.file.drop s.pos = []) : s.get = (-1, { s with failed := true }) := by
  rw [get, if_neg (by simp [h]), List.getElem?_eq_none (List.drop_eq_nil_iff.1 hdrop)]

lemma length_block (s : Stream) (n : Nat) : (s.block n).length = min n s.left := by
  rw [block, left]
  split
  · simp
  · rw [List.length_take, List.length_drop]

lemma read_of_le (h : s.failed = false) (hle : s.pos + n ≤ s.file.length) : s.read n = { s with pos := s.pos + n } := by
  have hleft : s.left = s.file.length - s.pos := if_neg (by simp [h])
  rw [read, length_block, hleft, Nat.min_eq_left (by omega), h, decide_eq_false (Nat.lt_irrefl n), Bool.or_false]

lemma failed_read (hlt : s.file.length - s.pos < n) : (s.read n).failed = true := by
  by_cases hfailed : s.failed = true
  · rw [read, hfailed, Bool.true_or]
  · have hleft : s.left = s.file.length - s.pos := if_neg hfailed
    have hshort : min n (s.file.length - s.pos) < n := by omega
    rw [read, length_block, hleft, decide_eq_true hshort, Bool.or_true]

/-- A block that is not empty leaves less. -/
lemma left_read_lt (h : s.block n ≠ []) : (s.read n).left < s.left := by
  have hpos := List.length_pos_iff.2 h
  have hlen := s.length_block n
  have hread : (s.read n).left ≤ s.file.length - (s.pos + (s.block n).length) := by
    rw [left]
    split
    · exact Nat.zero_le _
    · exact Nat.le_refl _
  have hleft : s.left = s.file.length - s.pos := if_neg fun hfailed => h (if_pos hfailed)
  omega

/-! ## Numbers byte by byte -/

section Bytewise

variable {σ β ε : Type} (f : BitVec 32 → σ → σ) (g : σ → σ)

/-- The state after the first byte without the highest bit, and the bytes behind it; `g` is between two bytes. -/
def bytewise : Bytes → σ → Option (σ × Bytes)
  | [], _ => none
  | b :: rest, st =>
    let byte := BitVec.ofNat 32 b.toNat
    if byte &&& 128 ≠ 0 then bytewise rest (g (f byte st)) else some (f byte st, rest)

/-- A loop that reads bytes up to the first one without the highest bit. -/
structure Bytewise (running : ε) (out : σ → Stream → β) (run : Nat → σ × Stream → Except ε β) : Prop where
  zero : ∀ st, run 0 st = .error running
  succ : ∀ n st s, run (n + 1) (st, s) =
    if s.get.1 &&& 128 ≠ 0 then run n (g (f s.get.1 st), s.get.2) else .ok (out (f s.get.1 st) s.get.2)

variable {f g} {running : ε} {out : σ → Stream → β} {run : Nat → σ × Stream → Except ε β} {st st' : σ} {rest : Bytes}

lemma bytewise_suffix {l : Bytes} (h : bytewise f g l st = some (st', rest)) : rest <:+ l := by
  induction l generalizing st with
  | nil => cases h
  | cons b l ih =>
    rw [bytewise] at h
    by_cases hbit : BitVec.ofNat 32 b.toNat &&& 128 ≠ 0
    · rw [if_pos hbit] at h
      exact (ih h).trans (List.suffix_cons b l)
    · rw [if_neg hbit] at h
      obtain ⟨rfl, rfl⟩ := Prod.mk.inj (Option.some.inj h)
      exact List.suffix_cons b l

lemma missing_and : (-1 : BitVec 32) &&& 128 ≠ 0 := by decide

/-- Where a byte is missing the loop goes on with the same number for ever. -/
lemma Bytewise.never_of_failed (h : Bytewise f g running out run) (hs : s.failed = true) :
    Never running fun n => run n (st, s) := by
  refine never_of_rounds run (fun p : σ × Stream => p.2.failed = true) h.zero (fun p hp => ?_) hs
  refine ⟨(g (f (-1) p.1), p.2), hp, fun n => ?_⟩
  rw [h.succ n p.1 p.2, get_of_failed hp, if_pos missing_and]

lemma Bytewise.never (h : Bytewise f g running out run) (hs : s.failed = false)
    (hbytes : bytewise f g (s.file.drop s.pos) st = none) : Never running fun n => run n (st, s) := by
  generalize hdrop : s.file.drop s.pos = l at hbytes
  induction l generalizing s st with
  | nil =>
    have hfailed : Never running fun n => run n (g (f (-1) st), { s with failed := true }) := h.never_of_failed rfl
    intro n
    cases n with
    | zero => exact h.zero _
    | succ n =>
      dsimp only
      rw [h.succ, get_of_end hs hdrop, if_pos missing_and]
      exact hfailed n
  | cons b l ih =>
    rw [bytewise] at hbytes
    by_cases hbit : BitVec.ofNat 32 b.toNat &&& 128 ≠ 0
    · rw [if_pos hbit] at hbytes
      intro n
      cases n with
      | zero => exact h.zero _
      | succ n =>
        dsimp only
        rw [h.succ, get_of_drop hs hdrop, if_pos hbit]
        exact ih (s := { s with pos := s.pos + 1 }) hs (drop_pos_succ hdrop) hbytes n
    · rw [if_neg hbit] at hbytes
      cases hbytes

lemma Bytewise.comes (h : Bytewise f g running out run) (hs : s.failed = false)
    (hbytes : bytewise f g (s.file.drop s.pos) st = some (st', rest)) :
    Comes running (fun n => run n (st, s)) (.ok (out st' ⟨s.file, s.file.length - rest.length, false⟩)) := by
  generalize hdrop : s.file.drop s.pos = l at hbytes
  induction l generalizing s st with
  | nil => cases hbytes
  | cons b l ih =>
    rw [bytewise] at hbytes
    by_cases hbit : BitVec.ofNat 32 b.toNat &&& 128 ≠ 0
    · rw [if_pos hbit] at hbytes
      refine Comes.of_succ (h.zero _) (fun n => ?_)
        (ih (s := { s with pos := s.pos + 1 }) hs (drop_pos_succ hdrop) hbytes)
      rw [h.succ, get_of_drop hs hdrop, if_pos hbit]
    · rw [if_neg hbit] at hbytes
      obtain ⟨rfl, rfl⟩ := Prod.mk.inj (Option.some.inj hbytes)
      refine Comes.of_succ (h.zero _) (fun n => ?_) (comes_const _)
      have hlen := congrArg List.length hdrop
      rw [List.length_drop, List.length_cons] at hlen
      have hpos : s.file.length - l.length = s.pos + 1 := by omega
      rw [h.succ, get_of_drop hs hdrop, if_neg hbit, hpos, ← hs]

end Bytewise

end Stream

end CppExperiments

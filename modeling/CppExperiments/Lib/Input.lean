import CppExperiments.Lib.Bytes

/-!
# Reading binary files

A file is read from a position on. What a reader yields on a text is stated in front of any rest, so that readers in
sequence yield on texts in sequence; the position is a parameter, since a format may align on it.
-/

namespace CppExperiments

/-- An open file: the position, and the bytes from there on. -/
structure Input where
  pos : Nat
  rest : Bytes

abbrev Reading (α : Type) := StateT Input Option α

namespace Reading

variable {α β : Type} {r : Reading α} {f : α → Reading β} {bs cs : Bytes} {pos n : Nat} {a : α} {b : β}

/-- The next `n` bytes; `none` where the file ends before. -/
def read (n : Nat) : Reading Bytes := fun s =>
  if n ≤ s.rest.length then some (s.rest.take n, ⟨s.pos + n, s.rest.drop n⟩) else none

/-- A position from here on, be it behind the end. -/
def seek (n : Nat) : Reading Unit := fun s => some ((), ⟨s.pos + n, s.rest.drop n⟩)

def tell : Reading Nat := fun s => some (s.pos, s)

def bigEndian (w : Nat) : Reading Nat := ofBeBytes <$> read w

/-- The same reader again and again. -/
def times (r : Reading α) : Nat → Reading (List α)
  | 0 => pure []
  | n + 1 => do
    let a ← r
    let as ← times r n
    return a :: as

/-- From the position on, the reader reads the text and yields `a`. -/
def Yields (r : Reading α) (pos : Nat) (bs : Bytes) (a : α) : Prop :=
  ∀ rest, r ⟨pos, bs ++ rest⟩ = some (a, ⟨pos + bs.length, rest⟩)

/-- From the position on, the reader fails on the text. -/
def Fails (r : Reading α) (pos : Nat) (bs : Bytes) : Prop := ∀ rest, r ⟨pos, bs ++ rest⟩ = none

/-- From the position on, the reader reads the text and goes on as `r'`. -/
def Becomes (r : Reading α) (pos : Nat) (bs : Bytes) (r' : Reading α) : Prop :=
  ∀ rest, r ⟨pos, bs ++ rest⟩ = r' ⟨pos + bs.length, rest⟩

lemma bind_apply (r : Reading α) (f : α → Reading β) (s : Input) :
    (r >>= f) s = (r s).bind fun x => f x.1 x.2 := rfl

lemma Yields.pure (pos : Nat) (a : α) : Yields (pure a) pos [] a := fun _ => rfl

lemma Yields.bind (h : Yields r pos bs a) (h' : Yields (f a) (pos + bs.length) cs b) :
    Yields (r >>= f) pos (bs ++ cs) b := by
  intro rest
  rw [bind_apply, List.append_assoc, h, Option.bind_some, h', List.length_append, Nat.add_assoc]

lemma Yields.bind_nil (h : Yields r pos [] a) (h' : Yields (f a) pos cs b) : Yields (r >>= f) pos cs b := h.bind h'

lemma Yields.map (g : α → β) (h : Yields r pos bs a) : Yields (g <$> r) pos bs (g a) := by
  intro rest
  have hmap : (g <$> r) ⟨pos, bs ++ rest⟩ = (r ⟨pos, bs ++ rest⟩).bind fun x => some (g x.1, x.2) := rfl
  rw [hmap, h, Option.bind_some]

lemma Fails.left (h : Fails r pos bs) (f : α → Reading β) (cs : Bytes) : Fails (r >>= f) pos (bs ++ cs) := by
  intro rest
  rw [bind_apply, List.append_assoc, h, Option.bind_none]

lemma Fails.right (h : Yields r pos bs a) (h' : Fails (f a) (pos + bs.length) cs) : Fails (r >>= f) pos (bs ++ cs) := by
  intro rest
  rw [bind_apply, List.append_assoc, h, Option.bind_some, h']

lemma Becomes.refl (r : Reading α) (pos : Nat) : Becomes r pos [] r := fun _ => rfl

lemma Becomes.bind {r' : Reading β} (h : Yields r pos bs a) (h' : Becomes (f a) (pos + bs.length) cs r') :
    Becomes (r >>= f) pos (bs ++ cs) r' := by
  intro rest
  rw [bind_apply, List.append_assoc, h, Option.bind_some, h', List.length_append, Nat.add_assoc]

lemma Becomes.yields {r' : Reading α} (h : Becomes r pos bs r') (h' : Yields r' (pos + bs.length) cs a) :
    Yields r pos (bs ++ cs) a := by
  intro rest
  rw [List.append_assoc, h, h', List.length_append, Nat.add_assoc]

lemma Becomes.fails {r' : Reading α} (h : Becomes r pos bs r') (h' : Fails r' (pos + bs.length) cs) :
    Fails r pos (bs ++ cs) := by
  intro rest
  rw [List.append_assoc, h, h']

lemma yields_read (pos : Nat) (h : bs.length = n) : Yields (read n) pos bs bs := by
  intro rest
  have hle : n ≤ (bs ++ rest).length := by
    rw [List.length_append, h]
    exact Nat.le_add_right n rest.length
  rw [read, if_pos hle, List.take_left' h, List.drop_left' h, h]

lemma yields_seek (pos : Nat) (h : bs.length = n) : Yields (seek n) pos bs () := by
  intro rest
  rw [seek, List.drop_left' h, h]

lemma yields_tell (pos : Nat) : Yields tell pos [] pos := fun _ => rfl

lemma yields_bigEndian (pos w : Nat) (h : n < 256 ^ w) : Yields (bigEndian w) pos (beBytes w n) n := by
  have hread := (yields_read pos (length_beBytes w n)).map ofBeBytes
  rwa [ofBeBytes_beBytes, Nat.mod_eq_of_lt h] at hread

variable {I : Nat → Prop} {encode : α → Bytes} {as : List α}

/-- A run of items, each of which begins where an invariant of the position holds. -/
theorem yields_times (hpos : I pos) (h : ∀ a ∈ as, ∀ pos, I pos → Yields r pos (encode a) a)
    (hinv : ∀ a ∈ as, ∀ pos, I pos → I (pos + (encode a).length)) :
    Yields (r.times as.length) pos (as.flatMap encode) as := by
  induction as generalizing pos with
  | nil => exact .pure pos []
  | cons a as ih =>
    rw [List.forall_mem_cons] at h hinv
    have hrest := ih (hinv.1 pos hpos) h.2 hinv.2
    rw [List.flatMap_cons, ← List.append_nil (as.flatMap encode)]
    exact (h.1 pos hpos).bind (hrest.bind (.pure _ _))

/-- The run fails as soon as one item does. -/
theorem fails_times {P : α → Prop} (hpos : I pos) (h : ∀ a ∈ as, ∀ pos, I pos → P a → Yields r pos (encode a) a)
    (hinv : ∀ a ∈ as, ∀ pos, I pos → I (pos + (encode a).length))
    (hfail : ∀ a ∈ as, ∀ pos, I pos → ¬ P a → Fails r pos (encode a)) (hbad : ∃ a ∈ as, ¬ P a) :
    Fails (r.times as.length) pos (as.flatMap encode) := by
  induction as generalizing pos with
  | nil =>
    obtain ⟨a, ha, -⟩ := hbad
    cases ha
  | cons a as ih =>
    rw [List.forall_mem_cons] at h hinv hfail
    rw [List.flatMap_cons]
    by_cases hP : P a
    · have hrest : ∃ a ∈ as, ¬ P a := by
        obtain ⟨b, hb, hbP⟩ := hbad
        obtain rfl | hb := List.mem_cons.1 hb
        · exact absurd hP hbP
        · exact ⟨b, hb, hbP⟩
      have hfails := (ih (hinv.1 pos hpos) h.2 hinv.2 hfail.2 hrest).left (fun as => Pure.pure (a :: as)) []
      rw [List.append_nil] at hfails
      exact .right (h.1 pos hpos hP) hfails
    · exact (hfail.1 pos hpos hP).left _ _

/-! ## What holds of everything a reader yields -/

def Ensures (r : Reading α) (P : α → Prop) : Prop := ∀ s a s', r s = some (a, s') → P a

variable {P : α → Prop} {Q : β → Prop}

lemma Ensures.pure (h : P a) : Ensures (pure a) P := by
  intro s b s' hb
  obtain ⟨rfl, -⟩ := Prod.mk.inj (Option.some.inj hb)
  exact h

lemma Ensures.bind (h : Ensures r P) (h' : ∀ a, P a → Ensures (f a) Q) : Ensures (r >>= f) Q := by
  intro s b s' hb
  obtain ⟨⟨a, t⟩, ha, hb⟩ := Option.bind_eq_some_iff.1 hb
  exact h' a (h s a t ha) t b s' hb

lemma ensures_bind (h : ∀ a, Ensures (f a) Q) : Ensures (r >>= f) Q := by
  intro s b s' hb
  obtain ⟨⟨a, t⟩, -, hb⟩ := Option.bind_eq_some_iff.1 hb
  exact h a t b s' hb

lemma ensures_read (n : Nat) : Ensures (read n) fun bs => bs.length = n := by
  intro s bs s' h
  rw [read] at h
  by_cases hle : n ≤ s.rest.length
  · rw [if_pos hle] at h
    obtain ⟨rfl, -⟩ := Prod.mk.inj (Option.some.inj h)
    rw [List.length_take, Nat.min_eq_left hle]
  · rw [if_neg hle] at h
    cases h

theorem ensures_times (h : Ensures r P) (n : Nat) : Ensures (r.times n) fun as => as.length = n ∧ ∀ a ∈ as, P a := by
  induction n with
  | zero => exact .pure ⟨rfl, fun a ha => by cases ha⟩
  | succ n ih =>
    refine h.bind fun a ha => ih.bind fun as has => .pure ⟨?_, ?_⟩
    · rw [List.length_cons, has.1]
    · rw [List.forall_mem_cons]
      exact ⟨ha, has.2⟩

end Reading

end CppExperiments

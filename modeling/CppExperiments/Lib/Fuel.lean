import Mathlib.Logic.Basic

/-!
# Calls that are given rounds

A call with at most a number of rounds says that it is still running where they are too few.
-/

namespace CppExperiments

variable {ε α β σ : Type}

/-- The call comes to this, and before that it is still running. -/
structure Comes (running : ε) (call : Nat → Except ε α) (r : Except ε α) : Prop where
  enough : ∃ k, ∀ n ≥ k, call n = r
  before : ∀ n, call n = .error running ∨ call n = r

/-- However many rounds there are, the call is still running. -/
def Never (running : ε) (call : Nat → Except ε α) : Prop := ∀ n, call n = .error running

def Halts (running : ε) (call : Nat → Except ε α) : Prop := ∃ r ≠ .error running, Comes running call r

variable {running : ε} {call call' : Nat → Except ε α} {next : Nat → α → Except ε β} {r : Except ε α} {a : α}

lemma comes_const (c : Except ε α) : Comes running (fun _ => c) c := ⟨⟨0, fun _ _ => rfl⟩, fun _ => Or.inr rfl⟩

lemma Comes.eq_of_const {c : Except ε α} (h : Comes running (fun _ => c) r) : c = r := by
  obtain ⟨k, hk⟩ := h.enough
  exact hk k (Nat.le_refl k)

lemma Comes.unique {r' : Except ε α} (h : Comes running call r) (h' : Comes running call r') : r = r' := by
  obtain ⟨k, hk⟩ := h.enough
  obtain ⟨k', hk'⟩ := h'.enough
  exact (hk _ (Nat.le_max_left k k')).symm.trans (hk' _ (Nat.le_max_right k k'))

lemma halts_const {c : Except ε α} (h : c ≠ .error running) : Halts running fun _ => c := ⟨c, h, comes_const c⟩

lemma not_halts_of_never (h : Never running call) : ¬ Halts running call := by
  rintro ⟨r, hr, hcomes⟩
  obtain ⟨k, hk⟩ := hcomes.enough
  exact hr ((hk k (Nat.le_refl k)).symm.trans (h k))

/-! ## One call after the other -/

lemma Comes.bind {r : Except ε β} (h : Comes running call (.ok a)) (hnext : Comes running (fun n => next n a) r) :
    Comes running (fun n => call n >>= next n) r := by
  obtain ⟨k, hk⟩ := h.enough
  obtain ⟨k', hk'⟩ := hnext.enough
  refine ⟨⟨max k k', fun n hn => ?_⟩, fun n => ?_⟩
  · rw [hk n (Nat.le_trans (Nat.le_max_left k k') hn)]
    exact hk' n (Nat.le_trans (Nat.le_max_right k k') hn)
  · rcases h.before n with hcall | hcall
    · rw [hcall]
      exact Or.inl rfl
    · rw [hcall]
      exact hnext.before n

lemma Comes.bind_error {e : ε} (h : Comes running call (.error e)) :
    Comes running (fun n => call n >>= next n) (.error e) := by
  obtain ⟨k, hk⟩ := h.enough
  refine ⟨⟨k, fun n hn => ?_⟩, fun n => ?_⟩
  · rw [hk n hn]
    rfl
  · rcases h.before n with hcall | hcall
    · rw [hcall]
      exact Or.inl rfl
    · rw [hcall]
      exact Or.inr rfl

lemma Never.bind (h : Never running call) : Never running fun n => call n >>= next n := by
  intro n
  dsimp only
  rw [h n]
  rfl

lemma Halts.bind (h : Halts running call) (hnext : ∀ a, Comes running call (.ok a) → Halts running fun n => next n a) :
    Halts running fun n => call n >>= next n := by
  obtain ⟨r, hr, hcomes⟩ := h
  cases r with
  | error e => exact ⟨.error e, fun heq => hr (congrArg Except.error (Except.error.inj heq)), hcomes.bind_error⟩
  | ok a =>
    obtain ⟨r, hr, hcomes'⟩ := hnext a hcomes
    exact ⟨r, hr, hcomes.bind hcomes'⟩

lemma Halts.mapM {f : Nat → α → Except ε β} {l : List α} (h : ∀ a ∈ l, Halts running fun n => f n a) :
    Halts running fun n => l.mapM (f n) := by
  induction l with
  | nil => exact halts_const nofun
  | cons a l ih =>
    simp only [List.mapM_cons]
    refine (h a List.mem_cons_self).bind fun b _ => ?_
    exact (ih fun a ha => h a (List.mem_cons_of_mem _ ha)).bind fun bs _ => halts_const nofun

/-- Behind a call that throws none is made. -/
lemma Halts.mapM_takeWhile {f : Nat → α → Except ε β} {l : List α} {p : α → Bool}
    (h : ∀ a ∈ l.takeWhile p, Halts running fun n => f n a)
    (hthrows : ∀ a, p a = false → ∃ e ≠ running, ∀ n, f n a = .error e) : Halts running fun n => l.mapM (f n) := by
  induction l with
  | nil => exact halts_const nofun
  | cons a l ih =>
    simp only [List.mapM_cons]
    by_cases hp : p a = true
    · rw [List.takeWhile_cons_of_pos hp] at h
      refine (h a List.mem_cons_self).bind fun b _ => ?_
      exact (ih fun a ha => h a (List.mem_cons_of_mem _ ha)).bind fun bs _ => halts_const nofun
    · obtain ⟨e, he, hthrow⟩ := hthrows a (Bool.eq_false_iff.2 hp)
      simp only [hthrow]
      exact halts_const fun heq => he (Except.error.inj heq)

lemma Comes.mapM {f : Nat → α → Except ε β} {g : α → β} {l : List α}
    (h : ∀ a ∈ l, Comes running (fun n => f n a) (.ok (g a))) : Comes running (fun n => l.mapM (f n))
      (.ok (l.map g)) := by
  induction l with
  | nil => exact comes_const _
  | cons a l ih =>
    simp only [List.mapM_cons]
    refine (h a List.mem_cons_self).bind ?_
    exact (ih fun a ha => h a (List.mem_cons_of_mem _ ha)).bind (comes_const _)

/-! ## Calls that go on as others -/

/-- With rounds enough a call does what the other one does, and before that it is still running. -/
structure GoesOn (running : ε) (call next : Nat → Nat → Except ε α) : Prop where
  enough : ∃ k, ∀ n ≥ k, ∀ m, call n m = next n m
  before : ∀ n m, call n m = .error running ∨ call n m = next n m

lemma goesOn_refl (call : Nat → Nat → Except ε α) :
    GoesOn running call call := ⟨⟨0, fun _ _ _ => rfl⟩, fun _ _ => Or.inr rfl⟩

lemma GoesOn.trans {first second third : Nat → Nat → Except ε α} (h : GoesOn running first second)
    (h' : GoesOn running second third) : GoesOn running first third := by
  obtain ⟨k, hk⟩ := h.enough
  obtain ⟨k', hk'⟩ := h'.enough
  refine ⟨⟨max k k', fun n hn m => ?_⟩, fun n m => ?_⟩
  · rw [hk n (Nat.le_trans (Nat.le_max_left k k') hn)]
    exact hk' n (Nat.le_trans (Nat.le_max_right k k') hn) m
  · rcases h.before n m with hcall | hcall
    · exact Or.inl hcall
    · rw [hcall]
      exact h'.before n m

lemma Comes.goesOn {next : Nat → Nat → α → Except ε β} (h : Comes running call (.ok a)) :
    GoesOn running (fun n m => call n >>= next n m) fun n m => next n m a := by
  obtain ⟨k, hk⟩ := h.enough
  refine ⟨⟨k, fun n hn m => ?_⟩, fun n m => ?_⟩
  · rw [hk n hn]
    rfl
  · rcases h.before n with hcall | hcall
    · rw [hcall]
      exact Or.inl rfl
    · rw [hcall]
      exact Or.inr rfl

lemma Comes.goesOn_error {next : Nat → Nat → α → Except ε β} {e : ε} (h : Comes running call (.error e)) :
    GoesOn running (fun n m => call n >>= next n m) fun _ _ => .error e := by
  obtain ⟨k, hk⟩ := h.enough
  refine ⟨⟨k, fun n hn m => ?_⟩, fun n m => ?_⟩
  · rw [hk n hn]
    rfl
  · rcases h.before n with hcall | hcall
    · rw [hcall]
      exact Or.inl rfl
    · rw [hcall]
      exact Or.inr rfl

/-! ## Loops -/

/-- One more round leads on to another call. -/
lemma Comes.of_succ (hzero : call 0 = .error running) (hsucc : ∀ n, call (n + 1) = call' n)
    (h : Comes running call' r) :
    Comes running call r := by
  obtain ⟨k, hk⟩ := h.enough
  refine ⟨⟨k + 1, fun n hn => ?_⟩, fun n => ?_⟩
  · obtain ⟨m, rfl⟩ := Nat.exists_eq_add_of_le' (Nat.le_of_add_left_le hn)
    rw [hsucc]
    exact hk m (Nat.le_of_add_le_add_right hn)
  · cases n with
    | zero => exact Or.inl hzero
    | succ n =>
      rw [hsucc]
      exact h.before n

/-- A loop that every round either ends or leads on to a state with a smaller measure. -/
lemma halts_of_measure (run : Nat → σ → Except ε β) (I : σ → Prop) (size : σ → Nat)
    (hzero : ∀ s, run 0 s = .error running)
    (hround : ∀ s, I s → (∃ c ≠ .error running, ∀ n, run (n + 1) s = c) ∨
      ∃ s', I s' ∧ size s' < size s ∧ ∀ n, run (n + 1) s = run n s')
    {s : σ} (hs : I s) : Halts running fun n => run n s := by
  induction hsize : size s using Nat.strongRecOn generalizing s with
  | ind k ih =>
    rcases hround s hs with ⟨c, hc, hend⟩ | ⟨s', hs', hlt, hon⟩
    · exact ⟨c, hc, Comes.of_succ (hzero s) hend (comes_const c)⟩
    · obtain ⟨r, hr, hcomes⟩ := ih (size s') (hsize ▸ hlt) hs' rfl
      exact ⟨r, hr, Comes.of_succ (hzero s) hon hcomes⟩

/-- A loop that every round leads on never ends. -/
lemma never_of_rounds (run : Nat → σ → Except ε β) (I : σ → Prop) (hzero : ∀ s, run 0 s = .error running)
    (hround : ∀ s, I s → ∃ s', I s' ∧ ∀ n, run (n + 1) s = run n s') {s : σ} (hs : I s) : Never running fun n =>
      run n s := by
  intro n
  induction n generalizing s with
  | zero => exact hzero s
  | succ n ih =>
    obtain ⟨s', hs', hon⟩ := hround s hs
    exact (hon n).trans (ih hs')

/-- A loop over a list, with what every call establishes for its element and no later one takes back. -/
lemma comes_foldlM {f : Nat → σ → α → Except ε σ} {I : σ → Prop} {P : α → σ → Prop} {l : List α}
    (hstep : ∀ a ∈ l, ∀ s, I s → ∃ s', Comes running (fun n => f n s a) (.ok s') ∧ I s' ∧ P a s' ∧ ∀ b, P b s → P b s')
    {s : σ} (hs : I s) :
    ∃ s', Comes running (fun n => l.foldlM (f n) s) (.ok s') ∧ I s' ∧ (∀ a ∈ l, P a s') ∧ ∀ b, P b s → P b s' := by
  induction l generalizing s with
  | nil => exact ⟨s, comes_const _, hs, fun a ha => absurd ha List.not_mem_nil, fun b hb => hb⟩
  | cons a l ih =>
    obtain ⟨s₁, hcomes, hs₁, ha, hkeep⟩ := hstep a List.mem_cons_self s hs
    obtain ⟨s₂, hcomes', hs₂, hl, hkeep'⟩ := ih (fun b hb => hstep b (List.mem_cons_of_mem a hb)) hs₁
    refine ⟨s₂, ?_, hs₂, ?_, fun b hb => hkeep' b (hkeep b hb)⟩
    · simp only [List.foldlM_cons]
      exact hcomes.bind hcomes'
    · intro b hb
      rcases List.mem_cons.1 hb with rfl | hb
      · exact hkeep' b ha
      · exact hl b hb

end CppExperiments

import CppExperiments.Lib.Calls
import CppExperiments.Puzzles.WordSearch

/-!
# Words that are placed

A candidate lies in the grid and meets no other letter, the removal of a word undoes its insertion, and so the
backtracking either places all words or leaves everything as it was.
-/

namespace CppExperiments.Puzzles

open Grid

variable {grid grid' : List Bytes} {word w : Bytes} {x y dx dy z d overlaps overlaps' : Int} {n k m size : Nat}
  {ch : UInt8}
  {c : Candidate} {candidates : List Candidate}

/-- No other letter stands in the way of the word. -/
def Open (grid : List Bytes) (word : Bytes) (x y dx dy : Int) : Prop :=
  ∀ k < word.length, cell grid (x + k * dx) (y + k * dy) = some star ∨ cell grid (x + k * dx) (y + k * dy) = word[k]?

/-! ## Candidates -/

lemma toInt_lt (n : Nat) : toInt n < 2 ^ 31 := by
  unfold toInt
  exact Int.bmod_lt (by decide)

/-- Along one axis the steps stay in the grid. -/
lemma axis_of_lt (hd : d = -1 ∨ d = 0 ∨ d = 1) (hz : 0 ≤ z) (hlt : z < toInt size)
    (hroom : n < (z - bound d size).natAbs + 1)
    (hk : k < n) : 0 ≤ z + k * d ∧ z + k * d < toInt size := by
  unfold bound at hroom
  rcases hd with rfl | rfl | rfl
  · rw [if_neg (by decide), if_pos (by decide)] at hroom
    omega
  · omega
  · rw [if_neg (by decide), if_neg (by decide)] at hroom
    omega

/-- A word that is shorter than the bound lies in the grid. -/
lemma isValid_of_lt_maxDist (hd : (dx, dy) ∈ dirs) (hvalid : isValid grid x y = true)
    (hroom : n < maxDist grid x y dx dy)
    (hk : k < n) : isValid grid (x + k * dx) (y + k * dy) = true := by
  obtain ⟨hx, hy, hrow, hcol⟩ := isValid_iff.1 hvalid
  obtain ⟨hdx, hdy, -⟩ := mem_dirs hd
  rw [maxDist] at hroom
  obtain ⟨hxlo, hxhi⟩ := axis_of_lt hdx hx hrow (hroom.trans_le (Nat.succ_le_succ (min_le_left _ _))) hk
  obtain ⟨hylo, hyhi⟩ := axis_of_lt hdy hy hcol (hroom.trans_le (Nat.succ_le_succ (min_le_right _ _))) hk
  exact isValid_iff.2 ⟨hxlo, hylo, hxhi, hyhi⟩

/-- Such a word can be counted by an int. -/
lemma le_intMax_of_lt_maxDist (hd : (dx, dy) ∈ dirs) (hvalid : isValid grid x y = true)
    (hroom : n < maxDist grid x y dx dy) :
    n ≤ intMax := by
  have haxis : ∀ {z d : Int} {size : Nat}, d = -1 ∨ d = 1 → 0 ≤ z → z < toInt size → n < (z - bound d size).natAbs + 1 →
      n ≤ intMax := by
    intro z d size hd hz hlt hroom
    have hsize := toInt_lt size
    unfold bound at hroom
    unfold intMax
    rcases hd with rfl | rfl
    · rw [if_neg (by decide), if_pos (by decide)] at hroom
      omega
    · rw [if_neg (by decide), if_neg (by decide)] at hroom
      omega
  obtain ⟨hx, hy, hrow, hcol⟩ := isValid_iff.1 hvalid
  obtain ⟨hdx, hdy, hne⟩ := mem_dirs hd
  rw [maxDist] at hroom
  rcases hne with hne | hne
  · exact haxis (by omega) hx hrow (hroom.trans_le (Nat.succ_le_succ (min_le_left _ _)))
  · exact haxis (by omega) hy hcol (hroom.trans_le (Nat.succ_le_succ (min_le_right _ _)))

lemma open_cons : Open grid (ch :: word) x y dx dy ↔
    (cell grid x y = some star ∨ cell grid x y = some ch) ∧ Open grid word (x + dx) (y + dy) dx dy :=
  forall_along_cons (P := fun c letter => c = some star ∨ c = letter)

/-- A scan that is not cut short by the edge finds out whether the way is open. -/
lemma open_of_scan (hvalid : ∀ k < word.length, isValid grid (x + k * dx) (y + k * dy) = true)
    (h : scan grid dx dy word x y overlaps = .ok (some overlaps')) : Open grid word x y dx dy := by
  induction word generalizing x y overlaps with
  | nil => exact fun k hk => absurd hk (Nat.not_lt_zero k)
  | cons ch word ih =>
    have hfirst : isValid grid x y = true := by simpa using hvalid 0 (Nat.zero_lt_succ _)
    have hrest : ∀ k < word.length, isValid grid (x + dx + k * dx) (y + dy + k * dy) = true := by
      intro k hk
      rw [← add_succ_mul, ← add_succ_mul]
      exact hvalid (k + 1) (Nat.succ_lt_succ hk)
    rw [scan, if_pos hfirst, readCell] at h
    cases hcell : cell grid x y with
    | none =>
      rw [hcell] at h
      cases h
    | some gridCh =>
      rw [hcell] at h
      by_cases hother : gridCh ≠ star ∧ gridCh ≠ ch
      · change (if gridCh ≠ star ∧ gridCh ≠ ch then _ else _) = _ at h
        rw [if_pos hother] at h
        cases h
      · change (if gridCh ≠ star ∧ gridCh ≠ ch then _ else _) = _ at h
        rw [if_neg hother] at h
        refine open_cons.2 ⟨?_, ih hrest h⟩
        rw [hcell, Option.some_inj, Option.some_inj]
        tauto

/-- In a rectangle a scan reads no cell that is not there. -/
lemma exists_scan (hrect : Rectangular grid) (word : Bytes) (x y overlaps : Int) :
    ∃ r, scan grid dx dy word x y overlaps = .ok r := by
  induction word generalizing x y overlaps with
  | nil => exact ⟨_, rfl⟩
  | cons ch word ih =>
    rw [scan]
    by_cases hvalid : isValid grid x y = true
    · obtain ⟨gridCh, hcell⟩ := exists_cell_of_isValid hrect hvalid
      rw [if_pos hvalid, readCell_eq hcell]
      change ∃ r, (if gridCh ≠ star ∧ gridCh ≠ ch then _ else _) = _
      split
      · exact ⟨_, rfl⟩
      · exact ih _ _ _
    · rw [if_neg hvalid]
      exact ⟨_, rfl⟩

lemma open_of_overlapsAt {start : (Nat × Nat) × (Int × Int)} (hstart : start.2 ∈ dirs)
    (h : overlapsAt grid word start = .ok (some overlaps)) :
    word.length ≤ intMax ∧ Open grid word (toInt start.1.1) (toInt start.1.2) start.2.1 start.2.2 := by
  unfold overlapsAt at h
  dsimp only at h
  by_cases hroom : isValid grid (toInt start.1.1) (toInt start.1.2) = true ∧
      word.length < maxDist grid (toInt start.1.1) (toInt start.1.2) start.2.1 start.2.2
  · rw [if_pos hroom] at h
    exact ⟨le_intMax_of_lt_maxDist hstart hroom.1 hroom.2,
      open_of_scan (fun k hk => isValid_of_lt_maxDist hstart hroom.1 hroom.2 hk) h⟩
  · rw [if_neg hroom] at h
    cases h

lemma exists_overlapsAt (hrect : Rectangular grid) (word : Bytes) (start : (Nat × Nat) × (Int × Int)) :
    ∃ found, overlapsAt grid word start = .ok found := by
  unfold overlapsAt
  dsimp only
  split
  · exact exists_scan hrect _ _ _ _
  · exact ⟨none, rfl⟩

/-- The word can be inserted: it lies in the grid, and no other letter stands in its way. -/
structure Candidate.Fits (c : Candidate) (grid : List Bytes) (word : Bytes) : Prop where
  dir : (c.dirX, c.dirY) ∈ dirs
  length : word.length ≤ intMax
  isOpen : Open grid word c.row c.col c.dirX c.dirY

section

variable {γ : Type} {sorting : CandidateSort} {randInt : γ → Int × γ} {gen gen' : γ} {s s' : List Candidate × γ}
  {start : (Nat × Nat) × (Int × Int)}

lemma fits_addCandidate (hstart : start.2 ∈ dirs) (hs : ∀ c ∈ s.1, c.Fits grid word)
    (h : addCandidate randInt grid word s start = .ok s') : (∀ c ∈ s'.1, c.Fits grid word) ∧
      s'.1.length ≤ s.1.length + 1 := by
  rw [addCandidate] at h
  obtain ⟨found, hfound, h⟩ := bind_eq_ok h
  cases found with
  | none =>
    obtain rfl := Except.ok.inj h
    exact ⟨hs, Nat.le_succ _⟩
  | some overlaps =>
    obtain ⟨hlength, hopen⟩ := open_of_overlapsAt hstart hfound
    obtain rfl := Except.ok.inj h
    dsimp only
    refine ⟨fun c hc => ?_, (List.length_append ..).le⟩
    rcases List.mem_append.1 hc with hc | hc
    · exact hs c hc
    · rw [List.mem_singleton.1 hc]
      refine ⟨hstart, hlength, ?_⟩
      dsimp only
      exact hopen

/-- All candidates fit, and there are no more than places to start from. -/
lemma fits_generateCandidates (h : generateCandidates sorting randInt grid word gen = .ok (candidates, gen')) :
    (∀ c ∈ candidates, c.Fits grid word) ∧ candidates.length ≤ (starts grid).length := by
  obtain ⟨s, hs, h⟩ := bind_eq_ok h
  have hfits : (∀ c ∈ s.1, c.Fits grid word) ∧ s.1.length ≤ (starts grid).length := by
    refine foldlM_done (P := fun done s => (∀ c ∈ s.1, c.Fits grid word) ∧ s.1.length ≤ done.length) ?_
      ⟨fun c hc => absurd hc List.not_mem_nil, Nat.le_refl 0⟩ hs
    intro done start hstart s s' hdone hadd
    obtain ⟨hfits, hlength⟩ := fits_addCandidate (mem_starts.1 hstart).2 hdone.1 hadd
    refine ⟨hfits, hlength.trans ?_⟩
    rw [List.length_append, List.length_singleton]
    exact Nat.succ_le_succ hdone.2
  obtain ⟨rfl, -⟩ := Prod.mk.inj (Except.ok.inj h)
  have hperm := sorting.perm s.1
  exact ⟨fun c hc => hfits.1 c (hperm.mem_iff.1 hc), hperm.length_eq.trans_le hfits.2⟩

lemma exists_generateCandidates (hrect : Rectangular grid) (word : Bytes) (gen : γ) :
    ∃ r, generateCandidates sorting randInt grid word gen = .ok r := by
  have hloop : ∃ s, (starts grid).foldlM (addCandidate randInt grid word) ([], gen) = .ok s := by
    refine exists_foldlM_ok (P := fun _ => True) (fun start _ s _ => ?_) trivial
    obtain ⟨found, hfound⟩ := exists_overlapsAt hrect word start
    rw [addCandidate, hfound]
    cases found with
    | none => exact ⟨s, rfl, trivial⟩
    | some overlaps => exact ⟨_, rfl, trivial⟩
  obtain ⟨s, hs⟩ := hloop
  rw [generateCandidates, hs]
  exact ⟨_, rfl⟩

end

/-! ## Insertion and removal -/

def Candidate.pos (c : Candidate) (idx : Nat) : Int × Int := (c.x idx, c.y idx)

lemma Candidate.Fits.injective_pos (h : c.Fits grid word) : Function.Injective c.pos := by
  intro k k' heq
  obtain ⟨hx, hy⟩ := Prod.mk.inj heq
  unfold Candidate.x at hx
  unfold Candidate.y at hy
  obtain ⟨hdx, hdy, hne⟩ := mem_dirs h.dir
  have hmul : ∀ {a d : Int}, d = -1 ∨ d = 1 → a + k * d = a + k' * d → k = k' := by
    intro a d hd heq
    rcases hd with rfl | rfl <;> omega
  rcases hne with hne | hne
  · exact hmul (by omega) hx
  · exact hmul (by omega) hy

lemma Candidate.Fits.indices (h : c.Fits grid word) : indices word = List.range word.length := by
  rw [Puzzles.indices, toInt_eq h.length, Int.toNat_natCast]

lemma getD_eq (hk : k < word.length) : word[k]? = some (word.getD k 0) := by
  rw [List.getD_eq_getElem?_getD, List.getElem?_eq_getElem hk, Option.getD_some]

lemma Candidate.Fits.exists_cell (h : c.Fits grid word) (hk : k < word.length) :
    ∃ ch, cell grid (c.x k) (c.y k) = some ch := by
  rcases h.isOpen k hk with hstar | hsame
  · exact ⟨star, hstar⟩
  · exact ⟨_, hsame.trans (getD_eq hk)⟩

/-- What is written and told when some letters are inserted. -/
def Inserted (c : Candidate) (grid : List Bytes) (word : Bytes) (m : Nat) (s : List Bytes × Finset Nat) : Prop :=
  Written c.pos (fun k => word[k]?) m grid s.1 ∧ ∀ k, k ∈ s.2 ↔ k < m ∧ cell grid (c.x k) (c.y k) = word[k]?

lemma Candidate.Fits.insertLetter {s : List Bytes × Finset Nat} (h : c.Fits grid word) (hm : m < word.length)
    (hs : Inserted c grid word m s) : ∃ s', Puzzles.insertLetter word c s m = .ok s' ∧
      Inserted c grid word (m + 1) s' := by
  obtain ⟨hwritten, hoverlaps⟩ := hs
  obtain ⟨gridCh, hcell⟩ := h.exists_cell hm
  have hcell' : cell s.1 (c.x m) (c.y m) = some gridCh := (hwritten.cell_next h.injective_pos).trans hcell
  refine ⟨(putCell s.1 (c.x m) (c.y m) (word.getD m 0), if gridCh = word.getD m 0 then insert m s.2 else s.2), ?_, ?_,
    fun k => ?_⟩
  · rw [Puzzles.insertLetter, readCell_eq hcell']
    change writeCell s.1 (c.x m) (c.y m) (word.getD m 0) >>= _ = _
    rw [writeCell_eq (hcell' ▸ Option.some_ne_none gridCh)]
    rfl
  · exact hwritten.put h.injective_pos (hcell ▸ Option.some_ne_none gridCh) (getD_eq hm)
  · have hiff : gridCh = word.getD m 0 ↔ cell grid (c.x m) (c.y m) = word[m]? := by
      rw [hcell, getD_eq hm, Option.some_inj]
    dsimp only
    rw [Nat.lt_succ_iff_lt_or_eq, or_and_right, ← hoverlaps k]
    by_cases hsame : gridCh = word.getD m 0
    · rw [if_pos hsame, Finset.mem_insert]
      constructor
      · rintro (rfl | hk)
        · exact .inr ⟨rfl, hiff.1 hsame⟩
        · exact .inl hk
      · rintro (hk | ⟨rfl, -⟩)
        · exact .inr hk
        · exact .inl rfl
    · rw [if_neg hsame]
      constructor
      · exact .inl
      · rintro (hk | ⟨rfl, hk⟩)
        · exact hk
        · exact absurd (hiff.2 hk) hsame

/-- A candidate that fits takes the word, and the overlaps are where its letters stood before. -/
lemma Candidate.Fits.exists_insertWord (h : c.Fits grid word) :
    ∃ s, insertWord grid word c = .ok s ∧ Inserted c grid word word.length s := by
  have hrun : ∀ m ≤ word.length, ∃ s, (List.range m).foldlM (Puzzles.insertLetter word c) (grid, ∅) = .ok s ∧
    Inserted c grid word m s := by
    intro m hm
    induction m with
    | zero =>
      refine ⟨(grid, ∅), rfl, written_zero _ _ _, fun k => ⟨fun hk => absurd hk (Finset.notMem_empty k), ?_⟩⟩
      exact fun hk => absurd hk.1 (Nat.not_lt_zero k)
    | succ m ih =>
      obtain ⟨s, hloop, hs⟩ := ih (Nat.le_of_succ_le hm)
      obtain ⟨s', hletter, hs'⟩ := h.insertLetter hm hs
      exact ⟨s', (foldlM_range_succ hloop).trans hletter, hs'⟩
  rw [insertWord, h.indices]
  exact hrun word.length (Nat.le_refl _)

/-- The removal of a word that was inserted leaves the grid as it was. -/
lemma Candidate.Fits.removeWord {s : List Bytes × Finset Nat} (h : c.Fits grid word)
    (hs : Inserted c grid word word.length s) :
    Puzzles.removeWord s.1 word c s.2 = .ok grid := by
  obtain ⟨hwritten, hoverlaps⟩ := hs
  have hrun : ∀ m ≤ word.length, ∃ grid', (List.range m).foldlM (removeLetter c s.2) s.1 = .ok grid' ∧
      Written c.pos (fun k => cell grid (c.x k) (c.y k)) m s.1 grid' := by
    intro m hm
    induction m with
    | zero => exact ⟨s.1, rfl, written_zero _ _ _⟩
    | succ m ih =>
      obtain ⟨grid', hloop, hback⟩ := ih (Nat.le_of_succ_le hm)
      have hcell : cell s.1 (c.x m) (c.y m) = word[m]? := hwritten.at_pos m hm
      have hletter : ∃ grid'', removeLetter c s.2 grid' m = .ok grid'' ∧
          Written c.pos (fun k => cell grid (c.x k) (c.y k)) (m + 1) s.1 grid'' := by
        by_cases hsame : m ∈ s.2
        · exact ⟨grid', if_pos hsame, hback.keep h.injective_pos (hcell.trans ((hoverlaps m).1 hsame).2.symm)⟩
        · have hstar := (h.isOpen m hm).resolve_right fun hword => hsame ((hoverlaps m).2 ⟨hm, hword⟩)
          have hsome : cell s.1 (c.x m) (c.y m) ≠ none := by
            rw [hcell, getD_eq hm]
            exact Option.some_ne_none _
          have hsome' : cell grid' (c.x m) (c.y m) ≠ none := (hback.cell_next h.injective_pos).trans_ne hsome
          exact ⟨_, (if_neg hsame).trans (writeCell_eq hsome' star), hback.put h.injective_pos hsome hstar⟩
      obtain ⟨grid'', hletter, hback'⟩ := hletter
      exact ⟨grid'', (foldlM_range_succ hloop).trans hletter, hback'⟩
  obtain ⟨grid', hloop, hback⟩ := hrun word.length (Nat.le_refl _)
  rw [Puzzles.removeWord, h.indices, hloop, hwritten.eq_of_back hback fun k _ => rfl]

/-! ## Backtracking -/

/-- The cells that are not free have not changed. -/
def Kept (grid grid' : List Bytes) : Prop := ∀ x y ch, cell grid x y = some ch → ch ≠ star → cell grid' x y = some ch

lemma kept_refl (grid : List Bytes) : Kept grid grid := fun _ _ _ h _ => h

lemma Kept.trans {grid'' : List Bytes} (h : Kept grid grid') (h' : Kept grid' grid'') : Kept grid grid'' :=
  fun x y ch hcell hch => h' x y ch (h x y ch hcell hch) hch

lemma Kept.reads (h : Kept grid grid') (hw : star ∉ w) (hreads : Reads grid w x y dx dy) : Reads grid' w x y dx dy := by
  intro k hk
  have hcell := hreads k hk
  rw [getD_eq hk] at hcell ⊢
  exact h _ _ _ hcell fun hstar => hw (hstar ▸ List.mem_of_getElem? (getD_eq hk))

lemma Candidate.Fits.kept (h : c.Fits grid word) {s : List Bytes × Finset Nat}
    (hs : Inserted c grid word word.length s) :
    Kept grid s.1 := by
  intro x y ch hcell hch
  by_cases hon : ∃ k < word.length, c.pos k = (x, y)
  · obtain ⟨k, hk, hpos⟩ := hon
    obtain ⟨rfl, rfl⟩ := Prod.mk.inj hpos
    rcases h.isOpen k hk with hstar | hsame
    · exact absurd (Option.some.inj (hcell.symm.trans hstar)) hch
    · exact (hs.1.at_pos k hk).trans (hsame.symm.trans hcell)
  · rw [hs.1.off x y fun k hk heq => hon ⟨k, hk, heq⟩, hcell]

/-- A rectangle whose candidates can be counted by an int, and a threshold that is not negative. -/
structure Roomy (threshold : Int) (grid : List Bytes) : Prop where
  rectangular : Rectangular grid
  nonneg : 0 ≤ threshold
  count : (starts grid).length ≤ intMax

lemma Roomy.of_shape {threshold : Int} (h : Roomy threshold grid)
    (hshape : grid'.map List.length = grid.map List.length) :
    Roomy threshold grid' := by
  refine ⟨h.rectangular.of_shape hshape, h.nonneg, ?_⟩
  rw [starts, cellsOf, length_of_shape hshape, width_of_shape hshape]
  exact h.count

section

variable {γ : Type} {sorting : CandidateSort} {randInt : γ → Int × γ} {threshold : Int} {words : List Bytes}
  {s s' : Generation γ}
  {r : Except Fault (Bool × Generation γ)} {generate generate' : Generation γ → Except Fault (Bool × Generation γ)}

/-- What comes of placing some words in a grid. -/
structure Outcome (threshold : Int) (grid : List Bytes) (words : List Bytes)
    (r : Except Fault (Bool × Generation γ)) : Prop where
  kept : ∀ s', r = .ok (true, s') → Kept grid s'.grid
  readable : ∀ s', r = .ok (true, s') → ∀ w ∈ words, star ∉ w → Readable s'.grid w
  restored : ∀ s', r = .ok (false, s') → s'.grid = grid ∧ s'.words = words
  returns : Roomy threshold grid → ∃ done s', r = .ok (done, s')

lemma Outcome.of_error {f : Fault} (h : ¬ Roomy threshold grid) :
    Outcome threshold grid words (.error f : Except Fault (Bool × Generation γ)) :=
  ⟨nofun, nofun, nofun, fun hroomy => absurd hroomy h⟩

/-- One candidate after the other: what the calls for the words before come to, the call for one more word does too. -/
lemma outcome_tryCandidates (hgenerate : ∀ s' : Generation γ, s'.words = words →
    Outcome threshold s'.grid words (generate s'))
    (hwords : s.words = words) (hfits : ∀ c ∈ candidates, c.Fits s.grid word) :
    Outcome threshold s.grid (words ++ [word]) (tryCandidates generate word candidates s) := by
  induction candidates generalizing s with
  | nil =>
    rw [tryCandidates, hwords]
    refine ⟨fun s' h => ?_, fun s' h => ?_, fun s' h => ?_, fun _ => ⟨false, _, rfl⟩⟩
    · cases h
    · cases h
    · obtain ⟨-, rfl⟩ := Prod.mk.inj (Except.ok.inj h)
      exact ⟨rfl, rfl⟩
  | cons c candidates ih =>
    have hc := hfits c List.mem_cons_self
    obtain ⟨inserted, hinsert, hs⟩ := hc.exists_insertWord
    have houtcome := hgenerate { s with grid := inserted.1 } hwords
    dsimp only at houtcome
    rw [tryCandidates, hinsert]
    rw [ok_bind]
    dsimp only
    cases hcall : generate { s with grid := inserted.1 } with
    | error f =>
      refine Outcome.of_error fun hroomy => ?_
      obtain ⟨done, s', hreturns⟩ := houtcome.returns (hroomy.of_shape hs.1.shape)
      rw [hcall] at hreturns
      cases hreturns
    | ok result =>
      obtain ⟨done, s'⟩ := result
      cases done with
      | true =>
        have hkept := houtcome.kept s' hcall
        refine ⟨fun s'' h => ?_, fun s'' h w hw hstar => ?_, fun s'' h => ?_, fun _ => ⟨true, s', rfl⟩⟩
        · obtain ⟨-, rfl⟩ := Prod.mk.inj (Except.ok.inj h)
          exact (hc.kept hs).trans hkept
        · obtain ⟨-, rfl⟩ := Prod.mk.inj (Except.ok.inj h)
          rcases List.mem_append.1 hw with hw | hw
          · exact houtcome.readable s' hcall w hw hstar
          · obtain rfl := List.mem_singleton.1 hw
            exact ⟨c.row, c.col, (c.dirX, c.dirY), hc.dir, hkept.reads hstar hs.1.at_pos⟩
        · cases h
      | false =>
        obtain ⟨hgrid, hwords'⟩ := houtcome.restored s' hcall
        rw [ok_bind]
        dsimp only
        rw [if_neg Bool.false_ne_true, hgrid, hc.removeWord hs, ok_bind]
        exact @ih { s' with grid := s.grid } hwords' fun c' hc' => hfits c' (List.mem_cons_of_mem c hc')

/-- Calls that do the same for the words before do the same for one more. -/
lemma tryCandidates_congr (hgenerate : ∀ s' : Generation γ, s'.words = words →
    Outcome threshold s'.grid words (generate s'))
    (hsame : ∀ s' : Generation γ, s'.words = words → generate s' = generate' s') (hwords : s.words = words)
    (hfits : ∀ c ∈ candidates, c.Fits s.grid word) :
    tryCandidates generate word candidates s = tryCandidates generate' word candidates s := by
  induction candidates generalizing s with
  | nil => rfl
  | cons c candidates ih =>
    have hc := hfits c List.mem_cons_self
    obtain ⟨inserted, hinsert, hs⟩ := hc.exists_insertWord
    have houtcome := hgenerate { s with grid := inserted.1 } hwords
    rw [tryCandidates, tryCandidates, hinsert]
    rw [ok_bind, ok_bind]
    dsimp only
    rw [← hsame { s with grid := inserted.1 } hwords]
    cases hcall : generate { s with grid := inserted.1 } with
    | error f => rw [error_bind, error_bind]
    | ok result =>
      obtain ⟨done, s'⟩ := result
      cases done with
      | true =>
        rw [ok_bind, ok_bind]
        dsimp only
        rw [if_pos rfl, if_pos rfl]
      | false =>
        obtain ⟨hgrid, hwords'⟩ := houtcome.restored s' hcall
        rw [ok_bind, ok_bind]
        dsimp only
        rw [if_neg Bool.false_ne_true, if_neg Bool.false_ne_true, hgrid, hc.removeWord hs, ok_bind, ok_bind]
        exact @ih { s' with grid := s.grid } hwords' fun c' hc' => hfits c' (List.mem_cons_of_mem c hc')

lemma backtrackGenerate_nil (hwords : s.words = []) (n : Nat) :
    backtrackGenerate sorting randInt threshold (n + 1) s = .ok (true, s) := by
  rw [backtrackGenerate, hwords]
  rfl

/-- The candidates of the last word are tried with the calls for the words before. -/
lemma backtrackGenerate_concat (hwords : s.words = words ++ [word]) (n : Nat) :
    backtrackGenerate sorting randInt threshold (n + 1) s =
      (generateCandidates sorting randInt s.grid word s.gen >>= fun result =>
        if min threshold (toInt result.1.length) < 0 then .error .length
        else tryCandidates (backtrackGenerate sorting randInt threshold n) word
          (result.1.take (min threshold (toInt result.1.length)).toNat)
          { s with words := words, gen := result.2 }) := by
  rw [backtrackGenerate, hwords, List.getLast?_concat]
  dsimp only
  rw [List.dropLast_concat]

lemma outcome_backtrackGenerate (h : s.words.length < n) :
    Outcome threshold s.grid s.words (backtrackGenerate sorting randInt threshold n s) := by
  induction n generalizing s with
  | zero => exact absurd h (Nat.not_lt_zero _)
  | succ n ih =>
    rcases List.eq_nil_or_concat' s.words with hwords | ⟨words, word, hwords⟩
    · rw [backtrackGenerate_nil hwords, hwords]
      refine ⟨fun s' h => ?_, fun _ _ _ hw => absurd hw List.not_mem_nil, fun s' h => ?_, fun _ => ⟨true, s, rfl⟩⟩
      · obtain ⟨-, rfl⟩ := Prod.mk.inj (Except.ok.inj h)
        exact kept_refl _
      · cases h
    · rw [backtrackGenerate_concat hwords, hwords]
      have hshorter : words.length < n := by
        rw [hwords, List.length_append, List.length_singleton] at h
        exact Nat.lt_of_succ_lt_succ h
      have hgenerate : ∀ s' : Generation γ, s'.words = words →
          Outcome threshold s'.grid words (backtrackGenerate sorting randInt threshold n s') := fun s' hs' =>
        hs' ▸ @ih s' (hs' ▸ hshorter)
      cases hcandidates : generateCandidates sorting randInt s.grid word s.gen with
      | error f =>
        refine Outcome.of_error fun hroomy => ?_
        obtain ⟨r, hr⟩ := @exists_generateCandidates s.grid γ sorting randInt hroomy.rectangular word s.gen
        rw [hcandidates] at hr
        cases hr
      | ok result =>
        obtain ⟨hfits, hcount⟩ := fits_generateCandidates hcandidates
        rw [ok_bind]
        by_cases hneg : min threshold (toInt result.1.length) < 0
        · rw [if_pos hneg]
          refine Outcome.of_error fun hroomy => ?_
          rw [toInt_eq (hcount.trans hroomy.count)] at hneg
          have := hroomy.nonneg
          omega
        · rw [if_neg hneg]
          exact @outcome_tryCandidates _ _ _ _ _ { s with words := words, gen := result.2 } _ hgenerate rfl
            fun c hc => hfits c (List.mem_of_mem_take hc)

/-- With depth enough every call does the same. -/
lemma backtrackGenerate_eq (h : s.words.length < n) : backtrackGenerate sorting randInt threshold n s =
    backtrackGenerate sorting randInt threshold (s.words.length + 1) s := by
  induction n generalizing s with
  | zero => exact absurd h (Nat.not_lt_zero _)
  | succ n ih =>
    rcases List.eq_nil_or_concat' s.words with hwords | ⟨words, word, hwords⟩
    · rw [backtrackGenerate_nil hwords, backtrackGenerate_nil hwords]
    · have hlength : s.words.length = words.length + 1 := by rw [hwords, List.length_append, List.length_singleton]
      have hshorter : words.length < n := by
        rw [hlength] at h
        exact Nat.lt_of_succ_lt_succ h
      rw [hlength, backtrackGenerate_concat hwords, backtrackGenerate_concat hwords]
      cases hcandidates : generateCandidates sorting randInt s.grid word s.gen with
      | error f => rw [error_bind, error_bind]
      | ok result =>
        obtain ⟨hfits, -⟩ := fits_generateCandidates hcandidates
        rw [ok_bind, ok_bind]
        by_cases hneg : min threshold (toInt result.1.length) < 0
        · rw [if_pos hneg, if_pos hneg]
        · rw [if_neg hneg, if_neg hneg]
          refine @tryCandidates_congr word _ γ threshold words { s with words := words, gen := result.2 } _ _
            (fun s' hs' => ?_)
            (fun s' hs' => ?_) rfl fun c hc => hfits c (List.mem_of_mem_take hc)
          · rw [← hs']
            exact outcome_backtrackGenerate (hs' ▸ hshorter)
          · rw [@ih s' (hs' ▸ hshorter), hs']

/-- The backtracking places every word without a free cell's mark and changes no other letter, or it leaves everything
as it was. -/
theorem backtrackGenerate_outcome (sorting : CandidateSort) (randInt : γ → Int × γ) (threshold : Int)
    (s : Generation γ) :
    ∃ r, (∀ n > s.words.length, backtrackGenerate sorting randInt threshold n s = r) ∧
      Outcome threshold s.grid s.words r :=
  ⟨_, fun _ hn => backtrackGenerate_eq hn, outcome_backtrackGenerate (Nat.lt_succ_self _)⟩

end

/-- A word with the mark of a free cell in it is lost to a word that is placed on it. -/
theorem not_readable_of_star : ∃ s' : Generation Nat,
    backtrackGenerate CandidateSort.stable (fun gen : Nat => (0, gen)) 1 3
      { grid := [[42, 42, 42]], words := [[88], [65, 42, 66]], gen := 0 } = .ok (true, s') ∧
        ¬ Readable s'.grid [65, 42, 66] := by
  have hrun : (backtrackGenerate CandidateSort.stable (fun gen : Nat => (0, gen)) 1 3
      { grid := [[42, 42, 42]], words := [[88], [65, 42, 66]], gen := 0 }).toOption.map (fun r => (r.1, r.2.grid)) =
        some (true, [[65, 88, 66]]) := by
    decide +kernel
  cases hresult : backtrackGenerate CandidateSort.stable (fun gen : Nat => (0, gen)) 1 3
      { grid := [[42, 42, 42]], words := [[88], [65, 42, 66]], gen := 0 } with
  | error f =>
    rw [hresult] at hrun
    cases hrun
  | ok r =>
    rw [hresult] at hrun
    obtain ⟨hdone, hgrid⟩ := Prod.mk.inj (Option.some.inj hrun)
    refine ⟨r.2, congrArg Except.ok (Prod.ext hdone rfl), ?_⟩
    rintro ⟨x, y, d, -, hreads⟩
    obtain ⟨row, hrow, hmem⟩ := exists_mem_of_cell (hreads 1 (by decide))
    rw [hgrid] at hrow
    obtain rfl := List.mem_singleton.1 hrow
    exact absurd hmem (by decide)

end CppExperiments.Puzzles

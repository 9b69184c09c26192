import CppExperiments.Cdiff.Patch

/-!
# Patches that are applied

The hunks between two lists of lines make the second list of the first one, and no shorter ones do.
-/

namespace CppExperiments.Cdiff

variable {sentences1 sentences2 xs front ys : List Line} {a b : Line} {i j left n : Nat}

/-! ## The grid -/

/-- In the cells are the lengths for `xs` and for more and more of `ys` behind `front`. -/
structure IsRow (xs front ys : List Line) (row : List Nat) : Prop where
  length : row.length = ys.length + 1
  cell : ∀ k n, row[k]? = some n → Longest xs (front ++ ys.take k) n

lemma isRow_gridRow {prev : List Nat} (h : IsRow xs front ys prev) (hleft : Longest (xs ++ [a]) front left) :
    IsRow (xs ++ [a]) front ys (left :: gridRow a ys prev left) := by
  induction ys generalizing front prev left with
  | nil =>
    refine ⟨rfl, fun k n hk => ?_⟩
    cases k with
    | zero => 
      obtain rfl := Option.some.inj hk
      rwa [List.take_nil, List.append_nil]
    | succ k => cases hk
  | cons b ys ih =>
    obtain ⟨hlen, hcell⟩ := h
    rcases prev with _ | ⟨diag, _ | ⟨up, prev⟩⟩
    · cases hlen
    · cases hlen
    have hdiag : Longest xs front diag := by simpa using hcell 0 diag rfl
    have hup : Longest xs (front ++ [b]) up := by simpa using hcell 1 up rfl
    have hnew : Longest (xs ++ [a]) (front ++ [b]) (if a = b then 1 + diag else max up left) := by
      by_cases heq : a = b
      · rw [if_pos heq, ← heq]
        exact hdiag.concat a
      · rw [if_neg heq]
        exact hup.concat_of_ne hleft heq
    have hrest : IsRow xs (front ++ [b]) ys (up :: prev) := by
      refine ⟨Nat.succ.inj hlen, fun k n hk => ?_⟩
      rw [List.append_assoc, List.singleton_append, ← List.take_succ_cons]
      exact hcell (k + 1) n hk
    obtain ⟨hlen', hcell'⟩ := ih hrest hnew
    refine ⟨congrArg Nat.succ hlen', fun k n hk => ?_⟩
    cases k with
    | zero =>
      obtain rfl := Option.some.inj hk
      rwa [List.take_zero, List.append_nil]
    | succ k =>
      rw [List.take_succ_cons, List.append_cons front]
      exact hcell' k n hk

lemma isRow_scanl {row : List Nat} {rest : List Line} (h : IsRow xs [] sentences2 row) (hi : i ≤ rest.length) :
    ∃ row', (rest.scanl (fun row sentence1 => 0 :: gridRow sentence1 sentences2 row 0) row)[i]? = some row' ∧
      IsRow (xs ++ rest.take i) [] sentences2 row' := by
  induction rest generalizing xs row i with
  | nil =>
    obtain rfl := Nat.le_zero.1 hi
    exact ⟨row, rfl, by rwa [List.take_zero, List.append_nil]⟩
  | cons a rest ih =>
    cases i with
    | zero => 
      rw [List.scanl_cons]
      exact ⟨row, rfl, by rwa [List.take_zero, List.append_nil]⟩
    | succ i =>
      obtain ⟨row', hrow', h'⟩ := ih (isRow_gridRow h (longest_nil_right (xs ++ [a]))) (Nat.le_of_succ_le_succ hi)
      rw [List.append_assoc] at h'
      rw [List.scanl_cons]
      exact ⟨row', hrow', h'⟩

/-- Every cell of the grid holds the length for the lines in front of it. -/
lemma longest_cellAt (hi : i ≤ sentences1.length) (hj : j ≤ sentences2.length) :
    Longest (sentences1.take i) (sentences2.take j) (cellAt (computeLCSGrid sentences1 sentences2) i j) := by
  have hzero : IsRow [] [] sentences2 (List.replicate (sentences2.length + 1) 0) := by
    refine ⟨List.length_replicate, fun k n hk => ?_⟩
    obtain rfl := (List.mem_replicate.1 (List.mem_of_getElem? hk)).2
    exact longest_nil_left _
  obtain ⟨row, hrow, hlen, hcell⟩ := isRow_scanl hzero hi
  have hlt : j < row.length := by omega
  have hat : (computeLCSGrid sentences1 sentences2).getD i [] = row := by
    rw [computeLCSGrid, List.getD_eq_getElem?_getD, hrow, Option.getD_some]
  have hget := hcell j _ (List.getElem?_eq_getElem hlt)
  rw [List.nil_append, List.nil_append] at hget
  rwa [cellAt, hat, List.getD_eq_getElem?_getD, List.getElem?_eq_getElem hlt, Option.getD_some]

/-! ## Hunks that are applied -/

namespace Hunk

/-- How many lines are in front of the hunk: added lines stand behind the line with the number. -/
def before (h : Hunk) : Nat := if h.kind = .a then h.first else h.first - 1

/-- How many lines the hunk replaces. -/
def removed (h : Hunk) : Nat := if h.kind = .a then 0 else h.last + 1 - h.first

end Hunk

/-- What hunks make of the lines behind line `pos`; `none` where they do not fit. -/
def applyHunks (pos : Nat) (lines : List Line) : List Hunk → Option (List Line)
  | [] => some lines
  | h :: hs =>
    let kept := h.before - pos
    if pos ≤ h.before ∧ kept ≤ lines.length ∧ (lines.drop kept).take h.removed = h.f1Patch then
      (applyHunks (h.before + h.removed) ((lines.drop kept).drop h.removed) hs).map fun rest =>
        lines.take kept ++ h.f2Patch ++ rest
    else none

variable {h : Hunk} {hs : List Hunk} {pos : Nat} {lines rest out : List Line}

lemma kind_eq_a : h.kind = .a ↔ h.f1Patch = [] := by
  rw [Hunk.kind, ← List.length_eq_zero_iff]
  constructor
  · intro hkind
    by_contra hne
    rw [if_neg hne] at hkind
    by_cases hnone : h.f2Patch.length = 0
    · rw [if_pos hnone] at hkind
      cases hkind
    · rw [if_neg hnone] at hkind
      cases hkind
  · exact fun hnone => if_pos hnone

lemma before_eq : h.before = h.i := by
  rw [Hunk.before, Hunk.first]
  by_cases hnone : h.f1Patch = []
  · rw [if_pos (kind_eq_a.2 hnone), if_pos hnone]
  · rw [if_neg (mt kind_eq_a.1 hnone), if_neg hnone, Nat.add_sub_cancel]

lemma removed_eq : h.removed = h.f1Patch.length := by
  rw [Hunk.removed, Hunk.first, Hunk.last]
  by_cases hnone : h.f1Patch = []
  · rw [if_pos (kind_eq_a.2 hnone), hnone, List.length_nil]
  · rw [if_neg (mt kind_eq_a.1 hnone), if_neg hnone]
    omega

/-- A hunk at the front puts its new lines in the place of the old ones. -/
lemma applyHunks_cons (h : Hunk) (happly : applyHunks (h.i + h.f1Patch.length) rest hs = some out) :
    applyHunks h.i (h.f1Patch ++ rest) (h :: hs) = some (h.f2Patch ++ out) := by
  rw [applyHunks, before_eq, removed_eq, Nat.sub_self, List.drop_zero, List.take_left, List.drop_left, happly]
  exact if_pos ⟨Nat.le_refl _, Nat.zero_le _, rfl⟩

/-- A line in front of all hunks is kept. -/
lemma applyHunks_keep (a : Line) (happly : applyHunks (pos + 1) lines hs = some out) :
    applyHunks pos (a :: lines) hs = some (a :: out) := by
  cases hs with
  | nil => exact congrArg some (congrArg (a :: ·) (Option.some.inj happly))
  | cons h hs =>
    rw [applyHunks] at happly ⊢
    by_cases hfits : pos + 1 ≤ h.before ∧ h.before - (pos + 1) ≤ lines.length ∧
        (lines.drop (h.before - (pos + 1))).take h.removed = h.f1Patch
    · rw [if_pos hfits] at happly
      obtain ⟨rest, hrest, rfl⟩ := Option.map_eq_some_iff.1 happly
      obtain ⟨hpos, hlen, hold⟩ := hfits
      have hkept : h.before - pos = h.before - (pos + 1) + 1 := by omega
      rw [hkept, List.drop_succ_cons, List.take_succ_cons, hrest,
        if_pos ⟨by omega, Nat.succ_le_succ hlen, hold⟩]
      rfl
    · rw [if_neg hfits] at happly
      cases happly

/-! ## The way back -/

/-- How many lines the hunks remove and add. -/
def changes (hs : List Hunk) : Nat := (hs.map fun h => h.f1Patch.length + h.f2Patch.length).sum

/-- The hunks are those between the lines from `i` and from `j` on. -/
structure Between (sentences1 sentences2 : List Line) (i j : Nat) (hs : List Hunk) : Prop where
  forth : applyHunks i (sentences1.drop i) hs = some (sentences2.drop j)
  back : applyHunks j (sentences2.drop j) (hs.map Hunk.reversed) = some (sentences1.drop i)
  behind : ∀ h ∈ hs, i ≤ h.first ∧ j ≤ h.reversed.first
  ordered : hs.Pairwise fun h h' => h.last < h'.first ∧ h.reversed.last < h'.reversed.first

/-- There is a line between the hunks and what is in front of them. -/
def Apart (i j : Nat) (hs : List Hunk) : Prop := ∀ h ∈ hs, i < h.first ∧ j < h.reversed.first

variable {f1Patch f2Patch : List Line} {deltas : List Hunk}

lemma le_first (h : Hunk) : h.i ≤ h.first := by
  rw [Hunk.first]
  by_cases hnone : h.f1Patch = []
  · rw [if_pos hnone]
  · rw [if_neg hnone]
    exact Nat.le_succ h.i

lemma between_flush (h : Between sentences1 sentences2 (i + f1Patch.length) (j + f2Patch.length) deltas.reverse)
    (hapart : Apart (i + f1Patch.length) (j + f2Patch.length) deltas.reverse)
    (hold : sentences1.drop i = f1Patch ++ sentences1.drop (i + f1Patch.length))
    (hnew : sentences2.drop j = f2Patch ++ sentences2.drop (j + f2Patch.length)) :
    Between sentences1 sentences2 i j (flush i j f1Patch f2Patch deltas).reverse := by
  rw [flush]
  by_cases hsome : f1Patch ≠ [] ∨ f2Patch ≠ []
  · rw [if_pos hsome, List.reverse_append, List.reverse_singleton, List.singleton_append]
    refine ⟨?_, ?_, ?_, ?_⟩
    · rw [hold, hnew]
      exact applyHunks_cons ⟨i, j, f1Patch, f2Patch⟩ h.forth
    · rw [hold, hnew]
      exact applyHunks_cons ⟨j, i, f2Patch, f1Patch⟩ h.back
    · refine List.forall_mem_cons.2 ⟨⟨le_first ⟨i, j, f1Patch, f2Patch⟩, le_first ⟨j, i, f2Patch, f1Patch⟩⟩,
        fun h' hh' => ?_⟩
      have hlt := hapart h' hh'
      omega
    · exact List.pairwise_cons.2 ⟨hapart, h.ordered⟩
  · rw [if_neg hsome]
    rw [not_or, not_not, not_not] at hsome
    obtain ⟨rfl, rfl⟩ := hsome
    exact h

lemma changes_flush : changes (flush i j f1Patch f2Patch deltas).reverse = f1Patch.length + f2Patch.length +
    changes deltas.reverse := by
  rw [flush]
  by_cases hsome : f1Patch ≠ [] ∨ f2Patch ≠ []
  · rw [if_pos hsome, List.reverse_append, List.reverse_singleton, List.singleton_append]
    rfl
  · rw [if_neg hsome]
    rw [not_or, not_not, not_not] at hsome
    obtain ⟨rfl, rfl⟩ := hsome
    exact (Nat.zero_add _).symm

lemma drop_of_getElem? {l : List Line} (h : l[i]? = some a) : l.drop i = a :: l.drop (i + 1) := by
  obtain ⟨hlt, rfl⟩ := List.getElem?_eq_some_iff.1 h
  exact List.drop_eq_getElem_cons hlt

lemma take_of_getElem? {l : List Line} (h : l[i]? = some a) : l.take (i + 1) = l.take i ++ [a] := by
  rw [List.take_add_one, h]
  rfl

/-- A line that both files have is kept. -/
lemma Between.keep (h : Between sentences1 sentences2 (i + 1) (j + 1) hs) (hi : sentences1[i]? = some a)
    (hj : sentences2[j]? = some a) : Between sentences1 sentences2 i j hs ∧ Apart i j hs := by
  refine ⟨⟨?_, ?_, ?_, h.ordered⟩, fun h' hh' => h.behind h' hh'⟩
  · rw [drop_of_getElem? hi, drop_of_getElem? hj]
    exact applyHunks_keep a h.forth
  · rw [drop_of_getElem? hi, drop_of_getElem? hj]
    exact applyHunks_keep a h.back
  · exact fun h' hh' => ⟨Nat.le_of_succ_le (h.behind h' hh').1, Nat.le_of_succ_le (h.behind h' hh').2⟩

/-! ## Cells on the way -/

lemma cellAt_zero (h : i = 0 ∨ j = 0) (hi : i ≤ sentences1.length) (hj : j ≤ sentences2.length) :
    cellAt (computeLCSGrid sentences1 sentences2) i j = 0 := by
  have hcell := longest_cellAt hi hj
  rcases h with rfl | rfl
  · exact hcell.unique (longest_nil_left _)
  · exact hcell.unique (longest_nil_right _)

lemma cellAt_same (hi : sentences1[i]? = some a) (hj : sentences2[j]? = some a) :
    cellAt (computeLCSGrid sentences1 sentences2) (i + 1) (j + 1) =
      1 + cellAt (computeLCSGrid sentences1 sentences2) i j := by
  have hi' := (List.getElem?_eq_some_iff.1 hi).1
  have hj' := (List.getElem?_eq_some_iff.1 hj).1
  have hcell := @longest_cellAt sentences1 sentences2 (i + 1) (j + 1) hi' hj'
  rw [take_of_getElem? hi, take_of_getElem? hj] at hcell
  exact hcell.unique ((longest_cellAt hi'.le hj'.le).concat a)

lemma cellAt_ne (hi : sentences1[i]? = some a) (hj : sentences2[j]? = some b) (hne : a ≠ b) :
    cellAt (computeLCSGrid sentences1 sentences2) (i + 1) (j + 1) =
      max (cellAt (computeLCSGrid sentences1 sentences2) i (j + 1))
        (cellAt (computeLCSGrid sentences1 sentences2) (i + 1) j) := by
  have hi' := (List.getElem?_eq_some_iff.1 hi).1
  have hj' := (List.getElem?_eq_some_iff.1 hj).1
  have hcell := @longest_cellAt sentences1 sentences2 (i + 1) (j + 1) hi' hj'
  have hup := @longest_cellAt sentences1 sentences2 i (j + 1) hi'.le hj'
  have hleft := @longest_cellAt sentences1 sentences2 (i + 1) j hi' hj'.le
  rw [take_of_getElem? hi, take_of_getElem? hj] at hcell
  rw [take_of_getElem? hj] at hup
  rw [take_of_getElem? hi] at hleft
  exact hcell.unique (hup.concat_of_ne hleft hne)

/-! ## All hunks -/

lemma backtrack_spec (hi : i ≤ sentences1.length) (hj : j ≤ sentences2.length)
    (h : Between sentences1 sentences2 (i + f1Patch.length) (j + f2Patch.length) deltas.reverse)
    (hapart : Apart (i + f1Patch.length) (j + f2Patch.length) deltas.reverse)
    (hold : sentences1.drop i = f1Patch ++ sentences1.drop (i + f1Patch.length))
    (hnew : sentences2.drop j = f2Patch ++ sentences2.drop (j + f2Patch.length)) :
    let hs := (backtrack (computeLCSGrid sentences1 sentences2) sentences1 sentences2 i j f1Patch f2Patch
      deltas).reverse
    Between sentences1 sentences2 0 0 hs ∧
      changes hs + 2 * cellAt (computeLCSGrid sentences1 sentences2) i j =
        f1Patch.length + f2Patch.length + changes deltas.reverse + (i + j) := by
  fun_induction backtrack (computeLCSGrid sentences1 sentences2) sentences1 sentences2 i j f1Patch f2Patch deltas with
  | case1 i j f1Patch f2Patch deltas hmore hboth ih =>
    obtain ⟨hi0, hj0, hsame⟩ := hboth
    obtain ⟨i, rfl⟩ := Nat.exists_eq_add_of_le' hi0
    obtain ⟨j, rfl⟩ := Nat.exists_eq_add_of_le' hj0
    simp only [Nat.add_sub_cancel] at hsame ih ⊢
    have hat : sentences1[i]? = some sentences1[i] := List.getElem?_eq_getElem hi
    have hat' : sentences2[j]? = some sentences1[i] := hsame ▸ hat
    obtain ⟨hkeep, hkeepApart⟩ := (between_flush h hapart hold hnew).keep hat hat'
    obtain ⟨hbetween, hcount⟩ := ih (Nat.le_of_succ_le hi) (Nat.le_of_succ_le hj) hkeep hkeepApart rfl rfl
    refine ⟨hbetween, ?_⟩
    rw [changes_flush, List.length_nil] at hcount
    rw [cellAt_same hat hat']
    omega
  | case2 i j f1Patch f2Patch deltas hmore hboth hdel ih =>
    have hi0 : 0 < i := by omega
    obtain ⟨i, rfl⟩ := Nat.exists_eq_add_of_le' hi0
    simp only [Nat.add_sub_cancel] at hboth hdel ih ⊢
    have hat : sentences1[i]? = some sentences1[i] := List.getElem?_eq_getElem hi
    have hget : sentences1.getD i [] = sentences1[i] := List.getD_eq_getElem _ _ hi
    have hlen : i + (sentences1[i] :: f1Patch).length = i + 1 + f1Patch.length := by
      rw [List.length_cons]
      omega
    rw [hget] at ih ⊢
    obtain ⟨hbetween, hcount⟩ := ih (Nat.le_of_succ_le hi) hj (hlen ▸ h) (hlen ▸ hapart)
      (by rw [hlen, drop_of_getElem? hat, hold, List.cons_append]) hnew
    refine ⟨hbetween, ?_⟩
    have hcell : cellAt (computeLCSGrid sentences1 sentences2) (i + 1) j =
      cellAt (computeLCSGrid sentences1 sentences2) i j := by
      by_cases hzero : j = 0
      · rw [cellAt_zero (Or.inr hzero) hi hj, cellAt_zero (Or.inr hzero) (Nat.le_of_succ_le hi) hj]
      · obtain ⟨j, rfl⟩ := Nat.exists_eq_succ_of_ne_zero hzero
        have hlt := (hdel.resolve_left hzero).2
        have hne : sentences1[i] ≠ sentences2[j] := by
          intro heq
          refine hboth ⟨hi0, Nat.succ_pos j, ?_⟩
          rw [hat, heq]
          exact (List.getElem?_eq_getElem hj).symm
        rw [cellAt_ne hat (List.getElem?_eq_getElem hj) hne]
        exact Nat.max_eq_left hlt.le
    rw [List.length_cons] at hcount
    rw [hcell]
    omega
  | case3 i j f1Patch f2Patch deltas hmore hboth hdel ih =>
    rw [not_or] at hdel
    obtain ⟨j, rfl⟩ := Nat.exists_eq_succ_of_ne_zero hdel.1
    simp only [Nat.add_sub_cancel, Nat.succ_eq_add_one] at hboth hdel ih ⊢
    have hat : sentences2[j]? = some sentences2[j] := List.getElem?_eq_getElem hj
    have hget : sentences2.getD j [] = sentences2[j] := List.getD_eq_getElem _ _ hj
    have hlen : j + (sentences2[j] :: f2Patch).length = j + 1 + f2Patch.length := by
      rw [List.length_cons]
      omega
    rw [hget] at ih ⊢
    obtain ⟨hbetween, hcount⟩ := ih hi (Nat.le_of_succ_le hj) (hlen ▸ h) (hlen ▸ hapart) hold
      (by rw [hlen, drop_of_getElem? hat, hnew, List.cons_append])
    refine ⟨hbetween, ?_⟩
    have hcell : cellAt (computeLCSGrid sentences1 sentences2) i (j + 1) =
      cellAt (computeLCSGrid sentences1 sentences2) i j := by
      by_cases hzero : i = 0
      · rw [cellAt_zero (Or.inl hzero) hi hj, cellAt_zero (Or.inl hzero) hi (Nat.le_of_succ_le hj)]
      · obtain ⟨i, rfl⟩ := Nat.exists_eq_succ_of_ne_zero hzero
        have hle : ¬ cellAt (computeLCSGrid sentences1 sentences2) (i + 1) j <
          cellAt (computeLCSGrid sentences1 sentences2) i (j + 1) :=
          fun hlt => hdel.2 ⟨Nat.succ_pos i, hlt⟩
        have hne : sentences1[i] ≠ sentences2[j] := by
          intro heq
          refine hboth ⟨Nat.succ_pos i, Nat.succ_pos j, ?_⟩
          rw [hat, ← heq]
          exact List.getElem?_eq_getElem hi
        rw [cellAt_ne (List.getElem?_eq_getElem hi) hat hne]
        exact Nat.max_eq_right (Nat.not_lt.1 hle)
    rw [List.length_cons] at hcount
    rw [hcell]
    omega
  | case4 i j f1Patch f2Patch deltas hmore =>
    obtain ⟨rfl, rfl⟩ : i = 0 ∧ j = 0 := by omega
    refine ⟨between_flush h hapart hold hnew, ?_⟩
    rw [changes_flush, cellAt_zero (Or.inl rfl) hi hj]

/-- Applied to the first file the hunks make the second one, and the other way round. They are in order and apart, and
change no more lines than they have to. -/
lemma hunks_spec (sentences1 sentences2 : List Line) :
    applyHunks 0 sentences1 (hunks sentences1 sentences2) = some sentences2 ∧
      applyHunks 0 sentences2 ((hunks sentences1 sentences2).map Hunk.reversed) = some sentences1 ∧
      ((hunks sentences1 sentences2).Pairwise fun h h' => h.last < h'.first ∧ h.reversed.last < h'.reversed.first) ∧
      ∃ n, Longest sentences1 sentences2 n ∧
        changes (hunks sentences1 sentences2) + 2 * n = sentences1.length + sentences2.length := by
  have hnone (l : List Line) : l.drop (l.length + ([] : List Line).length) = [] :=
    List.drop_eq_nil_of_le (Nat.le_refl _)
  have hempty : Between sentences1 sentences2 (sentences1.length + ([] : List Line).length)
      (sentences2.length + ([] : List Line).length) ([] : List Hunk).reverse := by
    refine ⟨?_, ?_, nofun, List.Pairwise.nil⟩
    · rw [hnone, hnone]
      rfl
    · rw [hnone, hnone]
      rfl
  obtain ⟨hbetween, hcount⟩ := backtrack_spec (Nat.le_refl _) (Nat.le_refl _) hempty nofun rfl rfl
  have hcell := @longest_cellAt sentences1 sentences2 _ _ (Nat.le_refl _) (Nat.le_refl _)
  rw [List.take_length, List.take_length] at hcell
  refine ⟨hbetween.forth, hbetween.back, hbetween.ordered, _, hcell, ?_⟩
  exact hcount.trans (Nat.zero_add _)

/-! ## What is printed -/

/-- A hunk as it is printed: the numbers of its first and last line in both files, its kind and its lines. -/
structure PrintedHunk where
  old : Nat × Nat
  kind : Kind
  new : Nat × Nat
  removed : List Line
  added : List Line

def rangeText (range : Nat × Nat) : Bytes :=
  decimal range.1 ++ if range.1 < range.2 then ascii "," ++ decimal range.2 else []

def Kind.reversed : Kind → Kind
  | .a => .d
  | .d => .a
  | .c => .c

namespace PrintedHunk

def text (p : PrintedHunk) : Bytes :=
  rangeText p.old ++ Hunk.letter p.kind ++ rangeText p.new ++ [10] ++
    (p.removed.flatMap fun t => ascii "< " ++ t ++ [10]) ++ (if p.kind = .c then ascii "---\n" else []) ++
    p.added.flatMap fun t => ascii "> " ++ t ++ [10]

/-- The hunk from the second file to the first. -/
def reversed (p : PrintedHunk) : PrintedHunk := ⟨p.new, p.kind.reversed, p.old, p.added, p.removed⟩

/-- How many lines are in front of the hunk: added lines stand behind the line with the number. -/
def before (p : PrintedHunk) : Nat := if p.kind = .a then p.old.1 else p.old.1 - 1

/-- How many lines the hunk replaces. -/
def count (p : PrintedHunk) : Nat := if p.kind = .a then 0 else p.old.2 + 1 - p.old.1

end PrintedHunk

/-- What printed hunks make of the lines behind line `pos`; `none` where they do not fit. -/
def applyPrinted (pos : Nat) (lines : List Line) : List PrintedHunk → Option (List Line)
  | [] => some lines
  | p :: ps =>
    let kept := p.before - pos
    if pos ≤ p.before ∧ kept ≤ lines.length ∧ (lines.drop kept).take p.count = p.removed then
      (applyPrinted (p.before + p.count) ((lines.drop kept).drop p.count) ps).map fun rest =>
        lines.take kept ++ p.added ++ rest
    else none

/-- The text is made of hunks that lead from the first file to the second and back, in order and apart in both files,
and that change no more lines than they have to. -/
def Minimal (sentences1 sentences2 : List Line) (text : Bytes) : Prop :=
  ∃ ps : List PrintedHunk, text = (ps.flatMap PrintedHunk.text).dropLast ∧
    applyPrinted 0 sentences1 ps = some sentences2 ∧
    applyPrinted 0 sentences2 (ps.map PrintedHunk.reversed) = some sentences1 ∧
    (ps.Pairwise fun p p' => p.old.2 < p'.old.1 ∧ p.new.2 < p'.new.1) ∧
    ∃ n, Longest sentences1 sentences2 n ∧
      (ps.map fun p => p.removed.length + p.added.length).sum + 2 * n = sentences1.length + sentences2.length

namespace Hunk

def printed (h : Hunk) : PrintedHunk :=
  ⟨(h.first, h.last), h.kind, (h.reversed.first, h.reversed.last), h.f1Patch, h.f2Patch⟩

/-- There are lines in the hunk. -/
def Proper (h : Hunk) : Prop := h.f1Patch ≠ [] ∨ h.f2Patch ≠ []

lemma range_eq (h : Hunk) : h.range = rangeText (h.first, h.last) := by
  have hiff : 1 < h.f1Patch.length ↔ h.first < h.last := by
    rw [first, last]
    by_cases hnone : h.f1Patch = []
    · rw [if_pos hnone, hnone, List.length_nil]
      omega
    · rw [if_neg hnone]
      omega
  rw [range, rangeText]
  by_cases hmore : 1 < h.f1Patch.length
  · rw [if_pos hmore, if_pos (hiff.1 hmore)]
  · rw [if_neg hmore, if_neg (mt hiff.2 hmore)]

lemma kind_eq_c (h : Hunk) : h.kind = .c ↔ h.f1Patch ≠ [] ∧ h.f2Patch ≠ [] := by
  obtain ⟨i, j, f1Patch, f2Patch⟩ := h
  cases f1Patch with
  | nil => simp [kind]
  | cons a f1Patch => cases f2Patch <;> simp [kind]

lemma kind_reversed (hp : h.Proper) : h.reversed.kind = h.kind.reversed := by
  obtain ⟨i, j, f1Patch, f2Patch⟩ := h
  cases f1Patch with
  | nil =>
    cases f2Patch with
    | nil => exact absurd hp (by simp [Proper])
    | cons b f2Patch => rfl
  | cons a f1Patch => cases f2Patch <;> rfl

lemma printed_reversed (hp : h.Proper) : h.reversed.printed = h.printed.reversed := by
  rw [printed, kind_reversed hp]
  rfl

end Hunk

/-- The last byte ends a line. -/
def EndsLine (l : Bytes) : Prop := ∃ front, l = front ++ [10]

lemma EndsLine.append {l l' : Bytes} (hl : EndsLine l) (hl' : l' = [] ∨ EndsLine l') : EndsLine (l ++ l') := by
  rcases hl' with rfl | ⟨front, rfl⟩
  · rwa [List.append_nil]
  · exact ⟨l ++ front, (List.append_assoc ..).symm⟩

lemma endsLine_flatMap (sign : Bytes) (lines : List Line) :
    (lines.flatMap fun t => sign ++ t ++ [10]) = [] ∨ EndsLine (lines.flatMap fun t => sign ++ t ++ [10]) := by
  induction lines with
  | nil => exact Or.inl rfl
  | cons line lines ih =>
    rw [List.flatMap_cons]
    exact Or.inr (EndsLine.append ⟨_, rfl⟩ ih)

lemma text_printed (h : Hunk) : h.defaultPatchText ++ [10] = h.printed.text := by
  have hends : EndsLine h.printed.text := by
    refine EndsLine.append (EndsLine.append (EndsLine.append ⟨_, rfl⟩ (endsLine_flatMap _ _)) ?_) (endsLine_flatMap _ _)
    by_cases hc : h.printed.kind = .c
    · rw [if_pos hc]
      exact Or.inr ⟨ascii "---", rfl⟩
    · rw [if_neg hc]
      exact Or.inl rfl
  have hif : (if h.f1Patch ≠ [] ∧ h.f2Patch ≠ [] then ascii "---\n" else []) =
      if h.kind = .c then ascii "---\n" else [] := by
    by_cases hc : h.kind = .c
    · rw [if_pos hc, if_pos (h.kind_eq_c.1 hc)]
    · rw [if_neg hc, if_neg (mt h.kind_eq_c.2 hc)]
  have htext : h.defaultPatchText = h.printed.text.dropLast := by
    rw [Hunk.defaultPatchText, hif, h.range_eq, h.reversed.range_eq]
    rfl
  obtain ⟨front, hfront⟩ := hends
  rw [htext, hfront, List.dropLast_concat]

lemma applyPrinted_printed (pos : Nat) (lines : List Line) (hs : List Hunk) :
    applyPrinted pos lines (hs.map Hunk.printed) = applyHunks pos lines hs := by
  induction hs generalizing pos lines with
  | nil => rfl
  | cons h hs ih =>
    rw [List.map_cons, applyPrinted, applyHunks, ih]
    rfl

lemma proper_flush (hdeltas : ∀ h ∈ deltas, h.Proper) : ∀ h ∈ flush i j f1Patch f2Patch deltas, h.Proper := by
  rw [flush]
  by_cases hsome : f1Patch ≠ [] ∨ f2Patch ≠ []
  · rw [if_pos hsome]
    exact List.forall_mem_append.2 ⟨hdeltas, List.forall_mem_singleton.2 hsome⟩
  · rwa [if_neg hsome]

lemma proper_backtrack {dp : List (List Nat)} (hdeltas : ∀ h ∈ deltas, h.Proper) :
    ∀ h ∈ backtrack dp sentences1 sentences2 i j f1Patch f2Patch deltas, h.Proper := by
  fun_induction backtrack dp sentences1 sentences2 i j f1Patch f2Patch deltas with
  | case1 i j f1Patch f2Patch deltas hmore hboth ih => exact ih (proper_flush hdeltas)
  | case2 i j f1Patch f2Patch deltas hmore hboth hdel ih => exact ih hdeltas
  | case3 i j f1Patch f2Patch deltas hmore hboth hdel ih => exact ih hdeltas
  | case4 i j f1Patch f2Patch deltas hmore => exact proper_flush hdeltas

/-- What is printed of two files leads from one to the other with as few changes as there can be. -/
theorem minimal_defaultDiff (sentences1 sentences2 : List Line) :
    Minimal sentences1 sentences2 (defaultDiff sentences1 sentences2) := by
  obtain ⟨hforth, hback, hordered, n, hlongest, hcount⟩ := hunks_spec sentences1 sentences2
  have hproper : ∀ h ∈ hunks sentences1 sentences2, h.Proper := fun h hh =>
    proper_backtrack (fun h hh => by cases hh) h (List.mem_reverse.1 hh)
  rw [defaultDiff]
  generalize hunks sentences1 sentences2 = hs at hforth hback hordered hcount hproper
  refine ⟨hs.map Hunk.printed, ?_, ?_, ?_, ?_, n, hlongest, ?_⟩
  · rw [List.flatMap_map]
    exact congrArg _ (List.flatMap_congr fun h _ => text_printed h)
  · rw [applyPrinted_printed, hforth]
  · have hmap : (hs.map Hunk.printed).map PrintedHunk.reversed = (hs.map Hunk.reversed).map Hunk.printed := by
      rw [List.map_map, List.map_map]
      exact List.map_congr_left fun h hh => (Hunk.printed_reversed (hproper h hh)).symm
    rw [hmap, applyPrinted_printed, hback]
  · exact List.pairwise_map.2 hordered
  · rw [List.map_map]
    exact hcount

end CppExperiments.Cdiff

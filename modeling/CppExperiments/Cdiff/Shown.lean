import CppExperiments.Cdiff.Applied
import CppExperiments.Cdiff.Patch

/-!
# Unified patches that are applied

When the hunks that are shown make the second list of lines of the first one.
-/

namespace CppExperiments.Cdiff

/-! ## Hunks that are applied -/

structure UnifiedHunk where
  start1 : Nat
  len1 : Nat
  start2 : Nat
  len2 : Nat
  lines : List Line

def UnifiedHunk.text (h : UnifiedHunk) : Bytes :=
  ascii "@@ -" ++ decimal h.start1 ++ ascii "," ++ decimal h.len1 ++ ascii " +" ++ decimal h.start2 ++ ascii "," ++
    decimal h.len2 ++ ascii " @@\n" ++ h.lines.flatMap fun line => line ++ [10]

def oldLines (lines : List Line) : List Line :=
  lines.filterMap fun line => if line.head? = some 32 ∨ line.head? = some 45 then some line.tail else none

def newLines (lines : List Line) : List Line :=
  lines.filterMap fun line => if line.head? = some 32 ∨ line.head? = some 43 then some line.tail else none

/-- What hunks make of the lines behind line `pos1` of the first file and `pos2` of the second; `none` where they do
not fit. -/
def applyUnified (pos1 pos2 : Nat) (lines : List Line) : List UnifiedHunk → Option (List Line)
  | [] => some lines
  | h :: hs =>
    let kept := h.start1 - 1 - pos1
    if pos1 + kept + 1 = h.start1 ∧ pos2 + kept + 1 = h.start2 ∧ h.len1 = (oldLines h.lines).length ∧
        h.len2 = (newLines h.lines).length ∧ kept ≤ lines.length ∧ (lines.drop kept).take h.len1 = oldLines h.lines then
      (applyUnified (pos1 + kept + h.len1) (pos2 + kept + h.len2) ((lines.drop kept).drop h.len1) hs).map fun rest =>
        lines.take kept ++ newLines h.lines ++ rest
    else none

/-- The patch is made of hunks that lead from the first file to the second. -/
def Patched (sentences1 sentences2 : List Line) : Prop :=
  ∃ hunks, unifiedDiff sentences1 sentences2 = some (hunks.flatMap UnifiedHunk.text).dropLast ∧
    applyUnified 0 0 sentences1 hunks = some sentences2

/-- Both files end with the same three lines, or are the same. -/
def SameEnd (sentences1 sentences2 : List Line) : Prop :=
  sentences1 = sentences2 ∨ ∃ front1 front2 rear : List Line, rear.length = 3 ∧ sentences1 = front1 ++ rear ∧
    sentences2 = front2 ++ rear

variable {i j : Nat} {a b : Line} {deltas body : List Delta} {lines1 lines2 common old new rest out : List Line}

lemma oldLines_append (l l' : List Line) : oldLines (l ++ l') = oldLines l ++ oldLines l' := List.filterMap_append

lemma newLines_append (l l' : List Line) : newLines (l ++ l') = newLines l ++ newLines l' := List.filterMap_append

lemma applyUnified_cons {h : UnifiedHunk} {hs : List UnifiedHunk} (hstart1 : h.start1 = i + common.length + 1)
    (hstart2 : h.start2 = j + common.length + 1) (hlen1 : h.len1 = (oldLines h.lines).length)
    (hlen2 : h.len2 = (newLines h.lines).length)
    (happly : applyUnified (i + common.length + h.len1) (j + common.length + h.len2) rest hs = some out) :
    applyUnified i j (common ++ (oldLines h.lines ++ rest)) (h :: hs) = some (common ++ (newLines h.lines ++ out)) := by
  have hkept : h.start1 - 1 - i = common.length := by omega
  rw [applyUnified, hkept, List.drop_left, List.take_left, hlen1, List.take_left, List.drop_left, ← hlen1, happly]
  have hle : common.length ≤ (common ++ (oldLines h.lines ++ rest)).length := by
    rw [List.length_append]
    exact Nat.le_add_right _ _
  rw [if_pos ⟨hstart1.symm, hstart2.symm, rfl, hlen2, hle, rfl⟩, Option.map_some, List.append_assoc]

/-! ## Deltas and what they stand for -/

/-- The deltas lead from the lines of the first file to those of the second, and have the numbers of the lines in front
of them. -/
inductive Placed : Nat → Nat → List Delta → List Line → List Line → Prop where
  | sentinel {i j : Nat} : Placed i j [⟨i, j, [32]⟩] [] []
  | same {i j : Nat} {a : Line} {deltas : List Delta} {lines1 lines2 : List Line} :
    Placed (i + 1) (j + 1) deltas lines1 lines2 → Placed i j (⟨i, j, 32 :: a⟩ :: deltas) (a :: lines1) (a :: lines2)
  | removed {i j : Nat} {a : Line} {deltas : List Delta} {lines1 lines2 : List Line} :
    Placed (i + 1) j deltas lines1 lines2 → Placed i j (⟨i, j, 45 :: a⟩ :: deltas) (a :: lines1) lines2
  | added {i j : Nat} {b : Line} {deltas : List Delta} {lines1 lines2 : List Line} :
    Placed i (j + 1) deltas lines1 lines2 → Placed i j (⟨i, j, 43 :: b⟩ :: deltas) lines1 (b :: lines2)

lemma Placed.head {delta : Delta} (h : Placed i j (delta :: deltas) lines1 lines2) : delta.i = i ∧ delta.j = j := by
  cases h with
  | sentinel => exact ⟨rfl, rfl⟩
  | same _ => exact ⟨rfl, rfl⟩
  | removed _ => exact ⟨rfl, rfl⟩
  | added _ => exact ⟨rfl, rfl⟩

/-- The whole list but the last of the deltas, which stands behind the lines. -/
lemma Placed.all (h : Placed i j deltas lines1 lines2) : ∃ body : List Delta,
    lines1 = oldLines (body.map Delta.text) ∧ lines2 = newLines (body.map Delta.text) ∧
      deltas = body ++ [⟨i + lines1.length, j + lines2.length, [32]⟩] := by
  induction h with
  | sentinel => exact ⟨[], rfl, rfl, rfl⟩
  | @same i j a deltas lines1 lines2 _ ih =>
    obtain ⟨body, hold, hnew, hdeltas⟩ := ih
    refine ⟨⟨i, j, 32 :: a⟩ :: body, congrArg (a :: ·) hold, congrArg (a :: ·) hnew, ?_⟩
    rw [hdeltas, List.length_cons, List.length_cons, List.cons_append]
    simp only [Nat.add_assoc, Nat.add_comm 1]
  | @removed i j a deltas lines1 lines2 _ ih =>
    obtain ⟨body, hold, hnew, hdeltas⟩ := ih
    refine ⟨⟨i, j, 45 :: a⟩ :: body, congrArg (a :: ·) hold, hnew, ?_⟩
    rw [hdeltas, List.length_cons, List.cons_append]
    simp only [Nat.add_assoc, Nat.add_comm 1]
  | @added i j b deltas lines1 lines2 _ ih =>
    obtain ⟨body, hold, hnew, hdeltas⟩ := ih
    refine ⟨⟨i, j, 43 :: b⟩ :: body, hold, congrArg (b :: ·) hnew, ?_⟩
    rw [hdeltas, List.length_cons, List.cons_append]
    simp only [Nat.add_assoc, Nat.add_comm 1]

/-- Some deltas and those behind them. -/
lemma Placed.append (h : Placed i j (body ++ deltas) lines1 lines2) (hmore : deltas ≠ []) : ∃ rest1 rest2,
    lines1 = oldLines (body.map Delta.text) ++ rest1 ∧ lines2 = newLines (body.map Delta.text) ++ rest2 ∧
      Placed (i + (oldLines (body.map Delta.text)).length) (j + (newLines (body.map Delta.text)).length) deltas rest1
        rest2 := by
  induction body generalizing i j lines1 lines2 with
  | nil => exact ⟨lines1, lines2, rfl, rfl, h⟩
  | cons delta body ih =>
    rw [List.cons_append] at h
    generalize hall : body ++ deltas = all at h
    cases h with
    | sentinel => exact absurd (List.append_eq_nil_iff.1 hall).2 hmore
    | same h =>
      obtain ⟨rest1, rest2, rfl, rfl, hrest⟩ := ih (hall ▸ h)
      refine ⟨rest1, rest2, rfl, rfl, ?_⟩
      rw [Nat.add_assoc, Nat.add_comm 1, Nat.add_assoc, Nat.add_comm 1] at hrest
      exact hrest
    | removed h =>
      obtain ⟨rest1, rest2, rfl, rfl, hrest⟩ := ih (hall ▸ h)
      refine ⟨rest1, rest2, rfl, rfl, ?_⟩
      rw [Nat.add_assoc, Nat.add_comm 1] at hrest
      exact hrest
    | added h =>
      obtain ⟨rest1, rest2, rfl, rfl, hrest⟩ := ih (hall ▸ h)
      refine ⟨rest1, rest2, rfl, rfl, ?_⟩
      rw [Nat.add_assoc j, Nat.add_comm 1] at hrest
      exact hrest

/-- A delta without a change stands for a line of both files. -/
lemma Placed.of_unchanged {delta : Delta} (h : Placed i j (delta :: deltas) lines1 lines2) (hmore : deltas ≠ [])
    (hsame : delta.changed = false) : ∃ a rest1 rest2, delta = ⟨i, j, 32 :: a⟩ ∧ lines1 = a :: rest1 ∧
      lines2 = a :: rest2 ∧
      Placed (i + 1) (j + 1) deltas rest1 rest2 := by
  cases h with
  | sentinel => exact absurd rfl hmore
  | same h => exact ⟨_, _, _, rfl, rfl, rfl, h⟩
  | removed h => cases hsame
  | added h => cases hsame

/-! ## The loop -/

/-- The last delta is shown, and so are a change and the delta behind it. -/
def Covered : List (Delta × Bool) → Prop
  | [] => True
  | [d] => d.2 = true
  | d :: d' :: l => (d.1.changed = true → d.2 = true ∧ d'.2 = true) ∧ Covered (d' :: l)

lemma Covered.tail {d : Delta × Bool} {l : List (Delta × Bool)} (h : Covered (d :: l)) : Covered l := by
  cases l with
  | nil => trivial
  | cons d' l => exact h.2

lemma Covered.append {l l' : List (Delta × Bool)} (h : Covered (l ++ l')) : Covered l' := by
  induction l with
  | nil => exact h
  | cons d l ih => exact ih h.tail

/-- Deltas that are not shown stand for lines of both files. -/
lemma Covered.skip {l : List (Delta × Bool)} (h : Covered l) (hplaced : Placed i j (l.map Prod.fst) lines1 lines2) :
    ∃ common rest1 rest2 first more, l.dropWhile (fun d => !d.2) = first :: more ∧ first.2 = true ∧
      Covered (first :: more) ∧
      lines1 = common ++ rest1 ∧ lines2 = common ++ rest2 ∧
      Placed (i + common.length) (j + common.length) (first.1 :: more.map Prod.fst) rest1 rest2 := by
  induction l generalizing i j lines1 lines2 with
  | nil => cases hplaced
  | cons d l ih =>
    by_cases hshown : d.2 = true
    · refine ⟨[], lines1, lines2, d, l, ?_, hshown, h, rfl, rfl, hplaced⟩
      rw [List.dropWhile_cons_of_neg (by simp [hshown])]
    · cases l with
      | nil => exact absurd h hshown
      | cons d' l =>
        have hsame : d.1.changed = false := Bool.eq_false_iff.2 fun hchanged => hshown (h.1 hchanged).1
        obtain ⟨a, rest1, rest2, -, rfl, rfl, hrest⟩ := hplaced.of_unchanged nofun hsame
        obtain ⟨common, rest1, rest2, first, more, hskip, hfirst, hcovered, rfl, rfl, hplaced'⟩ := ih h.tail hrest
        refine ⟨a :: common, rest1, rest2, first, more, ?_, hfirst, hcovered, rfl, rfl, ?_⟩
        · rwa [List.dropWhile_cons_of_pos (by simp [hshown])]
        · rw [Nat.add_assoc, Nat.add_comm 1, Nat.add_assoc, Nat.add_comm 1] at hplaced'
          exact hplaced'

lemma unifiedLoop_eq {l more : List (Delta × Bool)} {first : Delta × Bool}
    (h : l.dropWhile (fun d => !d.2) = first :: more) :
    unifiedLoop l =
      let last := (first :: more.takeWhile fun d => d.2).getLastD first
      let ilen : Int := last.1.i - first.1.i + 1
      let jlen : Int := last.1.j - first.1.j + 1
      let acc := (first :: more.takeWhile fun d => d.2).flatMap fun d => d.1.text ++ [10]
      if more.dropWhile (fun d => d.2) = [] then
        some (unifiedHunk first.1.i first.1.j (ilen - 1) (jlen - 1) acc.dropLast.dropLast)
      else (unifiedLoop (more.dropWhile fun d => d.2)).map (unifiedHunk first.1.i first.1.j ilen jlen acc ++ ·) := by
  rw [unifiedLoop]
  by_cases hnil : l = []
  · rw [hnil] at h
    cases h
  · rw [dif_neg hnil]
    split
    · next hskip => cases hskip.symm.trans h
    · next first' more' hskip =>
      cases hskip.symm.trans h
      rfl

def textOf (deltas : List Delta) : Bytes := deltas.flatMap fun delta => delta.text ++ [10]

/-- The hunk of some deltas that begin behind these lines. -/
def hunkOf (i j : Nat) (body : List Delta) : UnifiedHunk :=
  ⟨i + 1, (oldLines (body.map Delta.text)).length, j + 1, (newLines (body.map Delta.text)).length, body.map Delta.text⟩

lemma unifiedHunk_eq (hbody : body ≠ []) {ilen jlen : Int} (hilen : ilen = (oldLines (body.map Delta.text)).length)
    (hjlen : jlen = (newLines (body.map Delta.text)).length) :
    unifiedHunk i j ilen jlen (textOf body) = (hunkOf i j body).text := by
  have hne : textOf body ≠ [] := by
    obtain ⟨delta, body, rfl⟩ := List.exists_cons_of_ne_nil hbody
    simp [textOf]
  rw [unifiedHunk, if_pos hne, hilen, hjlen, UnifiedHunk.text, hunkOf, textOf]
  simp only [List.flatMap_map]
  rfl

lemma map_fst_shown (l : List (Delta × Bool)) : (l.flatMap fun d => d.1.text ++ [10]) = textOf (l.map Prod.fst) := by
  rw [textOf, List.flatMap_map]

lemma takeWhile_shown (l : List (Delta × Bool)) : (l.takeWhile fun d => d.2) ++ l.dropWhile (fun d => d.2) = l :=
  List.takeWhile_append_dropWhile

lemma fst_getLastD {l : List (Delta × Bool)} {d : Delta × Bool} {delta : Delta} (h : l.map Prod.fst = body ++ [delta]) :
    (l.getLastD d).1 = delta := by
  have hlast := congrArg List.getLast? h
  rw [List.getLast?_map, List.getLast?_concat] at hlast
  obtain ⟨last, hl, rfl⟩ := Option.map_eq_some_iff.1 hlast
  rw [List.getLastD_eq_getLast?, hl, Option.getD_some]

/-- Applied to lines that begin with those of the deltas the hunk of the deltas puts the new ones in their place. -/
lemma applyUnified_hunkOf {hs : List UnifiedHunk}
    (happly : applyUnified (i + common.length + (oldLines (body.map Delta.text)).length)
    (j + common.length + (newLines (body.map Delta.text)).length) rest hs = some out) :
    applyUnified i j (common ++ (oldLines (body.map Delta.text) ++ rest))
      (hunkOf (i + common.length) (j + common.length) body :: hs) =
        some (common ++ (newLines (body.map Delta.text) ++ out)) :=
  @applyUnified_cons i j common rest out (hunkOf (i + common.length) (j + common.length) body) hs rfl rfl rfl rfl happly

/-- The round in which all deltas are shown; the last of them is no line. -/
lemma unifiedLoop_last {l more : List (Delta × Bool)} {first : Delta × Bool}
    (hskip : l.dropWhile (fun d => !d.2) = first :: more)
    (hall : more.dropWhile (fun d => d.2) = [])
    (hplaced : Placed (i + common.length) (j + common.length) (first.1 :: more.map Prod.fst) lines1 lines2) :
    ∃ hunks, unifiedLoop l = some (hunks.flatMap UnifiedHunk.text) ∧
      applyUnified i j (common ++ lines1) hunks = some (common ++ lines2) := by
  have hshown : (more.takeWhile fun d => d.2) = more := by
    have hmore := takeWhile_shown more
    rwa [hall, List.append_nil] at hmore
  obtain ⟨hi, hj⟩ := hplaced.head
  obtain ⟨body, rfl, rfl, hbody⟩ := hplaced.all
  have hlast : ((first :: more).getLastD first).1 =
      ⟨i + common.length + (oldLines (body.map Delta.text)).length,
        j + common.length + (newLines (body.map Delta.text)).length, [32]⟩ :=
    fst_getLastD (l := first :: more) hbody
  have hacc : (textOf ((first :: more).map Prod.fst)).dropLast.dropLast = textOf body := by
    rw [List.map_cons, hbody, textOf, List.flatMap_append]
    change ((textOf body ++ ([32] ++ [10])).dropLast).dropLast = textOf body
    rw [← List.append_assoc, List.dropLast_concat, List.dropLast_concat]
  rw [unifiedLoop_eq hskip]
  dsimp only
  rw [hshown, if_pos hall, map_fst_shown, hacc, hlast, hi, hj]
  by_cases hnone : body = []
  · refine ⟨[], ?_, ?_⟩
    · rw [hnone, unifiedHunk, if_neg (by simp [textOf])]
      rfl
    · rw [hnone]
      rfl
  · refine ⟨[hunkOf (i + common.length) (j + common.length) body], ?_, ?_⟩
    · rw [unifiedHunk_eq hnone (by dsimp only; omega) (by dsimp only; omega), List.flatMap_singleton]
    · have happly := @applyUnified_hunkOf i j body common [] [] [] rfl
      rwa [List.append_nil, List.append_nil] at happly

/-- A round behind which there are more deltas: the last one that is shown is a line of both files. -/
lemma unifiedLoop_round {l more l' : List (Delta × Bool)} {first d' : Delta × Bool}
    (hskip : l.dropWhile (fun d => !d.2) = first :: more) (hmore : more.dropWhile (fun d => d.2) = d' :: l')
    (hcovered : Covered (first :: more))
    (hplaced : Placed (i + common.length) (j + common.length) (first.1 :: more.map Prod.fst) lines1 lines2)
    (hrest : ∀ {i j : Nat} {lines1 lines2 : List Line}, Placed i j ((d' :: l').map Prod.fst) lines1 lines2 →
      ∃ hunks, unifiedLoop (d' :: l') = some (hunks.flatMap UnifiedHunk.text) ∧ applyUnified i j lines1 hunks =
        some lines2) :
    ∃ hunks, unifiedLoop l = some (hunks.flatMap UnifiedHunk.text) ∧
      applyUnified i j (common ++ lines1) hunks = some (common ++ lines2) := by
  have hhidden : d'.2 = false := by
    have hhead := List.head?_dropWhile_not (fun d : Delta × Bool => d.2) more
    rw [hmore] at hhead
    exact hhead
  obtain ⟨front, last, hfront⟩ : ∃ front last, (first :: more.takeWhile fun d => d.2) = front ++ [last] :=
    ⟨_, _, (List.dropLast_append_getLast (List.cons_ne_nil _ _)).symm⟩
  have hsplit : first :: more = front ++ last :: d' :: l' := by
    have hmore' := takeWhile_shown more
    rw [hmore] at hmore'
    rw [← hmore', ← List.cons_append, hfront, List.append_assoc, List.singleton_append]
  have hlast : last.1.changed = false := by
    rw [hsplit] at hcovered
    refine Bool.eq_false_iff.2 fun hchanged => ?_
    rw [(hcovered.append.1 hchanged).2] at hhidden
    cases hhidden
  obtain ⟨hi, hj⟩ := hplaced.head
  rw [← List.map_cons, hsplit, List.map_append] at hplaced
  obtain ⟨rest1, rest2, rfl, rfl, hplaced'⟩ := hplaced.append (by simp)
  obtain ⟨a, rest1, rest2, hdelta, rfl, rfl, hnext⟩ := hplaced'.of_unchanged (by simp) hlast
  obtain ⟨hunks, hloop, happly⟩ := hrest hnext
  generalize hbody : (front ++ [last]).map Prod.fst = body
  have htexts : body.map Delta.text = (front.map Prod.fst).map Delta.text ++ [32 :: a] := by
    rw [← hbody, List.map_append, List.map_append, List.map_singleton, List.map_singleton, hdelta]
  have hold : oldLines (body.map Delta.text) = oldLines ((front.map Prod.fst).map Delta.text) ++ [a] := by
    rw [htexts, oldLines_append]
    rfl
  have hnew : newLines (body.map Delta.text) = newLines ((front.map Prod.fst).map Delta.text) ++ [a] := by
    rw [htexts, newLines_append]
    rfl
  have hoffset : (oldLines (body.map Delta.text)).length = (oldLines ((front.map Prod.fst).map Delta.text)).length +
    1 := by
    rw [hold, List.length_append, List.length_singleton]
  have hoffset' : (newLines (body.map Delta.text)).length = (newLines ((front.map Prod.fst).map Delta.text)).length +
    1 := by
    rw [hnew, List.length_append, List.length_singleton]
  have hsome : body ≠ [] := by simp [← hbody]
  refine ⟨hunkOf (i + common.length) (j + common.length) body :: hunks, ?_, ?_⟩
  · rw [unifiedLoop_eq hskip]
    dsimp only
    rw [hfront, hmore, if_neg (List.cons_ne_nil _ _), map_fst_shown, hbody, hi, hj, List.getLastD_concat, hdelta, hloop,
      unifiedHunk_eq hsome (by dsimp only; omega) (by dsimp only; omega)]
    rfl
  · rw [List.append_cons (oldLines _), List.append_cons (newLines _), ← hold, ← hnew]
    refine applyUnified_hunkOf ?_
    rw [hoffset, hoffset']
    exact happly

/-- The loop writes hunks that lead from the lines of one file to those of the other. -/
lemma unifiedLoop_spec {l : List (Delta × Bool)} (hcovered : Covered l)
    (hplaced : Placed i j (l.map Prod.fst) lines1 lines2) :
    ∃ hunks, unifiedLoop l = some (hunks.flatMap UnifiedHunk.text) ∧ applyUnified i j lines1 hunks = some lines2 := by
  induction hlen : l.length using Nat.strongRecOn generalizing l i j lines1 lines2 with
  | ind n ih =>
    obtain ⟨common, rest1, rest2, first, more, hskip, hfirst, hcovered', rfl, rfl, hplaced'⟩ := hcovered.skip hplaced
    cases hmore : more.dropWhile fun d => d.2 with
    | nil => exact unifiedLoop_last hskip hmore hplaced'
    | cons d' l' =>
      have hlt : (d' :: l').length < n := by
        have hle := (List.dropWhile_suffix (fun d : Delta × Bool => !d.2) (l := l)).length_le
        have hle' := (List.dropWhile_suffix (fun d : Delta × Bool => d.2) (l := more)).length_le
        rw [hskip, List.length_cons] at hle
        rw [hmore] at hle'
        omega
      have hcut : Covered (d' :: l') := by
        rw [← hmore]
        refine Covered.append (l := first :: more.takeWhile fun d => d.2) ?_
        rwa [List.cons_append, takeWhile_shown]
      exact unifiedLoop_round hskip hmore hcovered' hplaced' fun hplaced => ih _ hlt hcut hplaced rfl

end CppExperiments.Cdiff

import CppExperiments.Cdiff.Shown
import Mathlib.Data.List.Induction

/-!
# The window around changes

A delta is shown if there is a change among those at most `context` away, which a counter keeps track of.
-/

namespace CppExperiments.Cdiff

variable {deltas : List Delta} {context i k m n : Nat}

/-- How many changes there are in front of a delta. -/
def changesBefore (deltas : List Delta) (k : Nat) : Nat := (deltas.take k).countP Delta.changed

/-- There is a change in the window around a delta. -/
def Shown (deltas : List Delta) (context k : Nat) : Prop :=
  changesBefore deltas (k - context) < changesBefore deltas (k + context + 1)

instance : Decidable (Shown deltas context k) := inferInstanceAs (Decidable (_ < _))

lemma changesBefore_succ (deltas : List Delta) (k : Nat) :
    changesBefore deltas (k + 1) = changesBefore deltas k + if changedAt deltas k then 1 else 0 := by
  rw [changesBefore, changesBefore, changedAt, List.take_add_one, List.countP_append]
  cases deltas[k]? with
  | none => rfl
  | some delta => rw [Option.toList_some, List.countP_singleton, Option.any_some]

lemma changesBefore_mono (h : k ≤ m) : changesBefore deltas k ≤ changesBefore deltas m := by
  induction m, h using Nat.le_induction with
  | base => exact Nat.le_refl _
  | succ m _ ih =>
    rw [changesBefore_succ]
    exact Nat.le_add_right_of_le ih

lemma changedAt_lt (h : changedAt deltas k = true) : k < deltas.length := by
  by_contra hge
  rw [changedAt, List.getElem?_eq_none (Nat.not_lt.1 hge)] at h
  cases h

/-- The counter is the number of changes in the window. -/
lemma toDisplay_eq (n i : Nat) :
    toDisplay deltas context n i (changesBefore deltas (i + context) - changesBefore deltas (i - context - 1)) =
    (List.range' i n).map fun k => decide (Shown deltas context k) := by
  induction n generalizing i with
  | zero => rfl
  | succ n ih =>
    have hin := changesBefore_succ deltas (i + context)
    have hout := changesBefore_succ deltas (i - context - 1)
    have hmono : changesBefore deltas (i - context - 1) ≤ changesBefore deltas (i + context) :=
      changesBefore_mono (by omega)
    have hmono' : changesBefore deltas (i - context) ≤ changesBefore deltas (i + context) :=
      changesBefore_mono (by omega)
    have hentered : (if i + context < deltas.length ∧ changedAt deltas (i + context) then
        changesBefore deltas (i + context) - changesBefore deltas (i - context - 1) + 1
        else changesBefore deltas (i + context) - changesBefore deltas (i - context - 1)) =
        changesBefore deltas (i + context + 1) - changesBefore deltas (i - context - 1) := by
      by_cases hchanged : changedAt deltas (i + context)
      · rw [if_pos ⟨changedAt_lt hchanged, hchanged⟩, hin, if_pos hchanged]
        omega
      · rw [if_neg fun h => hchanged h.2, hin, if_neg hchanged]
        rfl
    have hleft : (if context < i ∧ changedAt deltas (i - context - 1) then
        changesBefore deltas (i + context + 1) - changesBefore deltas (i - context - 1) - 1
        else changesBefore deltas (i + context + 1) - changesBefore deltas (i - context - 1)) =
        changesBefore deltas (i + context + 1) - changesBefore deltas (i - context) := by
      by_cases hlt : context < i
      · have hpred : i - context - 1 + 1 = i - context := by omega
        rw [hpred] at hout
        by_cases hchanged : changedAt deltas (i - context - 1)
        · rw [if_pos ⟨hlt, hchanged⟩, hout, if_pos hchanged]
          omega
        · rw [if_neg fun h => hchanged h.2, hout, if_neg hchanged]
          rfl
      · have hzero : i - context - 1 = i - context := by omega
        rw [if_neg fun h => hlt h.1, hzero]
    have hnext := ih (i + 1)
    have hsucc : i + 1 + context = i + context + 1 := by omega
    have hsucc' : i + 1 - context - 1 = i - context := by omega
    rw [hsucc, hsucc'] at hnext
    rw [toDisplay, hentered, hleft, hnext, List.range'_succ, List.map_cons]
    refine congrArg (· :: _) (decide_eq_decide.2 ?_)
    rw [Shown]
    omega

/-- The deltas from one on with whether they are shown. -/
def flagged (deltas : List Delta) (context i : Nat) : List (Delta × Bool) :=
  (deltas.drop i).zip ((List.range' i (deltas.length - i)).map fun k => decide (Shown deltas context k))

lemma shown_of_changed (hcontext : 1 ≤ context) (h : changedAt deltas k = true) :
    Shown deltas context k ∧ Shown deltas context (k + 1) := by
  have hcount := changesBefore_succ deltas k
  rw [if_pos h] at hcount
  have hback : changesBefore deltas (k - context) ≤ changesBefore deltas k := changesBefore_mono (by omega)
  have hback' : changesBefore deltas (k + 1 - context) ≤ changesBefore deltas k := changesBefore_mono (by omega)
  have hon : changesBefore deltas (k + 1) ≤ changesBefore deltas (k + context + 1) := changesBefore_mono (by omega)
  have hon' : changesBefore deltas (k + 1) ≤ changesBefore deltas (k + 1 + context + 1) := changesBefore_mono (by omega)
  rw [Shown, Shown]
  omega

lemma flagged_cons {delta : Delta} {rest : List Delta} (h : deltas.drop i = delta :: rest) :
    flagged deltas context i = (delta, decide (Shown deltas context i)) :: flagged deltas context (i + 1) := by
  have hlt : i < deltas.length := by
    by_contra hge
    rw [List.drop_of_length_le (Nat.not_lt.1 hge)] at h
    cases h
  have hrest : deltas.drop (i + 1) = rest := by rw [← List.drop_drop, h, List.drop_one, List.tail_cons]
  have hlen : deltas.length - i = deltas.length - (i + 1) + 1 := by omega
  rw [flagged, h, hlen, List.range'_succ, List.map_cons, List.zip_cons_cons, flagged, hrest]

lemma changedAt_of_drop {delta : Delta} {rest : List Delta} (h : deltas.drop i = delta :: rest) :
    changedAt deltas i = delta.changed := by
  have hat := @List.getElem?_drop _ deltas i 0
  rw [h, List.getElem?_cons_zero, Nat.add_zero] at hat
  rw [changedAt, ← hat, Option.any_some]

/-- If the last delta is shown, then with every change the delta behind it is. -/
lemma covered_flagged (hcontext : 1 ≤ context) (hlast : Shown deltas context (deltas.length - 1)) (i : Nat) :
    Covered (flagged deltas context i) := by
  generalize hdrop : deltas.drop i = rest
  induction rest generalizing i with
  | nil =>
    rw [flagged, hdrop]
    exact trivial
  | cons delta rest ih =>
    have hrest : deltas.drop (i + 1) = rest := by rw [← List.drop_drop, hdrop, List.drop_one, List.tail_cons]
    have hcovered := ih (i + 1) hrest
    rw [flagged_cons hdrop]
    cases rest with
    | nil =>
      have hlen := congrArg List.length hdrop
      rw [List.length_drop, List.length_singleton] at hlen
      have hi : i = deltas.length - 1 := by omega
      rw [flagged, hrest, hi]
      exact decide_eq_true hlast
    | cons delta' rest =>
      rw [flagged_cons hrest] at hcovered ⊢
      refine ⟨fun hchanged => ?_, hcovered⟩
      have hshown := shown_of_changed hcontext ((changedAt_of_drop hdrop).trans hchanged)
      exact ⟨decide_eq_true hshown.1, decide_eq_true hshown.2⟩

/-- The text is that of the deltas with the windows that are shown. -/
lemma unifiedPatchText_eq (deltas : List Delta) (context : Nat) :
    unifiedPatchText deltas context = (unifiedLoop (flagged deltas context 0)).map List.dropLast := by
  have hstart : (deltas.take (min context deltas.length)).countP Delta.changed =
      changesBefore deltas (0 + context) - changesBefore deltas (0 - context - 1) := by
    have hzero : changesBefore deltas (0 - context - 1) = 0 := by rw [Nat.zero_sub, Nat.zero_sub, changesBefore]; rfl
    have htake : deltas.take (min context deltas.length) = deltas.take context := by
      rcases Nat.le_total context deltas.length with hle | hle
      · rw [Nat.min_eq_left hle]
      · rw [Nat.min_eq_right hle, List.take_length, List.take_of_length_le hle]
    rw [hzero, Nat.zero_add, Nat.sub_zero, changesBefore, htake]
  rw [unifiedPatchText, hstart, toDisplay_eq, flagged, List.drop_zero, Nat.sub_zero]

lemma map_fst_flagged (deltas : List Delta) (context : Nat) : (flagged deltas context 0).map Prod.fst = deltas := by
  rw [flagged, List.drop_zero, List.map_fst_zip]
  simp

lemma getLast?_flagged {delta : Delta} (body : List Delta) (context : Nat) :
    (flagged (body ++ [delta]) context 0).getLast? =
    some (delta, decide (Shown (body ++ [delta]) context body.length)) := by
  have hlen : (flagged (body ++ [delta]) context 0).length = body.length + 1 := by simp [flagged]
  rw [List.getLast?_eq_getElem?, hlen, Nat.add_sub_cancel, flagged, List.drop_zero, Nat.sub_zero]
  refine List.getElem?_zip_eq_some.2 ⟨?_, ?_⟩
  · rw [List.getElem?_append_right (Nat.le_refl _), Nat.sub_self]
    rfl
  · rw [List.getElem?_map, List.getElem?_range' (by simp)]
    simp

/-- Where the last delta is not shown the loop reads one behind it. -/
lemma unifiedLoop_none {l : List (Delta × Bool)} {d : Delta × Bool} (hlast : l.getLast? = some d)
    (hhidden : d.2 = false) :
    unifiedLoop l = none := by
  induction hlen : l.length using Nat.strongRecOn generalizing l with
  | ind n ih =>
    cases hskip : l.dropWhile fun d => !d.2 with
    | nil =>
      have hnil : l ≠ [] := by
        rintro rfl
        cases hlast
      rw [unifiedLoop, dif_neg hnil]
      split
      · rfl
      · next hskip' => cases hskip.symm.trans hskip'
    | cons first more =>
      have hsplit := @List.takeWhile_append_dropWhile _ (fun d : Delta × Bool => !d.2) l
      rw [hskip] at hsplit
      rw [← hsplit, List.getLast?_append_of_ne_nil _ (List.cons_ne_nil first more)] at hlast
      have hsplit' := takeWhile_shown more
      cases hmore : more.dropWhile fun d => d.2 with
      | nil =>
        have hhead := List.head?_dropWhile_not (fun d : Delta × Bool => !d.2) l
        rw [hskip] at hhead
        rcases List.mem_cons.1 (List.mem_of_getLast? hlast) with rfl | hmem
        · have hshown : (!d.2) = false := hhead
          rw [hhidden] at hshown
          cases hshown
        · have hshown := List.dropWhile_eq_nil_iff.1 hmore d hmem
          rw [hhidden] at hshown
          cases hshown
      | cons d' l' =>
        rw [hmore] at hsplit'
        rw [← hsplit', ← List.cons_append, List.getLast?_append_of_ne_nil _ (List.cons_ne_nil d' l')] at hlast
        have hlt : (d' :: l').length < n := by
          have hle := congrArg List.length hsplit
          have hle' := congrArg List.length hsplit'
          rw [List.length_append, List.length_cons] at hle
          rw [List.length_append] at hle'
          omega
        rw [unifiedLoop_eq hskip]
        dsimp only
        rw [hmore, if_neg (List.cons_ne_nil _ _), ih _ hlt hlast rfl]
        rfl

end CppExperiments.Cdiff

/-!
## Files with the same end

The unified patch of two files is right just if they differ and do not end with the same three lines.
-/

namespace CppExperiments.Cdiff

variable {dp : List (List Nat)} {sentences1 sentences2 lines : List Line} {i j m : Nat} {deltas body : List Delta}
  {a : Line}

/-! ## The deltas of two files -/

lemma placed_unifiedDeltas (hi : i ≤ sentences1.length) (hj : j ≤ sentences2.length)
    (h : Placed i j deltas (sentences1.drop i) (sentences2.drop j)) :
    Placed 0 0 (unifiedDeltas dp sentences1 sentences2 i j deltas) sentences1 sentences2 := by
  fun_induction unifiedDeltas dp sentences1 sentences2 i j deltas with
  | case1 i j deltas hmore hboth ih =>
    obtain ⟨hi0, hj0, hsame⟩ := hboth
    obtain ⟨i, rfl⟩ := Nat.exists_eq_add_of_le' hi0
    obtain ⟨j, rfl⟩ := Nat.exists_eq_add_of_le' hj0
    simp only [Nat.add_sub_cancel] at hsame ih ⊢
    have hat : sentences1[i]? = some sentences1[i] := List.getElem?_eq_getElem hi
    have hat' : sentences2[j]? = some sentences1[i] := hsame ▸ hat
    refine ih (Nat.le_of_succ_le hi) (Nat.le_of_succ_le hj) ?_
    rw [drop_of_getElem? hat, drop_of_getElem? hat', List.getD_eq_getElem _ _ hi]
    exact .same h
  | case2 i j deltas hmore hboth hdel ih =>
    have hi0 : 0 < i := by omega
    obtain ⟨i, rfl⟩ := Nat.exists_eq_add_of_le' hi0
    simp only [Nat.add_sub_cancel] at ih ⊢
    refine ih (Nat.le_of_succ_le hi) hj ?_
    rw [drop_of_getElem? (List.getElem?_eq_getElem hi), List.getD_eq_getElem _ _ hi]
    exact .removed h
  | case3 i j deltas hmore hboth hdel ih =>
    rw [not_or] at hdel
    obtain ⟨j, rfl⟩ := Nat.exists_eq_succ_of_ne_zero hdel.1
    simp only [Nat.add_sub_cancel, Nat.succ_eq_add_one] at ih ⊢
    refine ih hi (Nat.le_of_succ_le hj) ?_
    rw [drop_of_getElem? (List.getElem?_eq_getElem hj), List.getD_eq_getElem _ _ hj]
    exact .added h
  | case4 i j deltas hmore =>
    obtain ⟨rfl, rfl⟩ : i = 0 ∧ j = 0 := by omega
    exact h

/-- The deltas that were there stay at the end. -/
lemma exists_append_unifiedDeltas : ∃ front, unifiedDeltas dp sentences1 sentences2 i j deltas = front ++ deltas := by
  fun_induction unifiedDeltas dp sentences1 sentences2 i j deltas with
  | case1 i j deltas hmore hboth ih =>
    obtain ⟨front, hfront⟩ := ih
    exact ⟨_, hfront.trans (List.append_cons _ _ _)⟩
  | case2 i j deltas hmore hboth hdel ih =>
    obtain ⟨front, hfront⟩ := ih
    exact ⟨_, hfront.trans (List.append_cons _ _ _)⟩
  | case3 i j deltas hmore hboth hdel ih =>
    obtain ⟨front, hfront⟩ := ih
    exact ⟨_, hfront.trans (List.append_cons _ _ _)⟩
  | case4 i j deltas hmore => exact ⟨[], rfl⟩

lemma unifiedDeltas_same (hi : sentences1[i]? = some a) (hj : sentences2[j]? = some a) :
    unifiedDeltas dp sentences1 sentences2 (i + 1) (j + 1) deltas =
      unifiedDeltas dp sentences1 sentences2 i j (⟨i, j, 32 :: a⟩ :: deltas) := by
  have hsame : sentences1[i + 1 - 1]? = sentences2[j + 1 - 1]? := by
    rw [Nat.add_sub_cancel, Nat.add_sub_cancel, hi, hj]
  rw [unifiedDeltas, dif_pos (Or.inl (Nat.succ_pos i)), dif_pos ⟨Nat.succ_pos i, Nat.succ_pos j, hsame⟩,
    Nat.add_sub_cancel, Nat.add_sub_cancel, List.getD_eq_getElem?_getD, hi, Option.getD_some]

lemma getElem?_front (front rear : List Line) : (front ++ a :: rear)[front.length]? = some a := by
  rw [List.getElem?_append_right (Nat.le_refl _), Nat.sub_self]
  rfl

/-- Lines that both files have at the end become deltas without a change. -/
lemma unifiedDeltas_rear (front1 front2 rear more1 more2 : List Line) (deltas : List Delta) : ∃ same : List Delta,
    same.length = rear.length ∧ (∀ delta ∈ same, delta.changed = false) ∧
      unifiedDeltas dp (front1 ++ rear ++ more1) (front2 ++ rear ++ more2) (front1 ++ rear).length
        (front2 ++ rear).length deltas =
        unifiedDeltas dp (front1 ++ rear ++ more1) (front2 ++ rear ++ more2) front1.length front2.length
          (same ++ deltas) := by
  induction rear using List.reverseRecOn generalizing more1 more2 deltas with
  | nil => exact ⟨[], rfl, nofun, by simp only [List.append_nil, List.nil_append]⟩
  | append_singleton rear a ih =>
    obtain ⟨same, hlen, hsame, heq⟩ :=
      ih (a :: more1) (a :: more2) (⟨(front1 ++ rear).length, (front2 ++ rear).length, 32 :: a⟩ :: deltas)
    refine ⟨same ++ [⟨(front1 ++ rear).length, (front2 ++ rear).length, 32 :: a⟩], ?_, ?_, ?_⟩
    · simp only [List.length_append, List.length_singleton, hlen]
    · intro delta hdelta
      rcases List.mem_append.1 hdelta with hin | hin
      · exact hsame delta hin
      · rw [List.mem_singleton.1 hin]
        rfl
    · have hone (front more : List Line) : front ++ (rear ++ [a]) ++ more = front ++ rear ++ a :: more := by simp
      have hlength (front : List Line) : (front ++ (rear ++ [a])).length = (front ++ rear).length + 1 := by
        rw [← List.append_assoc, List.length_append, List.length_singleton]
      rw [hone, hone, hlength, hlength, unifiedDeltas_same (getElem?_front _ _) (getElem?_front _ _), heq,
        List.append_cons same]

/-! ## The last delta -/

lemma changesBefore_length (deltas : List Delta) (k : Nat) (h : deltas.length ≤ k) :
    changesBefore deltas k = deltas.countP Delta.changed := by
  rw [changesBefore, List.take_of_length_le h]

/-- The last delta is hidden if and only if there is no change so near to the end. -/
lemma not_shown_last {context : Nat} (h : deltas ≠ []) : ¬ Shown deltas context (deltas.length - 1) ↔
    ∀ delta ∈ deltas.drop (deltas.length - 1 - context), delta.changed = false := by
  have hpos := List.length_pos_iff.2 h
  have hall := congrArg (List.countP Delta.changed) (List.take_append_drop (deltas.length - 1 - context) deltas)
  rw [List.countP_append] at hall
  rw [Shown, changesBefore_length deltas (deltas.length - 1 + context + 1) (by omega), changesBefore]
  have hcount : (deltas.drop (deltas.length - 1 - context)).countP Delta.changed = 0 ↔
      ∀ delta ∈ deltas.drop (deltas.length - 1 - context), delta.changed = false := by
    rw [List.countP_eq_zero]
    exact forall₂_congr fun delta _ => by rw [Bool.not_eq_true]
  rw [← hcount]
  omega

/-- Deltas without a change stand for the same lines. -/
lemma lines_of_unchanged (h : ∀ delta ∈ body, delta.changed = false) :
    oldLines (body.map Delta.text) = newLines (body.map Delta.text) ∧ (oldLines (body.map Delta.text)).length =
      body.length := by
  induction body with
  | nil => exact ⟨rfl, rfl⟩
  | cons delta body ih =>
    obtain ⟨heq, hlen⟩ := ih fun d hd => h d (List.mem_cons_of_mem _ hd)
    have hhead : delta.text.head? = some 32 := by
      have hsame := h delta List.mem_cons_self
      rw [Delta.changed, bne_eq_false_iff_eq] at hsame
      exact hsame
    have hold : oldLines ((delta :: body).map Delta.text) = delta.text.tail :: oldLines (body.map Delta.text) := by
      simp [oldLines, hhead]
    have hnew : newLines ((delta :: body).map Delta.text) = delta.text.tail :: newLines (body.map Delta.text) := by
      simp [newLines, hhead]
    rw [hold, hnew]
    exact ⟨congrArg _ heq, congrArg Nat.succ hlen⟩

section Files

variable (dp : List (List Nat)) (sentences1 sentences2 : List Line)

/-- All deltas of two files. -/
def deltasOf : List Delta :=
  unifiedDeltas dp sentences1 sentences2 sentences1.length sentences2.length [⟨sentences1.length, sentences2.length, ascii " "⟩]

lemma placed_deltasOf : Placed 0 0 (deltasOf dp sentences1 sentences2) sentences1 sentences2 := by
  refine placed_unifiedDeltas (Nat.le_refl _) (Nat.le_refl _) ?_
  rw [List.drop_length, List.drop_length]
  exact .sentinel

lemma unchanged_sentinel (same : List Delta) (h : ∀ delta ∈ same, delta.changed = false) (i j : Nat) :
    ∀ delta ∈ same ++ [⟨i, j, ascii " "⟩], delta.changed = false := by
  intro delta hdelta
  rcases List.mem_append.1 hdelta with hin | hin
  · exact h delta hin
  · rw [List.mem_singleton.1 hin]
    rfl

/-- The last delta is hidden just if the files end in the same way. -/
lemma not_shown_iff : ¬ Shown (deltasOf dp sentences1 sentences2) 3 ((deltasOf dp sentences1 sentences2).length - 1) ↔
    SameEnd sentences1 sentences2 := by
  obtain ⟨body, hold, hnew, hbody⟩ := (placed_deltasOf dp sentences1 sentences2).all
  have hne : deltasOf dp sentences1 sentences2 ≠ [] := by simp [hbody]
  rw [not_shown_last hne]
  constructor
  · intro h
    rw [hbody, List.length_append, List.length_singleton, Nat.add_sub_cancel,
      List.drop_append_of_le_length (by omega)] at h
    obtain ⟨heq, hlen⟩ := lines_of_unchanged fun delta hdelta => h delta (List.mem_append_left _ hdelta)
    have hsplit := congrArg (List.map Delta.text) (List.take_append_drop (body.length - 3) body)
    rw [List.map_append] at hsplit
    rw [← hsplit, oldLines_append] at hold
    rw [← hsplit, newLines_append, ← heq] at hnew
    by_cases hlong : 3 ≤ body.length
    · refine Or.inr ⟨_, _, _, ?_, hold, hnew⟩
      rw [hlen, List.length_drop]
      omega
    · have hzero : body.length - 3 = 0 := by omega
      rw [hzero, List.take_zero] at hold hnew
      exact Or.inl (hold.trans hnew.symm)
  · rintro (rfl | ⟨front1, front2, rear, hlen, rfl, rfl⟩)
    · obtain ⟨same, -, hsame, heq⟩ := @unifiedDeltas_rear dp [] [] sentences1 [] [] [⟨sentences1.length, sentences1.length, ascii " "⟩]
      rw [List.nil_append, List.append_nil] at heq
      have hall : deltasOf dp sentences1 sentences1 = same ++ [⟨sentences1.length, sentences1.length, ascii " "⟩] := by
        rw [deltasOf, heq, List.length_nil, unifiedDeltas, dif_neg (by simp)]
      rw [hall]
      exact fun delta hdelta => unchanged_sentinel same hsame _ _ delta (List.mem_of_mem_drop hdelta)
    · obtain ⟨same, hlen', hsame, heq⟩ := @unifiedDeltas_rear dp front1 front2 rear [] []
        [⟨(front1 ++ rear).length, (front2 ++ rear).length, ascii " "⟩]
      rw [List.append_nil, List.append_nil] at heq
      obtain ⟨front, hfront⟩ := @exists_append_unifiedDeltas dp (front1 ++ rear) (front2 ++ rear) front1.length
        front2.length
        (same ++ [⟨(front1 ++ rear).length, (front2 ++ rear).length, ascii " "⟩])
      have hat : (deltasOf dp (front1 ++ rear) (front2 ++ rear)).length - 1 - 3 = front.length := by
        rw [deltasOf, heq, hfront, List.length_append, List.length_append, List.length_singleton]
        omega
      rw [hat, deltasOf, heq, hfront, List.drop_left]
      exact unchanged_sentinel same hsame _ _

end Files

/-- The unified patch leads from one file to the other just if they do not end in the same way. -/
theorem patched_iff (sentences1 sentences2 : List Line) :
    Patched sentences1 sentences2 ↔ ¬ SameEnd sentences1 sentences2 := by
  have hplaced := placed_deltasOf (computeLCSGrid sentences1 sentences2) sentences1 sentences2
  rw [← not_shown_iff (computeLCSGrid sentences1 sentences2), not_not, Patched]
  have hdiff : unifiedDiff sentences1 sentences2 =
      (unifiedLoop (flagged (deltasOf (computeLCSGrid sentences1 sentences2) sentences1 sentences2) 3 0)).map
        List.dropLast :=
    unifiedPatchText_eq _ 3
  rw [hdiff]
  generalize deltasOf (computeLCSGrid sentences1 sentences2) sentences1 sentences2 = deltas at *
  constructor
  · rintro ⟨hunks, hsome, -⟩
    by_contra hhidden
    have hnone : unifiedLoop (flagged deltas 3 0) = none := by
      obtain ⟨body, -, -, rfl⟩ := hplaced.all
      rw [List.length_append, List.length_singleton, Nat.add_sub_cancel] at hhidden
      exact unifiedLoop_none (getLast?_flagged body 3) (decide_eq_false hhidden)
    rw [hnone] at hsome
    cases hsome
  · intro hshown
    have hfst : Placed 0 0 ((flagged deltas 3 0).map Prod.fst) sentences1 sentences2 := by rwa [map_fst_flagged]
    obtain ⟨hunks, hloop, happly⟩ := unifiedLoop_spec (covered_flagged (by decide) hshown 0) hfst
    exact ⟨hunks, by rw [hloop, Option.map_some], happly⟩

/-- Two empty files: there is no delta behind the one that is not shown. -/
theorem not_patched_nil : ¬ Patched [] [] := by
  rintro ⟨hunks, hsome, -⟩
  have hdeltas (dp : List (List Nat)) : unifiedDeltas dp [] [] 0 0 [⟨0, 0, ascii " "⟩] = [⟨0, 0, ascii " "⟩] := by
    rw [unifiedDeltas, dif_neg (by decide)]
  have hnone : unifiedDiff [] [] = none := by
    change unifiedPatchText (unifiedDeltas _ [] [] 0 0 [⟨0, 0, ascii " "⟩]) 3 = none
    rw [hdeltas, unifiedPatchText_eq]
    exact congrArg _ (unifiedLoop_none (getLast?_flagged [] 3) rfl)
  rw [hnone] at hsome
  cases hsome

end CppExperiments.Cdiff

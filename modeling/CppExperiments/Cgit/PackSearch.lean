import CppExperiments.Cgit.GitDir
import CppExperiments.Lib.Sorted

/-!
# The search in a pack

What the search in the index of a pack reports for a part of a name: the names that begin with it, and sometimes the
bytes behind the last name.
-/

namespace CppExperiments.Cgit

namespace Pack

/-! ## The search on numbers

What the search does if every name stands where it is looked for. -/

/-- The binary search on the numbers of names, in which both bounds are looked at. -/
def getPackIdxOffsetStart (pack : Pack) (part : Bytes) (start stop : Nat) : Nat :=
  if _h : start ≤ stop then
    let mid := start + (stop - start) / 2
    if ¬ (pack.shaAt mid).take part.length < part then
      if _h' : start = mid then start else pack.getPackIdxOffsetStart part start (mid - 1)
    else pack.getPackIdxOffsetStart part (mid + 1) stop
  else start
termination_by stop + 1 - start

/-- The walk on the numbers of names. -/
def matchesFrom (pack : Pack) (part : Bytes) (curr startOffset : Nat) : List (Bytes × Nat) :=
  if _h : startOffset ≤ curr then
    if part <+: pack.shaAt startOffset then
      (pack.shaAt startOffset, startOffset) :: pack.matchesFrom part curr (startOffset + 1)
    else []
  else []
termination_by curr + 1 - startOffset

/-- What is found where the search reads the names that it looks at. -/
def getHashMatchFromIndex (pack : Pack) (part : Bytes) : Option (List (Bytes × Nat)) :=
  if part.length < 2 then none
  else do
    let hexInt ← stoi16 (part.take 2)
    let curr := pack.fanout hexInt.toNat
    let prev := if 0 < hexInt then pack.fanout (hexInt.toNat - 1) else 0
    return if prev < curr then pack.matchesFrom part curr (pack.getPackIdxOffsetStart part prev curr) else []

/-- The name of this number is smaller than a part. -/
def Below (pack : Pack) (part : Bytes) (i : Nat) : Prop := (pack.shaAt i).take part.length < part

/-- The bytes behind the last name are taken for a name: the last name is in the bucket of the part, no name is
greater, and the bytes begin with the part. -/
def Overread (pack : Pack) (part : Bytes) : Prop :=
  (∃ sha ∈ pack.shas, sha.take 2 = part.take 2) ∧ (∀ sha ∈ pack.shas, sha.take part.length ≤ part) ∧
    part <+: pack.behind

open Classical in
/-- The numbers of the names that are reported for a part. -/
noncomputable def entries (pack : Pack) (part : Bytes) : List (Bytes × Nat) :=
  (pack.shas.zipIdx.filter fun m => part <+: m.1) ++ if pack.Overread
    part then [(pack.behind, pack.shas.length)] else []

variable {pack : Pack} {part sha : Bytes} {prev curr start stop i a b : Nat}

/-! ## The binary search -/

/-- The search finds the first name that is not smaller, as long as only the last of the names is out of order. -/
lemma getPackIdxOffsetStart_spec (hmono : ∀ i j, prev ≤ i → i ≤ j → j < curr → pack.Below part j → pack.Below part i)
    (hprev : prev ≤ start) (hstop : stop ≤ curr) (hle : start ≤ stop + 1) (hlow : ∀ i, prev ≤ i → i < start →
      pack.Below part i)
    (hhigh : stop < curr → ¬ pack.Below part (stop + 1)) :
    start ≤ pack.getPackIdxOffsetStart part start stop ∧ pack.getPackIdxOffsetStart part start stop ≤ curr + 1 ∧
      (∀ i, prev ≤ i → i < pack.getPackIdxOffsetStart part start stop → pack.Below part i) ∧
      (pack.getPackIdxOffsetStart part start stop ≤ curr →
        ¬ pack.Below part (pack.getPackIdxOffsetStart part start stop)) := by
  fun_induction getPackIdxOffsetStart pack part start stop with
  | case1 start stop hsearch mid hge heq =>
    have hmid : mid = start := heq.symm
    rw [hmid] at hge
    exact ⟨le_refl _, by omega, hlow, fun _ => hge⟩
  | case2 start stop hsearch mid hge hne ih =>
    have hmid : start < mid ∧ mid ≤ stop := by omega
    refine ih hprev (by omega) (by omega) hlow fun _ => ?_
    rw [Nat.sub_add_cancel (by omega)]
    exact hge
  | case3 start stop hsearch mid hlt ih =>
    rw [not_not] at hlt
    have hmid : start ≤ mid ∧ mid ≤ stop := by omega
    have hlow' : ∀ i, prev ≤ i → i < mid + 1 → pack.Below part i := by
      intro i hi hilt
      by_cases hcurr : mid < curr
      · exact hmono i mid hi (by omega) hcurr hlt
      · by_cases hstart : i < start
        · exact hlow i hi hstart
        · have heq : i = mid := by omega
          rw [heq]
          exact hlt
    obtain ⟨hstart, hrest⟩ := ih (by omega) hstop (by omega) hlow' hhigh
    exact ⟨by omega, hrest⟩
  | case4 start stop hsearch =>
    have heq : start = stop + 1 := by omega
    refine ⟨le_refl _, by omega, hlow, fun hcurr => ?_⟩
    rw [heq]
    exact hhigh (by omega)

/-- The numbers of the names that the binary search looks at. -/
def lookedAt (pack : Pack) (part : Bytes) (start stop : Nat) : List Nat :=
  if _h : start ≤ stop then
    let mid := start + (stop - start) / 2
    if ¬ (pack.shaAt mid).take part.length < part then
      if _h' : start = mid then [mid] else mid :: pack.lookedAt part start (mid - 1)
    else mid :: pack.lookedAt part (mid + 1) stop
  else []
termination_by stop + 1 - start

lemma lookedAt_le (pack : Pack) (part : Bytes) : ∀ mid ∈ pack.lookedAt part a b, mid ≤ b := by
  fun_induction lookedAt pack part a b with
  | case1 a b hle mid hge heq => exact List.forall_mem_singleton.2 (by omega)
  | case2 a b hle mid hge hne ih =>
    exact List.forall_mem_cons.2 ⟨by omega, fun m hm => (ih m hm).trans (by omega)⟩
  | case3 a b hle mid hlt ih => exact List.forall_mem_cons.2 ⟨by omega, ih⟩
  | case4 a b hle => exact List.forall_mem_nil _

/-- The search ends at a name that it has looked at, or behind the last one. -/
lemma getPackIdxOffsetStart_mem (pack : Pack) (part : Bytes) (ha : a ≤ b + 1) :
    pack.getPackIdxOffsetStart part a b ∈ pack.lookedAt part a b ∨ pack.getPackIdxOffsetStart part a b = b + 1 := by
  fun_induction getPackIdxOffsetStart pack part a b with
  | case1 a b hle mid hge heq =>
    rw [lookedAt, dif_pos hle, if_pos hge, dif_pos heq]
    exact Or.inl (List.mem_singleton.2 heq)
  | case2 a b hle mid hge hne ih =>
    rw [lookedAt, dif_pos hle, if_pos hge, dif_neg hne]
    rcases ih (by omega) with hmem | heq
    · exact Or.inl (List.mem_cons_of_mem _ hmem)
    · refine Or.inl (List.mem_cons.2 (Or.inl ?_))
      omega
  | case3 a b hle mid hlt ih =>
    rw [lookedAt, dif_pos hle, if_neg hlt]
    rcases ih (by omega) with hmem | heq
    · exact Or.inl (List.mem_cons_of_mem _ hmem)
    · exact Or.inr heq
  | case4 a b hle => exact Or.inr (by omega)

lemma getPackIdxOffsetStart_le (pack : Pack) (part : Bytes) (ha : a ≤ b + 1) :
    pack.getPackIdxOffsetStart part a b ≤ b + 1 := by
  fun_induction getPackIdxOffsetStart pack part a b with
  | case1 a b hle mid hge heq => omega
  | case2 a b hle mid hge hne ih => exact (ih (by omega)).trans (by omega)
  | case3 a b hle mid hlt ih => exact ih (by omega)
  | case4 a b hle => exact ha

/-! ## The names that match -/

lemma prefix_iff_take : part <+: sha ↔ sha.take part.length = part := List.prefix_iff_eq_take.trans eq_comm

lemma shaAt_eq (hi : i < pack.shas.length) : pack.shaAt i = pack.shas[i] := by
  rw [shaAt, List.getD_eq_getElem?_getD, List.getElem?_eq_getElem hi, Option.getD_some]

lemma shaAt_length : pack.shaAt pack.shas.length = pack.behind := by
  rw [shaAt, List.getD_eq_getElem?_getD, List.getElem?_eq_none (le_refl _), Option.getD_none]

/-- Behind a name that is greater than a part nothing matches. -/
lemma not_prefix_of_lt (hi : i < pack.shas.length) (hlt : part < (pack.shaAt i).take part.length) :
    ∀ sha ∈ pack.shas.drop i, ¬ part <+: sha := by
  intro sha hsha hpre
  rw [List.drop_eq_getElem_cons hi] at hsha
  rw [shaAt_eq hi] at hlt
  have hsorted := pack.sorted.sublist (List.drop_sublist i pack.shas)
  rw [List.drop_eq_getElem_cons hi, List.pairwise_cons] at hsorted
  have hle : pack.shas[i] ≤ sha := by
    rcases List.mem_cons.1 hsha with rfl | hsha
    · exact List.le_refl _
    · exact List.le_of_lt (hsorted.1 sha hsha)
  have htake := take_le_take hle part.length
  rw [prefix_iff_take.1 hpre] at htake
  exact htake hlt

lemma not_overread_of_lt (hi : i < pack.shas.length) (hlt : part < (pack.shaAt i).take part.length) :
    ¬ pack.Overread part := by
  intro hover
  rw [shaAt_eq hi] at hlt
  exact hover.2.1 _ (List.getElem_mem hi) hlt

lemma filter_zipIdx_eq_nil {shas : List Bytes} (h : ∀ sha ∈ shas, ¬ part <+: sha) :
    ((shas.zipIdx i).filter fun m => part <+: m.1) = [] := by
  rw [List.filter_eq_nil_iff]
  intro m hm
  rw [decide_eq_true_iff]
  exact h m.1 (List.fst_mem_of_mem_zipIdx hm)

open Classical in
/-- From the first name that is not smaller on, the walk takes the names that match. -/
lemma matchesFrom_eq (hbucket : ∃ sha ∈ pack.shas, sha.take 2 = part.take 2) (hcurr : curr ≤ pack.shas.length)
    (hgreater : ∀ j, curr ≤ j → j < pack.shas.length → part < (pack.shaAt j).take part.length) (hi : i ≤ curr)
    (hsmall : ∀ j < i, (pack.shaAt j).take part.length ≤ part) (hnot : ∀ j, i ≤ j → j < curr → ¬ pack.Below part j) :
    pack.matchesFrom part curr i = ((pack.shas.drop i).zipIdx i).filter (fun m => part <+: m.1) ++
      if pack.Overread part then [(pack.behind, pack.shas.length)] else [] := by
  fun_induction matchesFrom pack part curr i with
  | case1 i hle hpre ih =>
    by_cases hlast : i = pack.shas.length
    · have hend : pack.matchesFrom part curr (i + 1) = [] := by
        rw [matchesFrom, dif_neg (by omega)]
      have hover : pack.Overread part := by
        refine ⟨hbucket, fun sha hsha => ?_, shaAt_length ▸ hlast ▸ hpre⟩
        obtain ⟨j, hj, rfl⟩ := List.getElem_of_mem hsha
        rw [← shaAt_eq hj]
        exact hsmall j (by omega)
      rw [hend, if_pos hover, List.drop_eq_nil_of_le (by omega), hlast, shaAt_length]
      rfl
    · have hlt : i < pack.shas.length := by omega
      have heq := prefix_iff_take.1 hpre
      have hle' : i + 1 ≤ curr := by
        by_contra hgt
        have hgreat := hgreater i (by omega) hlt
        rw [heq] at hgreat
        exact List.lt_irrefl _ hgreat
      have hsmall' : ∀ j < i + 1, (pack.shaAt j).take part.length ≤ part := by
        intro j hj
        by_cases hji : j = i
        · rw [hji, heq]
          exact List.le_refl _
        · exact hsmall j (by omega)
      rw [ih hle' hsmall' fun j hj => hnot j (by omega), List.drop_eq_getElem_cons hlt, List.zipIdx_cons,
        List.filter_cons_of_pos (by rw [decide_eq_true_iff, ← shaAt_eq hlt]; exact hpre), List.cons_append,
          shaAt_eq hlt]
  | case2 i hle hpre =>
    by_cases hlast : i = pack.shas.length
    · have hover : ¬ pack.Overread part := fun hover => hpre (hlast ▸ shaAt_length ▸ hover.2.2)
      rw [if_neg hover, List.drop_eq_nil_of_le (by omega)]
      rfl
    · have hlt : i < pack.shas.length := by omega
      have hgreat : part < (pack.shaAt i).take part.length := by
        by_cases hbefore : i < curr
        · rcases List.le_iff_lt_or_eq.1 (List.not_lt.1 (hnot i (le_refl i) hbefore)) with hgreat | heq
          · exact hgreat
          · exact absurd (prefix_iff_take.2 heq.symm) hpre
        · exact hgreater i (by omega) hlt
      rw [if_neg (not_overread_of_lt hlt hgreat), filter_zipIdx_eq_nil (not_prefix_of_lt hlt hgreat)]
      rfl
  | case3 i hle => exact absurd hi hle

/-! ## The buckets -/

/-- The two digits of the first byte. -/
lemma exists_firstByte (hlength : 2 ≤ sha.length) (hhex : sha.all isLowerHex) :
    ∃ c d : Fin 16, sha.take 2 = [Hash.x2c c, Hash.x2c d] ∧ stoi16 (sha.take 2) = some (Int.ofNat (firstByte sha)) ∧
      firstByte sha = 16 * c.val + d.val := by
  match sha, hlength, hhex with
  | x :: y :: rest, _, hhex =>
    rw [List.all_cons, List.all_cons, Bool.and_eq_true, Bool.and_eq_true] at hhex
    obtain ⟨c, rfl⟩ := exists_x2c hhex.1
    obtain ⟨d, rfl⟩ := exists_x2c hhex.2.1
    have hstoi : stoi16 ((Hash.x2c c :: Hash.x2c d :: rest).take 2) = some ((16 * c.val + d.val : Nat) : Int) :=
      stoi16_x2c c d
    have hfirst : firstByte (Hash.x2c c :: Hash.x2c d :: rest) = 16 * c.val + d.val := by
      rw [firstByte, hstoi]
      rfl
    refine ⟨c, d, rfl, ?_, hfirst⟩
    rw [hstoi, hfirst]
    rfl

lemma x2c_lt_iff (c d : Fin 16) : Hash.x2c c < Hash.x2c d ↔ c < d := by
  revert c d
  decide

lemma firstByte_lt_iff {sha' : Bytes} (hlength : 2 ≤ sha.length) (hhex : sha.all isLowerHex)
    (hlength' : 2 ≤ sha'.length)
    (hhex' : sha'.all isLowerHex) : firstByte sha < firstByte sha' ↔ sha.take 2 < sha'.take 2 := by
  obtain ⟨c, d, htake, -, hfirst⟩ := exists_firstByte hlength hhex
  obtain ⟨c', d', htake', -, hfirst'⟩ := exists_firstByte hlength' hhex'
  have hinj : Hash.x2c c = Hash.x2c c' ↔ c.val = c'.val :=
    ⟨fun heq => congrArg Fin.val (x2c_injective heq), fun heq => congrArg (fun e : Fin 16 => Hash.x2c e) (Fin.ext heq)⟩
  rw [htake, htake', hfirst, hfirst', List.cons_lt_cons_iff, List.cons_lt_cons_iff, x2c_lt_iff, x2c_lt_iff, hinj,
    Fin.lt_def, Fin.lt_def]
  have hnil : ¬ ([] : Bytes) < [] := List.lt_irrefl []
  simp only [hnil, and_false, or_false]
  omega

/-- A part of a name, of at least two digits. -/
def IsPart (part : Bytes) : Prop := 2 ≤ part.length ∧ part.all isLowerHex

lemma fanout_eq (hpart : IsPart part) :
    pack.fanout (firstByte part) = pack.shas.countP fun sha => !decide (part.take 2 < sha.take 2) := by
  refine List.countP_congr fun sha hsha => ?_
  have hname := pack.names sha hsha
  have hiff := firstByte_lt_iff hpart.1 hpart.2 (by rw [hname.1]; omega) hname.2
  rw [decide_eq_true_iff, ← not_lt, hiff, Bool.not_eq_true', decide_eq_false_iff_not]

lemma fanout_pred_eq (hpart : IsPart part) : (if 0 < firstByte part then pack.fanout (firstByte part - 1) else 0) =
    pack.shas.countP fun sha => decide (sha.take 2 < part.take 2) := by
  have hiff : ∀ sha ∈ pack.shas, firstByte sha < firstByte part ↔ sha.take 2 < part.take 2 := by
    intro sha hsha
    have hname := pack.names sha hsha
    exact firstByte_lt_iff (by rw [hname.1]; omega) hname.2 hpart.1 hpart.2
  split
  · refine List.countP_congr fun sha hsha => ?_
    rw [decide_eq_true_iff, decide_eq_true_iff, ← hiff sha hsha]
    omega
  · refine (List.countP_eq_zero.2 fun sha hsha => ?_).symm
    rw [decide_eq_true_iff, ← hiff sha hsha]
    omega

lemma take_two_of_prefix (hpart : 2 ≤ part.length) (h : part <+: sha) : sha.take 2 = part.take 2 := by
  obtain ⟨rest, rfl⟩ := h
  exact List.take_append_of_le_length hpart

lemma shaAt_le {j : Nat} (hij : i ≤ j) (hj : j < pack.shas.length) : pack.shaAt i ≤ pack.shaAt j := by
  rw [shaAt_eq hj, shaAt_eq (hij.trans_lt hj)]
  rcases Nat.lt_or_eq_of_le hij with hlt | rfl
  · exact List.le_of_lt (List.pairwise_iff_getElem.1 pack.sorted i j _ hj hlt)
  · exact List.le_refl _

/-- The names in front of the bucket of a part, and those up to its end. -/
lemma lt_bucket_iff (hi : i < pack.shas.length) :
    ((pack.shaAt i).take 2 < part.take 2 ↔ i < pack.shas.countP fun sha => decide (sha.take 2 < part.take 2)) ∧
      (part.take 2 < (pack.shaAt i).take 2 ↔ pack.shas.countP (fun sha => !decide (part.take 2 < sha.take 2)) ≤ i) := by
  have hmono : pack.shas.Pairwise fun a b => a.take 2 ≤ b.take 2 := pack.sorted.imp fun hlt =>
    take_le_take (List.le_of_lt hlt) 2
  have hfront := @getElem_iff_lt_countP _ (fun sha => decide (sha.take 2 < part.take 2)) _
    (hmono.imp fun hle hb => decide_eq_true (List.lt_of_le_of_lt hle (of_decide_eq_true hb))) i hi
  have hend := @getElem_iff_lt_countP _ (fun sha => !decide (part.take 2 < sha.take 2)) _
    (hmono.imp fun hle hb => by
      rw [Bool.not_eq_true', decide_eq_false_iff_not] at hb ⊢
      exact List.le_trans hle hb) i hi
  rw [decide_eq_true_iff] at hfront
  rw [Bool.not_eq_true', decide_eq_false_iff_not] at hend
  rw [shaAt_eq hi]
  exact ⟨hfront, by rw [← not_lt, ← hend, not_not]⟩

/-- The names that begin with a part are reported, and the bytes behind them where these are read too. -/
theorem getHashMatchFromIndex_eq (hpart : IsPart part) :
    pack.getHashMatchFromIndex part = some (pack.entries part) := by
  obtain ⟨c, d, -, hstoi, -⟩ := exists_firstByte hpart.1 hpart.2
  have hfanout := @fanout_eq pack part hpart
  have hpred := @fanout_pred_eq pack part hpart
  have hbounds := fun (j : Nat) (hj : j < pack.shas.length) => @lt_bucket_iff pack part j hj
  generalize hcurr : pack.shas.countP (fun sha => !decide (part.take 2 < sha.take 2)) = curr at hfanout hbounds
  generalize hprev : pack.shas.countP (fun sha => decide (sha.take 2 < part.take 2)) = prev at hpred hbounds
  have hle : curr ≤ pack.shas.length := hcurr ▸ List.countP_le_length
  have hle' : prev ≤ pack.shas.length := hprev ▸ List.countP_le_length
  have hsearch : pack.getHashMatchFromIndex part =
      some (if prev < curr then pack.matchesFrom part curr (pack.getPackIdxOffsetStart part prev curr) else []) := by
    rw [getHashMatchFromIndex, if_neg (not_lt.2 hpart.1), hstoi]
    simp only [Option.bind_eq_bind, Option.bind_some, Int.ofNat_eq_natCast, Int.natCast_pos, Int.toNat_natCast,
      hfanout, hpred]
    rfl
  rw [hsearch, entries]
  by_cases hbucket : ∃ sha ∈ pack.shas, sha.take 2 = part.take 2
  · have hlt : prev < curr := by
      obtain ⟨sha, hsha, heq⟩ := hbucket
      obtain ⟨j, hj, rfl⟩ := List.getElem_of_mem hsha
      have hbound := hbounds j hj
      rw [shaAt_eq hj, heq] at hbound
      have hfront := mt hbound.1.2 (List.lt_irrefl _)
      have hend := mt hbound.2.2 (List.lt_irrefl _)
      omega
    have hgreater : ∀ j, curr ≤ j → j < pack.shas.length → part < (pack.shaAt j).take part.length :=
      fun j hj hj' => lt_take_of_lt_take hpart.1 ((hbounds j hj').2.2 hj)
    have hmono : ∀ i j, prev ≤ i → i ≤ j → j < curr → pack.Below part j → pack.Below part i :=
      fun i j _ hij hj hbelow => List.lt_of_le_of_lt (take_le_take (shaAt_le hij (hj.trans_le hle)) _) hbelow
    obtain ⟨hfrom, hto, hlow, hnot⟩ := getPackIdxOffsetStart_spec hmono (le_refl prev) (le_refl curr) (by omega)
      (fun i hi hi' => absurd hi (by omega)) fun hirrefl => absurd hirrefl (lt_irrefl curr)
    generalize pack.getPackIdxOffsetStart part prev curr = first at hfrom hto hlow hnot
    have hbefore : ∀ j < first, j < pack.shas.length → pack.Below part j := by
      intro j hj hj'
      by_cases hfront : j < prev
      · exact take_lt_of_take_lt hpart.1 ((hbounds j hj').1.2 hfront)
      · exact hlow j (by omega) hj
    have hskip : ∀ sha ∈ pack.shas.take first, ¬ part <+: sha := by
      intro sha hsha hpre
      obtain ⟨j, hj, rfl⟩ := List.getElem_of_mem hsha
      rw [List.length_take] at hj
      have hbelow := hbefore j (by omega) (by omega)
      rw [Below, shaAt_eq (by omega)] at hbelow
      rw [List.getElem_take] at hpre
      rw [prefix_iff_take.1 hpre] at hbelow
      exact List.lt_irrefl _ hbelow
    rw [if_pos hlt]
    by_cases hfirst : first ≤ curr
    · have hsplit : (pack.shas.zipIdx.filter fun m => part <+: m.1) =
          ((pack.shas.drop first).zipIdx first).filter fun m => part <+: m.1 := by
        conv_lhs => rw [← List.take_append_drop first pack.shas]
        rw [List.zipIdx_append, List.filter_append, filter_zipIdx_eq_nil hskip, List.nil_append, List.length_take,
          Nat.min_eq_left (by omega), Nat.zero_add]
      have hrest : ∀ j, first ≤ j → j < curr → ¬ pack.Below part j := fun j hj hj' hbelow =>
        hnot hfirst (hmono first j hfrom hj hj' hbelow)
      rw [hsplit, matchesFrom_eq hbucket hle hgreater hfirst (fun j hj => List.le_of_lt (hbefore j hj (by omega)))
        hrest]
    · have hlast : first = curr + 1 := by omega
      have hend : curr = pack.shas.length := by
        by_contra hne
        exact List.lt_asymm (hgreater curr (le_refl curr) (by omega)) (hbefore curr (by omega) (by omega))
      have hover : ¬ pack.Overread part := by
        intro hover
        have hbelow := hlow curr (by omega) (by omega)
        rw [Below, hend, shaAt_length, prefix_iff_take.1 hover.2.2] at hbelow
        exact List.lt_irrefl _ hbelow
      have hnone : pack.matchesFrom part curr first = [] := by
        rw [matchesFrom, dif_neg hfirst]
      rw [List.take_of_length_le (by omega)] at hskip
      rw [hnone, filter_zipIdx_eq_nil hskip, if_neg hover]
      rfl
  · have hnot : ∀ sha ∈ pack.shas, ¬ part <+: sha := fun sha hsha hpre =>
      hbucket ⟨sha, hsha, take_two_of_prefix hpart.1 hpre⟩
    have hge : ¬ prev < curr := by
      intro hlt
      have hbound := hbounds prev (by omega)
      have hfront := mt hbound.1.1 (lt_irrefl prev)
      have hend := mt hbound.2.1 (by omega)
      refine hbucket ⟨pack.shaAt prev, ?_, ?_⟩
      · rw [shaAt_eq (by omega)]
        exact List.getElem_mem _
      · exact List.le_antisymm hend hfront
    rw [if_neg hge, filter_zipIdx_eq_nil hnot, if_neg fun hover => hbucket hover.1]
    rfl

end Pack

namespace PackIndex

variable {index : PackIndex} {part : Bytes} {start stop curr i : Nat}

/-- The positions at which the search for a part reads names fit 32 bits. -/
def Searchable (index : PackIndex) (part : Bytes) : Prop :=
  let curr := index.pack.fanout (Pack.firstByte part)
  let prev := if 0 < Pack.firstByte part then index.pack.fanout (Pack.firstByte part - 1) else 0
  prev < curr → ∀ mid ∈ index.pack.lookedAt part prev curr, 1032 + mid * 20 < 2 ^ 32

lemma offset_eq (h : 1032 + i * 20 < 2 ^ 32) : offset i = 1032 + i * 20 := Nat.mod_eq_of_lt h

lemma bytesAt_offset (hi : i ≤ index.pack.shas.length) (hfits : 1032 + i * 20 < 2 ^ 32) :
    index.bytesAt (offset i) = index.pack.shaAt i := by
  rw [offset_eq hfits, index.table i hi]

/-- Where offsets fit the search with its offsets finds what the search without them does. -/
lemma fst_getPackIdxOffsetStart (hstop : stop ≤ index.pack.shas.length)
    (hfits : ∀ mid ∈ index.pack.lookedAt part start stop, 1032 + mid * 20 < 2 ^ 32) :
    (index.getPackIdxOffsetStart part start stop).1 = index.pack.getPackIdxOffsetStart part start stop := by
  fun_induction Pack.lookedAt index.pack part start stop with
  | case1 start stop hle mid hge heq =>
    have hmid := hfits mid List.mem_cons_self
    rw [getPackIdxOffsetStart, dif_pos hle, Pack.getPackIdxOffsetStart, dif_pos hle, if_pos hge, dif_pos heq]
    dsimp only
    rw [bytesAt_offset (by omega) hmid, if_pos hge, dif_pos heq]
  | case2 start stop hle mid hge hne ih =>
    have hmid := hfits mid List.mem_cons_self
    rw [getPackIdxOffsetStart, dif_pos hle, Pack.getPackIdxOffsetStart, dif_pos hle, if_pos hge, dif_neg hne]
    dsimp only
    rw [bytesAt_offset (by omega) hmid, if_pos hge, dif_neg hne]
    exact ih (by omega) fun m hm => hfits m (List.mem_cons_of_mem _ hm)
  | case3 start stop hle mid hlt ih =>
    have hmid := hfits mid List.mem_cons_self
    rw [getPackIdxOffsetStart, dif_pos hle, Pack.getPackIdxOffsetStart, dif_pos hle, if_neg hlt]
    dsimp only
    rw [bytesAt_offset (by omega) hmid, if_neg hlt]
    exact ih hstop fun m hm => hfits m (List.mem_cons_of_mem _ hm)
  | case4 start stop hle => rw [getPackIdxOffsetStart, dif_neg hle, Pack.getPackIdxOffsetStart, dif_neg hle]

lemma fst_matchesFrom (hcurr : curr ≤ index.pack.shas.length) :
    (index.matchesFrom part curr i (1032 + i * 20)).1 = index.pack.matchesFrom part curr i := by
  fun_induction Pack.matchesFrom index.pack part curr i with
  | case1 i hle hpre ih =>
    have hnext : 1032 + i * 20 + 20 = 1032 + (i + 1) * 20 := by omega
    rw [← index.table i (by omega)] at hpre
    rw [matchesFrom, dif_pos hle, if_pos hpre, hnext, index.table i (by omega)]
    exact congrArg _ ih
  | case2 i hle hpre =>
    rw [← index.table i (by omega)] at hpre
    rw [matchesFrom, dif_pos hle, if_neg hpre]
  | case3 i hle => rw [matchesFrom, dif_neg hle]

/-- What is found does not depend on the offsets. -/
lemma map_fst_getHashMatchFromIndex (hpart : Pack.IsPart part) (hsearch : index.Searchable part) :
    (index.getHashMatchFromIndex part).map Prod.fst = index.pack.getHashMatchFromIndex part := by
  obtain ⟨c, d, -, hstoi, -⟩ := Pack.exists_firstByte hpart.1 hpart.2
  have hcurr : index.pack.fanout (Pack.firstByte part) ≤ index.pack.shas.length := List.countP_le_length
  rw [Searchable] at hsearch
  rw [getHashMatchFromIndex, Pack.getHashMatchFromIndex, if_neg (not_lt.2 hpart.1), if_neg (not_lt.2 hpart.1), hstoi]
  simp only [Option.bind_eq_bind, Option.bind_some, Int.ofNat_eq_natCast, Int.natCast_pos, Int.toNat_natCast]
  generalize (if 0 < Pack.firstByte part then index.pack.fanout (Pack.firstByte part - 1) else 0) = prev at hsearch ⊢
  generalize index.pack.fanout (Pack.firstByte part) = curr at hcurr hsearch ⊢
  by_cases hlt : prev < curr
  · have hfits := hsearch hlt
    rw [if_pos hlt, if_pos hlt, fst_getPackIdxOffsetStart hcurr hfits]
    refine congrArg some ?_
    rcases index.pack.getPackIdxOffsetStart_mem part (Nat.le_succ_of_le hlt.le) with hmem | hend
    · rw [offset_eq (hfits _ hmem), fst_matchesFrom hcurr]
    · rw [hend, matchesFrom, dif_neg (Nat.not_succ_le_self curr), Pack.matchesFrom,
        dif_neg (Nat.not_succ_le_self curr)]
  · rw [if_neg hlt, if_neg hlt]
    rfl

/-- The names that begin with a part are reported, and the bytes behind them where these are read too, if the positions
of the search fit 32 bits. -/
theorem getHashMatchFromIndex_eq (hpart : Pack.IsPart part) (hsearch : index.Searchable part) :
    (index.getHashMatchFromIndex part).map Prod.fst = some (index.pack.entries part) :=
  (map_fst_getHashMatchFromIndex hpart hsearch).trans (Pack.getHashMatchFromIndex_eq hpart)

end PackIndex

end CppExperiments.Cgit

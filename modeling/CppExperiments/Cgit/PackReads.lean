import CppExperiments.Cgit.PackSearch

/-!
# The names that are read

The search in the index of a pack with the offsets in the file that it reads names at. The bounds of a bucket
are both looked at, so a search in the last bucket may read what is behind the names.
-/

namespace CppExperiments.Cgit

namespace PackIndex

/-- The names that begin with the part are found, and nothing but names is read. -/
def Exact (index : PackIndex) (part : Bytes) : Prop :=
  ∃ found offsets, index.getHashMatchFromIndex part = some (found, offsets) ∧
    found = index.pack.shas.zipIdx.filter (fun m => part <+: m.1) ∧
    ∀ pos ∈ offsets, 1032 ≤ pos ∧ pos + 20 ≤ 1032 + index.pack.shas.length * 20

/-- There are names in the bucket of the part, and no name is greater. -/
def AtEnd (index : PackIndex) (part : Bytes) : Prop :=
  (∃ sha ∈ index.pack.shas, sha.take 2 = part.take 2) ∧ ∀ sha ∈ index.pack.shas, sha.take part.length ≤ part

variable {index : PackIndex} {part : Bytes} {start stop curr i bound : Nat}

/-- All the positions of a search fit if that of its upper bound does. -/
lemma fits_of_le (hfits : 1032 + stop * 20 < 2 ^ 32) :
    ∀ mid ∈ index.pack.lookedAt part start stop, 1032 + mid * 20 < 2 ^ 32 := by
  intro mid hmid
  have hle := index.pack.lookedAt_le part mid hmid
  omega

/-- The search stays below a name that is not smaller. -/
lemma search_le (hstop : stop ≤ index.pack.shas.length) (hfits : 1032 + stop * 20 < 2 ^ 32)
    (hbound : stop ≤ bound ∨ stop = bound + 1 ∧ start ≤ bound ∧ ¬ index.pack.Below part bound) :
    ∀ pos ∈ (index.getPackIdxOffsetStart part start stop).2, ∃ k ≤ bound, pos = 1032 + k * 20 := by
  fun_induction getPackIdxOffsetStart index part start stop with
  | case1 start stop hle mid hge heq =>
    intro pos hpos
    exact ⟨mid, by omega, by rw [List.mem_singleton.1 hpos, offset_eq (by omega)]⟩
  | case2 start stop hle mid hge hne found ih =>
    intro pos hpos
    rcases List.mem_cons.1 hpos with rfl | hpos
    · exact ⟨mid, by omega, offset_eq (by omega)⟩
    · exact ih (by omega) (by omega) (Or.inl (by omega)) pos hpos
  | case3 start stop hle mid hlt found ih =>
    rw [bytesAt_offset (by omega) (by omega), not_not] at hlt
    intro pos hpos
    rcases List.mem_cons.1 hpos with rfl | hpos
    · exact ⟨mid, by omega, offset_eq (by omega)⟩
    · refine ih hstop hfits ?_ pos hpos
      rcases hbound with hin | ⟨rfl, hstart, hnot⟩
      · exact Or.inl hin
      · have hmid : mid ≠ bound := fun heq => hnot (heq ▸ hlt)
        exact Or.inr ⟨rfl, by omega, hnot⟩
  | case4 start stop hle =>
    intro pos hpos
    cases hpos

/-- The walk stays below a name that does not match. -/
lemma walk_le (hbound : curr ≤ bound ∨ i ≤ bound ∧ ¬ part <+: index.bytesAt (1032 + bound * 20)) :
    ∀ pos ∈ (index.matchesFrom part curr i (1032 + i * 20)).2, ∃ k ≤ bound, pos = 1032 + k * 20 := by
  generalize hat : 1032 + i * 20 = place
  fun_induction matchesFrom index part curr i place with
  | case1 i place hle hpre found ih =>
    intro pos hpos
    have hi : i ≤ bound := by omega
    rcases List.mem_cons.1 hpos with rfl | hpos
    · exact ⟨i, hi, hat.symm⟩
    · refine ih ?_ (by omega) pos hpos
      rcases hbound with hin | ⟨-, hnot⟩
      · exact Or.inl hin
      · have hne : i ≠ bound := by
          rintro rfl
          exact hnot (hat ▸ hpre)
        exact Or.inr ⟨by omega, hnot⟩
  | case2 i place hle hpre =>
    intro pos hpos
    exact ⟨i, by omega, by rw [List.mem_singleton.1 hpos, hat]⟩
  | case3 i place hle =>
    intro pos hpos
    cases hpos

/-- If all names are smaller the search ends behind them. -/
lemma mem_search (hstop : stop ≤ index.pack.shas.length) (hfits : 1032 + stop * 20 < 2 ^ 32) (hle : start ≤ stop)
    (hsmall : ∀ k, start ≤ k → k < stop → index.pack.Below part k) :
    1032 + stop * 20 ∈ (index.getPackIdxOffsetStart part start stop).2 := by
  fun_induction getPackIdxOffsetStart index part start stop with
  | case1 start stop _ mid hge heq =>
    rw [bytesAt_offset (by omega) (by omega)] at hge
    have hmid : mid = stop := by
      by_contra hne
      exact hge (hsmall mid (by omega) (by omega))
    rw [hmid, offset_eq hfits]
    exact List.mem_singleton_self _
  | case2 start stop _ mid hge hne found ih =>
    rw [bytesAt_offset (by omega) (by omega)] at hge
    exact absurd (hsmall mid (by omega) (by omega)) hge
  | case3 start stop _ mid hlt found ih =>
    by_cases hmid : mid = stop
    · rw [hmid, offset_eq hfits]
      exact List.mem_cons_self ..
    · exact List.mem_cons_of_mem _ (ih hstop hfits (by omega) fun k hk hk' => hsmall k (by omega) hk')
  | case4 start stop hnot => exact absurd hle hnot

/-- If all names match the walk ends behind them. -/
lemma mem_walk (hi : i ≤ curr) (hall : ∀ k, i ≤ k → k < curr → part <+: index.bytesAt (1032 + k * 20)) :
    1032 + curr * 20 ∈ (index.matchesFrom part curr i (1032 + i * 20)).2 := by
  generalize hat : 1032 + i * 20 = pos
  fun_induction matchesFrom index part curr i pos with
  | case1 i pos _ hpre found ih =>
    by_cases hlast : i = curr
    · rw [← hlast, hat]
      exact List.mem_cons_self ..
    · exact List.mem_cons_of_mem _ (ih (by omega) (fun k hk hk' => hall k (by omega) hk') (by omega))
  | case2 i pos _ hpre =>
    have hlast : i = curr := by
      by_contra hne
      exact hpre (hat ▸ hall i (le_refl i) (by omega))
    rw [← hlast, hat]
    exact List.mem_singleton_self _
  | case3 i pos hnot => exact absurd hi hnot

/-- The bounds of a bucket: the names in front of it, in it and behind it. -/
lemma exists_bucket (hpart : Pack.IsPart part) : ∃ prev ≤ index.pack.shas.length,
    index.pack.fanout (Pack.firstByte part) ≤ index.pack.shas.length ∧
    (∀ j < index.pack.shas.length, ((index.pack.shaAt j).take 2 < part.take 2 ↔ j < prev) ∧
      (part.take 2 < (index.pack.shaAt j).take 2 ↔ index.pack.fanout (Pack.firstByte part) ≤ j)) ∧
    index.getHashMatchFromIndex part = some (
      if prev < index.pack.fanout (Pack.firstByte part) then
        let search := index.getPackIdxOffsetStart part prev (index.pack.fanout (Pack.firstByte part))
        let walk := index.matchesFrom part (index.pack.fanout (Pack.firstByte part)) search.1 (offset search.1)
        (walk.1, search.2 ++ walk.2)
      else ([], [])) := by
  obtain ⟨c, d, -, hstoi, -⟩ := Pack.exists_firstByte hpart.1 hpart.2
  have hcurr := @Pack.fanout_eq index.pack part hpart
  have hprev := @Pack.fanout_pred_eq index.pack part hpart
  refine ⟨_, List.countP_le_length (p := fun sha => decide (sha.take 2 < part.take 2)), ?_, fun j hj => ?_, ?_⟩
  · rw [hcurr]
    exact List.countP_le_length
  · rw [hcurr]
    exact Pack.lt_bucket_iff hj
  · rw [getHashMatchFromIndex, if_neg (not_lt.2 hpart.1), hstoi]
    simp only [Option.bind_eq_bind, Option.bind_some, Int.ofNat_eq_natCast, Int.natCast_pos, Int.toNat_natCast, hprev]
    split <;> rfl

lemma below_mono {prev : Nat} (hcurr : curr ≤ index.pack.shas.length) :
    ∀ i j, prev ≤ i → i ≤ j → j < curr → index.pack.Below part j → index.pack.Below part i :=
  fun _ _ _ hij hj hbelow => List.lt_of_le_of_lt (take_le_take (Pack.shaAt_le hij (hj.trans_le hcurr)) _) hbelow

lemma shaAt_mem (hi : i < index.pack.shas.length) : index.pack.shaAt i ∈ index.pack.shas := by
  rw [Pack.shaAt_eq hi]
  exact List.getElem_mem hi

/-- In the last bucket, with no greater name, the search or the walk reads what is behind the names. -/
lemma not_exact (hpart : Pack.IsPart part) (hfits : 1032 + index.pack.fanout (Pack.firstByte part) * 20 < 2 ^ 32)
    (hlast : index.AtEnd part) : ¬ index.Exact part := by
  rintro ⟨found, offsets, hsearch, -, hin⟩
  obtain ⟨⟨sha, hsha, htwo⟩, hall⟩ := hlast
  obtain ⟨prev, hprev, hcurr, hbounds, heq⟩ := @exists_bucket index part hpart
  generalize index.pack.fanout (Pack.firstByte part) = curr at hcurr hbounds heq hfits
  obtain ⟨j, hj, rfl⟩ := List.getElem_of_mem hsha
  have hbound := hbounds j hj
  rw [Pack.shaAt_eq hj, htwo] at hbound
  have hfront := mt hbound.1.2 (List.lt_irrefl _)
  have hback := mt hbound.2.2 (List.lt_irrefl _)
  have hend : curr = index.pack.shas.length := by
    by_contra hne
    have hbehind := lt_take_of_lt_take hpart.1 ((hbounds curr (by omega)).2.2 (le_refl curr))
    exact hall _ (shaAt_mem (by omega)) hbehind
  rw [heq, if_pos (by omega)] at hsearch
  obtain ⟨-, rfl⟩ := Prod.mk.inj (Option.some.inj hsearch)
  have hread : 1032 + curr * 20 ∉ (index.getPackIdxOffsetStart part prev curr).2 ++
      (index.matchesFrom part curr (index.getPackIdxOffsetStart part prev curr).1
        (offset (index.getPackIdxOffsetStart part prev curr).1)).2 := by
    intro hmem
    have hbyte := (hin _ hmem).2
    omega
  rw [List.mem_append, not_or, fst_getPackIdxOffsetStart hcurr (fits_of_le hfits)] at hread
  obtain ⟨hfrom, -, hlow, hnot⟩ := Pack.getPackIdxOffsetStart_spec (below_mono hcurr) (le_refl prev) (le_refl curr)
    (by omega)
    (fun i hi hi' => absurd hi (by omega)) fun hirrefl => absurd hirrefl (lt_irrefl curr)
  generalize index.pack.getPackIdxOffsetStart part prev curr = first at hread hfrom hlow hnot
  by_cases hbefore : first < curr
  · rw [offset_eq (by omega)] at hread
    refine hread.2 (mem_walk hbefore.le fun k hk hk' => ?_)
    have hge : ¬ index.pack.Below part k := fun hbelow => hnot hbefore.le (below_mono hcurr first k hfrom hk hk' hbelow)
    rw [index.table k (by omega), Pack.prefix_iff_take]
    exact List.le_antisymm (hall _ (shaAt_mem (by omega))) (List.not_lt.1 hge)
  · exact hread.1 (mem_search hcurr hfits (by omega) fun k hk hk' => hlow k hk (by omega))

/-- If there is a greater name, or none in the bucket, nothing behind the names is read. -/
lemma exact_of_not_atEnd (hpart : Pack.IsPart part) (hfits : 1032 + index.pack.fanout (Pack.firstByte part) * 20 <
    2 ^ 32)
    (hlast : ¬ index.AtEnd part) : index.Exact part := by
  obtain ⟨prev, hprev, hcurr, hbounds, heq⟩ := @exists_bucket index part hpart
  have hfound := (map_fst_getHashMatchFromIndex hpart (fun _ => fits_of_le hfits)).trans (Pack.getHashMatchFromIndex_eq hpart)
  have hentries : index.pack.entries part = index.pack.shas.zipIdx.filter fun m => part <+: m.1 := by
    rw [Pack.entries, if_neg fun hover => hlast ⟨hover.1, hover.2.1⟩, List.append_nil]
  rw [heq, Option.map_some, hentries] at hfound
  generalize index.pack.fanout (Pack.firstByte part) = curr at hcurr hbounds hfits heq hfound
  by_cases hlt : prev < curr
  · rw [if_pos hlt] at heq hfound
    refine ⟨_, _, heq, Option.some.inj hfound, fun pos hpos => ?_⟩
    have hgreater : curr = index.pack.shas.length →
        part < (index.pack.shaAt (index.pack.shas.length - 1)).take part.length := by
      intro hend
      have hbound := hbounds prev (by omega)
      have htwo := List.le_antisymm (List.not_lt.1 (mt hbound.2.1 (by omega)))
        (List.not_lt.1 (mt hbound.1.1 (lt_irrefl prev)))
      have hnot : ¬ ∀ sha ∈ index.pack.shas, sha.take part.length ≤ part :=
        fun hall => hlast ⟨⟨_, shaAt_mem (by omega), htwo⟩, hall⟩
      simp only [Classical.not_forall] at hnot
      obtain ⟨sha, hsha, hgt⟩ := hnot
      obtain ⟨j, hj, rfl⟩ := List.getElem_of_mem hsha
      rw [← Pack.shaAt_eq hj] at hgt
      exact List.not_le.1 fun hle => hgt (List.le_trans (take_le_take (Pack.shaAt_le (by omega) (by omega)) _) hle)
    have hle : curr ≤ index.pack.shas.length - 1 ∨ curr = index.pack.shas.length := by omega
    have hin : ∃ k ≤ index.pack.shas.length - 1, pos = 1032 + k * 20 := by
      rcases List.mem_append.1 hpos with hpos | hpos
      · refine search_le hcurr hfits ?_ pos hpos
        exact hle.imp_right fun hend => ⟨by omega, by omega, List.lt_asymm (hgreater hend)⟩
      · rw [fst_getPackIdxOffsetStart hcurr (fits_of_le hfits)] at hpos
        obtain ⟨hfrom, -, hlow, -⟩ := Pack.getPackIdxOffsetStart_spec (below_mono hcurr) (le_refl prev) (le_refl curr)
          (by omega) (fun i hi hi' => absurd hi (by omega)) fun hirrefl => absurd hirrefl (lt_irrefl curr)
        generalize index.pack.getPackIdxOffsetStart part prev curr = first at hfrom hlow hpos
        by_cases hfirst : first ≤ curr
        · rw [offset_eq (by omega)] at hpos
          refine walk_le (hle.imp_right fun hend => ⟨?_, ?_⟩) pos hpos
          · by_contra hgt
            exact List.lt_asymm (hgreater hend) (hlow _ (by omega) (by omega))
          · rw [index.table _ (by omega), Pack.prefix_iff_take]
            intro heq
            have hirrefl := hgreater hend
            rw [heq] at hirrefl
            exact List.lt_irrefl _ hirrefl
        · rw [matchesFrom, dif_neg hfirst] at hpos
          cases hpos
    obtain ⟨k, hk, rfl⟩ := hin
    omega
  · rw [if_neg hlt] at heq hfound
    exact ⟨_, _, heq, Option.some.inj hfound, fun pos hpos => by cases hpos⟩

/-- There are names in the bucket of the part. -/
def InUse (index : PackIndex) (part : Bytes) : Prop := ∃ sha ∈ index.pack.shas, sha.take 2 = part.take 2

/-- In an empty bucket nothing is read. -/
lemma exact_of_not_inUse (hpart : Pack.IsPart part) (huse : ¬ index.InUse part) : index.Exact part := by
  obtain ⟨prev, hprev, hcurr, hbounds, heq⟩ := @exists_bucket index part hpart
  have hempty : ¬ prev < index.pack.fanout (Pack.firstByte part) := by
    intro hlt
    have hbound := hbounds prev (by omega)
    refine huse ⟨index.pack.shaAt prev, shaAt_mem (by omega), ?_⟩
    exact List.le_antisymm (List.not_lt.1 (mt hbound.2.1 (by omega))) (List.not_lt.1 (mt hbound.1.1 (lt_irrefl prev)))
  rw [if_neg hempty] at heq
  refine ⟨[], [], heq, (List.filter_eq_nil_iff.2 fun m hm => ?_).symm, fun pos hpos => by cases hpos⟩
  rw [decide_eq_true_iff, Pack.prefix_iff_take]
  intro hpre
  have htwo := congrArg (List.take 2) hpre
  rw [List.take_take, Nat.min_eq_left hpart.1] at htwo
  exact huse ⟨m.1, List.fst_mem_of_mem_zipIdx hm, htwo⟩

/-- The index of one name, with a checksum behind it that looks the same. -/
def oneName : PackIndex where
  pack :=
    { shas := [List.replicate 40 97]
      behind := List.replicate 40 97
      object := fun _ => none
      names := fun sha hsha => by rw [List.mem_singleton.1 hsha]; exact ⟨rfl, rfl⟩
      sorted := List.pairwise_singleton _ _ }
  bytesAt _ := List.replicate 40 97
  table i hi := by
    rw [Pack.shaAt]
    match i, hi with
    | 0, _ => rfl
    | 1, _ => rfl

end PackIndex

end CppExperiments.Cgit

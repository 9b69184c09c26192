import CppExperiments.Cgit.IndexFile
import Mathlib.Algebra.Order.BigOperators.Group.List

/-!
# Offsets from indexes

As long as no position is computed that needs more than 32 bits, the search reads the names that it looks at, and the
offset of an object is read from the table in which it stands.
-/

namespace CppExperiments.Cgit

variable {index : IndexFile} {dir : PackDir} {part : Bytes} {pos a b i : Nat}

namespace IndexFile

/-- The positions at which the search for a part reads names fit 32 bits. -/
def Searchable (index : IndexFile) (part : Bytes) : Prop :=
  let curr := index.fanout (Pack.firstByte part)
  let prev := if 0 < Pack.firstByte part then index.fanout (Pack.firstByte part - 1) else 0
  prev < curr → ∀ mid ∈ index.pack.lookedAt part prev curr, 1032 + mid * 20 < 2 ^ 32

/-- The positions at which the offset of an entry is read fit 32 bits. -/
def Addressable (index : IndexFile) (e : IndexEntry) : Prop :=
  ∀ k, index.entries[k]? = some e → 1032 + index.entries.length * 24 + k * 4 < 2 ^ 32 ∧
    ∀ j, e.slot = some j → 1032 + index.entries.length * 28 + j * 8 < 2 ^ 32

lemma length_shas (index : IndexFile) : index.pack.shas.length = index.entries.length := List.length_map _

/-- A position in the names, in 32 bits. -/
lemma toNat_position (hfits : 1032 + i * 20 < 2 ^ 32) :
    (8 + 256 * 4 + UInt32.ofNat i * 20 : UInt32).toNat = 1032 + i * 20 := by
  rw [UInt32.toNat_add, UInt32.toNat_mul, UInt32.toNat_ofNat']
  have hconst : UInt32.toNat (8 + 256 * 4) = 1032 ∧ UInt32.toNat 20 = 20 := by decide
  rw [hconst.1, hconst.2]
  omega

lemma readSha_name (index : IndexFile) (dir : PackDir) (hi : i ≤ index.entries.length) :
    dir.readSha ⟨index.text, 1032 + i * 20, false⟩ = index.pack.shaAt i ∧
      (⟨index.text, 1032 + i * 20, false⟩ : Stream).read 20 = ⟨index.text, 1032 + (i + 1) * 20, false⟩ := by
  obtain ⟨name, hlength, hat, hsha⟩ := index.exists_name hi
  obtain ⟨hread, hnext⟩ := dir.readSha_of_prefix hlength hat
  have hpos : 1032 + i * 20 + 20 = 1032 + (i + 1) * 20 := by omega
  rw [hread, hsha, hnext, hpos]
  exact ⟨rfl, rfl⟩

lemma seekg_position (index : IndexFile) (hfits : 1032 + i * 20 < 2 ^ 32) (pos : Nat) :
    (⟨index.text, pos, false⟩ : Stream).seekg (8 + 256 * 4 + UInt32.ofNat i * 20 : UInt32).toNat =
      ⟨index.text, 1032 + i * 20, false⟩ := by
  rw [toNat_position hfits]
  exact Stream.seekg_nat rfl _

/-! ## The search -/

lemma ofNat_le_iff (ha : a < 2 ^ 32) (hb : b < 2 ^ 32) : UInt32.ofNat a ≤ UInt32.ofNat b ↔ a ≤ b := by
  rw [UInt32.le_iff_toNat_le, UInt32.toNat_ofNat', UInt32.toNat_ofNat', Nat.mod_eq_of_lt ha, Nat.mod_eq_of_lt hb]

lemma ofNat_inj (ha : a < 2 ^ 32) (hb : b < 2 ^ 32) : UInt32.ofNat a = UInt32.ofNat b ↔ a = b := by
  rw [← UInt32.toNat_inj, UInt32.toNat_ofNat', UInt32.toNat_ofNat', Nat.mod_eq_of_lt ha, Nat.mod_eq_of_lt hb]

lemma mid_ofNat (hle : a ≤ b) (hb : b < 2 ^ 32) :
    UInt32.ofNat a + (UInt32.ofNat b - UInt32.ofNat a) / 2 = UInt32.ofNat (a + (b - a) / 2) := by
  have ha : a < 2 ^ 32 := by omega
  have hmid := PackDir.toNat_mid ((ofNat_le_iff ha hb).2 hle)
  rw [← UInt32.toNat_inj, hmid, UInt32.toNat_ofNat', UInt32.toNat_ofNat', UInt32.toNat_ofNat', Nat.mod_eq_of_lt ha,
    Nat.mod_eq_of_lt hb, Nat.mod_eq_of_lt (by omega)]

lemma ofNat_pred (ha : 0 < a) (hb : a < 2 ^ 32) : UInt32.ofNat a - 1 = UInt32.ofNat (a - 1) := by
  have hone : (1 : UInt32) ≤ UInt32.ofNat a := (ofNat_le_iff (a := 1) (by decide) hb).2 ha
  rw [← UInt32.toNat_inj, UInt32.toNat_sub_of_le _ _ hone, UInt32.toNat_ofNat', UInt32.toNat_ofNat',
    Nat.mod_eq_of_lt hb, Nat.mod_eq_of_lt (by omega)]
  rfl

lemma ofNat_succ (a : Nat) : UInt32.ofNat a + 1 = UInt32.ofNat (a + 1) := (UInt32.ofNat_add a 1).symm

lemma lt_of_lookedAt (pack : Pack) (hle : a ≤ b) (hfits : ∀ mid ∈ pack.lookedAt part a b, 1032 + mid * 20 < 2 ^ 32) :
    b + 1 < 2 ^ 32 := by
  have hmem : a + (b - a) / 2 ∈ pack.lookedAt part a b := by
    rw [Pack.lookedAt, dif_pos hle]
    dsimp only
    split_ifs <;> exact List.mem_cons_self
  have hfit := hfits _ hmem
  omega

lemma comes_getPackIdxOffsetStart (dir : PackDir) (part : Bytes) (hcount : b + 1 < 2 ^ 32)
    (hb : b ≤ index.entries.length) (ha : a ≤ b + 1)
    (hfits : ∀ mid ∈ index.pack.lookedAt part a b, 1032 + mid * 20 < 2 ^ 32) :
    ∀ pos, ∃ pos', Comes .running
      (fun n => dir.getPackIdxOffsetStart part n (.ofNat a) (.ofNat b) ⟨index.text, pos, false⟩)
      (.ok (.ofNat (index.pack.getPackIdxOffsetStart part a b), ⟨index.text, pos', false⟩)) := by
  fun_induction Pack.getPackIdxOffsetStart index.pack part a b with
  | case1 a b hle mid hge heq =>
    rw [Pack.lookedAt, dif_pos hle, if_pos hge, dif_pos heq] at hfits
    intro pos
    refine ⟨1032 + (mid + 1) * 20, Comes.of_succ rfl (fun n => ?_) (comes_const _)⟩
    obtain ⟨hsha, hnext⟩ := index.readSha_name dir (by omega : mid ≤ index.entries.length)
    rw [PackDir.getPackIdxOffsetStart, if_pos ((ofNat_le_iff (by omega) (by omega)).2 hle)]
    dsimp only
    rw [mid_ofNat hle (by omega), seekg_position index (hfits _ List.mem_cons_self), hsha, hnext, if_pos hge,
      if_pos ((ofNat_inj (by omega) (by omega)).2 heq)]
  | case2 a b hle mid hge hne ih =>
    rw [Pack.lookedAt, dif_pos hle, if_pos hge, dif_neg hne, List.forall_mem_cons] at hfits
    intro pos
    obtain ⟨pos', hcomes⟩ := ih (by omega) (by omega) (by omega) hfits.2 (1032 + (mid + 1) * 20)
    refine ⟨pos', Comes.of_succ rfl (fun n => ?_) hcomes⟩
    obtain ⟨hsha, hnext⟩ := index.readSha_name dir (by omega : mid ≤ index.entries.length)
    rw [PackDir.getPackIdxOffsetStart, if_pos ((ofNat_le_iff (by omega) (by omega)).2 hle)]
    dsimp only
    rw [mid_ofNat hle (by omega), seekg_position index hfits.1, hsha, hnext, if_pos hge,
      if_neg ((ofNat_inj (by omega) (by omega)).not.2 hne), ofNat_pred (by omega) (by omega)]
  | case3 a b hle mid hlt ih =>
    rw [Pack.lookedAt, dif_pos hle, if_neg hlt, List.forall_mem_cons] at hfits
    intro pos
    obtain ⟨pos', hcomes⟩ := ih hcount hb (by omega) hfits.2 (1032 + (mid + 1) * 20)
    refine ⟨pos', Comes.of_succ rfl (fun n => ?_) hcomes⟩
    obtain ⟨hsha, hnext⟩ := index.readSha_name dir (by omega : mid ≤ index.entries.length)
    rw [PackDir.getPackIdxOffsetStart, if_pos ((ofNat_le_iff (by omega) (by omega)).2 hle)]
    dsimp only
    rw [mid_ofNat hle (by omega), seekg_position index hfits.1, hsha, hnext, if_neg hlt, ofNat_succ]
  | case4 a b hle =>
    intro pos
    refine ⟨pos, Comes.of_succ rfl (fun n => ?_) (comes_const _)⟩
    rw [PackDir.getPackIdxOffsetStart, if_neg ((ofNat_le_iff (by omega) (by omega)).not.2 hle)]

/-- A name with its number in 32 bits. -/
def numbered (m : Bytes × Nat) : Bytes × UInt32 := (m.1, UInt32.ofNat m.2)

lemma comes_matchesFrom (dir : PackDir) (part : Bytes) (hcount : b + 1 < 2 ^ 32)
    (hb : b ≤ index.entries.length) (hi : i ≤ b + 1)
    (found : List (Bytes × UInt32)) :
    Comes .running (fun n => dir.matchesFrom part (.ofNat b) n (.ofNat i) ⟨index.text, 1032 + i * 20, false⟩ found)
      (.ok (found ++ (index.pack.matchesFrom part b i).map numbered)) := by
  fun_induction Pack.matchesFrom index.pack part b i generalizing found with
  | case1 i hle hpre ih =>
    have hcomes := ih (by omega) (found ++ [(index.pack.shaAt i, .ofNat i)])
    rw [List.append_assoc, List.singleton_append] at hcomes
    refine Comes.of_succ rfl (fun n => ?_) hcomes
    obtain ⟨hsha, hnext⟩ := index.readSha_name dir (by omega : i ≤ index.entries.length)
    rw [PackDir.matchesFrom, if_pos ((ofNat_le_iff (by omega) (by omega)).2 hle)]
    dsimp only
    rw [hsha, if_pos hpre, hnext, ofNat_succ]
  | case2 i hle hpre =>
    rw [List.map_nil, List.append_nil]
    refine Comes.of_succ rfl (fun n => ?_) (comes_const _)
    obtain ⟨hsha, -⟩ := index.readSha_name dir (by omega : i ≤ index.entries.length)
    rw [PackDir.matchesFrom, if_pos ((ofNat_le_iff (by omega) (by omega)).2 hle)]
    dsimp only
    rw [hsha, if_neg hpre]
  | case3 i hle =>
    rw [List.map_nil, List.append_nil]
    refine Comes.of_succ rfl (fun n => ?_) (comes_const _)
    rw [PackDir.matchesFrom, if_neg ((ofNat_le_iff (by omega) (by omega)).not.2 hle)]

lemma fanout_le (index : IndexFile) (b : Nat) : index.fanout b ≤ index.entries.length := List.countP_le_length

/-- In a file of less than 4 GiB all of them do. -/
lemma searchable_of_length (h : index.text.length < 2 ^ 32) (part : Bytes) : index.Searchable part := by
  rw [length_text] at h
  have hcurr := index.fanout_le (Pack.firstByte part)
  rw [Searchable]
  intro _ mid hmid
  have hle := index.pack.lookedAt_le part mid hmid
  omega

lemma addressable_of_length (h : index.text.length < 2 ^ 32) (e : IndexEntry) : index.Addressable e := by
  rw [length_text] at h
  intro k hk
  have hlt := (List.getElem?_eq_some_iff.1 hk).1
  refine ⟨by omega, fun j hj => ?_⟩
  have hat := ((index.wellFormed e (List.mem_of_getElem? hk)).large j hj).2
  have hlarge := (List.getElem?_eq_some_iff.1 hat).1
  omega

/-! ## Matches -/

lemma firstByte_binary2Sha (x : UInt8) (name : Bytes) : Pack.firstByte (binary2Sha (x :: name)) = x.toNat := by
  have hx := x.toNat_lt
  have hdigits : binary2Sha (x :: name) =
      Hash.x2c (x.toNat / 16) :: Hash.x2c (x.toNat % 16) :: binary2Sha name := binary2Sha_cons x name
  have hstoi := stoi16_x2c ⟨x.toNat / 16, by omega⟩ ⟨x.toNat % 16, by omega⟩
  dsimp only at hstoi
  rw [Nat.div_add_mod] at hstoi
  rw [Pack.firstByte, hdigits, List.take_succ_cons, List.take_succ_cons, List.take_zero, hstoi]
  rfl

lemma fanout_pack (index : IndexFile) (b : Nat) : index.pack.fanout b = index.fanout b := by
  rw [Pack.fanout, fanout, pack, List.countP_map]
  refine List.countP_congr fun e he => ?_
  obtain ⟨x, name, hname⟩ := List.exists_cons_of_length_pos
    (by rw [(index.wellFormed e he).name]; decide : 0 < e.name.length)
  have hfirst : Pack.firstByte e.sha = (e.name.headD 0).toNat := by
    rw [IndexEntry.sha, hname]
    exact firstByte_binary2Sha x name
  rw [Function.comp_apply, hfirst]

lemma fanout_mono (index : IndexFile) (h : a ≤ b) : index.fanout a ≤ index.fanout b :=
  List.countP_mono_left fun _ _ he => decide_eq_true ((of_decide_eq_true he).trans h)

lemma verifyHeader_text (index : IndexFile) (dir : PackDir) :
    dir.verifyHeader (.start index.text) [0xff, 0x74, 0x4f, 0x63] 2 = (true, ⟨index.text, 8, false⟩) := by
  have hmagic : ([0xff, 0x74, 0x4f, 0x63] : Bytes) <+: index.text.drop 0 := ⟨_, rfl⟩
  have hversion : beBytes 4 2 <+: index.text.drop 4 := ⟨_, rfl⟩
  have hblock : (⟨index.text, 0, false⟩ : Stream).block 4 = [0xff, 0x74, 0x4f, 0x63] := PackDir.block_of_prefix hmagic
  have hread : (⟨index.text, 0, false⟩ : Stream).read 4 = ⟨index.text, 4, false⟩ := PackDir.read_of_prefix hmagic
  have hnumber := dir.readBigEndian_of_prefix hversion (by decide)
  rw [PackDir.verifyHeader, Stream.start]
  dsimp only
  rw [hblock, if_pos rfl, hread, hnumber]
  rfl

lemma readBigEndian_fanout (index : IndexFile) (dir : PackDir) (hb : b < 256) (pos : Nat) :
    dir.readBigEndian ((⟨index.text, pos, false⟩ : Stream).seekg (8 + (b : Int) * 4)) 4 =
      (index.fanout b, ⟨index.text, 8 + b * 4 + 4, false⟩) := by
  have hcast : (8 + (b : Int) * 4) = ((8 + b * 4 : Nat) : Int) := by omega
  have hlt := (index.fanout_le b).trans_lt index.count
  rw [hcast, Stream.seekg_nat rfl]
  exact dir.readBigEndian_of_prefix (index.fanout_at hb) hlt

lemma bucket_text (index : IndexFile) (dir : PackDir) (hb : b < 256) : ∃ pos,
    dir.bucket ⟨index.text, 8, false⟩ b = (.ofNat (index.fanout b), .ofNat (if 0 < b then index.fanout (b - 1) else 0),
      ⟨index.text, pos, false⟩) := by
  rw [PackDir.bucket, readBigEndian_fanout index dir hb]
  dsimp only
  by_cases hpos : 0 < b
  · have hpred : ((b : Int) - 1) = ((b - 1 : Nat) : Int) := by omega
    rw [if_pos (by omega), hpred, readBigEndian_fanout index dir (by omega), if_pos hpos]
    exact ⟨_, rfl⟩
  · rw [if_neg (by omega), if_neg hpos]
    exact ⟨_, rfl⟩

/-- Where the positions of the search fit 32 bits the entries that match are found. -/
lemma comes_getHashMatchFromIndex (hsearch : index.Searchable part) (hpart : Pack.IsPart part) :
    Comes .running (fun n => dir.getHashMatchFromIndex n part index.text)
      (.ok ((index.pack.entries part).map numbered)) := by
  obtain ⟨c, d, -, hstoi, hfirst⟩ := Pack.exists_firstByte hpart.1 hpart.2
  have hbyte : Pack.firstByte part < 256 := by omega
  have hcount := index.count
  have hfound := @Pack.getHashMatchFromIndex_eq index.pack part hpart
  rw [Pack.getHashMatchFromIndex, if_neg (not_lt.2 hpart.1), hstoi] at hfound
  simp only [Option.bind_eq_bind, Option.bind_some, Int.ofNat_eq_natCast, Int.natCast_pos, Int.toNat_natCast,
    fanout_pack] at hfound
  have hfound' := Option.some.inj hfound
  obtain ⟨pos, hbucket⟩ := bucket_text index dir hbyte
  have hprev : (if 0 < Pack.firstByte part then index.fanout (Pack.firstByte part - 1) else 0) ≤
      index.fanout (Pack.firstByte part) := by
    split_ifs
    · exact index.fanout_mono (Nat.sub_le _ _)
    · exact Nat.zero_le _
  have hcurr := index.fanout_le (Pack.firstByte part)
  rw [Searchable] at hsearch
  generalize (if 0 < Pack.firstByte part then index.fanout (Pack.firstByte part - 1) else 0) = prev at *
  generalize index.fanout (Pack.firstByte part) = curr at *
  have hsome : 0 < UInt32.ofNat curr - UInt32.ofNat prev ↔ prev < curr := by
    have hle : UInt32.ofNat prev ≤ UInt32.ofNat curr := (ofNat_le_iff (by omega) (by omega)).2 hprev
    rw [UInt32.lt_iff_toNat_lt, UInt32.toNat_sub_of_le _ _ hle, UInt32.toNat_ofNat', UInt32.toNat_ofNat',
      Nat.mod_eq_of_lt (by omega), Nat.mod_eq_of_lt (by omega)]
    exact Nat.sub_pos_iff_lt
  have hthrow : ∀ b : Nat, orThrow (some (Int.ofNat b)) = .ok (b : Int) := fun _ => rfl
  unfold PackDir.getHashMatchFromIndex
  simp only [if_neg (not_lt.2 hpart.1), verifyHeader_text, if_true, hstoi, hthrow]
  refine (comes_const _).bind ?_
  simp only [hbucket]
  rw [← hfound']
  by_cases hlt : prev < curr
  · have hfits := hsearch hlt
    have hsucc := lt_of_lookedAt index.pack hlt.le hfits
    obtain ⟨pos', hstart⟩ := comes_getPackIdxOffsetStart dir part hsucc hcurr (Nat.le_succ_of_le hlt.le) hfits pos
    simp only [if_pos hlt, if_pos (hsome.2 hlt)]
    refine hstart.bind ?_
    rcases index.pack.getPackIdxOffsetStart_mem part (Nat.le_succ_of_le hlt.le) with hmem | hend
    · have hfit := hfits _ hmem
      have hle := Pack.getPackIdxOffsetStart_le index.pack part (Nat.le_succ_of_le hlt.le)
      have hwalk := comes_matchesFrom dir part hsucc hcurr hle []
      rw [List.nil_append] at hwalk
      simp only [seekg_position index hfit]
      exact hwalk
    · -- all names of the bucket are smaller: nothing is read any more
      rw [hend, Pack.matchesFrom, dif_neg (Nat.not_succ_le_self curr), List.map_nil]
      refine Comes.of_succ rfl (fun n => ?_) (comes_const _)
      rw [PackDir.matchesFrom, if_neg ((ofNat_le_iff hsucc (by omega)).not.2 (Nat.not_succ_le_self curr))]
  · simp only [if_neg hlt, if_neg (mt hsome.1 hlt)]
    exact comes_const _

/-! ## Names as parts -/

lemma prefix_sha_iff {e e' : IndexEntry} (he : e.name.length = 20) (he' : e'.name.length = 20) :
    e.sha <+: e'.sha ↔ e.name = e'.name := by
  have hlength : e.sha.length = e'.sha.length := (isSha_binary2Sha he).1.trans (isSha_binary2Sha he').1.symm
  constructor
  · exact fun h => binary2Sha_injective (h.eq_of_length hlength)
  · intro h
    rw [IndexEntry.sha, h, ← IndexEntry.sha]

lemma isPart_sha {e : IndexEntry} (he : e.name.length = 20) : Pack.IsPart e.sha := by
  have hsha := isSha_binary2Sha he
  exact ⟨by rw [IndexEntry.sha, hsha.1]; decide, hsha.2⟩

lemma filter_of_notMem {e : IndexEntry} (he : e.name.length = 20) (h : ∀ e' ∈ index.entries, e'.name ≠ e.name) :
    (index.pack.shas.zipIdx.filter fun m => e.sha <+: m.1) = [] := by
  refine Pack.filter_zipIdx_eq_nil fun sha hsha hpre => ?_
  obtain ⟨e', he', rfl⟩ := List.mem_map.1 hsha
  exact h e' he' ((prefix_sha_iff he (index.wellFormed e' he').name).1 hpre).symm

lemma filter_of_mem {e : IndexEntry} {k : Nat} (hk : index.entries[k]? = some e) :
    (index.pack.shas.zipIdx.filter fun m => e.sha <+: m.1) = [(e.sha, k)] := by
  have hlt := (List.getElem?_eq_some_iff.1 hk).1
  have hget := (List.getElem?_eq_some_iff.1 hk).2
  have he := index.wellFormed e (List.mem_of_getElem? hk)
  have hsplit : index.entries = index.entries.take k ++ e :: index.entries.drop (k + 1) := by
    rw [← hget, ← List.drop_eq_getElem_cons hlt, List.take_append_drop]
  have hsorted := index.sorted
  rw [hsplit, List.map_append, List.map_cons, List.pairwise_append, List.pairwise_cons] at hsorted
  obtain ⟨-, ⟨hbehind, -⟩, hfront⟩ := hsorted
  have hother : ∀ e' ∈ index.entries, e.sha <+: e'.sha → e.sha = e'.sha := fun e' he' hpre => by
    rw [IndexEntry.sha, (prefix_sha_iff he.name (index.wellFormed e' he').name).1 hpre, ← IndexEntry.sha]
  have hshas : index.pack.shas = (index.entries.take k).map IndexEntry.sha ++ e.sha ::
      (index.entries.drop (k + 1)).map IndexEntry.sha := by
    rw [← List.map_cons, ← List.map_append, ← hsplit]
    rfl
  have hlength : ((index.entries.take k).map IndexEntry.sha).length = k := by
    rw [List.length_map, List.length_take]
    omega
  rw [hshas, List.zipIdx_append, List.zipIdx_cons, List.filter_append, List.filter_cons_of_pos (by simp),
    Pack.filter_zipIdx_eq_nil, Pack.filter_zipIdx_eq_nil, hlength, Nat.zero_add]
  · rfl
  · intro sha hsha hpre
    obtain ⟨e', he', rfl⟩ := List.mem_map.1 hsha
    have heq := hother e' (List.mem_of_mem_drop he') hpre
    exact List.lt_irrefl _ (heq ▸ hbehind _ hsha)
  · intro sha hsha hpre
    obtain ⟨e', he', rfl⟩ := List.mem_map.1 hsha
    have heq := hother e' (List.mem_of_mem_take he') hpre
    exact List.lt_irrefl _ (heq ▸ hfront _ hsha _ List.mem_cons_self)

/-! ## Offsets -/

lemma fanout_last (index : IndexFile) : index.fanout 255 = index.entries.length := by
  refine List.countP_eq_length.2 fun e _ => decide_eq_true ?_
  exact Nat.le_of_lt_succ (e.name.headD 0).toNat_lt

lemma and_mask (ha : a < 2 ^ 32) : (UInt32.ofNat a &&& 0x80000000 = 0 ↔ a < 2 ^ 31) ∧
    UInt32.ofNat a &&& 0x7fffffff = UInt32.ofNat (a % 2 ^ 31) := by
  have hnat : (UInt32.ofNat a).toNat = a := by rw [UInt32.toNat_ofNat', Nat.mod_eq_of_lt ha]
  constructor
  · have hmask : UInt32.toNat 0x80000000 = 2 ^ 31 := rfl
    have hzero : UInt32.toNat 0 = 0 := rfl
    rw [← UInt32.toNat_inj, UInt32.toNat_and, hnat, hmask, hzero, Nat.and_two_pow, Nat.testBit_eq_decide_div_mod_eq]
    by_cases hbit : a / 2 ^ 31 % 2 = 1
    · rw [decide_eq_true hbit, Bool.toNat_true]
      omega
    · rw [decide_eq_false hbit, Bool.toNat_false]
      omega
  · have hmask : UInt32.toNat 0x7fffffff = 2 ^ 31 - 1 := rfl
    rw [← UInt32.toNat_inj, UInt32.toNat_and, hnat, hmask, Nat.and_two_pow_sub_one_eq_mod, UInt32.toNat_ofNat',
      Nat.mod_eq_of_lt (a := a % 2 ^ 31) (by omega)]

/-- The offset is read from the table in which it stands. -/
lemma offsetAt_text (dir : PackDir) {e : IndexEntry} {k : Nat} (hfits : index.Addressable e)
    (hk : index.entries[k]? = some e) : dir.offsetAt index.text (.ofNat k) = .ofNat e.offset := by
  have hlt := (List.getElem?_eq_some_iff.1 hk).1
  have he := index.wellFormed e (List.mem_of_getElem? hk)
  obtain ⟨hfits, hfits'⟩ := hfits k hk
  have hword : e.word < 2 ^ 32 := by
    rw [IndexEntry.word]
    cases hslot : e.slot with
    | none => exact (he.direct hslot).trans (by decide)
    | some j =>
      have hj := (he.large j hslot).1
      dsimp only
      omega
  have htotal : dir.readBigEndian ((Stream.start index.text).seekg (8 + 255 * 4)) 4 =
      (index.entries.length, ⟨index.text, 8 + 255 * 4 + 4, false⟩) := by
    rw [← fanout_last]
    exact readBigEndian_fanout index dir (by decide) 0
  have hfirst : (1032 + UInt32.ofNat index.entries.length * 24 + UInt32.ofNat k * 4 : UInt32).toNat =
      1032 + index.entries.length * 24 + k * 4 := by
    have hconst : UInt32.toNat 1032 = 1032 ∧ UInt32.toNat 24 = 24 ∧ UInt32.toNat 4 = 4 := by decide
    rw [UInt32.toNat_add, UInt32.toNat_add, UInt32.toNat_mul, UInt32.toNat_mul, UInt32.toNat_ofNat',
      UInt32.toNat_ofNat', hconst.1, hconst.2.1, hconst.2.2]
    omega
  have hread := dir.readBigEndian_of_prefix (index.word_at hk) (by omega)
  obtain ⟨hdirect, hlarge⟩ := and_mask hword
  rw [PackDir.offsetAt, htotal]
  dsimp only
  rw [hfirst, Stream.seekg_nat rfl]
  dsimp only
  rw [hread]
  dsimp only
  cases hslot : e.slot with
  | none =>
    have hw : e.word = e.offset := by rw [IndexEntry.word, hslot]
    have hoffset := he.direct hslot
    rw [hw] at hdirect ⊢
    rw [if_pos (hdirect.2 hoffset), ← UInt64.toNat_inj, UInt32.toNat_toUInt64, UInt32.toNat_ofNat', UInt64.toNat_ofNat']
    omega
  | some j =>
    obtain ⟨hj, hat⟩ := he.large j hslot
    have hsecond' := hfits' j hslot
    have hw : e.word = 2 ^ 31 + j := by rw [IndexEntry.word, hslot]
    have hjlt := (List.getElem?_eq_some_iff.1 hat).1
    have hmod : (2 ^ 31 + j) % 2 ^ 31 = j := by omega
    have hsecond : (1032 + UInt32.ofNat index.entries.length * 28 + UInt32.ofNat j * 8 : UInt32).toNat =
        1032 + index.entries.length * 28 + j * 8 := by
      have hconst : UInt32.toNat 1032 = 1032 ∧ UInt32.toNat 28 = 28 ∧ UInt32.toNat 8 = 8 := by decide
      rw [UInt32.toNat_add, UInt32.toNat_add, UInt32.toNat_mul, UInt32.toNat_mul, UInt32.toNat_ofNat',
        UInt32.toNat_ofNat', hconst.1, hconst.2.1, hconst.2.2]
      omega
    rw [hw, hmod] at hlarge
    rw [hw] at hdirect ⊢
    rw [if_neg (fun h => by have := hdirect.1 h; omega), hlarge, hsecond, Stream.seekg_nat rfl]
    dsimp only
    rw [dir.readBigEndian_of_prefix (index.offset_at hat) (he.offset.trans (by decide))]

end IndexFile

/-! ## Packs -/

/-- An index, and the file next to it. -/
structure PackPair where
  index : IndexFile
  file : Bytes

/-- A directory of packs. -/
def packDir (buffer : Stream → Bytes) (pairs : List PackPair) : PackDir where
  indexes := pairs.map fun p => p.index.text
  packFile i := (pairs[i]?.map PackPair.file).getD []
  buffer := buffer

/-- No name is in two indexes. -/
def Distinct (pairs : List PackPair) : Prop := (pairs.flatMap fun p => p.index.entries.map IndexEntry.name).Nodup

/-- Every position that is computed for an object fits 32 bits, in the search for its name and where its offset stands.
-/
def Reaches (pairs : List PackPair) (pair : PackPair) (e : IndexEntry) : Prop :=
  (∀ p ∈ pairs, p.index.Searchable e.sha) ∧ pair.index.Addressable e

/-- In no index the bytes behind the names are taken for one more. -/
def NoneOverread (pairs : List PackPair) (sha : Bytes) : Prop := ∀ p ∈ pairs, ¬ p.index.pack.Overread sha

section Packs

variable {pairs before after : List PackPair} {pair : PackPair} {e : IndexEntry} {k : Nat}

/-- What is found in an index of a number. -/
noncomputable def foundIn (part : Bytes) (p : PackPair × Nat) : List ((Bytes × Nat) × UInt32) :=
  ((p.1.index.pack.entries part).map IndexFile.numbered).map fun entry => ((p.1.index.text, p.2), entry.2)

/-- The calls for the indexes, one behind the other. -/
lemma comes_getPackFileOffset (buffer : Stream → Bytes) (hsearch : ∀ p ∈ pairs, p.index.Searchable part)
    (hpart : Pack.IsPart part) :
    Comes .running (fun n => (packDir buffer pairs).getPackFileOffset n part)
      (match (pairs.zipIdx.map (foundIn part)).flatten with
      | [(index, offset)] => .ok (index.2, (packDir buffer pairs).offsetAt index.1 offset)
      | _ => .error .threw) := by
  have hindexes : (packDir buffer pairs).indexes.zipIdx = pairs.zipIdx.map (Prod.map (fun p => p.index.text) id) :=
    List.zipIdx_map
  unfold PackDir.getPackFileOffset
  rw [hindexes]
  simp only [List.mapM_map]
  refine Comes.bind (a := pairs.zipIdx.map (foundIn part)) (Comes.mapM fun p hp => ?_) ?_
  · exact (IndexFile.comes_getHashMatchFromIndex (hsearch p.1 (List.fst_mem_of_mem_zipIdx hp)) hpart).bind
      (comes_const _)
  · rcases (pairs.zipIdx.map (foundIn part)).flatten with _ | ⟨m, _ | ⟨_, _⟩⟩
    · exact comes_const _
    · exact comes_const _
    · exact comes_const _

lemma foundIn_of_notMem (he : e.name.length = 20) (h : ∀ e' ∈ pair.index.entries, e'.name ≠ e.name)
    (hnone : ¬ pair.index.pack.Overread e.sha) (i : Nat) : foundIn e.sha (pair, i) = [] := by
  rw [foundIn, Pack.entries, IndexFile.filter_of_notMem he h, if_neg hnone]
  rfl

lemma flatten_foundIn_of_notMem (he : e.name.length = 20)
    (h : ∀ p ∈ pairs, ∀ e' ∈ p.index.entries, e'.name ≠ e.name) (hnone : NoneOverread pairs e.sha) (i : Nat) :
    ((pairs.zipIdx i).map (foundIn e.sha)).flatten = [] := by
  rw [List.flatten_eq_nil_iff]
  intro l hl
  obtain ⟨⟨p, j⟩, hp, rfl⟩ := List.mem_map.1 hl
  have hmem := List.fst_mem_of_mem_zipIdx hp
  exact foundIn_of_notMem he (h p hmem) (hnone p hmem) j

/-- Only the index with the name has an entry for it. -/
lemma flatten_foundIn (hdistinct : Distinct (before ++ pair :: after)) (hk : pair.index.entries[k]? = some e)
    (hnone : NoneOverread (before ++ pair :: after) e.sha) :
    ((before ++ pair :: after).zipIdx.map (foundIn e.sha)).flatten =
      [((pair.index.text, before.length), .ofNat k)] := by
  have hmem := List.mem_of_getElem? hk
  have he := (pair.index.wellFormed e hmem).name
  have hname : e.name ∈ pair.index.entries.map IndexEntry.name := List.mem_map_of_mem hmem
  rw [Distinct, List.flatMap_append, List.flatMap_cons, List.nodup_append, List.nodup_append] at hdistinct
  obtain ⟨-, ⟨-, -, hafter⟩, hbefore⟩ := hdistinct
  have hbefore' : ∀ p ∈ before, ∀ e' ∈ p.index.entries, e'.name ≠ e.name := fun p hp e' he' =>
    hbefore _ (List.mem_flatMap.2 ⟨p, hp, List.mem_map_of_mem he'⟩) _ (List.mem_append_left _ hname)
  have hafter' : ∀ p ∈ after, ∀ e' ∈ p.index.entries, e'.name ≠ e.name := fun p hp e' he' =>
    (hafter _ hname _ (List.mem_flatMap.2 ⟨p, hp, List.mem_map_of_mem he'⟩)).symm
  have hown : foundIn e.sha (pair, before.length) = [((pair.index.text, before.length), .ofNat k)] := by
    rw [foundIn, Pack.entries, IndexFile.filter_of_mem hk,
      if_neg (hnone pair (List.mem_append_right _ List.mem_cons_self))]
    rfl
  rw [List.zipIdx_append, List.map_append, List.flatten_append, Nat.zero_add, List.zipIdx_cons, List.map_cons,
    List.flatten_cons, hown, flatten_foundIn_of_notMem he hbefore' fun p hp => hnone p (List.mem_append_left _ hp),
    flatten_foundIn_of_notMem he hafter' fun p hp => hnone p (List.mem_append_right _ (List.mem_cons_of_mem _ hp))]
  rfl

open Classical in
/-- If bytes behind names are taken for the name it is found twice. -/
lemma two_le_length_flatten (hpair : pair ∈ pairs) (he : e ∈ pair.index.entries) (hover : ¬ NoneOverread pairs e.sha) :
    2 ≤ (pairs.zipIdx.map (foundIn e.sha)).flatten.length := by
  let matched : PackPair → Nat := fun p => (p.index.pack.shas.zipIdx.filter fun m => e.sha <+: m.1).length
  let beyond : PackPair → Nat := fun p => if p.index.pack.Overread e.sha then 1 else 0
  have hlength : ∀ p : PackPair × Nat, (foundIn e.sha p).length = matched p.1 + beyond p.1 := by
    intro p
    rw [foundIn, List.length_map, List.length_map, Pack.entries, List.length_append]
    by_cases h : p.1.index.pack.Overread e.sha
    · simp only [beyond, if_pos h]
      rfl
    · simp only [beyond, if_neg h]
      rfl
  have hsum : (pairs.zipIdx.map (foundIn e.sha)).flatten.length = (pairs.map matched).sum + (pairs.map beyond).sum := by
    have hfst : ∀ f : PackPair → Nat, pairs.zipIdx.map (fun p => f p.1) = pairs.map f := fun f => by
      conv_rhs => rw [← List.zipIdx_map_fst 0 pairs, List.map_map]
      rfl
    rw [List.length_flatten, List.map_map, ← List.sum_map_add, ← hfst]
    exact congrArg List.sum (List.map_congr_left fun p _ => hlength p)
  obtain ⟨k, hk⟩ := List.getElem?_of_mem he
  have hmatched : 1 ≤ (pairs.map matched).sum := by
    refine le_trans (Nat.le_of_eq ?_) (List.single_le_sum (fun _ _ => Nat.zero_le _) _ (List.mem_map_of_mem hpair))
    simp only [matched, IndexFile.filter_of_mem hk]
    rfl
  have hone : 1 ≤ (pairs.map beyond).sum := by
    simp only [NoneOverread, not_forall, not_not] at hover
    obtain ⟨p, hp, hp'⟩ := hover
    refine le_trans (Nat.le_of_eq ?_) (List.single_le_sum (fun _ _ => Nat.zero_le _) _ (List.mem_map_of_mem hp))
    exact (if_pos hp').symm
  omega

lemma comes_getPackFileOffset_threw (buffer : Stream → Bytes) (hsearch : ∀ p ∈ pairs, p.index.Searchable e.sha)
    (hpair : pair ∈ pairs)
    (he : e ∈ pair.index.entries)
    (hover : ¬ NoneOverread pairs e.sha) :
    Comes .running (fun n => (packDir buffer pairs).getPackFileOffset n e.sha) (.error .threw) := by
  have hcomes := comes_getPackFileOffset buffer hsearch (IndexFile.isPart_sha (pair.index.wellFormed e he).name)
  have hlength := two_le_length_flatten hpair he hover
  rcases heq : (pairs.zipIdx.map (foundIn e.sha)).flatten with _ | ⟨m, _ | ⟨m', rest⟩⟩
  · rw [heq] at hlength
    cases hlength
  · rw [heq, List.length_singleton] at hlength
    omega
  · rwa [heq] at hcomes

/-- The offset of an object is returned just if no bytes behind names are taken for its name. -/
theorem comes_getPackFileOffset_iff (buffer : Stream → Bytes) (hreaches : Reaches (before ++ pair :: after) pair e)
    (hdistinct : Distinct (before ++ pair :: after)) (he : e ∈ pair.index.entries) :
    Comes .running (fun n => (packDir buffer (before ++ pair :: after)).getPackFileOffset n e.sha)
      (.ok (before.length, .ofNat e.offset)) ↔ NoneOverread (before ++ pair :: after) e.sha := by
  have hpair : pair ∈ before ++ pair :: after := List.mem_append_right _ List.mem_cons_self
  constructor
  · intro h
    by_contra hover
    cases h.unique (comes_getPackFileOffset_threw buffer hreaches.1 hpair he hover)
  · intro hnone
    have hcomes := comes_getPackFileOffset buffer hreaches.1 (IndexFile.isPart_sha (pair.index.wellFormed e he).name)
    obtain ⟨k, hk⟩ := List.getElem?_of_mem he
    rw [flatten_foundIn hdistinct hk hnone] at hcomes
    dsimp only at hcomes
    rwa [IndexFile.offsetAt_text _ hreaches.2 hk] at hcomes

end Packs

end CppExperiments.Cgit

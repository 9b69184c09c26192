import CppExperiments.Cgit.Lookup
import CppExperiments.Cgit.PackFile
import Mathlib.Data.Fintype.Card
import Mathlib.Data.Fintype.EquivFin
import Mathlib.Data.List.Chain
import Mathlib.Logic.Relation

/-!
# Chains of deltas

When the search for an object in packs of any content comes to an end: what stands at the offsets that a chain of deltas
goes through, and the chains that run out of the file or come back.
-/

namespace CppExperiments.Cgit

namespace PackDir

open Relation

variable (dir : PackDir)

/-! ## What a chain goes through -/

inductive PackObject where
  | base
  | unexpected
  | ofsDelta (relOffset : UInt64)
  /-- The name of the base, and whether all of it is in the file. -/
  | refDelta (sha : Bytes) (whole : Bool)

def headerStep (byte : BitVec 32) (st : Nat × Nat × Nat) : Nat × Nat × Nat := headerByte byte st.1 st.2.1 st.2.2

/-- What stands at an offset of a pack file, if the bytes do not end before that is known. -/
def objectAt (file : Bytes) (offset : UInt64) : Option PackObject :=
  if 2 ^ 63 ≤ offset.toNat then none
  else do
    let ((type, _), rest) ← Stream.bytewise headerStep id (file.drop offset.toNat) (0, 0, 0)
    if 1 ≤ type ∧ type ≤ 4 then some .base
    else if type = 6 then do
      let (relOffset, _) ← Stream.bytewise relOffsetByte (· + 1) rest 0
      some (.ofsDelta relOffset)
    else if type = 7 then some (.refDelta (dir.readSha ⟨file, file.length - rest.length, false⟩) (20 ≤ rest.length))
    else some .unexpected

/-- The name is found once in the indexes, with this offset. -/
def Resolves (sha : Bytes) (offset : UInt64) : Prop :=
  ∃ packFile, Ends (fun n => dir.getPackFileOffset n sha) (.ok (packFile, offset))

/-- The object at an offset is a delta on the other one. -/
def Link (file : Bytes) (offset base : UInt64) : Prop :=
  (∃ relOffset, dir.objectAt file offset = some (.ofsDelta relOffset) ∧ base = offset - relOffset) ∨
    ∃ sha, dir.objectAt file offset = some (.refDelta sha true) ∧ dir.Resolves sha base

/-- The bytes end within the object, or within the name of a base that is found all the same. -/
def Lost (file : Bytes) (offset : UInt64) : Prop :=
  dir.objectAt file offset = none ∨ ∃ sha base, dir.objectAt file offset = some (.refDelta sha false) ∧
    dir.Resolves sha base

/-- If the name leads to a pack, its header is whole, and no object on the chain is lost or its own base. -/
def Sound (objectHash : Bytes) : Prop :=
  ∀ packFile offset, Ends (fun n => dir.getPackFileOffset n objectHash) (.ok (packFile, offset)) →
    (dir.verifyHeader (.start (dir.packFile packFile)) (ascii "PACK") 2).1 = true →
    8 ≤ (dir.packFile packFile).length ∧
      ∀ base, ReflTransGen (dir.Link (dir.packFile packFile)) offset base →
        ¬ dir.Lost (dir.packFile packFile) base ∧ ¬ TransGen (dir.Link (dir.packFile packFile)) base base

/-- The header of an index is valid. -/
def isIndex (index : Bytes) : Bool := (dir.verifyHeader (.start index) [0xff, 0x74, 0x4f, 0x63] 2).1

/-- The end and the start of the bucket of a first byte. -/
def bucketOf (index : Bytes) (hexInt : Int) : UInt32 × UInt32 × Stream :=
  dir.bucket (dir.verifyHeader (.start index) [0xff, 0x74, 0x4f, 0x63] 2).2 hexInt

/-- In the indexes up to the first that is refused, no bucket of the first byte that is not empty has the end
2^32 - 1, which no counter exceeds. -/
def Bounded (part : Bytes) : Prop :=
  ∀ index ∈ dir.indexes.takeWhile dir.isIndex, ∀ hexInt, stoi16 (part.take 2) = some hexInt →
    0 < (dir.bucketOf index hexInt).1 - (dir.bucketOf index hexInt).2.1 → (dir.bucketOf index hexInt).1 ≠ 0xffffffff

/-- The names that are looked up: that of the object, and those of the bases on its chain. -/
inductive LooksUp (objectHash : Bytes) : Bytes → Prop
  | object : LooksUp objectHash objectHash
  | base {packFile : Nat} {offset base : UInt64} {sha : Bytes} {whole : Bool}
    (hends : Ends (fun n => dir.getPackFileOffset n objectHash) (.ok (packFile, offset)))
    (hvalid : (dir.verifyHeader (.start (dir.packFile packFile)) (ascii "PACK") 2).1 = true)
    (hchain : ReflTransGen (dir.Link (dir.packFile packFile)) offset base)
    (hobject : dir.objectAt (dir.packFile packFile) base = some (.refDelta sha whole)) : LooksUp objectHash sha

variable {dir} {part sha index file objectHash : Bytes} {start stop curr startOffset : UInt32} {s : Stream}

/-! ## Searches in an index -/

lemma threw_ne {α : Type} : (.error .threw : Call α) ≠ .error .running := by
  intro h
  cases h

lemma toNat_mid (h : start ≤ stop) :
    (start + (stop - start) / 2).toNat = start.toNat + (stop.toNat - start.toNat) / 2 := by
  have hle := UInt32.le_iff_toNat_le.1 h
  have hlt := stop.toNat_lt
  have htwo : UInt32.toNat 2 = 2 := rfl
  rw [UInt32.toNat_add, UInt32.toNat_div, UInt32.toNat_sub_of_le _ _ h, htwo]
  exact Nat.mod_eq_of_lt (by omega)

lemma toNat_lt_of_ne (h : stop ≠ 0xffffffff) : stop.toNat < 0xffffffff := by
  have hlt := stop.toNat_lt
  have hne : stop.toNat ≠ 0xffffffff := fun heq => h (UInt32.toNat_inj.1 heq)
  omega

lemma toNat_succ (h : stop.toNat < 0xffffffff) : (stop + 1).toNat = stop.toNat + 1 := by
  rw [UInt32.toNat_add]
  exact Nat.mod_eq_of_lt (by simpa using Nat.succ_lt_succ h)

/-- Between the bounds there is less after every round. -/
lemma halts_getPackIdxOffsetStart (hstop : stop ≠ 0xffffffff) :
    Halts .running fun n => dir.getPackIdxOffsetStart part n start stop s := by
  refine halts_of_measure (fun n (p : UInt32 × UInt32 × Stream) => dir.getPackIdxOffsetStart part n p.1 p.2.1 p.2.2)
    (fun p => p.2.1.toNat < 0xffffffff) (fun p => p.2.1.toNat + 1 - p.1.toNat) (fun p => rfl) ?_ (s := (start, stop, s))
    (toNat_lt_of_ne hstop)
  rintro ⟨start, stop, s⟩ hstop
  dsimp only at hstop ⊢
  by_cases hle : start ≤ stop
  · have hle' := UInt32.le_iff_toNat_le.1 hle
    have hmid := toNat_mid hle
    generalize hmid' : start + (stop - start) / 2 = mid at hmid
    by_cases hge : ¬ (dir.readSha (s.seekg (8 + 256 * 4 + mid * 20 : UInt32).toNat)).take part.length < part
    · by_cases heq : start = mid
      · refine Or.inl ⟨.ok (start, (s.seekg (8 + 256 * 4 + mid * 20 : UInt32).toNat).read 20), nofun, fun n => ?_⟩
        rw [getPackIdxOffsetStart, if_pos hle]
        dsimp only
        rw [hmid', if_pos hge, if_pos heq]
      · have hne : start.toNat ≠ mid.toNat := fun h => heq (UInt32.toNat_inj.1 h)
        have hpred : (mid - 1).toNat = mid.toNat - 1 :=
          UInt32.toNat_sub_of_le _ _ (UInt32.le_iff_toNat_le.2
            (Nat.le_trans (Nat.le_add_left 1 start.toNat) (by omega)))
        refine Or.inr ⟨(start, mid - 1, (s.seekg (8 + 256 * 4 + mid * 20 : UInt32).toNat).read 20), ?_, ?_, fun n => ?_⟩
        · dsimp only
          omega
        · dsimp only
          omega
        · rw [getPackIdxOffsetStart, if_pos hle]
          dsimp only
          rw [hmid', if_pos hge, if_neg heq]
    · refine Or.inr ⟨(mid + 1, stop, (s.seekg (8 + 256 * 4 + mid * 20 : UInt32).toNat).read 20), hstop, ?_, fun n => ?_⟩
      · have hnext := @toNat_succ mid (by omega)
        dsimp only
        omega
      · rw [getPackIdxOffsetStart, if_pos hle]
        dsimp only
        rw [hmid', if_neg hge]
  · refine Or.inl ⟨.ok (start, s), nofun, fun n => ?_⟩
    rw [getPackIdxOffsetStart, if_neg hle]

/-- The counter of the walk reaches its bound. -/
lemma halts_matchesFrom (hcurr : curr ≠ 0xffffffff) {found : List (Bytes × UInt32)} :
    Halts .running fun n => dir.matchesFrom part curr n startOffset s found := by
  have hlt := toNat_lt_of_ne hcurr
  refine halts_of_measure
    (fun n (p : UInt32 × Stream × List (Bytes × UInt32)) => dir.matchesFrom part curr n p.1 p.2.1 p.2.2)
    (fun _ => True) (fun p => curr.toNat + 1 - p.1.toNat) (fun p => rfl) ?_ (s := (startOffset, s, found)) trivial
  rintro ⟨startOffset, s, found⟩ -
  dsimp only
  by_cases hle : startOffset ≤ curr
  · have hle' := UInt32.le_iff_toNat_le.1 hle
    by_cases hpre : part <+: dir.readSha s
    · have hnext := @toNat_succ startOffset (by omega)
      refine Or.inr ⟨(startOffset + 1, s.read 20, found ++ [(dir.readSha s, startOffset)]), trivial, ?_, fun n => ?_⟩
      · dsimp only
        omega
      · rw [matchesFrom, if_pos hle]
        dsimp only
        rw [if_pos hpre]
    · refine Or.inl ⟨.ok found, nofun, fun n => ?_⟩
      rw [matchesFrom, if_pos hle]
      dsimp only
      rw [if_neg hpre]
  · refine Or.inl ⟨.ok found, nofun, fun n => ?_⟩
    rw [matchesFrom, if_neg hle]

lemma halts_getHashMatchFromIndex (hbounded : dir.Bounded part) (hindex : index ∈ dir.indexes.takeWhile dir.isIndex) :
    Halts .running fun n => dir.getHashMatchFromIndex n part index := by
  unfold getHashMatchFromIndex
  by_cases hlen : part.length < 2
  · simp only [if_pos hlen]
    exact halts_const nofun
  · simp only [if_neg hlen]
    by_cases hvalid : (dir.verifyHeader (.start index) [0xff, 0x74, 0x4f, 0x63] 2).1 = true
    · simp only [if_pos hvalid]
      refine (halts_const (GitDir.orThrow_ne_running _)).bind fun hexInt hhex => ?_
      have hcurr := hbounded index hindex hexInt (GitDir.orThrow_injective hhex.eq_of_const)
      rw [bucketOf] at hcurr
      generalize dir.bucket (dir.verifyHeader (.start index) [0xff, 0x74, 0x4f, 0x63] 2).2 hexInt = ends at hcurr
      obtain ⟨curr, prev, s⟩ := ends
      by_cases hsome : 0 < curr - prev
      · simp only [if_pos hsome]
        exact (halts_getPackIdxOffsetStart (hcurr hsome)).bind fun _ _ => halts_matchesFrom (hcurr hsome)
      · simp only [if_neg hsome]
        exact halts_const nofun
    · simp only [if_neg hvalid]
      exact halts_const nofun

lemma getHashMatchFromIndex_of_refused {n : Nat} (h : dir.isIndex index = false) :
    dir.getHashMatchFromIndex n part index = .error .threw := by
  rw [isIndex] at h
  rw [getHashMatchFromIndex]
  dsimp only
  rw [h]
  exact ite_self _

/-- The search in all indexes comes to an end. -/
lemma halts_getPackFileOffset (hbounded : dir.Bounded sha) : Halts .running fun n => dir.getPackFileOffset n sha := by
  unfold getPackFileOffset
  refine Halts.bind (Halts.mapM_takeWhile (p := fun index => dir.isIndex index.1) (fun index hindex => ?_)
    fun index hrefused => ?_) fun found _ => ?_
  · have hmem : index.1 ∈ dir.indexes.takeWhile dir.isIndex := by
      have hfst := List.mem_map_of_mem (f := Prod.fst) hindex
      rwa [← Function.comp_def dir.isIndex Prod.fst, ← List.takeWhile_map, List.zipIdx_map_fst] at hfst
    exact (halts_getHashMatchFromIndex hbounded hmem).bind fun found _ => halts_const nofun
  · refine ⟨.threw, (fun h => by cases h), fun n => ?_⟩
    rw [getHashMatchFromIndex_of_refused hrefused]
    rfl
  · rcases found.flatten with _ | ⟨m, _ | ⟨_, _⟩⟩
    · exact halts_const threw_ne
    · exact halts_const nofun
    · exact halts_const threw_ne

/-! ## Texts and chains -/

variable {z : Zlib}

/-- A block that is not empty leaves less of the file. -/
lemma halts_zdecompress {state : z.State} {decompressed : Bytes} :
    Halts .running fun n => zdecompress z n state decompressed s := by
  refine halts_of_measure (fun n (p : z.State × Bytes × Stream) => zdecompress z n p.1 p.2.1 p.2.2) (fun _ => True)
    (fun p => p.2.2.left) (fun p => rfl) ?_ (s := (state, decompressed, s)) trivial
  rintro ⟨state, decompressed, s⟩ -
  dsimp only
  by_cases hchunk : s.block 4096 = []
  · refine Or.inl ⟨.ok (decompressed, s.read 4096), nofun, fun n => ?_⟩
    rw [zdecompress, if_pos hchunk]
  · cases hinflate : z.inflate state (s.block 4096) with
    | none =>
      refine Or.inl ⟨.error .threw, threw_ne, fun n => ?_⟩
      rw [zdecompress, if_neg hchunk, hinflate]
    | some next =>
      obtain ⟨state', out, done⟩ := next
      by_cases hdone : done = true
      · refine Or.inl ⟨.ok (decompressed ++ out, s.read 4096), nofun, fun n => ?_⟩
        rw [zdecompress, if_neg hchunk, hinflate]
        dsimp only
        rw [if_pos hdone]
      · refine Or.inr ⟨(state', decompressed ++ out, s.read 4096), trivial, Stream.left_read_lt hchunk, fun n => ?_⟩
        rw [zdecompress, if_neg hchunk, hinflate]
        dsimp only
        rw [if_neg hdone]

lemma halts_resolveChain {deltaChain : DeltaChain} {baseType : Nat} {result : Bytes} :
    Halts .running fun n => resolveChain z n deltaChain baseType result s := by
  induction deltaChain generalizing baseType result s with
  | nil => exact halts_const nofun
  | cons link rest ih =>
    obtain ⟨type, offset, size⟩ := link
    simp only [resolveChain]
    refine halts_zdecompress.bind fun p _ => ?_
    exact (halts_const (GitDir.orThrow_ne_running _)).bind fun result _ => ih

/-! ## Rounds of a chain -/

lemma headerLoop_bytewise : Stream.Bytewise headerStep id Stop.running (fun st s => (st.1, st.2.1, s))
    fun n p => headerLoop n p.1 p.2 := by
  refine ⟨fun p => ?_, fun n st s => ?_⟩
  · rw [headerLoop]
  · rw [headerLoop]
    rfl

lemma relOffsetLoop_bytewise : Stream.Bytewise relOffsetByte (· + 1) Stop.running Prod.mk
    fun n p => relOffsetLoop n p.1 p.2 := by
  refine ⟨fun p => rfl, fun n st s => ?_⟩
  by_cases hbit : s.get.1 &&& 128 = 0
  · rw [if_neg (not_not.2 hbit)]
    exact if_pos hbit
  · rw [if_pos hbit]
    exact if_neg hbit

variable {offset base relOffset : UInt64} {pos n m : Nat} {deltaChain : DeltaChain} {whole : Bool}

/-- From now on no header comes to an end. -/
lemma chainLoop_of_failed (h : s.failed = true) : dir.chainLoop n m offset s deltaChain = .error .running := by
  cases m with
  | zero => rfl
  | succ m =>
    have hnever : headerLoop n (0, 0, 0) s = .error .running := headerLoop_bytewise.never_of_failed h n
    rw [chainLoop, Stream.seekg_of_failed h, hnever]
    rfl

lemma seekg_of_lt (h : ¬ 2 ^ 63 ≤ offset.toNat) :
    (⟨file, pos, false⟩ : Stream).seekg (streamoff offset) = ⟨file, offset.toNat, false⟩ := by
  rw [streamoff, if_pos (Nat.lt_of_not_le h)]
  exact Stream.seekg_nat rfl _

lemma failed_seekg (h : 2 ^ 63 ≤ offset.toNat) :
    ((⟨file, pos, false⟩ : Stream).seekg (streamoff offset)).failed = true := by
  have hlt := offset.toNat_lt
  rw [streamoff, if_neg (Nat.not_lt.2 h), Stream.seekg_of_neg rfl (by omega)]

/-- The loop with the header in front of it. -/
lemma goesOn_header {type length shift : Nat} {rest : Bytes} (hoffset : ¬ 2 ^ 63 ≤ offset.toNat)
    (hheader : Stream.bytewise headerStep id (file.drop offset.toNat) (0, 0, 0) = some ((type, length, shift), rest)) :
    GoesOn .running (fun n m => dir.chainLoop n (m + 1) offset ⟨file, pos, false⟩ deltaChain) fun n m =>
      let s : Stream := ⟨file, file.length - rest.length, false⟩
      if 1 ≤ type ∧ type ≤ 4 then .ok (push deltaChain type length s, s)
      else if type = 6 then do
        let (relOffset, s) ← relOffsetLoop n 0 s
        dir.chainLoop n m (offset - relOffset) s (push deltaChain 0 length s)
      else if type = 7 then do
        let sha := dir.readSha s
        let s := s.read 20
        let (_, offset) ← dir.getPackFileOffset n sha
        dir.chainLoop n m offset s (push deltaChain 0 length s)
      else .error .threw := by
  have hcomes : Comes Stop.running (fun n => headerLoop n (0, 0, 0) ⟨file, offset.toNat, false⟩)
      (.ok (type, length, ⟨file, file.length - rest.length, false⟩)) :=
    headerLoop_bytewise.comes (s := ⟨file, offset.toNat, false⟩) rfl hheader
  simp only [chainLoop, seekg_of_lt hoffset]
  exact hcomes.goesOn

/-- What a round of the loop leads to, by what stands at the offset. -/
def Turns (dir : PackDir) (file : Bytes) (offset : UInt64) (call : Nat → Nat → Call (DeltaChain × Stream)) :
    Option PackObject → Prop
  | none => ∀ n m, call n m = .error .running
  | some .base => ∃ r ≠ .error .running, GoesOn .running call fun _ _ => r
  | some .unexpected => ∃ r ≠ .error .running, GoesOn .running call fun _ _ => r
  | some (.ofsDelta relOffset) => ∃ pos deltaChain,
    GoesOn .running call fun n m => dir.chainLoop n m (offset - relOffset) ⟨file, pos, false⟩ deltaChain
  | some (.refDelta sha whole) => ∃ s deltaChain, s.file = file ∧ s.failed = !whole ∧ GoesOn .running call fun n m => do
    let (_, offset) ← dir.getPackFileOffset n sha
    dir.chainLoop n m offset s deltaChain

lemma Turns.of_goesOn {call call' : Nat → Nat → Call (DeltaChain × Stream)} {object : Option PackObject}
    (h : GoesOn .running call call') (hturns : Turns dir file offset call' object) :
      Turns dir file offset call object := by
  rcases object with _ | _ | _ | relOffset | ⟨sha, whole⟩
  · intro n m
    rcases h.before n m with hcall | hcall
    · exact hcall
    · exact hcall.trans (hturns n m)
  · obtain ⟨r, hr, hon⟩ := hturns
    exact ⟨r, hr, h.trans hon⟩
  · obtain ⟨r, hr, hon⟩ := hturns
    exact ⟨r, hr, h.trans hon⟩
  · obtain ⟨pos, deltaChain, hon⟩ := hturns
    exact ⟨pos, deltaChain, h.trans hon⟩
  · obtain ⟨s, deltaChain, hfile, hfailed, hon⟩ := hturns
    exact ⟨s, deltaChain, hfile, hfailed, h.trans hon⟩

lemma turns_chainLoop : Turns dir file offset (fun n m => dir.chainLoop n (m + 1) offset ⟨file, pos, false⟩ deltaChain)
    (dir.objectAt file offset) := by
  rw [objectAt]
  by_cases hoffset : 2 ^ 63 ≤ offset.toNat
  · rw [if_pos hoffset]
    intro n m
    have hnever : headerLoop n (0, 0, 0) ((⟨file, pos, false⟩ : Stream).seekg (streamoff offset)) = .error .running :=
      headerLoop_bytewise.never_of_failed (failed_seekg hoffset) n
    dsimp only
    rw [chainLoop, hnever]
    rfl
  · rw [if_neg hoffset]
    cases hheader : Stream.bytewise headerStep id (file.drop offset.toNat) (0, 0, 0) with
    | none =>
      intro n m
      have hnever : headerLoop n (0, 0, 0) ⟨file, offset.toNat, false⟩ = .error .running :=
        headerLoop_bytewise.never rfl hheader n
      dsimp only
      rw [chainLoop, seekg_of_lt hoffset, hnever]
      rfl
    | some header =>
      obtain ⟨⟨type, length, shift⟩, rest⟩ := header
      have hrest : file.drop (file.length - rest.length) = rest :=
        (List.suffix_iff_eq_drop.1 ((Stream.bytewise_suffix hheader).trans (List.drop_suffix _ _))).symm
      refine Turns.of_goesOn (goesOn_header hoffset hheader) ?_
      rw [Option.bind_eq_bind, Option.bind_some]
      dsimp only
      by_cases hbase : 1 ≤ type ∧ type ≤ 4
      · simp only [if_pos hbase]
        exact ⟨.ok _, nofun, goesOn_refl _⟩
      simp only [if_neg hbase]
      by_cases hofs : type = 6
      · simp only [if_pos hofs]
        cases hrel : Stream.bytewise relOffsetByte (· + 1) rest 0 with
        | none =>
          rw [← hrest] at hrel
          intro n m
          have hnever : relOffsetLoop n 0 ⟨file, file.length - rest.length, false⟩ = .error .running :=
            relOffsetLoop_bytewise.never (s := ⟨file, file.length - rest.length, false⟩) rfl hrel n
          dsimp only
          rw [hnever]
          rfl
        | some rel =>
          rw [← hrest] at hrel
          obtain ⟨relOffset, rest'⟩ := rel
          have hcomes : Comes Stop.running (fun n => relOffsetLoop n 0 ⟨file, file.length - rest.length, false⟩)
              (.ok (relOffset, ⟨file, file.length - rest'.length, false⟩)) :=
            relOffsetLoop_bytewise.comes (s := ⟨file, file.length - rest.length, false⟩) rfl hrel
          exact ⟨file.length - rest'.length, _, hcomes.goesOn⟩
      simp only [if_neg hofs]
      by_cases href : type = 7
      · simp only [if_pos href]
        refine ⟨(⟨file, file.length - rest.length, false⟩ : Stream).read 20, _, rfl, ?_, goesOn_refl _⟩
        change decide (((file.drop (file.length - rest.length)).take 20).length < 20) = !decide (20 ≤ rest.length)
        rw [hrest, List.length_take, ← decide_not]
        exact decide_eq_decide.2 (by omega)
      · simp only [if_neg href]
        exact ⟨_, threw_ne, goesOn_refl _⟩

/-! ## Chains without an end -/

lemma comes_of_ends {α : Type} {call : Nat → Call α} {r : Call α} (h : Halts .running call) (hends : Ends call r) :
    Comes .running call r := by
  obtain ⟨r', -, hcomes⟩ := h
  rwa [GitDir.Ends.unique hends hcomes.enough]

/-- A delta on an object that is found goes on with it. -/
lemma goesOn_refDelta (hbounded : dir.Bounded sha)
    (hobject : dir.objectAt file offset = some (.refDelta sha whole))
    (hresolves : dir.Resolves sha base) : ∃ s deltaChain', s.file = file ∧ s.failed = !whole ∧
      GoesOn .running (fun n m => dir.chainLoop n (m + 1) offset ⟨file, pos, false⟩ deltaChain) fun n m =>
        dir.chainLoop n m base s deltaChain' := by
  have hturns := @turns_chainLoop dir file offset pos deltaChain
  rw [hobject] at hturns
  obtain ⟨s, deltaChain', hfile, hfailed, hon⟩ := hturns
  obtain ⟨packFile, hends⟩ := hresolves
  exact ⟨s, deltaChain', hfile, hfailed,
    hon.trans (comes_of_ends (halts_getPackFileOffset hbounded) hends).goesOn⟩

/-- The chain from an offset comes to bytes that run out, or back. -/
def Endless (dir : PackDir) (file : Bytes) (offset : UInt64) : Prop :=
  ∃ base, ReflTransGen (dir.Link file) offset base ∧ (dir.Lost file base ∨ TransGen (dir.Link file) base base)

lemma Endless.cases (h : dir.Endless file offset) :
    dir.Lost file offset ∨ ∃ base, dir.Link file offset base ∧ dir.Endless file base := by
  obtain ⟨base, hchain, hend⟩ := h
  rcases ReflTransGen.cases_head hchain with rfl | ⟨next, hlink, hrest⟩
  · rcases hend with hlost | hcycle
    · exact Or.inl hlost
    · obtain ⟨next, hlink, hrest⟩ := TransGen.head'_iff.1 hcycle
      exact Or.inr ⟨next, hlink, offset, hrest, Or.inr hcycle⟩
  · exact Or.inr ⟨next, hlink, base, hrest, hend⟩

/-- The names of bases from an offset on are bounded. -/
def BoundedFrom (dir : PackDir) (file : Bytes) (offset : UInt64) : Prop :=
  ∀ base, ReflTransGen (dir.Link file) offset base → ∀ sha whole, dir.objectAt file base = some (.refDelta sha whole) →
    dir.Bounded sha

lemma BoundedFrom.link (h : dir.BoundedFrom file offset) (hlink : dir.Link file offset base) :
    dir.BoundedFrom file base :=
  fun last hchain => h last (.head hlink hchain)

lemma chainLoop_of_endless (hbounded : dir.BoundedFrom file offset) (h : dir.Endless file offset) :
    dir.chainLoop n m offset ⟨file, pos, false⟩ deltaChain = .error .running := by
  induction m generalizing offset pos deltaChain with
  | zero => rfl
  | succ m ih =>
    have hturns := @turns_chainLoop dir file offset pos deltaChain
    rcases h.cases with (hnone | ⟨sha, base, href, hresolves⟩) | ⟨base,
      ⟨relOffset, hofs, rfl⟩ | ⟨sha, href, hresolves⟩, hbase⟩
    · rw [hnone] at hturns
      exact hturns n m
    · obtain ⟨s, deltaChain', hfile, hfailed, hon⟩ :=
        @goesOn_refDelta _ _ _ _ _ pos deltaChain _ (hbounded offset .refl _ _ href) href hresolves
      rcases hon.before n m with hcall | hcall
      · exact hcall
      · exact hcall.trans (chainLoop_of_failed hfailed)
    · rw [hofs] at hturns
      obtain ⟨pos', deltaChain', hon⟩ := hturns
      rcases hon.before n m with hcall | hcall
      · exact hcall
      · exact hcall.trans (ih (hbounded.link (Or.inl ⟨relOffset, hofs, rfl⟩)) hbase)
    · obtain ⟨⟨_, pos', _⟩, deltaChain', rfl, rfl, hon⟩ :=
        @goesOn_refDelta _ _ _ _ _ pos deltaChain _ (hbounded offset .refl _ _ href) href hresolves
      rcases hon.before n m with hcall | hcall
      · exact hcall
      · exact hcall.trans (ih (hbounded.link (Or.inr ⟨sha, href, hresolves⟩)) hbase)

/-! ## Chains with an end -/

/-- With rounds enough the loop ends. -/
def EndsAt (dir : PackDir) (offset : UInt64) (s : Stream) (deltaChain : DeltaChain) : Prop :=
  ∃ r ≠ .error .running, ∃ k, ∀ n ≥ k, ∀ m ≥ k, dir.chainLoop n m offset s deltaChain = r

lemma endsAt_of_goesOn {base : UInt64} {s' : Stream} {deltaChain' : DeltaChain}
    (hon : GoesOn .running (fun n m => dir.chainLoop n (m + 1) offset s deltaChain) fun n m => dir.chainLoop n m base
      s' deltaChain')
    (h : dir.EndsAt base s' deltaChain') : dir.EndsAt offset s deltaChain := by
  obtain ⟨k, hk⟩ := hon.enough
  obtain ⟨r, hr, k', hk'⟩ := h
  refine ⟨r, hr, max k k' + 1, fun n hn m hm => ?_⟩
  obtain ⟨m, rfl⟩ := Nat.exists_eq_add_of_le' (Nat.le_of_add_left_le hm)
  exact (hk n (by omega) m).trans (hk' n (by omega) m (by omega))

lemma endsAt_of_goesOn_const {r : Call (DeltaChain × Stream)} (hr : r ≠ .error .running)
    (hon : GoesOn .running (fun n m => dir.chainLoop n (m + 1) offset s deltaChain) fun _ _ => r) :
    dir.EndsAt offset s deltaChain := by
  obtain ⟨k, hk⟩ := hon.enough
  refine ⟨r, hr, k + 1, fun n hn m hm => ?_⟩
  obtain ⟨m, rfl⟩ := Nat.exists_eq_add_of_le' (Nat.le_of_add_left_le hm)
  exact hk n (by omega) m

/-- One object after the other the chain comes to an end. -/
lemma endsAt_of_links (hbounded : dir.BoundedFrom file offset) (hlost : ¬ dir.Lost file offset)
    (ih : ∀ base, dir.Link file offset base → ∀ pos deltaChain, dir.EndsAt base ⟨file, pos, false⟩ deltaChain) :
    dir.EndsAt offset ⟨file, pos, false⟩ deltaChain := by
  have hturns := @turns_chainLoop dir file offset pos deltaChain
  cases hobject : dir.objectAt file offset with
  | none => exact absurd (Or.inl hobject) hlost
  | some object =>
    rw [hobject] at hturns
    rcases object with _ | _ | relOffset | ⟨sha, whole⟩
    · obtain ⟨r, hr, hon⟩ := hturns
      exact endsAt_of_goesOn_const hr hon
    · obtain ⟨r, hr, hon⟩ := hturns
      exact endsAt_of_goesOn_const hr hon
    · obtain ⟨pos', deltaChain', hon⟩ := hturns
      exact endsAt_of_goesOn hon (ih _ (Or.inl ⟨relOffset, hobject, rfl⟩) pos' deltaChain')
    · obtain ⟨s, deltaChain', hfile, hfailed, hon⟩ := hturns
      obtain ⟨r, hr, hcomes⟩ := halts_getPackFileOffset (hbounded offset .refl sha whole hobject)
      cases r with
      | error e => exact endsAt_of_goesOn_const (fun h => hr (congrArg _ (Except.error.inj h))) (hon.trans
          hcomes.goesOn_error)
      | ok found =>
        obtain ⟨packFile, base⟩ := found
        have hresolves : dir.Resolves sha base := ⟨packFile, hcomes.enough⟩
        cases whole with
        | false => exact absurd (Or.inr ⟨sha, base, hobject, hresolves⟩) hlost
        | true =>
          obtain ⟨_, pos', _⟩ := s
          cases hfile
          cases hfailed
          exact endsAt_of_goesOn (hon.trans hcomes.goesOn) (ih base (Or.inr ⟨sha, hobject, hresolves⟩) pos' deltaChain')

lemma endsAt_of_not_endless (hbounded : dir.BoundedFrom file offset) (h : ¬ dir.Endless file offset) :
    dir.EndsAt offset ⟨file, pos, false⟩ deltaChain := by
  let Below : UInt64 → UInt64 → Prop := fun base offset => ¬ dir.Endless file offset ∧ dir.Link file offset base
  have hfinite : Finite UInt64 := Finite.of_injective UInt64.toFin fun _ _ h => UInt64.toFin_inj.1 h
  have hirrefl : Std.Irrefl (TransGen Below) := by
    refine ⟨fun offset hcycle => ?_⟩
    obtain ⟨_, -, hlast⟩ := TransGen.tail'_iff.1 hcycle
    exact hlast.1 ⟨offset, .refl, Or.inr (transGen_swap.1 (TransGen.mono (fun _ _ h => h.2) _ _ hcycle))⟩
  have hwf : WellFounded (TransGen Below) := Finite.wellFounded_of_trans_of_irrefl _
  induction offset using hwf.induction generalizing pos deltaChain with
  | _ offset ih =>
    refine endsAt_of_links hbounded (fun hlost => h ⟨offset, .refl, Or.inl hlost⟩) fun base hlink pos deltaChain => ?_
    refine ih base (.single ⟨h, hlink⟩) (hbounded.link hlink) fun hendless => h ?_
    obtain ⟨last, hchain, hend⟩ := hendless
    exact ⟨last, .head hlink hchain, hend⟩

lemma verifyHeader_eq (hvalid : (dir.verifyHeader (.start file) (ascii "PACK") 2).1 = true) :
    4 ≤ file.length ∧ (dir.verifyHeader (.start file) (ascii "PACK") 2).2 = (⟨file, 4, false⟩ : Stream).read 4 := by
  rw [verifyHeader] at hvalid ⊢
  by_cases hheader : (Stream.start file).block 4 = ascii "PACK"
  · have hlen : 4 ≤ file.length := by
      have hblock := congrArg List.length hheader
      rw [Stream.length_block] at hblock
      exact Nat.le_trans (Nat.le_of_eq hblock.symm) (Nat.min_le_right _ _)
    refine ⟨hlen, ?_⟩
    dsimp only
    rw [if_pos hheader, Stream.read_of_le rfl (by simpa [Stream.start] using hlen)]
    rfl
  · dsimp only at hvalid
    rw [if_neg hheader] at hvalid
    cases hvalid

lemma sound_iff {packFile : Nat} (hends : Ends (fun n => dir.getPackFileOffset n objectHash) (.ok (packFile, offset)))
    (hvalid : (dir.verifyHeader (.start (dir.packFile packFile)) (ascii "PACK") 2).1 = true) :
    dir.Sound objectHash ↔ 8 ≤ (dir.packFile packFile).length ∧ ¬ dir.Endless (dir.packFile packFile) offset := by
  constructor
  · intro h
    obtain ⟨hlen, hchain⟩ := h packFile offset hends hvalid
    refine ⟨hlen, fun hendless => ?_⟩
    obtain ⟨base, hreach, hlost | hcycle⟩ := hendless
    · exact (hchain base hreach).1 hlost
    · exact (hchain base hreach).2 hcycle
  · rintro ⟨hlen, hendless⟩ packFile' offset' hends' -
    cases GitDir.Ends.unique hends' hends
    exact ⟨hlen, fun base hreach => ⟨fun hlost => hendless ⟨base, hreach, Or.inl hlost⟩,
      fun hcycle => hendless ⟨base, hreach, Or.inr hcycle⟩⟩⟩

lemma ends_bind {α β : Type} {call : Nat → Call α} {next : Nat → α → Call β} {a : α} {r : Call β}
    (h : Comes .running call (.ok a)) : Ends (fun n => call n >>= next n) r ↔ Ends (fun n => next n a) r := by
  obtain ⟨k, hk⟩ := h.enough
  refine GitDir.ends_congr ⟨k, fun n hn => ?_⟩ r
  rw [hk n hn]
  rfl

/-- Where the chain has an end the objects on it do. -/
lemma ends_resolved (h : dir.EndsAt offset s []) : ∃ r ≠ .error .running, Ends (fun n => do
    let (deltaChain, s) ← dir.chainLoop n n offset s []
    let (baseType, result) ← resolveChain z n deltaChain 0 [] s
    return fmt baseType ++ [32] ++ decimal result.length ++ [0] ++ result) r := by
  obtain ⟨r, hr, k, hk⟩ := h
  cases r with
  | error e =>
    refine ⟨.error e, fun h => hr (congrArg _ (Except.error.inj h)), k, fun n hn => ?_⟩
    dsimp only
    rw [hk n hn n hn]
    rfl
  | ok p =>
    obtain ⟨deltaChain, s'⟩ := p
    obtain ⟨r, hr, hcomes⟩ : Halts Stop.running fun n => do
        let (baseType, result) ← resolveChain z n deltaChain 0 [] s'
        return fmt baseType ++ [32] ++ decimal result.length ++ [0] ++ result :=
      halts_resolveChain.bind fun _ _ => halts_const nofun
    refine ⟨r, hr, (GitDir.ends_congr ⟨k, fun n hn => ?_⟩ r).2 hcomes.enough⟩
    rw [hk n hn n hn]
    rfl

/-- One name, with the first byte 255, and its offset 12. -/
def loopIndex : Bytes :=
  [0xff, 0x74, 0x4f, 0x63, 0, 0, 0, 2] ++ List.replicate 1020 0 ++ [0, 0, 0, 1] ++ 0xff :: List.replicate 23 0 ++ [0,
    0, 0, 12]

/-- A delta with the relative offset 0. -/
def loopPack : Bytes := ascii "PACK" ++ [0, 0, 0, 2, 0, 0, 0, 1, 0x60, 0]

def loopDir : PackDir where
  indexes := [loopIndex]
  packFile := fun _ => loopPack
  buffer := fun _ => List.replicate 20 0

def loopHash : Bytes := ascii "ff" ++ List.replicate 38 48

/-- An inflater that takes nothing. -/
def noZlib : Zlib := ⟨Unit, (), fun _ _ => none⟩

/-- No two bytes next to each other are 255. -/
def Sparse (l : Bytes) : Prop := l.IsChain fun a b => a ≠ 255 ∨ b ≠ 255

lemma sparse_loopIndex : Sparse loopIndex := by
  unfold Sparse
  decide +kernel

lemma word_ne {a b : UInt8} (c d : UInt8) (h : a ≠ 255 ∨ b ≠ 255) :
    UInt32.ofNat ((((0 * 256 + a.toNat) * 256 + b.toNat) * 256 + c.toNat) * 256 + d.toNat) ≠ 0xffffffff := by
  intro heq
  have hmod := congrArg UInt32.toNat heq
  rw [UInt32.toNat_ofNat'] at hmod
  have hsum : ((((0 * 256 + a.toNat) * 256 + b.toNat) * 256 + c.toNat) * 256 + d.toNat) % 2 ^ 32 = 4294967295 := hmod
  have ha := a.toNat_lt
  have hb := b.toNat_lt
  have hc := c.toNat_lt
  have hd := d.toNat_lt
  have hbytes : a.toNat = 255 ∧ b.toNat = 255 := by omega
  rcases h with hne | hne
  · exact hne (UInt8.toNat_inj.1 hbytes.1)
  · exact hne (UInt8.toNat_inj.1 hbytes.2)

lemma ne_of_sparse {l : Bytes} (h : Sparse l) (pos : Nat) (failed : Bool) :
    UInt32.ofNat (loopDir.readBigEndian ⟨l, pos, failed⟩ 4).1 ≠ 0xffffffff := by
  have hblock : Sparse (Stream.block ⟨l, pos, failed⟩ 4) := by
    rw [Stream.block]
    split
    · exact .nil
    · exact (h.drop pos).take 4
  have hlen := Stream.length_block ⟨l, pos, failed⟩ 4
  rw [readBigEndian, Stream.fill]
  generalize Stream.block ⟨l, pos, failed⟩ 4 = block at hblock hlen
  rcases block with _ | ⟨a, _ | ⟨b, _ | ⟨c, _ | ⟨d, _ | ⟨e, rest⟩⟩⟩⟩⟩
  · exact @word_ne 0 0 0 0 (Or.inl (by decide))
  · exact @word_ne a 0 0 0 (Or.inr (by decide))
  · exact word_ne 0 0 (List.isChain_cons_cons.1 hblock).1
  · exact word_ne c 0 (List.isChain_cons_cons.1 hblock).1
  · exact word_ne c d (List.isChain_cons_cons.1 hblock).1
  · simp only [List.length_cons] at hlen
    omega

lemma fst_bucket (dir : PackDir) (s : Stream) (hexInt : Int) :
    (dir.bucket s hexInt).1 = UInt32.ofNat (dir.readBigEndian (s.seekg (8 + hexInt * 4)) 4).1 := by
  rw [bucket]
  dsimp only
  by_cases hpos : 0 < hexInt
  · rw [if_pos hpos]
  · rw [if_neg hpos]

lemma bounded_loopDir (part : Bytes) : loopDir.Bounded part := by
  intro index hindex hexInt _ _
  obtain rfl := List.mem_singleton.1 (List.takeWhile_subset _ hindex)
  have hstream : (loopDir.verifyHeader (.start loopIndex) [0xff, 0x74, 0x4f, 0x63] 2).2 = ⟨loopIndex, 8, false⟩ := rfl
  rw [bucketOf, hstream, fst_bucket]
  by_cases hneg : 8 + hexInt * 4 < 0
  · rw [Stream.seekg_of_neg rfl hneg]
    exact ne_of_sparse sparse_loopIndex _ _
  · obtain ⟨pos, hpos⟩ := Int.eq_ofNat_of_zero_le (Int.not_lt.1 hneg)
    rw [hpos, Stream.seekg_nat rfl]
    exact ne_of_sparse sparse_loopIndex _ _

/-- The offset 12 is in the index. -/
lemma comes_loopHash : Comes .running (fun n => loopDir.getPackFileOffset n loopHash) (.ok (0, 12)) := by
  have hfound : loopDir.getPackFileOffset 4 loopHash = .ok (0, 12) := by decide +kernel
  obtain ⟨r, hr, hcomes⟩ := halts_getPackFileOffset (bounded_loopDir loopHash)
  rcases hcomes.before 4 with hcall | hcall
  · cases hfound.symm.trans hcall
  · rwa [← hfound.symm.trans hcall] at hcomes

lemma endless_loopPack : loopDir.Endless loopPack 12 :=
  ⟨12, .refl, Or.inr (.single (Or.inl ⟨0, rfl, rfl⟩))⟩

end PackDir

end CppExperiments.Cgit

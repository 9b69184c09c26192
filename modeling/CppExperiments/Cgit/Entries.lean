import CppExperiments.Cgit.Index

/-!
# What is read of an index that was written

Entries begin at positions of one residue modulo eight, behind which every entry reads back as long as its name fits the
buffer of the reader. A name that does not is written out of the buffer; that the escape for long names is looked for
at 0xFF and not at 0xFFF does no harm before.
-/

namespace CppExperiments.Cgit

open Reading

variable {pos n : Nat} {e : GitIndexEntry} {ofs shaBin name : Bytes}

/-! ## Numbers -/

lemma yields_readUInt (pos : Nat) (val : UInt32) : Yields readUInt pos (writeUInt val) val := by
  have h := (yields_bigEndian pos 4 val.toNat_lt).map UInt32.ofNat
  rwa [UInt32.ofNat_toNat] at h

lemma yields_readUShort (pos : Nat) (val : UInt16) : Yields readUShort pos (writeUShort val) val := by
  have h := (yields_bigEndian pos 2 val.toNat_lt).map UInt16.ofNat
  rwa [UInt16.ofNat_toNat] at h

@[simp] lemma length_writeUInt (val : UInt32) : (writeUInt val).length = 4 := length_beBytes 4 _

@[simp] lemma length_writeUShort (val : UInt16) : (writeUShort val).length = 2 := length_beBytes 2 _

/-! ## Bit fields -/

lemma and_shiftLeft (x m k : Nat) : x &&& (m <<< k) = ((x >>> k) &&& m) <<< k := by
  apply Nat.eq_of_testBit_eq
  intro i
  rw [Nat.testBit_and, Nat.testBit_shiftLeft, Nat.testBit_shiftLeft, Nat.testBit_and, Nat.testBit_shiftRight]
  by_cases h : k ≤ i
  · rw [Nat.add_sub_cancel' h]
    simp [h]
  · simp [h]

/-- A field of 12 bits with another above it. -/
lemma low_field (h : Nat) {n : Nat} (hn : n < 2 ^ 12) : (h <<< 12 ||| n) &&& 0xFFF = n := by
  rw [← Nat.shiftLeft_add_eq_or_of_lt hn, Nat.and_two_pow_sub_one_eq_mod _ 12, Nat.shiftLeft_eq, Nat.mul_add_mod',
    Nat.mod_eq_of_lt hn]

lemma high_field (h : Nat) {n : Nat} (hn : n < 2 ^ 12) : (h <<< 12 ||| n) >>> 12 = h := by
  rw [← Nat.shiftLeft_add_eq_or_of_lt hn, Nat.shiftLeft_eq, Nat.shiftRight_eq_div_pow]
  omega

lemma high_field_and (h m : Nat) {n : Nat} (hn : n < 2 ^ 12) : (h <<< 12 ||| n) &&& (m <<< 12) = (h &&& m) <<< 12 := by
  rw [and_shiftLeft, high_field h hn]

namespace GitIndexEntry

lemma toNat_mode (h : e.Proper) : e.mode.toNat = e.modeType.toNat <<< 12 ||| e.modePerms.toNat := by
  have htype : e.modeType.toNat < 16 := h.modeType
  have hlt : e.modeType.toNat <<< 12 < 2 ^ 32 := by
    rw [Nat.shiftLeft_eq]
    omega
  rw [mode, UInt32.toNat_or, UInt32.toNat_shiftLeft, UInt16.toNat_toUInt32, UInt16.toNat_toUInt32]
  exact congrArg (· ||| _) (Nat.mod_eq_of_lt hlt)

lemma exists_flagStage (h : e.Proper) : ∃ s < 4, e.flagStage.toNat = s <<< 12 := by
  have hmask : e.flagStage.toNat &&& (3 <<< 12) = e.flagStage.toNat := congrArg UInt16.toNat h.flagStage
  rw [and_shiftLeft] at hmask
  refine ⟨(e.flagStage.toNat >>> 12) &&& 3, ?_, hmask.symm⟩
  rw [Nat.and_two_pow_sub_one_eq_mod _ 2]
  exact Nat.mod_lt _ (by decide)

lemma toNat_nameLength (e : GitIndexEntry) : e.nameLength.toNat = min e.name.length 0xFFF := by
  rw [nameLength]
  by_cases h : 0xFFF ≤ e.name.length
  · rw [if_pos h, Nat.min_eq_right h]
    rfl
  · rw [if_neg h, UInt16.toNat_ofNat', Nat.mod_eq_of_lt (by omega), Nat.min_eq_left (by omega)]

lemma nameLength_lt (e : GitIndexEntry) : e.nameLength.toNat < 2 ^ 12 := by
  rw [toNat_nameLength]
  omega

def validBit (e : GitIndexEntry) : Nat := if e.assumeValid then 8 else 0

/-- The three fields of the flags. -/
lemma toNat_flag {s : Nat} (hs : e.flagStage.toNat = s <<< 12) :
    e.flag.toNat = (e.validBit ||| s) <<< 12 ||| e.nameLength.toNat := by
  have hvalid : (if e.assumeValid then (1 : UInt16) <<< 15 else 0).toNat = e.validBit <<< 12 := by
    rw [validBit]
    cases e.assumeValid <;> rfl
  rw [flag, UInt16.toNat_or, UInt16.toNat_or, hvalid, hs, Nat.shiftLeft_or_distrib]

lemma flag_nameLength (h : e.Proper) : (e.flag &&& 0xFFF).toNat = e.nameLength.toNat := by
  obtain ⟨s, -, hs⟩ := exists_flagStage h
  rw [UInt16.toNat_and, toNat_flag hs]
  exact low_field _ e.nameLength_lt

lemma flag_flagStage (h : e.Proper) : e.flag &&& 0x3000 = e.flagStage := by
  obtain ⟨s, hlt, hs⟩ := exists_flagStage h
  apply UInt16.toNat_inj.1
  have hand : (e.validBit ||| s) &&& 3 = s := by
    rw [validBit]
    cases e.assumeValid <;> interval_cases s <;> rfl
  rw [UInt16.toNat_and, toNat_flag hs, hs]
  exact (high_field_and (e.validBit ||| s) 3 e.nameLength_lt).trans (congrArg (· <<< 12) hand)

lemma flag_assumeValid (h : e.Proper) : decide (e.flag &&& 0x8000 ≠ 0) = e.assumeValid := by
  obtain ⟨s, hlt, hs⟩ := exists_flagStage h
  have hand : (e.validBit ||| s) &&& 8 = e.validBit := by
    rw [validBit]
    cases e.assumeValid <;> interval_cases s <;> rfl
  have hbit : (e.flag &&& 0x8000).toNat = e.validBit <<< 12 := by
    rw [UInt16.toNat_and, toNat_flag hs]
    exact (high_field_and (e.validBit ||| s) 8 e.nameLength_lt).trans (congrArg (· <<< 12) hand)
  have hiff : e.flag &&& 0x8000 ≠ 0 ↔ e.assumeValid = true := by
    rw [Ne, ← UInt16.toNat_inj, hbit, validBit]
    cases e.assumeValid <;> decide
  exact Bool.eq_iff_iff.2 (decide_eq_true_iff.trans hiff)

lemma toNat_lower_mode (h : e.Proper) : e.mode.toUInt16.toNat = e.modeType.toNat <<< 12 ||| e.modePerms.toNat := by
  have htype : e.modeType.toNat < 16 := h.modeType
  have hperms : e.modePerms.toNat < 512 := h.modePerms
  have hlt : e.modePerms.toNat < 2 ^ 12 := by omega
  rw [UInt32.toNat_toUInt16, toNat_mode h, ← Nat.shiftLeft_add_eq_or_of_lt hlt, Nat.shiftLeft_eq]
  omega

lemma mode_modeType (h : e.Proper) : e.mode.toUInt16 >>> 12 = e.modeType := by
  have hperms : e.modePerms.toNat < 512 := h.modePerms
  apply UInt16.toNat_inj.1
  rw [UInt16.toNat_shiftRight, toNat_lower_mode h]
  exact high_field _ (by omega)

lemma mode_modePerms (h : e.Proper) : e.mode.toUInt16 &&& 0x1FF = e.modePerms := by
  have hperms : e.modePerms.toNat < 512 := h.modePerms
  have hlt : e.modePerms.toNat < 2 ^ 12 := by omega
  have hmod : (e.modeType.toNat <<< 12 ||| e.modePerms.toNat) % 2 ^ 9 = e.modePerms.toNat := by
    rw [← Nat.shiftLeft_add_eq_or_of_lt hlt, Nat.shiftLeft_eq]
    omega
  apply UInt16.toNat_inj.1
  rw [UInt16.toNat_and, toNat_lower_mode h]
  exact (Nat.and_two_pow_sub_one_eq_mod _ 9).trans hmod

/-- The upper half of the mode is zero. -/
lemma writeUInt_mode (h : e.Proper) : writeUInt e.mode = [0, 0] ++ writeUShort e.mode.toUInt16 := by
  have htype : e.modeType.toNat < 16 := h.modeType
  have hperms : e.modePerms.toNat < 512 := h.modePerms
  have hlt : e.modePerms.toNat < 2 ^ 12 := by omega
  have hmode : e.mode.toNat / 256 ^ 2 = 0 := by
    rw [toNat_mode h, ← Nat.shiftLeft_add_eq_or_of_lt hlt, Nat.shiftLeft_eq]
    omega
  have hlower : e.mode.toUInt16.toNat = e.mode.toNat := by rw [toNat_lower_mode h, toNat_mode h]
  rw [writeUInt, writeUShort, hlower]
  exact (beBytes_add 2 2 _).trans (by rw [hmode]; rfl)

end GitIndexEntry

/-! ## Positions -/

/-- Entries begin a multiple of eight bytes behind the header. -/
def Aligned (pos : Nat) : Prop := ∃ k, pos = 12 + 8 * k

lemma padCount_add (h : Aligned pos) (n : Nat) : padCount (pos + n) = padCount (12 + n) := by
  obtain ⟨k, rfl⟩ := h
  rw [padCount, padCount]
  omega

lemma Aligned.add_padCount (h : Aligned pos) (n : Nat) : Aligned (pos + (n + padCount (12 + n))) := by
  obtain ⟨k, rfl⟩ := h
  have hmod : (n + padCount (12 + n)) % 8 = 0 := by
    rw [padCount]
    omega
  exact ⟨k + (n + padCount (12 + n)) / 8, by omega⟩

namespace GitIndexEntry

/-- The fields in front of the name. -/
def fields (e : GitIndexEntry) (shaBin : Bytes) : Bytes :=
  writeUInt e.ctime.seconds ++ (writeUInt e.ctime.nanoseconds ++ (writeUInt e.mtime.seconds ++
    (writeUInt e.mtime.nanoseconds ++ (writeUInt e.dev ++ (writeUInt e.inode ++ (writeUInt e.mode ++
    (writeUInt e.uid ++ (writeUInt e.gid ++ (writeUInt e.fsize ++ (shaBin ++ writeUShort e.flag))))))))))

/-- An entry with the zeros behind it. -/
def text (e : GitIndexEntry) : Bytes :=
  e.fields ((sha2Binary e.sha).getD []) ++ (e.name ++ 0 :: zeros (padCount (12 + (63 + e.name.length))))

lemma length_fields (e : GitIndexEntry) (h : shaBin.length = 20) : (e.fields shaBin).length = 62 := by
  simp [fields, h]

lemma length_shaBin (h : e.Proper) : ((sha2Binary e.sha).getD []).length = 20 := by
  obtain ⟨shaBin, hsha, hlength, -⟩ := exists_sha2Binary h.sha
  rw [hsha]
  exact hlength

lemma length_text (h : e.Proper) : e.text.length = 63 + e.name.length + padCount (12 + (63 + e.name.length)) := by
  rw [text, List.length_append, length_fields e (length_shaBin h), List.length_append, List.length_cons, length_zeros]
  omega

lemma aligned_text (h : e.Proper) (hpos : Aligned pos) : Aligned (pos + e.text.length) := by
  rw [length_text h]
  exact hpos.add_padCount _

lemma write_eq (h : e.Proper) (hofs : Aligned ofs.length) : e.write ofs = some (ofs ++ e.text) := by
  obtain ⟨shaBin, hsha, hlength, -⟩ := exists_sha2Binary h.sha
  have hfields : ofs ++ writeUInt e.ctime.seconds ++ writeUInt e.ctime.nanoseconds ++ writeUInt e.mtime.seconds ++
      writeUInt e.mtime.nanoseconds ++ writeUInt e.dev ++ writeUInt e.inode ++ writeUInt e.mode ++ writeUInt e.uid ++
      writeUInt e.gid ++ writeUInt e.fsize ++ shaBin ++ writeUShort e.flag ++ e.name ++ [0] =
        ofs ++ (e.fields shaBin ++ (e.name ++ [0])) := by
    simp only [fields, List.append_assoc]
  have hpad : padCount (ofs ++ (e.fields shaBin ++ (e.name ++ [0]))).length = padCount (12 + (63 + e.name.length)) := by
    rw [List.length_append, padCount_add hofs, List.length_append, length_fields e hlength, List.length_append,
      List.length_singleton]
    congr 1
    omega
  rw [write, text, hsha]
  show some _ = _
  rw [hfields, hpad, Option.getD_some, List.append_assoc, List.append_assoc, List.append_assoc, List.singleton_append]

/-! ## One entry -/

/-- The name, and what is behind it. -/
def rest (e : GitIndexEntry) : Reading GitIndexEntry := do
  let name ← readName e.nameLength.toNat
  let pos ← tell
  seek (padCount pos)
  return { e with name := name }

theorem becomes_readEntry (h : e.Proper) (pos : Nat) :
    Becomes readEntry pos (e.fields ((sha2Binary e.sha).getD [])) e.rest := by
  obtain ⟨shaBin, hsha, hlength, hprint⟩ := exists_sha2Binary h.sha
  rw [hsha, Option.getD_some, fields, writeUInt_mode h, List.append_assoc, ← List.append_nil (writeUShort e.flag)]
  refine .bind (yields_readUInt _ _) ?_
  refine .bind (yields_readUInt _ _) ?_
  refine .bind (yields_readUInt _ _) ?_
  refine .bind (yields_readUInt _ _) ?_
  refine .bind (yields_readUInt _ _) ?_
  refine .bind (yields_readUInt _ _) ?_
  refine .bind (yields_seek _ rfl) ?_
  refine .bind (yields_readUShort _ _) ?_
  refine .bind (yields_readUInt _ _) ?_
  refine .bind (yields_readUInt _ _) ?_
  refine .bind (yields_readUInt _ _) ?_
  refine .bind (yields_read _ hlength) ?_
  refine .bind (yields_readUShort _ _) ?_
  rw [flag_nameLength h, flag_flagStage h, flag_assumeValid h, mode_modeType h, mode_modePerms h, hprint]
  exact .refl _ _

end GitIndexEntry

/-! ## Names -/

/-- What the reader takes of the zeros behind the one at the end of the name. -/
def taken (name : Bytes) : Nat := if name.length = 0xFF then 1 else 0

lemma yields_readName (h : name.length < rawNameSize) (pos : Nat) :
    Yields (readName name.length) pos (name ++ 0 :: zeros (taken name)) name := by
  intro rest
  have htext : name ++ 0 :: zeros (taken name) ++ rest = (name ++ [0]) ++ (zeros (taken name) ++ rest) := by
    rw [List.append_assoc, List.append_assoc, List.cons_append, List.singleton_append]
  have hlength : (name ++ [0]).length = name.length + 1 := by rw [List.length_append, List.length_singleton]
  have hfits : ¬ (rawNameSize < name.length + 1 ∨ rawNameSize < name.length) := by omega
  rw [readName, htext, List.take_left' hlength, hlength, if_neg hfits, List.drop_left' hlength, List.append_assoc,
    List.take_left' rfl, taken]
  by_cases hname : name.length = 0xFF
  · have hzeros : zeros 1 ++ rest = 0 :: rest := rfl
    rw [if_pos hname, if_pos hname, hzeros, List.takeWhile_cons_of_neg (by decide), List.length_append]
    refine (if_pos (Nat.succ_pos _)).trans ?_
    rw [List.append_nil]
    rfl
  · have hzeros : zeros 0 ++ rest = rest := rfl
    rw [if_neg hname, if_neg hname, hzeros, List.length_append]
    rfl

/-- A name that does not fit the buffer. -/
lemma fails_readName (h : rawNameSize ≤ n) (hle : n ≤ name.length) (pos : Nat) (bs : Bytes) :
    Fails (readName n) pos (name ++ 0 :: bs) := by
  intro rest
  have hlength : (List.take (n + 1) (name ++ 0 :: bs ++ rest)).length = n + 1 := by
    rw [List.length_take, List.length_append, List.length_append, List.length_cons]
    omega
  rw [readName]
  exact if_pos (.inl (by rw [hlength]; omega))

namespace GitIndexEntry

theorem yields_rest (h : e.name.length < rawNameSize) (hpos : Aligned pos) :
    Yields e.rest (pos + 62) (e.name ++ 0 :: zeros (padCount (12 + (63 + e.name.length)))) e := by
  have hname := yields_readName h (pos + 62)
  have hlt : e.name.length < 256 := h
  have hlength : e.nameLength.toNat = e.name.length := by
    rw [toNat_nameLength]
    omega
  have hpad : padCount (12 + (63 + e.name.length)) =
      taken e.name + padCount (pos + 62 + (e.name.length + (taken e.name + 1))) := by
    rw [Nat.add_assoc, padCount_add hpos, taken, padCount, padCount]
    split <;> omega
  have htext : e.name ++ 0 :: zeros (padCount (12 + (63 + e.name.length))) =
      (e.name ++ 0 :: zeros (taken e.name)) ++
        (zeros (padCount (pos + 62 + (e.name.length + (taken e.name + 1)))) ++ []) := by
    rw [hpad, zeros_add, List.append_nil, List.append_assoc, List.cons_append]
  have hend : pos + 62 + (e.name ++ 0 :: zeros (taken e.name)).length =
      pos + 62 + (e.name.length + (taken e.name + 1)) := by
    rw [List.length_append, List.length_cons, length_zeros]
  rw [rest, htext, hlength]
  refine hname.bind (.bind_nil (yields_tell _) ?_)
  rw [hend]
  exact (yields_seek _ (length_zeros _)).bind (.pure _ _)

theorem yields_readEntry (h : e.Proper) (hname : e.name.length < rawNameSize) (hpos : Aligned pos) :
    Yields readEntry pos e.text e := by
  have hrest := yields_rest hname hpos
  rw [← length_fields e (length_shaBin h)] at hrest
  exact (becomes_readEntry h pos).yields hrest

theorem fails_readEntry (h : e.Proper) (hname : ¬ e.name.length < rawNameSize) (pos : Nat) :
    Fails readEntry pos e.text := by
  have hle : 256 ≤ e.name.length := Nat.le_of_not_lt hname
  have hmin : rawNameSize ≤ e.nameLength.toNat ∧ e.nameLength.toNat ≤ e.name.length := by
    rw [toNat_nameLength, rawNameSize]
    omega
  refine (becomes_readEntry h pos).fails ?_
  have hfails := (fails_readName hmin.1 hmin.2 (pos + (e.fields ((sha2Binary e.sha).getD [])).length)
    (zeros (padCount (12 + (63 + e.name.length))))).left (fun name => do
      let pos ← tell
      seek (padCount pos)
      return { e with name := name }) []
  rwa [List.append_nil] at hfails

end GitIndexEntry

/-! ## The file -/

variable {entries : List ProperEntry}

lemma foldlM_write (hofs : Aligned ofs.length) : (entries.map Subtype.val).foldlM GitIndexEntry.write ofs =
    some (ofs ++ entries.flatMap fun e => e.val.text) := by
  induction entries generalizing ofs with
  | nil => rw [List.flatMap_nil, List.append_nil]; rfl
  | cons e entries ih =>
    have hnext : Aligned (ofs ++ e.val.text).length := by
      rw [List.length_append]
      exact GitIndexEntry.aligned_text e.prop hofs
    rw [List.map_cons, List.foldlM_cons, GitIndexEntry.write_eq e.prop hofs]
    exact (ih hnext).trans (by rw [List.flatMap_cons, List.append_assoc])

def header (entries : List ProperEntry) : Bytes :=
  ascii "DIRC" ++ (writeUInt 2 ++ writeUInt (UInt32.ofNat entries.length))

lemma length_header (entries : List ProperEntry) : (header entries).length = 12 := by
  rw [header, List.length_append, List.length_append, length_writeUInt, length_writeUInt]
  rfl

lemma writeToFile_eq (entries : List ProperEntry) :
    (GitIndex.ofEntries entries).writeToFile = some (header entries ++ entries.flatMap fun e => e.val.text) := by
  have hheader : ascii "DIRC" ++ writeUInt 2 ++ writeUInt (UInt32.ofNat entries.length) = header entries := by
    rw [header, List.append_assoc]
  rw [GitIndex.writeToFile, GitIndex.ofEntries, List.length_map, hheader]
  exact foldlM_write ⟨0, length_header entries⟩

/-- The entries of an index. -/
def readEntries (count : Nat) : Reading GitIndex := do
  let entries ← readEntry.times count
  return { entries := entries }

lemma becomes_readIndex (entries : List ProperEntry) :
    Becomes readIndex 0 (header entries) (readEntries (UInt32.ofNat entries.length).toNat) := by
  rw [header, ← List.append_nil (writeUInt (UInt32.ofNat entries.length))]
  refine .bind (yields_read _ rfl) (.bind (yields_readUInt _ _) (.bind (yields_readUInt _ _) ?_))
  rw [if_pos ⟨rfl, rfl⟩]
  exact .refl _ _

lemma flatMap_text (entries : List ProperEntry) :
    (entries.flatMap fun e => e.val.text) = (entries.map Subtype.val).flatMap GitIndexEntry.text :=
  (List.flatMap_map ..).symm

lemma forall_mem_val {P : GitIndexEntry → Prop} (h : ∀ e, e.Proper → P e) : ∀ e ∈ entries.map Subtype.val, P e := by
  intro e he
  obtain ⟨e, -, rfl⟩ := List.mem_map.1 he
  exact h e.val e.prop

/-- What the reader does behind the header decides. -/
lemma restored_iff_readEntries (entries : List ProperEntry) : Restored entries ↔
    (readEntries (UInt32.ofNat entries.length).toNat
      ⟨12, (entries.map Subtype.val).flatMap GitIndexEntry.text⟩).map Prod.fst = some (GitIndex.ofEntries entries) := by
  have hread := becomes_readIndex entries ((entries.map Subtype.val).flatMap GitIndexEntry.text)
  rw [Nat.zero_add, length_header] at hread
  rw [← hread, Restored, writeToFile_eq, flatMap_text]
  constructor
  · rintro ⟨raw, hraw, h⟩
    rwa [← Option.some.inj hraw] at h
  · exact fun h => ⟨_, rfl, h⟩

lemma toNat_count (h : entries.length < 2 ^ 32) :
    (UInt32.ofNat entries.length).toNat = (entries.map Subtype.val).length := by
  rw [UInt32.toNat_ofNat', Nat.mod_eq_of_lt h, List.length_map]

lemma aligned_text : ∀ e ∈ entries.map Subtype.val, ∀ pos, Aligned pos → Aligned (pos + e.text.length) :=
  forall_mem_val fun _ h _ => GitIndexEntry.aligned_text h

theorem restored_of_fits (hname : ∀ e ∈ entries, e.val.name.length < rawNameSize) (hcount : entries.length < 2 ^ 32) :
    Restored entries := by
  have hyields : ∀ e ∈ entries.map Subtype.val, ∀ pos, Aligned pos → Yields readEntry pos e.text e := by
    intro e he pos hpos
    obtain ⟨e, hmem, rfl⟩ := List.mem_map.1 he
    exact GitIndexEntry.yields_readEntry e.prop (hname e hmem) hpos
  have hread : Yields (readEntries (entries.map Subtype.val).length) 12
      ((entries.map Subtype.val).flatMap GitIndexEntry.text) (GitIndex.ofEntries entries) := by
    rw [← List.append_nil (List.flatMap _ _)]
    exact (yields_times ⟨0, rfl⟩ hyields aligned_text).bind (.pure _ _)
  rw [restored_iff_readEntries, toNat_count hcount, ← List.append_nil (List.flatMap _ _), hread]
  rfl

/-- One entry of a name that does not fit is enough. -/
theorem not_restored_of_long (hcount : entries.length < 2 ^ 32)
    (h : ∃ e ∈ entries, ¬ e.val.name.length < rawNameSize) : ¬ Restored entries := by
  have hyields : ∀ e ∈ entries.map Subtype.val, ∀ pos, Aligned pos → e.name.length < rawNameSize →
      Yields readEntry pos e.text e :=
    forall_mem_val fun _ hproper _ hpos hname => GitIndexEntry.yields_readEntry hproper hname hpos
  have hfails : ∀ e ∈ entries.map Subtype.val, ∀ pos, Aligned pos → ¬ e.name.length < rawNameSize →
      Fails readEntry pos e.text :=
    forall_mem_val fun _ hproper pos _ hname => GitIndexEntry.fails_readEntry hproper hname pos
  have hbad : ∃ e ∈ entries.map Subtype.val, ¬ e.name.length < rawNameSize := by
    obtain ⟨e, he, hname⟩ := h
    exact ⟨e.val, List.mem_map_of_mem he, hname⟩
  have hread : Fails (readEntries (entries.map Subtype.val).length) 12
      ((entries.map Subtype.val).flatMap GitIndexEntry.text) := by
    rw [← List.append_nil (List.flatMap _ _)]
    exact (fails_times ⟨0, rfl⟩ hyields aligned_text hfails hbad).left _ _
  rw [restored_iff_readEntries, toNat_count hcount, ← List.append_nil (List.flatMap _ _), hread]
  nofun

/-- The number of entries is written in 32 bits. -/
lemma count_lt_of_restored (h : Restored entries) : entries.length < 2 ^ 32 := by
  obtain ⟨⟨index, s⟩, hread, hindex⟩ := Option.map_eq_some_iff.1 ((restored_iff_readEntries entries).1 h)
  obtain ⟨⟨read, s'⟩, htimes, hread⟩ := Option.bind_eq_some_iff.1 hread
  obtain ⟨rfl, -⟩ := Prod.mk.inj (Option.some.inj hread)
  have hentries : read = entries.map Subtype.val := congrArg GitIndex.entries hindex
  have hlength := (ensures_times (P := fun _ => True) (fun _ _ _ _ => trivial) _ _ _ _ htimes).1
  rw [hentries, List.length_map, UInt32.toNat_ofNat'] at hlength
  rw [hlength]
  exact Nat.mod_lt _ (by decide)

/-- An index is read as it was written exactly if its names fit the buffer of the reader and its entries can be
counted. -/
theorem entries_restored_iff (entries : List ProperEntry) :
    Restored entries ↔ (∀ e ∈ entries, e.val.name.length < rawNameSize) ∧ entries.length < 2 ^ 32 := by
  constructor
  · intro h
    have hcount := count_lt_of_restored h
    refine ⟨fun e he => ?_, hcount⟩
    by_contra hname
    exact not_restored_of_long hcount ⟨e, he, hname⟩ h
  · rintro ⟨hname, hcount⟩
    exact restored_of_fits hname hcount

/-- A name of 256 bytes is one byte too long with the zero behind it. -/
def longEntry : ProperEntry where
  val := ⟨⟨0, 0⟩, ⟨0, 0⟩, 0, 0, 8, 0o644, 0, 0, 0, List.replicate 40 48, 0, false, List.replicate 256 97⟩
  property := ⟨⟨by decide, by decide, ⟨by decide, by decide⟩, by decide⟩, by decide, fun h => by
    have heq := List.eq_of_mem_replicate h
    cases heq⟩

theorem not_restored_longName : ¬ Restored [longEntry] := by
  have hlong : ¬ longEntry.val.name.length < rawNameSize := by
    rw [longEntry, List.length_replicate]
    exact Nat.lt_irrefl _
  exact not_restored_of_long (by decide) ⟨longEntry, List.mem_singleton_self _, hlong⟩

/-! ## Every file -/

lemma ensures_readEntry : Ensures readEntry GitIndexEntry.Sized := by
  refine ensures_bind fun _ => ensures_bind fun _ => ensures_bind fun _ => ensures_bind fun _ => ?_
  refine ensures_bind fun _ => ensures_bind fun _ => ensures_bind fun _ => ensures_bind fun mode => ?_
  refine ensures_bind fun _ => ensures_bind fun _ => ensures_bind fun _ => ?_
  refine (ensures_read 20).bind fun shaBin hlength => ensures_bind fun flags => ?_
  refine ensures_bind fun _ => ensures_bind fun _ => ensures_bind fun _ => .pure ⟨?_, ?_, ?_, ?_⟩
  · show mode.toNat >>> 12 < 16
    have hlt := mode.toNat_lt
    rw [Nat.shiftRight_eq_div_pow]
    omega
  · show mode.toNat &&& 511 < 512
    exact Nat.lt_succ_of_le Nat.and_le_right
  · exact isSha_binary2Sha hlength
  · rw [UInt16.and_assoc, UInt16.and_self]

/-- The entries of any index that is read. -/
theorem GitIndex.sized_of_read {file : Option Bytes} {index : GitIndex} (h : GitIndex.readFromFile file = some index) :
    ∀ e ∈ index.entries, e.Sized := by
  cases file with
  | none =>
    obtain rfl := Option.some.inj h
    exact fun e he => by cases he
  | some raw =>
    have hensures : Ensures readIndex fun index => ∀ e ∈ index.entries, e.Sized := by
      refine ensures_bind fun signature => ensures_bind fun version => ensures_bind fun count => ?_
      by_cases hheader : signature = ascii "DIRC" ∧ version = 2
      · rw [if_pos hheader]
        exact (ensures_times ensures_readEntry _).bind fun _ hall => .pure hall.2
      · rw [if_neg hheader]
        exact fun s index s' hread => by cases hread
    obtain ⟨⟨index', s'⟩, hread, rfl⟩ := Option.map_eq_some_iff.1 h
    exact hensures _ _ _ hread

end CppExperiments.Cgit

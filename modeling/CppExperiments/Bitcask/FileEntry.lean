import CppExperiments.Hash.Crc32

/-!
# Records

The records of a cask file: what is written, and what is read back. Integers are 32 bits wide and written with the
lowest byte first.
-/

namespace CppExperiments.Bitcask

open Hash

def computeCRC (tstamp ksz vsz : Nat) (key val : Bytes) : Nat :=
  let crc32 := CRC32.update CRC32.start (leBytes 4 tstamp ++ leBytes 4 ksz ++ leBytes 4 vsz)
  (CRC32.value (CRC32.update (CRC32.update crc32 key) val)).toNat

structure FileEntry where
  tstamp : Nat
  ksz : Nat
  vsz : Nat
  vstart : Nat
  key : Bytes
  val : Bytes
  deriving DecidableEq

namespace FileEntry

/-- The constructor, at a reading of the clock in milliseconds. -/
def create (now : Nat) (key val : Bytes) (fsz : Nat) : FileEntry where
  tstamp := now % 2 ^ 32
  ksz := key.length % 2 ^ 32
  vsz := val.length % 2 ^ 32
  vstart := (fsz % 2 ^ 32 + 16 + key.length % 2 ^ 32) % 2 ^ 32
  key := key
  val := val

def tombstone (key : Bytes) : FileEntry where
  tstamp := 2 ^ 32 - 1
  ksz := key.length % 2 ^ 32
  vsz := 0
  vstart := 0
  key := key
  val := []

def isTombstone (e : FileEntry) : Bool := decide (e.tstamp = 2 ^ 32 - 1 ∧ e.vsz = 0 ∧ e.val = [])

def header (e : FileEntry) : Bytes :=
  leBytes 4 (computeCRC e.tstamp e.ksz e.vsz e.key e.val) ++ leBytes 4 e.tstamp ++ leBytes 4 e.ksz ++ leBytes 4 e.vsz

def write (e : FileEntry) : Bytes := e.header ++ e.key ++ e.val

/-- How a call of `read` ends: with an entry and the bytes after it, with a checksum that is wrong, or
at the end of the file. -/
inductive Reading where
  | entry (e : FileEntry) (rest : Bytes)
  | invalid
  | eof

/-- `read` at a position of a file, with the bytes from there on. -/
def read (pos : Nat) (bytes : Bytes) : Reading :=
  if bytes.length < 16 then .eof
  else
    let crc := ofLeBytes (bytes.take 4)
    let tstamp := ofLeBytes ((bytes.drop 4).take 4)
    let ksz := ofLeBytes ((bytes.drop 8).take 4)
    let vsz := ofLeBytes ((bytes.drop 12).take 4)
    let body := bytes.drop 16
    if body.length < ksz then .eof
    else
      let key := body.take ksz
      let body := body.drop ksz
      if body.length < vsz then .eof
      else
        let val := body.take vsz
        if computeCRC tstamp ksz vsz key val = crc then
          .entry ⟨tstamp, ksz, vsz, (pos + 16 + ksz) % 2 ^ 32, key, val⟩ (body.drop vsz)
        else .invalid

/-- The sizes fit their fields. -/
structure Sized (e : FileEntry) : Prop where
  tstamp : e.tstamp < 2 ^ 32
  ksz : e.ksz = e.key.length
  vsz : e.vsz = e.val.length
  key : e.key.length < 2 ^ 32
  val : e.val.length < 2 ^ 32

variable {e : FileEntry} {now fsz pos : Nat} {key val rest torn : Bytes}

lemma sized_create (hkey : key.length < 2 ^ 32) (hval : val.length < 2 ^ 32) : (create now key val fsz).Sized where
  tstamp := Nat.mod_lt _ (by decide)
  ksz := Nat.mod_eq_of_lt hkey
  vsz := Nat.mod_eq_of_lt hval
  key := hkey
  val := hval

lemma sized_tombstone (hkey : key.length < 2 ^ 32) : (tombstone key).Sized where
  tstamp := show 2 ^ 32 - 1 < 2 ^ 32 by decide
  ksz := Nat.mod_eq_of_lt hkey
  vsz := rfl
  key := hkey
  val := show 0 < 2 ^ 32 by decide

@[simp] lemma length_header (e : FileEntry) : e.header.length = 16 := by simp [header]

lemma length_write (e : FileEntry) : e.write.length = 16 + e.key.length + e.val.length := by
  simp [write, Nat.add_assoc]

lemma computeCRC_lt (tstamp ksz vsz : Nat) (key val : Bytes) : computeCRC tstamp ksz vsz key val < 2 ^ 32 :=
  BitVec.isLt _

lemma ofLeBytes_field {n : Nat} (h : n < 2 ^ 32) : ofLeBytes (leBytes 4 n) = n := by
  rw [ofLeBytes_leBytes]
  exact Nat.mod_eq_of_lt h

/-- The reader after four fields. -/
lemma read_fields (h : e.Sized) {crc : Nat} (hcrc : crc < 2 ^ 32) (body : Bytes) :
    read pos (leBytes 4 crc ++ leBytes 4 e.tstamp ++ leBytes 4 e.ksz ++ leBytes 4 e.vsz ++ body) =
      if body.length < e.ksz then .eof
      else if (body.drop e.ksz).length < e.vsz then .eof
      else if computeCRC e.tstamp e.ksz e.vsz (body.take e.ksz) ((body.drop e.ksz).take e.vsz) = crc then
        .entry ⟨e.tstamp, e.ksz, e.vsz, (pos + 16 + e.ksz) % 2 ^ 32, body.take e.ksz, (body.drop e.ksz).take e.vsz⟩
          ((body.drop e.ksz).drop e.vsz)
      else .invalid := by
  set bytes := leBytes 4 crc ++ leBytes 4 e.tstamp ++ leBytes 4 e.ksz ++ leBytes 4 e.vsz ++ body with hbytes
  have hlen : ¬ bytes.length < 16 := by
    simp [hbytes]
    omega
  have hfirst : ofLeBytes (bytes.take 4) = crc := by
    conv_rhs => rw [← ofLeBytes_field hcrc]
    simp [hbytes]
  have htstamp : ofLeBytes ((bytes.drop 4).take 4) = e.tstamp := by
    conv_rhs => rw [← ofLeBytes_field h.tstamp]
    simp [hbytes]
  have hksz : ofLeBytes ((bytes.drop 8).take 4) = e.ksz := by
    conv_rhs => rw [← ofLeBytes_field (h.ksz ▸ h.key : e.ksz < 2 ^ 32)]
    simp [hbytes, List.drop_append, List.drop_of_length_le]
  have hvsz : ofLeBytes ((bytes.drop 12).take 4) = e.vsz := by
    conv_rhs => rw [← ofLeBytes_field (h.vsz ▸ h.val : e.vsz < 2 ^ 32)]
    simp [hbytes, List.drop_append, List.drop_of_length_le]
  have hbody : bytes.drop 16 = body := by simp [hbytes, List.drop_append, List.drop_of_length_le]
  rw [read, if_neg hlen]
  simp only [hfirst, htstamp, hksz, hvsz, hbody]

/-- The reader after the header of a record. -/
lemma read_header (h : e.Sized) (body : Bytes) : read pos (e.header ++ body) =
    if body.length < e.ksz then .eof
    else if (body.drop e.ksz).length < e.vsz then .eof
    else if computeCRC e.tstamp e.ksz e.vsz (body.take e.ksz) ((body.drop e.ksz).take e.vsz) =
        computeCRC e.tstamp e.ksz e.vsz e.key e.val then
      .entry ⟨e.tstamp, e.ksz, e.vsz, (pos + 16 + e.ksz) % 2 ^ 32, body.take e.ksz, (body.drop e.ksz).take e.vsz⟩
        ((body.drop e.ksz).drop e.vsz)
    else .invalid :=
  read_fields h (computeCRC_lt _ _ _ _ _) body

/-- What was written is read back. -/
theorem read_write (h : e.Sized) :
    read pos (e.write ++ rest) = .entry { e with vstart := (pos + 16 + e.key.length) % 2 ^ 32 } rest := by
  have hkey : (e.key ++ (e.val ++ rest)).take e.ksz = e.key := by simp [h.ksz]
  have hdrop : (e.key ++ (e.val ++ rest)).drop e.ksz = e.val ++ rest := by simp [h.ksz]
  have hval : (e.val ++ rest).take e.vsz = e.val := by simp [h.vsz]
  have hrest : (e.val ++ rest).drop e.vsz = rest := by simp [h.vsz]
  rw [write, List.append_assoc, List.append_assoc, read_header h, hkey, hdrop, hval, hrest, if_neg, if_neg, if_pos rfl,
    h.ksz]
  · simp [h.vsz]
  · simp [h.ksz]

/-- A record that is cut short ends the file. -/
theorem read_torn (h : e.Sized) (hcut : torn <+: e.write) (hshort : torn.length < e.write.length) :
    read pos torn = .eof := by
  obtain ⟨n, rfl⟩ : ∃ n, torn = e.write.take n := ⟨_, List.prefix_iff_eq_take.1 hcut⟩
  by_cases hn : n < 16
  · rw [read, if_pos]
    rw [List.length_take]
    omega
  · have hsplit : e.write.take n = e.header ++ (e.key ++ e.val).take (n - 16) := by
      rw [write, List.append_assoc, List.take_append, length_header, List.take_of_length_le (by simp; omega)]
    have hless : ((e.key ++ e.val).take (n - 16)).length < e.key.length + e.val.length := by
      rw [hsplit, length_write, List.length_append, length_header] at hshort
      omega
    rw [hsplit, read_header h]
    by_cases hkey : ((e.key ++ e.val).take (n - 16)).length < e.ksz
    · rw [if_pos hkey]
    · rw [if_neg hkey, if_pos]
      rw [h.ksz] at hkey
      rw [List.length_drop, h.ksz, h.vsz]
      omega

/-! ## Damage -/

lemma leBytes_ofLeBytes {b : Bytes} {w : Nat} (h : b.length = w) : leBytes w (ofLeBytes b) = b := by
  refine CRC32.ofLeBytes_injective ?_ ?_
  · rw [length_leBytes, h]
  · rw [ofLeBytes_leBytes, ← h]
    exact Nat.mod_eq_of_lt (ofLeBytes_lt b)

/-- The checksum is that of the bytes behind it. -/
lemma computeCRC_eq (tstamp ksz vsz : Nat) (key val : Bytes) : computeCRC tstamp ksz vsz key val =
    (CRC32.value (CRC32.update CRC32.start
      (leBytes 4 tstamp ++ leBytes 4 ksz ++ leBytes 4 vsz ++ key ++ val))).toNat := by
  rw [computeCRC, CRC32.update_append _ _ val, CRC32.update_append _ _ key]

/-- Other bytes in place of those that the checksum covers, with the sizes as they are. -/
lemma read_damaged (h : e.Sized) (tstamp key val rest : Bytes) (htstamp : tstamp.length = 4)
    (hkey : key.length = e.ksz) (hval : val.length = e.vsz)
    (hne : CRC32.value (CRC32.update CRC32.start (tstamp ++ leBytes 4 e.ksz ++ leBytes 4 e.vsz ++ key ++ val)) ≠
      CRC32.value (CRC32.update CRC32.start (e.write.drop 4))) :
    read pos (leBytes 4 (computeCRC e.tstamp e.ksz e.vsz e.key e.val) ++
      (tstamp ++ leBytes 4 e.ksz ++ leBytes 4 e.vsz ++ key ++ val) ++ rest) = .invalid := by
  have hsized : Sized { e with tstamp := ofLeBytes tstamp, key := key, val := val } := by
    refine ⟨?_, hkey.symm, hval.symm, ?_, ?_⟩
    · have := ofLeBytes_lt tstamp
      rwa [htstamp] at this
    · exact hkey.symm ▸ h.ksz ▸ h.key
    · exact hval.symm ▸ h.vsz ▸ h.val
  have hread : read pos _ = _ := read_fields hsized (computeCRC_lt e.tstamp e.ksz e.vsz e.key e.val)
    (key ++ (val ++ rest))
  have hdrop : (key ++ (val ++ rest)).drop e.ksz = val ++ rest := by rw [← hkey, List.drop_left]
  have htake : (key ++ (val ++ rest)).take e.ksz = key := by rw [← hkey, List.take_left]
  have hval' : (val ++ rest).take e.vsz = val := by rw [← hval, List.take_left]
  have hcovered : e.write.drop 4 = leBytes 4 e.tstamp ++ leBytes 4 e.ksz ++ leBytes 4 e.vsz ++ e.key ++ e.val := by
    simp [write, header]
  have hcrc : computeCRC (ofLeBytes tstamp) e.ksz e.vsz key val ≠ computeCRC e.tstamp e.ksz e.vsz e.key e.val := by
    rw [computeCRC_eq, computeCRC_eq, leBytes_ofLeBytes htstamp, ← hcovered]
    exact fun heq => hne (BitVec.eq_of_toNat_eq heq)
  dsimp only at hread
  rw [leBytes_ofLeBytes htstamp, hdrop, htake, hval', if_neg (by rw [List.length_append]; omega),
    if_neg (by rw [List.length_append]; omega), if_neg hcrc] at hread
  rw [← hread]
  simp only [List.append_assoc]

/-- The check of a record: the checksum of a concatenation, messages that differ in a burst, and records that do. -/
theorem burst_detected :
    (∀ (crc : BitVec 32) (data₁ data₂ : Bytes),
      CRC32.update crc (data₁ ++ data₂) = CRC32.update (CRC32.update crc data₁) data₂) ∧
    (∀ before data₁ data₂ after : Bytes, data₁.length = data₂.length → data₁.length ≤ 4 → data₁ ≠ data₂ →
      CRC32.value (CRC32.update CRC32.start (before ++ data₁ ++ after)) ≠
        CRC32.value (CRC32.update CRC32.start (before ++ data₂ ++ after))) ∧
    ∀ (e : FileEntry) (before data₁ data₂ after rest : Bytes) (pos : Nat), e.Sized →
      e.write = before ++ data₁ ++ after → data₁.length = data₂.length → data₁.length ≤ 4 → data₁ ≠ data₂ →
      4 ≤ before.length → ((before ++ data₂ ++ after).drop 8).take 8 = (e.write.drop 8).take 8 →
      read pos (before ++ data₂ ++ after ++ rest) = .invalid := by
  refine ⟨CRC32.update_append, fun before data₁ data₂ after => CRC32.value_ne_of_burst CRC32.start before after, ?_⟩
  intro e before data₁ data₂ after rest pos hsized hwrite hlength hfour hne hbefore hsizes
  set record := before ++ data₂ ++ after with hrecord
  have hsize : record.length = 16 + e.ksz + e.vsz := by
    have := congrArg List.length hwrite
    rw [length_write] at this
    simp only [List.length_append] at this
    rw [hrecord, hsized.ksz, hsized.vsz]
    simp only [List.length_append]
    omega
  have hcrc : record.take 4 = leBytes 4 (computeCRC e.tstamp e.ksz e.vsz e.key e.val) := by
    have hfirst : e.write.take 4 = record.take 4 := by
      rw [hwrite, hrecord, List.append_assoc, List.append_assoc, List.take_append_of_le_length hbefore,
        List.take_append_of_le_length hbefore]
    rw [← hfirst]
    simp [write, header]
  have hfields : (e.write.drop 8).take 8 = leBytes 4 e.ksz ++ leBytes 4 e.vsz := by
    simp [write, header, List.drop_append, List.drop_of_length_le, List.take_append, List.take_of_length_le]
  have hdrop : ∀ bytes, (before ++ bytes ++ after).drop 4 = before.drop 4 ++ bytes ++ after := by
    intro bytes
    rw [List.append_assoc, List.drop_append_of_le_length hbefore, List.append_assoc]
  have hsplit : record.drop 4 = (record.drop 4).take 4 ++ leBytes 4 e.ksz ++ leBytes 4 e.vsz ++
      (record.drop 16).take e.ksz ++ (record.drop 16).drop e.ksz := by
    rw [List.append_assoc _ (leBytes 4 e.ksz), ← hfields, ← hsizes, List.append_assoc _ _ ((record.drop 16).drop e.ksz),
      List.take_append_drop]
    conv_lhs => rw [← List.take_append_drop 4 (record.drop 4), List.drop_drop,
      ← List.take_append_drop 8 (record.drop (4 + 4)), List.drop_drop]
    rw [List.append_assoc]
  have hdamaged : read pos _ = _ := read_damaged hsized ((record.drop 4).take 4) ((record.drop 16).take e.ksz)
    ((record.drop 16).drop e.ksz) rest (by rw [List.length_take, List.length_drop]; omega)
      (by rw [List.length_take, List.length_drop]; omega)
    (by rw [List.length_drop, List.length_drop]; omega) ?_
  · rwa [← hsplit, ← hcrc, List.take_append_drop] at hdamaged
  · rw [← hsplit, hrecord, hwrite, hdrop, hdrop]
    exact (CRC32.value_ne_of_burst CRC32.start (before.drop 4) after hlength hfour hne).symm

theorem burst_detected_tstamp :
    read 0 (leBytes 4 (computeCRC 0 1 0 [107] []) ++ [7, 0, 0, 0, 1, 0, 0, 0, 0, 0, 0, 0, 107] ++
    []) = .invalid :=
  burst_detected.2.2 ⟨0, 1, 0, 0, [107], []⟩ (leBytes 4 (computeCRC 0 1 0 [107] [])) [0] [7]
    [0, 0, 0, 1, 0, 0, 0, 0, 0, 0, 0, 107] [] 0
    ⟨by decide, by decide, by decide, by decide, by decide⟩ (by decide +kernel) rfl (by decide) (by decide)
    (by decide +kernel) (by decide +kernel)

/-- With another size the checksum covers other bytes, and it can be the same. -/
theorem burst_of_size : ¬ ∀ (e : FileEntry) (before data₁ data₂ after rest : Bytes) (pos : Nat), e.Sized →
    e.write = before ++ data₁ ++ after → data₁.length = data₂.length → data₁.length ≤ 4 → data₁ ≠ data₂ →
    4 ≤ before.length → read pos (before ++ data₂ ++ after ++ rest) = .invalid := by
  intro hall
  have hinvalid := hall ⟨0, 1, 4, 0, [107], [207, 113, 134, 135]⟩
    (leBytes 4 (computeCRC 0 1 4 [107] [207, 113, 134, 135]) ++ [0, 0, 0, 0, 1, 0, 0, 0]) [4] [0]
    [0, 0, 0, 107, 207, 113, 134, 135] [] 0 ⟨by decide, by decide, by decide, by decide, by decide⟩
    (by decide +kernel) rfl (by decide) (by decide) (by decide +kernel)
  have hsized : Sized ⟨0, 1, 0, 0, [107], []⟩ := ⟨by decide, by decide, by decide, by decide, by decide⟩
  have hread : read 0 _ = _ := read_fields hsized (computeCRC_lt 0 1 4 [107] [207, 113, 134, 135])
    [107, 207, 113, 134, 135]
  have hsame : computeCRC 0 1 0 [107] [] = computeCRC 0 1 4 [107] [207, 113, 134, 135] := by decide +kernel
  have hbytes : leBytes 4 (computeCRC 0 1 4 [107] [207, 113, 134, 135]) ++ [0, 0, 0, 0, 1, 0, 0, 0] ++ [0] ++
      [0, 0, 0, 107, 207, 113, 134, 135] ++ [] = leBytes 4 (computeCRC 0 1 4 [107] [207, 113, 134, 135]) ++
      leBytes 4 0 ++ leBytes 4 1 ++ leBytes 4 0 ++ [107, 207, 113, 134, 135] := by decide +kernel
  rw [hbytes] at hinvalid
  rw [if_neg (by decide), if_neg (by decide)] at hread
  have hentry := hread.trans (if_pos hsame)
  exact absurd (hentry.symm.trans hinvalid) nofun

end FileEntry

end CppExperiments.Bitcask

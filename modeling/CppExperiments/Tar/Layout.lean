import CppExperiments.Tar.Header

/-!
# The fields of a header

A header whose numbers fit is its fields one after another, and is read back field by field.
-/

namespace CppExperiments.Tar

/-- The widths of the fields, with what stands between them. -/
def widths : List Nat := [100, 8, 8, 8, 12, 12, 7, 1, 1, 100, 5, 1, 2, 32, 32, 16, 155, 12]

/-- The numbers fit their fields, and the time is not before 1970. -/
structure TarInfo.Fits (t : TarInfo) : Prop where
  mode : t.mode < 8 ^ 8
  uid : t.uid < 8 ^ 8
  gid : t.gid < 8 ^ 8
  size : t.size < 8 ^ 12
  mtime : 0 ≤ t.mtime ∧ t.mtime < 2 ^ 63

/-- The fields of a header with this text for its checksum. -/
def TarInfo.fields (t : TarInfo) (checkSum : Bytes) : List Bytes := [
  padded 0 100 (t.fname.take 100),
  padded 0 8 (writeOInt 7 t.mode),
  padded 0 8 (writeOInt 7 t.uid),
  padded 0 8 (writeOInt 7 t.gid),
  padded 0 12 (writeOInt 11 t.size),
  padded 0 12 (writeOInt 11 (secondsOf t.mtime)),
  padded 0 7 checkSum,
  [32],
  [typeFlag t.ftype],
  padded 0 100 (t.linkName.take 100),
  padded 0 5 (if t.ustar = true then ascii "ustar" else []),
  [0],
  padded 0 2 (if t.ustar = true then ascii "00" else []),
  padded 0 32 (if t.ustar = true then t.uname.take 32 else []),
  padded 0 32 (if t.ustar = true then t.gname.take 32 else []),
  List.replicate 16 0,
  padded 0 155 (if t.ustar = true then t.fprefix.take 155 else []),
  List.replicate 12 0]

/-- The fields before anything is written. -/
def blank : List Bytes := [
  List.replicate 100 0, List.replicate 8 0, List.replicate 8 0, List.replicate 8 0, List.replicate 12 0,
    List.replicate 12 0,
  List.replicate 7 0, List.replicate 1 0, List.replicate 1 0, List.replicate 100 0, List.replicate 5 0,
    List.replicate 1 0,
  List.replicate 2 0, List.replicate 32 0, List.replicate 32 0, List.replicate 16 0, List.replicate 155 0,
    List.replicate 12 0]

/-- The first `k` fields have been written, and the others have not. -/
structure Written (k : Nat) (done rest : List Bytes) : Prop where
  count : done.length = k
  lengths : (done ++ rest).map List.length = widths

variable {t : TarInfo} {fields done rest : List Bytes} {part dest src header : Bytes} {N k n offset w : Nat}

/-! ## Writing -/

lemma length_take_flatten (h : fields.map List.length = widths) (k : Nat) :
    (fields.take k).flatten.length = (widths.take k).sum := by
  rw [List.length_flatten, List.map_take, h]

lemma length_flatten_fields (h : fields.map List.length = widths) : fields.flatten.length = 512 := by
  rw [List.length_flatten, h]
  rfl

namespace Written

lemma blank : Written 0 [] blank := by
  refine ⟨rfl, ?_⟩
  rw [List.nil_append, show Tar.blank = widths.map fun n => List.replicate n 0 from rfl, List.map_map]
  exact (List.map_congr_left fun n _ => List.length_replicate).trans (List.map_id widths)

lemma skip (h : Written k done (part :: rest)) : Written (k + 1) (done ++ [part]) rest :=
  ⟨by rw [List.length_append, h.count, List.length_singleton], by rw [← List.append_cons, h.lengths]⟩

/-- The next field is written. -/
lemma put (h : Written k done (List.replicate n 0 :: rest)) (offset : Nat) (hpart : part.length ≤ n)
    (hoffset : offset = (widths.take k).sum) :
    CppExperiments.put (done ++ List.replicate n 0 :: rest).flatten offset part =
      (done ++ [padded 0 n part] ++ rest).flatten ∧
      Written (k + 1) (done ++ [padded 0 n part]) rest := by
  have hk : (done ++ List.replicate n (0 : UInt8) :: rest)[k]? = some (List.replicate n 0) := by
    rw [List.getElem?_append_right (le_of_eq h.count), h.count, Nat.sub_self]
    rfl
  have hset : (done ++ List.replicate n (0 : UInt8) :: rest).set k (padded 0 n part) =
    done ++ [padded 0 n part] ++ rest := by
    rw [List.set_append_right _ _ (le_of_eq h.count), h.count, Nat.sub_self, List.set_cons_zero, List.append_cons]
  refine ⟨?_, by rw [List.length_append, h.count, List.length_singleton], ?_⟩
  · rw [put_flatten hk (hoffset.trans (length_take_flatten h.lengths k).symm) hpart, hset]
  · rw [← h.lengths, List.map_append, List.map_append, List.map_singleton, length_padded hpart, List.map_append,
      List.map_cons,
      List.length_replicate, List.append_assoc, List.singleton_append]

lemma writeStr (h : Written k done (List.replicate N 0 :: rest)) (offset : Nat) (src : Bytes)
    (hoffset : offset = (widths.take k).sum) (hend : offset + N ≤ 512) :
    Tar.writeStr N (done ++ List.replicate N 0 :: rest).flatten src offset =
        some (done ++ [padded 0 N (src.take N)] ++ rest).flatten ∧
      Written (k + 1) (done ++ [padded 0 N (src.take N)]) rest := by
  obtain ⟨heq, hwritten⟩ := h.put offset (List.length_take_le N src) hoffset
  refine ⟨?_, hwritten⟩
  rw [Tar.writeStr, if_neg (by rw [length_flatten_fields h.lengths]; exact Nat.not_lt.2 hend), heq]

end Written

lemma length_writeOInt {p v : Nat} (hk : 0 < k) (hp : p ≤ k) (hv : v < 8 ^ k) : (writeOInt p v).length ≤ k :=
  length_octalPadded_le hk hp hv

lemma secondsOf_lt (h : 0 ≤ t.mtime ∧ t.mtime < 2 ^ 63) : secondsOf t.mtime < 8 ^ 12 := by
  rw [secondsOf, Int.tdiv_eq_ediv_of_nonneg h.1]
  omega

/-- Everything but the checksum. -/
lemma writeHeader_eq (h : t.Fits) : (t.fields []).map List.length = widths ∧
    t.writeHeader = some (put (t.fields []).flatten 148 (writeOInt 6 (unsignedSum (t.fields []).flatten))) := by
  have hmode : (writeOInt 7 t.mode).length ≤ 8 := length_writeOInt (by decide) (by decide) h.mode
  have huid : (writeOInt 7 t.uid).length ≤ 8 := length_writeOInt (by decide) (by decide) h.uid
  have hgid : (writeOInt 7 t.gid).length ≤ 8 := length_writeOInt (by decide) (by decide) h.gid
  have hsize : (writeOInt 11 t.size).length ≤ 12 := length_writeOInt (by decide) (by decide) h.size
  have hmtime : (writeOInt 11 (secondsOf t.mtime)).length ≤ 12 :=
    length_writeOInt (by decide) (by decide) (secondsOf_lt h.mtime)
  have hspace : [(32 : UInt8)].length ≤ 1 := le_rfl
  have htype : [typeFlag t.ftype].length ≤ 1 := le_rfl
  have hblank : List.replicate 512 (0 : UInt8) = blank.flatten := (flatten_map_replicate 0 widths).symm
  obtain ⟨e₀, h₀⟩ := Written.blank.writeStr 0 t.fname rfl (by decide)
  obtain ⟨e₁, h₁⟩ := h₀.put 100 hmode rfl
  obtain ⟨e₂, h₂⟩ := h₁.put 108 huid rfl
  obtain ⟨e₃, h₃⟩ := h₂.put 116 hgid rfl
  obtain ⟨e₄, h₄⟩ := h₃.put 124 hsize rfl
  obtain ⟨e₅, h₅⟩ := h₄.put 136 hmtime rfl
  obtain ⟨e₇, h₇⟩ := h₅.skip.put 155 hspace rfl
  obtain ⟨e₈, h₈⟩ := h₇.put 156 htype rfl
  obtain ⟨e₉, h₉⟩ := h₈.writeStr 157 t.linkName rfl (by decide)
  have hone : ∀ b : UInt8, padded 0 1 [b] = [b] := fun _ => rfl
  have e₀ : writeStr 100 blank.flatten t.fname 0 = _ := e₀
  rw [TarInfo.writeHeader, hblank, e₀, Option.bind_eq_bind, Option.bind_some]
  dsimp only
  rw [e₁, e₂, e₃, e₄, e₅, List.append_cons, e₇, e₈, e₉, Option.bind_some]
  cases hustar : t.ustar with
  | false =>
    have hfields := h₉.lengths
    rw [if_neg (by decide), Option.bind_some]
    simp only [List.nil_append, List.cons_append, hone] at hfields ⊢
    simp only [TarInfo.fields, hustar, padded_nil, Bool.false_eq_true, if_false]
    exact ⟨hfields, rfl⟩
  | true =>
    obtain ⟨e₁₀, h₁₀⟩ := h₉.writeStr 257 (ascii "ustar") rfl (by decide)
    obtain ⟨e₁₂, h₁₂⟩ := h₁₀.skip.writeStr 263 (ascii "00") rfl (by decide)
    obtain ⟨e₁₃, h₁₃⟩ := h₁₂.writeStr 265 t.uname rfl (by decide)
    obtain ⟨e₁₄, h₁₄⟩ := h₁₃.writeStr 297 t.gname rfl (by decide)
    obtain ⟨e₁₆, h₁₆⟩ := h₁₄.skip.writeStr 345 t.fprefix rfl (by decide)
    rw [if_pos rfl, e₁₀, Option.bind_some, List.append_cons, e₁₂, Option.bind_some, e₁₃, Option.bind_some, e₁₄,
      Option.bind_some,
      List.append_cons, e₁₆, Option.bind_some]
    have hfields := h₁₆.lengths
    simp only [List.nil_append, List.cons_append, hone, show (ascii "ustar").take 5 = ascii "ustar" from rfl,
      show (ascii "00").take 2 = ascii "00" from rfl] at hfields ⊢
    simp only [TarInfo.fields, hustar, padded_nil, if_true]
    exact ⟨hfields, rfl⟩

/-! ## The checksum -/

/-- The sum of the bytes, without a bound. -/
def exactSum (header : Bytes) : Nat := ((summed header).map UInt8.toNat).sum

lemma foldl_mod (bs : Bytes) (acc m : Nat) :
    bs.foldl (fun sum ch => (sum + ch.toNat) % m) (acc % m) = (acc + (bs.map UInt8.toNat).sum) % m := by
  induction bs generalizing acc with
  | nil => rfl
  | cons b bs ih => rw [List.foldl_cons, Nat.mod_add_mod, ih, List.map_cons, List.sum_cons, Nat.add_assoc]

lemma unsignedSum_eq (header : Bytes) : unsignedSum header = exactSum header % 2 ^ 16 := by
  have h := foldl_mod (summed header) 0 (2 ^ 16)
  rwa [Nat.zero_mod, Nat.zero_add] at h

lemma summed_put (h : header.length = 512) (hpart : part.length ≤ 8) :
    summed (put header 148 part) = summed header := by
  refine List.map_congr_left fun i hi => ?_
  by_cases hin : 148 ≤ i ∧ i < 156
  · rw [if_pos hin, if_pos hin]
  · rw [if_neg hin, if_neg hin, List.getD_eq_getElem?_getD, List.getD_eq_getElem?_getD,
      getElem?_put_of_outside (by omega) (by omega)]

/-! ## Reading -/

lemma parseOInt_padded {p v : Nat} (hv : v < 2 ^ w) : parseOInt w (padded 0 n (writeOInt p v)) = some v := by
  have hdigits : (padded 0 n (writeOInt p v)).takeWhile isOctal = writeOInt p v := by
    refine takeWhile_octalPadded fun b hb => ?_
    rw [List.eq_of_mem_replicate (List.mem_of_mem_head? hb)]
    decide
  have hvalue : octalValue (writeOInt p v) = v := octalValue_octalPadded p v
  rw [parseOInt, hdigits, hvalue, if_neg]
  exact not_or.2 ⟨octalPadded_ne_nil p v, Nat.not_le.2 hv⟩

lemma parseOInt_writeOInt {p v : Nat} (hv : v < 2 ^ w) : parseOInt w (writeOInt p v) = some v := by
  have h := parseOInt_padded (n := 0) (p := p) hv
  rwa [padded, Nat.zero_sub, List.replicate_zero, List.append_nil] at h

lemma rstrip_padded (n : Nat) (src : Bytes) : rstrip (padded 0 n src) = rstrip src := by
  have hzeros : ∀ m, (List.replicate m (0 : UInt8)).takeWhile (· != 0) = [] := fun m => by
    cases m with
    | zero => rfl
    | succ m => rw [List.replicate_succ, List.takeWhile_cons_of_neg (by decide)]
  rw [rstrip, padded, List.takeWhile_append, hzeros, List.append_nil, rstrip]
  split
  · exact ((List.takeWhile_prefix _).eq_of_length ‹_›).symm
  · rfl

/-- What is read of a header: names that are cut, and whole seconds. -/
def TarInfo.recovered (t : TarInfo) (uninitialised : Bool) (blockOffset : Nat) : TarInfo where
  fname := rstrip (t.fname.take 100)
  mode := t.mode
  uid := t.uid
  gid := t.gid
  blockOffset := blockOffset
  size := t.size
  mtime := t.mtime / 10 ^ 9 * 10 ^ 9
  ftype := t.ftype
  linkName := rstrip (t.linkName.take 100)
  ustar := t.ustar || uninitialised
  uname := if t.ustar = true then rstrip (t.uname.take 32) else []
  gname := if t.ustar = true then rstrip (t.gname.take 32) else []
  fprefix := if t.ustar = true then rstrip (t.fprefix.take 155) else []

lemma field_of_widths (h : fields.map List.length = widths) (k offset n : Nat) {l : Bytes} (hk : fields[k]? = some l)
    (hoffset : offset = (widths.take k).sum) (hn : widths[k]? = some n) : field fields.flatten offset n = l := by
  refine field_flatten hk (hoffset.trans (length_take_flatten h k).symm) ?_
  rw [← h, List.getElem?_map, hk, Option.map_some] at hn
  exact (Option.some.inj hn).symm

/-- The fields are read one by one. -/
lemma readHeader_fields (h : t.Fits) {checkSum : Bytes} (hwidths : (t.fields checkSum).map List.length = widths)
    (hcheck : parseOInt 32 (field (t.fields checkSum).flatten 148 6) = some (unsignedSum (t.fields checkSum).flatten))
    (uninitialised : Bool) (blockOffset : Nat) :
    TarInfo.readHeader uninitialised (t.fields checkSum).flatten blockOffset =
      some (t.recovered uninitialised blockOffset) := by
  have hread := fun k => field_of_widths hwidths k
  have hmode := hread 1 100 8 rfl rfl rfl
  have huid := hread 2 108 8 rfl rfl rfl
  have hgid := hread 3 116 8 rfl rfl rfl
  have hsize := hread 4 124 12 rfl rfl rfl
  have hmtime := hread 5 136 12 rfl rfl rfl
  have htype := hread 8 156 1 rfl rfl rfl
  have hname := hread 0 0 100 rfl rfl rfl
  have hlink := hread 9 157 100 rfl rfl rfl
  have hmagic := hread 10 257 5 rfl rfl rfl
  have hversion := hread 12 263 2 rfl rfl rfl
  have huname := hread 13 265 32 rfl rfl rfl
  have hgname := hread 14 297 32 rfl rfl rfl
  have hpre := hread 16 345 155 rfl rfl rfl
  rw [TarInfo.readHeader, if_neg (not_not.2 (length_flatten_fields hwidths)), hcheck, Option.bind_eq_bind,
    Option.bind_some,
    if_neg (fun hne => hne.1 rfl), hmode, parseOInt_padded (h.mode.trans (by decide)), Option.bind_some, huid,
    parseOInt_padded (h.uid.trans (by decide)), Option.bind_some, hgid, parseOInt_padded (h.gid.trans (by decide)),
    Option.bind_some, hsize, parseOInt_padded (h.size.trans (by decide)), Option.bind_some, hmtime,
    parseOInt_padded ((secondsOf_lt h.mtime).trans (by decide)), Option.bind_some, htype, hname, hlink, hmagic,
      hversion, huname,
    hgname, hpre]
  have hisUstar : decide (padded 0 5 (if t.ustar = true then ascii "ustar" else []) = ascii "ustar") = t.ustar := by
    cases t.ustar <;> decide
  have hknown : ¬ (t.ustar = true ∧ padded 0 2 (if t.ustar = true then ascii "00" else []) ≠ ascii "00") := by
    cases t.ustar <;> decide
  have hseconds : (secondsOf t.mtime : Int).bmod (2 ^ 64) * 10 ^ 9 = t.mtime / 10 ^ 9 * 10 ^ 9 := by
    obtain ⟨hle, hlt⟩ := h.mtime
    have hsame : (secondsOf t.mtime : Int) = t.mtime / 10 ^ 9 := by
      rw [secondsOf, Int.tdiv_eq_ediv_of_nonneg hle]
      omega
    rw [hsame, Int.bmod_eq_of_le (by omega) (by omega)]
  have hnames : ∀ src N, (if t.ustar = true then rstrip (padded 0 N (if t.ustar = true then src else [])) else []) =
      if t.ustar = true then rstrip src else [] := fun src N => by
    cases t.ustar with
    | false => rfl
    | true => exact rstrip_padded N src
  refine (TarInfo.bind_typeFlag t.ftype _).trans ?_
  dsimp only
  rw [hisUstar, if_neg hknown, hseconds, hnames, hnames, hnames, rstrip_padded, rstrip_padded]
  rfl

lemma set_checkSum (checkSum : Bytes) : (t.fields []).set 6 (padded 0 7 checkSum) = t.fields checkSum := rfl

/-- The header that is written, its checksum, and what is read of it. -/
lemma writeHeader_readHeader (h : t.Fits) (uninitialised : Bool) (blockOffset : Nat) :
    ∃ header, t.writeHeader = some header ∧ header.length = 512 ∧
      parseOInt 32 (field header 148 6) = some (exactSum header % 2 ^ 16) ∧
      TarInfo.readHeader uninitialised header blockOffset = some (t.recovered uninitialised blockOffset) := by
  obtain ⟨hwidths, hwrite⟩ := writeHeader_eq h
  have hsum : unsignedSum (t.fields []).flatten < 8 ^ 6 := by
    rw [unsignedSum_eq]
    omega
  have hlength : (writeOInt 6 (unsignedSum (t.fields []).flatten)).length = 6 := length_octalPadded (by decide) hsum
  have hput : put (t.fields []).flatten 148 (writeOInt 6 (unsignedSum (t.fields []).flatten)) = _ :=
    put_flatten (n := 7) (rfl : (t.fields [])[6]? = some (List.replicate 7 0)) (length_take_flatten hwidths 6).symm
      (by omega)
  have hsame : unsignedSum (put (t.fields []).flatten 148 (writeOInt 6 (unsignedSum (t.fields []).flatten))) =
      unsignedSum (t.fields []).flatten := by
    rw [unsignedSum, summed_put (length_flatten_fields hwidths) (by omega)]
    rfl
  rw [set_checkSum] at hput
  have hwidths' : (t.fields (writeOInt 6 (unsignedSum (t.fields []).flatten))).map List.length = widths := by
    rw [← set_checkSum, List.map_set, hwidths, length_padded (by omega)]
    rfl
  have hcheck : parseOInt 32 (field (t.fields (writeOInt 6 (unsignedSum (t.fields []).flatten))).flatten 148 6) =
      some (unsignedSum (t.fields (writeOInt 6 (unsignedSum (t.fields []).flatten))).flatten) := by
    rw [field_take (by decide : 6 ≤ 7), field_of_widths hwidths' 6 148 7 rfl rfl rfl, padded, List.take_left' hlength,
      ← hput, hsame,
      parseOInt_writeOInt (hsum.trans (by decide))]
  refine ⟨_, hwrite, ?_, ?_, ?_⟩
  · rw [hput, length_flatten_fields hwidths']
  · rw [hput, hcheck, unsignedSum_eq]
  · rw [hput]
    exact readHeader_fields h hwidths' hcheck uninitialised blockOffset

/-- With numbers that fit, a header of 512 bytes is written and accepted, with the names cut to their fields and the
time in whole seconds; the checksum is the sum of the bytes where that has 16 bits. -/
theorem recovers_of_fits (h : t.Fits) (uninitialised : Bool) (blockOffset : Nat) :
    ∃ header, t.writeHeader = some header ∧ header.length = 512 ∧
      (exactSum header < 2 ^ 16 → parseOInt 32 (field header 148 6) = some (exactSum header)) ∧
      TarInfo.readHeader uninitialised header blockOffset = some (t.recovered uninitialised blockOffset) := by
  obtain ⟨header, hwrite, hlength, hcheck, hread⟩ := writeHeader_readHeader h uninitialised blockOffset
  refine ⟨header, hwrite, hlength, fun hsum => ?_, hread⟩
  rw [hcheck, Nat.mod_eq_of_lt hsum]

def textFile : TarInfo where
  fname := ascii "notes/a.txt"
  mode := 420
  uid := 1000
  gid := 1000
  blockOffset := 512
  size := 7
  mtime := 1700000000 * 10 ^ 9
  ftype := .NORMAL
  linkName := []
  ustar := true
  uname := ascii "root"
  gname := ascii "root"
  fprefix := []

lemma textFile_fits : textFile.Fits := ⟨by decide, by decide, by decide, by decide, by decide, by decide⟩

theorem recovers_of_fits_textFile : ∃ header, textFile.writeHeader = some header ∧ header.length = 512 ∧
    (exactSum header < 2 ^ 16 → parseOInt 32 (field header 148 6) = some (exactSum header)) ∧
    TarInfo.readHeader false header 512 = some (textFile.recovered false 512) :=
  recovers_of_fits textFile_fits false 512

/-- A name of 101 characters. -/
def longNamed : TarInfo := { textFile with fname := List.replicate 101 97 }

/-- The header is written without an exception, and the name that is read is another. -/
theorem not_recovers_longNamed : ∃ header, longNamed.writeHeader = some header ∧ ∀ uninitialised blockOffset,
    (TarInfo.readHeader uninitialised header blockOffset).map TarInfo.fname = some (List.replicate 100 97) ∧
      List.replicate 100 97 ≠ longNamed.fname := by
  have hfits : longNamed.Fits := ⟨by decide, by decide, by decide, by decide, by decide, by decide⟩
  obtain ⟨header, hwrite, -⟩ := writeHeader_readHeader hfits false 0
  refine ⟨header, hwrite, fun uninitialised blockOffset => ?_⟩
  obtain ⟨header', hwrite', -, -, hread⟩ := writeHeader_readHeader hfits uninitialised blockOffset
  obtain rfl := Option.some.inj (hwrite.symm.trans hwrite')
  have hcut : rstrip (longNamed.fname.take 100) = List.replicate 100 97 := by decide
  exact ⟨by rw [hread, Option.map_some, TarInfo.recovered, hcut], by decide⟩

end CppExperiments.Tar

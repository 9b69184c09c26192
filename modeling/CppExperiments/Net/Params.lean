import CppExperiments.Net.Messages

/-!
# Parameters of URLs

How keys and values are encoded in a path, and that they are found there again.
-/

namespace CppExperiments.Net

/-- The path of a URL and its parameters, which are encoded. -/
structure URL where
  path : Bytes := [47]
  params : List (Bytes × Bytes) := []

/-! ## Encoding -/

def isUnreserved (ch : UInt8) : Bool :=
  decide (97 ≤ ch ∧ ch ≤ 122) || decide (65 ≤ ch ∧ ch ≤ 90) || decide (48 ≤ ch ∧ ch ≤ 57) ||
    ch == 45 || ch == 46 || ch == 95 || ch == 126

def upperHex (n : Nat) : UInt8 := (ascii "0123456789ABCDEF").getD n 0

def encodeChar (mapSpaceToPlus : Bool) (ch : UInt8) : Bytes :=
  if ch = 32 ∧ mapSpaceToPlus = true then [43]
  else if isUnreserved ch = true then [ch]
  else [37, upperHex (ch.toNat / 16), upperHex (ch.toNat % 16)]

def encode (str : Bytes) (mapSpaceToPlus : Bool) : Bytes := str.flatMap (encodeChar mapSpaceToPlus)

/-- The rest of a text behind `acc`, a zero and the digits that have come of a code; with the zero there is always a
number. -/
def decodeFrom (acc : Bytes) : Bytes → Bytes
  | [] => []
  | ch :: str =>
    if acc ≠ [] then
      if acc.length = 1 then decodeFrom (acc ++ [ch]) str
      else UInt8.ofNat ((stoulHex (acc ++ [ch])).getD 0) :: decodeFrom [] str
    else if ch = 43 then 32 :: decodeFrom [] str
    else if ch ≠ 37 then ch :: decodeFrom [] str
    else decodeFrom [48] str

def decode (str : Bytes) : Bytes := decodeFrom [] str

/-! ## Paths -/

def extractKV (raw : Bytes) : Bytes × Bytes := (raw.takeWhile (· != 61), (raw.dropWhile (· != 61)).drop 1)

def extractParams (paramPath : Bytes) : List (Bytes × Bytes) :=
  if h : paramPath = [] then []
  else extractKV (paramPath.takeWhile (· != 38)) :: extractParams ((paramPath.dropWhile (· != 38)).drop 1)
  termination_by paramPath.length
  decreasing_by
    have hpos := List.length_pos_of_ne_nil h
    have hle := (List.dropWhile_sublist (· != 38) (l := paramPath)).length_le
    rw [List.length_drop]
    omega

/-- The path and its parameters; `none` where it throws. -/
def getParamsFromPath (path : Bytes) : Option (Bytes × List (Bytes × Bytes)) :=
  if path.head? ≠ some 47 then none
  else some (path.takeWhile (· != 63), extractParams ((path.dropWhile (· != 63)).drop 1))

/-- Each key and value, with a separator behind them. -/
def joinParams (params : List (Bytes × Bytes)) : Bytes := params.flatMap fun kv => kv.1 ++ [61] ++ kv.2 ++ [38]

namespace URL

def setPath (u : URL) (path : Bytes) : Option URL :=
  (getParamsFromPath path).map fun p => { u with path := p.1, params := p.2 }

def getPath (u : URL) : Bytes :=
  if u.params = [] then u.path else (u.path ++ [63] ++ joinParams u.params).dropLast

def setParam (u : URL) (key value : Bytes) :
    URL := { u with params := u.params ++ [(encode key true, encode value true)] }

def getParams (u : URL) : List (Bytes × Bytes) := u.params.map fun pair => (decode pair.1, decode pair.2)

/-- Parameters that are added one after another. -/
def setParams (u : URL) (pairs : List (Bytes × Bytes)) : URL := pairs.foldl (fun u pair => u.setParam pair.1 pair.2) u

/-- The separators are not in the keys and values. -/
def Separable (params : List (Bytes × Bytes)) : Prop := ∀ kv ∈ params, 61 ∉ kv.1 ∧ 38 ∉ kv.1 ∧ 38 ∉ kv.2

end URL

variable {u other : URL} {ch : UInt8} {key value path str : Bytes} {params pairs : List (Bytes × Bytes)}
  {mapSpaceToPlus : Bool}

/-! ## What is encoded -/

lemma not_separator_of_isUnreserved (h : isUnreserved ch = true) : ch ≠ 37 ∧ ch ≠ 38 ∧ ch ≠ 43 ∧ ch ≠ 61 := by
  refine ⟨?_, ?_, ?_, ?_⟩
  all_goals
    rintro rfl
    exact absurd h (by decide)

lemma isUnreserved_upperHex {n : Nat} (h : n < 16) : isUnreserved (upperHex n) = true := by
  have hdigits : ∀ n < 16, isUnreserved (upperHex n) = true := by decide
  exact hdigits n h

lemma mem_encodeChar {b : UInt8} (h : b ∈ encodeChar mapSpaceToPlus ch) : b = 37 ∨ b = 43 ∨ isUnreserved b = true := by
  rw [encodeChar] at h
  by_cases hspace : ch = 32 ∧ mapSpaceToPlus = true
  · rw [if_pos hspace, List.mem_singleton] at h
    exact .inr (.inl h)
  · rw [if_neg hspace] at h
    by_cases hplain : isUnreserved ch = true
    · rw [if_pos hplain, List.mem_singleton] at h
      exact .inr (.inr (h ▸ hplain))
    · have hch := UInt8.toNat_lt ch
      have hhigh := isUnreserved_upperHex (by omega : ch.toNat / 16 < 16)
      have hlow := isUnreserved_upperHex (by omega : ch.toNat % 16 < 16)
      rw [if_neg hplain, List.mem_cons, List.mem_cons, List.mem_singleton] at h
      rcases h with h | rfl | rfl
      · exact .inl h
      · exact .inr (.inr hhigh)
      · exact .inr (.inr hlow)

/-- An encoded text holds unreserved characters, and the marks of spaces and codes. -/
lemma mem_encode {b : UInt8} (h : b ∈ encode str mapSpaceToPlus) : b = 37 ∨ b = 43 ∨ isUnreserved b = true := by
  obtain ⟨ch, -, hb⟩ := List.mem_flatMap.1 h
  exact mem_encodeChar hb

lemma notMem_encode_of {b : UInt8} (h : ¬ (b = 37 ∨ b = 43 ∨ isUnreserved b = true)) (str : Bytes)
    (mapSpaceToPlus : Bool) : b ∉ encode str mapSpaceToPlus := fun hmem => h (mem_encode hmem)

/-- No encoded text holds a separator. -/
lemma notMem_encode (str : Bytes) (mapSpaceToPlus : Bool) :
    61 ∉ encode str mapSpaceToPlus ∧ 38 ∉ encode str mapSpaceToPlus :=
  ⟨notMem_encode_of (by decide) str mapSpaceToPlus, notMem_encode_of (by decide) str mapSpaceToPlus⟩

/-- The code of a character is the number of the character. -/
lemma stoulHex_upperHex (ch : UInt8) :
    stoulHex [48, upperHex (ch.toNat / 16), upperHex (ch.toNat % 16)] = some ch.toNat := by
  have hcodes : ∀ n < 256, stoulHex [48, upperHex (n / 16), upperHex (n % 16)] = some n := by decide +kernel
  exact hcodes ch.toNat (UInt8.toNat_lt ch)

lemma decodeFrom_encodeChar_append (ch : UInt8) (t : Bytes) :
    decodeFrom [] (encodeChar mapSpaceToPlus ch ++ t) = ch :: decodeFrom [] t := by
  rw [encodeChar]
  by_cases hspace : ch = 32 ∧ mapSpaceToPlus = true
  · rw [if_pos hspace, hspace.1]
    rfl
  · rw [if_neg hspace]
    by_cases hplain : isUnreserved ch = true
    · have h := not_separator_of_isUnreserved hplain
      rw [if_pos hplain, List.singleton_append, decodeFrom, if_neg (not_not.2 rfl), if_neg h.2.2.1, if_pos h.1]
    · rw [if_neg hplain]
      have hcode : decodeFrom [] ([37, upperHex (ch.toNat / 16), upperHex (ch.toNat % 16)] ++ t) =
          UInt8.ofNat ((stoulHex [48, upperHex (ch.toNat / 16), upperHex (ch.toNat % 16)]).getD 0) :: decodeFrom
            [] t := rfl
      rw [hcode, stoulHex_upperHex, Option.getD_some, UInt8.ofNat_toNat]

lemma decode_encode (str : Bytes) (mapSpaceToPlus : Bool) : decode (encode str mapSpaceToPlus) = str := by
  rw [decode]
  induction str with
  | nil => rfl
  | cons ch str ih => rw [encode, List.flatMap_cons, decodeFrom_encodeChar_append, ← encode, ih]

/-! ## What is found in a path -/

lemma takeWhile_dropWhile_append {b : UInt8} {l : Bytes} (h : b ∉ l) (rest : Bytes) :
    (l ++ b :: rest).takeWhile (· != b) = l ∧ ((l ++ b :: rest).dropWhile (· != b)).drop 1 = rest := by
  have hall : ∀ c ∈ l, (c != b) = true := fun c hc => bne_iff_ne.2 fun heq => h (heq ▸ hc)
  rw [List.takeWhile_append_of_pos hall, List.dropWhile_append_of_pos hall]
  simp

lemma takeWhile_dropWhile_of_notMem {b : UInt8} {l : Bytes} (h : b ∉ l) :
    l.takeWhile (· != b) = l ∧ (l.dropWhile (· != b)).drop 1 = [] := by
  have hall : ∀ c ∈ l, (c != b) = true := fun c hc => bne_iff_ne.2 fun heq => h (heq ▸ hc)
  rw [List.takeWhile_eq_self_iff.2 hall, List.dropWhile_eq_nil_iff.2 hall, List.drop_nil]
  exact ⟨rfl, rfl⟩

lemma extractKV_append (h : 61 ∉ key) (value : Bytes) : extractKV (key ++ [61] ++ value) = (key, value) := by
  obtain ⟨htake, hdrop⟩ := takeWhile_dropWhile_append h value
  rw [extractKV, List.append_assoc, List.singleton_append, htake, hdrop]

/-- Each piece has its `=`, so that no piece is empty. -/
lemma extractParams_join (h : URL.Separable params) :
    extractParams (joinParams params).dropLast = params := by
  induction params with
  | nil => rw [joinParams, List.flatMap_nil, List.dropLast_nil, extractParams, dif_pos rfl]
  | cons kv params ih =>
    rw [URL.Separable, List.forall_mem_cons] at h
    obtain ⟨⟨hequals, hkey, hvalue⟩, hrest⟩ := h
    have hpiece : 38 ∉ kv.1 ++ [61] ++ kv.2 := by
      rw [List.mem_append, List.mem_append, not_or, not_or]
      exact ⟨⟨hkey, by decide⟩, hvalue⟩
    have hkv : extractKV (kv.1 ++ [61] ++ kv.2) = kv := extractKV_append hequals kv.2
    rw [joinParams, List.flatMap_cons, ← joinParams]
    by_cases hlast : params = []
    · obtain ⟨htake, hdrop⟩ := takeWhile_dropWhile_of_notMem hpiece
      rw [hlast, joinParams, List.flatMap_nil, List.append_nil, List.dropLast_concat, extractParams,
        dif_neg (by simp), htake, hdrop, hkv,
        extractParams, dif_pos rfl]
    · obtain ⟨kv', params, rfl⟩ := List.exists_cons_of_ne_nil hlast
      have hne : joinParams (kv' :: params) ≠ [] := by simp [joinParams]
      have ih := ih hrest
      obtain ⟨htake, hdrop⟩ := takeWhile_dropWhile_append hpiece (joinParams (kv' :: params)).dropLast
      rw [List.dropLast_append_of_ne_nil hne, List.append_assoc _ [38], List.singleton_append, extractParams,
        dif_neg (by simp),
        htake, hdrop, hkv, ih]

lemma notMem_takeWhile (b : UInt8) (l : Bytes) : b ∉ l.takeWhile (· != b) := fun hmem =>
  bne_iff_ne.1 (List.mem_takeWhile_imp (p := fun c => c != b) hmem) rfl

namespace URL

lemma setParams_eq (u : URL) (pairs : List (Bytes × Bytes)) : u.setParams pairs =
    { u with params := u.params ++ pairs.map fun pair => (encode pair.1 true, encode pair.2 true) } := by
  rw [setParams]
  induction pairs generalizing u with
  | nil => rw [List.foldl_nil, List.map_nil, List.append_nil]
  | cons pair pairs ih =>
    rw [List.foldl_cons, ih, setParam, List.map_cons]
    dsimp only
    rw [List.append_assoc, List.singleton_append]

lemma Separable.setParams (h : Separable u.params) (pairs : List (Bytes × Bytes)) :
    Separable (u.setParams pairs).params := by
  rw [setParams_eq]
  intro kv hkv
  rcases List.mem_append.1 hkv with hkv | hkv
  · exact h kv hkv
  · obtain ⟨pair, -, rfl⟩ := List.mem_map.1 hkv
    have hkey := notMem_encode pair.1 true
    have hvalue := notMem_encode pair.2 true
    exact ⟨hkey.1, hkey.2, hvalue.2⟩

/-- What is found in the path of a URL is the path and the parameters. -/
lemma getParamsFromPath_getPath (hpath : u.path.head? = some 47) (hmark : 63 ∉ u.path) (h : Separable u.params) :
    getParamsFromPath u.getPath = some (u.path, u.params) := by
  rw [getPath]
  by_cases hparams : u.params = []
  · obtain ⟨htake, hdrop⟩ := takeWhile_dropWhile_of_notMem hmark
    rw [if_pos hparams, getParamsFromPath, if_neg (not_not.2 hpath), htake, hdrop, extractParams, dif_pos rfl, hparams]
  · obtain ⟨kv, params, heq⟩ := List.exists_cons_of_ne_nil hparams
    have hne : joinParams u.params ≠ [] := by simp [heq, joinParams]
    have hhead : (u.path ++ 63 :: (joinParams u.params).dropLast).head? = some 47 := by
      rw [List.head?_append, hpath, Option.some_or]
    obtain ⟨htake, hdrop⟩ := takeWhile_dropWhile_append hmark (joinParams u.params).dropLast
    rw [if_neg hparams, List.dropLast_append_of_ne_nil hne, List.append_assoc, List.singleton_append, getParamsFromPath,
      if_neg (not_not.2 hhead), htake, hdrop, extractParams_join h]

/-- The path that is made of a URL with parameters gives another one the same path and parameters, and what was encoded
is decoded. -/
theorem setPath_getPath (hpath : u.path.head? = some 47) (hmark : 63 ∉ u.path) (h : Separable u.params)
    (other : URL) (pairs : List (Bytes × Bytes)) :
    (∃ v, other.setPath (u.setParams pairs).getPath = some v ∧ v.path = u.path ∧ v.params = (u.setParams pairs).params ∧
        v.getParams = u.getParams ++ pairs) ∧
      ∀ s b, decode (encode s b) = s := by
  have hall := h.setParams pairs
  rw [setParams_eq] at hall ⊢
  have hread := getParamsFromPath_getPath (u := { u with params := u.params ++ pairs.map fun pair =>
    (encode pair.1 true, encode pair.2 true) }) hpath hmark hall
  refine ⟨⟨⟨u.path, u.params ++ pairs.map fun pair => (encode pair.1 true, encode pair.2 true)⟩, ?_, rfl, rfl, ?_⟩,
    decode_encode⟩
  · rw [setPath, hread, Option.map_some]
  · rw [getParams, List.map_append, List.map_map]
    refine congrArg (u.getParams ++ ·) ((List.map_congr_left fun pair _ => ?_).trans (List.map_id pairs))
    exact Prod.ext (decode_encode pair.1 true) (decode_encode pair.2 true)

theorem setPath_getPath_separators : (∃ v, URL.setPath {} (URL.setParams { path := ascii "/a" } [(ascii "k&=", [32, 255]), ([], []), ([], [])]).getPath =
      some v ∧ v.path = ascii "/a" ∧
      v.params = (URL.setParams { path := ascii "/a" } [(ascii "k&=", [32, 255]), ([], []), ([], [])]).params ∧
      v.getParams = URL.getParams { path := ascii "/a" } ++ [(ascii "k&=", [32, 255]), ([], []), ([], [])]) ∧
    ∀ s b, decode (encode s b) = s :=
  setPath_getPath (u := { path := ascii "/a" }) rfl (by decide) nofun {} _

end URL

end CppExperiments.Net

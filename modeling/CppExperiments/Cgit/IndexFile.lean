import CppExperiments.Cgit.Chains
import CppExperiments.Cgit.PackSearch

/-!
# The files of indexes

The bytes of an index of a pack, and what the search reads in them when no offset in the file is too large for the 32
bits it is computed in.
-/

namespace CppExperiments.Cgit

/-- The name of an object, the checksum of its bytes in the pack, its offset there, and where this stands in the second
table if it does not stand in the first one. -/
structure IndexEntry where
  name : Bytes
  crc : Bytes
  offset : Nat
  slot : Option Nat

namespace IndexEntry

def sha (e : IndexEntry) : Bytes := binary2Sha e.name

/-- The number in the first table. -/
def word (e : IndexEntry) : Nat :=
  match e.slot with
  | none => e.offset
  | some k => 2 ^ 31 + k

structure WellFormed (offsets : List Nat) (e : IndexEntry) : Prop where
  name : e.name.length = 20
  crc : e.crc.length = 4
  offset : e.offset < 2 ^ 63
  direct : e.slot = none → e.offset < 2 ^ 31
  large : ∀ k, e.slot = some k → k < 2 ^ 31 ∧ offsets[k]? = some e.offset

end IndexEntry

/-- The entries in the order of their names, the second table of offsets, and the two checksums at the end. -/
structure IndexFile where
  entries : List IndexEntry
  offsets : List Nat
  trailer : Bytes
  wellFormed : ∀ e ∈ entries, e.WellFormed offsets
  sorted : (entries.map IndexEntry.sha).Pairwise (· < ·)
  count : entries.length < 2 ^ 32
  trailer_length : trailer.length = 40

namespace IndexFile

variable (index : IndexFile)

/-- How many names have a first byte that is not greater. -/
def fanout (b : Nat) : Nat := index.entries.countP fun e => (e.name.headD 0).toNat ≤ b

def header : Bytes :=
  [0xff, 0x74, 0x4f, 0x63, 0, 0, 0, 2] ++ (List.range 256).flatMap fun b => beBytes 4 (index.fanout b)

/-- The tables behind the names. -/
def tables : Bytes := index.entries.flatMap IndexEntry.crc ++ (index.entries.flatMap (fun e => beBytes 4 e.word) ++
  (index.offsets.flatMap (beBytes 8) ++ index.trailer))

def text : Bytes := index.header ++ (index.entries.flatMap IndexEntry.name ++ index.tables)

/-- The names, and the bytes behind them. -/
def pack : Pack where
  shas := index.entries.map IndexEntry.sha
  behind := binary2Sha (index.tables.take 20)
  object := fun _ => none
  names sha hsha := by
    obtain ⟨e, he, rfl⟩ := List.mem_map.1 hsha
    exact isSha_binary2Sha (index.wellFormed e he).name
  sorted := index.sorted

end IndexFile

variable {index : IndexFile} {dir : PackDir} {file : Bytes} {pos w v i : Nat}

/-! ## Where things stand -/

lemma length_flatMap_of_length {α : Type} {f : α → Bytes} {l : List α} (h : ∀ x ∈ l, (f x).length = w) :
    (l.flatMap f).length = l.length * w := by
  induction l with
  | nil => exact (Nat.zero_mul w).symm
  | cons x l ih =>
    rw [List.forall_mem_cons] at h
    rw [List.flatMap_cons, List.length_append, h.1, ih h.2, List.length_cons]
    ring

/-- Pieces of one length stand at its multiples. -/
lemma prefix_drop_flatMap {α : Type} {f : α → Bytes} {l : List α} (h : ∀ x ∈ l, (f x).length = w) {x : α}
    (hi : l[i]? = some x) (rest : Bytes) : f x <+: (l.flatMap f ++ rest).drop (i * w) := by
  induction l generalizing i with
  | nil => cases hi
  | cons y l ih =>
    rw [List.forall_mem_cons] at h
    cases i with
    | zero =>
      rw [List.getElem?_cons_zero, Option.some.injEq] at hi
      rw [Nat.zero_mul, List.drop_zero, List.flatMap_cons, List.append_assoc, hi]
      exact List.prefix_append _ _
    | succ i =>
      have hpos : (i + 1) * w = w + i * w := by ring
      rw [hpos, List.flatMap_cons, List.append_assoc, ← List.drop_drop, List.drop_left' h.1]
      exact ih h.2 hi

namespace IndexFile

lemma length_header (index : IndexFile) : index.header.length = 1032 := by
  have hfan := @length_flatMap_of_length 4 Nat (fun b => beBytes 4 (index.fanout b)) (List.range 256) fun b _ =>
    length_beBytes 4 _
  rw [header, List.length_append, hfan, List.length_range]
  rfl

lemma length_names (index : IndexFile) :
    (index.entries.flatMap IndexEntry.name).length = index.entries.length * 20 :=
  length_flatMap_of_length fun e he => (index.wellFormed e he).name

lemma length_tables (index : IndexFile) :
    index.tables.length = index.entries.length * 8 + index.offsets.length * 8 + 40 := by
  have hcrcs : (index.entries.flatMap IndexEntry.crc).length = index.entries.length * 4 :=
    length_flatMap_of_length fun e he => (index.wellFormed e he).crc
  have hwords : (index.entries.flatMap fun e => beBytes 4 e.word).length = index.entries.length * 4 :=
    length_flatMap_of_length fun e _ => length_beBytes 4 _
  have hoffsets : (index.offsets.flatMap (beBytes 8)).length = index.offsets.length * 8 :=
    length_flatMap_of_length fun o _ => length_beBytes 8 o
  rw [tables, List.length_append, List.length_append, List.length_append, hcrcs, hwords, hoffsets,
    index.trailer_length]
  omega

lemma length_text (index : IndexFile) :
    index.text.length = 1032 + index.entries.length * 28 + index.offsets.length * 8 + 40 := by
  rw [text, List.length_append, List.length_append, length_header, length_names, length_tables]
  omega

lemma fanout_at (index : IndexFile) {b : Nat} (hb : b < 256) :
    beBytes 4 (index.fanout b) <+: index.text.drop (8 + b * 4) := by
  have hat := @prefix_drop_flatMap 4 b Nat (fun b => beBytes 4 (index.fanout b)) (List.range 256)
    (fun b _ => length_beBytes 4 _) b (by rw [List.getElem?_range hb])
      (index.entries.flatMap IndexEntry.name ++ index.tables)
  have hmagic : ([0xff, 0x74, 0x4f, 0x63, 0, 0, 0, 2] : Bytes).length = 8 := rfl
  rwa [text, header, List.append_assoc, ← List.drop_drop, List.drop_left' hmagic]

lemma drop_names (index : IndexFile) (k : Nat) :
    index.text.drop (1032 + k) = (index.entries.flatMap IndexEntry.name ++ index.tables).drop k := by
  rw [text, ← List.drop_drop, List.drop_left' (length_header index)]

lemma drop_tables (index : IndexFile) (k : Nat) :
    index.text.drop (1032 + (index.entries.length * 20 + k)) = index.tables.drop k := by
  rw [drop_names, ← List.drop_drop, List.drop_left' (length_names index)]

/-- The names, and the twenty bytes behind them. -/
lemma exists_name (index : IndexFile) (hi : i ≤ index.entries.length) :
    ∃ name : Bytes, name.length = 20 ∧ name <+: index.text.drop (1032 + i * 20) ∧ binary2Sha name =
      index.pack.shaAt i := by
  by_cases hlast : i = index.entries.length
  · have hbehind : index.pack.shaAt i = binary2Sha (index.tables.take 20) := by
      rw [Pack.shaAt, List.getD_eq_getElem?_getD, List.getElem?_eq_none (by simp [pack, hlast]), Option.getD_none]
      rfl
    have hdrop := drop_tables index 0
    refine ⟨index.tables.take 20, ?_, ?_, hbehind.symm⟩
    · rw [List.length_take, length_tables]
      omega
    · rw [hlast, ← Nat.add_zero (index.entries.length * 20), hdrop, List.drop_zero]
      exact List.take_prefix _ _
  · have hlt : i < index.entries.length := by omega
    have hat := List.getElem?_eq_getElem hlt
    refine ⟨index.entries[i].name, (index.wellFormed _ (List.getElem_mem hlt)).name, ?_, ?_⟩
    · rw [drop_names]
      exact prefix_drop_flatMap (fun e he => (index.wellFormed e he).name) hat _
    · rw [Pack.shaAt, List.getD_eq_getElem?_getD, pack, List.getElem?_map, hat]
      rfl

lemma word_at (index : IndexFile) {e : IndexEntry} (hi : index.entries[i]? = some e) :
    beBytes 4 e.word <+: index.text.drop (1032 + index.entries.length * 24 + i * 4) := by
  have hcrcs : (index.entries.flatMap IndexEntry.crc).length = index.entries.length * 4 :=
    length_flatMap_of_length fun e he => (index.wellFormed e he).crc
  have hpos : 1032 + index.entries.length * 24 + i * 4 =
      1032 + (index.entries.length * 20 + (index.entries.length * 4 + i * 4)) := by omega
  rw [hpos, drop_tables, tables, ← List.drop_drop, List.drop_left' hcrcs]
  exact prefix_drop_flatMap (fun e _ => length_beBytes 4 e.word) hi _

lemma offset_at (index : IndexFile) {k offset : Nat} (hk : index.offsets[k]? = some offset) :
    beBytes 8 offset <+: index.text.drop (1032 + index.entries.length * 28 + k * 8) := by
  have hcrcs : (index.entries.flatMap IndexEntry.crc).length = index.entries.length * 4 :=
    length_flatMap_of_length fun e he => (index.wellFormed e he).crc
  have hwords : (index.entries.flatMap fun e => beBytes 4 e.word).length = index.entries.length * 4 :=
    length_flatMap_of_length fun e _ => length_beBytes 4 _
  have hpos : 1032 + index.entries.length * 28 + k * 8 =
      1032 + (index.entries.length * 20 + (index.entries.length * 4 + (index.entries.length * 4 + k * 8))) := by omega
  rw [hpos, drop_tables, tables, ← List.drop_drop, List.drop_left' hcrcs, ← List.drop_drop, List.drop_left' hwords]
  exact prefix_drop_flatMap (fun o _ => length_beBytes 8 o) hk _

end IndexFile

/-! ## Reading -/

namespace PackDir

lemma block_of_prefix {piece : Bytes} (h : piece <+: file.drop pos) :
    (⟨file, pos, false⟩ : Stream).block piece.length = piece :=
  (List.prefix_iff_eq_take.1 h).symm

lemma read_of_prefix {piece : Bytes} (h : piece <+: file.drop pos) :
    (⟨file, pos, false⟩ : Stream).read piece.length = ⟨file, pos + piece.length, false⟩ := by
  rw [Stream.read, block_of_prefix h, decide_eq_false (Nat.lt_irrefl _)]
  rfl

lemma fill_of_prefix {piece : Bytes} (h : piece <+: file.drop pos) (buffer : Bytes) :
    (⟨file, pos, false⟩ : Stream).fill (buffer.take piece.length) piece.length = piece := by
  rw [Stream.fill, block_of_prefix h, List.drop_eq_nil_of_le (List.length_take_le _ _), List.append_nil]

lemma foldl_reverse_eq (bs : Bytes) : bs.reverse.foldl (fun val b => val * 256 + b.toNat) 0 = ofLeBytes bs := by
  rw [List.foldl_reverse]
  induction bs with
  | nil => rfl
  | cons b bs ih =>
    rw [List.foldr_cons, ih, ofLeBytes]
    ring

lemma foldl_beBytes (w v : Nat) (hv : v < 256 ^ w) :
    (beBytes w v).foldl (fun val b => val * 256 + b.toNat) 0 = v := by
  rw [beBytes, foldl_reverse_eq, ofLeBytes_leBytes, Nat.mod_eq_of_lt hv]

/-- A number that stands in a file is read. -/
lemma readBigEndian_of_prefix (dir : PackDir) (h : beBytes w v <+: file.drop pos) (hv : v < 256 ^ w) :
    dir.readBigEndian ⟨file, pos, false⟩ w = (v, ⟨file, pos + w, false⟩) := by
  have hfill := fill_of_prefix h (dir.buffer ⟨file, pos, false⟩)
  have hread := read_of_prefix h
  rw [length_beBytes] at hfill hread
  rw [readBigEndian, hfill, hread, foldl_beBytes w v hv]

lemma readSha_of_prefix (dir : PackDir) {name : Bytes} (hname : name.length = 20) (h : name <+: file.drop pos) :
    dir.readSha ⟨file, pos, false⟩ = binary2Sha name ∧
      (⟨file, pos, false⟩ : Stream).read 20 = ⟨file, pos + 20, false⟩ := by
  have hfill := fill_of_prefix h (dir.buffer ⟨file, pos, false⟩)
  have hread := read_of_prefix h
  rw [hname] at hfill hread
  rw [readSha, hfill]
  exact ⟨rfl, hread⟩

end PackDir

end CppExperiments.Cgit

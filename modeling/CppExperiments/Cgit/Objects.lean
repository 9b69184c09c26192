import CppExperiments.Cgit.PackSearch
import CppExperiments.Cgit.Restoring
import CppExperiments.Cgit.TreeText

/-!
# Objects, wherever they are stored

The objects that the loose files and the packs of a directory hold between them, and when one of them can be read.
-/

namespace CppExperiments.Cgit

/-! ## Objects -/

inductive GitObject where
  | blob (content : Bytes)
  | tree (leaves : List GitLeaf)
  | tag (object : Bytes)
  | commit (root : Bytes)

/-- The data begin with a header of one line. -/
def BeginsWith (key value data : Bytes) : Prop :=
  ∃ rest, data = key ++ 32 :: value ++ [10] ++ rest ∧ 10 ∉ value ∧ rest.head? ≠ some 32

namespace GitObject

def fmt : GitObject → Bytes
  | blob _ => ascii "blob"
  | tree _ => ascii "tree"
  | tag _ => ascii "tag"
  | commit _ => ascii "commit"

/-- What is written of an object behind its header. What is behind the first line of a tag or a commit can be read as
well. -/
def HasData (now : Int) (sha data : Bytes) : GitObject → Prop
  | blob content => data = content
  | tree leaves => GitTree.deserialize data = some leaves
  | tag object => BeginsWith (ascii "object") object data ∧ (GitCommit.deserialize now sha data (ascii "tag")).isSome
  | commit root => BeginsWith (ascii "tree") root data ∧ (GitCommit.deserialize now sha data (ascii "commit")).isSome

end GitObject

namespace GitDir

/-- The objects of a directory. One may be stored more than once, but it is the same everywhere. A ref has a line. -/
structure Holds (dir : GitDir) (now : Int) (objects : Bytes → Option GitObject) : Prop where
  loose : ∀ sha raw, dir.objects.lookup sha = some raw →
    ∃ o data, objects sha = some o ∧ raw = withHeader o.fmt data ∧ o.HasData now sha data
  packed : ∀ index ∈ dir.packs, ∀ i sha, index.pack.shas[i]? = some sha →
    ∃ o data, objects sha = some o ∧ index.pack.object i = some (withHeader o.fmt data) ∧ o.HasData now sha data
  stored : ∀ sha, (objects sha).isSome → sha ∈ dir.objects.map Prod.fst ∨ ∃ index ∈ dir.packs, sha ∈ index.pack.shas
  refs : ∀ path text, dir.files path = some text → ∃ line, text = line ++ [10]

/-- The entries of all packs that are reported for a part of a name. -/
noncomputable def entries (dir : GitDir) (part : Bytes) : List (Pack × Bytes × Nat) :=
  dir.packs.flatMap fun index => (index.pack.entries part).map (Prod.mk index.pack)

/-- The positions at which the indexes are searched for a part fit 32 bits. -/
def Searchable (dir : GitDir) (part : Bytes) : Prop := ∀ index ∈ dir.packs, index.Searchable part

/-- An object is loose, or it can be searched for in the packs. -/
def Located (dir : GitDir) (sha : Bytes) : Prop := sha ∉ dir.objects.map Prod.fst → dir.Searchable sha

/-- An object is loose, or just one entry of the packs is reported for it. -/
def Single (dir : GitDir) (sha : Bytes) : Prop := sha ∈ dir.objects.map Prod.fst ∨ (dir.entries sha).length = 1

end GitDir

lemma GitObject.not_space : ∀ o : GitObject, (32 : UInt8) ∉ o.fmt
  | .blob _ => (by decide : (32 : UInt8) ∉ ascii "blob")
  | .tree _ => (by decide : (32 : UInt8) ∉ ascii "tree")
  | .tag _ => (by decide : (32 : UInt8) ∉ ascii "tag")
  | .commit _ => (by decide : (32 : UInt8) ∉ ascii "commit")

/-! ## The first header -/

section FirstHeader

variable {key value data rest : Bytes} {r r' : Reader} {ch : UInt8} {now : Int} {sha fmt : Bytes} {c : GitCommit}

/-- The first value of a key is there, and it is not continued. -/
def Kept (key value : Bytes) (r : Reader) : Prop :=
  ∃ values, r.data.lookup key = some (value :: values) ∧
    (values = [] → r.key = key → (r.state = .START ∧ r.acc ≠ []) ∨ r.state = .KEY_DONE)

lemma Kept.feed (hkey : key ≠ []) (h : Kept key value r) (hfeed : r.feed ch = some r') : Kept key value r' := by
  obtain ⟨values, hlookup, hready⟩ := h
  rw [Reader.feed] at hfeed
  by_cases hplain : r.state = .BODY_START ∨ (ch ≠ 32 ∧ ch ≠ 10) ∨ (ch = 32 ∧ r.state ≠ .START)
  · rw [if_pos hplain] at hfeed
    obtain rfl := Option.some.inj hfeed
    refine ⟨values, hlookup, fun hnil hk => ?_⟩
    rcases hready hnil hk with ⟨hstate, -⟩ | hstate
    · exact Or.inl ⟨hstate, List.append_ne_nil_of_right_ne_nil _ (List.cons_ne_nil ch [])⟩
    · exact Or.inr hstate
  rw [if_neg hplain] at hfeed
  by_cases hspace : ch = 32
  · rw [if_pos hspace] at hfeed
    by_cases hacc : r.acc = []
    · rw [if_neg (not_not_intro hacc)] at hfeed
      by_cases hdata : r.data = []
      · rw [if_neg (not_not_intro hdata)] at hfeed
        cases hfeed
      · rw [if_pos hdata] at hfeed
        obtain rfl := Option.some.inj hfeed
        refine ⟨values, hlookup, fun hnil hk => ?_⟩
        rcases hready hnil hk with ⟨-, hne⟩ | hstate
        · exact absurd hacc hne
        · exact absurd (Or.inr (Or.inr ⟨hspace, by rw [hstate]; decide⟩)) hplain
    · rw [if_pos hacc] at hfeed
      obtain rfl := Option.some.inj hfeed
      exact ⟨values, hlookup, fun _ _ => Or.inr rfl⟩
  · rw [if_neg hspace] at hfeed
    cases hstate : r.state with
    | START =>
      rw [hstate] at hfeed
      obtain rfl := Option.some.inj hfeed
      exact ⟨values, hlookup, fun _ hk => absurd hk.symm hkey⟩
    | BODY_START => exact absurd (Or.inl hstate) hplain
    | KEY_DONE =>
      rw [hstate] at hfeed
      obtain rfl := Option.some.inj hfeed
      by_cases hk : r.key = key
      · refine ⟨values ++ [r.acc], ?_, fun hnil => absurd hnil (by simp)⟩
        dsimp only
        rw [hk, lookup_alter, hlookup]
        rfl
      · exact ⟨values, by rw [lookup_alter_of_ne (Ne.symm hk), hlookup], fun _ hk' => absurd hk' hk⟩
    | MULTILINE_VAL =>
      rw [hstate] at hfeed
      obtain rfl := Option.some.inj hfeed
      by_cases hk : r.key = key
      · cases values with
        | nil =>
          rcases hready rfl hk with ⟨hstart, -⟩ | hdone
          · exact absurd (hstate.symm.trans hstart) (by decide)
          · exact absurd (hstate.symm.trans hdone) (by decide)
        | cons value' values =>
          refine ⟨extendBack (10 :: r.acc) (value' :: values), ?_, fun hnil => absurd hnil ?_⟩
          · dsimp only
            rw [hk, lookup_alter, hlookup]
            rfl
          · cases values <;> exact List.cons_ne_nil _ _
      · exact ⟨values, by rw [lookup_alter_of_ne (Ne.symm hk), hlookup], fun _ hk' => absurd hk' hk⟩

lemma Kept.reads (hkey : key ≠ []) (h : Kept key value r) (hreads : Reads r data r') : Kept key value r' := by
  induction data generalizing r with
  | nil =>
    obtain rfl := Option.some.inj hreads
    exact h
  | cons ch data ih =>
    obtain ⟨r₁, hfeed, hreads⟩ := Option.bind_eq_some_iff.1 hreads
    exact ih (h.feed hkey hfeed) hreads

/-- The value of the first header is what is read of its key. -/
theorem head_headers (hkey : key ≠ []) (hspace : (32 : UInt8) ∉ key) (hnewline : (10 : UInt8) ∉ key)
    (h : BeginsWith key value data) (hdata : GitCommit.deserialize now sha data fmt = some c) :
    (GitDir.headers c key).head? = some value := by
  obtain ⟨rest, rfl, hvalue, hrest⟩ := h
  obtain ⟨r, hreads, hdata⟩ := Option.bind_eq_some_iff.1 hdata
  obtain ⟨commitUTC, -, hdata⟩ := Option.bind_eq_some_iff.1 hdata
  obtain rfl := Option.some.inj hdata
  have hfirst := @reads_line key [] value [] hkey hspace hnewline hvalue
  rw [List.foldlM_append] at hreads
  obtain ⟨r₁, hr₁, hreads⟩ := Option.bind_eq_some_iff.1 hreads
  obtain rfl := Option.some.inj (hr₁.symm.trans hfirst)
  have hlookup : ∃ values, r.data.lookup key = some (value :: values) := by
    cases rest with
    | nil =>
      obtain rfl := Option.some.inj hreads
      exact ⟨[], by rw [lookup_alter]; rfl⟩
    | cons ch rest =>
      obtain ⟨r₂, hfeed, hreads⟩ := Option.bind_eq_some_iff.1 hreads
      have hkept : Kept key value r₂ := by
        have hch : ch ≠ 32 := fun heq => hrest (by rw [heq]; rfl)
        rw [Reader.feed] at hfeed
        by_cases hline : ch = 10
        · rw [if_neg (by simp [hline]), if_neg hch] at hfeed
          obtain rfl := Option.some.inj hfeed
          exact ⟨[], by rw [lookup_alter]; rfl, fun _ hk => absurd hk.symm hkey⟩
        · rw [if_pos (Or.inr (Or.inl ⟨hch, hline⟩))] at hfeed
          obtain rfl := Option.some.inj hfeed
          exact ⟨[], by rw [lookup_alter]; rfl, fun _ _ => Or.inl ⟨rfl, List.cons_ne_nil ch []⟩⟩
      obtain ⟨values, hlookup, -⟩ := hkept.reads hkey hreads
      exact ⟨values, hlookup⟩
  obtain ⟨values, hlookup⟩ := hlookup
  rw [GitDir.headers, lookup_alter_of_ne hkey, hlookup]
  rfl

end FirstHeader

/-! ## What can be read -/

lemma Pack.isPart_of_isSha {sha : Bytes} (h : IsSha sha) : Pack.IsPart sha := ⟨by rw [h.1]; omega, h.2⟩

lemma Pack.mem_entries {pack : Pack} {sha : Bytes} {i : Nat} (h : pack.shas[i]? = some sha) :
    (sha, i) ∈ pack.entries sha := by
  refine List.mem_append_left _ (List.mem_filter.2 ⟨List.mem_zipIdx_iff_getElem?.2 h, ?_⟩)
  rw [decide_eq_true_iff]

namespace GitDir

variable {dir : GitDir} {now : Int} {objects : Bytes → Option GitObject} {sha part : Bytes} {o : GitObject}

lemma packMatches_eq (hpart : Pack.IsPart part) (hsearch : dir.Searchable part) :
    dir.packMatches part = some (dir.entries part) := by
  have hpacks : ∀ index ∈ dir.packs, ((index.getHashMatchFromIndex part).map fun found =>
      found.1.map (Prod.mk index.pack)) = some ((index.pack.entries part).map (Prod.mk index.pack)) := by
    intro index hindex
    obtain ⟨found, hfound, heq⟩ := Option.map_eq_some_iff.1
      (PackIndex.getHashMatchFromIndex_eq hpart (hsearch index hindex))
    rw [hfound, ← heq]
    rfl
  rw [packMatches, mapM_eq_some hpacks, Option.map_some, entries, List.flatMap_def]

lemma lookup_eq_none_iff : dir.objects.lookup sha = none ↔ sha ∉ dir.objects.map Prod.fst := by
  rw [List.lookup_eq_none_iff]
  simp only [List.mem_map, not_exists, not_and, bne_iff_ne]
  exact ⟨fun h o ho heq => h o ho heq.symm, fun h o ho heq => h o ho heq.symm⟩

/-- An object that is not loose has a number in a pack. -/
lemma Holds.exists_entry (h : dir.Holds now objects) (ho : objects sha = some o)
    (hloose : sha ∉ dir.objects.map Prod.fst) :
    Pack.IsPart sha ∧ ∃ pack, ∃ i, (pack, sha, i) ∈ dir.entries sha ∧
      ∃ data, pack.object i = some (withHeader o.fmt data) ∧ o.HasData now sha data := by
  rcases h.stored sha (by rw [ho]; rfl) with hmem | ⟨index, hindex, hsha⟩
  · exact absurd hmem hloose
  · obtain ⟨i, hi⟩ := List.getElem?_of_mem hsha
    obtain ⟨o', data, ho', hobject, hdata⟩ := h.packed index hindex i sha hi
    obtain rfl := Option.some.inj (ho.symm.trans ho')
    exact ⟨Pack.isPart_of_isSha (index.pack.names sha hsha), index.pack, i,
      List.mem_flatMap.2 ⟨index, hindex, List.mem_map_of_mem (Pack.mem_entries hi)⟩, data, hobject, hdata⟩

theorem Holds.exists_readRaw (h : dir.Holds now objects) (ho : objects sha = some o) (hlocated : dir.Located sha)
    (hsingle : dir.Single sha) :
    ∃ data, dir.readRaw sha = some (withHeader o.fmt data) ∧ o.HasData now sha data := by
  rw [readRaw]
  cases hlookup : dir.objects.lookup sha with
  | some raw =>
    obtain ⟨o', data, ho', rfl, hdata⟩ := h.loose sha raw hlookup
    obtain rfl := Option.some.inj (ho.symm.trans ho')
    exact ⟨data, rfl, hdata⟩
  | none =>
    have hloose := lookup_eq_none_iff.1 hlookup
    obtain ⟨hpart, pack, i, hmem, data, hobject, hdata⟩ := h.exists_entry ho hloose
    rcases hsingle with hmem' | hone
    · exact absurd hmem' hloose
    · obtain ⟨entry, hentries⟩ := List.length_eq_one_iff.1 hone
      rw [hentries, List.mem_singleton] at hmem
      refine ⟨data, ?_, hdata⟩
      rw [packRefResolve, extract, packMatches_eq hpart (hlocated hloose), hentries, ← hmem]
      exact hobject

theorem Holds.readRaw_eq_none (h : dir.Holds now objects) (ho : objects sha = some o) (hlocated : dir.Located sha)
    (hsingle : ¬ dir.Single sha) :
    dir.readRaw sha = none := by
  rw [Single, not_or] at hsingle
  obtain ⟨hpart, pack, i, hmem, -⟩ := h.exists_entry ho hsingle.1
  rw [readRaw, lookup_eq_none_iff.2 hsingle.1]
  dsimp only
  rw [packRefResolve, extract, packMatches_eq hpart (hlocated hsingle.1)]
  simp only [Option.map_some, Option.bind_eq_bind, Option.bind_some]
  rw [if_neg (by simpa using List.ne_nil_of_mem hmem)]
  match hentries : dir.entries sha, hsingle.2 with
  | [], _ => rfl
  | [entry], hone => exact absurd rfl hone
  | _ :: _ :: _, _ => rfl

/-- The type of a stored object. -/
theorem Holds.readObjectType (h : dir.Holds now objects) (ho : objects sha = some o) (hlocated : dir.Located sha)
    (hsingle : dir.Single sha) :
    dir.readObjectType sha = some o.fmt := by
  obtain ⟨data, hraw, -⟩ := h.exists_readRaw ho hlocated hsingle
  rw [GitDir.readObjectType, hraw, Option.map_some, takeWhile_withHeader o.not_space]

/-- What a tag or a commit leads to. -/
theorem Holds.exists_readAs (h : dir.Holds now objects) (ho : objects sha = some o) (hlocated : dir.Located sha)
    (hsingle : dir.Single sha)
    {fmts : List Bytes}
    (hfmt : o.fmt ∈ fmts) : ∀ key next, (o = .tag next ∧ key = ascii "object") ∨ (o = .commit next ∧ key = ascii "tree") →
      ∃ c, dir.readAs now fmts sha = some c ∧ (headers c key).head? = some next := by
  obtain ⟨data, hraw, hdata⟩ := h.exists_readRaw ho hlocated hsingle
  have hread : dir.readAs now fmts sha = GitCommit.deserialize now sha data o.fmt := by
    rw [readAs, hraw, Option.bind_eq_bind, Option.bind_some, readObject_withHeader o.not_space,
      Option.bind_eq_bind, Option.bind_some]
    exact if_pos hfmt
  rintro key next (⟨rfl, rfl⟩ | ⟨rfl, rfl⟩)
  · obtain ⟨c, hc⟩ := Option.isSome_iff_exists.1 hdata.2
    exact ⟨c, hread.trans hc, head_headers (by decide) (by decide) (by decide) hdata.1 hc⟩
  · obtain ⟨c, hc⟩ := Option.isSome_iff_exists.1 hdata.2
    exact ⟨c, hread.trans hc, head_headers (by decide) (by decide) (by decide) hdata.1 hc⟩

end GitDir

end CppExperiments.Cgit

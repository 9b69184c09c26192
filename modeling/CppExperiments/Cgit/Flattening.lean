import CppExperiments.Cgit.Directories
import CppExperiments.Cgit.Entries
import CppExperiments.Cgit.Walking
import CppExperiments.Lib.Tiling

/-!
# The trees of an index, flattened

What is written for a directory is a tree of the leaves below it, by induction from the longest paths up. An entry with
the mode of a directory is taken for a tree and not found again.
-/

namespace CppExperiments.Cgit

open CppExperiments.Path

/-! ## Modes -/

lemma isDigit_of_char {ch : Char} (h : ch.isDigit = true) : isDigit (UInt8.ofNat ch.toNat) = true := by
  rw [Char.isDigit, Bool.and_eq_true] at h
  have hlow : 48 ≤ ch.toNat := of_decide_eq_true h.1
  have hhigh : ch.toNat ≤ 57 := of_decide_eq_true h.2
  generalize ch.toNat = n at hlow hhigh
  interval_cases n <;> rfl

lemma not_mem_octal {b : UInt8} (hb : isDigit b = false) (width n : Nat) : b ∉ octal width n := by
  intro h
  have hdigit : isDigit b = true := by
    rcases List.mem_append.1 h with h | h
    · rw [List.eq_of_mem_replicate h]
      rfl
    · obtain ⟨ch, hch, rfl⟩ := List.mem_map.1 h
      exact isDigit_of_char (Nat.isDigit_of_mem_toDigits (by decide) (by decide) hch)
  rw [hb] at hdigit
  cases hdigit

lemma length_octal {width n : Nat} (hwidth : 0 < width) (h : n < 8 ^ width) : (octal width n).length = width := by
  have hle := (Nat.length_toDigits_le_iff (by decide) hwidth).2 h
  rw [octal, List.length_append, List.length_replicate, List.length_map]
  omega

lemma octal_eq_four (n : Fin 16) : ascii "04" = octal 2 n ↔ n = 4 := by
  revert n
  decide

namespace GitIndexEntry

variable {e : GitIndexEntry}

lemma length_modeType (h : e.Sized) : (octal 2 e.modeType.toNat).length = 2 := by
  have hlt : e.modeType.toNat < 16 := h.modeType
  exact length_octal (by decide) (by omega)

lemma length_modeStr (h : e.Sized) : e.modeStr.length = 6 := by
  have hlt : e.modePerms.toNat < 512 := h.modePerms
  rw [modeStr, List.length_append, length_modeType h, length_octal (by decide) (by omega)]

lemma space_notMem_modeStr (e : GitIndexEntry) : (32 : UInt8) ∉ e.modeStr := by
  rw [modeStr, List.mem_append, not_or]
  exact ⟨not_mem_octal rfl 2 _, not_mem_octal rfl 4 _⟩

/-- Only the mode type 4 is that of a directory. -/
lemma isTree_modeStr (h : e.Sized) : IsTree e.modeStr ↔ e.modeType = 4 := by
  have hlt : e.modeType.toNat < 16 := h.modeType
  have hfour := octal_eq_four ⟨e.modeType.toNat, hlt⟩
  have hlength : (ascii "04").length = 2 := rfl
  rw [IsTree, List.prefix_iff_eq_take, hlength, modeStr, List.take_left' (length_modeType h), hfour, ← UInt16.toNat_inj,
    Fin.ext_iff]
  rfl

end GitIndexEntry

/-! ## The entries below a directory -/

/-- What the paths of an index are. -/
structure Staged (entries : List GitIndexEntry) : Prop where
  sized : ∀ e ∈ entries, e.Sized
  relative : ∀ e ∈ entries, Relative e.name
  nodup : (entries.map GitIndexEntry.name).Nodup
  apart : ∀ e ∈ entries, ∀ e' ∈ entries, ¬ e.name ++ [47] <+: e'.name

/-- The leaves of the entries at a path or below it. -/
def below (entries : List GitIndexEntry) (cs : List Bytes) : List GitLeaf :=
  (entries.filter fun e => cs.isPrefixOf (components e.name)).map GitIndexEntry.leaf

/-- The links of the entries. -/
abbrev links (entries : List GitIndexEntry) : Links := linksOfAll (entries.map fun e => components e.name)

variable {entries : List GitIndexEntry} {e e' : GitIndexEntry} {cs bs : List Bytes} {c : Bytes} {store store' : Store}
  {n : Nat}

lemma links_iff : links entries cs c ↔ ∃ e ∈ entries, cs ++ [c] <+: components e.name := by
  constructor
  · rintro ⟨ns, hns, hlink⟩
    obtain ⟨e, he, rfl⟩ := List.mem_map.1 hns
    exact ⟨e, he, hlink⟩
  · rintro ⟨e, he, hlink⟩
    exact ⟨_, List.mem_map_of_mem he, hlink⟩

lemma Relative.names (h : Relative e.name) : Names (components e.name) ∧ joined (components e.name) = e.name ∧
    components e.name ≠ [] := by
  obtain ⟨-, ns, hne, hns, hname⟩ := h
  rw [hname, components_joined hns]
  exact ⟨hns, rfl, hne⟩

namespace Staged

lemma eq_of_name (h : Staged entries) (he : e ∈ entries) (he' : e' ∈ entries) (hname : e.name = e'.name) : e = e' :=
  List.inj_on_of_nodup_map h.nodup he he' hname

/-- No entry lies below another one. -/
lemma eq_of_isPrefix (h : Staged entries) (he : e ∈ entries) (he' : e' ∈ entries)
    (hpre : components e.name <+: components e'.name) : e = e' := by
  obtain ⟨hnames, hjoined, hne⟩ := (h.relative e he).names
  obtain ⟨hnames', hjoined', -⟩ := (h.relative e' he').names
  by_cases heq : components e.name = components e'.name
  · exact h.eq_of_name he he' (by rw [← hjoined, heq, hjoined'])
  · have hslash := (joined_slash_prefix_iff hnames hnames' hne).2 ⟨hpre, heq⟩
    rw [hjoined, hjoined'] at hslash
    exact absurd hslash (h.apart e he e' he')

lemma names_of_link (h : Staged entries) (hlink : links entries cs c) : Names (cs ++ [c]) := by
  obtain ⟨e, he, hpre⟩ := links_iff.1 hlink
  exact fun d hd => (h.relative e he).names.1 d (hpre.subset hd)

/-- An entry is not a directory. -/
lemma not_links (h : Staged entries) (he : e ∈ entries) (c : Bytes) : ¬ links entries (components e.name) c := by
  intro hlink
  obtain ⟨e', he', hpre⟩ := links_iff.1 hlink
  have heq := h.eq_of_isPrefix he he' ((List.prefix_append _ [c]).trans hpre)
  rw [heq] at hpre
  have hle := hpre.length_le
  rw [List.length_append, List.length_singleton] at hle
  omega

/-- A path of the index is an entry or has a link. -/
lemma entry_or_link (he : e ∈ entries) (hcs : cs <+: components e.name) :
    cs = components e.name ∨ ∃ c, links entries cs c := by
  obtain ⟨ds, hds⟩ := hcs
  cases ds with
  | nil => exact .inl (by rw [← hds, List.append_nil])
  | cons d ds =>
    refine .inr ⟨d, links_iff.2 ⟨e, he, ds, ?_⟩⟩
    rw [← hds, List.append_assoc, List.singleton_append]

lemma below_entry (h : Staged entries) (he : e ∈ entries) : below entries (components e.name) = [e.leaf] := by
  have hmem : ∀ e', e' ∈ (entries.filter fun e' => (components e.name).isPrefixOf (components e'.name)) ↔ e' ∈ [e] := by
    intro e'
    rw [List.mem_filter, List.isPrefixOf_iff_prefix, List.mem_singleton]
    constructor
    · exact fun hfilter => (h.eq_of_isPrefix he hfilter.1 hfilter.2).symm
    · rintro rfl
      exact ⟨he, List.prefix_refl _⟩
  have hnodup : entries.Nodup := h.nodup.of_map
  have hperm := (List.perm_ext_iff_of_nodup (hnodup.filter _) (List.nodup_singleton e)).2 hmem
  rw [below, List.perm_singleton.1 hperm, List.map_singleton]

/-- What is below a directory is below its children. -/
lemma below_perm (h : Staged entries) (hnodup : bs.Nodup) (hbs : ∀ b, b ∈ bs ↔ links entries cs b)
    (hlink : links entries cs c) :
    (bs.flatMap fun b => below entries (cs ++ [b])).Perm (below entries cs) := by
  have hany : ∀ e ∈ entries, bs.any (fun b => (cs ++ [b]).isPrefixOf (components e.name)) =
      cs.isPrefixOf (components e.name) := by
    intro e he
    rw [Bool.eq_iff_iff, List.any_eq_true, List.isPrefixOf_iff_prefix]
    constructor
    · rintro ⟨b, -, hpre⟩
      exact (List.prefix_append cs [b]).trans (List.isPrefixOf_iff_prefix.1 hpre)
    · rintro ⟨ds, hds⟩
      cases ds with
      | nil =>
        rw [List.append_nil] at hds
        rw [hds] at hlink
        exact absurd hlink (h.not_links he c)
      | cons b ds =>
        have hpre : cs ++ [b] <+: components e.name := ⟨ds, by rw [← hds, List.append_assoc, List.singleton_append]⟩
        exact ⟨b, (hbs b).2 (links_iff.2 ⟨e, he, hpre⟩), List.isPrefixOf_iff_prefix.2 hpre⟩
  have hunique : ∀ e ∈ entries, ∀ b ∈ bs, ∀ b' ∈ bs, (cs ++ [b]).isPrefixOf (components e.name) = true →
      (cs ++ [b']).isPrefixOf (components e.name) = true → b = b' := by
    intro e _ b _ b' _ hpre hpre'
    exact (linksOf_inj (List.isPrefixOf_iff_prefix.1 hpre') (List.isPrefixOf_iff_prefix.1 hpre) rfl).2
  have hparts := (filter_any_perm hnodup hunique).symm.map GitIndexEntry.leaf
  rw [List.filter_congr hany, List.map_flatMap] at hparts
  exact hparts

end Staged

/-! ## One tree -/

/-- What is written for a path: the leaf has its name, and in a store with the objects written the leaves below the
path. -/
structure Written (entries : List GitIndexEntry) (n : Nat) (cs : List Bytes) (leaf : GitLeaf) (store : Store) :
    Prop where
  path : leaf.path = filename (joined cs)
  plain : leaf.Plain
  tree : IsTree leaf.mode → ∀ S : Store, S.CollisionFree → store ⊆ S →
    Flat S n leaf.sha (joined cs) (below entries cs)
  file : ¬ IsTree leaf.mode → below entries cs = [{ leaf with path := joined cs }]

variable {order : IterationOrder} {dirs : Directories} {leaf : GitLeaf} {leaves : List GitLeaf}

/-- The children of a directory, one after the other. -/
def children (order : IterationOrder) (entries : List GitIndexEntry) (dirs : Directories) (n : Nat)
    (state : List GitLeaf × Store)
    (paths : List Bytes) : Option (List GitLeaf × Store) :=
  paths.foldlM (fun (leaves, store) child => do
    let (leaf, store) ← backtrack order entries dirs n store child
    return (leaves ++ [leaf], store)) state

lemma children_cons (order : IterationOrder) (entries : List GitIndexEntry) (dirs : Directories) (n : Nat)
    (leaves : List GitLeaf) (store : Store) (path : Bytes) (paths : List Bytes) :
    children order entries dirs n (leaves, store) (path :: paths) =
      (backtrack order entries dirs n store path).bind fun x =>
      children order entries dirs n (leaves ++ [x.1], x.2) paths := by
  rw [children, List.foldlM_cons]
  dsimp only
  cases backtrack order entries dirs n store path <;> rfl

lemma Written.mono (h : Written entries n cs leaf store) (hsub : store ⊆ store') : Written entries n cs leaf store' :=
  ⟨h.path, h.plain, fun htree S hfree hS => h.tree htree S hfree (List.Subset.trans hsub hS), h.file⟩

lemma exists_children (hchild : ∀ b ∈ bs, ∀ store, ∃ leaf store',
    backtrack order entries dirs n store (joined (cs ++ [b])) =
      some (leaf, store') ∧ store ⊆ store' ∧ Written entries n (cs ++ [b]) leaf store') (leaves : List GitLeaf)
        (store : Store) :
    ∃ new store', children order entries dirs n (leaves, store) (bs.map fun b => joined (cs ++ [b])) =
      some (leaves ++ new, store') ∧ store ⊆ store' ∧
        List.Forall₂ (fun b leaf => Written entries n (cs ++ [b]) leaf store') bs new := by
  induction bs generalizing leaves store with
  | nil => exact ⟨[], store, by rw [List.append_nil]; rfl, List.Subset.refl store, .nil⟩
  | cons b bs ih =>
    rw [List.forall_mem_cons] at hchild
    obtain ⟨leaf, store₁, hleaf, hsub, hwritten⟩ := hchild.1 store
    obtain ⟨new, store₂, hnew, hsub', hall⟩ := ih hchild.2 (leaves ++ [leaf]) store₁
    refine ⟨leaf :: new, store₂, ?_, List.Subset.trans hsub hsub', .cons (hwritten.mono hsub') hall⟩
    rw [List.map_cons, children_cons, hleaf, Option.bind_some, hnew, List.append_assoc, List.singleton_append]

lemma backtrack_file (hfind : dirs.find (joined cs) = none) (hentry : (entries.find? fun e => e.name = joined cs) =
    some e) :
    backtrack order entries dirs (n + 1) store (joined cs) =
      some (⟨e.modeStr, filename (joined cs), e.sha⟩, store) := by
  rw [backtrack, hfind]
  dsimp only
  rw [hentry]
  rfl

lemma backtrack_directory {paths : List Bytes} {data : Bytes} (hfind : dirs.find (joined cs) = some paths)
    (hchildren : children order entries dirs n ([], store) (order.iterate (joined cs) paths) = some (leaves, store'))
    (hdata : GitTree.serialize leaves = some data) :
    backtrack order entries dirs (n + 1) store (joined cs) =
      some (⟨ascii "040000", filename (joined cs), (writeObject (ascii "tree") data store').1⟩,
        (writeObject (ascii "tree") data store').2) := by
  rw [children] at hchildren
  rw [backtrack, hfind]
  dsimp only
  rw [hchildren, Option.bind_eq_bind, Option.bind_some]
  dsimp only
  rw [hdata]
  rfl

/-- The children of a directory in the order of the iteration. -/
lemma exists_names (hrep : dirs.Represents (links entries)) {paths : List Bytes} (hcs : Names cs)
    (hfind : dirs.find (joined cs) = some paths) (order : IterationOrder) :
    ∃ bs : List Bytes, order.iterate (joined cs) paths = bs.map (fun b => joined (cs ++ [b])) ∧ bs.Nodup ∧
      ∀ b, b ∈ bs ↔ links entries cs b := by
  obtain ⟨hlists, -⟩ := hrep.find_some cs paths hcs hfind
  have hperm := order.perm (joined cs) paths
  have hname : ∀ p ∈ order.iterate (joined cs) paths, joined (cs ++ [filename p]) = p ∧
    links entries cs (filename p) := by
    intro p hp
    obtain ⟨c, hlink, rfl⟩ := (hlists.mem_iff p).1 (hperm.mem_iff.1 hp)
    rw [filename_joined (hrep.names cs c hlink)]
    exact ⟨rfl, hlink⟩
  have hmap : order.iterate (joined cs) paths =
      ((order.iterate (joined cs) paths).map filename).map fun b => joined (cs ++ [b]) := by
    rw [List.map_map]
    exact (List.map_id'' (fun _ => rfl) _).symm.trans (List.map_congr_left fun p hp => (hname p hp).1.symm)
  refine ⟨(order.iterate (joined cs) paths).map filename, hmap, ?_, fun b => ⟨?_, fun hlink => ?_⟩⟩
  · have hnodup := hperm.nodup_iff.2 hlists.nodup
    rw [hmap] at hnodup
    exact hnodup.of_map
  · intro hb
    obtain ⟨p, hp, rfl⟩ := List.mem_map.1 hb
    exact (hname p hp).2
  · have hp := hperm.mem_iff.2 ((hlists.mem_iff _).2 ⟨b, hlink, rfl⟩)
    rw [← filename_joined (hrep.names cs b hlink)]
    exact List.mem_map_of_mem hp

lemma zero_notMem_filename (h : Staged entries) (he : e ∈ entries) (hcs : cs <+: components e.name) :
    (0 : UInt8) ∉ filename (joined cs) := by
  obtain ⟨hnames, -, -⟩ := (h.relative e he).names
  rcases cs.eq_nil_or_concat' with rfl | ⟨ds, d, rfl⟩
  · exact List.not_mem_nil
  · have hd : d ∈ components e.name := hcs.subset (List.mem_append_right ds (List.mem_singleton_self d))
    rw [filename_joined fun c hc => hnames c (hcs.subset hc)]
    exact fun hzero => (h.relative e he).1 (mem_of_mem_splitOn (List.mem_of_mem_filter hd) hzero)

/-- What is written for an entry. -/
lemma written_entry (h : Staged entries) (hmode : ∀ e ∈ entries, e.modeType ≠ 4) (he : e ∈ entries) (n : Nat)
    (store : Store) :
    Written entries n (components e.name) ⟨e.modeStr, filename (joined (components e.name)), e.sha⟩ store := by
  have hsized := h.sized e he
  have htree : ¬ IsTree e.modeStr := fun htree => hmode e he ((GitIndexEntry.isTree_modeStr hsized).1 htree)
  refine ⟨rfl, ⟨⟨e.space_notMem_modeStr, ?_⟩, zero_notMem_filename h he (List.prefix_refl _), hsized.sha⟩,
    fun hdir => absurd hdir htree, fun _ => ?_⟩
  · rw [GitIndexEntry.length_modeStr hsized]
    decide
  · rw [h.below_entry he, (h.relative e he).names.2.1]
    rfl

lemma forall_written (hwritten : List.Forall₂ (fun b leaf => Written entries n (cs ++ [b]) leaf store) bs leaves)
    (hbs : ∀ b ∈ bs, Names (cs ++ [b])) :
    leaves.map GitLeaf.path = bs ∧ ∀ leaf ∈ leaves, Written entries n (cs ++ [leaf.path]) leaf store := by
  induction hwritten with
  | nil => exact ⟨rfl, fun leaf hleaf => by cases hleaf⟩
  | @cons b leaf bs leaves hb hrest ih =>
    rw [List.forall_mem_cons] at hbs
    obtain ⟨hpaths, hall⟩ := ih hbs.2
    have hpath : leaf.path = b := by rw [hb.path, filename_joined hbs.1]
    rw [List.map_cons, hpaths, List.forall_mem_cons, hpath]
    exact ⟨rfl, hb, hall⟩

/-- What is written for a directory, after its children. -/
lemma written_directory (h : Staged entries) (he : e ∈ entries) (hcs : cs <+: components e.name) (hnodup : bs.Nodup)
    (hbs : ∀ b, b ∈ bs ↔ links entries cs b) (hlink : links entries cs c) {data : Bytes}
    (hwritten : List.Forall₂ (fun b leaf => Written entries n (cs ++ [b]) leaf store) bs leaves)
    (hdata : GitTree.deserialize data = some (GitTree.sorted leaves)) :
    Written entries (n + 1) cs ⟨ascii "040000", filename (joined cs), (writeObject (ascii "tree") data store).1⟩
      (writeObject (ascii "tree") data store).2 := by
  have hbnames : ∀ b ∈ bs, Names (cs ++ [b]) := fun b hb => h.names_of_link ((hbs b).1 hb)
  obtain ⟨hpaths, hall⟩ := forall_written hwritten hbnames
  have htree : IsTree (ascii "040000") := by decide
  have hmode : (32 : UInt8) ∉ ascii "040000" ∧ (ascii "040000").length ≠ 5 := by decide
  refine ⟨rfl, ⟨hmode, zero_notMem_filename h he hcs, isSha_sha1 _⟩, fun _ S hfree hS => ?_,
    fun hfile => absurd htree hfile⟩
  refine ⟨data, GitTree.sorted leaves, fun leaf => below entries (cs ++ [leaf.path]),
    hfree.lookup (hS List.mem_cons_self),
    hdata, fun leaf hleaf => ?_, ?_⟩
  · have hmem := (GitTree.sorted_perm leaves).mem_iff.1 hleaf
    have hwritten := hall leaf hmem
    have hnames := hbnames leaf.path (hpaths ▸ List.mem_map_of_mem hmem)
    rw [append_joined hnames]
    refine ⟨fun hdir => hwritten.tree hdir S hfree (List.Subset.trans (List.subset_cons_self _ _) hS), fun hfile => ?_⟩
    refine (hwritten.file hfile).trans ?_
    rw [GitLeaf.under, append_joined hnames]
  · have hbelow := h.below_perm hnodup hbs hlink
    rw [← hpaths, List.flatMap_map] at hbelow
    exact hbelow.symm.trans ((GitTree.sorted_perm leaves).symm.flatMap_right _)

/-- Every path of an index is written, with as many rounds as there are names below it. -/
theorem exists_written (h : Staged entries) (hmode : ∀ e ∈ entries, e.modeType ≠ 4)
    (hrep : dirs.Represents (links entries))
    {bound : Nat} (hbound : ∀ e ∈ entries, (components e.name).length ≤ bound) (he : e ∈ entries)
    (hcs : cs <+: components e.name) (hn : bound + 1 ≤ n + cs.length) (store : Store) :
    ∃ leaf store', backtrack order entries dirs n store (joined cs) = some (leaf, store') ∧ store ⊆ store' ∧
      Written entries n cs leaf store' := by
  induction n generalizing cs e store with
  | zero =>
    have hle := hcs.length_le
    have hlt := hbound e he
    omega
  | succ n ih =>
    have hnames : Names cs := fun d hd => (h.relative e he).names.1 d (hcs.subset hd)
    cases hfind : dirs.find (joined cs) with
    | none =>
      have hentry : cs = components e.name := by
        rcases Staged.entry_or_link he hcs with heq | ⟨c, hlink⟩
        · exact heq
        · exact absurd hlink (hrep.find_none cs hnames hfind c)
      subst hentry
      have hlookup : (entries.find? fun e' => e'.name = joined (components e.name)) = some e := by
        rw [(h.relative e he).names.2.1]
        cases hfound : entries.find? fun e' => decide (e'.name = e.name) with
        | none =>
          have hne := List.find?_eq_none.1 hfound e he
          exact absurd (decide_eq_true rfl) hne
        | some e' =>
          have hsome := List.find?_some hfound
          have hname : e'.name = e.name := of_decide_eq_true hsome
          rw [h.eq_of_name (List.mem_of_find?_eq_some hfound) he hname]
      exact ⟨_, store, backtrack_file hfind hlookup, List.Subset.refl store, written_entry h hmode he (n + 1) store⟩
    | some paths =>
      obtain ⟨-, c, hlink⟩ := hrep.find_some cs paths hnames hfind
      obtain ⟨bs, hpaths, hnodup, hbs⟩ := exists_names hrep hnames hfind order
      have hchild : ∀ b ∈ bs, ∀ store, ∃ leaf store', backtrack order entries dirs n store (joined (cs ++ [b])) =
          some (leaf, store') ∧ store ⊆ store' ∧ Written entries n (cs ++ [b]) leaf store' := by
        intro b hb store
        obtain ⟨e', he', hpre⟩ := links_iff.1 ((hbs b).1 hb)
        exact ih he' hpre (by rw [List.length_append, List.length_singleton]; omega) store
      obtain ⟨leaves, store', hchildren, hsub, hwritten⟩ := exists_children hchild [] store
      have hplain : ∀ leaf ∈ leaves, leaf.Plain := by
        intro leaf hleaf
        exact ((forall_written hwritten fun b hb => h.names_of_link ((hbs b).1 hb)).2 leaf hleaf).plain
      obtain ⟨data, hserialize, hdata⟩ := GitTree.exists_serialize hplain
      rw [← hpaths, List.nil_append] at hchildren
      exact ⟨_, _, backtrack_directory hfind hchildren hserialize, List.Subset.trans hsub (List.subset_cons_self _ _),
        written_directory h he hcs hnodup hbs hlink hwritten hdata⟩

/-! ## More rounds -/

lemma children_mono (h : ∀ store path r, backtrack order entries dirs n store path = some r →
      backtrack order entries dirs (n + 1) store path = some r) {paths : List Bytes} {r : List GitLeaf × Store}
    (hchildren : children order entries dirs n (leaves, store) paths = some r) :
    children order entries dirs (n + 1) (leaves, store) paths = some r := by
  induction paths generalizing leaves store with
  | nil => exact hchildren
  | cons path paths ih =>
    rw [children_cons] at hchildren ⊢
    obtain ⟨x, hx, hchildren⟩ := Option.bind_eq_some_iff.1 hchildren
    rw [h store path x hx, Option.bind_some]
    exact ih hchildren

lemma backtrack_succ {path : Bytes} {r : GitLeaf × Store} (h : backtrack order entries dirs n store path = some r) :
    backtrack order entries dirs (n + 1) store path = some r := by
  induction n generalizing store path r with
  | zero => cases h
  | succ n ih =>
    rw [backtrack] at h ⊢
    cases hfind : dirs.find path with
    | none =>
      rw [hfind] at h
      exact h
    | some paths =>
      rw [hfind] at h
      obtain ⟨x, hx, h⟩ := Option.bind_eq_some_iff.1 h
      exact Option.bind_eq_some_iff.2 ⟨x, children_mono (fun store path r => ih) hx, h⟩

lemma backtrack_mono {path : Bytes} {r : GitLeaf × Store} (h : backtrack order entries dirs n store path = some r)
    {m : Nat}
    (hm : n ≤ m) : backtrack order entries dirs m store path = some r := by
  induction hm with
  | refl => exact h
  | step _ ih => exact backtrack_succ ih

/-! ## The index -/

lemma below_nil (entries : List GitIndexEntry) : below entries [] = entries.map GitIndexEntry.leaf := by
  have hfilter : (entries.filter fun e => ([] : List Bytes).isPrefixOf (components e.name)) = entries :=
    List.filter_eq_self.2 fun e _ => rfl
  rw [below, hfilter]

namespace StagedIndex

lemma staged (i : StagedIndex) : Staged i.index.entries :=
  ⟨GitIndex.sized_of_read i.read, i.relative, i.nodup, i.apart⟩

lemma exists_bound (entries : List GitIndexEntry) : ∃ bound, ∀ e ∈ entries, (components e.name).length ≤ bound := by
  induction entries with
  | nil => exact ⟨0, fun e he => by cases he⟩
  | cons e entries ih =>
    obtain ⟨bound, hbound⟩ := ih
    refine ⟨max (components e.name).length bound, ?_⟩
    rw [List.forall_mem_cons]
    exact ⟨le_max_left _ _, fun e' he' => le_max_of_le_right (hbound e' he')⟩

lemma writeIndexAsTree_eq (i : StagedIndex) {leaf : GitLeaf}
    (h : backtrack order i.index.entries (directoryTree i.index.entries) n store [] = some (leaf, store')) :
    writeIndexAsTree order n store i.file = some (leaf.sha, store') := by
  rw [writeIndexAsTree, i.read, Option.bind_eq_bind, Option.bind_some, h]
  rfl

/-- The tree of an index without the mode type of directories is written, and it is flattened to the entries with any
objects besides its own. -/
lemma exists_tree (i : StagedIndex) (order : IterationOrder) (store : Store) (h : ∀ e ∈ i.index.entries,
    e.modeType ≠ 4) :
    ∃ n sha store', (∀ m ≥ n, writeIndexAsTree order m store i.file = some (sha, store')) ∧ store ⊆ store' ∧ IsSha sha ∧
      ∀ S : Store, S.CollisionFree → store' ⊆ S →
        ∃ k leaves, leaves.Perm (i.index.entries.map GitIndexEntry.leaf) ∧ ∀ m ≥ k, flatten S m sha = some leaves := by
  obtain ⟨bound, hbound⟩ := exists_bound i.index.entries
  obtain ⟨e, he⟩ := List.exists_mem_of_ne_nil _ i.nonempty
  obtain ⟨leaf, store', hwrite, hsub, hwritten⟩ :=
    exists_written i.staged h (represents_directoryTree i.relative) hbound he
    (List.nil_prefix) (Nat.le_refl (bound + 1)) store
  have hwrites : ∀ m ≥ bound + 1, writeIndexAsTree order m store i.file = some (leaf.sha, store') :=
    fun m hm => i.writeIndexAsTree_eq (backtrack_mono hwrite hm)
  have htree : IsTree leaf.mode := by
    by_contra hfile
    have hmem : e.leaf ∈ below i.index.entries [] := below_nil _ ▸ List.mem_map_of_mem he
    rw [hwritten.file hfile, List.mem_singleton] at hmem
    have hname : e.name = [] := congrArg GitLeaf.path hmem
    have hne := (i.relative e he).names.2.2
    rw [hname, components_nil] at hne
    exact hne rfl
  refine ⟨bound + 1, leaf.sha, store', hwrites, hsub, hwritten.plain.sha, fun S hfree hS => ?_⟩
  have hflat := hwritten.tree htree S hfree hS
  rw [below_nil] at hflat
  exact exists_flatten hflat

/-- The tree of an index without the mode type of directories is flattened to its entries. -/
theorem flattened_of_no_trees (i : StagedIndex) (order : IterationOrder) (store : Store)
    (h : ∀ e ∈ i.index.entries, e.modeType ≠ 4) : i.Flattened order store := by
  obtain ⟨n, sha, store', hwrites, -, -, hflat⟩ := i.exists_tree order store h
  by_cases hfree : store'.CollisionFree
  · obtain ⟨k, leaves, hperm, hflatten⟩ := hflat store' hfree (List.Subset.refl store')
    exact ⟨max n k, sha, store', fun m hm => hwrites m (le_of_max_le_left hm),
      fun _ => ⟨leaves, fun m hm => hflatten m (le_of_max_le_right hm), hperm⟩⟩
  · exact ⟨n, sha, store', hwrites, fun hfree' => absurd hfree' hfree⟩

/-! ### Fixed indices -/

/-- The children in the order in which they were inserted. -/
def inOrder : IterationOrder := ⟨fun _ children => children, fun _ children => .refl children⟩

/-- An entry for one name, with the given type and the permissions of a file. -/
def entryOf (modeType : UInt16) (name : Bytes) : GitIndexEntry :=
  ⟨⟨0, 0⟩, ⟨0, 0⟩, 0, 0, modeType, 0o644, 0, 0, 0, List.replicate 40 48, 0, false, name⟩

lemma proper_entryOf {modeType : UInt16} {name : Bytes} (h : modeType < 16) (hne : name ≠ [])
    (hzero : (0 : UInt8) ∉ name) :
    (entryOf modeType name).Proper := by
  have hperms : (0o644 : UInt16) < 512 := by decide
  have hsha : IsSha (List.replicate 40 48) := ⟨by decide, by decide⟩
  have hstage : (0 : UInt16) &&& 0x3000 = 0 := by decide
  exact ⟨⟨h, hperms, hsha, hstage⟩, hne, hzero⟩

lemma read_writeToFile {entries : List ProperEntry} (hname : ∀ e ∈ entries, e.val.name.length < rawNameSize)
    (hcount : entries.length < 2 ^ 32) :
    GitIndex.readFromFile (GitIndex.ofEntries entries).writeToFile = some (GitIndex.ofEntries entries) := by
  obtain ⟨raw, hwrite, hread⟩ := restored_of_fits hname hcount
  rw [hwrite, hread]

/-- The files `a` and `b/c`. -/
def twoFiles : List ProperEntry :=
  [⟨entryOf 8 [97], proper_entryOf (by decide) (by decide) (by decide)⟩,
    ⟨entryOf 8 [98, 47, 99], proper_entryOf (by decide) (by decide) (by decide)⟩]

def twoFilesIndex : StagedIndex where
  file := (GitIndex.ofEntries twoFiles).writeToFile
  index := GitIndex.ofEntries twoFiles
  read := read_writeToFile (by decide) (by decide)
  nonempty := List.cons_ne_nil _ _
  relative := by
    intro e he
    rcases List.mem_cons.1 he with rfl | he
    · exact ⟨by decide, [[97]], by decide, by unfold Path.Names; decide, rfl⟩
    · obtain rfl := List.mem_singleton.1 he
      exact ⟨by decide, [[98], [99]], by decide, by unfold Path.Names; decide, rfl⟩
  nodup := by decide
  apart := by decide

theorem flattened_twoFiles : twoFilesIndex.Flattened inOrder [] :=
  flattened_of_no_trees twoFilesIndex inOrder [] (by decide)

/-- An entry `a` with the mode type of a directory. -/
def oneDirectory : List ProperEntry := [⟨entryOf 4 [97], proper_entryOf (by decide) (by decide) (by decide)⟩]

def oneDirectoryIndex : StagedIndex where
  file := (GitIndex.ofEntries oneDirectory).writeToFile
  index := GitIndex.ofEntries oneDirectory
  read := read_writeToFile (by decide) (by decide)
  nonempty := List.cons_ne_nil _ _
  relative := by
    intro e he
    obtain rfl := List.mem_singleton.1 he
    exact ⟨by decide, [[97]], by decide, by unfold Path.Names; decide, rfl⟩
  nodup := by decide
  apart := by decide

lemma links_oneDirectory {b : Bytes} : links oneDirectoryIndex.index.entries [] b ↔ b = [97] := by
  have hcomponents : components [97] = [[97]] := components_name (by decide)
  rw [links_iff]
  constructor
  · rintro ⟨e, he, hpre⟩
    obtain rfl := List.mem_singleton.1 he
    have hone : [b] <+: components [97] := hpre
    rw [hcomponents, List.cons_prefix_cons] at hone
    exact hone.1
  · rintro rfl
    refine ⟨_, List.mem_cons_self, ?_⟩
    show [[97]] <+: components [97]
    rw [hcomponents]

/-- One tree is written. -/
lemma writeIndexAsTree_oneDirectory (m : Nat) : writeIndexAsTree inOrder (m + 2) [] oneDirectoryIndex.file =
    some (writeObject (ascii "tree") (ascii "040644 a" ++ List.replicate 21 0) []) := by
  have hstaged := oneDirectoryIndex.staged
  have hrep := represents_directoryTree oneDirectoryIndex.relative
  have hroot : Names [] := fun c hc => by cases hc
  have hname : Names [[97]] := by
    unfold Path.Names
    decide
  have hcomponents : components [97] = [[97]] := components_name (by decide)
  have hfile : (directoryTree oneDirectoryIndex.index.entries).find (joined [[97]]) = none := by
    cases hfind : (directoryTree oneDirectoryIndex.index.entries).find (joined [[97]]) with
    | none => rfl
    | some paths =>
      obtain ⟨-, c, hlink⟩ := hrep.find_some _ paths hname hfind
      rw [← hcomponents] at hlink
      exact absurd hlink (hstaged.not_links List.mem_cons_self c)
  cases hfind : (directoryTree oneDirectoryIndex.index.entries).find (joined []) with
  | none => exact absurd (links_oneDirectory.2 rfl) (hrep.find_none [] hroot hfind [97])
  | some paths =>
    obtain ⟨bs, hpaths, hnodup, hbs⟩ := exists_names hrep hroot hfind inOrder
    have hone : bs = [[97]] := by
      have hmem : ∀ b, b ∈ bs ↔ b ∈ [([97] : Bytes)] := fun b => by rw [hbs, links_oneDirectory, List.mem_singleton]
      exact List.perm_singleton.1 ((List.perm_ext_iff_of_nodup hnodup (List.nodup_singleton _)).2 hmem)
    have hleaf := @backtrack_file oneDirectoryIndex.index.entries _ _ [] m inOrder _ hfile rfl
    have hchildren : children inOrder oneDirectoryIndex.index.entries (directoryTree oneDirectoryIndex.index.entries)
      (m + 1)
        ([], []) (inOrder.iterate (joined []) paths) =
          some ([⟨(entryOf 4 [97]).modeStr, filename (joined [[97]]), (entryOf 4 [97]).sha⟩], []) := by
      rw [hpaths, hone, List.map_singleton, List.nil_append, children_cons, hleaf]
      rfl
    have hserialize : GitTree.serialize [⟨(entryOf 4 [97]).modeStr, filename (joined [[97]]), (entryOf 4 [97]).sha⟩] =
        some (ascii "040644 a" ++ List.replicate 21 0) := by
      decide +kernel
    exact oneDirectoryIndex.writeIndexAsTree_eq (backtrack_directory hfind hchildren hserialize)

theorem not_flattened_oneDirectory : ¬ oneDirectoryIndex.Flattened inOrder [] := by
  rintro ⟨n, sha, store', hwrite, hflat⟩
  have hwrite := hwrite (n + 2) (Nat.le_add_right n 2)
  rw [writeIndexAsTree_oneDirectory, writeObject] at hwrite
  obtain ⟨-, rfl⟩ := Prod.mk.inj (Option.some.inj hwrite)
  obtain ⟨leaves, hleaves, hperm⟩ := hflat fun o₁ h₁ o₂ h₂ _ => by
    rw [List.mem_singleton.1 h₁, List.mem_singleton.1 h₂]
  have hmem : (entryOf 4 [97]).leaf ∈ leaves := hperm.mem_iff.2 List.mem_cons_self
  have hnone : ∀ leaf ∈ ([] : List GitLeaf), ¬ IsTree leaf.mode := fun leaf hleaf => by cases hleaf
  exact Walk.not_isTree_of_run hnone (hleaves n le_rfl) _ hmem (by decide)

end StagedIndex

end CppExperiments.Cgit

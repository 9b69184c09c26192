import CppExperiments.Cgit.WriteTree
import Mathlib.Data.List.Nodup

/-!
# The directories of an index

The map of directories as a set of links, each from a directory to a name in it. Going up from an entry adds its links;
the first directory that is there already has all links above it, since the links of entries are closed under going up.
-/

namespace CppExperiments.Cgit

open CppExperiments.Path

/-- From a directory, given by its names, to a name in it. -/
abbrev Links := List Bytes → Bytes → Prop

/-- The links of a path, from its root on. -/
def linksOf (ns : List Bytes) : Links := fun cs c => cs ++ [c] <+: ns

/-- All links of an index whose entries have these names. -/
def linksOfAll (paths : List (List Bytes)) : Links := fun cs c => ∃ ns ∈ paths, linksOf ns cs c

/-- With a link into a directory there are all links to it. -/
def Closed (L : Links) : Prop := ∀ cs c, L cs c → ∀ as b, as ++ [b] <+: cs → L as b

variable {dirs : Directories} {L L' : Links} {cs ds ns : List Bytes} {c d path parent curr : Bytes}
  {paths : List (List Bytes)}

lemma closed_linksOfAll (paths : List (List Bytes)) : Closed (linksOfAll paths) := by
  rintro cs c ⟨ns, hns, hlink⟩ as b hpre
  exact ⟨ns, hns, hpre.trans ((List.prefix_append cs [c]).trans hlink)⟩

/-- Of one length a path has only one link. -/
lemma linksOf_inj {as : List Bytes} {b : Bytes} (h : linksOf ns cs c) (h' : linksOf ns as b)
    (hlength : as.length = cs.length) :
    as = cs ∧ b = c := by
  have hpath : as ++ [b] = cs ++ [c] :=
    (List.prefix_of_prefix_length_le h' h (by simp [hlength])).eq_of_length (by simp [hlength])
  exact List.append_singleton_inj.1 hpath

/-- A shorter link of a path is a link to the longer ones. -/
lemma prefix_of_linksOf {as : List Bytes} {b : Bytes} (h : linksOf ns cs c) (h' : linksOf ns as b)
    (hlength : as.length < cs.length) :
    as ++ [b] <+: cs :=
  List.prefix_of_prefix_length_le h' ((List.prefix_append cs [c]).trans h) (by rw [List.length_append]; exact hlength)

namespace Directories

/-- One more child, unless it is there. -/
def add (curr : Bytes) (children : List Bytes) : List Bytes :=
  if children.any (Path.same · curr) then children else children ++ [curr]

lemma find_cons (path' : Bytes) (children : List Bytes) (dirs : Directories) (path : Bytes) :
    find ((path', children) :: dirs) path = if same path' path then some children else dirs.find path := by
  rw [find, List.find?_cons]
  cases same path' path <;> rfl

lemma find_emplace (parent curr path : Bytes) (dirs : Directories) : (dirs.emplace parent curr).find path =
    if same parent path then some (add curr ((dirs.find parent).getD [])) else dirs.find path := by
  induction dirs with
  | nil => exact find_cons parent [curr] [] path
  | cons dir dirs ih =>
    obtain ⟨path', children⟩ := dir
    rw [Directories.emplace, find_cons, find_cons]
    by_cases hparent : same path' parent
    · rw [if_pos hparent, if_pos hparent, find_cons, Option.getD_some, same_congr hparent]
      by_cases hpath : same parent path
      · rw [if_pos hpath, if_pos hpath]
        rfl
      · rw [if_neg hpath, if_neg hpath, if_neg hpath]
    · rw [if_neg hparent, if_neg hparent, find_cons, ih]
      by_cases hpath : same path' path
      · have hne : ¬ same parent path := fun h => hparent (same_trans hpath (same_symm h))
        rw [if_pos hpath, if_neg hne, if_pos hpath]
      · rw [if_neg hpath, if_neg hpath]

/-- The children of a directory are the names linked from it, once each. -/
structure Lists (children : List Bytes) (L : Links) (cs : List Bytes) : Prop where
  nodup : children.Nodup
  mem_iff : ∀ p, p ∈ children ↔ ∃ c, L cs c ∧ p = joined (cs ++ [c])

/-- The map has the directories with links, and their children. -/
structure Represents (dirs : Directories) (L : Links) : Prop where
  names : ∀ cs c, L cs c → Names (cs ++ [c])
  find_none : ∀ cs, Names cs → dirs.find (joined cs) = none → ∀ c, ¬ L cs c
  find_some : ∀ cs children, Names cs → dirs.find (joined cs) = some children → Lists children L cs ∧ ∃ c, L cs c

lemma Represents.congr (h : Represents dirs L) (hiff : ∀ as b, L as b ↔ L' as b) : Represents dirs L' := by
  have heq : L = L' := by
    funext as b
    exact propext (hiff as b)
  rwa [← heq]

/-- A child is there exactly if it is linked. -/
lemma Lists.any_same {children : List Bytes} (h : Lists children L cs) (hnames : ∀ b, L cs b → Names (cs ++ [b]))
    (hc : Names (cs ++ [c])) : children.any (same · (joined (cs ++ [c]))) = true ↔ L cs c := by
  rw [List.any_eq_true]
  constructor
  · rintro ⟨p, hp, hsame⟩
    obtain ⟨b, hb, rfl⟩ := (h.mem_iff p).1 hp
    rw [same_joined (hnames b hb) hc] at hsame
    exact (List.append_singleton_inj.1 hsame).2 ▸ hb
  · exact fun hlink => ⟨_, (h.mem_iff _).2 ⟨c, hlink, rfl⟩, same_refl _⟩

lemma Lists.add {children : List Bytes} (h : Lists children L cs) (hnames : ∀ b, L cs b → Names (cs ++ [b]))
    (hc : Names (cs ++ [c])) :
    Lists (add (joined (cs ++ [c])) children) (fun as b => L as b ∨ as = cs ∧ b = c) cs := by
  have hany := h.any_same hnames hc
  rw [Directories.add]
  by_cases hlink : L cs c
  · rw [if_pos (hany.2 hlink)]
    refine ⟨h.nodup, fun p => (h.mem_iff p).trans ⟨?_, ?_⟩⟩
    · rintro ⟨b, hb, hp⟩
      exact ⟨b, .inl hb, hp⟩
    · rintro ⟨b, hb | ⟨-, rfl⟩, hp⟩
      · exact ⟨b, hb, hp⟩
      · exact ⟨b, hlink, hp⟩
  · rw [if_neg (fun htrue => hlink (hany.1 htrue))]
    constructor
    · have hnew : joined (cs ++ [c]) ∉ children := by
        intro hmem
        exact hlink (hany.1 (List.any_eq_true.2 ⟨_, hmem, same_refl _⟩))
      rw [← List.concat_eq_append]
      exact List.Nodup.concat hnew h.nodup
    · intro p
      rw [List.mem_append, List.mem_singleton, h.mem_iff]
      constructor
      · rintro (⟨b, hb, hp⟩ | hp)
        · exact ⟨b, .inl hb, hp⟩
        · exact ⟨c, .inr ⟨rfl, rfl⟩, hp⟩
      · rintro ⟨b, hb | ⟨-, rfl⟩, hp⟩
        · exact .inl ⟨b, hb, hp⟩
        · exact .inr hp

theorem Represents.emplace (h : Represents dirs L) (hc : Names (cs ++ [c])) :
    Represents (dirs.emplace (joined cs) (joined (cs ++ [c]))) fun as b => L as b ∨ as = cs ∧ b = c := by
  refine ⟨?_, fun as has hfind => ?_, fun as children has hfind => ?_⟩
  · rintro as b (hlink | ⟨rfl, rfl⟩)
    · exact h.names as b hlink
    · exact hc
  · rw [find_emplace] at hfind
    by_cases hsame : same (joined cs) (joined as)
    · rw [if_pos hsame] at hfind
      cases hfind
    · rw [if_neg hsame] at hfind
      rw [same_joined hc.left has] at hsame
      rintro b (hlink | ⟨rfl, -⟩)
      · exact h.find_none as has hfind b hlink
      · exact hsame rfl
  · rw [find_emplace] at hfind
    by_cases hsame : same (joined cs) (joined as)
    · rw [if_pos hsame] at hfind
      rw [same_joined hc.left has] at hsame
      subst hsame
      obtain rfl := Option.some.inj hfind
      have hold : Lists ((dirs.find (joined cs)).getD []) L cs := by
        cases hold : dirs.find (joined cs) with
        | none =>
          refine ⟨List.nodup_nil, fun p => iff_of_false List.not_mem_nil ?_⟩
          rintro ⟨b, hb, -⟩
          exact h.find_none cs has hold b hb
        | some children => exact (h.find_some cs children has hold).1
      exact ⟨hold.add (h.names cs) hc, c, .inr ⟨rfl, rfl⟩⟩
    · rw [if_neg hsame] at hfind
      rw [same_joined hc.left has] at hsame
      obtain ⟨hlists, b, hb⟩ := h.find_some as children has hfind
      refine ⟨⟨hlists.nodup, fun p => (hlists.mem_iff p).trans ⟨?_, ?_⟩⟩, b, .inl hb⟩
      · rintro ⟨b, hb, hp⟩
        exact ⟨b, .inl hb, hp⟩
      · rintro ⟨b, hb | ⟨rfl, -⟩, hp⟩
        · exact ⟨b, hb, hp⟩
        · exact absurd rfl hsame

theorem Represents.climb (hL : Closed L) (hns : Names ns) (hcs : cs <+: ns)
    (h : Represents dirs fun as b => L as b ∨ linksOf ns as b ∧ cs.length ≤ as.length) :
    Represents (dirs.climb (joined cs)) fun as b => L as b ∨ linksOf ns as b := by
  induction cs using List.reverseRecOn generalizing dirs with
  | nil =>
    rw [joined_nil, Directories.climb, dif_neg (fun hne => hne.1 rfl)]
    refine h.congr fun as b => ?_
    rw [List.length_nil]
    simp
  | append_singleton cs c ih =>
    have hnames : Names (cs ++ [c]) := fun d hd => hns d (hcs.subset hd)
    have hne : cs ++ [c] ≠ cs := fun heq => by simpa using congrArg List.length heq
    have hguard : joined (cs ++ [c]) ≠ [] ∧ ¬ same (joined (cs ++ [c])) (parentPath (joined (cs ++ [c]))) := by
      rw [parentPath_joined hnames, same_joined hnames hnames.left]
      refine ⟨fun hnil => ?_, hne⟩
      have hfile := hasFilename_joined hnames
      rw [hnil] at hfile
      cases hfile
    have hstep : Represents (dirs.emplace (joined cs) (joined (cs ++ [c])))
        fun as b => L as b ∨ linksOf ns as b ∧ cs.length ≤ as.length := by
      refine (h.emplace hnames).congr fun as b => ?_
      rw [List.length_append, List.length_singleton]
      constructor
      · rintro ((hlink | ⟨hlink, hlength⟩) | ⟨rfl, rfl⟩)
        · exact .inl hlink
        · exact .inr ⟨hlink, by omega⟩
        · exact .inr ⟨hcs, le_rfl⟩
      · rintro (hlink | ⟨hlink, hlength⟩)
        · exact .inl (.inl hlink)
        · rcases Nat.lt_or_eq_of_le hlength with hlt | heq
          · exact .inl (.inr ⟨hlink, hlt⟩)
          · exact .inr (linksOf_inj hcs hlink heq.symm)
    rw [Directories.climb, dif_pos hguard, parentPath_joined hnames]
    dsimp only
    cases hfind : dirs.find (joined cs) with
    | none =>
      rw [Option.isSome_none, if_neg Bool.false_ne_true]
      exact ih ((List.prefix_append cs [c]).trans hcs) hstep
    | some children =>
      rw [Option.isSome_some, if_pos rfl]
      obtain ⟨-, b, hlink⟩ := h.find_some cs children hnames.left hfind
      have hb : L cs b := by
        rcases hlink with hlink | ⟨-, hlength⟩
        · exact hlink
        · rw [List.length_append, List.length_singleton] at hlength
          omega
      refine hstep.congr fun as d => ⟨?_, ?_⟩
      · rintro (hlink | ⟨hlink, -⟩)
        · exact .inl hlink
        · exact .inr hlink
      · rintro (hlink | hlink)
        · exact .inl hlink
        · by_cases hlength : cs.length ≤ as.length
          · exact .inr ⟨hlink, hlength⟩
          · exact .inl (hL cs b hb as d (prefix_of_linksOf hcs hlink (by omega)))

end Directories

/-! ## All entries -/

lemma Directories.represents_nil : Directories.Represents [] (linksOfAll []) := by
  refine ⟨?_, ?_, ?_⟩
  · rintro cs c ⟨ns, hns, -⟩
    cases hns
  · rintro cs - - c ⟨ns, hns, -⟩
    cases hns
  · intro cs children hcs hfind
    cases hfind

lemma Directories.Represents.foldl_climb {entries : List GitIndexEntry} (h : Represents dirs (linksOfAll paths))
    (hrelative : ∀ e ∈ entries, Relative e.name) :
    Represents (entries.foldl (fun dirs entry => dirs.climb entry.name) dirs)
      (linksOfAll (paths ++ entries.map fun e => components e.name)) := by
  induction entries generalizing dirs paths with
  | nil =>
    rw [List.map_nil, List.append_nil]
    exact h
  | cons e entries ih =>
    rw [List.forall_mem_cons] at hrelative
    obtain ⟨-, ns, -, hns, hname⟩ := hrelative.1
    have hstart : Represents dirs fun as b => linksOfAll paths as b ∨ linksOf ns as b ∧ ns.length ≤ as.length := by
      refine h.congr fun as b => ⟨.inl, ?_⟩
      rintro (hlink | ⟨hlink, hlength⟩)
      · exact hlink
      · have hle := List.IsPrefix.length_le hlink
        rw [List.length_append, List.length_singleton] at hle
        omega
    have hclimb := hstart.climb (closed_linksOfAll paths) hns (List.prefix_refl ns)
    have hnext : Represents (dirs.climb e.name) (linksOfAll (paths ++ [ns])) := by
      rw [hname]
      refine hclimb.congr fun as b => ⟨?_, ?_⟩
      · rintro (⟨ns', hmem, hlink⟩ | hlink)
        · exact ⟨ns', List.mem_append_left _ hmem, hlink⟩
        · exact ⟨ns, List.mem_append_right _ (List.mem_singleton_self ns), hlink⟩
      · rintro ⟨ns', hmem, hlink⟩
        rcases List.mem_append.1 hmem with hmem | hmem
        · exact .inl ⟨ns', hmem, hlink⟩
        · exact .inr (List.mem_singleton.1 hmem ▸ hlink)
    have hpaths : paths ++ [ns] ++ entries.map (fun e => components e.name) =
        paths ++ (e :: entries).map fun e => components e.name := by
      rw [List.map_cons, hname, components_joined hns, List.append_assoc, List.singleton_append]
    have hrest := ih hnext hrelative.2
    rw [hpaths] at hrest
    exact hrest

/-- The directories of an index are those that its entries lie in. -/
theorem represents_directoryTree {entries : List GitIndexEntry} (h : ∀ e ∈ entries, Relative e.name) :
    (directoryTree entries).Represents (linksOfAll (entries.map fun e => components e.name)) :=
  Directories.represents_nil.foldl_climb h

end CppExperiments.Cgit

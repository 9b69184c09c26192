import CppExperiments.Cgit.TreeText

/-!
# Trees of git

The text of a tree as git writes it, read and written again.
-/

namespace CppExperiments.Cgit

/-- The octal mode of a directory, a file, a symbolic link or a submodule, without leading zero. -/
def IsMode (mode : Bytes) : Prop :=
  ∃ kind ∈ [ascii "4", ascii "10", ascii "12", ascii "16"], ∃ permissions : Bytes,
    mode = kind ++ permissions ∧ permissions.length = 4 ∧ ∀ b ∈ permissions, 48 ≤ b ∧ b < 56

/-- An entry of a tree of git. -/
structure TreeEntry where
  mode : Bytes
  name : Bytes
  shaBin : Bytes
  isMode : IsMode mode
  isName : name ≠ [] ∧ (0 : UInt8) ∉ name ∧ (47 : UInt8) ∉ name
  isSha : shaBin.length = 20

namespace TreeEntry

def IsDirectory (e : TreeEntry) : Prop := ascii "4" <+: e.mode

/-- Symbolic links and submodules. -/
def IsLink (e : TreeEntry) : Prop := ascii "12" <+: e.mode ∨ ascii "16" <+: e.mode

instance (e : TreeEntry) : Decidable e.IsDirectory := inferInstanceAs (Decidable (_ <+: _))

/-- The name as git compares it. -/
def key (e : TreeEntry) : Bytes := if e.IsDirectory then e.name ++ [47] else e.name

def text (e : TreeEntry) : Bytes := e.mode ++ 32 :: e.name ++ 0 :: e.shaBin

/-- The entry as it is read. -/
def leaf (e : TreeEntry) : GitLeaf := ⟨if e.IsDirectory then 48 :: e.mode else e.mode, e.name, binary2Sha e.shaBin⟩

/-- The entry as it is written. -/
def leafText (e : TreeEntry) : Bytes := e.leaf.mode ++ 32 :: e.name ++ 0 :: e.shaBin

end TreeEntry

/-- The order of git. -/
def InTreeOrder (entries : List TreeEntry) : Prop := entries.Pairwise fun e e' => e.key < e'.key

/-- The text of a tree. -/
def treeBody (entries : List TreeEntry) : Bytes := entries.flatMap TreeEntry.text

variable {e e' : TreeEntry} {entries : List TreeEntry} {mode name name' raw : Bytes} {leaves : List GitLeaf}

/-! ## Modes -/

lemma IsMode.cases (h : IsMode mode) :
    (ascii "4" <+: mode ∧ mode.length = 5) ∨
      ((ascii "10" <+: mode ∨ ascii "12" <+: mode ∨ ascii "16" <+: mode) ∧ ¬ ascii "4" <+: mode ∧ mode.length = 6) := by
  obtain ⟨kind, hkind, permissions, rfl, hlength, -⟩ := h
  rw [List.length_append, hlength]
  simp only [List.mem_cons, List.not_mem_nil, or_false] at hkind
  rcases hkind with rfl | rfl | rfl | rfl
  · exact .inl ⟨List.prefix_append _ _, rfl⟩
  · exact .inr ⟨.inl (List.prefix_append _ _), by simp [ascii], rfl⟩
  · exact .inr ⟨.inr (.inl (List.prefix_append _ _)), by simp [ascii], rfl⟩
  · exact .inr ⟨.inr (.inr (List.prefix_append _ _)), by simp [ascii], rfl⟩

lemma IsMode.not_mem_space (h : IsMode mode) : (32 : UInt8) ∉ mode := by
  obtain ⟨kind, hkind, permissions, rfl, -, hoctal⟩ := h
  rw [List.mem_append, not_or]
  constructor
  · simp only [List.mem_cons, List.not_mem_nil, or_false] at hkind
    rcases hkind with rfl | rfl | rfl | rfl <;> decide
  · intro hmem
    exact absurd (hoctal _ hmem).1 (by decide)

namespace TreeEntry

lemma length_mode (e : TreeEntry) : e.mode.length = 5 ↔ e.IsDirectory := by
  rcases e.isMode.cases with ⟨h, hlength⟩ | ⟨-, h, hlength⟩
  · exact ⟨fun _ => h, fun _ => hlength⟩
  · constructor
    · intro h5
      omega
    · intro h4
      exact absurd h4 h

lemma parse_text (e : TreeEntry) (leaves : List GitLeaf) (raw : Bytes) :
    GitTree.parse .START [] [] [] leaves (e.text ++ raw) = GitTree.parse .START [] [] [] (leaves ++ [e.leaf]) raw := by
  have hmode : (if ([] ++ e.mode).length = 5 then 48 :: ([] ++ e.mode) else [] ++ e.mode) = e.leaf.mode := by
    rw [List.nil_append, leaf]
    exact if_congr e.length_mode rfl rfl
  rw [text, List.append_assoc, List.append_assoc, List.cons_append, List.cons_append,
    GitTree.parse_mode e.isMode.not_mem_space, hmode, GitTree.parse_path e.isName.2.1, GitTree.parse_sha e.isSha,
    List.nil_append]
  rfl

lemma length_leafText (e : TreeEntry) : e.leafText.length = e.text.length + if e.IsDirectory then 1 else 0 := by
  have hmode : e.leaf.mode.length = e.mode.length + if e.IsDirectory then 1 else 0 := by
    rw [leaf]
    by_cases h : e.IsDirectory
    · rw [if_pos h, if_pos h]
      rfl
    · rw [if_neg h, if_neg h]
      rfl
  rw [leafText, text]
  simp only [List.length_append, List.length_cons, hmode]
  omega

lemma leafText_eq (h : ¬ e.IsDirectory) : e.leafText = e.text := by
  rw [leafText, leaf, if_neg h, text]

lemma serialize_leaf (e : TreeEntry) : e.leaf.serialize = some e.leafText := by
  rw [GitLeaf.serialize, leaf, sha2Binary_binary2Sha e.isSha]
  rfl

end TreeEntry

/-! ## Names -/

/-- Of two names in order the second begins with the first, or they are in order whatever follows. -/
lemma lt_cases {xs ys : Bytes} (h : xs < ys) : (∃ b r, ys = xs ++ b :: r) ∨ ∀ s t, xs ++ s < ys ++ t := by
  induction xs generalizing ys with
  | nil =>
    cases ys with
    | nil => exact absurd h (List.lt_irrefl [])
    | cons b r => exact .inl ⟨b, r, rfl⟩
  | cons x xs ih =>
    cases ys with
    | nil => exact absurd h (List.not_lt_nil _)
    | cons y ys =>
      rcases List.cons_lt_cons_iff.1 h with hlt | ⟨rfl, hlt⟩
      · exact .inr fun s t => List.cons_lt_cons_iff.2 (.inl hlt)
      · rcases ih hlt with ⟨b, r, rfl⟩ | hall
        · exact .inl ⟨b, r, rfl⟩
        · exact .inr fun s t => List.cons_lt_cons_iff.2 (.inr ⟨rfl, hall s t⟩)

lemma lt_append (xs : Bytes) (b : UInt8) (r : Bytes) : xs < xs ++ b :: r := by
  induction xs with
  | nil => exact List.nil_lt_cons _ _
  | cons x xs ih => exact List.cons_lt_cons_iff.2 (.inr ⟨rfl, ih⟩)

/-- In a list that is in order a relation holds from front to back if it holds of all members in order. -/
lemma pairwise_iff_of_pairwise {α : Type} {S R : α → α → Prop} {l : List α} (hasymm : ∀ a b, S a b → ¬ S b a)
    (h : l.Pairwise S) : l.Pairwise R ↔ ∀ a ∈ l, ∀ b ∈ l, S a b → R a b := by
  constructor
  · intro hR
    induction l with
    | nil =>
      intro a ha
      cases ha
    | cons x l ih =>
      rw [List.pairwise_cons] at h hR
      intro a ha b hb hab
      rcases List.mem_cons.1 ha with ha | ha
      · rcases List.mem_cons.1 hb with hb | hb
        · rw [ha, hb] at hab
          exact absurd hab (hasymm _ _ hab)
        · rw [ha]
          exact hR.1 b hb
      · rcases List.mem_cons.1 hb with hb | hb
        · rw [hb] at hab
          exact absurd hab (hasymm _ _ (h.1 a ha))
        · exact ih h.2 hR.2 a ha b hb hab
  · intro hall
    exact h.imp_of_mem fun ha hb hab => hall _ ha _ hb hab

namespace TreeEntry

lemma modPath_of_link (h : e.IsLink) : e.leaf.modPath = e.name ++ [47] := by
  have hmode : ¬ ascii "10" <+: e.leaf.mode := by
    have hdirectory : ¬ e.IsDirectory := by
      rcases h with ⟨t, h⟩ | ⟨t, h⟩
      · rw [IsDirectory, ← h]
        simp [ascii]
      · rw [IsDirectory, ← h]
        simp [ascii]
    rw [leaf, if_neg hdirectory]
    rcases h with ⟨t, h⟩ | ⟨t, h⟩
    · rw [← h]
      simp [ascii]
    · rw [← h]
      simp [ascii]
  rw [GitLeaf.modPath, if_neg hmode]
  rfl

lemma modPath_of_file (h : ¬ e.IsDirectory) (hlink : ¬ e.IsLink) : e.leaf.modPath = e.name := by
  have hmode : ascii "10" <+: e.leaf.mode := by
    rw [leaf, if_neg h]
    rcases e.isMode.cases with ⟨hdirectory, -⟩ | ⟨hfile | h12 | h16, -, -⟩
    · exact absurd hdirectory h
    · exact hfile
    · exact absurd (.inl h12) hlink
    · exact absurd (.inr h16) hlink
  rw [GitLeaf.modPath, if_pos hmode]
  rfl

lemma key_of_not_directory (h : ¬ e.IsDirectory) : e.key = e.name := if_neg h

/-- Two entries keep their order unless the first is a link whose name the second goes on below the slash. -/
lemma less_leaf_iff (h : ¬ e.IsDirectory) (h' : ¬ e'.IsDirectory) (hlt : e.name < e'.name) :
    e'.leaf.less e.leaf ↔ e.IsLink ∧ ∃ b r, e'.name = e.name ++ b :: r ∧ ¬ 47 < b := by
  have hle : e'.name ≤ e'.leaf.modPath := by
    by_cases hlink : e'.IsLink
    · rw [modPath_of_link hlink]
      exact List.le_append_left
    · rw [modPath_of_file h' hlink]
      exact List.le_refl _
  rw [GitLeaf.less, decide_eq_true_iff]
  by_cases hlink : e.IsLink
  · rw [modPath_of_link hlink]
    rcases lt_cases hlt with ⟨b, r, hname⟩ | hall
    · have hb : b ≠ 47 := by
        rintro rfl
        exact e'.isName.2.2 (hname ▸ List.mem_append_right _ List.mem_cons_self)
      have hmod : ∃ r', e'.leaf.modPath = e.name ++ b :: r' := by
        by_cases hlink' : e'.IsLink
        · rw [modPath_of_link hlink', hname, List.append_assoc]
          exact ⟨r ++ [47], rfl⟩
        · rw [modPath_of_file h' hlink', hname]
          exact ⟨r, rfl⟩
      obtain ⟨r', hmod⟩ := hmod
      rw [hmod]
      constructor
      · intro hless
        refine ⟨hlink, b, r, hname, fun hgreater => List.lt_asymm hless ?_⟩
        exact List.append_left_lt (List.cons_lt_cons_iff.2 (.inl hgreater))
      · rintro ⟨-, b', r'', hname', hb'⟩
        rw [hname] at hname'
        obtain ⟨rfl, -⟩ := List.cons_eq_cons.1 (List.append_cancel_left hname')
        refine List.append_left_lt (List.cons_lt_cons_iff.2 (.inl ?_))
        exact Std.lt_of_le_of_ne (Std.not_lt.1 hb') hb
    · constructor
      · intro hless
        have hforward := hall [47] []
        rw [List.append_nil] at hforward
        exact absurd hless (List.not_lt.2 (List.le_trans (List.le_of_lt hforward) hle))
      · rintro ⟨-, b, r, hname, -⟩
        have hforward := hall (b :: r) []
        rw [List.append_nil, ← hname] at hforward
        exact absurd hforward (List.lt_irrefl _)
  · rw [modPath_of_file h hlink]
    constructor
    · intro hless
      exact absurd hless (List.not_lt.2 (List.le_trans (List.le_of_lt hlt) hle))
    · rintro ⟨hlink', -⟩
      exact absurd hlink' hlink

end TreeEntry

/-! ## The text of a tree -/

lemma parse_treeBody (entries : List TreeEntry) (leaves : List GitLeaf) :
    GitTree.parse .START [] [] [] leaves (treeBody entries) = some (leaves ++ entries.map TreeEntry.leaf) := by
  induction entries generalizing leaves with
  | nil => rw [treeBody, List.flatMap_nil, GitTree.parse, List.map_nil, List.append_nil]
  | cons e entries ih =>
    rw [treeBody, List.flatMap_cons, e.parse_text, ← treeBody, ih, List.map_cons, List.append_assoc,
      List.singleton_append]

theorem deserialize_treeBody (entries : List TreeEntry) :
    GitTree.deserialize (treeBody entries) = some (entries.map TreeEntry.leaf) := parse_treeBody entries []

/-- The entries in the order in which they are written. -/
def resorted (entries : List TreeEntry) : List TreeEntry := entries.mergeSort fun e e' => !e'.leaf.less e.leaf

lemma resorted_perm (entries : List TreeEntry) : (resorted entries).Perm entries := List.mergeSort_perm _ _

lemma sorted_map_leaf (entries : List TreeEntry) :
    GitTree.sorted (entries.map TreeEntry.leaf) = (resorted entries).map TreeEntry.leaf := by
  have hmap := @List.map_mergeSort _ _ (fun e e' : TreeEntry => !e'.leaf.less e.leaf) (fun l l' : GitLeaf => !l'.less l)
    TreeEntry.leaf entries fun _ _ _ _ => rfl
  rw [resorted, GitTree.sorted, hmap]

lemma serialize_map_leaf (entries : List TreeEntry) :
    GitTree.serialize (entries.map TreeEntry.leaf) = some ((resorted entries).flatMap TreeEntry.leafText) := by
  have hmap : ((resorted entries).map TreeEntry.leaf).mapM GitLeaf.serialize =
      some ((resorted entries).map TreeEntry.leafText) := by
    rw [List.mapM_map]
    exact mapM_eq_some fun e _ => e.serialize_leaf
  rw [GitTree.serialize, sorted_map_leaf, hmap]
  rfl

lemma length_flatMap_leafText (entries : List TreeEntry) :
    (entries.flatMap TreeEntry.leafText).length =
      (treeBody entries).length + entries.countP (fun e => decide e.IsDirectory) := by
  induction entries with
  | nil => rfl
  | cons e entries ih =>
    rw [treeBody] at ih ⊢
    rw [List.flatMap_cons, List.flatMap_cons, List.length_append, List.length_append, ih, e.length_leafText,
      List.countP_cons]
    simp only [decide_eq_true_eq]
    omega

lemma flatMap_leafText (h : ∀ e ∈ entries, ¬ e.IsDirectory) : entries.flatMap TreeEntry.leafText = treeBody entries :=
  List.flatMap_congr fun e he => TreeEntry.leafText_eq (h e he)

lemma pairwise_resorted (entries : List TreeEntry) :
    ((resorted entries).map TreeEntry.leaf).Pairwise fun l l' => ¬ l'.less l := by
  have htrans : ∀ a b c : TreeEntry, (!b.leaf.less a.leaf) → (!c.leaf.less b.leaf) → !c.leaf.less a.leaf := by
    intro a b c hab hbc
    simp only [GitLeaf.less, Bool.not_eq_true', decide_eq_false_iff_not, List.not_lt] at hab hbc ⊢
    exact List.le_trans hab hbc
  have htotal : ∀ a b : TreeEntry, (!b.leaf.less a.leaf) || !a.leaf.less b.leaf := by
    intro a b
    simp only [GitLeaf.less, Bool.or_eq_true, Bool.not_eq_true', decide_eq_false_iff_not, List.not_lt]
    exact List.le_total _ _
  rw [List.pairwise_map]
  exact (List.pairwise_mergeSort htrans htotal entries).imp fun h => by simpa using h

/-- Without directories the text is written again exactly if the entries are in order for the code as well. -/
lemma treeBody_resorted_iff (entries : List TreeEntry) :
    treeBody (resorted entries) = treeBody entries ↔ entries.Pairwise fun e e' => ¬ e'.leaf.less e.leaf := by
  constructor
  · intro heq
    have hread := congrArg GitTree.deserialize heq
    rw [deserialize_treeBody, deserialize_treeBody, Option.some.injEq] at hread
    have hsorted := pairwise_resorted entries
    rw [hread, List.pairwise_map] at hsorted
    exact hsorted
  · intro hsorted
    have heq : resorted entries = entries := List.mergeSort_of_pairwise (hsorted.imp fun h => by simpa using h)
    rw [heq]

/-- A tree of git is written as it was read exactly if it has no subtrees and no name goes on, below the slash, after
the name of a link. -/
theorem serialize_deserialize_iff (h : InTreeOrder entries) :
    (GitTree.deserialize (treeBody entries)).bind GitTree.serialize = some (treeBody entries) ↔
      (∀ e ∈ entries, ¬ e.IsDirectory) ∧
        ∀ e ∈ entries, e.IsLink → ∀ e' ∈ entries, ∀ b r, e'.name = e.name ++ b :: r → 47 < b := by
  rw [deserialize_treeBody, Option.bind_some, serialize_map_leaf, Option.some.injEq]
  by_cases hdirectory : ∀ e ∈ entries, ¬ e.IsDirectory
  · have hresorted : ∀ e ∈ resorted entries, ¬ e.IsDirectory := fun e he =>
      hdirectory e ((resorted_perm entries).mem_iff.1 he)
    rw [flatMap_leafText hresorted, treeBody_resorted_iff, and_iff_right hdirectory,
      pairwise_iff_of_pairwise (fun e e' hlt => List.lt_asymm hlt) h]
    constructor
    · intro hall e he hlink e' he' b r hname
      have hlt : e.name < e'.name := hname ▸ lt_append e.name b r
      by_contra hb
      refine hall e he e' he' ?_ ((TreeEntry.less_leaf_iff (hdirectory e he) (hdirectory e' he') hlt).2
        ⟨hlink, b, r, hname, hb⟩)
      rwa [TreeEntry.key_of_not_directory (hdirectory e he), TreeEntry.key_of_not_directory (hdirectory e' he')]
    · intro hall e he e' he' hkey hless
      rw [TreeEntry.key_of_not_directory (hdirectory e he), TreeEntry.key_of_not_directory (hdirectory e' he')] at hkey
      obtain ⟨hlink, b, r, hname, hb⟩ := (TreeEntry.less_leaf_iff (hdirectory e he) (hdirectory e' he') hkey).1 hless
      exact hb (hall e he hlink e' he' b r hname)
  · refine iff_of_false (fun heq => hdirectory fun e he hd => ?_) fun hall => hdirectory hall.1
    have hlength := congrArg List.length heq
    rw [length_flatMap_leafText, (resorted_perm entries).countP_eq, treeBody,
      ((resorted_perm entries).flatMap_right _).length_eq,
      ← treeBody] at hlength
    have hpos : 0 < entries.countP (fun e => decide e.IsDirectory) := List.countP_pos_iff.2 ⟨e, he, decide_eq_true hd⟩
    omega

/-- An entry with a name of one character. -/
def shortEntry (mode : Bytes) (isMode : IsMode mode) (b : UInt8) (hb : b ≠ 0 ∧ b ≠ 47) : TreeEntry where
  mode := mode
  name := [b]
  shaBin := List.replicate 20 0
  isMode := isMode
  isName := ⟨List.cons_ne_nil b [], by simp [Ne.symm hb.1], by simp [Ne.symm hb.2]⟩
  isSha := List.length_replicate

lemma isMode_file : IsMode (ascii "100644") := ⟨ascii "10", by decide, ascii "0644", rfl, rfl, forall_mem_of_all rfl⟩

lemma isMode_link : IsMode (ascii "120000") := ⟨ascii "12", by decide, ascii "0000", rfl, rfl, forall_mem_of_all rfl⟩

lemma isMode_directory : IsMode (ascii "40000") := ⟨ascii "4", by decide, ascii "0000", rfl, rfl, forall_mem_of_all rfl⟩

/-- A link and a file. -/
def linkAndFile : List TreeEntry :=
  [shortEntry _ isMode_link 97 (by decide), shortEntry _ isMode_file 98 (by decide)]

theorem serialize_deserialize_linkAndFile :
    (GitTree.deserialize (treeBody linkAndFile)).bind GitTree.serialize = some (treeBody linkAndFile) := by
  have hlength : ∀ e ∈ linkAndFile, e.name.length = 1 := by decide
  refine (serialize_deserialize_iff ?_).2 ⟨by decide, fun e he _ e' he' b r hname => ?_⟩
  · unfold InTreeOrder
    decide
  · have heq := congrArg List.length hname
    rw [List.length_append, List.length_cons, hlength e he, hlength e' he'] at heq
    omega

/-- One directory. -/
def subtreeOnly : List TreeEntry := [shortEntry _ isMode_directory 97 (by decide)]

theorem serialize_deserialize_subtreeOnly : InTreeOrder subtreeOnly ∧
    (GitTree.deserialize (treeBody subtreeOnly)).bind GitTree.serialize ≠ some (treeBody subtreeOnly) := by
  refine ⟨List.pairwise_singleton _ _, fun heq => ?_⟩
  have hresorted : resorted subtreeOnly = subtreeOnly := List.mergeSort_singleton _
  rw [deserialize_treeBody, Option.bind_some, serialize_map_leaf, hresorted, Option.some.injEq] at heq
  exact absurd heq (by decide)

end CppExperiments.Cgit

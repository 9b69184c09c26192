import CppExperiments.Lib.Path
import Mathlib.Data.List.DropRight

/-!
# Relative paths of joined names

The parent and the last name of a path, the elements by which paths are compared, the paths that are names joined by
single slashes, and the paths that cannot both be files.
-/

namespace CppExperiments.Path

/-- `parent_path` -/
def parentPath (p : Bytes) : Bytes :=
  if p.all (· == 47) then p
  else
    let directory := (p.rdropWhile (· != 47)).rdropWhile (· == 47)
    if directory = [] then p.takeWhile (· == 47) else directory

/-- `filename`, which is empty behind a slash at the end. -/
def filename (p : Bytes) : Bytes := p.rtakeWhile (· != 47)

/-- The root, the components, and an empty one for a slash at the end. -/
def elements (p : Bytes) : List Bytes :=
  (if isAbsolute p then [[47]] else []) ++ components p ++
    if components p ≠ [] ∧ hasFilename p = false then [[]] else []

/-- `operator==` -/
def same (p q : Bytes) : Bool := elements p == elements q

/-- What can be joined. -/
def Names (cs : List Bytes) : Prop := ∀ c ∈ cs, c ≠ [] ∧ (47 : UInt8) ∉ c

def joined (cs : List Bytes) : Bytes := [47].intercalate cs

variable {p q c : Bytes} {cs ds : List Bytes}

lemma prefix_parentPath (p : Bytes) : parentPath p <+: p := by
  rw [parentPath]
  split
  · exact List.prefix_refl p
  · dsimp only
    split
    · exact List.takeWhile_prefix _
    · exact (List.rdropWhile_prefix _ _).trans (List.rdropWhile_prefix _ _)

lemma length_parentPath_lt (h : parentPath p ≠ p) : (parentPath p).length < p.length :=
  lt_of_le_of_ne (prefix_parentPath p).length_le fun hlength => h ((prefix_parentPath p).eq_of_length hlength)

lemma components_append_slashes (p : Bytes) (h : ∀ b ∈ q, b = 47) : components (p ++ q) = components p := by
  induction q generalizing p with
  | nil => rw [List.append_nil]
  | cons b q ih =>
    obtain rfl := h b List.mem_cons_self
    have hq := ih [] fun b hb => h b (List.mem_cons_of_mem 47 hb)
    rw [List.nil_append, components_nil] at hq
    rw [components_append_slash, hq, List.append_nil]

/-- The names of the parent are the first ones of the path. -/
lemma components_parentPath (p : Bytes) : components (parentPath p) <+: components p := by
  rw [parentPath]
  split
  · exact List.prefix_refl _
  · dsimp only
    split
    · obtain ⟨rest, hrest⟩ := List.takeWhile_prefix (· == 47) (l := p)
      have hslashes := components_append_slashes [] fun b hb =>
        beq_iff_eq.1 (@List.mem_takeWhile_imp _ (· == 47) p b hb)
      rw [List.nil_append, components_nil] at hslashes
      rw [hslashes]
      exact List.nil_prefix
    · have hdirectory := components_append_slashes ((p.rdropWhile (· != 47)).rdropWhile (· == 47))
        fun b hb => beq_iff_eq.1 (@List.mem_rtakeWhile_imp _ (· == 47) (p.rdropWhile (· != 47)) b hb)
      rw [List.rdropWhile_append_rtakeWhile] at hdirectory
      rw [← hdirectory]
      obtain ⟨name, hname⟩ := List.rdropWhile_prefix (· != 47) p
      rcases (p.rdropWhile (· != 47)).eq_nil_or_concat' with hnil | ⟨front, b, hfront⟩
      · rw [hnil, components_nil]
        exact List.nil_prefix
      · have hb : b = 47 := by
          have hlast := List.rdropWhile_last_not (· != 47) p (by rw [hfront]; exact List.concat_ne_nil b front)
          simpa [hfront] using hlast
        have hfrontSlash := components_append_slash front []
        rw [components_nil, List.append_nil] at hfrontSlash
        rw [hfront, hb] at hname ⊢
        rw [hfrontSlash, ← hname, List.append_assoc, List.singleton_append, components_append_slash]
        exact List.prefix_append _ _

lemma isAbsolute_parentPath (h : parentPath p ≠ []) : isAbsolute (parentPath p) = isAbsolute p := by
  obtain ⟨rest, hrest⟩ := prefix_parentPath p
  cases hparent : parentPath p with
  | nil => exact absurd hparent h
  | cons b bs =>
    rw [hparent] at hrest
    rw [← hrest]
    rfl

lemma same_iff : same p q = true ↔ elements p = elements q := beq_iff_eq

lemma same_refl (p : Bytes) : same p p = true := same_iff.2 rfl

lemma same_symm (h : same p q = true) : same q p = true := same_iff.2 (same_iff.1 h).symm

lemma same_trans {r : Bytes} (h : same p q = true) (h' : same q r = true) : same p r = true :=
  same_iff.2 ((same_iff.1 h).trans (same_iff.1 h'))

lemma same_congr {r : Bytes} (h : same p q = true) : same p r = same q r := by
  rw [same, same, same_iff.1 h]

/-! ## Joined names -/

lemma Names.left (h : Names (cs ++ ds)) : Names cs := fun c hc => h c (List.mem_append_left ds hc)

lemma Names.right (h : Names (cs ++ ds)) : Names ds := fun c hc => h c (List.mem_append_right cs hc)

lemma Names.last (h : Names (cs ++ [c])) :
    c ≠ [] ∧ (47 : UInt8) ∉ c := h c (List.mem_append_right cs (List.mem_singleton_self c))

lemma joined_nil : joined [] = [] := rfl

lemma joined_singleton (c : Bytes) : joined [c] = c := by simp [joined]

lemma joined_cons (c : Bytes) (h : cs ≠ []) : joined (c :: cs) = c ++ 47 :: joined cs := by
  rw [joined, List.intercalate_cons_of_ne_nil h, List.append_assoc, List.singleton_append]
  rfl

lemma joined_append (hcs : cs ≠ []) (hds : ds ≠ []) : joined (cs ++ ds) = joined cs ++ 47 :: joined ds := by
  induction cs with
  | nil => exact absurd rfl hcs
  | cons c cs ih =>
    rw [List.cons_append, joined_cons c (List.append_ne_nil_of_right_ne_nil cs hds)]
    by_cases h : cs = []
    · rw [h, joined_singleton, List.nil_append]
    · rw [ih h, joined_cons c h, List.append_assoc, List.cons_append]

lemma components_name (h : c ≠ [] ∧ (47 : UInt8) ∉ c) : components c = [c] := by
  rw [components, List.splitOn_eq_singleton h.2, List.filter_cons_of_pos (by simpa using h.1), List.filter_nil]

lemma components_joined (h : Names cs) : components (joined cs) = cs := by
  induction cs with
  | nil => exact components_nil
  | cons c cs ih =>
    have hc := components_name (h c List.mem_cons_self)
    have ih := ih fun d hd => h d (List.mem_cons_of_mem c hd)
    by_cases hcs : cs = []
    · rw [hcs, joined_singleton, hc]
    · rw [← List.singleton_append, joined_append (List.cons_ne_nil c []) hcs, joined_singleton, components_append_slash,
        hc, ih]

lemma joined_inj (hcs : Names cs) (hds : Names ds) (h : joined cs = joined ds) : cs = ds := by
  rw [← components_joined hcs, h, components_joined hds]

/-- A joined path is its last name, behind a slash if there are others. -/
lemma joined_concat (cs : List Bytes) (c : Bytes) :
    joined (cs ++ [c]) = (if cs = [] then [] else joined cs ++ [47]) ++ c := by
  by_cases h : cs = []
  · rw [if_pos h, h, List.nil_append, List.nil_append, joined_singleton]
  · rw [if_neg h, joined_append h (List.cons_ne_nil c []), joined_singleton, List.append_assoc, List.singleton_append]

lemma not_isAbsolute_name (h : c ≠ [] ∧ (47 : UInt8) ∉ c) (p : Bytes) : isAbsolute (c ++ p) = false := by
  obtain ⟨hne, hslash⟩ := h
  cases c with
  | nil => exact absurd rfl hne
  | cons b c =>
    have hb : b ≠ 47 := fun hb => hslash (hb ▸ List.mem_cons_self)
    simp [isAbsolute, hb]

lemma isAbsolute_joined (h : Names cs) : isAbsolute (joined cs) = false := by
  cases cs with
  | nil => rfl
  | cons c cs =>
    have hc := h c List.mem_cons_self
    by_cases hcs : cs = []
    · rw [hcs, joined_singleton, ← List.append_nil c]
      exact not_isAbsolute_name hc []
    · rw [joined_cons c hcs]
      exact not_isAbsolute_name hc _

lemma hasFilename_append (h : c ≠ [] ∧ (47 : UInt8) ∉ c) (p : Bytes) : hasFilename (p ++ c) = true := by
  have hlast : c.getLast h.1 ≠ 47 := fun heq => h.2 (heq ▸ List.getLast_mem h.1)
  rw [hasFilename, List.getLast?_append_of_ne_nil p h.1, List.getLast?_eq_some_getLast h.1]
  simpa using hlast

lemma hasFilename_joined (h : Names (cs ++ [c])) : hasFilename (joined (cs ++ [c])) = true := by
  rw [joined_concat]
  exact hasFilename_append h.last _

/-- One more name. -/
lemma append_joined (h : Names (cs ++ [c])) : append (joined cs) c = joined (cs ++ [c]) := by
  have hc : isAbsolute c = false := by
    rw [← List.append_nil c]
    exact not_isAbsolute_name h.last []
  rw [append, hc, joined_concat]
  rcases cs.eq_nil_or_concat' with rfl | ⟨ds, d, rfl⟩
  · rfl
  · have hne : ds ++ [d] ≠ [] := List.append_ne_nil_of_right_ne_nil ds (List.cons_ne_nil d [])
    rw [hasFilename_joined h.left, if_neg hne, List.append_assoc]
    rfl

lemma ne_slash (h : (47 : UInt8) ∉ c) : ∀ b ∈ c.reverse, (b != 47) = true := by
  intro b hb
  have hne : b ≠ 47 := fun heq => h (heq ▸ List.mem_reverse.1 hb)
  simpa using hne

lemma filename_joined (h : Names (cs ++ [c])) : filename (joined (cs ++ [c])) = c := by
  have hreverse : (joined cs ++ [47]).reverse = 47 :: (joined cs).reverse := List.reverse_concat
  rw [joined_concat, filename, List.rtakeWhile, List.reverse_append, List.takeWhile_append_of_pos (ne_slash h.last.2)]
  by_cases hcs : cs = []
  · rw [if_pos hcs, List.reverse_nil, List.takeWhile_nil, List.append_nil, List.reverse_reverse]
  · rw [if_neg hcs, hreverse, List.takeWhile_cons_of_neg (by decide), List.append_nil, List.reverse_reverse]

lemma rdropWhile_name (h : (47 : UInt8) ∉ c) (p : Bytes) :
    (p ++ c).rdropWhile (· != 47) = p.rdropWhile (· != 47) := by
  rw [List.rdropWhile, List.rdropWhile, List.reverse_append, List.dropWhile_append_of_pos (ne_slash h)]

lemma rdropWhile_slash (h : hasFilename p = true) : (p ++ [47]).rdropWhile (· == 47) = p := by
  rw [List.rdropWhile_concat_pos (· == 47) p 47 rfl, List.rdropWhile_eq_self_iff]
  intro hne hlast
  rw [hasFilename, List.getLast?_eq_some_getLast hne, Option.any_some] at h
  rw [bne, hlast] at h
  cases h

lemma parentPath_joined (h : Names (cs ++ [c])) : parentPath (joined (cs ++ [c])) = joined cs := by
  have hall : ¬ (joined (cs ++ [c])).all (· == 47) = true := by
    intro hall
    have hfile := hasFilename_joined h
    have hne : joined (cs ++ [c]) ≠ [] := fun hnil => by
      rw [hnil] at hfile
      cases hfile
    rw [hasFilename, List.getLast?_eq_some_getLast hne, Option.any_some, bne,
      List.all_eq_true.1 hall _ (List.getLast_mem hne)] at hfile
    cases hfile
  have hstart : isAbsolute (joined (cs ++ [c])) = false := isAbsolute_joined h
  have htake : (joined (cs ++ [c])).takeWhile (· == 47) = [] := by
    cases hp : joined (cs ++ [c]) with
    | nil => rfl
    | cons b p =>
      rw [hp] at hstart
      exact List.takeWhile_cons_of_neg (by simpa [isAbsolute] using hstart)
  rw [parentPath, if_neg hall, htake, joined_concat, rdropWhile_name h.last.2]
  rcases cs.eq_nil_or_concat' with rfl | ⟨ds, d, rfl⟩
  · rfl
  · have hne : ds ++ [d] ≠ [] := List.append_ne_nil_of_right_ne_nil ds (List.cons_ne_nil d [])
    have hfile := hasFilename_joined h.left
    have hdrop : (joined (ds ++ [d]) ++ [47]).rdropWhile (· != 47) = joined (ds ++ [d]) ++ [47] :=
      List.rdropWhile_concat_neg _ _ _ (by decide)
    rw [if_neg hne, hdrop, rdropWhile_slash hfile]
    dsimp only
    split
    · next hnil => rw [hnil]
    · rfl

lemma elements_joined (h : Names cs) : elements (joined cs) = cs := by
  rw [elements, isAbsolute_joined h, components_joined h]
  have hend : ¬ (cs ≠ [] ∧ hasFilename (joined cs) = false) := by
    rintro ⟨hne, hfile⟩
    rcases cs.eq_nil_or_concat' with rfl | ⟨ds, d, rfl⟩
    · exact hne rfl
    · rw [hasFilename_joined h] at hfile
      cases hfile
  rw [if_neg hend, List.append_nil]
  rfl

lemma same_joined (hcs : Names cs) (hds : Names ds) : same (joined cs) (joined ds) = true ↔ cs = ds := by
  rw [same, elements_joined hcs, elements_joined hds, beq_iff_eq]

lemma hasFilename_append_joined (h : Names cs) (hne : cs ≠ []) (p : Bytes) :
    hasFilename (append p (joined cs)) = true := by
  rcases cs.eq_nil_or_concat' with rfl | ⟨ds, d, rfl⟩
  · exact absurd rfl hne
  · have hlast : ∀ q, hasFilename (q ++ joined (ds ++ [d])) = true := fun q => by
      rw [joined_concat, ← List.append_assoc]
      exact hasFilename_append h.last _
    rw [append, isAbsolute_joined h, if_neg (by decide)]
    split
    · rw [← List.singleton_append, ← List.append_assoc]
      exact hlast _
    · exact hlast _

lemma elements_append_joined (h : Names cs) (hne : cs ≠ []) (p : Bytes) :
    elements (append p (joined cs)) = (if isAbsolute p then [[47]] else []) ++ (components p ++ cs) := by
  have habsolute := isAbsolute_joined h
  have hend : ¬ (components (append p (joined cs)) ≠ [] ∧ hasFilename (append p (joined cs)) = false) := by
    rintro ⟨-, hfile⟩
    rw [hasFilename_append_joined h hne] at hfile
    cases hfile
  rw [elements, if_neg hend, isAbsolute_append habsolute, components_append habsolute, components_joined h,
    List.append_nil]

lemma same_append_joined (hcs : Names cs) (hds : Names ds) (hc : cs ≠ []) (hd : ds ≠ []) (p : Bytes) :
    same (append p (joined cs)) (append p (joined ds)) = true ↔ cs = ds := by
  rw [same_iff, elements_append_joined hcs hc, elements_append_joined hds hd, List.append_cancel_left_eq,
    List.append_cancel_left_eq]

/-- What lies below a directory. -/
lemma joined_slash_prefix_iff (hcs : Names cs) (hds : Names ds) (hne : cs ≠ []) :
    joined cs ++ [47] <+: joined ds ↔ cs <+: ds ∧ cs ≠ ds := by
  constructor
  · rintro ⟨p, hp⟩
    have hsplit : ds = cs ++ components p := by
      rw [← components_joined hds, ← hp, List.append_assoc, List.singleton_append, components_append_slash,
        components_joined hcs]
    refine ⟨⟨_, hsplit.symm⟩, ?_⟩
    rintro rfl
    have hlength := congrArg List.length hp
    rw [List.length_append, List.length_append, List.length_singleton] at hlength
    omega
  · rintro ⟨⟨es, rfl⟩, hes⟩
    have hes : es ≠ [] := fun hnil => hes (by rw [hnil, List.append_nil])
    exact ⟨joined es, by rw [joined_append hne hes, List.append_assoc, List.singleton_append]⟩

/-! ## Files and directories -/

lemma append_of_absolute (h : isAbsolute q = true) (p : Bytes) : append p q = q := if_pos h

lemma append_of_relative (h : isAbsolute q = false) (p : Bytes) :
    append p q = if hasFilename p then p ++ 47 :: q else p ++ q :=
  if_neg (by rw [h]; exact Bool.false_ne_true)

lemma hasFilename_append_last (p q : Bytes) (b : UInt8) : hasFilename (p ++ (q ++ [b])) = (b != 47) := by
  rw [hasFilename, ← List.append_assoc, List.getLast?_concat]
  rfl

lemma hasFilename_append_of_ne (hq : isAbsolute q = false) (hne : q ≠ []) (p : Bytes) :
    hasFilename (append p q) = hasFilename q := by
  rcases q.eq_nil_or_concat' with rfl | ⟨front, b, rfl⟩
  · exact absurd rfl hne
  · have hlast := hasFilename_append_last [] front b
    rw [List.nil_append] at hlast
    rw [append_of_relative hq, hlast]
    split
    · exact hasFilename_append_last p (47 :: front) b
    · exact hasFilename_append_last p front b

/-- Joining is associative. -/
lemma append_assoc (p q r : Bytes) : append (append p q) r = append p (append q r) := by
  cases hr : isAbsolute r with
  | true => rw [append_of_absolute hr, append_of_absolute hr, append_of_absolute hr]
  | false =>
    have hqr := isAbsolute_append (p := q) hr
    cases hq : isAbsolute q with
    | true => rw [append_of_absolute hq, append_of_absolute (hqr.trans hq)]
    | false =>
      rw [append_of_relative (hqr.trans hq), append_of_relative hr, append_of_relative hr q]
      by_cases hnil : q = []
      · subst hnil
        have hslash : hasFilename (p ++ [47]) = false := hasFilename_append_last p [] 47
        rw [append_of_relative hq, if_neg (by decide : ¬ hasFilename [] = true), List.nil_append]
        by_cases hp : hasFilename p = true
        · rw [if_pos hp, if_pos hp, if_neg (by rw [hslash]; exact Bool.false_ne_true), List.append_assoc,
            List.singleton_append]
        · rw [if_neg hp, if_neg hp, List.append_nil, if_neg hp]
      · rw [hasFilename_append_of_ne hq hnil, append_of_relative hq]
        split_ifs <;> simp

lemma filename_append_slash (p q : Bytes) : filename (p ++ 47 :: q) = filename q := by
  rw [filename, filename, List.rtakeWhile, List.rtakeWhile, List.reverse_append, List.reverse_cons, List.append_assoc,
    List.singleton_append, List.takeWhile_append, List.takeWhile_cons_of_neg (by decide), List.append_nil]
  split
  · rename_i hlength
    rw [(List.takeWhile_prefix _).eq_of_length hlength]
  · rfl

lemma filename_append (p q : Bytes) : filename (append p q) = filename q := by
  rw [append]
  split_ifs with hq hp
  · rfl
  · exact filename_append_slash p q
  · rcases p.eq_nil_or_concat' with rfl | ⟨front, b, rfl⟩
    · rfl
    · obtain rfl : b = 47 := by simpa [hasFilename] using hp
      rw [List.append_assoc, List.singleton_append, filename_append_slash]

lemma filename_of_notMem (h : (47 : UInt8) ∉ p) : filename p = p := by
  rw [filename, List.rtakeWhile_eq_self_iff]
  intro b hb
  have hne : b ≠ 47 := fun heq => h (heq ▸ hb)
  simpa using hne

/-- What is in front of a slash can be split off. -/
lemma exists_filename (h : (47 : UInt8) ∈ p) : ∃ front, p = front ++ 47 :: filename p := by
  have hsplit := List.rdropWhile_append_rtakeWhile (p := (· != 47)) (l := p)
  rcases (p.rdropWhile (· != 47)).eq_nil_or_concat' with hnil | ⟨front, b, hfront⟩
  · rw [List.rdropWhile_eq_nil_iff] at hnil
    exact absurd (hnil 47 h) (by decide)
  · have hb : b = 47 := by
      have hlast := List.rdropWhile_last_not (· != 47) p (by rw [hfront]; simp)
      simpa [hfront] using hlast
    refine ⟨front, ?_⟩
    rw [hfront, hb, List.append_assoc, List.singleton_append] at hsplit
    exact hsplit.symm

lemma filename_mem_components (h : Name (filename p)) : filename p ∈ components p := by
  by_cases hslash : (47 : UInt8) ∈ p
  · obtain ⟨front, hfront⟩ := exists_filename hslash
    have hcomponents := components_append_slash front (filename p)
    rw [← hfront, h.components] at hcomponents
    rw [hcomponents]
    exact List.mem_append_right _ List.mem_cons_self
  · rw [filename_of_notMem hslash] at h ⊢
    rw [h.components]
    exact List.mem_cons_self

lemma filename_filename (p : Bytes) : filename (filename p) = filename p :=
  filename_of_notMem fun h => absurd (List.mem_rtakeWhile_imp h) (by decide)

/-- A dot in front changes the last name only if it is the only one. -/
lemma filename_cons_dot (p : Bytes) : filename (46 :: p) = if (47 : UInt8) ∈ p then filename p else 46 :: p := by
  split_ifs with hslash
  · obtain ⟨front, hfront⟩ := exists_filename hslash
    conv_lhs => rw [hfront, ← List.cons_append]
    exact filename_append_slash (46 :: front) (filename p) |>.trans (filename_filename p)
  · exact filename_of_notMem (by simpa using hslash)

/-- The names that a path goes through. -/
def stages (p : Bytes) : List Bytes := (components p).filter (· != dot)

/-- One of the paths needs a directory where the other one has its file. -/
def Clash (p q : Bytes) : Prop :=
  isAbsolute p = isAbsolute q ∧ stages p ≠ stages q ∧ (stages p <+: stages q ∨ stages q <+: stages p)

lemma stages_append (hq : isAbsolute q = false) : stages (append p q) = stages p ++ stages q := by
  rw [stages, components_append hq, List.filter_append]
  rfl

lemma clash_append_iff (hp : isAbsolute p = isAbsolute q) (d : Bytes) : Clash (append d p) (append d q) ↔ Clash p q := by
  by_cases habsolute : isAbsolute p = true
  · rw [append, append, if_pos habsolute, if_pos (hp ▸ habsolute)]
  · have hp' : isAbsolute p = false := Bool.not_eq_true _ ▸ habsolute
    have hq' : isAbsolute q = false := hp ▸ hp'
    rw [Clash, Clash, isAbsolute_append hp', isAbsolute_append hq', stages_append hp', stages_append hq', hp,
      List.prefix_append_right_inj, List.prefix_append_right_inj, Ne, List.append_cancel_left_eq]
    exact and_congr_left fun _ => iff_of_true rfl rfl

end CppExperiments.Path

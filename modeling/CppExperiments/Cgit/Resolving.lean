import CppExperiments.Cgit.Lookup
import CppExperiments.Lib.Trimming

/-!
# Refs

A ref is resolved as it is meant if no file on the way is empty, the way comes to an end, and it does not matter that
the last character of every file is taken off.
-/

namespace CppExperiments.Cgit

open GitDir

/-- The packed refs, of which the last line for a ref counts; `none` where a line does not have two fields. -/
def parsePackedRefs (parsedRefsFile : Bytes) : Option (Bytes → Option Bytes) :=
  (parsedRefsFile.splitOn 10).foldlM (fun packedRefs line =>
    let line := trimBy isSpace line
    if line = [] ∨ line.head? = some 35 then some packedRefs
    else
      match (line.splitOn 32).map (trimBy isSpace) with
      | [sha, ref] => some (Function.update packedRefs ref (some sha))
      | _ => none) fun _ => none

namespace GitDir

variable {dir : GitDir} {path target text id : Bytes} {line : Bytes → Bytes}

/-- The directory of a repository with these packed refs, if it can be opened. -/
def opened (dir : GitDir) (parsedRefsFile : Bytes) : Option GitDir :=
  (parsePackedRefs parsedRefsFile).map fun packedRefs => { dir with packedRefs := packedRefs }

/-- The chain of refs leads to an object, if every file is read as its line. -/
inductive Leads (dir : GitDir) (line : Bytes → Bytes) : Bytes → Bytes → Prop where
  | packed {path id : Bytes} : dir.files path = none → dir.packedRefs (dir.relative path) = some id →
      Leads dir line path id
  | loose {path text : Bytes} : dir.files path = some text → ¬ ascii "ref: " <+: line text →
      Leads dir line path (line text)
  | symbolic {path text target id : Bytes} : dir.files path = some text → line text = ascii "ref: " ++ target →
      Leads dir line target id → Leads dir line path id

/-- The line of a file that ends with it, or with its newline. -/
def lineOf (text : Bytes) : Bytes := if text.getLast? = some 10 then text.dropLast else text

/-- The way ends at a ref that is not symbolic, if the last character of every file is taken off, and no file on it is
empty. -/
inductive ComesToEnd (dir : GitDir) : Bytes → Prop where
  | packed {path : Bytes} : dir.files path = none → ComesToEnd dir path
  | loose {path text : Bytes} : dir.files path = some text → text ≠ [] → ¬ ascii "ref: " <+: text.dropLast →
      ComesToEnd dir path
  | symbolic {path text target : Bytes} : dir.files path = some text → text.dropLast = ascii "ref: " ++ target →
      ComesToEnd dir target → ComesToEnd dir path

/-- A symbolic ref whose line ends with a newline leads to the next ref. -/
def Next (dir : GitDir) (path target : Bytes) : Prop := dir.files path = some (ascii "ref: " ++ target ++ [10])

/-- Where a file on the way does not end with a newline, it leads to no object, or to the same one without its last
character. -/
def Spared (dir : GitDir) (path : Bytes) : Prop :=
  ∀ ref text, Relation.ReflTransGen dir.Next path ref → dir.files ref = some text → text.getLast? ≠ some 10 →
    ∀ id, IsSha id → dir.Leads lineOf ref id → dir.Leads List.dropLast ref id

/-- The ref is resolved, and to the object that its chain leads to. -/
def Resolves (dir : GitDir) (path : Bytes) : Prop :=
  ∃ v, Ends (fun n => dir.refResolve n path) (.ok v) ∧ ∀ id, IsSha id → dir.Leads lineOf path id → v = id

/-! ## The way of the loop -/

lemma refStep_of_none (h : dir.files path = none) :
    dir.refStep path = some (.inl (dir.getPackedRef (dir.relative path))) := by
  rw [refStep, h]

lemma refStep_of_loose (h : dir.files path = some text) (hne : text ≠ []) (href : ¬ ascii "ref: " <+: text.dropLast) :
    dir.refStep path = some (.inl text.dropLast) := by
  rw [refStep, h]
  dsimp only
  rw [if_neg hne, if_neg href]

lemma refStep_of_symbolic (h : dir.files path = some text) (href : text.dropLast = ascii "ref: " ++ target) :
    dir.refStep path = some (.inr target) := by
  have hne : text ≠ [] := by
    rintro rfl
    exact absurd href.symm (List.append_ne_nil_of_left_ne_nil (by decide) _)
  have hdrop : (ascii "ref: " ++ target).drop 5 = target := List.drop_left' rfl
  rw [refStep, h]
  dsimp only
  rw [if_neg hne, href, if_pos (List.prefix_append _ _), hdrop]

/-- What a round of the loop can do. -/
lemma refStep_cases (dir : GitDir) (path : Bytes) :
    (dir.files path = none ∧ dir.refStep path = some (.inl (dir.getPackedRef (dir.relative path)))) ∨
      (∃ text, dir.files path = some text ∧ text = [] ∧ dir.refStep path = none) ∨
      (∃ text, dir.files path = some text ∧ text ≠ [] ∧ (¬ ascii "ref: " <+: text.dropLast) ∧
        dir.refStep path = some (.inl text.dropLast)) ∨
      ∃ text target, dir.files path = some text ∧ text.dropLast = ascii "ref: " ++ target ∧
        dir.refStep path = some (.inr target) := by
  cases hfile : dir.files path with
  | none => exact Or.inl ⟨rfl, refStep_of_none hfile⟩
  | some text =>
    refine Or.inr ?_
    by_cases hne : text = []
    · refine Or.inl ⟨text, rfl, hne, ?_⟩
      rw [refStep, hfile]
      exact if_pos hne
    · by_cases href : ascii "ref: " <+: text.dropLast
      · obtain ⟨target, htarget⟩ := href
        exact Or.inr (Or.inr ⟨text, target, rfl, htarget.symm, refStep_of_symbolic hfile htarget.symm⟩)
      · exact Or.inr (Or.inl ⟨text, rfl, hne, href, refStep_of_loose hfile hne href⟩)

lemma comesToEnd_of_concludes {r : Option Bytes} (h : Concludes dir.refStep path r) (hr : r ≠ none) :
    ComesToEnd dir path := by
  induction h with
  | throws _ => exact absurd rfl hr
  | @returns path b hstep =>
    rcases refStep_cases dir path with ⟨hfile, -⟩ | ⟨text, -, -, h⟩ | ⟨text, hfile, hne, href, -⟩ | ⟨text, target, -,
      -, h⟩
    · exact .packed hfile
    · exact absurd (hstep.symm.trans h) nofun
    · exact .loose hfile hne href
    · exact absurd (hstep.symm.trans h) nofun
  | @again path target r hstep _ ih =>
    rcases refStep_cases dir path with ⟨-, h⟩ | ⟨text, -, -, h⟩ | ⟨text, -, -, -, h⟩ | ⟨text, next, hfile, href, h⟩
    · exact absurd (hstep.symm.trans h) nofun
    · exact absurd (hstep.symm.trans h) nofun
    · exact absurd (hstep.symm.trans h) nofun
    · obtain rfl := Sum.inr.inj (Option.some.inj (hstep.symm.trans h))
      exact .symbolic hfile href (ih hr)

lemma ComesToEnd.concludes (h : ComesToEnd dir path) : ∃ v, Concludes dir.refStep path (some v) := by
  induction h with
  | packed hfile => exact ⟨_, .returns (refStep_of_none hfile)⟩
  | loose hfile hne href => exact ⟨_, .returns (refStep_of_loose hfile hne href)⟩
  | symbolic hfile href _ ih =>
    obtain ⟨v, hv⟩ := ih
    exact ⟨v, .again (refStep_of_symbolic hfile href) hv⟩

/-- The loop returns what the chain leads to without the last characters. -/
lemma concludes_of_leads (h : dir.Leads List.dropLast path id) (hid : id ≠ []) :
    Concludes dir.refStep path (some id) := by
  induction h with
  | packed hfile hpacked =>
    refine .returns ?_
    rw [refStep_of_none hfile, getPackedRef, hpacked, Option.getD_some]
  | @loose path text hfile href =>
    refine .returns (refStep_of_loose hfile ?_ href)
    rintro rfl
    exact hid rfl
  | symbolic hfile href _ ih => exact .again (refStep_of_symbolic hfile href) (ih hid)

lemma leads_of_concludes {r : Option Bytes} (h : Concludes dir.refStep path r) (hr : r = some id) (hid : id ≠ []) :
    dir.Leads List.dropLast path id := by
  induction h with
  | throws _ => cases hr
  | @returns path b hstep =>
    obtain rfl := Option.some.inj hr
    rcases refStep_cases dir path with ⟨hfile, h⟩ | ⟨text, -, -, h⟩ | ⟨text, hfile, -, href, h⟩ | ⟨text, target, -, -,
      h⟩
    · have hpacked := Sum.inl.inj (Option.some.inj (hstep.symm.trans h))
      rw [getPackedRef] at hpacked
      cases hlookup : dir.packedRefs (dir.relative path) with
      | none =>
        rw [hlookup] at hpacked
        exact absurd hpacked hid
      | some sha =>
        rw [hlookup] at hpacked
        exact hpacked ▸ .packed hfile hlookup
    · cases hstep.symm.trans h
    · rw [Sum.inl.inj (Option.some.inj (hstep.symm.trans h))]
      exact .loose hfile href
    · cases hstep.symm.trans h
  | @again path target r hstep _ ih =>
    rcases refStep_cases dir path with ⟨-, h⟩ | ⟨text, -, -, h⟩ | ⟨text, -, -, -, h⟩ | ⟨text, next, hfile, href, h⟩
    · cases hstep.symm.trans h
    · cases hstep.symm.trans h
    · cases hstep.symm.trans h
    · obtain rfl := Sum.inr.inj (Option.some.inj (hstep.symm.trans h))
      exact .symbolic hfile href (ih hr)

lemma ends_iff_concludes {v : Bytes} : Ends (fun n => dir.refResolve n path) (.ok v) ↔
    Concludes dir.refStep path (some v) := (looping_refResolve dir).ends_iff (r := some v)

/-! ## Lines -/

lemma lineOf_of_newline (h : text.getLast? = some 10) : lineOf text = text.dropLast := if_pos h

lemma eq_dropLast_append (h : text.getLast? = some 10) : text = text.dropLast ++ [10] :=
  (List.dropLast_append_getLast? 10 h).symm

lemma ne_nil_of_isSha (h : IsSha id) : id ≠ [] := by
  rintro rfl
  exact absurd h.1 (by decide)

lemma Spared.next (h : Spared dir path) (hnext : Next dir path target) : Spared dir target :=
  fun ref text hpath => h ref text (.head hnext hpath)

/-- As far as the chain goes, it is the same without the last characters. -/
lemma leads_of_spared (h : dir.Leads lineOf path id) (hid : IsSha id) (hspared : Spared dir path) :
    dir.Leads List.dropLast path id := by
  induction h with
  | packed hfile hpacked => exact .packed hfile hpacked
  | @loose path text hfile href =>
    by_cases hnewline : text.getLast? = some 10
    · rw [lineOf_of_newline hnewline] at href ⊢
      exact .loose hfile href
    · exact hspared path text .refl hfile hnewline _ hid (.loose hfile href)
  | @symbolic path text target id hfile href hleads ih =>
    by_cases hnewline : text.getLast? = some 10
    · rw [lineOf_of_newline hnewline] at href
      have hnext : Next dir path target := by
        rw [Next, hfile, ← href, ← eq_dropLast_append hnewline]
      exact .symbolic hfile href (ih hid (hspared.next hnext))
    · exact hspared path text .refl hfile hnewline _ hid (.symbolic hfile href hleads)

lemma Leads.of_next {read : Bytes → Bytes} (hread : ∀ l, read (l ++ [10]) = l)
    {ref : Bytes} (hpath : Relation.ReflTransGen dir.Next path ref) (h : dir.Leads read ref id) :
    dir.Leads read path id := by
  induction hpath using Relation.ReflTransGen.head_induction_on with
  | refl => exact h
  | head hnext _ ih => exact .symbolic hnext (hread _) ih

lemma concludes_next {ref : Bytes} {r : Option Bytes} (hpath : Relation.ReflTransGen dir.Next path ref)
    (h : Concludes dir.refStep path r) : Concludes dir.refStep ref r := by
  induction hpath with
  | refl => exact h
  | tail _ hnext ih =>
    have hsymbolic := refStep_of_symbolic hnext List.dropLast_concat
    cases ih with
    | throws hstep => exact absurd (hsymbolic.symm.trans hstep) nofun
    | returns hstep => exact absurd (hsymbolic.symm.trans hstep) nofun
    | again hstep hrest =>
      obtain rfl := Sum.inr.inj (Option.some.inj (hsymbolic.symm.trans hstep))
      exact hrest

/-- A ref of an opened repository is resolved, and to the object that its chain leads to, if and only if the chain
comes to an end and is spared. -/
theorem resolves_iff (dir : GitDir) (parsedRefsFile path : Bytes) :
    ∀ repo ∈ dir.opened parsedRefsFile, Resolves repo path ↔ ComesToEnd repo path ∧ Spared repo path := by
  intro repo _
  constructor
  · rintro ⟨v, hends, hid⟩
    rw [ends_iff_concludes] at hends
    refine ⟨comesToEnd_of_concludes hends nofun, fun ref text hpath _ _ id hsha hleads => ?_⟩
    have hline : ∀ l, lineOf (l ++ [10]) = l := by
      intro l
      rw [lineOf_of_newline (by rw [List.getLast?_concat]), List.dropLast_concat]
    have heq := hid id hsha (hleads.of_next hline hpath)
    exact leads_of_concludes (concludes_next hpath hends) (congrArg some heq) (ne_nil_of_isSha hsha)
  · rintro ⟨hend, hspared⟩
    obtain ⟨v, hv⟩ := hend.concludes
    refine ⟨v, ends_iff_concludes.2 hv, fun id hsha hleads => ?_⟩
    have hid := concludes_of_leads (leads_of_spared hleads hsha hspared) (ne_nil_of_isSha hsha)
    exact Option.some.inj (hv.unique hid)

/-- A repository whose `HEAD` refers to a branch. -/
def attachedOpen : GitDir where
  objects := []
  packs := []
  files path := if path = ascii "HEAD" then some (ascii "ref: " ++ ascii "refs/heads/main" ++ [10]) else none
  relative path := path
  packedRefs _ := none

/-- The branch, among the packed refs. -/
def mainPacked : Bytes := ascii "# pack-refs\n" ++ (List.replicate 40 97 ++ ascii " refs/heads/main\n")

/-- A symbolic ref to a branch that is packed. -/
theorem resolves_iff_packed : ∃ repo ∈ attachedOpen.opened mainPacked, Resolves repo (ascii "HEAD") ∧
    repo.Leads lineOf (ascii "HEAD") (List.replicate 40 97) := by
  have hopened : attachedOpen.opened mainPacked = some { attachedOpen with
      packedRefs := Function.update (fun _ => none) (ascii "refs/heads/main") (some (List.replicate 40 97)) } := rfl
  have hhead : attachedOpen.files (ascii "HEAD") = some (ascii "ref: " ++ ascii "refs/heads/main" ++ [10]) := rfl
  refine ⟨_, hopened, (resolves_iff attachedOpen mainPacked (ascii "HEAD") _ hopened).2 ⟨?_, ?_⟩, ?_⟩
  · exact .symbolic hhead List.dropLast_concat (.packed rfl)
  · intro ref text _ hfile hnewline
    by_cases href : ref = ascii "HEAD"
    · subst href
      obtain rfl := Option.some.inj (hhead.symm.trans hfile)
      exact absurd List.getLast?_concat hnewline
    · rw [attachedOpen] at hfile
      exact absurd (hfile.symm.trans (if_neg href)) (Option.some_ne_none text)
  · exact .symbolic hhead (by rw [lineOf_of_newline List.getLast?_concat, List.dropLast_concat])
      (.packed rfl rfl)

/-- A repository whose `HEAD` has the name of an object, without a newline. -/
def detachedOpen (sha : Bytes) : GitDir where
  objects := []
  packs := []
  files path := if path = ascii "HEAD" then some sha else none
  relative path := path
  packedRefs _ := none

/-- The last digit of the name is lost. -/
theorem resolves_failing : ¬ ∀ (dir : GitDir) (parsedRefsFile path : Bytes), ∀ repo ∈ dir.opened parsedRefsFile,
    Resolves repo path := by
  intro hall
  have hsha : IsSha (List.replicate 40 97) := by
    unfold IsSha
    decide
  obtain ⟨v, hends, hid⟩ := hall (detachedOpen (List.replicate 40 97)) [] (ascii "HEAD")
    (detachedOpen (List.replicate 40 97)) rfl
  have hfile : (detachedOpen (List.replicate 40 97)).files (ascii "HEAD") = some (List.replicate 40 97) := rfl
  have hleads : (detachedOpen (List.replicate 40 97)).Leads lineOf (ascii "HEAD") (List.replicate 40 97) :=
    .loose hfile (by decide)
  have hreturns := Concludes.returns (refStep_of_loose hfile (by decide) (by decide))
  have heq := Option.some.inj ((ends_iff_concludes.1 hends).unique hreturns)
  rw [hid _ hsha hleads] at heq
  exact absurd heq (by decide)

end GitDir

end CppExperiments.Cgit

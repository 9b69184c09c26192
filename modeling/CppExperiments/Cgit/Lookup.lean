import CppExperiments.Cgit.Objects
import CppExperiments.Lib.Loops
import Mathlib.Data.List.Dedup

/-!
# Names of objects

What a name denotes in a directory, and when the search for an object of a type by its name finds it.
-/

namespace CppExperiments.Cgit

/-! ## Chains of objects -/

/-- The object behind a tag, or the tree behind a commit. -/
def GitObject.next : GitObject → Option Bytes
  | tag object => some object
  | commit root => some root
  | _ => none

section Chains

variable (objects : Bytes → Option GitObject) (fmt : Bytes)

/-- The first object of the type behind an object, or nothing at the end. -/
inductive Peels : Bytes → Bytes → Prop where
  | found {sha : Bytes} {o : GitObject} : objects sha = some o → o.fmt = fmt → Peels sha sha
  | again {sha next out : Bytes} {o : GitObject} : objects sha = some o → o.fmt ≠ fmt → o.next = some next →
      Peels next out → Peels sha out
  | ended {sha : Bytes} {o : GitObject} : objects sha = some o → o.fmt ≠ fmt → o.next = none → Peels sha []

/-- The chain goes from one object to the next one. -/
def Link (sha next : Bytes) : Prop := ∃ o, objects sha = some o ∧ o.fmt ≠ fmt ∧ o.next = some next

def Passes : Bytes → Bytes → Prop := Relation.ReflTransGen (Link objects fmt)

end Chains

namespace GitDir

/-! ## Names -/

section Names

variable (dir : GitDir) (now : Int) (objects : Bytes → Option GitObject) (name fmt : Bytes)

/-- A ref has the name of an object, or refers to another ref. -/
inductive RefersTo : Bytes → Bytes → Prop where
  | packed {path id : Bytes} : dir.files path = none → dir.packedRefs (dir.relative path) = some id → RefersTo path id
  | loose {path id : Bytes} : dir.files path = some (id ++ [10]) → ¬ ascii "ref: " <+: id → RefersTo path id
  | symbolic {path target id : Bytes} :
      dir.files path = some (ascii "ref: " ++ target ++ [10]) → RefersTo target id → RefersTo path id

/-- The refs that a ref refers to come to an end. -/
inductive Settles : Bytes → Prop where
  | direct {path : Bytes} : (∀ target, dir.files path ≠ some (ascii "ref: " ++ target ++ [10])) → Settles path
  | symbolic {path target : Bytes} :
      dir.files path = some (ascii "ref: " ++ target ++ [10]) → Settles target → Settles path

def tagPath : Bytes := ascii "refs/tags/" ++ name

def branchPath : Bytes := ascii "refs/heads/" ++ name

def Denotes (id : Bytes) : Prop :=
  (IsHash name ∧ lower name <+: id ∧ (objects id).isSome) ∨
    (dir.RefersTo (tagPath name) id ∨ dir.RefersTo (branchPath name) id) ∧ id ≠ []

/-- A name denotes this and nothing else. -/
def Only (id : Bytes) : Prop := dir.Denotes objects name id ∧ ∀ id', dir.Denotes objects name id' → id' = id

/-- What is found is what the name denotes, or the first object of the type behind it. It throws if the name denotes
nothing, or more than one. -/
def Found : Prop :=
  (∀ id, dir.Only objects name id → if fmt = [] then Ends (fun n => dir.findObject now n name fmt true) (.ok id)
    else ∃ out, Peels objects fmt id out ∧ Ends (fun n => dir.findObject now n name fmt true) (.ok out)) ∧
  ((∀ id, ¬ dir.Only objects name id) → Ends (fun n => dir.findObject now n name fmt true) (.error .threw))

/-! ## What is reported -/

/-- The names of objects that are reported by the loose files and by the packs. -/
noncomputable def reported : List Bytes :=
  if IsHash name then dir.looseMatches (lower name) ++ (dir.entries (lower name)).map fun m => m.2.1 else []

open Classical in
/-- How many candidates there are. -/
noncomputable def reports : Nat :=
  (dir.reported name).length + (if ∃ id, dir.RefersTo (tagPath name) id ∧ id ≠ [] then 1 else 0) +
    if ∃ id, dir.RefersTo (branchPath name) id ∧ id ≠ [] then 1 else 0

/-- All the objects of a chain can be read, and it does not come to a blob in search of a tree. -/
def Followable (id : Bytes) : Prop :=
  (∃ out, Peels objects fmt id out) ∧
    ∀ sha, Passes objects fmt id sha →
      dir.Single sha ∧ ¬ (fmt = ascii "tree" ∧ ∃ content, objects sha = some (.blob content))

/-- What an object leads to: the object of a tag, and the tree of a commit or, in search of a tree, of anything else. -/
def Follows (sha next : Bytes) : Prop :=
  (dir.readObjectType sha = some (ascii "tag") ∧
    ∃ tag, dir.readTag now sha = some tag ∧ (headers tag (ascii "object")).head? = some next) ∨
  (dir.readObjectType sha ≠ some (ascii "tag") ∧
    ∃ commit, dir.readCommit now sha = some commit ∧ (headers commit (ascii "tree")).head? = some next)

/-- An object that leads to another one, or should. -/
def Onward (objFmt : Bytes) : Prop := objFmt = ascii "tag" ∨ objFmt = ascii "commit" ∨ fmt = ascii "tree"

/-- From one object that is not of the type to the next one. -/
def Step (sha next : Bytes) : Prop :=
  ∃ objFmt, dir.readObjectType sha = some objFmt ∧ objFmt ≠ fmt ∧ Onward fmt objFmt ∧ dir.Follows now sha next

/-- An object that cannot be read, or that leads to none where it should. -/
def Dead (sha : Bytes) : Prop :=
  dir.readObjectType sha = none ∨
    ∃ objFmt, dir.readObjectType sha = some objFmt ∧ objFmt ≠ fmt ∧ Onward fmt objFmt ∧ ∀ next, ¬ dir.Follows now sha next

/-- The objects from one on come to a dead one. -/
def Broken (sha : Bytes) : Prop := ∃ last, Relation.ReflTransGen (dir.Step now fmt) sha last ∧ dir.Dead now fmt last

/-- The positions of the searches for a name, and for the objects behind what it denotes, fit 32 bits. -/
structure Reaches : Prop where
  search : IsHash name → dir.Searchable (lower name)
  chain : ∀ id, dir.Only objects name id → fmt ≠ [] → ∀ sha, Passes objects fmt id sha → dir.Located sha

/-- The refs come to an end. What a name denotes is reported once, and its chain can be followed; if it denotes
nothing, it is not just the bytes behind the names of one pack that are reported, or what these lead to is broken. -/
structure Clear : Prop where
  tag : dir.Settles (tagPath name)
  branch : dir.Settles (branchPath name)
  once : ∀ id, dir.Only objects name id → dir.reports name = 1 ∧ (fmt ≠ [] → dir.Followable objects fmt id)
  nothing : (∀ id, ¬ dir.Denotes objects name id) → ∀ sha, dir.reported name = [sha] →
    fmt ≠ [] ∧ dir.Broken now fmt sha

end Names

/-! ## The loops -/

variable {dir : GitDir} {now : Int} {objects : Bytes → Option GitObject} {name fmt sha path id : Bytes}
  {o : GitObject} {r : Option Bytes}

def refStep (dir : GitDir) (path : Bytes) : Option (Bytes ⊕ Bytes) :=
  match dir.files path with
  | none => some (.inl (dir.getPackedRef (dir.relative path)))
  | some text =>
    if text = [] then none
    else if ascii "ref: " <+: text.dropLast then some (.inr (text.dropLast.drop 5)) else some (.inl text.dropLast)

/-- A round of the loop over the chain. -/
def peelStep (dir : GitDir) (now : Int) (fmt sha : Bytes) : Option (Bytes ⊕ Bytes) := do
  let objFmt ← dir.readObjectType sha
  if objFmt = fmt then some (.inl sha)
  else if objFmt = ascii "tag" then do
    let tag ← dir.readTag now sha
    let next ← (headers tag (ascii "object")).head?
    some (.inr next)
  else if objFmt = ascii "commit" ∨ fmt = ascii "tree" then do
    let commit ← dir.readCommit now sha
    let next ← (headers commit (ascii "tree")).head?
    some (.inr next)
  else some (.inl [])

lemma orThrow_injective {α : Type} : Function.Injective (@orThrow α) := by
  intro a b h
  cases a <;> cases b <;> cases h <;> rfl

lemma orThrow_ne_running {α : Type} (a : Option α) : orThrow a ≠ .error .running := by
  cases a <;> exact nofun

lemma looping_refResolve (dir : GitDir) : Looping dir.refStep (.error .running) orThrow dir.refResolve where
  injective := orThrow_injective
  ended := orThrow_ne_running
  zero _ := rfl
  succ n path := by
    rw [refResolve, refStep]
    cases dir.files path with
    | none => rfl
    | some text =>
      dsimp only
      by_cases hnil : text = []
      · rw [if_pos hnil, if_pos hnil]
        rfl
      · rw [if_neg hnil, if_neg hnil]
        by_cases href : ascii "ref: " <+: text.dropLast
        · rw [if_pos href, if_pos href]
        · rw [if_neg href, if_neg href]
          rfl

lemma looping_peel (dir : GitDir) (now : Int) (fmt : Bytes) :
    Looping (dir.peelStep now fmt) (.error .running) orThrow (dir.peel now fmt true) where
  injective := orThrow_injective
  ended := orThrow_ne_running
  zero _ := rfl
  succ n sha := by
    rw [peel, peelStep]
    cases dir.readObjectType sha with
    | none => rfl
    | some objFmt =>
      rw [Option.bind_eq_bind, Option.bind_some]
      change (if _ then _ else _) = _
      by_cases hfound : objFmt = fmt
      · rw [if_pos hfound, if_pos hfound]
        rfl
      rw [if_neg hfound, if_neg hfound, if_neg (Bool.noConfusion : ¬ true = false)]
      by_cases htag : objFmt = ascii "tag"
      · rw [if_pos htag, if_pos htag]
        cases dir.readTag now sha with
        | none => rfl
        | some tag =>
          change (orThrow (headers tag (ascii "object")).head? >>= _) = _
          rw [Option.bind_eq_bind, Option.bind_some]
          cases (headers tag (ascii "object")).head? <;> rfl
      rw [if_neg htag, if_neg htag]
      by_cases hcommit : objFmt = ascii "commit" ∨ fmt = ascii "tree"
      · rw [if_pos hcommit, if_pos hcommit]
        cases dir.readCommit now sha with
        | none => rfl
        | some commit =>
          change (orThrow (headers commit (ascii "tree")).head? >>= _) = _
          rw [Option.bind_eq_bind, Option.bind_some]
          cases (headers commit (ascii "tree")).head? <;> rfl
      · rw [if_neg hcommit, if_neg hcommit]
        rfl

/-! ## Refs -/

lemma refStep_symbolic {target : Bytes} (h : dir.files path = some (ascii "ref: " ++ target ++ [10])) :
    dir.refStep path = some (.inr target) := by
  have hne : ascii "ref: " ++ target ++ [10] ≠ [] := List.append_ne_nil_of_right_ne_nil _ (List.cons_ne_nil 10 [])
  have hdrop : (ascii "ref: " ++ target).drop 5 = target := List.drop_left' rfl
  rw [refStep, h]
  dsimp only
  rw [if_neg hne, List.dropLast_concat, if_pos (List.prefix_append _ _), hdrop]

lemma refStep_loose (h : dir.files path = some (id ++ [10])) (href : ¬ ascii "ref: " <+: id) :
    dir.refStep path = some (.inl id) := by
  have hne : id ++ [10] ≠ [] := List.append_ne_nil_of_right_ne_nil _ (List.cons_ne_nil 10 [])
  rw [refStep, h]
  dsimp only
  rw [if_neg hne, List.dropLast_concat, if_neg href]

lemma concludes_of_refersTo (h : dir.RefersTo path id) : Concludes dir.refStep path (some id) := by
  induction h with
  | @packed path id hfile hpacked =>
    refine .returns ?_
    rw [refStep, hfile]
    dsimp only
    rw [getPackedRef, hpacked, Option.getD_some]
  | loose hfile href => exact .returns (refStep_loose hfile href)
  | symbolic hfile _ ih => exact .again (refStep_symbolic hfile) ih

/-- A ref file refers to another ref, or has the name of an object. -/
lemma Holds.file_cases (h : dir.Holds now objects) {text : Bytes} (hfile : dir.files path = some text) :
    (∃ target, dir.files path = some (ascii "ref: " ++ target ++ [10])) ∨
      ∃ id, dir.files path = some (id ++ [10]) ∧ ¬ ascii "ref: " <+: id := by
  obtain ⟨line, rfl⟩ := h.refs path text hfile
  by_cases href : ascii "ref: " <+: line
  · obtain ⟨target, rfl⟩ := href
    exact Or.inl ⟨target, hfile⟩
  · exact Or.inr ⟨line, hfile, href⟩

lemma Holds.refersTo_of_concludes (h : dir.Holds now objects) (hconcludes : Concludes dir.refStep path r) :
    ∃ id, r = some id ∧ dir.Settles path ∧ (id ≠ [] → dir.RefersTo path id) := by
  have hcases : ∀ path, (dir.refStep path = some (.inl (dir.getPackedRef (dir.relative path))) ∧ dir.files path =
    none) ∨
      (∃ target, dir.files path = some (ascii "ref: " ++ target ++ [10])) ∨
        ∃ id, dir.files path = some (id ++ [10]) ∧ ¬ ascii "ref: " <+: id := by
    intro path
    cases hfile : dir.files path with
    | none =>
      refine Or.inl ⟨?_, rfl⟩
      rw [refStep, hfile]
    | some text =>
      rw [← hfile]
      exact Or.inr (h.file_cases hfile)
  induction hconcludes with
  | @throws path hstep =>
    rcases hcases path with ⟨hstep', -⟩ | ⟨target, hfile⟩ | ⟨id, hfile, href⟩
    · cases hstep.symm.trans hstep'
    · cases hstep.symm.trans (refStep_symbolic hfile)
    · cases hstep.symm.trans (refStep_loose hfile href)
  | @returns path id hstep =>
    rcases hcases path with ⟨hstep', hfile⟩ | ⟨target, hfile⟩ | ⟨id', hfile, href⟩
    · obtain rfl := Sum.inl.inj (Option.some.inj (hstep.symm.trans hstep'))
      refine ⟨_, rfl, .direct fun target htarget => ?_, fun hne => ?_⟩
      · cases hfile.symm.trans htarget
      · rw [getPackedRef] at hne ⊢
        cases hpacked : dir.packedRefs (dir.relative path) with
        | none => exact absurd (by rw [hpacked]; rfl) hne
        | some id => exact .packed hfile hpacked
    · cases hstep.symm.trans (refStep_symbolic hfile)
    · obtain rfl := Sum.inl.inj (Option.some.inj (hstep.symm.trans (refStep_loose hfile href)))
      refine ⟨id, rfl, .direct fun target htarget => href ?_, fun _ => .loose hfile href⟩
      have hline := List.append_cancel_right (Option.some.inj (hfile.symm.trans htarget))
      exact ⟨target, hline.symm⟩
  | @again path target r hstep _ ih =>
    obtain ⟨id, rfl, hsettles, hrefers⟩ := ih
    rcases hcases path with ⟨hstep', -⟩ | ⟨target', hfile⟩ | ⟨id, hfile, href⟩
    · cases hstep.symm.trans hstep'
    · obtain rfl := Sum.inr.inj (Option.some.inj (hstep.symm.trans (refStep_symbolic hfile)))
      exact ⟨id, rfl, .symbolic hfile hsettles, fun hne => .symbolic hfile (hrefers hne)⟩
    · cases hstep.symm.trans (refStep_loose hfile href)

lemma Holds.concludes_of_settles (h : dir.Holds now objects) (hsettles : dir.Settles path) :
    ∃ id, Concludes dir.refStep path (some id) := by
  induction hsettles with
  | @direct path hdirect =>
    cases hfile : dir.files path with
    | none =>
      refine ⟨dir.getPackedRef (dir.relative path), .returns ?_⟩
      rw [refStep, hfile]
    | some text =>
      rcases h.file_cases hfile with ⟨target, htarget⟩ | ⟨id, hid, href⟩
      · exact absurd htarget (hdirect target)
      · exact ⟨id, .returns (refStep_loose hid href)⟩
  | symbolic hfile _ ih =>
    obtain ⟨id, hconcludes⟩ := ih
    exact ⟨id, .again (refStep_symbolic hfile) hconcludes⟩

/-- A ref whose refs come to an end has a name, or it has none that is read as an empty one. -/
lemma Holds.exists_resolved (h : dir.Holds now objects) (hsettles : dir.Settles path) :
    ∃ id, Ends (fun n => dir.refResolve n path) (.ok id) ∧ ∀ id', (dir.RefersTo path id' ∧ id' ≠ []) ↔
      (id' = id ∧ id ≠ []) := by
  obtain ⟨id, hconcludes⟩ := h.concludes_of_settles hsettles
  refine ⟨id, (looping_refResolve dir).exists_of_concludes hconcludes, fun id' => ⟨fun hid' => ?_, fun hid' => ?_⟩⟩
  · obtain rfl := Option.some.inj ((concludes_of_refersTo hid'.1).unique hconcludes)
    exact ⟨rfl, hid'.2⟩
  · obtain ⟨rfl, hne⟩ := hid'
    obtain ⟨id, heq, -, hrefers⟩ := h.refersTo_of_concludes hconcludes
    obtain rfl := Option.some.inj heq
    exact ⟨hrefers hne, hne⟩

lemma Holds.refResolve_of_not_settles (h : dir.Holds now objects) (hsettles : ¬ dir.Settles path) (n : Nat) :
    dir.refResolve n path = .error .running := by
  rcases (looping_refResolve dir).cases n path with hrun | ⟨r, -, hconcludes⟩
  · exact hrun
  · obtain ⟨id, -, hsettles', -⟩ := h.refersTo_of_concludes hconcludes
    exact absurd hsettles' hsettles

/-! ## The chain -/

lemma readAs_eq_none {fmts : List Bytes} (h : dir.Holds now objects) (ho : objects sha = some o)
    (hlocated : dir.Located sha) (hsingle : dir.Single sha)
    (hfmt : o.fmt ∉ fmts) : dir.readAs now fmts sha = none := by
  obtain ⟨data, hraw, -⟩ := h.exists_readRaw ho hlocated hsingle
  rw [readAs, hraw, Option.bind_eq_bind, Option.bind_some, readObject_withHeader o.not_space, Option.bind_eq_bind,
    Option.bind_some]
  exact if_neg hfmt

lemma peelStep_eq_none (h : dir.Holds now objects) (ho : objects sha = some o) (hlocated : dir.Located sha)
    (hsingle : ¬ dir.Single sha) :
    dir.peelStep now fmt sha = none := by
  rw [peelStep, GitDir.readObjectType, h.readRaw_eq_none ho hlocated hsingle]
  rfl

lemma peelStep_found (h : dir.Holds now objects) (ho : objects sha = some o) (hlocated : dir.Located sha)
    (hsingle : dir.Single sha)
    (hfmt : o.fmt = fmt) :
    dir.peelStep now fmt sha = some (.inl sha) := by
  rw [peelStep, h.readObjectType ho hlocated hsingle, Option.bind_eq_bind, Option.bind_some, if_pos hfmt]

lemma peelStep_again {next : Bytes} (h : dir.Holds now objects) (ho : objects sha = some o) (hlocated : dir.Located sha)
    (hsingle : dir.Single sha)
    (hfmt : o.fmt ≠ fmt)
    (hnext : o.next = some next) : dir.peelStep now fmt sha = some (.inr next) := by
  rw [peelStep, h.readObjectType ho hlocated hsingle, Option.bind_eq_bind, Option.bind_some, if_neg hfmt]
  cases o with
  | blob | tree => cases hnext
  | tag object =>
    obtain rfl := Option.some.inj hnext
    have hmem : (GitObject.tag object).fmt ∈ [ascii "tag"] := List.mem_singleton.2 rfl
    obtain ⟨c, hc, hhead⟩ := h.exists_readAs ho hlocated hsingle hmem (ascii "object") object (Or.inl ⟨rfl, rfl⟩)
    have htag : (GitObject.tag object).fmt = ascii "tag" := rfl
    rw [if_pos htag, readTag, hc, Option.bind_eq_bind, Option.bind_some, hhead]
    rfl
  | commit root =>
    obtain rfl := Option.some.inj hnext
    have hmem : (GitObject.commit root).fmt ∈ [ascii "commit", ascii "tag"] := List.mem_cons_self
    obtain ⟨c, hc, hhead⟩ := h.exists_readAs ho hlocated hsingle hmem (ascii "tree") root (Or.inr ⟨rfl, rfl⟩)
    have htag : (GitObject.commit root).fmt ≠ ascii "tag" := (by decide : ascii "commit" ≠ ascii "tag")
    have hcommit : (GitObject.commit root).fmt = ascii "commit" := rfl
    rw [if_neg htag, if_pos (Or.inl hcommit), readCommit, hc, Option.bind_eq_bind, Option.bind_some, hhead]
    rfl

lemma peelStep_ended (h : dir.Holds now objects) (ho : objects sha = some o) (hlocated : dir.Located sha)
    (hsingle : dir.Single sha)
    (hfmt : o.fmt ≠ fmt)
    (hnext : o.next = none) : dir.peelStep now fmt sha = if fmt = ascii "tree" then none else some (.inl []) := by
  have hplain : o.fmt ≠ ascii "tag" ∧ o.fmt ≠ ascii "commit" ∧ o.fmt ∉ [ascii "commit", ascii "tag"] := by
    cases o with
    | tag | commit => cases hnext
    | blob content =>
      exact (by decide : ascii "blob" ≠ ascii "tag" ∧ ascii "blob" ≠ ascii "commit" ∧
        ascii "blob" ∉ [ascii "commit", ascii "tag"])
    | tree leaves =>
      exact (by decide : ascii "tree" ≠ ascii "tag" ∧ ascii "tree" ≠ ascii "commit" ∧
        ascii "tree" ∉ [ascii "commit", ascii "tag"])
  rw [peelStep, h.readObjectType ho hlocated hsingle, Option.bind_eq_bind, Option.bind_some, if_neg hfmt, if_neg hplain.1]
  by_cases htree : fmt = ascii "tree"
  · rw [if_pos (Or.inr htree), if_pos htree, readCommit, readAs_eq_none h ho hlocated hsingle hplain.2.2]
    rfl
  · rw [if_neg (not_or.2 ⟨hplain.2.1, htree⟩), if_neg htree]

/-- An object at which the loop does not fail. -/
lemma single_of_concludes {out : Bytes} (h : dir.Holds now objects) (ho : objects sha = some o)
    (hlocated : dir.Located sha)
    (hconcludes : Concludes (dir.peelStep now fmt) sha (some out)) :
    dir.Single sha ∧ ¬ (fmt = ascii "tree" ∧ ∃ content, objects sha = some (.blob content)) := by
  have hne : dir.peelStep now fmt sha ≠ none := by
    intro hnone
    cases hconcludes with
    | returns hstep => cases hnone.symm.trans hstep
    | again hstep _ => cases hnone.symm.trans hstep
  have hsingle : dir.Single sha := by
    by_contra hsingle
    exact hne (peelStep_eq_none h ho hlocated hsingle)
  refine ⟨hsingle, ?_⟩
  rintro ⟨rfl, content, hblob⟩
  refine hne ?_
  rw [peelStep_ended h hblob hlocated hsingle (by decide : ascii "blob" ≠ ascii "tree") rfl, if_pos rfl]

/-- The loop finds what is found on the chain exactly if the chain can be followed. -/
theorem Holds.concludes_iff_followable (h : dir.Holds now objects) (id : Bytes)
    (hlocated : ∀ sha, Passes objects fmt id sha → dir.Located sha) :
    (∃ out, Peels objects fmt id out ∧ Concludes (dir.peelStep now fmt) id (some out)) ↔
      dir.Followable objects fmt id := by
  constructor
  · rintro ⟨out, hpeels, hconcludes⟩
    refine ⟨⟨out, hpeels⟩, ?_⟩
    induction hpeels with
    | @found sha o ho hfmt =>
      intro sha' hpasses
      rcases Relation.ReflTransGen.cases_head hpasses with rfl | ⟨next, ⟨o', ho', hne, -⟩, -⟩
      · exact single_of_concludes h ho (hlocated sha .refl) hconcludes
      · obtain rfl := Option.some.inj (ho.symm.trans ho')
        exact absurd hfmt hne
    | @again sha next out o ho hfmt hnext _ ih =>
      have hsingle := single_of_concludes h ho (hlocated sha .refl) hconcludes
      have hrest : Concludes (dir.peelStep now fmt) next (some out) := by
        have hstep := peelStep_again h ho (hlocated sha .refl) hsingle.1 hfmt hnext
        cases hconcludes with
        | returns hstep' => cases hstep.symm.trans hstep'
        | again hstep' hrest =>
          obtain rfl := Sum.inr.inj (Option.some.inj (hstep.symm.trans hstep'))
          exact hrest
      intro sha' hpasses
      rcases Relation.ReflTransGen.cases_head hpasses with rfl | ⟨next', ⟨o', ho', -, hnext'⟩, hpasses⟩
      · exact hsingle
      · obtain rfl := Option.some.inj (ho.symm.trans ho')
        obtain rfl := Option.some.inj (hnext.symm.trans hnext')
        exact ih (fun last hlast => hlocated last (.head ⟨o, ho, hfmt, hnext⟩ hlast)) hrest sha' hpasses
    | @ended sha o ho hfmt hnext =>
      intro sha' hpasses
      rcases Relation.ReflTransGen.cases_head hpasses with rfl | ⟨next', ⟨o', ho', -, hnext'⟩, -⟩
      · exact single_of_concludes h ho (hlocated sha .refl) hconcludes
      · obtain rfl := Option.some.inj (ho.symm.trans ho')
        cases hnext.symm.trans hnext'
  · rintro ⟨⟨out, hpeels⟩, hpasses⟩
    refine ⟨out, hpeels, ?_⟩
    induction hpeels with
    | @found sha o ho hfmt => exact .returns (peelStep_found h ho (hlocated sha .refl) (hpasses sha .refl).1 hfmt)
    | @again sha next out o ho hfmt hnext _ ih =>
      exact .again (peelStep_again h ho (hlocated sha .refl) (hpasses sha .refl).1 hfmt hnext)
        (ih (fun last hlast => hlocated last (.head ⟨o, ho, hfmt, hnext⟩ hlast)) fun sha' hsha' =>
          hpasses sha' (.head ⟨o, ho, hfmt, hnext⟩ hsha'))
    | @ended sha o ho hfmt hnext =>
      refine .returns ?_
      rw [peelStep_ended h ho (hlocated sha .refl) (hpasses sha .refl).1 hfmt hnext, if_neg]
      intro htree
      cases o with
      | tag | commit => cases hnext
      | blob content => exact (hpasses sha .refl).2 ⟨htree, content, ho⟩
      | tree leaves => exact hfmt htree.symm

/-! ## What cannot be followed -/

/-- What the loop does at an object that leads to another one, or should. -/
lemma peelStep_onward (now : Int) {objFmt : Bytes} (htype : dir.readObjectType sha = some objFmt) (hfmt : objFmt ≠ fmt)
    (honward : Onward fmt objFmt) : ∃ r : Option Bytes, dir.peelStep now fmt sha = r.map Sum.inr ∧
      ∀ next, r = some next ↔ dir.Follows now sha next := by
  rw [peelStep, htype, Option.bind_eq_bind, Option.bind_some, if_neg hfmt]
  by_cases htag : objFmt = ascii "tag"
  · refine ⟨(dir.readTag now sha).bind fun tag => (headers tag (ascii "object")).head?, ?_, fun next => ?_⟩
    · rw [if_pos htag]
      cases dir.readTag now sha with
      | none => rfl
      | some tag =>
        rw [Option.bind_eq_bind, Option.bind_some, Option.bind_some]
        cases (headers tag (ascii "object")).head? <;> rfl
    · rw [Option.bind_eq_some_iff, Follows, htype, htag]
      exact ⟨fun h => .inl ⟨rfl, h⟩, fun h => h.elim And.right fun hne => absurd rfl hne.1⟩
  · refine ⟨(dir.readCommit now sha).bind fun commit => (headers commit (ascii "tree")).head?, ?_, fun next => ?_⟩
    · rw [if_neg htag, if_pos (honward.resolve_left htag)]
      cases dir.readCommit now sha with
      | none => rfl
      | some commit =>
        rw [Option.bind_eq_bind, Option.bind_some, Option.bind_some]
        cases (headers commit (ascii "tree")).head? <;> rfl
    · have hne : dir.readObjectType sha ≠ some (ascii "tag") := by
        rw [htype]
        exact fun heq => htag (Option.some.inj heq)
      rw [Option.bind_eq_some_iff, Follows]
      exact ⟨fun h => .inr ⟨hne, h⟩, fun h => h.elim (fun heq => absurd heq.1 hne) And.right⟩

/-- The loop returns at an object of the type, and at one that need not lead to another one. -/
lemma exists_peelStep_eq_inl (now : Int) {objFmt : Bytes} (htype : dir.readObjectType sha = some objFmt)
    (hends : objFmt = fmt ∨ ¬ Onward fmt objFmt) : ∃ out, dir.peelStep now fmt sha = some (.inl out) := by
  rw [peelStep, htype, Option.bind_eq_bind, Option.bind_some]
  by_cases hfmt : objFmt = fmt
  · exact ⟨sha, if_pos hfmt⟩
  · have honward := hends.resolve_left hfmt
    rw [Onward, not_or] at honward
    exact ⟨[], by rw [if_neg hfmt, if_neg honward.1, if_neg honward.2]⟩

lemma peelStep_eq_inr_iff {next : Bytes} : dir.peelStep now fmt sha = some (.inr next) ↔ dir.Step now fmt sha next := by
  constructor
  · intro h
    cases htype : dir.readObjectType sha with
    | none =>
      rw [peelStep, htype] at h
      cases h
    | some objFmt =>
      by_cases hends : objFmt = fmt ∨ ¬ Onward fmt objFmt
      · obtain ⟨out, hout⟩ := exists_peelStep_eq_inl now htype hends
        cases h.symm.trans hout
      · rw [not_or, not_not] at hends
        obtain ⟨r, hr, hfollows⟩ := peelStep_onward now htype hends.1 hends.2
        obtain ⟨_, hsome, heq⟩ := Option.map_eq_some_iff.1 (hr.symm.trans h)
        obtain rfl := Sum.inr.inj heq
        exact ⟨objFmt, htype, hends.1, hends.2, (hfollows _).1 hsome⟩
  · rintro ⟨objFmt, htype, hfmt, honward, hnext⟩
    obtain ⟨r, hr, hfollows⟩ := peelStep_onward now htype hfmt honward
    rw [hr, (hfollows next).2 hnext, Option.map_some]

lemma peelStep_eq_none_iff : dir.peelStep now fmt sha = none ↔ dir.Dead now fmt sha := by
  constructor
  · intro h
    cases htype : dir.readObjectType sha with
    | none => exact .inl htype
    | some objFmt =>
      by_cases hends : objFmt = fmt ∨ ¬ Onward fmt objFmt
      · obtain ⟨out, hout⟩ := exists_peelStep_eq_inl now htype hends
        cases h.symm.trans hout
      · rw [not_or, not_not] at hends
        obtain ⟨r, hr, hfollows⟩ := peelStep_onward now htype hends.1 hends.2
        have hnone := Option.map_eq_none_iff.1 (hr.symm.trans h)
        refine .inr ⟨objFmt, htype, hends.1, hends.2, fun next hnext => ?_⟩
        cases hnone.symm.trans ((hfollows next).2 hnext)
  · rintro (htype | ⟨objFmt, htype, hfmt, honward, hnext⟩)
    · rw [peelStep, htype]
      rfl
    · obtain ⟨r, hr, hfollows⟩ := peelStep_onward now htype hfmt honward
      rw [hr, Option.map_eq_none_iff, Option.eq_none_iff_forall_ne_some]
      exact fun next hsome => hnext next ((hfollows next).1 hsome)

lemma broken_of_concludes (h : Concludes (dir.peelStep now fmt) sha r) (hr : r = none) : dir.Broken now fmt sha := by
  induction h with
  | throws hstep => exact ⟨_, .refl, peelStep_eq_none_iff.1 hstep⟩
  | returns _ => cases hr
  | again hstep _ ih =>
    obtain ⟨last, hpath, hlast⟩ := ih hr
    exact ⟨last, .head (peelStep_eq_inr_iff.1 hstep) hpath, hlast⟩

lemma concludes_of_broken (h : dir.Broken now fmt sha) : Concludes (dir.peelStep now fmt) sha none := by
  obtain ⟨last, hpath, hlast⟩ := h
  induction hpath using Relation.ReflTransGen.head_induction_on with
  | refl => exact .throws (peelStep_eq_none_iff.2 hlast)
  | head hstep _ ih => exact .again (peelStep_eq_inr_iff.2 hstep) ih

/-- The loop throws exactly at what is broken. -/
lemma concludes_none_iff : Concludes (dir.peelStep now fmt) sha none ↔ dir.Broken now fmt sha :=
  ⟨fun h => broken_of_concludes h rfl, concludes_of_broken⟩

/-! ## The candidates -/

lemma toLower_of_isHexDigit {b : UInt8} (h : isHexDigit b = true) : isLowerHex (toLower b) = true := by
  have hb := toNat_of_isHexDigit h
  rw [← UInt8.ofNat_toNat (x := b)]
  generalize b.toNat = m at hb
  rcases hb with ⟨hlow, hhigh⟩ | ⟨hlow, hhigh⟩ | ⟨hlow, hhigh⟩ <;> interval_cases m <;> rfl

lemma isPart_lower (h : IsHash name) : Pack.IsPart (lower name) := by
  refine ⟨?_, ?_⟩
  · rw [lower, List.length_map]
    exact Nat.le_of_add_left_le h.1
  · rw [lower, List.all_map, List.all_eq_true]
    exact fun b hb => toLower_of_isHexDigit (List.all_eq_true.1 h.2.2 b hb)

/-- The name behind a ref, if it is not empty. -/
def named (id : Bytes) : List Bytes := if id ≠ [] then [id] else []

lemma Ends.unique {α : Type} {call : Nat → Call α} {r r' : Call α} (h : Ends call r) (h' : Ends call r') : r = r' := by
  obtain ⟨k, hk⟩ := h
  obtain ⟨k', hk'⟩ := h'
  exact (hk (max k k') (le_max_left k k')).symm.trans (hk' (max k k') (le_max_right k k'))

lemma ends_congr {α : Type} {call call' : Nat → Call α} (h : ∃ k, ∀ n ≥ k, call n = call' n) (r : Call α) :
    Ends call r ↔ Ends call' r := by
  obtain ⟨k, hk⟩ := h
  constructor
  · rintro ⟨k', hk'⟩
    exact ⟨max k k', fun n hn => (hk n ((le_max_left k k').trans hn)).symm.trans (hk' n ((le_max_right k k').trans hn))⟩
  · rintro ⟨k', hk'⟩
    exact ⟨max k k', fun n hn => (hk n ((le_max_left k k').trans hn)).trans (hk' n ((le_max_right k k').trans hn))⟩

lemma ends_const {α : Type} {c r : Call α} : Ends (fun _ => c) r ↔ r = c := by
  constructor
  · rintro ⟨k, hk⟩
    exact (hk k (le_refl k)).symm
  · rintro rfl
    exact ⟨0, fun _ _ => rfl⟩

lemma candidates_eq (hname : name ≠ ascii "HEAD") (hsearch : IsHash name → dir.Searchable (lower name)) (n : Nat) :
    dir.candidates n name = (do
    let asTag ← dir.refResolve n (tagPath name)
    let asBranch ← dir.refResolve n (branchPath name)
    .ok (dir.reported name ++ named asTag ++ named asBranch)) := by
  rw [candidates, if_neg hname]
  dsimp only
  by_cases hhash : IsHash name
  · have hpacked : orThrow (dir.packRefResolve (lower name)) = .ok ((dir.entries (lower name)).map fun m => m.2.1) := by
      rw [packRefResolve, packMatches_eq (isPart_lower hhash) (hsearch hhash)]
      rfl
    have hreported : dir.reported name = dir.looseMatches (lower name) ++ (dir.entries (lower name)).map fun m =>
      m.2.1 := if_pos hhash
    rw [if_pos hhash, hpacked, hreported]
    simp only [if_pos hhash]
    rfl
  · have hreported : dir.reported name = [] := if_neg hhash
    rw [if_neg hhash, hreported]
    simp only [if_neg hhash]
    rfl

/-- The candidates are those that are reported. -/
lemma ends_candidates (hname : name ≠ ascii "HEAD") (hsearch : IsHash name → dir.Searchable (lower name))
    {asTag asBranch : Bytes}
    (htag : Ends (fun n => dir.refResolve n (tagPath name)) (.ok asTag))
    (hbranch : Ends (fun n => dir.refResolve n (branchPath name)) (.ok asBranch)) :
    Ends (fun n => dir.candidates n name) (.ok (dir.reported name ++ named asTag ++ named asBranch)) := by
  obtain ⟨k, hk⟩ := htag
  obtain ⟨k', hk'⟩ := hbranch
  refine ⟨max k k', fun n hn => ?_⟩
  have htag : dir.refResolve n (tagPath name) = .ok asTag := hk n ((le_max_left k k').trans hn)
  have hbranch : dir.refResolve n (branchPath name) = .ok asBranch := hk' n ((le_max_right k k').trans hn)
  dsimp only
  rw [candidates_eq hname hsearch, htag, hbranch]
  rfl

lemma candidates_of_not_settles (h : dir.Holds now objects) (hname : name ≠ ascii "HEAD")
    (hsearch : IsHash name → dir.Searchable (lower name))
    (hsettles : ¬ (dir.Settles (tagPath name) ∧ dir.Settles (branchPath name))) (n : Nat) :
    dir.candidates n name = .error .running := by
  rw [candidates_eq hname hsearch]
  by_cases htag : dir.Settles (tagPath name)
  · rw [h.refResolve_of_not_settles (fun hbranch => hsettles ⟨htag, hbranch⟩) n]
    obtain ⟨asTag, hconcludes⟩ := h.concludes_of_settles htag
    rcases (looping_refResolve dir).cases n (tagPath name) with hrun | ⟨r, hrun, hconcludes'⟩
    · rw [hrun]
      rfl
    · obtain rfl := hconcludes.unique hconcludes'
      rw [hrun]
      rfl
  · rw [h.refResolve_of_not_settles htag n]
    rfl

section Search

variable {found : List Bytes}

/-- One candidate is what is found, or its chain is followed. -/
lemma ends_findObject_one (hcandidates : Ends (fun n => dir.candidates n name) (.ok [sha])) (r : Call Bytes) :
    Ends (fun n => dir.findObject now n name fmt true) r ↔
      if fmt = [] then r = .ok sha else Ends (fun n => dir.peel now fmt true n sha) r := by
  obtain ⟨k, hk⟩ := hcandidates
  have heq : ∀ n ≥ k, dir.findObject now n name fmt true = if fmt =
    [] then .ok sha else dir.peel now fmt true n sha := by
    intro n hn
    rw [findObject, show dir.candidates n name = .ok [sha] from hk n hn]
    rfl
  rw [ends_congr ⟨k, heq⟩]
  by_cases hfmt : fmt = []
  · simp only [if_pos hfmt]
    exact ends_const
  · simp only [if_neg hfmt]

lemma ends_findObject_many (hcandidates : Ends (fun n => dir.candidates n name) (.ok found))
    (hfound : found.length ≠ 1) (r : Call Bytes) :
    Ends (fun n => dir.findObject now n name fmt true) r ↔ r = .error .threw := by
  obtain ⟨k, hk⟩ := hcandidates
  have heq : ∀ n ≥ k, dir.findObject now n name fmt true = .error .threw := by
    intro n hn
    rw [findObject, show dir.candidates n name = .ok found from hk n hn]
    match found, hfound with
    | [], _ => rfl
    | [_], hone => exact absurd rfl hone
    | _ :: _ :: _, _ => rfl
  rw [ends_congr ⟨k, heq⟩]
  exact ends_const

end Search

lemma length_named (id : Bytes) : (named id).length = if id ≠ [] then 1 else 0 := by
  rw [named]
  split <;> rfl

lemma mem_named {id' : Bytes} : id' ∈ named id ↔ id' = id ∧ id ≠ [] := by
  rw [named, List.mem_ite_nil_right, List.mem_singleton, and_comm]

/-- An object that a name denotes is reported. -/
lemma Holds.mem_reported (h : dir.Holds now objects) (hhash : IsHash name) (hpre : lower name <+: sha)
    (ho : (objects sha).isSome) :
    sha ∈ dir.reported name := by
  rw [reported, if_pos hhash, List.mem_append]
  rcases h.stored sha ho with hmem | ⟨index, hindex, hmem⟩
  · left
    rw [looseMatches, List.mem_filter, List.mem_dedup]
    exact ⟨hmem, decide_eq_true hpre⟩
  · right
    obtain ⟨i, hi⟩ := List.getElem?_of_mem hmem
    have hentry : (sha, i) ∈ index.pack.entries (lower name) :=
      List.mem_append_left _ (List.mem_filter.2 ⟨List.mem_zipIdx_iff_getElem?.2 hi, decide_eq_true hpre⟩)
    exact List.mem_map.2 ⟨(index.pack, sha, i), List.mem_flatMap.2 ⟨index, hindex, List.mem_map_of_mem hentry⟩, rfl⟩

/-- The candidates, where the refs come to an end. -/
lemma Holds.exists_candidates (h : dir.Holds now objects) (hname : name ≠ ascii "HEAD")
    (hsearch : IsHash name → dir.Searchable (lower name)) (htag : dir.Settles (tagPath name))
    (hbranch : dir.Settles (branchPath name)) : ∃ found, Ends (fun n => dir.candidates n name) (.ok found) ∧
      found.length = dir.reports name ∧ (∀ id, dir.Denotes objects name id → id ∈ found) ∧
      ((∀ id, ¬ dir.Denotes objects name id) → found = dir.reported name) := by
  obtain ⟨asTag, htagEnds, htag⟩ := h.exists_resolved htag
  obtain ⟨asBranch, hbranchEnds, hbranch⟩ := h.exists_resolved hbranch
  refine ⟨_, ends_candidates hname hsearch htagEnds hbranchEnds, ?_, fun id hid => ?_, fun hnone => ?_⟩
  · rw [List.length_append, List.length_append, length_named, length_named, reports]
    have hexists : ∀ {path id : Bytes}, (∀ id', (dir.RefersTo path id' ∧ id' ≠ []) ↔ (id' = id ∧ id ≠ [])) →
        ((∃ id', dir.RefersTo path id' ∧ id' ≠ []) ↔ id ≠ []) := by
      intro path id hid
      exact ⟨fun ⟨id', hid'⟩ => ((hid id').1 hid').2, fun hne => ⟨id, (hid id).2 ⟨rfl, hne⟩⟩⟩
    simp only [hexists htag, hexists hbranch]
  · rw [List.mem_append, List.mem_append, mem_named, mem_named, ← htag, ← hbranch]
    rcases hid with ⟨hhash, hpre, ho⟩ | ⟨hid | hid, hne⟩
    · exact Or.inl (Or.inl (h.mem_reported hhash hpre ho))
    · exact Or.inl (Or.inr ⟨hid, hne⟩)
    · exact Or.inr ⟨hid, hne⟩
  · have hnoTag : named asTag = [] := if_neg fun hne =>
      hnone asTag (Or.inr ⟨Or.inl ((htag asTag).2 ⟨rfl, hne⟩).1, hne⟩)
    have hnoBranch : named asBranch = [] := if_neg fun hne =>
      hnone asBranch (Or.inr ⟨Or.inr ((hbranch asBranch).2 ⟨rfl, hne⟩).1, hne⟩)
    rw [hnoTag, hnoBranch, List.append_nil, List.append_nil]

lemma ends_peel_iff (r : Option Bytes) :
    Ends (fun n => dir.peel now fmt true n sha) (orThrow r) ↔ Concludes (dir.peelStep now fmt) sha r :=
  (looping_peel dir now fmt).ends_iff

/-- The search ends as it should only if the refs come to an end. -/
lemma Found.settles (h : dir.Holds now objects) (hname : name ≠ ascii "HEAD")
    (hsearch : IsHash name → dir.Searchable (lower name)) (hfound : dir.Found now objects name fmt) :
    dir.Settles (tagPath name) ∧ dir.Settles (branchPath name) := by
  by_contra hsettles
  have hnever : ∀ {r}, Ends (fun n => dir.findObject now n name fmt true) r → r = .error .running := by
    rintro r ⟨k, hk⟩
    have hrun : dir.findObject now k name fmt true = .error .running := by
      rw [findObject, candidates_of_not_settles h hname hsearch hsettles k]
      rfl
    exact (hk k (le_refl k)).symm.trans hrun
  by_cases honly : ∃ id, dir.Only objects name id
  · obtain ⟨id, honly⟩ := honly
    have hid := hfound.1 id honly
    by_cases hfmt : fmt = []
    · rw [if_pos hfmt] at hid
      cases hnever hid
    · rw [if_neg hfmt] at hid
      obtain ⟨out, -, hout⟩ := hid
      cases hnever hout
  · cases hnever (hfound.2 fun id hid => honly ⟨id, hid⟩)

lemma Found.clear (h : dir.Holds now objects) (hname : name ≠ ascii "HEAD")
    (hreaches : dir.Reaches objects name fmt) (hfound : dir.Found now objects name fmt) :
    dir.Clear now objects name fmt := by
  obtain ⟨htag, hbranch⟩ := Found.settles h hname hreaches.search hfound
  obtain ⟨found, hcandidates, hlength, hmem, hnone⟩ := h.exists_candidates hname hreaches.search htag hbranch
  refine ⟨htag, hbranch, fun id honly => ?_, fun hnothing sha hsha => ?_⟩
  · have hid := hfound.1 id honly
    have hone : found.length = 1 := by
      by_contra hne
      have hends := @ends_findObject_many dir now name fmt found hcandidates hne
      by_cases hfmt : fmt = []
      · rw [if_pos hfmt, hends] at hid
        cases hid
      · rw [if_neg hfmt] at hid
        obtain ⟨out, -, hout⟩ := hid
        rw [hends] at hout
        cases hout
    refine ⟨hlength.symm.trans hone, fun hfmt => ?_⟩
    obtain ⟨sha, rfl⟩ := List.length_eq_one_iff.1 hone
    obtain rfl := List.mem_singleton.1 (hmem id honly.1)
    rw [if_neg hfmt] at hid
    obtain ⟨out, hpeels, hout⟩ := hid
    rw [ends_findObject_one hcandidates, if_neg hfmt] at hout
    exact (h.concludes_iff_followable id (hreaches.chain id honly hfmt)).1 ⟨out, hpeels, (ends_peel_iff (some out)).1 hout⟩
  · have hthrows := hfound.2 fun id honly => hnothing id honly.1
    rw [hnone hnothing, hsha] at hcandidates
    rw [ends_findObject_one hcandidates] at hthrows
    by_cases hfmt : fmt = []
    · rw [if_pos hfmt] at hthrows
      cases hthrows
    · rw [if_neg hfmt] at hthrows
      exact ⟨hfmt, concludes_none_iff.1 ((ends_peel_iff none).1 hthrows)⟩

lemma Clear.found (h : dir.Holds now objects) (hname : name ≠ ascii "HEAD")
    (hreaches : dir.Reaches objects name fmt) (hclear : dir.Clear now objects name fmt) :
    dir.Found now objects name fmt := by
  obtain ⟨found, hcandidates, hlength, hmem, hnone⟩ := h.exists_candidates hname hreaches.search hclear.tag hclear.branch
  constructor
  · intro id honly
    obtain ⟨hreports, hfollow⟩ := hclear.once id honly
    obtain ⟨sha, rfl⟩ := List.length_eq_one_iff.1 (hlength.trans hreports)
    obtain rfl := List.mem_singleton.1 (hmem id honly.1)
    have hends := @ends_findObject_one dir now name fmt id hcandidates
    by_cases hfmt : fmt = []
    · rw [if_pos hfmt, hends, if_pos hfmt]
    · rw [if_neg hfmt]
      obtain ⟨out, hpeels, hconcludes⟩ := (h.concludes_iff_followable id (hreaches.chain id honly hfmt)).2
        (hfollow hfmt)
      refine ⟨out, hpeels, ?_⟩
      rw [hends, if_neg hfmt]
      exact (ends_peel_iff (some out)).2 hconcludes
  · intro hnot
    by_cases hone : found.length = 1
    · obtain ⟨sha, rfl⟩ := List.length_eq_one_iff.1 hone
      have hnothing : ∀ id, ¬ dir.Denotes objects name id := by
        intro id hid
        refine hnot id ⟨hid, fun id' hid' => ?_⟩
        rw [List.mem_singleton.1 (hmem id hid), List.mem_singleton.1 (hmem id' hid')]
      obtain ⟨hfmt, hbroken⟩ := hclear.nothing hnothing sha (hnone hnothing).symm
      rw [ends_findObject_one hcandidates, if_neg hfmt]
      exact (ends_peel_iff none).2 (concludes_none_iff.2 hbroken)
    · rw [ends_findObject_many hcandidates hone]

section Examples

def emptyBlob : Bytes := ascii "e69de29bb2d1d6434b8b29ae775ad8c2e48c5391"

/-- A tag and a branch of one name, both of the same object. -/
def tagged : GitDir where
  objects := [(emptyBlob, withHeader (ascii "blob") [])]
  packs := []
  files path := if path = ascii "refs/tags/v" ∨ path = ascii "refs/heads/v" then some (emptyBlob ++ [10]) else none
  relative path := path
  packedRefs _ := none

def taggedObjects (sha : Bytes) : Option GitObject := if sha = emptyBlob then some (.blob []) else none

lemma holds_tagged : tagged.Holds 0 taggedObjects where
  loose sha raw hlookup := by
    obtain ⟨front, rest, hobjects, -⟩ := List.lookup_eq_some_iff.1 hlookup
    have hmem : (sha, raw) ∈ tagged.objects := hobjects ▸ List.mem_append_right front List.mem_cons_self
    obtain ⟨rfl, rfl⟩ := Prod.mk.inj (List.mem_singleton.1 hmem)
    exact ⟨.blob [], [], if_pos rfl, rfl, rfl⟩
  packed pack hpack := absurd hpack List.not_mem_nil
  stored sha hsha := by
    left
    by_cases heq : sha = emptyBlob
    · rw [heq]
      exact List.mem_singleton.2 rfl
    · rw [taggedObjects, if_neg heq] at hsha
      cases hsha
  refs path text hfile := by
    obtain ⟨-, htext⟩ := Option.ite_none_right_eq_some.1 hfile
    exact ⟨emptyBlob, (Option.some.inj htext).symm⟩

lemma reaches_tagged : tagged.Reaches taggedObjects (ascii "v") [] where
  search _ _ hindex := absurd hindex List.not_mem_nil
  chain _ _ hfmt := absurd rfl hfmt

end Examples

end GitDir

end CppExperiments.Cgit

import CppExperiments.Ini.Parser

/-!
# Keys that are removed

A key is removed from a copy of its section: the section stays as it is unless the key was its only one, and then it is
removed as a whole.
-/

namespace CppExperiments.Ini

open InsertionOrder

def Section.erase (s : Section) (key : Bytes) : Section := InsertionOrder.remove s (lower key)

namespace Parser

/-- `operator[]`, which puts in a section that is not there. -/
def access (p : Parser) (sectionName : Bytes) : Except Bytes Parser := change p sectionName fun s => s

/-- `remove` of a key; what is changed is a copy of the section. -/
def removeKey (p : Parser) (sectionName key : Bytes) : Except Bytes (Bool × Parser) :=
  if p.hasKey sectionName key = false then .ok (false, p)
  else do
    let data ← p.access sectionName
    let copy := Section.erase ((InsertionOrder.find data sectionName).getD []) key
    if copy = [] then .ok (true, InsertionOrder.remove data sectionName) else .ok (true, data)

/-- A parser that has been used in any way; what has been read stays when a line behind it is refused. -/
inductive Reachable : Parser → Prop where
  | empty : Reachable []
  | reads {p : Parser} {s : Reading} {raw : Bytes} {ignoreDuplicates : Bool} (h : Reachable p)
    (hreads : raw.foldlM (Reading.readChar ignoreDuplicates) p.start = .ok s) : Reachable s.data
  | access {p p' : Parser} {sectionName : Bytes} (h : Reachable p) (haccess : p.access sectionName = .ok p') :
      Reachable p'
  | assign {p p' : Parser} {s : Section} {sectionName key : Bytes} {f : Bytes → Bytes} (h : Reachable p)
    (hchange : Section.change ((InsertionOrder.find p sectionName).getD []) key f = .ok s)
    (hassign : change p sectionName (fun _ => s) = .ok p') : Reachable p'
  | eraseKey {p p' : Parser} {sectionName key : Bytes} (h : Reachable p)
    (herase : change p sectionName (fun s => Section.erase s key) = .ok p') : Reachable p'
  | removeSection {p : Parser} (h : Reachable p) (sectionName : Bytes) : Reachable (InsertionOrder.remove p sectionName)
  | removeKey {p p' : Parser} {sectionName key : Bytes} {removed : Bool} (h : Reachable p)
    (hremove : p.removeKey sectionName key = .ok (removed, p')) : Reachable p'

/-- No section and no key is there twice. -/
structure Keyed (p : Parser) : Prop where
  distinct : Distinct p
  names : ∀ s ∈ p, validateKey s.1 = true
  keys : ∀ s ∈ p, Distinct s.2

/-- All the values, in their order. -/
def entries (p : Parser) : List (Bytes × Bytes × Bytes) := p.flatMap fun s => s.2.map fun o => (s.1, o.1, o.2)

/-- All the values but the one of a key. -/
def others (p : Parser) (sectionName key : Bytes) : List (Bytes × Bytes × Bytes) :=
  p.entries.filter fun e => ¬ (e.1 = sectionName ∧ e.2.1 = lower key)

/-- The key was the last one of its section. -/
def Last (p : Parser) (sectionName key : Bytes) : Prop :=
  ∀ s, InsertionOrder.find p sectionName = some s → ∀ o ∈ s, o.1 = lower key

/-- The key is removed and nothing else is, but for a section that has become empty. -/
structure Removes (p : Parser) (sectionName key : Bytes) (p' : Parser) : Prop where
  gone : p'.hasKey sectionName key = false
  others : p'.others sectionName key = p.others sectionName key
  sections : (p'.map Prod.fst).filter (· ≠ sectionName) = (p.map Prod.fst).filter (· ≠ sectionName)
  last : p'.hasSection sectionName = false ↔ p.Last sectionName key

end Parser

variable {p p' : Parser} {s s' : Reading} {sec : Section} {sectionName key name line : Bytes} {ignoreDuplicates : Bool}
  {firstNonSpace firstKVSeperator : Nat}

/-! ## Every state -/

namespace Parser

lemma Keyed.set (h : p.Keyed) (hname : validateKey name = true) (hsec : Distinct sec) :
    Keyed (InsertionOrder.set p name sec) where
  distinct := h.distinct.set name sec
  names s hs := by
    rcases mem_of_mem_set hs with hmem | rfl
    · exact h.names s hmem
    · exact hname
  keys s hs := by
    rcases mem_of_mem_set hs with hmem | rfl
    · exact h.keys s hmem
    · exact hsec

lemma Keyed.find (h : p.Keyed) (name : Bytes) : Distinct ((InsertionOrder.find p name).getD []) := by
  cases hfind : InsertionOrder.find p name with
  | none => exact List.nodup_nil
  | some sec => exact h.keys (name, sec) (mem_of_find hfind)

lemma Keyed.change (h : p.Keyed) {f : Section → Section} (hf : ∀ sec : Section, Distinct sec → Distinct (f sec))
    (heq : change p name f = .ok p') : p'.Keyed := by
  obtain ⟨hvalid, rfl⟩ := change_eq_ok heq
  exact h.set hvalid (hf _ (h.find name))

lemma Keyed.remove (h : p.Keyed) (name : Bytes) : Keyed (InsertionOrder.remove p name) where
  distinct := h.distinct.remove name
  names s hs := h.names s (mem_remove.1 hs).1
  keys s hs := h.keys s (mem_remove.1 hs).1

end Parser

lemma Section.change_distinct {s' : Section} {f : Bytes → Bytes} (h : Distinct sec)
    (heq : Section.change sec key f = .ok s') :
    Distinct s' := by
  obtain ⟨-, rfl⟩ := change_eq_ok heq
  exact h.set _ _

namespace Reading

/-- A line that is read sets one section. -/
lemma keyed_readContent (h : s.data.Keyed) (heq : s.readContent ignoreDuplicates firstNonSpace = .ok s') :
    s'.data.Keyed := by
  rw [readContent] at heq
  by_cases hcontinued : s.prevFirstNonSpace < firstNonSpace ∧ s.data.hasKey s.currSectionName s.prevKey = true
  · rw [if_pos hcontinued] at heq
    obtain ⟨changed, hchange, heq⟩ := bind_eq_ok heq
    obtain rfl := Except.ok.inj heq
    have hkey := hcontinued.2
    rw [Parser.hasKey] at hkey
    cases hfind : InsertionOrder.find s.data s.currSectionName with
    | none =>
      rw [hfind] at hkey
      exact Bool.noConfusion hkey
    | some sec => exact h.set (h.names _ (mem_of_find hfind)) (Section.change_distinct (h.find _) hchange)
  · rw [if_neg hcontinued] at heq
    by_cases hsection : 3 ≤ (trim s.line).length ∧ (trim s.line).head? = some 91 ∧ (trim s.line).getLast? = some 93
    · rw [if_pos hsection, startSection] at heq
      split at heq
      · cases heq
      · obtain ⟨data, hchange, heq⟩ := bind_eq_ok heq
        obtain rfl := Except.ok.inj heq
        exact h.change (f := fun _ => []) (fun _ _ => List.nodup_nil) hchange
    · rw [if_neg hsection] at heq
      cases hfind : findFirstMatch (trim s.line) fun ch => ch == 58 || ch == 61 with
      | none =>
        rw [hfind] at heq
        cases heq
      | some firstKVSeperator =>
        rw [hfind] at heq
        dsimp only at heq
        split at heq
        · rw [readOption] at heq
          dsimp only at heq
          split at heq
          · cases heq
          · obtain ⟨changed, hchanged, heq⟩ := bind_eq_ok heq
            obtain ⟨data, hchange, heq⟩ := bind_eq_ok heq
            obtain rfl := Except.ok.inj heq
            exact h.change (fun _ _ => Section.change_distinct (h.find _) hchanged) hchange
        · cases heq

lemma keyed_readLine (h : s.data.Keyed) (heq : s.readLine ignoreDuplicates = .ok s') : s'.data.Keyed := by
  rw [readLine] at heq
  cases hfind : findFirstMatch s.line fun ch => !isSpace ch with
  | none =>
    rw [hfind] at heq
    obtain rfl := Except.ok.inj heq
    exact h
  | some firstNonSpace =>
    rw [hfind] at heq
    dsimp only at heq
    by_cases hcomment : isComment s.line firstNonSpace = true
    · rw [if_pos hcomment] at heq
      obtain rfl := Except.ok.inj heq
      exact h
    · rw [if_neg hcomment] at heq
      obtain ⟨s₁, hcontent, heq⟩ := bind_eq_ok heq
      obtain rfl := Except.ok.inj heq
      have hkeyed : s₁.data.Keyed := keyed_readContent h hcontent
      exact hkeyed

lemma keyed_readChar (h : s.data.Keyed) {ch : UInt8} (heq : s.readChar ignoreDuplicates ch = .ok s') :
    s'.data.Keyed := by
  rw [readChar] at heq
  by_cases hch : ch = 10
  · rw [if_pos hch] at heq
    obtain ⟨s₁, hline, heq⟩ := bind_eq_ok heq
    obtain rfl := Except.ok.inj heq
    have hkeyed : s₁.data.Keyed := keyed_readLine h hline
    exact hkeyed
  · rw [if_neg hch] at heq
    obtain rfl := Except.ok.inj heq
    exact h

end Reading

namespace Parser

lemma access_eq (h : p.Keyed) (hfind : InsertionOrder.find p sectionName = some sec) :
    p.access sectionName = .ok p := by
  have hmem := mem_of_find hfind
  have hsame : InsertionOrder.set p sectionName sec = p := by
    rw [set_of_mem (List.mem_map_of_mem hmem), InsertionOrder.modify]
    refine (List.map_congr_left fun s hs => ?_).trans (List.map_id p)
    by_cases hname : s.1 = sectionName
    · rw [if_pos hname]
      exact Prod.ext rfl (h.distinct.eq_of_mem hmem (hname ▸ hs))
    · rw [if_neg hname]
      rfl
  rw [access, change_of_valid p _ (h.names _ hmem), hfind, Option.getD_some, hsame]

lemma exists_of_hasKey (h : p.hasKey sectionName key = true) :
    ∃ sec, InsertionOrder.find p sectionName = some sec ∧ sec.hasKey key = true := by
  rw [hasKey] at h
  cases hfind : InsertionOrder.find p sectionName with
  | none =>
    rw [hfind] at h
    exact Bool.noConfusion h
  | some sec =>
    rw [hfind, Option.map_some, Option.getD_some] at h
    exact ⟨sec, rfl, h⟩

lemma erase_eq_nil_iff : sec.erase key = [] ↔ ∀ o ∈ sec, o.1 = lower key := by
  rw [Section.erase, InsertionOrder.remove, List.filter_eq_nil_iff]
  refine forall₂_congr fun o _ => ?_
  rw [decide_eq_true_iff, not_not]

/-- The section is removed as a whole, or everything stays. -/
lemma removeKey_eq (h : p.Keyed) (hkey : p.hasKey sectionName key = true) (hfind : InsertionOrder.find p sectionName =
    some sec) :
    p.removeKey sectionName key =
      .ok (true, if ∀ o ∈ sec, o.1 = lower key then InsertionOrder.remove p sectionName else p) := by
  rw [removeKey, if_neg (by rw [hkey]; decide), access_eq h hfind]
  change (if Section.erase ((InsertionOrder.find p sectionName).getD []) key = [] then
    (.ok (true, InsertionOrder.remove p sectionName) : Except Bytes (Bool × Parser)) else .ok (true, p)) = _
  rw [hfind, Option.getD_some]
  by_cases hlast : ∀ o ∈ sec, o.1 = lower key
  · rw [if_pos (erase_eq_nil_iff.2 hlast), if_pos hlast]
  · rw [if_neg (mt erase_eq_nil_iff.1 hlast), if_neg hlast]

lemma Keyed.removeKey (h : p.Keyed) {removed : Bool} (heq : p.removeKey sectionName key = .ok (removed, p')) :
    p'.Keyed := by
  by_cases hkey : p.hasKey sectionName key = true
  · obtain ⟨sec, hfind, -⟩ := exists_of_hasKey hkey
    rw [removeKey_eq h hkey hfind] at heq
    obtain ⟨-, rfl⟩ := Prod.mk.inj (Except.ok.inj heq)
    split
    · exact h.remove sectionName
    · exact h
  · rw [Parser.removeKey, if_pos (Bool.eq_false_iff.2 hkey)] at heq
    obtain ⟨-, rfl⟩ := Prod.mk.inj (Except.ok.inj heq)
    exact h

lemma Reachable.keyed (h : p.Reachable) : p.Keyed := by
  induction h with
  | empty => exact ⟨List.nodup_nil, List.forall_mem_nil _, List.forall_mem_nil _⟩
  | @reads p s raw ignoreDuplicates h hreads ih =>
    exact foldlM_invariant (P := fun s : Reading => s.data.Keyed) (fun _ _ _ hs heq => Reading.keyed_readChar hs heq)
      (ih : p.start.data.Keyed) hreads
  | access h haccess ih => exact ih.change (fun _ hsec => hsec) haccess
  | assign h hchange hassign ih => exact ih.change (fun _ _ => Section.change_distinct (ih.find _) hchange) hassign
  | eraseKey h herase ih => exact ih.change (fun _ hsec => hsec.remove _) herase
  | removeSection h sectionName ih => exact ih.remove sectionName
  | removeKey h hremove ih => exact ih.removeKey hremove

/-! ## What is removed -/

lemma others_remove (hlast : ∀ s ∈ p, s.1 = sectionName → ∀ o ∈ s.2, o.1 = lower key) :
    Parser.others (InsertionOrder.remove p sectionName) sectionName key = p.others sectionName key := by
  rw [others, others, entries, entries, InsertionOrder.remove]
  induction p with
  | nil => rfl
  | cons s p ih =>
    rw [List.forall_mem_cons] at hlast
    have ih := ih hlast.2
    by_cases hname : s.1 = sectionName
    · have hnone : (s.2.map fun o => (s.1, o.1, o.2)).filter
          (fun e => decide ¬ (e.1 = sectionName ∧ e.2.1 = lower key)) = [] := by
        rw [List.filter_eq_nil_iff]
        intro e he
        obtain ⟨o, ho, rfl⟩ := List.mem_map.1 he
        rw [decide_eq_true_iff, not_not]
        exact ⟨hname, hlast.1 hname o ho⟩
      rw [List.filter_cons_of_neg (by rw [decide_eq_true_iff, not_not]; exact hname), ih, List.flatMap_cons,
        List.filter_append,
        hnone, List.nil_append]
    · rw [List.filter_cons_of_pos (by rw [decide_eq_true_iff]; exact hname), List.flatMap_cons, List.flatMap_cons,
        List.filter_append,
        List.filter_append, ih]

lemma sections_remove (p : Parser) (sectionName : Bytes) :
    ((InsertionOrder.remove p sectionName).map Prod.fst).filter (· ≠ sectionName) =
      (p.map Prod.fst).filter (· ≠ sectionName) := by
  rw [InsertionOrder.remove, List.filter_map, List.filter_map, List.filter_filter]
  refine congrArg (List.map Prod.fst) (List.filter_congr fun s _ => ?_)
  exact Bool.and_self _

lemma find_remove (p : Parser) (sectionName : Bytes) :
    InsertionOrder.find (InsertionOrder.remove p sectionName) sectionName = none := by
  refine find_eq_none_iff.2 fun hmem => ?_
  obtain ⟨s, hs, heq⟩ := List.mem_map.1 hmem
  exact (mem_remove.1 hs).2 heq

lemma removes_remove (h : p.Keyed) (hlast : p.Last sectionName key) :
    p.Removes sectionName key (InsertionOrder.remove p sectionName) where
  gone := by rw [hasKey, find_remove, Option.map_none, Option.getD_none]
  others := others_remove fun s hs hname o ho =>
    hlast s.2 (h.distinct.find_eq_some_iff.2 (hname ▸ hs)) o ho
  sections := sections_remove p sectionName
  last := by
    rw [hasSection, find_remove]
    exact iff_of_true rfl hlast

/-- A key that is there is removed exactly when it is the only one of its section. -/
theorem removes_iff_last (h : p.Reachable) (hkey : p.hasKey sectionName key = true) :
    (∃ p', p.removeKey sectionName key = .ok (true, p') ∧ p.Removes sectionName key p') ↔ p.Last sectionName key := by
  obtain ⟨sec, hfind, -⟩ := exists_of_hasKey hkey
  have hlast : p.Last sectionName key ↔ ∀ o ∈ sec, o.1 = lower key :=
    ⟨fun hall => hall sec hfind, fun hall s hs => Option.some.inj (hfind.symm.trans hs) ▸ hall⟩
  rw [removeKey_eq h.keyed hkey hfind]
  by_cases honly : ∀ o ∈ sec, o.1 = lower key
  · rw [if_pos honly]
    exact iff_of_true ⟨_, rfl, removes_remove h.keyed (hlast.2 honly)⟩ (hlast.2 honly)
  · rw [if_neg honly]
    refine iff_of_false ?_ (mt hlast.1 honly)
    rintro ⟨p', heq, hremoves⟩
    obtain ⟨-, rfl⟩ := Prod.mk.inj (Except.ok.inj heq)
    exact absurd (hkey.symm.trans hremoves.gone) (by decide)

def twoKeys : Parser := [(ascii "a", [(ascii "x", ascii "1"), (ascii "y", ascii "2")])]

lemma reachable_twoKeys : twoKeys.Reachable :=
  @Reachable.reads [] ⟨twoKeys, ascii "a", ascii "y", [], 0, 0, 4⟩ (ascii "[a]\nx=1\ny=2\n") false .empty rfl

theorem removes_iff_last_twoKeys : (∃ p', twoKeys.removeKey (ascii "a") (ascii "X") = .ok (true, p') ∧
    twoKeys.Removes (ascii "a") (ascii "X") p') ↔ twoKeys.Last (ascii "a") (ascii "X") :=
  removes_iff_last reachable_twoKeys (by decide)

/-- The call reports success and the key is still there. -/
theorem not_removes_twoKeys : twoKeys.Reachable ∧ twoKeys.hasKey (ascii "a") (ascii "x") = true ∧
    ¬ ∃ p', twoKeys.removeKey (ascii "a") (ascii "x") = .ok (true, p') ∧ twoKeys.Removes (ascii "a") (ascii "x") p' := by
  refine ⟨reachable_twoKeys, by decide, ?_⟩
  rintro ⟨p', heq, hremoves⟩
  have hsame : twoKeys.removeKey (ascii "a") (ascii "x") = .ok (true, twoKeys) := rfl
  obtain ⟨-, rfl⟩ := Prod.mk.inj (Except.ok.inj (hsame.symm.trans heq))
  exact absurd hremoves.gone (by decide)

end Parser

end CppExperiments.Ini

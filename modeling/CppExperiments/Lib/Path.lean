import CppExperiments.Lib.Bytes
import Mathlib.Data.List.Infix
import Mathlib.Data.List.TakeWhile

/-!
# Paths

POSIX paths as byte strings: how they are joined, their components, and the lexical normal form of a path, a stack of
components with the last one on top. Where a path leads from a directory is followed on the part of the stack that is
the path's own.
-/

namespace CppExperiments.Path

def dot : Bytes := [46]

def dotDot : Bytes := [46, 46]

def isAbsolute (p : Bytes) : Bool := p.head? == some 47

def hasFilename (p : Bytes) : Bool := p.getLast?.any (· != 47)

/-- `operator/`: an absolute path stands for itself. -/
def append (p q : Bytes) : Bytes :=
  if isAbsolute q then q else if hasFilename p then p ++ 47 :: q else p ++ q

/-- What the system reads of a path: it ends at a zero byte. -/
def cString (p : Bytes) : Bytes := p.takeWhile (· != 0)

/-- What stands between the slashes. -/
def components (p : Bytes) : List Bytes := (p.splitOn 47).filter (· != [])

/-- One component up, which cannot be taken where there is none but that of the root. -/
def leave (absolute : Bool) : List Bytes → List Bytes
  | [] => if absolute then [] else [dotDot]
  | top :: rest => if top = dotDot then dotDot :: top :: rest else rest

/-- One more component. -/
def enter (absolute : Bool) (stack : List Bytes) (c : Bytes) : List Bytes :=
  if c = dot then stack else if c = dotDot then leave absolute stack else c :: stack

/-- The components of the lexical normal form. -/
def normal (p : Bytes) : List Bytes := (components p).foldl (enter (isAbsolute p)) []

/-- `p` lies lexically in `base`. -/
def Within (base p : Bytes) : Prop :=
  isAbsolute p = isAbsolute base ∧ ∃ names, normal p = names ++ normal base ∧ dotDot ∉ names

/-- The name of a file. -/
def Name (c : Bytes) : Prop := c ≠ [] ∧ 47 ∉ c ∧ c ≠ dot ∧ c ≠ dotDot

/-- One more component of a path that goes on from a directory; `none` where it leaves it. -/
def descend (stack : List Bytes) (c : Bytes) : Option (List Bytes) :=
  if c = dot then some stack else if c = dotDot then stack.tail? else some (c :: stack)

/-- Where components lead. -/
def follow (stack : List Bytes) : List Bytes → Option (List Bytes)
  | [] => some stack
  | c :: cs => (descend stack c).bind fun stack => follow stack cs

variable {p q base c z : Bytes} {cs stack stack' : List Bytes} {absolute : Bool}

/-! ## Joining -/

lemma isAbsolute_append (h : isAbsolute q = false) : isAbsolute (append p q) = isAbsolute p := by
  rw [append, if_neg (by simp [h])]
  cases p with
  | nil => exact h
  | cons b p => split <;> simp [isAbsolute]

lemma components_append_slash (p q : Bytes) : components (p ++ 47 :: q) = components p ++ components q := by
  rw [components, List.splitOn_append_cons_self, List.filter_append]
  rfl

lemma components_nil : components [] = [] := by simp [components]

lemma components_append (h : isAbsolute q = false) : components (append p q) = components p ++ components q := by
  rw [append, if_neg (by simp [h])]
  by_cases hname : hasFilename p
  · rw [if_pos hname, components_append_slash]
  · rw [if_neg hname]
    cases p using List.reverseRecOn with
    | nil => rw [components_nil, List.nil_append, List.nil_append]
    | append_singleton p b =>
      obtain rfl : b = 47 := by simpa [hasFilename] using hname
      rw [List.append_assoc, List.singleton_append, components_append_slash, components_append_slash, components_nil,
        List.append_nil]

lemma Name.components (h : Name c) : components c = [c] := by
  rw [Path.components, List.splitOn_eq_singleton h.2.1, List.filter_cons_of_pos (by simpa using h.1), List.filter_nil]

lemma Name.not_isAbsolute (h : Name c) : isAbsolute c = false := by
  cases c with
  | nil => rfl
  | cons b c =>
    have hb : b ≠ 47 := fun hb => h.2.1 (hb ▸ List.mem_cons_self)
    simp [isAbsolute, hb]

/-! ## Zero bytes -/

lemma cString_of_notMem (h : (0 : UInt8) ∉ p) : cString p = p := by
  rw [cString, List.takeWhile_eq_self_iff]
  intro b hb
  have hne : b ≠ 0 := fun heq => h (heq ▸ hb)
  simpa using hne

lemma zero_notMem_cString (p : Bytes) : (0 : UInt8) ∉ cString p := by
  intro h
  have hzero := List.mem_takeWhile_imp h
  simp at hzero

lemma cString_append_of_notMem (h : (0 : UInt8) ∉ p) (q : Bytes) : cString (p ++ q) = p ++ cString q := by
  rw [cString, List.takeWhile_append_of_pos]
  · rfl
  · intro b hb
    have hne : b ≠ 0 := fun heq => h (heq ▸ hb)
    simpa using hne

lemma cString_append_of_mem (h : (0 : UInt8) ∈ p) (q : Bytes) : cString (p ++ q) = cString p := by
  induction p with
  | nil => cases h
  | cons b p ih =>
    by_cases hb : b = 0
    · rw [hb]
      simp [cString]
    · have hmem : (0 : UInt8) ∈ p := (List.mem_cons.1 h).resolve_left (Ne.symm hb)
      have ih := ih hmem
      simp only [cString] at ih ⊢
      rw [List.cons_append, List.takeWhile_cons, List.takeWhile_cons, ih]

lemma isAbsolute_cString (p : Bytes) : isAbsolute (cString p) = isAbsolute p := by
  cases p with
  | nil => rfl
  | cons b p =>
    by_cases hb : b = 0
    · subst hb
      rfl
    · simp [cString, isAbsolute, hb]

/-- What is appended to a path without zero bytes is cut on its own. -/
lemma cString_append (h : (0 : UInt8) ∉ p) (q : Bytes) : cString (append p q) = append p (cString q) := by
  rw [append, append, isAbsolute_cString]
  split
  · rfl
  · split
    · rw [cString_append_of_notMem h]
      congr 1
    · rw [cString_append_of_notMem h]

lemma mem_of_mem_splitOn {b : UInt8} (hc : c ∈ p.splitOn 47) (hb : b ∈ c) : b ∈ p := by
  induction p generalizing c with
  | nil =>
    obtain rfl : c = [] := by simpa using hc
    cases hb
  | cons a p ih =>
    rw [List.splitOn_cons_eq_if_modifyHead] at hc
    split at hc
    · rcases List.mem_cons.1 hc with rfl | hc
      · cases hb
      · exact List.mem_cons_of_mem a (ih hc hb)
    · cases hsplit : p.splitOn 47 with
      | nil => exact absurd hsplit (List.splitOn_ne_nil _ _)
      | cons d ds =>
        rw [hsplit] at hc ih
        rcases List.mem_cons.1 hc with rfl | hc
        · rcases List.mem_cons.1 hb with rfl | hb
          · exact List.mem_cons_self
          · exact List.mem_cons_of_mem a (ih List.mem_cons_self hb)
        · exact List.mem_cons_of_mem a (ih (List.mem_cons_of_mem d hc) hb)

lemma zero_notMem_of_mem_components (h : c ∈ components (cString p)) : (0 : UInt8) ∉ c :=
  fun hzero => zero_notMem_cString p (mem_of_mem_splitOn (List.mem_of_mem_filter h) hzero)

/-! ## Normal forms -/

lemma Name.enter (h : Name c) : enter absolute stack c = c :: stack := by
  rw [Path.enter, if_neg h.2.2.1, if_neg h.2.2.2]

lemma mem_of_mem_leave (h : z ∈ leave absolute stack) : z ∈ stack ∨ z = dotDot := by
  cases stack with
  | nil =>
    rw [leave] at h
    split at h
    · cases h
    · exact Or.inr (List.mem_singleton.1 h)
  | cons top rest =>
    rw [leave] at h
    split at h
    · exact (List.mem_cons.1 h).symm
    · exact Or.inl (List.mem_cons_of_mem top h)

lemma mem_of_mem_enter (h : z ∈ enter absolute stack c) : z ∈ stack ∨ z = c := by
  rw [enter] at h
  split at h
  · exact Or.inl h
  · split at h
    · rename_i hc
      exact hc ▸ mem_of_mem_leave h
    · exact (List.mem_cons.1 h).symm

lemma mem_of_mem_foldl_enter (h : z ∈ cs.foldl (enter absolute) stack) : z ∈ stack ∨ z ∈ cs := by
  induction cs generalizing stack with
  | nil => exact Or.inl h
  | cons c cs ih =>
    rcases ih h with h | h
    · rcases mem_of_mem_enter h with h | rfl
      · exact Or.inl h
      · exact Or.inr List.mem_cons_self
    · exact Or.inr (List.mem_cons_of_mem c h)

/-- What is in a normal form comes from the path. -/
lemma mem_components_of_mem_normal (h : z ∈ normal p) : z ∈ components p :=
  (mem_of_mem_foldl_enter h).resolve_left List.not_mem_nil

/-- A component that does not lead out of what is on top of a stack leaves alone what is below. -/
lemma enter_of_descend (absolute : Bool) (hstack : dotDot ∉ stack) (h : descend stack c = some stack')
    (below : List Bytes) : enter absolute (stack ++ below) c = stack' ++ below ∧ dotDot ∉ stack' := by
  rw [descend] at h
  rw [enter]
  by_cases hdot : c = dot
  · rw [if_pos hdot] at h ⊢
    rw [← Option.some.inj h]
    exact ⟨rfl, hstack⟩
  · rw [if_neg hdot] at h ⊢
    by_cases hup : c = dotDot
    · rw [if_pos hup] at h ⊢
      cases stack with
      | nil => cases h
      | cons top rest =>
        obtain rfl : rest = stack' := Option.some.inj h
        rw [List.mem_cons, not_or] at hstack
        exact ⟨if_neg (Ne.symm hstack.1), hstack.2⟩
    · rw [if_neg hup] at h ⊢
      rw [← Option.some.inj h]
      exact ⟨rfl, List.not_mem_cons_of_ne_of_not_mem (Ne.symm hup) hstack⟩

/-- A path that stays in its directory leads to the same place below it, whatever the directory is. -/
theorem foldl_enter_of_follow (absolute : Bool) (hstack : dotDot ∉ stack) (h : follow stack cs = some stack')
    (below : List Bytes) : cs.foldl (enter absolute) (stack ++ below) = stack' ++ below ∧ dotDot ∉ stack' := by
  induction cs generalizing stack with
  | nil =>
    obtain rfl : stack = stack' := Option.some.inj h
    exact ⟨rfl, hstack⟩
  | cons c cs ih =>
    obtain ⟨stack₁, hc, h⟩ := Option.bind_eq_some_iff.1 h
    obtain ⟨henter, hstack₁⟩ := enter_of_descend absolute hstack hc below
    rw [List.foldl_cons, henter]
    exact ih hstack₁ h

/-- A path that leaves its directory does not come back to it but by its name. -/
theorem notMem_of_follow_eq_none (absolute : Bool) (hstack : dotDot ∉ stack) (h : follow stack cs = none)
    (hname : Name z) (hz : z ∉ cs) : z ∉ cs.foldl (enter absolute) (stack ++ [z]) := by
  induction cs generalizing stack with
  | nil => cases h
  | cons c cs ih =>
    rw [List.mem_cons, not_or] at hz
    rw [List.foldl_cons]
    cases hc : descend stack c with
    | some stack₁ =>
      rw [follow, hc, Option.bind_some] at h
      obtain ⟨henter, hstack₁⟩ := enter_of_descend absolute hstack hc [z]
      rw [henter]
      exact ih hstack₁ h hz.2
    | none =>
      rw [descend] at hc
      split at hc
      · cases hc
      · rename_i hdot
        split at hc
        · rename_i hup
          obtain rfl : stack = [] := by
            cases stack with
            | nil => rfl
            | cons => cases hc
          have hout : enter absolute [z] c = [] := by
            rw [enter, if_neg hdot, if_pos hup, leave, if_neg hname.2.2.2]
          rw [List.nil_append, hout]
          exact fun hmem => (mem_of_mem_foldl_enter hmem).elim List.not_mem_nil hz.2
        · cases hc

lemma normal_append (h : isAbsolute q = false) :
    normal (append base q) = (components q).foldl (enter (isAbsolute base)) (normal base) := by
  rw [normal, isAbsolute_append h, components_append h, List.foldl_append]
  rfl

lemma normal_append_name (h : Name c) (base : Bytes) : normal (append base c) = c :: normal base := by
  rw [normal_append h.not_isAbsolute, h.components, List.foldl_cons, List.foldl_nil, h.enter]

/-- A relative path that does not leave the directory it starts from lies in it. -/
theorem within_append (hname : Name c) (hq : isAbsolute q = false) {below : List Bytes}
    (h : follow [c] (components q) = some (below ++ [c])) (base : Bytes) :
    Within (append base c) (append (append base c) q) := by
  have hc : dotDot ∉ [c] := by simpa using Ne.symm hname.2.2.2
  have hfollow := foldl_enter_of_follow (isAbsolute (append base c)) hc h (normal base)
  rw [List.append_assoc] at hfollow
  refine ⟨isAbsolute_append hq, below, ?_, fun hmem => hfollow.2 (List.mem_append_left [c] hmem)⟩
  rw [normal_append hq, normal_append_name hname]
  exact hfollow.1

lemma components_root (h : Name z) : components (47 :: z) = [z] := by
  have hcomponents := components_append_slash [] z
  rwa [components_nil, h.components, List.nil_append, List.nil_append] at hcomponents

lemma normal_root (h : Name z) : normal (47 :: z) = [z] := by
  rw [normal, components_root h, List.foldl_cons, List.foldl_nil, h.enter]

lemma append_root (h : Name z) (hq : isAbsolute q = false) : append (47 :: z) q = 47 :: z ++ 47 :: q := by
  have hfile : hasFilename (47 :: z) = true := by
    cases z using List.reverseRecOn with
    | nil => exact absurd rfl h.1
    | append_singleton z b =>
      have hb : b ≠ 47 := fun hb => h.2.1 (by simp [hb])
      rw [hasFilename, ← List.cons_append, List.getLast?_concat]
      simpa using hb
  rw [append, if_neg (by simp [hq]), if_pos hfile]

/-- A path lies in a directory of a name that does not occur in it only if it is relative and stays there. -/
theorem follow_of_within (hz : Name z) (hfresh : z ∉ components q) (hname : Name c)
    (h : Within (append (47 :: z) c) (append (append (47 :: z) c) q)) :
    isAbsolute q = false ∧ ∃ below, follow [c] (components q) = some (below ++ [c]) := by
  obtain ⟨-, names, hnormal, -⟩ := h
  rw [normal_append_name hname, normal_root hz] at hnormal
  cases hq : isAbsolute q with
  | true =>
    have hmem : z ∈ normal (append (append (47 :: z) c) q) := by simp [hnormal]
    rw [append, if_pos hq] at hmem
    exact absurd (mem_components_of_mem_normal hmem) hfresh
  | false =>
    have hc : dotDot ∉ [c] := by simpa using Ne.symm hname.2.2.2
    rw [normal_append hq, normal_append_name hname, normal_root hz] at hnormal
    refine ⟨rfl, names, ?_⟩
    cases hfollow : follow [c] (components q) with
    | none =>
      have hout := notMem_of_follow_eq_none (isAbsolute (append (47 :: z) c)) hc hfollow hz hfresh
      rw [List.singleton_append, hnormal] at hout
      simp at hout
    | some stack =>
      have hstack := (foldl_enter_of_follow (isAbsolute (append (47 :: z) c)) hc hfollow [z]).1
      rw [List.singleton_append, hnormal] at hstack
      have hsplit : names ++ [c] ++ [z] = stack ++ [z] := by
        rw [← hstack, List.append_assoc]
        rfl
      rw [List.append_cancel_right hsplit]

/-- There is a name besides those of a list. -/
lemma exists_name (cs : List Bytes) : ∃ z, Name z ∧ (0 : UInt8) ∉ z ∧ z ∉ cs := by
  have hmem : ∀ {b : UInt8} {n : Nat}, b ∈ List.replicate n 97 → b = 97 := fun h => List.eq_of_mem_replicate h
  refine ⟨List.replicate (cs.flatten.length + 3) 97, ⟨?_, ?_, ?_, ?_⟩, ?_, ?_⟩
  · exact List.ne_nil_of_length_pos (by rw [List.length_replicate]; omega)
  · exact fun h => absurd (hmem h) (by decide)
  · exact fun h => absurd (congrArg List.length h) (by rw [List.length_replicate, dot, List.length_singleton]; omega)
  · exact fun h => absurd (congrArg List.length h) (by rw [List.length_replicate, dotDot]; simp)
  · exact fun h => absurd (hmem h) (by decide)
  · intro h
    have hle := (List.sublist_flatten_of_mem h).length_le
    rw [List.length_replicate] at hle
    omega

/-! ## Joined names -/

/-- The components of the names joined to a path, as far as the system reads it. -/
def steps : List Bytes → List Bytes
  | [] => []
  | name :: names => if 0 ∈ name then components (cString name) else components name ++ steps names

lemma isAbsolute_foldl_append (names : List Bytes) (p : Bytes) :
    isAbsolute (names.foldl append p) = (isAbsolute p || names.any isAbsolute) := by
  induction names generalizing p with
  | nil => simp
  | cons name names ih =>
    rw [List.foldl_cons, ih, List.any_cons]
    cases h : isAbsolute name with
    | true => rw [append, if_pos h, h, Bool.true_or, Bool.or_true]
    | false => rw [isAbsolute_append h, Bool.false_or]

lemma zero_mem_append_iff (h : isAbsolute q = false) :
    (0 : UInt8) ∈ append p q ↔ (0 : UInt8) ∈ p ∨ (0 : UInt8) ∈ q := by
  rw [append, if_neg (by simp [h])]
  split <;> simp

lemma cString_append_of_zero_mem (h : (0 : UInt8) ∈ p) (hq : isAbsolute q = false) :
    cString (append p q) = cString p := by
  rw [append, if_neg (by simp [hq])]
  split <;> rw [cString_append_of_mem h]

lemma components_foldl_append {names : List Bytes} (h : ∀ name ∈ names, isAbsolute name = false) (p : Bytes) :
    components (cString (names.foldl append p)) =
      if 0 ∈ p then components (cString p) else components p ++ steps names := by
  induction names generalizing p with
  | nil =>
    split
    · rfl
    · rename_i hp
      rw [List.foldl_nil, cString_of_notMem hp, steps, List.append_nil]
  | cons name names ih =>
    rw [List.forall_mem_cons] at h
    have hzero := @zero_mem_append_iff p name h.1
    rw [List.foldl_cons, ih h.2]
    by_cases hp : (0 : UInt8) ∈ p
    · rw [if_pos (hzero.2 (Or.inl hp)), if_pos hp, cString_append_of_zero_mem hp h.1]
    · rw [if_neg hp, steps]
      by_cases hname : (0 : UInt8) ∈ name
      · rw [if_pos (hzero.2 (Or.inr hname)), if_pos hname, cString_append hp,
          components_append ((isAbsolute_cString name).trans h.1)]
      · rw [if_neg fun hmem => (hzero.1 hmem).elim hp hname, if_neg hname, components_append h.1, List.append_assoc]

end CppExperiments.Path

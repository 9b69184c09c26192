import CppExperiments.Lib.Bytes
import Mathlib.Data.List.Induction
import Mathlib.Logic.Function.Basic
import Mathlib.Tactic.NormNum

/-!
# The trie of a word search

A node is told by the letters on the way to it from the root, so that a pointer to a node is the way to it.
-/

namespace CppExperiments.Puzzles

/-- The largest number of an int. -/
def intMax : Nat := 2 ^ 31 - 1

/-- Why a call has no result. -/
inductive Fault
  /-- There were too few rounds. -/
  | running
  /-- A node that is not there was read or written. -/
  | freed
  /-- An element past the end of an array was read or written. -/
  | outside
  /-- A vector was asked for with a negative length. -/
  | length
  deriving DecidableEq

structure TrieNode where
  isEnd : Bool := false
  minDist : Nat := intMax
  deriving DecidableEq

abbrev Trie := Bytes → Option TrieNode

namespace Trie

def ord (ch : UInt8) : Nat := (((ch.toNat : Int).bmod 256 - 65) % 2 ^ 64).toNat

/-- The root alone. -/
def root : Trie := Function.update (fun _ => none) [] (some {})

def modify (t : Trie) (p : Bytes) (f : TrieNode → TrieNode) : Except Fault Trie :=
  match t p with
  | none => .error .freed
  | some node => .ok (Function.update t p (some (f node)))

/-- A missing child is made. -/
def makeNext (t : Trie) (p : Bytes) : Trie := if t p = none then Function.update t p (some {}) else t

def insertFrom (t : Trie) (curr : Bytes) : Bytes → Except Fault Trie
  | [] => t.modify curr fun _ => { isEnd := true, minDist := 0 }
  | ch :: rest =>
    if ord ch < 26 then do
      let t ← (t.makeNext (curr ++ [ch])).modify curr fun node =>
        { node with minDist := min node.minDist (rest.length + 1) }
      t.insertFrom (curr ++ [ch]) rest
    else .error .outside

def insert (t : Trie) (word : Bytes) : Except Fault Trie := t.insertFrom [] word

def init (words : List Bytes) : Except Fault Trie := words.foldlM insert root

/-- The children of a node. -/
def next (t : Trie) (p : Bytes) : List TrieNode := (List.range 26).filterMap fun k => t (p ++ [UInt8.ofNat (65 + k)])

/-- The nodes below go with the node. -/
def reset (t : Trie) (p : Bytes) : Trie := fun p' => if p <+: p' then none else t p'

/-- The nodes on the way to the word, the last one first, each with the letter that was taken there. -/
def descend (t : Trie) (curr : Bytes) (stk : List (Bytes × UInt8)) :
    Bytes → Except Fault (Option (List (Bytes × UInt8)))
  | [] => .ok (some stk)
  | ch :: rest =>
    if ord ch < 26 then
      if t (curr ++ [ch]) = none then .ok none else t.descend (curr ++ [ch]) ((curr, ch) :: stk) rest
    else .error .outside

def unwind (t : Trie) : List (Bytes × UInt8) → Except Fault Trie
  | [] => .ok t
  | (top, ch) :: stk =>
    if t top = none then .error .freed
    else if t.next top = [] then (t.reset (top ++ [ch])).unwind stk
    else do
      let t ← t.modify top fun node =>
        { node with minDist := (t.next top).foldl (fun minDist child => min minDist child.minDist) intMax }
      t.unwind stk

def erase (t : Trie) (word : Bytes) : Except Fault (Bool × Trie) := do
  match ← t.descend [] [] word with
  | none => .ok (false, t)
  | some stk =>
    if ((t word).getD {}).isEnd = true then do
      let t ← t.modify word fun node => { node with isEnd := false }
      let t ← t.unwind stk
      .ok (true, t)
    else .ok (false, t)

end Trie

/-! ## What insertion and erasure change -/

def IsLetter (ch : UInt8) : Prop := 65 ≤ ch.toNat ∧ ch.toNat ≤ 90

/-- A node on the way to a word that ends so many letters further. -/
def TrieNode.passed (node : TrieNode) (left : Nat) : TrieNode :=
  if left = 0 then { isEnd := true, minDist := 0 } else { node with minDist := min node.minDist left }

/-- A node on the way to a word that is erased. -/
def TrieNode.cleared (node : TrieNode) (left : Nat) : TrieNode :=
  { isEnd := if left = 0 then false else node.isEnd, minDist := 0 }

namespace Trie

variable {t t' walked : Trie} {curr rest w p : Bytes} {ch : UInt8} {node : TrieNode} {stk : List (Bytes × UInt8)}

lemma ord_lt (h : IsLetter ch) : ord ch < 26 := by
  obtain ⟨hlo, hhi⟩ := h
  unfold ord
  rw [Int.bmod_eq_of_le (by omega) (by omega), Int.emod_eq_of_lt (by omega) (by omega)]
  omega

lemma exists_of_isLetter (h : IsLetter ch) : ∃ k ∈ List.range 26, UInt8.ofNat (65 + k) = ch := by
  obtain ⟨hlo, hhi⟩ := h
  refine ⟨ch.toNat - 65, List.mem_range.2 (by omega), ?_⟩
  rw [Nat.add_sub_cancel' hlo, UInt8.ofNat_toNat]

lemma modify_eq (h : t p = some node) (f : TrieNode → TrieNode) :
    t.modify p f = .ok (Function.update t p (some (f node))) := by
  rw [modify, h]

lemma update_eq_map (h : t w = some node) (f : TrieNode → TrieNode) (p : Bytes) :
    Function.update t w (some (f node)) p = (t p).map fun node => if p = w then f node else node := by
  rw [Function.update_apply]
  by_cases hp : p = w
  · rw [if_pos hp, hp, h, Option.map_some, if_pos rfl]
  · cases t p with
    | none => rw [if_neg hp, Option.map_none]
    | some node => rw [if_neg hp, Option.map_some, if_neg hp]

lemma makeNext_apply (t : Trie) (q p : Bytes) :
    t.makeNext q p = if p = q then some ((t p).getD {}) else t p := by
  rw [makeNext]
  by_cases hq : t q = none
  · rw [if_pos hq, Function.update_apply]
    by_cases hp : p = q
    · rw [if_pos hp, if_pos hp, hp, hq, Option.getD_none]
    · rw [if_neg hp, if_neg hp]
  · rw [if_neg hq]
    by_cases hp : p = q
    · obtain ⟨node, hnode⟩ := Option.ne_none_iff_exists'.1 hq
      rw [if_pos hp, hp, hnode, Option.getD_some]
    · rw [if_neg hp]

/-- A prefix that goes past the node goes through one of its children. -/
lemma concat_prefix_of_ne (hcurr : curr <+: p) (hne : p ≠ curr) (hp : p <+: curr ++ ch :: rest) :
    curr ++ [ch] <+: p := by
  obtain ⟨q, rfl⟩ := hcurr
  cases q with
  | nil => exact absurd (List.append_nil curr) hne
  | cons c q =>
    obtain ⟨rfl, -⟩ := List.cons_prefix_cons.1 ((List.prefix_append_right_inj curr).1 hp)
    exact ⟨q, by rw [List.append_assoc, List.singleton_append]⟩

lemma insertFrom_eq (hletters : ∀ ch ∈ rest, IsLetter ch) (hcurr : t curr ≠ none) :
    ∃ t', t.insertFrom curr rest = .ok t' ∧ ∀ p, t' p =
      if curr <+: p ∧ p <+: curr ++ rest then some (((t p).getD {}).passed ((curr ++ rest).length - p.length)) else t
        p := by
  induction rest generalizing t curr with
  | nil =>
    obtain ⟨node, hnode⟩ := Option.ne_none_iff_exists'.1 hcurr
    refine ⟨_, modify_eq hnode _, fun p => ?_⟩
    rw [List.append_nil, Function.update_apply]
    by_cases hp : p = curr
    · subst hp
      rw [if_pos rfl, if_pos ⟨List.prefix_rfl, List.prefix_rfl⟩, Nat.sub_self]
      rfl
    · rw [if_neg hp, if_neg]
      rintro ⟨hle, hge⟩
      exact hp (hge.eq_of_length_le hle.length_le)
  | cons ch rest ih =>
    obtain ⟨node, hnode⟩ := Option.ne_none_iff_exists'.1 hcurr
    have hself : curr ≠ curr ++ [ch] := fun h => by simpa using congrArg List.length h
    have hmade : t.makeNext (curr ++ [ch]) curr = some node := by rw [makeNext_apply, if_neg hself, hnode]
    rw [insertFrom, if_pos (ord_lt (hletters ch List.mem_cons_self)), modify_eq hmade]
    have happly : ∀ p, p ≠ curr → Function.update (t.makeNext (curr ++ [ch])) curr
        (some { node with minDist := min node.minDist (rest.length + 1) }) p =
          if p = curr ++ [ch] then some ((t p).getD {}) else t p := by
      intro p hp
      rw [Function.update_of_ne hp, makeNext_apply]
    obtain ⟨t', ht', heq⟩ := @ih (Function.update (t.makeNext (curr ++ [ch])) curr
      (some { node with minDist := min node.minDist (rest.length + 1) })) (curr ++ [ch])
      (fun c hc => hletters c (List.mem_cons_of_mem _ hc))
      (by rw [happly _ hself.symm, if_pos rfl]; exact Option.some_ne_none _)
    refine ⟨t', ht', fun p => ?_⟩
    rw [heq p, List.append_assoc, List.singleton_append]
    by_cases hp : p = curr
    · rw [if_neg fun h => by simpa [hp] using h.1.length_le, if_pos ⟨hp ▸ List.prefix_rfl,
        hp ▸ List.prefix_append _ _⟩, hp,
        Function.update_self, hnode, Option.getD_some, List.length_append, Nat.add_sub_cancel_left, TrieNode.passed,
        List.length_cons, if_neg (Nat.succ_ne_zero _)]
    · rw [happly p hp]
      by_cases hway : curr <+: p ∧ p <+: curr ++ ch :: rest
      · rw [if_pos ⟨concat_prefix_of_ne hway.1 hp hway.2, hway.2⟩, if_pos hway]
        by_cases hnext : p = curr ++ [ch]
        · rw [if_pos hnext, Option.getD_some]
        · rw [if_neg hnext]
      · rw [if_neg hway, if_neg fun h => hway ⟨(List.prefix_append curr [ch]).trans h.1, h.2⟩, if_neg]
        rintro rfl
        exact hway ⟨List.prefix_append curr [ch], by
          rw [List.prefix_append_right_inj, List.cons_prefix_cons]; exact ⟨rfl, List.nil_prefix⟩⟩

/-- Insertion passes the nodes on the way to the word, which it makes where they are missing. -/
lemma insert_eq (hletters : ∀ ch ∈ w, IsLetter ch) (hroot : t [] ≠ none) :
    ∃ t', t.insert w = .ok t' ∧
      ∀ p, t' p = if p <+: w then some (((t p).getD {}).passed (w.length - p.length)) else t p := by
  obtain ⟨t', ht', heq⟩ := insertFrom_eq hletters hroot
  refine ⟨t', ht', fun p => ?_⟩
  rw [heq p, List.nil_append]
  exact if_congr (and_iff_right List.nil_prefix) rfl rfl

lemma descend_append (hcurr : t (curr ++ w ++ [ch]) ≠ none) (hch : IsLetter ch) :
    t.descend curr stk (w ++ [ch]) = (t.descend curr stk w).map fun stk => stk.map fun stk =>
      (curr ++ w, ch) :: stk := by
  induction w generalizing curr stk with
  | nil =>
    rw [List.append_nil] at hcurr ⊢
    rw [descend, List.nil_append, descend, if_pos (ord_lt hch), if_neg hcurr, descend]
    rfl
  | cons c w ih =>
    rw [List.cons_append, descend, descend]
    by_cases hc : ord c < 26
    · rw [if_pos hc, if_pos hc]
      by_cases hnext : t (curr ++ [c]) = none
      · rw [if_pos hnext, if_pos hnext]
        rfl
      · rw [if_neg hnext, if_neg hnext, ih (by simpa using hcurr), List.append_assoc, List.singleton_append]
    · rw [if_neg hc, if_neg hc]
      rfl

lemma foldl_min_le {l : List TrieNode} {a : Nat} : l.foldl (fun m child => min m child.minDist) a ≤ a := by
  induction l generalizing a with
  | nil => exact Nat.le_refl a
  | cons node l ih => exact ih.trans (min_le_left _ _)

lemma foldl_min_eq_zero {l : List TrieNode} {a : Nat} (hmem : node ∈ l) (hnode : node.minDist = 0) :
    l.foldl (fun m child => min m child.minDist) a = 0 := by
  induction l generalizing a with
  | nil => cases hmem
  | cons child l ih =>
    rw [List.foldl_cons]
    rcases List.mem_cons.1 hmem with rfl | hmem
    · rw [hnode, Nat.min_zero]
      exact Nat.le_zero.1 foldl_min_le
    · exact ih hmem

lemma mem_next (hch : IsLetter ch) (hnode : t (p ++ [ch]) = some node) : node ∈ t.next p := by
  obtain ⟨k, hk, rfl⟩ := exists_of_isLetter hch
  exact List.mem_filterMap.2 ⟨k, hk, hnode⟩

/-- On the way back from an end the nodes get nothing but a distance, and none of them goes. -/
lemma unwind_eq (hletters : ∀ ch ∈ w, IsLetter ch) (hwalked : ∀ p, p <+: w → walked p ≠ none)
    (hnodes : ∀ p, p <+: w → t p ≠ none) (hend : ∀ node, t w = some node → node.minDist = 0) :
    ∃ stk, walked.descend [] [] w = .ok (some stk) ∧ ∃ t', t.unwind stk = .ok t' ∧
      ∀ p, t' p = (t p).map fun node => if p <+: w then { node with minDist := 0 } else node := by
  induction w using List.reverseRecOn generalizing t with
  | nil =>
    refine ⟨[], rfl, t, rfl, fun p => ?_⟩
    cases hp : t p with
    | none => rfl
    | some node =>
      rw [Option.map_some]
      by_cases hroot : p <+: []
      · obtain rfl := List.prefix_nil.1 hroot
        rw [if_pos hroot, ← hend node hp]
      · rw [if_neg hroot]
  | append_singleton w ch ih =>
    have hch := hletters ch (List.mem_append_right w List.mem_cons_self)
    obtain ⟨node, hnode⟩ := Option.ne_none_iff_exists'.1 (hnodes w (List.prefix_append w [ch]))
    obtain ⟨child, hchild⟩ := Option.ne_none_iff_exists'.1 (hnodes (w ++ [ch]) List.prefix_rfl)
    have hmem := mem_next hch hchild
    have hzero : (t.next w).foldl (fun minDist child => min minDist child.minDist) intMax = 0 :=
      foldl_min_eq_zero hmem (hend child hchild)
    have hne : w ≠ w ++ [ch] := fun h => by simpa using congrArg List.length h
    have hupdate := update_eq_map hnode fun node => { node with minDist := 0 }
    obtain ⟨stk, hdescend, t', hunwind, heq⟩ := @ih (Function.update t w (some { node with minDist := 0 }))
      (fun c hc => hletters c (List.mem_append_left _ hc))
        (fun p hp => hwalked p (hp.trans (List.prefix_append w [ch])))
      (fun p hp => by
        rw [hupdate, Ne, Option.map_eq_none_iff]
        exact hnodes p (hp.trans (List.prefix_append w [ch])))
      (fun node' hnode' => by
        rw [Function.update_self] at hnode'
        rw [← Option.some.inj hnode'])
    refine ⟨(w, ch) :: stk, ?_, t', ?_, fun p => ?_⟩
    · rw [descend_append (by simpa using hwalked _ List.prefix_rfl) hch, hdescend]
      rfl
    · rw [unwind, if_neg (by rw [hnode]; exact Option.some_ne_none _), if_neg (List.ne_nil_of_mem hmem),
        modify_eq hnode, hzero]
      exact hunwind
    · rw [heq p, hupdate, Option.map_map]
      cases hp : t p with
      | none => rfl
      | some node =>
        rw [Option.map_some, Option.map_some, Function.comp_apply]
        by_cases hway : p <+: w
        · rw [if_pos hway, if_pos (hway.trans (List.prefix_append w [ch]))]
          by_cases hlast : p = w
          · rw [if_pos hlast]
          · rw [if_neg hlast]
        · have hlast : p ≠ w := fun h => hway (h ▸ List.prefix_rfl)
          rw [if_neg hway, if_neg hlast]
          by_cases hwhole : p <+: w ++ [ch]
          · obtain rfl : p = w ++ [ch] := (List.prefix_concat_iff.1 hwhole).resolve_right hway
            rw [if_pos hwhole, ← hend node hp]
          · rw [if_neg hwhole]

/-- The word is erased by clearing the nodes on the way to it. -/
lemma erase_eq (hletters : ∀ ch ∈ w, IsLetter ch) (hnodes : ∀ p, p <+: w → t p ≠ none)
    (hend : ∃ node, t w = some node ∧ node.isEnd = true ∧ node.minDist = 0) :
    ∃ t', t.erase w = .ok (true, t') ∧
      ∀ p, t' p = (t p).map fun node => if p <+: w then node.cleared (w.length - p.length) else node := by
  obtain ⟨node, hnode, hisEnd, hzero⟩ := hend
  have hupdate := update_eq_map hnode fun node => { node with isEnd := false }
  obtain ⟨stk, hdescend, t', hunwind, heq⟩ :=
    @unwind_eq (Function.update t w (some { node with isEnd := false })) t w hletters
    hnodes
    (fun p hp => by
      rw [hupdate, Ne, Option.map_eq_none_iff]
      exact hnodes p hp)
    (fun node' hnode' => by
      rw [Function.update_self] at hnode'
      rw [← Option.some.inj hnode', hzero])
  refine ⟨t', ?_, fun p => ?_⟩
  · rw [erase, hdescend]
    change (if ((t w).getD {}).isEnd = true then
      (t.modify w fun node => { node with isEnd := false }) >>= fun t => t.unwind stk >>= fun t => .ok (true, t)
        else .ok (false, t)) = _
    rw [hnode, Option.getD_some, if_pos hisEnd, modify_eq hnode]
    change unwind _ stk >>= _ = _
    rw [hunwind]
    rfl
  · rw [heq p, hupdate, Option.map_map]
    cases t p with
    | none => rfl
    | some node =>
      rw [Option.map_some, Option.map_some, Function.comp_apply]
      by_cases hway : p <+: w
      · rw [if_pos hway, if_pos hway, TrieNode.cleared]
        by_cases hlast : p = w
        · rw [if_pos hlast, hlast, Nat.sub_self, if_pos rfl]
        · have hlt : p.length < w.length := lt_of_le_of_ne hway.length_le fun h => hlast (hway.eq_of_length h)
          rw [if_neg hlast, if_neg (Nat.sub_ne_zero_of_lt hlt)]
      · have hlast : p ≠ w := fun h => hway (h ▸ List.prefix_rfl)
        rw [if_neg hway, if_neg hway, if_neg hlast]

end Trie

end CppExperiments.Puzzles

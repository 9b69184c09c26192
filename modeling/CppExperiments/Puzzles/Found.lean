import CppExperiments.Lib.Calls
import CppExperiments.Puzzles.WordSearch

/-!
# Words that are found

What the trie keeps of the words that are not found yet, whatever is erased from it, and the walk along a direction.
-/

namespace CppExperiments.Puzzles

open Grid

/-- What holds of the trie of some words when these are found and erased. -/
structure Trie.Holds (t : Trie) (words : List Bytes) (found : Finset Bytes) : Prop where
  root : t [] ≠ none
  nodes : ∀ w ∈ words, ∀ p, p <+: w → t p ≠ none
  ends : ∀ p node, t p = some node → node.isEnd = true → p ∈ words ∧ node.minDist = 0
  left : ∀ w ∈ words, w ∉ found → ∃ node, t w = some node ∧ node.isEnd = true
  near : ∀ w ∈ words, w ∉ found → ∀ p node, p <+: w → t p = some node → node.minDist ≤ w.length - p.length

variable {t t' : Trie} {words : List Bytes} {found : Finset Bytes} {w p curr rest acc : Bytes} {ch : UInt8}
  {node : TrieNode}
  {grid : List Bytes} {x y dx dy z d : Int} {n k size : Nat} {s s' : Search} {path : List (Int × Int)} {ws : WordSearch}

namespace Trie

lemma sub_length_ne_zero (hp : p <+: w) (hne : p ≠ w) : w.length - p.length ≠ 0 := fun h =>
  hne (hp.eq_of_length_le (Nat.sub_eq_zero_iff_le.1 h))

lemma holds_root : root.Holds [] ∅ := by
  have hroot : ∀ p, root p = if p = [] then some {} else none := fun p => Function.update_apply ..
  refine ⟨?_, nofun, ?_, nofun, nofun⟩
  · rw [hroot, if_pos rfl]
    exact Option.some_ne_none _
  · intro p node hnode hend
    rw [hroot] at hnode
    by_cases hp : p = []
    · rw [if_pos hp] at hnode
      rw [← Option.some.inj hnode] at hend
      cases hend
    · rw [if_neg hp] at hnode
      cases hnode

lemma Holds.insert (h : t.Holds words ∅) (hletters : ∀ ch ∈ w, IsLetter ch) :
    ∃ t', t.insert w = .ok t' ∧ t'.Holds (words ++ [w]) ∅ := by
  obtain ⟨t', ht', heq⟩ := insert_eq hletters h.root
  have hsome : ∀ p, t p ≠ none → t' p ≠ none := by
    intro p hp
    rw [heq p]
    split
    · exact Option.some_ne_none _
    · exact hp
  refine ⟨t', ht', hsome [] h.root, ?_, ?_, ?_, ?_⟩
  · intro v hv p hp
    rcases List.mem_append.1 hv with hv | hv
    · exact hsome p (h.nodes v hv p hp)
    · rw [heq p, if_pos (List.mem_singleton.1 hv ▸ hp)]
      exact Option.some_ne_none _
  · intro p node hnode hend
    rw [heq p] at hnode
    by_cases hp : p <+: w
    · rw [if_pos hp, TrieNode.passed] at hnode
      by_cases hlast : p = w
      · rw [hlast, if_pos (Nat.sub_self _)] at hnode
        rw [← Option.some.inj hnode, hlast]
        exact ⟨List.mem_append_right _ List.mem_cons_self, rfl⟩
      · rw [if_neg (sub_length_ne_zero hp hlast)] at hnode
        obtain rfl := Option.some.inj hnode
        cases hold : t p with
        | none =>
          rw [hold] at hend
          cases hend
        | some old =>
          rw [hold] at hend
          rw [Option.getD_some] at hend ⊢
          obtain ⟨hmem, hzero⟩ := h.ends p old hold hend
          exact ⟨List.mem_append_left _ hmem, by rw [hzero, Nat.zero_min]⟩
    · rw [if_neg hp] at hnode
      obtain ⟨hmem, hzero⟩ := h.ends p node hnode hend
      exact ⟨List.mem_append_left _ hmem, hzero⟩
  · intro v hv hfound
    rw [heq v]
    by_cases hvw : v = w
    · rw [hvw, if_pos List.prefix_rfl, TrieNode.passed, if_pos (Nat.sub_self _)]
      exact ⟨_, rfl, rfl⟩
    · have hold := (List.mem_append.1 hv).resolve_right fun hv => hvw (List.mem_singleton.1 hv)
      obtain ⟨node, hnode, hend⟩ := h.left v hold hfound
      rw [hnode, Option.getD_some]
      by_cases hp : v <+: w
      · rw [if_pos hp, TrieNode.passed, if_neg (sub_length_ne_zero hp hvw)]
        exact ⟨_, rfl, hend⟩
      · rw [if_neg hp]
        exact ⟨node, rfl, hend⟩
  · intro v hv hfound p node hp hnode
    rw [heq p] at hnode
    have hnear : v ≠ w → ∀ old, t p = some old → old.minDist ≤ v.length - p.length := fun hvw old hold =>
      h.near v ((List.mem_append.1 hv).resolve_right fun hv => hvw (List.mem_singleton.1 hv)) hfound p old hp hold
    by_cases hpw : p <+: w
    · rw [if_pos hpw, TrieNode.passed] at hnode
      by_cases hzero : w.length - p.length = 0
      · rw [if_pos hzero] at hnode
        rw [← Option.some.inj hnode]
        exact Nat.zero_le _
      · rw [if_neg hzero] at hnode
        rw [← Option.some.inj hnode]
        by_cases hvw : v = w
        · rw [hvw]
          exact min_le_right _ _
        · have hmem := (List.mem_append.1 hv).resolve_right fun hv => hvw (List.mem_singleton.1 hv)
          obtain ⟨old, hold⟩ := Option.ne_none_iff_exists'.1 (h.nodes v hmem p hp)
          rw [hold, Option.getD_some]
          exact (min_le_left _ _).trans (hnear hvw old hold)
    · rw [if_neg hpw] at hnode
      exact hnear (fun hvw => hpw (hvw ▸ hp)) node hnode

lemma holds_init (hletters : ∀ w ∈ words, ∀ ch ∈ w, IsLetter ch) : ∃ t, init words = .ok t ∧ t.Holds words ∅ := by
  have hrun : ∀ (done : List Bytes) (t : Trie), t.Holds done ∅ → ∀ todo : List Bytes,
    (∀ w ∈ todo, ∀ ch ∈ w, IsLetter ch) →
      ∃ t', todo.foldlM Trie.insert t = .ok t' ∧ t'.Holds (done ++ todo) ∅ := by
    intro done t ht todo htodo
    induction todo generalizing done t with
    | nil => exact ⟨t, rfl, (List.append_nil done).symm ▸ ht⟩
    | cons w todo ih =>
      obtain ⟨t₁, hinsert, ht₁⟩ := ht.insert (htodo w List.mem_cons_self)
      obtain ⟨t₂, hrest, ht₂⟩ := ih (done ++ [w]) t₁ ht₁ fun v hv => htodo v (List.mem_cons_of_mem w hv)
      refine ⟨t₂, ?_, by rwa [List.append_assoc, List.singleton_append] at ht₂⟩
      rw [List.foldlM_cons, hinsert]
      exact hrest
  exact hrun [] root holds_root words hletters

/-- Erasing a word takes no node away, and what is left to be found stays near. -/
lemma Holds.erase (h : t.Holds words found) (hletters : ∀ w ∈ words, ∀ ch ∈ w, IsLetter ch) (hnode : t w = some node)
    (hend : node.isEnd = true) :
    ∃ t', t.erase w = .ok (true, t') ∧ t'.Holds words (Insert.insert w found) ∧ ∀ p, t' p = none ↔ t p = none := by
  obtain ⟨hw, hzero⟩ := h.ends w node hnode hend
  obtain ⟨t', ht', heq⟩ := erase_eq (hletters w hw) (h.nodes w hw) ⟨node, hnode, hend, hzero⟩
  have hnone : ∀ p, t' p = none ↔ t p = none := by
    intro p
    rw [heq p, Option.map_eq_none_iff]
  refine ⟨t', ht', ⟨fun hroot => h.root ((hnone []).1 hroot),
    fun v hv p hp hp' => h.nodes v hv p hp ((hnone p).1 hp'), ?_, ?_, ?_⟩, hnone⟩
  · intro p node' hnode' hend'
    rw [heq p] at hnode'
    obtain ⟨old, hold, rfl⟩ := Option.map_eq_some_iff.1 hnode'
    by_cases hp : p <+: w
    · rw [if_pos hp, TrieNode.cleared] at hend' ⊢
      by_cases hlast : w.length - p.length = 0
      · rw [if_pos hlast] at hend'
        cases hend'
      · rw [if_neg hlast] at hend'
        exact ⟨(h.ends p old hold hend').1, rfl⟩
    · rw [if_neg hp] at hend' ⊢
      exact h.ends p old hold hend'
  · intro v hv hfound
    rw [Finset.mem_insert, not_or] at hfound
    obtain ⟨old, hold, hold'⟩ := h.left v hv hfound.2
    rw [heq v, hold, Option.map_some]
    by_cases hp : v <+: w
    · rw [if_pos hp, TrieNode.cleared, if_neg (sub_length_ne_zero hp hfound.1)]
      exact ⟨_, rfl, hold'⟩
    · rw [if_neg hp]
      exact ⟨old, rfl, hold'⟩
  · intro v hv hfound p node' hp hnode'
    rw [Finset.mem_insert, not_or] at hfound
    rw [heq p] at hnode'
    obtain ⟨old, hold, rfl⟩ := Option.map_eq_some_iff.1 hnode'
    by_cases hpw : p <+: w
    · rw [if_pos hpw]
      exact Nat.zero_le _
    · rw [if_neg hpw]
      exact h.near v hv hfound.2 p old hp hold

end Trie

/-! ## Coordinates -/

/-- The coordinates of the grid, and the distances in it, are small for an int. -/
def Sized (grid : List Bytes) : Prop :=
  grid.length ≤ intMax ∧ (grid.headD []).length ≤ intMax ∧ grid.length + (grid.headD []).length ≤ intMax + 3

lemma isValid_of_cell (hsized : Sized grid) (h : Rectangular grid) (hcell : cell grid x y = some ch) :
    isValid grid x y = true := by
  obtain ⟨hx, hy⟩ := nonneg_of_cell hcell
  obtain ⟨hrow, hcol⟩ := h.lt_of_cell hcell
  rw [isValid_iff, toInt_eq hsized.1, toInt_eq hsized.2.1]
  exact ⟨hx, hy, hrow, hcol⟩

/-- The rounds that are left along a direction. -/
def roundsLeft (grid : List Bytes) (x y dx dy : Int) : Nat :=
  (if dx < 0 then x + 1 else if 0 < dx then toInt grid.length - x
    else if dy < 0 then y + 1 else toInt (grid.headD []).length - y).toNat

lemma roundsLeft_lt (hd : (dx, dy) ∈ dirs) (hvalid : isValid grid x y = true) :
    roundsLeft grid (x + dx) (y + dy) dx dy < roundsLeft grid x y dx dy := by
  obtain ⟨hx, hy, hrow, hcol⟩ := isValid_iff.1 hvalid
  obtain ⟨hdx, hdy, hne⟩ := mem_dirs hd
  unfold roundsLeft
  split_ifs <;> omega

/-- Along an axis that the steps do not stay on they need that many cells. -/
lemma add_two_le_of_steps (hd : d = -1 ∨ d = 0 ∨ d = 1) (hz : 0 ≤ z) (hlt : z < size) (hlo : 0 ≤ z + d + k * d)
    (hhi : z + d + k * d < size) (hne : d ≠ 0) : k + 2 ≤ size := by
  rcases hd with rfl | rfl | rfl
  · omega
  · exact absurd rfl hne
  · omega

/-- Along one axis the steps are within the bound. -/
lemma le_natAbs_bound (hd : d = -1 ∨ d = 0 ∨ d = 1) (hz : 0 ≤ z) (hlt : z < size) (hsize : size ≤ intMax)
    (hlo : 0 ≤ z + d + k * d) (hhi : z + d + k * d < size) (hstays : d = 0 → size + k ≤ intMax + 1) :
    k ≤ (z - bound d size).natAbs := by
  unfold bound
  rw [toInt_eq hsize]
  rcases hd with rfl | rfl | rfl
  · rw [if_neg (by decide), if_pos (by decide)]
    omega
  · have hroom := hstays rfl
    rw [if_pos rfl]
    omega
  · rw [if_neg (by decide), if_neg (by decide)]
    omega

/-- No word is cut off that can be read from here on. -/
lemma length_le_maxDist (hsized : Sized grid) (h : Rectangular grid) (hd : (dx, dy) ∈ dirs)
    (hvalid : isValid grid x y = true)
    (hreads : Reads grid rest (x + dx) (y + dy) dx dy) : rest.length ≤ maxDist grid x y dx dy := by
  cases rest with
  | nil => exact Nat.zero_le _
  | cons a w =>
    obtain ⟨hrows, hcols, hsum⟩ := hsized
    obtain ⟨hx, hy, hrow, hcol⟩ := isValid_iff.1 hvalid
    rw [toInt_eq hrows] at hrow
    rw [toInt_eq hcols] at hcol
    obtain ⟨b, hlast⟩ := hreads.cell_last
    obtain ⟨hxlo, hylo⟩ := nonneg_of_cell hlast
    obtain ⟨hxhi, hyhi⟩ := h.lt_of_cell hlast
    obtain ⟨hdx, hdy, hne⟩ := mem_dirs hd
    have hrowBound := le_natAbs_bound hdx hx hrow hrows hxlo hxhi fun hzero => by
      have := add_two_le_of_steps hdy hy hcol hylo hyhi (hne.resolve_left (not_not_intro hzero))
      omega
    have hcolBound := le_natAbs_bound hdy hy hcol hcols hylo hyhi fun hzero => by
      have := add_two_le_of_steps hdx hx hrow hxlo hxhi (hne.resolve_right (not_not_intro hzero))
      omega
    exact Nat.succ_le_succ (le_min hrowBound hcolBound)

/-! ## The walk -/

/-- What the search keeps. -/
structure Search.Keeps (s : Search) (words grid : List Bytes) : Prop where
  holds : s.trie.Holds words s.found
  sound : ∀ w ∈ s.found, w ∈ words ∧ Readable grid w

/-- The node is there, and the path to it stands in the grid up to the next cell. -/
structure OnWay (grid : List Bytes) (dx dy : Int) (t : Trie) (curr : Bytes) (path : List (Int × Int)) (x y : Int) :
    Prop where
  node : t curr ≠ none
  letters : path.mapM (fun p => readCell grid p.1 p.2) = .ok curr
  reads : ∃ x₀ y₀, Reads grid curr x₀ y₀ dx dy ∧ x = x₀ + curr.length * dx ∧ y = y₀ + curr.length * dy

lemma OnWay.next (h : OnWay grid dx dy t curr path x y) (hcell : cell grid x y = some ch)
    (hnode : t' (curr ++ [ch]) ≠ none) :
    OnWay grid dx dy t' (curr ++ [ch]) (path ++ [(x, y)]) (x + dx) (y + dy) := by
  obtain ⟨x₀, y₀, hreads, hx, hy⟩ := h.reads
  refine ⟨hnode, ?_, x₀, y₀, ?_, ?_, ?_⟩
  · rw [List.mapM_append, h.letters, List.mapM_cons, readCell_eq hcell]
    rfl
  · exact hreads.concat (hx ▸ hy ▸ hcell)
  · rw [List.length_append, List.length_singleton, hx]
    push_cast
    ring
  · rw [List.length_append, List.length_singleton, hy]
    push_cast
    ring

/-- A word that is reached is found, and no node goes. -/
lemma Search.Keeps.report (h : s.Keeps words grid) (hletters : ∀ w ∈ words, ∀ ch ∈ w, IsLetter ch)
    (hd : (dx, dy) ∈ dirs)
    (hway : OnWay grid dx dy s.trie curr path x y) (hnode : s.trie curr = some node) (hend : node.isEnd = true) :
    ∃ s', s.report grid path = .ok s' ∧ s'.Keeps words grid ∧ s'.found = insert curr s.found ∧
      ∀ p, s'.trie p = none ↔ s.trie p = none := by
  obtain ⟨t', herase, hholds, hnone⟩ := h.holds.erase hletters hnode hend
  refine ⟨{ trie := t', visited := s.visited ∪ path.toFinset, found := insert curr s.found }, ?_, ⟨hholds, ?_⟩, rfl,
    hnone⟩
  · rw [Search.report, hway.letters]
    change s.trie.erase curr >>= _ = _
    rw [herase]
    rfl
  · intro w hw
    rcases Finset.mem_insert.1 hw with rfl | hw
    · obtain ⟨x₀, y₀, hreads, -, -⟩ := hway.reads
      exact ⟨(h.holds.ends w node hnode hend).1, x₀, y₀, (dx, dy), hd, hreads⟩
    · exact h.sound w hw

lemma child_eq (hnode : t curr ≠ none) (hch : IsLetter ch) : t.child curr ch = .ok (t (curr ++ [ch])) := by
  rw [Trie.child, if_neg hnode, if_pos (Trie.ord_lt hch)]

section

variable (hvalid : isValid grid x y = true) (hcell : cell grid x y = some ch)
include hvalid hcell

lemma walk_stop (hchild : s.trie.child curr ch = .ok none) (n : Nat) :
    walk grid dx dy (n + 1) s curr path x y = .ok s := by
  rw [walk, if_pos hvalid, readCell_eq hcell]
  change s.trie.child curr ch >>= _ = _
  rw [hchild]
  rfl

lemma walk_cut (hchild : s.trie.child curr ch = .ok (some node)) (hcut : maxDist grid x y dx dy < node.minDist)
    (n : Nat) :
    walk grid dx dy (n + 1) s curr path x y = .ok s := by
  rw [walk, if_pos hvalid, readCell_eq hcell]
  change s.trie.child curr ch >>= _ = _
  rw [hchild]
  exact if_pos hcut

lemma walk_on (hchild : s.trie.child curr ch = .ok (some node)) (hnear : node.minDist ≤ maxDist grid x y dx dy)
    (hreport : (if node.isEnd = true then s.report grid (path ++ [(x, y)]) else .ok s) = .ok s') (n : Nat) :
    walk grid dx dy (n + 1) s curr path x y = walk grid dx dy n s' (curr ++ [ch]) (path ++ [(x, y)]) (x + dx)
      (y + dy) := by
  rw [walk, if_pos hvalid, readCell_eq hcell]
  change s.trie.child curr ch >>= _ = _
  rw [hchild]
  refine (if_neg (Nat.not_lt.2 hnear)).trans ?_
  by_cases hend : node.isEnd = true
  · rw [if_pos hend] at hreport ⊢
    rw [hreport]
    rfl
  · rw [if_neg hend] at hreport ⊢
    rw [Except.ok.inj hreport]
    rfl

end

/-- A walk finds the words that can be read on its way, if the grid is sized, and goes to no node that is gone. -/
lemma exists_comes_walk (hrect : Rectangular grid) (hgrid : ∀ row ∈ grid, ∀ ch ∈ row, IsLetter ch)
    (hletters : ∀ w ∈ words, ∀ ch ∈ w, IsLetter ch) (hd : (dx, dy) ∈ dirs) (h : s.Keeps words grid)
    (hway : OnWay grid dx dy s.trie curr path x y) :
    ∃ s', Comes .running (fun n => walk grid dx dy n s curr path x y) (.ok s') ∧ s'.Keeps words grid ∧
      s.found ⊆ s'.found ∧
      (Sized grid → ∀ rest, rest ≠ [] → curr ++ rest ∈ words → Reads grid rest x y dx dy →
        curr ++ rest ∈ s'.found) := by
  induction hrounds : roundsLeft grid x y dx dy using Nat.strongRecOn generalizing s curr path x y with
  | ind k ih =>
    by_cases hvalid : isValid grid x y = true
    · obtain ⟨ch, hcell⟩ := exists_cell_of_isValid hrect hvalid
      obtain ⟨row, hrow, hmem⟩ := exists_mem_of_cell hcell
      have hchild := child_eq hway.node (hgrid row hrow ch hmem)
      -- A word that can be read from here on starts with the letter of the cell.
      have hsplit : ∀ rest, rest ≠ [] → Reads grid rest x y dx dy →
          ∃ rest', rest = ch :: rest' ∧ Reads grid rest' (x + dx) (y + dy) dx dy := by
        intro rest hne hreads
        cases rest with
        | nil => exact absurd rfl hne
        | cons a rest' =>
          obtain ⟨ha, hreads'⟩ := reads_cons.1 hreads
          rw [hcell] at ha
          exact ⟨rest', by rw [Option.some.inj ha], hreads'⟩
      cases hnode : s.trie (curr ++ [ch]) with
      | none =>
        rw [hnode] at hchild
        refine ⟨s, .of_succ rfl (walk_stop hvalid hcell hchild) (comes_const _), h, subset_rfl,
          fun _ rest hne hw hreads => ?_⟩
        obtain ⟨rest', rfl, -⟩ := hsplit rest hne hreads
        exact absurd hnode (h.holds.nodes _ hw _ ⟨rest', (List.append_cons ..).symm⟩)
      | some node =>
        rw [hnode] at hchild
        by_cases hcut : maxDist grid x y dx dy < node.minDist
        · refine ⟨s, .of_succ rfl (walk_cut hvalid hcell hchild hcut) (comes_const _), h, subset_rfl,
            fun hsized rest hne hw hreads => ?_⟩
          obtain ⟨rest', rfl, hreads'⟩ := hsplit rest hne hreads
          by_contra hfound
          have hnear := h.holds.near _ hw hfound _ node ⟨rest', by rw [List.append_assoc, List.singleton_append]⟩ hnode
          have hroom := length_le_maxDist hsized hrect hd hvalid hreads'
          rw [List.length_append, List.length_append, List.length_cons, List.length_singleton] at hnear
          omega
        · have hnear := Nat.not_lt.1 hcut
          have hnext := hway.next hcell (hnode ▸ Option.some_ne_none node)
          have hreport : ∃ s₁, (if node.isEnd = true then s.report grid (path ++ [(x, y)]) else .ok s) = .ok s₁ ∧
              s₁.Keeps words grid ∧ s.found ⊆ s₁.found ∧ s₁.trie (curr ++ [ch]) ≠ none ∧
                (node.isEnd = true → curr ++ [ch] ∈ s₁.found) := by
            by_cases hend : node.isEnd = true
            · obtain ⟨s₁, heq, hkeeps, hfound, hnone⟩ := h.report hletters hd hnext hnode hend
              refine ⟨s₁, (if_pos hend).trans heq, hkeeps, ?_, fun hgone => hnext.node ((hnone _).1 hgone), fun _ => ?_⟩
              · rw [hfound]
                exact Finset.subset_insert _ _
              · rw [hfound]
                exact Finset.mem_insert_self _ _
            · exact ⟨s, if_neg hend, h, subset_rfl, hnext.node, fun hend' => absurd hend' hend⟩
          obtain ⟨s₁, heq, hkeeps, hsubset, hnode₁, hfound⟩ := hreport
          obtain ⟨s', hcomes, hkeeps', hsubset', hreads'⟩ := ih _ (hrounds ▸ roundsLeft_lt hd hvalid) hkeeps
            ⟨hnode₁, hnext.letters, hnext.reads⟩ rfl
          refine ⟨s', .of_succ rfl (walk_on hvalid hcell hchild hnear heq) hcomes, hkeeps', hsubset.trans hsubset',
            fun hsized rest hne hw hreads => ?_⟩
          obtain ⟨rest', rfl, hrest⟩ := hsplit rest hne hreads
          rw [List.append_cons] at hw ⊢
          cases rest' with
          | nil =>
            rw [List.append_nil] at hw ⊢
            by_cases hold : curr ++ [ch] ∈ s.found
            · exact hsubset' (hsubset hold)
            · obtain ⟨node', hnode', hend⟩ := h.holds.left _ hw hold
              rw [hnode] at hnode'
              exact hsubset' (hfound (Option.some.inj hnode' ▸ hend))
          | cons a rest' => exact hreads' hsized _ (List.cons_ne_nil _ _) hw hrest
    · have hstop : ∀ n, walk grid dx dy (n + 1) s curr path x y = .ok s := fun n => by rw [walk, if_neg hvalid]
      refine ⟨s, .of_succ rfl hstop (comes_const _), h, subset_rfl, fun hsized rest hne _ hreads => ?_⟩
      cases rest with
      | nil => exact absurd rfl hne
      | cons a rest => exact absurd (isValid_of_cell hsized hrect (reads_cons.1 hreads).1) hvalid

/-! ## The search -/

lemma exists_markUnvisited (hrect : Rectangular grid) (visited : Finset (Int × Int)) :
    ∃ grid', markUnvisited grid visited = .ok grid' := by
  refine exists_foldlM_ok (P := fun marked => ∀ c ∈ cellsOf grid, cell marked c.1 c.2 ≠ none)
    (fun c hc marked hmarked => ?_)
    fun c hc => ?_
  · by_cases hvisited : (toInt c.1, toInt c.2) ∈ visited
    · exact ⟨marked, if_pos hvisited, hmarked⟩
    · refine ⟨_, (if_neg hvisited).trans (writeCell_eq (hmarked c hc) star), fun c' hc' => ?_⟩
      rw [cell_putCell (Int.natCast_nonneg _) (Int.natCast_nonneg _)]
      split
      · rw [Ne, Option.map_eq_none_iff]
        exact hmarked c hc
      · exact hmarked c' hc'
  · obtain ⟨hrow, hcol⟩ := mem_cellsOf.1 hc
    obtain ⟨ch, hcell⟩ := hrect.exists_cell (Int.natCast_nonneg c.1) (Int.natCast_nonneg c.2) (by omega) (by omega)
    rw [hcell]
    exact Option.some_ne_none ch

/-- A rectangle of letters and words of letters. -/
structure WordSearch.Lettered (ws : WordSearch) : Prop where
  rectangular : Rectangular ws.grid
  grid : ∀ row ∈ ws.grid, ∀ ch ∈ row, IsLetter ch
  words : ∀ w ∈ ws.words, w ≠ [] ∧ ∀ ch ∈ w, IsLetter ch

/-- The search comes to an end, with just the words that stand in the grid. -/
def WordSearch.Solves (ws : WordSearch) : Prop :=
  ∃ r, Comes .running ws.solve (.ok r) ∧ ∀ w, w ∈ r.1 ↔ w ∈ ws.words ∧ Readable ws.grid w

/-- In a sized grid the words that can be read from the start are found. -/
def WordSearch.FoundFrom (ws : WordSearch) (start : (Nat × Nat) × (Int × Int)) (s : Search) : Prop :=
  Sized ws.grid → ∀ w ∈ ws.words, Reads ws.grid w (toInt start.1.1) (toInt start.1.2) start.2.1 start.2.2 → w ∈ s.found

lemma WordSearch.Lettered.exists_comes_walk (h : ws.Lettered) {start : (Nat × Nat) × (Int × Int)}
    (hstart : start ∈ starts ws.grid)
    (hs : s.Keeps ws.words ws.grid) :
    ∃ s', Comes .running
        (fun n => walk ws.grid start.2.1 start.2.2 n s [] [] (toInt start.1.1) (toInt start.1.2)) (.ok s') ∧
      s'.Keeps ws.words ws.grid ∧ ws.FoundFrom start s' ∧ ∀ start', ws.FoundFrom start' s → ws.FoundFrom start' s' := by
  have hway : OnWay ws.grid start.2.1 start.2.2 s.trie [] [] (toInt start.1.1) (toInt start.1.2) :=
    ⟨hs.holds.root, rfl, toInt start.1.1, toInt start.1.2, reads_nil, by simp, by simp⟩
  obtain ⟨s', hcomes, hkeeps, hsubset, hreads⟩ :=
    Puzzles.exists_comes_walk h.rectangular h.grid (fun w hw => (h.words w hw).2)
    (mem_starts.1 hstart).2 hs hway
  refine ⟨s', hcomes, hkeeps, fun hsized w hw hread => ?_, fun start' hfound hsized w hw hread => ?_⟩
  · exact hreads hsized w (h.words w hw).1 hw hread
  · exact hsubset (hfound hsized w hw hread)

/-- What is found stands in the grid, and in a sized grid nothing else does. -/
theorem WordSearch.Lettered.solves (h : ws.Lettered) :
    ∃ r, Comes .running ws.solve (.ok r) ∧ (∀ w ∈ r.1, w ∈ ws.words ∧ Readable ws.grid w) ∧
      (Sized ws.grid → ∀ w ∈ ws.words, Readable ws.grid w → w ∈ r.1) := by
  have hletters : ∀ w ∈ ws.words, ∀ ch ∈ w, IsLetter ch := fun w hw => (h.words w hw).2
  obtain ⟨root, hroot, hholds⟩ := Trie.holds_init hletters
  have hstart : Search.Keeps { trie := root, visited := ∅, found := ∅ } ws.words ws.grid :=
    ⟨hholds, fun w hw => absurd hw (Finset.notMem_empty w)⟩
  obtain ⟨s, hcomes, hkeeps, hfound, -⟩ :=
    comes_foldlM (P := ws.FoundFrom) (fun start hmem s hs => h.exists_comes_walk hmem hs) hstart
  obtain ⟨grid', hmark⟩ := exists_markUnvisited h.rectangular s.visited
  refine ⟨(s.found, { ws with grid := grid' }), ?_, hkeeps.sound, ?_⟩
  · unfold WordSearch.solve
    rw [hroot]
    refine Comes.bind (comes_const _) (Comes.bind hcomes ?_)
    rw [hmark]
    exact comes_const _
  · rintro hsized w hw ⟨x, y, d, hd, hreads⟩
    cases w with
    | nil => exact absurd rfl (h.words _ hw).1
    | cons a w =>
      have hcell := (reads_cons.1 hreads).1
      obtain ⟨hx, hy⟩ := nonneg_of_cell hcell
      obtain ⟨hrow, hcol⟩ := h.rectangular.lt_of_cell hcell
      have hmem : ((x.toNat, y.toNat), d) ∈ starts ws.grid :=
        mem_starts.2 ⟨mem_cellsOf.2 ⟨by dsimp only; omega, by dsimp only; omega⟩, hd⟩
      refine hfound _ hmem hsized _ hw ?_
      have hxInt : toInt x.toNat = x := (toInt_eq (by have := hsized.1; omega)).trans (Int.toNat_of_nonneg hx)
      have hyInt : toInt y.toNat = y := (toInt_eq (by have := hsized.2.1; omega)).trans (Int.toNat_of_nonneg hy)
      rw [hxInt, hyInt]
      exact hreads

theorem WordSearch.Lettered.solves_two : ∃ r,
    Comes .running (WordSearch.solve { grid := [[65, 66], [67, 68]], words := [[65, 68]] }) (.ok r) ∧
      [65, 68] ∈ r.1 := by
  have hlettered : WordSearch.Lettered { grid := [[65, 66], [67, 68]], words := [[65, 68]] } :=
    ⟨by unfold Rectangular; decide, by unfold IsLetter; decide +kernel, by unfold IsLetter; decide +kernel⟩
  obtain ⟨r, hcomes, -, hfound⟩ := WordSearch.Lettered.solves hlettered
  refine ⟨r, hcomes, hfound (by unfold Sized; decide) _ List.mem_cons_self ⟨0, 0, (1, 1), by decide, ?_⟩⟩
  exact reads_cons.2 ⟨by decide, reads_cons.2 ⟨by decide, reads_nil⟩⟩

/-! ## A grid that is too long -/

/-- A word in the last row. -/
def WordSearch.tall (n : Nat) : WordSearch :=
  { grid := List.replicate n [90, 90, 90, 90] ++ [[65, 66, 67, 68]], words := [[65, 66, 67, 68]] }

namespace WordSearch

lemma lettered_tall (n : Nat) : (tall n).Lettered := by
  have hrow : ∀ row ∈ (tall n).grid, row = [90, 90, 90, 90] ∨ row = [65, 66, 67, 68] := by
    intro row hrow
    rcases List.mem_append.1 hrow with hrow | hrow
    · exact .inl (List.eq_of_mem_replicate hrow)
    · exact .inr (List.mem_singleton.1 hrow)
  have hlength : ∀ row ∈ (tall n).grid, row.length = 4 := by
    intro row hmem
    rcases hrow row hmem with rfl | rfl <;> rfl
  refine ⟨fun row hmem => ?_, fun row hmem => ?_, fun w hw => ?_⟩
  · rw [hlength row hmem]
    cases n with
    | zero => rfl
    | succ n => rfl
  · rcases hrow row hmem with rfl | rfl
    · unfold IsLetter
      decide +kernel
    · unfold IsLetter
      decide +kernel
  · obtain rfl := List.mem_singleton.1 hw
    unfold IsLetter
    decide +kernel

lemma length_tall (n : Nat) : (tall n).grid.length = n + 1 := by
  rw [tall, List.length_append, List.length_replicate, List.length_singleton]

lemma width_tall (n : Nat) : ((tall n).grid.headD []).length = 4 := by
  cases n with
  | zero => rfl
  | succ n => rfl

lemma cell_tall (hx : 0 ≤ x) (hy : 0 ≤ y) (hlt : y < 4) :
    (x < n → cell (tall n).grid x y = some 90) ∧ (x = n → cell (tall n).grid x y = [65, 66, 67, 68][y.toNat]?) := by
  rw [cell_eq hx hy]
  constructor
  · intro h
    have hrow : x.toNat < n := by omega
    have hcol : y = 0 ∨ y = 1 ∨ y = 2 ∨ y = 3 := by omega
    rw [tall, List.getElem?_append_left (by rwa [List.length_replicate]), List.getElem?_replicate, if_pos hrow,
      Option.bind_some]
    rcases hcol with rfl | rfl | rfl | rfl <;> rfl
  · rintro rfl
    rw [tall, Int.toNat_natCast, List.getElem?_append_right (by rw [List.length_replicate]), List.length_replicate,
      Nat.sub_self]
    rfl

lemma exists_init_tall (n : Nat) : ∃ t, Trie.init (tall n).words = .ok t ∧ t [] ≠ none ∧
    t [65] = some { isEnd := false, minDist := 3 } ∧ (∀ ch ≠ 65, t [ch] = none) ∧ t [65, 90] = none := by
  have hroot : ∀ p ≠ [], Trie.root p = none := fun p hp => Function.update_of_ne hp _ _
  obtain ⟨t, hinsert, heq⟩ := @Trie.insert_eq Trie.root [65, 66, 67, 68] (by unfold IsLetter; decide +kernel)
    Trie.holds_root.root
  refine ⟨t, ?_, ?_, ?_, fun ch hch => ?_, ?_⟩
  · change (Trie.insert Trie.root [65, 66, 67, 68] >>= pure) = _
    rw [hinsert]
    rfl
  · rw [heq]
    exact Option.some_ne_none _
  · rw [heq, if_pos (by decide), hroot _ (List.cons_ne_nil _ _)]
    rfl
  · rw [heq, if_neg fun h => hch (List.cons_prefix_cons.1 h).1, hroot _ (List.cons_ne_nil _ _)]
  · rw [heq, if_neg (by decide), hroot _ (List.cons_ne_nil _ _)]

/-- From no cell of the grid a walk finds the word in its last row. -/
lemma comes_walk_tall (hn : n + 1 = intMax) (hroot : s.trie [] ≠ none)
    (hnode : s.trie [65] = some { isEnd := false, minDist := 3 }) (hother : ∀ ch ≠ 65, s.trie [ch] = none)
    (hnext : s.trie [65, 90] = none) {start : (Nat × Nat) × (Int × Int)} (hstart : start ∈ starts (tall n).grid) :
    Comes .running (fun k => walk (tall n).grid start.2.1 start.2.2 k s [] [] (toInt start.1.1) (toInt start.1.2))
      (.ok s) := by
  obtain ⟨⟨i, j⟩, dx, dy⟩ := start
  obtain ⟨hcells, hd⟩ := mem_starts.1 hstart
  obtain ⟨hi, hj⟩ := mem_cellsOf.1 hcells
  dsimp only at hd hi hj ⊢
  rw [length_tall] at hi
  rw [width_tall] at hj
  have hfour : 4 ≤ intMax := by decide
  have hrows : toInt (n + 1) = n + 1 := toInt_eq hn.le
  have hcols : toInt 4 = 4 := toInt_eq hfour
  rw [toInt_eq (show i ≤ intMax by omega), toInt_eq (show j ≤ intMax by omega)]
  have hvalid : ∀ {x y : Int}, 0 ≤ x → 0 ≤ y → x ≤ n → y < 4 → isValid (tall n).grid x y = true := by
    intro x y hx hy hxn hyn
    rw [isValid_iff, length_tall, width_tall, hrows, hcols]
    omega
  have hmaxDist : maxDist (tall n).grid i j dx dy = min ((i : Int) - bound dx (n + 1)).natAbs
    ((j : Int) - bound dy 4).natAbs + 1 := by
    rw [maxDist, length_tall, width_tall]
  obtain ⟨hdx, hdy, hne⟩ := mem_dirs hd
  by_cases hfirst : i = n ∧ j = 0
  · obtain ⟨rfl, rfl⟩ := hfirst
    have hstarts := hvalid (Int.natCast_nonneg i) (Int.natCast_nonneg 0) le_rfl (by decide)
    have hcell := (cell_tall (Int.natCast_nonneg i) (Int.natCast_nonneg 0) (by decide)).2 rfl
    have hchild : s.trie.child [] 65 = .ok (some { isEnd := false, minDist := 3 }) := by
      rw [child_eq hroot (by unfold IsLetter; decide +kernel)]
      exact congrArg _ hnode
    by_cases hon : dx = -1 ∧ 0 ≤ dy
    · have hnear : 3 ≤ maxDist (tall i).grid i (0 : Nat) dx dy := by
        rw [hmaxDist]
        unfold bound
        rw [hrows, hcols]
        split_ifs <;> omega
      have hup := hvalid (show 0 ≤ (i : Int) + dx by omega) (show 0 ≤ ((0 : Nat) : Int) + dy by omega) (by omega)
        (by omega)
      have hcell' := (@cell_tall (i + dx) ((0 : Nat) + dy) i (by omega) (by omega) (by omega)).1 (by omega)
      have hchild' : s.trie.child ([] ++ [65]) 90 = .ok none := by
        rw [child_eq (by rw [List.nil_append, hnode]; exact Option.some_ne_none _) (by unfold IsLetter; decide +kernel)]
        exact congrArg _ hnext
      exact .of_succ rfl (walk_on hstarts hcell hchild hnear rfl)
        (.of_succ rfl (walk_stop hup hcell' hchild') (comes_const _))
    · have hcut : maxDist (tall i).grid i (0 : Nat) dx dy < 3 := by
        rw [hmaxDist]
        unfold bound
        rw [hrows, hcols]
        split_ifs <;> omega
      exact .of_succ rfl (walk_cut hstarts hcell hchild hcut) (comes_const _)
  · have hcell : ∃ ch, cell (tall n).grid i j = some ch ∧ IsLetter ch ∧ ch ≠ 65 := by
      have hcells := @cell_tall i j n (Int.natCast_nonneg i) (Int.natCast_nonneg j) (by omega)
      rcases Nat.lt_or_eq_of_le (Nat.le_of_lt_succ hi) with hlt | rfl
      · exact ⟨90, hcells.1 (by omega), by unfold IsLetter; decide +kernel, by decide⟩
      · rw [hcells.2 rfl, Int.toNat_natCast]
        have hcol : j = 1 ∨ j = 2 ∨ j = 3 := by omega
        rcases hcol with rfl | rfl | rfl
        · exact ⟨66, rfl, by unfold IsLetter; decide +kernel, by decide⟩
        · exact ⟨67, rfl, by unfold IsLetter; decide +kernel, by decide⟩
        · exact ⟨68, rfl, by unfold IsLetter; decide +kernel, by decide⟩
    obtain ⟨ch, hcell, hletter, hch⟩ := hcell
    have hchild : s.trie.child [] ch = .ok none := by
      rw [child_eq hroot hletter]
      exact congrArg _ (hother ch hch)
    exact .of_succ rfl
      (walk_stop (hvalid (Int.natCast_nonneg i) (Int.natCast_nonneg j) (by omega) (by omega)) hcell hchild)
        (comes_const _)

/-- The search of such a grid comes to an end with nothing found. -/
lemma comes_solve_tall (hn : n + 1 = intMax) : ∃ ws', Comes .running (tall n).solve (.ok (∅, ws')) := by
  obtain ⟨root, hinit, hroot, hnode, hother, hnext⟩ := exists_init_tall n
  obtain ⟨s, hcomes, rfl, -, -⟩ := comes_foldlM (P := fun _ _ => True)
    (I := fun s => s = { trie := root, visited := ∅, found := ∅ })
    (f := fun k s start => walk (tall n).grid start.2.1 start.2.2 k s [] [] (toInt start.1.1) (toInt start.1.2))
    (l := starts (tall n).grid)
    (fun start hstart s hs => ⟨s, comes_walk_tall hn (hs ▸ hroot) (hs ▸ hnode) (hs ▸ hother) (hs ▸ hnext) hstart, hs,
      trivial,
      fun _ _ => trivial⟩) rfl
  obtain ⟨grid', hmark⟩ := exists_markUnvisited (lettered_tall n).rectangular ∅
  refine ⟨{ tall n with grid := grid' }, ?_⟩
  unfold solve
  rw [hinit]
  refine Comes.bind (comes_const _) (Comes.bind hcomes ?_)
  rw [hmark]
  exact comes_const _

lemma readable_tall (n : Nat) : Readable (tall n).grid [65, 66, 67, 68] := by
  refine ⟨n, 0, (0, 1), by decide, fun k hk => ?_⟩
  have hlt : k < 4 := hk
  rw [(@cell_tall (n + k * 0) (0 + k * 1) n (by omega) (by omega) (by omega)).2 (by omega), Int.mul_one, Int.zero_add,
    Int.toNat_natCast]

/-- With as many rows as an int can count, the pruning along the last row loses a word of it. -/
theorem not_solves_tall : (tall (2 ^ 31 - 2)).Lettered ∧ (tall (2 ^ 31 - 2)).grid ≠ [] ∧
    ¬ (tall (2 ^ 31 - 2)).Solves := by
  refine ⟨lettered_tall _, ?_, ?_⟩
  · exact List.append_ne_nil_of_right_ne_nil _ (List.cons_ne_nil _ _)
  · rintro ⟨r, hcomes, hfound⟩
    obtain ⟨ws', hcomes'⟩ := @comes_solve_tall (2 ^ 31 - 2) rfl
    obtain rfl := Except.ok.inj (hcomes.unique hcomes')
    exact absurd ((hfound _).2 ⟨List.mem_cons_self, readable_tall _⟩) (Finset.notMem_empty _)

end WordSearch

end CppExperiments.Puzzles

import CppExperiments.Cgit.TreeText

/-!
# Walking over a tree

A tree whose objects are in the store is walked over in finitely many rounds, which find its leaves in some order: the
leaves of a tree first, then those of its subtrees, the last one first.
-/

namespace CppExperiments.Cgit

variable {store : Store} {sha pre data : Bytes} {stk pend pend' : List (Bytes × Bytes)}
  {head out out' leaves : List GitLeaf}
  {n : Nat}

/-- A leaf under its full path. -/
def GitLeaf.under (pre : Bytes) (leaf : GitLeaf) : GitLeaf := { leaf with path := Path.append pre leaf.path }

/-- The leaves of a tree and of its subtrees, at most `n` deep, with the objects in the store. -/
def Flat (store : Store) : Nat → Bytes → Bytes → List GitLeaf → Prop
  | 0, _, _, _ => False
  | n + 1, sha, pre, out => ∃ (data : Bytes) (leaves : List GitLeaf) (f : GitLeaf → List GitLeaf),
      store.lookup sha = some (withHeader (ascii "tree") data) ∧ GitTree.deserialize data = some leaves ∧
        (∀ leaf ∈ leaves, (IsTree leaf.mode → Flat store n leaf.sha (Path.append pre leaf.path) (f leaf)) ∧
          (¬ IsTree leaf.mode → f leaf = [leaf.under pre])) ∧ out.Perm (leaves.flatMap f)

namespace Walk

/-- The trees on top of the stack are walked over, and what is below is left. -/
def Clears (store : Store) (pend : List (Bytes × Bytes)) (out : List GitLeaf) : Prop :=
  ∃ k out', out'.Perm out ∧ ∀ n stk head, run store (n + k) ⟨pend ++ stk, head⟩ = run store n ⟨stk, head ++ out'⟩

lemma run_nil (store : Store) (n : Nat) (head : List GitLeaf) : run store n ⟨[], head⟩ = some head := by
  cases n <;> rfl

lemma run_cons (h : store.lookup sha = some (withHeader (ascii "tree") data)) (hdata : GitTree.deserialize data = some leaves) :
    run store (n + 1) ⟨(sha, pre) :: stk, head⟩ = run store n (leaves.foldl (visit pre) ⟨stk, head⟩) := by
  rw [run, findTree_eq n h, Option.bind_eq_bind, Option.bind_some, readTree_eq h, hdata, Option.bind_eq_bind,
    Option.bind_some]

/-- The subtrees of a tree with their paths. -/
def subtrees (pre : Bytes) (leaves : List GitLeaf) : List (Bytes × Bytes) :=
  (leaves.filter fun leaf => IsTree leaf.mode).map fun leaf => (leaf.sha, Path.append pre leaf.path)

def files (pre : Bytes) (leaves : List GitLeaf) : List GitLeaf :=
  (leaves.filter fun leaf => ¬ IsTree leaf.mode).map (GitLeaf.under pre)

lemma foldl_visit (pre : Bytes) (leaves : List GitLeaf) (stk : List (Bytes × Bytes)) (head : List GitLeaf) :
    leaves.foldl (visit pre) ⟨stk, head⟩ = ⟨(subtrees pre leaves).reverse ++ stk, head ++ files pre leaves⟩ := by
  induction leaves generalizing stk head with
  | nil =>
    rw [files, List.filter_nil, List.map_nil, List.append_nil]
    rfl
  | cons leaf leaves ih =>
    rw [List.foldl_cons, visit, subtrees, files, List.filter_cons, List.filter_cons]
    by_cases h : IsTree leaf.mode
    · rw [if_pos h, ih, if_pos (decide_eq_true h), if_neg (by simpa using h), List.map_cons, List.reverse_cons,
        List.append_assoc, List.singleton_append]
      rfl
    · rw [if_neg h, ih, if_neg (by simpa using h), if_pos (by simpa using h), List.map_cons, List.append_assoc,
        List.singleton_append]
      rfl

namespace Clears

lemma nil (store : Store) : Clears store [] [] :=
  ⟨0, [], .refl _, fun n stk head => by rw [List.append_nil, Nat.add_zero, List.nil_append]⟩

lemma perm (h : Clears store pend out) (hperm : out.Perm out') : Clears store pend out' := by
  obtain ⟨k, found, hfound, hrun⟩ := h
  exact ⟨k, found, hfound.trans hperm, hrun⟩

lemma append (h : Clears store pend out) (h' : Clears store pend' out') :
    Clears store (pend ++ pend') (out ++ out') := by
  obtain ⟨k, found, hfound, hrun⟩ := h
  obtain ⟨k', found', hfound', hrun'⟩ := h'
  refine ⟨k' + k, found ++ found', hfound.append hfound', fun n stk head => ?_⟩
  rw [← Nat.add_assoc, List.append_assoc, hrun, hrun', List.append_assoc]

lemma reverse {α : Type} {g : α → Bytes × Bytes} {f : α → List GitLeaf} {l : List α}
    (h : ∀ a ∈ l, Clears store [g a] (f a)) : Clears store (l.map g).reverse (l.flatMap f) := by
  induction l with
  | nil => exact nil store
  | cons a l ih =>
    rw [List.forall_mem_cons] at h
    rw [List.map_cons, List.reverse_cons, List.flatMap_cons]
    exact ((ih h.2).append h.1).perm List.perm_append_comm

end Clears

lemma clears_of_flat (h : Flat store n sha pre out) : Clears store [(sha, pre)] out := by
  induction n generalizing sha pre out with
  | zero => exact h.elim
  | succ n ih =>
    obtain ⟨data, leaves, f, hlookup, hdata, hleaves, hperm⟩ := h
    have hsubtrees : Clears store (subtrees pre leaves).reverse
      ((leaves.filter fun leaf => IsTree leaf.mode).flatMap f) := by
      refine .reverse fun leaf hleaf => ih ?_
      obtain ⟨hmem, htree⟩ := List.mem_filter.1 hleaf
      exact (hleaves leaf hmem).1 (of_decide_eq_true htree)
    have hfiles : files pre leaves = (leaves.filter fun leaf => ¬ IsTree leaf.mode).flatMap f := by
      rw [files, List.map_eq_flatMap]
      refine List.flatMap_congr fun leaf hleaf => ?_
      obtain ⟨hmem, hfile⟩ := List.mem_filter.1 hleaf
      exact ((hleaves leaf hmem).2 (of_decide_eq_true hfile)).symm
    obtain ⟨k, found, hfound, hrun⟩ := hsubtrees
    refine ⟨k + 1, files pre leaves ++ found, ?_, fun n stk head => ?_⟩
    · have hsplit : ((leaves.filter fun leaf => ¬ IsTree leaf.mode) ++ leaves.filter fun leaf =>
        IsTree leaf.mode).Perm leaves := by
        have hfilter := List.filter_append_perm (fun leaf : GitLeaf => decide (IsTree leaf.mode)) leaves
        simp only [← decide_not] at hfilter
        exact List.perm_append_comm.trans hfilter
      calc (files pre leaves ++ found).Perm (files pre leaves ++ (leaves.filter fun leaf => IsTree leaf.mode).flatMap f) :=
            hfound.append_left _
        _ = ((leaves.filter fun leaf => ¬ IsTree leaf.mode) ++ leaves.filter fun leaf => IsTree leaf.mode).flatMap f := by
            rw [hfiles, List.flatMap_append]
        List.Perm _ (leaves.flatMap f) := hsplit.flatMap_right f
        List.Perm _ out := hperm.symm
    · rw [List.singleton_append, ← Nat.add_assoc, run_cons hlookup hdata, foldl_visit, hrun, List.append_assoc]

/-- Nothing with the mode of a directory is found. -/
lemma not_isTree_of_run {w : Walk} (hw : ∀ leaf ∈ w.head, ¬ IsTree leaf.mode) (h : run store n w = some out) :
    ∀ leaf ∈ out, ¬ IsTree leaf.mode := by
  induction n generalizing w with
  | zero =>
    obtain ⟨stk, head⟩ := w
    cases stk with
    | nil =>
      obtain rfl := Option.some.inj h
      exact hw
    | cons => cases h
  | succ n ih =>
    obtain ⟨stk, head⟩ := w
    cases stk with
    | nil =>
      obtain rfl := Option.some.inj h
      exact hw
    | cons top stk =>
      obtain ⟨ref, pre⟩ := top
      rw [run] at h
      obtain ⟨sha, -, h⟩ := Option.bind_eq_some_iff.1 h
      obtain ⟨tree, -, h⟩ := Option.bind_eq_some_iff.1 h
      refine ih (fun leaf hleaf => ?_) h
      rw [foldl_visit] at hleaf
      rcases List.mem_append.1 hleaf with hleaf | hleaf
      · exact hw leaf hleaf
      · obtain ⟨leaf', hmem, rfl⟩ := List.mem_map.1 hleaf
        exact of_decide_eq_true (List.mem_filter.1 hmem).2

end Walk

/-- A tree is flattened, with rounds enough. -/
theorem exists_flatten (h : Flat store n sha [] out) :
    ∃ k leaves, leaves.Perm out ∧ ∀ m ≥ k, flatten store m sha = some leaves := by
  obtain ⟨k, found, hfound, hrun⟩ := Walk.clears_of_flat h
  refine ⟨k, found, hfound, fun m hm => ?_⟩
  have hround := hrun (m - k) [] []
  rw [Nat.sub_add_cancel hm, Walk.run_nil, List.nil_append, List.append_nil] at hround
  exact hround

end CppExperiments.Cgit

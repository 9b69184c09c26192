import CppExperiments.Cgit.Tree
import CppExperiments.Hash.Sha1Compress
import Mathlib.Order.Defs.Unbundled

/-!
# What is read of a tree that was written

The leaves of a tree object are read again in their order, and an object by its name as long as the store has no
collision.
-/

namespace CppExperiments.Cgit

variable {t raw sha shaBin data fmt : Bytes} {acc mode path : Bytes} {leaves : List GitLeaf} {leaf : GitLeaf}
  {store : Store}

/-! ## Leaves -/

namespace GitTree

lemma parse_mode (ht : (32 : UInt8) ∉ t) :
    parse .START acc mode path leaves (t ++ 32 :: raw) =
      parse .MODE_DONE [] (if (acc ++ t).length = 5 then 48 :: (acc ++ t) else acc ++ t) path leaves raw := by
  induction t generalizing acc with
  | nil =>
    rw [List.nil_append, List.append_nil, parse, if_neg (by decide)]
  | cons ch t ih =>
    rw [List.mem_cons, not_or] at ht
    rw [List.cons_append, parse, if_pos (.inl ⟨rfl, Ne.symm ht.1⟩), ih ht.2, List.append_assoc, List.singleton_append]

lemma parse_path (ht : (0 : UInt8) ∉ t) :
    parse .MODE_DONE acc mode path leaves (t ++ 0 :: raw) = parse .PATH_DONE [] mode (acc ++ t) leaves raw := by
  induction t generalizing acc with
  | nil =>
    rw [List.nil_append, List.append_nil, parse, if_neg (by decide)]
  | cons ch t ih =>
    rw [List.mem_cons, not_or] at ht
    rw [List.cons_append, parse, if_pos (.inr ⟨rfl, Ne.symm ht.1⟩), ih ht.2, List.append_assoc, List.singleton_append]

lemma parse_sha (h : shaBin.length = 20) :
    parse .PATH_DONE acc mode path leaves (shaBin ++ raw) =
      parse .START [] [] [] (leaves ++ [⟨mode, path, binary2Sha shaBin⟩]) raw := by
  cases shaBin with
  | nil => cases h
  | cons ch shaBin =>
    have hlength : shaBin.length = 19 := Nat.succ.inj h
    have hle : ¬ (shaBin ++ raw).length < 19 := by
      rw [List.length_append, hlength]
      omega
    have hstate : ¬ ((State.PATH_DONE = .START ∧ ch ≠ 32) ∨ (State.PATH_DONE = .MODE_DONE ∧ ch ≠ 0)) := by
      rintro (⟨h, -⟩ | ⟨h, -⟩) <;> cases h
    rw [List.cons_append, parse, if_neg hstate]
    refine (if_neg hle).trans ?_
    rw [List.take_left' hlength, List.drop_left' hlength]

end GitTree

namespace GitLeaf

/-- A leaf that can be read as it is written. -/
structure Plain (leaf : GitLeaf) : Prop where
  mode : (32 : UInt8) ∉ leaf.mode ∧ leaf.mode.length ≠ 5
  path : (0 : UInt8) ∉ leaf.path
  sha : IsSha leaf.sha

lemma exists_serialize (h : leaf.Plain) : ∃ t, leaf.serialize = some t ∧
    ∀ leaves raw, GitTree.parse .START [] [] [] leaves (t ++ raw) = GitTree.parse .START [] [] []
      (leaves ++ [leaf]) raw := by
  obtain ⟨shaBin, hsha, hlength, hprint⟩ := exists_sha2Binary h.sha
  refine ⟨leaf.mode ++ 32 :: leaf.path ++ 0 :: shaBin, by rw [serialize, hsha]; rfl, fun leaves raw => ?_⟩
  rw [List.append_assoc, List.append_assoc, List.cons_append, List.cons_append, GitTree.parse_mode h.mode.1,
    List.nil_append,
    if_neg h.mode.2, GitTree.parse_path h.path, GitTree.parse_sha hlength, hprint, List.nil_append]

end GitLeaf

namespace GitTree

lemma exists_flatten (h : ∀ leaf ∈ leaves, leaf.Plain) : ∃ texts, leaves.mapM GitLeaf.serialize = some texts ∧
    ∀ front, parse .START [] [] [] front texts.flatten = some (front ++ leaves) := by
  induction leaves with
  | nil => exact ⟨[], rfl, fun front => by rw [List.flatten_nil, parse, List.append_nil]⟩
  | cons leaf leaves ih =>
    rw [List.forall_mem_cons] at h
    obtain ⟨t, ht, hparse⟩ := GitLeaf.exists_serialize h.1
    obtain ⟨texts, htexts, hrest⟩ := ih h.2
    refine ⟨t :: texts, by rw [List.mapM_cons, ht, htexts]; rfl, fun front => ?_⟩
    rw [List.flatten_cons, hparse, hrest, List.append_assoc, List.singleton_append]

lemma sorted_perm (leaves : List GitLeaf) : (sorted leaves).Perm leaves := List.mergeSort_perm _ _

/-- A tree is read as its leaves in order. -/
theorem exists_serialize (h : ∀ leaf ∈ leaves, leaf.Plain) :
    ∃ data, serialize leaves = some data ∧ deserialize data = some (sorted leaves) := by
  have hsorted : ∀ leaf ∈ sorted leaves, leaf.Plain := fun leaf hleaf => h leaf ((sorted_perm leaves).mem_iff.1 hleaf)
  obtain ⟨texts, htexts, hparse⟩ := exists_flatten hsorted
  exact ⟨texts.flatten, by rw [serialize, htexts]; rfl, hparse []⟩

end GitTree

/-! ## The order of leaves -/

namespace GitLeaf

instance : IsStrictWeakOrder GitLeaf fun l1 l2 => l1.less l2 = true where
  irrefl l := by
    rw [less, decide_eq_true_iff]
    exact List.lt_irrefl _
  trans l1 l2 l3 := by
    simp only [less, decide_eq_true_iff]
    exact List.lt_trans
  incomp_trans l1 l2 l3 := by
    simp only [less, decide_eq_true_iff, List.not_lt]
    exact fun h h' => ⟨List.le_trans h'.1 h.1, List.le_trans h.2 h'.2⟩

end GitLeaf

namespace GitTree

lemma pairwise_sorted (leaves : List GitLeaf) : (sorted leaves).Pairwise fun l1 l2 => ¬ l2.less l1 := by
  have htrans : ∀ a b c : GitLeaf, (!b.less a) → (!c.less b) → !c.less a := by
    intro a b c hab hbc
    simp only [GitLeaf.less, Bool.not_eq_true', decide_eq_false_iff_not, List.not_lt] at hab hbc ⊢
    exact List.le_trans hab hbc
  have htotal : ∀ a b : GitLeaf, (!b.less a) || !a.less b := by
    intro a b
    simp only [GitLeaf.less, Bool.or_eq_true, Bool.not_eq_true', decide_eq_false_iff_not, List.not_lt]
    exact List.le_total _ _
  exact (List.pairwise_mergeSort htrans htotal leaves).imp fun h => by simpa using h

/-- The loop of `serialize` over leaves in their order. -/
def serializeAll (leaves : List GitLeaf) : Option Bytes := do
  let texts ← leaves.mapM GitLeaf.serialize
  return texts.flatten

/-- In whatever order leaves of equal paths are sorted, the tree is read again as that list. -/
theorem restored_of_sorted (leaves : List GitLeaf)
    (h : ∀ leaf ∈ leaves, leaf.mode.length = 6 ∧ 32 ∉ leaf.mode ∧ 0 ∉ leaf.path ∧ IsSha leaf.sha) :
    (serialize leaves).bind deserialize = some (sorted leaves) ∧ (sorted leaves).Perm leaves ∧
      ((sorted leaves).Pairwise fun l1 l2 => ¬ l2.less l1) ∧
      (∀ ordered : List GitLeaf, ordered.Perm leaves → (ordered.Pairwise fun l1 l2 => ¬ l2.less l1) →
        (serializeAll ordered).bind deserialize = some ordered) ∧
      IsStrictWeakOrder GitLeaf fun l1 l2 => l1.less l2 = true := by
  have hplain : ∀ leaf ∈ leaves, leaf.Plain := by
    intro leaf hleaf
    obtain ⟨hlength, hspace, hzero, hsha⟩ := h leaf hleaf
    exact ⟨⟨hspace, by rw [hlength]; decide⟩, hzero, hsha⟩
  refine ⟨?_, sorted_perm leaves, pairwise_sorted leaves, fun ordered hperm _ => ?_, inferInstance⟩
  · obtain ⟨data, hserialize, hdata⟩ := exists_serialize hplain
    rw [hserialize, Option.bind_some, hdata]
  · obtain ⟨texts, htexts, hparse⟩ := exists_flatten fun leaf hleaf => hplain leaf (hperm.mem_iff.1 hleaf)
    rw [serializeAll, htexts]
    exact hparse []

theorem restored_of_sorted_three : (serialize [⟨ascii "100644", ascii "b", List.replicate 40 48⟩, ⟨ascii "040000", ascii "a", List.replicate 40 48⟩,
      ⟨ascii "100644", ascii "a.b", List.replicate 40 48⟩]).bind deserialize =
    some (sorted [⟨ascii "100644", ascii "b", List.replicate 40 48⟩, ⟨ascii "040000", ascii "a", List.replicate 40 48⟩,
      ⟨ascii "100644", ascii "a.b", List.replicate 40 48⟩]) := by
  have hsha : IsSha (List.replicate 40 48) := ⟨by decide, by decide⟩
  refine (restored_of_sorted _ fun leaf hleaf => ?_).1
  simp only [List.mem_cons, List.not_mem_nil, or_false] at hleaf
  rcases hleaf with rfl | rfl | rfl
  · exact ⟨rfl, by decide, by decide, hsha⟩
  · exact ⟨rfl, by decide, by decide, hsha⟩
  · exact ⟨rfl, by decide, by decide, hsha⟩

end GitTree

/-! ## Objects -/

lemma isSha_sha1 (raw : Bytes) : IsSha (Hash.sha1 raw false) := by
  have hlength : ∀ val : UInt32, (Hash.x2s val 8).length = 8 := fun val => by
    rw [Hash.x2s_eq, Hash.hexDigits, List.length_map, List.length_reverse, List.length_range]
  have hdigits : ∀ val : UInt32, ∀ ch ∈ Hash.x2s val 8, isLowerHex ch = true := by
    intro val ch hch
    rw [Hash.x2s_eq, Hash.hexDigits] at hch
    obtain ⟨i, -, rfl⟩ := List.mem_map.1 hch
    exact isLowerHex_x2c ⟨(val.toNat >>> (i * 4)) &&& 0xF, Nat.lt_succ_of_le Nat.and_le_right⟩
  have hsha : Hash.sha1 raw false = Hash.digestText (Hash.sha1Regs raw) := rfl
  rw [hsha, Hash.digestText]
  constructor
  · simp only [List.length_append, hlength]
  · simp only [List.all_append, Bool.and_eq_true, List.all_eq_true]
    exact ⟨⟨⟨⟨hdigits _, hdigits _⟩, hdigits _⟩, hdigits _⟩, hdigits _⟩

lemma takeWhile_ne {b : UInt8} (h : b ∉ t) (raw : Bytes) : (t ++ b :: raw).takeWhile (· ≠ b) = t := by
  have hall : ∀ c ∈ t, decide (c ≠ b) = true := fun c hc => decide_eq_true fun heq => h (heq ▸ hc)
  rw [List.takeWhile_append_of_pos hall, List.takeWhile_cons_of_neg (by simp), List.append_nil]

lemma withHeader_eq (fmt data : Bytes) :
    withHeader fmt data = fmt ++ 32 :: (decimal (data.length % 2 ^ 64) ++ 0 :: data) := by
  rw [withHeader, List.append_assoc, List.cons_append]

lemma takeWhile_withHeader (h : (32 : UInt8) ∉ fmt) : (withHeader fmt data).takeWhile (· ≠ 32) = fmt := by
  rw [withHeader_eq, takeWhile_ne h]

theorem readObject_withHeader (h : (32 : UInt8) ∉ fmt) : readObject (withHeader fmt data) = some (fmt, data) := by
  have hlt : data.length % 2 ^ 64 < 2 ^ 64 := Nat.mod_lt _ (by decide)
  have hzero : (0 : UInt8) ∉ decimal (data.length % 2 ^ 64) := not_mem_decimal rfl _
  rw [readObject]
  dsimp only
  rw [takeWhile_withHeader h, withHeader_eq, List.drop_left' rfl]
  dsimp only
  rw [takeWhile_ne hzero, stoull_decimal hlt, List.drop_left' rfl]
  exact if_pos rfl

lemma Store.CollisionFree.lookup (h : store.CollisionFree) (hmem : (sha, raw) ∈ store) :
    store.lookup sha = some raw := by
  cases hlookup : store.lookup sha with
  | none =>
    have hne := List.lookup_eq_none_iff.1 hlookup _ hmem
    rw [bne_self_eq_false] at hne
    cases hne
  | some raw' =>
    obtain ⟨l₁, l₂, hstore, -⟩ := List.lookup_eq_some_iff.1 hlookup
    have hmem' : (sha, raw') ∈ store := by
      rw [hstore]
      exact List.mem_append_right l₁ List.mem_cons_self
    rw [(Prod.mk.inj (h _ hmem _ hmem' rfl)).2]

theorem readTree_eq (h : store.lookup sha = some (withHeader (ascii "tree") data)) :
    readTree store sha = GitTree.deserialize data := by
  rw [readTree, h, Option.bind_eq_bind, Option.bind_some, readObject_withHeader (by decide), Option.bind_eq_bind,
    Option.bind_some]
  exact if_pos rfl

theorem findTree_eq (n : Nat) (h : store.lookup sha = some (withHeader (ascii "tree") data)) :
    findTree store (n + 1) sha = some sha := by
  rw [findTree, h, Option.bind_eq_bind, Option.bind_some, if_pos (takeWhile_withHeader (by decide))]

end CppExperiments.Cgit

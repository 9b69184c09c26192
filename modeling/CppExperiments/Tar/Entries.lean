import CppExperiments.Tar.Archive
import CppExperiments.Tar.Layout

/-!
# The entries of an archive

The paths of a tree that is added, in their order, how their names are split, and what is written for each.
-/

namespace CppExperiments.Tar

/-! ## What is added -/

/-- A path that is added, and what stands there. -/
structure Visit where
  sourcePath : Bytes
  arcname : Bytes
  tree : Tree

/-- The name with a slash at its end. -/
def closed (name : Bytes) : Bytes := if name.getLast? = some 47 then name else name ++ [47]

namespace Visit

/-- The path in the archive. -/
def path (v : Visit) : Bytes := if v.arcname = [] then v.sourcePath else v.arcname

def isDirectory (v : Visit) : Bool := v.tree.ftype == .DIRECTORY

def fullPath (v : Visit) : Bytes := if v.isDirectory = true then closed v.path else v.path

/-- The names and the numbers fit their fields, and the time is not before 1970. -/
structure Fits (v : Visit) : Prop where
  source : (splitPathUSTAR v.sourcePath).isSome
  archive : (splitPathUSTAR v.arcname).isSome
  slash : v.isDirectory = true → ∀ pre name, splitPathUSTAR v.path = some (pre, name) → (closed name).length ≤ 100
  link : v.tree.target.length ≤ 100
  uname : v.tree.attributes.uname.1.length ≤ 32
  gname : v.tree.attributes.gname.1.length ≤ 32
  uid : v.tree.attributes.uid < 8 ^ 7
  gid : v.tree.attributes.gid < 8 ^ 7
  size : v.tree.content.length < 8 ^ 11
  mtime : 0 ≤ v.tree.attributes.mtime

/-- The path is not a slash with a hundred characters behind it, no directory's path ends with a slash that is split
off, there is no zero byte in the path, and the time in nanoseconds fits 64 bits. -/
structure Plain (v : Visit) : Prop where
  rootless : ¬ (v.path.length = 101 ∧ v.path.head? = some 47 ∧ 47 ∉ v.path.tail)
  named : v.isDirectory = true → ¬ (100 < v.path.length ∧ v.path.length ≤ 156 ∧ v.path.getLast? = some 47)
  text : 0 ∉ v.path
  mtime : v.tree.attributes.mtime * 10 ^ 9 < 2 ^ 63

/-- The member is the entry of this path, and its bytes in the archive are the content. -/
structure Matches (file : Bytes) (v : Visit) (m : TarInfo) : Prop where
  fullPath : m.fullPath = v.fullPath
  mode : m.mode = v.tree.attributes.mode &&& 0o777
  uid : m.uid = v.tree.attributes.uid
  gid : m.gid = v.tree.attributes.gid
  mtime : m.mtime = v.tree.attributes.mtime * 10 ^ 9
  ftype : m.ftype = v.tree.ftype
  linkName : m.linkName = v.tree.target
  uname : m.uname = v.tree.attributes.uname.1
  gname : m.gname = v.tree.attributes.gname.1
  size : m.size = v.tree.content.length
  content : field file m.blockOffset m.size = v.tree.content

end Visit

/-- The paths of a tree, in the order in which they are added. -/
def visits (sourcePath arcname : Bytes) : Tree → List Visit
  | .directory a files => ⟨sourcePath, arcname, .directory a files⟩ :: (sortFiles files).attach.flatMap fun next =>
      visits (Path.append sourcePath next.1.1.1) (nextArcPath arcname next.1.1) next.1.2
  | tree => [⟨sourcePath, arcname, tree⟩]
  termination_by tree => sizeOf tree
  decreasing_by exact sizeOf_lt_directory next.2

lemma visits_regular (sourcePath arcname : Bytes) (a : Attributes) (content : Bytes) :
    visits sourcePath arcname (.regular a content) = [⟨sourcePath, arcname, .regular a content⟩] := by
  rw [visits]
  exact nofun

lemma visits_symlink (sourcePath arcname : Bytes) (a : Attributes) (target : CText) :
    visits sourcePath arcname (.symlink a target) = [⟨sourcePath, arcname, .symlink a target⟩] := by
  rw [visits]
  exact nofun

def allVisits (adds : List Added) :
    List Visit := adds.flatMap fun call => visits call.sourcePath.1 call.arcname call.tree

variable {path pre name content file block : Bytes} {v : Visit} {n : Nat}

/-! ## Splitting -/

/-- A path that was split at the last slash where both parts fit. -/
structure Halved (path pre name : Bytes) : Prop where
  eq : path = pre ++ 47 :: name
  long : 100 < path.length
  nameLength : name.length ≤ 100
  preLength : pre.length ≤ 155
  last : ∀ j, pre.length < j → path[j]? = some 47 → path.length - j - 1 ≤ 100 → ¬ j ≤ 155

lemma splitFrom_halved (hlong : 100 < path.length) (h : splitFrom path n = some (pre, name))
    (hlast : ∀ j, n ≤ j → path[j]? = some 47 → path.length - j - 1 ≤ 100 → ¬ j ≤ 155) : Halved path pre name := by
  induction n with
  | zero => exact absurd h (by rw [splitFrom]; exact nofun)
  | succ i ih =>
    rw [splitFrom] at h
    by_cases hfits : path[i]? = some 47 ∧ path.length - i - 1 ≤ 100 ∧ i ≤ 155
    · rw [if_pos hfits] at h
      obtain ⟨rfl, rfl⟩ := Prod.mk.inj (Option.some.inj h)
      obtain ⟨hi, hget⟩ := List.getElem?_eq_some_iff.1 hfits.1
      have htake : (path.take i).length = i := List.length_take_of_le hi.le
      refine ⟨?_, hlong, ?_, by omega, fun j hj => hlast j (by omega)⟩
      · rw [← hget, List.getElem_cons_drop, List.take_append_drop]
      · rw [List.length_drop]
        omega
    · rw [if_neg hfits] at h
      refine ih h fun j hj hget hlength hle => ?_
      rcases Nat.eq_or_lt_of_le hj with rfl | hlt
      · exact hfits ⟨hget, hlength, hle⟩
      · exact hlast j hlt hget hlength hle

lemma splitPathUSTAR_eq_some (h : splitPathUSTAR path = some (pre, name)) :
    path.length ≤ 100 ∧ pre = [] ∧ name = path ∨ Halved path pre name := by
  rw [splitPathUSTAR] at h
  by_cases hexceeds : 255 < path.length
  · exact absurd h (by rw [if_pos hexceeds]; exact nofun)
  · rw [if_neg hexceeds] at h
    by_cases hshort : path.length ≤ 100
    · rw [if_pos hshort] at h
      obtain ⟨rfl, rfl⟩ := Prod.mk.inj (Option.some.inj h)
      exact Or.inl ⟨hshort, rfl, rfl⟩
    · rw [if_neg hshort] at h
      refine Or.inr (splitFrom_halved (Nat.not_le.1 hshort) h fun j hj hget => ?_)
      exact absurd (List.getElem?_eq_some_iff.1 hget).1 (Nat.not_lt.2 hj)

namespace Halved

/-- The slash at the front of a path with no other one is lost. -/
lemma pre_eq_nil_iff (h : Halved path pre name) :
    pre = [] ↔ path.length = 101 ∧ path.head? = some 47 ∧ 47 ∉ path.tail := by
  have hlong := h.long
  have hname := h.nameLength
  have heq := h.eq
  constructor
  · rintro rfl
    rw [List.nil_append] at heq
    have hlength := congrArg List.length heq
    rw [List.length_cons] at hlength
    refine ⟨by omega, by rw [heq]; rfl, fun hmem => ?_⟩
    rw [heq, List.tail_cons] at hmem
    obtain ⟨k, hk, hget⟩ := List.mem_iff_getElem.1 hmem
    refine h.last (k + 1) (Nat.succ_pos k) ?_ (by omega) (by omega)
    rw [heq, List.getElem?_cons_succ, List.getElem?_eq_getElem hk, hget]
  · rintro ⟨-, -, hnot⟩
    cases pre with
    | nil => rfl
    | cons b pre =>
      refine absurd ?_ hnot
      rw [heq, List.cons_append, List.tail_cons]
      exact List.mem_append_right _ List.mem_cons_self

lemma name_eq_nil_iff (h : Halved path pre name) : name = [] ↔ path.length ≤ 156 ∧ path.getLast? = some 47 := by
  have hlong := h.long
  have hpre := h.preLength
  have heq := h.eq
  have hlength := congrArg List.length heq
  rw [List.length_append, List.length_cons] at hlength
  constructor
  · rintro rfl
    rw [List.length_nil] at hlength
    exact ⟨by omega, by rw [heq, List.getLast?_concat]⟩
  · rintro ⟨hle, hlast⟩
    by_contra hne
    have hpos := List.length_pos_of_ne_nil hne
    rw [List.getLast?_eq_getElem?] at hlast
    exact h.last (path.length - 1) (by omega) hlast (by omega) (by omega)

end Halved

/-! ## Writing -/

lemma closed_eq_append (h : name ≠ []) (l : Bytes) : closed (l ++ name) = l ++ closed name := by
  rw [closed, closed, List.getLast?_append_of_ne_nil l h]
  by_cases hslash : name.getLast? = some 47
  · rw [if_pos hslash, if_pos hslash]
  · rw [if_neg hslash, if_neg hslash, List.append_assoc]

lemma closeName_eq (header : TarInfo) (h : header.ftype = .DIRECTORY → header.fname ≠ []) :
    closeName header =
      some { header with fname := if header.ftype = .DIRECTORY then closed header.fname else header.fname } := by
  rw [closeName]
  by_cases hdir : header.ftype = .DIRECTORY
  · rw [if_pos hdir, if_pos hdir, List.getLast?_eq_some_getLast (h hdir), closed,
      List.getLast?_eq_some_getLast (h hdir)]
    dsimp only
    by_cases hslash : header.fname.getLast (h hdir) = 47
    · rw [if_neg (not_not.2 hslash), hslash, if_pos rfl]
    · rw [if_pos hslash, if_neg (fun heq => hslash (Option.some.inj heq))]
  · rw [if_neg hdir, if_neg hdir]

lemma closeName_eq_none {header : TarInfo} (hdir : header.ftype = .DIRECTORY) (hname : header.fname = []) :
    closeName header = none := by
  rw [closeName, if_pos hdir, hname]
  rfl

lemma chunkCopy_eq {chunkSize : Nat} (hchunk : 0 < chunkSize) {source : Bytes} {size : Nat} (h : size ≤ source.length) :
    chunkCopy source size chunkSize = some (source.take size) := by
  induction size using Nat.strong_induction_on generalizing source with
  | _ size ih =>
    rw [chunkCopy]
    by_cases hsize : size = 0
    · rw [dif_pos hsize, hsize, List.take_zero]
    · rw [dif_neg hsize]
      dsimp only
      have hle : (if chunkSize < size then chunkSize else size) ≤ size ∧
        0 < if chunkSize < size then chunkSize else size := by
        split <;> omega
      generalize (if chunkSize < size then chunkSize else size) = toRead at hle
      have hlength : (source.take toRead).length = toRead := List.length_take_of_le (hle.1.trans h)
      have hne : source.take toRead ≠ [] := List.ne_nil_of_length_pos (by omega)
      rw [dif_neg hne, hlength, ih (size - toRead) (by omega) (by rw [List.length_drop]; omega), Option.map_some,
        ← List.take_add, Nat.add_sub_cancel' hle.1]

/-- The zeros behind a content. -/
def padding (size : Nat) : Nat := if size % 512 ≠ 0 then 512 - size % 512 else 0

/-- What is written in the header of a path that is split so. -/
def Visit.header (v : Visit) (pre name : Bytes) : TarInfo where
  fname := if v.tree.ftype = .DIRECTORY then closed name else name
  mode := v.tree.attributes.mode &&& 0o777
  uid := v.tree.attributes.uid
  gid := v.tree.attributes.gid
  blockOffset := 0
  size := v.tree.content.length
  mtime := v.tree.attributes.mtime * 10 ^ 9
  ftype := v.tree.ftype
  linkName := v.tree.target
  ustar := true
  uname := v.tree.attributes.uname.1
  gname := v.tree.attributes.gname.1
  fprefix := pre

lemma Visit.Fits.header (h : v.Fits) (htime : v.tree.attributes.mtime * 10 ^ 9 < 2 ^ 63) (pre name : Bytes) :
    (v.header pre name).Fits where
  mode := lt_of_le_of_lt Nat.and_le_right (by decide)
  uid := h.uid.trans (by decide)
  gid := h.gid.trans (by decide)
  size := h.size.trans (by decide)
  mtime := ⟨Int.mul_nonneg h.mtime (by decide), htime⟩

lemma readFile_eq (h : v.Fits) (htime : v.tree.attributes.mtime * 10 ^ 9 < 2 ^ 63) {fpath : Bytes}
    (hsplit : splitPathUSTAR fpath = some (pre, name)) :
    TarInfo.readFile fpath v.tree = some { v.header pre name with fname := name } := by
  have hstart : ¬ (v.tree.attributes.mtime * 10 ^ 9 < -2 ^ 63 ∨ 2 ^ 63 ≤ v.tree.attributes.mtime * 10 ^ 9) := by
    have hpos := h.mtime
    omega
  rw [TarInfo.readFile, hsplit, Option.bind_eq_bind, Option.bind_some, stat, if_neg hstart]
  rfl

/-- The header before its name is closed. -/
lemma addEntry_eq_bind (h : v.Fits) (hsplit : splitPathUSTAR v.path = some (pre, name))
    (htime : v.tree.attributes.mtime * 10 ^ 9 < 2 ^ 63) (file : Bytes) :
    addEntry file v.sourcePath v.arcname v.tree =
      (closeName { v.header pre name with fname := name, blockOffset := file.length + 512 }).bind fun header =>
        header.writeHeader.bind fun headerStr =>
          if header.ftype = .NORMAL then
            (chunkCopy v.tree.content header.size (1024 * 1024 * 5)).bind fun copied =>
              some (file ++ headerStr.take 512 ++ copied ++ List.replicate (padding header.size) 0)
          else some (file ++ headerStr.take 512) := by
  obtain ⟨⟨aleft, aright⟩, harchive⟩ := Option.isSome_iff_exists.1 h.archive
  obtain ⟨⟨left, right⟩, hsource⟩ := Option.isSome_iff_exists.1 h.source
  rw [addEntry, harchive, Option.bind_eq_bind, Option.bind_some, readFile_eq h htime hsource]
  dsimp only
  rw [Option.bind_eq_bind, Option.bind_some]
  rw [Visit.path] at hsplit
  by_cases hempty : v.arcname = []
  · rw [if_pos hempty, hsource] at hsplit
    obtain ⟨rfl, rfl⟩ := Prod.mk.inj (Option.some.inj hsplit)
    rw [if_neg (not_not.2 hempty)]
    rfl
  · rw [if_neg hempty, harchive] at hsplit
    obtain ⟨rfl, rfl⟩ := Prod.mk.inj (Option.some.inj hsplit)
    rw [if_pos hempty]
    rfl

/-- The header that is written for a path, with the content behind it. -/
lemma addEntry_eq (h : v.Fits) (hsplit : splitPathUSTAR v.path = some (pre, name))
    (htime : v.tree.attributes.mtime * 10 ^ 9 < 2 ^ 63) (hname : v.isDirectory = true → name ≠ []) {header : Bytes}
    (hheader : (v.header pre name).writeHeader = some header) (hlength : header.length = 512) (file : Bytes) :
    addEntry file v.sourcePath v.arcname v.tree =
      some (file ++ (header ++ (v.tree.content ++ List.replicate (padding v.tree.content.length) 0))) := by
  have hclose := closeName_eq { v.header pre name with fname := name, blockOffset := file.length + 512 } fun hdir =>
    hname (beq_iff_eq.2 hdir)
  have hwrite : TarInfo.writeHeader { v.header pre name with blockOffset := file.length + 512 } = some header := hheader
  rw [addEntry_eq_bind h hsplit htime, hclose, Option.bind_some]
  refine (congrArg (Option.bind · _) hwrite).trans ?_
  rw [Option.bind_some, List.take_of_length_le hlength.le]
  change (if v.tree.ftype = .NORMAL then (chunkCopy v.tree.content v.tree.content.length (1024 * 1024 * 5)).bind
    fun copied =>
      some (file ++ header ++ copied ++ List.replicate (padding v.tree.content.length)
        0) else some (file ++ header)) = _
  rw [chunkCopy_eq (by decide) le_rfl, Option.bind_some, List.take_length]
  by_cases hfile : v.tree.ftype = .NORMAL
  · rw [if_pos hfile, List.append_assoc, List.append_assoc]
  · have hempty : v.tree.content = [] := by
      cases htree : v.tree with
      | regular a content => exact absurd (congrArg Tree.ftype htree) hfile
      | symlink a target => rfl
      | directory a files => rfl
    rw [if_neg hfile, hempty]
    exact congrArg (fun l => some (file ++ l)) (List.append_nil header).symm

lemma addEntry_eq_none (h : v.Fits) (hsplit : splitPathUSTAR v.path = some (pre, name))
    (hbad : v.tree.attributes.mtime * 10 ^ 9 < 2 ^ 63 → v.isDirectory = true ∧ name = []) (file : Bytes) :
    addEntry file v.sourcePath v.arcname v.tree = none := by
  by_cases htime : v.tree.attributes.mtime * 10 ^ 9 < 2 ^ 63
  · obtain ⟨hdir, rfl⟩ := hbad htime
    have hftype : v.tree.ftype = .DIRECTORY := beq_iff_eq.1 hdir
    rw [addEntry_eq_bind h hsplit htime, closeName_eq_none hftype rfl, Option.bind_none]
  · obtain ⟨⟨aleft, aright⟩, harchive⟩ := Option.isSome_iff_exists.1 h.archive
    obtain ⟨⟨left, right⟩, hsource⟩ := Option.isSome_iff_exists.1 h.source
    have hread : TarInfo.readFile v.sourcePath v.tree = none := by
      rw [TarInfo.readFile, hsource, Option.bind_eq_bind, Option.bind_some, stat, if_pos (Or.inr (Int.not_lt.1 htime))]
      rfl
    rw [addEntry, harchive, Option.bind_eq_bind, Option.bind_some, hread]
    rfl

lemma foldlM_flatMap {α β γ : Type} (f : γ → β → Option γ) (g : α → List β) (l : List α) (c : γ) :
    (l.flatMap g).foldlM f c = l.foldlM (fun c a => (g a).foldlM f c) c := by
  induction l generalizing c with
  | nil => rfl
  | cons a l ih =>
    rw [List.flatMap_cons, List.foldlM_append, List.foldlM_cons]
    exact congrArg _ (funext ih)

/-- The entries of paths one after another. -/
def addVisits (vs : List Visit) (file : Bytes) : Option Bytes :=
  vs.foldlM (fun file v => addEntry file v.sourcePath v.arcname v.tree) file

lemma add_eq (sourcePath arcname : Bytes) : (tree : Tree) → (file : Bytes) →
    add file sourcePath arcname tree = addVisits (visits sourcePath arcname tree) file
  | .regular a content, file => by
    rw [add, visits_regular, addVisits, List.foldlM_cons]
    · exact (bind_pure _).symm
    · intro a files heq
      cases heq
  | .symlink a target, file => by
    rw [add, visits_symlink, addVisits, List.foldlM_cons]
    · exact (bind_pure _).symm
    · intro a files heq
      cases heq
  | .directory a files, file => by
    rw [add, visits, addVisits, List.foldlM_cons]
    refine congrArg _ (funext fun file => ?_)
    rw [foldlM_flatMap]
    exact congrArg (fun f => List.foldlM f file _) (funext fun file => funext fun next => add_eq _ _ next.1.2 file)
  termination_by tree => sizeOf tree
  decreasing_by exact sizeOf_lt_directory next.2

lemma finished_eq (adds : List Added) :
    finished adds = (addVisits (allVisits adds) []).bind fun file => some (file ++ List.replicate 1024 0) := by
  rw [finished, allVisits, addVisits, foldlM_flatMap]
  simp only [add_eq]
  rfl

end CppExperiments.Tar

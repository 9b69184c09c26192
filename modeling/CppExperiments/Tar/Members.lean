import CppExperiments.Tar.Entries

/-!
# The members of an archive

The members that are read of a finished archive are the paths that were added, each directory before its contents.
-/

namespace CppExperiments.Tar

variable {path pre name content file block : Bytes} {v : Visit} {n : Nat}

/-! ## Reading -/

lemma parseOInt_zeros {header : Bytes} (h : isZeroBlock header = true) (w offset n : Nat) :
    parseOInt w (field header offset n) = none := by
  have hdigits : (field header offset n).takeWhile isOctal = [] := by
    cases hfield : field header offset n with
    | nil => rfl
    | cons b bs =>
      have hmem : b ∈ field header offset n := hfield ▸ List.mem_cons_self
      have hzero : b = 0 := beq_iff_eq.1 (List.all_eq_true.1 h b (List.mem_of_mem_drop (List.mem_of_mem_take hmem)))
      rw [hzero, List.takeWhile_cons_of_neg (by decide)]
  rw [parseOInt, hdigits, if_pos (Or.inl rfl)]

lemma field_append_middle (front part rest : Bytes) {offset n : Nat} (hoffset : front.length = offset)
    (hn : part.length = n) :
    field (front ++ (part ++ rest)) offset n = part := by
  rw [field, List.drop_left' hoffset, List.take_left' hn]

/-- One member, where its header and its content stand. -/
lemma getMembersFrom_header (uninitialised : Nat → Bool) {front header : Bytes} (rest : Bytes) {member : TarInfo}
    (hlength : header.length = 512) (hcheck : (parseOInt 32 (field header 148 6)).isSome)
    (hread : TarInfo.readHeader (uninitialised (front.length + 512)) header (front.length + 512) = some member) :
    getMembersFrom uninitialised (front ++ (header ++ rest)) front.length =
      (getMembersFrom uninitialised (front ++ (header ++ rest))
        (front.length + 512 + (member.size + padding member.size))).map
        (member :: ·) := by
  have hzero : ¬ isZeroBlock header = true := fun h => by
    rw [parseOInt_zeros h] at hcheck
    exact Bool.noConfusion hcheck
  have hlt : ¬ (front ++ (header ++ rest)).length < front.length + 512 := by
    rw [List.length_append, List.length_append]
    omega
  have hsize : (if member.size % 512 ≠ 0 then member.size + (512 - member.size % 512) else member.size) =
      member.size + padding member.size := by
    rw [padding]
    split <;> rfl
  rw [getMembersFrom, if_neg hlt, field_append_middle front header rest rfl hlength, if_neg hzero, Option.bind_eq_bind]
  dsimp only
  rw [hread, Option.bind_some, hsize]
  cases getMembersFrom uninitialised (front ++ (header ++ rest))
    (front.length + 512 + (member.size + padding member.size)) <;> rfl

lemma getMembersFrom_zeros (uninitialised : Nat → Bool) (front : Bytes) :
    getMembersFrom uninitialised (front ++ List.replicate 1024 0) front.length = some [] := by
  have hlength : (front ++ List.replicate 1024 (0 : UInt8)).length = front.length + 1024 := by
    rw [List.length_append, List.length_replicate]
  have hblock : isZeroBlock (List.replicate 512 0) = true := List.all_eq_true.2 fun b hb => by
    rw [List.eq_of_mem_replicate hb]
    rfl
  have hfirst : field (front ++ List.replicate 1024 0) front.length 512 = List.replicate 512 0 := by
    rw [field, List.drop_left, List.take_replicate]
    rfl
  have hsecond : field (front ++ List.replicate 1024 0) (front.length + 512) 512 = List.replicate 512 0 := by
    rw [field, ← List.drop_drop, List.drop_left, List.drop_replicate, List.take_replicate]
    rfl
  rw [getMembersFrom, if_neg (by omega), hfirst, if_pos hblock, hsecond, hblock, if_neg (not_or.2 ⟨by omega, by decide⟩)]

namespace Visit

/-- The header can be written. -/
structure Written (v : Visit) (pre name : Bytes) : Prop where
  fits : v.Fits
  split : splitPathUSTAR v.path = some (pre, name)
  mtime : v.tree.attributes.mtime * 10 ^ 9 < 2 ^ 63
  named : v.isDirectory = true → name ≠ []

/-- The member is what is read of the header, and its bytes are the content. -/
structure Recovered (file : Bytes) (v : Visit) (m : TarInfo) : Prop where
  member : ∃ pre name uninitialised, v.Written pre name ∧ m = (v.header pre name).recovered uninitialised m.blockOffset
  content : field file m.blockOffset v.tree.content.length = v.tree.content

lemma Written.addEntry (h : v.Written pre name) :
    ∃ block, (∀ file, Tar.addEntry file v.sourcePath v.arcname v.tree = some (file ++ block)) ∧
    ∀ uninitialised front rest, ∃ m, Recovered (front ++ (block ++ rest)) v m ∧
      getMembersFrom uninitialised (front ++ (block ++ rest)) front.length =
        (getMembersFrom uninitialised (front ++ (block ++ rest)) (front ++ block).length).map (m :: ·) := by
  obtain ⟨header, hwrite, hlength, -⟩ := writeHeader_readHeader (h.fits.header h.mtime pre name) false 0
  refine ⟨_, addEntry_eq h.fits h.split h.mtime h.named hwrite hlength, fun uninitialised front rest => ?_⟩
  obtain ⟨header', hwrite', -, hcheck, hread⟩ := writeHeader_readHeader (h.fits.header h.mtime pre name)
    (uninitialised (front.length + 512)) (front.length + 512)
  obtain rfl := Option.some.inj (hwrite.symm.trans hwrite')
  refine ⟨(v.header pre name).recovered (uninitialised (front.length + 512)) (front.length + 512),
    ⟨⟨pre, name, _, h, rfl⟩, ?_⟩, ?_⟩
  · have hmiddle := field_append_middle (front ++ header) v.tree.content
      (List.replicate (padding v.tree.content.length) 0 ++ rest)
      (List.length_append.trans (congrArg (front.length + ·) hlength)) rfl
    rw [List.append_assoc] at hmiddle
    rwa [List.append_assoc, List.append_assoc]
  · have hmember := getMembersFrom_header uninitialised
      (v.tree.content ++ List.replicate (padding v.tree.content.length) 0 ++ rest)
      hlength (by rw [hcheck]; rfl) hread
    rw [List.append_assoc header, hmember, List.length_append, List.length_append, List.length_append,
      List.length_replicate, hlength,
      Nat.add_assoc front.length]
    rfl

/-- Everything but the path is what was added. -/
lemma Recovered.matches_iff {m : TarInfo} (h : Recovered file v m) : Matches file v m ↔ m.fullPath = v.fullPath := by
  refine ⟨Matches.fullPath, fun hpath => ?_⟩
  obtain ⟨pre, name, uninitialised, hwritten, heq⟩ := h.member
  have hfits := hwritten.fits
  have htext : ∀ {n} (s : CText), s.1.length ≤ n → rstrip (s.1.take n) = s.1 := fun s hs =>
    (congrArg rstrip (List.take_of_length_le hs)).trans (Path.cString_of_notMem s.2)
  have htarget : rstrip (v.tree.target.take 100) = v.tree.target := by
    have hlink := hfits.link
    cases htree : v.tree with
    | regular a content => rfl
    | directory a files => rfl
    | symlink a target =>
      rw [htree] at hlink
      exact htext target hlink
  have hsize : m.size = v.tree.content.length := by rw [heq]; rfl
  exact {
    fullPath := hpath
    mode := by rw [heq]; rfl
    uid := by rw [heq]; rfl
    gid := by rw [heq]; rfl
    mtime := by
      rw [heq]
      exact congrArg (· * 10 ^ 9) (Int.mul_ediv_cancel _ (by decide))
    ftype := by rw [heq]; rfl
    linkName := by rw [heq]; exact htarget
    uname := by rw [heq]; exact htext _ hfits.uname
    gname := by rw [heq]; exact htext _ hfits.gname
    size := hsize
    content := by rw [hsize]; exact h.content }

lemma zero_notMem_fullPath (t : TarInfo) : 0 ∉ t.fullPath := by
  have hrstrip : ∀ s, 0 ∉ rstrip s := Path.zero_notMem_cString
  rw [TarInfo.fullPath]
  intro hmem
  rcases List.mem_append.1 hmem with hmem | hmem
  · by_cases hpre : t.fprefix ≠ []
    · rw [if_pos hpre] at hmem
      rcases List.mem_append.1 hmem with hmem | hmem
      · exact hrstrip _ hmem
      · exact absurd hmem (by decide)
    · rw [if_neg hpre] at hmem
      exact List.not_mem_nil hmem
  · exact hrstrip _ hmem

lemma mem_fullPath {b : UInt8} (h : b ∈ v.path) : b ∈ v.fullPath := by
  rw [fullPath, closed]
  split
  · split
    · exact h
    · exact List.mem_append_left _ h
  · exact h

namespace Written

lemma halves (h : v.Written pre name) :
    v.path.length ≤ 100 ∧ pre = [] ∧ v.fullPath = (v.header pre name).fname ∨
      Halved v.path pre name ∧ v.fullPath = pre ++ 47 :: (v.header pre name).fname := by
  rcases splitPathUSTAR_eq_some h.split with ⟨hshort, hpre, hname⟩ | hhalved
  · refine Or.inl ⟨hshort, hpre, ?_⟩
    rw [fullPath, header, hname]
    exact if_congr beq_iff_eq rfl rfl
  · refine Or.inr ⟨hhalved, ?_⟩
    rw [fullPath, header]
    dsimp only
    by_cases hdir : v.isDirectory = true
    · have hftype : v.tree.ftype = .DIRECTORY := beq_iff_eq.1 hdir
      rw [if_pos hdir, if_pos hftype, hhalved.eq, List.append_cons, closed_eq_append (h.named hdir), ← List.append_cons]
    · have hftype : ¬ v.tree.ftype = .DIRECTORY := fun hftype => hdir (beq_iff_eq.2 hftype)
      rw [if_neg hdir, if_neg hftype, hhalved.eq]

lemma length_fname (h : v.Written pre name) : (v.header pre name).fname.length ≤ 100 := by
  rw [header]
  dsimp only
  by_cases hdir : v.tree.ftype = .DIRECTORY
  · rw [if_pos hdir]
    exact h.fits.slash (beq_iff_eq.2 hdir) pre name h.split
  · rw [if_neg hdir]
    rcases splitPathUSTAR_eq_some h.split with ⟨hshort, -, rfl⟩ | hhalved
    · exact hshort
    · exact hhalved.nameLength

/-- Both parts, where the prefix is not empty. -/
lemma recovered_fullPath (h : v.Written pre name) (htext : 0 ∉ v.fullPath) (uninitialised : Bool) (blockOffset : Nat) :
    ((v.header pre name).recovered uninitialised blockOffset).fullPath =
      (if pre ≠ [] then pre ++ [47] else []) ++ (v.header pre name).fname := by
  have hparts : 0 ∉ pre ∧ 0 ∉ (v.header pre name).fname ∧ pre.length ≤ 155 := by
    rcases h.halves with ⟨-, rfl, heq⟩ | ⟨hhalved, heq⟩
    · exact ⟨List.not_mem_nil, heq ▸ htext, Nat.zero_le 155⟩
    · rw [heq] at htext
      exact ⟨fun hmem => htext (List.mem_append_left _ hmem),
        fun hmem => htext (List.mem_append_right _ (List.mem_cons_of_mem 47 hmem)), hhalved.preLength⟩
  have hrstrip : ∀ {s : Bytes}, 0 ∉ s → rstrip s = s := Path.cString_of_notMem
  have hpre : TarInfo.fprefix ((v.header pre name).recovered uninitialised blockOffset) = pre :=
    (congrArg rstrip (List.take_of_length_le hparts.2.2)).trans (hrstrip hparts.1)
  have hname : ((v.header pre name).recovered uninitialised blockOffset).fname = (v.header pre name).fname :=
    (congrArg rstrip (List.take_of_length_le h.length_fname)).trans (hrstrip hparts.2.1)
  rw [TarInfo.fullPath, hpre, hname, hrstrip hparts.1, hrstrip hparts.2.1]

/-- The path that is read is the path that was added, unless a slash is lost. -/
lemma fullPath_iff (h : v.Written pre name) (uninitialised : Bool) (blockOffset : Nat) :
    ((v.header pre name).recovered uninitialised blockOffset).fullPath = v.fullPath ↔ v.Plain := by
  constructor
  · intro hpath
    have htext : 0 ∉ v.fullPath := hpath ▸ zero_notMem_fullPath _
    rw [h.recovered_fullPath htext] at hpath
    refine ⟨fun hroot => ?_, fun hdir hslash => ?_, fun hmem => htext (mem_fullPath hmem), h.mtime⟩
    · rcases h.halves with ⟨hshort, -, -⟩ | ⟨hhalved, heq⟩
      · omega
      · obtain rfl := hhalved.pre_eq_nil_iff.2 hroot
        rw [heq, if_neg (not_not.2 rfl)] at hpath
        exact absurd (congrArg List.length hpath) (by simp)
    · rcases h.halves with ⟨hshort, -, -⟩ | ⟨hhalved, -⟩
      · omega
      · exact h.named hdir (hhalved.name_eq_nil_iff.2 hslash.2)
  · intro hplain
    have htext : 0 ∉ v.fullPath := by
      rw [fullPath, closed]
      split
      · split
        · exact hplain.text
        · exact fun hmem => (List.mem_append.1 hmem).elim hplain.text (by decide)
      · exact hplain.text
    rw [h.recovered_fullPath htext]
    rcases h.halves with ⟨-, rfl, heq⟩ | ⟨hhalved, heq⟩
    · rw [heq]
      rfl
    · rw [heq, if_pos fun hnil => hplain.rootless (hhalved.pre_eq_nil_iff.1 hnil), List.append_assoc,
        List.singleton_append]

end Written

lemma Recovered.matches_iff_plain {m : TarInfo} (h : Recovered file v m) : Matches file v m ↔ v.Plain := by
  obtain ⟨pre, name, uninitialised, hwritten, heq⟩ := h.member
  rw [h.matches_iff, heq]
  exact hwritten.fullPath_iff uninitialised m.blockOffset

lemma Fits.split (h : v.Fits) : ∃ pre name, splitPathUSTAR v.path = some (pre, name) := by
  have hsome : (splitPathUSTAR v.path).isSome := by
    rw [path]
    split
    · exact h.source
    · exact h.archive
  obtain ⟨⟨pre, name⟩, hsplit⟩ := Option.isSome_iff_exists.1 hsome
  exact ⟨pre, name, hsplit⟩

lemma Fits.written (h : v.Fits) (hne : v.sourcePath ≠ []) (hplain : v.Plain) : ∃ pre name, v.Written pre name := by
  have hpath : v.path ≠ [] := by
    rw [path]
    split
    · exact hne
    · exact ‹_›
  obtain ⟨pre, name, hsplit⟩ := h.split
  refine ⟨pre, name, h, hsplit, hplain.mtime, fun hdir hname => ?_⟩
  rcases splitPathUSTAR_eq_some hsplit with ⟨-, -, heq⟩ | hhalved
  · exact hpath (heq.symm.trans hname)
  · exact hplain.named hdir ⟨hhalved.long, hhalved.name_eq_nil_iff.1 hname⟩

lemma Fits.addEntry_eq_none (h : v.Fits) (hnot : ¬ ∃ pre name, v.Written pre name) (file : Bytes) :
    addEntry file v.sourcePath v.arcname v.tree = none := by
  obtain ⟨pre, name, hsplit⟩ := h.split
  refine Tar.addEntry_eq_none h hsplit (fun htime => ?_) file
  by_contra hbad
  exact hnot ⟨pre, name, h, hsplit, htime, fun hdir hname => hbad ⟨hdir, hname⟩⟩

end Visit

/-! ## Archives -/

lemma addVisits_eq_none {vs : List Visit} (hv : v ∈ vs) (hnone : ∀ file, addEntry file v.sourcePath v.arcname v.tree =
    none)
    (file : Bytes) : addVisits vs file = none := by
  induction vs generalizing file with
  | nil => exact absurd hv List.not_mem_nil
  | cons w vs ih =>
    rw [addVisits, List.foldlM_cons]
    rcases List.mem_cons.1 hv with rfl | hv
    · rw [hnone]
      rfl
    · cases addEntry file w.sourcePath w.arcname w.tree with
      | none => rfl
      | some file => exact ih hv file

/-- The members are read one after another, in front of the zeros. -/
lemma addVisits_members {vs : List Visit} (h : ∀ v ∈ vs, ∃ pre name, v.Written pre name) :
    ∃ blocks, (∀ file, addVisits vs file = some (file ++ blocks)) ∧ ∀ uninitialised front, ∃ members,
      getMembersFrom uninitialised (front ++ (blocks ++ List.replicate 1024 0)) front.length = some members ∧
        List.Forall₂ (Visit.Recovered (front ++ (blocks ++ List.replicate 1024 0))) vs members := by
  induction vs with
  | nil =>
    refine ⟨[], fun file => by rw [List.append_nil]; rfl, fun uninitialised front => ⟨[], ?_, .nil⟩⟩
    rw [List.nil_append, getMembersFrom_zeros]
  | cons v vs ih =>
    obtain ⟨pre, name, hwritten⟩ := h v List.mem_cons_self
    obtain ⟨block, hadd, hread⟩ := hwritten.addEntry
    obtain ⟨blocks, hadds, hreads⟩ := ih fun w hw => h w (List.mem_cons_of_mem v hw)
    refine ⟨block ++ blocks, fun file => ?_, fun uninitialised front => ?_⟩
    · rw [addVisits, List.foldlM_cons, hadd, ← List.append_assoc]
      exact hadds (file ++ block)
    · obtain ⟨m, hrecovered, hmember⟩ := hread uninitialised front (blocks ++ List.replicate 1024 0)
      obtain ⟨members, hmembers, hall⟩ := hreads uninitialised (front ++ block)
      rw [List.append_assoc] at hmembers hall
      rw [List.append_assoc block]
      exact ⟨m :: members, by rw [hmember, hmembers, Option.map_some], .cons hrecovered hall⟩

lemma visits_sourcePath_ne_nil (sourcePath arcname : Bytes) (hne : sourcePath ≠ []) :
    (tree : Tree) → ∀ v ∈ visits sourcePath arcname tree, v.sourcePath ≠ []
  | .regular a content, v, hv => by
    rw [visits_regular, List.mem_singleton] at hv
    exact hv ▸ hne
  | .symlink a target, v, hv => by
    rw [visits_symlink, List.mem_singleton] at hv
    exact hv ▸ hne
  | .directory a files, v, hv => by
    rw [visits, List.mem_cons] at hv
    rcases hv with rfl | hv
    · exact hne
    · obtain ⟨next, -, hv⟩ := List.mem_flatMap.1 hv
      have hname : next.1.1.1 ≠ [] := next.1.1.2.1.1
      refine visits_sourcePath_ne_nil _ _ ?_ next.1.2 v hv
      rw [Path.append]
      split
      · exact hname
      · split <;> simp [hname]
  termination_by tree => sizeOf tree
  decreasing_by exact sizeOf_lt_directory next.2

lemma allVisits_sourcePath_ne_nil {adds : List Added} (hv : v ∈ allVisits adds) : v.sourcePath ≠ [] := by
  obtain ⟨call, -, hv⟩ := List.mem_flatMap.1 hv
  exact visits_sourcePath_ne_nil _ _ call.nonempty call.tree v hv

lemma forall₂_iff_forall {α β : Type} {R S : α → β → Prop} {P : α → Prop} {l : List α} {l' : List β}
    (h : List.Forall₂ R l l')
    (hiff : ∀ a b, R a b → (S a b ↔ P a)) : List.Forall₂ S l l' ↔ ∀ a ∈ l, P a := by
  induction h with
  | nil => exact iff_of_true .nil (List.forall_mem_nil P)
  | cons hab _ ih => rw [List.forall₂_cons, hiff _ _ hab, ih, List.forall_mem_cons]

/-- Whatever is added, with names and numbers that fit: the members that are read of the finished archive are the
paths, in the order in which they were added, just if all of them are plain. -/
theorem members_of_finished_iff (adds : List Added) (h : ∀ v ∈ allVisits adds, v.Fits) (uninitialised : Nat → Bool) :
    (∃ file, finished adds = some file ∧ ∃ members, getMembers uninitialised file = some members ∧
      List.Forall₂ (Visit.Matches file) (allVisits adds) members) ↔ ∀ v ∈ allVisits adds, v.Plain := by
  by_cases hall : ∀ v ∈ allVisits adds, ∃ pre name, v.Written pre name
  · obtain ⟨blocks, hadd, hread⟩ := addVisits_members hall
    obtain ⟨members, hmembers, hrecovered⟩ := hread uninitialised []
    have hfile : finished adds = some (blocks ++ List.replicate 1024 0) := by
      rw [finished_eq, hadd, Option.bind_some, List.nil_append]
    have hiff := forall₂_iff_forall hrecovered fun v m hm => hm.matches_iff_plain
    rw [← hiff]
    constructor
    · rintro ⟨file, heq, members', hmembers', hmatches⟩
      obtain rfl := Option.some.inj (hfile.symm.trans heq)
      obtain rfl := Option.some.inj (hmembers.symm.trans hmembers')
      exact hmatches
    · exact fun hmatches => ⟨_, hfile, members, hmembers, hmatches⟩
  · have hnot : ¬ ∀ v ∈ allVisits adds, v.Plain := fun hplain =>
      hall fun v hv => (h v hv).written (allVisits_sourcePath_ne_nil hv) (hplain v hv)
    obtain ⟨v, hv, hwritten⟩ := not_forall₂.1 hall
    have hnone : finished adds = none := by
      rw [finished_eq, addVisits_eq_none hv ((h v hv).addEntry_eq_none hwritten), Option.bind_none]
    refine iff_of_false ?_ hnot
    rintro ⟨file, heq, -⟩
    exact absurd (hnone.symm.trans heq) nofun

def rootUser : Attributes where
  mode := 0o100644
  uid := 0
  gid := 0
  mtime := 1700000000
  uname := ⟨ascii "root", by decide⟩
  gname := ⟨ascii "root", by decide⟩

/-- A directory with a file of three bytes. -/
def notes : Added where
  sourcePath := ⟨ascii "notes", by decide⟩
  nonempty := by decide
  arcname := []
  tree := .directory rootUser [(⟨ascii "a.txt", ⟨by decide, by decide, by decide, by decide⟩, by decide⟩, .regular rootUser [97, 98, 99])]

/-- A file at a slash with a hundred characters behind it. -/
def rooted : Added where
  sourcePath := ⟨ascii "a.txt", by decide⟩
  nonempty := by decide
  arcname := 47 :: List.replicate 100 97
  tree := .regular rootUser []

lemma notes_visits : allVisits [notes] =
    [⟨ascii "notes", [], notes.tree⟩, ⟨ascii "notes/a.txt", [], .regular rootUser [97, 98, 99]⟩] := by
  rw [allVisits, List.flatMap_singleton]
  change visits _ _ (.directory _ _) = _
  rw [visits]
  change _ :: (visits _ _ (.regular _ _) ++ []) = _
  rw [visits_regular]
  rfl

lemma rooted_visits : allVisits [rooted] = [⟨ascii "a.txt", rooted.arcname, .regular rootUser []⟩] := by
  rw [allVisits, List.flatMap_singleton]
  exact visits_regular _ _ _ _

lemma notes_fits : ∀ v ∈ allVisits [notes], v.Fits := by
  rw [notes_visits, List.forall_mem_cons, List.forall_mem_singleton]
  constructor
  · refine ⟨by decide, by decide, fun _ pre name hsplit => ?_, by decide, by decide, by decide, by decide, by decide, by decide, by decide⟩
    obtain ⟨rfl, rfl⟩ := Prod.mk.inj (Option.some.inj ((rfl : some ([], ascii "notes") = _).trans hsplit))
    decide
  · exact ⟨by decide, by decide, fun hdir => absurd hdir (by
      decide), by decide, by decide, by decide, by decide, by decide, by decide,
      by decide⟩

lemma rooted_fits : ∀ v ∈ allVisits [rooted], v.Fits := by
  rw [rooted_visits, List.forall_mem_singleton]
  exact ⟨by decide, by decide, fun hdir => absurd hdir (by
    decide), by decide, by decide, by decide, by decide, by decide, by decide,
    by decide⟩

theorem members_of_finished_iff_notes : (∃ file, finished [notes] = some file ∧ ∃ members,
    getMembers (fun _ => false) file = some members ∧ List.Forall₂ (Visit.Matches file) (allVisits [notes]) members) ↔
      ∀ v ∈ allVisits [notes], v.Plain :=
  members_of_finished_iff [notes] notes_fits fun _ => false

/-- The member's path has no slash. -/
theorem not_members_rooted : (∀ v ∈ allVisits [rooted], v.Fits) ∧ ¬ ∃ file, finished [rooted] = some file ∧ ∃ members,
    getMembers (fun _ => false) file = some members ∧
      List.Forall₂ (Visit.Matches file) (allVisits [rooted]) members := by
  refine ⟨rooted_fits, ?_⟩
  rintro ⟨file, heq, members, hmembers, hmatches⟩
  have hfits := rooted_fits
  rw [rooted_visits] at hmatches hfits
  have hwritten : ∀ v ∈ [(⟨ascii "a.txt", rooted.arcname, .regular rootUser []⟩ : Visit)], ∃ pre name, v.Written pre name := by
    rw [List.forall_mem_singleton]
    exact ⟨[], List.replicate 100 97, hfits _ List.mem_cons_self, by
      decide, by decide, fun hdir => absurd hdir (by decide)⟩
  obtain ⟨blocks, hadd, hread⟩ := addVisits_members hwritten
  obtain ⟨members', hmembers', hrecovered⟩ := hread (fun _ => false) []
  rw [finished_eq, rooted_visits, hadd, Option.bind_some, List.nil_append] at heq
  obtain rfl := Option.some.inj heq
  obtain rfl := Option.some.inj (hmembers'.symm.trans hmembers)
  have hplain := (forall₂_iff_forall hrecovered fun v m hm => hm.matches_iff_plain).1 hmatches _ List.mem_cons_self
  exact hplain.rootless (by decide)

end CppExperiments.Tar

/-!
## Names that are split and joined

A name is split just if there is a slash where both parts fit, and the parts make the same name unless the name is a
slash with a hundred characters behind it.
-/

namespace CppExperiments.Tar

/-- The name is too long, or there is no slash with few enough characters on both sides. -/
def Unsplittable (path : Bytes) : Prop :=
  255 < path.length ∨
    100 < path.length ∧ ¬ ∃ pre name, path = pre ++ 47 :: name ∧ pre.length ≤ 155 ∧ name.length ≤ 100

/-- It throws on exactly the names that cannot be split, and what it returns fits and makes the name again. -/
structure SplitsPath (path : Bytes) : Prop where
  throws : splitPathUSTAR path = none ↔ Unsplittable path
  preLength : ∀ pre name, splitPathUSTAR path = some (pre, name) → pre.length ≤ 155
  nameLength : ∀ pre name, splitPathUSTAR path = some (pre, name) → name.length ≤ 100
  joins : ∀ t : TarInfo, splitPathUSTAR path = some (t.fprefix, t.fname) → t.fullPath = path

/-- A slash at the front, a hundred characters behind it, and no other slash. -/
def Rootlike (path : Bytes) : Prop := path.length = 101 ∧ path.head? = some 47 ∧ 47 ∉ path.tail

variable {path pre name : Bytes} {n : Nat} {t : TarInfo}

lemma splitFrom_eq_none_iff : splitFrom path n = none ↔
    ∀ i < n, ¬ (path[i]? = some 47 ∧ path.length - i - 1 ≤ 100 ∧ i ≤ 155) := by
  induction n with
  | zero => exact ⟨fun _ i hi => absurd hi (Nat.not_lt_zero i), fun _ => rfl⟩
  | succ n ih =>
    rw [splitFrom]
    by_cases hfits : path[n]? = some 47 ∧ path.length - n - 1 ≤ 100 ∧ n ≤ 155
    · rw [if_pos hfits]
      exact ⟨fun h => (by cases h), fun h => absurd hfits (h n (Nat.lt_succ_self n))⟩
    · rw [if_neg hfits, ih]
      refine ⟨fun h i hi => ?_, fun h i hi => h i (Nat.lt_succ_of_lt hi)⟩
      rcases Nat.lt_succ_iff_lt_or_eq.1 hi with hlt | rfl
      · exact h i hlt
      · exact hfits

/-- The scan from the right finds a split whenever there is one. -/
lemma splitFrom_length_eq_none_iff : splitFrom path path.length = none ↔
    ¬ ∃ pre name, path = pre ++ 47 :: name ∧ pre.length ≤ 155 ∧ name.length ≤ 100 := by
  rw [splitFrom_eq_none_iff]
  constructor
  · rintro h ⟨pre, name, rfl, hpre, hname⟩
    have hlength : (pre ++ 47 :: name).length = pre.length + (name.length + 1) := by
      rw [List.length_append, List.length_cons]
    refine h pre.length (by omega) ⟨?_, by omega, hpre⟩
    rw [List.getElem?_append_right le_rfl, Nat.sub_self, List.getElem?_cons_zero]
  · rintro h i hi ⟨hget, hname, hpre⟩
    obtain ⟨hi, hget⟩ := List.getElem?_eq_some_iff.1 hget
    refine h ⟨path.take i, path.drop (i + 1), ?_, ?_, ?_⟩
    · rw [← hget, List.getElem_cons_drop, List.take_append_drop]
    · rw [List.length_take]
      omega
    · rw [List.length_drop]
      omega

lemma splitPathUSTAR_eq_none_iff (path : Bytes) : splitPathUSTAR path = none ↔ Unsplittable path := by
  rw [splitPathUSTAR, Unsplittable]
  by_cases hexceeds : 255 < path.length
  · rw [if_pos hexceeds]
    exact iff_of_true rfl (.inl hexceeds)
  · rw [if_neg hexceeds, or_iff_right hexceeds]
    by_cases hshort : path.length ≤ 100
    · rw [if_pos hshort]
      exact iff_of_false (Option.some_ne_none _) fun h => absurd h.1 (Nat.not_lt.2 hshort)
    · rw [if_neg hshort, splitFrom_length_eq_none_iff, and_iff_right (Nat.not_le.1 hshort)]

lemma splitPathUSTAR_lengths (h : splitPathUSTAR path = some (pre, name)) : pre.length ≤ 155 ∧ name.length ≤ 100 := by
  rcases splitPathUSTAR_eq_some h with ⟨hshort, rfl, rfl⟩ | hhalved
  · exact ⟨Nat.zero_le _, hshort⟩
  · exact ⟨hhalved.preLength, hhalved.nameLength⟩

/-- The parts make the name again just if nothing is cut at a zero byte and no slash at the front is lost. -/
lemma fullPath_eq_iff (h : splitPathUSTAR path = some (t.fprefix, t.fname)) :
    t.fullPath = path ↔ 0 ∉ path ∧ ¬ Rootlike path := by
  have hrstrip : ∀ {s : Bytes}, 0 ∉ s → rstrip s = s := Path.cString_of_notMem
  constructor
  · intro hpath
    have htext : 0 ∉ path := hpath ▸ Visit.zero_notMem_fullPath t
    refine ⟨htext, fun hroot => ?_⟩
    rcases splitPathUSTAR_eq_some h with ⟨hshort, -, -⟩ | hhalved
    · exact absurd hroot.1 (by omega)
    · have hpre : t.fprefix = [] := hhalved.pre_eq_nil_iff.2 hroot
      have heq := hhalved.eq
      rw [hpre, List.nil_append] at heq
      rw [heq, List.mem_cons, not_or] at htext
      rw [TarInfo.fullPath, if_neg (not_not.2 hpre), List.nil_append, hrstrip htext.2, heq] at hpath
      exact absurd (congrArg List.length hpath) (Nat.ne_of_lt (Nat.lt_succ_self _))
  · rintro ⟨htext, hroot⟩
    rcases splitPathUSTAR_eq_some h with ⟨-, hpre, hname⟩ | hhalved
    · rw [TarInfo.fullPath, if_neg (not_not.2 hpre), List.nil_append, hname, hrstrip htext]
    · have hpre : t.fprefix ≠ [] := fun hnil => hroot (hhalved.pre_eq_nil_iff.1 hnil)
      have heq := hhalved.eq
      rw [heq, List.mem_append, List.mem_cons, not_or, not_or] at htext
      rw [TarInfo.fullPath, if_pos hpre, hrstrip htext.1, hrstrip htext.2.2, List.append_assoc, List.singleton_append,
        ← heq]

/-- A name that can be split is joined to the same one exactly when it has no zero byte in it and is not a slash with a
hundred characters behind it. -/
theorem splitsPath_iff (path : Bytes) : SplitsPath path ↔ Unsplittable path ∨ 0 ∉ path ∧ ¬ Rootlike path := by
  constructor
  · intro h
    cases hsplit : splitPathUSTAR path with
    | none => exact .inl (h.throws.1 hsplit)
    | some parts =>
      obtain ⟨pre, name⟩ := parts
      have hjoin := h.joins { textFile with fname := name, fprefix := pre } hsplit
      exact .inr ((fullPath_eq_iff (t := { textFile with fname := name, fprefix := pre }) hsplit).1 hjoin)
  · intro h
    refine ⟨splitPathUSTAR_eq_none_iff path, fun pre name hsplit => (splitPathUSTAR_lengths hsplit).1,
      fun pre name hsplit => (splitPathUSTAR_lengths hsplit).2, fun t hsplit => (fullPath_eq_iff hsplit).2 ?_⟩
    refine h.resolve_left fun hnot => ?_
    rw [(splitPathUSTAR_eq_none_iff path).2 hnot] at hsplit
    cases hsplit

/-- The slash at the front of such a name is lost. -/
theorem not_splitsPath_rootlike : ¬ SplitsPath (47 :: List.replicate 100 97) := by
  intro h
  have hjoin := h.joins { textFile with fname := List.replicate 100 97, fprefix := [] } (by decide)
  exact absurd hjoin (by decide)

end CppExperiments.Tar

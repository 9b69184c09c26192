import CppExperiments.Bencode.Reading
import CppExperiments.Hash.Sha1
import CppExperiments.Lib.RelativePath
import CppExperiments.Torrent.Blocks
import CppExperiments.Torrent.DiskWriter

/-!
# The torrent file

The metainfo as it is read from the decoded tree, and the files that the disk writer makes of it.
-/

namespace CppExperiments.Torrent

open Json

structure TorrentFile where
  announceURL : Bytes
  pieceSize : Nat
  length : Nat
  name : Bytes
  pieceBlob : Bytes
  infoHash : Bytes
  numPieces : Nat
  files : List FileStruct

namespace TorrentFile

/-- An `int64_t` as a `uint64_t`. -/
def unsigned (v : Int64) : Nat := (v.toInt % 2 ^ 64).toNat

def fileLength (file : Node) : Option Nat := do
  let node ← file.get (ascii "length")
  let v ← node.toInt
  return unsigned v

def calculateTotalLength (info : Node) : Option Nat :=
  match info.get (ascii "files") with
  | none => fileLength info
  | some files => do
    let filesObj ← files.elements
    filesObj.foldlM (fun acc file => do return (acc + (← fileLength file)) % 2 ^ 64) 0

def getStr (k : Bytes) (node : Node) : Option Bytes := (node.get k).bind Node.toStr

/-- The names that the path of a file is folded from. -/
def pathNames (file : Node) : Option (List Bytes) := do
  let path ← file.get (ascii "path")
  path.children.mapM Node.toStr

def parseFile (file : Node) : Option FileStruct := do
  let names ← pathNames file
  let fileSize ← fileLength file
  return ⟨names.foldl Path.append [], fileSize⟩

def parseFileStructure (info : Node) : Option (List FileStruct) :=
  match info.get (ascii "files") with
  | none => do
    let name ← getStr (ascii "name") info
    let length ← fileLength info
    return [⟨name, length⟩]
  | some files => files.children.mapM parseFile

/-- The constructor; `none` where it throws, or divides by zero. -/
def ofRoot (root : Node) : Option TorrentFile := do
  let announceURL ← getStr (ascii "announce") root
  let info ← root.get (ascii "info")
  let name ← getStr (ascii "name") info
  let length ← calculateTotalLength info
  let pieceLength ← Node.readOr 0 Node.toInt (info.get (ascii "piece length"))
  let pieceSize := unsigned pieceLength % 2 ^ 32
  let pieceBlob ← Node.readOr [] Node.toStr (info.get (ascii "pieces"))
  guard (pieceSize ≠ 0)
  let files ← parseFileStructure info
  guard (pieceBlob.length % 20 = 0)
  let text ← Bencode.encode true true info
  return { announceURL, pieceSize, length, name, pieceBlob, files
           infoHash := Hash.sha1 text true
           numPieces := pieceCount length pieceSize }

/-- The file is read as the torrent file. -/
def Reads (buffer : Bytes) (t : TorrentFile) : Prop :=
  ∃ root, Bencode.Returns buffer true root ∧ ofRoot root = some t

end TorrentFile

end CppExperiments.Torrent

/-!
## Where the files of a torrent are made

The paths that the disk writer opens, from the name and the path lists of the metainfo, and when they lie in the
directory of the torrent.
-/

namespace CppExperiments.Torrent

open Json

/-- What the disk writer meets: the paths at which there is something before it starts, and where a file can be opened
for writing when files have been opened at these paths, the first ones first. -/
structure Disk where
  present : Bytes → Bool
  opens : List Bytes → Bytes → Bool

/-- A disk with the download directory: it exists, and so do the paths that end in an empty component, `.` or `..` there.
What is opened has a name, and no path needs a directory where another one has its file. -/
structure Disk.Possible (disk : Disk) (DownloadDir : Bytes) : Prop where
  directory : ∀ name ∈ [[], Path.dot, Path.dotDot], disk.present (Path.append DownloadDir name) = true
  named : ∀ before p, disk.opens before p = true → Path.Name (Path.filename p)
  apart : ∀ before p, disk.opens before p = true → ∀ q ∈ before, ¬ Path.Clash q p

/-- The temporary file. -/
def tempPath (DownloadDir name : Bytes) : Bytes := Path.cString (Path.append DownloadDir (46 :: name))

/-- The constructor of the disk writer throws where there is something of the name already, or where the temporary file
cannot be opened. -/
def admits (disk : Disk) (DownloadDir name : Bytes) : Bool :=
  !disk.present (Path.cString (Path.append DownloadDir name)) && disk.opens [] (tempPath DownloadDir name)

/-- The path of a file. -/
def filePath (DownloadDir name path : Bytes) : Bytes :=
  Path.cString (Path.append (Path.append DownloadDir name) path)

/-- The paths that are opened, up to the first that cannot be. -/
def openedFrom (disk : Disk) : List Bytes → List Bytes → List Bytes
  | _, [] => []
  | before, p :: paths => if disk.opens before p then p :: openedFrom disk (before ++ [p]) paths else []

/-- The files that `finish` opens, from those it makes if all can be opened. -/
def opened (disk : Disk) (DownloadDir name : Bytes) (made : List (Bytes × Bytes)) : List Bytes :=
  openedFrom disk [tempPath DownloadDir name] (made.map fun file => filePath DownloadDir name file.1)

/-- Every file that is opened lies in the directory of the torrent, which has a name that is one component. -/
def TorrentFile.Confined (t : TorrentFile) : Prop :=
  ∀ (disk : Disk) (DownloadDir : Bytes) (w : DiskWriter) (status : Bool), (0 : UInt8) ∉ DownloadDir →
    disk.Possible DownloadDir → admits disk DownloadDir t.name = true →
    ∀ p ∈ opened disk DownloadDir t.name (w.finish t.files status).2,
      Path.Name t.name ∧ Path.Within (Path.append DownloadDir t.name) p

/-- The names of the files of a metainfo. -/
def nameLists (info : Node) : Option (List (List Bytes)) :=
  match info.get (ascii "files") with
  | none => (TorrentFile.getStr (ascii "name") info).map fun name => [[name]]
  | some files => files.children.mapM TorrentFile.pathNames

/-- The names are relative, and lead from the directory of the torrent into it. -/
def Keeps (name : Bytes) (names : List Bytes) : Prop :=
  (∀ n ∈ names, Path.isAbsolute n = false) ∧
    ∃ below, Path.follow [name] (Path.steps names) = some (below ++ [name])

/-- The disk writer takes no torrent of this name. -/
def Rejected (name : Bytes) : Prop := ¬ Path.Name (Path.filename (Path.cString name))

/-- The path of a file from the download directory on. -/
def target (name : Bytes) (names : List Bytes) : Bytes :=
  Path.cString (Path.append name (names.foldl Path.append []))

/-- The files can be opened one after another: each has a name, and none is where another one or the temporary file
needs a directory. -/
def Openable (name : Bytes) (lists : List (List Bytes)) : Prop :=
  (∀ names ∈ lists, Path.Name (Path.filename (target name names))) ∧
    (Path.cString (46 :: name) :: lists.map (target name)).Pairwise fun p q => ¬ Path.Clash p q

/-- The name of the torrent is rejected; or it is one component and every file keeps within it, as far as the files can
be opened. -/
def Harmless (root : Node) : Prop :=
  ∃ info name lists, root.get (ascii "info") = some info ∧ TorrentFile.getStr (ascii "name") info = some name ∧
    nameLists info = some lists ∧
    (Rejected name ∨ ∀ before names after, lists = before ++ names :: after → Openable name (before ++ [names]) →
      Path.Name name ∧ (0 : UInt8) ∉ name ∧ Keeps name names)

variable {root info : Node} {t : TorrentFile} {files : List FileStruct} {lists : List (List Bytes)}
  {names : List Bytes} {DownloadDir name p : Bytes} {disk : Disk} {before paths : List Bytes}

namespace TorrentFile

lemma mapM_parseFile {nodes : List Node} (h : nodes.mapM parseFile = some files) :
    ∃ lists, nodes.mapM pathNames = some lists ∧
      files.map FileStruct.path = lists.map fun names => names.foldl Path.append [] := by
  induction nodes generalizing files with
  | nil =>
    obtain rfl := Option.some.inj h
    exact ⟨[], rfl, rfl⟩
  | cons node nodes ih =>
    rw [List.mapM_cons] at h
    obtain ⟨file, hfile, h⟩ := Option.bind_eq_some_iff.1 h
    obtain ⟨rest, hrest, h⟩ := Option.bind_eq_some_iff.1 h
    obtain rfl := Option.some.inj h
    obtain ⟨names, hnames, hfile⟩ := Option.bind_eq_some_iff.1 hfile
    obtain ⟨fileSize, -, hfile⟩ := Option.bind_eq_some_iff.1 hfile
    obtain rfl := Option.some.inj hfile
    obtain ⟨lists, hlists, hpaths⟩ := ih hrest
    refine ⟨names :: lists, by rw [List.mapM_cons, hnames, hlists]; rfl, ?_⟩
    rw [List.map_cons, List.map_cons, hpaths]

/-- The paths of the files are the joined names. -/
lemma parseFileStructure_path (h : parseFileStructure info = some files) :
    ∃ lists, nameLists info = some lists ∧
      files.map FileStruct.path = lists.map fun names => names.foldl Path.append [] := by
  rw [parseFileStructure] at h
  rw [nameLists]
  cases hfiles : info.get (ascii "files") with
  | none =>
    simp only [hfiles] at h ⊢
    obtain ⟨name, hname, h⟩ := Option.bind_eq_some_iff.1 h
    obtain ⟨length, -, h⟩ := Option.bind_eq_some_iff.1 h
    obtain rfl := Option.some.inj h
    refine ⟨[[name]], by rw [hname]; rfl, ?_⟩
    have happend : Path.append [] name = name := by
      rw [Path.append]
      split
      · rfl
      · rfl
    rw [List.map_singleton, List.map_singleton, List.foldl_cons, List.foldl_nil, happend]
  | some node =>
    simp only [hfiles] at h ⊢
    exact mapM_parseFile h

/-- Where the name and the files of a torrent come from. -/
lemma ofRoot_eq_some (h : ofRoot root = some t) : ∃ info, root.get (ascii "info") = some info ∧
    getStr (ascii "name") info = some t.name ∧ parseFileStructure info = some t.files := by
  obtain ⟨announceURL, -, h⟩ := Option.bind_eq_some_iff.1 h
  obtain ⟨info, hinfo, h⟩ := Option.bind_eq_some_iff.1 h
  obtain ⟨name, hname, h⟩ := Option.bind_eq_some_iff.1 h
  obtain ⟨length, -, h⟩ := Option.bind_eq_some_iff.1 h
  obtain ⟨pieceLength, -, h⟩ := Option.bind_eq_some_iff.1 h
  obtain ⟨pieceBlob, -, h⟩ := Option.bind_eq_some_iff.1 h
  obtain ⟨-, -, h⟩ := Option.bind_eq_some_iff.1 h
  obtain ⟨files, hfiles, h⟩ := Option.bind_eq_some_iff.1 h
  obtain ⟨-, -, h⟩ := Option.bind_eq_some_iff.1 h
  obtain ⟨text, -, h⟩ := Option.bind_eq_some_iff.1 h
  obtain rfl := Option.some.inj h
  exact ⟨info, hinfo, hname, hfiles⟩

end TorrentFile

/-! ## The files that are opened -/

lemma prefix_splitFiles (source : Bytes) (files : List FileStruct) :
    (DiskWriter.splitFiles source files).2.map Prod.fst <+: files.map FileStruct.path := by
  induction files generalizing source with
  | nil => exact List.prefix_refl _
  | cons file files ih =>
    rw [DiskWriter.splitFiles, List.map_cons]
    split
    · exact List.cons_prefix_cons.2 ⟨rfl, List.nil_prefix⟩
    · exact List.cons_prefix_cons.2 ⟨rfl, ih _⟩

lemma prefix_finish (w : DiskWriter) (files : List FileStruct) (status : Bool) :
    (w.finish files status).2.map Prod.fst <+: files.map FileStruct.path := by
  rw [DiskWriter.finish]
  split
  · exact prefix_splitFiles _ _
  · exact List.nil_prefix

/-- A path that is opened is behind others that are, and goes with them. -/
lemma Disk.Possible.exists_opened (h : disk.Possible DownloadDir) (hp : p ∈ openedFrom disk before paths) :
    ∃ front rear, paths = front ++ p :: rear ∧ (∀ q ∈ front ++ [p], Path.Name (Path.filename q)) ∧
      (front ++ [p]).Pairwise (fun q r => ¬ Path.Clash q r) ∧ ∀ q ∈ before, ∀ r ∈ front ++ [p], ¬ Path.Clash q r := by
  induction paths generalizing before with
  | nil => cases hp
  | cons x paths ih =>
    rw [openedFrom] at hp
    split at hp
    · rename_i hopens
      have hname := h.named before x hopens
      have hapart := h.apart before x hopens
      rcases List.mem_cons.1 hp with rfl | hp
      · exact ⟨[], paths, rfl, List.forall_mem_singleton.2 hname, List.pairwise_singleton _ _, fun q hq =>
          List.forall_mem_singleton.2 (hapart q hq)⟩
      · obtain ⟨front, rear, rfl, hnames, hpairs, hbefore⟩ := ih hp
        refine ⟨x :: front, rear, rfl, List.forall_mem_cons.2 ⟨hname, hnames⟩, List.pairwise_cons.2 ⟨?_, hpairs⟩,
          fun q hq => List.forall_mem_cons.2 ⟨hapart q hq, hbefore q (List.mem_append_left _ hq)⟩⟩
        exact hbefore x (List.mem_append_right _ List.mem_cons_self)
    · cases hp

/-- All files are made if there are bytes enough for them. -/
lemma exists_finish (files : List FileStruct) : ∃ w : DiskWriter,
    (w.finish files true).2.map Prod.fst = files.map FileStruct.path := by
  refine ⟨⟨[], zeros (files.map FileStruct.size).sum⟩, ?_⟩
  have hsum : (files.map FileStruct.size).sum ≤ (zeros (files.map FileStruct.size).sum).length := by rw [length_zeros]
  rw [DiskWriter.finish, if_pos rfl, DiskWriter.join, List.foldl_nil, DiskWriter.splitFiles_eq hsum]
  exact List.map_fst_zip (by simp [length_cut])

lemma zero_notMem_append_name (hD : (0 : UInt8) ∉ DownloadDir) (hname : Path.Name name) (hzero : (0 : UInt8) ∉ name) :
    (0 : UInt8) ∉ Path.append DownloadDir name :=
  fun h => ((Path.zero_mem_append_iff hname.not_isAbsolute).1 h).elim hD hzero

/-- The path of a file that keeps within the directory of the torrent. -/
lemma Keeps.within (h : Keeps name names) (hname : Path.Name name) (hzero : (0 : UInt8) ∉ name)
    (hD : (0 : UInt8) ∉ DownloadDir) : Path.Within (Path.append DownloadDir name)
      (filePath DownloadDir name (names.foldl Path.append [])) := by
  obtain ⟨hrelative, below, hfollow⟩ := h
  have habsolute : Path.isAbsolute (Path.cString (names.foldl Path.append [])) = false := by
    rw [Path.isAbsolute_cString, Path.isAbsolute_foldl_append]
    simpa [Path.isAbsolute] using hrelative
  have hcomponents := Path.components_foldl_append hrelative []
  rw [if_neg List.not_mem_nil, Path.components_nil, List.nil_append] at hcomponents
  rw [filePath, Path.cString_append (zero_notMem_append_name hD hname hzero)]
  exact Path.within_append hname habsolute (hcomponents ▸ hfollow) DownloadDir

/-- A file of a path that lies in the directory of the torrent, for a directory of a name that occurs in neither. -/
lemma keeps_of_within {z : Bytes} (hz : Path.Name z) (hzzero : (0 : UInt8) ∉ z)
    (hfresh : z ∉ Path.components (Path.cString (names.foldl Path.append []))) (hname : Path.Name name)
    (h : Path.Within (Path.append (47 :: z) name)
      (filePath (47 :: z) name (names.foldl Path.append []))) :
    (0 : UInt8) ∉ name ∧ Keeps name names := by
  have hD : (0 : UInt8) ∉ 47 :: z := by simp [hzzero]
  have hzero : (0 : UInt8) ∉ name := by
    obtain ⟨-, rest, hnormal, -⟩ := h
    rw [Path.normal_append_name hname] at hnormal
    have hmem : name ∈ rest ++ name :: Path.normal (47 :: z) := List.mem_append_right _ List.mem_cons_self
    rw [← hnormal] at hmem
    exact Path.zero_notMem_of_mem_components (Path.mem_components_of_mem_normal hmem)
  rw [filePath, Path.cString_append (zero_notMem_append_name hD hname hzero)] at h
  obtain ⟨habsolute, below, hfollow⟩ := Path.follow_of_within hz hfresh hname h
  have hrelative : ∀ n ∈ names, Path.isAbsolute n = false := by
    rw [Path.isAbsolute_cString, Path.isAbsolute_foldl_append] at habsolute
    simpa [Path.isAbsolute] using habsolute
  have hcomponents := Path.components_foldl_append hrelative []
  rw [if_neg List.not_mem_nil, Path.components_nil, List.nil_append] at hcomponents
  exact ⟨hzero, hrelative, below, hcomponents ▸ hfollow⟩

lemma filePath_eq (hD : (0 : UInt8) ∉ DownloadDir) (name : Bytes) (names : List Bytes) :
    filePath DownloadDir name (names.foldl Path.append []) = Path.append DownloadDir (target name names) := by
  rw [filePath, Path.append_assoc, Path.cString_append hD]
  rfl

lemma tempPath_eq (hD : (0 : UInt8) ∉ DownloadDir) (name : Bytes) :
    tempPath DownloadDir name = Path.append DownloadDir (Path.cString (46 :: name)) := Path.cString_append hD _

lemma cString_cons_dot (name : Bytes) : Path.cString (46 :: name) = 46 :: Path.cString name := by
  rw [Path.cString, List.takeWhile_cons_of_pos (by decide)]
  rfl

/-- A torrent of a rejected name makes the constructor throw: there is something of the name, or its temporary file has
no name. -/
lemma not_admits (hD : (0 : UInt8) ∉ DownloadDir) (hdisk : disk.Possible DownloadDir) (h : Rejected name) :
    admits disk DownloadDir name = false := by
  by_cases hslash : (47 : UInt8) ∈ Path.cString name
  · have hopens : disk.opens [] (tempPath DownloadDir name) = false := by
      refine Bool.not_eq_true _ ▸ fun hopens => h ?_
      have hname := hdisk.named _ _ hopens
      rwa [tempPath_eq hD, Path.filename_append, cString_cons_dot, Path.filename_cons_dot, if_pos hslash] at hname
    rw [admits, hopens, Bool.and_false]
  · rw [Rejected, Path.filename_of_notMem hslash] at h
    have hmem : Path.cString name ∈ [[], Path.dot, Path.dotDot] := by
      by_contra hmem
      simp only [List.mem_cons, List.not_mem_nil, or_false, not_or] at hmem
      exact h ⟨hmem.1, hslash, hmem.2.1, hmem.2.2⟩
    rw [admits, Path.cString_append hD, hdisk.directory _ hmem]
    rfl

/-! ## A disk that opens what can be opened -/

open Classical in
/-- A download directory in which nothing has been made, and files wherever there may be some. -/
noncomputable def bare (DownloadDir : Bytes) : Disk where
  present p := decide (p ∈ [[], Path.dot, Path.dotDot].map (Path.append DownloadDir))
  opens before p := decide (Path.Name (Path.filename p) ∧ ∀ q ∈ before, ¬ Path.Clash q p)

open Classical in
lemma bare_opens : (bare DownloadDir).opens before p = true ↔
    Path.Name (Path.filename p) ∧ ∀ q ∈ before, ¬ Path.Clash q p :=
  decide_eq_true_iff

lemma possible_bare (DownloadDir : Bytes) : (bare DownloadDir).Possible DownloadDir where
  directory _ hname := decide_eq_true (List.mem_map_of_mem hname)
  named _ _ hopens := (bare_opens.1 hopens).1
  apart _ _ hopens := (bare_opens.1 hopens).2

/-- All that goes together is opened there. -/
lemma mem_openedFrom_bare {front rear : List Bytes} (hname : ∀ q ∈ front ++ [p], Path.Name (Path.filename q))
    (hpairs : (before ++ (front ++ [p])).Pairwise fun q r => ¬ Path.Clash q r) :
    p ∈ openedFrom (bare DownloadDir) before (front ++ p :: rear) := by
  induction front generalizing before with
  | nil =>
    have hopens : (bare DownloadDir).opens before p = true := bare_opens.2
      ⟨hname p List.mem_cons_self, fun q hq => (List.pairwise_append.1 hpairs).2.2 q hq p List.mem_cons_self⟩
    rw [List.nil_append, openedFrom, if_pos hopens]
    exact List.mem_cons_self
  | cons x front ih =>
    have hopens : (bare DownloadDir).opens before x = true := bare_opens.2
      ⟨hname x List.mem_cons_self, fun q hq => (List.pairwise_append.1 hpairs).2.2 q hq x List.mem_cons_self⟩
    rw [List.cons_append, openedFrom, if_pos hopens]
    refine List.mem_cons_of_mem _ (ih (fun q hq => hname q (List.mem_cons_of_mem _ hq)) ?_)
    rwa [List.append_assoc]

lemma name_filename_cons_dot {q : Bytes} (h : Path.Name (Path.filename q)) : Path.Name (Path.filename (46 :: q)) := by
  rw [Path.filename_cons_dot]
  split_ifs with hslash
  · exact h
  · rw [Path.filename_of_notMem hslash] at h
    refine ⟨List.cons_ne_nil _ _, ?_, fun heq => h.1 ?_, fun heq => h.2.2.1 ?_⟩
    · simpa using hslash
    · exact (List.cons.inj heq).2
    · exact (List.cons.inj heq).2

lemma admits_bare {z : Bytes} (hz : Path.Name z) (hzzero : (0 : UInt8) ∉ z)
    (hfresh : z ∉ Path.components (Path.cString name)) (h : ¬ Rejected name) :
      admits (bare (47 :: z)) (47 :: z) name = true := by
  have hD : (0 : UInt8) ∉ 47 :: z := by simp [hzzero]
  rw [Rejected, not_not] at h
  rw [admits, Bool.and_eq_true, Bool.not_eq_true']
  constructor
  · rw [Path.cString_append hD, bare, decide_eq_false_iff_not]
    intro hmem
    obtain ⟨c, hc, heq⟩ := List.mem_map.1 hmem
    have hrelative : Path.isAbsolute c = false := by
      simp only [List.mem_cons, List.not_mem_nil, or_false] at hc
      rcases hc with rfl | rfl | rfl <;> rfl
    cases habsolute : Path.isAbsolute (Path.cString name) with
    | true =>
      have hcomponents := Path.components_append (p := 47 :: z) hrelative
      rw [heq, Path.append, if_pos habsolute, Path.components_root hz] at hcomponents
      exact hfresh (hcomponents ▸ List.mem_cons_self)
    | false =>
      rw [Path.append_root hz hrelative, Path.append_root hz habsolute] at heq
      obtain rfl : c = Path.cString name := by simpa using heq
      simp only [List.mem_cons, List.not_mem_nil, or_false] at hc
      rcases hc with hc | hc | hc
      · rw [hc] at h
        exact h.1 rfl
      · rw [hc] at h
        exact h.2.2.1 rfl
      · rw [hc] at h
        exact h.2.2.2 rfl
  · refine bare_opens.2 ⟨?_, List.forall_mem_nil _⟩
    rw [tempPath_eq hD, Path.filename_append, cString_cons_dot]
    exact name_filename_cons_dot h

/-- In a directory of a name that occurs nowhere a path that is absolute goes with one that is not. -/
lemma not_clash_of_fresh {z q : Bytes} (hz : Path.Name z) (hp : z ∉ Path.components p)
    (hname : Path.Name (Path.filename p)) (habsolute : Path.isAbsolute p = true) (hrelative : Path.isAbsolute q = false) :
    ¬ Path.Clash (Path.append (47 :: z) p) (Path.append (47 :: z) q) ∧
      ¬ Path.Clash (Path.append (47 :: z) q) (Path.append (47 :: z) p) := by
  have hstages : Path.stages (Path.append (47 :: z) q) = z :: Path.stages q := by
    rw [Path.stages_append hrelative, Path.stages, Path.components_root hz, List.filter_cons_of_pos
      (by simpa using hz.2.2.1)]
    rfl
  have hmem : Path.filename p ∈ Path.stages p :=
    List.mem_filter.2 ⟨Path.filename_mem_components hname, by simpa using hname.2.2.1⟩
  have hnot : ¬ (Path.stages p <+: z :: Path.stages q) ∧ ¬ (z :: Path.stages q <+: Path.stages p) := by
    constructor
    · intro hfront
      cases hp' : Path.stages p with
      | nil =>
        rw [hp'] at hmem
        cases hmem
      | cons c cs =>
        rw [hp', List.cons_prefix_cons] at hfront
        exact hp (List.mem_of_mem_filter (p := (· != Path.dot)) (by rw [← Path.stages, hp', hfront.1]; exact List.mem_cons_self))
    · intro hfront
      exact hp (List.mem_of_mem_filter (hfront.subset List.mem_cons_self))
  rw [Path.append_of_absolute habsolute, Path.Clash, Path.Clash, hstages]
  exact ⟨fun h => h.2.2.elim hnot.1 hnot.2, fun h => h.2.2.elim hnot.2 hnot.1⟩

/-- Paths that go together from the download directory on do so in a directory of a name that occurs in neither. -/
lemma not_clash_append {z q : Bytes} (hz : Path.Name z) (hp : z ∉ Path.components p) (hq : z ∉ Path.components q)
    (hpname : Path.Name (Path.filename p)) (hqname : Path.Name (Path.filename q)) (h : ¬ Path.Clash p q) :
    ¬ Path.Clash (Path.append (47 :: z) p) (Path.append (47 :: z) q) := by
  cases habsolute : Path.isAbsolute p with
  | true =>
    cases habsolute' : Path.isAbsolute q with
    | true => rwa [Path.clash_append_iff (habsolute.trans habsolute'.symm)]
    | false => exact (not_clash_of_fresh hz hp hpname habsolute habsolute').1
  | false =>
    cases habsolute' : Path.isAbsolute q with
    | true => exact (not_clash_of_fresh hz hq hqname habsolute' habsolute).2
    | false => rwa [Path.clash_append_iff (habsolute.trans habsolute'.symm)]

lemma clash_append {q : Bytes} (h : Path.Clash p q) (D : Bytes) : Path.Clash (Path.append D p) (Path.append D q) :=
  (Path.clash_append_iff h.1 D).2 h

lemma TorrentFile.harmless_of_confined (h : ofRoot root = some t) (hconfined : t.Confined) : Harmless root := by
  obtain ⟨info, hinfo, hname, hfiles⟩ := ofRoot_eq_some h
  obtain ⟨lists, hlists, hpaths⟩ := parseFileStructure_path hfiles
  refine ⟨info, t.name, lists, hinfo, hname, hlists, ?_⟩
  by_cases hrejected : Rejected t.name
  · exact Or.inl hrejected
  · refine Or.inr fun before names after hsplit hopenable => ?_
    have htemp : Path.Name (Path.filename (Path.cString (46 :: t.name))) := by
      rw [Rejected, not_not] at hrejected
      rw [cString_cons_dot]
      exact name_filename_cons_dot hrejected
    let targets := Path.cString (46 :: t.name) :: (before ++ [names]).map (target t.name)
    obtain ⟨z, hz, hzzero, hfresh⟩ := Path.exists_name (targets.flatMap Path.components ++
      (Path.components (Path.cString (names.foldl Path.append [])) ++ Path.components (Path.cString t.name)))
    rw [List.mem_append, not_or, List.mem_append, not_or, List.mem_flatMap] at hfresh
    have hD : (0 : UInt8) ∉ 47 :: z := by simp [hzzero]
    obtain ⟨w, hw⟩ := exists_finish t.files
    have hmade : (w.finish t.files true).2.map (fun file => filePath (47 :: z) t.name file.1) =
        (before.map fun names => Path.append (47 :: z) (target t.name names)) ++
          Path.append (47 :: z) (target t.name names) ::
            after.map fun names => Path.append (47 :: z) (target t.name names) := by
      have hcomp := congrArg (List.map (filePath (47 :: z) t.name)) (hw.trans hpaths)
      rw [List.map_map, List.map_map, hsplit, List.map_append, List.map_cons] at hcomp
      refine hcomp.trans ?_
      simp only [Function.comp_def, filePath_eq hD]
    have htargets : ∀ p ∈ targets, Path.Name (Path.filename p) ∧ z ∉ Path.components p := by
      refine fun p hp => ⟨?_, fun hmem => hfresh.1 ⟨p, hp, hmem⟩⟩
      rcases List.mem_cons.1 hp with rfl | hp
      · exact htemp
      · obtain ⟨names', hnames', rfl⟩ := List.mem_map.1 hp
        exact hopenable.1 names' hnames'
    have hpairs : (targets.map (Path.append (47 :: z))).Pairwise fun p q => ¬ Path.Clash p q := by
      rw [List.pairwise_map]
      refine hopenable.2.imp_of_mem fun hp hq hclash => ?_
      exact not_clash_append hz (htargets _ hp).2 (htargets _ hq).2 (htargets _ hp).1 (htargets _ hq).1 hclash
    have hopened : Path.append (47 :: z) (target t.name names) ∈
        opened (bare (47 :: z)) (47 :: z) t.name (w.finish t.files true).2 := by
      rw [opened, hmade, tempPath_eq hD]
      refine mem_openedFrom_bare (fun q hq => ?_) ?_
      · rw [← List.map_singleton (f := fun names => Path.append (47 :: z) (target t.name names)), ← List.map_append] at hq
        obtain ⟨names', hnames', rfl⟩ := List.mem_map.1 hq
        rw [Path.filename_append]
        exact hopenable.1 names' hnames'
      · simpa [targets, Function.comp_def] using hpairs
    have hwithin := hconfined (bare (47 :: z)) (47 :: z) w true hD (possible_bare _) (admits_bare hz hzzero hfresh.2.2
      hrejected) _ hopened
    rw [← filePath_eq hD] at hwithin
    exact ⟨hwithin.1, keeps_of_within hz hzzero hfresh.2.1 hwithin.1 hwithin.2⟩

lemma TorrentFile.confined_of_harmless (h : ofRoot root = some t) (hharmless : Harmless root) : t.Confined := by
  obtain ⟨info, hinfo, hname, hfiles⟩ := ofRoot_eq_some h
  obtain ⟨lists, hlists, hpaths⟩ := parseFileStructure_path hfiles
  obtain ⟨info', name, lists', hinfo', hname', hlists', hharmless⟩ := hharmless
  obtain rfl := Option.some.inj (hinfo.symm.trans hinfo')
  obtain rfl := Option.some.inj (hname.symm.trans hname')
  obtain rfl := Option.some.inj (hlists.symm.trans hlists')
  intro disk DownloadDir w status hD hdisk hadmits p hp
  rcases hharmless with hrejected | hharmless
  · rw [not_admits hD hdisk hrejected] at hadmits
    cases hadmits
  · obtain ⟨front, rear, hmade, hnames, hpairs, htemp⟩ := hdisk.exists_opened hp
    have hfront := (prefix_finish w t.files status).map (filePath DownloadDir t.name)
    rw [List.map_map, hpaths, List.map_map] at hfront
    obtain ⟨more, hmore⟩ := hfront
    rw [show List.map (filePath DownloadDir t.name ∘ Prod.fst) (w.finish t.files status).2 = front ++ p :: rear from hmade,
      List.append_assoc, List.cons_append] at hmore
    obtain ⟨before, rest, rfl, hbefore, hrest⟩ := List.map_eq_append_iff.1 hmore.symm
    obtain ⟨names, after, rfl, hpath, -⟩ := List.map_eq_cons_iff.1 hrest
    dsimp only [Function.comp_apply] at hpath
    have hfull : (before ++ [names]).map (Path.append DownloadDir ∘ target t.name) = front ++ [p] := by
      rw [List.map_append, List.map_singleton, ← hbefore, ← hpath]
      simp only [Function.comp_def, filePath_eq hD]
    have hopenable : Openable t.name (before ++ [names]) := by
      rw [← hfull] at hnames hpairs htemp
      refine ⟨fun names' hnames' => ?_, List.pairwise_cons.2 ⟨fun q hq hclash => ?_, ?_⟩⟩
      · have hend := hnames _ (List.mem_map_of_mem hnames')
        rwa [Function.comp_apply, Path.filename_append] at hend
      · obtain ⟨names', hnames', rfl⟩ := List.mem_map.1 hq
        refine htemp _ List.mem_cons_self _ (List.mem_map_of_mem hnames') ?_
        rw [tempPath_eq hD]
        exact clash_append hclash DownloadDir
      · rw [List.pairwise_map] at hpairs ⊢
        exact hpairs.imp fun hnot hclash => hnot (clash_append hclash DownloadDir)
    obtain ⟨hsingle, hzero, hkeeps⟩ := hharmless before names after rfl hopenable
    rw [← hpath]
    exact ⟨hsingle, hkeeps.within hsingle hzero hD⟩

section AbsolutePath

/-- The metainfo of a torrent of one file with the path `/x`. -/
def absoluteRoot : Node :=
  .object [] [.value (ascii "announce") (.str (ascii "u")),
    .object (ascii "info") [
      .array (ascii "files") [
        .object [] [.value (ascii "length") (.int 1), .array (ascii "path") [.value [] (.str (ascii "/x"))]]],
      .value (ascii "name") (.str (ascii "n")),
      .value (ascii "piece length") (.int 1),
      .value (ascii "pieces") (.str [])]]

lemma exists_ofRoot_absoluteRoot : ∃ t, TorrentFile.ofRoot absoluteRoot = some t :=
  Option.isSome_iff_exists.1 (by decide +kernel)

lemma bytes_absoluteRoot : ascii ("d8:announce1:u4:infod5:filesld6:lengthi1e4:pathl2:/xeee4:name1:n" ++
    "12:piece lengthi1e6:pieces0:ee") =
      [100, 56, 58, 97, 110, 110, 111, 117, 110, 99, 101, 49, 58, 117, 52, 58, 105, 110, 102, 111, 100, 53, 58, 102,
      105, 108, 101, 115, 108, 100, 54, 58, 108, 101, 110, 103, 116, 104, 105, 49, 101, 52, 58, 112, 97, 116, 104, 108,
      50, 58, 47, 120, 101, 101, 101, 52, 58, 110, 97, 109, 101, 49, 58, 110, 49, 50, 58, 112, 105, 101, 99, 101, 32,
      108, 101, 110, 103, 116, 104, 105, 49, 101, 54, 58, 112, 105, 101, 99, 101, 115, 48, 58, 101, 101] := by
  rw [ascii_append, ascii_eq rfl, ascii_eq rfl]
  decide +kernel

lemma returns_absoluteRoot : Bencode.Returns (ascii ("d8:announce1:u4:infod5:filesld6:lengthi1e4:pathl2:/xeee4:name1:n" ++
    "12:piece lengthi1e6:pieces0:ee")) true absoluteRoot := by
  rw [bytes_absoluteRoot]
  exact ⟨⟨93, _⟩, ⟨23, rfl⟩, rfl⟩

lemma not_harmless_absoluteRoot : ¬ Harmless absoluteRoot := by
  rintro ⟨info, name, lists, hinfo, hname, hlists, hharmless⟩
  obtain rfl := Option.some.inj hinfo
  obtain rfl := Option.some.inj hname
  obtain rfl := Option.some.inj hlists
  have hn : Path.filename (Path.cString (ascii "n")) = ascii "n" := by decide
  rcases hharmless with hrejected | hharmless
  · rw [Rejected, hn] at hrejected
    exact hrejected ⟨by decide, by decide, by decide, by decide⟩
  · have hx : target (ascii "n") [ascii "/x"] = ascii "/x" := by decide
    have hopenable : Openable (ascii "n") ([] ++ [[ascii "/x"]]) := by
      refine ⟨List.forall_mem_singleton.2 ?_, ?_⟩
      · rw [hx]
        exact ⟨by decide, by decide, by decide, by decide⟩
      · rw [List.nil_append, List.map_singleton, hx, List.pairwise_pair]
        exact fun hclash => absurd hclash.1 (by decide)
    have hkeeps := (hharmless [] [ascii "/x"] [] rfl hopenable).2.2
    exact absurd (hkeeps.1 _ List.mem_cons_self) (by decide)

end AbsolutePath

end CppExperiments.Torrent

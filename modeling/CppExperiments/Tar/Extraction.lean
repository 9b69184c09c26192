import CppExperiments.Lib.FileSystem
import CppExperiments.Lib.Runs
import CppExperiments.Tar.Layout
import CppExperiments.Tar.Members

/-!
# Extraction

The members of an archive made on a disk. Nothing is asked of their paths: what is made lies in the destination where
every path leads into it, by the links that the members before have made.
-/

namespace CppExperiments.Tar

open FileSystem (Disk Place route)

/-! ## The code -/

/-- The base and the path; the last character of an empty path is not defined. -/
def splitPathForDestination (destPathStr destDir : Bytes) : Option (Bytes × Bytes) :=
  match destPathStr.getLast? with
  | none => none
  | some ch =>
    let destPath := Path.append destDir (if ch = 47 then destPathStr.dropLast else destPathStr)
    some (Path.parentPath destPath, destPath)

/-- The file, the directory or the link itself, with `false` where it throws. A stream that failed before has no bytes.
Times and modes are left out. -/
def write (file : Bytes) (good : Bool) (member : TarInfo) (destPath : Bytes) (disk : Disk Bytes) : Disk Bytes × Bool :=
  match member.ftype with
  | .NORMAL =>
    let copied := if good = true then field file member.blockOffset member.size else []
    match disk.create destPath copied with
    | none => (disk, member.size == 0)
    | some disk => (disk, copied.length == member.size)
  | .DIRECTORY =>
    match disk.mkdir (disk.start destPath) (Path.components destPath) with
    | none => (disk, false)
    | some disk => (disk, true)
  | .SYMLINK =>
    match disk.symlink (rstrip member.linkName) destPath with
    | none => (disk, false)
    | some disk => (disk, true)

/-- What is left on the disk, with `false` where it throws. -/
def extract (file : Bytes) (good : Bool) (member : TarInfo) (destDir : Bytes) (disk : Disk Bytes) :
    Option (Disk Bytes × Bool) :=
  match splitPathForDestination member.fullPath destDir with
  | none => none
  | some (destBase, destPath) =>
    match disk.exists? destBase with
    | none => some (disk, false)
    | some present =>
      let made := if present = true then (disk, true) else disk.createDirectories destBase
      if made.2 = false ∨ made.1.isDirectory destBase = false ∨ made.1.exists? destPath ≠
        some false then some (made.1, false)
      else some (write file good member destPath made.1)

/-- One after the other, up to the first that throws. -/
def extractMembers (file : Bytes) (destDir : Bytes) : List TarInfo → Disk Bytes → Option (Disk Bytes × Bool)
  | [], disk => some (disk, true)
  | member :: members, disk =>
    match extract file true member destDir disk with
    | none => none
    | some (disk, false) => some (disk, false)
    | some (disk, true) => extractMembers file destDir members disk

/-- The stream stands at a position, or it has failed before. -/
def extractAll (uninitialised : Nat → Bool) (file : Bytes) (stream : Option Nat) (destDir : Bytes) (disk : Disk Bytes) :
    Option (Disk Bytes × Bool) :=
  match disk.exists? destDir with
  | none => some (disk, false)
  | some present =>
    if present = true ∧ disk.isDirectory destDir = false then some (disk, false)
    else match stream.bind (getMembersFrom uninitialised file) with
      | none => some (disk, false)
      | some members => extractMembers file destDir members disk

/-! ## Runs -/

/-- The calls on an open archive. -/
inductive Extraction where
  | extract (good : Bool) (member : TarInfo)
  | extractAll (stream : Option Nat)

/-- An archive, and where it is extracted to. -/
structure Archive where
  uninitialised : Nat → Bool
  file : Bytes
  destDir : Bytes

namespace Archive

variable (a : Archive)

/-- The caller goes on, whether the call threw or not; `none` where nothing is defined. -/
def step (disk : Disk Bytes) : Extraction → Option (Disk Bytes)
  | .extract good member => (Tar.extract a.file good member a.destDir disk).map Prod.fst
  | .extractAll stream => (Tar.extractAll a.uninitialised a.file stream a.destDir disk).map Prod.fst

/-- What was made since, was made in a directory. -/
def Confined (directory : Place) (disk disk' : Disk Bytes) : Prop :=
  ∀ place, disk'.files place ≠ disk.files place → directory <+: place

/-- The member has a path, and wherever this or an initial part of it leads, there is something already, or it is in
the directory. -/
def Inside (directory : Place) (disk : Disk Bytes) (member : TarInfo) : Prop :=
  ∃ destBase destPath, splitPathForDestination member.fullPath a.destDir = some (destBase, destPath) ∧
    ∀ q place, q <+: route destPath → disk.files.leads (disk.start destPath) q place → place ≠ [] →
      disk.files place = none → directory <+: place

/-- One member, where the one before did not throw. -/
def next (disk : Disk Bytes) (member : TarInfo) : Option (Disk Bytes) :=
  match Tar.extract a.file true member a.destDir disk with
  | some (disk, true) => some disk
  | _ => none

/-- Every member that is extracted is, when its turn comes. -/
def Allowed (directory : Place) (disk : Disk Bytes) : Extraction → Prop
  | .extract _ member => a.Inside directory disk member
  | .extractAll stream =>
    ∀ members, stream.bind (getMembersFrom a.uninitialised a.file) = some members →
      Throughout a.next (a.Inside directory) disk members

end Archive

/-! ## Confinement -/

variable {file destPath destBase destDir : Bytes} {good : Bool} {member : TarInfo} {disk disk' disk'' : Disk Bytes}
  {directory : Place}

lemma grown_write (hexists : disk.exists? destPath = some false) :
    disk.Grown (write file good member destPath disk).1 (disk.start destPath) (route destPath) := by
  rw [write]
  split
  · dsimp only
    cases hcreate : disk.create destPath (if good = true then field file member.blockOffset member.size else []) with
    | none => exact Disk.Grown.refl disk _ _
    | some disk' => exact Disk.grown_create hexists hcreate
  · split
    · exact Disk.Grown.refl disk _ _
    · rename_i hmkdir
      exact Disk.grown_mkdir_components hmkdir
  · split
    · exact Disk.Grown.refl disk _ _
    · rename_i hsymlink
      exact Disk.grown_symlink hsymlink

/-- What an extraction makes is what was missing on the way along the member's path, also where it throws. -/
theorem grown_extract (hsplit : splitPathForDestination member.fullPath destDir = some (destBase, destPath))
    (file : Bytes)
    (good : Bool) (disk : Disk Bytes) : ∃ result, extract file good member destDir disk = some result ∧
      disk.Grown result.1 (disk.start destPath) (route destPath) := by
  rw [extract, hsplit]
  dsimp only
  cases hbase : disk.exists? destBase with
  | none => exact ⟨_, rfl, Disk.Grown.refl disk _ _⟩
  | some present =>
    have hparent : destBase = Path.parentPath destPath := by
      rw [splitPathForDestination] at hsplit
      split at hsplit
      · cases hsplit
      · obtain ⟨rfl, rfl⟩ := Prod.mk.inj (Option.some.inj hsplit)
        rfl
    have hmade : ∀ made, made = (if present = true then (disk, true) else disk.createDirectories destBase) →
        disk.Grown made.1 (disk.start destPath) (route destPath) ∧ made.1.files.filled = disk.files.filled := by
      intro made hmade
      rw [hmade]
      split
      · exact ⟨Disk.Grown.refl disk _ _, rfl⟩
      · rw [hparent]
        exact Disk.grown_createDirectories disk destPath
    dsimp only
    generalize hmade' : (if present = true then (disk, true) else disk.createDirectories destBase) = made
    obtain ⟨hgrown, hfilled⟩ := hmade made hmade'.symm
    split
    · exact ⟨_, rfl, hgrown⟩
    · rename_i hguard
      rw [not_or, not_or, not_not] at hguard
      refine ⟨_, rfl, hgrown.trans hfilled ?_⟩
      have hwrite := @grown_write file destPath good member made.1 hguard.2.2
      rwa [Disk.start, hgrown.current] at hwrite

namespace Archive

variable {a : Archive}

lemma Confined.refl (directory : Place) (disk : Disk Bytes) : Confined directory disk disk := fun _ h => absurd rfl h

lemma Confined.trans (h : Confined directory disk disk') (h' : Confined directory disk' disk'') :
    Confined directory disk disk'' := by
  intro place hplace
  by_cases heq : disk'.files place = disk.files place
  · exact h' place fun heq' => hplace (heq'.trans heq)
  · exact h place heq

lemma Inside.extract (h : a.Inside directory disk member) (good : Bool) :
    ∃ result, Tar.extract a.file good member a.destDir disk = some result ∧ Confined directory disk result.1 := by
  obtain ⟨destBase, destPath, hsplit, hinside⟩ := h
  obtain ⟨result, hresult, hgrown⟩ := grown_extract hsplit a.file good disk
  refine ⟨result, hresult, fun place hplace => ?_⟩
  obtain ⟨hne, hnone, q, hq, hleads⟩ := hgrown.made place hplace
  exact hinside q place hq hleads hne hnone

lemma confined_extractMembers {members : List TarInfo} (h : Throughout a.next (a.Inside directory) disk members) :
    ∃ result, extractMembers a.file a.destDir members disk = some result ∧ Confined directory disk result.1 := by
  induction members generalizing disk with
  | nil => exact ⟨_, rfl, Confined.refl directory disk⟩
  | cons member members ih =>
    rw [Throughout, next] at h
    obtain ⟨⟨disk', ok⟩, hextract, hconfined⟩ := h.1.extract true
    rw [extractMembers, hextract]
    rw [hextract] at h
    cases ok with
    | false => exact ⟨_, rfl, hconfined⟩
    | true =>
      obtain ⟨result, hresult, hrest⟩ := ih h.2
      exact ⟨result, hresult, hconfined.trans hrest⟩

lemma confined_step {call : Extraction} (h : a.Allowed directory disk call) :
    ∃ disk', a.step disk call = some disk' ∧ Confined directory disk disk' := by
  cases call with
  | extract good member =>
    obtain ⟨result, hresult, hconfined⟩ := h.extract good
    exact ⟨result.1, by rw [step, hresult, Option.map_some], hconfined⟩
  | extractAll stream =>
    rw [step, extractAll]
    split
    · exact ⟨disk, rfl, Confined.refl directory disk⟩
    · split
      · exact ⟨disk, rfl, Confined.refl directory disk⟩
      · cases hmembers : stream.bind (getMembersFrom a.uninitialised a.file) with
        | none => exact ⟨disk, rfl, Confined.refl directory disk⟩
        | some members =>
          obtain ⟨result, hresult, hconfined⟩ := confined_extractMembers (h members hmembers)
          exact ⟨result.1, by dsimp only; rw [hresult, Option.map_some], hconfined⟩

/-- Where every member's path leads into a directory when the member is extracted, everything is made in that
directory, and every call has a result. -/
theorem confined_visits {calls : List Extraction} (h : Throughout a.step (a.Allowed directory) disk calls) :
    (calls.foldlM a.step disk).isSome ∧ ∀ disk' ∈ CppExperiments.visits a.step disk calls,
      Confined directory disk disk' := by
  induction calls generalizing disk with
  | nil =>
    refine ⟨rfl, fun disk' hdisk' => ?_⟩
    rw [CppExperiments.visits, List.mem_singleton] at hdisk'
    exact hdisk' ▸ Confined.refl directory disk
  | cons call calls ih =>
    rw [Throughout] at h
    obtain ⟨disk₁, hstep, hconfined⟩ := confined_step h.1
    rw [hstep] at h
    obtain ⟨hsome, hvisits⟩ := ih h.2
    rw [List.foldlM_cons, CppExperiments.visits, hstep, List.forall_mem_cons]
    exact ⟨hsome, Confined.refl directory disk, fun disk' hdisk' => hconfined.trans (hvisits disk' hdisk')⟩

section Examples

/-- An empty file. -/
def emptyFile (fname : Bytes) : TarInfo where
  fname := fname
  mode := 0
  uid := 0
  gid := 0
  blockOffset := 0
  size := 0
  mtime := 0
  ftype := .NORMAL
  linkName := []
  ustar := false
  uname := []
  gname := []
  fprefix := []

/-- A disk with an empty directory. -/
def oneDirectory : Disk Bytes where
  files place := if place = [ascii "d"] then some .directory else none
  current := []

/-- The parts of the path of a single member lead to something, or into the directory. -/
def leadsInside (directory : Place) (disk : Disk Bytes) : Extraction → Bool
  | .extract _ member =>
    match splitPathForDestination member.fullPath a.destDir with
    | none => false
    | some (_, destPath) => (route destPath).inits.all fun q =>
      match disk.files.filled.walk true 40 (disk.start destPath) q with
      | .at place => place == [] || (disk.files place).isSome || directory.isPrefixOf place
      | _ => true
  | .extractAll _ => false

lemma allowed_of_leadsInside {call : Extraction} (h : leadsInside (a := a) directory disk call = true) :
    a.Allowed directory disk call := by
  cases call with
  | extractAll => cases h
  | extract good member =>
    rw [leadsInside] at h
    split at h
    · cases h
    · rename_i destBase destPath hsplit
      refine ⟨destBase, destPath, hsplit, fun q place hq hleads hne hnone => ?_⟩
      have hparts := List.all_eq_true.1 h q ((List.mem_inits q _).2 hq)
      rw [FileSystem.Files.leads] at hleads
      rw [hleads] at hparts
      simpa [hne, hnone] using hparts

/-- A directory, a file in it, a link to the directory and a file behind the link. -/
def linkedMembers : List Extraction :=
  [.extract true { emptyFile (ascii "s") with ftype := .DIRECTORY }, .extract true (emptyFile (ascii "s/x")),
    .extract true { emptyFile (ascii "l") with ftype := .SYMLINK, linkName := ascii "s" },
    .extract true (emptyFile (ascii "l/y"))]

lemma throughout_linkedMembers : Throughout (step ⟨fun _ => false, [], ascii "d"⟩)
    (Allowed ⟨fun _ => false, [], ascii "d"⟩ [ascii "d"]) oneDirectory linkedMembers := by
  have hleads : Throughout (step ⟨fun _ => false, [], ascii "d"⟩) (fun disk call =>
      leadsInside (a := ⟨fun _ => false, [], ascii "d"⟩) [ascii "d"] disk call = true) oneDirectory linkedMembers := by
    decide +kernel
  exact throughout_of_inv (I := fun _ => True) (fun _ _ _ => allowed_of_leadsInside) (fun _ _ _ _ _ _ => trivial) trivial
    hleads

theorem confined_linkedMembers :
    (linkedMembers.foldlM (step ⟨fun _ => false, [], ascii "d"⟩) oneDirectory).isSome ∧
      ∀ disk' ∈ CppExperiments.visits (step ⟨fun _ => false, [], ascii "d"⟩) oneDirectory linkedMembers,
        Confined [ascii "d"] oneDirectory disk' :=
  confined_visits throughout_linkedMembers

/-- The file behind the link stands in the directory that it leads to. -/
example : ((linkedMembers.foldlM (step ⟨fun _ => false, [], ascii "d"⟩) oneDirectory).map fun disk =>
    (disk.files [ascii "d", ascii "s", ascii "y"]).isSome) = some true := by decide +kernel

/-- An archive with the member `../x` is accepted, and the member is made beside the destination. -/
theorem not_confined_dotDot : ¬ ∀ (a : Archive) (members : List TarInfo) (disk : Disk Bytes) (directory : Place)
    (calls : List Extraction), getMembers a.uninitialised a.file = some members → disk.lookup a.destDir =
      .at directory →
    disk.files.isDirectory directory = true →
    (∀ place target, directory <+: place → disk.files place ≠ some (.link target)) →
    (∀ call ∈ calls, call = .extractAll (some 0) ∨ ∃ member ∈ members, call = .extract true member) →
    ∀ disk' ∈ CppExperiments.visits a.step disk calls, Confined directory disk disk' := by
  intro h
  have hfits : (emptyFile (ascii "../x")).Fits := ⟨by decide, by decide, by decide, by decide, by decide, by decide⟩
  obtain ⟨header, -, hlength, hcheck, hread⟩ := writeHeader_readHeader hfits false 512
  have hmembers : getMembers (fun _ => false) (header ++ List.replicate 1024 0) =
      some [(emptyFile (ascii "../x")).recovered false 512] := by
    have hfirst := @getMembersFrom_header (fun _ => false) [] _ (List.replicate 1024 0) _ hlength
      (by rw [hcheck]; rfl) hread
    have hrest := getMembersFrom_zeros (fun _ => false) header
    rw [hlength] at hrest
    rw [getMembers]
    refine hfirst.trans ?_
    rw [List.nil_append]
    exact congrArg (Option.map _) hrest
  have hlinks : ∀ place target, [ascii "d"] <+: place → oneDirectory.files place ≠ some (.link target) := by
    intro place target _
    rw [oneDirectory]
    dsimp only
    split <;> nofun
  have hmade := h ⟨fun _ => false, _, ascii "d"⟩ _ oneDirectory [ascii "d"]
    [.extract true ((emptyFile (ascii "../x")).recovered false 512)] hmembers rfl rfl hlinks
    (fun call hcall => Or.inr ⟨_, List.mem_singleton_self _, List.mem_singleton.1 hcall⟩)
    _ (List.mem_of_getElem? (i := 1) rfl) [ascii "x"] nofun
  exact absurd hmade (by decide)

end Examples

end Archive

end CppExperiments.Tar

import CppExperiments.Lib.RelativePath

/-!
# File systems

Files, directories and symbolic links by their places, how a path is followed through the links, and what is made where
a path leads.
-/

namespace CppExperiments.FileSystem

open CppExperiments.Path (isAbsolute hasFilename components dot dotDot)

/-- The names on the way from the root. -/
abbrev Place := List Bytes

inductive Node (α : Type*) where
  | file (data : α)
  | directory
  | link (target : Bytes)

/-- What stands where. The root is a directory, whatever stands there. -/
abbrev Files (α : Type*) := Place → Option (Node α)

/-- Where a path ends: at a place, with a last name that is not in its directory, earlier, or with an error. -/
inductive Outcome where
  | at (place : Place)
  | absent (directory : Place) (name : Bytes)
  | missing
  | failed
  deriving DecidableEq

/-- A way ends, or it goes on with the target of a link. -/
inductive Leg where
  | done (outcome : Outcome)
  | link (directory : Place) (target : Bytes) (rest : List Bytes)

/-- The names of a path. A slash at its end asks for a directory. -/
def route (p : Bytes) : List Bytes := components p ++ if hasFilename p then [] else [dot]

variable {α : Type*}

namespace Files

def isDirectory (fs : Files α) (place : Place) : Bool :=
  place == [] || match fs place with
    | some .directory => true
    | _ => false

/-- Up to the first link. A link at the end is not followed unless `follow` says so. -/
def leg (fs : Files α) (follow : Bool) (place : Place) : List Bytes → Leg
  | [] => .done (.at place)
  | c :: rest =>
    if fs.isDirectory place = false then .done .missing
    else if c = dot then leg fs follow place rest
    else if c = dotDot then leg fs follow place.dropLast rest
    else if 255 < c.length then .done .failed
    else match fs (place ++ [c]) with
      | none => .done (if rest = [] then .absent place c else .missing)
      | some (.link target) => if rest = [] ∧ follow = false then .done (.at
          (place ++ [c])) else .link place target rest
      | some _ => leg fs follow (place ++ [c]) rest

/-- With so many links at most. -/
def walk (fs : Files α) (follow : Bool) : Nat → Place → List Bytes → Outcome
  | 0, place, cs =>
    match fs.leg follow place cs with
    | .done outcome => outcome
    | .link _ _ _ => .failed
  | links + 1, place, cs =>
    match fs.leg follow place cs with
    | .done outcome => outcome
    | .link directory target rest =>
        walk fs follow links (if isAbsolute target then [] else directory) (route target ++ rest)

end Files

/-- Files and the directory that relative paths start from. -/
structure Disk (α : Type*) where
  files : Files α
  current : Place

namespace Disk

def start (disk : Disk α) (p : Bytes) : Place := if isAbsolute p then [] else disk.current

/-- Where the system calls look for a path. -/
def lookup (disk : Disk α) (p : Bytes) : Outcome :=
  if p = [] then .missing else if 4096 ≤ p.length then .failed else disk.files.walk true 40 (disk.start p) (route p)

/-- `is_directory`, which is not told from a failure where it throws. -/
def isDirectory (disk : Disk α) (p : Bytes) : Bool :=
  match disk.lookup p with
  | .at place => disk.files.isDirectory place
  | .absent _ _ | .missing | .failed => false

/-- `exists`; `none` where it throws. -/
def exists? (disk : Disk α) (p : Bytes) : Option Bool :=
  match disk.lookup p with
  | .at _ => some true
  | .absent _ _ | .missing => some false
  | .failed => none

def put (disk : Disk α) (place : Place) (node : Node α) : Disk α :=
  { disk with files := Function.update disk.files place (some node) }

/-- `mkdir`, of the names of a path. -/
def mkdir (disk : Disk α) (start : Place) (cs : List Bytes) : Option (Disk α) :=
  match disk.files.walk false 40 start cs with
  | .absent directory name => some (disk.put (directory ++ [name]) .directory)
  | .at _ | .missing | .failed => none

/-- `symlink` -/
def symlink (disk : Disk α) (target p : Bytes) : Option (Disk α) :=
  if target = [] then none
  else match disk.files.walk false 40 (disk.start p) (route p) with
    | .absent directory name => some (disk.put (directory ++ [name]) (.link target))
    | .at _ | .missing | .failed => none

/-- A file that is opened to be written anew. -/
def create (disk : Disk α) (p : Bytes) (data : α) : Option (Disk α) :=
  match disk.lookup p with
  | .absent directory name => some (disk.put (directory ++ [name]) (.file data))
  | .at place =>
    match disk.files place with
    | some (.file _) => some (disk.put place (.file data))
    | _ => none
  | .missing | .failed => none

/-- Every element of a path that is not there is made, up to one that cannot be. -/
def makeAll (disk : Disk α) (start : Place) (above : List Bytes) : List Bytes → Disk α × Bool
  | [] => (disk, true)
  | c :: rest =>
    match disk.files.walk true 40 start (above ++ [c]) with
    | .at place => if disk.files.isDirectory place then makeAll disk start (above ++ [c]) rest else (disk, false)
    | .failed => (disk, false)
    | .absent _ _ | .missing =>
      match disk.mkdir start (above ++ [c]) with
      | none => (disk, false)
      | some disk => makeAll disk start (above ++ [c]) rest

/-- `create_directories`, with `false` where it throws. -/
def createDirectories (disk : Disk α) (p : Bytes) : Disk α × Bool :=
  if p = [] then (disk, false) else disk.makeAll (disk.start p) [] (components p)

end Disk

/-! ## Where a path would lead -/

namespace Files

/-- With a directory for everything that is missing. -/
def filled (fs : Files α) : Files α := fun place =>
  match fs place with
  | some (.link target) => some (.link target)
  | _ => some .directory

/-- The place of a path, whether it is there or not. -/
def leads (fs : Files α) (start : Place) (cs : List Bytes) (place : Place) : Prop :=
  fs.filled.walk true 40 start cs = .at place

variable {fs : Files α} {follow : Bool} {place l : Place} {c target : Bytes} {cs rest : List Bytes}
  {outcome : Outcome} {links : Nat}

lemma isDirectory_filled (h : fs.isDirectory place = true) : fs.filled.isDirectory place = true := by
  rw [isDirectory, Bool.or_eq_true] at h ⊢
  refine h.imp_right fun h => ?_
  rw [filled]
  cases hnode : fs place with
  | none => rfl
  | some node =>
    rw [hnode] at h
    cases node with
    | file | directory => rfl
    | link => cases h

lemma filled_of_notLink (h : ∀ target, fs place ≠ some (.link target)) : fs.filled place = some .directory := by
  rw [filled]
  split
  · rename_i target htarget
    exact absurd htarget (h target)
  · rfl

lemma filled_of_link (h : fs place = some (.link target)) : fs.filled place = some (.link target) := by rw [filled, h]

/-- What is missing at the end of a way is where it leads. -/
def arrival : Outcome → Option Place
  | .at place => some place
  | .absent directory name => some (directory ++ [name])
  | .missing | .failed => none

lemma leg_filled_of_link {d : Place} (h : fs.leg follow place cs = .link d target rest) :
    fs.filled.leg true place cs = .link d target rest := by
  induction cs generalizing place with
  | nil => cases h
  | cons c cs ih =>
    rw [leg] at h ⊢
    by_cases hdir : fs.isDirectory place = false
    · rw [if_pos hdir] at h
      cases h
    · rw [if_neg hdir] at h
      rw [if_neg (by rw [isDirectory_filled (Bool.not_eq_false _ ▸ hdir)]; decide)]
      by_cases hdot : c = dot
      · rw [if_pos hdot] at h ⊢
        exact ih h
      · rw [if_neg hdot] at h ⊢
        by_cases hup : c = dotDot
        · rw [if_pos hup] at h ⊢
          exact ih h
        · rw [if_neg hup] at h ⊢
          by_cases hlong : 255 < c.length
          · rw [if_pos hlong] at h
            cases h
          · rw [if_neg hlong] at h ⊢
            cases hnode : fs (place ++ [c]) with
            | none =>
              rw [hnode] at h
              cases h
            | some node =>
              rw [hnode] at h
              cases node with
              | file | directory =>
                rw [filled_of_notLink (by rw [hnode]; nofun)]
                exact ih h
              | link t =>
                rw [filled_of_link hnode]
                dsimp only at h ⊢
                rw [if_neg (fun h' => Bool.noConfusion h'.2)]
                by_cases hend : cs = [] ∧ follow = false
                · rw [if_pos hend] at h
                  cases h
                · rw [if_neg hend] at h
                  exact h

lemma leg_filled_of_done (h : fs.leg follow place cs = .done outcome) (harrival : arrival outcome = some l)
    (hfollow : follow = true ∨ ∃ d name, outcome = .absent d name) : fs.filled.leg true place cs = .done (.at l) := by
  induction cs generalizing place with
  | nil =>
    cases h
    exact congrArg (fun l => Leg.done (.at l)) (Option.some.inj harrival)
  | cons c cs ih =>
    rw [leg] at h ⊢
    by_cases hdir : fs.isDirectory place = false
    · rw [if_pos hdir] at h
      cases h
      cases harrival
    · rw [if_neg hdir] at h
      rw [if_neg (by rw [isDirectory_filled (Bool.not_eq_false _ ▸ hdir)]; decide)]
      by_cases hdot : c = dot
      · rw [if_pos hdot] at h ⊢
        exact ih h
      · rw [if_neg hdot] at h ⊢
        by_cases hup : c = dotDot
        · rw [if_pos hup] at h ⊢
          exact ih h
        · rw [if_neg hup] at h ⊢
          by_cases hlong : 255 < c.length
          · rw [if_pos hlong] at h
            cases h
            cases harrival
          · rw [if_neg hlong] at h ⊢
            cases hnode : fs (place ++ [c]) with
            | none =>
              rw [hnode] at h
              rw [filled_of_notLink (by rw [hnode]; nofun)]
              by_cases hend : cs = []
              · subst hend
                cases h
                exact congrArg (fun l => Leg.done (.at l)) (Option.some.inj harrival)
              · dsimp only at h
                rw [if_neg hend] at h
                cases h
                cases harrival
            | some node =>
              rw [hnode] at h
              cases node with
              | file | directory =>
                rw [filled_of_notLink (by rw [hnode]; nofun)]
                exact ih h
              | link t =>
                dsimp only at h
                by_cases hend : cs = [] ∧ follow = false
                · rw [if_pos hend] at h
                  cases h
                  rcases hfollow with hfollow | ⟨d, name, habsent⟩
                  · rw [hfollow] at hend
                    exact absurd hend.2 (by decide)
                  · cases habsent
                · rw [if_neg hend] at h
                  cases h

/-- A way that ends at a place, or where only the last name is missing, leads there. -/
lemma leads_of_walk {links : Nat} (h : fs.walk follow links place cs = outcome) (harrival : arrival outcome = some l)
    (hfollow : follow = true ∨ ∃ d name, outcome = .absent d name) : fs.filled.walk true links place cs = .at l := by
  induction links generalizing place cs with
  | zero =>
    rw [walk] at h ⊢
    cases hleg : fs.leg follow place cs with
    | done o =>
      rw [hleg] at h
      obtain rfl : o = outcome := h
      rw [leg_filled_of_done hleg harrival hfollow]
    | link d t r =>
      rw [hleg] at h
      cases h
      cases harrival
  | succ links ih =>
    rw [walk] at h ⊢
    cases hleg : fs.leg follow place cs with
    | done o =>
      rw [hleg] at h
      obtain rfl : o = outcome := h
      rw [leg_filled_of_done hleg harrival hfollow]
    | link d t r =>
      rw [hleg] at h
      rw [leg_filled_of_link hleg]
      exact ih h

/-- What is found missing is missing. -/
lemma leg_absent {d : Place} {name : Bytes} (h : fs.leg follow place cs = .done (.absent d name)) :
    fs (d ++ [name]) = none := by
  induction cs generalizing place with
  | nil => cases h
  | cons c cs ih =>
    rw [leg] at h
    split at h
    · cases h
    · split at h
      · exact ih h
      · split at h
        · exact ih h
        · split at h
          · cases h
          · split at h
            · rename_i hnode
              split at h
              · cases h
                exact hnode
              · cases h
            · split at h <;> cases h
            · exact ih h

lemma walk_absent {links : Nat} {d : Place} {name : Bytes} (h : fs.walk follow links place cs = .absent d name) :
    fs (d ++ [name]) = none := by
  induction links generalizing place cs with
  | zero =>
    rw [walk] at h
    split at h
    · rename_i hleg
      exact leg_absent (h ▸ hleg)
    · cases h
  | succ links ih =>
    rw [walk] at h
    split at h
    · rename_i hleg
      exact leg_absent (h ▸ hleg)
    · exact ih h

lemma filled_put (h : fs l = none) {node : Node α} (hnode : ∀ target, node ≠ .link target) :
    filled (Function.update fs l (some node)) = filled fs := by
  funext place
  by_cases hplace : place = l
  · subst hplace
    have hplain : ∀ target, Function.update fs place (some node) place ≠ some (.link target) := by
      rw [Function.update_self]
      exact fun target heq => hnode target (Option.some.inj heq)
    rw [filled_of_notLink hplain, filled_of_notLink (by rw [h]; nofun)]
  · rw [filled, filled, Function.update_of_ne hplace]

end Files

namespace Disk

/-- Whatever changed was missing where an initial part of the names leads. -/
structure Grown (disk disk' : Disk α) (start : Place) (cs : List Bytes) : Prop where
  current : disk'.current = disk.current
  made : ∀ l, disk'.files l ≠ disk.files l → l ≠ [] ∧ disk.files l = none ∧ ∃ q, q <+: cs ∧ disk.files.leads start q l

variable {disk disk' : Disk α} {start : Place} {above cs : List Bytes}

lemma grown_put {node : Node α} {d : Place} {name : Bytes} {q : List Bytes} {follow : Bool} (hq : q <+: cs)
    (h : disk.files.walk follow 40 start q = .absent d name) : Grown disk (disk.put (d ++ [name]) node) start cs := by
  refine ⟨rfl, fun l hl => ?_⟩
  obtain rfl : l = d ++ [name] := by
    by_contra hne
    exact hl (Function.update_of_ne hne _ _)
  exact ⟨List.append_ne_nil_of_right_ne_nil d (List.cons_ne_nil name []), Files.walk_absent h, q, hq,
    Files.leads_of_walk h rfl (Or.inr ⟨d, name, rfl⟩)⟩

lemma grown_mkdir (hcs : above <+: cs) (h : disk.mkdir start above = some disk') :
    Grown disk disk' start cs ∧ disk'.files.filled = disk.files.filled := by
  rw [mkdir] at h
  split at h
  · rename_i d name hwalk
    obtain rfl := Option.some.inj h
    exact ⟨grown_put hcs hwalk, Files.filled_put (Files.walk_absent hwalk) nofun⟩
  all_goals cases h

lemma Grown.trans {disk'' : Disk α} (h : Grown disk disk' start cs) (hfilled : disk'.files.filled = disk.files.filled)
    (h' : Grown disk' disk'' start cs) : Grown disk disk'' start cs := by
  refine ⟨h'.current.trans h.current, fun l hl => ?_⟩
  by_cases heq : disk'.files l = disk.files l
  · obtain ⟨hne, hnone, q, hq, hleads⟩ := h'.made l (fun hl' => hl (hl'.trans heq))
    rw [Files.leads, hfilled] at hleads
    exact ⟨hne, heq ▸ hnone, q, hq, hleads⟩
  · exact h.made l heq

lemma Grown.refl (disk : Disk α) (start : Place) (cs : List Bytes) : Grown disk disk start cs :=
  ⟨rfl, fun _ hl => absurd rfl hl⟩

lemma grown_makeAll (disk : Disk α) (start : Place) (above cs : List Bytes) :
    Grown disk (disk.makeAll start above cs).1 start (above ++ cs) ∧
      (disk.makeAll start above cs).1.files.filled = disk.files.filled := by
  induction cs generalizing disk above with
  | nil => exact ⟨Grown.refl disk start _, rfl⟩
  | cons c cs ih =>
    have happend : above ++ c :: cs = above ++ [c] ++ cs := by rw [List.append_assoc, List.singleton_append]
    have hmade : ∀ r, r = (match disk.mkdir start (above ++ [c]) with
        | none => (disk, false)
        | some disk => makeAll disk start (above ++ [c]) cs) →
        Grown disk r.1 start (above ++ c :: cs) ∧ r.1.files.filled = disk.files.filled := by
      intro r hr
      cases hmkdir : disk.mkdir start (above ++ [c]) with
      | none =>
        rw [hr, hmkdir]
        exact ⟨Grown.refl disk start _, rfl⟩
      | some disk' =>
        rw [hr, hmkdir, happend]
        obtain ⟨hgrown, hfilled⟩ := grown_mkdir (List.prefix_append (above ++ [c]) cs) hmkdir
        obtain ⟨hgrown', hfilled'⟩ := ih disk' (above ++ [c])
        exact ⟨hgrown.trans hfilled hgrown', hfilled'.trans hfilled⟩
    rw [makeAll]
    split
    · split
      · rw [happend]
        exact ih disk (above ++ [c])
      · exact ⟨Grown.refl disk start _, rfl⟩
    · exact ⟨Grown.refl disk start _, rfl⟩
    · exact hmade _ rfl
    · exact hmade _ rfl

lemma Grown.mono {cs' : List Bytes} (h : Grown disk disk' start cs) (hcs : cs <+: cs') :
    Grown disk disk' start cs' := by
  refine ⟨h.current, fun l hl => ?_⟩
  obtain ⟨hne, hnone, q, hq, hleads⟩ := h.made l hl
  exact ⟨hne, hnone, q, hq.trans hcs, hleads⟩

lemma grown_createDirectories (disk : Disk α) (p : Bytes) :
    Grown disk (disk.createDirectories (Path.parentPath p)).1 (disk.start p) (route p) ∧
      (disk.createDirectories (Path.parentPath p)).1.files.filled = disk.files.filled := by
  rw [createDirectories]
  split
  · exact ⟨Grown.refl disk _ _, rfl⟩
  · rename_i hparent
    have hgrown := grown_makeAll disk (disk.start (Path.parentPath p)) [] (components (Path.parentPath p))
    have hstart : disk.start (Path.parentPath p) = disk.start p := by
      rw [start, start, Path.isAbsolute_parentPath hparent]
    rw [hstart] at hgrown ⊢
    exact ⟨hgrown.1.mono ((Path.components_parentPath p).trans (List.prefix_append _ _)), hgrown.2⟩

lemma grown_mkdir_components {p : Bytes} (h : disk.mkdir (disk.start p) (components p) = some disk') :
    Grown disk disk' (disk.start p) (route p) :=
  (grown_mkdir (List.prefix_refl _) h).1.mono (List.prefix_append _ _)

lemma grown_symlink {p target : Bytes} (h : disk.symlink target p = some disk') :
    Grown disk disk' (disk.start p) (route p) := by
  rw [symlink] at h
  split at h
  · cases h
  · split at h
    · rename_i d name hwalk
      obtain rfl := Option.some.inj h
      exact grown_put (List.prefix_refl _) hwalk
    all_goals cases h

/-- A new file, since none is there. -/
lemma grown_create {p : Bytes} {data : α} (hexists : disk.exists? p = some false)
    (h : disk.create p data = some disk') :
    Grown disk disk' (disk.start p) (route p) := by
  rw [exists?] at hexists
  rw [create] at h
  cases hlookup : disk.lookup p with
  | «at» place =>
    rw [hlookup] at hexists
    cases hexists
  | missing | failed =>
    rw [hlookup] at h
    cases h
  | absent d name =>
    rw [hlookup] at h
    obtain rfl := Option.some.inj h
    rw [lookup] at hlookup
    split at hlookup
    · cases hlookup
    · split at hlookup
      · cases hlookup
      · exact grown_put (List.prefix_refl _) hlookup

end Disk

end CppExperiments.FileSystem

import CppExperiments.Bitcask.FileEntry
import CppExperiments.Lib.Text
import Mathlib.Data.List.AList
import Mathlib.Data.List.Sort

/-!
# The store

The key directory over the cask files of a datastore directory, its recovery from the files, and merging. The order in
which the directory and the key directory are iterated and the readings of the clock are arguments; `logSize` is a
constant of two billion in the source, and an argument here, so that files can be rotated anywhere.
-/

namespace CppExperiments

namespace Bitcask

structure KeyDirValue where
  id : Nat
  vsize : Nat
  vpos : Nat
  tstamp : Nat
  deriving DecidableEq

abbrev KeyDir := AList (fun _ : Bytes => KeyDirValue)

/-- The files `cask.<id>`. -/
abbrev Casks := AList (fun _ : Nat => Bytes)

structure Directory where
  casks : Casks
  hint : Option Bytes

end Bitcask

structure Bitcask where
  disk : Bitcask.Directory
  keyDir : Bitcask.KeyDir
  currId : Nat

namespace Bitcask

def FileEntry.kd (e : FileEntry) (id : Nat) : KeyDirValue := ⟨id, e.vsz, e.vstart, e.tstamp⟩

namespace Casks

def content (casks : Casks) (id : Nat) : Bytes := (casks.lookup id).getD []

/-- A file opened for appending is created if it is not there. -/
def openApp (casks : Casks) (id : Nat) : Casks := casks.insert id (casks.content id)

def append (casks : Casks) (id : Nat) (bytes : Bytes) : Casks := casks.insert id (casks.content id ++ bytes)

/-- What is read where the value of a key should be; the string is zeros where the file has ended. -/
def readValue (casks : Casks) (kdVal : KeyDirValue) : Bytes :=
  let found := ((casks.content kdVal.id).drop kdVal.vpos).take kdVal.vsize
  found ++ zeros (kdVal.vsize - found.length)

def ensureLogSizeLimits (logSize : Nat) (casks : Casks) (currId : Nat) : Casks × Nat :=
  if (casks.content currId).length ≥ logSize then (casks.openApp ((currId + 1) % 2 ^ 32), (currId + 1) % 2 ^ 32)
  else (casks, currId)

end Casks

/-- What a record that was read does to the key directory. -/
def KeyDir.absorb (id : Nat) (keyDir : KeyDir) (newEntry : FileEntry) : KeyDir :=
  if newEntry.isTombstone then keyDir.erase newEntry.key
  else
    match keyDir.lookup newEntry.key with
    | none => keyDir.insert newEntry.key (newEntry.kd id)
    | some kdVal =>
      if kdVal.tstamp < newEntry.tstamp then keyDir.insert newEntry.key (newEntry.kd id) else keyDir

/-- The loop of `loadFromFile`; every turn takes at least the sixteen bytes of a header. -/
def loadLoop (id : Nat) : Nat → Nat → Bytes → KeyDir → KeyDir × Bool
  | 0, _, _, keyDir => (keyDir, false)
  | fuel + 1, pos, bytes, keyDir =>
    match FileEntry.read pos bytes with
    | .eof => (keyDir, true)
    | .invalid => (keyDir, false)
    | .entry newEntry rest => loadLoop id fuel (pos + 16 + newEntry.ksz + newEntry.vsz) rest (keyDir.absorb id newEntry)

def loadFromFile (logSize id : Nat) (bytes : Bytes) (keyDir : KeyDir) (currId : Nat) : KeyDir × Nat :=
  match loadLoop id (bytes.length + 1) 0 bytes keyDir with
  | (keyDir, true) => (keyDir, max currId (if bytes.length < logSize then id else (id + 1) % 2 ^ 32))
  | (keyDir, false) => (keyDir, currId)

/-- The loop of `loadFromHintFile`; every turn takes at least twenty bytes. The verdict at the end is only printed. -/
def loadHintLoop (entryCount : Nat) : Nat → Bytes → KeyDir → Nat → KeyDir × Nat
  | 0, _, keyDir, currId => (keyDir, currId)
  | fuel + 1, bytes, keyDir, currId =>
    if keyDir.keys.length < entryCount then
      if bytes.length < 20 then (keyDir, currId)
      else
        let tstamp := ofLeBytes (bytes.take 4)
        let id := ofLeBytes ((bytes.drop 4).take 4)
        let ksz := ofLeBytes ((bytes.drop 8).take 4)
        let vsz := ofLeBytes ((bytes.drop 12).take 4)
        let vpos := ofLeBytes ((bytes.drop 16).take 4)
        let body := bytes.drop 20
        if body.length < ksz then (keyDir, currId)
        else
          let key := body.take ksz
          loadHintLoop entryCount fuel (body.drop ksz)
            (if key ∈ keyDir then keyDir else keyDir.insert key ⟨id, vsz, vpos, tstamp⟩) (max currId id)
    else (keyDir, currId)

/-- A count of entries that is cut short is not determined; the loop is not entered then. -/
def loadFromHintFile (hint : Bytes) : KeyDir × Nat :=
  if hint.take 7 ≠ ascii "BITCASK" then (∅, 0)
  else if hint.length < 15 then (∅, 0)
  else loadHintLoop (ofLeBytes ((hint.drop 7).take 8)) hint.length (hint.drop 15) ∅ 0

/-- The cask files one after the other, in the order of the directory. -/
def loadCasks (logSize : Nat) (casks : Casks) : List Nat → KeyDir → Nat → KeyDir × Nat
  | [], keyDir, currId => (keyDir, currId)
  | id :: rest, keyDir, currId =>
    let (keyDir, currId) := loadFromFile logSize id (casks.content id) keyDir currId
    loadCasks logSize casks rest keyDir currId

/-- A new instance on a directory. -/
def load (logSize : Nat) (disk : Directory) (order : List Nat) : Bitcask :=
  let (keyDir, currId) :=
    match disk.hint with
    | some hint => loadFromHintFile hint
    | none => loadCasks logSize disk.casks order ∅ 0
  ⟨{ disk with casks := disk.casks.openApp currId }, keyDir, currId⟩

def get (s : Bitcask) (key : Bytes) : Option Bytes := (s.keyDir.lookup key).map s.disk.casks.readValue

/-- A record goes to the current file, which is rotated if it is full. -/
def append (logSize : Nat) (s : Bitcask) (bytes : Bytes) : Bitcask :=
  let (casks, currId) := (s.disk.casks.append s.currId bytes).ensureLogSizeLimits logSize s.currId
  { s with disk := { s.disk with casks := casks }, currId := currId }

def set (logSize now : Nat) (s : Bitcask) (key value : Bytes) : Bitcask :=
  let entry := FileEntry.create now key value (s.disk.casks.content s.currId).length
  ({ s with keyDir := s.keyDir.insert key (entry.kd s.currId) } : Bitcask).append logSize entry.write

def erase (logSize : Nat) (s : Bitcask) (key : Bytes) : Option Bytes × Bitcask :=
  let val := s.get key
  let s := s.append logSize (FileEntry.tombstone key).write
  (val, { s with keyDir := s.keyDir.erase key })

/-- What `merge` has written so far. -/
structure Merging where
  files : Casks
  currId : Nat
  keyDir : KeyDir
  entries : List (Nat × Bytes)

def Merging.start (keyDir : KeyDir) : Merging := ⟨Casks.openApp ∅ 0, 0, keyDir, []⟩

/-- One turn of the loop of `merge`, at a key, with the reading of the clock for its new record. -/
def mergeStep (logSize : Nat) (casks : Casks) (m : Merging) (key : Bytes) (now : Nat) : Option Merging := do
  let kdVal ← m.keyDir.lookup key
  let newEntry := FileEntry.create now key (casks.readValue kdVal) (m.files.content m.currId).length
  let kdVal := newEntry.kd m.currId
  let (files, currId) := (m.files.append m.currId newEntry.write).ensureLogSizeLimits logSize m.currId
  return ⟨files, currId, m.keyDir.insert key kdVal, m.entries ++ [(kdVal.tstamp, key)]⟩

def mergeLoop (logSize : Nat) (casks : Casks) : List (Bytes × Nat) → Merging → Option Merging
  | [], m => some m
  | (key, now) :: rest, m => do
    let m ← mergeStep logSize casks m key now
    mergeLoop logSize casks rest m

/-- The order of the pairs of a timestamp and a key. -/
def EntryLe (a b : Nat × Bytes) : Prop := a.1 < b.1 ∨ a.1 = b.1 ∧ a.2 ≤ b.2

instance : DecidableRel EntryLe := fun a b => by
  unfold EntryLe
  infer_instance

def hintEntry (key : Bytes) (kdVal : KeyDirValue) : Bytes :=
  leBytes 4 kdVal.tstamp ++ leBytes 4 kdVal.id ++ leBytes 4 (key.length % 2 ^ 32) ++ leBytes 4 kdVal.vsize ++
    leBytes 4 kdVal.vpos ++ key

/-- What `merge` adds to the hint file. -/
def hintBlock (m : Merging) : Bytes :=
  ascii "BITCASK" ++ leBytes 8 m.keyDir.keys.length ++
    (m.entries.insertionSort EntryLe).flatMap
      (fun entry => hintEntry entry.2 ((m.keyDir.lookup entry.2).getD ⟨0, 0, 0, 0⟩))

/-- The merged files take the place of cask files. -/
def renameMerged (files : Casks) (currId : Nat) (casks : Casks) : Casks :=
  (List.range (currId + 1)).foldl (fun casks id => casks.insert id (files.content id)) casks

/-- `entries` are the keys in the order of the key directory, with the readings of the clock. -/
def merge (logSize : Nat) (entries : List (Bytes × Nat)) (s : Bitcask) : Option Bitcask :=
  if (entries.map Prod.fst).Perm s.keyDir.keys then do
    let m ← mergeLoop logSize s.disk.casks entries (Merging.start s.keyDir)
    return ⟨⟨renameMerged m.files m.currId s.disk.casks, some (s.disk.hint.getD [] ++ hintBlock m)⟩, m.keyDir, m.currId⟩
  else none

/-- A write, with the reading of the clock. -/
inductive Write where
  | set (key value : Bytes) (now : Nat)
  | erase (key : Bytes)
  deriving DecidableEq

inductive Command where
  | write (w : Write)
  | merge (entries : List (Bytes × Nat))

def write (logSize : Nat) (s : Bitcask) : Write → Bitcask
  | .set key value now => s.set logSize now key value
  | .erase key => (s.erase logSize key).2

/-- Writes one after the other, each with the limit in force. -/
def writes (s : Bitcask) : List (Write × Nat) → Bitcask
  | [] => s
  | (w, logSize) :: rest => writes (s.write logSize w) rest

def step (logSize : Nat) (s : Bitcask) : Command → Option Bitcask
  | .write w => some (s.write logSize w)
  | .merge entries => s.merge logSize entries

def run (s : Bitcask) : List (Command × Nat) → Option Bitcask
  | [] => some s
  | (command, logSize) :: rest => do
    let s ← s.step logSize command
    s.run rest

/-- An instance on an empty directory. -/
def create : Bitcask := load 0 ⟨∅, none⟩ []

end Bitcask

end CppExperiments

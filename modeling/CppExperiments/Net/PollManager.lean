import CppExperiments.Lib.Runs
import Mathlib.Data.List.Nodup
import Mathlib.Data.List.Basic

/-!
# The poll manager

Sockets in a map, with a vector for `poll` beside it. A socket that was closed stays in both until the next poll, while
its descriptor can already be that of another one.
-/

namespace CppExperiments.Net

/-! ## The code -/

/-- Which socket it is, and its descriptor, which is -1 if it was closed. -/
structure Socket where
  id : Nat
  fd : Int
  deriving DecidableEq

structure PollFd where
  fd : Int
  events : Nat
  deriving DecidableEq

/-- `EventType`: 1 for readable, 2 for writable, 4 for closed and 8 for an error. -/
abbrev EventType := Nat

/-- `POLLIN` and `POLLOUT` -/
def eventInt (event : EventType) : Nat := (if event.testBit 0 then 1 else 0) ||| if event.testBit 1 then 4 else 0

/-- What is reported of `POLLIN`, `POLLOUT`, `POLLHUP`, and `POLLERR` or `POLLNVAL`. -/
def eventOf (revents : Nat) : EventType :=
  (if revents.testBit 0 then 1 else 0) ||| (if revents.testBit 2 then 2 else 0) |||
    (if revents.testBit 4 then 4 else 0) |||
    if revents.testBit 3 ∨ revents.testBit 5 then 8 else 0

/-- The map of sockets by their descriptors. -/
abbrev Sockets := List (Int × Socket)

def Sockets.erase (sockets : Sockets) (fd : Int) : Sockets := sockets.filter fun entry => entry.1 ≠ fd

/-- A key that is there keeps its socket, and the new one is lost. -/
def Sockets.emplace (sockets : Sockets) (socket : Socket) : Sockets :=
  if (sockets.lookup socket.fd).isSome then sockets else sockets ++ [(socket.fd, socket)]

structure PollManager where
  pollFds : List PollFd := []
  sockets : Sockets := []

namespace PollManager

def hasSocket (m : PollManager) (fd : Int) : Bool := (m.sockets.lookup fd).isSome

def untrack (m : PollManager) (fd : Int) : PollManager :=
  if m.hasSocket fd then ⟨m.pollFds.filter fun p => p.fd ≠ fd, m.sockets.erase fd⟩ else m

def track (m : PollManager) (socket : Socket) (event : EventType) : PollManager :=
  ⟨m.pollFds ++ [⟨socket.fd, eventInt event⟩], m.sockets.emplace socket⟩

/-- The first entry of the descriptor is changed; `none` where the code throws. -/
def updateTracking (m : PollManager) (fd : Int) (event : EventType) : Option PollManager :=
  if m.hasSocket fd then
    some { m with pollFds := m.pollFds.modify (m.pollFds.findIdx fun p => p.fd == fd) fun p => { p with events := eventInt event } }
  else none

/-- The loop over the entries, of which the first is the entry `i`. It throws with the sockets that are left then. -/
def sweep (revents : Nat → Nat) (i : Nat) :
    List PollFd → Sockets → Except Sockets (Sockets × List PollFd × List (Socket × EventType))
  | [], sockets => .ok (sockets, [], [])
  | pollFd :: rest, sockets =>
    match sockets.lookup pollFd.fd with
    | none => .error sockets
    | some socket =>
      if socket.fd = -1 then sweep revents (i + 1) rest (sockets.erase pollFd.fd)
      else do
        let (sockets, cleaned, result) ← sweep revents (i + 1) rest sockets
        return (sockets, pollFd :: cleaned,
          if eventOf (revents i) ≠ 0 then (socket, eventOf (revents i)) :: result else result)

/-- A poll that did not fail, with what is ready in every entry. -/
def poll (m : PollManager) (revents : Nat → Nat) : Except PollManager (PollManager × List (Socket × EventType)) :=
  match sweep revents 0 m.pollFds m.sockets with
  | .error sockets => .error { m with sockets := sockets }
  | .ok (sockets, cleaned, result) => .ok (⟨cleaned, sockets⟩, result)

/-- `recv` at the end of the stream. -/
def close (m : PollManager) (fd : Int) : PollManager :=
  { m with sockets := m.sockets.map fun entry => if entry.1 = fd then (entry.1, { entry.2 with fd := -1 }) else entry }

end PollManager

/-! ## Runs -/

/-- A manager, the sockets that were given to it and neither closed nor untracked since, and the events last requested
for every descriptor. -/
structure Polling where
  manager : PollManager := {}
  live : List Socket := []
  requested : Int → Nat := fun _ => 0

inductive PollCall where
  | track (socket : Socket) (event : EventType)
  | updateTracking (fd : Int) (event : EventType)
  | untrack (fd : Int)
  | poll (revents : Nat → Nat)
  | pollFailed
  | recvEnd (fd : Int)

namespace Polling

def request (s : Polling) (fd : Int) (event : EventType) : Int → Nat :=
  fun k => if k = fd then eventInt event else s.requested k

/-- `none` for what cannot happen: a new socket with a descriptor that is open, and the end of a stream that is not
held. -/
def step (s : Polling) : PollCall → Option Polling
  | .track socket event =>
    if 0 ≤ socket.fd ∧ ∀ entry ∈ s.manager.sockets, entry.2.fd ≠ socket.fd then
      some ⟨s.manager.track socket event, socket :: s.live, s.request socket.fd event⟩
    else none
  | .updateTracking fd event =>
    match s.manager.updateTracking fd event with
    | some m => some ⟨m, s.live, s.request fd event⟩
    | none => some s
  | .untrack fd => some { s with manager := s.manager.untrack fd, live := s.live.filter fun socket => socket.fd ≠ fd }
  | .poll revents =>
    match s.manager.poll revents with
    | .ok (m, _) => some { s with manager := m }
    | .error m => some { s with manager := m }
  | .pollFailed => some s
  | .recvEnd fd =>
    if (s.manager.sockets.lookup fd).any fun socket => socket.fd ≠ -1 then
      some { s with manager := s.manager.close fd, live := s.live.filter fun socket => socket.fd ≠ fd }
    else none

/-- The vector and the map agree, every socket is held as it should be, and a poll finds all that it looks for. -/
structure Consistent (s : Polling) : Prop where
  nodup : (s.manager.pollFds.map PollFd.fd).Nodup
  keys : ∀ fd, fd ∈ s.manager.pollFds.map PollFd.fd ↔ s.manager.hasSocket fd = true
  events : ∀ p ∈ s.manager.pollFds, p.events = s.requested p.fd
  held : ∀ socket ∈ s.live, s.manager.sockets.lookup socket.fd = some socket
  polls : ∀ revents, ∃ m result, s.manager.poll revents = .ok (m, result)

/-- No socket is tracked whose descriptor is that of a closed one that was not swept out yet. -/
def Swept (s : Polling) : PollCall → Prop
  | .track socket _ => s.manager.hasSocket socket.fd = false
  | .updateTracking _ _ | .untrack _ | .poll _ | .pollFailed | .recvEnd _ => True

end Polling

/-! ## Lookups -/

variable {sockets : Sockets} {socket : Socket} {fd k : Int} {m : PollManager} {event : EventType} {revents : Nat → Nat}

lemma lookup_erase (sockets : Sockets) (fd k : Int) :
    (sockets.erase fd).lookup k = if k = fd then none else sockets.lookup k := by
  induction sockets with
  | nil => simp [Sockets.erase]
  | cons entry sockets ih =>
    rw [Sockets.erase] at ih ⊢
    obtain ⟨key, socket⟩ := entry
    by_cases hkey : key = fd
    · rw [List.filter_cons_of_neg (by simpa using hkey), ih, List.lookup_cons]
      by_cases hk : k = fd
      · rw [if_pos hk, if_pos hk]
      · rw [if_neg hk, if_neg hk, beq_eq_false_iff_ne.2 (fun h => hk (h.trans hkey))]
    · rw [List.filter_cons_of_pos (by simpa using hkey), List.lookup_cons, List.lookup_cons]
      by_cases hk : k = key
      · rw [beq_iff_eq.2 hk, if_neg (fun h => hkey (hk.symm.trans h))]
      · rw [beq_eq_false_iff_ne.2 hk]
        exact ih

lemma lookup_emplace (h : sockets.lookup socket.fd = none) :
    (sockets.emplace socket).lookup k = if k = socket.fd then some socket else sockets.lookup k := by
  rw [Sockets.emplace, h, if_neg (by decide), List.lookup_append]
  by_cases hk : k = socket.fd
  · rw [if_pos hk, hk, h, List.lookup_cons_self]
    rfl
  · rw [if_neg hk, List.lookup_cons, beq_eq_false_iff_ne.2 hk]
    exact Option.or_none

lemma lookup_close (m : PollManager) (fd k : Int) : (m.close fd).sockets.lookup k =
    if k = fd then (m.sockets.lookup k).map (fun socket => { socket with fd := -1 }) else m.sockets.lookup k := by
  obtain ⟨pollFds, sockets⟩ := m
  rw [PollManager.close]
  dsimp only
  induction sockets with
  | nil => simp
  | cons entry sockets ih =>
    obtain ⟨key, socket⟩ := entry
    rw [List.map_cons]
    by_cases hk : k = key
    · subst hk
      by_cases hfd : k = fd
      · rw [if_pos hfd, if_pos hfd, List.lookup_cons_self, List.lookup_cons_self, Option.map_some]
      · rw [if_neg hfd, if_neg hfd, List.lookup_cons_self, List.lookup_cons_self]
    · have hskip : List.lookup k ((key, socket) :: sockets) = List.lookup k sockets := by
        rw [List.lookup_cons, beq_eq_false_iff_ne.2 hk]
      rw [hskip]
      refine Eq.trans ?_ ih
      split
      · dsimp only
        rw [List.lookup_cons, beq_eq_false_iff_ne.2 hk]
      · rw [List.lookup_cons, beq_eq_false_iff_ne.2 hk]

/-! ## Calls -/

/-- The invariant of the runs: a socket in the map has its key for a descriptor, or it was closed. -/
structure Polling.Sound (s : Polling) : Prop where
  nodup : (s.manager.pollFds.map PollFd.fd).Nodup
  keys : ∀ fd, fd ∈ s.manager.pollFds.map PollFd.fd ↔ s.manager.hasSocket fd = true
  events : ∀ p ∈ s.manager.pollFds, p.events = s.requested p.fd
  held : ∀ socket ∈ s.live, s.manager.sockets.lookup socket.fd = some socket
  opened : ∀ socket ∈ s.live, 0 ≤ socket.fd

/-- A sweep over different entries that are all in the map takes out the closed ones. -/
lemma sweep_eq (revents : Nat → Nat) (i : Nat) {pollFds : List PollFd} (sockets : Sockets)
    (hnodup : (pollFds.map PollFd.fd).Nodup)
    (hkeys : ∀ p ∈ pollFds, (sockets.lookup p.fd).isSome) :
    ∃ sockets' cleaned result, PollManager.sweep revents i pollFds sockets = .ok (sockets', cleaned, result) ∧
      cleaned = (pollFds.filter fun p => (sockets.lookup p.fd).all fun socket => socket.fd ≠ -1) ∧
      ∀ k, sockets'.lookup k = if k ∈ pollFds.map PollFd.fd ∧
        (sockets.lookup k).any (fun socket => socket.fd = -1) then none
        else sockets.lookup k := by
  induction pollFds generalizing sockets i with
  | nil => exact ⟨sockets, [], [], rfl, rfl, fun k => by simp⟩
  | cons p rest ih =>
    rw [List.map_cons, List.nodup_cons] at hnodup
    rw [List.forall_mem_cons] at hkeys
    obtain ⟨socket, hsocket⟩ := Option.isSome_iff_exists.1 hkeys.1
    by_cases hclosed : socket.fd = -1
    · have hsame : ∀ q ∈ rest, (sockets.erase p.fd).lookup q.fd = sockets.lookup q.fd := by
        intro q hq
        rw [lookup_erase, if_neg]
        exact fun heq => hnodup.1 (heq ▸ List.mem_map_of_mem hq)
      obtain ⟨sockets', cleaned, result, hsweep, hcleaned, hlookup⟩ := ih (i + 1) (sockets.erase p.fd) hnodup.2
        (fun q hq => by rw [hsame q hq]; exact hkeys.2 q hq)
      refine ⟨sockets', cleaned, result, ?_, ?_, fun k => ?_⟩
      · rw [PollManager.sweep, hsocket]
        exact (if_pos hclosed).trans hsweep
      · rw [List.filter_cons_of_neg (by rw [hsocket]; simpa using hclosed), hcleaned]
        exact List.filter_congr fun q hq => by rw [hsame q hq]
      · rw [hlookup, lookup_erase]
        by_cases hk : k = p.fd
        · subst hk
          simp [hsocket, hclosed]
        · simp only [List.map_cons, List.mem_cons, hk, false_or, if_false]
    · obtain ⟨sockets', cleaned, result, hsweep, hcleaned, hlookup⟩ := ih (i + 1) sockets hnodup.2 hkeys.2
      refine ⟨sockets', p :: cleaned,
        if eventOf (revents i) ≠ 0 then (socket, eventOf (revents i)) :: result else result,
        ?_, ?_, fun k => ?_⟩
      · rw [PollManager.sweep, hsocket]
        exact (if_neg hclosed).trans (by rw [hsweep]; rfl)
      · rw [List.filter_cons_of_pos (by rw [hsocket]; simpa using hclosed), hcleaned]
      · rw [hlookup]
        by_cases hk : k = p.fd
        · subst hk
          simp [hsocket, hclosed]
        · simp only [List.map_cons, List.mem_cons, hk, false_or]

lemma modify_findIdx_cons (p : PollFd) (rest : List PollFd) (fd : Int) (f : PollFd → PollFd) :
    (p :: rest).modify ((p :: rest).findIdx fun p => p.fd == fd) f =
      if p.fd = fd then f p :: rest else p :: rest.modify (rest.findIdx fun p => p.fd == fd) f := by
  rw [List.findIdx_cons]
  by_cases hp : p.fd = fd
  · rw [if_pos hp, beq_iff_eq.2 hp, cond_true, List.modify_zero_cons]
  · rw [if_neg hp, beq_eq_false_iff_ne.2 hp, cond_false, List.modify_succ_cons]

/-- Other events for the only entry of a descriptor. -/
lemma modify_findIdx (pollFds : List PollFd) (hnodup : (pollFds.map PollFd.fd).Nodup) (fd : Int) (events : Nat) :
    (pollFds.modify (pollFds.findIdx fun p => p.fd == fd) fun p => { p with events := events }) =
      pollFds.map fun p => if p.fd = fd then { p with events := events } else p := by
  induction pollFds with
  | nil => rfl
  | cons p rest ih =>
    rw [List.map_cons, List.nodup_cons] at hnodup
    rw [modify_findIdx_cons, List.map_cons]
    by_cases hp : p.fd = fd
    · rw [if_pos hp, if_pos hp]
      refine congrArg _ (Eq.trans (List.map_congr_left fun q hq => ?_) (List.map_id rest)).symm
      refine if_neg (fun heq => hnodup.1 (List.mem_map.2 ⟨q, hq, ?_⟩))
      rw [heq, hp]
    · rw [if_neg hp, if_neg hp, ih hnodup.2]

namespace Polling

variable {s s' : Polling}

lemma Sound.consistent (h : s.Sound) : s.Consistent := by
  refine ⟨h.nodup, h.keys, h.events, h.held, fun revents => ?_⟩
  obtain ⟨sockets', cleaned, result, hsweep, -⟩ := sweep_eq revents 0 s.manager.sockets h.nodup
    (fun p hp => (h.keys p.fd).1 (List.mem_map_of_mem hp))
  exact ⟨⟨cleaned, sockets'⟩, result, by rw [PollManager.poll, hsweep]⟩

lemma Sound.track (h : s.Sound) (hopen : 0 ≤ socket.fd) (hnew : s.manager.hasSocket socket.fd = false) :
    Sound ⟨s.manager.track socket event, socket :: s.live, s.request socket.fd event⟩ := by
  have hnone : s.manager.sockets.lookup socket.fd = none := by
    rw [PollManager.hasSocket, Option.isSome_eq_false_iff, Option.isNone_iff_eq_none] at hnew
    exact hnew
  have hfresh : socket.fd ∉ s.manager.pollFds.map PollFd.fd := by
    rw [h.keys, hnew]
    decide
  refine ⟨?_, fun fd => ?_, fun p hp => ?_, fun other hother => ?_, List.forall_mem_cons.2 ⟨hopen, h.opened⟩⟩
  · rw [PollManager.track, List.map_append, List.map_singleton]
    refine List.nodup_append.2 ⟨h.nodup, List.nodup_singleton _, fun a ha b hb heq => hfresh ?_⟩
    rwa [heq, List.mem_singleton.1 hb] at ha
  · rw [PollManager.track, PollManager.hasSocket, lookup_emplace hnone, List.map_append, List.map_singleton,
      List.mem_append, List.mem_singleton, h.keys, PollManager.hasSocket]
    by_cases hfd : fd = socket.fd
    · simp [hfd]
    · simp [hfd]
  · rcases List.mem_append.1 hp with hp | hp
    · have hne : p.fd ≠ socket.fd := fun heq => hfresh (heq ▸ List.mem_map_of_mem hp)
      exact (h.events p hp).trans (if_neg hne).symm
    · obtain rfl := List.mem_singleton.1 hp
      exact (if_pos rfl).symm
  · rw [PollManager.track, lookup_emplace hnone]
    rcases List.mem_cons.1 hother with rfl | hother
    · exact if_pos rfl
    · have hheld := h.held other hother
      have hne : other.fd ≠ socket.fd := by
        intro heq
        rw [heq, hnone] at hheld
        cases hheld
      rw [if_neg hne, hheld]

lemma Sound.updateTracking (h : s.Sound) (hm : s.manager.updateTracking fd event = some m) :
    Sound ⟨m, s.live, s.request fd event⟩ := by
  rw [PollManager.updateTracking, modify_findIdx _ h.nodup] at hm
  split at hm
  case isFalse => cases hm
  case isTrue hhas =>
    obtain rfl := Option.some.inj hm
    have hmap : (s.manager.pollFds.map fun p => if p.fd = fd then { p with events := eventInt event } else p).map
      PollFd.fd =
        s.manager.pollFds.map PollFd.fd := by
      rw [List.map_map]
      refine List.map_congr_left fun p _ => ?_
      rw [Function.comp_apply]
      split <;> rfl
    refine ⟨?_, fun k => ?_, fun p hp => ?_, h.held, h.opened⟩
    · dsimp only
      rw [hmap]
      exact h.nodup
    · dsimp only
      rw [hmap]
      exact h.keys k
    · obtain ⟨q, hq, rfl⟩ := List.mem_map.1 hp
      dsimp only
      rw [request]
      by_cases hfd : q.fd = fd
      · rw [if_pos hfd]
        exact (if_pos hfd).symm
      · rw [if_neg hfd, if_neg hfd]
        exact h.events q hq

lemma Sound.untrack (h : s.Sound) (fd : Int) :
    Sound { s with manager := s.manager.untrack fd, live := s.live.filter fun socket => socket.fd ≠ fd } := by
  have hopened : ∀ socket ∈ s.live.filter fun socket => socket.fd ≠ fd, 0 ≤ socket.fd :=
    fun socket hsocket => h.opened socket (List.mem_of_mem_filter hsocket)
  rw [PollManager.untrack]
  by_cases hhas : s.manager.hasSocket fd = true
  · rw [if_pos hhas]
    have hmap : (s.manager.pollFds.filter fun p => p.fd ≠ fd).map PollFd.fd =
        (s.manager.pollFds.map PollFd.fd).filter fun k => k ≠ fd := by
      rw [List.filter_map]
      rfl
    refine ⟨?_, fun k => ?_, fun p hp => h.events p (List.mem_of_mem_filter hp), fun socket hsocket => ?_, hopened⟩
    · dsimp only
      rw [hmap]
      exact h.nodup.filter _
    · dsimp only
      rw [hmap, List.mem_filter, h.keys, PollManager.hasSocket, PollManager.hasSocket, lookup_erase]
      by_cases hk : k = fd
      · simp [hk]
      · simp [hk]
    · obtain ⟨hmem, hne⟩ := List.mem_filter.1 hsocket
      dsimp only
      rw [lookup_erase, if_neg (by simpa using hne)]
      exact h.held socket hmem
  · rw [if_neg hhas]
    exact ⟨h.nodup, h.keys, h.events, fun socket hsocket => h.held socket (List.mem_of_mem_filter hsocket), hopened⟩

lemma Sound.poll (h : s.Sound) {result : List (Socket × EventType)} (hm : s.manager.poll revents = .ok (m, result)) :
    Sound { s with manager := m } := by
  obtain ⟨sockets', cleaned, result', hsweep, hcleaned, hlookup⟩ := sweep_eq revents 0 s.manager.sockets h.nodup
    (fun p hp => (h.keys p.fd).1 (List.mem_map_of_mem hp))
  rw [PollManager.poll, hsweep] at hm
  obtain ⟨rfl, -⟩ := Prod.mk.inj (Except.ok.inj hm)
  refine ⟨?_, fun k => ?_, fun p hp => ?_, fun socket hsocket => ?_, h.opened⟩
  · dsimp only
    rw [hcleaned]
    exact h.nodup.sublist (List.filter_sublist.map _)
  · dsimp only
    have hkey : k ∈ s.manager.pollFds.map PollFd.fd ↔ ∃ socket, s.manager.sockets.lookup k = some socket :=
      (h.keys k).trans Option.isSome_iff_exists
    rw [hcleaned, PollManager.hasSocket, hlookup, List.mem_map]
    constructor
    · rintro ⟨p, hp, rfl⟩
      obtain ⟨hp, hall⟩ := List.mem_filter.1 hp
      obtain ⟨socket, hsocket⟩ := hkey.1 (List.mem_map_of_mem hp)
      rw [hsocket, Option.all_some, decide_eq_true_iff] at hall
      rw [hsocket, if_neg fun hboth => hall (of_decide_eq_true hboth.2)]
      rfl
    · intro hsome
      split at hsome
      · cases hsome
      · rename_i hclosed
        have hmem := hkey.2 (Option.isSome_iff_exists.1 hsome)
        obtain ⟨p, hp, rfl⟩ := List.mem_map.1 hmem
        obtain ⟨socket, hsocket⟩ := hkey.1 hmem
        rw [hsocket] at hclosed
        refine ⟨p, List.mem_filter.2 ⟨hp, ?_⟩, rfl⟩
        rw [hsocket, Option.all_some, decide_eq_true_iff]
        exact fun heq => hclosed ⟨hmem, decide_eq_true heq⟩
  · rw [hcleaned] at hp
    exact h.events p (List.mem_of_mem_filter hp)
  · dsimp only
    have hopen := h.opened socket hsocket
    rw [hlookup, h.held socket hsocket, if_neg]
    rintro ⟨-, hclosed⟩
    rw [Option.any_some, decide_eq_true_iff] at hclosed
    omega

lemma Sound.close (h : s.Sound) (fd : Int) :
    Sound { s with manager := s.manager.close fd, live := s.live.filter fun socket => socket.fd ≠ fd } := by
  refine ⟨h.nodup, fun k => ?_, h.events, fun socket hsocket => ?_,
    fun socket hsocket => h.opened socket (List.mem_of_mem_filter hsocket)⟩
  · refine (h.keys k).trans ?_
    dsimp only
    rw [PollManager.hasSocket, PollManager.hasSocket, lookup_close]
    split
    · rw [Option.isSome_map]
    · rfl
  · obtain ⟨hmem, hne⟩ := List.mem_filter.1 hsocket
    dsimp only
    rw [lookup_close, if_neg (by simpa using hne)]
    exact h.held socket hmem

/-- Tracked beside a closed socket that was not swept out, a socket gets a second entry and is not held. -/
lemma not_consistent_track (h : s.Sound) (hold : s.manager.hasSocket socket.fd = true) :
    ¬ Consistent ⟨s.manager.track socket event, socket :: s.live, s.request socket.fd event⟩ := by
  intro hcons
  have hnodup := hcons.nodup
  rw [PollManager.track, List.map_append, List.nodup_append] at hnodup
  exact hnodup.2.2 _ ((h.keys _).2 hold) _ (List.mem_singleton_self _) rfl

/-- The manager is consistent throughout a run exactly if every poll that is needed comes in time: no socket is tracked
whose descriptor is that of a closed one that was not swept out yet. -/
theorem forall_consistent_iff (events : List PollCall) :
    (∀ t ∈ visits step {} events, t.Consistent) ↔ Along step Swept {} events := by
  refine forall_visits_iff (Q := fun _ => True) (I := Sound) (fun s h => h.consistent) ?_ ?_ (fun _ _ => trivial)
    ⟨List.nodup_nil, by simp [PollManager.hasSocket], by simp, by simp, by simp⟩
  · intro s call s' _ h hswept hstep
    cases call with
    | track socket event =>
      obtain ⟨hopen, hs⟩ := Option.ite_none_right_eq_some.1 hstep
      obtain rfl := Option.some.inj hs
      exact h.track hopen.1 hswept
    | updateTracking fd event =>
      rw [step] at hstep
      split at hstep
      case h_1 m hm =>
        obtain rfl := Option.some.inj hstep
        exact h.updateTracking hm
      case h_2 =>
        obtain rfl := Option.some.inj hstep
        exact h
    | untrack fd =>
      obtain rfl := Option.some.inj hstep
      exact h.untrack fd
    | poll revents =>
      obtain ⟨m, result, hm⟩ := h.consistent.polls revents
      rw [step, hm] at hstep
      obtain rfl := Option.some.inj hstep
      exact h.poll hm
    | pollFailed =>
      obtain rfl := Option.some.inj hstep
      exact h
    | recvEnd fd =>
      obtain ⟨-, hs⟩ := Option.ite_none_right_eq_some.1 hstep
      obtain rfl := Option.some.inj hs
      exact h.close fd
  · intro s call s' _ h hswept hstep
    cases call with
    | track socket event =>
      obtain ⟨-, hs⟩ := Option.ite_none_right_eq_some.1 hstep
      obtain rfl := Option.some.inj hs
      exact not_consistent_track h (Bool.not_eq_false _ ▸ hswept)
    | updateTracking _ _ | untrack _ | poll _ | pollFailed | recvEnd _ => exact absurd trivial hswept

/-- A client leaves, the next one gets its descriptor before the poll: the poll after that throws. -/
theorem not_forall_consistent : ¬ ∀ events, ∀ t ∈ visits step {} events, t.Consistent := by
  intro h
  have hlast := h [.track ⟨0, 5⟩ 3, .recvEnd 5, .track ⟨1, 5⟩ 3] _ (List.mem_of_getElem? (i := 3) rfl)
  exact absurd hlast.nodup (by decide)

end Polling

end CppExperiments.Net

import Mathlib.Algebra.Ring.Int.Defs
import Mathlib.Algebra.Ring.Nat
import Mathlib.Data.List.Perm.Basic
import Mathlib.Tactic.Cases

/-!
# The thread pool

The workers of a pool as the steps between which others may come, in any order, and what becomes of the tasks. The
destructor sets its flag and notifies without the lock, so it may come between the look of a worker at its predicate and
its blocking.
-/

open List (Perm)

namespace CppExperiments.Misc

inductive ExitPolicy where
  | ALL_TASKS_COMPLETE
  | CURRENT_TASK_COMPLETE
  deriving DecidableEq

/-- A worker is at the top of its loop, has found nothing to wake up for and still has the lock, is blocked, has a task,
has run its task, or has returned. -/
inductive Worker (τ : Type) where
  | waiting
  | locking
  | blocked
  | running (task : τ)
  | finished
  | returned

namespace Worker

variable {τ : Type}

def isLocking : Worker τ → Bool
  | locking => true
  | waiting | blocked | running _ | finished | returned => false

def isBlocked : Worker τ → Bool
  | blocked => true
  | waiting | locking | running _ | finished | returned => false

/-- A blocked worker goes back to the top of its loop when it is notified. -/
def notified : Worker τ → Worker τ
  | blocked => waiting
  | w => w

end Worker

/-- A pool, with the tasks that have been enqueued and those that have been run, and whether the destructor has
notified the workers. -/
structure ThreadPool (τ : Type) where
  epolicy : ExitPolicy
  workers : List (Worker τ)
  tasks : List τ := []
  exitCondition : Bool := false
  notified : Bool := false
  activeTasks : Int := 0
  enqueued : List τ := []
  executed : List τ := []

namespace ThreadPool

variable {τ : Type}

/-- What the outside does, and the steps of worker `i`. Of the blocked workers `enqueue` notifies number `i`, and `wake`
wakes one for no reason. -/
inductive Action (τ : Type) where
  | enqueue (task : τ) (i : Nat)
  | exit
  | notify
  | wake (i : Nat)
  | turn (i : Nat)
  | block (i : Nat)
  | execute (i : Nat)
  | finish (i : Nat)

def start (N_WORKERS : Nat) (policy : ExitPolicy) : ThreadPool τ where
  epolicy := policy
  workers := List.replicate N_WORKERS .waiting

/-- No worker has the lock between two steps. -/
def free (s : ThreadPool τ) : Bool := s.workers.all fun w => !w.isLocking

/-- `tasksCV.notify_one()` -/
def notifyOne (s : ThreadPool τ) (i : Nat) : Option (List (Worker τ)) :=
  if s.workers.any Worker.isBlocked then
    match s.workers[i]? with
    | some .blocked => some (s.workers.set i .waiting)
    | _ => none
  else some s.workers

/-- A worker that gets the lock looks at its predicate, and at the condition and the tasks behind it. -/
def turn (s : ThreadPool τ) (i : Nat) : ThreadPool τ :=
  if s.exitCondition = true then
    if s.epolicy = .CURRENT_TASK_COMPLETE then { s with workers := s.workers.set i .returned }
    else if s.epolicy = .ALL_TASKS_COMPLETE ∧ s.tasks = [] then { s with workers := s.workers.set i .returned }
    else s
  else
    match s.tasks with
    | [] => { s with workers := s.workers.set i .locking }
    | task :: tasks => { s with
        tasks := tasks
        activeTasks := s.activeTasks + 1
        workers := s.workers.set i (.running task) }

/-- `none` for what cannot come next. -/
def step (s : ThreadPool τ) : Action τ → Option (ThreadPool τ)
  | .enqueue task i =>
    if s.free then (s.notifyOne i).map fun workers => { s with
      tasks := s.tasks ++ [task]
      enqueued := s.enqueued ++ [task]
      workers := workers }
    else none
  | .exit => some { s with exitCondition := true }
  | .notify =>
    if s.exitCondition = true then some { s with notified := true, workers := s.workers.map Worker.notified } else none
  | .wake i =>
    match s.workers[i]? with
    | some .blocked => some { s with workers := s.workers.set i .waiting }
    | _ => none
  | .turn i =>
    match s.workers[i]? with
    | some .waiting => if s.free then some (s.turn i) else none
    | _ => none
  | .block i =>
    match s.workers[i]? with
    | some .locking => some { s with workers := s.workers.set i .blocked }
    | _ => none
  | .execute i =>
    match s.workers[i]? with
    | some (.running task) => some { s with executed := s.executed ++ [task], workers := s.workers.set i .finished }
    | _ => none
  | .finish i =>
    match s.workers[i]? with
    | some .finished =>
      if s.free then some { s with activeTasks := s.activeTasks - 1, workers := s.workers.set i .waiting } else none
    | _ => none

def run (s : ThreadPool τ) (actions : List (Action τ)) : Option (ThreadPool τ) := actions.foldlM step s

/-- What `wait` waits for. -/
def Idle (s : ThreadPool τ) : Prop := s.tasks = [] ∧ s.activeTasks = 0

/-! ## Where the tasks are -/

/-- The task that a worker has taken and not yet run. -/
def taken : Worker τ → List τ
  | .running task => [task]
  | .waiting | .locking | .blocked | .finished | .returned => []

/-- The steps that a worker can make before it blocks or returns, one more for blocking than for having returned. -/
def toDo : Worker τ → Nat
  | .returned => 0
  | .blocked => 1
  | .locking => 2
  | .waiting => 3
  | .finished => 4
  | .running _ => 5

def busy : Worker τ → Int
  | .running _ | .finished => 1
  | .waiting | .locking | .blocked | .returned => 0

/-- All the steps before the workers, if nothing more is enqueued and nobody is woken. -/
def work (s : ThreadPool τ) : Nat := 3 * s.tasks.length + (s.workers.map toDo).sum

/-- The exit condition is set when no task is pending, and no task comes after it. The destructor does not notify while
a worker that has found nothing to wake up for has not blocked. -/
def Allowed (s : ThreadPool τ) : Action τ → Prop
  | .exit => s.tasks = []
  | .enqueue _ _ => s.exitCondition = false
  | .notify => s.free = true
  | .wake _ | .turn _ | .block _ | .execute _ | .finish _ => True

/-- All the actions are allowed where they come. -/
def AllAllowed (s : ThreadPool τ) : List (Action τ) → Prop
  | [] => True
  | a :: actions => s.Allowed a ∧ ∀ s', s.step a = some s' → s'.AllAllowed actions

/-- The step is one of this worker. -/
def IsStepOf (i : Nat) : Action τ → Prop
  | .turn j | .block j | .execute j | .finish j => j = i
  | .enqueue _ _ | .exit | .notify | .wake _ => False

/-- Every task is in one place, and it has been run when the workers have returned. A turn of a worker takes a task or
returns if there is a task or an end; the workers cannot go on forever; some worker goes on while there is a task, and
when the destructor has notified each of them goes on until it has returned. -/
structure Served (s : ThreadPool τ) : Prop where
  once : Perm (s.executed ++ (s.workers.flatMap taken ++ s.tasks)) s.enqueued
  returned : (∀ w ∈ s.workers, w = .returned) → Perm s.executed s.enqueued
  turns : s.exitCondition = true ∨ s.tasks ≠ [] → ∀ i s', s.step (.turn i) = some s' →
    (∃ task : τ, s'.workers[i]? = some (.running task)) ∨ s'.workers[i]? = some Worker.returned
  progress : ∀ i a s', IsStepOf i a → s.step a = some s' → s'.work < s.work
  onward : s.tasks ≠ [] → ∃ i a s', IsStepOf i a ∧ s.step a = some s'
  joins : s.notified = true → ∀ (i : Nat) (w : Worker τ), s.workers[i]? = some w → w ≠ .returned →
    ∃ a s', IsStepOf i a ∧ s.step a = some s'

/-- A worker that will look at the tasks again, if not soon. -/
def awake : Worker τ → Bool
  | .waiting | .running _ | .finished => true
  | .locking | .blocked | .returned => false

/-- The same after a while: nothing pending when the exit condition is set, none who has the lock while something is,
and somebody awake then; nobody blocked behind the notification. -/
structure Inv (s : ThreadPool τ) : Prop where
  policy : s.epolicy = .ALL_TASKS_COMPLETE
  nonempty : s.workers ≠ []
  once : Perm (s.executed ++ (s.workers.flatMap taken ++ s.tasks)) s.enqueued
  pending : s.exitCondition = true → s.tasks = []
  exited : .returned ∈ s.workers → s.exitCondition = true
  active : s.activeTasks = (s.workers.map busy).sum
  lively : s.tasks ≠ [] → s.free = true ∧ ∃ w ∈ s.workers, awake w = true
  notified : s.notified = true → s.exitCondition = true ∧ ∀ w ∈ s.workers, w.isLocking = false ∧ w.isBlocked = false

variable {s s' : ThreadPool τ} {a : Action τ} {actions : List (Action τ)} {w w' : Worker τ} {i n : Nat} {task : τ}
  {workers : List (Worker τ)}

lemma exists_split (h : s.workers[i]? = some w) : ∃ front rear, s.workers = front ++ w :: rear ∧
    (∀ w', s.workers.set i w' = front ++ w' :: rear) ∧ i = front.length := by
  obtain ⟨hlt, hget⟩ := List.getElem?_eq_some_iff.1 h
  refine ⟨s.workers.take i, s.workers.drop (i + 1), ?_, fun w' => ?_, ?_⟩
  · rw [← hget, List.getElem_cons_drop, List.take_append_drop]
  · rw [List.set_eq_take_append_cons_drop, if_pos hlt]
  · rw [List.length_take, Nat.min_eq_left (Nat.le_of_lt hlt)]

lemma free_iff : s.free = true ↔ ∀ w ∈ s.workers, w.isLocking = false := by
  rw [free, List.all_eq_true]
  simp only [Bool.not_eq_true']

/-! ## What the steps do -/

/-- What a turn does when nothing is pending at the exit. -/
lemma turn_cases (h : s.Inv) (i : Nat) :
    (s.exitCondition = true ∧ s.turn i = { s with workers := s.workers.set i .returned }) ∨
      (s.exitCondition = false ∧ s.tasks = [] ∧ s.turn i = { s with workers := s.workers.set i .locking }) ∨
      ∃ task tasks, s.exitCondition = false ∧ s.tasks = task :: tasks ∧ s.turn i = { s with
        tasks := tasks
        activeTasks := s.activeTasks + 1
        workers := s.workers.set i (.running task) } := by
  rw [turn]
  by_cases hexit : s.exitCondition = true
  · rw [if_pos hexit, if_neg (by rw [h.policy]; decide), if_pos ⟨h.policy, h.pending hexit⟩]
    exact .inl ⟨hexit, rfl⟩
  · rw [if_neg hexit]
    have hfalse : s.exitCondition = false := Bool.not_eq_true _ ▸ hexit
    cases htasks : s.tasks with
    | nil => exact .inr (.inl ⟨hfalse, rfl, rfl⟩)
    | cons task tasks => exact .inr (.inr ⟨task, tasks, hfalse, rfl, rfl⟩)

lemma step_enqueue_cases (hstep : s.step (.enqueue task i) = some s') : s.free = true ∧ ∃ workers,
    s.notifyOne i = some workers ∧
      s' = { s with tasks := s.tasks ++ [task], enqueued := s.enqueued ++ [task], workers := workers } := by
  rw [step] at hstep
  split at hstep
  · obtain ⟨workers, hworkers, rfl⟩ := Option.map_eq_some_iff.1 hstep
    exact ⟨‹_›, workers, hworkers, rfl⟩
  · cases hstep

/-- One of the blocked workers is notified, if there are any. -/
lemma notifyOne_cases (h : s.notifyOne i = some workers) :
    (s.workers[i]? = some .blocked ∧ workers = s.workers.set i .waiting) ∨
      ((∀ w ∈ s.workers, w.isBlocked = false) ∧ workers = s.workers) := by
  rw [notifyOne] at h
  split at h
  · split at h
    · exact .inl ⟨‹_›, (Option.some.inj h).symm⟩
    · cases h
  · rename_i hnone
    rw [List.any_eq_true] at hnone
    refine .inr ⟨fun w hw => ?_, (Option.some.inj h).symm⟩
    exact Bool.not_eq_true _ ▸ fun hblocked => hnone ⟨w, hw, hblocked⟩

lemma step_notify_cases (hstep : s.step .notify = some s') : s.exitCondition = true ∧
    s' = { s with notified := true, workers := s.workers.map Worker.notified } := by
  rw [step] at hstep
  split at hstep
  · exact ⟨‹_›, (Option.some.inj hstep).symm⟩
  · cases hstep

lemma step_wake_cases (hstep : s.step (.wake i) = some s') : s.workers[i]? = some .blocked ∧
    s' = { s with workers := s.workers.set i .waiting } := by
  rw [step] at hstep
  split at hstep
  · exact ⟨‹_›, (Option.some.inj hstep).symm⟩
  · cases hstep

lemma step_turn_cases (hstep : s.step (.turn i) = some s') : s.workers[i]? = some .waiting ∧ s.free = true ∧
    s' = s.turn i := by
  rw [step] at hstep
  split at hstep
  · split at hstep
    · exact ⟨‹_›, ‹_›, (Option.some.inj hstep).symm⟩
    · cases hstep
  · cases hstep

lemma step_block_cases (hstep : s.step (.block i) = some s') : s.workers[i]? = some .locking ∧
    s' = { s with workers := s.workers.set i .blocked } := by
  rw [step] at hstep
  split at hstep
  · exact ⟨‹_›, (Option.some.inj hstep).symm⟩
  · cases hstep

lemma step_execute_cases (hstep : s.step (.execute i) = some s') : ∃ task, s.workers[i]? = some (.running task) ∧
    s' = { s with executed := s.executed ++ [task], workers := s.workers.set i .finished } := by
  rw [step] at hstep
  split at hstep
  · exact ⟨_, ‹_›, (Option.some.inj hstep).symm⟩
  · cases hstep

lemma step_finish_cases (hstep : s.step (.finish i) = some s') : s.workers[i]? = some .finished ∧ s.free = true ∧
    s' = { s with activeTasks := s.activeTasks - 1, workers := s.workers.set i .waiting } := by
  rw [step] at hstep
  split at hstep
  · split at hstep
    · exact ⟨‹_›, ‹_›, (Option.some.inj hstep).symm⟩
    · cases hstep
  · cases hstep

/-! ## Runs -/

lemma inv_start (hn : 1 ≤ n) : (start n .ALL_TASKS_COMPLETE : ThreadPool τ).Inv := by
  refine ⟨rfl, ?_, ?_, fun h => (by cases h), fun h => ?_, ?_, fun h => absurd rfl h, fun h => (by cases h)⟩
  · rw [start, Ne, List.replicate_eq_nil_iff]
    omega
  · simp [start, taken]
  · exact absurd (List.eq_of_mem_replicate h) (by simp)
  · simp [start, busy]

/-- What a worker has taken can be put behind what has been run. -/
lemma perm_taken (executed front : List τ) (own rear : List τ) :
    Perm (executed ++ (front ++ (own ++ rear))) (executed ++ own ++ (front ++ rear)) := by
  rw [List.append_assoc]
  exact List.Perm.append_left _ (List.perm_append_comm_assoc _ _ _)

/-- One worker changes its state: what must be shown of the new one. -/
lemma Inv.set (h : s.Inv) (hworker : s.workers[i]? = some w) {executed : List τ} {activeTasks : Int}
    (hperm : Perm (executed ++ taken w') (s.executed ++ taken w))
    (hbusy : activeTasks - busy w' = s.activeTasks - busy w) (hreturned : w' = .returned → s.exitCondition = true)
    (hawake : s.tasks ≠ [] → w'.isLocking = false ∧ (awake w = true → awake w' = true))
    (hnotified : s.notified = true → w'.isLocking = false ∧ w'.isBlocked = false) :
    ({ s with workers := s.workers.set i w', executed := executed, activeTasks := activeTasks } :
      ThreadPool τ).Inv := by
  obtain ⟨front, rear, hworkers, hset, -⟩ := exists_split hworker
  have honce := h.once
  have hactive := h.active
  have hexited := h.exited
  have hsome := h.lively
  have hnone := h.notified
  rw [free_iff] at hsome
  rw [hworkers] at honce hactive hexited hsome hnone
  rw [hset]
  refine ⟨h.policy, by simp, ?_, h.pending, fun hmem => ?_, ?_, fun htasks => ?_, fun hafter => ⟨(hnone hafter).1, ?_⟩⟩
  · simp only [List.flatMap_append, List.flatMap_cons, List.append_assoc] at honce ⊢
    exact (perm_taken _ _ _ _).trans ((hperm.append_right _).trans ((perm_taken _ _ _ _).symm.trans honce))
  · rcases List.mem_append.1 hmem with hmem | hmem
    · exact hexited (List.mem_append_left _ hmem)
    · rcases List.mem_cons.1 hmem with heq | hmem
      · exact hreturned heq.symm
      · exact hexited (List.mem_append_right _ (List.mem_cons_of_mem _ hmem))
  · simp only [List.map_append, List.map_cons, List.sum_append, List.sum_cons] at hactive ⊢
    omega
  · rw [free_iff]
    dsimp only
    obtain ⟨hfree, w₁, hmem, hw₁⟩ := hsome htasks
    rw [List.forall_mem_append, List.forall_mem_cons] at hfree ⊢
    refine ⟨⟨hfree.1, (hawake htasks).1, hfree.2.2⟩, ?_⟩
    rcases List.mem_append.1 hmem with hmem | hmem
    · exact ⟨w₁, List.mem_append_left _ hmem, hw₁⟩
    · rcases List.mem_cons.1 hmem with rfl | hmem
      · exact ⟨w', List.mem_append_right _ List.mem_cons_self, (hawake htasks).2 hw₁⟩
      · exact ⟨w₁, List.mem_append_right _ (List.mem_cons_of_mem _ hmem), hw₁⟩
  · have hall := (hnone hafter).2
    dsimp only
    rw [List.forall_mem_append, List.forall_mem_cons] at hall ⊢
    exact ⟨hall.1, hnotified hafter, hall.2.2⟩

lemma Inv.enqueue (h : s.Inv) (hexit : s.exitCondition = false) (hfree : s.free = true)
    (hworkers : s.notifyOne i = some workers) :
    ({ s with tasks := s.tasks ++ [task], enqueued := s.enqueued ++ [task], workers := workers } : ThreadPool τ).Inv := by
  have hnot : s.notified = false := Bool.not_eq_true _ ▸ fun hafter =>
    absurd (hexit.symm.trans (h.notified hafter).1) Bool.false_ne_true
  have hkeep : ({ s with workers := workers } : ThreadPool τ).Inv ∧ (∀ w ∈ workers, w.isLocking = false) ∧
      ∃ w ∈ workers, awake w = true := by
    rcases notifyOne_cases hworkers with ⟨hblocked, rfl⟩ | ⟨hnone, rfl⟩
    · refine ⟨h.set hblocked (.refl _) rfl (fun heq => by cases heq) (fun _ => ⟨rfl, fun _ => rfl⟩)
        fun _ => ⟨rfl, rfl⟩, ?_, ?_⟩
      · intro w hw
        rcases List.mem_or_eq_of_mem_set hw with hw | rfl
        · exact free_iff.1 hfree w hw
        · rfl
      · have hlt := (List.getElem?_eq_some_iff.1 hblocked).1
        exact ⟨.waiting, List.mem_set hlt _, rfl⟩
    · refine ⟨h, free_iff.1 hfree, ?_⟩
      obtain ⟨w, hw⟩ := List.exists_mem_of_ne_nil _ h.nonempty
      have hlocking := free_iff.1 hfree w hw
      have hblocked := hnone w hw
      refine ⟨w, hw, ?_⟩
      cases w with
      | waiting | running _ | finished => rfl
      | locking => cases hlocking
      | blocked => cases hblocked
      | returned => exact absurd (hexit.symm.trans (h.exited hw)) Bool.false_ne_true
  obtain ⟨hinv, hlocking, hawake⟩ := hkeep
  refine ⟨h.policy, hinv.nonempty, ?_, fun htrue => ?_, hinv.exited, hinv.active, fun _ => ⟨free_iff.2 hlocking, hawake⟩,
    hinv.notified⟩
  · have honce := hinv.once.append_right [task]
    rwa [List.append_assoc, List.append_assoc] at honce
  · exact absurd (hexit.symm.trans htrue) Bool.false_ne_true

lemma Inv.take (h : s.Inv) (hworker : s.workers[i]? = some .waiting) (hfree : s.free = true) {tasks : List τ}
    (hexit : s.exitCondition = false) (htasks : s.tasks = task :: tasks) :
    ({ s with tasks := tasks, activeTasks := s.activeTasks + 1, workers := s.workers.set i (.running task) } :
      ThreadPool τ).Inv := by
  obtain ⟨front, rear, hworkers, hset, -⟩ := exists_split hworker
  have hlocking := free_iff.1 hfree
  have honce := h.once
  have hactive := h.active
  have hexited := h.exited
  rw [hworkers] at honce hactive hexited hlocking
  rw [hset]
  refine ⟨h.policy, by simp, ?_, fun hexit' => absurd (hexit.symm.trans hexit') Bool.false_ne_true, fun hmem => ?_, ?_,
    fun _ => ⟨?_, .running task, List.mem_append_right _ List.mem_cons_self, rfl⟩,
      fun hafter => absurd (hexit.symm.trans (h.notified hafter).1) Bool.false_ne_true⟩
  · rw [htasks] at honce
    refine List.Perm.trans ?_ honce
    simp only [List.flatMap_append, List.flatMap_cons, taken, List.nil_append, List.append_assoc, List.singleton_append]
    refine List.Perm.append_left _ (List.Perm.append_left _ ?_)
    exact List.perm_middle.symm
  · refine hexited ?_
    simpa using hmem
  · simp only [List.map_append, List.map_cons, List.sum_append, List.sum_cons, busy] at hactive ⊢
    omega
  · rw [free_iff]
    dsimp only
    rw [List.forall_mem_append, List.forall_mem_cons] at hlocking ⊢
    exact ⟨hlocking.1, rfl, hlocking.2.2⟩

lemma Inv.notify (h : s.Inv) (hexit : s.exitCondition = true) (hfree : s.free = true) :
    ({ s with notified := true, workers := s.workers.map Worker.notified } : ThreadPool τ).Inv := by
  have htaken : (s.workers.map Worker.notified).flatMap taken = s.workers.flatMap taken := by
    rw [List.flatMap_map]
    refine List.flatMap_congr fun w _ => ?_
    cases w <;> rfl
  have hbusy : (s.workers.map Worker.notified).map busy = s.workers.map busy := by
    rw [List.map_map]
    refine List.map_congr_left fun w _ => ?_
    cases w <;> rfl
  refine ⟨h.policy, by simpa using h.nonempty, ?_, h.pending, fun _ => hexit, ?_,
    fun htasks => absurd (h.pending hexit) htasks, fun _ => ⟨hexit, fun w hw => ?_⟩⟩
  · dsimp only
    rw [htaken]
    exact h.once
  · dsimp only
    rw [hbusy]
    exact h.active
  · obtain ⟨w, hmem, rfl⟩ := List.mem_map.1 hw
    have hlocking := free_iff.1 hfree w hmem
    cases w with
    | locking => cases hlocking
    | waiting | blocked | running _ | finished | returned => exact ⟨rfl, rfl⟩

lemma inv_step (h : s.Inv) (hallowed : s.Allowed a) (hstep : s.step a = some s') : s'.Inv := by
  cases a with
  | enqueue task i =>
    obtain ⟨hfree, workers, hworkers, rfl⟩ := step_enqueue_cases hstep
    exact h.enqueue hallowed hfree hworkers
  | exit =>
    obtain rfl := Option.some.inj hstep
    exact ⟨h.policy, h.nonempty, h.once, fun _ => hallowed, fun _ => rfl, h.active,
      fun htasks => absurd hallowed htasks, fun hafter => ⟨rfl, (h.notified hafter).2⟩⟩
  | notify =>
    obtain ⟨hexit, rfl⟩ := step_notify_cases hstep
    exact h.notify hexit hallowed
  | wake i =>
    obtain ⟨hworker, rfl⟩ := step_wake_cases hstep
    exact h.set hworker (.refl _) rfl (fun heq => by cases heq) (fun _ => ⟨rfl, fun _ => rfl⟩) fun _ => ⟨rfl, rfl⟩
  | turn i =>
    obtain ⟨hworker, hfree, rfl⟩ := step_turn_cases hstep
    rcases turn_cases h i with ⟨hexit, hturn⟩ | ⟨hexit, htasks, hturn⟩ | ⟨task, tasks, hexit, htasks, hturn⟩
    · rw [hturn]
      exact h.set hworker (.refl _) rfl (fun _ => hexit) (fun htasks => absurd (h.pending hexit) htasks) fun _ => ⟨rfl, rfl⟩
    · rw [hturn]
      exact h.set hworker (.refl _) rfl (fun heq => by cases heq) (fun hne => absurd htasks hne)
        fun hafter => absurd (hexit.symm.trans (h.notified hafter).1) Bool.false_ne_true
    · rw [hturn]
      exact h.take hworker hfree hexit htasks
  | block i =>
    obtain ⟨hworker, rfl⟩ := step_block_cases hstep
    have hmem := List.mem_of_getElem? hworker
    refine h.set hworker (.refl _) rfl (fun heq => by cases heq) (fun htasks => ?_) fun hafter => ?_
    · exact absurd (free_iff.1 (h.lively htasks).1 _ hmem) Bool.noConfusion
    · exact absurd ((h.notified hafter).2 _ hmem).1 Bool.noConfusion
  | execute i =>
    obtain ⟨task, hworker, rfl⟩ := step_execute_cases hstep
    refine h.set hworker ?_ rfl (fun heq => by cases heq) (fun _ => ⟨rfl, fun _ => rfl⟩) fun _ => ⟨rfl, rfl⟩
    rw [taken, taken, List.append_nil]
  | finish i =>
    obtain ⟨hworker, -, rfl⟩ := step_finish_cases hstep
    refine h.set hworker (.refl _) ?_ (fun heq => by cases heq) (fun _ => ⟨rfl, fun _ => rfl⟩) fun _ => ⟨rfl, rfl⟩
    rw [busy, busy, Int.sub_zero]

lemma inv_run (h : s.Inv) (hallowed : s.AllAllowed actions) (hrun : s.run actions = some s') : s'.Inv := by
  induction actions generalizing s with
  | nil =>
    obtain rfl := Option.some.inj hrun
    exact h
  | cons a actions ih =>
    obtain ⟨s₁, hstep, hrun⟩ := Option.bind_eq_some_iff.1 hrun
    exact ih (inv_step h hallowed.1 hstep) (hallowed.2 s₁ hstep) hrun

/-! ## Service -/

/-- A worker that is awake goes on when it can get the lock. -/
lemma exists_step (hfree : s.free = true) (hworker : s.workers[i]? = some w) (hawake : awake w = true) :
    ∃ a s', IsStepOf i a ∧ s.step a = some s' := by
  cases w with
  | waiting => exact ⟨.turn i, s.turn i, rfl, by rw [step, hworker]; exact if_pos hfree⟩
  | running task => exact ⟨.execute i, _, rfl, by rw [step, hworker]⟩
  | finished => exact ⟨.finish i, _, rfl, by rw [step, hworker]; exact if_pos hfree⟩
  | locking | blocked | returned => cases hawake

/-- A worker that has less to do makes the work less. -/
lemma sum_toDo_set (h : s.workers[i]? = some w) (w' : Worker τ) :
    ((s.workers.set i w').map toDo).sum + toDo w = (s.workers.map toDo).sum + toDo w' := by
  obtain ⟨front, rear, hworkers, hset, -⟩ := exists_split h
  rw [hset, hworkers]
  simp only [List.map_append, List.map_cons, List.sum_append, List.sum_cons]
  omega

lemma Inv.progress (h : s.Inv) (hown : IsStepOf i a) (hstep : s.step a = some s') : s'.work < s.work := by
  cases a with
  | enqueue _ _ | exit | notify | wake _ => exact absurd hown id
  | turn j =>
    obtain ⟨hworker, -, rfl⟩ := step_turn_cases hstep
    have hsum := sum_toDo_set hworker
    rcases turn_cases h j with ⟨-, hturn⟩ | ⟨-, -, hturn⟩ | ⟨task, tasks, -, htasks, hturn⟩
    · have hless := hsum .returned
      rw [hturn, work, work]
      simp only [toDo] at hless ⊢
      omega
    · have hless := hsum .locking
      rw [hturn, work, work]
      simp only [toDo] at hless ⊢
      omega
    · have hless := hsum (.running task)
      rw [hturn, work, work, htasks, List.length_cons]
      simp only [toDo] at hless ⊢
      omega
  | block j =>
    obtain ⟨hworker, rfl⟩ := step_block_cases hstep
    have hless := sum_toDo_set hworker .blocked
    rw [work, work]
    simp only [toDo] at hless ⊢
    omega
  | execute j =>
    obtain ⟨task, hworker, rfl⟩ := step_execute_cases hstep
    have hless := sum_toDo_set hworker .finished
    rw [work, work]
    simp only [toDo] at hless ⊢
    omega
  | finish j =>
    obtain ⟨hworker, -, rfl⟩ := step_finish_cases hstep
    have hless := sum_toDo_set hworker .waiting
    rw [work, work]
    simp only [toDo] at hless ⊢
    omega

lemma Inv.turns (h : s.Inv) (hleft : s.exitCondition = true ∨ s.tasks ≠ []) (hstep : s.step (.turn i) = some s') :
    (∃ task : τ, s'.workers[i]? = some (.running task)) ∨ s'.workers[i]? = some Worker.returned := by
  obtain ⟨hworker, -, rfl⟩ := step_turn_cases hstep
  have hlt := (List.getElem?_eq_some_iff.1 hworker).1
  rcases turn_cases h i with ⟨-, hturn⟩ | ⟨hexit, htasks, -⟩ | ⟨task, tasks, -, -, hturn⟩
  · rw [hturn]
    exact .inr (List.getElem?_set_self hlt)
  · rcases hleft with hexit' | hne
    · exact absurd (hexit.symm.trans hexit') Bool.false_ne_true
    · exact absurd htasks hne
  · rw [hturn]
    exact .inl ⟨task, List.getElem?_set_self hlt⟩

lemma Inv.all_executed (h : s.Inv) (hall : ∀ w ∈ s.workers, w = .returned) : Perm s.executed s.enqueued := by
  obtain ⟨w, hw⟩ := List.exists_mem_of_ne_nil _ h.nonempty
  have hexit := h.exited (hall w hw ▸ hw)
  have htaken : s.workers.flatMap taken = [] := by
    rw [List.flatMap_eq_nil_iff]
    intro w hw
    rw [hall w hw, taken]
  have honce := h.once
  rwa [htaken, h.pending hexit, List.append_nil, List.append_nil] at honce

lemma Inv.served (h : s.Inv) : s.Served := by
  refine ⟨h.once, h.all_executed, fun hleft i s' => h.turns hleft, fun i a s' => h.progress, fun htasks => ?_,
    fun hafter i w hworker hw => ?_⟩
  · obtain ⟨hfree, w, hmem, hawake⟩ := h.lively htasks
    obtain ⟨i, hworker⟩ := List.getElem?_of_mem hmem
    exact ⟨i, exists_step hfree hworker hawake⟩
  · obtain ⟨-, hnone⟩ := h.notified hafter
    refine exists_step (free_iff.2 fun w hw => (hnone w hw).1) hworker ?_
    obtain ⟨hlocking, hblocked⟩ := hnone w (List.mem_of_getElem? hworker)
    cases w with
    | waiting | running _ | finished => rfl
    | locking => cases hlocking
    | blocked => cases hblocked
    | returned => exact absurd rfl hw

lemma busy_nonneg (w : Worker τ) : 0 ≤ busy w := by
  cases w <;> simp [busy]

lemma taken_eq_nil_of_busy (h : busy w = 0) : taken w = [] := by
  cases w with
  | running task => simp [busy] at h
  | waiting | locking | blocked | finished | returned => rfl

lemma busy_sum_nonneg (workers : List (Worker τ)) : 0 ≤ (workers.map busy).sum := by
  induction workers with
  | nil => exact Int.le_refl 0
  | cons w workers ih =>
    rw [List.map_cons, List.sum_cons]
    exact Int.add_nonneg (busy_nonneg w) ih

lemma busy_eq_zero_of_sum {workers : List (Worker τ)} (h : (workers.map busy).sum = 0) : ∀ w ∈ workers, busy w = 0 := by
  induction workers with
  | nil => exact fun w hw => absurd hw List.not_mem_nil
  | cons w workers ih =>
    have hw := busy_nonneg w
    have hworkers := busy_sum_nonneg workers
    rw [List.map_cons, List.sum_cons] at h
    refine List.forall_mem_cons.2 ⟨by omega, ih (by omega)⟩

/-- What `wait` waits for means that everything has been run. -/
theorem executed_of_idle (h : s.Inv) (hidle : s.Idle) : Perm s.executed s.enqueued := by
  obtain ⟨htasks, hactive⟩ := hidle
  have hzero : ∀ w ∈ s.workers, taken w = [] := fun w hw =>
    taken_eq_nil_of_busy (busy_eq_zero_of_sum (h.active.symm.trans hactive) w hw)
  have honce := h.once
  rwa [List.flatMap_eq_nil_iff.2 hzero, htasks, List.append_nil, List.append_nil] at honce

/-- In every run in which nothing is pending at the exit, nothing is enqueued after it, and no worker is about to block when
the destructor notifies, all tasks are served. -/
theorem run_served (hn : 1 ≤ n) (hallowed : (start n .ALL_TASKS_COMPLETE : ThreadPool τ).AllAllowed actions)
    (hrun : (start n .ALL_TASKS_COMPLETE).run actions = some s) : s.Served :=
  (inv_run (inv_start hn) hallowed hrun).served

lemma allAllowed_cons (hallowed : s.Allowed a) (hstep : s.step a = some s') (h : s'.AllAllowed actions) :
    s.AllAllowed (a :: actions) :=
  ⟨hallowed, fun _ hstep' => Option.some.inj (hstep.symm.trans hstep') ▸ h⟩

/-- Two workers, of which one blocks, and a task that the other takes; the exit while it runs the task. -/
def takenInTime : List (Action Nat) :=
  [.turn 0, .block 0, .enqueue 7 0, .turn 1, .turn 0, .block 0, .exit, .notify, .turn 0, .execute 1, .finish 1, .turn 1]

def servedInTime : ThreadPool Nat where
  epolicy := .ALL_TASKS_COMPLETE
  workers := [.returned, .returned]
  exitCondition := true
  notified := true
  enqueued := [7]
  executed := [7]

lemma takenInTime_allAllowed : (start 2 .ALL_TASKS_COMPLETE : ThreadPool Nat).AllAllowed takenInTime :=
  allAllowed_cons trivial rfl <| allAllowed_cons trivial rfl <| allAllowed_cons rfl rfl <|
    allAllowed_cons trivial rfl <| allAllowed_cons trivial rfl <| allAllowed_cons trivial rfl <|
    allAllowed_cons rfl rfl <| allAllowed_cons rfl rfl <| allAllowed_cons trivial rfl <|
    allAllowed_cons trivial rfl <| allAllowed_cons trivial rfl <| allAllowed_cons trivial rfl trivial

theorem run_served_inTime : servedInTime.Served :=
  run_served (by decide : 1 ≤ 2) takenInTime_allAllowed rfl

/-- With tasks pending at the exit a worker that is woken does nothing, over and over. -/
theorem turn_of_pending (hpolicy : s.epolicy = .ALL_TASKS_COMPLETE) (hexit : s.exitCondition = true)
    (hpending : s.tasks ≠ []) (hfree : s.free = true) (hworker : s.workers[i]? = some .waiting) :
    s.step (.turn i) = some s := by
  rw [step, hworker]
  dsimp only
  rw [if_pos hfree, turn, if_pos hexit, hpolicy, if_neg (by decide), if_neg (fun h => hpending h.2)]

/-- The one worker has not taken the task when the destructor is called. -/
def leftPending : ThreadPool Nat where
  epolicy := .ALL_TASKS_COMPLETE
  workers := [.waiting]
  tasks := [7]
  exitCondition := true
  enqueued := [7]

theorem not_served_leftPending : (start 1 .ALL_TASKS_COMPLETE).run [.enqueue 7 0, .exit] = some leftPending ∧
    leftPending.step (.turn 0) = some leftPending ∧ ¬leftPending.Served :=
  have hturn : leftPending.step (.turn 0) = some leftPending := turn_of_pending rfl rfl (by decide) rfl rfl
  ⟨rfl, hturn, fun h => absurd (h.progress 0 (.turn 0) leftPending rfl hturn) (Nat.lt_irrefl _)⟩

/-- Once the destructor has notified, a worker that blocks is not woken any more. -/
theorem not_joins_of_blocked (hafter : s.notified = true) (hworker : s.workers[i]? = some .blocked) : ¬ s.Served := by
  intro h
  obtain ⟨a, s', hown, hstep⟩ := h.joins hafter i .blocked hworker (fun heq => by cases heq)
  cases a with
  | enqueue _ _ | exit | notify | wake _ => exact absurd hown id
  | turn j =>
    obtain rfl : j = i := hown
    cases hworker.symm.trans (step_turn_cases hstep).1
  | block j =>
    obtain rfl : j = i := hown
    cases hworker.symm.trans (step_block_cases hstep).1
  | execute j =>
    obtain rfl : j = i := hown
    obtain ⟨task, hrunning, -⟩ := step_execute_cases hstep
    cases hworker.symm.trans hrunning
  | finish j =>
    obtain rfl : j = i := hown
    cases hworker.symm.trans (step_finish_cases hstep).1

/-- The one worker has looked at its predicate before the exit and blocks behind the notification. -/
example : ((start 1 .ALL_TASKS_COMPLETE : ThreadPool Nat).run [.turn 0, .exit, .notify, .block 0]).map
    (fun s => (s.workers.map Worker.isBlocked, s.notified)) = some ([true], true) := rfl

end ThreadPool

end CppExperiments.Misc

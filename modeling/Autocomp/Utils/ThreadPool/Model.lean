import Autocomp.Lib.Transition
import Autocomp.Utils.SynchronousQueue
import Mathlib.Data.Fintype.Basic
import Mathlib.Logic.Function.Basic

/-!
# The thread pool

`ThreadPool` as a transition system. A step is one access to shared state: a queue operation, a
notification, or a change of the mutex's owner. The last fields of the state record what has
happened and are read by no step.
-/

namespace Autocomp.ThreadPool

open Transition

/-- Where a worker stands in `worker()`. -/
inductive Worker (Task : Type) where
  /-- At the head of the loop. -/
  | top
  /-- Holds the mutex and evaluates the wait predicate. -/
  | checking
  /-- Found the predicate false, still holds the mutex and is about to block. -/
  | waiting
  | blocked
  /-- Woken, and has to take the mutex again. -/
  | woken
  /-- Found the predicate true. -/
  | popping
  /-- Still holds the mutex and is about to compute `doneWorking`. -/
  | popped (task : Option Task)
  /-- In `task()`. With `calling` set the task is inside `run`, past the push. -/
  | running (task : Task) (doneWorking : Bool) (calling : Option Task)
  | exited
  deriving DecidableEq

namespace Worker

variable {Task : Type}

/-- The task the worker has taken from the queue and not finished. -/
def task : Worker Task → Option Task
  | popped task => task
  | running task _ _ => some task
  | _ => none

/-- The task the worker has started and not finished. -/
def executing : Worker Task → Option Task
  | running task _ _ => some task
  | _ => none

def locking : Worker Task → Bool
  | checking | waiting | popping | popped _ => true
  | _ => false

/-- The task whose call of `run` the worker is in, past the push. -/
def calling : Worker Task → Option Task
  | running _ _ calling => calling
  | _ => none

/-- Whether the worker will not look at the queue again. -/
def leaving : Worker Task → Bool
  | running _ doneWorking _ => doneWorking
  | exited => true
  | _ => false

end Worker

/-- How far the call to `shutdown()` has come. -/
inductive Shutdown where
  | notCalled
  | doneSet
  | joining
  | returned
  deriving DecidableEq

structure State (n : Nat) (Task : Type) where
  taskQueue : SynchronousQueue Task
  done : Bool
  mutex : Option (Fin n)
  worker : Fin n → Worker Task
  /-- Calls of `run` from outside the workers, between the push and the notification. -/
  calls : List Task
  shutdown : Shutdown
  submitted : List Task
  dequeued : List Task
  started : List Task
  finished : List Task
  /-- Tasks whose call of `run` has returned. -/
  accepted : List Task
  /-- Tasks whose call of `run` had returned when `done` was set. -/
  early : List Task

variable {n : Nat} {Task : Type}

/-- After `init()`. -/
def init (n : Nat) (Task : Type) : State n Task :=
  ⟨.empty, false, none, fun _ => .top, [], .notCalled, [], [], [], [], [], []⟩

inductive Action (n : Nat) (Task : Type) where
  /-- `taskQueue.push` in a call of `run` from outside the workers. -/
  | push (task : Task)
  /-- `condition.notify_one()` of that call; `woken` is the worker it wakes. -/
  | notify (task : Task) (woken : Option (Fin n))
  | lock (i : Fin n)
  /-- The wait predicate. -/
  | check (i : Fin n)
  | block (i : Fin n)
  /-- A spurious wake-up. -/
  | wake (i : Fin n)
  | pop (i : Fin n)
  /-- `doneWorking` is computed, the mutex is released and the task, if there is one, starts. -/
  | sample (i : Fin n)
  /-- The two steps of a call of `run` made by the task that worker `i` executes. -/
  | pushFrom (i : Fin n) (task : Task)
  | notifyFrom (i : Fin n) (woken : Option (Fin n))
  | finish (i : Fin n)
  /-- `shutdown()`: `done = true` under the mutex, `notify_all`, and the joins. -/
  | setDone
  | notifyAll
  | join
  deriving DecidableEq

/-- `notify_one` wakes one blocked worker, or none if none is blocked. -/
def CanWake (s : State n Task) : Option (Fin n) → Prop
  | some j => s.worker j = .blocked
  | none => ∀ j, s.worker j ≠ .blocked

namespace State

def setWorker (s : State n Task) (i : Fin n) (w : Worker Task) : State n Task :=
  { s with worker := Function.update s.worker i w }

/-- The effect of `notify_one` on the worker it wakes. -/
def signal (s : State n Task) : Option (Fin n) → State n Task
  | some j => s.setWorker j .woken
  | none => s

def enqueue (s : State n Task) (task : Task) : State n Task :=
  { s with taskQueue := s.taskQueue.push task, submitted := s.submitted ++ [task] }

@[simp, grind =] theorem worker_setWorker (s : State n Task) (i j : Fin n) (w : Worker Task) :
    (s.setWorker i w).worker j = if j = i then w else s.worker j :=
  Function.update_apply ..

@[simp, grind =] theorem worker_enqueue (s : State n Task) (task : Task) (j : Fin n) :
    (s.enqueue task).worker j = s.worker j := rfl

theorem worker_signal {s : State n Task} {woken : Option (Fin n)} (h : CanWake s woken)
    (j : Fin n) : (s.signal woken).worker j = s.worker j ∨
      s.worker j = .blocked ∧ (s.signal woken).worker j = .woken := by
  cases woken with
  | none => exact Or.inl rfl
  | some k =>
    by_cases hj : j = k
    · subst hj
      exact Or.inr ⟨h, by simp [signal]⟩
    · exact Or.inl (by simp [signal, hj])

theorem signal_eq (s : State n Task) (woken : Option (Fin n)) :
    s.signal woken = { s with worker := (s.signal woken).worker } := by
  cases woken <;> rfl

end State

open State

/-- The state after `popped task`, with the mutex released. -/
def leave (s : State n Task) (i : Fin n) (task : Option Task) : State n Task :=
  let doneWorking := s.taskQueue.isEmpty && s.done
  let s := { s with mutex := none, started := s.started ++ task.toList }
  match task with
  | some t => s.setWorker i (.running t doneWorking none)
  | none => s.setWorker i (if doneWorking then .exited else .top)

variable [DecidableEq Task]

instance (s : State n Task) (woken : Option (Fin n)) : Decidable (CanWake s woken) :=
  match woken with
  | some j => inferInstanceAs (Decidable (s.worker j = .blocked))
  | none => inferInstanceAs (Decidable (∀ j, s.worker j ≠ .blocked))

/-- One step; `none` when the step is not possible. -/
def step (s : State n Task) : Action n Task → Option (State n Task)
  | .push task =>
    if task ∈ s.submitted then none else some { s.enqueue task with calls := s.calls ++ [task] }
  | .notify task woken =>
    if task ∈ s.calls ∧ CanWake s woken then
      some { s.signal woken with calls := s.calls.erase task, accepted := s.accepted ++ [task] }
    else none
  | .lock i =>
    if (s.worker i = .top ∨ s.worker i = .woken) ∧ s.mutex = none then
      some { s.setWorker i .checking with mutex := some i }
    else none
  | .check i =>
    if s.worker i = .checking then
      some (s.setWorker i (if !s.taskQueue.isEmpty || s.done then .popping else .waiting))
    else none
  | .block i =>
    if s.worker i = .waiting then some { s.setWorker i .blocked with mutex := none } else none
  | .wake i => if s.worker i = .blocked then some (s.setWorker i .woken) else none
  | .pop i =>
    if s.worker i = .popping then
      let (task, taskQueue) := s.taskQueue.pop
      some { s.setWorker i (.popped task) with
        taskQueue := taskQueue, dequeued := s.dequeued ++ task.toList }
    else none
  | .sample i =>
    match s.worker i with
    | .popped task => some (leave s i task)
    | _ => none
  | .pushFrom i task =>
    match s.worker i with
    | .running t d none =>
      if task ∈ s.submitted then none
      else some ((s.enqueue task).setWorker i (.running t d (some task)))
    | _ => none
  | .notifyFrom i woken =>
    match s.worker i with
    | .running t d (some c) =>
      if CanWake s woken then
        some { (s.signal woken).setWorker i (.running t d none) with
          accepted := s.accepted ++ [c] }
      else none
    | _ => none
  | .finish i =>
    match s.worker i with
    | .running t d none =>
      some { s.setWorker i (if d then .exited else .top) with finished := s.finished ++ [t] }
    | _ => none
  | .setDone =>
    if s.shutdown = .notCalled ∧ s.mutex = none then
      some { s with done := true, shutdown := .doneSet, early := s.accepted }
    else none
  | .notifyAll =>
    if s.shutdown = .doneSet then
      some { s with
        worker := fun i => if s.worker i = .blocked then .woken else s.worker i
        shutdown := .joining }
    else none
  | .join =>
    if s.shutdown = .joining ∧ ∀ i, s.worker i = .exited then some { s with shutdown := .returned }
    else none

/-- What each step requires and does. -/
inductive Step (s : State n Task) : Action n Task → State n Task → Prop
  | push {task : Task} (hnew : task ∉ s.submitted) :
      Step s (.push task) { s.enqueue task with calls := s.calls ++ [task] }
  | notify {task : Task} {woken : Option (Fin n)} (hcall : task ∈ s.calls)
      (hwoken : CanWake s woken) :
      Step s (.notify task woken)
        { s.signal woken with calls := s.calls.erase task, accepted := s.accepted ++ [task] }
  | lock {i : Fin n} (hi : s.worker i = .top ∨ s.worker i = .woken) (hfree : s.mutex = none) :
      Step s (.lock i) { s.setWorker i .checking with mutex := some i }
  | checkTrue {i : Fin n} (hi : s.worker i = .checking)
      (hq : s.taskQueue.entries ≠ [] ∨ s.done = true) : Step s (.check i) (s.setWorker i .popping)
  | checkFalse {i : Fin n} (hi : s.worker i = .checking) (hq : s.taskQueue.entries = [])
      (hdone : s.done = false) : Step s (.check i) (s.setWorker i .waiting)
  | block {i : Fin n} (hi : s.worker i = .waiting) :
      Step s (.block i) { s.setWorker i .blocked with mutex := none }
  | wake {i : Fin n} (hi : s.worker i = .blocked) : Step s (.wake i) (s.setWorker i .woken)
  | pop {i : Fin n} (hi : s.worker i = .popping) :
      Step s (.pop i) { s.setWorker i (.popped s.taskQueue.entries.head?) with
        taskQueue := s.taskQueue.pop.2
        dequeued := s.dequeued ++ s.taskQueue.entries.head?.toList }
  | sample {i : Fin n} {task : Option Task} (hi : s.worker i = .popped task) :
      Step s (.sample i) (leave s i task)
  | pushFrom {i : Fin n} {task t : Task} {d : Bool} (hi : s.worker i = .running t d none)
      (hnew : task ∉ s.submitted) :
      Step s (.pushFrom i task) ((s.enqueue task).setWorker i (.running t d (some task)))
  | notifyFrom {i : Fin n} {woken : Option (Fin n)} {t c : Task} {d : Bool}
      (hi : s.worker i = .running t d (some c)) (hwoken : CanWake s woken) :
      Step s (.notifyFrom i woken)
        { (s.signal woken).setWorker i (.running t d none) with accepted := s.accepted ++ [c] }
  | finish {i : Fin n} {t : Task} {d : Bool} (hi : s.worker i = .running t d none) :
      Step s (.finish i)
        { s.setWorker i (if d then .exited else .top) with finished := s.finished ++ [t] }
  | setDone (hcall : s.shutdown = .notCalled) (hfree : s.mutex = none) :
      Step s .setDone { s with done := true, shutdown := .doneSet, early := s.accepted }
  | notifyAll (hcall : s.shutdown = .doneSet) :
      Step s .notifyAll { s with
        worker := fun i => if s.worker i = .blocked then .woken else s.worker i
        shutdown := .joining }
  | join (hcall : s.shutdown = .joining) (hexit : ∀ i, s.worker i = .exited) :
      Step s .join { s with shutdown := .returned }

theorem step_cases {s s' : State n Task} {a : Action n Task} (h : step s a = some s') :
    Step s a s' := by
  cases a with
  | push task =>
    simp only [step, Option.ite_none_left_eq_some, Option.some.injEq] at h
    obtain ⟨hnew, rfl⟩ := h
    exact .push hnew
  | notify task woken =>
    simp only [step, Option.ite_none_right_eq_some, Option.some.injEq] at h
    obtain ⟨⟨hcall, hwoken⟩, rfl⟩ := h
    exact .notify hcall hwoken
  | lock i =>
    simp only [step, Option.ite_none_right_eq_some, Option.some.injEq] at h
    obtain ⟨⟨hi, hfree⟩, rfl⟩ := h
    exact .lock hi hfree
  | check i =>
    simp only [step, Option.ite_none_right_eq_some, Option.some.injEq] at h
    obtain ⟨hi, rfl⟩ := h
    split
    · rename_i htrue
      refine .checkTrue hi ?_
      rwa [Bool.or_eq_true, Bool.not_eq_true', ← Bool.not_eq_true,
        SynchronousQueue.isEmpty_iff] at htrue
    · rename_i hfalse
      rw [Bool.not_eq_true, Bool.or_eq_false_iff, Bool.not_eq_false',
        SynchronousQueue.isEmpty_iff] at hfalse
      exact .checkFalse hi hfalse.1 hfalse.2
  | block i =>
    simp only [step, Option.ite_none_right_eq_some, Option.some.injEq] at h
    obtain ⟨hi, rfl⟩ := h
    exact .block hi
  | wake i =>
    simp only [step, Option.ite_none_right_eq_some, Option.some.injEq] at h
    obtain ⟨hi, rfl⟩ := h
    exact .wake hi
  | pop i =>
    simp only [step, Option.ite_none_right_eq_some, Option.some.injEq] at h
    obtain ⟨hi, rfl⟩ := h
    exact .pop hi
  | sample i =>
    simp only [step] at h
    split at h
    · rw [← Option.some.inj h]
      exact .sample ‹_›
    · contradiction
  | pushFrom i task =>
    simp only [step] at h
    split at h
    · simp only [Option.ite_none_left_eq_some, Option.some.injEq] at h
      obtain ⟨hnew, rfl⟩ := h
      exact .pushFrom ‹_› hnew
    · contradiction
  | notifyFrom i woken =>
    simp only [step] at h
    split at h
    · simp only [Option.ite_none_right_eq_some, Option.some.injEq] at h
      obtain ⟨hwoken, rfl⟩ := h
      exact .notifyFrom ‹_› hwoken
    · contradiction
  | finish i =>
    simp only [step] at h
    split at h
    · rw [← Option.some.inj h]
      exact .finish ‹_›
    · contradiction
  | setDone =>
    simp only [step, Option.ite_none_right_eq_some, Option.some.injEq] at h
    obtain ⟨⟨hcall, hfree⟩, rfl⟩ := h
    exact .setDone hcall hfree
  | notifyAll =>
    simp only [step, Option.ite_none_right_eq_some, Option.some.injEq] at h
    obtain ⟨hcall, rfl⟩ := h
    exact .notifyAll hcall
  | join =>
    simp only [step, Option.ite_none_right_eq_some, Option.some.injEq] at h
    obtain ⟨⟨hcall, hexit⟩, rfl⟩ := h
    exact .join hcall hexit

end Autocomp.ThreadPool

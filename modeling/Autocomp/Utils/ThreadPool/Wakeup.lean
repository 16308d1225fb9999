import Autocomp.Utils.ThreadPool.Tasks

/-!
# Nobody due to wake up

A push and its notification take no mutex, so both can fall between a worker's look at the queue
and its going to sleep. With a second worker the notification still finds someone; with a single
one it is lost.
-/

namespace Autocomp.ThreadPool

open Transition State

variable {n : Nat} {Task : Type}

namespace Worker

/-- Whether the worker will look at the queue before it blocks. -/
def alert : Worker Task → Bool
  | waiting | blocked | exited => false
  | _ => true

end Worker

/-- The mutex belongs to the one worker inside the critical section. -/
def Locked (s : State n Task) : Prop := ∀ i, (s.worker i).locking = true ↔ s.mutex = some i

theorem locked_init : Locked (init n Task) := by
  intro i
  simp [init, Worker.locking]

theorem Locked.setWorker {s : State n Task} (h : Locked s) {i : Fin n} {w : Worker Task}
    (hw : w.locking = (s.worker i).locking) : Locked (s.setWorker i w) := by
  intro j
  rw [worker_setWorker]
  split
  · rename_i hj
    rw [hw, hj]
    exact h i
  · exact h j

theorem Locked.acquire {s : State n Task} (h : Locked s) {i : Fin n} {w : Worker Task}
    (hfree : s.mutex = none) (hw : w.locking = true) :
    Locked { s.setWorker i w with mutex := some i } := by
  intro j
  rw [worker_setWorker]
  split
  · rename_i hj
    simp [hw, hj]
  · rename_i hj
    have := h j
    rw [hfree] at this
    simp only [this, Option.some.injEq, reduceCtorEq, false_iff]
    exact fun h => hj h.symm

theorem Locked.release {s : State n Task} (h : Locked s) {i : Fin n} {w : Worker Task}
    (hi : (s.worker i).locking = true) (hw : w.locking = false) :
    Locked { s.setWorker i w with mutex := none } := by
  intro j
  rw [worker_setWorker]
  split
  · simp [hw]
  · rename_i hj
    have := h j
    rw [(h i).mp hi] at this
    simp only [this, Option.some.injEq, reduceCtorEq, iff_false]
    exact fun h => hj h.symm

theorem Locked.signal {s : State n Task} (h : Locked s) {woken : Option (Fin n)}
    (hwoken : CanWake s woken) : Locked (s.signal woken) := by
  cases woken with
  | none => exact h
  | some j =>
    have hb : s.worker j = .blocked := hwoken
    exact h.setWorker (by rw [hb]; rfl)

/-- Two workers are never in the critical section together. -/
theorem Locked.exclusive {s : State n Task} (h : Locked s) {i j : Fin n}
    (hi : (s.worker i).locking = true) (hj : (s.worker j).locking = true) : i = j := by
  have hmutex := (h i).mp hi
  rw [(h j).mp hj] at hmutex
  exact (Option.some.inj hmutex).symm

/-- A task is queued, every worker is blocked and no call of `run` has its notification still to
come. -/
def Stranded (s : State n Task) : Prop :=
  s.taskQueue.entries ≠ [] ∧ (∀ i, s.worker i = .blocked) ∧ s.calls = []

/-- The last notification to come, for a task in the queue, made while a worker that found the queue
empty has not blocked yet. -/
def NotifiesInWindow [DecidableEq Task] (s : State n Task) : Action n Task → Prop
  | .notify task _ =>
    s.taskQueue.entries ≠ [] ∧ s.calls.erase task = [] ∧ ∃ i, s.worker i = .waiting
  | _ => False

/-- A queued task has a worker that will look at the queue, or a notification still to come. -/
def Attended (s : State n Task) : Prop :=
  s.taskQueue.entries ≠ [] → (∃ i, (s.worker i).alert = true) ∨ s.calls ≠ []

theorem attended_of_alert {s : State n Task} {i : Fin n} (h : (s.worker i).alert = true) :
    Attended s := fun _ => Or.inl ⟨i, h⟩

theorem alert_setWorker (s : State n Task) (i : Fin n) {w : Worker Task} (hw : w.alert = true) :
    ((s.setWorker i w).worker i).alert = true := by
  rw [worker_setWorker, if_pos rfl, hw]

theorem Closing.staying {s : State n Task} (h : Closing s) (hnot : s.shutdown = .notCalled)
    (i : Fin n) : (s.worker i).leaving = false := by
  have hdone := h.notCalled hnot
  by_contra hl
  rw [(h.leaving i (by simpa using hl)).1] at hdone
  contradiction

/-- A notification that finds nobody blocked is seen by a worker that is awake, unless the only
worker is about to block. -/
theorem exists_alert {s : State n Task} (hn : 1 ≤ n) (hlock : Locked s)
    (hstay : ∀ i, (s.worker i).leaving = false) (hnone : ∀ i, s.worker i ≠ .blocked)
    (hwindow : 2 ≤ n ∨ ¬ ∃ i, s.worker i = .waiting) : ∃ i, (s.worker i).alert = true := by
  by_contra hall
  have hwaiting (i : Fin n) : s.worker i = .waiting := by
    have halert : (s.worker i).alert ≠ true := fun h => hall ⟨i, h⟩
    have hs := hstay i
    have hb := hnone i
    cases hw : s.worker i <;> rw [hw] at halert hs hb <;>
      simp_all [Worker.alert, Worker.leaving]
  rcases hwindow with htwo | hone
  · have := hlock.exclusive (i := ⟨0, hn⟩) (j := ⟨1, htwo⟩) (by rw [hwaiting]; rfl)
      (by rw [hwaiting]; rfl)
    simp at this
  · exact hone ⟨⟨0, hn⟩, hwaiting _⟩

/-- What holds before `shutdown()` in runs whose steps all meet the condition. -/
structure Serving (s : State n Task) : Prop where
  attended : Attended s
  locked : Locked s
  closing : Closing s
  notCalled : s.shutdown = .notCalled

theorem serving_init : Serving (init n Task) :=
  ⟨fun h => absurd rfl h, locked_init, closing_init, rfl⟩

section

variable [DecidableEq Task]

theorem Locked.step {s s' : State n Task} {a : Action n Task} (h : Locked s)
    (hstep : Step s a s') : Locked s' := by
  cases hstep with
  | push hnew => exact h
  | notify hcall hwoken => exact h.signal hwoken
  | lock hi hfree => exact h.acquire hfree rfl
  | checkTrue hi hq => exact h.setWorker (by rw [hi]; rfl)
  | checkFalse hi hq hdone => exact h.setWorker (by rw [hi]; rfl)
  | block hi => exact h.release (by rw [hi]; rfl) rfl
  | wake hi => exact h.setWorker (by rw [hi]; rfl)
  | @pop i hi =>
    exact h.setWorker (i := i) (w := .popped s.taskQueue.entries.head?) (by rw [hi]; rfl)
  | @sample i task hi =>
    cases task with
    | none =>
      exact h.release (i := i) (w := if s.taskQueue.isEmpty && s.done then .exited else .top)
        (by rw [hi]; rfl) (by split <;> rfl)
    | some t =>
      exact h.release (i := i) (w := .running t (s.taskQueue.isEmpty && s.done) none)
        (by rw [hi]; rfl) rfl
  | @pushFrom i task t d hi hnew =>
    exact Locked.setWorker (s := s.enqueue task) h (by rw [worker_enqueue, hi]; rfl)
  | @notifyFrom i woken t c d hi hwoken =>
    refine (h.signal hwoken).setWorker (i := i) (w := .running t d none) ?_
    rcases worker_signal hwoken i with hs | ⟨hb, hs⟩
    · rw [hs, hi]; rfl
    · rw [hs]; rfl
  | @finish i t d hi =>
    exact h.setWorker (i := i) (w := if d then .exited else .top) (by rw [hi]; split <;> rfl)
  | setDone hcall hfree => exact h
  | notifyAll hcall =>
    intro j
    simp only
    split
    · rename_i hb
      rw [← h j, hb]
      rfl
    · exact h j
  | join hcall hexit => exact h

theorem Attended.step {s s' : State n Task} {a : Action n Task} (hn : 1 ≤ n) (h : Attended s)
    (hlock : Locked s) (hclose : Closing s) (hnot : s.shutdown = .notCalled) (ha : a ≠ .setDone)
    (hwindow : 2 ≤ n ∨ ¬ NotifiesInWindow s a) (hstep : Step s a s') : Attended s' := by
  have hstay := hclose.staying hnot
  cases hstep with
  | push hnew => exact fun _ => Or.inr (by simp)
  | @notify task woken hcall hwoken =>
    cases woken with
    | some j => exact attended_of_alert (i := j) (alert_setWorker s j rfl)
    | none =>
      intro hq
      by_cases hcalls : s.calls.erase task = []
      · obtain ⟨i, hi⟩ := exists_alert hn hlock hstay hwoken
          (hwindow.imp_right fun hnot hwaiting => hnot ⟨hq, hcalls, hwaiting⟩)
        exact Or.inl ⟨i, hi⟩
      · exact Or.inr hcalls
  | @lock i hi hfree => exact attended_of_alert (i := i) (alert_setWorker s i rfl)
  | @checkTrue i hi hq => exact attended_of_alert (alert_setWorker s i rfl)
  | checkFalse hi hq hdone => exact fun hne => absurd hq hne
  | @block i hi =>
    intro hq
    rcases h hq with ⟨j, hj⟩ | hcalls
    · refine Or.inl ⟨j, ?_⟩
      have hji : j ≠ i := by
        rintro rfl
        rw [hi] at hj
        contradiction
      change ((s.setWorker i .blocked).worker j).alert = true
      rw [worker_setWorker, if_neg hji, hj]
    · exact Or.inr hcalls
  | @wake i hi => exact attended_of_alert (alert_setWorker s i rfl)
  | @pop i hi =>
    exact attended_of_alert (i := i)
      (alert_setWorker s i (w := .popped s.taskQueue.entries.head?) rfl)
  | @sample i task hi =>
    have hdone := hclose.notCalled hnot
    refine attended_of_alert (i := i) ?_
    cases task with
    | none =>
      exact alert_setWorker _ i (w := if s.taskQueue.isEmpty && s.done then .exited else .top)
        (by simp [hdone, Worker.alert])
    | some t => exact alert_setWorker _ i rfl
  | @pushFrom i task t d hi hnew => exact attended_of_alert (alert_setWorker _ i rfl)
  | @notifyFrom i woken t c d hi hwoken =>
    exact attended_of_alert (i := i) (alert_setWorker (s.signal woken) i (w := .running t d none) rfl)
  | @finish i t d hi =>
    have hd := hstay i
    rw [hi] at hd
    have hd' : d = false := hd
    exact attended_of_alert (i := i)
      (alert_setWorker s i (w := if d then .exited else .top) (by rw [hd']; rfl))
  | setDone hcall hfree => exact absurd rfl ha
  | notifyAll hcall => rw [hnot] at hcall; contradiction
  | join hcall hexit => rw [hnot] at hcall; contradiction

theorem notCalled_step {s s' : State n Task} {a : Action n Task} (hnot : s.shutdown = .notCalled)
    (ha : a ≠ .setDone) (hstep : Step s a s') : s'.shutdown = .notCalled := by
  cases hstep with
  | setDone => exact absurd rfl ha
  | notifyAll hcall => rw [hnot] at hcall; contradiction
  | join hcall hexit => rw [hnot] at hcall; contradiction
  | notify hcall hwoken => rw [signal_eq]; exact hnot
  | notifyFrom hi hwoken => rw [signal_eq]; exact hnot
  | @sample i task hi => cases task <;> exact hnot
  | _ => exact hnot

theorem stranded_of_window (hn : n < 2) {s s' : State n Task} {a : Action n Task}
    (hwindow : NotifiesInWindow s a) (hstep : Step s a s') :
    ∃ i t, step s' (.block i) = some t ∧ Stranded t := by
  cases hstep with
  | @notify task woken hcall hwoken =>
    obtain ⟨hq, hcalls, i, hi⟩ := hwindow
    have honly (j : Fin n) : j = i := Fin.ext (by omega)
    cases woken with
    | some j =>
      have hblocked : s.worker j = .blocked := hwoken
      rw [honly j, hi] at hblocked
      contradiction
    | none =>
      refine ⟨i, _, if_pos hi, hq, fun j => ?_, hcalls⟩
      rw [honly j]
      exact Function.update_self ..
  | _ => exact hwindow.elim

/-- Before `shutdown()` no task is stranded, if there are two workers or the last notification never
falls between the look at the queue and the block of the only one; and a notification that does
strands its task. -/
theorem not_stranded (hn : 1 ≤ n) {s : State n Task}
    (h : Runs step (fun s a => a ≠ .setDone ∧ (2 ≤ n ∨ ¬ NotifiesInWindow s a)) (init n Task) s) :
    ¬ Stranded s ∧ ∀ a s', step s a = some s' → ¬ (2 ≤ n ∨ ¬ NotifiesInWindow s a) →
      ∃ i t, step s' (.block i) = some t ∧ Stranded t := by
  have hinv : Serving s := h.invariant Serving serving_init fun s a s' hs ha hstep => by
    have hcase := step_cases hstep
    exact ⟨hs.attended.step hn hs.locked hs.closing hs.notCalled ha.1 ha.2 hcase,
      hs.locked.step hcase, hs.closing.step hcase, notCalled_step hs.notCalled ha.1 hcase⟩
  constructor
  · rintro ⟨hq, hblocked, hcalls⟩
    rcases hinv.attended hq with ⟨i, hi⟩ | hne
    · rw [hblocked i] at hi
      contradiction
    · exact hne hcalls
  · intro a s' hstep hbad
    rw [not_or, not_not] at hbad
    exact stranded_of_window (not_le.mp hbad.1) hbad.2 (step_cases hstep)

/-- With two workers the order of steps that strands a task in a pool of one does no harm. -/
theorem not_stranded_two : ∃ s : State 2 Nat,
    exec step (init 2 Nat) [.lock 0, .check 0, .push 7, .notify 7 none, .block 0] = some s ∧
      s.taskQueue.entries = [7] ∧ ¬ Stranded s := by
  obtain ⟨s, hs, hq⟩ : ∃ s, exec step (init 2 Nat)
      [.lock 0, .check 0, .push 7, .notify 7 none, .block 0] = some s ∧
      s.taskQueue.entries = [7] := ⟨_, rfl, rfl⟩
  refine ⟨s, hs, hq, (not_stranded (by decide) (Runs.start.exec _ hs fun s a ha => ⟨?_, ?_⟩)).1⟩
  · rintro rfl
    simp at ha
  · exact Or.inl (Nat.le_refl 2)

/-- The push and the notification fall between the look at the queue and the block. -/
theorem lost_wakeup : ∃ s : State 1 Nat,
    exec step (init 1 Nat) [.lock 0, .check 0, .push 7, .notify 7 none, .block 0] = some s ∧
      s.shutdown = .notCalled ∧ Stranded s :=
  ⟨_, rfl, rfl, by decide, fun i => by rw [Fin.fin_one_eq_zero i]; rfl, rfl⟩

end

end Autocomp.ThreadPool

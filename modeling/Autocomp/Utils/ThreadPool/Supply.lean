import Autocomp.Utils.ThreadPool.Wakeup
import Mathlib.Algebra.BigOperators.Group.Finset.Piecewise
import Mathlib.Algebra.Order.BigOperators.Group.Finset

namespace Autocomp.ThreadPool

open Transition State

variable {n : Nat} {Task : Type}

namespace Worker

/-- One for a worker that will pop a task or whose notification is still to come. -/
def supply : Worker Task → Nat
  | top | checking | woken | popping | running _ _ (some _) => 1
  | _ => 0

/-- Asleep, or about to be. -/
def idle : Worker Task → Bool
  | waiting | blocked => true
  | _ => false

theorem idle_iff (w : Worker Task) : w.idle = true ↔ w = waiting ∨ w = blocked := by
  cases w <;> simp [idle]

end Worker

def supply (s : State n Task) : Nat := ∑ i, (s.worker i).supply

theorem supply_setWorker (s : State n Task) (i : Fin n) (w : Worker Task) :
    supply (s.setWorker i w) + (s.worker i).supply = supply s + w.supply := by
  have hcomp : (fun j => ((s.setWorker i w).worker j).supply) =
      Function.update (fun j => (s.worker j).supply) i w.supply := by
    funext j
    rw [worker_setWorker, Function.update_apply]
    split <;> rfl
  rw [supply, hcomp, Finset.sum_update_of_mem (Finset.mem_univ i), supply,
    ← Finset.add_sum_erase _ _ (Finset.mem_univ i), Finset.sdiff_singleton_eq_erase]
  omega

/-- A notification nobody receives, made while a worker that found the queue empty has not blocked
yet, and without which there are tasks left for it. -/
def Lost (s : State n Task) : Action n Task → Prop
  | .notify _ _ | .notifyFrom _ _ =>
    (∀ i, s.worker i ≠ .blocked) ∧ (∃ i, s.worker i = .waiting) ∧
      s.calls.length + supply s ≤ s.taskQueue.entries.length
  | _ => False

instance [DecidableEq Task] (s : State n Task) (a : Action n Task) : Decidable (Lost s a) :=
  match a with
  | .notify _ _ | .notifyFrom _ _ =>
    inferInstanceAs (Decidable ((∀ i, s.worker i ≠ .blocked) ∧ (∃ i, s.worker i = .waiting) ∧
      s.calls.length + supply s ≤ s.taskQueue.entries.length))
  | .push _ | .lock _ | .check _ | .block _ | .wake _ | .pop _ | .sample _ | .pushFrom _ _
  | .finish _ | .setDone | .notifyAll | .join => inferInstanceAs (Decidable False)

/-- Every queued task has a worker on its way or a notification still to come, if anybody is
idle. -/
def Supplied (s : State n Task) : Prop :=
  (∃ i, (s.worker i).idle = true) →
    s.taskQueue.entries.length ≤ s.calls.length + supply s

theorem supplied_init : Supplied (init n Task) := fun _ => Nat.zero_le _

theorem Supplied.setWorker {s s' : State n Task} (h : Supplied s) {i : Fin n} {w : Worker Task}
    (hworker : s'.worker = (s.setWorker i w).worker)
    (hidle : w.idle = true → (s.worker i).idle = true)
    (hsum : s'.taskQueue.entries.length + s.calls.length + (s.worker i).supply ≤
      s.taskQueue.entries.length + s'.calls.length + w.supply ∨
      s'.taskQueue.entries.length = 0) : Supplied s' := by
  rintro ⟨j, hj⟩
  have hprev : ∃ j, (s.worker j).idle = true := by
    rw [hworker, worker_setWorker] at hj
    split at hj
    · exact ⟨i, hidle hj⟩
    · exact ⟨j, hj⟩
  have hs := h hprev
  have hsupply : supply s' = supply (s.setWorker i w) := by rw [supply, supply, hworker]
  have := supply_setWorker s i w
  omega

/-- Where nobody is blocked and nothing is lost, a worker about to sleep leaves one that is not. -/
theorem length_lt_of_idle {s : State n Task} (hwoken : CanWake s none)
    (hlost : ¬ ((∀ i, s.worker i ≠ .blocked) ∧ (∃ i, s.worker i = .waiting) ∧
      s.calls.length + supply s ≤ s.taskQueue.entries.length)) {j : Fin n}
    (hj : (s.worker j).idle = true) :
    s.taskQueue.entries.length < s.calls.length + supply s := by
  have hwaiting := ((Worker.idle_iff _).mp hj).resolve_right (hwoken j)
  by_contra hle
  exact hlost ⟨hwoken, ⟨j, hwaiting⟩, not_lt.mp hle⟩

theorem Supplied.notifyFrom {s : State n Task} (h : Supplied s) {i : Fin n}
    {woken : Option (Fin n)} {t c : Task} {d : Bool} (hlost : ¬ Lost s (.notifyFrom i woken))
    (hi : s.worker i = .running t d (some c)) (hwoken : CanWake s woken) :
    Supplied { (s.signal woken).setWorker i (.running t d none) with
      accepted := s.accepted ++ [c] } := by
  cases woken with
  | some j =>
    have hb : s.worker j = .blocked := hwoken
    have hij : i ≠ j := by
      rintro rfl
      rw [hi] at hb
      contradiction
    have hs := h ⟨j, by rw [hb]; rfl⟩
    have hwake := supply_setWorker s j .woken
    have hrun := supply_setWorker (s.setWorker j .woken) i (.running t d none)
    rw [worker_setWorker, if_neg hij, hi] at hrun
    rw [hb] at hwake
    simp only [Worker.supply] at hwake hrun
    intro _
    change s.taskQueue.entries.length ≤ s.calls.length +
      supply ((s.setWorker j .woken).setWorker i (.running t d none))
    omega
  | none =>
    rintro ⟨j, hj⟩
    change ((s.setWorker i (.running t d none)).worker j).idle = true at hj
    rw [worker_setWorker] at hj
    have hidle : (s.worker j).idle = true := by
      split at hj
      · contradiction
      · exact hj
    have hlt := length_lt_of_idle hwoken hlost hidle
    have hrun := supply_setWorker s i (.running t d none)
    rw [hi] at hrun
    simp only [Worker.supply] at hrun
    change s.taskQueue.entries.length ≤ s.calls.length + supply (s.setWorker i (.running t d none))
    omega

section

variable [DecidableEq Task]

theorem Supplied.notify {s : State n Task} (h : Supplied s) {task : Task} {woken : Option (Fin n)}
    (hlost : ¬ Lost s (.notify task woken)) (hcall : task ∈ s.calls) (hwoken : CanWake s woken) :
    Supplied { s.signal woken with
      calls := s.calls.erase task, accepted := s.accepted ++ [task] } := by
  have hpos := List.length_pos_of_mem hcall
  cases woken with
  | some j =>
    have hb : s.worker j = .blocked := hwoken
    refine h.setWorker (i := j) (w := .woken) rfl (fun hi => by contradiction) (Or.inl ?_)
    simp only [List.length_erase_of_mem hcall, hb, Worker.supply]
    change s.taskQueue.entries.length + _ + 0 ≤ _
    omega
  | none =>
    rintro ⟨j, hj⟩
    have hlt := length_lt_of_idle hwoken hlost hj
    change s.taskQueue.entries.length ≤ (s.calls.erase task).length + supply s
    rw [List.length_erase_of_mem hcall]
    omega

theorem Supplied.step {s s' : State n Task} {a : Action n Task} (h : Supplied s)
    (hlost : ¬ Lost s a) (hstep : Step s a s') : Supplied s' := by
  cases hstep with
  | push hnew =>
    intro hidle
    have := h hidle
    simp only [State.enqueue, SynchronousQueue.entries_push, List.length_append,
      List.length_singleton]
    change _ ≤ _ + supply s
    omega
  | notify hcall hwoken => exact h.notify hlost hcall hwoken
  | @lock i hi hfree =>
    refine h.setWorker (i := i) (w := .checking) rfl (fun hi => by contradiction) (Or.inl ?_)
    rcases hi with hi | hi <;> rw [hi] <;> exact Nat.le_refl _
  | @checkTrue i hi hq =>
    refine h.setWorker (i := i) (w := .popping) rfl (fun hi => by contradiction) (Or.inl ?_)
    rw [hi]
    exact Nat.le_refl _
  | checkFalse hi hq hdone =>
    intro _
    change s.taskQueue.entries.length ≤ _
    rw [hq]
    exact Nat.zero_le _
  | @block i hi =>
    refine h.setWorker (i := i) (w := .blocked) rfl (fun _ => by rw [hi]; rfl) (Or.inl ?_)
    rw [hi]
    exact Nat.le_refl _
  | @wake i hi =>
    refine h.setWorker (i := i) (w := .woken) rfl (fun hi => by contradiction) (Or.inl ?_)
    rw [hi]
    exact Nat.le_succ _
  | @pop i hi =>
    refine h.setWorker (i := i) (w := .popped s.taskQueue.entries.head?) rfl
      (fun hi => by contradiction) ?_
    simp only [SynchronousQueue.entries_pop, List.length_tail, hi, Worker.supply, State.setWorker]
    omega
  | @sample i task hi =>
    cases task with
    | none =>
      refine h.setWorker (i := i) (w := if s.taskQueue.isEmpty && s.done then .exited else .top) rfl
        (fun hi => by split at hi <;> contradiction) (Or.inl ?_)
      rw [hi]
      exact Nat.le_add_right _ _
    | some t =>
      refine h.setWorker (i := i) (w := .running t (s.taskQueue.isEmpty && s.done) none) rfl
        (fun hi => by contradiction) (Or.inl ?_)
      rw [hi]
      exact Nat.le_refl _
  | @pushFrom i task t d hi hnew =>
    refine h.setWorker (i := i) (w := .running t d (some task)) rfl (fun hi => by contradiction)
      (Or.inl ?_)
    simp only [State.setWorker, State.enqueue, SynchronousQueue.entries_push, List.length_append,
      List.length_singleton, hi, Worker.supply]
    omega
  | notifyFrom hi hwoken => exact h.notifyFrom hlost hi hwoken
  | @finish i t d hi =>
    refine h.setWorker (i := i) (w := if d then .exited else .top) rfl
      (fun hi => by split at hi <;> contradiction) (Or.inl ?_)
    rw [hi]
    exact Nat.le_add_right _ _
  | setDone hcall hfree => exact h
  | notifyAll hcall =>
    rintro ⟨j, hj⟩
    simp only at hj
    split at hj
    · contradiction
    · refine (h ⟨j, hj⟩).trans (Nat.add_le_add_left ?_ _)
      refine Finset.sum_le_sum fun k _ => ?_
      simp only
      split
      · rename_i hb
        rw [hb]
        exact Nat.zero_le _
      · exact Nat.le_refl _
  | join hcall hexit => exact h

end

end Autocomp.ThreadPool

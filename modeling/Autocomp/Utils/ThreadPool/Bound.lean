import Autocomp.Utils.ThreadPool.Wakeup
import Mathlib.Algebra.BigOperators.Group.Finset.Piecewise
import Mathlib.Algebra.Order.BigOperators.Group.Finset

namespace Autocomp.ThreadPool

open Transition State

variable {n : Nat} {Task : Type}

/-- What the workers know about the queue and about the shutdown. -/
structure Settled (s : State n Task) : Prop where
  popping : ∀ i, s.worker i = .popping → s.taskQueue.entries ≠ [] ∨ s.done = true
  popped : ∀ i, s.worker i = .popped none → s.done = true
  waiting : ∀ i, s.worker i = .waiting → s.done = false
  blocked : ∀ i, s.worker i = .blocked → s.shutdown = .notCalled ∨ s.shutdown = .doneSet
  done : s.shutdown ≠ .notCalled → s.done = true

theorem settled_init : Settled (init n Task) := by
  constructor <;> simp [init]

/-- Where the queue does not become empty and the shutdown does not go on, only the worker that moves
has to be looked at. -/
theorem Settled.setWorker {s s' : State n Task} (h : Settled s) {i : Fin n} {w : Worker Task}
    (hworker : s'.worker = (s.setWorker i w).worker)
    (hqueue : s.taskQueue.entries ≠ [] → s'.taskQueue.entries ≠ []) (hdone : s'.done = s.done)
    (hshutdown : s'.shutdown = s.shutdown)
    (hpopping : w = .popping → s.taskQueue.entries ≠ [] ∨ s.done = true)
    (hpopped : w = .popped none → s.done = true) (hwaiting : w = .waiting → s.done = false)
    (hblocked : w = .blocked → s.shutdown = .notCalled ∨ s.shutdown = .doneSet) : Settled s' := by
  constructor <;> simp only [hworker, hdone, hshutdown, worker_setWorker]
  · intro j hj
    split at hj
    · exact (hpopping hj).imp_left hqueue
    · exact (h.popping j hj).imp_left hqueue
  · intro j hj
    split at hj
    · exact hpopped hj
    · exact h.popped j hj
  · intro j hj
    split at hj
    · exact hwaiting hj
    · exact h.waiting j hj
  · intro j hj
    split at hj
    · exact hblocked hj
    · exact h.blocked j hj
  · exact h.done

theorem Settled.signal {s s' : State n Task} (h : Settled s) {woken : Option (Fin n)}
    (hworker : s'.worker = (s.signal woken).worker)
    (hqueue : s'.taskQueue = s.taskQueue) (hdone : s'.done = s.done)
    (hshutdown : s'.shutdown = s.shutdown) : Settled s' := by
  cases woken with
  | none =>
    constructor <;> simp only [hworker, hqueue, hdone, hshutdown]
    · exact h.popping
    · exact h.popped
    · exact h.waiting
    · exact h.blocked
    · exact h.done
  | some j =>
    exact h.setWorker (i := j) (w := .woken) hworker (by rw [hqueue]; exact id) hdone hshutdown
      (by simp) (by simp) (by simp) (by simp)

section

variable [DecidableEq Task]

theorem Settled.step {s s' : State n Task} {a : Action n Task} (h : Settled s) (hlock : Locked s)
    (hstep : Step s a s') : Settled s' := by
  cases hstep with
  | push hnew =>
    constructor
    · intro i hi
      exact .inl (by simp [enqueue, SynchronousQueue.push])
    · exact h.popped
    · exact h.waiting
    · exact h.blocked
    · exact h.done
  | notify hcall hwoken =>
    exact h.signal rfl (by rw [signal_eq]) (by rw [signal_eq]) (by rw [signal_eq])
  | @lock i hi hfree =>
    exact h.setWorker (i := i) (w := .checking) rfl id rfl rfl (by simp) (by simp) (by simp) (by simp)
  | @checkTrue i hi hq =>
    exact h.setWorker (i := i) (w := .popping) rfl id rfl rfl (fun _ => hq) (by simp) (by simp)
      (by simp)
  | @checkFalse i hi hq hdone =>
    exact h.setWorker (i := i) (w := .waiting) rfl id rfl rfl (by simp) (by simp) (fun _ => hdone)
      (by simp)
  | @block i hi =>
    refine h.setWorker (i := i) (w := .blocked) rfl id rfl rfl (by simp) (by simp) (by simp)
      fun _ => ?_
    -- a worker that has found the predicate false keeps `shutdown` from setting `done`
    by_contra hcalled
    have hdone := h.done (not_or.mp hcalled).1
    rw [h.waiting i hi] at hdone
    contradiction
  | @wake i hi =>
    exact h.setWorker (i := i) (w := .woken) rfl id rfl rfl (by simp) (by simp) (by simp) (by simp)
  | @pop i hi =>
    have hsole : ∀ j, (s.worker j).locking = true → j = i := by
      intro j hj
      exact hlock.exclusive hj (by rw [hi]; rfl)
    constructor
    · intro j hj
      simp only [worker_setWorker] at hj
      split at hj
      · contradiction
      · rename_i hne
        exact absurd (hsole j (by rw [hj]; rfl)) hne
    · intro j hj
      simp only [worker_setWorker] at hj
      split at hj
      · rw [Worker.popped.injEq, List.head?_eq_none_iff] at hj
        exact (h.popping i hi).resolve_left (not_not_intro hj)
      · exact h.popped j hj
    · intro j hj
      simp only [worker_setWorker] at hj
      split at hj
      · contradiction
      · exact h.waiting j hj
    · intro j hj
      simp only [worker_setWorker] at hj
      split at hj
      · contradiction
      · exact h.blocked j hj
    · exact h.done
  | @sample i task hi =>
    cases task with
    | none =>
      refine h.setWorker (i := i) (w := if s.taskQueue.isEmpty && s.done then .exited else .top) rfl
        id rfl rfl ?_ ?_ ?_ ?_ <;> split <;> simp
    | some t =>
      exact h.setWorker (i := i) (w := .running t (s.taskQueue.isEmpty && s.done) none) rfl id rfl rfl
        (by simp) (by simp) (by simp) (by simp)
  | @pushFrom i task t d hi hnew =>
    exact h.setWorker (i := i) (w := .running t d (some task)) rfl
      (fun _ => by simp [enqueue, State.setWorker, SynchronousQueue.push]) rfl rfl (by simp) (by simp)
      (by simp) (by simp)
  | @notifyFrom i woken t c d hi hwoken =>
    have hsignal : Settled (s.signal woken) :=
      h.signal rfl (by rw [signal_eq]) (by rw [signal_eq]) (by rw [signal_eq])
    exact hsignal.setWorker (i := i) (w := .running t d none) rfl id rfl rfl (by simp) (by simp)
      (by simp) (by simp)
  | @finish i t d hi =>
    refine h.setWorker (i := i) (w := if d then .exited else .top) rfl id rfl rfl ?_ ?_ ?_ ?_ <;>
      split <;> simp
  | setDone hcall hfree =>
    refine ⟨fun i hi => .inr rfl, fun _ _ => rfl, fun i hi => ?_, fun _ _ => .inr rfl, fun _ => rfl⟩
    have hheld := (hlock i).mp (by rw [hi]; rfl)
    rw [hfree] at hheld
    contradiction
  | notifyAll hcall =>
    have hdone := h.done (by rw [hcall]; simp)
    refine ⟨fun _ _ => .inr hdone, fun _ _ => hdone, fun i hi => ?_, fun i hi => ?_, fun _ => hdone⟩
    · simp only at hi
      split at hi
      · contradiction
      · exact h.waiting i hi
    · simp only at hi
      split at hi
      · contradiction
      · rename_i hne
        exact absurd hi hne
  | join hcall hexit =>
    have hdone := h.done (by rw [hcall]; simp)
    refine ⟨fun _ _ => .inr hdone, fun _ _ => hdone, h.waiting, fun i hi => ?_, fun _ => hdone⟩
    rw [hexit i] at hi
    contradiction

end

namespace Worker

/-- The steps of the worker until it sleeps or leaves, apart from those its tasks ask for. A worker
that has popped nothing goes on only if the queue has been filled since. -/
def rank (empty : Bool) : Worker Task → Nat
  | running _ _ (some _) => 12
  | popped (some _) => 7
  | running _ _ none => 6
  | popped none => if empty then 2 else 6
  | top | woken => 5
  | checking => 4
  | popping => 3
  | waiting => 1
  | blocked | exited => 0

theorem rank_filled (w : Worker Task) (empty : Bool) : w.rank false ≤ w.rank empty + 4 := by
  cases empty
  · exact Nat.le_add_right _ _
  · unfold rank
    split <;> simp

theorem rank_filled_le (w : Worker Task) (empty : Bool) : w.rank empty ≤ w.rank false := by
  cases empty
  · exact Nat.le_refl _
  · unfold rank
    split <;> simp

end Worker

def rank (s : State n Task) : Nat :=
  5 * s.taskQueue.entries.length + ∑ i, (s.worker i).rank s.taskQueue.entries.isEmpty

/-- What a step lets the workers do. -/
def Action.cost : Action n Task → Nat
  | .push _ => 4 * n + 6
  | .pushFrom _ _ => 4 * n + 12
  | .notify _ _ | .wake _ => 6
  | .setDone | .join => 1
  | .notifyAll => 5 * n + 1
  | _ => 0

theorem sum_setWorker (f : Worker Task → Nat) (s : State n Task) (i : Fin n) (w : Worker Task) :
    ∑ j, f ((s.setWorker i w).worker j) + f (s.worker i) = ∑ j, f (s.worker j) + f w := by
  have hcomp : (fun j => f ((s.setWorker i w).worker j)) =
      Function.update (fun j => f (s.worker j)) i (f w) := by
    funext j
    rw [worker_setWorker, Function.update_apply]
    split <;> rfl
  rw [hcomp, Finset.sum_update_of_mem (Finset.mem_univ i),
    ← Finset.add_sum_erase _ _ (Finset.mem_univ i), Finset.sdiff_singleton_eq_erase]
  omega

theorem rank_setWorker {s s' : State n Task} {i : Fin n} {w : Worker Task}
    (hworker : s'.worker = (s.setWorker i w).worker) (hqueue : s'.taskQueue = s.taskQueue) (k m : Nat)
    (hw : w.rank s.taskQueue.entries.isEmpty + k ≤
      (s.worker i).rank s.taskQueue.entries.isEmpty + m) : rank s' + k ≤ rank s + m := by
  have hsum := sum_setWorker (Worker.rank s.taskQueue.entries.isEmpty) s i w
  simp only [rank, hworker, hqueue]
  omega

theorem rank_signal {s s' : State n Task} {woken : Option (Fin n)} (hwoken : CanWake s woken)
    (hworker : s'.worker = (s.signal woken).worker) (hqueue : s'.taskQueue = s.taskQueue) :
    rank s' < rank s + 6 := by
  cases woken with
  | none =>
    have heq : rank s' = rank s := by simp only [rank, hworker, hqueue, State.signal]
    omega
  | some j =>
    have hblocked : s.worker j = .blocked := hwoken
    exact rank_setWorker (w := .woken) hworker hqueue 1 6 (by simp [hblocked, Worker.rank])

theorem rank_enqueue {s s' : State n Task} (task : Task) (hworker : s'.worker = s.worker)
    (hqueue : s'.taskQueue = s.taskQueue.push task) : rank s' < rank s + (4 * n + 6) := by
  have hle : ∑ i, (s.worker i).rank false ≤
      ∑ i, ((s.worker i).rank s.taskQueue.entries.isEmpty + 4) :=
    Finset.sum_le_sum fun i _ => Worker.rank_filled _ _
  rw [Finset.sum_add_distrib, Finset.sum_const, Finset.card_univ, Fintype.card_fin,
    Nat.nsmul_eq_mul] at hle
  have hfilled : (s.taskQueue.entries ++ [task]).isEmpty = false := by simp
  simp only [rank, hworker, hqueue, SynchronousQueue.entries_push, List.length_append,
    List.length_singleton, hfilled]
  omega

theorem rank_woken {s s' : State n Task}
    (hworker : ∀ i, s'.worker i = .woken ∨ s'.worker i = s.worker i)
    (hqueue : s'.taskQueue = s.taskQueue) : rank s' ≤ rank s + 5 * n := by
  have hle : ∑ i, (s'.worker i).rank s.taskQueue.entries.isEmpty ≤
      ∑ i, ((s.worker i).rank s.taskQueue.entries.isEmpty + 5) := by
    refine Finset.sum_le_sum fun i _ => ?_
    rcases hworker i with hi | hi <;> rw [hi]
    · exact Nat.le_add_left _ _
    · exact Nat.le_add_right _ _
  rw [Finset.sum_add_distrib, Finset.sum_const, Finset.card_univ, Fintype.card_fin,
    Nat.nsmul_eq_mul] at hle
  simp only [rank, hqueue]
  omega

theorem rank_pop {s s' : State n Task} {i : Fin n} (hi : s.worker i = .popping)
    (hworker : s'.worker = (s.setWorker i (.popped s.taskQueue.entries.head?)).worker)
    (hqueue : s'.taskQueue.entries = s.taskQueue.entries.tail) : rank s' < rank s := by
  have hsum := sum_setWorker (Worker.rank s.taskQueue.entries.isEmpty) s i
    (.popped s.taskQueue.entries.head?)
  rw [hi] at hsum
  simp only [rank, hworker, hqueue]
  cases hentries : s.taskQueue.entries with
  | nil =>
    rw [hentries] at hsum
    have hpopped : (Worker.popped (none : Option Task)).rank true = 2 := rfl
    have hpopping : (Worker.popping : Worker Task).rank true = 3 := rfl
    simp only [List.isEmpty_nil, List.head?_nil, List.tail_nil] at hsum ⊢
    omega
  | cons task tasks =>
    rw [hentries] at hsum
    have hle : ∑ j, ((s.setWorker i (.popped (some task))).worker j).rank tasks.isEmpty ≤
        ∑ j, ((s.setWorker i (.popped (some task))).worker j).rank false :=
      Finset.sum_le_sum fun j _ => Worker.rank_filled_le _ _
    have hpopped : (Worker.popped (some task)).rank false = 7 := rfl
    have hpopping : (Worker.popping : Worker Task).rank false = 3 := rfl
    simp only [List.isEmpty_cons, List.head?_cons, List.tail_cons, List.length_cons] at hsum hle ⊢
    omega

theorem rank_leave {s : State n Task} (h : Settled s) {i : Fin n} {task : Option Task}
    (hi : s.worker i = .popped task) : rank (leave s i task) < rank s := by
  cases task with
  | some t =>
    exact rank_setWorker (s := s) (i := i) (w := .running t (s.taskQueue.isEmpty && s.done) none) rfl
      rfl 1 0 (by simp [hi, Worker.rank])
  | none =>
    refine rank_setWorker (s := s) (i := i)
      (w := if s.taskQueue.isEmpty && s.done then .exited else .top) rfl rfl 1 0 ?_
    rw [hi, h.popped i hi, Bool.and_true, SynchronousQueue.isEmpty]
    cases s.taskQueue.entries.isEmpty <;> simp [Worker.rank]

section

variable [DecidableEq Task]

/-- A step raises the rank by less than it costs. -/
theorem rank_step {s s' : State n Task} {a : Action n Task} (h : Settled s)
    (hstep : Step s a s') : rank s' < rank s + a.cost := by
  cases hstep with
  | @push task hnew => exact rank_enqueue task rfl rfl
  | notify hcall hwoken => exact rank_signal hwoken rfl (by rw [signal_eq])
  | @lock i hi hfree =>
    refine rank_setWorker (s := s) (i := i) (w := .checking) rfl rfl 1 0 ?_
    rcases hi with hi | hi <;> simp [hi, Worker.rank]
  | @checkTrue i hi hq =>
    exact rank_setWorker (s := s) (i := i) (w := .popping) rfl rfl 1 0 (by simp [hi, Worker.rank])
  | @checkFalse i hi hq hdone =>
    exact rank_setWorker (s := s) (i := i) (w := .waiting) rfl rfl 1 0 (by simp [hi, Worker.rank])
  | @block i hi =>
    exact rank_setWorker (s := s) (i := i) (w := .blocked) rfl rfl 1 0 (by simp [hi, Worker.rank])
  | @wake i hi =>
    exact rank_setWorker (s := s) (i := i) (w := .woken) rfl rfl 1 6 (by simp [hi, Worker.rank])
  | @pop i hi => exact rank_pop hi rfl (SynchronousQueue.entries_pop _)
  | sample hi => exact rank_leave h hi
  | @pushFrom i task t d hi hnew =>
    have hpush : rank (s.enqueue task) < rank s + (4 * n + 6) := rank_enqueue task rfl rfl
    have hmove : rank ((s.enqueue task).setWorker i (.running t d (some task))) + 0 ≤
        rank (s.enqueue task) + 6 :=
      rank_setWorker rfl rfl 0 6 (by simp [hi, Worker.rank])
    simp only [Action.cost]
    omega
  | @notifyFrom i woken t c d hi hwoken =>
    have hsignal : rank (s.signal woken) < rank s + 6 :=
      rank_signal hwoken rfl (by rw [signal_eq])
    have hrun : (s.signal woken).worker i = .running t d (some c) := by
      rcases worker_signal hwoken i with hkept | ⟨hblocked, -⟩
      · rw [hkept, hi]
      · rw [hi] at hblocked
        contradiction
    -- the call of `run` that ends here has paid for the wake-up
    refine Nat.lt_of_add_lt_add_right (n := 6) (Nat.lt_of_le_of_lt (rank_setWorker
      (s := s.signal woken) (i := i) (w := .running t d none) rfl rfl 6 0 ?_) hsignal)
    simp [hrun, Worker.rank]
  | @finish i t d hi =>
    refine rank_setWorker (s := s) (i := i) (w := if d then .exited else .top) rfl rfl 1 0 ?_
    cases d <;> simp [hi, Worker.rank]
  | setDone hcall hfree => exact Nat.lt_succ_self _
  | notifyAll hcall =>
    refine Nat.lt_succ_of_le (rank_woken (fun i => ?_) rfl)
    simp only
    split
    · exact .inl rfl
    · exact .inr rfl
  | join hcall hexit => exact Nat.lt_succ_self _

end

theorem rank_init : rank (init n Task) = 5 * n := by
  simp [rank, init, SynchronousQueue.empty, Worker.rank, Nat.mul_comm]

end Autocomp.ThreadPool

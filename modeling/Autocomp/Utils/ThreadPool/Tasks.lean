import Autocomp.Utils.ThreadPool.Model
import Mathlib.Data.List.Nodup

/-!
# Every task runs once

The queue and the workers account for every submitted task, in any interleaving of calls of `run`,
worker steps and one `shutdown()`. No mutex is needed for this: a task is owned by the worker that
popped it.
-/

namespace Autocomp.ThreadPool

open Transition State

variable {n : Nat} {Task : Type}

/-- Where the submitted tasks are. -/
structure Accounted (s : State n Task) : Prop where
  order : s.submitted = s.dequeued ++ s.taskQueue.entries
  submitted : s.submitted.Nodup
  held : ∀ i t, (s.worker i).task = some t → t ∈ s.dequeued
  unstarted : ∀ i t, (s.worker i).task = some t → (s.worker i).executing = none → t ∉ s.started
  executing : ∀ i t, (s.worker i).executing = some t → t ∈ s.started ∧ t ∉ s.finished
  owner : ∀ i j t, (s.worker i).task = some t → (s.worker j).task = some t → i = j
  started_sub : ∀ t ∈ s.started, t ∈ s.dequeued
  started : s.started.Nodup
  finished_sub : ∀ t ∈ s.finished, t ∈ s.started
  finished : s.finished.Nodup
  complete : ∀ t ∈ s.dequeued, t ∈ s.finished ∨ ∃ i, (s.worker i).task = some t

theorem accounted_init : Accounted (init n Task) := by
  constructor <;> simp [init, SynchronousQueue.empty, Worker.task, Worker.executing]

theorem Accounted.congr {s s' : State n Task} (h : Accounted s)
    (hqueue : s'.taskQueue = s.taskQueue) (hsub : s'.submitted = s.submitted)
    (hdeq : s'.dequeued = s.dequeued) (hstart : s'.started = s.started)
    (hfin : s'.finished = s.finished) (htask : ∀ i, (s'.worker i).task = (s.worker i).task)
    (hexec : ∀ i, (s'.worker i).executing = (s.worker i).executing) : Accounted s' := by
  constructor <;> simp only [hqueue, hsub, hdeq, hstart, hfin, htask, hexec]
  · exact h.order
  · exact h.submitted
  · exact h.held
  · exact h.unstarted
  · exact h.executing
  · exact h.owner
  · exact h.started_sub
  · exact h.started
  · exact h.finished_sub
  · exact h.finished
  · exact h.complete

theorem Accounted.enqueue {s : State n Task} (h : Accounted s) {task : Task}
    (hnew : task ∉ s.submitted) : Accounted (s.enqueue task) := by
  constructor
  · simp [State.enqueue, h.order]
  · simp only [State.enqueue]
    exact List.nodup_append.mpr ⟨h.submitted, List.nodup_singleton _, by
      intro a ha b hb
      rw [List.mem_singleton.mp hb]
      exact fun heq => hnew (heq ▸ ha)⟩
  · exact h.held
  · exact h.unstarted
  · exact h.executing
  · exact h.owner
  · exact h.started_sub
  · exact h.started
  · exact h.finished_sub
  · exact h.finished
  · exact h.complete

theorem Accounted.setWorker {s : State n Task} (h : Accounted s) {i : Fin n} {w : Worker Task}
    (htask : w.task = (s.worker i).task) (hexec : w.executing = (s.worker i).executing) :
    Accounted (s.setWorker i w) := by
  refine h.congr rfl rfl rfl rfl rfl (fun j => ?_) fun j => ?_
  · rw [worker_setWorker]
    split
    · rename_i hj
      rw [hj, htask]
    · rfl
  · rw [worker_setWorker]
    split
    · rename_i hj
      rw [hj, hexec]
    · rfl

theorem Accounted.signal {s : State n Task} (h : Accounted s) {woken : Option (Fin n)}
    (hwoken : CanWake s woken) : Accounted (s.signal woken) := by
  rw [signal_eq]
  refine h.congr rfl rfl rfl rfl rfl (fun j => ?_) fun j => ?_ <;>
    rcases worker_signal hwoken j with hj | ⟨hb, hj⟩ <;> simp only [hj]
  · rw [hb]; rfl
  · rw [hb]; rfl

theorem Accounted.pop {s : State n Task} (h : Accounted s) {i : Fin n}
    (hi : s.worker i = .popping) :
    Accounted { s.setWorker i (.popped s.taskQueue.entries.head?) with
      taskQueue := s.taskQueue.pop.2
      dequeued := s.dequeued ++ s.taskQueue.entries.head?.toList } := by
  have hord := h.order
  have hnodup := h.submitted
  have hi' : (s.worker i).task = none := by rw [hi]; rfl
  have hx' : (s.worker i).executing = none := by rw [hi]; rfl
  cases hq : s.taskQueue.entries with
  | nil =>
    have hworker := h.setWorker (i := i) (w := .popped none) (by rw [hi]; rfl) (by rw [hi]; rfl)
    have hpop : s.taskQueue.pop.2 = s.taskQueue := by
      rw [SynchronousQueue.pop, hq, List.tail_nil, ← hq]
    exact hworker.congr hpop rfl (by simp [State.setWorker]) rfl rfl (fun _ => rfl) fun _ => rfl
  | cons t rest =>
    rw [hq] at hord
    have ht : t ∉ s.dequeued := by
      rw [hord] at hnodup
      exact fun hm => (List.nodup_append.mp hnodup).2.2 t hm t (by simp) rfl
    have htask (j : Fin n) : ((s.setWorker i (.popped (some t))).worker j).task =
        if j = i then some t else (s.worker j).task := by
      rw [worker_setWorker]; split <;> rfl
    have hexec (j : Fin n) : ((s.setWorker i (.popped (some t))).worker j).executing =
        if j = i then none else (s.worker j).executing := by
      rw [worker_setWorker]; split <;> rfl
    constructor <;> simp only [List.head?_cons, Option.toList_some, htask, hexec,
      SynchronousQueue.entries_pop, hq, List.tail_cons]
    · simp [State.setWorker, hord]
    · exact hnodup
    · have hheld := h.held
      grind [State.setWorker]
    · have hheld := h.held
      have hunstarted := h.unstarted
      have hsub := h.started_sub
      grind [State.setWorker]
    · have hexecuting := h.executing
      grind [State.setWorker]
    · have howner := h.owner
      have hheld := h.held
      grind
    · have hsub := h.started_sub
      grind [State.setWorker]
    · exact h.started
    · exact h.finished_sub
    · exact h.finished
    · intro t' ht'
      rcases List.mem_append.mp ht' with hm | hm
      · rcases h.complete t' hm with hf | ⟨j, hj⟩
        · exact Or.inl hf
        · exact Or.inr ⟨j, by grind⟩
      · exact Or.inr ⟨i, by grind⟩

/-- The task popped starts when the mutex is released. -/
theorem Accounted.leave {s : State n Task} (h : Accounted s) {i : Fin n} {task : Option Task}
    (hi : s.worker i = .popped task) : Accounted (leave s i task) := by
  have hi' : (s.worker i).task = task := by rw [hi]; rfl
  have hx' : (s.worker i).executing = none := by rw [hi]; rfl
  cases task with
  | none =>
    have hworker := h.setWorker (i := i)
      (w := if s.taskQueue.isEmpty && s.done then .exited else .top)
      (by rw [hi']; split <;> rfl) (by rw [hx']; split <;> rfl)
    exact hworker.congr rfl rfl rfl (List.append_nil _) rfl (fun _ => rfl) fun _ => rfl
  | some t =>
    have htask (j : Fin n) : ((ThreadPool.leave s i (some t)).worker j).task = (s.worker j).task := by
      simp only [ThreadPool.leave, worker_setWorker]
      split
      · rename_i hj
        rw [hj, hi']
        rfl
      · rfl
    have hexec (j : Fin n) : ((ThreadPool.leave s i (some t)).worker j).executing =
        if j = i then some t else (s.worker j).executing := by
      simp only [ThreadPool.leave, worker_setWorker]
      split <;> rfl
    have hheld := h.held i t hi'
    have hnew := h.unstarted i t hi' hx'
    constructor <;> try simp only [htask, hexec]
    · exact h.order
    · exact h.submitted
    · exact h.held
    · have howner := h.owner
      have hunstarted := h.unstarted
      grind [ThreadPool.leave, State.setWorker]
    · have hexecuting := h.executing
      have hfin := h.finished_sub
      grind [ThreadPool.leave, State.setWorker]
    · exact h.owner
    · have hsub := h.started_sub
      grind [ThreadPool.leave, State.setWorker]
    · have hnodup := h.started
      grind [ThreadPool.leave, State.setWorker]
    · have hfin := h.finished_sub
      grind [ThreadPool.leave, State.setWorker]
    · exact h.finished
    · exact h.complete

theorem Worker.task_of_executing {w : Worker Task} {t : Task} (h : w.executing = some t) :
    w.task = some t := by
  cases w <;> simp_all [Worker.executing, Worker.task]

theorem Accounted.finish {s : State n Task} (h : Accounted s) {i : Fin n} {t : Task} {d : Bool}
    {c : Option Task} (hi : s.worker i = .running t d c) :
    Accounted { s.setWorker i (if d then .exited else .top) with finished := s.finished ++ [t] } := by
  have hi' : (s.worker i).task = some t := by rw [hi]; rfl
  have hx' : (s.worker i).executing = some t := by rw [hi]; rfl
  have htask (j : Fin n) : ((s.setWorker i (if d then .exited else .top)).worker j).task =
      if j = i then none else (s.worker j).task := by
    rw [worker_setWorker]; split
    · split <;> rfl
    · rfl
  have hexec (j : Fin n) : ((s.setWorker i (if d then .exited else .top)).worker j).executing =
      if j = i then none else (s.worker j).executing := by
    rw [worker_setWorker]; split
    · split <;> rfl
    · rfl
  obtain ⟨hstarted, hunfinished⟩ := h.executing i t hx'
  constructor <;> simp only [htask, hexec]
  · exact h.order
  · exact h.submitted
  · have hheld := h.held
    grind [State.setWorker]
  · have hunstarted := h.unstarted
    grind [State.setWorker]
  · have hexecuting := h.executing
    have howner := h.owner
    intro j t' hj
    grind [State.setWorker, Worker.task_of_executing]
  · have howner := h.owner
    grind
  · exact h.started_sub
  · exact h.started
  · have hfin := h.finished_sub
    grind [State.setWorker]
  · have hnodup := h.finished
    grind
  · intro t' ht'
    rcases h.complete t' ht' with hf | ⟨j, hj⟩
    · exact Or.inl (List.mem_append_left _ hf)
    · by_cases hji : j = i
      · refine Or.inl (List.mem_append_right _ ?_)
        rw [hji, hi'] at hj
        exact List.mem_singleton.mpr (Option.some.inj hj).symm
      · exact Or.inr ⟨j, by rw [if_neg hji, hj]⟩

/-- What the shutdown protocol keeps: no worker leaves its loop before `done` is set and the tasks
accepted by then are out of the queue. -/
structure Closing (s : State n Task) : Prop where
  calls : ∀ t ∈ s.calls, t ∈ s.submitted
  calling : ∀ i t, (s.worker i).calling = some t → t ∈ s.submitted
  accepted : ∀ t ∈ s.accepted, t ∈ s.submitted
  early : ∀ t ∈ s.early, t ∈ s.submitted
  notCalled : s.shutdown = .notCalled → s.done = false
  leaving : ∀ i, (s.worker i).leaving = true → s.done = true ∧ ∀ t ∈ s.early, t ∉ s.taskQueue.entries
  returned : s.shutdown = .returned → ∀ i, s.worker i = .exited

theorem closing_init : Closing (init n Task) := by
  constructor <;> simp [init, Worker.calling, Worker.leaving]

theorem Closing.setWorker {s : State n Task} (h : Closing s) {i : Fin n} {w : Worker Task}
    (hcalling : ∀ t, w.calling = some t → t ∈ s.submitted)
    (hleaving : w.leaving = true → (s.worker i).leaving = true)
    (hexit : s.worker i = .exited → w = .exited) : Closing (s.setWorker i w) := by
  refine ⟨h.calls, fun j t hj => ?_, h.accepted, h.early, h.notCalled, fun j hj => ?_,
    fun hr j => ?_⟩
  · rw [worker_setWorker] at hj
    split at hj
    · exact hcalling t hj
    · exact h.calling j t hj
  · rw [worker_setWorker] at hj
    split at hj
    · exact h.leaving i (hleaving hj)
    · exact h.leaving j hj
  · rw [worker_setWorker]
    split
    · exact hexit (h.returned hr i)
    · exact h.returned hr j

theorem Closing.signal {s : State n Task} (h : Closing s) {woken : Option (Fin n)}
    (hwoken : CanWake s woken) : Closing (s.signal woken) := by
  cases woken with
  | none => exact h
  | some j =>
    refine h.setWorker (fun t ht => nomatch ht) (fun hl => nomatch hl) fun hx => ?_
    have hb : s.worker j = .blocked := hwoken
    rw [hb] at hx
    contradiction

theorem Closing.enqueue {s : State n Task} (h : Closing s) {task : Task}
    (hnew : task ∉ s.submitted) : Closing (s.enqueue task) := by
  have hmono {t : Task} (ht : t ∈ s.submitted) : t ∈ (s.enqueue task).submitted :=
    List.mem_append_left _ ht
  refine ⟨fun t ht => hmono (h.calls t ht), fun i t ht => hmono (h.calling i t ht),
    fun t ht => hmono (h.accepted t ht), fun t ht => hmono (h.early t ht), h.notCalled,
    fun i hi => ⟨(h.leaving i hi).1, fun t ht hmem => ?_⟩, h.returned⟩
  rcases List.mem_append.mp hmem with hq | hq
  · exact (h.leaving i hi).2 t ht hq
  · exact hnew (List.mem_singleton.mp hq ▸ h.early t ht)

/-- A worker decides to leave only when the queue is empty and `done` is set. -/
theorem Closing.leave {s : State n Task} (h : Closing s) {i : Fin n} {task : Option Task}
    (hi : s.worker i = .popped task) : Closing (leave s i task) := by
  have hworker : ∃ w : Worker Task, (ThreadPool.leave s i task).worker = (s.setWorker i w).worker ∧
      w.calling = none ∧ w.leaving = (s.taskQueue.isEmpty && s.done) := by
    cases task with
    | none => exact ⟨_, rfl, by split <;> rfl, by split <;> simp_all [Worker.leaving]⟩
    | some t => exact ⟨_, rfl, rfl, rfl⟩
  have hrest : (ThreadPool.leave s i task).taskQueue = s.taskQueue ∧
      (ThreadPool.leave s i task).done = s.done ∧ (ThreadPool.leave s i task).calls = s.calls ∧
      (ThreadPool.leave s i task).submitted = s.submitted ∧
      (ThreadPool.leave s i task).accepted = s.accepted ∧
      (ThreadPool.leave s i task).early = s.early ∧
      (ThreadPool.leave s i task).shutdown = s.shutdown := by
    cases task <;> exact ⟨rfl, rfl, rfl, rfl, rfl, rfl, rfl⟩
  obtain ⟨w, hw, hcalling, hleaving⟩ := hworker
  obtain ⟨hq, hd, hc, hs, ha, he, hsh⟩ := hrest
  constructor <;> simp only [hq, hd, hc, hs, ha, he, hsh, hw, worker_setWorker]
  · exact h.calls
  · intro j t hj
    split at hj
    · rw [hcalling] at hj
      contradiction
    · exact h.calling j t hj
  · exact h.accepted
  · exact h.early
  · exact h.notCalled
  · intro j hj
    split at hj
    · rw [hleaving, Bool.and_eq_true, SynchronousQueue.isEmpty_iff] at hj
      exact ⟨hj.2, fun t _ => by simp [hj.1]⟩
    · exact h.leaving j hj
  · intro hr
    have hx := h.returned hr i
    rw [hi] at hx
    contradiction

section

variable [DecidableEq Task]

theorem Accounted.step {s s' : State n Task} {a : Action n Task} (h : Accounted s)
    (hstep : Step s a s') : Accounted s' := by
  cases hstep with
  | push hnew => exact (h.enqueue hnew).congr rfl rfl rfl rfl rfl (fun _ => rfl) fun _ => rfl
  | notify hcall hwoken =>
    exact (h.signal hwoken).congr rfl rfl rfl rfl rfl (fun _ => rfl) fun _ => rfl
  | @lock i hi hfree =>
    refine (h.setWorker (i := i) (w := .checking) ?_ ?_).congr rfl rfl rfl rfl rfl (fun _ => rfl)
      fun _ => rfl <;> rcases hi with hi | hi <;> rw [hi] <;> rfl
  | checkTrue hi hq => exact h.setWorker (by rw [hi]; rfl) (by rw [hi]; rfl)
  | checkFalse hi hq hdone => exact h.setWorker (by rw [hi]; rfl) (by rw [hi]; rfl)
  | @block i hi =>
    exact (h.setWorker (i := i) (w := .blocked) (by rw [hi]; rfl) (by rw [hi]; rfl)).congr
      rfl rfl rfl rfl rfl (fun _ => rfl) fun _ => rfl
  | wake hi => exact h.setWorker (by rw [hi]; rfl) (by rw [hi]; rfl)
  | pop hi => exact h.pop hi
  | sample hi => exact h.leave hi
  | pushFrom hi hnew =>
    exact (h.enqueue hnew).setWorker (by rw [worker_enqueue, hi]; rfl)
      (by rw [worker_enqueue, hi]; rfl)
  | @notifyFrom i woken t c d hi hwoken =>
    have hrun : (s.signal woken).worker i = .running t d (some c) := by
      rcases worker_signal hwoken i with h | ⟨hb, -⟩
      · rw [h, hi]
      · rw [hi] at hb
        contradiction
    exact ((h.signal hwoken).setWorker (i := i) (w := .running t d none) (by rw [hrun]; rfl)
      (by rw [hrun]; rfl)).congr rfl rfl rfl rfl rfl (fun _ => rfl) fun _ => rfl
  | finish hi => exact h.finish hi
  | setDone hcall hfree => exact h.congr rfl rfl rfl rfl rfl (fun _ => rfl) fun _ => rfl
  | notifyAll hcall =>
    refine h.congr rfl rfl rfl rfl rfl (fun j => ?_) fun j => ?_ <;> simp only <;> split
    · rename_i hb; rw [hb]; rfl
    · rfl
    · rename_i hb; rw [hb]; rfl
    · rfl
  | join hcall hexit => exact h.congr rfl rfl rfl rfl rfl (fun _ => rfl) fun _ => rfl

theorem Closing.step {s s' : State n Task} {a : Action n Task} (h : Closing s)
    (hstep : Step s a s') : Closing s' := by
  -- a worker that waits for the mutex or holds it is in no call and does not leave
  have hmove {i : Fin n} {w : Worker Task} (hw : w.calling = none ∧ w.leaving = false)
      (hi : s.worker i ≠ .exited) : Closing (s.setWorker i w) :=
    h.setWorker (fun t ht => by rw [hw.1] at ht; contradiction)
      (fun hl => by rw [hw.2] at hl; contradiction) fun hx => absurd hx hi
  cases hstep with
  | @push task hnew =>
    have := h.enqueue hnew
    refine ⟨fun t ht => ?_, this.2, this.3, this.4, this.5, this.6, this.7⟩
    rcases List.mem_append.mp ht with hc | hc
    · exact this.calls t hc
    · exact List.mem_singleton.mp hc ▸ List.mem_append_right _ (List.mem_singleton_self _)
  | @notify task woken hcall hwoken =>
    have := h.signal hwoken
    rw [signal_eq] at this ⊢
    refine ⟨fun t ht => h.calls t (List.mem_of_mem_erase ht), this.2, fun t ht => ?_, this.4, this.5,
      this.6, this.7⟩
    rcases List.mem_append.mp ht with ha | ha
    · exact h.accepted t ha
    · exact List.mem_singleton.mp ha ▸ h.calls task hcall
  | @lock i hi hfree =>
    have := hmove (i := i) (w := .checking) ⟨rfl, rfl⟩
      (by rcases hi with hi | hi <;> rw [hi] <;> exact fun h => nomatch h)
    exact ⟨this.1, this.2, this.3, this.4, this.5, this.6, this.7⟩
  | checkTrue hi hq => exact hmove ⟨rfl, rfl⟩ (by rw [hi]; exact fun h => nomatch h)
  | checkFalse hi hq hdone => exact hmove ⟨rfl, rfl⟩ (by rw [hi]; exact fun h => nomatch h)
  | @block i hi =>
    have := hmove (i := i) (w := .blocked) ⟨rfl, rfl⟩ (by rw [hi]; exact fun h => nomatch h)
    exact ⟨this.1, this.2, this.3, this.4, this.5, this.6, this.7⟩
  | wake hi => exact hmove ⟨rfl, rfl⟩ (by rw [hi]; exact fun h => nomatch h)
  | @pop i hi =>
    have := hmove (i := i) (w := .popped s.taskQueue.entries.head?) ⟨rfl, rfl⟩
      (by rw [hi]; exact fun h => nomatch h)
    exact ⟨this.1, this.2, this.3, this.4, this.5, fun j hj => ⟨(this.leaving j hj).1, fun t ht hm =>
      (this.leaving j hj).2 t ht (List.mem_of_mem_tail hm)⟩, this.7⟩
  | sample hi => exact h.leave hi
  | @pushFrom i task t d hi hnew =>
    refine (h.enqueue hnew).setWorker (fun c hc => ?_) (fun hl => ?_) fun hx => ?_
    · cases hc
      exact List.mem_append_right _ (List.mem_singleton_self _)
    · rw [worker_enqueue, hi]
      exact hl
    · rw [worker_enqueue, hi] at hx
      contradiction
  | @notifyFrom i woken t c d hi hwoken =>
    have hrun : (s.signal woken).worker i = .running t d (some c) := by
      rcases worker_signal hwoken i with h | ⟨hb, -⟩
      · rw [h, hi]
      · rw [hi] at hb
        contradiction
    have := (h.signal hwoken).setWorker (i := i) (w := .running t d none) (fun t ht => nomatch ht)
      (fun hl => by rw [hrun]; exact hl) (fun hx => by rw [hrun] at hx; contradiction)
    refine ⟨this.1, this.2, fun t' ht' => ?_, this.4, this.5, this.6, this.7⟩
    rcases List.mem_append.mp ht' with ha | ha
    · exact this.accepted t' (by rw [signal_eq]; exact ha)
    · have hsub : c ∈ s.submitted := h.calling i c (by rw [hi]; rfl)
      rw [List.mem_singleton.mp ha, signal_eq]
      exact hsub
  | @finish i t d hi =>
    have := h.setWorker (i := i) (w := if d then .exited else .top)
      (fun t ht => by split at ht <;> contradiction)
      (fun hl => by rw [hi]; cases d <;> simp_all [Worker.leaving])
      (fun hx => by rw [hi] at hx; contradiction)
    exact ⟨this.1, this.2, this.3, this.4, this.5, this.6, this.7⟩
  | setDone hcall hfree =>
    have hnot := h.notCalled hcall
    refine ⟨h.calls, h.calling, h.accepted, h.accepted, (fun hc => nomatch hc), fun i hi => ?_,
      (fun hr => nomatch hr)⟩
    rw [(h.leaving i hi).1] at hnot
    contradiction
  | notifyAll hcall =>
    refine ⟨h.calls, fun j t hj => ?_, h.accepted, h.early, (fun hc => nomatch hc), fun j hj => ?_,
      (fun hr => nomatch hr)⟩
    · simp only at hj
      split at hj
      · contradiction
      · exact h.calling j t hj
    · simp only at hj
      split at hj
      · contradiction
      · exact h.leaving j hj
  | join hcall hexit =>
    exact ⟨h.calls, h.calling, h.accepted, h.early, (fun hc => nomatch hc), h.leaving, fun _ => hexit⟩

theorem reachable_accounted {s : State n Task} (h : Reachable step (init n Task) s) :
    Accounted s ∧ Closing s :=
  h.invariant (fun s => Accounted s ∧ Closing s) ⟨accounted_init, closing_init⟩
    fun _ _ _ hinv _ hstep => ⟨hinv.1.step (step_cases hstep), hinv.2.step (step_cases hstep)⟩

/-- Every submitted task is executed at most once; when `shutdown()` has returned each task
accepted before `done` was set has been executed exactly once; and no worker has exited while
such a task is still queued. -/
theorem tasks_executed_once (hn : 1 ≤ n) {s : State n Task}
    (h : Reachable step (init n Task) s) :
    (∀ t ∈ s.submitted, s.started.count t ≤ 1) ∧ (∀ t ∈ s.started, t ∈ s.submitted) ∧
      (s.shutdown = .returned → ∀ t ∈ s.early, s.started.count t = 1 ∧ s.finished.count t = 1) ∧
      ∀ i, s.worker i = .exited → ∀ t ∈ s.early, t ∉ s.taskQueue.entries := by
  obtain ⟨hacc, hclose⟩ := reachable_accounted h
  refine ⟨fun t _ => List.nodup_iff_count_le_one.mp hacc.started t, fun t ht => ?_,
    fun hr t ht => ?_, fun i hi => (hclose.leaving i (by rw [hi]; rfl)).2⟩
  · rw [hacc.order]
    exact List.mem_append_left _ (hacc.started_sub t ht)
  · have hexit := hclose.returned hr
    have hqueue := (hclose.leaving ⟨0, hn⟩ (by rw [hexit]; rfl)).2 t ht
    have hdeq : t ∈ s.dequeued := by
      have hsub := hclose.early t ht
      rw [hacc.order] at hsub
      exact (List.mem_append.mp hsub).resolve_right hqueue
    have hfin : t ∈ s.finished := by
      refine (hacc.complete t hdeq).resolve_right ?_
      rintro ⟨i, hi⟩
      rw [hexit i] at hi
      contradiction
    exact ⟨List.count_eq_one_of_mem hacc.started (hacc.finished_sub t hfin),
      List.count_eq_one_of_mem hacc.finished hfin⟩

def closingRun : List (Action 1 Nat) :=
  [.push 7, .notify 7 none, .lock 0, .check 0, .pop 0, .sample 0, .finish 0, .setDone, .notifyAll,
    .lock 0, .check 0, .pop 0, .sample 0, .join]

theorem tasks_executed_once_closingRun : ∃ s : State 1 Nat,
    exec step (init 1 Nat) closingRun = some s ∧ s.shutdown = .returned ∧ s.early = [7] ∧
      s.started.count 7 = 1 ∧ s.finished.count 7 = 1 := by
  obtain ⟨s, hs, hr, he⟩ : ∃ s, exec step (init 1 Nat) closingRun = some s ∧
      s.shutdown = .returned ∧ s.early = [7] := ⟨_, rfl, rfl, rfl⟩
  have htask := (tasks_executed_once (Nat.le_refl 1) (reachable_exec hs)).2.2.1 hr 7
  exact ⟨s, hs, hr, he, htask (by rw [he]; exact List.mem_singleton_self 7)⟩

end

end Autocomp.ThreadPool

import Autocomp.Utils.ThreadPool.Supply

/-!
# Requests and transmissions in one pool

`Server::serve` runs `processRequest` on `requestThreadPool` and passes it the same pool for the
transmission. The tasks of the pool are therefore requests and transmissions, and a request
waits, on its worker, for a transmission that stands in the same queue. The shutdown is left out.
-/

namespace Autocomp.RequestPool

open Transition

inductive Job where
  | processRequest (r : Nat)
  | transmit (r : Nat)
  deriving DecidableEq

/-- How far the execution of `processRequest` has come. -/
inductive Phase where
  /-- Up to the call of `transmissionThreadPool.run`. The error paths return from here. -/
  | preparing
  /-- Past the push of the transmission, up to `requestDone = true`. -/
  | sending
  /-- In `transmissionThread.wait()`. -/
  | waiting
  deriving DecidableEq

structure State (n : Nat) where
  pool : ThreadPool.State n Job
  phase : Nat → Phase

variable {n : Nat}

def init (n : Nat) : State n := ⟨ThreadPool.init n Job, fun _ => .preparing⟩

inductive Action (n : Nat) where
  | pool (a : ThreadPool.Action n Job)
  /-- The loops over files and chunks end, `requestDone` is set and the wait begins. -/
  | await (i : Fin n)
  deriving DecidableEq

/-- The steps of the pool that the tasks and `serve` allow. An exception that leaves `processRequest`
past the push of its transmission is no step: it would leave `transmit` with references to locals that
are gone. -/
def allowed (s : State n) : ThreadPool.Action n Job → Bool
  | .push (.processRequest _) => true
  | .push (.transmit _) => false
  | .pushFrom i task =>
    match s.pool.worker i with
    | .running (.processRequest r) _ _ => task = .transmit r ∧ s.phase r = .preparing
    | _ => false
  | .finish i =>
    match s.pool.worker i with
    | .running (.processRequest r) _ _ =>
      s.phase r = .preparing ∨ s.phase r = .waiting ∧ .transmit r ∈ s.pool.finished
    -- the transmission ends when the request is done and all messages are sent
    | .running (.transmit r) _ _ => s.phase r = .waiting
    | _ => true
  | .setDone | .notifyAll | .join => false
  | _ => true

def phaseAfter (s : State n) : ThreadPool.Action n Job → Nat → Phase
  | .pushFrom _ (.transmit r) => Function.update s.phase r .sending
  | _ => s.phase

def step (s : State n) : Action n → Option (State n)
  | .pool a =>
    if allowed s a then (ThreadPool.step s.pool a).map fun pool => ⟨pool, phaseAfter s a⟩ else none
  | .await i =>
    match s.pool.worker i with
    | .running (.processRequest r) _ none =>
      if s.phase r = .sending then some { s with phase := Function.update s.phase r .waiting }
      else none
    | _ => none

/-- The worker serves a request whose transmission is still in the queue. -/
def Engaged (s : State n) (i : Fin n) : Prop :=
  ∃ r, (s.pool.worker i).executing = some (.processRequest r) ∧
    .transmit r ∈ s.pool.taskQueue.entries

instance (s : State n) (i : Fin n) : Decidable (Engaged s i) :=
  match hi : (s.pool.worker i).executing with
  | some (.processRequest r) =>
    decidable_of_iff (.transmit r ∈ s.pool.taskQueue.entries)
      ⟨fun h => ⟨r, hi, h⟩, fun ⟨q, hq, hm⟩ => by
        rw [hi] at hq
        cases hq
        exact hm⟩
  | some (.transmit _) | none => isFalse fun ⟨q, hq, _⟩ => by simp [hi] at hq

/-- All workers wait for transmissions that are in the queue. -/
def AllWaiting (s : State n) : Prop :=
  ∀ i, ∃ r d, s.pool.worker i = .running (.processRequest r) d none ∧ s.phase r = .waiting ∧
    .transmit r ∈ s.pool.taskQueue.entries

/-- Steps that do not depend on a new connection or on a spurious wake-up. -/
def Progress : Action n → Prop
  | .pool (.push _) | .pool (.wake _) => False
  | _ => True

def Quiet (s : State n) : Prop := ∀ a, Progress a → step s a = none

/-- An accepted request is unfinished and no step is possible. -/
def Stuck (s : State n) : Prop :=
  (∃ r, .processRequest r ∈ s.pool.submitted ∧ .processRequest r ∉ s.pool.finished) ∧ Quiet s

/-- When a request submits its transmission another worker is not engaged, and no notification
is lost. -/
def Roomy (s : State n) : Action n → Prop
  | .pool (.pushFrom i _) => ∃ j, j ≠ i ∧ ¬ Engaged s j
  | .pool a => ¬ ThreadPool.Lost s.pool a
  | .await _ => True

instance (s : State n) (a : Action n) : Decidable (Roomy s a) :=
  match a with
  | .pool (.pushFrom i _) => inferInstanceAs (Decidable (∃ j, j ≠ i ∧ ¬ Engaged s j))
  | .pool (.notify t w) => inferInstanceAs (Decidable (¬ ThreadPool.Lost s.pool (.notify t w)))
  | .pool (.notifyFrom i w) =>
    inferInstanceAs (Decidable (¬ ThreadPool.Lost s.pool (.notifyFrom i w)))
  | .pool (.push _) | .pool (.lock _) | .pool (.check _) | .pool (.block _) | .pool (.wake _)
  | .pool (.pop _) | .pool (.sample _) | .pool (.finish _) | .pool .setDone | .pool .notifyAll
  | .pool .join => isTrue fun h => h
  | .await _ => isTrue trivial

theorem step_pool {s s' : State n} {a : ThreadPool.Action n Job} (h : step s (.pool a) = some s') :
    allowed s a = true ∧ ThreadPool.Step s.pool a s'.pool ∧ s'.phase = phaseAfter s a := by
  simp only [step, Option.ite_none_right_eq_some, Option.map_eq_some_iff] at h
  obtain ⟨hallowed, pool, hpool, rfl⟩ := h
  exact ⟨hallowed, ThreadPool.step_cases hpool, rfl⟩

theorem step_await {s s' : State n} {i : Fin n} (h : step s (.await i) = some s') :
    ∃ r d, s.pool.worker i = .running (.processRequest r) d none ∧ s.phase r = .sending ∧
      s' = { s with phase := Function.update s.phase r .waiting } := by
  simp only [step] at h
  split at h
  · simp only [Option.ite_none_right_eq_some, Option.some.injEq] at h
    exact ⟨_, _, ‹_›, h.1, h.2.symm⟩
  · contradiction

/-- How the phases stand to the pool. -/
structure Phased (s : State n) : Prop where
  submitted : ∀ r, s.phase r ≠ .preparing ↔ .transmit r ∈ s.pool.submitted
  started : ∀ r, s.phase r ≠ .preparing → .processRequest r ∈ s.pool.started
  sending : ∀ r, s.phase r = .sending →
    ∃ i, (s.pool.worker i).executing = some (.processRequest r)
  calling : ∀ i r d c, s.pool.worker i = .running (.processRequest r) d (some c) →
    s.phase r = .sending

theorem phased_init : Phased (init n) := by
  constructor <;> simp [init, ThreadPool.init]

theorem Phased.congr {s s' : State n} (h : Phased s) (hphase : s'.phase = s.phase)
    (hsub : ∀ r, .transmit r ∈ s'.pool.submitted ↔ .transmit r ∈ s.pool.submitted)
    (hstart : ∀ t ∈ s.pool.started, t ∈ s'.pool.started)
    (hexec : ∀ i r, s.phase r = .sending → (s.pool.worker i).executing = some (.processRequest r) →
      (s'.pool.worker i).executing = some (.processRequest r))
    (hcall : ∀ i t d c, s'.pool.worker i = .running t d (some c) →
      s.pool.worker i = .running t d (some c)) : Phased s' := by
  constructor <;> simp only [hphase]
  · exact fun r => (h.submitted r).trans (hsub r).symm
  · exact fun r hr => hstart _ (h.started r hr)
  · intro r hr
    obtain ⟨i, hi⟩ := h.sending r hr
    exact ⟨i, hexec i r hr hi⟩
  · exact fun i r d c hi => h.calling i r d c (hcall i _ d c hi)

theorem Phased.setWorker {s s' : State n} (h : Phased s) {i : Fin n} {w : ThreadPool.Worker Job}
    (hworker : s'.pool.worker = (s.pool.setWorker i w).worker) (hphase : s'.phase = s.phase)
    (hsub : ∀ r, .transmit r ∈ s'.pool.submitted ↔ .transmit r ∈ s.pool.submitted)
    (hstart : ∀ t ∈ s.pool.started, t ∈ s'.pool.started)
    (hexec : ∀ r, s.phase r = .sending → (s.pool.worker i).executing = some (.processRequest r) →
      w.executing = some (.processRequest r)) (hcall : ∀ t d c, w ≠ .running t d (some c)) :
    Phased s' := by
  refine h.congr hphase hsub hstart (fun j r hr hj => ?_) fun j t d c hj => ?_
  · rw [hworker, ThreadPool.State.worker_setWorker]
    split
    · rename_i hji
      exact hexec r hr (hji ▸ hj)
    · exact hj
  · rw [hworker, ThreadPool.State.worker_setWorker] at hj
    split at hj
    · exact absurd hj (hcall t d c)
    · exact hj

theorem Phased.signal {s : State n} (h : Phased s) {woken : Option (Fin n)}
    (hwoken : ThreadPool.CanWake s.pool woken) :
    Phased ⟨s.pool.signal woken, s.phase⟩ := by
  cases woken with
  | none => exact h
  | some j =>
    have hb : s.pool.worker j = .blocked := hwoken
    exact h.setWorker (i := j) (w := .woken) rfl rfl (fun q => Iff.rfl) (fun t ht => ht)
      (fun q _ hx => by rw [hb] at hx; contradiction) fun t d c hc => nomatch hc

theorem Phased.submit {s s' : State n} (h : Phased s) {i : Fin n} {r : Nat} {d : Bool}
    (hi : s.pool.worker i = .running (.processRequest r) d none)
    (hstarted : .processRequest r ∈ s.pool.started)
    (hpool : s'.pool = (s.pool.enqueue (.transmit r)).setWorker i
      (.running (.processRequest r) d (some (.transmit r))))
    (hphase : s'.phase = Function.update s.phase r .sending) : Phased s' := by
  have hworker (j : Fin n) : s'.pool.worker j =
      if j = i then .running (.processRequest r) d (some (.transmit r)) else s.pool.worker j := by
    rw [hpool, ThreadPool.State.worker_setWorker]
    rfl
  have hsub (q : Nat) : .transmit q ∈ s'.pool.submitted ↔
      .transmit q ∈ s.pool.submitted ∨ q = r := by
    rw [hpool]
    simp [ThreadPool.State.setWorker, ThreadPool.State.enqueue]
  constructor
  · intro q
    rw [hsub, hphase, Function.update_apply, ← h.submitted]
    split <;> simp [*]
  · intro q hq
    rw [hphase, Function.update_apply] at hq
    rw [hpool]
    split at hq
    · subst q
      exact hstarted
    · exact h.started q hq
  · intro q hq
    rw [hphase, Function.update_apply] at hq
    split at hq
    · subst q
      exact ⟨i, by rw [hworker, if_pos rfl]; rfl⟩
    · obtain ⟨j, hj⟩ := h.sending q hq
      refine ⟨j, ?_⟩
      rw [hworker]
      split
      · rename_i hji
        rw [← hj, hji, hi]
        rfl
      · exact hj
  · intro j q e c hj
    rw [hworker] at hj
    rw [hphase, Function.update_apply]
    split at hj
    · cases hj
      rw [if_pos rfl]
    · split
      · rfl
      · exact h.calling j q e c hj

theorem Phased.pool_step {s s' : State n} {a : ThreadPool.Action n Job} (h : Phased s)
    (hacc : ThreadPool.Accounted s.pool) (hallowed : allowed s a = true)
    (hstep : ThreadPool.Step s.pool a s'.pool) (hphase : s'.phase = phaseAfter s a) : Phased s' := by
  obtain ⟨pool, phase⟩ := s'
  simp only at hstep hphase
  cases hstep with
  | @push task hnew =>
    cases task with
    | transmit r => contradiction
    | processRequest r =>
      exact h.congr hphase (fun q => by simp [ThreadPool.State.enqueue]) (fun t ht => ht)
        (fun j q _ hj => hj) fun j t d c hj => hj
  | @notify task woken hcall hwoken =>
    refine (h.signal hwoken).congr hphase (fun q => ?_) (fun t ht => ?_) (fun j q _ hj => hj)
      fun j t d c hj => hj
    · rw [ThreadPool.State.signal_eq]
    · rw [ThreadPool.State.signal_eq] at ht ⊢
      exact ht
  | @lock i hi hfree =>
    refine h.setWorker (i := i) (w := .checking) rfl hphase (fun q => Iff.rfl) (fun t ht => ht)
      (fun q _ hx => ?_) fun t d c hc => by contradiction
    rcases hi with hi | hi <;> rw [hi] at hx <;> contradiction
  | @checkTrue i hi hq =>
    exact h.setWorker (i := i) (w := .popping) rfl hphase (fun q => Iff.rfl) (fun t ht => ht)
      (fun q _ hx => by rw [hi] at hx; contradiction) fun t d c hc => by contradiction
  | @checkFalse i hi hq hdone =>
    exact h.setWorker (i := i) (w := .waiting) rfl hphase (fun q => Iff.rfl) (fun t ht => ht)
      (fun q _ hx => by rw [hi] at hx; contradiction) fun t d c hc => by contradiction
  | @block i hi =>
    exact h.setWorker (i := i) (w := .blocked) rfl hphase (fun q => Iff.rfl) (fun t ht => ht)
      (fun q _ hx => by rw [hi] at hx; contradiction) fun t d c hc => by contradiction
  | @wake i hi =>
    exact h.setWorker (i := i) (w := .woken) rfl hphase (fun q => Iff.rfl) (fun t ht => ht)
      (fun q _ hx => by rw [hi] at hx; contradiction) fun t d c hc => by contradiction
  | @pop i hi =>
    exact h.setWorker (i := i) (w := .popped s.pool.taskQueue.entries.head?) rfl hphase
      (fun q => Iff.rfl) (fun t ht => ht) (fun q _ hx => by rw [hi] at hx; contradiction)
      fun t d c hc => by contradiction
  | @sample i task hi =>
    have hnone (q : Nat) (hx : (s.pool.worker i).executing = some (.processRequest q)) : False := by
      rw [hi] at hx
      contradiction
    cases task with
    | none =>
      exact h.setWorker (i := i)
        (w := if s.pool.taskQueue.isEmpty && s.pool.done then .exited else .top) rfl hphase
        (fun q => Iff.rfl) (fun t ht => List.mem_append_left _ ht)
        (fun q _ hx => (hnone q hx).elim) fun t d c hc => by split at hc <;> contradiction
    | some t =>
      exact h.setWorker (i := i) (w := .running t (s.pool.taskQueue.isEmpty && s.pool.done) none)
        rfl hphase (fun q => Iff.rfl) (fun t ht => List.mem_append_left _ ht)
        (fun q _ hx => (hnone q hx).elim) fun t d c hc => by cases hc
  | @pushFrom i task t d hi hnew =>
    have hstarted := (hacc.executing i t (by rw [hi]; rfl)).1
    cases t with
    | transmit r => simp [allowed, hi] at hallowed
    | processRequest r =>
      simp only [allowed, hi, decide_eq_true_eq] at hallowed
      obtain ⟨rfl, -⟩ := hallowed
      exact h.submit hi hstarted rfl hphase
  | @notifyFrom i woken t c d hi hwoken =>
    have hrun : (s.pool.signal woken).worker i = .running t d (some c) := by
      rcases ThreadPool.State.worker_signal hwoken i with hs | ⟨hb, -⟩
      · rw [hs, hi]
      · rw [hi] at hb
        contradiction
    exact (h.signal hwoken).setWorker (i := i) (w := .running t d none) rfl hphase
      (fun q => Iff.rfl) (fun t ht => ht) (fun q _ hx => by rw [← hx]; simp only [hrun]; rfl)
      fun t d c hc => by cases hc
  | @finish i t d hi =>
    refine h.setWorker (i := i) (w := if d then .exited else .top) rfl hphase (fun q => Iff.rfl)
      (fun t ht => ht) (fun q hq hx => ?_) fun t d c hc => by split at hc <;> contradiction
    rw [hi] at hx
    cases hx
    simp only [allowed, hi, decide_eq_true_eq] at hallowed
    rw [hq] at hallowed
    simp at hallowed
  | setDone hcall hfree => contradiction
  | notifyAll hcall => contradiction
  | join hcall hexit => contradiction

theorem Phased.await {s : State n} (h : Phased s) {r : Nat} (hr : s.phase r = .sending)
    {i : Fin n} {d : Bool} (hi : s.pool.worker i = .running (.processRequest r) d none)
    (hacc : ThreadPool.Accounted s.pool) :
    Phased { s with phase := Function.update s.phase r .waiting } := by
  constructor <;> simp only [Function.update_apply]
  · intro q
    rw [← h.submitted]
    split <;> simp_all
  · intro q hq
    split at hq
    · subst q
      exact h.started r (by rw [hr]; decide)
    · exact h.started q hq
  · intro q hq
    split at hq
    · contradiction
    · exact h.sending q hq
  · intro j q e c hj
    split
    · subst q
      have hij := hacc.owner i j (.processRequest r) (by rw [hi]; rfl) (by rw [hj]; rfl)
      rw [← hij, hi] at hj
      simp at hj
    · exact h.calling j q e c hj

/-- Some worker is free of a request whose transmission is queued. -/
def Spare (s : State n) : Prop := ∃ i, ¬ Engaged s i

/-- What holds in every state of a run whose steps leave room. -/
structure Sound (s : State n) : Prop where
  accounted : ThreadPool.Accounted s.pool
  closing : ThreadPool.Closing s.pool
  locked : ThreadPool.Locked s.pool
  supplied : ThreadPool.Supplied s.pool
  notCalled : s.pool.shutdown = .notCalled
  phased : Phased s
  spare : Spare s

theorem Spare.congr {s s' : State n} (h : Spare s)
    (hqueue : ∀ r, .transmit r ∈ s'.pool.taskQueue.entries →
      .transmit r ∈ s.pool.taskQueue.entries)
    (hexec : ∀ i r, (s'.pool.worker i).executing = some (.processRequest r) →
      (s.pool.worker i).executing = some (.processRequest r) ∨
        .transmit r ∉ s'.pool.taskQueue.entries) : Spare s' := by
  obtain ⟨i, hi⟩ := h
  refine ⟨i, ?_⟩
  rintro ⟨r, hr, hq⟩
  rcases hexec i r hr with hx | hnot
  · exact hi ⟨r, hx, hqueue r hq⟩
  · exact hnot hq

theorem Spare.setWorker {s s' : State n} (h : Spare s) {i : Fin n} {w : ThreadPool.Worker Job}
    (hworker : s'.pool.worker = (s.pool.setWorker i w).worker)
    (hqueue : ∀ r, .transmit r ∈ s'.pool.taskQueue.entries →
      .transmit r ∈ s.pool.taskQueue.entries)
    (hexec : w.executing = none ∨ w.executing = (s.pool.worker i).executing) : Spare s' := by
  refine h.congr hqueue fun j r hj => Or.inl ?_
  rw [hworker, ThreadPool.State.worker_setWorker] at hj
  split at hj
  · rename_i hji
    rcases hexec with hx | hx <;> rw [hx] at hj
    · contradiction
    · rw [hji, hj]
  · exact hj

theorem Phased.unsubmitted {s : State n} (h : Phased s) (hacc : ThreadPool.Accounted s.pool)
    {i : Fin n} {r : Nat} (hi : s.pool.worker i = .popped (some (.processRequest r))) :
    .transmit r ∉ s.pool.taskQueue.entries := by
  intro hq
  have hsub : .transmit r ∈ s.pool.submitted := by
    rw [hacc.order]
    exact List.mem_append_right _ hq
  refine hacc.unstarted i (.processRequest r) (by rw [hi]; rfl) (by rw [hi]; rfl) ?_
  exact h.started r ((h.submitted r).mpr hsub)

theorem Spare.pool_step {s s' : State n} {a : ThreadPool.Action n Job} (h : Spare s)
    (hphased : Phased s) (hacc : ThreadPool.Accounted s.pool) (hallowed : allowed s a = true)
    (hroomy : Roomy s (.pool a)) (hstep : ThreadPool.Step s.pool a s'.pool) : Spare s' := by
  obtain ⟨pool, phase⟩ := s'
  simp only at hstep
  cases hstep with
  | @push task hnew =>
    cases task with
    | transmit r => contradiction
    | processRequest r =>
      refine h.congr (fun q hq => ?_) fun j q hj => Or.inl hj
      simpa [ThreadPool.State.enqueue] using hq
  | @notify task woken hcall hwoken =>
    cases woken with
    | none => exact h.congr (fun q hq => hq) fun j q hj => Or.inl hj
    | some j => exact h.setWorker (i := j) (w := .woken) rfl (fun q hq => hq) (Or.inl rfl)
  | @lock i hi hfree =>
    exact h.setWorker (i := i) (w := .checking) rfl (fun q hq => hq) (Or.inl rfl)
  | @checkTrue i hi hq =>
    exact h.setWorker (i := i) (w := .popping) rfl (fun q hq => hq) (Or.inl rfl)
  | @checkFalse i hi hq hdone =>
    exact h.setWorker (i := i) (w := .waiting) rfl (fun q hq => hq) (Or.inl rfl)
  | @block i hi => exact h.setWorker (i := i) (w := .blocked) rfl (fun q hq => hq) (Or.inl rfl)
  | @wake i hi => exact h.setWorker (i := i) (w := .woken) rfl (fun q hq => hq) (Or.inl rfl)
  | @pop i hi =>
    exact h.setWorker (i := i) (w := .popped s.pool.taskQueue.entries.head?) rfl
      (fun q hq => List.mem_of_mem_tail hq) (Or.inl rfl)
  | @sample i task hi =>
    cases task with
    | none =>
      exact h.setWorker (i := i)
        (w := if s.pool.taskQueue.isEmpty && s.pool.done then .exited else .top) rfl
        (fun q hq => hq) (Or.inl (by split <;> rfl))
    | some t =>
      refine h.congr (fun q hq => hq) fun j q hj => ?_
      simp only [ThreadPool.leave, ThreadPool.State.worker_setWorker] at hj
      split at hj
      · simp only [ThreadPool.Worker.executing, Option.some.injEq] at hj
        exact Or.inr (hphased.unsubmitted hacc (hj ▸ hi))
      · exact Or.inl hj
  | @pushFrom i task t d hi hnew =>
    cases t with
    | transmit r => simp [allowed, hi] at hallowed
    | processRequest r =>
      simp only [allowed, hi, decide_eq_true_eq] at hallowed
      obtain ⟨rfl, -⟩ := hallowed
      obtain ⟨j, hji, hj⟩ := hroomy
      refine ⟨j, ?_⟩
      rintro ⟨q, hq, hmem⟩
      simp only [ThreadPool.State.worker_setWorker, if_neg hji,
        ThreadPool.State.worker_enqueue] at hq
      rcases List.mem_append.mp hmem with hm | hm
      · exact hj ⟨q, hq, hm⟩
      · have hqr : q = r := by simpa using hm
        subst hqr
        exact hji (hacc.owner j i _ (ThreadPool.Worker.task_of_executing hq) (by rw [hi]; rfl))
  | @notifyFrom i woken t c d hi hwoken =>
    refine h.congr (fun q hq => ?_) fun j q hj => Or.inl ?_
    · rw [ThreadPool.State.signal_eq] at hq
      exact hq
    · simp only [ThreadPool.State.worker_setWorker] at hj
      split at hj
      · rename_i hji
        rw [hji, hi]
        exact hj
      · rcases ThreadPool.State.worker_signal hwoken j with hs | ⟨-, hs⟩ <;> rw [hs] at hj
        · exact hj
        · contradiction
  | @finish i t d hi =>
    exact h.setWorker (i := i) (w := if d then .exited else .top) rfl (fun q hq => hq)
      (Or.inl (by split <;> rfl))
  | setDone hcall hfree => contradiction
  | notifyAll hcall => contradiction
  | join hcall hexit => contradiction

theorem sound_init (hn : 1 ≤ n) : Sound (init n) := by
  refine ⟨ThreadPool.accounted_init, ThreadPool.closing_init, ThreadPool.locked_init,
    ThreadPool.supplied_init, rfl, phased_init, ⟨0, hn⟩, ?_⟩
  rintro ⟨r, hr, -⟩
  contradiction

theorem Sound.step {s s' : State n} {a : Action n} (h : Sound s) (hroomy : Roomy s a)
    (hstep : step s a = some s') : Sound s' := by
  cases a with
  | pool a =>
    obtain ⟨hallowed, hpool, hphase⟩ := step_pool hstep
    have hlost : ¬ ThreadPool.Lost s.pool a := by
      cases a with
      | pushFrom => exact fun hl => hl
      | _ => exact hroomy
    have hdone : a ≠ .setDone := by
      rintro rfl
      contradiction
    exact ⟨h.accounted.step hpool, h.closing.step hpool, h.locked.step hpool,
      h.supplied.step hlost hpool, ThreadPool.notCalled_step h.notCalled hdone hpool,
      h.phased.pool_step h.accounted hallowed hpool hphase,
      h.spare.pool_step h.phased h.accounted hallowed hroomy hpool⟩
  | await i =>
    obtain ⟨r, d, hi, hr, rfl⟩ := step_await hstep
    exact ⟨h.accounted, h.closing, h.locked, h.supplied, h.notCalled,
      h.phased.await hr hi h.accounted, h.spare⟩

theorem exists_canWake (s : ThreadPool.State n Job) : ∃ woken, ThreadPool.CanWake s woken := by
  by_cases h : ∃ j, s.worker j = .blocked
  · obtain ⟨j, hj⟩ := h
    exact ⟨some j, hj⟩
  · exact ⟨none, fun j hj => h ⟨j, hj⟩⟩

theorem step_free {s : State n} {a : ThreadPool.Action n Job} (hallowed : allowed s a = true)
    (h : step s (.pool a) = none) : ThreadPool.step s.pool a = none := by
  simpa [step, hallowed] using h

theorem Quiet.pool {s : State n} (h : Quiet s) {a : ThreadPool.Action n Job}
    (hallowed : allowed s a = true) (ha : Progress (.pool a)) : ThreadPool.step s.pool a = none :=
  step_free hallowed (h _ ha)

theorem Quiet.unlocked {s : State n} (h : Quiet s) (i : Fin n) :
    (s.pool.worker i).locking = false := by
  cases hi : s.pool.worker i with
  | checking => simpa [ThreadPool.step, hi] using h.pool (a := .check i) rfl trivial
  | waiting => simpa [ThreadPool.step, hi] using h.pool (a := .block i) rfl trivial
  | popping => simpa [ThreadPool.step, hi] using h.pool (a := .pop i) rfl trivial
  | popped task => simpa [ThreadPool.step, hi] using h.pool (a := .sample i) rfl trivial
  | _ => rfl

theorem Quiet.mutex {s : State n} (h : Quiet s) (hlock : ThreadPool.Locked s.pool) :
    s.pool.mutex = none := by
  cases hm : s.pool.mutex with
  | none => rfl
  | some i =>
    have := (hlock i).mpr hm
    rw [h.unlocked i] at this
    contradiction

theorem Quiet.no_call {s : State n} (h : Quiet s) {i : Fin n} {t c : Job} {d : Bool} :
    s.pool.worker i ≠ .running t d (some c) := by
  intro hi
  obtain ⟨woken, hwoken⟩ := exists_canWake s.pool
  have := h.pool (a := .notifyFrom i woken) rfl trivial
  simp [ThreadPool.step, hi, hwoken] at this

theorem Quiet.no_finish {s : State n} (h : Quiet s) {i : Fin n} {t : Job} {d : Bool}
    (hi : s.pool.worker i = .running t d none) : allowed s (.finish i) = false := by
  by_contra hallowed
  have := h.pool (a := .finish i) (by simpa using hallowed) trivial
  simp [ThreadPool.step, hi] at this

theorem Quiet.executing {s : State n} (h : Quiet s) {i : Fin n} {t : Job}
    (hi : (s.pool.worker i).executing = some t) :
    ∃ d, s.pool.worker i = .running t d none ∧ allowed s (.finish i) = false := by
  cases hw : s.pool.worker i with
  | running t' d c =>
    rw [hw] at hi
    simp only [ThreadPool.Worker.executing, Option.some.injEq] at hi
    subst hi
    cases c with
    | none => exact ⟨d, rfl, h.no_finish hw⟩
    | some c => exact absurd hw h.no_call
  | _ => rw [hw] at hi; contradiction

theorem Quiet.not_sending {s : State n} (h : Quiet s) (hphased : Phased s) (r : Nat) :
    s.phase r ≠ .sending := by
  intro hr
  obtain ⟨i, hi⟩ := hphased.sending r hr
  obtain ⟨d, hw, -⟩ := h.executing hi
  have := h (.await i) trivial
  simp [step, hw, hr] at this

theorem Quiet.queued {s : State n} (h : Quiet s) (hs : Sound s) {r : Nat}
    (hr : s.phase r = .waiting) (hfin : .transmit r ∉ s.pool.finished) :
    .transmit r ∈ s.pool.taskQueue.entries := by
  have hsub := (hs.phased.submitted r).mp (by rw [hr]; decide)
  rw [hs.accounted.order] at hsub
  refine (List.mem_append.mp hsub).resolve_left fun hdeq => ?_
  obtain ⟨j, hj⟩ := (hs.accounted.complete _ hdeq).resolve_left hfin
  have hexec : (s.pool.worker j).executing = some (.transmit r) := by
    have hunlocked := h.unlocked j
    cases hw : s.pool.worker j <;> rw [hw] at hj hunlocked <;>
      simp_all [ThreadPool.Worker.task, ThreadPool.Worker.executing, ThreadPool.Worker.locking]
  obtain ⟨d, hw, hno⟩ := h.executing hexec
  simp [allowed, hw, hr] at hno

/-- Each worker sleeps or waits for a transmission in the queue. -/
theorem Quiet.worker {s : State n} (h : Quiet s) (hs : Sound s) (i : Fin n) :
    s.pool.worker i = .blocked ∨ Engaged s i := by
  have hunlocked := h.unlocked i
  have hfree := h.mutex hs.locked
  have hstay := hs.closing.staying hs.notCalled i
  cases hi : s.pool.worker i with
  | blocked => exact Or.inl rfl
  | top | woken =>
    have := h.pool (a := .lock i) rfl trivial
    simp [ThreadPool.step, hi, hfree] at this
  | checking | waiting | popping | popped =>
    rw [hi] at hunlocked
    contradiction
  | exited =>
    rw [hi] at hstay
    contradiction
  | running t d c =>
    right
    have hx : (s.pool.worker i).executing = some t := by rw [hi]; rfl
    obtain ⟨d, hw, hno⟩ := h.executing hx
    cases t with
    | processRequest r =>
      simp only [allowed, hw, decide_eq_false_iff_not, not_or, not_and] at hno
      have hr : s.phase r = .waiting := by
        have := h.not_sending hs.phased r
        have := hno.1
        cases hp : s.phase r <;> simp_all
      exact ⟨r, hx, h.queued hs hr (hno.2 hr)⟩
    | transmit r =>
      simp only [allowed, hw, decide_eq_false_iff_not] at hno
      have hsub : .transmit r ∈ s.pool.submitted := by
        rw [hs.accounted.order]
        exact List.mem_append_left _
          (hs.accounted.started_sub _ (hs.accounted.executing i _ hx).1)
      have hprep := (hs.phased.submitted r).mpr hsub
      have := h.not_sending hs.phased r
      cases hp : s.phase r <;> simp_all

theorem Quiet.supply {s : State n} (h : Quiet s) (hs : Sound s) :
    s.pool.calls = [] ∧ ThreadPool.supply s.pool = 0 := by
  constructor
  · by_contra hne
    obtain ⟨task, htask⟩ := List.exists_mem_of_ne_nil _ hne
    obtain ⟨woken, hwoken⟩ := exists_canWake s.pool
    have := h.pool (a := .notify task woken) rfl trivial
    simp [ThreadPool.step, htask, hwoken] at this
  · refine Finset.sum_eq_zero fun i _ => ?_
    rcases h.worker hs i with hb | ⟨r, hx, -⟩
    · rw [hb]; rfl
    · obtain ⟨d, hw, -⟩ := h.executing hx
      rw [hw]; rfl

/-- With room in the pool and no notification lost an accepted request goes on. -/
theorem Sound.progress {s : State n} (h : Sound s) : ¬ Stuck s := by
  rintro ⟨⟨r, hsub, hunfinished⟩, hquiet⟩
  obtain ⟨hcalls, hsupply⟩ := hquiet.supply h
  obtain ⟨i, hi⟩ := h.spare
  have hblocked := (hquiet.worker h i).resolve_right hi
  have hqueue : s.pool.taskQueue.entries = [] := by
    have hlen := h.supplied ⟨i, by rw [hblocked]; rfl⟩
    rw [hcalls, hsupply] at hlen
    exact List.length_eq_zero_iff.mp (Nat.le_zero.mp hlen)
  rw [h.accounted.order, hqueue, List.append_nil] at hsub
  obtain ⟨j, hj⟩ := (h.accounted.complete _ hsub).resolve_left hunfinished
  rcases hquiet.worker h j with hb | ⟨q, -, hq⟩
  · rw [hb] at hj
    contradiction
  · rw [hqueue] at hq
    contradiction

/-- In every run that leaves room and loses no notification the server is never stuck, and its
workers never all wait for transmissions that are in their own queue. -/
theorem not_stuck (hn : 1 ≤ n) {s : State n} (h : Runs step Roomy (init n) s) :
    ¬ Stuck s ∧ ¬ AllWaiting s := by
  have hs : Sound s := h.invariant Sound (sound_init hn) fun _ _ _ hs ha hstep => hs.step ha hstep
  refine ⟨hs.progress, fun hall => ?_⟩
  obtain ⟨i, hi⟩ := hs.spare
  obtain ⟨r, d, hr, -, hq⟩ := hall i
  exact hi ⟨r, by rw [hr]; rfl, hq⟩

def pairRun : List (Action 2) :=
  [.pool (.push (.processRequest 0)), .pool (.notify (.processRequest 0) none), .pool (.lock 0),
    .pool (.check 0), .pool (.pop 0), .pool (.sample 0), .pool (.pushFrom 0 (.transmit 0)),
    .pool (.notifyFrom 0 none), .await 0]

theorem not_stuck_pair : ∃ s : State 2, exec step (init 2) pairRun = some s ∧
    s.phase 0 = .waiting ∧ s.pool.taskQueue.entries = [.transmit 0] ∧ ¬ Stuck s ∧
    ¬ AllWaiting s := by
  obtain ⟨s, hs, hg, hphase, hqueue⟩ : ∃ s : State 2, exec step (init 2) pairRun = some s ∧
      exec (guarded step Roomy) (init 2) pairRun = some s ∧ s.phase 0 = .waiting ∧
      s.pool.taskQueue.entries = [.transmit 0] := ⟨_, rfl, rfl, rfl, rfl⟩
  exact ⟨s, hs, hphase, hqueue, not_stuck (by decide) (Runs.start.of_guarded hg)⟩

/-- Workers that all wait for queued transmissions wait forever. -/
theorem AllWaiting.quiet {s : State n} (h : AllWaiting s) (hacc : ThreadPool.Accounted s.pool)
    (hcalls : s.pool.calls = []) : Quiet s := by
  have hfinished {r : Nat} (hq : .transmit r ∈ s.pool.taskQueue.entries) :
      .transmit r ∉ s.pool.finished := by
    intro hf
    have hnodup := hacc.submitted
    rw [hacc.order] at hnodup
    exact (List.nodup_append.mp hnodup).2.2 _ (hacc.started_sub _ (hacc.finished_sub _ hf)) _ hq rfl
  intro a ha
  cases a with
  | await i =>
    obtain ⟨r, d, hi, hr, -⟩ := h i
    simp [step, hi, hr]
  | pool a =>
    cases a with
    | push | wake => exact ha.elim
    | notify task woken => simp [step, ThreadPool.step, hcalls]
    | lock i | check i | block i | pop i | sample i | notifyFrom i =>
      obtain ⟨r, d, hi, hr, -⟩ := h i
      simp [step, ThreadPool.step, hi]
    | pushFrom i task =>
      obtain ⟨r, d, hi, hr, -⟩ := h i
      simp [step, allowed, hi, hr]
    | finish i =>
      obtain ⟨r, d, hi, hr, hq⟩ := h i
      simp [step, allowed, hi, hr, hfinished hq]
    | setDone | notifyAll | join => simp [step, allowed]

def onlyWorker : Fin 1 := Fin.last 0

def singleRun : List (Action 1) :=
  [.pool (.push (.processRequest 0)), .pool (.notify (.processRequest 0) none),
    .pool (.lock onlyWorker), .pool (.check onlyWorker), .pool (.pop onlyWorker),
    .pool (.sample onlyWorker), .pool (.pushFrom onlyWorker (.transmit 0)),
    .pool (.notifyFrom onlyWorker none), .await onlyWorker]

theorem reachable_accounted {s : State n} (h : Reachable step (init n) s) :
    ThreadPool.Accounted s.pool :=
  h.invariant (fun s => ThreadPool.Accounted s.pool) ThreadPool.accounted_init
    fun s a s' hs _ hstep => by
      cases a with
      | pool a => exact hs.step (step_pool hstep).2.1
      | await i =>
        obtain ⟨r, d, -, -, rfl⟩ := step_await hstep
        exact hs

/-- One request on one worker waits for its own transmission behind itself. -/
theorem single_request_stuck : ∃ s : State 1, exec step (init 1) singleRun = some s ∧
    Reachable step (init 1) s ∧ AllWaiting s ∧ Stuck s := by
  obtain ⟨s, hs, hworker, hphase, hqueue, hcalls, hsub, hfin⟩ : ∃ s : State 1,
      exec step (init 1) singleRun = some s ∧
      s.pool.worker 0 = .running (.processRequest 0) false none ∧ s.phase 0 = .waiting ∧
      s.pool.taskQueue.entries = [.transmit 0] ∧ s.pool.calls = [] ∧
      s.pool.submitted = [.processRequest 0, .transmit 0] ∧ s.pool.finished = [] :=
    ⟨_, rfl, rfl, rfl, rfl, rfl, rfl, rfl⟩
  have hreach : Reachable step (init 1) s := reachable_exec hs
  have hall : AllWaiting s := fun i => by
    rw [Fin.fin_one_eq_zero i]
    exact ⟨0, false, hworker, hphase, by rw [hqueue]; exact List.mem_singleton_self _⟩
  refine ⟨s, hs, hreach, hall, ⟨0, ?_, ?_⟩, hall.quiet (reachable_accounted hreach) hcalls⟩
  · rw [hsub]
    exact List.mem_cons_self
  · rw [hfin]
    exact List.not_mem_nil

end Autocomp.RequestPool

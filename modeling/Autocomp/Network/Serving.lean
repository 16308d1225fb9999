import Autocomp.Network.RequestPool
import Autocomp.Utils.ThreadPool.Bound

/-!
# The server from `serve()` to the end of `shutdown()`

One thread accepts connections and hands them to the pool until the shutdown pipe is written to. Then
it shuts the pool down and waits for the CPU monitor. The requests go on meanwhile, and each still
needs a worker for its transmission: one that will look at the queue again.
-/

namespace Autocomp.Serving

open Transition RequestPool

/-- Where the thread in `serve()` stands. -/
inductive Point where
  /-- In `poll`. -/
  | polling
  /-- The server socket is ready; with `ending` the same `poll` has found the shutdown pipe ready. -/
  | accepting (ending : Bool)
  /-- In `requestThreadPool.run`, past the push. -/
  | submitting (r : Nat) (ending : Bool)
  /-- About to ask for the name of the connection's host. -/
  | logging (ending : Bool)
  /-- In `shutdown()`, before it closes the descriptors. -/
  | closing
  /-- In `requestThreadPool.shutdown()`. -/
  | stopping
  /-- About to set `doneServing`. -/
  | stopped
  /-- In `cpuMonitorThread.join()`. -/
  | joining
  | returned
  /-- An exception has left `serve()`, which ends the process. -/
  | terminated
  deriving DecidableEq

/-- Where `monitorCPU` stands. -/
inductive Monitor where
  /-- At the head of its loop. -/
  | testing
  | sleeping
  | exited
  deriving DecidableEq

structure State (n : Nat) where
  requests : RequestPool.State n
  point : Point
  /-- How many connections have been accepted. -/
  accepted : Nat
  /-- Whether the server socket and the shutdown pipe are open. -/
  listening : Bool
  doneServing : Bool
  monitor : Monitor

variable {n : Nat}

/-- After `init()`. -/
def start (n : Nat) : State n := ⟨RequestPool.init n, .polling, 0, true, false, .testing⟩

inductive Event (n : Nat) where
  /-- `poll` finds a connection, the end of the service asked for, or both. -/
  | poll (connection ending : Bool)
  /-- `accept` and the push of the request. -/
  | accept
  | acceptFails
  /-- `notify_one` in `run`. -/
  | notify (woken : Option (Fin n))
  /-- `getHostname`. -/
  | resolve
  | resolveFails
  | close
  /-- The steps of `requestThreadPool.shutdown()`. -/
  | setDone
  | notifyAll
  | join
  | setDoneServing
  | joinMonitor
  /-- `monitorCPU` tests `doneServing`. -/
  | test
  /-- Half a second has passed. -/
  | tick
  /-- A step of a worker or of the task it executes. -/
  | worker (a : ThreadPool.Action n Job)
  | await (i : Fin n)
  deriving DecidableEq

/-- The steps of the pool that the tasks and `serve` allow. A transmission also ends when its
connection fails. -/
def permitted (s : RequestPool.State n) : ThreadPool.Action n Job → Bool
  | .finish i =>
    match s.pool.worker i with
    | .running (.transmit _) _ _ => true
    | _ => allowed s (.finish i)
  | .setDone | .notifyAll | .join => true
  | a => allowed s a

def poolStep (s : RequestPool.State n) (a : ThreadPool.Action n Job) : Option (RequestPool.State n) :=
  if permitted s a then (ThreadPool.step s.pool a).map fun pool => ⟨pool, phaseAfter s a⟩ else none

/-- Whether a step of the pool is one of its workers'. -/
def ofWorker : ThreadPool.Action n Job → Bool
  | .push _ | .notify _ _ | .setDone | .notifyAll | .join => false
  | _ => true

/-- One step. The last thing that `shutdown()` does, the release of `performanceDataWriter`, is left
out. -/
def step (s : State n) : Event n → Option (State n)
  | .poll connection ending =>
    if s.point = .polling ∧ (connection || ending) then
      some { s with point := if connection then .accepting ending else .closing }
    else none
  | .accept =>
    match s.point with
    | .accepting ending =>
      (poolStep s.requests (.push (.processRequest s.accepted))).map fun requests =>
        { s with
          requests := requests
          point := .submitting s.accepted ending
          accepted := s.accepted + 1 }
    | _ => none
  | .acceptFails =>
    match s.point with
    | .accepting _ => some { s with point := .terminated }
    | _ => none
  | .notify woken =>
    match s.point with
    | .submitting r ending =>
      (poolStep s.requests (.notify (.processRequest r) woken)).map fun requests =>
        { s with requests := requests, point := .logging ending }
    | _ => none
  | .resolve =>
    match s.point with
    | .logging ending => some { s with point := if ending then .closing else .polling }
    | _ => none
  | .resolveFails =>
    match s.point with
    | .logging _ => some { s with point := .terminated }
    | _ => none
  | .close =>
    if s.point = .closing then some { s with point := .stopping, listening := false } else none
  | .setDone =>
    if s.point = .stopping then
      (poolStep s.requests .setDone).map fun requests => { s with requests := requests }
    else none
  | .notifyAll =>
    if s.point = .stopping then
      (poolStep s.requests .notifyAll).map fun requests => { s with requests := requests }
    else none
  | .join =>
    if s.point = .stopping then
      (poolStep s.requests .join).map fun requests =>
        { s with requests := requests, point := .stopped }
    else none
  | .setDoneServing =>
    if s.point = .stopped then some { s with point := .joining, doneServing := true } else none
  | .joinMonitor =>
    if s.point = .joining ∧ s.monitor = .exited then some { s with point := .returned } else none
  | .test =>
    if s.point ≠ .terminated ∧ s.monitor = .testing then
      some { s with monitor := if s.doneServing then .exited else .sleeping }
    else none
  | .tick =>
    if s.point ≠ .terminated ∧ s.monitor = .sleeping then some { s with monitor := .testing }
    else none
  | .worker a =>
    if s.point ≠ .terminated ∧ ofWorker a then
      (poolStep s.requests a).map fun requests => { s with requests := requests }
    else none
  | .await i =>
    if s.point ≠ .terminated then
      (RequestPool.step s.requests (.await i)).map fun requests => { s with requests := requests }
    else none

/-- What a step of the pool requires and does. -/
structure Pools (s : RequestPool.State n) (a : ThreadPool.Action n Job) (t : RequestPool.State n) :
    Prop where
  permitted : permitted s a = true
  step : ThreadPool.Step s.pool a t.pool
  phase : t.phase = phaseAfter s a

theorem pools_of_poolStep {s t : RequestPool.State n} {a : ThreadPool.Action n Job}
    (h : poolStep s a = some t) : Pools s a t := by
  simp only [poolStep, Option.ite_none_right_eq_some, Option.map_eq_some_iff] at h
  obtain ⟨hpermitted, pool, hpool, rfl⟩ := h
  exact ⟨hpermitted, ThreadPool.step_cases hpool, rfl⟩

/-- What each event requires and does. -/
inductive Step (s : State n) : Event n → State n → Prop
  | poll {connection ending : Bool} (hpoint : s.point = .polling) :
      Step s (.poll connection ending)
        { s with point := if connection then .accepting ending else .closing }
  | accept {ending : Bool} {requests : RequestPool.State n} (hpoint : s.point = .accepting ending)
      (hpools : Pools s.requests (.push (.processRequest s.accepted)) requests) :
      Step s .accept
        { s with
          requests := requests
          point := .submitting s.accepted ending
          accepted := s.accepted + 1 }
  | acceptFails {ending : Bool} (hpoint : s.point = .accepting ending) :
      Step s .acceptFails { s with point := .terminated }
  | notify {r : Nat} {ending : Bool} {woken : Option (Fin n)} {requests : RequestPool.State n}
      (hpoint : s.point = .submitting r ending)
      (hpools : Pools s.requests (.notify (.processRequest r) woken) requests) :
      Step s (.notify woken) { s with requests := requests, point := .logging ending }
  | resolve {ending : Bool} (hpoint : s.point = .logging ending) :
      Step s .resolve { s with point := if ending then .closing else .polling }
  | resolveFails {ending : Bool} (hpoint : s.point = .logging ending) :
      Step s .resolveFails { s with point := .terminated }
  | close (hpoint : s.point = .closing) :
      Step s .close { s with point := .stopping, listening := false }
  | setDone {requests : RequestPool.State n} (hpoint : s.point = .stopping)
      (hpools : Pools s.requests .setDone requests) :
      Step s .setDone { s with requests := requests }
  | notifyAll {requests : RequestPool.State n} (hpoint : s.point = .stopping)
      (hpools : Pools s.requests .notifyAll requests) :
      Step s .notifyAll { s with requests := requests }
  | join {requests : RequestPool.State n} (hpoint : s.point = .stopping)
      (hpools : Pools s.requests .join requests) :
      Step s .join { s with requests := requests, point := .stopped }
  | setDoneServing (hpoint : s.point = .stopped) :
      Step s .setDoneServing { s with point := .joining, doneServing := true }
  | joinMonitor (hpoint : s.point = .joining) (hexit : s.monitor = .exited) :
      Step s .joinMonitor { s with point := .returned }
  | test (hmonitor : s.monitor = .testing) :
      Step s .test { s with monitor := if s.doneServing then .exited else .sleeping }
  | tick (hmonitor : s.monitor = .sleeping) : Step s .tick { s with monitor := .testing }
  | worker {a : ThreadPool.Action n Job} {requests : RequestPool.State n} (hworker : ofWorker a = true)
      (hpools : Pools s.requests a requests) :
      Step s (.worker a) { s with requests := requests }
  | await {i : Fin n} {requests : RequestPool.State n}
      (hawait : RequestPool.step s.requests (.await i) = some requests) :
      Step s (.await i) { s with requests := requests }

theorem step_cases {s t : State n} {e : Event n} (h : step s e = some t) : Step s e t := by
  cases e with
  | poll connection ending =>
    simp only [step, Option.ite_none_right_eq_some, Option.some.injEq] at h
    obtain ⟨⟨hpoint, -⟩, rfl⟩ := h
    exact .poll hpoint
  | accept =>
    simp only [step] at h
    split at h
    · obtain ⟨requests, hpool, rfl⟩ := Option.map_eq_some_iff.mp h
      exact .accept ‹_› (pools_of_poolStep hpool)
    · contradiction
  | acceptFails =>
    simp only [step] at h
    split at h
    · rw [← Option.some.inj h]
      exact .acceptFails ‹_›
    · contradiction
  | notify woken =>
    simp only [step] at h
    split at h
    · obtain ⟨requests, hpool, rfl⟩ := Option.map_eq_some_iff.mp h
      exact .notify ‹_› (pools_of_poolStep hpool)
    · contradiction
  | resolve =>
    simp only [step] at h
    split at h
    · rw [← Option.some.inj h]
      exact .resolve ‹_›
    · contradiction
  | resolveFails =>
    simp only [step] at h
    split at h
    · rw [← Option.some.inj h]
      exact .resolveFails ‹_›
    · contradiction
  | close =>
    simp only [step, Option.ite_none_right_eq_some, Option.some.injEq] at h
    obtain ⟨hpoint, rfl⟩ := h
    exact .close hpoint
  | setDone =>
    simp only [step, Option.ite_none_right_eq_some, Option.map_eq_some_iff] at h
    obtain ⟨hpoint, requests, hpool, rfl⟩ := h
    exact .setDone hpoint (pools_of_poolStep hpool)
  | notifyAll =>
    simp only [step, Option.ite_none_right_eq_some, Option.map_eq_some_iff] at h
    obtain ⟨hpoint, requests, hpool, rfl⟩ := h
    exact .notifyAll hpoint (pools_of_poolStep hpool)
  | join =>
    simp only [step, Option.ite_none_right_eq_some, Option.map_eq_some_iff] at h
    obtain ⟨hpoint, requests, hpool, rfl⟩ := h
    exact .join hpoint (pools_of_poolStep hpool)
  | setDoneServing =>
    simp only [step, Option.ite_none_right_eq_some, Option.some.injEq] at h
    obtain ⟨hpoint, rfl⟩ := h
    exact .setDoneServing hpoint
  | joinMonitor =>
    simp only [step, Option.ite_none_right_eq_some, Option.some.injEq] at h
    obtain ⟨⟨hpoint, hexit⟩, rfl⟩ := h
    exact .joinMonitor hpoint hexit
  | test =>
    simp only [step, Option.ite_none_right_eq_some, Option.some.injEq] at h
    obtain ⟨⟨-, hmonitor⟩, rfl⟩ := h
    exact .test hmonitor
  | tick =>
    simp only [step, Option.ite_none_right_eq_some, Option.some.injEq] at h
    obtain ⟨⟨-, hmonitor⟩, rfl⟩ := h
    exact .tick hmonitor
  | worker a =>
    simp only [step, Option.ite_none_right_eq_some, Option.map_eq_some_iff] at h
    obtain ⟨⟨-, hworker⟩, requests, hpool, rfl⟩ := h
    exact .worker hworker (pools_of_poolStep hpool)
  | await i =>
    simp only [step, Option.ite_none_right_eq_some, Option.map_eq_some_iff] at h
    obtain ⟨-, requests, hawait, rfl⟩ := h
    exact .await hawait

/-- What holds of the pool and of the requests in every run. -/
structure Kept (s : RequestPool.State n) : Prop where
  accounted : ThreadPool.Accounted s.pool
  closing : ThreadPool.Closing s.pool
  locked : ThreadPool.Locked s.pool
  settled : ThreadPool.Settled s.pool
  phased : Phased s

theorem kept_init : Kept (RequestPool.init n) :=
  ⟨ThreadPool.accounted_init, ThreadPool.closing_init, ThreadPool.locked_init,
    ThreadPool.settled_init, phased_init⟩

theorem phased_finish {s t : RequestPool.State n} (h : Phased s) {i : Fin n} {r : Nat} {d : Bool}
    (hi : s.pool.worker i = .running (.transmit r) d none)
    (hworker : t.pool.worker = (s.pool.setWorker i (if d then .exited else .top)).worker)
    (hsub : t.pool.submitted = s.pool.submitted) (hstart : t.pool.started = s.pool.started)
    (hphase : t.phase = s.phase) : Phased t := by
  refine h.setWorker hworker hphase (fun q => by rw [hsub]) (fun job hjob => by rwa [hstart])
    (fun q _ hx => ?_) fun job d' c hc => by split at hc <;> contradiction
  rw [hi] at hx
  simp [ThreadPool.Worker.executing] at hx

theorem phased_pools {s t : RequestPool.State n} {a : ThreadPool.Action n Job} (h : Kept s)
    (hpools : Pools s a t) : Phased t := by
  by_cases hallowed : allowed s a = true
  · exact h.phased.pool_step h.accounted hallowed hpools.step hpools.phase
  · obtain ⟨hpermitted, hstep, hphase⟩ := hpools
    obtain ⟨pool, phase⟩ := t
    simp only at hstep hphase
    cases hstep with
    | @finish i job d hi =>
      cases job with
      | processRequest r => simp [permitted, hi, hallowed] at hpermitted
      | transmit r => exact phased_finish h.phased hi rfl rfl rfl hphase
    | setDone hcall hfree =>
      exact h.phased.congr hphase (fun q => .rfl) (fun job hjob => hjob) (fun j q _ hj => hj)
        fun j job d c hj => hj
    | notifyAll hcall =>
      refine h.phased.congr hphase (fun q => .rfl) (fun job hjob => hjob) (fun j q _ hj => ?_)
        fun j job d c hj => ?_
      · simp only
        split
        · rename_i hblocked
          rw [hblocked] at hj
          contradiction
        · exact hj
      · simp only at hj
        split at hj
        · contradiction
        · exact hj
    | join hcall hexit =>
      exact h.phased.congr hphase (fun q => .rfl) (fun job hjob => hjob) (fun j q _ hj => hj)
        fun j job d c hj => hj
    | _ => exact absurd hpermitted hallowed

theorem Kept.pools {s t : RequestPool.State n} {a : ThreadPool.Action n Job} (h : Kept s)
    (hpools : Pools s a t) : Kept t :=
  ⟨h.accounted.step hpools.step, h.closing.step hpools.step, h.locked.step hpools.step,
    h.settled.step h.locked hpools.step, phased_pools h hpools⟩

theorem Kept.await {s t : RequestPool.State n} {i : Fin n} (h : Kept s)
    (hstep : RequestPool.step s (.await i) = some t) : Kept t := by
  obtain ⟨r, d, hi, hr, rfl⟩ := step_await hstep
  exact ⟨h.accounted, h.closing, h.locked, h.settled, h.phased.await hr hi h.accounted⟩

/-- The worker will look at the queue without waiting for a transmission that stands in it. -/
def Vacant (s : RequestPool.State n) (i : Fin n) : Prop :=
  ¬ Engaged s i ∧ (s.pool.worker i).leaving = false

instance (s : RequestPool.State n) (i : Fin n) : Decidable (Vacant s i) :=
  inferInstanceAs (Decidable (_ ∧ _))

/-- Whatever is in the queue, somebody will take it. -/
def Open (s : RequestPool.State n) : Prop := s.pool.taskQueue.entries ≠ [] → ∃ i, Vacant s i

/-- A transmission is in the queue and nobody will take it. -/
def Jammed (s : RequestPool.State n) : Prop :=
  (∃ i, Engaged s i) ∧ ∀ i, Engaged s i ∨ (s.pool.worker i).leaving = true

theorem not_vacant {s : RequestPool.State n} {i : Fin n} :
    ¬ Vacant s i ↔ Engaged s i ∨ (s.pool.worker i).leaving = true := by
  rw [Vacant, not_and_or, not_not, Bool.not_eq_false]

theorem Jammed.not_open {s : RequestPool.State n} (h : Jammed s) : ¬ Open s := by
  intro hopen
  obtain ⟨⟨i, r, -, hqueue⟩, hall⟩ := h
  obtain ⟨j, hj⟩ := hopen (List.ne_nil_of_mem hqueue)
  exact not_vacant.mpr (hall j) hj

theorem Open.congr {s t : RequestPool.State n} (h : Open s)
    (hqueue : t.pool.taskQueue.entries ≠ [] → s.pool.taskQueue.entries ≠ [])
    (hkeep : ∀ i, Vacant s i → Vacant t i) : Open t := by
  intro hne
  obtain ⟨i, hi⟩ := h (hqueue hne)
  exact ⟨i, hkeep i hi⟩

theorem Vacant.congr {s t : RequestPool.State n} {j : Fin n} (h : Vacant s j)
    (hqueue : ∀ r, .transmit r ∈ t.pool.taskQueue.entries → .transmit r ∈ s.pool.taskQueue.entries)
    (hexec : ∀ r, (t.pool.worker j).executing = some (.processRequest r) →
      (s.pool.worker j).executing = some (.processRequest r) ∨
        .transmit r ∉ t.pool.taskQueue.entries)
    (hleaving : (t.pool.worker j).leaving = true → (s.pool.worker j).leaving = true) :
    Vacant t j := by
  refine ⟨?_, ?_⟩
  · rintro ⟨r, hr, hmem⟩
    rcases hexec r hr with hx | hnot
    · exact h.1 ⟨r, hx, hqueue r hmem⟩
    · exact hnot hmem
  · rw [← Bool.not_eq_true]
    intro hl
    rw [h.2] at hleaving
    exact absurd (hleaving hl) (by simp)

theorem Open.setWorker {s t : RequestPool.State n} (h : Open s) {i : Fin n}
    {w : ThreadPool.Worker Job} (hworker : t.pool.worker = (s.pool.setWorker i w).worker)
    (hqueue : t.pool.taskQueue.entries <:+ s.pool.taskQueue.entries)
    (hexec : w.executing = none ∨ w.executing = (s.pool.worker i).executing)
    (hleaving : w.leaving = true → (s.pool.worker i).leaving = true) : Open t := by
  refine h.congr (fun hne hnil => hne ?_) fun j hj => hj.congr (fun r hr => hqueue.subset hr)
    (fun r hr => .inl ?_) fun hl => ?_
  · rw [hnil] at hqueue
    exact List.suffix_nil.mp hqueue
  · rw [hworker, ThreadPool.State.worker_setWorker] at hr
    split at hr
    · rename_i hji
      rw [hji]
      rcases hexec with hx | hx <;> rw [hx] at hr
      · contradiction
      · exact hr
    · exact hr
  · rw [hworker, ThreadPool.State.worker_setWorker] at hl
    split at hl
    · rename_i hji
      rw [hji]
      exact hleaving hl
    · exact hl

theorem Open.moveOn {s t : RequestPool.State n} (h : Open s) {i : Fin n}
    {w : ThreadPool.Worker Job} (hexec : w.executing = none) (hleaving : w.leaving = false)
    (hworker : t.pool.worker = (s.pool.setWorker i w).worker)
    (hqueue : t.pool.taskQueue.entries <:+ s.pool.taskQueue.entries) : Open t :=
  h.setWorker hworker hqueue (.inl hexec) fun hl => by
    rw [hleaving] at hl
    contradiction

theorem Open.push {s t : RequestPool.State n} (h : Open s) (hclosing : ThreadPool.Closing s.pool)
    (hn : 1 ≤ n) (hnot : s.pool.shutdown = .notCalled) {r : Nat}
    (hworker : t.pool.worker = s.pool.worker)
    (hqueue : t.pool.taskQueue.entries = s.pool.taskQueue.entries ++ [.processRequest r]) :
    Open t := by
  intro _
  have hmem (q : Nat) : .transmit q ∈ t.pool.taskQueue.entries ↔
      .transmit q ∈ s.pool.taskQueue.entries := by
    rw [hqueue]
    simp
  by_cases hne : s.pool.taskQueue.entries = []
  · refine ⟨⟨0, hn⟩, ?_, ?_⟩
    · rintro ⟨q, -, hq⟩
      rw [hmem, hne] at hq
      contradiction
    · rw [hworker]
      exact hclosing.staying hnot _
  · obtain ⟨i, hi⟩ := h hne
    exact ⟨i, hi.congr (fun q => (hmem q).mp) (fun q hq => .inl (hworker ▸ hq))
      fun hl => hworker ▸ hl⟩

theorem Open.leave {s t : RequestPool.State n} (h : Open s) (hkept : Kept s) {i : Fin n}
    {job : Option Job} (hi : s.pool.worker i = .popped job)
    (ht : t.pool = ThreadPool.leave s.pool i job) : Open t := by
  have hqueue : t.pool.taskQueue = s.pool.taskQueue := by
    rw [ht]
    cases job <;> rfl
  intro hne
  rw [hqueue] at hne
  -- the queue is not empty, so the worker does not leave
  have hempty : s.pool.taskQueue.isEmpty = false := by
    rw [← Bool.not_eq_true, SynchronousQueue.isEmpty_iff]
    exact hne
  obtain ⟨j, hj⟩ := h hne
  refine ⟨j, hj.congr (fun r hr => hqueue ▸ hr) (fun r hr => ?_) fun hl => ?_⟩
  · rw [ht] at hr
    cases job with
    | none =>
      simp only [ThreadPool.leave, hempty, Bool.false_and, ThreadPool.State.worker_setWorker] at hr
      split at hr
      · contradiction
      · exact .inl hr
    | some job =>
      simp only [ThreadPool.leave, ThreadPool.State.worker_setWorker] at hr
      split at hr
      · simp only [ThreadPool.Worker.executing, Option.some.injEq] at hr
        right
        rw [hqueue]
        exact hkept.phased.unsubmitted hkept.accounted (hr ▸ hi)
      · exact .inl hr
  · rw [ht] at hl
    cases job <;>
      simp only [ThreadPool.leave, hempty, Bool.false_and, ThreadPool.State.worker_setWorker] at hl <;>
      split at hl
    · contradiction
    · exact hl
    · contradiction
    · exact hl

theorem Open.pushFrom {s t : RequestPool.State n} (hkept : Kept s) {i : Fin n} {r : Nat} {d : Bool}
    (hi : s.pool.worker i = .running (.processRequest r) d none)
    (ht : t.pool = (s.pool.enqueue (.transmit r)).setWorker i
      (.running (.processRequest r) d (some (.transmit r))))
    (hroomy : ∃ j, j ≠ i ∧ Vacant s j) : Open t := by
  intro _
  obtain ⟨j, hji, hj⟩ := hroomy
  have hworker : t.pool.worker j = s.pool.worker j := by
    rw [ht, ThreadPool.State.worker_setWorker, if_neg hji]
    rfl
  refine ⟨j, ?_, ?_⟩
  · rintro ⟨q, hq, hmem⟩
    rw [hworker] at hq
    rw [ht] at hmem
    rcases List.mem_append.mp hmem with hm | hm
    · exact hj.1 ⟨q, hq, hm⟩
    · have hqr : q = r := by simpa using hm
      subst hqr
      exact hji (hkept.accounted.owner j i _ (ThreadPool.Worker.task_of_executing hq)
        (by rw [hi]; rfl))
  · rw [hworker]
    exact hj.2

theorem Open.notifyFrom {s t : RequestPool.State n} (h : Open s) {i : Fin n}
    {woken : Option (Fin n)} {job c : Job} {d : Bool}
    (hi : s.pool.worker i = .running job d (some c)) (hwoken : ThreadPool.CanWake s.pool woken)
    (hworker : t.pool.worker = ((s.pool.signal woken).setWorker i (.running job d none)).worker)
    (hqueue : t.pool.taskQueue = s.pool.taskQueue) : Open t := by
  have hmoved (j : Fin n) : t.pool.worker j = s.pool.worker j ∨ t.pool.worker j = .woken ∨
      s.pool.worker j = .running job d (some c) ∧ t.pool.worker j = .running job d none := by
    rw [hworker, ThreadPool.State.worker_setWorker]
    split
    · rename_i hji
      exact .inr (.inr ⟨hji ▸ hi, rfl⟩)
    · rcases ThreadPool.State.worker_signal hwoken j with hs | ⟨-, hs⟩
      · exact .inl hs
      · exact .inr (.inl hs)
  refine h.congr (fun hne => hqueue ▸ hne) fun j hj => hj.congr (fun q hq => hqueue ▸ hq)
    (fun q hq => .inl ?_) fun hl => ?_
  · rcases hmoved j with hs | hs | ⟨hs, hs'⟩
    · rwa [hs] at hq
    · rw [hs] at hq
      contradiction
    · rw [hs'] at hq
      rw [hs]
      exact hq
  · rcases hmoved j with hs | hs | ⟨hs, hs'⟩
    · rwa [hs] at hl
    · rw [hs] at hl
      contradiction
    · rw [hs'] at hl
      rw [hs]
      exact hl

/-- A request submits its transmission where another worker is vacant. -/
def Spacious (s : RequestPool.State n) : ThreadPool.Action n Job → Prop
  | .pushFrom i _ => ∃ j, j ≠ i ∧ Vacant s j
  | _ => True

instance (s : RequestPool.State n) (a : ThreadPool.Action n Job) : Decidable (Spacious s a) :=
  match a with
  | .pushFrom i _ => inferInstanceAs (Decidable (∃ j, j ≠ i ∧ Vacant s j))
  | .push _ | .notify _ _ | .lock _ | .check _ | .block _ | .wake _ | .pop _ | .sample _
  | .notifyFrom _ _ | .finish _ | .setDone | .notifyAll | .join => isTrue trivial

theorem Pools.submits {s t : RequestPool.State n} {i : Fin n} {job : Job}
    (h : Pools s (.pushFrom i job) t) : ∃ r d, job = .transmit r ∧
      s.pool.worker i = .running (.processRequest r) d none ∧ s.phase r = .preparing ∧
      t.pool = (s.pool.enqueue (.transmit r)).setWorker i
        (.running (.processRequest r) d (some (.transmit r))) ∧
      t.phase = Function.update s.phase r .sending := by
  obtain ⟨hpermitted, hstep, hphase⟩ := h
  obtain ⟨pool, phase⟩ := t
  simp only at hstep hphase
  cases hstep with
  | @pushFrom i job running d hi hnew =>
    cases running with
    | transmit r => simp [Serving.permitted, allowed, hi] at hpermitted
    | processRequest r =>
      simp only [Serving.permitted, allowed, hi, decide_eq_true_eq] at hpermitted
      obtain ⟨rfl, hprep⟩ := hpermitted
      exact ⟨r, d, rfl, hi, hprep, rfl, hphase⟩

theorem Open.pools {s t : RequestPool.State n} {a : ThreadPool.Action n Job} (h : Open s)
    (hkept : Kept s) (hn : 1 ≤ n) (hnot : ∀ job, a = .push job → s.pool.shutdown = .notCalled)
    (hspacious : Spacious s a) (hpools : Pools s a t) : Open t := by
  have hpermitted := hpools.permitted
  have hstep := hpools.step
  obtain ⟨pool, phase⟩ := t
  simp only at hstep
  cases hstep with
  | @push job hnew =>
    cases job with
    | transmit r => contradiction
    | processRequest r => exact h.push hkept.closing hn (hnot _ rfl) rfl rfl
  | @notify job woken hcall hwoken =>
    cases woken with
    | none => exact h
    | some j => exact h.moveOn (i := j) (w := .woken) rfl rfl rfl (List.suffix_refl _)
  | @lock i hi hfree =>
    exact h.moveOn (i := i) (w := .checking) rfl rfl rfl (List.suffix_refl _)
  | @checkTrue i hi hq =>
    exact h.moveOn (i := i) (w := .popping) rfl rfl rfl (List.suffix_refl _)
  | @checkFalse i hi hq hdone =>
    exact h.moveOn (i := i) (w := .waiting) rfl rfl rfl (List.suffix_refl _)
  | @block i hi =>
    exact h.moveOn (i := i) (w := .blocked) rfl rfl rfl (List.suffix_refl _)
  | @wake i hi =>
    exact h.moveOn (i := i) (w := .woken) rfl rfl rfl (List.suffix_refl _)
  | @pop i hi =>
    exact h.moveOn (i := i) (w := .popped s.pool.taskQueue.entries.head?) rfl rfl rfl
      (List.tail_suffix _)
  | @sample i job hi => exact h.leave hkept hi rfl
  | @pushFrom i job running d hi hnew =>
    obtain ⟨r, d, -, hi, -, ht, -⟩ := hpools.submits
    exact Open.pushFrom hkept hi ht hspacious
  | @notifyFrom i woken job c d hi hwoken =>
    exact h.notifyFrom hi hwoken rfl (by rw [ThreadPool.State.signal_eq]; rfl)
  | @finish i job d hi =>
    refine h.setWorker (i := i) (w := if d then .exited else .top) rfl (List.suffix_refl _)
      (.inl (by split <;> rfl)) fun hl => ?_
    rw [hi]
    cases d with
    | false => contradiction
    | true => rfl
  | setDone hcall hfree => exact h
  | notifyAll hcall =>
    refine h.congr (fun hne => hne) fun j hj => hj.congr (fun q hq => hq) (fun q hq => .inl ?_)
      fun hl => ?_
    · simp only at hq
      split at hq
      · contradiction
      · exact hq
    · simp only at hl
      split at hl
      · contradiction
      · exact hl
  | join hcall hexit => exact h

theorem Jammed.congr {s t : RequestPool.State n} (h : Jammed s)
    (hengaged : ∀ i, Engaged s i → Engaged t i)
    (hleaving : ∀ i, (s.pool.worker i).leaving = true → (t.pool.worker i).leaving = true) :
    Jammed t := by
  obtain ⟨⟨i, hi⟩, hall⟩ := h
  exact ⟨⟨i, hengaged i hi⟩, fun j => (hall j).imp (hengaged j) (hleaving j)⟩

theorem Jammed.worker {s : RequestPool.State n} (h : Jammed s) (i : Fin n) :
    (s.pool.worker i).executing ≠ none ∨ (s.pool.worker i).leaving = true := by
  rcases h.2 i with ⟨r, hr, -⟩ | hl
  · exact .inl (by rw [hr]; simp)
  · exact .inr hl

theorem engaged_of_kept {s t : RequestPool.State n} {j : Fin n} (h : Engaged s j)
    (hqueue : ∀ r, .transmit r ∈ s.pool.taskQueue.entries → .transmit r ∈ t.pool.taskQueue.entries)
    (hexec : (t.pool.worker j).executing = (s.pool.worker j).executing) : Engaged t j := by
  obtain ⟨r, hr, hmem⟩ := h
  exact ⟨r, hexec.trans hr, hqueue r hmem⟩

/-- A request whose transmission is in the queue does not end. -/
theorem Kept.not_finishes {s : RequestPool.State n} (h : Kept s) {i : Fin n} {job : Job} {d : Bool}
    (hi : s.pool.worker i = .running job d none) (hengaged : Engaged s i) :
    permitted s (.finish i) = false := by
  obtain ⟨r, hr, hmem⟩ := hengaged
  rw [hi] at hr
  simp only [ThreadPool.Worker.executing, Option.some.injEq] at hr
  subst hr
  have hsub : .transmit r ∈ s.pool.submitted := by
    rw [h.accounted.order]
    exact List.mem_append_right _ hmem
  have hnodup := h.accounted.submitted
  rw [h.accounted.order] at hnodup
  have hunfinished : .transmit r ∉ s.pool.finished := by
    intro hf
    exact (List.nodup_append.mp hnodup).2.2 _
      (h.accounted.started_sub _ (h.accounted.finished_sub _ hf)) _ hmem rfl
  simp [permitted, allowed, hi, (h.phased.submitted r).mpr hsub, hunfinished]

theorem Jammed.occupied {s : RequestPool.State n} (h : Jammed s) {i : Fin n}
    {w : ThreadPool.Worker Job} (hi : s.pool.worker i = w) (hexec : w.executing = none)
    (hleaving : w.leaving = false) : False := by
  have hi' := h.worker i
  rw [hi, hexec, hleaving] at hi'
  simp at hi'

theorem Jammed.pools {s t : RequestPool.State n} {a : ThreadPool.Action n Job} (h : Jammed s)
    (hkept : Kept s) (hpools : Pools s a t) : Jammed t := by
  have hpermitted := hpools.permitted
  have hstep := hpools.step
  obtain ⟨pool, phase⟩ := t
  simp only at hstep
  cases hstep with
  | @push job hnew =>
    refine h.congr (fun j hj => engaged_of_kept hj (fun r hr => ?_) rfl) fun j hj => hj
    exact List.mem_append_left _ hr
  | @notify job woken hcall hwoken =>
    cases woken with
    | none => exact h
    | some j =>
      have hblocked : s.pool.worker j = .blocked := hwoken
      exact (h.occupied hblocked rfl rfl).elim
  | @lock i hi hfree =>
    rcases hi with hi | hi <;> exact (h.occupied hi rfl rfl).elim
  | @checkTrue i hi | @checkFalse i hi | @block i hi | @wake i hi | @pop i hi | @sample i job hi =>
    exact (h.occupied hi rfl rfl).elim
  | @pushFrom i job running d hi hnew =>
    refine h.congr (fun j hj => engaged_of_kept hj (fun r hr => List.mem_append_left _ hr) ?_)
      fun j hj => ?_
    · simp only [ThreadPool.State.worker_setWorker]
      split
      · rename_i hji
        rw [hji, hi]
        rfl
      · rfl
    · simp only [ThreadPool.State.worker_setWorker]
      split
      · rename_i hji
        rw [hji, hi] at hj
        exact hj
      · exact hj
  | @notifyFrom i woken job c d hi hwoken =>
    have hworker (j : Fin n) : ((s.pool.signal woken).worker j) = s.pool.worker j := by
      rcases ThreadPool.State.worker_signal hwoken j with hs | ⟨hblocked, -⟩
      · exact hs
      · exact (h.occupied hblocked rfl rfl).elim
    refine h.congr (fun j hj => engaged_of_kept hj (fun r hr => ?_) ?_) fun j hj => ?_
    · rw [ThreadPool.State.signal_eq]
      exact hr
    · simp only [ThreadPool.State.worker_setWorker, hworker]
      split
      · rename_i hji
        rw [hji, hi]
        rfl
      · rfl
    · simp only [ThreadPool.State.worker_setWorker, hworker]
      split
      · rename_i hji
        rw [hji, hi] at hj
        exact hj
      · exact hj
  | @finish i job d hi =>
    have hfree : ¬ Engaged s i := by
      intro hengaged
      rw [hkept.not_finishes hi hengaged] at hpermitted
      contradiction
    have hd : d = true := by
      have hl := (h.2 i).resolve_left hfree
      rw [hi] at hl
      exact hl
    refine h.congr (fun j hj => engaged_of_kept hj (fun r hr => hr) ?_) fun j hj => ?_
    · have hji : j ≠ i := by
        rintro rfl
        exact hfree hj
      simp only [ThreadPool.State.worker_setWorker, if_neg hji]
    · simp only [ThreadPool.State.worker_setWorker, hd, if_true]
      split
      · rfl
      · exact hj
  | setDone hcall hfree | join hcall hexit => exact h
  | notifyAll hcall =>
    have hworker (j : Fin n) : s.pool.worker j ≠ .blocked := fun hblocked =>
      h.occupied hblocked rfl rfl
    refine h.congr (fun j hj => engaged_of_kept hj (fun r hr => hr) ?_) fun j hj => ?_
    · simp only [if_neg (hworker j)]
    · simp only [if_neg (hworker j)]
      exact hj

/-- A transmission submitted where no other worker is vacant jams the pool. -/
theorem jammed_of_not_spacious {s t : RequestPool.State n} {a : ThreadPool.Action n Job}
    (hnot : ¬ Spacious s a) (hpools : Pools s a t) : Jammed t := by
  cases a with
  | pushFrom i job =>
    obtain ⟨r, d, -, hi, -, ht, -⟩ := hpools.submits
    have hengaged : Engaged t i := by
      refine ⟨r, ?_, ?_⟩
      · rw [ht, ThreadPool.State.worker_setWorker, if_pos rfl]
        rfl
      · rw [ht]
        simp [ThreadPool.State.setWorker, ThreadPool.State.enqueue, SynchronousQueue.push]
    refine ⟨⟨i, hengaged⟩, fun j => ?_⟩
    by_cases hji : j = i
    · exact .inl (hji ▸ hengaged)
    · have hworker : t.pool.worker j = s.pool.worker j := by
        rw [ht, ThreadPool.State.worker_setWorker, if_neg hji]
        rfl
      have hj : ¬ Vacant s j := fun hj => hnot ⟨j, hji, hj⟩
      rw [hworker]
      refine (not_vacant.mp hj).imp_left fun hs =>
        engaged_of_kept hs (fun q hq => ?_) (by rw [hworker])
      rw [ht]
      exact List.mem_append_left _ hq
  | _ => exact absurd trivial hnot

end Autocomp.Serving

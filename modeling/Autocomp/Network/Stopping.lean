import Autocomp.Network.Serving

/-!
# When the server comes to its end

`shutdown()` waits for the workers of the pool, and a request on one of them for a transmission that
another has to take. It returns unless a request has submitted its transmission to nobody.
-/

namespace Autocomp.Serving

open Transition RequestPool

variable {n : Nat}

namespace Point

/-- The call of `run` in which the thread is, past the push. -/
def calls : Point → List Job
  | submitting r _ => [.processRequest r]
  | _ => []

/-- Whether the descriptors have been closed. -/
def closed : Point → Bool
  | stopping | stopped | joining | returned => true
  | _ => false

/-- How far the shutdown of the pool can be. -/
def Stands : Point → ThreadPool.Shutdown → Prop
  | stopping, stage => stage ≠ .returned
  | stopped, stage | joining, stage | returned, stage => stage = .returned
  | _, stage => stage = .notCalled

end Point

/-- What holds in every run. -/
structure Sound (s : State n) : Prop where
  kept : Kept s.requests
  calls : s.requests.pool.calls = s.point.calls
  connections : ∀ r, .processRequest r ∈ s.requests.pool.submitted ↔ r < s.accepted
  stands : s.point.Stands s.requests.pool.shutdown
  listening : s.listening = !s.point.closed
  doneServing : s.point = .joining ∨ s.point = .returned → s.doneServing = true

theorem sound_start : Sound (start n) where
  kept := kept_init
  calls := rfl
  connections := by simp [start, RequestPool.init, ThreadPool.init]
  stands := rfl
  listening := rfl
  doneServing := by simp [start]

theorem Pools.of_worker {s t : RequestPool.State n} {a : ThreadPool.Action n Job} (h : Pools s a t)
    (ha : ofWorker a = true) : t.pool.calls = s.pool.calls ∧ t.pool.shutdown = s.pool.shutdown ∧
      ∀ r, .processRequest r ∈ t.pool.submitted ↔ .processRequest r ∈ s.pool.submitted := by
  have hstep := h.step
  obtain ⟨pool, phase⟩ := t
  simp only at hstep
  cases hstep with
  | push | notify | setDone | notifyAll | join => contradiction
  | @sample i job hi => cases job <;> exact ⟨rfl, rfl, fun r => .rfl⟩
  | @pushFrom i job running d hi hnew =>
    obtain ⟨r, d, rfl, -⟩ := h.submits
    exact ⟨rfl, rfl, fun q => by simp [ThreadPool.State.setWorker, ThreadPool.State.enqueue]⟩
  | notifyFrom hi hwoken =>
    rw [ThreadPool.State.signal_eq]
    exact ⟨rfl, rfl, fun r => .rfl⟩
  | _ => exact ⟨rfl, rfl, fun r => .rfl⟩

theorem Sound.step {s t : State n} {e : Event n} (h : Sound s) (hstep : Step s e t) : Sound t := by
  obtain ⟨hkept, hcalls, hconnections, hstands, hlistening, hdone⟩ := h
  cases hstep with
  | @poll connection ending hpoint =>
    rw [hpoint] at hcalls hstands hlistening
    cases connection <;> exact ⟨hkept, hcalls, hconnections, hstands, hlistening, by simp⟩
  | @accept ending requests hpoint hpools =>
    have hstep := hpools.step
    rw [hpoint] at hcalls hstands hlistening
    obtain ⟨pool, phase⟩ := requests
    simp only at hstep
    cases hstep with
    | push hnew =>
      refine ⟨hkept.pools hpools, ?_, fun r => ?_, hstands, hlistening, by simp⟩
      · simp only [hcalls]
        rfl
      · simp [ThreadPool.State.enqueue, hconnections]
        omega
  | acceptFails hpoint | resolveFails hpoint =>
    rw [hpoint] at hcalls hstands hlistening
    exact ⟨hkept, hcalls, hconnections, hstands, hlistening, by simp⟩
  | @notify r ending woken requests hpoint hpools =>
    have hstep := hpools.step
    rw [hpoint] at hcalls hstands hlistening
    obtain ⟨pool, phase⟩ := requests
    simp only at hstep
    cases hstep with
    | notify hcall hwoken =>
      rw [ThreadPool.State.signal_eq] at hpools ⊢
      refine ⟨hkept.pools hpools, ?_, hconnections, hstands, hlistening, by simp⟩
      simp [hcalls, Point.calls]
  | @resolve ending hpoint =>
    rw [hpoint] at hcalls hstands hlistening
    cases ending <;> exact ⟨hkept, hcalls, hconnections, hstands, hlistening, by simp⟩
  | close hpoint =>
    rw [hpoint] at hcalls hstands
    refine ⟨hkept, hcalls, hconnections, ?_, rfl, by simp⟩
    simp only [Point.Stands] at hstands ⊢
    rw [hstands]
    simp
  | @setDone requests hpoint hpools | @notifyAll requests hpoint hpools =>
    have hstep := hpools.step
    rw [hpoint] at hcalls hstands hlistening
    obtain ⟨pool, phase⟩ := requests
    simp only at hstep
    cases hstep
    refine ⟨hkept.pools hpools, ?_, hconnections, ?_, ?_, by simp [hpoint]⟩
    · simp only [hpoint]
      exact hcalls
    · simp [hpoint, Point.Stands]
    · simp only [hpoint]
      exact hlistening
  | @join requests hpoint hpools =>
    have hstep := hpools.step
    rw [hpoint] at hcalls hstands hlistening
    obtain ⟨pool, phase⟩ := requests
    simp only at hstep
    cases hstep
    exact ⟨hkept.pools hpools, hcalls, hconnections, rfl, hlistening, by simp⟩
  | setDoneServing hpoint =>
    rw [hpoint] at hcalls hstands hlistening
    exact ⟨hkept, hcalls, hconnections, hstands, hlistening, fun _ => rfl⟩
  | joinMonitor hpoint hexit =>
    have hset := hdone (.inl hpoint)
    rw [hpoint] at hcalls hstands hlistening
    exact ⟨hkept, hcalls, hconnections, hstands, hlistening, fun _ => hset⟩
  | test | tick => exact ⟨hkept, hcalls, hconnections, hstands, hlistening, hdone⟩
  | @worker a requests hworker hpools =>
    obtain ⟨hcall, hshutdown, hsubmitted⟩ := hpools.of_worker hworker
    refine ⟨hkept.pools hpools, hcall.trans hcalls, fun r => ?_, ?_, hlistening, hdone⟩
    · exact (hsubmitted r).trans (hconnections r)
    · simp only [hshutdown]
      exact hstands
  | @await i requests hawait =>
    have hnext := hkept.await hawait
    obtain ⟨r, d, -, -, rfl⟩ := step_await hawait
    exact ⟨hnext, hcalls, hconnections, hstands, hlistening, hdone⟩

theorem sound_of_exec {es : List (Event n)} {s : State n} (hrun : exec step (start n) es = some s) :
    Sound s :=
  (reachable_exec hrun).invariant Sound sound_start fun _ _ _ hs _ hstep => hs.step (step_cases hstep)

/-- Whenever a request submits its transmission another worker is vacant. -/
def Roomy (s : State n) : Event n → Prop
  | .worker a => Spacious s.requests a
  | _ => True

instance (s : State n) (e : Event n) : Decidable (Roomy s e) :=
  match e with
  | .worker a => inferInstanceAs (Decidable (Spacious s.requests a))
  | .poll _ _ | .accept | .acceptFails | .notify _ | .resolve | .resolveFails | .close | .setDone
  | .notifyAll | .join | .setDoneServing | .joinMonitor | .test | .tick | .await _ => isTrue trivial

theorem Step.pools {s t : State n} {e : Event n} (h : Step s e t) :
    Roomy s e ∧ (t.requests = s.requests ∨
        ∃ i, RequestPool.step s.requests (.await i) = some t.requests) ∨
      ∃ a, Pools s.requests a t.requests ∧ (Roomy s e ↔ Spacious s.requests a) ∧
        ∀ job, a = .push job → ∃ ending, s.point = .accepting ending := by
  cases h with
  | accept hpoint hpools =>
    exact .inr ⟨_, hpools, .rfl, fun _ _ => ⟨_, hpoint⟩⟩
  | notify hpoint hpools | setDone hpoint hpools | notifyAll hpoint hpools | join hpoint hpools =>
    exact .inr ⟨_, hpools, .rfl, fun _ ha => by contradiction⟩
  | worker hworker hpools =>
    refine .inr ⟨_, hpools, .rfl, ?_⟩
    rintro job rfl
    contradiction
  | await hawait => exact .inl ⟨trivial, .inr ⟨_, hawait⟩⟩
  | _ => exact .inl ⟨trivial, .inl rfl⟩

theorem engaged_await {s t : RequestPool.State n} {i : Fin n}
    (h : RequestPool.step s (.await i) = some t) : t.pool = s.pool := by
  obtain ⟨r, d, -, -, rfl⟩ := step_await h
  rfl

theorem open_congr {s t : RequestPool.State n} (h : t.pool = s.pool) : Open t ↔ Open s := by
  simp only [Open, Vacant, Engaged, h]

theorem jammed_congr {s t : RequestPool.State n} (h : t.pool = s.pool) : Jammed t ↔ Jammed s := by
  simp only [Jammed, Engaged, h]

theorem open_step {s t : State n} {e : Event n} (hn : 1 ≤ n) (hs : Sound s) (h : Open s.requests)
    (hroomy : Roomy s e) (hstep : Step s e t) : Open t.requests := by
  rcases hstep.pools with ⟨-, heq | ⟨i, hawait⟩⟩ | ⟨a, hpools, hiff, hpush⟩
  · rwa [heq]
  · exact (open_congr (engaged_await hawait)).mpr h
  · refine h.pools hs.kept hn (fun job ha => ?_) (hiff.mp hroomy) hpools
    obtain ⟨ending, hpoint⟩ := hpush job ha
    have hstands := hs.stands
    rw [hpoint] at hstands
    exact hstands

theorem jammed_step {s t : State n} {e : Event n} (hs : Sound s) (h : Jammed s.requests)
    (hstep : Step s e t) : Jammed t.requests := by
  rcases hstep.pools with ⟨-, heq | ⟨i, hawait⟩⟩ | ⟨a, hpools, -, -⟩
  · rwa [heq]
  · exact (jammed_congr (engaged_await hawait)).mpr h
  · exact h.pools hs.kept hpools

theorem jammed_of_not_roomy {s t : State n} {e : Event n} (hnot : ¬ Roomy s e)
    (hstep : Step s e t) : Jammed t.requests := by
  rcases hstep.pools with ⟨hroomy, -⟩ | ⟨a, hpools, hiff, -⟩
  · exact absurd hroomy hnot
  · exact jammed_of_not_spacious (fun ha => hnot (hiff.mpr ha)) hpools

theorem open_iff_admitted (hn : 1 ≤ n) {es : List (Event n)} {s : State n}
    (hrun : exec step (start n) es = some s) :
    Open s.requests ↔ Admitted step Roomy (start n) es := by
  have hnot : ∀ s : State n, Sound s ∧ Jammed s.requests → ¬ (Sound s ∧ Open s.requests) :=
    fun s hs hgood => hs.2.not_open hgood.2
  have hiff : Sound s ∧ Open s.requests ↔ Admitted step Roomy (start n) es := by
    refine exec_iff_admitted hnot (fun s e t hs hroomy hstep => ?_) (fun s e t hs hcramped hstep => ?_)
      (fun s e t hs hstep => ?_) ⟨sound_start, fun hne => absurd rfl hne⟩ hrun <;>
      refine ⟨hs.1.step (step_cases hstep), ?_⟩
    · exact open_step hn hs.1 hs.2 hroomy (step_cases hstep)
    · exact jammed_of_not_roomy hcramped (step_cases hstep)
    · exact jammed_step hs.1 hs.2 (step_cases hstep)
  rw [← hiff]
  exact ⟨fun hopen => ⟨sound_of_exec hrun, hopen⟩, And.right⟩

/-- What somebody who waits can count on. The monitor matters once it has been told to end. -/
def Due (s : State n) : Event n → Prop
  | .poll _ _ | .acceptFails | .resolveFails | .worker (.wake _) => False
  | .test | .tick => s.doneServing = true
  | _ => True

def Stuck (s : State n) : Prop := ∀ e, Due s e → step s e = none

theorem permitted_of_allowed {s : RequestPool.State n} {a : ThreadPool.Action n Job}
    (h : allowed s a = true) : permitted s a = true := by
  cases a with
  | finish i =>
    simp only [permitted]
    split
    · rfl
    · exact h
  | setDone | notifyAll | join => rfl
  | _ => exact h

theorem Stuck.worker {s : State n} (h : Stuck s) (hpoint : s.point ≠ .terminated)
    {a : ThreadPool.Action n Job} (ha : ofWorker a = true) (hdue : Due s (.worker a))
    (hpermitted : permitted s.requests a = true) : ThreadPool.step s.requests.pool a = none := by
  simpa [step, poolStep, hpoint, ha, hpermitted] using h (.worker a) hdue

/-- The tasks are quiet, too. -/
theorem Stuck.quiet {s : State n} (h : Stuck s) (hs : Sound s) (hpoint : s.point = .stopping) :
    Quiet s.requests := by
  have hlive : s.point ≠ .terminated := by
    rw [hpoint]
    simp
  intro a ha
  cases a with
  | await i => simpa [step, hlive] using h (.await i) trivial
  | pool a =>
    by_cases hallowed : allowed s.requests a = true
    · have hstep : ThreadPool.step s.requests.pool a = none := by
        cases a with
        | push | wake => exact ha.elim
        | setDone | notifyAll | join => contradiction
        | notify job woken =>
          have hcalls := hs.calls
          rw [hpoint] at hcalls
          simp [ThreadPool.step, hcalls, Point.calls]
        | _ => exact h.worker hlive rfl trivial (permitted_of_allowed hallowed)
      simp [RequestPool.step, hstep]
    · simp [RequestPool.step, hallowed]

theorem Stuck.joining {s : State n} (h : Stuck s) (hs : Sound s) (hpoint : s.point = .stopping) :
    s.requests.pool.shutdown = .joining := by
  have hmutex := (h.quiet hs hpoint).mutex hs.kept.locked
  have hstands := hs.stands
  rw [hpoint] at hstands
  cases hshutdown : s.requests.pool.shutdown with
  | notCalled =>
    have hnone := h .setDone trivial
    simp [step, poolStep, permitted, ThreadPool.step, hpoint, hshutdown, hmutex] at hnone
  | doneSet =>
    have hnone := h .notifyAll trivial
    simp [step, poolStep, permitted, ThreadPool.step, hpoint, hshutdown] at hnone
  | joining => rfl
  | returned => exact absurd hshutdown hstands

theorem Stuck.not_transmits {s : State n} (h : Stuck s) (hpoint : s.point = .stopping) {i : Fin n}
    {r : Nat} {d : Bool} : s.requests.pool.worker i ≠ .running (.transmit r) d none := by
  intro hi
  have hnone := h.worker (a := .finish i) (by rw [hpoint]; simp) rfl trivial (by simp [permitted, hi])
  simp [ThreadPool.step, hi] at hnone

/-- Each worker has left or waits for a transmission in the queue. -/
theorem Stuck.engaged {s : State n} (h : Stuck s) (hs : Sound s) (hpoint : s.point = .stopping)
    (i : Fin n) : s.requests.pool.worker i = .exited ∨ Engaged s.requests i := by
  have hquiet := h.quiet hs hpoint
  have hmutex := hquiet.mutex hs.kept.locked
  have hunlocked := hquiet.unlocked
  cases hi : s.requests.pool.worker i with
  | exited => exact .inl rfl
  | top | woken =>
    have hnone := hquiet.pool (a := .lock i) rfl trivial
    simp [ThreadPool.step, hi, hmutex] at hnone
  | checking | waiting | popping | popped =>
    have hlocking := hunlocked i
    rw [hi] at hlocking
    contradiction
  | blocked =>
    have hshutdown := h.joining hs hpoint
    rcases hs.kept.settled.blocked i hi with hx | hx <;> rw [hshutdown] at hx <;> contradiction
  | running job d c =>
    right
    have hexec : (s.requests.pool.worker i).executing = some job := by rw [hi]; rfl
    obtain ⟨d, hrunning, hno⟩ := hquiet.executing hexec
    cases job with
    | transmit r => exact absurd hrunning (h.not_transmits hpoint)
    | processRequest r =>
      simp only [allowed, hrunning, decide_eq_false_iff_not, not_or, not_and] at hno
      have hwaiting : s.requests.phase r = .waiting := by
        have hsending := hquiet.not_sending hs.kept.phased r
        have hpreparing := hno.1
        cases hphase : s.requests.phase r <;> simp_all
      have hsub := (hs.kept.phased.submitted r).mp (by rw [hwaiting]; simp)
      rw [hs.kept.accounted.order] at hsub
      refine ⟨r, hexec, (List.mem_append.mp hsub).resolve_left fun hdequeued => ?_⟩
      obtain ⟨j, hj⟩ :=
        (hs.kept.accounted.complete _ hdequeued).resolve_left (hno.2 hwaiting)
      have hjexec : (s.requests.pool.worker j).executing = some (.transmit r) := by
        have hj' := hunlocked j
        cases hw : s.requests.pool.worker j <;> rw [hw] at hj hj' <;>
          simp_all [ThreadPool.Worker.task, ThreadPool.Worker.executing, ThreadPool.Worker.locking]
      obtain ⟨d', hj', -⟩ := hquiet.executing hjexec
      exact h.not_transmits hpoint hj'

/-- With room for the transmissions the pool is not waited for forever. -/
theorem Stuck.not_stopping {s : State n} (h : Stuck s) (hs : Sound s) (hopen : Open s.requests) :
    s.point ≠ .stopping := by
  intro hpoint
  have hshutdown := h.joining hs hpoint
  have hnone := h .join trivial
  obtain ⟨i, hi⟩ : ∃ i, s.requests.pool.worker i ≠ .exited := by
    simpa [step, poolStep, permitted, ThreadPool.step, hpoint, hshutdown] using hnone
  obtain ⟨r, -, hqueue⟩ := (h.engaged hs hpoint i).resolve_left hi
  obtain ⟨j, hfree, hstaying⟩ := hopen (List.ne_nil_of_mem hqueue)
  have hexited := (h.engaged hs hpoint j).resolve_right hfree
  rw [hexited] at hstaying
  contradiction

theorem Stuck.point {s : State n} (h : Stuck s) (hs : Sound s) :
    s.point = .polling ∨ s.point = .terminated ∨ s.point = .stopping ∨ s.point = .returned := by
  cases hpoint : s.point with
  | polling | terminated | stopping | returned => simp
  | accepting ending =>
    have hnone := h .accept trivial
    have hfresh : .processRequest s.accepted ∉ s.requests.pool.submitted := by
      rw [hs.connections]
      exact Nat.lt_irrefl _
    simp [step, poolStep, permitted, allowed, ThreadPool.step, hpoint, hfresh] at hnone
  | submitting r ending =>
    obtain ⟨woken, hwoken⟩ := exists_canWake s.requests.pool
    have hnone := h (.notify woken) trivial
    have hcalls := hs.calls
    rw [hpoint] at hcalls
    simp [step, poolStep, permitted, allowed, ThreadPool.step, hpoint, hcalls, Point.calls,
      hwoken] at hnone
  | logging ending =>
    have hnone := h .resolve trivial
    simp [step, hpoint] at hnone
  | closing =>
    have hnone := h .close trivial
    simp [step, hpoint] at hnone
  | stopped =>
    have hnone := h .setDoneServing trivial
    simp [step, hpoint] at hnone
  | joining =>
    have hdone := hs.doneServing (.inl hpoint)
    cases hmonitor : s.monitor with
    | testing =>
      have hnone := h .test hdone
      simp [step, hpoint, hmonitor] at hnone
    | sleeping =>
      have hnone := h .tick hdone
      simp [step, hpoint, hmonitor] at hnone
    | exited =>
      have hnone := h .joinMonitor trivial
      simp [step, hpoint, hmonitor] at hnone

/-- The steps of the thread in `serve()` to the end of `shutdown()`, those of the pool's shutdown
apart. -/
def Point.rank : Point → Nat
  | accepting _ => 12
  | submitting _ _ => 11
  | logging _ => 5
  | closing => 4
  | stopping => 3
  | stopped => 2
  | joining => 1
  | polling | returned | terminated => 0

/-- The steps of `requestThreadPool.shutdown()`, which wakes all workers. -/
def stageRank (n : Nat) : ThreadPool.Shutdown → Nat
  | .notCalled => 5 * n + 3
  | .doneSet => 5 * n + 2
  | .joining => 1
  | .returned => 0

def Monitor.rank : Monitor → Nat
  | testing => 2
  | sleeping => 1
  | exited => 0

/-- What a request still asks of the pool. -/
def phaseRank (n : Nat) : Phase → Nat
  | .preparing => 4 * n + 13
  | .sending => 1
  | .waiting => 0

/-- What the tasks of the first `accepted` requests can still do. -/
def tasksRank (s : RequestPool.State n) (accepted : Nat) : Nat :=
  ThreadPool.rank s.pool + ∑ r ∈ Finset.range accepted, phaseRank n (s.phase r)

def rank (s : State n) : Nat :=
  tasksRank s.requests s.accepted + stageRank n s.requests.pool.shutdown + s.point.rank +
    s.monitor.rank

/-- What comes from outside: a `poll` that finds something, a connection, a spurious wake-up, the
time. -/
def Event.cost : Event n → Nat
  | .poll _ _ => 13
  | .accept => 8 * n + 18
  | .worker (.wake _) => 6
  | .tick => 2
  | _ => 0

theorem sum_phaseRank (n : Nat) (phase : Nat → Phase) {r k : Nat} (hr : r < k) (next : Phase) :
    ∑ q ∈ Finset.range k, phaseRank n (Function.update phase r next q) + phaseRank n (phase r) =
      ∑ q ∈ Finset.range k, phaseRank n (phase q) + phaseRank n next := by
  have hmem := Finset.mem_range.mpr hr
  have hcomp : (fun q => phaseRank n (Function.update phase r next q)) =
      Function.update (fun q => phaseRank n (phase q)) r (phaseRank n next) := by
    funext q
    rw [Function.update_apply, Function.update_apply]
    split <;> rfl
  rw [hcomp, Finset.sum_update_of_mem hmem, ← Finset.add_sum_erase _ _ hmem,
    Finset.sdiff_singleton_eq_erase]
  omega

theorem Sound.started {s : State n} (h : Sound s) {r : Nat}
    (hr : .processRequest r ∈ s.requests.pool.started) : r < s.accepted := by
  rw [← h.connections, h.kept.accounted.order]
  exact List.mem_append_left _ (h.kept.accounted.started_sub _ hr)

theorem Sound.tasksRank_pools {s : State n} (h : Sound s) {a : ThreadPool.Action n Job}
    {requests : RequestPool.State n} (hpools : Pools s.requests a requests)
    (hphase : phaseAfter s.requests a = s.requests.phase) (accepted : Nat) :
    tasksRank requests accepted < tasksRank s.requests accepted + a.cost := by
  have hrank := ThreadPool.rank_step h.kept.settled hpools.step
  rw [tasksRank, tasksRank, hpools.phase, hphase]
  omega

theorem Sound.tasksRank_worker {s : State n} (h : Sound s) {a : ThreadPool.Action n Job}
    (hworker : ofWorker a = true) {requests : RequestPool.State n}
    (hpools : Pools s.requests a requests) :
    tasksRank requests s.accepted < tasksRank s.requests s.accepted + (Event.worker a).cost := by
  cases a with
  | push | notify | setDone | notifyAll | join => contradiction
  | pushFrom i job =>
    obtain ⟨r, d, rfl, hi, hpreparing, -, hsending⟩ := hpools.submits
    have hr := h.started (h.kept.accounted.executing i (.processRequest r) (by rw [hi]; rfl)).1
    have hrank := ThreadPool.rank_step h.kept.settled hpools.step
    have hsum := sum_phaseRank n s.requests.phase hr .sending
    have hrest : phaseRank n .preparing = 4 * n + 13 := rfl
    have hleft : phaseRank n .sending = 1 := rfl
    have hcost : (ThreadPool.Action.pushFrom i (Job.transmit r)).cost = 4 * n + 12 := rfl
    rw [hpreparing] at hsum
    rw [tasksRank, tasksRank, hsending]
    omega
  | _ => exact h.tasksRank_pools hpools rfl s.accepted

theorem Sound.tasksRank_accept {s : State n} (h : Sound s) {requests : RequestPool.State n}
    (hpools : Pools s.requests (.push (.processRequest s.accepted)) requests) :
    tasksRank requests (s.accepted + 1) < tasksRank s.requests s.accepted + (8 * n + 19) := by
  have hrank := h.tasksRank_pools hpools rfl s.accepted
  have hcost : (ThreadPool.Action.push (Job.processRequest s.accepted) :
      ThreadPool.Action n Job).cost = 4 * n + 6 := rfl
  have hle : phaseRank n (requests.phase s.accepted) ≤ 4 * n + 13 := by
    cases requests.phase s.accepted <;> simp only [phaseRank] <;> omega
  simp only [tasksRank, Finset.sum_range_succ] at hrank ⊢
  omega

theorem Sound.tasksRank_await {s : State n} (h : Sound s) {i : Fin n} {requests : RequestPool.State n}
    (hawait : RequestPool.step s.requests (.await i) = some requests) :
    tasksRank requests s.accepted < tasksRank s.requests s.accepted := by
  obtain ⟨r, d, hi, hsending, rfl⟩ := step_await hawait
  have hr := h.started (h.kept.accounted.executing i (.processRequest r) (by rw [hi]; rfl)).1
  have hsum := sum_phaseRank n s.requests.phase hr .waiting
  have hleft : phaseRank n .sending = 1 := rfl
  have hnone : phaseRank n .waiting = 0 := rfl
  rw [hsending] at hsum
  simp only [tasksRank]
  omega

theorem stageRank_step {s t : ThreadPool.State n Job} {a : ThreadPool.Action n Job}
    (h : ThreadPool.Step s a t) (ha : a = .setDone ∨ a = .notifyAll ∨ a = .join) :
    stageRank n t.shutdown + a.cost ≤ stageRank n s.shutdown := by
  cases h with
  | setDone hcall hfree =>
    rw [hcall]
    exact Nat.le_refl _
  | notifyAll hcall =>
    rw [hcall]
    simp only [stageRank, ThreadPool.Action.cost]
    omega
  | join hcall hexit =>
    rw [hcall]
    exact Nat.le_refl _
  | _ => simp at ha

/-- A step raises the rank by less than it costs. -/
theorem Sound.rank_step {s t : State n} {e : Event n} (h : Sound s) (hstep : Step s e t) :
    rank t < rank s + e.cost := by
  cases hstep with
  | @poll connection ending hpoint =>
    cases connection <;> simp only [rank, hpoint, Point.rank, Event.cost, if_true] <;> simp <;> omega
  | @accept ending requests hpoint hpools =>
    have hrank := h.tasksRank_accept hpools
    have hshutdown : requests.pool.shutdown = s.requests.pool.shutdown := by
      have hstep := hpools.step
      obtain ⟨pool, phase⟩ := requests
      cases hstep
      rfl
    simp only [rank, hpoint, Point.rank, Event.cost, hshutdown]
    omega
  | acceptFails hpoint | resolveFails hpoint | close hpoint | setDoneServing hpoint
  | joinMonitor hpoint =>
    simp only [rank, hpoint, Point.rank]
    omega
  | @notify r ending woken requests hpoint hpools =>
    have hrank := h.tasksRank_pools hpools rfl s.accepted
    have hshutdown : requests.pool.shutdown = s.requests.pool.shutdown := by
      have hstep := hpools.step
      obtain ⟨pool, phase⟩ := requests
      cases hstep
      rw [ThreadPool.State.signal_eq]
    simp only [rank, hpoint, Point.rank, hshutdown, ThreadPool.Action.cost] at hrank ⊢
    omega
  | @resolve ending hpoint =>
    cases ending <;> simp only [rank, hpoint, Point.rank] <;> simp <;> omega
  | setDone hpoint hpools | notifyAll hpoint hpools | join hpoint hpools =>
    have hrank := h.tasksRank_pools hpools rfl s.accepted
    have hstage := stageRank_step hpools.step (by simp)
    simp only [rank, hpoint, Point.rank]
    omega
  | test hmonitor =>
    cases hdone : s.doneServing <;> simp only [rank, hmonitor, Monitor.rank] <;> simp <;> omega
  | tick hmonitor =>
    simp only [rank, hmonitor, Monitor.rank, Event.cost]
    omega
  | @worker a requests hworker hpools =>
    have hrank := h.tasksRank_worker hworker hpools
    have hshutdown := (hpools.of_worker hworker).2.1
    simp only [rank, hshutdown]
    omega
  | @await i requests hawait =>
    have hrank := h.tasksRank_await hawait
    have hpool := engaged_await hawait
    simp only [rank, hpool]
    omega

theorem rank_start (n : Nat) : rank (start n) = 10 * n + 5 := by
  simp only [rank, tasksRank, start, RequestPool.init, ThreadPool.rank_init, Finset.range_zero,
    Finset.sum_empty, Point.rank, Monitor.rank]
  simp only [ThreadPool.init, stageRank]
  omega

/-- Either somebody will take what is in the queue, or nobody ever will. -/
theorem open_or_jammed (hn : 1 ≤ n) {es : List (Event n)} {s : State n}
    (hrun : exec step (start n) es = some s) : Open s.requests ∨ Jammed s.requests := by
  have hinv : Sound s ∧ (Open s.requests ∨ Jammed s.requests) := by
    refine (reachable_exec hrun).invariant
      (fun s => Sound s ∧ (Open s.requests ∨ Jammed s.requests))
      ⟨sound_start, .inl fun hne => absurd rfl hne⟩ fun s e t hs _ hstep => ?_
    have hcase := step_cases hstep
    refine ⟨hs.1.step hcase, ?_⟩
    rcases hs.2 with hopen | hjammed
    · by_cases hroomy : Roomy s e
      · exact .inl (open_step hn hs.1 hopen hroomy hcase)
      · exact .inr (jammed_of_not_roomy hroomy hcase)
    · exact .inr (jammed_step hs.1 hjammed hcase)
  exact hinv.2

theorem Sound.exited {s : State n} (h : Sound s) (hreturned : s.point = .returned) (i : Fin n) :
    s.requests.pool.worker i = .exited := by
  have hstands := h.stands
  rw [hreturned] at hstands
  exact h.kept.closing.returned hstands i

theorem open_of_returned (hn : 1 ≤ n) {es : List (Event n)} {s : State n}
    (hrun : exec step (start n) es = some s) (hreturned : s.point = .returned) :
    Open s.requests := by
  refine (open_or_jammed hn hrun).resolve_right ?_
  rintro ⟨⟨i, r, hr, -⟩, -⟩
  rw [(sound_of_exec hrun).exited hreturned i] at hr
  contradiction

theorem Kept.finished_perm {s : RequestPool.State n} (h : Kept s)
    (hexited : ∀ i, s.pool.worker i = .exited) (hqueue : s.pool.taskQueue.entries = []) :
    s.pool.finished.Perm s.pool.submitted := by
  rw [List.perm_ext_iff_of_nodup h.accounted.finished h.accounted.submitted]
  intro job
  rw [h.accounted.order, hqueue, List.append_nil]
  constructor
  · intro hjob
    exact h.accounted.started_sub _ (h.accounted.finished_sub _ hjob)
  · intro hjob
    refine (h.accounted.complete _ hjob).resolve_right ?_
    rintro ⟨i, hi⟩
    rw [hexited i] at hi
    contradiction

/-- The events of a run are paid for by what comes from outside. One that can go on by chance only
stands in `poll`, has been ended by an exception, or has returned exactly if, whenever a request
submitted its transmission, another worker was vacant. What has been accepted by then has been
executed, once. -/
theorem shutdown_returns_iff (hn : 1 ≤ n) {es : List (Event n)} {s : State n}
    (hrun : exec step (start n) es = some s) :
    es.length ≤ 10 * n + 5 + (es.map Event.cost).sum ∧
      (Stuck s → s.point = .polling ∨ s.point = .terminated ∨
        (s.point = .returned ↔ Admitted step Roomy (start n) es)) ∧
      (s.point = .returned → s.listening = false ∧
        (∀ r, .processRequest r ∈ s.requests.pool.submitted ↔ r < s.accepted) ∧
        s.requests.pool.finished.Perm s.requests.pool.submitted ∧
        s.requests.pool.finished.Nodup) := by
  have hsound := sound_of_exec hrun
  refine ⟨?_, fun hstuck => ?_, fun hreturned => ?_⟩
  · rw [← rank_start]
    refine exec_length_le_cost (fun s e t hs hstep => ?_) sound_start hrun
    exact ⟨hs.step (step_cases hstep), hs.rank_step (step_cases hstep)⟩
  · rw [← open_iff_admitted hn hrun]
    rcases hstuck.point hsound with hpoint | hpoint | hpoint | hpoint
    · exact .inl hpoint
    · exact .inr (.inl hpoint)
    · refine .inr (.inr (iff_of_false (by rw [hpoint]; simp) fun hopen => ?_))
      exact hstuck.not_stopping hsound hopen hpoint
    · exact .inr (.inr (iff_of_true hpoint (open_of_returned hn hrun hpoint)))
  · have hexited := hsound.exited hreturned
    have hqueue : s.requests.pool.taskQueue.entries = [] := by
      by_contra hne
      obtain ⟨i, -, hi⟩ := open_of_returned hn hrun hreturned hne
      rw [hexited i] at hi
      contradiction
    have hlistening := hsound.listening
    rw [hreturned] at hlistening
    exact ⟨hlistening, hsound.connections, hsound.kept.finished_perm hexited hqueue,
      hsound.kept.accounted.finished⟩

def servedRun {n : Nat} (i j : Fin n) : List (Event n) :=
  [.test, .poll true false, .accept, .notify none, .resolve] ++
    [.lock i, .check i, .pop i, .sample i, .pushFrom i (.transmit 0), .notifyFrom i none].map
      Event.worker ++
    .await i :: [.lock j, .check j, .pop j, .sample j, .finish j, .finish i].map Event.worker ++
    [.tick, .poll false true, .close, .setDone, .notifyAll] ++
    [.lock i, .check i, .pop i, .sample i, .lock j, .check j, .pop j, .sample j].map Event.worker ++
    [.join, .setDoneServing, .test, .joinMonitor]

theorem shutdown_returns_served : ∃ s : State 2, exec step (start 2) (servedRun 0 1) = some s ∧
    s.point = .returned ∧ s.accepted = 1 ∧
    s.requests.pool.finished.Perm [.processRequest 0, .transmit 0] := by
  obtain ⟨s, hs, hpoint, haccepted, hsubmitted⟩ : ∃ s : State 2,
      exec step (start 2) (servedRun 0 1) = some s ∧ s.point = .returned ∧ s.accepted = 1 ∧
      s.requests.pool.submitted = [.processRequest 0, .transmit 0] :=
    ⟨_, rfl, rfl, rfl, rfl⟩
  obtain ⟨-, -, hend⟩ := shutdown_returns_iff (by decide) hs
  exact ⟨s, hs, hpoint, haccepted, hsubmitted ▸ (hend hpoint).2.2.1⟩

/-- The shutdown comes while the only request is being prepared: the other worker finds the queue
empty and leaves. -/
def hangingRun {n : Nat} (i j : Fin n) : List (Event n) :=
  [.poll true false, .accept, .notify none, .resolve] ++
    [.lock i, .check i, .pop i, .sample i].map Event.worker ++
    [.poll false true, .close, .setDone, .notifyAll] ++
    [.lock j, .check j, .pop j, .sample j, .pushFrom i (.transmit 0)].map Event.worker

example : ∃ s : State 2, exec step (start 2) (hangingRun 0 1) = some s ∧ Jammed s.requests := by
  obtain ⟨s, hs, hfirst, hsecond, hqueue⟩ : ∃ s : State 2,
      exec step (start 2) (hangingRun 0 1) = some s ∧
      (s.requests.pool.worker 0).executing = some (.processRequest 0) ∧
      (s.requests.pool.worker 1).leaving = true ∧
      s.requests.pool.taskQueue.entries = [.transmit 0] := ⟨_, rfl, rfl, rfl, rfl⟩
  have hengaged : Engaged s.requests 0 := ⟨0, hfirst, hqueue ▸ List.mem_singleton_self _⟩
  exact ⟨s, hs, ⟨0, hengaged⟩, Fin.forall_fin_two.mpr ⟨.inl hengaged, .inr hsecond⟩⟩

end Autocomp.Serving

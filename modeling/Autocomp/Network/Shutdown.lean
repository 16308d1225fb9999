import Autocomp.Lib.Consumer
import Autocomp.Network.Fidelity
import Autocomp.Network.Handover

/-!
# The shutdown of the client

`requestFile`, `shutdown` and the decompression thread with the condition that the thread sleeps on.
An entry is pushed without the client's mutex and announced afterwards, so its notification may find
nobody asleep. `shutdown` may be called at any moment; that it is called by the thread that pushes is
not used. A call that finds `doneReceiving` set returns at once and is left out.
-/

namespace Autocomp.Client.Shutdown

open Transition

/-- How far `shutdown` is: it has yet to set `doneReceiving`, it has yet to notify, it joins the
thread, or it has returned. -/
inductive Phase where
  | running
  | flagged
  | joining
  | returned
  deriving DecidableEq

/-- `decompress`: its queue is `decompressionQueue`, its flag `doneReceiving`. -/
abbrev Decompression := Consumer.State DecompressionQueueEntry Decompressor

/-- What `requestFile` has yet to push and whether it has yet to announce what it pushed last, how far
`shutdown` is, and the thread. -/
structure State where
  unsent : List DecompressionQueueEntry
  notifying : Bool
  phase : Phase
  decompression : Decompression

def State.init (entries : List DecompressionQueueEntry) (d : Decompressor) : State :=
  ⟨entries, false, .running, .init d⟩

/-- The body of the loop of `decompress`, unless an exception leaves it. -/
def process (session : Session) (d : Decompressor) (entry : DecompressionQueueEntry) :
    Option Decompressor :=
  (decompressEntry session d entry).toOption

inductive Action where
  | push
  | notifyOne
  | setDone
  | notifyAll
  | join
  | decompress
  | spurious

section

variable (session : Session)

/-- What an action does to the thread and the variables it shares. -/
def State.share (s : State) (a : Consumer.Action DecompressionQueueEntry) : Option State :=
  (Consumer.step (process session) s.decompression a).map fun c => { s with decompression := c }

def step (s : State) : Action → Option State
  | .push =>
    match s.unsent, s.notifying with
    | entry :: unsent, false =>
      { s with unsent := unsent, notifying := true }.share session (.push entry)
    | _, _ => none
  | .notifyOne =>
    if s.notifying then { s with notifying := false }.share session .notify else none
  | .setDone =>
    if s.phase = .running then { s with phase := .flagged }.share session .setDone else none
  | .notifyAll =>
    if s.phase = .flagged then { s with phase := .joining }.share session .notify else none
  | .join =>
    match s.phase, s.decompression.thread with
    | .joining, .exited => some { s with phase := .returned }
    | _, _ => none
  | .decompress => s.share session .run
  | .spurious => s.share session .spurious

end

section

variable {session : Session} {s t : State}

theorem share_ne_none {a : Consumer.Action DecompressionQueueEntry}
    (h : Consumer.step (process session) s.decompression a ≠ none) : s.share session a ≠ none := by
  obtain ⟨c, hc⟩ := Option.ne_none_iff_exists'.mp h
  rw [State.share, hc]
  exact Option.some_ne_none _

/-- Each step by what it does outside the thread and to it. -/
inductive Does (session : Session) (s : State) : Action → State → Prop
  | push {entry : DecompressionQueueEntry} {unsent : List DecompressionQueueEntry} {c : Decompression}
    (hunsent : s.unsent = entry :: unsent)
    (hc : Consumer.step (process session) s.decompression (.push entry) = some c) :
    Does session s .push { s with unsent := unsent, notifying := true, decompression := c }
  | notifyOne {c : Decompression} (h : s.notifying = true)
    (hc : Consumer.step (process session) s.decompression .notify = some c) :
    Does session s .notifyOne { s with notifying := false, decompression := c }
  | setDone {c : Decompression} (h : s.phase = .running)
    (hc : Consumer.step (process session) s.decompression .setDone = some c) :
    Does session s .setDone { s with phase := .flagged, decompression := c }
  | notifyAll {c : Decompression} (h : s.phase = .flagged)
    (hc : Consumer.step (process session) s.decompression .notify = some c) :
    Does session s .notifyAll { s with phase := .joining, decompression := c }
  | join (h : s.phase = .joining) (hexited : s.decompression.thread = .exited) :
    Does session s .join { s with phase := .returned }
  | decompress {c : Decompression}
    (hc : Consumer.step (process session) s.decompression .run = some c) :
    Does session s .decompress { s with decompression := c }
  | spurious {c : Decompression}
    (hc : Consumer.step (process session) s.decompression .spurious = some c) :
    Does session s .spurious { s with decompression := c }

theorem step_does {a : Action} (h : step session s a = some t) : Does session s a t := by
  cases a with
  | push =>
    simp only [step] at h
    split at h
    · rename_i entry unsent hunsent _
      obtain ⟨c, hc, rfl⟩ := Option.map_eq_some_iff.mp h
      exact .push hunsent hc
    · contradiction
  | notifyOne =>
    obtain ⟨hnotifying, ht⟩ := Option.ite_none_right_eq_some.mp h
    obtain ⟨c, hc, rfl⟩ := Option.map_eq_some_iff.mp ht
    exact .notifyOne hnotifying hc
  | setDone =>
    obtain ⟨hphase, ht⟩ := Option.ite_none_right_eq_some.mp h
    obtain ⟨c, hc, rfl⟩ := Option.map_eq_some_iff.mp ht
    exact .setDone hphase hc
  | notifyAll =>
    obtain ⟨hphase, ht⟩ := Option.ite_none_right_eq_some.mp h
    obtain ⟨c, hc, rfl⟩ := Option.map_eq_some_iff.mp ht
    exact .notifyAll hphase hc
  | join =>
    simp only [step] at h
    split at h
    · rename_i hphase hexited
      rw [← Option.some.inj h]
      exact .join hphase hexited
    · contradiction
  | decompress =>
    obtain ⟨c, hc, rfl⟩ := Option.map_eq_some_iff.mp h
    exact .decompress hc
  | spurious =>
    obtain ⟨c, hc, rfl⟩ := Option.map_eq_some_iff.mp h
    exact .spurious hc

theorem foldlM_process (session : Session) (d : Decompressor)
    (entries : List DecompressionQueueEntry) :
    entries.foldlM (process session) d = (decompressAll session d entries).toOption := by
  induction entries generalizing d with
  | nil => rfl
  | cons entry entries ih =>
    rw [List.foldlM_cons, decompressAll, process]
    cases decompressEntry session d entry with
    | error x => rfl
    | ok next => exact ih next

theorem decompressAll_of_foldlM {d d' : Decompressor} {entries : List DecompressionQueueEntry}
    (h : entries.foldlM (process session) d = some d') :
    decompressAll session d entries = .ok d' := by
  rw [foldlM_process] at h
  cases hall : decompressAll session d entries with
  | error x =>
    rw [hall] at h
    contradiction
  | ok next =>
    rw [hall] at h
    rw [Option.some.inj h]

/-- `shutdown` has set the flag, then notified, then seen the thread end. -/
structure Inv (session : Session) (entries : List DecompressionQueueEntry) (d₀ : Decompressor)
    (s : State) : Prop where
  sound : Consumer.Sound (process session) d₀ s.decompression
  pushed : s.decompression.pushed ++ s.unsent = entries
  running : s.phase = .running → s.decompression.done = false
  flagged : s.phase ≠ .running → s.decompression.done = true
  told : s.phase = .joining ∨ s.phase = .returned → s.decompression.told = true
  returned : s.phase = .returned → s.decompression.thread = .exited

variable {entries : List DecompressionQueueEntry} {d₀ : Decompressor}

theorem inv_init (session : Session) (entries : List DecompressionQueueEntry) (d₀ : Decompressor) :
    Inv session entries d₀ (.init entries d₀) where
  sound := Consumer.sound_init _ _
  pushed := rfl
  running _ := rfl
  flagged h := absurd rfl h
  told h := by rcases h with h | h <;> contradiction
  returned h := by contradiction

theorem Inv.shared (hs : Inv session entries d₀ s) {a : Consumer.Action DecompressionQueueEntry}
    {c : Decompression} {unsent : List DecompressionQueueEntry} {notifying : Bool}
    (hc : Consumer.step (process session) s.decompression a = some c)
    (hpushed : c.pushed ++ unsent = entries) (hdone : c.done = s.decompression.done)
    (htold : s.decompression.told = true → c.told = true)
    (hexited : s.decompression.thread = .exited → c.thread = .exited) :
    Inv session entries d₀ ⟨unsent, notifying, s.phase, c⟩ where
  sound := hs.sound.step hc
  pushed := hpushed
  running h := by rw [hdone, hs.running h]
  flagged h := by rw [hdone, hs.flagged h]
  told h := htold (hs.told h)
  returned h := hexited (hs.returned h)

theorem Inv.kept (hs : Inv session entries d₀ s) {a : Consumer.Action DecompressionQueueEntry}
    {c : Decompression} (hc : Consumer.step (process session) s.decompression a = some c)
    (hkept : Consumer.Kept s.decompression c) :
    Inv session entries d₀ { s with decompression := c } := by
  apply hs.shared hc
  · rw [hkept.pushed]
    exact hs.pushed
  · exact hkept.done
  · intro htold
    rw [hkept.told, htold]
  · intro hexited
    exact absurd hexited hkept.exited

theorem Inv.step {a : Action} (hs : Inv session entries d₀ s) (h : Does session s a t) :
    Inv session entries d₀ t := by
  cases h with
  | @push entry unsent c hunsent hc =>
    apply hs.shared hc
    · rw [← Option.some.inj hc, ← hs.pushed, hunsent, List.append_assoc]
      rfl
    · rw [← Option.some.inj hc]
    · rw [← Option.some.inj hc]
      exact id
    · rw [← Option.some.inj hc]
      exact id
  | notifyOne h hc =>
    apply hs.shared hc
    · rw [← Option.some.inj hc]
      exact hs.pushed
    · rw [← Option.some.inj hc]
    · rw [← Option.some.inj hc]
      intro htold
      rw [htold, Bool.true_or]
    · rw [← Option.some.inj hc]
      intro hexited
      rw [hexited]
      rfl
  | setDone h hc =>
    have hsound := hs.sound.step hc
    obtain ⟨-, ht⟩ := Option.ite_none_right_eq_some.mp hc
    rw [← Option.some.inj ht] at hsound ⊢
    constructor
    · exact hsound
    · exact hs.pushed
    · intro hrunning
      contradiction
    · intro _
      rfl
    · intro hphase
      rcases hphase with hphase | hphase <;> contradiction
    · intro hphase
      contradiction
  | notifyAll h hc =>
    have hsound := hs.sound.step hc
    have hdone := hs.flagged (by rw [h]; exact Phase.noConfusion)
    rw [← Option.some.inj hc] at hsound ⊢
    constructor
    · exact hsound
    · exact hs.pushed
    · intro hrunning
      contradiction
    · intro _
      exact hdone
    · intro _
      rw [hdone, Bool.or_true]
    · intro hphase
      contradiction
  | join h hexited =>
    exact ⟨hs.sound, hs.pushed, fun hrunning => by contradiction,
      fun _ => hs.flagged (by rw [h]; exact Phase.noConfusion), fun _ => hs.told (.inl h),
      fun _ => hexited⟩
  | decompress hc =>
    exact hs.kept hc (Consumer.run_kept hc)
  | spurious hc =>
    exact hs.kept hc (Consumer.spurious_kept hc)

theorem inv_reachable (h : Reachable (step session) (.init entries d₀) s) :
    Inv session entries d₀ s :=
  h.invariant (Inv session entries d₀) (inv_init session entries d₀)
    fun _ _ _ hs _ hstep => hs.step (step_does hstep)

/-- Until `shutdown` has returned, it or the thread can go on. -/
theorem Inv.progress {d : Decompressor} (hs : Inv session entries d₀ s)
    (hall : decompressAll session d₀ s.decompression.pushed = .ok d) (hmore : s.phase ≠ .returned) :
    ∃ a ∈ [Action.setDone, .notifyAll, .join, .decompress], Shutdown.step session s a ≠ none := by
  have hpushed : s.decompression.pushed.foldlM (process session) d₀ ≠ none := by
    rw [foldlM_process, hall]
    exact Option.some_ne_none _
  cases hphase : s.phase with
  | running =>
    cases hlocks : s.decompression.thread.locks with
    | false =>
      refine ⟨.setDone, by simp, ?_⟩
      rw [Shutdown.step, if_pos hphase]
      apply share_ne_none
      simp [Consumer.step, hs.running hphase, hlocks]
    | true =>
      refine ⟨.decompress, by simp, ?_⟩
      apply share_ne_none
      exact Consumer.run_ne_none_of_locks hlocks
  | flagged =>
    refine ⟨.notifyAll, by simp, ?_⟩
    rw [Shutdown.step, if_pos hphase]
    apply share_ne_none
    exact Option.some_ne_none _
  | joining =>
    by_cases hexited : s.decompression.thread = .exited
    · refine ⟨.join, by simp, ?_⟩
      simp [Shutdown.step, hphase, hexited]
    · refine ⟨.decompress, by simp, ?_⟩
      apply share_ne_none
      exact hs.sound.progress (hs.told (.inl hphase)) hexited
        fun _ _ => hs.sound.processable hpushed
  | returned => exact absurd hphase hmore

/-- The steps that can follow the notification: every entry may wake up the thread once more. -/
def State.measure (s : State) : Nat :=
  18 * s.unsent.length + s.notifying.toNat + s.decompression.measure +
    (if s.phase = .joining then 1 else 0)

def State.Told (s : State) : Prop := s.phase = .joining ∨ s.phase = .returned

theorem Inv.measure {a : Action} (hs : Inv session entries d₀ s) (htold : s.Told)
    (h : Does session s a t) :
    t.Told ∧ t.measure < s.measure := by
  have hconsumer := hs.told htold
  cases h with
  | @push entry unsent c hunsent hc =>
    have hle := Consumer.push_measure s.decompression entry
    rw [← Option.some.inj hc]
    refine ⟨htold, ?_⟩
    simp only [State.measure, hunsent, List.length_cons, Bool.toNat_true]
    omega
  | notifyOne h hc =>
    have hle := Consumer.notify_measure s.decompression
    rw [← Option.some.inj hc]
    refine ⟨htold, ?_⟩
    simp only [State.measure, h, Bool.toNat_true, Bool.toNat_false]
    omega
  | setDone h | notifyAll h =>
    rcases htold with hphase | hphase <;> rw [h] at hphase <;> contradiction
  | join h =>
    refine ⟨.inr rfl, ?_⟩
    simp [State.measure, h]
  | decompress hc =>
    have hlt := hs.sound.run_measure hconsumer hc
    refine ⟨htold, ?_⟩
    simp only [State.measure]
    omega
  | spurious hc => exact absurd (Consumer.step_spurious hc).1 (hs.sound.told hconsumer).2

/-- Once `shutdown` has notified, no run goes on for longer than the measure. -/
theorem Inv.bounded (hs : Inv session entries d₀ s) (htold : s.Told) {as : List Action}
    (h : exec (Shutdown.step session) s as = some t) : as.length ≤ s.measure := by
  have hlower (s : State) (a : Action) (t : State) (hinv : Inv session entries d₀ s ∧ s.Told)
      (hstep : Shutdown.step session s a = some t) :
      (Inv session entries d₀ t ∧ t.Told) ∧ t.measure < s.measure := by
    have hdoes := step_does hstep
    obtain ⟨htold, hlt⟩ := hinv.1.measure hinv.2 hdoes
    exact ⟨⟨hinv.1.step hdoes, htold⟩, hlt⟩
  exact exec_length_le_of hlower ⟨hs, htold⟩ h

/-- When `shutdown` returns, the thread has ended and has processed a prefix of what was pushed that
holds all that was pushed before `doneReceiving` was set. After the notification the thread is not
asleep, nor about to be, and does not go on forever. If no exception leaves the thread, something can
be done until the return. -/
theorem shutdown_drains (h : Reachable (Shutdown.step session) (.init entries d₀) s) :
    s.decompression.pushed ++ s.unsent = entries ∧
    (s.phase = .returned → s.decompression.thread = .exited ∧
      s.decompression.pushedBefore <+: s.decompression.processed ∧
      s.decompression.processed ++ s.decompression.queue = s.decompression.pushed ∧
      decompressAll session d₀ s.decompression.processed = .ok s.decompression.target) ∧
    (s.Told → s.decompression.thread ≠ .blocked ∧ s.decompression.thread ≠ .parking ∧
      ∀ as t, exec (Shutdown.step session) s as = some t → as.length ≤ s.measure) ∧
    ∀ d, decompressAll session d₀ s.decompression.pushed = .ok d → s.phase ≠ .returned →
      ∃ a ∈ [Action.setDone, .notifyAll, .join, .decompress], Shutdown.step session s a ≠ none := by
  have hs := inv_reachable h
  refine ⟨hs.pushed, fun hreturned => ?_, fun htold => ?_, fun d => hs.progress⟩
  · have hexited := hs.returned hreturned
    have hprocessed := hs.sound.exited hexited
    exact ⟨hexited, hprocessed.1, hprocessed.2, decompressAll_of_foldlM hs.sound.target⟩
  · have hconsumer := hs.told htold
    refine ⟨(hs.sound.told hconsumer).2, fun hparking => ?_, fun as t => hs.bounded htold⟩
    have hundone := hs.sound.parking hparking
    rw [(hs.sound.told hconsumer).1] at hundone
    contradiction

def sampleEntries : List DecompressionQueueEntry :=
  [⟨⟨some (ascii "a"), some 0, some 64, some true⟩, Message.empty, .empty⟩]

/-- The entry and its notification come while the thread is about to sleep. -/
def lostNotification : List Action :=
  [.decompress, .decompress, .push, .notifyOne, .decompress, .setDone, .notifyAll, .decompress,
    .decompress, .decompress, .decompress, .decompress, .join]

theorem shutdown_drains_lost : ∃ s : State, s.phase = .returned ∧
    s.decompression.pushedBefore = sampleEntries ∧
    s.decompression.pushedBefore <+: s.decompression.processed ∧
    ∃ d, decompressAll sampleSession (.start fun _ => none) s.decompression.processed = .ok d := by
  obtain ⟨s, hs, hreturned, hbefore⟩ : ∃ s, exec (Shutdown.step sampleSession)
      (.init sampleEntries (.start fun _ => none)) lostNotification = some s ∧
      s.phase = .returned ∧ s.decompression.pushedBefore = sampleEntries := ⟨_, rfl, rfl, rfl⟩
  obtain ⟨-, hjoined, -⟩ := shutdown_drains (reachable_exec hs)
  obtain ⟨-, hfirst, -, hall⟩ := hjoined hreturned
  exact ⟨s, hreturned, hbefore, hfirst, _, hall⟩

/-- The stretches up to the moment the thread stops waiting are one. -/
def decompressing : Consumer.Stretch DecompressionQueueEntry → Decompressing
  | .locking | .checking | .parking | .blocked | .woken => .waiting
  | .popping => .awake
  | .testing entry => .popped entry
  | .working entry done => .working entry done
  | .exited => .exited

def State.threads (s : State) : Threads :=
  ⟨s.unsent, ⟨s.decompression.queue⟩, s.decompression.done, decompressing s.decompression.thread,
    s.decompression.target, s.phase = .returned⟩

/-- `shutdown` is called when everything has been pushed. -/
def OnceReceived (s : State) (a : Action) : Prop := a = .setDone → s.unsent = []

theorem decompressing_next (last : Bool) : decompressing (.next last) =
    if last then .exited else .waiting := by
  cases last <;> rfl

theorem decompressing_notified (thread : Consumer.Stretch DecompressionQueueEntry) :
    decompressing thread.notified = decompressing thread := by
  cases thread <;> rfl

theorem unlocked_of_not_locks (h : s.decompression.thread.locks = false) :
    s.threads.unlocked = true := by
  unfold Threads.unlocked State.threads
  cases hthread : s.decompression.thread with
  | checking | parking | popping | testing =>
    rw [hthread] at h
    contradiction
  | locking | blocked | woken | working | exited => rfl

theorem decompress_threads {c : Decompression}
    (hc : Consumer.run (process session) s.decompression = some c) :
    { s with decompression := c }.threads = s.threads ∨
      ∃ a, Client.step session s.threads a = some { s with decompression := c }.threads := by
  rcases Consumer.run_cases hc with ⟨thread, hmoves, rfl⟩ | ⟨hpopping, rfl⟩ |
    ⟨entry, last, d, hworking, hd, rfl⟩
  · cases hmoves with
    | lock h =>
      left
      rcases h with h | h <;> simp [State.threads, decompressing, h]
    | park h | block h =>
      left
      simp [State.threads, decompressing, h]
    | awake h hready =>
      right
      refine ⟨.wake, ?_⟩
      have hpredicate : (!s.threads.decompressionQueue.isEmpty || s.threads.doneReceiving) = true := by
        simpa [State.threads, SynchronousQueue.isEmpty] using hready
      simp only [Client.step, hpredicate, if_true]
      simp [State.threads, decompressing, h]
    | test h =>
      right
      refine ⟨.check, ?_⟩
      simp [Client.step, State.threads, decompressing, h, SynchronousQueue.isEmpty]
    | skip h =>
      right
      refine ⟨.process, ?_⟩
      simp only [Client.step, State.threads, h, decompressing_next]
      rfl
  · right
    refine ⟨.pop, ?_⟩
    simp [Client.step, State.threads, decompressing, hpopping, SynchronousQueue.pop]
  · right
    refine ⟨.process, ?_⟩
    have hentry : decompressEntry session s.decompression.target entry = .ok d := by
      cases hgo : decompressEntry session s.decompression.target entry with
      | error x => simp [process, hgo, Except.toOption] at hd
      | ok d' =>
        simp only [process, hgo, Except.toOption, Option.some.injEq] at hd
        rw [hd]
    simp only [Client.step, State.threads, hworking, decompressing_next]
    simp only [decompressing, hentry]

/-- The threads with the condition do what those without it can do. -/
theorem refines (h : Runs (Shutdown.step session) OnceReceived (.init entries d₀) s) :
    Reachable (Client.step session) (.init entries d₀) s.threads := by
  induction h with
  | start => exact .start
  | @next s a t hrun hok hstep ih =>
    cases step_does hstep with
    | @push entry unsent c hunsent hc =>
      rw [← Option.some.inj hc]
      apply ih.next (a := .push) trivial
      simp only [Client.step, State.threads, hunsent]
      rfl
    | notifyOne h hc =>
      rw [← Option.some.inj hc]
      simpa only [State.threads, decompressing_notified] using ih
    | setDone h hc =>
      obtain ⟨hguard, ht⟩ := Option.ite_none_right_eq_some.mp hc
      rw [← Option.some.inj ht]
      apply ih.next (a := .shutdown) trivial
      have hready : s.threads.unsent = [] ∧ s.threads.doneReceiving = false ∧
          s.threads.unlocked = true := ⟨hok rfl, hguard.1, unlocked_of_not_locks hguard.2⟩
      rw [Client.step, if_pos hready]
      simp [State.threads, h]
    | notifyAll h hc =>
      rw [← Option.some.inj hc]
      simpa [State.threads, decompressing_notified, h] using ih
    | join h hexited =>
      have hdone := (inv_reachable (hrun.mono fun _ _ _ => trivial)).flagged
        (by rw [h]; exact Phase.noConfusion)
      apply ih.next (a := .join) trivial
      simp [Client.step, State.threads, hexited, decompressing, hdone]
    | decompress hc =>
      rcases decompress_threads hc with hsame | ⟨a, ha⟩
      · rw [hsame]
        exact ih
      · exact ih.next trivial ha
    | spurious hc =>
      obtain ⟨hblocked, hc'⟩ := Consumer.step_spurious hc
      rw [hc']
      simpa [State.threads, hblocked, decompressing] using ih

end

end Autocomp.Client.Shutdown

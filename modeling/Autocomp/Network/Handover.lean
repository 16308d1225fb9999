import Autocomp.Network.Decompression

/-!
# The two threads of the client

`requestFile` pushes entries into the queue while `decompress` pops them in a thread of its own. The
queue has its own mutex; `doneReceiving` is set under the client's, which `decompress` holds from
the check of its predicate to its second look at the queue.
-/

namespace Autocomp.Client

open Transition

inductive Decompressing where
  | waiting
  | awake
  | popped (entry : Option DecompressionQueueEntry)
  | working (entry : Option DecompressionQueueEntry) (done : Bool)
  | exited

/-- Both threads: what `requestFile` has yet to push and whether it has returned, what they share,
and the variables of `decompress`. -/
structure Threads where
  unsent : List DecompressionQueueEntry
  decompressionQueue : SynchronousQueue DecompressionQueueEntry
  doneReceiving : Bool
  decompressing : Decompressing
  decompressor : Decompressor
  returned : Bool

namespace Threads

def init (entries : List DecompressionQueueEntry) (d : Decompressor) : Threads :=
  ⟨entries, .empty, false, .waiting, d, false⟩

/-- The client's mutex is free. -/
def unlocked (s : Threads) : Bool :=
  match s.decompressing with
  | .waiting | .working _ _ | .exited => true
  | .awake | .popped _ => false

/-- The entry that has been popped and not processed. -/
def inHand (s : Threads) : List DecompressionQueueEntry :=
  match s.decompressing with
  | .popped entry | .working entry _ => entry.toList
  | .waiting | .awake | .exited => []

end Threads

inductive Action where
  | push
  | shutdown
  | wake
  | pop
  | check
  | process
  | join

/-- One step of either thread. An exception that leaves `decompress` ends the client. -/
def step (session : Session) (s : Threads) : Action → Option Threads
  | .push =>
    match s.unsent with
    | [] => none
    | entry :: unsent =>
      some { s with unsent := unsent, decompressionQueue := s.decompressionQueue.push entry }
  | .shutdown =>
    if s.unsent = [] ∧ s.doneReceiving = false ∧ s.unlocked then some { s with doneReceiving := true }
    else none
  | .wake =>
    match s.decompressing with
    | .waiting =>
      if !s.decompressionQueue.isEmpty || s.doneReceiving then some { s with decompressing := .awake }
      else none
    | _ => none
  | .pop =>
    match s.decompressing with
    | .awake =>
      let (entry, decompressionQueue) := s.decompressionQueue.pop
      some { s with decompressionQueue, decompressing := .popped entry }
    | _ => none
  | .check =>
    match s.decompressing with
    | .popped entry =>
      let done := s.decompressionQueue.isEmpty && s.doneReceiving
      some { s with decompressing := .working entry done }
    | _ => none
  | .process =>
    match s.decompressing with
    | .working none done => some { s with decompressing := if done then .exited else .waiting }
    | .working (some entry) done =>
      match decompressEntry session s.decompressor entry with
      | .error _ => none
      | .ok decompressor =>
        some { s with decompressor, decompressing := if done then .exited else .waiting }
    | _ => none
  | .join =>
    match s.decompressing with
    | .exited => if s.doneReceiving then some { s with returned := true } else none
    | _ => none

def Decompressing.isLast : Decompressing → Bool
  | .working _ done => done
  | .exited => true
  | .waiting | .awake | .popped _ => false

/-- What was processed, what is in hand, what is queued and what is to be pushed make up the entries,
in order; the thread sees the last entry only when nothing follows it. -/
structure HandedOver (session : Session) (entries : List DecompressionQueueEntry)
    (d₀ : Decompressor) (s : Threads) : Prop where
  order : ∃ processed, decompressAll session d₀ processed = .ok s.decompressor ∧
    processed ++ s.inHand ++ s.decompressionQueue.entries ++ s.unsent = entries
  done : s.doneReceiving = true → s.unsent = []
  last : s.decompressing.isLast = true → s.decompressionQueue.entries = [] ∧ s.unsent = []
  returned : s.returned = true → s.decompressing = .exited

section

variable {session : Session} {entries : List DecompressionQueueEntry} {d₀ : Decompressor}
  {s s' : Threads}

theorem handedOver_init : HandedOver session entries d₀ (.init entries d₀) where
  order := ⟨[], rfl, by simp [Threads.init, Threads.inHand, SynchronousQueue.empty]⟩
  done h := by simp [Threads.init] at h
  last h := by simp [Threads.init, Decompressing.isLast] at h
  returned h := by simp [Threads.init] at h

theorem HandedOver.running (h : HandedOver session entries d₀ s) (hpc : s.decompressing ≠ .exited) :
    s.returned = false := by
  cases hreturned : s.returned
  · rfl
  · exact absurd (h.returned hreturned) hpc

theorem HandedOver.move {queue : SynchronousQueue DecompressionQueueEntry}
    {decompressing : Decompressing} (h : HandedOver session entries d₀ s)
    (hpc : s.decompressing ≠ .exited)
    (hhand : Threads.inHand { s with decompressing } ++ queue.entries =
      s.inHand ++ s.decompressionQueue.entries)
    (hlast : decompressing.isLast = true → queue.entries = [] ∧ s.unsent = []) :
    HandedOver session entries d₀ { s with decompressionQueue := queue, decompressing } := by
  obtain ⟨processed, hgo, horder⟩ := h.order
  have hrunning := h.running hpc
  refine ⟨⟨processed, hgo, ?_⟩, h.done, hlast, fun hreturned => ?_⟩
  · change processed ++ Threads.inHand { s with decompressing } ++ queue.entries ++ s.unsent = entries
    rw [List.append_assoc processed, hhand, ← List.append_assoc, horder]
  · change s.returned = true at hreturned
    rw [hrunning] at hreturned
    contradiction

theorem HandedOver.processed {entry : DecompressionQueueEntry} {done : Bool} {d : Decompressor}
    (h : HandedOver session entries d₀ s) (hpc : s.decompressing = .working (some entry) done)
    (hentry : decompressEntry session s.decompressor entry = .ok d) :
    HandedOver session entries d₀
      { s with decompressor := d, decompressing := .working none done } := by
  obtain ⟨processed, hgo, horder⟩ := h.order
  have hrunning := h.running (by rw [hpc]; exact Decompressing.noConfusion)
  refine ⟨⟨processed ++ [entry], ?_, ?_⟩, h.done, fun hlast => h.last ?_, fun hreturned => ?_⟩
  · rw [decompressAll_append hgo, decompressAll_cons hentry]
    rfl
  · simpa [Threads.inHand, hpc] using horder
  · rw [hpc]
    exact hlast
  · change s.returned = true at hreturned
    rw [hrunning] at hreturned
    contradiction

theorem HandedOver.next {done : Bool} (h : HandedOver session entries d₀ s)
    (hpc : s.decompressing = .working none done) :
    HandedOver session entries d₀
      { s with decompressing := if done then .exited else .waiting } := by
  apply h.move (by rw [hpc]; exact Decompressing.noConfusion)
  · rw [Threads.inHand, Threads.inHand, hpc]
    cases done <;> rfl
  · intro hlast
    apply h.last
    rw [hpc]
    cases done with
    | false => exact hlast
    | true => rfl

theorem HandedOver.step {a : Action} (h : HandedOver session entries d₀ s)
    (hstep : Client.step session s a = some s') : HandedOver session entries d₀ s' := by
  obtain ⟨processed, hgo, horder⟩ := h.order
  cases a with
  | push =>
    simp only [Client.step] at hstep
    split at hstep
    · contradiction
    · rename_i entry unsent hunsent
      rw [Option.some.injEq] at hstep
      subst hstep
      rw [hunsent] at horder
      have hmore : s.unsent ≠ [] := by simp [hunsent]
      exact ⟨⟨processed, hgo, by simpa [Threads.inHand] using horder⟩,
        fun hdone => absurd (h.done hdone) hmore, fun hlast => absurd (h.last hlast).2 hmore,
        h.returned⟩
  | shutdown =>
    simp only [Client.step] at hstep
    split at hstep
    · rename_i hguard
      rw [Option.some.injEq] at hstep
      subst hstep
      exact ⟨⟨processed, hgo, horder⟩, fun _ => hguard.1, h.last, h.returned⟩
    · contradiction
  | wake =>
    cases hpc : s.decompressing <;> simp only [Client.step, hpc, reduceCtorEq] at hstep
    split at hstep
    · rw [Option.some.injEq] at hstep
      subst hstep
      apply h.move (by rw [hpc]; exact Decompressing.noConfusion)
      · simp [Threads.inHand, hpc]
      · intro hlast
        contradiction
    · contradiction
  | pop =>
    cases hpc : s.decompressing <;>
      simp only [Client.step, hpc, reduceCtorEq, Option.some.injEq] at hstep
    subst hstep
    apply h.move (by rw [hpc]; exact Decompressing.noConfusion)
    · cases hqueue : s.decompressionQueue.entries <;> simp [Threads.inHand, hpc, hqueue]
    · intro hlast
      contradiction
  | check =>
    cases hpc : s.decompressing <;>
      simp only [Client.step, hpc, reduceCtorEq, Option.some.injEq] at hstep
    subst hstep
    apply h.move (by rw [hpc]; exact Decompressing.noConfusion)
    · simp [Threads.inHand, hpc]
    · intro hlast
      simp only [Decompressing.isLast, Bool.and_eq_true, SynchronousQueue.isEmpty_iff] at hlast
      exact ⟨hlast.1, h.done hlast.2⟩
  | process =>
    cases hpc : s.decompressing with
    | waiting | awake | popped | exited => simp [Client.step, hpc] at hstep
    | working entry done =>
      cases entry with
      | none =>
        simp only [Client.step, hpc, Option.some.injEq] at hstep
        subst hstep
        exact h.next hpc
      | some entry =>
        simp only [Client.step, hpc] at hstep
        split at hstep
        · contradiction
        · rename_i d hentry
          rw [Option.some.injEq] at hstep
          subst hstep
          exact (h.processed hpc hentry).next rfl
  | join =>
    cases hpc : s.decompressing <;> simp only [Client.step, hpc, reduceCtorEq] at hstep
    split at hstep
    · rw [Option.some.injEq] at hstep
      subst hstep
      exact ⟨⟨processed, hgo, by simpa [Threads.inHand, hpc] using horder⟩, h.done,
        fun _ => h.last (by rw [hpc]; rfl), fun _ => rfl⟩
    · contradiction

/-- When `requestFile` has returned, every entry has been processed, in order. -/
theorem handed_over (h : Reachable (Client.step session) (.init entries d₀) s)
    (hreturned : s.returned = true) : decompressAll session d₀ entries = .ok s.decompressor := by
  have hall := h.invariant (HandedOver session entries d₀) handedOver_init
    fun _ _ _ hs _ hstep => hs.step hstep
  have hexited := hall.returned hreturned
  obtain ⟨processed, hgo, horder⟩ := hall.order
  obtain ⟨hqueue, hunsent⟩ := hall.last (by rw [hexited]; rfl)
  have hall : processed = entries := by
    simpa [Threads.inHand, hexited, hqueue, hunsent] using horder
  rw [← hall]
  exact hgo

theorem reachable_turns {d : Decompressor} {rest : List DecompressionQueueEntry}
    (h : decompressAll session d₀ entries = .ok d)
    (hs : Reachable (Client.step session) s ⟨entries ++ rest, .empty, false, .waiting, d₀, false⟩) :
    Reachable (Client.step session) s ⟨rest, .empty, false, .waiting, d, false⟩ := by
  induction entries generalizing d₀ with
  | nil =>
    rw [decompressAll, Except.ok.injEq] at h
    rwa [← h]
  | cons entry entries ih =>
    rw [decompressAll] at h
    split at h
    · contradiction
    · rename_i next hnext
      apply ih h
      apply hs.exec [.push, .wake, .pop, .check, .process] _ fun _ _ _ => trivial
      simp [Transition.exec, Client.step, SynchronousQueue.empty, SynchronousQueue.push,
        SynchronousQueue.pop, SynchronousQueue.isEmpty, hnext]

theorem exists_handed_over {d : Decompressor} (h : decompressAll session d₀ entries = .ok d) :
    ∃ s, Reachable (Client.step session) (.init entries d₀) s ∧ s.returned = true ∧
      s.decompressor = d := by
  refine ⟨⟨[], .empty, true, .exited, d, true⟩, ?_, rfl, rfl⟩
  have hstart : Reachable (Client.step session) (.init entries d₀)
      ⟨entries ++ [], .empty, false, .waiting, d₀, false⟩ := by
    rw [List.append_nil]
    exact .start
  apply (reachable_turns h hstart).exec [.shutdown, .wake, .pop, .check, .process, .join] _
    fun _ _ _ => trivial
  simp [Transition.exec, Client.step, SynchronousQueue.empty, SynchronousQueue.pop,
    SynchronousQueue.isEmpty, Threads.unlocked]

end

end Autocomp.Client

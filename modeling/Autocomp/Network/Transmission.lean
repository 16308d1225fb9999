import Autocomp.Network.ImageLoop
import Autocomp.Network.TcpSocket

/-!
# The transmission of a request

`Server::processRequest` pushes its messages while `Server::transmit`, a task of the same pool, pops
them and sends them. The queue has a mutex of its own; the other mutex guards `requestDone` and the
test that precedes the wait on the condition. The network takes bytes from the socket's send buffer
at any time.
-/

namespace Autocomp.Server

open ByteMemory FileStream Transition

/-- What `processRequest` does that the other task can see. -/
inductive Instruction where
  | push (message : ByteString)
  | notify
  | setDone
  | wait

/-- A push and the notification after it, which the header of a chunk leaves to the chunk. -/
def pushing (sent : Sent) : List Instruction :=
  match sent.meaning with
  | .header _ => [.push sent.buffer.contents]
  | _ => [.push sent.buffer.contents, .notify]

def ending : List Instruction := [.setDone, .notify, .wait]

/-- The instructions from the first push on. -/
def Served.instructions (served : Served) : List Instruction :=
  served.transmissionQueue.entries.flatMap pushing ++ if served.transmitting then ending else []

/-- A stretch of `transmit` between two steps that the other task or the network can see. -/
inductive Transmit where
  | unsubmitted
  | submitted
  | locking
  | checking
  | parking
  | blocked
  | woken
  | popping
  | testing (dequeued : Option ByteString)
  | timing (message : ByteString) (done : Bool)
  | measuring (message : ByteString) (done : Bool)
  | sending (currentBytesInBuffer : Option Nat) (size : Nat) (unsent : List (List Byte))
      (done : Bool)
  | rebasing (done : Bool)
  | finished
  deriving DecidableEq

namespace Transmit

/-- The stretches inside the critical section. -/
def locks : Transmit → Bool
  | checking | parking | popping | testing _ => true
  | _ => false

def notified : Transmit → Transmit
  | blocked => woken
  | t => t

def next (done : Bool) : Transmit := if done then finished else locking

end Transmit

/-- One recomputation of the bandwidth: the two counters it subtracts, and what happened: the bytes
that left since `baseTime` was set, those that had left between the last reading of the send buffer
and that, and, since the reading, the bytes counted and the messages sent. -/
structure Recomputation where
  bytesSent : Nat
  currentBytesInBuffer : Nat
  left : Nat
  leftUnseen : Nat
  counted : Nat
  messages : Nat

/-- The two tasks and the socket: every byte written to it and how many of them have left. The last
five fields record how many had left when the send buffer was last read and when `baseTime` was set,
what has been counted and sent since the reading, and the recomputations. -/
structure Transmission where
  request : List Instruction
  transmissionQueue : SynchronousQueue ByteString
  requestDone : Bool
  transmit : Transmit
  bytesSent : Nat
  written : List Byte
  left : Nat
  leftAtReading : Nat
  leftAtBase : Nat
  counted : Nat
  messages : Nat
  recomputations : List Recomputation

namespace Transmission

def init (instructions : List Instruction) (transmit : Transmit) : Transmission where
  request := instructions
  transmissionQueue := .empty
  requestDone := false
  transmit := transmit
  bytesSent := 0
  written := []
  left := 0
  leftAtReading := 0
  leftAtBase := 0
  counted := 0
  messages := 0
  recomputations := []

/-- SIOCOUTQ. -/
def outQueue (s : Transmission) : Nat := s.written.length - s.left

/-- What `send` has returned is added to `bytesSent`, or to the length read before it. -/
def finishSend (s : Transmission) (size : Nat) (done : Bool) : Option Nat → Transmission
  | none => { s with
      bytesSent := (s.bytesSent + size) % 2 ^ 64
      counted := s.counted + size
      messages := s.messages + 1
      transmit := .next done }
  | some currentBytesInBuffer => { s with
      bytesSent := (currentBytesInBuffer + size) % 2 ^ 64
      counted := currentBytesInBuffer + size
      messages := s.messages + 1
      transmit := .rebasing done }

end Transmission

/-- A step of `processRequest`, a step of `transmit` that has no choice, the outcome of its test of
the clock, a `write` of its `send`, a spurious wake-up, or bytes that leave. -/
inductive Event where
  | request
  | transmit
  | clock (elapsed : Bool)
  | write (bytesSent : Nat)
  | spurious
  | drain (bytes : Nat)

namespace Transmission

def requestStep (s : Transmission) : Option Transmission :=
  match s.request with
  | [] => none
  | .push message :: rest => some { s with
      request := rest, transmissionQueue := s.transmissionQueue.push message }
  | .notify :: rest => some { s with request := rest, transmit := s.transmit.notified }
  | .setDone :: rest =>
    if s.transmit.locks then none else some { s with request := rest, requestDone := true }
  | .wait :: rest =>
    if s.transmit = .finished then some { s with request := rest } else none

def transmitStep (s : Transmission) : Option Transmission :=
  match s.transmit with
  | .submitted => some { s with
      transmit := .locking, leftAtReading := s.left, leftAtBase := s.left }
  | .locking | .woken => some { s with transmit := .checking }
  | .checking => some { s with
      transmit := if !s.transmissionQueue.isEmpty || s.requestDone then .popping else .parking }
  | .parking => some { s with transmit := .blocked }
  | .popping => some { s with
      transmit := .testing s.transmissionQueue.pop.1
      transmissionQueue := s.transmissionQueue.pop.2 }
  | .testing dequeued =>
    let done := s.transmissionQueue.isEmpty && s.requestDone
    match dequeued with
    | none => some { s with transmit := .next done }
    | some message => some { s with transmit := .timing message done }
  | .measuring message done =>
    let currentBytesInBuffer := s.outQueue
    some { s with
      transmit := .sending (some currentBytesInBuffer) message.length (TCPSocket.sendCalls message)
        done
      leftAtReading := s.left
      messages := 0
      recomputations := s.recomputations ++ [⟨s.bytesSent, currentBytesInBuffer,
        s.left - s.leftAtBase, s.leftAtBase - s.leftAtReading, s.counted, s.messages⟩] }
  | .rebasing done => some { s with transmit := .next done, leftAtBase := s.left }
  | .unsubmitted | .blocked | .timing .. | .sending .. | .finished => none

/-- The bytes in the send buffer fit in the `int` that SIOCOUTQ stores their number in. -/
def step (s : Transmission) : Event → Option Transmission
  | .request => s.requestStep
  | .transmit => s.transmitStep
  | .clock elapsed =>
    match s.transmit with
    | .timing message done => some { s with
        transmit := if elapsed then .measuring message done
          else .sending none message.length (TCPSocket.sendCalls message) done }
    | _ => none
  | .write bytesSent =>
    match s.transmit with
    | .sending currentBytesInBuffer size unsent done =>
      match TCPSocket.writeCall unsent bytesSent with
      | none => none
      | some (bytes, unsent) =>
        if 2 ^ 31 ≤ s.outQueue + bytes.length then none
        else
          let s := { s with
            written := s.written ++ bytes
            transmit := .sending currentBytesInBuffer size unsent done }
          some (if unsent = [] then s.finishSend size done currentBytesInBuffer else s)
    | _ => none
  | .spurious => if s.transmit = .blocked then some { s with transmit := .woken } else none
  | .drain bytes =>
    if 0 < bytes ∧ s.left + bytes ≤ s.written.length then some { s with left := s.left + bytes }
    else none

end Transmission

def pushes : List Instruction → List ByteString
  | [] => []
  | .push message :: rest => message :: pushes rest
  | _ :: rest => pushes rest

/-- The bytes of the message popped that are still to be written. -/
def Transmit.inHand : Transmit → List Byte
  | testing (some message) | timing message _ | measuring message _ => TCPSocket.frame message
  | sending _ _ unsent _ => unsent.flatten
  | _ => []

namespace Transmission

/-- What has been written, what is in hand, what is queued and what will be pushed. -/
def stream (s : Transmission) : List Byte :=
  s.written ++ (s.transmit.inHand ++
    ((s.transmissionQueue.entries ++ pushes s.request).flatMap TCPSocket.frame))

def taken (s : Transmission) : List Byte := s.written ++ s.transmit.inHand

/-- The messages that are queued or will be pushed. -/
def pending (s : Transmission) : List ByteString := s.transmissionQueue.entries ++ pushes s.request

theorem stream_eq (s : Transmission) : s.stream = s.taken ++ s.pending.flatMap TCPSocket.frame :=
  (List.append_assoc ..).symm

theorem next_inHand (done : Bool) : (Transmit.next done).inHand = [] := by
  cases done <;> rfl

theorem notified_inHand (t : Transmit) : t.notified.inHand = t.inHand := by
  cases t <;> rfl

theorem requestStep_cases {s t : Transmission} (h : s.requestStep = some t) :
    (∃ message rest, s.request = .push message :: rest ∧ t = { s with
      request := rest, transmissionQueue := s.transmissionQueue.push message }) ∨
    (∃ rest, s.request = .notify :: rest ∧
      t = { s with request := rest, transmit := s.transmit.notified }) ∨
    (∃ rest, s.request = .setDone :: rest ∧ s.transmit.locks = false ∧
      t = { s with request := rest, requestDone := true }) ∨
    ∃ rest, s.request = .wait :: rest ∧ s.transmit = .finished ∧
      t = { s with request := rest } := by
  unfold requestStep at h
  split at h
  · contradiction
  · rename_i message rest hrequest
    exact .inl ⟨message, rest, hrequest, (Option.some.inj h).symm⟩
  · rename_i rest hrequest
    exact .inr (.inl ⟨rest, hrequest, (Option.some.inj h).symm⟩)
  · rename_i rest hrequest
    split at h
    · contradiction
    · rename_i hfree
      exact .inr (.inr (.inl
        ⟨rest, hrequest, Bool.not_eq_true _ ▸ hfree, (Option.some.inj h).symm⟩))
  · rename_i rest hrequest
    split at h
    · rename_i hfinished
      exact .inr (.inr (.inr ⟨rest, hrequest, hfinished, (Option.some.inj h).symm⟩))
    · contradiction

theorem requestStep_pending {s t : Transmission} (h : s.requestStep = some t) :
    t.taken = s.taken ∧ t.pending = s.pending := by
  rcases requestStep_cases h with ⟨message, rest, hrequest, rfl⟩ | ⟨rest, hrequest, rfl⟩ |
      ⟨rest, hrequest, -, rfl⟩ | ⟨rest, hrequest, -, rfl⟩
  · exact ⟨rfl, by simp [pending, hrequest, pushes]⟩
  · exact ⟨by simp [taken, notified_inHand], by simp [pending, hrequest, pushes]⟩
  · exact ⟨rfl, by simp [pending, hrequest, pushes]⟩
  · exact ⟨rfl, by simp [pending, hrequest, pushes]⟩

theorem transmitStep_pending {s t : Transmission} (h : s.transmitStep = some t) :
    ∃ popped, t.taken = s.taken ++ popped.flatMap TCPSocket.frame ∧
      popped ++ t.pending = s.pending := by
  unfold transmitStep at h
  cases htransmit : s.transmit <;> rw [htransmit] at h <;> simp only [reduceCtorEq] at h
  case submitted | locking | woken | parking =>
    rw [Option.some.injEq] at h
    rw [← h]
    exact ⟨[], by simp [taken, htransmit, Transmit.inHand], rfl⟩
  case checking =>
    rw [Option.some.injEq] at h
    rw [← h]
    refine ⟨[], ?_, rfl⟩
    simp only [taken, htransmit]
    split <;> simp [Transmit.inHand]
  case popping =>
    rw [Option.some.injEq] at h
    rw [← h]
    use s.transmissionQueue.entries.head?.toList
    simp only [taken, pending, htransmit, SynchronousQueue.pop_fst, SynchronousQueue.entries_pop]
    cases s.transmissionQueue.entries <;> simp [Transmit.inHand]
  case testing dequeued =>
    cases dequeued with
    | none =>
      rw [Option.some.injEq] at h
      rw [← h]
      refine ⟨[], ?_, rfl⟩
      simp only [taken, htransmit, next_inHand]
      simp [Transmit.inHand]
    | some message =>
      rw [Option.some.injEq] at h
      rw [← h]
      exact ⟨[], by simp [taken, htransmit, Transmit.inHand], rfl⟩
  case measuring message done =>
    rw [Option.some.injEq] at h
    rw [← h]
    exact ⟨[], by simp [taken, htransmit, Transmit.inHand, TCPSocket.sendCalls_flatten], rfl⟩
  case rebasing done =>
    rw [Option.some.injEq] at h
    rw [← h]
    refine ⟨[], ?_, rfl⟩
    simp only [taken, htransmit, next_inHand]
    simp [Transmit.inHand]

theorem finishSend_pending (s : Transmission) (size : Nat) (done : Bool)
    (currentBytesInBuffer : Option Nat) (h : s.transmit.inHand = []) :
    (s.finishSend size done currentBytesInBuffer).taken = s.taken ∧
      (s.finishSend size done currentBytesInBuffer).pending = s.pending := by
  cases currentBytesInBuffer with
  | none => exact ⟨by simp only [finishSend, taken, next_inHand, h], rfl⟩
  | some n =>
    simp only [finishSend, taken, h]
    exact ⟨rfl, rfl⟩

theorem step_write {s t : Transmission} {bytesSent : Nat} (h : s.step (.write bytesSent) = some t) :
    ∃ current size unsent done bytes rest, s.transmit = .sending current size unsent done ∧
      TCPSocket.writeCall unsent bytesSent = some (bytes, rest) ∧
      s.outQueue + bytes.length < 2 ^ 31 ∧
      t = if rest = [] then
          ({ s with
            written := s.written ++ bytes
            transmit := .sending current size rest done } : Transmission).finishSend size done
              current
        else { s with
          written := s.written ++ bytes
          transmit := .sending current size rest done } := by
  simp only [step] at h
  split at h
  · rename_i current size unsent done htransmit
    split at h
    · contradiction
    · rename_i bytes rest hcall
      split at h
      · contradiction
      · rename_i hroom
        rw [Option.some.injEq] at h
        exact ⟨current, size, unsent, done, bytes, rest, htransmit, hcall, by omega, h.symm⟩
  · contradiction

theorem step_clock {s t : Transmission} {elapsed : Bool} (h : s.step (.clock elapsed) = some t) :
    ∃ message done, s.transmit = .timing message done ∧
      t = { s with
        transmit := if elapsed then .measuring message done
          else .sending none message.length (TCPSocket.sendCalls message) done } := by
  simp only [step] at h
  split at h
  · rename_i message done htransmit
    rw [Option.some.injEq] at h
    exact ⟨message, done, htransmit, h.symm⟩
  · contradiction

theorem step_spurious {s t : Transmission} (h : s.step .spurious = some t) :
    s.transmit = .blocked ∧ t = { s with transmit := .woken } := by
  obtain ⟨hblocked, ht⟩ := Option.ite_none_right_eq_some.mp h
  exact ⟨hblocked, (Option.some.inj ht).symm⟩

theorem step_drain {s t : Transmission} {bytes : Nat} (h : s.step (.drain bytes) = some t) :
    s.left + bytes ≤ s.written.length ∧ t = { s with left := s.left + bytes } := by
  obtain ⟨hdrain, ht⟩ := Option.ite_none_right_eq_some.mp h
  exact ⟨hdrain.2, (Option.some.inj ht).symm⟩

theorem step_pending {s t : Transmission} {e : Event} (h : s.step e = some t) :
    ∃ popped, t.taken = s.taken ++ popped.flatMap TCPSocket.frame ∧
      popped ++ t.pending = s.pending := by
  cases e with
  | request =>
    obtain ⟨htaken, hpending⟩ := requestStep_pending h
    exact ⟨[], by simp [htaken], hpending⟩
  | transmit => exact transmitStep_pending h
  | clock elapsed =>
    obtain ⟨message, done, htransmit, rfl⟩ := step_clock h
    refine ⟨[], ?_, rfl⟩
    simp only [taken, htransmit]
    split <;> simp [Transmit.inHand, TCPSocket.sendCalls_flatten]
  | write bytesSent =>
    obtain ⟨current, size, unsent, done, bytes, rest, htransmit, hcall, -, rfl⟩ := step_write h
    have hbytes := TCPSocket.writeCall_flatten hcall
    use []
    split
    · rename_i hlast
      have hfinished := finishSend_pending { s with
        written := s.written ++ bytes, transmit := .sending current size rest done } size done
        current (by rw [hlast]; rfl)
      rw [hfinished.1]
      exact ⟨by simp [taken, htransmit, Transmit.inHand, ← hbytes], hfinished.2⟩
    · exact ⟨by simp [taken, htransmit, Transmit.inHand, ← hbytes], rfl⟩
  | spurious =>
    obtain ⟨hblocked, rfl⟩ := step_spurious h
    exact ⟨[], by simp [taken, hblocked, Transmit.inHand], rfl⟩
  | drain bytes =>
    obtain ⟨-, rfl⟩ := step_drain h
    exact ⟨[], by simp [taken], rfl⟩

theorem step_stream {s t : Transmission} {e : Event} (h : s.step e = some t) :
    t.stream = s.stream := by
  obtain ⟨popped, htaken, hpending⟩ := step_pending h
  rw [stream_eq, stream_eq, htaken, ← hpending, List.flatMap_append, List.append_assoc]

/-- No byte is lost, doubled or moved. -/
theorem stream_reachable {instructions : List Instruction} {transmit : Transmit}
    (hstart : transmit.inHand = []) {s : Transmission}
    (h : Reachable step (init instructions transmit) s) :
    s.stream = (pushes instructions).flatMap TCPSocket.frame := by
  apply h.invariant (fun s => s.stream = (pushes instructions).flatMap TCPSocket.frame)
  · simp [stream, init, hstart, SynchronousQueue.empty]
  · intro s e t hs _ hstep
    rw [step_stream hstep, hs]

end Transmission

/-- Whether `transmit` has seen the request done and the queue empty. -/
def Transmit.leaving : Transmit → Bool
  | timing _ done | measuring _ done | sending _ _ _ done | rebasing done => done
  | finished => true
  | _ => false

namespace Transmission

/-- How far `processRequest` is. -/
def Phase (s : Transmission) : Prop :=
  (s.requestDone = false ∧ ∃ before, s.request = before ++ ending ∧
    ∀ i ∈ before, i = .notify ∨ ∃ message, i = .push message) ∨
  (s.requestDone = true ∧
    (s.request = [.notify, .wait] ∨ s.request = [.wait] ∨ s.request = []))

structure Orderly (s : Transmission) : Prop where
  phase : s.Phase
  leaving : s.transmit.leaving = true → s.requestDone = true ∧ s.transmissionQueue.entries = []
  returned : s.request = [] → s.transmit = .finished
  parked : s.transmit = .parking → s.requestDone = false
  asleep : s.transmit = .blocked → s.requestDone = true → s.request = [.notify, .wait]
  unsent : ∀ current size unsent done, s.transmit = .sending current size unsent done → unsent ≠ []
  submitted : s.transmit ≠ .unsubmitted

theorem pushing_phase (sents : List Sent) :
    ∀ i ∈ sents.flatMap pushing, i = .notify ∨ ∃ message, i = .push message := by
  intro i hi
  obtain ⟨sent, -, hi⟩ := List.mem_flatMap.mp hi
  unfold pushing at hi
  split at hi
  · rw [List.mem_singleton] at hi
    exact .inr ⟨_, hi⟩
  · simp only [List.mem_cons, List.not_mem_nil, or_false] at hi
    rcases hi with hi | hi
    · exact .inr ⟨_, hi⟩
    · exact .inl hi

theorem orderly_init {before : List Instruction}
    (h : ∀ i ∈ before, i = .notify ∨ ∃ message, i = .push message) :
    Orderly (init (before ++ ending) .submitted) where
  phase := .inl ⟨rfl, before, rfl, h⟩
  leaving := by simp [init, Transmit.leaving]
  returned := by simp [init, ending]
  parked := by simp [init]
  asleep := by simp [init]
  unsent := by simp [init]
  submitted := by simp [init]

theorem notified_ne {t u : Transmit} (h : t.notified = u) (hu : u ≠ .woken) : t = u := by
  unfold Transmit.notified at h
  split at h
  · exact absurd h.symm hu
  · exact h

theorem notified_ne_blocked (t : Transmit) : t.notified ≠ .blocked := by
  cases t <;> simp [Transmit.notified]

theorem notified_leaving (t : Transmit) : t.notified.leaving = t.leaving := by
  cases t <;> rfl

theorem Orderly.notify {s : Transmission} {rest : List Instruction} (hs : Orderly s)
    (hphase : Phase { s with request := rest, transmit := s.transmit.notified })
    (hmore : rest ≠ []) :
    Orderly { s with request := rest, transmit := s.transmit.notified } where
  phase := hphase
  leaving := by
    intro hleaving
    rw [notified_leaving] at hleaving
    exact hs.leaving hleaving
  returned := by
    intro hreturned
    exact absurd hreturned hmore
  parked := by
    intro hparking
    exact hs.parked (notified_ne hparking (by simp))
  asleep := by
    intro hblocked
    exact absurd hblocked (notified_ne_blocked _)
  unsent := by
    intro current size unsent done hsending
    exact hs.unsent current size unsent done (notified_ne hsending (by simp))
  submitted := by
    intro hunsubmitted
    exact hs.submitted (notified_ne hunsubmitted (by simp))

theorem orderly_request {s t : Transmission} (hs : Orderly s) (h : s.requestStep = some t) :
    Orderly t := by
  rcases hs.phase with ⟨hdone, before, hrequest, hbefore⟩ | ⟨hdone, hrequest⟩
  · have hstay : s.transmit.leaving = false := by
      by_contra hleaving
      rw [Bool.not_eq_false] at hleaving
      rw [(hs.leaving hleaving).1] at hdone
      contradiction
    cases before with
    | nil =>
      simp only [requestStep, hrequest, ending, List.nil_append] at h
      split at h
      · contradiction
      · rename_i hfree
        rw [Option.some.injEq] at h
        rw [← h]
        constructor
        · exact .inr ⟨rfl, .inl rfl⟩
        · simp [hstay]
        · simp
        · intro hparking
          simp only at hparking
          simp [hparking, Transmit.locks] at hfree
        · intro _ _
          rfl
        · exact hs.unsent
        · exact hs.submitted
    | cons i before =>
      have hrest : ∀ j ∈ before, j = .notify ∨ ∃ message, j = .push message := by
        intro j hj
        exact hbefore j (List.mem_cons_of_mem _ hj)
      rcases hbefore i (List.mem_cons_self ..) with rfl | ⟨message, rfl⟩
      · simp only [requestStep, hrequest, List.cons_append, Option.some.injEq] at h
        rw [← h]
        apply hs.notify
        · exact .inl ⟨hdone, before, rfl, hrest⟩
        · simp [ending]
      · simp only [requestStep, hrequest, List.cons_append, Option.some.injEq] at h
        rw [← h]
        constructor
        · exact .inl ⟨hdone, before, rfl, hrest⟩
        · simp [hstay]
        · simp [ending]
        · exact hs.parked
        · simp [hdone]
        · exact hs.unsent
        · exact hs.submitted
  · rcases hrequest with hrequest | hrequest | hrequest
    · simp only [requestStep, hrequest, Option.some.injEq] at h
      rw [← h]
      apply hs.notify
      · exact .inr ⟨hdone, .inr (.inl rfl)⟩
      · simp
    · simp only [requestStep, hrequest] at h
      split at h
      · rename_i hfinished
        rw [Option.some.injEq] at h
        rw [← h]
        constructor
        · exact .inr ⟨hdone, .inr (.inr rfl)⟩
        · exact hs.leaving
        · intro _
          exact hfinished
        · exact hs.parked
        · simp [hfinished]
        · exact hs.unsent
        · exact hs.submitted
      · contradiction
    · simp [requestStep, hrequest] at h

theorem Orderly.move {s t : Transmission} (hs : Orderly s) (hrequest : t.request = s.request)
    (hdone : t.requestDone = s.requestDone) (hunfinished : s.transmit ≠ .finished)
    (hleaving : t.transmit.leaving = true →
      s.requestDone = true ∧ t.transmissionQueue.entries = [])
    (hparked : t.transmit = .parking → s.requestDone = false)
    (hasleep : t.transmit = .blocked → s.transmit = .parking)
    (hunsent : ∀ current size unsent done, t.transmit = .sending current size unsent done →
      unsent ≠ [])
    (hsubmitted : t.transmit ≠ .unsubmitted) : Orderly t where
  phase := by
    unfold Phase
    rw [hrequest, hdone]
    exact hs.phase
  leaving := by rwa [hdone]
  returned := by
    intro hreturned
    rw [hrequest] at hreturned
    exact absurd (hs.returned hreturned) hunfinished
  parked := by rwa [hdone]
  asleep := by
    intro hblocked htrue
    rw [hdone, hs.parked (hasleep hblocked)] at htrue
    contradiction
  unsent := hunsent
  submitted := hsubmitted

theorem leaving_next (done : Bool) : (Transmit.next done).leaving = done := by
  cases done <;> rfl

theorem next_cases (done : Bool) : Transmit.next done = .finished ∨ Transmit.next done = .locking := by
  cases done
  · exact .inr rfl
  · exact .inl rfl

theorem next_ne {done : Bool} {t : Transmit} (hfinished : t ≠ .finished) (hlocking : t ≠ .locking) :
    Transmit.next done ≠ t := by
  rcases next_cases done with h | h
  · rw [h]
    exact hfinished.symm
  · rw [h]
    exact hlocking.symm

theorem Orderly.loop {s t : Transmission} {done : Bool} (hs : Orderly s)
    (hrequest : t.request = s.request) (hdone : t.requestDone = s.requestDone)
    (hunfinished : s.transmit ≠ .finished) (htransmit : t.transmit = .next done)
    (hleaving : done = true → s.requestDone = true ∧ t.transmissionQueue.entries = []) :
    Orderly t := by
  apply hs.move hrequest hdone hunfinished
  · rw [htransmit, leaving_next]
    exact hleaving
  · intro hparking
    rw [htransmit] at hparking
    exact absurd hparking (next_ne (by simp) (by simp))
  · intro hblocked
    rw [htransmit] at hblocked
    exact absurd hblocked (next_ne (by simp) (by simp))
  · intro current size unsent done hsending
    rw [htransmit] at hsending
    exact absurd hsending (next_ne (by simp) (by simp))
  · rw [htransmit]
    exact next_ne (by simp) (by simp)

theorem sendCalls_ne_nil (message : ByteString) : TCPSocket.sendCalls message ≠ [] := by
  simp [TCPSocket.sendCalls]

theorem orderly_transmit {s t : Transmission} (hs : Orderly s) (h : s.transmitStep = some t) :
    Orderly t := by
  unfold transmitStep at h
  have hleaving := hs.leaving
  cases htransmit : s.transmit <;> rw [htransmit] at h hleaving <;>
    simp only [reduceCtorEq, Option.some.injEq] at h
  case submitted | locking | woken =>
    rw [← h]
    apply hs.move <;> simp [htransmit, Transmit.leaving]
  case checking =>
    by_cases hgo : (!s.transmissionQueue.isEmpty || s.requestDone) = true
    · rw [if_pos hgo] at h
      rw [← h]
      apply hs.move <;> simp [htransmit, Transmit.leaving]
    · have hundone : s.requestDone = false := by
        cases hdone : s.requestDone with
        | false => rfl
        | true => simp [hdone] at hgo
      rw [if_neg hgo] at h
      rw [← h]
      apply hs.move <;> simp [htransmit, Transmit.leaving, hundone]
  case parking =>
    rw [← h]
    apply hs.move <;> simp [htransmit, Transmit.leaving]
  case popping =>
    rw [← h]
    apply hs.move <;> simp [htransmit, Transmit.leaving]
  case testing dequeued =>
    have hempty : (s.transmissionQueue.isEmpty && s.requestDone) = true →
        s.requestDone = true ∧ s.transmissionQueue.entries = [] := by
      intro hdone
      rw [Bool.and_eq_true, SynchronousQueue.isEmpty_iff] at hdone
      exact hdone.symm
    cases dequeued with
    | none =>
      rw [Option.some.injEq] at h
      rw [← h]
      exact hs.loop rfl rfl (by simp [htransmit]) rfl hempty
    | some message =>
      rw [Option.some.injEq] at h
      rw [← h]
      apply hs.move
      · rfl
      · rfl
      · simp [htransmit]
      · exact hempty
      · simp
      · simp
      · simp
      · simp
  case measuring message done =>
    rw [← h]
    apply hs.move
    · rfl
    · rfl
    · simp [htransmit]
    · exact hleaving
    · simp
    · simp
    · intro current size unsent done hsending
      simp only [Transmit.sending.injEq] at hsending
      rw [← hsending.2.2.1]
      exact sendCalls_ne_nil message
    · simp
  case rebasing done =>
    rw [← h]
    exact hs.loop rfl rfl (by simp [htransmit]) rfl hleaving

theorem orderly_write {s t : Transmission} {bytesSent : Nat} (hs : Orderly s)
    (h : s.step (.write bytesSent) = some t) : Orderly t := by
  obtain ⟨current, size, unsent, done, bytes, rest, htransmit, -, -, rfl⟩ := step_write h
  have hleaving := hs.leaving
  rw [htransmit] at hleaving
  split
  · cases current with
    | none => exact hs.loop rfl rfl (by simp [htransmit]) rfl hleaving
    | some n =>
      apply hs.move
      · rfl
      · rfl
      · simp [htransmit]
      · exact hleaving
      · simp [finishSend]
      · simp [finishSend]
      · simp [finishSend]
      · simp [finishSend]
  · rename_i hmore
    apply hs.move
    · rfl
    · rfl
    · simp [htransmit]
    · exact hleaving
    · simp
    · simp
    · intro current size unsent done hsending
      simp only [Transmit.sending.injEq] at hsending
      rw [← hsending.2.2.1]
      exact hmore
    · simp

theorem orderly_clock {s t : Transmission} {elapsed : Bool} (hs : Orderly s)
    (h : s.step (.clock elapsed) = some t) : Orderly t := by
  obtain ⟨message, done, htransmit, rfl⟩ := step_clock h
  have hleaving := hs.leaving
  rw [htransmit] at hleaving
  apply hs.move
  · rfl
  · rfl
  · simp [htransmit]
  · cases elapsed with
    | false => exact hleaving
    | true => exact hleaving
  · cases elapsed <;> simp
  · cases elapsed <;> simp
  · intro current size unsent done' hsending
    cases elapsed with
    | false =>
      simp only [Bool.false_eq_true, if_false, Transmit.sending.injEq] at hsending
      rw [← hsending.2.2.1]
      exact sendCalls_ne_nil message
    | true => simp at hsending
  · cases elapsed <;> simp

theorem orderly_reachable {before : List Instruction}
    (hbefore : ∀ i ∈ before, i = .notify ∨ ∃ message, i = .push message) {s : Transmission}
    (h : Reachable step (init (before ++ ending) .submitted) s) : Orderly s := by
  apply h.invariant Orderly
  · exact orderly_init hbefore
  · intro s e t hs _ hstep
    cases e with
    | request => exact orderly_request hs hstep
    | transmit => exact orderly_transmit hs hstep
    | clock elapsed => exact orderly_clock hs hstep
    | write bytesSent => exact orderly_write hs hstep
    | spurious =>
      obtain ⟨hblocked, rfl⟩ := step_spurious hstep
      apply hs.move <;> simp [hblocked, Transmit.leaving]
    | drain bytes =>
      obtain ⟨-, rfl⟩ := step_drain hstep
      exact ⟨hs.phase, hs.leaving, hs.returned, hs.parked, hs.asleep, hs.unsent, hs.submitted⟩

theorem Orderly.written {s : Transmission} (hs : Orderly s) (hreturned : s.request = []) :
    s.stream = s.written := by
  have hfinished := hs.returned hreturned
  have hleaving := hs.leaving
  rw [hfinished] at hleaving
  have hempty := (hleaving rfl).2
  simp [stream, hfinished, hempty, hreturned, pushes, Transmit.inHand]

/-- Until the request has returned, one of the tasks or the network can go on, and not by chance. -/
theorem Orderly.progress {s : Transmission} (hs : Orderly s) (hmore : s.request ≠ []) :
    ∃ e, e ≠ .spurious ∧ s.step e ≠ none := by
  cases htransmit : s.transmit with
  | unsubmitted => exact absurd htransmit hs.submitted
  | submitted | locking | woken | checking | parking | popping | measuring | rebasing =>
    exact ⟨.transmit, by simp, by simp [step, transmitStep, htransmit]⟩
  | testing dequeued =>
    exact ⟨.transmit, by simp, by cases dequeued <;> simp [step, transmitStep, htransmit]⟩
  | timing message done => exact ⟨.clock false, by simp, by simp [step, htransmit]⟩
  | sending current size unsent done =>
    have hunsent := hs.unsent current size unsent done htransmit
    by_cases hfull : 2 ^ 31 ≤ s.outQueue + 1
    · -- the send buffer is full, and only the network can help
      use .drain 1
      constructor
      · simp
      · unfold outQueue at hfull
        simp only [step, ne_eq]
        rw [if_pos (by omega)]
        simp
    · obtain ⟨bytesSent, bytes, rest, hcall, hlength⟩ := TCPSocket.exists_writeCall hunsent
      use .write bytesSent
      constructor
      · simp
      · simp only [step, htransmit, hcall]
        rw [if_neg (by omega)]
        simp
  | blocked =>
    use .request
    constructor
    · simp
    · rcases hs.phase with ⟨-, before, hrequest, hbefore⟩ | ⟨hdone, -⟩
      · cases before with
        | nil => simp [step, requestStep, hrequest, ending, htransmit, Transmit.locks]
        | cons i before =>
          rcases hbefore i (List.mem_cons_self ..) with rfl | ⟨message, rfl⟩
          · simp [step, requestStep, hrequest]
          · simp [step, requestStep, hrequest]
      · simp [step, requestStep, hs.asleep htransmit hdone]
  | finished =>
    use .request
    constructor
    · simp
    · have hdone := (hs.leaving (by rw [htransmit]; rfl)).1
      rcases hs.phase with ⟨hundone, -⟩ | ⟨-, hrequest | hrequest | hrequest⟩
      · rw [hdone] at hundone
        contradiction
      · simp [step, requestStep, hrequest]
      · simp [step, requestStep, hrequest, htransmit]
      · contradiction

end Transmission

/-! ## Requests whose messages are sent -/

/-- What a request pushes, in the order of the queue. -/
def Served.messages (served : Served) : List ByteString :=
  served.transmissionQueue.entries.map fun sent => sent.buffer.contents

/-- The moment before the first push. A transmission that is used has been submitted by then. -/
def Served.start (served : Served) : Transmission :=
  .init served.instructions (if served.transmitting then .submitted else .unsubmitted)

/-- In every run of the two tasks the request returns only when its messages have been written to the
socket, each once and in order, and until then something can happen. -/
def Served.Transmitted (served : Served) : Prop :=
  ∀ s, Reachable Transmission.step served.start s →
    (s.request = [] → s.written = served.messages.flatMap TCPSocket.frame) ∧
    (s.request ≠ [] → ∃ e, e ≠ .spurious ∧ s.step e ≠ none)

theorem pushes_append (is js : List Instruction) : pushes (is ++ js) = pushes is ++ pushes js := by
  induction is with
  | nil => rfl
  | cons i is ih => cases i <;> simp [pushes, ih]

theorem pushes_pushing (sents : List Sent) :
    pushes (sents.flatMap pushing) = sents.map fun sent => sent.buffer.contents := by
  induction sents with
  | nil => rfl
  | cons sent sents ih =>
    rw [List.flatMap_cons, pushes_append, ih, List.map_cons]
    unfold pushing
    split <;> rfl

theorem Served.pushes_instructions (served : Served) :
    pushes served.instructions = served.messages := by
  rw [Served.instructions, pushes_append, pushes_pushing]
  split <;> simp [Served.messages, ending, pushes]

theorem Served.transmitted {served : Served} (h : served.transmitting = true) :
    served.Transmitted := by
  intro s hreach
  have hstream : s.stream = served.messages.flatMap TCPSocket.frame := by
    rw [← served.pushes_instructions]
    rw [Served.start, if_pos h] at hreach
    exact Transmission.stream_reachable rfl hreach
  have hs : s.Orderly := by
    rw [Served.start, Served.instructions, if_pos h, if_pos h] at hreach
    exact Transmission.orderly_reachable (Transmission.pushing_phase _) hreach
  constructor
  · intro hreturned
    rw [← hs.written hreturned, hstream]
  · exact hs.progress

/-- A request that is answered before the transmission is started. -/
inductive Refused (host : Host) (disk : Disk Path) (buffer : ByteString) : Prop
  | malformed (h : host.protobuf.fileTransmissionRequest.deserialize buffer = none)
  | parameters {request : FileTransmissionRequest} {x : Exn}
      (h : host.protobuf.fileTransmissionRequest.deserialize buffer = some request)
      (hx : configureFileProcessor host request = .error x)
      (hcaught : catchesConfigurationError x = true)
  | path {request : FileTransmissionRequest} {p : Processor} {message : ByteString}
      (h : host.protobuf.fileTransmissionRequest.deserialize buffer = some request)
      (hp : configureFileProcessor host request = .ok p)
      (hpath : p.preparePath host disk (request.filename.getD []) = .error (.ioError message))

variable {host : Host} {disk : Disk Path} {buffer : ByteString}

theorem processRequest_refused (h : Refused host disk buffer) (fuel : Nat) :
    ∃ message, processRequest host disk buffer fuel =
      some (.ok ⟨disk, sendErrorMessage host.protobuf message .empty, false⟩) := by
  cases h with
  | malformed h =>
    use ascii "Invalid request message"
    simp only [processRequest, h]
  | parameters h hx hcaught =>
    rename_i x
    use x.what
    simp only [processRequest, h, hx, hcaught, if_true]
  | path h hp hpath =>
    rename_i message
    use message
    simp only [processRequest, h, hp, hpath]

theorem processRequest_transmitting (h : ¬ Refused host disk buffer) {fuel : Nat} {served : Served}
    (hserved : processRequest host disk buffer fuel = some (.ok served)) :
    served.transmitting = true := by
  unfold processRequest at hserved
  split at hserved
  · rename_i hmalformed
    exact absurd (.malformed hmalformed) h
  · rename_i request hrequest
    split at hserved
    · rename_i x hx
      split at hserved
      · rename_i hcaught
        exact absurd (.parameters hrequest hx hcaught) h
      · simp at hserved
    · rename_i p hp
      split at hserved
      · rename_i message hpath
        exact absurd (.path hrequest hp hpath) h
      · simp at hserved
      · obtain ⟨result, -, hresult⟩ := Option.map_eq_some_iff.mp hserved
        cases result with
        | error x => contradiction
        | ok s =>
          rw [Except.ok.injEq] at hresult
          rw [← hresult]

theorem not_transmitted_of_refused (h : Refused host disk buffer) (fuel : Nat) :
    ∃ served, processRequest host disk buffer fuel = some (.ok served) ∧ ¬ served.Transmitted := by
  obtain ⟨message, hserved⟩ := processRequest_refused h fuel
  refine ⟨_, hserved, ?_⟩
  intro htransmitted
  have hreturned := (htransmitted _ (reachable_exec (show exec Transmission.step _
    [.request, .request] = some _ from rfl))).1 rfl
  have hlength := congrArg List.length hreturned
  simp [Transmission.init, Served.start, Served.messages, sendErrorMessage, SynchronousQueue.empty,
    TCPSocket.frame_length] at hlength

/-- All the messages of a request are sent before it returns exactly if it is not refused. (Those of a
training request are the two that are pushed after the queue has been cleared.) -/
theorem transmitted_iff (host : Host) (disk : Disk Path) (buffer : ByteString) :
    (∀ fuel served, processRequest host disk buffer fuel = some (.ok served) →
      served.Transmitted) ↔ ¬ Refused host disk buffer := by
  constructor
  · intro htransmitted hrefused
    obtain ⟨served, hserved, hnot⟩ := not_transmitted_of_refused hrefused 0
    exact hnot (htransmitted 0 served hserved)
  · intro hrefused fuel served hserved
    exact Served.transmitted (processRequest_transmitting hrefused hserved)

def plainRequest (path : Path) : FileTransmissionRequest :=
  ⟨some path, some .NO_COMPRESSION, none, none⟩

def plainBuffer (path : Path) : ByteString :=
  protocolBuffers.fileTransmissionRequest.serialize (plainRequest path)

theorem plainBuffer_deserialize {path : Path} (h : path.length < 2 ^ 31) :
    protocolBuffers.fileTransmissionRequest.deserialize (plainBuffer path) =
      some (plainRequest path) := by
  apply MessageFormat.deserialize_serialize
  · rfl
  · simpa [Message.strings, plainRequest] using h

/-- There is no file `b`, and the client never hears of it. -/
theorem missing_path_unanswered : ∃ served,
    processRequest sampleHost (sampleDisk []) (plainBuffer (ascii "b")) 0 = some (.ok served) ∧
      ¬ served.Transmitted := by
  apply not_transmitted_of_refused
  exact .path (plainBuffer_deserialize (by decide)) rfl rfl

theorem transmitted_plain : ¬ Refused sampleHost (sampleDisk [1, 2]) (plainBuffer (ascii "a")) ∧
    ∀ fuel served, processRequest sampleHost (sampleDisk [1, 2]) (plainBuffer (ascii "a")) fuel =
      some (.ok served) → served.Transmitted := by
  have hrequest : sampleHost.protobuf.fileTransmissionRequest.deserialize
      (plainBuffer (ascii "a")) = some (plainRequest (ascii "a")) :=
    plainBuffer_deserialize (by decide)
  have hserved : ¬ Refused sampleHost (sampleDisk [1, 2]) (plainBuffer (ascii "a")) := by
    intro hrefused
    cases hrefused with
    | malformed h =>
      rw [hrequest] at h
      contradiction
    | parameters h hx _ =>
      rw [hrequest, Option.some.injEq] at h
      rw [← h] at hx
      contradiction
    | path h hp hpath =>
      rw [hrequest, Option.some.injEq] at h
      rw [← h] at hp hpath
      rw [← Except.ok.inj hp] at hpath
      contradiction
  use hserved
  exact (transmitted_iff sampleHost (sampleDisk [1, 2]) (plainBuffer (ascii "a"))).mpr hserved

end Autocomp.Server

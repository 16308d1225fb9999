import Autocomp.Network.Transmission

/-!
# The bandwidth estimate

`transmit` recomputes the bandwidth from the bytes it has sent and the length of the send buffer.
`send` does not count the four bytes of the size it writes before a message, which the send buffer
does, and the bytes that leave between the reading of the buffer and the setting of `baseTime` are
counted although they left before it.
-/

namespace Autocomp.Server

open ByteMemory Transition

namespace Recomputation

/-- `bytesSent - currentBytesInBuffer`, a difference of unsigned 64-bit integers. -/
def difference (r : Recomputation) : Nat :=
  (r.bytesSent + 2 ^ 64 - r.currentBytesInBuffer) % 2 ^ 64

/-- The difference does not wrap and is the number of bytes that have left since `baseTime`. -/
def Exact (r : Recomputation) : Prop :=
  r.currentBytesInBuffer ≤ r.bytesSent ∧ r.difference = r.left

end Recomputation

namespace Transmission

/-- What has been counted since the reading is what has been written less four bytes a message, where
`added` of the bytes are of a message that has still `missing` to be written. -/
def Window (s : Transmission) (added missing : Nat) : Prop :=
  s.bytesSent = s.counted % 2 ^ 64 ∧
    s.leftAtReading + s.counted + 4 * s.messages + added = s.written.length + missing ∧
    s.leftAtReading ≤ s.leftAtBase ∧ s.leftAtBase ≤ s.left

end Transmission

/-- How the counters stand at each point of `transmit`. -/
def Transmit.Counts (s : Transmission) : Transmit → Prop
  | unsubmitted | submitted =>
    s.written = [] ∧ s.bytesSent = 0 ∧ s.counted = 0 ∧ s.messages = 0
  | sending none size unsent _ => s.Window (size + 4) unsent.flatten.length
  | sending (some currentBytesInBuffer) size unsent _ =>
    s.messages = 0 ∧ s.leftAtReading ≤ s.left ∧
      s.leftAtReading + currentBytesInBuffer + (size + 4) =
        s.written.length + unsent.flatten.length
  | rebasing _ =>
    s.messages = 1 ∧ s.leftAtReading ≤ s.left ∧ s.bytesSent = s.counted % 2 ^ 64 ∧
      s.leftAtReading + s.counted + 4 = s.written.length
  | _ => s.Window 0 0

namespace Transmission

structure Measured (s : Transmission) : Prop where
  left_le : s.left ≤ s.written.length
  counts : s.transmit.Counts s
  exact_iff : ∀ r ∈ s.recomputations,
    r.Exact ↔ r.leftUnseen = 4 * r.messages + 2 ^ 64 * (r.counted / 2 ^ 64)

theorem measured_init (instructions : List Instruction) :
    Measured (init instructions .submitted) where
  left_le := Nat.le_refl _
  counts := ⟨rfl, rfl, rfl, rfl⟩
  exact_iff := by simp [init]

theorem window_exact {s : Transmission} (hle : s.left ≤ s.written.length) (h : s.Window 0 0) :
    Recomputation.Exact ⟨s.bytesSent, s.outQueue, s.left - s.leftAtBase,
        s.leftAtBase - s.leftAtReading, s.counted, s.messages⟩ ↔
      s.leftAtBase - s.leftAtReading = 4 * s.messages + 2 ^ 64 * (s.counted / 2 ^ 64) := by
  obtain ⟨hbytes, hcounted, hreading, hbase⟩ := h
  simp only [Recomputation.Exact, Recomputation.difference, outQueue]
  rw [hbytes]
  constructor
  · intro hexact
    have hnowrap := hexact.1
    have hdifference := hexact.2
    omega
  · intro hunseen
    omega

theorem requestStep_kept {s t : Transmission} (h : s.requestStep = some t) :
    (t.transmit = s.transmit ∨ t.transmit = s.transmit.notified) ∧
      t = { s with
        request := t.request
        transmissionQueue := t.transmissionQueue
        requestDone := t.requestDone
        transmit := t.transmit } := by
  rcases requestStep_cases h with ⟨message, rest, -, rfl⟩ | ⟨rest, -, rfl⟩ | ⟨rest, -, -, rfl⟩ |
      ⟨rest, -, -, rfl⟩
  · exact ⟨.inl rfl, rfl⟩
  · exact ⟨.inr rfl, rfl⟩
  · exact ⟨.inl rfl, rfl⟩
  · exact ⟨.inl rfl, rfl⟩

theorem Counts.congr {s t : Transmission} {transmit : Transmit} (h : transmit.Counts s)
    (hkept : t = { s with
      request := t.request
      transmissionQueue := t.transmissionQueue
      requestDone := t.requestDone
      transmit := t.transmit
      recomputations := t.recomputations }) : transmit.Counts t := by
  rw [hkept]
  cases transmit with
  | testing dequeued => cases dequeued <;> exact h
  | sending current => cases current <;> exact h
  | _ => exact h

theorem Counts.notified {s : Transmission} {transmit : Transmit} (h : transmit.Counts s) :
    transmit.notified.Counts s := by
  cases transmit with
  | testing dequeued => cases dequeued <;> exact h
  | sending current => cases current <;> exact h
  | _ => exact h

theorem Counts.next {s : Transmission} (h : s.Window 0 0) (done : Bool) :
    (Transmit.next done).Counts s := by
  cases done <;> exact h

theorem measured_request {s t : Transmission} (hs : Measured s) (h : s.requestStep = some t) :
    Measured t := by
  obtain ⟨htransmit, hkept⟩ := requestStep_kept h
  constructor
  · rw [hkept]
    exact hs.left_le
  · rcases htransmit with htransmit | htransmit
    · rw [htransmit]
      apply Counts.congr hs.counts
      rw [hkept]
    · rw [htransmit]
      apply Counts.congr (Counts.notified hs.counts)
      rw [hkept]
  · rw [hkept]
    exact hs.exact_iff

theorem Measured.move {s t : Transmission} (hs : Measured s) (hwritten : t.written = s.written)
    (hleft : t.left = s.left) (hrecomputations : t.recomputations = s.recomputations)
    (hcounts : t.transmit.Counts t) : Measured t where
  left_le := by
    rw [hleft, hwritten]
    exact hs.left_le
  counts := hcounts
  exact_iff := by
    rw [hrecomputations]
    exact hs.exact_iff

theorem measured_transmit {s t : Transmission} (hs : Measured s) (h : s.transmitStep = some t) :
    Measured t := by
  unfold transmitStep at h
  have hcounts := hs.counts
  cases htransmit : s.transmit <;> rw [htransmit] at h hcounts <;>
    simp only [reduceCtorEq, Option.some.injEq] at h
  case submitted =>
    obtain ⟨hwritten, hbytes, hcounted, hmessages⟩ := hcounts
    have hle := hs.left_le
    rw [hwritten, List.length_nil] at hle
    rw [← h]
    refine hs.move rfl rfl rfl ⟨?_, ?_, Nat.le_refl _, Nat.le_refl _⟩
    · simp only [hbytes, hcounted]
      rfl
    · simp only [hwritten, hcounted, hmessages, List.length_nil]
      omega
  case locking | woken | parking =>
    rw [← h]
    exact hs.move rfl rfl rfl hcounts
  case checking =>
    rw [← h]
    refine hs.move rfl rfl rfl ?_
    split <;> exact hcounts
  case popping =>
    rw [← h]
    refine hs.move rfl rfl rfl ?_
    cases hentries : s.transmissionQueue.entries with
    | nil =>
      simp only [SynchronousQueue.pop_fst, hentries]
      exact hcounts
    | cons message entries =>
      simp only [SynchronousQueue.pop_fst, hentries]
      exact hcounts
  case testing dequeued =>
    cases dequeued with
    | none =>
      rw [Option.some.injEq] at h
      rw [← h]
      exact hs.move rfl rfl rfl (Counts.next hcounts _)
    | some message =>
      rw [Option.some.injEq] at h
      rw [← h]
      exact hs.move rfl rfl rfl hcounts
  case measuring message done =>
    have hexact := window_exact hs.left_le hcounts
    have hle := hs.left_le
    rw [← h]
    constructor
    · exact hs.left_le
    · refine ⟨rfl, Nat.le_refl _, ?_⟩
      simp only [TCPSocket.sendCalls_flatten, TCPSocket.frame_length, outQueue]
      omega
    · intro r hr
      rw [List.mem_append, List.mem_singleton] at hr
      rcases hr with hr | rfl
      · exact hs.exact_iff r hr
      · exact hexact
  case rebasing done =>
    obtain ⟨hmessages, hreading, hbytes, hcounted⟩ := hcounts
    rw [← h]
    refine hs.move rfl rfl rfl ?_
    apply Counts.next
    refine ⟨hbytes, ?_, hreading, Nat.le_refl _⟩
    simp only [hmessages]
    omega

theorem measured_clock {s t : Transmission} {elapsed : Bool} (hs : Measured s)
    (h : s.step (.clock elapsed) = some t) : Measured t := by
  obtain ⟨message, done, htransmit, rfl⟩ := step_clock h
  have hcounts := hs.counts
  rw [htransmit] at hcounts
  refine hs.move rfl rfl rfl ?_
  cases elapsed with
  | false =>
    obtain ⟨hbytes, hcounted, hrest⟩ := hcounts
    refine ⟨hbytes, ?_, hrest⟩
    simp only [TCPSocket.sendCalls_flatten, TCPSocket.frame_length]
    omega
  | true => exact hcounts

theorem measured_write {s t : Transmission} {bytesSent : Nat} (hs : Measured s)
    (h : s.step (.write bytesSent) = some t) : Measured t := by
  obtain ⟨current, size, unsent, done, bytes, rest, htransmit, hcall, hroom, ht⟩ := step_write h
  have hbytes := congrArg List.length (TCPSocket.writeCall_flatten hcall)
  rw [List.length_append] at hbytes
  have hcounts := hs.counts
  rw [htransmit] at hcounts
  have hle := hs.left_le
  unfold outQueue at hroom
  have hkept : t.written = s.written ++ bytes ∧ t.left = s.left ∧
      t.recomputations = s.recomputations := by
    rw [ht]
    split
    · cases current <;> exact ⟨rfl, rfl, rfl⟩
    · exact ⟨rfl, rfl, rfl⟩
  obtain ⟨hwritten, hleft, hrecomputations⟩ := hkept
  constructor
  · rw [hleft, hwritten, List.length_append]
    omega
  · rw [ht]
    cases current with
    | none =>
      obtain ⟨hcount, hcounted, hwindow⟩ := hcounts
      split
      · rename_i hlast
        apply Counts.next
        rw [hlast, List.flatten_nil, List.length_nil] at hbytes
        refine ⟨?_, ?_, hwindow⟩
        · simp only [finishSend, hcount]
          omega
        · simp only [finishSend, List.length_append]
          omega
      · refine ⟨hcount, ?_, hwindow⟩
        simp only [List.length_append]
        omega
    | some n =>
      obtain ⟨hmessages, hreading, hcounted⟩ := hcounts
      split
      · rename_i hlast
        rw [hlast, List.flatten_nil, List.length_nil] at hbytes
        refine ⟨?_, hreading, rfl, ?_⟩
        · simp only [finishSend, hmessages]
        · simp only [finishSend, List.length_append]
          omega
      · refine ⟨hmessages, hreading, ?_⟩
        simp only [List.length_append]
        omega
  · rw [hrecomputations]
    exact hs.exact_iff

theorem measured_drain {s t : Transmission} {bytes : Nat} (hs : Measured s)
    (h : s.step (.drain bytes) = some t) : Measured t := by
  obtain ⟨hdrain, rfl⟩ := step_drain h
  have hcounts := hs.counts
  have hwindow : ∀ added missing, s.Window added missing →
      ({ s with left := s.left + bytes } : Transmission).Window added missing := by
    intro added missing hwindow
    obtain ⟨hcount, hcounted, hreading, hbase⟩ := hwindow
    exact ⟨hcount, hcounted, hreading, Nat.le_add_right_of_le hbase⟩
  constructor
  · exact hdrain
  · change Transmit.Counts _ s.transmit
    cases htransmit : s.transmit with
    | unsubmitted | submitted =>
      rw [htransmit] at hcounts
      exact hcounts
    | sending current size unsent done =>
      rw [htransmit] at hcounts
      cases current with
      | none => exact hwindow _ _ hcounts
      | some n =>
        obtain ⟨hmessages, hreading, hcounted⟩ := hcounts
        exact ⟨hmessages, Nat.le_add_right_of_le hreading, hcounted⟩
    | rebasing done =>
      rw [htransmit] at hcounts
      obtain ⟨hmessages, hreading, hrest⟩ := hcounts
      exact ⟨hmessages, Nat.le_add_right_of_le hreading, hrest⟩
    | locking | checking | parking | blocked | woken | popping | testing | timing | measuring
    | finished =>
      rw [htransmit] at hcounts
      exact hwindow 0 0 hcounts
  · exact hs.exact_iff

theorem measured_reachable {instructions : List Instruction} {s : Transmission}
    (h : Reachable step (init instructions .submitted) s) : Measured s := by
  apply h.invariant Measured
  · exact measured_init instructions
  · intro s e t hs _ hstep
    cases e with
    | request => exact measured_request hs hstep
    | transmit => exact measured_transmit hs hstep
    | clock elapsed => exact measured_clock hs hstep
    | write bytesSent => exact measured_write hs hstep
    | spurious =>
      obtain ⟨hblocked, rfl⟩ := step_spurious hstep
      have hcounts := hs.counts
      rw [hblocked] at hcounts
      exact hs.move rfl rfl rfl hcounts
    | drain bytes => exact measured_drain hs hstep

/-- In every run, a recomputation is exact exactly if the bytes that left the send buffer between its
last reading and the setting of `baseTime` are four for each message sent since the reading, and
what the counter has lost by overflowing. -/
theorem recomputations_exact_iff {instructions : List Instruction} {s : Transmission}
    (h : Reachable step (init instructions .submitted) s) :
    ∀ r ∈ s.recomputations,
      r.Exact ↔ r.leftUnseen = 4 * r.messages + 2 ^ 64 * (r.counted / 2 ^ 64) :=
  (measured_reachable h).exact_iff

def twoMessages : List Instruction := [.push [7], .notify, .push [8], .notify] ++ ending

/-- The first message is sent within ten milliseconds, the second one later, and nothing has left: one
byte counted as sent less five bytes in the buffer. -/
theorem difference_wraps : ∃ s, Reachable step (init twoMessages .submitted) s ∧
    ∃ r ∈ s.recomputations, r.left = 0 ∧ r.bytesSent < r.currentBytesInBuffer ∧
      r.difference = 2 ^ 64 - 4 ∧ ¬ r.Exact := by
  obtain ⟨s, hs, hr⟩ : ∃ s, exec step (init twoMessages .submitted) [.request, .transmit, .transmit,
      .transmit, .transmit, .transmit, .clock false, .write 4, .write 1, .request, .request,
      .transmit, .transmit, .transmit, .transmit, .clock true, .transmit] = some s ∧
      s.recomputations = [⟨1, 5, 0, 0, 1, 1⟩] := ⟨_, rfl, rfl⟩
  refine ⟨s, reachable_exec hs, ⟨1, 5, 0, 0, 1, 1⟩, by simp [hr], rfl, by decide, by decide, ?_⟩
  intro hexact
  exact absurd hexact.1 (by decide)

/-- A message sent when the clock has passed ten milliseconds, and nothing sent before it. -/
theorem exact_first : ∃ s, Reachable step (init twoMessages .submitted) s ∧
    s.recomputations ≠ [] ∧ ∀ r ∈ s.recomputations, r.Exact := by
  obtain ⟨s, hs, hr⟩ : ∃ s, exec step (init twoMessages .submitted) [.request, .transmit, .transmit,
      .transmit, .transmit, .transmit, .clock true, .transmit] = some s ∧
      s.recomputations = [⟨0, 0, 0, 0, 0, 0⟩] := ⟨_, rfl, rfl⟩
  refine ⟨s, reachable_exec hs, by simp [hr], ?_⟩
  intro r hmem
  apply (recomputations_exact_iff (reachable_exec hs) r hmem).mpr
  rw [hr, List.mem_singleton] at hmem
  rw [hmem]
  rfl

end Transmission

end Autocomp.Server

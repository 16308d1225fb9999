import Autocomp.Network.WholeTransfer

namespace Autocomp

open ByteMemory FileStream Transition TCPSocket

namespace Server

/-- The steps of `transmit` to its end, apart from those that the queue asks for. -/
def Transmit.rank (empty : Bool) : Transmit → Nat
  | testing (some _) => 11
  | testing none => if empty then 1 else 5
  | timing .. => 10
  | measuring .. => 9
  | sending _ _ unsent _ => 6 + unsent.length
  | submitted | rebasing _ => 5
  | locking | woken => 4
  | checking => 3
  | popping | parking => 2
  | blocked => 1
  | unsubmitted | finished => 0

def Instruction.cost : Instruction → Nat
  | push _ => 15
  | notify => 4
  | setDone | wait => 1

namespace Transmission

/-- `transmit` stops waiting only for a message or at the end of the request. -/
structure Awake (s : Transmission) : Prop where
  popping : s.transmit = .popping → s.transmissionQueue.entries ≠ [] ∨ s.requestDone = true
  testing : s.transmit = .testing none → s.requestDone = true

def rank (s : Transmission) : Nat :=
  (s.request.map Instruction.cost).sum + 10 * s.transmissionQueue.entries.length +
    s.transmit.rank s.transmissionQueue.entries.isEmpty

variable {s t : Transmission}

theorem awake_of_ne (hpopping : s.transmit ≠ .popping) (htesting : s.transmit ≠ .testing none) :
    Awake s :=
  ⟨fun h => absurd h hpopping, fun h => absurd h htesting⟩

theorem awake_next {done : Bool} (h : s.transmit = .next done) : Awake s := by
  apply awake_of_ne
  · rw [h]
    exact next_ne (by simp) (by simp)
  · rw [h]
    exact next_ne (by simp) (by simp)

theorem Awake.requestStep (hs : Awake s) (h : s.requestStep = some t) : Awake t := by
  rcases requestStep_cases h with ⟨message, rest, -, rfl⟩ | ⟨rest, -, rfl⟩ |
    ⟨rest, -, -, rfl⟩ | ⟨rest, -, hfinished, rfl⟩
  · exact ⟨fun _ => .inl (by simp [SynchronousQueue.push]), hs.testing⟩
  · constructor
    · intro hpopping
      exact hs.popping (notified_ne hpopping (by simp))
    · intro htesting
      exact hs.testing (notified_ne htesting (by simp))
  · exact ⟨fun _ => .inr rfl, fun _ => rfl⟩
  · exact awake_of_ne (by simp [hfinished]) (by simp [hfinished])

theorem rank_next (done empty : Bool) : (Transmit.next done).rank empty ≤ 4 := by
  cases done
  · exact Nat.le_refl _
  · exact Nat.zero_le _

theorem Awake.transmitStep (hs : Awake s) (h : s.transmitStep = some t) :
    Awake t ∧ t.rank < s.rank := by
  unfold Transmission.transmitStep at h
  cases htransmit : s.transmit <;> rw [htransmit] at h <;>
    simp only [reduceCtorEq, Option.some.injEq] at h
  case submitted | locking | woken | parking | measuring =>
    rw [← h]
    refine ⟨awake_of_ne (by simp) (by simp), ?_⟩
    simp [rank, htransmit, Transmit.rank, sendCalls]
  case checking =>
    by_cases hgo : (!s.transmissionQueue.isEmpty || s.requestDone) = true
    · rw [if_pos hgo] at h
      rw [← h]
      refine ⟨⟨fun _ => ?_, by simp⟩, ?_⟩
      · simpa [SynchronousQueue.isEmpty] using hgo
      · simp [rank, htransmit, Transmit.rank]
    · rw [if_neg hgo] at h
      rw [← h]
      refine ⟨awake_of_ne (by simp) (by simp), ?_⟩
      simp [rank, htransmit, Transmit.rank]
  case popping =>
    rw [← h]
    refine ⟨⟨by simp, fun htesting => ?_⟩, ?_⟩
    · simp only [SynchronousQueue.pop_fst, Transmit.testing.injEq,
        List.head?_eq_none_iff] at htesting
      exact (hs.popping htransmit).resolve_left (not_not_intro htesting)
    · simp only [rank, htransmit, SynchronousQueue.pop_fst, SynchronousQueue.entries_pop]
      cases s.transmissionQueue.entries with
      | nil => simp [Transmit.rank]
      | cons message messages =>
        simp only [Transmit.rank, List.head?_cons, List.tail_cons, List.length_cons]
        omega
  case testing dequeued =>
    cases dequeued with
    | none =>
      rw [Option.some.injEq] at h
      rw [← h]
      refine ⟨awake_next rfl, ?_⟩
      simp only [rank, htransmit, hs.testing htransmit, Bool.and_true, SynchronousQueue.isEmpty]
      cases s.transmissionQueue.entries.isEmpty <;> simp [Transmit.rank, Transmit.next]
    | some message =>
      rw [Option.some.injEq] at h
      rw [← h]
      refine ⟨awake_of_ne (by simp) (by simp), ?_⟩
      simp [rank, htransmit, Transmit.rank]
  case rebasing done =>
    rw [← h]
    refine ⟨awake_next rfl, ?_⟩
    have hle := rank_next done s.transmissionQueue.entries.isEmpty
    have hpos : 4 < (Transmit.rebasing done).rank s.transmissionQueue.entries.isEmpty :=
      Nat.lt_succ_self _
    simp only [rank, htransmit]
    omega

theorem notified_rank (transmit : Transmit) (empty : Bool) :
    transmit.notified.rank empty ≤ transmit.rank empty + 3 := by
  cases transmit <;> simp [Transmit.notified, Transmit.rank]

theorem rank_push (transmit : Transmit) (entries : List ByteString) (message : ByteString) :
    transmit.rank (entries ++ [message]).isEmpty ≤ transmit.rank entries.isEmpty + 4 := by
  cases transmit with
  | testing dequeued => cases dequeued <;> cases entries <;> simp [Transmit.rank]
  | _ => simp [Transmit.rank]

theorem requestStep_rank (h : s.requestStep = some t) : t.rank < s.rank := by
  rcases requestStep_cases h with ⟨message, rest, hrequest, rfl⟩ | ⟨rest, hrequest, rfl⟩ |
    ⟨rest, hrequest, -, rfl⟩ | ⟨rest, hrequest, -, rfl⟩
  · have hle := rank_push s.transmit s.transmissionQueue.entries message
    simp only [rank, hrequest, List.map_cons, List.sum_cons, SynchronousQueue.entries_push,
      List.length_append, List.length_singleton, Instruction.cost]
    omega
  · have hle := notified_rank s.transmit s.transmissionQueue.entries.isEmpty
    simp only [rank, hrequest, List.map_cons, List.sum_cons, Instruction.cost]
    omega
  · simp only [rank, hrequest, List.map_cons, List.sum_cons, Instruction.cost]
    omega
  · simp only [rank, hrequest, List.map_cons, List.sum_cons, Instruction.cost]
    omega

theorem writeCall_length {unsent rest : List (List Byte)} {bytesSent : Nat} {taken : List Byte}
    (h : writeCall unsent bytesSent = some (taken, rest)) :
    rest.length < unsent.length + taken.length := by
  have hlt := writeCall_lt h
  have hbytes := congrArg List.length (writeCall_flatten h)
  rw [List.length_append, List.length_flatten, List.length_flatten] at hbytes
  omega

theorem write_rank {bytesSent : Nat} (h : s.step (.write bytesSent) = some t) :
    Awake t ∧ t.left = s.left ∧ t.rank + s.written.length < s.rank + t.written.length := by
  obtain ⟨current, size, unsent, done, bytes, rest, htransmit, hcall, -, rfl⟩ := step_write h
  split
  · cases current with
    | none =>
      refine ⟨awake_next rfl, rfl, ?_⟩
      have hle := rank_next done s.transmissionQueue.entries.isEmpty
      simp only [finishSend, rank, htransmit, List.length_append]
      simp only [Transmit.rank] at hle ⊢
      omega
    | some n =>
      refine ⟨awake_of_ne (by simp [finishSend]) (by simp [finishSend]), rfl, ?_⟩
      simp only [finishSend, rank, htransmit, Transmit.rank, List.length_append]
      omega
  · refine ⟨awake_of_ne (by simp) (by simp), rfl, ?_⟩
    have hlt := writeCall_length hcall
    simp only [rank, htransmit, Transmit.rank, List.length_append]
    omega

theorem clock_rank {elapsed : Bool} (h : s.step (.clock elapsed) = some t) :
    Awake t ∧ t.left = s.left ∧ t.written = s.written ∧ t.rank < s.rank := by
  obtain ⟨message, done, htransmit, rfl⟩ := step_clock h
  cases elapsed with
  | false =>
    refine ⟨awake_of_ne (by simp) (by simp), rfl, rfl, ?_⟩
    simp [rank, htransmit, Transmit.rank, sendCalls]
  | true =>
    refine ⟨awake_of_ne (by simp) (by simp), rfl, rfl, ?_⟩
    simp [rank, htransmit, Transmit.rank]

end Transmission

def Event.cost : Event → Nat
  | spurious => 4
  | request | transmit | clock _ | write _ | drain _ => 0

namespace Transmission

/-- A step leaves the tasks less to do, unless it moves bytes or happens by chance. -/
theorem Awake.step (hs : Awake s) {e : Event} (h : s.step e = some t) :
    Awake t ∧ t.rank + (s.written.length + s.left) <
      s.rank + (t.written.length + t.left) + e.cost := by
  cases e with
  | request =>
    have hlt := requestStep_rank h
    rcases requestStep_cases h with ⟨message, rest, -, rfl⟩ | ⟨rest, -, rfl⟩ | ⟨rest, -, -, rfl⟩ |
        ⟨rest, -, -, rfl⟩ <;>
      exact ⟨hs.requestStep h, by simp only; omega⟩
  | transmit =>
    obtain ⟨hawake, hlt⟩ := hs.transmitStep h
    obtain ⟨hwritten, hleft⟩ := WholeTransfer.transmitStep_written h
    rw [hwritten, hleft]
    exact ⟨hawake, by omega⟩
  | clock elapsed =>
    obtain ⟨hawake, hleft, hwritten, hlt⟩ := clock_rank h
    rw [hwritten, hleft]
    exact ⟨hawake, by omega⟩
  | write bytesSent =>
    obtain ⟨hawake, hleft, hlt⟩ := write_rank h
    rw [hleft]
    exact ⟨hawake, by omega⟩
  | spurious =>
    obtain ⟨hblocked, rfl⟩ := step_spurious h
    refine ⟨awake_of_ne (by simp) (by simp), ?_⟩
    simp only [rank, hblocked, Transmit.rank, Event.cost]
    omega
  | drain bytes =>
    obtain ⟨⟨hpos, -⟩, ht⟩ := Option.ite_none_right_eq_some.mp h
    rw [← Option.some.inj ht]
    refine ⟨⟨hs.popping, hs.testing⟩, ?_⟩
    simp only [rank, Event.cost]
    omega

end Transmission

end Server

namespace Client.Shutdown

variable {session : Session} {s t : State}

/-- The steps of `shutdown` to its return, and what its notification lets the thread do. -/
def Phase.rank : Phase → Nat
  | running => 6
  | flagged => 5
  | joining => 1
  | returned => 0

/-- An entry pays for its push, its notification and what the thread does with it. -/
def State.rank (s : State) : Nat :=
  21 * s.unsent.length + (if s.notifying then 4 else 0) + s.decompression.rank + s.phase.rank

def Action.cost : Action → Nat
  | spurious => 4
  | push | notifyOne | setDone | notifyAll | join | decompress => 0

theorem Does.rank {a : Action} (hs : Consumer.Awake s.decompression) (h : Does session s a t) :
    Consumer.Awake t.decompression ∧ t.rank < s.rank + a.cost := by
  cases h with
  | @push entry unsent c hunsent hc =>
    have hlt := hs.rank hc
    refine ⟨hs.step hc, ?_⟩
    simp only [State.rank, hunsent, List.length_cons, if_true]
    simp only [Consumer.Action.cost] at hlt
    omega
  | notifyOne hnotifying hc =>
    have hlt := hs.rank hc
    refine ⟨hs.step hc, ?_⟩
    simp only [State.rank, hnotifying, if_true, Bool.false_eq_true, if_false]
    simp only [Consumer.Action.cost] at hlt
    omega
  | setDone hphase hc | notifyAll hphase hc =>
    have hlt := hs.rank hc
    refine ⟨hs.step hc, ?_⟩
    simp only [State.rank, hphase, Phase.rank]
    simp only [Consumer.Action.cost] at hlt
    omega
  | join hphase =>
    refine ⟨hs, ?_⟩
    simp only [State.rank, hphase, Phase.rank]
    omega
  | decompress hc | spurious hc =>
    have hlt := hs.rank hc
    refine ⟨hs.step hc, ?_⟩
    simp only [Consumer.Action.cost] at hlt
    simp only [State.rank, Action.cost]
    omega

end Client.Shutdown

namespace WholeTransfer

open Client Server

variable {setting : Setting} {served : Served} {sent rest : List Meaning} {d₀ : Decompressor}
  {disk : Disk Path} {s t : State}

/-- Neither of the two sleeping threads stops waiting for nothing. -/
structure Awake (s : State) : Prop where
  server : s.server.Awake
  client : Consumer.Awake s.client.decompression

/-- Of `total` bytes those that are to be written, to arrive, to be acknowledged and to be read, and
what the threads can do without them. A byte that is read may complete a message, which the client
pushes. -/
def State.rank (total : Nat) (s : State) : Nat :=
  3 * (total - s.server.written.length) + (s.server.written.length - s.arrived) +
    (s.server.written.length - s.server.left) + 22 * (total - s.consumed) + s.server.rank +
    s.client.rank

/-- A spurious wake-up. -/
def Event.chance : Event → Bool
  | .server .spurious | .client .spurious => true
  | .server _ | .arrive _ | .read _ | .client _ => false

def Event.cost (e : Event) : Nat := 4 * e.chance.toNat

theorem cost_server (e : Server.Event) : (Event.server e).cost = e.cost := by
  cases e <;> rfl

theorem cost_client (a : Shutdown.Action) : (Event.client a).cost = a.cost := by
  cases a <;> rfl

theorem receiveMessage_length {connection : Connection} {awaiting : Awaiting} {message : ByteString}
    {r : Receiver} (h : receiveMessage connection ⟨awaiting, .empty⟩ message = .ok r)
    (hmore : awaiting ≠ .nothing) : r.decompressionQueue.entries.length ≤ 1 := by
  rcases receiveMessage_cases h hmore with ⟨m, -, -, rfl⟩ | ⟨m, chunkHeader, -, rfl⟩ |
    ⟨m, chunkHeader, -, rfl⟩
  · exact Nat.le_refl _
  · exact Nat.zero_le _
  · exact Nat.le_refl _

theorem finish_spec (connection : Connection) (s : State) (buffer : ByteString) (part : Part)
    (hmore : s.awaiting ≠ .nothing) :
    (s.finish connection buffer part).server = s.server ∧
    (s.finish connection buffer part).arrived = s.arrived ∧
    (s.finish connection buffer part).consumed = s.consumed ∧
    ∃ unsent, unsent.length ≤ s.client.unsent.length + 1 ∧
      (s.finish connection buffer part).client = { s.client with unsent := unsent } := by
  cases part with
  | size => exact ⟨rfl, rfl, rfl, s.client.unsent, Nat.le_succ _, rfl⟩
  | payload =>
    simp only [State.finish]
    split
    · exact ⟨rfl, rfl, rfl, s.client.unsent, Nat.le_succ _, rfl⟩
    · rename_i r hr
      refine ⟨rfl, rfl, rfl, _, ?_, rfl⟩
      rw [List.length_append]
      exact Nat.add_le_add_left (receiveMessage_length hr hmore) _

theorem cost_pushing (sents : List Sent) :
    ((sents.flatMap pushing).map Instruction.cost).sum ≤ 19 * sents.length := by
  induction sents with
  | nil => exact Nat.le_refl _
  | cons sent sents ih =>
    have hle : ((pushing sent).map Instruction.cost).sum ≤ 19 := by
      unfold pushing
      split <;> simp [Instruction.cost]
    rw [List.flatMap_cons, List.map_append, List.sum_append, List.length_cons]
    omega

section

variable (h : Dialogue setting.connection served sent)

include h

theorem Inv.written_le (hs : Inv setting served sent d₀ s rest) :
    s.server.written.length ≤ (wire setting.connection.protobuf sent).length :=
  (hs.written h).length_le

theorem read_rank (hs : Inv setting served sent d₀ s rest) (hawake : Awake s) {bytesRead : Nat}
    (hstep : s.read setting.connection bytesRead = some t) :
    Awake t ∧ t.rank (wire setting.connection.protobuf sent).length <
      s.rank (wire setting.connection.protobuf sent).length := by
  obtain ⟨next, hnext⟩ := hs.read h hstep
  obtain ⟨part, buffer, left, hreading, hcases⟩ := read_cases hstep
  have hall := hs.written_le h
  have harrived := hs.arrived_le
  have hat := hs.atRest
  rw [hreading] at hat
  obtain ⟨-, e, meaning, later, rfl, -, -, -⟩ := hat
  have hmore : s.awaiting ≠ .nothing := by
    intro hnothing
    have hdialogue := hs.dialogue
    simp [hnothing, exec, Awaiting.next] at hdialogue
  rcases hcases with ⟨-, -, rfl⟩ | ⟨hpos, -, hread, ht⟩
  · exact hnext.atRest.elim
  · split at ht
    · have hspec := finish_spec setting.connection
        { s with consumed := s.consumed + bytesRead }
        (buffer ++ (s.server.written.drop s.consumed).take bytesRead) part hmore
      rw [← ht] at hspec
      obtain ⟨hserver, hsame, hconsumed, unsent, hunsent, hclient⟩ := hspec
      refine ⟨⟨hserver ▸ hawake.server, ?_⟩, ?_⟩
      · rw [hclient]
        exact hawake.client
      · simp only at hserver hsame hconsumed hunsent hclient
        simp only [State.rank, Shutdown.State.rank, hserver, hsame, hconsumed, hclient]
        omega
    · rw [ht]
      refine ⟨⟨hawake.server, hawake.client⟩, ?_⟩
      simp only [State.rank]
      omega

theorem step_rank (hs : Inv setting served sent d₀ s rest) (hawake : Awake s) {e : Event}
    (hstep : step setting s e = some t) :
    Awake t ∧ t.rank (wire setting.connection.protobuf sent).length <
      s.rank (wire setting.connection.protobuf sent).length + e.cost := by
  obtain ⟨next, hnext⟩ := inv_step h hs hstep
  obtain ⟨-, hact⟩ := Option.ite_none_right_eq_some.mp hstep
  have harrived := hs.arrived_le
  cases e with
  | server e =>
    obtain ⟨server, hserver, rfl⟩ := Option.map_eq_some_iff.mp hact
    obtain ⟨hserving, hlt⟩ := hawake.server.step hserver
    refine ⟨⟨hserving, hawake.client⟩, ?_⟩
    have hleft := hnext.left_le
    have hall := hnext.written_le h
    have hnow := hnext.arrived_le
    have hwritten := (server_written hserver).1.length_le
    have hmoved : s.server.left ≤ server.left := by
      rcases (server_written hserver).2 with ⟨bytes, -, hsame⟩ | hsame
      · rw [hsame]
        exact Nat.le_add_right ..
      · rw [hsame]
    rw [cost_server]
    simp only at hleft hall hnow
    simp only [State.rank]
    omega
  | arrive bytes =>
    obtain ⟨⟨hpos, hwritten, -⟩, ht⟩ := Option.ite_none_right_eq_some.mp hact
    rw [← Option.some.inj ht]
    refine ⟨⟨hawake.server, hawake.client⟩, ?_⟩
    simp only [State.rank]
    omega
  | read bytesRead =>
    obtain ⟨hreading, hlt⟩ := read_rank h hs hawake hact
    exact ⟨hreading, Nat.lt_add_right _ hlt⟩
  | client a =>
    obtain ⟨client, hclient, rfl⟩ := Option.map_eq_some_iff.mp hact
    obtain ⟨hdone, hlt⟩ := (Shutdown.step_does hclient).rank hawake.client
    refine ⟨⟨hawake.server, hdone⟩, ?_⟩
    rw [cost_client]
    simp only [State.rank]
    omega

theorem awake_start (disk : Disk Path) : Awake (.start served disk) where
  server := by
    simp only [State.start, Served.start, h.transmitting, if_true]
    exact Transmission.awake_of_ne (by simp [Transmission.init]) (by simp [Transmission.init])
  client := Consumer.awake_init _

theorem rank_start (disk : Disk Path) :
    (State.start served disk).rank (wire setting.connection.protobuf sent).length ≤
      25 * (wire setting.connection.protobuf sent).length + 19 * sent.length + 23 := by
  have hcount : served.transmissionQueue.entries.length = sent.length := by
    have hmessages := congrArg List.length h.messages
    rwa [Served.messages, List.length_map, List.length_map] at hmessages
  have hle := cost_pushing served.transmissionQueue.entries
  have hending : (ending.map Instruction.cost).sum = 6 := rfl
  have hserver : served.start.rank ≤ 19 * sent.length + 11 := by
    simp only [Transmission.rank, Served.start, Transmission.init, Served.instructions,
      h.transmitting, if_true, List.map_append, List.sum_append, SynchronousQueue.empty,
      List.length_nil, Transmit.rank]
    omega
  have hclient : (Shutdown.State.init [] (.start disk)).rank = 12 := rfl
  simp only [State.rank, State.start, hclient]
  simp only [Served.start, Transmission.init, List.length_nil] at hserver ⊢
  omega

end

theorem cost_sum (es : List Event) : (es.map Event.cost).sum = 4 * es.countP Event.chance := by
  induction es with
  | nil => rfl
  | cons e es ih =>
    rw [List.map_cons, List.sum_cons, ih, List.countP_cons, Event.cost]
    cases e.chance with
    | false => simp
    | true =>
      simp only [Bool.toNat_true, if_true]
      omega

/-- A transfer takes so many steps for a byte and for a message, and a few for each
spurious wake-up. -/
theorem length_le (h : Dialogue setting.connection served sent) {es : List Event}
    (hrun : exec (step setting) (.start served disk) es = some s) :
    es.length ≤ 25 * (wire setting.connection.protobuf sent).length + 19 * sent.length + 23 +
      4 * es.countP Event.chance := by
  have hlower (s : State) (e : Event) (t : State)
      (hs : (∃ rest, Inv setting served sent (.start disk) s rest) ∧ Awake s)
      (hstep : step setting s e = some t) :
      ((∃ rest, Inv setting served sent (.start disk) t rest) ∧ Awake t) ∧
        t.rank (wire setting.connection.protobuf sent).length <
          s.rank (wire setting.connection.protobuf sent).length + e.cost := by
    obtain ⟨⟨rest, hs⟩, hawake⟩ := hs
    obtain ⟨hnext, hlt⟩ := step_rank h hs hawake hstep
    exact ⟨⟨inv_step h hs hstep, hnext⟩, hlt⟩
  have hle := exec_length_le_cost hlower ⟨⟨sent, inv_start h⟩, awake_start h disk⟩ hrun
  have hstart := rank_start h disk
  rw [cost_sum] at hle
  omega

/-- Every transfer comes to an end. No run is longer than its bytes, its messages and its spurious
wake-ups allow, and one that can go on by a spurious wake-up only has returned on both sides, with
every entry of the dialogue decompressed, once and in order. -/
theorem transfer_terminates (h : Dialogue setting.connection served sent)
    (hroom : 0 < setting.receiveBuffer) {d : Decompressor}
    (hall : decompressAll setting.session (.start disk) (entries sent) = .ok d) {es : List Event}
    (hrun : exec (step setting) (.start served disk) es = some s) :
    es.length ≤ 25 * (wire setting.connection.protobuf sent).length + 19 * sent.length + 23 +
        4 * es.countP Event.chance ∧
      (∀ x, s.reading ≠ .failed x) ∧
      ((∀ e, e.chance = false → step setting s e = none) →
        s.server.request = [] ∧ s.client.phase = .returned ∧
          s.client.decompression.target = d) := by
  obtain ⟨hreading, htarget, hprogress⟩ := transfer_completes h hroom hall (reachable_exec hrun)
  refine ⟨length_le h hrun, hreading, fun hstuck => ?_⟩
  have hreturned : ¬ (s.server.request ≠ [] ∨ s.client.phase ≠ .returned) := by
    intro hmore
    obtain ⟨e, hdue, he⟩ := hprogress hmore
    apply he
    apply hstuck
    cases e with
    | server e => cases e <;> first | rfl | exact absurd rfl hdue.1
    | client a => cases a <;> first | rfl | exact absurd rfl hdue.2
    | arrive | read => rfl
  rw [not_or, not_not, not_not] at hreturned
  exact ⟨hreturned.1, hreturned.2, htarget hreturned.2⟩

def sampleServed : Served where
  disk := fun _ => none
  transmissionQueue := ⟨(sampleSent 5 .COPY [1, 2, 3] [4, 5]).map fun meaning =>
    ⟨meaning, ⟨meaning.bytes protocolBuffers, (meaning.bytes protocolBuffers).length,
      (meaning.bytes protocolBuffers).length⟩⟩⟩
  transmitting := true

theorem sampleServed_dialogue :
    Dialogue sampleConnection sampleServed (sampleSent 5 .COPY [1, 2, 3] [4, 5]) where
  transmitting := rfl
  messages := by
    simp [sampleServed, Served.messages, sampleConnection, Buffer.contents, Function.comp_def]
  sendable := sampleSent_sendable 5 .COPY (List.cons_ne_nil 1 [2, 3]) (List.cons_ne_nil 4 [5])
  short meaning hmeaning := sampleSent_short _ (List.mem_map_of_mem hmeaning)
  whole := rfl

theorem copies_transferred : ∃ d : Decompressor,
    d.finished = [(ascii "out/a", [1, 2, 3, 4, 5])] ∧
    ∀ es s, exec (step ⟨sampleConnection, sampleSession, 1⟩)
        (.start sampleServed fun _ => none) es = some s →
      (∀ e, e.chance = false → step ⟨sampleConnection, sampleSession, 1⟩ s e = none) →
        s.client.decompression.target = d := by
  obtain ⟨d, hd, hfinished⟩ : ∃ d, decompressAll sampleSession (.start fun _ => none)
      (entries (sampleSent 5 .COPY [1, 2, 3] [4, 5])) = .ok d ∧
      d.finished = [(ascii "out/a", [1, 2, 3, 4, 5])] := ⟨_, rfl, rfl⟩
  refine ⟨d, hfinished, fun es s hrun hstuck => ?_⟩
  exact ((transfer_terminates sampleServed_dialogue Nat.one_pos hd hrun).2.2 hstuck).2.2

end WholeTransfer

end Autocomp

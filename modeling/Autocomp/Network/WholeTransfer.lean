import Autocomp.Network.Reception
import Autocomp.Network.Shutdown
import Autocomp.Network.Transmission

/-!
# A transfer from end to end

The two tasks that serve a request, the bytes between the two machines, and the two threads of the
client, all at once. The client's receive buffer is bounded, and the server's kernel keeps a byte
until the client's has acknowledged it. The transfer begins when the request is about to be answered,
and the network does not fail.
-/

namespace Autocomp.WholeTransfer

open ByteMemory FileStream Transition TCPSocket Client Server

/-- What stays the same during a transfer. -/
structure Setting where
  connection : Connection
  session : Session
  receiveBuffer : Nat

/-- The server, how many of the bytes it has written have arrived and how many of these the client has
read, where `requestFile` stands in its `receive` and in its loops, and what `shutdown` and the
decompression thread share with it. -/
structure State where
  server : Transmission
  arrived : Nat
  consumed : Nat
  reading : Reading
  awaiting : Awaiting
  client : Shutdown.State

def State.start (served : Served) (disk : Disk Path) : State where
  server := served.start
  arrived := 0
  consumed := 0
  reading := .receiving .size [] 4
  awaiting := .initial
  client := .init [] (.start disk)

/-- A step of the server, the arrival of bytes, a `read`, or a step of the client that
reads nothing. -/
inductive Event where
  | server (e : Server.Event)
  | arrive (bytes : Nat)
  | read (bytesRead : Nat)
  | client (a : Shutdown.Action)

namespace State

/-- `requestFile` has pushed and announced all it has received. -/
def idle (s : State) : Bool := s.client.unsent.isEmpty && !s.client.notifying

def ended (s : State) : Bool :=
  match s.reading with
  | .receiving .. => false
  | .failed _ | .done => true

/-- Bytes are acknowledged once they have arrived, and `requestFile` calls `shutdown` at its end. -/
def admits (s : State) : Event → Bool
  | .server (.drain bytes) => s.server.left + bytes ≤ s.arrived
  | .read _ => s.idle
  | .client .setDone => s.idle && s.ended
  | .server _ | .arrive _ | .client _ => true

/-- `_receive` has read all its bytes. What a message makes the client push is pushed next. -/
def finish (connection : Connection) (s : State) (buffer : ByteString) : Part → State
  | .size => { s with reading := .receiving .payload [] (hostSize buffer) }
  | .payload =>
    match receiveMessage connection ⟨s.awaiting, .empty⟩ buffer with
    | .error x => { s with reading := .failed x }
    | .ok r => { s with
        reading := if r.awaiting = .nothing then .done else .receiving .size [] 4
        awaiting := r.awaiting
        client := { s.client with unsent := s.client.unsent ++ r.decompressionQueue.entries } }

/-- A `read` gives a byte at least unless it is asked for none, or the server has closed the
connection and everything has been read. -/
def read (connection : Connection) (s : State) (bytesRead : Nat) : Option State :=
  match s.reading with
  | .failed _ | .done => none
  | .receiving part buffer bytesLeftToRead =>
    if bytesRead = 0 ∧ (bytesLeftToRead = 0 ∨
        (s.consumed = s.server.written.length ∧ s.server.request = [])) then
      some { s with reading := .failed (Client.orderlyShutdown connection) }
    else if 0 < bytesRead ∧ bytesRead ≤ bytesLeftToRead ∧ s.consumed + bytesRead ≤ s.arrived then
      let buffer := buffer ++ (s.server.written.drop s.consumed).take bytesRead
      let s := { s with consumed := s.consumed + bytesRead }
      if bytesLeftToRead - bytesRead = 0 then some (s.finish connection buffer part)
      else some { s with reading := .receiving part buffer (bytesLeftToRead - bytesRead) }
    else none

def act (setting : Setting) (s : State) : Event → Option State
  | .server e => (s.server.step e).map fun server => { s with server := server }
  | .arrive bytes =>
    if 0 < bytes ∧ s.arrived + bytes ≤ s.server.written.length ∧
        s.arrived + bytes ≤ s.consumed + setting.receiveBuffer then
      some { s with arrived := s.arrived + bytes }
    else none
  | .read bytesRead => s.read setting.connection bytesRead
  | .client a =>
    (Shutdown.step setting.session s.client a).map fun client => { s with client := client }

end State

def step (setting : Setting) : State → Event → Option State :=
  guarded (State.act setting) fun s e => s.admits e

/-- The header that waits for its chunk. -/
def unpushed : Awaiting → List Meaning
  | .chunk _ chunkHeader => [.header chunkHeader]
  | .initial | .header _ | .nothing => []

/-- The entries that the messages of `rest` are going to make. -/
def toPush (awaiting : Awaiting) (rest : List Meaning) : List DecompressionQueueEntry :=
  entries (unpushed awaiting ++ rest)

theorem bytes_ne_nil (protobuf : Protobuf) {awaiting next : Awaiting} {meaning : Meaning}
    (hsendable : Sendable meaning) (hnext : awaiting.next meaning = some next) :
    meaning.bytes protobuf ≠ [] := by
  cases meaning with
  | initial message => exact protobuf.fileInitialMessage.serialize_ne_nil message hsendable.1
  | header chunkHeader => exact protobuf.chunkHeader.serialize_ne_nil chunkHeader hsendable
  | chunk bytes => exact hsendable
  | error message => cases awaiting <;> simp [Awaiting.next] at hnext

theorem unpushed_afterChunk (message : FileInitialMessage) (chunkHeader : ChunkHeader) :
    unpushed (afterChunk message chunkHeader) = [] := by
  unfold afterChunk
  cases chunkHeader.lastChunk.getD false <;> cases message.lastFile.getD false <;> rfl

/-- A message that comes as the dialogue goes on is taken for what it is, and what is pushed next and
what is left to be pushed are what was left before. -/
theorem receiveMessage_toPush (connection : Connection) {awaiting next : Awaiting}
    {meaning : Meaning} (hsendable : Sendable meaning) (hnext : awaiting.next meaning = some next)
    (later : List Meaning) :
    ∃ r, receiveMessage connection ⟨awaiting, .empty⟩ (meaning.bytes connection.protobuf) = .ok r ∧
      r.awaiting = next ∧
      r.decompressionQueue.entries ++ toPush next later = toPush awaiting (meaning :: later) := by
  obtain ⟨r, hgo, hawaiting, -⟩ := receiveMessage_complete connection
    (r := ⟨awaiting, .empty⟩) hsendable hnext
  refine ⟨r, hgo, hawaiting, ?_⟩
  have hmore : awaiting ≠ .nothing := by
    rintro rfl
    simp [Awaiting.next] at hnext
  rcases receiveMessage_cases hgo hmore with ⟨m, rfl, -, rfl⟩ | ⟨m, chunkHeader, rfl, rfl⟩ |
      ⟨m, chunkHeader, rfl, rfl⟩
  · cases meaning <;> simp only [Awaiting.next, reduceCtorEq, Option.some.injEq] at hnext
    rw [← hnext, Awaiting.header.injEq] at hawaiting
    rw [← hnext, hawaiting]
    rfl
  · cases meaning <;> simp only [Awaiting.next, reduceCtorEq, Option.some.injEq] at hnext
    rw [← hnext, Awaiting.chunk.injEq] at hawaiting
    rw [← hnext, hawaiting.2]
    rfl
  · cases meaning <;> simp only [Awaiting.next, reduceCtorEq, Option.some.injEq] at hnext
    rw [← hnext, toPush, unpushed_afterChunk]
    rfl

/-- The request leaves a whole dialogue, message by message. -/
structure Dialogue (connection : Connection) (served : Served) (sent : List Meaning) : Prop where
  transmitting : served.transmitting = true
  messages : served.messages = sent.map (·.bytes connection.protobuf)
  sendable : ∀ meaning ∈ sent, Sendable meaning
  short : ∀ meaning ∈ sent, (meaning.bytes connection.protobuf).length < 2 ^ 32
  whole : exec Awaiting.next .initial sent = some .nothing

def wire (protobuf : Protobuf) (sent : List Meaning) : List Byte :=
  sent.flatMap fun meaning => frame (meaning.bytes protobuf)

/-- `requestFile` is inside a part of the first message of `rest`, and what it has read of that and
what is unread are that part, what follows it and the other messages. -/
def At (protobuf : Protobuf) (unread : List Byte) (rest : List Meaning) : Reading → Prop
  | .failed _ => False
  | .done => rest = [] ∧ unread = []
  | .receiving part buffer left => 0 < left ∧ ∃ (e : Exchange) (meaning : Meaning)
      (later : List Meaning), rest = meaning :: later ∧ e.message = meaning.bytes protobuf ∧
      buffer.length + left = (part.expected e).length ∧
      buffer ++ unread = part.expected e ++ (part.after e ++ wire protobuf later)

/-- `c` once all that is still to come has been received. -/
def withMore (c : Shutdown.State) (more : List DecompressionQueueEntry) : Shutdown.State :=
  { c with unsent := c.unsent ++ more }

/-- `rest` has not been received. The counts are in order, the server is as it would be alone, and so
is the client once the rest has been received. -/
structure Inv (setting : Setting) (served : Served) (sent : List Meaning) (d₀ : Decompressor)
    (s : State) (rest : List Meaning) : Prop where
  server : Reachable Transmission.step served.start s.server
  client : Runs (Shutdown.step setting.session) Shutdown.OnceReceived (.init (entries sent) d₀)
    (withMore s.client (toPush s.awaiting rest))
  dialogue : exec Awaiting.next s.awaiting rest = some .nothing
  part : rest <:+ sent
  left_le : s.server.left ≤ s.arrived
  arrived_le : s.arrived ≤ s.server.written.length
  consumed_le : s.consumed ≤ s.arrived
  atRest : At setting.connection.protobuf
    ((wire setting.connection.protobuf sent).drop s.consumed) rest s.reading

variable {setting : Setting} {served : Served} {sent rest : List Meaning} {d₀ : Decompressor}
  {disk : Disk Path} {s t : State}

theorem wire_cons (protobuf : Protobuf) (meaning : Meaning) (later : List Meaning) :
    wire protobuf (meaning :: later) = frame (meaning.bytes protobuf) ++ wire protobuf later :=
  List.flatMap_cons

theorem at_next {connection : Connection} {awaiting : Awaiting} {rest : List Meaning}
    (hshort : ∀ meaning ∈ rest, (meaning.bytes connection.protobuf).length < 2 ^ 32)
    (hdialogue : exec Awaiting.next awaiting rest = some .nothing) :
    At connection.protobuf (wire connection.protobuf rest) rest
      (if awaiting = .nothing then .done else .receiving .size [] 4) := by
  cases rest with
  | nil =>
    rw [if_pos (Option.some.inj hdialogue)]
    exact ⟨rfl, rfl⟩
  | cons meaning later =>
    have hmore : awaiting ≠ .nothing := by
      rintro rfl
      simp [exec, Awaiting.next] at hdialogue
    rw [if_neg hmore]
    refine ⟨by omega, ⟨meaning.bytes connection.protobuf, hshort meaning (by simp), .vector⟩,
      meaning, later, rfl, rfl, rfl, ?_⟩
    rw [wire_cons, frame, List.append_assoc]
    rfl

theorem inv_start (h : Dialogue setting.connection served sent) :
    Inv setting served sent (.start disk) (.start served disk) sent where
  server := .start
  client := .start
  dialogue := h.whole
  part := List.suffix_refl _
  left_le := by
    rw [State.start, Served.start]
    exact Nat.le_refl _
  arrived_le := Nat.zero_le _
  consumed_le := Nat.le_refl _
  atRest := at_next h.short h.whole

section

variable (h : Dialogue setting.connection served sent)

include h

theorem Inv.orderly (hs : Inv setting served sent d₀ s rest) : s.server.Orderly := by
  have hreach := hs.server
  rw [Served.start, Served.instructions, if_pos h.transmitting, if_pos h.transmitting] at hreach
  exact Transmission.orderly_reachable (Transmission.pushing_phase _) hreach

theorem Inv.stream (hs : Inv setting served sent d₀ s rest) :
    s.server.stream = wire setting.connection.protobuf sent := by
  have hreach := hs.server
  rw [Served.start, if_pos h.transmitting] at hreach
  rw [Transmission.stream_reachable rfl hreach, Served.pushes_instructions, h.messages,
    List.flatMap_map]
  rfl

theorem Inv.written (hs : Inv setting served sent d₀ s rest) :
    s.server.written <+: wire setting.connection.protobuf sent := by
  rw [← hs.stream h]
  exact List.prefix_append _ _

theorem Inv.written_returned (hs : Inv setting served sent d₀ s rest)
    (hreturned : s.server.request = []) :
    s.server.written = wire setting.connection.protobuf sent := by
  rw [← (hs.orderly h).written hreturned, hs.stream h]

end

theorem transmitStep_written {s t : Transmission} (h : s.transmitStep = some t) :
    t.written = s.written ∧ t.left = s.left := by
  unfold Transmission.transmitStep at h
  cases htransmit : s.transmit <;> simp only [htransmit, reduceCtorEq, Option.some.injEq] at h
  case testing dequeued =>
    cases dequeued <;> simp only [Option.some.injEq] at h <;> rw [← h] <;> exact ⟨rfl, rfl⟩
  all_goals
    rw [← h]
    exact ⟨rfl, rfl⟩

theorem server_written {s t : Transmission} {e : Server.Event} (h : s.step e = some t) :
    s.written <+: t.written ∧ ((∃ bytes, e = .drain bytes ∧ t.left = s.left + bytes) ∨
      t.left = s.left) := by
  cases e with
  | request =>
    rcases Transmission.requestStep_cases h with ⟨message, rest, -, rfl⟩ | ⟨rest, -, rfl⟩ |
      ⟨rest, -, -, rfl⟩ | ⟨rest, -, -, rfl⟩ <;> exact ⟨List.prefix_refl _, .inr rfl⟩
  | transmit =>
    obtain ⟨hwritten, hleft⟩ := transmitStep_written h
    rw [hwritten]
    exact ⟨List.prefix_refl _, .inr hleft⟩
  | clock elapsed =>
    obtain ⟨message, done, -, rfl⟩ := Transmission.step_clock h
    exact ⟨List.prefix_refl _, .inr rfl⟩
  | write bytesSent =>
    obtain ⟨current, size, unsent, done, bytes, rest, -, -, -, rfl⟩ := Transmission.step_write h
    split
    · cases current <;> exact ⟨List.prefix_append _ _, .inr rfl⟩
    · exact ⟨List.prefix_append _ _, .inr rfl⟩
  | spurious =>
    obtain ⟨-, rfl⟩ := Transmission.step_spurious h
    exact ⟨List.prefix_refl _, .inr rfl⟩
  | drain bytes =>
    obtain ⟨-, rfl⟩ := Transmission.step_drain h
    exact ⟨List.prefix_refl _, .inl ⟨bytes, rfl, rfl⟩⟩

theorem Inv.serve (hs : Inv setting served sent d₀ s rest) {e : Server.Event}
    (hadmits : s.admits (.server e) = true) {server : Transmission}
    (h : s.server.step e = some server) :
    Inv setting served sent d₀ { s with server := server } rest where
  server := hs.server.next trivial h
  client := hs.client
  dialogue := hs.dialogue
  part := hs.part
  left_le := by
    rcases (server_written h).2 with ⟨bytes, rfl, hleft⟩ | hleft
    · simp only [State.admits, decide_eq_true_eq] at hadmits
      rw [hleft]
      exact hadmits
    · rw [hleft]
      exact hs.left_le
  arrived_le := Nat.le_trans hs.arrived_le (server_written h).1.length_le
  consumed_le := hs.consumed_le
  atRest := hs.atRest

theorem does_withMore {session : Session} {c c' : Shutdown.State} {a : Shutdown.Action}
    (more : List DecompressionQueueEntry) (h : Shutdown.step session c a = some c') :
    Shutdown.step session (withMore c more) a = some (withMore c' more) := by
  cases Shutdown.step_does h with
  | @push entry unsent d hunsent hc =>
    cases hnotifying : c.notifying with
    | false =>
      simp only [Shutdown.step, withMore, hunsent, hnotifying, List.cons_append,
        Shutdown.State.share, hc, Option.map_some]
    | true => simp [Shutdown.step, hunsent, hnotifying] at h
  | notifyOne hnotifying hc =>
    simp only [Shutdown.step, withMore, hnotifying, if_true, Shutdown.State.share, hc,
      Option.map_some]
  | setDone hphase hc | notifyAll hphase hc =>
    simp only [Shutdown.step, withMore, hphase, if_true, Shutdown.State.share, hc,
      Option.map_some]
  | join hphase hexited => simp only [Shutdown.step, withMore, hphase, hexited]
  | decompress hc | spurious hc =>
    simp only [Shutdown.step, withMore, Shutdown.State.share, hc, Option.map_some]

theorem Inv.ended (hs : Inv setting served sent d₀ s rest) (hended : s.ended = true) :
    s.reading = .done ∧ rest = [] ∧ toPush s.awaiting rest = [] := by
  have hat := hs.atRest
  cases hreading : s.reading with
  | receiving =>
    rw [State.ended, hreading] at hended
    contradiction
  | failed x =>
    rw [hreading] at hat
    exact hat.elim
  | done =>
    rw [hreading] at hat
    have hrest : rest = [] := hat.1
    have hdialogue := hs.dialogue
    rw [hrest] at hdialogue
    rw [hrest, Option.some.inj hdialogue]
    exact ⟨rfl, rfl, rfl⟩

theorem Inv.act (hs : Inv setting served sent d₀ s rest) {a : Shutdown.Action}
    (hadmits : s.admits (.client a) = true) {client : Shutdown.State}
    (h : Shutdown.step setting.session s.client a = some client) :
    Inv setting served sent d₀ { s with client := client } rest where
  server := hs.server
  client := by
    refine hs.client.next ?_ (does_withMore _ h)
    rintro rfl
    simp only [State.admits, Bool.and_eq_true, State.idle] at hadmits
    rw [withMore, (hs.ended hadmits.2).2.2, List.append_nil]
    exact List.isEmpty_iff.mp hadmits.1.1
  dialogue := hs.dialogue
  part := hs.part
  left_le := hs.left_le
  arrived_le := hs.arrived_le
  consumed_le := hs.consumed_le
  atRest := hs.atRest

theorem read_cases {connection : Connection} {bytesRead : Nat}
    (h : s.read connection bytesRead = some t) :
    ∃ part buffer left, s.reading = .receiving part buffer left ∧
      ((bytesRead = 0 ∧
          (left = 0 ∨ (s.consumed = s.server.written.length ∧ s.server.request = [])) ∧
          t = { s with reading := .failed (Client.orderlyShutdown connection) }) ∨
        (0 < bytesRead ∧ bytesRead ≤ left ∧ s.consumed + bytesRead ≤ s.arrived ∧
          t = if left - bytesRead = 0 then
              ({ s with consumed := s.consumed + bytesRead } : State).finish connection
                (buffer ++ (s.server.written.drop s.consumed).take bytesRead) part
            else { s with
              consumed := s.consumed + bytesRead
              reading := .receiving part
                (buffer ++ (s.server.written.drop s.consumed).take bytesRead)
                (left - bytesRead) })) := by
  unfold State.read at h
  split at h
  · contradiction
  · contradiction
  · rename_i part buffer left hreading
    refine ⟨part, buffer, left, hreading, ?_⟩
    split at h
    · rename_i hend
      rw [Option.some.injEq] at h
      exact .inl ⟨hend.1, hend.2, h.symm⟩
    · split at h
      · rename_i hcount
        refine .inr ⟨hcount.1, hcount.2.1, hcount.2.2, ?_⟩
        split at h
        · rename_i hlast
          rw [Option.some.injEq] at h
          rw [if_pos hlast, h]
        · rename_i hmore
          rw [Option.some.injEq] at h
          rw [if_neg hmore, h]
      · contradiction

theorem take_drop_written {written whole : List Byte} (h : written <+: whole) {k n : Nat}
    (hle : k + n ≤ written.length) : (written.drop k).take n = (whole.drop k).take n := by
  obtain ⟨unwritten, rfl⟩ := h
  rw [List.drop_append_of_le_length (by omega), List.take_append_of_le_length]
  rw [List.length_drop]
  omega

theorem Inv.finish (h : Dialogue setting.connection served sent) {meaning : Meaning}
    {later : List Meaning} (hs : Inv setting served sent d₀ s (meaning :: later)) {n : Nat}
    (hn : s.consumed + n ≤ s.arrived) {e : Exchange}
    (he : e.message = meaning.bytes setting.connection.protobuf) (part : Part)
    (hunread : (wire setting.connection.protobuf sent).drop (s.consumed + n) =
      part.after e ++ wire setting.connection.protobuf later) :
    ∃ rest, Inv setting served sent d₀
      (({ s with consumed := s.consumed + n } : State).finish setting.connection (part.expected e)
        part) rest := by
  have hmeaning : meaning ∈ sent := hs.part.subset (List.mem_cons_self ..)
  obtain ⟨next, hnext, hdialogue⟩ := Option.bind_eq_some_iff.mp hs.dialogue
  cases part with
  | size =>
    use meaning :: later
    constructor
    · exact hs.server
    · exact hs.client
    · exact hs.dialogue
    · exact hs.part
    · exact hs.left_le
    · exact hs.arrived_le
    · exact hn
    · have hsize : hostSize (networkBytes e.message.length) = e.message.length :=
        hostSize_networkBytes e.small
      have hpos : 0 < e.message.length := by
        rw [he]
        exact List.length_pos_of_ne_nil (bytes_ne_nil _ (h.sendable meaning hmeaning) hnext)
      change At _ _ _ (.receiving .payload [] (hostSize (networkBytes e.message.length)))
      rw [hsize]
      refine ⟨hpos, e, meaning, later, rfl, he, Nat.zero_add _, ?_⟩
      exact hunread
  | payload =>
    obtain ⟨r, hgo, hawaiting, hpush⟩ := receiveMessage_toPush setting.connection
      (h.sendable meaning hmeaning) hnext later
    have hlater : later <:+ sent := (List.suffix_cons meaning later).trans hs.part
    use later
    simp only [State.finish, Part.expected, he, hgo]
    constructor
    · exact hs.server
    · have hclient := hs.client
      rw [← hpush, ← hawaiting] at hclient
      simpa only [withMore, List.append_assoc] using hclient
    · rw [hawaiting]
      exact hdialogue
    · exact hlater
    · exact hs.left_le
    · exact hs.arrived_le
    · exact hn
    · change At _ ((wire setting.connection.protobuf sent).drop (s.consumed + n)) _ _
      rw [hunread, Part.after, List.nil_append, hawaiting]
      exact at_next (fun m hm => h.short m (hlater.subset hm)) hdialogue

theorem Inv.read (h : Dialogue setting.connection served sent)
    (hs : Inv setting served sent d₀ s rest) {bytesRead : Nat}
    (hstep : s.read setting.connection bytesRead = some t) :
    ∃ rest, Inv setting served sent d₀ t rest := by
  obtain ⟨part, buffer, left, hreading, hcases⟩ := read_cases hstep
  have hat := hs.atRest
  rw [hreading] at hat
  obtain ⟨hleft, e, meaning, later, rfl, he, hlength, hbytes⟩ := hat
  rcases hcases with ⟨-, hend, -⟩ | ⟨hpos, hle, harrived, ht⟩
  · -- the server closes the connection when everything has been read
    exfalso
    rcases hend with hzero | ⟨hall, hreturned⟩
    · omega
    · rw [hall, hs.written_returned h hreturned, List.drop_length, List.append_nil] at hbytes
      have hshort := congrArg List.length hbytes
      rw [List.length_append] at hshort
      omega
  · have hwritten := Nat.le_trans harrived hs.arrived_le
    rw [ht, take_drop_written (hs.written h) hwritten]
    have hfits : bytesRead ≤
        ((wire setting.connection.protobuf sent).drop s.consumed).length := by
      have hall := (hs.written h).length_le
      rw [List.length_drop]
      omega
    split
    · obtain ⟨hread, hunread⟩ := append_cut hfits hbytes (by omega)
      rw [List.drop_drop] at hunread
      rw [hread]
      exact hs.finish h harrived he part hunread
    · use meaning :: later
      constructor
      · exact hs.server
      · exact hs.client
      · exact hs.dialogue
      · exact hs.part
      · exact hs.left_le
      · exact hs.arrived_le
      · exact harrived
      · refine ⟨by omega, e, meaning, later, rfl, he, ?_, ?_⟩
        · rw [List.length_append, List.length_take, Nat.min_eq_left hfits]
          omega
        · rw [List.append_assoc, ← List.drop_drop, List.take_append_drop]
          exact hbytes

theorem inv_step (h : Dialogue setting.connection served sent)
    (hs : Inv setting served sent d₀ s rest) {e : Event} (hstep : step setting s e = some t) :
    ∃ rest, Inv setting served sent d₀ t rest := by
  obtain ⟨hadmits, hact⟩ := Option.ite_none_right_eq_some.mp hstep
  cases e with
  | server e =>
    obtain ⟨server, hserver, rfl⟩ := Option.map_eq_some_iff.mp hact
    exact ⟨rest, hs.serve hadmits hserver⟩
  | arrive bytes =>
    obtain ⟨⟨-, hwritten, -⟩, ht⟩ := Option.ite_none_right_eq_some.mp hact
    rw [← Option.some.inj ht]
    exact ⟨rest, hs.server, hs.client, hs.dialogue, hs.part,
      Nat.le_trans hs.left_le (Nat.le_add_right ..), hwritten,
      Nat.le_trans hs.consumed_le (Nat.le_add_right ..), hs.atRest⟩
  | read bytesRead => exact hs.read h hact
  | client a =>
    obtain ⟨client, hclient, rfl⟩ := Option.map_eq_some_iff.mp hact
    exact ⟨rest, hs.act hadmits hclient⟩

theorem inv_reachable (h : Dialogue setting.connection served sent)
    (hrun : Reachable (step setting) (.start served disk) s) :
    ∃ rest, Inv setting served sent (.start disk) s rest := by
  apply hrun.invariant fun s => ∃ rest, Inv setting served sent (.start disk) s rest
  · exact ⟨sent, inv_start h⟩
  · intro s e t hs _ hstep
    obtain ⟨rest, hs⟩ := hs
    exact inv_step h hs hstep

/-- What is not left to chance. -/
def Event.Due (e : Event) : Prop := e ≠ .server .spurious ∧ e ≠ .client .spurious

theorem step_ne_none {e : Event} (hadmits : s.admits e = true) (hact : s.act setting e ≠ none) :
    step setting s e ≠ none := by
  rwa [step, guarded, if_pos hadmits]

theorem push_progress (hbusy : s.idle = false) : ∃ e, e.Due ∧ step setting s e ≠ none := by
  have hshare (s : Shutdown.State) (a : Consumer.Action DecompressionQueueEntry)
      (h : Consumer.step (Shutdown.process setting.session) s.decompression a ≠ none) :
      s.share setting.session a ≠ none := Shutdown.share_ne_none h
  cases hnotifying : s.client.notifying with
  | true =>
    refine ⟨.client .notifyOne, ⟨by simp, by simp⟩, step_ne_none rfl ?_⟩
    simp only [State.act, Shutdown.step, hnotifying, if_true, ne_eq, Option.map_eq_none_iff]
    apply hshare
    exact Option.some_ne_none _
  | false =>
    cases hunsent : s.client.unsent with
    | nil => simp [State.idle, hnotifying, hunsent] at hbusy
    | cons entry unsent =>
      refine ⟨.client .push, ⟨by simp, by simp⟩, step_ne_none rfl ?_⟩
      simp only [State.act, Shutdown.step, hnotifying, hunsent, ne_eq, Option.map_eq_none_iff]
      apply hshare
      exact Option.some_ne_none _

theorem server_ne_none {e : Server.Event} (hadmits : s.admits (.server e) = true)
    (h : s.server.step e ≠ none) : step setting s (.server e) ≠ none :=
  step_ne_none hadmits (Option.map_eq_none_iff.not.mpr h)

section

variable (h : Dialogue setting.connection served sent) (hroom : 0 < setting.receiveBuffer)

include h hroom

/-- Bytes that have been written and not read can be moved on, or the client has something to push. -/
theorem Inv.receive_progress (hs : Inv setting served sent d₀ s rest)
    (hunread : s.consumed < s.server.written.length) :
    ∃ e, e.Due ∧ step setting s e ≠ none := by
  cases hidle : s.idle with
  | false => exact push_progress hidle
  | true =>
    by_cases harrived : s.consumed < s.arrived
    · have hat := hs.atRest
      cases hreading : s.reading with
      | failed x =>
        rw [hreading] at hat
        exact hat.elim
      | done =>
        rw [hreading] at hat
        have hall := List.drop_eq_nil_iff.mp hat.2
        have hle := (hs.written h).length_le
        omega
      | receiving part buffer left =>
        rw [hreading] at hat
        refine ⟨.read 1, ⟨by simp, by simp⟩, step_ne_none hidle ?_⟩
        simp only [State.act, State.read, hreading, ne_eq]
        rw [if_neg (by simp), if_pos ⟨Nat.one_pos, hat.1, harrived⟩]
        split <;> simp
    · refine ⟨.arrive 1, ⟨by simp, by simp⟩, step_ne_none rfl ?_⟩
      have hconsumed := hs.consumed_le
      simp only [State.act, ne_eq]
      rw [if_pos ⟨Nat.one_pos, by omega, by omega⟩]
      simp

theorem Inv.server_progress (hs : Inv setting served sent d₀ s rest)
    (hmore : s.server.request ≠ []) : ∃ e, e.Due ∧ step setting s e ≠ none := by
  obtain ⟨e, hdue, he⟩ := (hs.orderly h).progress hmore
  obtain ⟨server, hserver⟩ := Option.ne_none_iff_exists'.mp he
  cases e with
  | drain bytes =>
    by_cases hleft : s.server.left < s.arrived
    · refine ⟨.server (.drain 1), ⟨by simp, by simp⟩, step_ne_none ?_ ?_⟩
      · simp only [State.admits, decide_eq_true_eq]
        omega
      · have harrived := hs.arrived_le
        simp only [State.act, Transmission.step, ne_eq]
        rw [if_pos ⟨Nat.one_pos, by omega⟩]
        simp
    · obtain ⟨⟨hpos, hwritten⟩, -⟩ := Option.ite_none_right_eq_some.mp hserver
      have hconsumed := hs.consumed_le
      have hleft_le := hs.left_le
      exact hs.receive_progress h hroom (by omega)
  | spurious => exact absurd rfl hdue
  | request => exact ⟨.server .request, ⟨by simp, by simp⟩, server_ne_none rfl he⟩
  | transmit => exact ⟨.server .transmit, ⟨by simp, by simp⟩, server_ne_none rfl he⟩
  | clock elapsed => exact ⟨.server (.clock elapsed), ⟨by simp, by simp⟩, server_ne_none rfl he⟩
  | write bytesSent =>
    exact ⟨.server (.write bytesSent), ⟨by simp, by simp⟩, server_ne_none rfl he⟩

/-- When the request has returned, the client can go on until `shutdown` has returned, unless an
exception leaves the decompression thread. -/
theorem Inv.client_progress {d : Decompressor}
    (hall : decompressAll setting.session d₀ (entries sent) = .ok d)
    (hs : Inv setting served sent d₀ s rest) (hreturned : s.server.request = [])
    (hmore : s.client.phase ≠ .returned) : ∃ e, e.Due ∧ step setting s e ≠ none := by
  cases hidle : s.idle with
  | false => exact push_progress hidle
  | true =>
    have hat := hs.atRest
    cases hreading : s.reading with
    | failed x =>
      rw [hreading] at hat
      exact hat.elim
    | receiving part buffer left =>
      rw [hreading] at hat
      obtain ⟨hleft, e, meaning, later, -, -, hlength, hbytes⟩ := hat
      apply hs.receive_progress h hroom
      have hcount := congrArg List.length hbytes
      rw [List.length_append, List.length_append, List.length_drop] at hcount
      rw [hs.written_returned h hreturned]
      omega
    | done =>
      have hended : s.ended = true := by rw [State.ended, hreading]
      have hsame : withMore s.client (toPush s.awaiting rest) = s.client := by
        rw [(hs.ended hended).2.2, withMore, List.append_nil]
      have hclient := Shutdown.inv_reachable (hs.client.mono fun _ _ _ => trivial)
      rw [hsame] at hclient
      have hpushed := hclient.pushed
      rw [← hpushed] at hall
      obtain ⟨next, hnext, -⟩ := decompressAll_split hall
      obtain ⟨a, ha, hgo⟩ := hclient.progress hnext hmore
      refine ⟨.client a, ⟨by simp, ?_⟩, step_ne_none ?_ ?_⟩
      · rintro heq
        rw [Event.client.injEq] at heq
        simp [heq] at ha
      · cases a with
        | setDone => simp [State.admits, hidle, hended]
        | _ => rfl
      · exact Option.map_eq_none_iff.not.mpr hgo

end

/-- In every run of the two machines no `receive` fails; when `shutdown` has returned, the entries of
the dialogue have been decompressed, each once and in order; and until it and the request have
returned, something can happen that is not left to chance. -/
theorem transfer_completes (h : Dialogue setting.connection served sent)
    (hroom : 0 < setting.receiveBuffer) {d : Decompressor}
    (hall : decompressAll setting.session (.start disk) (entries sent) = .ok d)
    (hrun : Reachable (step setting) (.start served disk) s) :
    (∀ x, s.reading ≠ .failed x) ∧
    (s.client.phase = .returned → s.client.decompression.target = d) ∧
    (s.server.request ≠ [] ∨ s.client.phase ≠ .returned →
      ∃ e, e.Due ∧ step setting s e ≠ none) := by
  obtain ⟨rest, hs⟩ := inv_reachable h hrun
  refine ⟨fun x hfailed => ?_, fun hreturned => ?_, fun hmore => ?_⟩
  · have hat := hs.atRest
    rw [hfailed] at hat
    exact hat
  · have hgo := handed_over (Shutdown.refines hs.client) (decide_eq_true hreturned)
    rw [hall, Except.ok.injEq] at hgo
    exact hgo.symm
  · by_cases hserver : s.server.request = []
    · exact hs.client_progress h hroom hall hserver (hmore.resolve_left (not_not_intro hserver))
    · exact hs.server_progress h hroom hserver

end Autocomp.WholeTransfer

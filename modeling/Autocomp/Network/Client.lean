import Autocomp.Lib.Transition
import Autocomp.Network.Chunks

/-!
# Receiving the files of a request

The receive loops of `Client::requestFile`, one message at a time. A message carries no type: what
the client takes it for depends on where the loops stand.
-/

namespace Autocomp.Client

open Server (Meaning)

structure DecompressionQueueEntry where
  fileInitialMessage : FileInitialMessage
  chunkHeader : ChunkHeader
  chunk : Buffer
  deriving DecidableEq

/-- What the loops are about to receive; `nothing` once they have ended. -/
inductive Awaiting where
  | initial
  | header (fileInitialMessage : FileInitialMessage)
  | chunk (fileInitialMessage : FileInitialMessage) (chunkHeader : ChunkHeader)
  | nothing
  deriving DecidableEq

structure Receiver where
  awaiting : Awaiting
  decompressionQueue : SynchronousQueue DecompressionQueueEntry

def Receiver.start : Receiver := ⟨.initial, .empty⟩

/-- The server the client is connected to: the library's formats and the host and port. -/
structure Connection where
  protobuf : Protobuf
  peer : ByteString

/-- `TCPSocket::_receive` takes a read of no bytes for the end of the connection. -/
def orderlyShutdown (connection : Connection) : Exn :=
  .networkError (ascii "Error receiving data from " ++ connection.peer ++
    ascii ": the peer has performed an orderly shutdown")

/-- `TCPSocket::receive` of a message into a buffer. -/
def receiveBuffer (message : ByteString) (buffer : Buffer) : Except Exn Buffer :=
  let buffer :=
    if buffer.capacity < message.length then buffer.resize message.length else buffer
  (buffer.overwrite message).setSize message.length

/-- `deserializeAndCheckMessage`, with the exception thrown when it returns false. -/
def deserializeAndCheckMessage {M : Type} [Message M] (connection : Connection)
    (format : MessageFormat M) (invalid message : ByteString) : Except Exn M :=
  match format.deserialize message with
  | some m => .ok m
  | none =>
    match connection.protobuf.errorMessage.deserialize message with
    | some error => .error (.networkError (error.message.getD []))
    | none => .error (.networkError invalid)

def afterChunk (fileInitialMessage : FileInitialMessage) (chunkHeader : ChunkHeader) : Awaiting :=
  if chunkHeader.lastChunk.getD false then
    if fileInitialMessage.lastFile.getD false then .nothing else .initial
  else .header fileInitialMessage

def receiveMessage (connection : Connection) (r : Receiver) (message : ByteString) :
    Except Exn Receiver :=
  if message = [] then .error (orderlyShutdown connection)
  else
    match r.awaiting with
    | .initial =>
      match deserializeAndCheckMessage connection connection.protobuf.fileInitialMessage
        (ascii "Received invalid file initial message from server") message with
      | .error x => .error x
      | .ok fileInitialMessage =>
        .ok ⟨.header fileInitialMessage,
          r.decompressionQueue.push ⟨fileInitialMessage, Message.empty, .empty⟩⟩
    | .header fileInitialMessage =>
      match deserializeAndCheckMessage connection connection.protobuf.chunkHeader
        (ascii "Received invalid chunk header from server") message with
      | .error x => .error x
      | .ok chunkHeader => .ok { r with awaiting := .chunk fileInitialMessage chunkHeader }
    | .chunk fileInitialMessage chunkHeader =>
      match receiveBuffer message .empty with
      | .error x => .error x
      | .ok chunk =>
        .ok ⟨afterChunk fileInitialMessage chunkHeader,
          r.decompressionQueue.push ⟨Message.empty, chunkHeader, chunk⟩⟩
    | .nothing => .ok r

inductive Outcome where
  | waiting (r : Receiver)
  | returned (decompressionQueue : SynchronousQueue DecompressionQueueEntry)
      (unread : List ByteString)
  | failed (x : Exn)

/-- `requestFile` from the first reply on. -/
def requestFile (connection : Connection) (r : Receiver) : List ByteString → Outcome
  | [] => if r.awaiting = .nothing then .returned r.decompressionQueue [] else .waiting r
  | message :: messages =>
    if r.awaiting = .nothing then .returned r.decompressionQueue (message :: messages)
    else
      match receiveMessage connection r message with
      | .error x => .failed x
      | .ok r => requestFile connection r messages

/-- The messages an entry stands for; the decompression thread tells entries apart in this way. -/
def DecompressionQueueEntry.meanings (entry : DecompressionQueueEntry) : List Meaning :=
  if Message.isInitialized entry.fileInitialMessage then [.initial entry.fileInitialMessage]
  else [.header entry.chunkHeader, .chunk entry.chunk.contents]

/-- The client returns with all messages read, each taken for what it was meant to be. -/
def Accepts (connection : Connection) (sent : List Meaning) (messages : List ByteString) : Prop :=
  ∃ queue, requestFile connection .start messages = .returned queue [] ∧
    queue.entries.flatMap DecompressionQueueEntry.meanings = sent

/-- The dialogue: which message may come next, and what is awaited after it. -/
def Awaiting.next : Awaiting → Meaning → Option Awaiting
  | .initial, .initial message => some (.header message)
  | .header message, .header chunkHeader => some (.chunk message chunkHeader)
  | .chunk message chunkHeader, .chunk _ => some (afterChunk message chunkHeader)
  | _, _ => none

def Receiver.meanings (r : Receiver) : List Meaning :=
  r.decompressionQueue.entries.flatMap DecompressionQueueEntry.meanings ++
    match r.awaiting with
    | .chunk _ chunkHeader => [.header chunkHeader]
    | .initial | .header _ | .nothing => []

/-- A message that can be told from an error and from the end of the connection. -/
def Sendable : Meaning → Prop
  | .initial message =>
    Message.isInitialized message = true ∧ ∀ s ∈ Message.strings message, s.length < 2 ^ 31
  | .header chunkHeader => Message.isInitialized chunkHeader = true
  | .chunk bytes => bytes ≠ []
  | .error _ => True

theorem meanings_initial {message : FileInitialMessage} {chunkHeader : ChunkHeader} {chunk : Buffer}
    (h : Message.isInitialized message = true) :
    DecompressionQueueEntry.meanings ⟨message, chunkHeader, chunk⟩ = [.initial message] := by
  rw [DecompressionQueueEntry.meanings, if_pos h]

theorem meanings_chunk (chunkHeader : ChunkHeader) (chunk : Buffer) :
    DecompressionQueueEntry.meanings ⟨Message.empty, chunkHeader, chunk⟩ =
      [.header chunkHeader, .chunk chunk.contents] :=
  rfl

theorem receiveBuffer_empty (message : ByteString) :
    receiveBuffer message .empty = .ok ⟨message, message.length, message.length⟩ := by
  have hresize : (if Buffer.empty.capacity < message.length then
      Buffer.empty.resize message.length else Buffer.empty) =
      ⟨List.replicate message.length 0, message.length, 0⟩ := by
    by_cases h : message = []
    · subst h
      rfl
    · have hpos : Buffer.empty.capacity < message.length := List.length_pos_iff.mpr h
      rw [if_pos hpos, Buffer.resize, if_neg (by simp [Buffer.empty])]
      simp [Buffer.empty, Buffer.resizeVector]
  simp [receiveBuffer, hresize, Buffer.overwrite, Buffer.setSize]

theorem afterChunk_meanings (message : FileInitialMessage) (chunkHeader : ChunkHeader)
    (queue : SynchronousQueue DecompressionQueueEntry) :
    (⟨afterChunk message chunkHeader, queue⟩ : Receiver).meanings =
      queue.entries.flatMap DecompressionQueueEntry.meanings := by
  unfold Receiver.meanings afterChunk
  cases chunkHeader.lastChunk.getD false <;> cases message.lastFile.getD false <;> simp

section

variable {connection : Connection} {r r' : Receiver} {message : ByteString}

theorem deserialize_of_check {M : Type} [Message M] {format : MessageFormat M}
    {invalid : ByteString} {m : M}
    (h : deserializeAndCheckMessage connection format invalid message = .ok m) :
    format.deserialize message = some m := by
  unfold deserializeAndCheckMessage at h
  split at h
  · rename_i m' hm
    rw [Except.ok.injEq] at h
    rw [hm, h]
  · split at h <;> contradiction

theorem receiveMessage_cases (h : receiveMessage connection r message = .ok r')
    (hawaiting : r.awaiting ≠ .nothing) :
    (∃ m, r.awaiting = .initial ∧ Message.isInitialized m = true ∧
      r' = ⟨.header m, r.decompressionQueue.push ⟨m, Message.empty, .empty⟩⟩) ∨
    (∃ m chunkHeader, r.awaiting = .header m ∧ r' = { r with awaiting := .chunk m chunkHeader }) ∨
    ∃ m chunkHeader, r.awaiting = .chunk m chunkHeader ∧ r' = ⟨afterChunk m chunkHeader,
      r.decompressionQueue.push
        ⟨Message.empty, chunkHeader, ⟨message, message.length, message.length⟩⟩⟩ := by
  obtain ⟨awaiting, queue⟩ := r
  unfold receiveMessage at h
  split at h
  · contradiction
  · cases awaiting with
    | initial =>
      simp only at h
      split at h
      · contradiction
      · rename_i m hm
        rw [Except.ok.injEq] at h
        exact .inl ⟨m, rfl, connection.protobuf.fileInitialMessage.deserialize_isInitialized _ _
          (deserialize_of_check hm), h.symm⟩
    | header m =>
      simp only at h
      split at h
      · contradiction
      · rename_i chunkHeader _
        rw [Except.ok.injEq] at h
        exact .inr (.inl ⟨m, chunkHeader, rfl, h.symm⟩)
    | chunk m chunkHeader =>
      simp only [receiveBuffer_empty, Except.ok.injEq] at h
      exact .inr (.inr ⟨m, chunkHeader, rfl, h.symm⟩)
    | nothing => exact absurd rfl hawaiting

/-- Each arrival is a step of the dialogue. -/
theorem receiveMessage_sound (h : receiveMessage connection r message = .ok r')
    (hawaiting : r.awaiting ≠ .nothing) :
    ∃ meaning, r.awaiting.next meaning = some r'.awaiting ∧
      r'.meanings = r.meanings ++ [meaning] := by
  rcases receiveMessage_cases h hawaiting with ⟨m, hr, hinit, rfl⟩ | ⟨m, chunkHeader, hr, rfl⟩ |
      ⟨m, chunkHeader, hr, rfl⟩
  · exact ⟨.initial m, by rw [hr]; rfl, by simp [Receiver.meanings, hr, meanings_initial hinit]⟩
  · exact ⟨.header chunkHeader, by rw [hr]; rfl, by simp [Receiver.meanings, hr]⟩
  · refine ⟨.chunk message, by rw [hr]; rfl, ?_⟩
    rw [afterChunk_meanings]
    simp [Receiver.meanings, hr, meanings_chunk, Buffer.contents]

/-- A message sent as the dialogue goes on is taken for what it is. -/
theorem receiveMessage_complete (connection : Connection) {r : Receiver} {meaning : Meaning}
    {awaiting : Awaiting}
    (hsendable : Sendable meaning) (hnext : r.awaiting.next meaning = some awaiting) :
    ∃ r', receiveMessage connection r (meaning.bytes connection.protobuf) = .ok r' ∧
      r'.awaiting = awaiting ∧ r'.meanings = r.meanings ++ [meaning] := by
  obtain ⟨phase, queue⟩ := r
  cases phase <;> cases meaning <;> simp only [Awaiting.next, reduceCtorEq, Option.some.injEq] at hnext
  case initial.initial m =>
    have hne := connection.protobuf.fileInitialMessage.serialize_ne_nil m hsendable.1
    have hread := connection.protobuf.fileInitialMessage.deserialize_serialize m hsendable.1
      hsendable.2
    refine ⟨⟨.header m, queue.push ⟨m, Message.empty, .empty⟩⟩, ?_, hnext, ?_⟩
    · simp only [receiveMessage, Meaning.bytes, hne, if_false, deserializeAndCheckMessage, hread]
    · simp [Receiver.meanings, meanings_initial hsendable.1]
  case header.header m chunkHeader =>
    have hne := connection.protobuf.chunkHeader.serialize_ne_nil chunkHeader hsendable
    have hread := connection.protobuf.chunkHeader.deserialize_serialize chunkHeader hsendable
      (by simp [Message.strings])
    refine ⟨⟨.chunk m chunkHeader, queue⟩, ?_, hnext, ?_⟩
    · simp only [receiveMessage, Meaning.bytes, hne, if_false, deserializeAndCheckMessage, hread]
    · simp [Receiver.meanings]
  case chunk.chunk m chunkHeader bytes =>
    have hne : bytes ≠ [] := hsendable
    refine ⟨⟨afterChunk m chunkHeader,
      queue.push ⟨Message.empty, chunkHeader, ⟨bytes, bytes.length, bytes.length⟩⟩⟩, ?_, hnext, ?_⟩
    · simp only [receiveMessage, Meaning.bytes, hne, if_false, receiveBuffer_empty]
    · rw [afterChunk_meanings]
      simp [Receiver.meanings, meanings_chunk, Buffer.contents]

end

/-- Induction over a request that returns: it has nothing to wait for, or has received one more
message and goes on. -/
theorem requestFile_induction {connection : Connection} {P : Receiver → List ByteString → Prop}
    {queue : SynchronousQueue DecompressionQueueEntry} {unread : List ByteString}
    (done : ∀ r : Receiver, r.awaiting = .nothing → r.decompressionQueue = queue → P r unread)
    (received : ∀ (r r' : Receiver) (message : ByteString) (messages : List ByteString),
      r.awaiting ≠ .nothing → receiveMessage connection r message = .ok r' → P r' messages →
      P r (message :: messages))
    {r : Receiver} {messages : List ByteString}
    (h : requestFile connection r messages = .returned queue unread) : P r messages := by
  induction messages generalizing r with
  | nil =>
    unfold requestFile at h
    split at h
    · rename_i hdone
      obtain ⟨hqueue, hunread⟩ := Outcome.returned.inj h
      rw [hunread]
      exact done r hdone hqueue
    · contradiction
  | cons message messages ih =>
    unfold requestFile at h
    split at h
    · rename_i hdone
      obtain ⟨hqueue, hunread⟩ := Outcome.returned.inj h
      rw [hunread]
      exact done r hdone hqueue
    · rename_i hawaiting
      split at h
      · contradiction
      · rename_i r' hgo
        exact received r r' message messages hawaiting hgo (ih h)

theorem requestFile_sound {connection : Connection} {r : Receiver} {messages : List ByteString}
    {queue : SynchronousQueue DecompressionQueueEntry}
    (h : requestFile connection r messages = .returned queue []) :
    ∃ sent, Transition.exec Awaiting.next r.awaiting sent = some .nothing ∧
      queue.entries.flatMap DecompressionQueueEntry.meanings = r.meanings ++ sent := by
  apply requestFile_induction (P := fun r _ =>
    ∃ sent, Transition.exec Awaiting.next r.awaiting sent = some .nothing ∧
      queue.entries.flatMap DecompressionQueueEntry.meanings = r.meanings ++ sent) ?_ ?_ h
  · intro r hdone hqueue
    exact ⟨[], by rw [hdone]; rfl, by simp [Receiver.meanings, hdone, hqueue]⟩
  · intro r r' message messages hawaiting hgo hcontinues
    obtain ⟨sent, hexec, hsent⟩ := hcontinues
    obtain ⟨meaning, hnext, hmeanings⟩ := receiveMessage_sound hgo hawaiting
    refine ⟨meaning :: sent, ?_, ?_⟩
    · rw [Transition.exec, hnext]
      exact hexec
    · rw [hsent, hmeanings, List.append_assoc, List.singleton_append]

theorem requestFile_complete {connection : Connection} {r : Receiver} {sent : List Meaning}
    (hsendable : ∀ meaning ∈ sent, Sendable meaning)
    (hexec : Transition.exec Awaiting.next r.awaiting sent = some .nothing) :
    ∃ queue, requestFile connection r (sent.map (·.bytes connection.protobuf)) =
        .returned queue [] ∧
      queue.entries.flatMap DecompressionQueueEntry.meanings = r.meanings ++ sent := by
  induction sent generalizing r with
  | nil =>
    have hdone : r.awaiting = .nothing := Option.some.inj hexec
    exact ⟨r.decompressionQueue, by simp [requestFile, hdone], by simp [Receiver.meanings, hdone]⟩
  | cons meaning sent ih =>
    obtain ⟨awaiting, hnext, hrest⟩ := Option.bind_eq_some_iff.mp hexec
    obtain ⟨r', hgo, rfl, hmeanings⟩ :=
      receiveMessage_complete connection (hsendable meaning (by simp)) hnext
    obtain ⟨queue, hreturned, hall⟩ := ih (fun m hm => hsendable m (by simp [hm])) hrest
    have hawaiting : r.awaiting ≠ .nothing := by
      intro hdone
      rw [hdone] at hnext
      simp [Awaiting.next] at hnext
    refine ⟨queue, ?_, ?_⟩
    · rw [List.map_cons, requestFile, if_neg hawaiting, hgo]
      exact hreturned
    · rw [hall, hmeanings, List.append_assoc, List.singleton_append]

/-- The client accepts what is sent exactly when it is a whole dialogue. -/
theorem accepts_iff (connection : Connection) {sent : List Meaning}
    (hsendable : ∀ meaning ∈ sent, Sendable meaning) :
    Accepts connection sent (sent.map (·.bytes connection.protobuf)) ↔
      Transition.exec Awaiting.next .initial sent = some .nothing := by
  constructor
  · rintro ⟨queue, hgo, hmeanings⟩
    obtain ⟨sent', hexec, hsent⟩ := requestFile_sound hgo
    rw [hmeanings] at hsent
    rw [hsent]
    exact hexec
  · intro hexec
    exact requestFile_complete hsendable hexec

end Autocomp.Client

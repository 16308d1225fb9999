import Autocomp.Network.Reception
import Autocomp.Network.Unwinding

/-!
# The end of a training

Behind its loops a training clears the queue, wherever `transmit` is, and pushes the same error
message twice. The client may be anywhere in its dialogue when the first arrives. If it waits for a
chunk it takes the message for one, but after a chunk it waits for something that it can tell from an
error, or for nothing.
-/

namespace Autocomp

open FileStream Message Transition WireFormat

/-- The field of an error message does not make up the required ones of the other two types. -/
structure Protobuf.TellsErrors (protobuf : Protobuf) : Prop where
  initial : ∀ error : ErrorMessage, isInitialized error = true →
    (∀ s ∈ strings error, s.length < 2 ^ 31) →
    protobuf.fileInitialMessage.deserialize (protobuf.errorMessage.serialize error) = none
  header : ∀ error : ErrorMessage, isInitialized error = true →
    (∀ s ∈ strings error, s.length < 2 ^ 31) →
    protobuf.chunkHeader.deserialize (protobuf.errorMessage.serialize error) = none

theorem wireFormat_deserialize {M N : Type} [Message M] [LawfulMessage M] [Message N]
    [LawfulMessage N] {m : M} (hm : ∀ s ∈ strings m, s.length < 2 ^ 31) :
    (wireFormat N).deserialize ((wireFormat M).serialize m) =
      (some (ofFields (fields m))).filter isInitialized := by
  simp only [wireFormat, readFields_write (LawfulMessage.wellFormed m hm), Option.map_some]

theorem protocolBuffers_tellsErrors : protocolBuffers.TellsErrors where
  initial error _ hshort := by
    have hread := wireFormat_deserialize (N := FileInitialMessage) hshort
    apply hread.trans
    cases error with
    | mk message => cases message <;> rfl
  header error _ hshort := by
    have hread := wireFormat_deserialize (N := ChunkHeader) hshort
    apply hread.trans
    cases error with
    | mk message => cases message <;> rfl

namespace Client

/-- `requestFile` has returned or thrown a `NetworkError`. -/
def Outcome.Over : Outcome → Prop
  | .waiting _ => False
  | .returned .. => True
  | .failed x => ∃ message, x = .networkError message

section

variable {connection : Connection} {r r' : Receiver} {message : ByteString}

theorem deserializeAndCheckMessage_error {M : Type} [Message M] {format : MessageFormat M}
    {invalid : ByteString} {x : Exn}
    (h : deserializeAndCheckMessage connection format invalid message = .error x) :
    ∃ text, x = .networkError text := by
  unfold deserializeAndCheckMessage at h
  split at h
  · contradiction
  · split at h
    · exact ⟨_, (Except.error.inj h).symm⟩
    · exact ⟨_, (Except.error.inj h).symm⟩

theorem receiveMessage_error {x : Exn} (h : receiveMessage connection r message = .error x) :
    ∃ text, x = .networkError text := by
  unfold receiveMessage at h
  split at h
  · exact ⟨_, (Except.error.inj h).symm⟩
  · split at h
    · split at h
      · rename_i hcheck
        rw [← Except.error.inj h]
        exact deserializeAndCheckMessage_error hcheck
      · contradiction
    · split at h
      · rename_i hcheck
        rw [← Except.error.inj h]
        exact deserializeAndCheckMessage_error hcheck
      · contradiction
    · rw [receiveBuffer_empty] at h
      contradiction
    · contradiction

theorem requestFile_over_of_nothing (h : r.awaiting = .nothing) (messages : List ByteString) :
    (requestFile connection r messages).Over := by
  cases messages with
  | nil =>
    rw [requestFile, if_pos h]
    trivial
  | cons message messages =>
    rw [requestFile, if_pos h]
    trivial

theorem requestFile_over_append {rest : List ByteString}
    (hrest : ∀ r, (requestFile connection r rest).Over) (messages : List ByteString) :
    (requestFile connection r (messages ++ rest)).Over := by
  induction messages generalizing r with
  | nil => exact hrest r
  | cons message messages ih =>
    by_cases hdone : r.awaiting = .nothing
    · exact requestFile_over_of_nothing hdone _
    · rw [List.cons_append, requestFile, if_neg hdone]
      cases hgo : receiveMessage connection r message with
      | error x => exact receiveMessage_error hgo
      | ok r' => exact ih

theorem afterChunk_cases (fileInitialMessage : FileInitialMessage) (chunkHeader : ChunkHeader) :
    afterChunk fileInitialMessage chunkHeader = .nothing ∨
      afterChunk fileInitialMessage chunkHeader = .initial ∨
      afterChunk fileInitialMessage chunkHeader = .header fileInitialMessage := by
  unfold afterChunk
  split
  · split
    · exact .inl rfl
    · exact .inr (.inl rfl)
  · exact .inr (.inr rfl)

theorem requestFile_waiting {sent : List Server.Meaning} {awaiting : Awaiting}
    (hsendable : ∀ meaning ∈ sent, Sendable meaning)
    (hexec : exec Awaiting.next r.awaiting sent = some awaiting) (hmore : awaiting ≠ .nothing) :
    ∃ r', requestFile connection r (sent.map (·.bytes connection.protobuf)) = .waiting r' := by
  induction sent generalizing r with
  | nil =>
    rw [← Option.some.inj hexec] at hmore
    exact ⟨r, by rw [List.map_nil, requestFile, if_neg hmore]⟩
  | cons meaning sent ih =>
    obtain ⟨next, hnext, hrest⟩ := Option.bind_eq_some_iff.mp hexec
    obtain ⟨r', hgo, rfl, -⟩ :=
      receiveMessage_complete connection (hsendable meaning List.mem_cons_self) hnext
    have hawaiting : r.awaiting ≠ .nothing := by
      intro hdone
      rw [hdone] at hnext
      contradiction
    rw [List.map_cons, requestFile, if_neg hawaiting, hgo]
    exact ih (fun m hm => hsendable m (List.mem_cons_of_mem _ hm)) hrest

variable {error : ErrorMessage}

theorem deserializeAndCheckMessage_errorMessage {M : Type} [Message M] {format : MessageFormat M}
    (h : format.deserialize (connection.protobuf.errorMessage.serialize error) = none)
    (invalid : ByteString) : ∃ text, deserializeAndCheckMessage connection format invalid
      (connection.protobuf.errorMessage.serialize error) = .error (.networkError text) := by
  unfold deserializeAndCheckMessage
  rw [h]
  cases connection.protobuf.errorMessage.deserialize
      (connection.protobuf.errorMessage.serialize error) with
  | none => exact ⟨_, rfl⟩
  | some m => exact ⟨_, rfl⟩

variable (htells : connection.protobuf.TellsErrors) (herror : isInitialized error = true)
  (hshort : ∀ s ∈ strings error, s.length < 2 ^ 31)

include htells herror hshort

theorem requestFile_errorMessage (hchunk : ∀ m chunkHeader, r.awaiting ≠ .chunk m chunkHeader)
    (rest : List ByteString) :
    (requestFile connection r (connection.protobuf.errorMessage.serialize error :: rest)).Over := by
  have hne := connection.protobuf.errorMessage.serialize_ne_nil error herror
  cases hawaiting : r.awaiting with
  | nothing => exact requestFile_over_of_nothing hawaiting _
  | chunk m chunkHeader => exact absurd hawaiting (hchunk m chunkHeader)
  | initial =>
    obtain ⟨text, hcheck⟩ := deserializeAndCheckMessage_errorMessage
      (htells.initial error herror hshort) (ascii "Received invalid file initial message from server")
    simp only [requestFile, hawaiting, reduceCtorEq, if_false, receiveMessage, hne, hcheck]
    exact ⟨text, rfl⟩
  | header m =>
    obtain ⟨text, hcheck⟩ := deserializeAndCheckMessage_errorMessage
      (htells.header error herror hshort) (ascii "Received invalid chunk header from server")
    simp only [requestFile, hawaiting, reduceCtorEq, if_false, receiveMessage, hne, hcheck]
    exact ⟨text, rfl⟩

/-- The second message is never taken for a chunk. -/
theorem requestFile_errorMessage_twice (r : Receiver) :
    (requestFile connection r [connection.protobuf.errorMessage.serialize error,
      connection.protobuf.errorMessage.serialize error]).Over := by
  have hne := connection.protobuf.errorMessage.serialize_ne_nil error herror
  cases hawaiting : r.awaiting with
  | chunk m chunkHeader =>
    -- it is the bytes of a chunk that the client sees
    have hsendable : Sendable (.chunk (connection.protobuf.errorMessage.serialize error)) := hne
    obtain ⟨r', hgo, hafter, -⟩ := receiveMessage_complete connection hsendable
      (show r.awaiting.next _ = some (afterChunk m chunkHeader) by rw [hawaiting]; rfl)
    rw [requestFile, if_neg (by rw [hawaiting]; exact Awaiting.noConfusion)]
    rw [Server.Meaning.bytes] at hgo
    rw [hgo]
    apply requestFile_errorMessage htells herror hshort
    intro m' chunkHeader'
    rw [hafter]
    rcases afterChunk_cases m chunkHeader with h | h | h <;> simp [h]
  | initial | header | nothing =>
    apply requestFile_errorMessage htells herror hshort
    simp [hawaiting]

end

end Client

namespace Server.Unwinding

def doneTraining (protobuf : Protobuf) : ByteString :=
  protobuf.errorMessage.serialize ⟨some (ascii "Done traning")⟩

section

variable (codecs : Codecs) (tree : DecisionTree) (protobuf : Protobuf) (training : Bool)

def sends (s : State) : List Event → List ByteString
  | [] => []
  | ev :: evs =>
    match step codecs tree protobuf training s ev with
    | none => []
    | some t =>
      match ev with
      | .serve _ => pushes t.transmission.request ++ sends t evs
      | .other _ => sends t evs

end

section

variable {codecs : Codecs} {tree : DecisionTree} {protobuf : Protobuf} {training : Bool}

theorem handleOpening_ne_ended (p : Processor) (chunk : Buffer) (x : Exn) {sent : List Sent} :
    handleOpening protobuf p chunk x ≠ (.ended, sent) := by
  unfold handleOpening
  split <;> simp

theorem advance_ended {w : World} {before : Control} {sent : List Sent}
    (h : advance codecs tree protobuf training w before = some (.ended, sent)) :
    endOfLoops protobuf training = (.ended, sent) := by
  cases before with
  | files p chunk =>
    rw [advance] at h
    split at h
    · exact Option.some.inj h
    · split at h
      · simp only at h
        split at h <;> simp at h
      · exact Option.some.inj h
  | finding p e chunk currentFile =>
    rw [advance] at h
    split at h
    · simp at h
    · simp at h
    · exact absurd (Option.some.inj h) (handleOpening_ne_ended _ _ _)
  | opening p chunk =>
    rw [advance] at h
    split at h
    · exact absurd (Option.some.inj h) (handleOpening_ne_ended _ _ _)
    · simp at h
  | chunks p chunk nChunks =>
    rw [advance] at h
    split at h
    · obtain ⟨⟨result, chunk', p'⟩, -, hmap⟩ := Option.map_eq_some_iff.mp h
      cases result with
      | ok c => simp at hmap
      | error x => cases x <;> simp at hmap
    · simp at h
  | ended | escaped => contradiction

theorem pushes_ending (sents : List Sent) :
    pushes (sents.flatMap pushing ++ ending) = sents.map fun sent => sent.buffer.contents := by
  rw [pushes_append, pushes_pushing]
  exact List.append_nil _

theorem serve_pending {s t : State} {w : World}
    (h : step codecs tree protobuf training s (.serve w) = some t) (hmore : t.control ≠ .ended) :
    t.transmission.taken = s.transmission.taken ∧
      t.transmission.pending = s.transmission.pending ++ pushes t.transmission.request := by
  simp only [step] at h
  split at h
  · rename_i hrequest
    obtain ⟨⟨control, sent⟩, -, rfl⟩ := Option.map_eq_some_iff.mp h
    cases control with
    | ended => exact absurd rfl hmore
    | _ =>
      constructor
      · rfl
      · simp [Transmission.pending, hrequest, pushes, State.goOn]
  · contradiction

theorem serve_stopped {s t : State} {w : World}
    (h : step codecs tree protobuf true s (.serve w) = some t) (hended : t.control = .ended) :
    t.transmission.taken = s.transmission.taken ∧
      pushes t.transmission.request = [doneTraining protobuf, doneTraining protobuf] ∧
      t.transmission.pending = [doneTraining protobuf, doneTraining protobuf] := by
  simp only [step] at h
  split at h
  · obtain ⟨⟨control, sent⟩, hadvance, rfl⟩ := Option.map_eq_some_iff.mp h
    cases control with
    | ended =>
      have hsent := advance_ended hadvance
      simp only [endOfLoops, if_true, Prod.mk.injEq, true_and] at hsent
      have hpushes : pushes (sent.flatMap pushing ++ ending) =
          [doneTraining protobuf, doneTraining protobuf] := by
        rw [pushes_ending, ← hsent]
        simp only [List.map_cons, List.map_nil, errorSent, serializeMessage_contents, doneTraining]
      exact ⟨rfl, hpushes, hpushes⟩
    | _ => contradiction
  · contradiction

theorem step_ended {s t : State} {ev : Event} (hended : s.control = .ended)
    (h : step codecs tree protobuf training s ev = some t) :
    ∃ e, ev = .other e ∧ t.control = .ended ∧ t.transmission.stream = s.transmission.stream := by
  cases ev with
  | serve w =>
    simp only [step, hended] at h
    split at h <;> contradiction
  | other e =>
    obtain ⟨t, ht, rfl⟩ := Option.map_eq_some_iff.mp h
    exact ⟨e, rfl, hended, Transmission.step_stream ht⟩

theorem sends_ended {s t : State} {evs : List Event} (hended : s.control = .ended)
    (h : exec (step codecs tree protobuf training) s evs = some t) :
    sends codecs tree protobuf training s evs = [] ∧
      t.transmission.stream = s.transmission.stream := by
  induction evs generalizing s with
  | nil =>
    rw [Option.some.inj h]
    exact ⟨rfl, rfl⟩
  | cons ev evs ih =>
    obtain ⟨next, hnext, hrest⟩ := Option.bind_eq_some_iff.mp h
    obtain ⟨e, rfl, hcontrol, hstream⟩ := step_ended hended hnext
    obtain ⟨hsends, hlast⟩ := ih hcontrol hrest
    constructor
    · simp only [sends, hnext]
      exact hsends
    · rw [hlast, hstream]

/-- What the client gets of a training is a prefix of what was pushed, and the two messages. -/
theorem stream_stopped {s t : State} {evs : List Event} (hmore : s.control ≠ .ended)
    {before : List ByteString}
    (htaken : s.transmission.taken = before.flatMap TCPSocket.frame)
    (h : exec (step codecs tree protobuf true) s evs = some t) (hended : t.control = .ended) :
    ∃ sent cleared, before ++ (s.transmission.pending ++ sends codecs tree protobuf true s evs) =
        sent ++ (cleared ++ [doneTraining protobuf, doneTraining protobuf]) ∧
      t.transmission.stream =
        (sent ++ [doneTraining protobuf, doneTraining protobuf]).flatMap TCPSocket.frame := by
  induction evs generalizing s before with
  | nil =>
    rw [Option.some.inj h] at hmore
    exact absurd hended hmore
  | cons ev evs ih =>
    obtain ⟨next, hnext, hrest⟩ := Option.bind_eq_some_iff.mp h
    cases ev with
    | serve w =>
      simp only [sends, hnext]
      by_cases hlast : next.control = .ended
      · obtain ⟨hkept, hpushes, hpending⟩ := serve_stopped hnext hlast
        obtain ⟨hsends, hstream⟩ := sends_ended hlast hrest
        refine ⟨before, s.transmission.pending, ?_, ?_⟩
        · rw [hpushes, hsends, List.append_nil]
        · rw [hstream, Transmission.stream_eq, hkept, htaken, hpending, List.flatMap_append]
      · obtain ⟨hkept, hpending⟩ := serve_pending hnext hlast
        obtain ⟨sent, cleared, hall, hstream⟩ := ih hlast (hkept.trans htaken) hrest
        rw [hpending, List.append_assoc] at hall
        exact ⟨sent, cleared, hall, hstream⟩
    | other e =>
      obtain ⟨transmission, hstep, rfl⟩ := Option.map_eq_some_iff.mp hnext
      obtain ⟨popped, hkept, hpending⟩ := Transmission.step_pending hstep
      have hbefore : transmission.taken = (before ++ popped).flatMap TCPSocket.frame := by
        rw [hkept, htaken, List.flatMap_append]
      obtain ⟨sent, cleared, hall, hstream⟩ := ih (s := ⟨s.control, transmission⟩) hmore hbefore hrest
      refine ⟨sent, cleared, ?_, hstream⟩
      simp only [sends, hnext]
      rw [← hall, ← hpending]
      simp only [List.append_assoc]

end

def pairDisk : Disk Path :=
  Function.update (Function.update (fun _ => none) (ascii "d/a") (some [1])) (ascii "d/b")
    (some [2])

def pairRoot : Node := .directory (.cons (ascii "a") .file (.cons (ascii "b") .file .nil))

def pairExplorer : DirectoryExplorer :=
  ⟨ascii "d", ascii "d", .cons (ascii "b") .file .nil, [], ascii "d/a", false, true⟩

theorem pair_explored :
    DirectoryExplorer.explore pairDisk (ascii "d") (.ok pairRoot) = .ok pairExplorer := by
  rw [pairRoot, DirectoryExplorer.explore, DirectoryExplorer.findNextFile]
  rfl

def trainRequest : FileTransmissionRequest := ⟨some (ascii "d"), some .TRAIN, some .ZLIB, none⟩

def trainProcessor : Processor := .file (.new 64) (.training (.single .ZLIB 6))

/-- What is sent of the first file: its initial message and the header of its only chunk. -/
def pairSent : List Meaning :=
  [.initial ⟨some (ascii "d/a"), some 1, some 64, none⟩, .header ⟨some .COPY, some 0, some true⟩]

/-- The header of the first chunk has just been popped when the loops end. -/
def pairEvents : List Event :=
  let call : Event := .serve (plainWorld pairDisk)
  [call, call, call, .other .request, .other .request, call, .other .request, .other .request,
    .other .request, .other .transmit, .other .transmit, .other .transmit, .other .transmit,
    .other .transmit, .other (.clock false), .other (.write 4), .other (.write 9),
    .other .transmit, .other .transmit, .other .transmit, .other .transmit, call, call, call, call,
    .other .request, .other .request, call, .other .request, .other .request, .other .request, call,
    call]

/-- What the client takes the messages for: the first error message is the chunk. -/
def pairTaken : List Meaning := pairSent ++ [.chunk (doneTraining protocolBuffers)]

theorem pair_waiting : ∃ r, Client.requestFile Client.sampleConnection .start
    (pairSent.map (·.bytes protocolBuffers) ++ [doneTraining protocolBuffers]) = .waiting r := by
  have hchunk : Client.Sendable (.chunk (doneTraining protocolBuffers)) :=
    protocolBuffers.errorMessage.serialize_ne_nil _ rfl
  have hsendable : ∀ meaning ∈ pairTaken, Client.Sendable meaning := by
    simp only [pairTaken, pairSent, List.cons_append, List.nil_append, List.forall_mem_cons,
      List.not_mem_nil, false_implies, implies_true, and_true]
    exact ⟨⟨rfl, by simp [strings, ascii]⟩, rfl, hchunk⟩
  obtain ⟨r, hr⟩ : ∃ r, Client.requestFile Client.sampleConnection .start
      (pairTaken.map (·.bytes protocolBuffers)) = .waiting r :=
    Client.requestFile_waiting hsendable rfl Client.Awaiting.noConfusion
  rw [pairTaken, List.map_append] at hr
  exact ⟨r, hr⟩

def Control.isEnded : Control → Bool
  | .ended => true
  | _ => false

theorem Control.isEnded_iff {control : Control} : control.isEnded = true ↔ control = .ended := by
  cases control <;> simp [isEnded]

theorem pair_stopped : ∃ s, exec (step sampleHost.codecs leafTree protocolBuffers true)
      (start (trainProcessor.prepared (ascii "d") pairExplorer)) pairEvents = some s ∧
    s.control = .ended ∧ s.transmission.stream = (pairSent.map (·.bytes protocolBuffers) ++
      [doneTraining protocolBuffers, doneTraining protocolBuffers]).flatMap TCPSocket.frame := by
  have hexec : ((exec (step sampleHost.codecs leafTree protocolBuffers true)
      (start (trainProcessor.prepared (ascii "d") pairExplorer)) pairEvents).map fun s =>
      (s.control.isEnded, s.transmission.stream)) =
      some (true, (pairSent.map (·.bytes protocolBuffers) ++
        [doneTraining protocolBuffers, doneTraining protocolBuffers]).flatMap TCPSocket.frame) := by
    decide +kernel
  obtain ⟨s, hs, hleft⟩ := Option.map_eq_some_iff.mp hexec
  rw [Prod.mk.injEq, Control.isEnded_iff] at hleft
  exact ⟨s, hs, hleft⟩

/-- A training transmits a prefix of what its loops pushed, wherever the queue is cleared, and then
the two messages. They end the receive loops after any messages; one of them may not. -/
theorem two_errors_end :
    (∀ connection : Client.Connection, connection.protobuf.TellsErrors → ∀ messages,
      (Client.requestFile connection .start (messages ++
        [doneTraining connection.protobuf, doneTraining connection.protobuf])).Over) ∧
    (∀ codecs tree protobuf p evs s,
      exec (step codecs tree protobuf true) (start p) evs = some s → s.control = .ended →
      ∃ sent cleared, sends codecs tree protobuf true (start p) evs =
          sent ++ (cleared ++ [doneTraining protobuf, doneTraining protobuf]) ∧
        s.transmission.stream =
          (sent ++ [doneTraining protobuf, doneTraining protobuf]).flatMap TCPSocket.frame) ∧
    ∃ p e evs s sent, configureFileProcessor trainRequest = .ok p ∧
      DirectoryExplorer.explore pairDisk (ascii "d") (.ok pairRoot) = .ok e ∧
      exec (step sampleHost.codecs leafTree protocolBuffers true)
        (start (p.prepared (ascii "d") e)) evs = some s ∧ s.control = .ended ∧
      s.transmission.stream = (sent ++
        [doneTraining protocolBuffers, doneTraining protocolBuffers]).flatMap TCPSocket.frame ∧
      ∃ r, Client.requestFile Client.sampleConnection .start
        (sent ++ [doneTraining protocolBuffers]) = .waiting r := by
  refine ⟨?_, ?_, ?_⟩
  · intro connection htells messages
    apply Client.requestFile_over_append
    intro r
    apply Client.requestFile_errorMessage_twice htells rfl
    simp [strings, ascii]
  · intro codecs tree protobuf p evs s hexec hended
    have hstart : (start p).transmission.taken = ([] : List ByteString).flatMap TCPSocket.frame := rfl
    exact stream_stopped Control.noConfusion hstart hexec hended
  · obtain ⟨s, hexec, hended, hstream⟩ := pair_stopped
    exact ⟨trainProcessor, pairExplorer, pairEvents, s, _, rfl, pair_explored, hexec, hended,
      hstream, pair_waiting⟩

theorem two_errors_end_pair : (Client.requestFile Client.sampleConnection .start
    (pairSent.map (·.bytes protocolBuffers) ++
      [doneTraining protocolBuffers, doneTraining protocolBuffers])).Over :=
  two_errors_end.1 Client.sampleConnection protocolBuffers_tellsErrors _

end Server.Unwinding

end Autocomp

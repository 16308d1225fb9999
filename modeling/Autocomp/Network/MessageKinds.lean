import Autocomp.Network.TrainingStop

/-!
# Telling the messages apart

The bytes of a message do not say of which type it is. The client takes them for the type that it
waits for if all required fields of that type are in them, and otherwise for an error message if the
one field of an error message is.
-/

namespace Autocomp.Client

open Message WireFormat

/-- The types that the client has to tell apart. -/
inductive Kind where
  | fileInitialMessage
  | chunkHeader
  | errorMessage
  deriving DecidableEq

inductive Value where
  | fileInitialMessage (message : FileInitialMessage)
  | chunkHeader (message : ChunkHeader)
  | errorMessage (message : ErrorMessage)

def Value.kind : Value → Kind
  | .fileInitialMessage _ => .fileInitialMessage
  | .chunkHeader _ => .chunkHeader
  | .errorMessage _ => .errorMessage

/-- Its required fields are set and its strings are short enough to be sent. -/
def Value.Sendable : Value → Prop
  | .fileInitialMessage message =>
    isInitialized message = true ∧ ∀ s ∈ strings message, s.length < 2 ^ 31
  | .chunkHeader message => isInitialized message = true
  | .errorMessage message => isInitialized message = true ∧ ∀ s ∈ strings message, s.length < 2 ^ 31

section

variable (protobuf : Protobuf)

def Value.serialize : Value → ByteString
  | .fileInitialMessage message => protobuf.fileInitialMessage.serialize message
  | .chunkHeader message => protobuf.chunkHeader.serialize message
  | .errorMessage message => protobuf.errorMessage.serialize message

/-- `deserializeMessage` returns true. -/
def Kind.Accepts (bytes : ByteString) : Kind → Prop
  | .fileInitialMessage => protobuf.fileInitialMessage.deserialize bytes ≠ none
  | .chunkHeader => protobuf.chunkHeader.deserialize bytes ≠ none
  | .errorMessage => protobuf.errorMessage.deserialize bytes ≠ none

end

/-- The kind of message that the client waits for, and what it reports if it gets one that is neither
of that kind nor an error message. -/
def Awaiting.expected : Awaiting → Option (Kind × ByteString)
  | .initial => some (.fileInitialMessage, ascii "Received invalid file initial message from server")
  | .header _ => some (.chunkHeader, ascii "Received invalid chunk header from server")
  | .chunk _ _ | .nothing => none

/-- The message is taken for nothing else: no other type accepts it, an error message is reported with
its text wherever the client waits for a message of a type, and a message of another type than that is
reported as invalid. -/
structure ToldApart (connection : Connection) (value : Value) : Prop where
  disjoint : ∀ kind, kind.Accepts connection.protobuf (value.serialize connection.protobuf) →
    kind = value.kind
  error : ∀ message, value = .errorMessage message → ∀ r : Receiver, r.awaiting.expected ≠ none →
    receiveMessage connection r (value.serialize connection.protobuf) =
      .error (.networkError (message.message.getD []))
  other : value.kind ≠ .errorMessage → ∀ (r : Receiver) kind invalid text,
    r.awaiting.expected = some (kind, invalid) →
    receiveMessage connection r (value.serialize connection.protobuf) =
      .error (.networkError text) → text = invalid

theorem noString (message : ChunkHeader) : ∀ s ∈ strings message, s.length < 2 ^ 31 := by
  simp [strings]

theorem initial_of_header (message : ChunkHeader) :
    protocolBuffers.fileInitialMessage.deserialize
      (protocolBuffers.chunkHeader.serialize message) = none := by
  apply (wireFormat_deserialize (N := FileInitialMessage) (noString message)).trans
  have hname : lastField readString 1 (fields message) = none := by
    obtain ⟨_ | compressor, _ | chunkPosition, _ | lastChunk⟩ := message <;>
      simp [fields, optionalField, lastField, readString]
  simp [ofFields, isInitialized, hname]

theorem error_of_header (message : ChunkHeader) :
    protocolBuffers.errorMessage.deserialize (protocolBuffers.chunkHeader.serialize message) =
      none := by
  apply (wireFormat_deserialize (N := ErrorMessage) (noString message)).trans
  have hmessage : lastField readString 1 (fields message) = none := by
    obtain ⟨_ | compressor, _ | chunkPosition, _ | lastChunk⟩ := message <;>
      simp [fields, optionalField, lastField, readString]
  simp [ofFields, isInitialized, hmessage]

/-- The name of a file is in the field of the text of an error. -/
theorem error_of_initial {message : FileInitialMessage}
    (h : ∀ s ∈ strings message, s.length < 2 ^ 31) (hname : message.filename.isSome = true) :
    protocolBuffers.errorMessage.deserialize
      (protocolBuffers.fileInitialMessage.serialize message) = some ⟨message.filename⟩ := by
  apply (wireFormat_deserialize (N := ErrorMessage) h).trans
  have hmessage : lastField readString 1 (fields message) = message.filename := by
    obtain ⟨_ | filename, _ | fileSize, _ | chunkSize, _ | lastFile⟩ := message <;>
      simp [fields, optionalField, lastField, readString]
  simp only [ofFields, hmessage]
  exact Option.filter_some_pos hname

theorem awaiting_of_expected {awaiting : Awaiting} {kind : Kind} {invalid : ByteString}
    (h : awaiting.expected = some (kind, invalid)) :
    (awaiting = .initial ∧ kind = .fileInitialMessage ∧
        invalid = ascii "Received invalid file initial message from server") ∨
      ∃ m, awaiting = .header m ∧ kind = .chunkHeader ∧
        invalid = ascii "Received invalid chunk header from server" := by
  cases awaiting with
  | initial =>
    obtain ⟨rfl, rfl⟩ := Prod.mk.inj (Option.some.inj h)
    exact .inl ⟨rfl, rfl, rfl⟩
  | header m =>
    obtain ⟨rfl, rfl⟩ := Prod.mk.inj (Option.some.inj h)
    exact .inr ⟨m, rfl, rfl, rfl⟩
  | chunk m chunkHeader => contradiction
  | nothing => contradiction

section

variable {connection : Connection} {message : ByteString} {r : Receiver}

theorem check_errorMessage {M : Type} [Message M] {format : MessageFormat M} {error : ErrorMessage}
    (hformat : format.deserialize message = none)
    (herror : connection.protobuf.errorMessage.deserialize message = some error)
    (invalid : ByteString) : deserializeAndCheckMessage connection format invalid message =
      .error (.networkError (error.message.getD [])) := by
  simp only [deserializeAndCheckMessage, hformat, herror]

theorem check_invalid {M : Type} [Message M] {format : MessageFormat M} {invalid text : ByteString}
    (herror : connection.protobuf.errorMessage.deserialize message = none)
    (h : deserializeAndCheckMessage connection format invalid message =
      .error (.networkError text)) : text = invalid := by
  unfold deserializeAndCheckMessage at h
  split at h
  · contradiction
  · rw [herror] at h
    exact (Exn.networkError.inj (Except.error.inj h)).symm

theorem receiveMessage_expected {kind : Kind} {invalid : ByteString} {x : Exn}
    (hexpected : r.awaiting.expected = some (kind, invalid)) (hne : message ≠ []) :
    receiveMessage connection r message = .error x ↔
      match kind with
      | .fileInitialMessage => deserializeAndCheckMessage connection
          connection.protobuf.fileInitialMessage invalid message = .error x
      | _ => deserializeAndCheckMessage connection connection.protobuf.chunkHeader invalid message =
          .error x := by
  rcases awaiting_of_expected hexpected with ⟨hawaiting, rfl, rfl⟩ | ⟨m, hawaiting, rfl, rfl⟩
  · simp only [receiveMessage, hne, if_false, hawaiting]
    split
    · rename_i hcheck
      simp only [hcheck, Except.error.injEq]
    · rename_i hcheck
      rw [hcheck]
      simp
  · simp only [receiveMessage, hne, if_false, hawaiting]
    split
    · rename_i hcheck
      simp only [hcheck, Except.error.injEq]
    · rename_i hcheck
      rw [hcheck]
      simp

theorem invalid_of_not_error {kind : Kind} {invalid text : ByteString}
    (hexpected : r.awaiting.expected = some (kind, invalid)) (hne : message ≠ [])
    (herror : connection.protobuf.errorMessage.deserialize message = none)
    (h : receiveMessage connection r message = .error (.networkError text)) : text = invalid := by
  have hcheck := (receiveMessage_expected hexpected hne).mp h
  cases kind with
  | fileInitialMessage => exact check_invalid herror hcheck
  | chunkHeader | errorMessage => exact check_invalid herror hcheck

end

theorem toldApart_chunkHeader (peer : ByteString) {message : ChunkHeader}
    (h : isInitialized message = true) :
    ToldApart ⟨protocolBuffers, peer⟩ (.chunkHeader message) where
  disjoint kind haccepts := by
    cases kind with
    | fileInitialMessage => exact absurd (initial_of_header message) haccepts
    | chunkHeader => rfl
    | errorMessage => exact absurd (error_of_header message) haccepts
  error _ hvalue := by contradiction
  other _ r kind invalid text hexpected hthrown :=
    invalid_of_not_error hexpected (protocolBuffers.chunkHeader.serialize_ne_nil message h)
      (error_of_header message) hthrown

theorem toldApart_errorMessage (peer : ByteString) {message : ErrorMessage}
    (h : isInitialized message = true) (hshort : ∀ s ∈ strings message, s.length < 2 ^ 31) :
    ToldApart ⟨protocolBuffers, peer⟩ (.errorMessage message) where
  disjoint kind haccepts := by
    cases kind with
    | fileInitialMessage =>
      exact absurd (protocolBuffers_tellsErrors.initial message h hshort) haccepts
    | chunkHeader => exact absurd (protocolBuffers_tellsErrors.header message h hshort) haccepts
    | errorMessage => rfl
  error := by
    intro _ hvalue r hexpected
    obtain rfl := Value.errorMessage.inj hvalue
    obtain ⟨⟨kind, invalid⟩, hsome⟩ := Option.ne_none_iff_exists'.mp hexpected
    have hself := protocolBuffers.errorMessage.deserialize_serialize message h hshort
    apply (receiveMessage_expected hsome (protocolBuffers.errorMessage.serialize_ne_nil _ h)).mpr
    cases kind with
    | fileInitialMessage =>
      exact check_errorMessage (protocolBuffers_tellsErrors.initial message h hshort) hself invalid
    | chunkHeader | errorMessage =>
      exact check_errorMessage (protocolBuffers_tellsErrors.header message h hshort) hself invalid
  other hkind := absurd rfl hkind

/-- The messages that are taken for nothing else are the chunk headers and the error messages. -/
theorem toldApart_iff (peer : ByteString) {value : Value} (h : value.Sendable) :
    ToldApart ⟨protocolBuffers, peer⟩ value ↔ value.kind ≠ .fileInitialMessage := by
  cases value with
  | fileInitialMessage message =>
    refine iff_of_false ?_ (not_not_intro rfl)
    intro htold
    have hname : message.filename.isSome = true := by
      have hrequired := h.1
      simp only [isInitialized, Bool.and_eq_true] at hrequired
      exact hrequired.1.1
    have haccepts : protocolBuffers.errorMessage.deserialize
        (protocolBuffers.fileInitialMessage.serialize message) ≠ none := by
      rw [error_of_initial h.2 hname]
      exact Option.some_ne_none _
    exact Kind.noConfusion (htold.disjoint .errorMessage haccepts)
  | chunkHeader message => exact iff_of_true (toldApart_chunkHeader peer h) Kind.noConfusion
  | errorMessage message => exact iff_of_true (toldApart_errorMessage peer h.1 h.2) Kind.noConfusion

/-- An error message with a text. -/
theorem toldApart_iff_missing :
    ToldApart ⟨protocolBuffers, ascii "localhost:8080"⟩ (.errorMessage ⟨some (ascii "missing")⟩) ↔
      Kind.errorMessage ≠ .fileInitialMessage := by
  have hsendable : Value.Sendable (.errorMessage ⟨some (ascii "missing")⟩) := ⟨rfl, by decide⟩
  exact toldApart_iff (ascii "localhost:8080") hsendable

/-- A client that waits for a chunk header reports the name of the file that it is told of instead. -/
theorem not_toldApart_filename :
    ¬ ∀ (peer : ByteString) (value : Value), value.Sendable →
      ToldApart ⟨protocolBuffers, peer⟩ value := by
  intro h
  have hsendable : Value.Sendable
      (.fileInitialMessage ⟨some (ascii "b.txt"), some 0, some 64, some true⟩) :=
    ⟨rfl, by decide⟩
  have htold := h (ascii "localhost:8080") _ hsendable
  have haccepts : protocolBuffers.errorMessage.deserialize
      (protocolBuffers.fileInitialMessage.serialize
        ⟨some (ascii "b.txt"), some 0, some 64, some true⟩) ≠ none := by
    rw [error_of_initial hsendable.2 rfl]
    exact Option.some_ne_none _
  exact Kind.noConfusion (htold.disjoint .errorMessage haccepts)

end Autocomp.Client

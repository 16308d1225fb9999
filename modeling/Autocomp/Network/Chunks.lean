import Autocomp.Lib.Pieces
import Autocomp.Network.Server

namespace Autocomp.Server

open FileStream Loop

/-- The headers and chunks of a file from position `position` on. -/
def chunkMessages (position : Nat) : List (Compressor × ByteString) → List Meaning
  | [] => []
  | (compressor, bytes) :: rest =>
    .header ⟨some compressor, some (BitVec.ofNat 64 position),
      if rest = [] then some true else none⟩ :: .chunk bytes :: chunkMessages (position + 1) rest

def Meaning.bytes (protobuf : Protobuf) : Meaning → ByteString
  | initial message => protobuf.fileInitialMessage.serialize message
  | header message => protobuf.chunkHeader.serialize message
  | chunk bytes => bytes
  | error message => protobuf.errorMessage.serialize message

def TransmissionQueue.meanings (queue : TransmissionQueue) : List Meaning :=
  queue.entries.map Sent.meaning

/-- Every buffer in the queue holds the bytes of what it is meant to be. -/
def TransmissionQueue.Faithful (protobuf : Protobuf) (queue : TransmissionQueue) : Prop :=
  ∀ sent ∈ queue.entries, sent.buffer.contents = sent.meaning.bytes protobuf

theorem serializeMessage_contents {M : Type} [Message M] (format : MessageFormat M) (message : M) :
    (serializeMessage format message .empty).contents = format.serialize message := by
  generalize hbytes : format.serialize message = bytes
  have hresize : (if Buffer.empty.capacity < bytes.length then Buffer.empty.resize bytes.length
      else Buffer.empty).capacity = bytes.length := by
    by_cases h : 0 < bytes.length
    · simp [Buffer.empty, Buffer.resize, h]
    · simp only [Buffer.empty, h, if_false]
      omega
  simp only [serializeMessage, hbytes, hresize, Nat.le_refl, if_true, Buffer.contents,
    Buffer.overwrite, List.take_left]

theorem TransmissionQueue.Faithful.push {protobuf : Protobuf} {queue : TransmissionQueue}
    (h : queue.Faithful protobuf) {sent : Sent}
    (hsent : sent.buffer.contents = sent.meaning.bytes protobuf) :
    TransmissionQueue.Faithful protobuf (queue.push sent) := by
  intro x hx
  rw [SynchronousQueue.entries_push, List.mem_append, List.mem_singleton] at hx
  rcases hx with hx | rfl
  · exact h x hx
  · exact hsent

@[simp] theorem TransmissionQueue.meanings_push (queue : TransmissionQueue) (sent : Sent) :
    TransmissionQueue.meanings (queue.push sent) =
      TransmissionQueue.meanings queue ++ [sent.meaning] := by
  simp [TransmissionQueue.meanings]

theorem serveChunk_ok (host : Host) {s : ServingFile} {c : Compressor} {chunk : Buffer}
    {processor : Processor} {disk : Disk Path}
    (h : s.processor.getNextChunk host s.disk s.chunk = (.ok c, chunk, processor, disk))
    (hbuffer : s.chunkHeaderBuffer = .empty) :
    ∃ t, serveChunk host s = .ok t ∧ t.processor = processor ∧ t.disk = disk ∧ t.chunk = .empty ∧
      t.fileInitialMessageBuffer = s.fileInitialMessageBuffer ∧ t.chunkHeaderBuffer = .empty ∧
      t.nChunks = s.nChunks + 1 ∧ t.broken = s.broken ∧
      TransmissionQueue.meanings t.transmissionQueue =
        TransmissionQueue.meanings s.transmissionQueue ++
          [.header ⟨some c, some (BitVec.ofNat 64 s.nChunks),
            if processor.hasNextChunk then none else some true⟩, .chunk chunk.contents] ∧
      (TransmissionQueue.Faithful host.protobuf s.transmissionQueue →
        TransmissionQueue.Faithful host.protobuf t.transmissionQueue) := by
  simp only [serveChunk, h]
  refine ⟨_, rfl, rfl, rfl, rfl, rfl, rfl, rfl, rfl, ?_, fun hf => ?_⟩
  · simp
  · refine (hf.push ?_).push rfl
    rw [hbuffer]
    exact serializeMessage_contents ..

theorem serveChunk_ioError (host : Host) {s : ServingFile} {message : ByteString} {chunk : Buffer}
    {processor : Processor} {disk : Disk Path}
    (h : s.processor.getNextChunk host s.disk s.chunk =
      (.error (.ioError message), chunk, processor, disk)) :
    serveChunk host s = .ok { s with
      processor := processor, disk := disk, chunk := chunk, broken := true } := by
  simp only [serveChunk, h]

theorem serveChunks_stop {host : Host} {s : ServingFile}
    (h : s.broken = true ∨ s.processor.hasNextChunk = false) :
    Yields (fun fuel => serveChunks host fuel s) (.ok s) :=
  whileLoop_stop (by rcases h with h | h <;> simp [h])

theorem serveChunks_next {host : Host} {s t : ServingFile} {r : Except Exn ServingFile}
    (hbroken : s.broken = false) (hnext : s.processor.hasNextChunk = true)
    (hgo : serveChunk host s = .ok t) (hrest : Yields (fun fuel => serveChunks host fuel t) r) :
    Yields (fun fuel => serveChunks host fuel s) r :=
  whileLoop_next (by simp [hbroken, hnext]) (by rw [hgo]; exact .const _) hrest

theorem serveChunks_throw {host : Host} {s : ServingFile} {x : Exn} (hbroken : s.broken = false)
    (hnext : s.processor.hasNextChunk = true) (hgo : serveChunk host s = .error x) :
    Yields (fun fuel => serveChunks host fuel s) (.error x) :=
  whileLoop_throw (by simp [hbroken, hnext]) (by rw [hgo]; exact .const _)

end Autocomp.Server

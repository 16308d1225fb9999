import Autocomp.Compression.LibraryCodecs
import Autocomp.Network.Client
import Autocomp.Network.FileLoop
import Autocomp.Network.ImageLoop

namespace Autocomp.Server

open FileStream Loop Pieces Client Transition FileProcessor

theorem exec_chunkMessages (message : FileInitialMessage) {chunks : List (Compressor × ByteString)}
    (h : chunks ≠ []) (position : Nat) (rest : List Meaning) :
    exec Awaiting.next (.header message) (chunkMessages position chunks ++ rest) =
      exec Awaiting.next (if message.lastFile.getD false then .nothing else .initial) rest := by
  induction chunks generalizing position with
  | nil => exact absurd rfl h
  | cons chunk chunks ih =>
    obtain ⟨c, bytes⟩ := chunk
    by_cases hnil : chunks = []
    · subst hnil
      simp [chunkMessages, exec, Awaiting.next, afterChunk]
    · simp only [chunkMessages, if_neg hnil, List.cons_append, exec, Awaiting.next,
        Option.bind_some, afterChunk, Option.getD_none, Bool.false_eq_true, if_false]
      exact ih hnil (position + 1)

/-- The messages of a tree are a whole dialogue exactly when there are files and none is empty. -/
theorem TreeMessages.exec_iff {codecs : Codecs} {disk : Disk Path} {chunkSize : Nat}
    (hsize : 0 < chunkSize) {paths : List Path} {messages : List Meaning}
    (h : TreeMessages codecs disk chunkSize paths messages) :
    exec Awaiting.next .initial messages = some .nothing ↔
      paths ≠ [] ∧ ∀ p ∈ paths, disk p ≠ some [] := by
  induction h with
  | nil => simp [exec]
  | @cons path paths content chunks messages hfile hchunks hrest ih =>
    change exec Awaiting.next (.header (initialMessage path content chunkSize (paths = [])))
      (chunkMessages 0 chunks ++ messages) = _ ↔ _
    have hnil := Encodes.eq_nil_iff (by omega) hchunks
    by_cases hempty : content = []
    · -- the client takes what follows for a header
      subst hempty
      rw [hnil.mpr rfl]
      refine iff_of_false ?_ fun hall => hall.2 path (by simp) hfile
      cases hrest with
      | nil => simp [chunkMessages, exec]
      | cons => simp [chunkMessages, exec, Awaiting.next]
    · rw [exec_chunkMessages _ (mt hnil.mp hempty)]
      have hhead : disk path ≠ some [] := by
        rw [hfile, ne_eq, Option.some.injEq]
        exact hempty
      cases hrest with
      | nil => simp [initialMessage, exec, hhead]
      | cons => simpa [initialMessage, hhead] using ih

theorem chunkMessages_sendable {chunks : List (Compressor × ByteString)}
    (h : ∀ chunk ∈ chunks, chunk.2 ≠ []) (position : Nat) :
    ∀ meaning ∈ chunkMessages position chunks, Sendable meaning := by
  induction chunks generalizing position with
  | nil => simp [chunkMessages]
  | cons chunk chunks ih =>
    intro meaning hmeaning
    rcases List.mem_cons.mp hmeaning with rfl | hmeaning
    · rfl
    · rcases List.mem_cons.mp hmeaning with rfl | hmeaning
      · exact h chunk (by simp)
      · exact ih (fun c hc => h c (by simp [hc])) (position + 1) meaning hmeaning

theorem TreeMessages.sendable {codecs : Codecs} {chunkSize : Nat}
    {room : Compressor → Int → ByteString → Prop} (hassumed : codecs.Assumed (chunkSize * 1024) room)
    {disk : Disk Path} {paths : List Path} (hpaths : ∀ p ∈ paths, p.length < 2 ^ 31)
    {messages : List Meaning} (h : TreeMessages codecs disk chunkSize paths messages) :
    ∀ meaning ∈ messages, Sendable meaning := by
  induction h with
  | nil => simp
  | @cons path paths content chunks messages hfile hchunks hrest ih =>
    intro meaning hmeaning
    rcases List.mem_cons.mp hmeaning with rfl | hmeaning
    · exact ⟨rfl, by simpa [Message.strings, initialMessage] using hpaths path (by simp)⟩
    · rcases List.mem_append.mp hmeaning with hmeaning | hmeaning
      · refine chunkMessages_sendable (hchunks.ne_nil hassumed fun p hp => ?_) 0 meaning hmeaning
        exact (mem_pieces hp).1
      · exact ih (fun p hp => hpaths p (by simp [hp])) meaning hmeaning

/-- The client connected to `peer` accepts what the server leaves for its transmission. -/
def Accepted (host : Host) (disk : Disk Path) (buffer peer : ByteString) : Prop :=
  ∃ served, Yields (processRequest host disk buffer) (.ok served) ∧ served.transmitting = true ∧
    Client.Accepts ⟨host.protobuf, peer⟩ served.transmissionQueue.meanings
      (served.transmissionQueue.entries.map fun sent => sent.buffer.contents)

theorem faithful_wire {protobuf : Protobuf} {queue : TransmissionQueue}
    (h : queue.Faithful protobuf) : (queue.entries.map fun sent => sent.buffer.contents) =
      queue.meanings.map (·.bytes protobuf) := by
  rw [TransmissionQueue.meanings, List.map_map]
  exact List.map_congr_left h

section

variable {host : Host} {disk : Disk Path} {buffer : ByteString}
  {request : FileTransmissionRequest} {p : FileProcessor} {node : Node}

theorem configured_chunkSize (hconfigure : configureFileProcessor host request = .ok (.file p))
    (htrain : request.mode ≠ some .TRAIN) : 0 < p.chunkSize ∧ p.chunkSize ≤ 512 := by
  obtain ⟨chunkSize, compressor, rfl, hconfigured, hsmall, -⟩ :=
    configureFileProcessor_ok hconfigure htrain
  have hpos := hconfigured.pos
  refine ⟨?_, hsmall⟩
  change 0 < chunkSize
  omega

/-- The client accepts what is sent for a tree exactly when the tree has a file and no empty one; and
it is sent exactly when the strategy has room for its pieces. -/
theorem accepted_iff_takesAll {room : Compressor → Int → ByteString → Prop}
    (hassumed : host.codecs.Assumed (p.chunkSize * 1024) room) (peer : ByteString)
    (hrequest : host.protobuf.fileTransmissionRequest.deserialize buffer = some request)
    (hconfigure : configureFileProcessor host request = .ok (.file p))
    (htrain : request.mode ≠ some .TRAIN)
    (hreadable : Readable host disk (request.filename.getD []) node) :
    Accepted host disk buffer peer ↔
      (node.files (request.filename.getD []) ≠ [] ∧
        ∀ path ∈ node.files (request.filename.getD []), disk path ≠ some []) ∧
      p.compressor.TakesAll room
        (treePieces disk p.chunkSize (node.listing (request.filename.getD []))) := by
  rcases processRequest_cases hassumed hrequest hconfigure htrain hreadable with
    ⟨htakes, served, hyields, htransmitting, -, htree, hfaithful⟩ | ⟨hnot, hyields⟩
  · have hsendable := htree.sendable hassumed fun path hpath =>
      Nat.lt_trans (hreadable.pathMax path (Node.mem_listing.mp hpath)) (by decide)
    have hperm := node.listing_perm (request.filename.getD [])
    have hexec : Accepted host disk buffer peer ↔
        exec Awaiting.next .initial served.transmissionQueue.meanings = some .nothing := by
      rw [← accepts_iff ⟨host.protobuf, peer⟩ hsendable, ← faithful_wire hfaithful]
      constructor
      · rintro ⟨served', hyields', -, haccepts⟩
        rwa [Except.ok.inj (hyields'.unique hyields)] at haccepts
      · intro haccepts
        exact ⟨served, hyields, htransmitting, haccepts⟩
    rw [and_iff_left htakes, hexec, htree.exec_iff (configured_chunkSize hconfigure htrain).1]
    refine and_congr (not_congr ?_) (forall_congr' fun path => imp_congr_left hperm.mem_iff)
    rw [← List.length_eq_zero_iff, hperm.length_eq, List.length_eq_zero_iff]
  · refine iff_of_false ?_ fun h => hnot h.2
    rintro ⟨served, hyields', -⟩
    have hsame := hyields'.unique hyields
    contradiction

/-- All but Snappy have room for all pieces, and Snappy for those that leave it what it asks for. -/
theorem configured_takesAll {libraries : Libraries} (hdocumented : libraries.Documented)
    (hconfigure : configureFileProcessor host request = .ok (.file p))
    (htrain : request.mode ≠ some .TRAIN) {paths : List Path}
    (hsnappy : p.compressor.Avoids .SNAPPY ∨ ∀ piece ∈ treePieces disk p.chunkSize paths,
      Compressor.SNAPPY.HasRoom piece.length (11 * (p.chunkSize * 1024) / 10)) :
    p.compressor.TakesAll (libraries.HasRoom (11 * (p.chunkSize * 1024) / 10))
      (treePieces disk p.chunkSize paths) := by
  obtain ⟨chunkSize, compressor, rfl, hconfigured, -⟩ := configureFileProcessor_ok hconfigure htrain
  refine hconfigured.takesAll hdocumented (fun piece hpiece => ?_) hsnappy
  obtain ⟨path, -, hpath⟩ := List.mem_flatMap.mp hpiece
  exact (mem_pieces hpath).2

end

def sampleRequest (mode : FileRequestMode) (compressor : Option Compressor) :
    FileTransmissionRequest :=
  ⟨some (ascii "a"), some mode, compressor, none⟩

theorem sampleRequest_deserialize (mode : FileRequestMode) (compressor : Option Compressor) :
    sampleHost.protobuf.fileTransmissionRequest.deserialize
      (protocolBuffers.fileTransmissionRequest.serialize (sampleRequest mode compressor)) =
        some (sampleRequest mode compressor) :=
  MessageFormat.deserialize_serialize _ _ rfl (by simp [Message.strings, sampleRequest, ascii])

theorem sample_readable (content : ByteString) :
    Readable sampleHost (sampleDisk content) (ascii "a") .file where
  root := by simp [sampleHost]
  unlocked := by simp
  files := by simp [Node.files, sampleDisk]
  pathMax := by simp [Node.files, ascii]

def treeHost (node : Node) : Host :=
  { sampleHost with
    root := fun path => if path = ascii "t" then .ok node else .error DirectoryExplorer.ENOENT }

def treeRequest (mode : FileRequestMode) (compressor : Option Compressor) :
    FileTransmissionRequest :=
  ⟨some (ascii "t"), some mode, compressor, none⟩

theorem treeRequest_deserialize (node : Node) (mode : FileRequestMode)
    (compressor : Option Compressor) :
    (treeHost node).protobuf.fileTransmissionRequest.deserialize
      (protocolBuffers.fileTransmissionRequest.serialize (treeRequest mode compressor)) =
        some (treeRequest mode compressor) :=
  MessageFormat.deserialize_serialize _ _ rfl (by simp [Message.strings, treeRequest, ascii])

def twoNode : Node := .directory (.cons (ascii "a") .file (.cons (ascii "b") .file .nil))

theorem twoNode_files : twoNode.files (ascii "t") = [ascii "t/a", ascii "t/b"] := by
  decide

def twoDisk (a b : ByteString) : Disk Path :=
  Function.update (Function.update (fun _ => none) (ascii "t/a") (some a)) (ascii "t/b") (some b)

theorem twoDisk_eq {a b : ByteString} {P : ByteString → Prop} (ha : P a) (hb : P b) :
    ∀ path ∈ twoNode.files (ascii "t"), ∃ content, twoDisk a b path = some content ∧ P content := by
  rw [twoNode_files]
  intro path hpath
  rcases List.mem_cons.mp hpath with rfl | hpath
  · exact ⟨a, rfl, ha⟩
  · rw [List.mem_singleton.mp hpath]
    exact ⟨b, rfl, hb⟩

theorem two_readable (a b : ByteString) :
    Readable (treeHost twoNode) (twoDisk a b) (ascii "t") twoNode where
  root := by simp [treeHost]
  unlocked := by simp [twoNode]
  files path hpath := by
    obtain ⟨content, hcontent, -⟩ :=
      twoDisk_eq (a := a) (b := b) (P := fun _ => True) trivial trivial path hpath
    simp [hcontent]
  pathMax := by
    rw [twoNode_files]
    decide

end Autocomp.Server

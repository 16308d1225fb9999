import Autocomp.Network.ChunkLimits
import Autocomp.Network.Destinations
import Autocomp.Network.WholeTransfer

/-!
# The transfer of a tree

A client requests a tree and runs to the end of `requestFile`, against a server that reads it with a
`FileProcessor`. What the client has on its disk then is compared with what the server had: first with
compressors that keep their contract, then with the classes on libraries that do as they document.
-/

namespace Autocomp.Client

open FileStream Pieces Transition
open Server (Meaning TreeMessages chunkMessages initialMessage)

structure Call where
  path : Path
  mode : FileRequestMode
  compressor : Option Compressor
  compressionLevel : Option Int
  destinationDirectory : Path

namespace Call

def message (call : Call) : FileTransmissionRequest where
  filename := some call.path
  mode := some call.mode
  compressor := call.compressor
  compressionLevel := call.compressionLevel.bind fun level =>
    if 0 ≤ level then some (BitVec.ofInt 32 level) else none

/-- What `requestFile` leaves in the members that the decompression thread reads. -/
def session (call : Call) (codecs : Codecs) (scripts : Scripts) (creatable : Path → Bool) :
    Session where
  codecs := codecs
  scripts := scripts
  creatable := creatable
  destinationDirectory := call.destinationDirectory
  preCompression := call.mode = .PRE_COMPRESS
  preCompressingCompressor := call.compressor.getD .ZLIB

end Call

theorem encoded_congr {codecs codecs' : Codecs} (h : codecs.library = codecs'.library) {n : Nat}
    {piece bytes : ByteString} {c : Compressor} (hencoded : Encoded codecs n piece c bytes) :
    Encoded codecs' n piece c bytes := by
  cases hencoded with
  | copy => exact .copy
  | library hfpc hcopy hpassed hin hgo => exact .library hfpc hcopy hpassed hin (h ▸ hgo)
  | fpc hlevel hpiece hjunk hbytes => exact .fpc hlevel hpiece hjunk hbytes

/-- A piece comes back from what stands for it, whole if FPC finds whole words only. -/
theorem decode_encoded {session : Session} {n : Nat}
    {room : Compressor → Int → ByteString → Prop} (hassumed : session.codecs.Assumed n room)
    (hmode : session.preCompression = false) {piece bytes : ByteString} {c : Compressor}
    (position : Nat) (last : Option Bool) (hencoded : Encoded session.codecs n piece c bytes)
    (hne : piece ≠ []) (hle : piece.length ≤ n) (hn : n ≤ 524288)
    (hfpc : c = .FPC → 8 ∣ piece.length) :
    ∃ capacity, decode session n (⟨some c, some (BitVec.ofNat 64 position), last⟩, bytes) =
        some (piece, capacity) ∧ (piece.length = n → capacity = n) := by
  cases hencoded with
  | copy =>
    refine ⟨piece.length, ?_, id⟩
    simp [decode]
  | @library _ level inData outData compressed hnotFPC hcopy hpassed hin hgo =>
    have hcapacity : (Buffer.withCapacity n).capacity = n := rfl
    obtain ⟨result, hresult, hcontents, -⟩ :=
      (hassumed c hnotFPC hcopy).decompress_compress level (defaultLevel c) inData outData
        compressed (.withCapacity n) hpassed hgo (by rw [hin]; exact hle) (by omega)
    rw [Buffer.ofBytes] at hresult
    refine ⟨n, ?_, fun _ => rfl⟩
    simp [decode, hcopy, hmode, session.codecs.strategy_library hnotFPC, hresult, hcontents, hin]
  | @fpc level ws junk _ hlevel hpiece hjunk hbytes =>
    have hdvd := hfpc rfl
    have hlengths : piece.length = 8 * ws.length + junk.length := by
      rw [hpiece, List.length_append, FPCCompressor.listBytes_length]
    have hnil : junk = [] := by
      rw [← List.length_eq_zero_iff]
      omega
    have hws : ws ≠ [] := by
      rintro rfl
      rw [hnil] at hpiece
      exact hne hpiece
    have hroom : (Buffer.withCapacity n).capacity = n := rfl
    obtain ⟨result, hresult, hcontents, -⟩ := FPCCompressor.decompress_chunk
      session.codecs.inBytes session.codecs.outWords (.withCapacity n) hbytes hlevel hws (by omega)
      (by omega) (by omega)
    refine ⟨n, ?_, fun _ => rfl⟩
    simp [decode, hmode, Codecs.strategy, hresult, hcontents, hpiece, hnil]

def headed (position : Nat) : List (Compressor × ByteString) → List (ChunkHeader × ByteString)
  | [] => []
  | (compressor, bytes) :: rest =>
    (⟨some compressor, some (BitVec.ofNat 64 position), if rest = [] then some true else none⟩,
      bytes) :: headed (position + 1) rest

theorem entries_chunks (position : Nat) (chunks : List (Compressor × ByteString))
    (rest : List Meaning) :
    entries (chunkMessages position chunks ++ rest) =
      (headed position chunks).map chunkEntry ++ entries rest := by
  induction chunks generalizing position with
  | nil => rfl
  | cons chunk chunks ih =>
    rw [chunkMessages, List.cons_append, List.cons_append, entries, ih, headed]
    rfl

theorem headed_lastMarked {chunks : List (Compressor × ByteString)} (h : chunks ≠ [])
    (position : Nat) : LastMarked (headed position chunks) := by
  induction chunks generalizing position with
  | nil => exact absurd rfl h
  | cons chunk chunks ih =>
    cases chunks with
    | nil => rfl
    | cons next chunks =>
      exact LastMarked.cons rfl (ih (List.cons_ne_nil _ _) (position + 1))

theorem mem_headed {position : Nat} {chunks : List (Compressor × ByteString)}
    {chunk : ChunkHeader × ByteString} (h : chunk ∈ headed position chunks) :
    ∃ c, (c, chunk.2) ∈ chunks := by
  induction chunks generalizing position with
  | nil => contradiction
  | cons next chunks ih =>
    rcases List.mem_cons.mp h with rfl | h
    · exact ⟨next.1, List.mem_cons_self ..⟩
    · obtain ⟨c, hc⟩ := ih h
      exact ⟨c, List.mem_cons_of_mem _ hc⟩

theorem decodings_headed {session : Session} {n : Nat}
    {room : Compressor → Int → ByteString → Prop} (hassumed : session.codecs.Assumed n room)
    (hmode : session.preCompression = false) (hpos : 0 < n) (hn : n ≤ 524288)
    (hwords : 8 ∣ n) {content : ByteString} {chunks : List (Compressor × ByteString)}
    (hencodes : FileProcessor.Encodes session.codecs n (pieces n content) chunks)
    (hfpc : ∀ chunk ∈ chunks, chunk.1 = .FPC → 8 ∣ content.length) (position : Nat) :
    decodings session n (headed position chunks) = some (pieces n content) := by
  induction hlen : content.length using Nat.strongRecOn
    generalizing content chunks position with
  | ind m ih =>
    subst hlen
    by_cases hnil : content = []
    · rw [(FileProcessor.Encodes.eq_nil_iff hpos hencodes).mpr hnil, hnil, pieces_nil]
      rfl
    · rw [pieces_of_ne hpos hnil] at hencodes ⊢
      obtain _ | @⟨_, ⟨c, bytes⟩, _, chunks, hencoded, hmore⟩ := hencodes
      have hfull : content.drop n ≠ [] → (content.take n).length = n := by
        intro hrest
        have hlt := List.length_pos_of_ne_nil hrest
        rw [List.length_drop] at hlt
        rw [List.length_take]
        omega
      have hdvd (hc : c = .FPC) : 8 ∣ (content.take n).length := by
        have hall := hfpc (c, bytes) (List.mem_cons_self ..) hc
        rw [List.length_take]
        rcases Nat.le_total n content.length with hle | hle
        · rwa [Nat.min_eq_left hle]
        · rwa [Nat.min_eq_right hle]
      obtain ⟨capacity, hdecode, hcapacity⟩ := decode_encoded hassumed hmode position
        (if chunks = [] then some true else none) hencoded
        (mem_pieces (pieces_of_ne hpos hnil ▸ List.mem_cons_self ..)).1
        (List.length_take_le ..) hn hdvd
      rw [headed, decodings, hdecode]
      simp only
      by_cases hrest : content.drop n = []
      · rw [hrest, pieces_nil] at hmore ⊢
        cases hmore
        rfl
      · have hlt := List.length_pos_of_ne_nil hrest
        rw [hcapacity (hfull hrest), ih (content.drop n).length _ hmore _ (position + 1) rfl]
        · rfl
        · rw [List.length_drop] at hlt ⊢
          omega
        · intro chunk hchunk hc
          have hall := hfpc chunk (List.mem_cons_of_mem _ hchunk) hc
          rw [List.length_drop]
          exact Nat.dvd_sub hall hwords

theorem limited_chunks {fpc : Prop} {position : Nat} {chunks : List (Compressor × ByteString)}
    (h : ∀ meaning ∈ chunkMessages position chunks, Server.Limited fpc meaning) :
    ∀ chunk ∈ chunks, (chunk.1 = .FPC → fpc) ∧ chunk.2.length ≤ Server.maxChunkBytes := by
  induction chunks generalizing position with
  | nil => simp
  | cons chunk chunks ih =>
    rw [chunkMessages, List.forall_mem_cons, List.forall_mem_cons] at h
    obtain ⟨hheader, hchunk, hrest⟩ := h
    intro c hc
    rcases List.mem_cons.mp hc with rfl | hc
    · refine ⟨fun hfpc => hheader.mp ?_, hchunk⟩
      rw [hfpc]
    · exact ih hrest c hc

theorem treeMessages_congr {codecs codecs' : Codecs} (h : codecs.library = codecs'.library)
    {disk : Disk Path} {chunkSize : Nat} {paths : List Path} {messages : List Meaning}
    (htree : TreeMessages codecs disk chunkSize paths messages) :
    TreeMessages codecs' disk chunkSize paths messages := by
  induction htree with
  | nil => exact .nil
  | cons hfile hchunks _ ih =>
    exact .cons hfile (hchunks.imp fun _ _ hencoded => encoded_congr h hencoded) ih

/-- A file of the server as the client receives it: whole. -/
structure Received (session : Session) (disk : Disk Path) (file : ReceivedFile) : Prop where
  wellFormed : file.WellFormed
  short : ∀ chunk ∈ file.chunks, chunk.2.length < 2 ^ 32
  decodes : (decodings session file.capacity file.chunks).isSome
  content : disk file.name = some (file.bytes session)

/-- The messages of a tree without empty files announce its files, and these are received whole. -/
theorem exists_received {session : Session} {chunkSize : Nat}
    {room : Compressor → Int → ByteString → Prop}
    (hassumed : session.codecs.Assumed (chunkSize * 1024) room)
    (hmode : session.preCompression = false) {disk : Disk Path} (hpos : 0 < chunkSize)
    (hle : chunkSize ≤ 512) {fpc : Prop} {paths : List Path} {messages : List Meaning}
    (h : TreeMessages session.codecs disk chunkSize paths messages)
    (hnonempty : ∀ p ∈ paths, disk p ≠ some [])
    (hlimited : ∀ meaning ∈ messages, Server.Limited fpc meaning)
    (hwords : fpc → ∀ p ∈ paths, ∀ content, disk p = some content → 8 ∣ content.length) :
    ∃ files : List ReceivedFile, entries messages = files.flatMap ReceivedFile.entries ∧
      files.map ReceivedFile.name = paths ∧ ∀ file ∈ files, Received session disk file := by
  induction h with
  | nil => exact ⟨[], rfl, rfl, by simp⟩
  | @cons path paths content chunks messages hfile hchunks hrest ih =>
    rw [List.forall_mem_cons, List.forall_mem_append] at hlimited
    obtain ⟨-, hhere, hlater⟩ := hlimited
    obtain ⟨files, hentries, hnames, hreceived⟩ :=
      ih (fun p hp => hnonempty p (List.mem_cons_of_mem _ hp)) hlater
        fun hfpc p hp => hwords hfpc p (List.mem_cons_of_mem _ hp)
    have hlimits := limited_chunks hhere
    have hne : content ≠ [] := by
      rintro rfl
      exact hnonempty path (List.mem_cons_self ..) hfile
    have hsome : chunks ≠ [] :=
      mt (FileProcessor.Encodes.eq_nil_iff (by omega) hchunks).mp hne
    have hdecode := decodings_headed hassumed hmode (by omega) (by omega)
      (Nat.dvd_mul_left_of_dvd (by decide) chunkSize) hchunks
      (fun chunk hchunk hc => hwords ((hlimits chunk hchunk).1 hc) path (List.mem_cons_self ..)
        content hfile) 0
    set file : ReceivedFile :=
      ⟨initialMessage path content chunkSize (paths = []), headed 0 chunks⟩ with hdef
    have hcapacity : file.capacity = chunkSize * 1024 := by
      simp only [hdef, ReceivedFile.capacity, initialMessage, Option.getD_some,
        BitVec.toNat_ofNat]
      omega
    rw [← hcapacity] at hdecode
    refine ⟨file :: files, ?_, ?_, ?_⟩
    · rw [entries, entries_chunks, hentries, List.flatMap_cons]
      rfl
    · rw [List.map_cons, hnames]
      rfl
    · rw [List.forall_mem_cons]
      refine ⟨⟨⟨rfl, headed_lastMarked hsome 0⟩, fun chunk hchunk => ?_, ?_, ?_⟩, hreceived⟩
      · obtain ⟨c, hc⟩ := mem_headed hchunk
        exact Nat.lt_of_le_of_lt (hlimits _ hc).2 (by decide)
      · exact Option.isSome_of_eq_some hdecode
      · rw [ReceivedFile.bytes]
        change disk path = some ((decodings session file.capacity (headed 0 chunks)).getD []).flatten
        rw [hfile, hdecode, Option.getD_some, flatten_pieces (by omega)]

/-- What the library writes for a message is no longer than a size can say. -/
structure Compact (protobuf : Protobuf) : Prop where
  initial : ∀ m : FileInitialMessage, (∀ s ∈ Message.strings m, s.length < 4096) →
    (protobuf.fileInitialMessage.serialize m).length < 2 ^ 32
  header : ∀ m : ChunkHeader, (protobuf.chunkHeader.serialize m).length < 2 ^ 32

theorem optionalField_length {α : Type} (number : Nat) (payload : α → WireFormat.Payload)
    (value : Option α) : (optionalField number payload value).length ≤ 1 := by
  cases value <;> simp [optionalField]

theorem optionalField_varint {α : Type} {number : Nat} {convert : α → Nat} {value : Option α}
    {f : WireFormat.Field}
    (hf : f ∈ optionalField number (fun v => .varint (convert v)) value) : f.payload.size = 0 := by
  obtain ⟨v, -, rfl⟩ := Option.map_eq_some_iff.mp (Option.mem_toList.mp hf)
  rfl

theorem protocolBuffers_compact : Compact protocolBuffers where
  initial m hm := by
    have hwellFormed := LawfulMessage.wellFormed m fun s hs => Nat.lt_trans (hm s hs) (by decide)
    have hlength : (Message.fields m).length ≤ 4 := by
      have h₁ := optionalField_length 1 .delimited m.filename
      have h₂ := optionalField_length 2 (fun size => .varint size.toNat) m.fileSize
      have h₃ := optionalField_length 3 (fun size => .varint size.toNat) m.chunkSize
      have h₄ := optionalField_length 4 (fun last => .varint last.toNat) m.lastFile
      simp only [Message.fields, List.length_append]
      omega
    have hsize : ∀ f ∈ Message.fields m, f.payload.size ≤ 4096 := by
      intro f hf
      simp only [Message.fields, List.mem_append] at hf
      rcases hf with ((hf | hf) | hf) | hf
      · obtain ⟨name, hname, rfl⟩ := Option.map_eq_some_iff.mp (Option.mem_toList.mp hf)
        exact Nat.le_of_lt (hm name (by simp [Message.strings, hname]))
      · rw [optionalField_varint hf]
        exact Nat.zero_le _
      · rw [optionalField_varint hf]
        exact Nat.zero_le _
      · rw [optionalField_varint hf]
        exact Nat.zero_le _
    have hall := WireFormat.length_flatMap_write_le fun f hf => ⟨hwellFormed f hf, hsize f hf⟩
    have hfour := Nat.mul_le_mul_right (4096 + 20) hlength
    change ((Message.fields m).flatMap WireFormat.Field.write).length < 2 ^ 32
    omega
  header m := by
    have hwellFormed := LawfulMessage.wellFormed m (by simp [Message.strings])
    have hlength : (Message.fields m).length ≤ 3 := by
      have h₁ := optionalField_length 1 (fun c => .varint c.value) m.compressor
      have h₂ := optionalField_length 2 (fun position => .varint position.toNat) m.chunkPosition
      have h₃ := optionalField_length 3 (fun last => .varint last.toNat) m.lastChunk
      simp only [Message.fields, List.length_append]
      omega
    have hsize : ∀ f ∈ Message.fields m, f.payload.size ≤ 0 := by
      intro f hf
      simp only [Message.fields, List.mem_append] at hf
      rcases hf with (hf | hf) | hf
      · exact Nat.le_of_eq (optionalField_varint hf)
      · exact Nat.le_of_eq (optionalField_varint hf)
      · exact Nat.le_of_eq (optionalField_varint hf)
    have hall := WireFormat.length_flatMap_write_le fun f hf => ⟨hwellFormed f hf, hsize f hf⟩
    have hthree := Nat.mul_le_mul_right 20 hlength
    change ((Message.fields m).flatMap WireFormat.Field.write).length < 2 ^ 32
    omega

theorem chunkMessages_short {protobuf : Protobuf} (hcompact : Compact protobuf)
    {chunks : List (Compressor × ByteString)}
    (h : ∀ chunk ∈ chunks, chunk.2.length < 2 ^ 32) (position : Nat) :
    ∀ meaning ∈ chunkMessages position chunks, (meaning.bytes protobuf).length < 2 ^ 32 := by
  induction chunks generalizing position with
  | nil => simp [chunkMessages]
  | cons chunk chunks ih =>
    rw [chunkMessages, List.forall_mem_cons, List.forall_mem_cons]
    exact ⟨hcompact.header _, h chunk (List.mem_cons_self ..),
      ih (fun c hc => h c (List.mem_cons_of_mem _ hc)) _⟩

theorem treeMessages_short {protobuf : Protobuf} (hcompact : Compact protobuf) {fpc : Prop}
    {codecs : Codecs} {disk : Disk Path} {chunkSize : Nat} {paths : List Path}
    {messages : List Meaning} (h : TreeMessages codecs disk chunkSize paths messages)
    (hpaths : ∀ p ∈ paths, p.length < 4096)
    (hlimited : ∀ meaning ∈ messages, Server.Limited fpc meaning) :
    ∀ meaning ∈ messages, (meaning.bytes protobuf).length < 2 ^ 32 := by
  induction h with
  | nil => simp
  | @cons path paths content chunks messages hfile hchunks hrest ih =>
    rw [List.forall_mem_cons, List.forall_mem_append] at hlimited ⊢
    obtain ⟨-, hhere, hlater⟩ := hlimited
    refine ⟨hcompact.initial _ ?_,
      chunkMessages_short hcompact (fun chunk hchunk =>
        Nat.lt_of_le_of_lt (limited_chunks hhere chunk hchunk).2 (by decide)) 0,
      ih (fun p hp => hpaths p (List.mem_cons_of_mem _ hp)) hlater⟩
    simpa [Message.strings, initialMessage] using hpaths path (List.mem_cons_self ..)

/-- A tree that can be transferred: it can be read, it has files and none is empty, whole words where
FPC is asked for, and every file has a destination of its own that the client can create. -/
structure Suited (host : Host) (disk : Disk Path) (call : Call) (session : Session)
    (node : Node) : Prop where
  readable : Server.Readable host disk call.path node
  some_file : node.files call.path ≠ []
  nonempty : ∀ p ∈ node.files call.path, disk p ≠ some []
  words : call.mode = .COMPRESS → call.compressor = some .FPC → ∀ p ∈ node.files call.path,
    ∀ content, disk p = some content → 8 ∣ content.length
  fits : ∀ p ∈ node.files call.path, (p.takeWhile (· ≠ 0)).length < MAX_STRING_LENGTH
  creatable : ∀ p ∈ node.files call.path, session.creatable (session.finalPath p) = true
  distinct : ((node.files call.path).map baseOf).Nodup

theorem request_deserialize {host : Host} {disk : Disk Path} {call : Call} {node : Node}
    (hreadable : Server.Readable host disk call.path node) (hne : node.files call.path ≠ []) :
    host.protobuf.fileTransmissionRequest.deserialize
      (host.protobuf.fileTransmissionRequest.serialize call.message) = some call.message := by
  apply MessageFormat.deserialize_serialize
  · rfl
  · obtain ⟨q, hq⟩ := List.exists_mem_of_ne_nil _ hne
    obtain ⟨tail, htail, -⟩ := Node.below_of_mem hq
    have hmax := hreadable.pathMax q hq
    rw [htail, List.length_append] at hmax
    simp only [Message.strings, Call.message, Option.toList_some, List.mem_singleton]
    rintro s rfl
    omega

/-- What a request leaves to be sent is a whole dialogue, and its files are received whole. -/
theorem request_dialogue {host : Host} {p : FileProcessor}
    {room : Compressor → Int → ByteString → Prop}
    (hassumed : host.codecs.Assumed (p.chunkSize * 1024) room)
    (hfits : host.codecs.Fits (p.chunkSize * 1024)) (hcompact : Compact host.protobuf)
    {disk : Disk Path} {call : Call} {session : Session}
    (hlibrary : host.codecs.library = session.codecs.library) (hmode : call.mode ≠ .TRAIN)
    (hpre : session.preCompression = false) {node : Node} (h : Suited host disk call session node)
    (hconfigure : Server.configureFileProcessor host call.message = .ok (.file p))
    (htakes : p.compressor.TakesAll room
      (Server.treePieces disk p.chunkSize (node.listing call.path))) (peer : ByteString) :
    ∃ (served : Server.Served) (sent : List Meaning) (files : List ReceivedFile),
      Loop.Yields (Server.processRequest host disk
        (host.protobuf.fileTransmissionRequest.serialize call.message)) (.ok served) ∧
      WholeTransfer.Dialogue ⟨host.protobuf, peer⟩ served sent ∧
      entries sent = files.flatMap ReceivedFile.entries ∧
      files.map ReceivedFile.name = node.listing call.path ∧
      ∀ file ∈ files, Received session disk file := by
  have hmem {q : Path} : q ∈ node.listing call.path ↔ q ∈ node.files call.path := Node.mem_listing
  have hrequest : host.protobuf.fileTransmissionRequest.deserialize
      (host.protobuf.fileTransmissionRequest.serialize call.message) = some call.message :=
    request_deserialize h.readable h.some_file
  have htrain : call.message.mode ≠ some .TRAIN := by
    simpa [Call.message] using hmode
  rcases Server.processRequest_cases hassumed hrequest hconfigure htrain h.readable with
    ⟨-, served, hyields, htransmitting, -, htree, hfaithful⟩ | ⟨hnot, -⟩
  · change TreeMessages host.codecs disk p.chunkSize (node.listing call.path) _ at htree
    obtain ⟨n, hn⟩ := hyields
    have hlimited := Server.processRequest_limited hassumed hfits hrequest hconfigure htrain
      (hn n (Nat.le_refl _))
    obtain ⟨hpos, hsmall⟩ := Server.configured_chunkSize hconfigure htrain
    have hsession : session.codecs.Assumed (p.chunkSize * 1024) room := by
      rw [Codecs.Assumed, ← hlibrary]
      exact hassumed
    obtain ⟨files, hentries, hnames, hreceived⟩ := exists_received hsession hpre hpos hsmall
      (treeMessages_congr hlibrary htree) (fun q hq => h.nonempty q (hmem.mp hq)) hlimited
      (fun hfpc q hq => h.words (Option.some.inj hfpc.1) hfpc.2 q (hmem.mp hq))
    refine ⟨served, served.transmissionQueue.meanings, files, ⟨n, hn⟩,
      ⟨htransmitting, Server.faithful_wire hfaithful, ?_, ?_, ?_⟩, hentries, hnames, hreceived⟩
    · exact htree.sendable hassumed fun q hq =>
        Nat.lt_trans (h.readable.pathMax q (hmem.mp hq)) (by decide)
    · exact treeMessages_short hcompact htree (fun q hq => h.readable.pathMax q (hmem.mp hq))
        hlimited
    · refine (htree.exec_iff hpos).mpr ⟨?_, fun q hq => h.nonempty q (hmem.mp hq)⟩
      rw [← List.length_pos_iff, (node.listing_perm call.path).length_eq]
      exact List.length_pos_iff.mpr h.some_file
  · exact absurd htakes hnot

theorem Received.receipt {session : Session} {disk : Disk Path} {file : ReceivedFile}
    (hpre : session.preCompression = false) (h : Received session disk file)
    (hfits : (file.name.takeWhile (· ≠ 0)).length < MAX_STRING_LENGTH)
    (hcreatable : session.creatable (session.finalPath file.name) = true) :
    Receipt session file where
  wellFormed := h.wellFormed
  short := h.short
  decodes := h.decodes
  receivable := by
    have habsolute : absoluteFilename file.name = .ok (file.name.takeWhile (· ≠ 0)) := if_pos hfits
    refine ⟨_, habsolute, ?_⟩
    rw [Session.destination_eq habsolute, Session.receivedPath, Session.extenssion, hpre]
    simpa using hcreatable
  plain := by
    intro himages
    simp [Session.restoresImages, hpre] at himages

/-- What a transfer of `files` has come to: no `receive` has failed; those that have been finished so
far are on the client's disk as they are in the source; when `shutdown` has returned these are all;
and until it and the request have returned, something can happen that is not left to chance. -/
structure Transferring (setting : WholeTransfer.Setting) (source : Disk Path) (files : List Path)
    (s : WholeTransfer.State) : Prop where
  reading : ∀ x, s.reading ≠ .failed x
  finished : ∀ q ∈ files.take s.client.decompression.target.finished.length,
    s.client.decompression.target.disk (setting.session.finalPath q) = source q
  returned : s.client.phase = .returned → ∀ q ∈ files,
    s.client.decompression.target.disk (setting.session.finalPath q) = source q
  progress : s.server.request ≠ [] ∨ s.client.phase ≠ .returned →
    ∃ e, e.Due ∧ WholeTransfer.step setting s e ≠ none

open WholeTransfer in
/-- A dialogue that announces `files`, each of which can be received and keeps clear of the ones after
it, run by the two machines from end to end. -/
theorem files_transferred {session : Session} {connection : Connection} {served : Server.Served}
    {sent : List Meaning} {files : List ReceivedFile} {source : Disk Path}
    (hafresh : session.codecs.Afresh) (hsupported : session.Supported)
    (hdialogue : Dialogue connection served sent)
    (hentries : entries sent = files.flatMap ReceivedFile.entries)
    (hreceipt : ∀ file ∈ files, Receipt session file)
    (hsource : ∀ file ∈ files, source file.name = some (session.restored (file.bytes session)))
    (hapart : files.Pairwise fun f g => Apart session f.name g.name)
    {receiveBuffer : Nat} (hroom : 0 < receiveBuffer) {clientDisk : Disk Path}
    {s : WholeTransfer.State}
    (hrun : Reachable (WholeTransfer.step ⟨connection, session, receiveBuffer⟩)
      (.start served clientDisk) s) :
    Transferring ⟨connection, session, receiveBuffer⟩ source (files.map ReceivedFile.name) s := by
  have hsupports : ∀ file ∈ files, session.Supported := fun _ _ => hsupported
  obtain ⟨rest, hs⟩ := inv_reachable hdialogue hrun
  have hthreads := Shutdown.refines hs.client
  obtain ⟨d, hall⟩ := files_received hafresh hsupports hreceipt (d := .start clientDisk) rfl
  rw [← hentries] at hall
  have hown : OwnDestinations session (files.flatMap ReceivedFile.entries) clientDisk
      (files.map ReceivedFile.name) source :=
    ownDestinations_of_apart hafresh hsupports hreceipt hsource hapart
  rw [hentries] at hthreads
  obtain ⟨hreading, -, hprogress⟩ := transfer_completes hdialogue hroom hall hrun
  refine ⟨hreading, hown.kept _ hthreads, fun hreturned q hq => ?_, hprogress⟩
  have hlength := hown.all _ hthreads (decide_eq_true hreturned)
  apply hown.kept _ hthreads
  rw [hlength, List.take_length]
  exact hq

open WholeTransfer in
theorem Suited.transferred {host : Host} {disk : Disk Path} {call : Call} {session : Session}
    {node : Node} (h : Suited host disk call session node) (hafresh : session.codecs.Afresh)
    (hpre : session.preCompression = false) {connection : Connection} {served : Server.Served}
    {sent : List Meaning} {files : List ReceivedFile} (hdialogue : Dialogue connection served sent)
    (hentries : entries sent = files.flatMap ReceivedFile.entries)
    (hnames : files.map ReceivedFile.name = node.listing call.path)
    (hreceived : ∀ file ∈ files, Received session disk file) {receiveBuffer : Nat}
    (hroom : 0 < receiveBuffer) {clientDisk : Disk Path} {s : WholeTransfer.State}
    (hrun : Reachable (WholeTransfer.step ⟨connection, session, receiveBuffer⟩)
      (.start served clientDisk) s) :
    Transferring ⟨connection, session, receiveBuffer⟩ disk (node.listing call.path) s := by
  have hname : ∀ file ∈ files, file.name ∈ node.files call.path := by
    intro file hfile
    rw [← Node.mem_listing, ← hnames]
    exact List.mem_map_of_mem hfile
  have hreceipt : ∀ file ∈ files, Receipt session file := fun file hfile =>
    (hreceived file hfile).receipt hpre (h.fits _ (hname file hfile))
      (h.creatable _ (hname file hfile))
  have hsupported : session.Supported := by
    intro hmode
    rw [hpre] at hmode
    contradiction
  have hsource : ∀ file ∈ files, disk file.name = some (session.restored (file.bytes session)) := by
    intro file hfile
    rw [(hreceived file hfile).content, Session.restored, Session.restoresImages, hpre]
    rfl
  have hapart : files.Pairwise fun f g => Apart session f.name g.name := by
    have hdistinct : ((node.listing call.path).map baseOf).Nodup :=
      ((node.listing_perm call.path).map baseOf).nodup_iff.mpr h.distinct
    rw [← hnames, List.map_map, List.Nodup, List.pairwise_map] at hdistinct
    refine hdistinct.imp fun hne => apart_iff.mpr ⟨hne, fun himages => ?_⟩
    simp [Session.restoresImages, hpre] at himages
  rw [← hnames]
  exact files_transferred hafresh hsupported hdialogue hentries hreceipt hsource hapart hroom hrun

def treeCall (compressor : Compressor) : Call :=
  ⟨ascii "t", .COMPRESS, some compressor, none, ascii "out"⟩

def treeSession (compressor : Compressor) : Session :=
  (treeCall compressor).session storingCodecs Server.storedScripts fun _ => true

theorem treeCall_suited {compressor : Compressor} {a b : ByteString}
    (ha : a ≠ [] ∧ (compressor = .FPC → 8 ∣ a.length))
    (hb : b ≠ [] ∧ (compressor = .FPC → 8 ∣ b.length)) :
    Suited (Server.treeHost Server.twoNode) (Server.twoDisk a b) (treeCall compressor)
      (treeSession compressor) Server.twoNode where
  readable := Server.two_readable a b
  some_file := by
    rw [treeCall, Server.twoNode_files]
    exact List.cons_ne_nil _ _
  nonempty path hpath := by
    obtain ⟨content, hcontent, hne, -⟩ := Server.twoDisk_eq (P := fun content => content ≠ [] ∧
      (compressor = .FPC → 8 ∣ content.length)) ha hb path hpath
    rw [hcontent]
    exact mt Option.some.inj hne
  words := by
    intro _ hfpc path hpath content hcontent
    obtain ⟨content', hcontent', -, hwords⟩ := Server.twoDisk_eq (P := fun content => content ≠ [] ∧
      (compressor = .FPC → 8 ∣ content.length)) ha hb path hpath
    rw [hcontent, Option.some.injEq] at hcontent'
    rw [hcontent']
    exact hwords (Option.some.inj hfpc)
  fits := by
    rw [treeCall, Server.twoNode_files]
    decide
  creatable := fun _ _ => rfl
  distinct := by
    rw [treeCall, Server.twoNode_files]
    decide

end Autocomp.Client

import Autocomp.Network.Residue
import Autocomp.Network.TreeTransfer

/-!
# The transfer of compressed images

In the mode PRE_COMPRESS a script makes an image of each file, the image is sent, and a script on the
other side restores the file. The two sides agree on a whole tree where every image goes through the
loop over its chunks and is removed.
-/

namespace Autocomp.Server

open FileStream Loop Pieces PreCompressingFileProcessor

structure Surrounded (host : Host) (s : Serving) : Prop where
  processor : ∃ p, s.processor = .preCompressing p ∧ p.chunkSize = 1024
  header : s.chunkHeaderBuffer = .empty
  initial : s.fileInitialMessageBuffer = .empty
  faithful : s.transmissionQueue.Faithful host.protobuf

theorem getNextChunk_chunkSize (disk : Disk Path) (p : PreCompressingFileProcessor)
    (chunk : Buffer) : (p.getNextChunk disk chunk).2.2.1.chunkSize = p.chunkSize := by
  unfold PreCompressingFileProcessor.getNextChunk
  split
  · rfl
  · split
    · rfl
    · simp only
      split
      · rfl
      · split <;> rfl

theorem serveChunk_surrounded {host : Host} {s t : ServingFile} (hs : Surrounded host s.toServing)
    (h : serveChunk host s = .ok t) : Surrounded host t.toServing := by
  obtain ⟨p, hprocessor, hsize⟩ := hs.processor
  have hkept := (getNextChunk_chunkSize s.disk p s.chunk).trans hsize
  have hget : s.processor.getNextChunk host s.disk s.chunk =
      ((p.getNextChunk s.disk s.chunk).1, (p.getNextChunk s.disk s.chunk).2.1,
        .preCompressing (p.getNextChunk s.disk s.chunk).2.2.1,
        (p.getNextChunk s.disk s.chunk).2.2.2) := by
    rw [hprocessor]
    rfl
  rw [serveChunk, hget] at h
  split at h
  · rename_i hgot
    simp only [Prod.mk.injEq] at hgot
    obtain ⟨-, rfl, rfl, rfl⟩ := hgot
    rw [Except.ok.injEq] at h
    rw [← h]
    exact ⟨⟨_, rfl, hkept⟩, hs.header, hs.initial, hs.faithful⟩
  · contradiction
  · rename_i hgot
    simp only [Prod.mk.injEq] at hgot
    obtain ⟨-, rfl, rfl, rfl⟩ := hgot
    rw [Except.ok.injEq] at h
    rw [← h]
    refine ⟨⟨_, rfl, hkept⟩, rfl, hs.initial, (hs.faithful.push ?_).push rfl⟩
    rw [hs.header]
    exact serializeMessage_contents ..

theorem serveChunks_surrounded {host : Host} {s t : ServingFile}
    (hs : Surrounded host s.toServing) (h : Yields (fun fuel => serveChunks host fuel s) (.ok t)) :
    Surrounded host t.toServing := by
  obtain ⟨n, hn⟩ := h
  apply whileLoop_invariant (fun u => Surrounded host u.toServing) (hn n (Nat.le_refl n)) hs
  intro fuel u v hu _ hround
  exact serveChunk_surrounded hu (Option.some.inj hround)

theorem openNextFile_named {scripts : Scripts} {disk disk' : Disk Path}
    {p p' : PreCompressingFileProcessor} {fileSize : Nat}
    (h : p.openNextFile scripts disk = (.ok fileSize, p', disk')) (hnext : p.hasNextFile = true) :
    p'.currentCompressedFileName = p'.currentFileName ++ p'.compressor.fileExtenssion ∧
      p'.chunkSize = p.chunkSize := by
  obtain ⟨-, hsize, -⟩ := p.takeNextFile_kept disk
  simp only [PreCompressingFileProcessor.openNextFile, hnext, if_true] at h
  generalize p.takeNextFile disk = r at h hsize
  obtain ⟨_ | _, s⟩ := r
  · simp at h
  · simp only at h
    split at h
    · simp at h
    · split at h
      · simp at h
      · split at h
        · simp at h
        · simp only [Prod.mk.injEq, Except.ok.injEq] at h
          obtain ⟨-, rfl, -⟩ := h
          exact ⟨rfl, hsize⟩

/-- A file whose image goes through the loop whole and leaves nothing behind. -/
structure Passable (scripts : Scripts) (compressor : Compressor) (level : Int) (disk : Disk Path)
    (file : Path) (content : ByteString) : Prop where
  source : disk file = some content
  removes : Removes (imageOf scripts compressor level content).length content.length
  ended : imageChunkBytes ∣ (imageOf scripts compressor level content).length →
    content.length ≤ (imageOf scripts compressor level content).length
  fresh : compressor ≠ .COPY → disk (file ++ compressor.fileExtenssion) = none

def imagePieces (scripts : Scripts) (compressor : Compressor) (level : Int) (content : ByteString) :
    List (Compressor × ByteString) :=
  (pieces imageChunkBytes (imageOf scripts compressor level content)).map
    fun piece => (compressor, piece)

/-- The messages for `paths`: for each file its initial message, and its image. -/
def imageMessages (scripts : Scripts) (compressor : Compressor) (level : Int) (disk : Disk Path) :
    List Path → List Meaning
  | [] => []
  | path :: paths =>
    let content := (disk path).getD []
    .initial (initialMessage path content 1024 (paths = [])) ::
      (chunkMessages 0 (imagePieces scripts compressor level content) ++
        imageMessages scripts compressor level disk paths)

theorem serveFile_announced {host : Host} {s : Serving} {processor : Processor} {disk : Disk Path}
    {fileSize : Nat} (h : s.processor.openNextFile host s.disk = (.ok fileSize, processor, disk))
    (hinitial : s.fileInitialMessageBuffer = .empty) :
    ∃ opened : Serving, (∀ fuel, serveFile host fuel s =
        (serveChunks host fuel ⟨opened, 0, false⟩).map fun result =>
          result.map ServingFile.toServing) ∧
      opened.processor = processor ∧ opened.disk = disk ∧ opened.chunk = s.chunk ∧
      opened.chunkHeaderBuffer = s.chunkHeaderBuffer ∧ opened.fileInitialMessageBuffer = .empty ∧
      opened.transmissionQueue.meanings = s.transmissionQueue.meanings ++
        [.initial ⟨some processor.base.currentFileName, some (BitVec.ofNat 64 fileSize),
          some (BitVec.ofNat 32 processor.base.chunkSize),
          if processor.hasNextFile then none else some true⟩] ∧
      (s.transmissionQueue.Faithful host.protobuf →
        opened.transmissionQueue.Faithful host.protobuf) := by
  set message : FileInitialMessage :=
    ⟨some processor.base.currentFileName, some (BitVec.ofNat 64 fileSize),
      some (BitVec.ofNat 32 processor.base.chunkSize),
      if processor.hasNextFile then none else some true⟩ with hmessage
  refine ⟨{ s with
      processor := processor
      disk := disk
      fileInitialMessageBuffer := .empty
      transmissionQueue := s.transmissionQueue.push ⟨.initial message, serializeMessage
        host.protobuf.fileInitialMessage message s.fileInitialMessageBuffer⟩ },
    fun fuel => ?_, rfl, rfl, rfl, rfl, rfl, ?_, fun hfaithful => hfaithful.push ?_⟩
  · simp only [serveFile, h]
    rfl
  · simp
  · rw [hinitial]
    exact serializeMessage_contents ..

section

variable {host : Host} {compressor : Compressor} {level : Int} {s : Serving} {file : Path}
  {files : List Path}

theorem serveFile_image (hsupported : compressor ≠ .SNAPPY)
    (hscript : Scriptable host compressor file)
    (h : Passing s compressor level (file :: files)) (hsurrounded : Surrounded host s)
    (hnext : ∀ g ∈ files.head?, s.disk g ≠ none) {content : ByteString}
    (hpass : Passable host.scripts compressor level s.disk file content) :
    ∃ t, Yields (fun fuel => serveFile host fuel s) (.ok t) ∧ Passing t compressor level files ∧
      Surrounded host t ∧ t.disk = s.disk ∧
      t.transmissionQueue.meanings = s.transmissionQueue.meanings ++
        .initial (initialMessage file content 1024 (files = [])) ::
          chunkMessages 0 (imagePieces host.scripts compressor level content) := by
  obtain ⟨p, hprocessor, rfl, rfl, hsize, e, hexplorer, hremaining⟩ := h.processor
  obtain ⟨p', e', hopen, hat, hcomp, hlevel, hexplorer', hrest, hname⟩ :=
    openNextFile_some hexplorer hremaining hnext hsupported hscript hpass.source
  have hmore : p.hasNextFile = true := by
    rw [FileProcessingStrategy.hasNextFile, hexplorer]
    exact e.hasNextFile_iff.mpr (by rw [hremaining]; exact List.cons_ne_nil _ _)
  obtain ⟨hnamed, hchunkSize⟩ := openNextFile_named hopen hmore
  have hcurrent : p'.currentFileName = file := by
    rw [hname, hcomp, List.append_cancel_right_eq] at hnamed
    exact hnamed.symm
  obtain ⟨q, hq, hq1024⟩ := hsurrounded.processor
  have hpq : p = q := Processor.preCompressing.inj (hprocessor.symm.trans hq)
  subst hpq
  rw [hsize] at hat
  have hopened : s.processor.openNextFile host s.disk = (.ok content.length, .preCompressing p',
      compressed host.scripts p.compressor p.compressionLevel file content s.disk) := by
    rw [hprocessor]
    simp only [Processor.openNextFile, hopen]
  obtain ⟨opened, hgo, hproc, hdisk, hchunk, hheader, hinitial, hmeanings, hfaithful⟩ :=
    serveFile_announced hopened hsurrounded.initial
  have hsending : Sending ⟨opened, 0, false⟩ p'
      (imageOf host.scripts p.compressor p.compressionLevel content) content.length
      imageChunkBytes 0 :=
    ⟨hproc, hat, rfl, hheader.trans h.buffered.header, by rw [hchunk]; exact h.buffered.chunk⟩
  obtain ⟨t, hyields, -, -, hleft, hsent⟩ := serveChunks_image host (by decide) hsending
    hpass.removes.1 (by rw [Nat.sub_zero, Nat.zero_add]; exact hpass.removes.2)
    (by rw [Nat.sub_zero]; exact hpass.ended)
  obtain ⟨q, hq, hsame, hbuffered⟩ :=
    serveChunks_kept hproc ⟨hsending.header, hsending.chunk⟩ hyields
  have hkept : Surrounded host t.toServing := serveChunks_surrounded
    ⟨⟨p', hproc, hchunkSize.trans hq1024⟩, hsending.header, hinitial,
      hfaithful hsurrounded.faithful⟩ hyields
  refine ⟨t.toServing, ?_, ⟨⟨q, hq, hsame.compressor.trans hcomp,
    hsame.compressionLevel.trans hlevel, hsame.chunkSizeBytes.trans hat.chunkBytes, e',
    hsame.directoryExplorer.trans hexplorer', hrest⟩, hbuffered⟩, hkept, ?_, ?_⟩
  · simp only [hgo]
    exact hyields.map fun result => result.map ServingFile.toServing
  · rw [hleft, removed, hcomp, hname, hdisk, compressed]
    by_cases hcopy : p.compressor = .COPY
    · simp only [hcopy, ne_eq, not_true, if_false, if_true]
    · simp only [hcopy, ne_eq, not_false_eq_true, if_false, if_true, Function.update_idem]
      rw [Function.update_eq_self_iff]
      exact (hpass.fresh hcopy).symm
  · have hlast : (Processor.preCompressing p').hasNextFile = decide (files ≠ []) := by
      rw [← hrest]
      change p'.hasNextFile = _
      rw [FileProcessingStrategy.hasNextFile, hexplorer', Bool.eq_iff_iff, decide_eq_true_iff]
      exact e'.hasNextFile_iff
    have hflag : (if (Processor.preCompressing p').hasNextFile then none else some true) =
        if decide (files = []) then some true else none := by
      rw [hlast]
      by_cases hnil : files = [] <;> simp [hnil]
    have hbase : (Processor.preCompressing p').base = p'.toFileProcessingStrategy := rfl
    rw [hsent, hmeanings, hflag, hbase, hcurrent, hchunkSize, hq1024, hcomp, List.drop_zero,
      List.append_assoc]
    rfl

theorem serveFiles_images (hsupported : compressor ≠ .SNAPPY)
    (hscript : ∀ file ∈ files, Scriptable host compressor file)
    (h : Passing s compressor level files) (hsurrounded : Surrounded host s)
    (hpass : ∀ file ∈ files, ∃ content,
      Passable host.scripts compressor level s.disk file content) :
    ∃ t, Yields (fun fuel => serveFiles host fuel s) (.ok t) ∧ Surrounded host t ∧
      t.disk = s.disk ∧ t.transmissionQueue.meanings = s.transmissionQueue.meanings ++
        imageMessages host.scripts compressor level s.disk files := by
  induction files generalizing s with
  | nil =>
    exact ⟨s, whileLoop_stop h.hasNextFile, hsurrounded, rfl, (List.append_nil _).symm⟩
  | cons file files ih =>
    have hmore : s.processor.hasNextFile = true := by
      rw [h.hasNextFile, decide_eq_true (List.cons_ne_nil _ _)]
    have hnext : ∀ g ∈ files.head?, s.disk g ≠ none := by
      intro g hg
      obtain ⟨content, hcontent⟩ :=
        hpass g (List.mem_cons_of_mem _ (List.mem_of_mem_head? hg))
      rw [hcontent.source]
      exact Option.some_ne_none _
    obtain ⟨content, hcontent⟩ := hpass file List.mem_cons_self
    obtain ⟨t, hgo, hpassing, hkept, hdisk, hmeanings⟩ := serveFile_image hsupported
      (hscript file List.mem_cons_self) h hsurrounded hnext hcontent
    obtain ⟨u, hyields, hkept', hdisk', hmeanings'⟩ := ih
      (fun f hf => hscript f (List.mem_cons_of_mem _ hf)) hpassing hkept (by
        rw [hdisk]
        exact fun f hf => hpass f (List.mem_cons_of_mem _ hf))
    refine ⟨u, whileLoop_next hmore hgo hyields, hkept', hdisk'.trans hdisk, ?_⟩
    rw [hmeanings', hmeanings, hdisk, imageMessages, hcontent.source, Option.getD_some,
      List.append_assoc, List.cons_append]

end

theorem preCompressing_request {host : Host} {request : FileTransmissionRequest}
    {p : PreCompressingFileProcessor}
    (h : configureFileProcessor host request = .ok (.preCompressing p)) :
    request.mode = some .PRE_COMPRESS ∧ p.compressor = request.compressor.getD .ZLIB := by
  unfold configureFileProcessor at h
  cases hmode : request.mode.getD .NO_COMPRESSION with
  | PRE_COMPRESS =>
    refine ⟨?_, ?_⟩
    · cases hm : request.mode <;> simp [hm] at hmode ⊢
      exact hmode
    · simp only [hmode, PreCompressingFileProcessor.setCompressor] at h
      split at h
      · simp only [Except.map, Except.ok.injEq, Processor.preCompressing.injEq] at h
        rw [← h]
      · split at h
        · simp only [Except.map, Except.ok.injEq, Processor.preCompressing.injEq] at h
          rw [← h]
        · split at h
          · simp only [Except.map, Except.ok.injEq, Processor.preCompressing.injEq] at h
            rw [← h]
          · simp [Except.map] at h
  | NO_COMPRESSION => simp [hmode] at h
  | AUTOCOMP => simp [hmode] at h
  | COMPRESS =>
    cases hset : AutomaticCompressionStrategy.setCompressor (request.compressor.getD .ZLIB)
      (requestedLevel request) <;> simp [hmode, hset, Except.map] at h
  | TRAIN => cases hset : host.training request <;> simp [hmode, hset, Except.map] at h

/-- What `processRequest` leaves for the transmission of the images of a readable tree. -/
theorem processRequest_images {host : Host} {disk : Disk Path} {buffer : ByteString}
    {request : FileTransmissionRequest} {p : PreCompressingFileProcessor} {node : Node}
    (hrequest : host.protobuf.fileTransmissionRequest.deserialize buffer = some request)
    (hconfigure : configureFileProcessor host request = .ok (.preCompressing p))
    (hsupported : p.compressor ≠ .SNAPPY)
    (hreadable : Readable host disk (request.filename.getD []) node)
    (hscript : ∀ file ∈ node.files (request.filename.getD []), Scriptable host p.compressor file)
    (hpass : ∀ file ∈ node.files (request.filename.getD []), ∃ content,
      Passable host.scripts p.compressor p.compressionLevel disk file content) :
    ∃ served, Yields (processRequest host disk buffer) (.ok served) ∧
      served.transmitting = true ∧ served.disk = disk ∧
      served.transmissionQueue.meanings = imageMessages host.scripts p.compressor
        p.compressionLevel disk (node.listing (request.filename.getD [])) ∧
      served.transmissionQueue.Faithful host.protobuf := by
  have hnew := configureFileProcessor_preCompressing hconfigure
  have htrain : request.mode ≠ some .TRAIN := by
    rw [(preCompressing_request hconfigure).1]
    decide
  set path := request.filename.getD [] with hpath
  obtain ⟨e, hexplore, hremaining⟩ :=
    DirectoryExplorer.explore_ok hreadable.unlocked hreadable.files
  set ready : PreCompressingFileProcessor := { p with
    workingPath := path, directoryExplorer := some e } with hready
  have hsize : ready.chunkSizeBytes = imageChunkBytes := congrArg (·.chunkSizeBytes) hnew
  have h1024 : ready.chunkSize = 1024 := congrArg (·.chunkSize) hnew
  have hpassing : Passing ⟨.preCompressing ready, disk,
      .withCapacity (11 * ready.chunkSize * 1024 / 10), .empty, .empty, .empty⟩ p.compressor
      p.compressionLevel (node.listing path) :=
    ⟨⟨ready, rfl, rfl, rfl, hsize, e, rfl, hremaining⟩, rfl, Nat.zero_le _⟩
  have hsurrounded : Surrounded host ⟨.preCompressing ready, disk,
      .withCapacity (11 * ready.chunkSize * 1024 / 10), .empty, .empty, .empty⟩ :=
    ⟨⟨ready, rfl, h1024⟩, rfl, rfl, by simp [TransmissionQueue.Faithful, SynchronousQueue.empty]⟩
  obtain ⟨t, hyields, hkept, hdisk, hmeanings⟩ := serveFiles_images hsupported
    (fun file hfile => hscript file (Node.mem_listing.mp hfile)) hpassing hsurrounded
    fun file hfile => hpass file (Node.mem_listing.mp hfile)
  have hprepare : (Processor.preCompressing p).preparePath host disk path =
      .ok (.preCompressing ready) := by
    simp only [Processor.preparePath, FileProcessingStrategy.preparePath, hreadable.root, hexplore]
    rfl
  obtain ⟨n, hn⟩ := hyields
  refine ⟨⟨disk, t.transmissionQueue, true⟩, ⟨n, fun fuel hfuel => ?_⟩, rfl, rfl, hmeanings,
    hkept.faithful⟩
  have hbase : (Processor.preCompressing ready).base.chunkSize = ready.chunkSize := rfl
  simp only [processRequest, hrequest, hconfigure, ← hpath, hprepare, hbase, hn fuel hfuel, htrain,
    if_false, hdisk, Option.map_some]

end Autocomp.Server

namespace Autocomp.Client

open FileStream Pieces Transition
open Server (Meaning Passable chunkMessages imageChunkBytes imageMessages imageOf imagePieces
  initialMessage)

section

variable {session : Session} (scripts : Scripts) (compressor : Compressor) (level : Int)
  (disk : Disk Path)

def imageFile (path : Path) (last : Bool) : ReceivedFile :=
  ⟨initialMessage path ((disk path).getD []) 1024 last,
    headed 0 (imagePieces scripts compressor level ((disk path).getD []))⟩

def imageFiles : List Path → List ReceivedFile
  | [] => []
  | path :: paths =>
    imageFile scripts compressor level disk path (paths = []) :: imageFiles paths

theorem imageFiles_names (paths : List Path) :
    (imageFiles scripts compressor level disk paths).map ReceivedFile.name = paths := by
  induction paths with
  | nil => rfl
  | cons path paths ih =>
    rw [imageFiles, List.map_cons, ih]
    rfl

theorem mem_imageFiles {paths : List Path} {file : ReceivedFile}
    (h : file ∈ imageFiles scripts compressor level disk paths) :
    ∃ path ∈ paths, ∃ last, file = imageFile scripts compressor level disk path last := by
  induction paths with
  | nil => contradiction
  | cons path paths ih =>
    rcases List.mem_cons.mp h with rfl | h
    · exact ⟨path, List.mem_cons_self, _, rfl⟩
    · obtain ⟨q, hq, hfile⟩ := ih h
      exact ⟨q, List.mem_cons_of_mem _ hq, hfile⟩

theorem entries_imageMessages (paths : List Path) :
    entries (imageMessages scripts compressor level disk paths) =
      (imageFiles scripts compressor level disk paths).flatMap ReceivedFile.entries := by
  induction paths with
  | nil => rfl
  | cons path paths ih =>
    rw [imageMessages, entries, entries_chunks, ih, imageFiles, List.flatMap_cons]
    rfl

variable {scripts compressor level disk}

theorem imagePieces_ne_nil {content : ByteString}
    (h : imageOf scripts compressor level content ≠ []) :
    imagePieces scripts compressor level content ≠ [] := by
  rw [imagePieces, pieces_of_ne (by decide) h]
  exact List.cons_ne_nil _ _

theorem mem_imagePieces {content : ByteString} {chunk : Compressor × ByteString}
    (h : chunk ∈ imagePieces scripts compressor level content) :
    chunk.2 ≠ [] ∧ chunk.2.length ≤ imageChunkBytes := by
  obtain ⟨piece, hpiece, rfl⟩ := List.mem_map.mp h
  exact mem_pieces hpiece

theorem exec_imageMessages {paths : List Path} (hne : paths ≠ [])
    (h : ∀ path ∈ paths, imageOf scripts compressor level ((disk path).getD []) ≠ []) :
    exec Awaiting.next .initial (imageMessages scripts compressor level disk paths) =
      some .nothing := by
  induction paths with
  | nil => contradiction
  | cons path paths ih =>
    change exec Awaiting.next (.header (initialMessage path ((disk path).getD []) 1024 (paths = [])))
      (chunkMessages 0 _ ++ imageMessages scripts compressor level disk paths) = _
    rw [Server.exec_chunkMessages _ (imagePieces_ne_nil (h path List.mem_cons_self))]
    by_cases hnil : paths = []
    · subst hnil
      rfl
    · simpa [initialMessage, hnil] using ih hnil fun q hq => h q (List.mem_cons_of_mem _ hq)

theorem imageMessages_sendable {paths : List Path} (h : ∀ path ∈ paths, path.length < 2 ^ 31) :
    ∀ meaning ∈ imageMessages scripts compressor level disk paths, Sendable meaning := by
  induction paths with
  | nil => simp [imageMessages]
  | cons path paths ih =>
    rw [imageMessages, List.forall_mem_cons, List.forall_mem_append]
    refine ⟨⟨rfl, ?_⟩, Server.chunkMessages_sendable (fun chunk hchunk => (mem_imagePieces hchunk).1)
      0, ih fun q hq => h q (List.mem_cons_of_mem _ hq)⟩
    simpa [Message.strings, initialMessage] using h path List.mem_cons_self

theorem imageMessages_short {protobuf : Protobuf} (hcompact : Compact protobuf) {paths : List Path}
    (h : ∀ path ∈ paths, path.length < 4096) :
    ∀ meaning ∈ imageMessages scripts compressor level disk paths,
      (meaning.bytes protobuf).length < 2 ^ 32 := by
  induction paths with
  | nil => simp [imageMessages]
  | cons path paths ih =>
    rw [imageMessages, List.forall_mem_cons, List.forall_mem_append]
    refine ⟨hcompact.initial _ ?_, chunkMessages_short hcompact (fun chunk hchunk => ?_) 0,
      ih fun q hq => h q (List.mem_cons_of_mem _ hq)⟩
    · simpa [Message.strings, initialMessage] using h path List.mem_cons_self
    · exact Nat.lt_of_le_of_lt (mem_imagePieces hchunk).2 (by decide)

theorem decodings_image (hmode : session.preCompression = true) (capacity position : Nat)
    (chunks : List (Compressor × ByteString)) :
    decodings session capacity (headed position chunks) = some (chunks.map Prod.snd) := by
  induction chunks generalizing capacity position with
  | nil => rfl
  | cons chunk chunks ih =>
    rw [headed, decodings]
    simp only [decode, hmode, or_true, if_true, ih, Option.map_some, List.map_cons]

theorem imageFile_decodings (hmode : session.preCompression = true) (path : Path) (last : Bool) :
    decodings session (imageFile scripts compressor level disk path last).capacity
        (imageFile scripts compressor level disk path last).chunks =
      some (pieces imageChunkBytes
        (imageOf scripts compressor level ((disk path).getD []))) := by
  rw [imageFile, decodings_image hmode, imagePieces, List.map_map]
  exact congrArg some (List.map_id _)

theorem imageFile_bytes (hmode : session.preCompression = true) (path : Path) (last : Bool) :
    (imageFile scripts compressor level disk path last).bytes session =
      imageOf scripts compressor level ((disk path).getD []) := by
  rw [ReceivedFile.bytes, imageFile_decodings hmode, Option.getD_some,
    flatten_pieces (by decide)]

theorem imageFile_receipt (hmode : session.preCompression = true) {path : Path} (last : Bool)
    (hne : imageOf scripts compressor level ((disk path).getD []) ≠ [])
    (hfits : (path.takeWhile (· ≠ 0)).length < MAX_STRING_LENGTH)
    (hcreatable : session.creatable (session.receivedPath path) = true)
    (hplain : PlainNames session path) :
    Receipt session (imageFile scripts compressor level disk path last) where
  wellFormed := ⟨rfl, headed_lastMarked (imagePieces_ne_nil hne) 0⟩
  short := by
    intro chunk hchunk
    obtain ⟨c, hc⟩ := mem_headed hchunk
    exact Nat.lt_of_le_of_lt (mem_imagePieces hc).2 (by decide)
  decodes := Option.isSome_of_eq_some (imageFile_decodings hmode path last)
  receivable := by
    have habsolute : absoluteFilename path = .ok (path.takeWhile (· ≠ 0)) := if_pos hfits
    exact ⟨_, habsolute, by rwa [Session.destination_eq habsolute]⟩
  plain := hplain

end

/-- A tree whose images can be transferred: the script makes an image of each file that the loop sends
whole and removes, the client's script takes it back, and no file is received over one before it. -/
structure Imaged (host : Host) (disk : Disk Path) (call : Call) (session : Session)
    (p : PreCompressingFileProcessor) (node : Node) : Prop where
  supported : p.compressor ≠ .SNAPPY
  readable : Server.Readable host disk call.path node
  some_file : node.files call.path ≠ []
  scriptable : ∀ q ∈ node.files call.path, Server.Scriptable host p.compressor q
  passable : ∀ q ∈ node.files call.path, ∃ content,
    Passable host.scripts p.compressor p.compressionLevel disk q content
  restores : p.compressor ≠ .COPY → ∀ q ∈ node.files call.path, ∀ content,
    disk q = some content → session.scripts.restore p.compressor
      (host.scripts.image p.compressor p.compressionLevel content) = content
  fits : ∀ q ∈ node.files call.path, (q.takeWhile (· ≠ 0)).length < MAX_STRING_LENGTH
  creatable : ∀ q ∈ node.files call.path, session.creatable (session.receivedPath q) = true
  plain : ∀ q ∈ node.files call.path, PlainNames session q
  apart : (node.listing call.path).Pairwise fun f g =>
    baseOf f ≠ baseOf g ∧ baseOf g ++ p.compressor.fileExtenssion ≠ baseOf f

section

variable {host : Host} {disk : Disk Path} {call : Call} {session : Session}
  {p : PreCompressingFileProcessor} {node : Node}

theorem Imaged.image_ne_nil (h : Imaged host disk call session p node) {q : Path}
    (hq : q ∈ node.files call.path) :
    imageOf host.scripts p.compressor p.compressionLevel ((disk q).getD []) ≠ [] := by
  obtain ⟨content, hpass⟩ := h.passable q hq
  rw [hpass.source, Option.getD_some, ← List.length_pos_iff]
  exact hpass.removes.1

theorem Imaged.restored (h : Imaged host disk call session p node)
    (hmode : session.preCompression = true)
    (hcompressor : session.preCompressingCompressor = p.compressor) {q : Path}
    (hq : q ∈ node.files call.path) :
    disk q = some (session.restored
      (imageOf host.scripts p.compressor p.compressionLevel ((disk q).getD []))) := by
  obtain ⟨content, hpass⟩ := h.passable q hq
  rw [hpass.source, Option.getD_some, Option.some.injEq, Session.restored, Session.restoresImages,
    hmode, hcompressor, Bool.true_and, imageOf]
  by_cases hcopy : p.compressor = .COPY
  · rw [hcopy, if_neg (by decide), if_pos rfl]
  · have hscript : p.compressor.hasScript = true := by
      have hsnappy := h.supported
      cases hc : p.compressor <;> simp_all [Compressor.hasScript]
    rw [if_pos hscript, if_neg hcopy, h.restores hcopy q hq content hpass.source]

end

open WholeTransfer in
/-- A request for the images of a tree, run by the two machines from end to end: the server's disk is
left as it was, and the files are restored on the client's. -/
theorem images_transferred {host : Host} (hcompact : Compact host.protobuf) {disk : Disk Path}
    {call : Call} {codecs : Codecs} (scripts : Scripts) (creatable : Path → Bool)
    (hafresh : codecs.Afresh) {p : PreCompressingFileProcessor} {node : Node}
    (hconfigure : Server.configureFileProcessor host call.message = .ok (.preCompressing p))
    (h : Imaged host disk call (call.session codecs scripts creatable) p node)
    (peer : ByteString) {receiveBuffer : Nat} (hroom : 0 < receiveBuffer) :
    ∃ served, Loop.Yields (Server.processRequest host disk
        (host.protobuf.fileTransmissionRequest.serialize call.message)) (.ok served) ∧
      served.disk = disk ∧
      ∀ clientDisk s, Reachable (WholeTransfer.step ⟨⟨host.protobuf, peer⟩,
          call.session codecs scripts creatable, receiveBuffer⟩) (.start served clientDisk) s →
        Transferring ⟨⟨host.protobuf, peer⟩, call.session codecs scripts creatable, receiveBuffer⟩
          disk (node.listing call.path) s := by
  set session := call.session codecs scripts creatable with hsession
  obtain ⟨hcall, hchosen⟩ := Server.preCompressing_request hconfigure
  have hmode : session.preCompression = true := by
    rw [hsession, Call.session, decide_eq_true_eq]
    exact Option.some.inj hcall
  have hcompressor : session.preCompressingCompressor = p.compressor := hchosen.symm
  have hmem {q : Path} : q ∈ node.listing call.path ↔ q ∈ node.files call.path := Node.mem_listing
  have hrequest : host.protobuf.fileTransmissionRequest.deserialize
      (host.protobuf.fileTransmissionRequest.serialize call.message) = some call.message :=
    request_deserialize h.readable h.some_file
  obtain ⟨served, hyields, htransmitting, hdisk, hmeanings, hfaithful⟩ :=
    Server.processRequest_images hrequest hconfigure h.supported h.readable h.scriptable h.passable
  change served.transmissionQueue.meanings = imageMessages host.scripts p.compressor
    p.compressionLevel disk (node.listing call.path) at hmeanings
  have hpaths (q : Path) (hq : q ∈ node.listing call.path) : q.length < 4096 :=
    h.readable.pathMax q (hmem.mp hq)
  have hsome : node.listing call.path ≠ [] := by
    obtain ⟨q, hq⟩ := List.exists_mem_of_ne_nil _ h.some_file
    exact List.ne_nil_of_mem (hmem.mpr hq)
  have hdialogue : Dialogue ⟨host.protobuf, peer⟩ served served.transmissionQueue.meanings := by
    refine ⟨htransmitting, Server.faithful_wire hfaithful, ?_, ?_, ?_⟩
    · rw [hmeanings]
      exact imageMessages_sendable fun q hq => Nat.lt_trans (hpaths q hq) (by decide)
    · rw [hmeanings]
      exact imageMessages_short hcompact hpaths
    · rw [hmeanings]
      exact exec_imageMessages hsome fun q hq => h.image_ne_nil (hmem.mp hq)
  have hnames := imageFiles_names host.scripts p.compressor p.compressionLevel disk
    (node.listing call.path)
  set files := imageFiles host.scripts p.compressor p.compressionLevel disk
    (node.listing call.path) with hfiles
  have hentries : entries served.transmissionQueue.meanings =
      files.flatMap ReceivedFile.entries := by
    rw [hmeanings, entries_imageMessages]
  have hreceipt : ∀ file ∈ files, Receipt session file := by
    intro file hfile
    obtain ⟨q, hq, last, rfl⟩ := mem_imageFiles _ _ _ _ hfile
    have hq := hmem.mp hq
    exact imageFile_receipt hmode last (h.image_ne_nil hq) (h.fits q hq) (h.creatable q hq)
      (h.plain q hq)
  have hsource : ∀ file ∈ files,
      disk file.name = some (session.restored (file.bytes session)) := by
    intro file hfile
    obtain ⟨q, hq, last, rfl⟩ := mem_imageFiles _ _ _ _ hfile
    rw [imageFile_bytes hmode]
    exact h.restored hmode hcompressor (hmem.mp hq)
  have hsupported : session.Supported := fun _ => hcompressor ▸ h.supported
  have hextenssion : session.extenssion = p.compressor.fileExtenssion := by
    rw [Session.extenssion, if_pos hmode, hcompressor]
  have hapart : files.Pairwise fun f g => Apart session f.name g.name := by
    have hpairs := h.apart
    rw [← hnames, List.pairwise_map] at hpairs
    exact hpairs.imp fun hfg => apart_iff.mpr ⟨hfg.1, fun _ => hextenssion ▸ hfg.2⟩
  refine ⟨served, hyields, hdisk, fun clientDisk s hrun => ?_⟩
  rw [← hnames]
  exact files_transferred hafresh hsupported hdialogue hentries hreceipt hsource hapart hroom hrun

def imageCall : Call := ⟨ascii "a", .PRE_COMPRESS, none, none, ascii "out"⟩

theorem imageCall_imaged : Imaged Server.sampleHost (Server.sampleDisk [104, 105]) imageCall
    (imageCall.session Server.sampleHost.codecs Server.storedScripts fun _ => true)
    Server.zlibProcessor .file where
  supported := by decide
  readable := Server.sample_readable _
  some_file := by simp [Node.files]
  scriptable := by
    intro q hq
    rw [List.mem_singleton.mp hq]
    exact Server.sample_scriptable
  passable := by
    intro q hq
    rw [List.mem_singleton.mp hq]
    exact ⟨[104, 105], by decide, by decide, by decide, by decide⟩
  restores := by
    intro _ q hq content hcontent
    rw [List.mem_singleton.mp hq] at hcontent
    simp only [imageCall, Server.sampleDisk, Function.update_self, Option.some.injEq] at hcontent
    rw [← hcontent]
    decide
  fits := by
    intro q hq
    rw [List.mem_singleton.mp hq]
    decide
  creatable := fun _ _ => rfl
  plain := by
    intro q hq _
    rw [List.mem_singleton.mp hq]
    decide
  apart := by
    rw [Node.listing]
    exact List.pairwise_singleton ..

open WholeTransfer in
theorem image_transferred : ∃ served,
    Loop.Yields (Server.processRequest Server.sampleHost (Server.sampleDisk [104, 105])
      (protocolBuffers.fileTransmissionRequest.serialize imageCall.message)) (.ok served) ∧
    served.disk = Server.sampleDisk [104, 105] ∧
    ∀ s, Reachable (WholeTransfer.step ⟨⟨protocolBuffers, ascii "server:4600"⟩,
        imageCall.session Server.sampleHost.codecs Server.storedScripts fun _ => true, 1⟩)
        (.start served fun _ => none) s →
      s.client.phase = .returned →
        s.client.decompression.target.disk (ascii "out/a") = some [104, 105] := by
  obtain ⟨served, hserved, hdisk, hruns⟩ := images_transferred protocolBuffers_compact
    Server.storedScripts (fun _ => true) sampleSession_afresh (by rfl) imageCall_imaged
    (ascii "server:4600") Nat.one_pos
  refine ⟨served, hserved, hdisk, fun s hrun hreturned => ?_⟩
  exact (hruns _ s hrun).returned hreturned (ascii "a")
    (Node.mem_listing.mpr (List.mem_singleton_self _))

end Autocomp.Client

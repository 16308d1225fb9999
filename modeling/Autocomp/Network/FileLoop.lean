import Autocomp.Compression.Encoding
import Autocomp.Files.Listing
import Autocomp.Network.Chunks

namespace Autocomp.Server

open FileStream Loop Pieces FileProcessor

/-- From `s` to `t` the loop has sent what successive `getNextChunk`s of `p` gave. -/
structure ChunksSent (host : Host) (s t : ServingFile) (p : FileProcessor)
    (chunks : List (Compressor × ByteString)) (q : FileProcessor) : Prop where
  run : Chunks host.codecs p chunks q
  processor : t.processor = .file q
  ready : t.toServing.Ready
  disk : t.disk = s.disk
  meanings : t.transmissionQueue.meanings =
    s.transmissionQueue.meanings ++ chunkMessages s.nChunks chunks
  faithful : s.transmissionQueue.Faithful host.protobuf → t.transmissionQueue.Faithful host.protobuf

theorem ChunksSent.nil {host : Host} {s : ServingFile} {p : FileProcessor}
    (hdone : p.hasNextChunk = false) (hprocessor : s.processor = .file p)
    (hready : s.toServing.Ready) : ChunksSent host s s p [] p :=
  ⟨.done hdone, hprocessor, hready, rfl, (List.append_nil _).symm, id⟩

section

variable {host : Host} {room : Compressor → Int → ByteString → Prop}

/-- The chunks of a file are sent if the strategy has room for its pieces; otherwise one of them is
written beyond the output. -/
theorem serveChunks_file {s : ServingFile} {p : FileProcessor} {content : ByteString} {k : Nat}
    (hassumed : host.codecs.Assumed p.chunkSizeBytes room) (hprocessor : s.processor = .file p)
    (hreading : Reading p content k) (hunbroken : s.broken = false) (hready : s.toServing.Ready) :
    (∃ t chunks q, Yields (fun fuel => serveChunks host fuel s) (.ok t) ∧
      ChunksSent host s t p chunks q) ∨
    (¬ p.compressor.TakesAll room (pieces p.chunkSizeBytes (content.drop k)) ∧
      Yields (fun fuel => serveChunks host fuel s) (.error .undefinedBehaviour)) := by
  induction hn : content.length - k using Nat.strongRecOn generalizing s p k with
  | ind n ih =>
    have hmore : s.processor.hasNextChunk = decide (k < content.length) := by
      rw [hprocessor, ← hreading.hasNextChunk]
      rfl
    by_cases hk : k < content.length
    · have hsize := hready.chunk
      have hcap := hready.capacity
      rw [hprocessor] at hcap
      rw [decide_eq_true hk] at hmore
      rw [hreading.pieces_eq hk]
      by_cases htakes : p.compressor.Takes room ((content.drop k).take p.chunkSizeBytes)
      · obtain ⟨c, chunk, p', hget, -, -, hsame, hstrategy, hnext, hnextReading⟩ :=
          getNextChunk_encodes hassumed hreading hk htakes s.chunk hsize hcap
        have hgot : s.processor.getNextChunk host s.disk s.chunk =
            (.ok c, chunk, .file p', s.disk) := by
          rw [hprocessor]
          simp only [Processor.getNextChunk, hget]
        obtain ⟨t, hgo, hproc, hdisk, hchunk, hinitial, hheader, hcount, hbroken, hmeanings,
          hfaithful⟩ := serveChunk_ok host hgot hready.header
        have hready' : t.toServing.Ready := by
          refine ⟨hinitial.trans hready.initial, hheader, ?_, ?_⟩ <;> rw [hchunk]
          · exact Nat.le_refl _
          · exact Nat.zero_le _
        -- the rounds that remain, if there are any
        have hrest : (∃ u chunks q, Yields (fun fuel => serveChunks host fuel t) (.ok u) ∧
              ChunksSent host t u p' chunks q ∧ p'.hasNextChunk = decide (chunks ≠ [])) ∨
            (¬ p'.compressor.TakesAll room
                (pieces p.chunkSizeBytes (content.drop (k + p.chunkSizeBytes))) ∧
              Yields (fun fuel => serveChunks host fuel t) (.error .undefinedBehaviour)) := by
          by_cases hlt : k + p.chunkSizeBytes < content.length
          · have hpos := hreading.configured.pos
            rw [← hsame.chunkSizeBytes] at hassumed
            rcases ih (content.length - (k + p.chunkSizeBytes)) (by omega) hassumed hproc
                (hnextReading hlt) (hbroken.trans hunbroken) hready' rfl with
              ⟨u, chunks, q, hyields, hsent⟩ | hbeyond
            · refine .inl ⟨u, chunks, q, hyields, hsent, ?_⟩
              cases hsent.run with
              | done hdone => simpa using hdone
              | next hnext => simpa using hnext
            · rw [hsame.chunkSizeBytes] at hbeyond
              exact .inr hbeyond
          · rw [decide_eq_false hlt] at hnext
            have hstop : t.processor.hasNextChunk = false := by
              rw [hproc]
              exact hnext
            exact .inl ⟨t, [], p', serveChunks_stop (.inr hstop), .nil hnext hproc hready',
              by simpa using hnext⟩
        rcases hrest with ⟨u, chunks, q, hyields, hsent, hlast⟩ | ⟨hnot, hyields⟩
        · refine .inl ⟨u, (c, chunk.contents) :: chunks, q,
            serveChunks_next hunbroken hmore hgo hyields,
            .next (by rw [hreading.hasNextChunk, decide_eq_true hk]) hsize hcap hget hsent.run,
            hsent.processor, hsent.ready, hsent.disk.trans hdisk, ?_,
            fun h => hsent.faithful (hfaithful h)⟩
          have hflag : (Processor.file p').hasNextChunk = decide (chunks ≠ []) := hlast
          rw [hsent.meanings, hmeanings, hcount, chunkMessages, hflag, List.append_assoc]
          by_cases hnil : chunks = [] <;> simp [hnil]
        · rw [hstrategy] at hnot
          exact .inr ⟨fun hall => hnot hall.2, serveChunks_next hunbroken hmore hgo hyields⟩
      · obtain ⟨chunk, p', hget⟩ := getNextChunk_beyond hassumed hreading hk htakes hsize hcap
        have hgo : serveChunk host s = .error .undefinedBehaviour := by
          simp only [serveChunk, hprocessor, Processor.getNextChunk, hget]
        exact .inr ⟨fun hall => htakes hall.1, serveChunks_throw hunbroken hmore hgo⟩
    · rw [decide_eq_false hk] at hmore
      have hdone : p.hasNextChunk = false := by
        rw [hreading.hasNextChunk, decide_eq_false hk]
      exact .inl ⟨s, [], p, serveChunks_stop (.inr hmore), .nil hdone hprocessor hready⟩

end

/-- The processor has `paths` left to go through. -/
structure Walking (p : FileProcessor) (paths : List Path) : Prop where
  explorer : ∃ e, p.directoryExplorer = some e ∧ e.remaining = paths
  configured : p.compressor.Configured p.chunkSizeBytes
  chunkSize : p.chunkSizeBytes = p.chunkSize * 1024

theorem Walking.hasNextFile {p : FileProcessor} {paths : List Path} (h : Walking p paths) :
    p.hasNextFile = decide (paths ≠ []) := by
  obtain ⟨e, he, rfl⟩ := h.explorer
  rw [FileProcessingStrategy.hasNextFile, he, Bool.eq_iff_iff, decide_eq_true_iff]
  exact e.hasNextFile_iff

theorem takeNextFile_ok {disk : Disk Path} {s : FileProcessingStrategy} {e : DirectoryExplorer}
    {path : Path} {paths : List Path} (he : s.directoryExplorer = some e)
    (hremaining : e.remaining = path :: paths) (hnext : ∀ p ∈ paths.head?, disk p ≠ none) :
    ∃ e' source, s.takeNextFile disk = (.ok (), { s with
        source := source, directoryExplorer := some e', currentFileName := path }) ∧
      e'.remaining = paths ∧ source.isOpen = false := by
  obtain ⟨e', hgo, hrest⟩ := DirectoryExplorer.getNextFileName_ok hremaining hnext
  cases hopen : s.source.isOpen with
  | true =>
    exact ⟨e', s.source.close, by simp [FileProcessingStrategy.takeNextFile, hopen, he, hgo], hrest,
      by simp [InStream.close, hopen]⟩
  | false =>
    exact ⟨e', s.source, by simp [FileProcessingStrategy.takeNextFile, hopen, he, hgo], hrest, hopen⟩

theorem openNextFile_ok {disk : Disk Path} {p : FileProcessor} {path : Path} {paths : List Path}
    {content : ByteString} (h : Walking p (path :: paths)) (hfile : disk path = some content)
    (hnext : ∀ p ∈ paths.head?, disk p ≠ none) :
    ∃ p', p.openNextFile disk = (.ok content.length, p') ∧ Walking p' paths ∧
      Reading p' content 0 ∧ p'.currentFileName = path ∧ p'.chunkSize = p.chunkSize ∧
      p'.chunkSizeBytes = p.chunkSizeBytes ∧ p'.compressor = p.compressor := by
  have hmore := h.hasNextFile
  obtain ⟨e, he, hremaining⟩ := h.explorer
  obtain ⟨e', source, htake, hrest, hclosed⟩ := takeNextFile_ok he hremaining hnext
  have hopen := InStream.openFile_some hclosed content
  refine ⟨{ p with
      source := ⟨true, content, 0, false, false, 0⟩
      directoryExplorer := some e'
      currentFileName := path
      currentFileSize := content.length
      currentFileReadBytes := 0 }, ?_, ⟨⟨e', rfl, hrest⟩, h.configured, h.chunkSize⟩,
    ⟨rfl, rfl, rfl, rfl, rfl, rfl, rfl, h.configured⟩, rfl, rfl, rfl, rfl⟩
  simp only [FileProcessor.openNextFile, hmore, ne_eq, reduceCtorEq, not_false_eq_true,
    decide_true, if_true, htake, hfile, hopen]
  rfl

def initialMessage (path : Path) (content : ByteString) (chunkSize : Nat) (last : Bool) :
    FileInitialMessage :=
  ⟨some path, some (BitVec.ofNat 64 content.length), some (BitVec.ofNat 32 chunkSize),
    if last then some true else none⟩

/-- The messages for `paths`: for each file its initial message, and the headers and chunks that
encode its pieces. -/
inductive TreeMessages (codecs : Codecs) (disk : Disk Path) (chunkSize : Nat) :
    List Path → List Meaning → Prop
  | nil : TreeMessages codecs disk chunkSize [] []
  | cons {path : Path} {paths : List Path} {content : ByteString}
      {chunks : List (Compressor × ByteString)} {messages : List Meaning}
      (hfile : disk path = some content)
      (hchunks : Encodes codecs (chunkSize * 1024) (pieces (chunkSize * 1024) content) chunks)
      (hrest : TreeMessages codecs disk chunkSize paths messages) :
      TreeMessages codecs disk chunkSize (path :: paths)
        (.initial (initialMessage path content chunkSize (paths = [])) ::
          (chunkMessages 0 chunks ++ messages))

def treePieces (disk : Disk Path) (chunkSize : Nat) (paths : List Path) : List ByteString :=
  paths.flatMap fun path => pieces (chunkSize * 1024) ((disk path).getD [])

/-- The loop over the files is about to ask for the first of `paths`. -/
structure Sweeping (s : Serving) (chunkSize : Nat) (strategy : AutomaticCompressionStrategy)
    (paths : List Path) : Prop where
  processor : ∃ p, s.processor = .file p ∧ Walking p paths ∧ p.chunkSize = chunkSize ∧
    p.compressor = strategy
  ready : s.Ready

section

variable {host : Host} {room : Compressor → Int → ByteString → Prop} {chunkSize : Nat}
  (hassumed : host.codecs.Assumed (chunkSize * 1024) room) {s : Serving}
  {strategy : AutomaticCompressionStrategy}

include hassumed

theorem serveFile_file {path : Path} {paths : List Path} {content : ByteString}
    (h : Sweeping s chunkSize strategy (path :: paths)) (hfile : s.disk path = some content)
    (hnext : ∀ p ∈ paths.head?, s.disk p ≠ none) :
    (strategy.TakesAll room (pieces (chunkSize * 1024) content) ∧
      ∃ t chunks, Yields (fun fuel => serveFile host fuel s) (.ok t) ∧
      Sweeping t chunkSize (strategy.after (pieces (chunkSize * 1024) content).length) paths ∧
      t.disk = s.disk ∧
      Encodes host.codecs (chunkSize * 1024) (pieces (chunkSize * 1024) content) chunks ∧
      t.transmissionQueue.meanings = s.transmissionQueue.meanings ++
        .initial (initialMessage path content chunkSize (paths = [])) :: chunkMessages 0 chunks ∧
      (s.transmissionQueue.Faithful host.protobuf →
        t.transmissionQueue.Faithful host.protobuf)) ∨
    (¬ strategy.TakesAll room (pieces (chunkSize * 1024) content) ∧
      Yields (fun fuel => serveFile host fuel s) (.error .undefinedBehaviour)) := by
  obtain ⟨p, hprocessor, hwalk, hsize, rfl⟩ := h.processor
  obtain ⟨p', hopen, hwalk', hreading, hname, hsize', hbytes, hstrategy⟩ :=
    openNextFile_ok hwalk hfile hnext
  have hflag : (if (Processor.file p').hasNextFile then none else some true) =
      if decide (paths = []) then some true else none := by
    have hmore : (Processor.file p').hasNextFile = decide (paths ≠ []) := hwalk'.hasNextFile
    rw [hmore]
    by_cases hnil : paths = [] <;> simp [hnil]
  set opened : Serving := { s with
    processor := .file p'
    fileInitialMessageBuffer := .empty
    transmissionQueue := s.transmissionQueue.push
      ⟨.initial (initialMessage path content chunkSize (paths = [])),
        serializeMessage host.protobuf.fileInitialMessage
          (initialMessage path content chunkSize (paths = [])) .empty⟩ } with hopened
  have hgo (fuel : Nat) : serveFile host fuel s =
      (serveChunks host fuel ⟨opened, 0, false⟩).map fun result =>
        result.map ServingFile.toServing := by
    have hbase : (Processor.file p').base = p'.toFileProcessingStrategy := rfl
    simp only [serveFile, hprocessor, Processor.openNextFile, hopen, hflag, hbase, hname, hsize',
      hsize, h.ready.initial]
    rfl
  have hready : opened.Ready := by
    refine ⟨rfl, h.ready.header, h.ready.chunk, ?_⟩
    have hcap := h.ready.capacity
    rw [hprocessor] at hcap
    change s.chunk.capacity ≤ 11 * p'.chunkSizeBytes / 10
    rw [hbytes]
    exact hcap
  have hcounted : p'.chunkSizeBytes = chunkSize * 1024 := by
    rw [hwalk'.chunkSize, hsize', hsize]
  rw [← hcounted] at hassumed ⊢
  simp only [hgo]
  rcases serveChunks_file (s := ⟨opened, 0, false⟩) hassumed rfl hreading rfl hready with
    ⟨t, chunks, q, hyields, hsent⟩ | ⟨hnot, hyields⟩
  · obtain ⟨htakes, hencodes, -, hsame, hleft⟩ := hsent.run.encodes hassumed hreading
    rw [List.drop_zero] at htakes hencodes
    rw [hstrategy] at htakes hleft
    refine .inl ⟨htakes, t.toServing, chunks, hyields.map fun result =>
      result.map ServingFile.toServing, ⟨⟨q, hsent.processor, ?_, ?_, ?_⟩, hsent.ready⟩, hsent.disk,
      hencodes, ?_, fun hfaithful => hsent.faithful (hfaithful.push ?_)⟩
    · obtain ⟨e, he, hremaining⟩ := hwalk'.explorer
      refine ⟨⟨e, hsame.directoryExplorer.trans he, hremaining⟩, hsame.configured, ?_⟩
      rw [hsame.chunkSizeBytes, hsame.chunkSize]
      exact hwalk'.chunkSize
    · rw [hsame.chunkSize, hsize', hsize]
    · rw [hencodes.length_eq, hleft]
    · rw [hsent.meanings]
      simp [hopened]
    · exact serializeMessage_contents ..
  · rw [List.drop_zero, hstrategy] at hnot
    exact .inr ⟨hnot, hyields.map fun result => result.map ServingFile.toServing⟩

theorem serveFiles_files {paths : List Path} (h : Sweeping s chunkSize strategy paths)
    (hfiles : ∀ p ∈ paths, s.disk p ≠ none) :
    (strategy.TakesAll room (treePieces s.disk chunkSize paths) ∧
      ∃ t messages, Yields (fun fuel => serveFiles host fuel s) (.ok t) ∧ t.disk = s.disk ∧
      TreeMessages host.codecs s.disk chunkSize paths messages ∧
      t.transmissionQueue.meanings = s.transmissionQueue.meanings ++ messages ∧
      (s.transmissionQueue.Faithful host.protobuf →
        t.transmissionQueue.Faithful host.protobuf)) ∨
    (¬ strategy.TakesAll room (treePieces s.disk chunkSize paths) ∧
      Yields (fun fuel => serveFiles host fuel s) (.error .undefinedBehaviour)) := by
  induction paths generalizing s strategy with
  | nil =>
    obtain ⟨p, hprocessor, hwalk, -⟩ := h.processor
    have hdone : s.processor.hasNextFile = false := by
      rw [hprocessor]
      exact hwalk.hasNextFile
    exact .inl ⟨trivial, s, [], whileLoop_stop hdone, rfl, .nil, (List.append_nil _).symm, id⟩
  | cons path paths ih =>
    obtain ⟨content, hfile⟩ := Option.ne_none_iff_exists'.mp (hfiles path (by simp))
    have hnext : ∀ p ∈ paths.head?, s.disk p ≠ none := fun p hp =>
      hfiles p (List.mem_cons_of_mem _ (List.mem_of_mem_head? hp))
    obtain ⟨p, hprocessor, hwalk, -⟩ := h.processor
    have hmore : s.processor.hasNextFile = true := by
      rw [hprocessor]
      exact hwalk.hasNextFile
    have hpieces : treePieces s.disk chunkSize (path :: paths) =
        pieces (chunkSize * 1024) content ++ treePieces s.disk chunkSize paths := by
      rw [treePieces, List.flatMap_cons, hfile]
      rfl
    rw [hpieces, AutomaticCompressionStrategy.takesAll_append]
    rcases serveFile_file hassumed h hfile hnext with
      ⟨htakes, t, chunks, hgo, hsweeping, hdisk, hencodes, hmeanings, hfaithful⟩ | ⟨hnot, hgo⟩
    · have hrest := ih hsweeping fun p hp => by
        rw [hdisk]
        exact hfiles p (List.mem_cons_of_mem _ hp)
      rw [hdisk] at hrest
      rcases hrest with ⟨hrestTakes, u, messages, hyields, hdisk', htree, hsent, hfaithful'⟩ |
          ⟨hnot, hyields⟩
      · refine .inl ⟨⟨htakes, hrestTakes⟩, u, _, whileLoop_next hmore hgo hyields, hdisk',
          .cons hfile hencodes htree, ?_, fun h => hfaithful' (hfaithful h)⟩
        rw [hsent, hmeanings, List.append_assoc, List.cons_append]
      · exact .inr ⟨fun hall => hnot hall.2, whileLoop_next hmore hgo hyields⟩
    · exact .inr ⟨fun hall => hnot hall.1, whileLoop_throw hmore hgo⟩

end

/-- A path names a tree all whose files can be read. The system gives no file a path of `PATH_MAX`
bytes. -/
structure Readable (host : Host) (disk : Disk Path) (path : Path) (node : Node) : Prop where
  root : host.root path = .ok node
  unlocked : ∀ errno, node ≠ .locked errno
  files : ∀ p ∈ node.files path, disk p ≠ none
  pathMax : ∀ p ∈ node.files path, p.length < 4096

theorem setCompressor_ok {c : Compressor} {level : Int} {s : AutomaticCompressionStrategy}
    (h : AutomaticCompressionStrategy.setCompressor c level = .ok s) :
    ∃ l, s = .single c l ∧ c.HasLevel l := by
  unfold AutomaticCompressionStrategy.setCompressor at h
  split at h
  · rename_i hnone
    rw [Except.ok.injEq] at h
    exact ⟨-1, h.symm, fun l hl => by simp [hnone] at hl⟩
  · rename_i l hlevels
    split at h
    · rw [Except.ok.injEq] at h
      refine ⟨_, h.symm, fun l' hl' => ?_⟩
      cases c <;> simp only [Compressor.levels, Option.some.injEq, reduceCtorEq] at hlevels hl' <;>
        subst hlevels <;> subst hl' <;> decide
    · split at h
      · simp at h
      · rename_i hrange
        rw [Except.ok.injEq] at h
        refine ⟨level, h.symm, fun l' hl' => ?_⟩
        rw [hlevels, Option.some.injEq] at hl'
        subst hl'
        omega

theorem configureFileProcessor_ok {host : Host} {request : FileTransmissionRequest}
    {p : FileProcessor} (h : configureFileProcessor host request = .ok (.file p))
    (htrain : request.mode ≠ some .TRAIN) :
    ∃ chunkSize compressor, p = .new chunkSize compressor ∧
      compressor.Configured (chunkSize * 1024) ∧ chunkSize ≤ 512 ∧
      (compressor.UsesFPC ↔ request.mode = some .COMPRESS ∧ request.compressor = some .FPC) := by
  unfold configureFileProcessor at h
  cases hmode : request.mode.getD .NO_COMPRESSION with
  | NO_COMPRESSION =>
    simp only [hmode, Except.ok.injEq, Processor.file.injEq] at h
    refine ⟨64, .copy, h.symm, rfl, by decide, iff_of_false id ?_⟩
    rintro ⟨hcompress, -⟩
    simp [hcompress] at hmode
  | AUTOCOMP =>
    simp only [hmode, Except.ok.injEq, Processor.file.injEq] at h
    refine ⟨64, .autoComp host.decisions, h.symm, rfl, by decide, iff_of_false id ?_⟩
    rintro ⟨hcompress, -⟩
    simp [hcompress] at hmode
  | COMPRESS =>
    have hcompress : request.mode = some .COMPRESS := by
      cases hm : request.mode <;> simp [hm] at hmode ⊢
      exact hmode
    simp only [hmode] at h
    cases hset : AutomaticCompressionStrategy.setCompressor (request.compressor.getD .ZLIB)
        (requestedLevel request) with
    | error => simp [hset, Except.map] at h
    | ok strategy =>
      obtain ⟨level, rfl, hlevel⟩ := setCompressor_ok hset
      simp only [hset, Except.map, Except.ok.injEq, Processor.file.injEq] at h
      refine ⟨512, _, h.symm, ⟨rfl, hlevel⟩, Nat.le_refl _, ?_⟩
      simp only [AutomaticCompressionStrategy.UsesFPC, hcompress, true_and]
      cases request.compressor <;> simp
  | PRE_COMPRESS =>
    simp only [hmode] at h
    cases hset : PreCompressingFileProcessor.new.setCompressor (request.compressor.getD .ZLIB)
        (requestedLevel request) <;> simp [hset, Except.map] at h
  | TRAIN =>
    cases hm : request.mode with
    | none => simp [hm] at hmode
    | some mode => simp_all

/-- What `processRequest` leaves for the transmission of a readable tree, if the strategy has room for
its pieces. -/
theorem processRequest_cases {host : Host} {p : FileProcessor}
    {room : Compressor → Int → ByteString → Prop}
    (hassumed : host.codecs.Assumed (p.chunkSize * 1024) room) {disk : Disk Path}
    {buffer : ByteString} {request : FileTransmissionRequest} {node : Node}
    (hrequest : host.protobuf.fileTransmissionRequest.deserialize buffer = some request)
    (hconfigure : configureFileProcessor host request = .ok (.file p))
    (htrain : request.mode ≠ some .TRAIN)
    (hreadable : Readable host disk (request.filename.getD []) node) :
    (p.compressor.TakesAll room
        (treePieces disk p.chunkSize (node.listing (request.filename.getD []))) ∧
      ∃ served, Yields (processRequest host disk buffer) (.ok served) ∧
      served.transmitting = true ∧ served.disk = disk ∧
      TreeMessages host.codecs disk p.chunkSize (node.listing (request.filename.getD []))
        served.transmissionQueue.meanings ∧
      served.transmissionQueue.Faithful host.protobuf) ∨
    (¬ p.compressor.TakesAll room
        (treePieces disk p.chunkSize (node.listing (request.filename.getD []))) ∧
      Yields (processRequest host disk buffer) (.error .undefinedBehaviour)) := by
  obtain ⟨chunkSize, compressor, rfl, hconfigured, hsmall, -⟩ :=
    configureFileProcessor_ok hconfigure htrain
  obtain ⟨e, hexplore, hremaining⟩ :=
    DirectoryExplorer.explore_ok hreadable.unlocked hreadable.files
  set path := request.filename.getD [] with hpath
  have hbytes : chunkSize * 1024 % 2 ^ 32 = chunkSize * 1024 := Nat.mod_eq_of_lt (by omega)
  set start : Serving := ⟨.file { FileProcessor.new chunkSize compressor with
      workingPath := path, directoryExplorer := some e }, disk,
      .withCapacity (11 * chunkSize * 1024 / 10), .empty, .empty, .empty⟩ with hstart
  have hsweeping : Sweeping start chunkSize compressor (node.listing path) := by
    refine ⟨⟨_, rfl, ⟨⟨e, rfl, hremaining⟩, ?_, hbytes⟩, rfl, rfl⟩, rfl, rfl, Nat.zero_le _, ?_⟩
    · change compressor.Configured (chunkSize * 1024 % 2 ^ 32)
      rwa [hbytes]
    · change 11 * chunkSize * 1024 / 10 ≤ 11 * (chunkSize * 1024 % 2 ^ 32) / 10
      rw [hbytes, Nat.mul_assoc]
  have hprepare : (Processor.file (.new chunkSize compressor)).preparePath host disk path =
      .ok (.file { FileProcessor.new chunkSize compressor with
        workingPath := path, directoryExplorer := some e }) := by
    simp only [Processor.preparePath, FileProcessingStrategy.preparePath, hreadable.root, hexplore]
    rfl
  have hbase : (Processor.file { FileProcessor.new chunkSize compressor with
      workingPath := path, directoryExplorer := some e }).base.chunkSize = chunkSize := rfl
  have hgo (fuel : Nat) : processRequest host disk buffer fuel =
      (serveFiles host fuel start).map
        (Except.map fun s => ⟨s.disk, s.transmissionQueue, true⟩) := by
    simp only [processRequest, hrequest, hconfigure, ← hpath, hprepare, hbase, htrain, if_false]
    refine congrArg₂ Option.map (funext fun r => ?_) rfl
    cases r <;> rfl
  rw [funext hgo]
  rcases serveFiles_files hassumed hsweeping fun p hp =>
      hreadable.files p (Node.mem_listing.mp hp) with
    ⟨htakes, t, messages, hyields, hdisk, htree, hmeanings, hfaithful⟩ | ⟨hnot, hyields⟩
  · refine .inl ⟨htakes, ⟨t.disk, t.transmissionQueue, true⟩, hyields.map _, rfl, hdisk, ?_, ?_⟩
    · rw [hmeanings]
      exact htree
    · exact hfaithful (by simp [hstart, TransmissionQueue.Faithful, SynchronousQueue.empty])
  · exact .inr ⟨hnot, hyields.map _⟩

end Autocomp.Server

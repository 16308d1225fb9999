import Autocomp.Network.ImageLoop
import Autocomp.Network.Transfer

/-!
# What a pre-compressing request leaves behind

The compressed image of a file is written next to it and removed by the chunk that ends it, if the
loop comes to that chunk. Between the two it is a file like any other: it may have overwritten one
of the tree.
-/

namespace Autocomp.Server

open FileStream Loop PreCompressingFileProcessor

structure SameWalk (p q : PreCompressingFileProcessor) : Prop where
  compressor : q.compressor = p.compressor
  compressionLevel : q.compressionLevel = p.compressionLevel
  chunkSizeBytes : q.chunkSizeBytes = p.chunkSizeBytes
  directoryExplorer : q.directoryExplorer = p.directoryExplorer

/-- The buffers of the loops, whatever the processor. -/
structure Serving.Buffered (s : Serving) : Prop where
  header : s.chunkHeaderBuffer = .empty
  chunk : s.chunk.actualSize ≤ s.chunk.capacity

theorem getNextChunk_sameWalk (disk : Disk Path) (p : PreCompressingFileProcessor)
    (chunk : Buffer) : SameWalk p (p.getNextChunk disk chunk).2.2.1 := by
  unfold PreCompressingFileProcessor.getNextChunk
  split
  · exact ⟨rfl, rfl, rfl, rfl⟩
  · split
    · exact ⟨rfl, rfl, rfl, rfl⟩
    · simp only
      split
      · exact ⟨rfl, rfl, rfl, rfl⟩
      · split <;> exact ⟨rfl, rfl, rfl, rfl⟩

theorem getNextChunk_buffer (disk : Disk Path) (p : PreCompressingFileProcessor) {chunk : Buffer}
    (hchunk : chunk.actualSize ≤ chunk.capacity) :
    (p.getNextChunk disk chunk).2.1.actualSize ≤ (p.getNextChunk disk chunk).2.1.capacity := by
  unfold PreCompressingFileProcessor.getNextChunk
  split
  · exact hchunk
  · split
    · exact hchunk
    · simp only
      split
      · split
        · exact Buffer.resize_le hchunk _
        · exact hchunk
      · rename_i b hb
        have hle := Buffer.setSize_le hb
        split <;> exact hle

theorem serveChunk_kept {host : Host} {s t : ServingFile} {p : PreCompressingFileProcessor}
    (hprocessor : s.processor = .preCompressing p) (hbuffered : s.toServing.Buffered)
    (h : serveChunk host s = .ok t) :
    ∃ q, t.processor = .preCompressing q ∧ SameWalk p q ∧ t.toServing.Buffered := by
  have hsame := getNextChunk_sameWalk s.disk p s.chunk
  have hbuffer := getNextChunk_buffer s.disk p hbuffered.chunk
  have hget : s.processor.getNextChunk host s.disk s.chunk =
      ((p.getNextChunk s.disk s.chunk).1, (p.getNextChunk s.disk s.chunk).2.1,
        .preCompressing (p.getNextChunk s.disk s.chunk).2.2.1,
        (p.getNextChunk s.disk s.chunk).2.2.2) := by
    rw [hprocessor]
    rfl
  rw [serveChunk, hget] at h
  split at h
  · rename_i hgot
    simp only [Prod.mk.injEq] at hgot
    obtain ⟨-, rfl, rfl, rfl⟩ := hgot
    rw [Except.ok.injEq] at h
    rw [← h]
    exact ⟨_, rfl, hsame, hbuffered.header, hbuffer⟩
  · contradiction
  · rename_i hgot
    simp only [Prod.mk.injEq] at hgot
    obtain ⟨-, rfl, rfl, rfl⟩ := hgot
    rw [Except.ok.injEq] at h
    rw [← h]
    exact ⟨_, rfl, hsame, rfl, Nat.le_refl _⟩

theorem SameWalk.trans {p q r : PreCompressingFileProcessor} (h : SameWalk p q)
    (h' : SameWalk q r) : SameWalk p r :=
  ⟨h'.compressor.trans h.compressor, h'.compressionLevel.trans h.compressionLevel,
    h'.chunkSizeBytes.trans h.chunkSizeBytes, h'.directoryExplorer.trans h.directoryExplorer⟩

theorem serveChunks_kept {host : Host} {s t : ServingFile} {p : PreCompressingFileProcessor}
    (hprocessor : s.processor = .preCompressing p) (hbuffered : s.toServing.Buffered)
    (h : Yields (fun fuel => serveChunks host fuel s) (.ok t)) :
    ∃ q, t.processor = .preCompressing q ∧ SameWalk p q ∧ t.toServing.Buffered := by
  obtain ⟨n, hn⟩ := h
  apply whileLoop_invariant (fun u => ∃ q, u.processor = .preCompressing q ∧ SameWalk p q ∧
    u.toServing.Buffered) (hn n (Nat.le_refl n))
  · exact ⟨p, hprocessor, ⟨rfl, rfl, rfl, rfl⟩, hbuffered⟩
  · intro fuel u v hu _ hround
    obtain ⟨q, hq, hsame, hbuffered'⟩ := hu
    obtain ⟨r, hr, hsame', hbuffered''⟩ :=
      serveChunk_kept hq hbuffered' (Option.some.inj hround)
    exact ⟨r, hr, hsame.trans hsame', hbuffered''⟩

/-- The loop over the chunks of an image of `M` bytes, made of a file of `N`, comes to the removal of
the image. -/
def Removes (M N : Nat) : Prop := 1 ≤ M ∧ (M - 1) / imageChunkBytes * imageChunkBytes < N

instance (M N : Nat) : Decidable (Removes M N) := inferInstanceAs (Decidable (_ ∧ _))

section

variable (host : Host) {s : ServingFile} {p : PreCompressingFileProcessor} {image : ByteString}
  {fileSize : Nat}

theorem serveChunks_nil (h : Sending s p [] fileSize imageChunkBytes 0) :
    ∃ t, Yields (fun fuel => serveChunks host fuel s) (.ok t) ∧ t.disk = s.disk := by
  by_cases hpos : 0 < fileSize
  · have hnext : s.processor.hasNextChunk = true := by
      rw [h.hasNextChunk, decide_eq_true hpos]
    have hdone : p.hasNextChunk = false := by
      simp [PreCompressingFileProcessor.hasNextChunk, h.atOffset.read, h.atOffset.compressedSize]
    have hget : s.processor.getNextChunk host s.disk s.chunk =
        (.error p.noMoreDataError, s.chunk, .preCompressing p, s.disk) := by
      rw [h.processor]
      simp only [Processor.getNextChunk, PreCompressingFileProcessor.getNextChunk,
        h.atOffset.isOpen, hdone, Bool.true_eq_false, if_false, if_true]
    exact ⟨_, serveChunks_next h.unbroken hnext (serveChunk_ioError host hget)
      (serveChunks_stop (.inl rfl)), rfl⟩
  · have hnext : s.processor.hasNextChunk = false := by
      rw [h.hasNextChunk, decide_eq_false hpos]
    exact ⟨s, serveChunks_stop (.inr hnext), rfl⟩

/-- The disk after the chunks of an image. -/
theorem serveChunks_disk (h : Sending s p image fileSize imageChunkBytes 0) :
    ∃ t, Yields (fun fuel => serveChunks host fuel s) (.ok t) ∧
      t.disk = if Removes image.length fileSize then removed p s.disk else s.disk := by
  by_cases hremoves : Removes image.length fileSize
  · have hbase : 0 + (image.length - 1 - 0) / imageChunkBytes * imageChunkBytes < fileSize := by
      rw [Nat.sub_zero, Nat.zero_add]
      exact hremoves.2
    rw [if_pos hremoves]
    by_cases hcut : imageChunkBytes ∣ image.length - 0 ∧ image.length < fileSize
    · obtain ⟨t, hyields, -, hdisk⟩ :=
        serveChunks_broken host (by decide) h hremoves.1 hcut.1 hcut.2
      exact ⟨t, hyields, hdisk⟩
    · rw [not_and, Nat.not_lt] at hcut
      obtain ⟨t, hyields, -, -, hdisk, -⟩ :=
        serveChunks_image host (by decide) h hremoves.1 hbase hcut
      exact ⟨t, hyields, hdisk⟩
  · rw [if_neg hremoves]
    by_cases hM : 1 ≤ image.length
    · obtain ⟨t, hyields, -, hdisk⟩ := serveChunks_early host (by decide) h hM (by
        rw [Nat.sub_zero, Nat.zero_add]
        exact Nat.not_lt.mp fun hlt => hremoves ⟨hM, hlt⟩)
      exact ⟨t, hyields, hdisk⟩
    · have hnil : image = [] := List.length_eq_zero_iff.mp (by omega)
      subst hnil
      exact serveChunks_nil host h

end

/-- What a script run on a file is given, and may be given only by names that the shell leaves alone
and that name no directory. -/
structure Scriptable (host : Host) (compressor : Compressor) (file : Path) : Prop where
  plain : compressor ≠ .COPY →
    isPlain file = true ∧ isPlain (file ++ compressor.fileExtenssion) = true
  regular : ∀ node, host.root (file ++ compressor.fileExtenssion) = .ok node →
    node.isDirectory = false

def imageOf (scripts : Scripts) (compressor : Compressor) (compressionLevel : Int)
    (content : ByteString) : ByteString :=
  if compressor = .COPY then content else scripts.image compressor compressionLevel content

def compressed (scripts : Scripts) (compressor : Compressor) (compressionLevel : Int) (file : Path)
    (content : ByteString) (disk : Disk Path) : Disk Path :=
  if compressor = .COPY then disk
  else Function.update disk (file ++ compressor.fileExtenssion)
    (some (imageOf scripts compressor compressionLevel content))

def residue (scripts : Scripts) (compressor : Compressor) (compressionLevel : Int) (file : Path)
    (disk : Disk Path) : Disk Path :=
  match disk file with
  | none => disk
  | some content =>
    let image := imageOf scripts compressor compressionLevel content
    if compressor = .COPY then disk
    else Function.update disk (file ++ compressor.fileExtenssion)
      (if Removes image.length content.length then none else some image)

/-- The loop over the files is about to ask for the first of `files`. -/
structure Passing (s : Serving) (compressor : Compressor) (compressionLevel : Int)
    (files : List Path) : Prop where
  processor : ∃ p, s.processor = .preCompressing p ∧ p.compressor = compressor ∧
    p.compressionLevel = compressionLevel ∧ p.chunkSizeBytes = imageChunkBytes ∧
    ∃ e, p.directoryExplorer = some e ∧ e.remaining = files
  buffered : s.Buffered

theorem fileExtenssion_ne_nil {c : Compressor} (h : c ≠ .COPY) : c.fileExtenssion ≠ [] := by
  cases c <;> first | decide | exact absurd rfl h

theorem compressedName_ne {c : Compressor} (h : c ≠ .COPY) (file : Path) :
    file ≠ file ++ c.fileExtenssion := by
  intro heq
  exact fileExtenssion_ne_nil h (by simpa using heq)

section

variable {host : Host} {disk : Disk Path} {p : PreCompressingFileProcessor} {file : Path}

theorem compressFile_some (hsupported : p.compressor ≠ .SNAPPY)
    (hscript : Scriptable host p.compressor file) {content : ByteString}
    (hfile : disk file = some content) :
    p.compressFile host.scripts file (file ++ p.compressor.fileExtenssion) disk =
      .ok (compressed host.scripts p.compressor p.compressionLevel file content disk) := by
  unfold compressFile compressed
  by_cases hcopy : p.compressor = .COPY
  · rw [if_pos hcopy, if_pos hcopy]
  · have hhas : p.compressor.hasScript = true := by
      cases hc : p.compressor <;> first | rfl | exact absurd hc hcopy | exact absurd hc hsupported
    rw [if_neg hcopy, if_neg hcopy, if_pos hhas, imageOf, if_neg hcopy, Scripts.compress,
      if_pos (hscript.plain hcopy), hfile]

theorem compressFile_none (hsupported : p.compressor ≠ .SNAPPY)
    (hscript : Scriptable host p.compressor file) (hfile : disk file = none) :
    p.compressFile host.scripts file (file ++ p.compressor.fileExtenssion) disk = .ok disk := by
  unfold compressFile
  by_cases hcopy : p.compressor = .COPY
  · rw [if_pos hcopy]
  · have hhas : p.compressor.hasScript = true := by
      cases hc : p.compressor <;> first | rfl | exact absurd hc hcopy | exact absurd hc hsupported
    rw [if_neg hcopy, if_pos hhas, Scripts.compress, if_pos (hscript.plain hcopy), hfile]

theorem compressed_image (scripts : Scripts) (c : Compressor) (level : Int) {content : ByteString}
    (hfile : disk file = some content) :
    compressed scripts c level file content disk (file ++ c.fileExtenssion) =
      some (imageOf scripts c level content) := by
  unfold compressed imageOf
  by_cases hcopy : c = .COPY
  · rw [if_pos hcopy, if_pos hcopy, hcopy, Compressor.fileExtenssion, List.append_nil, hfile]
  · rw [if_neg hcopy, if_neg hcopy, Function.update_self]

theorem compressed_source (scripts : Scripts) (c : Compressor) (level : Int) {content : ByteString}
    (hfile : disk file = some content) :
    compressed scripts c level file content disk file = some content := by
  unfold compressed
  by_cases hcopy : c = .COPY
  · rw [if_pos hcopy, hfile]
  · rw [if_neg hcopy, Function.update_of_ne (compressedName_ne hcopy file), hfile]

theorem openNextFile_some {e : DirectoryExplorer} {files : List Path} {content : ByteString}
    (hexplorer : p.directoryExplorer = some e) (hremaining : e.remaining = file :: files)
    (hnext : ∀ g ∈ files.head?, disk g ≠ none) (hsupported : p.compressor ≠ .SNAPPY)
    (hscript : Scriptable host p.compressor file) (hfile : disk file = some content) :
    ∃ p' e', p.openNextFile host.scripts disk = (.ok content.length, p',
        compressed host.scripts p.compressor p.compressionLevel file content disk) ∧
      AtOffset p' (imageOf host.scripts p.compressor p.compressionLevel content) content.length
        p.chunkSizeBytes 0 ∧
      p'.compressor = p.compressor ∧ p'.compressionLevel = p.compressionLevel ∧
      p'.directoryExplorer = some e' ∧ e'.remaining = files ∧
      p'.currentCompressedFileName = file ++ p.compressor.fileExtenssion := by
  have hmore : p.hasNextFile = true := by
    rw [FileProcessingStrategy.hasNextFile, hexplorer]
    exact e.hasNextFile_iff.mpr (by rw [hremaining]; exact List.cons_ne_nil _ _)
  obtain ⟨e', source, htake, hrest, hclosed⟩ := takeNextFile_ok hexplorer hremaining hnext
  have hopen := InStream.openFile_some hclosed
    (imageOf host.scripts p.compressor p.compressionLevel content)
  have hcompress := compressFile_some hsupported hscript hfile
  have himage := compressed_image host.scripts p.compressor p.compressionLevel hfile
  have hsource := compressed_source host.scripts p.compressor p.compressionLevel hfile
  set image := imageOf host.scripts p.compressor p.compressionLevel content with himageOf
  refine ⟨{ p with
      source := ⟨true, image, 0, false, false, 0⟩
      directoryExplorer := some e'
      currentFileName := file
      currentFileSize := content.length
      currentFileReadBytes := 0
      compressedFileSize := image.length
      currentCompressedFileName := file ++ p.compressor.fileExtenssion }, e', ?_,
    ⟨rfl, rfl, rfl, rfl, rfl, rfl, rfl, rfl, rfl⟩, rfl, rfl, rfl, hrest, rfl⟩
  have hcompress' : compressFile host.scripts { p with
      toFileProcessingStrategy := { p.toFileProcessingStrategy with
        source := source, directoryExplorer := some e', currentFileName := file }
      currentCompressedFileName := file ++ p.compressor.fileExtenssion } file
      (file ++ p.compressor.fileExtenssion) disk = _ := hcompress
  have hname (s : FileProcessingStrategy) :
      s.calculateFileSize.currentFileName = s.currentFileName := rfl
  simp only [PreCompressingFileProcessor.openNextFile, hmore, if_true, htake, hcompress', himage,
    hopen, hname, hsource, Bool.false_eq_true, if_false]
  rfl

theorem openNextFile_none {e : DirectoryExplorer} {files : List Path}
    (hexplorer : p.directoryExplorer = some e) (hremaining : e.remaining = file :: files)
    (hnext : ∀ g ∈ files.head?, disk g ≠ none) (hsupported : p.compressor ≠ .SNAPPY)
    (hscript : Scriptable host p.compressor file) (hfile : disk file = none) :
    ∃ message p' e', p.openNextFile host.scripts disk = (.error (.ioError message), p', disk) ∧
      p'.compressor = p.compressor ∧ p'.compressionLevel = p.compressionLevel ∧
      p'.chunkSizeBytes = p.chunkSizeBytes ∧ p'.directoryExplorer = some e' ∧
      e'.remaining = files := by
  have hmore : p.hasNextFile = true := by
    rw [FileProcessingStrategy.hasNextFile, hexplorer]
    exact e.hasNextFile_iff.mpr (by rw [hremaining]; exact List.cons_ne_nil _ _)
  obtain ⟨e', source, htake, hrest, hclosed⟩ := takeNextFile_ok hexplorer hremaining hnext
  have hcompress : compressFile host.scripts { p with
      toFileProcessingStrategy := { p.toFileProcessingStrategy with
        source := source, directoryExplorer := some e', currentFileName := file }
      currentCompressedFileName := file ++ p.compressor.fileExtenssion } file
      (file ++ p.compressor.fileExtenssion) disk = .ok disk :=
    compressFile_none hsupported hscript hfile
  have hname (s : FileProcessingStrategy) :
      s.calculateFileSize.currentFileName = s.currentFileName := rfl
  cases himage : disk (file ++ p.compressor.fileExtenssion) with
  | none =>
    refine ⟨ascii "Could not open current file: " ++ (file ++ p.compressor.fileExtenssion), { p with
        source := { source with fail := true }
        directoryExplorer := some e'
        currentFileName := file
        currentCompressedFileName := file ++ p.compressor.fileExtenssion }, e', ?_, rfl, rfl, rfl,
      rfl, hrest⟩
    simp only [PreCompressingFileProcessor.openNextFile, hmore, if_true, htake, hcompress, himage,
      InStream.openFile]
  | some image =>
    refine ⟨ascii "Could not open file: " ++ file, { p with
        source := ⟨true, image, 0, false, false, 0⟩
        directoryExplorer := some e'
        currentFileName := file
        currentFileSize := image.length
        compressedFileSize := image.length
        currentCompressedFileName := file ++ p.compressor.fileExtenssion }, e', ?_, rfl, rfl, rfl,
      rfl, hrest⟩
    simp only [PreCompressingFileProcessor.openNextFile, hmore, if_true, htake, hcompress, himage,
      InStream.openFile_some hclosed, hname, hfile, Bool.false_eq_true, if_false]
    rfl

theorem openNextFile_gone (scripts : Scripts) {e : DirectoryExplorer} {gone : Path}
    {files : List Path} (hexplorer : p.directoryExplorer = some e)
    (hremaining : e.remaining = file :: gone :: files) (hgone : disk gone = none) :
    ∃ message p' e', p.openNextFile scripts disk = (.error (.ioError message), p', disk) ∧
      p'.compressor = p.compressor ∧ p'.compressionLevel = p.compressionLevel ∧
      p'.chunkSizeBytes = p.chunkSizeBytes ∧ p'.directoryExplorer = some e' ∧
      e'.remaining = file :: files := by
  have hmore : p.hasNextFile = true := by
    rw [FileProcessingStrategy.hasNextFile, hexplorer]
    exact e.hasNextFile_iff.mpr (by rw [hremaining]; exact List.cons_ne_nil _ _)
  obtain ⟨e', message, hgo, hrest⟩ := DirectoryExplorer.getNextFileName_gone hremaining hgone
  refine ⟨message, { p with
      source := if p.source.isOpen then p.source.close else p.source
      directoryExplorer := some e' }, e', ?_, rfl, rfl, rfl, rfl, hrest⟩
  cases hopen : p.source.isOpen <;>
    simp [PreCompressingFileProcessor.openNextFile, hmore, FileProcessingStrategy.takeNextFile,
      hopen, hexplorer, hgo]

end

section

variable {host : Host} {compressor : Compressor} {level : Int} {s : Serving} {file : Path}
  {files : List Path}

theorem serveFile_ioError {p p' : PreCompressingFileProcessor} {message : ByteString}
    {disk : Disk Path} (hprocessor : s.processor = .preCompressing p)
    (hopen : p.openNextFile host.scripts s.disk = (.error (.ioError message), p', disk))
    (fuel : Nat) :
    serveFile host fuel s = some (.ok { s with
      processor := .preCompressing p'
      disk := disk
      transmissionQueue := sendErrorMessage host.protobuf message s.transmissionQueue }) := by
  simp only [serveFile, hprocessor, Processor.openNextFile, hopen]
  rfl

theorem serveFile_opened {processor : Processor} {disk : Disk Path} {fileSize : Nat}
    (h : s.processor.openNextFile host s.disk = (.ok fileSize, processor, disk)) :
    ∃ opened : Serving, (∀ fuel, serveFile host fuel s =
        (serveChunks host fuel ⟨opened, 0, false⟩).map fun result =>
          result.map ServingFile.toServing) ∧
      opened.processor = processor ∧ opened.disk = disk ∧ opened.chunk = s.chunk ∧
      opened.chunkHeaderBuffer = s.chunkHeaderBuffer := by
  let message : FileInitialMessage :=
    ⟨some processor.base.currentFileName, some (BitVec.ofNat 64 fileSize),
      some (BitVec.ofNat 32 processor.base.chunkSize),
      if processor.hasNextFile then none else some true⟩
  refine ⟨{ s with
      processor := processor
      disk := disk
      fileInitialMessageBuffer := .empty
      transmissionQueue := s.transmissionQueue.push ⟨.initial message, serializeMessage
        host.protobuf.fileInitialMessage message s.fileInitialMessageBuffer⟩ },
    fun fuel => ?_, rfl, rfl, rfl, rfl⟩
  simp only [serveFile, h]
  rfl

theorem serveFile_pass (hsupported : compressor ≠ .SNAPPY)
    (hscript : Scriptable host compressor file)
    (h : Passing s compressor level (file :: files)) (hnext : ∀ g ∈ files.head?, s.disk g ≠ none) :
    ∃ t, Yields (fun fuel => serveFile host fuel s) (.ok t) ∧ Passing t compressor level files ∧
      t.disk = residue host.scripts compressor level file s.disk := by
  obtain ⟨p, hprocessor, rfl, rfl, hsize, e, hexplorer, hremaining⟩ := h.processor
  cases hfile : s.disk file with
  | none =>
    obtain ⟨message, p', e', hopen, hcomp, hlevel, hsize', hexplorer', hrest⟩ :=
      openNextFile_none hexplorer hremaining hnext hsupported hscript hfile
    refine ⟨_, ⟨0, fun fuel _ => serveFile_ioError hprocessor hopen fuel⟩,
      ⟨⟨p', rfl, hcomp, hlevel, hsize'.trans hsize, e', hexplorer', hrest⟩, h.buffered.header,
      h.buffered.chunk⟩, ?_⟩
    simp only [residue, hfile]
  | some content =>
    obtain ⟨p', e', hopen, hat, hcomp, hlevel, hexplorer', hrest, hname⟩ :=
      openNextFile_some hexplorer hremaining hnext hsupported hscript hfile
    rw [hsize] at hat
    set image := imageOf host.scripts p.compressor p.compressionLevel content with himage
    have hopened : s.processor.openNextFile host s.disk = (.ok content.length, .preCompressing p',
        compressed host.scripts p.compressor p.compressionLevel file content s.disk) := by
      rw [hprocessor]
      simp only [Processor.openNextFile, hopen]
    obtain ⟨opened, hgo, hproc, hdisk, hchunk, hheader⟩ := serveFile_opened hopened
    have hsending : Sending ⟨opened, 0, false⟩ p' image content.length imageChunkBytes 0 :=
      ⟨hproc, hat, rfl, hheader.trans h.buffered.header, by rw [hchunk]; exact h.buffered.chunk⟩
    obtain ⟨t, hyields, hleft⟩ := serveChunks_disk host hsending
    obtain ⟨q, hq, hsame, hbuffered⟩ :=
      serveChunks_kept hproc ⟨hsending.header, hsending.chunk⟩ hyields
    refine ⟨t.toServing, ?_, ⟨⟨q, hq, hsame.compressor.trans hcomp,
      hsame.compressionLevel.trans hlevel, hsame.chunkSizeBytes.trans hat.chunkBytes, e',
      hsame.directoryExplorer.trans hexplorer', hrest⟩, hbuffered⟩, ?_⟩
    · simp only [hgo]
      exact hyields.map fun result => result.map ServingFile.toServing
    · rw [hleft, removed, hcomp, hname, hdisk, residue, hfile, compressed]
      by_cases hcopy : p.compressor = .COPY
      · simp only [hcopy, ne_eq, not_true, if_false, if_true, ite_self]
      · simp only [hcopy, ne_eq, not_false_eq_true, if_false, if_true, Function.update_idem,
          ← himage]
        split <;> rfl

variable (host) in
theorem serveFile_gone {gone : Path} (h : Passing s compressor level (file :: gone :: files))
    (hgone : s.disk gone = none) :
    ∃ t, Yields (fun fuel => serveFile host fuel s) (.ok t) ∧
      Passing t compressor level (file :: files) ∧ t.disk = s.disk := by
  obtain ⟨p, hprocessor, rfl, rfl, hsize, e, hexplorer, hremaining⟩ := h.processor
  obtain ⟨message, p', e', hopen, hcomp, hlevel, hsize', hexplorer', hrest⟩ :=
    openNextFile_gone host.scripts hexplorer hremaining hgone
  exact ⟨_, ⟨0, fun fuel _ => serveFile_ioError hprocessor hopen fuel⟩,
    ⟨⟨p', rfl, hcomp, hlevel, hsize'.trans hsize, e', hexplorer', hrest⟩, h.buffered.header,
      h.buffered.chunk⟩, rfl⟩

end

/-- The disk once all files have been served: one that is gone when its turn comes is passed over. -/
def residues (scripts : Scripts) (compressor : Compressor) (level : Int) :
    List Path → Disk Path → Disk Path
  | [], disk => disk
  | [file], disk => residue scripts compressor level file disk
  | file :: next :: files, disk =>
    if disk next = none then residues scripts compressor level (file :: files) disk
    else residues scripts compressor level (next :: files)
      (residue scripts compressor level file disk)
termination_by files => files.length

theorem Passing.hasNextFile {s : Serving} {compressor : Compressor} {level : Int}
    {files : List Path} (h : Passing s compressor level files) :
    s.processor.hasNextFile = decide (files ≠ []) := by
  obtain ⟨p, hprocessor, -, -, -, e, hexplorer, rfl⟩ := h.processor
  rw [hprocessor]
  change p.hasNextFile = _
  rw [FileProcessingStrategy.hasNextFile, hexplorer, Bool.eq_iff_iff, decide_eq_true_iff]
  exact e.hasNextFile_iff

theorem serveFiles_pass {host : Host} {compressor : Compressor} {level : Int} {s : Serving}
    {files : List Path} (hsupported : compressor ≠ .SNAPPY)
    (hscript : ∀ file ∈ files, Scriptable host compressor file)
    (h : Passing s compressor level files) :
    ∃ t, Yields (fun fuel => serveFiles host fuel s) (.ok t) ∧
      t.disk = residues host.scripts compressor level files s.disk := by
  induction hlen : files.length generalizing s files with
  | zero =>
    obtain rfl := List.length_eq_zero_iff.mp hlen
    exact ⟨s, whileLoop_stop h.hasNextFile, by rw [residues]⟩
  | succ n ih =>
    obtain ⟨file, rest, rfl⟩ := List.exists_cons_of_length_eq_add_one hlen
    rw [List.length_cons, Nat.add_right_cancel_iff] at hlen
    have hmore : s.processor.hasNextFile = true := by
      rw [h.hasNextFile, decide_eq_true (List.cons_ne_nil _ _)]
    have hserve (hnext : ∀ g ∈ rest.head?, s.disk g ≠ none) :
        ∃ t, Yields (fun fuel => serveFiles host fuel s) (.ok t) ∧
          t.disk = residues host.scripts compressor level rest
            (residue host.scripts compressor level file s.disk) := by
      obtain ⟨t, hgo, hpassing, hdisk⟩ :=
        serveFile_pass hsupported (hscript file List.mem_cons_self) h hnext
      obtain ⟨u, hyields, hleft⟩ :=
        ih (fun f hf => hscript f (List.mem_cons_of_mem _ hf)) hpassing hlen
      exact ⟨u, whileLoop_next hmore hgo hyields, by rw [hleft, hdisk]⟩
    cases rest with
    | nil =>
      obtain ⟨t, hyields, hdisk⟩ := hserve (by simp)
      exact ⟨t, hyields, by rw [hdisk, residues, residues]⟩
    | cons next rest =>
      by_cases hgone : s.disk next = none
      · obtain ⟨t, hgo, hpassing, hdisk⟩ := serveFile_gone host h hgone
        obtain ⟨u, hyields, hleft⟩ := ih (fun f hf => hscript f (by
          rcases List.mem_cons.mp hf with rfl | hf
          · exact List.mem_cons_self
          · exact List.mem_cons_of_mem _ (List.mem_cons_of_mem _ hf))) hpassing (by
            rw [← hlen, List.length_cons, List.length_cons])
        exact ⟨u, whileLoop_next hmore hgo hyields, by rw [hleft, hdisk, residues, if_pos hgone]⟩
      · obtain ⟨t, hyields, hdisk⟩ := hserve (by simpa using hgone)
        exact ⟨t, hyields, by rw [hdisk, residues, if_neg hgone]⟩

section

variable {scripts : Scripts} {compressor : Compressor} {level : Int}

theorem residue_of_ne {file path : Path} (disk : Disk Path)
    (h : path ≠ file ++ compressor.fileExtenssion) :
    residue scripts compressor level file disk path = disk path := by
  unfold residue
  cases hfile : disk file with
  | none => rfl
  | some content =>
    by_cases hcopy : compressor = .COPY
    · simp only [if_pos hcopy]
    · simp only [if_neg hcopy, Function.update_of_ne h]

theorem residues_of_ne {files : List Path} {path : Path} (disk : Disk Path)
    (h : ∀ file ∈ files, path ≠ file ++ compressor.fileExtenssion) :
    residues scripts compressor level files disk path = disk path := by
  fun_induction residues scripts compressor level files disk with
  | case1 => rfl
  | case2 file disk => exact residue_of_ne disk (h file List.mem_cons_self)
  | case3 file next files disk _ ih =>
    apply ih
    intro f hf
    rcases List.mem_cons.mp hf with rfl | hf
    · exact h f List.mem_cons_self
    · exact h f (List.mem_cons_of_mem _ (List.mem_cons_of_mem _ hf))
  | case4 file next files disk _ ih =>
    rw [ih fun f hf => h f (List.mem_cons_of_mem _ hf), residue_of_ne disk (h file List.mem_cons_self)]

/-- Since no path is the image of two files, what one file changes is never changed back. -/
theorem residues_eq_iff {files : List Path} (hnodup : files.Nodup) {disk : Disk Path}
    (hfiles : ∀ file ∈ files, disk file ≠ none) :
    residues scripts compressor level files disk = disk ↔
      ∀ file ∈ files, residue scripts compressor level file disk = disk := by
  induction files with
  | nil => simp [residues]
  | cons file rest ih =>
    obtain ⟨hfresh, hrest⟩ := List.nodup_cons.mp hnodup
    have ih := ih hrest fun f hf => hfiles f (List.mem_cons_of_mem _ hf)
    have hstep : residues scripts compressor level (file :: rest) disk =
        residues scripts compressor level rest (residue scripts compressor level file disk) := by
      cases rest with
      | nil => rw [residues, residues]
      | cons next rest => rw [residues, if_neg (hfiles next (by simp))]
    rw [hstep, List.forall_mem_cons]
    constructor
    · intro hsame
      have hfile : residue scripts compressor level file disk = disk := by
        funext path
        by_cases himage : path = file ++ compressor.fileExtenssion
        · have hkept := congrFun hsame path
          rwa [residues_of_ne _ fun f hf heq => hfresh (by
            rw [himage, List.append_cancel_right_eq] at heq
            rwa [heq])] at hkept
        · exact residue_of_ne disk himage
      rw [hfile] at hsame
      exact ⟨hfile, ih.mp hsame⟩
    · intro hall
      rw [hall.1]
      exact ih.mpr hall.2

/-- Serving a file leaves the disk as it was: its image is not there before and is removed, or it is
there as the script makes it and stays. -/
def LeavesNoTrace (scripts : Scripts) (compressor : Compressor) (level : Int) (disk : Disk Path)
    (file : Path) : Prop :=
  ∀ content, disk file = some content → compressor ≠ .COPY →
    let image := scripts.image compressor level content
    (disk (file ++ compressor.fileExtenssion) = none ∧ Removes image.length content.length) ∨
      (disk (file ++ compressor.fileExtenssion) = some image ∧
        ¬ Removes image.length content.length)

theorem residue_eq_iff {disk : Disk Path} {file : Path} :
    residue scripts compressor level file disk = disk ↔
      LeavesNoTrace scripts compressor level disk file := by
  unfold residue LeavesNoTrace
  cases hfile : disk file with
  | none => simp
  | some content =>
    by_cases hcopy : compressor = .COPY
    · simp [hcopy]
    · have himage : imageOf scripts compressor level content =
          scripts.image compressor level content := if_neg hcopy
      simp only [himage, hcopy, if_false, Function.update_eq_self_iff, Option.some.injEq, ne_eq,
        not_false_eq_true, true_implies, forall_eq']
      by_cases hremoves : Removes (scripts.image compressor level content).length content.length
      · rw [if_pos hremoves]
        simp only [hremoves, and_true, not_true, and_false, or_false]
        exact eq_comm
      · rw [if_neg hremoves]
        simp only [hremoves, and_false, not_false_eq_true, and_true, false_or]
        exact eq_comm

end

/-! ## A request -/

theorem configureFileProcessor_preCompressing {host : Host} {request : FileTransmissionRequest}
    {p : PreCompressingFileProcessor}
    (h : configureFileProcessor host request = .ok (.preCompressing p)) :
    p.toFileProcessingStrategy = .new 1024 := by
  unfold configureFileProcessor at h
  split at h
  · simp at h
  · simp at h
  · cases hset : AutomaticCompressionStrategy.setCompressor (request.compressor.getD .ZLIB)
      (requestedLevel request) <;> simp [hset, Except.map] at h
  · simp only [PreCompressingFileProcessor.setCompressor] at h
    split at h
    · simp only [Except.map, Except.ok.injEq, Processor.preCompressing.injEq] at h
      rw [← h]
      rfl
    · split at h
      · simp only [Except.map, Except.ok.injEq, Processor.preCompressing.injEq] at h
        rw [← h]
        rfl
      · split at h
        · simp only [Except.map, Except.ok.injEq, Processor.preCompressing.injEq] at h
          rw [← h]
          rfl
        · simp [Except.map] at h
  · cases hset : host.training request <;> simp [hset, Except.map] at h

theorem processRequest_residues {host : Host} (disk : Disk Path) {buffer : ByteString}
    {request : FileTransmissionRequest} {p : PreCompressingFileProcessor} {node : Node}
    (hrequest : host.protobuf.fileTransmissionRequest.deserialize buffer = some request)
    (hconfigure : configureFileProcessor host request = .ok (.preCompressing p))
    (hsupported : p.compressor ≠ .SNAPPY)
    (hreadable : Readable host disk (request.filename.getD []) node)
    (hscript : ∀ file ∈ node.files (request.filename.getD []), Scriptable host p.compressor file) :
    ∃ served, Yields (processRequest host disk buffer) (.ok served) ∧
      served.disk = residues host.scripts p.compressor p.compressionLevel
        (node.listing (request.filename.getD [])) disk := by
  have hnew := configureFileProcessor_preCompressing hconfigure
  set path := request.filename.getD [] with hpath
  obtain ⟨e, hexplore, hremaining⟩ :=
    DirectoryExplorer.explore_ok hreadable.unlocked hreadable.files
  set ready : PreCompressingFileProcessor := { p with
    workingPath := path, directoryExplorer := some e } with hready
  have hsize : ready.chunkSizeBytes = imageChunkBytes := congrArg (·.chunkSizeBytes) hnew
  have hpassing : Passing ⟨.preCompressing ready, disk,
      .withCapacity (11 * ready.chunkSize * 1024 / 10), .empty, .empty, .empty⟩ p.compressor
      p.compressionLevel (node.listing path) :=
    ⟨⟨ready, rfl, rfl, rfl, hsize, e, rfl, hremaining⟩, rfl, Nat.zero_le _⟩
  obtain ⟨t, hyields, hdisk⟩ := serveFiles_pass hsupported
    (fun file hfile => hscript file (Node.mem_listing.mp hfile)) hpassing
  have hprepare : (Processor.preCompressing p).preparePath host disk path =
      .ok (.preCompressing ready) := by
    simp only [Processor.preparePath, FileProcessingStrategy.preparePath, hreadable.root, hexplore]
    rfl
  obtain ⟨n, hn⟩ := hyields
  refine ⟨⟨t.disk, if request.mode = some .TRAIN then
      sendErrorMessage host.protobuf (ascii "Done traning")
        (sendErrorMessage host.protobuf (ascii "Done traning") t.transmissionQueue.clear)
      else t.transmissionQueue, true⟩, ⟨n, fun fuel hfuel => ?_⟩, hdisk⟩
  have hbase : (Processor.preCompressing ready).base.chunkSize = ready.chunkSize := rfl
  simp only [processRequest, hrequest, hconfigure, ← hpath, hprepare, hbase, hn fuel hfuel,
    Option.map_some]

/-- A pre-compressing request leaves the disk as it was exactly when every file of the tree does. -/
theorem unchanged_iff (host : Host) {disk : Disk Path} {buffer : ByteString}
    {request : FileTransmissionRequest} {p : PreCompressingFileProcessor} {node : Node}
    (hrequest : host.protobuf.fileTransmissionRequest.deserialize buffer = some request)
    (hconfigure : configureFileProcessor host request = .ok (.preCompressing p))
    (hsupported : p.compressor ≠ .SNAPPY)
    (hreadable : Readable host disk (request.filename.getD []) node) (htree : node.WellFormed)
    (hscript : ∀ file ∈ node.files (request.filename.getD []), Scriptable host p.compressor file) :
    ∃ served, Yields (processRequest host disk buffer) (.ok served) ∧
      (served.disk = disk ↔ ∀ file ∈ node.files (request.filename.getD []),
        LeavesNoTrace host.scripts p.compressor p.compressionLevel disk file) := by
  obtain ⟨served, hyields, hdisk⟩ :=
    processRequest_residues disk hrequest hconfigure hsupported hreadable hscript
  refine ⟨served, hyields, ?_⟩
  rw [hdisk, residues_eq_iff (Node.listing_nodup htree) fun file hfile =>
    hreadable.files file (Node.mem_listing.mp hfile)]
  apply forall_congr'
  intro file
  rw [Node.mem_listing, residue_eq_iff]

def zlibProcessor : PreCompressingFileProcessor :=
  { PreCompressingFileProcessor.new with compressor := .ZLIB, compressionLevel := 6 }

theorem sample_scriptable : Scriptable sampleHost .ZLIB (ascii "a") where
  plain _ := by decide
  regular node hnode := by
    have hne : ascii "a" ++ Compressor.ZLIB.fileExtenssion ≠ ascii "a" := by decide
    simp [sampleHost, hne] at hnode

theorem tree_scriptable {node : Node} (h : ∀ file ∈ node.files (ascii "t"), isPlain file = true ∧
      isPlain (file ++ Compressor.ZLIB.fileExtenssion) = true ∧
      file ++ Compressor.ZLIB.fileExtenssion ≠ ascii "t") :
    ∀ file ∈ node.files (ascii "t"), Scriptable (treeHost node) .ZLIB file := by
  intro file hfile
  obtain ⟨hplain, himage, hne⟩ := h file hfile
  refine ⟨fun _ => ⟨hplain, himage⟩, fun root hroot => ?_⟩
  simp [treeHost, hne] at hroot

theorem twoNode_wellFormed : twoNode.WellFormed := by
  simp only [twoNode, Node.WellFormed, Entries.WellFormed, Entries.names]
  decide

theorem unchanged_two_files : ∃ served,
    Yields (processRequest (treeHost twoNode) (twoDisk [104, 105] [106])
      (protocolBuffers.fileTransmissionRequest.serialize (treeRequest .PRE_COMPRESS none)))
      (.ok served) ∧ served.disk = twoDisk [104, 105] [106] := by
  obtain ⟨served, hyields, hiff⟩ := unchanged_iff (treeHost twoNode) (p := zlibProcessor)
    (treeRequest_deserialize twoNode .PRE_COMPRESS none) (by rfl) (by decide)
    (two_readable [104, 105] [106]) twoNode_wellFormed
    (tree_scriptable (by rw [twoNode_files]; decide))
  refine ⟨served, hyields, hiff.mpr ?_⟩
  rw [show (treeRequest .PRE_COMPRESS none).filename.getD [] = ascii "t" from rfl, twoNode_files]
  intro file hfile content hcontent _
  rcases List.mem_cons.mp hfile with rfl | hfile
  · obtain rfl : [104, 105] = content := Option.some.inj hcontent
    exact .inl ⟨by decide, by decide⟩
  · rw [List.mem_singleton.mp hfile] at hcontent ⊢
    obtain rfl : [106] = content := Option.some.inj hcontent
    exact .inl ⟨by decide, by decide⟩

def pairNode : Node := .directory (.cons (ascii "a") .file (.cons (ascii "a.gz") .file .nil))

def pairDisk : Disk Path :=
  Function.update (Function.update (fun _ => none) (ascii "t/a") (some [1])) (ascii "t/a.gz")
    (some [2])

theorem pairNode_files : pairNode.files (ascii "t") = [ascii "t/a", ascii "t/a.gz"] := by
  decide

theorem pairNode_listing : pairNode.listing (ascii "t") = [ascii "t/a", ascii "t/a.gz"] := by
  rw [pairNode, Node.listing, DirectoryExplorer.listing_file (by simp [Node.isDirectory]),
    DirectoryExplorer.listing_file (by simp [Node.isDirectory]),
    DirectoryExplorer.listing_nil]
  decide

theorem pair_readable : Readable (treeHost pairNode) pairDisk (ascii "t") pairNode where
  root := by simp [treeHost]
  unlocked := by simp [pairNode]
  files := by
    rw [pairNode_files]
    decide
  pathMax := by
    rw [pairNode_files]
    decide

/-- The image of `t/a` is written over the file `t/a.gz` of the tree, and then removed. -/
theorem image_replaces_file : ∃ served, Yields (processRequest (treeHost pairNode) pairDisk
      (protocolBuffers.fileTransmissionRequest.serialize (treeRequest .PRE_COMPRESS none)))
      (.ok served) ∧
    pairDisk (ascii "t/a.gz") = some [2] ∧ served.disk (ascii "t/a.gz") = none := by
  obtain ⟨served, hyields, hdisk⟩ := processRequest_residues pairDisk
    (treeRequest_deserialize pairNode .PRE_COMPRESS none)
    (show configureFileProcessor (treeHost pairNode) (treeRequest .PRE_COMPRESS none) =
      .ok (.preCompressing zlibProcessor) from rfl)
    (by decide) pair_readable (tree_scriptable (by rw [pairNode_files]; decide))
  refine ⟨served, hyields, by decide, ?_⟩
  have hpath : (treeRequest .PRE_COMPRESS none).filename.getD [] = ascii "t" := rfl
  rw [hdisk, hpath, pairNode_listing, residues, if_neg (by decide), residues]
  decide

end Autocomp.Server

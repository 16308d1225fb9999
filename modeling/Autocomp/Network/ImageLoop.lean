import Autocomp.Compression.LibraryContracts
import Autocomp.Network.Chunks

/-!
# Sending a compressed image

The chunk loop asks the base class for more chunks, which counts against the size of the original
file, and `PreCompressingFileProcessor` asks its own method, which counts against the size of the
image. They agree only for some pairs of sizes.
-/

namespace Autocomp.Server

open FileStream Loop Pieces PreCompressingFileProcessor

/-- The processor has read `k` bytes of an image, in full chunks of `c` bytes, for a file of
`fileSize` bytes. -/
structure AtOffset (p : PreCompressingFileProcessor) (image : ByteString) (fileSize c k : Nat) :
    Prop where
  isOpen : p.source.isOpen = true
  content : p.source.content = image
  position : p.source.position = k
  eof : p.source.eof = false
  fail : p.source.fail = false
  read : p.currentFileReadBytes = k
  fileSize : p.currentFileSize = fileSize
  compressedSize : p.compressedFileSize = image.length
  chunkBytes : p.chunkSizeBytes = c

/-- The processor after the last chunk of an image; `short` says whether that was cut short. -/
structure AtEnd (p : PreCompressingFileProcessor) (image : ByteString) (fileSize : Nat)
    (short : Bool) : Prop where
  closed : p.source.isOpen = false
  eof : p.source.eof = short
  read : p.currentFileReadBytes = image.length
  fileSize : p.currentFileSize = fileSize
  fail : p.source.fail = short

theorem AtOffset.hasNextChunk {p : PreCompressingFileProcessor} {image : ByteString}
    {fileSize c k : Nat} (h : AtOffset p image fileSize c k) :
    (Processor.preCompressing p).hasNextChunk = decide (k < fileSize) := by
  simp [Processor.hasNextChunk, Processor.base, FileProcessingStrategy.hasNextChunk, h.eof, h.fail,
    h.read, h.fileSize]

theorem AtEnd.hasNextChunk {p : PreCompressingFileProcessor} {image : ByteString} {fileSize : Nat}
    {short : Bool} (h : AtEnd p image fileSize short) :
    (Processor.preCompressing p).hasNextChunk = (!short && decide (image.length < fileSize)) := by
  cases short <;>
    simp [Processor.hasNextChunk, Processor.base, FileProcessingStrategy.hasNextChunk, h.eof,
      h.fail, h.read, h.fileSize]

/-- What removes the compressed file. -/
def removed (p : PreCompressingFileProcessor) (disk : Disk Path) : Disk Path :=
  if p.compressor ≠ .COPY then Function.update disk p.currentCompressedFileName none else disk

theorem setSize_contents {chunk : Buffer} (bytes : ByteString)
    (h : bytes.length ≤ chunk.capacity) :
    ∃ b, (chunk.overwrite bytes).setSize bytes.length = .ok b ∧ b.contents = bytes ∧
      b.capacity = chunk.capacity := by
  refine ⟨_, if_neg (by simp only [Buffer.overwrite]; omega), ?_, rfl⟩
  simp [Buffer.contents, Buffer.overwrite]

theorem resize_capacity {chunk : Buffer} {n : Nat} (h : chunk.actualSize ≤ chunk.capacity) :
    n ≤ (if chunk.capacity < n then chunk.resize n else chunk).capacity := by
  by_cases hlt : chunk.capacity < n
  · rw [if_pos hlt, Buffer.resize, if_neg (by omega)]
  · rw [if_neg hlt]
    omega

def afterRead (p : PreCompressingFileProcessor) (source : InStream) :
    PreCompressingFileProcessor :=
  { p with toFileProcessingStrategy := p.toFileProcessingStrategy.afterRead source }

theorem getNextChunk_eq {p : PreCompressingFileProcessor} {image : ByteString}
    {fileSize c k : Nat} (h : AtOffset p image fileSize c k) (disk : Disk Path) {chunk : Buffer}
    (hchunk : chunk.actualSize ≤ chunk.capacity) (hk : k < image.length) :
    ∃ chunk', chunk'.contents = (image.drop k).take c ∧
      p.getNextChunk disk chunk =
        if (afterRead p (p.source.read c).2).hasNextChunk then
          (.ok p.compressor, chunk', afterRead p (p.source.read c).2, disk)
        else (.ok p.compressor, chunk',
          { afterRead p (p.source.read c).2 with source := (p.source.read c).2.close },
          removed p disk) := by
  have hread : (p.source.read c).1 = (image.drop k).take c := by
    simp [InStream.read, h.eof, h.fail, h.content, h.position]
  have hcount : (p.source.read c).2.count = ((image.drop k).take c).length := by
    simp [InStream.read, h.eof, h.fail, h.content, h.position]
  have hnext : p.hasNextChunk = true := by
    simp only [PreCompressingFileProcessor.hasNextChunk, h.eof, h.fail, h.read, h.compressedSize,
      Bool.not_false, Bool.true_and, decide_eq_true_eq]
    exact hk
  obtain ⟨b, hb, hcontents, -⟩ := setSize_contents ((image.drop k).take c)
    (Nat.le_trans (List.length_take_le ..) (resize_capacity (n := c) hchunk))
  refine ⟨b, hcontents, ?_⟩
  simp only [PreCompressingFileProcessor.getNextChunk, h.isOpen, hnext, h.chunkBytes, hread, hcount,
    Bool.true_eq_false, if_false, hb]
  rfl

theorem getNextChunk_piece {p : PreCompressingFileProcessor} {image : ByteString}
    {fileSize c k : Nat} (h : AtOffset p image fileSize c k) (disk : Disk Path) {chunk : Buffer}
    (hchunk : chunk.actualSize ≤ chunk.capacity) (hmore : k + c < image.length) :
    ∃ chunk' p', p.getNextChunk disk chunk = (.ok p.compressor, chunk', p', disk) ∧
      chunk'.contents = (image.drop k).take c ∧ AtOffset p' image fileSize c (k + c) ∧
      p'.compressor = p.compressor ∧
      p'.currentCompressedFileName = p.currentCompressedFileName := by
  have hlen : ((image.drop k).take c).length = c := by
    rw [List.length_take, List.length_drop]
    omega
  obtain ⟨b, hcontents, hgo⟩ := getNextChunk_eq h disk hchunk (by omega)
  have hsource : (p.source.read c).2 =
      { p.source with position := k + c, eof := false, fail := false, count := c } := by
    simp [InStream.read, h.eof, h.fail, h.content, h.position, hlen]
  have hat : AtOffset (afterRead p (p.source.read c).2) image fileSize c (k + c) := by
    rw [hsource]
    exact ⟨h.isOpen, h.content, rfl, rfl, rfl, congrArg (· + c) h.read, h.fileSize,
      h.compressedSize, h.chunkBytes⟩
  have hnext : (afterRead p (p.source.read c).2).hasNextChunk = true := by
    simp only [PreCompressingFileProcessor.hasNextChunk, hat.eof, hat.fail, hat.read,
      hat.compressedSize, Bool.not_false, Bool.true_and, decide_eq_true_eq]
    exact hmore
  exact ⟨b, _, by rw [hgo, if_pos hnext], hcontents, hat, rfl, rfl⟩

theorem getNextChunk_last {p : PreCompressingFileProcessor} {image : ByteString}
    {fileSize c k : Nat} (h : AtOffset p image fileSize c k) (disk : Disk Path) {chunk : Buffer}
    (hchunk : chunk.actualSize ≤ chunk.capacity) (hk : k < image.length)
    (hlast : image.length ≤ k + c) :
    ∃ chunk' p', p.getNextChunk disk chunk = (.ok p.compressor, chunk', p', removed p disk) ∧
      chunk'.contents = image.drop k ∧
      AtEnd p' image fileSize (decide (image.length < k + c)) := by
  have hlen : (image.drop k).length = image.length - k := List.length_drop
  have htake : (image.drop k).take c = image.drop k := List.take_of_length_le (by omega)
  obtain ⟨b, hcontents, hgo⟩ := getNextChunk_eq h disk hchunk hk
  rw [htake] at hcontents
  have hshort : decide ((image.drop k).length < c) = decide (image.length < k + c) := by
    rw [decide_eq_decide]
    omega
  have hsource : (p.source.read c).2 =
      { p.source with
        position := k + (image.drop k).length, eof := decide (image.length < k + c),
        fail := decide (image.length < k + c), count := (image.drop k).length } := by
    simp only [InStream.read, h.eof, h.fail, h.content, h.position, htake, hshort,
      Bool.false_eq_true, or_self, if_false]
  have hread : (afterRead p (p.source.read c).2).currentFileReadBytes = image.length := by
    change p.currentFileReadBytes + (p.source.read c).2.count = _
    rw [hsource, h.read]
    simp only
    omega
  have hnext : (afterRead p (p.source.read c).2).hasNextChunk = false := by
    simp only [PreCompressingFileProcessor.hasNextChunk, hread, Bool.and_eq_false_iff,
      decide_eq_false_iff_not]
    exact .inr (by change ¬ image.length < p.compressedFileSize; rw [h.compressedSize]; omega)
  refine ⟨b, _, by rw [hgo, if_neg (by rw [hnext]; exact Bool.false_ne_true)], hcontents, ?_⟩
  rw [hsource] at hread ⊢
  simp only [InStream.close, h.isOpen, if_true]
  exact ⟨rfl, rfl, hread, h.fileSize, rfl⟩

/-- The loop is about to ask for the chunk at offset `k`. -/
structure Sending (s : ServingFile) (p : PreCompressingFileProcessor) (image : ByteString)
    (fileSize c k : Nat) : Prop where
  processor : s.processor = .preCompressing p
  atOffset : AtOffset p image fileSize c k
  unbroken : s.broken = false
  header : s.chunkHeaderBuffer = .empty
  chunk : s.chunk.actualSize ≤ s.chunk.capacity

structure SentLast (s : ServingFile) (p : PreCompressingFileProcessor) (image : ByteString)
    (fileSize : Nat) (short : Bool) : Prop where
  processor : s.processor = .preCompressing p
  atEnd : AtEnd p image fileSize short
  unbroken : s.broken = false

section

variable (host : Host) {s : ServingFile} {p : PreCompressingFileProcessor} {image : ByteString}
  {fileSize c k : Nat}

theorem Sending.hasNextChunk (h : Sending s p image fileSize c k) :
    s.processor.hasNextChunk = decide (k < fileSize) := by
  rw [h.processor, h.atOffset.hasNextChunk]

theorem serveChunk_piece (h : Sending s p image fileSize c k) (hmore : k + c < image.length) :
    ∃ t p', serveChunk host s = .ok t ∧ Sending t p' image fileSize c (k + c) ∧
      p'.compressor = p.compressor ∧
      p'.currentCompressedFileName = p.currentCompressedFileName ∧ t.disk = s.disk ∧
      t.nChunks = s.nChunks + 1 ∧
      t.transmissionQueue.meanings = s.transmissionQueue.meanings ++
        [.header ⟨some p.compressor, some (BitVec.ofNat 64 s.nChunks),
          if k + c < fileSize then none else some true⟩, .chunk ((image.drop k).take c)] := by
  obtain ⟨chunk, p', hget, hcontents, hat, hcomp, hname⟩ :=
    getNextChunk_piece h.atOffset s.disk h.chunk hmore
  have hgot : s.processor.getNextChunk host s.disk s.chunk =
      (.ok p.compressor, chunk, .preCompressing p', s.disk) := by
    rw [h.processor]
    simp only [Processor.getNextChunk, hget]
  obtain ⟨t, hgo, hproc, hdisk, hchunk, -, hheader, hn, hbroken, hmeanings, -⟩ :=
    serveChunk_ok host hgot h.header
  refine ⟨t, p', hgo, ⟨hproc, hat, hbroken.trans h.unbroken, hheader, ?_⟩, hcomp, hname, hdisk, hn,
    ?_⟩
  · rw [hchunk]
    exact Nat.le_refl _
  · rw [hmeanings, hcontents, hat.hasNextChunk]
    simp only [decide_eq_true_eq]

theorem serveChunk_last (h : Sending s p image fileSize c k) (hk : k < image.length)
    (hlast : image.length ≤ k + c) :
    ∃ t p', serveChunk host s = .ok t ∧
      SentLast t p' image fileSize (decide (image.length < k + c)) ∧ t.disk = removed p s.disk ∧
      t.transmissionQueue.meanings = s.transmissionQueue.meanings ++
        [.header ⟨some p.compressor, some (BitVec.ofNat 64 s.nChunks),
          if image.length = k + c ∧ image.length < fileSize then none else some true⟩,
          .chunk (image.drop k)] := by
  obtain ⟨chunk, p', hget, hcontents, hend⟩ := getNextChunk_last h.atOffset s.disk h.chunk hk hlast
  have hgot : s.processor.getNextChunk host s.disk s.chunk =
      (.ok p.compressor, chunk, .preCompressing p', removed p s.disk) := by
    rw [h.processor]
    simp only [Processor.getNextChunk, hget]
  obtain ⟨t, hgo, hproc, hdisk, -, -, -, -, hbroken, hmeanings, -⟩ :=
    serveChunk_ok host hgot h.header
  refine ⟨t, p', hgo, ⟨hproc, hend, hbroken.trans h.unbroken⟩, hdisk, ?_⟩
  have hiff : (!decide (image.length < k + c) && decide (image.length < fileSize)) = true ↔
      image.length = k + c ∧ image.length < fileSize := by
    simp only [Bool.and_eq_true, Bool.not_eq_true', decide_eq_false_iff_not, decide_eq_true_eq]
    omega
  rw [hmeanings, hcontents, hend.hasNextChunk]
  simp only [hiff]

theorem removed_congr {p p' : PreCompressingFileProcessor} {disk disk' : Disk Path}
    (hcomp : p'.compressor = p.compressor)
    (hname : p'.currentCompressedFileName = p.currentCompressedFileName) (hdisk : disk' = disk) :
    removed p' disk' = removed p disk := by
  rw [removed, removed, hcomp, hname, hdisk]

theorem div_step {m : Nat} (hc : 0 < c) (h : k + c ≤ m) :
    k + c + (m - (k + c)) / c * c = k + (m - k) / c * c := by
  rw [Nat.div_eq_sub_div hc (a := m - k) (by omega), Nat.sub_sub, Nat.succ_mul]
  omega

/-- When both tests agree the whole image is sent, in full chunks but for the last. -/
theorem serveChunks_image (hc : 0 < c) (h : Sending s p image fileSize c k)
    (hk : k < image.length) (hbase : k + (image.length - 1 - k) / c * c < fileSize)
    (hend : c ∣ image.length - k → fileSize ≤ image.length) :
    ∃ t, Yields (fun fuel => serveChunks host fuel s) (.ok t) ∧ t.broken = false ∧
      t.processor.base.source.isOpen = false ∧ t.disk = removed p s.disk ∧
      t.transmissionQueue.meanings = s.transmissionQueue.meanings ++ chunkMessages s.nChunks
        ((pieces c (image.drop k)).map fun piece => (p.compressor, piece)) := by
  induction hn : image.length - k using Nat.strongRecOn generalizing s p k with
  | ind n ih =>
    have hlow : k < fileSize := by
      have := Nat.zero_le ((image.length - 1 - k) / c * c)
      omega
    have hnext : s.processor.hasNextChunk = true := by
      rw [h.hasNextChunk, decide_eq_true hlow]
    have hdrop : image.drop k ≠ [] := by
      rw [ne_eq, List.drop_eq_nil_iff]
      omega
    by_cases hmore : k + c < image.length
    · obtain ⟨t, p', hgo, hsending, hcomp, hname, hdisk, hcount, hmeanings⟩ :=
        serveChunk_piece host h hmore
      have hstep := div_step (m := image.length - 1) hc (show k + c ≤ image.length - 1 by omega)
      obtain ⟨u, hyields, hbroken, hclosed, hremoved, hsent⟩ := ih (image.length - (k + c)) (by omega)
        hsending hmore (by rw [hstep]; exact hbase) (fun hdvd => hend (by
          rw [show image.length - k = c + (image.length - (k + c)) by omega]
          exact (Nat.dvd_add_right (dvd_refl c)).mpr hdvd)) rfl
      have hnotLast : k + c < fileSize := by
        have := Nat.zero_le ((image.length - 1 - (k + c)) / c * c)
        omega
      refine ⟨u, serveChunks_next h.unbroken hnext hgo hyields, hbroken, hclosed,
        hremoved.trans (removed_congr hcomp hname hdisk), ?_⟩
      have hrest : (pieces c ((image.drop k).drop c)).map (fun piece => (p.compressor, piece)) ≠
          [] := by
        rw [pieces_of_ne hc (by rw [List.drop_drop, ne_eq, List.drop_eq_nil_iff]; omega)]
        simp
      rw [hsent, hmeanings, hcount, hcomp, pieces_of_ne hc hdrop, List.map_cons, chunkMessages,
        if_neg hrest, if_pos hnotLast, List.drop_drop, List.append_assoc]
      rfl
    · obtain ⟨t, p', hgo, hsent, hdisk, hmeanings⟩ :=
        serveChunk_last host h hk (by omega)
      have hlast : ¬ (image.length = k + c ∧ image.length < fileSize) := by
        rintro ⟨heq, hlt⟩
        have := hend (by rw [heq, Nat.add_sub_cancel_left])
        omega
      have hstop : t.processor.hasNextChunk = false := by
        rw [hsent.processor, hsent.atEnd.hasNextChunk]
        simp only [Bool.and_eq_false_iff, Bool.not_eq_false', decide_eq_true_eq,
          decide_eq_false_iff_not]
        omega
      refine ⟨t, serveChunks_next h.unbroken hnext hgo (serveChunks_stop (.inr hstop)),
        hsent.unbroken, ?_, hdisk, ?_⟩
      · rw [hsent.processor]
        exact hsent.atEnd.closed
      · rw [hmeanings, if_neg hlast, pieces_of_le hc hdrop (by rw [List.length_drop]; omega)]
        rfl

/-- When the base class stops first, the file stays open. -/
theorem serveChunks_early (hc : 0 < c) (h : Sending s p image fileSize c k)
    (hk : k < image.length) (hbase : fileSize ≤ k + (image.length - 1 - k) / c * c) :
    ∃ t, Yields (fun fuel => serveChunks host fuel s) (.ok t) ∧
      t.processor.base.source.isOpen = true ∧ t.disk = s.disk := by
  induction hn : image.length - k using Nat.strongRecOn generalizing s p k with
  | ind n ih =>
    by_cases hlow : k < fileSize
    · have hnext : s.processor.hasNextChunk = true := by
        rw [h.hasNextChunk, decide_eq_true hlow]
      have hmore : k + c < image.length := by
        by_contra hge
        rw [Nat.div_eq_of_lt (by omega)] at hbase
        omega
      obtain ⟨t, p', hgo, hsending, -, -, hdisk, -⟩ := serveChunk_piece host h hmore
      have hstep := div_step (m := image.length - 1) hc (show k + c ≤ image.length - 1 by omega)
      obtain ⟨u, hyields, hopen, hkept⟩ := ih (image.length - (k + c)) (by omega) hsending hmore
        (by rw [hstep]; exact hbase) rfl
      exact ⟨u, serveChunks_next h.unbroken hnext hgo hyields, hopen, hkept.trans hdisk⟩
    · have hnext : s.processor.hasNextChunk = false := by
        rw [h.hasNextChunk, decide_eq_false hlow]
      exact ⟨s, serveChunks_stop (.inr hnext), by rw [h.processor]; exact h.atOffset.isOpen, rfl⟩

theorem getNextChunk_closed {short : Bool} (h : AtEnd p image fileSize short) (disk : Disk Path)
    (chunk : Buffer) : ∃ message,
      p.getNextChunk disk chunk = (.error (.ioError message), chunk, p, disk) :=
  ⟨_, by rw [PreCompressingFileProcessor.getNextChunk, if_pos h.closed]; rfl⟩

/-- When the derived class stops first, the base class asks for a chunk of the closed file. -/
theorem serveChunks_broken (hc : 0 < c) (h : Sending s p image fileSize c k)
    (hk : k < image.length) (hdvd : c ∣ image.length - k) (hlong : image.length < fileSize) :
    ∃ t, Yields (fun fuel => serveChunks host fuel s) (.ok t) ∧ t.broken = true ∧
      t.disk = removed p s.disk := by
  induction hn : image.length - k using Nat.strongRecOn generalizing s p k with
  | ind n ih =>
    have hnext : s.processor.hasNextChunk = true := by
      rw [h.hasNextChunk, decide_eq_true (by omega)]
    by_cases hmore : k + c < image.length
    · obtain ⟨t, p', hgo, hsending, hcomp, hname, hdisk, -⟩ :=
        serveChunk_piece host h hmore
      obtain ⟨u, hyields, hbroken, hremoved⟩ := ih (image.length - (k + c)) (by omega)
        hsending hmore (by
          rw [show image.length - k = c + (image.length - (k + c)) by omega] at hdvd
          exact (Nat.dvd_add_right (dvd_refl c)).mp hdvd) rfl
      exact ⟨u, serveChunks_next h.unbroken hnext hgo hyields, hbroken,
        hremoved.trans (removed_congr hcomp hname hdisk)⟩
    · have hlast : image.length = k + c := by
        have := Nat.le_of_dvd (by omega) hdvd
        omega
      obtain ⟨t, p', hgo, hsent, hdisk, -⟩ := serveChunk_last host h hk (by omega)
      have hagain : t.processor.hasNextChunk = true := by
        rw [hsent.processor, hsent.atEnd.hasNextChunk, hlast]
        simp only [Nat.lt_irrefl, decide_false, Bool.not_false, Bool.true_and, decide_eq_true_eq]
        omega
      obtain ⟨message, hget⟩ := getNextChunk_closed hsent.atEnd t.disk t.chunk
      have hgot : t.processor.getNextChunk host t.disk t.chunk =
          (.error (.ioError message), t.chunk, .preCompressing p', t.disk) := by
        rw [hsent.processor]
        simp only [Processor.getNextChunk, hget]
      have hthrow := serveChunk_ioError host hgot
      exact ⟨_, serveChunks_next h.unbroken hnext hgo (serveChunks_next hsent.unbroken hagain
        hthrow (serveChunks_stop (.inl rfl))), rfl, hdisk⟩

end

theorem atOffset_of_openNextFile {scripts : Scripts} {disk disk' : Disk Path}
    {p p' : PreCompressingFileProcessor} {fileSize : Nat}
    (h : p.openNextFile scripts disk = (.ok fileSize, p', disk')) (hnext : p.hasNextFile = true) :
    AtOffset p' p'.source.content fileSize p.chunkSizeBytes 0 ∧ p'.compressor = p.compressor ∧
      disk' p'.currentCompressedFileName = some p'.source.content := by
  obtain ⟨hclosed, -, hbytes⟩ := p.takeNextFile_kept disk
  simp only [PreCompressingFileProcessor.openNextFile, hnext, if_true] at h
  generalize p.takeNextFile disk = r at h hclosed hbytes
  obtain ⟨_ | _, s⟩ := r
  · simp at h
  · simp only at h
    split at h
    · simp at h
    · rename_i disk₁ _
      cases himage : disk₁ (s.currentFileName ++ p.compressor.fileExtenssion) with
      | none => simp [himage, InStream.openFile] at h
      | some image =>
        rw [himage, InStream.openFile_some hclosed] at h
        simp only [Bool.false_eq_true, if_false] at h
        split at h
        · simp at h
        · rename_i content _
          simp only [Prod.mk.injEq, Except.ok.injEq] at h
          obtain ⟨rfl, rfl, rfl⟩ := h
          exact ⟨⟨rfl, rfl, rfl, rfl, rfl, rfl, rfl, rfl, hbytes⟩, rfl, himage⟩

/-- 1 MiB, the chunk size `PreCompressingFileProcessor` is constructed with. -/
def imageChunkBytes : Nat := 1024 * 1024

/-- From `s` to `t` the loop has sent the image of `p`'s current file in order, with the last header
marked and no other, without a throw, and the compressed file is closed and removed. -/
structure ImageSent (s t : ServingFile) (p : PreCompressingFileProcessor) (image : ByteString) :
    Prop where
  sent : ∃ chunks : List ByteString, chunks.flatten = image ∧
    chunks.length = (image.length + imageChunkBytes - 1) / imageChunkBytes ∧
    t.transmissionQueue.meanings = s.transmissionQueue.meanings ++
      chunkMessages 0 (chunks.map fun chunk => (p.compressor, chunk))
  unbroken : t.broken = false
  closed : t.processor.base.source.isOpen = false
  removed : t.disk p.currentCompressedFileName = none

theorem Serving.Ready.sending {s : Serving} {p : PreCompressingFileProcessor}
    {image : ByteString} {fileSize c : Nat} (h : s.Ready)
    (hprocessor : s.processor = .preCompressing p) (hat : AtOffset p image fileSize c 0) :
    Sending ⟨s, 0, false⟩ p image fileSize c 0 :=
  ⟨hprocessor, hat, rfl, h.header, h.chunk⟩

theorem not_imageSent_of_early {host : Host} {s : ServingFile} {p : PreCompressingFileProcessor}
    {image : ByteString} {fileSize : Nat} (h : Sending s p image fileSize imageChunkBytes 0)
    (hM : 1 ≤ image.length)
    (hbase : fileSize ≤ (image.length - 1) / imageChunkBytes * imageChunkBytes) :
    ¬ ∃ t, Yields (fun fuel => serveChunks host fuel s) (.ok t) ∧ ImageSent s t p image := by
  rintro ⟨t, hyields, hsent⟩
  obtain ⟨u, hu, hopen, -⟩ := serveChunks_early host (by decide) h (by omega)
    (by rw [Nat.sub_zero, Nat.zero_add]; exact hbase)
  have heq := hyields.unique hu
  rw [Except.ok.injEq] at heq
  rw [← heq, hsent.closed] at hopen
  contradiction

/-- For a file of `N` bytes and an image of `M`, the image is sent as it should be exactly when the
full chunks before the last one come to less than `N`, and `M` is no multiple of the chunk size
below `N`. -/
theorem imageSent_iff (host : Host) {s : Serving} {p p' : PreCompressingFileProcessor}
    {disk : Disk Path} {fileSize : Nat} (hready : s.Ready)
    (hprocessor : s.processor = .preCompressing p') (hchunk : p.chunkSizeBytes = imageChunkBytes)
    (hcompressor : p.compressor ≠ .COPY) (hnext : p.hasNextFile = true)
    (hopen : p.openNextFile host.scripts disk = (.ok fileSize, p', s.disk))
    (hM : 1 ≤ p'.source.content.length) :
    (∃ t, Yields (fun fuel => serveChunks host fuel ⟨s, 0, false⟩) (.ok t) ∧
      ImageSent ⟨s, 0, false⟩ t p' p'.source.content) ↔
    (p'.source.content.length - 1) / imageChunkBytes * imageChunkBytes < fileSize ∧
      (imageChunkBytes ∣ p'.source.content.length → fileSize ≤ p'.source.content.length) := by
  obtain ⟨hat, hcomp, -⟩ := atOffset_of_openNextFile hopen hnext
  rw [hchunk] at hat
  have hsending := hready.sending hprocessor hat
  constructor
  · intro hsent
    refine ⟨?_, fun hdvd => ?_⟩
    · by_contra hge
      exact not_imageSent_of_early hsending hM (Nat.not_lt.mp hge) hsent
    · by_contra hlong
      obtain ⟨t, hyields, hsent⟩ := hsent
      obtain ⟨u, hu, hbroken, -⟩ := serveChunks_broken host (by decide) hsending (by omega)
        hdvd (by omega)
      have heq := hyields.unique hu
      rw [Except.ok.injEq] at heq
      rw [← heq, hsent.unbroken] at hbroken
      contradiction
  · rintro ⟨hbase, hend⟩
    obtain ⟨t, hyields, hbroken, hclosed, hdisk, hmeanings⟩ := serveChunks_image host
      (by decide) hsending (by omega) (by rw [Nat.sub_zero, Nat.zero_add]; exact hbase) hend
    refine ⟨t, hyields, ⟨pieces imageChunkBytes p'.source.content,
      flatten_pieces (by decide) _, pieces_length (by decide) _, hmeanings⟩, hbroken, hclosed, ?_⟩
    rw [hdisk, removed, if_pos (by rw [hcomp]; exact hcompressor), Function.update_self]

/-- What the scripts make of data that does not compress: the data in a frame of 18 bytes. -/
def storedScripts : Scripts where
  image _ _ bytes := [0x1f, 0x8b, 8, 0, 0, 0, 0, 0, 0, 3] ++ bytes ++ List.replicate 8 0
  restore _ bytes := (bytes.drop 10).take (bytes.length - 18)
  shell _ _ disk := disk

def sampleHost : Host where
  codecs := storingCodecs
  scripts := storedScripts
  protobuf := protocolBuffers
  root path := if path = ascii "a" then .ok .file else .error DirectoryExplorer.ENOENT
  decisions _ := .sendUncompressed
  training _ := .ok .copy

def sampleDisk (content : ByteString) : Disk Path :=
  Function.update (fun _ => none) (ascii "a") (some content)

def sampleProcessor : PreCompressingFileProcessor :=
  { PreCompressingFileProcessor.new with
    compressor := .ZLIB
    compressionLevel := 6
    directoryExplorer := some ⟨ascii "a", ascii "a", .nil, [], ascii "a", true, true⟩ }

def sampleServing (content : ByteString) : Serving :=
  let opened := sampleProcessor.openNextFile storedScripts (sampleDisk content)
  ⟨.preCompressing opened.2.1, opened.2.2, .empty, .empty, .empty, .empty⟩

theorem sample_open (content : ByteString) :
    sampleProcessor.openNextFile storedScripts (sampleDisk content) =
      (.ok content.length, (sampleProcessor.openNextFile storedScripts (sampleDisk content)).2) :=
  rfl

theorem sampleServing_ready (content : ByteString) : (sampleServing content).Ready :=
  ⟨rfl, rfl, Nat.le_refl _, Nat.zero_le _⟩

theorem sample_image (content : ByteString) :
    (sampleProcessor.openNextFile storedScripts (sampleDisk content)).2.1.source.content =
      storedScripts.image .ZLIB 6 content :=
  rfl

theorem stored_length (content : ByteString) :
    (storedScripts.image .ZLIB 6 content).length = content.length + 18 := by
  simp [storedScripts]

theorem imageSent_short :
    ∃ t, Yields (fun fuel => serveChunks sampleHost fuel ⟨sampleServing [104, 105], 0, false⟩)
        (.ok t) ∧
      ImageSent ⟨sampleServing [104, 105], 0, false⟩ t
        (sampleProcessor.openNextFile storedScripts (sampleDisk [104, 105])).2.1
        (sampleProcessor.openNextFile storedScripts
          (sampleDisk [104, 105])).2.1.source.content :=
  (imageSent_iff sampleHost (sampleServing_ready _) rfl rfl (by decide) rfl (sample_open _)
    (by rw [sample_image, stored_length]; decide)).mpr
    (by rw [sample_image, stored_length]; decide)

def noise (n : Nat) : ByteString :=
  (List.range n).map fun i => BitVec.ofNat 8 ((2654435761 * i) >>> 11)

theorem not_imageSent_of_length {content : ByteString} (hlen : content.length = imageChunkBytes) :
    ¬ ∃ t, Yields (fun fuel => serveChunks sampleHost fuel ⟨sampleServing content, 0, false⟩)
        (.ok t) ∧
      ImageSent ⟨sampleServing content, 0, false⟩ t
        (sampleProcessor.openNextFile storedScripts (sampleDisk content)).2.1
        (sampleProcessor.openNextFile storedScripts (sampleDisk content)).2.1.source.content := by
  have hat := (atOffset_of_openNextFile (sample_open content) rfl).1
  have hsending := (sampleServing_ready content).sending rfl hat
  have himage := congrArg List.length (sample_image content)
  rw [stored_length, hlen] at himage
  refine not_imageSent_of_early hsending ?_ ?_
  · omega
  · rw [himage, hlen]
    decide

/-- One chunk of data that does not compress: the image is longer, and its end is not sent. -/
theorem image_cut :
    ¬ ∃ t, Yields (fun fuel => serveChunks sampleHost fuel
        ⟨sampleServing (noise (1024 * 1024)), 0, false⟩) (.ok t) ∧
      ImageSent ⟨sampleServing (noise (1024 * 1024)), 0, false⟩ t
        (sampleProcessor.openNextFile storedScripts (sampleDisk (noise (1024 * 1024)))).2.1
        (sampleProcessor.openNextFile storedScripts
          (sampleDisk (noise (1024 * 1024)))).2.1.source.content :=
  not_imageSent_of_length (by rw [noise, List.length_map, List.length_range, imageChunkBytes])

end Autocomp.Server

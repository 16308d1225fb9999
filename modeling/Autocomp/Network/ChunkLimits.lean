import Autocomp.Network.FileLoop

namespace Autocomp.Server

open FileStream Loop FileProcessor

def maxChunkBytes : Nat := 11 * 524288 / 10

theorem strategy_fits {codecs : Codecs} {n : Nat} (hfits : codecs.Fits n) {c : Compressor}
    {level : Int} (hcopy : c ≠ .COPY) (hlow : 400 ≤ n) (hhigh : n ≤ 524288)
    {inData outData compressed : Buffer} (hpassed : Passed n inData outData)
    (h : (codecs.strategy c level).compress inData outData = (.ok (), compressed)) :
    compressed.contents.length ≤ maxChunkBytes := by
  have hle : 11 * n / 10 ≤ maxChunkBytes := Nat.div_le_div_right (Nat.mul_le_mul_left 11 hhigh)
  by_cases hfpc : c = .FPC
  · subst hfpc
    obtain ⟨ws, junk, hwords, hjunk⟩ := FPCCompressor.exists_words inData.contents
    obtain ⟨result, hgo, hbytes⟩ := FPCCompressor.compress_chunk level.toNat codecs.inWords
      codecs.outBytes outData hwords (by omega) hlow hhigh hpassed.size_le hpassed.wellFormed
      hpassed.capacity
    have hresult : result = compressed :=
      congrArg Prod.snd (hgo.symm.trans h)
    rw [← hresult, hbytes.length]
    refine Nat.le_trans (FPCCompressor.compressedSize_le level.toNat hlow hhigh ?_) hle
    have hin := hpassed.size_le
    rw [hwords, List.length_append, FPCCompressor.listBytes_length] at hin
    omega
  · rw [codecs.strategy_library hfpc] at h
    exact Nat.le_trans (hfits c level inData outData compressed hfpc hcopy hpassed h)
      (hpassed.capacity ▸ hle)

theorem compress_ok {codecs : Codecs} {inData outData compressed : Buffer}
    {s s' : AutomaticCompressionStrategy} {c : Compressor}
    (h : s.compress codecs inData outData = (.ok c, compressed, s')) (hcopy : c ≠ .COPY) :
    ∃ level, (codecs.strategy c level).compress inData outData = (.ok (), compressed) := by
  unfold AutomaticCompressionStrategy.compress at h
  rcases s.next with ⟨⟨c', level⟩, s''⟩
  simp only at h
  split at h
  · rw [Prod.mk.injEq, Except.ok.injEq] at h
    exact absurd h.1.symm hcopy
  · split at h
    · rename_i out hgo
      rw [Prod.mk.injEq, Prod.mk.injEq, Except.ok.injEq] at h
      obtain ⟨rfl, rfl, -⟩ := h
      exact ⟨_, hgo⟩
    · simp at h

/-- The room a chunk's buffer may have before it is enlarged. -/
structure Small (p : FileProcessor) (chunk : Buffer) : Prop where
  size_le : chunk.actualSize ≤ chunk.capacity
  capacity_le : chunk.capacity ≤ 11 * p.chunkSizeBytes / 10

/-- What `getNextChunk` leaves, whatever its outcome. -/
structure ChunkLimits (p q : FileProcessor) (result : Except Exn Compressor) (chunk : Buffer) :
    Prop where
  same : SameFile p q
  small : (∃ message, result = .error (.ioError message)) → Small p chunk
  fpc : ∀ c, result = .ok c → (c = .FPC ↔ p.compressor.UsesFPC)
  size : ∀ c, result = .ok c → chunk.contents.length ≤ maxChunkBytes

theorem getNextChunk_limits {codecs : Codecs} {p : FileProcessor}
    {room : Compressor → Int → ByteString → Prop}
    (hassumed : codecs.Assumed p.chunkSizeBytes room) (hfits : codecs.Fits p.chunkSizeBytes)
    (hp : p.compressor.Configured p.chunkSizeBytes) {chunk : Buffer} (hchunk : Small p chunk) :
    ChunkLimits p (p.getNextChunk codecs chunk).2.2 (p.getNextChunk codecs chunk).1
      (p.getNextChunk codecs chunk).2.1 := by
  have hkept (message : ByteString) : ChunkLimits p p (.error (.ioError message)) chunk :=
    ⟨.refl hp, fun _ => hchunk, by simp, by simp⟩
  by_cases hopen : p.source.isOpen = false
  · rw [FileProcessor.getNextChunk, if_pos hopen]
    exact hkept _
  by_cases hdone : p.hasNextChunk = false
  · rw [FileProcessor.getNextChunk, if_neg hopen, if_pos hdone]
    exact hkept _
  rw [Bool.not_eq_false] at hopen hdone
  have hlen := InStream.read_length p.source p.chunkSizeBytes
  generalize hread : p.source.read p.chunkSizeBytes = r at hlen
  obtain ⟨bytes, source⟩ := r
  obtain ⟨inData, outData, hpassed, hcontents, hgo⟩ :=
    getNextChunk_eq hopen hdone hchunk.size_le hchunk.capacity_le hread
  have hafter : SameFile p ⟨p.afterRead source, p.compressor.next.2⟩ :=
    ⟨rfl, rfl, rfl, rfl, hp.next.1, hp.next.2⟩
  have hpiece : inData.contents.length ≤ maxChunkBytes := by
    rw [hcontents]
    exact Nat.le_trans hlen (Nat.le_trans hp.le.1 (by decide))
  have hcopied (hfpc : ¬ p.compressor.UsesFPC) :
      ChunkLimits p ⟨p.afterRead source, p.compressor.next.2⟩ (.ok .COPY) inData := by
    refine ⟨hafter, by simp, fun c hc => ?_, fun _ _ => hpiece⟩
    rw [← Except.ok.inj hc]
    exact iff_of_false (by simp) hfpc
  rw [hgo codecs]
  by_cases htakes : p.compressor.Takes room inData.contents
  · rcases AutomaticCompressionStrategy.compress_cases hassumed hpassed hp htakes with
      ⟨hfpc, left, hstrategy⟩ | ⟨c, compressed, hcopy, hfpc, hstrategy, -⟩ |
        ⟨hfpc, name, inputSize, outputCapacity, message, left, hstrategy⟩
    · rw [hstrategy]
      exact hcopied hfpc
    · obtain ⟨level, hlevel⟩ := compress_ok hstrategy hcopy
      have hsize := strategy_fits hfits hcopy hp.room hp.le.1 hpassed hlevel
      rw [hstrategy, delivered_ok inData _ hcopy]
      exact ⟨hafter, by simp, fun c hc => Except.ok.inj hc ▸ hfpc, fun _ _ => hsize⟩
    · rw [hstrategy]
      exact hcopied hfpc
  · obtain ⟨left, hstrategy⟩ :=
      AutomaticCompressionStrategy.compress_beyond hassumed hpassed htakes
    rw [hstrategy]
    exact ⟨hafter, by simp [delivered], by simp [delivered], by simp [delivered]⟩

theorem openNextFile_strategy (disk : Disk Path) (p : FileProcessor) :
    (p.openNextFile disk).2.compressor = p.compressor ∧
      (p.openNextFile disk).2.chunkSizeBytes = p.chunkSizeBytes := by
  obtain ⟨-, -, hbytes⟩ := p.takeNextFile_kept disk
  unfold FileProcessor.openNextFile
  split
  · generalize p.takeNextFile disk = r at hbytes
    obtain ⟨_ | _, s⟩ := r
    · exact ⟨rfl, hbytes⟩
    · simp only at hbytes ⊢
      split
      · exact ⟨rfl, hbytes⟩
      · exact ⟨rfl, hbytes⟩
  · exact ⟨rfl, rfl⟩

def Limited (fpc : Prop) : Meaning → Prop
  | .header chunkHeader => chunkHeader.compressor = some .FPC ↔ fpc
  | .chunk bytes => bytes.length ≤ maxChunkBytes
  | .initial _ | .error _ => True

/-- What holds whenever a loop tests its condition. -/
structure Serving.Limited (n : Nat) (fpc : Prop) (s : Serving) : Prop where
  processor : ∃ p, s.processor = .file p ∧ p.chunkSizeBytes = n ∧
    p.compressor.Configured p.chunkSizeBytes ∧ (p.compressor.UsesFPC ↔ fpc) ∧ Small p s.chunk
  queue : ∀ meaning ∈ s.transmissionQueue.meanings, Server.Limited fpc meaning

theorem limited_push {fpc : Prop} {queue : TransmissionQueue} {sent : Sent}
    (h : ∀ meaning ∈ queue.meanings, Limited fpc meaning) (hsent : Limited fpc sent.meaning) :
    ∀ meaning ∈ TransmissionQueue.meanings (queue.push sent), Limited fpc meaning := by
  intro meaning hmeaning
  rw [TransmissionQueue.meanings_push, List.mem_append, List.mem_singleton] at hmeaning
  rcases hmeaning with hmeaning | rfl
  · exact h meaning hmeaning
  · exact hsent

variable {host : Host} {n : Nat} {fpc : Prop}

theorem Serving.Limited.opened {s : Serving} (h : s.Limited n fpc) {p : FileProcessor}
    (hprocessor : s.processor = .file p) :
    ∃ q, Processor.file (p.openNextFile s.disk).2 = .file q ∧ q.chunkSizeBytes = n ∧
      q.compressor.Configured q.chunkSizeBytes ∧ (q.compressor.UsesFPC ↔ fpc) ∧ Small q s.chunk := by
  obtain ⟨p', hp', hsize, hconfigured, huses, hsmall⟩ := h.processor
  obtain rfl : p = p' := Processor.file.inj (hprocessor.symm.trans hp')
  obtain ⟨hcompressor, hbytes⟩ := openNextFile_strategy s.disk p
  refine ⟨_, rfl, hbytes.trans hsize, ?_, ?_, hsmall.size_le, ?_⟩
  · rw [hcompressor, hbytes]
    exact hconfigured
  · rw [hcompressor]
    exact huses
  · rw [hbytes]
    exact hsmall.capacity_le

section

variable {room : Compressor → Int → ByteString → Prop} (hassumed : host.codecs.Assumed n room)
  (hfits : host.codecs.Fits n)

include hassumed hfits

theorem serveChunk_limited {s t : ServingFile} (h : s.toServing.Limited n fpc)
    (hgo : serveChunk host s = .ok t) : t.toServing.Limited n fpc := by
  obtain ⟨p, hprocessor, rfl, hconfigured, huses, hsmall⟩ := h.processor
  have hlimits := getNextChunk_limits hassumed hfits hconfigured hsmall
  unfold serveChunk at hgo
  simp only [hprocessor, Processor.getNextChunk] at hgo
  generalize p.getNextChunk host.codecs s.chunk = r at hgo hlimits
  obtain ⟨result, chunk, q⟩ := r
  have hbytes := hlimits.same.chunkSizeBytes
  have hq : q.compressor.UsesFPC ↔ fpc := hlimits.same.usesFPC.trans huses
  simp only at hgo
  split at hgo
  · rename_i message chunk' processor disk heq
    simp only [Prod.mk.injEq] at heq
    obtain ⟨rfl, rfl, rfl, rfl⟩ := heq
    rw [Except.ok.injEq] at hgo
    obtain ⟨hsize, hcapacity⟩ := hlimits.small ⟨message, rfl⟩
    rw [← hgo]
    exact ⟨⟨q, rfl, hbytes, hlimits.same.configured, hq, hsize, hbytes ▸ hcapacity⟩, h.queue⟩
  · contradiction
  · rename_i c chunk' processor disk heq
    simp only [Prod.mk.injEq] at heq
    obtain ⟨rfl, rfl, rfl, rfl⟩ := heq
    rw [Except.ok.injEq] at hgo
    rw [← hgo]
    refine ⟨⟨q, rfl, hbytes, hlimits.same.configured, hq, Nat.le_refl _, Nat.zero_le _⟩, ?_⟩
    apply limited_push
    · apply limited_push h.queue
      have hfpc := (hlimits.fpc c rfl).trans huses
      simpa [Limited] using hfpc
    · exact hlimits.size c rfl

theorem serveChunks_limited {s t : ServingFile} {fuel : Nat} (h : s.toServing.Limited n fpc)
    (hgo : serveChunks host fuel s = some (.ok t)) : t.toServing.Limited n fpc :=
  whileLoop_invariant (fun s => s.toServing.Limited n fpc) hgo h fun _ _ _ hu _ hv =>
    serveChunk_limited hassumed hfits hu (Option.some.inj hv)

theorem serveFile_limited {s t : Serving} {fuel : Nat} (h : s.Limited n fpc)
    (hgo : serveFile host fuel s = some (.ok t)) : t.Limited n fpc := by
  obtain ⟨p, hprocessor, -⟩ := h.processor
  have hopened := h.opened hprocessor
  unfold serveFile at hgo
  simp only [hprocessor, Processor.openNextFile] at hgo
  generalize p.openNextFile s.disk = r at hgo hopened
  obtain ⟨result, q⟩ := r
  simp only at hgo hopened
  cases result with
  | error x =>
    have hlogged (u : Serving) (hu : u = { s with
        processor := .file q
        transmissionQueue := sendErrorMessage host.protobuf x.what s.transmissionQueue }) :
        u.Limited n fpc := by
      rw [hu]
      exact ⟨hopened, limited_push h.queue trivial⟩
    cases x with
    | ioError | compressionError =>
      rw [Option.some.injEq, Except.ok.injEq] at hgo
      exact hlogged t hgo.symm
    | _ => simp at hgo
  | ok fileSize =>
    obtain ⟨result, hchunks, hresult⟩ := Option.map_eq_some_iff.mp hgo
    cases result with
    | error x => simp [Except.map] at hresult
    | ok u =>
      simp only [Except.map, Except.ok.injEq] at hresult
      rw [← hresult]
      refine serveChunks_limited hassumed hfits ⟨hopened, limited_push h.queue ?_⟩ hchunks
      trivial

theorem serveFiles_limited {s t : Serving} {fuel : Nat} (h : s.Limited n fpc)
    (hgo : serveFiles host fuel s = some (.ok t)) : t.Limited n fpc :=
  whileLoop_invariant (Serving.Limited n fpc) hgo h fun _ _ _ hu _ hv =>
    serveFile_limited hassumed hfits hu hv

end

/-- Every chunk of a request is small, and FPC made it exactly if the request asks for that. -/
theorem processRequest_limited {p : FileProcessor} {room : Compressor → Int → ByteString → Prop}
    (hassumed : host.codecs.Assumed (p.chunkSize * 1024) room)
    (hfits : host.codecs.Fits (p.chunkSize * 1024)) {disk : Disk Path} {buffer : ByteString}
    {request : FileTransmissionRequest} {served : Served} {fuel : Nat}
    (hrequest : host.protobuf.fileTransmissionRequest.deserialize buffer = some request)
    (hconfigure : configureFileProcessor host request = .ok (.file p))
    (htrain : request.mode ≠ some .TRAIN)
    (hserved : processRequest host disk buffer fuel = some (.ok served)) :
    ∀ meaning ∈ served.transmissionQueue.meanings,
      Limited (request.mode = some .COMPRESS ∧ request.compressor = some .FPC) meaning := by
  obtain ⟨chunkSize, compressor, rfl, hconfigured, hsmall, huses⟩ :=
    configureFileProcessor_ok hconfigure htrain
  have hbytes : chunkSize * 1024 % 2 ^ 32 = chunkSize * 1024 := Nat.mod_eq_of_lt (by omega)
  unfold processRequest at hserved
  simp only [hrequest, hconfigure, Processor.preparePath, FileProcessingStrategy.preparePath]
    at hserved
  cases hexplore : DirectoryExplorer.explore disk (request.filename.getD [])
      (host.root (request.filename.getD [])) with
  | error x =>
    simp only [hexplore, Except.map] at hserved
    cases x with
    | ioError message =>
      rw [Option.some.injEq, Except.ok.injEq] at hserved
      rw [← hserved]
      intro meaning hmeaning
      rw [List.mem_singleton.mp hmeaning]
      trivial
    | _ => simp at hserved
  | ok e =>
    simp only [hexplore, Except.map, htrain, if_false] at hserved
    obtain ⟨result, hfiles, hresult⟩ := Option.map_eq_some_iff.mp hserved
    cases result with
    | error x => simp at hresult
    | ok t =>
      simp only [Except.ok.injEq] at hresult
      rw [← hresult]
      refine (serveFiles_limited hassumed hfits ⟨⟨_, rfl, hbytes, ?_, huses, Nat.zero_le _, ?_⟩, ?_⟩
        hfiles).queue
      · change compressor.Configured (chunkSize * 1024 % 2 ^ 32)
        rwa [hbytes]
      · change 11 * chunkSize * 1024 / 10 ≤ 11 * (chunkSize * 1024 % 2 ^ 32) / 10
        rw [hbytes, Nat.mul_assoc]
      · intro meaning hmeaning
        contradiction

end Autocomp.Server

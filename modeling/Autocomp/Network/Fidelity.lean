import Autocomp.Network.Decompression
import Autocomp.Network.Transfer

namespace Autocomp.Client

open FileStream Pieces
open Server (Meaning chunkMessages initialMessage)

/-- The client is writing `destination`, has written `written`, and its buffer has capacity `n`. -/
structure Writing (d : Decompressor) (destination : Path) (written : ByteString) (n : Nat) :
    Prop where
  name : d.currentFileName = destination
  out : d.out = ⟨some destination, false, written⟩
  disk : d.disk destination = some written
  capacity : d.decompressedChunk.capacity = n
  stale : d.decompressedChunk.contents.length = 0 ∨ d.decompressedChunk.contents.length = n

/-- The client has written `bytes` to `destination` and closed it. -/
structure Written (d : Decompressor) (destination : Path) (bytes : ByteString) : Prop where
  name : d.currentFileName = destination
  closed : d.out.path = none
  written : d.out.written = bytes
  disk : d.disk destination = some bytes

/-- What becomes of one encoded piece: it comes back, unless FPC dropped bytes of it, and then
something of another length is written. -/
theorem decompressChunk_encoded {session : Session} {n : Nat}
    {room : Compressor → Int → ByteString → Prop} (hassumed : session.codecs.Assumed n room)
    (hmode : session.preCompression = false) {d : Decompressor} {destination : Path}
    {written piece bytes : ByteString} {c : Compressor} (position : Nat) (last : Option Bool)
    (h : Writing d destination written n) (hencoded : Encoded session.codecs n piece c bytes)
    (hne : piece ≠ []) (hle : piece.length ≤ n) (hsmall : n ≤ 524288)
    (hfpc : c = .FPC → n = 524288) :
    ∃ b, decompressChunk session d ⟨some c, some (BitVec.ofNat 64 position), last⟩
        ⟨bytes, bytes.length, bytes.length⟩ = .ok b ∧
      (piece.length = n → b.capacity = n) ∧
      ((c = .FPC → 8 ∣ piece.length) → b.contents = piece) ∧
      (¬ (c = .FPC → 8 ∣ piece.length) → b.contents.length ≠ piece.length) := by
  have hlen := List.length_pos_iff.mpr hne
  cases hencoded with
  | copy =>
    refine ⟨.ofBytes piece, ?_, id, fun _ => Buffer.ofBytes_contents piece, fun hno => ?_⟩
    · simp [decompressChunk, Buffer.swap, Buffer.ofBytes]
    · exact absurd (fun h => by contradiction) hno
  | @library _ level inData outData compressed hnotFPC hcopy hpassed hin hgo =>
    obtain ⟨result, hresult, hcontents, hcap⟩ :=
      (hassumed c hnotFPC hcopy).decompress_compress level (defaultLevel c) inData outData
        compressed d.decompressedChunk hpassed hgo (by rw [hin, h.capacity]; exact hle)
        (by rw [h.capacity]; omega)
    rw [Buffer.ofBytes] at hresult
    refine ⟨result, ?_, fun _ => hcap.trans h.capacity, fun _ => hcontents.trans hin, fun hno => ?_⟩
    · simp [decompressChunk, hcopy, hmode, session.codecs.strategy_library hnotFPC, hresult]
    · exact absurd (fun h => absurd h hnotFPC) hno
  | @fpc level ws junk _ hlevel hpiece hjunk hbytes =>
    obtain rfl := hfpc rfl
    have hlengths : piece.length = 8 * ws.length + junk.length := by
      rw [hpiece, List.length_append, FPCCompressor.listBytes_length]
    by_cases hws : ws = []
    · -- no whole word: the error is logged and the buffer written as it is
      subst hws
      have hshort := FPCCompressor.decompress_short session.codecs.inBytes session.codecs.outWords
        d.decompressedChunk hbytes
      rw [List.length_nil] at hlengths
      refine ⟨d.decompressedChunk, ?_, fun _ => h.capacity, fun hdvd => ?_, fun _ => ?_⟩
      · simp [decompressChunk, hmode, Codecs.strategy, hshort,
          FPCCompressor.decompressionError]
      · have := Nat.le_of_dvd hlen (hdvd rfl)
        omega
      · rcases h.stale with hstale | hstale <;> omega
    · obtain ⟨result, hresult, hcontents, hcap⟩ := FPCCompressor.decompress_chunk
        session.codecs.inBytes session.codecs.outWords d.decompressedChunk hbytes hlevel hws
        (by omega) (by rw [h.capacity]; omega) (by rw [h.capacity]; omega)
      refine ⟨result, ?_, fun _ => hcap.trans h.capacity, fun hdvd => ?_, fun hno => ?_⟩
      · simp [decompressChunk, hmode, Codecs.strategy, hresult]
      · have hnil : junk = [] := by
          have := hdvd rfl
          rw [← List.length_eq_zero_iff]
          omega
        rw [hcontents, hpiece, hnil, List.append_nil]
      · rw [hcontents, FPCCompressor.listBytes_length]
        intro heq
        exact hno fun _ => ⟨ws.length, by omega⟩

theorem Writing.writeChunk {d : Decompressor} {destination : Path} {written : ByteString} {n : Nat}
    (h : Writing d destination written n) (b : Buffer) :
    (writeChunk d b).currentFileName = destination ∧
      (writeChunk d b).out = ⟨some destination, false, written ++ b.contents⟩ ∧
      (writeChunk d b).disk destination = some (written ++ b.contents) := by
  simp [Client.writeChunk, h.out, h.name, OutStream.write]

/-- The chunks of a file: all its bytes are written when FPC finds no byte too many, and otherwise
not as many as it has. -/
theorem decompressAll_chunks {session : Session} {n : Nat}
    {room : Compressor → Int → ByteString → Prop} (hassumed : session.codecs.Assumed n room)
    (hmode : session.preCompression = false) {fpc : Prop} (hn : 0 < n) (hsmall : n ≤ 524288)
    (hblock : fpc → n = 524288) {destination : Path} {rest : ByteString} (hrest : rest ≠ [])
    {chunks : List (Compressor × ByteString)}
    (hencodes : FileProcessor.Encodes session.codecs n (pieces n rest) chunks)
    (hfpc : ∀ chunk ∈ chunks, chunk.1 = .FPC ↔ fpc) {d : Decompressor} {written : ByteString}
    (h : Writing d destination written n) (position : Nat) :
    ∃ d' out, decompressAll session d (entries (chunkMessages position chunks)) = .ok d' ∧
      Written d' destination (written ++ out) ∧ ((fpc → 8 ∣ rest.length) → out = rest) ∧
      (¬ (fpc → 8 ∣ rest.length) → out.length ≠ rest.length) := by
  induction hlen : rest.length using Nat.strongRecOn generalizing rest chunks d written position with
  | ind m ih =>
    subst hlen
    have hmem : rest.take n ∈ pieces n rest := by
      rw [pieces_of_ne hn hrest]
      exact List.mem_cons_self
    rw [pieces_of_ne hn hrest] at hencodes
    obtain _ | @⟨_, ⟨c, bytes⟩, _, chunks, hencoded, hmore⟩ := hencodes
    have hc : c = .FPC ↔ fpc := hfpc (c, bytes) (by simp)
    obtain ⟨b, hb, hcap, hgood, hbad⟩ := decompressChunk_encoded hassumed hmode position
      (if chunks = [] then some true else none) h hencoded
      (mem_pieces hmem).1 (List.length_take_le ..) hsmall fun hFPC => hblock (hc.mp hFPC)
    obtain ⟨hname, hout, hdisk⟩ := h.writeChunk b
    rw [hc] at hgood hbad
    have hentry := decompressEntry_chunk hb
    by_cases hlast : rest.length ≤ n
    · have hnil : chunks = [] := by
        rw [List.drop_of_length_le hlast, pieces_nil] at hmore
        cases hmore
        rfl
      subst hnil
      rw [List.take_of_length_le hlast] at hgood hbad
      refine ⟨{ writeChunk d b with
          out := (writeChunk d b).out.close
          finished := (writeChunk d b).finished ++
            [((writeChunk d b).currentFileName, (writeChunk d b).out.written)] },
        b.contents, ?_, ?_, hgood, hbad⟩
      · refine (decompressAll_cons (hentry.trans ?_) _).trans rfl
        simp [finishFile, hmode]
      · exact ⟨hname, by simp [hout, OutStream.close], by simp [hout, OutStream.close], hdisk⟩
    · have hfull : (rest.take n).length = n := by
        rw [List.length_take]
        omega
      have hnil : rest.drop n ≠ [] := by
        rw [ne_eq, List.drop_eq_nil_iff]
        omega
      have hblocks : fpc → 8 ∣ n := fun hyes => ⟨65536, hblock hyes⟩
      rw [hfull] at hcap hgood
      have hpiece := hgood hblocks
      have hchunks : chunks ≠ [] := mt (FileProcessor.Encodes.eq_nil_iff hn hmore).mp hnil
      have hwriting : Writing (writeChunk d b) destination (written ++ rest.take n) n :=
        ⟨hname, hpiece ▸ hout, hpiece ▸ hdisk, hcap rfl, .inr (by rw [← hfull, ← hpiece]; rfl)⟩
      obtain ⟨d', out, hgo, hwritten, hall, hshort⟩ := ih (rest.drop n).length
        (by rw [List.length_drop]; omega) hnil hmore (fun x hx => hfpc x (by simp [hx])) hwriting
        (position + 1) rfl
      have hdvd (hyes : fpc) : 8 ∣ (rest.drop n).length ↔ 8 ∣ rest.length := by
        rw [List.length_drop]
        exact (Nat.dvd_sub_iff_left (by omega) (hblocks hyes))
      refine ⟨d', rest.take n ++ out, ?_, ?_, fun hyes => ?_, fun hno => ?_⟩
      · rw [if_neg hchunks] at hentry
        rw [chunkMessages, if_neg hchunks, entries, decompressAll_cons hentry]
        exact hgo
      · rwa [← List.append_assoc]
      · rw [hall fun h => (hdvd h).mpr (hyes h), List.take_append_drop]
      · have := hshort fun h => hno fun hyes => (hdvd hyes).mp (h hyes)
        rw [List.length_drop] at this
        rw [List.length_append, hfull]
        omega

theorem startFile_writing {session : Session} {d : Decompressor} (message : FileInitialMessage)
    {filename : ByteString} (hname : absoluteFilename (message.filename.getD []) = .ok filename)
    (hcreatable : session.creatable (session.destination filename) = true)
    (hclosed : d.out.path = none) :
    ∃ d', startFile session d message = .ok d' ∧ Writing d' (session.destination filename) []
      ((message.chunkSize.getD 0).toNat * 1024 % 2 ^ 32) := by
  refine ⟨_, startFile_eq message hname, rfl, ?_, ?_, ?_, .inl ?_⟩
  · simp [OutStream.openFile, hclosed, hcreatable]
  · simp [OutStream.openFile, hclosed, hcreatable]
  · simp [Buffer.resize]
  · simp [Buffer.resize, Buffer.contents]

theorem decompressAll_unopened {session : Session} {d d' : Decompressor}
    {chunks : List DecompressionQueueEntry}
    (hchunks : ∀ entry ∈ chunks, Message.isInitialized entry.fileInitialMessage = false)
    (h : decompressAll session d chunks = .ok d') (hclosed : d.out.path = none) :
    d'.out.path = none ∧ d'.out.written = d.out.written := by
  induction chunks generalizing d with
  | nil =>
    rw [decompressAll, Except.ok.injEq] at h
    subst h
    exact ⟨hclosed, rfl⟩
  | cons entry chunks ih =>
    rw [decompressAll] at h
    split at h
    · contradiction
    · rename_i next hentry
      have hkept : next.out.path = none ∧ next.out.written = d.out.written := by
        simp only [decompressEntry, hchunks entry (by simp), Bool.false_eq_true, if_false] at hentry
        split at hentry
        · contradiction
        · rename_i b hb
          have hwrite : (writeChunk d b).out = { d.out with fail := true } := by
            simp [writeChunk, OutStream.write, hclosed]
          split at hentry
          · rw [(finishFile_kept hentry).1, hwrite]
            simp [OutStream.close, hclosed]
          · rw [Except.ok.injEq] at hentry
            rw [← hentry, hwrite]
            exact ⟨hclosed, rfl⟩
      obtain ⟨hpath, hwritten⟩ := ih (fun e he => hchunks e (by simp [he])) h hkept.1
      exact ⟨hpath, hwritten.trans hkept.2⟩

theorem entries_chunkMessages (position : Nat) (chunks : List (Compressor × ByteString)) :
    ∀ entry ∈ entries (chunkMessages position chunks),
      Message.isInitialized entry.fileInitialMessage = false := by
  induction chunks generalizing position with
  | nil => simp [chunkMessages, entries]
  | cons chunk chunks ih =>
    intro entry hentry
    rcases List.mem_cons.mp hentry with rfl | hentry
    · rfl
    · exact ih (position + 1) entry hentry

/-- The client has written the file after its initial message and its chunks. -/
def WritesFile (session : Session) (d : Decompressor) (message : FileInitialMessage)
    (chunks : List (Compressor × ByteString)) (content : ByteString) : Prop :=
  ∃ d', decompressAll session d (entries (.initial message :: chunkMessages 0 chunks)) = .ok d' ∧
    Written d' d'.currentFileName content

theorem writesFile_iff {session : Session} {p q : FileProcessor}
    {room : Compressor → Int → ByteString → Prop}
    (hassumed : session.codecs.Assumed p.chunkSizeBytes room)
    (hmode : session.preCompression = false) {content : ByteString}
    (hreading : FileProcessor.Reading p content 0)
    (hbytes : p.chunkSizeBytes = p.chunkSize * 1024) (hne : content ≠ []) (last : Bool)
    {d : Decompressor} (hclosed : d.out.path = none) {chunks : List (Compressor × ByteString)}
    (hchunks : FileProcessor.Chunks session.codecs p chunks q) :
    WritesFile session d (initialMessage p.currentFileName content p.chunkSize last) chunks
        content ↔
      Receivable session p.currentFileName ∧ (p.compressor.UsesFPC → 8 ∣ content.length) := by
  obtain ⟨-, hencodes, hfpc, -⟩ := hchunks.encodes hassumed hreading
  rw [List.drop_zero] at hencodes
  have hinitial : decompressEntry session d
      ⟨initialMessage p.currentFileName content p.chunkSize last, Message.empty, .empty⟩ =
        startFile session d (initialMessage p.currentFileName content p.chunkSize last) :=
    decompressEntry_initial rfl
  unfold WritesFile
  rw [entries, decompressAll, hinitial]
  cases hname : absoluteFilename p.currentFileName with
  | error x =>
    have hfail : startFile session d (initialMessage p.currentFileName content p.chunkSize last) =
        .error x := by
      simp [startFile, initialMessage, hname]
    rw [hfail]
    simp [Receivable, hname]
  | ok filename =>
    cases hcreatable : session.creatable (session.destination filename) with
    | false =>
      refine iff_of_false ?_ ?_
      · rintro ⟨d', hgo, hwritten⟩
        rw [startFile_eq (initialMessage p.currentFileName content p.chunkSize last)
          hname] at hgo
        obtain ⟨-, hkept⟩ := decompressAll_unopened (entries_chunkMessages 0 chunks) hgo
          (by simp [OutStream.openFile, hcreatable, hclosed])
        rw [hwritten.written] at hkept
        exact hne (by simpa [OutStream.openFile, hcreatable] using hkept)
      · rintro ⟨⟨filename', hname', hcreatable'⟩, -⟩
        rw [hname, Except.ok.injEq] at hname'
        subst hname'
        simp [hcreatable] at hcreatable'
    | true =>
      obtain ⟨d₁, hstart, hwriting⟩ := startFile_writing
        (initialMessage p.currentFileName content p.chunkSize last) hname hcreatable hclosed
      have hle := hreading.configured.le
      have hsize : ((initialMessage p.currentFileName content p.chunkSize last).chunkSize.getD
          0).toNat * 1024 % 2 ^ 32 = p.chunkSizeBytes := by
        simp only [initialMessage, Option.getD_some, BitVec.toNat_ofNat]
        omega
      rw [hsize] at hwriting
      obtain ⟨d', out, hgo, hwritten, hall, hshort⟩ := decompressAll_chunks hassumed hmode
        hreading.configured.pos hle.1 hle.2 hne hencodes hfpc hwriting 0
      rw [List.nil_append] at hwritten
      rw [hstart]
      simp only [hgo, Except.ok.injEq, exists_eq_left']
      constructor
      · intro hw
        refine ⟨⟨filename, hname, hcreatable⟩, ?_⟩
        by_contra hno
        exact hshort hno (by rw [← hwritten.written, hw.written])
      · rintro ⟨-, hfpc⟩
        rw [hwritten.name, ← hall hfpc]
        exact hwritten

/-- Successive calls of `getNextChunk` give a file if the strategy has room for its pieces. What they
give is written back exactly when its name is received and FPC, if it is used, finds whole words
only. -/
theorem restores_iff (session : Session) {p p' : FileProcessor}
    {room : Compressor → Int → ByteString → Prop}
    (hassumed : session.codecs.Assumed p.chunkSizeBytes room)
    (hmode : session.preCompression = false) {disk : Disk Path} {fileSize : Nat}
    (hopen : p.openNextFile disk = (.ok fileSize, p'))
    (hnext : p.hasNextFile = true) (hconfigured : p.compressor.Configured p.chunkSizeBytes)
    (hbytes : p.chunkSizeBytes = p.chunkSize * 1024) (hlen : 1 ≤ p'.source.content.length)
    (last : Bool) {d : Decompressor} (hclosed : d.out.path = none) :
    ((∃ chunks q, FileProcessor.Chunks session.codecs p' chunks q) ↔
      p.compressor.TakesAll room (pieces p.chunkSizeBytes p'.source.content)) ∧
      ∀ chunks q, FileProcessor.Chunks session.codecs p' chunks q →
        (WritesFile session d
          (initialMessage p'.currentFileName p'.source.content p'.chunkSize last) chunks
          p'.source.content ↔
        Receivable session p'.currentFileName ∧
          (p.compressor.UsesFPC → 8 ∣ p'.source.content.length)) := by
  obtain ⟨hreading, hcompressor, hsize, hsizeBytes, -⟩ :=
    FileProcessor.reading_of_openNextFile hopen hnext hconfigured
  rw [← hsizeBytes] at hassumed ⊢
  rw [← hcompressor]
  have hiff := FileProcessor.exists_chunks_iff hassumed hreading
  rw [List.drop_zero] at hiff
  refine ⟨hiff, fun chunks q hchunks => ?_⟩
  exact writesFile_iff hassumed hmode hreading (by rw [hsizeBytes, hsize, hbytes])
    (List.length_pos_iff.mp hlen) last hclosed hchunks

def sampleSession : Session :=
  ⟨Server.sampleHost.codecs, Server.storedScripts, fun _ => true, ascii "out", false, .ZLIB⟩

def fpcProcessor : FileProcessor :=
  { FileProcessor.new 512 (.single .FPC 20) with
    directoryExplorer := some ⟨ascii "a", ascii "a", .nil, [], ascii "a", true, true⟩ }

theorem fpcProcessor_open (content : ByteString) :
    fpcProcessor.openNextFile (Server.sampleDisk content) = (.ok content.length,
      (fpcProcessor.openNextFile (Server.sampleDisk content)).2) :=
  rfl

theorem fpcProcessor_configured :
    fpcProcessor.compressor.Configured fpcProcessor.chunkSizeBytes := by
  refine ⟨rfl, fun l hl => ?_⟩
  simp only [Compressor.levels, Option.some.injEq] at hl
  subst hl
  decide

theorem sampleSession_assumed : sampleSession.codecs.Assumed fpcProcessor.chunkSizeBytes
    (storingLibraries.HasRoom (11 * fpcProcessor.chunkSizeBytes / 10)) :=
  storingLibraries_documented.assumed rfl (by decide)

theorem sample_receivable : Receivable sampleSession (ascii "a") :=
  ⟨ascii "a", by decide, rfl⟩

theorem fpcProcessor_takesAll (pieces : List ByteString) : fpcProcessor.compressor.TakesAll
    (storingLibraries.HasRoom (11 * fpcProcessor.chunkSizeBytes / 10)) pieces :=
  AutomaticCompressionStrategy.fpc_takesAll _ 20 pieces

def countingFile (n : Nat) : ByteString := (List.range n).map (BitVec.ofNat 8)

/-- A chunk of 65536 words and one of three. -/
theorem restores_two_chunks :
    (∃ chunks q, FileProcessor.Chunks sampleSession.codecs
      (fpcProcessor.openNextFile (Server.sampleDisk (countingFile 524312))).2 chunks q) ∧
    ∀ chunks q, FileProcessor.Chunks sampleSession.codecs
        (fpcProcessor.openNextFile (Server.sampleDisk (countingFile 524312))).2 chunks q →
      WritesFile sampleSession (.start fun _ => none)
        (initialMessage (ascii "a") (countingFile 524312) 512 true) chunks
        (countingFile 524312) := by
  have hlength : (countingFile 524312).length = 524312 := by
    rw [countingFile, List.length_map, List.length_range]
  generalize countingFile 524312 = content at hlength
  have h := restores_iff sampleSession sampleSession_assumed rfl (fpcProcessor_open content) rfl
    fpcProcessor_configured rfl (by change 1 ≤ content.length; omega) true
    (d := .start fun _ => none) rfl
  refine ⟨h.1.mpr (fpcProcessor_takesAll _), fun chunks q hchunks => ?_⟩
  apply (h.2 chunks q hchunks).mpr
  refine ⟨sample_receivable, fun _ => ?_⟩
  change 8 ∣ content.length
  omega

/-- Of nine bytes FPC drops the last. -/
theorem ninth_byte_lost : ∃ chunks q, FileProcessor.Chunks sampleSession.codecs
      (fpcProcessor.openNextFile (Server.sampleDisk [1, 2, 3, 4, 5, 6, 7, 8, 9])).2 chunks q ∧
    ¬ WritesFile sampleSession (.start fun _ => none)
      (initialMessage (ascii "a") [1, 2, 3, 4, 5, 6, 7, 8, 9] 512 true) chunks
      [1, 2, 3, 4, 5, 6, 7, 8, 9] := by
  obtain ⟨hreading, hcompressor, -, hsize, -⟩ := FileProcessor.reading_of_openNextFile
    (fpcProcessor_open [1, 2, 3, 4, 5, 6, 7, 8, 9]) rfl fpcProcessor_configured
  have hassumed := sampleSession_assumed
  rw [← hsize] at hassumed
  obtain ⟨chunks, q, hchunks⟩ := (FileProcessor.exists_chunks_iff hassumed hreading).mpr (by
    rw [hcompressor, hsize]
    exact fpcProcessor_takesAll _)
  refine ⟨chunks, q, hchunks, fun hwrites => ?_⟩
  have h := (writesFile_iff hassumed rfl hreading rfl
    (by decide) true (d := .start fun _ => none) rfl hchunks).mp hwrites
  exact absurd (h.2 rfl) (by decide)

end Autocomp.Client

import Autocomp.Compression.Fpc.Chunk
import Autocomp.Network.Fidelity
import Autocomp.Network.Handover

namespace Autocomp.Client

open FileStream Transition

/-- A file as its messages announce it. -/
structure ReceivedFile where
  message : FileInitialMessage
  chunks : List (ChunkHeader × ByteString)

def chunkEntry (chunk : ChunkHeader × ByteString) : DecompressionQueueEntry :=
  ⟨Message.empty, chunk.1, ⟨chunk.2, chunk.2.length, chunk.2.length⟩⟩

def ReceivedFile.entries (file : ReceivedFile) : List DecompressionQueueEntry :=
  ⟨file.message, Message.empty, .empty⟩ :: file.chunks.map chunkEntry

def isChunk (entry : DecompressionQueueEntry) : Bool :=
  !Message.isInitialized entry.fileInitialMessage

/-- The files in a queue: an initial message and the chunks up to the next one. -/
def announced : List DecompressionQueueEntry → List ReceivedFile
  | [] => []
  | entry :: entries =>
    if isChunk entry then announced entries
    else ⟨entry.fileInitialMessage, (entries.takeWhile isChunk).map fun e =>
      (e.chunkHeader, e.chunk.contents)⟩ :: announced entries

/-- The last chunk is marked and no other. -/
def LastMarked : List (ChunkHeader × ByteString) → Prop
  | [] => False
  | [chunk] => chunk.1.lastChunk.getD false = true
  | chunk :: chunks => chunk.1.lastChunk.getD false = false ∧ LastMarked chunks

/-- What the receive loops guarantee of a file. -/
structure ReceivedFile.WellFormed (file : ReceivedFile) : Prop where
  initialized : Message.isInitialized file.message = true
  lastMarked : LastMarked file.chunks

theorem announced_chunks (chunks : List (ChunkHeader × ByteString))
    (rest : List DecompressionQueueEntry) :
    announced (chunks.map chunkEntry ++ rest) = announced rest := by
  induction chunks with
  | nil => rfl
  | cons chunk chunks ih =>
    rw [List.map_cons, List.cons_append, announced]
    exact ih

theorem takeWhile_chunks (chunks : List (ChunkHeader × ByteString)) {files : List ReceivedFile}
    (hfiles : ∀ file ∈ files, file.WellFormed) :
    (chunks.map chunkEntry ++ files.flatMap ReceivedFile.entries).takeWhile isChunk =
      chunks.map chunkEntry := by
  induction chunks with
  | nil =>
    cases files with
    | nil => rfl
    | cons file files =>
      have hinitialized := (hfiles file (by simp)).initialized
      simp [ReceivedFile.entries, isChunk, hinitialized]
  | cons chunk chunks ih =>
    rw [List.map_cons, List.cons_append, List.takeWhile_cons_of_pos (by rfl), ih]

theorem announced_flatMap {files : List ReceivedFile} (hfiles : ∀ file ∈ files, file.WellFormed) :
    announced (files.flatMap ReceivedFile.entries) = files := by
  induction files with
  | nil => rfl
  | cons file files ih =>
    have hinitialized := (hfiles file (by simp)).initialized
    have hrest := fun f hf => hfiles f (List.mem_cons_of_mem _ hf)
    rw [List.flatMap_cons, ReceivedFile.entries, List.cons_append, announced,
      if_neg (by simp [isChunk, hinitialized]), takeWhile_chunks _ hrest, announced_chunks, ih hrest,
      List.map_map]
    congr 1
    cases file
    simp [Function.comp_def, chunkEntry, Buffer.contents]

/-- The entries of whole files. -/
def IsFiles (entries : List DecompressionQueueEntry) : Prop :=
  ∃ files : List ReceivedFile, (∀ file ∈ files, file.WellFormed) ∧
    entries = files.flatMap ReceivedFile.entries

/-- The entries of the chunks a file still has, and of whole files after it. -/
def IsChunks (entries : List DecompressionQueueEntry) : Prop :=
  ∃ chunks rest, LastMarked chunks ∧ IsFiles rest ∧ entries = chunks.map chunkEntry ++ rest

/-- The entries that are still pushed by a request that returns. -/
def Awaiting.Continues : Awaiting → List DecompressionQueueEntry → Prop
  | .initial, entries => IsFiles entries
  | .header _, entries => IsChunks entries
  | .chunk _ chunkHeader, entries =>
    ∃ bytes rest, entries = chunkEntry (chunkHeader, bytes) :: rest ∧
      if chunkHeader.lastChunk.getD false then IsFiles rest else IsChunks rest
  | .nothing, entries => entries = []

theorem LastMarked.cons {chunk : ChunkHeader × ByteString} {chunks : List (ChunkHeader × ByteString)}
    (hchunk : chunk.1.lastChunk.getD false = false) (h : LastMarked chunks) :
    LastMarked (chunk :: chunks) := by
  cases chunks with
  | nil => exact h.elim
  | cons => exact ⟨hchunk, h⟩

theorem continues_chunk {message : FileInitialMessage} {chunkHeader : ChunkHeader}
    (bytes : ByteString) {rest : List DecompressionQueueEntry}
    (h : (afterChunk message chunkHeader).Continues rest) :
    (Awaiting.chunk message chunkHeader).Continues (chunkEntry (chunkHeader, bytes) :: rest) := by
  refine ⟨bytes, rest, rfl, ?_⟩
  unfold afterChunk at h
  cases hlast : chunkHeader.lastChunk.getD false with
  | false =>
    rw [hlast] at h
    exact h
  | true =>
    rw [hlast] at h
    cases hfile : message.lastFile.getD false with
    | false =>
      rw [hfile] at h
      exact h
    | true =>
      rw [hfile] at h
      have hnil : rest = [] := h
      exact ⟨[], by simp, by simp [hnil]⟩

theorem continues_header {message : FileInitialMessage} {chunkHeader : ChunkHeader}
    {entries : List DecompressionQueueEntry}
    (h : (Awaiting.chunk message chunkHeader).Continues entries) :
    (Awaiting.header message).Continues entries := by
  obtain ⟨bytes, rest, rfl, hrest⟩ := h
  cases hlast : chunkHeader.lastChunk.getD false with
  | true =>
    rw [if_pos hlast] at hrest
    exact ⟨[(chunkHeader, bytes)], rest, hlast, hrest, rfl⟩
  | false =>
    rw [hlast, if_neg (by simp)] at hrest
    obtain ⟨chunks, files, hmarked, hfiles, rfl⟩ := hrest
    exact ⟨(chunkHeader, bytes) :: chunks, files, .cons hlast hmarked, hfiles, rfl⟩

theorem continues_initial {message : FileInitialMessage}
    (hinitialized : Message.isInitialized message = true) {entries : List DecompressionQueueEntry}
    (h : (Awaiting.header message).Continues entries) :
    Awaiting.initial.Continues (⟨message, Message.empty, .empty⟩ :: entries) := by
  obtain ⟨chunks, rest, hmarked, ⟨files, hfiles, rfl⟩, rfl⟩ := h
  refine ⟨⟨message, chunks⟩ :: files, ?_, rfl⟩
  intro file hfile
  rcases List.mem_cons.mp hfile with rfl | hfile
  · exact ⟨hinitialized, hmarked⟩
  · exact hfiles file hfile

theorem requestFile_continues {connection : Connection} {r : Receiver} {messages : List ByteString}
    {queue : SynchronousQueue DecompressionQueueEntry} {unread : List ByteString}
    (h : requestFile connection r messages = .returned queue unread) :
    ∃ entries, queue.entries = r.decompressionQueue.entries ++ entries ∧
      r.awaiting.Continues entries := by
  apply requestFile_induction (P := fun r _ =>
    ∃ entries, queue.entries = r.decompressionQueue.entries ++ entries ∧
      r.awaiting.Continues entries) ?_ ?_ h
  · intro r hdone hqueue
    rw [hdone]
    exact ⟨[], by simp [hqueue], rfl⟩
  · intro r r' message messages hawaiting hgo hmore
    obtain ⟨entries, hentries, hcontinues⟩ := hmore
    rcases receiveMessage_cases hgo hawaiting with ⟨m, hr, hinitialized, rfl⟩ |
        ⟨m, chunkHeader, hr, rfl⟩ | ⟨m, chunkHeader, hr, rfl⟩
    · rw [hr]
      exact ⟨_, by simpa using hentries, continues_initial hinitialized hcontinues⟩
    · rw [hr]
      exact ⟨entries, hentries, continues_header hcontinues⟩
    · rw [hr]
      exact ⟨_, by simpa [chunkEntry] using hentries,
        continues_chunk message hcontinues⟩

/-- A returning request has pushed whole files. -/
theorem requestFile_files {connection : Connection} {messages : List ByteString}
    {queue : SynchronousQueue DecompressionQueueEntry} {unread : List ByteString}
    (h : requestFile connection .start messages = .returned queue unread) :
    (∀ file ∈ announced queue.entries, file.WellFormed) ∧
      queue.entries = (announced queue.entries).flatMap ReceivedFile.entries := by
  obtain ⟨entries, hentries, files, hfiles, rfl⟩ := requestFile_continues h
  have hqueue : queue.entries = files.flatMap ReceivedFile.entries := hentries
  rw [hqueue, announced_flatMap hfiles]
  exact ⟨hfiles, rfl⟩

theorem requestFile_short {connection : Connection} {r : Receiver} {messages : List ByteString}
    (hmessages : ∀ message ∈ messages, message.length < 2 ^ 32)
    (hr : ∀ entry ∈ r.decompressionQueue.entries, entry.chunk.actualSize < 2 ^ 32)
    {queue : SynchronousQueue DecompressionQueueEntry} {unread : List ByteString}
    (h : requestFile connection r messages = .returned queue unread) :
    ∀ entry ∈ queue.entries, entry.chunk.actualSize < 2 ^ 32 := by
  refine requestFile_induction (P := fun r messages =>
    (∀ message ∈ messages, message.length < 2 ^ 32) →
    (∀ entry ∈ r.decompressionQueue.entries, entry.chunk.actualSize < 2 ^ 32) →
    ∀ entry ∈ queue.entries, entry.chunk.actualSize < 2 ^ 32) ?_ ?_ h hmessages hr
  · intro r _ hqueue _ hr
    rwa [← hqueue]
  · intro r r' message messages hawaiting hgo ih hmessages hr
    have hpush (entry : DecompressionQueueEntry) (hentry : entry.chunk.actualSize < 2 ^ 32) :
        ∀ e ∈ (r.decompressionQueue.push entry).entries, e.chunk.actualSize < 2 ^ 32 := by
      intro e he
      rcases List.mem_append.mp he with he | he
      · exact hr e he
      · rw [List.mem_singleton.mp he]
        exact hentry
    apply ih (fun m hm => hmessages m (by simp [hm]))
    rcases receiveMessage_cases hgo hawaiting with ⟨m, -, -, rfl⟩ | ⟨m, chunkHeader, -, rfl⟩ |
        ⟨m, chunkHeader, -, rfl⟩
    · exact hpush _ (by simp [Buffer.empty])
    · exact hr
    · exact hpush _ (hmessages message (by simp))

theorem entries_meanings {files : List ReceivedFile} (hfiles : ∀ file ∈ files, file.WellFormed) :
    entries ((files.flatMap ReceivedFile.entries).flatMap DecompressionQueueEntry.meanings) =
      files.flatMap ReceivedFile.entries := by
  induction files with
  | nil => rfl
  | cons file files ih =>
    have hinitialized := (hfiles file (by simp)).initialized
    have hrest := ih fun f hf => hfiles f (List.mem_cons_of_mem _ hf)
    have hchunks (chunks : List (ChunkHeader × ByteString)) :
        entries ((chunks.map chunkEntry).flatMap DecompressionQueueEntry.meanings ++
          (files.flatMap ReceivedFile.entries).flatMap DecompressionQueueEntry.meanings) =
        chunks.map chunkEntry ++ files.flatMap ReceivedFile.entries := by
      induction chunks with
      | nil => exact hrest
      | cons chunk chunks ihc =>
        rw [List.map_cons, List.flatMap_cons, chunkEntry, meanings_chunk, List.append_assoc]
        simp only [Buffer.contents, List.take_length, List.cons_append, List.nil_append, entries,
          ihc]
    rw [List.flatMap_cons, List.flatMap_append, ReceivedFile.entries, List.flatMap_cons,
      meanings_initial hinitialized, List.append_assoc, List.singleton_append, entries, hchunks]
    rfl

/-- What a chunk decodes to in a fresh buffer, and the capacity of the client's buffer after it. -/
def decode (session : Session) (capacity : Nat) (chunk : ChunkHeader × ByteString) :
    Option (ByteString × Nat) :=
  let compressor := chunk.1.compressor.getD .ZLIB
  if compressor = .COPY ∨ session.preCompression = true then some (chunk.2, chunk.2.length)
  else
    match (session.codecs.strategy compressor (defaultLevel compressor)).decompress
      ⟨chunk.2, chunk.2.length, chunk.2.length⟩ (.withCapacity capacity) with
    | (.ok (), decompressed) => some (decompressed.contents, capacity)
    | (.error _, _) => none

def decodings (session : Session) (capacity : Nat) :
    List (ChunkHeader × ByteString) → Option (List ByteString)
  | [] => some []
  | chunk :: chunks =>
    match decode session capacity chunk with
    | some (bytes, capacity) => (decodings session capacity chunks).map (bytes :: ·)
    | none => none

namespace ReceivedFile

def name (file : ReceivedFile) : ByteString := file.message.filename.getD []

def size (file : ReceivedFile) : Nat := (file.message.fileSize.getD 0).toNat

def capacity (file : ReceivedFile) : Nat := (file.message.chunkSize.getD 0).toNat * 1024 % 2 ^ 32

end ReceivedFile

theorem strategy_afresh {codecs : Codecs} (h : codecs.Afresh) {c : Compressor} (hcopy : c ≠ .COPY)
    (level : Int) : DecompressesAfresh (codecs.strategy c level) := by
  by_cases hfpc : c = .FPC
  · subst hfpc
    have hall := FPCCompressor.decompress_afresh codecs.inBytes codecs.outWords
    exact ⟨fun chunk a b hcap hsmall => (hall chunk hcap hsmall).1,
      fun chunk a b hcap hsmall hok => ((hall chunk hcap hsmall).2 hok).1,
      fun chunk a hsmall hok => ((hall chunk rfl hsmall).2 hok).2⟩
  · have hstrategy : codecs.strategy c level = codecs.library c level := by
      cases c <;> first | rfl | exact absurd rfl hfpc
    rw [hstrategy]
    exact h c level hfpc hcopy

theorem decode_cases {session : Session} {capacity : Nat} {chunk : ChunkHeader × ByteString}
    {bytes : ByteString} {left : Nat} (h : decode session capacity chunk = some (bytes, left)) :
    ((chunk.1.compressor.getD .ZLIB = .COPY ∨ session.preCompression = true) ∧
      bytes = chunk.2 ∧ left = chunk.2.length) ∨
    ((chunk.1.compressor.getD .ZLIB ≠ .COPY ∧ session.preCompression = false) ∧ left = capacity ∧
      ∃ result, (session.codecs.strategy (chunk.1.compressor.getD .ZLIB)
        (defaultLevel (chunk.1.compressor.getD .ZLIB))).decompress
        ⟨chunk.2, chunk.2.length, chunk.2.length⟩ (.withCapacity capacity) = (.ok (), result) ∧
      result.contents = bytes) := by
  unfold decode at h
  by_cases htaken : chunk.1.compressor.getD .ZLIB = .COPY ∨ session.preCompression = true
  · simp only [if_pos htaken, Option.some.injEq, Prod.mk.injEq] at h
    exact .inl ⟨htaken, h.1.symm, h.2.symm⟩
  · simp only [if_neg htaken] at h
    split at h
    · rename_i result hresult
      simp only [Option.some.injEq, Prod.mk.injEq] at h
      rw [not_or, Bool.not_eq_true] at htaken
      exact .inr ⟨htaken, h.2.symm, result, hresult, h.1⟩
    · contradiction

theorem decompressChunk_decode {session : Session} (hafresh : session.codecs.Afresh)
    {d : Decompressor} (hsmall : d.decompressedChunk.capacity < 2 ^ 32)
    {chunk : ChunkHeader × ByteString} {bytes : ByteString} {capacity : Nat}
    (hdecode : decode session d.decompressedChunk.capacity chunk = some (bytes, capacity)) :
    ∃ b, decompressChunk session d chunk.1 ⟨chunk.2, chunk.2.length, chunk.2.length⟩ = .ok b ∧
      b.contents = bytes ∧ b.capacity = capacity := by
  rcases decode_cases hdecode with ⟨htaken, rfl, rfl⟩ | ⟨hcoded, rfl, result, hresult, hcontents⟩
  · have hnot : ¬ (chunk.1.compressor.getD .ZLIB ≠ .COPY ∧ session.preCompression = false) := by
      rintro ⟨hcopy, hmode⟩
      rcases htaken with h | h
      · exact hcopy h
      · simp [hmode] at h
    refine ⟨⟨chunk.2, chunk.2.length, chunk.2.length⟩, ?_, List.take_length .., rfl⟩
    simp only [decompressChunk, if_neg hnot, Buffer.swap]
  · have hall := strategy_afresh hafresh hcoded.1 (defaultLevel (chunk.1.compressor.getD .ZLIB))
    have hcap : d.decompressedChunk.capacity =
        (Buffer.withCapacity d.decompressedChunk.capacity).capacity := rfl
    have hok := hall.outcome ⟨chunk.2, chunk.2.length, chunk.2.length⟩ _ _ hcap hsmall
    rw [hresult] at hok
    have hsame := hall.contents _ _ _ hcap hsmall hok
    rw [hresult, hcontents] at hsame
    have hkept := hall.capacity _ _ hsmall hok
    simp only [decompressChunk, if_pos hcoded]
    split
    · rename_i decompressed hgo
      rw [hgo] at hsame hkept
      exact ⟨decompressed, rfl, hsame, hkept⟩
    · rename_i hgo
      simp [hgo] at hok
    · rename_i hgo
      simp [hgo] at hok

theorem decompressAll_finished {session : Session} {d d' : Decompressor}
    {chunks : List (ChunkHeader × ByteString)} (hmarked : LastMarked chunks)
    (h : decompressAll session d (chunks.map chunkEntry) = .ok d') :
    d'.out.path = none ∧ ∃ bytes, d'.finished = d.finished ++ [(d.currentFileName, bytes)] ∧
      (d.out.path = none → bytes = d.out.written) := by
  induction chunks generalizing d with
  | nil => exact hmarked.elim
  | cons chunk chunks ih =>
    rw [List.map_cons, decompressAll] at h
    split at h
    · contradiction
    · rename_i next hentry
      cases hb : decompressChunk session d chunk.1 ⟨chunk.2, chunk.2.length, chunk.2.length⟩ with
      | error x =>
        have hnew : Message.isInitialized (Message.empty : FileInitialMessage) = false := rfl
        simp [chunkEntry, decompressEntry, hnew, hb] at hentry
      | ok b =>
        rw [chunkEntry, decompressEntry_chunk hb] at hentry
        have hwritten (hclosed : d.out.path = none) :
            (writeChunk d b).out.path = none ∧ (writeChunk d b).out.written = d.out.written := by
          simp [writeChunk, OutStream.write, hclosed]
        cases chunks with
        | nil =>
          have hlast : chunk.1.lastChunk.getD false = true := hmarked
          rw [if_pos hlast] at hentry
          obtain ⟨hout, hfinished⟩ := finishFile_kept hentry
          have hdone : next = d' := by
            rw [List.map_nil, decompressAll, Except.ok.injEq] at h
            exact h
          rw [← hdone, hout, hfinished]
          refine ⟨?_, _, rfl, fun hclosed => (hwritten hclosed).2⟩
          cases hpath : (writeChunk d b).out.path <;> simp [OutStream.close, hpath]
        | cons =>
          rw [hmarked.1, if_neg Bool.false_ne_true, Except.ok.injEq] at hentry
          rw [← hentry] at h
          obtain ⟨hpath, bytes, hfinished, hbytes⟩ := ih hmarked.2 h
          refine ⟨hpath, bytes, hfinished, fun hclosed => ?_⟩
          rw [hbytes (hwritten hclosed).1, (hwritten hclosed).2]

theorem decompressAll_decodes {session : Session} (hafresh : session.codecs.Afresh)
    {chunks : List (ChunkHeader × ByteString)} (hmarked : LastMarked chunks)
    (hshort : ∀ chunk ∈ chunks, chunk.2.length < 2 ^ 32) {d : Decompressor}
    (hsmall : d.decompressedChunk.capacity < 2 ^ 32) {ds : List ByteString}
    (hdecode : decodings session d.decompressedChunk.capacity chunks = some ds)
    {destination : Path} {written : ByteString} (hout : d.out = ⟨some destination, false, written⟩) :
    ∃ d', decompressAll session d (chunks.map chunkEntry) = finishFile session d' ∧
      d'.out = ⟨some destination, false, written ++ ds.flatten⟩ ∧
      d'.disk = Function.update d.disk destination (some (written ++ ds.flatten)) ∧
      d'.currentFileName = d.currentFileName ∧ d'.finished = d.finished := by
  induction chunks generalizing d ds written with
  | nil => exact hmarked.elim
  | cons chunk chunks ih =>
    rw [decodings] at hdecode
    split at hdecode
    · rename_i bytes capacity hbytes
      obtain ⟨ds', hds', rfl⟩ := Option.map_eq_some_iff.mp hdecode
      obtain ⟨b, hb, rfl, hcapacity⟩ := decompressChunk_decode hafresh hsmall hbytes
      have hentry := decompressEntry_chunk hb
      have hwrite : (writeChunk d b).out = ⟨some destination, false, written ++ b.contents⟩ ∧
          (writeChunk d b).disk =
            Function.update d.disk destination (some (written ++ b.contents)) := by
        simp [writeChunk, hout, OutStream.write]
      cases chunks with
      | nil =>
        have hlast : chunk.1.lastChunk.getD false = true := hmarked
        rw [decodings, Option.some.injEq] at hds'
        rw [if_pos hlast] at hentry
        rw [List.map_cons, chunkEntry, decompressAll, hentry, ← hds', List.flatten_cons,
          List.flatten_nil, List.append_nil]
        refine ⟨writeChunk d b, ?_, hwrite.1, hwrite.2, rfl, rfl⟩
        cases finishFile session (writeChunk d b) <;> rfl
      | cons next rest =>
        have hcurrent : capacity < 2 ^ 32 := by
          rcases decode_cases hbytes with ⟨-, -, rfl⟩ | ⟨-, rfl, -⟩
          · exact hshort chunk List.mem_cons_self
          · exact hsmall
        rw [hmarked.1, if_neg Bool.false_ne_true] at hentry
        obtain ⟨d', hgo, hout', hdisk, hname, hfinished⟩ := ih hmarked.2
          (fun c hc => hshort c (List.mem_cons_of_mem _ hc)) (d := writeChunk d b)
          (by change b.capacity < 2 ^ 32; rw [hcapacity]; exact hcurrent)
          (by change decodings session b.capacity (next :: rest) = some ds'
              rw [hcapacity]
              exact hds') hwrite.1
        refine ⟨d', ?_, ?_, ?_, hname, hfinished⟩
        · rw [List.map_cons, decompressAll, chunkEntry, hentry]
          exact hgo
        · rw [hout', List.flatten_cons, List.append_assoc]
        · rw [hdisk, hwrite.2, Function.update_idem, List.flatten_cons, List.append_assoc]
    · contradiction

/-- What the history holds of a file whose chunks decode. -/
def FileWritten (session : Session) (file : ReceivedFile) (written : Path × ByteString) : Prop :=
  ∀ ds, decodings session file.capacity file.chunks = some ds →
    (Receivable session file.name → written.2 = ds.flatten) ∧
      (¬ Receivable session file.name → written.2 = [])

theorem startFile_ok {session : Session} {d d' : Decompressor} {message : FileInitialMessage}
    (h : startFile session d message = .ok d') :
    ∃ filename, absoluteFilename (message.filename.getD []) = .ok filename := by
  cases hname : absoluteFilename (message.filename.getD []) with
  | error x => simp [startFile, hname] at h
  | ok filename => exact ⟨filename, rfl⟩

theorem receivable_iff {session : Session} {name filename : ByteString}
    (h : absoluteFilename name = .ok filename) :
    Receivable session name ↔ session.creatable (session.destination filename) = true := by
  constructor
  · intro hreceivable
    obtain ⟨filename', hname, hcreatable⟩ := hreceivable
    rw [h, Except.ok.injEq] at hname
    rwa [hname]
  · intro hcreatable
    exact ⟨filename, h, hcreatable⟩

theorem decompressAll_split {session : Session} {d d' : Decompressor}
    {xs ys : List DecompressionQueueEntry} (h : decompressAll session d (xs ++ ys) = .ok d') :
    ∃ next, decompressAll session d xs = .ok next ∧ decompressAll session next ys = .ok d' := by
  induction xs generalizing d with
  | nil => exact ⟨d, rfl, h⟩
  | cons entry xs ih =>
    rw [List.cons_append, decompressAll] at h
    split at h
    · contradiction
    · rename_i next hentry
      obtain ⟨last, hxs, hys⟩ := ih h
      exact ⟨last, by rw [decompressAll_cons hentry, hxs], hys⟩

theorem decompressAll_file {session : Session} (hafresh : session.codecs.Afresh)
    {file : ReceivedFile} (hfile : file.WellFormed)
    (hshort : ∀ chunk ∈ file.chunks, chunk.2.length < 2 ^ 32) {d d' : Decompressor}
    (hclosed : d.out.path = none) (h : decompressAll session d file.entries = .ok d') :
    d'.out.path = none ∧
      ∃ written, d'.finished = d.finished ++ [written] ∧ FileWritten session file written := by
  rw [ReceivedFile.entries, decompressAll, decompressEntry_initial hfile.initialized] at h
  split at h
  · contradiction
  · rename_i started hstarted
    obtain ⟨filename, hname⟩ := startFile_ok hstarted
    rw [startFile_eq file.message hname, Except.ok.injEq] at hstarted
    have hreceivable : Receivable session file.name ↔
        session.creatable (session.destination filename) = true := receivable_iff hname
    have hkept : started.finished = d.finished := by rw [← hstarted]
    obtain ⟨hpath, bytes, hfinished, hbytes⟩ := decompressAll_finished hfile.lastMarked h
    refine ⟨hpath, _, by rw [hfinished, hkept], fun ds hds => ⟨fun hyes => ?_, fun hno => ?_⟩⟩
    · have hcreatable := hreceivable.mp hyes
      have hcapacity : started.decompressedChunk.capacity = file.capacity := by
        rw [← hstarted]
        simp [Buffer.resize, ReceivedFile.capacity]
      rw [← hcapacity] at hds
      have hopened : started.out = ⟨some (session.destination filename), false, []⟩ := by
        rw [← hstarted]
        simp [OutStream.openFile, hclosed, hcreatable]
      obtain ⟨full, hgo, hout, -, -, hsame⟩ := decompressAll_decodes hafresh hfile.lastMarked hshort
        (by rw [hcapacity]; exact Nat.mod_lt _ (by decide)) hds hopened
      rw [hgo] at h
      have hdone := (finishFile_kept h).2
      rw [hfinished, hsame, hout, List.append_cancel_left_eq, List.singleton_inj,
        Prod.mk.injEq] at hdone
      exact hdone.2
    · have hlocked := mt hreceivable.mpr hno
      rw [Bool.not_eq_true] at hlocked
      have hunopened : started.out.path = none ∧ started.out.written = [] := by
        rw [← hstarted]
        simp [OutStream.openFile, hlocked, hclosed]
      rw [hbytes hunopened.1, hunopened.2]

theorem decompressAll_files {session : Session} (hafresh : session.codecs.Afresh)
    {files : List ReceivedFile} (hfiles : ∀ file ∈ files, file.WellFormed)
    (hshort : ∀ file ∈ files, ∀ chunk ∈ file.chunks, chunk.2.length < 2 ^ 32) {d d' : Decompressor}
    (hclosed : d.out.path = none)
    (h : decompressAll session d (files.flatMap ReceivedFile.entries) = .ok d') :
    ∃ all, d'.finished = d.finished ++ all ∧ List.Forall₂ (FileWritten session) files all := by
  induction files generalizing d with
  | nil =>
    rw [List.flatMap_nil, decompressAll, Except.ok.injEq] at h
    rw [← h]
    exact ⟨[], (List.append_nil _).symm, .nil⟩
  | cons file files ih =>
    rw [List.flatMap_cons] at h
    obtain ⟨next, hfile, hrest⟩ := decompressAll_split h
    obtain ⟨hpath, written, hnext, hwritten⟩ := decompressAll_file hafresh
      (hfiles file List.mem_cons_self) (hshort file List.mem_cons_self) hclosed hfile
    obtain ⟨all, hall, hmore⟩ := ih (fun f hf => hfiles f (List.mem_cons_of_mem _ hf))
      (fun f hf => hshort f (List.mem_cons_of_mem _ hf)) hpath hrest
    exact ⟨written :: all, by rw [hall, hnext, List.append_assoc]; rfl, .cons hwritten hmore⟩

/-- Every file was written as its chunks decode, in order and in its announced size. -/
def Restored (session : Session) (files : List ReceivedFile)
    (finished : List (Path × ByteString)) : Prop :=
  List.Forall₂ (fun file written => ∃ ds, decodings session file.capacity file.chunks = some ds ∧
    written.2 = ds.flatten ∧ ds.flatten.length = file.size) files finished

/-- The file decodes to its announced size, and its destination can be opened if it has one. -/
def Restorable (session : Session) (file : ReceivedFile) : Prop :=
  ∃ ds, decodings session file.capacity file.chunks = some ds ∧ ds.flatten.length = file.size ∧
    (Receivable session file.name ∨ file.size = 0)

theorem restored_of_written {session : Session} {files : List ReceivedFile}
    {finished : List (Path × ByteString)}
    (h : List.Forall₂ (FileWritten session) files finished) :
    Restored session files finished ↔ ∀ file ∈ files, Restorable session file := by
  induction h with
  | nil => exact iff_of_true .nil fun file hfile => absurd hfile List.not_mem_nil
  | @cons file written files finished hwritten _ ih =>
    rw [Restored, List.forall₂_cons, List.forall_mem_cons]
    apply and_congr _ ih
    constructor
    · intro hfile
      obtain ⟨ds, hds, hbytes, hsize⟩ := hfile
      refine ⟨ds, hds, hsize, ?_⟩
      by_contra hno
      rw [not_or] at hno
      have hnil := (hwritten ds hds).2 hno.1
      rw [← hsize, ← hbytes, hnil] at hno
      exact hno.2 rfl
    · intro hfile
      obtain ⟨ds, hds, hsize, hreceivable⟩ := hfile
      refine ⟨ds, hds, ?_, hsize⟩
      by_cases hopened : Receivable session file.name
      · exact (hwritten ds hds).1 hopened
      · have hzero := hreceivable.resolve_left hopened
        rw [(hwritten ds hds).2 hopened, eq_comm, ← List.length_eq_zero_iff, hsize, hzero]

/-- A request that returns has restored the announced files exactly when each decodes to its
announced size and, unless it is empty, can be created. -/
theorem restored_iff {session : Session} (hafresh : session.codecs.Afresh)
    {connection : Connection} {messages unread : List ByteString}
    (hshort : ∀ message ∈ messages, message.length < 2 ^ 32)
    {queue : SynchronousQueue DecompressionQueueEntry}
    (hreturned : requestFile connection .start messages = .returned queue unread)
    {disk : Disk Path} {s : Threads}
    (hrun : Reachable (step session) (.init queue.entries (.start disk)) s)
    (hjoined : s.returned = true) :
    Restored session (announced queue.entries) s.decompressor.finished ↔
      ∀ file ∈ announced queue.entries, Restorable session file := by
  obtain ⟨hfiles, hentries⟩ := requestFile_files hreturned
  have hsmall := requestFile_short hshort (by simp [Receiver.start, SynchronousQueue.empty]) hreturned
  have hgo := handed_over hrun hjoined
  rw [hentries] at hgo hsmall
  obtain ⟨all, hall, hwritten⟩ := decompressAll_files hafresh hfiles
    (fun file hfile chunk hchunk => hsmall (chunkEntry chunk) (List.mem_flatMap.mpr
      ⟨file, hfile, List.mem_cons_of_mem _ (List.mem_map_of_mem hchunk)⟩)) rfl hgo
  rw [hall]
  exact restored_of_written hwritten

theorem exists_queue (connection : Connection) {sent : List Server.Meaning}
    (hsendable : ∀ meaning ∈ sent, Sendable meaning)
    (hexec : exec Awaiting.next .initial sent = some .nothing) :
    ∃ queue, requestFile connection .start (sent.map (·.bytes connection.protobuf)) =
      .returned queue [] ∧ queue.entries = entries sent := by
  obtain ⟨queue, hgo, hmeanings⟩ := requestFile_complete (r := .start) hsendable hexec
  obtain ⟨hfiles, hentries⟩ := requestFile_files hgo
  refine ⟨queue, hgo, ?_⟩
  have hsent : queue.entries.flatMap DecompressionQueueEntry.meanings = sent := hmeanings
  rw [← hsent, hentries, entries_meanings hfiles]

def sampleConnection : Connection := ⟨protocolBuffers, ascii "server:4600"⟩

/-- The file `a` of `size` bytes in a copied and a compressed chunk. -/
def sampleSent (size : Nat) (compressor : Compressor) (first second : ByteString) :
    List Server.Meaning :=
  [.initial ⟨some (ascii "a"), some (BitVec.ofNat 64 size), some 64, some true⟩,
    .header ⟨some .COPY, some 0, none⟩, .chunk first,
    .header ⟨some compressor, some 1, some true⟩, .chunk second]

theorem sampleSent_sendable (size : Nat) (compressor : Compressor) {first second : ByteString}
    (hfirst : first ≠ []) (hsecond : second ≠ []) :
    ∀ meaning ∈ sampleSent size compressor first second, Sendable meaning := by
  simp only [sampleSent, List.forall_mem_cons, List.not_mem_nil, false_implies, implies_true,
    and_true]
  exact ⟨⟨rfl, by simp [Message.strings, ascii]⟩, rfl, hfirst, rfl, hsecond⟩

/-- A chunk of one byte, which is no FPC chunk: the chunk before it is written once more. -/
theorem previous_chunk_repeated :
    ∃ queue s, requestFile sampleConnection .start
        ((sampleSent 4 .FPC [1, 2, 3] [20]).map (·.bytes protocolBuffers)) = .returned queue [] ∧
      Reachable (step sampleSession) (.init queue.entries (.start fun _ => none)) s ∧
      s.returned = true ∧ s.decompressor.finished = [(ascii "out/a", [1, 2, 3, 1, 2, 3])] ∧
      ¬ Restored sampleSession (announced queue.entries) s.decompressor.finished := by
  obtain ⟨queue, hgo, hqueue⟩ := exists_queue sampleConnection
    (sampleSent_sendable 4 .FPC (List.cons_ne_nil 1 [2, 3]) (List.cons_ne_nil 20 [])) rfl
  obtain ⟨d, hd, hfinished⟩ : ∃ d, decompressAll sampleSession (.start fun _ => none)
      (entries (sampleSent 4 .FPC [1, 2, 3] [20])) = .ok d ∧
      d.finished = [(ascii "out/a", [1, 2, 3, 1, 2, 3])] := ⟨_, rfl, rfl⟩
  rw [← hqueue] at hd
  obtain ⟨s, hrun, hreturned, rfl⟩ := exists_handed_over hd
  refine ⟨queue, s, hgo, hrun, hreturned, hfinished, ?_⟩
  rw [hqueue, hfinished]
  intro hrestored
  obtain ⟨ds, hds, -⟩ := (List.forall₂_cons.mp hrestored).1
  have hnone : none = some ds := hds
  contradiction

theorem sampleSession_afresh : sampleSession.codecs.Afresh :=
  storingLibraries_documented.allAfresh rfl

theorem sampleSent_short (message : ByteString) (hmessage : message ∈
      (sampleSent 5 .COPY [1, 2, 3] [4, 5]).map (·.bytes sampleConnection.protobuf)) :
    message.length < 2 ^ 32 := by
  obtain ⟨meaning, hmeaning, rfl⟩ := List.mem_map.mp hmessage
  simp only [sampleSent, List.mem_cons, List.not_mem_nil, or_false] at hmeaning
  rcases hmeaning with rfl | rfl | rfl | rfl | rfl <;>
    simp [Server.Meaning.bytes, sampleConnection, protocolBuffers, wireFormat, Message.fields,
      optionalField, WireFormat.Field.write, WireFormat.Payload.write, WireFormat.Payload.kind,
      WireFormat.writeVarint, ascii, Compressor.value]

theorem restored_copies :
    ∃ queue s, requestFile sampleConnection .start
        ((sampleSent 5 .COPY [1, 2, 3] [4, 5]).map (·.bytes protocolBuffers)) =
          .returned queue [] ∧
      Reachable (step sampleSession) (.init queue.entries (.start fun _ => none)) s ∧
      Restored sampleSession (announced queue.entries) s.decompressor.finished := by
  obtain ⟨queue, hgo, hqueue⟩ := exists_queue sampleConnection
    (sampleSent_sendable 5 .COPY (List.cons_ne_nil 1 [2, 3]) (List.cons_ne_nil 4 [5])) rfl
  obtain ⟨d, hd⟩ : ∃ d, decompressAll sampleSession (.start fun _ => none)
      (entries (sampleSent 5 .COPY [1, 2, 3] [4, 5])) = .ok d := ⟨_, rfl⟩
  rw [← hqueue] at hd
  obtain ⟨s, hrun, hreturned, rfl⟩ := exists_handed_over hd
  refine ⟨queue, s, hgo, hrun, (restored_iff sampleSession_afresh sampleSent_short hgo hrun
    hreturned).mpr ?_⟩
  rw [hqueue]
  intro file hfile
  rw [List.mem_singleton.mp (show file ∈ [_] from hfile)]
  exact ⟨[[1, 2, 3], [4, 5]], rfl, rfl, .inl sample_receivable⟩

end Autocomp.Client

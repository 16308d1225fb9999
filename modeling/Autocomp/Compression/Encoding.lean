import Autocomp.Compression.FileProcessing
import Autocomp.Compression.Fpc.Chunk
import Autocomp.Lib.Pieces
import Mathlib.Data.List.Forall2

namespace Autocomp

open FileStream Pieces

/-- `Encoded codecs n piece c bytes`: with compressor `c`, in chunks of `n` bytes, the bytes stand
for the piece. -/
inductive Encoded (codecs : Codecs) (n : Nat) (piece : ByteString) : Compressor → ByteString → Prop
  | copy : Encoded codecs n piece .COPY piece
  | library {c : Compressor} {level : Int} {inData outData compressed : Buffer}
      (hfpc : c ≠ .FPC) (hcopy : c ≠ .COPY) (hpassed : Passed n inData outData)
      (hin : inData.contents = piece)
      (hgo : (codecs.library c level).compress inData outData = (.ok (), compressed)) :
      Encoded codecs n piece c compressed.contents
  | fpc {level : Nat} {ws : List (BitVec 64)} {junk bytes : ByteString} (hlevel : level ≤ 28)
      (hpiece : piece = FPCCompressor.listBytes ws ++ junk) (hjunk : junk.length < 8)
      (hbytes : FPCCompressor.Compressed level ws bytes) : Encoded codecs n piece .FPC bytes

namespace Codecs

variable {codecs : Codecs} {n : Nat} {room : Compressor → Int → ByteString → Prop}

theorem strategy_library (codecs : Codecs) {c : Compressor} (hfpc : c ≠ .FPC) (level : Int) :
    codecs.strategy c level = codecs.library c level := by
  cases c <;> first | rfl | exact absurd rfl hfpc

theorem Assumed.room_of_ok (hassumed : codecs.Assumed n room) {c : Compressor} {level : Int}
    (hfpc : c ≠ .FPC) (hcopy : c ≠ .COPY) {inData outData compressed : Buffer}
    (hpassed : Passed n inData outData)
    (h : (codecs.library c level).compress inData outData = (.ok (), compressed)) :
    room c level inData.contents := by
  by_contra hroom
  obtain ⟨left, hgo⟩ := (hassumed c hfpc hcopy).compress_beyond level inData outData hpassed hroom
  simp [hgo] at h

/-- The outcomes of a compressor on a piece: something that stands for it, or a `CompressionError`,
which FPC does not raise. -/
theorem compress_cases (hassumed : codecs.Assumed n room) {c : Compressor} {level : Int}
    (hcopy : c ≠ .COPY) (hlevel : c = .FPC → level ≤ 28) (hlow : 400 ≤ n) (hhigh : n ≤ 524288)
    {inData outData : Buffer} (hpassed : Passed n inData outData)
    (hroom : c ≠ .FPC → room c level inData.contents) :
    (∃ compressed, (codecs.strategy c level).compress inData outData = (.ok (), compressed) ∧
      Encoded codecs n inData.contents c compressed.contents) ∨
    c ≠ .FPC ∧ ∃ name inputSize outputCapacity message left,
      (codecs.strategy c level).compress inData outData =
        (.error (.compressionError name inputSize outputCapacity message), left) := by
  by_cases hfpc : c = .FPC
  · subst hfpc
    have hmax := hlevel rfl
    obtain ⟨ws, junk, hwords, hjunk⟩ := FPCCompressor.exists_words inData.contents
    obtain ⟨compressed, hgo, hbytes⟩ := FPCCompressor.compress_chunk level.toNat codecs.inWords
      codecs.outBytes outData hwords (by omega) hlow hhigh hpassed.size_le hpassed.wellFormed
      hpassed.capacity
    exact .inl ⟨compressed, hgo, .fpc (by omega) hwords (by omega) hbytes⟩
  · rw [codecs.strategy_library hfpc]
    rcases (hassumed c hfpc hcopy).compress_cases level inData outData hpassed (hroom hfpc) with
      ⟨compressed, hgo, -⟩ | hthrown
    · exact .inl ⟨compressed, hgo, .library hfpc hcopy hpassed rfl hgo⟩
    · exact .inr ⟨hfpc, hthrown⟩

end Codecs

theorem Encoded.ne_nil {codecs : Codecs} {n : Nat} {room : Compressor → Int → ByteString → Prop}
    {piece bytes : ByteString} {c : Compressor} (hassumed : codecs.Assumed n room)
    (h : Encoded codecs n piece c bytes) (hpiece : piece ≠ []) : bytes ≠ [] := by
  cases h with
  | copy => exact hpiece
  | @library _ level inData outData compressed hfpc hcopy hpassed hin hgo =>
    have hroom := hassumed.room_of_ok hfpc hcopy hpassed hgo
    rcases (hassumed c hfpc hcopy).compress_cases level inData outData hpassed hroom with
      ⟨out, hout, hne⟩ | ⟨_, _, _, _, _, hout⟩
    · rw [hgo, Prod.mk.injEq] at hout
      rw [hout.2]
      exact hne (hin ▸ hpiece)
    · rw [hgo] at hout
      simp at hout
  | fpc _ _ _ hbytes => exact hbytes.ne_nil

namespace AutomaticCompressionStrategy

/-- The strategies `configureFileProcessor` sets up, with the chunk size in bytes of each. -/
def Configured : AutomaticCompressionStrategy → Nat → Prop
  | copy, n => n = 64 * 1024
  | autoComp _, n => n = 64 * 1024
  | single c level, n => n = 512 * 1024 ∧ c.HasLevel level

def UsesFPC : AutomaticCompressionStrategy → Prop
  | single c _ => c = .FPC
  | copy | autoComp _ => False

theorem Configured.pos {s : AutomaticCompressionStrategy} {n : Nat} (h : s.Configured n) :
    0 < n := by
  cases s with
  | copy | autoComp =>
    simp only [Configured] at h
    omega
  | single =>
    have := h.1
    omega

theorem Configured.le {s : AutomaticCompressionStrategy} {n : Nat} (h : s.Configured n) :
    n ≤ 524288 ∧ (s.UsesFPC → n = 524288) := by
  cases s with
  | copy | autoComp =>
    simp only [Configured] at h
    exact ⟨by omega, fun hfpc => hfpc.elim⟩
  | single =>
    have := h.1
    exact ⟨by omega, fun _ => by omega⟩

theorem Configured.room {s : AutomaticCompressionStrategy} {n : Nat} (h : s.Configured n) :
    400 ≤ n := by
  cases s with
  | copy | autoComp =>
    simp only [Configured] at h
    omega
  | single =>
    have := h.1
    omega

theorem Configured.next {s : AutomaticCompressionStrategy} {n : Nat} (h : s.Configured n) :
    s.next.2.Configured n ∧ (s.next.2.UsesFPC ↔ s.UsesFPC) := by
  cases s with
  | copy | single => exact ⟨h, .rfl⟩
  | autoComp => exact ⟨h, .rfl⟩

theorem Configured.of_fpc {s : AutomaticCompressionStrategy} {n : Nat} {level : Int}
    (h : s.Configured n) (hnext : s.next.1 = (.FPC, level)) :
    n = 512 * 1024 ∧ 1 ≤ level ∧ level ≤ 28 ∧ s.UsesFPC := by
  cases s with
  | copy => simp [AutomaticCompressionStrategy.next] at hnext
  | single c l =>
    simp only [AutomaticCompressionStrategy.next, Prod.mk.injEq] at hnext
    obtain ⟨rfl, rfl⟩ := hnext
    obtain ⟨hn, hlevel⟩ := h
    have := hlevel _ rfl
    exact ⟨hn, this.1, this.2, rfl⟩
  | autoComp decisions =>
    simp only [AutomaticCompressionStrategy.next] at hnext
    split at hnext
    · simp at hnext
    · split at hnext
      · rename_i c l hhas
        rw [Prod.mk.injEq] at hnext
        rw [hnext.1] at hhas
        simp [hasCompressor] at hhas
      · simp at hnext

theorem UsesFPC.next {s : AutomaticCompressionStrategy} (h : s.UsesFPC) :
    s.next.1.1 = .FPC := by
  cases s with
  | copy | autoComp => exact h.elim
  | single c l => exact h

section

variable {codecs : Codecs} {n : Nat} {room : Compressor → Int → ByteString → Prop}
  (hassumed : codecs.Assumed n room) {s : AutomaticCompressionStrategy} {inData outData : Buffer}
  (hpassed : Passed n inData outData)

include hassumed hpassed

/-- The outcomes of compressing a piece: something that stands for it, or a `CompressionError`. -/
theorem compress_cases (hs : s.Configured n) (htakes : s.Takes room inData.contents) :
    (¬ s.UsesFPC ∧ ∃ outData',
      s.compress codecs inData outData = (.ok .COPY, outData', s.next.2)) ∨
    (∃ c compressed, c ≠ .COPY ∧ (c = .FPC ↔ s.UsesFPC) ∧
      s.compress codecs inData outData = (.ok c, compressed, s.next.2) ∧
      Encoded codecs n inData.contents c compressed.contents) ∨
    ¬ s.UsesFPC ∧ ∃ name inputSize outputCapacity message left,
      s.compress codecs inData outData =
        (.error (.compressionError name inputSize outputCapacity message), left, s.next.2) := by
  unfold Takes at htakes
  rcases hnext : s.next with ⟨⟨c, level⟩, s'⟩
  rw [hnext] at htakes
  have huses (h : s.UsesFPC) : c = .FPC := by
    rw [← h.next, hnext]
  by_cases hcopy : c = .COPY
  · refine .inl ⟨fun h => ?_, outData, by simp [compress, hnext, hcopy]⟩
    simp [huses h] at hcopy
  · right
    have hlevel (hfpc : c = .FPC) : level ≤ 28 := by
      subst hfpc
      obtain ⟨-, -, hhigh, -⟩ := hs.of_fpc (by rw [hnext])
      exact hhigh
    have hfpc : c = .FPC ↔ s.UsesFPC := by
      constructor
      · intro heq
        subst heq
        obtain ⟨-, -, -, husesFPC⟩ := hs.of_fpc (by rw [hnext])
        exact husesFPC
      · exact huses
    rcases codecs.compress_cases hassumed hcopy hlevel hs.room hs.le.1 hpassed
        (fun hne => htakes hne hcopy) with
      ⟨compressed, hgo, hencoded⟩ | ⟨hne, name, inputSize, outputCapacity, message, left, hgo⟩
    · refine .inl ⟨c, compressed, hcopy, hfpc, ?_, hencoded⟩
      simp [compress, hnext, hcopy, hgo]
    · refine .inr ⟨fun h => hne (huses h), name, inputSize, outputCapacity, message, left, ?_⟩
      simp [compress, hnext, hcopy, hgo]

/-- What has no room is written beyond the output. -/
theorem compress_beyond (htakes : ¬ s.Takes room inData.contents) :
    ∃ left, s.compress codecs inData outData = (.error .undefinedBehaviour, left, s.next.2) := by
  unfold Takes at htakes
  rcases hnext : s.next with ⟨⟨c, level⟩, s'⟩
  rw [hnext] at htakes
  push Not at htakes
  obtain ⟨hfpc, hcopy, hroom⟩ := htakes
  obtain ⟨left, hgo⟩ := (hassumed c hfpc hcopy).compress_beyond level inData outData hpassed hroom
  use left
  simp [compress, hnext, hcopy, codecs.strategy_library hfpc, hgo]

end

end AutomaticCompressionStrategy

namespace FileProcessor

/-- The processor has read `k` bytes of a file in full chunks. -/
structure Reading (p : FileProcessor) (file : ByteString) (k : Nat) : Prop where
  isOpen : p.source.isOpen = true
  content : p.source.content = file
  position : p.source.position = k
  eof : p.source.eof = false
  fail : p.source.fail = false
  read : p.currentFileReadBytes = k
  size : p.currentFileSize = file.length
  configured : p.compressor.Configured p.chunkSizeBytes

theorem Reading.readUpTo {p : FileProcessor} {file : ByteString} {k : Nat} (h : Reading p file k) :
    p.ReadUpTo file k :=
  ⟨h.isOpen, h.content, h.position, h.eof, h.fail, h.read, h.size⟩

end FileProcessor

open FileProcessor in
theorem FileProcessingStrategy.ReadUpTo.reading {p : FileProcessor} {file : ByteString} {k : Nat}
    (h : p.ReadUpTo file k) (hconfigured : p.compressor.Configured p.chunkSizeBytes) :
    Reading p file k :=
  ⟨h.isOpen, h.content, h.position, h.eof, h.fail, h.read, h.size, hconfigured⟩

namespace FileProcessor

structure SameFile (p p' : FileProcessor) : Prop where
  directoryExplorer : p'.directoryExplorer = p.directoryExplorer
  currentFileName : p'.currentFileName = p.currentFileName
  chunkSize : p'.chunkSize = p.chunkSize
  chunkSizeBytes : p'.chunkSizeBytes = p.chunkSizeBytes
  configured : p'.compressor.Configured p'.chunkSizeBytes
  usesFPC : p'.compressor.UsesFPC ↔ p.compressor.UsesFPC

theorem SameFile.refl {p : FileProcessor} (h : p.compressor.Configured p.chunkSizeBytes) :
    SameFile p p :=
  ⟨rfl, rfl, rfl, rfl, h, .rfl⟩

theorem SameFile.trans {p p' p'' : FileProcessor} (h : SameFile p p') (h' : SameFile p' p'') :
    SameFile p p'' :=
  ⟨h'.1.trans h.1, h'.2.trans h.2, h'.3.trans h.3, h'.4.trans h.4, h'.5, h'.6.trans h.6⟩

theorem resize_eq {chunk : Buffer} {n : Nat} (hsize : chunk.actualSize ≤ chunk.capacity)
    (hcap : chunk.capacity ≤ 11 * n / 10) :
    (if 10 * chunk.capacity < 11 * n then chunk.resize (11 * n / 10) else chunk).capacity =
      11 * n / 10 := by
  by_cases h : 10 * chunk.capacity < 11 * n
  · rw [if_pos h, Buffer.resize, if_neg (by omega)]
  · rw [if_neg h]
    omega

theorem inData_spec {n : Nat} (bytes : ByteString) (h : bytes.length ≤ n) :
    ∃ inData, ((Buffer.withCapacity n).overwrite bytes).setSize bytes.length = .ok inData ∧
      inData.contents = bytes ∧ inData.WellFormed := by
  refine ⟨_, if_neg (by simp only [Buffer.overwrite, Buffer.withCapacity]; omega), ?_, ?_, ?_⟩
  · simp [Buffer.contents, Buffer.overwrite]
  · exact h
  · simp only [Buffer.overwrite, Buffer.withCapacity, List.length_append, List.length_drop,
      List.length_replicate]
    omega

/-- What `getNextChunk` makes of the outcome of the strategy. -/
def delivered (inData : Buffer) (p : FileProcessingStrategy) :
    Except Exn Compressor × Buffer × AutomaticCompressionStrategy →
      Except Exn Compressor × Buffer × FileProcessor
  | (.ok .COPY, chunk, compressor) => (.ok .COPY, (chunk.swap inData).1, ⟨p, compressor⟩)
  | (.ok usedCompressor, chunk, compressor) => (.ok usedCompressor, chunk, ⟨p, compressor⟩)
  | (.error (.compressionError ..), chunk, compressor) =>
    (.ok .COPY, (chunk.swap inData).1, ⟨p, compressor⟩)
  | (.error x, chunk, compressor) => (.error x, chunk, ⟨p, compressor⟩)

theorem delivered_ok (inData : Buffer) (p : FileProcessingStrategy) {c : Compressor}
    (hcopy : c ≠ .COPY) (chunk : Buffer) (compressor : AutomaticCompressionStrategy) :
    delivered inData p (.ok c, chunk, compressor) = (.ok c, chunk, ⟨p, compressor⟩) := by
  cases c <;> first | rfl | exact absurd rfl hcopy

/-- On an open file with bytes left the strategy is given the next of them. -/
theorem getNextChunk_eq {p : FileProcessor} (hopen : p.source.isOpen = true)
    (hmore : p.hasNextChunk = true) {chunk : Buffer} (hsize : chunk.actualSize ≤ chunk.capacity)
    (hcap : chunk.capacity ≤ 11 * p.chunkSizeBytes / 10) {bytes : ByteString} {source : InStream}
    (hread : p.source.read p.chunkSizeBytes = (bytes, source)) :
    ∃ inData outData, Passed p.chunkSizeBytes inData outData ∧ inData.contents = bytes ∧
      ∀ codecs, p.getNextChunk codecs chunk =
        delivered inData (p.afterRead source) (p.compressor.compress codecs inData outData) := by
  have hlength := InStream.read_length p.source p.chunkSizeBytes
  have hcount := InStream.read_count p.source p.chunkSizeBytes
  rw [hread] at hlength hcount
  simp only at hcount
  obtain ⟨inData, hinData, hcontents, hwf⟩ := inData_spec bytes hlength
  have hbytes : (p.afterRead source).chunkSizeBytes = p.chunkSizeBytes := rfl
  refine ⟨inData, _, ⟨hwf, hcontents ▸ hlength, resize_eq hsize hcap⟩, hcontents, fun codecs => ?_⟩
  simp only [FileProcessor.getNextChunk, hopen, hmore, Bool.true_eq_false, if_false, hbytes,
    hread, hcount, hinData]
  rfl

section

variable {codecs : Codecs} {p q : FileProcessor} {room : Compressor → Int → ByteString → Prop}
  (hassumed : codecs.Assumed p.chunkSizeBytes room) {content : ByteString} {k : Nat}

include hassumed

theorem getNextChunk_encodes (h : Reading p content k) (hk : k < content.length)
    (htakes : p.compressor.Takes room ((content.drop k).take p.chunkSizeBytes)) (chunk : Buffer)
    (hsize : chunk.actualSize ≤ chunk.capacity)
    (hcap : chunk.capacity ≤ 11 * p.chunkSizeBytes / 10) :
    ∃ c chunk' p', p.getNextChunk codecs chunk = (.ok c, chunk', p') ∧
      Encoded codecs p.chunkSizeBytes ((content.drop k).take p.chunkSizeBytes) c chunk'.contents ∧
      (c = .FPC ↔ p.compressor.UsesFPC) ∧ SameFile p p' ∧
      p'.compressor = p.compressor.next.2 ∧
      p'.hasNextChunk = decide (k + p.chunkSizeBytes < content.length) ∧
      (k + p.chunkSizeBytes < content.length → Reading p' content (k + p.chunkSizeBytes)) := by
  obtain ⟨source, hread, -, hnextChunk, hnextRead⟩ := h.readUpTo.next p.chunkSizeBytes
  have hnext : p.hasNextChunk = true := by
    rw [h.readUpTo.hasNextChunk, decide_eq_true hk]
  obtain ⟨inData, outData, hpassed, hcontents, hgo⟩ :=
    getNextChunk_eq h.isOpen hnext hsize hcap hread
  have hsame : SameFile p ⟨p.afterRead source, p.compressor.next.2⟩ :=
    ⟨rfl, rfl, rfl, rfl, h.configured.next.1, h.configured.next.2⟩
  have hreading (hlt : k + p.chunkSizeBytes < content.length) :
      Reading ⟨p.afterRead source, p.compressor.next.2⟩ content (k + p.chunkSizeBytes) :=
    (hnextRead hlt).reading h.configured.next.1
  rw [hgo codecs, ← hcontents]
  rcases AutomaticCompressionStrategy.compress_cases hassumed hpassed h.configured
      (hcontents ▸ htakes) with
    ⟨hfpc, left, hstrategy⟩ | ⟨c, compressed, hcopy, hfpc, hstrategy, hencoded⟩ |
      ⟨hfpc, name, inputSize, outputCapacity, message, left, hstrategy⟩
  · rw [hstrategy]
    exact ⟨_, _, _, rfl, .copy, iff_of_false (by simp) hfpc, hsame, rfl, hnextChunk, hreading⟩
  · rw [hstrategy, delivered_ok inData _ hcopy]
    exact ⟨_, _, _, rfl, hencoded, hfpc, hsame, rfl, hnextChunk, hreading⟩
  · rw [hstrategy]
    exact ⟨_, _, _, rfl, .copy, iff_of_false (by simp) hfpc, hsame, rfl, hnextChunk, hreading⟩

theorem getNextChunk_beyond (h : Reading p content k) (hk : k < content.length)
    (htakes : ¬ p.compressor.Takes room ((content.drop k).take p.chunkSizeBytes)) {chunk : Buffer}
    (hsize : chunk.actualSize ≤ chunk.capacity)
    (hcap : chunk.capacity ≤ 11 * p.chunkSizeBytes / 10) :
    ∃ chunk' p', p.getNextChunk codecs chunk = (.error .undefinedBehaviour, chunk', p') := by
  obtain ⟨source, hread, -⟩ := h.readUpTo.next p.chunkSizeBytes
  have hnext : p.hasNextChunk = true := by
    rw [h.readUpTo.hasNextChunk, decide_eq_true hk]
  obtain ⟨inData, outData, hpassed, hcontents, hgo⟩ :=
    getNextChunk_eq h.isOpen hnext hsize hcap hread
  obtain ⟨left, hstrategy⟩ :=
    AutomaticCompressionStrategy.compress_beyond hassumed hpassed (hcontents ▸ htakes)
  rw [hgo codecs, hstrategy]
  exact ⟨_, _, rfl⟩

end

/-- The chunks that successive calls of `getNextChunk` give until there is none left. The buffers
passed have at most the capacity they would be given. -/
inductive Chunks (codecs : Codecs) :
    FileProcessor → List (Compressor × ByteString) → FileProcessor → Prop
  | done {p : FileProcessor} (hdone : p.hasNextChunk = false) : Chunks codecs p [] p
  | next {p p' q : FileProcessor} {chunk chunk' : Buffer} {c : Compressor}
      {chunks : List (Compressor × ByteString)} (hnext : p.hasNextChunk = true)
      (hsize : chunk.actualSize ≤ chunk.capacity)
      (hcap : chunk.capacity ≤ 11 * p.chunkSizeBytes / 10)
      (hget : p.getNextChunk codecs chunk = (.ok c, chunk', p'))
      (hrest : Chunks codecs p' chunks q) : Chunks codecs p ((c, chunk'.contents) :: chunks) q

/-- The chunks encode the pieces, in order. -/
def Encodes (codecs : Codecs) (n : Nat) (pieces : List ByteString)
    (chunks : List (Compressor × ByteString)) : Prop :=
  List.Forall₂ (fun piece chunk => Encoded codecs n piece chunk.1 chunk.2) pieces chunks

theorem Encodes.eq_nil_iff {codecs : Codecs} {n : Nat} (hn : 0 < n) {content : ByteString}
    {chunks : List (Compressor × ByteString)} (h : Encodes codecs n (pieces n content) chunks) :
    chunks = [] ↔ content = [] := by
  have hlength := h.length_eq
  rw [← List.length_eq_zero_iff, ← hlength, List.length_eq_zero_iff]
  constructor
  · intro hnil
    rw [← flatten_pieces hn content, hnil, List.flatten_nil]
  · rintro rfl
    exact pieces_nil n

theorem Encodes.ne_nil {codecs : Codecs} {n : Nat} {room : Compressor → Int → ByteString → Prop}
    (hassumed : codecs.Assumed n room) {ps : List ByteString}
    {chunks : List (Compressor × ByteString)} (h : Encodes codecs n ps chunks)
    (hps : ∀ p ∈ ps, p ≠ []) : ∀ chunk ∈ chunks, chunk.2 ≠ [] := by
  induction h with
  | nil => simp
  | cons hhead _ ih =>
    intro chunk hchunk
    rcases List.mem_cons.mp hchunk with rfl | hchunk
    · exact hhead.ne_nil hassumed (hps _ (by simp))
    · exact ih (fun p hp => hps p (by simp [hp])) chunk hchunk

theorem Reading.hasNextChunk {p : FileProcessor} {content : ByteString} {k : Nat}
    (h : Reading p content k) : p.hasNextChunk = decide (k < content.length) :=
  h.readUpTo.hasNextChunk

section

variable {codecs : Codecs} {room : Compressor → Int → ByteString → Prop} {p q : FileProcessor}
  {content : ByteString} {k : Nat}

theorem Reading.pieces_eq (h : Reading p content k) (hk : k < content.length) :
    pieces p.chunkSizeBytes (content.drop k) = (content.drop k).take p.chunkSizeBytes ::
      pieces p.chunkSizeBytes (content.drop (k + p.chunkSizeBytes)) := by
  rw [pieces_of_ne h.configured.pos (by rw [ne_eq, List.drop_eq_nil_iff]; omega), List.drop_drop]

theorem pieces_drop (hle : content.length ≤ k) (n : Nat) : pieces n (content.drop k) = [] := by
  rw [List.drop_of_length_le hle, pieces_nil]

/-- What the chunks of a file are, and what they leave of the processor: its strategy had room for
every piece. -/
theorem Chunks.encodes {chunks : List (Compressor × ByteString)} (h : Chunks codecs p chunks q)
    (hassumed : codecs.Assumed p.chunkSizeBytes room) (hreading : Reading p content k) :
    p.compressor.TakesAll room (pieces p.chunkSizeBytes (content.drop k)) ∧
      Encodes codecs p.chunkSizeBytes (pieces p.chunkSizeBytes (content.drop k)) chunks ∧
      (∀ chunk ∈ chunks, chunk.1 = .FPC ↔ p.compressor.UsesFPC) ∧ SameFile p q ∧
      q.compressor = p.compressor.after chunks.length := by
  induction h generalizing k with
  | done hdone =>
    rw [hreading.hasNextChunk, decide_eq_false_iff_not] at hdone
    rw [pieces_drop (not_lt.mp hdone)]
    exact ⟨trivial, .nil, by simp, .refl hreading.configured, rfl⟩
  | @next p p' q chunk chunk' c chunks hnext hsize hcap hget hrest ih =>
    rw [hreading.hasNextChunk, decide_eq_true_iff] at hnext
    have htakes : p.compressor.Takes room ((content.drop k).take p.chunkSizeBytes) := by
      by_contra hnot
      obtain ⟨chunk₁, p₁, hgo⟩ := getNextChunk_beyond hassumed hreading hnext hnot hsize hcap
      simp [hget] at hgo
    obtain ⟨c₁, chunk₁, p₁, hgo, hencoded, hfpc, hsame, hstrategy, hmore, hnextReading⟩ :=
      getNextChunk_encodes hassumed hreading hnext htakes chunk hsize hcap
    rw [hget, Prod.mk.injEq, Prod.mk.injEq, Except.ok.injEq] at hgo
    obtain ⟨rfl, rfl, rfl⟩ := hgo
    rw [hreading.pieces_eq hnext]
    by_cases hlt : k + p.chunkSizeBytes < content.length
    · rw [← hsame.chunkSizeBytes] at hassumed
      obtain ⟨hrestTakes, hrestEncoded, hrestFPC, hrestSame, hleft⟩ :=
        ih hassumed (hnextReading hlt)
      rw [hsame.chunkSizeBytes] at hrestEncoded hrestTakes
      rw [hstrategy] at hrestTakes hleft
      refine ⟨⟨htakes, hrestTakes⟩, .cons hencoded hrestEncoded, fun x hx => ?_,
        hsame.trans hrestSame, hleft⟩
      rcases List.mem_cons.mp hx with rfl | hx
      · exact hfpc
      · exact (hrestFPC x hx).trans hsame.usesFPC
    · rw [decide_eq_false hlt] at hmore
      cases hrest with
      | next hnext' => simp [hmore] at hnext'
      | done =>
        rw [pieces_drop (not_lt.mp hlt)]
        exact ⟨⟨htakes, trivial⟩, .cons hencoded .nil, by simpa using hfpc, hsame, hstrategy⟩

/-- A file can be given in chunks exactly if the strategy has room for its pieces. -/
theorem exists_chunks_iff (hassumed : codecs.Assumed p.chunkSizeBytes room)
    (hreading : Reading p content k) : (∃ chunks q, Chunks codecs p chunks q) ↔
      p.compressor.TakesAll room (pieces p.chunkSizeBytes (content.drop k)) := by
  refine ⟨fun ⟨chunks, q, h⟩ => (h.encodes hassumed hreading).1, fun htakes => ?_⟩
  induction hn : content.length - k using Nat.strongRecOn generalizing p k with
  | ind n ih =>
    have hmore := hreading.hasNextChunk
    by_cases hk : k < content.length
    · rw [decide_eq_true hk] at hmore
      rw [hreading.pieces_eq hk] at htakes
      obtain ⟨c, chunk, p', hget, -, -, hsame, hstrategy, hnext, hnextReading⟩ :=
        getNextChunk_encodes hassumed hreading hk htakes.1 .empty (Nat.le_refl _) (Nat.zero_le _)
      have hrest : ∃ chunks q, Chunks codecs p' chunks q := by
        by_cases hlt : k + p.chunkSizeBytes < content.length
        · have hpos := hreading.configured.pos
          rw [← hsame.chunkSizeBytes] at hassumed
          apply ih (content.length - (k + p.chunkSizeBytes)) (by omega) hassumed
            (hnextReading hlt) _ rfl
          rw [hstrategy, hsame.chunkSizeBytes]
          exact htakes.2
        · rw [decide_eq_false hlt] at hnext
          exact ⟨[], p', .done hnext⟩
      obtain ⟨chunks, q, hchunks⟩ := hrest
      exact ⟨_, q, .next hmore (Nat.le_refl _) (Nat.zero_le _) hget hchunks⟩
    · rw [decide_eq_false hk] at hmore
      exact ⟨[], p, .done hmore⟩

end

theorem reading_of_openNextFile {disk : Disk Path} {p p' : FileProcessor} {fileSize : Nat}
    (h : p.openNextFile disk = (.ok fileSize, p')) (hnext : p.hasNextFile = true)
    (hconfigured : p.compressor.Configured p.chunkSizeBytes) :
    Reading p' p'.source.content 0 ∧ p'.compressor = p.compressor ∧
      p'.chunkSize = p.chunkSize ∧ p'.chunkSizeBytes = p.chunkSizeBytes ∧
      disk p'.currentFileName = some p'.source.content ∧ fileSize = p'.source.content.length := by
  obtain ⟨hclosed, hsize, hbytes⟩ := p.takeNextFile_kept disk
  simp only [FileProcessor.openNextFile, hnext, if_true] at h
  generalize p.takeNextFile disk = r at h hclosed hsize hbytes
  obtain ⟨_ | _, s⟩ := r
  · simp at h
  · simp only at h hclosed hsize hbytes
    cases hfile : disk s.currentFileName with
    | none => simp [hfile, InStream.openFile] at h
    | some content =>
      rw [hfile, InStream.openFile_some hclosed] at h
      simp only [Bool.false_eq_true, if_false, Prod.mk.injEq, Except.ok.injEq] at h
      obtain ⟨rfl, rfl⟩ := h
      rw [← hbytes] at hconfigured
      exact ⟨⟨rfl, rfl, rfl, rfl, rfl, rfl, rfl, hconfigured⟩, rfl, hsize, hbytes, hfile, rfl⟩

end FileProcessor

end Autocomp

import Autocomp.Compression.LibraryCodecs
import Autocomp.Network.Calls
import Autocomp.Network.Transfer

/-!
# Exceptions that leave a request

The task that `processRequest` submits holds references to its locals, so the function must not leave
its scope before that task has finished. It does not as long as every call finds what it must; a call
that does not lets its exception out.
-/

namespace Autocomp.Server.Unwinding

open AutoCompCompressor DirectoryExplorer FileStream Transition

/-- The errors of `stat` have a text. -/
def Listed (w : World) (e : DirectoryExplorer) : Prop :=
  match e.directory with
  | .cons name node _ => ∀ errno, w.statError (entryPath e.currentDirectory name) node = some errno →
    (errorMessages.lookup errno).isSome = true
  | .nil => True

/-- The adaptive compressor can come to a decision. -/
def Decides (w : World) (tree : DecisionTree) (inData : ByteString) : Prop :=
  ∀ currentBytecounting, counted w.statics inData = some currentBytecounting →
    ∃ idle, w.sendBufferIdle = .ok idle ∧
      (idle = false → tree.nFeatures = 3 ∧ tree.Inside (w.point currentBytecounting))

def Supported : Processor → Prop
  | .preCompressing p => p.compressor ≠ .SNAPPY
  | .file .. => True

/-- The strategy comes to something for the piece that is read, with room for what it writes. -/
def Answers (libraries : Libraries) (w : World) (tree : DecisionTree) (s : FileProcessingStrategy)
    (strategy : Strategy) : Prop :=
  let piece := (s.source.read s.chunkSizeBytes).1
  (strategy = .adaptive → Decides w tree piece) ∧
    ∀ now, strategy.forChunk w tree piece = some (.ok now) →
      now.Takes (libraries.HasRoom (11 * s.chunkSizeBytes / 10)) piece

def Answered (libraries : Libraries) (w : World) (tree : DecisionTree) : Processor → Prop
  | .file s strategy => s.source.isOpen = true → s.hasNextChunk = true →
    Answers libraries w tree s strategy
  | .preCompressing _ => True

/-- What the next call must find if no exception is to leave. -/
def Caught (libraries : Libraries) (tree : DecisionTree) (w : World) : Control → Prop
  | .finding _ e _ _ => Listed w e
  | .opening p _ => Supported p
  | .chunks p _ _ => Answered libraries w tree p
  | .files .. | .ended | .escaped _ => True

section

variable {codecs : Codecs} {libraries : Libraries} {tree : DecisionTree} {protobuf : Protobuf}
  {training : Bool} {w : World}

theorem failure_caught (before : ByteString) (path : Path) (errno : Nat) :
    catchesOpening (DirectoryExplorer.failure before path errno) = true ↔
      (errorMessages.lookup errno).isSome = true := by
  unfold DirectoryExplorer.failure
  cases errorMessages.lookup errno with
  | none => exact iff_of_false Bool.false_ne_true Bool.false_ne_true
  | some text => exact iff_of_true rfl rfl

theorem findRound_caught {e e' : DirectoryExplorer} {x : Exn} (h : findRound w e = .failed x e') :
    catchesOpening x = true ↔ Listed w e := by
  unfold findRound at h
  unfold Listed
  cases hdirectory : e.directory with
  | nil =>
    simp only [hdirectory] at h
    split at h <;> contradiction
  | cons name node rest =>
    simp only [hdirectory] at h
    cases herror : w.statError (entryPath e.currentDirectory name) node with
    | none =>
      simp only [herror] at h
      split at h <;> contradiction
    | some errno =>
      simp only [herror, Round.failed.injEq] at h
      rw [← h.1, failure_caught]
      constructor
      · intro hlisted errno' heq
        rw [herror, Option.some.injEq] at heq
        rwa [← heq]
      · intro hlisted
        exact hlisted errno herror

theorem listed_of_findRound {e : DirectoryExplorer}
    (h : ∀ x e', findRound w e ≠ .failed x e') : Listed w e := by
  unfold Listed
  cases hdirectory : e.directory with
  | nil => trivial
  | cons name node rest =>
    intro errno herror
    have hfailed : findRound w e = .failed (DirectoryExplorer.failure (ascii "Could not stat path ")
        (entryPath e.currentDirectory name) errno) { e with directory := rest } := by
      simp only [findRound, hdirectory, herror]
    exact absurd hfailed (h _ _)

theorem decision_ok_iff {inData : ByteString} {r : Except Exn Decision}
    (h : w.decision tree inData = some r) : (∃ d, r = .ok d) ↔ Decides w tree inData := by
  unfold World.decision at h
  unfold Decides
  cases hcounted : counted w.statics inData with
  | none =>
    rw [hcounted, Option.some.injEq] at h
    exact iff_of_true ⟨_, h.symm⟩ fun _ hsome => by contradiction
  | some n =>
    simp only [hcounted] at h
    cases hidle : w.sendBufferIdle with
    | error message =>
      rw [hidle, Option.some.injEq] at h
      apply iff_of_false
      · intro hok
        obtain ⟨d, hd⟩ := hok
        rw [hd] at h
        contradiction
      · intro hdecides
        obtain ⟨idle, hok, -⟩ := hdecides n rfl
        contradiction
    | ok idle =>
      cases idle with
      | true =>
        rw [hidle, Option.some.injEq] at h
        apply iff_of_true ⟨_, h.symm⟩
        intro n' _
        exact ⟨true, rfl, fun hfalse => by contradiction⟩
      | false =>
        simp only [hidle] at h
        obtain ⟨answer, hanswer, hmap⟩ := Option.map_eq_some_iff.mp h
        have hiff := DecisionTree.classify_ok_iff hanswer
        constructor
        · intro hok n' hn'
          obtain ⟨d, hd⟩ := hok
          rw [← Option.some.inj hn']
          refine ⟨false, rfl, fun _ => ?_⟩
          cases answer with
          | error x =>
            rw [hd] at hmap
            contradiction
          | ok c =>
            obtain ⟨hlength, hinside⟩ := hiff.mp ⟨c, rfl⟩
            exact ⟨hlength.symm, hinside⟩
        · intro hdecides
          obtain ⟨idle, hok, hrest⟩ := hdecides n rfl
          obtain ⟨hfeatures, hinside⟩ := hrest (Except.ok.inj hok).symm
          obtain ⟨c, rfl⟩ := hiff.mpr ⟨hfeatures.symm, hinside⟩
          exact ⟨_, hmap.symm⟩

theorem decision_error {inData : ByteString} {x : Exn}
    (h : w.decision tree inData = some (.error x)) (message : ByteString) :
    x ≠ .ioError message := by
  unfold World.decision at h
  split at h
  · simp at h
  · split at h
    · rw [← Except.error.inj (Option.some.inj h)]
      exact Exn.noConfusion
    · simp at h
    · obtain ⟨answer, hanswer, hmap⟩ := Option.map_eq_some_iff.mp h
      cases answer with
      | ok c => contradiction
      | error x' =>
        rw [← Except.error.inj hmap]
        rcases DecisionTree.classify_error hanswer with ⟨m, rfl⟩ | rfl <;> exact Exn.noConfusion

/-- A strategy for one chunk uses FPC with a level that FPC has. -/
def Leveled (s : AutomaticCompressionStrategy) : Prop :=
  ∀ level, s.next.1 = (.FPC, level) → level ≤ 28

def Strategy.Leveled : Strategy → Prop
  | .fixed s | .training s => Unwinding.Leveled s
  | .adaptive => True

theorem leveled_copy : Leveled .copy := by
  intro level h
  simp [AutomaticCompressionStrategy.next] at h

theorem leveled_autoComp (decisions : Nat → Decision) : Leveled (.autoComp decisions) := by
  intro level h
  simp only [AutomaticCompressionStrategy.next] at h
  split at h
  · simp at h
  · split at h
    · rename_i c l hhas
      rw [Prod.mk.injEq] at h
      rw [h.1] at hhas
      simp [AutomaticCompressionStrategy.hasCompressor] at hhas
    · simp at h

theorem Strategy.Leveled.forChunk {strategy : Strategy} (h : strategy.Leveled)
    {inData : ByteString} {now : AutomaticCompressionStrategy}
    (hnow : strategy.forChunk w tree inData = some (.ok now)) : Unwinding.Leveled now := by
  cases strategy with
  | fixed s =>
    rw [← Except.ok.inj (Option.some.inj hnow)]
    exact h
  | training s =>
    rw [← Except.ok.inj (Option.some.inj hnow)]
    split
    · exact leveled_copy
    · exact h
  | adaptive =>
    obtain ⟨r, -, hr⟩ := Option.map_eq_some_iff.mp hnow
    cases r with
    | error x => contradiction
    | ok d =>
      rw [← Except.ok.inj hr]
      exact leveled_autoComp _

/-- With room for what it writes, a strategy throws nothing but a `CompressionError`. -/
theorem compress_outcome {n : Nat} {room : Compressor → Int → ByteString → Prop}
    (hassumed : codecs.Assumed n room) {now : AutomaticCompressionStrategy} (hnow : Leveled now)
    (hlow : 400 ≤ n) (hhigh : n ≤ 524288) {inData outData : Buffer}
    (hpassed : Passed n inData outData) (htakes : now.Takes room inData.contents) :
    (∃ c out s, now.compress codecs inData outData = (.ok c, out, s)) ∨
    ∃ name inputSize outputCapacity message out s, now.compress codecs inData outData =
      (.error (.compressionError name inputSize outputCapacity message), out, s) := by
  unfold AutomaticCompressionStrategy.Takes at htakes
  rcases hnext : now.next with ⟨⟨c, level⟩, s⟩
  rw [hnext] at htakes
  by_cases hcopy : c = .COPY
  · exact .inl ⟨.COPY, outData, s, by simp [AutomaticCompressionStrategy.compress, hnext, hcopy]⟩
  · have hlevel (hfpc : c = .FPC) : level ≤ 28 := hnow level (by rw [hnext, hfpc])
    rcases codecs.compress_cases hassumed hcopy hlevel hlow hhigh hpassed
        (fun hfpc => htakes hfpc hcopy) with
      ⟨compressed, hgo, -⟩ | ⟨-, name, inputSize, outputCapacity, message, left, hgo⟩
    · exact .inl ⟨c, compressed, s,
        by simp [AutomaticCompressionStrategy.compress, hnext, hcopy, hgo]⟩
    · exact .inr ⟨name, inputSize, outputCapacity, message, left, s,
        by simp [AutomaticCompressionStrategy.compress, hnext, hcopy, hgo]⟩

section

variable {s : FileProcessingStrategy} {room : Compressor → Int → ByteString → Prop}
  (hassumed : codecs.Assumed s.chunkSizeBytes room) {now : AutomaticCompressionStrategy}
  {chunk : Buffer} (hle : chunk.actualSize ≤ chunk.capacity)
  (hcap : chunk.capacity ≤ 11 * s.chunkSizeBytes / 10)

include hassumed hle hcap

/-- `FileProcessor::getNextChunk` throws nothing but an `IOError`. -/
theorem fileChunk_outcome (hnow : Leveled now) (hlow : 400 ≤ s.chunkSizeBytes)
    (hhigh : s.chunkSizeBytes ≤ 524288) (htakes : s.source.isOpen = true →
      s.hasNextChunk = true → now.Takes room (s.source.read s.chunkSizeBytes).1) :
    (∃ c chunk' p, FileProcessor.getNextChunk codecs ⟨s, now⟩ chunk = (.ok c, chunk', p) ∧
      p.chunkSizeBytes = s.chunkSizeBytes) ∨
    ∃ message, FileProcessor.getNextChunk codecs ⟨s, now⟩ chunk =
      (.error (.ioError message), chunk, ⟨s, now⟩) := by
  by_cases hclosed : s.source.isOpen = false
  · exact .inr ⟨_, if_pos hclosed⟩
  by_cases hdone : s.hasNextChunk = false
  · refine .inr ⟨_, (if_neg hclosed).trans (if_pos hdone)⟩
  left
  rw [Bool.not_eq_false] at hclosed hdone
  have htaken := htakes hclosed hdone
  rcases hread : s.source.read s.chunkSizeBytes with ⟨bytes, source⟩
  obtain ⟨inData, outData, hpassed, hcontents, hgo⟩ :=
    FileProcessor.getNextChunk_eq (p := ⟨s, now⟩) hclosed hdone hle hcap hread
  rw [hgo codecs]
  rw [hread, ← hcontents] at htaken
  rcases compress_outcome hassumed hnow hlow hhigh hpassed htaken with
    ⟨c, out, s', hcompress⟩ | ⟨name, inputSize, outputCapacity, message, out, s', hcompress⟩
  · rw [hcompress]
    cases c <;> exact ⟨_, _, _, rfl, rfl⟩
  · rw [hcompress]
    exact ⟨_, _, _, rfl, rfl⟩

theorem fileChunk_beyond (hopen : s.source.isOpen = true) (hmore : s.hasNextChunk = true)
    (htakes : ¬ now.Takes room (s.source.read s.chunkSizeBytes).1) :
    ∃ chunk' p, FileProcessor.getNextChunk codecs ⟨s, now⟩ chunk =
      (.error .undefinedBehaviour, chunk', p) := by
  rcases hread : s.source.read s.chunkSizeBytes with ⟨bytes, source⟩
  obtain ⟨inData, outData, hpassed, hcontents, hgo⟩ :=
    FileProcessor.getNextChunk_eq (p := ⟨s, now⟩) hopen hmore hle hcap hread
  rw [hread, ← hcontents] at htakes
  obtain ⟨left, hcompress⟩ :=
    AutomaticCompressionStrategy.compress_beyond hassumed hpassed htakes
  rw [hgo codecs, hcompress]
  exact ⟨_, _, rfl⟩

end

theorem imageChunk_outcome (disk : Disk Path) (p : PreCompressingFileProcessor) {chunk : Buffer}
    (hle : chunk.actualSize ≤ chunk.capacity) :
    (∃ c chunk' p' disk', p.getNextChunk disk chunk = (.ok c, chunk', p', disk')) ∨
    ∃ message, p.getNextChunk disk chunk = (.error (.ioError message), chunk, p, disk) := by
  unfold PreCompressingFileProcessor.getNextChunk
  by_cases hclosed : p.source.isOpen = false
  · rw [if_pos hclosed]
    exact .inr ⟨_, rfl⟩
  rw [if_neg hclosed]
  by_cases hdone : p.hasNextChunk = false
  · rw [if_pos hdone]
    exact .inr ⟨_, rfl⟩
  rw [if_neg hdone]
  left
  have hlength := InStream.read_length p.source p.chunkSizeBytes
  set room := if chunk.capacity < p.chunkSizeBytes then chunk.resize p.chunkSizeBytes else chunk
  have hroom : p.chunkSizeBytes ≤ room.capacity := resize_capacity hle
  obtain ⟨b, hb, -, -⟩ := setSize_contents (p.source.read p.chunkSizeBytes).1
    (Nat.le_trans hlength hroom)
  rw [← InStream.read_count] at hb
  simp only [hb]
  split <;> exact ⟨_, _, _, _, rfl⟩

/-- The sizes and the level with which no compressor fails otherwise. -/
def Processor.Sound : Processor → Prop
  | .file s strategy => strategy.Leveled ∧ 400 ≤ s.chunkSizeBytes ∧ s.chunkSizeBytes ≤ 524288
  | .preCompressing _ => True

structure Ready (p : Processor) (chunk : Buffer) : Prop where
  sound : p.Sound
  size_le : chunk.actualSize ≤ chunk.capacity
  capacity_le : chunk.capacity ≤ 11 * p.base.chunkSizeBytes / 10

def Control.Ready : Control → Prop
  | .files p chunk | .finding p _ chunk _ | .opening p chunk | .chunks p chunk _ =>
    Unwinding.Ready p chunk
  | .ended | .escaped _ => True

theorem Ready.withBase {p : Processor} {chunk : Buffer} (h : Ready p chunk)
    {s : FileProcessingStrategy} (hs : s.chunkSizeBytes = p.base.chunkSizeBytes) :
    Ready (p.withBase s) chunk := by
  cases p with
  | file t strategy =>
    refine ⟨⟨h.sound.1, ?_⟩, h.size_le, ?_⟩
    · rw [hs]
      exact h.sound.2
    · change chunk.capacity ≤ 11 * s.chunkSizeBytes / 10
      rw [hs]
      exact h.capacity_le
  | preCompressing p =>
    refine ⟨trivial, h.size_le, ?_⟩
    change chunk.capacity ≤ 11 * s.chunkSizeBytes / 10
    rw [hs]
    exact h.capacity_le

theorem Ready.empty {p : Processor} (h : p.Sound) : Ready p .empty :=
  ⟨h, Nat.le_refl 0, Nat.zero_le _⟩

theorem closeSource_chunkSizeBytes (s : FileProcessingStrategy) :
    (closeSource s).chunkSizeBytes = s.chunkSizeBytes := by
  unfold closeSource
  split <;> rfl

variable (protobuf) in
theorem handleOpening_ready {p : Processor} {chunk : Buffer} (h : Ready p chunk) (x : Exn) :
    (handleOpening protobuf p chunk x).1.Ready ∧
      ((∃ y, (handleOpening protobuf p chunk x).1 = .escaped y) ↔ ¬ catchesOpening x = true) := by
  unfold handleOpening
  split
  · rename_i hcaught
    exact ⟨h, iff_of_false (fun hy => by simp at hy) (not_not_intro hcaught)⟩
  · rename_i hcaught
    exact ⟨trivial, iff_of_true ⟨x, rfl⟩ hcaught⟩

theorem compressFile_caught {p : PreCompressingFileProcessor} {x : Exn}
    (h : compressFile w p = .error x) : catchesOpening x = true ↔ p.compressor ≠ .SNAPPY := by
  unfold compressFile at h
  split at h
  · contradiction
  · rename_i hcopy
    split at h
    · rename_i hscript
      split at h
      · rw [← Except.error.inj h]
        apply iff_of_true rfl
        intro hsnappy
        rw [hsnappy] at hscript
        contradiction
      · contradiction
    · rename_i hscript
      rw [← Except.error.inj h]
      apply iff_of_false Bool.false_ne_true
      intro hne
      cases hc : p.compressor <;> simp [hc, Compressor.hasScript] at hcopy hscript hne

theorem compressFile_supported {p : PreCompressingFileProcessor} (h : compressFile w p = .ok ()) :
    p.compressor ≠ .SNAPPY := by
  intro hsnappy
  rw [compressFile, hsnappy] at h
  contradiction

theorem openFile_ready {p : Processor} {chunk : Buffer} (h : Ready p chunk) :
    Ready (p.openFile w).2 chunk := by
  cases p with
  | file s strategy =>
    unfold Processor.openFile
    simp only
    split <;> exact ⟨h.sound, h.size_le, h.capacity_le⟩
  | preCompressing p =>
    unfold Processor.openFile
    simp only
    split
    · exact ⟨trivial, h.size_le, h.capacity_le⟩
    · split
      · exact ⟨trivial, h.size_le, h.capacity_le⟩
      · split <;> exact ⟨trivial, h.size_le, h.capacity_le⟩

theorem openFile_caught {p : Processor} {x : Exn} (h : (p.openFile w).1 = .error x) :
    catchesOpening x = true ↔ Supported p := by
  cases p with
  | file s strategy =>
    unfold Processor.openFile at h
    simp only at h
    split at h
    · rw [← Except.error.inj h]
      exact iff_of_true rfl trivial
    · contradiction
  | preCompressing p =>
    unfold Processor.openFile at h
    simp only at h
    split at h
    · rename_i y hcompress
      rw [← Except.error.inj h]
      exact compressFile_caught hcompress
    · rename_i hcompress
      have hsupported : p.compressor ≠ .SNAPPY := compressFile_supported hcompress
      split at h
      · rw [← Except.error.inj h]
        exact iff_of_true rfl hsupported
      · split at h
        · rw [← Except.error.inj h]
          exact iff_of_true rfl hsupported
        · contradiction

theorem openFile_supported {p : Processor} {fileSize : Nat}
    (h : (p.openFile w).1 = .ok fileSize) : Supported p := by
  cases p with
  | file s strategy => trivial
  | preCompressing p =>
    unfold Processor.openFile at h
    simp only at h
    split at h
    · contradiction
    · rename_i hcompress
      exact (compressFile_supported hcompress : p.compressor ≠ .SNAPPY)

/-- The outcomes of `getNextChunk`: a chunk or an `IOError`, and anything else exactly where the
strategy comes to nothing for the piece or has no room. -/
inductive ChunkOutcome (libraries : Libraries) (w : World) (tree : DecisionTree) (p : Processor)
    (chunk : Buffer) : Except Exn Compressor × Buffer × Processor → Prop
  | ok {c : Compressor} {chunk' : Buffer} {p' : Processor} (hanswered : Answered libraries w tree p)
      (hsound : p'.Sound) : ChunkOutcome libraries w tree p chunk (.ok c, chunk', p')
  | ioError {message : ByteString} (hanswered : Answered libraries w tree p) :
      ChunkOutcome libraries w tree p chunk (.error (.ioError message), chunk, p)
  | thrown {x : Exn} {chunk' : Buffer} {p' : Processor}
      (hunanswered : ¬ Answered libraries w tree p) (hx : ∀ message, x ≠ .ioError message) :
      ChunkOutcome libraries w tree p chunk (.error x, chunk', p')

theorem answers_of_forChunk {s : FileProcessingStrategy} {strategy : Strategy}
    {now : AutomaticCompressionStrategy}
    (hnow : strategy.forChunk w tree (s.source.read s.chunkSizeBytes).1 = some (.ok now)) :
    Answers libraries w tree s strategy ↔ now.Takes
      (libraries.HasRoom (11 * s.chunkSizeBytes / 10)) (s.source.read s.chunkSizeBytes).1 := by
  constructor
  · intro hanswers
    exact hanswers.2 now hnow
  · intro htakes
    refine ⟨?_, fun now' hnow' => ?_⟩
    · rintro rfl
      obtain ⟨r, hdecision, hr⟩ := Option.map_eq_some_iff.mp hnow
      cases r with
      | error x => contradiction
      | ok d => exact (decision_ok_iff hdecision).mp ⟨d, rfl⟩
    · rw [hnow, Option.some.injEq, Except.ok.injEq] at hnow'
      rwa [← hnow']

theorem forChunk_error {s : FileProcessingStrategy} {strategy : Strategy} {x : Exn}
    (hnow : strategy.forChunk w tree (s.source.read s.chunkSizeBytes).1 = some (.error x)) :
    ¬ Answers libraries w tree s strategy ∧ ∀ message, x ≠ .ioError message := by
  cases strategy with
  | fixed | training =>
    have hok := Option.some.inj hnow
    contradiction
  | adaptive =>
    obtain ⟨r, hdecision, hr⟩ := Option.map_eq_some_iff.mp hnow
    cases r with
    | ok d => contradiction
    | error y =>
      rw [Except.error.inj hr] at hdecision
      refine ⟨fun hanswers => ?_, decision_error hdecision⟩
      obtain ⟨d, hd⟩ := (decision_ok_iff hdecision).mpr (hanswers.1 rfl)
      contradiction

section

variable (hdocumented : libraries.Documented) (hlibrary : codecs.library = libraries.library)

include hdocumented hlibrary

theorem getNextChunk_outcome {p : Processor} {chunk : Buffer} (hready : Ready p chunk)
    {r : Except Exn Compressor × Buffer × Processor}
    (h : p.getNextChunk codecs tree w chunk = some r) :
    ChunkOutcome libraries w tree p chunk r := by
  cases p with
  | preCompressing p =>
    rw [Processor.getNextChunk] at h
    rcases imageChunk_outcome w.disk p hready.size_le with
      ⟨c, chunk', p', disk', hgo⟩ | ⟨message, hgo⟩
    · rw [hgo, Option.some.injEq] at h
      rw [← h]
      exact .ok trivial trivial
    · rw [hgo, Option.some.injEq] at h
      rw [← h]
      exact .ioError trivial
  | file s strategy =>
    obtain ⟨hleveled, hlow, hhigh⟩ := hready.sound
    have hassumed := hdocumented.assumed hlibrary hhigh
    have houtcome {now : AutomaticCompressionStrategy} (hnow : Leveled now) :=
      fileChunk_outcome hassumed hready.size_le hready.capacity_le hnow hlow hhigh
    rw [Processor.getNextChunk] at h
    split at h
    · rename_i hreading
      rw [Bool.and_eq_true] at hreading
      obtain ⟨now, hnow, hmap⟩ := Option.map_eq_some_iff.mp h
      have hunanswered (hnot : ¬ Answers libraries w tree s strategy) :
          ¬ Answered libraries w tree (.file s strategy) :=
        fun hanswered => hnot (hanswered hreading.1 hreading.2)
      cases now with
      | error x =>
        obtain ⟨hnot, hx⟩ := forChunk_error hnow
        rw [← hmap]
        exact .thrown (hunanswered hnot) hx
      | ok now =>
        have hiff : Answers libraries w tree s strategy ↔ _ := answers_of_forChunk hnow
        by_cases htakes : now.Takes (libraries.HasRoom (11 * s.chunkSizeBytes / 10))
            (s.source.read s.chunkSizeBytes).1
        · have hanswered : Answered libraries w tree (.file s strategy) :=
            fun _ _ => hiff.mpr htakes
          rcases houtcome (hleveled.forChunk hnow) (fun _ _ => htakes) with
            ⟨c, chunk', p', hgo, hsize⟩ | ⟨message, hgo⟩
          · simp only [hgo] at hmap
            rw [← hmap]
            exact .ok hanswered ⟨hleveled, by rw [hsize]; exact ⟨hlow, hhigh⟩⟩
          · simp only [hgo] at hmap
            rw [← hmap]
            exact .ioError hanswered
        · obtain ⟨chunk', p', hgo⟩ := fileChunk_beyond hassumed hready.size_le hready.capacity_le
            hreading.1 hreading.2 htakes
          simp only [hgo] at hmap
          rw [← hmap]
          exact .thrown (hunanswered (mt hiff.mp htakes)) fun message => Exn.noConfusion
    · rename_i hreading
      have hidle {goal : Prop} (hopen : s.source.isOpen = true) (hmore : s.hasNextChunk = true) :
          goal := by
        rw [hopen, hmore] at hreading
        contradiction
      rcases houtcome leveled_copy hidle with ⟨c, chunk', p', hgo, hsize⟩ | ⟨message, hgo⟩
      · rw [hgo, Option.some.injEq] at h
        rw [← h]
        exact .ok hidle ⟨hleveled, by rw [hsize]; exact ⟨hlow, hhigh⟩⟩
      · rw [hgo, Option.some.injEq] at h
        rw [← h]
        exact .ioError hidle

end

/-- What a call may leave: something the next one can start with, and an exception exactly where the
call has found what it must not. -/
structure Leaves (libraries : Libraries) (tree : DecisionTree) (w : World) (before after : Control) :
    Prop where
  ready : after.Ready
  escaped : (∃ x, after = .escaped x) ↔ ¬ Caught libraries tree w before

theorem advance_files {p : Processor} {chunk : Buffer} (hready : Ready p chunk)
    {after : Control} {sent : List Sent}
    (h : advance codecs tree protobuf training w (.files p chunk) = some (after, sent)) :
    Leaves libraries tree w (.files p chunk) after := by
  have hclosed := closeSource_chunkSizeBytes p.base
  have hcaught : ¬ ¬ Caught libraries tree w (.files p chunk) := not_not_intro trivial
  have hend {c : Control} (hc : endOfLoops protobuf training = (c, sent)) :
      Leaves libraries tree w (.files p chunk) c := by
    rw [← (Prod.mk.inj hc).1]
    exact ⟨trivial, iff_of_false (fun hx => by simp at hx) hcaught⟩
  rw [advance] at h
  split at h
  · exact hend (Option.some.inj h)
  · split at h
    · simp only at h
      split at h
      · rw [Option.some.injEq, Prod.mk.injEq] at h
        rw [← h.1]
        exact ⟨hready.withBase hclosed, iff_of_false (fun hx => by simp at hx) hcaught⟩
      · rw [Option.some.injEq, Prod.mk.injEq] at h
        rw [← h.1]
        exact ⟨hready.withBase hclosed, iff_of_false (fun hx => by simp at hx) hcaught⟩
    · exact hend (Option.some.inj h)

theorem advance_finding {p : Processor} {e : DirectoryExplorer} {chunk : Buffer}
    {currentFile : Path} (hready : Ready p chunk) {after : Control} {sent : List Sent}
    (h : advance codecs tree protobuf training w (.finding p e chunk currentFile) =
      some (after, sent)) : Leaves libraries tree w (.finding p e chunk currentFile) after := by
  rw [advance] at h
  split at h
  · rename_i e' hround
    have hlisted : Listed w e := listed_of_findRound fun x e'' hx => by
      rw [hround] at hx
      contradiction
    rw [Option.some.injEq, Prod.mk.injEq] at h
    rw [← h.1]
    exact ⟨hready, iff_of_false (fun hx => by simp at hx) (not_not_intro hlisted)⟩
  · rename_i e' hround
    have hlisted : Listed w e := listed_of_findRound fun x e'' hx => by
      rw [hround] at hx
      contradiction
    rw [Option.some.injEq, Prod.mk.injEq] at h
    rw [← h.1]
    exact ⟨hready.withBase rfl, iff_of_false (fun hx => by simp at hx) (not_not_intro hlisted)⟩
  · rename_i x e' hround
    have hcaught := findRound_caught hround
    have hleft := handleOpening_ready protobuf (hready.withBase
      (s := { p.base with directoryExplorer := some e' }) rfl) x
    rw [Option.some.injEq] at h
    rw [h] at hleft
    exact ⟨hleft.1, hleft.2.trans (not_congr hcaught)⟩

theorem advance_opening {p : Processor} {chunk : Buffer} (hready : Ready p chunk)
    {after : Control} {sent : List Sent}
    (h : advance codecs tree protobuf training w (.opening p chunk) = some (after, sent)) :
    Leaves libraries tree w (.opening p chunk) after := by
  have hopened := openFile_ready (w := w) hready
  rw [advance] at h
  split at h
  · rename_i x p' hopen
    rw [hopen] at hopened
    have hcaught := openFile_caught (congrArg Prod.fst hopen)
    have hleft := handleOpening_ready protobuf hopened x
    rw [Option.some.injEq] at h
    rw [h] at hleft
    exact ⟨hleft.1, hleft.2.trans (not_congr hcaught)⟩
  · rename_i fileSize p' hopen
    rw [hopen] at hopened
    have hsupported := openFile_supported (congrArg Prod.fst hopen)
    rw [Option.some.injEq, Prod.mk.injEq] at h
    rw [← h.1]
    exact ⟨hopened, iff_of_false (fun hx => by simp at hx) (not_not_intro hsupported)⟩

section

variable (hdocumented : libraries.Documented) (hlibrary : codecs.library = libraries.library)

include hdocumented hlibrary

theorem advance_chunks {p : Processor} {chunk : Buffer} {nChunks : Nat} (hready : Ready p chunk)
    {after : Control} {sent : List Sent}
    (h : advance codecs tree protobuf training w (.chunks p chunk nChunks) = some (after, sent)) :
    Leaves libraries tree w (.chunks p chunk nChunks) after := by
  rw [advance] at h
  split at h
  · obtain ⟨r, hget, hmap⟩ := Option.map_eq_some_iff.mp h
    cases getNextChunk_outcome hdocumented hlibrary hready hget with
    | ok hanswered hsound =>
      rw [← (Prod.mk.inj hmap).1]
      exact ⟨.empty hsound, iff_of_false (fun hx => by simp at hx) (not_not_intro hanswered)⟩
    | ioError hanswered =>
      rw [← (Prod.mk.inj hmap).1]
      exact ⟨hready, iff_of_false (fun hx => by simp at hx) (not_not_intro hanswered)⟩
    | @thrown x chunk' p' hunanswered hx =>
      have hescaped : after = .escaped x := by
        cases x with
        | ioError message => exact absurd rfl (hx message)
        | _ => exact (Prod.mk.inj hmap).1.symm
      rw [hescaped]
      exact ⟨trivial, iff_of_true ⟨x, rfl⟩ hunanswered⟩
  · rename_i hdone
    rw [Option.some.injEq, Prod.mk.injEq] at h
    rw [← h.1]
    have hanswered : Answered libraries w tree p := by
      cases p with
      | preCompressing p => trivial
      | file s strategy => exact fun _ hmore => absurd hmore hdone
    exact ⟨hready, iff_of_false (fun hx => by simp at hx) (not_not_intro hanswered)⟩

theorem advance_leaves {before after : Control} {sent : List Sent}
    (hready : before.Ready)
    (h : advance codecs tree protobuf training w before = some (after, sent)) :
    Leaves libraries tree w before after := by
  cases before with
  | files p chunk => exact advance_files hready h
  | finding p e chunk currentFile => exact advance_finding hready h
  | opening p chunk => exact advance_opening hready h
  | chunks p chunk nChunks => exact advance_chunks hdocumented hlibrary hready h
  | ended | escaped => contradiction

end

end

/-- Behind the loops, what is left to be done or has been done. -/
structure Closing (t : Transmission) : Prop where
  done : Instruction.setDone ∈ t.request ∨ t.requestDone = true
  finished : Instruction.wait ∈ t.request ∨ t.transmit = .finished

theorem notified_finished {t : Transmit} (h : t = .finished) : t.notified = .finished := by
  rw [h]
  rfl

theorem Closing.request {t t' : Transmission} (h : Closing t) (hstep : t.requestStep = some t') :
    Closing t' := by
  obtain ⟨hdone, hfinished⟩ := h
  unfold Transmission.requestStep at hstep
  split at hstep
  · contradiction
  · rename_i message rest hrequest
    rw [hrequest] at hdone hfinished
    rw [← Option.some.inj hstep]
    exact ⟨hdone.imp_left fun h => (List.mem_cons.mp h).resolve_left Instruction.noConfusion,
      hfinished.imp_left fun h => (List.mem_cons.mp h).resolve_left Instruction.noConfusion⟩
  · rename_i rest hrequest
    rw [hrequest] at hdone hfinished
    rw [← Option.some.inj hstep]
    exact ⟨hdone.imp_left fun h => (List.mem_cons.mp h).resolve_left Instruction.noConfusion,
      hfinished.imp (fun h => (List.mem_cons.mp h).resolve_left Instruction.noConfusion)
        notified_finished⟩
  · rename_i rest hrequest
    split at hstep
    · contradiction
    · rw [hrequest] at hfinished
      rw [← Option.some.inj hstep]
      exact ⟨.inr rfl,
        hfinished.imp_left fun h => (List.mem_cons.mp h).resolve_left Instruction.noConfusion⟩
  · rename_i rest hrequest
    split at hstep
    · rename_i hfinished'
      rw [hrequest] at hdone
      rw [← Option.some.inj hstep]
      exact ⟨hdone.imp_left fun h => (List.mem_cons.mp h).resolve_left Instruction.noConfusion,
        .inr hfinished'⟩
    · contradiction

theorem step_kept {t t' : Transmission} {e : Server.Event} (he : e ≠ .request)
    (h : t.step e = some t') : t'.request = t.request ∧ t'.requestDone = t.requestDone ∧
      (t.transmit = .finished → t'.transmit = .finished) := by
  cases e with
  | request => exact absurd rfl he
  | transmit =>
    simp only [Transmission.step, Transmission.transmitStep] at h
    cases htransmit : t.transmit <;> rw [htransmit] at h <;> simp only [reduceCtorEq] at h
    case testing dequeued =>
      cases dequeued with
      | none | some =>
        rw [Option.some.injEq] at h
        rw [← h]
        exact ⟨rfl, rfl, fun hfinished => by contradiction⟩
    all_goals
      rw [Option.some.injEq] at h
      rw [← h]
      exact ⟨rfl, rfl, fun hfinished => by contradiction⟩
  | clock elapsed =>
    obtain ⟨message, done, htransmit, rfl⟩ := Transmission.step_clock h
    exact ⟨rfl, rfl, fun hfinished => by simp [htransmit] at hfinished⟩
  | write bytesSent =>
    obtain ⟨current, size, unsent, done, bytes, rest, htransmit, -, -, rfl⟩ :=
      Transmission.step_write h
    refine ⟨?_, ?_, fun hfinished => by simp [htransmit] at hfinished⟩
    · split
      · cases current <;> rfl
      · rfl
    · split
      · cases current <;> rfl
      · rfl
  | spurious =>
    obtain ⟨hblocked, rfl⟩ := Transmission.step_spurious h
    exact ⟨rfl, rfl, fun hfinished => by simp [hblocked] at hfinished⟩
  | drain bytes =>
    obtain ⟨-, rfl⟩ := Transmission.step_drain h
    exact ⟨rfl, rfl, id⟩

theorem Closing.step {t t' : Transmission} {e : Server.Event} (h : Closing t)
    (hstep : t.step e = some t') : Closing t' := by
  by_cases he : e = .request
  · rw [he] at hstep
    exact h.request hstep
  · obtain ⟨hrequest, hdone, hfinished⟩ := step_kept he hstep
    constructor
    · rw [hrequest, hdone]
      exact h.done
    · rw [hrequest]
      exact h.finished.imp_right hfinished

/-! ## Every run -/

section

variable {codecs : Codecs} {libraries : Libraries} {tree : DecisionTree} {protobuf : Protobuf}
  {training : Bool}

theorem leveled_setCompressor {c : Compressor} {level : Int} {s : AutomaticCompressionStrategy}
    (h : AutomaticCompressionStrategy.setCompressor c level = .ok s) : Leveled s := by
  obtain ⟨l, rfl, hlevel⟩ := setCompressor_ok h
  intro level' hnext
  simp only [AutomaticCompressionStrategy.next, Prod.mk.injEq] at hnext
  rw [hnext.1] at hlevel
  rw [← hnext.2]
  exact (hlevel _ rfl).2

theorem new_chunkSize {n : Nat} (h : n * 1024 < 2 ^ 32) :
    (FileProcessingStrategy.new n).chunkSize * 1024 = (FileProcessingStrategy.new n).chunkSizeBytes :=
  (Nat.mod_eq_of_lt h).symm

theorem chunkSize_setCompressor {c : Compressor} {level : Int} {q : PreCompressingFileProcessor}
    (h : PreCompressingFileProcessor.new.setCompressor c level = .ok q) :
    q.chunkSize * 1024 = q.chunkSizeBytes := by
  have hnew := @new_chunkSize 1024 (by norm_num)
  unfold PreCompressingFileProcessor.setCompressor at h
  split at h
  · rw [← Except.ok.inj h]
    exact hnew
  · split at h
    · rw [← Except.ok.inj h]
      exact hnew
    · split at h
      · rw [← Except.ok.inj h]
        exact hnew
      · contradiction

theorem configureFileProcessor_sound {fileRequest : FileTransmissionRequest} {p : Processor}
    (h : configureFileProcessor fileRequest = .ok p) :
    p.Sound ∧ p.base.chunkSize * 1024 = p.base.chunkSizeBytes := by
  have hsound {strategy : Strategy} (hleveled : strategy.Leveled) {n : Nat} (hlow : 1 ≤ n)
      (hhigh : n ≤ 512) : (Processor.file (.new n) strategy).Sound ∧
        (Processor.file (.new n) strategy).base.chunkSize * 1024 =
          (Processor.file (.new n) strategy).base.chunkSizeBytes := by
    have hnew : n * 1024 = (FileProcessingStrategy.new n).chunkSizeBytes :=
      new_chunkSize (by omega)
    refine ⟨⟨hleveled, ?_⟩, hnew⟩
    omega
  unfold configureFileProcessor at h
  cases hmode : fileRequest.mode.getD .NO_COMPRESSION with
  | NO_COMPRESSION =>
    simp only [hmode, Except.ok.injEq] at h
    rw [← h]
    refine hsound ?_ (by decide) (by decide)
    exact leveled_copy
  | AUTOCOMP =>
    simp only [hmode, Except.ok.injEq] at h
    rw [← h]
    refine hsound ?_ (by decide) (by decide)
    exact trivial
  | COMPRESS | TRAIN =>
    simp only [hmode] at h
    cases hset : AutomaticCompressionStrategy.setCompressor (fileRequest.compressor.getD .ZLIB)
        (requestedLevel fileRequest) with
    | error x =>
      rw [hset] at h
      contradiction
    | ok s =>
      rw [hset, Except.map, Except.ok.injEq] at h
      rw [← h]
      refine hsound ?_ (by decide) (by decide)
      exact leveled_setCompressor hset
  | PRE_COMPRESS =>
    simp only [hmode] at h
    cases hset : PreCompressingFileProcessor.new.setCompressor (fileRequest.compressor.getD .ZLIB)
        (requestedLevel fileRequest) with
    | error x =>
      rw [hset] at h
      contradiction
    | ok q =>
      rw [hset, Except.map, Except.ok.injEq] at h
      rw [← h]
      exact ⟨trivial, chunkSize_setCompressor hset⟩

/-- What holds in every state of a run whose steps let nothing out. -/
structure Inv (s : State) : Prop where
  ready : s.control.Ready
  caught : ∀ x, s.control ≠ .escaped x
  closing : s.control = .ended → Closing s.transmission

theorem Inv.leavesLast {s : State} (h : Inv s) : LeavesLast s := by
  refine ⟨h.caught, fun hleft => ?_⟩
  rcases hleft with ⟨x, hx⟩ | ⟨hended, hrequest⟩
  · exact absurd hx (h.caught x)
  · obtain ⟨hdone, hfinished⟩ := h.closing hended
    rw [hrequest] at hdone hfinished
    exact ⟨hdone.resolve_left List.not_mem_nil, hfinished.resolve_left List.not_mem_nil⟩

def Permitted (libraries : Libraries) (tree : DecisionTree) (s : State) : Event → Prop
  | .serve w => Caught libraries tree w s.control
  | .other _ => True

section

variable (hdocumented : libraries.Documented) (hlibrary : codecs.library = libraries.library)

include hdocumented hlibrary

theorem serve_leaves {s s' : State} {w : World} (hready : s.control.Ready)
    (hstep : step codecs tree protobuf training s (.serve w) = some s') :
    Leaves libraries tree w s.control s'.control ∧
      (s'.control = .ended → Closing s'.transmission) := by
  simp only [step] at hstep
  split at hstep
  · obtain ⟨⟨control, sent⟩, hadvance, rfl⟩ := Option.map_eq_some_iff.mp hstep
    have hleaves := advance_leaves hdocumented hlibrary hready hadvance
    cases control with
    | ended =>
      refine ⟨hleaves, fun _ => ⟨.inl ?_, .inl ?_⟩⟩ <;>
        simp [State.goOn, ending]
    | _ => exact ⟨hleaves, fun hended => by contradiction⟩
  · contradiction

theorem Inv.step {s s' : State} {ev : Event} (h : Inv s)
    (hpermitted : Permitted libraries tree s ev)
    (hstep : step codecs tree protobuf training s ev = some s') : Inv s' := by
  cases ev with
  | serve w =>
    obtain ⟨hleaves, hclosing⟩ := serve_leaves hdocumented hlibrary h.ready hstep
    refine ⟨hleaves.ready, fun x hx => ?_, hclosing⟩
    exact hleaves.escaped.mp ⟨x, hx⟩ hpermitted
  | other e =>
    obtain ⟨t, ht, rfl⟩ := Option.map_eq_some_iff.mp hstep
    exact ⟨h.ready, h.caught, fun hended => (h.closing hended).step ht⟩

/-- As long as every call finds what it must, no exception leaves and the scope is left last; and the
call that does not find it is one whose exception leaves. -/
theorem leaves_last {fileRequest : FileTransmissionRequest} {p : Processor}
    (hconfigured : configureFileProcessor fileRequest = .ok p)
    (e : DirectoryExplorer) {s : State}
    (hrun : Runs (step codecs tree protobuf (fileRequest.mode = some .TRAIN))
      (Permitted libraries tree) (start (p.prepared (fileRequest.filename.getD []) e)) s) :
    LeavesLast s ∧ ∀ w s', step codecs tree protobuf (fileRequest.mode = some .TRAIN) s
        (.serve w) = some s' →
      ((∃ x, s'.control = .escaped x) ↔ ¬ Caught libraries tree w s.control) := by
  obtain ⟨hsound, hsize⟩ := configureFileProcessor_sound hconfigured
  have hinit : Inv (start (p.prepared (fileRequest.filename.getD []) e)) := by
    have hready : Ready p (.withCapacity (11 * p.base.chunkSize * 1024 / 10)) := by
      refine ⟨hsound, Nat.zero_le _, ?_⟩
      change 11 * p.base.chunkSize * 1024 / 10 ≤ _
      rw [Nat.mul_assoc, hsize]
    refine ⟨?_, fun x hx => by contradiction, fun hended => by contradiction⟩
    cases p <;> exact hready.withBase rfl
  have hinv := hrun.invariant Inv hinit fun _ _ _ hs hok hstep =>
    hs.step hdocumented hlibrary hok hstep
  refine ⟨hinv.leavesLast, fun w s' hstep => ?_⟩
  exact (serve_leaves hdocumented hlibrary hinv.ready hstep).1.escaped

end

end

def fileExplorer (path : Path) : DirectoryExplorer := ⟨path, path, .nil, [], path, true, true⟩

/-- Nothing fails but what concerns files that are gone. -/
def plainWorld (disk : Disk Path) : World := ⟨gone disk, disk, none, .init, .ok true, 0, 0, 0⟩

def leafTree : DecisionTree := ⟨[], [], 3⟩

def harmless (s : State) : Event → Bool
  | .other _ => true
  | .serve _ =>
    match s.control with
    | .files .. | .opening (.file ..) _ => true
    | _ => false

theorem permitted_of_harmless {libraries : Libraries} {tree : DecisionTree} {s : State} {ev : Event}
    (h : harmless s ev = true) : Permitted libraries tree s ev := by
  cases ev with
  | other e => trivial
  | serve w =>
    cases hcontrol : s.control with
    | files p chunk =>
      rw [Permitted, hcontrol]
      trivial
    | opening p chunk =>
      rw [Permitted, hcontrol]
      cases p with
      | file s strategy => trivial
      | preCompressing p => simp [harmless, hcontrol] at h
    | _ => simp [harmless, hcontrol] at h

def State.isLeft (s : State) : Bool :=
  (match s.control with
    | .ended | .escaped _ => true
    | _ => false) && s.transmission.request.isEmpty

theorem State.left_of_isLeft {s : State} (h : s.isLeft = true) : s.Left := by
  rw [State.isLeft, Bool.and_eq_true] at h
  cases hcontrol : s.control with
  | ended => exact .inr ⟨hcontrol, List.isEmpty_iff.mp h.2⟩
  | escaped x => exact .inl ⟨x, hcontrol⟩
  | _ => simp [hcontrol] at h

/-- The client is told about it, and the request ends in order. -/
theorem gone_file_leaves_last : ∃ p s, configureFileProcessor (plainRequest (ascii "a")) = .ok p ∧
    Reachable (step sampleHost.codecs leafTree protocolBuffers false)
      (start (p.prepared (ascii "a") (fileExplorer (ascii "a")))) s ∧ s.Left ∧ LeavesLast s := by
  have hconfigured : configureFileProcessor (plainRequest (ascii "a")) =
      .ok (.file (.new 64) (.fixed .copy)) := rfl
  have hexec : ((exec (guarded (step sampleHost.codecs leafTree protocolBuffers false)
      fun s ev => harmless s ev = true)
      (start ((Processor.file (.new 64) (.fixed .copy)).prepared (ascii "a")
        (fileExplorer (ascii "a"))))
      [.serve (plainWorld fun _ => none), .serve (plainWorld fun _ => none), .other .request,
        .other .request, .serve (plainWorld fun _ => none), .other .request, .other .request,
        .other .transmit, .other .transmit, .other .transmit, .other .transmit, .other .transmit,
        .other (.clock false), .other (.write 4), .other (.write 32), .other .request]).map
      State.isLeft) = some true := by
    decide +kernel
  obtain ⟨s, hs, hleft⟩ := Option.map_eq_some_iff.mp hexec
  have hrun := Runs.start.of_guarded hs
  exact ⟨_, s, hconfigured, hrun.mono fun _ _ _ => trivial, State.left_of_isLeft hleft,
    (leaves_last storingLibraries_documented rfl hconfigured (fileExplorer (ascii "a"))
      (hrun.mono fun _ _ => permitted_of_harmless)).1⟩

def snappyRequest : FileTransmissionRequest :=
  ⟨some (ascii "a"), some .PRE_COMPRESS, some .SNAPPY, none⟩

/-- It is looked up when the file is there and the transmission runs, and that is not caught. -/
theorem missing_script_escapes : ∃ p s, configureFileProcessor snappyRequest = .ok p ∧
    explore (sampleDisk [1, 2]) (ascii "a") (sampleHost.root (ascii "a")) =
      .ok (fileExplorer (ascii "a")) ∧
    Reachable (step sampleHost.codecs leafTree protocolBuffers false)
      (start (p.prepared (ascii "a") (fileExplorer (ascii "a")))) s ∧
    s.control = .escaped .outOfRange ∧ s.Left ∧ s.transmission.requestDone = false ∧
    s.transmission.transmit = .submitted ∧ ¬ LeavesLast s := by
  obtain ⟨s, hs, hcontrol, hdone, htransmit⟩ : ∃ s,
      exec (step sampleHost.codecs leafTree protocolBuffers false)
        (start ((Processor.preCompressing { PreCompressingFileProcessor.new with
          compressor := .SNAPPY }).prepared (ascii "a") (fileExplorer (ascii "a"))))
        [.serve (plainWorld (sampleDisk [1, 2])), .serve (plainWorld (sampleDisk [1, 2]))] =
          some s ∧ s.control = .escaped .outOfRange ∧ s.transmission.requestDone = false ∧
        s.transmission.transmit = .submitted := ⟨_, rfl, rfl, rfl, rfl⟩
  exact ⟨_, s, rfl, rfl, reachable_exec hs, hcontrol, .inl ⟨_, hcontrol⟩, hdone, htransmit,
    fun hlast => hlast.caught _ hcontrol⟩

end Autocomp.Server.Unwinding

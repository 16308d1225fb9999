import Autocomp.Lib.SharedFiles
import Autocomp.Lib.Transition
import Autocomp.Network.Residue

/-!
# Pre-compressing requests on one file system

Requests that are served at the same time name their compressed files after the originals, so two
of them can use one name. The script, the opening of its output, every read and the removal are
steps of their own here, and the requests take them in any order.
-/

namespace Autocomp

open FileStream SharedFiles Pieces Transition

namespace PreCompressingFileProcessor

/-- The rest of `openNextFile` once the script has run. -/
def openCompressedFile (disk : Disk Path) (p : PreCompressingFileProcessor) :
    Except Exn Nat × PreCompressingFileProcessor :=
  let s := { p.toFileProcessingStrategy with
    source := p.source.openFile (disk p.currentCompressedFileName) }
  if s.source.fail then
    (.error (.ioError (ascii "Could not open current file: " ++ p.currentCompressedFileName)),
      { p with toFileProcessingStrategy := s })
  else
    let s := s.calculateFileSize
    let p := { p with toFileProcessingStrategy := s, compressedFileSize := s.currentFileSize }
    match disk s.currentFileName with
    | none => (.error (.ioError (ascii "Could not open file: " ++ s.currentFileName)), p)
    | some content =>
      (.ok content.length, { p with currentFileSize := content.length, currentFileReadBytes := 0 })

/-- The processor with the name of its next file and of that file's compressed one. -/
def named (p : PreCompressingFileProcessor) (s : FileProcessingStrategy) :
    PreCompressingFileProcessor :=
  { p with
    toFileProcessingStrategy := s
    currentCompressedFileName := s.currentFileName ++ p.compressor.fileExtenssion }

theorem openNextFile_eq {scripts : Scripts} {disk : Disk Path} {p : PreCompressingFileProcessor}
    (hnext : p.hasNextFile = true) : p.openNextFile scripts disk =
      match p.takeNextFile disk with
      | (.error x, s) => (.error x, { p with toFileProcessingStrategy := s }, disk)
      | (.ok (), s) =>
        match (p.named s).compressFile scripts s.currentFileName
            (p.named s).currentCompressedFileName disk with
        | .error x => (.error x, p.named s, disk)
        | .ok disk => ((p.named s).openCompressedFile disk |>.1,
            (p.named s).openCompressedFile disk |>.2, disk) := by
  simp only [openNextFile, hnext, if_true]
  rcases p.takeNextFile disk with ⟨_ | ⟨⟩, s⟩
  · rfl
  · change (match (p.named s).compressFile scripts s.currentFileName
        (p.named s).currentCompressedFileName disk with | .error x => _ | .ok disk => _) =
      match (p.named s).compressFile scripts s.currentFileName
        (p.named s).currentCompressedFileName disk with | .error x => _ | .ok disk => _
    cases (p.named s).compressFile scripts s.currentFileName
      (p.named s).currentCompressedFileName disk with
    | error x => rfl
    | ok disk =>
      simp only [openCompressedFile]
      by_cases hfail : (s.source.openFile
          (disk (s.currentFileName ++ p.compressor.fileExtenssion))).fail = true
      · simp only [named, hfail, if_true]
      · cases hcontent : disk s.currentFileName <;>
          simp only [named, hfail, if_false, FileProcessingStrategy.calculateFileSize, hcontent,
            Bool.false_eq_true]

end PreCompressingFileProcessor

namespace Server.Sharing

open PreCompressingFileProcessor

/-- Where a request stands: between two files, after the script, in the chunk loop, after the read
of the last chunk, or gone with an exception. -/
inductive Phase where
  | idle
  | compressed
  | reading
  | removing
  | escaped
  deriving DecidableEq

/-- A request that is being served. `file` is what the processor's stream has open, `messages` what
has been pushed, and `failed` whether an exception has been thrown. -/
structure Request where
  processor : PreCompressingFileProcessor
  phase : Phase
  file : Nat
  chunk : Buffer
  nChunks : Nat
  messages : List Meaning
  failed : Bool

structure State (ι : Type) where
  files : FileSystem Path
  requests : ι → Request

inductive Action where
  | script
  | open
  | read
  | remove
  deriving DecidableEq

/-- The programs that the scripts start, and what a script does whose arguments the shell splits or
expands. -/
structure Programs where
  scripts : Scripts
  shell (compressor : Compressor) (arguments : List ByteString) (fs : FileSystem Path) :
    FileSystem Path

namespace Programs

variable (programs : Programs)

def compress (compressor : Compressor) (inFile outFile : Path) (compressionLevel : Int)
    (fs : FileSystem Path) : FileSystem Path :=
  if isPlain inFile ∧ isPlain outFile then
    match fs.disk inFile with
    | some bytes => fs.rewrite outFile (programs.scripts.image compressor compressionLevel bytes)
    | none => fs
  else programs.shell compressor [inFile, outFile, ascii (toString compressionLevel)] fs

def compressFile (p : PreCompressingFileProcessor) (fs : FileSystem Path) :
    Except Exn (FileSystem Path) :=
  if p.compressor = .COPY then .ok fs
  else if p.compressor.hasScript then
    .ok (programs.compress p.compressor p.currentFileName p.currentCompressedFileName
      p.compressionLevel fs)
  else .error .outOfRange

end Programs

namespace Request

def hasNextFile (r : Request) : Bool := r.processor.hasNextFile

def test (r : Request) : Request :=
  { r with
    phase := if (Processor.preCompressing r.processor).hasNextChunk then .reading else .idle }

/-- `processRequest` on an exception of `openNextFile`. -/
def openFailed (x : Exn) (r : Request) : Request :=
  match x with
  | .ioError _ | .compressionError .. =>
    { r with phase := .idle, messages := r.messages ++ [.error ⟨some x.what⟩], failed := true }
  | _ => { r with phase := .escaped, failed := true }

def pushChunk (r : Request) : Request :=
  let more := (Processor.preCompressing r.processor).hasNextChunk
  test { r with
    messages := r.messages ++ [.header ⟨some r.processor.compressor,
      some (BitVec.ofNat 64 r.nChunks), if more then none else some true⟩, .chunk r.chunk.contents]
    chunk := .empty
    nChunks := r.nChunks + 1 }

/-- The next file's name is taken and its script is run. -/
def runScript (programs : Programs) (fs : FileSystem Path) (r : Request) :
    Request × FileSystem Path :=
  match r.processor.takeNextFile fs.disk with
  | (.error x, s) =>
    (openFailed x { r with processor := { r.processor with toFileProcessingStrategy := s } }, fs)
  | (.ok (), s) =>
    match programs.compressFile (r.processor.named s) fs with
    | .error x => (openFailed x { r with processor := r.processor.named s }, fs)
    | .ok fs => ({ r with processor := r.processor.named s, phase := .compressed }, fs)

/-- The script's output is opened and the initial message pushed. -/
def openFile (fs : FileSystem Path) (r : Request) : Request :=
  match r.processor.openCompressedFile fs.disk with
  | (.error x, p) => openFailed x { r with processor := p }
  | (.ok fileSize, p) =>
    test { r with
      processor := p
      file := (fs.names p.currentCompressedFileName).getD 0
      nChunks := 0
      messages := r.messages ++ [.initial ⟨some p.currentFileName, some (BitVec.ofNat 64 fileSize),
        some (BitVec.ofNat 32 p.chunkSize), if p.hasNextFile then none else some true⟩] }

/-- `getNextChunk` on what the open file holds now, without the removal of the file. -/
def readChunk (fs : FileSystem Path) (r : Request) : Request :=
  let p := { r.processor with source := { r.processor.source with content := fs.bytes r.file } }
  match p.getNextChunk fs.disk r.chunk with
  | (.error (.ioError _), chunk, p, _) =>
    { r with processor := p, chunk := chunk, phase := .idle, failed := true }
  | (.error _, chunk, p, _) =>
    { r with processor := p, chunk := chunk, phase := .escaped, failed := true }
  | (.ok _, chunk, p, _) =>
    if p.source.isOpen = false ∧ p.compressor ≠ .COPY then
      { r with processor := p, chunk := chunk, phase := .removing }
    else pushChunk { r with processor := p, chunk := chunk }

end Request

variable {ι : Type} [DecidableEq ι]

def step (programs : Programs) (s : State ι) : ι × Action → Option (State ι)
  | (i, .script) =>
    if (s.requests i).phase = .idle ∧ (s.requests i).hasNextFile then
      let done := (s.requests i).runScript programs s.files
      some ⟨done.2, Function.update s.requests i done.1⟩
    else none
  | (i, .open) =>
    if (s.requests i).phase = .compressed then
      some ⟨s.files, Function.update s.requests i ((s.requests i).openFile s.files)⟩
    else none
  | (i, .read) =>
    if (s.requests i).phase = .reading then
      some ⟨s.files, Function.update s.requests i ((s.requests i).readChunk s.files)⟩
    else none
  | (i, .remove) =>
    if (s.requests i).phase = .removing then
      some ⟨s.files.remove (s.requests i).processor.currentCompressedFileName,
        Function.update s.requests i (s.requests i).pushChunk⟩
    else none

/-- On plain names a script does to the files what it does to the disk, unless the file it writes has
a second name. -/
theorem compress_disk (programs : Programs) {fs : FileSystem Path} {inFile outFile : Path}
    (hin : isPlain inFile = true) (hout : isPlain outFile = true)
    (hsingle : ∀ p file, fs.names outFile = some file → fs.names p = some file → p = outFile)
    (c : Compressor) (level : Int) : (programs.compress c inFile outFile level fs).disk =
      programs.scripts.compress c inFile outFile level fs.disk := by
  rw [Programs.compress, Scripts.compress, if_pos ⟨hin, hout⟩, if_pos ⟨hin, hout⟩]
  cases fs.disk inFile with
  | none => rfl
  | some bytes => exact fs.disk_rewrite _ hsingle

/-- With nothing in between, the script and the opening are `openNextFile`. -/
theorem openNextFile_of_steps (programs : Programs) {fs : FileSystem Path} {r : Request}
    (hnext : r.hasNextFile = true)
    (hcompress : ∀ c inFile outFile level, (programs.compress c inFile outFile level fs).disk =
      programs.scripts.compress c inFile outFile level fs.disk) :
    (∃ x p, r.runScript programs fs = (.openFailed x { r with processor := p }, fs) ∧
      r.processor.openNextFile programs.scripts fs.disk = (.error x, p, fs.disk)) ∨
    ∃ p fs', r.runScript programs fs = ({ r with processor := p, phase := .compressed }, fs') ∧
      r.processor.openNextFile programs.scripts fs.disk =
        ((p.openCompressedFile fs'.disk).1, (p.openCompressedFile fs'.disk).2, fs'.disk) := by
  rw [openNextFile_eq hnext, Request.runScript]
  rcases r.processor.takeNextFile fs.disk with ⟨x | ⟨⟩, s⟩
  · exact .inl ⟨x, _, rfl, rfl⟩
  · simp only [Programs.compressFile, compressFile]
    by_cases hcopy : (r.processor.named s).compressor = .COPY
    · rw [if_pos hcopy, if_pos hcopy]
      exact .inr ⟨_, fs, rfl, rfl⟩
    · rw [if_neg hcopy, if_neg hcopy]
      by_cases hscript : (r.processor.named s).compressor.hasScript = true
      · rw [if_pos hscript, if_pos hscript]
        refine .inr ⟨_, _, rfl, ?_⟩
        rw [hcompress]
        rfl
      · rw [if_neg hscript, if_neg hscript]
        exact .inl ⟨_, _, rfl, rfl⟩

theorem getNextChunk_disk {p p' : PreCompressingFileProcessor} {disk disk' : Disk Path}
    {chunk chunk' : Buffer} {c : Compressor}
    (h : p.getNextChunk disk chunk = (.ok c, chunk', p', disk')) :
    p'.currentCompressedFileName = p.currentCompressedFileName ∧ disk' =
      if p'.source.isOpen = false ∧ p'.compressor ≠ .COPY then
        Function.update disk p.currentCompressedFileName none else disk := by
  simp only [getNextChunk] at h
  split at h
  · simp at h
  · rename_i hopen
    split at h
    · simp at h
    · split at h
      · simp at h
      · split at h <;> simp only [Prod.mk.injEq] at h <;> obtain ⟨-, -, rfl, rfl⟩ := h
        · refine ⟨rfl, (if_neg fun hclosed => hopen ?_).symm⟩
          exact (p.source.read_isOpen p.chunkSizeBytes).symm.trans hclosed.1
        · refine ⟨rfl, ?_⟩
          simp only [InStream.close_isOpen, true_and]

/-- The messages for `paths`: for each file the initial message and its image in full chunks. -/
def imageMessages (scripts : Scripts) (compressor : Compressor) (compressionLevel : Int)
    (disk : Disk Path) : List Path → List Meaning
  | [] => []
  | path :: paths =>
    let content := (disk path).getD []
    .initial (initialMessage path content 1024 (paths = [])) ::
      (chunkMessages 0 ((pieces imageChunkBytes
        (imageOf scripts compressor compressionLevel content)).map fun bytes => (compressor, bytes)) ++
        imageMessages scripts compressor compressionLevel disk paths)

/-- The two tests of the chunk loop agree on a file of `fileSize` bytes with an image of
`imageSize`. -/
def Fits (imageSize fileSize : Nat) : Prop :=
  (imageSize = 0 ∧ fileSize = 0) ∨
    (1 ≤ imageSize ∧ (imageSize - 1) / imageChunkBytes * imageChunkBytes < fileSize ∧
      (imageChunkBytes ∣ imageSize → fileSize ≤ imageSize))

instance (imageSize fileSize : Nat) : Decidable (Fits imageSize fileSize) :=
  inferInstanceAs (Decidable (_ ∨ _))

theorem fits_self (n : Nat) : Fits n n := by
  by_cases hn : n = 0
  · exact .inl ⟨hn, hn⟩
  · have hle := Nat.div_mul_le_self (n - 1) imageChunkBytes
    exact .inr ⟨by omega, by omega, fun _ => Nat.le_refl n⟩

namespace Request

def remaining (r : Request) : List Path :=
  match r.processor.directoryExplorer with
  | some e => e.remaining
  | none => []

/-- The names a request is still going to open. -/
def neededNames (r : Request) : List Path :=
  (if r.phase = .compressed then
    [r.processor.currentCompressedFileName, r.processor.currentFileName] else []) ++ r.remaining

/-- The files a request is still going to read or has open. -/
def Needs (fs : FileSystem Path) (r : Request) (file : Nat) : Prop :=
  (∃ path ∈ r.neededNames, fs.names path = some file) ∨ (r.phase = .reading ∧ r.file = file)

end Request

/-- The script that is to compress `path` is there and understands its arguments, the tests of the
chunk loop agree on the sizes, and over a file that some request needs the script writes only what
that holds already. -/
def ScriptSpares (programs : Programs) (s : State ι) (p : PreCompressingFileProcessor) (path : Path)
    (content : ByteString) : Prop :=
  p.compressor.hasScript = true ∧ isPlain path = true ∧
    isPlain (path ++ p.compressor.fileExtenssion) = true ∧
    Fits (programs.scripts.image p.compressor p.compressionLevel content).length content.length ∧
    ∀ file ∈ s.files.names (path ++ p.compressor.fileExtenssion),
      ∀ j, (s.requests j).Needs s.files file →
        s.files.bytes file = programs.scripts.image p.compressor p.compressionLevel content

/-- A step that does not disturb: a script that spares the others, or the removal of a name that no
request is still going to open. -/
def Undisturbed (programs : Programs) (s : State ι) : ι × Action → Prop
  | (i, .script) => ∀ path ∈ (s.requests i).remaining.head?, ∀ content ∈ s.files.disk path,
      (s.requests i).processor.compressor ≠ .COPY →
        ScriptSpares programs s (s.requests i).processor path content
  | (i, .remove) => ∀ j,
      (s.requests i).processor.currentCompressedFileName ∉ (s.requests j).neededNames
  | (_, .open) | (_, .read) => True

/-- A request has not failed, has pushed nothing but the first of `messages`, and all of them once
it takes no more step. -/
structure Complete (programs : Programs) (s : State ι) (i : ι) (messages : List Meaning) : Prop where
  unfailed : (s.requests i).failed = false
  isPrefix : (s.requests i).messages <+: messages
  complete : (∀ a, step programs s (i, a) = none) → (s.requests i).messages = messages

section

variable (programs : Programs) (c : Compressor) (level : Int) (disk : Disk Path)

/-- Where a request stands with `left` to go through, and the messages it is still to push. -/
inductive Stage (fs : FileSystem Path) (r : Request) (left : List Path) : List Meaning → Prop
  | idle (hphase : r.phase = .idle) (hchunk : r.chunk.actualSize ≤ r.chunk.capacity) :
      Stage fs r left (imageMessages programs.scripts c level disk left)
  | compressed {path : Path} {content : ByteString} (hphase : r.phase = .compressed)
      (hchunk : r.chunk.actualSize ≤ r.chunk.capacity)
      (hname : r.processor.currentFileName = path) (hsource : disk path = some content)
      (hcontent : fs.disk path = some content)
      (himage : fs.disk r.processor.currentCompressedFileName =
        some (imageOf programs.scripts c level content))
      (hclosed : r.processor.source.isOpen = false)
      (hfits : Fits (imageOf programs.scripts c level content).length content.length) :
      Stage fs r left (imageMessages programs.scripts c level disk (path :: left))
  | reading {image : ByteString} {fileSize k : Nat} (hphase : r.phase = .reading)
      (hchunk : r.chunk.actualSize ≤ r.chunk.capacity)
      (hat : AtOffset r.processor image fileSize imageChunkBytes k) (hk : k < image.length)
      (hlow : k + (image.length - 1 - k) / imageChunkBytes * imageChunkBytes < fileSize)
      (hend : imageChunkBytes ∣ image.length - k → fileSize ≤ image.length)
      (hfile : r.file < fs.unused) (hbytes : fs.bytes r.file = image) :
      Stage fs r left (chunkMessages r.nChunks
        ((pieces imageChunkBytes (image.drop k)).map fun bytes => (c, bytes)) ++
          imageMessages programs.scripts c level disk left)
  | removing (hphase : r.phase = .removing)
      (hlast : (Processor.preCompressing r.processor).hasNextChunk = false) :
      Stage fs r left (chunkMessages r.nChunks [(c, r.chunk.contents)] ++
        imageMessages programs.scripts c level disk left)

/-- A request that has gone through its tree without a failure so far. -/
structure OnCourse (fs : FileSystem Path) (r : Request) (left : List Path) : Prop where
  compressor : r.processor.compressor = c
  compressionLevel : r.processor.compressionLevel = level
  chunkSize : r.processor.chunkSize = 1024
  chunkSizeBytes : r.processor.chunkSizeBytes = imageChunkBytes
  explorer : ∃ e, r.processor.directoryExplorer = some e ∧ e.remaining = left
  sources : ∀ path ∈ left, ∃ content, disk path = some content ∧ fs.disk path = some content
  unfailed : r.failed = false

end

/-- A change of the files leaves a request what it needs. -/
structure Keeps (fs fs' : FileSystem Path) (r : Request) : Prop where
  names : ∀ path ∈ r.neededNames, ∀ file, fs.names path = some file → fs'.names path = some file
  bytes : ∀ file, r.Needs fs file → file < fs.unused → fs'.bytes file = fs.bytes file
  unused : fs.unused ≤ fs'.unused

section

variable {fs fs' : FileSystem Path} {r : Request}

theorem Keeps.refl : Keeps fs fs r :=
  ⟨fun _ _ _ h => h, fun _ _ _ => rfl, Nat.le_refl _⟩

theorem keeps_rewrite {path : Path} {content : ByteString}
    (h : ∀ file, r.Needs fs file → fs.names path = some file → fs.bytes file = content) :
    Keeps fs (fs.rewrite path content) r :=
  ⟨fun _ _ _ hname => fs.names_rewrite content hname,
    fun file hneeds hfile => fs.bytes_rewrite hfile (h file hneeds), fs.unused_le_rewrite path content⟩

theorem keeps_remove {path : Path} (h : path ∉ r.neededNames) : Keeps fs (fs.remove path) r := by
  refine ⟨fun p hp file hname => ?_, fun _ _ _ => rfl, Nat.le_refl _⟩
  have hne : p ≠ path := by
    intro heq
    exact h (heq ▸ hp)
  rw [fs.names_remove hne]
  exact hname

theorem Keeps.disk (h : Keeps fs fs' r) {path : Path} {content : ByteString}
    (hpath : path ∈ r.neededNames) (hcontent : fs.disk path = some content) :
    fs'.disk path = some content := by
  obtain ⟨file, hname, hbytes⟩ := fs.disk_eq_some.mp hcontent
  rw [fs'.disk_eq_some]
  refine ⟨file, h.names path hpath file hname, ?_⟩
  rw [h.bytes file (.inl ⟨path, hpath, hname⟩) (fs.names_lt path file hname)]
  exact hbytes

variable {programs : Programs} {c : Compressor} {level : Int} {disk : Disk Path}
  {left : List Path} {owed : List Meaning}

theorem OnCourse.remaining (h : OnCourse c level disk fs r left) : r.remaining = left := by
  obtain ⟨e, he, hleft⟩ := h.explorer
  rw [Request.remaining, he]
  exact hleft

theorem OnCourse.hasNextFile_iff (h : OnCourse c level disk fs r left) :
    r.hasNextFile = true ↔ left ≠ [] := by
  obtain ⟨e, he, hleft⟩ := h.explorer
  rw [← hleft, ← e.hasNextFile_iff, Request.hasNextFile, FileProcessingStrategy.hasNextFile, he]

theorem OnCourse.keeps (h : OnCourse c level disk fs r left) (hkeeps : Keeps fs fs' r) :
    OnCourse c level disk fs' r left := by
  refine { h with sources := fun path hpath => ?_ }
  obtain ⟨content, hdisk, hcontent⟩ := h.sources path hpath
  refine ⟨content, hdisk, hkeeps.disk ?_ hcontent⟩
  rw [Request.neededNames, h.remaining]
  exact List.mem_append_right _ hpath

theorem Stage.keeps (h : Stage programs c level disk fs r left owed) (hkeeps : Keeps fs fs' r) :
    Stage programs c level disk fs' r left owed := by
  cases h with
  | idle hphase hchunk => exact .idle hphase hchunk
  | compressed hphase hchunk hname hsource hcontent himage hclosed hfits =>
    refine .compressed hphase hchunk hname hsource (hkeeps.disk ?_ hcontent)
      (hkeeps.disk ?_ himage) hclosed hfits
    · simp [Request.neededNames, hphase, hname]
    · simp [Request.neededNames, hphase]
  | reading hphase hchunk hat hk hlow hend hfile hbytes =>
    refine .reading hphase hchunk hat hk hlow hend (Nat.lt_of_lt_of_le hfile hkeeps.unused) ?_
    rw [hkeeps.bytes r.file (.inr ⟨hphase, rfl⟩) hfile]
    exact hbytes
  | removing hphase hlast => exact .removing hphase hlast

/-! ## A request's own steps -/

/-- What the script of an undisturbed request leaves. -/
def afterScript (programs : Programs) (c : Compressor) (level : Int) (fs : FileSystem Path)
    (path : Path) (content : ByteString) : FileSystem Path :=
  if c = .COPY then fs
  else fs.rewrite (path ++ c.fileExtenssion) (programs.scripts.image c level content)

theorem compressFile_ok {p : PreCompressingFileProcessor} {path : Path} {content : ByteString}
    (hpath : p.currentFileName = path)
    (hcompressed : p.currentCompressedFileName = path ++ p.compressor.fileExtenssion)
    (hcontent : fs.disk path = some content)
    (hplain : p.compressor ≠ .COPY → p.compressor.hasScript = true ∧ isPlain path = true ∧
      isPlain (path ++ p.compressor.fileExtenssion) = true) :
    programs.compressFile p fs =
      .ok (afterScript programs p.compressor p.compressionLevel fs path content) := by
  by_cases hcopy : p.compressor = .COPY
  · rw [Programs.compressFile, if_pos hcopy, afterScript, if_pos hcopy]
  · obtain ⟨hscript, hin, hout⟩ := hplain hcopy
    rw [Programs.compressFile, if_neg hcopy, if_pos hscript, afterScript, if_neg hcopy, hpath,
      hcompressed, Programs.compress, if_pos ⟨hin, hout⟩, hcontent]

theorem afterScript_image {path : Path} {content : ByteString}
    (hcontent : fs.disk path = some content) :
    (afterScript programs c level fs path content).disk (path ++ c.fileExtenssion) =
      some (imageOf programs.scripts c level content) := by
  by_cases hcopy : c = .COPY
  · rw [afterScript, if_pos hcopy, imageOf, if_pos hcopy, hcopy, Compressor.fileExtenssion,
      List.append_nil]
    exact hcontent
  · rw [afterScript, if_neg hcopy, imageOf, if_neg hcopy]
    exact fs.disk_rewrite_self _ _

theorem runScript_ok {path : Path} {content : ByteString}
    (h : OnCourse c level disk fs r (path :: left)) (hchunk : r.chunk.actualSize ≤ r.chunk.capacity)
    (hsource : disk path = some content) (hcontent : fs.disk path = some content)
    (hplain : c ≠ .COPY → c.hasScript = true ∧ isPlain path = true ∧
      isPlain (path ++ c.fileExtenssion) = true)
    (hfits : Fits (imageOf programs.scripts c level content).length content.length)
    (hkeeps : Keeps fs (afterScript programs c level fs path content) r) :
    ∃ r', r.runScript programs fs = (r', afterScript programs c level fs path content) ∧
      OnCourse c level disk (afterScript programs c level fs path content) r' left ∧
      Stage programs c level disk (afterScript programs c level fs path content) r' left
        (imageMessages programs.scripts c level disk (path :: left)) ∧
      r'.messages = r.messages := by
  obtain ⟨e, he, hremaining⟩ := h.explorer
  have hnext : ∀ p ∈ left.head?, fs.disk p ≠ none := by
    intro p hp
    obtain ⟨bytes, -, hbytes⟩ := h.sources p (List.mem_cons_of_mem _ (List.mem_of_mem_head? hp))
    rw [hbytes]
    exact Option.some_ne_none bytes
  obtain ⟨e', source, htake, hrest, hclosed⟩ := takeNextFile_ok he hremaining hnext
  set s : FileProcessingStrategy := { r.processor.toFileProcessingStrategy with
    source := source, directoryExplorer := some e', currentFileName := path } with hs
  have hscript : programs.compressFile (r.processor.named s) fs =
      .ok (afterScript programs (r.processor.named s).compressor
        (r.processor.named s).compressionLevel fs path content) := by
    apply compressFile_ok rfl rfl hcontent
    change r.processor.compressor ≠ .COPY → r.processor.compressor.hasScript = true ∧ _ ∧
      isPlain (path ++ r.processor.compressor.fileExtenssion) = true
    rw [h.compressor]
    exact hplain
  have hafter : afterScript programs (r.processor.named s).compressor
      (r.processor.named s).compressionLevel fs path content =
        afterScript programs c level fs path content := by
    rw [← h.compressor, ← h.compressionLevel]
    rfl
  rw [hafter] at hscript
  have hown : ∀ p ∈ path :: left, p ∈ r.neededNames := by
    intro p hp
    rw [Request.neededNames, h.remaining]
    exact List.mem_append_right _ hp
  refine ⟨{ r with processor := r.processor.named s, phase := .compressed }, ?_, ?_, ?_, rfl⟩
  · rw [Request.runScript, htake]
    simp only [hscript]
  · refine ⟨h.compressor, h.compressionLevel, h.chunkSize, h.chunkSizeBytes, ⟨e', rfl, hrest⟩,
      fun p hp => ?_, h.unfailed⟩
    obtain ⟨bytes, hdisk, hbytes⟩ := h.sources p (List.mem_cons_of_mem _ hp)
    exact ⟨bytes, hdisk, hkeeps.disk (hown p (List.mem_cons_of_mem _ hp)) hbytes⟩
  · refine .compressed rfl hchunk rfl hsource (hkeeps.disk (hown path (by simp)) hcontent) ?_ hclosed
      hfits
    change (afterScript programs c level fs path content).disk
      (path ++ r.processor.compressor.fileExtenssion) = _
    rw [h.compressor]
    exact afterScript_image hcontent

variable (programs) in
theorem test_ok {image : ByteString} {fileSize k : Nat} (h : OnCourse c level disk fs r left)
    (hchunk : r.chunk.actualSize ≤ r.chunk.capacity)
    (hat : AtOffset r.processor image fileSize imageChunkBytes k) (hk : k < image.length)
    (hlow : k + (image.length - 1 - k) / imageChunkBytes * imageChunkBytes < fileSize)
    (hend : imageChunkBytes ∣ image.length - k → fileSize ≤ image.length)
    (hfile : r.file < fs.unused) (hbytes : fs.bytes r.file = image) :
    OnCourse c level disk fs r.test left ∧ Stage programs c level disk fs r.test left
      (chunkMessages r.nChunks
        ((pieces imageChunkBytes (image.drop k)).map fun bytes => (c, bytes)) ++
          imageMessages programs.scripts c level disk left) := by
  have hmore : k < fileSize := by
    have := Nat.zero_le ((image.length - 1 - k) / imageChunkBytes * imageChunkBytes)
    omega
  have hphase : r.test.phase = .reading := by
    rw [Request.test, hat.hasNextChunk, decide_eq_true hmore]
    rfl
  exact ⟨{ h with }, .reading hphase hchunk hat hk hlow hend hfile hbytes⟩

variable (programs) in
theorem openFile_ok {path : Path} {content : ByteString} (h : OnCourse c level disk fs r left)
    (hchunk : r.chunk.actualSize ≤ r.chunk.capacity) (hname : r.processor.currentFileName = path)
    (hsource : disk path = some content) (hcontent : fs.disk path = some content)
    (himage : fs.disk r.processor.currentCompressedFileName =
      some (imageOf programs.scripts c level content))
    (hclosed : r.processor.source.isOpen = false)
    (hfits : Fits (imageOf programs.scripts c level content).length content.length) :
    ∃ pushed owed, OnCourse c level disk fs (r.openFile fs) left ∧
      Stage programs c level disk fs (r.openFile fs) left owed ∧
      (r.openFile fs).messages = r.messages ++ pushed ∧
      pushed ++ owed = imageMessages programs.scripts c level disk (path :: left) := by
  subst hname
  set image := imageOf programs.scripts c level content with himageOf
  obtain ⟨file, hfile, hbytes⟩ := fs.disk_eq_some.mp himage
  set p : PreCompressingFileProcessor := { r.processor with
    source := ⟨true, image, 0, false, false, 0⟩
    currentFileSize := content.length
    currentFileReadBytes := 0
    compressedFileSize := image.length } with hp
  have hopen : r.processor.openCompressedFile fs.disk = (.ok content.length, p) := by
    simp only [openCompressedFile, himage, InStream.openFile_some hclosed,
      FileProcessingStrategy.calculateFileSize, InStream.seek, InStream.tell, hcontent,
      Bool.false_eq_true, if_false]
    rfl
  have hlast : (if p.hasNextFile then none else some true) =
      if decide (left = []) then some true else none := by
    obtain ⟨e, he, hleft⟩ := h.explorer
    have hiff := e.hasNextFile_iff
    have hmore : p.hasNextFile = e.hasNextFile := by
      rw [hp, FileProcessingStrategy.hasNextFile, he]
    rw [hmore, ← hleft]
    by_cases hnil : e.remaining = [] <;> simp_all
  have hgo : r.openFile fs = Request.test { r with
      processor := p
      file := file
      nChunks := 0
      messages := r.messages ++
        [.initial (initialMessage r.processor.currentFileName content 1024 (left = []))] } := by
    rw [Request.openFile, hopen]
    have hinitial : (⟨some p.currentFileName, some (BitVec.ofNat 64 content.length),
        some (BitVec.ofNat 32 p.chunkSize), if p.hasNextFile then none else some true⟩ :
          FileInitialMessage) =
          initialMessage r.processor.currentFileName content 1024 (left = []) := by
      rw [hlast, initialMessage, ← h.chunkSize]
    have hnumber : (fs.names p.currentCompressedFileName).getD 0 = file := by
      change (fs.names r.processor.currentCompressedFileName).getD 0 = file
      rw [hfile, Option.getD_some]
    simp only [hinitial, hnumber]
  set opened : Request := { r with
    processor := p
    file := file
    nChunks := 0
    messages := r.messages ++
        [.initial (initialMessage r.processor.currentFileName content 1024 (left = []))] }
  have hcourse : OnCourse c level disk fs opened left := { h with }
  have htree : imageMessages programs.scripts c level disk (r.processor.currentFileName :: left) =
      [.initial (initialMessage r.processor.currentFileName content 1024 (left = []))] ++
        (chunkMessages 0 ((pieces imageChunkBytes image).map fun bytes => (c, bytes)) ++
          imageMessages programs.scripts c level disk left) := by
    rw [imageMessages, hsource, Option.getD_some, ← himageOf]
    rfl
  have hat : AtOffset p image content.length imageChunkBytes 0 :=
    ⟨rfl, rfl, rfl, rfl, rfl, rfl, rfl, rfl, h.chunkSizeBytes⟩
  rw [hgo, htree]
  rcases hfits with ⟨hM, hN⟩ | ⟨hM, hlow, hend⟩
  · -- nothing is to be sent for an empty file with an empty image
    have hphase : opened.test.phase = .idle := by
      change (if (Processor.preCompressing p).hasNextChunk then Phase.reading else .idle) = .idle
      rw [hat.hasNextChunk, hN]
      rfl
    refine ⟨_, _, { hcourse with }, .idle hphase hchunk, rfl, ?_⟩
    rw [List.eq_nil_of_length_eq_zero hM, pieces_nil]
    rfl
  · obtain ⟨hcourse', hstage⟩ := test_ok programs hcourse hchunk hat hM
      (by rw [Nat.sub_zero, Nat.zero_add]; exact hlow) hend (fs.names_lt _ _ hfile) hbytes
    exact ⟨_, _, hcourse', hstage, rfl, rfl⟩

theorem getNextChunk_kept (p : PreCompressingFileProcessor) (disk : Disk Path) (chunk : Buffer) :
    let p' := (p.getNextChunk disk chunk).2.2.1
    p'.directoryExplorer = p.directoryExplorer ∧ p'.chunkSize = p.chunkSize ∧
      p'.chunkSizeBytes = p.chunkSizeBytes ∧ p'.compressor = p.compressor ∧
      p'.compressionLevel = p.compressionLevel := by
  simp only [PreCompressingFileProcessor.getNextChunk]
  split
  · exact ⟨rfl, rfl, rfl, rfl, rfl⟩
  · split
    · exact ⟨rfl, rfl, rfl, rfl, rfl⟩
    · split
      · exact ⟨rfl, rfl, rfl, rfl, rfl⟩
      · split <;> exact ⟨rfl, rfl, rfl, rfl, rfl⟩

theorem OnCourse.got (h : OnCourse c level disk fs r left) {p : PreCompressingFileProcessor}
    {outcome : Except Exn Compressor} {chunk : Buffer} {files : Disk Path}
    (hget : r.processor.getNextChunk fs.disk r.chunk = (outcome, chunk, p, files)) :
    OnCourse c level disk fs { r with processor := p, chunk := chunk } left := by
  have hkept := getNextChunk_kept r.processor fs.disk r.chunk
  rw [hget] at hkept
  obtain ⟨hexplorer, hsize, hbytes, hcomp, hlevel⟩ := hkept
  obtain ⟨e, he, hleft⟩ := h.explorer
  exact ⟨hcomp.trans h.compressor, hlevel.trans h.compressionLevel, hsize.trans h.chunkSize,
    hbytes.trans h.chunkSizeBytes, ⟨e, hexplorer.trans he, hleft⟩, h.sources, h.unfailed⟩

variable (programs) in
theorem pushChunk_last (h : OnCourse c level disk fs r left)
    (hlast : (Processor.preCompressing r.processor).hasNextChunk = false) :
    OnCourse c level disk fs r.pushChunk left ∧
      Stage programs c level disk fs r.pushChunk left
        (imageMessages programs.scripts c level disk left) ∧
      r.pushChunk.messages =
        r.messages ++ chunkMessages r.nChunks [(c, r.chunk.contents)] := by
  refine ⟨{ h with }, .idle ?_ (Nat.le_refl _), ?_⟩
  · simp only [Request.pushChunk, Request.test, hlast, Bool.false_eq_true, if_false]
  · simp only [Request.pushChunk, Request.test, hlast, Bool.false_eq_true, if_false, chunkMessages,
      if_true, h.compressor]

theorem chunkMessages_pieces {n k : Nat} {image : ByteString} (hn : 0 < n)
    (hmore : k + n < image.length) (position : Nat) (c : Compressor) :
    chunkMessages position ((pieces n (image.drop k)).map fun bytes => (c, bytes)) =
      [.header ⟨some c, some (BitVec.ofNat 64 position), none⟩, .chunk ((image.drop k).take n)] ++
        chunkMessages (position + 1)
          ((pieces n (image.drop (k + n))).map fun bytes => (c, bytes)) := by
  have hdrop : image.drop k ≠ [] := by
    rw [ne_eq, List.drop_eq_nil_iff]
    omega
  have hrest : (pieces n (image.drop (k + n))).map (fun bytes => (c, bytes)) ≠ [] := by
    rw [pieces_of_ne hn (by rw [ne_eq, List.drop_eq_nil_iff]; omega)]
    simp
  rw [pieces_of_ne hn hdrop, List.drop_drop, List.map_cons, chunkMessages, if_neg hrest]
  rfl

variable (programs) in
theorem readChunk_ok {image : ByteString} {fileSize k : Nat} (h : OnCourse c level disk fs r left)
    (hchunk : r.chunk.actualSize ≤ r.chunk.capacity)
    (hat : AtOffset r.processor image fileSize imageChunkBytes k) (hk : k < image.length)
    (hlow : k + (image.length - 1 - k) / imageChunkBytes * imageChunkBytes < fileSize)
    (hend : imageChunkBytes ∣ image.length - k → fileSize ≤ image.length)
    (hfile : r.file < fs.unused) (hbytes : fs.bytes r.file = image) :
    ∃ pushed owed, OnCourse c level disk fs (r.readChunk fs) left ∧
      Stage programs c level disk fs (r.readChunk fs) left owed ∧
      (r.readChunk fs).messages = r.messages ++ pushed ∧
      pushed ++ owed = chunkMessages r.nChunks
        ((pieces imageChunkBytes (image.drop k)).map fun bytes => (c, bytes)) ++
          imageMessages programs.scripts c level disk left := by
  have hsame : { r.processor with
      source := { r.processor.source with content := fs.bytes r.file } } = r.processor := by
    rw [hbytes, ← hat.content]
  have hdrop : image.drop k ≠ [] := by
    rw [ne_eq, List.drop_eq_nil_iff]
    omega
  by_cases hmore : k + imageChunkBytes < image.length
  · obtain ⟨chunk, p, hget, hcontents, hat', hcomp, -⟩ :=
      getNextChunk_piece hat fs.disk hchunk hmore
    have hstep := div_step (m := image.length - 1) (k := k) (c := imageChunkBytes) (by decide)
      (by omega)
    have hnext : (Processor.preCompressing p).hasNextChunk = true := by
      rw [hat'.hasNextChunk, decide_eq_true_iff]
      have := Nat.zero_le
        ((image.length - 1 - (k + imageChunkBytes)) / imageChunkBytes * imageChunkBytes)
      omega
    set read : Request := { r with
      processor := p
      chunk := .empty
      nChunks := r.nChunks + 1
      messages := r.messages ++ [.header ⟨some p.compressor, some (BitVec.ofNat 64 r.nChunks), none⟩,
        .chunk chunk.contents] } with hread
    have hgo : r.readChunk fs = read.test := by
      simp only [Request.readChunk, hsame, hget, hat'.isOpen, Bool.true_eq_false, false_and, if_false,
        Request.pushChunk, hnext, if_true]
      rfl
    have hcourse : OnCourse c level disk fs read left := { h.got hget with }
    obtain ⟨hcourse', hstage⟩ := test_ok programs hcourse (Nat.le_refl _) hat' hmore
      (by rw [hstep]; exact hlow)
      (fun hdvd => hend (by
        rw [show image.length - k = imageChunkBytes + (image.length - (k + imageChunkBytes)) by omega]
        exact (Nat.dvd_add_right (dvd_refl imageChunkBytes)).mpr hdvd)) hfile hbytes
    rw [hgo]
    refine ⟨_, _, hcourse', hstage, rfl, ?_⟩
    rw [chunkMessages_pieces (by decide) hmore, hcomp, h.compressor, hcontents, List.append_assoc]
  · obtain ⟨chunk, p, hget, hcontents, hat'⟩ :=
      getNextChunk_last hat fs.disk hchunk hk (by omega)
    have hlast : (Processor.preCompressing p).hasNextChunk = false := by
      rw [hat'.hasNextChunk, Bool.and_eq_false_iff, Bool.not_eq_false', decide_eq_true_iff,
        decide_eq_false_iff_not]
      by_cases hshort : image.length < k + imageChunkBytes
      · exact .inl hshort
      · have hle := hend (by rw [show image.length - k = imageChunkBytes by omega])
        exact .inr (by omega)
    have hcourse := h.got hget
    have hpieces : chunkMessages r.nChunks ((pieces imageChunkBytes (image.drop k)).map
        fun bytes => (c, bytes)) = chunkMessages r.nChunks [(c, chunk.contents)] := by
      rw [pieces_of_le (by decide) hdrop (by rw [List.length_drop]; omega), hcontents]
      rfl
    rw [hpieces]
    by_cases hcopy : p.compressor = .COPY
    · have hgo : r.readChunk fs = Request.pushChunk { r with processor := p, chunk := chunk } := by
        simp only [Request.readChunk, hsame, hget, hcopy, ne_eq, not_true, and_false, if_false]
      obtain ⟨hpushed, hstage, hmessages⟩ :=
        pushChunk_last programs hcourse hlast
      rw [hgo]
      exact ⟨_, _, hpushed, hstage, hmessages, rfl⟩
    · have hgo : r.readChunk fs = { r with processor := p, chunk := chunk, phase := .removing } := by
        simp only [Request.readChunk, hsame, hget, hat'.closed, ne_eq, hcopy, not_false_eq_true,
          and_true, if_true]
      rw [hgo]
      exact ⟨[], _, { hcourse with }, .removing rfl hlast, (List.append_nil _).symm, rfl⟩

/-! ## Runs -/

/-- A request is on its course through `paths`: what it has pushed and what it owes make up the
messages for them. -/
def Advancing (programs : Programs) (c : Compressor) (level : Int) (disk : Disk Path)
    (paths : List Path) (fs : FileSystem Path) (r : Request) : Prop :=
  ∃ left owed, OnCourse c level disk fs r left ∧ Stage programs c level disk fs r left owed ∧
    r.messages ++ owed = imageMessages programs.scripts c level disk paths

variable {paths : List Path}

theorem Advancing.keeps (h : Advancing programs c level disk paths fs r) (hkeeps : Keeps fs fs' r) :
    Advancing programs c level disk paths fs' r := by
  obtain ⟨left, owed, hcourse, hstage, hmessages⟩ := h
  exact ⟨left, owed, hcourse.keeps hkeeps, hstage.keeps hkeeps, hmessages⟩

theorem Advancing.of_pushed {r' : Request} {left' : List Path} {pushed owed owed' : List Meaning}
    (hmessages : r.messages ++ owed = imageMessages programs.scripts c level disk paths)
    (hcourse : OnCourse c level disk fs' r' left')
    (hstage : Stage programs c level disk fs' r' left' owed')
    (hpushed : r'.messages = r.messages ++ pushed) (howed : pushed ++ owed' = owed) :
    Advancing programs c level disk paths fs' r' := by
  refine ⟨left', owed', hcourse, hstage, ?_⟩
  rw [hpushed, List.append_assoc, howed]
  exact hmessages

end

/-- The compressor, the level and the files of each request. -/
structure Job where
  compressor : Compressor
  compressionLevel : Int
  paths : List Path

section

variable {programs : Programs} {disk : Disk Path} {job : ι → Job} {s s' : State ι} {i : ι}

/-- Every request is on its course. -/
def AllAdvancing (programs : Programs) (disk : Disk Path) (job : ι → Job) (s : State ι) : Prop :=
  ∀ i, Advancing programs (job i).compressor (job i).compressionLevel disk (job i).paths s.files
    (s.requests i)

/-- One request takes a step, and the files keep what the others need. -/
theorem AllAdvancing.update (h : AllAdvancing programs disk job s) {fs : FileSystem Path}
    {r : Request} (hr : Advancing programs (job i).compressor (job i).compressionLevel disk
      (job i).paths fs r) (hkeeps : ∀ j, j ≠ i → Keeps s.files fs (s.requests j)) :
    AllAdvancing programs disk job ⟨fs, Function.update s.requests i r⟩ := by
  intro j
  change Advancing _ _ _ _ _ fs (Function.update s.requests i r j)
  by_cases hj : j = i
  · rw [hj, Function.update_self]
    exact hr
  · rw [Function.update_of_ne hj]
    exact (h j).keeps (hkeeps j hj)

theorem script_advancing (h : AllAdvancing programs disk job s)
    (hok : Undisturbed programs s (i, .script)) (hstep : step programs s (i, .script) = some s') :
    AllAdvancing programs disk job s' := by
  obtain ⟨⟨hphase, hnext⟩, hgo⟩ := Option.ite_none_right_eq_some.mp hstep
  obtain ⟨left, owed, hcourse, hstage, hmessages⟩ := h i
  cases hstage with
  | compressed hother | reading hother | removing hother => simp [hphase] at hother
  | idle _ hchunk =>
    obtain ⟨path, rest, rfl⟩ := List.exists_cons_of_ne_nil (hcourse.hasNextFile_iff.mp hnext)
    obtain ⟨content, hsource, hcontent⟩ := hcourse.sources path (by simp)
    have hpath : path ∈ (s.requests i).remaining.head? := by rw [hcourse.remaining]; rfl
    have hspared := hok path hpath content hcontent
    simp only [ScriptSpares, hcourse.compressor, hcourse.compressionLevel] at hspared
    set c := (job i).compressor with hc
    set level := (job i).compressionLevel with hlevel
    have hkeeps (j : ι) :
        Keeps s.files (afterScript programs c level s.files path content) (s.requests j) := by
      by_cases hcopy : c = .COPY
      · rw [afterScript, if_pos hcopy]
        exact .refl
      · rw [afterScript, if_neg hcopy]
        exact keeps_rewrite fun file hneeds hname => (hspared hcopy).2.2.2.2 file hname j hneeds
    have hfits : Fits (imageOf programs.scripts c level content).length content.length := by
      by_cases hcopy : c = .COPY
      · rw [imageOf, if_pos hcopy]
        exact fits_self _
      · rw [imageOf, if_neg hcopy]
        exact (hspared hcopy).2.2.2.1
    obtain ⟨r, hrun, hcourse', hstage', hsame⟩ := runScript_ok hcourse hchunk hsource hcontent
      (fun hcopy => ⟨(hspared hcopy).1, (hspared hcopy).2.1, (hspared hcopy).2.2.1⟩) hfits (hkeeps i)
    simp only [hrun, Option.some.injEq] at hgo
    rw [← hgo]
    apply h.update _ fun j _ => hkeeps j
    exact .of_pushed hmessages hcourse' hstage' (hsame.trans (List.append_nil _).symm)
      (List.nil_append _)

theorem open_advancing (h : AllAdvancing programs disk job s)
    (hstep : step programs s (i, .open) = some s') : AllAdvancing programs disk job s' := by
  obtain ⟨hphase, hgo⟩ := Option.ite_none_right_eq_some.mp hstep
  obtain ⟨left, owed, hcourse, hstage, hmessages⟩ := h i
  cases hstage with
  | idle hother | reading hother | removing hother => simp [hphase] at hother
  | compressed _ hchunk hname hsource hcontent himage hclosed hfits =>
    obtain ⟨pushed, owed', hcourse', hstage', hpushed, howed⟩ := openFile_ok programs
      hcourse hchunk hname hsource hcontent himage hclosed hfits
    rw [Option.some.injEq] at hgo
    rw [← hgo]
    exact h.update (.of_pushed hmessages hcourse' hstage' hpushed howed) fun _ _ => .refl

theorem read_advancing (h : AllAdvancing programs disk job s)
    (hstep : step programs s (i, .read) = some s') : AllAdvancing programs disk job s' := by
  obtain ⟨hphase, hgo⟩ := Option.ite_none_right_eq_some.mp hstep
  obtain ⟨left, owed, hcourse, hstage, hmessages⟩ := h i
  cases hstage with
  | idle hother | compressed hother | removing hother => simp [hphase] at hother
  | reading _ hchunk hat hk hlow hend hfile hbytes =>
    obtain ⟨pushed, owed', hcourse', hstage', hpushed, howed⟩ := readChunk_ok programs
      hcourse hchunk hat hk hlow hend hfile hbytes
    rw [Option.some.injEq] at hgo
    rw [← hgo]
    exact h.update (.of_pushed hmessages hcourse' hstage' hpushed howed) fun _ _ => .refl

theorem remove_advancing (h : AllAdvancing programs disk job s)
    (hok : Undisturbed programs s (i, .remove)) (hstep : step programs s (i, .remove) = some s') :
    AllAdvancing programs disk job s' := by
  obtain ⟨hphase, hgo⟩ := Option.ite_none_right_eq_some.mp hstep
  obtain ⟨left, owed, hcourse, hstage, hmessages⟩ := h i
  cases hstage with
  | idle hother | compressed hother | reading hother => simp [hphase] at hother
  | removing _ hlast =>
    obtain ⟨hcourse', hstage', hpushed⟩ :=
      pushChunk_last programs (hcourse.keeps (keeps_remove (hok i))) hlast
    rw [Option.some.injEq] at hgo
    rw [← hgo]
    exact h.update (.of_pushed hmessages hcourse' hstage' hpushed rfl) fun j _ =>
      keeps_remove (hok j)

theorem step_advancing {a : ι × Action} (h : AllAdvancing programs disk job s)
    (hok : Undisturbed programs s a) (hstep : step programs s a = some s') :
    AllAdvancing programs disk job s' := by
  obtain ⟨i, action⟩ := a
  cases action with
  | script => exact script_advancing h hok hstep
  | «open» => exact open_advancing h hstep
  | read => exact read_advancing h hstep
  | remove => exact remove_advancing h hok hstep

theorem AllAdvancing.complete (h : AllAdvancing programs disk job s) (i : ι) :
    Complete programs s i (imageMessages programs.scripts (job i).compressor
      (job i).compressionLevel disk (job i).paths) := by
  obtain ⟨left, owed, hcourse, hstage, hmessages⟩ := h i
  refine ⟨hcourse.unfailed, ⟨owed, hmessages⟩, fun hstuck => ?_⟩
  cases hstage with
  | idle hphase =>
    have hnone : left = [] := by
      by_contra hne
      have hnot := hstuck .script
      rw [step, if_pos ⟨hphase, hcourse.hasNextFile_iff.mpr hne⟩] at hnot
      contradiction
    rwa [hnone, imageMessages, List.append_nil] at hmessages
  | compressed hphase =>
    have hnot := hstuck .open
    rw [step, if_pos hphase] at hnot
    contradiction
  | reading hphase =>
    have hnot := hstuck .read
    rw [step, if_pos hphase] at hnot
    contradiction
  | removing hphase =>
    have hnot := hstuck .remove
    rw [step, if_pos hphase] at hnot
    contradiction

namespace Request

def start (p : PreCompressingFileProcessor) : Request :=
  ⟨p, .idle, 0, .withCapacity (11 * p.chunkSize * 1024 / 10), 0, [], false⟩

end Request

theorem setCompressor_chunks {c : Compressor} {level : Int} {p q : PreCompressingFileProcessor}
    (h : p.setCompressor c level = .ok q) :
    q.toFileProcessingStrategy = p.toFileProcessingStrategy := by
  unfold PreCompressingFileProcessor.setCompressor at h
  split at h
  · rw [← Except.ok.inj h]
  · split at h
    · rw [← Except.ok.inj h]
    · split at h
      · rw [← Except.ok.inj h]
      · contradiction

theorem configureFileProcessor_chunks {host : Host} {request : FileTransmissionRequest}
    {p : PreCompressingFileProcessor}
    (h : configureFileProcessor host request = .ok (.preCompressing p)) :
    p.chunkSize = 1024 ∧ p.chunkSizeBytes = imageChunkBytes := by
  unfold configureFileProcessor at h
  cases hmode : request.mode.getD .NO_COMPRESSION with
  | NO_COMPRESSION | AUTOCOMP => simp [hmode] at h
  | COMPRESS =>
    simp only [hmode] at h
    cases hset : AutomaticCompressionStrategy.setCompressor (request.compressor.getD .ZLIB)
        (requestedLevel request) <;> simp [hset, Except.map] at h
  | TRAIN =>
    simp only [hmode] at h
    cases htraining : host.training request <;> simp [htraining, Except.map] at h
  | PRE_COMPRESS =>
    simp only [hmode] at h
    cases hset : PreCompressingFileProcessor.new.setCompressor (request.compressor.getD .ZLIB)
        (requestedLevel request) with
    | error => simp [hset, Except.map] at h
    | ok q =>
      simp only [hset, Except.map, Except.ok.injEq, Processor.preCompressing.injEq] at h
      rw [← h, setCompressor_chunks hset]
      exact ⟨rfl, rfl⟩

/-- In a run whose steps do not disturb, every request sends the images of all its files. -/
theorem complete_of_undisturbed (programs : Programs) (host : Host) (fs : FileSystem Path)
    {request : ι → FileTransmissionRequest} {p q : ι → PreCompressingFileProcessor}
    {node : ι → Node} {s : State ι}
    (hconfigure : ∀ i, configureFileProcessor host (request i) = .ok (.preCompressing (p i)))
    (hroot : ∀ i, host.root ((request i).filename.getD []) = .ok (node i))
    (hunlocked : ∀ i errno, node i ≠ .locked errno)
    (hfiles : ∀ i, ∀ path ∈ (node i).files ((request i).filename.getD []), fs.disk path ≠ none)
    (hprepare : ∀ i, (Processor.preCompressing (p i)).preparePath host fs.disk
      ((request i).filename.getD []) = .ok (.preCompressing (q i)))
    (hruns : Runs (step programs) (Undisturbed programs) ⟨fs, fun i => .start (q i)⟩ s) (i : ι) :
    Complete programs s i (imageMessages programs.scripts (p i).compressor (p i).compressionLevel
      fs.disk ((node i).listing ((request i).filename.getD []))) := by
  set job : ι → Job := fun i => ⟨(p i).compressor, (p i).compressionLevel,
    (node i).listing ((request i).filename.getD [])⟩
  have hstart : AllAdvancing programs fs.disk job ⟨fs, fun i => .start (q i)⟩ := by
    intro i
    obtain ⟨hsize, hbytes⟩ := configureFileProcessor_chunks (hconfigure i)
    obtain ⟨e, hexplore, hremaining⟩ := DirectoryExplorer.explore_ok (hunlocked i) (hfiles i)
    have hq := hprepare i
    simp only [Processor.preparePath, FileProcessingStrategy.preparePath, hroot i, hexplore,
      Except.map, Except.ok.injEq, Processor.preCompressing.injEq] at hq
    change Advancing _ _ _ _ _ fs (Request.start (q i))
    rw [← hq]
    refine ⟨_, _, ⟨rfl, rfl, hsize, hbytes, ⟨e, rfl, hremaining⟩, fun path hpath => ?_, rfl⟩,
      .idle rfl (Nat.zero_le _), rfl⟩
    obtain ⟨content, hcontent⟩ :=
      Option.ne_none_iff_exists'.mp (hfiles i path (Node.mem_listing.mp hpath))
    exact ⟨content, hcontent, hcontent⟩
  have hall := hruns.invariant (AllAdvancing programs fs.disk job) hstart
    fun s a s' h hok hstep => step_advancing h hok hstep
  exact hall.complete i

end

def sampleFiles (content : ByteString) : FileSystem Path where
  names := Function.update (fun _ => none) (ascii "a") (some 0)
  bytes _ := content
  unused := 1
  names_lt path file h := by
    by_cases hp : path = ascii "a"
    · rw [hp, Function.update_self, Option.some.injEq] at h
      omega
    · rw [Function.update_of_ne hp] at h
      contradiction

def samplePrograms : Programs := ⟨storedScripts, fun _ _ fs => fs⟩

/-- Two requests to have `a` pre-compressed. -/
def sampleState (content : ByteString) : State Bool :=
  ⟨sampleFiles content, fun _ => .start { sampleProcessor with workingPath := ascii "a" }⟩

def sampleMessages (content : ByteString) : List Meaning :=
  imageMessages storedScripts .ZLIB 6 (sampleFiles content).disk [ascii "a"]

instance (s : State Bool) (p : PreCompressingFileProcessor) (path : Path) (content : ByteString) :
    Decidable (ScriptSpares samplePrograms s p path content) := by
  unfold ScriptSpares Request.Needs
  infer_instance

instance (s : State Bool) : ∀ a, Decidable (Undisturbed samplePrograms s a)
  | (i, .script) => inferInstanceAs (Decidable (∀ path ∈ (s.requests i).remaining.head?,
      ∀ content ∈ s.files.disk path, (s.requests i).processor.compressor ≠ .COPY →
        ScriptSpares samplePrograms s (s.requests i).processor path content))
  | (i, .remove) => inferInstanceAs (Decidable (∀ j : Bool,
      (s.requests i).processor.currentCompressedFileName ∉ (s.requests j).neededNames))
  | (_, .open) | (_, .read) => inferInstanceAs (Decidable True)

/-- Both scripts run before the first removal, and both files are open by then. -/
def undisturbedRun : List (Bool × Action) :=
  [(false, .script), (true, .script), (false, .open), (true, .open), (false, .read),
    (false, .remove), (true, .read), (true, .remove)]

theorem undisturbedRun_complete :
    ∃ s, Runs (step samplePrograms) (Undisturbed samplePrograms) (sampleState [7]) s ∧
      (s.requests true).messages = sampleMessages [7] ∧
      ∀ i, Complete samplePrograms s i (sampleMessages [7]) := by
  have hexec : ∃ s, exec (guarded (step samplePrograms) (Undisturbed samplePrograms))
      (sampleState [7]) undisturbedRun = some s ∧ (s.requests true).phase = .idle ∧
        (s.requests true).hasNextFile = false := ⟨_, rfl, rfl, rfl⟩
  obtain ⟨s, hs, hphase, hdone⟩ := hexec
  have hruns := Runs.start.of_guarded hs
  have hcomplete (i : Bool) : Complete samplePrograms s i (sampleMessages [7]) :=
    complete_of_undisturbed samplePrograms sampleHost (sampleFiles [7])
      (fun _ => show configureFileProcessor sampleHost (sampleRequest .PRE_COMPRESS none) = _ from rfl)
      (fun _ => (sample_readable [7]).root) (fun _ => (sample_readable [7]).unlocked)
      (fun _ path hpath => by
        rw [List.mem_singleton.mp hpath]
        exact Option.some_ne_none [7])
      (fun _ => rfl) hruns i
  refine ⟨s, hruns, (hcomplete true).complete fun a => ?_, hcomplete⟩
  cases a <;> simp [step, hphase, hdone]

/-- The first request removes the compressed file before the second has opened it. -/
theorem removed_before_open : ¬ ∀ s, Reachable (step samplePrograms) (sampleState [7]) s →
    ∀ i, Complete samplePrograms s i (sampleMessages [7]) := by
  intro hall
  have hexec : ∃ s, exec (step samplePrograms) (sampleState [7]) [(false, .script), (true, .script),
      (false, .open), (false, .read), (false, .remove), (true, .open)] = some s ∧
        (s.requests true).failed = true := ⟨_, rfl, rfl⟩
  obtain ⟨s, hs, hfailed⟩ := hexec
  have hunfailed := (hall s (reachable_exec hs) true).unfailed
  rw [hfailed] at hunfailed
  contradiction

end Server.Sharing

end Autocomp
